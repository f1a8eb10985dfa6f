import Mathlib.Data.List.Dedup
import Mathlib.Data.List.Induction

/-! Maps that hold several values for a name, as lists of entries. Inserting replaces all values of a name: a map that is
built again by insertions keeps the last value of each. -/
namespace Ecphoria.Library

section
variable {κ ν : Type} [DecidableEq κ]

def valuesOf (entries : List (κ × ν)) (name : κ) : List ν := (entries.filter (fun entry => entry.1 = name)).map Prod.snd

def insertEntry (entries : List (κ × ν)) (entry : κ × ν) : List (κ × ν) :=
  entries.filter (fun old => old.1 ≠ entry.1) ++ [entry]

def insertKept (keep : κ → Bool) (entries : List (κ × ν)) : List (κ × ν) :=
  entries.foldl (fun built entry => if keep entry.1 then insertEntry built entry else built) []

def insertDefault (entries : List (κ × ν)) (entry : κ × ν) : List (κ × ν) :=
  if (valuesOf entries entry.1).isEmpty then entries ++ [entry] else entries

def lastOr (entries : List (κ × ν)) (entry : κ × ν) (name : κ) : List ν :=
  if entry.1 = name ∧ valuesOf entries name = [] then [entry.2] else (valuesOf entries name).getLast?.toList

/-- No value of the name is lost if the last one is kept, and none is added. -/
def Carried (entries : List (κ × ν)) (given name : κ) : Prop :=
  (valuesOf entries name).length ≤ 1 ∧ (given = name → valuesOf entries name ≠ [])

@[simp] theorem valuesOf_nil (name : κ) : valuesOf ([] : List (κ × ν)) name = [] := rfl

theorem valuesOf_append (first second : List (κ × ν)) (name : κ) :
    valuesOf (first ++ second) name = valuesOf first name ++ valuesOf second name := by
  rw [valuesOf,List.filter_append,List.map_append]
  rfl

theorem valuesOf_flatMap {α : Type} (items : List α) (entries : α → List (κ × ν)) (name : κ) :
    valuesOf (items.flatMap entries) name = items.flatMap (fun item => valuesOf (entries item) name) := by
  induction items with
  | nil => rfl
  | cons item items ih => rw [List.flatMap_cons,valuesOf_append,ih,List.flatMap_cons]

theorem valuesOf_singleton (entry : κ × ν) (name : κ) : valuesOf [entry] name = if entry.1 = name then [entry.2] else [] := by
  by_cases own : entry.1 = name <;> simp [valuesOf,own]

theorem valuesOf_insert (entries : List (κ × ν)) (entry : κ × ν) (name : κ) :
    valuesOf (insertEntry entries entry) name = if entry.1 = name then [entry.2] else valuesOf entries name := by
  rw [insertEntry,valuesOf_append,valuesOf_singleton]
  split
  next own =>
    have gone : valuesOf (entries.filter (fun old => old.1 ≠ entry.1)) name = [] := by
      rw [valuesOf,List.filter_filter,List.map_eq_nil_iff,List.filter_eq_nil_iff]
      intro old _
      simp [own]
    rw [gone,List.nil_append]
  next other =>
    rw [List.append_nil,valuesOf,valuesOf,List.filter_filter]
    refine congrArg (List.map Prod.snd) (List.filter_congr ?_)
    intro old _
    by_cases here : old.1 = name
    · simp [here,Ne.symm other]
    · simp [here]

theorem valuesOf_insertKept (keep : κ → Bool) (entries : List (κ × ν)) (name : κ) :
    valuesOf (insertKept keep entries) name = if keep name then (valuesOf entries name).getLast?.toList else [] := by
  induction entries using List.reverseRecOn with
  | nil => simp [insertKept]
  | append_singleton entries entry ih =>
    rw [insertKept,List.foldl_append,List.foldl_cons,List.foldl_nil,← insertKept,valuesOf_append,valuesOf_singleton]
    by_cases kept : keep entry.1 = true
    · rw [if_pos kept,valuesOf_insert,ih]
      by_cases own : entry.1 = name
      · rw [if_pos own,if_pos own,if_pos (own ▸ kept),List.getLast?_concat]
        rfl
      · rw [if_neg own,if_neg own,List.append_nil]
    · rw [if_neg kept,ih]
      by_cases own : entry.1 = name
      · rw [if_neg (own ▸ kept),if_neg (own ▸ kept)]
      · rw [if_neg own,List.append_nil]

omit [DecidableEq κ] in
theorem getLast?_toList_iff {values : List ν} : values.getLast?.toList = values ↔ values.length ≤ 1 := by
  match values with
  | [] => simp
  | [_] => simp
  | a :: b :: rest =>
    refine iff_of_false ?_ (by simp)
    intro same
    have length := congrArg List.length same
    rw [List.getLast?_cons_cons] at length
    cases last : (b :: rest).getLast? <;> simp [last] at length

theorem valuesOf_insertDefault {entries built : List (κ × ν)} {name : κ} (entry : κ × ν)
    (last : valuesOf built name = (valuesOf entries name).getLast?.toList) :
    valuesOf (insertDefault built entry) name = lastOr entries entry name := by
  have none_iff : valuesOf built name = [] ↔ valuesOf entries name = [] := by
    rw [last,Option.toList_eq_nil_iff,List.getLast?_eq_none_iff]
  rw [insertDefault,lastOr]
  by_cases own : entry.1 = name
  · subst own
    by_cases empty : valuesOf entries entry.1 = []
    · rw [if_pos (List.isEmpty_iff.mpr (none_iff.mpr empty)),if_pos ⟨rfl,empty⟩,valuesOf_append,none_iff.mpr empty,
        valuesOf_singleton,if_pos rfl,List.nil_append]
    · rw [if_neg (fun none => empty (none_iff.mp (List.isEmpty_iff.mp none))),if_neg (fun both => empty both.2),last]
  · have other : ¬(entry.1 = name ∧ valuesOf entries name = []) := fun both => own both.1
    rw [if_neg other,← last]
    split
    · rw [valuesOf_append,valuesOf_singleton,if_neg own,List.append_nil]
    · rfl

theorem lastOr_eq_iff {entries : List (κ × ν)} {entry : κ × ν} {name : κ} :
    lastOr entries entry name = valuesOf entries name ↔ Carried entries entry.1 name := by
  rw [lastOr,Carried]
  by_cases given : entry.1 = name ∧ valuesOf entries name = []
  · rw [if_pos given,given.2]
    exact iff_of_false (List.cons_ne_nil _ _) (fun carried => carried.2 given.1 rfl)
  · rw [if_neg given,getLast?_toList_iff]
    exact ⟨fun single => ⟨single,fun own none => given ⟨own,none⟩⟩,fun carried => carried.1⟩

theorem insertEntry_fresh {entries : List (κ × ν)} {entry : κ × ν} (fresh : entry.1 ∉ entries.map Prod.fst) :
    insertEntry entries entry = entries ++ [entry] := by
  rw [insertEntry,List.filter_eq_self.mpr]
  intro old inside
  exact decide_eq_true (fun same : old.1 = entry.1 => fresh (same ▸ List.mem_map_of_mem inside))

theorem foldl_insertEntry {entries : List (κ × ν)} (distinct : (entries.map Prod.fst).Nodup) :
    entries.foldl insertEntry [] = entries := by
  induction entries using List.reverseRecOn with
  | nil => rfl
  | append_singleton entries entry ih =>
    rw [List.map_append,List.map_singleton,List.nodup_append] at distinct
    rw [List.foldl_append,ih distinct.1]
    exact insertEntry_fresh (fun inside => distinct.2.2 _ inside _ (List.mem_singleton_self _) rfl)

theorem names_insertEntry (entries : List (κ × ν)) (entry : κ × ν) : ∀ name,
    name ∈ (insertEntry entries entry).map Prod.fst ↔ name ∈ entries.map Prod.fst ∨ name = entry.1 := by
  intro name
  simp only [insertEntry,List.map_append,List.mem_append,List.map_singleton,List.mem_singleton]
  constructor
  · rintro (old | own)
    · obtain ⟨kept,inside,rfl⟩ := List.mem_map.mp old
      exact .inl (List.mem_map_of_mem (List.mem_of_mem_filter inside))
    · exact .inr own
  · rintro (old | own)
    · by_cases same : name = entry.1
      · exact .inr same
      · obtain ⟨kept,inside,rfl⟩ := List.mem_map.mp old
        exact .inl (List.mem_map_of_mem (List.mem_filter.mpr ⟨inside,decide_eq_true same⟩))
    · exact .inr own

theorem names_foldl_insertEntry (entries : List (κ × ν)) : ((entries.foldl insertEntry []).map Prod.fst).Nodup ∧
    ∀ name,name ∈ (entries.foldl insertEntry []).map Prod.fst ↔ name ∈ entries.map Prod.fst := by
  induction entries using List.reverseRecOn with
  | nil => exact ⟨List.nodup_nil,fun _ => Iff.rfl⟩
  | append_singleton entries entry ih =>
    rw [List.foldl_append,List.foldl_cons,List.foldl_nil]
    refine ⟨?_,fun name => ?_⟩
    · rw [insertEntry,List.map_append,List.map_singleton,List.nodup_append]
      refine ⟨ih.1.sublist (List.filter_sublist.map _),List.nodup_singleton _,?_⟩
      rintro name inside other own rfl
      obtain ⟨kept,there,rfl⟩ := List.mem_map.mp inside
      exact of_decide_eq_true (List.mem_filter.mp there).2 (List.mem_singleton.mp own)
    · rw [names_insertEntry,ih.2,List.map_append,List.mem_append,List.map_singleton,List.mem_singleton]

theorem length_foldl_insertEntry {entries : List (κ × ν)} :
    (entries.foldl insertEntry []).length = entries.length ↔ (entries.map Prod.fst).Nodup := by
  constructor
  · intro same
    obtain ⟨distinct,listed⟩ := names_foldl_insertEntry entries
    have perm : ((entries.foldl insertEntry []).map Prod.fst).Perm (entries.map Prod.fst).dedup :=
      (List.perm_ext_iff_of_nodup distinct (List.nodup_dedup _)).mpr (fun name => (listed name).trans List.mem_dedup.symm)
    have size : (entries.map Prod.fst).dedup.length = (entries.map Prod.fst).length := by
      rw [← perm.length_eq,List.length_map,List.length_map,same]
    exact List.dedup_eq_self.mp ((List.dedup_sublist _).eq_of_length size)
  · intro distinct
    rw [foldl_insertEntry distinct]

end
end Ecphoria.Library
