import Mathlib.Data.List.Forall2
import Mathlib.Data.List.Nodup
import Mathlib.Data.List.Induction
import Mathlib.Algebra.GroupWithZero.Nat

/-! Items merged by key. The first item of a key is kept, and the later ones of the key are
merged into it in turn; keeping the greater of two marks ends with the greatest. Two lists
matched item by item have a partner for each item. -/
namespace Ecphoria.Library

section
variable {α κ : Type} [DecidableEq κ] {key : α → κ} {merge : α → α → α}

def mergeInto (key : α → κ) (merge : α → α → α) (kept : List α) (a : α) : List α :=
  if key a ∈ kept.map key then kept.map (fun b => if key b = key a then merge b a else b) else kept ++ [a]

def mergeAll (key : α → κ) (merge : α → α → α) (items : List α) : List α := items.foldl (mergeInto key merge) []

theorem mergeAll_append (items : List α) (a : α) :
    mergeAll key merge (items ++ [a]) = mergeInto key merge (mergeAll key merge items) a := by
  simp [mergeAll]

theorem keys_mergeInto (same : ∀ b a, key (merge b a) = key b) (kept : List α) (a : α) :
    (mergeInto key merge kept a).map key = if key a ∈ kept.map key then kept.map key else kept.map key ++ [key a] := by
  unfold mergeInto
  split
  next =>
    rw [List.map_map]
    apply List.map_congr_left
    intro b _
    rw [Function.comp_apply]
    split
    next => exact same b a
    next => rfl
  next => simp

theorem mem_keys_mergeAll (same : ∀ b a, key (merge b a) = key b) (items : List α) (k : κ) :
    k ∈ (mergeAll key merge items).map key ↔ k ∈ items.map key := by
  induction items using List.reverseRecOn with
  | nil => exact Iff.rfl
  | append_singleton items a ih =>
    rw [mergeAll_append,keys_mergeInto same,List.map_append,List.mem_append,← ih]
    split
    next known =>
      refine (or_iff_left_of_imp ?_).symm
      intro last
      rwa [List.mem_singleton.mp last]
    next => rw [List.mem_append]; rfl

theorem nodup_mergeAll (same : ∀ b a, key (merge b a) = key b) (items : List α) :
    ((mergeAll key merge items).map key).Nodup := by
  induction items using List.reverseRecOn with
  | nil => exact List.nodup_nil
  | append_singleton items a ih =>
    rw [mergeAll_append,keys_mergeInto same]
    split
    next => exact ih
    next fresh => exact ih.append (List.nodup_singleton _) (List.disjoint_singleton.mpr fresh)

theorem mem_mergeAll (same : ∀ b a, key (merge b a) = key b) {items : List α} {b : α}
    (kept : b ∈ mergeAll key merge items) : ∃ first rest,
      items.filter (fun a => key a = key b) = first :: rest ∧ rest.foldl merge first = b := by
  induction items using List.reverseRecOn generalizing b with
  | nil => cases kept
  | append_singleton items a ih =>
    rw [mergeAll_append,mergeInto] at kept
    have apart (b : α) (other : key b ≠ key a) :
        (items ++ [a]).filter (fun c => key c = key b) = items.filter (fun c => key c = key b) := by
      simp [List.filter_append,Ne.symm other]
    split at kept
    next known =>
      obtain ⟨old,inside,equal⟩ := List.mem_map.mp kept
      obtain ⟨first,rest,group,folded⟩ := ih inside
      split at equal
      next named =>
        have shared : key b = key old := equal ▸ same old a
        refine ⟨first,rest ++ [a],?_,?_⟩
        · rw [List.filter_append,shared,group]
          simp [named]
        · rw [List.foldl_append,folded,← equal]
          rfl
      next other =>
        subst equal
        exact ⟨first,rest,(apart old other).trans group,folded⟩
    next fresh =>
      rcases List.mem_append.mp kept with inside | last
      · have other : key b ≠ key a := fun equal => fresh (List.mem_map.mpr ⟨b,inside,equal⟩)
        obtain ⟨first,rest,group,folded⟩ := ih inside
        exact ⟨first,rest,(apart b other).trans group,folded⟩
      · have equal : b = a := List.mem_singleton.mp last
        subst equal
        have absent : items.filter (fun c => key c = key b) = [] := by
          rw [List.filter_eq_nil_iff]
          intro c inside shared
          exact fresh ((mem_keys_mergeAll same items (key b)).mpr (List.mem_map.mpr ⟨c,inside,of_decide_eq_true shared⟩))
        exact ⟨b,[],by simp [List.filter_append,absent],rfl⟩

end

section
variable {α κ : Type} [DecidableEq κ]

def appendItems (group pushed : κ × List α) : κ × List α := (group.1,group.2 ++ pushed.2)

private theorem flatten_appended (kept : List (κ × List α)) (a : κ × List α) (distinct : (kept.map Prod.fst).Nodup)
    (known : a.1 ∈ kept.map Prod.fst) :
    ((kept.map (fun b => if b.1 = a.1 then appendItems b a else b)).map Prod.snd).flatten.Perm
      ((kept.map Prod.snd).flatten ++ a.2) := by
  induction kept with
  | nil => exact absurd known List.not_mem_nil
  | cons b kept ih =>
    obtain ⟨fresh,distinct⟩ := List.nodup_cons.mp distinct
    simp only [List.map_cons,List.flatten_cons]
    by_cases here : b.1 = a.1
    · have others : kept.map (fun b => if b.1 = a.1 then appendItems b a else b) = kept := by
        conv_rhs => rw [← List.map_id kept]
        apply List.map_congr_left
        intro c inside
        have other : c.1 ≠ a.1 := by
          intro equal
          exact fresh (List.mem_map.mpr ⟨c,inside,equal.trans here.symm⟩)
        rw [if_neg other,id]
      rw [if_pos here,others,appendItems,List.append_assoc,List.append_assoc]
      exact List.perm_append_comm.append_left _
    · rw [if_neg here,List.append_assoc]
      refine (ih distinct ?_).append_left _
      exact (List.mem_cons.mp known).resolve_left (fun equal => here equal.symm)

omit [DecidableEq κ] in
private theorem key_appendItems (group pushed : κ × List α) : (appendItems group pushed).1 = group.1 := rfl

theorem nodup_groups (items : List (κ × List α)) : ((mergeAll Prod.fst appendItems items).map Prod.fst).Nodup :=
  nodup_mergeAll key_appendItems items

theorem mem_groups (items : List (κ × List α)) (k : κ) :
    k ∈ (mergeAll Prod.fst appendItems items).map Prod.fst ↔ k ∈ items.map Prod.fst :=
  mem_keys_mergeAll key_appendItems items k

theorem flatten_mergeAll (items : List (κ × List α)) :
    ((mergeAll Prod.fst appendItems items).map Prod.snd).flatten.Perm (items.map Prod.snd).flatten := by
  induction items using List.reverseRecOn with
  | nil => exact .refl _
  | append_singleton items a ih =>
    have distinct := nodup_groups items
    rw [mergeAll_append,List.map_append,List.flatten_append,List.map_singleton,List.flatten_singleton]
    refine List.Perm.trans ?_ (ih.append_right a.2)
    unfold mergeInto
    split
    next known => exact flatten_appended _ a distinct known
    next => simp

theorem items_mergeAll {items : List (κ × List α)} {group : κ × List α}
    (kept : group ∈ mergeAll Prod.fst appendItems items) :
    group.2 = ((items.filter (fun a => a.1 = group.1)).map Prod.snd).flatten := by
  have folded (rest : List (κ × List α)) (first : κ × List α) :
      (rest.foldl appendItems first).2 = first.2 ++ (rest.map Prod.snd).flatten := by
    induction rest generalizing first with
    | nil => simp
    | cons a rest ih => rw [List.foldl_cons,ih,appendItems,List.map_cons,List.flatten_cons,List.append_assoc]
  obtain ⟨first,rest,listed,merged⟩ := mem_mergeAll key_appendItems kept
  rw [listed,← merged,folded,List.map_cons,List.flatten_cons]

end

section
variable {F : Type} {lt : F → F → Bool}

def greater (lt : F → F → Bool) (x y : F) : F := if lt x y then y else x

def Comparable (lt : F → F → Bool) (x : F) : Prop := ∀ a c, lt a c = true → lt a x = true ∨ lt x c = true

theorem foldl_greater_mem (rest : List F) (first : F) : rest.foldl (greater lt) first ∈ first :: rest := by
  induction rest generalizing first with
  | nil => exact List.mem_cons_self
  | cons y rest ih =>
    have here : greater lt first y = first ∨ greater lt first y = y := by
      unfold greater
      split
      next => exact Or.inr rfl
      next => exact Or.inl rfl
    rw [List.foldl_cons]
    rcases here with kept | raised
    · rw [kept]
      exact List.cons_subset_cons first (List.subset_cons_self y rest) (ih first)
    · rw [raised]
      exact List.mem_cons_of_mem _ (ih y)

theorem foldl_greater (asymm : ∀ a b, lt a b = true → lt b a = false) {rest : List F} {first : F}
    (comparable : ∀ x ∈ first :: rest, Comparable lt x) :
    ∀ x ∈ first :: rest, lt (rest.foldl (greater lt) first) x = false := by
  induction rest generalizing first with
  | nil =>
    intro x listed
    cases List.mem_singleton.mp listed
    exact Bool.eq_false_iff.mpr (fun less => Bool.eq_false_iff.mp (asymm _ _ less) less)
  | cons y rest ih =>
    have tail : ∀ x ∈ rest, Comparable lt x :=
      fun x listed => comparable x (List.mem_cons_of_mem _ (List.mem_cons_of_mem _ listed))
    rw [List.foldl_cons]
    by_cases less : lt first y = true
    · have here : greater lt first y = y := if_pos less
      rw [here]
      have best := ih (fun x listed => comparable x (List.mem_cons_of_mem _ listed))
      intro x listed
      rcases List.mem_cons.mp listed with rfl | later
      · by_contra above
        rcases comparable y (by simp) _ _ ((Bool.not_eq_false _).mp above) with left | right
        · exact Bool.eq_false_iff.mp (best y List.mem_cons_self) left
        · exact Bool.eq_false_iff.mp (asymm _ _ less) right
      · exact best x later
    · have here : greater lt first y = first := if_neg less
      rw [here]
      have best := ih (by
        intro x listed
        rcases List.mem_cons.mp listed with same | later
        · exact same ▸ comparable first List.mem_cons_self
        · exact tail x later)
      intro x listed
      rcases List.mem_cons.mp listed with rfl | later
      · exact best x List.mem_cons_self
      · rcases List.mem_cons.mp later with rfl | later
        · by_contra above
          rcases comparable first List.mem_cons_self _ _ ((Bool.not_eq_false _).mp above) with left | right
          · exact Bool.eq_false_iff.mp (best first List.mem_cons_self) left
          · exact less right
        · exact best x (List.mem_cons_of_mem _ later)

end

section
variable {α β : Type} {related wider : α → β → Prop} {xs : List α} {ys : List β}

theorem exists_of_forall₂ (each : List.Forall₂ related xs ys) {x : α} (inside : x ∈ xs) : ∃ y ∈ ys, related x y := by
  induction each with
  | nil => cases inside
  | cons first _ ih =>
    rcases List.mem_cons.mp inside with rfl | later
    · exact ⟨_,List.mem_cons_self,first⟩
    · obtain ⟨y,listed,holds⟩ := ih later
      exact ⟨y,List.mem_cons_of_mem _ listed,holds⟩

theorem forall₂_of_mem (each : List.Forall₂ related xs ys) (step : ∀ x ∈ xs, ∀ y, related x y → wider x y) :
    List.Forall₂ wider xs ys := by
  induction each with
  | nil => exact .nil
  | cons first _ ih =>
    exact .cons (step _ List.mem_cons_self _ first) (ih (fun x later => step x (List.mem_cons_of_mem _ later)))

theorem eq_of_map_eq {f : α → β} {as bs : List α} (same : as.map f = bs.map f)
    (apart : ∀ a ∈ as, ∀ b ∈ bs, f a = f b → a = b) : as = bs := by
  induction as generalizing bs with
  | nil => exact (List.map_eq_nil_iff.mp same.symm).symm
  | cons a as ih =>
    cases bs with
    | nil => cases same
    | cons b bs =>
      rw [List.map_cons,List.map_cons,List.cons.injEq] at same
      rw [apart a List.mem_cons_self b List.mem_cons_self same.1,
        ih same.2 (fun a here b there => apart a (List.mem_cons_of_mem _ here) b (List.mem_cons_of_mem _ there))]

end

end Ecphoria.Library
