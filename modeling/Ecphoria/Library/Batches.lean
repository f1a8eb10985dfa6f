import Mathlib.Logic.Function.Basic
import Mathlib.Data.List.Basic

/-! Looking up keys in batches. A list is cut into batches, what is found for them is gathered in a map, and the map
is emptied key by key: what comes out stands in the order in which the keys first occur. -/
namespace Ecphoria.Library

section
variable {α : Type} (size : Nat)

def batchesFrom (held : List α) : List α → List (List α)
  | [] => if held.isEmpty then [] else [held]
  | a :: rest =>
    if held.length + 1 < size then batchesFrom (held ++ [a]) rest else (held ++ [a]) :: batchesFrom [] rest

/-- `slice::chunks`: batches of one size, and a shorter last one. -/
def batches (items : List α) : List (List α) := batchesFrom size [] items

theorem flatten_batchesFrom (held items : List α) : (batchesFrom size held items).flatten = held ++ items := by
  induction items generalizing held with
  | nil => cases held <;> simp [batchesFrom]
  | cons a items ih =>
    rw [batchesFrom]
    split
    next => rw [ih,List.append_assoc,List.singleton_append]
    next => rw [List.flatten_cons,ih,List.nil_append,List.append_assoc,List.singleton_append]

theorem flatten_batches (items : List α) : (batches size items).flatten = items := flatten_batchesFrom size [] items

end

section
variable {κ β : Type} [DecidableEq κ] (key : β → κ)

def keep (found : κ → Option β) (value : β) : κ → Option β := Function.update found (key value) (some value)

def takeFound (found : κ → Option β) : List κ → List β
  | [] => []
  | k :: rest =>
    match found k with
    | some value => value :: takeFound (Function.update found k none) rest
    | none => takeFound found rest

variable {key} {found : κ → Option β} {k : κ}

theorem foldl_keep {truth : κ → Option β} {values : List β} (named : ∀ value ∈ values, truth (key value) = some value)
    (found : κ → Option β) (k : κ) :
    values.foldl (keep key) found k = if ∃ value ∈ values, key value = k then truth k else found k := by
  induction values generalizing found with
  | nil => simp
  | cons value values ih =>
    rw [List.foldl_cons,ih (fun other inside => named other (List.mem_cons_of_mem value inside)),keep]
    by_cases later : ∃ other ∈ values, key other = k
    · rw [if_pos later,if_pos (later.imp (fun other given => ⟨List.mem_cons_of_mem value given.1,given.2⟩))]
    · rw [if_neg later]
      by_cases here : key value = k
      · rw [if_pos ⟨value,List.mem_cons_self,here⟩,← here,Function.update_self]
        exact (named value List.mem_cons_self).symm
      · rw [Function.update_of_ne (Ne.symm here),if_neg]
        rintro ⟨other,inside,same⟩
        rcases List.mem_cons.mp inside with rfl | further
        · exact here same
        · exact later ⟨other,further,same⟩

theorem found_of_update {other : κ} {value : β} (got : Function.update found k none other = some value) :
    other ≠ k ∧ found other = some value := by
  by_cases same : other = k
  · rw [same,Function.update_self] at got
    cases got
  · rw [Function.update_of_ne same] at got
    exact ⟨same,got⟩

theorem mem_takeFound {keys : List κ} {value : β} :
    value ∈ takeFound found keys ↔ ∃ k ∈ keys, found k = some value := by
  induction keys generalizing found with
  | nil => simp [takeFound]
  | cons k keys ih =>
    rw [takeFound,List.exists_mem_cons_iff]
    cases first : found k with
    | none => simp [ih]
    | some held =>
      rw [List.mem_cons,ih]
      constructor
      · rintro (rfl | ⟨other,inside,got⟩)
        · exact Or.inl rfl
        · exact Or.inr ⟨other,inside,(found_of_update got).2⟩
      · rintro (same | ⟨other,inside,got⟩)
        · exact Or.inl (Option.some.inj same).symm
        · by_cases again : other = k
          · rw [again,first] at got
            exact Or.inl (Option.some.inj got).symm
          · exact Or.inr ⟨other,inside,by rwa [Function.update_of_ne again]⟩

theorem pairwise_takeFound (named : ∀ k value, found k = some value → key value = k) (keys : List κ) :
    (takeFound found keys).Pairwise (fun a b => keys.idxOf (key a) < keys.idxOf (key b)) := by
  induction keys generalizing found with
  | nil => exact List.Pairwise.nil
  | cons k keys ih =>
    have further {found : κ → Option β} (named : ∀ k value, found k = some value → key value = k)
        (none : found k = none) : (takeFound found keys).Pairwise
          (fun a b => (k :: keys).idxOf (key a) < (k :: keys).idxOf (key b)) := by
      have apart {value : β} (inside : value ∈ takeFound found keys) : k ≠ key value := by
        obtain ⟨other,_,got⟩ := mem_takeFound.mp inside
        rw [named other value got]
        rintro rfl
        rw [none] at got
        cases got
      refine (ih named).imp_of_mem ?_
      intro a b left right before
      rw [List.idxOf_cons_ne _ (apart left),List.idxOf_cons_ne _ (apart right)]
      exact Nat.succ_lt_succ before
    rw [takeFound]
    cases first : found k with
    | none => exact further named first
    | some held =>
      have rest : ∀ other value, Function.update found k none other = some value → key value = other :=
        fun other value got => named other value (found_of_update got).2
      refine List.pairwise_cons.mpr ⟨?_,further rest (Function.update_self ..)⟩
      intro value inside
      obtain ⟨other,_,got⟩ := mem_takeFound.mp inside
      have apart : k ≠ key value := by
        rw [rest other value got]
        exact Ne.symm (found_of_update got).1
      rw [named k held first,List.idxOf_cons_self,List.idxOf_cons_ne _ apart]
      exact Nat.succ_pos _

end

end Ecphoria.Library
