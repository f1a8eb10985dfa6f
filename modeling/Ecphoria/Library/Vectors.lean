import Mathlib.Algebra.BigOperators.Fin
import Mathlib.Algebra.Order.Ring.Rat
import Mathlib.Data.Fintype.BigOperators

/-! Vectors of a fixed length whose entries are added to one at a time, and the
total of their entries. -/
namespace Ecphoria.Library.Vectors

open scoped BigOperators

variable {A : Type} {n : Nat}

/-- `v[j] = x`. -/
def replaceAt (v : Vector A n) (j : Fin n) (x : A) : Vector A n := v.set j x

/-- `v[j] += x`. -/
def addAt [Add A] (v : Vector A n) (j : Fin n) (x : A) : Vector A n := replaceAt v j (v.get j + x)

def total [AddCommMonoid A] (v : Vector A n) : A := ∑ i : Fin n, v.get i

theorem get_eq (v : Vector A n) (i : Fin n) : v.get i = v[i] := rfl

@[simp] theorem get_replicate (x : A) (i : Fin n) : (Vector.replicate n x).get i = x := by simp [get_eq]

@[simp] theorem get_map {B : Type} (f : A → B) (v : Vector A n) (i : Fin n) : (v.map f).get i = f (v.get i) := by
  simp [get_eq]

theorem replaceAt_self (v : Vector A n) (j : Fin n) (x : A) : (replaceAt v j x).get j = x := by simp [replaceAt,get_eq]

theorem replaceAt_other (v : Vector A n) {i j : Fin n} (x : A) (different : j ≠ i) : (replaceAt v j x).get i = v.get i := by
  simp only [replaceAt,get_eq,Fin.getElem_fin]
  exact Vector.getElem_set_ne j.2 i.2 (fun same => different (Fin.ext same))

theorem addAt_self [Add A] (v : Vector A n) (j : Fin n) (x : A) : (addAt v j x).get j = v.get j + x := replaceAt_self v j _

theorem addAt_other [Add A] (v : Vector A n) (i j : Fin n) (x : A) (different : j ≠ i) :
    (addAt v j x).get i = v.get i := replaceAt_other v _ different

theorem get_addAt [AddCommMonoid A] (v : Vector A n) (i j : Fin n) (x : A) :
    (addAt v j x).get i = v.get i + if j = i then x else 0 := by
  by_cases same : j = i
  · subst same
    rw [addAt_self,if_pos rfl]
  · rw [addAt_other v i j x same,if_neg same,add_zero]

theorem total_addAt [AddCommMonoid A] (v : Vector A n) (j : Fin n) (x : A) : total (addAt v j x) = total v + x := by
  have entries (i : Fin n) : (addAt v j x).get i = v.get i + if j = i then x else 0 := get_addAt v i j x
  simp [total,entries,Finset.sum_add_distrib]

theorem total_addAll [AddCommMonoid A] (v : Vector A n) (changes : List (Fin n × A)) :
    total (changes.foldl (fun v change => addAt v change.1 change.2) v) = total v + (changes.map Prod.snd).sum := by
  induction changes generalizing v with
  | nil => simp
  | cons change changes ih =>
    rw [List.foldl_cons,ih,total_addAt,List.map_cons,List.sum_cons,add_assoc]

theorem le_addAll [AddCommMonoid A] [PartialOrder A] [IsOrderedAddMonoid A] (v : Vector A n)
    (changes : List (Fin n × A)) (rising : ∀ change ∈ changes, 0 ≤ change.2) (i : Fin n) :
    v.get i ≤ (changes.foldl (fun v change => addAt v change.1 change.2) v).get i := by
  induction changes generalizing v with
  | nil => exact le_refl _
  | cons change changes ih =>
    have first : v.get i ≤ (addAt v change.1 change.2).get i := by
      rw [get_addAt]
      split
      next => exact le_add_of_nonneg_right (rising change List.mem_cons_self)
      next => exact (add_zero (v.get i)).ge
    exact first.trans (ih _ (fun other inside => rising other (List.mem_cons_of_mem _ inside)))

theorem total_replicate [AddCommMonoid A] (x : A) : total (Vector.replicate n x) = n • x := by
  simp [total]

end Ecphoria.Library.Vectors
