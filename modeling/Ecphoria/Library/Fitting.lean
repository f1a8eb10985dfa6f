import Mathlib.Algebra.BigOperators.Group.List.Basic
import Mathlib.Data.List.Infix
import Mathlib.Algebra.GroupWithZero.Nat

/-! What fits into a budget of a ranked list: it is taken from the front, and the first that does not fit ends it. -/
namespace Ecphoria.Library

section
variable {α : Type} (cost : α → Nat) (budget : Nat)

def fitting : Nat → List α → List α
  | _,[] => []
  | spent,a :: items => if budget < spent + cost a then [] else a :: fitting (spent + cost a) items

def spending (items : List α) : Nat := (items.map cost).sum

variable {cost} {budget}

@[simp] theorem spending_nil : spending cost [] = 0 := rfl

@[simp] theorem spending_cons (a : α) (items : List α) : spending cost (a :: items) = cost a + spending cost items := by
  simp [spending]

theorem spending_append (first second : List α) : spending cost (first ++ second) = spending cost first + spending cost second := by
  simp [spending]

theorem fitting_front (spent : Nat) (items : List α) : fitting cost budget spent items <+: items := by
  induction items generalizing spent with
  | nil => exact List.nil_prefix
  | cons a items ih =>
    rw [fitting]
    split
    next => exact List.nil_prefix
    next => exact (List.prefix_cons_inj a).mpr (ih _)

theorem fitting_within {spent : Nat} (within : spent ≤ budget) (items : List α) :
    spent + spending cost (fitting cost budget spent items) ≤ budget := by
  induction items generalizing spent with
  | nil => simpa [fitting] using within
  | cons a items ih =>
    rw [fitting]
    split
    next => simpa using within
    next fits =>
      have rest := ih (Nat.not_lt.mp fits)
      rw [spending_cons]
      omega

theorem prefix_fitting {spent : Nat} {first : List α} (items : List α) (front : first <+: items)
    (fits : spent + spending cost first ≤ budget) : first <+: fitting cost budget spent items := by
  induction items generalizing spent first with
  | nil =>
    rw [List.prefix_nil.mp front]
    exact List.nil_prefix
  | cons a items ih =>
    cases first with
    | nil => exact List.nil_prefix
    | cons b first =>
      obtain ⟨rfl,shorter⟩ := List.cons_prefix_cons.mp front
      rw [spending_cons] at fits
      rw [fitting,if_neg (by omega)]
      exact (List.prefix_cons_inj b).mpr (ih shorter (by omega))

theorem prefix_fitting_iff {spent : Nat} (within : spent ≤ budget) {first items : List α} (front : first <+: items) :
    first <+: fitting cost budget spent items ↔ spent + spending cost first ≤ budget := by
  constructor
  · rintro ⟨more,kept⟩
    have bound : spent + spending cost (fitting cost budget spent items) ≤ budget := fitting_within within items
    rw [← kept,spending_append] at bound
    omega
  · exact prefix_fitting items front

theorem fitting_mono {spent less more : Nat} (within : spent ≤ less) (larger : less ≤ more) (items : List α) :
    fitting cost less spent items <+: fitting cost more spent items :=
  prefix_fitting items (fitting_front spent items) ((fitting_within within items).trans larger)

end

end Ecphoria.Library
