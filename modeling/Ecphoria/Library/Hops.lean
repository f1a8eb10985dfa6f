import Mathlib.Data.List.Chain
import Mathlib.Logic.Relation

/-! Walks along a relation, counted in steps: as lists of what they visit, and by
what the steps reach. -/
namespace Ecphoria.Library

variable {A : Type} {step : A → A → Prop}

/-- `y` is reached from `x` by so many steps. -/
inductive Hops (step : A → A → Prop) (x : A) : Nat → A → Prop
  | here : Hops step x 0 x
  | next {n : Nat} {y z : A} (reached : Hops step x n y) (hop : step y z) : Hops step x (n + 1) z

/-- A list that leads from `x` to `y`. -/
structure IsWalk (step : A → A → Prop) (x y : A) (walk : List A) : Prop where
  starts : walk.head? = some x
  ends : walk.getLast? = some y
  linked : walk.IsChain step

namespace Hops

theorem reachable {x y : A} {n : Nat} (reached : Hops step x n y) : Relation.ReflTransGen step x y := by
  induction reached with
  | here => exact .refl
  | next _ hop ih => exact ih.tail hop

theorem of_reachable {x y : A} (reached : Relation.ReflTransGen step x y) : ∃ n, Hops step x n y := by
  induction reached with
  | refl => exact ⟨0,.here⟩
  | tail _ hop ih =>
    obtain ⟨n,reached⟩ := ih
    exact ⟨n + 1,.next reached hop⟩

theorem closed {x y : A} {n : Nat} (inside : A → Prop) (start : inside x)
    (kept : ∀ a b, inside a → step a b → inside b) (reached : Hops step x n y) : inside y := by
  induction reached with
  | here => exact start
  | next _ hop ih => exact kept _ _ ih hop

end Hops

theorem IsWalk.hops {x y : A} {walk : List A} (leads : IsWalk step x y walk) : Hops step x (walk.length - 1) y := by
  induction walk using List.reverseRecOn generalizing y with
  | nil => exact absurd leads.starts (by simp)
  | append_singleton front last ih =>
    have same : last = y := by simpa using leads.ends
    subst same
    rcases List.eq_nil_or_concat front with rfl | ⟨rest,z,rfl⟩
    · have only : last = x := by simpa using leads.starts
      subst only
      exact .here
    · rw [List.concat_eq_append] at leads ih ⊢
      have chain := List.isChain_append.mp leads.linked
      have before : IsWalk step x z (rest ++ [z]) := by
        refine ⟨?_,by simp,chain.1⟩
        have first := leads.starts
        rw [List.head?_append_of_ne_nil _ (by simp)] at first
        exact first
      have hop : step z last := chain.2.2 z (by simp) last (by simp)
      have count : (rest ++ [z] ++ [last]).length - 1 = (rest ++ [z]).length - 1 + 1 := by simp
      rw [count]
      exact .next (ih before) hop

end Ecphoria.Library
