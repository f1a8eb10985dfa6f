import Mathlib.Data.List.Infix
import Mathlib.Data.List.Count

/-! A text without what stands at its two ends: what is kept is a part of the text that neither begins
nor ends with an element to trim, and nothing else is lost. -/
namespace Ecphoria.Library

variable {α : Type} {p : α → Bool} {s : List α}

/-- The text without the elements at its ends for which the test holds. -/
def trimMatches (p : α → Bool) (s : List α) : List α := ((s.dropWhile p).reverse.dropWhile p).reverse

theorem trimMatches_within (p : α → Bool) (s : List α) : trimMatches p s <:+: s := by
  have front := List.dropWhile_suffix p (l := s)
  have back := (List.dropWhile_suffix p (l := (s.dropWhile p).reverse)).reverse
  rw [List.reverse_reverse] at back
  exact back.isInfix.trans front.isInfix

theorem mem_of_mem_trimMatches {a : α} (kept : a ∈ trimMatches p s) : a ∈ s := (trimMatches_within p s).subset kept

theorem dropWhile_eq_self (first : ∀ a, s.head? = some a → p a = false) : s.dropWhile p = s := by
  cases s with
  | nil => rfl
  | cons a s => rw [List.dropWhile_cons_of_neg (by simp [first a rfl])]

theorem head_dropWhile {a : α} (first : (s.dropWhile p).head? = some a) : p a = false := by
  have kept := List.head?_dropWhile_not p s
  rw [first] at kept
  simpa using kept

theorem trimMatches_eq_self (first : ∀ a, s.head? = some a → p a = false)
    (last : ∀ a, s.getLast? = some a → p a = false) : trimMatches p s = s := by
  rw [trimMatches,dropWhile_eq_self first,dropWhile_eq_self (by rwa [List.head?_reverse]),List.reverse_reverse]

theorem last_trimMatches {a : α} (last : (trimMatches p s).getLast? = some a) : p a = false := by
  rw [trimMatches,List.getLast?_reverse] at last
  exact head_dropWhile last

theorem head_trimMatches {a : α} (first : (trimMatches p s).head? = some a) : p a = false := by
  have back := (List.dropWhile_suffix p (l := (s.dropWhile p).reverse)).reverse
  rw [List.reverse_reverse] at back
  obtain ⟨rest,whole⟩ := back
  apply head_dropWhile (s := s)
  rw [← whole,List.head?_append_of_ne_nil]
  · exact first
  · rintro empty
    rw [trimMatches,empty] at first
    cases first

theorem count_trimMatches [DecidableEq α] {a : α} (stays : p a = false) : (trimMatches p s).count a = s.count a := by
  have drop (t : List α) : (t.dropWhile p).count a = t.count a := by
    induction t with
    | nil => rfl
    | cons b t ih =>
      rw [List.dropWhile_cons]
      split
      next gone =>
        have apart : b ≠ a := by
          rintro rfl
          rw [stays] at gone
          cases gone
        rw [ih,List.count_cons_of_ne apart]
      next => rfl
  rw [trimMatches,List.count_reverse,drop,List.count_reverse,drop]

theorem trimMatches_cons {a : α} (gone : p a = true) (s : List α) : trimMatches p (a :: s) = trimMatches p s := by
  rw [trimMatches,List.dropWhile_cons_of_pos gone,trimMatches]

theorem trimMatches_concat {a : α} (gone : p a = true) (s : List α) : trimMatches p (s ++ [a]) = trimMatches p s := by
  rw [trimMatches,trimMatches,List.dropWhile_append]
  split
  next all =>
    rw [List.isEmpty_iff.mp all,List.dropWhile_cons_of_pos gone]
    rfl
  next =>
    rw [List.reverse_append,List.reverse_singleton,List.singleton_append,List.dropWhile_cons_of_pos gone]

theorem trimMatches_eq_of_count [DecidableEq α] {a : α} (same : (trimMatches (· == a) s).count a = s.count a) :
    trimMatches (· == a) s = s := by
  have fewer (t : List α) : (trimMatches (· == a) t).count a ≤ t.count a := (trimMatches_within _ t).count_le a
  apply trimMatches_eq_self
  · intro b first
    by_contra trimmed
    obtain rfl : b = a := by simpa using trimmed
    obtain ⟨rest,rfl⟩ := List.head?_eq_some_iff.mp first
    rw [trimMatches_cons (by simp),List.count_cons_self] at same
    exact absurd same (by have := fewer rest; omega)
  · intro b last
    by_contra trimmed
    obtain rfl : b = a := by simpa using trimmed
    obtain ⟨rest,rfl⟩ := List.getLast?_eq_some_iff.mp last
    rw [trimMatches_concat (by simp),List.count_append,List.count_singleton_self] at same
    exact absurd same (by have := fewer rest; omega)

end Ecphoria.Library
