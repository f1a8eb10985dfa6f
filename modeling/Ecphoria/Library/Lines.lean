import Mathlib.Data.List.Basic
import Mathlib.Data.List.Infix

/-! Texts as lines. A line stands between two separators, or at an end of the text. -/
namespace Ecphoria.Library

section
variable {α : Type} [DecidableEq α] {s : α}

theorem infix_line_iff {line text : List α} (plain : s ∉ line) :
    s :: line ++ [s] <:+: text ↔ line ∈ (text.splitOn s).tail.dropLast := by
  constructor
  · rintro ⟨before,after,rfl⟩
    have shape : before ++ (s :: line ++ [s]) ++ after = before ++ s :: (line ++ s :: after) := by simp
    rw [shape,List.splitOn_append_cons_self,List.splitOn_append_cons_self_of_not_mem plain]
    obtain ⟨first,rest,front⟩ := List.exists_cons_of_ne_nil (List.splitOn_ne_nil s before)
    rw [front,List.cons_append,List.tail_cons,List.dropLast_append_of_ne_nil (List.cons_ne_nil _ _),
      List.dropLast_cons_of_ne_nil (List.splitOn_ne_nil s after)]
    exact List.mem_append_right _ List.mem_cons_self
  · intro inside
    cases parts : text.splitOn s with
    | nil => exact absurd parts (List.splitOn_ne_nil s text)
    | cons first others =>
      rw [parts,List.tail_cons] at inside
      obtain ⟨front,back,split⟩ := List.append_of_mem inside
      have some : others ≠ [] := by
        rintro rfl
        cases inside
      have whole := List.dropLast_append_getLast some
      rw [split,List.append_assoc,List.cons_append] at whole
      have text_eq : [s].intercalate (text.splitOn s) = text := List.intercalate_splitOn s
      rw [parts,← whole] at text_eq
      obtain ⟨before,left⟩ : ∃ before, [s].intercalate (first :: (front ++ line :: (back ++ [others.getLast some]))) =
          before ++ s :: [s].intercalate (line :: (back ++ [others.getLast some])) := by
        clear text_eq whole split parts
        induction front generalizing first with
        | nil => exact ⟨first,by simp [List.intercalate_cons_cons]⟩
        | cons next front ih =>
          obtain ⟨before,rest⟩ := ih next
          refine ⟨first ++ s :: before,?_⟩
          rw [List.cons_append,List.intercalate_cons_cons,rest]
          simp
      obtain ⟨next,more,later⟩ := List.exists_cons_of_ne_nil (List.append_ne_nil_of_right_ne_nil back
        (List.cons_ne_nil (others.getLast some) []))
      rw [left,later,List.intercalate_cons_cons] at text_eq
      exact ⟨before,[s].intercalate (next :: more),by rw [← text_eq]; simp⟩

theorem splitOn_append_plain {front : List α} (plain : s ∉ front) (text : List α) :
    (front ++ text).splitOn s = (text.splitOn s).modifyHead (front ++ ·) := by
  induction front with
  | nil =>
    obtain ⟨first,rest,parts⟩ := List.exists_cons_of_ne_nil (List.splitOn_ne_nil s text)
    rw [List.nil_append,parts]
    rfl
  | cons c front ih =>
    obtain ⟨first,rest,parts⟩ := List.exists_cons_of_ne_nil (List.splitOn_ne_nil s text)
    obtain ⟨here,later⟩ := not_or.mp (List.mem_cons.not.mp plain)
    rw [List.cons_append,List.splitOn_cons_eq_if_modifyHead,ih later,parts,if_neg (by simp [Ne.symm here])]
    rfl

theorem splitOn_concat_plain {back : List α} (plain : s ∉ back) (text : List α) : ∃ front last,
    text.splitOn s = front ++ [last] ∧ (text ++ back).splitOn s = front ++ [last ++ back] := by
  induction text with
  | nil => exact ⟨[],[],rfl,List.splitOn_eq_singleton plain⟩
  | cons c text ih =>
    obtain ⟨front,last,parts,longer⟩ := ih
    rw [List.cons_append,List.splitOn_cons_eq_if_modifyHead,List.splitOn_cons_eq_if_modifyHead,parts,longer]
    split
    · exact ⟨[] :: front,last,rfl,rfl⟩
    · cases front with
      | nil => exact ⟨[],c :: last,rfl,rfl⟩
      | cons first front => exact ⟨(c :: first) :: front,last,rfl,rfl⟩

end
end Ecphoria.Library
