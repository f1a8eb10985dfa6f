import Mathlib.Data.List.Infix

/-! Cutting a text at a separator and counting the occurrences of a pattern in it, as
`split_once` and `matches` do: an occurrence ends before the next one is looked for. -/
namespace Ecphoria.Library

section
variable {α : Type} [DecidableEq α]

/-- The occurrences of the pattern once `skip` characters are passed over. -/
def occurrencesFrom (pattern : List α) : Nat → List α → Nat
  | _,[] => 0
  | skip + 1,_ :: rest => occurrencesFrom pattern skip rest
  | 0,c :: rest =>
    if pattern.isPrefixOf (c :: rest) then occurrencesFrom pattern (pattern.length - 1) rest + 1
    else occurrencesFrom pattern 0 rest

def occurrences (pattern text : List α) : Nat := occurrencesFrom pattern 0 text

@[simp] theorem occurrences_nil (pattern : List α) : occurrences pattern [] = 0 := rfl

theorem isPrefixOf_before {pattern : List α} {s : α} (apart : s ∉ pattern) (before after : List α) :
    pattern.isPrefixOf (before ++ s :: after) = pattern.isPrefixOf before := by
  induction pattern generalizing before with
  | nil => simp
  | cons p pattern ih =>
    obtain ⟨first,rest⟩ := not_or.mp (List.mem_cons.not.mp apart)
    cases before with
    | nil => simp [List.isPrefixOf,Ne.symm first]
    | cons b before => simp [List.isPrefixOf,ih rest]

private theorem occurrencesFrom_before {pattern before after : List α} {s : α} (apart : s ∉ pattern)
    (some : pattern ≠ []) {skip : Nat} (inside : skip ≤ before.length) :
    occurrencesFrom pattern skip (before ++ s :: after) =
      occurrencesFrom pattern skip before + occurrences pattern after := by
  induction before generalizing skip with
  | nil =>
    cases Nat.le_zero.mp inside
    have absent : pattern.isPrefixOf (s :: after) = false := by
      have cut := isPrefixOf_before apart [] after
      rw [List.nil_append] at cut
      rw [cut]
      cases pattern with
      | nil => exact absurd rfl some
      | cons p pattern => rfl
    simp [occurrencesFrom,absent,occurrences]
  | cons b before ih =>
    cases skip with
    | succ skip => exact ih (Nat.le_of_succ_le_succ inside)
    | zero =>
      have cut := isPrefixOf_before apart (b :: before) after
      rw [List.cons_append] at cut ⊢
      rw [occurrencesFrom,occurrencesFrom,cut]
      by_cases found : pattern.isPrefixOf (b :: before) = true
      · have short : pattern.length ≤ (b :: before).length :=
          (List.isPrefixOf_iff_prefix.mp found).length_le
        have within : pattern.length - 1 ≤ before.length := by
          rw [List.length_cons] at short
          omega
        rw [if_pos found,if_pos found,ih within]
        omega
      · rw [if_neg found,if_neg found,ih (Nat.zero_le _)]

theorem occurrences_separated {pattern before after : List α} {s : α} (apart : s ∉ pattern) (some : pattern ≠ []) :
    occurrences pattern (before ++ s :: after) = occurrences pattern before + occurrences pattern after :=
  occurrencesFrom_before apart some (Nat.zero_le _)

theorem occurrences_pos {pattern text : List α} (some : pattern ≠ []) (inside : pattern <:+: text) :
    0 < occurrences pattern text := by
  unfold occurrences
  induction text with
  | nil => exact absurd (List.infix_nil.mp inside) some
  | cons c rest ih =>
    rw [occurrencesFrom]
    split
    next => exact Nat.succ_pos _
    next absent =>
      rcases List.infix_cons_iff.mp inside with first | later
      · exact absurd (List.isPrefixOf_iff_prefix.mpr first) absent
      · exact ih later

def splitOnce (s : α) : List α → Option (List α × List α)
  | [] => none
  | c :: rest => if c = s then some ([],rest) else (splitOnce s rest).map (fun parts => (c :: parts.1,parts.2))

theorem splitOnce_eq_some {s : α} {before after : List α} (apart : s ∉ before) :
    splitOnce s (before ++ s :: after) = some (before,after) := by
  induction before with
  | nil => simp [splitOnce]
  | cons b before ih =>
    obtain ⟨first,rest⟩ := not_or.mp (List.mem_cons.not.mp apart)
    simp [splitOnce,Ne.symm first,ih rest]

theorem splitOnce_eq_none {s : α} {text : List α} : splitOnce s text = none ↔ s ∉ text := by
  induction text with
  | nil => simp [splitOnce]
  | cons c rest ih =>
    by_cases same : c = s
    · simp [splitOnce,same]
    · simp [splitOnce,same,Ne.symm same,ih]

theorem splitOnce_apart {s : α} {text before after : List α} (parts : splitOnce s text = some (before,after)) :
    s ∉ before := by
  induction text generalizing before with
  | nil => cases parts
  | cons c rest ih =>
    rw [splitOnce] at parts
    split at parts
    next =>
      cases parts
      exact List.not_mem_nil
    next differs =>
      obtain ⟨⟨front,back⟩,found,same⟩ := Option.map_eq_some_iff.mp parts
      cases same
      intro inside
      rcases List.mem_cons.mp inside with here | later
      · exact differs here.symm
      · exact ih found later

theorem splitOnce_joined {s : α} {text before after : List α} (parts : splitOnce s text = some (before,after)) :
    text = before ++ s :: after := by
  induction text generalizing before with
  | nil => cases parts
  | cons c rest ih =>
    rw [splitOnce] at parts
    split at parts
    next same =>
      cases parts
      rw [same]
      rfl
    next =>
      obtain ⟨⟨front,back⟩,found,same⟩ := Option.map_eq_some_iff.mp parts
      cases same
      rw [ih found]
      rfl

end

end Ecphoria.Library
