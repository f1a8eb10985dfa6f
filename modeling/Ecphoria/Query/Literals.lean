import Ecphoria.Query.Planner
import Mathlib.Data.List.TakeWhile

/-! Which texts come back from a literal: the planner takes the quotes off without undoing their
doubling, and cuts the arguments at the first comma and the first closing parenthesis. -/
namespace Ecphoria.Query
open Library

section Literal

def doubled (s : List Char) : List Char := s.flatMap (fun c => if c = '\'' then ['\'','\''] else [c])

def literal (s : List Char) : List Char := '\'' :: (doubled s ++ ['\''])

/-- A text without a quote that neither begins nor ends with a double quote. -/
structure Quotable (s : List Char) : Prop where
  unquoted : '\'' ∉ s
  first : s.head? ≠ some '"'
  last : s.getLast? ≠ some '"'

variable {s : List Char}

@[simp] theorem doubled_nil : doubled [] = [] := rfl

theorem doubled_cons (c : Char) (s : List Char) :
    doubled (c :: s) = (if c = '\'' then ['\'','\''] else [c]) ++ doubled s := List.flatMap_cons

theorem doubled_append (s t : List Char) : doubled (s ++ t) = doubled s ++ doubled t := List.flatMap_append

theorem mem_doubled {c : Char} : c ∈ doubled s ↔ c ∈ s := by
  rw [doubled,List.mem_flatMap]
  constructor
  · rintro ⟨d,member,same⟩
    split at same
    next quote => simp_all
    next => simpa [List.mem_singleton.mp same] using member
  · intro member
    refine ⟨c,member,?_⟩
    split <;> simp_all

theorem length_doubled : (doubled s).length = s.length + s.count '\'' := by
  induction s with
  | nil => rfl
  | cons c s ih =>
    rw [doubled_cons,List.length_append,ih,List.length_cons]
    split
    next quote =>
      rw [quote,List.count_cons_self]
      simp only [List.length_cons,List.length_nil]
      omega
    next other =>
      rw [List.count_cons_of_ne other]
      simp only [List.length_cons,List.length_nil]
      omega

theorem count_doubled {c : Char} (other : c ≠ '\'') : (doubled s).count c = s.count c := by
  induction s with
  | nil => rfl
  | cons d s ih =>
    rw [doubled_cons,List.count_append,ih]
    split
    next quote =>
      subst quote
      rw [List.count_cons_of_ne (Ne.symm other)]
      simp [Ne.symm other]
    next => rw [← List.count_append,List.singleton_append]

theorem doubled_eq_self_iff : doubled s = s ↔ '\'' ∉ s := by
  constructor
  · intro same member
    have longer := length_doubled (s := s)
    rw [same] at longer
    exact absurd (List.count_pos_iff.mpr member) (by omega)
  · intro absent
    induction s with
    | nil => rfl
    | cons c s ih =>
      obtain ⟨other,absent⟩ := not_or.mp (List.mem_cons.not.mp absent)
      rw [doubled_cons,if_neg (Ne.symm other),ih absent]
      rfl

theorem head_doubled : (doubled s).head? = s.head? := by
  cases s with
  | nil => rfl
  | cons c s =>
    rw [doubled_cons]
    split
    next quote => rw [quote]; rfl
    next => rfl

theorem last_doubled : (doubled s).getLast? = s.getLast? := by
  rcases s.eq_nil_or_concat with rfl | ⟨t,c,rfl⟩
  · rfl
  · rw [List.concat_eq_append,doubled_append,doubled_cons]
    split
    next quote => simp [quote]
    next => simp

theorem unquote_literal : unquote (literal s) = trimMatches (· == '"') (trimMatches (· == '\'') (doubled s)) := by
  have outer : trimMatches isWhitespace (literal s) = literal s := by
    apply trimMatches_eq_self
    · rintro c first
      cases first
      decide
    · rintro c last
      rw [literal,← List.cons_append,List.getLast?_concat] at last
      cases last
      decide
  rw [unquote,outer,literal,trimMatches_cons (by rfl),trimMatches_concat (by rfl)]

theorem unquote_space : unquote (' ' :: literal s) = unquote (literal s) := by
  rw [unquote,trimMatches_cons (by decide),← unquote]

theorem unquote_literal_iff : unquote (literal s) = s ↔ Quotable s := by
  rw [unquote_literal]
  constructor
  · intro same
    have kept : trimMatches (· == '"') (trimMatches (· == '\'') (doubled s)) = trimMatches (· == '\'') (doubled s) := by
      apply trimMatches_eq_of_count
      rw [same,count_trimMatches (by decide),count_doubled (by decide)]
    have inner : trimMatches (· == '\'') (doubled s) = s := kept.symm.trans same
    have whole : trimMatches (· == '\'') (doubled s) = doubled s := by
      apply trimMatches_eq_self
      · intro c first
        rw [head_doubled,← inner] at first
        exact head_trimMatches (p := (· == '\'')) first
      · intro c last
        rw [last_doubled,← inner] at last
        exact last_trimMatches (p := (· == '\'')) last
    refine ⟨doubled_eq_self_iff.mp (whole.symm.trans inner),fun first => ?_,fun last => ?_⟩
    · rw [← same] at first
      exact absurd (head_trimMatches first) (by decide)
    · rw [← same] at last
      exact absurd (last_trimMatches last) (by decide)
  · intro quotable
    rw [doubled_eq_self_iff.mpr quotable.unquoted]
    have inner : trimMatches (· == '\'') s = s := by
      apply trimMatches_eq_self
      · rintro c first
        exact beq_false_of_ne (fun quote => quotable.unquoted (quote ▸ List.mem_of_head? first))
      · rintro c last
        exact beq_false_of_ne (fun quote => quotable.unquoted (quote ▸ List.mem_of_getLast? last))
    rw [inner]
    apply trimMatches_eq_self
    · rintro c first
      exact beq_false_of_ne (fun quote => quotable.first (quote ▸ first))
    · rintro c last
      exact beq_false_of_ne (fun quote => quotable.last (quote ▸ last))

theorem mem_of_mem_unquote {c : Char} (kept : c ∈ unquote s) : c ∈ s :=
  mem_of_mem_trimMatches (mem_of_mem_trimMatches (mem_of_mem_trimMatches kept))

end Literal

section Arguments

variable {c : Char} {s t rest : List Char}

theorem not_mem_takeWhile : c ∉ s.takeWhile (· != c) := by
  intro member
  have kept := List.mem_takeWhile_imp member
  simp at kept

variable (rest) in
theorem takeWhile_absent (absent : c ∉ s) : (s ++ rest).takeWhile (· != c) = s ++ rest.takeWhile (· != c) := by
  apply List.takeWhile_append_of_pos
  intro d member
  rw [bne_iff_ne]
  rintro rfl
  exact absent member

theorem dropWhile_absent (absent : c ∉ s) : (s ++ rest).dropWhile (· != c) = rest.dropWhile (· != c) := by
  apply List.dropWhile_append_of_pos
  intro d member
  rw [bne_iff_ne]
  rintro rfl
  exact absent member

theorem after_absent (absent : c ∉ s) : after c (s ++ c :: rest) = some rest := by
  rw [after,dropWhile_absent absent,List.dropWhile_cons_of_neg (by simp)]

theorem before_concat : before c (s ++ [c]) = some (s.takeWhile (· != c)) := by
  rw [before,if_pos (by simp)]
  by_cases found : c ∈ s
  · obtain ⟨front,back,rfl,absent⟩ := List.eq_append_cons_of_mem found
    rw [List.append_assoc,takeWhile_absent _ absent,takeWhile_absent _ absent,List.cons_append,
      List.takeWhile_cons_of_neg (by simp),List.takeWhile_cons_of_neg (by simp)]
  · have whole := takeWhile_absent [] found
    rw [List.append_nil,List.takeWhile_nil,List.append_nil] at whole
    rw [takeWhile_absent _ found,List.takeWhile_cons_of_neg (by simp),List.append_nil,whole]

theorem not_mem_literal (other : c ≠ '\'') : c ∉ literal s ↔ c ∉ s := by
  simp [literal,mem_doubled,other]

/-- The arguments as the planner cuts them: up to the first closing parenthesis. -/
def cut (s : List Char) : List Char := s.takeWhile (· != ')')

theorem first_cut (comma : ',' ∉ t) (paren : ')' ∉ t) :
    (cut (literal t ++ ',' :: rest)).takeWhile (· != ',') = literal t ∧
      after ',' (cut (literal t ++ ',' :: rest)) = some (cut rest) := by
  have noComma : ',' ∉ literal t := (not_mem_literal (by decide)).mpr comma
  have noParen : ')' ∉ literal t := (not_mem_literal (by decide)).mpr paren
  have whole : cut (literal t ++ ',' :: rest) = literal t ++ ',' :: cut rest := by
    rw [cut,takeWhile_absent _ noParen,List.takeWhile_cons_of_pos (by decide),cut]
  rw [whole,takeWhile_absent _ noComma,List.takeWhile_cons_of_neg (by decide),List.append_nil]
  exact ⟨rfl,after_absent noComma⟩

theorem cut_of_unquote (same : unquote ((cut s).takeWhile (· != ',')) = t) : ',' ∉ t ∧ ')' ∉ t := by
  subst same
  exact ⟨fun kept => not_mem_takeWhile (mem_of_mem_unquote kept),fun kept =>
    not_mem_takeWhile ((List.takeWhile_sublist _).subset (mem_of_mem_unquote kept))⟩

theorem first_iff : unquote ((cut (literal t ++ ',' :: rest)).takeWhile (· != ',')) = t ↔
    Quotable t ∧ ',' ∉ t ∧ ')' ∉ t := by
  constructor
  · intro same
    obtain ⟨comma,paren⟩ := cut_of_unquote same
    rw [(first_cut comma paren).1] at same
    exact ⟨unquote_literal_iff.mp same,comma,paren⟩
  · rintro ⟨quotable,comma,paren⟩
    rw [(first_cut comma paren).1]
    exact unquote_literal_iff.mpr quotable

theorem second_iff : unquote (cut (' ' :: literal t)) = t ↔ Quotable t ∧ ')' ∉ t := by
  have whole (paren : ')' ∉ t) : cut (' ' :: literal t) = ' ' :: literal t := by
    have absent : ')' ∉ ' ' :: literal t := by simpa using (not_mem_literal (by decide)).mpr paren
    simpa [cut] using takeWhile_absent [] absent
  constructor
  · intro same
    have paren : ')' ∉ t := by
      rw [← same]
      exact fun kept => not_mem_takeWhile (mem_of_mem_unquote kept)
    rw [whole paren,unquote_space] at same
    exact ⟨unquote_literal_iff.mp same,paren⟩
  · rintro ⟨quotable,paren⟩
    rw [whole paren,unquote_space]
    exact unquote_literal_iff.mpr quotable

theorem isWhitespace_digit (digit : c.isDigit = true) : isWhitespace c = false := by
  have low : 48 ≤ c.toNat := by
    simp only [Char.isDigit,Bool.and_eq_true,decide_eq_true_eq] at digit
    exact digit.1
  have high : c.toNat ≤ 57 := by
    simp only [Char.isDigit,Bool.and_eq_true,decide_eq_true_eq] at digit
    exact digit.2
  simp only [isWhitespace,Bool.or_eq_false_iff,Bool.and_eq_false_iff,decide_eq_false_iff_not,beq_eq_false_iff_ne]
  omega

theorem digit_toDigits {k : Nat} (member : c ∈ Nat.toDigits 10 k) : c.isDigit = true :=
  Nat.isDigit_of_mem_toDigits (by decide) (by decide) member

theorem parseUsize_toDigits {k : Nat} (small : k < 2 ^ 64) : parseUsize (Nat.toDigits 10 k) = some k := by
  have value : Nat.ofDigitChars 10 (Nat.toDigits 10 k) 0 = k := Nat.ofDigitChars_toDigits (by decide) (by decide)
  have digits : (Nat.toDigits 10 k).all Char.isDigit = true := List.all_eq_true.mpr (fun _ => digit_toDigits)
  have unsigned : withoutSign (Nat.toDigits 10 k) = Nat.toDigits 10 k := by
    unfold withoutSign
    split
    next rest signed =>
      have sign : '+' ∈ Nat.toDigits 10 k := signed ▸ List.mem_cons_self
      exact absurd (digit_toDigits sign) (by decide)
    next => rfl
  rw [parseUsize,unsigned,value,if_pos ⟨Nat.toDigits_ne_nil,digits,small⟩]

theorem count_cut {k : Nat} (small : k < 2 ^ 64) :
    parseUsize (trimMatches isWhitespace (cut (' ' :: Nat.toDigits 10 k))) = some k := by
  have absent : ')' ∉ ' ' :: Nat.toDigits 10 k := by
    rintro (_ | ⟨_,member⟩)
    exact absurd (digit_toDigits member) (by decide)
  have whole : cut (' ' :: Nat.toDigits 10 k) = ' ' :: Nat.toDigits 10 k := by
    simpa [cut] using takeWhile_absent [] absent
  rw [whole,trimMatches_cons (by decide),trimMatches_eq_self,parseUsize_toDigits small]
  · exact fun c first => isWhitespace_digit (digit_toDigits (List.mem_of_head? first))
  · exact fun c last => isWhitespace_digit (digit_toDigits (List.mem_of_getLast? last))

end Arguments

end Ecphoria.Query
