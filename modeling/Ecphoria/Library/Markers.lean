import Ecphoria.Library.Text

/-! Texts cut at the first occurrence of a mark, and the pieces of a text that stand between an opening mark and the next
closing one. A piece that the text leaves open is closed by what is put behind the text. -/
namespace Ecphoria.Library

section
variable {α : Type} [DecidableEq α]

/-- The text before the first occurrence of a mark, and the text behind it. -/
def cutAt (mark : List α) : List α → Option (List α × List α)
  | [] => none
  | c :: rest =>
    if mark.isPrefixOf (c :: rest) then some ([],(c :: rest).drop mark.length)
    else (cutAt mark rest).map (fun parts => (c :: parts.1,parts.2))

theorem cutAt_eq_some {mark text before after : List α} (some : mark ≠ []) :
    cutAt mark text = Option.some (before,after) ↔ text = before ++ mark ++ after ∧ ¬mark <:+: before ++ mark.dropLast := by
  have shorter : ¬mark <:+: mark.dropLast := by
    intro inside
    have longer := inside.length_le
    have positive := List.length_pos_iff.mpr some
    rw [List.length_dropLast] at longer
    omega
  have within (front after : List α) : front ++ mark.dropLast <+: front ++ mark ++ after := by
    rw [List.append_assoc]
    exact (List.prefix_append_right_inj _).mpr ((List.dropLast_prefix mark).trans (List.prefix_append mark after))
  induction text generalizing before with
  | nil =>
    refine iff_of_false (by simp [cutAt]) ?_
    rintro ⟨parts,_⟩
    simp [some] at parts
  | cons c rest ih =>
    rw [cutAt]
    by_cases first : mark.isPrefixOf (c :: rest) = true
    · rw [if_pos first]
      have starts := List.isPrefixOf_iff_prefix.mp first
      constructor
      · rintro ⟨⟩
        refine ⟨?_,shorter⟩
        rw [List.nil_append]
        exact (List.prefix_iff_eq_append.mp starts).symm
      · rintro ⟨parts,earliest⟩
        cases before with
        | nil =>
          rw [List.nil_append] at parts
          rw [parts,List.drop_left]
        | cons d before =>
          refine absurd (List.IsPrefix.isInfix ?_) earliest
          refine List.prefix_of_prefix_length_le starts ?_ ?_
          · rw [parts]
            exact within (d :: before) after
          · rw [List.length_append,List.length_cons,List.length_dropLast]
            omega
    · rw [if_neg first]
      have absent : ¬mark <+: c :: rest := fun starts => first (List.isPrefixOf_iff_prefix.mpr starts)
      constructor
      · intro cut
        obtain ⟨⟨front,back⟩,found,same⟩ := Option.map_eq_some_iff.mp cut
        cases same
        obtain ⟨parts,earliest⟩ := ih.mp found
        refine ⟨by rw [parts]; rfl,?_⟩
        rw [List.cons_append,List.infix_cons_iff,not_or]
        refine ⟨fun starts => absent (starts.trans ?_),earliest⟩
        rw [parts]
        exact within (c :: front) back
      · rintro ⟨parts,earliest⟩
        cases before with
        | nil => exact absurd ⟨after,by rw [parts,List.nil_append]⟩ absent
        | cons d before =>
          rw [List.cons_append,List.cons_append,List.cons_eq_cons] at parts
          obtain ⟨rfl,parts⟩ := parts
          rw [List.cons_append,List.infix_cons_iff,not_or] at earliest
          exact Option.map_eq_some_iff.mpr ⟨(before,after),ih.mpr ⟨parts,earliest.2⟩,rfl⟩

theorem cutAt_eq_none {mark text : List α} (some : mark ≠ []) : cutAt mark text = none ↔ ¬mark <:+: text := by
  induction text with
  | nil => simp [cutAt,some]
  | cons c rest ih =>
    rw [cutAt,List.infix_cons_iff,not_or,← List.isPrefixOf_iff_prefix]
    by_cases first : mark.isPrefixOf (c :: rest) = true
    · simp [first]
    · simp [first,ih]

theorem cutAt_append {mark text before after : List α} (some : mark ≠ []) (more : List α)
    (cut : cutAt mark text = Option.some (before,after)) : cutAt mark (text ++ more) = Option.some (before,after ++ more) := by
  obtain ⟨parts,earliest⟩ := (cutAt_eq_some some).mp cut
  exact (cutAt_eq_some some).mpr ⟨by rw [parts,List.append_assoc],earliest⟩

omit [DecidableEq α] in
theorem infix_behind {mark front text : List α} (some : mark ≠ []) (apart : ∀ c ∈ front, c ∉ mark)
    (inside : mark <:+: front ++ text) : mark <:+: text := by
  induction front with
  | nil => exact inside
  | cons c front ih =>
    rcases List.infix_cons_iff.mp inside with starts | later
    · obtain ⟨first,rest,rfl⟩ := List.exists_cons_of_ne_nil some
      exact absurd (List.cons_prefix_cons.mp starts).1.symm (fun same => apart c List.mem_cons_self (same ▸ List.mem_cons_self))
    · exact ih (fun d inside => apart d (List.mem_cons_of_mem c inside)) later

theorem infix_around {mark before after : List α} {s : α} (some : mark ≠ []) (apart : s ∉ mark) :
    mark <:+: before ++ s :: after ↔ mark <:+: before ∨ mark <:+: after := by
  induction before with
  | nil =>
    have none : ¬mark <:+: [] := fun inside => some (List.infix_nil.mp inside)
    constructor
    · intro inside
      exact .inr (@infix_behind _ _ [s] _ some (fun c here => List.mem_singleton.mp here ▸ apart) inside)
    · rintro (inside | inside)
      · exact absurd inside none
      · exact inside.trans (List.suffix_cons s after).isInfix
  | cons b before ih =>
    have cut := isPrefixOf_before apart (b :: before) after
    rw [Bool.eq_iff_iff,List.isPrefixOf_iff_prefix,List.isPrefixOf_iff_prefix,List.cons_append] at cut
    rw [List.cons_append,List.infix_cons_iff,List.infix_cons_iff,cut,ih,or_assoc]

theorem cutAt_around {mark text more before after : List α} {s : α} (some : mark ≠ []) (apart : s ∉ mark)
    (absent : ¬mark <:+: text) (cut : cutAt mark more = Option.some (before,after)) :
    cutAt mark (text ++ s :: more) = Option.some (text ++ s :: before,after) := by
  obtain ⟨parts,earliest⟩ := (cutAt_eq_some some).mp cut
  refine (cutAt_eq_some some).mpr ⟨by rw [parts]; simp,?_⟩
  rw [List.append_assoc,List.cons_append,infix_around some apart,not_or]
  exact ⟨absent,earliest⟩

section
variable (opening closing : List α)

/-- The pieces, once `skip` elements are passed over: what stands between an opening mark and the next closing one. -/
def enclosedFrom : Nat → List α → List (List α)
  | _,[] => []
  | skip + 1,_ :: rest => enclosedFrom skip rest
  | 0,c :: rest =>
    if opening.isPrefixOf (c :: rest) then
      match cutAt closing ((c :: rest).drop opening.length) with
      | some (inner,_) => inner :: enclosedFrom (opening.length + inner.length + closing.length - 1) rest
      | none => enclosedFrom 0 rest
    else enclosedFrom 0 rest

def enclosed (text : List α) : List (List α) := enclosedFrom opening closing 0 text

/-- What stands behind the first opening mark that no closing one follows. -/
def openTailFrom : Nat → List α → Option (List α)
  | _,[] => none
  | skip + 1,_ :: rest => openTailFrom skip rest
  | 0,c :: rest =>
    if opening.isPrefixOf (c :: rest) then
      match cutAt closing ((c :: rest).drop opening.length) with
      | some (inner,_) => openTailFrom (opening.length + inner.length + closing.length - 1) rest
      | none => some ((c :: rest).drop opening.length)
    else openTailFrom 0 rest

def openTail (text : List α) : Option (List α) := openTailFrom opening closing 0 text

@[simp] theorem enclosed_nil : enclosed opening closing [] = [] := rfl

@[simp] theorem openTail_nil : openTail opening closing [] = none := rfl

theorem enclosedFrom_drop (skip : Nat) (text : List α) :
    enclosedFrom opening closing skip text = enclosed opening closing (text.drop skip) := by
  induction text generalizing skip with
  | nil => cases skip <;> rfl
  | cons c rest ih =>
    cases skip with
    | zero => rfl
    | succ skip => exact ih skip

theorem openTailFrom_drop (skip : Nat) (text : List α) :
    openTailFrom opening closing skip text = openTail opening closing (text.drop skip) := by
  induction text generalizing skip with
  | nil => cases skip <;> rfl
  | cons c rest ih =>
    cases skip with
    | zero => rfl
    | succ skip => exact ih skip

end

section
variable {opening closing : List α}

theorem enclosed_cons {c : α} {rest : List α} (other : opening.isPrefixOf (c :: rest) = false) :
    enclosed opening closing (c :: rest) = enclosed opening closing rest := by
  rw [enclosed,enclosedFrom,if_neg (Bool.not_eq_true _ ▸ other)]
  rfl

theorem openTail_cons {c : α} {rest : List α} (other : opening.isPrefixOf (c :: rest) = false) :
    openTail opening closing (c :: rest) = openTail opening closing rest := by
  rw [openTail,openTailFrom,if_neg (Bool.not_eq_true _ ▸ other)]
  rfl

theorem enclosed_behind {front : List α} (opens : opening ≠ []) (apart : ∀ c ∈ front, c ∉ opening) (text : List α) :
    enclosed opening closing (front ++ text) = enclosed opening closing text := by
  induction front with
  | nil => rfl
  | cons c front ih =>
    obtain ⟨first,rest,rfl⟩ := List.exists_cons_of_ne_nil opens
    have other : first ≠ c := fun same => apart c List.mem_cons_self (same ▸ List.mem_cons_self)
    rw [List.cons_append,enclosed_cons (by simp [List.isPrefixOf,other])]
    exact ih (fun d inside => apart d (List.mem_cons_of_mem c inside))

theorem drop_behind {c : α} {rest inner after : List α} (opens : opening ≠ []) (closes : closing ≠ [])
    (cut : cutAt closing ((c :: rest).drop opening.length) = some (inner,after)) :
    rest.drop (opening.length + inner.length + closing.length - 1) = after := by
  have parts := ((cutAt_eq_some closes).mp cut).1
  have one := List.length_pos_iff.mpr opens
  have count : opening.length + inner.length + closing.length - 1 + 1 = opening.length + (inner ++ closing).length := by
    rw [List.length_append]
    omega
  rw [← List.drop_succ_cons (a := c),count,← List.drop_drop,parts,List.drop_left]

theorem enclosed_closed {inner after text : List α} (opens : opening ≠ []) (closes : closing ≠ [])
    (cut : cutAt closing text = some (inner,after)) :
    enclosed opening closing (opening ++ text) = inner :: enclosed opening closing after := by
  obtain ⟨c,marks,rfl⟩ := List.exists_cons_of_ne_nil opens
  have drop : (c :: (marks ++ text)).drop (c :: marks).length = text := @List.drop_left _ (c :: marks) text
  have starts : (c :: marks).isPrefixOf (c :: (marks ++ text)) = true :=
    List.isPrefixOf_iff_prefix.mpr (List.prefix_append (c :: marks) text)
  rw [List.cons_append,enclosed,enclosedFrom,if_pos starts,drop,cut]
  refine congrArg (inner :: ·) ?_
  rw [enclosedFrom_drop,drop_behind opens closes (drop.symm ▸ cut)]

theorem openTail_opening {inner after text : List α} (opens : opening ≠ []) (closes : closing ≠ [])
    (cut : cutAt closing text = some (inner,after)) :
    openTail opening closing (opening ++ text) = openTail opening closing after := by
  obtain ⟨c,marks,rfl⟩ := List.exists_cons_of_ne_nil opens
  have drop : (c :: (marks ++ text)).drop (c :: marks).length = text := @List.drop_left _ (c :: marks) text
  have starts : (c :: marks).isPrefixOf (c :: (marks ++ text)) = true :=
    List.isPrefixOf_iff_prefix.mpr (List.prefix_append (c :: marks) text)
  rw [List.cons_append,openTail,openTailFrom,if_pos starts,drop,cut]
  refine (openTailFrom_drop _ _ _ _).trans ?_
  rw [drop_behind opens closes (drop.symm ▸ cut)]

theorem openTail_unclosed {text : List α} (opens : opening ≠ []) (left : cutAt closing text = none) :
    openTail opening closing (opening ++ text) = some text := by
  obtain ⟨c,marks,rfl⟩ := List.exists_cons_of_ne_nil opens
  have drop : (c :: (marks ++ text)).drop (c :: marks).length = text := @List.drop_left _ (c :: marks) text
  have starts : (c :: marks).isPrefixOf (c :: (marks ++ text)) = true :=
    List.isPrefixOf_iff_prefix.mpr (List.prefix_append (c :: marks) text)
  rw [List.cons_append,openTail,openTailFrom,if_pos starts,drop,left]

/-- A text is read from its first element on: up to an opening mark, and from there behind the closing one, if there is one. -/
theorem scan_induction {motive : List α → Prop} (opens : opening ≠ []) (closes : closing ≠ []) (nil : motive [])
    (plain : ∀ c rest,opening.isPrefixOf (c :: rest) = false → motive rest → motive (c :: rest))
    (closed : ∀ text inner after,cutAt closing text = some (inner,after) → motive after → motive (opening ++ text))
    (unclosed : ∀ text,cutAt closing text = none → motive (opening ++ text)) (text : List α) : motive text := by
  induction size : text.length using Nat.strong_induction_on generalizing text with
  | _ n ih =>
    cases text with
    | nil => exact nil
    | cons c rest =>
      by_cases first : opening.isPrefixOf (c :: rest) = true
      · obtain ⟨behind,whole⟩ := List.isPrefixOf_iff_prefix.mp first
        rw [← whole]
        cases cut : cutAt closing behind with
        | none => exact unclosed behind cut
        | some parts =>
          refine closed behind parts.1 parts.2 cut (ih parts.2.length ?_ parts.2 rfl)
          have split := ((cutAt_eq_some closes).mp (cut : cutAt closing behind = some (parts.1,parts.2))).1
          have one := List.length_pos_iff.mpr opens
          rw [← size,← whole,split]
          simp only [List.length_append]
          omega
      · refine plain c rest (Bool.eq_false_iff.mpr first) (ih rest.length ?_ rest rfl)
        rw [← size,List.length_cons]
        exact Nat.lt_succ_self _

variable (opens : opening ≠ []) (closes : closing ≠ [])

include closes in
theorem enclosed_eq_nil {text : List α} (none : ¬closing <:+: text) : enclosed opening closing text = [] := by
  induction text with
  | nil => rfl
  | cons c rest ih =>
    have later : ¬closing <:+: rest := fun inside => none (inside.trans (List.suffix_cons c rest).isInfix)
    have cut : cutAt closing ((c :: rest).drop opening.length) = Option.none :=
      (cutAt_eq_none closes).mpr (fun inside => none (inside.trans (List.drop_suffix _ _).isInfix))
    rw [enclosed,enclosedFrom,cut]
    split
    · exact ih later
    · exact ih later

include opens closes in
theorem enclosed_around {text : List α} {s : α} (foreign : s ∉ opening) (settled : openTail opening closing text = none)
    (more : List α) :
    enclosed opening closing (text ++ s :: more) = enclosed opening closing text ++ enclosed opening closing more := by
  induction text using scan_induction opens closes with
  | nil =>
    refine (enclosed_cons ?_).trans (List.nil_append _).symm
    have cut := isPrefixOf_before foreign [] more
    rw [List.nil_append] at cut
    rw [cut]
    obtain ⟨c,marks,rfl⟩ := List.exists_cons_of_ne_nil opens
    rfl
  | plain c rest other ih =>
    rw [openTail_cons other] at settled
    have apart : opening.isPrefixOf (c :: (rest ++ s :: more)) = false :=
      (isPrefixOf_before foreign (c :: rest) more).trans other
    rw [List.cons_append,enclosed_cons apart,enclosed_cons other,ih settled]
  | closed text inner after cut ih =>
    rw [openTail_opening opens closes cut] at settled
    rw [List.append_assoc,enclosed_closed opens closes (cutAt_append closes (s :: more) cut),enclosed_closed opens closes cut,
      ih settled]
    rfl
  | unclosed text cut =>
    rw [openTail_unclosed opens cut] at settled
    cases settled

include opens closes in
theorem enclosed_open {text tail more before after : List α} {s : α} (foreign : s ∉ opening) (apart : s ∉ closing)
    (distinct : ∀ c ∈ opening, c ∉ closing) (left : openTail opening closing text = some tail)
    (cut : cutAt closing more = some (before,after)) :
    enclosed opening closing (text ++ s :: more) =
      enclosed opening closing text ++ (tail ++ s :: before) :: enclosed opening closing after := by
  induction text using scan_induction opens closes with
  | nil => cases left
  | plain c rest other ih =>
    rw [openTail_cons other] at left
    have same : opening.isPrefixOf (c :: (rest ++ s :: more)) = false :=
      (isPrefixOf_before foreign (c :: rest) more).trans other
    rw [List.cons_append,enclosed_cons same,enclosed_cons other,ih left]
  | closed text inner behind found ih =>
    rw [openTail_opening opens closes found] at left
    rw [List.append_assoc,enclosed_closed opens closes (cutAt_append closes (s :: more) found),enclosed_closed opens closes found,
      ih left]
    rfl
  | unclosed text none =>
    rw [openTail_unclosed opens none] at left
    cases left
    have absent := (cutAt_eq_none closes).mp none
    rw [List.append_assoc,enclosed_closed opens closes (cutAt_around closes apart absent cut),
      enclosed_eq_nil closes (fun inside => absent (infix_behind closes distinct inside))]
    rfl

include opens closes in
theorem openTail_parts {text tail : List α} (left : openTail opening closing text = some tail) :
    (∃ front,text = front ++ opening ++ tail) ∧ ¬closing <:+: tail := by
  induction text using scan_induction opens closes with
  | nil => cases left
  | plain c rest other ih =>
    rw [openTail_cons other] at left
    obtain ⟨⟨front,parts⟩,absent⟩ := ih left
    exact ⟨⟨c :: front,by rw [parts]; rfl⟩,absent⟩
  | closed text inner behind found ih =>
    rw [openTail_opening opens closes found] at left
    obtain ⟨⟨front,parts⟩,absent⟩ := ih left
    refine ⟨⟨opening ++ inner ++ closing ++ front,?_⟩,absent⟩
    rw [((cutAt_eq_some closes).mp found).1,parts]
    simp only [List.append_assoc]
  | unclosed text none =>
    rw [openTail_unclosed opens none] at left
    cases left
    exact ⟨⟨[],by rw [List.nil_append]⟩,(cutAt_eq_none closes).mp none⟩

include opens closes in
theorem openTail_of_closed (distinct : ∀ c ∈ opening, c ∉ closing) (text : List α) :
    openTail opening closing (text ++ closing) = none := by
  cases left : openTail opening closing (text ++ closing) with
  | none => rfl
  | some tail =>
    obtain ⟨⟨front,parts⟩,absent⟩ := openTail_parts opens closes left
    rcases List.suffix_or_suffix_of_suffix (List.suffix_append text closing) ⟨front ++ opening,parts.symm⟩ with inside | inside
    · exact absurd inside.isInfix absent
    · obtain ⟨rest,rfl⟩ := inside
      rw [← List.append_assoc,List.append_cancel_right_eq] at parts
      have last := congrArg List.getLast? parts
      have some : rest ≠ [] := by
        rintro rfl
        exact absurd (List.infix_refl tail) absent
      rw [List.getLast?_append_of_ne_nil _ opens,List.getLast?_append_of_ne_nil _ some,List.getLast?_eq_getLast_of_ne_nil opens]
        at last
      exact absurd (List.mem_append_left tail (List.mem_of_getLast? last)) (distinct _ (List.getLast_mem opens))

end
end
end Ecphoria.Library
