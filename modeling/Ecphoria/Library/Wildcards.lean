import Ecphoria.Library.Like
import Mathlib.Data.List.DropRight

/-! Patterns in which a star stands for any text: the texts of a pattern, and when two patterns have a text in common. -/
namespace Ecphoria.Library

section
variable {α κ : Type} [DecidableEq κ] {fold : α → κ}

theorem globMatch_append_iff {first second : List (Glob κ)} {text : List α} :
    globMatch fold (first ++ second) text = true ↔
      ∃ left right,text = left ++ right ∧ globMatch fold first left = true ∧ globMatch fold second right = true := by
  constructor
  · intro found
    induction first generalizing text with
    | nil => exact ⟨[],text,rfl,rfl,found⟩
    | cons piece first ih =>
      cases piece with
      | many =>
        obtain ⟨skipped,rest,rfl,matched⟩ := globMatch_many.mp found
        obtain ⟨left,right,rfl,here,there⟩ := ih matched
        exact ⟨skipped ++ left,right,(List.append_assoc ..).symm,globMatch_many.mpr ⟨skipped,left,rfl,here⟩,there⟩
      | one =>
        cases text with
        | nil => cases found
        | cons c text =>
          obtain ⟨left,right,rfl,here,there⟩ := ih found
          exact ⟨c :: left,right,rfl,here,there⟩
      | lit k =>
        cases text with
        | nil => cases found
        | cons c text =>
          simp only [List.cons_append,globMatch,Bool.and_eq_true] at found
          obtain ⟨left,right,rfl,here,there⟩ := ih found.2
          refine ⟨c :: left,right,rfl,?_,there⟩
          simp only [globMatch,Bool.and_eq_true]
          exact ⟨found.1,here⟩
  · rintro ⟨left,right,rfl,here,there⟩
    exact globMatch_append here there

end

section
variable {α : Type} [DecidableEq α] (star : α)

def starGlob (pattern : List α) : List (Glob α) := pattern.map (fun c => if c = star then .many else .lit c)

def Denotes (pattern text : List α) : Prop := globMatch id (starGlob star pattern) text = true

instance (pattern text : List α) : Decidable (Denotes star pattern text) := inferInstanceAs (Decidable (_ = true))

def headOf (pattern : List α) : List α := pattern.takeWhile (· ≠ star)

def tailOf (pattern : List α) : List α := pattern.rtakeWhile (· ≠ star)

def Aligned (first second : List α) : Prop := first <+: second ∨ second <+: first

def AlignedEnds (first second : List α) : Prop := first <:+ second ∨ second <:+ first

variable {star} {pattern text : List α}

theorem denotes_append {first second : List α} :
    Denotes star (first ++ second) text ↔ ∃ left right,text = left ++ right ∧ Denotes star first left ∧ Denotes star second right := by
  unfold Denotes starGlob
  rw [List.map_append]
  exact globMatch_append_iff

theorem denotes_plain (plain : star ∉ pattern) : Denotes star pattern text ↔ text = pattern := by
  induction pattern generalizing text with
  | nil => exact List.isEmpty_iff
  | cons c pattern ih =>
    obtain ⟨apart,rest⟩ := not_or.mp (List.mem_cons.not.mp plain)
    unfold Denotes starGlob at ih ⊢
    cases text with
    | nil => simp [Ne.symm apart,globMatch]
    | cons d text => simp [Ne.symm apart,globMatch,ih rest]

theorem denotes_star (text : List α) : Denotes star [star] text := by
  unfold Denotes starGlob
  rw [List.map_singleton,if_pos rfl]
  exact globMatch_many.mpr ⟨text,[],(List.append_nil text).symm,rfl⟩

theorem denotes_self (pattern : List α) : Denotes star pattern (pattern.filter (· ≠ star)) := by
  induction pattern with
  | nil => rfl
  | cons c pattern ih =>
    by_cases same : c = star
    · subst same
      simpa using denotes_append.mpr ⟨[],_,rfl,denotes_star [],ih⟩
    · have single : Denotes star [c] [c] := (denotes_plain (by simpa using Ne.symm same)).mpr rfl
      simpa [same] using denotes_append.mpr ⟨[c],_,rfl,single,ih⟩

theorem headOf_append {front rest : List α} (plain : star ∉ front) : headOf star (front ++ star :: rest) = front := by
  rw [headOf,List.takeWhile_append_of_pos]
  · simp
  · intro c inside
    simpa using fun same : c = star => plain (same ▸ inside)

theorem tailOf_append {front rest : List α} (plain : star ∉ rest) : tailOf star (front ++ star :: rest) = rest := by
  have reversed : (front ++ star :: rest).reverse = rest.reverse ++ star :: front.reverse := by simp
  have first : headOf star (rest.reverse ++ star :: front.reverse) = rest.reverse :=
    headOf_append (fun inside => plain (List.mem_reverse.mp inside))
  rw [tailOf,List.rtakeWhile,reversed]
  exact (congrArg List.reverse first).trans (List.reverse_reverse rest)

theorem headOf_plain (pattern : List α) : star ∉ headOf star pattern := by
  intro inside
  simpa using List.mem_takeWhile_imp inside

theorem tailOf_plain (pattern : List α) : star ∉ tailOf star pattern := by
  intro inside
  simpa using List.mem_rtakeWhile_imp inside

theorem starred_parts (starred : star ∈ pattern) : ∃ front rest,pattern = headOf star pattern ++ star :: rest ∧
    pattern = front ++ star :: tailOf star pattern := by
  obtain ⟨head,rest,forward,plain⟩ := List.eq_append_cons_of_mem starred
  obtain ⟨tail,front,backward,last⟩ := List.eq_append_cons_of_mem (List.mem_reverse.mpr starred)
  have whole : pattern = front.reverse ++ star :: tail.reverse := by
    rw [← List.reverse_reverse pattern,backward]
    simp
  refine ⟨front.reverse,rest,?_,?_⟩
  · rw [forward,headOf_append plain]
  · rw [whole,tailOf_append (fun inside => last (List.mem_reverse.mp inside))]

theorem Denotes.head (denotes : Denotes star pattern text) (starred : star ∈ pattern) : headOf star pattern <+: text := by
  obtain ⟨_,rest,parts,_⟩ := starred_parts starred
  rw [parts] at denotes
  obtain ⟨left,right,rfl,first,_⟩ := denotes_append.mp denotes
  rw [(denotes_plain (headOf_plain pattern)).mp first]
  exact List.prefix_append _ _

theorem Denotes.tail (denotes : Denotes star pattern text) (starred : star ∈ pattern) : tailOf star pattern <:+ text := by
  obtain ⟨front,_,_,parts⟩ := starred_parts starred
  rw [parts,List.append_cons] at denotes
  obtain ⟨left,right,rfl,_,last⟩ := denotes_append.mp denotes
  rw [(denotes_plain (tailOf_plain pattern)).mp last]
  exact List.suffix_append _ _

/-- Between head and tail of a pattern with a star there is room for any text, on both sides of what stands between its
stars. -/
theorem denotes_around (starred : star ∈ pattern) : ∃ mid,star ∉ mid ∧
    ∀ before after,Denotes star pattern (headOf star pattern ++ before ++ mid ++ after ++ tailOf star pattern) := by
  have whole (part : List α) (plain : star ∉ part) : Denotes star part part := (denotes_plain plain).mpr rfl
  obtain ⟨_,rest,parts,_⟩ := starred_parts starred
  by_cases more : star ∈ rest
  · obtain ⟨mid,_,_,inner⟩ := starred_parts more
    have split : pattern = headOf star pattern ++ ([star] ++ (mid ++ ([star] ++ tailOf star rest))) := by
      conv => lhs; rw [parts,inner]
      simp
    have last : tailOf star pattern = tailOf star rest := by
      conv => lhs; rw [parts,inner]
      rw [← List.cons_append,← List.append_assoc,tailOf_append (tailOf_plain rest)]
    refine ⟨mid.filter (· ≠ star),by simp,?_⟩
    intro before after
    rw [last]
    conv => arg 2; rw [split]
    refine denotes_append.mpr ⟨_,_,?_,whole _ (headOf_plain pattern),denotes_append.mpr ⟨before,_,rfl,denotes_star before,
      denotes_append.mpr ⟨_,_,rfl,denotes_self mid,denotes_append.mpr ⟨after,_,rfl,denotes_star after,whole _ (tailOf_plain rest)⟩⟩⟩⟩
    simp
  · have last : tailOf star pattern = rest := by
      conv => lhs; rw [parts]
      exact tailOf_append more
    refine ⟨[],List.not_mem_nil,?_⟩
    intro before after
    rw [last]
    conv => arg 2; rw [parts,List.append_cons,List.append_assoc]
    refine denotes_append.mpr ⟨_,_,?_,whole _ (headOf_plain pattern),denotes_append.mpr ⟨before ++ after,_,rfl,denotes_star _,
      whole _ more⟩⟩
    simp

/-- Two patterns with stars have a text in common exactly if their heads, and their tails, are parts of each other. -/
theorem exists_common_iff {first second : List α} (left : star ∈ first) (right : star ∈ second) :
    (∃ text,star ∉ text ∧ Denotes star first text ∧ Denotes star second text) ↔
      Aligned (headOf star first) (headOf star second) ∧ AlignedEnds (tailOf star first) (tailOf star second) := by
  constructor
  · rintro ⟨text,_,here,there⟩
    exact ⟨List.prefix_or_prefix_of_prefix (here.head left) (there.head right),
      List.suffix_or_suffix_of_suffix (here.tail left) (there.tail right)⟩
  · rintro ⟨heads,tails⟩
    obtain ⟨mid,midPlain,around⟩ := denotes_around left
    obtain ⟨other,otherPlain,aroundOther⟩ := denotes_around right
    obtain ⟨head,s,s',head_eq,head_eq',headPlain⟩ : ∃ head s s',head = headOf star first ++ s ∧ head = headOf star second ++ s' ∧
        star ∉ head := by
      rcases heads with ⟨s,same⟩ | ⟨s,same⟩
      · exact ⟨_,s,[],same.symm,(List.append_nil _).symm,headOf_plain second⟩
      · exact ⟨_,[],s,(List.append_nil _).symm,same.symm,headOf_plain first⟩
    obtain ⟨tail,e,e',tail_eq,tail_eq',tailPlain⟩ : ∃ tail e e',tail = e ++ tailOf star first ∧ tail = e' ++ tailOf star second ∧
        star ∉ tail := by
      rcases tails with ⟨e,same⟩ | ⟨e,same⟩
      · exact ⟨_,e,[],same.symm,(List.nil_append _).symm,tailOf_plain second⟩
      · exact ⟨_,[],e,(List.nil_append _).symm,same.symm,tailOf_plain first⟩
    refine ⟨head ++ mid ++ other ++ tail,by simp [headPlain,midPlain,otherPlain,tailPlain],?_,?_⟩
    · have found := around s (other ++ e)
      rw [← head_eq] at found
      rw [tail_eq]
      simpa using found
    · have found := aroundOther (s' ++ mid) e'
      rw [tail_eq']
      rw [← List.append_assoc,← head_eq'] at found
      simpa using found

end
section
variable {α : Type} [DecidableEq α]

def stripSuffix (ending text : List α) : Option (List α) :=
  if ending <:+ text then some (text.take (text.length - ending.length)) else none

theorem stripSuffix_eq_some {ending text front : List α} : stripSuffix ending text = some front ↔ text = front ++ ending := by
  unfold stripSuffix
  constructor
  · intro found
    split at found
    next ends =>
      obtain ⟨before,rfl⟩ := ends
      rw [List.length_append,Nat.add_sub_cancel,List.take_left'] at found
      · rw [Option.some.inj found]
      · rfl
    next => cases found
  · rintro rfl
    rw [if_pos (List.suffix_append front ending),List.length_append,Nat.add_sub_cancel,List.take_left' rfl]

theorem stripSuffix_eq_none {ending text : List α} : stripSuffix ending text = none ↔ ¬ending <:+ text := by
  unfold stripSuffix
  split
  next ends => exact iff_of_false (Option.some_ne_none _) (not_not.mpr ends)
  next apart => exact iff_of_true rfl apart

def Unbordered (first second : List α) : Prop := ∀ shared,shared <:+ first → shared <+: second → shared = []

omit [DecidableEq α] in
theorem Unbordered.framed {first second text : List α} (apart : Unbordered first second) (starts : first <+: text)
    (ends : second <:+ text) : ∃ mid,text = first ++ mid ++ second := by
  obtain ⟨after,rfl⟩ := starts
  obtain ⟨before,same⟩ := ends
  rcases List.append_eq_append_iff.mp same with ⟨shared,front,rest⟩ | ⟨mid,front,rest⟩
  · have none := apart shared ⟨before,front.symm⟩ ⟨after,rest.symm⟩
    subst none
    exact ⟨[],by simp [rest]⟩
  · exact ⟨mid,by rw [rest,List.append_assoc]⟩

omit [DecidableEq α] in
theorem exists_overlapping {first second : List α} (bordered : ¬Unbordered first second) :
    ∃ text,first <+: text ∧ second <:+ text ∧ text.length < first.length + second.length ∧
      ∀ c ∈ text,c ∈ first ∨ c ∈ second := by
  unfold Unbordered at bordered
  push Not at bordered
  obtain ⟨shared,⟨before,rfl⟩,⟨after,rfl⟩,some⟩ := bordered
  have length := List.length_pos_iff.mpr some
  refine ⟨before ++ shared ++ after,List.prefix_append _ _,?_,?_,?_⟩
  · rw [List.append_assoc]
    exact List.suffix_append _ _
  · simp only [List.length_append]
    omega
  · intro c inside
    simp only [List.mem_append] at inside ⊢
    tauto

end
end Ecphoria.Library
