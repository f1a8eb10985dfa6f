import Ecphoria.Cognition.Types
import Ecphoria.Library.Text
import Ecphoria.Library.Wildcards

/-! The path filter of a context pack: a memory that names paths passes if one of them may be the same as a path that the
task is allowed. Either may be a pattern, and one of the two is then matched as text. -/
namespace Ecphoria
open Library

def Json.asArray : Json → Option (List Json)
  | .arr items => some items
  | _ => none

def pathMatches (path pattern : List Char) : Bool :=
  match stripSuffix "/**".toList pattern with
  | some front => path = front || (front ++ ['/']).isPrefixOf path
  | none =>
    match stripSuffix "**".toList pattern with
    | some front => front.isPrefixOf path
    | none =>
      match splitOnce '*' pattern with
      | some (front,back) => front.isPrefixOf path && back.isSuffixOf path
      | none => path = pattern

def overlaps (path pattern : List Char) : Bool := pathMatches path pattern || pathMatches pattern path

def namedPaths (m : Memory) : List String :=
  (((m.metadata.get "paths").bind Json.asArray).getD []).filterMap Json.asStr

def pathsAllow (m : Memory) (allowed : List String) : Bool :=
  if allowed.isEmpty then true
  else
    match (m.metadata.get "paths").bind Json.asArray with
    | none => true
    | some paths =>
      if paths.isEmpty then true
      else (paths.filterMap Json.asStr).any (fun path => allowed.any (fun pattern => overlaps path.toList pattern.toList))

/-- A star stands for any text, and `/**` at the end for a directory and what is below it. -/
def InGlob (pattern path : List Char) : Prop :=
  match stripSuffix "/**".toList pattern with
  | some dir => ∃ top,Denotes '*' dir top ∧ (path = top ∨ ∃ rest,path = top ++ '/' :: rest)
  | none => Denotes '*' pattern path

def Meets (first second : List Char) : Prop := ∃ path,'*' ∉ path ∧ InGlob first path ∧ InGlob second path

/-- What stands before the wildcard of a pattern, and what stands behind it. -/
def framing (pattern : List Char) : Option (List Char × List Char) :=
  match stripSuffix "/**".toList pattern with
  | some front => some (front ++ ['/'],[])
  | none =>
    match stripSuffix "**".toList pattern with
    | some front => some (front,[])
    | none => splitOnce '*' pattern

variable {path pattern front back : List Char}

theorem framing_parts (framed : framing pattern = some (front,back)) :
    ∃ stars,(stars = ['*'] ∨ stars = ['*','*']) ∧ pattern = front ++ stars ++ back := by
  unfold framing at framed
  split at framed
  next dir below =>
    cases framed
    exact ⟨['*','*'],.inr rfl,by rw [stripSuffix_eq_some.mp below]; simp⟩
  next =>
    split at framed
    next start starting =>
      cases framed
      exact ⟨['*','*'],.inr rfl,by rw [stripSuffix_eq_some.mp starting]; simp⟩
    next => exact ⟨['*'],.inl rfl,by rw [splitOnce_joined framed]; simp⟩

theorem framing_star (framed : framing pattern = some (front,back)) : '*' ∈ pattern := by
  obtain ⟨stars,rfl | rfl,rfl⟩ := framing_parts framed <;> simp

theorem exists_framing (starred : '*' ∈ pattern) : ∃ front back,framing pattern = some (front,back) := by
  unfold framing
  split
  next => exact ⟨_,_,rfl⟩
  next =>
    split
    next => exact ⟨_,_,rfl⟩
    next =>
      cases parts : splitOnce '*' pattern with
      | none => exact absurd starred (splitOnce_eq_none.mp parts)
      | some parts => exact ⟨_,_,rfl⟩

/-- A path is matched by what stands before the wildcard and behind it, or it is the directory itself. -/
theorem pathMatches_framed (framed : framing pattern = some (front,back)) :
    pathMatches path pattern = true ↔ front <+: path ∧ back <:+ path ∨ pattern = path ++ "/**".toList := by
  unfold framing at framed
  unfold pathMatches
  split at framed
  next dir below =>
    cases framed
    rw [stripSuffix_eq_some.mp below]
    simp only [Bool.or_eq_true,decide_eq_true_eq,List.isPrefixOf_iff_prefix,List.nil_suffix,and_true,List.append_left_inj]
    rw [or_comm,eq_comm]
  next other =>
    have apart : pattern ≠ path ++ "/**".toList := fun same =>
      stripSuffix_eq_none.mp other (same ▸ List.suffix_append _ _)
    rw [or_iff_left apart]
    split at framed
    next start starting =>
      cases framed
      simp
    next =>
      rw [framed]
      simp

theorem pathMatches_plain (plain : '*' ∉ pattern) : pathMatches path pattern = true ↔ path = pattern := by
  have none (ending : List Char) (star : '*' ∈ ending) : stripSuffix ending pattern = none :=
    stripSuffix_eq_none.mpr (fun ends => plain (ends.subset star))
  unfold pathMatches
  rw [none "/**".toList (by decide),none "**".toList (by decide),splitOnce_eq_none.mpr plain]
  exact decide_eq_true_iff

theorem denotes_stars {stars text : List Char} (two : stars = ['*'] ∨ stars = ['*','*']) : Denotes '*' stars text := by
  rcases two with rfl | rfl
  · exact denotes_star text
  · exact denotes_append.mpr ⟨text,[],(List.append_nil text).symm,denotes_star text,denotes_star []⟩

theorem inGlob_iff : InGlob pattern path ↔
    Denotes '*' pattern path ∨ ∃ dir,pattern = dir ++ "/**".toList ∧ Denotes '*' dir path := by
  have slash : '*' ∉ ['/'] := by decide
  unfold InGlob
  split
  next dir below =>
    have whole := stripSuffix_eq_some.mp below
    subst whole
    constructor
    · rintro ⟨top,denotes,rfl | ⟨rest,rfl⟩⟩
      · exact .inr ⟨dir,rfl,denotes⟩
      · refine .inl (denotes_append.mpr ⟨top,_,rfl,denotes,?_⟩)
        exact denotes_append.mpr ⟨['/'],rest,rfl,(denotes_plain slash).mpr rfl,denotes_stars (.inr rfl)⟩
    · rintro (denotes | ⟨other,same,denotes⟩)
      · obtain ⟨top,under,rfl,first,second⟩ := denotes_append.mp denotes
        obtain ⟨here,rest,rfl,slashed,_⟩ := denotes_append.mp (show Denotes '*' (['/'] ++ ['*','*']) under from second)
        rw [(denotes_plain slash).mp slashed]
        exact ⟨top,first,.inr ⟨rest,rfl⟩⟩
      · rw [← List.append_cancel_right same] at denotes
        exact ⟨path,denotes,.inl rfl⟩
  next other =>
    constructor
    · exact .inl
    · rintro (denotes | ⟨dir,rfl,_⟩)
      · exact denotes
      · exact absurd (List.suffix_append _ _) (stripSuffix_eq_none.mp other)

/-- The pattern has one wildcard, and no text that is an end of what stands before it and a beginning of what stands
behind it. -/
def PlainGlob (pattern : List Char) : Prop :=
  ∀ front back,framing pattern = some (front,back) → '*' ∉ front ∧ '*' ∉ back ∧ Unbordered front back

/-- The paths that are matched are those of the pattern. -/
def MatchesRight (pattern : List Char) : Prop :=
  ∀ path,'*' ∉ path → (pathMatches path pattern = true ↔ InGlob pattern path)

theorem inGlob_plain (plain : '*' ∉ pattern) : InGlob pattern path ↔ path = pattern := by
  rw [inGlob_iff,denotes_plain plain]
  refine or_iff_left ?_
  rintro ⟨dir,rfl,_⟩
  exact plain (by simp)

/-- With one wildcard the paths of a pattern are those between what stands before it and behind it, and the directory. -/
theorem inGlob_framed (framed : framing pattern = some (front,back)) (first : '*' ∉ front) (last : '*' ∉ back) :
    InGlob pattern path ↔ (∃ mid,path = front ++ mid ++ back) ∨ pattern = path ++ "/**".toList := by
  have whole (part : List Char) (plain : '*' ∉ part) : Denotes '*' part part := (denotes_plain plain).mpr rfl
  have between : Denotes '*' pattern path ↔ ∃ mid,path = front ++ mid ++ back := by
    obtain ⟨stars,two,parts⟩ := framing_parts framed
    rw [parts]
    constructor
    · intro denotes
      obtain ⟨left,right,rfl,start,rest⟩ := denotes_append.mp denotes
      obtain ⟨here,mid,rfl,exact_front,_⟩ := denotes_append.mp start
      exact ⟨mid,by rw [(denotes_plain first).mp exact_front,(denotes_plain last).mp rest]⟩
    · rintro ⟨mid,rfl⟩
      exact denotes_append.mpr ⟨_,_,rfl,denotes_append.mpr ⟨_,mid,rfl,whole front first,denotes_stars two⟩,whole back last⟩
  have directory : (∃ dir,pattern = dir ++ "/**".toList ∧ Denotes '*' dir path) ↔ pattern = path ++ "/**".toList := by
    constructor
    · rintro ⟨dir,rfl,denotes⟩
      have known : framing (dir ++ "/**".toList) = some (dir ++ ['/'],[]) := by
        rw [framing,stripSuffix_eq_some.mpr rfl]
      cases known.symm.trans framed
      rw [(denotes_plain (fun inside => first (List.mem_append_left _ inside))).mp denotes]
    · rintro rfl
      have known : framing (path ++ "/**".toList) = some (path ++ ['/'],[]) := by
        rw [framing,stripSuffix_eq_some.mpr rfl]
      cases known.symm.trans framed
      exact ⟨path,rfl,whole path (fun inside => first (List.mem_append_left _ inside))⟩
  rw [inGlob_iff,between,directory]

theorem pathMatches_second_star (plain : '*' ∉ path) (framed : framing pattern = some (front,back))
    (second : '*' ∈ front ∨ '*' ∈ back) : pathMatches path pattern = false := by
  rw [← Bool.not_eq_true,pathMatches_framed framed]
  rintro (⟨starts,ends⟩ | same)
  · exact second.elim (fun inside => plain (starts.subset inside)) (fun inside => plain (ends.subset inside))
  · have known : framing pattern = some (path ++ ['/'],[]) := by
      rw [same,framing,stripSuffix_eq_some.mpr rfl]
    cases known.symm.trans framed
    simp [plain] at second

theorem matchesRight_iff (pattern : List Char) : MatchesRight pattern ↔ PlainGlob pattern := by
  constructor
  · intro right front back framed
    by_cases second : '*' ∈ front ∨ '*' ∈ back
    · -- without its stars the pattern is one of its paths
      have plain : '*' ∉ pattern.filter (· ≠ '*') := by simp
      have missed := (right _ plain).mpr (inGlob_iff.mpr (.inl (denotes_self pattern)))
      rw [pathMatches_second_star plain framed second] at missed
      cases missed
    · obtain ⟨first,last⟩ := not_or.mp second
      refine ⟨first,last,?_⟩
      by_contra bordered
      obtain ⟨path,starts,ends,short,letters⟩ := exists_overlapping bordered
      have plain : '*' ∉ path := fun inside => (letters _ inside).elim first last
      have found := (right path plain).mp ((pathMatches_framed framed).mpr (.inl ⟨starts,ends⟩))
      rcases (inGlob_framed framed first last).mp found with ⟨mid,rfl⟩ | same
      · simp only [List.length_append] at short
        omega
      · have known : framing pattern = some (path ++ ['/'],[]) := by
          rw [same,framing,stripSuffix_eq_some.mpr rfl]
        cases known.symm.trans framed
        exact bordered (fun _ _ => List.prefix_nil.mp)
  · intro plainGlob path plain
    by_cases starred : '*' ∈ pattern
    · obtain ⟨front,back,framed⟩ := exists_framing starred
      obtain ⟨first,last,apart⟩ := plainGlob front back framed
      rw [pathMatches_framed framed,inGlob_framed framed first last]
      refine or_congr_left ?_
      constructor
      · exact fun both => apart.framed both.1 both.2
      · rintro ⟨mid,rfl⟩
        exact ⟨⟨mid ++ back,by simp⟩,List.suffix_append _ _⟩
    · rw [pathMatches_plain starred,inGlob_plain starred]

/-- A text begins with what stands before the wildcard of a pattern and ends with what stands behind it, or is its
directory. -/
def Frames (pattern text : List Char) : Prop :=
  ∃ front back,framing pattern = some (front,back) ∧ (front <+: text ∧ back <:+ text ∨ pattern = text ++ "/**".toList)

def OneWildcard (pattern : List Char) : Prop := ∀ front back,framing pattern = some (front,back) → '*' ∉ front ∧ '*' ∉ back

/-- The patterns have no path in common, by their heads or tails, or one frames the other; and a pattern with a second
wildcard does not have the other one as a path. -/
def Decisive (first second : List Char) : Prop :=
  if '*' ∈ first then
    if '*' ∈ second then
      ¬(Aligned (headOf '*' first) (headOf '*' second) ∧ AlignedEnds (tailOf '*' first) (tailOf '*' second)) ∨
        Frames first second ∨ Frames second first
    else OneWildcard first ∨ ¬InGlob first second
  else if '*' ∈ second then OneWildcard second ∨ ¬InGlob second first else True

theorem pathMatches_starred (starred : '*' ∈ pattern) : pathMatches path pattern = true ↔ Frames pattern path := by
  obtain ⟨front,back,framed⟩ := exists_framing starred
  rw [pathMatches_framed framed]
  constructor
  · exact fun found => ⟨front,back,framed,found⟩
  · rintro ⟨other,rest,same,found⟩
    cases framed.symm.trans same
    exact found

/-- A path of a pattern, or the path and a slash, begins with the head of the pattern and ends with its tail. -/
theorem InGlob.ends (inside : InGlob pattern path) (starred : '*' ∈ pattern) :
    headOf '*' pattern <+: path ++ ['/'] ∧ tailOf '*' pattern <:+ path := by
  have slash : Denotes '*' ['/'] ['/'] := (denotes_plain (by decide)).mpr rfl
  rcases inGlob_iff.mp inside with denotes | ⟨dir,rfl,denotes⟩
  · exact ⟨(denotes.head starred).trans (List.prefix_append _ _),denotes.tail starred⟩
  · have below : Denotes '*' (dir ++ "/**".toList) (path ++ ['/']) :=
      denotes_append.mpr ⟨path,['/'],rfl,denotes,denotes_append.mpr ⟨['/'],[],rfl,slash,denotes_stars (.inr rfl)⟩⟩
    have parts : dir ++ "/**".toList = (dir ++ ['/','*']) ++ '*' :: [] := by simp
    refine ⟨below.head starred,?_⟩
    rw [parts,tailOf_append List.not_mem_nil]
    exact List.nil_suffix

/-- Two patterns with stars have a path in common exactly if their heads, and their tails, are parts of each other. -/
theorem meets_starred {first second : List Char} (left : '*' ∈ first) (right : '*' ∈ second) :
    Meets first second ↔
      Aligned (headOf '*' first) (headOf '*' second) ∧ AlignedEnds (tailOf '*' first) (tailOf '*' second) := by
  constructor
  · rintro ⟨path,_,here,there⟩
    have ends := here.ends left
    have others := there.ends right
    exact ⟨List.prefix_or_prefix_of_prefix ends.1 others.1,List.suffix_or_suffix_of_suffix ends.2 others.2⟩
  · intro aligned
    obtain ⟨path,plain,here,there⟩ := (exists_common_iff left right).mpr aligned
    exact ⟨path,plain,inGlob_iff.mpr (.inl here),inGlob_iff.mpr (.inl there)⟩

theorem meets_plain {first : List Char} (plain : '*' ∉ first) (second : List Char) : Meets first second ↔ InGlob second first := by
  constructor
  · rintro ⟨path,_,here,there⟩
    rwa [(inGlob_plain plain).mp here] at there
  · exact fun inside => ⟨first,plain,(inGlob_plain plain).mpr rfl,inside⟩

theorem plain_overlaps_iff (plain : '*' ∉ path) (starred : '*' ∈ pattern) :
    (InGlob pattern path → pathMatches path pattern = true) ↔ OneWildcard pattern ∨ ¬InGlob pattern path := by
  obtain ⟨front,back,framed⟩ := exists_framing starred
  by_cases second : '*' ∈ front ∨ '*' ∈ back
  · have several : ¬OneWildcard pattern := fun one => second.elim (one front back framed).1 (one front back framed).2
    rw [pathMatches_second_star plain framed second,or_iff_right several]
    simp
  · obtain ⟨first,last⟩ := not_or.mp second
    have one : OneWildcard pattern := by
      intro other rest same
      cases framed.symm.trans same
      exact ⟨first,last⟩
    refine iff_of_true ?_ (.inl one)
    rw [inGlob_framed framed first last,pathMatches_framed framed]
    rintro (⟨mid,rfl⟩ | same)
    · exact .inl ⟨⟨mid ++ back,by simp⟩,List.suffix_append _ _⟩
    · exact .inr same

theorem overlaps_iff (first second : List Char) :
    (Meets first second → overlaps first second = true) ↔ Decisive first second := by
  rw [overlaps,Bool.or_eq_true]
  unfold Decisive
  by_cases left : '*' ∈ first
  · by_cases right : '*' ∈ second
    · rw [if_pos left,if_pos right,meets_starred left right,pathMatches_starred left,pathMatches_starred right,imp_iff_not_or]
      exact or_congr_right or_comm
    · have apart : ¬first = second := fun same => right (same ▸ left)
      have turned : Meets first second ↔ Meets second first := by
        constructor <;> exact fun ⟨path,plain,here,there⟩ => ⟨path,plain,there,here⟩
      rw [if_pos left,if_neg right,turned,meets_plain right,pathMatches_plain right,or_iff_right apart]
      exact plain_overlaps_iff right left
  · by_cases right : '*' ∈ second
    · have apart : ¬second = first := fun same => left (same ▸ right)
      rw [if_neg left,if_pos right,meets_plain left,pathMatches_plain left,or_iff_left apart]
      exact plain_overlaps_iff left right
    · rw [if_neg left,if_neg right,meets_plain left,inGlob_plain right,pathMatches_plain right,pathMatches_plain left]
      exact iff_of_true .inl trivial

theorem frames_self (starred : '*' ∈ pattern) : Frames pattern pattern := by
  obtain ⟨front,back,framed⟩ := exists_framing starred
  obtain ⟨stars,-,same⟩ := framing_parts framed
  refine ⟨front,back,framed,.inl ⟨?_,?_⟩⟩
  · exact ⟨stars ++ back,by rw [same,List.append_assoc]⟩
  · exact ⟨front ++ stars,same.symm⟩

/-- Two patterns are told to overlap if they are the same or one, read as text, has the ends of the other. -/
theorem told_iff (first second : List Char) :
    overlaps first second = true ↔ first = second ∨ Frames first second ∨ Frames second first := by
  have matched (path pattern : List Char) : pathMatches path pattern = true ↔ path = pattern ∨ Frames pattern path := by
    by_cases starred : '*' ∈ pattern
    · rw [pathMatches_starred starred]
      refine ⟨.inr,?_⟩
      rintro (rfl | found)
      · exact frames_self starred
      · exact found
    · rw [pathMatches_plain starred]
      refine ⟨.inl,fun found => found.resolve_right ?_⟩
      rintro ⟨front,back,framed,-⟩
      exact starred (framing_star framed)
  rw [overlaps,Bool.or_eq_true,matched,matched]
  constructor
  · rintro ((same | found) | (same | found))
    · exact .inl same
    · exact .inr (.inr found)
    · exact .inl same.symm
    · exact .inr (.inl found)
  · rintro (same | found | found)
    · exact .inl (.inl same)
    · exact .inr (.inr found)
    · exact .inl (.inr found)

/-- Where a path that is named meets a pattern that is allowed, a memory passes if such a pair is told to overlap. -/
theorem pathsAllow_iff {m : Memory} {allowed : List String} {path pattern : String} (named : path ∈ namedPaths m)
    (listed : pattern ∈ allowed) : pathsAllow m allowed = true ↔
      ∃ path ∈ namedPaths m,∃ pattern ∈ allowed,overlaps path.toList pattern.toList = true := by
  have some : allowed.isEmpty = false := by
    cases allowed with
    | nil => cases listed
    | cons first rest => rfl
  unfold pathsAllow
  rw [some]
  unfold namedPaths at named ⊢
  cases found : (m.metadata.get "paths").bind Json.asArray with
  | none =>
    rw [found] at named
    cases named
  | some paths =>
    rw [found] at named
    rw [Option.getD_some] at named ⊢
    have filled : paths.isEmpty = false := by
      cases paths with
      | nil => cases named
      | cons first rest => rfl
    simp only [Bool.false_eq_true,if_false,filled,List.any_eq_true]

/-- The filter as it is: which patterns match their paths, which pairs are told to overlap where they do, and which memories
pass where one of their paths meets one that is allowed. -/
theorem path_filter_iff (pattern first second : List Char) (m : Memory) (allowed : List String) :
    (MatchesRight pattern ↔ PlainGlob pattern) ∧
      ((Meets first second → overlaps first second = true) ↔ Decisive first second) ∧
      (((∃ path ∈ namedPaths m,∃ pattern ∈ allowed,Meets path.toList pattern.toList) → pathsAllow m allowed = true) ↔
        ((∃ path ∈ namedPaths m,∃ pattern ∈ allowed,Meets path.toList pattern.toList) →
          ∃ path ∈ namedPaths m,∃ pattern ∈ allowed,path = pattern ∨ Frames path.toList pattern.toList ∨
            Frames pattern.toList path.toList)) := by
  refine ⟨matchesRight_iff pattern,overlaps_iff first second,?_⟩
  refine forall_congr' ?_
  rintro ⟨path,named,pattern,listed,-⟩
  rw [pathsAllow_iff named listed]
  simp only [told_iff,String.toList_inj]

/-- `a*a` matches `a`, which is not one of its paths; `a*b*c` does not match `abc`; and `src/**` and `*.rs`, or `src/*.rs`
and `src/a*`, are not told to overlap though each pair has a path in common. -/
theorem path_filter_misses : ¬MatchesRight "a*a".toList ∧ ¬MatchesRight "a*b*c".toList ∧
    ¬(Meets "src/**".toList "*.rs".toList → overlaps "src/**".toList "*.rs".toList = true) ∧
    ¬(Meets "src/*.rs".toList "src/a*".toList → overlaps "src/*.rs".toList "src/a*".toList = true) := by
  refine ⟨?_,?_,?_,?_⟩
  · intro right
    rcases inGlob_iff.mp ((right "a".toList (by decide)).mp (by decide)) with denotes | ⟨dir,same,_⟩
    · revert denotes
      decide
    · have plain : stripSuffix "/**".toList "a*a".toList = none := by decide
      cases plain.symm.trans (stripSuffix_eq_some.mpr same)
  · intro right
    have missed := (right "abc".toList (by decide)).mpr (inGlob_iff.mpr (.inl (by decide)))
    revert missed
    decide
  · intro told
    have missed := told ((meets_starred (by decide) (by decide)).mpr ⟨.inr (by decide),.inl (by decide)⟩)
    revert missed
    decide
  · intro told
    have missed := told ((meets_starred (by decide) (by decide)).mpr ⟨.inl (by decide),.inr (by decide)⟩)
    revert missed
    decide

end Ecphoria
