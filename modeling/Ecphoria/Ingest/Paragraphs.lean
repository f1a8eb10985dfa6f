import Ecphoria.Ingest.Rows

/-! Sections and paragraphs by their lines: a document is cut into the lines of its
sections, and a section is packed from groups of its lines, in order. Only headings and
blank lines are left out. -/
namespace Ecphoria
namespace Chunk

def nonBlank (line : String) : Bool := !(trim line).isEmpty

def bundleText (bundle : List (List String)) : String := joinLines (bundle.flatMap (fun group => group ++ [""]))

/-- Finished paragraphs and the open one as groups of the lines seen, with the fence lines in them. -/
structure Gathered (s : ParagraphState) (seen : List String) (groups : List (List String)) (held : List String) :
    Prop where
  paragraphs : s.paragraphs = groups.map joinLines
  buf : s.buf = joinLines held
  kept : (groups.flatten ++ held).filter nonBlank = seen.filter nonBlank
  among : ∀ line ∈ groups.flatten ++ held, line ∈ seen
  pairs : ∀ group ∈ groups, group.countP isFence = 0 ∨ group.countP isFence = 2

def openCount (inFence : Bool) : Nat := if inFence then 1 else 0

section
variable {s : ParagraphState} {seen held : List String} {groups : List (List String)} {line : String}

theorem nonBlank_iff_chars (s : String) : nonBlank s = true ↔ NonBlank s := by
  rw [nonBlank,nonBlank_iff,Bool.not_eq_true']

theorem joinLines_append (a b : List String) : joinLines (a ++ b) = joinLines a ++ joinLines b := by
  simp [joinLines]

theorem joinLines_concat (held : List String) (line : String) :
    joinLines (held ++ [line]) = joinLines held ++ line ++ "\n" := by
  rw [joinLines_append,joinLines_cons,joinLines_nil,String.append_empty,String.append_assoc]

theorem nonBlank_joinLines : nonBlank (joinLines held) = true ↔ ∃ line ∈ held, nonBlank line = true := by
  simp only [nonBlank_iff_chars]
  induction held with
  | nil =>
    refine iff_of_false ?_ (by simp)
    rintro ⟨c,inside,_⟩
    simp at inside
  | cons line held ih =>
    rw [List.exists_mem_cons_iff,← ih,joinLines_cons]
    constructor
    · rintro ⟨c,inside,plain⟩
      rw [String.toList_append,String.toList_append] at inside
      rcases List.mem_append.mp inside with first | later
      · rcases List.mem_append.mp first with own | newline
        · exact Or.inl ⟨c,own,plain⟩
        · have same : c = '\n' := by simpa using newline
          rw [same] at plain
          cases plain
      · exact Or.inr ⟨c,later,plain⟩
    · rintro (first | later)
      · exact (first.append_left _).append_left _
      · exact later.append_right _

theorem filter_blank_lines (blank : nonBlank (joinLines held) = false) : held.filter nonBlank = [] := by
  rw [List.filter_eq_nil_iff]
  intro line inside some
  have whole := nonBlank_joinLines.mpr ⟨line,inside,some⟩
  rw [blank] at whole
  cases whole

/-- One line: it joins the open paragraph, which may be finished with it, or it is blank and ends or clears it. -/
theorem paragraphLine_cases (s : ParagraphState) (line : String) :
    (isFence line = true ∧ s.inFence = true ∧ paragraphLine s line = ⟨s.paragraphs ++ [s.buf ++ line ++ "\n"],"",false⟩) ∨
    (isFence line = true ∧ s.inFence = false ∧ paragraphLine s line = ⟨s.paragraphs,s.buf ++ line ++ "\n",true⟩) ∨
    (isFence line = false ∧ paragraphLine s line = ⟨s.paragraphs,s.buf ++ line ++ "\n",s.inFence⟩) ∨
    (isFence line = false ∧ nonBlank line = false ∧ s.inFence = false ∧ nonBlank s.buf = true ∧
      paragraphLine s line = ⟨s.paragraphs ++ [s.buf],"",false⟩) ∨
    (isFence line = false ∧ nonBlank line = false ∧ s.inFence = false ∧ nonBlank s.buf = false ∧
      paragraphLine s line = ⟨s.paragraphs,"",false⟩) := by
  unfold paragraphLine nonBlank
  cases fence : isFence line <;> cases state : s.inFence <;> cases text : (trim line).isEmpty <;>
    cases held : (trim s.buf).isEmpty <;> simp

private theorem Gathered.goes_on (gathered : Gathered s seen groups held) (line : String) (inFence : Bool) :
    Gathered ⟨s.paragraphs,s.buf ++ line ++ "\n",inFence⟩ (seen ++ [line]) groups (held ++ [line]) := by
  refine ⟨gathered.paragraphs,?_,?_,?_,gathered.pairs⟩
  · dsimp only
    rw [joinLines_concat,← gathered.buf]
  · rw [← List.append_assoc,List.filter_append,gathered.kept,List.filter_append]
  · intro other listed
    rw [← List.append_assoc] at listed
    rcases List.mem_append.mp listed with old | new
    · exact List.mem_append_left _ (gathered.among other old)
    · exact List.mem_append_right _ new

private theorem Gathered.finishes (gathered : Gathered s seen groups held)
    (count : held.countP isFence = 0 ∨ held.countP isFence = 2) :
    Gathered ⟨s.paragraphs ++ [s.buf],"",false⟩ seen (groups ++ [held]) [] := by
  refine ⟨?_,joinLines_nil.symm,?_,?_,?_⟩
  · dsimp only
    rw [List.map_append,List.map_singleton,← gathered.paragraphs,← gathered.buf]
  · simpa using gathered.kept
  · simpa using gathered.among
  · intro group inside
    rcases List.mem_append.mp inside with old | new
    · exact gathered.pairs group old
    · rw [List.mem_singleton.mp new]
      exact count

private theorem Gathered.skips (gathered : Gathered s seen groups held) (blank : nonBlank line = false) :
    Gathered s (seen ++ [line]) groups held := by
  refine ⟨gathered.paragraphs,gathered.buf,?_,?_,gathered.pairs⟩
  · rw [gathered.kept,List.filter_append,List.filter_singleton,blank]
    simp
  · exact fun other listed => List.mem_append_left _ (gathered.among other listed)

private theorem Gathered.drops (gathered : Gathered s seen groups held) (blank : nonBlank s.buf = false) :
    Gathered ⟨s.paragraphs,"",false⟩ seen groups [] := by
  refine ⟨gathered.paragraphs,joinLines_nil.symm,?_,?_,gathered.pairs⟩
  · rw [gathered.buf] at blank
    rw [← gathered.kept,List.append_nil,List.filter_append,filter_blank_lines blank,List.append_nil]
  · intro other listed
    rw [List.append_nil] at listed
    exact gathered.among other (List.mem_append_left _ listed)

theorem Gathered.step (gathered : Gathered s seen groups held) (opened : held.countP isFence = openCount s.inFence)
    (line : String) : ∃ groups' held', Gathered (paragraphLine s line) (seen ++ [line]) groups' held' ∧
      held'.countP isFence = openCount (paragraphLine s line).inFence := by
  have count : (held ++ [line]).countP isFence = held.countP isFence + if isFence line then 1 else 0 := by
    rw [List.countP_append,List.countP_singleton]
  rcases paragraphLine_cases s line with ⟨fence,state,step⟩ | ⟨fence,state,step⟩ | ⟨plain,step⟩ |
    ⟨_,blank,state,_,step⟩ | ⟨_,blank,state,none,step⟩
  · rw [opened,state,fence] at count
    rw [step]
    exact ⟨_,[],(gathered.goes_on line false).finishes (Or.inr count),rfl⟩
  · rw [opened,state,fence] at count
    rw [step]
    exact ⟨groups,held ++ [line],gathered.goes_on line true,count⟩
  · rw [opened,plain] at count
    rw [step]
    exact ⟨groups,held ++ [line],gathered.goes_on line s.inFence,count⟩
  · rw [state] at opened
    rw [step]
    exact ⟨_,[],(gathered.skips blank).finishes (Or.inl opened),rfl⟩
  · rw [step]
    exact ⟨groups,[],(gathered.skips blank).drops none,rfl⟩

theorem Gathered.run (gathered : Gathered s seen groups held) (opened : held.countP isFence = openCount s.inFence)
    (lines : List String) : ∃ groups' held', Gathered (lines.foldl paragraphLine s) (seen ++ lines) groups' held' ∧
      held'.countP isFence = openCount (lines.foldl paragraphLine s).inFence := by
  induction lines generalizing s seen groups held with
  | nil => exact ⟨groups,held,by simpa using gathered,opened⟩
  | cons line lines ih =>
    obtain ⟨groups',held',next,count⟩ := gathered.step opened line
    have rest := ih next count
    rwa [List.append_assoc,List.singleton_append] at rest

/-- The lines of a section in paragraphs: all that are not blank, in order; each paragraph has no fence line or two,
but the last may have one. -/
structure Grouping (body : String) (groups : List (List String)) : Prop where
  paragraphs : paragraphs body = groups.map joinLines
  kept : groups.flatten.filter nonBlank = (lines body).filter nonBlank
  among : ∀ line ∈ groups.flatten, line ∈ lines body
  fences : ∃ front last, groups = front ++ last ∧
    (∀ group ∈ front, group.countP isFence = 0 ∨ group.countP isFence = 2) ∧
    (last = [] ∨ ∃ group, last = [group] ∧ group.countP isFence = 1)

theorem exists_grouping (body : String) : ∃ groups, Grouping body groups := by
  have start : Gathered ⟨[],"",false⟩ [] [] [] := ⟨rfl,rfl,rfl,nofun,nofun⟩
  obtain ⟨groups,held,⟨paragraphs,buf,kept,among,pairs⟩,count⟩ := start.run rfl (lines body)
  rw [List.nil_append] at kept among
  by_cases blank : nonBlank ((lines body).foldl paragraphLine ⟨[],"",false⟩).buf = true
  · refine ⟨groups ++ [held],?_,?_,?_,?_⟩
    · have some : (trim ((lines body).foldl paragraphLine ⟨[],"",false⟩).buf).isEmpty = false := by
        simpa [nonBlank] using blank
      rw [Chunk.paragraphs,some,if_neg (by decide),paragraphs,buf,List.map_append,List.map_singleton]
    · simpa using kept
    · simpa using among
    · cases state : ((lines body).foldl paragraphLine ⟨[],"",false⟩).inFence with
      | true =>
        rw [state] at count
        exact ⟨groups,[held],rfl,pairs,Or.inr ⟨held,rfl,count⟩⟩
      | false =>
        rw [state] at count
        refine ⟨groups ++ [held],[],by simp,?_,Or.inl rfl⟩
        intro group inside
        rcases List.mem_append.mp inside with old | new
        · exact pairs group old
        · rw [List.mem_singleton.mp new]
          exact Or.inl count
  · have none : (trim ((lines body).foldl paragraphLine ⟨[],"",false⟩).buf).isEmpty = true := by
      simpa [nonBlank] using blank
    refine ⟨groups,?_,?_,?_,groups,[],by simp,pairs,Or.inl rfl⟩
    · rw [Chunk.paragraphs,none,if_pos rfl,paragraphs]
    · rw [buf] at blank
      rw [← kept,List.filter_append,filter_blank_lines (Bool.eq_false_iff.mpr blank),List.append_nil]
    · exact fun line inside => among line (List.mem_append_left _ inside)

end

section
variable {body : String} {groups : List (List String)} {out : List String}

theorem bundleText_concat (bundle : List (List String)) (group : List String) :
    bundleText (bundle ++ [group]) = bundleText bundle ++ joinLines group ++ "\n" := by
  simp [bundleText,joinLines_append,String.append_assoc]

theorem bundleText_ne_empty (bundle : List (List String)) (group : List String) :
    (bundleText (bundle ++ [group])).isEmpty = false := by
  rw [bundleText_concat]
  refine Bool.eq_false_iff.mpr ?_
  intro empty
  have none := congrArg String.toList (String.isEmpty_iff.mp empty)
  simp at none

def finishPack (s : List String × String) : List String := if (trim s.2).isEmpty then s.1 else s.1 ++ [s.2]

theorem packParagraphs_eq (body : String) (maxChars : Nat) :
    packParagraphs body maxChars = finishPack ((paragraphs body).foldl (packLine maxChars) ([],"")) := by
  unfold packParagraphs finishPack
  generalize (paragraphs body).foldl (packLine maxChars) ([],"") = s
  cases s
  rfl

private theorem pack_bundles (maxChars : Nat) (groups : List (List String)) (done : List (List (List String)))
    (current : List (List String)) : ∃ (done' : List (List (List String)))
    (current' : List (List String)), done'.flatten ++ current' = done.flatten ++ current ++ groups ∧
      (groups.map joinLines).foldl (packLine maxChars) (done.map bundleText,bundleText current) =
        (done'.map bundleText,bundleText current') := by
  induction groups generalizing done current with
  | nil => exact ⟨done,current,by simp,rfl⟩
  | cons group groups ih =>
    rw [List.map_cons,List.foldl_cons,packLine]
    split
    next =>
      have fresh : joinLines group ++ "\n" = bundleText [group] := by simp [bundleText,joinLines_append]
      have more : done.map bundleText ++ [bundleText current] = (done ++ [current]).map bundleText := by simp
      obtain ⟨done',current',whole,folded⟩ := ih (done ++ [current]) [group]
      rw [fresh,more]
      exact ⟨done',current',by rw [whole]; simp,folded⟩
    next =>
      rw [← bundleText_concat]
      obtain ⟨done',current',whole,folded⟩ := ih done (current ++ [group])
      exact ⟨done',current',by rw [whole]; simp,folded⟩

theorem nonBlank_bundleText {bundle : List (List String)} {group : List String} (inside : group ∈ bundle)
    (some : NonBlank (joinLines group)) : NonBlank (bundleText bundle) := by
  obtain ⟨before,after,rfl⟩ := List.append_of_mem inside
  rw [bundleText,List.flatMap_append,List.flatMap_cons,joinLines_append,joinLines_append,joinLines_append]
  exact ((some.append_left _).append_left _).append_right _

theorem exists_bundles (grouping : Grouping body groups) (maxChars : Nat) :
    ∃ bundles : List (List (List String)), bundles.flatten = groups ∧
      packParagraphs body maxChars = bundles.map bundleText := by
  obtain ⟨done,current,whole,folded⟩ := pack_bundles maxChars groups [] []
  have start : bundleText [] = "" := rfl
  rw [List.flatten_nil,List.nil_append,List.nil_append] at whole
  rw [List.map_nil,start,← grouping.paragraphs] at folded
  rw [packParagraphs_eq,folded,finishPack]
  dsimp only
  split
  next blank =>
    have none : current = [] := by
      refine List.eq_nil_iff_forall_not_mem.mpr ?_
      intro group inside
      have listed : joinLines group ∈ paragraphs body := by
        rw [grouping.paragraphs]
        exact List.mem_map_of_mem (whole ▸ List.mem_append_right _ inside)
      have some := (nonBlank_iff _).mp (nonBlank_bundleText inside (paragraphs_nonBlank body _ listed))
      rw [blank] at some
      cases some
    exact ⟨done,by rw [← whole,none,List.append_nil],rfl⟩
  next => exact ⟨done ++ [current],by simpa using whole,by simp⟩

private theorem pack_alone (group : List String) (groups : List (List String))
    (some : ∀ group' ∈ group :: groups, NonBlank (joinLines group')) :
    finishPack ((groups.map joinLines).foldl (packLine 0) (out,bundleText [group])) =
      out ++ (group :: groups).map (fun group => bundleText [group]) := by
  induction groups generalizing group out with
  | nil =>
    have text := (nonBlank_iff _).mp
      (@nonBlank_bundleText [group] group List.mem_cons_self (some group List.mem_cons_self))
    rw [List.map_nil,List.foldl_nil,finishPack]
    dsimp only
    rw [text,if_neg (by decide)]
    rfl
  | cons next groups ih =>
    have full := bundleText_ne_empty [] group
    rw [List.nil_append] at full
    have long : 0 < (bundleText [group]).utf8ByteSize := by
      refine Nat.pos_of_ne_zero ?_
      intro zero
      rw [String.utf8ByteSize_eq_zero_iff.mp zero] at full
      cases full
    have fresh : joinLines next ++ "\n" = bundleText [next] := by simp [bundleText,joinLines_append]
    rw [List.map_cons,List.foldl_cons,packLine]
    rw [full,if_pos (by simpa using Nat.add_pos_left long _),fresh,
      ih next (fun group' inside => some group' (List.mem_cons_of_mem group inside)),List.append_assoc]
    rfl

theorem packParagraphs_zero (grouping : Grouping body groups) :
    packParagraphs body 0 = groups.map (fun group => bundleText [group]) := by
  have some : ∀ group ∈ groups, NonBlank (joinLines group) := by
    intro group inside
    refine paragraphs_nonBlank body _ ?_
    rw [grouping.paragraphs]
    exact List.mem_map_of_mem inside
  rw [packParagraphs_eq,grouping.paragraphs]
  cases groups with
  | nil => rfl
  | cons group groups =>
    have fresh : packLine 0 ([],"") (joinLines group) = ([],bundleText [group]) := by
      simp [packLine,bundleText,joinLines_append]
    rw [List.map_cons,List.foldl_cons,fresh,pack_alone group groups some,List.nil_append]

end

/-- The lines that are no headings, each with the titles it stands under. -/
def annotate (stack : List (Nat × String)) (inFence : Bool) : List String → List (List String × String)
  | [] => []
  | line :: rest =>
    if isFence line then (stack.map Prod.snd,line) :: annotate stack (!inFence) rest
    else
      match if inFence then none else headingOf line with
      | some (level,title) => annotate (openHeading stack level title) inFence rest
      | none => (stack.map Prod.snd,line) :: annotate stack inFence rest

structure SectionLines where
  path : List String
  lines : List String

def SectionLines.toSection (s : SectionLines) : Section := ⟨s.path,joinLines s.lines⟩

def SectionLines.annotated (s : SectionLines) : List (List String × String) := s.lines.map (fun line => (s.path,line))

section
variable {stack : List (Nat × String)} {line title : String} {level : Nat} {inFence : Bool}

theorem annotate_fence (fence : isFence line = true) (rest : List String) :
    annotate stack inFence (line :: rest) = (stack.map Prod.snd,line) :: annotate stack (!inFence) rest := by
  rw [annotate,if_pos fence]

theorem annotate_heading (plain : isFence line = false) (found : headingOf line = some (level,title))
    (rest : List String) :
    annotate stack false (line :: rest) = annotate (openHeading stack level title) false rest := by
  rw [annotate,if_neg (by simp [plain]),if_neg (by simp),found]

theorem annotate_text (plain : isFence line = false) (text : inFence = true ∨ headingOf line = none)
    (rest : List String) :
    annotate stack inFence (line :: rest) = (stack.map Prod.snd,line) :: annotate stack inFence rest := by
  have taken : (if inFence then none else headingOf line) = none := by
    rcases text with inside | none
    · rw [if_pos inside]
    · rw [none,ite_self]
  rw [annotate,if_neg (by simp [plain]),taken]

/-- The sections of lines, below open headings and after some lines of the current section. -/
structure Sectioned (sections : List Section) (lines : List (List String × String)) (parts : List SectionLines) :
    Prop where
  sections : sections = parts.map SectionLines.toSection
  kept : (parts.flatMap SectionLines.annotated).filter (fun item => nonBlank item.2) =
    lines.filter (fun item => nonBlank item.2)
  among : ∀ part ∈ parts, ∀ line ∈ part.lines, line ∈ lines.map Prod.snd
  fences : ∃ front last, parts = front ++ last ∧ (∀ part ∈ front, Even (part.lines.countP isFence)) ∧ last.length ≤ 1

theorem filter_annotated (path held : List String) :
    (held.map (fun line => (path,line))).filter (fun item => nonBlank item.2) =
      (held.filter nonBlank).map (fun line => (path,line)) := by
  induction held with
  | nil => rfl
  | cons line held ih =>
    rw [List.map_cons,List.filter_cons,List.filter_cons,ih]
    dsimp only
    split <;> rfl

private theorem closeSection_lines (path held : List String) : ∃ parts : List SectionLines,
    closeSection ⟨path,joinLines held⟩ = parts.map SectionLines.toSection ∧ parts.length ≤ 1 ∧
      (∀ part ∈ parts, part = ⟨path,held⟩) ∧
      (parts.flatMap SectionLines.annotated).filter (fun item => nonBlank item.2) =
        (held.map (fun line => (path,line))).filter (fun item => nonBlank item.2) := by
  unfold closeSection
  split
  next => exact ⟨[⟨path,held⟩],rfl,le_rfl,by simp,by simp [SectionLines.annotated]⟩
  next none =>
    refine ⟨[],rfl,Nat.zero_le _,nofun,?_⟩
    have blank : nonBlank (joinLines held) = false := by
      rw [Bool.or_eq_true,not_or] at none
      exact Bool.eq_false_iff.mpr none.1
    rw [filter_annotated,filter_blank_lines blank]
    rfl

theorem exists_sectioned (lines : List String) (stack : List (Nat × String)) (held : List String) (inFence : Bool)
    (parity : inFence = false → Even (held.countP isFence)) (odd : inFence = true → ¬Even (held.countP isFence)) :
    ∃ parts, Sectioned (lines.foldl splitLine ⟨[],stack,⟨stack.map Prod.snd,joinLines held⟩,inFence⟩).close
      (held.map (fun line => (stack.map Prod.snd,line)) ++ annotate stack inFence lines) parts := by
  induction lines generalizing stack held inFence with
  | nil =>
    obtain ⟨parts,closed,few,own,kept⟩ := closeSection_lines (stack.map Prod.snd) held
    refine ⟨parts,?_,?_,?_,[],parts,rfl,by simp,few⟩
    · rw [List.foldl_nil,close_eq,List.nil_append,closed]
    · rw [kept,annotate,List.append_nil]
    · intro part inside line listed
      rw [own part inside] at listed
      rw [annotate,List.append_nil,List.map_map]
      exact List.mem_map.mpr ⟨line,listed,rfl⟩
  | cons line lines ih =>
    have more (rest : List (List String × String)) : held.map (fun line => (stack.map Prod.snd,line)) ++
        (stack.map Prod.snd,line) :: rest = (held ++ [line]).map (fun line => (stack.map Prod.snd,line)) ++ rest := by
      simp
    have count : (held ++ [line]).countP isFence = held.countP isFence + if isFence line then 1 else 0 := by
      rw [List.countP_append,List.countP_singleton]
    rcases line_cases inFence line with fence | ⟨plain,rfl,level,title,found⟩ | ⟨plain,text⟩
    · rw [fence,if_pos rfl] at count
      rw [List.foldl_cons,splitLine_fence fence,annotate_fence fence,more]
      simp only [SplitState.push]
      rw [← joinLines_concat]
      refine ih stack (held ++ [line]) (!inFence) ?_ ?_
      · intro outside
        rw [count,Nat.even_add_one]
        exact odd (by simpa using outside)
      · intro inside
        rw [count,Nat.even_add_one,not_not]
        exact parity (by simpa using inside)
    · obtain ⟨later,⟨sections,kept,among,front,last,cut,even,few⟩⟩ :=
        ih (openHeading stack level title) [] false (fun _ => by simp) (by simp)
      obtain ⟨parts,closed,_,own,here⟩ := closeSection_lines (stack.map Prod.snd) held
      rw [List.map_nil,List.nil_append] at kept among
      rw [joinLines_nil] at sections
      rw [List.foldl_cons,splitLine_heading plain rfl found,close_foldl,close_eq,annotate_heading plain found]
      refine ⟨parts ++ later,?_,?_,?_,parts ++ front,last,?_,?_,few⟩
      · dsimp only
        rw [List.map_append,← closed,← sections,List.nil_append]
      · rw [List.flatMap_append,List.filter_append,List.filter_append,here,kept]
      · intro part inside other listed
        rw [List.map_append,List.mem_append]
        rcases List.mem_append.mp inside with closing | after
        · rw [own part closing] at listed
          rw [List.map_map]
          exact Or.inl (List.mem_map.mpr ⟨other,listed,rfl⟩)
        · exact Or.inr (among part after other listed)
      · rw [cut,List.append_assoc]
      · intro part inside
        rcases List.mem_append.mp inside with closing | after
        · rw [own part closing]
          exact parity rfl
        · exact even part after
    · rw [plain,if_neg (by decide),Nat.add_zero] at count
      rw [List.foldl_cons,splitLine_text plain text,annotate_text plain text,more]
      simp only [SplitState.push]
      rw [← joinLines_concat]
      exact ih stack (held ++ [line]) inFence (fun outside => by rw [count]; exact parity outside)
        (fun inside => by rw [count]; exact odd inside)

end

end Chunk
end Ecphoria
