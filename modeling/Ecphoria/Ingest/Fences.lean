import Ecphoria.Ingest.Paragraphs

/-! Fenced code blocks. A fence is closed by a marker of its character that is at least
as long; the chunker takes every second marker for a closing one. -/
namespace Ecphoria
namespace Chunk

abbrev Marker := Char × Nat

def markerOf (row : List Char) : Option Marker :=
  match row.dropWhile isWhitespace with
  | [] => none
  | c :: rest =>
    let run := (rest.takeWhile (· = c)).length + 1
    if (c = '`' || c = '~') && 3 ≤ run then some (c,run) else none

def marker (line : String) : Option Marker := markerOf line.toList

def Closes (closing opening : Marker) : Prop := closing.1 = opening.1 ∧ opening.2 ≤ closing.2

instance (closing opening : Marker) : Decidable (Closes closing opening) := inferInstanceAs (Decidable (_ ∧ _))

def fenceStep : Option Marker → Marker → Option Marker
  | none,m => some m
  | some opening,m => if Closes m opening then none else some opening

def openFence (lines : List String) : Option Marker := (lines.filterMap marker).foldl fenceStep none

def Balanced (text : String) : Prop := openFence (lines text) = none

/-- Every second marker closes the one before it. -/
inductive Paired : List Marker → Prop
  | empty : Paired []
  | pair {opening closing rest} (closes : Closes closing opening) (later : Paired rest) :
      Paired (opening :: closing :: rest)

/-- The text of a chunk without the trail in front. -/
def body (chunk : Chunk) : String :=
  if (trail chunk.headingPath).isEmpty then chunk.text
  else String.ofList (chunk.text.toList.drop ((trail chunk.headingPath).length + 2))

/-- No fence is cut: what the text is packed or chunked into is balanced, with the trail too where that is no fence
line itself, and no line inside a fence is taken for a heading. -/
structure FencesKept (markdown : String) : Prop where
  packed : ∀ maxChars, ∀ part ∈ packParagraphs markdown maxChars, Balanced part
  bodies : ∀ opts, ∀ chunk ∈ chunkMarkdown markdown opts, Balanced chunk.1.body
  texts : ∀ opts, ∀ chunk ∈ chunkMarkdown markdown opts, openFence (lines (trail chunk.1.headingPath)) = none →
    Balanced chunk.1.text
  titles : ∀ before line after, lines markdown = before ++ line :: after → openFence before ≠ none →
    headings (fenceAfter false before) [line] = []

section
variable {row blank : List Char} {text : String}

theorem markerOf_blank_append (spaces : IsBlank blank) (row : List Char) : markerOf (blank ++ row) = markerOf row := by
  rw [markerOf,List.dropWhile_append_of_pos spaces]
  rfl

theorem markerOf_append_blank (spaces : IsBlank blank) (row : List Char) : markerOf (row ++ blank) = markerOf row := by
  rw [markerOf,markerOf]
  by_cases none : IsBlank row
  · have both : (row ++ blank).dropWhile isWhitespace = [] := by
      rw [List.dropWhile_append_of_pos none,List.dropWhile_eq_nil_iff]
      exact spaces
    rw [both,List.dropWhile_eq_nil_iff.mpr none]
  · have some : row.dropWhile isWhitespace ≠ [] := fun given => none (List.dropWhile_eq_nil_iff.mp given)
    obtain ⟨c,rest,cut⟩ := List.exists_cons_of_ne_nil some
    have both : (row ++ blank).dropWhile isWhitespace = c :: (rest ++ blank) := by
      rw [List.dropWhile_append,cut]
      rfl
    rw [both,cut]
    dsimp only
    by_cases fence : c = '`' ∨ c = '~'
    · have apart : ∀ d ∈ blank, d ≠ c := by
        intro d inside same
        have white := spaces d inside
        rw [same] at white
        rcases fence with rfl | rfl <;> cases white
      have run : (rest ++ blank).takeWhile (· = c) = rest.takeWhile (· = c) := by
        rw [List.takeWhile_append]
        split
        next =>
          have stop : blank.takeWhile (fun d => decide (d = c)) = [] := by
            cases blank with
            | nil => rfl
            | cons d others =>
              rw [List.takeWhile_cons,if_neg]
              simpa using apart d List.mem_cons_self
          rw [stop,List.append_nil]
          exact (List.takeWhile_prefix _).eq_of_length (by assumption) |>.symm
        next => rfl
      rw [run]
    · have plain : (decide (c = '`') || decide (c = '~')) = false := by simpa using fence
      rw [plain]
      rfl

theorem isPrefixOf_run (c : Char) (rest : List Char) :
    [c,c,c].isPrefixOf (c :: rest) = decide (3 ≤ (rest.takeWhile (· = c)).length + 1) := by
  cases rest with
  | nil => simp
  | cons d rest =>
    cases rest with
    | nil =>
      by_cases same : d = c <;> simp [List.isPrefixOf,same]
    | cons e rest =>
      by_cases first : d = c
      · by_cases second : e = c
        · simp [first,second]
        · simp [List.isPrefixOf,first,second,Ne.symm second]
      · simp [List.isPrefixOf,first,Ne.symm first]

theorem isFence_marker (line : String) : isFence line = (marker line).isSome := by
  rw [isFence,marker,markerOf,trimStart]
  simp only [String.toList_ofList]
  cases line.toList.dropWhile isWhitespace with
  | nil => rfl
  | cons c rest =>
    have ticks : "```".toList = ['`','`','`'] := rfl
    have tildes : "~~~".toList = ['~','~','~'] := rfl
    rw [ticks,tildes]
    dsimp only
    by_cases tick : c = '`'
    · rw [tick,isPrefixOf_run]
      by_cases long : 3 ≤ (rest.takeWhile (· = '`')).length + 1 <;> simp [List.isPrefixOf,long]
    · by_cases tilde : c = '~'
      · rw [tilde,isPrefixOf_run]
        by_cases long : 3 ≤ (rest.takeWhile (· = '~')).length + 1 <;> simp [List.isPrefixOf,long]
      · simp [List.isPrefixOf,tick,tilde,Ne.symm tick,Ne.symm tilde]

theorem marker_lines (text : String) : (lines text).filterMap marker = readRows markerOf text :=
  filterMap_lines (fun row => markerOf_append_blank (by simp [IsBlank,isWhitespace]) row) rfl text

theorem marker_trim (text : String) : readRows markerOf (trim text) = readRows markerOf text :=
  readRows_trim (fun _ row spaces => markerOf_blank_append spaces row)
    (fun _ row spaces => markerOf_append_blank spaces row) rfl text

end

section
variable {a b : List Marker} {opening closing : Marker}

theorem foldl_fenceStep_append (closed : a.foldl fenceStep none = none) (b : List Marker) :
    (a ++ b).foldl fenceStep none = b.foldl fenceStep none := by
  rw [List.foldl_append,closed]

theorem even_two_more (n : Nat) : Even (n + 2) ↔ Even n := by
  rw [Nat.even_add_one,Nat.even_add_one,not_not]

theorem not_paired_singleton (opening : Marker) : ¬Paired [opening] := nofun

theorem paired_cons_cons : Paired (opening :: closing :: a) ↔ Closes closing opening ∧ Paired a := by
  constructor
  · rintro (_ | ⟨closes,later⟩)
    exact ⟨closes,later⟩
  · exact fun given => .pair given.1 given.2

theorem fenceStep_pair : [opening,closing].foldl fenceStep none = none ↔ Closes closing opening := by
  simp only [List.foldl_cons,List.foldl_nil,fenceStep]
  split <;> simp [*]

/-- Up to an even place every fence of paired markers is closed, and up to an odd one the last is open. -/
theorem Paired.foldl_take {markers : List Marker} (paired : Paired markers) (n : Nat) (inside : n ≤ markers.length) :
    (markers.take n).foldl fenceStep none = none ↔ Even n := by
  induction paired generalizing n with
  | empty =>
    have zero : n = 0 := by simpa using inside
    simp [zero]
  | @pair opening closing rest closes _ ih =>
    match n with
    | 0 => simp
    | 1 => simp [fenceStep]
    | n + 2 =>
      rw [List.take_succ_cons,List.take_succ_cons]
      have step := foldl_fenceStep_append (fenceStep_pair.mpr closes) (rest.take n)
      rw [List.cons_append,List.cons_append,List.nil_append] at step
      rw [step,ih n (by simpa using inside),even_two_more]

theorem Paired.even {markers : List Marker} (paired : Paired markers) : Even markers.length := by
  induction paired with
  | empty => simp
  | @pair opening closing rest _ _ ih => exact (even_two_more rest.length).mpr ih

theorem Paired.closed {markers : List Marker} (paired : Paired markers) : markers.foldl fenceStep none = none := by
  have whole := (paired.foldl_take markers.length le_rfl).mpr paired.even
  rwa [List.take_length] at whole

theorem paired_append (even : Even a.length) : Paired (a ++ b) ↔ Paired a ∧ Paired b := by
  induction size : a.length using Nat.strong_induction_on generalizing a with
  | h n ih =>
    match a with
    | [] => exact (and_iff_right Paired.empty).symm
    | [_] => simp at even
    | opening :: closing :: rest =>
      have shorter : rest.length < n := by
        rw [← size,List.length_cons,List.length_cons]
        omega
      rw [List.cons_append,List.cons_append,paired_cons_cons,paired_cons_cons,and_assoc,
        ih rest.length shorter ((even_two_more rest.length).mp even) rfl]

/-- Markers in groups of two, with one left over or none, are paired exactly when each group is closed. -/
theorem paired_flatten {groups : List (List Marker)} (last : List Marker)
    (pairs : ∀ group ∈ groups, group = [] ∨ ∃ opening closing, group = [opening,closing])
    (few : last = [] ∨ ∃ opening, last = [opening]) : Paired (groups.flatten ++ last) ↔
      (∀ group ∈ groups, group.foldl fenceStep none = none) ∧ last.foldl fenceStep none = none := by
  induction groups with
  | nil =>
    rcases few with rfl | ⟨opening,rfl⟩
    · simp [Paired.empty]
    · simp [not_paired_singleton,fenceStep]
  | cons group groups ih =>
    have rest := ih (fun other inside => pairs other (List.mem_cons_of_mem group inside))
    rw [List.flatten_cons,List.append_assoc,List.forall_mem_cons,and_assoc]
    rcases pairs group List.mem_cons_self with rfl | ⟨opening,closing,rfl⟩
    · rw [List.nil_append,rest]
      simp
    · rw [List.cons_append,List.cons_append,List.nil_append,paired_cons_cons,rest,fenceStep_pair]

end

section
variable {body : String} {groups : List (List String)} {lines : List String}

theorem balanced_iff (text : String) : Balanced text ↔ (readRows markerOf text).foldl fenceStep none = none := by
  rw [Balanced,openFence,marker_lines]

theorem readRows_marker_joinLines (plain : ∀ line ∈ lines, '\n' ∉ line.toList) :
    readRows markerOf (joinLines lines) = lines.filterMap marker := readRows_joinLines plain rfl

theorem length_markers (lines : List String) : (lines.filterMap marker).length = lines.countP isFence := by
  rw [List.length_filterMap_eq_countP]
  exact List.countP_congr (fun line _ => by rw [isFence_marker])

theorem marker_blank {line : String} (blank : nonBlank line = false) : marker line = none := by
  have fence : isFence line = false := by
    by_contra found
    have some := (nonBlank_iff_chars line).mpr (isFence_nonBlank (by simpa using found))
    rw [blank] at some
    cases some
  rw [isFence_marker] at fence
  exact Option.not_isSome_iff_eq_none.mp (by rw [fence]; decide)

theorem filterMap_nonBlank (lines : List String) : (lines.filter nonBlank).filterMap marker = lines.filterMap marker := by
  induction lines with
  | nil => rfl
  | cons line lines ih =>
    rw [List.filter_cons,List.filterMap_cons]
    split
    next => rw [List.filterMap_cons,ih]
    next blank => rw [ih,marker_blank (Bool.eq_false_iff.mpr blank)]

theorem paired_grouping (grouping : Grouping body groups) : Paired (readRows markerOf body) ↔
    ∀ group ∈ groups, (group.filterMap marker).foldl fenceStep none = none := by
  obtain ⟨front,last,rfl,pairs,few⟩ := grouping.fences
  have whole : readRows markerOf body = (front.map (List.filterMap marker)).flatten ++
      (last.map (List.filterMap marker)).flatten := by
    rw [← marker_lines,← filterMap_nonBlank,← grouping.kept,filterMap_nonBlank,List.flatten_append,List.filterMap_append,
      List.filterMap_flatten,List.filterMap_flatten]
  have two : ∀ group ∈ front.map (List.filterMap marker), group = [] ∨ ∃ opening closing, group = [opening,closing] := by
    intro markers inside
    obtain ⟨group,listed,rfl⟩ := List.mem_map.mp inside
    rcases pairs group listed with none | two
    · exact Or.inl (List.length_eq_zero_iff.mp (by rw [length_markers,none]))
    · exact Or.inr (List.length_eq_two.mp (by rw [length_markers,two]))
  have one : (last.map (List.filterMap marker)).flatten = [] ∨
      ∃ opening, (last.map (List.filterMap marker)).flatten = [opening] := by
    rcases few with rfl | ⟨group,rfl,single⟩
    · exact Or.inl rfl
    · refine Or.inr ?_
      rw [List.map_singleton,List.flatten_singleton]
      exact List.length_eq_one_iff.mp (by rw [length_markers,single])
  rw [whole,paired_flatten _ two one,List.forall_mem_append,List.forall_mem_map]
  rcases few with rfl | ⟨group,rfl,_⟩ <;> simp

theorem readRows_bundleText {bundle : List (List String)} (plain : ∀ group ∈ bundle, ∀ line ∈ group, '\n' ∉ line.toList) :
    readRows markerOf (bundleText bundle) = bundle.flatMap (List.filterMap marker) := by
  have each : ∀ line ∈ bundle.flatMap (fun group => group ++ [""]), '\n' ∉ line.toList := by
    intro line inside
    obtain ⟨group,listed,among⟩ := List.mem_flatMap.mp inside
    rcases List.mem_append.mp among with own | empty
    · exact plain group listed line own
    · rw [List.mem_singleton.mp empty]
      exact List.not_mem_nil
  rw [bundleText,readRows_marker_joinLines each]
  induction bundle with
  | nil => rfl
  | cons group bundle ih =>
    rw [List.flatMap_cons,List.flatMap_cons,List.filterMap_append,List.filterMap_append]
    rw [ih (fun other inside => plain other (List.mem_cons_of_mem group inside))
      (fun line inside => each line (by rw [List.flatMap_cons]; exact List.mem_append_right _ inside))]
    simp [marker,markerOf]

theorem plain_grouping (grouping : Grouping body groups) : ∀ group ∈ groups, ∀ line ∈ group, '\n' ∉ line.toList :=
  fun group inside line listed =>
    newline_not_mem_lines (grouping.among line (List.mem_flatten.mpr ⟨group,inside,listed⟩))

theorem foldl_flatMap_closed {items : List (List String)}
    (closed : ∀ item ∈ items, (item.filterMap marker).foldl fenceStep none = none) :
    (items.flatMap (List.filterMap marker)).foldl fenceStep none = none := by
  induction items with
  | nil => rfl
  | cons item items ih =>
    rw [List.flatMap_cons,foldl_fenceStep_append (closed item List.mem_cons_self)]
    exact ih (fun other inside => closed other (List.mem_cons_of_mem item inside))

theorem pack_balanced (paired : Paired (readRows markerOf body)) (maxChars : Nat) :
    ∀ part ∈ packParagraphs body maxChars, Balanced part := by
  obtain ⟨groups,grouping⟩ := exists_grouping body
  obtain ⟨bundles,whole,packed⟩ := exists_bundles grouping maxChars
  have closed := (paired_grouping grouping).mp paired
  have plain := plain_grouping grouping
  intro part inside
  rw [packed] at inside
  obtain ⟨bundle,listed,rfl⟩ := List.mem_map.mp inside
  have own : ∀ group ∈ bundle, group ∈ groups := fun group among =>
    whole ▸ List.mem_flatten.mpr ⟨bundle,listed,among⟩
  rw [balanced_iff,readRows_bundleText (fun group among => plain group (own group among))]
  exact foldl_flatMap_closed (fun group among => closed group (own group among))

theorem paired_of_packed (packed : ∀ part ∈ packParagraphs body 0, Balanced part) : Paired (readRows markerOf body) := by
  obtain ⟨groups,grouping⟩ := exists_grouping body
  refine (paired_grouping grouping).mpr ?_
  intro group inside
  have part : bundleText [group] ∈ packParagraphs body 0 := by
    rw [packParagraphs_zero grouping]
    exact List.mem_map_of_mem inside
  have alone := (balanced_iff _).mp (packed _ part)
  rw [readRows_bundleText (fun other listed => plain_grouping grouping other (List.mem_singleton.mp listed ▸ inside)),
    List.flatMap_singleton] at alone
  exact alone

end

section
variable {markdown : String} {opts : ChunkOptions}

theorem annotate_markers (lines : List String) (stack : List (Nat × String)) (inFence : Bool) :
    ((annotate stack inFence lines).map Prod.snd).filterMap marker = lines.filterMap marker := by
  induction lines generalizing stack inFence with
  | nil => rfl
  | cons line lines ih =>
    rcases line_cases inFence line with fence | ⟨plain,rfl,level,title,found⟩ | ⟨plain,text⟩
    · rw [annotate_fence fence,List.map_cons,List.filterMap_cons,List.filterMap_cons,ih]
    · have none : marker line = none := by
        rw [isFence_marker] at plain
        exact Option.not_isSome_iff_eq_none.mp (by rw [plain]; decide)
      rw [annotate_heading plain found,ih,List.filterMap_cons,none]
    · rw [annotate_text plain text,List.map_cons,List.filterMap_cons,List.filterMap_cons,ih]

theorem mem_annotate {lines : List String} {stack : List (Nat × String)} {inFence : Bool} {line : String}
    (inside : line ∈ (annotate stack inFence lines).map Prod.snd) : line ∈ lines := by
  induction lines generalizing stack inFence with
  | nil => exact absurd inside List.not_mem_nil
  | cons first lines ih =>
    rcases line_cases inFence first with fence | ⟨plain,rfl,level,title,found⟩ | ⟨plain,text⟩
    · rw [annotate_fence fence,List.map_cons] at inside
      rcases List.mem_cons.mp inside with rfl | later
      · exact List.mem_cons_self
      · exact List.mem_cons_of_mem _ (ih later)
    · rw [annotate_heading plain found] at inside
      exact List.mem_cons_of_mem _ (ih inside)
    · rw [annotate_text plain text,List.map_cons] at inside
      rcases List.mem_cons.mp inside with rfl | later
      · exact List.mem_cons_self
      · exact List.mem_cons_of_mem _ (ih later)

theorem sectioned_document (markdown : String) :
    ∃ parts, Sectioned (splitSections markdown) (annotate [] false (lines markdown)) parts := by
  obtain ⟨parts,sectioned⟩ := exists_sectioned (lines markdown) [] [] false (fun _ => by simp) nofun
  simp only [List.map_nil,List.nil_append,joinLines_nil] at sectioned
  exact ⟨parts,sectioned⟩

theorem paired_parts {front last : List SectionLines}
    (even : ∀ part ∈ front, Even (part.lines.countP isFence)) (few : last.length ≤ 1)
    (paired : Paired ((front ++ last).flatMap (fun part => part.lines.filterMap marker))) :
    ∀ part ∈ front ++ last, Paired (part.lines.filterMap marker) := by
  induction front with
  | nil =>
    intro part inside
    match last,few with
    | [only],_ =>
      rw [List.mem_singleton.mp inside]
      simpa using paired
  | cons first front ih =>
    rw [List.cons_append,List.flatMap_cons] at paired
    have parity := even first List.mem_cons_self
    rw [← length_markers] at parity
    obtain ⟨here,rest⟩ := (paired_append parity).mp paired
    intro part inside
    rcases List.mem_cons.mp inside with rfl | later
    · exact here
    · exact ih (fun other listed => even other (List.mem_cons_of_mem first listed)) rest part later

theorem paired_sections (paired : Paired ((lines markdown).filterMap marker)) :
    ∀ s ∈ splitSections markdown, Paired (readRows markerOf s.body) := by
  obtain ⟨parts,sectioned⟩ := sectioned_document markdown
  obtain ⟨front,last,cut,even,few⟩ := sectioned.fences
  have each : ∀ part ∈ parts, readRows markerOf (joinLines part.lines) = part.lines.filterMap marker := by
    intro part inside
    refine readRows_marker_joinLines ?_
    intro line listed
    exact newline_not_mem_lines (mem_annotate (sectioned.among part inside line listed))
  have texts : ∀ items : List (List String × String), (items.filter (fun item => nonBlank item.2)).map Prod.snd =
      (items.map Prod.snd).filter nonBlank := by
    intro items
    induction items with
    | nil => rfl
    | cons item items ih =>
      rw [List.map_cons,List.filter_cons,List.filter_cons,← ih]
      split <;> rfl
  have whole : parts.flatMap (fun part => part.lines.filterMap marker) = (lines markdown).filterMap marker := by
    have kept := congrArg (fun items => (items.map Prod.snd).filterMap marker) sectioned.kept
    rw [texts,texts,filterMap_nonBlank,filterMap_nonBlank,annotate_markers] at kept
    rw [← kept,List.map_flatMap,List.filterMap_flatMap]
    simp [SectionLines.annotated]
  rw [← whole,cut] at paired
  have all := paired_parts even few paired
  intro s inside
  rw [sectioned.sections] at inside
  obtain ⟨part,listed,rfl⟩ := List.mem_map.mp inside
  rw [SectionLines.toSection,each part listed]
  exact all part (cut ▸ listed)

theorem body_chunk (piece : Piece) (ordinal : Nat) : (piece.chunk ordinal).1.body = trim piece.part := by
  unfold body Piece.chunk partText
  dsimp only
  split
  next none => rfl
  next some =>
    apply String.toList_inj.mp
    have front : (trail piece.holder.headingPath ++ "\n\n").toList.length =
    (trail piece.holder.headingPath).length + 2 := by
      rw [String.toList_append,List.length_append,String.length_toList]
      rfl
    rw [String.toList_ofList,String.toList_append,← front,List.drop_left]

theorem sectionParts_cases (opts : ChunkOptions) (s : Section) : sectionParts opts s = [] ∨
    sectionParts opts s = [trim s.body] ∨ sectionParts opts s = packParagraphs (trim s.body) opts.targetChars := by
  rw [sectionParts]
  by_cases empty : (trim s.body).isEmpty = true
  · exact Or.inl (if_pos empty)
  · by_cases small : (trail s.headingPath).utf8ByteSize + (trim s.body).utf8ByteSize ≤ opts.maxChars
    · exact Or.inr (Or.inl ((if_neg empty).trans (if_pos small)))
    · exact Or.inr (Or.inr ((if_neg empty).trans (if_neg small)))

theorem sectionParts_balanced {s : Section} (paired : Paired (readRows markerOf s.body)) :
    ∀ part ∈ sectionParts opts s, Balanced (trim part) := by
  intro part inside
  rw [balanced_iff,marker_trim]
  rw [← marker_trim] at paired
  rcases sectionParts_cases opts s with none | one | pack
  · rw [none] at inside
    cases inside
  · rw [one] at inside
    rw [List.mem_singleton.mp inside]
    exact paired.closed
  · rw [pack] at inside
    exact (balanced_iff part).mp (pack_balanced paired opts.targetChars part inside)

theorem exists_piece {chunk : Chunk × Nat} (inside : chunk ∈ chunkMarkdown markdown opts) :
    ∃ (piece : Piece) (ordinal : Nat), chunk = piece.chunk ordinal ∧ piece.holder ∈ splitSections markdown ∧
    piece.part ∈ sectionParts opts piece.holder := by
  rw [chunkMarkdown_pieces] at inside
  obtain ⟨⟨piece,ordinal⟩,listed,rfl⟩ := List.mem_map.mp inside
  obtain ⟨s,among,cut⟩ := List.mem_flatMap.mp (List.fst_mem_of_mem_zipIdx listed)
  obtain ⟨⟨part,index⟩,there,rfl⟩ := List.mem_map.mp cut
  exact ⟨⟨s,part,index⟩,ordinal,rfl,among,List.fst_mem_of_mem_zipIdx there⟩

theorem FencesKept.paired (kept : FencesKept markdown) : Paired ((lines markdown).filterMap marker) := by
  rw [marker_lines]
  exact paired_of_packed (kept.packed 0)

theorem Paired.kept (paired : Paired ((lines markdown).filterMap marker)) : FencesKept markdown := by
  refine ⟨?_,?_,?_,?_⟩
  · rw [marker_lines] at paired
    exact pack_balanced paired
  · intro opts chunk inside
    obtain ⟨piece,ordinal,rfl,holder,part⟩ := exists_piece inside
    rw [body_chunk]
    exact sectionParts_balanced (paired_sections paired _ holder) _ part
  · intro opts chunk inside plain
    obtain ⟨piece,ordinal,rfl,holder,part⟩ := exists_piece inside
    have balanced := (balanced_iff _).mp (sectionParts_balanced (paired_sections paired _ holder) _ part)
    have first : (readRows markerOf (trail piece.holder.headingPath)).foldl fenceStep none = none :=
      (balanced_iff _).mp plain
    rw [balanced_iff]
    unfold Piece.chunk partText
    dsimp only
    split
    next => exact balanced
    next =>
      have split : trail piece.holder.headingPath ++ "\n\n" ++ trim piece.part =
          trail piece.holder.headingPath ++ "\n" ++ "" ++ "\n" ++ trim piece.part := by
        apply String.toList_inj.mp
        simp
      have none : readRows markerOf "" = [] := rfl
      rw [split,readRows_newline,readRows_newline,none,List.append_nil,foldl_fenceStep_append first]
      exact balanced
  · intro before line after whole inside
    rw [whole,List.filterMap_append] at paired
    have state := paired.foldl_take (before.filterMap marker).length (by simp)
    rw [List.take_left' rfl,length_markers] at state
    rw [fenceAfter_even,if_neg (fun even => inside (state.mpr even))]
    unfold headings
    split <;> rfl

/-- No fence of a document is cut, for any limits, exactly when every second marker closes the one before it. -/
theorem fences_kept_iff (markdown : String) : FencesKept markdown ↔ Paired ((lines markdown).filterMap marker) :=
  ⟨FencesKept.paired,Paired.kept⟩

def nestedFences : String := "````\n```\n# x\n```\n````"

theorem nestedFences_markers : (lines nestedFences).filterMap marker = [('`',4),('`',3),('`',3),('`',4)] := by decide

theorem nested_fence_cut : ¬∀ markdown, Balanced markdown → FencesKept markdown := by
  intro kept
  have balanced : Balanced nestedFences := by
    rw [Balanced,openFence,nestedFences_markers]
    decide
  have paired := (kept nestedFences balanced).paired
  rw [nestedFences_markers] at paired
  exact absurd (paired_cons_cons.mp paired).1.2 (by decide)

end

end Chunk
end Ecphoria
