import Ecphoria.Data
import Mathlib.Data.List.TakeWhile

/-! Structure-aware Markdown chunking: a document is cut at its headings, outside
fenced code, and an oversized section is packed by paragraph. -/
namespace Ecphoria

structure Chunk where
  headingPath : List String
  text : String
  ordinal : Nat
deriving DecidableEq,Repr

structure ChunkOptions where
  targetChars : Nat
  maxChars : Nat

namespace Chunk

def trail (headingPath : List String) : String := String.intercalate " > " headingPath

def subject (chunk : Chunk) (docPath : String) (part : Nat) : String :=
  let path := trail chunk.headingPath
  let base :=
    if (trim path).isEmpty then
      if chunk.ordinal = 0 then docPath else docPath ++ "#§" ++ toString chunk.ordinal
    else docPath ++ "#" ++ path
  if 0 < part then base ++ "~" ++ toString part else base

def stripCarriage (line : List Char) : List Char :=
  if line.getLast? = some '\r' then line.dropLast else line

/-- `str::lines`: a line that ends in a newline also loses the carriage return before it. -/
def lines (text : String) : List String :=
  let parts := text.toList.splitOn '\n'
  let ended := parts.dropLast.map stripCarriage
  let last := parts.getLastD []
  (if last.isEmpty then ended else ended ++ [last]).map String.ofList

def headingOf (line : String) : Option (Nat × String) :=
  let trimmed := (trimStart line).toList
  let level := (trimmed.takeWhile (· = '#')).length
  let rest := trimmed.drop level
  if level < 1 || 6 < level then none
  else if rest.head? ≠ some ' ' then none
  else
    let title := (trim (String.ofList rest)).toList
    some (level,trim (String.ofList (title.reverse.dropWhile (· = '#')).reverse))

def isFence (line : String) : Bool :=
  let t := (trimStart line).toList
  "```".toList.isPrefixOf t || "~~~".toList.isPrefixOf t

structure Section where
  headingPath : List String
  body : String

structure SplitState where
  sections : List Section
  stack : List (Nat × String)
  current : Section
  inFence : Bool

def SplitState.push (s : SplitState) (line : String) : SplitState :=
  { s with current := { s.current with body := s.current.body ++ line ++ "\n" } }

def SplitState.close (s : SplitState) : List Section :=
  if !(trim s.current.body).isEmpty || !s.current.headingPath.isEmpty then s.sections ++ [s.current]
  else s.sections

def splitLine (s : SplitState) (line : String) : SplitState :=
  if isFence line then { s.push line with inFence := !s.inFence }
  else
    match s.inFence,headingOf line with
    | false,some (level,title) =>
      let stack := s.stack.filter (fun (l,_) => l < level) ++ [(level,title)]
      { sections := s.close
        stack := stack
        current := ⟨stack.map Prod.snd,""⟩
        inFence := s.inFence }
    | _,_ => s.push line

def splitSections (markdown : String) : List Section :=
  ((lines markdown).foldl splitLine ⟨[],[],⟨[],""⟩,false⟩).close

structure ParagraphState where
  paragraphs : List String
  buf : String
  inFence : Bool

def paragraphLine (s : ParagraphState) (line : String) : ParagraphState :=
  if isFence line then
    let buf := s.buf ++ line ++ "\n"
    -- a closing fence ends the paragraph
    if s.inFence then ⟨s.paragraphs ++ [buf],"",false⟩ else ⟨s.paragraphs,buf,true⟩
  else if !s.inFence && (trim line).isEmpty then
    if (trim s.buf).isEmpty then { s with buf := "" } else ⟨s.paragraphs ++ [s.buf],"",s.inFence⟩
  else { s with buf := s.buf ++ line ++ "\n" }

def paragraphs (body : String) : List String :=
  let s := (lines body).foldl paragraphLine ⟨[],"",false⟩
  if (trim s.buf).isEmpty then s.paragraphs else s.paragraphs ++ [s.buf]

def packLine (maxChars : Nat) (s : List String × String) (p : String) : List String × String :=
  let (out,current) := s
  if !current.isEmpty && maxChars < current.utf8ByteSize + p.utf8ByteSize then (out ++ [current],p ++ "\n")
  else (out,current ++ p ++ "\n")

def packParagraphs (body : String) (maxChars : Nat) : List String :=
  let (out,current) := (paragraphs body).foldl (packLine maxChars) ([],"")
  if (trim current).isEmpty then out else out ++ [current]

def sectionParts (opts : ChunkOptions) (s : Section) : List String :=
  let body := trim s.body
  if body.isEmpty then []
  else if (trail s.headingPath).utf8ByteSize + body.utf8ByteSize ≤ opts.maxChars then [body]
  else packParagraphs body opts.targetChars

def partText (s : Section) (part : String) : String :=
  if (trail s.headingPath).isEmpty then trim part else trail s.headingPath ++ "\n\n" ++ trim part

/-- Add the parts of one section; ordinals count the chunks emitted so far. -/
def emitPart (s : Section) (out : List (Chunk × Nat)) (part : String × Nat) : List (Chunk × Nat) :=
  let text := partText s part.1
  if (trim text).isEmpty then out else out ++ [(⟨s.headingPath,text,out.length⟩,part.2)]

end Chunk

open Chunk in
def chunkMarkdown (markdown : String) (opts : ChunkOptions) : List (Chunk × Nat) :=
  (splitSections markdown).foldl
    (fun out s => (sectionParts opts s).zipIdx.foldl (emitPart s) out) []

def NonBlank (s : String) : Prop := ∃ c ∈ s.toList, isWhitespace c = false

theorem mem_dropWhile_of_false {α : Type} {p : α → Bool} {items : List α} {x : α} (inside : x ∈ items)
    (kept : p x = false) : x ∈ items.dropWhile p := by
  induction items with
  | nil => exact inside
  | cons item items ih =>
    rw [List.dropWhile_cons]
    split
    next dropped =>
      rcases List.mem_cons.mp inside with rfl | later
      · cases kept.symm.trans dropped
      · exact ih later
    next => exact inside

theorem NonBlank.trim {s : String} (some : NonBlank s) : NonBlank (Ecphoria.trim s) := by
  obtain ⟨c,inside,plain⟩ := some
  refine ⟨c,?_,plain⟩
  simp only [Ecphoria.trim,trimEnd,trimStart,String.toList_ofList,List.mem_reverse]
  refine mem_dropWhile_of_false ?_ plain
  rw [List.mem_reverse]
  exact mem_dropWhile_of_false inside plain

theorem nonBlank_iff (s : String) : NonBlank s ↔ (trim s).isEmpty = false := by
  constructor
  · intro some
    obtain ⟨c,inside,_⟩ := some.trim
    apply Bool.eq_false_iff.mpr
    intro empty
    rw [String.isEmpty_iff.mp empty] at inside
    simp at inside
  · intro some
    by_contra blank
    have spaces : ∀ c ∈ s.toList, isWhitespace c = true := by
      intro c inside
      by_contra plain
      exact blank ⟨c,inside,by simpa using plain⟩
    have none : trim s = "" := by
      rw [trim,trimStart,List.dropWhile_eq_nil_iff.mpr spaces]
      rfl
    rw [none] at some
    cases some

theorem NonBlank.append_left {a : String} (some : NonBlank a) (b : String) : NonBlank (a ++ b) := by
  obtain ⟨c,inside,plain⟩ := some
  exact ⟨c,by simp [inside],plain⟩

theorem NonBlank.append_right {b : String} (a : String) (some : NonBlank b) : NonBlank (a ++ b) := by
  obtain ⟨c,inside,plain⟩ := some
  exact ⟨c,by simp [inside],plain⟩

namespace Chunk

theorem isFence_nonBlank {line : String} (fence : isFence line = true) : NonBlank line := by
  have starts (c : Char) (plain : isWhitespace c = false) (rest : List Char)
      (leads : (c :: rest).isPrefixOf (trimStart line).toList = true) : NonBlank line := by
    obtain ⟨tail,parts⟩ := List.isPrefixOf_iff_prefix.mp leads
    refine ⟨c,?_,plain⟩
    have inside : c ∈ (trimStart line).toList := by
      rw [← parts]
      simp
    rw [trimStart,String.toList_ofList] at inside
    exact (List.dropWhile_sublist _).subset inside
  rcases (Bool.or_eq_true _ _).mp fence with ticks | tildes
  · exact starts '`' rfl _ ticks
  · exact starts '~' rfl _ tildes

theorem paragraphs_nonBlank (body : String) : ∀ p ∈ paragraphs body, NonBlank p := by
  have run (lines : List String) (s : ParagraphState) (init : ∀ p ∈ s.paragraphs, NonBlank p) :
      ∀ p ∈ (lines.foldl paragraphLine s).paragraphs, NonBlank p := by
    induction lines generalizing s with
    | nil => exact init
    | cons line lines ih =>
      apply ih
      unfold paragraphLine
      split
      next fence =>
        dsimp only
        split
        next =>
          intro p inside
          rcases List.mem_append.mp inside with old | new
          · exact init p old
          · rw [List.mem_singleton.mp new]
            exact ((isFence_nonBlank fence).append_right s.buf).append_left "\n"
        next => exact init
      next =>
        split
        next =>
          split
          next => exact init
          next some =>
            intro p inside
            rcases List.mem_append.mp inside with old | new
            · exact init p old
            · rw [List.mem_singleton.mp new]
              exact (nonBlank_iff _).mpr (by simpa using some)
        next => exact init
  intro p inside
  unfold paragraphs at inside
  dsimp only at inside
  have all := run (lines body) ⟨[],"",false⟩ (by simp)
  split at inside
  next => exact all p inside
  next some =>
    rcases List.mem_append.mp inside with old | new
    · exact all p old
    · rw [List.mem_singleton.mp new]
      exact (nonBlank_iff _).mpr (by simpa using some)

theorem packParagraphs_nonBlank (body : String) (maxChars : Nat) : ∀ p ∈ packParagraphs body maxChars, NonBlank p := by
  have run (items : List String) (s : List String × String) (each : ∀ p ∈ items, NonBlank p)
      (init : (∀ p ∈ s.1, NonBlank p) ∧ (s.2 = "" ∨ NonBlank s.2)) :
      (∀ p ∈ (items.foldl (packLine maxChars) s).1, NonBlank p) := by
    induction items generalizing s with
    | nil => exact init.1
    | cons item items ih =>
      have here := each item List.mem_cons_self
      refine ih _ (fun p inside => each p (List.mem_cons_of_mem item inside)) ?_
      unfold packLine
      dsimp only
      split
      next large =>
        have some : NonBlank s.2 := by
          rcases init.2 with empty | some
          · simp [empty] at large
          · exact some
        refine ⟨?_,Or.inr (here.append_left "\n")⟩
        intro p inside
        rcases List.mem_append.mp inside with old | new
        · exact init.1 p old
        · rw [List.mem_singleton.mp new]
          exact some
      next => exact ⟨init.1,Or.inr ((here.append_right s.2).append_left "\n")⟩
  intro p inside
  unfold packParagraphs at inside
  dsimp only at inside
  have all := run (paragraphs body) ([],"") (paragraphs_nonBlank body) ⟨by simp,Or.inl rfl⟩
  split at inside
  next => exact all p inside
  next some =>
    rcases List.mem_append.mp inside with old | new
    · exact all p old
    · rw [List.mem_singleton.mp new]
      exact (nonBlank_iff _).mpr (by simpa using some)

theorem sectionParts_nonBlank (opts : ChunkOptions) (s : Section) : ∀ part ∈ sectionParts opts s, NonBlank part := by
  intro part inside
  unfold sectionParts at inside
  dsimp only at inside
  split at inside
  next => cases inside
  next some =>
    split at inside
    next =>
      rw [List.mem_singleton.mp inside]
      exact ((nonBlank_iff _).mpr (by simpa using some)).trim
    next => exact packParagraphs_nonBlank _ _ part inside

/-- The chunk of a document that stands under no heading and before all others: its subject is the path itself. -/
def isLead (chunk : Chunk) : Bool := (trim (trail chunk.headingPath)).isEmpty && chunk.ordinal = 0

theorem emitPart_nonBlank {s : Section} {out : List (Chunk × Nat)} {part : String} {n : Nat}
    (some : NonBlank part) : emitPart s out (part,n) = out ++ [(⟨s.headingPath,partText s part,out.length⟩,n)] := by
  have text : NonBlank (partText s part) := by
    unfold partText
    split
    next => exact some.trim
    next => exact some.trim.append_right _
  rw [emitPart,if_neg]
  rw [(nonBlank_iff _).mp text]
  decide

private theorem emitParts_first (s : Section) (parts : List String) (n : Nat) (out : List (Chunk × Nat))
    (each : ∀ part ∈ parts, NonBlank part) (later : 0 < n → out ≠ [])
    (init : ∀ item ∈ out, item.1.ordinal = 0 → item.2 = 0) :
    ∀ item ∈ (parts.zipIdx n).foldl (emitPart s) out, item.1.ordinal = 0 → item.2 = 0 := by
  induction parts generalizing n out with
  | nil => exact init
  | cons part parts ih =>
    rw [List.zipIdx_cons,List.foldl_cons,emitPart_nonBlank (each part List.mem_cons_self)]
    refine ih (n + 1) _ (fun p listed => each p (List.mem_cons_of_mem part listed)) (by simp) ?_
    intro item listed zero
    rcases List.mem_append.mp listed with old | new
    · exact init item old zero
    · cases List.mem_singleton.mp new
      have none : out = [] := List.length_eq_zero_iff.mp zero
      exact Nat.eq_zero_of_not_pos (fun positive => later positive none)

private theorem emitSections_first (opts : ChunkOptions) (sections : List Section) (out : List (Chunk × Nat))
    (init : ∀ item ∈ out, item.1.ordinal = 0 → item.2 = 0) :
    ∀ item ∈ sections.foldl (fun out s => (sectionParts opts s).zipIdx.foldl (emitPart s) out) out,
      item.1.ordinal = 0 → item.2 = 0 := by
  induction sections generalizing out with
  | nil => exact init
  | cons s sections ih =>
    rw [List.foldl_cons]
    apply ih
    exact emitParts_first s (sectionParts opts s) 0 out (sectionParts_nonBlank opts s) (by simp) init

/-- Every part of a section becomes a chunk, so the first chunk of a document is the first part of its section. -/
theorem part_of_first {markdown : String} {opts : ChunkOptions} {chunk : Chunk × Nat}
    (inside : chunk ∈ chunkMarkdown markdown opts) (first : chunk.1.ordinal = 0) : chunk.2 = 0 := by
  unfold chunkMarkdown at inside
  exact emitSections_first opts (splitSections markdown) [] (by simp) chunk inside first

theorem subject_lead {markdown : String} {opts : ChunkOptions} {chunk : Chunk × Nat}
    (inside : chunk ∈ chunkMarkdown markdown opts) (lead : chunk.1.isLead = true) (path : String) :
    chunk.1.subject path chunk.2 = path := by
  obtain ⟨blank,first⟩ := (Bool.and_eq_true _ _).mp lead
  have zero : chunk.1.ordinal = 0 := of_decide_eq_true first
  simp [subject,blank,zero,part_of_first inside zero]

theorem subject_joined {chunk : Chunk} (joined : chunk.isLead = false) (path : String) (part : Nat) :
    ∃ rest, chunk.subject path part = path ++ "#" ++ rest := by
  have base : ∃ rest, (if (trim (trail chunk.headingPath)).isEmpty then
      if chunk.ordinal = 0 then path else path ++ "#§" ++ toString chunk.ordinal
      else path ++ "#" ++ trail chunk.headingPath) = path ++ "#" ++ rest := by
    split
    next blank =>
      split
      next zero => simp [isLead,blank,zero] at joined
      next =>
        refine ⟨"§" ++ toString chunk.ordinal,?_⟩
        have mark : "#§" = "#" ++ "§" := rfl
        rw [mark]
        simp only [String.append_assoc]
    next => exact ⟨trail chunk.headingPath,rfl⟩
  obtain ⟨rest,same⟩ := base
  unfold subject
  dsimp only
  rw [same]
  split
  next =>
    refine ⟨rest ++ "~" ++ toString part,?_⟩
    simp only [String.append_assoc]
  next => exact ⟨rest,rfl⟩

end Chunk

end Ecphoria
