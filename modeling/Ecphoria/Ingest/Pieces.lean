import Ecphoria.Ingest.Chunk
import Mathlib.Algebra.Group.Nat.Even

/-! A document as its sections and the pieces they are cut into: the chunks are the
pieces in order, with their ordinals, and a section is the lines between two headings. -/
namespace Ecphoria
namespace Chunk

structure Piece where
  holder : Section
  part : String
  index : Nat

def Piece.chunk (piece : Piece) (ordinal : Nat) : Chunk × Nat :=
  (⟨piece.holder.headingPath,partText piece.holder piece.part,ordinal⟩,piece.index)

def pieces (opts : ChunkOptions) (s : Section) : List Piece :=
  (sectionParts opts s).zipIdx.map (fun (part,index) => ⟨s,part,index⟩)

def numbered (start : Nat) (items : List Piece) : List (Chunk × Nat) :=
  (items.zipIdx start).map (fun (piece,ordinal) => piece.chunk ordinal)

def closeSection (s : Section) : List Section :=
  if !(trim s.body).isEmpty || !s.headingPath.isEmpty then [s] else []

/-- The headings that `splitSections` takes from lines on, inside a fence or not. -/
def headings (inFence : Bool) : List String → List (Nat × String)
  | [] => []
  | line :: rest =>
    if isFence line then headings (!inFence) rest
    else (if inFence then [] else (headingOf line).toList) ++ headings inFence rest

def fenceAfter (inFence : Bool) (lines : List String) : Bool :=
  lines.foldl (fun inFence line => if isFence line then !inFence else inFence) inFence

def joinLines (lines : List String) : String := String.join (lines.map (fun line => line ++ "\n"))

section
variable {opts : ChunkOptions} {s : Section}

private theorem emitParts_numbered (parts : List String) (index : Nat) (out : List (Chunk × Nat))
    (each : ∀ part ∈ parts, NonBlank part) : (parts.zipIdx index).foldl (emitPart s) out =
      out ++ numbered out.length ((parts.zipIdx index).map (fun (part,index) => ⟨s,part,index⟩)) := by
  induction parts generalizing index out with
  | nil => simp [numbered]
  | cons part parts ih =>
    rw [List.zipIdx_cons,List.foldl_cons,emitPart_nonBlank (each part List.mem_cons_self),
      ih _ _ (fun other inside => each other (List.mem_cons_of_mem part inside))]
    simp [numbered,Piece.chunk]

theorem numbered_append (start : Nat) (a b : List Piece) :
    numbered start (a ++ b) = numbered start a ++ numbered (start + a.length) b := by
  rw [numbered,List.zipIdx_append,List.map_append,Nat.add_comm]
  rfl

@[simp] theorem length_numbered (start : Nat) (items : List Piece) : (numbered start items).length = items.length := by
  simp [numbered]

private theorem emitSections_numbered (sections : List Section) (out : List (Chunk × Nat)) :
    sections.foldl (fun out s => (sectionParts opts s).zipIdx.foldl (emitPart s) out) out =
      out ++ numbered out.length (sections.flatMap (pieces opts)) := by
  induction sections generalizing out with
  | nil => simp [numbered]
  | cons s sections ih =>
    have first : (sectionParts opts s).zipIdx.foldl (emitPart s) out = out ++ numbered out.length (pieces opts s) :=
      emitParts_numbered _ 0 out (sectionParts_nonBlank opts s)
    rw [List.foldl_cons,first,ih,List.flatMap_cons,numbered_append,List.length_append,length_numbered,List.append_assoc]

theorem chunkMarkdown_pieces (markdown : String) (opts : ChunkOptions) :
    chunkMarkdown markdown opts = numbered 0 ((splitSections markdown).flatMap (pieces opts)) := by
  rw [chunkMarkdown,emitSections_numbered,List.nil_append,List.length_nil]

end

section
variable {stack : List (Nat × String)} {path : List String} {inFence : Bool}

@[simp] theorem joinLines_nil : joinLines [] = "" := rfl

@[simp] theorem joinLines_cons (line : String) (lines : List String) :
    joinLines (line :: lines) = line ++ "\n" ++ joinLines lines := by
  simp [joinLines]

theorem close_eq (s : SplitState) : s.close = s.sections ++ closeSection s.current := by
  unfold SplitState.close closeSection
  split <;> simp

def openHeading (stack : List (Nat × String)) (level : Nat) (title : String) : List (Nat × String) :=
  stack.filter (fun (l,_) => l < level) ++ [(level,title)]

section
variable {s : SplitState} {line title : String} {level : Nat}

theorem splitLine_fence (fence : isFence line = true) :
    splitLine s line = { s.push line with inFence := !s.inFence } := by
  rw [splitLine,if_pos fence]

theorem splitLine_heading (plain : isFence line = false) (outside : s.inFence = false)
    (found : headingOf line = some (level,title)) : splitLine s line =
      ⟨s.close,openHeading s.stack level title,⟨(openHeading s.stack level title).map Prod.snd,""⟩,false⟩ := by
  rw [splitLine,if_neg (by simp [plain]),outside,found]
  rfl

theorem splitLine_text (plain : isFence line = false) (text : s.inFence = true ∨ headingOf line = none) :
    splitLine s line = s.push line := by
  rw [splitLine,if_neg (by simp [plain])]
  rcases text with inside | none
  · rw [inside]
  · rw [none]
    cases s.inFence <;> rfl

theorem line_cases (inFence : Bool) (line : String) : isFence line = true ∨
    isFence line = false ∧ inFence = false ∧ (∃ level title, headingOf line = some (level,title)) ∨
    isFence line = false ∧ (inFence = true ∨ headingOf line = none) := by
  cases isFence line with
  | true => exact Or.inl rfl
  | false =>
    cases inFence with
    | true => exact Or.inr (Or.inr ⟨rfl,Or.inl rfl⟩)
    | false =>
      cases found : headingOf line with
      | none => exact Or.inr (Or.inr ⟨rfl,Or.inr rfl⟩)
      | some heading => exact Or.inr (Or.inl ⟨rfl,rfl,heading.1,heading.2,rfl⟩)

end

theorem splitLine_closed (closed : List Section) (s : SplitState) (line : String) :
    splitLine { s with sections := closed ++ s.sections } line =
      { splitLine s line with sections := closed ++ (splitLine s line).sections } := by
  rcases line_cases s.inFence line with fence | ⟨plain,outside,level,title,found⟩ | ⟨plain,text⟩
  · rw [splitLine_fence fence,splitLine_fence fence]
    rfl
  · have outside' : { s with sections := closed ++ s.sections }.inFence = false := outside
    rw [splitLine_heading plain outside found,splitLine_heading plain outside' found,close_eq,close_eq,List.append_assoc]
  · have text' : { s with sections := closed ++ s.sections }.inFence = true ∨ headingOf line = none := text
    rw [splitLine_text plain text,splitLine_text plain text']
    rfl

theorem foldl_closed (closed : List Section) (s : SplitState) (lines : List String) :
    lines.foldl splitLine { s with sections := closed ++ s.sections } =
      { lines.foldl splitLine s with sections := closed ++ (lines.foldl splitLine s).sections } := by
  induction lines generalizing s with
  | nil => rfl
  | cons line lines ih => rw [List.foldl_cons,splitLine_closed,ih,List.foldl_cons]

theorem close_foldl (s : SplitState) (lines : List String) :
    (lines.foldl splitLine s).close = s.sections ++ (lines.foldl splitLine { s with sections := [] }).close := by
  have apart := foldl_closed s.sections { s with sections := [] } lines
  dsimp only at apart
  rw [List.append_nil] at apart
  rw [close_eq,close_eq]
  change (lines.foldl splitLine { s with sections := s.sections }).sections ++ _ = _
  rw [apart,List.append_assoc]

section
variable {line title : String} {level : Nat} {inFence : Bool}

theorem headings_fence (fence : isFence line = true) (rest : List String) :
    headings inFence (line :: rest) = headings (!inFence) rest := by
  rw [headings,if_pos fence]

theorem headings_heading (plain : isFence line = false) (found : headingOf line = some (level,title))
    (rest : List String) :
    headings false (line :: rest) = (level,title) :: headings false rest := by
  rw [headings,if_neg (by simp [plain]),if_neg (by simp),found]
  rfl

theorem headings_text (plain : isFence line = false) (text : inFence = true ∨ headingOf line = none)
    (rest : List String) :
    headings inFence (line :: rest) = headings inFence rest := by
  rw [headings,if_neg (by simp [plain])]
  rcases text with inside | none
  · rw [if_pos inside,List.nil_append]
  · rw [none,Option.toList_none,ite_self,List.nil_append]

theorem fenceAfter_cons (inFence : Bool) (line : String) (rest : List String) :
    fenceAfter inFence (line :: rest) = fenceAfter (if isFence line then !inFence else inFence) rest := rfl

theorem fenceAfter_append (inFence : Bool) (a b : List String) :
    fenceAfter inFence (a ++ b) = fenceAfter (fenceAfter inFence a) b := List.foldl_append

theorem fenceAfter_even (lines : List String) (inFence : Bool) :
    fenceAfter inFence lines = (if Even (lines.countP isFence) then inFence else !inFence) := by
  induction lines generalizing inFence with
  | nil => simp [fenceAfter]
  | cons line lines ih =>
    rw [fenceAfter_cons,ih,List.countP_cons]
    cases isFence line with
    | false => simp
    | true =>
      simp only [if_true,Nat.even_add_one]
      by_cases even : Even (lines.countP isFence) <;> simp [even]

end

theorem foldl_body {lines : List String} {s : SplitState} (none : headings s.inFence lines = []) :
    lines.foldl splitLine s = { s with
      current := ⟨s.current.headingPath,s.current.body ++ joinLines lines⟩
      inFence := fenceAfter s.inFence lines } := by
  induction lines generalizing s with
  | nil => simp [fenceAfter]
  | cons line lines ih =>
    rw [List.foldl_cons,fenceAfter_cons,joinLines_cons]
    rcases line_cases s.inFence line with fence | ⟨plain,outside,level,title,found⟩ | ⟨plain,text⟩
    · rw [headings_fence fence] at none
      rw [splitLine_fence fence,ih none,if_pos fence]
      simp [SplitState.push,String.append_assoc]
    · rw [outside,headings_heading plain found] at none
      cases none
    · rw [headings_text plain text] at none
      have step := @ih (s.push line) none
      rw [splitLine_text plain text,step,if_neg (by simp [plain])]
      simp [SplitState.push,String.append_assoc]

theorem headings_append (inFence : Bool) (a b : List String) :
    headings inFence (a ++ b) = headings inFence a ++ headings (fenceAfter inFence a) b := by
  induction a generalizing inFence with
  | nil => rfl
  | cons line a ih =>
    rw [List.cons_append,headings,headings,fenceAfter_cons,ih,ih]
    split
    next => rfl
    next => rw [List.append_assoc]

theorem foldl_inFence (lines : List String) (s : SplitState) :
    (lines.foldl splitLine s).inFence = fenceAfter s.inFence lines := by
  induction lines generalizing s with
  | nil => rfl
  | cons line lines ih =>
    rw [List.foldl_cons,fenceAfter_cons,ih]
    rcases line_cases s.inFence line with fence | ⟨plain,outside,level,title,found⟩ | ⟨plain,text⟩
    · rw [splitLine_fence fence,if_pos fence]
    · rw [splitLine_heading plain outside found,if_neg (by simp [plain]),outside]
    · rw [splitLine_text plain text,if_neg (by simp [plain])]
      rfl

theorem mem_foldl_stack {lines : List String} {s : SplitState} {heading : Nat × String}
    (inside : heading ∈ (lines.foldl splitLine s).stack) : heading ∈ s.stack ∨ heading ∈ headings s.inFence lines := by
  induction lines generalizing s with
  | nil => exact Or.inl inside
  | cons line lines ih =>
    rw [List.foldl_cons] at inside
    rcases line_cases s.inFence line with fence | ⟨plain,outside,level,title,found⟩ | ⟨plain,text⟩
    · rw [splitLine_fence fence] at inside
      rw [headings_fence fence]
      exact ih inside
    · rw [splitLine_heading plain outside found] at inside
      rw [outside,headings_heading plain found]
      rcases ih inside with stacked | later
      · rcases List.mem_append.mp stacked with old | new
        · exact Or.inl (List.mem_of_mem_filter old)
        · exact Or.inr (List.mem_singleton.mp new ▸ List.mem_cons_self)
      · exact Or.inr (List.mem_cons_of_mem _ later)
    · rw [splitLine_text plain text] at inside
      rw [headings_text plain text]
      exact @ih (s.push line) inside

def Titled (s : Section) : Prop := s.headingPath ≠ [] ∧ ∀ title ∈ s.headingPath, NonBlank title

theorem close_current (lines : List String) (stack : List (Nat × String)) (path : List String) (inFence : Bool)
    (stacked : ∀ heading ∈ stack, NonBlank heading.2) (named : ∀ heading ∈ headings inFence lines, NonBlank heading.2) :
    ∃ tail later, (∀ s ∈ later, Titled s) ∧ ∀ body,
      (lines.foldl splitLine ⟨[],stack,⟨path,body⟩,inFence⟩).close = closeSection ⟨path,body ++ tail⟩ ++ later := by
  induction lines generalizing stack path inFence with
  | nil =>
    refine ⟨"",[],nofun,?_⟩
    intro body
    rw [List.foldl_nil,close_eq,String.append_empty,List.append_nil,List.nil_append]
  | cons line lines ih =>
    rcases line_cases inFence line with fence | ⟨plain,rfl,level,title,found⟩ | ⟨plain,text⟩
    · rw [headings_fence fence] at named
      obtain ⟨tail,later,titled,rest⟩ := ih stack path (!inFence) stacked named
      refine ⟨line ++ "\n" ++ tail,later,titled,?_⟩
      intro body
      rw [List.foldl_cons,splitLine_fence fence]
      simp only [SplitState.push]
      rw [rest]
      simp only [String.append_assoc]
    · rw [headings_heading plain found] at named
      have opened : ∀ heading ∈ openHeading stack level title, NonBlank heading.2 := by
        intro heading inside
        rcases List.mem_append.mp inside with old | new
        · exact stacked heading (List.mem_of_mem_filter old)
        · rw [List.mem_singleton.mp new]
          exact named _ List.mem_cons_self
      obtain ⟨tail,later,titled,rest⟩ := ih (openHeading stack level title) ((openHeading stack level title).map Prod.snd)
        false opened (fun heading inside => named heading (List.mem_cons_of_mem _ inside))
      refine ⟨"",closeSection ⟨(openHeading stack level title).map Prod.snd,"" ++ tail⟩ ++ later,?_,?_⟩
      · intro s inside
        rcases List.mem_append.mp inside with current | after
        · have same : s = ⟨(openHeading stack level title).map Prod.snd,"" ++ tail⟩ := by
            unfold closeSection at current
            split at current
            · exact List.mem_singleton.mp current
            · cases current
          rw [same]
          refine ⟨by simp [openHeading],?_⟩
          intro name listed
          obtain ⟨heading,there,rfl⟩ := List.mem_map.mp listed
          exact opened heading there
        · exact titled s after
      · intro body
        rw [List.foldl_cons,splitLine_heading plain rfl found,close_foldl,close_eq]
        dsimp only
        rw [rest,List.nil_append,String.append_empty]
    · rw [headings_text plain text] at named
      obtain ⟨tail,later,titled,rest⟩ := ih stack path inFence stacked named
      refine ⟨line ++ "\n" ++ tail,later,titled,?_⟩
      intro body
      rw [List.foldl_cons,splitLine_text plain text]
      simp only [SplitState.push]
      rw [rest]
      simp only [String.append_assoc]

end

end Chunk
end Ecphoria
