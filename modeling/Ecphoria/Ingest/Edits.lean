import Ecphoria.Ingest.Pieces

/-! Editing the body of one section: the chunks of every other section keep their
address and their text. -/
namespace Ecphoria
namespace Chunk

def startState : SplitState := ⟨[],[],⟨[],""⟩,false⟩

def pathAfter (before : List String) : List String := (before.foldl splitLine startState).current.headingPath

/-- Lines of the section that `before` leads to, its whole body or a part of it, are replaced by others: neither have
a heading, and both have an even number of fence lines. -/
structure BodyEdit (before old new : List String) : Prop where
  outside : fenceAfter false before = false
  old_plain : headings false old = []
  new_plain : headings false new = []
  old_even : Even (old.countP isFence)
  new_even : Even (new.countP isFence)

/-- The subjects and the texts of the chunks under another trail. -/
def elsewhere (path : List String) (docPath : String) (chunks : List (Chunk × Nat)) : List (String × String) :=
  (chunks.filter (fun chunk => chunk.1.headingPath ≠ path)).map
    (fun chunk => (chunk.1.subject docPath chunk.2,chunk.1.text))

section
variable {opts : ChunkOptions} {docPath : String} {path : List String} {items : List Piece}

theorem Titled.nonBlank_trail {s : Section} (titled : Titled s) : NonBlank (trail s.headingPath) := by
  obtain ⟨some,named⟩ := titled
  obtain ⟨title,rest,same⟩ := List.exists_cons_of_ne_nil some
  rw [same] at named ⊢
  have first := named title List.mem_cons_self
  cases rest with
  | nil => simpa [trail] using first
  | cons next rest =>
    rw [trail,String.intercalate_cons_cons,String.append_assoc]
    exact first.append_left _

theorem subject_titled {piece : Piece} (titled : Titled piece.holder) (a b : Nat) :
    (piece.chunk a).1.subject docPath (piece.chunk a).2 = (piece.chunk b).1.subject docPath (piece.chunk b).2 := by
  have some := (nonBlank_iff _).mp titled.nonBlank_trail
  simp [Piece.chunk,subject,some]

theorem elsewhere_append (a b : List (Chunk × Nat)) :
    elsewhere path docPath (a ++ b) = elsewhere path docPath a ++ elsewhere path docPath b := by
  simp [elsewhere]

theorem elsewhere_titled (titled : ∀ piece ∈ items, Titled piece.holder) (a b : Nat) :
    elsewhere path docPath (numbered a items) = elsewhere path docPath (numbered b items) := by
  induction items generalizing a b with
  | nil => rfl
  | cons piece items ih =>
    have first (start : Nat) : numbered start (piece :: items) = piece.chunk start :: numbered (start + 1) items := by
      simp [numbered]
    have rest := ih (fun other inside => titled other (List.mem_cons_of_mem piece inside)) (a + 1) (b + 1)
    have shown : ((piece.chunk a).1.subject docPath (piece.chunk a).2,(piece.chunk a).1.text) =
        ((piece.chunk b).1.subject docPath (piece.chunk b).2,(piece.chunk b).1.text) := by
      rw [subject_titled (titled piece List.mem_cons_self) a b]
      rfl
    rw [elsewhere,elsewhere] at rest
    rw [first,first,elsewhere,elsewhere,List.filter_cons,List.filter_cons]
    by_cases other : piece.holder.headingPath = path
    · rw [if_neg (by simp [Piece.chunk,other]),if_neg (by simp [Piece.chunk,other]),rest]
    · rw [if_pos (by simp [Piece.chunk,other]),if_pos (by simp [Piece.chunk,other]),List.map_cons,List.map_cons,rest,shown]

theorem elsewhere_own (own : ∀ piece ∈ items, piece.holder.headingPath = path) (start : Nat) :
    elsewhere path docPath (numbered start items) = [] := by
  rw [elsewhere,List.map_eq_nil_iff,List.filter_eq_nil_iff]
  intro chunk inside
  obtain ⟨⟨piece,ordinal⟩,listed,rfl⟩ := List.mem_map.mp inside
  have same := own piece (List.fst_mem_of_mem_zipIdx listed)
  simp [Piece.chunk,same]

theorem holder_pieces {s : Section} {piece : Piece} (inside : piece ∈ pieces opts s) : piece.holder = s := by
  obtain ⟨_,_,rfl⟩ := List.mem_map.mp inside
  rfl

theorem elsewhere_sections {markdown : String} {front later : List Section} {body : String}
    (cut : splitSections markdown = front ++ (closeSection ⟨path,body⟩ ++ later)) (titled : ∀ s ∈ later, Titled s) :
    elsewhere path docPath (chunkMarkdown markdown opts) =
      elsewhere path docPath (numbered 0 (front.flatMap (pieces opts))) ++
        elsewhere path docPath (numbered 0 (later.flatMap (pieces opts))) := by
  have own : ∀ piece ∈ (closeSection ⟨path,body⟩).flatMap (pieces opts), piece.holder.headingPath = path := by
    intro piece inside
    obtain ⟨s,listed,cut⟩ := List.mem_flatMap.mp inside
    rw [holder_pieces cut]
    unfold closeSection at listed
    split at listed
    · rw [List.mem_singleton.mp listed]
    · cases listed
  have after : ∀ piece ∈ later.flatMap (pieces opts), Titled piece.holder := by
    intro piece inside
    obtain ⟨s,listed,cut⟩ := List.mem_flatMap.mp inside
    rw [holder_pieces cut]
    exact titled s listed
  rw [chunkMarkdown_pieces,cut,List.flatMap_append,List.flatMap_append,numbered_append,numbered_append,
    elsewhere_append,elsewhere_append,elsewhere_own own,List.nil_append,elsewhere_titled after _ 0]

/-- The sections of a document with a body in it: those before, the one of the body, and those after, the first and
the last of which do not depend on the body. -/
theorem splitSections_body {before after : List String} (outside : fenceAfter false before = false)
    (named : ∀ heading ∈ headings false (before ++ after), NonBlank heading.2) :
    ∃ front later lead tail, (∀ s ∈ later, Titled s) ∧ ∀ markdown body, lines markdown = before ++ body ++ after →
      headings false body = [] → Even (body.countP isFence) →
      splitSections markdown = front ++ (closeSection ⟨pathAfter before,lead ++ joinLines body ++ tail⟩ ++ later) := by
  have plain : (before.foldl splitLine startState).inFence = false := by
    rw [foldl_inFence]
    exact outside
  rw [headings_append,outside] at named
  have stacked : ∀ heading ∈ (before.foldl splitLine startState).stack, NonBlank heading.2 := by
    intro heading inside
    rcases mem_foldl_stack inside with none | listed
    · cases none
    · exact named heading (List.mem_append_left _ listed)
  obtain ⟨tail,later,titled,rest⟩ := close_current after _ (pathAfter before) false stacked
    (fun heading inside => named heading (List.mem_append_right _ inside))
  refine ⟨(before.foldl splitLine startState).sections,later,(before.foldl splitLine startState).current.body,tail,
    titled,?_⟩
  intro markdown body whole none even
  have split : splitSections markdown = ((lines markdown).foldl splitLine startState).close := rfl
  have taken := foldl_body (show headings (before.foldl splitLine startState).inFence body = [] by rw [plain]; exact none)
  rw [split,whole,List.foldl_append,List.foldl_append,taken,fenceAfter_even,if_pos even,plain,close_foldl]
  dsimp only
  rw [← rest]
  rfl

/-- A body is edited where every heading has a text: under every trail but its own, the same subjects and texts
stand in the same order. -/
theorem edit_keeps_others {markdown edited docPath : String} {before old new after : List String}
    (was : lines markdown = before ++ old ++ after) (now : lines edited = before ++ new ++ after)
    (edit : BodyEdit before old new) (named : ∀ heading ∈ headings false (lines markdown), NonBlank heading.2)
    (opts : ChunkOptions) : elsewhere (pathAfter before) docPath (chunkMarkdown edited opts) =
      elsewhere (pathAfter before) docPath (chunkMarkdown markdown opts) := by
  have kept : ∀ heading ∈ headings false (before ++ after), NonBlank heading.2 := by
    have whole : headings false (lines markdown) = headings false (before ++ after) := by
      rw [was,headings_append,headings_append,headings_append,fenceAfter_append,edit.outside,edit.old_plain,
        fenceAfter_even,if_pos edit.old_even,List.append_nil]
    rwa [whole] at named
  obtain ⟨front,later,lead,tail,titled,cut⟩ := splitSections_body edit.outside kept
  rw [elsewhere_sections (cut edited new now edit.new_plain edit.new_even) titled,
    elsewhere_sections (cut markdown old was edit.old_plain edit.old_even) titled]

end

def runbook : String := "# Failover\nSet three.\n# Backup\n```\n# daily\n```"

def editedRunbook : String := "# Failover\nSet five.\n\n```\n# x\n```\n# Backup\n```\n# daily\n```"

theorem runbook_keeps_backup : elsewhere (pathAfter ["# Failover"]) "run.md" (chunkMarkdown editedRunbook ⟨1500,3000⟩) =
    elsewhere (pathAfter ["# Failover"]) "run.md" (chunkMarkdown runbook ⟨1500,3000⟩) := by
  have edit : BodyEdit ["# Failover"] ["Set three."] ["Set five.","","```","# x","```"] :=
    ⟨by decide,by decide,by decide,by decide,by decide⟩
  have titles : headings false (lines runbook) = [(1,"Failover"),(1,"Backup")] := by decide
  have named : ∀ heading ∈ headings false (lines runbook), NonBlank heading.2 := by
    rw [titles]
    simp [NonBlank,isWhitespace]
  have was : lines runbook = ["# Failover"] ++ ["Set three."] ++ ["# Backup","```","# daily","```"] := by decide
  have now : lines editedRunbook =
      ["# Failover"] ++ ["Set five.","","```","# x","```"] ++ ["# Backup","```","# daily","```"] := by decide
  exact edit_keeps_others was now edit named ⟨1500,3000⟩

end Chunk
end Ecphoria
