import Ecphoria.Engine.DocumentFrame
import Ecphoria.Engine.Keyed

/-! What an upload leaves of a document, when no two of its sections share a subject and review
is off: the sections of the new version, one active chunk for each, and nothing else. -/
namespace Ecphoria
open Library

def Spares (chosen : Memory → Prop) (t u : MemoryTable) : Prop := ∀ row, ¬chosen row.memory → (row ∈ u.rows ↔ row ∈ t.rows)

def Under (home : MemoryScope) (subjects : String → Prop) (m : Memory) : Prop :=
  m.scope = home.withDefaultTenant ∧ ∃ subject, m.subject = some subject ∧ subjects subject

section
variable {chosen wider : Memory → Prop} {t u v : MemoryTable}

theorem Spares.refl (chosen : Memory → Prop) (t : MemoryTable) : Spares chosen t t := fun _ _ => Iff.rfl

theorem Spares.trans (first : Spares chosen t u) (second : Spares chosen u v) : Spares chosen t v :=
  fun row apart => (second row apart).trans (first row apart)

theorem Spares.mono (spares : Spares chosen t u) (within : ∀ m, chosen m → wider m) : Spares wider t u :=
  fun row apart => spares row (fun inside => apart (within row.memory inside))

theorem spares_upsertRows {rows : List MemoryRow} (placed : ∀ row ∈ rows, chosen row.stored.memory)
    (replaced : ∀ row ∈ rows, ∀ old ∈ t.rows, old.id = row.id → chosen old.memory) : Spares chosen t (t.upsertRows rows) := by
  intro row apart
  constructor
  · intro member
    rcases MemoryTable.mem_upsertRows member with ⟨written,inside,rfl⟩ | ⟨old,_⟩
    · exact absurd (placed written inside) apart
    · exact old
  · intro member
    have known : row.id ∈ (t.upsertRows rows).keys := by
      rw [MemoryTable.upsertRows_eq]
      exact Table.mem_keys_upsertAll (Or.inr ((Table.mem_keys _ _).mpr ⟨row,member,rfl⟩))
    obtain ⟨new,there,same⟩ := (Table.mem_keys _ _).mp known
    rcases MemoryTable.mem_upsertRows there with ⟨written,inside,rfl⟩ | ⟨old,_⟩
    · exact absurd (replaced written inside row member same.symm) apart
    · cases t.eq_of_key old member same
      exact there

end

section
variable {home : MemoryScope} {subject : String} {project : Option String} {e : Engine} {d : Draw} {input : MemoryInput}

/-- The rows of the plan of a chunk lie under its subject, in the place of rows that do, and the active ones are chunks. -/
theorem planSubject_rows (off : e.config.cognition.contradictionReview = false) (fresh : d.id ∉ e.memories.keys)
    (settled : input.scope.withDefaultTenant = input.scope) (about : input.subject = some subject)
    (vector : Option (List Rat)) {row : MemoryRow} (inside : row ∈ (planSubject e d input vector subject).rows) :
    (row.memory.scope = input.scope ∧ row.memory.subject = some subject) ∧
      (∀ old ∈ e.memories.rows, old.id = row.id → old.memory.scope = input.scope ∧ old.memory.subject = some subject) ∧
      (input.memType = some "chunk" →
        (∀ old ∈ e.memories.rows, MemoryTable.beliefFilter input.scope subject input.project old.memory = true →
          old.memory.memType = "chunk") → row.memory.state = .active → row.memory.memType = "chunk") := by
  have listed {m : Memory} (found : m ∈ e.memories.findActiveBySubject input.scope subject input.project) :
      (m.scope = input.scope ∧ m.subject = some subject) ∧
        (∀ old ∈ e.memories.rows, old.id = m.id → old.memory.scope = input.scope ∧ old.memory.subject = some subject) ∧
        ∃ old ∈ e.memories.rows, old.memory = m ∧
          MemoryTable.beliefFilter input.scope subject input.project old.memory = true := by
    obtain ⟨held,there,rfl,inHome,own,grouped,active⟩ := MemoryTable.mem_findActiveBySubject.mp found
    refine ⟨⟨inHome.trans settled,own⟩,?_,held,there,rfl,MemoryTable.beliefFilter_eq_true.mpr ⟨inHome,own,grouped,active⟩⟩
    intro old member same
    cases e.memories.eq_of_key member there same
    exact ⟨inHome.trans settled,own⟩
  have new {old : MemoryRow} (member : old ∈ e.memories.rows) (same : old.id = d.id) : False :=
    @fresh_apart _ ⟨(planInserted d input 0 none).add.memory,none⟩ fresh _ member same
  unfold planSubject at inside
  cases found : e.memories.findActiveBySubject input.scope subject input.project with
  | nil =>
    rw [found] at inside
    rw [List.mem_singleton.mp inside]
    refine ⟨⟨rfl,about⟩,fun old member same => (new member same).elim,?_⟩
    intro chunk _ _
    exact congrArg (fun type => type.getD "semantic") chunk
  | cons m others =>
    rw [found] at inside
    dsimp only at inside
    split at inside
    next same =>
      obtain ⟨placed,replaced,held,there,rfl,selected⟩ := listed (found ▸ List.mem_cons_self)
      rw [List.mem_singleton.mp inside]
      exact ⟨placed,replaced,fun _ chunks _ => chunks held there selected⟩
    next differs =>
      rw [if_neg (by simp [off])] at inside
      rcases List.mem_append.mp inside with closed | last
      · obtain ⟨old,among,rfl⟩ := List.mem_map.mp closed
        obtain ⟨placed,replaced,_⟩ := listed (found ▸ among)
        exact ⟨placed,replaced,fun _ _ active => by cases active⟩
      · rw [List.mem_singleton.mp last]
        refine ⟨⟨rfl,rfl⟩,fun old member same => (new member same).elim,?_⟩
        intro chunk _ _
        exact congrArg (fun type => type.getD "semantic") chunk

end

section
variable {env : Env} {home : MemoryScope} {project : Option String}

variable (home project) in
/-- At most one active row of the project stands under the subject, and it is a chunk. -/
structure Shelf (t : MemoryTable) (subject : String) : Prop where
  single : ∀ a ∈ t.rows, MemoryTable.beliefFilter home subject project a.memory = true →
    ∀ b ∈ t.rows, MemoryTable.beliefFilter home subject project b.memory = true → a = b
  chunk : ∀ a ∈ t.rows, MemoryTable.beliefFilter home subject project a.memory = true → a.memory.memType = "chunk"

variable (home project) in
/-- An active row under the subject has the text, but for outer whitespace. -/
def ShowsText (t : MemoryTable) (subject text : String) : Prop :=
  ∃ row ∈ t.rows, MemoryTable.beliefFilter home subject project row.memory = true ∧ trim row.memory.content = trim text

section
variable {t u : MemoryTable} {chosen : Memory → Prop} {subject text : String}

theorem Spares.selected (spares : Spares chosen t u)
    (apart : ∀ m, m.scope = home.withDefaultTenant → m.subject = some subject → ¬chosen m) {row : MemoryRow}
    (selected : MemoryTable.beliefFilter home subject project row.memory = true) : row ∈ u.rows ↔ row ∈ t.rows := by
  obtain ⟨inHome,own,_⟩ := MemoryTable.beliefFilter_eq_true.mp selected
  exact spares row (apart row.memory inHome own)

theorem Shelf.spared (shelf : Shelf home project t subject) (spares : Spares chosen t u)
    (apart : ∀ m, m.scope = home.withDefaultTenant → m.subject = some subject → ¬chosen m) :
    Shelf home project u subject where
  single a member selected b there again :=
    shelf.single a ((spares.selected apart selected).mp member) selected b ((spares.selected apart again).mp there) again
  chunk a member selected := shelf.chunk a ((spares.selected apart selected).mp member) selected

theorem ShowsText.spared (shows : ShowsText home project t subject text) (spares : Spares chosen t u)
    (apart : ∀ m, m.scope = home.withDefaultTenant → m.subject = some subject → ¬chosen m) :
    ShowsText home project u subject text := by
  obtain ⟨row,member,selected,same⟩ := shows
  exact ⟨row,(spares.selected apart selected).mpr member,selected,same⟩

theorem KeyedWrite.shelf {content : String} {drawn id : Uuid}
    (written : KeyedWrite home subject project content drawn t u id)
    (single : ∀ a ∈ t.rows, MemoryTable.beliefFilter home subject project a.memory = true →
      ∀ b ∈ t.rows, MemoryTable.beliefFilter home subject project b.memory = true → a = b) :
    ShowsText home project u subject content ∧
      ∀ a ∈ u.rows, MemoryTable.beliefFilter home subject project a.memory = true →
        ∀ b ∈ u.rows, MemoryTable.beliefFilter home subject project b.memory = true → a = b := by
  cases written with
  | confirmed m m' found same leaves retouched rows =>
    constructor
    · obtain ⟨row,member,rfl,inHome,own,grouped,active⟩ := newest_listed leaves
      refine ⟨row,member,MemoryTable.beliefFilter_eq_true.mpr ⟨inHome,own,grouped,active⟩,?_⟩
      rw [retouched.kept.2]
      exact same
    · intro a member selected b there again
      obtain ⟨old,before,touched⟩ := rows a member
      obtain ⟨old',before',touched'⟩ := rows b there
      have wasSelected : MemoryTable.beliefFilter home subject project old.memory = true := by
        rw [touched] at selected
        exact selected
      have wasSelected' : MemoryTable.beliefFilter home subject project old'.memory = true := by
        rw [touched'] at again
        exact again
      have equal := single old before wasSelected old' before' wasSelected'
      refine u.eq_of_key member there (touched.kept.1.trans ?_)
      rw [equal]
      exact touched'.kept.1.symm
  | landed row differs leaves drawnId text rows =>
    have only {a : MemoryRow} (member : a ∈ u.rows)
        (selected : MemoryTable.beliefFilter home subject project a.memory = true) : a = row := by
      rcases rows a member (MemoryTable.beliefFilter_eq_true.mp selected).2.2.2 with same | ⟨_,_,unselected⟩
      · exact same
      · rw [selected] at unselected
        cases unselected
    constructor
    · obtain ⟨held,member,same,inHome,own,grouped,active⟩ := newest_listed leaves
      refine ⟨held,member,?_,?_⟩
      · rw [same]
        exact MemoryTable.beliefFilter_eq_true.mpr ⟨inHome,own,grouped,active⟩
      · rw [same,text]
    · intro a member selected b there again
      rw [only member selected,only there again]

end

theorem Sections.writes_one {e : Engine} {d : Draw} {input : MemoryInput} {rest : List (MemoryInput × Draw)}
    {subject : String} (sections : Sections env home project e ((input,d) :: rest))
    (off : e.config.cognition.contradictionReview = false) (about : (canonicalInput env input).subject = some subject)
    (chunk : input.memType = some "chunk") (shelf : Shelf home project e.memories subject) :
    Spares (Under home (· = subject)) e.memories (writeNext env e (input,d)).memories ∧
      ShowsText home project (writeNext env e (input,d)).memories subject input.content ∧
      Shelf home project (writeNext env e (input,d)).memories subject := by
  obtain ⟨inHome,grouped⟩ := sections.placed (input,d) List.mem_cons_self
  have fresh := sections.fresh (input,d) List.mem_cons_self
  have settled : (canonicalInput env input).scope.withDefaultTenant = (canonicalInput env input).scope :=
    input.scope.withDefaultTenant_withDefaultTenant
  have homely : home.withDefaultTenant = home := by
    rw [← inHome]
    exact settled
  have planned := memoryPlan_keyed (d := d) (sections.accepted (input,d) List.mem_cons_self) about
  have written := planSubject_written off sections.recorded fresh settled about (e.embedMemoryContent d)
  have rows {row : MemoryRow} (inside : row ∈ (planSubject e d (canonicalInput env input) (e.embedMemoryContent d)
      subject).rows) := planSubject_rows off fresh settled about (e.embedMemoryContent d) inside
  rw [writeNext_planned env planned]
  dsimp only at inHome grouped ⊢
  have same : (canonicalInput env input).project = project := grouped
  rw [inHome,same] at written
  obtain ⟨shows,single⟩ := written.shelf shelf.single
  refine ⟨spares_upsertRows ?_ ?_,shows,single,?_⟩
  · intro row inside
    obtain ⟨⟨lies,own⟩,_⟩ := rows inside
    exact ⟨(lies.trans inHome).trans homely.symm,subject,own,rfl⟩
  · intro row inside old member equal
    obtain ⟨lies,own⟩ := (rows inside).2.1 old member equal
    exact ⟨(lies.trans inHome).trans homely.symm,subject,own,rfl⟩
  · intro a member selected
    rcases MemoryTable.mem_upsertRows member with ⟨row,inside,rfl⟩ | ⟨old,_⟩
    · refine (rows inside).2.2 chunk ?_ (MemoryTable.beliefFilter_eq_true.mp selected).2.2.2
      intro old there given
      rw [inHome,same] at given
      exact shelf.chunk old there given
    · exact shelf.chunk a old selected

theorem Sections.writes_all {e : Engine} {items : List (MemoryInput × Draw)} (sections : Sections env home project e items)
    (off : e.config.cognition.contradictionReview = false) (chunks : ∀ item ∈ items, item.1.memType = some "chunk")
    (apart : (items.map (fun item => (canonicalInput env item.1).subject)).Nodup)
    (shelves : ∀ item ∈ items, ∀ subject, (canonicalInput env item.1).subject = some subject →
      Shelf home project e.memories subject) :
    Spares (Under home (fun subject => ∃ item ∈ items, (canonicalInput env item.1).subject = some subject)) e.memories
        (run (writeNext env) e items).memories ∧
      ∀ item ∈ items, ∀ subject, (canonicalInput env item.1).subject = some subject →
        ShowsText home project (run (writeNext env) e items).memories subject item.1.content ∧
          Shelf home project (run (writeNext env) e items).memories subject := by
  induction items generalizing e with
  | nil => exact ⟨Spares.refl _ _,fun _ inside => absurd inside List.not_mem_nil⟩
  | cons item rest ih =>
    obtain ⟨input,d⟩ := item
    obtain ⟨subject,about⟩ := sections.subject (List.mem_cons_self (a := (input,d)))
    rw [List.map_cons,List.nodup_cons] at apart
    obtain ⟨other,apart⟩ := apart
    have differs {item : MemoryInput × Draw} (later : item ∈ rest) {own : String}
        (given : (canonicalInput env item.1).subject = some own) : own ≠ subject := by
      rintro rfl
      exact other (List.mem_map.mpr ⟨item,later,given.trans about.symm⟩)
    obtain ⟨spares,shows,shelf⟩ := sections.writes_one off about (chunks (input,d) List.mem_cons_self)
      (shelves (input,d) List.mem_cons_self subject about)
    obtain ⟨spared,written⟩ := ih (e := writeNext env e (input,d)) sections.tail (by rw [writeNext_config]; exact off)
      (fun item later => chunks item (List.mem_cons_of_mem _ later)) apart (by
        intro item later own given
        refine (shelves item (List.mem_cons_of_mem _ later) own given).spared spares ?_
        rintro m _ placed ⟨_,key,keyed,rfl⟩
        cases keyed.symm.trans placed
        exact differs later given rfl)
    have untouched : ∀ m : Memory, m.scope = home.withDefaultTenant → m.subject = some subject →
        ¬Under home (fun subject => ∃ item ∈ rest, (canonicalInput env item.1).subject = some subject) m := by
      rintro m _ placed ⟨_,key,keyed,item,later,given⟩
      cases keyed.symm.trans placed
      exact differs later given rfl
    rw [run_cons]
    refine ⟨(spares.mono ?_).trans (spared.mono ?_),?_⟩
    · rintro m ⟨inHome,key,keyed,rfl⟩
      exact ⟨inHome,key,keyed,(input,d),List.mem_cons_self,about⟩
    · rintro m ⟨inHome,key,keyed,item,later,given⟩
      exact ⟨inHome,key,keyed,item,List.mem_cons_of_mem _ later,given⟩
    · intro item inside own given
      rcases List.mem_cons.mp inside with rfl | later
      · cases about.symm.trans given
        exact ⟨shows.spared spared untouched,shelf.spared spared untouched⟩
      · exact written item later own given

end

/-- The sections that a version of a document is cut into, by their stored subjects. -/
def documentSections (env : Env) (path content : String) (opts : ChunkOptions) : List (String × String) :=
  (chunkMarkdown content opts).map (fun chunk => (normalizeSubject env (chunk.1.subject path chunk.2),chunk.1.text))

/-- The document stands in the project as these sections, and the rest of the table is the same. -/
structure Replaced (home : MemoryScope) (project : Option String) (document : String) (sections : List (String × String))
    (t u : MemoryTable) : Prop where
  spares : Spares (Under home (fun subject => documentOf subject = document)) t u
  shows : ∀ s ∈ sections, ShowsText home project u s.1 s.2
  shelf : ∀ subject, documentOf subject = document → Shelf home project u subject
  only : ∀ subject, documentOf subject = document → ∀ row ∈ u.rows,
    MemoryTable.beliefFilter home subject project row.memory = true →
      ∃ s ∈ sections, s.1 = subject ∧ trim row.memory.content = trim s.2

theorem documentOf_eq_iff {document subject : String} (plain : '#' ∉ document.toList) :
    documentOf subject = document ↔ subject = document ∨ (document ++ "#").toList <+: subject.toList := by
  constructor
  · intro own
    unfold documentOf at own
    split at own
    next path rest parts =>
      refine Or.inr ⟨rest,?_⟩
      rw [← own,splitOnce_joined parts]
      simp
    next => exact Or.inl own
  · intro either
    rcases either with rfl | ⟨rest,joined⟩
    · exact documentOf_unhashed plain
    · have whole : subject = document ++ "#" ++ String.ofList rest := by
        apply String.toList_inj.mp
        rw [← joined]
        simp
      rw [whole]
      exact documentOf_joined plain _

section
variable {env : Env} {e : Engine} {doc : DocumentIngest} {scope : MemoryScope} {opts : ChunkOptions} {draws : Nat → Draw}

variable (scope) in
theorem mem_documentSections {s : String × String} : s ∈ documentSections env doc.path doc.content opts ↔
    ∃ input ∈ documentInputs doc scope opts, ∃ raw, input.subject = some raw ∧ normalizeSubject env raw = s.1 ∧
      input.content = s.2 := by
  unfold documentSections documentInputs
  constructor
  · intro inside
    obtain ⟨chunk,listed,rfl⟩ := List.mem_map.mp inside
    exact ⟨_,List.mem_map_of_mem listed,_,rfl,rfl,rfl⟩
  · intro given
    obtain ⟨input,inside,raw,about,normal,text⟩ := given
    obtain ⟨chunk,listed,rfl⟩ := List.mem_map.mp inside
    cases about
    exact List.mem_map.mpr ⟨chunk,listed,Prod.ext normal text⟩

theorem canonical_of_section {input : MemoryInput} {subject : String} (about : (canonicalInput env input).subject = some subject) :
    ∃ raw, input.subject = some raw ∧ normalizeSubject env raw = subject := by
  obtain ⟨mapped,_⟩ := Option.filter_eq_some_iff.mp about
  exact Option.map_eq_some_iff.mp mapped

variable (env e doc scope opts draws) in
/-- An upload that governance lets in, whose sections have subjects of their own under the document, without review, over
a table where each subject of the document has at most one active chunk. -/
structure CleanUpload : Prop where
  sections : Sections env scope.withDefaultTenant doc.project e (documentItems doc scope opts draws)
  off : e.config.cognition.contradictionReview = false
  apart : ((documentInputs doc scope opts).map (fun input => (canonicalInput env input).subject)).Nodup
  owned : ∀ s ∈ documentSections env doc.path doc.content opts, documentOf s.1 = normalizeSubject env doc.path
  plain : '#' ∉ (normalizeSubject env doc.path).toList
  shelves : ∀ subject, documentOf subject = normalizeSubject env doc.path →
    Shelf scope.withDefaultTenant doc.project e.memories subject

namespace CleanUpload

variable (clean : CleanUpload env e doc scope opts draws) {subject : String}

theorem section_of {item : MemoryInput × Draw} (inside : item ∈ documentItems doc scope opts draws)
    (about : (canonicalInput env item.1).subject = some subject) :
    (subject,item.1.content) ∈ documentSections env doc.path doc.content opts := by
  obtain ⟨raw,given,normal⟩ := canonical_of_section about
  exact (mem_documentSections scope).mpr ⟨item.1,(mem_withDraws inside).1,raw,given,normal,rfl⟩

include clean

theorem item_of {s : String × String} (inside : s ∈ documentSections env doc.path doc.content opts) :
    ∃ item ∈ documentItems doc scope opts draws, (canonicalInput env item.1).subject = some s.1 ∧ item.1.content = s.2 := by
  obtain ⟨input,among,raw,about,normal,text⟩ := (mem_documentSections scope).mp inside
  obtain ⟨item,here,rfl⟩ := exists_documentItem among draws
  obtain ⟨subject,given⟩ := clean.sections.subject here
  obtain ⟨raw',about',rfl⟩ := canonical_of_section given
  cases about.symm.trans about'
  exact ⟨item,here,normal ▸ given,text⟩

theorem mem_produced : subject ∈ documentProduced env (documentInputs doc scope opts) ↔
    ∃ item ∈ documentItems doc scope opts draws, (canonicalInput env item.1).subject = some subject := by
  constructor
  · intro inside
    obtain ⟨raw,given,rfl⟩ := List.mem_map.mp inside
    obtain ⟨input,among,about⟩ := List.mem_filterMap.mp given
    have listed : (normalizeSubject env raw,input.content) ∈ documentSections env doc.path doc.content opts :=
      (mem_documentSections _).mpr ⟨input,among,raw,about,rfl,rfl⟩
    obtain ⟨item,here,given,_⟩ := clean.item_of listed
    exact ⟨item,here,given⟩
  · intro given
    obtain ⟨item,inside,about⟩ := given
    exact produced_canonical (mem_withDraws inside).1 about

theorem written : Spares (Under scope.withDefaultTenant (fun subject => subject ∈ documentProduced env
      (documentInputs doc scope opts))) e.memories (run (writeNext env) e (documentItems doc scope opts draws)).memories ∧
    ∀ item ∈ documentItems doc scope opts draws, ∀ subject, (canonicalInput env item.1).subject = some subject →
      ShowsText scope.withDefaultTenant doc.project (run (writeNext env) e (documentItems doc scope opts draws)).memories subject
          item.1.content ∧
        Shelf scope.withDefaultTenant doc.project (run (writeNext env) e (documentItems doc scope opts draws)).memories
          subject := by
  have chunks : ∀ item ∈ documentItems doc scope opts draws, item.1.memType = some "chunk" := by
    intro item inside
    obtain ⟨chunk,_,same⟩ := mem_documentInputs (mem_withDraws inside).1
    rw [same]
    rfl
  have names : ((documentItems doc scope opts draws).map (fun item => (canonicalInput env item.1).subject)).Nodup := by
    have same : (documentItems doc scope opts draws).map (fun item => (canonicalInput env item.1).subject) =
        (documentInputs doc scope opts).map (fun input => (canonicalInput env input).subject) := by
      rw [← withDraws_inputs (documentInputs doc scope opts) draws,List.map_map]
      rfl
    rw [same]
    exact clean.apart
  obtain ⟨spared,written⟩ := clean.sections.writes_all clean.off chunks names
    (fun item inside subject about => clean.shelves subject (clean.owned _ (section_of inside about)))
  refine ⟨spared.mono ?_,written⟩
  rintro m ⟨inHome,subject,about,given⟩
  exact ⟨inHome,subject,about,clean.mem_produced.mpr given⟩

theorem stale {row : MemoryRow} {now : Int} (swept : row ∈ documentStale env e doc scope opts now) :
    row.memory.state = .expired ∧ row.memory.scope = scope.withDefaultTenant ∧ ∃ subject, row.memory.subject = some subject ∧
      documentOf subject = normalizeSubject env doc.path ∧ subject ∉ documentProduced env (documentInputs doc scope opts) ∧
      ∀ old ∈ (run (writeNext env) e (documentItems doc scope opts draws)).memories.rows, old.id = row.id →
        old.memory.scope = scope.withDefaultTenant ∧ old.memory.subject = some subject := by
  obtain ⟨m,listed,⟨subject,keyed,absent⟩,rfl⟩ := mem_sweepRows.mp swept
  obtain ⟨⟨held,member,rfl⟩,inHome,_,subject',keyed',within⟩ := mem_findActiveByDocument.mp listed
  cases keyed.symm.trans keyed'
  refine ⟨rfl,inHome,subject,keyed,(documentOf_eq_iff clean.plain).mpr within,absent,?_⟩
  have stays : held ∈ (run (writeNext env) e (documentItems doc scope opts draws)).memories.rows := by
    refine (clean.written.1 held ?_).mpr member
    rintro ⟨_,own,about,given⟩
    cases keyed.symm.trans about
    exact absent given
  intro old there same
  cases Table.eq_of_key _ stays there same.symm
  exact ⟨inHome,keyed⟩

theorem sweeps (now : Int) : Spares (Under scope.withDefaultTenant (fun subject =>
      documentOf subject = normalizeSubject env doc.path ∧ subject ∉ documentProduced env (documentInputs doc scope opts)))
    (run (writeNext env) e (documentItems doc scope opts draws)).memories
    ((run (writeNext env) e (documentItems doc scope opts draws)).memories.upsertRows
      (documentStale env e doc scope opts now)) := by
  have homely : scope.withDefaultTenant.withDefaultTenant = scope.withDefaultTenant := scope.withDefaultTenant_withDefaultTenant
  refine spares_upsertRows ?_ ?_
  · intro row swept
    obtain ⟨_,inHome,subject,keyed,own,absent,_⟩ := clean.stale swept
    exact ⟨inHome.trans homely.symm,subject,keyed,own,absent⟩
  · intro row swept old there same
    obtain ⟨_,_,subject,_,own,absent,replaced⟩ := clean.stale swept
    obtain ⟨inHome,keyed⟩ := replaced old there same
    exact ⟨inHome.trans homely.symm,subject,keyed,own,absent⟩

theorem gone (own : documentOf subject = normalizeSubject env doc.path)
    (absent : subject ∉ documentProduced env (documentInputs doc scope opts)) {now : Int} {row : MemoryRow}
    (member : row ∈ ((run (writeNext env) e (documentItems doc scope opts draws)).memories.upsertRows
      (documentStale env e doc scope opts now)).rows) :
    ¬MemoryTable.beliefFilter scope.withDefaultTenant subject doc.project row.memory = true := by
  intro selected
  obtain ⟨inHome,about,_,active⟩ := MemoryTable.beliefFilter_eq_true.mp selected
  rcases MemoryTable.mem_upsertRows member with ⟨written,swept,rfl⟩ | ⟨there,unswept⟩
  · cases (clean.stale swept).1.symm.trans active
  · have before : row ∈ e.memories.rows := by
      refine (clean.written.1 row ?_).mp there
      rintro ⟨_,key,keyed,given⟩
      cases about.symm.trans keyed
      exact absent given
    have listed : row.memory ∈ e.memories.findActiveByDocument env scope doc.path :=
      mem_findActiveByDocument.mpr ⟨⟨row,before,rfl⟩,inHome.trans scope.withDefaultTenant_withDefaultTenant,active,subject,
        about,(documentOf_eq_iff clean.plain).mp own⟩
    exact unswept _ (mem_sweepRows.mpr ⟨row.memory,listed,⟨subject,about,absent⟩,rfl⟩) rfl

theorem kept (now : Int) {item : MemoryInput × Draw} (inside : item ∈ documentItems doc scope opts draws)
    (about : (canonicalInput env item.1).subject = some subject) :
    ShowsText scope.withDefaultTenant doc.project ((run (writeNext env) e (documentItems doc scope opts draws)).memories.upsertRows
        (documentStale env e doc scope opts now)) subject item.1.content ∧
      Shelf scope.withDefaultTenant doc.project ((run (writeNext env) e
        (documentItems doc scope opts draws)).memories.upsertRows (documentStale env e doc scope opts now)) subject := by
  have apart : ∀ m : Memory, m.scope = scope.withDefaultTenant.withDefaultTenant → m.subject = some subject →
      ¬Under scope.withDefaultTenant (fun subject => documentOf subject = normalizeSubject env doc.path ∧
        subject ∉ documentProduced env (documentInputs doc scope opts)) m := by
    rintro m _ placed ⟨_,key,keyed,_,absent⟩
    cases placed.symm.trans keyed
    exact absent (clean.mem_produced.mpr ⟨item,inside,about⟩)
  obtain ⟨shows,shelf⟩ := clean.written.2 item inside subject about
  exact ⟨shows.spared (clean.sweeps now) apart,shelf.spared (clean.sweeps now) apart⟩

theorem replaces (now : Int) : ∃ result after, documentIngest env e doc scope opts draws now = (.ok result,after) ∧
    after.config = e.config ∧ RowsRecorded after.memories ∧
    Replaced scope.withDefaultTenant doc.project (normalizeSubject env doc.path)
      (documentSections env doc.path doc.content opts) e.memories after.memories := by
  obtain ⟨after,answer,memories,config⟩ := documentIngest_sections clean.sections now
  refine ⟨_,after,answer,config,?_,?_⟩
  · rw [memories]
    exact clean.sections.recorded_run.upsertRows _
  rw [memories]
  refine ⟨(clean.written.1.mono ?_).trans ((clean.sweeps now).mono ?_),?_,?_,?_⟩
  · rintro m ⟨inHome,subject,about,given⟩
    obtain ⟨item,inside,keyed⟩ := clean.mem_produced.mp given
    exact ⟨inHome,subject,about,clean.owned _ (section_of inside keyed)⟩
  · rintro m ⟨inHome,subject,about,own,_⟩
    exact ⟨inHome,subject,about,own⟩
  · intro s inside
    obtain ⟨item,here,about,text⟩ := clean.item_of inside
    rw [← text]
    exact (clean.kept now here about).1
  · intro subject own
    by_cases produced : subject ∈ documentProduced env (documentInputs doc scope opts)
    · obtain ⟨item,inside,about⟩ := clean.mem_produced.mp produced
      exact (clean.kept now inside about).2
    · exact ⟨fun a member selected => absurd selected (clean.gone own produced member),
        fun a member selected => absurd selected (clean.gone own produced member)⟩
  · intro subject own row member selected
    by_cases produced : subject ∈ documentProduced env (documentInputs doc scope opts)
    · obtain ⟨item,inside,about⟩ := clean.mem_produced.mp produced
      obtain ⟨⟨shown,there,again,text⟩,shelf⟩ := clean.kept now inside about
      rw [shelf.single row member selected shown there again]
      exact ⟨_,section_of inside about,rfl,text⟩
    · exact absurd selected (clean.gone own produced member)

end CleanUpload

/-- Without equal keys nothing is flushed early: a batch in which one input is refused leaves nothing. -/
theorem landedItems_refused (config : CoreConfig) (items kept waiting : List (MemoryInput × Draw))
    (apart : ((waiting ++ items).map (fun item => batchKey env item.1)).Nodup)
    (refused : ∃ item ∈ items, ¬Accepts env config item.1) : landedItems env config items kept waiting = kept := by
  induction items generalizing waiting with
  | nil =>
    obtain ⟨item,inside,_⟩ := refused
    cases inside
  | cons item rest ih =>
    have free : waits (waiting.map (fun item => batchKey env item.1)) (batchKey env item.1) = false := by
      rw [List.map_append,List.map_cons] at apart
      have absent : batchKey env item.1 ∉ waiting.map (fun item => batchKey env item.1) := by
        intro inside
        exact (List.disjoint_of_nodup_append apart) inside List.mem_cons_self
      simp [waits,absent]
    unfold landedItems
    simp only [free,Bool.false_eq_true,if_false]
    by_cases accepted : Accepts env config item.1
    · rw [if_pos accepted]
      refine ih (waiting ++ [item]) (by simpa using apart) ?_
      obtain ⟨other,inside,unlike⟩ := refused
      rcases List.mem_cons.mp inside with rfl | later
      · exact absurd accepted unlike
      · exact ⟨other,later,unlike⟩
    · rw [if_neg accepted]

theorem documentIngest_refused (keyed : ∀ input ∈ documentInputs doc scope opts, (canonicalInput env input).subject ≠ none)
    (fresh : ∀ item ∈ documentItems doc scope opts draws, item.2.id ∉ e.memories.keys)
    (distinct : ((documentItems doc scope opts draws).map (fun item => item.2.id)).Nodup)
    (apart : ((documentInputs doc scope opts).map (fun input => (canonicalInput env input).subject)).Nodup)
    (refused : ∃ input ∈ documentInputs doc scope opts, ¬Accepts env e.config input) (now : Int) :
    ∃ err after, documentIngest env e doc scope opts draws now = (.error err,after) ∧ after.config = e.config ∧
      after.memories = e.memories := by
  obtain ⟨input,inside,unaccepted⟩ := refused
  obtain ⟨item,here,rfl⟩ := exists_documentItem inside draws
  have keys : ((documentItems doc scope opts draws).map (fun item => batchKey env item.1)).Nodup := by
    refine List.Nodup.of_map (fun key : Option (String × String) => (key.map Prod.snd).filter (fun s => !s.isEmpty)) ?_
    have same : (documentItems doc scope opts draws).map (fun item => batchKey env item.1) =
        (documentInputs doc scope opts).map (batchKey env) := by
      rw [← withDraws_inputs (documentInputs doc scope opts) draws,List.map_map]
      rfl
    rw [same,List.map_map]
    refine (List.map_congr_left ?_).symm ▸ apart
    intro input _
    simp only [Function.comp_apply,batchKey,Option.map_map,canonicalInput,canonicalSubject]
    rfl
  have none : documentLanded env e doc scope opts draws = [] :=
    landedItems_refused e.config (documentItems doc scope opts draws) [] [] keys ⟨item,here,unaccepted⟩
  have swept : documentSwept env e doc scope opts now = [] := by
    rw [documentSwept,if_neg]
    exact fun accepted => unaccepted (accepted item.1 inside)
  have memories := documentIngest_memories keyed fresh distinct now
  have config := @documentIngest_config env e doc scope opts draws now
  rw [none,swept] at memories
  cases answer : documentIngest env e doc scope opts draws now with
  | mk result after =>
    rw [answer] at memories config
    cases result with
    | error err => exact ⟨err,after,rfl,config,memories⟩
    | ok result =>
      obtain ⟨_,_,each⟩ := documentIngest_answer answer
      obtain ⟨_,_,f,planned,same,made,_⟩ := exists_of_forall₂ each here
      exact absurd (same ▸ (memoryPlanWithEmbedding_cases env made).1) unaccepted

end

end Ecphoria
