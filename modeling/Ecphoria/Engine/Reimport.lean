import Ecphoria.Engine.Sections

/-! Importing a document again. Each section is confirmed, and nothing is swept, when the text
of every section was left in front the first time; two sections of one subject that say
different things, and review in front of an older version, prevent that. -/
namespace Ecphoria
open Library

def documentItems (doc : DocumentIngest) (scope : MemoryScope) (opts : ChunkOptions) (draws : Nat → Draw) :
    List (MemoryInput × Draw) :=
  withDraws (documentInputs doc scope opts) draws

theorem mem_documentInputs {doc : DocumentIngest} {scope : MemoryScope} {opts : ChunkOptions} {input : MemoryInput}
    (inside : input ∈ documentInputs doc scope opts) :
    ∃ chunk ∈ chunkMarkdown doc.content opts, input = chunkInput doc scope chunk := by
  unfold documentInputs at inside
  obtain ⟨chunk,listed,rfl⟩ := List.mem_map.mp inside
  exact ⟨chunk,listed,rfl⟩

theorem documentInputs_length (doc : DocumentIngest) (scope : MemoryScope) (opts : ChunkOptions) :
    (documentInputs doc scope opts).length = (chunkMarkdown doc.content opts).length := by
  unfold documentInputs
  exact List.length_map _

theorem withDraws_inputs (inputs : List MemoryInput) (draws : Nat → Draw) :
    (withDraws inputs draws).map Prod.fst = inputs := by
  rw [withDraws,List.map_map]
  exact List.zipIdx_map_fst 0 inputs

section
variable {env : Env} {home : MemoryScope} {project : Option String}

/-- What the sections leave in a table: the rows that were there, and rows of their subjects in the place of rows of
the same subjects. -/
theorem Sections.rows {e : Engine} {items : List (MemoryInput × Draw)} (sections : Sections env home project e items) :
    ∀ row ∈ (run (writeNext env) e items).memories.rows, row ∈ e.memories.rows ∨
      ∃ item ∈ items, row.memory.subject = (canonicalInput env item.1).subject ∧
        ∀ old ∈ e.memories.rows, old.id = row.id → old.memory.subject = row.memory.subject := by
  induction items generalizing e with
  | nil => exact fun row member => Or.inl member
  | cons item rest ih =>
    obtain ⟨input,d⟩ := item
    obtain ⟨key,about⟩ := sections.subject (List.mem_cons_self (a := (input,d)))
    obtain ⟨planned,ok,_⟩ := sections.plan about
    have fresh : d.id ∉ e.memories.keys := sections.fresh (input,d) List.mem_cons_self
    -- what the first section writes, and what it writes over
    have wrote {row : MemoryRow} (inside : row ∈ planned.rows) :
        row.memory.subject = (canonicalInput env input).subject ∧
          ∀ old ∈ e.memories.rows, old.id = row.id → old.memory.subject = row.memory.subject := by
      obtain ⟨replaced,_,keyed⟩ := memoryPlan_rows env (sections.unmerged (input,d) List.mem_cons_self) ok inside
      refine ⟨keyed,?_⟩
      intro old member equal
      rcases replaced with drawn | ⟨known,there,same,_,kept⟩
      · exact absurd ((Table.mem_keys _ _).mpr ⟨old,member,equal.trans drawn⟩) fresh
      · cases e.memories.eq_of_key member there (equal.trans same.symm)
        exact kept
    have next : (writeNext env e (input,d)).memories = e.memories.upsertRows planned.rows := by
      rw [writeNext_planned env ok]
    intro row member
    rcases ih sections.tail row member with middle | ⟨item,inside,keyed,kept⟩
    · rw [next] at middle
      rcases MemoryTable.mem_upsertRows middle with ⟨written,inside,rfl⟩ | ⟨old,_⟩
      · obtain ⟨keyed,kept⟩ := wrote inside
        exact Or.inr ⟨(input,d),List.mem_cons_self,keyed,kept⟩
      · exact Or.inl old
    · refine Or.inr ⟨item,List.mem_cons_of_mem _ inside,keyed,?_⟩
      intro old there equal
      -- the row that stood between is the old one or one that the first section wrote over it
      obtain ⟨between,listed,same⟩ := (Table.mem_keys _ _).mp (writes_keys env e [(input,d)]
        ((Table.mem_keys _ _).mpr ⟨old,there,rfl⟩))
      change between ∈ (writeNext env e (input,d)).memories.rows at listed
      have about := kept between listed (same.trans equal)
      rw [next] at listed
      rcases MemoryTable.mem_upsertRows listed with ⟨written,inside,rfl⟩ | ⟨untouched,_⟩
      · exact ((wrote inside).2 old there same.symm).trans about
      · cases e.memories.eq_of_key there untouched same.symm
        exact about

theorem mem_findActiveByDocument {t : MemoryTable} {scope : MemoryScope} {path : String} {m : Memory} :
    m ∈ t.findActiveByDocument env scope path ↔ (∃ row ∈ t.rows, row.memory = m) ∧ m.scope = scope.withDefaultTenant ∧
      m.state = .active ∧ ∃ subject, m.subject = some subject ∧ (subject = normalizeSubject env path ∨
        (normalizeSubject env path ++ "#").toList <+: subject.toList) := by
  simp only [MemoryTable.findActiveByDocument,List.mem_insertionSort,List.mem_filter,MemoryTable.memories,List.mem_map,
    Bool.and_eq_true,decide_eq_true_eq,MemoryScope.matchesRow_iff,and_assoc]
  refine and_congr_right (fun _ => and_congr_right (fun _ => and_congr_right (fun _ => ?_)))
  cases m.subject with
  | none => simp
  | some subject => simp

theorem mem_sweepRows {previous : List Memory} {produced : List String} {now : Int} {row : MemoryRow} :
    row ∈ sweepRows previous produced now ↔ ∃ m ∈ previous, (∃ subject, m.subject = some subject ∧ subject ∉ produced) ∧
      row = ⟨{ m with state := .expired, validTo := some now, updatedAt := now },none⟩ := by
  simp only [sweepRows,List.mem_map,List.mem_filter,and_assoc]
  refine exists_congr (fun m => and_congr_right (fun _ => and_congr ?_ eq_comm))
  cases m.subject with
  | none => simp
  | some subject => simp

theorem Sections.unswept {e : Engine} {items : List (MemoryInput × Draw)} (sections : Sections env home project e items)
    {produced : List String} {row stored : MemoryRow}
    (gone : ∃ old ∈ e.memories.rows, old.id = row.id ∧ ∃ subject, old.memory.subject = some subject ∧ subject ∉ produced)
    (member : stored ∈ (run (writeNext env) e items).memories.rows) (equal : stored.id = row.id) {subject : String}
    (inside : subject ∈ produced) : stored.memory.subject ≠ some subject := by
  obtain ⟨old,there,same,key,keyed,absent⟩ := gone
  intro about
  rcases sections.rows stored member with kept | ⟨_,_,_,kept⟩
  · cases e.memories.eq_of_key there kept (same.trans equal.symm)
    cases keyed.symm.trans about
    exact absent inside
  · cases (keyed.symm.trans (kept old there (same.trans equal.symm))).trans about
    exact absent inside

theorem Sections.swept {e : Engine} {items : List (MemoryInput × Draw)} (sections : Sections env home project e items)
    {produced : List String} {stale : List MemoryRow}
    (gone : ∀ row ∈ stale, row.memory.state = .expired ∧ ∃ old ∈ e.memories.rows, old.id = row.id ∧
      ∃ subject, old.memory.subject = some subject ∧ subject ∉ produced) {subject : String} (inside : subject ∈ produced) :
    newest ((run (writeNext env) e items).memories.upsertRows stale) home subject project =
        newest (run (writeNext env) e items).memories home subject project ∧
      ∀ m vector, newest (run (writeNext env) e items).memories home subject project = some m →
        VectorStands (run (writeNext env) e items).memories vector m.id →
          VectorStands ((run (writeNext env) e items).memories.upsertRows stale) vector m.id := by
  have other {row : MemoryRow} (swept : row ∈ stale) {stored : MemoryRow}
      (member : stored ∈ (run (writeNext env) e items).memories.rows) (equal : stored.id = row.id) :
      stored.memory.subject ≠ some subject := sections.unswept (gone row swept).2 member equal inside
  refine ⟨newest_apart ?_ ?_,?_⟩
  · intro row swept
    apply Bool.eq_false_iff.mpr
    intro selected
    cases (gone row swept).1.symm.trans (MemoryTable.beliefFilter_eq_true.mp selected).2.2.2
  · intro row swept stored member equal
    apply Bool.eq_false_iff.mpr
    intro selected
    exact other swept member equal (MemoryTable.beliefFilter_eq_true.mp selected).2.1
  · intro m vector found stands row member equal
    obtain ⟨stored,there,rfl,_,keyed,_⟩ := newest_listed found
    rcases MemoryTable.mem_upsertRows member with ⟨written,swept,rfl⟩ | ⟨kept,_⟩
    · exact absurd keyed (other swept there equal.symm)
    · exact stands row kept equal

end

section
variable {env : Env} {e : Engine} {doc : DocumentIngest} {scope : MemoryScope} {opts : ChunkOptions} {draws : Nat → Draw}

theorem produced_canonical {inputs : List MemoryInput} {input : MemoryInput} {subject : String} (inside : input ∈ inputs)
    (about : (canonicalInput env input).subject = some subject) : subject ∈ documentProduced env inputs := by
  obtain ⟨mapped,_⟩ := Option.filter_eq_some_iff.mp about
  obtain ⟨raw,given,rfl⟩ := Option.map_eq_some_iff.mp mapped
  exact List.mem_map_of_mem (List.mem_filterMap.mpr ⟨input,inside,given⟩)

variable (env e doc scope opts) in
def documentStale (now : Int) : List MemoryRow :=
  sweepRows (e.memories.findActiveByDocument env scope doc.path) (documentProduced env (documentInputs doc scope opts)) now

theorem documentStale_gone {now : Int} {row : MemoryRow} (swept : row ∈ documentStale env e doc scope opts now) :
    row.memory.state = .expired ∧ ∃ old ∈ e.memories.rows, old.id = row.id ∧
      ∃ subject, old.memory.subject = some subject ∧ subject ∉ documentProduced env (documentInputs doc scope opts) := by
  obtain ⟨m,listed,⟨subject,keyed,absent⟩,rfl⟩ := mem_sweepRows.mp swept
  obtain ⟨⟨old,member,rfl⟩,_⟩ := mem_findActiveByDocument.mp listed
  exact ⟨rfl,old,member,rfl,subject,keyed,absent⟩

/-- An import whose sections all have a subject and are let in writes them one after the other and sweeps. -/
theorem documentIngest_sections
    (sections : Sections env scope.withDefaultTenant doc.project e (documentItems doc scope opts draws)) (now : Int) :
    ∃ after, documentIngest env e doc scope opts draws now =
        (.ok (let added := outputs (writeNext env) (addOf env) e (documentItems doc scope opts draws)
          ⟨doc.path,(documentInputs doc scope opts).length,countOutcomes added [.inserted],
            countOutcomes added [.confirmed],countOutcomes added [.superseded,.merged],
            (documentStale env e doc scope opts now).length⟩),after) ∧
      after.memories = (run (writeNext env) e (documentItems doc scope opts draws)).memories.upsertRows
        (documentStale env e doc scope opts now) ∧ after.config = e.config := by
  obtain ⟨memories,config,outcomes⟩ := memoryAddBatch_lands e (documentItems doc scope opts draws) sections.unmerged
    sections.fresh sections.distinct
  have all := outcomes sections.accepted
  rw [landedItems_accepted env _ [] [] sections.accepted,List.nil_append,List.nil_append] at memories
  cases batch : memoryAddBatch env e (documentItems doc scope opts draws) with
  | mk answer between =>
  rw [batch] at all memories config
  dsimp only at all memories config
  subst all
  have known : ∀ row ∈ documentStale env e doc scope opts now, row.id ∈ between.memories.keys := by
    intro row swept
    obtain ⟨_,old,member,same,_⟩ := documentStale_gone swept
    rw [memories]
    exact writes_keys env e _ ((Table.mem_keys _ _).mpr ⟨old,member,same⟩)
  obtain ⟨after,ok,written,kept⟩ := memoryApplyRowsBatch_known known
  refine ⟨after,?_,written.trans (by rw [memories]),kept.trans config⟩
  have swept : memoryApplyRowsBatch between (sweepRows (e.memories.findActiveByDocument env scope doc.path)
    (documentProduced env (documentInputs doc scope opts)) now) = .ok after := ok
  have added : memoryAddBatch env e (withDraws (documentInputs doc scope opts) draws) =
    (.ok (outputs (writeNext env) (addOf env) e (documentItems doc scope opts draws)),between) := batch
  simp only [documentIngest,added,swept]
  rfl

theorem documentIngest_config {now : Int} : (documentIngest env e doc scope opts draws now).2.config = e.config := by
  have batch := batchLoop_config env e ⟨[],[]⟩ (withDraws (documentInputs doc scope opts) draws) []
  simp only [documentIngest,memoryAddBatch]
  split
  next err after added =>
    rw [added] at batch
    exact batch
  next added after ok =>
    rw [ok] at batch
    split
    next => exact batch
    next final applied => exact (memoryApplyRowsBatch_ok after final _ applied).2.2.trans batch

theorem documentIngest_answer {now : Int} {result : DocumentIngestResult} {after : Engine}
    (ok : documentIngest env e doc scope opts draws now = (.ok result,after)) :
    ∃ added, result = ⟨doc.path,(documentInputs doc scope opts).length,countOutcomes added [.inserted],
        countOutcomes added [.confirmed],countOutcomes added [.superseded,.merged],
        (documentStale env e doc scope opts now).length⟩ ∧
      List.Forall₂ (fun item add => ∃ f planned, f.config = e.config ∧
        memoryPlan env f item.2 item.1 = .ok planned ∧ planned.add = add) (documentItems doc scope opts draws) added := by
  simp only [documentIngest] at ok
  split at ok
  next => cases ok
  next added between batch =>
    obtain ⟨news,same,each⟩ := batchLoop_outcomes env (documentItems doc scope opts draws) [] (congrArg Prod.fst batch)
    split at ok
    next => cases ok
    next =>
      cases ok
      rw [List.nil_append] at same
      exact ⟨added,rfl,same ▸ each⟩

theorem sections_of {draws : Nat → Draw} (recorded : RowsRecorded e.memories)
    (accepted : ∀ input ∈ documentInputs doc scope opts, Accepts env e.config input)
    (keyed : ∀ input ∈ documentInputs doc scope opts, (canonicalInput env input).subject ≠ none)
    (fresh : ∀ item ∈ documentItems doc scope opts draws, item.2.id ∉ e.memories.keys)
    (distinct : ((documentItems doc scope opts draws).map (fun item => item.2.id)).Nodup) :
    Sections env scope.withDefaultTenant doc.project e (documentItems doc scope opts draws) where
  recorded := recorded
  placed := by
    intro item inside
    obtain ⟨chunk,_,same⟩ := mem_documentInputs (mem_withDraws inside).1
    rw [same]
    exact ⟨rfl,rfl⟩
  keyed := fun item inside => keyed item.1 (mem_withDraws inside).1
  accepted := fun item inside => accepted item.1 (mem_withDraws inside).1
  fresh := fresh
  distinct := distinct

theorem Sections.outputs_length {home : MemoryScope} {project : Option String} {items : List (MemoryInput × Draw)}
    (sections : Sections env home project e items) :
    (outputs (writeNext env) (addOf env) e items).length = items.length := by
  induction items generalizing e with
  | nil => rfl
  | cons item rest ih =>
    obtain ⟨input,d⟩ := item
    obtain ⟨key,about⟩ := sections.subject (List.mem_cons_self (a := (input,d)))
    obtain ⟨add,added,_⟩ := sections.confirms about
    rw [outputs,added,List.singleton_append,List.length_cons,ih sections.tail,List.length_cons]

theorem documentStale_again {now : Int} {f : Engine}
    (sections : Sections env scope.withDefaultTenant doc.project e (documentItems doc scope opts draws))
    (memories : f.memories = (run (writeNext env) e (documentItems doc scope opts draws)).memories.upsertRows
      (documentStale env e doc scope opts now)) (now' : Int) : documentStale env f doc scope opts now' = [] := by
  apply List.eq_nil_iff_forall_not_mem.mpr
  intro row swept
  obtain ⟨m,listed,⟨subject,keyed,absent⟩,_⟩ := mem_sweepRows.mp swept
  obtain ⟨⟨stored,member,rfl⟩,inScope,active,under⟩ := mem_findActiveByDocument.mp listed
  rw [memories] at member
  rcases MemoryTable.mem_upsertRows member with ⟨written,gone,rfl⟩ | ⟨kept,apart⟩
  · cases (documentStale_gone gone).1.symm.trans active
  · rcases sections.rows stored kept with old | ⟨item,inside,about,_⟩
    · -- a row that stood before the import and is not produced was swept by it
      have previous : stored.memory ∈ e.memories.findActiveByDocument env scope doc.path :=
        mem_findActiveByDocument.mpr ⟨⟨stored,old,rfl⟩,inScope,active,under⟩
      exact apart _ (mem_sweepRows.mpr ⟨stored.memory,previous,⟨subject,keyed,absent⟩,rfl⟩) rfl
    · exact absent (produced_canonical (mem_withDraws inside).1 (about.symm.trans keyed))

variable (env e doc scope opts draws)

/-- An active chunk of the document in the scope and project of the import. -/
def IsSection (m : Memory) : Prop :=
  m.scope = scope.withDefaultTenant ∧ m.project = doc.project ∧ m.state = .active ∧
    ∃ subject ∈ documentProduced env (documentInputs doc scope opts), m.subject = some subject

/-- The second of two imports confirms every section and touches nothing but versions, importance and times of update. -/
def ReimportIdle (now : Int) (draws' : Nat → Draw) (now' : Int) : Prop :=
  ∃ result after, documentIngest env (documentIngest env e doc scope opts draws now).2 doc scope opts draws' now' =
      (.ok result,after) ∧
    result.chunks = (chunkMarkdown doc.content opts).length ∧ result.confirmed = result.chunks ∧ result.inserted = 0 ∧
    result.superseded = 0 ∧ result.removed = 0 ∧
    Touched (IsSection env doc scope opts) (documentIngest env e doc scope opts draws now).2.memories after.memories

/-- Governance lets every section in; every section has a subject, and those of one subject say the same; and where
review is on, a section that contradicts the newest version of its subject comes to stand before it. -/
structure Resettles : Prop where
  accepted : ∀ input ∈ documentInputs doc scope opts, Accepts env e.config input
  keyed : ∀ input ∈ documentInputs doc scope opts, (canonicalInput env input).subject ≠ none
  agree : ∀ first ∈ documentInputs doc scope opts, ∀ second ∈ documentInputs doc scope opts,
    (canonicalInput env first).subject = (canonicalInput env second).subject → trim first.content = trim second.content
  reviewed : e.config.cognition.contradictionReview = true → ∀ input ∈ documentInputs doc scope opts, ∀ subject,
    (canonicalInput env input).subject = some subject → ∀ m,
      newest e.memories scope.withDefaultTenant subject doc.project = some m → trim m.content ≠ trim input.content →
        doc.project = none ∧ ∃ item ∈ documentItems doc scope opts draws,
          (canonicalInput env item.1).subject = some subject ∧ m.validFrom < micros item.2.now

variable {env e doc scope opts draws}

theorem exists_documentItem {input : MemoryInput} (inside : input ∈ documentInputs doc scope opts) (draws : Nat → Draw) :
    ∃ item ∈ documentItems doc scope opts draws, item.1 = input := by
  have listed : input ∈ (documentItems doc scope opts draws).map Prod.fst := by
    rw [documentItems,withDraws_inputs]
    exact inside
  exact List.mem_map.mp listed

theorem resettles_iff
    (sections : Sections env scope.withDefaultTenant doc.project e (documentItems doc scope opts draws)) :
    Resettles env e doc scope opts draws ↔ ∀ input ∈ documentInputs doc scope opts, ∀ subject,
      (canonicalInput env input).subject = some subject → InFront scope.withDefaultTenant doc.project
        (run (writeNext env) e (documentItems doc scope opts draws)).memories subject (trim input.content) := by
  constructor
  · intro resettles input inside subject about
    have agree : ∀ item ∈ documentItems doc scope opts draws, (canonicalInput env item.1).subject = some subject →
        trim item.1.content = trim input.content := by
      intro item listed keyed
      exact resettles.agree item.1 (mem_withDraws listed).1 input inside (keyed.trans about.symm)
    obtain ⟨own,listed,rfl⟩ := exists_documentItem inside draws
    apply (sections.held_iff agree).mpr
    cases found : newest e.memories scope.withDefaultTenant subject doc.project with
    | none => exact Or.inr ⟨own,listed,about,Or.inl found⟩
    | some m =>
      by_cases same : trim m.content = trim own.1.content
      · exact Or.inl ⟨m,found,same⟩
      · cases review : e.config.cognition.contradictionReview with
        | false => exact Or.inr ⟨own,listed,about,Or.inr (Or.inl review)⟩
        | true =>
          obtain ⟨ungrouped,item,there,keyed,newer⟩ := resettles.reviewed review own.1 inside subject about m found same
          refine Or.inr ⟨item,there,keyed,Or.inr (Or.inr ⟨ungrouped,?_⟩)⟩
          intro other equal
          cases found.symm.trans equal
          exact newer
  · intro held
    have agree : ∀ first ∈ documentInputs doc scope opts, ∀ second ∈ documentInputs doc scope opts,
        (canonicalInput env first).subject = (canonicalInput env second).subject →
          trim first.content = trim second.content := by
      intro first inside second listed same
      obtain ⟨item,there,rfl⟩ := exists_documentItem inside draws
      obtain ⟨subject,about⟩ := sections.subject there
      obtain ⟨m,found,content⟩ := held item.1 inside subject about
      obtain ⟨other,equal,content'⟩ := held second listed subject (same.symm.trans about)
      cases found.symm.trans equal
      exact content.symm.trans content'
    refine ⟨?_,?_,agree,?_⟩
    · intro input inside
      obtain ⟨item,there,rfl⟩ := exists_documentItem inside draws
      exact sections.accepted item there
    · intro input inside
      obtain ⟨item,there,rfl⟩ := exists_documentItem inside draws
      exact sections.keyed item there
    · intro review input inside subject about m found differs
      have all : ∀ item ∈ documentItems doc scope opts draws, (canonicalInput env item.1).subject = some subject →
          trim item.1.content = trim input.content :=
        fun item listed keyed => agree item.1 (mem_withDraws listed).1 input inside (keyed.trans about.symm)
      rcases (sections.held_iff all).mp (held input inside subject about) with ⟨other,equal,same⟩ | overtaken
      · cases found.symm.trans equal
        exact absurd same differs
      · obtain ⟨item,listed,keyed,absent | off | ⟨ungrouped,newer⟩⟩ := overtaken
        · cases absent.symm.trans found
        · cases review.symm.trans off
        · exact ⟨ungrouped,item,listed,keyed,newer m found⟩

/-- What an import reads from outside: identifiers that are new, and vectors from a provider that answers alike to
texts that differ at most in the whitespace around them. -/
structure Readings (e : Engine) (items : List (MemoryInput × Draw)) (embed : String → Option (List Rat)) : Prop where
  fresh : ∀ item ∈ items, item.2.id ∉ e.memories.keys
  distinct : (items.map (fun item => item.2.id)).Nodup
  answers : ∀ item ∈ items, item.2.embedding = embed (trim item.1.content)

private theorem confirmed_all {added : List MemoryAdd} :
    countOutcomes added [.confirmed] = added.length ↔ ∀ add ∈ added, add.outcome = .confirmed := by
  rw [countOutcomes,List.countP_eq_length]
  simp

private theorem confirmed_none {added : List MemoryAdd} (all : ∀ add ∈ added, add.outcome = .confirmed)
    {outcomes : List MemoryOutcome} (apart : .confirmed ∉ outcomes) : countOutcomes added outcomes = 0 := by
  rw [countOutcomes,List.countP_eq_zero]
  intro add inside
  simpa [all add inside] using apart

private theorem documentItems_length : (documentItems doc scope opts draws).length = (documentInputs doc scope opts).length := by
  rw [← withDraws_inputs (documentInputs doc scope opts) draws,List.length_map]
  rfl

private theorem ReimportIdle.sections {now now' : Int} {draws' : Nat → Draw}
    (idle : ReimportIdle env e doc scope opts draws now draws' now') :
    (∀ input ∈ documentInputs doc scope opts, Accepts env e.config input) ∧
      ∀ input ∈ documentInputs doc scope opts, (canonicalInput env input).subject ≠ none := by
  obtain ⟨result,after,ok,_,confirmed,_⟩ := idle
  obtain ⟨added,rfl,each⟩ := documentIngest_answer ok
  have all : ∀ add ∈ added, add.outcome = .confirmed := by
    apply confirmed_all.mp
    rw [← each.length_eq,documentItems_length]
    exact confirmed
  have planned {input : MemoryInput} (inside : input ∈ documentInputs doc scope opts) :
      Accepts env e.config input ∧ (canonicalInput env input).subject ≠ none := by
    obtain ⟨item,listed,rfl⟩ := exists_documentItem inside draws'
    obtain ⟨add,inside,f,plan,config,made,same⟩ := exists_of_forall₂ each listed
    have outcome : plan.add.outcome = .confirmed := by
      rw [same]
      exact all add inside
    obtain ⟨accepted,cases⟩ := memoryPlanWithEmbedding_cases env made
    refine ⟨(config.trans documentIngest_config) ▸ accepted,?_⟩
    cases cases with
    | confirmed subject _ _ keyed => exact fun none => Option.some_ne_none subject (keyed.symm.trans none)
    | conflict => cases outcome
    | superseded => cases outcome
    | merged => cases outcome
    | inserted => cases outcome
  exact ⟨fun input inside => (planned inside).1,fun input inside => (planned inside).2⟩

/-- An import repeated at once is idle exactly when the document settles. -/
theorem reimport_idle_iff (e : Engine) (doc : DocumentIngest) (scope : MemoryScope) (opts : ChunkOptions)
    (draws draws' : Nat → Draw) (now now' : Int) (embed : String → Option (List Rat)) (recorded : RowsRecorded e.memories)
    (first : Readings e (documentItems doc scope opts draws) embed)
    (second : Readings (documentIngest env e doc scope opts draws now).2 (documentItems doc scope opts draws') embed) :
    ReimportIdle env e doc scope opts draws now draws' now' ↔ Resettles env e doc scope opts draws := by
  -- both sides give that every section is let in and has a subject
  suffices settled : (∀ input ∈ documentInputs doc scope opts, Accepts env e.config input) →
      (∀ input ∈ documentInputs doc scope opts, (canonicalInput env input).subject ≠ none) →
        (ReimportIdle env e doc scope opts draws now draws' now' ↔ Resettles env e doc scope opts draws) by
    constructor
    · intro idle
      exact (settled idle.sections.1 idle.sections.2).mp idle
    · intro resettles
      exact (settled resettles.accepted resettles.keyed).mpr resettles
  intro accepted keyed
  have sections := sections_of recorded accepted keyed first.fresh first.distinct
  obtain ⟨f,imported,memories,config⟩ := documentIngest_sections sections now
  rw [imported] at second
  have recordedF : RowsRecorded f.memories := by
    rw [memories]
    exact sections.recorded_run.upsertRows _
  have sections' := sections_of recordedF (by rwa [config]) keyed second.fresh second.distinct
  obtain ⟨g,again,memories',_⟩ := documentIngest_sections sections' now'
  have gone : ∀ row ∈ documentStale env e doc scope opts now, row.memory.state = .expired ∧
      ∃ old ∈ e.memories.rows, old.id = row.id ∧ ∃ subject, old.memory.subject = some subject ∧
        subject ∉ documentProduced env (documentInputs doc scope opts) := fun row => documentStale_gone
  have swept {input : MemoryInput} (inside : input ∈ documentInputs doc scope opts) {subject : String}
      (about : (canonicalInput env input).subject = some subject) := sections.swept gone (produced_canonical inside about)
  have front : (∀ item ∈ documentItems doc scope opts draws', ∀ subject, (canonicalInput env item.1).subject = some subject →
      InFront scope.withDefaultTenant doc.project f.memories subject (trim item.1.content)) ↔
        Resettles env e doc scope opts draws := by
    rw [resettles_iff sections,memories]
    constructor
    · intro held input inside subject about
      obtain ⟨item,listed,rfl⟩ := exists_documentItem inside draws'
      have after := held item listed subject about
      rwa [InFront,(swept inside about).1] at after
    · intro held item listed subject about
      have inside := (mem_withDraws listed).1
      rw [InFront,(swept inside about).1]
      exact held item.1 inside subject about
  rw [← front,← sections'.confirms_iff,ReimportIdle,imported]
  constructor
  · intro idle
    obtain ⟨result,after,ok,_,confirmed,_⟩ := idle
    rw [again] at ok
    cases ok
    apply confirmed_all.mp
    rw [sections'.outputs_length,documentItems_length]
    exact confirmed
  · intro all
    have held := sections'.confirms_iff.mp all
    have none := documentStale_again sections memories now'
    refine ⟨_,g,again,?_,?_,?_,?_,?_,?_⟩
    · exact documentInputs_length doc scope opts
    · exact (confirmed_all.mpr all).trans (sections'.outputs_length.trans documentItems_length)
    · exact confirmed_none all (by decide)
    · exact confirmed_none all (by decide)
    · exact congrArg List.length none
    · rw [memories',none]
      refine sections'.touched ?_ ?_
      · intro item listed subject about
        refine ⟨held item listed subject about,?_⟩
        intro m found
        obtain ⟨other,equal,content⟩ := held item listed subject about
        cases found.symm.trans equal
        have inside := (mem_withDraws listed).1
        have resettles := front.mp held
        -- every section of the subject has the same text, and so the same vector
        have alike : ∀ own ∈ documentItems doc scope opts draws, (canonicalInput env own.1).subject = some subject →
            trim own.1.content = trim item.1.content ∧ e.embedMemoryContent own.2 = f.embedMemoryContent item.2 := by
          intro own there keyed
          have same := resettles.agree own.1 (mem_withDraws there).1 item.1 inside (keyed.trans about.symm)
          refine ⟨same,?_⟩
          rw [Engine.embedMemoryContent,Engine.embedMemoryContent,config,first.answers own there,
            second.answers item listed,same]
        obtain ⟨own,there,equal⟩ := exists_documentItem inside draws
        have vectors := sections.vector_kept alike (Or.inl ⟨own,there,equal ▸ about⟩)
        rw [memories] at found ⊢
        have before := (swept inside about).1.symm.trans found
        exact (swept inside about).2 m _ before (vectors m before content)
      · intro item listed subject about m inHome keyed grouped active
        rw [MemoryScope.withDefaultTenant_withDefaultTenant] at inHome
        exact ⟨inHome,grouped,active,subject,produced_canonical (mem_withDraws listed).1 about,keyed⟩

end

def guideDoc (text : String) : DocumentIngest := ⟨"docs/a.md",text,.obj [],none,some "site"⟩

def importDraws (start i : Nat) : Draw := .plain (1000 * (start + i)) ⟨BitVec.ofNat 128 (start + i)⟩

def wideChunks : ChunkOptions := ⟨1200,2000⟩

/-- A guide with two headings, imported twice. -/
theorem reimport_idle_guide : ReimportIdle .ascii (.empty .default 2) (guideDoc "# Setup\nuse brew\n# Run\nmake\n")
    (.tenant "acme") wideChunks (importDraws 1) 9000 (importDraws 20) 90000 := by
  refine (reimport_idle_iff _ _ _ _ _ _ _ _ (fun _ => none) (by simp [RowsRecorded,Engine.empty,Table.empty]) ?_ ?_).mpr ?_
  · exact ⟨by decide +kernel,by decide +kernel,fun item inside => by
      obtain ⟨n,same⟩ := (mem_withDraws inside).2
      rw [same]
      rfl⟩
  · exact ⟨by decide +kernel,by decide +kernel,fun item inside => by
      obtain ⟨n,same⟩ := (mem_withDraws inside).2
      rw [same]
      rfl⟩
  · exact ⟨fun _ _ => rfl,by decide +kernel,by decide +kernel,fun review => by cases review⟩

/-- Two sections under one heading supersede each other on every import. -/
theorem reimport_supersedes : ¬ReimportIdle .ascii (.empty .default 2)
    (guideDoc "# Setup\nuse brew\n# Setup\nuse apt\n") (.tenant "acme") wideChunks (importDraws 1) 9000 (importDraws 20)
      90000 := by
  intro idle
  obtain ⟨result,after,ok,_,_,_,superseded,_⟩ := idle
  have twice : ((documentIngest .ascii (documentIngest .ascii (.empty .default 2)
      (guideDoc "# Setup\nuse brew\n# Setup\nuse apt\n") (.tenant "acme") wideChunks (importDraws 1) 9000).2
      (guideDoc "# Setup\nuse brew\n# Setup\nuse apt\n") (.tenant "acme") wideChunks (importDraws 20) 90000).1.toOption.map
        (fun result => result.superseded)) = some 2 := by decide +kernel
  rw [ok] at twice
  cases superseded.symm.trans (Option.some.inj twice)

end Ecphoria
