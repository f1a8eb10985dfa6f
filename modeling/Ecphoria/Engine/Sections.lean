import Ecphoria.Engine.Landing
import Ecphoria.Library.Sorted

/-! Inputs of one scope and project, each with a subject, written one after the other. An input
is confirmed when the newest active version of its subject has its text; a write brings its
text to the front unless review keeps an older version there. -/
namespace Ecphoria
open Library

/-- The memory differs at most in its version, its importance and the time of its update. -/
def Retouched (a b : Memory) : Prop :=
  b = { a with version := b.version, importance := b.importance, updatedAt := b.updatedAt }

/-- Row by row the tables agree, except that chosen rows are retouched. -/
def Touched (chosen : Memory → Prop) (t u : MemoryTable) : Prop :=
  List.Forall₂ (fun a b : MemoryRow => a = b ∨ chosen a.memory ∧ Retouched a.memory b.memory ∧ a.embedding = b.embedding)
    t.rows u.rows

def newest (t : MemoryTable) (home : MemoryScope) (subject : String) (project : Option String) : Option Memory :=
  (t.findActiveBySubject home subject project).head?

theorem Retouched.refl (m : Memory) : Retouched m m := rfl

theorem Retouched.kept {a b : Memory} (retouched : Retouched a b) : b.id = a.id ∧ b.content = a.content := by
  rw [retouched]
  exact ⟨rfl,rfl⟩

theorem Retouched.trans {a b c : Memory} (first : Retouched a b) (second : Retouched b c) : Retouched a c := by
  unfold Retouched at *
  rw [second,first]

theorem Touched.refl (chosen : Memory → Prop) (t : MemoryTable) : Touched chosen t t :=
  List.forall₂_same.mpr (fun _ _ => Or.inl rfl)

theorem newest_listed {t : MemoryTable} {home : MemoryScope} {subject : String} {project : Option String} {m : Memory}
    (found : newest t home subject project = some m) :
    ∃ row ∈ t.rows, row.memory = m ∧ m.scope = home.withDefaultTenant ∧ m.subject = some subject ∧
      m.project = project ∧ m.state = .active :=
  MemoryTable.mem_findActiveBySubject.mp (List.mem_of_head? found)

private theorem newestFirst_total (a b : Memory) : newestFirst a b ∨ newestFirst b a := le_total _ _

private theorem newestFirst_trans (a b c : Memory) (first : newestFirst a b) (second : newestFirst b c) :
    newestFirst a c := le_trans second first

theorem newest_appended {t : MemoryTable} {home : MemoryScope} {subject : String} {project : Option String}
    {row : MemoryRow} (fresh : row.id ∉ t.keys)
    (selected : MemoryTable.beliefFilter home subject project row.memory = true) :
    newest (t.upsertRows [row]) home subject project =
      match newest t home subject project with
      | none => some row.stored.memory
      | some m => if micros row.memory.validFrom ≤ m.validFrom then some m else some row.stored.memory := by
  have rows : (t.upsertRows [row]).rows = t.rows ++ [row.stored] := Table.rows_upsert_fresh t row.stored fresh
  have listed : (t.upsertRows [row]).memories.filter (MemoryTable.beliefFilter home subject project) =
      t.memories.filter (MemoryTable.beliefFilter home subject project) ++ [row.stored.memory] := by
    have chosen : MemoryTable.beliefFilter home subject project row.stored.memory = true := selected
    rw [MemoryTable.memories,rows,List.map_append,List.filter_append]
    simp [MemoryTable.memories,chosen]
  rw [newest,MemoryTable.findActiveBySubject,listed,
    head?_insertionSort_append newestFirst_total newestFirst_trans,newest,MemoryTable.findActiveBySubject]
  cases (List.insertionSort newestFirst (t.memories.filter (MemoryTable.beliefFilter home subject project))).head? with
  | none => rfl
  | some m => exact if_congr Iff.rfl rfl rfl

theorem newest_apart {t : MemoryTable} {rows : List MemoryRow} {home : MemoryScope} {subject : String}
    {project : Option String}
    (news : ∀ row ∈ rows, MemoryTable.beliefFilter home subject project row.memory = false)
    (olds : ∀ row ∈ rows, ∀ old ∈ t.rows, old.id = row.id →
      MemoryTable.beliefFilter home subject project old.memory = false) :
    newest (t.upsertRows rows) home subject project = newest t home subject project :=
  congrArg List.head? (MemoryTable.findActiveBySubject_apart news olds)

theorem Touched.memories {chosen : Memory → Prop} {t u : MemoryTable} (touched : Touched chosen t u) :
    List.Forall₂ Retouched (MemoryTable.memories t) (MemoryTable.memories u) := by
  refine List.forall₂_map_left_iff.mpr (List.forall₂_map_right_iff.mpr (touched.imp ?_))
  intro a b related
  rcases related with rfl | ⟨_,retouched,_⟩
  · exact .refl _
  · exact retouched

theorem newest_retouched {t u : MemoryTable} (memories : List.Forall₂ Retouched t.memories u.memories) (home : MemoryScope)
    (subject : String) (project : Option String) :
    Option.Rel Retouched (newest t home subject project) (newest u home subject project) := by
  have filtered : List.Forall₂ Retouched (t.memories.filter (MemoryTable.beliefFilter home subject project))
      (u.memories.filter (MemoryTable.beliefFilter home subject project)) := by
    refine List.rel_filter ?_ memories
    intro a b retouched
    rw [retouched]
    exact Iff.rfl
  have sorted : List.Forall₂ Retouched (t.findActiveBySubject home subject project)
      (u.findActiveBySubject home subject project) := by
    refine forall₂_insertionSort ?_ filtered
    intro a b a' b' first second
    rw [first,second]
    exact Iff.rfl
  unfold newest
  generalize t.findActiveBySubject home subject project = before at sorted
  generalize u.findActiveBySubject home subject project = after at sorted
  cases sorted with
  | nil => exact .none
  | cons first _ => exact .some first

section
variable (env : Env) (home : MemoryScope) (project : Option String)

/-- Inputs of one scope and project that governance lets in, each with a subject and a new identifier. -/
structure Sections (e : Engine) (items : List (MemoryInput × Draw)) : Prop where
  recorded : RowsRecorded e.memories
  placed : ∀ item ∈ items, (canonicalInput env item.1).scope = home ∧ item.1.project = project
  keyed : ∀ item ∈ items, (canonicalInput env item.1).subject ≠ none
  accepted : ∀ item ∈ items, Accepts env e.config item.1
  fresh : ∀ item ∈ items, item.2.id ∉ e.memories.keys
  distinct : (items.map (fun item => item.2.id)).Nodup

def InFront (t : MemoryTable) (subject content : String) : Prop :=
  ∃ m, newest t home subject project = some m ∧ trim m.content = content

/-- Confirming the row with this vector leaves the vector that it has. -/
def VectorStands (t : MemoryTable) (vector : Option (List Rat)) (id : Uuid) : Prop :=
  ∀ row ∈ t.rows, row.id = id → vector.or (row.embedding.filter (fun v => !v.isEmpty)) = row.embedding

/-- A section that differs from the newest version of its subject comes before it. -/
def Overtakes (e : Engine) (subject : String) (d : Draw) : Prop :=
  newest e.memories home subject project = none ∨ e.config.cognition.contradictionReview = false ∨
    project = none ∧ ∀ m, newest e.memories home subject project = some m → m.validFrom < micros d.now

variable {env home project}

theorem memoryPlan_keyed {e : Engine} {d : Draw} {input : MemoryInput} {subject : String}
    (accepted : Accepts env e.config input) (about : (canonicalInput env input).subject = some subject) :
    memoryPlan env e d input = .ok (planSubject e d (canonicalInput env input) (e.embedMemoryContent d) subject) := by
  have governed : checkGovernance env e.config (canonicalInput env input).scope (canonicalInput env input).subject
      (canonicalInput env input).metadata (canonicalInput env input).sourceEventIds = .ok () := accepted
  simp only [memoryPlan,memoryPlanWithEmbedding,governed]
  simp only [about]

theorem memoryPlan_unkeyed {e : Engine} {d : Draw} {input : MemoryInput} (accepted : Accepts env e.config input)
    (unkeyed : (canonicalInput env input).subject = none) :
    memoryPlan env e d input = planUnkeyed e d (canonicalInput env input) (e.embedMemoryContent d) := by
  have governed : checkGovernance env e.config (canonicalInput env input).scope (canonicalInput env input).subject
      (canonicalInput env input).metadata (canonicalInput env input).sourceEventIds = .ok () := accepted
  simp only [memoryPlan,memoryPlanWithEmbedding,governed]
  simp only [unkeyed]

theorem Sections.subject {e : Engine} {items : List (MemoryInput × Draw)} (sections : Sections env home project e items)
    {item : MemoryInput × Draw} (inside : item ∈ items) : ∃ subject, (canonicalInput env item.1).subject = some subject :=
  Option.ne_none_iff_exists'.mp (sections.keyed item inside)

theorem Sections.unmerged {e : Engine} {items : List (MemoryInput × Draw)}
    (sections : Sections env home project e items) : ∀ item ∈ items, Unmerged env e.config item.1 :=
  fun item inside => Or.inr (sections.keyed item inside)

theorem Sections.tail {e : Engine} {item : MemoryInput × Draw} {rest : List (MemoryInput × Draw)}
    (sections : Sections env home project e (item :: rest)) : Sections env home project (writeNext env e item) rest := by
  obtain ⟨first,others⟩ := List.nodup_cons.mp sections.distinct
  refine ⟨?_,?_,?_,?_,?_,others⟩
  · unfold writeNext
    split
    next => exact sections.recorded
    next => exact sections.recorded.upsertRows _
  · exact fun other inside => sections.placed other (List.mem_cons_of_mem item inside)
  · exact fun other inside => sections.keyed other (List.mem_cons_of_mem item inside)
  · intro other inside
    rw [writeNext_config]
    exact sections.accepted other (List.mem_cons_of_mem item inside)
  · intro other inside
    refine writeNext_unused (sections.unmerged item List.mem_cons_self) ?_
      (sections.fresh other (List.mem_cons_of_mem item inside))
    exact fun equal => first (List.mem_map.mpr ⟨other,inside,equal⟩)

theorem Sections.recorded_run {e : Engine} {items : List (MemoryInput × Draw)}
    (sections : Sections env home project e items) : RowsRecorded (run (writeNext env) e items).memories := by
  induction items generalizing e with
  | nil => exact sections.recorded
  | cons item rest ih => exact ih sections.tail

variable (home) in
structure SectionRow (e : Engine) (d : Draw) (input : MemoryInput) (subject : String) (row : MemoryRow) : Prop where
  id : row.id = d.id
  scope : row.memory.scope = home.withDefaultTenant
  subject : row.memory.subject = some subject
  content : row.memory.content = input.content
  state : row.memory.state = .active
  vector : row.embedding = e.embedMemoryContent d

theorem SectionRow.selected {e : Engine} {d : Draw} {input : MemoryInput} {subject : String} {row : MemoryRow}
    (new : SectionRow home e d input subject row) (grouped : row.memory.project = project) :
    MemoryTable.beliefFilter home subject project row.memory = true :=
  MemoryTable.beliefFilter_eq_true.mpr ⟨new.scope,new.subject,grouped,new.state⟩

variable (home project) in
/-- How a section is planned: by the newest active version of its subject. -/
inductive SectionPlan (e : Engine) (d : Draw) (input : MemoryInput) (subject : String) (planned : Planned) : Prop
  | inserted (row : MemoryRow) (written : planned.rows = [row]) (outcome : planned.add.outcome = .inserted)
      (new : SectionRow home e d input subject row) (grouped : row.memory.project = project)
      (absent : newest e.memories home subject project = none)
  | confirmed (m : Memory) (written : planned.rows = (planConfirmed e d (importanceOf e input)
      (e.embedMemoryContent d) m).rows) (outcome : planned.add.outcome = .confirmed)
      (found : newest e.memories home subject project = some m) (same : trim m.content = trim input.content)
  | conflict (row : MemoryRow) (m : Memory) (written : planned.rows = [row])
      (outcome : planned.add.outcome = .conflict) (new : SectionRow home e d input subject row)
      (ungrouped : row.memory.project = none) (since : row.memory.validFrom = d.now)
      (found : newest e.memories home subject project = some m) (differs : trim m.content ≠ trim input.content)
      (review : e.config.cognition.contradictionReview = true)
  | superseded (row : MemoryRow) (m : Memory) (others : List Memory) (validAt : Int)
      (written : planned.rows = (m :: others).map (closeRow validAt d.recordedAt) ++ [row])
      (outcome : planned.add.outcome = .superseded) (new : SectionRow home e d input subject row)
      (grouped : row.memory.project = project)
      (found : e.memories.findActiveBySubject home subject project = m :: others)
      (differs : trim m.content ≠ trim input.content) (off : e.config.cognition.contradictionReview = false)

theorem Sections.plan {e : Engine} {input : MemoryInput} {d : Draw} {rest : List (MemoryInput × Draw)} {subject : String}
    (sections : Sections env home project e ((input,d) :: rest))
    (about : (canonicalInput env input).subject = some subject) :
    ∃ planned, memoryPlan env e d input = .ok planned ∧ SectionPlan home project e d input subject planned := by
  obtain ⟨inHome,grouped⟩ := sections.placed (input,d) List.mem_cons_self
  refine ⟨_,memoryPlan_keyed (sections.accepted (input,d) List.mem_cons_self) about,?_⟩
  have lies : (canonicalInput env input).scope = home := inHome
  have member : (canonicalInput env input).project = project := grouped
  have settled : (canonicalInput env input).scope = home.withDefaultTenant := by
    rw [← lies]
    exact (MemoryScope.withDefaultTenant_withDefaultTenant input.scope).symm
  unfold planSubject
  rw [lies,member]
  cases found : e.memories.findActiveBySubject home subject project with
  | nil =>
    refine .inserted _ rfl rfl ⟨rfl,settled,about,rfl,rfl,rfl⟩ member ?_
    rw [newest,found]
    rfl
  | cons m others =>
    have first : newest e.memories home subject project = some m := by
      rw [newest,found]
      rfl
    dsimp only
    split
    next same => exact .confirmed m rfl rfl first same
    next differs =>
      split
      next review => exact .conflict _ m rfl rfl ⟨rfl,settled,rfl,rfl,rfl,rfl⟩ rfl rfl first differs review
      next off =>
        exact .superseded _ m others _ rfl rfl ⟨rfl,settled,rfl,rfl,rfl,rfl⟩ member found differs (by simpa using off)

theorem fresh_apart {t : MemoryTable} {row : MemoryRow} (fresh : row.id ∉ t.keys) {old : MemoryRow}
    (member : old ∈ t.rows) : old.id ≠ row.id :=
  fun equal => fresh ((Table.mem_keys _ _).mpr ⟨old,member,equal⟩)

private theorem vectorStands_new {t : MemoryTable} {row : MemoryRow} (rows : List MemoryRow) (fresh : row.id ∉ t.keys)
    (apart : ∀ other ∈ rows, other.id ∈ t.keys) : VectorStands (t.upsertRows (rows ++ [row])) row.embedding row.id := by
  intro stored member equal
  have own : stored = row.stored := by
    rcases MemoryTable.mem_upsertRows member with ⟨written,inside,rfl⟩ | ⟨old,_⟩
    · rcases List.mem_append.mp inside with inside | inside
      · exact absurd (equal ▸ apart written inside) fresh
      · rw [List.mem_singleton.mp inside]
    · exact absurd equal (fresh_apart fresh old)
  rw [own]
  change row.embedding.or (row.embedding.filter _) = row.embedding
  cases row.embedding <;> rfl

theorem newest_superseding {t : MemoryTable} {subject : String} {found : List Memory} {row : MemoryRow}
    (validAt recordedAt : Int) (listed : t.findActiveBySubject home subject project = found)
    (selected : MemoryTable.beliefFilter home subject project row.memory = true) :
    newest (t.upsertRows (found.map (closeRow validAt recordedAt) ++ [row])) home subject project =
      some row.stored.memory := by
  have only : ∀ m ∈ (t.upsertRows (found.map (closeRow validAt recordedAt) ++ [row])).findActiveBySubject home subject
      project, m = row.stored.memory := by
    intro m inside
    obtain ⟨stored,member,rfl,inHome,about,grouped,active⟩ := MemoryTable.mem_findActiveBySubject.mp inside
    rcases MemoryTable.mem_upsertRows member with ⟨written,chosen,rfl⟩ | ⟨old,apart⟩
    · rcases List.mem_append.mp chosen with closed | new
      · obtain ⟨m,_,rfl⟩ := List.mem_map.mp closed
        cases active
      · rw [List.mem_singleton.mp new]
    · -- an active version that was there is one of those that were closed
      have there : stored.memory ∈ found :=
        listed ▸ MemoryTable.mem_findActiveBySubject.mpr ⟨stored,old,rfl,inHome,about,grouped,active⟩
      exact absurd rfl (apart (closeRow validAt recordedAt stored.memory)
        (List.mem_append_left _ (List.mem_map_of_mem there)))
  have some : row.stored.memory ∈ (t.upsertRows (found.map (closeRow validAt recordedAt) ++ [row])).findActiveBySubject
      home subject project := by
    obtain ⟨inHome,about,grouped,active⟩ := MemoryTable.beliefFilter_eq_true.mp selected
    refine MemoryTable.mem_findActiveBySubject.mpr ⟨row.stored,?_,rfl,inHome,about,grouped,active⟩
    rw [MemoryTable.upsertRows_append]
    exact (Table.mem_upsert _ _ _).mpr (Or.inl rfl)
  rw [newest]
  cases shape : (t.upsertRows (found.map (closeRow validAt recordedAt) ++ [row])).findActiveBySubject home subject
      project with
  | nil =>
    rw [shape] at some
    cases some
  | cons m others =>
    rw [only m (shape ▸ List.mem_cons_self)]
    rfl

theorem confirmed_rows {e : Engine} {row : MemoryRow} (recorded : RowsRecorded e.memories)
    (member : row ∈ e.memories.rows) (d : Draw) (importance : Rat) (vector : Option (List Rat)) :
    ∃ confirmed : MemoryRow, Retouched row.memory confirmed.memory ∧
      confirmed.embedding = vector.or (row.embedding.filter (fun v => !v.isEmpty)) ∧
      (e.memories.upsertRows (planConfirmed e d importance vector row.memory).rows).rows =
        e.memories.rows.map (fun old => if old.id = row.id then confirmed else old) := by
  have kept := congrArg MemoryRow.memory (recorded row member)
  have since : micros row.memory.validFrom = row.memory.validFrom := congrArg Memory.validFrom kept
  have till : row.memory.validTo.map micros = row.memory.validTo := congrArg Memory.validTo kept
  have created : micros row.memory.createdAt = row.memory.createdAt := congrArg Memory.createdAt kept
  have found : e.memories.find row.memory.id = some row := (Table.find_eq_some _ _ _).mpr ⟨member,rfl⟩
  refine ⟨MemoryRow.stored ⟨(planConfirmed e d importance vector row.memory).add.memory,
    vector.or (e.memories.getEmbedding row.memory.id)⟩,?_,?_,?_⟩
  · simp only [Retouched,MemoryRow.stored,planConfirmed,Planned.add,since,till,created]
  · simp only [MemoryRow.stored,MemoryTable.getEmbedding,found]
    rfl
  · exact Table.rows_upsert_present e.memories _ ((Table.mem_keys _ _).mpr ⟨row,member,rfl⟩)

theorem confirmed_memories {e : Engine} {m : Memory} {subject : String} (recorded : RowsRecorded e.memories)
    (found : newest e.memories home subject project = some m) (d : Draw) (importance : Rat) (vector : Option (List Rat)) :
    List.Forall₂ Retouched e.memories.memories
      (e.memories.upsertRows (planConfirmed e d importance vector m).rows).memories := by
  obtain ⟨row,member,rfl,_⟩ := newest_listed found
  obtain ⟨confirmed,retouched,_,rows⟩ := confirmed_rows recorded member d importance vector
  rw [MemoryTable.memories,MemoryTable.memories,rows,List.map_map]
  refine List.forall₂_map_left_iff.mpr (List.forall₂_map_right_iff.mpr (List.forall₂_same.mpr ?_))
  intro old inside
  by_cases equal : old.id = row.id
  · cases e.memories.eq_of_key inside member equal
    simpa using retouched
  · simpa [equal] using Retouched.refl old.memory

private theorem or_filter_settles {α : Type} (p : α → Bool) (first second : Option α) :
    first.or ((first.or (second.filter p)).filter p) = first.or (second.filter p) := by
  cases first with
  | some a => rfl
  | none => cases second <;> simp [Option.filter_filter]

private theorem fronts {e : Engine} {d : Draw} {input : MemoryInput} {subject : String} {rows : List MemoryRow}
    {row : MemoryRow} (new : SectionRow home e d input subject row) (fresh : d.id ∉ e.memories.keys)
    (known : ∀ other ∈ rows, other.id ∈ e.memories.keys)
    (first : newest (e.memories.upsertRows (rows ++ [row])) home subject project = some row.stored.memory) :
    InFront home project (e.memories.upsertRows (rows ++ [row])) subject (trim input.content) ∧
      ∀ m, newest (e.memories.upsertRows (rows ++ [row])) home subject project = some m →
        VectorStands (e.memories.upsertRows (rows ++ [row])) (e.embedMemoryContent d) m.id := by
  refine ⟨⟨_,first,congrArg trim new.content⟩,?_⟩
  intro m found
  cases first.symm.trans found
  rw [← new.vector]
  exact vectorStands_new rows (by rwa [new.id]) known

variable (home project) in
/-- Whether the text stands in front in the table after the write, and with which vector. -/
def SectionWritten (e : Engine) (t : MemoryTable) (d : Draw) (input : MemoryInput) (subject : String) : Prop :=
  (InFront home project t subject (trim input.content) ↔
      InFront home project e.memories subject (trim input.content) ∨ Overtakes home project e subject d) ∧
    (¬InFront home project t subject (trim input.content) →
      newest t home subject project = newest e.memories home subject project) ∧
    ∀ m, newest t home subject project = some m → trim m.content = trim input.content →
      VectorStands t (e.embedMemoryContent d) m.id

section
variable {e : Engine} {d : Draw} {input : MemoryInput} {subject : String} {row : MemoryRow} {m : Memory}

theorem SectionWritten.of_front {t : MemoryTable}
    (front : InFront home project t subject (trim input.content) ∧
      ∀ m, newest t home subject project = some m → VectorStands t (e.embedMemoryContent d) m.id)
    (before : InFront home project e.memories subject (trim input.content) ∨ Overtakes home project e subject d) :
    SectionWritten home project e t d input subject :=
  ⟨iff_of_true front.1 before,fun no => absurd front.1 no,fun m found _ => front.2 m found⟩

theorem SectionWritten.of_behind {t : MemoryTable} (found : newest e.memories home subject project = some m)
    (differs : trim m.content ≠ trim input.content)
    (stays : newest t home subject project = newest e.memories home subject project)
    (behind : ¬Overtakes home project e subject d) : SectionWritten home project e t d input subject := by
  have elsewhere : ¬InFront home project e.memories subject (trim input.content) := by
    rintro ⟨other,equal,same⟩
    cases found.symm.trans equal
    exact differs same
  have unheld : ¬InFront home project t subject (trim input.content) := by
    intro held
    rw [InFront,stays] at held
    exact elsewhere held
  refine ⟨iff_of_false unheld (fun either => either.elim elsewhere behind),fun _ => stays,?_⟩
  intro other equal same
  exact absurd ⟨other,equal,same⟩ unheld

theorem confirmed_written (recorded : RowsRecorded e.memories) (found : newest e.memories home subject project = some m)
    (same : trim m.content = trim input.content) : SectionWritten home project e (e.memories.upsertRows
      (planConfirmed e d (importanceOf e input) (e.embedMemoryContent d) m).rows) d input subject := by
  have memories := confirmed_memories recorded found d (importanceOf e input) (e.embedMemoryContent d)
  have related := newest_retouched memories home subject project
  obtain ⟨row,member,rfl,_⟩ := newest_listed found
  obtain ⟨confirmed,retouched,vector,rows⟩ := confirmed_rows recorded member d (importanceOf e input)
    (e.embedMemoryContent d)
  generalize e.memories.upsertRows (planConfirmed e d (importanceOf e input) (e.embedMemoryContent d) row.memory).rows =
    after at *
  rw [found] at related
  obtain ⟨m,now,stays⟩ : ∃ m, newest after home subject project = some m ∧ Retouched row.memory m := by
    cases front : newest after home subject project with
    | none =>
      rw [front] at related
      cases related
    | some m =>
      rw [front] at related
      cases related with
      | some stays => exact ⟨m,rfl,stays⟩
  obtain ⟨id,content⟩ := stays.kept
  refine .of_front ⟨⟨m,now,content ▸ same⟩,?_⟩ (Or.inl ⟨row.memory,found,same⟩)
  intro other equal stored inside own
  cases now.symm.trans equal
  rw [rows] at inside
  obtain ⟨old,there,made⟩ := List.mem_map.mp inside
  by_cases equal : old.id = row.id
  · rw [← made,if_pos equal,vector]
    exact or_filter_settles _ _ _
  · rw [if_neg equal] at made
    exact absurd ((congrArg MemoryRow.id made).trans (own.trans id)) equal

section
variable (new : SectionRow home e d input subject row) (fresh : d.id ∉ e.memories.keys)
  (ungrouped : row.memory.project = none)
  (differs : trim m.content ≠ trim input.content) (review : e.config.cognition.contradictionReview = true)
include new fresh ungrouped differs review

/-- A row for review has no project, so a section of a project is not overtaken by it. -/
theorem conflict_apart (found : newest e.memories home subject project = some m) (elsewhere : project ≠ none) :
    SectionWritten home project e (e.memories.upsertRows [row]) d input subject := by
  refine .of_behind found differs (newest_apart ?_ ?_) ?_
  · intro written inside
    cases List.mem_singleton.mp inside
    apply Bool.eq_false_iff.mpr
    intro selected
    exact elsewhere ((MemoryTable.beliefFilter_eq_true.mp selected).2.2.1.symm.trans ungrouped)
  · intro written inside old member equal
    cases List.mem_singleton.mp inside
    exact absurd equal (fresh_apart (by rwa [new.id]) member)
  · rintro (absent | off | ⟨none,_⟩)
    · cases found.symm.trans absent
    · cases review.symm.trans off
    · exact elsewhere none

theorem conflict_written (since : row.memory.validFrom = d.now)
    (found : newest e.memories home subject none = some m) :
    SectionWritten home none e (e.memories.upsertRows [row]) d input subject := by
  have front := newest_appended (by rwa [new.id] : row.id ∉ e.memories.keys) (new.selected ungrouped)
  rw [found,since] at front
  dsimp only at front
  by_cases behind : micros d.now ≤ m.validFrom
  · rw [if_pos behind] at front
    refine .of_behind found differs (front.trans found.symm) ?_
    rintro (absent | off | ⟨_,newer⟩)
    · cases found.symm.trans absent
    · cases review.symm.trans off
    · exact absurd (newer m found) (not_lt.mpr behind)
  · rw [if_neg behind] at front
    refine .of_front (fronts new fresh (List.forall_mem_nil _) front) (Or.inr (Or.inr (Or.inr ⟨rfl,?_⟩)))
    intro other equal
    cases found.symm.trans equal
    exact not_le.mp behind

end

end

theorem Sections.step {e : Engine} {input : MemoryInput} {d : Draw} {rest : List (MemoryInput × Draw)} {subject : String}
    (sections : Sections env home project e ((input,d) :: rest))
    (about : (canonicalInput env input).subject = some subject) :
    SectionWritten home project e (writeNext env e (input,d)).memories d input subject := by
  obtain ⟨planned,ok,plan⟩ := sections.plan about
  have fresh : d.id ∉ e.memories.keys := sections.fresh (input,d) List.mem_cons_self
  rw [writeNext_planned env ok]
  cases plan with
  | inserted row written _ new grouped absent =>
    rw [written]
    have first : newest (e.memories.upsertRows [row]) home subject project = some row.stored.memory := by
      rw [newest_appended (by rwa [new.id]) (new.selected grouped),absent]
    exact .of_front (fronts new fresh (List.forall_mem_nil _) first) (Or.inr (Or.inl absent))
  | confirmed m written _ found same =>
    rw [written]
    exact confirmed_written sections.recorded found same
  | conflict row m written _ new ungrouped since found differs review =>
    rw [written]
    by_cases alone : project = none
    · subst alone
      exact conflict_written new fresh ungrouped differs review since found
    · exact conflict_apart new fresh ungrouped differs review found alone
  | superseded row m others validAt written _ new grouped found differs off =>
    rw [written]
    have first := newest_superseding validAt d.recordedAt found (new.selected grouped)
    have known : ∀ closed ∈ (m :: others).map (closeRow validAt d.recordedAt), closed.id ∈ e.memories.keys := by
      intro closed inside
      obtain ⟨m,listed,rfl⟩ := List.mem_map.mp inside
      obtain ⟨old,member,rfl,_⟩ := MemoryTable.mem_findActiveBySubject.mp (found ▸ listed)
      exact (Table.mem_keys _ _).mpr ⟨old,member,rfl⟩
    exact .of_front (fronts new fresh known first) (Or.inr (Or.inr (Or.inl off)))

theorem Sections.apart {e : Engine} {input : MemoryInput} {d : Draw} {rest : List (MemoryInput × Draw)}
    {subject other : String} (sections : Sections env home project e ((input,d) :: rest))
    (about : (canonicalInput env input).subject = some subject) (differs : other ≠ subject) :
    newest (writeNext env e (input,d)).memories home other project = newest e.memories home other project ∧
      ∀ m vector, newest e.memories home other project = some m → VectorStands e.memories vector m.id →
        VectorStands (writeNext env e (input,d)).memories vector m.id := by
  obtain ⟨planned,ok,_⟩ := sections.plan about
  have rows {row : MemoryRow} (inside : row ∈ planned.rows) :=
    memoryPlan_rows env (sections.unmerged (input,d) List.mem_cons_self) ok inside
  have fresh : d.id ∉ e.memories.keys := sections.fresh (input,d) List.mem_cons_self
  have replaced {row : MemoryRow} (inside : row ∈ planned.rows) {old : MemoryRow} (member : old ∈ e.memories.rows)
      (equal : old.id = row.id) : old.memory.subject = some subject := by
    rcases (rows inside).1 with drawn | ⟨known,there,same,_,kept⟩
    · exact absurd ((Table.mem_keys _ _).mpr ⟨old,member,equal.trans drawn⟩) fresh
    · cases e.memories.eq_of_key member there (equal.trans same.symm)
      exact kept.trans ((rows inside).2.2.trans about)
  rw [writeNext_planned env ok]
  refine ⟨newest_apart ?_ ?_,?_⟩
  · intro row inside
    apply Bool.eq_false_iff.mpr
    intro selected
    have keyed := (MemoryTable.beliefFilter_eq_true.mp selected).2.1
    rw [(rows inside).2.2,about] at keyed
    exact differs (Option.some.inj keyed).symm
  · intro row inside old member equal
    apply Bool.eq_false_iff.mpr
    intro selected
    have keyed := (MemoryTable.beliefFilter_eq_true.mp selected).2.1
    rw [replaced inside member equal] at keyed
    exact differs (Option.some.inj keyed).symm
  · intro m vector found stands row member equal
    obtain ⟨old,there,rfl,_,keyed,_⟩ := newest_listed found
    rcases MemoryTable.mem_upsertRows member with ⟨written,inside,rfl⟩ | ⟨kept,_⟩
    · have same : old.id = written.id := equal.symm
      rw [replaced inside there same] at keyed
      exact absurd (Option.some.inj keyed).symm differs
    · exact stands row kept equal

theorem Overtakes.congr {e f : Engine} {subject : String} {d : Draw} (config : f.config = e.config)
    (same : newest f.memories home subject project = newest e.memories home subject project) :
    Overtakes home project f subject d ↔ Overtakes home project e subject d := by
  rw [Overtakes,Overtakes,config,same]

/-- The sections of a subject that all say the same end with it in front, if it was or if one of them comes before
what was. -/
theorem Sections.held_iff {e : Engine} {items : List (MemoryInput × Draw)} {subject content : String}
    (sections : Sections env home project e items)
    (agree : ∀ item ∈ items, (canonicalInput env item.1).subject = some subject → trim item.1.content = content) :
    InFront home project (run (writeNext env) e items).memories subject content ↔
      InFront home project e.memories subject content ∨
        ∃ item ∈ items, (canonicalInput env item.1).subject = some subject ∧ Overtakes home project e subject item.2 := by
  induction items generalizing e with
  | nil => simp
  | cons item rest ih =>
    obtain ⟨input,d⟩ := item
    obtain ⟨key,about⟩ := sections.subject (List.mem_cons_self (a := (input,d)))
    have config := writeNext_config env e (input,d)
    rw [run_cons,ih sections.tail (fun other inside => agree other (List.mem_cons_of_mem _ inside))]
    simp only [List.mem_cons,exists_eq_or_imp]
    by_cases own : key = subject
    · subst own
      have told := agree (input,d) List.mem_cons_self about
      obtain ⟨step,stays,_⟩ := sections.step about
      dsimp only at told
      rw [told] at step stays
      by_cases held : InFront home project (writeNext env e (input,d)).memories key content
      · refine iff_of_true (Or.inl held) ?_
        rcases step.mp held with before | overtakes
        · exact Or.inl before
        · exact Or.inr (Or.inl ⟨about,overtakes⟩)
      · have before : ¬InFront home project e.memories key content := fun given => held (step.mpr (Or.inl given))
        have here : ¬Overtakes home project e key d := fun given => held (step.mpr (Or.inr given))
        simp only [held,before,here,and_false,false_or,Overtakes.congr config (stays held)]
    · have kept := (sections.apart about (Ne.symm own)).1
      have absent : (canonicalInput env input).subject ≠ some subject := by
        rw [about]
        exact fun same => own (Option.some.inj same)
      simp only [InFront,kept,absent,false_and,false_or,Overtakes.congr config kept]

/-- When the sections of a subject say the same and get the same vector, its newest version ends with that vector. -/
theorem Sections.vector_kept {e : Engine} {items : List (MemoryInput × Draw)} {subject content : String}
    {vector : Option (List Rat)} (sections : Sections env home project e items)
    (agree : ∀ item ∈ items, (canonicalInput env item.1).subject = some subject →
      trim item.1.content = content ∧ e.embedMemoryContent item.2 = vector)
    (settles : (∃ item ∈ items, (canonicalInput env item.1).subject = some subject) ∨
      ∀ m, newest e.memories home subject project = some m → trim m.content = content →
        VectorStands e.memories vector m.id) :
    ∀ m, newest (run (writeNext env) e items).memories home subject project = some m → trim m.content = content →
      VectorStands (run (writeNext env) e items).memories vector m.id := by
  induction items generalizing e with
  | nil => simpa using settles
  | cons item rest ih =>
    obtain ⟨input,d⟩ := item
    obtain ⟨key,about⟩ := sections.subject (List.mem_cons_self (a := (input,d)))
    have config := writeNext_config env e (input,d)
    refine ih sections.tail ?_ ?_
    · intro other inside keyed
      rw [Engine.embedMemoryContent,config]
      exact agree other (List.mem_cons_of_mem _ inside) keyed
    · by_cases own : key = subject
      · subst own
        obtain ⟨told,answered⟩ := agree (input,d) List.mem_cons_self about
        obtain ⟨_,_,stands⟩ := sections.step about
        dsimp only at told answered
        rw [told,answered] at stands
        exact Or.inr stands
      · obtain ⟨kept,vectors⟩ := sections.apart about (Ne.symm own)
        rcases settles with ⟨other,inside,keyed⟩ | stands
        · rcases List.mem_cons.mp inside with rfl | later
          · exact absurd (Option.some.inj (about.symm.trans keyed)) own
          · exact Or.inl ⟨other,later,keyed⟩
        · rw [kept]
          exact Or.inr (fun m found same => vectors m vector found (stands m found same))

theorem Touched.trans {chosen : Memory → Prop} {t u v : MemoryTable} (first : Touched chosen t u)
    (second : Touched chosen u v) : Touched chosen t v := by
  unfold Touched at *
  generalize t.rows = a at *
  generalize u.rows = b at *
  generalize v.rows = c at *
  induction first generalizing c with
  | nil =>
    cases second
    exact .nil
  | cons here _ ih =>
    cases second with
    | cons next later =>
      refine .cons ?_ (ih _ later)
      rcases here with rfl | ⟨among,retouched,vector⟩
      · exact next
      · rcases next with rfl | ⟨_,again,same⟩
        · exact Or.inr ⟨among,retouched,vector⟩
        · exact Or.inr ⟨among,retouched.trans again,vector.trans same⟩

theorem Touched.stands {chosen : Memory → Prop} {t u : MemoryTable} (touched : Touched chosen t u)
    {vector : Option (List Rat)} {id : Uuid} (stands : VectorStands t vector id) : VectorStands u vector id := by
  intro row member equal
  obtain ⟨old,there,related⟩ : ∃ old ∈ t.rows, old = row ∨ chosen old.memory ∧
      Retouched old.memory row.memory ∧ old.embedding = row.embedding := by
    obtain ⟨i,bound,rfl⟩ := List.mem_iff_getElem.mp member
    have same := touched.length_eq
    exact ⟨t.rows[i],List.getElem_mem _,touched.get (by omega) bound⟩
  rcases related with rfl | ⟨_,retouched,vectors⟩
  · exact stands old there equal
  · rw [← vectors]
    exact stands old there (retouched.kept.1.symm.trans equal)

theorem held_retouched {t u : MemoryTable} (memories : List.Forall₂ Retouched t.memories u.memories)
    {subject content : String} : InFront home project u subject content ↔ InFront home project t subject content := by
  have related := newest_retouched memories home subject project
  unfold InFront
  generalize newest t home subject project = before at related
  generalize newest u home subject project = after at related
  cases related with
  | none => simp
  | some retouched => simp [retouched.kept.2]

theorem Sections.confirms {e : Engine} {input : MemoryInput} {d : Draw} {rest : List (MemoryInput × Draw)}
    {subject : String} (sections : Sections env home project e ((input,d) :: rest))
    (about : (canonicalInput env input).subject = some subject) :
    ∃ add, addOf env e (input,d) = [add] ∧
      (add.outcome = .confirmed ↔ InFront home project e.memories subject (trim input.content)) := by
  obtain ⟨planned,ok,plan⟩ := sections.plan about
  refine ⟨planned.add,by rw [addOf,ok],?_⟩
  have unheld {m : Memory} (found : newest e.memories home subject project = some m)
      (differs : trim m.content ≠ trim input.content) :
      ¬InFront home project e.memories subject (trim input.content) := by
    intro held
    obtain ⟨other,equal,same⟩ := held
    cases found.symm.trans equal
    exact differs same
  cases plan with
  | inserted row _ outcome _ _ absent =>
    refine iff_of_false (by simp [outcome]) ?_
    intro held
    obtain ⟨m,found,_⟩ := held
    cases absent.symm.trans found
  | confirmed m _ outcome found same => exact iff_of_true outcome ⟨m,found,same⟩
  | conflict row m _ outcome _ _ _ found differs _ => exact iff_of_false (by simp [outcome]) (unheld found differs)
  | superseded row m others _ _ outcome _ _ found differs _ =>
    exact iff_of_false (by simp [outcome]) (unheld (by rw [newest,found]; rfl) differs)

theorem Sections.retouches {e : Engine} {input : MemoryInput} {d : Draw} {rest : List (MemoryInput × Draw)}
    {subject : String} (sections : Sections env home project e ((input,d) :: rest))
    (about : (canonicalInput env input).subject = some subject)
    (held : InFront home project e.memories subject (trim input.content)) :
    List.Forall₂ Retouched e.memories.memories (writeNext env e (input,d)).memories.memories ∧
      ∀ chosen : Memory → Prop, (∀ m, newest e.memories home subject project = some m →
        chosen m ∧ VectorStands e.memories (e.embedMemoryContent d) m.id) →
          Touched chosen e.memories (writeNext env e (input,d)).memories := by
  obtain ⟨planned,ok,plan⟩ := sections.plan about
  obtain ⟨m,found,same⟩ := held
  have written : planned.rows = (planConfirmed e d (importanceOf e input) (e.embedMemoryContent d) m).rows := by
    cases plan with
    | inserted _ _ _ _ _ absent => cases absent.symm.trans found
    | confirmed other written _ equal _ =>
      cases found.symm.trans equal
      exact written
    | conflict _ other _ _ _ _ _ equal differs _ =>
      cases found.symm.trans equal
      exact absurd same differs
    | superseded _ other others _ _ _ _ _ listed differs _ =>
      rw [newest,listed] at found
      cases found
      exact absurd same differs
  rw [writeNext_planned env ok,written]
  refine ⟨confirmed_memories sections.recorded found d _ _,?_⟩
  intro chosen allowed
  obtain ⟨among,stands⟩ := allowed m found
  obtain ⟨row,member,rfl,_⟩ := newest_listed found
  obtain ⟨confirmed,retouched,vector,rows⟩ := confirmed_rows sections.recorded member d (importanceOf e input)
    (e.embedMemoryContent d)
  unfold Touched
  dsimp only
  rw [rows]
  refine List.forall₂_map_right_iff.mpr (List.forall₂_same.mpr ?_)
  intro old inside
  by_cases equal : old.id = row.id
  · cases e.memories.eq_of_key inside member equal
    rw [if_pos rfl]
    exact Or.inr ⟨among,retouched,(stands row member rfl).symm.trans vector.symm⟩
  · rw [if_neg equal]
    exact Or.inl rfl

/-- Every section is confirmed exactly when every one is what the newest version of its subject says. -/
theorem Sections.confirms_iff {e : Engine} {items : List (MemoryInput × Draw)}
    (sections : Sections env home project e items) :
    (∀ add ∈ outputs (writeNext env) (addOf env) e items, add.outcome = .confirmed) ↔
      ∀ item ∈ items, ∀ subject, (canonicalInput env item.1).subject = some subject →
        InFront home project e.memories subject (trim item.1.content) := by
  induction items generalizing e with
  | nil => simp [outputs]
  | cons item rest ih =>
    obtain ⟨input,d⟩ := item
    obtain ⟨key,about⟩ := sections.subject (List.mem_cons_self (a := (input,d)))
    obtain ⟨add,added,outcome⟩ := sections.confirms about
    have first : (∀ subject, (canonicalInput env input).subject = some subject →
        InFront home project e.memories subject (trim input.content)) ↔ add.outcome = .confirmed := by
      rw [outcome]
      constructor
      · exact fun all => all key about
      · intro held subject keyed
        cases about.symm.trans keyed
        exact held
    simp only [outputs,added,List.singleton_append,List.forall_mem_cons,first]
    refine and_congr_right ?_
    intro confirmed
    rw [ih sections.tail]
    have memories := (sections.retouches about (outcome.mp confirmed)).1
    simp only [held_retouched memories]

theorem Sections.touched {e : Engine} {items : List (MemoryInput × Draw)} {chosen : Memory → Prop}
    (sections : Sections env home project e items)
    (held : ∀ item ∈ items, ∀ subject, (canonicalInput env item.1).subject = some subject →
      InFront home project e.memories subject (trim item.1.content) ∧
        ∀ m, newest e.memories home subject project = some m →
          VectorStands e.memories (e.embedMemoryContent item.2) m.id)
    (among : ∀ item ∈ items, ∀ subject, (canonicalInput env item.1).subject = some subject → ∀ m : Memory,
      m.scope = home.withDefaultTenant → m.subject = some subject → m.project = project → m.state = .active → chosen m) :
    Touched chosen e.memories (run (writeNext env) e items).memories := by
  induction items generalizing e with
  | nil => exact .refl chosen e.memories
  | cons item rest ih =>
    obtain ⟨input,d⟩ := item
    obtain ⟨key,about⟩ := sections.subject (List.mem_cons_self (a := (input,d)))
    obtain ⟨here,stands⟩ := held (input,d) List.mem_cons_self key about
    have step : Touched chosen e.memories (writeNext env e (input,d)).memories := by
      refine (sections.retouches about here).2 chosen ?_
      intro m found
      obtain ⟨_,_,_,inHome,keyed,grouped,active⟩ := newest_listed found
      exact ⟨among (input,d) List.mem_cons_self key about m inHome keyed grouped active,stands m found⟩
    refine step.trans (ih sections.tail ?_ (fun other inside => among other (List.mem_cons_of_mem _ inside)))
    intro other inside subject keyed
    obtain ⟨there,vectors⟩ := held other (List.mem_cons_of_mem _ inside) subject keyed
    refine ⟨(held_retouched step.memories).mpr there,?_⟩
    intro m found
    have related := newest_retouched step.memories home subject project
    rw [found] at related
    cases before : newest e.memories home subject project with
    | none =>
      rw [before] at related
      cases related
    | some old =>
      rw [before] at related
      cases related with
      | some retouched =>
        rw [retouched.kept.1,Engine.embedMemoryContent,writeNext_config]
        exact step.stands (vectors old before)

end

end Ecphoria
