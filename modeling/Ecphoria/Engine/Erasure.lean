import Ecphoria.Engine.StateTenants

/-! What is left of a tenant that was erased. Beside the stores of the engine there
are the blobs of its attachments and an index for each modality; the sweeps reach
neither, nor three of the tables. -/
namespace Ecphoria
open Library

abbrev BlobStorage := Table (String × List UInt8) Prod.fst
abbrev MultiModalStore := Table (String × SemanticStore) Prod.fst

/-- The index of a modality is created with the width of its first vector. -/
def MultiModalStore.upsert (store : MultiModalStore) (modality : String) (entry : SemanticEntry) :
    Except Error MultiModalStore :=
  let index := ((store.find modality).map Prod.snd).getD (.withDimension entry.embedding.length)
  match index.upsert entry with
  | .error err => .error err
  | .ok index => .ok (Table.upsert store (modality,index))

/-- An engine with the attachment storage, the modal indexes and the image encoder wired to it, if any. -/
structure Deployment where
  engine : Engine
  attachments : BlobStorage
  modal : MultiModalStore
  imageEmbedding : Option (List UInt8 → Option (List Rat))

def attachmentKey (tenant : String) (id : Uuid) : String := "attachments/" ++ tenant ++ "/" ++ id.toString

namespace Deployment

def empty (config : CoreConfig) (dimension : Nat) : Deployment := ⟨.empty config dimension,.empty,.empty,none⟩

/-- A failed encoding or a vector of another width is logged and does not fail the upload. -/
def indexImage (n : Deployment) (attachment : AttachmentMeta) (bytes : List UInt8) : Deployment :=
  match n.imageEmbedding.bind (fun embedImage => embedImage bytes) with
  | none => n
  | some vector =>
    let entry : SemanticEntry := ⟨attachment.id,attachment.filename.getD "",vector,
      .obj [("attachment",.bool true),("tenant_id",.str attachment.tenantId)]⟩
    match n.modal.upsert "image" entry with
    | .error _ => n
    | .ok modal => { n with modal := modal }

def attachmentPut (n : Deployment) (tenant : String) (memoryId : Option Uuid) (contentType : String)
    (filename : Option String) (bytes : List UInt8) (id : Uuid) (now : Int) : Except Error AttachmentMeta × Deployment :=
  let key := attachmentKey tenant id
  let n := { n with attachments := n.attachments.upsert (key,bytes) }
  let attachment : AttachmentMeta := ⟨id,tenant,memoryId,contentType,filename,bytes.length,key,micros now⟩
  match n.engine.attachments.insert attachment with
  | none => (.error (.state "attachment insert"),n)
  | some records =>
    let n := { n with engine := { n.engine with attachments := records } }
    (.ok attachment,if "image/".toList.isPrefixOf contentType.toList then n.indexImage attachment bytes else n)

def deleteTenant (n : Deployment) (tenant : String) : DeletedTenant × Deployment :=
  let (summary,engine) := n.engine.deleteTenant tenant
  (summary,{ n with engine := engine })

end Deployment

/-- An entry without a tenant in its metadata is read as one of the default tenant. -/
def vectorOwner (entry : SemanticEntry) : String := (vectorTenant entry).getD "default"

def LexicalEntry.ownedBy (entry : LexicalEntry) (tenant : String) : Prop :=
  (tenantAgents tenant).toList <+: entry.scopeKey.toList

/-- No store has anything of the tenant. -/
structure Erased (n : Deployment) (tenant : String) : Prop where
  memories : ∀ row ∈ n.engine.memories.rows, row.memory.scope.tenantId ≠ tenant
  edges : ∀ row ∈ n.engine.edges.rows, row.tenantId ≠ tenant
  grants : ∀ row ∈ n.engine.grants.rows, row.tenantId ≠ tenant
  attachments : ∀ row ∈ n.engine.attachments.rows, row.tenantId ≠ tenant
  blobs : ∀ id, attachmentKey tenant id ∉ n.attachments.keys
  events : ∀ row ∈ n.engine.episodic.rows, row.tenantId ≠ tenant
  sessions : ∀ row ∈ n.engine.sessions.rows, row.tenantId ≠ tenant
  state : ∀ row ∈ n.engine.state.rows, ¬ StateOwned n.engine.runs tenant row.agentId
  runs : ∀ row ∈ n.engine.runs.rows, row.tenantId ≠ tenant
  eventVectors : ∀ entry ∈ n.engine.semantic.entries.rows, vectorOwner entry ≠ tenant
  memoryVectors : ∀ key, ∀ entry ∈ (n.engine.vectors.partitions key).entries.rows, vectorOwner entry ≠ tenant
  texts : ∀ entry ∈ n.engine.lexical.rows, ¬ entry.ownedBy tenant
  images : ∀ index ∈ n.modal.rows, ∀ entry ∈ index.2.entries.rows, vectorOwner entry ≠ tenant

/-- The tenant has nothing where no sweep reaches: in the grants, the attachments and their blobs, the runs and
the modal indexes, among the triggers, in the vectors and texts of memories it has no row of, and, for the default
tenant, under no name. -/
structure WithinSweeps (n : Deployment) (tenant : String) : Prop where
  grants : ∀ row ∈ n.engine.grants.rows, row.tenantId ≠ tenant
  attachments : ∀ row ∈ n.engine.attachments.rows, row.tenantId ≠ tenant
  blobs : ∀ id, attachmentKey tenant id ∉ n.attachments.keys
  runs : ∀ row ∈ n.engine.runs.rows, row.tenantId ≠ tenant
  images : ∀ index ∈ n.modal.rows, ∀ entry ∈ index.2.entries.rows, vectorOwner entry ≠ tenant
  triggers : ∀ row ∈ n.engine.state.rows, row.agentId ≠ triggerAgent tenant
  agents : tenant = "default" → ∀ row ∈ n.engine.state.rows, '\x1f' ∈ row.agentId.toList ∨ Reserved row.agentId
  labels : tenant = "default" → ∀ entry ∈ n.engine.semantic.entries.rows, vectorTenant entry ≠ none
  memoryVectors : ∀ key, ∀ entry ∈ (n.engine.vectors.partitions key).entries.rows, vectorOwner entry = tenant →
    ∃ row ∈ n.engine.memories.rows, row.id = entry.id ∧ row.memory.scope.tenantId = tenant
  texts : ∀ entry ∈ n.engine.lexical.rows, entry.ownedBy tenant →
    ∃ row ∈ n.engine.memories.rows, row.id = entry.id ∧ row.memory.scope.tenantId = tenant

theorem forgetAll_indexes (e : Engine) (ids : List Uuid) :
    (ids.foldl Engine.forgetIndexes e).semantic = e.semantic ∧
      (∀ key entry, entry ∈ ((ids.foldl Engine.forgetIndexes e).vectors.partitions key).entries.rows ↔
        entry ∈ (e.vectors.partitions key).entries.rows ∧ entry.id ∉ ids) ∧
      ∀ entry, entry ∈ (ids.foldl Engine.forgetIndexes e).lexical.rows ↔ entry ∈ e.lexical.rows ∧ entry.id ∉ ids := by
  induction ids generalizing e with
  | nil => simp
  | cons id ids ih =>
    obtain ⟨semantic,vectors,lexical⟩ := ih (e.forgetIndexes id)
    refine ⟨semantic,?_,?_⟩
    · intro key entry
      refine (vectors key entry).trans ?_
      rw [Engine.forgetIndexes,ScopedVectorIndex.mem_delete,List.mem_cons,not_or,and_assoc]
    · intro entry
      refine (lexical entry).trans ?_
      simp only [Engine.forgetIndexes,LexicalIndex.remove,Table.mem_delete,decide_eq_false_iff_not,List.mem_cons,not_or,
        and_assoc]

theorem SemanticStore.mem_deleteByTenant (store : SemanticStore) (tenant : String) (entry : SemanticEntry) :
    entry ∈ (store.deleteByTenant tenant).2.entries.rows ↔
      entry ∈ store.entries.rows ∧ vectorTenant entry ≠ some tenant := by
  have swept (ids : List Uuid) (store : SemanticStore) :
      entry ∈ (ids.foldl SemanticStore.delete store).entries.rows ↔ entry ∈ store.entries.rows ∧ entry.id ∉ ids := by
    induction ids generalizing store with
    | nil => simp
    | cons id ids ih =>
      rw [List.foldl_cons,ih,SemanticStore.mem_delete,List.mem_cons,not_or,and_assoc]
  rw [deleteByTenant,swept]
  refine and_congr_right (fun inside => not_congr ?_)
  constructor
  · intro listed
    obtain ⟨other,kept,same⟩ := List.mem_map.mp listed
    obtain ⟨there,owned⟩ := List.mem_filter.mp kept
    rw [← store.entries.eq_of_key there inside same]
    exact of_decide_eq_true owned
  · intro owned
    exact List.mem_map.mpr ⟨entry,List.mem_filter.mpr ⟨inside,decide_eq_true owned⟩,rfl⟩

namespace Engine

theorem deleteTenant_indexes (e : Engine) (tenant : String) :
    (∀ entry, entry ∈ (e.deleteTenant tenant).2.semantic.entries.rows ↔
        entry ∈ e.semantic.entries.rows ∧ vectorTenant entry ≠ some tenant) ∧
      (∀ key entry, entry ∈ ((e.deleteTenant tenant).2.vectors.partitions key).entries.rows ↔
        entry ∈ (e.vectors.partitions key).entries.rows ∧
          ¬ ∃ row ∈ e.memories.rows, row.id = entry.id ∧ row.memory.scope.tenantId = tenant) ∧
      ∀ entry, entry ∈ (e.deleteTenant tenant).2.lexical.rows ↔ entry ∈ e.lexical.rows ∧
        ¬ ∃ row ∈ e.memories.rows, row.id = entry.id ∧ row.memory.scope.tenantId = tenant := by
  have owned (id : Uuid) : id ∈ (e.memories.rows.filter (MemoryTable.ofTenant tenant)).map MemoryRow.id ↔
      ∃ row ∈ e.memories.rows, row.id = id ∧ row.memory.scope.tenantId = tenant := by
    simp only [List.mem_map,List.mem_filter,MemoryTable.ofTenant,decide_eq_true_eq]
    constructor
    · intro given
      obtain ⟨row,⟨inside,owner⟩,same⟩ := given
      exact ⟨row,inside,same,owner⟩
    · intro given
      obtain ⟨row,inside,same,owner⟩ := given
      exact ⟨row,⟨inside,owner⟩,same⟩
  obtain ⟨semantic,vectors,lexical⟩ := forgetAll_indexes
    { e.dropEvents tenant with
      memories := e.memories.delete (MemoryTable.ofTenant tenant)
      edges := e.edges.delete (fun row => row.tenantId = tenant) }
    ((e.memories.rows.filter (MemoryTable.ofTenant tenant)).map MemoryRow.id)
  refine ⟨?_,?_,?_⟩
  · intro entry
    have last : (e.deleteTenant tenant).2.semantic =
        (((e.dropEvents tenant).dropMemories tenant).semantic.deleteByTenant tenant).2 := rfl
    have kept : ((e.dropEvents tenant).dropMemories tenant).semantic = e.semantic := semantic
    rw [last,kept,SemanticStore.mem_deleteByTenant]
  · intro key entry
    exact (vectors key entry).trans (by rw [owned]; rfl)
  · intro entry
    exact (lexical entry).trans (by rw [owned]; rfl)

end Engine

theorem state_erased_iff (t : StateTable) {runs : RunTable} {tenant : String}
    (idle : ∀ run ∈ runs.rows, run.tenantId ≠ tenant) :
    (∀ row ∈ (t.delete (StateTable.hasPrefix (tenantAgents tenant))).rows, ¬ StateOwned runs tenant row.agentId) ↔
      (∀ row ∈ t.rows, row.agentId ≠ triggerAgent tenant) ∧
        (tenant = "default" → ∀ row ∈ t.rows, '\x1f' ∈ row.agentId.toList ∨ Reserved row.agentId) := by
  constructor
  · intro erased
    refine ⟨fun row inside trigger => ?_,fun named row inside => ?_⟩
    · exact erased row ((Table.mem_delete _ _ _).mpr ⟨inside,hasPrefix_triggerAgent trigger⟩) (Or.inr (Or.inl trigger))
    · by_contra bare
      obtain ⟨plain,free⟩ := not_or.mp bare
      have kept : StateTable.hasPrefix (tenantAgents tenant) row = false := by
        by_contra found
        exact plain (separator_of_hasPrefix (Bool.not_eq_false _ ▸ found))
      exact erased row ((Table.mem_delete _ _ _).mpr ⟨inside,kept⟩) (Or.inr (Or.inr (Or.inr ⟨named,plain,free⟩)))
  · intro given row inside owned
    obtain ⟨untriggered,prefixed⟩ := given
    obtain ⟨there,kept⟩ := (Table.mem_delete _ _ _).mp inside
    rcases owned with written | trigger | ⟨run,known,own,_⟩ | ⟨named,bare,free⟩
    · exact absurd (hasPrefix_of_writtenBy written) (by simp [kept])
    · exact untriggered row there trigger
    · exact idle run known own
    · exact (prefixed named row there).elim bare free

theorem eventVectors_erased_iff (rows : List SemanticEntry) (tenant : String) :
    (∀ entry ∈ rows, vectorTenant entry ≠ some tenant → vectorOwner entry ≠ tenant) ↔
      (tenant = "default" → ∀ entry ∈ rows, vectorTenant entry ≠ none) := by
  constructor
  · intro erased named entry inside unlabelled
    exact erased entry inside (by simp [unlabelled]) (by simp [vectorOwner,unlabelled,named])
  · intro labelled entry inside other owned
    cases label : vectorTenant entry with
    | none =>
      have named : tenant = "default" := by simpa [vectorOwner,label] using owned.symm
      exact labelled named entry inside label
    | some owner => exact other (by simpa [vectorOwner,label] using owned)

/-- Erasing a tenant leaves nothing of it exactly when it had nothing out of the reach of the sweeps. -/
theorem tenant_erasure_iff (n : Deployment) (tenant : String) :
    Erased (n.deleteTenant tenant).2 tenant ↔ WithinSweeps n tenant := by
  have tables := n.engine.deleteTenant_tables tenant
  obtain ⟨semantic,vectors,lexical⟩ := n.engine.deleteTenant_indexes tenant
  have memories := congrArg Tables.memories tables
  have edges := congrArg Tables.edges tables
  have grants := congrArg Tables.grants tables
  have attachments := congrArg Tables.attachments tables
  have events := congrArg Tables.episodic tables
  have sessions := congrArg Tables.sessions tables
  have state := congrArg Tables.state tables
  have runs := congrArg Tables.runs tables
  simp only [Engine.tables] at memories edges grants attachments events sessions state runs
  have agents (idle : ∀ run ∈ n.engine.runs.rows, run.tenantId ≠ tenant) := state_erased_iff n.engine.state idle
  have labels := eventVectors_erased_iff n.engine.semantic.entries.rows tenant
  constructor
  · intro erased
    have idle : ∀ run ∈ n.engine.runs.rows, run.tenantId ≠ tenant := runs ▸ erased.runs
    have unowned : ∀ row ∈ (n.engine.state.delete (StateTable.hasPrefix (tenantAgents tenant))).rows,
        ¬ StateOwned n.engine.runs tenant row.agentId := by
      have left := erased.state
      rw [Deployment.deleteTenant,state,runs] at left
      exact left
    refine ⟨grants ▸ erased.grants,attachments ▸ erased.attachments,erased.blobs,idle,erased.images,
      ((agents idle).mp unowned).1,((agents idle).mp unowned).2,labels.mp ?_,?_,?_⟩
    · exact fun entry inside other => erased.eventVectors entry ((semantic entry).mpr ⟨inside,other⟩)
    · intro key entry inside owned
      by_contra orphan
      exact erased.memoryVectors key entry ((vectors key entry).mpr ⟨inside,orphan⟩) owned
    · intro entry inside owned
      by_contra orphan
      exact erased.texts entry ((lexical entry).mpr ⟨inside,orphan⟩) owned
  · intro within
    refine ⟨?_,?_,?_,?_,within.blobs,?_,?_,?_,?_,?_,?_,?_,within.images⟩
    · intro row inside
      rw [Deployment.deleteTenant,memories] at inside
      exact of_decide_eq_false ((Table.mem_delete _ _ _).mp inside).2
    · intro row inside
      rw [Deployment.deleteTenant,edges] at inside
      exact of_decide_eq_false ((Table.mem_delete _ _ _).mp inside).2
    · rw [Deployment.deleteTenant,grants]
      exact within.grants
    · rw [Deployment.deleteTenant,attachments]
      exact within.attachments
    · intro row inside
      rw [Deployment.deleteTenant,events] at inside
      exact of_decide_eq_false ((Table.mem_delete _ _ _).mp inside).2
    · intro row inside
      rw [Deployment.deleteTenant,sessions] at inside
      exact of_decide_eq_false ((Table.mem_delete _ _ _).mp inside).2
    · rw [Deployment.deleteTenant,state,runs]
      exact (agents within.runs).mpr ⟨within.triggers,within.agents⟩
    · rw [Deployment.deleteTenant,runs]
      exact within.runs
    · intro entry inside
      obtain ⟨there,other⟩ := (semantic entry).mp inside
      exact labels.mpr within.labels entry there other
    · intro key entry inside owned
      obtain ⟨there,orphan⟩ := (vectors key entry).mp inside
      exact orphan (within.memoryVectors key entry there owned)
    · intro entry inside owned
      obtain ⟨there,orphan⟩ := (lexical entry).mp inside
      exact orphan (within.texts entry there owned)

/-- The record and the blob of an attachment outlive the tenant. -/
theorem attachment_outlives_tenant : ¬ ∀ (n : Deployment) tenant, Erased (n.deleteTenant tenant).2 tenant := by
  intro all
  have erased := all ((Deployment.empty .default 2).attachmentPut "acme" none "text/plain" none [1] 1 0).2 "acme"
  have left : ∃ row ∈ (((Deployment.empty .default 2).attachmentPut "acme" none "text/plain" none [1] 1 0).2.deleteTenant
      "acme").2.engine.attachments.rows, row.tenantId = "acme" := by
    decide +kernel
  obtain ⟨row,inside,owned⟩ := left
  exact erased.attachments row inside owned

end Ecphoria
