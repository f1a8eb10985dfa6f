import Ecphoria.Engine.Calls

/-! What the write calls do to the tables. The indexes and the change stream follow
the tables and are never read back into them, so each call is a function of the
tables, the configuration and its outside readings. -/
namespace Ecphoria
open Library

@[ext] structure Tables where
  memories : MemoryTable
  edges : EdgeTable
  grants : GrantTable
  attachments : AttachmentTable
  episodic : EpisodicTable
  sessions : SessionTable
  state : StateTable
  runs : RunTable

def Engine.tables (e : Engine) : Tables :=
  ⟨e.memories,e.edges,e.grants,e.attachments,e.episodic,e.sessions,e.state,e.runs⟩

theorem mem_withDraws {inputs : List MemoryInput} {draws : Nat → Draw} {item : MemoryInput × Draw}
    (inside : item ∈ withDraws inputs draws) : item.1 ∈ inputs ∧ ∃ n, item.2 = draws n := by
  obtain ⟨⟨input,n⟩,listed,rfl⟩ := List.mem_map.mp inside
  exact ⟨List.fst_mem_of_mem_zipIdx listed,n,rfl⟩

section
variable (env : Env)

def Tables.applyRow (config : CoreConfig) (stamp : Uuid → Int) (t : Tables) (row : MemoryRow) : Tables :=
  { t with
    memories := t.memories.upsertRaw row
    edges := addEdges t.edges (tenantOrDefault row.memory.scope.tenantId) stamp (graphEdges env config row) }

def Tables.applyRows (config : CoreConfig) (stamp : Uuid → Int) (t : Tables) (rows : List MemoryRow) : Tables :=
  rows.foldl (Tables.applyRow env config stamp) t

@[simp] theorem applyRow_tables (stamp : Uuid → Int) (e : Engine) (row : MemoryRow) :
    (applyRow env stamp e row).tables = e.tables.applyRow env e.config stamp row := by
  unfold applyRow
  cases row.memory.state <;> rfl

@[simp] theorem applyRow_config (stamp : Uuid → Int) (e : Engine) (row : MemoryRow) :
    (applyRow env stamp e row).config = e.config := by
  unfold applyRow
  cases row.memory.state <;> rfl

@[simp] theorem memoryApplyRows_config (stamp : Uuid → Int) (e : Engine) (rows : List MemoryRow) :
    (memoryApplyRows env stamp e rows).config = e.config := by
  induction rows generalizing e with
  | nil => rfl
  | cons row rows ih => rw [memoryApplyRows,List.foldl_cons,← memoryApplyRows,ih,applyRow_config]

@[simp] theorem memoryApplyRows_tables (stamp : Uuid → Int) (e : Engine) (rows : List MemoryRow) :
    (memoryApplyRows env stamp e rows).tables = e.tables.applyRows env e.config stamp rows := by
  induction rows generalizing e with
  | nil => rfl
  | cons row rows ih =>
    rw [memoryApplyRows,List.foldl_cons,← memoryApplyRows,ih,applyRow_config,applyRow_tables]
    rfl

theorem Tables.applyRows_memories (config : CoreConfig) (stamp : Uuid → Int) (t : Tables)
    (rows : List MemoryRow) : (t.applyRows env config stamp rows).memories = t.memories.upsertRows rows := by
  induction rows generalizing t with
  | nil => rfl
  | cons row rows ih => exact ih (t.applyRow env config stamp row)

theorem Tables.applyRows_frame (config : CoreConfig) (stamp : Uuid → Int) (t : Tables) (rows : List MemoryRow) :
    t.applyRows env config stamp rows =
      { t with
        memories := t.memories.upsertRows rows
        edges := (t.applyRows env config stamp rows).edges } := by
  induction rows generalizing t with
  | nil => rfl
  | cons row rows ih => exact ih (t.applyRow env config stamp row)

@[simp] theorem memoryApplyRows_memories (stamp : Uuid → Int) (e : Engine) (rows : List MemoryRow) :
    (memoryApplyRows env stamp e rows).memories = e.memories.upsertRows rows := by
  have tables := congrArg Tables.memories (memoryApplyRows_tables env stamp e rows)
  rwa [Tables.applyRows_memories] at tables

theorem memoryApplyRows_edges_keys (stamp : Uuid → Int) (e : Engine) (rows : List MemoryRow) (k : Uuid) :
    k ∈ (memoryApplyRows env stamp e rows).edges.keys ↔
      k ∈ e.edges.keys ∨ ∃ row ∈ rows, ∃ edge ∈ graphEdges env e.config row, edge.id = k := by
  have added (t : EdgeTable) (tenant : String) (edges : List Edge) :
      k ∈ (addEdges t tenant stamp edges).keys ↔ k ∈ t.keys ∨ ∃ edge ∈ edges, edge.id = k := by
    induction edges generalizing t with
    | nil => simp [addEdges]
    | cons edge edges ih =>
      change k ∈ (addEdges (t.addEdge tenant edge (stamp edge.id)) tenant stamp edges).keys ↔ _
      rw [ih,EdgeTable.addEdge,Table.mem_keys_insertIgnore]
      simp only [EdgeRow.id,List.mem_cons,exists_eq_or_imp,@eq_comm _ k]
      tauto
  induction rows generalizing e with
  | nil => simp [memoryApplyRows]
  | cons row rows ih =>
    change k ∈ (memoryApplyRows env stamp (applyRow env stamp e row) rows).edges.keys ↔ _
    have first : (applyRow env stamp e row).edges = addEdges e.edges (tenantOrDefault row.memory.scope.tenantId)
        stamp (graphEdges env e.config row) := congrArg Tables.edges (applyRow_tables env stamp e row)
    refine (ih (applyRow env stamp e row)).trans ?_
    rw [applyRow_config,first,added]
    simp only [List.mem_cons,exists_eq_or_imp]
    exact or_assoc

private theorem addEdges_known (t : EdgeTable) (tenant : String) (stamp : Uuid → Int) (edges : List Edge)
    (known : ∀ edge ∈ edges, edge.id ∈ t.keys) : addEdges t tenant stamp edges = t := by
  induction edges generalizing t with
  | nil => rfl
  | cons edge edges ih =>
    have first : t.addEdge tenant edge (stamp edge.id) = t := by
      rw [EdgeTable.addEdge,Table.insertIgnore]
      exact if_pos (known edge (by simp))
    change addEdges (t.addEdge tenant edge (stamp edge.id)) tenant stamp edges = t
    rw [first]
    exact ih t (fun other inside => known other (List.mem_cons_of_mem edge inside))

theorem memoryApplyRows_edges_known {stamp : Uuid → Int} {e : Engine} {rows : List MemoryRow}
    (known : ∀ row ∈ rows, ∀ edge ∈ graphEdges env e.config row, edge.id ∈ e.edges.keys) :
    (memoryApplyRows env stamp e rows).edges = e.edges := by
  induction rows generalizing e with
  | nil => rfl
  | cons row rows ih =>
    have first : (applyRow env stamp e row).edges = e.edges :=
      (congrArg Tables.edges (applyRow_tables env stamp e row)).trans
        (addEdges_known _ _ _ _ (known row (by simp)))
    change (memoryApplyRows env stamp (applyRow env stamp e row) rows).edges = e.edges
    rw [ih (fun other inside => by
      rw [applyRow_config,first]
      exact known other (List.mem_cons_of_mem row inside)),first]

private theorem applyBatchRow_frame (e : Engine) (row : MemoryRow) :
    (applyBatchRow e row).tables = e.tables ∧ (applyBatchRow e row).config = e.config := by
  unfold applyBatchRow
  cases row.memory.state <;> exact ⟨rfl,rfl⟩

private theorem applyBatchRows_frame (e : Engine) (rows : List MemoryRow) :
    (rows.foldl applyBatchRow e).tables = e.tables ∧ (rows.foldl applyBatchRow e).config = e.config := by
  induction rows generalizing e with
  | nil => exact ⟨rfl,rfl⟩
  | cons row rows ih =>
    obtain ⟨tables,config⟩ := ih (applyBatchRow e row)
    exact ⟨tables.trans (applyBatchRow_frame e row).1,config.trans (applyBatchRow_frame e row).2⟩

theorem memoryApplyRowsBatch_ok (e after : Engine) (rows : List MemoryRow)
    (ok : memoryApplyRowsBatch e rows = .ok after) :
    e.memories.upsertRawBatch rows = .ok after.memories ∧
      after.tables = { e.tables with memories := after.memories } ∧ after.config = e.config := by
  unfold memoryApplyRowsBatch at ok
  split at ok
  next none =>
    cases List.isEmpty_iff.mp none
    cases ok
    exact ⟨rfl,rfl,rfl⟩
  next some =>
    split at ok
    next err failed => cases ok
    next memories written =>
      cases ok
      obtain ⟨tables,config⟩ := applyBatchRows_frame { e with memories := memories } rows
      have kept := congrArg Tables.memories tables
      refine ⟨written.trans (congrArg _ kept.symm),?_,config⟩
      exact tables.trans (congrArg (fun m => { e.tables with memories := m }) kept.symm)

theorem memoryApplyRowsBatch_memories {e after : Engine} {rows : List MemoryRow}
    (ok : memoryApplyRowsBatch e rows = .ok after) : after.memories = e.memories.upsertRows rows :=
  MemoryTable.upsertRawBatch_ok (memoryApplyRowsBatch_ok e after rows ok).1

theorem flushColliding_cases {e after : Engine} {key : Option (String × String)} {buffer left : Buffer}
    (ok : flushColliding e key buffer = .ok (after,left)) :
    buffer.collides key = false ∧ after = e ∧ left = buffer ∨
      buffer.collides key = true ∧ memoryApplyRowsBatch e buffer.rows = .ok after ∧ left = ⟨[],[]⟩ := by
  unfold flushColliding at ok
  split at ok
  next collides =>
    split at ok
    next err failed => cases ok
    next written applied =>
      cases ok
      exact Or.inr ⟨collides,applied,rfl⟩
  next apart =>
    cases ok
    exact Or.inl ⟨by simpa using apart,rfl,rfl⟩

theorem flushColliding_config {e after : Engine} {key : Option (String × String)} {buffer left : Buffer}
    (ok : flushColliding e key buffer = .ok (after,left)) : after.config = e.config := by
  rcases flushColliding_cases ok with ⟨_,rfl,_⟩ | ⟨_,applied,_⟩
  · rfl
  · exact (memoryApplyRowsBatch_ok e after buffer.rows applied).2.2

theorem forgetAll_frame (e : Engine) (ids : List Uuid) :
    (ids.foldl Engine.forgetIndexes e).tables = e.tables ∧
      (ids.foldl Engine.forgetIndexes e).config = e.config := by
  induction ids generalizing e with
  | nil => exact ⟨rfl,rfl⟩
  | cons id ids ih => exact ih (e.forgetIndexes id)

theorem evictOverCap_tables (e : Engine) (scope : MemoryScope) :
    (evictOverCap e scope).tables =
      { e.tables with memories :=
          (e.memories.enforceScopeCap scope e.config.cognition.maxMemoriesPerScope).2 } :=
  (forgetAll_frame _ _).1

@[simp] theorem evictOverCap_config (e : Engine) (scope : MemoryScope) :
    (evictOverCap e scope).config = e.config :=
  (forgetAll_frame _ _).2

@[simp] theorem evictOverCap_memories (e : Engine) (scope : MemoryScope) :
    (evictOverCap e scope).memories =
      (e.memories.enforceScopeCap scope e.config.cognition.maxMemoriesPerScope).2 :=
  congrArg Tables.memories (evictOverCap_tables e scope)

theorem memoryAdd_config (e : Engine) (d : Draw) (input : MemoryInput) :
    (memoryAdd env e d input).2.config = e.config := by
  unfold memoryAdd
  split
  next => rfl
  next result rows ok => rw [evictOverCap_config,memoryApplyRows_config]

theorem memoryAdd_frame (e : Engine) (d : Draw) (input : MemoryInput) :
    ∃ memories edges, (memoryAdd env e d input).2.tables = { e.tables with memories := memories, edges := edges } := by
  unfold memoryAdd
  split
  next => exact ⟨e.memories,e.edges,rfl⟩
  next result rows planned =>
    rw [evictOverCap_tables,memoryApplyRows_tables,Tables.applyRows_frame]
    exact ⟨_,_,rfl⟩

theorem applyPlans_config (e : Engine) (plans : List (Planned × Draw)) :
    (applyPlans env e plans).config = e.config := by
  induction plans generalizing e with
  | nil => rfl
  | cons plan plans ih =>
    change (applyPlans env (memoryApplyRows env plan.2.stamp e plan.1.rows) plans).config = e.config
    rw [ih,memoryApplyRows_config]

theorem applyPlans_memories (e : Engine) (plans : List (Planned × Draw)) :
    (applyPlans env e plans).memories = e.memories.upsertRows (plans.flatMap (fun plan => plan.1.rows)) := by
  induction plans generalizing e with
  | nil => rfl
  | cons plan plans ih =>
    change (applyPlans env (memoryApplyRows env plan.2.stamp e plan.1.rows) plans).memories = _
    rw [ih,memoryApplyRows_memories]
    simp [MemoryTable.upsertRows]

private theorem expireOne_frame (stamp : Uuid → Int) (e : Engine) (id : Uuid) :
    (expireOne stamp e id).tables = { e.tables with memories := e.memories.expire id (stamp id) } ∧
      (expireOne stamp e id).config = e.config := by
  unfold expireOne
  cases e.memories.get id <;> exact ⟨rfl,rfl⟩

theorem memoryExpire_frame (stamp : Uuid → Int) (e : Engine) (ids : List Uuid) :
    (memoryExpire stamp e ids).tables =
        { e.tables with memories := ids.foldl (fun t id => t.expire id (stamp id)) e.memories } ∧
      (memoryExpire stamp e ids).config = e.config := by
  induction ids generalizing e with
  | nil => exact ⟨rfl,rfl⟩
  | cons id ids ih =>
    obtain ⟨tables,config⟩ := ih (expireOne stamp e id)
    obtain ⟨first,kept⟩ := expireOne_frame stamp e id
    have written := congrArg Tables.memories first
    refine ⟨tables.trans ?_,config.trans kept⟩
    rw [first]
    change ({ e.tables with memories := ids.foldl _ (expireOne stamp e id).tables.memories } : Tables) = _
    rw [written]
    rfl

theorem memoryExpire_memories (stamp : Uuid → Int) (e : Engine) (ids : List Uuid) :
    (memoryExpire stamp e ids).memories = ids.foldl (fun t id => t.expire id (stamp id)) e.memories :=
  congrArg Tables.memories (memoryExpire_frame stamp e ids).1

def MemoryPatch.Changes (patch : MemoryPatch) (m : Memory) : Prop :=
  ∃ content, patch.content = some content ∧ trim content ≠ trim m.content

theorem memoryUpdatePlan_cases (e : Engine) (id : Uuid) (patch : MemoryPatch) (tenant : Option String) (now : Int)
    (embedding : Option (List Rat)) :
    (memoryUpdatePlan e id patch tenant now embedding = none ∧
        ∀ m, lookup e id tenant = some m → m.state ≠ .active) ∨
      ∃ m vector, lookup e id tenant = some m ∧ m.state = .active ∧
        memoryUpdatePlan e id patch tenant now embedding =
          some (patchMemory patch now m,[⟨patchMemory patch now m,vector⟩]) ∧
        (¬patch.Changes m ∧ vector = e.memories.getEmbedding id ∨ patch.Changes m ∧
          vector = if e.config.embedding then embedding.or (e.memories.getEmbedding id) else none) := by
  unfold memoryUpdatePlan
  cases found : lookup e id tenant with
  | none => exact Or.inl ⟨rfl,by simp⟩
  | some m =>
    by_cases active : m.state = .active
    · have kept : (some m).filter (fun m => m.state = .active) = some m := by simp [active]
      rw [kept]
      refine Or.inr ⟨m,_,rfl,active,rfl,?_⟩
      cases content : patch.content with
      | none => exact Or.inl ⟨by simp [MemoryPatch.Changes,content],rfl⟩
      | some c =>
        by_cases same : trim c = trim m.content
        · exact Or.inl ⟨by simp [MemoryPatch.Changes,content,same],by simp [same]⟩
        · exact Or.inr ⟨⟨c,content,same⟩,by simp [same]⟩
    · refine Or.inl ⟨by simp [active],?_⟩
      intro other same
      cases same
      exact active

end

end Ecphoria
