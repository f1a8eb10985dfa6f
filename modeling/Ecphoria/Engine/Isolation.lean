import Ecphoria.Engine.Search
import Ecphoria.Engine.Erasure
import Ecphoria.Engine.Calls
import Ecphoria.Memory.Rebuild
import Ecphoria.Library.Transition

/-! Retrieval and merging stay within a scope. Text and graph are filtered by the scope
itself; a vector only stands in a partition whose key the scope spells, so everything
rests on two scopes in use never spelling the same key. -/
namespace Ecphoria
open Library

/-- The empty tenant reads as the default one; the other parts are compared as they are. -/
def OfScope (scope : MemoryScope) (m : Memory) : Prop := m.scope.withDefaultTenant = scope.withDefaultTenant

def Superseded (before after : Engine) (row : MemoryRow) : Prop :=
  row ∈ after.memories.rows ∧ row.memory.state = .superseded ∧
    ∀ old ∈ before.memories.rows, old.id = row.id → old.memory.state ≠ .superseded

structure Isolated (env : Env) (e : Engine) (scope : MemoryScope) : Prop where
  retrieved : ∀ (F : Type) (r : Retriever F) config answers query k,
    ∀ hit ∈ memorySearch env r e config answers query scope k, OfScope scope hit.memory
  closed : ∀ d input, input.scope = scope →
    ∀ row, Superseded e (memoryAdd env e d input).2 row → OfScope scope row.memory

/-- No active memory of another scope spells the key of this one. -/
def KeyApart (e : Engine) (scope : MemoryScope) : Prop :=
  ∀ row ∈ e.memories.rows, row.memory.state = .active →
    scopePartitionKey row.memory.scope = scopePartitionKey scope → OfScope scope row.memory

instance (e : Engine) (scope : MemoryScope) : Decidable (KeyApart e scope) := by
  unfold KeyApart OfScope
  infer_instance

/-- Every vector stands in the partition of the memory it belongs to. -/
def Placed (e : Engine) : Prop :=
  ∀ key, ∀ entry ∈ (e.vectors.partitions key).entries.rows,
    ∃ row ∈ e.memories.rows, row.id = entry.id ∧ scopePartitionKey row.memory.scope = key

/-- Rows that come in under an id that stands, or twice under one, have one scope. -/
def SameHome (e : Engine) (rows : List MemoryRow) : Prop :=
  ∀ row ∈ rows, (∀ old ∈ e.memories.rows, old.id = row.id → old.memory.scope = row.memory.scope) ∧
    ∀ other ∈ rows, other.id = row.id → other.memory.scope = row.memory.scope

instance (e : Engine) (rows : List MemoryRow) : Decidable (SameHome e rows) := by
  unfold SameHome
  infer_instance

@[simp] theorem scopePartitionKey_withDefaultTenant (scope : MemoryScope) :
    scopePartitionKey scope.withDefaultTenant = scopePartitionKey scope := by
  simp [scopePartitionKey,MemoryScope.withDefaultTenant,tenantOrDefault_tenantOrDefault]

/-- A part that a key spells without loss: not set but empty, and free of the separator. -/
def PlainPart (part : Option String) : Prop := part ≠ some "" ∧ '\x1f' ∉ (part.getD "").toList

structure PlainScope (scope : MemoryScope) : Prop where
  tenant : '\x1f' ∉ scope.tenantId.toList
  user : PlainPart scope.userId
  agent : PlainPart scope.agentId
  session : PlainPart scope.sessionId

private theorem plainPart_inj {a b : Option String} (left : PlainPart a) (right : PlainPart b) :
    a.getD "" = b.getD "" ↔ a = b := by
  constructor
  · intro same
    cases a with
    | none =>
      cases b with
      | none => rfl
      | some t => exact absurd (congrArg some same.symm) right.1
    | some s =>
      cases b with
      | none => exact absurd (congrArg some same) left.1
      | some t => exact congrArg some same
  · intro same
    rw [same]

theorem scopePartitionKey_inj {a b : MemoryScope} (left : PlainScope a) (right : PlainScope b) :
    scopePartitionKey a = scopePartitionKey b ↔ a.withDefaultTenant = b.withDefaultTenant := by
  have tenant {scope : MemoryScope} (plain : PlainScope scope) : '\x1f' ∉ (tenantOrDefault scope.tenantId).toList := by
    unfold tenantOrDefault
    split
    next => decide
    next => exact plain.tenant
  have spelled (scope : MemoryScope) : (scopePartitionKey scope).toList = (tenantOrDefault scope.tenantId).toList ++ '\x1f' ::
      ((scope.userId.getD "").toList ++ '\x1f' :: ((scope.agentId.getD "").toList ++ '\x1f' ::
        (scope.sessionId.getD "").toList)) := by
    simp [scopePartitionKey,String.toList_append]
  rw [← String.toList_inj,spelled,spelled,separated_inj (tenant left) (tenant right),
    separated_inj left.user.2 right.user.2,separated_inj left.agent.2 right.agent.2]
  simp only [String.toList_inj,plainPart_inj left.user right.user,plainPart_inj left.agent right.agent,
    plainPart_inj left.session right.session]
  rcases a with ⟨t,u,g,s⟩
  rcases b with ⟨t',u',g',s'⟩
  simp [MemoryScope.withDefaultTenant]

theorem KeyApart.of_plain {e : Engine} {scope : MemoryScope} (plain : PlainScope scope)
    (all : ∀ row ∈ e.memories.rows, PlainScope row.memory.scope) : KeyApart e scope :=
  fun row inside _ same => (scopePartitionKey_inj (all row inside) plain).mp same

section
variable {env : Env} {e after : Engine}

theorem Placed.write {rows : List MemoryRow} (placed : Placed e) (home : SameHome e rows)
    (memories : after.memories = e.memories.upsertRows rows)
    (vectors : ∀ key, ∀ entry ∈ (after.vectors.partitions key).entries.rows,
      entry ∈ (e.vectors.partitions key).entries.rows ∨
        ∃ row ∈ rows, row.id = entry.id ∧ scopePartitionKey row.memory.scope = key) : Placed after := by
  -- the row that stands under an id afterwards has the scope of every row that wrote it
  have standing (id : Uuid) (key : String) (origin : (∃ old ∈ e.memories.rows, old.id = id ∧
      scopePartitionKey old.memory.scope = key) ∨ ∃ row ∈ rows, row.id = id ∧ scopePartitionKey row.memory.scope = key) :
      ∃ row ∈ after.memories.rows, row.id = id ∧ scopePartitionKey row.memory.scope = key := by
    have known : id ∈ after.memories.keys := by
      rw [memories,MemoryTable.upsertRows_eq]
      refine Table.mem_keys_upsertAll ?_
      rcases origin with ⟨old,inside,same,_⟩ | ⟨row,inside,same,_⟩
      · exact Or.inr ((Table.mem_keys _ _).mpr ⟨old,inside,same⟩)
      · exact Or.inl ⟨row.stored,List.mem_map_of_mem inside,same⟩
    obtain ⟨last,there,same⟩ := (Table.mem_keys _ _).mp known
    refine ⟨last,there,same,?_⟩
    rw [memories] at there
    rcases MemoryTable.mem_upsertRows there with ⟨new,listed,rfl⟩ | ⟨older,apart⟩
    · have id : new.id = id := same
      rcases origin with ⟨old,inside,equal,spelled⟩ | ⟨row,inside,equal,spelled⟩
      · rw [← spelled,(home new listed).1 old inside (equal.trans id.symm)]
        rfl
      · rw [← spelled,(home new listed).2 row inside (equal.trans id.symm)]
        rfl
    · rcases origin with ⟨old,inside,equal,spelled⟩ | ⟨row,inside,equal,_⟩
      · rw [e.memories.eq_of_key older inside (same.trans equal.symm)]
        exact spelled
      · exact absurd (equal.trans same.symm) (apart row inside)
  intro key entry inside
  rcases vectors key entry inside with before | new
  · exact standing entry.id key (Or.inl (placed key entry before))
  · exact standing entry.id key (Or.inr new)

theorem Placed.drop (placed : Placed e)
    (vectors : ∀ key, ∀ entry ∈ (after.vectors.partitions key).entries.rows,
      entry ∈ (e.vectors.partitions key).entries.rows ∧ ∀ row ∈ e.memories.rows, row.id = entry.id →
        ∃ kept ∈ after.memories.rows, kept.id = row.id ∧ kept.memory.scope = row.memory.scope) : Placed after := by
  intro key entry inside
  obtain ⟨before,survives⟩ := vectors key entry inside
  obtain ⟨row,there,same,spelled⟩ := placed key entry before
  obtain ⟨kept,found,id,scope⟩ := survives row there same
  exact ⟨kept,found,id.trans same,by rw [scope]; exact spelled⟩

private theorem indexVector_vectors {row : MemoryRow} {key : String} {entry : SemanticEntry}
    (inside : entry ∈ ((e.indexVector row).vectors.partitions key).entries.rows) :
    entry ∈ (e.vectors.partitions key).entries.rows ∨ row.id = entry.id ∧ scopePartitionKey row.memory.scope = key := by
  unfold Engine.indexVector at inside
  cases vector : row.embedding with
  | none =>
    rw [vector] at inside
    exact Or.inl inside
  | some emb =>
    rw [vector] at inside
    rcases ScopedVectorIndex.mem_upsert inside with before | ⟨rfl,rfl⟩
    · exact Or.inl before
    · exact Or.inr ⟨rfl,rfl⟩

private theorem forgetIndexes_vectors {id : Uuid} {key : String} {entry : SemanticEntry}
    (inside : entry ∈ ((e.forgetIndexes id).vectors.partitions key).entries.rows) :
    entry ∈ (e.vectors.partitions key).entries.rows :=
  ((ScopedVectorIndex.mem_delete _ _ _ _).mp inside).1

private theorem applyRow_vectors {stamp : Uuid → Int} {row : MemoryRow} {key : String} {entry : SemanticEntry}
    (inside : entry ∈ ((applyRow env stamp e row).vectors.partitions key).entries.rows) :
    entry ∈ (e.vectors.partitions key).entries.rows ∨ row.id = entry.id ∧ scopePartitionKey row.memory.scope = key := by
  cases state : row.memory.state with
  | active =>
    simp only [applyRow,state] at inside
    exact @indexVector_vectors { e with memories := e.memories.upsertRaw row } row key entry inside
  | _ =>
    simp only [applyRow,state] at inside
    exact Or.inl (forgetIndexes_vectors inside)

theorem memoryApplyRows_vectors {stamp : Uuid → Int} {rows : List MemoryRow} {key : String} {entry : SemanticEntry}
    (inside : entry ∈ ((memoryApplyRows env stamp e rows).vectors.partitions key).entries.rows) :
    entry ∈ (e.vectors.partitions key).entries.rows ∨
      ∃ row ∈ rows, row.id = entry.id ∧ scopePartitionKey row.memory.scope = key := by
  induction rows generalizing e with
  | nil => exact Or.inl inside
  | cons row rows ih =>
    rcases ih inside with before | ⟨later,listed,placed⟩
    · rcases applyRow_vectors before with before | placed
      · exact Or.inl before
      · exact Or.inr ⟨row,List.mem_cons_self,placed⟩
    · exact Or.inr ⟨later,List.mem_cons_of_mem row listed,placed⟩

private theorem applyBatchRow_vectors {row : MemoryRow} {key : String} {entry : SemanticEntry}
    (inside : entry ∈ ((applyBatchRow e row).vectors.partitions key).entries.rows) :
    entry ∈ (e.vectors.partitions key).entries.rows ∨ row.id = entry.id ∧ scopePartitionKey row.memory.scope = key := by
  cases state : row.memory.state with
  | active =>
    simp only [applyBatchRow,state] at inside
    exact indexVector_vectors inside
  | _ =>
    simp only [applyBatchRow,state] at inside
    exact Or.inl (forgetIndexes_vectors inside)

theorem memoryApplyRowsBatch_vectors {rows : List MemoryRow} (ok : memoryApplyRowsBatch e rows = .ok after)
    {key : String} {entry : SemanticEntry} (inside : entry ∈ (after.vectors.partitions key).entries.rows) :
    entry ∈ (e.vectors.partitions key).entries.rows ∨
      ∃ row ∈ rows, row.id = entry.id ∧ scopePartitionKey row.memory.scope = key := by
  have folded (rows : List MemoryRow) (e : Engine)
      (inside : entry ∈ ((rows.foldl applyBatchRow e).vectors.partitions key).entries.rows) :
      entry ∈ (e.vectors.partitions key).entries.rows ∨
        ∃ row ∈ rows, row.id = entry.id ∧ scopePartitionKey row.memory.scope = key := by
    induction rows generalizing e with
    | nil => exact Or.inl inside
    | cons row rows ih =>
      rcases ih _ inside with before | ⟨later,listed,placed⟩
      · rcases applyBatchRow_vectors before with before | placed
        · exact Or.inl before
        · exact Or.inr ⟨row,List.mem_cons_self,placed⟩
      · exact Or.inr ⟨later,List.mem_cons_of_mem row listed,placed⟩
  unfold memoryApplyRowsBatch at ok
  split at ok
  next =>
    cases ok
    exact Or.inl inside
  next =>
    split at ok
    next => cases ok
    next memories _ =>
      cases ok
      exact folded rows { e with memories := memories } inside

theorem Placed.applyRows {stamp : Uuid → Int} {rows : List MemoryRow} (placed : Placed e) (home : SameHome e rows) :
    Placed (memoryApplyRows env stamp e rows) :=
  placed.write home (memoryApplyRows_memories env stamp e rows) (fun _ _ => memoryApplyRows_vectors)

theorem Placed.evict (placed : Placed e) (scope : MemoryScope) : Placed (evictOverCap e scope) := by
  refine placed.drop ?_
  intro key entry inside
  obtain ⟨_,vectors,_⟩ := forgetAll_indexes
    { e with memories := (e.memories.enforceScopeCap scope e.config.cognition.maxMemoriesPerScope).2 }
    (e.memories.enforceScopeCap scope e.config.cognition.maxMemoriesPerScope).1
  obtain ⟨before,kept⟩ := (vectors key entry).mp inside
  refine ⟨before,?_⟩
  intro row there same
  refine ⟨row,?_,rfl,rfl⟩
  rw [evictOverCap_memories]
  exact (Table.mem_delete _ _ _).mpr ⟨there,decide_eq_false (same ▸ kept)⟩

theorem Placed.expire (placed : Placed e) (stamp : Uuid → Int) (ids : List Uuid) : Placed (memoryExpire stamp e ids) := by
  induction ids generalizing e with
  | nil => exact placed
  | cons id ids ih =>
    refine ih (placed.drop ?_)
    intro key entry inside
    have vectors : (expireOne stamp e id).vectors = e.vectors.delete id := by
      unfold expireOne
      cases e.memories.get id <;> rfl
    have memories : (expireOne stamp e id).memories = e.memories.expire id (stamp id) := by
      unfold expireOne
      cases e.memories.get id <;> rfl
    rw [vectors] at inside
    refine ⟨((ScopedVectorIndex.mem_delete _ _ _ _).mp inside).1,?_⟩
    intro row there same
    rw [memories]
    exact ⟨_,(Table.mem_update _ _ _ _ _).mpr ⟨row,there,rfl⟩,by split <;> rfl,by split <;> rfl⟩

theorem Placed.delete (placed : Placed e) (id : Uuid) : Placed (memoryDelete e id) := by
  refine placed.drop ?_
  intro key entry inside
  obtain ⟨before,other⟩ := (ScopedVectorIndex.mem_delete _ _ _ _).mp inside
  refine ⟨before,?_⟩
  intro row there same
  exact ⟨row,(Table.mem_delete _ _ _).mpr ⟨there,decide_eq_false (fun named => other (same ▸ named))⟩,rfl,rfl⟩

theorem Placed.erase (placed : Placed e) (tenant : String) : Placed (e.deleteTenant tenant).2 := by
  refine placed.drop ?_
  intro key entry inside
  obtain ⟨_,vectors,_⟩ := e.deleteTenant_indexes tenant
  obtain ⟨before,unowned⟩ := (vectors key entry).mp inside
  refine ⟨before,?_⟩
  intro row there same
  refine ⟨row,?_,rfl,rfl⟩
  have swept := congrArg Tables.memories (e.deleteTenant_tables tenant)
  change (e.deleteTenant tenant).2.memories = _ at swept
  rw [swept]
  exact (Table.mem_delete _ _ _).mpr ⟨there,decide_eq_false (fun owned => unowned ⟨row,there,same,owned⟩)⟩

theorem rebuildVectorIndex_vectors {dimension : Nat} {t : MemoryTable} {key : String} {entry : SemanticEntry}
    (inside : entry ∈ ((rebuildVectorIndex dimension t).partitions key).entries.rows) :
    ∃ row ∈ t.rows, row.id = entry.id ∧ scopePartitionKey row.memory.scope = key := by
  have filled (rows : List (Memory × List Rat)) (index : ScopedVectorIndex)
      (inside : entry ∈ ((indexRows index rows).partitions key).entries.rows) :
      entry ∈ (index.partitions key).entries.rows ∨ ∃ row ∈ rows, row.1.id = entry.id ∧ scopePartitionKey row.1.scope = key := by
    induction rows generalizing index with
    | nil => exact Or.inl inside
    | cons row rows ih =>
      rcases ih _ inside with before | ⟨later,listed,placed⟩
      · rcases ScopedVectorIndex.mem_upsert before with before | ⟨rfl,rfl⟩
        · exact Or.inl before
        · exact Or.inr ⟨row,List.mem_cons_self,rfl,rfl⟩
      · exact Or.inr ⟨later,List.mem_cons_of_mem row listed,placed⟩
  rcases filled _ _ inside with none | ⟨loaded,listed,same,spelled⟩
  · exact absurd none List.not_mem_nil
  · obtain ⟨row,there,found⟩ := List.mem_filterMap.mp (List.mem_filter.mp listed).1
    split at found
    next =>
      obtain ⟨emb,_,rfl⟩ := Option.map_eq_some_iff.mp found
      exact ⟨row,there,same,spelled⟩
    next => cases found

theorem mergeTarget_hit {d : Draw} {scope : MemoryScope} {embedding : Option (List Rat)} {top : Memory}
    (hit : mergeTarget e d scope embedding = .ok (some top)) :
    top.state = .active ∧ e.memories.get top.id = some top ∧
      ∃ entry ∈ (e.vectors.partitions (scopePartitionKey scope)).entries.rows, entry.id = top.id := by
  unfold mergeTarget at hit
  split at hit
  next => cases hit
  next =>
    split at hit
    next => cases hit
    next hits searched =>
      simp only [Except.ok.injEq,Option.map_eq_some_iff,Option.filter_eq_some_iff] at hit
      obtain ⟨found,⟨first,_⟩,rfl⟩ := hit
      exact memoryIndexSearch_hit searched (List.mem_of_head? first)

/-- A row of a plan replaces a row of the scope or the one merged into, scope and all, or is the drawn one. -/
theorem PlanCase.origin {d : Draw} {input : MemoryInput} {embedding : Option (List Rat)} {planned : Planned}
    (plan : PlanCase env e d input embedding planned) {row : MemoryRow} (inside : row ∈ planned.rows) :
    (∃ old ∈ e.memories.rows, old.id = row.id ∧ old.memory.scope = row.memory.scope ∧
      (old.memory.scope = input.scope.withDefaultTenant ∨
        mergeTarget e d input.scope.withDefaultTenant embedding = .ok (some old.memory))) ∨
      row.id = d.id ∧ row.memory.state = .active ∧ row.memory.scope = input.scope.withDefaultTenant := by
  have found {subject : String} {m : Memory}
      (listed : m ∈ e.memories.findActiveBySubject (canonicalInput env input).scope subject input.project) :
      ∃ old ∈ e.memories.rows, old.memory = m ∧ old.memory.scope = input.scope.withDefaultTenant := by
    obtain ⟨old,member,rfl,scope,_⟩ := MemoryTable.mem_findActiveBySubject.mp listed
    refine ⟨old,member,rfl,?_⟩
    rw [scope]
    exact MemoryScope.withDefaultTenant_withDefaultTenant input.scope
  cases plan with
  | confirmed subject existing others keyed read same =>
    cases List.mem_singleton.mp inside
    have listed : existing ∈ existing :: others := List.mem_cons_self
    obtain ⟨old,member,rfl,scope⟩ := found (read ▸ listed)
    exact Or.inl ⟨old,member,rfl,rfl,Or.inl scope⟩
  | conflict subject existing others keyed read review =>
    cases List.mem_singleton.mp inside
    exact Or.inr ⟨rfl,rfl,rfl⟩
  | superseded subject existing others keyed read differs =>
    rcases List.mem_append.mp inside with inside | inside
    · obtain ⟨m,listed,rfl⟩ := List.mem_map.mp inside
      obtain ⟨old,member,rfl,scope⟩ := found (read ▸ listed)
      exact Or.inl ⟨old,member,rfl,rfl,Or.inl scope⟩
    · cases List.mem_singleton.mp inside
      exact Or.inr ⟨rfl,rfl,rfl⟩
  | merged top unkeyed hit =>
    rcases List.mem_cons.mp inside with rfl | inside
    · obtain ⟨_,old,member,rfl⟩ := mergeTarget_active hit
      exact Or.inl ⟨old,member,rfl,rfl,Or.inr hit⟩
    · cases List.mem_singleton.mp inside
      exact Or.inr ⟨rfl,rfl,rfl⟩
  | inserted absent missed =>
    cases List.mem_singleton.mp inside
    exact Or.inr ⟨rfl,rfl,rfl⟩

theorem PlanCase.sameHome {d : Draw} {input : MemoryInput} {embedding : Option (List Rat)} {planned : Planned}
    (plan : PlanCase env e d input embedding planned) (fresh : d.id ∉ e.memories.keys) : SameHome e planned.rows := by
  have unknown {old : MemoryRow} (there : old ∈ e.memories.rows) (same : old.id = d.id) : False :=
    fresh ((Table.mem_keys _ _).mpr ⟨old,there,same⟩)
  intro row inside
  rcases plan.origin inside with ⟨first,there,id,scope,_⟩ | ⟨id,_,scope⟩
  · refine ⟨?_,?_⟩
    · intro old member same
      rw [e.memories.eq_of_key member there (same.trans id.symm),scope]
    · intro other listed same
      rcases plan.origin listed with ⟨second,member,id',scope',_⟩ | ⟨id',_⟩
      · rw [← scope,← scope',e.memories.eq_of_key member there (id'.trans (same.trans id.symm))]
      · exact (unknown there (id.trans (same.symm.trans id'))).elim
  · refine ⟨fun old member same => (unknown member (same.trans id)).elim,?_⟩
    intro other listed same
    rcases plan.origin listed with ⟨second,member,id',_⟩ | ⟨_,_,scope'⟩
    · exact (unknown member (id'.trans (same.trans id))).elim
    · rw [scope,scope']

private theorem OfScope.of_eq {scope : MemoryScope} {m : Memory} (same : m.scope = scope.withDefaultTenant) :
    OfScope scope m := by
  rw [OfScope,same,MemoryScope.withDefaultTenant_withDefaultTenant]

private theorem Placed.ofScope {scope : MemoryScope} (placed : Placed e) (apart : KeyApart e scope) {m : Memory}
    (active : m.state = .active) (stored : e.memories.get m.id = some m)
    (indexed : ∃ entry ∈ (e.vectors.partitions (scopePartitionKey scope)).entries.rows, entry.id = m.id) :
    OfScope scope m := by
  obtain ⟨entry,inside,same⟩ := indexed
  obtain ⟨row,there,id,spelled⟩ := placed _ entry inside
  obtain ⟨other,member,rfl,named⟩ := MemoryTable.get_eq_some stored
  have one : row = other := e.memories.eq_of_key there member (id.trans (same.trans named.symm))
  subst one
  exact apart row there active spelled

theorem Placed.isolated {scope : MemoryScope} (placed : Placed e) (apart : KeyApart e scope) : Isolated env e scope where
  retrieved := by
    intro F r config answers query k hit inside
    cases memorySearchInner_hit inside with
    | listed blank listed => exact .of_eq (MemoryTable.mem_listActive listed).1
    | fallback asked listed filtered => exact .of_eq (MemoryTable.mem_listActive listed).1
    | text asked listed => exact .of_eq (mem_textCandidates listed).1
    | near asked listed =>
      obtain ⟨hit,member,same⟩ := List.mem_map.mp listed
      obtain ⟨_,active,stored,indexed⟩ := mem_vectorHits member
      exact same ▸ placed.ofScope apart active stored indexed
    | linked asked linked => rw [OfScope,linked.within]
  closed := by
    intro d input given row superseded
    obtain ⟨inside,state,new⟩ := superseded
    subst given
    cases planned : memoryPlan env e d input with
    | error err =>
      rw [memoryAdd,planned] at inside
      exact absurd state (new row inside rfl)
    | ok plan =>
      obtain ⟨_,plan'⟩ := memoryPlanWithEmbedding_cases env planned
      rw [memoryAdd,planned] at inside
      simp only [evictOverCap_memories] at inside
      have written := ((Table.mem_delete _ _ _).mp inside).1
      rw [memoryApplyRows_memories] at written
      rcases MemoryTable.mem_upsertRows written with ⟨closing,listed,rfl⟩ | ⟨old,_⟩
      · rcases plan'.origin listed with ⟨target,there,id,scope,kind⟩ | ⟨_,active,_⟩
        · have moved : (closing.stored).memory.scope = target.memory.scope := scope.symm
          rw [OfScope,moved]
          rcases kind with same | merged
          · rw [same,MemoryScope.withDefaultTenant_withDefaultTenant]
          · obtain ⟨active,stored,indexed⟩ := mergeTarget_hit merged
            rw [scopePartitionKey_withDefaultTenant] at indexed
            exact placed.ofScope apart active stored indexed
        · exact absurd (active.symm.trans state) (by decide)
      · exact absurd state (new row old rfl)

end

/-- The calls that write memories or their vectors. Every other memory call plans rows from what is stored and
writes them by one of these. -/
inductive StoreCall where
  | add (d : Draw) (input : MemoryInput)
  | applyRows (stamp : Uuid → Int) (rows : List MemoryRow)
  | applyBatch (rows : List MemoryRow)
  | evict (scope : MemoryScope)
  | expire (stamp : Uuid → Int) (ids : List Uuid)
  | delete (id : Uuid)
  | importMemories (memories : List Memory)
  | erase (tenant : String)
  | reopen

namespace StoreCall

def step (env : Env) (e : Engine) : StoreCall → Engine
  | .add d input => (memoryAdd env e d input).2
  | .applyRows stamp rows => memoryApplyRows env stamp e rows
  | .applyBatch rows =>
    match memoryApplyRowsBatch e rows with
    | .ok after => after
    | .error _ => e
  | .evict scope => evictOverCap e scope
  | .expire stamp ids => memoryExpire stamp e ids
  | .delete id => memoryDelete e id
  | .importMemories memories => { e with memories := e.memories.importMemories memories }
  | .erase tenant => (e.deleteTenant tenant).2
  | .reopen => { e with
      vectors := rebuildVectorIndex e.vectors.dimension e.memories
      lexical := rebuildLexicalIndex e.memories }

/-- A drawn id is new, and a row written under an id that stands keeps the scope of the id. -/
def KeepsScopes (e : Engine) : StoreCall → Prop
  | .add d _ => d.id ∉ e.memories.keys
  | .applyRows _ rows => SameHome e rows
  | .applyBatch rows => SameHome e rows
  | .importMemories memories => SameHome e (memories.map (fun m => ⟨m,none⟩))
  | _ => True

instance (e : Engine) (call : StoreCall) : Decidable (call.KeepsScopes e) := by
  cases call <;> unfold KeepsScopes <;> infer_instance

theorem placed {env : Env} {e : Engine} {call : StoreCall} (placed : Placed e) (keeps : call.KeepsScopes e) :
    Placed (call.step env e) := by
  cases call with
  | add d input =>
    rw [step,memoryAdd]
    split
    next => exact placed
    next result rows planned =>
      obtain ⟨_,plan⟩ := memoryPlanWithEmbedding_cases env planned
      exact (placed.applyRows (plan.sameHome keeps)).evict _
  | applyRows stamp rows => exact placed.applyRows keeps
  | applyBatch rows =>
    rw [step]
    split
    next after ok =>
      exact placed.write keeps (memoryApplyRowsBatch_memories ok) (fun _ _ => memoryApplyRowsBatch_vectors ok)
    next => exact placed
  | evict scope => exact placed.evict scope
  | expire stamp ids => exact placed.expire stamp ids
  | delete id => exact placed.delete id
  | importMemories memories => exact placed.write keeps rfl (fun _ _ => Or.inl)
  | erase tenant => exact placed.erase tenant
  | reopen => exact fun _ _ => rebuildVectorIndex_vectors

end StoreCall

/-- In every run in which ids keep their scopes, a search and an added memory stay within their scope, in every
store reached in which no active memory of another scope spells the same key. -/
theorem scope_isolation_throughout (env : Env) (config : CoreConfig) (dimension : Nat) (calls : List StoreCall)
    (guarded : Along (StoreCall.step env) (fun e call => call.KeepsScopes e) (.empty config dimension) calls) :
    Throughout (StoreCall.step env) (fun e => ∀ scope, KeyApart e scope → Isolated env e scope)
      (.empty config dimension) calls := by
  have start : Placed (.empty config dimension) := fun _ _ none => absurd none List.not_mem_nil
  have reached := guarded.throughout start (fun _ _ placed keeps => StoreCall.placed placed keeps)
  exact fun n scope apart => (reached n).isolated apart

def CoreConfig.embedded : CoreConfig := { CoreConfig.default with embedding := true }

def userScope (user : Option String) : MemoryScope := ⟨"acme",user,none,none⟩

def vectorAdd (id : Uuid) (user : Option String) : StoreCall :=
  .add { Draw.plain 5000 id with embedding := some [1,0] } (.new (userScope user) "likes tea")

theorem scope_isolation_throughout_two :
    Isolated .ascii (run (StoreCall.step .ascii) (.empty .embedded 2) [vectorAdd 1 (some "ann"),vectorAdd 2 none])
      (userScope none) :=
  scope_isolation_throughout .ascii .embedded 2 [vectorAdd 1 (some "ann"),vectorAdd 2 none] (by decide +kernel) 2
    (userScope none) (by decide +kernel)

/-- A memory of the user with the empty name is found by a search over memories of no user. -/
theorem empty_user_leaks :
    ¬ ∀ calls, Along (StoreCall.step .ascii) (fun e call => call.KeepsScopes e) (.empty .embedded 2) calls →
      Throughout (StoreCall.step .ascii) (fun e => ∀ scope, Isolated .ascii e scope) (.empty .embedded 2) calls := by
  intro all
  have isolated := all [vectorAdd 1 (some "")] (by decide +kernel) 1 (userScope none)
  have found : ∃ hit ∈ memorySearch .ascii .plain (StoreCall.step .ascii (.empty .embedded 2) (vectorAdd 1 (some "")))
      .plain ⟨.ok [],some [1,0],[(1,1)],6000⟩ "tea" (userScope none) 5,
      hit.memory.scope.withDefaultTenant ≠ (userScope none).withDefaultTenant := by
    decide +kernel
  obtain ⟨hit,inside,other⟩ := found
  exact other (isolated.retrieved Rat .plain .plain _ "tea" 5 hit inside)

end Ecphoria
