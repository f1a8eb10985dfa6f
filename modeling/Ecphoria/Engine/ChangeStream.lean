import Ecphoria.Engine.DocumentFrame
import Ecphoria.Library.Transition

/-! The change stream of the memories, and a subscriber that keeps the identifiers whose
latest event is `upserted`. Rows that are applied are announced; what is deleted, evicted,
decayed or imported is not. -/
namespace Ecphoria
open Library

def MemoryChange.of (m : Memory) : MemoryChange :=
  ⟨m.id,m.scope.tenantId,m.scope.userId,Engine.changeEvent m.state,m.subject⟩

def latestEvent (changes : List MemoryChange) (id : Uuid) : Option String :=
  (changes.reverse.find? (fun change => change.id = id)).map MemoryChange.event

def Upserted (changes : List MemoryChange) (id : Uuid) : Prop := latestEvent changes id = some "upserted"

def ActiveIn (t : MemoryTable) (id : Uuid) : Prop := ∃ row ∈ t.rows, row.id = id ∧ row.memory.state = .active

/-- The subscriber holds the identifiers of the active rows. -/
def InSync (t : MemoryTable) (changes : List MemoryChange) : Prop := ∀ id, Upserted changes id ↔ ActiveIn t id

theorem latestEvent_append (changes : List MemoryChange) (change : MemoryChange) (id : Uuid) :
    latestEvent (changes ++ [change]) id = if change.id = id then some change.event else latestEvent changes id := by
  unfold latestEvent
  rw [List.reverse_append,List.reverse_singleton,List.singleton_append,List.find?_cons]
  by_cases same : change.id = id
  · simp [same]
  · simp [same]

theorem changeEvent_upserted {state : MemoryState} : Engine.changeEvent state = "upserted" ↔ state = .active := by
  cases state <;> simp [Engine.changeEvent]

theorem activeIn_upsertRaw (t : MemoryTable) (row : MemoryRow) (id : Uuid) :
    ActiveIn (t.upsertRaw row) id ↔ if row.id = id then row.memory.state = .active else ActiveIn t id := by
  have listed (r : MemoryRow) : r ∈ (t.upsertRaw row).rows ↔ r = row.stored ∨ r ∈ t.rows ∧ r.id ≠ row.id :=
    Table.mem_upsert t row.stored r
  unfold ActiveIn
  simp only [listed]
  split
  next same =>
    constructor
    · rintro ⟨r,rfl | ⟨_,other⟩,equal,active⟩
      · exact active
      · exact absurd (equal.trans same.symm) other
    · intro active
      exact ⟨row.stored,Or.inl rfl,same,active⟩
  next apart =>
    constructor
    · rintro ⟨r,rfl | ⟨member,_⟩,equal,active⟩
      · exact absurd equal apart
      · exact ⟨r,member,equal,active⟩
    · rintro ⟨r,member,equal,active⟩
      exact ⟨r,Or.inr ⟨member,fun same => apart (same.symm.trans equal)⟩,equal,active⟩

theorem InSync.announced {t : MemoryTable} {changes : List MemoryChange} (sync : InSync t changes) (row : MemoryRow) :
    InSync (t.upsertRaw row) (changes ++ [.of row.memory]) := by
  intro id
  rw [Upserted,latestEvent_append,activeIn_upsertRaw]
  by_cases same : row.id = id
  · rw [if_pos same,if_pos (show (MemoryChange.of row.memory).id = id from same),Option.some_inj]
    exact changeEvent_upserted
  · rw [if_neg same,if_neg (show (MemoryChange.of row.memory).id ≠ id from same)]
    exact sync id

theorem InSync.of_announced {t : MemoryTable} {changes : List MemoryChange} (row : MemoryRow) {id : Uuid}
    (sync : InSync (t.upsertRaw row) (changes ++ [.of row.memory])) (apart : row.id ≠ id) :
    Upserted changes id ↔ ActiveIn t id := by
  have here := sync id
  rwa [Upserted,latestEvent_append,activeIn_upsertRaw,if_neg (show (MemoryChange.of row.memory).id ≠ id from apart),
    if_neg apart] at here

theorem InSync.upsertRows {t : MemoryTable} {changes : List MemoryChange} (sync : InSync t changes) (rows : List MemoryRow) :
    InSync (t.upsertRows rows) (changes ++ rows.map (fun row => .of row.memory)) := by
  induction rows generalizing t changes with
  | nil =>
    rw [List.map_nil,List.append_nil]
    exact sync
  | cons row rows ih =>
    have rest := ih (sync.announced row)
    rwa [List.append_assoc] at rest

/-- What is changed in silence leaves the subscriber in step exactly when it leaves the active rows. -/
theorem InSync.silent_iff {t u : MemoryTable} {changes : List MemoryChange} (sync : InSync t changes) :
    InSync u changes ↔ ∀ id, ActiveIn u id ↔ ActiveIn t id :=
  forall_congr' (fun id => by rw [sync id]; exact iff_comm)

theorem activeIn_delete_iff (t : MemoryTable) (p : MemoryRow → Bool) :
    (∀ id, ActiveIn (t.delete p) id ↔ ActiveIn t id) ↔ ∀ row ∈ t.rows, p row = true → row.memory.state ≠ .active := by
  constructor
  · intro same row member gone active
    obtain ⟨other,left,equal,_⟩ := (same row.id).mpr ⟨row,member,rfl,active⟩
    obtain ⟨there,spared⟩ := (Table.mem_delete t p other).mp left
    cases t.eq_of_key there member equal
    cases spared.symm.trans gone
  · intro idle id
    constructor
    · rintro ⟨row,left,same,active⟩
      exact ⟨row,((Table.mem_delete t p row).mp left).1,same,active⟩
    · rintro ⟨row,member,same,active⟩
      exact ⟨row,(Table.mem_delete t p row).mpr ⟨member,Bool.eq_false_iff.mpr (fun gone => idle row member gone active)⟩,
        same,active⟩

section
variable (env : Env)

@[simp] theorem forgetAll_changes (e : Engine) (ids : List Uuid) : (ids.foldl Engine.forgetIndexes e).changes = e.changes := by
  induction ids generalizing e with
  | nil => rfl
  | cons id ids ih => exact ih (e.forgetIndexes id)

theorem memoryApplyRows_changes (stamp : Uuid → Int) (e : Engine) (rows : List MemoryRow) :
    (memoryApplyRows env stamp e rows).changes = e.changes ++ rows.map (fun row => .of row.memory) := by
  induction rows generalizing e with
  | nil => simp [memoryApplyRows]
  | cons row rows ih =>
    have first : (applyRow env stamp e row).changes = e.changes ++ [.of row.memory] := by
      unfold applyRow
      cases row.memory.state <;> rfl
    have rest := ih (applyRow env stamp e row)
    rw [first,List.append_assoc] at rest
    exact rest

theorem memoryApplyRowsBatch_changes {e after : Engine} {rows : List MemoryRow} (ok : memoryApplyRowsBatch e rows = .ok after) :
    after.changes = e.changes ++ rows.map (fun row => .of row.memory) := by
  have folded (e : Engine) : (rows.foldl applyBatchRow e).changes = e.changes ++ rows.map (fun row => .of row.memory) := by
    clear ok
    induction rows generalizing e with
    | nil => simp
    | cons row rows ih =>
      have first : (applyBatchRow e row).changes = e.changes ++ [.of row.memory] := by
        unfold applyBatchRow
        cases row.memory.state <;> rfl
      have rest := ih (applyBatchRow e row)
      rw [first,List.append_assoc] at rest
      exact rest
  unfold memoryApplyRowsBatch at ok
  split at ok
  next empty =>
    cases ok
    simp [List.isEmpty_iff.mp empty]
  next =>
    split at ok
    next => cases ok
    next memories written =>
      cases ok
      exact folded { e with memories := memories }

end

/-- The calls that change memories, each with what it reads from outside. -/
inductive StreamCall where
  | add (d : Draw) (input : MemoryInput)
  | addBatch (inputs : List (MemoryInput × Draw))
  | update (id : Uuid) (patch : MemoryPatch) (tenant : Option String) (d : Draw)
  | propose (d : Draw) (input : MemoryInput)
  | accept (id : Uuid) (tenant : String) (d : Draw) (now : Int)
  | reject (id : Uuid) (tenant : String) (now : Int)
  | expire (ids : List Uuid) (stamp : Uuid → Int)
  | delete (id : Uuid)
  | deleteScoped (id : Uuid) (tenant : String)
  | enforceDecay (decay : Decay) (now : Int)
  | document (doc : DocumentIngest) (scope : MemoryScope) (opts : ChunkOptions) (draws : Nat → Draw) (now : Int)
  | deleteUser (tenant userId : String)
  | deleteTenant (tenant : String)
  | importMemories (memories : List Memory)

section
variable (env : Env)

def StreamCall.step (e : Engine) : StreamCall → Engine
  | .add d input => (memoryAdd env e d input).2
  | .addBatch inputs => (memoryAddBatch env e inputs).2
  | .update id patch tenant d => (memoryUpdate env e id patch tenant d).2
  | .propose d input => (memoryPropose env e d input).2
  | .accept id tenant d now => (memoryAccept env e id tenant d now).2
  | .reject id tenant now => (memoryReject env e id tenant now).2
  | .expire ids stamp => memoryExpire stamp e ids
  | .delete id => memoryDelete e id
  | .deleteScoped id tenant => (memoryDeleteScoped e id tenant).2
  | .enforceDecay decay now => (e.memoryEnforceDecay decay now).2
  | .document doc scope opts draws now => (documentIngest env e doc scope opts draws now).2
  | .deleteUser tenant userId => (e.deleteUser tenant userId).2
  | .deleteTenant tenant => (e.deleteTenant tenant).2
  | .importMemories memories => (e.importMemories memories).2

/-- The identifier drawn by an acceptance is new. -/
def StreamCall.DrawsNew (e : Engine) : StreamCall → Prop
  | .accept _ _ d _ => d.id ∉ e.memories.keys
  | _ => True

/-- What the call does in silence leaves the active rows: nothing is evicted or decayed, no active row is deleted, and
what is imported is active where an active row was and nowhere else. -/
def StreamCall.Announced (e : Engine) : StreamCall → Prop
  | .add d input => addEvictions env e d input = []
  | .accept id tenant d _ => ∀ proposal, pendingOf e id tenant = some proposal →
      addEvictions env e d (proposalInput proposal) = []
  | .delete id => ∀ row ∈ e.memories.rows, row.id = id → row.memory.state ≠ .active
  | .deleteScoped id tenant => ∀ row ∈ e.memories.rows, row.id = id → row.memory.scope.tenantId = tenant →
      row.memory.state ≠ .active
  | .enforceDecay decay now => ∀ row ∈ e.memories.rows, decay.forgets now row.memory = false
  | .deleteUser tenant userId => ∀ row ∈ e.memories.rows, MemoryTable.ofUser tenant userId row = true →
      row.memory.state ≠ .active
  | .deleteTenant tenant => ∀ row ∈ e.memories.rows, MemoryTable.ofTenant tenant row = true → row.memory.state ≠ .active
  | .importMemories memories => ∀ id m, memories.reverse.find? (fun m => m.id = id) = some m →
      (m.state = .active ↔ ActiveIn e.memories id)
  | _ => True

def Engine.InSync (e : Engine) : Prop := Ecphoria.InSync e.memories e.changes

variable {env}

theorem Engine.InSync.applied {e after : Engine} (sync : e.InSync) {rows : List MemoryRow}
    (memories : after.memories = e.memories.upsertRows rows)
    (changes : after.changes = e.changes ++ rows.map (fun row => .of row.memory)) : after.InSync := by
  rw [Engine.InSync,memories,changes]
  exact InSync.upsertRows sync rows

theorem evictOverCap_changes (e : Engine) (scope : MemoryScope) : (evictOverCap e scope).changes = e.changes :=
  forgetAll_changes _ _

variable (env) in
theorem memoryAdd_inSync {e : Engine} (sync : e.InSync) (d : Draw) (input : MemoryInput) :
    ∃ reached : Engine, reached.InSync ∧ (memoryAdd env e d input).2.changes = reached.changes ∧
      (memoryAdd env e d input).2.memories = reached.memories.delete (fun row => row.id ∈ addEvictions env e d input) ∧
      (∀ id ∈ addEvictions env e d input, ActiveIn reached.memories id) ∧
      ∀ id, id ≠ d.id → ActiveIn reached.memories id → ActiveIn e.memories id := by
  cases ok : memoryPlan env e d input with
  | error err =>
    have idle : addEvictions env e d input = [] := by simp only [addEvictions,ok]
    refine ⟨e,sync,by simp only [memoryAdd,ok],?_,by simp [idle],fun _ _ active => active⟩
    apply Table.ext
    simp [memoryAdd,ok,idle,Table.delete]
  | ok planned =>
    have memories := memoryApplyRows_memories env d.stamp e planned.rows
    have evicts : addEvictions env e d input = (memoryApplyRows env d.stamp e planned.rows).memories.overCap
        planned.add.memory.scope e.config.cognition.maxMemoriesPerScope := by
      simp only [addEvictions,ok]
      rfl
    refine ⟨memoryApplyRows env d.stamp e planned.rows,sync.applied memories (memoryApplyRows_changes env d.stamp e _),?_,?_,
      ?_,?_⟩
    · rw [memoryAdd_planned env ok]
      exact evictOverCap_changes _ _
    · rw [memoryAdd_planned env ok,evicts]
      change (evictOverCap _ _).memories = _
      rw [evictOverCap_memories,memoryApplyRows_config]
      rfl
    · intro id evicted
      rw [evicts] at evicted
      exact MemoryTable.overCap_active evicted
    · rintro id other ⟨row,member,rfl,active⟩
      rw [memories] at member
      rcases MemoryTable.mem_upsertRows member with ⟨written,inside,rfl⟩ | ⟨old,_⟩
      · rcases (memoryPlanWithEmbedding_cases env ok).2.targets inside with ⟨old,there,stood,same⟩ | ⟨drawn,_⟩
        · exact ⟨old,there,same,stood⟩
        · exact absurd drawn other
      · exact ⟨row,old,rfl,active⟩

variable (env) in
theorem memoryAdd_inSync_iff {e : Engine} (sync : e.InSync) (d : Draw) (input : MemoryInput) :
    (memoryAdd env e d input).2.InSync ↔ addEvictions env e d input = [] := by
  obtain ⟨reached,synced,changes,memories,active,_⟩ := memoryAdd_inSync env sync d input
  rw [Engine.InSync,changes,memories,InSync.silent_iff synced,activeIn_delete_iff]
  constructor
  · intro idle
    by_contra evicts
    obtain ⟨id,evicted⟩ := List.exists_mem_of_ne_nil _ evicts
    obtain ⟨row,member,rfl,stands⟩ := active id evicted
    exact idle row member (decide_eq_true evicted) stands
  · intro idle row _ evicted
    simp [idle] at evicted

theorem memoryApplyRowsBatch_inSync {e after : Engine} {rows : List MemoryRow} (sync : e.InSync)
    (ok : memoryApplyRowsBatch e rows = .ok after) : after.InSync :=
  sync.applied (memoryApplyRowsBatch_memories ok) (memoryApplyRowsBatch_changes ok)

variable (env) in
theorem batchLoop_inSync {e : Engine} (sync : e.InSync) (inputs : List (MemoryInput × Draw)) (buffer : Buffer)
    (adds : List MemoryAdd) : (batchLoop env inputs e buffer adds).2.InSync := by
  induction inputs generalizing e buffer adds with
  | nil =>
    unfold batchLoop
    split
    next => exact sync
    next after applied => exact memoryApplyRowsBatch_inSync sync applied
  | cons item rest ih =>
    unfold batchLoop
    split
    next => exact sync
    next after left flushed =>
      have reached : after.InSync := by
        rcases flushColliding_cases flushed with ⟨_,rfl,rfl⟩ | ⟨_,applied,rfl⟩
        · exact sync
        · exact memoryApplyRowsBatch_inSync sync applied
      split
      next => exact reached
      next => exact ih reached _ _

theorem documentIngest_inSync {e : Engine} (sync : e.InSync) (doc : DocumentIngest) (scope : MemoryScope)
    (opts : ChunkOptions) (draws : Nat → Draw) (now : Int) : (documentIngest env e doc scope opts draws now).2.InSync := by
  have batch := batchLoop_inSync env sync (withDraws (documentInputs doc scope opts) draws) ⟨[],[]⟩ []
  unfold documentIngest
  dsimp only
  split
  next err after added =>
    rw [memoryAddBatch] at added
    rw [added] at batch
    exact batch
  next added after ok =>
    rw [memoryAddBatch] at ok
    rw [ok] at batch
    split
    next => exact batch
    next swept applied => exact memoryApplyRowsBatch_inSync batch applied

theorem retireProposal_inSync {e : Engine} (sync : e.InSync) (proposal : Memory) (decision : String)
    (acceptedAs : Option Uuid) (now : Int) : (retireProposal env e proposal decision acceptedAs now).InSync :=
  InSync.announced sync ⟨retiredProposal env proposal decision acceptedAs now,none⟩

theorem memoryAccept_inSync_iff {e : Engine} (sync : e.InSync) {id : Uuid} {tenant : String} {d : Draw}
    (fresh : d.id ∉ e.memories.keys) (now : Int) : (memoryAccept env e id tenant d now).2.InSync ↔
      ∀ proposal, pendingOf e id tenant = some proposal → addEvictions env e d (proposalInput proposal) = [] := by
  cases found : pendingOf e id tenant with
  | none =>
    simp only [memoryAccept,found]
    exact iff_of_true sync (fun proposal given => by cases given)
  | some proposal =>
    have single : (∀ other, some proposal = some other → addEvictions env e d (proposalInput other) = []) ↔
        addEvictions env e d (proposalInput proposal) = [] := by simp
    rw [single]
    obtain ⟨reached,synced,changes,memories,active,before⟩ := memoryAdd_inSync env sync d (proposalInput proposal)
    have whole := memoryAdd_inSync_iff env sync d (proposalInput proposal)
    cases added : memoryAdd env e d (proposalInput proposal) with
    | mk answer after =>
    rw [added] at changes memories whole
    cases answer with
    | error err =>
      simp only [memoryAccept,found,added]
      exact whole
    | ok add =>
      simp only [memoryAccept,found,added]
      constructor
      · intro both
        by_contra evicts
        obtain ⟨other,evicted⟩ := List.exists_mem_of_ne_nil _ evicts
        have apart : proposal.id ≠ other := by
          rintro rfl
          obtain ⟨stored,pending⟩ := pendingOf_found found
          obtain ⟨row,member,rfl,_⟩ := MemoryTable.get_eq_some stored
          have old : row.memory.id ≠ d.id := fun drawn => fresh (drawn ▸ (Table.mem_keys _ _).mpr ⟨row,member,rfl⟩)
          obtain ⟨same,there,equal,stands⟩ := before row.memory.id old (active _ evicted)
          cases e.memories.eq_of_key there member equal
          cases pending.symm.trans stands
        have kept := InSync.of_announced ⟨retiredProposal env proposal "accepted" (some add.memory.id) now,none⟩ both apart
        rw [changes,memories] at kept
        obtain ⟨row,left,rfl,_⟩ := kept.mp ((synced other).mpr (active other evicted))
        have spared := ((Table.mem_delete _ _ row).mp left).2
        simp [evicted] at spared
      · intro spared
        exact retireProposal_inSync (whole.mpr spared) _ _ _ _

theorem deleted_inSync_iff {e after : Engine} {p : MemoryRow → Bool} (sync : e.InSync) (changes : after.changes = e.changes)
    (memories : after.memories = e.memories.delete p) :
    after.InSync ↔ ∀ row ∈ e.memories.rows, p row = true → row.memory.state ≠ .active := by
  rw [Engine.InSync,changes,memories,InSync.silent_iff sync,activeIn_delete_iff]

theorem memoryDelete_inSync_iff {e : Engine} (sync : e.InSync) (id : Uuid) :
    (memoryDelete e id).InSync ↔ ∀ row ∈ e.memories.rows, row.id = id → row.memory.state ≠ .active := by
  have changes : (memoryDelete e id).changes = e.changes := rfl
  have memories : (memoryDelete e id).memories = e.memories.delete (fun row => decide (row.id = id)) := rfl
  rw [deleted_inSync_iff sync changes memories]
  simp only [decide_eq_true_eq]

theorem memoryDeleteScoped_inSync_iff {e : Engine} (sync : e.InSync) (id : Uuid) (tenant : String) :
    (memoryDeleteScoped e id tenant).2.InSync ↔ ∀ row ∈ e.memories.rows, row.id = id →
      row.memory.scope.tenantId = tenant → row.memory.state ≠ .active := by
  have owned {row : MemoryRow} (member : row ∈ e.memories.rows) (same : row.id = id) :
      (e.memories.getScoped id tenant).isSome = true ↔ row.memory.scope.tenantId = tenant := by
    have found : e.memories.get id = some row.memory :=
      congrArg (Option.map MemoryRow.memory) ((Table.find_eq_some _ _ _).mpr ⟨member,same⟩)
    rw [MemoryTable.getScoped,found]
    simp [Option.filter]
  unfold memoryDeleteScoped
  split
  next here =>
    rw [memoryDelete_inSync_iff sync]
    exact forall₃_congr (fun row member same => by simp [(owned member same).mp here])
  next away =>
    refine iff_of_true sync ?_
    intro row member same tenant
    exact absurd ((owned member same).mpr tenant) away

theorem memoryEnforceDecay_inSync_iff {e : Engine} (sync : e.InSync) (decay : Decay) (now : Int) :
    (e.memoryEnforceDecay decay now).2.InSync ↔ ∀ row ∈ e.memories.rows, decay.forgets now row.memory = false := by
  have changes : (e.memoryEnforceDecay decay now).2.changes = e.changes := forgetAll_changes _ _
  have memories : (e.memoryEnforceDecay decay now).2.memories = (e.memories.decay decay now).2 :=
    congrArg Tables.memories (forgetAll_frame _ _).1
  rw [Engine.InSync,changes,memories,InSync.silent_iff sync]
  have listed (row : MemoryRow) : row ∈ (e.memories.decay decay now).2.rows ↔ ∃ old ∈ e.memories.rows,
      (if decay.forgets now old.memory then old.forgotten now else old) = row :=
    Table.mem_update e.memories (fun row => decay.forgets now row.memory) (fun row => row.forgotten now) (fun _ => rfl) row
  constructor
  · intro same row member
    by_contra forgets
    have forgets := Bool.eq_true_of_not_eq_false forgets
    have active : row.memory.state = .active := by
      simp only [Decay.forgets,Bool.and_eq_true,decide_eq_true_eq] at forgets
      exact forgets.1
    obtain ⟨after,there,equal,stands⟩ := (same row.id).mpr ⟨row,member,rfl,active⟩
    obtain ⟨old,before,rfl⟩ := (listed after).mp there
    by_cases gone : decay.forgets now old.memory
    · rw [if_pos gone] at stands
      cases stands
    · rw [if_neg gone] at equal
      cases e.memories.eq_of_key before member equal
      exact gone forgets
  · intro idle id
    have kept (row : MemoryRow) : row ∈ (e.memories.decay decay now).2.rows ↔ row ∈ e.memories.rows := by
      rw [listed]
      constructor
      · rintro ⟨old,member,same⟩
        rw [if_neg (by simp [idle old member])] at same
        exact same ▸ member
      · intro member
        exact ⟨row,member,by rw [if_neg (by simp [idle row member])]⟩
    simp only [ActiveIn,kept]

theorem activeIn_expire (t : MemoryTable) (id : Uuid) (now : Int) (other : Uuid) :
    ActiveIn (t.expire id now) other ↔ other ≠ id ∧ ActiveIn t other := by
  constructor
  · rintro ⟨row,there,rfl,active⟩
    obtain ⟨old,member,rfl⟩ := (Table.mem_update _ _ _ _ _).mp there
    split at active
    next => cases active
    next spared =>
      rw [if_neg spared]
      simp only [Bool.and_eq_true,decide_eq_true_eq,not_and] at spared
      exact ⟨fun same => spared same active,old,member,rfl,active⟩
  · rintro ⟨apart,row,member,rfl,active⟩
    refine ⟨row,(Table.mem_update _ _ _ _ _).mpr ⟨row,member,?_⟩,rfl,active⟩
    rw [if_neg (by simp [apart])]

theorem expireOne_inSync {e : Engine} (sync : e.InSync) (stamp : Uuid → Int) (id : Uuid) :
    (expireOne stamp e id).InSync := by
  intro other
  have memories : (expireOne stamp e id).memories = e.memories.expire id (stamp id) := by
    unfold expireOne
    cases e.memories.get id <;> rfl
  rw [memories,activeIn_expire]
  cases found : e.memories.get id with
  | none =>
    have changes : (expireOne stamp e id).changes = e.changes := by
      simp only [expireOne,found]
      rfl
    rw [changes,sync other]
    refine (and_iff_right_of_imp ?_).symm
    rintro ⟨row,member,rfl,_⟩ rfl
    have stored : e.memories.get row.id = some row.memory :=
      congrArg (Option.map MemoryRow.memory) ((Table.find_eq_some _ _ _).mpr ⟨member,rfl⟩)
    cases found.symm.trans stored
  | some m =>
    have changes : (expireOne stamp e id).changes =
        e.changes ++ [⟨id,m.scope.tenantId,m.scope.userId,"expired",m.subject⟩] := by
      simp only [expireOne,found]
      rfl
    rw [changes,Upserted,latestEvent_append]
    by_cases same : id = other
    · rw [if_pos same]
      simp [same]
    · rw [if_neg same,and_iff_right (Ne.symm same)]
      exact sync other

theorem memoryExpire_inSync {e : Engine} (sync : e.InSync) (stamp : Uuid → Int) (ids : List Uuid) :
    (memoryExpire stamp e ids).InSync := by
  induction ids generalizing e with
  | nil => exact sync
  | cons id ids ih => exact ih (expireOne_inSync sync stamp id)

theorem activeIn_upsertRows (t : MemoryTable) (rows : List MemoryRow) (id : Uuid) :
    ActiveIn (t.upsertRows rows) id ↔ match rows.reverse.find? (fun row => row.id = id) with
      | some row => row.memory.state = .active
      | none => ActiveIn t id := by
  induction rows generalizing t with
  | nil => exact Iff.rfl
  | cons row rows ih =>
    have rest := ih (t.upsertRaw row)
    rw [activeIn_upsertRaw] at rest
    rw [List.reverse_cons,List.find?_append]
    refine rest.trans ?_
    cases rows.reverse.find? (fun row => row.id = id) with
    | some last => exact Iff.rfl
    | none =>
      by_cases same : row.id = id
      · simp [same]
      · simp [same]

theorem importMemories_inSync_iff {e : Engine} (sync : e.InSync) (memories : List Memory) :
    (e.importMemories memories).2.InSync ↔ ∀ id m, memories.reverse.find? (fun m => m.id = id) = some m →
      (m.state = .active ↔ ActiveIn e.memories id) := by
  have after : (e.importMemories memories).2.memories = e.memories.upsertRows (memories.map (fun m => ⟨m,none⟩)) := rfl
  have changes : (e.importMemories memories).2.changes = e.changes := rfl
  rw [Engine.InSync,changes,after,InSync.silent_iff sync]
  refine forall_congr' (fun id => ?_)
  rw [activeIn_upsertRows,← List.map_reverse,List.find?_map]
  change ((match (memories.reverse.find? (fun m => m.id = id)).map (fun m => (⟨m,none⟩ : MemoryRow)) with
    | some row => row.memory.state = .active
    | none => ActiveIn e.memories id) ↔ ActiveIn e.memories id) ↔
    ∀ m, memories.reverse.find? (fun m => m.id = id) = some m → (m.state = .active ↔ ActiveIn e.memories id)
  cases memories.reverse.find? (fun m => m.id = id) with
  | some last => simp
  | none => simp

theorem memoryUpdate_inSync {e : Engine} (sync : e.InSync) (id : Uuid) (patch : MemoryPatch) (tenant : Option String)
    (d : Draw) : (memoryUpdate env e id patch tenant d).2.InSync := by
  unfold memoryUpdate
  split
  next => exact sync
  next m rows planned =>
    exact sync.applied (memoryApplyRows_memories env d.stamp e rows) (memoryApplyRows_changes env d.stamp e rows)

theorem memoryPropose_inSync {e : Engine} (sync : e.InSync) (d : Draw) (input : MemoryInput) :
    (memoryPropose env e d input).2.InSync := by
  unfold memoryPropose
  dsimp only
  split
  next => exact sync
  next => exact InSync.announced sync ⟨proposalMemory d (canonicalInput env input),none⟩

theorem memoryReject_inSync {e : Engine} (sync : e.InSync) (id : Uuid) (tenant : String) (now : Int) :
    (memoryReject env e id tenant now).2.InSync := by
  unfold memoryReject
  split
  next => exact sync
  next => exact retireProposal_inSync sync _ _ _ _

theorem deleteUser_inSync_iff {e : Engine} (sync : e.InSync) (tenant userId : String) :
    (e.deleteUser tenant userId).2.InSync ↔
      ∀ row ∈ e.memories.rows, MemoryTable.ofUser tenant userId row = true → row.memory.state ≠ .active :=
  deleted_inSync_iff sync (forgetAll_changes _ _) (congrArg Tables.memories (forgetAll_frame _ _).1)

theorem deleteTenant_inSync_iff {e : Engine} (sync : e.InSync) (tenant : String) :
    (e.deleteTenant tenant).2.InSync ↔
      ∀ row ∈ e.memories.rows, MemoryTable.ofTenant tenant row = true → row.memory.state ≠ .active :=
  deleted_inSync_iff sync (forgetAll_changes _ _) (congrArg Tables.memories (Engine.deleteTenant_tables e tenant))

theorem StreamCall.step_inSync_iff {e : Engine} (sync : e.InSync) (c : StreamCall) (fresh : c.DrawsNew e) :
    (c.step env e).InSync ↔ c.Announced env e := by
  cases c with
  | add d input => exact memoryAdd_inSync_iff env sync d input
  | addBatch inputs => exact iff_of_true (batchLoop_inSync env sync inputs ⟨[],[]⟩ []) trivial
  | update id patch tenant d => exact iff_of_true (memoryUpdate_inSync sync id patch tenant d) trivial
  | propose d input => exact iff_of_true (memoryPropose_inSync sync d input) trivial
  | accept id tenant d now => exact memoryAccept_inSync_iff sync fresh now
  | reject id tenant now => exact iff_of_true (memoryReject_inSync sync id tenant now) trivial
  | expire ids stamp => exact iff_of_true (memoryExpire_inSync sync stamp ids) trivial
  | delete id => exact memoryDelete_inSync_iff sync id
  | deleteScoped id tenant => exact memoryDeleteScoped_inSync_iff sync id tenant
  | enforceDecay decay now => exact memoryEnforceDecay_inSync_iff sync decay now
  | document doc scope opts draws now => exact iff_of_true (documentIngest_inSync sync doc scope opts draws now) trivial
  | deleteUser tenant userId => exact deleteUser_inSync_iff sync tenant userId
  | deleteTenant tenant => exact deleteTenant_inSync_iff sync tenant
  | importMemories memories => exact importMemories_inSync_iff sync memories

end

/-- Along every run of calls the subscriber holds the active rows exactly as long as the calls are announced. -/
theorem stream_follows (env : Env) {e : Engine} {calls : List StreamCall} (start : e.InSync)
    (fresh : Along (fun e c => StreamCall.step env e c) (fun e c => c.DrawsNew e) e calls) :
    Throughout (fun e c => StreamCall.step env e c) Engine.InSync e calls ↔
      Along (fun e c => StreamCall.step env e c) (fun e c => c.Announced env e) e calls :=
  Along.throughout_iff (fun _ => True) fresh trivial start
    (fun _ c _ sync drawn => ⟨trivial,StreamCall.step_inSync_iff sync c drawn⟩)

theorem inSync_empty (config : CoreConfig) (dimension : Nat) : (Engine.empty config dimension).InSync := by
  intro id
  simp [Engine.empty,Upserted,latestEvent,ActiveIn,Table.empty]

private def planOf (content : String) : MemoryInput := { MemoryInput.new (.tenant "acme") content with subject := some "plan" }

/-- A version that is deleted once another has taken its place, and a proposal that is accepted. -/
def announcedCalls : List StreamCall :=
  [.add (.plain 1000 1) (planOf "free"),.add (.plain 2000 2) (planOf "pro"),.delete 1,
    .propose (.plain 3000 3) (MemoryInput.new (.tenant "acme") "send a quote"),.accept 3 "acme" (.plain 4000 4) 4000,
    .expire [2] (fun _ => 5000),.deleteScoped 2 "acme",.deleteUser "acme" "ada"]

theorem stream_follows_announced :
    Throughout (fun e c => StreamCall.step .ascii e c) Engine.InSync (.empty .default 2) announcedCalls := by
  refine (stream_follows .ascii (inSync_empty .default 2) ?_).mpr ⟨?_,?_,?_,trivial,?_,trivial,?_,?_,trivial⟩
  · refine ⟨trivial,trivial,trivial,trivial,?_,trivial,trivial,trivial,trivial⟩
    unfold StreamCall.DrawsNew
    decide +kernel
  · unfold StreamCall.Announced
    decide +kernel
  · unfold StreamCall.Announced
    decide +kernel
  · unfold StreamCall.Announced
    decide +kernel
  · intro proposal found
    have none : ∀ proposal ∈ pendingOf (run (fun e c => StreamCall.step .ascii e c) (.empty .default 2)
        (announcedCalls.take 4)) 3 "acme", addEvictions .ascii (run (fun e c => StreamCall.step .ascii e c)
        (.empty .default 2) (announcedCalls.take 4)) (.plain 4000 4) (proposalInput proposal) = [] := by decide +kernel
    exact none proposal found
  · unfold StreamCall.Announced
    decide +kernel
  · unfold StreamCall.Announced
    decide +kernel

def silentDelete : List StreamCall := [.add (.plain 1000 1) (planOf "free"),.delete 1]

/-- The deleted row is gone, and the last the subscriber heard of it is that it was written. -/
theorem delete_unannounced :
    ¬Throughout (fun e c => StreamCall.step .ascii e c) Engine.InSync (.empty .default 2) silentDelete := by
  intro sync
  have last : (run (fun e c => StreamCall.step .ascii e c) (.empty .default 2) silentDelete).InSync := sync 2
  have heard : latestEvent (run (fun e c => StreamCall.step .ascii e c) (.empty .default 2) silentDelete).changes 1 =
      some "upserted" := by decide +kernel
  have left : (run (fun e c => StreamCall.step .ascii e c) (.empty .default 2) silentDelete).memories.rows.length = 0 := by
    decide +kernel
  obtain ⟨row,member,_⟩ := (last 1).mp heard
  rw [List.length_eq_zero_iff.mp left] at member
  cases member

end Ecphoria
