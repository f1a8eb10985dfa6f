import Ecphoria.Cluster.Backup
import Ecphoria.Engine.IndexFrame
import Ecphoria.Engine.Upkeep
import Ecphoria.Engine.Waiting
import Ecphoria.Library.Transition

/-! The vector index beside the memories. A row is stored with its vector and indexed with
it; what can part the two is a correction that stores none while the index keeps the old
one, and a restore, which fills the index over what it held. -/
namespace Ecphoria
open Library

/-- The index holds the vector of every active memory that has one, in the partition of its scope, and no
other; that is, what a restart gives. -/
def VectorsAgree (e : Engine) : Prop :=
  (∀ key entry, entry ∈ (e.vectors.partitions key).entries.rows ↔
      ∃ row ∈ e.memories.rows, row.memory.state = .active ∧ ∃ emb, row.embedding = some emb ∧ emb ≠ [] ∧
        scopePartitionKey row.memory.scope = key ∧ row.memory.toSemanticEntry emb = entry) ∧
    e.vectors.Same (rebuildVectorIndex e.vectors.dimension e.memories)

def VectorsFollow (e : Engine) : Prop := Follows e.memories vectorView e.vectors.holding

theorem mem_vectorPlace {row : MemoryRow} {key : String} {entry : SemanticEntry} :
    vectorPlace (some row) = some (key,entry) ↔ row.memory.state = .active ∧ ∃ emb, row.embedding = some emb ∧
      emb ≠ [] ∧ scopePartitionKey row.memory.scope = key ∧ row.memory.toSemanticEntry emb = entry := by
  by_cases active : row.memory.state = .active
  · have place : vectorPlace (some row) = (row.embedding.filter (fun emb => !emb.isEmpty)).map
        (fun emb => (scopePartitionKey row.memory.scope,row.memory.toSemanticEntry emb)) := if_pos active
    rw [place,Option.map_eq_some_iff]
    constructor
    · rintro ⟨emb,kept,same⟩
      obtain ⟨given,some_numbers⟩ := Option.filter_eq_some_iff.mp kept
      obtain ⟨home,own⟩ := Prod.mk.inj same
      exact ⟨active,emb,given,by simpa using some_numbers,home,own⟩
    · rintro ⟨_,emb,given,some_numbers,rfl,rfl⟩
      exact ⟨emb,Option.filter_eq_some_iff.mpr ⟨given,by simpa using some_numbers⟩,rfl⟩
  · simp [vectorPlace_idle active,active]

theorem vectorsAgree_iff {e : Engine} (landing : Landing e.vectors.dimension e.memories) :
    VectorsAgree e ↔ VectorsFollow e := by
  constructor
  · intro agrees id
    exact ((ScopedVectorIndex.same_iff.mp agrees.2).2 id).trans (holding_rebuilt landing id)
  · intro follows
    refine ⟨?_,ScopedVectorIndex.same_iff.mpr ⟨by simp [rebuildVectorIndex,ScopedVectorIndex.withDimension],?_⟩⟩
    · intro key entry
      have held : (e.vectors.partitions key).entries.find entry.id =
          ((vectorPlace (e.memories.find entry.id)).filter (fun place => place.1 = key)).map Prod.snd :=
        congrFun (congrArg Prod.snd (follows entry.id)) key
      have found : entry ∈ (e.vectors.partitions key).entries.rows ↔
          vectorPlace (e.memories.find entry.id) = some (key,entry) := by
        have stored := Table.find_eq_some (e.vectors.partitions key).entries entry.id entry
        rw [held] at stored
        constructor
        · intro inside
          obtain ⟨place,kept,same⟩ := Option.map_eq_some_iff.mp (stored.mpr ⟨inside,rfl⟩)
          obtain ⟨placed,home⟩ := Option.filter_eq_some_iff.mp kept
          rw [placed,← same,← of_decide_eq_true home]
        · intro placed
          refine (stored.mp ?_).1
          simp [placed,Option.filter_some]
      rw [found]
      constructor
      · intro placed
        obtain ⟨row,stored,_⟩ := Option.bind_eq_some_iff.mp placed
        rw [stored] at placed
        exact ⟨row,((e.memories.find_eq_some _ row).mp stored).1,mem_vectorPlace.mp placed⟩
      · rintro ⟨row,member,active,emb,given,some_numbers,home,rfl⟩
        have stored : e.memories.find row.memory.id = some row := (e.memories.find_eq_some _ row).mpr ⟨member,rfl⟩
        change vectorPlace (e.memories.find row.memory.id) = _
        rw [stored]
        exact mem_vectorPlace.mpr ⟨active,emb,given,some_numbers,home,rfl⟩
    · intro id
      exact (follows id).trans (holding_rebuilt landing id).symm

/-- The calls that touch the vectors of memories, each with what it reads from outside; a restart may find
a provider or none. -/
inductive VectorCall where
  | add (d : Draw) (input : MemoryInput)
  | update (id : Uuid) (patch : MemoryPatch) (tenant : Option String) (d : Draw)
  | feedback (id : Uuid) (tenant : Option String) (verdict : MemoryFeedback) (now : Int) (stamp : Uuid → Int)
  | expire (ids : List Uuid) (stamp : Uuid → Int)
  | delete (id : Uuid)
  | reembed (limit : Nat) (vectors : Uuid → Option (List Rat)) (stamp : Uuid → Int)
  | document (doc : DocumentIngest) (scope : MemoryScope) (opts : ChunkOptions) (draws : Nat → Draw) (now : Int)
  | restore (dir : BackupDir)
  | restart (config : CoreConfig) (semantic : SemanticStore)

section
variable (env : Env) (sha256 : Artifact → String)

def VectorCall.step (e : Engine) : VectorCall → Engine
  | .add d input => (memoryAdd env e d input).2
  | .update id patch tenant d => (memoryUpdate env e id patch tenant d).2
  | .feedback id tenant verdict now stamp => (memoryFeedback env e id tenant verdict now stamp).2
  | .expire ids stamp => memoryExpire stamp e ids
  | .delete id => memoryDelete e id
  | .reembed limit vectors stamp => (memoryReembed env e limit vectors stamp).2
  | .document doc scope opts draws now => (documentIngest env e doc scope opts draws now).2
  | .restore dir => (restoreFromBackup sha256 e dir).2
  | .restart config semantic => e.reopen config semantic

/-- The vector drawn for a content, if there is one, can be written to the index. -/
def DrawLands (e : Engine) (d : Draw) : Prop :=
  ∀ emb, e.embedMemoryContent d = some emb → ScopedVectorIndex.Takes e.vectors.dimension emb

def VectorCall.Lands (e : Engine) : VectorCall → Prop
  | .add d _ => DrawLands e d
  | .update _ _ _ d => DrawLands e d
  | .reembed _ vectors _ => ∀ id emb, vectors id = some emb → ScopedVectorIndex.Takes e.vectors.dimension emb
  | .document _ _ _ draws _ => ∀ i, DrawLands e (draws i)
  | .restore dir => verifyBackup sha256 dir = .ok () → Landing e.vectors.dimension (dir.memoriesOver e.memories)
  | _ => True

def VectorCall.DrawsNew (e : Engine) : VectorCall → Prop
  | .add d _ => d.id ∉ e.memories.keys
  | .document doc scope opts draws _ =>
    AlongBatch env DrawNew (withDraws (documentInputs doc scope opts) draws) e ⟨[],[]⟩
  | _ => True

/-- Without a provider, a correction that changes the content is of a memory that has no vector; and every
active memory with a vector has one in the backup that is restored. -/
def VectorCall.Keeps (e : Engine) : VectorCall → Prop
  | .update id patch tenant _ => e.config.embedding = false → ∀ m, lookup e id tenant = some m → m.state = .active →
      patch.Changes m → e.memories.getEmbedding id = none
  | .restore dir => verifyBackup sha256 dir = .ok () → ∀ id, vectorPlace (e.memories.find id) ≠ none →
      vectorPlace ((dir.memoriesOver e.memories).find id) ≠ none
  | _ => True

/-- What the steps keep: the stored vectors can be written, and the index follows them. -/
structure VectorsSound (e : Engine) : Prop where
  landing : Landing e.vectors.dimension e.memories
  follows : VectorsFollow e

theorem vectorPlace_of_bare {t : MemoryTable} {id : Uuid} (bare : t.getEmbedding id = none) :
    vectorPlace (t.find id) = none := by
  cases found : t.find id with
  | none => rfl
  | some row =>
    rw [MemoryTable.getEmbedding,found,Option.bind_some] at bare
    by_cases active : row.memory.state = .active
    · simp [vectorPlace,active,bare]
    · exact vectorPlace_idle active

theorem getEmbedding_stored {t : MemoryTable} {row : MemoryRow} {emb : List Rat} (member : row ∈ t.rows)
    (given : t.getEmbedding row.id = some emb) : row.embedding = some emb := by
  have found : t.find row.id = some row := (t.find_eq_some _ row).mpr ⟨member,rfl⟩
  rw [MemoryTable.getEmbedding,found,Option.bind_some] at given
  exact (Option.filter_eq_some_iff.mp given).1

theorem getEmbedding_of_absent {t : MemoryTable} {row : MemoryRow} (member : row ∈ t.rows)
    (active : row.memory.state = .active) (absent : vectorPlace (t.find row.id) = none) :
    t.getEmbedding row.id = none := by
  have found : t.find row.id = some row := (t.find_eq_some _ row).mpr ⟨member,rfl⟩
  rw [MemoryTable.getEmbedding,found,Option.bind_some]
  rw [found,vectorPlace,Option.bind_some,if_pos active] at absent
  exact Option.map_eq_none_iff.mp absent

/-- Rows that can be applied: their vectors can be written, and an active one without a vector is of a
memory that has none. -/
structure Ready (e : Engine) (rows : List MemoryRow) : Prop where
  backed : Backed rows
  lands : ∀ row ∈ rows, row.memory.state = .active → ∀ emb, row.embedding = some emb →
    ScopedVectorIndex.Takes e.vectors.dimension emb
  bare : ∀ row ∈ rows, row.memory.state = .active → row.embedding = none → vectorPlace (e.memories.find row.id) = none

theorem VectorsSound.of_rows {e after : Engine} (sound : VectorsSound e) {rows : List MemoryRow} (ready : Ready e rows)
    (memories : after.memories = e.memories.upsertRows rows)
    (vectors : after.vectors = rows.foldl ScopedVectorIndex.follow e.vectors) : VectorsSound after where
  landing := by
    rw [memories,vectors,ScopedVectorIndex.follows_dimension]
    exact sound.landing.upsertRows ready.lands
  follows := by
    rw [VectorsFollow,memories,vectors]
    exact Follows.vectors sound.follows ready.backed ready.lands ready.bare

theorem VectorsSound.applied {e : Engine} (sound : VectorsSound e) (stamp : Uuid → Int) {rows : List MemoryRow}
    (ready : Ready e rows) : VectorsSound (memoryApplyRows env stamp e rows) :=
  sound.of_rows ready (memoryApplyRows_memories env stamp e rows) (memoryApplyRows_indexes env stamp e rows).2

theorem VectorsSound.batch {e after : Engine} (sound : VectorsSound e) {rows : List MemoryRow} (ready : Ready e rows)
    (ok : memoryApplyRowsBatch e rows = .ok after) : VectorsSound after :=
  sound.of_rows ready (memoryApplyRowsBatch_memories ok) (memoryApplyRowsBatch_indexes ok).2

theorem Ready.of_idle {e : Engine} {rows : List MemoryRow} (idle : ∀ row ∈ rows, row.memory.state ≠ .active) :
    Ready e rows where
  backed := List.pairwise_iff_forall_sublist.mpr
    (fun {a b} pair _ active => absurd active (idle a (pair.subset (by simp))))
  lands := fun row inside active => absurd active (idle row inside)
  bare := fun row inside active => absurd active (idle row inside)

theorem Ready.planned {e : Engine} {d : Draw} {input : MemoryInput} {planned : Planned} (sound : VectorsSound e)
    (new : d.id ∉ e.memories.keys) (lands : DrawLands e d)
    (plan : PlanCase env e d input (e.embedMemoryContent d) planned) : Ready e planned.rows where
  backed := plan.pairwise (fun a b idle _ active => absurd active idle)
  lands := by
    intro row inside active emb given
    cases plan.row inside with
    | drawn _ _ vector => exact lands emb (vector.symm.trans given)
    | confirmed old member same stored _ _ vector =>
      rw [vector] at given
      rcases Option.or_eq_some_iff.mp given with drawn | ⟨_,kept⟩
      · exact lands emb drawn
      · exact sound.landing old member stored emb (getEmbedding_stored member kept)
    | closed _ _ _ idle _ => exact absurd active idle
  bare := by
    intro row inside active without
    cases plan.row inside with
    | drawn own _ _ =>
      rw [own,(e.memories.find_eq_none _).mpr new]
      rfl
    | confirmed old member same stored _ _ vector =>
      rw [vector] at without
      rw [← same]
      exact vectorPlace_of_bare (Option.or_eq_none_iff.mp without).2
    | closed _ _ _ idle _ => exact absurd active idle

private theorem VectorsSound.evicted {e : Engine} (sound : VectorsSound e) (scope : MemoryScope) :
    VectorsSound (evictOverCap e scope) where
  landing := by
    rw [evictOverCap_memories,evictOverCap,forgetAll_dimension]
    exact sound.landing.delete _
  follows := by
    rw [VectorsFollow,evictOverCap_memories]
    refine Follows.forget_delete sound.follows (e.memories.overCap scope e.config.cognition.maxMemoriesPerScope)
      (fun _ _ => decide_eq_true_iff) ?_
    intro k
    exact (forgetAll_holds _ _ k).2

private theorem VectorsSound.add {e : Engine} (sound : VectorsSound e) {d : Draw} (input : MemoryInput)
    (new : d.id ∉ e.memories.keys) (lands : DrawLands e d) : VectorsSound (memoryAdd env e d input).2 := by
  unfold memoryAdd
  split
  next => exact sound
  next result rows ok =>
    obtain ⟨_,plan⟩ := memoryPlanWithEmbedding_cases env ok
    exact (sound.applied env d.stamp (Ready.planned env sound new lands plan)).evicted _

private theorem VectorsSound.expired {e : Engine} (sound : VectorsSound e) (stamp : Uuid → Int) (ids : List Uuid) :
    VectorsSound (memoryExpire stamp e ids) := by
  induction ids generalizing e with
  | nil => exact sound
  | cons id ids ih =>
    obtain ⟨memories,_,vectors⟩ := expireOne_indexes stamp e id
    refine ih ⟨?_,?_⟩
    · rw [memories,vectors,ScopedVectorIndex.delete_dimension]
      intro row inside
      obtain ⟨old,member,rfl⟩ := (Table.mem_update _ _ _ _ _).mp inside
      split
      next =>
        intro active
        cases active
      next => exact sound.landing old member
    · rw [VectorsFollow,memories,vectors]
      refine Follows.forget_update sound.follows (by intro _; rfl) [id] ?_ ?_ ?_
      · intro row _ chosen
        simp only [Bool.and_eq_true,decide_eq_true_eq] at chosen
        simp [chosen.1]
      · intro row _ listed
        have idle := vectorPlace_idle (expired_idle (stamp id) (by simpa using listed : row.id = id))
        exact (vectorView_nowhere_iff.mpr idle).trans (vectorView_nowhere_iff.mpr rfl).symm
      · intro k
        rw [ScopedVectorIndex.holding_delete]
        simp [vectorView,vectorPlace,nowhere]

private theorem VectorsSound.deleted {e : Engine} (sound : VectorsSound e) (id : Uuid) :
    VectorsSound (memoryDelete e id) where
  landing := by
    have width : (memoryDelete e id).vectors.dimension = e.vectors.dimension := ScopedVectorIndex.delete_dimension ..
    rw [width]
    exact sound.landing.delete _
  follows := by
    refine Follows.forget_delete sound.follows [id] (by simp) ?_
    intro k
    refine (ScopedVectorIndex.holding_delete e.vectors id k).trans ?_
    simp [vectorView,vectorPlace,nowhere]

private theorem VectorsSound.feedback {e : Engine} (sound : VectorsSound e) (id : Uuid) (tenant : Option String)
    (verdict : MemoryFeedback) (now : Int) (stamp : Uuid → Int) :
    VectorsSound (memoryFeedback env e id tenant verdict now stamp).2 := by
  unfold memoryFeedback
  split
  next => exact sound
  next m action planned =>
    obtain ⟨stored,found,chosen⟩ := Option.map_eq_some_iff.mp planned
    obtain ⟨row,member,rfl,_⟩ := lookup_eq_some found
    cases verdict with
    | helpful =>
      cases chosen
      refine sound.applied env stamp ⟨List.pairwise_singleton ..,?_,?_⟩
      · intro written inside active emb given
        cases List.mem_singleton.mp inside
        exact sound.landing row member active emb (getEmbedding_stored member given)
      · intro written inside active without
        cases List.mem_singleton.mp inside
        exact vectorPlace_of_bare without
    | wrong =>
      cases chosen
      exact sound.expired stamp _
    | obsolete =>
      cases chosen
      exact sound.expired stamp _

private theorem VectorsSound.reembed {e : Engine} (sound : VectorsSound e) (limit : Nat)
    (vectors : Uuid → Option (List Rat)) (stamp : Uuid → Int)
    (lands : ∀ id emb, vectors id = some emb → ScopedVectorIndex.Takes e.vectors.dimension emb) :
    VectorsSound (memoryReembed env e limit vectors stamp).2 := by
  have fresh : ∀ row ∈ e.memoryReembedPlan limit vectors, ∃ emb, row.embedding = some emb ∧ vectors row.id = some emb := by
    intro row inside
    unfold Engine.memoryReembedPlan at inside
    split at inside
    next =>
      obtain ⟨m,_,made⟩ := List.mem_filterMap.mp inside
      obtain ⟨emb,given,rfl⟩ := Option.map_eq_some_iff.mp made
      exact ⟨emb,rfl,given⟩
    next => cases inside
  refine sound.applied env stamp ⟨?_,?_,?_⟩
  · refine List.pairwise_iff_forall_sublist.mpr (fun {a b} pair _ _ _ without => ?_)
    obtain ⟨emb,given,_⟩ := fresh b (pair.subset (by simp))
    cases given.symm.trans without
  · intro row inside _ emb given
    obtain ⟨other,same,answered⟩ := fresh row inside
    cases given.symm.trans same
    exact lands row.id emb answered
  · intro row inside _ without
    obtain ⟨emb,given,_⟩ := fresh row inside
    cases given.symm.trans without

/-- What the loop of a batch keeps beside the index: what waits can be applied. The configuration and the
width are those of the start. -/
private structure VectorsWait (start e : Engine) (buffer : Buffer) : Prop where
  config : e.config = start.config
  width : e.vectors.dimension = start.vectors.dimension
  sound : VectorsSound e
  waiting : Waiting e buffer
  ready : Ready e buffer.rows

private theorem VectorsWait.flush {start e after : Engine} {buffer : Buffer} (waits : VectorsWait start e buffer)
    (ok : memoryApplyRowsBatch e buffer.rows = .ok after) : VectorsWait start after ⟨[],[]⟩ where
  config := (memoryApplyRowsBatch_ok e after buffer.rows ok).2.2.trans waits.config
  width := by
    rw [(memoryApplyRowsBatch_indexes ok).2,ScopedVectorIndex.follows_dimension]
    exact waits.width
  sound := waits.sound.batch waits.ready ok
  waiting := .empty after
  ready := .of_idle (by simp)

private theorem VectorsWait.plan {start e : Engine} {buffer : Buffer} {input : MemoryInput} {d : Draw} {planned : Planned}
    (waits : VectorsWait start e buffer) (free : buffer.collides (batchKey env input) = false)
    (new : DrawNew e buffer input d) (lands : DrawLands start d)
    (plan : PlanCase env e d input (e.embedMemoryContent d) planned) :
    VectorsWait start e (buffer.push (batchKey env input) planned.rows) := by
  have here : DrawLands e d := by
    intro emb given
    rw [waits.width]
    refine lands emb ?_
    rwa [Engine.embedMemoryContent,waits.config] at given
  have ready := Ready.planned env waits.sound new.1 here plan
  refine ⟨waits.config,waits.width,waits.sound,waits.waiting.push new.1 plan,⟨?_,?_,?_⟩⟩
  · refine List.pairwise_append.mpr ⟨waits.ready.backed,ready.backed,?_⟩
    intro a inside b written same active now
    cases plan.row written with
    | drawn own _ _ => exact absurd (same.trans own) (new.2 a inside)
    | confirmed old member own _ _ under _ =>
      exact absurd active (waits.waiting.apart free member under inside (own.trans same.symm))
    | closed _ _ _ idle _ => exact absurd now idle
  · intro row inside
    rcases List.mem_append.mp inside with inside | inside
    · exact waits.ready.lands row inside
    · exact ready.lands row inside
  · intro row inside
    rcases List.mem_append.mp inside with inside | inside
    · exact waits.ready.bare row inside
    · exact ready.bare row inside

private theorem VectorsSound.document {e : Engine} (sound : VectorsSound e) (doc : DocumentIngest) (scope : MemoryScope)
    (opts : ChunkOptions) (draws : Nat → Draw) (now : Int)
    (new : AlongBatch env DrawNew (withDraws (documentInputs doc scope opts) draws) e ⟨[],[]⟩)
    (lands : ∀ i, DrawLands e (draws i)) : VectorsSound (documentIngest env e doc scope opts draws now).2 := by
  have drawn : AlongBatch env (fun _ _ _ d => DrawLands e d) (withDraws (documentInputs doc scope opts) draws) e
      ⟨[],[]⟩ := by
    refine AlongBatch.of_forall env ?_
    rintro ⟨input,d⟩ inside
    obtain ⟨⟨_,i⟩,_,same⟩ := List.mem_map.mp inside
    cases same
    exact lands i
  have start : VectorsWait e e ⟨[],[]⟩ := ⟨rfl,rfl,sound,.empty e,.of_idle (by simp)⟩
  obtain ⟨left,waits⟩ := AlongBatch.invariant env (fun _ _ _ waits applied => waits.flush applied)
    (fun _ _ _ _ _ waits free given _ plan => waits.plan env free given.1 given.2 plan) _ [] start (new.and env drawn)
  have batch := waits.sound
  unfold documentIngest
  dsimp only
  split
  next err after failed =>
    rw [memoryAddBatch] at failed
    rw [failed] at batch
    exact batch
  next added after ok =>
    rw [memoryAddBatch] at ok
    rw [ok] at batch
    split
    next => exact batch
    next swept applied =>
      refine batch.batch (.of_idle ?_) applied
      intro row inside
      obtain ⟨m,_,rfl⟩ := List.mem_map.mp inside
      simp

/-- A correction keeps the index exactly when it does not store a memory without the vector it had. -/
private theorem VectorsSound.update_iff {e : Engine} (sound : VectorsSound e) (id : Uuid) (patch : MemoryPatch)
    (tenant : Option String) {d : Draw} (lands : DrawLands e d) :
    Landing (memoryUpdate env e id patch tenant d).2.vectors.dimension (memoryUpdate env e id patch tenant d).2.memories ∧
      (VectorsFollow (memoryUpdate env e id patch tenant d).2 ↔
        VectorCall.Keeps sha256 e (.update id patch tenant d)) := by
  unfold memoryUpdate
  rcases memoryUpdatePlan_cases e id patch tenant d.now d.embedding with
    ⟨none,idle⟩ | ⟨m,vector,found,active,planned,chosen⟩
  · rw [none]
    exact ⟨sound.landing,iff_of_true sound.follows (fun _ m found active => absurd active (idle m found))⟩
  · rw [planned]
    obtain ⟨row,member,rfl,own⟩ := lookup_eq_some found
    subst own
    have written : ∀ emb, vector = some emb → ScopedVectorIndex.Takes e.vectors.dimension emb := by
      intro emb given
      have stored (kept : e.memories.getEmbedding row.id = some emb) : ScopedVectorIndex.Takes e.vectors.dimension emb :=
        sound.landing row member active emb (getEmbedding_stored member kept)
      rcases chosen with ⟨_,rfl⟩ | ⟨_,rfl⟩
      · exact stored given
      · split at given
        next provided =>
          rcases Option.or_eq_some_iff.mp given with drawn | ⟨_,kept⟩
          · exact lands emb (by rwa [Engine.embedMemoryContent,if_pos provided])
          · exact stored kept
        next => cases given
    have writes : ∀ w ∈ [(⟨patchMemory patch d.now row.memory,vector⟩ : MemoryRow)], w.memory.state = .active →
        ∀ emb, w.embedding = some emb → ScopedVectorIndex.Takes e.vectors.dimension emb := by
      intro w inside _ emb given
      cases List.mem_singleton.mp inside
      exact written emb given
    constructor
    · rw [memoryApplyRows_memories,(memoryApplyRows_indexes env d.stamp e _).2,ScopedVectorIndex.follows_dimension]
      exact sound.landing.upsertRows writes
    constructor
    · intro follows off m same _ changes
      cases found.symm.trans same
      have bare : vector = none := by
        rcases chosen with ⟨unchanged,_⟩ | ⟨_,rfl⟩
        · exact absurd changes unchanged
        · simp [off]
      subst bare
      have after := follows row.id
      have kept : e.vectors.follow ⟨patchMemory patch d.now row.memory,none⟩ = e.vectors := by
        simp [ScopedVectorIndex.follow,patchMemory,active]
      have now : (e.memories.upsertRaw ⟨patchMemory patch d.now row.memory,none⟩).find row.id =
          some (MemoryRow.stored ⟨patchMemory patch d.now row.memory,none⟩) :=
        (Table.find_upsert _ _ _).trans (if_pos rfl)
      rw [memoryApplyRows_memories,(memoryApplyRows_indexes env d.stamp e _).2,List.foldl_cons,List.foldl_nil,kept,
        MemoryTable.upsertRows,List.foldl_cons,List.foldl_nil,now,sound.follows row.id] at after
      have nothing : vectorView (some (MemoryRow.stored ⟨patchMemory patch d.now row.memory,none⟩)) = nowhere :=
        vectorView_nowhere_iff.mpr (by simp [vectorPlace,MemoryRow.stored])
      exact getEmbedding_of_absent member active (vectorView_nowhere_iff.mp (after.trans nothing))
    · intro keeps
      refine (sound.applied env d.stamp ⟨List.pairwise_singleton ..,writes,?_⟩).follows
      intro w inside _ without
      cases List.mem_singleton.mp inside
      refine vectorPlace_of_bare ?_
      rcases chosen with ⟨_,rfl⟩ | ⟨changes,rfl⟩
      · exact without
      · by_cases provided : e.config.embedding = true
        · rw [if_pos provided] at without
          exact (Option.or_eq_none_iff.mp without).2
        · exact keeps (by simpa using provided) row.memory found active changes

theorem vectorRow_placed {dimension : Nat} {t : MemoryTable} (landing : Landing dimension t) (id : Uuid) :
    vectorRow dimension t.loadActiveWithEmbeddings id ≠ none ↔ vectorPlace (t.find id) ≠ none := by
  have rebuilt := holding_rebuilt landing id
  cases listed : vectorRow dimension t.loadActiveWithEmbeddings id with
  | none =>
    have missing := @indexRows_missing (.withDimension dimension) _ id listed
    rw [rebuildVectorIndex,ScopedVectorIndex.holding_of_missing missing] at rebuilt
    simp [vectorView_nowhere_iff.mp rebuilt.symm]
  | some pair =>
    obtain ⟨home,_⟩ := @indexRows_found (.withDimension dimension) _ id _ _ t.loadActive_distinct listed
    have placed : some _ = (vectorPlace (t.find id)).map Prod.fst := home.symm.trans (congrArg Prod.fst rebuilt)
    refine iff_of_true (Option.some_ne_none pair) ?_
    intro absent
    rw [absent] at placed
    cases placed

private theorem VectorsSound.restore_iff {e : Engine} (sound : VectorsSound e) (dir : BackupDir)
    (lands : verifyBackup sha256 dir = .ok () → Landing e.vectors.dimension (dir.memoriesOver e.memories)) :
    Landing (restoreFromBackup sha256 e dir).2.vectors.dimension (restoreFromBackup sha256 e dir).2.memories ∧
      (VectorsFollow (restoreFromBackup sha256 e dir).2 ↔ VectorCall.Keeps sha256 e (.restore dir)) := by
  cases verified : verifyBackup sha256 dir with
  | error err =>
    rw [restoreFromBackup_refused sha256 verified]
    refine ⟨sound.landing,iff_of_true sound.follows ?_⟩
    intro ok
    cases verified.symm.trans ok
  | ok =>
    obtain ⟨memories,_,vectors⟩ := restoreFromBackup_verified sha256 (e := e) verified
    have landing := lands verified
    have known (id : Uuid) : e.vectors.idPartition id ≠ none ↔ vectorPlace (e.memories.find id) ≠ none := by
      have held : e.vectors.idPartition id = (vectorPlace (e.memories.find id)).map Prod.fst :=
        congrArg Prod.fst (sound.follows id)
      rw [held,ne_eq,ne_eq,Option.map_eq_none_iff]
    have same := indexRows_same_iff e.vectors (dir.memoriesOver e.memories).loadActive_distinct
    rw [VectorsFollow,memories,vectors,indexRows_dimension]
    refine ⟨landing,?_⟩
    constructor
    · intro follows _ id placed
      refine (vectorRow_placed landing id).mp (same.mp (ScopedVectorIndex.same_iff.mpr ⟨?_,?_⟩) id ((known id).mpr placed))
      · rw [indexRows_dimension,indexRows_dimension]
        rfl
      · intro other
        exact (follows other).trans (holding_rebuilt landing other).symm
    · intro keeps id
      have filled := same.mpr (fun id there => (vectorRow_placed landing id).mpr (keeps verified id ((known id).mp there)))
      exact ((ScopedVectorIndex.same_iff.mp filled).2 id).trans (holding_rebuilt landing id)

private theorem VectorsSound.reopen {e : Engine} (sound : VectorsSound e) (config : CoreConfig) (semantic : SemanticStore) :
    VectorsSound (e.reopen config semantic) where
  landing := by
    have width : (e.reopen config semantic).vectors.dimension = e.vectors.dimension := indexRows_dimension ..
    rw [width]
    exact sound.landing
  follows := fun id => holding_rebuilt sound.landing id

theorem VectorCall.step_iff {e : Engine} (sound : VectorsSound e) (call : VectorCall) (new : call.DrawsNew env e)
    (lands : call.Lands sha256 e) :
    Landing (call.step env sha256 e).vectors.dimension (call.step env sha256 e).memories ∧
      (VectorsFollow (call.step env sha256 e) ↔ call.Keeps sha256 e) := by
  have kept {after : Engine} (sound : VectorsSound after) :
      Landing after.vectors.dimension after.memories ∧ (VectorsFollow after ↔ True) :=
    ⟨sound.landing,iff_of_true sound.follows trivial⟩
  cases call with
  | add d input => exact kept (sound.add env input new lands)
  | update id patch tenant d => exact sound.update_iff env sha256 id patch tenant lands
  | feedback id tenant verdict now stamp => exact kept (sound.feedback env id tenant verdict now stamp)
  | expire ids stamp => exact kept (sound.expired stamp ids)
  | delete id => exact kept (sound.deleted id)
  | reembed limit vectors stamp => exact kept (sound.reembed env limit vectors stamp lands)
  | document doc scope opts draws now => exact kept (sound.document env doc scope opts draws now new lands)
  | restore dir => exact sound.restore_iff sha256 dir lands
  | restart config semantic => exact kept (sound.reopen config semantic)

/-- Along a run whose index writes succeed, the index agrees with the rows in every state exactly when no
correction drops a vector and no restore leaves one behind. -/
theorem vectors_agree_throughout_iff {e : Engine} (start : VectorsAgree e)
    (landing : Landing e.vectors.dimension e.memories) (calls : List VectorCall)
    (new : Along (VectorCall.step env sha256) (VectorCall.DrawsNew env) e calls)
    (lands : Along (VectorCall.step env sha256) (VectorCall.Lands sha256) e calls) :
    Throughout (VectorCall.step env sha256) VectorsAgree e calls ↔
      Along (VectorCall.step env sha256) (VectorCall.Keeps sha256) e calls := by
  refine (new.and lands).throughout_iff (fun e => Landing e.vectors.dimension e.memories) landing start ?_
  rintro e call landing agrees ⟨new,lands⟩
  obtain ⟨after,kept⟩ := call.step_iff env sha256 ⟨landing,(vectorsAgree_iff landing).mp agrees⟩ new lands
  exact ⟨after,(vectorsAgree_iff after).trans kept⟩

end

def tierNote (content : String) (subject : String) : MemoryInput :=
  { MemoryInput.new (.tenant "acme") content with subject := some subject }

/-- A memory with a vector is noted, and the engine is restarted without a provider. -/
def unprovided : List VectorCall :=
  [.add { Draw.plain 1000 1 with embedding := some [1,0] } (tierNote "free" "plan"),.restart .default (.withDimension 2)]

def teamCorrection (id : Uuid) : VectorCall := .update id ⟨some "team",none,none,none⟩ (some "acme") (.plain 3000 3)

def providedEngine : Engine := .empty { CoreConfig.default with embedding := true } 2

private theorem provided_landing : Landing providedEngine.vectors.dimension providedEngine.memories :=
  fun _ inside => absurd inside List.not_mem_nil

private theorem provided_agrees : VectorsAgree providedEngine :=
  (vectorsAgree_iff provided_landing).mpr (fun _ => rfl)

private theorem DrawLands.of_none {e : Engine} {d : Draw} (bare : d.embedding = none) : DrawLands e d := by
  intro emb given
  simp [Engine.embedMemoryContent,bare] at given

theorem vectors_agree_throughout_bare :
    Throughout (VectorCall.step .ascii (fun _ => "")) VectorsAgree providedEngine
      (unprovided ++ [.add (.plain 2000 2) (tierNote "eu-west" "region"),teamCorrection 2]) := by
  refine (vectors_agree_throughout_iff .ascii (fun _ => "") provided_agrees provided_landing _ ?_ ?_).mpr ?_
  · have new : 2 ∉ (run (VectorCall.step .ascii (fun _ => "")) providedEngine unprovided).memories.keys := by
      decide +kernel
    exact ⟨List.not_mem_nil,trivial,new,trivial,trivial⟩
  · refine ⟨?_,trivial,.of_none rfl,.of_none rfl,trivial⟩
    intro emb given
    cases given
    exact ⟨by simp,rfl⟩
  · refine ⟨trivial,trivial,trivial,?_,trivial⟩
    intro _ m _ _ _
    decide +kernel

private theorem corrected_rows :
    ((run (VectorCall.step .ascii (fun _ => "")) providedEngine (unprovided ++ [teamCorrection 1])).vectors.partitions
        (scopePartitionKey (.tenant "acme"))).entries.rows.length = 1 ∧
      ∀ row ∈ (run (VectorCall.step .ascii (fun _ => "")) providedEngine (unprovided ++ [teamCorrection 1])).memories.rows,
        row.embedding = none := by
  decide +kernel

/-- Corrected without a provider, a memory has no stored vector, and the index keeps the old one. -/
theorem correction_leaves_vector :
    ¬Throughout (VectorCall.step .ascii (fun _ => "")) VectorsAgree providedEngine (unprovided ++ [teamCorrection 1]) := by
  intro agrees
  obtain ⟨one,bare⟩ := corrected_rows
  obtain ⟨entry,alone⟩ := List.length_eq_one_iff.mp one
  obtain ⟨row,member,_,emb,given,_⟩ := ((agrees 3).1 _ entry).mp (alone ▸ List.mem_singleton_self entry)
  cases (bare row member).symm.trans given

end Ecphoria
