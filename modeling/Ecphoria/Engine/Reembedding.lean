import Ecphoria.Engine.IndexFrame
import Ecphoria.Engine.Upkeep
import Ecphoria.Library.Paging

/-! Fresh vectors for the memories, a part of them with each call. A call takes the memories longest without an update,
and leaves the time of their update as it is: the next call takes the same ones. -/
namespace Ecphoria
open Library

namespace MemoryTable

def byUpdate (a b : Memory) : Prop := a.updatedAt ≤ b.updatedAt

instance : DecidableRel byUpdate := fun a b => inferInstanceAs (Decidable (a.updatedAt ≤ b.updatedAt))

theorem byUpdate_total (a b : Memory) : byUpdate a b ∨ byUpdate b a := le_total _ _

theorem byUpdate_trans (a b c : Memory) (first : byUpdate a b) (second : byUpdate b c) : byUpdate a c := first.trans second

def activeMemories (t : MemoryTable) : List Memory := t.memories.filter (fun m => m.state = .active)

/-- The limit is bound as an `i64`; a negative one is refused. -/
def allActiveBy (order : QueryOrder byUpdate) (t : MemoryTable) (limit : Nat) : Option (List Memory) :=
  if limit < 2 ^ 63 then some ((order.sort t.activeMemories).take limit) else none

end MemoryTable
open MemoryTable

section
variable (provider : String → Option (List Rat))

def refreshedRows (memories : List Memory) : List MemoryRow :=
  memories.filterMap (fun m => (provider m.content).map (fun emb => ⟨m,some emb⟩))

def Engine.reembedPlan (order : QueryOrder byUpdate) (e : Engine) (limit : Nat) : Option (List MemoryRow) :=
  if e.config.embedding then (e.memories.allActiveBy order limit).map (refreshedRows provider) else some []

variable (env : Env)

def reembed (order : QueryOrder byUpdate) (stamp : Uuid → Int) (e : Engine) (limit : Nat) : Option Nat × Engine :=
  match e.reembedPlan provider order limit with
  | none => (none,e)
  | some rows => (some rows.length,if rows.isEmpty then e else memoryApplyRows env stamp e rows)

def reembedCalls (orders : Nat → QueryOrder byUpdate) (stamps : Nat → Uuid → Int) (limit : Nat) (e : Engine) : Nat → Engine
  | 0 => e
  | n + 1 => (reembed provider env (orders n) (stamps n) (reembedCalls orders stamps limit e n) limit).2

end

def Engine.storedVector (e : Engine) (m : Memory) : Option (List Rat) := (e.memories.find m.id).bind MemoryRow.embedding

def Engine.indexedVector (e : Engine) (m : Memory) : Option (List Rat) :=
  ((e.vectors.partitions (scopePartitionKey m.scope)).entries.find m.id).map SemanticEntry.embedding

def Engine.HasVector (e : Engine) (m : Memory) (emb : List Rat) : Prop :=
  e.storedVector m = some emb ∧ e.indexedVector m = some emb

/-- Repeated calls reach every memory that the provider does not fail on, and when it fails on none they reach all in as
many calls as the limit goes into their number. -/
def ReembedsAll (provider : String → Option (List Rat)) (env : Env) (limit : Nat) (e : Engine) : Prop :=
  ∀ orders stamps,
    ((∀ m ∈ e.memories.activeMemories,(provider m.content).isSome) →
      ∀ m ∈ e.memories.activeMemories,∀ emb,provider m.content = some emb →
        (reembedCalls provider env orders stamps limit e
          ((e.memories.activeMemories.length + limit - 1) / limit)).HasVector m emb) ∧
    ∀ m ∈ e.memories.activeMemories,∀ emb,provider m.content = some emb →
      ∃ calls,(reembedCalls provider env orders stamps limit e calls).HasVector m emb

def AlwaysTaken (e : Engine) (limit : Nat) (m : Memory) : Prop :=
  limit < 2 ^ 63 ∧ rowsUpTo byUpdate e.memories.activeMemories m ≤ limit

/-- The vector gets to a memory: it is there, or the memory is always taken and the vector has the width of the index. -/
def Refreshable (e : Engine) (limit : Nat) (m : Memory) (emb : List Rat) : Prop :=
  (AlwaysTaken e limit m ∨ e.storedVector m = some emb) ∧
    (AlwaysTaken e limit m ∧ emb.length = e.vectors.dimension ∨ e.indexedVector m = some emb)

section
variable {provider : String → Option (List Rat)} {env : Env}

theorem upsertRows_memories {t : MemoryTable} (recorded : RowsRecorded t) {rows : List MemoryRow}
    (listed : ∀ row ∈ rows, row.memory ∈ t.memories) : (t.upsertRows rows).memories = t.memories := by
  induction rows generalizing t with
  | nil => rfl
  | cons row rows ih =>
    obtain ⟨old,inside,same⟩ := List.mem_map.mp (listed row List.mem_cons_self)
    have named : old.id = row.id := congrArg Memory.id same
    have present : row.stored.id ∈ t.keys := (t.mem_keys _).mpr ⟨old,inside,named⟩
    have kept : (t.upsertRaw row).memories = t.memories := by
      unfold MemoryTable.upsertRaw Table.upsert MemoryTable.memories
      rw [dif_pos present,List.map_map]
      refine List.map_congr_left ?_
      intro other member
      simp only [Function.comp_apply]
      split
      next own =>
        have equal : other = old := t.eq_of_key member inside (own.trans named.symm)
        have times := congrArg MemoryRow.memory (recorded old inside)
        have written : row.stored.memory = old.stored.memory := by
          unfold MemoryRow.stored
          rw [same]
        rw [equal,written,times]
      next => rfl
    have rest := ih (recorded.upsertRows [row]) (fun other member => by
      change other.memory ∈ (t.upsertRaw row).memories
      rw [kept]
      exact listed other (List.mem_cons_of_mem row member))
    exact rest.trans kept

theorem refreshedRows_apart {memories : List Memory} {id : Uuid} (apart : ∀ m ∈ memories, m.id ≠ id) :
    ∀ row ∈ refreshedRows provider memories, row.id ≠ id := by
  intro row inside
  obtain ⟨m,listed,made⟩ := List.mem_filterMap.mp inside
  obtain ⟨emb,_,rfl⟩ := Option.map_eq_some_iff.mp made
  exact apart m listed

theorem storedVector_apart {e : Engine} {rows : List MemoryRow} {m : Memory} (stamp : Uuid → Int)
    (apart : ∀ row ∈ rows, row.id ≠ m.id) : (memoryApplyRows env stamp e rows).storedVector m = e.storedVector m := by
  rw [Engine.storedVector,memoryApplyRows_memories,upsertRows_eq,Table.find_upsertAll]
  · rfl
  · intro row inside
    obtain ⟨written,listed,rfl⟩ := List.mem_map.mp inside
    exact apart written listed

theorem ScopedVectorIndex.find_follow_apart {index : ScopedVectorIndex} {row : MemoryRow} {id : Uuid}
    (active : row.memory.state = .active) (apart : row.id ≠ id) (key : String) :
    ((index.follow row).partitions key).entries.find id = (index.partitions key).entries.find id := by
  unfold follow
  rw [active]
  cases row.embedding with
  | none => rfl
  | some emb => exact (upsert_apart index _ key _ (Ne.symm apart)).2

theorem indexedVector_apart {e : Engine} {rows : List MemoryRow} {m : Memory} (stamp : Uuid → Int)
    (active : ∀ row ∈ rows, row.memory.state = .active) (apart : ∀ row ∈ rows, row.id ≠ m.id) :
    (memoryApplyRows env stamp e rows).indexedVector m = e.indexedVector m := by
  rw [Engine.indexedVector,(memoryApplyRows_indexes env stamp e rows).2,Engine.indexedVector]
  generalize e.vectors = index
  induction rows generalizing index with
  | nil => rfl
  | cons row rows ih =>
    have rest := ih (fun other inside => active other (List.mem_cons_of_mem row inside))
      (fun other inside => apart other (List.mem_cons_of_mem row inside)) (index.follow row)
    rw [List.foldl_cons,rest,ScopedVectorIndex.find_follow_apart (active row List.mem_cons_self) (apart row List.mem_cons_self)]

/-- The vector of one memory in the index after its row: a vector of another width is refused, and the old one stays. -/
theorem ScopedVectorIndex.find_follow_own (index : ScopedVectorIndex) {m : Memory} (active : m.state = .active)
    (emb : List Rat) :
    (((index.follow ⟨m,some emb⟩).partitions (scopePartitionKey m.scope)).entries.find m.id).map SemanticEntry.embedding =
      if emb.length = index.dimension then some emb
      else ((index.partitions (scopePartitionKey m.scope)).entries.find m.id).map SemanticEntry.embedding := by
  have entry_id : (m.toSemanticEntry emb).id = m.id := rfl
  unfold follow
  simp only [active]
  split
  next fits =>
    rw [(upsert_fits (scopePartitionKey m.scope) (show (m.toSemanticEntry emb).embedding.length = _ from fits)).2,entry_id,
      if_pos rfl,if_pos rfl]
    rfl
  next misfit =>
    rw [upsert_misfit (scopePartitionKey m.scope) (show (m.toSemanticEntry emb).embedding.length ≠ _ from misfit),entry_id,
      find_leaveOther,if_neg (fun both => both.2 rfl)]

structure SameMemories (e x : Engine) : Prop where
  memories : x.memories.memories = e.memories.memories
  recorded : RowsRecorded x.memories
  width : x.vectors.dimension = e.vectors.dimension
  provided : x.config.embedding = true

theorem SameMemories.active {e x : Engine} (same : SameMemories e x) : x.memories.activeMemories = e.memories.activeMemories :=
  congrArg (List.filter _) same.memories

variable {order : QueryOrder byUpdate} {stamp : Uuid → Int} {e x : Engine} {limit : Nat}

def takenMemories (order : QueryOrder byUpdate) (limit : Nat) (e : Engine) : List Memory :=
  if limit < 2 ^ 63 then (order.sort e.memories.activeMemories).take limit else []

theorem reembed_eq (provided : e.config.embedding = true) : (reembed provider env order stamp e limit).2 =
    memoryApplyRows env stamp e (refreshedRows provider (takenMemories order limit e)) := by
  unfold reembed Engine.reembedPlan MemoryTable.allActiveBy takenMemories
  rw [if_pos provided]
  by_cases small : limit < 2 ^ 63
  · simp only [if_pos small,Option.map_some]
    split
    next empty =>
      rw [List.isEmpty_iff.mp empty]
      rfl
    next => rfl
  · simp only [if_neg small,Option.map_none]
    rfl

theorem takenMemories_active : ∀ m ∈ takenMemories order limit e, m ∈ e.memories.activeMemories := by
  intro m inside
  unfold takenMemories at inside
  split at inside
  next => exact (order.perm _).mem_iff.mp (List.mem_of_mem_take inside)
  next => cases inside

variable (order limit e) in
theorem takenMemories_ids : ((takenMemories order limit e).map Memory.id).Nodup := by
  unfold takenMemories
  split
  next =>
    have ids : (e.memories.activeMemories.map Memory.id).Nodup :=
      e.memories.memories_nodup.sublist (List.filter_sublist.map Memory.id)
    exact (((order.perm _).map Memory.id).nodup_iff.mpr ids).sublist ((List.take_sublist _ _).map Memory.id)
  next => exact List.nodup_nil

theorem refreshedRows_memory {memories : List Memory} : ∀ row ∈ refreshedRows provider memories, row.memory ∈ memories := by
  intro row inside
  obtain ⟨m,listed,made⟩ := List.mem_filterMap.mp inside
  obtain ⟨emb,_,rfl⟩ := Option.map_eq_some_iff.mp made
  exact listed

theorem SameMemories.call (same : SameMemories e x) : SameMemories e (reembed provider env order stamp x limit).2 := by
  rw [reembed_eq same.provided]
  refine ⟨?_,?_,?_,?_⟩
  · rw [memoryApplyRows_memories,upsertRows_memories same.recorded,same.memories]
    intro row inside
    exact List.mem_of_mem_filter (takenMemories_active _ (refreshedRows_memory row inside))
  · rw [memoryApplyRows_memories]
    exact same.recorded.upsertRows _
  · rw [(memoryApplyRows_indexes env stamp x _).2,ScopedVectorIndex.follows_dimension]
    exact same.width
  · rw [memoryApplyRows_config]
    exact same.provided

variable (provider env stamp) in
theorem reembed_passed (provided : e.config.embedding = true) {m : Memory} (active : m ∈ e.memories.activeMemories)
    (passed : m ∉ takenMemories order limit e) :
    (reembed provider env order stamp e limit).2.storedVector m = e.storedVector m ∧
      (reembed provider env order stamp e limit).2.indexedVector m = e.indexedVector m := by
  have apart : ∀ row ∈ refreshedRows provider (takenMemories order limit e),row.id ≠ m.id := by
    refine refreshedRows_apart ?_
    intro other taken named
    have same := List.inj_on_of_nodup_map e.memories.memories_nodup (List.mem_of_mem_filter (takenMemories_active other taken))
      (List.mem_of_mem_filter active) named
    exact passed (same ▸ taken)
  rw [reembed_eq provided]
  refine ⟨storedVector_apart stamp apart,indexedVector_apart stamp ?_ apart⟩
  intro row inside
  exact of_decide_eq_true (List.mem_filter.mp (takenMemories_active _ (refreshedRows_memory row inside))).2

variable (env stamp) in
theorem reembed_taken (provided : e.config.embedding = true) {m : Memory} {emb : List Rat}
    (answered : provider m.content = some emb) (taken : m ∈ takenMemories order limit e) :
    (reembed provider env order stamp e limit).2.storedVector m = some emb ∧
      (reembed provider env order stamp e limit).2.indexedVector m =
        if emb.length = e.vectors.dimension then some emb else e.indexedVector m := by
  obtain ⟨front,back,parts⟩ := List.append_of_mem taken
  have ids := takenMemories_ids order e limit
  have states : ∀ other ∈ takenMemories order limit e,other.state = .active := fun other inside =>
    of_decide_eq_true (List.mem_filter.mp (takenMemories_active other inside)).2
  rw [parts,List.map_append,List.map_cons] at ids
  obtain ⟨frontIds,restIds,apart⟩ := List.nodup_append'.mp ids
  have ahead : ∀ row ∈ refreshedRows provider front,row.id ≠ m.id := refreshedRows_apart (fun other inside named =>
    apart (named ▸ List.mem_map_of_mem inside) List.mem_cons_self)
  have behind : ∀ row ∈ refreshedRows provider back,row.id ≠ m.id := refreshedRows_apart (fun other inside named =>
    (List.nodup_cons.mp restIds).1 (named ▸ List.mem_map_of_mem inside))
  have aheadActive : ∀ row ∈ refreshedRows provider front,row.memory.state = .active := fun row inside =>
    states _ (parts ▸ List.mem_append_left _ (refreshedRows_memory row inside))
  have behindActive : ∀ row ∈ refreshedRows provider back,row.memory.state = .active := fun row inside =>
    states _ (parts ▸ List.mem_append_right _ (List.mem_cons_of_mem m (refreshedRows_memory row inside)))
  let first := memoryApplyRows env stamp e (refreshedRows provider front)
  let second := memoryApplyRows env stamp first [⟨m,some emb⟩]
  have whole : (reembed provider env order stamp e limit).2 = memoryApplyRows env stamp second (refreshedRows provider back) := by
    rw [reembed_eq provided,parts,refreshedRows,List.filterMap_append,List.filterMap_cons,answered]
    exact List.foldl_append
  have written : second.storedVector m = some emb := by
    rw [Engine.storedVector,memoryApplyRows_memories,upsertRows_eq]
    have found : (first.memories.upsert (⟨m,some emb⟩ : MemoryRow).stored).find m.id = some (⟨m,some emb⟩ : MemoryRow).stored :=
      (Table.find_upsert ..).trans (if_pos rfl)
    exact congrArg (Option.bind · MemoryRow.embedding) found
  have placed : second.indexedVector m = if emb.length = first.vectors.dimension then some emb else first.indexedVector m := by
    rw [Engine.indexedVector,(memoryApplyRows_indexes env stamp first _).2]
    exact first.vectors.find_follow_own (states m taken) emb
  rw [whole,storedVector_apart stamp behind,indexedVector_apart stamp behindActive behind,written,placed,
    indexedVector_apart stamp aheadActive ahead,(memoryApplyRows_indexes env stamp e _).2,
    ScopedVectorIndex.follows_dimension]
  exact ⟨rfl,rfl⟩

variable (provider env) in
theorem sameMemories_calls (recorded : RowsRecorded e.memories) (provided : e.config.embedding = true)
    (orders : Nat → QueryOrder byUpdate) (stamps : Nat → Uuid → Int) (limit n : Nat) :
    SameMemories e (reembedCalls provider env orders stamps limit e n) := by
  induction n with
  | zero => exact ⟨rfl,recorded,rfl,provided⟩
  | succ n ih => exact ih.call

variable {m : Memory} {emb : List Rat}

theorem AlwaysTaken.taken (always : AlwaysTaken e limit m) (active : m ∈ e.memories.activeMemories)
    (order : QueryOrder byUpdate) : m ∈ takenMemories order limit e := by
  rw [takenMemories,if_pos always.1]
  exact mem_take_of_upTo byUpdate_total active always.2 order

theorem exists_passed (sometimes : ¬AlwaysTaken e limit m) (active : m ∈ e.memories.activeMemories) :
    ∃ order : QueryOrder byUpdate, m ∉ takenMemories order limit e := by
  unfold takenMemories
  by_cases small : limit < 2 ^ 63
  · simp only [if_pos small]
    have nodup : e.memories.activeMemories.Nodup := (e.memories.memories_nodup.of_map _).filter _
    exact exists_order_behind byUpdate_total byUpdate_trans nodup active (Nat.lt_of_not_le (fun room => sometimes ⟨small,room⟩))
  · simp only [if_neg small]
    exact ⟨.stable byUpdate byUpdate_total byUpdate_trans,List.not_mem_nil⟩

theorem Engine.HasVector.call (has : e.HasVector m emb) (provided : e.config.embedding = true)
    (active : m ∈ e.memories.activeMemories) (answered : provider m.content = some emb) :
    (reembed provider env order stamp e limit).2.HasVector m emb := by
  by_cases taken : m ∈ takenMemories order limit e
  · obtain ⟨stored,indexed⟩ := reembed_taken env stamp provided answered taken
    refine ⟨stored,indexed.trans ?_⟩
    rw [has.2,ite_self]
  · obtain ⟨stored,indexed⟩ := reembed_passed provider env stamp provided active taken
    exact ⟨stored.trans has.1,indexed.trans has.2⟩

theorem Refreshable.call (ready : Refreshable e limit m emb) (provided : e.config.embedding = true)
    (active : m ∈ e.memories.activeMemories) (answered : provider m.content = some emb) :
    (reembed provider env order stamp e limit).2.HasVector m emb := by
  by_cases taken : m ∈ takenMemories order limit e
  · obtain ⟨stored,indexed⟩ := reembed_taken env stamp provided answered taken
    refine ⟨stored,indexed.trans ?_⟩
    rcases ready.2 with ⟨_,fits⟩ | there
    · rw [if_pos fits]
    · rw [there,ite_self]
  · obtain ⟨stored,indexed⟩ := reembed_passed provider env stamp provided active taken
    have sometimes : ¬AlwaysTaken e limit m := fun always => taken (always.taken active order)
    exact ⟨stored.trans (ready.1.resolve_left sometimes),
      indexed.trans (ready.2.resolve_left (fun always => sometimes always.1))⟩

variable {orders : Nat → QueryOrder byUpdate} {stamps : Nat → Uuid → Int}

theorem Refreshable.calls (ready : Refreshable e limit m emb) (recorded : RowsRecorded e.memories)
    (provided : e.config.embedding = true) (active : m ∈ e.memories.activeMemories)
    (answered : provider m.content = some emb) (n : Nat) :
    (reembedCalls provider env orders stamps limit e (n + 1)).HasVector m emb := by
  induction n with
  | zero => exact ready.call provided active answered
  | succ n ih =>
    have same := sameMemories_calls provider env recorded provided orders stamps limit (n + 1)
    exact ih.call same.provided (same.active ▸ active) answered

variable (provider env stamps) in
theorem calls_passed (recorded : RowsRecorded e.memories) (provided : e.config.embedding = true)
    (active : m ∈ e.memories.activeMemories) (passed : m ∉ takenMemories order limit e) (n : Nat) :
    (reembedCalls provider env (fun _ => order) stamps limit e n).storedVector m = e.storedVector m ∧
      (reembedCalls provider env (fun _ => order) stamps limit e n).indexedVector m = e.indexedVector m := by
  induction n with
  | zero => exact ⟨rfl,rfl⟩
  | succ n ih =>
    have same := sameMemories_calls provider env recorded provided (fun _ => order) stamps limit n
    have still : m ∉ takenMemories order limit (reembedCalls provider env (fun _ => order) stamps limit e n) := by
      rwa [takenMemories,same.active]
    have step := reembed_passed provider env (stamps n) same.provided
      (same.active.symm ▸ active) still
    exact ⟨step.1.trans ih.1,step.2.trans ih.2⟩

theorem calls_misfit (recorded : RowsRecorded e.memories) (provided : e.config.embedding = true)
    (active : m ∈ e.memories.activeMemories) (answered : provider m.content = some emb)
    (misfit : emb.length ≠ e.vectors.dimension) (n : Nat) :
    (reembedCalls provider env orders stamps limit e n).indexedVector m = e.indexedVector m := by
  induction n with
  | zero => rfl
  | succ n ih =>
    have same := sameMemories_calls provider env recorded provided orders stamps limit n
    refine Eq.trans ?_ ih
    by_cases taken : m ∈ takenMemories (orders n) limit (reembedCalls provider env orders stamps limit e n)
    · refine (reembed_taken _ (stamps n) same.provided answered taken).2.trans (if_neg ?_)
      rwa [same.width]
    · exact (reembed_passed _ _ (stamps n) same.provided (same.active.symm ▸ active) taken).2

/-- Repeated calls reach every memory, whatever the order of each, exactly if the vector of each can get to it. -/
theorem reembeds_all_iff {limit : Nat} (positive : 1 ≤ limit) {e : Engine} (recorded : RowsRecorded e.memories)
    (provided : e.config.embedding = true) :
    ReembedsAll provider env limit e ↔
      ∀ m ∈ e.memories.activeMemories,∀ emb,provider m.content = some emb → Refreshable e limit m emb := by
  constructor
  · intro reached m active emb answered
    by_cases always : AlwaysTaken e limit m
    · refine ⟨.inl always,?_⟩
      by_cases fits : emb.length = e.vectors.dimension
      · exact .inl ⟨always,fits⟩
      · obtain ⟨n,_,indexed⟩ := (reached (fun _ => .stable byUpdate byUpdate_total byUpdate_trans) (fun _ _ => 0)).2 m active
          emb answered
        exact .inr ((calls_misfit recorded provided active answered fits n).symm.trans indexed)
    · obtain ⟨order,passed⟩ := exists_passed always active
      obtain ⟨n,stored,indexed⟩ := (reached (fun _ => order) (fun _ _ => 0)).2 m active emb answered
      have kept := calls_passed provider env (fun _ _ => 0) recorded provided active passed n
      exact ⟨.inr (kept.1.symm.trans stored),.inr (kept.2.symm.trans indexed)⟩
  · intro ready orders stamps
    constructor
    · intro _ m active emb answered
      have some_calls : (e.memories.activeMemories.length + limit - 1) / limit ≠ 0 := by
        have some_memories := List.length_pos_of_mem active
        rw [Nat.ne_zero_iff_zero_lt,Nat.div_pos_iff]
        omega
      obtain ⟨n,calls_eq⟩ := Nat.exists_eq_succ_of_ne_zero some_calls
      rw [calls_eq]
      exact (ready m active emb answered).calls recorded provided active answered n
    · intro m active emb answered
      exact ⟨1,(ready m active emb answered).call provided active answered⟩

end
section
private def agedRow (id : Uuid) (updated : Int) : MemoryRow := ⟨Memory.new id updated (.tenant "acme") "tea",none⟩

/-- Two memories without vectors, the second one of a later update. -/
private def agedEngine : Engine :=
  { Engine.empty { CoreConfig.default with embedding := true } 1 with
    memories := MemoryTable.upsertRows .empty [agedRow 1 0,agedRow 2 1000] }

private def oneWide (_ : String) : Option (List Rat) := some [1]

/-- One call for two memories reaches both. -/
theorem reembeds_pair : ReembedsAll oneWide .ascii 2 agedEngine := by
  have recorded : RowsRecorded agedEngine.memories :=
    RowsRecorded.upsertRows (fun _ inside => absurd inside List.not_mem_nil) _
  refine (reembeds_all_iff (by decide) recorded rfl).mpr ?_
  intro m active emb answered
  cases answered
  have always : AlwaysTaken agedEngine 2 m := ⟨by decide,List.countP_le_length⟩
  exact ⟨.inl always,.inl ⟨always,rfl⟩⟩

/-- Of two memories the second one is not reached by calls for one. -/
theorem reembeds_stuck : ¬ReembedsAll oneWide .ascii 1 agedEngine := by
  intro reached
  have active : agedEngine.memories.activeMemories = [(agedRow 1 0).memory,(agedRow 2 1000).memory] := by
    with_unfolding_all rfl
  have whole := (reached (fun _ => .stable byUpdate byUpdate_total byUpdate_trans) (fun _ _ => 0)).1 (fun _ _ => rfl)
    (agedRow 2 1000).memory (active ▸ List.mem_cons_of_mem _ (List.mem_singleton_self _)) [1] rfl
  have missing : (reembedCalls oneWide .ascii (fun _ => .stable byUpdate byUpdate_total byUpdate_trans) (fun _ _ => 0) 1
      agedEngine 2).storedVector (agedRow 2 1000).memory = none := by
    decide +kernel
  cases missing.symm.trans whole.1

end
end Ecphoria
