import Ecphoria.Engine.EventTenants
import Ecphoria.Engine.StateTenants
import Ecphoria.Engine.Calls
import Mathlib.Data.List.Perm.Subperm
import Mathlib.Data.List.Pairwise

/-! What a tenant move carries over. Exporting, importing and erasing a tenant are
three sweeps with filters and limits of their own; a row reaches the other engine
only if all of them agree on it. -/
namespace Ecphoria
open Library

/-- Nothing of the tenant, which has some of these runs, is in the engine. -/
structure Absent (runs : RunTable) (e : Engine) (tenant : String) : Prop where
  memories : ∀ row ∈ e.memories.rows, row.memory.scope.tenantId ≠ tenant
  edges : ∀ row ∈ e.edges.rows, row.tenantId ≠ tenant
  grants : ∀ row ∈ e.grants.rows, row.tenantId ≠ tenant
  events : ∀ row ∈ e.episodic.rows, row.tenantId ≠ tenant
  state : ∀ row ∈ e.state.rows, ¬ StateOwned runs tenant row.agentId

/-- What the source has of the tenant is in the other engine, timestamps as their columns keep them. -/
structure Held (source dest : Engine) (tenant : String) : Prop where
  memories : ∀ row ∈ source.memories.rows, row.memory.scope.tenantId = tenant →
    ∃ copy ∈ dest.memories.rows, copy.memory = row.stored.memory
  edges : ∀ row ∈ source.edges.rows, row.tenantId = tenant → row ∈ dest.edges.rows
  grants : ∀ row ∈ source.grants.rows, row.tenantId = tenant → row ∈ dest.grants.rows
  events : ∀ row ∈ source.episodic.rows, row.tenantId = tenant → ∃ copy ∈ dest.episodic.rows,
    copy.tenantId = tenant ∧ copy.parseEvent = { row.parseEvent with timestamp := micros row.ts }
  state : ∀ row ∈ source.state.rows, StateOwned source.runs tenant row.agentId →
    ∃ copy ∈ dest.state.rows, copy.toEntry = row.toEntry

section
variable (env : Env)

/-- A move that answers has carried everything; one that fails has left the source alone. -/
def MoveKeeps (source dest : Engine) (embedder : Embedder) (now : Int) (tenant : String) : Prop :=
  match migrateTenantTo env source dest embedder now tenant with
  | (.ok _,_,reached) => Held source reached tenant
  | (.error _,left,_) => left = source

def exportedEvents (source : Engine) (tenant : String) : List Event :=
  tagEvents (some tenant) (source.exportTenant tenant).events

/-- The other engine takes the events of the tenant. -/
structure Accepted (source dest : Engine) (tenant : String) : Prop where
  appended : dest.episodic.Appendable (exportedEvents source tenant)
  embeddable : dest.config.embedding = true → embeddingTexts env (exportedEvents source tenant) ≠ none

end

/-- The payload names the tenant, so that tagging it again changes nothing. -/
def Tagged (tenant : String) (row : EventRow) : Prop :=
  row.payload.insert "_tenant_id" (.str tenant) = row.payload ∧ (row.payload.isObject = true ∨ tenant = "default")

/-- What the sweeps carry over of everything the tenant has in the source. -/
structure Movable (source dest : Engine) (tenant : String) : Prop where
  active : ∀ row ∈ source.memories.rows, row.memory.scope.tenantId = tenant → row.memory.state = .active
  few : (source.memories.rows.filter (MemoryTable.ofTenant tenant)).length ≤ 1000000
  edgeless : ∀ row ∈ source.edges.rows, row.tenantId ≠ tenant
  ungranted : ∀ row ∈ source.grants.rows, row.tenantId ≠ tenant
  short : (source.episodic.rows.filter (fun row => row.tenantId = tenant)).length ≤ 10000000
  tagged : ∀ row ∈ source.episodic.rows, row.tenantId = tenant → Tagged tenant row
  fresh : ∀ row ∈ source.episodic.rows, row.tenantId = tenant → dest.episodic.conflicts row = false
  keyed : ∀ row ∈ source.episodic.rows, row.tenantId = tenant → ∀ other ∈ source.episodic.rows,
    other.tenantId = tenant → other.id ≠ row.id → row.idempotencyKey = none ∨ other.idempotencyKey ≠ row.idempotencyKey
  once : ∀ row ∈ source.state.rows, WrittenBy tenant row.agentId → row.version = 1
  untriggered : ∀ row ∈ source.state.rows, row.agentId ≠ triggerAgent tenant
  unasked : ∀ run ∈ source.runs.rows, run.tenantId = tenant → ∀ row ∈ source.state.rows, row.agentId ≠ approvalAgent run.id
  named : tenant = "default" → ∀ row ∈ source.state.rows, '\x1f' ∈ row.agentId.toList ∨ Reserved row.agentId

private theorem forall_mem_take_iff {α : Type} {l sorted : List α} {n : Nat} (distinct : l.Nodup)
    (same : sorted.Perm l) : (∀ a ∈ l, a ∈ sorted.take n) ↔ l.length ≤ n := by
  constructor
  · intro all
    calc l.length ≤ (sorted.take n).length := (distinct.subperm all).length_le
      _ ≤ n := by simp
  · intro few a inside
    rw [List.take_of_length_le (same.length_eq ▸ few)]
    exact same.mem_iff.mpr inside

namespace MemoryTable

private theorem nodup_memories (t : MemoryTable) (p : MemoryRow → Bool) :
    ((t.rows.filter p).map MemoryRow.memory).Nodup := by
  have ids : ((t.rows.filter p).map MemoryRow.id).Nodup := t.unique.sublist (List.filter_sublist.map _)
  have through : (t.rows.filter p).map MemoryRow.id = ((t.rows.filter p).map MemoryRow.memory).map Memory.id := by
    rw [List.map_map]
    rfl
  exact List.Nodup.of_map _ (through ▸ ids)

theorem mem_listByTenant {t : MemoryTable} {tenant : String} {m : Memory}
    {limit : Nat} (inside : m ∈ t.listByTenant tenant limit) :
    ∃ row ∈ t.rows, row.memory = m ∧ m.scope.tenantId = tenant ∧ m.state = .active := by
  obtain ⟨row,kept,rfl⟩ := List.mem_map.mp
    ((List.perm_insertionSort _ _).mem_iff.mp (List.mem_of_mem_take inside))
  obtain ⟨there,chosen⟩ := List.mem_filter.mp kept
  simp only [ofTenant,Bool.and_eq_true,decide_eq_true_eq] at chosen
  exact ⟨row,there,rfl,chosen⟩

theorem listByTenant_complete (t : MemoryTable) (tenant : String) :
    (∀ row ∈ t.rows, row.memory.scope.tenantId = tenant → row.memory ∈ t.listByTenant tenant 10000000) ↔
      (∀ row ∈ t.rows, row.memory.scope.tenantId = tenant → row.memory.state = .active) ∧
        (t.rows.filter (ofTenant tenant)).length ≤ 1000000 := by
  have limited := forall_mem_take_iff (t.nodup_memories (fun row => ofTenant tenant row && row.memory.state = .active))
    (List.perm_insertionSort (fun a b : Memory => b.updatedAt ≤ a.updatedAt) _) (n := clampNat 10000000 1 1000000)
  have whole (active : ∀ row ∈ t.rows, row.memory.scope.tenantId = tenant → row.memory.state = .active) :
      t.rows.filter (fun row => ofTenant tenant row && row.memory.state = .active) = t.rows.filter (ofTenant tenant) := by
    apply List.filter_congr
    intro row inside
    by_cases owned : row.memory.scope.tenantId = tenant
    · simp [ofTenant,owned,active row inside owned]
    · simp [ofTenant,owned]
  constructor
  · intro all
    have active : ∀ row ∈ t.rows, row.memory.scope.tenantId = tenant → row.memory.state = .active := by
      intro row inside owned
      obtain ⟨_,_,_,_,active⟩ := mem_listByTenant (all row inside owned)
      exact active
    refine ⟨active,?_⟩
    rw [whole active,List.length_map] at limited
    refine limited.mp ?_
    intro m member
    obtain ⟨row,kept,rfl⟩ := List.mem_map.mp member
    obtain ⟨inside,owned⟩ := List.mem_filter.mp kept
    have found := all row inside (of_decide_eq_true owned)
    rwa [listByTenant,whole active] at found
  · intro given row inside owned
    obtain ⟨active,few⟩ := given
    rw [whole active,List.length_map] at limited
    rw [listByTenant,whole active]
    exact limited.mpr few _ (List.mem_map_of_mem (List.mem_filter.mpr ⟨inside,decide_eq_true owned⟩))

theorem mem_importMemories {t : MemoryTable} {tenant : String} {memories : List Memory} {row : MemoryRow}
    (absent : ∀ row ∈ t.rows, row.memory.scope.tenantId ≠ tenant) (owned : row.memory.scope.tenantId = tenant)
    (inside : row ∈ (t.importMemories memories).rows) : ∃ m ∈ memories, (⟨m,none⟩ : MemoryRow).stored = row := by
  rcases mem_upsertRows inside with ⟨new,listed,stored⟩ | ⟨old,_⟩
  · obtain ⟨m,member,rfl⟩ := List.mem_map.mp listed
    exact ⟨m,member,stored⟩
  · exact absurd owned (absent row old)

theorem importMemories_lands {t : MemoryTable} {memories : List Memory} (distinct : (memories.map Memory.id).Nodup)
    {m : Memory} (member : m ∈ memories) : (⟨m,none⟩ : MemoryRow).stored ∈ (t.importMemories memories).rows := by
  have key : m.id ∈ (t.importMemories memories).keys := by
    rw [importMemories,upsertRows_eq]
    exact Table.mem_keys_upsertAll (Or.inl ⟨(⟨m,none⟩ : MemoryRow).stored,
      List.mem_map_of_mem (List.mem_map_of_mem member),rfl⟩)
  obtain ⟨row,inside,same⟩ := (Table.mem_keys _ _).mp key
  rcases mem_upsertRows inside with ⟨new,listed,stored⟩ | ⟨_,apart⟩
  · obtain ⟨other,among,rfl⟩ := List.mem_map.mp listed
    have one : other = m := by
      refine List.inj_on_of_nodup_map distinct among member ?_
      exact (congrArg MemoryRow.id stored).trans same
    rw [← one,stored]
    exact inside
  · exact absurd same.symm (apart ⟨m,none⟩ (List.mem_map_of_mem member))

end MemoryTable

def EventRow.moved (tenant : String) (row : EventRow) : EventRow :=
  ({ row.parseEvent with payload := row.payload.insert "_tenant_id" (.str tenant) } : Event).toRow

private theorem joined_split (tags : String) :
    String.intercalate "," ((tags.toList.splitOn ',').map String.ofList) = tags := by
  apply String.toList_inj.mp
  rw [String.toList_intercalate,List.map_map]
  have plain : (tags.toList.splitOn ',').map (String.toList ∘ String.ofList) = tags.toList.splitOn ',' :=
    (List.map_congr_left (fun part _ => String.toList_ofList)).trans (List.map_id _)
  rw [plain]
  exact List.intercalate_splitOn ','

theorem EventRow.moved_tags (tenant : String) (row : EventRow) : (row.moved tenant).tags = row.tags := by
  cases written : row.tags with
  | none => simp [EventRow.moved,Event.toRow,EventRow.parseEvent,written]
  | some tags =>
    have some : ((tags.toList.splitOn ',').map String.ofList).isEmpty = false := by
      simp
    simp only [EventRow.moved,Event.toRow,EventRow.parseEvent,written,some,Bool.false_eq_true,if_false,joined_split]

theorem EventRow.moved_parseEvent (tenant : String) (row : EventRow) :
    (row.moved tenant).parseEvent =
      { row.parseEvent with
        payload := row.payload.insert "_tenant_id" (.str tenant)
        timestamp := micros row.ts } := by
  have tags := row.moved_tags tenant
  simp only [EventRow.parseEvent,tags]
  rfl

theorem Tagged.owner {tenant : String} {row : EventRow} (tagged : Tagged tenant row) :
    (row.moved tenant).tenantId = tenant :=
  tagged_toRow tenant row.parseEvent tagged.2

theorem moved_faithful_iff (tenant : String) (row : EventRow) :
    ((row.moved tenant).tenantId = tenant ∧
        (row.moved tenant).parseEvent = { row.parseEvent with timestamp := micros row.ts }) ↔ Tagged tenant row := by
  constructor
  · intro given
    obtain ⟨owner,same⟩ := given
    rw [row.moved_parseEvent] at same
    have kept : row.payload.insert "_tenant_id" (.str tenant) = row.payload := congrArg Event.payload same
    refine ⟨kept,?_⟩
    by_contra neither
    obtain ⟨scalar,other⟩ := not_or.mp neither
    have default : (row.moved tenant).tenantId = "default" := by
      change ((Json.get "_tenant_id" (row.payload.insert "_tenant_id" (.str tenant))).bind Json.asStr).getD "default" = _
      rw [kept]
      cases payload : row.payload with
      | obj fields => simp [payload,Json.isObject] at scalar
      | _ => rfl
    exact other (owner.symm.trans default)
  · intro tagged
    exact ⟨tagged.owner,by rw [row.moved_parseEvent,tagged.1]; rfl⟩

namespace EpisodicTable

theorem conflicts_congr (t : EpisodicTable) {row other : EventRow} (id : row.id = other.id)
    (key : row.idempotencyKey = other.idempotencyKey) : t.conflicts row = t.conflicts other := by
  rw [conflicts,conflicts,id,key]

theorem clear_insertOrIgnore {t : EpisodicTable} {row new : EventRow} (clear : t.conflicts new = false) :
    (t.insertOrIgnore new).conflicts row = false ↔ t.conflicts row = false ∧ new.id ≠ row.id ∧
      (row.idempotencyKey = none ∨ new.idempotencyKey ≠ row.idempotencyKey) := by
  have rows := t.rows_insertOrIgnore new
  rw [clear] at rows
  rw [← Bool.not_eq_true,← Bool.not_eq_true,conflicts_iff,conflicts_iff,rows]
  simp only [Bool.false_eq_true,if_false,List.mem_append,List.mem_singleton,not_exists,not_and,not_or,ne_eq]
  constructor
  · intro none
    refine ⟨fun old inside => none old (Or.inl inside),(none new (Or.inr rfl)).1,?_⟩
    by_cases keyless : row.idempotencyKey = .none
    · exact Or.inl keyless
    · exact Or.inr ((none new (Or.inr rfl)).2 keyless)
  · intro given old inside
    obtain ⟨before,id,key⟩ := given
    rcases inside with inside | rfl
    · exact before old inside
    · exact ⟨id,fun keyed => key.resolve_left keyed⟩

/-- A batch of new rows lands whole exactly when none of them meets a stored row and no two share a key. -/
theorem insertAll_lands_iff (t : EpisodicTable) (rows : List EventRow) (distinct : (rows.map EventRow.id).Nodup)
    (new : ∀ row ∈ rows, row ∉ t.rows) :
    (∀ row ∈ rows, row ∈ (rows.foldl insertOrIgnore t).rows) ↔ (∀ row ∈ rows, t.conflicts row = false) ∧
      rows.Pairwise (fun a b => b.idempotencyKey = none ∨ a.idempotencyKey ≠ b.idempotencyKey) := by
  induction rows generalizing t with
  | nil => simp
  | cons first rows ih =>
    obtain ⟨apart,distinct⟩ := List.nodup_cons.mp distinct
    have others (row : EventRow) (inside : row ∈ rows) : first.id ≠ row.id :=
      fun same => apart (List.mem_map.mpr ⟨row,inside,same.symm⟩)
    -- once the first row is in, the rest of the batch is a batch of new rows again
    have rest (clear : t.conflicts first = false) : ∀ row ∈ rows, row ∉ (t.insertOrIgnore first).rows := by
      intro row inside
      rw [t.rows_insertOrIgnore first,clear]
      simp only [Bool.false_eq_true,if_false,List.mem_append,List.mem_singleton,not_or]
      exact ⟨new row (List.mem_cons_of_mem first inside),fun same => others row inside (same ▸ rfl)⟩
    rw [List.foldl_cons,List.pairwise_cons]
    constructor
    · intro all
      have clear : t.conflicts first = false := by
        by_contra met
        rcases mem_insertAll (all first List.mem_cons_self) with before | later
        · rw [t.rows_insertOrIgnore first,if_pos (Bool.not_eq_false _ ▸ met)] at before
          exact new first List.mem_cons_self before
        · exact others first later rfl
      obtain ⟨free,keyed⟩ := (ih _ distinct (rest clear)).mp (fun row inside => all row (List.mem_cons_of_mem first inside))
      refine ⟨?_,fun row inside => ((clear_insertOrIgnore clear).mp (free row inside)).2.2,keyed⟩
      intro row inside
      rcases List.mem_cons.mp inside with rfl | inside
      · exact clear
      · exact ((clear_insertOrIgnore clear).mp (free row inside)).1
    · intro given
      obtain ⟨free,apart,keyed⟩ := given
      have clear := free first List.mem_cons_self
      intro row inside
      rcases List.mem_cons.mp inside with rfl | inside
      · apply insertAll_kept
        rw [t.rows_insertOrIgnore row,clear]
        simp
      · refine (ih _ distinct (rest clear)).mpr ⟨fun row inside => ?_,keyed⟩ row inside
        exact (clear_insertOrIgnore clear).mpr
          ⟨free row (List.mem_cons_of_mem first inside),others row inside,apart row inside⟩

def leaving (t : EpisodicTable) (tenant : String) : List EventRow :=
  ((t.rows.filter (fun row => row.tenantId = tenant)).insertionSort (fun a b => a.ts ≤ b.ts)).take
    (clampNat 10000000 1 10000000)

theorem mem_leaving {t : EpisodicTable} {tenant : String} {row : EventRow} (inside : row ∈ t.leaving tenant) :
    row ∈ t.rows ∧ row.tenantId = tenant := by
  have kept := (List.perm_insertionSort _ _).mem_iff.mp (List.mem_of_mem_take inside)
  exact ⟨(List.mem_filter.mp kept).1,of_decide_eq_true (List.mem_filter.mp kept).2⟩

theorem nodup_leaving (t : EpisodicTable) (tenant : String) : ((t.leaving tenant).map EventRow.id).Nodup := by
  have kept : ((t.rows.filter (fun row => row.tenantId = tenant)).map EventRow.id).Nodup :=
    t.unique.sublist (List.filter_sublist.map _)
  have sorted := ((List.perm_insertionSort (fun a b : EventRow => a.ts ≤ b.ts) _).map EventRow.id).nodup_iff.mpr kept
  exact sorted.sublist ((List.take_sublist _ _).map _)

theorem leaving_complete (t : EpisodicTable) (tenant : String) :
    (∀ row ∈ t.rows, row.tenantId = tenant → row ∈ t.leaving tenant) ↔
      (t.rows.filter (fun row => row.tenantId = tenant)).length ≤ 10000000 := by
  have distinct : (t.rows.filter (fun row => row.tenantId = tenant)).Nodup :=
    List.Nodup.of_map EventRow.id (t.unique.sublist (List.filter_sublist.map _))
  have limited := forall_mem_take_iff distinct
    (List.perm_insertionSort (fun a b : EventRow => a.ts ≤ b.ts) _) (n := clampNat 10000000 1 10000000)
  rw [show clampNat 10000000 1 10000000 = 10000000 from rfl] at limited
  rw [← limited]
  constructor
  · intro all row kept
    exact all row (List.mem_filter.mp kept).1 (of_decide_eq_true (List.mem_filter.mp kept).2)
  · intro all row inside owned
    exact all row (List.mem_filter.mpr ⟨inside,decide_eq_true owned⟩)

end EpisodicTable

theorem exportedEvents_rows (source : Engine) (tenant : String) :
    (exportedEvents source tenant).map Event.toRow =
      (source.episodic.leaving tenant).map (EventRow.moved tenant) := by
  simp only [exportedEvents,Engine.exportTenant,EpisodicTable.eventsByTenant,tagEvents,List.map_map]
  rfl

section
variable {source dest : Engine} {tenant : String} {ids : List Uuid}

/-- The log of the other engine after the events of the tenant have come in. -/
def reachedLog (source dest : Engine) (tenant : String) (ids : List Uuid) : EpisodicTable :=
  (((source.episodic.leaving tenant).map (EventRow.moved tenant)).foldl EpisodicTable.insertOrIgnore
    dest.episodic).markEmbedded ids

private theorem mem_reachedLog (absent : Absent source.runs dest tenant) {copy : EventRow}
    (inside : copy ∈ (reachedLog source dest tenant ids).rows) (owned : copy.tenantId = tenant) :
    ∃ row ∈ source.episodic.leaving tenant, copy.parseEvent = (row.moved tenant).parseEvent ∧
      (row.moved tenant).tenantId = tenant ∧ row.moved tenant ∈
        (((source.episodic.leaving tenant).map (EventRow.moved tenant)).foldl EpisodicTable.insertOrIgnore
          dest.episodic).rows := by
  obtain ⟨stored,there,rfl⟩ := EpisodicTable.mem_markEmbedded.mp inside
  rw [apply_ite EventRow.tenantId,ite_self] at owned
  rcases EpisodicTable.mem_insertAll there with before | new
  · exact absurd owned (absent.events stored before)
  · obtain ⟨row,leaves,rfl⟩ := List.mem_map.mp new
    refine ⟨row,leaves,?_,owned,there⟩
    rw [apply_ite EventRow.parseEvent]
    exact ite_self _

private theorem reachedLog_lands {row : EventRow} (ids : List Uuid) (landed : row.moved tenant ∈
      (((source.episodic.leaving tenant).map (EventRow.moved tenant)).foldl EpisodicTable.insertOrIgnore
        dest.episodic).rows) :
    ∃ copy ∈ (reachedLog source dest tenant ids).rows, copy.tenantId = (row.moved tenant).tenantId ∧
      copy.parseEvent = (row.moved tenant).parseEvent := by
  refine ⟨_,EpisodicTable.mem_markEmbedded.mpr ⟨row.moved tenant,landed,rfl⟩,?_,?_⟩
  · rw [apply_ite EventRow.tenantId]
    exact ite_self _
  · rw [apply_ite EventRow.parseEvent]
    exact ite_self _

private theorem batch_lands_iff (absent : Absent source.runs dest tenant)
    (tagged : ∀ row ∈ source.episodic.leaving tenant, Tagged tenant row) :
    (∀ row ∈ source.episodic.leaving tenant, row.moved tenant ∈
      (((source.episodic.leaving tenant).map (EventRow.moved tenant)).foldl EpisodicTable.insertOrIgnore
        dest.episodic).rows) ↔
      (∀ row ∈ source.episodic.leaving tenant, dest.episodic.conflicts row = false) ∧
        ∀ row ∈ source.episodic.leaving tenant, ∀ other ∈ source.episodic.leaving tenant, other.id ≠ row.id →
          row.idempotencyKey = none ∨ other.idempotencyKey ≠ row.idempotencyKey := by
  have ids : ((source.episodic.leaving tenant).map (EventRow.moved tenant)).map EventRow.id =
      (source.episodic.leaving tenant).map EventRow.id := by
    rw [List.map_map]
    rfl
  have distinct := source.episodic.nodup_leaving tenant
  have new : ∀ row ∈ (source.episodic.leaving tenant).map (EventRow.moved tenant), row ∉ dest.episodic.rows := by
    intro copy listed there
    obtain ⟨row,leaves,rfl⟩ := List.mem_map.mp listed
    exact absent.events _ there (tagged row leaves).owner
  have lands := EpisodicTable.insertAll_lands_iff dest.episodic _ (ids ▸ distinct) new
  rw [List.forall_mem_map,List.forall_mem_map,List.pairwise_map] at lands
  rw [lands]
  apply and_congr
  · refine forall₂_congr (fun row _ => ?_)
    have alike : dest.episodic.conflicts (row.moved tenant) = dest.episodic.conflicts row :=
      dest.episodic.conflicts_congr rfl rfl
    rw [alike]
  · constructor
    · intro keyed row inside other there apart
      have symm : Std.Symm (fun a b : EventRow => b.idempotencyKey = none ∨ a.idempotencyKey ≠ b.idempotencyKey) := by
        refine ⟨fun a b given => ?_⟩
        by_cases keyless : a.idempotencyKey = none
        · exact Or.inl keyless
        · refine Or.inr (fun same => ?_)
          rcases given with other | differ
          · exact keyless (same ▸ other)
          · exact differ same.symm
      have among : (source.episodic.leaving tenant).Pairwise
          (fun a b => b.idempotencyKey = none ∨ a.idempotencyKey ≠ b.idempotencyKey) := keyed
      exact among.forall there inside (fun same => apart (same ▸ rfl))
    · intro keyed
      refine (List.Nodup.of_map _ distinct).pairwise_of_forall_ne ?_
      intro a inside b there apart
      exact keyed b there a inside (fun same => apart (source.episodic.eq_of_key
        (EpisodicTable.mem_leaving inside).1 (EpisodicTable.mem_leaving there).1 same))

theorem events_reached_iff (source : Engine) (ids : List Uuid) (absent : Absent source.runs dest tenant) :
    (∀ row ∈ source.episodic.rows, row.tenantId = tenant → ∃ copy ∈ (reachedLog source dest tenant ids).rows,
        copy.tenantId = tenant ∧ copy.parseEvent = { row.parseEvent with timestamp := micros row.ts }) ↔
      (source.episodic.rows.filter (fun row => row.tenantId = tenant)).length ≤ 10000000 ∧
      (∀ row ∈ source.episodic.rows, row.tenantId = tenant → Tagged tenant row) ∧
      (∀ row ∈ source.episodic.rows, row.tenantId = tenant → dest.episodic.conflicts row = false) ∧
      ∀ row ∈ source.episodic.rows, row.tenantId = tenant → ∀ other ∈ source.episodic.rows, other.tenantId = tenant →
        other.id ≠ row.id → row.idempotencyKey = none ∨ other.idempotencyKey ≠ row.idempotencyKey := by
  rw [← EpisodicTable.leaving_complete]
  constructor
  · intro reached
    -- ids are unique in the source, so the copy of a row can only come from the row itself
    have own : ∀ row ∈ source.episodic.rows, row.tenantId = tenant → row ∈ source.episodic.leaving tenant ∧
        Tagged tenant row ∧ row.moved tenant ∈ (((source.episodic.leaving tenant).map (EventRow.moved tenant)).foldl
          EpisodicTable.insertOrIgnore dest.episodic).rows := by
      intro row inside owned
      obtain ⟨copy,there,owner,said⟩ := reached row inside owned
      obtain ⟨origin,leaves,same,owner',landed⟩ := mem_reachedLog absent there owner
      have one : origin = row := source.episodic.eq_of_key (EpisodicTable.mem_leaving leaves).1 inside
        (congrArg Event.id (same.symm.trans said))
      subst one
      exact ⟨leaves,(moved_faithful_iff tenant origin).mp ⟨owner',same.symm.trans said⟩,landed⟩
    have listed {row : EventRow} (leaves : row ∈ source.episodic.leaving tenant) :=
      own row (EpisodicTable.mem_leaving leaves).1 (EpisodicTable.mem_leaving leaves).2
    obtain ⟨fresh,keyed⟩ := (batch_lands_iff absent (fun row leaves => (listed leaves).2.1)).mp
      (fun row leaves => (listed leaves).2.2)
    refine ⟨fun row inside owned => (own row inside owned).1,fun row inside owned => (own row inside owned).2.1,
      fun row inside owned => fresh row (own row inside owned).1,?_⟩
    intro row inside owned other there owner
    exact keyed row (own row inside owned).1 other (own other there owner).1
  · intro given row inside owned
    obtain ⟨all,tagged,fresh,keyed⟩ := given
    have batch := (batch_lands_iff absent (fun row leaves => tagged row (EpisodicTable.mem_leaving leaves).1
      (EpisodicTable.mem_leaving leaves).2)).mpr
      ⟨fun row leaves => fresh row (EpisodicTable.mem_leaving leaves).1 (EpisodicTable.mem_leaving leaves).2,
        fun row leaves other there => keyed row (EpisodicTable.mem_leaving leaves).1 (EpisodicTable.mem_leaving leaves).2
          other (EpisodicTable.mem_leaving there).1 (EpisodicTable.mem_leaving there).2⟩
    obtain ⟨copy,there,owner,said⟩ := reachedLog_lands ids (batch row (all row inside owned))
    obtain ⟨named,faithful⟩ := (moved_faithful_iff tenant row).mpr (tagged row inside owned)
    exact ⟨copy,there,owner.trans named,said.trans faithful⟩

end

theorem importState_find {t : StateTable} {entries : List (String × String × Json)} {now : Int}
    {agentId key : String} {value : Json} (distinct : (entries.map (fun entry => (entry.1,entry.2.1))).Nodup)
    (inside : (agentId,key,value) ∈ entries) (fresh : t.find (agentId,key) = none) :
    (Engine.importState t entries now).find (agentId,key) = some ⟨agentId,key,value,1,now,none⟩ := by
  -- entries with other keys leave the row of this one as it is
  have apart (t : StateTable) (entries : List (String × String × Json))
      (other : (agentId,key) ∉ entries.map (fun entry => (entry.1,entry.2.1))) :
      (Engine.importState t entries now).find (agentId,key) = t.find (agentId,key) := by
    induction entries generalizing t with
    | nil => rfl
    | cons entry entries ih =>
      simp only [List.map_cons,List.mem_cons,not_or] at other
      refine (ih (t.set entry.1 entry.2.1 entry.2.2 now).2 other.2).trans ?_
      rw [StateTable.find_set,if_neg (Ne.symm other.1)]
  induction entries generalizing t with
  | nil => cases inside
  | cons entry entries ih =>
    obtain ⟨new,distinct⟩ := List.nodup_cons.mp distinct
    rcases List.mem_cons.mp inside with rfl | later
    · refine (apart (t.set agentId key value now).2 entries new).trans ?_
      rw [StateTable.find_set,if_pos rfl,StateTable.nextRow,fresh]
    · refine ih distinct later ?_
      rw [StateTable.find_set,if_neg,fresh]
      intro same
      exact new (List.mem_map.mpr ⟨_,later,same.symm⟩)

theorem importState_agents {t : StateTable} {entries : List (String × String × Json)} {now : Int} {agentId key : String}
    (other : ∀ entry ∈ entries, entry.1 ≠ agentId) :
    (Engine.importState t entries now).find (agentId,key) = t.find (agentId,key) := by
  induction entries generalizing t with
  | nil => rfl
  | cons entry entries ih =>
    refine (ih (fun later inside => other later (List.mem_cons_of_mem entry inside))).trans ?_
    rw [StateTable.find_set,if_neg]
    exact fun same => other entry List.mem_cons_self (Prod.mk.inj same).1

/-- A move carries an entry of the tenant exactly when it is written under the name of the tenant, for the first time. -/
theorem state_reached_iff (source : Engine) {dest : Engine} {tenant : String} (now : Int)
    (absent : Absent source.runs dest tenant) {row : StateRow} (inside : row ∈ source.state.rows)
    (owned : StateOwned source.runs tenant row.agentId) :
    (∃ copy ∈ (Engine.importState dest.state (source.exportTenant tenant).state now).rows, copy.toEntry = row.toEntry) ↔
      WrittenBy tenant row.agentId ∧ row.version = 1 := by
  have distinct : ((source.exportTenant tenant).state.map (fun entry => (entry.1,entry.2.1))).Nodup := by
    have keys : (source.exportTenant tenant).state.map (fun entry => (entry.1,entry.2.1)) =
        (source.state.rows.filter (StateTable.hasPrefix (tenantAgents tenant))).map StateRow.primary := by
      rw [Engine.exportTenant,StateTable.exportByPrefix,List.map_map]
      rfl
    rw [keys]
    exact source.state.unique.sublist (List.filter_sublist.map _)
  have fresh : dest.state.find row.primary = none := by
    rw [Table.find_eq_none]
    intro known
    obtain ⟨old,there,same⟩ := (Table.mem_keys _ _).mp known
    have agent : old.agentId = row.agentId := congrArg Prod.fst same
    exact absent.state old there (agent ▸ owned)
  have copied (written : WrittenBy tenant row.agentId) :
      (Engine.importState dest.state (source.exportTenant tenant).state now).find row.primary =
        some ⟨row.agentId,row.key,row.value,1,now,none⟩ :=
    importState_find distinct
      (List.mem_map.mpr ⟨row,List.mem_filter.mpr ⟨inside,hasPrefix_of_writtenBy written⟩,rfl⟩) fresh
  constructor
  · rintro ⟨copy,there,same⟩
    have primary : copy.primary = row.primary :=
      Prod.ext (congrArg StateEntry.agentId same) (congrArg StateEntry.key same)
    have found := (Table.find_eq_some _ _ _).mpr ⟨there,primary⟩
    have written : WrittenBy tenant row.agentId := by
      by_contra unwritten
      have left : (Engine.importState dest.state (source.exportTenant tenant).state now).find row.primary =
          dest.state.find row.primary := by
        refine importState_agents fun entry exported agent => ?_
        obtain ⟨old,kept,rfl⟩ := List.mem_map.mp exported
        have starts : StateTable.hasPrefix (tenantAgents tenant) row = true := by
          rw [StateTable.hasPrefix,← agent]
          exact (List.mem_filter.mp kept).2
        exact unwritten (owned.hasPrefix_iff.mp starts)
      rw [left,fresh] at found
      cases found
    refine ⟨written,?_⟩
    rw [copied written] at found
    have first : 1 = copy.version := congrArg StateRow.version (Option.some.inj found)
    exact (congrArg StateEntry.version same).symm.trans first.symm
  · rintro ⟨written,once⟩
    refine ⟨_,((Table.find_eq_some _ _ _).mp (copied written)).1,?_⟩
    rw [StateRow.toEntry,StateRow.toEntry,once]

/-- The state that is written under the name of its tenant is all of its state exactly when it has none elsewhere. -/
theorem written_iff {t : StateTable} {runs : RunTable} {tenant : String} :
    (∀ row ∈ t.rows, StateOwned runs tenant row.agentId → WrittenBy tenant row.agentId) ↔
      (∀ row ∈ t.rows, row.agentId ≠ triggerAgent tenant) ∧
        (∀ run ∈ runs.rows, run.tenantId = tenant → ∀ row ∈ t.rows, row.agentId ≠ approvalAgent run.id) ∧
        (tenant = "default" → ∀ row ∈ t.rows, '\x1f' ∈ row.agentId.toList ∨ Reserved row.agentId) := by
  have unmarked {row : StateRow} (written : WrittenBy tenant row.agentId) : '\x1f' ∈ row.agentId.toList :=
    separator_of_hasPrefix (hasPrefix_of_writtenBy written)
  constructor
  · intro all
    refine ⟨fun row inside trigger => ?_,fun run known own row inside approval => ?_,fun named row inside => ?_⟩
    · have written := all row inside (Or.inr (Or.inl trigger))
      exact absurd (hasPrefix_of_writtenBy written) (by simp [hasPrefix_triggerAgent trigger])
    · have written := all row inside (Or.inr (Or.inr (Or.inl ⟨run,known,own,approval⟩)))
      exact absurd (unmarked written) (approval ▸ approvalAgent_plain run.id)
    · by_contra bare
      obtain ⟨plain,free⟩ := not_or.mp bare
      exact plain (unmarked (all row inside (Or.inr (Or.inr (Or.inr ⟨named,plain,free⟩)))))
  · intro given row inside owned
    obtain ⟨untriggered,unasked,named⟩ := given
    rcases owned with written | trigger | ⟨run,known,own,approval⟩ | ⟨default,bare,free⟩
    · exact written
    · exact absurd trigger (untriggered row inside)
    · exact absurd approval (unasked run known own row inside)
    · exact absurd (named default row inside) (not_or.mpr ⟨bare,free⟩)

theorem memories_reached_iff (source : Engine) {dest : Engine} {tenant : String} (absent : Absent source.runs dest tenant) :
    (∀ row ∈ source.memories.rows, row.memory.scope.tenantId = tenant →
        ∃ copy ∈ (dest.memories.importMemories (source.exportTenant tenant).memories).rows,
          copy.memory = row.stored.memory) ↔
      (∀ row ∈ source.memories.rows, row.memory.scope.tenantId = tenant → row.memory.state = .active) ∧
        (source.memories.rows.filter (MemoryTable.ofTenant tenant)).length ≤ 1000000 := by
  rw [← MemoryTable.listByTenant_complete]
  have distinct : ((source.exportTenant tenant).memories.map Memory.id).Nodup := by
    have ids : ((source.memories.rows.filter (fun row => MemoryTable.ofTenant tenant row && row.memory.state = .active)).map
        MemoryRow.memory).map Memory.id = (source.memories.rows.filter
          (fun row => MemoryTable.ofTenant tenant row && row.memory.state = .active)).map MemoryRow.id := by
      rw [List.map_map]
      rfl
    have kept := ((List.perm_insertionSort (fun a b : Memory => b.updatedAt ≤ a.updatedAt) _).map Memory.id).nodup_iff.mpr
      (ids ▸ source.memories.unique.sublist (List.filter_sublist.map _))
    exact kept.sublist ((List.take_sublist _ _).map _)
  constructor
  · intro reached row inside owned
    obtain ⟨copy,there,same⟩ := reached row inside owned
    have owner : copy.memory.scope.tenantId = tenant := by rw [same]; exact owned
    obtain ⟨m,listed,stored⟩ := MemoryTable.mem_importMemories absent.memories owner there
    obtain ⟨origin,among,rfl,_⟩ := MemoryTable.mem_listByTenant listed
    have id : origin.id = row.id := by
      calc origin.id = (⟨origin.memory,none⟩ : MemoryRow).stored.id := rfl
        _ = copy.id := congrArg MemoryRow.id stored
        _ = row.stored.memory.id := congrArg Memory.id same
    exact source.memories.eq_of_key among inside id ▸ listed
  · intro all row inside owned
    exact ⟨_,MemoryTable.importMemories_lands distinct (all row inside owned),rfl⟩

section
variable (env : Env)

theorem ingest_answers_iff (e : Engine) (embedder : Embedder) (events : List Event) :
    (∃ n, (ingest env e embedder events).1 = .ok n) ↔
      e.episodic.Appendable events ∧ (e.config.embedding = true → embeddingTexts env events ≠ none) := by
  unfold ingest
  split
  next empty =>
    cases List.isEmpty_iff.mp empty
    simp [EpisodicTable.Appendable,embeddingTexts]
  next =>
    by_cases able : e.episodic.Appendable events
    · obtain ⟨n,taken⟩ := (EpisodicTable.append_spec _ _).1 able
      simp only [taken,embedAndIndex,able,true_and]
      by_cases provided : e.config.embedding = true
      · simp only [provided,Bool.not_true,Bool.false_eq_true,if_false,true_imp_iff]
        cases embeddingTexts env events with
        | none => simp
        | some paired => simp
      · simp [provided]
    · obtain ⟨err,failed⟩ := (EpisodicTable.append_spec _ _).2 able
      simp [failed,able]

private theorem importTenant_eq (dest : Engine) (embedder : Embedder) (now : Int) (tenant : String)
    (snapshot : TenantSnapshot) :
    importTenant env dest embedder now tenant snapshot =
      match ingest env dest embedder (tagEvents (some tenant) snapshot.events) with
      | (.error failure,e) => (.error failure,e)
      | (.ok events,e) =>
        (.ok ⟨events,snapshot.memories.length,snapshot.state.length⟩,
          { e with
            memories := e.memories.importMemories snapshot.memories
            state := Engine.importState e.state snapshot.state now }) := by
  unfold importTenant
  by_cases empty : snapshot.events.isEmpty = true
  · rw [if_pos empty,List.isEmpty_iff.mp empty]
    rfl
  · rw [if_neg empty]
    rfl

theorem migrateTenantTo_refused {source dest : Engine} (embedder : Embedder) (now : Int) {tenant : String}
    (refused : ¬ Accepted env source dest tenant) :
    ∃ failure reached, migrateTenantTo env source dest embedder now tenant = (.error failure,source,reached) := by
  have answers := ingest_answers_iff env dest embedder (exportedEvents source tenant)
  rw [migrateTenantTo,importTenant_eq,show tagEvents (some tenant) _ = exportedEvents source tenant from rfl]
  cases outcome : ingest env dest embedder (exportedEvents source tenant) with
  | mk result e =>
    cases result with
    | error failure => exact ⟨failure,e,rfl⟩
    | ok n =>
      obtain ⟨able,readable⟩ := answers.mp ⟨n,congrArg Prod.fst outcome⟩
      exact absurd ⟨able,readable⟩ refused

theorem migrateTenantTo_accepted {source dest : Engine} (embedder : Embedder) (now : Int) {tenant : String}
    (accepted : Accepted env source dest tenant) :
    ∃ imported left reached ids, migrateTenantTo env source dest embedder now tenant = (.ok imported,left,reached) ∧
      reached.memories = dest.memories.importMemories (source.exportTenant tenant).memories ∧
      reached.edges = dest.edges ∧ reached.grants = dest.grants ∧
      reached.episodic = reachedLog source dest tenant ids ∧
      reached.state = Engine.importState dest.state (source.exportTenant tenant).state now := by
  obtain ⟨n,answered⟩ := (ingest_answers_iff env dest embedder (exportedEvents source tenant)).mpr
    ⟨accepted.appended,accepted.embeddable⟩
  obtain ⟨episodic,semantic,written⟩ := ingest_frame env dest embedder (exportedEvents source tenant)
  have log := ingest_episodic env dest embedder (exportedEvents source tenant)
  obtain ⟨_,taken⟩ := (EpisodicTable.append_spec _ _).1 accepted.appended
  rw [taken,exportedEvents_rows,written] at log
  have outcome : ingest env dest embedder (exportedEvents source tenant) =
      (.ok n,{ dest with episodic := episodic, semantic := semantic }) := Prod.ext answered written
  rw [migrateTenantTo,importTenant_eq,show tagEvents (some tenant) _ = exportedEvents source tenant from rfl,outcome]
  exact ⟨_,_,_,_,rfl,rfl,rfl,rfl,log,rfl⟩

end

theorem triggerRegister_stays (source dest : Engine) (tenant name : String) (trigger : Trigger) (now : Int) :
    ¬ Movable (triggerRegister source tenant name trigger now) dest tenant := by
  intro movable
  refine movable.untriggered (source.state.nextRow (triggerAgent tenant) name trigger.value now)
    ((Table.find_eq_some _ (triggerAgent tenant,name) _).mp ?_).1 ?_
  · rw [triggerRegister,StateTable.find_set,if_pos rfl]
  · unfold StateTable.nextRow
    split
    next old found => exact congrArg Prod.fst ((Table.find_eq_some _ _ _).mp found).2
    next => rfl

theorem Absent.empty (runs : RunTable) (config : CoreConfig) (dimension : Nat) (tenant : String) :
    Absent runs (.empty config dimension) tenant := by
  constructor <;> exact fun row inside => absurd inside List.not_mem_nil

def smallTenant : Engine :=
  let e := (memoryAdd .ascii (.empty .default 2) (.plain 5000 1) (.new (.tenant "acme") "green")).2
  let e := ingestStep .ascii e (keyedCall "acme" 2 "k")
  let e := (stateSetForTenant e "acme" "bot" "mode" (.int 1) 0).2
  triggerRegister e "globex" "sale" ⟨"shop","*","bot"⟩ 0

def forgottenTenant : Engine :=
  memoryExpire (fun _ => 6000) (memoryAdd .ascii (.empty .default 2) (.plain 5000 1) (.new (.tenant "acme") "green")).2 [1]

end Ecphoria
