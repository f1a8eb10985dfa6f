import Ecphoria.Engine.Ingest
import Ecphoria.Library.Transition

/-! Which tenant an event belongs to once it is stored, and what the calls of one
tenant mean for the events of another. The tenant of a call travels in the payload
of its events; duplicates are recognised over the whole table. -/
namespace Ecphoria
open Library

structure IngestCall where
  tenant : String
  events : List Event
  embedder : Embedder

/-- The payload of every event can carry the tenant, or is read as the tenant's anyway. -/
def Attributable (call : IngestCall) : Prop :=
  ∀ event ∈ call.events, event.payload.isObject = true ∨ call.tenant = "default"

instance (call : IngestCall) : Decidable (Attributable call) := by
  unfold Attributable
  infer_instance

/-- No event of the call has the id or the idempotency key of a row stored for another tenant. -/
def KeysApart (t : EpisodicTable) (call : IngestCall) : Prop :=
  ∀ row ∈ t.rows, row.tenantId ≠ call.tenant → ∀ event ∈ call.events,
    event.id ≠ row.id ∧ (event.idempotencyKey = none ∨ event.idempotencyKey ≠ row.idempotencyKey)

instance (t : EpisodicTable) (call : IngestCall) : Decidable (KeysApart t call) := by
  unfold KeysApart
  infer_instance

theorem tagged_toRow (tenant : String) (event : Event) (carries : event.payload.isObject = true ∨ tenant = "default") :
    ({ event with payload := event.payload.insert "_tenant_id" (.str tenant) } : Event).toRow.tenantId = tenant := by
  simp only [Event.toRow]
  cases payload : event.payload with
  | obj fields =>
    rw [Json.get_insert]
    rfl
  | _ =>
    have named : tenant = "default" := carries.resolve_left (by simp [payload,Json.isObject])
    subst named
    rfl

namespace EpisodicTable

theorem conflicts_iff (t : EpisodicTable) (row : EventRow) :
    t.conflicts row = true ↔ ∃ old ∈ t.rows, old.id = row.id ∨
      row.idempotencyKey ≠ none ∧ old.idempotencyKey = row.idempotencyKey := by
  simp only [conflicts,Bool.or_eq_true,Bool.and_eq_true,decide_eq_true_eq,Table.mem_keys,List.any_eq_true,
    Option.isSome_iff_ne_none]
  constructor
  · intro given
    rcases given with ⟨old,inside,same⟩ | ⟨keyed,old,inside,same⟩
    · exact ⟨old,inside,Or.inl same⟩
    · exact ⟨old,inside,Or.inr ⟨keyed,same⟩⟩
  · intro given
    obtain ⟨old,inside,same | ⟨keyed,same⟩⟩ := given
    · exact Or.inl ⟨old,inside,same⟩
    · exact Or.inr ⟨keyed,old,inside,same⟩

theorem rows_insertOrIgnore (t : EpisodicTable) (row : EventRow) :
    (t.insertOrIgnore row).rows = if t.conflicts row then t.rows else t.rows ++ [row] := by
  unfold insertOrIgnore
  split
  next => rfl
  next clear =>
    refine t.rows_upsert_fresh row ?_
    intro known
    obtain ⟨old,inside,same⟩ := (t.mem_keys _).mp known
    exact clear ((t.conflicts_iff row).mpr ⟨old,inside,Or.inl same⟩)

def Appendable (t : EpisodicTable) (events : List Event) : Prop :=
  (∀ event ∈ events, event.idempotencyKey = none) →
    ((events.map Event.toRow).map EventRow.id).Nodup ∧ ∀ row ∈ events.map Event.toRow, row.id ∉ t.keys

theorem upsertAll_eq_insertAll (t : EpisodicTable) (rows : List EventRow)
    (keyless : ∀ row ∈ rows, row.idempotencyKey = none) (distinct : (rows.map EventRow.id).Nodup)
    (fresh : ∀ row ∈ rows, row.id ∉ t.keys) : Table.upsertAll t rows = rows.foldl insertOrIgnore t := by
  induction rows generalizing t with
  | nil => rfl
  | cons row rows ih =>
    obtain ⟨new,distinct⟩ := List.nodup_cons.mp distinct
    have clear : t.conflicts row = false := by
      simp [conflicts,fresh row List.mem_cons_self,keyless row List.mem_cons_self]
    have first : t.insertOrIgnore row = Table.upsert t row := by simp [insertOrIgnore,clear]
    rw [List.foldl_cons,first]
    refine ih (Table.upsert t row) (fun other inside => keyless other (List.mem_cons_of_mem row inside)) distinct ?_
    intro other inside
    rw [Table.mem_keys_upsert,not_or]
    exact ⟨fun same => new (List.mem_map.mpr ⟨other,inside,same⟩),fresh other (List.mem_cons_of_mem row inside)⟩

theorem append_spec (t : EpisodicTable) (events : List Event) :
    (t.Appendable events → ∃ n, t.append events = .ok (n,(events.map Event.toRow).foldl insertOrIgnore t)) ∧
      (¬ t.Appendable events → ∃ err, t.append events = .error err) := by
  unfold append
  split
  next empty =>
    cases List.isEmpty_iff.mp empty
    exact ⟨fun _ => ⟨0,rfl⟩,fun refused => absurd (fun _ => ⟨List.nodup_nil,by simp⟩) refused⟩
  next =>
    split
    next keyless =>
      have unkeyed : ∀ event ∈ events, event.idempotencyKey = none := by simpa using keyless
      have plain : ∀ row ∈ events.map Event.toRow, row.idempotencyKey = none := by
        intro row inside
        obtain ⟨event,member,rfl⟩ := List.mem_map.mp inside
        exact unkeyed event member
      unfold appendFast
      constructor
      · intro able
        obtain ⟨distinct,fresh⟩ := able unkeyed
        rw [(Table.append_eq_some t _ _).mpr ⟨distinct,fresh,rfl⟩]
        exact ⟨events.length,by rw [upsertAll_eq_insertAll t _ plain distinct fresh]⟩
      · intro refused
        cases written : Table.append t (events.map Event.toRow) with
        | none => exact ⟨_,rfl⟩
        | some after =>
          obtain ⟨distinct,fresh,_⟩ := (Table.append_eq_some t _ _).mp written
          exact absurd (fun _ => ⟨distinct,fresh⟩) refused
    next keyed =>
      refine ⟨fun _ => ⟨_,rfl⟩,fun refused => absurd (fun unkeyed => ?_) refused⟩
      exact absurd (by simpa using unkeyed) keyed

end EpisodicTable

/-- What one tenant sees of the full table is what it sees of the part, and the rest of the part is in the
full table too. -/
structure Projects (tenant : String) (full part : EpisodicTable) : Prop where
  own : full.rows.filter (fun row => row.tenantId = tenant) = part.rows.filter (fun row => row.tenantId = tenant)
  others : ∀ row ∈ part.rows, row.tenantId ≠ tenant → ∃ same ∈ full.rows, same.tenantId = row.tenantId ∧
    same.id = row.id ∧ same.idempotencyKey = row.idempotencyKey

def RowApart (t : EpisodicTable) (tenant : String) (row : EventRow) : Prop :=
  ∀ old ∈ t.rows, old.tenantId ≠ tenant →
    row.id ≠ old.id ∧ (row.idempotencyKey = none ∨ row.idempotencyKey ≠ old.idempotencyKey)

namespace Projects
variable {tenant : String} {full part : EpisodicTable}

theorem mem_own (projects : Projects tenant full part) {row : EventRow} (owned : row.tenantId = tenant) :
    row ∈ full.rows ↔ row ∈ part.rows := by
  have same := congrArg (row ∈ ·) projects.own
  simpa [List.mem_filter,owned] using same

theorem apart (projects : Projects tenant full part) {row : EventRow} (clear : RowApart full tenant row) :
    RowApart part tenant row := by
  intro old inside other
  obtain ⟨same,there,owner,id,key⟩ := projects.others old inside other
  rw [← id,← key]
  exact clear same there (owner ▸ other)

/-- A row that is apart from all rows of others meets a duplicate in the one table exactly when it does in
the other. -/
theorem conflicts (projects : Projects tenant full part) {row : EventRow} (clear : RowApart full tenant row) :
    full.conflicts row = part.conflicts row := by
  rw [Bool.eq_iff_iff,EpisodicTable.conflicts_iff,EpisodicTable.conflicts_iff]
  have owned {t : EpisodicTable} (clear : RowApart t tenant row) {old : EventRow} (inside : old ∈ t.rows)
      (met : old.id = row.id ∨ row.idempotencyKey ≠ none ∧ old.idempotencyKey = row.idempotencyKey) :
      old.tenantId = tenant := by
    by_contra other
    obtain ⟨ids,keys⟩ := clear old inside other
    rcases met with same | ⟨keyed,same⟩
    · exact ids same.symm
    · exact keys.elim keyed (fun apart => apart same.symm)
  constructor
  · intro given
    obtain ⟨old,inside,met⟩ := given
    exact ⟨old,(projects.mem_own (owned clear inside met)).mp inside,met⟩
  · intro given
    obtain ⟨old,inside,met⟩ := given
    exact ⟨old,(projects.mem_own (owned (projects.apart clear) inside met)).mpr inside,met⟩

theorem grow (projects : Projects tenant full part) {after : EpisodicTable} (kept : ∀ row ∈ full.rows, row.tenantId ≠ tenant →
      ∃ same ∈ after.rows, same.tenantId = row.tenantId ∧ same.id = row.id ∧ same.idempotencyKey = row.idempotencyKey)
    (own : after.rows.filter (fun row => row.tenantId = tenant) = full.rows.filter (fun row => row.tenantId = tenant)) :
    Projects tenant after part := by
  refine ⟨own.trans projects.own,?_⟩
  intro row inside other
  obtain ⟨same,there,owner,id,key⟩ := projects.others row inside other
  obtain ⟨last,found,owner',id',key'⟩ := kept same there (owner ▸ other)
  exact ⟨last,found,owner'.trans owner,id'.trans id,key'.trans key⟩

theorem append (projects : Projects tenant full part) {more less : EpisodicTable} {row : EventRow}
    (left : more.rows = full.rows ++ [row]) (right : less.rows = part.rows ++ [row]) (owned : row.tenantId = tenant) :
    Projects tenant more less := by
  refine ⟨by rw [left,right,List.filter_append,List.filter_append,projects.own],?_⟩
  intro old inside other
  rw [right] at inside
  rcases List.mem_append.mp inside with inside | last
  · obtain ⟨same,there,rest⟩ := projects.others old inside other
    exact ⟨same,left ▸ List.mem_append_left _ there,rest⟩
  · cases List.mem_singleton.mp last
    exact absurd owned other

theorem insertOrIgnore (projects : Projects tenant full part) {row : EventRow} (clear : RowApart full tenant row)
    (owned : row.tenantId = tenant) : Projects tenant (full.insertOrIgnore row) (part.insertOrIgnore row) := by
  have same := projects.conflicts clear
  have left := full.rows_insertOrIgnore row
  have right := part.rows_insertOrIgnore row
  cases met : full.conflicts row with
  | true =>
    rw [met] at left same
    rw [← same] at right
    rwa [show full.insertOrIgnore row = full from Table.ext left,show part.insertOrIgnore row = part from Table.ext right]
  | false =>
    rw [met] at left same
    rw [← same] at right
    exact projects.append left right owned

end Projects

theorem RowApart.insertOrIgnore {t : EpisodicTable} {tenant : String} {row new : EventRow} (clear : RowApart t tenant row)
    (owned : new.tenantId = tenant) : RowApart (t.insertOrIgnore new) tenant row := by
  intro old inside other
  rw [t.rows_insertOrIgnore new] at inside
  split at inside
  next => exact clear old inside other
  next =>
    rcases List.mem_append.mp inside with inside | last
    · exact clear old inside other
    · cases List.mem_singleton.mp last
      exact absurd owned other

/-- The rows of a batch of one tenant, each apart from the rows of others. -/
structure Batched (t : EpisodicTable) (tenant : String) (rows : List EventRow) : Prop where
  owned : ∀ row ∈ rows, row.tenantId = tenant
  apart : ∀ row ∈ rows, RowApart t tenant row

theorem Batched.insertOrIgnore {t : EpisodicTable} {tenant : String} {row : EventRow} {rows : List EventRow}
    (batched : Batched t tenant (row :: rows)) : Batched (t.insertOrIgnore row) tenant rows :=
  ⟨fun other inside => batched.owned other (List.mem_cons_of_mem row inside),
    fun other inside => (batched.apart other (List.mem_cons_of_mem row inside)).insertOrIgnore
      (batched.owned row List.mem_cons_self)⟩

theorem Projects.insertAll {tenant : String} {full part : EpisodicTable} {rows : List EventRow}
    (projects : Projects tenant full part) (batched : Batched full tenant rows) :
    Projects tenant (rows.foldl EpisodicTable.insertOrIgnore full) (rows.foldl EpisodicTable.insertOrIgnore part) := by
  induction rows generalizing full part with
  | nil => exact projects
  | cons row rows ih =>
    exact ih (projects.insertOrIgnore (batched.apart row List.mem_cons_self) (batched.owned row List.mem_cons_self))
      batched.insertOrIgnore

theorem Projects.appendable {tenant : String} {full part : EpisodicTable} {events : List Event}
    (projects : Projects tenant full part) (batched : Batched full tenant (events.map Event.toRow)) :
    full.Appendable events ↔ part.Appendable events := by
  have known {row : EventRow} (inside : row ∈ events.map Event.toRow) : row.id ∈ full.keys ↔ row.id ∈ part.keys := by
    have bare : RowApart full tenant { row with idempotencyKey := none } :=
      fun old there other => ⟨(batched.apart row inside old there other).1,Or.inl rfl⟩
    have met (t : EpisodicTable) : row.id ∈ t.keys ↔ t.conflicts { row with idempotencyKey := none } = true := by
      rw [EpisodicTable.conflicts_iff,Table.mem_keys]
      simp
    rw [met,met,projects.conflicts bare]
  constructor
  · intro able unkeyed
    obtain ⟨distinct,fresh⟩ := able unkeyed
    exact ⟨distinct,fun row inside there => fresh row inside ((known inside).mpr there)⟩
  · intro able unkeyed
    obtain ⟨distinct,fresh⟩ := able unkeyed
    exact ⟨distinct,fun row inside there => fresh row inside ((known inside).mp there)⟩

theorem IngestCall.batched {t : EpisodicTable} {call : IngestCall} (carries : Attributable call) (apart : KeysApart t call) :
    Batched t call.tenant ((tagEvents (some call.tenant) call.events).map Event.toRow) := by
  constructor
  · intro row inside
    obtain ⟨tagged,listed,rfl⟩ := List.mem_map.mp inside
    obtain ⟨event,member,rfl⟩ := List.mem_map.mp listed
    exact tagged_toRow call.tenant event (carries event member)
  · intro row inside old there other
    obtain ⟨tagged,listed,rfl⟩ := List.mem_map.mp inside
    obtain ⟨event,member,rfl⟩ := List.mem_map.mp listed
    exact apart old there other event member

namespace EpisodicTable

theorem mem_insertAll {t : EpisodicTable} {rows : List EventRow} {row : EventRow}
    (inside : row ∈ (rows.foldl insertOrIgnore t).rows) : row ∈ t.rows ∨ row ∈ rows := by
  induction rows generalizing t with
  | nil => exact Or.inl inside
  | cons new rows ih =>
    rcases ih inside with before | later
    · rw [t.rows_insertOrIgnore new] at before
      split at before
      next => exact Or.inl before
      next =>
        rcases List.mem_append.mp before with before | last
        · exact Or.inl before
        · exact Or.inr (List.mem_singleton.mp last ▸ List.mem_cons_self)
    · exact Or.inr (List.mem_cons_of_mem new later)

theorem insertAll_kept {t : EpisodicTable} {rows : List EventRow} {row : EventRow} (inside : row ∈ t.rows) :
    row ∈ (rows.foldl insertOrIgnore t).rows := by
  induction rows generalizing t with
  | nil => exact inside
  | cons new rows ih =>
    apply ih
    rw [t.rows_insertOrIgnore new]
    split
    next => exact inside
    next => exact List.mem_append_left _ inside

theorem filter_insertAll {t : EpisodicTable} {rows : List EventRow} {tenant : String}
    (foreign : ∀ row ∈ rows, row.tenantId ≠ tenant) :
    (rows.foldl insertOrIgnore t).rows.filter (fun row => row.tenantId = tenant) =
      t.rows.filter (fun row => row.tenantId = tenant) := by
  induction rows generalizing t with
  | nil => rfl
  | cons new rows ih =>
    rw [List.foldl_cons,ih (fun row inside => foreign row (List.mem_cons_of_mem new inside)),t.rows_insertOrIgnore new]
    split
    next => rfl
    next => simp [List.filter_append,foreign new List.mem_cons_self]

theorem mem_markEmbedded {t : EpisodicTable} {ids : List Uuid} {row : EventRow} :
    row ∈ (t.markEmbedded ids).rows ↔ ∃ old ∈ t.rows, (if old.id ∈ ids then { old with embedded := true } else old) = row := by
  simp [markEmbedded]

theorem filter_markEmbedded (t : EpisodicTable) (ids : List Uuid) (tenant : String) :
    (t.markEmbedded ids).rows.filter (fun row => row.tenantId = tenant) =
      (t.rows.filter (fun row => row.tenantId = tenant)).map
        (fun row => if row.id ∈ ids then { row with embedded := true } else row) := by
  simp only [markEmbedded,Table.update,List.filter_map,decide_eq_true_eq]
  congr 1
  apply List.filter_congr
  intro row _
  by_cases marked : row.id ∈ ids <;> simp [marked]

end EpisodicTable

theorem Projects.markEmbedded {tenant : String} {full part : EpisodicTable} (projects : Projects tenant full part)
    (ids : List Uuid) : Projects tenant (full.markEmbedded ids) (part.markEmbedded ids) := by
  refine ⟨by rw [EpisodicTable.filter_markEmbedded,EpisodicTable.filter_markEmbedded,projects.own],?_⟩
  intro row inside other
  obtain ⟨old,there,rfl⟩ := EpisodicTable.mem_markEmbedded.mp inside
  have owner : old.tenantId ≠ tenant := by
    by_cases marked : old.id ∈ ids <;> simpa [marked] using other
  obtain ⟨same,found,owners,id,key⟩ := projects.others old there owner
  refine ⟨_,EpisodicTable.mem_markEmbedded.mpr ⟨same,found,rfl⟩,?_⟩
  by_cases marked : old.id ∈ ids <;> simp [marked,id,owners,key]

section
variable (env : Env)

def ingestStep (e : Engine) (call : IngestCall) : Engine :=
  (ingestForTenant env e call.embedder call.events call.tenant).2

def CarriesTenant (e : Engine) (call : IngestCall) : Prop :=
  ∀ row ∈ (ingestStep env e call).episodic.rows, row.id ∉ e.episodic.keys → row.tenantId = call.tenant

def storedFor (tenant : String) (e : Engine) : List EventRow :=
  e.episodic.rows.filter (fun row => row.tenantId = tenant)

/-- The two engines differ, for one tenant's calls, in nothing an ingest reads or writes. -/
structure SeenAlike (tenant : String) (full part : Engine) : Prop where
  config : full.config = part.config
  dimension : full.semantic.dimension = part.semantic.dimension
  log : Projects tenant full.episodic part.episodic

variable {env}

private theorem ingestStep_settings (env : Env) (e : Engine) (call : IngestCall) :
    (ingestStep env e call).config = e.config ∧ (ingestStep env e call).semantic.dimension = e.semantic.dimension :=
  ingest_settings env e call.embedder (tagEvents (some call.tenant) call.events)

theorem ingestStep_log (env : Env) (e : Engine) (call : IngestCall) :
    (¬ e.episodic.Appendable (tagEvents (some call.tenant) call.events) → (ingestStep env e call).episodic = e.episodic) ∧
      (e.episodic.Appendable (tagEvents (some call.tenant) call.events) → (ingestStep env e call).episodic =
        (((tagEvents (some call.tenant) call.events).map Event.toRow).foldl EpisodicTable.insertOrIgnore e.episodic).markEmbedded
          (landed env e.config e.semantic.dimension call.embedder (tagEvents (some call.tenant) call.events))) := by
  have written := ingest_episodic env e call.embedder (tagEvents (some call.tenant) call.events)
  constructor
  · intro refused
    obtain ⟨err,failed⟩ := (EpisodicTable.append_spec _ _).2 refused
    rwa [failed] at written
  · intro able
    obtain ⟨n,ok⟩ := (EpisodicTable.append_spec _ _).1 able
    rwa [ok] at written

theorem Attributable.carriesTenant {e : Engine} {call : IngestCall} (carries : Attributable call) :
    CarriesTenant env e call := by
  intro row inside fresh
  by_cases able : e.episodic.Appendable (tagEvents (some call.tenant) call.events)
  · rw [(ingestStep_log env e call).2 able] at inside
    obtain ⟨stored,there,rfl⟩ := EpisodicTable.mem_markEmbedded.mp inside
    rw [apply_ite EventRow.id,ite_self] at fresh
    rw [apply_ite EventRow.tenantId,ite_self]
    rcases EpisodicTable.mem_insertAll there with before | new
    · exact absurd ((Table.mem_keys _ _).mpr ⟨stored,before,rfl⟩) fresh
    · obtain ⟨tagged,listed,rfl⟩ := List.mem_map.mp new
      obtain ⟨event,member,rfl⟩ := List.mem_map.mp listed
      exact tagged_toRow call.tenant event (carries event member)
  · rw [(ingestStep_log env e call).1 able] at inside
    exact absurd ((Table.mem_keys _ _).mpr ⟨row,inside,rfl⟩) fresh

theorem SeenAlike.own {full part : Engine} {call : IngestCall} (alike : SeenAlike call.tenant full part)
    (carries : Attributable call) (apart : KeysApart full.episodic call) :
    SeenAlike call.tenant (ingestStep env full call) (ingestStep env part call) := by
  have batched := IngestCall.batched carries apart
  have able := alike.log.appendable batched
  obtain ⟨config,dimension⟩ := ingestStep_settings env full call
  obtain ⟨config',dimension'⟩ := ingestStep_settings env part call
  refine ⟨by rw [config,config',alike.config],by rw [dimension,dimension',alike.dimension],?_⟩
  by_cases taken : full.episodic.Appendable (tagEvents (some call.tenant) call.events)
  · rw [(ingestStep_log env full call).2 taken,(ingestStep_log env part call).2 (able.mp taken),alike.config,
      alike.dimension]
    exact (alike.log.insertAll batched).markEmbedded _
  · rw [(ingestStep_log env full call).1 taken,(ingestStep_log env part call).1 (fun there => taken (able.mpr there))]
    exact alike.log

theorem SeenAlike.foreign {tenant : String} {full part : Engine} {call : IngestCall}
    (alike : SeenAlike tenant full part) (other : call.tenant ≠ tenant) (carries : Attributable call)
    (apart : KeysApart full.episodic call) : SeenAlike tenant (ingestStep env full call) part := by
  obtain ⟨config,dimension⟩ := ingestStep_settings env full call
  refine ⟨by rw [config,alike.config],by rw [dimension,alike.dimension],?_⟩
  by_cases taken : full.episodic.Appendable (tagEvents (some call.tenant) call.events)
  · have batched := IngestCall.batched carries apart
    rw [(ingestStep_log env full call).2 taken]
    refine alike.log.grow ?_ ?_
    · intro row inside _
      refine ⟨_,EpisodicTable.mem_markEmbedded.mpr ⟨row,EpisodicTable.insertAll_kept inside,rfl⟩,?_⟩
      simp only [apply_ite EventRow.id,apply_ite EventRow.tenantId,apply_ite EventRow.idempotencyKey,ite_self,and_self]
    · rw [EpisodicTable.filter_markEmbedded,EpisodicTable.filter_insertAll
        (fun row inside => batched.owned row inside ▸ other)]
      refine (List.map_congr_left (fun row inside => if_neg ?_)).trans (List.map_id' _)
      intro marked
      obtain ⟨tagged,listed,same⟩ := mem_landed env marked
      obtain ⟨event,member,rfl⟩ := List.mem_map.mp listed
      obtain ⟨stored,owner⟩ := List.mem_filter.mp inside
      exact (apart row stored (fun owned => other (owned.symm.trans (of_decide_eq_true owner))) event member).1 same
  · rw [(ingestStep_log env full call).1 taken]
    exact alike.log

/-- When every payload can carry the tenant of its call and no call reuses an id or an idempotency key that is
stored for another tenant, every row has the tenant it was ingested for, and the events of a tenant are those
its own calls alone would have stored. -/
theorem event_tenancy_throughout (e : Engine) (calls : List IngestCall)
    (guarded : Along (ingestStep env) (fun e call => Attributable call ∧ KeysApart e.episodic call) e calls) :
    Along (ingestStep env) (CarriesTenant env) e calls ∧ ∀ tenant n,
      storedFor tenant (run (ingestStep env) e (calls.take n)) =
        storedFor tenant (run (ingestStep env) e ((calls.take n).filter (fun call => call.tenant = tenant))) := by
  constructor
  · induction calls generalizing e with
    | nil => trivial
    | cons call calls ih => exact ⟨guarded.1.1.carriesTenant,ih _ guarded.2⟩
  · intro tenant n
    have start : SeenAlike tenant e e := ⟨rfl,rfl,rfl,fun row inside _ => ⟨row,inside,rfl,rfl,rfl⟩⟩
    have alike : SeenAlike tenant (run (ingestStep env) e (calls.take n))
        (run (fun part call => if call.tenant = tenant then ingestStep env part call else part) e (calls.take n)) :=
      (guarded.take n).related start (by
        intro full part call alike clear
        by_cases mine : call.tenant = tenant
        · subst mine
          simpa using alike.own clear.1 clear.2
        · simpa [mine] using alike.foreign mine clear.1 clear.2)
    have only : run (fun part call => if call.tenant = tenant then ingestStep env part call else part) e (calls.take n) =
        run (ingestStep env) e ((calls.take n).filter (fun call => call.tenant = tenant)) := by
      simp only [run,List.foldl_filter,decide_eq_true_eq]
    rw [only] at alike
    exact alike.log.own

end

def noteEvent (id : Uuid) (payload : Json) (key : Option String) : Event :=
  ⟨id,"app","note",payload,0,none,none,[],key⟩

def keyedCall (tenant : String) (id : Uuid) (key : String) : IngestCall :=
  ⟨tenant,[noteEvent id (.obj []) (some key)],.absent⟩

theorem event_tenancy_throughout_two :
    storedFor "b" (run (ingestStep .ascii) (.empty .default 3) [keyedCall "a" 1 "k",keyedCall "b" 2 "l"]) =
      storedFor "b" (run (ingestStep .ascii) (.empty .default 3) [keyedCall "b" 2 "l"]) :=
  (event_tenancy_throughout (.empty .default 3) [keyedCall "a" 1 "k",keyedCall "b" 2 "l"] (by decide +kernel)).2 "b" 2

/-- A key of one tenant swallows the event of another, and a payload that is no object loses its tenant. -/
theorem shared_key_interferes :
    ¬ (∀ tenant, storedFor tenant (run (ingestStep .ascii) (.empty .default 3) [keyedCall "a" 1 "k",keyedCall "b" 2 "k"]) =
        storedFor tenant (run (ingestStep .ascii) (.empty .default 3)
          ([keyedCall "a" 1 "k",keyedCall "b" 2 "k"].filter (fun call => call.tenant = tenant)))) ∧
      ¬ CarriesTenant .ascii (.empty .default 3) ⟨"a",[noteEvent 1 (.str "text") none],.absent⟩ := by
  constructor
  · intro same
    have count := congrArg List.length (same "b")
    revert count
    decide +kernel
  · intro carries
    have stored : (ingestStep .ascii (.empty .default 3) ⟨"a",[noteEvent 1 (.str "text") none],.absent⟩).episodic.rows =
        [(noteEvent 1 (.str "text") none).toRow] := rfl
    have owner := carries _ (by rw [stored]; exact List.mem_singleton.mpr rfl) (by decide)
    exact absurd owner (by decide)

end Ecphoria
