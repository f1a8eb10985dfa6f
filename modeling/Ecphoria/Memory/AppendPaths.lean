import Ecphoria.Engine.EventTenants
import Mathlib.Control.Basic

/-! The two ways an event enters the log: the appender, and one `INSERT OR IGNORE` for each
event. They encode the row apart, and only the second one ignores a row that is there. -/
namespace Ecphoria
open Library

/-- What the database answers to the statements of one append, beside the keys it checks itself. -/
structure AppendAnswers where
  appends : Bool
  begins : Bool
  prepares : Bool
  executes : Event → Bool
  commits : Bool

def AppendAnswers.fine : AppendAnswers := ⟨true,true,true,fun _ => true,true⟩

section
variable (cast : Int → Option Int)

/-- The row that the statement inserts; `cast` is what a `TIMESTAMPTZ` column reads from the RFC 3339 text of an
instant. -/
def Event.insertedRow (event : Event) : Option EventRow :=
  (cast event.timestamp).map (fun ts =>
    { id := event.id
      source := event.source
      eventType := event.eventType
      payload := event.payload
      ts := ts
      parentId := event.parentId
      traceId := event.traceId
      tags := if event.tags.isEmpty then none else some (String.intercalate "," event.tags)
      idempotencyKey := event.idempotencyKey
      tenantId := ((event.payload.get "_tenant_id").bind Json.asStr).getD "default"
      sessionId := (event.payload.get "_session_id").bind Json.asStr
      embedded := false })

namespace EpisodicTable

/-- `append_fast`, with the table that it leaves when it fails. -/
def appendFastAnswered (answers : AppendAnswers) (t : EpisodicTable) (events : List Event) :
    Except Error Nat × EpisodicTable :=
  if answers.appends then
    match Table.append t (events.map Event.toRow) with
    | none => (.error (.ingest "appender flush"),t)
    | some appended => (.ok events.length,appended)
  else (.error (.ingest "appender"),t)

def countInsert (s : Nat × EpisodicTable) (row : EventRow) : Nat × EpisodicTable :=
  if s.2.conflicts row then s else (s.1 + 1,s.2.upsert row)

def executeInsert (answers : AppendAnswers) (s : Nat × EpisodicTable) (event : Event) : Option (Nat × EpisodicTable) :=
  if answers.executes event then (event.insertedRow cast).map (countInsert s) else none

/-- The transaction of `append`; an error rolls it back. -/
def appendSlow (answers : AppendAnswers) (t : EpisodicTable) (events : List Event) : Except Error Nat × EpisodicTable :=
  if answers.begins then
    if answers.prepares then
      match events.foldlM (executeInsert cast answers) (0,t) with
      | none => (.error (.ingest "insert error"),t)
      | some (inserted,grown) => if answers.commits then (.ok inserted,grown) else (.error (.ingest "commit"),t)
    else (.error (.ingest "prepare error"),t)
  else (.error (.ingest "begin transaction"),t)

/-- Where no statement fails, both paths answer and store the same or both fail; an error leaves the table as it was. -/
structure PathsAgree (t : EpisodicTable) (events : List Event) : Prop where
  same : ∀ n after, t.appendFastAnswered .fine events = (.ok n,after) ↔ t.appendSlow cast .fine events = (.ok n,after)
  unchanged : ∀ answers err, (t.appendFastAnswered answers events).1 = .error err →
    (t.appendFastAnswered answers events).2 = t

/-- Every id is new to the table, and no two events have the same. -/
def FreshIds (t : EpisodicTable) (events : List Event) : Prop :=
  (events.map Event.id).Nodup ∧ ∀ event ∈ events, event.id ∉ t.keys

end EpisodicTable

end

namespace EpisodicTable

variable {cast : Int → Option Int} {t after : EpisodicTable} {events : List Event} {rows : List EventRow} {n : Nat}

theorem insertedRow_some {event : Event} {row : EventRow} (read : event.insertedRow cast = some row) :
    ∃ ts, cast event.timestamp = some ts ∧ row = { event.toRow with ts := ts } := by
  obtain ⟨ts,given,rfl⟩ := Option.map_eq_some_iff.mp read
  exact ⟨ts,given,rfl⟩

/-- Where nothing fails, the statements insert the rows that the events are read as, or one is not read. -/
theorem foldlM_executeInsert (s : Nat × EpisodicTable) : events.foldlM (executeInsert cast .fine) s =
    (events.mapM (Event.insertedRow cast)).map (fun rows => rows.foldl countInsert s) := by
  induction events generalizing s with
  | nil => rfl
  | cons event events ih =>
    rw [List.foldlM_cons,List.mapM_cons]
    have first : executeInsert cast .fine s event = (event.insertedRow cast).map (countInsert s) := rfl
    rw [first]
    cases event.insertedRow cast with
    | none => rfl
    | some row =>
      refine (ih (countInsert s row)).trans ?_
      cases events.mapM (Event.insertedRow cast) with
      | none => rfl
      | some rows => rfl

theorem foldl_countInsert (keyless : ∀ row ∈ rows, row.idempotencyKey = none) (distinct : (rows.map EventRow.id).Nodup)
    (fresh : ∀ row ∈ rows, row.id ∉ t.keys) :
    rows.foldl countInsert (n,t) = (n + rows.length,Table.upsertAll t rows) ∧
      (Table.upsertAll t rows).rows = t.rows ++ rows := by
  induction rows generalizing n t with
  | nil => exact ⟨rfl,(List.append_nil _).symm⟩
  | cons row rows ih =>
    obtain ⟨new,distinct⟩ := List.nodup_cons.mp distinct
    have absent := fresh row List.mem_cons_self
    have clear : t.conflicts row = false := by
      simp [conflicts,absent,keyless row List.mem_cons_self]
    have step : countInsert (n,t) row = (n + 1,Table.upsert t row) := by simp [countInsert,clear]
    have later : ∀ other ∈ rows, other.id ∉ (Table.upsert t row).keys := by
      intro other inside
      rw [Table.mem_keys_upsert,not_or]
      exact ⟨fun same => new (List.mem_map.mpr ⟨other,inside,same⟩),fresh other (List.mem_cons_of_mem row inside)⟩
    obtain ⟨counted,listed⟩ := @ih (Table.upsert t row) (n + 1)
      (fun other inside => keyless other (List.mem_cons_of_mem row inside)) distinct later
    refine ⟨?_,?_⟩
    · rw [List.foldl_cons,step,counted,List.length_cons]
      exact Prod.ext (by dsimp only; omega) rfl
    · refine listed.trans ?_
      rw [Table.rows_upsert_fresh t row absent,List.append_assoc]
      rfl

theorem mapM_insertedRow_none : events.mapM (Event.insertedRow cast) = none ↔
    ∃ event ∈ events, cast event.timestamp = none := by
  induction events with
  | nil => simp
  | cons event events ih =>
    rw [List.mapM_cons]
    cases read : cast event.timestamp with
    | none =>
      have first : event.insertedRow cast = none := by simp [Event.insertedRow,read]
      rw [first]
      exact iff_of_true rfl ⟨event,List.mem_cons_self,read⟩
    | some ts =>
      have first : event.insertedRow cast = some { event.toRow with ts := ts } := by
        simp [Event.insertedRow,read,Event.toRow]
      rw [first]
      cases rest : events.mapM (Event.insertedRow cast) with
      | none => simpa [read] using ih.mp rest
      | some rows =>
        have clear := mt ih.mpr (by rw [rest]; exact Option.some_ne_none rows)
        simpa [read] using clear

theorem mapM_insertedRow_some (read : events.mapM (Event.insertedRow cast) = some rows) :
    List.Forall₂ (fun event row => event.insertedRow cast = some row) events rows := by
  induction events generalizing rows with
  | nil =>
    cases read
    exact .nil
  | cons event events ih =>
    rw [List.mapM_cons] at read
    cases first : event.insertedRow cast with
    | none =>
      rw [first] at read
      cases read
    | some row =>
      cases rest : events.mapM (Event.insertedRow cast) with
      | none =>
        rw [first,rest] at read
        cases read
      | some others =>
        rw [first,rest] at read
        cases read
        exact .cons first (ih rest)

theorem read_ids (read : List.Forall₂ (fun event row => event.insertedRow cast = some row) events rows) :
    rows.map EventRow.id = events.map Event.id ∧
      rows.map EventRow.idempotencyKey = events.map Event.idempotencyKey := by
  induction read with
  | nil => exact ⟨rfl,rfl⟩
  | cons first _ ih =>
    obtain ⟨ts,_,rfl⟩ := insertedRow_some first
    exact ⟨congrArg (List.cons _) ih.1,congrArg (List.cons _) ih.2⟩

theorem read_toRow (read : List.Forall₂ (fun event row => event.insertedRow cast = some row) events rows) :
    rows = events.map Event.toRow ↔ ∀ event ∈ events, cast event.timestamp = some (micros event.timestamp) := by
  induction read with
  | nil => simp
  | cons first _ ih =>
    obtain ⟨ts,given,rfl⟩ := insertedRow_some first
    rw [List.map_cons,List.cons_eq_cons,ih,List.forall_mem_cons,given,Option.some_inj]
    refine and_congr_left (fun _ => ?_)
    constructor
    · intro same
      exact congrArg EventRow.ts same
    · intro same
      rw [same]
      rfl

theorem appendSlow_fine (t : EpisodicTable) : t.appendSlow cast .fine events =
    match events.mapM (Event.insertedRow cast) with
    | none => (.error (.ingest "insert error"),t)
    | some rows => (.ok (rows.foldl countInsert (0,t)).1,(rows.foldl countInsert (0,t)).2) := by
  have begun : AppendAnswers.fine.begins = true := rfl
  have prepared : AppendAnswers.fine.prepares = true := rfl
  have committed : AppendAnswers.fine.commits = true := rfl
  rw [appendSlow,if_pos begun,if_pos prepared,foldlM_executeInsert]
  cases events.mapM (Event.insertedRow cast) with
  | none => rfl
  | some rows =>
    dsimp only [Option.map_some]
    rw [if_pos committed]

theorem appendFastAnswered_fine (t : EpisodicTable) : t.appendFastAnswered .fine events =
    match Table.append t (events.map Event.toRow) with
    | none => (.error (.ingest "appender flush"),t)
    | some appended => (.ok events.length,appended) := by
  have appends : AppendAnswers.fine.appends = true := rfl
  rw [appendFastAnswered,if_pos appends]

theorem append_of_fresh : (∃ appended, Table.append t (events.map Event.toRow) = some appended) ↔ t.FreshIds events := by
  have ids : (events.map Event.toRow).map EventRow.id = events.map Event.id := by
    rw [List.map_map]
    rfl
  have known : (∀ row ∈ events.map Event.toRow, row.id ∉ t.keys) ↔ ∀ event ∈ events, event.id ∉ t.keys :=
    List.forall_mem_map
  constructor
  · intro given
    obtain ⟨appended,written⟩ := given
    obtain ⟨distinct,fresh,_⟩ := (Table.append_eq_some _ _ _).mp written
    exact ⟨ids ▸ distinct,known.mp fresh⟩
  · intro fresh
    exact ⟨_,(Table.append_eq_some t _ _).mpr ⟨ids.symm ▸ fresh.1,known.mpr fresh.2,rfl⟩⟩

theorem appends_fresh (keyless : ∀ event ∈ events, event.idempotencyKey = none) (fresh : t.FreshIds events)
    (read : List.Forall₂ (fun event row => event.insertedRow cast = some row) events rows) :
    rows.foldl countInsert (0,t) = (events.length,Table.upsertAll t rows) ∧
      (Table.upsertAll t rows).rows = t.rows ++ rows := by
  obtain ⟨ids,keys⟩ := read_ids read
  have unkeyed : ∀ row ∈ rows, row.idempotencyKey = none := by
    intro row inside
    have listed : row.idempotencyKey ∈ events.map Event.idempotencyKey := keys ▸ List.mem_map_of_mem inside
    obtain ⟨event,among,same⟩ := List.mem_map.mp listed
    exact same.symm.trans (keyless event among)
  have new : ∀ row ∈ rows, row.id ∉ t.keys := by
    intro row inside
    have listed : row.id ∈ events.map Event.id := ids ▸ List.mem_map_of_mem inside
    obtain ⟨event,among,same⟩ := List.mem_map.mp listed
    exact same ▸ fresh.2 event among
  have all := foldl_countInsert (n := 0) unkeyed (ids ▸ fresh.1) new
  rwa [Nat.zero_add,← read.length_eq] at all

theorem appends_plain (keyless : ∀ event ∈ events, event.idempotencyKey = none) (fresh : t.FreshIds events) :
    (Table.upsertAll t (events.map Event.toRow)).rows = t.rows ++ events.map Event.toRow :=
  (@appends_fresh (fun instant => some (micros instant)) t events _ keyless fresh
    (List.forall₂_map_right_iff.mpr (List.forall₂_same.mpr (fun _ _ => rfl)))).2

/-- The paths agree exactly when no id is there before or comes twice and every timestamp is read at its microsecond, or
when both paths refuse: an id is taken, and a timestamp is not read. -/
theorem append_paths_iff (cast : Int → Option Int) (t : EpisodicTable) (events : List Event)
    (keyless : ∀ event ∈ events, event.idempotencyKey = none) : t.PathsAgree cast events ↔
      (t.FreshIds events → ∀ event ∈ events, cast event.timestamp = some (micros event.timestamp)) ∧
        (¬t.FreshIds events → ∃ event ∈ events, cast event.timestamp = none) := by
  have unchanged (answers : AppendAnswers) (err : Error) (failed : (t.appendFastAnswered answers events).1 = .error err) :
      (t.appendFastAnswered answers events).2 = t := by
    unfold appendFastAnswered at failed ⊢
    split
    next appends =>
      rw [if_pos appends] at failed
      cases written : Table.append t (events.map Event.toRow) with
      | none => rfl
      | some appended =>
        rw [written] at failed
        cases failed
    next => rfl
  constructor
  · intro agree
    refine ⟨?_,?_⟩
    · intro fresh
      obtain ⟨appended,written⟩ := append_of_fresh.mpr fresh
      have stored := (Table.append_eq_some _ _ _).mp written
      have fast : t.appendFastAnswered .fine events = (.ok events.length,appended) := by
        rw [appendFastAnswered_fine,written]
      have slow := (agree.same _ _).mp fast
      rw [appendSlow_fine] at slow
      cases read : events.mapM (Event.insertedRow cast) with
      | none =>
        rw [read] at slow
        cases slow
      | some rows =>
        have reads := mapM_insertedRow_some read
        obtain ⟨counted,listed⟩ := appends_fresh keyless fresh reads
        have plain := appends_plain keyless fresh
        rw [read] at slow
        dsimp only at slow
        rw [counted] at slow
        have same : Table.upsertAll t rows = Table.upsertAll t (events.map Event.toRow) :=
          (Prod.ext_iff.mp slow).2.trans stored.2.2.symm
        rw [same,plain] at listed
        exact (read_toRow reads).mp (List.append_cancel_left listed).symm
    · intro taken
      by_contra unread
      cases read : events.mapM (Event.insertedRow cast) with
      | none => exact unread (mapM_insertedRow_none.mp read)
      | some rows =>
        have slow := @appendSlow_fine cast events t
        rw [read] at slow
        have fast := (agree.same _ _).mpr slow
        rw [appendFastAnswered_fine] at fast
        cases written : Table.append t (events.map Event.toRow) with
        | none =>
          rw [written] at fast
          cases fast
        | some appended => exact taken (append_of_fresh.mp ⟨appended,written⟩)
  · intro given
    obtain ⟨exact_reads,refuses⟩ := given
    refine ⟨?_,unchanged⟩
    intro n after
    rw [appendFastAnswered_fine,appendSlow_fine]
    by_cases fresh : t.FreshIds events
    · obtain ⟨appended,written⟩ := append_of_fresh.mpr fresh
      obtain ⟨_,_,rfl⟩ := (Table.append_eq_some _ _ _).mp written
      cases read : events.mapM (Event.insertedRow cast) with
      | none =>
        obtain ⟨event,among,unread⟩ := mapM_insertedRow_none.mp read
        cases unread.symm.trans (exact_reads fresh event among)
      | some rows =>
        have reads := mapM_insertedRow_some read
        obtain ⟨counted,_⟩ := appends_fresh keyless fresh reads
        rw [written,(read_toRow reads).mpr (exact_reads fresh)] at *
        dsimp only
        rw [counted]
    · have refused : Table.append t (events.map Event.toRow) = none := by
        cases written : Table.append t (events.map Event.toRow) with
        | none => rfl
        | some appended => exact absurd (append_of_fresh.mp ⟨appended,written⟩) fresh
      rw [refused,mapM_insertedRow_none.mpr (refuses fresh)]
      exact iff_of_false nofun nofun

end EpisodicTable

def signIn (id : Uuid) : Event := ⟨id,"app","login",.obj [],1500,none,none,[],none⟩

theorem append_paths_new : EpisodicTable.PathsAgree
    (fun instant => some (micros instant)) .empty [signIn 1,signIn 2] := by
  refine (EpisodicTable.append_paths_iff _ _ _ ?_).mpr ⟨fun _ _ _ => rfl,fun taken => absurd ?_ taken⟩
  · decide
  · exact ⟨by decide,fun _ _ => List.not_mem_nil⟩

/-- An event that is already there fails one path and is ignored by the other. -/
theorem stored_event_refused : ¬∀ (t : EpisodicTable) (events : List Event),
    (∀ event ∈ events, event.idempotencyKey = none) →
    t.PathsAgree (fun instant => some (micros instant)) events := by
  intro all
  have agree := all (Table.upsert .empty (signIn 1).toRow) [signIn 1] (by decide)
  have answered := (agree.same 0 (Table.upsert .empty (signIn 1).toRow)).mpr rfl
  have refused : (EpisodicTable.appendFastAnswered .fine (Table.upsert .empty (signIn 1).toRow) [signIn 1]).1 =
      .error (.ingest "appender flush") := rfl
  rw [answered] at refused
  cases refused

end Ecphoria
