import Ecphoria.Engine.EventTenants

/-! The journal of a run. A step is an event of the episodic log whose session is the
run; the trace of the run is that session, read back in the order of the clock. -/
namespace Ecphoria
open Library

/-- What `recall_session` reads of a row. -/
structure TraceStep where
  id : Uuid
  source : String
  eventType : String
  payload : Json
  ts : Int

def EventRow.toStep (row : EventRow) : TraceStep := ⟨row.id,row.source,row.eventType,row.payload,row.ts⟩

def EpisodicTable.recallSession (t : EpisodicTable) (sessionId : String) : List TraceStep :=
  ((t.rows.filter (fun row => row.sessionId = some sessionId)).map EventRow.toStep).insertionSort
    (fun a b => a.ts ≤ b.ts)

def runTrace (e : Engine) (runId : Uuid) : List TraceStep := e.episodic.recallSession runId.toString

def stepPayload (runId : Uuid) (tenant : String) (payload : Json) : Json :=
  let object := if payload.isObject then payload else .obj [("value",payload)]
  (object.insert "_session_id" (.str runId.toString)).insert "_tenant_id" (.str (tenantOrDefault tenant))

def stepEvent (runId : Uuid) (tenant eventType : String) (payload : Json) (id : Uuid) (now : Int) : Event where
  id := id
  source := "agent"
  eventType := eventType
  payload := stepPayload runId tenant payload
  timestamp := now
  parentId := none
  traceId := some runId.toString
  tags := []
  idempotencyKey := none

/-- What one write of the journal draws from outside: the id of its event, the clock and the embedding provider. -/
structure Stamp where
  id : Uuid
  now : Int
  embedder : Embedder

def runLogStep (env : Env) (e : Engine) (runId : Uuid) (tenant eventType : String) (payload : Json)
    (stamp : Stamp) : Except Failure Unit × Engine :=
  match ingest env e stamp.embedder [stepEvent runId tenant eventType payload stamp.id stamp.now] with
  | (.error failure,e) => (.error failure,e)
  | (.ok _,e) => (.ok (),e)

theorem get_stepPayload (runId : Uuid) (tenant k : String) (fields : List (String × Json))
    (session : k ≠ "_session_id") (owner : k ≠ "_tenant_id") :
    (stepPayload runId tenant (.obj fields)).get k = fields.lookup k := by
  rw [stepPayload]
  simp only [Json.isObject,if_true]
  rw [Json.get_insert_ne owner,Json.get_insert_ne session]
  rfl

theorem stepPayload_session (runId : Uuid) (tenant : String) (payload : Json) :
    ((stepPayload runId tenant payload).get "_session_id").bind Json.asStr = some runId.toString := by
  rw [stepPayload,Json.get_insert_ne (by decide)]
  have object : ∃ fields, (if payload.isObject then payload else .obj [("value",payload)]) = Json.obj fields := by
    cases payload with
    | obj fields => exact ⟨fields,rfl⟩
    | _ => exact ⟨_,rfl⟩
  obtain ⟨fields,same⟩ := object
  rw [same,Json.get_insert]
  rfl

def stepTaken (runId : Uuid) (tenant eventType : String) (payload : Json) (stamp : Stamp) : TraceStep :=
  ⟨stamp.id,"agent",eventType,stepPayload runId tenant payload,micros stamp.now⟩

theorem EpisodicTable.recallSession_markEmbedded (t : EpisodicTable) (ids : List Uuid) (sessionId : String) :
    (t.markEmbedded ids).recallSession sessionId = t.recallSession sessionId := by
  have steps : ((t.markEmbedded ids).rows.filter (fun row => row.sessionId = some sessionId)).map EventRow.toStep =
      (t.rows.filter (fun row => row.sessionId = some sessionId)).map EventRow.toStep := by
    simp only [markEmbedded,Table.update,List.filter_map,List.map_map]
    have sessions : (fun row : EventRow => decide (row.sessionId = some sessionId)) ∘
        (fun row => if row.id ∈ ids then { row with embedded := true } else row) =
          fun row => decide (row.sessionId = some sessionId) := by
      funext row
      by_cases marked : row.id ∈ ids <;> simp [marked]
    have views : EventRow.toStep ∘ (fun row => if row.id ∈ ids then { row with embedded := true } else row) =
        EventRow.toStep := by
      funext row
      by_cases marked : row.id ∈ ids <;> simp [marked,EventRow.toStep]
    simp only [decide_eq_true_eq,sessions,views]
  rw [recallSession,recallSession,steps]

private theorem runLogStep_engine (env : Env) (e : Engine) (runId : Uuid) (tenant eventType : String) (payload : Json)
    (stamp : Stamp) : (runLogStep env e runId tenant eventType payload stamp).2 =
      (ingest env e stamp.embedder [stepEvent runId tenant eventType payload stamp.id stamp.now]).2 := by
  unfold runLogStep
  split
  next failure after given => rw [given]
  next count after given => rw [given]

theorem runLogStep_frame (env : Env) (e : Engine) (runId : Uuid) (tenant eventType : String) (payload : Json)
    (stamp : Stamp) : ∃ episodic semantic,
      (runLogStep env e runId tenant eventType payload stamp).2 = { e with episodic := episodic, semantic := semantic } := by
  rw [runLogStep_engine]
  exact ingest_frame env e stamp.embedder [stepEvent runId tenant eventType payload stamp.id stamp.now]

theorem runLogStep_cases (env : Env) (e : Engine) (runId : Uuid) (tenant eventType : String) (payload : Json)
    (stamp : Stamp) :
    ((∃ failure, (runLogStep env e runId tenant eventType payload stamp).1 = .error failure) ∧
        (runLogStep env e runId tenant eventType payload stamp).2.episodic = e.episodic) ∨
      ∃ (after : EpisodicTable) (marked : List Uuid),
        (runLogStep env e runId tenant eventType payload stamp).2.episodic = after.markEmbedded marked ∧
          after.rows = e.episodic.rows ++ [(stepEvent runId tenant eventType payload stamp.id stamp.now).toRow] := by
  rw [runLogStep_engine,ingest_episodic]
  cases written : e.episodic.append [stepEvent runId tenant eventType payload stamp.id stamp.now] with
  | error err =>
    refine Or.inl ⟨⟨.error err,?_⟩,rfl⟩
    simp [runLogStep,ingest,written]
  | ok done =>
    refine Or.inr ⟨done.2,_,rfl,?_⟩
    have fresh : e.episodic.Appendable [stepEvent runId tenant eventType payload stamp.id stamp.now] := by
      by_contra refused
      obtain ⟨err,failed⟩ := (e.episodic.append_spec _).2 refused
      rw [written] at failed
      cases failed
    obtain ⟨n,appended⟩ := (e.episodic.append_spec _).1 fresh
    rw [written] at appended
    have last : done.2 = e.episodic.insertOrIgnore
        (stepEvent runId tenant eventType payload stamp.id stamp.now).toRow :=
      congrArg Prod.snd (Except.ok.inj appended)
    have absent := (fresh (by simp [stepEvent])).2 _ (List.mem_map_of_mem List.mem_cons_self)
    rw [last,EpisodicTable.rows_insertOrIgnore,if_neg]
    simpa [EpisodicTable.conflicts,stepEvent,Event.toRow] using absent

theorem insertionSort_last {steps : List TraceStep} {last : TraceStep} (later : ∀ step ∈ steps, step.ts ≤ last.ts) :
    (steps ++ [last]).insertionSort (fun a b => a.ts ≤ b.ts) = steps.insertionSort (fun a b => a.ts ≤ b.ts) ++ [last] := by
  have insert (step : TraceStep) (sorted : List TraceStep) (le : step.ts ≤ last.ts) :
      (sorted ++ [last]).orderedInsert (fun a b => a.ts ≤ b.ts) step =
        sorted.orderedInsert (fun a b => a.ts ≤ b.ts) step ++ [last] := by
    induction sorted with
    | nil => simp [le]
    | cons first sorted ih =>
      by_cases first_le : step.ts ≤ first.ts
      · simp [first_le]
      · simp [first_le,ih]
  induction steps with
  | nil => rfl
  | cons step steps ih =>
    rw [List.cons_append,List.insertionSort_cons,List.insertionSort_cons,
      ih (fun other inside => later other (List.mem_cons_of_mem step inside)),insert step _ (later step List.mem_cons_self)]

section
variable {env : Env} {e : Engine} {runId : Uuid} {tenant eventType : String} {payload : Json} {stamp : Stamp}

private theorem mine (runId : Uuid) (tenant eventType : String) (payload : Json) (stamp : Stamp) :
    (stepEvent runId tenant eventType payload stamp.id stamp.now).toRow.sessionId = some runId.toString :=
  stepPayload_session runId tenant payload

theorem runTrace_runLogStep (ok : (runLogStep env e runId tenant eventType payload stamp).1 = .ok ())
    (later : ∀ step ∈ runTrace e runId, step.ts ≤ micros stamp.now) :
    runTrace (runLogStep env e runId tenant eventType payload stamp).2 runId =
      runTrace e runId ++ [stepTaken runId tenant eventType payload stamp] := by
  rcases runLogStep_cases env e runId tenant eventType payload stamp with ⟨⟨failure,failed⟩,_⟩ | ⟨after,marked,log,rows⟩
  · rw [ok] at failed
    cases failed
  · have own := mine runId tenant eventType payload stamp
    rw [runTrace,log,EpisodicTable.recallSession_markEmbedded,EpisodicTable.recallSession,rows,List.filter_append,
      List.map_append,List.filter_cons_of_pos (by simp [own]),List.filter_nil]
    refine insertionSort_last ?_
    intro step inside
    exact later step ((List.mem_insertionSort _).mpr inside)

theorem mem_runTrace_runLogStep {k : Uuid} {step : TraceStep}
    (inside : step ∈ runTrace (runLogStep env e runId tenant eventType payload stamp).2 k) :
    step ∈ runTrace e k ∨ k = runId ∧ step = stepTaken runId tenant eventType payload stamp := by
  rcases runLogStep_cases env e runId tenant eventType payload stamp with ⟨_,same⟩ | ⟨after,marked,log,rows⟩
  · rw [runTrace,same] at inside
    exact Or.inl inside
  · rw [runTrace,log,EpisodicTable.recallSession_markEmbedded,EpisodicTable.recallSession,List.mem_insertionSort,rows,
      List.filter_append,List.map_append,List.mem_append] at inside
    rcases inside with old | new
    · exact Or.inl ((List.mem_insertionSort _).mpr old)
    · obtain ⟨row,kept,rfl⟩ := List.mem_map.mp new
      obtain ⟨last,session⟩ := List.mem_filter.mp kept
      cases List.mem_singleton.mp last
      have own := mine runId tenant eventType payload stamp
      rw [decide_eq_true_eq,own] at session
      exact Or.inr ⟨(Uuid.toString_inj (Option.some.inj session)).symm,rfl⟩

end

end Ecphoria
