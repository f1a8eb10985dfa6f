import Ecphoria.Engine.EventTenants
import Ecphoria.Library.Broadcast
import Ecphoria.Library.Outputs
import Ecphoria.Memory.AppendPaths

/-! The log of what was searched. Searches queue their records without waiting; one task takes them from the queue and appends
them in batches to the episodic log, beside all others that append to it. -/
namespace Ecphoria
open Library

structure QueryRecord where
  tenantId : String
  userId : Option String
  agentId : Option String
  project : Option String
  query : Option String
  k : Nat
  results : Nat
  matched : Bool
  topSubject : Option String
  topSimilarity : Option Rat
  durationMs : Rat

def queryLogSource : String := "ecphoria/query-log"

def queryLogBatch : Nat := 128
def queryLogCapacity : Nat := 4096

/-- `round`: halves away from zero. -/
def roundAway (x : Rat) : Int := if 0 ≤ x then (x + 1 / 2).floor else (x - 1 / 2).ceil

def orInsertStr (payload : Json) (field : String × Option String) : Json :=
  match field.2 with
  | some v => payload.insert field.1 (.str v)
  | none => payload

def QueryRecord.payload (includeQuery : Bool) (r : QueryRecord) : Json :=
  let base : Json := .obj [("duration_ms",.float (roundAway (r.durationMs * 100) / 100)),
    ("empty",.bool (!r.matched || r.results = 0)),("k",.int r.k),("matched",.bool r.matched),("results",.int r.results)]
  let queried := if includeQuery then orInsertStr base ("query",r.query) else base
  let named := [("user_id",r.userId),("agent_id",r.agentId),("project",r.project),("top_subject",r.topSubject)].foldl
    orInsertStr queried
  let rated := match r.topSimilarity with
    | some sim => named.insert "top_similarity" (.float (roundAway (sim * 1000) / 1000))
    | none => named
  rated.insert "_tenant_id" (.str r.tenantId)

def QueryRecord.event (includeQuery : Bool) (r : QueryRecord) (id : Uuid) (now : Int) : Event where
  id := id
  source := queryLogSource
  eventType := "memory.search"
  payload := r.payload includeQuery
  timestamp := now
  parentId := none
  traceId := none
  tags := []
  idempotencyKey := none

/-- What the task that writes does: it waits, fills a batch, appends it, or has ended with what it held. -/
inductive LogWriter where
  | waiting
  | filling (buf : List Event)
  | writing (buf : List Event)
  | ended (held : List Event)

def LogWriter.buf : LogWriter → List Event
  | .waiting => []
  | .filling buf | .writing buf | .ended buf => buf

/-- The queue with its sender and its writer, and the log that others append to as well. -/
structure QueryLogger where
  includeQuery : Bool
  queue : Mailbox Event queryLogCapacity
  dropped : Nat
  sending : Bool
  writer : LogWriter
  store : EpisodicTable

inductive LogStep where
  | record (r : QueryRecord) (id : Uuid) (now : Int)
  | receive
  | elapse
  | append (refused : Bool)
  | foreign (events : List Event)
  | shutdown
  | abort

namespace QueryLogger

def receiving (s : QueryLogger) : Bool :=
  match s.writer with
  | .ended _ => false
  | _ => true

/-- The record goes to the queue unless that is full or no one takes from it. -/
def offer (s : QueryLogger) (event : Event) : Option (Mailbox Event queryLogCapacity) :=
  if s.receiving then s.queue.trySend event else none

def record (s : QueryLogger) (event : Event) : QueryLogger :=
  match s.offer event with
  | some queue => { s with queue := queue }
  | none => { s with dropped := s.dropped + 1 }

def hold (s : QueryLogger) (buf : List Event) (queue : Mailbox Event queryLogCapacity) : QueryLogger :=
  { s with queue := queue,writer := if buf.length < queryLogBatch then .filling buf else .writing buf }

def receive (s : QueryLogger) : QueryLogger :=
  match s.writer,s.queue.receive with
  | .waiting,some (event,rest) => s.hold [event] rest
  | .waiting,none => if s.sending then s else { s with writer := .ended [] }
  | .filling buf,some (event,rest) => s.hold (buf ++ [event]) rest
  | .filling buf,none => if s.sending then s else { s with writer := .writing buf }
  | _,_ => s

def elapse (s : QueryLogger) : QueryLogger :=
  match s.writer with
  | .filling buf => { s with writer := .writing buf }
  | _ => s

def appended (refused : Bool) (store : EpisodicTable) (events : List Event) : Option EpisodicTable :=
  if refused then none
  else match store.append events with
    | .ok (_,after) => some after
    | .error _ => none

def append (refused : Bool) (s : QueryLogger) : QueryLogger :=
  match s.writer with
  | .writing buf => { s with writer := .waiting,store := (appended refused s.store buf).getD s.store }
  | _ => s

def step (s : QueryLogger) : LogStep → QueryLogger
  | .record r id now => if s.sending then s.record (r.event s.includeQuery id now) else s
  | .receive => s.receive
  | .elapse => s.elapse
  | .append refused => s.append refused
  | .foreign events => { s with store := (appended false s.store events).getD s.store }
  | .shutdown => { s with sending := false }
  | .abort => { s with writer := .ended s.writer.buf }

/-- The records that a step takes into the queue. -/
def accepted (s : QueryLogger) : LogStep → List Event
  | .record r id now =>
    if s.sending ∧ (s.offer (r.event s.includeQuery id now)).isSome then [r.event s.includeQuery id now] else []
  | _ => []

/-- The batch that a step ends, and whether it was appended. -/
def ended (s : QueryLogger) : LogStep → List (List Event × Bool)
  | .append refused =>
    match s.writer with
    | .writing buf => [(buf,(appended refused s.store buf).isSome)]
    | _ => []
  | _ => []

def offered (s : QueryLogger) : LogStep → List Event
  | .record r id now => if s.sending then [r.event s.includeQuery id now] else []
  | _ => []

/-- What was taken in and is in no batch that ended. -/
def pending (s : QueryLogger) : List Event := s.writer.buf ++ s.queue.items

def spawn (store : EpisodicTable) (includeQuery : Bool) : QueryLogger :=
  ⟨includeQuery,.empty,0,true,.waiting,store⟩

theorem hold_pending (s : QueryLogger) (buf : List Event) (queue : Mailbox Event queryLogCapacity) :
    (s.hold buf queue).pending = buf ++ queue.items := by
  unfold hold pending
  split <;> rfl

theorem receive_pending (s : QueryLogger) : s.receive.pending = s.pending := by
  unfold receive
  rcases s.queue.receive_cases with ⟨found,items⟩ | ⟨event,rest,found,items⟩
  · rw [found]
    cases writer : s.writer with
    | waiting =>
      cases sending : s.sending with
      | true => rfl
      | false => simp [pending,writer,LogWriter.buf]
    | filling buf =>
      cases sending : s.sending with
      | true => rfl
      | false => simp [pending,writer,LogWriter.buf]
    | writing buf => rfl
    | ended held => rfl
  · rw [found]
    cases writer : s.writer with
    | waiting => exact (s.hold_pending _ rest).trans (by simp [pending,writer,LogWriter.buf,items])
    | filling buf => exact (s.hold_pending _ rest).trans (by simp [pending,writer,LogWriter.buf,items])
    | writing buf => rfl
    | ended held => rfl

theorem offer_cases (s : QueryLogger) (event : Event) :
    (∃ queue,s.offer event = some queue ∧ queue.items = s.queue.items ++ [event]) ∨ s.offer event = none := by
  unfold offer
  split
  · rcases s.queue.trySend_cases event with ⟨sent,result,items⟩ | ⟨result,_⟩
    · exact .inl ⟨sent,result,items⟩
    · exact .inr result
  · exact .inr rfl

theorem step_pending (s : QueryLogger) (a : LogStep) :
    s.pending ++ s.accepted a = (s.ended a).flatMap Prod.fst ++ (s.step a).pending := by
  cases a with
  | record r id now =>
    cases sending : s.sending with
    | false => simp [accepted,ended,step,sending]
    | true =>
      rcases s.offer_cases (r.event s.includeQuery id now) with ⟨queue,result,items⟩ | result
      · simp [accepted,ended,step,sending,record,result,pending,items]
      · simp [accepted,ended,step,sending,record,result,pending]
  | receive => simp [accepted,ended,step,receive_pending]
  | elapse => cases writer : s.writer <;> simp [accepted,ended,step,elapse,writer,pending,LogWriter.buf]
  | append refused => cases writer : s.writer <;> simp [accepted,ended,step,append,writer,pending,LogWriter.buf]
  | foreign events => simp [accepted,ended,step,pending]
  | shutdown => simp [accepted,ended,step,pending]
  | abort => simp [accepted,ended,step,pending,LogWriter.buf]

theorem step_dropped (s : QueryLogger) (a : LogStep) :
    (s.step a).dropped + (s.accepted a).length = s.dropped + (s.offered a).length := by
  cases a with
  | record r id now =>
    cases sending : s.sending with
    | false => simp [accepted,offered,step,sending]
    | true =>
      rcases s.offer_cases (r.event s.includeQuery id now) with ⟨queue,result,_⟩ | result
      · simp [accepted,offered,step,sending,record,result]
      · simp [accepted,offered,step,sending,record,result]
  | receive =>
    have same : s.receive.dropped = s.dropped := by
      unfold receive hold
      split <;> try split
      all_goals rfl
    simp [accepted,offered,step,same]
  | elapse => cases writer : s.writer <;> simp [accepted,offered,step,elapse,writer]
  | append refused => cases writer : s.writer <;> simp [accepted,offered,step,append,writer]
  | foreign events => rfl
  | shutdown => rfl
  | abort => rfl

theorem rows_appended_plain {refused : Bool} {store after : EpisodicTable} {events : List Event}
    (keyless : ∀ event ∈ events, event.idempotencyKey = none) (done : appended refused store events = some after) :
    after.rows = store.rows ++ events.map Event.toRow := by
  unfold appended at done
  split at done
  next => cases done
  next =>
    cases events with
    | nil =>
      cases done
      exact (List.append_nil _).symm
    | cons event events =>
      have plain : (event :: events).all (fun event => event.idempotencyKey.isNone) = true := by
        simpa [List.all_eq_true] using keyless
      rw [EpisodicTable.append,if_neg (by simp),if_pos plain,EpisodicTable.appendFast] at done
      cases written : Table.append store ((event :: events).map Event.toRow) with
      | none =>
        rw [written] at done
        cases done
      | some full =>
        rw [written] at done
        cases done
        have fresh := EpisodicTable.append_of_fresh.mp ⟨after,written⟩
        rw [← ((Table.append_eq_some _ _ _).mp written).2.2]
        exact EpisodicTable.appends_plain keyless fresh

theorem rows_foldl_insertOrIgnore (rows : List EventRow) (store : EpisodicTable) :
    store.rows.Sublist (rows.foldl EpisodicTable.insertOrIgnore store).rows := by
  induction rows generalizing store with
  | nil => exact List.Sublist.refl _
  | cons row rows ih =>
    refine List.Sublist.trans ?_ (ih (store.insertOrIgnore row))
    rw [EpisodicTable.rows_insertOrIgnore]
    split
    next => exact List.Sublist.refl _
    next => exact List.sublist_append_left _ _

theorem rows_appended {refused : Bool} {store after : EpisodicTable} {events : List Event}
    (done : appended refused store events = some after) : store.rows.Sublist after.rows := by
  by_cases keyless : ∀ event ∈ events, event.idempotencyKey = none
  · rw [rows_appended_plain keyless done]
    exact List.sublist_append_left _ _
  · unfold appended at done
    split at done
    next => cases done
    next =>
      have keyed : ¬events.all (fun event => event.idempotencyKey.isNone) = true := by
        simpa [List.all_eq_true] using keyless
      have some : ¬events.isEmpty = true := by
        intro none
        rw [List.isEmpty_iff.mp none] at keyless
        exact keyless (by simp)
      rw [EpisodicTable.append,if_neg some,if_neg keyed] at done
      cases done
      exact rows_foldl_insertOrIgnore _ _

def Sized : LogWriter → Prop
  | .filling buf => 1 ≤ buf.length ∧ buf.length < queryLogBatch
  | .writing buf => 1 ≤ buf.length ∧ buf.length ≤ queryLogBatch
  | _ => True

structure Sound (s : QueryLogger) : Prop where
  keyless : ∀ event ∈ s.pending, event.idempotencyKey = none
  sized : Sized s.writer

theorem spawn_sound (store : EpisodicTable) (includeQuery : Bool) : (spawn store includeQuery).Sound :=
  ⟨fun _ inside => absurd inside List.not_mem_nil,trivial⟩

theorem accepted_keyless (s : QueryLogger) (a : LogStep) : ∀ event ∈ s.accepted a, event.idempotencyKey = none := by
  intro event inside
  cases a with
  | record r id now =>
    rw [accepted] at inside
    split at inside
    next =>
      cases List.mem_singleton.mp inside
      rfl
    next => cases inside
  | _ => cases inside

theorem hold_sized (s : QueryLogger) {buf : List Event} (queue : Mailbox Event queryLogCapacity)
    (size : 1 ≤ buf.length ∧ buf.length ≤ queryLogBatch) : Sized (s.hold buf queue).writer := by
  unfold hold
  by_cases room : buf.length < queryLogBatch
  · rw [if_pos room]
    exact ⟨size.1,room⟩
  · rw [if_neg room]
    exact size

theorem receive_sized (s : QueryLogger) (sized : Sized s.writer) : Sized s.receive.writer := by
  unfold receive
  split
  next => exact hold_sized s _ ⟨Nat.le_refl 1,by simp [queryLogBatch]⟩
  next =>
    split
    next => exact sized
    next => trivial
  next buf event rest writer _ =>
    rw [writer] at sized
    refine hold_sized s _ ⟨?_,?_⟩
    · rw [List.length_append]
      exact Nat.le_add_left 1 _
    · rw [List.length_append]
      exact sized.2
  next buf writer _ =>
    split
    next => exact sized
    next =>
      rw [writer] at sized
      exact ⟨sized.1,Nat.le_of_lt sized.2⟩
  next => exact sized

theorem step_sized (s : QueryLogger) (a : LogStep) (sized : Sized s.writer) : Sized (s.step a).writer := by
  cases a with
  | record r id now =>
    rw [step]
    split
    next =>
      unfold record
      split <;> exact sized
    next => exact sized
  | receive => exact s.receive_sized sized
  | elapse =>
    rw [step,elapse]
    split
    next buf writer =>
      rw [writer] at sized
      exact ⟨sized.1,Nat.le_of_lt sized.2⟩
    next => exact sized
  | append refused =>
    rw [step,append]
    split
    next => trivial
    next => exact sized
  | foreign events => exact sized
  | shutdown => exact sized
  | abort => trivial

theorem step_sound (s : QueryLogger) (a : LogStep) (sound : s.Sound) : (s.step a).Sound := by
  refine ⟨fun event inside => ?_,s.step_sized a sound.sized⟩
  have among : event ∈ s.pending ++ s.accepted a := by
    rw [step_pending]
    exact List.mem_append_right _ inside
  rcases List.mem_append.mp among with old | new
  · exact sound.keyless event old
  · exact s.accepted_keyless a event new

def logged (s : QueryLogger) (a : LogStep) : List EventRow :=
  (((s.ended a).filter Prod.snd).flatMap Prod.fst).map Event.toRow

theorem step_logged (s : QueryLogger) (a : LogStep) (sound : s.Sound) :
    (s.store.rows ++ s.logged a).Sublist (s.step a).store.rows := by
  cases a with
  | record r id now =>
    have same : (s.step (.record r id now)).store = s.store := by
      rw [step]
      split
      next =>
        unfold record
        split <;> rfl
      next => rfl
    rw [same]
    exact (List.append_nil _).symm ▸ List.Sublist.refl _
  | receive =>
    have same : s.receive.store = s.store := by
      unfold receive hold
      split <;> try split
      all_goals rfl
    rw [step,same]
    exact (List.append_nil _).symm ▸ List.Sublist.refl _
  | elapse => cases writer : s.writer <;> simp [logged,ended,step,elapse,writer]
  | append refused =>
    cases writer : s.writer with
    | writing buf =>
      have keyless : ∀ event ∈ buf, event.idempotencyKey = none := by
        intro event inside
        refine sound.keyless event (List.mem_append_left _ ?_)
        rw [writer]
        exact inside
      cases done : appended refused s.store buf with
      | none => simp [logged,ended,step,append,writer,done]
      | some after =>
        have rows := rows_appended_plain keyless done
        simp [logged,ended,step,append,writer,done,rows]
    | _ => simp [logged,ended,step,append,writer]
  | foreign events =>
    cases done : appended false s.store events with
    | none => simp [logged,ended,step,done]
    | some after => simpa [logged,ended,step,done] using rows_appended done
  | shutdown => simp [logged,ended,step]
  | abort => simp [logged,ended,step]

/-- A task that was not cut off has ended with nothing left. -/
def Drained (s : QueryLogger) : Prop := s.receiving = false → s.pending = []

theorem hold_receiving (s : QueryLogger) (buf : List Event) (queue : Mailbox Event queryLogCapacity) :
    (s.hold buf queue).receiving = true := by
  unfold hold receiving
  split
  next ended =>
    simp only at ended
    split at ended <;> cases ended
  next => rfl

theorem receive_drained (s : QueryLogger) (drained : s.Drained) : s.receive.Drained := by
  intro ended
  rw [receive_pending]
  unfold receive at ended
  rcases s.queue.receive_cases with ⟨found,items⟩ | ⟨event,rest,found,items⟩
  · rw [found] at ended
    cases writer : s.writer with
    | waiting => simp [pending,writer,LogWriter.buf,items]
    | filling buf =>
      rw [writer] at ended
      cases sending : s.sending with
      | true => simp [sending,receiving,writer] at ended
      | false => simp [sending,receiving] at ended
    | writing buf => simp [receiving,writer] at ended
    | ended held => exact drained (by simp [receiving,writer])
  · rw [found] at ended
    cases writer : s.writer with
    | waiting => simp [writer,hold_receiving] at ended
    | filling buf => simp [writer,hold_receiving] at ended
    | writing buf => simp [receiving,writer] at ended
    | ended held => exact drained (by simp [receiving,writer])

theorem step_drained (s : QueryLogger) (a : LogStep) (runs : a ≠ .abort) (drained : s.Drained) : (s.step a).Drained := by
  cases a with
  | record r id now =>
    rw [step]
    split
    next =>
      unfold record
      rcases s.offer_cases (r.event s.includeQuery id now) with ⟨queue,result,_⟩ | result
      · intro ended
        have stopped : s.receiving = false := by
          rw [result] at ended
          exact ended
        rw [offer,stopped] at result
        cases result
      · rw [result]
        exact drained
    next => exact drained
  | receive => exact s.receive_drained drained
  | elapse =>
    rw [step,elapse]
    split
    next => exact nofun
    next => exact drained
  | append refused =>
    rw [step,append]
    split
    next => exact nofun
    next => exact drained
  | foreign events => exact drained
  | shutdown => exact drained
  | abort => exact absurd rfl runs

/-- What a run ends with. Each record that found a place is in one batch, in the order of the searches, or still held; the
others are counted. The rows of the batches that were appended are in the log, in that order, among those of others; and a
writer that ends by itself has nothing left. -/
theorem queryLog_law (store : EpisodicTable) (includeQuery : Bool) (inputs : List LogStep) :
    outputs step accepted (spawn store includeQuery) inputs =
        (outputs step ended (spawn store includeQuery) inputs).flatMap Prod.fst ++
          (run step (spawn store includeQuery) inputs).pending ∧
      (run step (spawn store includeQuery) inputs).dropped + (outputs step accepted (spawn store includeQuery) inputs).length =
        (outputs step offered (spawn store includeQuery) inputs).length ∧
      (∀ batch ∈ outputs step ended (spawn store includeQuery) inputs, 1 ≤ batch.1.length ∧ batch.1.length ≤ queryLogBatch) ∧
      (store.rows ++ (((outputs step ended (spawn store includeQuery) inputs).filter Prod.snd).flatMap Prod.fst).map
        Event.toRow).Sublist (run step (spawn store includeQuery) inputs).store.rows ∧
      (LogStep.abort ∉ inputs → (run step (spawn store includeQuery) inputs).Drained) := by
  have sound := spawn_sound store includeQuery
  refine ⟨?_,?_,?_,?_,?_⟩
  · rw [outputs_flatMap]
    exact outputs_conserved step_pending (spawn store includeQuery) inputs
  · have counted := outputs_counted step_dropped (spawn store includeQuery) inputs
    rwa [spawn,Nat.zero_add] at counted
  · refine forall_mem_outputs sound step_sound ?_ inputs
    intro s a sound batch inside
    cases a with
    | append refused =>
      rw [ended] at inside
      split at inside
      next buf writer =>
        cases List.mem_singleton.mp inside
        have sized := sound.sized
        rw [writer] at sized
        exact sized
      next => cases inside
    | _ => cases inside
  · have all := outputs_logged step_sound step_logged sound inputs
    rwa [outputs_filter,outputs_flatMap,outputs_map]
  · intro runs
    have along : Along step (fun _ a => a ≠ .abort) (spawn store includeQuery) inputs :=
      .of_forall (fun a inside same => runs (same ▸ inside))
    exact @Along.invariant _ _ step _ Drained _ _ along nofun (fun s a drained plain => s.step_drained a plain drained)

end QueryLogger

end Ecphoria
