import Ecphoria.Cognition.Store

/-! The other stores of the engine: the episodic log with its sessions, the agent
state, the run ledger, and the grants and attachments kept beside the memories. -/
namespace Ecphoria
open Library

structure Event where
  id : Uuid
  source : String
  eventType : String
  payload : Json
  timestamp : Int
  parentId : Option Uuid
  traceId : Option String
  tags : List String
  idempotencyKey : Option String

/-- A row of `episodic`. Tags are one comma-separated column, `NULL` when there are none. -/
structure EventRow where
  id : Uuid
  source : String
  eventType : String
  payload : Json
  ts : Int
  parentId : Option Uuid
  traceId : Option String
  tags : Option String
  idempotencyKey : Option String
  tenantId : String
  sessionId : Option String
  embedded : Bool

def Event.toRow (event : Event) : EventRow where
  id := event.id
  source := event.source
  eventType := event.eventType
  payload := event.payload
  ts := micros event.timestamp
  parentId := event.parentId
  traceId := event.traceId
  tags := if event.tags.isEmpty then none else some (String.intercalate "," event.tags)
  idempotencyKey := event.idempotencyKey
  tenantId := ((event.payload.get "_tenant_id").bind Json.asStr).getD "default"
  sessionId := (event.payload.get "_session_id").bind Json.asStr
  embedded := false

def tagEvents (tenant : Option String) (events : List Event) : List Event :=
  match tenant with
  | some t => events.map (fun event => { event with payload := event.payload.insert "_tenant_id" (.str t) })
  | none => events

abbrev EpisodicTable := Table EventRow EventRow.id

namespace EpisodicTable

def conflicts (t : EpisodicTable) (row : EventRow) : Bool :=
  row.id ∈ t.keys || row.idempotencyKey.isSome && t.rows.any (fun old => old.idempotencyKey = row.idempotencyKey)

def insertOrIgnore (t : EpisodicTable) (row : EventRow) : EpisodicTable :=
  if t.conflicts row then t else t.upsert row

def appendFast (t : EpisodicTable) (events : List Event) : Except Error (Nat × EpisodicTable) :=
  match Table.append t (events.map Event.toRow) with
  | none => .error (.ingest "appender flush")
  | some appended => .ok (events.length,appended)

/-- `EpisodicStore::append`: the appender when no event carries an idempotency key, else one
`INSERT OR IGNORE` for each event. -/
def append (t : EpisodicTable) (events : List Event) : Except Error (Nat × EpisodicTable) :=
  if events.isEmpty then .ok (0,t)
  else if events.all (fun event => event.idempotencyKey.isNone) then t.appendFast events
  else
    let inserted := (events.map Event.toRow).foldl insertOrIgnore t
    .ok (inserted.rows.length - t.rows.length,inserted)

def recallSessionForTenant (t : EpisodicTable) (sessionId tenant : String) : List EventRow :=
  (t.rows.filter (fun row => row.sessionId = some sessionId && row.tenantId = tenant)).insertionSort
    (fun a b => a.ts ≤ b.ts)

end EpisodicTable

structure SessionRow where
  sessionId : String
  parentSessionId : Option String
  agentId : String
  startedAt : Int
  endedAt : Option Int
  summary : Option String
  metadata : Json
  tenantId : String

abbrev SessionTable := Table SessionRow SessionRow.sessionId

structure StateRow where
  agentId : String
  key : String
  value : Json
  version : Nat
  updatedAt : Int
  expiresAt : Option Int

def StateRow.primary (row : StateRow) : String × String := (row.agentId,row.key)

abbrev StateTable := Table StateRow StateRow.primary

def scopedAgent (tenant agentId : String) : String := tenant ++ "\x1f" ++ agentId

namespace StateTable

def nextRow (t : StateTable) (agentId key : String) (value : Json) (now : Int) : StateRow :=
  match t.find (agentId,key) with
  | some old => { old with value := value, version := old.version + 1, updatedAt := now }
  | none => ⟨agentId,key,value,1,now,none⟩

def set (t : StateTable) (agentId key : String) (value : Json) (now : Int) : Nat × StateTable :=
  let row := t.nextRow agentId key value now
  (row.version,t.upsert row)

def remove (t : StateTable) (agentId key : String) : StateTable :=
  t.delete (fun row => row.primary = (agentId,key))

end StateTable

inductive RunStatus where
  | pending | running | waitingApproval | succeeded | failed | cancelled
deriving DecidableEq,Repr

structure Run where
  id : Uuid
  tenantId : String
  agentId : Option String
  parentRunId : Option Uuid
  status : RunStatus
  input : Json
  result : Json
  error : Option String
  cursor : Json
  createdAt : Int
  updatedAt : Int
  startedAt : Option Int
  endedAt : Option Int

structure RunPatch where
  status : Option RunStatus
  result : Option Json
  error : Option String
  cursor : Option Json
  startedAt : Option Int
  endedAt : Option Int

abbrev RunTable := Table Run Run.id

/-- The assignments of `RunStore::update`: `COALESCE` keeps what the patch leaves out. -/
def RunPatch.apply (patch : RunPatch) (updatedAt : Int) (run : Run) : Run :=
  { run with
    status := patch.status.getD run.status
    result := patch.result.getD run.result
    error := patch.error.or run.error
    cursor := patch.cursor.getD run.cursor
    startedAt := patch.startedAt.or run.startedAt
    endedAt := patch.endedAt.or run.endedAt
    updatedAt := updatedAt }

namespace RunTable

def create (t : RunTable) (run : Run) : RunTable := t.insertIgnore run

def patchRun (t : RunTable) (id : Uuid) (patch : RunPatch) (updatedAt : Int) : RunTable :=
  t.update (fun run => run.id = id) (patch.apply updatedAt) (fun _ => rfl)

end RunTable

structure GrantRow where
  id : Uuid
  tenantId : String
  granteeUserId : String
  grantorUserId : String
  access : String
  createdAt : Int
deriving DecidableEq,Repr

structure AttachmentMeta where
  id : Uuid
  tenantId : String
  memoryId : Option Uuid
  contentType : String
  filename : Option String
  size : Nat
  storageKey : String
  createdAt : Int
deriving DecidableEq,Repr

abbrev GrantTable := Table GrantRow GrantRow.id
abbrev AttachmentTable := Table AttachmentMeta AttachmentMeta.id

end Ecphoria
