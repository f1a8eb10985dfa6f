import Ecphoria.Library.MessagePack
import Ecphoria.Cluster.Request

/-! The log and wire format: every request as MessagePack and back. The fields that are
skipped when absent decide what survives: at the end of a struct a skipped field is
read as its default, before the end it shifts every field after it. -/
namespace Ecphoria
open Library MsgPack

/-- The text the time library writes for an instant, and how it reads one. -/
structure TimeText where
  format : Int → String
  parse : String → Option Int

mutual

def encodeJson : Json → MsgPack
  | .null => .nil
  | .bool b => .bool b
  | .int n => .int n
  | .float x => .float x
  | .str s => .str s
  | .arr items => .arr (encodeItems items)
  | .obj fields => .map (encodeFields fields)

def encodeItems : List Json → List MsgPack
  | [] => []
  | item :: items => encodeJson item :: encodeItems items

def encodeFields : List (String × Json) → List (String × MsgPack)
  | [] => []
  | (name,value) :: fields => (name,encodeJson value) :: encodeFields fields

end

mutual

/-- The entries of an object come in the order of its keys, so the map they are read into lists them
as they come. -/
def decodeJson : MsgPack → Option Json
  | .nil => some .null
  | .bool b => some (.bool b)
  | .int n => some (.int n)
  | .float x => some (.float x)
  | .str s => some (.str s)
  | .bin _ _ => none
  | .arr items => (decodeItems items).map .arr
  | .map entries => (decodeFields entries).map .obj

def decodeItems : List MsgPack → Option (List Json)
  | [] => some []
  | v :: vs =>
    match decodeJson v, decodeItems vs with
    | some item,some items => some (item :: items)
    | _,_ => none

def decodeFields : List (String × MsgPack) → Option (List (String × Json))
  | [] => some []
  | (name,v) :: entries =>
    match decodeJson v, decodeFields entries with
    | some value,some fields => some ((name,value) :: fields)
    | _,_ => none

end

mutual

theorem reads_json : ∀ j : Json, decodeJson (encodeJson j) = some j
  | .null => rfl
  | .bool _ => rfl
  | .int _ => rfl
  | .float _ => rfl
  | .str _ => rfl
  | .arr items => by simp [encodeJson,decodeJson,reads_items items]
  | .obj fields => by simp [encodeJson,decodeJson,reads_fields fields]

theorem reads_items : ∀ items : List Json, decodeItems (encodeItems items) = some items
  | [] => rfl
  | item :: items => by simp [encodeItems,decodeItems,reads_json item,reads_items items]

theorem reads_fields : ∀ fields : List (String × Json), decodeFields (encodeFields fields) = some fields
  | [] => rfl
  | (name,value) :: fields => by simp [encodeFields,decodeFields,reads_json value,reads_fields fields]

end

def encodeUuid (id : Uuid) : MsgPack := .bin 16 id.bits

def decodeUuid (v : MsgPack) : Option Uuid := (decodeBin 16 v).map Uuid.mk

def encodeEdgeState : EdgeState → MsgPack
  | .active => .str "active"
  | .superseded => .str "superseded"

def decodeEdgeState (v : MsgPack) : Option EdgeState :=
  match decodeStr v with
  | some "active" => some .active
  | some "superseded" => some .superseded
  | _ => none

def encodeMemoryState : MemoryState → MsgPack
  | .active => .str "active"
  | .superseded => .str "superseded"
  | .expired => .str "expired"
  | .pending => .str "pending"

def decodeMemoryState (v : MsgPack) : Option MemoryState :=
  match decodeStr v with
  | some "active" => some .active
  | some "superseded" => some .superseded
  | some "expired" => some .expired
  | some "pending" => some .pending
  | _ => none

def encodeRunStatus : RunStatus → MsgPack
  | .pending => .str "pending"
  | .running => .str "running"
  | .waitingApproval => .str "waiting_approval"
  | .succeeded => .str "succeeded"
  | .failed => .str "failed"
  | .cancelled => .str "cancelled"

def decodeRunStatus (v : MsgPack) : Option RunStatus :=
  match decodeStr v with
  | some "pending" => some .pending
  | some "running" => some .running
  | some "waiting_approval" => some .waitingApproval
  | some "succeeded" => some .succeeded
  | some "failed" => some .failed
  | some "cancelled" => some .cancelled
  | _ => none

@[simp] theorem reads_uuid (id : Uuid) : decodeUuid (encodeUuid id) = some id :=
  congrArg (Option.map Uuid.mk) (@reads_bin 16 id.bits)

@[simp] theorem reads_edgeState (state : EdgeState) : decodeEdgeState (encodeEdgeState state) = some state := by
  cases state <;> rfl

@[simp] theorem reads_memoryState (state : MemoryState) :
    decodeMemoryState (encodeMemoryState state) = some state := by
  cases state <;> rfl

@[simp] theorem reads_runStatus (status : RunStatus) : decodeRunStatus (encodeRunStatus status) = some status := by
  cases status <;> rfl

@[simp] theorem reads_optional_str (o : Option String) :
    decodeOption decodeStr (encodeOption .str o) = some o :=
  reads_option o (fun _ => rfl) (by simp)

@[simp] theorem reads_optional_uuid (o : Option Uuid) :
    decodeOption decodeUuid (encodeOption encodeUuid o) = some o :=
  reads_option o reads_uuid (by simp [encodeUuid])

@[simp] theorem reads_optional_status (o : Option RunStatus) :
    decodeOption decodeRunStatus (encodeOption encodeRunStatus o) = some o :=
  reads_option o reads_runStatus (by intro a _; cases a <;> simp [encodeRunStatus])

@[simp] theorem reads_uuids (ids : List Uuid) : decodeList decodeUuid (encodeList encodeUuid ids) = some ids :=
  reads_list reads_uuid ids

@[simp] theorem reads_strs (items : List String) : decodeList decodeStr (encodeList .str items) = some items :=
  @reads_list String MsgPack.str decodeStr (fun _ => rfl) items

@[simp] theorem reads_floats (xs : List Rat) : decodeList decodeFloat (encodeList .float xs) = some xs :=
  @reads_list Rat MsgPack.float decodeFloat (fun _ => rfl) xs

def heard : Option Json → Option Json
  | some .null => none
  | o => o

@[simp] theorem reads_optional_json (o : Option Json) :
    decodeOption decodeJson (encodeOption encodeJson o) = some (heard o) := by
  rcases o with _ | j
  · rfl
  · cases j with
    | null => rfl
    | bool b => rfl
    | int n => rfl
    | float x => rfl
    | str s => rfl
    | arr items => simp [encodeOption,encodeJson,decodeOption,decodeJson,reads_items,heard]
    | obj fields => simp [encodeOption,encodeJson,decodeOption,decodeJson,reads_fields,heard]

theorem heard_eq_iff (o : Option Json) : heard o = o ↔ o ≠ some .null := by
  rcases o with _ | j
  · simp [heard]
  · cases j <;> simp [heard]

section
variable (times : TimeText)

def encodeTime (t : Int) : MsgPack := .str (times.format t)

def decodeTime (v : MsgPack) : Option Int := (decodeStr v).bind times.parse

def encodeEvent (event : Event) : MsgPack :=
  .arr [encodeUuid event.id,.str event.source,.str event.eventType,encodeJson event.payload,
    encodeTime times event.timestamp,encodeOption encodeUuid event.parentId,encodeOption .str event.traceId,
    encodeList .str event.tags,encodeOption .str event.idempotencyKey]

def decodeEvent : MsgPack → Option Event :=
  decodeStruct 9 (fun vs => do
    let id ← field vs 0 decodeUuid
    let source ← field vs 1 decodeStr
    let eventType ← field vs 2 decodeStr
    let payload ← field vs 3 decodeJson
    let timestamp ← field vs 4 (decodeTime times)
    let parentId ← fieldOr vs 5 none (decodeOption decodeUuid)
    let traceId ← fieldOr vs 6 none (decodeOption decodeStr)
    let tags ← fieldOr vs 7 [] (decodeList decodeStr)
    let idempotencyKey ← fieldOr vs 8 none (decodeOption decodeStr)
    some ⟨id,source,eventType,payload,timestamp,parentId,traceId,tags,idempotencyKey⟩)

def memoryEntries (m : Memory) : List (String × MsgPack) :=
  [("id",encodeUuid m.id),("tenant_id",.str m.scope.tenantId)] ++ skipEntry "user_id" .str m.scope.userId ++
    skipEntry "agent_id" .str m.scope.agentId ++ skipEntry "session_id" .str m.scope.sessionId ++
    skipEntry "subject" .str m.subject ++
    [("content",.str m.content),("importance",.float m.importance),("valid_from",encodeTime times m.validFrom)] ++
    skipEntry "valid_to" (encodeTime times) m.validTo ++ [("state",encodeMemoryState m.state)] ++
    skipEntry "supersedes" encodeUuid m.supersedes ++
    skipEmpty "source_event_ids" encodeUuid m.sourceEventIds ++
    [("version",encodeNat m.version),("created_at",encodeTime times m.createdAt),
      ("updated_at",encodeTime times m.updatedAt),("metadata",encodeJson m.metadata),("mem_type",.str m.memType)] ++
    skipEntry "project" .str m.project

def encodeMemory (m : Memory) : MsgPack := .map (memoryEntries times m)

def decodeMemory : MsgPack → Option Memory
  | .map entries => do
    let id ← entry entries "id" decodeUuid
    let tenantId ← entry entries "tenant_id" decodeStr
    let userId ← entryOr entries "user_id" none (decodeOption decodeStr)
    let agentId ← entryOr entries "agent_id" none (decodeOption decodeStr)
    let sessionId ← entryOr entries "session_id" none (decodeOption decodeStr)
    let subject ← entryOr entries "subject" none (decodeOption decodeStr)
    let content ← entry entries "content" decodeStr
    let importance ← entry entries "importance" decodeFloat
    let validFrom ← entry entries "valid_from" (decodeTime times)
    let validTo ← entryOr entries "valid_to" none (decodeOption (decodeTime times))
    let state ← entry entries "state" decodeMemoryState
    let supersedes ← entryOr entries "supersedes" none (decodeOption decodeUuid)
    let sourceEventIds ← entryOr entries "source_event_ids" [] (decodeList decodeUuid)
    let version ← entry entries "version" decodeNat
    let createdAt ← entry entries "created_at" (decodeTime times)
    let updatedAt ← entry entries "updated_at" (decodeTime times)
    let metadata ← entryOr entries "metadata" .null decodeJson
    let memType ← entryOr entries "mem_type" "semantic" decodeStr
    let project ← entryOr entries "project" none (decodeOption decodeStr)
    some ⟨id,⟨tenantId,userId,agentId,sessionId⟩,subject,content,importance,validFrom,validTo,state,supersedes,
      sourceEventIds,version,createdAt,updatedAt,metadata,memType,project⟩
  | _ => none

def encodeMemoryRow (row : MemoryRow) : MsgPack :=
  .arr (encodeMemory times row.memory :: skipNone (encodeList .float) row.embedding)

def decodeMemoryRow : MsgPack → Option MemoryRow :=
  decodeStruct 2 (fun vs => do
    let memory ← field vs 0 (decodeMemory times)
    let embedding ← fieldOr vs 1 none (decodeOption (decodeList decodeFloat))
    some ⟨memory,embedding⟩)

def encodeEdge (edge : Edge) : MsgPack :=
  .arr ([encodeUuid edge.id,.str edge.src,.str edge.relation,.str edge.dst,.float edge.weight] ++
    skipNone encodeUuid edge.sourceMemoryId ++ skipNone (encodeTime times) edge.validFrom ++
    skipNone (encodeTime times) edge.validTo ++ [encodeEdgeState edge.state] ++
    skipNone encodeUuid edge.invalidatedBy)

def decodeEdge : MsgPack → Option Edge :=
  decodeStruct 10 (fun vs => do
    let id ← field vs 0 decodeUuid
    let src ← field vs 1 decodeStr
    let relation ← field vs 2 decodeStr
    let dst ← field vs 3 decodeStr
    let weight ← field vs 4 decodeFloat
    let sourceMemoryId ← fieldOr vs 5 none (decodeOption decodeUuid)
    let validFrom ← fieldOr vs 6 none (decodeOption (decodeTime times))
    let validTo ← fieldOr vs 7 none (decodeOption (decodeTime times))
    let state ← fieldOr vs 8 .active decodeEdgeState
    let invalidatedBy ← fieldOr vs 9 none (decodeOption decodeUuid)
    some ⟨id,src,relation,dst,weight,sourceMemoryId,validFrom,validTo,state,invalidatedBy⟩)

def encodeRun (run : Run) : MsgPack :=
  .arr [encodeUuid run.id,.str run.tenantId,encodeOption .str run.agentId,encodeOption encodeUuid run.parentRunId,
    encodeRunStatus run.status,encodeJson run.input,encodeJson run.result,encodeOption .str run.error,
    encodeJson run.cursor,encodeTime times run.createdAt,encodeTime times run.updatedAt,
    encodeOption (encodeTime times) run.startedAt,encodeOption (encodeTime times) run.endedAt]

def decodeRun : MsgPack → Option Run :=
  decodeStruct 13 (fun vs => do
    let id ← field vs 0 decodeUuid
    let tenantId ← fieldOr vs 1 "default" decodeStr
    let agentId ← fieldOr vs 2 none (decodeOption decodeStr)
    let parentRunId ← fieldOr vs 3 none (decodeOption decodeUuid)
    let status ← field vs 4 decodeRunStatus
    let input ← fieldOr vs 5 .null decodeJson
    let result ← fieldOr vs 6 .null decodeJson
    let error ← fieldOr vs 7 none (decodeOption decodeStr)
    let cursor ← fieldOr vs 8 .null decodeJson
    let createdAt ← field vs 9 (decodeTime times)
    let updatedAt ← field vs 10 (decodeTime times)
    let startedAt ← fieldOr vs 11 none (decodeOption (decodeTime times))
    let endedAt ← fieldOr vs 12 none (decodeOption (decodeTime times))
    some ⟨id,tenantId,agentId,parentRunId,status,input,result,error,cursor,createdAt,updatedAt,startedAt,endedAt⟩)

def encodeRunPatch (patch : RunPatch) : MsgPack :=
  .arr [encodeOption encodeRunStatus patch.status,encodeOption encodeJson patch.result,
    encodeOption .str patch.error,encodeOption encodeJson patch.cursor,
    encodeOption (encodeTime times) patch.startedAt,encodeOption (encodeTime times) patch.endedAt]

def decodeRunPatch : MsgPack → Option RunPatch :=
  decodeStruct 6 (fun vs => do
    let status ← fieldOr vs 0 none (decodeOption decodeRunStatus)
    let result ← fieldOr vs 1 none (decodeOption decodeJson)
    let error ← fieldOr vs 2 none (decodeOption decodeStr)
    let cursor ← fieldOr vs 3 none (decodeOption decodeJson)
    let startedAt ← fieldOr vs 4 none (decodeOption (decodeTime times))
    let endedAt ← fieldOr vs 5 none (decodeOption (decodeTime times))
    some ⟨status,result,error,cursor,startedAt,endedAt⟩)

def encodeRequest : AppRequest → MsgPack
  | .ingest events tenant => variant "Ingest" [encodeList (encodeEvent times) events,encodeOption .str tenant]
  | .stateSet agentId key value tenant =>
    variant "StateSet" [.str agentId,.str key,encodeJson value,encodeOption .str tenant]
  | .stateDelete agentId key tenant => variant "StateDelete" [.str agentId,.str key,encodeOption .str tenant]
  | .semanticUpsert id content embedding metadata =>
    variant "SemanticUpsert" [encodeUuid id,.str content,encodeList .float embedding,encodeJson metadata]
  | .semanticDelete id => variant "SemanticDelete" [encodeUuid id]
  | .memoryUpsert rows => variant "MemoryUpsert" [encodeList (encodeMemoryRow times) rows]
  | .memoryDelete id => variant "MemoryDelete" [encodeUuid id]
  | .graphAddEdge tenant edge => variant "GraphAddEdge" [encodeOption .str tenant,encodeEdge times edge]
  | .graphSupersede tenant src relation instant byEdge =>
    variant "GraphSupersede" [encodeOption .str tenant,.str src,.str relation,encodeTime times instant,
      encodeOption encodeUuid byEdge]
  | .memoryExpire ids => variant "MemoryExpire" [encodeList encodeUuid ids]
  | .runCreate run => variant "RunCreate" [encodeRun times run]
  | .runUpdate id patch updatedAt =>
    variant "RunUpdate" [encodeUuid id,encodeRunPatch times patch,encodeTime times updatedAt]

def decodeVariant (name : String) : MsgPack → Option AppRequest :=
  match name with
  | "Ingest" => decodeStruct 2 (fun vs => do
    let events ← field vs 0 (decodeList (decodeEvent times))
    let tenant ← fieldOr vs 1 none (decodeOption decodeStr)
    some (.ingest events tenant))
  | "StateSet" => decodeStruct 4 (fun vs => do
    let agentId ← field vs 0 decodeStr
    let key ← field vs 1 decodeStr
    let value ← field vs 2 decodeJson
    let tenant ← fieldOr vs 3 none (decodeOption decodeStr)
    some (.stateSet agentId key value tenant))
  | "StateDelete" => decodeStruct 3 (fun vs => do
    let agentId ← field vs 0 decodeStr
    let key ← field vs 1 decodeStr
    let tenant ← fieldOr vs 2 none (decodeOption decodeStr)
    some (.stateDelete agentId key tenant))
  | "SemanticUpsert" => decodeStruct 4 (fun vs => do
    let id ← field vs 0 decodeUuid
    let content ← field vs 1 decodeStr
    let embedding ← field vs 2 (decodeList decodeFloat)
    let metadata ← field vs 3 decodeJson
    some (.semanticUpsert id content embedding metadata))
  | "SemanticDelete" => decodeStruct 1 (fun vs => do
    let id ← field vs 0 decodeUuid
    some (.semanticDelete id))
  | "MemoryUpsert" => decodeStruct 1 (fun vs => do
    let rows ← field vs 0 (decodeList (decodeMemoryRow times))
    some (.memoryUpsert rows))
  | "MemoryDelete" => decodeStruct 1 (fun vs => do
    let id ← field vs 0 decodeUuid
    some (.memoryDelete id))
  | "GraphAddEdge" => decodeStruct 2 (fun vs => do
    let tenant ← fieldOr vs 0 none (decodeOption decodeStr)
    let edge ← field vs 1 (decodeEdge times)
    some (.graphAddEdge tenant edge))
  | "GraphSupersede" => decodeStruct 5 (fun vs => do
    let tenant ← fieldOr vs 0 none (decodeOption decodeStr)
    let src ← field vs 1 decodeStr
    let relation ← field vs 2 decodeStr
    let instant ← field vs 3 (decodeTime times)
    let byEdge ← fieldOr vs 4 none (decodeOption decodeUuid)
    some (.graphSupersede tenant src relation instant byEdge))
  | "MemoryExpire" => decodeStruct 1 (fun vs => do
    let ids ← field vs 0 (decodeList decodeUuid)
    some (.memoryExpire ids))
  | "RunCreate" => decodeStruct 1 (fun vs => do
    let run ← field vs 0 (decodeRun times)
    some (.runCreate run))
  | "RunUpdate" => decodeStruct 3 (fun vs => do
    let id ← field vs 0 decodeUuid
    let patch ← field vs 1 (decodeRunPatch times)
    let updatedAt ← field vs 2 (decodeTime times)
    some (.runUpdate id patch updatedAt))
  | _ => fun _ => none

def decodeRequest : MsgPack → Option AppRequest
  | .map [(name,fields)] => decodeVariant times name fields
  | _ => none

/-- The optional fields that do not survive: a gap before the end of an edge, and a patch that sets a
value to null. -/
def Survives : AppRequest → Prop
  | .graphAddEdge _ edge => edge.sourceMemoryId.isSome ∧ edge.validFrom.isSome ∧ edge.validTo.isSome
  | .runUpdate _ patch _ => patch.result ≠ some .null ∧ patch.cursor ≠ some .null
  | _ => True

section
variable {times : TimeText} (reads : ∀ t, times.parse (times.format t) = some t)
include reads

theorem reads_time (t : Int) : decodeTime times (encodeTime times t) = some t := reads t

theorem reads_optional_time (o : Option Int) :
    decodeOption (decodeTime times) (encodeOption (encodeTime times) o) = some o :=
  reads_option o (reads_time reads) (by simp [encodeTime])

theorem reads_event (event : Event) : decodeEvent times (encodeEvent times event) = some event := by
  simp [decodeEvent,encodeEvent,decodeStruct,decodeStr,reads_json,reads_time reads]

theorem reads_run (run : Run) : decodeRun times (encodeRun times run) = some run := by
  simp [decodeRun,encodeRun,decodeStruct,decodeStr,reads_json,reads_time reads,reads_optional_time reads]

theorem reads_memory (m : Memory) : decodeMemory times (encodeMemory times m) = some m := by
  have text : Reads MsgPack.str decodeStr := fun _ => rfl
  have skipped : ∀ (name : String) (o : Option String), (memoryEntries times m).lookup name = o.map .str →
      entryOr (memoryEntries times m) name none (decodeOption decodeStr) = some o :=
    fun name o found => reads_skipEntry found text (by simp)
  have id := @reads_entry _ (memoryEntries times m) "id" _ decodeUuid _ (by simp [memoryEntries]) (reads_uuid m.id)
  have tenantId := @reads_entry _ (memoryEntries times m) "tenant_id" _ decodeStr _
    (by simp [memoryEntries,List.lookup_cons]) (text m.scope.tenantId)
  have userId := skipped "user_id" m.scope.userId (by simp [memoryEntries,List.lookup_append,List.lookup_cons])
  have agentId := skipped "agent_id" m.scope.agentId (by simp [memoryEntries,List.lookup_append,List.lookup_cons])
  have sessionId := skipped "session_id" m.scope.sessionId
    (by simp [memoryEntries,List.lookup_append,List.lookup_cons])
  have subject := skipped "subject" m.subject (by simp [memoryEntries,List.lookup_append,List.lookup_cons])
  have content := @reads_entry _ (memoryEntries times m) "content" _ decodeStr _
    (by simp [memoryEntries,List.lookup_append,List.lookup_cons]) (text m.content)
  have importance := @reads_entry _ (memoryEntries times m) "importance" (.float m.importance) decodeFloat m.importance
    (by simp [memoryEntries,List.lookup_append,List.lookup_cons]) rfl
  have validFrom := @reads_entry _ (memoryEntries times m) "valid_from" _ (decodeTime times) _
    (by simp [memoryEntries,List.lookup_append,List.lookup_cons]) (reads_time reads m.validFrom)
  have validTo := @reads_skipEntry _ (memoryEntries times m) "valid_to" (encodeTime times) (decodeTime times) m.validTo
    (by simp [memoryEntries,List.lookup_append,List.lookup_cons]) (reads_time reads) (by simp [encodeTime])
  have state := @reads_entry _ (memoryEntries times m) "state" _ decodeMemoryState _
    (by simp [memoryEntries,List.lookup_append,List.lookup_cons]) (reads_memoryState m.state)
  have supersedes := @reads_skipEntry _ (memoryEntries times m) "supersedes" encodeUuid decodeUuid m.supersedes
    (by simp [memoryEntries,List.lookup_append,List.lookup_cons]) reads_uuid (by simp [encodeUuid])
  have sourceEventIds := @reads_skipEmpty _ (memoryEntries times m) "source_event_ids" encodeUuid decodeUuid
    m.sourceEventIds (by simp [memoryEntries,List.lookup_append,List.lookup_cons]) reads_uuid
  have version := @reads_entry _ (memoryEntries times m) "version" _ decodeNat _
    (by simp [memoryEntries,List.lookup_append,List.lookup_cons]) (reads_nat m.version)
  have createdAt := @reads_entry _ (memoryEntries times m) "created_at" _ (decodeTime times) _
    (by simp [memoryEntries,List.lookup_append,List.lookup_cons]) (reads_time reads m.createdAt)
  have updatedAt := @reads_entry _ (memoryEntries times m) "updated_at" _ (decodeTime times) _
    (by simp [memoryEntries,List.lookup_append,List.lookup_cons]) (reads_time reads m.updatedAt)
  have metadata := @reads_entryOr _ (memoryEntries times m) "metadata" _ .null _ decodeJson
    (by simp [memoryEntries,List.lookup_append,List.lookup_cons]) (reads_json m.metadata)
  have memType := @reads_entryOr _ (memoryEntries times m) "mem_type" _ "semantic" _ decodeStr
    (by simp [memoryEntries,List.lookup_append,List.lookup_cons]) (text m.memType)
  have project := skipped "project" m.project (by simp [memoryEntries,List.lookup_append,List.lookup_cons])
  simp only [decodeMemory,encodeMemory,id,tenantId,userId,agentId,sessionId,subject,content,importance,validFrom,
    validTo,state,supersedes,sourceEventIds,version,createdAt,updatedAt,metadata,memType,project,
    Option.bind_eq_bind,Option.bind_some]

theorem reads_memoryRow (row : MemoryRow) : decodeMemoryRow times (encodeMemoryRow times row) = some row := by
  obtain ⟨m,embedding⟩ := row
  cases embedding with
  | none => simp [decodeMemoryRow,encodeMemoryRow,decodeStruct,skipNone,reads_memory reads]
  | some xs =>
    have present : decodeOption (decodeList decodeFloat) (encodeList .float xs) = some (some xs) := by
      rw [decodeOption_present (by simp [encodeList]),reads_floats,Option.map_some]
    simp [decodeMemoryRow,encodeMemoryRow,decodeStruct,skipNone,reads_memory reads,present]

theorem reads_edge {edge : Edge} (source : edge.sourceMemoryId.isSome) (start : edge.validFrom.isSome)
    (stop : edge.validTo.isSome) : decodeEdge times (encodeEdge times edge) = some edge := by
  obtain ⟨id,src,relation,dst,weight,sourceMemoryId,validFrom,validTo,state,invalidatedBy⟩ := edge
  obtain ⟨m,rfl⟩ := Option.isSome_iff_exists.mp source
  obtain ⟨a,rfl⟩ := Option.isSome_iff_exists.mp start
  obtain ⟨b,rfl⟩ := Option.isSome_iff_exists.mp stop
  have uuid : ∀ i, decodeOption decodeUuid (encodeUuid i) = some (some i) := fun i => reads_optional_uuid (some i)
  have time : ∀ t, decodeOption (decodeTime times) (encodeTime times t) = some (some t) :=
    fun t => reads_optional_time reads (some t)
  cases invalidatedBy with
  | none => simp [decodeEdge,encodeEdge,decodeStruct,skipNone,decodeStr,decodeFloat,uuid,time]
  | some i => simp [decodeEdge,encodeEdge,decodeStruct,skipNone,decodeStr,decodeFloat,uuid,time]

theorem reads_runPatch_iff (patch : RunPatch) : decodeRunPatch times (encodeRunPatch times patch) = some patch ↔
    patch.result ≠ some .null ∧ patch.cursor ≠ some .null := by
  have read : decodeRunPatch times (encodeRunPatch times patch) =
      some { patch with result := heard patch.result, cursor := heard patch.cursor } := by
    simp [decodeRunPatch,encodeRunPatch,decodeStruct,reads_optional_time reads]
  rw [read,← heard_eq_iff,← heard_eq_iff]
  obtain ⟨status,result,error,cursor,startedAt,endedAt⟩ := patch
  simp

theorem edge_misread {edge : Edge} (active : times.parse "active" = none) (superseded : times.parse "superseded" = none)
    (gap : ¬ (edge.sourceMemoryId.isSome ∧ edge.validFrom.isSome ∧ edge.validTo.isSome)) :
    decodeEdge times (encodeEdge times edge) = none := by
  obtain ⟨id,src,relation,dst,weight,sourceMemoryId,validFrom,validTo,state,invalidatedBy⟩ := edge
  have untimed : decodeOption (decodeTime times) (encodeEdgeState state) = none := by
    cases state <;> simp [encodeEdgeState,decodeOption,decodeTime,decodeStr,active,superseded]
  have unnamed : decodeOption decodeUuid (encodeEdgeState state) = none := by
    cases state <;> rfl
  have uuid : ∀ i, decodeOption decodeUuid (encodeUuid i) = some (some i) := fun i => reads_optional_uuid (some i)
  have time : ∀ t, decodeOption (decodeTime times) (encodeTime times t) = some (some t) :=
    fun t => reads_optional_time reads (some t)
  have timeless : ∀ t, decodeOption decodeUuid (encodeTime times t) = none := fun _ => rfl
  rcases sourceMemoryId with _ | m
  · rcases validFrom with _ | a <;> rcases validTo with _ | b <;> rcases invalidatedBy with _ | i <;>
      simp [decodeEdge,encodeEdge,decodeStruct,skipNone,decodeStr,decodeFloat,unnamed,timeless]
  · rcases validFrom with _ | a <;> rcases validTo with _ | b <;> rcases invalidatedBy with _ | i <;>
      simp_all [decodeEdge,encodeEdge,decodeStruct,skipNone,decodeStr,decodeFloat]

/-- Reading what was written gives the request back exactly when no optional field of it gets lost. -/
theorem request_read_back_iff (active : times.parse "active" = none) (superseded : times.parse "superseded" = none)
    (request : AppRequest) : decodeRequest times (encodeRequest times request) = some request ↔ Survives request := by
  have events := reads_list (reads_event reads)
  have rows := reads_list (reads_memoryRow reads)
  cases request with
  | ingest items tenant =>
    simp [decodeRequest,encodeRequest,variant,decodeVariant,decodeStruct,Survives,events]
  | stateSet agentId key value tenant =>
    simp [decodeRequest,encodeRequest,variant,decodeVariant,decodeStruct,decodeStr,Survives,reads_json]
  | stateDelete agentId key tenant =>
    simp [decodeRequest,encodeRequest,variant,decodeVariant,decodeStruct,decodeStr,Survives]
  | semanticUpsert id content embedding metadata =>
    simp [decodeRequest,encodeRequest,variant,decodeVariant,decodeStruct,decodeStr,Survives,reads_json]
  | semanticDelete id => simp [decodeRequest,encodeRequest,variant,decodeVariant,decodeStruct,Survives]
  | memoryUpsert items => simp [decodeRequest,encodeRequest,variant,decodeVariant,decodeStruct,Survives,rows]
  | memoryDelete id => simp [decodeRequest,encodeRequest,variant,decodeVariant,decodeStruct,Survives]
  | graphAddEdge tenant edge =>
    by_cases whole : edge.sourceMemoryId.isSome ∧ edge.validFrom.isSome ∧ edge.validTo.isSome
    · have read := reads_edge reads whole.1 whole.2.1 whole.2.2
      simp [decodeRequest,encodeRequest,variant,decodeVariant,decodeStruct,Survives,read,whole]
    · have lost := edge_misread reads active superseded whole
      simp only [Survives,whole,iff_false]
      simp [decodeRequest,encodeRequest,variant,decodeVariant,decodeStruct,lost]
  | graphSupersede tenant src relation instant byEdge =>
    simp [decodeRequest,encodeRequest,variant,decodeVariant,decodeStruct,decodeStr,Survives,reads_time reads]
  | memoryExpire ids => simp [decodeRequest,encodeRequest,variant,decodeVariant,decodeStruct,Survives]
  | runCreate run =>
    simp [decodeRequest,encodeRequest,variant,decodeVariant,decodeStruct,Survives,reads_run reads]
  | runUpdate id patch updatedAt =>
    simp only [Survives,← reads_runPatch_iff reads]
    cases read : decodeRunPatch times (encodeRunPatch times patch) <;>
      simp [decodeRequest,encodeRequest,variant,decodeVariant,decodeStruct,reads_time reads,read]

end

end

/-- A time library that writes the epoch as a date and every other instant in unary. -/
def tallyText : TimeText where
  format t := if t = 0 then "1970-01-01T00:00:00Z" else
    String.ofList (List.replicate t.natAbs (if 0 < t then '+' else '-'))
  parse s :=
    if s = "1970-01-01T00:00:00Z" then some 0
    else if s.toList.all (· = '+') then some s.toList.length
    else if s.toList.all (· = '-') then some (-s.toList.length)
    else none

private theorem tallyText_parse {c : Char} {n : Nat} (mark : c = '+' ∨ c = '-') (some_marks : 0 < n) :
    tallyText.parse (String.ofList (List.replicate n c)) = some (if c = '+' then (n : Int) else -n) := by
  have undated : String.ofList (List.replicate n c) ≠ "1970-01-01T00:00:00Z" := by
    intro dated
    have texts := congrArg String.toList dated
    rw [String.toList_ofList] at texts
    have first : '1' ∈ List.replicate n c := by
      rw [texts]
      decide
    rcases mark with rfl | rfl <;> simp at first
  rcases mark with rfl | rfl <;> simp [tallyText,undated,some_marks.ne']

private theorem tallyText_reads (t : Int) : tallyText.parse (tallyText.format t) = some t := by
  by_cases zero : t = 0
  · subst zero
    rfl
  · have some_marks : 0 < t.natAbs := Int.natAbs_pos.mpr zero
    by_cases above : 0 < t
    · have read := tallyText_parse (.inl rfl) some_marks
      simp only [tallyText,zero,above,if_false,if_true] at read ⊢
      rw [read]
      congr 1
      omega
    · have read := tallyText_parse (.inr rfl) some_marks
      simp only [tallyText,zero,above,if_false] at read ⊢
      rw [read]
      simp only [Char.reduceEq,if_false]
      congr 1
      omega

/-- A relation stated over the API: known since the epoch, still true, without a source memory. -/
def openEdge : Edge where
  id := ⟨1⟩
  src := "ada"
  relation := "likes"
  dst := "tea"
  weight := 1
  sourceMemoryId := none
  validFrom := some 0
  validTo := none
  state := .active
  invalidatedBy := none

def closedEdge : Edge := { openEdge with sourceMemoryId := some ⟨2⟩, validTo := some 0 }

theorem request_read_back_closed :
    decodeRequest tallyText (encodeRequest tallyText (.graphAddEdge (some "default") closedEdge)) =
      some (.graphAddEdge (some "default") closedEdge) :=
  (request_read_back_iff tallyText_reads (by decide) (by decide) (.graphAddEdge (some "default") closedEdge)).mpr
    (by simp [Survives,closedEdge,openEdge])

/-- The time at which the open edge starts is read where its source memory is expected. -/
theorem open_edge_unreadable :
    ¬ ∀ request : AppRequest, decodeRequest tallyText (encodeRequest tallyText request) = some request := by
  intro readable
  have lost : decodeRequest tallyText (encodeRequest tallyText (.graphAddEdge (some "default") openEdge)) = none := rfl
  rw [readable] at lost
  cases lost

end Ecphoria
