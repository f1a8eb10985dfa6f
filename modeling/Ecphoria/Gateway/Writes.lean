import Ecphoria.Cluster.Members
import Ecphoria.Engine.Ingest
import Ecphoria.Engine.Upkeep
import Ecphoria.Ingest.Webhook

/-! The write requests of the front ends in a cluster. Some handlers plan on the node and
write the rows to the log; the others call the engine of the node they run on. A REST
write is brought to the leader first, a tool or RPC call runs where it arrives. -/
namespace Ecphoria
open Library

/-- How a write is answered; `failed` passes on the error of the engine, `unreplicated` that of the coordinator. -/
inductive Answer where
  | ok
  | refused (status : Nat) (code message : String)
  | status (code : Nat) (message : String)
  | toolError (message : String)
  | failed (failure : Failure)
  | unreplicated
deriving DecidableEq,Repr

/-- What the front ends use from outside: the ids they parse, the letters of a slug, the promotion rules, and
the leaders a follower can forward to. -/
structure Gateway where
  parseUuid : String → Option Uuid
  isAlphanumeric : Char → Bool
  promotion : PromotionConfig
  peerHttp : NodeId → Bool

/-- The tenant of the credential, and the one the request names in its header. -/
structure Caller where
  tenant : Option String
  header : Option String

structure ScopeFields where
  tenantId : Option String
  userId : Option String
  agentId : Option String
  sessionId : Option String

def scopeWithHeader (caller : Caller) (fields : ScopeFields) : MemoryScope :=
  ⟨(caller.tenant.or (fields.tenantId.or caller.header)).getD "default",fields.userId,fields.agentId,fields.sessionId⟩

structure MemoryAddRequest where
  content : String
  subject : Option String
  importance : Option Rat
  fields : ScopeFields
  metadata : Option Json
  memType : Option String
  project : Option String
  validFrom : Option Int

def MemoryAddRequest.input (req : MemoryAddRequest) (caller : Caller) : MemoryInput where
  scope := scopeWithHeader caller req.fields
  subject := req.subject
  content := req.content
  importance := req.importance
  sourceEventIds := []
  metadata := req.metadata.getD (.obj [])
  memType := req.memType
  validFrom := req.validFrom
  project := req.project

structure DocumentIngestRequest where
  path : String
  content : String
  validFrom : Option Int
  metadata : Option Json
  targetChars : Option Nat
  project : Option String
  fields : ScopeFields

def ChunkOptions.default : ChunkOptions := ⟨1500,3000⟩

def DocumentIngestRequest.options (req : DocumentIngestRequest) : ChunkOptions :=
  match req.targetChars.filter (fun n => 0 < n) with
  | some n => ⟨n,max ChunkOptions.default.maxChars (n * 2)⟩
  | none => .default

def DocumentIngestRequest.document (req : DocumentIngestRequest) : DocumentIngest :=
  ⟨req.path,req.content,req.metadata.getD (.obj []),req.validFrom,req.project⟩

structure DocumentPruneRequest where
  project : String
  keepPaths : List String
  fields : ScopeFields

structure MemoryExternalUpsertRequest where
  externalId : String
  source : String
  content : String
  subject : Option String
  importance : Option Rat
  metadata : Option Json
  memType : Option String
  validFrom : Option Int
  project : Option String
  fields : ScopeFields

def MemoryExternalUpsertRequest.input (req : MemoryExternalUpsertRequest) (caller : Caller) : MemoryInput where
  scope := scopeWithHeader caller req.fields
  subject := some (req.subject.getD ("ext:" ++ req.source ++ ":" ++ req.externalId))
  content := req.content
  importance := req.importance
  sourceEventIds := []
  metadata := ((req.metadata.getD (.obj [])).insert "external_id" (.str req.externalId)).insert "source" (.str req.source)
  memType := req.memType
  validFrom := req.validFrom
  project := req.project

def MemoryPatch.isEmpty (patch : MemoryPatch) : Bool :=
  patch.content.isNone && patch.importance.isNone && patch.memType.isNone && patch.metadata.isNone

/-- Deleting for a caller: only its own rows, unless it has no tenant. -/
def deleteFor (e : Engine) (id : Uuid) : Option String → Bool × Engine
  | some tenant => memoryDeleteScoped e id tenant
  | none => (true,memoryDelete e id)

def blank (s : String) : Bool := (trim s).isEmpty

namespace Cluster

def engine (c : Cluster) (i : NodeId) : Engine := (c.nodes i).engine

def setEngine (c : Cluster) (i : NodeId) (e : Engine) : Cluster := c.setNode i { c.nodes i with engine := e }

section
variable (env : Env) (readings : Nat → Reading) (c : Cluster) (i : NodeId)

def propose (requests : List AppRequest) : Answer × Cluster :=
  match c.clientWrites env readings i requests with
  | (true,c) => (.ok,c)
  | (false,c) => (.unreplicated,c)

def proposePlanned : Except Error Planned → Answer × Cluster
  | .error err => (.failed (.error err),c)
  | .ok planned => c.propose env readings i [.memoryUpsert planned.rows]

end

def called {α : Type} (c : Cluster) (i : NodeId) : Except Error α × Engine → Answer × Cluster
  | (.ok _,e) => (.ok,c.setEngine i e)
  | (.error err,e) => (.failed (.error err),c.setEngine i e)

/-- A call of the engine that answers whether it found its target. -/
def found {α : Type} (c : Cluster) (i : NodeId) (missing : Answer) : Option α × Engine → Answer × Cluster
  | (some _,e) => (.ok,c.setEngine i e)
  | (none,e) => (missing,c.setEngine i e)

end Cluster

section
variable (env : Env) (g : Gateway) (readings : Nat → Reading) (c : Cluster) (i : NodeId) (caller : Caller)

namespace Rest

def missingField (message : String) : Answer := .refused 400 "MISSING_FIELD" message

def invalidId (id : String) : Answer := .refused 400 "INVALID_ID" ("'" ++ id ++ "' is not a valid memory id")

def notFound (id : String) : Answer := .refused 404 "NOT_FOUND" ("memory '" ++ id ++ "' not found")

def notPending (id : String) : Answer :=
  .refused 404 "NOT_PENDING" ("no pending proposal " ++ id ++ " for this tenant")

def memoryAdd (req : MemoryAddRequest) (d : Draw) : Answer × Cluster :=
  if blank req.content then (missingField "content is required",c)
  else c.proposePlanned env readings i (memoryPlan env (c.engine i) d (req.input caller))

def maxBatchMemories : Nat := 10000

def addEach (c : Cluster) : List (MemoryInput × Draw) → Answer × Cluster
  | [] => (.ok,c)
  | (input,d) :: rest =>
    match c.proposePlanned env readings i (memoryPlan env (c.engine i) d input) with
    | (.ok,c) => addEach c rest
    | answered => answered

def memoryAddBatch (reqs : List MemoryAddRequest) (draws : Nat → Draw) : Answer × Cluster :=
  if reqs.isEmpty then (missingField "memories must not be empty",c)
  else if maxBatchMemories < reqs.length then
    (.refused 413 "BATCH_TOO_LARGE"
      (toString reqs.length ++ " memories exceeds the " ++ toString maxBatchMemories ++ " limit"),c)
  else
    match reqs.findIdx? (fun req => blank req.content) with
    | some k => (missingField ("memories[" ++ toString k ++ "].content is required"),c)
    | none =>
      let inputs := reqs.map (fun req => { req.input caller with validFrom := none })
      addEach env readings i c (withDraws inputs draws)

def memoryUpdate (id : String) (patch : MemoryPatch) (d : Draw) : Answer × Cluster :=
  match g.parseUuid id with
  | none => (invalidId id,c)
  | some uuid =>
    if patch.isEmpty then
      (.refused 400 "EMPTY_PATCH" "provide at least one of content / importance / mem_type / metadata",c)
    else
      match memoryUpdatePlan (c.engine i) uuid patch caller.tenant d.now d.embedding with
      | none => (notFound id,c)
      | some (_,rows) => c.propose env readings i [.memoryUpsert rows]

def memoryDelete (id : String) : Answer × Cluster :=
  match g.parseUuid id with
  | none => (invalidId id,c)
  | some uuid =>
    match deleteFor (c.engine i) uuid caller.tenant with
    | (true,e) => (.ok,c.setEngine i e)
    | (false,e) => (notFound id,c.setEngine i e)

def documentIngest (req : DocumentIngestRequest) (draws : Nat → Draw) (now : Int) : Answer × Cluster :=
  if blank req.path then (missingField "path is required",c)
  else if blank req.content then (missingField "content is required",c)
  else c.called i (Ecphoria.documentIngest env (c.engine i) req.document (scopeWithHeader caller req.fields) req.options
    draws now)

def documentPrune (req : DocumentPruneRequest) (now : Int) : Answer × Cluster :=
  if blank req.project then (missingField "project is required",c)
  else if req.keepPaths.isEmpty then
    (missingField "keep_paths must not be empty — refusing to expire an entire project",c)
  else c.called i (Ecphoria.documentPrune env (c.engine i) (scopeWithHeader caller req.fields) req.project req.keepPaths
    now)

def memoryPropose (req : MemoryAddRequest) (d : Draw) : Answer × Cluster :=
  if blank req.content then (missingField "content is required",c)
  else c.called i (Ecphoria.memoryPropose env (c.engine i) d (req.input caller))

def proposalTenant : String := (scopeWithHeader caller ⟨none,none,none,none⟩).tenantId

def pendingAccept (id : String) (d : Draw) (now : Int) : Answer × Cluster :=
  match g.parseUuid id with
  | none => (invalidId id,c)
  | some uuid =>
    match memoryAccept env (c.engine i) uuid (proposalTenant caller) d now with
    | (.error err,e) => (.failed (.error err),c.setEngine i e)
    | (.ok added,e) => c.found i (notPending id) (added,e)

def pendingReject (id : String) (now : Int) : Answer × Cluster :=
  match g.parseUuid id with
  | none => (invalidId id,c)
  | some uuid =>
    match memoryReject env (c.engine i) uuid (proposalTenant caller) now with
    | (true,e) => (.ok,c.setEngine i e)
    | (false,e) => (notPending id,c.setEngine i e)

def memoryUpsertByExternalId (req : MemoryExternalUpsertRequest) (d : Draw) : Answer × Cluster :=
  if blank req.externalId then (missingField "external_id is required",c)
  else if blank req.content then (missingField "content is required",c)
  else c.called i (Ecphoria.memoryAdd env (c.engine i) d (req.input caller))

/-- What a webhook needs beside its body: the refusal of the signature check, if it refuses, and what ingesting
and promoting draw. -/
structure WebhookDraw where
  unsigned : Option (String × String)
  stamp : EventStamp
  embedder : Embedder
  draws : Nat → Draw

def ingestFor (e : Engine) (embedder : Embedder) (events : List Event) : Option String → Except Failure Nat × Engine
  | some tenant => ingestForTenant env e embedder events tenant
  | none => ingest env e embedder events

def webhook (source : String) (body : Except String Json) (drawn : WebhookDraw) : Answer × Cluster :=
  match drawn.unsigned with
  | some (code,message) => (.refused 401 code message,c)
  | none =>
    match body with
    | .error message => (.refused 400 "INVALID_JSON" message,c)
    | .ok payload =>
      let events := normalizeWebhook drawn.stamp source payload
      match ingestFor env (c.engine i) drawn.embedder events caller.tenant with
      | (.error failure,e) => (.failed failure,c.setEngine i e)
      | (.ok _,e) =>
        let (_,e) := promoteEvents env g.isAlphanumeric e g.promotion (caller.tenant.getD "default") events drawn.draws
        (.ok,c.setEngine i e)

end Rest

inductive RestWrite where
  | memoryAdd (req : MemoryAddRequest) (d : Draw)
  | memoryAddBatch (reqs : List MemoryAddRequest) (draws : Nat → Draw)
  | memoryUpdate (id : String) (patch : MemoryPatch) (d : Draw)
  | memoryDelete (id : String)
  | documentIngest (req : DocumentIngestRequest) (draws : Nat → Draw) (now : Int)
  | documentPrune (req : DocumentPruneRequest) (now : Int)
  | memoryPropose (req : MemoryAddRequest) (d : Draw)
  | pendingAccept (id : String) (d : Draw) (now : Int)
  | pendingReject (id : String) (now : Int)
  | memoryUpsertByExternalId (req : MemoryExternalUpsertRequest) (d : Draw)
  | webhook (source : String) (body : Except String Json) (drawn : Rest.WebhookDraw)

def RestWrite.handle : RestWrite → Answer × Cluster
  | .memoryAdd req d => Rest.memoryAdd env readings c i caller req d
  | .memoryAddBatch reqs draws => Rest.memoryAddBatch env readings c i caller reqs draws
  | .memoryUpdate id patch d => Rest.memoryUpdate env g readings c i caller id patch d
  | .memoryDelete id => Rest.memoryDelete g c i caller id
  | .documentIngest req draws now => Rest.documentIngest env c i caller req draws now
  | .documentPrune req now => Rest.documentPrune env c i caller req now
  | .memoryPropose req d => Rest.memoryPropose env c i caller req d
  | .pendingAccept id d now => Rest.pendingAccept env g c i caller id d now
  | .pendingReject id now => Rest.pendingReject env g c i caller id now
  | .memoryUpsertByExternalId req d => Rest.memoryUpsertByExternalId env c i caller req d
  | .webhook source body drawn => Rest.webhook env g c i caller source body drawn

/-- `require_leader_for_writes`: where a write that arrives at a node is handled. -/
def requireLeaderForWrites : Except Answer NodeId :=
  match c.leader with
  | none => .error (.refused 503 "no_leader" "No leader elected yet. Retry later.")
  | some leader =>
    if leader = i then .ok i
    else if g.peerHttp leader then .ok leader
    else .error (.refused 307 "not_leader"
      "This node is not the leader. Retry on the leader node, or configure cluster.peer_http so followers can forward writes for you.")

def restWrite (write : RestWrite) : Answer × Cluster :=
  match requireLeaderForWrites g c i with
  | .error answer => (answer,c)
  | .ok home => write.handle env g readings c home caller

end

def Json.asArr : Json → Option (List Json)
  | .arr items => some items
  | _ => none

def Json.asNumber : Json → Option Rat
  | .int n => some n
  | .float x => some x
  | _ => none

def MemoryFeedback.fromStrLoose (env : Env) (s : String) : Option MemoryFeedback :=
  match env.toLowercase s with
  | "helpful" | "useful" | "up" => some .helpful
  | "wrong" | "incorrect" | "down" => some .wrong
  | "obsolete" | "stale" | "outdated" => some .obsolete
  | _ => none

def payloadEvent (source : String) (payload : Json) (stamp : EventStamp) : Event :=
  stamp.event source (((payload.get "event_type").bind Json.asStr).getD "unknown") payload

def payloadEvents (source : String) (payloads : List Json) (stamps : Nat → EventStamp) : List Event :=
  payloads.zipIdx.map (fun (payload,k) => payloadEvent source payload (stamps k))

inductive WriteTool where
  | ingest | setState | addMemory | deleteMemory | updateMemory | remember | linkMemory | memoryFeedback
deriving DecidableEq,Repr

/-- What a tool call draws, and the answer of the completion provider. -/
structure ToolDraw where
  draws : Nat → Draw
  stamps : Nat → EventStamp
  reply : Option String

namespace Mcp

def text (args : Json) (k : String) : Option String := (args.get k).bind Json.asStr

def number (args : Json) (k : String) : Option Rat := (args.get k).bind Json.asNumber

def scopedFor (args : Json) (tenant : Option String) : MemoryScope :=
  ⟨tenant.getD ((text args "tenant_id").getD "default"),text args "user_id",text args "agent_id",text args "session_id"⟩

section
variable (env : Env) (g : Gateway) (readings : Nat → Reading) (c : Cluster) (i : NodeId) (tenant : Option String)
  (args : Json) (drawn : ToolDraw)

def ingest : Answer × Cluster :=
  match text args "source",(args.get "events").bind Json.asArr with
  | none,_ => (.toolError "missing 'source' parameter",c)
  | some _,none => (.toolError "missing 'events' parameter",c)
  | some source,some payloads => c.propose env readings i [.ingest (payloadEvents source payloads drawn.stamps) tenant]

def setState : Answer × Cluster :=
  match text args "agent_id",text args "key",args.get "value" with
  | none,_,_ => (.toolError "missing 'agent_id'",c)
  | some _,none,_ => (.toolError "missing 'key'",c)
  | some _,some _,none => (.toolError "missing 'value'",c)
  | some agentId,some key,some value => c.propose env readings i [.stateSet agentId key value tenant]

def memoryInput (content : String) : MemoryInput where
  scope := scopedFor args tenant
  subject := text args "subject"
  content := content
  importance := number args "importance"
  sourceEventIds := []
  metadata := .obj []
  memType := text args "mem_type"
  validFrom := none
  project := text args "project"

def addMemory : Answer × Cluster :=
  match text args "content" with
  | none => (.toolError "missing 'content' parameter",c)
  | some content =>
    c.proposePlanned env readings i (memoryPlan env (c.engine i) (drawn.draws 0) (memoryInput tenant args content))

/-- The memory a tool names by its `id`. -/
def target : Except Answer Uuid :=
  match text args "id" with
  | none => .error (.toolError "missing 'id' parameter")
  | some id =>
    match g.parseUuid id with
    | none => .error (.toolError "invalid 'id'")
    | some uuid => .ok uuid

def deleteMemory : Answer × Cluster :=
  match target g args with
  | .error answer => (answer,c)
  | .ok uuid =>
    if tenant.any (fun t => ((c.engine i).memories.getScoped uuid t).isNone) then (.toolError "memory not found",c)
    else c.propose env readings i [.memoryDelete uuid]

def patch : MemoryPatch := ⟨text args "content",number args "importance",text args "mem_type",args.get "metadata"⟩

def updateMemory : Answer × Cluster :=
  match target g args with
  | .error answer => (answer,c)
  | .ok uuid =>
    if (patch args).isEmpty then (.toolError "provide at least one of content/importance/mem_type/metadata",c)
    else
      let d := drawn.draws 0
      match memoryUpdatePlan (c.engine i) uuid (patch args) tenant d.now d.embedding with
      | none => (.toolError "memory not found",c)
      | some (_,rows) => c.propose env readings i [.memoryUpsert rows]

/-- `memory_remember_plan`: every fact is planned before any is written. -/
def remember : Answer × Cluster :=
  match text args "text" with
  | none => (.toolError "missing 'text' parameter",c)
  | some raw =>
    let e := c.engine i
    let inputs := (extractFacts env e.config drawn.reply raw).map (factInput (scopedFor args tenant))
    match planAll env e (withDraws inputs drawn.draws) with
    | .error err => (.failed (.error err),c)
    | .ok plans => c.propose env readings i (plans.map (fun plan => .memoryUpsert plan.1.rows))

def linkedEdge (src relation dst : String) (stamp : EventStamp) : Edge where
  id := stamp.id
  src := src
  relation := relation
  dst := dst
  weight := 1
  sourceMemoryId := none
  validFrom := some stamp.now
  validTo := none
  state := .active
  invalidatedBy := none

def linkMemory : Answer × Cluster :=
  match text args "src",text args "relation",text args "dst" with
  | none,_,_ => (.toolError "missing 'src' parameter",c)
  | some _,none,_ => (.toolError "missing 'relation' parameter",c)
  | some _,some _,none => (.toolError "missing 'dst' parameter",c)
  | some src,some relation,some dst =>
    let owner := some (tenant.getD "default")
    let stamp := drawn.stamps 0
    let closing := if ((args.get "supersede").bind Json.asBool).getD false then
      [AppRequest.graphSupersede owner src relation stamp.now (some stamp.id)] else []
    c.propose env readings i (closing ++ [.graphAddEdge owner (linkedEdge src relation dst stamp)])

def memoryFeedback : Answer × Cluster :=
  match target g args with
  | .error answer => (answer,c)
  | .ok uuid =>
    match (text args "verdict").bind (MemoryFeedback.fromStrLoose env) with
    | none => (.toolError "verdict must be one of helpful|wrong|obsolete",c)
    | some verdict =>
      match memoryFeedbackPlan (c.engine i) uuid tenant verdict (drawn.draws 0).now with
      | none => (.toolError "memory not found",c)
      | some (_,.reinforce rows) => c.propose env readings i [.memoryUpsert rows]
      | some (_,.retire ids) => c.propose env readings i [.memoryExpire ids]

/-- `call_tool` for a tool that writes. -/
def callTool : WriteTool → Answer × Cluster
  | .ingest => ingest env readings c i tenant args drawn
  | .setState => setState env readings c i tenant args
  | .addMemory => addMemory env readings c i tenant args drawn
  | .deleteMemory => deleteMemory env g readings c i tenant args
  | .updateMemory => updateMemory env g readings c i tenant args drawn
  | .remember => remember env readings c i tenant args drawn
  | .linkMemory => linkMemory env readings c i tenant args drawn
  | .memoryFeedback => memoryFeedback env g readings c i tenant args drawn

end

end Mcp

structure RpcScope where
  userId : String
  agentId : String
  sessionId : String

inductive GrpcWrite where
  | ingest (source : String) (payloads : List Json) (stamps : Nat → EventStamp) (embedder : Embedder)
  | setState (agentId key : String) (value : Option Json) (now : Int)
  | addMemory (scope : RpcScope) (subject : Option String) (content : String) (importance : Option Rat) (d : Draw)
  | updateMemory (id : String) (patch : MemoryPatch) (d : Draw)
  | deleteMemory (id : String)

namespace Grpc

def scopeFrom (scope : RpcScope) (tenant : Option String) : MemoryScope :=
  let named (s : String) : Option String := if s.isEmpty then none else some s
  ⟨tenant.getD "default",named scope.userId,named scope.agentId,named scope.sessionId⟩

def invalidArgument (message : String) : Answer := .status 3 message

def notFound (message : String) : Answer := .status 5 message

section
variable (env : Env) (g : Gateway) (c : Cluster) (i : NodeId) (tenant : Option String)

def ingest (source : String) (payloads : List Json) (stamps : Nat → EventStamp) (embedder : Embedder) : Answer × Cluster :=
  match Rest.ingestFor env (c.engine i) embedder (payloadEvents source payloads stamps) tenant with
  | (.error failure,e) => (.failed failure,c.setEngine i e)
  | (.ok _,e) => (.ok,c.setEngine i e)

def setState (agentId key : String) (value : Option Json) (now : Int) : Answer × Cluster :=
  let e := c.engine i
  let (_,state) := e.state.set (stateAgent tenant agentId) key (value.getD .null) now
  (.ok,c.setEngine i { e with state := state })

def addMemory (scope : RpcScope) (subject : Option String) (content : String) (importance : Option Rat) (d : Draw) :
    Answer × Cluster :=
  let input := { MemoryInput.new (scopeFrom scope tenant) content with subject := subject, importance := importance }
  c.called i (memoryAdd env (c.engine i) d input)

def updateMemory (id : String) (patch : MemoryPatch) (d : Draw) : Answer × Cluster :=
  match g.parseUuid id with
  | none => (invalidArgument "invalid memory id",c)
  | some uuid =>
    if patch.isEmpty then (invalidArgument "provide at least one of content/importance/mem_type/metadata",c)
    else c.found i (notFound "memory not found") (memoryUpdate env (c.engine i) uuid patch tenant d)

/-- Whether a row was deleted is part of the answer, which is no error either way. -/
def deleteMemory (id : String) : Answer × Cluster :=
  match g.parseUuid id with
  | none => (invalidArgument "invalid memory id",c)
  | some uuid => (.ok,c.setEngine i (deleteFor (c.engine i) uuid tenant).2)

end

end Grpc

section
variable (env : Env) (g : Gateway) (c : Cluster) (i : NodeId) (tenant : Option String)

def GrpcWrite.handle : GrpcWrite → Answer × Cluster
  | .ingest source payloads stamps embedder => Grpc.ingest env c i tenant source payloads stamps embedder
  | .setState agentId key value now => Grpc.setState c i tenant agentId key value now
  | .addMemory scope subject content importance d => Grpc.addMemory env c i tenant scope subject content importance d
  | .updateMemory id patch d => Grpc.updateMemory env g c i tenant id patch d
  | .deleteMemory id => Grpc.deleteMemory g c i tenant id

end

end Ecphoria
