import Ecphoria.Engine.Apply

/-! The calls above the cognition pipeline: distilling text and sessions, importing
documents, governed proposals, feedback, correction and forgetting. -/
namespace Ecphoria
open Library

section
variable (env : Env)

/-- The facts of a completion: the first `[` to the last `]`, read as JSON. -/
def parseExtractedFacts (text : String) : Option (List (Option String × String)) :=
  let chars := text.toList
  let opened := chars.dropWhile (· ≠ '[')
  let body := (opened.reverse.dropWhile (· ≠ ']')).reverse
  match if body.isEmpty then none else env.parseJson (String.ofList body) with
  | some (.arr items) => some (items.filterMap (fun item =>
      match ((item.get "content").bind Json.asStr).map trim with
      | some content =>
        if content.isEmpty then none
        else some (((item.get "subject").bind Json.asStr).filter (fun s => !s.isEmpty),content)
      | none => none))
  | _ => none

/-- `reply` is the answer of the completion provider, if it gave one. -/
def extractFacts (config : CoreConfig) (reply : Option String) (rawText : String) :
    List (Option String × String) :=
  if config.cognition.extraction = "llm" && config.completion then
    match reply.bind (parseExtractedFacts env) with
    | some (fact :: facts) => fact :: facts
    | _ => [(none,rawText)]
  else [(none,rawText)]

def factInput (scope : MemoryScope) (fact : Option String × String) : MemoryInput :=
  { MemoryInput.new scope fact.2 with subject := fact.1 }

def withDraws (inputs : List MemoryInput) (draws : Nat → Draw) : List (MemoryInput × Draw) :=
  inputs.zipIdx.map (fun (input,i) => (input,draws i))

def addLoop : List (MemoryInput × Draw) → Engine → List MemoryAdd → Except Error (List MemoryAdd) × Engine
  | [],e,out => (.ok out,e)
  | (input,d) :: rest,e,out =>
    match memoryAdd env e d input with
    | (.error err,e) => (.error err,e)
    | (.ok add,e) => addLoop rest e (out ++ [add])

def memoryRemember (e : Engine) (rawText : String) (scope : MemoryScope) (reply : Option String)
    (draws : Nat → Draw) : Except Error (List MemoryAdd) × Engine :=
  let inputs := (extractFacts env e.config reply rawText).map (factInput scope)
  addLoop env (withDraws inputs draws) e []

def digestLine (row : EventRow) : String :=
  let payload := String.ofList ((env.jsonText row.payload).toList.take 300)
  "- [" ++ row.source ++ "] " ++ row.eventType ++ ": " ++ payload ++ "\n"

def sessionDigest (sessionId : String) (events : List EventRow) : String :=
  (events.take 200).foldl (fun s row => s ++ digestLine env row)
    ("Session " ++ sessionId ++ " summary. Events:\n")

/-- Every fact is planned against the store as it stands: nothing is applied in between. -/
def planAll (e : Engine) : List (MemoryInput × Draw) → Except Error (List (Planned × Draw))
  | [] => .ok []
  | (input,d) :: rest =>
    match memoryPlan env e d input with
    | .error err => .error err
    | .ok planned =>
      match planAll e rest with
      | .error err => .error err
      | .ok plans => .ok ((planned,d) :: plans)

def distillInput (scope : MemoryScope) (sessionId : String) (fact : Option String × String) : MemoryInput :=
  { factInput { scope with sessionId := some sessionId } fact with memType := some "episodic" }

def distillInputs (e : Engine) (sessionId : String) (scope : MemoryScope) (reply : Option String)
    (draws : Nat → Draw) : List (MemoryInput × Draw) :=
  let events := e.episodic.recallSessionForTenant sessionId (tenantOrDefault scope.tenantId)
  if events.isEmpty then []
  else
    let facts := extractFacts env e.config reply (sessionDigest env sessionId events)
    withDraws (facts.map (distillInput scope sessionId)) draws

def sessionDistillPlan (e : Engine) (sessionId : String) (scope : MemoryScope) (reply : Option String)
    (draws : Nat → Draw) : Except Error (List (Planned × Draw)) :=
  planAll env e (distillInputs env e sessionId scope reply draws)

def applyPlans (e : Engine) (plans : List (Planned × Draw)) : Engine :=
  plans.foldl (fun e plan => memoryApplyRows env plan.2.stamp e plan.1.rows) e

def sessionDistill (e : Engine) (sessionId : String) (scope : MemoryScope) (reply : Option String)
    (draws : Nat → Draw) : Except Error (List MemoryAdd) × Engine :=
  match sessionDistillPlan env e sessionId scope reply draws with
  | .error err => (.error err,e)
  | .ok plans => (.ok (plans.map (fun plan => plan.1.add)),applyPlans env e plans)

structure DocumentIngest where
  path : String
  content : String
  metadata : Json
  validFrom : Option Int
  project : Option String

structure DocumentIngestResult where
  path : String
  chunks : Nat
  inserted : Nat
  confirmed : Nat
  superseded : Nat
  removed : Nat

def chunkMetadata (doc : DocumentIngest) (chunk : Chunk) : Json :=
  let origin := Json.obj [("ref",.str doc.path),("source",.str "document")]
  (((doc.metadata.insert "doc_path" (.str doc.path)).orInsert "provenance" origin).insert "heading_path"
    (.arr (chunk.headingPath.map .str))).insert "ordinal" (.int chunk.ordinal)

def chunkInput (doc : DocumentIngest) (scope : MemoryScope) (chunk : Chunk × Nat) : MemoryInput where
  scope := scope
  subject := some (chunk.1.subject doc.path chunk.2)
  content := chunk.1.text
  importance := none
  sourceEventIds := []
  metadata := chunkMetadata doc chunk.1
  memType := some "chunk"
  validFrom := doc.validFrom
  project := doc.project

def sweepRows (previous : List Memory) (produced : List String) (now : Int) : List MemoryRow :=
  (previous.filter (fun m => match m.subject with
    | some s => s ∉ produced
    | none => false)).map
    (fun m => ⟨{ m with state := .expired, validTo := some now, updatedAt := now },none⟩)

@[irreducible] def documentInputs (doc : DocumentIngest) (scope : MemoryScope) (opts : ChunkOptions) : List MemoryInput :=
  (chunkMarkdown doc.content opts).map (chunkInput doc scope)

def documentProduced (inputs : List MemoryInput) : List String :=
  (inputs.filterMap MemoryInput.subject).map (normalizeSubject env)

def countOutcomes (added : List MemoryAdd) (outcomes : List MemoryOutcome) : Nat :=
  added.countP (fun a => a.outcome ∈ outcomes)

/-- The previous sections are read before the batch and swept after it. -/
def documentIngest (e : Engine) (doc : DocumentIngest) (scope : MemoryScope) (opts : ChunkOptions)
    (draws : Nat → Draw) (now : Int) : Except Error DocumentIngestResult × Engine :=
  let inputs := documentInputs doc scope opts
  let previous := e.memories.findActiveByDocument env scope doc.path
  match memoryAddBatch env e (withDraws inputs draws) with
  | (.error err,e) => (.error err,e)
  | (.ok added,e) =>
    let stale := sweepRows previous (documentProduced env inputs) now
    let result : DocumentIngestResult := ⟨doc.path,inputs.length,countOutcomes added [.inserted],
      countOutcomes added [.confirmed],countOutcomes added [.superseded,.merged],stale.length⟩
    match memoryApplyRowsBatch e stale with
    | .error err => (.error err,e)
    | .ok e => (.ok result,e)

def expireOne (stamp : Uuid → Int) (e : Engine) (id : Uuid) : Engine :=
  let found := e.memories.get id
  let e := { e with memories := e.memories.expire id (stamp id) }
  let e := e.forgetIndexes id
  match found with
  | some m => { e with changes := e.changes ++ [⟨id,m.scope.tenantId,m.scope.userId,"expired",m.subject⟩] }
  | none => e

def memoryExpire (stamp : Uuid → Int) (e : Engine) (ids : List Uuid) : Engine :=
  ids.foldl (expireOne stamp) e

def memoryDelete (e : Engine) (id : Uuid) : Engine :=
  let e := e.forgetIndexes id
  { e with memories := e.memories.deleteId id }

def memoryDeleteScoped (e : Engine) (id : Uuid) (tenant : String) : Bool × Engine :=
  if (e.memories.getScoped id tenant).isSome then (true,memoryDelete e id) else (false,e)

def lookup (e : Engine) (id : Uuid) (tenant : Option String) : Option Memory :=
  match tenant with
  | some t => e.memories.getScoped id t
  | none => e.memories.get id

theorem lookup_eq_some {e : Engine} {id : Uuid} {tenant : Option String} {m : Memory}
    (found : lookup e id tenant = some m) : ∃ row ∈ e.memories.rows, row.memory = m ∧ row.id = id := by
  cases tenant with
  | none => exact MemoryTable.get_eq_some found
  | some t => exact MemoryTable.get_eq_some (Option.filter_eq_some_iff.mp found).1

def minRat (a b : Rat) : Rat := if a ≤ b then a else b

def memoryFeedbackPlan (e : Engine) (id : Uuid) (tenant : Option String) (verdict : MemoryFeedback)
    (now : Int) : Option (Memory × FeedbackAction) :=
  (lookup e id tenant).map (fun m =>
    match verdict with
    | .helpful =>
      let m := { m with
        importance := minRat (m.importance + 1 / 10) 1
        version := m.version + 1
        updatedAt := now }
      (m,.reinforce [⟨m,e.memories.getEmbedding m.id⟩])
    | .wrong | .obsolete => (m,.retire [m.id]))

def memoryFeedbackApply (stamp : Uuid → Int) (e : Engine) : FeedbackAction → Engine
  | .reinforce rows => memoryApplyRows env stamp e rows
  | .retire ids => memoryExpire stamp e ids

def memoryFeedback (e : Engine) (id : Uuid) (tenant : Option String) (verdict : MemoryFeedback) (now : Int)
    (stamp : Uuid → Int) : Option Memory × Engine :=
  match memoryFeedbackPlan e id tenant verdict now with
  | none => (none,e)
  | some (m,action) => (some m,memoryFeedbackApply env stamp e action)

def clamp (x : Rat) : Rat := if x < 0 then 0 else minRat x 1

def patchMemory (patch : MemoryPatch) (now : Int) (m : Memory) : Memory :=
  { m with
    content := patch.content.getD m.content
    importance := (patch.importance.map clamp).getD m.importance
    memType := patch.memType.getD m.memType
    metadata := patch.metadata.getD m.metadata
    version := m.version + 1
    updatedAt := now }

/-- A correction of an active memory. A changed content is embedded again; the stored vector
stays when the provider fails. -/
def memoryUpdatePlan (e : Engine) (id : Uuid) (patch : MemoryPatch) (tenant : Option String) (now : Int)
    (embedding : Option (List Rat)) : Option (Memory × List MemoryRow) :=
  ((lookup e id tenant).filter (fun m => m.state = .active)).map (fun m =>
    let changed := match patch.content with
      | some c => trim c != trim m.content
      | none => false
    let vector :=
      if changed then (if e.config.embedding then embedding.or (e.memories.getEmbedding id) else none)
      else e.memories.getEmbedding id
    (patchMemory patch now m,[⟨patchMemory patch now m,vector⟩]))

def memoryUpdate (e : Engine) (id : Uuid) (patch : MemoryPatch) (tenant : Option String) (d : Draw) :
    Option Memory × Engine :=
  match memoryUpdatePlan e id patch tenant d.now d.embedding with
  | none => (none,e)
  | some (m,rows) => (some m,memoryApplyRows env d.stamp e rows)

def memoryResolvePlan (e : Engine) (scope : MemoryScope) (subject : String) (keepId : Uuid) (now : Int) :
    Except Error (List MemoryRow) :=
  let subject := normalizeSubject env subject
  let project := (e.memories.get keepId).bind Memory.project
  let actives := e.memories.findActiveBySubject scope subject project
  if actives.any (fun m => m.id = keepId) then
    .ok ((actives.filter (fun m => m.id ≠ keepId)).map (fun m =>
      ⟨{ m with state := .superseded, validTo := some now, updatedAt := now, supersedes := some keepId },
        none⟩))
  else .error (.state ("keep_id " ++ keepId.toString ++ " is not an active memory for subject '" ++
    subject ++ "' in this scope"))

/-- A proposal is written as it is: it supersedes nothing, merges with nothing and has no vector. -/
def proposalMemory (d : Draw) (input : MemoryInput) : Memory where
  id := d.id
  scope := input.scope
  subject := input.subject
  content := input.content
  importance := clamp (input.importance.getD (1 / 2))
  validFrom := input.validFrom.getD d.now
  validTo := none
  state := .pending
  supersedes := none
  sourceEventIds := input.sourceEventIds
  version := 1
  createdAt := d.now
  updatedAt := d.now
  metadata := input.metadata
  memType := input.memType.getD "semantic"
  project := input.project

def memoryPropose (e : Engine) (d : Draw) (input : MemoryInput) : Except Error Memory × Engine :=
  let input := canonicalInput env input
  match checkGovernance env e.config input.scope input.subject input.metadata input.sourceEventIds with
  | .error err => (.error err,e)
  | .ok () =>
    let m := proposalMemory d input
    let e := { e with memories := e.memories.upsertRaw ⟨m,none⟩ }
    (.ok m,e.publishMemoryChange m)

def pendingOf (e : Engine) (id : Uuid) (tenant : String) : Option Memory :=
  (e.memories.getScoped id tenant).filter (fun m => m.state = .pending)

theorem pendingOf_found {e : Engine} {id : Uuid} {tenant : String} {m : Memory} (found : pendingOf e id tenant = some m) :
    e.memories.get id = some m ∧ m.state = .pending := by
  obtain ⟨owned,pending⟩ := Option.filter_eq_some_iff.mp found
  exact ⟨(Option.filter_eq_some_iff.mp owned).1,of_decide_eq_true pending⟩

def retireMetadata (decision : String) (acceptedAs : Option Uuid) (now : Int) (metadata : Json) : Json :=
  let decided := (metadata.insert "review_decision" (.str decision)).insert "review_decided_at"
    (.str (env.rfc3339 now))
  match acceptedAs with
  | some accepted => decided.insert "review_accepted_as" (.str accepted.toString)
  | none => decided

def retiredProposal (proposal : Memory) (decision : String) (acceptedAs : Option Uuid) (now : Int) : Memory :=
  { proposal with
    state := .expired
    validTo := some now
    updatedAt := now
    version := proposal.version + 1
    metadata := retireMetadata env decision acceptedAs now proposal.metadata }

def retireProposal (e : Engine) (proposal : Memory) (decision : String) (acceptedAs : Option Uuid)
    (now : Int) : Engine :=
  let m := retiredProposal env proposal decision acceptedAs now
  let e := { e with memories := e.memories.upsertRaw ⟨m,none⟩ }
  e.publishMemoryChange m

def proposalInput (proposal : Memory) : MemoryInput where
  scope := proposal.scope
  subject := proposal.subject
  content := proposal.content
  importance := some proposal.importance
  sourceEventIds := proposal.sourceEventIds
  metadata := proposal.metadata
  memType := some proposal.memType
  validFrom := some proposal.validFrom
  project := proposal.project

/-- An accepted proposal goes through the cognition path; its own row is retired at `now`. -/
def memoryAccept (e : Engine) (id : Uuid) (tenant : String) (d : Draw) (now : Int) :
    Except Error (Option MemoryAdd) × Engine :=
  match pendingOf e id tenant with
  | none => (.ok none,e)
  | some proposal =>
    match memoryAdd env e d (proposalInput proposal) with
    | (.error err,e) => (.error err,e)
    | (.ok added,e) => (.ok (some added),retireProposal env e proposal "accepted" (some added.memory.id) now)

def memoryReject (e : Engine) (id : Uuid) (tenant : String) (now : Int) : Bool × Engine :=
  match pendingOf e id tenant with
  | none => (false,e)
  | some proposal => (true,retireProposal env e proposal "rejected" none now)

def memoryAsOf (e : Engine) (scope : MemoryScope) (subject : String) (instant : Int) : Option Memory :=
  e.memories.asOf scope (normalizeSubject env subject) instant

end

end Ecphoria
