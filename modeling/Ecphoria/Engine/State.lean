import Ecphoria.Memory.Indexes
import Ecphoria.Memory.Records

/-! The engine: its configuration, its stores and what one call reads from outside
them, that is, clocks, drawn identifiers, embeddings and nearest neighbours. -/
namespace Ecphoria
open Library

inductive FactValidation where
  | off | warn | strict
deriving DecidableEq,Repr

structure TenantGovernance where
  requireProvenance : Option Bool
  factValidation : Option FactValidation

structure GovernanceConfig where
  requireProvenance : Bool
  factValidation : FactValidation
  tenants : List (String × TenantGovernance)

structure EffectiveGovernance where
  requireProvenance : Bool
  factValidation : FactValidation

def EffectiveGovernance.isPermissive (rules : EffectiveGovernance) : Bool :=
  !rules.requireProvenance && rules.factValidation = .off

def GovernanceConfig.forTenant (config : GovernanceConfig) (tenantId : String) : EffectiveGovernance :=
  let own := config.tenants.lookup tenantId
  { requireProvenance := (own.bind TenantGovernance.requireProvenance).getD config.requireProvenance
    factValidation := (own.bind TenantGovernance.factValidation).getD config.factValidation }

structure CognitionConfig where
  dedupThreshold : Rat
  extraction : String
  defaultImportance : Rat
  maxMemoriesPerScope : Nat
  autoGraph : Bool
  contradictionReview : Bool

structure CoreConfig where
  cognition : CognitionConfig
  governance : GovernanceConfig
  /-- Whether an embedding provider is configured. -/
  embedding : Bool
  /-- Whether a completion provider is configured. -/
  completion : Bool

structure Engine where
  config : CoreConfig
  memories : MemoryTable
  edges : EdgeTable
  grants : GrantTable
  attachments : AttachmentTable
  episodic : EpisodicTable
  sessions : SessionTable
  state : StateTable
  runs : RunTable
  semantic : SemanticStore
  vectors : ScopedVectorIndex
  lexical : LexicalIndex
  changes : List MemoryChange

def Engine.empty (config : CoreConfig) (dimension : Nat) : Engine where
  config := config
  memories := .empty
  edges := .empty
  grants := .empty
  attachments := .empty
  episodic := .empty
  sessions := .empty
  state := .empty
  runs := .empty
  semantic := .withDimension dimension
  vectors := .withDimension dimension
  lexical := .empty
  changes := []

/-- ASCII text, with the functions that only governance, graph extraction and review call left
trivial. -/
def Env.ascii : Env where
  toLowercase := fun s => String.ofList (s.toList.map Char.toLower)
  newV5 := fun id _ => id
  validateFact := fun _ _ => []
  parseJson := fun _ => none
  jsonText := fun _ => ""
  rfc3339 := fun _ => ""

/-- The defaults of the configuration: no provider, no governance, no graph, no cap, no review. -/
def CoreConfig.default : CoreConfig where
  cognition := ⟨9 / 10,"none",1 / 2,0,false,false⟩
  governance := ⟨false,.off,[]⟩
  embedding := false
  completion := false

/-- What planning one memory reads from outside the stores. `recordedAt` is the clock of
the branch taken and `now` the clock of `Memory::new`; `matched` is the answer of the
nearest-neighbour library and `stamp` the clock of each `now()` a statement evaluates. -/
structure Draw where
  recordedAt : Int
  now : Int
  id : Uuid
  embedding : Option (List Rat)
  matched : List (Uuid × Rat)
  stamp : Uuid → Int

def Draw.plain (now : Int) (id : Uuid) : Draw := ⟨now,now,id,none,[],fun _ => now⟩

def hasProvenance (metadata : Json) (sourceEventIds : List Uuid) : Bool :=
  if !sourceEventIds.isEmpty then true
  else
    match ((metadata.get "provenance").bind (Json.get "source")).bind Json.asStr with
    | some s => !(trim s).isEmpty
    | none => false

def provenanceRequired : Error :=
  .validation ("this tenant requires provenance: set `metadata.provenance.source` (or supply                  " ++
    "`source_event_ids`) so the fact can be traced back to where it came from")

def checkGovernance (env : Env) (config : CoreConfig) (scope : MemoryScope) (subject : Option String)
    (metadata : Json) (sourceEventIds : List Uuid) : Except Error Unit :=
  let rules := config.governance.forTenant scope.tenantId
  if rules.isPermissive then .ok ()
  else if rules.requireProvenance && !hasProvenance metadata sourceEventIds then .error provenanceRequired
  else if rules.factValidation = .off then .ok ()
  else
    let errors := env.validateFact subject metadata
    if errors.isEmpty || rules.factValidation ≠ .strict then .ok ()
    else .error (.validation (String.intercalate "; " errors))

namespace Engine

def forgetIndexes (e : Engine) (id : Uuid) : Engine :=
  { e with vectors := e.vectors.delete id, lexical := e.lexical.remove id }

def changeEvent : MemoryState → String
  | .active => "upserted"
  | .superseded => "superseded"
  | .expired => "expired"
  | .pending => "proposed"

def publishMemoryChange (e : Engine) (m : Memory) : Engine :=
  { e with changes := e.changes ++
      [⟨m.id,m.scope.tenantId,m.scope.userId,changeEvent m.state,m.subject⟩] }

/-- Index the vector of an active row. A rejected vector only costs the search. -/
def indexVector (e : Engine) (row : MemoryRow) : Engine :=
  { e with vectors := match row.embedding with
    | none => e.vectors
    | some emb => (e.vectors.upsert (scopePartitionKey row.memory.scope) (row.memory.toSemanticEntry emb)).2 }

def memoryIndexSearch (e : Engine) (vector : List Rat) (scope : MemoryScope) (k : Nat)
    (matched : List (Uuid × Rat)) : Except Error (List (Memory × Rat)) :=
  match e.vectors.search (scopePartitionKey scope) vector k matched with
  | .error err => .error err
  | .ok results => .ok (results.filterMap (fun (entry,score) =>
      match e.memories.get entry.id with
      | some m => if m.state = .active then some (m,score) else none
      | none => none))

def embedMemoryContent (e : Engine) (d : Draw) : Option (List Rat) :=
  if e.config.embedding then d.embedding else none

end Engine

end Ecphoria
