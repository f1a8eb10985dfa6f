import Ecphoria.Data

/-! The records of the memory store: scopes, bi-temporal memories, graph edges and
the inputs and outcomes of cognition. -/
namespace Ecphoria

/-- Library functions the engine calls and does not define. -/
structure Env where
  toLowercase : String → String
  newV5 : Uuid → String → Uuid
  validateFact : Option String → Json → List String
  parseJson : String → Option Json
  jsonText : Json → String
  rfc3339 : Int → String

structure MemoryScope where
  tenantId : String
  userId : Option String
  agentId : Option String
  sessionId : Option String
deriving DecidableEq,Repr

def tenantOrDefault (tenant : String) : String := if tenant.isEmpty then "default" else tenant

namespace MemoryScope

def tenant (tenantId : String) : MemoryScope := ⟨tenantId,none,none,none⟩

def withDefaultTenant (scope : MemoryScope) : MemoryScope :=
  { scope with tenantId := tenantOrDefault scope.tenantId }

/-- The row filter that `where_clause` writes: an absent part matches only `NULL`. -/
def matchesRow (scope row : MemoryScope) : Bool :=
  row.tenantId = tenantOrDefault scope.tenantId && row.userId = scope.userId &&
    row.agentId = scope.agentId && row.sessionId = scope.sessionId

theorem matchesRow_iff (scope row : MemoryScope) :
    scope.matchesRow row = true ↔ row = scope.withDefaultTenant := by
  rcases scope with ⟨tenant,user,agent,session⟩
  rcases row with ⟨tenant',user',agent',session'⟩
  simp [matchesRow,withDefaultTenant,and_assoc]

end MemoryScope

theorem tenantOrDefault_tenantOrDefault (tenant : String) :
    tenantOrDefault (tenantOrDefault tenant) = tenantOrDefault tenant := by
  unfold tenantOrDefault
  by_cases empty : tenant.isEmpty
  · rw [if_pos empty]
    decide
  · simp [empty]

@[simp] theorem MemoryScope.withDefaultTenant_withDefaultTenant (scope : MemoryScope) :
    scope.withDefaultTenant.withDefaultTenant = scope.withDefaultTenant := by
  simp [withDefaultTenant,tenantOrDefault_tenantOrDefault]

/-- The partition of the vector index a scope owns. Unset parts and empty ones meet here. -/
def scopePartitionKey (scope : MemoryScope) : String :=
  tenantOrDefault scope.tenantId ++ "\x1f" ++ scope.userId.getD "" ++ "\x1f" ++
    scope.agentId.getD "" ++ "\x1f" ++ scope.sessionId.getD ""

inductive MemoryState where
  | active | superseded | expired | pending
deriving DecidableEq,Repr

structure Memory where
  id : Uuid
  scope : MemoryScope
  subject : Option String
  content : String
  importance : Rat
  validFrom : Int
  validTo : Option Int
  state : MemoryState
  supersedes : Option Uuid
  sourceEventIds : List Uuid
  version : Nat
  createdAt : Int
  updatedAt : Int
  metadata : Json
  memType : String
  project : Option String

def Memory.new (id : Uuid) (now : Int) (scope : MemoryScope) (content : String) : Memory where
  id := id
  scope := scope
  subject := none
  content := content
  importance := 1 / 2
  validFrom := now
  validTo := none
  state := .active
  supersedes := none
  sourceEventIds := []
  version := 1
  createdAt := now
  updatedAt := now
  metadata := .obj []
  memType := "semantic"
  project := none

structure SemanticEntry where
  id : Uuid
  content : String
  embedding : List Rat
  metadata : Json

def Json.ofOption : Option String → Json
  | some s => .str s
  | none => .null

def Memory.toSemanticEntry (m : Memory) (embedding : List Rat) : SemanticEntry where
  id := m.id
  content := m.content
  embedding := embedding
  metadata := .obj [("agent_id",.ofOption m.scope.agentId),("kind",.str "memory"),
    ("session_id",.ofOption m.scope.sessionId),("subject",.ofOption m.subject),
    ("tenant_id",.str m.scope.tenantId),("user_id",.ofOption m.scope.userId)]

structure MemoryRow where
  memory : Memory
  embedding : Option (List Rat)

def MemoryRow.id (row : MemoryRow) : Uuid := row.memory.id

/-- The row as the table returns it: the timestamp columns keep microseconds. -/
def MemoryRow.stored (row : MemoryRow) : MemoryRow :=
  { row with memory := { row.memory with
      validFrom := micros row.memory.validFrom
      validTo := row.memory.validTo.map micros
      createdAt := micros row.memory.createdAt
      updatedAt := micros row.memory.updatedAt } }

inductive EdgeState where
  | active | superseded
deriving DecidableEq,Repr

structure Edge where
  id : Uuid
  src : String
  relation : String
  dst : String
  weight : Rat
  sourceMemoryId : Option Uuid
  validFrom : Option Int
  validTo : Option Int
  state : EdgeState
  invalidatedBy : Option Uuid
deriving DecidableEq,Repr

structure EdgeRow where
  edge : Edge
  tenantId : String
  createdAt : Int
deriving DecidableEq,Repr

def EdgeRow.id (row : EdgeRow) : Uuid := row.edge.id

structure MemoryInput where
  scope : MemoryScope
  subject : Option String
  content : String
  importance : Option Rat
  sourceEventIds : List Uuid
  metadata : Json
  memType : Option String
  validFrom : Option Int
  project : Option String

def MemoryInput.new (scope : MemoryScope) (content : String) : MemoryInput where
  scope := scope
  subject := none
  content := content
  importance := none
  sourceEventIds := []
  metadata := .obj []
  memType := none
  validFrom := none
  project := none

structure MemoryPatch where
  content : Option String
  importance : Option Rat
  memType : Option String
  metadata : Option Json

inductive MemoryOutcome where
  | inserted | confirmed | superseded | merged | conflict
deriving DecidableEq,Repr

structure MemoryAdd where
  memory : Memory
  outcome : MemoryOutcome

inductive MemoryFeedback where
  | helpful | wrong | obsolete
deriving DecidableEq,Repr

inductive FeedbackAction where
  | reinforce (rows : List MemoryRow)
  | retire (ids : List Uuid)

structure MemoryChange where
  id : Uuid
  tenantId : String
  userId : Option String
  event : String
  subject : Option String
deriving DecidableEq,Repr

section Text
variable (env : Env)

def normalizeSubject (subject : String) : String :=
  env.toLowercase (String.intercalate " " (splitWhitespace subject))

/-- The subject as every write path keys it: normalised, and absent when blank. -/
def canonicalSubject (subject : Option String) : Option String :=
  (subject.map (normalizeSubject env)).filter (fun s => !s.isEmpty)

def verbs : List String :=
  ["likes","is","are","has","have","uses","knows","owns","prefers","loves","hates","wants","plays",
    "teaches","visited","met","speaks","joined","manages","leads","drives","founded","created",
    "wrote","enjoys","dislikes","needs","avoids"]

def placedVerbs : List String :=
  ["works","lives","moved","born","based","studied","studies","traveled"]

def relationAt (words : List String) (i : Nat) (word : String) : Option (String × Nat) :=
  let lw := env.toLowercase word
  let next := words.getD (i + 1) ""
  if lw ∈ verbs then some (lw,i + 1)
  else if lw ∈ placedVerbs && ["at","in","to","from"].any (eqIgnoreAsciiCase next) then
    some (lw ++ "_" ++ env.toLowercase next,i + 2)
  else if lw = "married" && eqIgnoreAsciiCase next "to" then some ("married_to",i + 2)
  else none

def tripleAt (words : List String) (i : Nat) (word : String) : Option (String × String × String) :=
  if i = 0 || words.length ≤ i + 1 then none
  else do
    let (relation,start) ← relationAt env words i word
    let subj := String.intercalate " " (words.take i)
    let obj := String.intercalate " " (words.drop start)
    if subj.isEmpty || obj.isEmpty then none else some (subj,relation,obj)

def extractTriples (text : String) : List (String × String × String) :=
  let sentences := text.toList.splitOnP (fun c => c ∈ ['.','\n',';','!','?'])
  sentences.flatMap (fun sentence =>
    let words := splitWhitespace (String.ofList sentence)
    if words.length < 3 then []
    else words.zipIdx.filterMap (fun (word,i) => tripleAt env words i word))

end Text

end Ecphoria
