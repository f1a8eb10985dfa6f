import Ecphoria.Engine.Plan
import Ecphoria.Ingest.Chunk

/-! The write calls of the engine. A call answers with its result and the engine it
leaves, also when it fails part of the way. -/
namespace Ecphoria
open Library

section
variable (env : Env)

def graphEdge (m : Memory) (triple : String × String × String) : Edge where
  id := env.newV5 m.id (triple.1 ++ "|" ++ triple.2.1 ++ "|" ++ triple.2.2)
  src := triple.1
  relation := triple.2.1
  dst := triple.2.2
  weight := 1
  sourceMemoryId := some m.id
  validFrom := some m.validFrom
  validTo := none
  state := .active
  invalidatedBy := none

def graphEdges (config : CoreConfig) (row : MemoryRow) : List Edge :=
  if config.cognition.autoGraph && row.memory.state = .active then
    (extractTriples env row.memory.content).map (graphEdge env row.memory)
  else []

def addEdges (t : EdgeTable) (tenant : String) (stamp : Uuid → Int) (edges : List Edge) : EdgeTable :=
  edges.foldl (fun t edge => t.addEdge tenant edge (stamp edge.id)) t

def applyRow (stamp : Uuid → Int) (e : Engine) (row : MemoryRow) : Engine :=
  let e := { e with memories := e.memories.upsertRaw row }
  let e := match row.memory.state with
    | .active => { e.indexVector row with lexical := e.lexical.upsert row.memory.toLexicalEntry }
    | _ => e.forgetIndexes row.id
  let e := e.publishMemoryChange row.memory
  let derived := graphEdges env e.config row
  { e with edges := addEdges e.edges (tenantOrDefault row.memory.scope.tenantId) stamp derived }

def memoryApplyRows (stamp : Uuid → Int) (e : Engine) (rows : List MemoryRow) : Engine :=
  rows.foldl (applyRow env stamp) e

/-- The vector side of one row of a batch; the text index follows for all rows at the end. -/
def applyBatchRow (e : Engine) (row : MemoryRow) : Engine :=
  let e := match row.memory.state with
    | .active => e.indexVector row
    | _ => e.forgetIndexes row.id
  e.publishMemoryChange row.memory

def memoryApplyRowsBatch (e : Engine) (rows : List MemoryRow) : Except Error Engine :=
  if rows.isEmpty then .ok e
  else
    match e.memories.upsertRawBatch rows with
    | .error err => .error err
    | .ok memories =>
      let e := rows.foldl applyBatchRow { e with memories := memories }
      let texts := (rows.filter (fun row => row.memory.state = .active)).map
        (fun row => row.memory.toLexicalEntry)
      .ok { e with lexical := e.lexical.upsertAll texts }

def evictOverCap (e : Engine) (scope : MemoryScope) : Engine :=
  let (evicted,memories) := e.memories.enforceScopeCap scope e.config.cognition.maxMemoriesPerScope
  evicted.foldl Engine.forgetIndexes { e with memories := memories }

def memoryAdd (e : Engine) (d : Draw) (input : MemoryInput) : Except Error MemoryAdd × Engine :=
  match memoryPlan env e d input with
  | .error err => (.error err,e)
  | .ok (result,rows) => (.ok result,evictOverCap (memoryApplyRows env d.stamp e rows) result.memory.scope)

structure Buffer where
  rows : List MemoryRow
  subjects : List (String × String)

def batchKey (input : MemoryInput) : Option (String × String) :=
  input.subject.map (fun s => (scopePartitionKey input.scope.withDefaultTenant,normalizeSubject env s))

theorem batchKey_keyed {input : MemoryInput} {subject : String}
    (keyed : (canonicalInput env input).subject = some subject) :
    batchKey env input = some (scopePartitionKey (canonicalInput env input).scope,subject) := by
  obtain ⟨mapped,_⟩ := Option.filter_eq_some_iff.mp keyed
  obtain ⟨raw,given,rfl⟩ := Option.map_eq_some_iff.mp mapped
  simp [batchKey,given,canonicalInput]

def Buffer.collides (buffer : Buffer) : Option (String × String) → Bool
  | some key => key ∈ buffer.subjects
  | none => false

/-- Apply the buffer on a collision, so that the plan sees the version it must supersede. -/
def flushColliding (e : Engine) (key : Option (String × String)) (buffer : Buffer) :
    Except Error (Engine × Buffer) :=
  if buffer.collides key then
    match memoryApplyRowsBatch e buffer.rows with
    | .error err => .error err
    | .ok e => .ok (e,⟨[],[]⟩)
  else .ok (e,buffer)

def Buffer.push (buffer : Buffer) (key : Option (String × String)) (rows : List MemoryRow) : Buffer :=
  ⟨buffer.rows ++ rows,buffer.subjects ++ key.toList⟩

def batchLoop : List (MemoryInput × Draw) → Engine → Buffer → List MemoryAdd →
    Except Error (List MemoryAdd) × Engine
  | [],e,buffer,adds =>
    match memoryApplyRowsBatch e buffer.rows with
    | .error err => (.error err,e)
    | .ok e => (.ok adds,e)
  | (input,d) :: rest,e,buffer,adds =>
    match flushColliding e (batchKey env input) buffer with
    | .error err => (.error err,e)
    | .ok (e,buffer) =>
      match memoryPlan env e d input with
      | .error err => (.error err,e)
      | .ok (add,planned) => batchLoop rest e (buffer.push (batchKey env input) planned) (adds ++ [add])

def memoryAddBatch (e : Engine) (inputs : List (MemoryInput × Draw)) :
    Except Error (List MemoryAdd) × Engine :=
  batchLoop env inputs e ⟨[],[]⟩ []

end

end Ecphoria
