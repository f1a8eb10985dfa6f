import Ecphoria.Engine.Tenants
import Ecphoria.Library.Text
import Ecphoria.Memory.Rebuild

/-! Upkeep of the memories: forgetting by decay, pruning documents, erasing a user, fresh
vectors for the active memories, and the restart that fills the derived indexes. -/
namespace Ecphoria
open Library

/-- How memories fade. `power` is the database's `power(0.5, ·)`. -/
structure Decay where
  halfLifeDays : Rat
  forgetThreshold : Rat
  power : Rat → Rat

/-- `date_diff('second', ..)`: the second boundaries between two instants. -/
def dateDiffSecond (start stop : Int) : Int := stop / 1000000000 - start / 1000000000

def Decay.forgets (decay : Decay) (now : Int) (m : Memory) : Bool :=
  m.state = .active && m.importance *
    decay.power (dateDiffSecond m.updatedAt now / 86400 / maxRat decay.halfLifeDays (1 / 1000)) < decay.forgetThreshold

def MemoryRow.forgotten (row : MemoryRow) (now : Int) : MemoryRow :=
  { row with memory := { row.memory with state := .expired, validTo := some (micros now), updatedAt := micros now } }

theorem MemoryRow.forgotten_id (row : MemoryRow) (now : Int) : (row.forgotten now).id = row.id := rfl

namespace MemoryTable

def decay (t : MemoryTable) (decay : Decay) (now : Int) : List Uuid × MemoryTable :=
  ((t.rows.filter (fun row => decay.forgets now row.memory)).map MemoryRow.id,
    t.update (fun row => decay.forgets now row.memory) (fun row => row.forgotten now) (fun row => row.forgotten_id now))

def listProjectChunks (t : MemoryTable) (scope : MemoryScope) (project : String) : List Memory :=
  t.memories.filter (fun m => scope.matchesRow m.scope && m.project = some project && m.memType = "chunk" &&
    m.state = .active)

def ofUser (tenant userId : String) (row : MemoryRow) : Bool :=
  row.memory.scope.tenantId = tenant && row.memory.scope.userId = some userId

def allActive (t : MemoryTable) (limit : Nat) : List Memory :=
  ((t.memories.filter (fun m => m.state = .active)).insertionSort (fun a b => a.updatedAt ≤ b.updatedAt)).take limit

end MemoryTable

namespace Engine

def memoryEnforceDecay (e : Engine) (decay : Decay) (now : Int) : Nat × Engine :=
  let (forgotten,memories) := e.memories.decay decay now
  (forgotten.length,forgotten.foldl forgetIndexes { e with memories := memories })

def deleteUser (e : Engine) (tenant userId : String) : Nat × Engine :=
  let ids := (e.memories.rows.filter (MemoryTable.ofUser tenant userId)).map MemoryRow.id
  (ids.length,ids.foldl forgetIndexes { e with memories := e.memories.delete (MemoryTable.ofUser tenant userId) })

def importMemories (e : Engine) (memories : List Memory) : Nat × Engine :=
  (memories.length,{ e with memories := e.memories.importMemories memories })

/-- `EcphoriaEngine::new` over the stores of `e`. `semantic` is what it reloads of the event vectors. -/
def reopen (e : Engine) (config : CoreConfig) (semantic : SemanticStore) : Engine :=
  { e with
    config := config
    semantic := semantic
    vectors := rebuildVectorIndex e.vectors.dimension e.memories
    lexical := rebuildLexicalIndex e.memories
    changes := [] }

/-- `vectors` is what the provider answers for the content of each memory. -/
def memoryReembedPlan (e : Engine) (limit : Nat) (vectors : Uuid → Option (List Rat)) : List MemoryRow :=
  if e.config.embedding then
    (e.memories.allActive limit).filterMap (fun m => (vectors m.id).map (fun emb => ⟨m,some emb⟩))
  else []

end Engine

/-- The document a chunk belongs to: its subject up to the first `#`. -/
def documentOf (subject : String) : String :=
  match splitOnce '#' subject.toList with
  | some (path,_) => String.ofList path
  | none => subject

section
variable (env : Env)

def pruneRows (active : List Memory) (keep : List String) (now : Int) : List MemoryRow :=
  (active.filter (fun m => match m.subject with
    | some s => documentOf s ∉ keep
    | none => false)).map
    (fun m => ⟨{ m with state := .expired, validTo := some now, updatedAt := now },none⟩)

def documentPrune (e : Engine) (scope : MemoryScope) (project : String) (keepPaths : List String) (now : Int) :
    Except Error Nat × Engine :=
  let stale := pruneRows (e.memories.listProjectChunks scope project) (keepPaths.map (normalizeSubject env)) now
  match memoryApplyRowsBatch e stale with
  | .error err => (.error err,e)
  | .ok e => (.ok stale.length,e)

def memoryReembed (e : Engine) (limit : Nat) (vectors : Uuid → Option (List Rat)) (stamp : Uuid → Int) :
    Nat × Engine :=
  let rows := e.memoryReembedPlan limit vectors
  (rows.length,memoryApplyRows env stamp e rows)

end

end Ecphoria
