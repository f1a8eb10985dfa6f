import Ecphoria.Engine.Calls
import Ecphoria.Engine.Search

/-! Consolidation: the tail of a scope past what it keeps, or the clusters of near memories
in it, are each folded into one summary, and the originals are expired. -/
namespace Ecphoria
open Library

def mergeEvents (events : List Uuid) (more : List Uuid) : List Uuid :=
  more.foldl (fun events id => if id ∈ events then events else events ++ [id]) events

/-- `reply` is the answer of the completion provider, if it gave one. -/
def summarizeMemories (config : CoreConfig) (reply : Option String) (mems : List Memory) : String :=
  let joined := String.intercalate "\n" (mems.map (fun m => "- " ++ m.content))
  let listed := "Consolidated " ++ toString mems.length ++ " memories:\n" ++ joined
  if config.cognition.extraction = "llm" && config.completion then
    match reply with
    | some text => if (trim text).isEmpty then listed else trim text
    | none => listed
  else listed

def consolidationOrigin : Json := .obj [("source",.str "ecphoria:consolidation")]

def sourceMemoryIds (mems : List Memory) : Json := .arr (mems.map (fun m => .str m.id.toString))

def foldInput (scope : MemoryScope) (summary : String) (folded : List Memory) : MemoryInput :=
  { MemoryInput.new scope summary with
    importance := some (3 / 5)
    metadata := .obj [("consolidated",.bool true),("provenance",consolidationOrigin),
      ("source_memory_ids",sourceMemoryIds folded)] }

def memoryConsolidatePlan (e : Engine) (scope : MemoryScope) (keep maxRows : Nat) (reply : Option String) :
    Option (MemoryInput × List Uuid) :=
  let actives := e.memories.listActive scope maxRows
  let toFold := actives.drop keep
  if actives.length ≤ keep then none
  else some (foldInput scope (summarizeMemories e.config reply toFold) toFold,toFold.map Memory.id)

/-- The abstraction has the strongest importance of its cluster and all its events. -/
def clusterInput (scope : MemoryScope) (summary : String) (cluster : List Memory) : MemoryInput :=
  { MemoryInput.new scope summary with
    importance := some ((cluster.map Memory.importance).foldl maxRat 0)
    sourceEventIds := cluster.foldl (fun events m => mergeEvents events m.sourceEventIds) []
    metadata := .obj [("consolidated",.bool true),("consolidation",.str "semantic"),
      ("provenance",consolidationOrigin),("source_memory_ids",sourceMemoryIds cluster)] }

/-- What one similarity pass is answered from outside: for the memory whose vector is asked for, its
neighbours and the summary of its cluster. -/
structure Neighbours where
  matched : Uuid → List (Uuid × Rat)
  reply : Uuid → Option String

/-- One turn of the clustering loop over the memories that have a vector. -/
def clusterLoop (e : Engine) (scope : MemoryScope) (threshold : Rat) (k : Nat) (near : Neighbours) :
    List (Memory × List Rat) → List Uuid → List (MemoryInput × List Uuid) →
      Except Error (List (MemoryInput × List Uuid))
  | [],_,plans => .ok plans
  | (m,v) :: rest,grouped,plans =>
    if m.id ∈ grouped then clusterLoop e scope threshold k near rest grouped plans
    else
      match e.memoryIndexSearch v scope k (near.matched m.id) with
      | .error err => .error err
      | .ok hits =>
        let cluster := (hits.filter (fun hit => threshold ≤ hit.2 && hit.1.id ∉ grouped)).map Prod.fst
        if cluster.length < 2 then clusterLoop e scope threshold k near rest (grouped ++ [m.id]) plans
        else
          let summary := summarizeMemories e.config (near.reply m.id) cluster
          clusterLoop e scope threshold k near rest (grouped ++ cluster.map Memory.id)
            (plans ++ [(clusterInput scope summary cluster,cluster.map Memory.id)])

def memoryConsolidateSimilarPlan (e : Engine) (scope : MemoryScope) (threshold : Rat) (maxRows scanCap : Nat)
    (near : Neighbours) : Except Error (List (MemoryInput × List Uuid)) :=
  let withVec := (e.memories.listActive scope maxRows).filterMap (fun m =>
    (e.memories.getEmbedding m.id).map (fun v => (m,v)))
  clusterLoop e scope threshold (max scanCap 8) near withVec [] []

section
variable (env : Env)

def memoryConsolidate (e : Engine) (scope : MemoryScope) (keep maxRows : Nat) (reply : Option String)
    (d : Draw) : Except Error (Option MemoryAdd) × Engine :=
  match memoryConsolidatePlan e scope keep maxRows reply with
  | none => (.ok none,e)
  | some (input,expired) =>
    match memoryAdd env e d input with
    | (.error err,e) => (.error err,e)
    | (.ok added,e) => (.ok (some added),memoryExpire d.stamp e expired)

def foldLoop : List ((MemoryInput × List Uuid) × Draw) → Engine → Except Error Unit × Engine
  | [],e => (.ok (),e)
  | ((input,expired),d) :: rest,e =>
    match memoryAdd env e d input with
    | (.error err,e) => (.error err,e)
    | (.ok _,e) => foldLoop rest (memoryExpire d.stamp e expired)

def memoryConsolidateSimilar (e : Engine) (scope : MemoryScope) (threshold : Rat) (maxRows scanCap : Nat)
    (near : Neighbours) (draws : Nat → Draw) : Except Error Nat × Engine :=
  match memoryConsolidateSimilarPlan e scope threshold maxRows scanCap near with
  | .error err => (.error err,e)
  | .ok plans =>
    match foldLoop env (plans.zipIdx.map (fun (plan,i) => (plan,draws i))) e with
    | (.error err,e) => (.error err,e)
    | (.ok (),e) => (.ok plans.length,e)

end

end Ecphoria
