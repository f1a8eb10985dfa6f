import Ecphoria.Engine.Frame
import Ecphoria.Library.Transition

/-! The replicated state machine: the requests of the log and what applying one does
to the engine. A request carries the values the leader materialised; what an apply
still reads is the clock of the statements it runs. -/
namespace Ecphoria
open Library

inductive AppRequest where
  | ingest (events : List Event) (tenant : Option String)
  | stateSet (agentId key : String) (value : Json) (tenant : Option String)
  | stateDelete (agentId key : String) (tenant : Option String)
  | semanticUpsert (id : Uuid) (content : String) (embedding : List Rat) (metadata : Json)
  | semanticDelete (id : Uuid)
  | memoryUpsert (rows : List MemoryRow)
  | memoryDelete (id : Uuid)
  | graphAddEdge (tenant : Option String) (edge : Edge)
  | graphSupersede (tenant : Option String) (src relation : String) (instant : Int) (byEdge : Option Uuid)
  | memoryExpire (ids : List Uuid)
  | runCreate (run : Run)
  | runUpdate (id : Uuid) (patch : RunPatch) (updatedAt : Int)

inductive AppResponse where
  | ingested (n : Nat)
  | stateVersion (v : Nat)
  | deleted
  | ok
  | memoryCount (n : Nat)
deriving DecidableEq,Repr

/-- The clock of one apply: of the state store, and of each `now()` in a statement about an id. -/
structure Reading where
  now : Int
  stamp : Uuid → Int

def Reading.uniform (now : Int) : Reading := ⟨now,fun _ => now⟩

def ingestReplicated (e : Engine) (events : List Event) (tenant : Option String) :
    Except Error Nat × Engine :=
  match e.episodic.append (tagEvents tenant events) with
  | .error err => (.error err,e)
  | .ok (n,episodic) => (.ok n,{ e with episodic := episodic })

def stateAgent (tenant : Option String) (agentId : String) : String :=
  match tenant with
  | some t => scopedAgent t agentId
  | none => agentId

section
variable (env : Env)

def applyRequest (reading : Reading) (e : Engine) : AppRequest → Except Error AppResponse × Engine
  | .ingest events tenant =>
    match ingestReplicated e events tenant with
    | (.error err,e) => (.error err,e)
    | (.ok n,e) => (.ok (.ingested n),e)
  | .stateSet agentId key value tenant =>
    let (version,state) := e.state.set (stateAgent tenant agentId) key value reading.now
    (.ok (.stateVersion version),{ e with state := state })
  | .stateDelete agentId key tenant =>
    (.ok .deleted,{ e with state := e.state.remove (stateAgent tenant agentId) key })
  | .semanticUpsert id content embedding metadata =>
    match e.semantic.upsert ⟨id,content,embedding,metadata⟩ with
    | .error err => (.error err,e)
    | .ok semantic => (.ok .ok,{ e with semantic := semantic })
  | .semanticDelete id => (.ok .ok,{ e with semantic := e.semantic.delete id })
  | .memoryUpsert rows => (.ok (.memoryCount rows.length),memoryApplyRows env reading.stamp e rows)
  | .memoryDelete id => (.ok (.memoryCount 1),memoryDelete e id)
  | .graphAddEdge tenant edge =>
    (.ok .ok,{ e with edges := e.edges.addEdge (tenant.getD "default") edge (reading.stamp edge.id) })
  | .graphSupersede tenant src relation instant byEdge =>
    (.ok .ok,{ e with edges := e.edges.supersedeEdges (tenant.getD "default") src relation instant byEdge })
  | .memoryExpire ids => (.ok (.memoryCount ids.length),memoryExpire reading.stamp e ids)
  | .runCreate run => (.ok .ok,{ e with runs := e.runs.create run })
  | .runUpdate id patch updatedAt => (.ok .ok,{ e with runs := e.runs.patchRun id patch updatedAt })

/-- A node: its engine, how many entries it has applied, and whether an entry failed on it. -/
structure Node where
  engine : Engine
  applied : Nat
  halted : Bool

/-- One turn of `apply_to_state_machine`: an entry that fails is not marked applied and halts the node. -/
def applyEntry (reading : Reading) (node : Node) (request : AppRequest) : Node :=
  if node.halted then node
  else
    match applyRequest env reading node.engine request with
    | (.ok _,e) => ⟨e,node.applied + 1,false⟩
    | (.error _,e) => ⟨e,node.applied,true⟩

def Tables.applyRequest (config : CoreConfig) (reading : Reading) (t : Tables) : AppRequest → Tables
  | .ingest events tenant =>
    match t.episodic.append (tagEvents tenant events) with
    | .error _ => t
    | .ok (_,episodic) => { t with episodic := episodic }
  | .stateSet agentId key value tenant =>
    { t with state := (t.state.set (stateAgent tenant agentId) key value reading.now).2 }
  | .stateDelete agentId key tenant => { t with state := t.state.remove (stateAgent tenant agentId) key }
  | .semanticUpsert _ _ _ _ => t
  | .semanticDelete _ => t
  | .memoryUpsert rows => t.applyRows env config reading.stamp rows
  | .memoryDelete id => { t with memories := t.memories.deleteId id }
  | .graphAddEdge tenant edge =>
    { t with edges := t.edges.addEdge (tenant.getD "default") edge (reading.stamp edge.id) }
  | .graphSupersede tenant src relation instant byEdge =>
    { t with edges := t.edges.supersedeEdges (tenant.getD "default") src relation instant byEdge }
  | .memoryExpire ids =>
    { t with memories := ids.foldl (fun m id => m.expire id (reading.stamp id)) t.memories }
  | .runCreate run => { t with runs := t.runs.create run }
  | .runUpdate id patch updatedAt => { t with runs := t.runs.patchRun id patch updatedAt }

@[simp] theorem applyRequest_tables (reading : Reading) (e : Engine) (request : AppRequest) :
    (applyRequest env reading e request).2.tables = e.tables.applyRequest env e.config reading request := by
  cases request with
  | ingest events tenant =>
    simp only [applyRequest,ingestReplicated,Tables.applyRequest]
    change _ = match e.episodic.append (tagEvents tenant events) with
      | .error _ => e.tables
      | .ok (_,episodic) => { e.tables with episodic := episodic }
    cases e.episodic.append (tagEvents tenant events) with
    | error err => rfl
    | ok appended => rfl
  | semanticUpsert id content embedding metadata =>
    simp only [applyRequest,Tables.applyRequest]
    cases e.semantic.upsert ⟨id,content,embedding,metadata⟩ with
    | error err => rfl
    | ok semantic => rfl
  | memoryUpsert rows => exact memoryApplyRows_tables env reading.stamp e rows
  | memoryExpire ids => exact (memoryExpire_frame reading.stamp e ids).1
  | _ => rfl

@[simp] theorem applyRequest_config (reading : Reading) (e : Engine) (request : AppRequest) :
    (applyRequest env reading e request).2.config = e.config := by
  cases request with
  | ingest events tenant =>
    simp only [applyRequest,ingestReplicated]
    cases e.episodic.append (tagEvents tenant events) with
    | error err => rfl
    | ok appended => rfl
  | semanticUpsert id content embedding metadata =>
    simp only [applyRequest]
    cases e.semantic.upsert ⟨id,content,embedding,metadata⟩ with
    | error err => rfl
    | ok semantic => rfl
  | memoryUpsert rows => exact memoryApplyRows_config env reading.stamp e rows
  | memoryExpire ids => exact (memoryExpire_frame reading.stamp e ids).2
  | _ => rfl

private theorem memoryApplyRows_semantic (stamp : Uuid → Int) (e : Engine) (rows : List MemoryRow) :
    (memoryApplyRows env stamp e rows).semantic = e.semantic := by
  induction rows generalizing e with
  | nil => rfl
  | cons row rows ih =>
    have first : (applyRow env stamp e row).semantic = e.semantic := by
      unfold applyRow
      cases row.memory.state <;> rfl
    exact (ih (applyRow env stamp e row)).trans first

private theorem memoryExpire_semantic (stamp : Uuid → Int) (e : Engine) (ids : List Uuid) :
    (memoryExpire stamp e ids).semantic = e.semantic := by
  induction ids generalizing e with
  | nil => rfl
  | cons id ids ih =>
    have first : (expireOne stamp e id).semantic = e.semantic := by
      unfold expireOne
      cases e.memories.get id <;> rfl
    exact (ih (expireOne stamp e id)).trans first

def SemanticStore.applyRequest (store : SemanticStore) : AppRequest → SemanticStore
  | .semanticUpsert id content embedding metadata =>
    match store.upsert ⟨id,content,embedding,metadata⟩ with
    | .error _ => store
    | .ok written => written
  | .semanticDelete id => store.delete id
  | _ => store

@[simp] theorem applyRequest_semantic (reading : Reading) (e : Engine) (request : AppRequest) :
    (applyRequest env reading e request).2.semantic = e.semantic.applyRequest request := by
  cases request with
  | ingest events tenant =>
    simp only [applyRequest,ingestReplicated,SemanticStore.applyRequest]
    cases e.episodic.append (tagEvents tenant events) with
    | error err => rfl
    | ok appended => rfl
  | semanticUpsert id content embedding metadata =>
    simp only [applyRequest,SemanticStore.applyRequest]
    cases e.semantic.upsert ⟨id,content,embedding,metadata⟩ with
    | error err => rfl
    | ok written => rfl
  | memoryUpsert rows => exact memoryApplyRows_semantic env reading.stamp e rows
  | memoryExpire ids => exact memoryExpire_semantic reading.stamp e ids
  | _ => rfl

theorem applyRequest_dimension (reading : Reading) (e : Engine) (request : AppRequest) :
    (applyRequest env reading e request).2.semantic.dimension = e.semantic.dimension := by
  rw [applyRequest_semantic]
  cases request with
  | semanticUpsert id content embedding metadata =>
    simp only [SemanticStore.applyRequest,SemanticStore.upsert]
    by_cases fits : embedding.length = e.semantic.dimension <;> simp [fits]
  | _ => rfl

def Takes (e : Engine) : AppRequest → Prop
  | .ingest events tenant => ∃ appended, e.episodic.append (tagEvents tenant events) = .ok appended
  | .semanticUpsert _ _ embedding _ => embedding.length = e.semantic.dimension
  | _ => True

theorem applyRequest_ok_iff (reading : Reading) (e : Engine) (request : AppRequest) :
    (∃ response, (applyRequest env reading e request).1 = .ok response) ↔ Takes e request := by
  cases request with
  | ingest events tenant =>
    simp only [applyRequest,ingestReplicated,Takes]
    cases e.episodic.append (tagEvents tenant events) with
    | error err => simp
    | ok appended => simp
  | semanticUpsert id content embedding metadata =>
    simp only [applyRequest,SemanticStore.upsert,Takes]
    by_cases fits : embedding.length = e.semantic.dimension <;> simp [fits]
  | _ => exact iff_of_true ⟨_,rfl⟩ trivial

theorem applyEntry_running (reading : Reading) {node : Node} (request : AppRequest) (running : node.halted = false) :
    (applyEntry env reading node request).engine = (applyRequest env reading node.engine request).2 ∧
      ((applyEntry env reading node request).halted = false ↔ Takes node.engine request) := by
  rw [← applyRequest_ok_iff env reading]
  simp only [applyEntry,running,Bool.false_eq_true,if_false]
  split
  next response e answered => simp [answered]
  next err e failed => simp [failed]

end

end Ecphoria
