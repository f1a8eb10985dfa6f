import Ecphoria.Cluster.Request
import Ecphoria.Library.Alike

/-! The members of a cluster and the log they share. The leader appends what it is given
and applies it at once; the others apply the entries when they get to them. Every
member that only applies the log is, but for the clocks it wrote, the replay of
the entries it has applied. -/
namespace Ecphoria
open Library

abbrev NodeId := Nat

/-- The nodes, the committed log, and the node that leads, if one does. -/
structure Cluster where
  nodes : NodeId → Node
  log : List AppRequest
  leader : Option NodeId

def Cluster.formed (e : Engine) (leader : Option NodeId) : Cluster := ⟨fun _ => ⟨e,0,false⟩,[],leader⟩

section
variable (env : Env)

def Node.catchUp (readings : Nat → Reading) (log : List AppRequest) (node : Node) : Node :=
  (log.drop node.applied).foldl (fun node request => applyEntry env (readings node.applied) node request) node

namespace Cluster

def setNode (c : Cluster) (i : NodeId) (node : Node) : Cluster := { c with nodes := Function.update c.nodes i node }

def applyNext (c : Cluster) (i : NodeId) (reading : Reading) : Cluster :=
  match c.log[(c.nodes i).applied]? with
  | none => c
  | some request => c.setNode i (applyEntry env reading (c.nodes i) request)

/-- `ClusterCoordinator::client_write`: the answer comes when the entry is applied on the leader, and only the
leader takes one. -/
def clientWrite (readings : Nat → Reading) (c : Cluster) (i : NodeId) (request : AppRequest) : Bool × Cluster :=
  if c.leader = some i then
    let c := { c with log := c.log ++ [request] }
    let node := (c.nodes i).catchUp env readings c.log
    (node.applied = c.log.length,c.setNode i node)
  else (false,c)

def clientWrites (readings : Nat → Reading) (c : Cluster) (i : NodeId) : List AppRequest → Bool × Cluster
  | [] => (true,c)
  | request :: requests =>
    match c.clientWrite env readings i request with
    | (true,c) => c.clientWrites readings i requests
    | (false,c) => (false,c)

end Cluster

end

def MemoryRow.undated (row : MemoryRow) : MemoryRow :=
  { row with memory := { row.memory with validTo := none, updatedAt := 0 } }

def EdgeRow.undated (row : EdgeRow) : EdgeRow := { row with createdAt := 0 }

def StateRow.undated (row : StateRow) : StateRow := { row with updatedAt := 0 }

/-- The tables differ at most in the times that a statement takes from the clock of its node. -/
structure Tables.Alike (t u : Tables) : Prop where
  memories : t.memories.Alike MemoryRow.undated u.memories
  edges : t.edges.Alike EdgeRow.undated u.edges
  episodic : t.episodic = u.episodic
  state : t.state.Alike StateRow.undated u.state

structure Engine.Alike (a b : Engine) : Prop where
  config : a.config = b.config
  tables : a.tables.Alike b.tables

namespace Tables.Alike
variable {t u v : Tables}

theorem refl (t : Tables) : t.Alike t := ⟨.refl _ _,.refl _ _,rfl,.refl _ _⟩

theorem symm (alike : t.Alike u) : u.Alike t :=
  ⟨alike.memories.symm,alike.edges.symm,alike.episodic.symm,alike.state.symm⟩

theorem trans (first : t.Alike u) (second : u.Alike v) : t.Alike v :=
  ⟨first.memories.trans second.memories,first.edges.trans second.edges,first.episodic.trans second.episodic,
    first.state.trans second.state⟩

end Tables.Alike

private theorem alike_expire {t u : MemoryTable} (alike : t.Alike MemoryRow.undated u) (id : Uuid) (left right : Int) :
    (t.expire id left).Alike MemoryRow.undated (u.expire id right) := by
  refine alike.update ?_ ?_
  · intro r s same
    have ids : r.undated.id = s.undated.id := congrArg MemoryRow.id same
    have states : r.undated.memory.state = s.undated.memory.state := congrArg (fun row => row.memory.state) same
    rw [show r.id = s.id from ids,show r.memory.state = s.memory.state from states]
  · intro r s same
    have kept := congrArg (fun row : MemoryRow => { row with memory := { row.memory with state := .expired } }) same
    exact kept

private theorem alike_addEdges {t u : EdgeTable} (alike : t.Alike EdgeRow.undated u) (tenant : String)
    (left right : Uuid → Int) (edges : List Edge) :
    (addEdges t tenant left edges).Alike EdgeRow.undated (addEdges u tenant right edges) := by
  induction edges generalizing t u with
  | nil => exact alike
  | cons edge edges ih => exact ih (alike.insertIgnore rfl rfl)

private theorem alike_supersede {t u : EdgeTable} (alike : t.Alike EdgeRow.undated u) (tenant src relation : String)
    (instant : Int) (byEdge : Option Uuid) :
    (t.supersedeEdges tenant src relation instant byEdge).Alike EdgeRow.undated
      (u.supersedeEdges tenant src relation instant byEdge) := by
  refine alike.update ?_ ?_
  · intro r s same
    have edges : r.undated.edge = s.undated.edge := congrArg EdgeRow.edge same
    have tenants : r.undated.tenantId = s.undated.tenantId := congrArg EdgeRow.tenantId same
    rw [show r.edge = s.edge from edges,show r.tenantId = s.tenantId from tenants]
  · intro r s same
    exact congrArg (fun row : EdgeRow => { row with edge := { row.edge with
      validTo := some (micros instant), state := .superseded, invalidatedBy := byEdge } }) same

private theorem alike_set {t u : StateTable} (alike : t.Alike StateRow.undated u) (agentId key : String) (value : Json)
    (left right : Int) : (t.set agentId key value left).2.Alike StateRow.undated (u.set agentId key value right).2 := by
  have written : (t.nextRow agentId key value left).undated = (u.nextRow agentId key value right).undated := by
    have here := alike (agentId,key)
    unfold StateTable.nextRow
    cases found : t.find (agentId,key) with
    | none =>
      rw [found] at here
      rw [Option.map_eq_none_iff.mp here.symm]
      rfl
    | some old =>
      rw [found] at here
      obtain ⟨other,there,same⟩ := Option.map_eq_some_iff.mp here.symm
      rw [there]
      exact congrArg (fun row : StateRow => { row with value := value, version := row.version + 1 }) same.symm
  have primary : (t.nextRow agentId key value left).undated.primary = (u.nextRow agentId key value right).undated.primary :=
    congrArg StateRow.primary written
  exact alike.upsert primary written

section
variable (env : Env)

private theorem alike_applyRows {t u : Tables} (alike : t.Alike u) (config : CoreConfig) (left right : Uuid → Int)
    (rows : List MemoryRow) : (t.applyRows env config left rows).Alike (u.applyRows env config right rows) := by
  induction rows generalizing t u with
  | nil => exact alike
  | cons row rows ih =>
    exact ih ⟨alike.memories.upsert rfl rfl,alike_addEdges alike.edges _ _ _ _,alike.episodic,alike.state⟩

theorem Tables.Alike.applied {t u : Tables} (alike : t.Alike u) (config : CoreConfig) (left right : Reading)
    (request : AppRequest) : (t.applyRequest env config left request).Alike (u.applyRequest env config right request) := by
  cases request with
  | ingest events tenant =>
    simp only [Tables.applyRequest,alike.episodic]
    split
    next => exact alike
    next => exact ⟨alike.memories,alike.edges,rfl,alike.state⟩
  | stateSet agentId key value tenant =>
    exact ⟨alike.memories,alike.edges,alike.episodic,alike_set alike.state _ _ _ _ _⟩
  | stateDelete agentId key tenant =>
    exact ⟨alike.memories,alike.edges,alike.episodic,alike.state.delete _⟩
  | memoryUpsert rows => exact alike_applyRows env alike config left.stamp right.stamp rows
  | memoryDelete id => exact ⟨alike.memories.delete id,alike.edges,alike.episodic,alike.state⟩
  | graphAddEdge tenant edge =>
    exact ⟨alike.memories,alike.edges.insertIgnore rfl rfl,alike.episodic,alike.state⟩
  | graphSupersede tenant src relation instant byEdge =>
    exact ⟨alike.memories,alike_supersede alike.edges _ _ _ _ _,alike.episodic,alike.state⟩
  | memoryExpire ids =>
    refine ⟨?_,alike.edges,alike.episodic,alike.state⟩
    have expired {m n : MemoryTable} (same : m.Alike MemoryRow.undated n) :
        (ids.foldl (fun m id => MemoryTable.expire m id (left.stamp id)) m).Alike MemoryRow.undated
          (ids.foldl (fun m id => MemoryTable.expire m id (right.stamp id)) n) := by
      induction ids generalizing m n with
      | nil => exact same
      | cons id ids ih => exact ih (alike_expire same id _ _)
    exact expired alike.memories
  | _ => exact ⟨alike.memories,alike.edges,alike.episodic,alike.state⟩

theorem Engine.Alike.applied {a b : Engine} (alike : a.Alike b) (left right : Reading) (request : AppRequest) :
    (applyRequest env left a request).2.Alike (applyRequest env right b request).2 where
  config := by
    rw [applyRequest_config,applyRequest_config]
    exact alike.config
  tables := by
    rw [applyRequest_tables,applyRequest_tables,alike.config]
    exact alike.tables.applied env _ left right request

private theorem applyEntry_moves (reading : Reading) (node : Node) (request : AppRequest) :
    (applyEntry env reading node request).halted = true ∨ (applyEntry env reading node request).applied = node.applied + 1 := by
  unfold applyEntry
  split
  next stopped => exact Or.inl stopped
  next =>
    split
    next => exact Or.inr rfl
    next => exact Or.inl rfl

def replayed (e : Engine) (log : List AppRequest) : Engine :=
  log.foldl (fun e request => (applyRequest env (.uniform 0) e request).2) e

/-- A node that runs is like the replay of what it applied; one that stopped did so before the end of the log. -/
structure TracksLog (e : Engine) (log : List AppRequest) (node : Node) : Prop where
  bound : node.applied ≤ log.length
  alike : node.halted = false → node.engine.Alike (replayed env e (log.take node.applied))
  behind : node.halted = true → node.applied < log.length

namespace TracksLog
variable {env} {e : Engine} {log : List AppRequest} {node : Node}

theorem longer (tracks : TracksLog env e log node) (more : List AppRequest) : TracksLog env e (log ++ more) node where
  bound := by
    have bound := tracks.bound
    rw [List.length_append]
    omega
  alike := by
    rw [List.take_append_of_le_length tracks.bound]
    exact tracks.alike
  behind := by
    intro stopped
    have behind := tracks.behind stopped
    rw [List.length_append]
    omega

theorem applyEntry (tracks : TracksLog env e log node) (reading : Reading) {request : AppRequest}
    (next : log[node.applied]? = some request) : TracksLog env e log (applyEntry env reading node request) := by
  obtain ⟨inside,own⟩ := List.getElem?_eq_some_iff.mp next
  unfold Ecphoria.applyEntry
  split
  next => exact tracks
  next running =>
    have alike := tracks.alike (by simpa using running)
    split
    next response after applied =>
      refine ⟨inside,fun _ => ?_,fun stopped => absurd stopped (by simp)⟩
      have step := alike.applied env reading (.uniform 0) request
      rw [applied] at step
      rw [List.take_succ_eq_append_getElem inside,own,replayed,List.foldl_append]
      exact step
    next => exact ⟨tracks.bound,fun running => absurd running (by simp),fun _ => inside⟩

theorem catchUp (tracks : TracksLog env e log node) (readings : Nat → Reading) :
    TracksLog env e log (node.catchUp env readings log) := by
  have walked (rest : List AppRequest) {node : Node} (tracks : TracksLog env e log node)
      (left : node.halted = true ∨ log.drop node.applied = rest) :
      TracksLog env e log (rest.foldl (fun node request => Ecphoria.applyEntry env (readings node.applied) node request)
        node) := by
    induction rest generalizing node with
    | nil => exact tracks
    | cons request rest ih =>
      rcases left with stopped | left
      · have still : Ecphoria.applyEntry env (readings node.applied) node request = node := by
          simp [Ecphoria.applyEntry,stopped]
        rw [List.foldl_cons,still]
        exact ih tracks (Or.inl stopped)
      · have next : log[node.applied]? = some request := by
          rw [← List.head?_drop,left,List.head?_cons]
        refine ih (tracks.applyEntry _ next) ?_
        rcases applyEntry_moves env (readings node.applied) node request with stopped | moved
        · exact Or.inl stopped
        · refine Or.inr ?_
          rw [moved,← List.tail_drop,left,List.tail_cons]
  exact walked _ tracks (Or.inr rfl)

end TracksLog

namespace Cluster
variable {env} {e : Engine} {c : Cluster}

def Sound (env : Env) (e : Engine) (c : Cluster) : Prop := ∀ i, TracksLog env e c.log (c.nodes i)

theorem Sound.formed (env : Env) (e : Engine) (leader : Option NodeId) : Sound env e (.formed e leader) :=
  fun _ => ⟨le_rfl,fun _ => ⟨rfl,.refl _⟩,fun stopped => absurd stopped (by simp [Cluster.formed])⟩

theorem Sound.setNode (sound : Sound env e c) {i : NodeId} {node : Node} (tracks : TracksLog env e c.log node) :
    Sound env e (c.setNode i node) := by
  intro j
  by_cases own : j = i
  · subst own
    simpa [Cluster.setNode] using tracks
  · simpa [Cluster.setNode,own] using sound j

theorem Sound.applyNext (sound : Sound env e c) (i : NodeId) (reading : Reading) :
    Sound env e (c.applyNext env i reading) := by
  unfold Cluster.applyNext
  split
  next => exact sound
  next request next => exact sound.setNode ((sound i).applyEntry reading next)

theorem Sound.clientWrite (sound : Sound env e c) (readings : Nat → Reading) (i : NodeId) (request : AppRequest) :
    Sound env e (c.clientWrite env readings i request).2 := by
  unfold Cluster.clientWrite
  split
  next =>
    have longer : Sound env e { c with log := c.log ++ [request] } := fun j => (sound j).longer [request]
    exact longer.setNode ((longer i).catchUp readings)
  next => exact sound

theorem Sound.clientWrites (sound : Sound env e c) (readings : Nat → Reading) (i : NodeId) (requests : List AppRequest) :
    Sound env e (c.clientWrites env readings i requests).2 := by
  induction requests generalizing c with
  | nil => exact sound
  | cons request requests ih =>
    have first := sound.clientWrite readings i request
    unfold Cluster.clientWrites
    split
    next written answered =>
      rw [answered] at first
      exact ih first
    next written answered =>
      rw [answered] at first
      exact first

theorem Sound.agree (sound : Sound env e c) {i j : NodeId} (left : (c.nodes i).applied = c.log.length)
    (right : (c.nodes j).applied = c.log.length) : (c.nodes i).engine.Alike (c.nodes j).engine := by
  have caught {k : NodeId} (done : (c.nodes k).applied = c.log.length) : (c.nodes k).engine.Alike (replayed env e c.log) := by
    have running : (c.nodes k).halted = false := by
      rw [Bool.eq_false_iff]
      intro stopped
      have behind := (sound k).behind stopped
      omega
    have alike := (sound k).alike running
    rwa [done,List.take_length] at alike
  have first := caught left
  have second := caught right
  exact ⟨first.config.trans second.config.symm,first.tables.trans second.tables.symm⟩

end Cluster

end

end Ecphoria
