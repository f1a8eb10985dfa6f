import Ecphoria.Gateway.Writes

/-! Runs of a cluster: write requests at any node and front end, followers that apply the
log when they get to it, and changes of the leader. The nodes agree on their rows as
long as every write goes through the log. -/
namespace Ecphoria
open Library

inductive ClusterMove where
  | rest (i : NodeId) (caller : Caller) (write : RestWrite) (readings : Nat → Reading)
  | mcp (i : NodeId) (tenant : Option String) (tool : WriteTool) (args : Json) (drawn : ToolDraw) (readings : Nat → Reading)
  | grpc (i : NodeId) (tenant : Option String) (write : GrpcWrite)
  | apply (i : NodeId) (reading : Reading)
  | elect (leader : Option NodeId)

/-- Two nodes hold the same memories, edges, events and state entries: by id, what is said and in which state. -/
structure SameRows (a b : Engine) : Prop where
  memories : ∀ id, (a.memories.find id).map (fun row => (row.memory.content,row.memory.state)) =
    (b.memories.find id).map (fun row => (row.memory.content,row.memory.state))
  edges : ∀ id, (a.edges.find id).map (fun row => (row.edge.src,row.edge.relation,row.edge.dst,row.edge.state)) =
    (b.edges.find id).map (fun row => (row.edge.src,row.edge.relation,row.edge.dst,row.edge.state))
  episodic : ∀ id, (a.episodic.find id).map (fun row => (row.source,row.eventType,row.payload)) =
    (b.episodic.find id).map (fun row => (row.source,row.eventType,row.payload))
  state : ∀ agentKey, (a.state.find agentKey).map (fun row => (row.value,row.version)) =
    (b.state.find agentKey).map (fun row => (row.value,row.version))

def Cluster.CaughtUp (c : Cluster) (i : NodeId) : Prop := (c.nodes i).applied = c.log.length

/-- Any nodes that have applied the whole log hold the same rows. -/
def Cluster.Agreed (c : Cluster) : Prop := ∀ i j, c.CaughtUp i → c.CaughtUp j → SameRows (c.engine i) (c.engine j)

section
variable (env : Env) (g : Gateway)

def ClusterMove.handle (c : Cluster) : ClusterMove → Answer × Cluster
  | .rest i caller write readings => restWrite env g readings c i caller write
  | .mcp i tenant tool args drawn readings => Mcp.callTool env g readings c i tenant args drawn tool
  | .grpc i tenant write => write.handle env g c i tenant
  | .apply i reading => (.ok,c.applyNext env i reading)
  | .elect leader => (.ok,{ c with leader := leader })

def ClusterMove.step (c : Cluster) (move : ClusterMove) : Cluster := (move.handle env g c).2

def NotStored (e : Engine) (id : String) (tenant : Option String) : Prop :=
  ∀ uuid, g.parseUuid id = some uuid → lookup e uuid tenant = none

/-- The handler writes to the log, or has nothing to write. -/
def RestWrite.Replicates (e : Engine) (caller : Caller) : RestWrite → Prop
  | .memoryAdd _ _ | .memoryAddBatch _ _ | .memoryUpdate _ _ _ => True
  | .memoryDelete id => NotStored g e id caller.tenant
  | .documentIngest req _ _ =>
    documentInputs req.document (scopeWithHeader caller req.fields) req.options = [] ∧
      e.memories.findActiveByDocument env (scopeWithHeader caller req.fields) req.path = []
  | .documentPrune req _ =>
    ∀ m ∈ e.memories.listProjectChunks (scopeWithHeader caller req.fields) req.project, ∀ subject,
      m.subject = some subject → documentOf subject ∈ req.keepPaths.map (normalizeSubject env)
  | _ => False

def GrpcWrite.Replicates (e : Engine) (tenant : Option String) : GrpcWrite → Prop
  | .ingest _ payloads _ _ => payloads = []
  | .deleteMemory id => NotStored g e id tenant
  | _ => False

def ClusterMove.Replicates (c : Cluster) : ClusterMove → Prop
  | .rest i caller write _ =>
    ∀ home, requireLeaderForWrites g c i = .ok home → write.Replicates env g (c.engine home) caller
  | .grpc i tenant write => write.Replicates g (c.engine i) tenant
  | _ => True

theorem Engine.Alike.sameRows {a b : Engine} (alike : a.Alike b) : SameRows a b where
  memories := alike.tables.memories.map (fun row => (row.memory.content,row.memory.state)) (fun _ => rfl)
  edges := alike.tables.edges.map (fun row => (row.edge.src,row.edge.relation,row.edge.dst,row.edge.state)) (fun _ => rfl)
  episodic := by
    have same : a.episodic = b.episodic := alike.tables.episodic
    intro id
    rw [same]
  state := alike.tables.state.map (fun row => (row.value,row.version)) (fun _ => rfl)

variable {env g} {e : Engine} {c : Cluster}

theorem Cluster.Sound.agreed (sound : c.Sound env e) : c.Agreed :=
  fun _ _ left right => (sound.agree left right).sameRows

theorem Cluster.Sound.setEngine (sound : c.Sound env e) {i : NodeId} {after : Engine}
    (tables : after.tables = (c.engine i).tables) (config : after.config = (c.engine i).config) :
    (c.setEngine i after).Sound env e := by
  refine sound.setNode ⟨(sound i).bound,?_,(sound i).behind⟩
  intro running
  have alike := (sound i).alike running
  refine ⟨config.trans alike.config,?_⟩
  rw [tables]
  exact alike.tables

theorem Cluster.Sound.propose (sound : c.Sound env e) (readings : Nat → Reading) (i : NodeId) (requests : List AppRequest) :
    (c.propose env readings i requests).2.Sound env e := by
  have written := sound.clientWrites readings i requests
  unfold Cluster.propose
  split
  next after answered =>
    rw [answered] at written
    exact written
  next after answered =>
    rw [answered] at written
    exact written

theorem Cluster.Sound.proposePlanned (sound : c.Sound env e) (readings : Nat → Reading) (i : NodeId)
    (plan : Except Error Planned) : (c.proposePlanned env readings i plan).2.Sound env e := by
  cases plan with
  | error err => exact sound
  | ok planned => exact sound.propose readings i _

private theorem sound_addEach (sound : c.Sound env e) (readings : Nat → Reading) (i : NodeId)
    (inputs : List (MemoryInput × Draw)) : (Rest.addEach env readings i c inputs).2.Sound env e := by
  induction inputs generalizing c with
  | nil => exact sound
  | cons first rest ih =>
    have written := sound.proposePlanned readings i (memoryPlan env (c.engine i) first.2 first.1)
    unfold Rest.addEach
    split
    next after answered =>
      rw [answered] at written
      exact ih written
    next => exact written

private theorem deleteFor_idle {e : Engine} {id : Uuid} {tenant : Option String} (absent : lookup e id tenant = none) :
    (deleteFor e id tenant).2.tables = e.tables ∧ (deleteFor e id tenant).2.config = e.config := by
  cases tenant with
  | some t =>
    have none : e.memories.getScoped id t = none := absent
    rw [deleteFor,memoryDeleteScoped,none]
    exact ⟨rfl,rfl⟩
  | none =>
    have missing : e.memories.find id = none := Option.map_eq_none_iff.mp absent
    have kept : e.memories.deleteId id = e.memories := by
      apply Table.ext
      refine List.filter_eq_self.mpr (fun row inside => ?_)
      have other : row.id ≠ id := fun own => (e.memories.find_eq_none id).mp missing ((e.memories.mem_keys id).mpr
        ⟨row,inside,own⟩)
      simpa using other
    exact ⟨congrArg (fun m => { e.tables with memories := m }) kept,rfl⟩

private theorem documentIngest_idle {doc : DocumentIngest} {scope : MemoryScope} {opts : ChunkOptions}
    (nothing : documentInputs doc scope opts = []) (stored : e.memories.findActiveByDocument env scope doc.path = [])
    (draws : Nat → Draw) (now : Int) : (documentIngest env e doc scope opts draws now).2 = e := by
  have batch : memoryAddBatch env e (withDraws [] draws) = (.ok [],e) := rfl
  rw [documentIngest,nothing,stored]
  simp only [batch]
  rfl

private theorem documentPrune_idle {scope : MemoryScope} {project : String} {keepPaths : List String}
    (kept : ∀ m ∈ e.memories.listProjectChunks scope project, ∀ subject, m.subject = some subject →
      documentOf subject ∈ keepPaths.map (normalizeSubject env)) (now : Int) :
    (documentPrune env e scope project keepPaths now).2 = e := by
  have nothing : pruneRows (e.memories.listProjectChunks scope project) (keepPaths.map (normalizeSubject env)) now = [] := by
    rw [pruneRows,List.map_eq_nil_iff,List.filter_eq_nil_iff]
    intro m inside chosen
    split at chosen
    next subject given => exact of_decide_eq_true chosen (kept m inside subject given)
    next => cases chosen
  rw [documentPrune,nothing]
  rfl

private theorem Cluster.Sound.unchanged (sound : c.Sound env e) {i : NodeId} {after : Engine} (same : after = c.engine i) :
    (c.setEngine i after).Sound env e :=
  sound.setEngine (congrArg Engine.tables same) (congrArg Engine.config same)

private theorem Cluster.Sound.called {α : Type} (sound : c.Sound env e) {i : NodeId} {call : Except Error α × Engine}
    (same : call.2 = c.engine i) : (c.called i call).2.Sound env e := by
  obtain ⟨answer,after⟩ := call
  cases answer <;> exact sound.unchanged same

private theorem sound_rest (sound : c.Sound env e) (readings : Nat → Reading) (i : NodeId) (caller : Caller)
    (write : RestWrite) (replicates : write.Replicates env g (c.engine i) caller) :
    (write.handle env g readings c i caller).2.Sound env e := by
  cases write with
  | memoryAdd req d =>
    simp only [RestWrite.handle,Rest.memoryAdd]
    split
    next => exact sound
    next => exact sound.proposePlanned readings i _
  | memoryAddBatch reqs draws =>
    simp only [RestWrite.handle,Rest.memoryAddBatch]
    split
    next => exact sound
    next =>
      split
      next => exact sound
      next =>
        split
        next => exact sound
        next => exact sound_addEach sound readings i _
  | memoryUpdate id patch d =>
    simp only [RestWrite.handle,Rest.memoryUpdate]
    split
    next => exact sound
    next =>
      split
      next => exact sound
      next =>
        split
        next => exact sound
        next => exact sound.propose readings i _
  | memoryDelete id =>
    simp only [RestWrite.handle,Rest.memoryDelete]
    split
    next => exact sound
    next uuid parsed =>
      obtain ⟨tables,config⟩ := deleteFor_idle (replicates uuid parsed)
      split
      next after deleted =>
        rw [deleted] at tables config
        exact sound.setEngine tables config
      next after deleted =>
        rw [deleted] at tables config
        exact sound.setEngine tables config
  | documentIngest req draws now =>
    simp only [RestWrite.handle,Rest.documentIngest]
    split
    next => exact sound
    next =>
      split
      next => exact sound
      next => exact sound.called (documentIngest_idle replicates.1 replicates.2 draws now)
  | documentPrune req now =>
    simp only [RestWrite.handle,Rest.documentPrune]
    split
    next => exact sound
    next =>
      split
      next => exact sound
      next => exact sound.called (documentPrune_idle replicates now)
  | _ => exact replicates.elim

private theorem sound_mcp (sound : c.Sound env e) (readings : Nat → Reading) (i : NodeId) (tenant : Option String)
    (args : Json) (drawn : ToolDraw) (tool : WriteTool) :
    (Mcp.callTool env g readings c i tenant args drawn tool).2.Sound env e := by
  cases tool with
  | ingest =>
    simp only [Mcp.callTool,Mcp.ingest]
    split
    next => exact sound
    next => exact sound
    next => exact sound.propose readings i _
  | setState =>
    simp only [Mcp.callTool,Mcp.setState]
    split
    next => exact sound
    next => exact sound
    next => exact sound
    next => exact sound.propose readings i _
  | addMemory =>
    simp only [Mcp.callTool,Mcp.addMemory]
    split
    next => exact sound
    next => exact sound.proposePlanned readings i _
  | deleteMemory =>
    simp only [Mcp.callTool,Mcp.deleteMemory]
    split
    next => exact sound
    next =>
      split
      next => exact sound
      next => exact sound.propose readings i _
  | updateMemory =>
    simp only [Mcp.callTool,Mcp.updateMemory]
    split
    next => exact sound
    next =>
      split
      next => exact sound
      next =>
        split
        next => exact sound
        next => exact sound.propose readings i _
  | remember =>
    simp only [Mcp.callTool,Mcp.remember]
    split
    next => exact sound
    next =>
      split
      next => exact sound
      next => exact sound.propose readings i _
  | linkMemory =>
    simp only [Mcp.callTool,Mcp.linkMemory]
    split
    next => exact sound
    next => exact sound
    next => exact sound
    next => exact sound.propose readings i _
  | memoryFeedback =>
    simp only [Mcp.callTool,Mcp.memoryFeedback]
    split
    next => exact sound
    next =>
      split
      next => exact sound
      next =>
        split
        next => exact sound
        next => exact sound.propose readings i _
        next => exact sound.propose readings i _

private theorem sound_grpc (sound : c.Sound env e) (i : NodeId) (tenant : Option String) (write : GrpcWrite)
    (replicates : write.Replicates g (c.engine i) tenant) : (write.handle env g c i tenant).2.Sound env e := by
  cases write with
  | ingest source payloads stamps embedder =>
    cases replicates
    cases tenant <;> exact sound.unchanged rfl
  | deleteMemory id =>
    simp only [GrpcWrite.handle,Grpc.deleteMemory]
    split
    next => exact sound
    next uuid parsed =>
      obtain ⟨tables,config⟩ := deleteFor_idle (replicates uuid parsed)
      exact sound.setEngine tables config
  | _ => exact replicates.elim

theorem ClusterMove.sound (sound : c.Sound env e) (move : ClusterMove) (replicates : move.Replicates env g c) :
    (move.step env g c).Sound env e := by
  unfold ClusterMove.step
  cases move with
  | rest i caller write readings =>
    simp only [ClusterMove.handle,restWrite]
    split
    next => exact sound
    next home routed => exact sound_rest sound readings home caller write (replicates home routed)
  | mcp i tenant tool args drawn readings => exact sound_mcp sound readings i tenant args drawn tool
  | grpc i tenant write => exact sound_grpc sound i tenant write replicates
  | apply i reading => exact sound.applyNext i reading
  | elect leader => exact sound

variable (env g)

/-- From nodes that start alike, whatever is asked of whichever node: nodes that have applied the whole log hold
the same rows in every state, if every request writes through the log or has nothing to write. -/
theorem rows_agree_throughout (e : Engine) (leader : Option NodeId) (moves : List ClusterMove)
    (replicates : Along (ClusterMove.step env g) (ClusterMove.Replicates env g) (.formed e leader) moves) :
    Throughout (ClusterMove.step env g) Cluster.Agreed (.formed e leader) moves := by
  have sound := replicates.throughout (Cluster.Sound.formed env e leader) (fun _ move sound given => move.sound sound given)
  exact fun n => (sound n).agreed

end

def plainGateway : Gateway where
  parseUuid := fun s => if s = (7 : Uuid).toString then some 7 else none
  isAlphanumeric := Char.isAlphanum
  promotion := ⟨false,[]⟩
  peerHttp := fun _ => true

def teaRequest : MemoryAddRequest :=
  ⟨"likes tea",some "drink",none,⟨none,some "ada",none,none⟩,none,none,none,none⟩

/-- A follower passes a memory on to the leader and applies it later; then it is asked to delete one it does not
have. -/
def forwardedMoves : List ClusterMove :=
  [.rest 2 ⟨some "acme",none⟩ (.memoryAdd teaRequest (.plain 1000 1)) (fun _ => .uniform 2000),
    .apply 2 (.uniform 9000),.grpc 2 none (.deleteMemory (7 : Uuid).toString)]

theorem rows_agree_throughout_forwarded :
    Throughout (ClusterMove.step .ascii plainGateway) Cluster.Agreed (.formed (.empty .default 2) (some 1)) forwardedMoves := by
  refine rows_agree_throughout .ascii plainGateway (.empty .default 2) (some 1) forwardedMoves ?_
  refine ⟨fun _ _ => trivial,trivial,?_,trivial⟩
  intro uuid parsed
  have named : uuid = 7 := by
    change (if (7 : Uuid).toString = (7 : Uuid).toString then some (7 : Uuid) else none) = some uuid at parsed
    rw [if_pos rfl] at parsed
    exact (Option.some.inj parsed).symm
  subst named
  have absent : ((run (ClusterMove.step .ascii plainGateway) (.formed (.empty .default 2) (some 1))
      (forwardedMoves.take 2)).engine 2).memories.find 7 = none := by
    decide +kernel
  exact congrArg (Option.map MemoryRow.memory) absent

def rpcAdd : ClusterMove := .grpc 2 (some "acme") (.addMemory ⟨"ada","",""⟩ (some "drink") "likes tea" none (.plain 1000 1))

/-- A memory added by an RPC is acknowledged and stays on the node that took the call. -/
theorem rpc_write_unreplicated :
    (rpcAdd.handle .ascii plainGateway (.formed (.empty .default 2) (some 1))).1 = .ok ∧
      ¬Throughout (ClusterMove.step .ascii plainGateway) Cluster.Agreed (.formed (.empty .default 2) (some 1)) [rpcAdd] := by
  refine ⟨by decide +kernel,?_⟩
  intro agreed
  have same := (agreed 1 1 2 rfl rfl).memories 1
  revert same
  decide +kernel

end Ecphoria
