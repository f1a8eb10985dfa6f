import Ecphoria.Cluster.Replay

/-! Two replicas that apply one log at their own times. They agree on the memories, the
graph and the events as long as no statement writes the clock of the node that runs
it: expiring an active row does, and so does adding an edge. -/
namespace Ecphoria
open Library

structure SameTables (a b : Engine) : Prop where
  memories : a.memories = b.memories
  edges : a.edges = b.edges
  episodic : a.episodic = b.episodic

section
variable (env : Env)

/-- The request makes no statement write its own clock. -/
def Timeless (e : Engine) : AppRequest → Prop
  | .memoryUpsert rows => ∀ row ∈ rows, ∀ edge ∈ graphEdges env e.config row, edge.id ∈ e.edges.keys
  | .graphAddEdge _ edge => edge.id ∈ e.edges.keys
  | .memoryExpire ids => ∀ id ∈ ids, ∀ row ∈ e.memories.rows, row.id = id → row.memory.state ≠ .active
  | _ => True

instance (e : Engine) : ∀ request, Decidable (Timeless env e request)
  | .memoryUpsert rows => inferInstanceAs (Decidable (∀ row ∈ rows, ∀ edge ∈ graphEdges env e.config row,
      edge.id ∈ e.edges.keys))
  | .graphAddEdge _ edge => inferInstanceAs (Decidable (edge.id ∈ e.edges.keys))
  | .memoryExpire ids => inferInstanceAs (Decidable (∀ id ∈ ids, ∀ row ∈ e.memories.rows, row.id = id →
      row.memory.state ≠ .active))
  | .ingest _ _ => isTrue trivial
  | .stateSet _ _ _ _ => isTrue trivial
  | .stateDelete _ _ _ => isTrue trivial
  | .semanticUpsert _ _ _ _ => isTrue trivial
  | .semanticDelete _ => isTrue trivial
  | .memoryDelete _ => isTrue trivial
  | .graphSupersede _ _ _ _ _ => isTrue trivial
  | .runCreate _ => isTrue trivial
  | .runUpdate _ _ _ => isTrue trivial

structure Applied where
  request : AppRequest
  left : Reading
  right : Reading

def leftStep (node : Node) (entry : Applied) : Node := applyEntry env entry.left node entry.request

def rightStep (node : Node) (entry : Applied) : Node := applyEntry env entry.right node entry.request

structure InStep (a b : Node) : Prop where
  config : a.engine.config = b.engine.config
  dimension : a.engine.semantic.dimension = b.engine.semantic.dimension
  tables : SameTables a.engine b.engine
  halted : a.halted = b.halted

private theorem takes_same {a b : Engine} {request : AppRequest} (tables : SameTables a b)
    (dimension : a.semantic.dimension = b.semantic.dimension) : Takes a request ↔ Takes b request := by
  cases request with
  | ingest events tenant => simp only [Takes,tables.episodic]
  | semanticUpsert id content embedding metadata => simp only [Takes,dimension]
  | _ => exact Iff.rfl

theorem applyRequest_timeless {a b : Engine} {left right : Reading} {request : AppRequest}
    (config : a.config = b.config) (tables : SameTables a b) (timeless : Timeless env a request) :
    SameTables (applyRequest env left a request).2 (applyRequest env right b request).2 := by
  cases request with
  | ingest events tenant =>
    simp only [applyRequest,ingestReplicated,tables.episodic]
    cases b.episodic.append (tagEvents tenant events) with
    | error err => exact tables
    | ok appended => exact ⟨tables.memories,tables.edges,rfl⟩
  | semanticUpsert id content embedding metadata =>
    have kept (reading : Reading) (e : Engine) :
        SameTables (applyRequest env reading e (.semanticUpsert id content embedding metadata)).2 e := by
      have same := applyRequest_tables env reading e (.semanticUpsert id content embedding metadata)
      exact ⟨congrArg Tables.memories same,congrArg Tables.edges same,congrArg Tables.episodic same⟩
    exact ⟨(kept left a).memories.trans (tables.memories.trans (kept right b).memories.symm),
      (kept left a).edges.trans (tables.edges.trans (kept right b).edges.symm),
      (kept left a).episodic.trans (tables.episodic.trans (kept right b).episodic.symm)⟩
  | memoryUpsert rows =>
    have known : ∀ row ∈ rows, ∀ edge ∈ graphEdges env b.config row, edge.id ∈ b.edges.keys := by
      rw [← config,← tables.edges]
      exact timeless
    have episodic (stamp : Uuid → Int) (e : Engine) : (memoryApplyRows env stamp e rows).episodic = e.episodic := by
      have frame := Tables.applyRows_frame env e.config stamp e.tables rows
      rw [← memoryApplyRows_tables] at frame
      exact congrArg Tables.episodic frame
    refine ⟨?_,?_,?_⟩
    · simp only [applyRequest,memoryApplyRows_memories,tables.memories]
    · exact (memoryApplyRows_edges_known env timeless).trans
        (tables.edges.trans (memoryApplyRows_edges_known env known).symm)
    · exact (episodic left.stamp a).trans (tables.episodic.trans (episodic right.stamp b).symm)
  | memoryDelete id =>
    exact ⟨congrArg (fun t => MemoryTable.deleteId t id) tables.memories,tables.edges,tables.episodic⟩
  | graphAddEdge tenant edge =>
    have known : edge.id ∈ b.edges.keys := by
      rw [← tables.edges]
      exact timeless
    refine ⟨tables.memories,?_,tables.episodic⟩
    exact (Table.insertIgnore_known _ _ timeless).trans
      (tables.edges.trans (Table.insertIgnore_known _ _ known).symm)
  | graphSupersede tenant src relation instant byEdge =>
    exact ⟨tables.memories,congrArg (fun t => EdgeTable.supersedeEdges t _ _ _ _ _) tables.edges,tables.episodic⟩
  | memoryExpire ids =>
    have known : ∀ id ∈ ids, ∀ row ∈ b.memories.rows, row.id = id → row.memory.state ≠ .active := by
      rw [← tables.memories]
      exact timeless
    have others (stamp : Uuid → Int) (e : Engine) : (memoryExpire stamp e ids).edges = e.edges ∧
        (memoryExpire stamp e ids).episodic = e.episodic :=
      ⟨congrArg Tables.edges (memoryExpire_frame stamp e ids).1,
        congrArg Tables.episodic (memoryExpire_frame stamp e ids).1⟩
    refine ⟨?_,?_,?_⟩
    · have still : (memoryExpire left.stamp a ids).memories = a.memories := by
        rw [memoryExpire_memories,expireAll_inactive left.stamp timeless]
      have quiet : (memoryExpire right.stamp b ids).memories = b.memories := by
        rw [memoryExpire_memories,expireAll_inactive right.stamp known]
      exact still.trans (tables.memories.trans quiet.symm)
    · exact (others left.stamp a).1.trans (tables.edges.trans (others right.stamp b).1.symm)
    · exact (others left.stamp a).2.trans (tables.episodic.trans (others right.stamp b).2.symm)
  | _ => exact ⟨tables.memories,tables.edges,tables.episodic⟩

theorem InStep.step {a b : Node} {entry : Applied} (inStep : InStep a b)
    (timeless : a.halted = false → Timeless env a.engine entry.request) :
    InStep (leftStep env a entry) (rightStep env b entry) := by
  cases running : a.halted with
  | true =>
    have stopped : b.halted = true := inStep.halted ▸ running
    have stay : leftStep env a entry = a := by simp [leftStep,applyEntry,running]
    have wait : rightStep env b entry = b := by simp [rightStep,applyEntry,stopped]
    rw [stay,wait]
    exact inStep
  | false =>
    have alive : b.halted = false := inStep.halted ▸ running
    obtain ⟨engineA,endsA⟩ := applyEntry_running env entry.left entry.request running
    obtain ⟨engineB,endsB⟩ := applyEntry_running env entry.right entry.request alive
    refine ⟨?_,?_,?_,?_⟩
    · rw [leftStep,rightStep,engineA,engineB,applyRequest_config,applyRequest_config]
      exact inStep.config
    · rw [leftStep,rightStep,engineA,engineB,applyRequest_dimension,applyRequest_dimension]
      exact inStep.dimension
    · rw [leftStep,rightStep,engineA,engineB]
      exact applyRequest_timeless env inStep.config inStep.tables (timeless running)
    · have both := endsA.trans ((takes_same inStep.tables inStep.dimension).trans endsB.symm)
      rw [leftStep,rightStep]
      exact Bool.eq_iff_iff.mpr (by simpa using not_congr both)

/-- Two replicas that start alike and apply the same log, each at its own times, hold the same memories,
edges and events after every entry, when every entry is timeless where it is applied. -/
theorem replicas_agree (e : Engine) (log : List Applied)
    (timeless : Along (leftStep env) (fun node entry => node.halted = false →
      Timeless env node.engine entry.request) ⟨e,0,false⟩ log) (n : Nat) :
    SameTables (run (leftStep env) ⟨e,0,false⟩ (log.take n)).engine
      (run (rightStep env) ⟨e,0,false⟩ (log.take n)).engine := by
  have start : InStep ⟨e,0,false⟩ ⟨e,0,false⟩ := ⟨rfl,rfl,⟨rfl,rfl,rfl⟩,rfl⟩
  exact ((timeless.take n).related start (fun a b entry inStep ok => inStep.step env ok)).tables

end

private def cityRow (id : Uuid) (content : String) : MemoryRow :=
  ⟨{ Memory.new id 1000 (.tenant "acme") content with subject := some "city" },none⟩

def replicatedLog : List Applied :=
  [⟨.memoryUpsert [cityRow 1 "Oslo"],.uniform 2000,.uniform 9000⟩,
    ⟨.stateSet "planner" "step" (.int 1) none,.uniform 3000,.uniform 9500⟩,
    ⟨.ingest [⟨7,"app","login",.obj [],500,none,none,[],none⟩] (some "acme"),.uniform 4000,.uniform 9900⟩,
    ⟨.memoryDelete 1,.uniform 5000,.uniform 9950⟩]

theorem replicas_agree_log :
    SameTables (run (leftStep .ascii) ⟨.empty .default 2,0,false⟩ (replicatedLog.take 4)).engine
      (run (rightStep .ascii) ⟨.empty .default 2,0,false⟩ (replicatedLog.take 4)).engine :=
  replicas_agree .ascii (.empty .default 2) replicatedLog (by decide +kernel) 4

def expiringLog : List Applied :=
  [⟨.memoryUpsert [cityRow 1 "Oslo"],.uniform 2000,.uniform 2000⟩,
    ⟨.memoryExpire [1],.uniform 3000,.uniform 9000⟩]

/-- The interval of the expired memory ends when each replica got to it. -/
theorem replicas_disagree_on_expiry :
    ¬SameTables (run (leftStep .ascii) ⟨.empty .default 2,0,false⟩ (expiringLog.take 2)).engine
      (run (rightStep .ascii) ⟨.empty .default 2,0,false⟩ (expiringLog.take 2)).engine := by
  intro same
  have ends := congrArg (fun t : MemoryTable => t.rows.map (fun row => row.memory.validTo)) same.memories
  revert ends
  decide +kernel

end Ecphoria
