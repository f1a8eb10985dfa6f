import Ecphoria.Runtime.Ledger
import Ecphoria.Runtime.TopoOrder

/-! Workflows: a parent run, and a child run for each node in the order of the
dependencies. The parent is ended by one update after the last child, which the calls
that fail before it skip. -/
namespace Ecphoria

open Library

def RunStatus.asStr : RunStatus → String
  | .pending => "pending"
  | .running => "running"
  | .waitingApproval => "waiting_approval"
  | .succeeded => "succeeded"
  | .failed => "failed"
  | .cancelled => "cancelled"

/-- What `run_agent_with_parent` comes to for one node: the run it draws, when it was created if it was, the updates of
that run and no other, and what is returned. -/
structure ChildRun where
  id : Uuid
  createdAt : Option Int
  patches : List (RunPatch × Int)
  outcome : Except Error RunStatus

/-- An update of the parent: when the row was written, if it was, and how the call ended. -/
structure UpdateCall where
  writtenAt : Option Int
  result : Except Error Unit

/-- What the calls of a workflow draw and how they end. The update to running is not looked at. -/
structure WorkflowCalls (n : Nat) where
  id : Uuid
  createdAt : Int
  created : Except Error Unit
  startedAt : Int
  started : UpdateCall
  child : Fin n → ChildRun
  logged : Fin n → Except Error Unit
  now : Int
  ended : UpdateCall
  reread : Except Error Unit

structure WorkflowStores where
  runs : RunTable
  steps : List Json

def ChildRun.drive (child : ChildRun) (runs : RunTable) (tenant : String) (node : WorkflowNode) (parent : Uuid) :
    RunTable :=
  match child.createdAt with
  | none => runs
  | some now =>
    let run := newRun child.id tenant (some node.agentId) (some parent) (.obj [("question",.str node.question)]) now
    child.patches.foldl (fun runs (patch,now) => runs.patchRun child.id patch now) (runs.create run)

def UpdateCall.write (call : UpdateCall) (runs : RunTable) (id : Uuid) (patch : RunPatch) : RunTable :=
  match call.writtenAt with
  | none => runs
  | some now => runs.patchRun id patch now

def subagentStep (node : WorkflowNode) (child : ChildRun) (status : RunStatus) : Json :=
  .obj [("child_run",.str child.id.toString),("node",.str node.id),("status",.str status.asStr)]

def childEntry (node : WorkflowNode) (child : ChildRun) : Json :=
  .obj [("node",.str node.id),("run_id",.str child.id.toString)]

def workflowPatch (failed : Bool) (children : List Json) (now : Int) : RunPatch :=
  if failed then
    { RunPatch.mark .failed with
      result := some (.obj [("children",.arr children)])
      error := some "a workflow node did not succeed"
      endedAt := some now }
  else { RunPatch.mark .succeeded with result := some (.obj [("children",.arr children)]), endedAt := some now }

section
variable (tenant : String) (nodes : List WorkflowNode) (calls : WorkflowCalls nodes.length)

/-- The loop over the order: an error returns, a child that did not succeed breaks. -/
def runNodes : List (Fin nodes.length) → WorkflowStores → List Json → WorkflowStores × Except Error (Bool × List Json)
  | [], stores, children => (stores,.ok (false,children))
  | i :: order, stores, children =>
    let node := nodes.get i
    let child := calls.child i
    let driven := { stores with runs := child.drive stores.runs tenant node calls.id }
    match child.outcome with
    | .error err => (driven,.error err)
    | .ok status =>
      match calls.logged i with
      | .error err => (driven,.error err)
      | .ok _ =>
        let logged := { driven with steps := driven.steps ++ [subagentStep node child status] }
        let children := children ++ [childEntry node child]
        if status ≠ .succeeded then (logged,.ok (true,children)) else runNodes order logged children

def parentRun : Run :=
  newRun calls.id tenant (some "workflow") none (.obj [("nodes",.int nodes.length)]) calls.createdAt

def openParent (runs : RunTable) : RunTable :=
  calls.started.write (runs.create (parentRun tenant nodes calls)) calls.id
    { RunPatch.mark .running with startedAt := some calls.startedAt }

def runWorkflow (runs : RunTable) : WorkflowStores × Except Error Run :=
  match (topoOrder nodes).join with
  | none => (⟨runs,[]⟩,.error (.ingest "workflow has a dependency cycle or unknown dep"))
  | some order =>
    match calls.created with
    | .error err => (⟨runs,[]⟩,.error err)
    | .ok _ =>
      match runNodes tenant nodes calls order ⟨openParent tenant nodes calls runs,[]⟩ [] with
      | (ran,.error err) => (ran,.error err)
      | (ran,.ok (failed,children)) =>
        let ended := { ran with runs := calls.ended.write ran.runs calls.id (workflowPatch failed children calls.now) }
        match calls.ended.result with
        | .error err => (ended,.error err)
        | .ok _ =>
          match calls.reread with
          | .error err => (ended,.error err)
          | .ok _ => (ended,.ok ((ended.runs.find calls.id).getD (parentRun tenant nodes calls)))

/-- Every child that is driven returns its run, and its step is journaled. -/
def runsThrough : List (Fin nodes.length) → Bool
  | [] => true
  | i :: order =>
    match (calls.child i).outcome,calls.logged i with
    | .ok status,.ok _ => status ≠ .succeeded || runsThrough order
    | _,_ => false

end

def RunTable.statusOf (runs : RunTable) (id : Uuid) : Option RunStatus := (runs.find id).map Run.status

theorem statusOf_patchRun (runs : RunTable) (id other : Uuid) (patch : RunPatch) (now : Int) :
    (runs.patchRun id patch now).statusOf other =
      (runs.statusOf other).map (fun status => if other = id then patch.status.getD status else status) := by
  rw [RunTable.statusOf,RunTable.find_patchRun,RunTable.statusOf,Option.map_map,Option.map_map]
  congr 1
  funext run
  simp only [Function.comp_apply]
  split <;> rfl

private theorem statusOf_create_known {runs : RunTable} {id : Uuid} {status : RunStatus}
    (known : runs.statusOf id = some status) (run : Run) : (runs.create run).statusOf id = some status := by
  obtain ⟨found,there,rfl⟩ := Option.map_eq_some_iff.mp known
  rw [RunTable.statusOf,RunTable.create,Table.find_insertIgnore_known there]
  rfl

theorem statusOf_drive {runs : RunTable} {id : Uuid} {status : RunStatus} (known : runs.statusOf id = some status)
    (child : ChildRun) (apart : child.id ≠ id) (tenant : String) (node : WorkflowNode) (parent : Uuid) :
    (child.drive runs tenant node parent).statusOf id = some status := by
  have patched (patches : List (RunPatch × Int)) (runs : RunTable) (known : runs.statusOf id = some status) :
      (patches.foldl (fun runs (patch,now) => runs.patchRun child.id patch now) runs).statusOf id = some status := by
    induction patches generalizing runs with
    | nil => exact known
    | cons first patches ih =>
      apply ih
      rw [statusOf_patchRun,known,Option.map_some,if_neg apart.symm]
  unfold ChildRun.drive
  split
  next => exact known
  next => exact patched _ _ (statusOf_create_known known _)

theorem statusOf_write (call : UpdateCall) (runs : RunTable) (id : Uuid) (patch : RunPatch) :
    (call.write runs id patch).statusOf id =
      if call.writtenAt.isSome then (runs.statusOf id).map (fun status => patch.status.getD status)
      else runs.statusOf id := by
  unfold UpdateCall.write
  cases call.writtenAt with
  | none => rfl
  | some now =>
    rw [statusOf_patchRun]
    simp

private theorem workflowPatch_ends (failed : Bool) (children : List Json) (now : Int) (status : RunStatus) :
    ((workflowPatch failed children now).status.getD status).isTerminal = true := by
  cases failed <;> rfl

section
variable {tenant : String} {nodes : List WorkflowNode} {calls : WorkflowCalls nodes.length}

theorem openParent_open {runs : RunTable} (fresh : calls.id ∉ runs.keys) :
    ∃ status, (openParent tenant nodes calls runs).statusOf calls.id = some status ∧
      (status = .pending ∨ status = .running) := by
  have made : (runs.create (parentRun tenant nodes calls)).statusOf calls.id = some .pending := by
    have absent : (parentRun tenant nodes calls).id ∉ runs.keys := fresh
    rw [RunTable.statusOf,RunTable.create,Table.insertIgnore,if_neg absent,Table.find_upsert]
    exact congrArg (Option.map Run.status) (if_pos rfl)
  rw [openParent,statusOf_write,made]
  split
  next => exact ⟨.running,rfl,Or.inr rfl⟩
  next => exact ⟨.pending,rfl,Or.inl rfl⟩

theorem statusOf_runNodes (apart : ∀ i, (calls.child i).id ≠ calls.id) (order : List (Fin nodes.length))
    {stores : WorkflowStores} (children : List Json) {status : RunStatus}
    (known : stores.runs.statusOf calls.id = some status) :
    (runNodes tenant nodes calls order stores children).1.runs.statusOf calls.id = some status := by
  induction order generalizing stores children with
  | nil => exact known
  | cons i order ih =>
    have driven := statusOf_drive known (calls.child i) (apart i) tenant (nodes.get i) calls.id
    rw [runNodes]
    dsimp only
    split
    next => exact driven
    next =>
      split
      next => exact driven
      next =>
        split
        next => exact driven
        next => exact ih _ driven

theorem runNodes_ok (order : List (Fin nodes.length)) (stores : WorkflowStores) (children : List Json) :
    (∃ result, (runNodes tenant nodes calls order stores children).2 = .ok result) ↔ runsThrough nodes calls order = true := by
  induction order generalizing stores children with
  | nil => exact iff_of_true ⟨_,rfl⟩ rfl
  | cons i order ih =>
    rw [runNodes,runsThrough]
    dsimp only
    cases (calls.child i).outcome with
    | error err => exact iff_of_false (fun ⟨_,same⟩ => nomatch same) (by simp)
    | ok status =>
      cases calls.logged i with
      | error err => exact iff_of_false (fun ⟨_,same⟩ => nomatch same) (by simp)
      | ok _ =>
        dsimp only
        by_cases succeeded : status = .succeeded
        · rw [if_neg (fun other => other succeeded)]
          simpa [succeeded] using ih _ _
        · rw [if_pos succeeded]
          exact iff_of_true ⟨_,rfl⟩ (by simp [succeeded])

end

theorem listResumable_iff {runs : RunTable} {id : Uuid} {status : RunStatus} (known : runs.statusOf id = some status) :
    (∃ staleBefore limit, id ∈ (runs.listResumable staleBefore limit).map Run.id) ↔
      status = .pending ∨ status = .running := by
  obtain ⟨run,found,rfl⟩ := Option.map_eq_some_iff.mp known
  obtain ⟨inside,rfl⟩ := (Table.find_eq_some runs id run).mp found
  refine ⟨?_,?_⟩
  · rintro ⟨staleBefore,limit,listed⟩
    obtain ⟨other,taken,same⟩ := List.mem_map.mp listed
    have member := (List.perm_insertionSort _ _).mem_iff.mp (List.mem_of_mem_take taken)
    obtain ⟨present,stale⟩ := List.mem_filter.mp member
    rw [Table.eq_of_key runs present inside same] at stale
    simp only [Bool.and_eq_true,Bool.or_eq_true,decide_eq_true_eq] at stale
    exact stale.1
  · intro opened
    refine ⟨run.updatedAt + 1,runs.rows.length,List.mem_map_of_mem ?_⟩
    rw [RunTable.listResumable,List.take_of_length_le]
    · refine (List.perm_insertionSort _ _).mem_iff.mpr (List.mem_filter.mpr ⟨inside,?_⟩)
      simp only [Bool.and_eq_true,Bool.or_eq_true,decide_eq_true_eq]
      exact ⟨opened,Int.lt_add_one_of_le (le_refl _)⟩
    · rw [(List.perm_insertionSort _ _).length_eq]
      exact List.length_filter_le _ _

private theorem workflow_status {runs : RunTable} {tenant : String} {nodes : List WorkflowNode}
    {calls : WorkflowCalls nodes.length} {order : List (Fin nodes.length)} (sorted : topoOrder nodes = some (some order))
    (created : calls.created = .ok ()) (fresh : calls.id ∉ runs.keys) (apart : ∀ i, (calls.child i).id ≠ calls.id) :
    ∃ status, (runWorkflow tenant nodes calls runs).1.runs.statusOf calls.id = some status ∧
      if runsThrough nodes calls order = true ∧ calls.ended.writtenAt.isSome = true then status.isTerminal = true
      else status = .pending ∨ status = .running := by
  obtain ⟨status,opened,unended⟩ : ∃ status, (openParent tenant nodes calls runs).statusOf calls.id = some status ∧
    (status = .pending ∨ status = .running) := openParent_open fresh
  have start : (⟨openParent tenant nodes calls runs,[]⟩ : WorkflowStores).runs.statusOf calls.id = some status := opened
  have ran : (runNodes tenant nodes calls order ⟨openParent tenant nodes calls runs,[]⟩ []).1.runs.statusOf calls.id =
      some status := statusOf_runNodes apart order [] start
  have through : (∃ result, (runNodes tenant nodes calls order ⟨openParent tenant nodes calls runs,[]⟩ []).2 = .ok result) ↔
      runsThrough nodes calls order = true := runNodes_ok order _ []
  rw [runWorkflow,sorted,created]
  dsimp only [Option.join_some]
  cases left : runNodes tenant nodes calls order ⟨openParent tenant nodes calls runs,[]⟩ [] with
  | mk stores result =>
    rw [left] at ran through
    cases result with
    | error err =>
      refine ⟨status,ran,?_⟩
      rw [if_neg]
      · exact unended
      · rintro ⟨all,_⟩
        obtain ⟨_,same⟩ := through.mpr all
        cases same
    | ok done =>
      obtain ⟨failed,children⟩ := done
      have all := through.mp ⟨_,rfl⟩
      have written := statusOf_write calls.ended stores.runs calls.id (workflowPatch failed children calls.now)
      rw [ran,Option.map_some] at written
      -- the update is made before its result and the reread are looked at
      have kept : ∃ status', (calls.ended.write stores.runs calls.id (workflowPatch failed children calls.now)).statusOf
          calls.id = some status' ∧ if calls.ended.writtenAt.isSome = true then status'.isTerminal = true
            else status' = .pending ∨ status' = .running := by
        by_cases wrote : calls.ended.writtenAt.isSome = true
        · rw [if_pos wrote] at written
          exact ⟨_,written,by rw [if_pos wrote]; exact workflowPatch_ends failed children calls.now status⟩
        · rw [if_neg wrote] at written
          exact ⟨_,written,by rw [if_neg wrote]; exact unended⟩
      simp only [all,true_and]
      cases calls.ended.result with
      | error err => exact kept
      | ok _ =>
        cases calls.reread with
        | error err => exact kept
        | ok _ => exact kept

/-- Once the parent is created, it is terminal at the return of the call exactly where every child that was driven
returned its run and had its step journaled, and the update that ends the parent was written; otherwise it is what the
dispatcher takes up. -/
theorem workflow_closed_iff (runs : RunTable) (tenant : String) (nodes : List WorkflowNode)
    (calls : WorkflowCalls nodes.length) (order : List (Fin nodes.length)) (sorted : topoOrder nodes = some (some order))
    (created : calls.created = .ok ()) (fresh : calls.id ∉ runs.keys) (apart : ∀ i, (calls.child i).id ≠ calls.id) :
    ((((runWorkflow tenant nodes calls runs).1.runs.statusOf calls.id).any RunStatus.isTerminal = true) ↔
      runsThrough nodes calls order = true ∧ calls.ended.writtenAt.isSome = true) ∧
    ((∀ staleBefore limit, calls.id ∉
        ((runWorkflow tenant nodes calls runs).1.runs.listResumable staleBefore limit).map Run.id) ↔
      runsThrough nodes calls order = true ∧ calls.ended.writtenAt.isSome = true) := by
  obtain ⟨status,known,ended⟩ : ∃ status,
      (runWorkflow tenant nodes calls runs).1.runs.statusOf calls.id = some status ∧
        if runsThrough nodes calls order = true ∧ calls.ended.writtenAt.isSome = true then status.isTerminal = true
        else status = .pending ∨ status = .running := workflow_status sorted created fresh apart
  have taken := listResumable_iff known
  have dispatched : (∀ staleBefore limit, calls.id ∉
      ((runWorkflow tenant nodes calls runs).1.runs.listResumable staleBefore limit).map Run.id) ↔
        ¬(status = .pending ∨ status = .running) := by
    rw [← taken]
    exact ⟨fun never ⟨staleBefore,limit,listed⟩ => never staleBefore limit listed,
      fun never staleBefore limit listed => never ⟨staleBefore,limit,listed⟩⟩
  rw [known,dispatched,Option.any_some]
  split at ended
  next closed =>
    refine ⟨iff_of_true ended closed,iff_of_true ?_ closed⟩
    rintro (rfl | rfl) <;> exact absurd ended (by decide)
  next left =>
    refine ⟨iff_of_false ?_ left,iff_of_false (fun never => never ended) left⟩
    rcases ended with rfl | rfl <;> decide

/-- The calls of a workflow of one node, whose child is patched once and comes to `outcome`. -/
def oneChild (patch : RunPatch) (outcome : Except Error RunStatus) : WorkflowCalls 1 where
  id := 7
  createdAt := 0
  created := .ok ()
  startedAt := 0
  started := ⟨some 0,.ok ()⟩
  child _ := ⟨8,some 1,[(patch,1)],outcome⟩
  logged _ := .ok ()
  now := 2
  ended := ⟨some 2,.ok ()⟩
  reread := .ok ()

abbrev pausedChild : WorkflowCalls 1 := oneChild (.mark .waitingApproval) (.ok .waitingApproval)

abbrev failedChild : WorkflowCalls 1 := oneChild (failedPatch "llm error: timeout" 1) (.error (.query "timeout"))

abbrev oneNode : List WorkflowNode := [⟨"a","agent","first",[]⟩]

theorem oneNode_sorted : topoOrder oneNode = some (some [0]) := by decide +kernel

/-- A child that waits for approval fails the workflow, and the parent is closed. -/
theorem workflow_closed_paused :
    ((((runWorkflow "default" oneNode pausedChild .empty).1.runs.statusOf 7).any RunStatus.isTerminal = true) ↔
      runsThrough oneNode pausedChild [0] = true ∧ pausedChild.ended.writtenAt.isSome = true) ∧
    ((∀ staleBefore limit, (7 : Uuid) ∉
        ((runWorkflow "default" oneNode pausedChild .empty).1.runs.listResumable staleBefore limit).map Run.id) ↔
      runsThrough oneNode pausedChild [0] = true ∧ pausedChild.ended.writtenAt.isSome = true) :=
  workflow_closed_iff .empty "default" oneNode pausedChild [0] oneNode_sorted rfl List.not_mem_nil
    (fun _ => show (8 : Uuid) ≠ 7 by decide)

/-- The completion provider fails in the one child: the call returns the error, the parent stays running, and the next
tick of the dispatcher takes it up. -/
theorem workflow_left_running : topoOrder oneNode = some (some [0]) ∧
    ((runWorkflow "default" oneNode failedChild .empty).1.runs.statusOf 7 = some .running) ∧
    ((runWorkflow "default" oneNode failedChild .empty).1.runs.listResumable 1000 10).map Run.id = [7] := by
  refine ⟨oneNode_sorted,?_,?_⟩
  · decide +kernel
  · decide +kernel

end Ecphoria
