import Ecphoria.Memory.StateScan
import Ecphoria.Runtime.Journal

/-! The run ledger: patches of a run, the lease its driver holds, and the approvals
kept beside it in the state store. The lease columns belong to the table of runs and
are not part of a run. -/
namespace Ecphoria
open Library

def RunStatus.isTerminal : RunStatus → Bool
  | .succeeded | .failed | .cancelled => true
  | .pending | .running | .waitingApproval => false

def RunPatch.unchanged : RunPatch := ⟨none,none,none,none,none,none⟩

def RunPatch.mark (status : RunStatus) : RunPatch := { RunPatch.unchanged with status := some status }

namespace RunTable

theorem keys_patchRun (t : RunTable) (id : Uuid) (patch : RunPatch) (now : Int) : (t.patchRun id patch now).keys = t.keys :=
  Table.keys_update t _ _ _

theorem find_patchRun (t : RunTable) (id : Uuid) (patch : RunPatch) (now : Int) (k : Uuid) :
    (t.patchRun id patch now).find k = (t.find k).map (fun run => if k = id then patch.apply now run else run) := by
  have updated := Table.find_update t (fun run => decide (run.id = id)) (patch.apply now) (fun _ => rfl) k
  refine updated.trans ?_
  cases found : t.find k with
  | none => rfl
  | some run =>
    have same := ((Table.find_eq_some t k run).mp found).2
    simp [same]

end RunTable

def runUpdate (e : Engine) (id : Uuid) (patch : RunPatch) (now : Int) : Engine :=
  { e with runs := e.runs.patchRun id patch now }

structure Lease where
  owner : String
  expiresAt : Int
deriving DecidableEq,Repr

/-- The columns `lease_owner` and `lease_expires_at`, set and cleared together. -/
abbrev LeaseColumns := Uuid → Option Lease

def leaseTtl : Int := 300 * 1000000000

/-- Whether `owner` may take the lease: nobody holds it, `owner` does, or it has run out. -/
def claimable (lease : Option Lease) (owner : String) (now : Int) : Bool :=
  match lease with
  | none => true
  | some held => held.owner = owner || held.expiresAt ≤ now

def tryClaimLease (runs : RunTable) (leases : LeaseColumns) (id : Uuid) (owner : String) (now expiresAt : Int) :
    Bool × LeaseColumns :=
  if id ∈ runs.keys && claimable (leases id) owner now then (true,Function.update leases id (some ⟨owner,expiresAt⟩))
  else (false,leases)

def releaseLease (leases : LeaseColumns) (id : Uuid) (owner : String) : LeaseColumns :=
  if (leases id).any (fun lease => lease.owner = owner) then Function.update leases id none else leases

def RunTable.listResumable (t : RunTable) (staleBefore : Int) (limit : Nat) : List Run :=
  ((t.rows.filter (fun run => (run.status = .pending || run.status = .running) && run.updatedAt < staleBefore)).insertionSort
    (fun a b => a.updatedAt ≤ b.updatedAt)).take limit

def approvalAgent (runId : Uuid) : String := "__approval:" ++ runId.toString

def setApproval (e : Engine) (runId : Uuid) (value : Json) (now : Int) : Engine :=
  { e with state := (e.state.set (approvalAgent runId) "status" value now).2 }

def pendingApproval (prompt : String) : Json := .obj [("prompt",.str prompt),("state",.str "pending")]

def verdict (approved : Bool) : Json := .obj [("state",.str (if approved then "approved" else "rejected"))]

/-- `clock` is what the state store reads as the time of the call. -/
def runApprovalStatus (env : Env) (e : Engine) (runId : Uuid) (clock : String) : Option Json :=
  (e.state.get env (approvalAgent runId) "status" clock).map StateEntry.value

def approvalState (env : Env) (e : Engine) (runId : Uuid) (clock : String) : Option String :=
  ((runApprovalStatus env e runId clock).bind (Json.get "state")).bind Json.asStr

def resolvePatch (approved : Bool) (now : Int) : RunPatch :=
  if approved then .mark .running else { RunPatch.mark .cancelled with endedAt := some now }

def succeededPatch (answer : String) (now : Int) : RunPatch :=
  { RunPatch.mark .succeeded with result := some (.obj [("answer",.str answer)]), endedAt := some now }

def failedPatch (error : String) (now : Int) : RunPatch :=
  { RunPatch.mark .failed with error := some error, endedAt := some now }

/-- The last patch of the loop: the answer, or that the turns ran out. -/
def closingPatch (answer : Option String) (now : Int) : RunPatch :=
  match answer with
  | some text => succeededPatch text now
  | none => failedPatch "max turns exceeded without a final answer" now

def newRun (id : Uuid) (tenant : String) (agentId : Option String) (parentRunId : Option Uuid) (input : Json) (now : Int) :
    Run where
  id := id
  tenantId := tenantOrDefault tenant
  agentId := agentId
  parentRunId := parentRunId
  status := .pending
  input := input
  result := .null
  error := none
  cursor := .null
  createdAt := now
  updatedAt := now
  startedAt := none
  endedAt := none

def runCreate (e : Engine) (run : Run) : Engine := { e with runs := e.runs.create run }

def runGet (e : Engine) (id : Uuid) : Option Run := e.runs.find id

/-- What asking for approval draws from outside: the clocks of the record and of the patch, and the journal's. -/
structure Pausing where
  recordedAt : Int
  pausedAt : Int
  stamp : Stamp

def runRequestApproval (env : Env) (e : Engine) (runId : Uuid) (tenant prompt : String) (pausing : Pausing) :
    Except Failure Unit × Engine :=
  let recorded := setApproval e runId (pendingApproval prompt) pausing.recordedAt
  let paused := runUpdate recorded runId (.mark .waitingApproval) pausing.pausedAt
  runLogStep env paused runId tenant "hitl_request" (.obj [("prompt",.str prompt)]) pausing.stamp

end Ecphoria
