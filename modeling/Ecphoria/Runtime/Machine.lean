import Ecphoria.Library.Transition
import Ecphoria.Runtime.Ledger
import Ecphoria.Runtime.Transcript

/-! The calls on runs as interleaved processes. Each call is cut where it awaits a store,
the model or a tool; between two such points it is alone. Engines that share the
stores differ in the name they hold leases under. -/
namespace Ecphoria
open Library

inductive RunCall where
  | agentStart (tenant agentId question : String) (parentRunId : Option Uuid)
  | agentDrive (runId : Uuid) (maxTurns : Nat)
  | resume (runId : Uuid) (tenant : String)
  | resumeDriver (runId : Uuid)
  | dispatchOnce (staleSecs : Int) (limit : Nat)
  | requestApproval (runId : Uuid) (tenant prompt : String)
  | resolveApproval (runId : Uuid) (tenant : String) (approved : Bool)

/-- The three ways into `drive_agent_loop`. -/
inductive Entrance where
  | agentDrive (maxTurns : Nat)
  | resume (tenant : String)
  | resumeDriver

/-- What a call carries into the loop: the run, the turns it has, and the runs its dispatcher goes on with.
`shown` lists the approval requests that the transcript renders. -/
structure Job where
  target : Assignment
  maxTurns : Nat
  queue : List Uuid
  shown : List Uuid

/-- A loop under way. `renewedAt` is the time of its last claim. -/
structure Frame where
  job : Job
  loop : Loop
  left : Nat
  renewedAt : Int

structure Request where
  runId : Uuid
  tenant : String
  prompt : String
  asker : Option Frame

inductive Stage where
  | idle
  | create (tenant agentId question : String) (parentRunId : Option Uuid)
  | opening (runId : Uuid) (tenant question : String)
  | logStart (runId : Uuid) (tenant question : String)
  | list (staleSecs : Int) (limit : Nat)
  | approval (runId : Uuid) (tenant : String)
  | load (entrance : Entrance) (runId : Uuid) (queue : List Uuid)
  | mark (job : Job) (rebuilt : Option String)
  | rebuild (job : Job) (marks : Bool)
  | claim (job : Job) (transcript : String)
  | replay (job : Job) (transcript : String) (renewedAt : Int)
  | renew (frame : Frame)
  | ask (frame : Frame)
  | act (frame : Frame) (reply : Reply)
  | journal (frame : Frame) (entry : JournalEntry)
  | conclude (frame : Frame) (answer : String)
  | finish (frame : Frame) (answer : Option String)
  | record (request : Request)
  | pause (request : Request) (token : Uuid)
  | logRequest (request : Request) (token : Uuid)
  | reload (frame : Frame)
  | release (frame : Frame) (error : Option String)
  | fail (job : Job) (error : String)
  | verify (runId : Uuid) (tenant : String) (approved : Bool)
  | decide (runId : Uuid) (tenant : String) (approved : Bool)
  | settle (runId : Uuid) (tenant : String) (approved : Bool)
  | logVerdict (runId : Uuid) (tenant : String) (approved : Bool)

/-- A call, on the engine that holds its leases as `driver`. -/
structure Thread where
  driver : String
  stage : Stage

structure StageReading where
  now : Int
  clock : String
  id : Uuid
  embedder : Embedder
  reply : Except String String
  tools : Tools

def StageReading.stamp (reading : StageReading) : Stamp := ⟨reading.id,reading.now,reading.embedder⟩

/-- A new call, the next step of one, or one that is dropped or dies with its process. -/
inductive Move where
  | begin (driver : String) (call : RunCall)
  | step (reading : StageReading)
  | abandon

inductive Approval where
  | requested (runId token : Uuid)
  | granted (runId : Uuid)
deriving DecidableEq,Repr

/-- The stores that calls share, and, for the statements about them, the approvals so far. -/
structure Shared where
  engine : Engine
  leases : LeaseColumns
  approvals : List Approval

def Error.display : Error → String
  | .validation message => "validation error: " ++ message
  | .ingest message => "ingest error: " ++ message
  | .query message => "query error: " ++ message
  | .state message => "state error: " ++ message
  | .storage message => "storage error: " ++ message

def RunCall.entry : RunCall → Stage
  | .agentStart tenant agentId question parentRunId => .create tenant agentId question parentRunId
  | .agentDrive runId maxTurns => .load (.agentDrive maxTurns) runId []
  | .resume runId tenant => .approval runId tenant
  | .resumeDriver runId => .load .resumeDriver runId []
  | .dispatchOnce staleSecs limit => .list staleSecs limit
  | .requestApproval runId tenant prompt => .record ⟨runId,tenant,prompt,none⟩
  | .resolveApproval runId tenant approved => .verify runId tenant approved

def resumeNext : List Uuid → Stage
  | [] => .idle
  | runId :: queue => .load .resumeDriver runId queue

/-- How a loop goes on after writing the journal: a step, an error that ends it, or a panic. -/
def afterLog (frame : Frame) (next : Stage) : Except Failure Unit → Stage
  | .ok _ => next
  | .error (.error err) => .release frame (some err.display)
  | .error .panic => .idle

def requestIds (steps : List TraceStep) : List Uuid :=
  (steps.filter (fun step => step.eventType = "hitl_request")).map TraceStep.id

def seconds (n : Int) : Int := n * 1000000000

def enter (entrance : Entrance) (runId : Uuid) (run : Run) (queue : List Uuid) : Stage :=
  let agentId := run.agentId.getD ""
  match entrance with
  | .agentDrive maxTurns => .rebuild ⟨⟨runId,run.tenantId,agentId⟩,maxTurns,queue,[]⟩ false
  | .resume tenant => .rebuild ⟨⟨runId,tenant,agentId⟩,8,queue,[]⟩ true
  | .resumeDriver => .mark ⟨⟨runId,run.tenantId,agentId⟩,8,queue,[]⟩ none

def runTryClaim (s : Shared) (runId : Uuid) (driver : String) (now : Int) : Bool × LeaseColumns :=
  tryClaimLease s.engine.runs s.leases runId driver now (now + leaseTtl)

section
variable {F : Type} (h : Host F)

def actOn (s : Shared) (frame : Frame) (reading : StageReading) (reply : Reply) : Shared × Stage :=
  let done := perform h frame.job.target s.engine frame.loop reading.tools reply
  ({ s with engine := done.engine },
    match done.action with
    | .journal entry => .journal { frame with loop := done.loop } entry
    | .stop => .reload frame
    | .pause prompt => .record ⟨frame.job.target.runId,frame.job.target.tenant,prompt,some frame⟩
    | .conclude answer => .conclude frame answer)

def advanceStage (s : Shared) (driver : String) (reading : StageReading) : Stage → Shared × Stage
  | .idle => (s,.idle)
  | .create tenant agentId question parentRunId =>
    if !s.engine.config.completion then (s,.idle)
    else
      let run := newRun reading.id tenant (some agentId) parentRunId (.obj [("question",.str question)]) reading.now
      ({ s with engine := runCreate s.engine run },.opening reading.id tenant question)
  | .opening runId tenant question =>
    let patch := { RunPatch.mark .running with startedAt := some reading.now }
    ({ s with engine := runUpdate s.engine runId patch reading.now },.logStart runId tenant question)
  | .logStart runId tenant question =>
    let logged := runLogStep h.env s.engine runId tenant "run_start" (.obj [("question",.str question)]) reading.stamp
    ({ s with engine := logged.2 },.idle)
  | .list staleSecs limit =>
    if !s.engine.config.completion then (s,.idle)
    else (s,resumeNext ((s.engine.runs.listResumable (reading.now - seconds staleSecs) limit).map Run.id))
  | .approval runId tenant =>
    if approvalState h.env s.engine runId reading.clock = some "approved" then (s,.load (.resume tenant) runId [])
    else (s,.idle)
  | .load entrance runId queue =>
    match runGet s.engine runId with
    | none => (s,resumeNext queue)
    | some run => (s,enter entrance runId run queue)
  | .mark job rebuilt =>
    ({ s with engine := runUpdate s.engine job.target.runId (.mark .running) reading.now },
      match rebuilt with
      | some transcript => .claim job transcript
      | none => .rebuild job false)
  | .rebuild job marks =>
    let steps := runTrace s.engine job.target.runId
    let rebuilt := { job with shown := requestIds steps }
    (s,if marks then .mark rebuilt (some (renderSteps h.env steps)) else .claim rebuilt (renderSteps h.env steps))
  | .claim job transcript =>
    let (claimed,leases) := runTryClaim s job.target.runId driver reading.now
    if claimed then ({ s with leases := leases },.replay job transcript reading.now) else (s,resumeNext job.queue)
  | .replay job transcript renewedAt =>
    let frame := ⟨job,.start transcript (runTrace s.engine job.target.runId),max job.maxTurns 1,renewedAt⟩
    if !s.engine.config.completion then
      (s,.release frame (some "llm error: run_agent requires a completion provider"))
    else (s,.renew frame)
  | .renew frame =>
    match frame.left with
    | 0 => (s,.finish frame none)
    | left + 1 =>
      let (claimed,leases) := runTryClaim s frame.job.target.runId driver reading.now
      if claimed then ({ s with leases := leases },.ask { frame with left := left, renewedAt := reading.now })
      else (s,.reload frame)
  | .ask frame =>
    match reading.reply with
    | .error err => (s,.release frame (some err))
    | .ok reply => (s,.act frame (parseReply reply))
  | .act frame reply => actOn h s frame reading reply
  | .journal frame entry =>
    let logged := runLogStep h.env s.engine frame.job.target.runId frame.job.target.tenant "tool_call" entry.payload
      reading.stamp
    ({ s with engine := logged.2 },afterLog frame (.renew { frame with loop := frame.loop.push entry }) logged.1)
  | .conclude frame answer =>
    let logged := runLogStep h.env s.engine frame.job.target.runId frame.job.target.tenant "llm_answer"
      (.obj [("answer",.str answer)]) reading.stamp
    ({ s with engine := logged.2 },afterLog frame (.finish frame (some answer)) logged.1)
  | .finish frame answer =>
    ({ s with engine := runUpdate s.engine frame.job.target.runId (closingPatch answer reading.now) reading.now },
      .reload frame)
  | .record request =>
    ({ s with
        engine := setApproval s.engine request.runId (pendingApproval request.prompt) reading.now
        approvals := s.approvals ++ [.requested request.runId reading.id] },
      .pause request reading.id)
  | .pause request token =>
    ({ s with engine := runUpdate s.engine request.runId (.mark .waitingApproval) reading.now },
      .logRequest request token)
  | .logRequest request token =>
    let logged := runLogStep h.env s.engine request.runId request.tenant "hitl_request"
      (.obj [("prompt",.str request.prompt)]) ⟨token,reading.now,reading.embedder⟩
    ({ s with engine := logged.2 },
      match request.asker with
      | none => .idle
      | some frame => afterLog frame (.reload frame) logged.1)
  | .reload frame =>
    (s,.release frame (if (runGet s.engine frame.job.target.runId).isSome then none else some "state error: run vanished"))
  | .release frame error =>
    ({ s with leases := releaseLease s.leases frame.job.target.runId driver },
      match error with
      | none => resumeNext frame.job.queue
      | some err => .fail frame.job err)
  | .fail job error =>
    ({ s with engine := runUpdate s.engine job.target.runId (failedPatch error reading.now) reading.now },
      resumeNext job.queue)
  | .verify runId tenant approved =>
    if approvalState h.env s.engine runId reading.clock = some "pending" then (s,.decide runId tenant approved)
    else (s,.idle)
  | .decide runId tenant approved =>
    ({ s with
        engine := setApproval s.engine runId (verdict approved) reading.now
        approvals := s.approvals ++ if approved then [.granted runId] else [] },
      .settle runId tenant approved)
  | .settle runId tenant approved =>
    ({ s with engine := runUpdate s.engine runId (resolvePatch approved reading.now) reading.now },
      .logVerdict runId tenant approved)
  | .logVerdict runId tenant approved =>
    let logged := runLogStep h.env s.engine runId tenant "hitl_resolve" (.obj [("approved",.bool approved)]) reading.stamp
    ({ s with engine := logged.2 },.idle)

def Thread.advance (s : Shared) (t : Thread) : Move → Shared × Thread
  | .begin driver call =>
    match t.stage with
    | .idle => (s,⟨driver,call.entry⟩)
    | _ => (s,t)
  | .step reading =>
    let moved := advanceStage h s t.driver reading t.stage
    (moved.1,{ t with stage := moved.2 })
  | .abandon => (s,{ t with stage := .idle })

end

abbrev System := Processes Shared Thread

def System.next {F : Type} (h : Host F) : System → Nat × Move → System := Processes.step (Thread.advance h)

theorem System.step_thread {F : Type} (h : Host F) (system : System) (i : Nat) (reading : StageReading) :
    (system.next h (i,.step reading)).locals i = ⟨(system.locals i).driver,
      (advanceStage h system.shared (system.locals i).driver reading (system.locals i).stage).2⟩ :=
  Processes.step_self _ _ _

theorem System.next_other {F : Type} (h : Host F) (system : System) {i j : Nat} (apart : j ≠ i) (move : Move) :
    (system.next h (i,move)).locals j = system.locals j :=
  Processes.step_other _ _ apart

theorem System.next_shared_begin {F : Type} {h : Host F} {system : System} (i : Nat) (driver : String) (call : RunCall) :
    (system.next h (i,.begin driver call)).shared = system.shared := by
  rw [System.next,Processes.step_shared]
  simp only [Thread.advance]
  split <;> rfl

theorem System.begin_locals {F : Type} {h : Host F} {system : System} (i : Nat) (driver : String) (call : RunCall)
    (j : Nat) : (system.next h (i,.begin driver call)).locals j = system.locals j ∨
      ((system.next h (i,.begin driver call)).locals j).stage = call.entry := by
  rw [System.next,Processes.step_locals]
  split
  next same =>
    simp only [Thread.advance]
    split
    next => exact Or.inr rfl
    next => exact Or.inl (by rw [same])
  next => exact Or.inl rfl

theorem System.abandon_locals {F : Type} {h : Host F} {system : System} (i j : Nat) :
    (system.next h (i,.abandon)).locals j = system.locals j ∨
      ((system.next h (i,.abandon)).locals j).stage = .idle := by
  rw [System.next,Processes.step_locals]
  split
  next => exact Or.inr rfl
  next => exact Or.inl rfl

def System.Quiet (system : System) : Prop := ∀ i, (system.locals i).stage = .idle

def Stage.patch (now : Int) : Stage → Option (Uuid × RunPatch)
  | .opening runId _ _ => some (runId,{ RunPatch.mark .running with startedAt := some now })
  | .mark job _ => some (job.target.runId,.mark .running)
  | .finish frame answer => some (frame.job.target.runId,closingPatch answer now)
  | .pause request _ => some (request.runId,.mark .waitingApproval)
  | .fail job error => some (job.target.runId,failedPatch error now)
  | .settle runId _ approved => some (runId,resolvePatch approved now)
  | _ => none

def RunTable.patched (t : RunTable) (now : Int) : Option (Uuid × RunPatch) → RunTable
  | none => t
  | some (id,patch) => t.patchRun id patch now

theorem runLogStep_runs (env : Env) (e : Engine) (runId : Uuid) (tenant eventType : String) (payload : Json)
    (stamp : Stamp) : (runLogStep env e runId tenant eventType payload stamp).2.runs = e.runs := by
  obtain ⟨episodic,semantic,same⟩ := runLogStep_frame env e runId tenant eventType payload stamp
  rw [same]

section
variable {F : Type} {h : Host F}

theorem perform_runs (a : Assignment) (e : Engine) (loop : Loop) (tools : Tools) (reply : Reply) :
    (perform h a e loop tools reply).engine.runs = e.runs := by
  obtain ⟨memories,edges,tables⟩ := perform_tables h a e loop tools reply
  exact congrArg Tables.runs tables

theorem advanceStage_runs (s : Shared) (driver : String) (reading : StageReading) (stage : Stage) :
    (stage.patch reading.now = none ∧
        ∃ run, (advanceStage h s driver reading stage).1.engine.runs = s.engine.runs.create run) ∨
      (advanceStage h s driver reading stage).1.engine.runs =
        s.engine.runs.patched reading.now (stage.patch reading.now) := by
  cases stage with
  | create tenant agentId question parentRunId =>
    rw [advanceStage]
    split
    next => exact Or.inr rfl
    next => exact Or.inl ⟨rfl,_,rfl⟩
  | logStart | journal | conclude | logRequest | logVerdict => exact Or.inr (runLogStep_runs _ _ _ _ _ _ _)
  | act frame reply => exact Or.inr (perform_runs _ _ _ _ _)
  | list | approval | load | claim | replay | ask | verify =>
    simp only [advanceStage]
    split <;> exact Or.inr rfl
  | renew frame =>
    simp only [advanceStage]
    split
    next => exact Or.inr rfl
    next => split <;> exact Or.inr rfl
  | _ => exact Or.inr rfl

theorem advanceStage_keys (s : Shared) (driver : String) (reading : StageReading) (stage : Stage) {id : Uuid}
    (known : id ∈ s.engine.runs.keys) : id ∈ (advanceStage h s driver reading stage).1.engine.runs.keys := by
  rcases advanceStage_runs s driver reading stage with ⟨_,run,created⟩ | patched
  · rw [created]
    exact (Table.mem_keys_insertIgnore _ _ _).mpr (Or.inr known)
  · rw [patched]
    cases stage.patch reading.now with
    | none => exact known
    | some site =>
      change id ∈ (s.engine.runs.patchRun site.1 site.2 reading.now).keys
      rw [RunTable.keys_patchRun]
      exact known

end

def StageReading.plain (now : Int) (id : Uuid) (reply : String) : StageReading := ⟨now,"",id,.absent,.ok reply,.plain now id⟩

/-- Nothing under way, and run 1 created and pending. -/
def System.single : System where
  shared :=
    { engine := runCreate (.empty { CoreConfig.default with completion := true } 1)
        (newRun 1 "default" (some "agent") none .null 0)
      leases := fun _ => none
      approvals := [] }
  locals := fun _ => ⟨"",.idle⟩

theorem System.single_quiet : System.single.Quiet := fun _ => rfl

/-- One call begun on an engine and taken so many steps on. -/
def begun (i : Nat) (driver : String) (call : RunCall) (readings : List StageReading) : List (Nat × Move) :=
  (i,.begin driver call) :: readings.map (fun reading => (i,.step reading))

end Ecphoria
