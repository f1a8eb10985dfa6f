import Ecphoria.Runtime.Exclusion

/-! The approval gate. A transcript that is rebuilt shows every request as approved, so
what a loop may show or do rests on when it is let in: with no request of its run
waiting for a verdict, and no request recorded behind its back. -/
namespace Ecphoria
open Library

def awaiting (runId : Uuid) (approvals : List Approval) : List Uuid :=
  approvals.foldl (fun tokens approval =>
    match approval with
    | .requested id token => if id = runId then tokens ++ [token] else tokens
    | .granted id => if id = runId then [] else tokens) []

/-- The request was recorded, and each time it was, an approval of the run followed. -/
def Granted (approvals : List Approval) (runId token : Uuid) : Prop :=
  .requested runId token ∈ approvals ∧
    ∀ before after, approvals = before ++ .requested runId token :: after → .granted runId ∈ after

theorem awaiting_append (runId : Uuid) (approvals : List Approval) (last : Approval) :
    awaiting runId (approvals ++ [last]) =
      match last with
      | .requested id token => if id = runId then awaiting runId approvals ++ [token] else awaiting runId approvals
      | .granted id => if id = runId then [] else awaiting runId approvals := by
  rw [awaiting,List.foldl_append]
  rfl

theorem mem_awaiting {runId token : Uuid} {before after : List Approval} (waits : .granted runId ∉ after) :
    token ∈ awaiting runId (before ++ .requested runId token :: after) := by
  induction after using List.reverseRecOn with
  | nil => simp [awaiting_append]
  | append_singleton after last ih =>
    obtain ⟨earlier,now⟩ := not_or.mp (List.mem_append.not.mp waits)
    have inside := ih earlier
    rw [← List.cons_append,← List.append_assoc,awaiting_append]
    cases last with
    | requested id other =>
      simp only
      split
      next => exact List.mem_append_left _ inside
      next => exact inside
    | granted id =>
      have other : id ≠ runId := by
        rintro rfl
        exact now List.mem_cons_self
      simpa [other] using inside

theorem granted_of_clear {runId token : Uuid} {approvals : List Approval} (clear : awaiting runId approvals = [])
    (recorded : .requested runId token ∈ approvals) : Granted approvals runId token := by
  refine ⟨recorded,?_⟩
  rintro before after rfl
  by_contra waits
  have inside : token ∈ awaiting runId (before ++ .requested runId token :: after) := mem_awaiting waits
  rw [clear] at inside
  cases inside

/-- The job of a loop that has its transcript and may still show it or act on it. -/
def Stage.transcribed : Stage → Option Job
  | .mark job (some _) | .claim job _ | .replay job _ _ => some job
  | .renew frame | .ask frame | .act frame _ | .journal frame _ => some frame.job
  | _ => none

/-- The run of a loop that holds its lease and may still show its transcript or act on it. -/
def Stage.driving : Stage → Option Uuid
  | .replay job _ _ => some job.target.runId
  | .renew frame | .ask frame | .act frame _ | .journal frame _ => some frame.job.target.runId
  | _ => none

def Stage.requesting : Stage → Option Uuid
  | .record request => some request.runId
  | _ => none

/-- A request that is recorded and not yet journaled. -/
def Stage.pending : Stage → Option (Uuid × Uuid)
  | .pause request token | .logRequest request token => some (request.runId,token)
  | _ => none

def Stage.approves (id : Uuid) : Stage → List Approval
  | .record request => [.requested request.runId id]
  | .decide runId _ true => [.granted runId]
  | _ => []

/-- The run whose transcript is about to be sent to the model, with the requests it shows. -/
def Stage.sending : Stage → Option (Uuid × List Uuid)
  | .ask frame => some (frame.job.target.runId,frame.job.shown)
  | _ => none

theorem Stage.sending_eq_some {stage : Stage} {runId : Uuid} {shown : List Uuid} :
    stage.sending = some (runId,shown) ↔
      ∃ frame, stage = .ask frame ∧ frame.job.target.runId = runId ∧ frame.job.shown = shown := by
  cases stage <;> simp [Stage.sending]

def Stage.view (stage : Stage) : Option Job × Option Uuid × Option (Uuid × Uuid) :=
  (stage.transcribed,stage.driving,stage.pending)

theorem Stage.view_eq {stage : Stage} {job : Option Job} {runId : Option Uuid} {request : Option (Uuid × Uuid)} :
    stage.view = (job,runId,request) ↔ stage.transcribed = job ∧ stage.driving = runId ∧ stage.pending = request := by
  simp [Stage.view]

theorem resumeNext_view (queue : List Uuid) : (resumeNext queue).view = (none,none,none) := by
  cases queue <;> rfl

theorem enter_view (entrance : Entrance) (runId : Uuid) (run : Run) (queue : List Uuid) :
    (enter entrance runId run queue).view = (none,none,none) := by
  cases entrance <;> rfl

theorem entry_view (call : RunCall) : call.entry.view = (none,none,none) := by
  cases call <;> rfl

/-- All that a step can do to the view: nothing, to end it, to rebuild a transcript, to claim the run, or to record
a request. -/
inductive ViewStep (s : Shared) (driver : String) (reading : StageReading) (stage next : Stage) : Prop
  | kept (same : next.view = stage.view)
  | ended (none : next.view = (none,none,none))
  | rebuilt (job : Job) (marks : Bool) (before : stage = .rebuild job marks)
      (view : next.view = (some { job with shown := requestIds (runTrace s.engine job.target.runId) },none,none))
  | claimed (job : Job) (transcript : String) (before : stage = .claim job transcript)
      (free : claimable (s.leases job.target.runId) driver reading.now = true)
      (view : next.view = (some job,some job.target.runId,none))
  | recorded (request : Request) (before : stage = .record request)
      (view : next.view = (none,none,some (request.runId,reading.id)))

theorem Stage.requesting_of_driving {stage : Stage} {runId : Uuid} (drives : stage.driving = some runId) :
    stage.requesting ≠ some runId := by
  intro asks
  cases stage with
  | record request => cases drives
  | _ => cases asks

theorem awaiting_approves {runId token : Uuid} {approvals : List Approval} {stage : Stage}
    (clear : awaiting runId approvals = []) (other : stage.requesting ≠ some runId) :
    awaiting runId (approvals ++ stage.approves token) = [] := by
  cases stage with
  | record request =>
    have apart : request.runId ≠ runId := fun same => other (congrArg some same)
    simpa [Stage.approves,awaiting_append,apart] using clear
  | decide id tenant approved =>
    cases approved with
    | false => simpa [Stage.approves] using clear
    | true => simpa [Stage.approves,awaiting_append] using fun _ => clear
  | _ => simpa [Stage.approves] using clear

section
variable {F : Type} {h : Host F} {s : Shared} {driver : String} {reading : StageReading} {stage : Stage}

theorem advanceStage_approvals :
    (advanceStage h s driver reading stage).1.approvals = s.approvals ++ stage.approves reading.id := by
  cases stage with
  | decide runId tenant approved => cases approved <;> rfl
  | record request => rfl
  | create | list | approval | verify | load | ask | claim | replay =>
    simp only [advanceStage]
    split <;> exact (List.append_nil _).symm
  | renew frame =>
    simp only [advanceStage]
    split
    next => exact (List.append_nil _).symm
    next => split <;> exact (List.append_nil _).symm
  | _ => exact (List.append_nil _).symm

variable (s driver reading stage) in
theorem afterLog_view (frame : Frame) {next : Stage} (same : next.view = stage.view ∨ next.view = (none,none,none))
    (result : Except Failure Unit) : ViewStep s driver reading stage (afterLog frame next result) := by
  rcases result with (err | _) | _
  · exact .ended rfl
  · exact .ended rfl
  · exact same.elim .kept .ended

theorem actOn_view (frame : Frame) (reply : Reply) :
    ViewStep s driver reading (.act frame reply) (actOn h s frame reading reply).2 := by
  simp only [actOn]
  cases (perform h frame.job.target s.engine frame.loop reading.tools reply).action with
  | journal entry => exact .kept rfl
  | _ => exact .ended rfl

theorem advanceStage_view : ViewStep s driver reading stage (advanceStage h s driver reading stage).2 := by
  cases stage with
  | rebuild job marks => cases marks <;> exact .rebuilt job _ rfl rfl
  | claim job transcript =>
    rw [advanceStage,runTryClaim]
    rcases tryClaimLease_cases s.engine.runs s.leases job.target.runId driver reading.now (reading.now + leaseTtl) with
      refused | ⟨_,free,claimed⟩
    · rw [refused]
      exact .ended (resumeNext_view _)
    · rw [claimed]
      exact .claimed job transcript rfl free rfl
  | record request => exact .recorded request rfl rfl
  | mark job rebuilt =>
    cases rebuilt with
    | none => exact .ended rfl
    | some transcript => exact .kept rfl
  | act frame reply => exact actOn_view frame reply
  | journal frame entry =>
    refine afterLog_view s driver reading _ frame ?_ _
    exact Or.inl rfl
  | conclude frame answer =>
    refine afterLog_view s driver reading _ frame ?_ _
    exact Or.inl rfl
  | logRequest request token =>
    obtain ⟨runId,tenant,prompt,asker⟩ := request
    cases asker with
    | none => exact .ended rfl
    | some frame =>
      refine afterLog_view s driver reading _ frame ?_ _
      exact Or.inr rfl
  | ask frame =>
    rw [advanceStage]
    split
    next => exact .ended rfl
    next => exact .kept rfl
  | replay job transcript renewedAt =>
    simp only [advanceStage]
    split
    next => exact .ended rfl
    next => exact .kept rfl
  | renew frame =>
    simp only [advanceStage]
    split
    next => exact .ended rfl
    next =>
      split
      next => exact .kept rfl
      next => exact .ended rfl
  | load entrance runId queue =>
    rw [advanceStage]
    split
    next => exact .ended (resumeNext_view _)
    next => exact .ended (enter_view _ _ _ _)
  | list staleSecs limit =>
    rw [advanceStage]
    split
    next => exact .ended rfl
    next => exact .ended (resumeNext_view _)
  | release frame error =>
    cases error with
    | none => exact .ended (resumeNext_view _)
    | some err => exact .ended rfl
  | fail job error => exact .ended (resumeNext_view _)
  | pause request token => exact .kept rfl
  | create | approval | verify =>
    rw [advanceStage]
    split <;> exact .ended rfl
  | _ => exact .ended rfl

theorem advanceStage_trace {k : Uuid} {step : TraceStep}
    (inside : step ∈ runTrace (advanceStage h s driver reading stage).1.engine k)
    (request : step.eventType = "hitl_request") : step ∈ runTrace s.engine k ∨ stage.pending = some (k,step.id) := by
  have logged {runId : Uuid} {tenant eventType : String} {payload : Json} {stamp : Stamp}
      (other : eventType ≠ "hitl_request")
      (inside : step ∈ runTrace (runLogStep h.env s.engine runId tenant eventType payload stamp).2 k) :
      step ∈ runTrace s.engine k := by
    rcases mem_runTrace_runLogStep inside with old | ⟨_,rfl⟩
    · exact old
    · exact absurd request other
  cases stage with
  | logRequest asked token =>
    rcases mem_runTrace_runLogStep inside with old | ⟨rfl,rfl⟩
    · exact Or.inl old
    · exact Or.inr rfl
  | logStart runId tenant question => exact Or.inl (logged (by decide) inside)
  | journal frame entry => exact Or.inl (logged (by decide) inside)
  | conclude frame answer => exact Or.inl (logged (by decide) inside)
  | logVerdict runId tenant approved => exact Or.inl (logged (by decide) inside)
  | act frame reply =>
    obtain ⟨memories,edges,tables⟩ := perform_tables h frame.job.target s.engine frame.loop reading.tools reply
    have log : (advanceStage h s driver reading (.act frame reply)).1.engine.episodic = s.engine.episodic :=
      congrArg Tables.episodic tables
    rw [runTrace,log] at inside
    exact Or.inl inside
  | create | list | approval | verify | load | ask | claim | replay =>
    simp only [advanceStage] at inside
    split at inside <;> exact Or.inl inside
  | renew frame =>
    simp only [advanceStage] at inside
    split at inside
    next => exact Or.inl inside
    next => split at inside <;> exact Or.inl inside
  | _ => exact Or.inl inside

end

namespace System
section
variable (id : Uuid) (system : System)

/-- A loop gets the lease of the run only when no request of the run waits for a verdict. -/
def ClaimsClear (input : Nat × Move) : Prop :=
  match input.2 with
  | .step reading => (system.locals input.1).stage.claiming = some id →
      claimable (system.shared.leases id) (system.locals input.1).driver reading.now = true →
      awaiting id system.shared.approvals = []
  | _ => True

instance : ∀ input : Nat × Move, Decidable (ClaimsClear id system input)
  | (_,.step _) => inferInstanceAs (Decidable (_ → _ → _))
  | (_,.begin _ _) => isTrue trivial
  | (_,.abandon) => isTrue trivial

def AsksAlone (input : Nat × Move) : Prop :=
  match input.2 with
  | .step _ => (system.locals input.1).stage.requesting = some id →
      ∀ j, j ≠ input.1 → (system.locals j).stage.driving ≠ some id
  | _ => True

def Gated (input : Nat × Move) : Prop := ClaimsClear id system input ∧ AsksAlone id system input

/-- What a loop of the run shows the model as approved was approved after it was asked for, and it makes an
external call only after the same has been done for every request. -/
def Safe {F : Type} (h : Host F) (input : Nat × Move) : Prop :=
  match input.2 with
  | .step reading =>
    (∀ frame, (system.locals input.1).stage = .ask frame → frame.job.target.runId = id →
        ∀ token ∈ frame.job.shown, Granted system.shared.approvals id token) ∧
      ∀ frame reply, (system.locals input.1).stage = .act frame reply → frame.job.target.runId = id →
        (perform h frame.job.target system.shared.engine frame.loop reading.tools reply).issued ≠ none →
        ∀ token, .requested id token ∈ system.shared.approvals → Granted system.shared.approvals id token
  | _ => True

/-- Every request in the journal of the run is one of the approvals. -/
def Accounted : Prop :=
  ∀ step ∈ runTrace system.shared.engine id, step.eventType = "hitl_request" →
    .requested id step.id ∈ system.shared.approvals

/-- No loop drives the run past a request, and every request that is journaled, rendered or about to be journaled was
recorded. -/
structure Sound : Prop where
  clear : ∀ j, (system.locals j).stage.driving = some id → awaiting id system.shared.approvals = []
  shown : ∀ j job, (system.locals j).stage.transcribed = some job → job.target.runId = id →
    ∀ token ∈ job.shown, .requested id token ∈ system.shared.approvals
  pending : ∀ j token, (system.locals j).stage.pending = some (id,token) →
    .requested id token ∈ system.shared.approvals
  journaled : Accounted id system

end

section
variable {F : Type} {h : Host F} {id : Uuid} {system : System}

theorem Sound.blanked {next : System} (sound : Sound id system) (shared : next.shared = system.shared)
    (locals : ∀ j, (next.locals j).stage.view = (none,none,none) ∨ (next.locals j).stage = (system.locals j).stage) :
    Sound id next := by
  constructor
  · intro j drives
    rw [shared]
    rcases locals j with view | same
    · rw [(Stage.view_eq.mp view).2.1] at drives
      cases drives
    · exact sound.clear j (same ▸ drives)
  · intro j job holds
    rw [shared]
    rcases locals j with view | same
    · rw [(Stage.view_eq.mp view).1] at holds
      cases holds
    · exact sound.shown j job (same ▸ holds)
  · intro j token waits
    rw [shared]
    rcases locals j with view | same
    · rw [(Stage.view_eq.mp view).2.2] at waits
      cases waits
    · exact sound.pending j token (same ▸ waits)
  · rw [Accounted,shared]
    exact sound.journaled

variable (h system) in
theorem step_approvals (i : Nat) (reading : StageReading) : (system.next h (i,.step reading)).shared.approvals =
    system.shared.approvals ++ (system.locals i).stage.approves reading.id :=
  advanceStage_approvals

variable (h system) in
theorem step_view (i : Nat) (reading : StageReading) :
    ViewStep system.shared (system.locals i).driver reading (system.locals i).stage
      ((system.next h (i,.step reading)).locals i).stage := by
  rw [step_stage]
  exact advanceStage_view

theorem step_clear {i : Nat} {reading : StageReading} (sound : Sound id system) (gated : Gated id system (i,.step reading))
    (j : Nat) (drives : ((system.next h (i,.step reading)).locals j).stage.driving = some id) :
    awaiting id (system.next h (i,.step reading)).shared.approvals = [] := by
  rw [step_approvals]
  by_cases mine : j = i
  · subst mine
    cases step_view h system j reading with
    | kept same =>
      have driving : (system.locals j).stage.driving = some id := (Stage.view_eq.mp same).2.1.symm.trans drives
      exact awaiting_approves (sound.clear j driving) (Stage.requesting_of_driving driving)
    | claimed job transcript before free view =>
      have target : job.target.runId = id := Option.some.inj ((Stage.view_eq.mp view).2.1.symm.trans drives)
      have clear : awaiting id system.shared.approvals = [] := by
        refine gated.1 ?_ ?_
        · rw [before,← target]
          rfl
        · rwa [← target]
      rw [before]
      exact awaiting_approves clear (by simp [Stage.requesting])
    | ended view | rebuilt _ _ _ view | recorded _ _ view =>
      cases (Stage.view_eq.mp view).2.1.symm.trans drives
  · rw [next_other h system mine] at drives
    refine awaiting_approves (sound.clear j drives) ?_
    intro asks
    exact gated.2 asks j mine drives

theorem mem_requestIds {token : Uuid} {steps : List TraceStep} :
    token ∈ requestIds steps ↔ ∃ step ∈ steps, step.eventType = "hitl_request" ∧ step.id = token := by
  simp [requestIds,and_assoc]

theorem step_shown {i : Nat} {reading : StageReading} (sound : Sound id system) (j : Nat) (job : Job)
    (holds : ((system.next h (i,.step reading)).locals j).stage.transcribed = some job) (target : job.target.runId = id)
    {token : Uuid} (shown : token ∈ job.shown) : .requested id token ∈ system.shared.approvals := by
  by_cases mine : j = i
  · subst mine
    cases step_view h system j reading with
    | kept same => exact sound.shown j job ((Stage.view_eq.mp same).1.symm.trans holds) target token shown
    | claimed claimed transcript before free view =>
      refine sound.shown j job ?_ target token shown
      rw [before,← holds,(Stage.view_eq.mp view).1]
      rfl
    | rebuilt rebuilt marks before view =>
      cases Option.some.inj ((Stage.view_eq.mp view).1.symm.trans holds)
      obtain ⟨step,inside,request,rfl⟩ := mem_requestIds.mp shown
      exact sound.journaled step (target ▸ inside) request
    | ended view | recorded _ _ view => cases (Stage.view_eq.mp view).1.symm.trans holds
  · rw [next_other h system mine] at holds
    exact sound.shown j job holds target token shown

theorem step_pending {i : Nat} {reading : StageReading} (sound : Sound id system) (j : Nat) (token : Uuid)
    (waits : ((system.next h (i,.step reading)).locals j).stage.pending = some (id,token)) :
    .requested id token ∈ (system.next h (i,.step reading)).shared.approvals := by
  rw [step_approvals]
  by_cases mine : j = i
  · subst mine
    cases step_view h system j reading with
    | kept same =>
      exact List.mem_append_left _ (sound.pending j token ((Stage.view_eq.mp same).2.2.symm.trans waits))
    | recorded request before view =>
      obtain ⟨rfl,rfl⟩ := Prod.mk.inj (Option.some.inj ((Stage.view_eq.mp view).2.2.symm.trans waits))
      rw [before]
      exact List.mem_append_right _ List.mem_cons_self
    | ended view | claimed _ _ _ _ view | rebuilt _ _ _ view => cases (Stage.view_eq.mp view).2.2.symm.trans waits
  · rw [next_other h system mine] at waits
    exact List.mem_append_left _ (sound.pending j token waits)

theorem step_accounted {i : Nat} {reading : StageReading} (sound : Sound id system) :
    Accounted id (system.next h (i,.step reading)) := by
  intro step inside request
  rw [step_approvals]
  rcases advanceStage_trace inside request with old | waits
  · exact List.mem_append_left _ (sound.journaled step old request)
  · exact List.mem_append_left _ (sound.pending i step.id waits)

theorem next_sound {input : Nat × Move} (sound : Sound id system) (gated : Gated id system input) :
    Sound id (system.next h input) := by
  obtain ⟨i,move⟩ := input
  cases move with
  | begin driver call =>
    refine sound.blanked (next_shared_begin i driver call) ?_
    intro j
    rcases begin_locals i driver call j with same | entry
    · exact Or.inr (by rw [same])
    · rw [entry]
      exact Or.inl (entry_view call)
  | abandon =>
    refine sound.blanked rfl ?_
    intro j
    rcases abandon_locals i j with same | idle
    · exact Or.inr (by rw [same])
    · rw [idle]
      exact Or.inl rfl
  | step reading =>
    have grown (token : Uuid) (before : .requested id token ∈ system.shared.approvals) :
        .requested id token ∈ (system.next h (i,.step reading)).shared.approvals := by
      rw [step_approvals]
      exact List.mem_append_left _ before
    exact
      { clear := step_clear sound gated
        shown := fun j job holds target token shown => grown token (step_shown sound j job holds target shown)
        pending := step_pending sound
        journaled := step_accounted sound }

theorem Quiet.sound (quiet : Quiet system) (accounted : Accounted id system) : Sound id system := by
  refine ⟨?_,?_,?_,accounted⟩
  · intro j drives
    rw [quiet j] at drives
    cases drives
  · intro j job holds
    rw [quiet j] at holds
    cases holds
  · intro j token waits
    rw [quiet j] at waits
    cases waits

theorem Sound.safe {input : Nat × Move} (sound : Sound id system) : Safe id system h input := by
  obtain ⟨i,move⟩ := input
  cases move with
  | begin driver call => trivial
  | abandon => trivial
  | step reading =>
    constructor
    · intro frame stage target token shown
      have clear : awaiting id system.shared.approvals = [] := sound.clear i (by rw [stage,← target]; rfl)
      exact granted_of_clear clear (sound.shown i frame.job (by rw [stage]; rfl) target token shown)
    · intro frame reply stage target _ token recorded
      exact granted_of_clear (sound.clear i (by rw [stage,← target]; rfl)) recorded

variable (h id) in
/-- Whatever calls are interleaved: if a loop gets the lease of the run only with no request waiting, and no request is
recorded while another loop drives the run, then no loop passes a request that was not approved. -/
theorem approval_gate {inputs : List (Nat × Move)} (quiet : Quiet system) (accounted : Accounted id system)
    (gated : Along (next h) (Gated id) system inputs) :
    Along (next h) (fun s input => Safe id s h input) system inputs :=
  gated.imp (quiet.sound accounted) (fun _ _ => next_sound) (fun _ _ sound _ => sound.safe)

def OthersIdle (i : Nat) (system : System) : Prop := ∀ j, j ≠ i → (system.locals j).stage = .idle

theorem asksAlone_single {inputs : List (Nat × Move)} (quiet : Quiet system) (i : Nat)
    (mine : ∀ input ∈ inputs, input.1 = i) : Along (next h) (AsksAlone id) system inputs := by
  have start : OthersIdle i system := fun j _ => quiet j
  refine (Along.of_forall mine).imp start ?_ ?_
  · rintro s ⟨_,move⟩ idle rfl j apart
    rw [next_other h s apart]
    exact idle j apart
  · rintro s ⟨_,move⟩ idle rfl
    cases move with
    | begin driver call => trivial
    | abandon => trivial
    | step reading =>
      intro _ j apart drives
      rw [idle j apart] at drives
      cases drives

end

instance (id : Uuid) (system : System) : Decidable (Accounted id system) :=
  inferInstanceAs (Decidable (∀ step ∈ runTrace system.shared.engine id, step.eventType = "hitl_request" →
    .requested id step.id ∈ system.shared.approvals))

/-- A request, its approval and the resumption that shows it. -/
def approvedOnce : List (Nat × Move) :=
  begun 0 "a" (.requestApproval 1 "default" "deploy?") (List.replicate 3 (.plain 1 10 "")) ++
    begun 0 "a" (.resolveApproval 1 "default" true) (List.replicate 4 (.plain 2 20 "")) ++
    begun 0 "a" (.resume 1 "default") (List.replicate 8 (.plain 3 30 "done"))

/-- The gate at work: the model is sent the request as approved, after the approval. -/
theorem approval_gate_approved :
    ((run (next .plain) single (approvedOnce.take 17)).locals 0).stage.sending = some (1,[10]) ∧
      Along (next .plain) (fun s input => Safe 1 s .plain input) single approvedOnce := by
  refine ⟨by decide +kernel,?_⟩
  have clear : Along (next .plain) (ClaimsClear 1) single approvedOnce := by decide +kernel
  exact approval_gate .plain 1 single_quiet (by decide +kernel) (clear.and (asksAlone_single single_quiet 0 (by decide)))

/-- A tick of the dispatcher lists the run; before it takes it up, another engine drives the run to a request. -/
def staleTick : List (Nat × Move) :=
  begun 1 "b" (.dispatchOnce 0 5) [.plain 1 10 ""] ++
    begun 0 "a" (.agentDrive 1 4) (List.replicate 12 (.plain 2 20 "TOOL approve: deploy?")) ++
    List.replicate 6 (1,.step (.plain 3 30 ""))

/-- The dispatcher then shows the model the request as approved, with nobody asked. -/
theorem stale_dispatch_passes_request :
    ¬ ∀ (id : Uuid) (system : System) (inputs : List (Nat × Move)), system.Quiet → Accounted id system →
      Along (next .plain) (fun s input => Safe id s .plain input) system inputs := by
  intro all
  let last : Nat × Move := (1,.step (.plain 3 30 ""))
  have safe : Safe 1 (run (next .plain) single staleTick) .plain last :=
    (all 1 single (staleTick ++ [last]) single_quiet (by decide +kernel)).drop.1
  have shown : ((run (next .plain) single staleTick).locals 1).stage.sending = some (1,[20]) := by decide +kernel
  obtain ⟨frame,stage,target,tokens⟩ := Stage.sending_eq_some.mp shown
  have approvals : (run (next .plain) single staleTick).shared.approvals = [.requested 1 20] := by decide +kernel
  have granted := safe.1 frame stage target 20 (by simp [tokens])
  cases granted.2 [] [] approvals

end System

end Ecphoria
