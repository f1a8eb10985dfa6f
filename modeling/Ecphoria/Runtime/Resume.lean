import Ecphoria.Library.Transition
import Ecphoria.Runtime.Ledger
import Ecphoria.Runtime.Transcript

/-! A loop that crashes and starts again. What the loop holds after each journaled step
is compared with what a new loop reads off the journal at that point: the transcript,
the counter the idempotency keys are made of, and the results already there. -/
namespace Ecphoria
open Library

/-- One turn as seen from outside: whether the lease is renewed, the reply or the error of the model, what acting
on the reply draws, and the clocks of what is written. -/
structure AgentTurn where
  leased : Bool
  reply : Except String String
  tools : Tools
  pausing : Pausing
  closedAt : Int

/-- The loop of one call, over the stores. It is over once it answered, paused, lost its lease or failed. -/
structure Drive where
  engine : Engine
  loop : Loop
  live : Bool

section
variable {F : Type} (h : Host F) (a : Assignment)

/-- What follows on acting on a reply: a step in the journal and the next round, or the end of the loop. -/
def Drive.settle (done : Performed) (t : AgentTurn) : Drive :=
  match done.action with
  | .journal entry =>
    match runLogStep h.env done.engine a.runId a.tenant "tool_call" entry.payload t.pausing.stamp with
    | (.ok _,e) => ⟨e,done.loop.push entry,true⟩
    | (.error _,e) => ⟨e,done.loop,false⟩
  | .stop => ⟨done.engine,done.loop,false⟩
  | .pause prompt => ⟨(runRequestApproval h.env done.engine a.runId a.tenant prompt t.pausing).2,done.loop,false⟩
  | .conclude answer =>
    match runLogStep h.env done.engine a.runId a.tenant "llm_answer" (.obj [("answer",.str answer)])
        t.pausing.stamp with
    | (.ok _,e) => ⟨runUpdate e a.runId (succeededPatch answer t.closedAt) t.closedAt,done.loop,false⟩
    | (.error _,e) => ⟨e,done.loop,false⟩

/-- One round of `drive_agent_loop_inner`. -/
def Drive.turn (d : Drive) (t : AgentTurn) : Drive :=
  if !d.live then d
  else if !t.leased then { d with live := false }
  else
    match t.reply with
    | .error _ => { d with live := false }
    | .ok reply => Drive.settle h a (perform h a d.engine d.loop t.tools (parseReply reply)) t

def Drive.rebuilt (d : Drive) : String := rebuildAgentTranscript h.env d.engine a.runId

def Drive.resume (e : Engine) : Drive :=
  ⟨e,.start (rebuildAgentTranscript h.env e a.runId) (runTrace e a.runId),true⟩

/-- The key the turn gives to an external call, if the reply asks for one. -/
def Drive.assigned (d : Drive) (t : AgentTurn) : List String :=
  if !d.live || !t.leased then []
  else
    match t.reply.map parseReply with
    | .ok (.call _ _ _) => [idempotencyKey a.runId d.loop.toolSeq]
    | _ => []

def Drive.issued (d : Drive) (t : AgentTurn) : List ToolCall :=
  if !d.live || !t.leased then []
  else
    match t.reply with
    | .ok reply => (perform h a d.engine d.loop t.tools (parseReply reply)).issued.toList
    | .error _ => []

/-- The loop `run_agent` goes into once the run is started. -/
def Drive.ask (e : Engine) (question : String) (stamp : Stamp) : Drive :=
  let started := (runLogStep h.env e a.runId a.tenant "run_start" (.obj [("question",.str question)]) stamp).2
  ⟨started,.start (questionLine question) (runTrace started a.runId),true⟩

/-- How a loop begins: with the question of a run just started, or by reading the journal. -/
inductive Drive.Opened : Drive → Prop
  | asked (e : Engine) (question : String) (stamp : Stamp) (unused : runTrace e a.runId = [])
      (ok : (runLogStep h.env e a.runId a.tenant "run_start" (.obj [("question",.str question)]) stamp).1 = .ok ()) :
      Opened (Drive.ask h a e question stamp)
  | resumed (e : Engine) : Opened (Drive.resume h a e)

/-- A crash at this point is not noticed: the transcript comes back, external calls get the keys they would have
had, and no call is made again whose result is journaled. -/
structure Drive.Invisible (d : Drive) : Prop where
  transcript : d.rebuilt h a = d.loop.transcript
  keys : ∀ more, outputs (Drive.turn h a) (Drive.assigned a) (Drive.resume h a d.engine) more =
    outputs (Drive.turn h a) (Drive.assigned a) d more
  once : ∀ more, ∀ call ∈ outputs (Drive.turn h a) (Drive.issued h a) (Drive.resume h a d.engine) more,
    call.key ∉ (executedCalls (runTrace d.engine a.runId)).map Prod.fst

/-- The journal of the run holds nothing from the time of the turn or after. -/
def Drive.Clocked (d : Drive) (t : AgentTurn) : Prop :=
  ∀ step ∈ runTrace d.engine a.runId, step.ts < micros t.pausing.stamp.now

instance (d : Drive) (t : AgentTurn) : Decidable (Drive.Clocked a d t) :=
  inferInstanceAs (Decidable (∀ step ∈ runTrace d.engine a.runId, step.ts < micros t.pausing.stamp.now))

/-- The line of the turn has one marker if it is an external call and none if it is not, and the name of the
server that is called has no slash. -/
def Drive.Faithful (d : Drive) (t : AgentTurn) : Prop :=
  match t.reply with
  | .error _ => True
  | .ok reply =>
    (perform h a d.engine d.loop t.tools (parseReply reply)).action.marked = true ∧ (parseReply reply).unslashed = true

theorem executedCalls_append (steps : List TraceStep) (last : TraceStep) :
    executedCalls (steps ++ [last]) =
      match (last.payload.get "idempotency_key").bind Json.asStr,last.payload.get "result" with
      | some key,some result => (key,result) :: executedCalls steps
      | _,_ => executedCalls steps := by
  rw [executedCalls,List.foldl_append]
  rfl

private theorem lookup_latest (key : String) (result : Json) (ledger : List (String × Json)) (k : String) :
    ((key,result) :: ledger).lookup k = if k = key then some result else ledger.lookup k := by
  rw [List.lookup_cons]
  by_cases same : k = key
  · rw [if_pos same,same,beq_self_eq_true]
  · rw [if_neg same,beq_false_of_ne same]

/-- What a turn that journals a step leaves: the stores but for the step, the loop but for its line, and a step
that is read back as a line as long, with its markers and its result. -/
structure Recorded (e : Engine) (loop : Loop) (reply : Reply) (done : Performed) (entry : JournalEntry) (step : TraceStep) :
    Prop where
  log : done.engine.episodic = e.episodic
  transcript : done.loop.transcript = loop.transcript
  toolSeq : done.loop.toolSeq = loop.toolSeq
  length : (renderStep h.env step).toList.length = entry.line.toList.length
  same : renderStep h.env step = entry.line ↔ reply.unslashed = true
  marked : (if entry.external then 1 else 0) ≤ markers (renderStep h.env step)
  results : ∀ steps, (∀ k, loop.executed.lookup k = (executedCalls steps).lookup k) →
    ∀ k, done.loop.executed.lookup k = (executedCalls (steps ++ [step])).lookup k

variable {h a}

theorem perform_recorded {e : Engine} {loop : Loop} {tools : Tools} {reply : Reply} {entry : JournalEntry}
    (given : (perform h a e loop tools reply).action = .journal entry) (stamp : Stamp) :
    Recorded h e loop reply (perform h a e loop tools reply) entry
      (stepTaken a.runId a.tenant "tool_call" entry.payload stamp) := by
  have unkeyed (fields : List (String × Json)) (none : fields.lookup "idempotency_key" = none) (steps : List TraceStep) :
      executedCalls (steps ++ [stepTaken a.runId a.tenant "tool_call" (.obj fields) stamp]) = executedCalls steps := by
    rw [executedCalls_append,stepTaken,get_stepPayload _ _ _ _ (by decide) (by decide),none]
    rfl
  cases reply with
  | search query =>
    cases given
    have line := renderStep_search h.env a.runId a.tenant stamp query
    refine ⟨rfl,rfl,rfl,congrArg (fun text => text.toList.length) (line _),iff_of_true (line _) rfl,Nat.zero_le _,?_⟩
    intro steps known k
    rw [searchEntry,unkeyed _ (by simp [List.lookup_cons])]
    exact known k
  | remember text =>
    cases given
    have line := renderStep_remember h.env a.runId a.tenant stamp text
    obtain ⟨memories,edges,tables⟩ := perform_tables h a e loop tools (.remember text)
    refine ⟨congrArg Tables.episodic tables,rfl,rfl,congrArg (fun text => text.toList.length) line,
      iff_of_true line rfl,Nat.zero_le _,?_⟩
    intro steps known k
    rw [rememberEntry,unkeyed _ (by simp [List.lookup_cons])]
    exact known k
  | call server tool args =>
    have keyed (result : Json) (steps : List TraceStep) :
        executedCalls (steps ++ [stepTaken a.runId a.tenant "tool_call"
          (callEntry h.env server tool (idempotencyKey a.runId loop.toolSeq) result).payload stamp]) =
          (idempotencyKey a.runId loop.toolSeq,result) :: executedCalls steps := by
      rw [executedCalls_append,stepTaken,callEntry,get_stepPayload _ _ _ _ (by decide) (by decide),
        get_stepPayload _ _ _ _ (by decide) (by decide)]
      rfl
    have line (result : Json) := renderStep_call h.env a.runId a.tenant stamp server tool
      (idempotencyKey a.runId loop.toolSeq) result
    have text (result : Json) := callLine_recalled server tool (h.env.jsonText result)
    have recorded (result : Json) (executed : List (String × Json)) (issued : Option ToolCall)
        (found : ∀ k, executed.lookup k =
          if k = idempotencyKey a.runId loop.toolSeq then some result else loop.executed.lookup k) :
        Recorded h e loop (.call server tool args)
          ⟨e,{ loop with executed := executed },.journal (callEntry h.env server tool
            (idempotencyKey a.runId loop.toolSeq) result),issued⟩
          (callEntry h.env server tool (idempotencyKey a.runId loop.toolSeq) result)
          (stepTaken a.runId a.tenant "tool_call"
            (callEntry h.env server tool (idempotencyKey a.runId loop.toolSeq) result).payload stamp) := by
      refine ⟨rfl,rfl,rfl,?_,?_,?_,?_⟩
      · rw [line]
        exact (text result).1
      · rw [line]
        exact (text result).2.trans (by simp [Reply.unslashed])
      · rw [line]
        exact markers_callLine _ _ _
      · intro steps known k
        rw [keyed,found k,lookup_latest,← known k]
    rw [perform] at given ⊢
    split at given
    next previous found =>
      cases given
      refine recorded previous loop.executed none ?_
      intro k
      split
      next same => rw [same,found]
      next => rfl
    next absent =>
      split at given
      next => cases given
      next leader =>
        cases given
        rw [if_neg leader]
        refine recorded tools.result _ _ ?_
        exact lookup_latest _ _ _
  | approve prompt => cases given
  | answer text => cases given

namespace Drive
variable {d : Drive} {t : AgentTurn}

theorem settle_live {done : Performed} (live : (settle h a done t).live = true) :
    ∃ entry, done.action = .journal entry ∧
      (runLogStep h.env done.engine a.runId a.tenant "tool_call" entry.payload t.pausing.stamp).1 = .ok () ∧
      settle h a done t = ⟨(runLogStep h.env done.engine a.runId a.tenant "tool_call" entry.payload t.pausing.stamp).2,
        done.loop.push entry,true⟩ := by
  rw [settle] at live ⊢
  cases action : done.action with
  | journal entry =>
    refine ⟨entry,rfl,?_⟩
    simp only [action] at live ⊢
    split at live
    next e written => simp [written]
    next => cases live
  | conclude answer =>
    simp only [action] at live
    split at live <;> cases live
  | _ =>
    simp only [action] at live
    cases live

theorem turn_live (live : (d.turn h a t).live = true) :
    d.live = true ∧ t.leased = true ∧ ∃ reply entry, t.reply = .ok reply ∧
      (perform h a d.engine d.loop t.tools (parseReply reply)).action = .journal entry ∧
      (runLogStep h.env (perform h a d.engine d.loop t.tools (parseReply reply)).engine a.runId a.tenant "tool_call"
        entry.payload t.pausing.stamp).1 = .ok () ∧
      d.turn h a t = ⟨(runLogStep h.env (perform h a d.engine d.loop t.tools (parseReply reply)).engine a.runId a.tenant
        "tool_call" entry.payload t.pausing.stamp).2,
          (perform h a d.engine d.loop t.tools (parseReply reply)).loop.push entry,true⟩ := by
  rw [turn] at live ⊢
  split at live
  next stopped => simp [live] at stopped
  next going =>
    rw [if_neg going]
    split at live
    next => cases live
    next leased =>
      rw [if_neg leased]
      refine ⟨by simpa using going,by simpa using leased,?_⟩
      cases given : t.reply with
      | error err =>
        rw [given] at live
        cases live
      | ok reply =>
        rw [given] at live
        obtain ⟨entry,action,written,after⟩ := settle_live live
        exact ⟨reply,entry,rfl,action,written,after⟩

theorem live_of_run {turns : List AgentTurn} (live : (run (turn h a) d turns).live = true) : d.live = true := by
  induction turns generalizing d with
  | nil => exact live
  | cons t turns ih => exact (turn_live (ih live)).1

variable (h a) in
/-- What the journal keeps of a loop however it is read back: how long the transcript is, at least as many markers
as calls, and every result. -/
structure Kept (d : Drive) : Prop where
  length : (d.rebuilt h a).toList.length = d.loop.transcript.toList.length
  counted : d.loop.toolSeq ≤ markers (d.rebuilt h a)
  results : ∀ k, d.loop.executed.lookup k = (executedCalls (runTrace d.engine a.runId)).lookup k

variable (h a) in
def Exact (d : Drive) : Prop := d.rebuilt h a = d.loop.transcript ∧ markers (d.rebuilt h a) = d.loop.toolSeq

variable (h a) in
/-- What a turn adds to the transcript of the loop, and what to the transcript that is read back. -/
structure Gained (d : Drive) (t : AgentTurn) (line recalled : String) (calls : Nat) : Prop where
  rebuilt : (d.turn h a t).rebuilt h a = d.rebuilt h a ++ recalled
  transcript : (d.turn h a t).loop.transcript = d.loop.transcript ++ line
  toolSeq : (d.turn h a t).loop.toolSeq = d.loop.toolSeq + calls
  length : recalled.toList.length = line.toList.length
  marked : calls ≤ markers recalled
  faithful : Faithful h a d t ↔ markers line = calls ∧ recalled = line

theorem turn_gained (kept : Kept h a d) (clocked : Clocked a d t) (live : (d.turn h a t).live = true) :
    (∃ line recalled calls, Gained h a d t line recalled calls) ∧
      ∀ k, (d.turn h a t).loop.executed.lookup k =
        (executedCalls (runTrace (d.turn h a t).engine a.runId)).lookup k := by
  obtain ⟨_,_,reply,entry,given,action,written,after⟩ := turn_live live
  have recorded := perform_recorded action t.pausing.stamp
  have before : runTrace (perform h a d.engine d.loop t.tools (parseReply reply)).engine a.runId =
      runTrace d.engine a.runId := by
    rw [runTrace,recorded.log,runTrace]
  have trace := runTrace_runLogStep written (by
    intro step inside
    rw [before] at inside
    exact (clocked step inside).le)
  rw [before] at trace
  constructor
  · refine ⟨entry.line,_,if entry.external then 1 else 0,?_,?_,?_,recorded.length,recorded.marked,?_⟩
    · rw [after,Drive.rebuilt,rebuildAgentTranscript,trace,renderSteps_append]
      rfl
    · rw [after,← recorded.transcript]
      rfl
    · rw [after,← recorded.toolSeq]
      exact Loop.push_toolSeq _ _
    · rw [recorded.same,Faithful,given]
      simp [action,Action.marked]
  · intro k
    have found := recorded.results _ kept.results k
    rw [← trace] at found
    rw [after]
    simp only [Loop.push_executed]
    exact found

/-- One turn: both texts grow by lines of the same length, so they agree exactly when they agreed before and the
lines do. -/
theorem turn_kept (kept : Kept h a d) (clocked : Clocked a d t) (live : (d.turn h a t).live = true) :
    Kept h a (d.turn h a t) ∧ (Exact h a (d.turn h a t) ↔ Exact h a d ∧ Faithful h a d t) := by
  obtain ⟨⟨line,recalled,calls,gained⟩,results⟩ := turn_gained kept clocked live
  have counted : markers (d.rebuilt h a ++ recalled) = markers (d.rebuilt h a) + markers recalled :=
    markers_append (renderSteps_lined h.env (runTrace d.engine a.runId)) recalled
  have least := kept.counted
  have marked := gained.marked
  refine ⟨⟨?_,?_,results⟩,?_⟩
  · rw [gained.rebuilt,gained.transcript,String.toList_append,String.toList_append,List.length_append,
      List.length_append,kept.length,gained.length]
  · rw [gained.rebuilt,counted,gained.toolSeq]
    omega
  · have texts : d.rebuilt h a ++ recalled = d.loop.transcript ++ line ↔
        d.rebuilt h a = d.loop.transcript ∧ recalled = line := by
      constructor
      · intro same
        have lists := congrArg String.toList same
        rw [String.toList_append,String.toList_append] at lists
        obtain ⟨front,last⟩ := List.append_inj lists kept.length
        exact ⟨String.toList_inj.mp front,String.toList_inj.mp last⟩
      · intro same
        rw [same.1,same.2]
    rw [Exact,Exact,gained.faithful,gained.rebuilt,gained.transcript,gained.toolSeq,counted,texts]
    constructor
    · intro given
      obtain ⟨⟨front,last⟩,sum⟩ := given
      refine ⟨⟨front,by omega⟩,?_,last⟩
      rw [← last]
      omega
    · intro given
      obtain ⟨⟨front,count⟩,one,last⟩ := given
      refine ⟨⟨front,last⟩,?_⟩
      rw [count,last,one]

theorem run_kept {turns : List AgentTurn} (kept : Kept h a d) (clocked : Along (turn h a) (Clocked a) d turns)
    (live : (run (turn h a) d turns).live = true) :
    Kept h a (run (turn h a) d turns) ∧
      (Exact h a (run (turn h a) d turns) ↔ Exact h a d ∧ Along (turn h a) (Faithful h a) d turns) := by
  induction turns generalizing d with
  | nil => exact ⟨kept,by simp [Along]⟩
  | cons t turns ih =>
    obtain ⟨next,step⟩ := turn_kept kept clocked.1 (live_of_run live)
    obtain ⟨last,rest⟩ := ih next clocked.2 live
    refine ⟨last,?_⟩
    rw [run_cons,rest,step,and_assoc]
    rfl

theorem Opened.kept (opened : Opened h a d) : Kept h a d ∧ Exact h a d := by
  cases opened with
  | resumed e => exact ⟨⟨rfl,le_rfl,fun _ => rfl⟩,rfl,rfl⟩
  | asked e question stamp unused ok =>
    have trace := runTrace_runLogStep ok (by
      intro step inside
      rw [unused] at inside
      cases inside)
    rw [unused,List.nil_append] at trace
    have rebuilt : rebuildAgentTranscript h.env (runLogStep h.env e a.runId a.tenant "run_start"
        (.obj [("question",.str question)]) stamp).2 a.runId = questionLine question := by
      rw [rebuildAgentTranscript,trace]
      simp [renderSteps,renderStep,stepTaken,Json.text,get_stepPayload,Json.asStr]
    exact ⟨⟨congrArg (fun text => text.toList.length) rebuilt,(congrArg markers rebuilt).ge,fun _ => rfl⟩,rebuilt,
      congrArg markers rebuilt⟩

end Drive

/-- Loops that differ in nothing a turn can tell. -/
structure Loop.Same (l m : Loop) : Prop where
  transcript : l.transcript = m.transcript
  toolSeq : l.toolSeq = m.toolSeq
  executed : ∀ k, l.executed.lookup k = m.executed.lookup k

theorem Loop.Same.push {l m : Loop} (same : Loop.Same l m) (entry : JournalEntry) : Loop.Same (l.push entry) (m.push entry) := by
  refine ⟨?_,?_,same.executed⟩
  · simp only [Loop.push,same.transcript]
  · rw [Loop.push_toolSeq,Loop.push_toolSeq,same.toolSeq]

theorem perform_same {l m : Loop} (same : Loop.Same l m) (e : Engine) (tools : Tools) (reply : Reply) :
    (perform h a e l tools reply).engine = (perform h a e m tools reply).engine ∧
      (perform h a e l tools reply).action = (perform h a e m tools reply).action ∧
      (perform h a e l tools reply).issued = (perform h a e m tools reply).issued ∧
      Loop.Same (perform h a e l tools reply).loop (perform h a e m tools reply).loop := by
  cases reply with
  | call server tool args =>
    rw [perform,perform,same.toolSeq,same.executed]
    split
    next => exact ⟨rfl,rfl,rfl,same⟩
    next =>
      split
      next => exact ⟨rfl,rfl,rfl,same⟩
      next =>
        refine ⟨rfl,rfl,rfl,same.transcript,rfl,?_⟩
        intro k
        rw [lookup_latest,lookup_latest,same.executed k]
  | _ => exact ⟨rfl,rfl,rfl,same⟩

theorem perform_executed (e : Engine) (loop : Loop) (tools : Tools) (reply : Reply) :
    (perform h a e loop tools reply).loop.executed = loop.executed ∨
      ∃ entry, (perform h a e loop tools reply).loop.executed = entry :: loop.executed := by
  cases reply with
  | call server tool args =>
    rw [perform]
    split
    next => exact Or.inl rfl
    next =>
      split
      next => exact Or.inl rfl
      next => exact Or.inr ⟨_,rfl⟩
  | _ => exact Or.inl rfl

theorem perform_issued {e : Engine} {loop : Loop} {tools : Tools} {reply : Reply} {call : ToolCall}
    (sent : (perform h a e loop tools reply).issued = some call) : loop.executed.lookup call.key = none := by
  cases reply with
  | call server tool args =>
    rw [perform] at sent
    split at sent
    next => cases sent
    next absent =>
      split at sent
      next => cases sent
      next =>
        cases sent
        exact absent
  | _ => cases sent

namespace Drive
variable {d : Drive} {t : AgentTurn}

structure Same (d f : Drive) : Prop where
  engine : d.engine = f.engine
  loop : Loop.Same d.loop f.loop
  live : d.live = f.live

theorem settle_same {done other : Performed} (engine : done.engine = other.engine) (action : done.action = other.action)
    (loop : Loop.Same done.loop other.loop) (t : AgentTurn) : Same (settle h a done t) (settle h a other t) := by
  obtain ⟨e,l,act,_⟩ := done
  obtain ⟨_,m,_,_⟩ := other
  cases engine
  cases action
  cases act with
  | journal entry =>
    simp only [settle]
    split
    next => exact ⟨rfl,loop.push entry,rfl⟩
    next => exact ⟨rfl,loop,rfl⟩
  | stop => exact ⟨rfl,loop,rfl⟩
  | pause prompt => exact ⟨rfl,loop,rfl⟩
  | conclude answer =>
    simp only [settle]
    split <;> exact ⟨rfl,loop,rfl⟩

theorem turn_same (d f : Drive) (t : AgentTurn) (same : Same d f) : Same (d.turn h a t) (f.turn h a t) := by
  rw [turn,turn,same.live]
  by_cases stopped : (!f.live) = true
  · rw [if_pos stopped,if_pos stopped]
    exact same
  rw [if_neg stopped,if_neg stopped]
  by_cases lost : (!t.leased) = true
  · rw [if_pos lost,if_pos lost]
    exact ⟨same.engine,same.loop,rfl⟩
  rw [if_neg lost,if_neg lost]
  cases t.reply with
  | error err => exact ⟨same.engine,same.loop,rfl⟩
  | ok reply =>
    obtain ⟨engine,action,_,loop⟩ := perform_same (h := h) (a := a) same.loop f.engine t.tools (parseReply reply)
    rw [same.engine]
    exact settle_same engine action loop t

theorem assigned_same (d f : Drive) (t : AgentTurn) (same : Same d f) : d.assigned a t = f.assigned a t := by
  rw [assigned,assigned,same.live,same.loop.toolSeq]

theorem settle_executed (done : Performed) (t : AgentTurn) : (settle h a done t).loop.executed = done.loop.executed := by
  obtain ⟨e,loop,action,_⟩ := done
  cases action with
  | journal entry =>
    simp only [settle]
    split <;> rfl
  | conclude answer =>
    simp only [settle]
    split <;> rfl
  | _ => rfl

theorem turn_executed (d : Drive) (t : AgentTurn) : (d.turn h a t).loop.executed = d.loop.executed ∨
    ∃ entry, (d.turn h a t).loop.executed = entry :: d.loop.executed := by
  rw [turn]
  split
  next => exact Or.inl rfl
  next =>
    split
    next => exact Or.inl rfl
    next =>
      cases t.reply with
      | error err => exact Or.inl rfl
      | ok reply =>
        simp only [settle_executed]
        exact perform_executed d.engine d.loop t.tools (parseReply reply)

def plainCall : AgentTurn where
  leased := true
  reply := .ok "TOOL call server tool"
  tools := .plain 0 0
  pausing := ⟨0,0,⟨0,0,.absent⟩⟩
  closedAt := 0

private theorem assigned_plainCall (live : d.live = true) :
    d.assigned a plainCall = [idempotencyKey a.runId d.loop.toolSeq] := by
  have parsed : plainCall.reply.map parseReply = .ok (.call "server" "tool" "{}") :=
    congrArg Except.ok (by decide +kernel)
  rw [assigned,live,parsed]
  rfl

variable (a) in
def Recalls (e : Engine) (f : Drive) : Prop :=
  ∀ k ∈ (executedCalls (runTrace e a.runId)).map Prod.fst, f.loop.executed.lookup k ≠ none

/-- For a loop that goes on, a crash is not noticed exactly when the transcript and the counter come back. -/
theorem invisible_iff_exact (kept : Kept h a d) (live : d.live = true) : Invisible h a d ↔ Exact h a d := by
  constructor
  · intro invisible
    refine ⟨invisible.transcript,?_⟩
    have keys := invisible.keys [plainCall]
    rw [outputs,outputs,outputs,outputs,List.append_nil,List.append_nil,assigned_plainCall live,
      assigned_plainCall rfl] at keys
    exact idempotencyKey_inj a.runId (List.cons.inj keys).1
  · intro exact
    have same : Same (resume h a d.engine) d := by
      refine ⟨rfl,⟨exact.1,exact.2,?_⟩,live.symm⟩
      intro k
      exact (kept.results k).symm
    refine ⟨exact.1,outputs_related same turn_same assigned_same,?_⟩
    -- results are never forgotten, and a call with a result is not made
    have recalled : Recalls a d.engine (resume h a d.engine) := by
      intro k inside
      change (executedCalls (runTrace d.engine a.runId)).lookup k ≠ none
      simpa using inside
    refine forall_mem_outputs recalled ?_ ?_
    · intro f t known k inside
      rcases turn_executed (h := h) (a := a) f t with same | ⟨entry,grown⟩
      · rw [same]
        exact known k inside
      · rw [grown,show entry = (entry.1,entry.2) from rfl,lookup_latest]
        split
        next => exact Option.some_ne_none _
        next => exact known k inside
    · intro f t known call sent inside
      rw [issued] at sent
      split at sent
      next => cases sent
      next =>
        cases given : t.reply with
        | error err => simp [given] at sent
        | ok reply =>
          simp only [given,Option.mem_toList] at sent
          exact known call.key inside (perform_issued sent)

end Drive

/-- Whatever the question, the replies and the results, and wherever the loop crashes, resuming is invisible exactly
when every line on the way was faithful to its step. -/
theorem resume_invisible_iff (h : Host F) (a : Assignment) {d : Drive} {turns : List AgentTurn} (opened : Drive.Opened h a d)
    (clocked : Along (Drive.turn h a) (Drive.Clocked a) d turns)
    (live : (run (Drive.turn h a) d turns).live = true) :
    Drive.Invisible h a (run (Drive.turn h a) d turns) ↔ Along (Drive.turn h a) (Drive.Faithful h a) d turns := by
  obtain ⟨kept,exact⟩ := opened.kept
  obtain ⟨last,iff⟩ := Drive.run_kept kept clocked live
  rw [Drive.invisible_iff_exact last live,iff]
  exact and_iff_right exact

end

/-- A turn of the leader, under its lease, at the given time. -/
def AgentTurn.at (reply : String) (id : Uuid) (now : Int) : AgentTurn where
  leased := true
  reply := .ok reply
  tools := .plain now id
  pausing := ⟨now,now,⟨id,now,.absent⟩⟩
  closedAt := now

def sampleAssignment : Assignment := ⟨1,"default","agent"⟩

def sampleDrive : Drive := .ask .plain sampleAssignment (.empty .default 1) "tea or coffee?" ⟨10,0,.absent⟩

theorem sampleDrive_opened : Drive.Opened .plain sampleAssignment sampleDrive :=
  .asked _ _ _ (by decide +kernel) (by decide +kernel)

theorem resume_invisible_plain :
    Drive.Invisible .plain sampleAssignment (run (Drive.turn .plain sampleAssignment) sampleDrive
      [.at "TOOL remember: the guest drinks tea" 11 1000,.at "TOOL call kitchen kettle: {}" 12 2000]) := by
  refine (resume_invisible_iff .plain sampleAssignment sampleDrive_opened (by decide +kernel) (by decide +kernel)).mpr ?_
  exact ⟨⟨by decide +kernel,by decide +kernel⟩,⟨by decide +kernel,by decide +kernel⟩,trivial⟩

/-- A text that is remembered and holds the marker counts as a call once it is read back. -/
theorem marker_in_text_shifts_keys :
    ¬ ∀ (a : Assignment) (d : Drive) (turns : List AgentTurn), Drive.Opened .plain a d →
      Along (Drive.turn .plain a) (Drive.Clocked a) d turns → (run (Drive.turn .plain a) d turns).live = true →
      Drive.Invisible .plain a (run (Drive.turn .plain a) d turns) := by
  intro all
  have clocked : Along (Drive.turn .plain sampleAssignment) (Drive.Clocked sampleAssignment) sampleDrive
      [.at "TOOL remember: the log says TOOL call failed" 11 1000] := by decide +kernel
  have live : (run (Drive.turn .plain sampleAssignment) sampleDrive
      [.at "TOOL remember: the log says TOOL call failed" 11 1000]).live = true := by decide +kernel
  obtain ⟨kept,_⟩ := Drive.run_kept sampleDrive_opened.kept.1 clocked live
  have exact := (Drive.invisible_iff_exact kept live).mp (all _ _ _ sampleDrive_opened clocked live)
  exact absurd exact.2 (by decide +kernel)

end Ecphoria
