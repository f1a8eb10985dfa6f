import Ecphoria.Library.Transition
import Ecphoria.Runtime.Machine

/-! Who drives a run. A loop holds the lease of its run from the claim before its first
turn to the release after its last; two loops hold it together exactly when the second
claims it under the name of the first. -/
namespace Ecphoria
open Library

/-- The run whose loop is between its first claim and its release, with the time of the last claim. -/
def Stage.holding : Stage → Option (Uuid × Int)
  | .replay job _ renewedAt => some (job.target.runId,renewedAt)
  | .renew frame | .ask frame | .act frame _ | .journal frame _ | .conclude frame _ | .finish frame _ | .reload frame
  | .release frame _ => some (frame.job.target.runId,frame.renewedAt)
  | .record request | .pause request _ | .logRequest request _ =>
    request.asker.map (fun frame => (frame.job.target.runId,frame.renewedAt))
  | _ => none

def Stage.claiming : Stage → Option Uuid
  | .claim job _ => some job.target.runId
  | _ => none

/-- All that a step can do with leases: nothing, to take one at the current time, or to give one back. -/
inductive LeaseStep (runs : RunTable) (driver : String) (now : Int) (stage : Stage) (leases after : LeaseColumns)
    (next : Stage) : Prop
  | kept (same : after = leases) (holds : next.holding = stage.holding ∨ next.holding = none)
  | taken (runId : Uuid) (known : runId ∈ runs.keys) (free : claimable (leases runId) driver now = true)
      (written : after = Function.update leases runId (some ⟨driver,now + leaseTtl⟩))
      (holds : next.holding = some (runId,now))
      (before : stage.claiming = some runId ∨ ∃ since, stage.holding = some (runId,since))
  | released (runId : Uuid) (since : Int) (held : stage.holding = some (runId,since)) (free : next.holding = none)
      (written : after = releaseLease leases runId driver)

theorem tryClaimLease_cases (runs : RunTable) (leases : LeaseColumns) (id : Uuid) (owner : String) (now expiresAt : Int) :
    tryClaimLease runs leases id owner now expiresAt = (false,leases) ∨
      id ∈ runs.keys ∧ claimable (leases id) owner now = true ∧
        tryClaimLease runs leases id owner now expiresAt = (true,Function.update leases id (some ⟨owner,expiresAt⟩)) := by
  unfold tryClaimLease
  split
  next free =>
    have both : id ∈ runs.keys ∧ claimable (leases id) owner now = true := by simpa using free
    exact Or.inr ⟨both.1,both.2,rfl⟩
  next => exact Or.inl rfl

@[simp] theorem resumeNext_holding (queue : List Uuid) : (resumeNext queue).holding = none := by
  cases queue <;> rfl

@[simp] theorem enter_holding (entrance : Entrance) (runId : Uuid) (run : Run) (queue : List Uuid) :
    (enter entrance runId run queue).holding = none := by
  cases entrance <;> rfl

theorem afterLog_holding {frame : Frame} {next : Stage}
    (same : next.holding = some (frame.job.target.runId,frame.renewedAt)) (result : Except Failure Unit) :
    (afterLog frame next result).holding = some (frame.job.target.runId,frame.renewedAt) ∨
      (afterLog frame next result).holding = none := by
  rcases result with (err | _) | _
  · exact Or.inl rfl
  · exact Or.inr rfl
  · exact Or.inl same

section
variable {F : Type} {h : Host F}

theorem actOn_holding (s : Shared) (frame : Frame) (reading : StageReading) (reply : Reply) :
    (actOn h s frame reading reply).1.leases = s.leases ∧
      (actOn h s frame reading reply).2.holding = some (frame.job.target.runId,frame.renewedAt) := by
  refine ⟨rfl,?_⟩
  simp only [actOn]
  cases (perform h frame.job.target s.engine frame.loop reading.tools reply).action <;> rfl

theorem advanceStage_lease (s : Shared) (driver : String) (reading : StageReading) (stage : Stage) :
    LeaseStep s.engine.runs driver reading.now stage s.leases (advanceStage h s driver reading stage).1.leases
      (advanceStage h s driver reading stage).2 := by
  cases stage with
  | claim job transcript =>
    rw [advanceStage,runTryClaim]
    rcases tryClaimLease_cases s.engine.runs s.leases job.target.runId driver reading.now (reading.now + leaseTtl) with
      refused | ⟨known,free,claimed⟩
    · rw [refused]
      exact .kept rfl (Or.inr (resumeNext_holding _))
    · rw [claimed]
      exact .taken job.target.runId known free rfl rfl (Or.inl rfl)
  | renew frame =>
    rw [advanceStage]
    split
    next => exact .kept rfl (Or.inl rfl)
    next left _ =>
      rw [runTryClaim]
      rcases tryClaimLease_cases s.engine.runs s.leases frame.job.target.runId driver reading.now
        (reading.now + leaseTtl) with refused | ⟨known,free,claimed⟩
      · rw [refused]
        exact .kept rfl (Or.inl rfl)
      · rw [claimed]
        exact .taken frame.job.target.runId known free rfl rfl (Or.inr ⟨_,rfl⟩)
  | release frame error =>
    refine .released frame.job.target.runId frame.renewedAt rfl ?_ rfl
    cases error with
    | none => exact resumeNext_holding _
    | some err => rfl
  | act frame reply =>
    obtain ⟨leases,holds⟩ := actOn_holding (h := h) s frame reading reply
    exact .kept leases (Or.inl holds)
  | journal frame entry => exact .kept rfl (afterLog_holding rfl _)
  | conclude frame answer => exact .kept rfl (afterLog_holding rfl _)
  | logRequest request token =>
    refine .kept rfl ?_
    obtain ⟨runId,tenant,prompt,asker⟩ := request
    cases asker with
    | none => exact Or.inr rfl
    | some frame => exact afterLog_holding rfl _
  | ask | replay =>
    simp only [advanceStage]
    split <;> exact .kept rfl (Or.inl rfl)
  | load entrance runId queue =>
    rw [advanceStage]
    split
    next => exact .kept rfl (Or.inr (resumeNext_holding _))
    next => exact .kept rfl (Or.inr (enter_holding _ _ _ _))
  | list staleSecs limit =>
    rw [advanceStage]
    split
    next => exact .kept rfl (Or.inr rfl)
    next => exact .kept rfl (Or.inr (resumeNext_holding _))
  | mark job rebuilt =>
    cases rebuilt <;> exact .kept rfl (Or.inr rfl)
  | rebuild job marks =>
    cases marks <;> exact .kept rfl (Or.inr rfl)
  | fail job error => exact .kept rfl (Or.inr (resumeNext_holding _))
  | create | approval | verify =>
    rw [advanceStage]
    split <;> exact .kept rfl (Or.inr rfl)
  | finish | record | pause | reload => exact .kept rfl (Or.inl rfl)
  | idle | opening | logStart | decide | settle | logVerdict => exact .kept rfl (Or.inr rfl)

theorem claim_taken {s : Shared} {driver : String} {reading : StageReading} {stage : Stage} {runId : Uuid}
    (claims : stage.claiming = some runId) (known : runId ∈ s.engine.runs.keys)
    (free : claimable (s.leases runId) driver reading.now = true) :
    (advanceStage h s driver reading stage).2.holding = some (runId,reading.now) := by
  cases stage with
  | claim job transcript =>
    cases claims
    simp [advanceStage,runTryClaim,tryClaimLease,known,free,Stage.holding]
  | _ => cases claims

end

@[simp] theorem entry_holding (call : RunCall) : call.entry.holding = none := by
  cases call <;> rfl

def Move.At (instant : Int) : Move → Prop
  | .step reading => reading.now = instant
  | _ => True

instance (instant : Int) : ∀ move : Move, Decidable (move.At instant)
  | .step _ => inferInstanceAs (Decidable (_ = _))
  | .begin _ _ => isTrue trivial
  | .abandon => isTrue trivial

def Move.On (driver : String) : Move → Prop
  | .begin engine _ => engine = driver
  | _ => True

instance (driver : String) : ∀ move : Move, Decidable (move.On driver)
  | .begin _ _ => inferInstanceAs (Decidable (_ = _))
  | .step _ => isTrue trivial
  | .abandon => isTrue trivial

def Thread.holds (t : Thread) : Option Uuid := t.stage.holding.map Prod.fst

namespace System

/-- No two loops are between their first claim and their release on the same run. -/
def Exclusive (system : System) : Prop :=
  ∀ i j runId, (system.locals i).holds = some runId → (system.locals j).holds = some runId → i = j

/-- No turn has lasted as long as a lease: at the time of a step, every loop claimed its run less than that ago. -/
def InTime (system : System) (input : Nat × Move) : Prop :=
  match input.2 with
  | .step reading => ∀ j runId since, (system.locals j).stage.holding = some (runId,since) → reading.now < since + leaseTtl
  | _ => True

/-- A run is not claimed while another loop of the same engine drives it. -/
def Solo (system : System) (input : Nat × Move) : Prop :=
  match input.2 with
  | .step _ => ∀ runId, (system.locals input.1).stage.claiming = some runId → ∀ j, j ≠ input.1 →
      (system.locals j).driver = (system.locals input.1).driver → (system.locals j).holds ≠ some runId
  | _ => True

/-- Every loop that drives a run holds its lease, in the name of its engine and until its turn is too long. -/
def Held (system : System) : Prop :=
  ∀ j runId since, (system.locals j).stage.holding = some (runId,since) →
    system.shared.leases runId = some ⟨(system.locals j).driver,since + leaseTtl⟩ ∧
      runId ∈ system.shared.engine.runs.keys

theorem holds_of_holding {t : Thread} {runId : Uuid} {since : Int} (holding : t.stage.holding = some (runId,since)) :
    t.holds = some runId := by
  rw [Thread.holds,holding]
  rfl

theorem holding_of_holds {t : Thread} {runId : Uuid} (holds : t.holds = some runId) :
    ∃ since, t.stage.holding = some (runId,since) := by
  obtain ⟨pair,holding,rfl⟩ := Option.map_eq_some_iff.mp holds
  exact ⟨pair.2,holding⟩

/-- Nothing new is held: every process drives what it drove, or nothing, and the leases are as they were. -/
structure Shrinks (system next : System) : Prop where
  leases : next.shared.leases = system.shared.leases
  keys : ∀ runId ∈ system.shared.engine.runs.keys, runId ∈ next.shared.engine.runs.keys
  locals : ∀ j, (next.locals j).stage.holding = none ∨
    (next.locals j).stage.holding = (system.locals j).stage.holding ∧ (next.locals j).driver = (system.locals j).driver

theorem Shrinks.held {system next : System} (shrinks : Shrinks system next) (held : Held system) : Held next := by
  intro j runId since holding
  rcases shrinks.locals j with none | ⟨same,driver⟩
  · rw [none] at holding
    cases holding
  · rw [same] at holding
    rw [shrinks.leases,driver]
    exact ⟨(held j runId since holding).1,shrinks.keys runId (held j runId since holding).2⟩

theorem Shrinks.exclusive {system next : System} (shrinks : Shrinks system next) (exclusive : Exclusive system) :
    Exclusive next := by
  have before (j : Nat) (runId : Uuid) (holds : (next.locals j).holds = some runId) :
      (system.locals j).holds = some runId := by
    rcases shrinks.locals j with none | ⟨same,_⟩
    · rw [Thread.holds,none] at holds
      cases holds
    · rwa [Thread.holds,same] at holds
  intro i j runId first second
  exact exclusive i j runId (before i runId first) (before j runId second)

/-- Process `i` moves: the others stay, it stays on its engine, and no run goes. -/
structure Moves (system next : System) (i : Nat) : Prop where
  other : ∀ j, j ≠ i → next.locals j = system.locals j
  driver : (next.locals i).driver = (system.locals i).driver
  keys : ∀ runId ∈ system.shared.engine.runs.keys, runId ∈ next.shared.engine.runs.keys

namespace Moves
variable {system next : System} {i : Nat} {runId : Uuid}

theorem taken (moves : Moves system next i) (held : Held system) (exclusive : Exclusive system) {now : Int}
    (known : runId ∈ system.shared.engine.runs.keys) (holds : (next.locals i).stage.holding = some (runId,now))
    (leases : next.shared.leases =
      Function.update system.shared.leases runId (some ⟨(system.locals i).driver,now + leaseTtl⟩))
    (alone : ∀ j, j ≠ i → (system.locals j).holds ≠ some runId) : Held next ∧ Exclusive next := by
  constructor
  · intro j other since holding
    by_cases mine : j = i
    · rw [mine] at holding ⊢
      obtain ⟨rfl,rfl⟩ := Prod.mk.inj (Option.some.inj (holds.symm.trans holding))
      rw [leases,Function.update_self,moves.driver]
      exact ⟨rfl,moves.keys runId known⟩
    · rw [moves.other j mine] at holding ⊢
      have apart : other ≠ runId := by
        rintro rfl
        exact alone j mine (holds_of_holding holding)
      rw [leases,Function.update_of_ne apart]
      exact ⟨(held j other since holding).1,moves.keys _ (held j other since holding).2⟩
  · intro j k shared first second
    have mine {j : Nat} (same : j = i) (drives : (next.locals j).holds = some shared) : shared = runId := by
      rw [same,Thread.holds,holds] at drives
      exact (Option.some.inj drives).symm
    by_cases left : j = i
    · by_cases right : k = i
      · rw [left,right]
      · rw [moves.other k right,mine left first] at second
        exact absurd second (alone k right)
    · rw [moves.other j left] at first
      by_cases right : k = i
      · rw [mine right second] at first
        exact absurd first (alone j left)
      · rw [moves.other k right] at second
        exact exclusive j k shared first second

theorem released (moves : Moves system next i) (held : Held system) (exclusive : Exclusive system)
    (drives : (system.locals i).holds = some runId) (free : (next.locals i).stage.holding = none)
    (leases : next.shared.leases = releaseLease system.shared.leases runId (system.locals i).driver) :
    Held next ∧ Exclusive next := by
  have kept (other : Uuid) (apart : other ≠ runId) : next.shared.leases other = system.shared.leases other := by
    rw [leases,releaseLease]
    split
    next => rw [Function.update_of_ne apart]
    next => rfl
  constructor
  · intro j other since holding
    by_cases mine : j = i
    · rw [mine,free] at holding
      cases holding
    · rw [moves.other j mine] at holding ⊢
      have apart : other ≠ runId := by
        rintro rfl
        exact mine (exclusive j i _ (holds_of_holding holding) drives)
      rw [kept other apart]
      exact ⟨(held j other since holding).1,moves.keys _ (held j other since holding).2⟩
  · have idle {j : Nat} {shared : Uuid} (drives : (next.locals j).holds = some shared) : j ≠ i := by
      intro same
      rw [same,Thread.holds,free] at drives
      cases drives
    intro j k shared first second
    rw [moves.other j (idle first)] at first
    rw [moves.other k (idle second)] at second
    exact exclusive j k shared first second

end Moves

section
variable {F : Type} {h : Host F} {system : System}

theorem shrinks_begin (i : Nat) (driver : String) (call : RunCall) :
    Shrinks system (system.next h (i,.begin driver call)) := by
  refine ⟨?_,?_,?_⟩
  · rw [next_shared_begin]
  · intro runId known
    rwa [next_shared_begin]
  · intro j
    rcases begin_locals i driver call j with same | entry
    · rw [same]
      exact Or.inr ⟨rfl,rfl⟩
    · rw [entry]
      exact Or.inl (entry_holding call)

theorem shrinks_abandon (i : Nat) : Shrinks system (system.next h (i,.abandon)) := by
  refine ⟨rfl,fun _ known => known,?_⟩
  intro j
  rcases abandon_locals i j with same | idle
  · rw [same]
    exact Or.inr ⟨rfl,rfl⟩
  · rw [idle]
    exact Or.inl rfl

variable (h system) in
theorem moves_step (i : Nat) (reading : StageReading) : Moves system (system.next h (i,.step reading)) i := by
  refine ⟨fun _ apart => next_other h system apart _,?_,fun _ known => advanceStage_keys _ _ _ _ known⟩
  rw [step_thread]

variable (h system) in
theorem step_stage (i : Nat) (reading : StageReading) : ((system.next h (i,.step reading)).locals i).stage =
    (advanceStage h system.shared (system.locals i).driver reading (system.locals i).stage).2 :=
  congrArg Thread.stage (step_thread h system i reading)

/-- One step of one call, with every other loop in time and no loop of its engine on the run it claims. -/
theorem next_exclusive {input : Nat × Move} (held : Held system) (exclusive : Exclusive system)
    (inTime : InTime system input) (solo : Solo system input) :
    Held (system.next h input) ∧ Exclusive (system.next h input) := by
  obtain ⟨i,move⟩ := input
  cases move with
  | begin driver call => exact ⟨(shrinks_begin i driver call).held held,(shrinks_begin i driver call).exclusive exclusive⟩
  | abandon => exact ⟨(shrinks_abandon i).held held,(shrinks_abandon i).exclusive exclusive⟩
  | step reading =>
    have moves := moves_step h system i reading
    have stage := step_stage h system i reading
    cases advanceStage_lease (h := h) system.shared (system.locals i).driver reading (system.locals i).stage with
    | kept same holds =>
      have shrinks : Shrinks system (system.next h (i,.step reading)) := by
        refine ⟨same,moves.keys,?_⟩
        intro j
        by_cases mine : j = i
        · rw [mine,stage]
          exact holds.symm.imp_right (fun holding => ⟨holding,moves.driver⟩)
        · rw [moves.other j mine]
          exact Or.inr ⟨rfl,rfl⟩
      exact ⟨shrinks.held held,shrinks.exclusive exclusive⟩
    | taken runId known free written holds before =>
      refine moves.taken held exclusive known (stage ▸ holds) written ?_
      intro j apart drives
      obtain ⟨since,holding⟩ := holding_of_holds drives
      rcases before with claims | ⟨mine,renewed⟩
      · -- a lease in time is refused to every engine but the holder's
        rw [(held j runId since holding).1,claimable,Bool.or_eq_true,decide_eq_true_eq,decide_eq_true_eq] at free
        rcases free with same | late
        · exact solo runId claims j apart same drives
        · exact absurd (inTime j runId since holding) (not_lt.mpr late)
      · exact apart (exclusive j i runId drives (holds_of_holding renewed))
    | released runId since holding free written =>
      exact moves.released held exclusive (holds_of_holding holding) (stage ▸ free) written

theorem solo_of_exclusive {input : Nat × Move} (held : Held system) (exclusive : Exclusive (system.next h input)) :
    Solo system input := by
  obtain ⟨i,move⟩ := input
  cases move with
  | begin driver call => trivial
  | abandon => trivial
  | step reading =>
    intro runId claims j apart same drives
    obtain ⟨since,holding⟩ := holding_of_holds drives
    obtain ⟨lease,known⟩ := held j runId since holding
    have free : claimable (system.shared.leases runId) (system.locals i).driver reading.now = true := by
      rw [lease,claimable,same]
      simp
    have mine : ((system.next h (i,.step reading)).locals i).holds = some runId :=
      holds_of_holding ((step_stage h system i reading).symm ▸ claim_taken claims known free)
    have theirs : ((system.next h (i,.step reading)).locals j).holds = some runId := by
      rw [(moves_step h system i reading).other j apart]
      exact drives
    exact apart (exclusive j i runId theirs mine)

theorem Quiet.held (quiet : Quiet system) : Held system := by
  intro j runId since holding
  rw [quiet j] at holding
  cases holding

theorem Quiet.exclusive (quiet : Quiet system) : Exclusive system := by
  intro i j runId holds
  rw [Thread.holds,quiet i] at holds
  cases holds

theorem solo_along {inputs : List (Nat × Move)} (held : Held system) (inTime : Along (next h) InTime system inputs)
    (exclusive : Throughout (next h) Exclusive system inputs) : Along (next h) Solo system inputs := by
  induction inputs generalizing system with
  | nil => trivial
  | cons input inputs ih =>
    have solo := solo_of_exclusive held exclusive.tail.head
    exact ⟨solo,ih (next_exclusive held exclusive.head inTime.1 solo).1 inTime.2 exclusive.tail⟩

/-- In whatever order calls are begun, advanced and dropped, on however many engines: as long as no turn lasts as
long as a lease, at most one loop drives a run exactly when no run is claimed while a loop of the same engine drives it. -/
theorem exclusion_iff (h : Host F) {system : System} {inputs : List (Nat × Move)} (quiet : Quiet system)
    (inTime : Along (next h) InTime system inputs) :
    Throughout (next h) Exclusive system inputs ↔ Along (next h) Solo system inputs := by
  constructor
  · exact solo_along quiet.held inTime
  · intro solo
    have both : Throughout (next h) (fun s => Held s ∧ Exclusive s) system inputs :=
      (inTime.and solo).throughout ⟨quiet.held,quiet.exclusive⟩
        (fun s input kept guard => next_exclusive kept.1 kept.2 guard.1 guard.2)
    exact fun n => (both n).2

def Dated (instant : Int) (system : System) : Prop :=
  ∀ j runId since, (system.locals j).stage.holding = some (runId,since) → since = instant

theorem next_dated {instant : Int} {input : Nat × Move} (dated : Dated instant system) (time : input.2.At instant) :
    Dated instant (system.next h input) := by
  have shrunk {next : System} (shrinks : Shrinks system next) : Dated instant next := by
    intro j runId since holding
    rcases shrinks.locals j with none | ⟨same,_⟩
    · rw [none] at holding
      cases holding
    · exact dated j runId since (same ▸ holding)
  obtain ⟨i,move⟩ := input
  cases move with
  | begin driver call => exact shrunk (shrinks_begin i driver call)
  | abandon => exact shrunk (shrinks_abandon i)
  | step reading =>
    intro j runId since holding
    by_cases mine : j = i
    · subst mine
      rw [step_stage] at holding
      cases advanceStage_lease (h := h) system.shared (system.locals j).driver reading (system.locals j).stage with
      | kept _ holds =>
        rcases holds with same | none
        · exact dated j runId since (same ▸ holding)
        · rw [none] at holding
          cases holding
      | taken _ _ _ _ holds _ =>
        rw [holds] at holding
        obtain ⟨_,rfl⟩ := Prod.mk.inj (Option.some.inj holding)
        exact time
      | released _ _ _ free _ =>
        rw [free] at holding
        cases holding
    · rw [next_other h system mine] at holding
      exact dated j runId since holding

theorem inTime_instant {inputs : List (Nat × Move)} (quiet : Quiet system) (instant : Int)
    (same : ∀ input ∈ inputs, input.2.At instant) : Along (next h) InTime system inputs := by
  have start : Dated instant system := by
    intro j runId since holding
    rw [quiet j] at holding
    cases holding
  refine (Along.of_forall same).imp start (fun _ _ => next_dated) ?_
  intro s input dated time
  obtain ⟨i,move⟩ := input
  cases move with
  | step reading =>
    intro j runId since holding
    rw [dated j runId since holding,time]
    unfold leaseTtl
    omega
  | begin driver call => trivial
  | abandon => trivial

/-- Every call under way is on the engine of its own. -/
def Named (names : Nat → String) (system : System) : Prop :=
  ∀ j, (system.locals j).stage ≠ .idle → (system.locals j).driver = names j

theorem next_named {names : Nat → String} {input : Nat × Move} (named : Named names system)
    (own : input.2.On (names input.1)) : Named names (system.next h input) := by
  obtain ⟨i,move⟩ := input
  intro j busy
  by_cases mine : j = i
  · subst mine
    cases move with
    | begin driver call =>
      rw [next,Processes.step_locals,if_pos rfl] at busy ⊢
      simp only [Thread.advance] at busy ⊢
      split
      next => exact own
      next working => exact named j working
    | abandon =>
      rw [next,Processes.step_locals,if_pos rfl] at busy
      exact absurd rfl busy
    | step reading =>
      rw [step_thread] at busy ⊢
      refine named j ?_
      intro idle
      rw [idle] at busy
      exact busy rfl
  · rw [next_other h system mine] at busy ⊢
    exact named j busy

theorem solo_named {inputs : List (Nat × Move)} (quiet : Quiet system) {names : Nat → String}
    (distinct : ∀ i j, names i = names j → i = j) (own : ∀ input ∈ inputs, input.2.On (names input.1)) :
    Along (next h) Solo system inputs := by
  have start : Named names system := fun j busy => absurd (quiet j) busy
  refine (Along.of_forall own).imp start (fun _ _ => next_named) ?_
  intro s input named _
  obtain ⟨i,move⟩ := input
  cases move with
  | step reading =>
    intro runId claims j apart same drives
    have claimer : (s.locals i).stage ≠ .idle := by
      intro idle
      rw [idle] at claims
      cases claims
    have driver : (s.locals j).stage ≠ .idle := by
      intro idle
      rw [Thread.holds,idle] at drives
      cases drives
    exact apart (distinct j i ((named j driver).symm.trans (same.trans (named i claimer))))
  | begin driver call => trivial
  | abandon => trivial

end

/-- Two engines: the second finds the run leased. -/
theorem exclusion_two_engines :
    Throughout (next .plain) Exclusive single
      (begun 0 "engine0" (.agentDrive 1 4) (List.replicate 3 (.plain 0 10 "")) ++
        begun 1 "engine1" (.resumeDriver 1) (List.replicate 4 (.plain 0 11 ""))) := by
  refine (exclusion_iff .plain single_quiet (inTime_instant single_quiet 0 (by decide))).mpr ?_
  exact solo_named single_quiet (fun i j same => numbered_inj "engine" same) (by decide)

/-- Two calls on one engine: both drive the run. -/
theorem same_engine_drives_twice :
    ¬ ∀ (system : System) (inputs : List (Nat × Move)), system.Quiet → Along (next .plain) InTime system inputs →
      Throughout (next .plain) Exclusive system inputs := by
  intro all
  have drives := all single (begun 0 "a" (.agentDrive 1 4) (List.replicate 3 (.plain 0 10 "")) ++
    begun 1 "a" (.agentDrive 1 4) (List.replicate 3 (.plain 0 11 ""))) single_quiet
    (inTime_instant single_quiet 0 (by decide)) 8
  exact absurd (drives 0 1 1 (by decide +kernel) (by decide +kernel)) (by decide)

end System

end Ecphoria
