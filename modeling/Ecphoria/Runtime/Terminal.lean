import Ecphoria.Library.Transition
import Ecphoria.Runtime.Machine

/-! What becomes of a run that has ended. Its row is written by patches that look at
the approval of the run, or at nothing, but not at its status: an ended run stays as it
is exactly as long as none of them meets it. -/
namespace Ecphoria
open Library

/-- Once the run has ended, it has the same status, result and end in the later table. -/
def RunTable.Settled (id : Uuid) (before after : RunTable) : Prop :=
  ∀ run, before.find id = some run → run.status.isTerminal = true →
    ∃ later, after.find id = some later ∧ later.status = run.status ∧ later.result = run.result ∧
      later.endedAt = run.endedAt

theorem RunTable.Settled.refl (id : Uuid) (t : RunTable) : RunTable.Settled id t t :=
  fun run found _ => ⟨run,found,rfl,rfl,rfl⟩

theorem RunTable.Settled.trans {id : Uuid} {t u v : RunTable} (first : RunTable.Settled id t u)
    (second : RunTable.Settled id u v) : RunTable.Settled id t v := by
  intro run found ended
  obtain ⟨later,there,status,result,endedAt⟩ := first run found ended
  obtain ⟨last,kept,status',result',endedAt'⟩ := second later there (status ▸ ended)
  exact ⟨last,kept,status'.trans status,result'.trans result,endedAt'.trans endedAt⟩

theorem RunTable.Settled.status {id : Uuid} {t u : RunTable} (settled : RunTable.Settled id t u) {status : RunStatus}
    (ended : status.isTerminal = true) (before : (t.find id).map Run.status = some status) :
    (u.find id).map Run.status = some status := by
  obtain ⟨run,found,rfl⟩ := Option.map_eq_some_iff.mp before
  obtain ⟨later,there,same,_⟩ := settled run found ended
  rw [there,← same]
  rfl

theorem Stage.patch_ends {now : Int} {stage : Stage} {id : Uuid} {patch : RunPatch}
    (writes : stage.patch now = some (id,patch)) :
    (∃ status, patch.status = some status ∧ status.isTerminal = false) ∨ patch.endedAt = some now := by
  cases stage with
  | finish frame answer =>
    obtain ⟨rfl,rfl⟩ := Prod.mk.inj (Option.some.inj writes)
    cases answer <;> exact Or.inr rfl
  | settle runId tenant approved =>
    obtain ⟨rfl,rfl⟩ := Prod.mk.inj (Option.some.inj writes)
    cases approved with
    | true => exact Or.inl ⟨.running,rfl,rfl⟩
    | false => exact Or.inr rfl
  | opening runId tenant question =>
    obtain ⟨rfl,rfl⟩ := Prod.mk.inj (Option.some.inj writes)
    exact Or.inl ⟨.running,rfl,rfl⟩
  | mark job rebuilt =>
    obtain ⟨rfl,rfl⟩ := Prod.mk.inj (Option.some.inj writes)
    exact Or.inl ⟨.running,rfl,rfl⟩
  | pause request token =>
    obtain ⟨rfl,rfl⟩ := Prod.mk.inj (Option.some.inj writes)
    exact Or.inl ⟨.waitingApproval,rfl,rfl⟩
  | fail job error =>
    obtain ⟨rfl,rfl⟩ := Prod.mk.inj (Option.some.inj writes)
    exact Or.inr rfl
  | _ => cases writes

namespace System
section
variable {F : Type} {h : Host F} {id : Uuid} {system : System}

variable (id) in
def Absorbed (system next : System) : Prop := RunTable.Settled id system.shared.engine.runs next.shared.engine.runs

variable (id) in
/-- If the step writes a patch of the run, the run has not ended. -/
def Unended (system : System) (input : Nat × Move) : Prop :=
  match input.2 with
  | .step reading => ((system.locals input.1).stage.patch reading.now).map Prod.fst = some id →
      (system.shared.engine.runs.find id).all (fun run => !run.status.isTerminal) = true
  | _ => True

instance : ∀ input : Nat × Move, Decidable (Unended id system input)
  | (_,.step _) => inferInstanceAs (Decidable (_ → _))
  | (_,.begin _ _) => isTrue trivial
  | (_,.abandon) => isTrue trivial

variable (id) in
/-- The clock has moved on since the run ended. -/
def Ticking (system : System) (input : Nat × Move) : Prop :=
  match input.2 with
  | .step reading => ∀ run, system.shared.engine.runs.find id = some run → ∀ ended, run.endedAt = some ended →
      ended < reading.now
  | _ => True

theorem next_absorbed {input : Nat × Move} (unended : Unended id system input) :
    Absorbed id system (system.next h input) := by
  obtain ⟨i,move⟩ := input
  cases move with
  | begin driver call =>
    rw [Absorbed,next_shared_begin]
    exact .refl id _
  | abandon => exact .refl id _
  | step reading =>
    intro run found ended
    have written := advanceStage_runs (h := h) system.shared (system.locals i).driver reading (system.locals i).stage
    change ∃ later, (advanceStage h system.shared (system.locals i).driver reading
      (system.locals i).stage).1.engine.runs.find id = some later ∧ _
    rcases written with ⟨_,new,created⟩ | patched
    · rw [created]
      exact ⟨run,Table.find_insertIgnore_known found new,rfl,rfl,rfl⟩
    · rw [patched]
      cases site : (system.locals i).stage.patch reading.now with
      | none => exact ⟨run,found,rfl,rfl,rfl⟩
      | some pair =>
        refine ⟨run,?_,rfl,rfl,rfl⟩
        change (system.shared.engine.runs.patchRun pair.1 pair.2 reading.now).find id = some run
        rw [RunTable.find_patchRun,found]
        have other : id ≠ pair.1 := by
          rintro rfl
          have open' := unended (by rw [site]; rfl)
          simp [found,ended] at open'
        simp [other]

theorem unended_of_absorbed {input : Nat × Move} (ticking : Ticking id system input)
    (absorbed : Absorbed id system (system.next h input)) : Unended id system input := by
  obtain ⟨i,move⟩ := input
  cases move with
  | begin driver call => trivial
  | abandon => trivial
  | step reading =>
    intro site
    obtain ⟨⟨mine,patch⟩,writes,same⟩ := Option.map_eq_some_iff.mp site
    cases same
    cases found : system.shared.engine.runs.find mine with
    | none => rfl
    | some run =>
      by_contra closed
      have ended : run.status.isTerminal = true := by simpa using closed
      obtain ⟨later,there,status,_,endedAt⟩ := absorbed run found ended
      have written : (system.next h (i,.step reading)).shared.engine.runs =
          system.shared.engine.runs.patchRun mine patch reading.now := by
        rcases advanceStage_runs (h := h) system.shared (system.locals i).driver reading (system.locals i).stage with
          ⟨none,_⟩ | patched
        · rw [writes] at none
          cases none
        · rw [writes] at patched
          exact patched
      rw [written,RunTable.find_patchRun,found] at there
      have row : later = patch.apply reading.now run := by simpa using there.symm
      rcases Stage.patch_ends writes with ⟨new,marked,open'⟩ | ends
      · have reopened : later.status = new := by simp [row,RunPatch.apply,marked]
        rw [← status,reopened,open'] at ended
        cases ended
      · have moved : later.endedAt = some reading.now := by simp [row,RunPatch.apply,ends]
        exact lt_irrefl _ (ticking run found reading.now (endedAt.symm.trans moved))

variable (h id) in
/-- Whatever calls are interleaved, an ended run is left as it is if no step patches it; and, on a clock that
moves on, only then. -/
theorem terminal_absorbing (system : System) (inputs : List (Nat × Move)) :
    (Along (next h) (Unended id) system inputs → Increasing (next h) (Absorbed id) system inputs) ∧
      (Along (next h) (Ticking id) system inputs → Increasing (next h) (Absorbed id) system inputs →
        Along (next h) (Unended id) system inputs) := by
  constructor
  · intro unended
    exact unended.increasing (fun s => .refl id _) (fun s t u => .trans) (fun s input => next_absorbed)
  · intro ticking absorbed
    induction inputs generalizing system with
    | nil => trivial
    | cons input inputs ih =>
      exact ⟨unended_of_absorbed ticking.1 absorbed.head,ih (next h system input) ticking.2 absorbed.tail⟩

end

/-- A run that is driven to its answer and left alone. -/
theorem terminal_absorbing_driven :
    Increasing (next .plain) (Absorbed 1) single
      (begun 0 "a" (.agentDrive 1 4) ((List.range 11).map (fun n => .plain n ⟨n + 10⟩ "done"))) :=
  (terminal_absorbing .plain 1 single _).1 (by decide +kernel)

/-- The approval of a run that has ended still counts: resuming it a second time sets it running again. -/
def resumedTwice : List (Nat × Move) :=
  begun 0 "a" (.requestApproval 1 "default" "deploy?") ((List.range 3).map (fun n => .plain n ⟨n + 10⟩ "")) ++
    begun 0 "a" (.resolveApproval 1 "default" true) ((List.range 4).map (fun n => .plain (n + 10) ⟨n + 20⟩ "")) ++
    begun 0 "a" (.resume 1 "default") ((List.range 13).map (fun n => .plain (n + 20) ⟨n + 30⟩ "done")) ++
    begun 0 "a" (.resume 1 "default") ((List.range 4).map (fun n => .plain (n + 40) ⟨n + 50⟩ ""))

theorem resuming_reopens_ended :
    ¬ ∀ (id : Uuid) (system : System) (inputs : List (Nat × Move)), system.Quiet →
      Increasing (next .plain) (Absorbed id) system inputs := by
  intro all
  have settled := all 1 single resumedTwice single_quiet 23 28 (by decide)
  exact absurd (settled.status (show RunStatus.isTerminal .succeeded = true from rfl) (by decide +kernel))
    (by decide +kernel)

end System

end Ecphoria
