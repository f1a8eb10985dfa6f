import Mathlib.Data.List.Basic
import Mathlib.Logic.Function.Basic

/-! Runs of a deterministic system: a step function folded over its inputs, a guard
that every step of a run meets in the state it starts from, and the induction
rules that carry an invariant, or a relation between two systems, along a run. In a
system of processes over a shared state, a step is one process moving on. -/
namespace Ecphoria.Library

section
variable {σ τ ι ω : Type} {step : σ → ι → σ} {ok : σ → ι → Prop}

def run (step : σ → ι → σ) (s : σ) (inputs : List ι) : σ := inputs.foldl step s

@[simp] theorem run_nil (s : σ) : run step s [] = s := rfl

@[simp] theorem run_cons (s : σ) (i : ι) (inputs : List ι) :
    run step s (i :: inputs) = run step (step s i) inputs := rfl

theorem run_append (s : σ) (first second : List ι) :
    run step s (first ++ second) = run step (run step s first) second := List.foldl_append

/-- Every step of the run meets the guard in the state it starts from. -/
def Along (step : σ → ι → σ) (ok : σ → ι → Prop) : σ → List ι → Prop
  | _,[] => True
  | s,i :: inputs => ok s i ∧ Along step ok (step s i) inputs

instance decidableAlong [∀ s i, Decidable (ok s i)] : ∀ s inputs, Decidable (Along step ok s inputs)
  | _,[] => isTrue trivial
  | s,i :: inputs => @instDecidableAnd _ _ (inferInstance) (decidableAlong (step s i) inputs)

/-- The property holds in every state of the run. -/
def Throughout (step : σ → ι → σ) (P : σ → Prop) (s : σ) (inputs : List ι) : Prop :=
  ∀ n, P (run step s (inputs.take n))

theorem Throughout.head {P : σ → Prop} {s : σ} {inputs : List ι} (all : Throughout step P s inputs) : P s := all 0

theorem Throughout.tail {P : σ → Prop} {s : σ} {i : ι} {inputs : List ι} (all : Throughout step P s (i :: inputs)) :
    Throughout step P (step s i) inputs :=
  fun n => all (n + 1)

theorem Along.take {s : σ} {inputs : List ι} (along : Along step ok s inputs) (n : Nat) :
    Along step ok s (inputs.take n) := by
  induction inputs generalizing s n with
  | nil => simpa using along
  | cons i inputs ih =>
    cases n with
    | zero => trivial
    | succ n => exact ⟨along.1,ih along.2 n⟩

theorem Along.drop {s : σ} {first second : List ι} (along : Along step ok s (first ++ second)) :
    Along step ok (run step s first) second := by
  induction first generalizing s with
  | nil => exact along
  | cons i first ih => exact ih along.2

theorem Along.of_forall {p : ι → Prop} {s : σ} {inputs : List ι} (all : ∀ i ∈ inputs, p i) :
    Along step (fun _ i => p i) s inputs := by
  induction inputs generalizing s with
  | nil => trivial
  | cons i inputs ih => exact ⟨all i (by simp),ih (fun j inside => all j (List.mem_cons_of_mem i inside))⟩

theorem Along.invariant {Inv : σ → Prop} {s : σ} {inputs : List ι} (along : Along step ok s inputs)
    (init : Inv s) (preserved : ∀ s i, Inv s → ok s i → Inv (step s i)) : Inv (run step s inputs) := by
  induction inputs generalizing s with
  | nil => exact init
  | cons i inputs ih => exact ih along.2 (preserved s i init along.1)

theorem Along.throughout {Inv : σ → Prop} {s : σ} {inputs : List ι} (along : Along step ok s inputs)
    (init : Inv s) (preserved : ∀ s i, Inv s → ok s i → Inv (step s i)) :
    Throughout step Inv s inputs :=
  fun n => (along.take n).invariant init preserved

/-- Where each guarded step keeps the property exactly when it meets a condition, a run keeps it throughout
exactly when every step does. -/
theorem Along.throughout_iff {keeps : σ → ι → Prop} {P : σ → Prop} (Inv : σ → Prop) {s : σ} {inputs : List ι}
    (along : Along step ok s inputs) (init : Inv s) (start : P s)
    (each : ∀ s i, Inv s → P s → ok s i → Inv (step s i) ∧ (P (step s i) ↔ keeps s i)) :
    Throughout step P s inputs ↔ Along step keeps s inputs := by
  induction inputs generalizing s with
  | nil => exact iff_of_true (fun n => by simpa using start) trivial
  | cons i inputs ih =>
    obtain ⟨inv,kept⟩ := each s i init start along.1
    constructor
    · intro all
      exact ⟨kept.mp all.tail.head,(ih along.2 inv all.tail.head).mp all.tail⟩
    · intro given n
      have after := kept.mpr given.1
      cases n with
      | zero => exact start
      | succ n => exact (ih along.2 inv after).mpr given.2 n

theorem along_and {ok' : σ → ι → Prop} {s : σ} {inputs : List ι} :
    Along step (fun s i => ok s i ∧ ok' s i) s inputs ↔ Along step ok s inputs ∧ Along step ok' s inputs := by
  induction inputs generalizing s with
  | nil => simp [Along]
  | cons i inputs ih =>
    simp only [Along,ih]
    constructor
    · intro given
      exact ⟨⟨given.1.1,given.2.1⟩,given.1.2,given.2.2⟩
    · intro given
      exact ⟨⟨given.1.1,given.2.1⟩,given.1.2,given.2.2⟩

theorem Along.and {ok' : σ → ι → Prop} {s : σ} {inputs : List ι} (first : Along step ok s inputs)
    (second : Along step ok' s inputs) : Along step (fun s i => ok s i ∧ ok' s i) s inputs :=
  along_and.mpr ⟨first,second⟩

theorem throughout_iff_along {P : σ → Prop} {s : σ} {inputs : List ι} (start : P s) :
    Throughout step P s inputs ↔ Along step (fun s i => P (step s i)) s inputs := by
  induction inputs generalizing s with
  | nil => exact iff_of_true (fun n => by simpa using start) trivial
  | cons i inputs ih =>
    constructor
    · intro all
      exact ⟨all.tail.head,(ih all.tail.head).mp all.tail⟩
    · intro given n
      cases n with
      | zero => exact start
      | succ n => exact (ih given.1).mpr given.2 n

theorem along_congr {ok' : σ → ι → Prop} (Inv : σ → Prop) {s : σ} {inputs : List ι} (init : Inv s)
    (each : ∀ s i, Inv s → (ok s i ↔ ok' s i)) (kept : ∀ s i, Inv s → ok s i → Inv (step s i)) :
    Along step ok s inputs ↔ Along step ok' s inputs := by
  induction inputs generalizing s with
  | nil => exact Iff.rfl
  | cons i inputs ih =>
    constructor
    · intro given
      exact ⟨(each s i init).mp given.1,(ih (kept s i init given.1)).mp given.2⟩
    · intro given
      have first := (each s i init).mpr given.1
      exact ⟨first,(ih (kept s i init first)).mpr given.2⟩

theorem Along.imp {ok' : σ → ι → Prop} {Inv : σ → Prop} {s : σ} {inputs : List ι} (along : Along step ok s inputs)
    (init : Inv s) (preserved : ∀ s i, Inv s → ok s i → Inv (step s i)) (holds : ∀ s i, Inv s → ok s i → ok' s i) :
    Along step ok' s inputs := by
  induction inputs generalizing s with
  | nil => trivial
  | cons i inputs ih => exact ⟨holds s i init along.1,ih along.2 (preserved s i init along.1)⟩

theorem Along.related {step' : τ → ι → τ} {R : σ → τ → Prop} {s : σ} {t : τ} {inputs : List ι}
    (along : Along step ok s inputs) (init : R s t)
    (preserved : ∀ s t i, R s t → ok s i → R (step s i) (step' t i)) :
    R (run step s inputs) (run step' t inputs) := by
  induction inputs generalizing s t with
  | nil => exact init
  | cons i inputs ih => exact ih along.2 (preserved s t i init along.1)

/-- Each state of the run is related to all later ones. -/
def Increasing (step : σ → ι → σ) (R : σ → σ → Prop) (s : σ) (inputs : List ι) : Prop :=
  ∀ m n, m ≤ n → R (run step s (inputs.take m)) (run step s (inputs.take n))

theorem Increasing.head {R : σ → σ → Prop} {s : σ} {i : ι} {inputs : List ι} (all : Increasing step R s (i :: inputs)) :
    R s (step s i) := by
  simpa using all 0 1 (Nat.zero_le 1)

theorem Increasing.tail {R : σ → σ → Prop} {s : σ} {i : ι} {inputs : List ι} (all : Increasing step R s (i :: inputs)) :
    Increasing step R (step s i) inputs :=
  fun m n le => all (m + 1) (n + 1) (Nat.succ_le_succ le)

theorem Along.increasing {R : σ → σ → Prop} {s : σ} {inputs : List ι} (along : Along step ok s inputs)
    (refl : ∀ s, R s s) (trans : ∀ s t u, R s t → R t u → R s u) (each : ∀ s i, ok s i → R s (step s i)) :
    Increasing step R s inputs := by
  have reached {s : σ} {inputs : List ι} (along : Along step ok s inputs) : R s (run step s inputs) := by
    induction inputs generalizing s with
    | nil => exact refl s
    | cons i inputs ih => exact trans _ _ _ (each s i along.1) (ih along.2)
  intro m n le
  have split : inputs.take n = inputs.take m ++ (inputs.take n).drop m := by
    conv_lhs => rw [← List.take_append_drop m (inputs.take n)]
    rw [List.take_take,Nat.min_eq_left le]
  have rest : Along step ok (run step s (inputs.take m)) ((inputs.take n).drop m) := by
    refine Along.drop ?_
    rw [← split]
    exact along.take n
  rw [split,run_append]
  exact reached rest

def outputs (step : σ → ι → σ) (out : σ → ι → List ω) : σ → List ι → List ω
  | _,[] => []
  | s,i :: inputs => out s i ++ outputs step out (step s i) inputs

theorem outputs_related {step' : τ → ι → τ} {out : σ → ι → List ω} {out' : τ → ι → List ω} {R : σ → τ → Prop}
    {s : σ} {t : τ} (init : R s t) (preserved : ∀ s t i, R s t → R (step s i) (step' t i))
    (same : ∀ s t i, R s t → out s i = out' t i) (inputs : List ι) :
    outputs step out s inputs = outputs step' out' t inputs := by
  induction inputs generalizing s t with
  | nil => rfl
  | cons i inputs ih => rw [outputs,outputs,same s t i init,ih (preserved s t i init)]

theorem forall_mem_outputs {out : σ → ι → List ω} {Inv : σ → Prop} {P : ω → Prop} {s : σ} (init : Inv s)
    (preserved : ∀ s i, Inv s → Inv (step s i)) (each : ∀ s i, Inv s → ∀ o ∈ out s i, P o) (inputs : List ι) :
    ∀ o ∈ outputs step out s inputs, P o := by
  induction inputs generalizing s with
  | nil => simp [outputs]
  | cons i inputs ih =>
    intro o inside
    rcases List.mem_append.mp inside with first | later
    · exact each s i init o first
    · exact ih (preserved s i init) o later

end

structure Processes (σ τ : Type) where
  shared : σ
  locals : Nat → τ

namespace Processes
variable {σ τ ι : Type} (advance : σ → τ → ι → σ × τ)

def step (p : Processes σ τ) (input : Nat × ι) : Processes σ τ :=
  let moved := advance p.shared (p.locals input.1) input.2
  ⟨moved.1,Function.update p.locals input.1 moved.2⟩

@[simp] theorem step_shared (p : Processes σ τ) (input : Nat × ι) :
    (p.step advance input).shared = (advance p.shared (p.locals input.1) input.2).1 := rfl

theorem step_locals (p : Processes σ τ) (input : Nat × ι) (j : Nat) :
    (p.step advance input).locals j =
      if j = input.1 then (advance p.shared (p.locals input.1) input.2).2 else p.locals j :=
  Function.update_apply _ _ _ _

@[simp] theorem step_self (p : Processes σ τ) (input : Nat × ι) :
    (p.step advance input).locals input.1 = (advance p.shared (p.locals input.1) input.2).2 := by
  rw [step_locals,if_pos rfl]

theorem step_other (p : Processes σ τ) {input : Nat × ι} {j : Nat} (other : j ≠ input.1) :
    (p.step advance input).locals j = p.locals j := by
  rw [step_locals,if_neg other]

end Processes

end Ecphoria.Library
