import Ecphoria.Library.Transition

/-! The outputs of a run: what is made of them, what a system that keeps books has of them, and whose they are. -/
namespace Ecphoria.Library

section
variable {σ ι ω : Type} {step : σ → ι → σ}

theorem outputs_conserved {taken given : σ → ι → List ω} {kept : σ → List ω}
    (each : ∀ s i, kept s ++ taken s i = given s i ++ kept (step s i)) (s : σ) (inputs : List ι) :
    kept s ++ outputs step taken s inputs = outputs step given s inputs ++ kept (run step s inputs) := by
  induction inputs generalizing s with
  | nil => simp [outputs]
  | cons i inputs ih =>
    rw [outputs,outputs,← List.append_assoc,each,List.append_assoc,ih,run_cons,List.append_assoc]

theorem outputs_passed {taken given : σ → ι → List ω} {kept : σ → List ω}
    (each : ∀ s i, (given s i ++ kept (step s i)).Sublist (kept s ++ taken s i)) (s : σ) (inputs : List ι) :
    (outputs step given s inputs ++ kept (run step s inputs)).Sublist (kept s ++ outputs step taken s inputs) := by
  induction inputs generalizing s with
  | nil => simp [outputs]
  | cons i inputs ih =>
    rw [outputs,outputs,run_cons,List.append_assoc,← List.append_assoc (kept s)]
    refine ((List.Sublist.refl (given s i)).append (ih (step s i))).trans ?_
    rw [← List.append_assoc]
    exact (each s i).append_right _

theorem outputs_inputs (f : ι → List ω) (s : σ) (inputs : List ι) : outputs step (fun _ i => f i) s inputs = inputs.flatMap f := by
  induction inputs generalizing s with
  | nil => rfl
  | cons i inputs ih => rw [outputs,ih,List.flatMap_cons]

theorem outputs_flatMap {υ : Type} {out : σ → ι → List ω} (f : ω → List υ) (s : σ) (inputs : List ι) :
    (outputs step out s inputs).flatMap f = outputs step (fun s i => (out s i).flatMap f) s inputs := by
  induction inputs generalizing s with
  | nil => rfl
  | cons i inputs ih => rw [outputs,outputs,List.flatMap_append,ih]

theorem outputs_map {υ : Type} {out : σ → ι → List ω} (f : ω → υ) (s : σ) (inputs : List ι) :
    (outputs step out s inputs).map f = outputs step (fun s i => (out s i).map f) s inputs := by
  induction inputs generalizing s with
  | nil => rfl
  | cons i inputs ih => rw [outputs,outputs,List.map_append,ih]

theorem outputs_filter {out : σ → ι → List ω} (p : ω → Bool) (s : σ) (inputs : List ι) :
    (outputs step out s inputs).filter p = outputs step (fun s i => (out s i).filter p) s inputs := by
  induction inputs generalizing s with
  | nil => rfl
  | cons i inputs ih => rw [outputs,outputs,List.filter_append,ih]

theorem outputs_snoc {out : σ → ι → List ω} (s : σ) (inputs : List ι) (i : ι) :
    outputs step out s (inputs ++ [i]) = outputs step out s inputs ++ out (run step s inputs) i := by
  induction inputs generalizing s with
  | nil => simp [outputs]
  | cons j inputs ih => rw [List.cons_append,outputs,outputs,ih,List.append_assoc,run_cons]

theorem outputs_sublist {out : σ → ι → List ω} {one : ι → ω} (each : ∀ s i, (out s i).Sublist [one i]) (s : σ) (inputs : List ι) :
    (outputs step out s inputs).Sublist (inputs.map one) := by
  induction inputs generalizing s with
  | nil => exact .slnil
  | cons i inputs ih => exact (each s i).append (ih (step s i))

/-- A log that each step goes on with, beside what others write, has all that a run writes, in order. -/
theorem outputs_logged {out : σ → ι → List ω} {log : σ → List ω} {Inv : σ → Prop} (kept : ∀ s i, Inv s → Inv (step s i))
    (each : ∀ s i, Inv s → (log s ++ out s i).Sublist (log (step s i))) {s : σ} (init : Inv s) (inputs : List ι) :
    (log s ++ outputs step out s inputs).Sublist (log (run step s inputs)) := by
  induction inputs generalizing s with
  | nil => simp [outputs]
  | cons i inputs ih =>
    rw [outputs,← List.append_assoc,run_cons]
    exact ((each s i init).append_right _).trans (ih (kept s i init))

theorem outputs_counted {υ : Type} {out : σ → ι → List ω} {offered : σ → ι → List υ} {count : σ → Nat}
    (each : ∀ s i, count (step s i) + (out s i).length = count s + (offered s i).length) (s : σ) (inputs : List ι) :
    count (run step s inputs) + (outputs step out s inputs).length = count s + (outputs step offered s inputs).length := by
  induction inputs generalizing s with
  | nil => rfl
  | cons i inputs ih =>
    rw [outputs,outputs,List.length_append,List.length_append,run_cons]
    have rest := ih (step s i)
    have here := each s i
    omega

/-- What a system has and what it has given out are, up to their order, what it had and what was offered to it. -/
theorem outputs_permuted {out offered : σ → ι → List ω} {kept : σ → List ω}
    (each : ∀ s i, (kept (step s i) ++ out s i).Perm (kept s ++ offered s i)) (s : σ) (inputs : List ι) :
    (kept (run step s inputs) ++ outputs step out s inputs).Perm (kept s ++ outputs step offered s inputs) := by
  induction inputs generalizing s with
  | nil => exact .refl _
  | cons i inputs ih =>
    rw [outputs,outputs,run_cons,← List.append_assoc (kept s)]
    refine ((List.Perm.append_left _ List.perm_append_comm).trans ?_).trans ((each s i).append_right _)
    rw [← List.append_assoc]
    refine ((ih (step s i)).append_right _).trans ?_
    rw [List.append_assoc,List.append_assoc]
    exact List.Perm.append_left _ List.perm_append_comm

theorem outputs_filtered {τ : Type} {step' : τ → ι → τ} {out : σ → ι → List ω} {out' : τ → ι → List ω} {own : ι → Bool}
    {R : σ → τ → Prop} {inputs : List ι}
    (others : ∀ i ∈ inputs, own i = false → ∀ s t, R s t → out s i = [] ∧ R (step s i) t)
    (owned : ∀ i ∈ inputs, own i = true → ∀ s t, R s t → out s i = out' t i ∧ R (step s i) (step' t i)) {s : σ} {t : τ}
    (init : R s t) : outputs step out s inputs = outputs step' out' t (inputs.filter own) := by
  induction inputs generalizing s t with
  | nil => rfl
  | cons i inputs ih =>
    have rest {s : σ} {t : τ} (related : R s t) : outputs step out s inputs = outputs step' out' t (inputs.filter own) :=
      ih (fun j inside => others j (List.mem_cons_of_mem i inside)) (fun j inside => owned j (List.mem_cons_of_mem i inside))
        related
    cases mine : own i with
    | true =>
      obtain ⟨same,related⟩ := owned i List.mem_cons_self mine s t init
      rw [List.filter_cons_of_pos mine,outputs,outputs,same,rest related]
    | false =>
      obtain ⟨silent,related⟩ := others i List.mem_cons_self mine s t init
      rw [List.filter_cons_of_neg (by simp [mine]),outputs,silent,rest related]
      rfl

end

end Ecphoria.Library
