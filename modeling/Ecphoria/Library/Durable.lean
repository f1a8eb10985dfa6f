import Mathlib.Logic.Basic

/-! Programs over a state whose writes may fail. A run is told which of its writes fail;
the first that does ends it. A triple has a postcondition for a run that ends and one for
a run that stops. -/
namespace Ecphoria.Library

/-- The faults say of the n-th write whether it fails; the program counts its writes. -/
def Program (σ ω ε α : Type) := (Nat → ω → Bool) → σ × Nat → Except ε α × σ × Nat

namespace Program
variable {σ ω ε α β : Type}

instance : Monad (Program σ ω ε) where
  pure a := fun _ s => (.ok a,s)
  bind m f := fun faults s =>
    match m faults s with
    | (.ok a,s) => f a faults s
    | (.error err,s) => (.error err,s)

def change (f : σ → σ) : Program σ ω ε Unit := fun _ s => (.ok (),f s.1,s.2)

def write (w : ω) (err : ε) (f : σ → σ) : Program σ ω ε Unit :=
  fun faults s => if faults s.2 w then (.error err,s.1,s.2 + 1) else (.ok (),f s.1,s.2 + 1)

def stop (err : ε) : Program σ ω ε α := fun _ s => (.error err,s)

/-- The answer of a program and the state it leaves. -/
def exec (m : Program σ ω ε α) (faults : Nat → ω → Bool) (s : σ) : Except ε α × σ :=
  let done := m faults (s,0)
  (done.1,done.2.1)

end Program

section
variable {σ ω ε α β : Type} {faults : Nat → ω → Bool} {P P' : σ → Prop} {E E' : σ → Prop}

def Triple (faults : Nat → ω → Bool) (P : σ → Prop) (m : Program σ ω ε α) (Q : α → σ → Prop) (E : σ → Prop) : Prop :=
  ∀ s n, P s →
    match m faults (s,n) with
    | (.ok a,t) => Q a t.1
    | (.error _,t) => E t.1

namespace Triple

theorem pure {Q : α → σ → Prop} {a : α} (holds : ∀ s, P s → Q a s) :
    Triple faults P (Pure.pure a : Program σ ω ε α) Q E :=
  fun s _ given => holds s given

theorem bind {m : Program σ ω ε α} {f : α → Program σ ω ε β} {R : α → σ → Prop} {Q : β → σ → Prop}
    (first : Triple faults P m R E) (second : ∀ a, Triple faults (R a) (f a) Q E) : Triple faults P (m >>= f) Q E := by
  intro s n given
  have reached := first s n given
  change match (match m faults (s,n) with | (.ok a,s) => f a faults s | (.error err,s) => (.error err,s)) with
    | (.ok a,t) => Q a t.1
    | (.error _,t) => E t.1
  split at reached
  next a t done => exact second a t.1 t.2 reached
  next err t done => exact reached

theorem change {f : σ → σ} {Q : σ → Prop} (holds : ∀ s, P s → Q (f s)) :
    Triple faults P (Program.change f : Program σ ω ε Unit) (fun _ => Q) E :=
  fun s _ given => holds s given

theorem change_then {f : σ → σ} {R : σ → Prop} {rest : Program σ ω ε α} {Q : α → σ → Prop}
    (after : Triple faults R rest Q E) : Triple faults (fun s => R (f s)) (do Program.change f; rest) Q E :=
  fun s n given => after (f s) n given

theorem write {w : ω} {err : ε} {f : σ → σ} {Q : σ → Prop} (made : ∀ s, P s → Q (f s))
    (failed : (∀ n, faults n w = false) ∨ ∀ s, P s → E s) :
    Triple faults P (Program.write w err f) (fun _ => Q) E := by
  intro s n given
  rw [Program.write]
  by_cases fault : faults n w = true
  · rw [if_pos fault]
    rcases failed with never | kept
    · rw [never n] at fault
      cases fault
    · exact kept s given
  · rw [if_neg fault]
    exact made s given

theorem write_change {w : ω} {err : ε} {f g : σ → σ} {Q : σ → Prop} (made : ∀ s, P s → Q (g (f s)))
    (failed : (∀ n, faults n w = false) ∨ ∀ s, P s → E s) :
    Triple faults P (do Program.write w err f; Program.change g) (fun _ => Q) E := by
  have wrote : Triple faults P (Program.write w err f) (fun _ s => Q (g s)) E := write made failed
  exact wrote.bind (fun _ => change (fun _ given => given))

theorem write_change_then {w : ω} {err : ε} {f g : σ → σ} {R : σ → Prop} {rest : Program σ ω ε α}
    {Q : α → σ → Prop} (made : ∀ s, P s → R (g (f s))) (failed : (∀ n, faults n w = false) ∨ ∀ s, P s → E s)
    (after : Triple faults R rest Q E) :
    Triple faults P (do Program.write w err f; Program.change g; rest) Q E := by
  have wrote : Triple faults P (Program.write w err f) (fun _ s => R (g s)) E := write made failed
  exact wrote.bind (fun _ => change_then after)

theorem stop {err : ε} {Q : α → σ → Prop} (kept : ∀ s, P s → E s) :
    Triple faults P (Program.stop err : Program σ ω ε α) Q E :=
  fun s _ given => kept s given

theorem mono {m : Program σ ω ε α} {Q Q' : α → σ → Prop} (triple : Triple faults P m Q E) (before : ∀ s, P' s → P s)
    (after : ∀ a s, Q a s → Q' a s) (stopped : ∀ s, E s → E' s) : Triple faults P' m Q' E' := by
  intro s n given
  have reached := triple s n (before s given)
  split at reached
  next a t done => exact after a t.1 reached
  next err t done => exact stopped t.1 reached

theorem exec {m : Program σ ω ε α} {Q : α → σ → Prop} (triple : Triple faults P m Q E) {s : σ} (given : P s) :
    match m.exec faults s with
    | (.ok a,t) => Q a t
    | (.error _,t) => E t := by
  have reached := triple s 0 given
  rw [Program.exec]
  split at reached
  next a t done =>
    rw [done]
    exact reached
  next err t done =>
    rw [done]
    exact reached

theorem kept {m : Program σ ω ε α} {Q : σ → Prop} (triple : Triple faults P m (fun _ => Q) Q) {s : σ} (given : P s) :
    Q (m.exec faults s).2 := by
  have reached := triple.exec given
  split at reached
  next a t done =>
    rw [done]
    exact reached
  next err t done =>
    rw [done]
    exact reached

end Triple

end

end Ecphoria.Library
