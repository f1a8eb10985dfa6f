import Ecphoria.Library.Outputs
import Mathlib.Data.List.Induction

/-! A cache whose entries know when they were stored. What it holds is told from the log of what was stored. -/
namespace Ecphoria.Library

abbrev Stamped (κ ν : Type) := κ → Option (ν × Int)

def latest {κ ν : Type} [DecidableEq κ] (log : List (κ × ν × Int)) (k : κ) : Option (ν × Int) :=
  ((log.filter (fun entry => entry.1 = k)).getLast?).map Prod.snd

namespace Stamped
variable {κ ν : Type} [DecidableEq κ]

def store (c : Stamped κ ν) (entry : κ × ν × Int) : Stamped κ ν := fun k => if k = entry.1 then some entry.2 else c k

def storeAll (c : Stamped κ ν) (entries : List (κ × ν × Int)) : Stamped κ ν := entries.foldl store c

/-- The value of a key that was stored less than so long ago. -/
def fresh (c : Stamped κ ν) (ttl : Nat) (k : κ) (now : Int) : Option ν :=
  (c k).bind (fun entry => if (now - entry.2).toNat < ttl then some entry.1 else none)

def value (c : Stamped κ ν) (k : κ) : Option ν := (c k).map Prod.fst

end Stamped

section
variable {κ ν : Type} [DecidableEq κ]

theorem storeAll_append (c : Stamped κ ν) (first second : List (κ × ν × Int)) :
    c.storeAll (first ++ second) = (c.storeAll first).storeAll second := List.foldl_append

theorem latest_snoc (log : List (κ × ν × Int)) (entry : κ × ν × Int) (k : κ) :
    latest (log ++ [entry]) k = if k = entry.1 then some entry.2 else latest log k := by
  unfold latest
  rw [List.filter_append]
  split
  next same => simp [same]
  next other => simp [Ne.symm other]

theorem latest_mem {log : List (κ × ν × Int)} {k : κ} {entry : ν × Int} (last : latest log k = some entry) : (k,entry) ∈ log := by
  obtain ⟨found,is,rfl⟩ := Option.map_eq_some_iff.mp last
  obtain ⟨inside,same⟩ := List.mem_filter.mp (List.mem_of_getLast? is)
  have one : found.1 = k := of_decide_eq_true same
  exact one ▸ inside

theorem latest_isSome {log : List (κ × ν × Int)} {k : κ} : (latest log k).isSome = true ↔ ∃ entry,(k,entry) ∈ log := by
  constructor
  · intro some
    obtain ⟨entry,last⟩ := Option.isSome_iff_exists.mp some
    exact ⟨entry,latest_mem last⟩
  · rintro ⟨entry,inside⟩
    rw [latest,Option.isSome_map,List.getLast?_isSome]
    exact List.ne_nil_of_mem (List.mem_filter.mpr ⟨inside,decide_eq_true rfl⟩)

theorem storeAll_latest (log : List (κ × ν × Int)) : Stamped.storeAll (fun _ => none) log = latest log := by
  induction log using List.reverseRecOn with
  | nil => rfl
  | append_singleton log entry ih =>
    rw [storeAll_append,ih]
    exact funext fun k => (latest_snoc log entry k).symm

theorem cache_latest {σ ι : Type} {step : σ → ι → σ} {cache : σ → Stamped κ ν} {stores : σ → ι → List (κ × ν × Int)}
    (each : ∀ s i, cache (step s i) = (cache s).storeAll (stores s i)) {start : σ} (empty : cache start = fun _ => none)
    (inputs : List ι) : cache (run step start inputs) = latest (outputs step stores start inputs) := by
  rw [← storeAll_latest]
  induction inputs using List.reverseRecOn with
  | nil => exact empty
  | append_singleton inputs i ih =>
    rw [run_append,outputs_snoc,storeAll_append,← ih]
    exact each _ i

theorem fresh_latest {log : List (κ × ν × Int)} {ttl : Nat} {k : κ} {now : Int} {v : ν} :
    Stamped.fresh (latest log) ttl k now = some v ↔ ∃ stored,latest log k = some (v,stored) ∧ (now - stored).toNat < ttl := by
  unfold Stamped.fresh
  cases last : latest log k with
  | none => simp
  | some entry =>
    obtain ⟨held,stored⟩ := entry
    simp only [Option.bind_some,Option.some_inj,Prod.mk.injEq]
    split
    next young => exact ⟨fun same => ⟨stored,⟨Option.some_inj.mp same,rfl⟩,young⟩,fun ⟨_,⟨same,_⟩,_⟩ => congrArg some same⟩
    next old =>
      refine ⟨nofun,?_⟩
      rintro ⟨_,⟨_,rfl⟩,young⟩
      exact absurd young old

end

end Ecphoria.Library
