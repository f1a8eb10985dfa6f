import Mathlib.Algebra.Order.Field.Basic
import Mathlib.Tactic.Linarith

/-! Token buckets over an ordered field. A bucket gains `rate` a unit of time up to its
capacity and gives one token a call. What it gives in a window is bounded by its capacity
and what it gains in the window. -/
namespace Ecphoria.Library

structure Bucket (K : Type) where
  level : K
  since : K

namespace Bucket
variable {K : Type} [Field K] [LinearOrder K] {rate capacity : K}

def refilled (rate capacity : K) (b : Bucket K) (now : K) : K :=
  min (b.level + max (now - b.since) 0 * rate) capacity

def grants (rate capacity : K) (b : Bucket K) (now : K) : Bool := 1 ≤ b.refilled rate capacity now

def take (rate capacity : K) (b : Bucket K) (now : K) : Bucket K :=
  ⟨if b.grants rate capacity now then b.refilled rate capacity now - 1 else b.refilled rate capacity now,now⟩

def run (rate capacity : K) (b : Bucket K) : List K → List (K × Bool)
  | [] => []
  | now :: later => (now,b.grants rate capacity now) :: run rate capacity (b.take rate capacity now) later

def granted (rate capacity : K) (b : Bucket K) : List K → List K
  | [] => []
  | now :: later =>
    if b.grants rate capacity now then now :: granted rate capacity (b.take rate capacity now) later
    else granted rate capacity (b.take rate capacity now) later

structure Within (capacity : K) (b : Bucket K) : Prop where
  nonneg : 0 ≤ b.level
  full : b.level ≤ capacity

theorem grants_iff {b : Bucket K} {now : K} : b.grants rate capacity now = true ↔ 1 ≤ b.refilled rate capacity now :=
  decide_eq_true_iff

@[simp] theorem take_since (b : Bucket K) (now : K) : (b.take rate capacity now).since = now := rfl

theorem refilled_le (b : Bucket K) (now : K) : b.refilled rate capacity now ≤ capacity := min_le_right _ _

theorem run_times (b : Bucket K) (times : List K) : (b.run rate capacity times).map Prod.fst = times := by
  induction times generalizing b with
  | nil => rfl
  | cons now later ih => rw [run,List.map_cons,ih]

theorem granted_eq_run (b : Bucket K) (times : List K) :
    b.granted rate capacity times = ((b.run rate capacity times).filter Prod.snd).map Prod.fst := by
  induction times generalizing b with
  | nil => rfl
  | cons now later ih =>
    rw [granted,run,List.filter_cons]
    split
    · rw [List.map_cons,ih]
    · exact ih _

theorem granted_mem {b : Bucket K} {times : List K} {t : K} (member : t ∈ b.granted rate capacity times) : t ∈ times := by
  rw [granted_eq_run] at member
  obtain ⟨call,listed,rfl⟩ := List.mem_map.mp member
  rw [← run_times b times]
  exact List.mem_map_of_mem (List.mem_filter.mp listed).1

theorem granted_credited (b : Bucket K) (now : K) (later : List K) :
    Bucket.granted rate capacity ⟨b.refilled rate capacity now,now⟩ (now :: later) = b.granted rate capacity (now :: later) := by
  have same : Bucket.refilled rate capacity ⟨b.refilled rate capacity now,now⟩ now = b.refilled rate capacity now := by
    rw [refilled,sub_self,max_self,zero_mul,add_zero]
    exact min_eq_left (refilled_le b now)
  have given : Bucket.grants rate capacity ⟨b.refilled rate capacity now,now⟩ now = b.grants rate capacity now := by
    rw [grants,grants,same]
  have left : Bucket.take rate capacity ⟨b.refilled rate capacity now,now⟩ now = b.take rate capacity now := by
    rw [take,take,given,same]
  rw [granted,granted,given,left]

variable [IsStrictOrderedRing K]

theorem refilled_nonneg (rate_nonneg : 0 ≤ rate) {b : Bucket K} (within : Within capacity b) (now : K) :
    0 ≤ b.refilled rate capacity now := by
  have gain : 0 ≤ max (now - b.since) 0 * rate := mul_nonneg (le_max_right _ _) rate_nonneg
  exact le_min (add_nonneg within.nonneg gain) (within.nonneg.trans within.full)

theorem refilled_ge (rate_nonneg : 0 ≤ rate) {b : Bucket K} (within : Within capacity b) (now : K) :
    b.level ≤ b.refilled rate capacity now := by
  have gain : 0 ≤ max (now - b.since) 0 * rate := mul_nonneg (le_max_right _ _) rate_nonneg
  exact le_min (le_add_of_nonneg_right gain) within.full

theorem refilled_gain {b : Bucket K} {now : K} (later : b.since ≤ now) :
    b.refilled rate capacity now ≤ b.level + (now - b.since) * rate := by
  rw [refilled,max_eq_left (sub_nonneg.mpr later)]
  exact min_le_left _ _

theorem take_within (rate_nonneg : 0 ≤ rate) {b : Bucket K} (within : Within capacity b) (now : K) :
    Within capacity (b.take rate capacity now) := by
  have low := refilled_nonneg rate_nonneg within now
  have high : b.refilled rate capacity now ≤ capacity := refilled_le b now
  by_cases given : b.grants rate capacity now = true
  · have one := grants_iff.mp given
    constructor
    · simp only [take,if_pos given]
      linarith
    · simp only [take,if_pos given]
      linarith
  · constructor
    · simpa only [take,if_neg given] using low
    · simpa only [take,if_neg given] using high

theorem granted_until (rate_nonneg : 0 ≤ rate) (stop : K) (times : List K) (b : Bucket K) (within : Within capacity b)
    (ordered : times.Pairwise (fun a b => a ≤ b)) (after : ∀ t ∈ times, b.since ≤ t) (reached : b.since ≤ stop) :
    (((b.granted rate capacity times).filter (fun t => t ≤ stop)).length : K) ≤ b.level + (stop - b.since) * rate := by
  induction times generalizing b with
  | nil =>
    have gain : 0 ≤ (stop - b.since) * rate := mul_nonneg (sub_nonneg.mpr reached) rate_nonneg
    simpa [granted] using add_nonneg within.nonneg gain
  | cons now later ih =>
    obtain ⟨first,rest⟩ := List.pairwise_cons.mp ordered
    have gain : b.refilled rate capacity now ≤ b.level + (now - b.since) * rate := refilled_gain (after now List.mem_cons_self)
    by_cases early : now ≤ stop
    · have bound := ih (b.take rate capacity now) (take_within rate_nonneg within now) rest first early
      have level : (b.take rate capacity now).level = if b.grants rate capacity now then b.refilled rate capacity now - 1
        else b.refilled rate capacity now := rfl
      rw [level,take_since] at bound
      rw [granted]
      split at bound
      · rename_i given
        rw [if_pos given,List.filter_cons,if_pos (decide_eq_true early),List.length_cons,Nat.cast_succ]
        linarith
      · rename_i refused
        rw [if_neg refused]
        linarith
    · have none : (b.granted rate capacity (now :: later)).filter (fun t => t ≤ stop) = [] := by
        rw [List.filter_eq_nil_iff]
        intro t member
        rw [decide_eq_true_iff,not_le]
        rcases List.mem_cons.mp (granted_mem member) with rfl | behind
        · exact not_le.mp early
        · exact (not_le.mp early).trans_le (first t behind)
      have gain : 0 ≤ (stop - b.since) * rate := mul_nonneg (sub_nonneg.mpr reached) rate_nonneg
      rw [none,List.length_nil,Nat.cast_zero]
      exact add_nonneg within.nonneg gain

theorem granted_window (rate_nonneg : 0 ≤ rate) {start stop : K} (window : start ≤ stop) (times : List K) (b : Bucket K)
    (within : Within capacity b) (ordered : times.Pairwise (fun a b => a ≤ b)) :
    (((b.granted rate capacity times).filter (fun t => start ≤ t ∧ t ≤ stop)).length : K) ≤ capacity + (stop - start) * rate := by
  have span : 0 ≤ (stop - start) * rate := mul_nonneg (sub_nonneg.mpr window) rate_nonneg
  have room : 0 ≤ capacity := within.nonneg.trans within.full
  induction times generalizing b with
  | nil => simpa [granted] using add_nonneg room span
  | cons now later ih =>
    obtain ⟨first,rest⟩ := List.pairwise_cons.mp ordered
    by_cases early : now < start
    · have outside : ¬(start ≤ now ∧ now ≤ stop) := fun inside => absurd early (not_lt.mpr inside.1)
      have bound := ih (b.take rate capacity now) (take_within rate_nonneg within now) rest
      rw [granted]
      split
      · rwa [List.filter_cons,if_neg (by rwa [decide_eq_true_iff])]
      · exact bound
    · have begun := not_lt.mp early
      have past : ∀ t ∈ now :: later, now ≤ t := List.forall_mem_cons.mpr ⟨le_refl now,first⟩
      -- every call that is given is in the window, unless it is after its end
      have same : (b.granted rate capacity (now :: later)).filter (fun t => start ≤ t ∧ t ≤ stop) =
          (b.granted rate capacity (now :: later)).filter (fun t => t ≤ stop) := by
        refine List.filter_congr (fun t member => ?_)
        rw [decide_eq_decide]
        exact and_iff_right (begun.trans (past t (granted_mem member)))
      rw [same]
      by_cases ended : now ≤ stop
      · have bound := granted_until rate_nonneg stop (now :: later) ⟨b.refilled rate capacity now,now⟩
          (⟨refilled_nonneg rate_nonneg within now,refilled_le b now⟩ : Within capacity _) ordered past ended
        rw [granted_credited] at bound
        have shorter : (stop - now) * rate ≤ (stop - start) * rate :=
          mul_le_mul_of_nonneg_right (sub_le_sub_left begun stop) rate_nonneg
        exact bound.trans (add_le_add (refilled_le b now) shorter)
      · have none : (b.granted rate capacity (now :: later)).filter (fun t => t ≤ stop) = [] := by
          refine List.filter_eq_nil_iff.mpr (fun t member => ?_)
          rw [decide_eq_true_iff,not_le]
          exact (not_le.mp ended).trans_le (past t (granted_mem member))
        rw [none,List.length_nil,Nat.cast_zero]
        exact add_nonneg room span

theorem run_filled (rate_nonneg : 0 ≤ rate) (n : Nat) (times : List K) (b : Bucket K) (within : Within capacity b)
    (filled : ∀ now ∈ times.head?, (n : K) ≤ b.refilled rate capacity now) :
    ∀ call ∈ (b.run rate capacity times).take n, call.2 = true := by
  induction n generalizing times b with
  | zero =>
    intro call member
    rw [List.take_zero] at member
    cases member
  | succ n ih =>
    cases times with
    | nil =>
      intro call member
      rw [run,List.take_nil] at member
      cases member
    | cons now later =>
      have level := filled now rfl
      rw [Nat.cast_succ] at level
      have given : b.grants rate capacity now = true :=
        grants_iff.mpr ((le_add_of_nonneg_left (Nat.cast_nonneg n)).trans level)
      have left : (b.take rate capacity now).level = b.refilled rate capacity now - 1 := by
        simp only [take,if_pos given]
      have within := take_within rate_nonneg within now
      intro call member
      rw [run,List.take_succ_cons] at member
      rcases List.mem_cons.mp member with rfl | behind
      · exact given
      · refine ih later _ within (fun next _ => ?_) call behind
        have kept := refilled_ge rate_nonneg within next
        rw [left] at kept
        linarith

theorem refilled_rest (b : Bucket K) (within : Within capacity b) {now : K} (rest : b.since ≤ now)
    (long : capacity ≤ (now - b.since) * rate) : b.refilled rate capacity now = capacity := by
  rw [refilled,max_eq_left (sub_nonneg.mpr rest)]
  exact min_eq_right (long.trans (le_add_of_nonneg_left within.nonneg))

end Bucket

end Ecphoria.Library
