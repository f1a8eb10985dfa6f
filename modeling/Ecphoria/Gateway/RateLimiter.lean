import Mathlib.Algebra.Order.Field.Rat
import Mathlib.Data.Rat.Floor
import Ecphoria.Library.Bucket

/-! The rate limiter of the gateway, one token bucket a key, over exact rationals. The rate
of a bucket in tokens a second is its capacity too. -/
namespace Ecphoria
open Library

structure TokenBucket where
  tokens : ℚ
  lastRefill : ℚ
deriving DecidableEq,Repr

/-- A number as `as u32` reads it: its whole part, held within the type. -/
def toU32 (q : ℚ) : UInt32 := UInt32.ofNat (min ⌊q⌋.toNat (2 ^ 32 - 1))

/-- `tokens_per_sec as f64`: the rate and the capacity. -/
abbrev bucketCap (tokensPerSec : UInt32) : ℚ := tokensPerSec.toNat

/-- What `try_acquire` does to the bucket of the key. `duration_since` of a later instant is zero. -/
def TokenBucket.acquire (tokensPerSec : UInt32) (bucket : TokenBucket) (now : ℚ) : (Bool × UInt32) × TokenBucket :=
  let cap := bucketCap tokensPerSec
  let elapsed := max (now - bucket.lastRefill) 0
  let tokens := min (bucket.tokens + elapsed * cap) cap
  if 1 ≤ tokens then ((true,toU32 (tokens - 1)),⟨tokens - 1,now⟩) else ((false,0),⟨tokens,now⟩)

structure RateLimiter where
  tokensPerSec : UInt32
  buckets : String → Option TokenBucket

namespace RateLimiter

def new (tokensPerSec : UInt32) : RateLimiter := ⟨tokensPerSec,fun _ => none⟩

/-- The bucket of a key, which a first call finds full. -/
def entry (l : RateLimiter) (key : String) (now : ℚ) : TokenBucket := (l.buckets key).getD ⟨bucketCap l.tokensPerSec,now⟩

def tryAcquire (l : RateLimiter) (key : String) (now : ℚ) : (Bool × UInt32) × RateLimiter :=
  let (answer,bucket) := (l.entry key now).acquire l.tokensPerSec now
  (answer,{ l with buckets := fun other => if other = key then some bucket else l.buckets other })

end RateLimiter

structure Acquire where
  key : String
  time : ℚ
  allowed : Bool
  remaining : UInt32
deriving DecidableEq,Repr

abbrev AcquireCalls := List (String × ℚ)

namespace RateLimiter

def run (l : RateLimiter) : AcquireCalls → List Acquire
  | [] => []
  | (key,now) :: later =>
    let (answer,l) := l.tryAcquire key now
    ⟨key,now,answer.1,answer.2⟩ :: run l later

def after (l : RateLimiter) (calls : AcquireCalls) : RateLimiter :=
  calls.foldl (fun l call => (l.tryAcquire call.1 call.2).2) l

end RateLimiter

def callsOf (key : String) (calls : AcquireCalls) : AcquireCalls := calls.filter (fun call => call.1 = key)

def acquiresOf (key : String) (acquires : List Acquire) : List Acquire := acquires.filter (fun a => a.key = key)

/-- The times at which the calls of a key are allowed. -/
def allowedTimes (key : String) (acquires : List Acquire) : List ℚ :=
  ((acquiresOf key acquires).filter Acquire.allowed).map Acquire.time

def bucketRun (key : String) (tokensPerSec : UInt32) : Option TokenBucket → AcquireCalls → List Acquire
  | _,[] => []
  | bucket,(_,now) :: later =>
    let (answer,next) := (bucket.getD ⟨bucketCap tokensPerSec,now⟩).acquire tokensPerSec now
    ⟨key,now,answer.1,answer.2⟩ :: bucketRun key tokensPerSec (some next) later

namespace RateLimiter

@[simp] theorem tryAcquire_rate (l : RateLimiter) (key : String) (now : ℚ) :
    (l.tryAcquire key now).2.tokensPerSec = l.tokensPerSec := rfl

theorem tryAcquire_own (l : RateLimiter) (key : String) (now : ℚ) :
    (l.tryAcquire key now).2.buckets key = some ((l.entry key now).acquire l.tokensPerSec now).2 := if_pos rfl

theorem tryAcquire_other (l : RateLimiter) {key other : String} (now : ℚ) (different : other ≠ key) :
    (l.tryAcquire key now).2.buckets other = l.buckets other := if_neg different

theorem run_key (key : String) (calls : AcquireCalls) (l : RateLimiter) :
    acquiresOf key (l.run calls) = bucketRun key l.tokensPerSec (l.buckets key) (callsOf key calls) := by
  induction calls generalizing l with
  | nil => rfl
  | cons call later ih =>
    obtain ⟨other,now⟩ := call
    have rest := ih (l.tryAcquire other now).2
    rw [tryAcquire_rate] at rest
    by_cases own : other = key
    · subst own
      rw [tryAcquire_own] at rest
      rw [run,acquiresOf,callsOf,List.filter_cons_of_pos (by simp),List.filter_cons_of_pos (by simp),bucketRun]
      exact congrArg₂ List.cons rfl rest
    · rw [tryAcquire_other l now (Ne.symm own)] at rest
      rw [run,acquiresOf,callsOf,List.filter_cons_of_neg (by simpa using own),List.filter_cons_of_neg (by simpa using own)]
      exact rest

end RateLimiter

def TokenBucket.toBucket (bucket : TokenBucket) : Bucket ℚ := ⟨bucket.tokens,bucket.lastRefill⟩

theorem acquire_allowed (c : UInt32) (bucket : TokenBucket) (now : ℚ) :
    (bucket.acquire c now).1.1 = bucket.toBucket.grants (bucketCap c) (bucketCap c) now := by
  rw [TokenBucket.acquire,Bucket.grants]
  split
  · rename_i enough
    exact (decide_eq_true enough).symm
  · rename_i short
    exact (decide_eq_false short).symm

theorem acquire_bucket (c : UInt32) (bucket : TokenBucket) (now : ℚ) :
    (bucket.acquire c now).2.toBucket = bucket.toBucket.take (bucketCap c) (bucketCap c) now := by
  rw [Bucket.take,← acquire_allowed,TokenBucket.acquire]
  split
  · rfl
  · rfl

def startBucket (c : UInt32) (bucket : Option TokenBucket) (calls : AcquireCalls) : Bucket ℚ :=
  (bucket.map TokenBucket.toBucket).getD ⟨bucketCap c,(calls.head?.map Prod.snd).getD 0⟩

theorem bucketRun_run (key : String) (c : UInt32) (calls : AcquireCalls) (bucket : Option TokenBucket) :
    (bucketRun key c bucket calls).map (fun a => (a.time,a.allowed)) =
      (startBucket c bucket calls).run (bucketCap c) (bucketCap c) (calls.map Prod.snd) := by
  induction calls generalizing bucket with
  | nil => rfl
  | cons call later ih =>
    obtain ⟨other,now⟩ := call
    have start : startBucket c bucket ((other,now) :: later) = (bucket.getD ⟨bucketCap c,now⟩).toBucket := by
      cases bucket with
      | none => rfl
      | some bucket => rfl
    rw [bucketRun,List.map_cons,List.map_cons,Bucket.run,start,← acquire_allowed,← acquire_bucket]
    exact congrArg₂ List.cons rfl (ih _)

theorem allowedTimes_run (key : String) (calls : AcquireCalls) (l : RateLimiter) : allowedTimes key (l.run calls) =
    (startBucket l.tokensPerSec (l.buckets key) (callsOf key calls)).granted (bucketCap l.tokensPerSec) (bucketCap l.tokensPerSec)
      ((callsOf key calls).map Prod.snd) := by
  rw [Bucket.granted_eq_run,← bucketRun_run key,allowedTimes,RateLimiter.run_key,List.filter_map,List.map_map]
  rfl

structure RateLimiter.Reached (c : UInt32) (seen : AcquireCalls) (l : RateLimiter) : Prop where
  rate : l.tokensPerSec = c
  within : ∀ key bucket, l.buckets key = some bucket → bucket.toBucket.Within (bucketCap c)
  seen : ∀ key bucket, l.buckets key = some bucket → (key,bucket.lastRefill) ∈ seen

theorem startBucket_within (c : UInt32) (bucket : Option TokenBucket) (calls : AcquireCalls)
    (within : ∀ own, bucket = some own → own.toBucket.Within (bucketCap c)) :
    (startBucket c bucket calls).Within (bucketCap c) := by
  cases bucket with
  | none => exact ⟨Nat.cast_nonneg _,le_refl _⟩
  | some own => exact within own rfl

theorem acquire_since (c : UInt32) (bucket : TokenBucket) (now : ℚ) : (bucket.acquire c now).2.lastRefill = now := by
  exact congrArg Bucket.since (acquire_bucket c bucket now)

namespace RateLimiter

theorem new_reached (c : UInt32) : (new c).Reached c [] where
  rate := rfl
  within _ _ found := by cases found
  seen _ _ found := by cases found

theorem Reached.step {c : UInt32} {seen : AcquireCalls} {l : RateLimiter} (reached : l.Reached c seen) (key : String) (now : ℚ) :
    (l.tryAcquire key now).2.Reached c (seen ++ [(key,now)]) where
  rate := reached.rate
  within other bucket found := by
    by_cases own : other = key
    · subst own
      rw [tryAcquire_own,Option.some.injEq] at found
      have entry : (l.entry other now).toBucket.Within (bucketCap c) := by
        rw [RateLimiter.entry,reached.rate]
        cases held : l.buckets other with
        | none => exact ⟨Nat.cast_nonneg _,le_refl _⟩
        | some bucket => exact reached.within other bucket held
      rw [← found,reached.rate,acquire_bucket]
      exact Bucket.take_within (Nat.cast_nonneg _) entry now
    · rw [tryAcquire_other l now own] at found
      exact reached.within other bucket found
  seen other bucket found := by
    by_cases own : other = key
    · subst own
      rw [tryAcquire_own,Option.some.injEq] at found
      rw [← found,acquire_since]
      exact List.mem_append_right _ (List.mem_singleton_self _)
    · rw [tryAcquire_other l now own] at found
      exact List.mem_append_left _ (reached.seen other bucket found)

theorem Reached.after {c : UInt32} (calls : AcquireCalls) {seen : AcquireCalls} {l : RateLimiter} (reached : l.Reached c seen) :
    (l.after calls).Reached c (seen ++ calls) := by
  induction calls generalizing l seen with
  | nil => rwa [List.append_nil]
  | cons call later ih =>
    have rest := ih (reached.step call.1 call.2)
    rwa [List.append_assoc] at rest

end RateLimiter

theorem startBucket_rest {c : UInt32} {bucket : Option TokenBucket} {calls : AcquireCalls}
    (within : ∀ own, bucket = some own → own.toBucket.Within (bucketCap c))
    (rest : ∀ own, bucket = some own → ∀ call ∈ calls, own.lastRefill + 1 ≤ call.2) :
    ∀ now ∈ (calls.map Prod.snd).head?, (c.toNat : ℚ) ≤ (startBucket c bucket calls).refilled (bucketCap c) (bucketCap c) now := by
  intro now first
  have cap : (0 : ℚ) ≤ bucketCap c := Nat.cast_nonneg _
  cases held : bucket with
  | none => exact Bucket.refilled_ge cap (startBucket_within c none calls (fun _ found => by cases found)) now
  | some own =>
    obtain ⟨call,listed,rfl⟩ := List.mem_map.mp (List.mem_of_mem_head? first)
    have waited : own.toBucket.since + 1 ≤ call.2 := rest own held call listed
    have second : 1 ≤ call.2 - own.toBucket.since := by linarith
    have full : bucketCap c ≤ (call.2 - own.toBucket.since) * bucketCap c := le_mul_of_one_le_left cap second
    exact ge_of_eq (Bucket.refilled_rest own.toBucket (within own held) (by linarith) full)

/-- The limiter over every run of calls: the bound of a window, the burst after a rest, and the
independence of the keys. -/
theorem rateLimit_law (c : UInt32) (key : String) (calls : AcquireCalls) (ordered : calls.Pairwise (fun a b => a.2 ≤ b.2)) :
    (∀ start length : ℚ, 0 ≤ length →
      (((allowedTimes key ((RateLimiter.new c).run calls)).filter (fun t => start ≤ t ∧ t ≤ start + length)).length : ℚ) ≤
        c.toNat + c.toNat * length) ∧
    (∀ before after, calls = before ++ after → (∀ earlier ∈ callsOf key before, ∀ later ∈ callsOf key after, earlier.2 + 1 ≤ later.2) →
      ∀ acquire ∈ (acquiresOf key (((RateLimiter.new c).after before).run after)).take c.toNat, acquire.allowed = true) ∧
    (∀ others, callsOf key others = callsOf key calls →
      acquiresOf key ((RateLimiter.new c).run others) = acquiresOf key ((RateLimiter.new c).run calls)) := by
  refine ⟨?_,?_,?_⟩
  · intro start length positive
    have sorted : ((callsOf key calls).map Prod.snd).Pairwise (fun a b => a ≤ b) :=
      List.pairwise_map.mpr (ordered.sublist List.filter_sublist)
    have bound := Bucket.granted_window (Nat.cast_nonneg _ : (0 : ℚ) ≤ bucketCap c)
      (le_add_of_nonneg_right positive : start ≤ start + length) ((callsOf key calls).map Prod.snd) (startBucket c none (callsOf key calls))
      (startBucket_within c none (callsOf key calls) (fun _ found => by cases found)) sorted
    rw [add_sub_cancel_left,mul_comm] at bound
    rw [allowedTimes_run]
    exact bound
  · intro before after split rest acquire member
    have reached := (RateLimiter.new_reached c).after before
    rw [RateLimiter.run_key,reached.rate] at member
    have within := reached.within key
    have filled := @startBucket_rest c _ (callsOf key after) within (fun own found call listed =>
      rest (key,own.lastRefill) (List.mem_filter.mpr ⟨reached.seen key own found,decide_eq_true rfl⟩) call listed)
    have flags := Bucket.run_filled (Nat.cast_nonneg _) c.toNat _ _ (startBucket_within c _ (callsOf key after) within) filled
    rw [← bucketRun_run key,← List.map_take] at flags
    exact flags _ (List.mem_map_of_mem member)
  · intro others same
    rw [RateLimiter.run_key,RateLimiter.run_key,same]

/-- Two tokens a second, a third call at once and one more after a second. -/
def twoASecond : AcquireCalls := [("a",0),("a",0),("b",0),("a",0),("a",1)]

theorem rateLimit_two : twoASecond.Pairwise (fun a b => a.2 ≤ b.2) ∧
    ((allowedTimes "a" ((RateLimiter.new 2).run twoASecond)).filter (fun t => 0 ≤ t ∧ t ≤ 0 + 1)).length ≤ (4 : ℚ) := by
  have ordered : twoASecond.Pairwise (fun a b => a.2 ≤ b.2) := by simp [twoASecond]
  have bound := (rateLimit_law 2 "a" twoASecond ordered).1 0 1 zero_le_one
  refine ⟨ordered,bound.trans_eq ?_⟩
  rw [show UInt32.toNat 2 = 2 from rfl]
  norm_num

end Ecphoria
