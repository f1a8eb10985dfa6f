import Ecphoria.Library.Transition
import Ecphoria.Memory.StateStore

/-! Times to live. What a key should answer is what was last written to it, as long as
that has not expired; the store answers so as long as no plain write inherits an expiry
and no expired value is read before its row is gone. -/
namespace Ecphoria
open Library

structure StateWrite where
  value : Json
  expiresAt : Option Nat

/-- The store, the latest successful write of each key, and the time of the last call. -/
structure StateHistory where
  store : StateStore
  latest : String × String → Option StateWrite
  clock : Nat

def StateHistory.new : StateHistory := ⟨.opened .empty,fun _ => none,0⟩

def StateCall.record (now : Nat) (answer : StateAnswer) (latest : String × String → Option StateWrite) :
    StateCall → String × String → Option StateWrite
  | .get _ _ | .cleanupExpired => latest
  | .set agentId key value => Function.update latest (agentId,key) (some ⟨value,none⟩)
  | .setWithTtl agentId key value ttl =>
    match answer with
    | .version _ => Function.update latest (agentId,key) (some ⟨value,some (now + ttl)⟩)
    | _ => latest
  | .compareAndSwap agentId key _ value =>
    match answer with
    | .swapped true => Function.update latest (agentId,key) (some ⟨value,none⟩)
    | _ => latest
  | .delete agentId key => Function.update latest (agentId,key) none
  | .deleteByPrefix before => fun primary =>
    if like (some '\\') (StateTable.prefixPattern before) primary.1 then none else latest primary

def StateHistory.step (s : StateHistory) (input : Nat × StateCall) : StateHistory :=
  let done := s.store.call input.1 input.2
  ⟨done.2.1,input.2.record input.1 done.1 s.latest,input.1⟩

/-- What the law lets a key answer at this time. -/
def StateWrite.answer (now : Nat) (latest : Option StateWrite) : Option Json :=
  (latest.filter (fun write => write.expiresAt.all (now < ·))).map StateWrite.value

def StateAnswer.value : StateAnswer → Option Json
  | .entry found => found.map StateEntry.value
  | _ => none

/-- A read answers with the latest write, if it has not expired. -/
def StateHistory.Lawful (s : StateHistory) (input : Nat × StateCall) : Prop :=
  match input.2 with
  | .get agentId key =>
    (s.store.call input.1 (.get agentId key)).1.value = StateWrite.answer input.1 (s.latest (agentId,key))
  | _ => True

def StateHistory.lasting (s : StateHistory) (primary : String × String) : Bool :=
  (s.store.table.find primary).all (fun row => row.expiresAt.isNone)

/-- The clock does not go back, a plain write meets no expiry to inherit, an expiry falls before the year 10000 or
the call panics, and a row past its expiry is read only on a later day, with nothing in the cache. -/
def StateHistory.WellTimed (s : StateHistory) (input : Nat × StateCall) : Prop :=
  s.clock ≤ input.1 ∧
    match input.2 with
    | .get agentId key => (s.store.table.find (agentId,key)).all (fun row => row.expiresAt.all (fun instant =>
        input.1 < instant.toNat || (s.store.cache (agentId,key)).isNone && dayOf instant.toNat < dayOf input.1)) = true
    | .set agentId key _ => s.lasting (agentId,key) = true
    | .setWithTtl _ _ _ ttl => expiryOf input.1 ttl = none ∨ (dateOf (dayOf (input.1 + ttl))).year < 10000
    | .compareAndSwap agentId key expected _ =>
      s.store.table.swappable (agentId,key) expected = true → s.lasting (agentId,key) = true
    | .delete _ _ | .cleanupExpired | .deleteByPrefix _ => True

instance (s : StateHistory) : ∀ input : Nat × StateCall, Decidable (s.WellTimed input)
  | (_,.get _ _) => inferInstanceAs (Decidable (_ ∧ _))
  | (_,.set _ _ _) => inferInstanceAs (Decidable (_ ∧ _))
  | (_,.setWithTtl _ _ _ _) => inferInstanceAs (Decidable (_ ∧ (_ ∨ _)))
  | (_,.compareAndSwap _ _ _ _) => inferInstanceAs (Decidable (_ ∧ (_ → _)))
  | (_,.delete _ _) => inferInstanceAs (Decidable (_ ∧ True))
  | (_,.cleanupExpired) => inferInstanceAs (Decidable (_ ∧ True))
  | (_,.deleteByPrefix _) => inferInstanceAs (Decidable (_ ∧ True))

/-- How a key stands: a row is the latest write with an expiry that sorts, no row means that nothing was written or
that it has expired, and a cached entry is the row's. -/
structure Current (clock : Nat) (row : Option StateRow) (entry : Option StateEntry) (latest : Option StateWrite) :
    Prop where
  written : ∀ r, row = some r → latest = some ⟨r.value,r.expiresAt.map Int.toNat⟩
  sorts : ∀ r, row = some r → ∀ instant, r.expiresAt = some instant → (dateOf (dayOf instant.toNat)).year < 10000
  gone : row = none → ∀ write, latest = some write → ∃ instant, write.expiresAt = some instant ∧ instant ≤ clock
  cached : ∀ e, entry = some e → ∃ r, row = some r ∧ e = r.toEntry

theorem Current.later {clock now : Nat} {row : Option StateRow} {entry : Option StateEntry} {latest : Option StateWrite}
    (current : Current clock row entry latest) (le : clock ≤ now) : Current now row entry latest := by
  refine ⟨current.written,current.sorts,?_,current.cached⟩
  intro absent write wrote
  obtain ⟨instant,expires,past⟩ := current.gone absent write wrote
  exact ⟨instant,expires,Nat.le_trans past le⟩

theorem Current.fresh {clock : Nat} {row : StateRow} {entry : Option StateEntry}
    (sorts : ∀ instant, row.expiresAt = some instant → (dateOf (dayOf instant.toNat)).year < 10000)
    (cached : entry = none ∨ entry = some row.toEntry) :
    Current clock (some row) entry (some ⟨row.value,row.expiresAt.map Int.toNat⟩) := by
  refine ⟨?_,?_,?_,?_⟩
  · intro r found
    cases found
    rfl
  · intro r found
    cases found
    exact sorts
  · intro absent
    cases absent
  · intro e found
    rcases cached with none | some
    · rw [none] at found
      cases found
    · exact ⟨row,rfl,Option.some.inj (found.symm.trans some)⟩

theorem Current.unstored {clock : Nat} {latest : Option StateWrite}
    (gone : ∀ write, latest = some write → ∃ instant, write.expiresAt = some instant ∧ instant ≤ clock) :
    Current clock none none latest := by
  refine ⟨?_,?_,fun _ => gone,?_⟩
  · intro r found
    cases found
  · intro r found
    cases found
  · intro e found
    cases found

theorem Current.absent (clock : Nat) : Current clock none none none := by
  apply Current.unstored
  intro write wrote
  cases wrote

theorem Current.uncached {clock : Nat} {row : StateRow} {entry : Option StateEntry} {latest : Option StateWrite}
    (current : Current clock (some row) entry latest) : Current clock (some row) none latest := by
  refine ⟨current.written,current.sorts,?_,?_⟩
  · intro none
    cases none
  · intro e found
    cases found

theorem expiryOf_short {now ttl : Nat} (short : (dateOf (dayOf (now + ttl))).year < 10000) :
    expiryOf now ttl = some (now + ttl) := by
  obtain ⟨_,_,days⟩ := le_dateOf (dayOf (now + ttl))
  obtain ⟨months,last⟩ := dateOf_bounds (dayOf (now + ttl))
  have bound : dayOf (now + ttl) ≤ 3000000 := by omega
  have instant : now + ttl < 3000001 * dayLength := by
    unfold dayOf at bound
    have quotient := Nat.div_add_mod (now + ttl) dayLength
    have rest := Nat.mod_lt (now + ttl) (show dayLength > 0 by decide)
    unfold dayLength oneSecond at *
    omega
  unfold dayLength oneSecond at instant
  have delta : ttl ≤ maxDelta := by
    unfold maxDelta
    omega
  have range : now + ttl ≤ maxInstant := by
    unfold maxInstant oneSecond
    omega
  simp [expiryOf,delta,range]

theorem expired_past {now : Nat} {row : StateRow} {instant : Int} (expires : row.expiresAt = some instant)
    (short : (dateOf (dayOf instant.toNat)).year < 10000) (expired : row.expired now = true) : instant.toNat ≤ now := by
  simp only [StateRow.expired,expires,decide_eq_true_eq] at expired
  by_cases year : (dateOf (dayOf now)).year < 10000
  · exact ((rfc3339_lt short year).mp expired).le
  · by_contra late
    have days : dayOf now ≤ dayOf instant.toNat := Nat.div_le_div_right (Nat.le_of_lt (Nat.not_le.mp late))
    exact year (Nat.lt_of_le_of_lt (dateOf_year_mono days) short)

theorem live_of_before {now : Nat} {row : StateRow} {instant : Int} (expires : row.expiresAt = some instant)
    (short : (dateOf (dayOf instant.toNat)).year < 10000) : row.live now = decide (dayOf now ≤ dayOf instant.toNat) := by
  unfold StateRow.live
  rw [expires]
  cases clock : datetime now with
  | some text => simp only [datetime_lt_rfc3339 clock short]
  | none =>
    have year : ¬ (dateOf (dayOf now)).year < 10000 := by
      intro short'
      rw [datetime,if_pos short'] at clock
      cases clock
    have late : ¬ dayOf now ≤ dayOf instant.toNat := by
      intro le
      exact year (Nat.lt_of_le_of_lt (dateOf_year_mono le) short)
    simp [late]

theorem rewritten_toEntry {t : StateTable} {agentId key : String} (value : Json) (now : Nat) :
    (StateRow.rewritten agentId key value now (t.find (agentId,key))).toEntry =
      ⟨agentId,key,value,(StateRow.rewritten agentId key value now (t.find (agentId,key))).version⟩ := by
  cases found : t.find (agentId,key) with
  | none => rfl
  | some row =>
    obtain ⟨agent,name⟩ := Prod.mk.inj ((Table.find_eq_some _ _ _).mp found).2
    simp only [StateRow.rewritten,StateRow.swapped,StateRow.toEntry,agent,name]

theorem rewritten_value (agentId key : String) (value : Json) (now : Nat) (row : Option StateRow) :
    (StateRow.rewritten agentId key value now row).value = value := by
  cases row <;> rfl

theorem rewritten_expiresAt {agentId key : String} {value : Json} {now : Nat} {row : Option StateRow}
    (lasting : row.all (fun row => row.expiresAt.isNone) = true) :
    (StateRow.rewritten agentId key value now row).expiresAt = none := by
  cases row with
  | none => rfl
  | some row => simpa [StateRow.rewritten,StateRow.swapped] using lasting

theorem Current.plain {agentId key : String} {value : Json} {now : Nat} {row : Option StateRow} {entry : Option StateEntry}
    (lasting : row.all (fun row => row.expiresAt.isNone) = true)
    (cached : entry = none ∨ entry = some (StateRow.rewritten agentId key value now row).toEntry) :
    Current now (some (StateRow.rewritten agentId key value now row)) entry (some ⟨value,none⟩) := by
  have lasts : (StateRow.rewritten agentId key value now row).expiresAt = none := rewritten_expiresAt lasting
  have sorts : ∀ instant, (StateRow.rewritten agentId key value now row).expiresAt = some instant →
      (dateOf (dayOf instant.toNat)).year < 10000 := by
    intro instant expires
    rw [lasts] at expires
    cases expires
  have fresh : Current now _ entry _ := Current.fresh sorts cached
  rwa [rewritten_value,lasts] at fresh

theorem Current.timed {agentId key : String} {value : Json} {now instant : Nat} {row : Option StateRow}
    (short : (dateOf (dayOf instant)).year < 10000) :
    Current now (some { StateRow.rewritten agentId key value now row with expiresAt := some (instant : Int) })
      (some (StateRow.rewritten agentId key value now row).toEntry) (some ⟨value,some instant⟩) := by
  have write : (⟨value,some instant⟩ : StateWrite) =
      ⟨(StateRow.rewritten agentId key value now row).value,(some (instant : Int)).map Int.toNat⟩ := by
    rw [rewritten_value]
    rfl
  rw [write]
  refine Current.fresh ?_ (Or.inr rfl)
  intro expires given
  cases given
  exact short

namespace StateHistory
variable {s : StateHistory}

def Tracked (s : StateHistory) : Prop :=
  ∀ primary, Current s.clock (s.store.table.find primary) (s.store.cache primary) (s.latest primary)

section
variable {now : Nat} {primary : String × String}

def TrackedAfter (s : StateHistory) (now : Nat) (primary : String × String) (c : StateCall) : Prop :=
  Current now (c.onRow now primary (s.store.table.find primary))
    (c.onEntry now primary (s.store.table.find primary) (s.store.cache primary))
    (c.record now (s.store.call now c).1 s.latest primary)

variable (current : Current now (s.store.table.find primary) (s.store.cache primary) (s.latest primary))
include current

theorem get_tracked (agentId key : String) : s.TrackedAfter now primary (.get agentId key) := by
  unfold TrackedAfter
  refine ⟨current.written,current.sorts,current.gone,?_⟩
  intro e found
  simp only [StateCall.onEntry] at found
  split at found
  next same =>
    rcases Option.or_eq_some_iff.mp found with cached | ⟨_,read⟩
    · exact current.cached e cached
    · obtain ⟨row,there,rfl⟩ := Option.map_eq_some_iff.mp read
      exact ⟨row,(Option.filter_eq_some_iff.mp there).1,rfl⟩
  next => exact current.cached e found

theorem set_tracked {agentId key : String} (value : Json) (timed : s.lasting (agentId,key) = true) :
    s.TrackedAfter now primary (.set agentId key value) := by
  unfold TrackedAfter
  simp only [StateCall.onRow,StateCall.onEntry,StateCall.record,Function.update_apply]
  by_cases same : (agentId,key) = primary
  · subst same
    rw [if_pos rfl,if_pos rfl,if_pos rfl,← rewritten_toEntry]
    exact .plain timed (Or.inr rfl)
  · rw [if_neg same,if_neg same,if_neg (Ne.symm same)]
    exact current

theorem setWithTtl_tracked {ttl : Nat} (agentId key : String) (value : Json)
    (timed : expiryOf now ttl = none ∨ (dateOf (dayOf (now + ttl))).year < 10000) :
    s.TrackedAfter now primary (.setWithTtl agentId key value ttl) := by
  unfold TrackedAfter
  cases expiry : expiryOf now ttl with
  | none =>
    have answer : (s.store.call now (.setWithTtl agentId key value ttl)).1 = .panicked := by
      simp [StateStore.call,StateStore.hit,StateTable.execute,expiry]
    simp only [StateCall.onRow,StateCall.onEntry,StateCall.record,answer,expiry]
    exact current
  | some instant =>
    have short : (dateOf (dayOf (now + ttl))).year < 10000 := by
      rcases timed with panics | short
      · rw [expiry] at panics
        cases panics
      · exact short
    obtain rfl : now + ttl = instant := Option.some.inj ((expiryOf_short short).symm.trans expiry)
    have answer : ∃ version, (s.store.call now (.setWithTtl agentId key value ttl)).1 = .version version := by
      simp [StateStore.call,StateStore.hit,StateTable.execute,expiry]
    obtain ⟨version,answer⟩ := answer
    simp only [StateCall.onRow,StateCall.onEntry,StateCall.record,answer,expiry,Function.update_apply]
    by_cases same : (agentId,key) = primary
    · subst same
      rw [if_pos rfl,if_pos rfl,if_pos rfl,← rewritten_toEntry]
      exact .timed short
    · rw [if_neg same,if_neg same,if_neg (Ne.symm same)]
      exact current

theorem compareAndSwap_tracked {agentId key : String} {expected : Nat} (value : Json)
    (timed : s.store.table.swappable (agentId,key) expected = true → s.lasting (agentId,key) = true) :
    s.TrackedAfter now primary (.compareAndSwap agentId key expected value) := by
  unfold TrackedAfter
  have answer : (s.store.call now (.compareAndSwap agentId key expected value)).1 =
      .swapped (s.store.table.swappable (agentId,key) expected) := rfl
  cases swaps : s.store.table.swappable (agentId,key) expected with
  | true =>
    simp only [StateCall.onRow,StateCall.onEntry,StateCall.record,answer,swaps,Function.update_apply]
    by_cases same : (agentId,key) = primary
    · subst same
      obtain ⟨row,found,version⟩ := (Option.any_eq_true _ _).mp swaps
      have plain : Current now (some (StateRow.rewritten agentId key value now (some row))) none (some ⟨value,none⟩) :=
        .plain (found ▸ timed swaps) (Or.inl rfl)
      simp only [found,decide_true,Bool.true_and,Option.map_some,Option.any_some,version,if_true]
      exact plain
    · rw [if_neg (Ne.symm same)]
      simpa [same] using current
  | false =>
    rw [StateTable.onRow_refused swaps,StateTable.onEntry_refused swaps]
    simp only [StateCall.record,answer,swaps]
    exact current

theorem delete_tracked (agentId key : String) : s.TrackedAfter now primary (.delete agentId key) := by
  unfold TrackedAfter
  simp only [StateCall.onRow,StateCall.onEntry,StateCall.record,Function.update_apply]
  by_cases same : (agentId,key) = primary
  · rw [if_pos same,if_pos same,if_pos same.symm]
    exact .absent now
  · rw [if_neg same,if_neg same,if_neg (Ne.symm same)]
    exact current

theorem cleanupExpired_tracked : s.TrackedAfter now primary .cleanupExpired := by
  unfold TrackedAfter
  simp only [StateCall.onRow,StateCall.onEntry,StateCall.record]
  cases found : s.store.table.find primary with
  | none =>
    rw [found] at current
    exact current
  | some row =>
    rw [found] at current
    by_cases expired : row.expired now = true
    · simp only [Option.filter,expired,Bool.not_true,Bool.false_eq_true,if_false,Option.any_some,if_true]
      apply Current.unstored
      intro write wrote
      obtain rfl := Option.some.inj ((current.written row rfl).symm.trans wrote)
      cases expires : row.expiresAt with
      | none => simp [StateRow.expired,expires] at expired
      | some instant => exact ⟨instant.toNat,rfl,expired_past expires (current.sorts row rfl instant expires) expired⟩
    · simpa [Option.filter,expired] using current

theorem deleteByPrefix_tracked (before : String) : s.TrackedAfter now primary (.deleteByPrefix before) := by
  unfold TrackedAfter
  simp only [StateCall.onRow,StateCall.onEntry,StateCall.record]
  cases found : s.store.table.find primary with
  | none =>
    rw [found] at current
    apply Current.unstored
    intro write wrote
    split at wrote
    next => cases wrote
    next => exact current.gone rfl write wrote
  | some row =>
    rw [found] at current
    have agent : row.agentId = primary.1 := congrArg Prod.fst ((Table.find_eq_some _ _ _).mp found).2
    by_cases matched : like (some '\\') (StateTable.prefixPattern before) primary.1 = true
    · simp only [Option.filter,StateTable.hasPrefix,agent,matched,Bool.not_true,Bool.false_eq_true,if_false,if_true]
      exact .absent now
    · simp only [Option.filter,StateTable.hasPrefix,agent,matched,Bool.not_false,if_true,Bool.false_eq_true,if_false]
      exact current.uncached

end

theorem step_tracked {input : Nat × StateCall} (tracked : s.Tracked) (timed : s.WellTimed input) :
    (s.step input).Tracked := by
  intro primary
  have current := (tracked primary).later timed.1
  change Current input.1 ((s.store.step input).table.find primary) ((s.store.step input).cache primary)
    ((input.2.record input.1 (s.store.call input.1 input.2).1 s.latest) primary)
  rw [StateStore.find_step,StateStore.cache_step]
  obtain ⟨now,c⟩ := input
  cases c with
  | get agentId key => exact get_tracked current agentId key
  | set agentId key value => exact set_tracked current value timed.2
  | setWithTtl agentId key value ttl => exact setWithTtl_tracked current agentId key value timed.2
  | compareAndSwap agentId key expected value => exact compareAndSwap_tracked current value timed.2
  | delete agentId key => exact delete_tracked current agentId key
  | cleanupExpired => exact cleanupExpired_tracked current
  | deleteByPrefix before => exact deleteByPrefix_tracked current before

theorem Tracked.lawful {input : Nat × StateCall} (tracked : s.Tracked) (timed : s.WellTimed input) : s.Lawful input := by
  obtain ⟨now,c⟩ := input
  cases c with
  | get agentId key =>
    obtain ⟨time,timed⟩ := timed
    have current := (tracked (agentId,key)).later time
    change (s.store.call now (.get agentId key)).1.value = StateWrite.answer now (s.latest (agentId,key))
    have missed (uncached : s.store.cache (agentId,key) = none) : (s.store.call now (.get agentId key)).1.value =
        (((s.store.table.find (agentId,key)).filter (StateRow.live now)).map StateRow.value) := by
      have call : s.store.hit (.get agentId key) = none := uncached
      simp only [StateStore.call,call]
      change (Option.map _ (Option.map _ _)) = _
      rw [Option.map_map]
      rfl
    cases found : s.store.table.find (agentId,key) with
    | none =>
      have uncached : s.store.cache (agentId,key) = none := by
        cases cached : s.store.cache (agentId,key) with
        | none => rfl
        | some e =>
          obtain ⟨row,there,_⟩ := current.cached e cached
          rw [found] at there
          cases there
      rw [missed uncached,found]
      cases wrote : s.latest (agentId,key) with
      | none => rfl
      | some write =>
        obtain ⟨instant,expires,past⟩ := current.gone found write wrote
        simp [StateWrite.answer,Option.filter,expires,Nat.not_lt.mpr past]
    | some row =>
      have served (live : row.live now = true) : (s.store.call now (.get agentId key)).1.value = some row.value := by
        cases cached : s.store.cache (agentId,key) with
        | none =>
          rw [missed cached,found]
          simp [Option.filter,live]
        | some e =>
          obtain ⟨other,there,rfl⟩ := current.cached e cached
          obtain rfl := Option.some.inj (found.symm.trans there)
          have call : s.store.hit (.get agentId key) = some row.toEntry := cached
          simp only [StateStore.call,call]
          rfl
      rw [current.written row found]
      cases expires : row.expiresAt with
      | none =>
        rw [served (by simp [StateRow.live,expires])]
        rfl
      | some instant =>
        have live : row.live now = decide (dayOf now ≤ dayOf instant.toNat) :=
          live_of_before expires (current.sorts row found instant expires)
        by_cases before : now < instant.toNat
        · have days : dayOf now ≤ dayOf instant.toNat := Nat.div_le_div_right (Nat.le_of_lt before)
          rw [served (by rw [live]; exact decide_eq_true days)]
          simp [StateWrite.answer,Option.filter,before]
        · simp only [found,expires,Option.all_some,Bool.or_eq_true,Bool.and_eq_true,decide_eq_true_eq] at timed
          have apart := timed.resolve_left before
          rw [missed (Option.isNone_iff_eq_none.mp apart.1),found]
          simp [StateWrite.answer,Option.filter,live,Nat.not_le.mpr apart.2,before]
  | _ => trivial

theorem new_tracked : StateHistory.new.Tracked := fun _ => .absent 0

/-- In every run that is well timed, each read answers with the latest successful write to its key, unless that has
expired. -/
theorem ttl_law {calls : List (Nat × StateCall)} (timed : Along StateHistory.step WellTimed .new calls) :
    Along StateHistory.step Lawful .new calls :=
  timed.imp new_tracked (fun _ _ => step_tracked) (fun _ _ => Tracked.lawful)

/-- A value that expires after a minute, read before and, once it is cleaned up, after. -/
def shortLived : List (Nat × StateCall) :=
  [(0,.setWithTtl "bot" "mode" .null (60 * oneSecond)),(30 * oneSecond,.get "bot" "mode"),
    (61 * oneSecond,.cleanupExpired),(62 * oneSecond,.get "bot" "mode"),(62 * oneSecond,.set "bot" "mode" .null),
    (62 * oneSecond,.compareAndSwap "bot" "mode" 1 .null),(200000 * oneSecond,.get "bot" "mode")]

theorem ttl_law_shortLived : Along StateHistory.step Lawful .new shortLived := ttl_law (by decide +kernel)

/-- The plain write takes over the expiry of the first and is cleaned up with it. -/
def inherited : List (Nat × StateCall) :=
  [(0,.setWithTtl "bot" "mode" .null oneSecond),(0,.set "bot" "mode" (.bool true)),(2 * oneSecond,.cleanupExpired)]

theorem plain_write_expires :
    ¬ ∀ calls : List (Nat × StateCall), (calls.map Prod.fst).Pairwise (· ≤ ·) →
      Along StateHistory.step Lawful .new calls := by
  intro all
  have lawful : (run StateHistory.step .new inherited).Lawful (2 * oneSecond,.get "bot" "mode") :=
    (all (inherited ++ [(2 * oneSecond,.get "bot" "mode")]) (by decide)).drop.1
  have answer := congrArg Option.isSome lawful
  exact absurd answer (by decide +kernel)

end StateHistory

end Ecphoria
