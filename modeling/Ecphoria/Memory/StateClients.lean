import Ecphoria.Library.Transition
import Ecphoria.Memory.StateStore

/-! Clients of the state store at work together. Statements run with the connection locked
until the cache follows them; the cache itself is read without the lock. A version is
given twice only when a key is removed and written again. -/
namespace Ecphoria
open Library

inductive StateEvent where
  | read (version : Nat)
  | wrote
  | swapped (expected : Nat)
  | removed
deriving DecidableEq,Repr

def StateEvent.effect : StateEvent → Bool
  | .read _ => false
  | .wrote | .swapped _ | .removed => true

/-- The key a client's call is on. Sweeps over many keys are no client's. -/
def StateCall.keyed : StateCall → Option (String × String)
  | .get agentId key | .set agentId key _ | .setWithTtl agentId key _ _ | .compareAndSwap agentId key _ _
  | .delete agentId key => some (agentId,key)
  | .cleanupExpired | .deleteByPrefix _ => none

def StateCall.event (answer : StateAnswer) : StateCall → Option StateEvent
  | .get _ _ =>
    match answer with
    | .entry (some entry) => some (.read entry.version)
    | _ => none
  | .set _ _ _ => some .wrote
  | .setWithTtl _ _ _ _ =>
    match answer with
    | .version _ => some .wrote
    | _ => none
  | .compareAndSwap _ _ expected _ =>
    match answer with
    | .swapped true => some (.swapped expected)
    | _ => none
  | .delete _ _ => some .removed
  | .cleanupExpired | .deleteByPrefix _ => none

/-- A client: before the cache, before the lock, or with the lock and its statements done. -/
inductive ClientStage where
  | idle
  | ready (c : StateCall)
  | locking (c : StateCall)
  | holding (c : StateCall) (done : Executed)

def ClientStage.holds : ClientStage → Bool
  | .holding _ _ => true
  | _ => false

structure SharedStore where
  store : StateStore
  locked : Bool
  history : String × String → List StateEvent

inductive ClientMove where
  | begin (c : StateCall)
  | step (now : Nat)

def SharedStore.log (s : SharedStore) (primary : Option (String × String)) (event : Option StateEvent) : SharedStore :=
  match primary,event with
  | some primary,some event =>
    { s with history := Function.update s.history primary (s.history primary ++ [event]) }
  | _,_ => s

def ClientStage.advance (s : SharedStore) (stage : ClientStage) : ClientMove → SharedStore × ClientStage
  | .begin c =>
    match stage with
    | .idle => (s,if c.keyed.isSome then .ready c else .idle)
    | _ => (s,stage)
  | .step now =>
    match stage with
    | .idle => (s,.idle)
    | .ready c =>
      match s.store.hit c with
      | some entry => (s.log c.keyed (some (.read entry.version)),.idle)
      | none => (s,.locking c)
    | .locking c =>
      if s.locked then (s,.locking c)
      else
        let done := s.store.table.execute now c
        ({ s with store := { s.store with table := done.table }, locked := true },.holding c done)
    | .holding c done =>
      ({ s with store := { s.store with cache := done.cache s.store.cache }, locked := false }.log c.keyed
        (c.event done.answer),.idle)

abbrev Clients := Processes SharedStore ClientStage

def Clients.next : Clients → Nat × ClientMove → Clients := Processes.step ClientStage.advance

def Overtaken (history : List StateEvent) (version : Nat) : Prop :=
  ∃ before after, history = before ++ .read version :: after ∧ ∃ event ∈ after, event.effect = true

/-- A swap that succeeds on a version that was read comes before any other change. -/
def SwapsExclude (history : List StateEvent) : Prop :=
  ∀ version before between after, history = before ++ .read version :: (between ++ .swapped version :: after) →
    ∀ event ∈ between, event.effect = false

/-- Reads with a change between them see versions rise. -/
def VersionsRise (history : List StateEvent) : Prop :=
  ∀ first second before between after, history = before ++ .read first :: (between ++ .read second :: after) →
    (∃ event ∈ between, event.effect = true) → first < second

theorem overtaken_append {history : List StateEvent} {event : StateEvent} {version : Nat} :
    Overtaken (history ++ [event]) version ↔
      Overtaken history version ∨ event.effect = true ∧ .read version ∈ history := by
  constructor
  · rintro ⟨before,after,split,change,inside,effect⟩
    rcases List.eq_nil_or_concat after with rfl | ⟨rest,last,rfl⟩
    · cases inside
    · rw [List.concat_eq_append,← List.cons_append,← List.append_assoc] at split
      obtain ⟨rfl,lasts⟩ := List.append_inj' split rfl
      obtain rfl := (List.cons.inj lasts).1
      rw [List.concat_eq_append] at inside
      rcases List.mem_append.mp inside with earlier | now
      · exact Or.inl ⟨before,rest,rfl,change,earlier,effect⟩
      · obtain rfl := List.mem_singleton.mp now
        exact Or.inr ⟨effect,by simp⟩
  · rintro (⟨before,after,rfl,change,inside,effect⟩ | ⟨effect,read⟩)
    · exact ⟨before,after ++ [event],by simp,change,by simp [inside],effect⟩
    · obtain ⟨before,after,rfl⟩ := List.append_of_mem read
      exact ⟨before,after ++ [event],by simp,event,by simp,effect⟩

theorem swapsExclude_append {history : List StateEvent} {event : StateEvent} (before : SwapsExclude history)
    (fresh : ∀ version, event = .swapped version → ¬Overtaken history version) : SwapsExclude (history ++ [event]) := by
  intro version first between rest split change inside
  rcases List.eq_nil_or_concat rest with rfl | ⟨rest,last,rfl⟩
  · have parts : history ++ [event] = (first ++ .read version :: between) ++ [.swapped version] := by simp [split]
    obtain ⟨rfl,lasts⟩ := List.append_inj' parts rfl
    by_contra effect
    exact fresh version (List.cons.inj lasts).1 ⟨first,between,rfl,change,inside,by simpa using effect⟩
  · have parts : history ++ [event] = (first ++ .read version :: (between ++ .swapped version :: rest)) ++ [last] := by
      simp [split,List.concat_eq_append]
    exact before version first between rest (List.append_inj' parts rfl).1 change inside

theorem versionsRise_append {history : List StateEvent} {event : StateEvent} (before : VersionsRise history)
    (later : ∀ version, event = .read version → ∀ old, Overtaken history old → old < version) :
    VersionsRise (history ++ [event]) := by
  intro old version first between rest split changed
  rcases List.eq_nil_or_concat rest with rfl | ⟨rest,last,rfl⟩
  · have parts : history ++ [event] = (first ++ .read old :: between) ++ [.read version] := by simp [split]
    obtain ⟨rfl,lasts⟩ := List.append_inj' parts rfl
    exact later version (List.cons.inj lasts).1 old ⟨first,between,rfl,changed⟩
  · have parts : history ++ [event] = (first ++ .read old :: (between ++ .read version :: rest)) ++ [last] := by
      simp [split,List.concat_eq_append]
    exact before old version first between rest (List.append_inj' parts rfl).1 changed

/-- The row of a key is at least as new as all that was read of it, and newer than what was overtaken; the cache
holds the version of the row. -/
structure Steady (row : Option StateRow) (entry : Option StateEntry) (history : List StateEvent) : Prop where
  coherent : ∀ cached, entry = some cached → ∃ stored, row = some stored ∧ cached.version = stored.version
  seen : ∀ version stored, .read version ∈ history → row = some stored → version ≤ stored.version
  overtaken : ∀ version stored, Overtaken history version → row = some stored → version < stored.version
  exclude : SwapsExclude history
  rise : VersionsRise history

namespace Steady
variable {row : Option StateRow} {entry : Option StateEntry} {history : List StateEvent}

theorem read (steady : Steady row entry history) {stored : StateRow} (found : row = some stored)
    {entry' : Option StateEntry} (cached : ∀ cached, entry' = some cached → cached.version = stored.version) :
    Steady row entry' (history ++ [.read stored.version]) where
  coherent := fun entry inside => ⟨stored,found,cached entry inside⟩
  seen := by
    intro version stored' inside same
    obtain rfl := Option.some.inj (found.symm.trans same)
    rcases List.mem_append.mp inside with earlier | now
    · exact steady.seen version stored earlier found
    · cases List.mem_singleton.mp now
      exact Nat.le_refl _
  overtaken := by
    intro version stored' overtaken same
    rcases overtaken_append.mp overtaken with earlier | ⟨effect,_⟩
    · exact steady.overtaken version stored' earlier same
    · cases effect
  exclude := swapsExclude_append steady.exclude (fun _ swap => by cases swap)
  rise := by
    refine versionsRise_append steady.rise (fun version same old overtaken => ?_)
    cases same
    exact steady.overtaken old stored overtaken found

theorem change (steady : Steady row entry history) {event : StateEvent} {row' : Option StateRow}
    {entry' : Option StateEntry} (effect : event.effect = true)
    (swap : ∀ version, event = .swapped version → ¬Overtaken history version)
    (newer : ∀ stored, row' = some stored → ∀ version, .read version ∈ history → version < stored.version)
    (cached : ∀ cached, entry' = some cached → ∃ stored, row' = some stored ∧ cached.version = stored.version) :
    Steady row' entry' (history ++ [event]) where
  coherent := cached
  seen := by
    intro version stored inside found
    rcases List.mem_append.mp inside with earlier | now
    · exact (newer stored found version earlier).le
    · cases List.mem_singleton.mp now
      cases effect
  overtaken := by
    intro version stored overtaken found
    refine newer stored found version ?_
    rcases overtaken_append.mp overtaken with ⟨before,after,rfl,_⟩ | ⟨_,read⟩
    · simp
    · exact read
  exclude := swapsExclude_append steady.exclude swap
  rise := versionsRise_append steady.rise (fun version read => by subst read; cases effect)

end Steady

def StateCall.creates (now : Nat) : StateCall → Bool
  | .set _ _ _ => true
  | .setWithTtl _ _ _ ttl => (expiryOf now ttl).isSome
  | _ => false

def StateCall.eventOn (now : Nat) (row : Option StateRow) : StateCall → Option StateEvent
  | .get _ _ => (row.filter (StateRow.live now)).map (fun row => .read row.version)
  | .set _ _ _ => some .wrote
  | .setWithTtl _ _ _ ttl => (expiryOf now ttl).map (fun _ => .wrote)
  | .compareAndSwap _ _ expected _ =>
    if row.any (fun row => row.version = expected) then some (.swapped expected) else none
  | .delete _ _ => some .removed
  | .cleanupExpired | .deleteByPrefix _ => none

theorem StateTable.event_execute (t : StateTable) (now : Nat) {c : StateCall} {primary : String × String}
    (mine : c.keyed = some primary) : c.event (t.execute now c).answer = c.eventOn now (t.find primary) := by
  cases c with
  | get agentId key =>
    cases mine
    simp only [execute,StateCall.event,StateCall.eventOn,read]
    cases (t.find (agentId,key)).filter (StateRow.live now) <;> rfl
  | set agentId key value => rfl
  | setWithTtl agentId key value ttl =>
    simp only [execute,StateCall.event,StateCall.eventOn]
    cases expiryOf now ttl <;> rfl
  | compareAndSwap agentId key expected value =>
    cases mine
    simp only [execute,StateCall.event,StateCall.eventOn,swappable]
    cases (t.find (agentId,key)).any (fun row => row.version = expected) <;> rfl
  | delete agentId key => rfl
  | cleanupExpired => cases mine
  | deleteByPrefix before => cases mine

section
variable {c : StateCall} {primary : String × String} {row : Option StateRow} {entry : Option StateEntry}
  {history : List StateEvent} {now : Nat}

theorem version_rewritten (agentId key : String) (value : Json) :
    (StateRow.rewritten agentId key value now row).version = (row.map StateRow.version).getD 0 + 1 := by
  cases row <;> rfl

theorem Steady.write (steady : Steady row entry history) {stored : StateRow} {cached : StateEntry}
    (fresh : row = none → ∀ version, .read version ∉ history)
    (next : stored.version = (row.map StateRow.version).getD 0 + 1) (same : cached.version = stored.version) :
    Steady (some stored) (some cached) (history ++ [.wrote]) := by
  refine steady.change rfl (fun _ swap => by cases swap) ?_ ?_
  · intro stored' found version read
    cases found
    cases row with
    | none => exact absurd read (fresh rfl version)
    | some old =>
      have le := steady.seen version old read rfl
      rw [next]
      exact Nat.lt_succ_of_le le
  · intro cached' found
    cases found
    exact ⟨stored,rfl,same⟩

theorem onRow_other (keyed : c.keyed.isSome) (other : c.keyed ≠ some primary) : c.onRow now primary row = row := by
  cases c with
  | get agentId key => rfl
  | set agentId key value => exact if_neg (fun same => other (congrArg some same))
  | setWithTtl agentId key value ttl =>
    rw [StateCall.onRow]
    split
    · rfl
    · exact if_neg (fun same => other (congrArg some same))
  | compareAndSwap agentId key expected value =>
    have different : (agentId,key) ≠ primary := fun same => other (congrArg some same)
    simp [StateCall.onRow,different]
  | delete agentId key => exact if_neg (fun same => other (congrArg some same))
  | cleanupExpired => cases keyed
  | deleteByPrefix before => cases keyed

theorem onEntry_other (keyed : c.keyed.isSome) (other : c.keyed ≠ some primary) :
    c.onEntry now primary row entry = entry := by
  cases c with
  | get agentId key => exact if_neg (fun same => other (congrArg some same))
  | set agentId key value => exact if_neg (fun same => other (congrArg some same))
  | setWithTtl agentId key value ttl =>
    rw [StateCall.onEntry]
    split
    · rfl
    · exact if_neg (fun same => other (congrArg some same))
  | compareAndSwap agentId key expected value =>
    have different : (agentId,key) ≠ primary := fun same => other (congrArg some same)
    simp [StateCall.onEntry,different]
  | delete agentId key => exact if_neg (fun same => other (congrArg some same))
  | cleanupExpired => cases keyed
  | deleteByPrefix before => cases keyed

theorem Steady.settle (steady : Steady row entry history) (mine : c.keyed = some primary)
    (fresh : c.creates now = true → row = none → ∀ version, .read version ∉ history) :
    Steady (c.onRow now primary row) (c.onEntry now primary row entry)
      (history ++ (c.eventOn now row).toList) := by
  cases c with
  | get agentId key =>
    cases mine
    simp only [StateCall.onRow,StateCall.onEntry,StateCall.eventOn,if_pos]
    cases shown : row.filter (StateRow.live now) with
    | none => simpa using steady
    | some stored =>
      have found : row = some stored := (Option.filter_eq_some_iff.mp shown).1
      refine steady.read found (fun cached inside => ?_)
      cases entry with
      | none =>
        cases inside
        rfl
      | some held =>
        obtain ⟨stored',found',same⟩ := steady.coherent held rfl
        cases inside
        rw [same,Option.some.inj (found.symm.trans found')]
  | set agentId key value =>
    cases mine
    simp only [StateCall.onRow,StateCall.onEntry,StateCall.eventOn,if_pos]
    exact steady.write (fresh rfl) (version_rewritten _ _ _) rfl
  | setWithTtl agentId key value ttl =>
    cases mine
    simp only [StateCall.onRow,StateCall.onEntry,StateCall.eventOn,if_pos]
    cases expires : expiryOf now ttl with
    | none => simpa using steady
    | some expiresAt =>
      refine steady.write (fresh ?_) (version_rewritten _ _ _) rfl
      rw [StateCall.creates,expires]
      rfl
  | compareAndSwap agentId key expected value =>
    cases mine
    simp only [StateCall.onRow,StateCall.onEntry,StateCall.eventOn,decide_true,Bool.true_and]
    cases row with
    | none => simpa using steady
    | some stored =>
      by_cases matched : stored.version = expected
      · subst matched
        simp only [Option.any_some,decide_true,if_pos,Option.map_some]
        refine steady.change rfl ?_ ?_ (fun _ none => by cases none)
        · intro version swap overtaken
          cases swap
          exact Nat.lt_irrefl _ (steady.overtaken _ stored overtaken rfl)
        · intro stored' found version read
          cases found
          exact Nat.lt_succ_of_le (steady.seen version stored read rfl)
      · simpa [matched] using steady
  | delete agentId key =>
    cases mine
    simp only [StateCall.onRow,StateCall.onEntry,StateCall.eventOn,if_pos]
    exact steady.change rfl (fun _ swap => by cases swap) (fun _ none => by cases none) (fun _ none => by cases none)
  | cleanupExpired => cases mine
  | deleteByPrefix before => cases mine

end

namespace SharedStore
variable (s : SharedStore) (primary : String × String)

theorem log_history (keyed : Option (String × String)) (event : Option StateEvent) :
    (s.log keyed event).history primary =
      s.history primary ++ if keyed = some primary then event.toList else [] := by
  cases keyed with
  | none => simp [log]
  | some other =>
    cases event with
    | none => simp [log]
    | some event =>
      by_cases same : other = primary
      · simp [log,same]
      · simp [log,same,Ne.symm same]

@[simp] theorem log_store (keyed : Option (String × String)) (event : Option StateEvent) :
    (s.log keyed event).store = s.store := by
  unfold log
  split <;> rfl

@[simp] theorem log_locked (keyed : Option (String × String)) (event : Option StateEvent) :
    (s.log keyed event).locked = s.locked := by
  unfold log
  split <;> rfl

def SteadyAt (row : Option StateRow) : Prop := Steady row (s.store.cache primary) (s.history primary)

end SharedStore

namespace Clients

def Fresh (primary : String × String) (s : SharedStore) : ClientStage → ClientMove → Prop
  | .locking c,.step now =>
    s.locked = false → c.keyed = some primary → c.creates now = true → s.store.table.find primary = none →
      ∀ event ∈ s.history primary, event.effect = true
  | _,_ => True

instance decidableFresh (primary : String × String) (s : SharedStore) :
    ∀ stage move, Decidable (Fresh primary s stage move)
  | .locking _,.step _ => inferInstanceAs (Decidable (_ → _ → _ → _ → _))
  | .locking _,.begin _ => isTrue trivial
  | .idle,_ => isTrue trivial
  | .ready _,_ => isTrue trivial
  | .holding _ _,_ => isTrue trivial

def Unseen (primary : String × String) (p : Clients) (input : Nat × ClientMove) : Prop :=
  Fresh primary p.shared (p.locals input.1) input.2

instance decidableUnseen (primary : String × String) (p : Clients) (input : Nat × ClientMove) :
    Decidable (Unseen primary p input) :=
  inferInstanceAs (Decidable (Fresh primary p.shared (p.locals input.1) input.2))

/-- What a client that holds the lock has done, from a table on which the key was steady. -/
structure Holds (primary : String × String) (s : SharedStore) (c : StateCall) (done : Executed) : Prop where
  locked : s.locked = true
  before : ∃ now t, done = StateTable.execute t now c ∧ s.store.table = done.table ∧
    s.SteadyAt primary (Table.find t primary) ∧
    (c.keyed = some primary → c.creates now = true → Table.find t primary = none →
      ∀ version, .read version ∉ s.history primary)

def Sane (primary : String × String) (s : SharedStore) : ClientStage → Prop
  | .idle => True
  | .ready c | .locking c => c.keyed.isSome
  | .holding c done => c.keyed.isSome ∧ Holds primary s c done

structure Sound (primary : String × String) (p : Clients) : Prop where
  sane : ∀ i, Sane primary p.shared (p.locals i)
  alone : ∀ i j, (p.locals i).holds = true → (p.locals j).holds = true → i = j
  steady : ∃ row, p.shared.SteadyAt primary row ∧ (p.shared.locked = false → row = p.shared.store.table.find primary)

section
variable {primary : String × String} {s : SharedStore} {stage : ClientStage} {p : Clients}

theorem Sane.of_waiting (sane : Sane primary s stage) (waits : stage.holds = false) (s' : SharedStore) :
    Sane primary s' stage := by
  cases stage with
  | idle => trivial
  | ready c => exact sane
  | locking c => exact sane
  | holding c done => cases waits

theorem Sane.locked (sane : Sane primary s stage) (holds : stage.holds = true) : s.locked = true := by
  cases stage with
  | holding c done => exact sane.2.locked
  | _ => cases holds

theorem Sound.moved (sound : Sound primary p) {i : Nat} {s : SharedStore} {stage : ClientStage}
    (mine : Sane primary s stage) (others : ∀ j, j ≠ i → Sane primary s (p.locals j))
    (holds : stage.holds = true → p.shared.locked = false)
    (steady : ∃ row, s.SteadyAt primary row ∧ (s.locked = false → row = s.store.table.find primary)) :
    Sound primary ⟨s,Function.update p.locals i stage⟩ where
  sane := by
    intro j
    by_cases same : j = i
    · simpa [same] using mine
    · simpa [same] using others j same
  alone := by
    have first : stage.holds = true → ∀ j, (p.locals j).holds = false := by
      intro took j
      by_contra other
      have locked := (sound.sane j).locked (by simpa using other)
      rw [holds took] at locked
      cases locked
    intro j k holdsJ holdsK
    simp only [Function.update_apply] at holdsJ holdsK
    split at holdsJ <;> split at holdsK
    · simp_all
    · exact absurd holdsK (by simp [first holdsJ k])
    · exact absurd holdsJ (by simp [first holdsK j])
    · exact sound.alone j k holdsJ holdsK
  steady := steady

theorem Sound.free (sound : Sound primary p) (unlocked : p.shared.locked = false) :
    p.shared.SteadyAt primary (p.shared.store.table.find primary) := by
  obtain ⟨row,steady,same⟩ := sound.steady
  rw [← same unlocked]
  exact steady

theorem steadyAt_hit {row : Option StateRow} (steady : s.SteadyAt primary row) {c : StateCall} {entry : StateEntry}
    (found : s.store.hit c = some entry) : (s.log c.keyed (some (.read entry.version))).SteadyAt primary row := by
  cases c with
  | get agentId key =>
    have cached : s.store.cache (agentId,key) = some entry := found
    rw [SharedStore.SteadyAt,SharedStore.log_history,SharedStore.log_store,StateCall.keyed]
    split
    next same =>
      obtain rfl : (agentId,key) = primary := Option.some.inj same
      obtain ⟨stored,is,version⟩ := Steady.coherent steady entry cached
      rw [version]
      refine Steady.read steady is (fun held holds => ?_)
      cases cached.symm.trans holds
      exact version
    next => simpa [SharedStore.SteadyAt] using steady
  | _ => cases found

theorem Holds.hit {c d : StateCall} {done : Executed} {entry : StateEntry} (holds : Holds primary s d done)
    (found : s.store.hit c = some entry) : Holds primary (s.log c.keyed (some (.read entry.version))) d done where
  locked := by rw [SharedStore.log_locked,holds.locked]
  before := by
    obtain ⟨now,t,executed,table,steady,fresh⟩ := holds.before
    refine ⟨now,t,executed,by rw [SharedStore.log_store,table],steadyAt_hit steady found,?_⟩
    intro mine creates none version
    rw [SharedStore.log_history]
    split
    next same =>
      cases c with
      | get agentId key =>
        obtain rfl : (agentId,key) = primary := Option.some.inj same
        obtain ⟨stored,is,_⟩ := Steady.coherent steady entry found
        rw [none] at is
        cases is
      | _ => cases found
    next => simpa using fresh mine creates none version

theorem steadyAt_settle {c : StateCall} {t : StateTable} {now : Nat} (steady : s.SteadyAt primary (t.find primary))
    (keyed : c.keyed.isSome) (fresh : c.keyed = some primary → c.creates now = true → t.find primary = none →
      ∀ version, .read version ∉ s.history primary) :
    Steady ((t.execute now c).table.find primary) ((t.execute now c).cache s.store.cache primary)
      (s.history primary ++ if c.keyed = some primary then (c.event (t.execute now c).answer).toList else []) := by
  rw [StateTable.find_execute,StateTable.cache_execute]
  by_cases mine : c.keyed = some primary
  · rw [if_pos mine,StateTable.event_execute t now mine]
    exact Steady.settle steady mine (fresh mine)
  · rw [if_neg mine,List.append_nil,onRow_other keyed mine,onEntry_other keyed mine]
    exact steady

theorem sound_step (sound : Sound primary p) {input : Nat × ClientMove} (unseen : Unseen primary p input) :
    Sound primary (p.next input) := by
  obtain ⟨i,move⟩ := input
  have mine := sound.sane i
  have others (j : Nat) (_ : j ≠ i) := sound.sane j
  rw [next,Processes.step]
  cases move with
  | begin c =>
    cases stage : p.locals i with
    | idle =>
      simp only [ClientStage.advance]
      split
      next keyed => exact sound.moved keyed others (fun holds => by cases holds) sound.steady
      next => exact sound.moved trivial others (fun holds => by cases holds) sound.steady
    | _ =>
      simp only [ClientStage.advance]
      rw [← stage,Function.update_eq_self]
      exact sound
  | step now =>
    cases stage : p.locals i with
    | idle =>
      simp only [ClientStage.advance]
      exact sound.moved trivial others (fun holds => by cases holds) sound.steady
    | ready c =>
      simp only [ClientStage.advance]
      split
      next entry found =>
        refine sound.moved trivial (fun j _ => ?_) (fun holds => by cases holds) ?_
        · have sane := sound.sane j
          cases other : p.locals j with
          | holding d done =>
            rw [other] at sane
            exact ⟨sane.1,sane.2.hit found⟩
          | _ =>
            rw [other] at sane
            exact sane
        · obtain ⟨row,steady,same⟩ := sound.steady
          refine ⟨row,steadyAt_hit steady found,fun free => ?_⟩
          rw [SharedStore.log_locked] at free
          rw [SharedStore.log_store,same free]
      next =>
        rw [stage] at mine
        exact sound.moved mine others (fun holds => by cases holds) sound.steady
    | locking c =>
      rw [stage] at mine
      simp only [ClientStage.advance]
      split
      next => exact sound.moved mine others (fun holds => by cases holds) sound.steady
      next unlocked =>
        have free : p.shared.locked = false := by simpa using unlocked
        refine sound.moved ⟨mine,rfl,now,p.shared.store.table,rfl,rfl,sound.free free,?_⟩ (fun j _ => ?_)
          (fun _ => free) ⟨_,sound.free free,fun locked => by cases locked⟩
        · intro same creates none version read
          rw [Unseen,stage] at unseen
          cases unseen free same creates none _ read
        · refine (sound.sane j).of_waiting ?_ _
          by_contra holds
          have locked := (sound.sane j).locked (by simpa using holds)
          rw [free] at locked
          cases locked
    | holding c done =>
      rw [stage] at mine
      obtain ⟨keyed,_,now',t,rfl,table,steady,fresh⟩ := mine
      simp only [ClientStage.advance]
      refine sound.moved trivial (fun j other => ?_) (fun holds => by cases holds)
        ⟨_,?_,fun _ => rfl⟩
      · refine (sound.sane j).of_waiting ?_ _
        by_contra holds
        exact other (sound.alone j i (by simpa using holds) (by rw [stage]; rfl))
      · rw [SharedStore.SteadyAt,SharedStore.log_history,SharedStore.log_store]
        have settled := steadyAt_settle steady keyed fresh
        rw [← table] at settled
        exact settled

end

/-- Clients before their first calls, on a store that was just opened. -/
def opened (table : StateTable) : Clients := ⟨⟨StateStore.opened table,false,fun _ => []⟩,fun _ => .idle⟩

theorem sound_opened (primary : String × String) (table : StateTable) : Sound primary (opened table) where
  sane := fun _ => trivial
  alone := fun _ _ holds => by cases holds
  steady := by
    refine ⟨_,?_,fun _ => rfl⟩
    exact {
      coherent := fun _ none => by cases none
      seen := fun _ _ none => by cases none
      overtaken := fun _ _ ⟨_,_,split,_⟩ => by simp [opened] at split
      exclude := fun _ _ _ _ split => by simp [opened] at split
      rise := fun _ _ _ _ _ split => by simp [opened] at split }

/-- No update is lost to a swap, and versions rise, while no key that was read is removed and written anew. -/
theorem no_lost_update (table : StateTable) (primary : String × String) (inputs : List (Nat × ClientMove))
    (unseen : Along Clients.next (Unseen primary) (opened table) inputs) :
    Throughout Clients.next
      (fun p => SwapsExclude (p.shared.history primary) ∧ VersionsRise (p.shared.history primary))
      (opened table) inputs := by
  intro n
  have sound := (unseen.take n).invariant (sound_opened primary table)
    (fun _ _ sound unseen => sound_step sound unseen)
  obtain ⟨row,steady,_⟩ := sound.steady
  exact ⟨steady.exclude,steady.rise⟩

/-- One client makes a call from beginning to end. -/
def whole (i : Nat) (c : StateCall) : List (Nat × ClientMove) :=
  [(i,.begin c),(i,.step 0),(i,.step 0),(i,.step 0)]

/-- Two clients read the key and swap it in turn; the slower one is refused. -/
def contended : List (Nat × ClientMove) :=
  whole 0 (.set "bot" "mode" .null) ++ whole 0 (.get "bot" "mode") ++ whole 1 (.get "bot" "mode") ++
    whole 1 (.compareAndSwap "bot" "mode" 1 .null) ++ whole 0 (.compareAndSwap "bot" "mode" 1 .null) ++
    whole 0 (.get "bot" "mode")

theorem no_lost_update_contended :
    Along Clients.next (Unseen ("bot","mode")) (opened Table.empty) contended ∧
      Throughout Clients.next
        (fun p => SwapsExclude (p.shared.history ("bot","mode")) ∧ VersionsRise (p.shared.history ("bot","mode")))
        (opened Table.empty) contended ∧
      (run Clients.next (opened Table.empty) contended).shared.history ("bot","mode") =
        [.wrote,.read 1,.read 1,.swapped 1,.read 2] :=
  have unseen : Along Clients.next (Unseen ("bot","mode")) (opened Table.empty) contended := by decide +kernel
  ⟨unseen,no_lost_update Table.empty ("bot","mode") contended unseen,by decide +kernel⟩

/-- A client swaps on the version it read after another has removed the key and written it anew. -/
def revived : List (Nat × ClientMove) :=
  whole 0 (.set "bot" "mode" .null) ++ whole 0 (.get "bot" "mode") ++ whole 1 (.delete "bot" "mode") ++
    whole 1 (.set "bot" "mode" (.bool true)) ++ whole 2 (.get "bot" "mode") ++
    whole 0 (.compareAndSwap "bot" "mode" 1 .null)

theorem revived_update_lost :
    ¬SwapsExclude ((run Clients.next (opened Table.empty) revived).shared.history ("bot","mode")) ∧
      ¬VersionsRise ((run Clients.next (opened Table.empty) revived).shared.history ("bot","mode")) := by
  have history : (run Clients.next (opened Table.empty) revived).shared.history ("bot","mode") =
      [.wrote,.read 1,.removed,.wrote,.read 1,.swapped 1] := by decide +kernel
  rw [history]
  constructor
  · intro exclude
    cases exclude 1 [.wrote] [.removed,.wrote,.read 1] [] rfl .wrote (by decide)
  · intro rise
    exact absurd (rise 1 1 [.wrote] [.removed,.wrote] [.swapped 1] rfl ⟨.wrote,by decide,rfl⟩) (by decide)

end Clients

end Ecphoria
