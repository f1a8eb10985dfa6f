import Ecphoria.Data
import Ecphoria.Library.Transition
import Ecphoria.Library.Versioned

/-! The leader of the operators. Replicas read one lease and write it with the version they have read; a request may be lost,
or arrive after its sender gave up. A lease is taken over when its renewal is too old by the clock of the one who takes it. -/
namespace Ecphoria.Election
open Library

def ttlSeconds : Int := 15

def nanosIn (seconds : Int) : Int := seconds * 1000000000

def minTimestamp : Int := nanosIn (-377705023201)
def maxTimestamp : Int := nanosIn 253402207200 + 999999999

def checkedAdd (instant seconds : Int) : Option Int :=
  let moved := instant + nanosIn seconds
  if minTimestamp ≤ moved ∧ moved ≤ maxTimestamp then some moved else none

theorem checkedAdd_eq {instant seconds : Int} (fits : (checkedAdd instant seconds).isSome) :
    checkedAdd instant seconds = some (instant + nanosIn seconds) := by
  simp only [checkedAdd] at fits ⊢
  split
  next => rfl
  next outside =>
    rw [if_neg outside] at fits
    cases fits

structure LeaseSpec where
  holderIdentity : Option String
  leaseDurationSeconds : Option Int
  acquireTime : Option Int
  renewTime : Option Int
deriving DecidableEq

instance : Inhabited LeaseSpec := ⟨⟨none,none,none,none⟩⟩

structure Lease where
  spec : Option LeaseSpec
deriving DecidableEq

def Lease.holder (lease : Lease) : Option String := (lease.spec.getD default).holderIdentity

def Lease.renewed (lease : Lease) : Option Int := (lease.spec.getD default).renewTime

def LeaseSpec.expired (spec : LeaseSpec) (now : Int) : Bool :=
  match spec.renewTime,spec.leaseDurationSeconds with
  | some renewed,some duration =>
    match checkedAdd renewed duration with
    | some deadline => deadline < now
    | none => true
  | _,_ => true

/-- What a replica asks the interface of the cluster to do with the lease. -/
inductive LeaseWrite where
  | create (lease : Lease)
  | replace (version : Nat) (lease : Lease)
  | delete
deriving DecidableEq

def heldLease (id : String) (acquired : Option Int) (now : Int) : Lease :=
  ⟨some ⟨some id,some ttlSeconds,acquired,some (micros now)⟩⟩

/-- What is to be written, by the clock before the lease was read and the clock after it. -/
def acquireOrRenew (id : String) (now : Int) (found : Option (Nat × Lease)) (later : Int) : Option LeaseWrite :=
  match found with
  | none => some (.create (heldLease id (some (micros now)) now))
  | some (version,lease) =>
    let spec := lease.spec.getD default
    let heldByUs := spec.holderIdentity = some id
    if ¬heldByUs ∧ spec.expired later = false ∧ spec.holderIdentity.isSome then none
    else some (.replace version (heldLease id (if heldByUs then spec.acquireTime else some (micros now)) now))

def LeaseWrite.apply (lease : Versioned Lease) : LeaseWrite → Bool × Versioned Lease
  | .create new => lease.create new
  | .replace version new => lease.replace version new
  | .delete => (true,lease.delete)

/-- Where a replica is. The controller runs from the first confirmed write on, with the time of the last one. -/
inductive Phase where
  | campaigning
  | calling (leads : Option Int) (now : Int)
  | sending (leads : Option Int) (now : Int) (request : LeaseWrite)
  | leading (since : Int)
  | releasing (since : Int)
  | deleting (since : Int)
  | exited
deriving DecidableEq

structure Replica where
  id : String
  phase : Phase

/-- The lease, the requests whose senders gave up before they arrived, and the time. -/
structure Api where
  lease : Versioned Lease
  stray : List LeaseWrite
  clock : Int

inductive Action where
  | tick (passed : Nat)
  | arrive (k : Nat)
  | call (now : Int)
  | get (answered : Bool) (later : Int)
  | send (arrives answered : Bool)
  | stop
  | crash
  | restart

def Replica.to (r : Replica) (phase : Phase) : Replica := { r with phase := phase }

/-- A candidate tries again later, a leader exits. -/
def failed : Option Int → Phase
  | none => .campaigning
  | some _ => .exited

def Api.strays (api : Api) (request : LeaseWrite) : Api := { api with stray := request :: api.stray }

def Api.arrive (api : Api) (k : Nat) : Api :=
  match api.stray[k]? with
  | some request => { api with lease := (request.apply api.lease).2,stray := api.stray.eraseIdx k }
  | none => api

def receive (api : Api) (r : Replica) (answered : Bool) (later : Int) : Api × Replica :=
  match r.phase with
  | .calling leads now =>
    match if answered then acquireOrRenew r.id now api.lease.content later else none with
    | some request => (api,r.to (.sending leads now request))
    | none => (api,r.to (failed leads))
  | .releasing since =>
    if answered && (api.lease.content.bind (fun entry => entry.2.holder)) = some r.id then (api,r.to (.deleting since))
    else (api,r.to .exited)
  | _ => (api,r)

def transmit (api : Api) (r : Replica) (arrives answered : Bool) : Api × Replica :=
  match r.phase with
  | .sending leads now request =>
    if arrives then
      let done := request.apply api.lease
      ({ api with lease := done.2 },r.to (if done.1 && answered then .leading (micros now) else failed leads))
    else (api.strays request,r.to (failed leads))
  | .deleting _ => (if arrives then { api with lease := api.lease.delete } else api.strays .delete,r.to .exited)
  | _ => (api,r)

def halt (api : Api) (r : Replica) : Api × Replica :=
  match r.phase with
  | .leading since | .calling (some since) _ => (api,r.to (.releasing since))
  | .sending (some since) _ request => (api.strays request,r.to (.releasing since))
  | .sending none _ request => (api.strays request,r.to .exited)
  | .releasing _ | .deleting _ => (api,r)
  | _ => (api,r.to .exited)

def crash (api : Api) (r : Replica) : Api × Replica :=
  match r.phase with
  | .sending _ _ request => (api.strays request,r.to .exited)
  | .deleting _ => (api.strays .delete,r.to .exited)
  | _ => (api,r.to .exited)

def advance (api : Api) (r : Replica) : Action → Api × Replica
  | .tick passed => ({ api with clock := api.clock + passed },r)
  | .arrive k => (api.arrive k,r)
  | .call now =>
    match r.phase with
    | .campaigning => (api,r.to (.calling none now))
    | .leading since => (api,r.to (.calling (some since) now))
    | _ => (api,r)
  | .get answered later => receive api r answered later
  | .send arrives answered => transmit api r arrives answered
  | .stop => halt api r
  | .crash => crash api r
  | .restart => if r.phase = .exited then (api,r.to .campaigning) else (api,r)

abbrev Operators := Processes Api Replica

def step : Operators → Nat × Action → Operators := Processes.step advance

/-- The replicas of a deployment, before any of them has called. -/
def started (names : Nat → String) (lease : Versioned Lease) (clock : Int) : Operators :=
  ⟨⟨lease,[],clock⟩,fun i => ⟨names i,.campaigning⟩⟩

/-- The replica has its controller running, since a renewal at this time. -/
def Phase.tenure : Phase → Option Int
  | .leading since | .calling (some since) _ | .sending (some since) _ _ => some since
  | _ => none

/-- The last renewal of a replica that leads, or that led and gives the lease back. -/
def Phase.stake : Phase → Option Int
  | .releasing since | .deleting since => some since
  | phase => phase.tenure

def Timely (drift clock since : Int) : Prop := clock + drift ≤ since + nanosIn ttlSeconds

instance (drift clock since : Int) : Decidable (Timely drift clock since) := inferInstanceAs (Decidable (_ ≤ _))

def representable (now : Int) : Bool := (checkedAdd (micros now) ttlSeconds).isSome

/-- The clocks are at most `drift` ahead of the time, no clock has shown a replica more than it shows it now, and what
deletes the lease arrives in time: while its sender waits, and before the lease of the sender ends. -/
def fair (drift : Int) (s : Operators) (input : Nat × Action) : Bool :=
  match input.2 with
  | .call now => representable now
  | .get _ later => later ≤ s.shared.clock + drift &&
    match (s.locals input.1).phase with
    | .calling _ now => s.shared.lease.content.all (fun entry =>
        entry.2.holder ≠ some (s.locals input.1).id || entry.2.renewed.all (fun renewed => renewed ≤ micros now))
    | _ => true
  | .arrive k => s.shared.stray[k]? ≠ some .delete
  | .send true _ =>
    match (s.locals input.1).phase with
    | .deleting since => Timely drift s.shared.clock since
    | _ => true
  | _ => true

def Holds (lease : Versioned Lease) (id : String) (since : Int) : Prop :=
  ∃ version acquired renewed,lease.content = some (version,⟨some ⟨some id,some ttlSeconds,acquired,some renewed⟩⟩) ∧
    since ≤ renewed ∧ (checkedAdd renewed ttlSeconds).isSome

theorem Holds.unique {lease : Versioned Lease} {first second : String} {since since' : Int} (one : Holds lease first since)
    (other : Holds lease second since') : first = second := by
  obtain ⟨_,_,_,found,-⟩ := one
  obtain ⟨_,_,_,again,-⟩ := other
  rw [found] at again
  simp only [Option.some_inj,Prod.mk.injEq,Lease.mk.injEq,LeaseSpec.mk.injEq] at again
  exact again.2.1

/-- What was read is for the replica to take: its own, nobody's, or expired by a clock. -/
def Yields (drift clock : Int) (id : String) (now : Int) (seen : Lease) : Prop :=
  seen.holder = some id ∧ (∀ renewed ∈ seen.renewed, renewed ≤ micros now) ∨ seen.holder = none ∨
    ∃ later ≤ clock + drift,(seen.spec.getD default).expired later = true

def LeaseWrite.SentBy (drift : Int) (api : Api) (id : String) (now : Int) : LeaseWrite → Prop
  | .create new => (∃ acquired,new = heldLease id acquired now) ∧ representable now
  | .replace version new => (∃ acquired,new = heldLease id acquired now) ∧ representable now ∧
      ∃ seen,api.lease.Saw (version,seen) ∧ Yields drift api.clock id now seen
  | .delete => False

section
variable {drift : Int} {api after : Api} {id : String} {now since : Int} {request : LeaseWrite}

theorem LeaseWrite.SentBy.later (sent : request.SentBy drift api id now) (clock : api.clock ≤ after.clock)
    (saw : ∀ entry, api.lease.Saw entry → after.lease.Saw entry) : request.SentBy drift after id now := by
  cases request with
  | create new => exact sent
  | replace version new =>
    obtain ⟨written,instant,seen,read,yields⟩ := sent
    refine ⟨written,instant,seen,saw _ read,?_⟩
    rcases yields with own | free | ⟨later,bound,expired⟩
    · exact .inl own
    · exact .inr (.inl free)
    · exact .inr (.inr ⟨later,by omega,expired⟩)
  | delete => exact sent

theorem acquireOrRenew_sent {later : Int} (instant : representable now) (bound : later ≤ api.clock + drift)
    (forward : ∀ entry ∈ api.lease.content, entry.2.holder = some id → ∀ renewed ∈ entry.2.renewed, renewed ≤ micros now)
    (asked : acquireOrRenew id now api.lease.content later = some request) : request.SentBy drift api id now := by
  unfold acquireOrRenew at asked
  split at asked
  next =>
    cases asked
    exact ⟨⟨_,rfl⟩,instant⟩
  next version lease found =>
    simp only at asked
    split at asked
    next => cases asked
    next free =>
      cases asked
      refine ⟨⟨_,rfl⟩,instant,lease,.of_content found,?_⟩
      by_cases own : lease.holder = some id
      · exact .inl ⟨own,forward _ found own⟩
      · rcases Bool.eq_false_or_eq_true ((lease.spec.getD default).expired later) with expired | live
        · exact .inr (.inr ⟨later,bound,expired⟩)
        · refine .inr (.inl ?_)
          by_contra held
          exact free ⟨own,live,Option.ne_none_iff_isSome.mp held⟩

theorem LeaseWrite.SentBy.holds (sent : request.SentBy drift api id now) (done : (request.apply api.lease).1 = true) :
    Holds (request.apply api.lease).2 id (micros now) := by
  cases request with
  | create new =>
    obtain ⟨⟨acquired,rfl⟩,instant⟩ := sent
    rcases api.lease.create_cases (heldLease id acquired now) with ⟨_,result⟩ | ⟨_,result⟩
    · rw [LeaseWrite.apply,result]
      exact ⟨_,_,_,rfl,Int.le_refl _,instant⟩
    · rw [LeaseWrite.apply,result] at done
      cases done
  | replace version new =>
    obtain ⟨⟨acquired,rfl⟩,instant,seen,read,_⟩ := sent
    rw [LeaseWrite.apply,(read.replaced done).2]
    exact ⟨_,_,_,rfl,Int.le_refl _,instant⟩
  | delete => exact sent.elim

theorem Holds.apply {other : String} (held : Holds api.lease id since) (timely : Timely drift api.clock since)
    (sent : request.SentBy drift api other now) : Holds (request.apply api.lease).2 id since := by
  cases request with
  | create new =>
    have ⟨_,_,_,found,_⟩ := held
    rcases api.lease.create_cases new with ⟨none,_⟩ | ⟨_,result⟩
    · cases found.symm.trans none
    · rw [LeaseWrite.apply,result]
      exact held
  | replace version new =>
    obtain ⟨⟨taken,rfl⟩,instant,seen,read,yields⟩ := sent
    rcases Bool.eq_false_or_eq_true (api.lease.replace version (heldLease other taken now)).1 with done | refused
    · obtain ⟨found,result⟩ := read.replaced done
      obtain ⟨_,acquired,renewed,content,later,fits⟩ := held
      rw [content,Option.some_inj,Prod.mk.injEq] at found
      obtain ⟨-,rfl⟩ := found
      rcases yields with ⟨own,forward⟩ | free | ⟨reading,bound,expired⟩
      · cases own
        rw [LeaseWrite.apply,result]
        exact ⟨_,_,_,rfl,Int.le_trans later (forward renewed rfl),instant⟩
      · cases free
      · exfalso
        have passed : renewed + nanosIn ttlSeconds < reading := by
          simpa only [LeaseSpec.expired,Option.getD_some,checkedAdd_eq fits,decide_eq_true_eq] using expired
        unfold Timely at timely
        omega
    · rcases api.lease.replace_cases version (heldLease other taken now) with ⟨_,result⟩ | result
      · rw [result] at refused
        cases refused
      · rw [LeaseWrite.apply,result]
        exact held
  | delete => exact sent.elim

inductive Change (drift : Int) (api after : Api) (id : String) : Prop
  | kept (lease : after.lease = api.lease)
  | written (request : LeaseWrite) (sender : String) (now : Int) (sent : request.SentBy drift api sender now)
      (lease : after.lease = (request.apply api.lease).2)
  | deleted (since : Int) (held : Holds api.lease id since) (lease : after.lease = api.lease.delete)

theorem Change.saw (change : Change drift api after id) (entry : Nat × Lease) (saw : api.lease.Saw entry) :
    after.lease.Saw entry := by
  cases change with
  | kept lease => rwa [lease]
  | written request sender now sent lease =>
    rw [lease]
    cases request with
    | create new => exact saw.create new
    | replace version new => exact saw.replace version new
    | delete => exact saw.delete
  | deleted since held lease =>
    rw [lease]
    exact saw.delete

theorem Timely.earlier (clock : api.clock ≤ after.clock) (timely : Timely drift after.clock since) :
    Timely drift api.clock since := by
  unfold Timely at *
  omega

theorem Change.holds {other : String} (change : Change drift api after id) (clock : api.clock ≤ after.clock)
    (different : other ≠ id) (held : Holds api.lease other since) (timely : Timely drift after.clock since) :
    Holds after.lease other since := by
  cases change with
  | kept lease => rwa [lease]
  | written request sender now sent lease =>
    rw [lease]
    exact held.apply (timely.earlier clock) sent
  | deleted taken own lease => exact absurd (held.unique own) different

/-- A replica calls at instants that a lease can hold, sends what follows from what it read, and has the lease until
its last renewal ends. -/
structure Replica.Fine (drift : Int) (api : Api) (r : Replica) : Prop where
  ready : ∀ leads now, r.phase = .calling leads now → representable now
  sent : ∀ leads now request, r.phase = .sending leads now request → request.SentBy drift api r.id now
  holds : ∀ since, r.phase.stake = some since → Timely drift api.clock since → Holds api.lease r.id since

theorem Replica.Fine.change {r : Replica} (fine : r.Fine drift api) (clock : api.clock ≤ after.clock)
    (change : Change drift api after id) (different : r.id ≠ id) : r.Fine drift after where
  ready := fine.ready
  sent leads now request sending := LeaseWrite.SentBy.later (fine.sent leads now request sending) clock change.saw
  holds since stake timely := change.holds clock different (fine.holds since stake (timely.earlier clock)) timely

theorem Replica.Fine.kept {r : Replica} (fine : r.Fine drift api) (clock : api.clock ≤ after.clock)
    (lease : after.lease = api.lease) : r.Fine drift after where
  ready := fine.ready
  sent leads now request sending := by
    refine LeaseWrite.SentBy.later (fine.sent leads now request sending) clock ?_
    rw [lease]
    exact fun _ saw => saw
  holds since stake timely := by
    rw [lease]
    exact fine.holds since stake (timely.earlier clock)

theorem fine_idle (api : Api) {r : Replica} {phase : Phase} (idle : phase = .campaigning ∨ phase = .exited) :
    (r.to phase).Fine drift api := by
  rcases idle with rfl | rfl <;> exact ⟨nofun,(fun _ _ _ same => nomatch same),nofun⟩

theorem fine_failed (api : Api) (r : Replica) (leads : Option Int) : (r.to (failed leads)).Fine drift api := by
  cases leads with
  | none => exact fine_idle api (.inl rfl)
  | some since => exact fine_idle api (.inr rfl)

theorem Replica.Fine.hold {r : Replica} {phase : Phase} (fine : r.Fine drift api) (stake : phase.stake = r.phase.stake)
    (rest : (∀ leads now, phase = .calling leads now → representable now) ∧
      ∀ leads now request, phase = .sending leads now request → request.SentBy drift api r.id now) :
    (r.to phase).Fine drift api where
  ready := rest.1
  sent := rest.2
  holds since held := fine.holds since (stake.symm.trans held)

theorem Replica.Fine.release {r : Replica} {phase : Phase} {since : Int} (fine : r.Fine drift api)
    (stopping : phase = .releasing since ∨ phase = .deleting since) (stake : r.phase.stake = some since) :
    (r.to phase).Fine drift api := by
  rcases stopping with rfl | rfl <;> exact fine.hold stake.symm ⟨nofun,(fun _ _ _ same => nomatch same)⟩

/-- What a step does with the replica that takes it and with the interface. -/
structure Advanced (drift : Int) (api : Api) (r : Replica) (done : Api × Replica) : Prop where
  id : done.2.id = r.id
  clock : api.clock ≤ done.1.clock
  change : Change drift api done.1 r.id
  strays : ∀ request ∈ done.1.stray, request ∈ api.stray ∨ request = .delete ∨
    ∃ sender now,request.SentBy drift api sender now
  fine : done.2.Fine drift done.1

theorem advanced_phase {r : Replica} {phase : Phase} (fine : (r.to phase).Fine drift api) :
    Advanced drift api r (api,r.to phase) :=
  ⟨rfl,Int.le_refl _,.kept rfl,fun _ inside => .inl inside,fine⟩

theorem advanced_same {r : Replica} (fine : r.Fine drift api) : Advanced drift api r (api,r) :=
  ⟨rfl,Int.le_refl _,.kept rfl,fun _ inside => .inl inside,fine⟩

theorem advanced_strays {r : Replica} {phase : Phase} (fine : (r.to phase).Fine drift api)
    (known : request = .delete ∨ ∃ sender now,request.SentBy drift api sender now) :
    Advanced drift api r (api.strays request,r.to phase) := by
  refine ⟨rfl,Int.le_refl _,.kept rfl,fun other inside => ?_,fine.kept (Int.le_refl _) rfl⟩
  rcases List.mem_cons.mp inside with rfl | inside
  · exact .inr known
  · exact .inl inside

section
variable {r : Replica} (fine : r.Fine drift api)
include fine

theorem receive_advanced (answered : Bool) {later : Int} (bound : later ≤ api.clock + drift)
    (forward : ∀ leads now, r.phase = .calling leads now → ∀ entry ∈ api.lease.content, entry.2.holder = some r.id →
      ∀ renewed ∈ entry.2.renewed, renewed ≤ micros now) : Advanced drift api r (receive api r answered later) := by
  unfold receive
  split
  next leads now calling =>
    split
    next request asked =>
      cases answered with
      | false => cases asked
      | true =>
        have sent := acquireOrRenew_sent (fine.ready leads now calling) bound (forward leads now calling) asked
        refine advanced_phase (fine.hold (by rw [calling]; cases leads <;> rfl) ⟨nofun,?_⟩)
        rintro _ _ _ ⟨⟩
        exact sent
    next => exact advanced_phase (fine_failed api r leads)
  next since releasing =>
    split
    next => exact advanced_phase (fine.release (.inr rfl) (by rw [releasing]; rfl))
    next => exact advanced_phase (fine_idle api (.inr rfl))
  next => exact advanced_same fine

theorem transmit_advanced (arrives answered : Bool)
    (inTime : ∀ since, arrives = true → r.phase = .deleting since → Timely drift api.clock since) :
    Advanced drift api r (transmit api r arrives answered) := by
  unfold transmit
  split
  next leads now request sending =>
    have sent := fine.sent leads now request sending
    cases arrives with
    | false => exact advanced_strays (fine_failed api r leads) (.inr ⟨_,_,sent⟩)
    | true =>
      refine ⟨rfl,Int.le_refl _,.written request r.id now sent rfl,fun _ inside => .inl inside,?_⟩
      simp only [if_true]
      split
      next confirmed =>
        refine ⟨nofun,(fun _ _ _ same => nomatch same),?_⟩
        rintro _ ⟨⟩ _
        exact LeaseWrite.SentBy.holds sent (Bool.and_eq_true_iff.mp confirmed).1
      next => exact fine_failed _ r leads
  next since deleting =>
    cases arrives with
    | false => exact advanced_strays (fine_idle api (.inr rfl)) (.inl rfl)
    | true =>
      have held := fine.holds since (by rw [deleting]; rfl) (inTime since rfl deleting)
      exact ⟨rfl,Int.le_refl _,.deleted since held rfl,fun _ inside => .inl inside,fine_idle _ (.inr rfl)⟩
  next => exact advanced_same fine

theorem halt_advanced : Advanced drift api r (halt api r) := by
  unfold halt
  split
  next since leading => exact advanced_phase (fine.release (.inl rfl) (by rw [leading]; rfl))
  next since now calling => exact advanced_phase (fine.release (.inl rfl) (by rw [calling]; rfl))
  next since now request sending =>
    exact advanced_strays (fine.release (.inl rfl) (by rw [sending]; rfl)) (.inr ⟨_,_,fine.sent _ _ _ sending⟩)
  next now request sending => exact advanced_strays (fine_idle api (.inr rfl)) (.inr ⟨_,_,fine.sent _ _ _ sending⟩)
  next => exact advanced_same fine
  next => exact advanced_same fine
  next => exact advanced_phase (fine_idle api (.inr rfl))

theorem crash_advanced : Advanced drift api r (crash api r) := by
  unfold crash
  split
  next leads now request sending => exact advanced_strays (fine_idle api (.inr rfl)) (.inr ⟨_,_,fine.sent _ _ _ sending⟩)
  next => exact advanced_strays (fine_idle api (.inr rfl)) (.inl rfl)
  next => exact advanced_phase (fine_idle api (.inr rfl))

end

end

/-- What holds in every state of a run: the replicas keep their names, and are as their phases say. -/
structure Sound (names : Nat → String) (drift : Int) (s : Operators) : Prop where
  named : ∀ i, (s.locals i).id = names i
  strays : ∀ request ∈ s.shared.stray, request = .delete ∨ ∃ sender now,request.SentBy drift s.shared sender now
  fine : ∀ i, (s.locals i).Fine drift s.shared

section
variable {names : Nat → String} {drift : Int}

theorem started_sound (lease : Versioned Lease) (clock : Int) : Sound names drift (started names lease clock) where
  named _ := rfl
  strays _ inside := absurd inside List.not_mem_nil
  fine _ := ⟨nofun,(fun _ _ _ same => nomatch same),nofun⟩

theorem advance_advanced {s : Operators} (sound : Sound names drift s) {i : Nat} {action : Action}
    (given : fair drift s (i,action) = true) : Advanced drift s.shared (s.locals i) (advance s.shared (s.locals i) action) := by
  have fine := sound.fine i
  cases action with
  | tick passed =>
    have clock : s.shared.clock ≤ s.shared.clock + passed := Int.le_add_of_nonneg_right (Int.natCast_nonneg passed)
    exact ⟨rfl,clock,.kept rfl,fun _ inside => .inl inside,fine.kept clock rfl⟩
  | arrive k =>
    simp only [advance,Api.arrive]
    cases found : s.shared.stray[k]? with
    | none => exact advanced_same fine
    | some request =>
      have inside := List.mem_of_getElem? found
      have kept : request ≠ .delete := by
        rintro rfl
        simp [fair,found] at given
      obtain ⟨sender,now,sent⟩ := (sound.strays request inside).resolve_left kept
      have change : Change drift s.shared
          { s.shared with lease := (request.apply s.shared.lease).2,stray := s.shared.stray.eraseIdx k } (s.locals i).id :=
        .written request sender now sent rfl
      refine ⟨rfl,Int.le_refl _,change,fun _ left => .inl (List.mem_of_mem_eraseIdx left),?_⟩
      refine ⟨fine.ready,fun leads now request sending => ?_,fun since stake timely => ?_⟩
      · exact LeaseWrite.SentBy.later (fine.sent leads now request sending) (Int.le_refl _) change.saw
      · exact (fine.holds since stake timely).apply timely sent
  | call now =>
    have ready : representable now = true := given
    simp only [advance]
    split
    next => exact advanced_phase ⟨by rintro _ _ ⟨⟩; exact ready,(fun _ _ _ same => nomatch same),nofun⟩
    next since leading =>
      refine advanced_phase (fine.hold (by rw [leading]; rfl) ⟨?_,(fun _ _ _ same => nomatch same)⟩)
      rintro _ _ ⟨⟩
      exact ready
    next => exact advanced_same fine
  | get answered later =>
    obtain ⟨bound,forward⟩ := Bool.and_eq_true_iff.mp given
    refine receive_advanced fine answered (of_decide_eq_true bound) ?_
    intro leads now calling entry content own renewed shown
    simp only [calling] at forward
    rw [content] at forward
    simp only [Option.all_some,own,ne_eq,not_true_eq_false,decide_false,Bool.false_or] at forward
    rw [shown] at forward
    exact of_decide_eq_true forward
  | send arrives answered =>
    refine transmit_advanced fine arrives answered ?_
    rintro since rfl deleting
    simp only [fair,deleting] at given
    exact of_decide_eq_true given
  | stop => exact halt_advanced fine
  | crash => exact crash_advanced fine
  | restart =>
    simp only [advance]
    split
    next => exact advanced_phase (fine_idle _ (.inl rfl))
    next => exact advanced_same fine

theorem step_sound (distinct : Function.Injective names) (s : Operators) (input : Nat × Action) (sound : Sound names drift s)
    (given : fair drift s input = true) : Sound names drift (step s input) := by
  obtain ⟨i,action⟩ := input
  have done := advance_advanced sound given
  refine ⟨fun j => ?_,fun request inside => ?_,fun j => ?_⟩
  · by_cases same : j = i
    · subst same
      rw [step,Processes.step_self,done.id]
      exact sound.named j
    · rw [step,Processes.step_other _ _ same]
      exact sound.named j
  · rcases done.strays request inside with old | rest
    · rcases sound.strays request old with gone | ⟨sender,now,sent⟩
      · exact .inl gone
      · exact .inr ⟨sender,now,LeaseWrite.SentBy.later sent done.clock done.change.saw⟩
    · rcases rest with gone | ⟨sender,now,sent⟩
      · exact .inl gone
      · exact .inr ⟨sender,now,LeaseWrite.SentBy.later sent done.clock done.change.saw⟩
  · by_cases same : j = i
    · subst same
      rw [step,Processes.step_self]
      exact done.fine
    · rw [step,Processes.step_other _ _ same]
      refine (sound.fine j).change done.clock done.change ?_
      rw [sound.named,sound.named]
      exact fun equal => same (distinct equal)

/-- At most one replica has its controller running within the time of its lease. -/
def OneLeader (drift : Int) (s : Operators) : Prop :=
  ∀ i j since since', (s.locals i).phase.tenure = some since → (s.locals j).phase.tenure = some since' →
    Timely drift s.shared.clock since → Timely drift s.shared.clock since' → i = j

theorem tenure_stake {phase : Phase} {since : Int} (leads : phase.tenure = some since) : phase.stake = some since := by
  cases phase with
  | releasing _ => cases leads
  | deleting _ => cases leads
  | _ => exact leads

theorem Sound.leads_alone {s : Operators} (sound : Sound names drift s) (distinct : Function.Injective names) :
    OneLeader drift s := by
  intro i j since since' first second timely timely'
  have one := (sound.fine i).holds since (tenure_stake first) timely
  have other := (sound.fine j).holds since' (tenure_stake second) timely'
  rw [sound.named] at one other
  exact distinct (one.unique other)

end

def podName (i : Nat) : String := String.ofList (List.replicate (i + 1) 'o')

theorem podName_injective : Function.Injective podName := by
  intro i j same
  have sizes := congrArg (fun name => name.toList.length) same
  simpa [podName] using sizes

private def acquires (i : Nat) (now : Int) : List (Nat × Action) :=
  [(i,.call now),(i,.get true now),(i,.send true true)]

/-- The first replica renews no more, and another one takes the lease over when it has ended. -/
def takeover : List (Nat × Action) :=
  acquires 0 0 ++ [(1,.call 0),(1,.get true 0),(0,.tick 16000000000)] ++ acquires 1 16000000000

/-- A replica that is told to stop deletes the lease after another one has taken it over, and a third one takes it again. -/
def lateDeletion : List (Nat × Action) :=
  acquires 0 0 ++ [(0,.stop),(0,.get true 0),(0,.tick 16000000000)] ++ acquires 1 16000000000 ++ [(0,.send true true)] ++
    acquires 2 16000000000

example : ¬OneLeader 0 (run step (started podName .empty 0) lateDeletion) := by
  intro one
  exact absurd (one 1 2 16000000000 16000000000 (by decide) (by decide) (by decide) (by decide)) (by decide)

end Ecphoria.Election
