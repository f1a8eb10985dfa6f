import Ecphoria.Cluster.LogRecovery

/-! Crashes of the state machine. An apply writes the membership of an entry before the
entry's log id, an install writes them the other way round; a crash leaves what was
written so far, and the store is opened again. -/
namespace Ecphoria.Raft
open Library

/-- The log that is applied, each entry at the index of its id. -/
structure CommittedLog (M R : Type) where
  entries : List (Entry M R)
  indexed : ∀ (i : Nat) (entry : Entry M R), entries[i]? = some entry → entry.logId.index = i

section
variable {V M R B Answer : Type} [Inhabited M] (wire : Wire V M R B) (log : CommittedLog M R)

def reach : Option LogId → Nat
  | some id => id.index + 1
  | none => 0

def Entry.effect (stored : StoredMembership M) (entry : Entry M R) : StoredMembership M :=
  match entry.payload with
  | .membership m => ⟨some entry.logId,m⟩
  | _ => stored

def membershipOf (entries : List (Entry M R)) : StoredMembership M := entries.foldl Entry.effect default

/-- The membership of the latest membership entry at or below a log id. -/
def CommittedLog.membershipAt (id : Option LogId) : StoredMembership M := membershipOf (log.entries.take (reach id))

/-- The membership read back is the one at the last applied id read back. -/
def Exact (db : Disk B) : Prop := (hydrate wire db).lastMembership = log.membershipAt (hydrate wire db).lastApplied

/-- The membership read back is that of the entry that is applied next. -/
def Leads (db : Disk B) : Prop :=
  ∃ entry m, log.entries[reach (hydrate wire db).lastApplied]? = some entry ∧ entry.payload = .membership m ∧
    (hydrate wire db).lastMembership = ⟨some entry.logId,m⟩

inductive MachineCall (M R Answer : Type) where
  | applyToStateMachine (ok : Answer) (engine : LogId → R → Option Answer) (entries : List (Entry M R))
  | installSnapshot (restores : List UInt8 → Bool) (info : SnapshotMeta M) (data : List UInt8)

def MachineCall.perform : MachineCall M R Answer → StoreM V M R B Unit
  | .applyToStateMachine ok engine entries => do
    let _ ← Raft.applyToStateMachine wire ok engine entries
    pure ()
  | .installSnapshot restores info data => Raft.installSnapshot wire restores info data

/-- A call that stops at a write, or fails otherwise, brings the node down, and the store is opened again. -/
def StoreInner.survive (s : StoreInner V M R B) (input : (Nat → Write → Bool) × MachineCall M R Answer) :
    StoreInner V M R B :=
  match (input.2.perform wire).exec input.1 s with
  | (.ok _,s) => s
  | (.error _,s) => .opened wire s.db

/-- Entries are applied in the order of the log, and a snapshot has the membership of its id. -/
def Fed (s : StoreInner V M R B) : MachineCall M R Answer → Prop
  | .applyToStateMachine _ _ entries => entries <+: log.entries.drop (reach s.cache.lastApplied)
  | .installSnapshot _ info _ => info.lastMembership = log.membershipAt info.lastLogId

/-- No crash falls between the two writes of an install. -/
def Whole (faults : Nat → Write → Bool) : MachineCall M R Answer → Prop
  | .applyToStateMachine _ _ _ => True
  | .installSnapshot _ _ _ => ∀ n, faults n (.info .lastMembership) = false

variable {wire log}

theorem membershipOf_succ {k : Nat} {entry : Entry M R} (found : log.entries[k]? = some entry) :
    membershipOf (log.entries.take (k + 1)) = entry.effect (membershipOf (log.entries.take k)) := by
  rw [List.take_add_one,found,membershipOf,List.foldl_append]
  rfl

structure Settled (wire : Wire V M R B) (log : CommittedLog M R) (s : StoreInner V M R B) : Prop where
  cached : s.cache.lastApplied = (hydrate wire s.db).lastApplied
  known : Exact wire log s.db ∨ Leads wire log s.db

structure SettledAt (wire : Wire V M R B) (log : CommittedLog M R) (k : Nat) (s : StoreInner V M R B) : Prop
    extends Settled wire log s where
  here : reach (hydrate wire s.db).lastApplied = k

/-- Before the id of the next entry is written, with its membership on disk. -/
structure Ready (wire : Wire V M R B) (log : CommittedLog M R) (k : Nat) (s : StoreInner V M R B) : Prop where
  known : Exact wire log s.db ∨ Leads wire log s.db
  here : reach (hydrate wire s.db).lastApplied = k
  written : (hydrate wire s.db).lastMembership = membershipOf (log.entries.take (k + 1))

def Known (wire : Wire V M R B) (log : CommittedLog M R) (s : StoreInner V M R B) : Prop :=
  Exact wire log s.db ∨ Leads wire log s.db

section
variable {faults : Nat → Write → Bool} {k : Nat} {entry : Entry M R} {s : StoreInner V M R B} {data : B}

theorem ready_other (settled : SettledAt wire log k s) (found : log.entries[k]? = some entry)
    (other : ∀ m, entry.payload ≠ .membership m) : Ready wire log k s where
  known := settled.known
  here := settled.here
  written := by
    rw [membershipOf_succ found]
    have same : entry.effect (membershipOf (log.entries.take k)) = membershipOf (log.entries.take k) := by
      unfold Entry.effect
      split
      next m is => exact absurd is (other m)
      next => rfl
    rw [same]
    rcases settled.known with already | ⟨entry',m,found',is,_⟩
    · rw [Exact,CommittedLog.membershipAt,settled.here] at already
      exact already
    · rw [settled.here] at found'
      cases found.symm.trans found'
      exact absurd is (other m)

theorem ready_membership {m : M} (here : reach (hydrate wire s.db).lastApplied = k)
    (found : log.entries[k]? = some entry) (is : entry.payload = .membership m)
    (back : wire.membership.decode data = some ⟨some entry.logId,m⟩) :
    Ready wire log k { s with db := s.db.saved .lastMembership data } := by
  have stored : (hydrate wire (s.db.saved .lastMembership data)).lastMembership = ⟨some entry.logId,m⟩ := by
    change ((some data).bind wire.membership.decode).getD default = _
    rw [Option.bind_some,back,Option.getD_some]
  have applied : reach (hydrate wire (s.db.saved .lastMembership data)).lastApplied = k := here
  exact {
    known := Or.inr ⟨entry,m,by rw [applied,found],is,stored⟩
    here := applied
    written := by rw [stored,membershipOf_succ found,Entry.effect,is] }

theorem settled_applied (ready : Ready wire log k s) (found : log.entries[k]? = some entry)
    (back : wire.logId.decode data = some entry.logId) :
    SettledAt wire log (k + 1) ⟨s.db.saved .lastApplied data,{ s.cache with lastApplied := some entry.logId }⟩ := by
  have applied : (hydrate wire (s.db.saved .lastApplied data)).lastApplied = some entry.logId := back
  have reached : reach (some entry.logId) = k + 1 := by rw [reach,log.indexed k entry found]
  refine ⟨⟨applied.symm,Or.inl ?_⟩,by rw [applied,reached]⟩
  rw [Exact,applied,CommittedLog.membershipAt,reached]
  exact ready.written

theorem applyPayload_ready (plain : wire.Plain) (ok : Answer) (engine : LogId → R → Option Answer)
    (found : log.entries[k]? = some entry) :
    Triple faults (SettledAt wire log k) (applyPayload wire ok engine entry) (fun _ => Ready wire log k)
      (Known wire log) := by
  rw [applyPayload]
  split
  next is => exact Triple.pure (fun s settled => ready_other settled found (by simp [is]))
  next request is =>
    split
    next => exact Triple.pure (fun s settled => ready_other settled found (by simp [is]))
    next => exact Triple.stop (fun s settled => settled.known)
  next m is =>
    obtain ⟨data,made,back⟩ := plain.membership ⟨some entry.logId,m⟩
    -- the cache is changed first; what is on disk is still as it was
    have changed : Triple faults (SettledAt wire log k)
        (remember (fun cache => { cache with lastMembership := ⟨some entry.logId,m⟩ }) : StoreM V M R B Unit)
        (fun _ s => Known wire log s ∧ reach (hydrate wire s.db).lastApplied = k) (Known wire log) :=
      Triple.change (fun s settled => ⟨settled.known,settled.here⟩)
    refine changed.bind (fun _ => encoded_bind (fun data' made' => ?_) (fun none => ?_))
    · cases Option.some.inj (made.symm.trans made')
      refine Triple.bind (R := fun _ => Ready wire log k) ?_ (fun _ => Triple.pure (fun _ given => given))
      exact Triple.write (fun s given => ready_membership given.2 found is back) (Or.inr (fun _ given => given.1))
    · rw [made] at none
      cases none

theorem applyToStateMachine_settled (plain : wire.Plain) (ok : Answer) (engine : LogId → R → Option Answer)
    (entries : List (Entry M R)) (next : entries <+: log.entries.drop k) :
    Triple faults (SettledAt wire log k) (applyToStateMachine wire ok engine entries) (fun _ => Settled wire log)
      (Known wire log) := by
  induction entries generalizing k with
  | nil => exact Triple.pure (fun _ settled => settled.toSettled)
  | cons entry entries ih =>
    obtain ⟨rest,split⟩ := next
    have found : log.entries[k]? = some entry := by
      rw [← List.head?_drop,← split]
      rfl
    have later : entries <+: log.entries.drop (k + 1) := by
      refine ⟨rest,?_⟩
      rw [← List.drop_drop,← split]
      rfl
    refine (applyPayload_ready plain ok engine found).bind (fun answer => encodedId_bind plain (fun data back => ?_))
    refine Triple.write_change_then (fun s ready => settled_applied ready found back)
      (Or.inr (fun _ ready => ready.known)) ?_
    exact (ih later).bind (fun _ => Triple.pure (fun _ given => given))

theorem installSnapshot_settled (plain : wire.Plain) (restores : List UInt8 → Bool) (info : SnapshotMeta M)
    (bytes : List UInt8) (taken : info.lastMembership = log.membershipAt info.lastLogId)
    (whole : ∀ n, faults n (.info .lastMembership) = false) :
    Triple faults (Settled wire log) (installSnapshot wire restores info bytes) (fun _ => Settled wire log)
      (Known wire log) := by
  rw [installSnapshot]
  split
  next => exact Triple.stop (fun _ settled => settled.known)
  next =>
    split
    next => exact Triple.stop (fun _ settled => settled.known)
    next =>
      obtain ⟨stored,made,back⟩ := plain.membership info.lastMembership
      have changed : Triple faults (Settled wire log)
          (remember (fun cache => { cache with
            lastApplied := info.lastLogId, lastMembership := info.lastMembership, snapshot := some ⟨info,bytes⟩ }) :
            StoreM V M R B Unit)
          (fun _ s => Known wire log s ∧ s.cache.lastApplied = info.lastLogId) (Known wire log) :=
        Triple.change (fun s settled => ⟨settled.known,rfl⟩)
      refine changed.bind (fun _ => encodedId_bind plain (fun applied reads => ?_))
      refine Triple.bind (R := fun _ s => s.cache.lastApplied = info.lastLogId ∧
        (hydrate wire s.db).lastApplied = info.lastLogId) ?_ (fun _ => encoded_bind (fun stored' made' => ?_) (fun none => ?_))
      · exact Triple.write (fun s given => ⟨given.2,reads⟩) (Or.inr (fun _ given => given.1))
      · cases Option.some.inj (made.symm.trans made')
        refine Triple.write (fun s given => ⟨?_,Or.inl ?_⟩) (Or.inl whole)
        · exact given.1.trans given.2.symm
        · have applied : (hydrate wire (s.db.saved .lastMembership stored)).lastApplied = info.lastLogId := given.2
          rw [Exact,applied,← taken]
          change ((some stored).bind wire.membership.decode).getD default = _
          rw [Option.bind_some,back,Option.getD_some]
      · rw [made] at none
        cases none

theorem settled_opened {db : Disk B} (known : Exact wire log db ∨ Leads wire log db) :
    Settled wire log (.opened wire db) := ⟨rfl,known⟩

theorem settled_survive (plain : wire.Plain) {input : (Nat → Write → Bool) × MachineCall M R Answer}
    (settled : Settled wire log s) (fed : Fed log s input.2) (whole : Whole input.1 input.2) :
    Settled wire log (s.survive wire input) := by
  obtain ⟨faults,c⟩ := input
  have performed : Triple faults (SettledAt wire log (reach s.cache.lastApplied)) (c.perform wire)
      (fun _ => Settled wire log) (Known wire log) := by
    cases c with
    | applyToStateMachine ok engine entries =>
      exact (applyToStateMachine_settled plain ok engine entries fed).bind (fun _ => Triple.pure (fun _ given => given))
    | installSnapshot restores info data =>
      refine (installSnapshot_settled plain restores info data fed whole).mono ?_ ?_ ?_
      · exact fun _ settled => settled.toSettled
      · exact fun _ _ given => given
      · exact fun _ given => given
  have reached := performed.exec ⟨settled,by rw [settled.cached]⟩
  rw [StoreInner.survive]
  split at reached
  next done =>
    rw [done]
    exact reached
  next done =>
    rw [done]
    exact settled_opened reached

end

/-- Wherever a run crashes, the membership read back is the one at the last applied id, or that of the entry that
was being applied, unless the crash falls between the two writes of an install. -/
theorem membership_recovered (plain : wire.Plain) (log : CommittedLog M R)
    (inputs : List ((Nat → Write → Bool) × MachineCall M R Answer))
    (fed : Along (StoreInner.survive wire) (fun s input => Fed log s input.2) (.opened wire Disk.empty) inputs)
    (whole : ∀ input ∈ inputs, Whole input.1 input.2) :
    Throughout (StoreInner.survive wire) (fun s => Exact wire log s.db ∨ Leads wire log s.db)
      (.opened wire Disk.empty) inputs := by
  intro n
  have start : Settled wire log (.opened wire Disk.empty) := settled_opened (Or.inl rfl)
  have whole : Along (StoreInner.survive wire) (fun _ input => Whole input.1 input.2) (.opened wire Disk.empty) inputs :=
    Along.of_forall whole
  have both := (fed.and whole).take n
  exact (both.invariant start (fun _ _ settled given => settled_survive plain settled given.1 given.2)).known

end

/-- Two memberships, with a request between them. -/
def reconfigured : CommittedLog (List Nat) Nat where
  entries := [founding,normalEntry 1,⟨⟨1,1,2⟩,.membership [1,2,4]⟩]
  indexed := by
    intro i entry found
    match i with
    | 0 | 1 | 2 =>
      cases found
      rfl
    | _ + 3 => cases found

/-- The first entry is cut off before its id is written. -/
def cutApply : (Nat → Write → Bool) × MachineCall (List Nat) Nat Unit :=
  (fun _ w => w = .info .lastApplied,.applyToStateMachine () (fun _ _ => some ()) [founding])

/-- It is applied again with the next, and a snapshot of the whole log is installed. -/
def crashing : List ((Nat → Write → Bool) × MachineCall (List Nat) Nat Unit) :=
  [cutApply,(fun _ _ => false,.applyToStateMachine () (fun _ _ => some ()) [founding,normalEntry 1]),
    (fun _ _ => false,.installSnapshot (fun _ => true) ⟨some ⟨1,1,2⟩,⟨some ⟨1,1,2⟩,[1,2,4]⟩,"1-2"⟩ [0])]

theorem membership_recovered_crashing :
    Throughout (StoreInner.survive compactWire) (fun s => Exact compactWire reconfigured s.db ∨
      Leads compactWire reconfigured s.db) (.opened compactWire Disk.empty) crashing := by
  refine membership_recovered compactWire_plain reconfigured crashing ⟨⟨_,rfl⟩,⟨_,rfl⟩,rfl,trivial⟩ ?_
  intro input inside
  simp only [crashing,List.mem_cons,List.not_mem_nil,or_false] at inside
  rcases inside with rfl | rfl | rfl
  · trivial
  · trivial
  · exact fun _ => rfl

/-- After the cut, a membership is read back that no applied entry has. -/
theorem cut_apply_leads :
    ¬Exact compactWire reconfigured ((StoreInner.opened compactWire Disk.empty).survive compactWire cutApply).db := by
  intro already
  have ids : some (⟨1,1,0⟩ : LogId) = none := congrArg StoredMembership.logId already
  cases ids

end Ecphoria.Raft
