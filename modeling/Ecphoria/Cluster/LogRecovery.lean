import Ecphoria.Cluster.RaftLog
import Ecphoria.Library.MessagePack

/-! Opening the store again. The tables and the cache agree after every call, also after
one that failed, except where a call changes the cache before the table it writes. -/
namespace Ecphoria.Raft
open Library

section
variable {V M R B Answer : Type} (wire : Wire V M R B)

theorem asI64_of_lt {n : Nat} (small : n < 2 ^ 63) : asI64 n = n := if_pos small

theorem asU64_of_nonneg {i : Int} (nonneg : 0 ≤ i) : asU64 i = i.toNat := by
  rw [asU64,if_pos nonneg]

theorem hydrateRow_self (log : Nat → Option (Entry M R)) (row : LogRow B) :
    hydrateRow wire log row (asU64 row.idx) = (wire.entry.decode row.entry).or (log (asU64 row.idx)) := by
  rw [hydrateRow]
  cases wire.entry.decode row.entry with
  | some entry => exact Function.update_self _ _ _
  | none => rfl

theorem hydrateRow_other {log : Nat → Option (Entry M R)} {row : LogRow B} {n : Nat} (other : asU64 row.idx ≠ n) :
    hydrateRow wire log row n = log n := by
  rw [hydrateRow]
  cases wire.entry.decode row.entry with
  | some entry => exact Function.update_of_ne (Ne.symm other) _ _
  | none => rfl

theorem hydrateRows_other {rows : List (LogRow B)} {n : Nat} (other : ∀ row ∈ rows, asU64 row.idx ≠ n)
    (log : Nat → Option (Entry M R)) : rows.foldl (hydrateRow wire) log n = log n := by
  induction rows generalizing log with
  | nil => rfl
  | cons row rows ih =>
    rw [List.foldl_cons,ih (fun row inside => other row (List.mem_cons_of_mem _ inside)),
      hydrateRow_other wire (other row (by simp))]

theorem hydrateRows_mem {rows : List (LogRow B)} (distinct : (rows.map (fun row => asU64 row.idx)).Nodup)
    {row : LogRow B} (inside : row ∈ rows) {log : Nat → Option (Entry M R)} (free : log (asU64 row.idx) = none) :
    rows.foldl (hydrateRow wire) log (asU64 row.idx) = wire.entry.decode row.entry := by
  induction rows generalizing log with
  | nil => cases inside
  | cons first rows ih =>
    rw [List.map_cons,List.nodup_cons] at distinct
    rw [List.foldl_cons]
    rcases List.mem_cons.mp inside with rfl | later
    · rw [hydrateRows_other]
      · rw [hydrateRow_self,free,Option.or_none]
      · intro other member same
        exact distinct.1 (List.mem_map.mpr ⟨other,member,same⟩)
    · refine ih distinct.2 later ?_
      rw [hydrateRow_other,free]
      intro same
      exact distinct.1 (List.mem_map.mpr ⟨row,later,same.symm⟩)

theorem hydrateLog_find {t : Table (LogRow B) LogRow.idx} (range : ∀ row ∈ t.rows, 0 ≤ row.idx ∧ row.idx < 2 ^ 63)
    (n : Nat) : hydrateLog wire t.rows n = (t.find n).bind (fun row => wire.entry.decode row.entry) := by
  have sorted := List.mergeSort_perm t.rows (fun a b => a.idx ≤ b.idx)
  have read {row : LogRow B} (inside : row ∈ t.rows) : asU64 row.idx = row.idx.toNat :=
    asU64_of_nonneg (range row inside).1
  rw [hydrateLog]
  cases found : t.find n with
  | none =>
    refine hydrateRows_other wire (fun row inside same => ?_) _
    have member := sorted.mem_iff.mp inside
    rw [read member] at same
    have mine : row.idx = n := by
      have nonneg := (range row member).1
      omega
    exact (Table.find_eq_none _ _).mp found ((Table.mem_keys _ _).mpr ⟨row,member,mine⟩)
  | some row =>
    obtain ⟨member,mine⟩ := (Table.find_eq_some _ _ _).mp found
    have placed : asU64 row.idx = n := by rw [read member,mine,Int.toNat_natCast]
    rw [← placed]
    refine hydrateRows_mem wire ?_ (sorted.mem_iff.mpr member) rfl
    refine (sorted.map _).nodup_iff.mpr ?_
    refine List.Nodup.map_on ?_ (List.Nodup.of_map _ t.unique)
    intro first inFirst second inSecond same
    rw [read inFirst,read inSecond] at same
    refine Table.eq_of_key t inFirst inSecond ?_
    have := (range first inFirst).1
    have := (range second inSecond).1
    omega

inductive StoreCall (V M R Answer : Type) where
  | saveVote (vote : V)
  | saveCommitted (committed : Option LogId)
  | appendToLog (entries : List (Entry M R))
  | deleteConflictLogsSince (logId : LogId)
  | purgeLogsUpto (logId : LogId)
  | applyToStateMachine (ok : Answer) (engine : LogId → R → Option Answer) (entries : List (Entry M R))
  | installSnapshot (restores : List UInt8 → Bool) (info : SnapshotMeta M) (data : List UInt8)

def StoreCall.perform : StoreCall V M R Answer → StoreM V M R B Unit
  | .saveVote vote => Raft.saveVote wire vote
  | .saveCommitted committed => Raft.saveCommitted wire committed
  | .appendToLog entries => Raft.appendToLog wire entries
  | .deleteConflictLogsSince logId => Raft.deleteConflictLogsSince logId
  | .purgeLogsUpto logId => Raft.purgeLogsUpto wire logId
  | .applyToStateMachine ok engine entries => do
    let _ ← Raft.applyToStateMachine wire ok engine entries
    pure ()
  | .installSnapshot restores info data => Raft.installSnapshot wire restores info data

/-- A call with the faults it meets, or the store closed and opened again. -/
inductive StoreInput (V M R Answer : Type) where
  | call (faults : Nat → Write → Bool) (c : StoreCall V M R Answer)
  | reopen

section
variable {wire} {faults : Nat → Write → Bool} {P E : StoreInner V M R B → Prop}

theorem encoded_bind {α β : Type} {c : Codec α B} {a : α} {rest : B → StoreM V M R B β}
    {Q : β → StoreInner V M R B → Prop} (each : ∀ data, c.encode a = some data → Triple faults P (rest data) Q E)
    (stopped : c.encode a = none → ∀ s, P s → E s) : Triple faults P (encoded c a >>= rest) Q E := by
  rw [encoded]
  split
  next data made => exact each data made
  next none => exact fun s _ given => stopped none s given

theorem encodedId_bind (plain : wire.Plain) {β : Type} {id : Option LogId} {rest : B → StoreM V M R B β}
    {Q : β → StoreInner V M R B → Prop}
    (each : ∀ data, wire.logId.decode data = id → Triple faults P (rest data) Q E) :
    Triple faults P (encodedId wire id >>= rest) Q E := by
  cases id with
  | none => exact each wire.nil plain.nil
  | some id =>
    obtain ⟨data,made,back⟩ := plain.logId id
    refine encoded_bind (fun data' made' => ?_) (fun none => ?_)
    · cases Option.some.inj (made.symm.trans made')
      exact each data back
    · rw [made] at none
      cases none

/-! The indexes of the log. -/

/-- The index is right behind the last one of the log, unless the log is empty. -/
def Next (log : Nat → Option (Entry M R)) (index : Nat) : Prop :=
  ∀ n, (log n).isSome → n < index ∧ (log (index - 1)).isSome

def Follows : (Nat → Option (Entry M R)) → List (Entry M R) → Prop
  | _,[] => True
  | log,entry :: entries =>
    Next log entry.logId.index ∧ Follows (Function.update log entry.logId.index (some entry)) entries

def Contiguous (log : Nat → Option (Entry M R)) : Prop :=
  ∀ i j k, i ≤ j → j ≤ k → (log i).isSome → (log k).isSome → (log j).isSome

theorem next_put {log : Nat → Option (Entry M R)} {index : Nat} (next : Next log index) (entry : Entry M R) :
    Next (Function.update log index (some entry)) (index + 1) := by
  intro n found
  rw [Function.update_apply] at found
  refine ⟨?_,by simp⟩
  split at found
  next same => omega
  next => exact Nat.lt_succ_of_lt (next n found).1

theorem contiguous_put {log : Nat → Option (Entry M R)} {index : Nat} {entry : Entry M R}
    (contiguous : Contiguous log) (next : Next log index) :
    Contiguous (Function.update log index (some entry)) := by
  intro i j k ij jk first last
  simp only [Function.update_apply] at first last ⊢
  by_cases here : j = index
  · simp [here]
  · rw [if_neg here]
    split at first
    next same =>
      -- nothing of the log is behind the new entry
      split at last
      next => omega
      next => have := (next k last).1; omega
    next =>
      split at last
      next same =>
        obtain ⟨below,before⟩ := next i first
        exact contiguous i j (index - 1) ij (by omega) first before
      next => exact contiguous i j k ij jk first last

theorem contiguous_from {log : Nat → Option (Entry M R)} (contiguous : Contiguous log) (index : Nat) :
    Contiguous (fun n => if index ≤ n then none else log n) := by
  intro i j k ij jk first last
  simp only [] at first last ⊢
  split at last
  next => cases last
  next below =>
    rw [if_neg (by omega)] at first ⊢
    exact contiguous i j k ij jk first last

theorem contiguous_upto {log : Nat → Option (Entry M R)} (contiguous : Contiguous log) (index : Nat) :
    Contiguous (fun n => if n ≤ index then none else log n) := by
  intro i j k ij jk first last
  simp only [] at first last ⊢
  split at first
  next => cases first
  next above =>
    rw [if_neg (by omega)] at last ⊢
    exact contiguous i j k ij jk first last

def Orders (faults : Nat → Write → Bool) {α : Type} (m : StoreM V M R B α) : Prop :=
  Triple faults (fun s => Contiguous s.cache.log) m (fun _ s => Contiguous s.cache.log) (fun s => Contiguous s.cache.log)

theorem Orders.bind {α β : Type} {m : StoreM V M R B α} {rest : α → StoreM V M R B β} (first : Orders faults m)
    (second : ∀ a, Orders faults (rest a)) : Orders faults (m >>= rest) :=
  Triple.bind first second

theorem orders_pure {α : Type} (a : α) : Orders faults (pure a : StoreM V M R B α) :=
  Triple.pure (fun _ given => given)

theorem orders_stop {α : Type} (err : StorageError) : Orders faults (Program.stop err : StoreM V M R B α) :=
  Triple.stop (fun _ given => given)

theorem orders_write {w : Write} {f : StoreInner V M R B → StoreInner V M R B} (same : ∀ s, (f s).cache = s.cache) :
    Orders faults (Program.write w .write f) :=
  Triple.write (fun s given => by rw [same s]; exact given) (Or.inr (fun _ given => given))

theorem orders_remember {g : Cache V M R → Cache V M R}
    (kept : ∀ cache, Contiguous cache.log → Contiguous (g cache).log) :
    Orders faults (remember g : StoreM V M R B Unit) :=
  Triple.change (fun s given => kept s.cache given)

theorem orders_encoded {α : Type} (c : Codec α B) (a : α) : Orders faults (encoded c a : StoreM V M R B B) := by
  rw [encoded]
  split
  · exact orders_pure _
  · exact orders_stop _

theorem orders_encodedId (id : Option LogId) : Orders faults (encodedId wire id) := by
  cases id with
  | none => exact orders_pure _
  | some id => exact orders_encoded _ _

theorem orders_persistMeta (key : MetaKey) (data : B) : Orders faults (persistMeta key data : StoreM V M R B Unit) :=
  orders_write (fun _ => rfl)

theorem orders_appendToLog (entries : List (Entry M R)) :
    Triple faults (fun s => Contiguous s.cache.log ∧ Follows s.cache.log entries) (appendToLog wire entries)
      (fun _ s => Contiguous s.cache.log) (fun s => Contiguous s.cache.log) := by
  induction entries with
  | nil => exact Triple.pure (fun _ given => given.1)
  | cons entry entries ih =>
    have persisted : Triple faults (fun s => Contiguous s.cache.log ∧ Follows s.cache.log (entry :: entries))
        (persistEntry wire entry.logId.index entry)
        (fun _ s => Contiguous s.cache.log ∧ Follows s.cache.log (entry :: entries))
        (fun s => Contiguous s.cache.log) := by
      refine encoded_bind (fun data _ => ?_) (fun _ _ given => given.1)
      exact Triple.write (fun _ given => given) (Or.inr (fun _ given => given.1))
    refine persisted.bind (fun _ => ?_)
    refine (Triple.change_then ih).mono (fun s given => ?_) (fun _ _ given => given) (fun _ given => given)
    exact ⟨contiguous_put given.1 given.2.1,given.2.2⟩

theorem orders_applyPayload (ok : Answer) (engine : LogId → R → Option Answer) (entry : Entry M R) :
    Orders faults (applyPayload wire ok engine entry) := by
  rw [applyPayload]
  split
  next => exact orders_pure _
  next =>
    split
    next => exact orders_pure _
    next => exact orders_stop _
  next =>
    refine Orders.bind (orders_remember (fun _ given => given)) (fun _ => ?_)
    refine Orders.bind (orders_encoded _ _) (fun _ => ?_)
    exact Orders.bind (orders_persistMeta _ _) (fun _ => orders_pure _)

theorem orders_applyToStateMachine (ok : Answer) (engine : LogId → R → Option Answer) (entries : List (Entry M R)) :
    Orders faults (applyToStateMachine wire ok engine entries) := by
  induction entries with
  | nil => exact orders_pure _
  | cons entry entries ih =>
    refine Orders.bind (orders_applyPayload ok engine entry) (fun answer => ?_)
    refine Orders.bind (orders_encodedId _) (fun _ => Orders.bind (orders_persistMeta _ _) (fun _ => ?_))
    refine Orders.bind (orders_remember (fun _ given => given)) (fun _ => ?_)
    exact Orders.bind ih (fun _ => orders_pure _)

theorem orders_installSnapshot (restores : List UInt8 → Bool) (info : SnapshotMeta M) (data : List UInt8) :
    Orders faults (installSnapshot wire restores info data) := by
  rw [installSnapshot]
  split
  next => exact orders_stop _
  next =>
    split
    next => exact orders_stop _
    next =>
      refine Orders.bind (orders_remember (fun _ given => given)) (fun _ => ?_)
      refine Orders.bind (orders_encodedId _) (fun _ => Orders.bind (orders_persistMeta _ _) (fun _ => ?_))
      exact Orders.bind (orders_encoded _ _) (fun _ => orders_persistMeta _ _)

theorem orders_purgeLogsUpto (logId : LogId) : Orders faults (purgeLogsUpto wire logId) := by
  refine Orders.bind (orders_encodedId _) (fun _ => Orders.bind (orders_persistMeta _ _) (fun _ => ?_))
  refine Orders.bind (orders_remember (fun _ given => given)) (fun _ => ?_)
  refine Orders.bind (orders_write (fun _ => rfl)) (fun _ => ?_)
  exact orders_remember (fun _ given => contiguous_upto given _)

def StoreCall.Follows (log : Nat → Option (Entry M R)) : StoreCall V M R Answer → Prop
  | .appendToLog entries => Raft.Follows log entries
  | _ => True

theorem orders_perform (c : StoreCall V M R Answer) :
    Triple faults (fun s => Contiguous s.cache.log ∧ c.Follows s.cache.log) (c.perform wire)
      (fun _ s => Contiguous s.cache.log) (fun s => Contiguous s.cache.log) := by
  have only {m : StoreM V M R B Unit} (orders : Orders faults m) :
      Triple faults (fun s => Contiguous s.cache.log ∧ c.Follows s.cache.log) m
        (fun _ s => Contiguous s.cache.log) (fun s => Contiguous s.cache.log) :=
    Triple.mono orders (fun _ given => given.1) (fun _ _ given => given) (fun _ given => given)
  cases c with
  | saveVote vote =>
    refine only (Orders.bind (orders_encoded _ _) (fun _ => Orders.bind (orders_persistMeta _ _) (fun _ => ?_)))
    exact orders_remember (fun _ given => given)
  | saveCommitted committed =>
    refine only (Orders.bind (orders_encodedId _) (fun _ => Orders.bind (orders_persistMeta _ _) (fun _ => ?_)))
    exact orders_remember (fun _ given => given)
  | appendToLog entries => exact orders_appendToLog entries
  | deleteConflictLogsSince logId =>
    refine only (Orders.bind (orders_write (fun _ => rfl)) (fun _ => ?_))
    exact orders_remember (fun _ given => contiguous_from given _)
  | purgeLogsUpto logId => exact only (orders_purgeLogsUpto logId)
  | applyToStateMachine ok engine entries =>
    exact only (Orders.bind (orders_applyToStateMachine ok engine entries) (fun _ => orders_pure _))
  | installSnapshot restores info data => exact only (orders_installSnapshot restores info data)

end

variable [Inhabited M]

def StoreInner.step (s : StoreInner V M R B) : StoreInput V M R Answer → StoreInner V M R B
  | .call faults c => ((c.perform wire).exec faults s).2
  | .reopen => .opened wire s.db

/-- What opening the store finds, table by table. -/
structure Faithful (s : StoreInner V M R B) : Prop where
  range : ∀ row ∈ s.db.log.rows, 0 ≤ row.idx ∧ row.idx < 2 ^ 63
  log : ∀ n : Nat, (s.db.log.find n).bind (fun row => wire.entry.decode row.entry) = s.cache.log n
  vote : (s.db.info .vote).bind wire.vote.decode = s.cache.vote
  committed : (s.db.info .committed).bind wire.logId.decode = s.cache.committed
  lastPurged : (s.db.info .lastPurged).bind wire.logId.decode = s.cache.lastPurged
  lastApplied : (s.db.info .lastApplied).bind wire.logId.decode = s.cache.lastApplied
  lastMembership : ((s.db.info .lastMembership).bind wire.membership.decode).getD default = s.cache.lastMembership

def Recovers (s : StoreInner V M R B) : Prop := hydrate wire s.db = { s.cache with snapshot := none }

theorem Faithful.recovers {s : StoreInner V M R B} (faithful : Faithful wire s) : Recovers wire s := by
  have log : hydrateLog wire s.db.log.rows = s.cache.log :=
    funext (fun n => (hydrateLog_find wire faithful.range n).trans (faithful.log n))
  rw [Recovers,hydrate,log,faithful.vote,faithful.committed,faithful.lastPurged,faithful.lastApplied,
    faithful.lastMembership]

/-- No index exceeds the column, entries decode as they were, and no write fails that comes after the cache was
changed. -/
def StoreCall.Kept (faults : Nat → Write → Bool) : StoreCall V M R Answer → Prop
  | .saveVote _ | .saveCommitted _ => True
  | .appendToLog entries => ∀ entry ∈ entries, entry.logId.index < 2 ^ 63 ∧ wire.entry.Returns entry
  | .deleteConflictLogsSince logId | .purgeLogsUpto logId => logId.index < 2 ^ 63
  | .applyToStateMachine _ _ _ => ∀ n, faults n (.info .lastMembership) = false
  | .installSnapshot _ _ _ => ∀ n key, faults n (.info key) = false

def StoreInput.Kept : StoreInput V M R Answer → Prop
  | .call faults c => c.Kept wire faults
  | .reopen => True

section
variable {wire} {faults : Nat → Write → Bool}

namespace Faithful
variable {s : StoreInner V M R B} {data : B}

theorem saved_vote (faithful : Faithful wire s) {vote : V} (back : wire.vote.decode data = some vote) :
    Faithful wire ⟨s.db.saved .vote data,{ s.cache with vote := some vote }⟩ :=
  { faithful with vote := back }

theorem saved_committed (faithful : Faithful wire s) {id : Option LogId} (back : wire.logId.decode data = id) :
    Faithful wire ⟨s.db.saved .committed data,{ s.cache with committed := id }⟩ :=
  { faithful with committed := back }

theorem saved_purged (faithful : Faithful wire s) {id : Option LogId} (back : wire.logId.decode data = id) :
    Faithful wire ⟨s.db.saved .lastPurged data,{ s.cache with lastPurged := id }⟩ :=
  { faithful with lastPurged := back }

theorem saved_applied (faithful : Faithful wire s) {id : Option LogId} (back : wire.logId.decode data = id) :
    Faithful wire ⟨s.db.saved .lastApplied data,{ s.cache with lastApplied := id }⟩ :=
  { faithful with lastApplied := back }

theorem saved_membership (faithful : Faithful wire s) {stored : StoredMembership M}
    (back : wire.membership.decode data = some stored) :
    Faithful wire ⟨s.db.saved .lastMembership data,{ s.cache with lastMembership := stored }⟩ :=
  { faithful with
    lastMembership := by
      change ((some data).bind wire.membership.decode).getD default = stored
      rw [Option.bind_some,back,Option.getD_some] }

theorem appended (faithful : Faithful wire s) {entry : Entry M R} (small : entry.logId.index < 2 ^ 63)
    (back : wire.entry.decode data = some entry) :
    Faithful wire ⟨{ s.db with log := s.db.log.upsert ⟨asI64 entry.logId.index,data⟩ },
      { s.cache with log := Function.update s.cache.log entry.logId.index (some entry) }⟩ :=
  { faithful with
    range := by
      intro row inside
      rcases (Table.mem_upsert _ _ _).mp inside with rfl | ⟨before,_⟩
      · change 0 ≤ asI64 entry.logId.index ∧ asI64 entry.logId.index < 2 ^ 63
        rw [asI64_of_lt small]
        omega
      · exact faithful.range row before
    log := by
      intro n
      change ((s.db.log.upsert ⟨asI64 entry.logId.index,data⟩).find n).bind _ =
        Function.update s.cache.log entry.logId.index (some entry) n
      rw [Table.find_upsert,asI64_of_lt small,Function.update_apply]
      by_cases same : n = entry.logId.index
      · rw [if_pos same,if_pos (by rw [same]),Option.bind_some,back]
      · have apart : ¬(entry.logId.index : Int) = n := fun cast => same (Int.ofNat.inj cast).symm
        rw [if_neg same,if_neg apart,faithful.log n] }

theorem deleted (faithful : Faithful wire s) (gone : Int → Bool) :
    Faithful wire ⟨{ s.db with log := s.db.log.delete (fun row => gone row.idx) },
      { s.cache with log := fun n => if gone n then none else s.cache.log n }⟩ :=
  { faithful with
    range := fun row inside => faithful.range row ((Table.mem_delete _ _ _).mp inside).1
    log := by
      intro n
      change ((s.db.log.delete (fun row => gone row.idx)).find n).bind _ = if gone n then none else s.cache.log n
      rw [Table.find_delete_where]
      cases found : s.db.log.find n with
      | none =>
        have none := faithful.log n
        rw [found,Option.bind_none] at none
        simp [← none]
      | some row =>
        have mine : row.idx = n := ((Table.find_eq_some _ _ _).mp found).2
        have cached := faithful.log n
        rw [found,Option.bind_some] at cached
        rw [Option.filter_some,mine,← cached]
        cases gone n <;> rfl }

end Faithful

/-- The call keeps the store faithful, whether it ends or stops. -/
def Keeps (wire : Wire V M R B) (faults : Nat → Write → Bool) {α : Type} (m : StoreM V M R B α) : Prop :=
  Triple faults (Faithful wire) m (fun _ => Faithful wire) (Faithful wire)

theorem keeps_pure {α : Type} (a : α) : Keeps wire faults (pure a : StoreM V M R B α) :=
  Triple.pure (fun _ given => given)

theorem keeps_saveVote (plain : wire.Plain) (vote : V) : Keeps wire faults (saveVote wire vote) := by
  obtain ⟨data,made,back⟩ := plain.vote vote
  refine encoded_bind (fun data' made' => ?_) (fun _ _ given => given)
  cases Option.some.inj (made.symm.trans made')
  refine Triple.write_change (fun s faithful => ?_) (Or.inr (fun _ given => given))
  exact faithful.saved_vote back

theorem keeps_saveCommitted (plain : wire.Plain) (committed : Option LogId) :
    Keeps wire faults (saveCommitted wire committed) := by
  refine encodedId_bind plain (fun data back => ?_)
  refine Triple.write_change (fun s faithful => ?_) (Or.inr (fun _ given => given))
  exact faithful.saved_committed back

theorem keeps_appendToLog {entries : List (Entry M R)}
    (each : ∀ entry ∈ entries, entry.logId.index < 2 ^ 63 ∧ wire.entry.Returns entry) :
    Keeps wire faults (appendToLog wire entries) := by
  induction entries with
  | nil => exact keeps_pure ()
  | cons entry entries ih =>
    obtain ⟨small,returns⟩ := each entry (by simp)
    have rest := ih (fun later inside => each later (List.mem_cons_of_mem _ inside))
    have persisted : Triple faults (Faithful wire) (persistEntry wire entry.logId.index entry)
        (fun _ s => Faithful wire
          { s with cache := { s.cache with log := Function.update s.cache.log entry.logId.index (some entry) } })
        (Faithful wire) := by
      refine encoded_bind (fun data made => ?_) (fun _ _ given => given)
      refine Triple.write (fun s faithful => ?_) (Or.inr (fun _ given => given))
      exact faithful.appended small (returns data made)
    exact persisted.bind (fun _ => Triple.change_then rest)

theorem keeps_deleteConflictLogsSince {logId : LogId} (small : logId.index < 2 ^ 63) :
    Keeps wire faults (deleteConflictLogsSince logId : StoreM V M R B Unit) := by
  refine Triple.write_change (fun s faithful => ?_) (Or.inr (fun _ given => given))
  have gone := faithful.deleted (fun idx => asI64 logId.index ≤ idx)
  simpa [asI64_of_lt small] using gone

theorem keeps_purgeLogsUpto (plain : wire.Plain) {logId : LogId} (small : logId.index < 2 ^ 63) :
    Keeps wire faults (purgeLogsUpto wire logId) := by
  refine encodedId_bind plain (fun data back => ?_)
  refine Triple.write_change_then (fun s faithful => faithful.saved_purged back) (Or.inr (fun _ given => given)) ?_
  refine Triple.write_change (fun s faithful => ?_) (Or.inr (fun _ given => given))
  have gone := faithful.deleted (fun idx => idx ≤ asI64 logId.index)
  simpa [asI64_of_lt small] using gone

theorem keeps_applyPayload (plain : wire.Plain) (ok : Answer) (engine : LogId → R → Option Answer) (entry : Entry M R)
    (never : ∀ n, faults n (.info .lastMembership) = false) : Keeps wire faults (applyPayload wire ok engine entry) := by
  rw [applyPayload]
  split
  next => exact keeps_pure ok
  next request _ =>
    split
    next answer _ => exact keeps_pure answer
    next => exact Triple.stop (fun _ given => given)
  next m _ =>
    obtain ⟨data,made,back⟩ := plain.membership ⟨some entry.logId,m⟩
    have changed : Triple faults (Faithful wire)
        (remember (fun cache => { cache with lastMembership := ⟨some entry.logId,m⟩ }) : StoreM V M R B Unit)
        (fun _ s => Faithful wire { s with db := s.db.saved .lastMembership data }) (Faithful wire) :=
      Triple.change (fun s faithful => faithful.saved_membership back)
    refine changed.bind (fun _ => encoded_bind (fun data' made' => ?_) (fun none => ?_))
    · cases Option.some.inj (made.symm.trans made')
      refine Triple.bind (R := fun _ => Faithful wire) ?_ (fun _ => keeps_pure ok)
      exact Triple.write (fun _ given => given) (Or.inl never)
    · rw [made] at none
      cases none

theorem keeps_applyToStateMachine (plain : wire.Plain) (ok : Answer) (engine : LogId → R → Option Answer)
    (never : ∀ n, faults n (.info .lastMembership) = false) (entries : List (Entry M R)) :
    Keeps wire faults (applyToStateMachine wire ok engine entries) := by
  induction entries with
  | nil => exact keeps_pure []
  | cons entry entries ih =>
    refine (keeps_applyPayload plain ok engine entry never).bind (fun answer => ?_)
    refine encodedId_bind plain (fun data back => ?_)
    refine Triple.write_change_then (fun s faithful => faithful.saved_applied back) (Or.inr (fun _ given => given)) ?_
    exact ih.bind (fun answers => keeps_pure (answer :: answers))

theorem keeps_installSnapshot (plain : wire.Plain) (restores : List UInt8 → Bool) (info : SnapshotMeta M)
    (data : List UInt8) (never : ∀ n key, faults n (.info key) = false) :
    Keeps wire faults (installSnapshot wire restores info data) := by
  rw [installSnapshot]
  split
  next => exact Triple.stop (fun _ given => given)
  next =>
    split
    next => exact Triple.stop (fun _ given => given)
    next =>
      obtain ⟨stored,made,back⟩ := plain.membership info.lastMembership
      have changed : Triple faults (Faithful wire)
          (remember (fun cache => { cache with
            lastApplied := info.lastLogId, lastMembership := info.lastMembership, snapshot := some ⟨info,data⟩ }) :
            StoreM V M R B Unit)
          (fun _ s => ∀ applied, wire.logId.decode applied = info.lastLogId →
            Faithful wire { s with db := (s.db.saved .lastApplied applied).saved .lastMembership stored })
          (Faithful wire) := by
        refine Triple.change (fun s faithful applied reads => ?_)
        exact { (faithful.saved_applied reads).saved_membership back with }
      refine changed.bind (fun _ => encodedId_bind plain (fun applied reads => ?_))
      refine Triple.bind (R := fun _ s => Faithful wire { s with db := s.db.saved .lastMembership stored }) ?_
        (fun _ => ?_)
      · exact Triple.write (fun s given => given applied reads) (Or.inl (fun n => never n .lastApplied))
      · refine encoded_bind (fun stored' made' => ?_) (fun none => ?_)
        · cases Option.some.inj (made.symm.trans made')
          exact Triple.write (fun _ given => given) (Or.inl (fun n => never n .lastMembership))
        · rw [made] at none
          cases none

theorem keeps_perform (plain : wire.Plain) {c : StoreCall V M R Answer} (kept : c.Kept wire faults) :
    Keeps wire faults (c.perform wire) := by
  cases c with
  | saveVote vote => exact keeps_saveVote plain vote
  | saveCommitted committed => exact keeps_saveCommitted plain committed
  | appendToLog entries => exact keeps_appendToLog kept
  | deleteConflictLogsSince logId => exact keeps_deleteConflictLogsSince kept
  | purgeLogsUpto logId => exact keeps_purgeLogsUpto plain kept
  | applyToStateMachine ok engine entries =>
    exact (keeps_applyToStateMachine plain ok engine kept entries).bind (fun _ => keeps_pure ())
  | installSnapshot restores info data => exact keeps_installSnapshot plain restores info data kept

theorem faithful_opened {db : Disk B} (range : ∀ row ∈ db.log.rows, 0 ≤ row.idx ∧ row.idx < 2 ^ 63) :
    Faithful wire (.opened wire db) where
  range := range
  log := fun n => (hydrateLog_find wire range n).symm
  vote := rfl
  committed := rfl
  lastPurged := rfl
  lastApplied := rfl
  lastMembership := rfl

theorem faithful_step (plain : wire.Plain) {s : StoreInner V M R B} {input : StoreInput V M R Answer}
    (kept : input.Kept wire) (faithful : Faithful wire s) : Faithful wire (s.step wire input) := by
  cases input with
  | call faults c => exact (keeps_perform plain kept).kept faithful
  | reopen => exact faithful_opened faithful.range

end

def Disk.empty : Disk B := ⟨Table.empty,fun _ => none⟩

def StoreInner.Follows (s : StoreInner V M R B) : StoreInput V M R Answer → Prop
  | .call _ c => c.Follows s.cache.log
  | .reopen => True

theorem opened_empty_log (n : Nat) : (StoreInner.opened wire Disk.empty).cache.log n = none := by
  simp [StoreInner.opened,hydrate,hydrateLog,Disk.empty,Table.empty]

/-- Opening the store finds what the cache held, after every call and whatever write it failed at. -/
theorem reopening_recovers (plain : wire.Plain) (inputs : List (StoreInput V M R Answer))
    (kept : ∀ input ∈ inputs, input.Kept wire) :
    Throughout (StoreInner.step wire) (Recovers wire) (.opened wire Disk.empty) inputs ∧
      (Along (StoreInner.step wire) StoreInner.Follows (.opened wire Disk.empty) inputs →
        Throughout (StoreInner.step wire) (fun s => Contiguous s.cache.log) (.opened wire Disk.empty) inputs) := by
  have along : Along (StoreInner.step wire) (fun _ input => input.Kept wire) (.opened wire Disk.empty) inputs :=
    Along.of_forall kept
  have opened : Faithful wire (.opened wire Disk.empty) := faithful_opened (fun _ inside => by cases inside)
  constructor
  · intro n
    exact ((along.take n).invariant opened (fun _ _ faithful kept => faithful_step plain kept faithful)).recovers
  · intro follows n
    have both := (along.and follows).take n
    have start : Contiguous (StoreInner.opened wire Disk.empty).cache.log := by
      intro _ _ _ _ _ first
      rw [opened_empty_log] at first
      cases first
    have each (s : StoreInner V M R B) (input : StoreInput V M R Answer)
        (holds : Faithful wire s ∧ Contiguous s.cache.log) (given : input.Kept wire ∧ s.Follows input) :
        Faithful wire (s.step wire input) ∧ Contiguous (s.step wire input).cache.log := by
      refine ⟨faithful_step plain given.1 holds.1,?_⟩
      cases input with
      | call faults c => exact (orders_perform c).kept ⟨holds.2,given.2⟩
      | reopen =>
        have recovered : (hydrate wire s.db).log = s.cache.log := by rw [holds.1.recovers]
        exact recovered ▸ holds.2
    exact (both.invariant ⟨opened,start⟩ each).2

end

/-! Compact MessagePack for the records of the log. -/

def encodeLogId (id : LogId) : MsgPack := .arr [.arr [.encodeNat id.term,.encodeNat id.nodeId],.encodeNat id.index]

def decodeLogId : MsgPack → Option LogId
  | .arr [.arr [term,nodeId],index] => do
    return ⟨← MsgPack.decodeNat term,← MsgPack.decodeNat nodeId,← MsgPack.decodeNat index⟩
  | _ => none

structure Vote where
  term : Nat
  nodeId : Nat
  committed : Bool
deriving DecidableEq,Repr

def encodeVote (vote : Vote) : MsgPack :=
  .arr [.arr [.encodeNat vote.term,.encodeNat vote.nodeId],.bool vote.committed]

def decodeVote : MsgPack → Option Vote
  | .arr [.arr [term,nodeId],.bool committed] => do
    return ⟨← MsgPack.decodeNat term,← MsgPack.decodeNat nodeId,committed⟩
  | _ => none

def encodeMembership (stored : StoredMembership (List Nat)) : MsgPack :=
  .arr [.encodeOption encodeLogId stored.logId,.encodeList .encodeNat stored.membership]

def decodeMembership : MsgPack → Option (StoredMembership (List Nat))
  | .arr [logId,voters] => do
    return ⟨← MsgPack.decodeOption decodeLogId logId,← MsgPack.decodeList MsgPack.decodeNat voters⟩
  | _ => none

def encodeEntry (entry : Entry (List Nat) Nat) : MsgPack :=
  .arr [encodeLogId entry.logId,
    match entry.payload with
    | .blank => .str "Blank"
    | .normal request => .map [("Normal",.encodeNat request)]
    | .membership voters => .map [("Membership",.encodeList .encodeNat voters)]]

def decodeEntry : MsgPack → Option (Entry (List Nat) Nat)
  | .arr [logId,.str "Blank"] => do return ⟨← decodeLogId logId,.blank⟩
  | .arr [logId,.map [("Normal",request)]] => do return ⟨← decodeLogId logId,.normal (← MsgPack.decodeNat request)⟩
  | .arr [logId,.map [("Membership",voters)]] => do
    return ⟨← decodeLogId logId,.membership (← MsgPack.decodeList MsgPack.decodeNat voters)⟩
  | _ => none

def compactWire : Wire Vote (List Nat) Nat MsgPack where
  entry := ⟨fun entry => some (encodeEntry entry),decodeEntry⟩
  vote := ⟨fun vote => some (encodeVote vote),decodeVote⟩
  logId := ⟨fun id => some (encodeLogId id),decodeLogId⟩
  membership := ⟨fun stored => some (encodeMembership stored),decodeMembership⟩
  nil := .nil

@[simp] theorem reads_logId (id : LogId) : decodeLogId (encodeLogId id) = some id := rfl

theorem reads_membership (stored : StoredMembership (List Nat)) :
    decodeMembership (encodeMembership stored) = some stored := by
  have voters : MsgPack.decodeList MsgPack.decodeNat (.encodeList .encodeNat stored.membership) =
      some stored.membership := MsgPack.reads_list MsgPack.reads_nat _
  have logId : MsgPack.decodeOption decodeLogId (.encodeOption encodeLogId stored.logId) = some stored.logId :=
    MsgPack.reads_option _ reads_logId (fun _ _ => by simp [encodeLogId])
  simp [decodeMembership,encodeMembership,voters,logId]

theorem compactWire_plain : compactWire.Plain where
  vote := fun vote => ⟨encodeVote vote,rfl,rfl⟩
  logId := fun id => ⟨encodeLogId id,rfl,rfl⟩
  membership := fun stored => ⟨encodeMembership stored,rfl,reads_membership stored⟩
  nil := rfl

theorem compactWire_returns (entry : Entry (List Nat) Nat) : compactWire.entry.Returns entry := by
  intro data made
  cases made
  obtain ⟨id,payload⟩ := entry
  cases payload with
  | blank => rfl
  | normal request => rfl
  | membership voters =>
    have back : MsgPack.decodeList MsgPack.decodeNat (.encodeList .encodeNat voters) = some voters :=
      MsgPack.reads_list MsgPack.reads_nat _
    simp [compactWire,encodeEntry,decodeEntry,back]

def founding : Entry (List Nat) Nat := ⟨⟨1,1,0⟩,.membership [1,2,3]⟩

def normalEntry (index : Nat) : Entry (List Nat) Nat := ⟨⟨1,1,index⟩,.normal index⟩

def wholeAppend : StoreInput Vote (List Nat) Nat Unit :=
  .call (fun _ _ => false) (.appendToLog [founding,normalEntry 1])

/-- The second of two entries fails to be written. -/
def tornAppend : StoreInput Vote (List Nat) Nat Unit :=
  .call (fun n _ => n = 1) (.appendToLog [normalEntry 2,normalEntry 3])

theorem appends_kept : wholeAppend.Kept compactWire ∧ tornAppend.Kept compactWire := by
  constructor
  · intro entry among
    refine ⟨?_,compactWire_returns entry⟩
    simp only [List.mem_cons,List.not_mem_nil,or_false] at among
    rcases among with rfl | rfl <;> decide
  · intro entry among
    refine ⟨?_,compactWire_returns entry⟩
    simp only [List.mem_cons,List.not_mem_nil,or_false] at among
    rcases among with rfl | rfl <;> decide

theorem reopening_recovers_tornAppend :
    Throughout (StoreInner.step compactWire) (Recovers compactWire) (.opened compactWire Disk.empty)
        [wholeAppend,tornAppend] ∧
      Throughout (StoreInner.step compactWire) (fun s => Contiguous s.cache.log) (.opened compactWire Disk.empty)
        [wholeAppend,tornAppend] := by
  have kept : ∀ input ∈ [wholeAppend,tornAppend], input.Kept compactWire := by
    intro input inside
    simp only [List.mem_cons,List.not_mem_nil,or_false] at inside
    rcases inside with rfl | rfl
    · exact appends_kept.1
    · exact appends_kept.2
  have both := reopening_recovers compactWire compactWire_plain [wholeAppend,tornAppend] kept
  have empty : Next (StoreInner.opened compactWire Disk.empty).cache.log 0 := by
    intro n found
    rw [opened_empty_log] at found
    cases found
  have founded := next_put empty founding
  have first := next_put founded (normalEntry 1)
  exact ⟨both.1,both.2 ⟨⟨empty,founded,trivial⟩,⟨first,next_put first (normalEntry 2),trivial⟩,trivial⟩⟩

/-- The entry that was written before the failure is read back, though the call failed and the cache did not hold it
at the last call that succeeded. -/
theorem torn_append_recovered :
    let first := (StoreInner.opened compactWire Disk.empty).step compactWire wholeAppend
    let torn := (appendToLog compactWire [normalEntry 2,normalEntry 3]).exec (fun n _ => n = 1) first
    torn.1.isOk = false ∧ (hydrate compactWire torn.2.db).log 2 = some (normalEntry 2) ∧ first.cache.log 2 = none := by
  intro first torn
  have opened : Faithful compactWire (.opened compactWire Disk.empty) := faithful_opened (fun _ inside => by cases inside)
  have faithful : Faithful compactWire (first.step compactWire tornAppend) :=
    faithful_step compactWire_plain appends_kept.2 (faithful_step compactWire_plain appends_kept.1 opened)
  refine ⟨rfl,?_,opened_empty_log compactWire 2⟩
  change (hydrate compactWire (first.step compactWire tornAppend).db).log 2 = some (normalEntry 2)
  rw [faithful.recovers]
  rfl

end Ecphoria.Raft
