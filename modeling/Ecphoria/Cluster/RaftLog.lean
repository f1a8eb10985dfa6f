import Ecphoria.Library.Durable
import Ecphoria.Library.Table
import Ecphoria.Library.Transition
import Mathlib.Algebra.Ring.Int.Defs

/-! The store of the consensus log: two tables on disk, `raft_log` and `raft_meta`, and a
cache that answers all reads. Each call makes its writes one after another and stops at
the first that fails; opening the store builds the cache from the tables. -/
namespace Ecphoria.Raft
open Library

structure LogId where
  term : Nat
  nodeId : Nat
  index : Nat
deriving DecidableEq,Repr

inductive Payload (M R : Type) where
  | blank
  | normal (request : R)
  | membership (m : M)

structure Entry (M R : Type) where
  logId : LogId
  payload : Payload M R

structure StoredMembership (M : Type) where
  logId : Option LogId
  membership : M

instance {M : Type} [Inhabited M] : Inhabited (StoredMembership M) := ⟨⟨none,default⟩⟩

structure SnapshotMeta (M : Type) where
  lastLogId : Option LogId
  lastMembership : StoredMembership M
  snapshotId : String

structure StoredSnapshot (M : Type) where
  info : SnapshotMeta M
  data : List UInt8

/-- What the serializer makes of a value, if anything, and what it makes of the bytes. -/
structure Codec (α B : Type) where
  encode : α → Option B
  decode : B → Option α

def Codec.Returns {α B : Type} (c : Codec α B) (a : α) : Prop := ∀ data, c.encode a = some data → c.decode data = some a

/-- The types of the log and their bytes. An absent value is written as `nil`. -/
structure Wire (V M R B : Type) where
  entry : Codec (Entry M R) B
  vote : Codec V B
  logId : Codec LogId B
  membership : Codec (StoredMembership M) B
  nil : B

/-- Votes, log ids and memberships are plain records: they are always written, and read back as they were. -/
structure Wire.Plain {V M R B : Type} (wire : Wire V M R B) : Prop where
  vote : ∀ vote, ∃ data, wire.vote.encode vote = some data ∧ wire.vote.decode data = some vote
  logId : ∀ id, ∃ data, wire.logId.encode id = some data ∧ wire.logId.decode data = some id
  membership : ∀ m, ∃ data, wire.membership.encode m = some data ∧ wire.membership.decode data = some m
  nil : wire.logId.decode wire.nil = none

/-- `idx as i64` -/
def asI64 (n : Nat) : Int := if n < 2 ^ 63 then n else (n : Int) - 2 ^ 64

/-- `idx as u64` -/
def asU64 (i : Int) : Nat := (if 0 ≤ i then i else i + 2 ^ 64).toNat

structure LogRow (B : Type) where
  idx : Int
  entry : B

inductive MetaKey where
  | vote
  | committed
  | lastPurged
  | lastApplied
  | lastMembership
deriving DecidableEq,Repr

structure Disk (B : Type) where
  log : Table (LogRow B) LogRow.idx
  info : MetaKey → Option B

structure Cache (V M R : Type) where
  log : Nat → Option (Entry M R)
  vote : Option V
  lastPurged : Option LogId
  lastApplied : Option LogId
  lastMembership : StoredMembership M
  snapshot : Option (StoredSnapshot M)
  committed : Option LogId

structure StoreInner (V M R B : Type) where
  db : Disk B
  cache : Cache V M R

inductive Write where
  | entry
  | deleteFrom
  | deleteUpto
  | info (key : MetaKey)
deriving DecidableEq,Repr

inductive StorageError where
  | write
  | apply (logId : LogId)
  | readSnapshot

abbrev StoreM (V M R B : Type) := Program (StoreInner V M R B) Write StorageError

section
variable {V M R B Answer : Type} [Inhabited M] (wire : Wire V M R B)

def encoded {α : Type} (c : Codec α B) (a : α) : StoreM V M R B B :=
  match c.encode a with
  | some data => pure data
  | none => Program.stop .write

def encodedId : Option LogId → StoreM V M R B B
  | some id => encoded wire.logId id
  | none => pure wire.nil

def persistEntry (idx : Nat) (entry : Entry M R) : StoreM V M R B Unit := do
  let data ← encoded wire.entry entry
  Program.write .entry .write (fun s => { s with db := { s.db with log := s.db.log.upsert ⟨asI64 idx,data⟩ } })

def deleteEntriesFrom (fromIdx : Nat) : StoreM V M R B Unit :=
  Program.write .deleteFrom .write
    (fun s => { s with db := { s.db with log := s.db.log.delete (fun row => asI64 fromIdx ≤ row.idx) } })

def deleteEntriesUpto (uptoIdx : Nat) : StoreM V M R B Unit :=
  Program.write .deleteUpto .write
    (fun s => { s with db := { s.db with log := s.db.log.delete (fun row => row.idx ≤ asI64 uptoIdx) } })

def Disk.saved (db : Disk B) (key : MetaKey) (data : B) : Disk B :=
  { db with info := Function.update db.info key (some data) }

def persistMeta (key : MetaKey) (data : B) : StoreM V M R B Unit :=
  Program.write (.info key) .write (fun s => { s with db := s.db.saved key data })

def remember (f : Cache V M R → Cache V M R) : StoreM V M R B Unit :=
  Program.change (fun s => { s with cache := f s.cache })

def hydrateRow (log : Nat → Option (Entry M R)) (row : LogRow B) : Nat → Option (Entry M R) :=
  match wire.entry.decode row.entry with
  | some entry => Function.update log (asU64 row.idx) (some entry)
  | none => log

def hydrateLog (rows : List (LogRow B)) : Nat → Option (Entry M R) :=
  (rows.mergeSort (fun a b => a.idx ≤ b.idx)).foldl (hydrateRow wire) (fun _ => none)

def hydrate (db : Disk B) : Cache V M R where
  log := hydrateLog wire db.log.rows
  vote := (db.info .vote).bind wire.vote.decode
  lastPurged := (db.info .lastPurged).bind wire.logId.decode
  lastApplied := (db.info .lastApplied).bind wire.logId.decode
  lastMembership := ((db.info .lastMembership).bind wire.membership.decode).getD default
  snapshot := none
  committed := (db.info .committed).bind wire.logId.decode

def StoreInner.opened (db : Disk B) : StoreInner V M R B := ⟨db,hydrate wire db⟩

def saveVote (vote : V) : StoreM V M R B Unit := do
  let data ← encoded wire.vote vote
  persistMeta .vote data
  remember (fun cache => { cache with vote := some vote })

def saveCommitted (committed : Option LogId) : StoreM V M R B Unit := do
  let data ← encodedId wire committed
  persistMeta .committed data
  remember (fun cache => { cache with committed := committed })

def appendToLog : List (Entry M R) → StoreM V M R B Unit
  | [] => pure ()
  | entry :: entries => do
    persistEntry wire entry.logId.index entry
    remember (fun cache => { cache with log := Function.update cache.log entry.logId.index (some entry) })
    appendToLog entries

def deleteConflictLogsSince (logId : LogId) : StoreM V M R B Unit := do
  deleteEntriesFrom logId.index
  remember (fun cache => { cache with log := fun n => if logId.index ≤ n then none else cache.log n })

def purgeLogsUpto (logId : LogId) : StoreM V M R B Unit := do
  let data ← encodedId wire (some logId)
  persistMeta .lastPurged data
  remember (fun cache => { cache with lastPurged := some logId })
  deleteEntriesUpto logId.index
  remember (fun cache => { cache with log := fun n => if n ≤ logId.index then none else cache.log n })

/-- The effect of an entry; the engine answers the requests, or fails. -/
def applyPayload (ok : Answer) (engine : LogId → R → Option Answer) (entry : Entry M R) : StoreM V M R B Answer :=
  match entry.payload with
  | .blank => pure ok
  | .normal request =>
    match engine entry.logId request with
    | some answer => pure answer
    | none => Program.stop (.apply entry.logId)
  | .membership m => do
    let stored : StoredMembership M := ⟨some entry.logId,m⟩
    remember (fun cache => { cache with lastMembership := stored })
    let data ← encoded wire.membership stored
    persistMeta .lastMembership data
    pure ok

def applyToStateMachine (ok : Answer) (engine : LogId → R → Option Answer) :
    List (Entry M R) → StoreM V M R B (List Answer)
  | [] => pure []
  | entry :: entries => do
    let answer ← applyPayload wire ok engine entry
    let data ← encodedId wire (some entry.logId)
    persistMeta .lastApplied data
    remember (fun cache => { cache with lastApplied := some entry.logId })
    let answers ← applyToStateMachine ok engine entries
    pure (answer :: answers)

def installSnapshot (restores : List UInt8 → Bool) (info : SnapshotMeta M) (data : List UInt8) : StoreM V M R B Unit :=
  if data.isEmpty && info.lastLogId.isSome then Program.stop .readSnapshot
  else if !data.isEmpty && !restores data then Program.stop .readSnapshot
  else do
    remember (fun cache =>
      { cache with lastApplied := info.lastLogId, lastMembership := info.lastMembership, snapshot := some ⟨info,data⟩ })
    let applied ← encodedId wire info.lastLogId
    persistMeta .lastApplied applied
    let membership ← encoded wire.membership info.lastMembership
    persistMeta .lastMembership membership

end

end Ecphoria.Raft
