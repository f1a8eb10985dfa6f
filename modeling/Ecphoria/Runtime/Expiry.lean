import Ecphoria.Library.Sorted
import Ecphoria.Library.Years
import Ecphoria.Memory.StateStore
import Ecphoria.Runtime.Ledger

/-! Expiry is decided on texts. Leases, runs and state entries keep their instants in RFC 3339 form and statements
compare the columns as strings; as long as years have four digits each statement does what it would do on instants. -/
namespace Ecphoria
open Library

/-- The columns `lease_owner` and `lease_expires_at` of a run, each of which may be null. -/
structure LeaseTexts where
  leaseOwner : Option String
  leaseExpiresAt : Option String

def LeaseTexts.free : LeaseTexts := ⟨none,none⟩

def LeaseTexts.held (owner : String) (expiresAt : Int) : LeaseTexts := ⟨some owner,some (toRfc3339 expiresAt)⟩

def Lease.texts : Option Lease → LeaseTexts
  | none => .free
  | some lease => .held lease.owner lease.expiresAt

/-- `lease_owner IS NULL OR lease_owner = ?1 OR lease_expires_at IS NULL OR lease_expires_at <= ?4` -/
def LeaseTexts.claimable (row : LeaseTexts) (owner now : String) : Bool :=
  row.leaseOwner.isNone || row.leaseOwner = some owner || row.leaseExpiresAt.isNone || row.leaseExpiresAt.any (· ≤ now)

def tryClaimLeaseTexts (runs : RunTable) (columns : Uuid → LeaseTexts) (id : Uuid) (owner : String)
    (now expiresAt : Int) : Bool × (Uuid → LeaseTexts) :=
  if id ∈ runs.keys && (columns id).claimable owner (toRfc3339 now) then
    (true,Function.update columns id (.held owner expiresAt))
  else (false,columns)

/-- `status IN ('pending','running') AND updated_at < ?1 ORDER BY updated_at ASC LIMIT ?2` -/
def RunTable.listResumableTexts (t : RunTable) (staleBefore : Int) (limit : Nat) : List Run :=
  ((t.rows.filter (fun run => (run.status = .pending || run.status = .running) &&
    toRfc3339 run.updatedAt < toRfc3339 staleBefore)).insertionSort
      (fun a b => toRfc3339 a.updatedAt ≤ toRfc3339 b.updatedAt)).take limit

/-- `expires_at IS NOT NULL AND expires_at < ?1` -/
def StateRow.expiredTexts (now : Int) (row : StateRow) : Bool := row.expiresAt.any (fun instant => toRfc3339 instant < toRfc3339 now)

/-- The keys that are dropped from the cache, and the rows that are left. -/
def StateTable.cleanupExpiredTexts (t : StateTable) (now : Int) : List (String × String) × StateTable :=
  ((t.rows.filter (StateRow.expiredTexts now)).map StateRow.primary,t.delete (StateRow.expiredTexts now))

/-- The order of the texts is the order of the instants, and so the statements that compare texts go by time: who
may take a lease, which runs are stale and which entries have expired. -/
structure DecidesByTime : Prop where
  order : ∀ a b, FourDigitYear a → FourDigitYear b → (a < b ↔ toRfc3339 a < toRfc3339 b)
  claim : ∀ runs (leases : LeaseColumns) id owner now expiresAt, FourDigitYear now →
    (∀ id lease, leases id = some lease → FourDigitYear lease.expiresAt) →
    tryClaimLeaseTexts runs (fun id => Lease.texts (leases id)) id owner now expiresAt =
      ((tryClaimLease runs leases id owner now expiresAt).1,
        fun other => Lease.texts ((tryClaimLease runs leases id owner now expiresAt).2 other))
  resumable : ∀ (runs : RunTable) staleBefore limit, FourDigitYear staleBefore →
    (∀ run ∈ runs.rows, FourDigitYear run.updatedAt) →
    runs.listResumableTexts staleBefore limit = runs.listResumable staleBefore limit
  cleanup : ∀ (t : StateTable) now, FourDigitYear now →
    (∀ row ∈ t.rows, ∀ instant, row.expiresAt = some instant → FourDigitYear instant) →
    (t.cleanupExpiredTexts now).1 =
      (t.rows.filter (fun row => row.expiresAt.any (fun instant => instant < now))).map StateRow.primary ∧
    (t.cleanupExpiredTexts now).2.rows =
      t.rows.filter (fun row => !row.expiresAt.any (fun instant => instant < now))

theorem toRfc3339_le {a b : Int} (left : FourDigitYear a) (right : FourDigitYear b) :
    toRfc3339 a ≤ toRfc3339 b ↔ a ≤ b := by
  rw [← String.not_lt,toRfc3339_lt right left,Int.not_lt]

theorem claimable_texts {lease : Option Lease} {now : Int} (clock : FourDigitYear now)
    (stored : ∀ held, lease = some held → FourDigitYear held.expiresAt) (owner : String) :
    (Lease.texts lease).claimable owner (toRfc3339 now) = claimable lease owner now := by
  cases lease with
  | none => rfl
  | some held => simp [Lease.texts,LeaseTexts.held,LeaseTexts.claimable,claimable,toRfc3339_le (stored held rfl) clock]

theorem tryClaimLease_texts {leases : LeaseColumns} {now : Int} (clock : FourDigitYear now)
    (stored : ∀ id lease, leases id = some lease → FourDigitYear lease.expiresAt) (runs : RunTable) (id : Uuid)
    (owner : String) (expiresAt : Int) :
    tryClaimLeaseTexts runs (fun id => Lease.texts (leases id)) id owner now expiresAt =
      ((tryClaimLease runs leases id owner now expiresAt).1,
        fun other => Lease.texts ((tryClaimLease runs leases id owner now expiresAt).2 other)) := by
  rw [tryClaimLeaseTexts,tryClaimLease,claimable_texts clock (stored id)]
  split
  next =>
    refine Prod.ext rfl (funext fun other => ?_)
    by_cases same : other = id
    · subst same
      simp [Lease.texts]
    · simp [Function.update_of_ne same]
  next => rfl

theorem listResumable_texts {runs : RunTable} {staleBefore : Int} (clock : FourDigitYear staleBefore)
    (stored : ∀ run ∈ runs.rows, FourDigitYear run.updatedAt) (limit : Nat) :
    runs.listResumableTexts staleBefore limit = runs.listResumable staleBefore limit := by
  have stale : runs.rows.filter (fun run => (run.status = .pending || run.status = .running) &&
      toRfc3339 run.updatedAt < toRfc3339 staleBefore) =
      runs.rows.filter (fun run => (run.status = .pending || run.status = .running) && run.updatedAt < staleBefore) := by
    refine List.filter_congr ?_
    intro run inside
    simp only [toRfc3339_lt (stored run inside) clock]
  rw [RunTable.listResumableTexts,RunTable.listResumable,stale]
  congr 1
  refine insertionSort_congr ?_
  intro a left b right
  exact toRfc3339_le (stored a (List.mem_of_mem_filter left)) (stored b (List.mem_of_mem_filter right))

theorem expired_texts {row : StateRow} {now : Int} (clock : FourDigitYear now)
    (stored : ∀ instant, row.expiresAt = some instant → FourDigitYear instant) :
    row.expiredTexts now = row.expiresAt.any (fun instant => instant < now) := by
  unfold StateRow.expiredTexts
  cases expires : row.expiresAt with
  | none => rfl
  | some instant => simp only [Option.any_some,toRfc3339_lt (stored instant expires) clock]

theorem decides_by_time : DecidesByTime := by
  refine ⟨?_,?_,?_,?_⟩
  · intro a b left right
    exact (toRfc3339_lt left right).symm
  · intro runs leases id owner now expiresAt clock stored
    exact tryClaimLease_texts clock stored runs id owner expiresAt
  · intro runs staleBefore limit clock stored
    exact listResumable_texts clock stored limit
  · intro t now clock stored
    have each : ∀ row ∈ t.rows, row.expiredTexts now = row.expiresAt.any (fun instant => instant < now) :=
      fun row inside => expired_texts clock (stored row inside)
    refine ⟨congrArg (List.map StateRow.primary) (List.filter_congr each),List.filter_congr ?_⟩
    intro row inside
    rw [each row inside]

end Ecphoria
