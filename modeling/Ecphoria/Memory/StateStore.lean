import Ecphoria.Library.Calendar
import Ecphoria.Memory.StateScan

/-! The state store as its callers see it: the table, the cache that answers reads first,
and the notifications each change publishes. A call that writes does so in two parts,
its statements and then its cache and notifications, with the connection locked
throughout. -/
namespace Ecphoria
open Library

structure StateChange where
  agentId : String
  key : String
  value : Json
  version : Nat
  deleted : Bool

abbrev StateCache := String × String → Option StateEntry

structure StateStore where
  table : StateTable
  cache : StateCache

def StateStore.opened (table : StateTable) : StateStore := ⟨table,fun _ => none⟩

/-- The longest duration of the calendar library, `i64::MAX` milliseconds. -/
def maxDelta : Nat := 9223372036854775807 * 1000000

/-- The last instant of the calendar library, at the end of the year 262142. -/
def maxInstant : Nat := 8210266876799 * oneSecond + 999999999

/-- When a write with this time to live expires. A duration too long for the library counts as none, and an
instant too late for it panics. -/
def expiryOf (now ttl : Nat) : Option Nat :=
  let delta := if ttl ≤ maxDelta then ttl else 0
  if now + delta ≤ maxInstant then some (now + delta) else none

/-- `expires_at IS NULL OR expires_at > datetime('now')`, on texts of two forms. -/
def StateRow.live (now : Nat) (row : StateRow) : Bool :=
  match row.expiresAt,datetime now with
  | none,_ => true
  | some instant,some clock => clock < rfc3339 instant.toNat
  | some _,none => false

/-- `expires_at IS NOT NULL AND expires_at < now`, on texts of one form. -/
def StateRow.expired (now : Nat) (row : StateRow) : Bool :=
  match row.expiresAt with
  | some instant => rfc3339 instant.toNat < rfc3339 now
  | none => false

def StateRow.swapped (value : Json) (now : Nat) (row : StateRow) : StateRow :=
  { row with value := value, version := row.version + 1, updatedAt := now }

inductive StateCall where
  | get (agentId key : String)
  | set (agentId key : String) (value : Json)
  | setWithTtl (agentId key : String) (value : Json) (ttl : Nat)
  | compareAndSwap (agentId key : String) (expected : Nat) (value : Json)
  | delete (agentId key : String)
  | cleanupExpired
  | deleteByPrefix (before : String)

inductive StateAnswer where
  | entry (found : Option StateEntry)
  | version (n : Nat)
  | swapped (done : Bool)
  | count (n : Nat)
  | done
  | panicked

/-- What a call has done once its statements are executed, and what it is about to do with the cache. -/
structure Executed where
  answer : StateAnswer
  table : StateTable
  cache : StateCache → StateCache
  changes : List StateChange

namespace StateTable

def read (t : StateTable) (primary : String × String) (now : Nat) : Option StateEntry :=
  ((t.find primary).filter (StateRow.live now)).map StateRow.toEntry

def ttlRow (t : StateTable) (agentId key : String) (value : Json) (now expiresAt : Nat) : StateRow :=
  { t.nextRow agentId key value now with expiresAt := some expiresAt }

def swappable (t : StateTable) (primary : String × String) (expected : Nat) : Bool :=
  (t.find primary).any (fun row => row.version = expected)

def swap (t : StateTable) (primary : String × String) (expected : Nat) (value : Json) (now : Nat) : StateTable :=
  t.update (fun row => row.primary = primary && row.version = expected) (StateRow.swapped value now) (fun _ => rfl)

end StateTable

section
variable (cache : StateCache) (primary : String × String)

def StateCache.put (entry : StateEntry) : StateCache := Function.update cache primary (some entry)

def StateCache.drop : StateCache := Function.update cache primary none

def StateCache.offer (entry : Option StateEntry) : StateCache :=
  match cache primary with
  | some _ => cache
  | none => Function.update cache primary entry

def StateCache.dropAll (gone : List (String × String)) : StateCache :=
  fun primary => if gone.any (fun key => key = primary) then none else cache primary

end

def StateTable.execute (t : StateTable) (now : Nat) : StateCall → Executed
  | .get agentId key =>
    let found := t.read (agentId,key) now
    ⟨.entry found,t,fun cache => cache.offer (agentId,key) found,[]⟩
  | .set agentId key value =>
    let (version,table) := t.set agentId key value now
    ⟨.version version,table,fun cache => cache.put (agentId,key) ⟨agentId,key,value,version⟩,
      [⟨agentId,key,value,version,false⟩]⟩
  | .setWithTtl agentId key value ttl =>
    match expiryOf now ttl with
    | none => ⟨.panicked,t,id,[]⟩
    | some expiresAt =>
      let row := t.ttlRow agentId key value now expiresAt
      ⟨.version row.version,t.upsert row,fun cache => cache.put (agentId,key) ⟨agentId,key,value,row.version⟩,[]⟩
  | .compareAndSwap agentId key expected value =>
    let swapped := t.swappable (agentId,key) expected
    ⟨.swapped swapped,t.swap (agentId,key) expected value now,
      fun cache => if swapped then cache.drop (agentId,key) else cache,[]⟩
  | .delete agentId key =>
    ⟨.done,t.remove agentId key,fun cache => cache.drop (agentId,key),[⟨agentId,key,.null,0,true⟩]⟩
  | .cleanupExpired =>
    let expired := (t.rows.filter (StateRow.expired now)).map StateRow.primary
    if expired.isEmpty then ⟨.count 0,t,id,[]⟩
    else ⟨.count expired.length,t.delete (StateRow.expired now),fun cache => cache.dropAll expired,[]⟩
  | .deleteByPrefix before =>
    let (removed,table) := t.deleteByPrefix before
    ⟨.count removed,table,fun _ _ => none,[]⟩

def StateStore.hit (s : StateStore) : StateCall → Option StateEntry
  | .get agentId key => s.cache (agentId,key)
  | _ => none

/-- A call on its own: its answer, the store it leaves and what it publishes. -/
def StateStore.call (s : StateStore) (now : Nat) (c : StateCall) : StateAnswer × StateStore × List StateChange :=
  match s.hit c with
  | some entry => (.entry (some entry),s,[])
  | none =>
    let done := s.table.execute now c
    (done.answer,⟨done.table,done.cache s.cache⟩,done.changes)

def StateStore.step (s : StateStore) (input : Nat × StateCall) : StateStore := (s.call input.1 input.2).2.1

/-! What a call does to one key depends on the row and the entry of that key alone. -/

def StateRow.rewritten (agentId key : String) (value : Json) (now : Nat) : Option StateRow → StateRow
  | some old => old.swapped value now
  | none => ⟨agentId,key,value,1,now,none⟩

section
variable (now : Nat) (primary : String × String)

def StateCall.onRow : StateCall → Option StateRow → Option StateRow
  | .get _ _,row => row
  | .set agentId key value,row => if (agentId,key) = primary then some (.rewritten agentId key value now row) else row
  | .setWithTtl agentId key value ttl,row =>
    match expiryOf now ttl with
    | none => row
    | some expiresAt =>
      if (agentId,key) = primary then
        some { StateRow.rewritten agentId key value now row with expiresAt := some expiresAt }
      else row
  | .compareAndSwap agentId key expected value,row =>
    row.map (fun row => if (agentId,key) = primary && row.version = expected then row.swapped value now else row)
  | .delete agentId key,row => if (agentId,key) = primary then none else row
  | .cleanupExpired,row => row.filter (fun row => !row.expired now)
  | .deleteByPrefix before,row => row.filter (fun row => !StateTable.hasPrefix before row)

def StateCall.onEntry (row : Option StateRow) : StateCall → Option StateEntry → Option StateEntry
  | .get agentId key,entry =>
    if (agentId,key) = primary then entry.or ((row.filter (StateRow.live now)).map StateRow.toEntry) else entry
  | .set agentId key value,entry =>
    if (agentId,key) = primary then
      some ⟨agentId,key,value,(StateRow.rewritten agentId key value now row).version⟩
    else entry
  | .setWithTtl agentId key value ttl,entry =>
    match expiryOf now ttl with
    | none => entry
    | some _ =>
      if (agentId,key) = primary then
        some ⟨agentId,key,value,(StateRow.rewritten agentId key value now row).version⟩
      else entry
  | .compareAndSwap agentId key expected _,entry =>
    if (agentId,key) = primary && row.any (fun row => row.version = expected) then none else entry
  | .delete agentId key,entry => if (agentId,key) = primary then none else entry
  | .cleanupExpired,entry => if row.any (StateRow.expired now) then none else entry
  | .deleteByPrefix _,_ => none

end

theorem StateTable.nextRow_rewritten (t : StateTable) (agentId key : String) (value : Json) (now : Nat) :
    t.nextRow agentId key value now = .rewritten agentId key value now (t.find (agentId,key)) := by
  unfold nextRow StateRow.rewritten
  cases t.find (agentId,key) <;> rfl

theorem StateTable.primary_nextRow (t : StateTable) (agentId key : String) (value : Json) (now : Int) :
    (t.nextRow agentId key value now).primary = (agentId,key) := by
  unfold nextRow
  split
  next old found => exact ((Table.find_eq_some _ _ _).mp found).2
  next => rfl

theorem StateTable.find_execute (t : StateTable) (now : Nat) (c : StateCall) (primary : String × String) :
    (t.execute now c).table.find primary = c.onRow now primary (t.find primary) := by
  cases c with
  | get agentId key => rfl
  | set agentId key value =>
    simp only [execute,StateCall.onRow]
    rw [find_set]
    split
    next same => rw [nextRow_rewritten,same]
    next => rfl
  | setWithTtl agentId key value ttl =>
    simp only [execute,StateCall.onRow]
    split
    next => rfl
    next expiresAt _ =>
      have row : (t.ttlRow agentId key value now expiresAt).primary = (agentId,key) := primary_nextRow _ _ _ _ _
      rw [Table.find_upsert,row]
      split
      next same => rw [ttlRow,nextRow_rewritten,same]
      next => rfl
  | compareAndSwap agentId key expected value =>
    refine (Table.find_update t _ (StateRow.swapped value now) (fun _ => rfl) primary).trans ?_
    rw [StateCall.onRow]
    cases found : t.find primary with
    | none => rfl
    | some row =>
      have mine := ((Table.find_eq_some _ _ _).mp found).2
      have turned : decide (primary = (agentId,key)) = decide ((agentId,key) = primary) := decide_eq_decide.mpr eq_comm
      rw [Option.map_some,Option.map_some,mine,turned]
  | delete agentId key =>
    simp only [execute,StateCall.onRow,remove]
    rw [Table.find_delete]
    simp [eq_comm]
  | cleanupExpired =>
    simp only [execute,StateCall.onRow]
    split
    next none =>
      cases found : t.find primary with
      | none => rfl
      | some row =>
        have inside := ((Table.find_eq_some _ _ _).mp found).1
        have kept : row.expired now = false := by
          simp only [List.isEmpty_iff,List.map_eq_nil_iff,List.filter_eq_nil_iff] at none
          simpa using none row inside
        simp [Option.filter,kept]
    next => exact Table.find_delete_where _ _ _
  | deleteByPrefix before => exact Table.find_delete_where _ _ _

theorem StateTable.onRow_refused {t : StateTable} {agentId key : String} {expected : Nat}
    (refused : t.swappable (agentId,key) expected = false) (value : Json) (now : Nat) (primary : String × String) :
    (StateCall.compareAndSwap agentId key expected value).onRow now primary (t.find primary) = t.find primary := by
  rw [StateCall.onRow]
  cases found : t.find primary with
  | none => rfl
  | some row =>
    rw [Option.map_some,if_neg]
    intro both
    simp only [Bool.and_eq_true,decide_eq_true_eq] at both
    rw [swappable,both.1,found] at refused
    simp [both.2] at refused

theorem StateTable.onEntry_refused {t : StateTable} {agentId key : String} {expected : Nat}
    (refused : t.swappable (agentId,key) expected = false) (value : Json) (now : Nat) (primary : String × String)
    (entry : Option StateEntry) :
    (StateCall.compareAndSwap agentId key expected value).onEntry now primary (t.find primary) entry = entry := by
  rw [StateCall.onEntry,if_neg]
  intro both
  simp only [Bool.and_eq_true,decide_eq_true_eq] at both
  rw [swappable,both.1,both.2] at refused
  cases refused

theorem StateTable.cache_execute (t : StateTable) (now : Nat) (c : StateCall) (cache : StateCache)
    (primary : String × String) :
    (t.execute now c).cache cache primary = c.onEntry now primary (t.find primary) (cache primary) := by
  cases c with
  | get agentId key =>
    simp only [execute,StateCall.onEntry,StateCache.offer,read]
    by_cases same : (agentId,key) = primary
    · rw [if_pos same,same]
      cases cached : cache primary with
      | none => simp
      | some entry => simp [cached]
    · rw [if_neg same]
      cases cache (agentId,key) with
      | none => exact Function.update_of_ne (Ne.symm same) _ _
      | some entry => rfl
  | set agentId key value =>
    simp only [execute,StateCall.onEntry,StateCache.put,Function.update_apply,set,nextRow_rewritten]
    by_cases same : (agentId,key) = primary
    · simp [same]
    · simp [same,Ne.symm same]
  | setWithTtl agentId key value ttl =>
    simp only [execute,StateCall.onEntry]
    split
    next => rfl
    next =>
      simp only [StateCache.put,Function.update_apply,ttlRow,nextRow_rewritten]
      by_cases same : (agentId,key) = primary
      · simp [same]
      · simp [same,Ne.symm same]
  | compareAndSwap agentId key expected value =>
    simp only [execute,StateCall.onEntry,swappable]
    by_cases same : (agentId,key) = primary
    · rw [same]
      by_cases found : (t.find primary).any (fun row => row.version = expected) = true
      · simp [found,StateCache.drop]
      · simp [found]
    · by_cases found : (t.find (agentId,key)).any (fun row => row.version = expected) = true
      · simp [found,same,Ne.symm same,StateCache.drop]
      · simp [found,same]
  | delete agentId key =>
    simp only [execute,StateCall.onEntry,StateCache.drop,Function.update_apply]
    simp [eq_comm]
  | cleanupExpired =>
    have listed : primary ∈ (t.rows.filter (StateRow.expired now)).map StateRow.primary ↔
        (t.find primary).any (StateRow.expired now) = true := by
      rw [Option.any_eq_true]
      simp only [List.mem_map,List.mem_filter,Table.find_eq_some]
      constructor
      · intro given
        obtain ⟨row,⟨inside,expired⟩,mine⟩ := given
        exact ⟨row,⟨inside,mine⟩,expired⟩
      · intro given
        obtain ⟨row,⟨inside,mine⟩,expired⟩ := given
        exact ⟨row,⟨inside,expired⟩,mine⟩
    simp only [execute,StateCall.onEntry]
    split
    next none =>
      rw [List.isEmpty_iff] at none
      rw [none] at listed
      rw [if_neg (fun some => List.not_mem_nil (listed.mpr some))]
      rfl
    next =>
      have chosen : ((t.rows.filter (StateRow.expired now)).map StateRow.primary).any (fun key => key = primary) =
          (t.find primary).any (StateRow.expired now) := by
        rw [Bool.eq_iff_iff,← listed,List.any_eq_true]
        simp
      simp only [StateCache.dropAll,chosen]
  | deleteByPrefix before => rfl

namespace StateStore

theorem find_step (s : StateStore) (input : Nat × StateCall) (primary : String × String) :
    (s.step input).table.find primary = input.2.onRow input.1 primary (s.table.find primary) := by
  rw [step,call]
  split
  next entry found =>
    obtain ⟨now,c⟩ := input
    cases c with
    | get agentId key => rfl
    | _ => cases found
  next => exact StateTable.find_execute _ _ _ _

theorem cache_step (s : StateStore) (input : Nat × StateCall) (primary : String × String) :
    (s.step input).cache primary = input.2.onEntry input.1 primary (s.table.find primary) (s.cache primary) := by
  rw [step,call]
  split
  next entry found =>
    obtain ⟨now,c⟩ := input
    cases c with
    | get agentId key =>
      have cached : s.cache (agentId,key) = some entry := found
      simp only [StateCall.onEntry]
      split
      next same => rw [← same,cached,Option.some_or]
      next => rfl
    | _ => cases found
  next => exact StateTable.cache_execute _ _ _ _ _

end StateStore

end Ecphoria
