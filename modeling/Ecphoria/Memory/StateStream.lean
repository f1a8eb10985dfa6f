import Ecphoria.Library.Transition
import Ecphoria.Memory.StateStore

/-! The change stream of the state store, and a watcher that replays it over a copy. Plain
writes and deletions publish what they do; the other calls change rows in silence. -/
namespace Ecphoria
open Library

abbrev StateImage := String × String → Option (Json × Nat)

def StateTable.image (t : StateTable) : StateImage :=
  fun primary => (t.find primary).map (fun row => (row.value,row.version))

def StateChange.replay (copy : StateImage) (change : StateChange) : StateImage :=
  Function.update copy (change.agentId,change.key)
    (if change.deleted then none else some (change.value,change.version))

structure Watched where
  store : StateStore
  copy : StateImage

def Watched.step (w : Watched) (input : Nat × StateCall) : Watched :=
  let done := w.store.call input.1 input.2
  ⟨done.2.1,done.2.2.foldl StateChange.replay w.copy⟩

def Watched.subscribe (s : StateStore) : Watched := ⟨s,s.table.image⟩

def Watched.Agrees (w : Watched) : Prop := w.copy = w.store.table.image

/-- The call publishes its change, or makes none. -/
def Watched.Published (w : Watched) (input : Nat × StateCall) : Prop :=
  match input.2 with
  | .get _ _ | .set _ _ _ | .delete _ _ => True
  | .setWithTtl _ _ _ ttl => expiryOf input.1 ttl = none
  | .compareAndSwap agentId key expected _ => w.store.table.swappable (agentId,key) expected = false
  | .cleanupExpired => ∀ row ∈ w.store.table.rows, row.expired input.1 = false
  | .deleteByPrefix before => ∀ row ∈ w.store.table.rows, StateTable.hasPrefix before row = false

namespace Watched
variable {w : Watched}

theorem image_execute (t : StateTable) (now : Nat) (c : StateCall) (primary : String × String) :
    (t.execute now c).table.image primary =
      (c.onRow now primary (t.find primary)).map (fun row => (row.value,row.version)) := by
  rw [StateTable.image,StateTable.find_execute]

theorem step_silent (agrees : w.Agrees) {input : Nat × StateCall} (missed : w.store.hit input.2 = none)
    (silent : (w.store.table.execute input.1 input.2).changes = []) :
    (w.step input).Agrees ↔ (w.store.table.execute input.1 input.2).table.image = w.store.table.image := by
  unfold Agrees step StateStore.call
  simp only [missed,silent,List.foldl_nil]
  rw [show w.copy = w.store.table.image from agrees]
  exact eq_comm

theorem delete_keeps_image {t : StateTable} {p : StateRow → Bool} :
    StateTable.image (t.delete p) = t.image ↔ ∀ row ∈ t.rows, p row = false := by
  constructor
  · intro same row inside
    have found := (Table.find_eq_some t row.primary row).mpr ⟨inside,rfl⟩
    have kept := congrFun same row.primary
    simp only [StateTable.image] at kept
    rw [Table.find_delete_where,found] at kept
    by_contra gone
    simp [Option.filter,gone] at kept
  · intro none
    funext primary
    simp only [StateTable.image]
    rw [Table.find_delete_where]
    cases found : t.find primary with
    | none => rfl
    | some row => simp [Option.filter,none row ((Table.find_eq_some t primary row).mp found).1]

theorem step_agrees_iff (agrees : w.Agrees) (input : Nat × StateCall) : (w.step input).Agrees ↔ w.Published input := by
  obtain ⟨now,c⟩ := input
  cases c with
  | get agentId key =>
    refine iff_of_true ?_ trivial
    unfold step StateStore.call
    split
    next => exact agrees
    next => exact agrees
  | set agentId key value =>
    refine iff_of_true ?_ trivial
    funext primary
    change StateChange.replay w.copy _ primary = _
    rw [show w.copy = w.store.table.image from agrees]
    refine Eq.trans ?_ (image_execute w.store.table now (.set agentId key value) primary).symm
    simp only [StateChange.replay,Function.update_apply,StateCall.onRow]
    by_cases same : primary = (agentId,key)
    · simp only [StateTable.nextRow_rewritten,same]
      cases w.store.table.find (agentId,key) <;> rfl
    · rw [if_neg same,if_neg (Ne.symm same)]
      rfl
  | delete agentId key =>
    refine iff_of_true ?_ trivial
    funext primary
    change StateChange.replay w.copy _ primary = _
    rw [show w.copy = w.store.table.image from agrees]
    refine Eq.trans ?_ (image_execute w.store.table now (.delete agentId key) primary).symm
    simp only [StateChange.replay,Function.update_apply,StateCall.onRow]
    by_cases same : primary = (agentId,key)
    · rw [if_pos same,if_pos same.symm]
      rfl
    · rw [if_neg same,if_neg (Ne.symm same)]
      rfl
  | setWithTtl agentId key value ttl =>
    rw [step_silent agrees rfl (by simp only [StateTable.execute]; split <;> rfl)]
    change _ ↔ expiryOf now ttl = none
    constructor
    · intro same
      have mine := (image_execute w.store.table now (.setWithTtl agentId key value ttl) (agentId,key)).symm.trans
        (congrFun same (agentId,key))
      cases expiry : expiryOf now ttl with
      | none => rfl
      | some expiresAt =>
        rw [StateTable.image] at mine
        cases found : w.store.table.find (agentId,key) <;>
          simp [StateCall.onRow,expiry,found,StateRow.rewritten,StateRow.swapped] at mine
    · intro panics
      simp only [StateTable.execute,panics]
  | compareAndSwap agentId key expected value =>
    rw [step_silent agrees rfl rfl]
    change _ ↔ w.store.table.swappable (agentId,key) expected = false
    constructor
    · intro same
      rw [StateTable.swappable]
      have mine := (image_execute w.store.table now (.compareAndSwap agentId key expected value) (agentId,key)).symm.trans
        (congrFun same (agentId,key))
      rw [StateTable.image] at mine
      cases found : w.store.table.find (agentId,key) with
      | none => rfl
      | some row =>
        by_cases current : row.version = expected
        · simp [StateCall.onRow,found,current,StateRow.swapped] at mine
        · simp [current]
    · intro refused
      funext primary
      rw [image_execute,StateTable.onRow_refused refused]
      rfl
  | cleanupExpired =>
    have silent : (w.store.table.execute now .cleanupExpired).changes = [] := by
      simp only [StateTable.execute]
      split <;> rfl
    have image : (w.store.table.execute now .cleanupExpired).table.image =
        StateTable.image (w.store.table.delete (StateRow.expired now)) := by
      funext primary
      rw [image_execute,StateTable.image,Table.find_delete_where]
      rfl
    rw [step_silent agrees rfl silent,image]
    exact delete_keeps_image
  | deleteByPrefix before =>
    rw [step_silent agrees rfl rfl]
    exact delete_keeps_image

end Watched

/-- Whatever is called, a watcher's copy stays equal to the store exactly as long as no call changes a row in
silence. -/
theorem stream_complete_iff (s : StateStore) (calls : List (Nat × StateCall)) :
    Throughout Watched.step Watched.Agrees (.subscribe s) calls ↔ Along Watched.step Watched.Published (.subscribe s) calls := by
  have free : Along Watched.step (fun _ _ => True) (Watched.subscribe s) calls := .of_forall (fun _ _ => trivial)
  refine free.throughout_iff (fun _ => True) trivial rfl ?_
  intro w input _ agrees _
  exact ⟨trivial,Watched.step_agrees_iff agrees input⟩

/-- A value with a time to live reaches no watcher. -/
theorem ttl_write_unpublished :
    ¬ ∀ (s : StateStore) (calls : List (Nat × StateCall)),
      Throughout Watched.step Watched.Agrees (.subscribe s) calls := by
  intro all
  have start : (Watched.subscribe (.opened .empty)).Agrees := rfl
  have agrees := (all (.opened .empty) [(0,.setWithTtl "bot" "mode" .null 60)]).tail.head
  have panics : expiryOf 0 60 = none := (Watched.step_agrees_iff start _).mp agrees
  exact absurd panics (by decide)

end Ecphoria
