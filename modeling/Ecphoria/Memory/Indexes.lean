import Ecphoria.Cognition.Store
import Mathlib.Logic.Function.Basic

/-! The derived indexes: the inverted index over memory text and the vector store,
partitioned by scope for memories and flat for events. The nearest-neighbour
library stays outside: a search is given the matches it answered with. -/
namespace Ecphoria
open Library

structure LexicalEntry where
  id : Uuid
  scopeKey : String
  project : Option String
  subject : Option String
  content : String
deriving DecidableEq,Repr

abbrev LexicalIndex := Table LexicalEntry LexicalEntry.id

def Memory.toLexicalEntry (m : Memory) : LexicalEntry :=
  ⟨m.id,scopePartitionKey m.scope,m.project,m.subject,m.content⟩

def LexicalIndex.remove (index : LexicalIndex) (id : Uuid) : LexicalIndex :=
  index.delete (fun entry => entry.id = id)

structure SemanticStore where
  dimension : Nat
  entries : Table SemanticEntry SemanticEntry.id

namespace SemanticStore

def withDimension (dimension : Nat) : SemanticStore := ⟨dimension,.empty⟩

def upsert (store : SemanticStore) (entry : SemanticEntry) : Except Error SemanticStore :=
  if entry.embedding.length ≠ store.dimension then
    .error (.storage s!"embedding dimension mismatch: expected {store.dimension}, got {entry.embedding.length}")
  else .ok { store with entries := store.entries.upsert entry }

/-- `matched` is what the library returned for the query, nearest first. A key without
a stored entry is dropped. -/
def search (store : SemanticStore) (vector : List Rat) (k : Nat) (matched : List (Uuid × Rat)) :
    Except Error (List (SemanticEntry × Rat)) :=
  if k = 0 || store.entries.rows.isEmpty then .ok []
  else if vector.length ≠ store.dimension then
    .error (.query s!"query dimension mismatch: expected {store.dimension}, got {vector.length}")
  else .ok ((matched.take k).filterMap (fun (id,score) => (store.entries.find id).map (·,score)))

def delete (store : SemanticStore) (id : Uuid) : SemanticStore :=
  { store with entries := store.entries.delete (fun entry => entry.id = id) }

end SemanticStore

namespace SemanticStore

theorem mem_delete (store : SemanticStore) (id : Uuid) (entry : SemanticEntry) :
    entry ∈ (store.delete id).entries.rows ↔ entry ∈ store.entries.rows ∧ entry.id ≠ id := by
  simp [delete]

theorem upsert_ok {store after : SemanticStore} {entry : SemanticEntry} (ok : store.upsert entry = .ok after) :
    entry.embedding.length = store.dimension ∧ after = { store with entries := store.entries.upsert entry } := by
  unfold upsert at ok
  split at ok
  next => cases ok
  next fits =>
    cases ok
    exact ⟨not_not.mp fits,rfl⟩

theorem upsert_error {store : SemanticStore} {entry : SemanticEntry} {err : Error}
    (refused : store.upsert entry = .error err) : entry.embedding.length ≠ store.dimension := by
  unfold upsert at refused
  split at refused
  next misfit => exact misfit
  next => cases refused

end SemanticStore

/-- One store for each partition; a partition never written reads as an empty one. All partitions have
the width of the index, and an entry is only where the index says its id is. -/
structure ScopedVectorIndex where
  dimension : Nat
  partitions : String → SemanticStore
  idPartition : Uuid → Option String
  sized : ∀ key, (partitions key).dimension = dimension
  located : ∀ key, ∀ entry ∈ (partitions key).entries.rows, idPartition entry.id = some key

namespace ScopedVectorIndex

def withDimension (dimension : Nat) : ScopedVectorIndex where
  dimension := dimension
  partitions := fun _ => .withDimension dimension
  idPartition := fun _ => none
  sized := fun _ => rfl
  located := fun _ _ none => nomatch none

def retract (index : ScopedVectorIndex) (key : String) (id : Uuid) : ScopedVectorIndex where
  dimension := index.dimension
  partitions := Function.update index.partitions key ((index.partitions key).delete id)
  idPartition := index.idPartition
  sized := by
    intro other
    by_cases same : other = key
    · subst same
      simpa [SemanticStore.delete] using index.sized other
    · simpa [Function.update_of_ne same] using index.sized other
  located := by
    intro other entry inside
    by_cases same : other = key
    · subst same
      rw [Function.update_self,SemanticStore.mem_delete] at inside
      exact index.located other entry inside.1
    · rw [Function.update_of_ne same] at inside
      exact index.located other entry inside

theorem retract_apart {index : ScopedVectorIndex} {key other : String} {id : Uuid} {entry : SemanticEntry}
    (found : index.idPartition id = some key)
    (inside : entry ∈ ((index.retract key id).partitions other).entries.rows) : entry.id ≠ id := by
  intro same
  have located := (index.retract key id).located other entry inside
  have there : key = other := Option.some.inj (found.symm.trans (same ▸ located))
  subst there
  simp only [retract,Function.update_self,SemanticStore.mem_delete] at inside
  exact inside.2 same

def leaveOther (index : ScopedVectorIndex) (key : String) (id : Uuid) : ScopedVectorIndex :=
  match index.idPartition id with
  | some old => if old ≠ key then index.retract old id else index
  | none => index

theorem leaveOther_apart {index : ScopedVectorIndex} {key other : String} {id : Uuid} {entry : SemanticEntry}
    (apart : other ≠ key) (inside : entry ∈ ((index.leaveOther key id).partitions other).entries.rows) :
    entry.id ≠ id := by
  unfold leaveOther at inside
  split at inside
  next old found =>
    split at inside
    next moved => exact retract_apart found inside
    next stays =>
      rintro rfl
      have located := index.located other entry inside
      rw [found,not_not.mp stays] at located
      exact apart (Option.some.inj located).symm
  next missing =>
    rintro rfl
    cases missing.symm.trans (index.located other entry inside)

def place (index : ScopedVectorIndex) (key : String) (entry : SemanticEntry) (store : SemanticStore)
    (accepted : (index.partitions key).upsert entry = .ok store)
    (alone : ∀ other ≠ key, ∀ old ∈ (index.partitions other).entries.rows, old.id ≠ entry.id) :
    ScopedVectorIndex where
  dimension := index.dimension
  partitions := Function.update index.partitions key store
  idPartition := Function.update index.idPartition entry.id (some key)
  sized := by
    intro other
    by_cases same : other = key
    · subst same
      rw [Function.update_self,(SemanticStore.upsert_ok accepted).2]
      exact index.sized other
    · rw [Function.update_of_ne same]
      exact index.sized other
  located := by
    intro other old inside
    by_cases same : other = key
    · subst same
      rw [Function.update_self,(SemanticStore.upsert_ok accepted).2] at inside
      rcases (Table.mem_upsert _ _ _).mp inside with rfl | ⟨before,apart⟩
      · exact Function.update_self ..
      · rw [Function.update_of_ne apart]
        exact index.located other old before
    · rw [Function.update_of_ne same] at inside
      rw [Function.update_of_ne (alone other same old inside)]
      exact index.located other old inside

/-- A rejected entry has already left its old partition when the new one refuses it. -/
def upsert (index : ScopedVectorIndex) (key : String) (entry : SemanticEntry) :
    Except Error Unit × ScopedVectorIndex :=
  let index := index.leaveOther key entry.id
  match accepted : (index.partitions key).upsert entry with
  | .error e => (.error e,index)
  | .ok store => (.ok (),index.place key entry store accepted
      (fun _ apart _ inside => leaveOther_apart apart inside))

def search (index : ScopedVectorIndex) (key : String) (vector : List Rat) (k : Nat)
    (matched : List (Uuid × Rat)) : Except Error (List (SemanticEntry × Rat)) :=
  (index.partitions key).search vector k matched

def delete (index : ScopedVectorIndex) (id : Uuid) : ScopedVectorIndex :=
  match found : index.idPartition id with
  | none => index
  | some key => { index.retract key id with
      idPartition := Function.update index.idPartition id none
      located := by
        intro other entry inside
        rw [Function.update_of_ne (retract_apart found inside)]
        exact (index.retract key id).located other entry inside }

theorem mem_upsert {index : ScopedVectorIndex} {key other : String} {entry old : SemanticEntry}
    (inside : old ∈ ((index.upsert key entry).2.partitions other).entries.rows) :
    old ∈ (index.partitions other).entries.rows ∨ old = entry ∧ other = key := by
  have left (inside : old ∈ ((index.leaveOther key entry.id).partitions other).entries.rows) :
      old ∈ (index.partitions other).entries.rows := by
    unfold leaveOther at inside
    split at inside
    next home _ =>
      split at inside
      next =>
        by_cases there : other = home
        · subst there
          simp only [retract,Function.update_self] at inside
          exact ((SemanticStore.mem_delete _ _ _).mp inside).1
        · simpa only [retract,Function.update_of_ne there] using inside
      next => exact inside
    next => exact inside
  simp only [upsert] at inside
  split at inside
  next => exact Or.inl (left inside)
  next store accepted =>
    by_cases there : other = key
    · subst there
      simp only [place,Function.update_self,(SemanticStore.upsert_ok accepted).2] at inside
      rcases (Table.mem_upsert _ _ _).mp inside with rfl | ⟨before,_⟩
      · exact Or.inr ⟨rfl,rfl⟩
      · exact Or.inl (left before)
    · simp only [place,Function.update_of_ne there] at inside
      exact Or.inl (left inside)

theorem mem_delete (index : ScopedVectorIndex) (id : Uuid) (key : String) (entry : SemanticEntry) :
    entry ∈ ((index.delete id).partitions key).entries.rows ↔
      entry ∈ (index.partitions key).entries.rows ∧ entry.id ≠ id := by
  unfold delete
  split
  next missing =>
    constructor
    · intro inside
      refine ⟨inside,fun same => ?_⟩
      cases missing.symm.trans (same ▸ index.located key entry inside)
    · exact And.left
  next home found =>
    by_cases there : key = home
    · subst there
      simp only [retract,Function.update_self]
      exact SemanticStore.mem_delete _ _ _
    · simp only [retract,Function.update_of_ne there]
      constructor
      · intro inside
        refine ⟨inside,fun same => there ?_⟩
        exact Option.some.inj ((index.located key entry inside).symm.trans (same ▸ found))
      · exact And.left

end ScopedVectorIndex

end Ecphoria
