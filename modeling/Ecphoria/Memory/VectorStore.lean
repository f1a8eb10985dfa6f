import Ecphoria.Memory.Indexes

/-! The vector store as it is kept: vectors in the nearest-neighbour library under drawn
numbers, what is known of each number beside them, and the way from an id to its number.
The library answers for itself: whether a removal happens and whether an addition is refused. -/
namespace Ecphoria
open Library

structure StoredEntry where
  key : Nat
  id : Uuid
  content : String
  metadata : Json

inductive Fault where
  | reserve (text : String)
  | add (text : String)
deriving DecidableEq,Repr

def Fault.toError : Fault → Error
  | .reserve text => .storage ("reserve failed: " ++ text)
  | .add text => .storage ("add to index failed: " ++ text)

structure LibraryAnswer where
  removes : Bool
  fault : Option Fault

def LibraryAnswer.willing : LibraryAnswer := ⟨true,none⟩

/-- An id leads to the number under which an entry of that id is kept, and every number in use was drawn. -/
structure VectorStore where
  vectors : Nat → Option (List Rat)
  entries : Table StoredEntry StoredEntry.key
  uuidToKey : Uuid → Option Nat
  nextKey : Nat
  dimension : Nat
  tied : ∀ id key, uuidToKey id = some key ↔ ∃ entry ∈ entries.rows, entry.key = key ∧ entry.id = id
  drawn : ∀ entry ∈ entries.rows, entry.key < nextKey

namespace VectorStore

def withDimension (dimension : Nat) : VectorStore where
  vectors := fun _ => none
  entries := .empty
  uuidToKey := fun _ => none
  nextKey := 1
  dimension := dimension
  tied := by simp [Table.empty]
  drawn := by simp [Table.empty]

theorem key_inj (store : VectorStore) {a b : Uuid} {key : Nat} (left : store.uuidToKey a = some key)
    (right : store.uuidToKey b = some key) : a = b := by
  obtain ⟨first,inside,same,rfl⟩ := (store.tied a key).mp left
  obtain ⟨second,there,equal,rfl⟩ := (store.tied b key).mp right
  rw [store.entries.eq_of_key inside there (same.trans equal.symm)]

/-- The entry of an id is dropped. A removal that the library fails is not noticed. -/
def delete (store : VectorStore) (id : Uuid) (removes : Bool) : VectorStore :=
  match found : store.uuidToKey id with
  | none => store
  | some key => { store with
      vectors := if removes then Function.update store.vectors key none else store.vectors
      entries := store.entries.delete (fun entry => entry.key = key)
      uuidToKey := Function.update store.uuidToKey id none
      tied := by
        intro other number
        simp only [Table.mem_delete,decide_eq_false_iff_not]
        by_cases same : other = id
        · subst same
          rw [Function.update_self]
          refine iff_of_false (by simp) ?_
          rintro ⟨entry,⟨inside,apart⟩,rfl,rfl⟩
          have there := (store.tied entry.id entry.key).mpr ⟨entry,inside,rfl,rfl⟩
          exact apart (Option.some.inj (there.symm.trans found))
        · rw [Function.update_of_ne same,store.tied]
          constructor
          · rintro ⟨entry,inside,rfl,rfl⟩
            refine ⟨entry,⟨inside,fun taken => same ?_⟩,rfl,rfl⟩
            exact store.key_inj ((store.tied entry.id key).mpr ⟨entry,inside,taken,rfl⟩) found
          · rintro ⟨entry,⟨inside,_⟩,number,own⟩
            exact ⟨entry,inside,number,own⟩
      drawn := fun entry inside => store.drawn entry ((Table.mem_delete _ _ _).mp inside).1 }

theorem uuidToKey_delete (store : VectorStore) (id : Uuid) (removes : Bool) :
    (store.delete id removes).uuidToKey = Function.update store.uuidToKey id none := by
  unfold delete
  split
  next missing =>
    rw [← missing,Function.update_eq_self]
  next => rfl

theorem absent_delete (store : VectorStore) (id : Uuid) (removes : Bool) :
    (store.delete id removes).uuidToKey id = none := by
  rw [uuidToKey_delete]
  exact Function.update_self ..

/-- `fetch_add` on the counter. -/
def skipKey (store : VectorStore) : VectorStore :=
  { store with
    nextKey := store.nextKey + 1
    drawn := fun entry inside => Nat.lt_succ_of_lt (store.drawn entry inside) }

def record (store : VectorStore) (entry : SemanticEntry) (absent : store.uuidToKey entry.id = none) : VectorStore where
  vectors := Function.update store.vectors store.nextKey (some entry.embedding)
  entries := store.entries.upsert ⟨store.nextKey,entry.id,entry.content,entry.metadata⟩
  uuidToKey := Function.update store.uuidToKey entry.id (some store.nextKey)
  nextKey := store.nextKey + 1
  dimension := store.dimension
  tied := by
    intro id key
    simp only [Table.mem_upsert]
    by_cases same : id = entry.id
    · subst same
      rw [Function.update_self,Option.some.injEq]
      constructor
      · intro here
        exact ⟨_,Or.inl rfl,here,rfl⟩
      · rintro ⟨old,rfl | ⟨inside,_⟩,number,own⟩
        · exact number
        · cases absent.symm.trans ((store.tied entry.id old.key).mpr ⟨old,inside,rfl,own⟩)
    · rw [Function.update_of_ne same,store.tied]
      constructor
      · rintro ⟨old,inside,number,own⟩
        exact ⟨old,Or.inr ⟨inside,Nat.ne_of_lt (store.drawn old inside)⟩,number,own⟩
      · rintro ⟨old,rfl | ⟨inside,_⟩,number,own⟩
        · exact absurd own.symm same
        · exact ⟨old,inside,number,own⟩
  drawn := by
    intro old inside
    rcases (Table.mem_upsert _ _ _).mp inside with rfl | ⟨before,_⟩
    · exact Nat.lt_succ_self store.nextKey
    · exact Nat.lt_succ_of_lt (store.drawn old before)

@[simp] theorem uuidToKey_skipKey (store : VectorStore) : store.skipKey.uuidToKey = store.uuidToKey := rfl

@[simp] theorem uuidToKey_record (store : VectorStore) (entry : SemanticEntry)
    (absent : store.uuidToKey entry.id = none) :
    (store.record entry absent).uuidToKey = Function.update store.uuidToKey entry.id (some store.nextKey) := rfl

/-- The width is checked before anything is touched; the old entry is gone when the library refuses the new one. -/
def upsert (store : VectorStore) (entry : SemanticEntry) (answer : LibraryAnswer) : Except Error Unit × VectorStore :=
  if entry.embedding.length ≠ store.dimension then
    (.error (.storage s!"embedding dimension mismatch: expected {store.dimension}, got {entry.embedding.length}"),store)
  else
    let cleared := store.delete entry.id answer.removes
    match answer.fault with
    | some fault => (.error fault.toError,cleared.skipKey)
    | none => (.ok (),cleared.record entry (store.absent_delete entry.id answer.removes))

/-- `matched` is the library's answer: its numbers with their distances, nearest first. -/
def search (store : VectorStore) (vector : List Rat) (k : Nat) (matched : Except String (List (Nat × Rat))) :
    Except Error (List (StoredEntry × Rat)) :=
  if k = 0 || store.entries.rows.isEmpty then .ok []
  else if vector.length ≠ store.dimension then
    .error (.query s!"query dimension mismatch: expected {store.dimension}, got {vector.length}")
  else
    match matched with
    | .error text => .error (.query ("search failed: " ++ text))
    | .ok found => .ok (found.filterMap (fun hit => (store.entries.find hit.1).map (·,1 - hit.2)))

def holding (store : VectorStore) (id : Uuid) : Option SemanticEntry :=
  (store.uuidToKey id).bind (fun key => (store.entries.find key).bind (fun entry =>
    (store.vectors key).map (fun vector => ⟨entry.id,entry.content,vector,entry.metadata⟩)))

@[simp] theorem holding_withDimension (dimension : Nat) (id : Uuid) : (withDimension dimension).holding id = none := rfl

@[simp] theorem holding_skipKey (store : VectorStore) (id : Uuid) : store.skipKey.holding id = store.holding id := rfl

theorem holding_delete (store : VectorStore) (id : Uuid) (removes : Bool) (other : Uuid) :
    (store.delete id removes).holding other = if other = id then none else store.holding other := by
  by_cases same : other = id
  · rw [if_pos same,holding,same,absent_delete]
    rfl
  · rw [if_neg same]
    unfold delete
    split
    next => rfl
    next key found =>
      simp only [holding,Function.update_of_ne same]
      refine Option.bind_congr ?_
      intro number there
      have apart : number ≠ key := by
        rintro rfl
        exact same (store.key_inj there found)
      rw [Table.find_delete,if_neg apart]
      refine Option.bind_congr ?_
      intro entry _
      cases removes with
      | false => rfl
      | true => simp [Function.update_of_ne apart]

theorem holding_record (store : VectorStore) (entry : SemanticEntry) (absent : store.uuidToKey entry.id = none)
    (other : Uuid) :
    (store.record entry absent).holding other = if other = entry.id then some entry else store.holding other := by
  by_cases same : other = entry.id
  · rw [if_pos same,same]
    simp [holding,record,Table.find_upsert]
  · rw [if_neg same]
    simp only [holding,record,Function.update_of_ne same]
    refine Option.bind_congr ?_
    intro number there
    obtain ⟨old,inside,rfl,_⟩ := (store.tied other number).mp there
    have apart : old.key ≠ store.nextKey := Nat.ne_of_lt (store.drawn old inside)
    rw [Table.find_upsert,if_neg (Ne.symm apart),Function.update_of_ne apart]

def Accepts (store : VectorStore) (entry : SemanticEntry) (answer : LibraryAnswer) : Prop :=
  entry.embedding.length = store.dimension ∧ answer.fault = none

inductive UpsertCase (store : VectorStore) (entry : SemanticEntry) (answer : LibraryAnswer) :
    Except Error Unit → VectorStore → Prop
  | misfit (err : Error) (misfits : entry.embedding.length ≠ store.dimension) :
      UpsertCase store entry answer (.error err) store
  | refused (err : Error) (fits : entry.embedding.length = store.dimension) (refused : answer.fault ≠ none) :
      UpsertCase store entry answer (.error err) (store.delete entry.id answer.removes).skipKey
  | taken (accepts : store.Accepts entry answer)
      (absent : (store.delete entry.id answer.removes).uuidToKey entry.id = none) :
      UpsertCase store entry answer (.ok ()) ((store.delete entry.id answer.removes).record entry absent)

theorem upsert_cases (store : VectorStore) (entry : SemanticEntry) (answer : LibraryAnswer) :
    UpsertCase store entry answer (store.upsert entry answer).1 (store.upsert entry answer).2 := by
  rw [upsert]
  split
  next misfits => exact .misfit _ misfits
  next fits =>
    cases fault : answer.fault with
    | some text => exact .refused _ (not_not.mp fits) (by simp [fault])
    | none => exact .taken ⟨not_not.mp fits,fault⟩ (store.absent_delete entry.id answer.removes)

theorem dimension_delete (store : VectorStore) (id : Uuid) (removes : Bool) :
    (store.delete id removes).dimension = store.dimension := by
  unfold delete
  split
  next => rfl
  next => rfl

theorem known_of_search {store : VectorStore} {vector : List Rat} {k : Nat}
    {matched : Except String (List (Nat × Rat))} {hits : List (StoredEntry × Rat)}
    (ok : store.search vector k matched = .ok hits) {hit : StoredEntry × Rat} (inside : hit ∈ hits) :
    (store.uuidToKey hit.1.id).isSome := by
  unfold search at ok
  split at ok
  next =>
    cases ok
    cases inside
  next =>
    split at ok
    next => cases ok
    next =>
      cases matched with
      | error text => cases ok
      | ok found =>
        cases ok
        obtain ⟨item,_,made⟩ := List.mem_filterMap.mp inside
        obtain ⟨entry,there,rfl⟩ := Option.map_eq_some_iff.mp made
        obtain ⟨listed,_⟩ := (Table.find_eq_some _ _ _).mp there
        exact Option.isSome_of_eq_some ((store.tied entry.id entry.key).mpr ⟨entry,listed,rfl,rfl⟩)

end VectorStore

/-- The file `metadata.json`: the store without its vectors. -/
structure SerializedMetadata where
  entries : Table StoredEntry StoredEntry.key
  uuidToKey : Uuid → Option Nat
  nextKey : Nat
  dimension : Nat
  tied : ∀ id key, uuidToKey id = some key ↔ ∃ entry ∈ entries.rows, entry.key = key ∧ entry.id = id
  drawn : ∀ entry ∈ entries.rows, entry.key < nextKey

/-- The directory of a saved store: what the library reads from `index.usearch`, and what `metadata.json` is
parsed to. Nothing where a file is missing or cannot be read. -/
structure IndexFiles where
  index : Option (Nat → Option (List Rat))
  metadata : Option SerializedMetadata

def IndexFiles.none : IndexFiles := ⟨.none,.none⟩

/-- How far a save comes that does not end: to no file, into the index file, which then reads as `left`, past it,
or into the metadata, which are truncated before they are written. -/
inductive SaveStop where
  | directory
  | index (left : Option (Nat → Option (List Rat)))
  | opening
  | metadata

def SaveStop.toError (text : String) : SaveStop → Error
  | .directory => .storage ("mkdir: " ++ text)
  | .index _ => .storage ("save index: " ++ text)
  | .opening | .metadata => .storage ("write metadata: " ++ text)

namespace VectorStore

def serialized (store : VectorStore) : SerializedMetadata where
  entries := store.entries
  uuidToKey := store.uuidToKey
  nextKey := store.nextKey
  dimension := store.dimension
  tied := store.tied
  drawn := store.drawn

def save (store : VectorStore) (files : IndexFiles) : Option SaveStop → IndexFiles
  | some .directory => files
  | some (.index left) => { files with index := left }
  | some .opening => { files with index := some store.vectors }
  | some .metadata => ⟨some store.vectors,none⟩
  | none => ⟨some store.vectors,some store.serialized⟩

/-- The two files are read one by one, and nothing says that they are of one save. -/
def load (files : IndexFiles) : Option VectorStore :=
  match files.metadata with
  | none => none
  | some saved =>
    match files.index with
    | none => none
    | some vectors => some ⟨vectors,saved.entries,saved.uuidToKey,saved.nextKey,saved.dimension,saved.tied,saved.drawn⟩

@[simp] theorem load_save (store : VectorStore) (files : IndexFiles) : load (store.save files none) = some store := rfl

theorem load_known {files : IndexFiles} {store : VectorStore} (loaded : load files = some store) :
    ∃ saved, files.metadata = some saved ∧ saved.uuidToKey = store.uuidToKey := by
  unfold load at loaded
  cases written : files.metadata with
  | none =>
    rw [written] at loaded
    cases loaded
  | some saved =>
    rw [written] at loaded
    cases read : files.index with
    | none =>
      rw [read] at loaded
      cases loaded
    | some vectors =>
      rw [read] at loaded
      cases loaded
      exact ⟨saved,rfl,rfl⟩

theorem save_metadata {store : VectorStore} {files : IndexFiles} {stop : Option SaveStop} {saved : SerializedMetadata}
    (written : (store.save files stop).metadata = some saved) :
    files.metadata = some saved ∨ saved.uuidToKey = store.uuidToKey := by
  cases stop with
  | none =>
    cases written
    exact Or.inr rfl
  | some stop =>
    cases stop with
    | directory => exact Or.inl written
    | index left => exact Or.inl written
    | opening => exact Or.inl written
    | metadata => cases written

end VectorStore

end Ecphoria
