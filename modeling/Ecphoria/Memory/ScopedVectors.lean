import Ecphoria.Library.Transition
import Ecphoria.Memory.VectorStore

/-! The partitioned vector index over whole runs. A store for each partition is made when
the partition is first written, and a map beside them says where each id is. An entry that
changes its partition leaves the old one before the new one has taken it. -/
namespace Ecphoria
open Library

/-- What is met during one write: the library, and whether it opens an index of the wanted width. -/
structure ScopedAnswer extends LibraryAnswer where
  opens : Bool

def ScopedAnswer.willing : ScopedAnswer := ⟨.willing,true⟩

/-- `ScopedVectorIndex` with its stores as they are kept. -/
structure ScopedStores where
  dimension : Nat
  partitions : String → Option VectorStore
  idPartition : Uuid → Option String

namespace ScopedStores

def withDimension (dimension : Nat) : ScopedStores := ⟨dimension,fun _ => none,fun _ => none⟩

/-- A fresh store has the default width when one of the wanted width cannot be made. -/
def fresh (index : ScopedStores) (opens : Bool) : VectorStore :=
  .withDimension (if opens then index.dimension else 768)

def partition (index : ScopedStores) (key : String) (opens : Bool) : VectorStore :=
  (index.partitions key).getD (index.fresh opens)

def put (index : ScopedStores) (key : String) (store : VectorStore) : ScopedStores :=
  { index with partitions := Function.update index.partitions key (some store) }

def retract (index : ScopedStores) (key : String) (id : Uuid) (removes : Bool) : ScopedStores :=
  match index.partitions key with
  | some store => index.put key (store.delete id removes)
  | none => index

def leaveOther (index : ScopedStores) (key : String) (id : Uuid) (removes : Bool) : ScopedStores :=
  match index.idPartition id with
  | some prev => if prev ≠ key then index.retract prev id removes else index
  | none => index

def upsert (index : ScopedStores) (key : String) (entry : SemanticEntry) (answer : ScopedAnswer) :
    Except Error Unit × ScopedStores :=
  let left := index.leaveOther key entry.id answer.removes
  match (left.partition key answer.opens).upsert entry answer.toLibraryAnswer with
  | (.error err,store) => (.error err,left.put key store)
  | (.ok (),store) => (.ok (),{ left.put key store with
      idPartition := Function.update left.idPartition entry.id (some key) })

def search (index : ScopedStores) (key : String) (vector : List Rat) (k : Nat)
    (matched : Except String (List (Nat × Rat))) : Except Error (List (StoredEntry × Rat)) :=
  match index.partitions key with
  | some store => store.search vector k matched
  | none => .ok []

def delete (index : ScopedStores) (id : Uuid) (answer : ScopedAnswer) : ScopedStores :=
  match index.idPartition id with
  | some key => { index.retract key id answer.removes with
      idPartition := Function.update index.idPartition id none }
  | none => index

/-- What the store of a partition says of an id. -/
def read {β : Type} (index : ScopedStores) (look : VectorStore → Uuid → Option β) (key : String) (id : Uuid) : Option β :=
  (index.partitions key).bind (fun store => look store id)

def holding (index : ScopedStores) (key : String) (id : Uuid) : Option SemanticEntry :=
  index.read VectorStore.holding key id

/-- An id is registered to a partition exactly when its vector is there, and then it is in no other. -/
def Registered (index : ScopedStores) : Prop :=
  ∀ id key, (index.idPartition id = some key ↔ (index.holding key id).isSome) ∧
    (index.idPartition id = some key → ∀ other ≠ key, index.holding other id = none)

/-- The same registrations, the same partitions and the same entries with their vectors in them. -/
structure SameContents (index other : ScopedStores) : Prop where
  registered : index.idPartition = other.idPartition
  present : ∀ key, (index.partitions key).isSome = (other.partitions key).isSome
  held : ∀ key id, index.holding key id = other.holding key id

def SearchesOwn (index : ScopedStores) : Prop :=
  ∀ key vector k matched hits, index.search key vector k matched = .ok hits →
    ∀ hit ∈ hits, index.idPartition hit.1.id = some key

end ScopedStores

inductive ScopedCall where
  | upsert (key : String) (entry : SemanticEntry) (answer : ScopedAnswer)
  | delete (id : Uuid) (answer : ScopedAnswer)

def ScopedCall.step (index : ScopedStores) : ScopedCall → ScopedStores
  | .upsert key entry answer => (index.upsert key entry answer).2
  | .delete id answer => index.delete id answer

def ScopedCall.Unharmed (index : ScopedStores) (call : ScopedCall) : Prop :=
  match call with
  | .upsert key entry answer => (index.upsert key entry answer).1 ≠ .ok () → (call.step index).SameContents index
  | .delete _ _ => True

/-- An upsert that fails is of an id that is registered nowhere, or has the wrong width for the partition that it is
registered to; and its partition was there before. -/
def ScopedCall.Safe (index : ScopedStores) : ScopedCall → Prop
  | .upsert key entry answer =>
    (index.partition key answer.opens).Accepts entry answer.toLibraryAnswer ∨
      (index.partitions key).isSome ∧ (index.idPartition entry.id = none ∨
        index.idPartition entry.id = some key ∧
          entry.embedding.length ≠ (index.partition key answer.opens).dimension)
  | .delete _ _ => True

namespace ScopedStores
variable (index : ScopedStores)

section
variable {β : Type} {look : VectorStore → Uuid → Option β}
  (cleared : ∀ store id removes other, look (store.delete id removes) other = if other = id then none else look store other)

theorem read_put (key : String) (store : VectorStore) (other : String) (id : Uuid) :
    (index.put key store).read look other id = if other = key then look store id else index.read look other id := by
  by_cases same : other = key
  · simp [read,put,same]
  · simp [read,put,same]

include cleared in
theorem read_retract (key : String) (id : Uuid) (removes : Bool) (other : String) (x : Uuid) :
    (index.retract key id removes).read look other x =
      if other = key ∧ x = id then none else index.read look other x := by
  unfold retract
  cases there : index.partitions key with
  | none =>
    by_cases same : other = key ∧ x = id
    · simp [read,same,there]
    · rw [if_neg same]
  | some store =>
    rw [read_put,cleared]
    by_cases same : other = key
    · subst same
      simp [read,there]
    · simp [same]

include cleared in
theorem read_leaveOther (key : String) (id : Uuid) (removes : Bool) (other : String) (x : Uuid) :
    (index.leaveOther key id removes).read look other x =
      if x = id ∧ other ≠ key ∧ index.idPartition id = some other then none else index.read look other x := by
  unfold leaveOther
  cases home : index.idPartition id with
  | none => simp
  | some prev =>
    by_cases moved : prev ≠ key
    · simp only [if_pos moved,read_retract index cleared,Option.some.injEq]
      refine if_congr ?_ rfl rfl
      constructor
      · rintro ⟨rfl,rfl⟩
        exact ⟨rfl,moved,rfl⟩
      · rintro ⟨rfl,_,rfl⟩
        exact ⟨rfl,rfl⟩
    · simp only [if_neg moved]
      rw [if_neg]
      rintro ⟨_,apart,same⟩
      exact moved (Option.some.inj same ▸ apart)

theorem look_partition (bare : ∀ dimension id, look (.withDimension dimension) id = none) (key : String) (opens : Bool)
    (id : Uuid) : look (index.partition key opens) id = index.read look key id := by
  rw [partition,read]
  cases index.partitions key with
  | none => exact bare _ id
  | some store => rfl

end

theorem idPartition_retract (key : String) (id : Uuid) (removes : Bool) :
    (index.retract key id removes).idPartition = index.idPartition := by
  unfold retract
  split
  next => rfl
  next => rfl

theorem idPartition_leaveOther (key : String) (id : Uuid) (removes : Bool) :
    (index.leaveOther key id removes).idPartition = index.idPartition := by
  unfold leaveOther
  split
  next =>
    split
    next => exact idPartition_retract ..
    next => rfl
  next => rfl

theorem leaveOther_partitions (key : String) (id : Uuid) (removes : Bool) :
    (index.leaveOther key id removes).partitions key = index.partitions key ∧
      ∀ other, ((index.leaveOther key id removes).partitions other).isSome = (index.partitions other).isSome := by
  unfold leaveOther
  split
  next prev home =>
    split
    next moved =>
      unfold retract
      split
      next store there =>
        refine ⟨Function.update_of_ne (Ne.symm moved) _ _,?_⟩
        intro other
        by_cases same : other = prev
        · subst same
          simp [put,there]
        · simp [put,Function.update_of_ne same]
      next => exact ⟨rfl,fun _ => rfl⟩
    next => exact ⟨rfl,fun _ => rfl⟩
  next => exact ⟨rfl,fun _ => rfl⟩

theorem partition_leaveOther (key : String) (id : Uuid) (removes opens : Bool) :
    (index.leaveOther key id removes).partition key opens = index.partition key opens := by
  have width : (index.leaveOther key id removes).dimension = index.dimension := by
    unfold leaveOther
    split
    next =>
      split
      next =>
        unfold retract
        split
        next => rfl
        next => rfl
      next => rfl
    next => rfl
  rw [partition,partition,(index.leaveOther_partitions key id removes).1,fresh,fresh,width]

/-- What an upsert leaves, when `store` is what becomes of the partition. -/
structure Upserted (index : ScopedStores) (key : String) (entry : SemanticEntry) (answer : ScopedAnswer)
    (store : VectorStore) : Prop where
  made : VectorStore.UpsertCase (index.partition key answer.opens) entry answer.toLibraryAnswer
    (index.upsert key entry answer).1 store
  homes : (index.upsert key entry answer).2.idPartition =
    if (index.upsert key entry answer).1 = .ok () then Function.update index.idPartition entry.id (some key)
    else index.idPartition
  present : ∀ other, ((index.upsert key entry answer).2.partitions other).isSome =
    (decide (other = key) || (index.partitions other).isSome)
  reads : ∀ {β : Type} {look : VectorStore → Uuid → Option β},
    (∀ store id removes x, look (store.delete id removes) x = if x = id then none else look store x) →
    ∀ other x, (index.upsert key entry answer).2.read look other x =
      if other = key then look store x
      else if x = entry.id ∧ index.idPartition entry.id = some other then none else index.read look other x

theorem upserted (key : String) (entry : SemanticEntry) (answer : ScopedAnswer) :
    ∃ store, index.Upserted key entry answer store := by
  have made := (index.partition key answer.opens).upsert_cases entry answer.toLibraryAnswer
  have whole : index.upsert key entry answer =
      match (index.partition key answer.opens).upsert entry answer.toLibraryAnswer with
      | (.error err,store) => (.error err,(index.leaveOther key entry.id answer.removes).put key store)
      | (.ok (),store) => (.ok (),{ (index.leaveOther key entry.id answer.removes).put key store with
          idPartition := Function.update index.idPartition entry.id (some key) }) := by
    simp only [upsert,partition_leaveOther,idPartition_leaveOther]
  generalize (index.partition key answer.opens).upsert entry answer.toLibraryAnswer = result at made whole
  obtain ⟨outcome,store⟩ := result
  have present (other : String) :
      (((index.leaveOther key entry.id answer.removes).put key store).partitions other).isSome =
        (decide (other = key) || (index.partitions other).isSome) := by
    by_cases here : other = key
    · simp [put,here]
    · simpa [put,here] using (index.leaveOther_partitions key entry.id answer.removes).2 other
  have reads {β : Type} {look : VectorStore → Uuid → Option β}
      (cleared : ∀ store id removes x, look (store.delete id removes) x = if x = id then none else look store x)
      (other : String) (x : Uuid) : ((index.leaveOther key entry.id answer.removes).put key store).read look other x =
        if other = key then look store x
        else if x = entry.id ∧ index.idPartition entry.id = some other then none else index.read look other x := by
    rw [read_put,read_leaveOther index cleared]
    by_cases here : other = key
    · rw [if_pos here,if_pos here]
    · simp [here]
  refine ⟨store,?_⟩
  cases outcome with
  | error err =>
    refine ⟨?_,?_,?_,?_⟩
    · rw [whole]
      exact made
    · rw [whole]
      exact idPartition_leaveOther ..
    · rw [whole]
      exact present
    · rw [whole]
      exact reads
  | ok _ =>
    refine ⟨?_,?_,?_,?_⟩
    · rw [whole]
      exact made
    · rw [whole]
      rfl
    · rw [whole]
      exact present
    · rw [whole]
      exact reads

def Located : Prop := ∀ key id, (index.read VectorStore.uuidToKey key id).isSome → index.idPartition id = some key

private theorem number_cleared (store : VectorStore) (id : Uuid) (removes : Bool) (other : Uuid) :
    (store.delete id removes).uuidToKey other = if other = id then none else store.uuidToKey other := by
  rw [VectorStore.uuidToKey_delete,Function.update_apply]

variable {index}

theorem searchesOwn_of_located (located : index.Located) : index.SearchesOwn := by
  intro key vector k matched hits ok hit inside
  apply located
  unfold search at ok
  cases there : index.partitions key with
  | none =>
    rw [there] at ok
    cases ok
    cases inside
  | some store =>
    rw [there] at ok
    simpa [read,there] using VectorStore.known_of_search ok inside

theorem located_upsert (located : index.Located) (key : String) (entry : SemanticEntry) (answer : ScopedAnswer) :
    (index.upsert key entry answer).2.Located := by
  obtain ⟨store,done⟩ := index.upserted key entry answer
  have ground (id : Uuid) : (index.partition key answer.opens).uuidToKey id = index.read VectorStore.uuidToKey key id :=
    look_partition index (fun _ _ => rfl) key answer.opens id
  intro other id known
  rw [done.reads number_cleared] at known
  have made := done.made
  rw [done.homes]
  by_cases ok : (index.upsert key entry answer).1 = .ok ()
  · rw [if_pos ok,Function.update_apply]
    rw [ok] at made
    cases made with
    | taken accepts absent =>
      by_cases here : other = key
      · subst here
        rw [if_pos rfl] at known
        by_cases own : id = entry.id
        · rw [if_pos own]
        · rw [if_neg own]
          apply located
          rw [← ground]
          rwa [VectorStore.uuidToKey_record,Function.update_of_ne own,number_cleared,if_neg own] at known
      · rw [if_neg here] at known
        split at known
        next => cases known
        next kept =>
          have home := located _ _ known
          rw [if_neg (fun own => kept ⟨own,own ▸ home⟩)]
          exact home
  · rw [if_neg ok]
    by_cases here : other = key
    · subst here
      rw [if_pos rfl] at known
      apply located
      rw [← ground]
      generalize (index.upsert other entry answer).1 = outcome at made ok
      cases made with
      | misfit => exact known
      | refused =>
        rw [VectorStore.uuidToKey_skipKey,number_cleared] at known
        split at known
        next => cases known
        next => exact known
      | taken => exact absurd rfl ok
    · rw [if_neg here] at known
      split at known
      next => cases known
      next => exact located _ _ known

theorem registered_iff : index.Registered ↔ ∀ id key, index.idPartition id = some key ↔ (index.holding key id).isSome := by
  constructor
  · intro registered id key
    exact (registered id key).1
  · intro each id key
    refine ⟨each id key,?_⟩
    intro home other apart
    by_contra held
    exact apart (Option.some.inj (((each id other).mpr (Option.isSome_iff_ne_none.mpr held)).symm.trans home))

theorem Registered.nowhere (registered : index.Registered) {id : Uuid} {key : String}
    (apart : index.idPartition id ≠ some key) : index.holding key id = none := by
  by_contra held
  exact apart ((registered id key).1.mpr (Option.isSome_iff_ne_none.mpr held))

section
variable {key : String} {entry : SemanticEntry} {answer : ScopedAnswer}

theorem registered_taken (registered : index.Registered) (ok : (index.upsert key entry answer).1 = .ok ()) :
    (index.upsert key entry answer).2.Registered := by
  obtain ⟨store,done⟩ := index.upserted key entry answer
  have made := done.made
  rw [ok] at made
  have held (other : String) (x : Uuid) : (index.upsert key entry answer).2.holding other x =
      if x = entry.id then (if other = key then some entry else none) else index.holding other x := by
    rw [holding,done.reads VectorStore.holding_delete]
    cases made with
    | taken accepts absent =>
      rw [VectorStore.holding_record,VectorStore.holding_delete,
        look_partition index VectorStore.holding_withDimension key]
      by_cases here : other = key
      · subst here
        by_cases own : x = entry.id
        · simp [own]
        · simp [own,holding]
      · by_cases own : x = entry.id
        · subst own
          by_cases home : index.idPartition entry.id = some other
          · simp [here,home]
          · have none := registered.nowhere home
            rw [holding] at none
            simp [here,home,none]
        · simp [here,own,holding]
  rw [registered_iff]
  intro id other
  rw [held,done.homes,if_pos ok]
  by_cases own : id = entry.id
  · subst own
    rw [Function.update_self,if_pos rfl]
    by_cases here : other = key
    · simp [here]
    · simp [here,Ne.symm here]
  · rw [Function.update_of_ne own,if_neg own]
    exact (registered id other).1

/-- What a failed upsert leaves: the id is gone from the partition it was to leave, and from its own if the library
refused it. -/
theorem holding_failed (failed : (index.upsert key entry answer).1 ≠ .ok ()) (other : String) (x : Uuid) :
    (index.upsert key entry answer).2.holding other x =
      if x = entry.id ∧ (if other = key then entry.embedding.length = (index.partition key answer.opens).dimension
        else index.idPartition entry.id = some other) then none else index.holding other x := by
  obtain ⟨store,done⟩ := index.upserted key entry answer
  have made := done.made
  rw [holding,done.reads VectorStore.holding_delete]
  by_cases here : other = key
  · subst here
    rw [if_pos rfl]
    generalize (index.upsert other entry answer).1 = outcome at made failed
    cases made with
    | misfit err misfits =>
      rw [look_partition index VectorStore.holding_withDimension]
      simp [misfits,holding]
    | refused err fits refused =>
      rw [VectorStore.holding_skipKey,VectorStore.holding_delete,
        look_partition index VectorStore.holding_withDimension]
      simp [fits,holding]
    | taken => exact absurd rfl failed
  · simp [here,holding]

theorem registered_failed_iff (registered : index.Registered) (failed : (index.upsert key entry answer).1 ≠ .ok ()) :
    (index.upsert key entry answer).2.Registered ∧ (index.upsert key entry answer).2.SameContents index ↔
      (index.partitions key).isSome ∧ (index.idPartition entry.id = none ∨ index.idPartition entry.id = some key ∧
        entry.embedding.length ≠ (index.partition key answer.opens).dimension) := by
  obtain ⟨store,done⟩ := index.upserted key entry answer
  have homes : (index.upsert key entry answer).2.idPartition = index.idPartition := done.homes.trans (if_neg failed)
  have lost := holding_failed failed
  constructor
  · intro given
    obtain ⟨after,same⟩ := given
    have there := same.present key
    rw [done.present,decide_eq_true rfl,Bool.true_or] at there
    refine ⟨there.symm,?_⟩
    cases home : index.idPartition entry.id with
    | none => exact Or.inl rfl
    | some prev =>
      have kept : ((index.upsert key entry answer).2.holding prev entry.id).isSome := by
        rw [← (after entry.id prev).1,homes,home]
      rw [lost] at kept
      by_cases here : prev = key
      · subst here
        refine Or.inr ⟨rfl,fun fits => ?_⟩
        simp [fits] at kept
      · simp [here,home] at kept
  · intro given
    obtain ⟨there,place⟩ := given
    have held (other : String) (x : Uuid) : (index.upsert key entry answer).2.holding other x = index.holding other x := by
      rw [lost,ite_eq_right_iff]
      rintro ⟨rfl,which⟩
      refine (registered.nowhere ?_).symm
      intro home
      rcases place with absent | ⟨own,misfits⟩
      · cases absent.symm.trans home
      · cases Option.some.inj (own.symm.trans home)
        rw [if_pos rfl] at which
        exact misfits which
    refine ⟨?_,⟨homes,?_,held⟩⟩
    · rw [registered_iff]
      intro id other
      rw [homes,held]
      exact (registered id other).1
    · intro other
      rw [done.present]
      by_cases here : other = key
      · subst here
        simp [there]
      · simp [here]

end

theorem delete_reads {β : Type} {look : VectorStore → Uuid → Option β}
    (cleared : ∀ store id removes other, look (store.delete id removes) other = if other = id then none else look store other)
    (id : Uuid) (answer : ScopedAnswer) (other : String) (x : Uuid) : (index.delete id answer).read look other x =
      if x = id ∧ index.idPartition id = some other then none else index.read look other x := by
  unfold delete
  cases home : index.idPartition id with
  | none => simp
  | some key =>
    refine (read_retract index cleared key id answer.removes other x).trans (if_congr ?_ rfl rfl)
    rw [Option.some.injEq,and_comm,@eq_comm _ key]

theorem idPartition_delete (id : Uuid) (answer : ScopedAnswer) :
    (index.delete id answer).idPartition = Function.update index.idPartition id none := by
  unfold delete
  cases home : index.idPartition id with
  | none =>
    change index.idPartition = _
    conv_rhs => rw [← home,Function.update_eq_self]
  | some key => rfl

theorem located_delete (located : index.Located) (id : Uuid) (answer : ScopedAnswer) :
    (index.delete id answer).Located := by
  intro other x known
  rw [delete_reads number_cleared] at known
  split at known
  next => cases known
  next kept =>
    have home := located _ _ known
    rw [idPartition_delete,Function.update_of_ne]
    · exact home
    · rintro rfl
      exact kept ⟨rfl,home⟩

theorem registered_delete (registered : index.Registered) (id : Uuid) (answer : ScopedAnswer) :
    (index.delete id answer).Registered := by
  rw [registered_iff]
  intro x other
  rw [idPartition_delete,holding,delete_reads VectorStore.holding_delete]
  by_cases own : x = id
  · subst own
    rw [Function.update_self]
    by_cases home : index.idPartition x = some other
    · simp [home]
    · have none := registered.nowhere home
      rw [holding] at none
      simp [home,none]
  · rw [Function.update_of_ne own,if_neg (fun given => own given.1)]
    exact (registered x other).1

end ScopedStores

namespace ScopedCall

theorem located_step (index : ScopedStores) (call : ScopedCall) (located : index.Located) : (call.step index).Located := by
  cases call with
  | upsert key entry answer => exact ScopedStores.located_upsert located key entry answer
  | delete id answer => exact ScopedStores.located_delete located id answer

theorem registered_step_iff (index : ScopedStores) (call : ScopedCall) (registered : index.Registered) :
    (call.step index).Registered ∧ call.Unharmed index ↔ call.Safe index := by
  cases call with
  | delete id answer => exact iff_of_true ⟨ScopedStores.registered_delete registered id answer,trivial⟩ trivial
  | upsert key entry answer =>
    by_cases ok : (index.upsert key entry answer).1 = .ok ()
    · refine iff_of_true ⟨ScopedStores.registered_taken registered ok,fun failed => absurd ok failed⟩ (Or.inl ?_)
      obtain ⟨store,done⟩ := index.upserted key entry answer
      have made := done.made
      rw [ok] at made
      cases made with
      | taken accepts absent => exact accepts
    · have rejects : ¬(index.partition key answer.opens).Accepts entry answer.toLibraryAnswer := by
        intro accepts
        obtain ⟨store,done⟩ := index.upserted key entry answer
        have made := done.made
        generalize (index.upsert key entry answer).1 = outcome at made ok
        cases made with
        | misfit err misfits => exact misfits accepts.1
        | refused err fits refused => exact refused accepts.2
        | taken => exact ok rfl
      have halves := ScopedStores.registered_failed_iff registered ok
      constructor
      · intro given
        exact Or.inr (halves.mp ⟨given.1,given.2 ok⟩)
      · intro safe
        obtain ⟨after,same⟩ := halves.mpr (safe.resolve_left rejects)
        exact ⟨after,fun _ => same⟩

/-- The registrations are true in every state of a run from an empty index, no failed upsert changes anything, and
searches keep to their partition. -/
def Consistent (dimension : Nat) (calls : List ScopedCall) : Prop :=
  Throughout step ScopedStores.Registered (.withDimension dimension) calls ∧
    Along step (fun index call => call.Unharmed index) (.withDimension dimension) calls ∧
    Throughout step ScopedStores.SearchesOwn (.withDimension dimension) calls

theorem consistent_iff (dimension : Nat) (calls : List ScopedCall) :
    Consistent dimension calls ↔
      Along step (fun index call => call.Safe index) (.withDimension dimension) calls := by
  have empty : (ScopedStores.withDimension dimension).Registered := by
    rw [ScopedStores.registered_iff]
    intro id key
    exact iff_of_false (by simp [ScopedStores.withDimension])
      (by simp [ScopedStores.holding,ScopedStores.read,ScopedStores.withDimension])
  have own : Throughout step ScopedStores.SearchesOwn (.withDimension dimension) calls := by
    intro n
    apply ScopedStores.searchesOwn_of_located
    have always : Along step (fun _ _ => True) (ScopedStores.withDimension dimension) (calls.take n) :=
      Along.of_forall (by simp)
    refine always.invariant ?_ (fun index call located _ => located_step index call located)
    intro key id known
    cases known
  calc
    Consistent dimension calls ↔
        Along step (fun index call => (call.step index).Registered ∧ call.Unharmed index) (.withDimension dimension)
          calls := by
      rw [Consistent,along_and,throughout_iff_along empty]
      exact ⟨fun given => ⟨given.1,given.2.1⟩,fun given => ⟨given.1,given.2,own⟩⟩
    _ ↔ Along step (fun index call => call.Safe index) (.withDimension dimension) calls :=
      along_congr ScopedStores.Registered empty registered_step_iff (fun index call _ given => given.1)

/-- An entry of the right width, and the same id with a wrong one for another partition. -/
def movedWide : List ScopedCall :=
  [.upsert "a" ⟨1,"",[1],.null⟩ .willing,.upsert "b" ⟨1,"",[1,1],.null⟩ .willing]

theorem movedWide_inconsistent : ¬Consistent 1 movedWide := by
  intro consistent
  have registered := (consistent.1 2 1 "a").1
  have home : (run step (.withDimension 1) (movedWide.take 2)).idPartition 1 = some "a" := by decide +kernel
  have lost : ((run step (.withDimension 1) (movedWide.take 2)).holding "a" 1).isSome = false := by decide +kernel
  rw [registered.mp home] at lost
  cases lost

end ScopedCall

end Ecphoria
