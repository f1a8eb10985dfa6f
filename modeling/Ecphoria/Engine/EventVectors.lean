import Ecphoria.Engine.EventTenants
import Ecphoria.Engine.Tenants
import Ecphoria.Memory.VectorStore

/-! The event vectors beside the episodic log. The log is on disk and says which events have
a vector; the vectors are in memory and reach the disk when they are saved. A process can
stop between any two writes, and then starts from the log and the last files. -/
namespace Ecphoria
open Library

/-- The embedding provider during one call: what it answers for each batch, by the number of the batch. -/
structure EventProvider where
  batchSize : Nat
  embedDocuments : Nat → List String → Option (List (List Rat))

/-- What a call meets outside the stores: the provider, if one is configured, the vector library, and whether the
log takes the marks. -/
structure Surroundings where
  provider : Option EventProvider
  library : VectorStore → SemanticEntry → LibraryAnswer
  marks : Bool

structure EventPaths where
  dbPath : String
  indexDir : String

def EventPaths.fileBacked (paths : EventPaths) : Bool :=
  paths.dbPath ≠ ":memory:" && paths.indexDir ≠ "" && paths.indexDir ≠ ":memory:"

structure EventStores where
  episodic : EpisodicTable
  index : VectorStore
  files : IndexFiles

def EventStores.fresh (dimension : Nat) : EventStores := ⟨.empty,.withDimension dimension,.none⟩

/-- A limit is put in the query as an `i64`; from 2^63 on it is negative, and the query is refused. -/
def EpisodicTable.unembeddedEvents (t : EpisodicTable) (limit : Nat) : List Event :=
  if 2 ^ 63 ≤ limit then []
  else (((t.rows.filter (fun row => !row.embedded)).insertionSort (fun a b => a.ts ≤ b.ts)).take limit).map EventRow.parseEvent

theorem EpisodicTable.mem_unembeddedEvents {t : EpisodicTable} {limit : Nat} {event : Event}
    (member : event ∈ t.unembeddedEvents limit) :
    ∃ row ∈ t.rows.filter (fun row => !row.embedded),row.parseEvent = event := by
  unfold unembeddedEvents at member
  split at member
  next => cases member
  next =>
    obtain ⟨row,listed,same⟩ := List.mem_map.mp member
    exact ⟨row,(List.mem_insertionSort _).mp (List.mem_of_mem_take listed),same⟩

def EpisodicTable.marked (t : EpisodicTable) : List Uuid := (t.rows.filter (fun row => row.embedded)).map EventRow.id

theorem EpisodicTable.mem_marked {t : EpisodicTable} {id : Uuid} :
    id ∈ t.marked ↔ ∃ row ∈ t.rows, row.embedded = true ∧ row.id = id := by
  simp [marked,and_assoc]

inductive EventCall where
  | ingest (events : List Event)
  | reindexUnembedded (limit : Nat)
  | persist (stop : Option (SaveStop × String))

/-- A call, a shutdown and a new start, or a stop within a call and a new start. A start is given the width that is
configured then. -/
inductive EventStep where
  | call (surroundings : Surroundings) (call : EventCall)
  | restart (stop : Option (SaveStop × String)) (dimension : Nat)
  | crash (surroundings : Surroundings) (call : EventCall) (point : Nat) (dimension : Nat)

section
variable (env : Env)

def semanticEntry (item : (Event × String) × List Rat) : SemanticEntry :=
  ⟨item.1.1.id,item.1.2,item.2,eventMetadata env item.1.1⟩

def indexVector (library : VectorStore → SemanticEntry → LibraryAnswer) (done : VectorStore × List Uuid)
    (item : (Event × String) × List Rat) : VectorStore × List Uuid :=
  match done.1.upsert (semanticEntry env item) (library done.1 (semanticEntry env item)) with
  | (.error _,left) => (left,done.2)
  | (.ok _,written) => (written,done.2 ++ [item.1.1.id])

def indexVectors (provider : EventProvider) (library : VectorStore → SemanticEntry → LibraryAnswer)
    (done : VectorStore × List Uuid) (batch : List (Event × String) × Nat) : VectorStore × List Uuid :=
  match provider.embedDocuments batch.2 (batch.1.map Prod.snd) with
  | none => done
  | some embeddings => (batch.1.zip embeddings).foldl (indexVector env library) done

namespace EventStores

def embedAndIndex (s : EventStores) (around : Surroundings) (events : List Event) : Except Failure Nat × EventStores :=
  match around.provider with
  | none => (.ok 0,s)
  | some provider =>
    match embeddingTexts env events with
    | none => (.error .panic,s)
    | some paired =>
      let size := if provider.batchSize = 0 then 64 else provider.batchSize
      let (index,succeeded) := (chunks size paired).zipIdx.foldl (indexVectors env provider around.library) (s.index,[])
      (.ok succeeded.length,{ s with
        index := index
        episodic := if around.marks then s.episodic.markEmbedded succeeded else s.episodic })

def ingest (s : EventStores) (around : Surroundings) (events : List Event) : Except Failure Nat × EventStores :=
  if events.isEmpty then (.ok 0,s)
  else
    match s.episodic.append events with
    | .error err => (.error (.error err),s)
    | .ok (count,episodic) =>
      match embedAndIndex env { s with episodic := episodic } around events with
      | (.error failure,after) => (.error failure,after)
      | (.ok _,after) => (.ok count,after)

def reindexUnembedded (s : EventStores) (around : Surroundings) (limit : Nat) : Except Failure Nat × EventStores :=
  if 2 ^ 63 ≤ limit then (.error (.error (.query "LIMIT/OFFSET cannot be negative")),s)
  else if (s.episodic.unembeddedEvents limit).isEmpty then (.ok 0,s)
  else embedAndIndex env s around (s.episodic.unembeddedEvents limit)

def persist (paths : EventPaths) (s : EventStores) (stop : Option (SaveStop × String)) :
    Except Error Unit × EventStores :=
  if paths.indexDir = "" || paths.indexDir = ":memory:" then (.ok (),s)
  else
    (match stop with
      | none => .ok ()
      | some (stop,text) => .error (stop.toError text),
      { s with files := s.index.save s.files (stop.map Prod.fst) })

/-- A new process: the log as it is on disk, and the index of the files if they can be read. -/
def reopen (paths : EventPaths) (dimension : Nat) (s : EventStores) : EventStores where
  episodic := if paths.dbPath = ":memory:" then .empty else s.episodic
  index := if paths.fileBacked then (VectorStore.load s.files).getD (.withDimension dimension) else .withDimension dimension
  files := s.files

def perform (paths : EventPaths) (s : EventStores) (around : Surroundings) : EventCall → EventStores
  | .ingest events => (ingest env s around events).2
  | .reindexUnembedded limit => (reindexUnembedded env s around limit).2
  | .persist stop => (persist paths s stop).2

/-- The states a call can be stopped in, as the disk tells them apart: the log is written when the events are
appended and when they are marked, the files by a save. -/
def points (paths : EventPaths) (s : EventStores) (around : Surroundings) : EventCall → List EventStores
  | .ingest events =>
    match s.episodic.append events with
    | .error _ => [s]
    | .ok (_,episodic) => [s,{ s with episodic := episodic },(ingest env s around events).2]
  | call => [s,perform env paths s around call]

def step (paths : EventPaths) (s : EventStores) : EventStep → EventStores
  | .call around call => perform env paths s around call
  | .restart stop dimension => (persist paths s stop).2.reopen paths dimension
  | .crash around call point dimension =>
    ((points env paths s around call)[point]?.getD (perform env paths s around call)).reopen paths dimension

end EventStores

/-- All that indexing one vector can do: nothing, drop what was kept for the id, or keep the vector. -/
theorem indexVector_cases (library : VectorStore → SemanticEntry → LibraryAnswer) (done : VectorStore × List Uuid)
    (item : (Event × String) × List Rat) :
    indexVector env library done item = done ∨
      (item.2.length = done.1.dimension ∧ (library done.1 (semanticEntry env item)).fault ≠ none ∧
        ∃ removes, indexVector env library done item = ((done.1.delete (semanticEntry env item).id removes).skipKey,done.2)) ∨
      (done.1.Accepts (semanticEntry env item) (library done.1 (semanticEntry env item)) ∧
        ∃ removes, ∃ absent : (done.1.delete (semanticEntry env item).id removes).uuidToKey (semanticEntry env item).id = none,
          indexVector env library done item =
            ((done.1.delete (semanticEntry env item).id removes).record (semanticEntry env item) absent,done.2 ++ [item.1.1.id])) := by
  have all := done.1.upsert_cases (semanticEntry env item) (library done.1 (semanticEntry env item))
  rw [indexVector]
  generalize done.1.upsert (semanticEntry env item) (library done.1 (semanticEntry env item)) = result at all ⊢
  obtain ⟨answer,after⟩ := result
  cases all with
  | misfit err misfits => exact Or.inl rfl
  | refused err fits refused => exact Or.inr (Or.inl ⟨fits,refused,_,rfl⟩)
  | taken accepts absent => exact Or.inr (Or.inr ⟨accepts,_,absent,rfl⟩)

/-- The vectors that the provider gives for a call. -/
def offered (around : Surroundings) (events : List Event) : List ((Event × String) × List Rat) :=
  match around.provider with
  | none => []
  | some provider =>
    match embeddingTexts env events with
    | none => []
    | some paired =>
      (chunks (if provider.batchSize = 0 then 64 else provider.batchSize) paired).zipIdx.flatMap (fun batch =>
        match provider.embedDocuments batch.2 (batch.1.map Prod.snd) with
        | none => []
        | some embeddings => batch.1.zip embeddings)

theorem mem_offered {around : Surroundings} {events : List Event} {item : (Event × String) × List Rat}
    (inside : item ∈ offered env around events) : item.1.1 ∈ events := by
  unfold offered at inside
  split at inside
  next => cases inside
  next provider given =>
    split at inside
    next => cases inside
    next paired read =>
      obtain ⟨batch,listed,inside⟩ := List.mem_flatMap.mp inside
      split at inside
      next => cases inside
      next embeddings answered =>
        have chunk : batch.1 ∈ chunks (if provider.batchSize = 0 then 64 else provider.batchSize) paired :=
          List.fst_mem_of_mem_zipIdx listed
        exact embeddingTexts_events env read ▸ List.mem_map_of_mem (mem_chunks chunk (List.of_mem_zip inside).1)

namespace EventStores

/-- The stores after a list of vectors: each is offered to the index, and the events of those taken are marked. -/
def indexed (s : EventStores) (around : Surroundings) (items : List ((Event × String) × List Rat)) : EventStores :=
  { s with
    index := (items.foldl (indexVector env around.library) (s.index,[])).1
    episodic :=
      if around.marks then s.episodic.markEmbedded (items.foldl (indexVector env around.library) (s.index,[])).2
      else s.episodic }

@[simp] theorem indexed_nil (s : EventStores) (around : Surroundings) : indexed env s around [] = s := by
  simp [indexed,EpisodicTable.markEmbedded_nil]

theorem keys_indexed (s : EventStores) (around : Surroundings) (items : List ((Event × String) × List Rat)) :
    (indexed env s around items).episodic.keys = s.episodic.keys := by
  unfold indexed
  split
  next => rw [EpisodicTable.markEmbedded,Table.keys_update]
  next => rfl

theorem embedAndIndex_indexed (s : EventStores) (around : Surroundings) (events : List Event) :
    (embedAndIndex env s around events).2 = indexed env s around (offered env around events) := by
  unfold embedAndIndex offered
  cases around.provider with
  | none => simp
  | some provider =>
    cases embeddingTexts env events with
    | none => simp
    | some paired =>
      have batches (done : VectorStore × List Uuid) (batch : List (Event × String) × Nat) :
          (match provider.embedDocuments batch.2 (batch.1.map Prod.snd) with
            | none => []
            | some embeddings => batch.1.zip embeddings).foldl (indexVector env around.library) done =
          indexVectors env provider around.library done batch := by
        rw [indexVectors]
        cases provider.embedDocuments batch.2 (batch.1.map Prod.snd) with
        | none => rfl
        | some embeddings => rfl
      simp only [indexed,List.foldl_flatMap,batches]

theorem ingest_indexed (s : EventStores) (around : Surroundings) (events : List Event) :
    (ingest env s around events).2 =
      match s.episodic.append events with
      | .error _ => s
      | .ok (_,episodic) => indexed env { s with episodic := episodic } around (offered env around events) := by
  unfold ingest
  split
  next empty =>
    cases List.isEmpty_iff.mp empty
    have none : offered env around [] = [] := by
      rw [List.eq_nil_iff_forall_not_mem]
      intro item inside
      cases mem_offered env inside
    simp [EpisodicTable.append,none]
  next =>
    cases s.episodic.append events with
    | error err => rfl
    | ok written =>
      simp only [← embedAndIndex_indexed]
      cases embedAndIndex env { s with episodic := written.2 } around events with
      | mk answer after => cases answer with
        | error failure => rfl
        | ok count => rfl

theorem reindexUnembedded_indexed (s : EventStores) (around : Surroundings) (limit : Nat) :
    (reindexUnembedded env s around limit).2 =
      indexed env s around (offered env around (s.episodic.unembeddedEvents limit)) := by
  have idle (empty : s.episodic.unembeddedEvents limit = []) :
      s = indexed env s around (offered env around (s.episodic.unembeddedEvents limit)) := by
    have none : offered env around (s.episodic.unembeddedEvents limit) = [] := by
      rw [List.eq_nil_iff_forall_not_mem,empty]
      intro item inside
      cases mem_offered env inside
    rw [none,indexed_nil]
  unfold reindexUnembedded
  split
  next large => exact idle (if_pos large)
  next =>
    split
    next empty => exact idle (List.isEmpty_iff.mp empty)
    next => exact embedAndIndex_indexed env s around _

end EventStores

def OfStored (stored : List Uuid) (library : VectorStore → SemanticEntry → LibraryAnswer) (done : VectorStore × List Uuid)
    (item : (Event × String) × List Rat) : Prop :=
  done.1.Accepts (semanticEntry env item) (library done.1 (semanticEntry env item)) → item.1.1.id ∈ stored

/-- A vector that the library refuses is not of an event that is marked, or to be marked. -/
def Spared (marked : List Uuid) (library : VectorStore → SemanticEntry → LibraryAnswer) (done : VectorStore × List Uuid)
    (item : (Event × String) × List Rat) : Prop :=
  item.2.length = done.1.dimension → (library done.1 (semanticEntry env item)).fault ≠ none →
    item.1.1.id ∉ marked ∧ item.1.1.id ∉ done.2

def Within (stored : List Uuid) (done : VectorStore × List Uuid) : Prop :=
  ∀ id, (done.1.uuidToKey id).isSome → id ∈ stored

theorem Within.indexVector {stored : List Uuid} {library : VectorStore → SemanticEntry → LibraryAnswer}
    {done : VectorStore × List Uuid} {item : (Event × String) × List Rat} (within : Within stored done)
    (placed : OfStored env stored library done item) : Within stored (indexVector env library done item) := by
  intro id known
  rcases indexVector_cases env library done item with same | ⟨_,_,removes,made⟩ | ⟨accepts,removes,absent,made⟩
  · rw [same] at known
    exact within id known
  · rw [made,VectorStore.uuidToKey_skipKey,VectorStore.uuidToKey_delete] at known
    by_cases own : id = (semanticEntry env item).id
    · rw [own,Function.update_self] at known
      cases known
    · rw [Function.update_of_ne own] at known
      exact within id known
  · by_cases own : id = (semanticEntry env item).id
    · rw [own]
      exact placed accepts
    · rw [made,VectorStore.uuidToKey_record,VectorStore.uuidToKey_delete] at known
      rw [Function.update_of_ne own,Function.update_of_ne own] at known
      exact within id known

/-- What stands in the index after each vector: the marked events, and those that are noted. -/
structure Retains (marked : List Uuid) (done : VectorStore × List Uuid) : Prop where
  marked : ∀ id ∈ marked, (done.1.holding id).isSome
  noted : ∀ id ∈ done.2, (done.1.holding id).isSome

theorem Retains.indexVector {marked : List Uuid} {library : VectorStore → SemanticEntry → LibraryAnswer}
    {done : VectorStore × List Uuid} {item : (Event × String) × List Rat} (retains : Retains marked done)
    (spared : Spared env marked library done item) : Retains marked (indexVector env library done item) := by
  rcases indexVector_cases env library done item with same | ⟨fits,refused,removes,made⟩ | ⟨_,removes,absent,made⟩
  · rw [same]
    exact retains
  · obtain ⟨unmarked,unnoted⟩ := spared fits refused
    have kept (id : Uuid) (apart : id ≠ item.1.1.id) (there : (done.1.holding id).isSome) :
        ((done.1.delete (semanticEntry env item).id removes).skipKey.holding id).isSome := by
      have other : id ≠ (semanticEntry env item).id := apart
      rw [VectorStore.holding_skipKey,VectorStore.holding_delete,if_neg other]
      exact there
    rw [made]
    constructor
    · intro id inside
      exact kept id (fun own => unmarked (own ▸ inside)) (retains.marked id inside)
    · intro id inside
      exact kept id (fun own => unnoted (own ▸ inside)) (retains.noted id inside)
  · have kept (id : Uuid) (there : id = (semanticEntry env item).id ∨ (done.1.holding id).isSome) :
        (((done.1.delete (semanticEntry env item).id removes).record (semanticEntry env item) absent).holding id).isSome := by
      rw [VectorStore.holding_record,VectorStore.holding_delete]
      by_cases own : id = (semanticEntry env item).id
      · rw [if_pos own]
        rfl
      · rw [if_neg own,if_neg own]
        exact there.resolve_left own
    rw [made]
    refine ⟨fun id inside => kept id (Or.inr (retains.marked id inside)),?_⟩
    intro id inside
    rcases List.mem_append.mp inside with before | last
    · exact kept id (Or.inr (retains.noted id before))
    · exact kept id (Or.inl (List.mem_singleton.mp last))

namespace EventStores

/-- An id of the index is the id of a stored event, and an event that is marked is in the index with its vector. -/
structure Agrees (s : EventStores) : Prop where
  known : ∀ id, (s.index.uuidToKey id).isSome → id ∈ s.episodic.keys
  marked : ∀ row ∈ s.episodic.rows, row.embedded = true → (s.index.holding row.id).isSome

/-- The same of the saved ids. -/
structure Kept (s : EventStores) : Prop extends Agrees s where
  saved : ∀ saved, s.files.metadata = some saved → ∀ id, (saved.uuidToKey id).isSome → id ∈ s.episodic.keys

/-- What the files give back has the vector of every event that is marked. -/
def Covered (s : EventStores) : Prop :=
  ∀ id ∈ s.episodic.marked, ((VectorStore.load s.files).bind (fun store => store.holding id)).isSome

theorem kept_fresh (dimension : Nat) : Kept (fresh dimension) where
  known := by simp [fresh,VectorStore.withDimension]
  marked := by simp [fresh,Table.empty]
  saved := by simp [fresh,IndexFiles.none]

theorem Kept.append {s : EventStores} (kept : Kept s) {episodic : EpisodicTable}
    (grows : ∀ row ∈ s.episodic.rows, row ∈ episodic.rows)
    (new : ∀ row ∈ episodic.rows, row.embedded = true → row ∈ s.episodic.rows) :
    Kept { s with episodic := episodic } where
  known := fun id there => by
    obtain ⟨row,inside,own⟩ := (s.episodic.mem_keys id).mp (kept.known id there)
    exact (episodic.mem_keys id).mpr ⟨row,grows row inside,own⟩
  marked := fun row inside set => kept.marked row (new row inside set) set
  saved := fun saved written id there => by
    obtain ⟨row,inside,own⟩ := (s.episodic.mem_keys id).mp (kept.saved saved written id there)
    exact (episodic.mem_keys id).mpr ⟨row,grows row inside,own⟩

theorem Kept.appended {s : EventStores} (kept : Kept s) {events : List Event} {count : Nat} {episodic : EpisodicTable}
    (ok : s.episodic.append events = .ok (count,episodic)) : Kept { s with episodic := episodic } := by
  have rows : episodic = (events.map Event.toRow).foldl EpisodicTable.insertOrIgnore s.episodic := by
    by_cases able : s.episodic.Appendable events
    · obtain ⟨n,made⟩ := (EpisodicTable.append_spec s.episodic events).1 able
      exact (Prod.mk.inj (Except.ok.inj (ok.symm.trans made))).2
    · obtain ⟨err,failed⟩ := (EpisodicTable.append_spec s.episodic events).2 able
      cases ok.symm.trans failed
  subst rows
  apply kept.append
  · intro row inside
    exact EpisodicTable.insertAll_kept inside
  · intro row inside set
    rcases EpisodicTable.mem_insertAll inside with before | new
    · exact before
    · obtain ⟨event,_,rfl⟩ := List.mem_map.mp new
      cases set

theorem Kept.indexed {s : EventStores} (kept : Kept s) {around : Surroundings}
    {items : List ((Event × String) × List Rat)}
    (placed : Along (indexVector env around.library) (OfStored env s.episodic.keys around.library) (s.index,[]) items)
    (spared : Along (indexVector env around.library) (Spared env s.episodic.marked around.library) (s.index,[]) items) :
    Kept (indexed env s around items) := by
  have known : Within s.episodic.keys (items.foldl (indexVector env around.library) (s.index,[])) :=
    placed.invariant kept.known (fun done item within given => within.indexVector env given)
  have start : Retains s.episodic.marked (s.index,[]) := by
    refine ⟨?_,fun id inside => absurd inside List.not_mem_nil⟩
    intro id inside
    obtain ⟨row,listed,set,rfl⟩ := EpisodicTable.mem_marked.mp inside
    exact kept.marked row listed set
  have retains : Retains s.episodic.marked (items.foldl (indexVector env around.library) (s.index,[])) :=
    spared.invariant start (fun done item before given => before.indexVector env given)
  refine ⟨⟨?_,?_⟩,?_⟩
  · rw [keys_indexed]
    exact known
  · intro row inside set
    unfold EventStores.indexed at inside
    split at inside
    next =>
      obtain ⟨old,there,rfl⟩ := EpisodicTable.mem_markEmbedded.mp inside
      by_cases listed : old.id ∈ (items.foldl (indexVector env around.library) (s.index,[])).2
      · simp only [listed,if_true]
        exact retains.noted old.id listed
      · simp only [listed,if_false] at set ⊢
        exact retains.marked old.id (EpisodicTable.mem_marked.mpr ⟨old,there,set,rfl⟩)
    next => exact retains.marked row.id (EpisodicTable.mem_marked.mpr ⟨row,inside,set,rfl⟩)
  · rw [keys_indexed]
    exact kept.saved

def SavedStored (s : EventStores) : Prop :=
  ∀ saved, s.files.metadata = some saved → ∀ id, (saved.uuidToKey id).isSome → id ∈ s.episodic.keys

theorem SavedStored.indexed {s : EventStores} (stored : SavedStored s) (around : Surroundings)
    (items : List ((Event × String) × List Rat)) : SavedStored (indexed env s around items) := by
  intro saved written id there
  rw [keys_indexed]
  exact stored saved written id there

theorem Kept.persist {s : EventStores} (kept : Kept s) (paths : EventPaths) (stop : Option (SaveStop × String)) :
    Kept (persist paths s stop).2 := by
  unfold EventStores.persist
  split
  next => exact kept
  next =>
    refine ⟨⟨kept.known,kept.marked⟩,?_⟩
    intro saved written id there
    rcases VectorStore.save_metadata written with before | new
    · exact kept.saved saved before id there
    · rw [new] at there
      exact kept.known id there

theorem Kept.perform_saved {s : EventStores} (kept : Kept s) (paths : EventPaths) (around : Surroundings)
    (call : EventCall) : SavedStored (perform env paths s around call) := by
  cases call with
  | ingest events =>
    rw [perform,ingest_indexed]
    cases ok : s.episodic.append events with
    | error err => exact kept.saved
    | ok written => exact SavedStored.indexed env (kept.appended ok).saved around _
  | reindexUnembedded limit =>
    rw [perform,reindexUnembedded_indexed]
    exact SavedStored.indexed env kept.saved around _
  | persist stop => exact (kept.persist paths stop).saved

theorem Kept.stopped_saved {s : EventStores} (kept : Kept s) (paths : EventPaths) (around : Surroundings)
    (call : EventCall) (point : Nat) :
    SavedStored ((points env paths s around call)[point]?.getD (perform env paths s around call)) := by
  have done := kept.perform_saved env paths around call
  have each : ∀ left ∈ points env paths s around call, SavedStored left := by
    cases call with
    | ingest events =>
      rw [points]
      cases ok : s.episodic.append events with
      | error err =>
        intro left inside
        cases List.mem_singleton.mp inside
        exact kept.saved
      | ok written =>
        intro left inside
        simp only [List.mem_cons,List.not_mem_nil,or_false] at inside
        rcases inside with rfl | rfl | rfl
        · exact kept.saved
        · exact (kept.appended ok).saved
        · exact done
    | reindexUnembedded limit =>
      intro left inside
      simp only [points,List.mem_cons,List.not_mem_nil,or_false] at inside
      rcases inside with rfl | rfl
      · exact kept.saved
      · exact done
    | persist stop =>
      intro left inside
      simp only [points,List.mem_cons,List.not_mem_nil,or_false] at inside
      rcases inside with rfl | rfl
      · exact kept.saved
      · exact done
  cases found : (points env paths s around call)[point]? with
  | none => exact done
  | some left => exact each left (List.mem_of_getElem? found)

instance (s : EventStores) : Decidable (Covered s) := inferInstanceAs (Decidable (∀ id ∈ s.episodic.marked,_))

theorem reopen_kept {s : EventStores} {paths : EventPaths} (backed : paths.fileBacked = true) (stored : SavedStored s)
    (covered : Covered s) (dimension : Nat) : Kept (reopen paths dimension s) := by
  have file : paths.dbPath ≠ ":memory:" := by
    simp only [EventPaths.fileBacked,Bool.and_eq_true,decide_eq_true_eq] at backed
    exact backed.1.1
  have log : (reopen paths dimension s).episodic = s.episodic := if_neg file
  have index : (reopen paths dimension s).index = (VectorStore.load s.files).getD (.withDimension dimension) :=
    if_pos backed
  refine ⟨⟨?_,?_⟩,?_⟩
  · intro id known
    rw [index] at known
    rw [log]
    cases loaded : VectorStore.load s.files with
    | none =>
      rw [loaded] at known
      cases known
    | some store =>
      obtain ⟨saved,written,same⟩ := VectorStore.load_known loaded
      rw [loaded] at known
      exact stored saved written id (same ▸ known)
  · intro row inside set
    rw [log] at inside
    have held := covered row.id (EpisodicTable.mem_marked.mpr ⟨row,inside,set,rfl⟩)
    rw [index]
    cases loaded : VectorStore.load s.files with
    | none =>
      rw [loaded] at held
      cases held
    | some store =>
      rw [loaded] at held
      exact held
  · rw [SavedStored] at stored
    rw [log]
    exact stored

/-- What a step must meet for the log and the index to agree after it. -/
def Safe (paths : EventPaths) (s : EventStores) : EventStep → Prop
  | .call around (.ingest events) =>
    match s.episodic.append events with
    | .error _ => True
    | .ok (_,episodic) =>
      Along (indexVector env around.library) (OfStored env episodic.keys around.library) (s.index,[])
          (offered env around events) ∧
        Along (indexVector env around.library) (Spared env episodic.marked around.library) (s.index,[])
          (offered env around events)
  | .call around (.reindexUnembedded limit) =>
    Along (indexVector env around.library) (Spared env s.episodic.marked around.library) (s.index,[])
      (offered env around (s.episodic.unembeddedEvents limit))
  | .call _ (.persist _) => True
  | .restart none _ => True
  | .restart (some stop) _ => Covered (persist paths s (some stop)).2
  | .crash around call point _ =>
    Covered ((points env paths s around call)[point]?.getD (perform env paths s around call))

theorem unembedded_placed (s : EventStores) (around : Surroundings) (limit : Nat) (done : VectorStore × List Uuid) :
    Along (indexVector env around.library) (OfStored env s.episodic.keys around.library) done
      (offered env around (s.episodic.unembeddedEvents limit)) := by
  have stored (item : (Event × String) × List Rat)
      (inside : item ∈ offered env around (s.episodic.unembeddedEvents limit)) : item.1.1.id ∈ s.episodic.keys := by
    obtain ⟨row,waits,same⟩ := EpisodicTable.mem_unembeddedEvents (mem_offered env inside)
    exact (s.episodic.mem_keys _).mpr ⟨row,(List.mem_filter.mp waits).1,by rw [← same]; rfl⟩
  generalize offered env around (s.episodic.unembeddedEvents limit) = items at stored ⊢
  induction items generalizing done with
  | nil => trivial
  | cons item items ih =>
    exact ⟨fun _ => stored item List.mem_cons_self,ih _ (fun other inside => stored other (List.mem_cons_of_mem item inside))⟩

theorem Kept.step {s : EventStores} (kept : Kept s) {paths : EventPaths} (backed : paths.fileBacked = true)
    {step : EventStep} (safe : Safe env paths s step) : Kept (EventStores.step env paths s step) := by
  cases step with
  | call around call =>
    cases call with
    | ingest events =>
      rw [EventStores.step,perform,ingest_indexed]
      rw [Safe] at safe
      cases ok : s.episodic.append events with
      | error err => exact kept
      | ok written =>
        rw [ok] at safe
        exact (kept.appended ok).indexed env safe.1 safe.2
    | reindexUnembedded limit =>
      rw [EventStores.step,perform,reindexUnembedded_indexed]
      exact kept.indexed env (unembedded_placed env s around limit _) safe
    | persist stop => exact kept.persist paths stop
  | restart stop dimension =>
    have stored := (kept.persist paths stop).saved
    cases stop with
    | none =>
      refine reopen_kept backed stored ?_ dimension
      have kind : ¬(paths.indexDir = "" || paths.indexDir = ":memory:") = true := by
        simp only [EventPaths.fileBacked,Bool.and_eq_true,decide_eq_true_eq] at backed
        simp [backed.1.2,backed.2]
      rw [EventStores.persist,if_neg kind]
      intro id inside
      obtain ⟨row,listed,set,rfl⟩ := EpisodicTable.mem_marked.mp inside
      exact kept.marked row listed set
    | some stop => exact reopen_kept backed stored safe dimension
  | crash around call point dimension => exact reopen_kept backed (kept.stopped_saved env paths around call point) safe dimension

/-- Along every run of calls and starts that meet their conditions, the log and the event vectors agree. -/
theorem events_and_vectors_agree (paths : EventPaths) (backed : paths.fileBacked = true) (dimension : Nat)
    (steps : List EventStep) (safe : Along (step env paths) (Safe env paths) (fresh dimension) steps) :
    Throughout (step env paths) Agrees (fresh dimension) steps := by
  intro n
  exact ((safe.take n).invariant (kept_fresh dimension) (fun s i kept given => kept.step env backed given)).toAgrees

end EventStores

end

/-- A library that refuses a number in use, and a provider that answers every batch. -/
def Surroundings.calm : Surroundings where
  provider := some ⟨64,fun _ texts => some (texts.map (fun _ => [1]))⟩
  library := fun store _ =>
    ⟨true,if (store.vectors store.nextKey).isSome then some (.add "Duplicate keys not allowed in high-level wrappers") else none⟩
  marks := true

def deliveredEvent (id : Uuid) (key : String) : Event := ⟨id,"s","t",.obj [],0,none,none,[],some key⟩

namespace EventStores

/-- An event, a save, the same event again, and a stop that loses nothing. -/
def quietRun : List EventStep :=
  [.call .calm (.ingest [deliveredEvent 1 "k"]),.call .calm (.persist none),.crash .calm (.ingest [deliveredEvent 1 "k"]) 1 1]

theorem events_and_vectors_agree_quiet :
    (⟨"e.duckdb","index"⟩ : EventPaths).fileBacked = true ∧
      Along (step Env.ascii ⟨"e.duckdb","index"⟩) (Safe Env.ascii ⟨"e.duckdb","index"⟩) (fresh 1) quietRun ∧
      Throughout (step Env.ascii ⟨"e.duckdb","index"⟩) Agrees (fresh 1) quietRun := by
  have safe : Along (step Env.ascii ⟨"e.duckdb","index"⟩) (Safe Env.ascii ⟨"e.duckdb","index"⟩) (fresh 1) quietRun := by
    refine ⟨⟨⟨fun _ => ?_,trivial⟩,⟨fun _ refused => absurd ?_ refused,trivial⟩⟩,trivial,?_,trivial⟩
    · decide +kernel
    · decide +kernel
    · rw [Safe]
      decide +kernel
  exact ⟨by decide,safe,events_and_vectors_agree Env.ascii ⟨"e.duckdb","index"⟩ (by decide) 1 quietRun safe⟩

/-- A key delivered again under another id leaves a vector without an event; a stop after the mark and before a
save leaves an event without its vector. -/
theorem events_and_vectors_part :
    ¬Throughout (step Env.ascii ⟨"e.duckdb","index"⟩) Agrees (fresh 1)
        [.call .calm (.ingest [deliveredEvent 1 "k"]),.call .calm (.ingest [deliveredEvent 2 "k"])] ∧
      ¬Throughout (step Env.ascii ⟨"e.duckdb","index"⟩) Agrees (fresh 1)
        [.call .calm (.ingest [deliveredEvent 1 "k"]),.crash .calm (.ingest []) 0 1] := by
  constructor
  · intro all
    exact absurd ((all 2).known 2 (by decide +kernel)) (by decide +kernel)
  · intro all
    have set : (1 : Uuid) ∈ (run (step Env.ascii ⟨"e.duckdb","index"⟩) (fresh 1)
        [.call .calm (.ingest [deliveredEvent 1 "k"]),.crash .calm (.ingest []) 0 1]).episodic.marked := by decide +kernel
    obtain ⟨row,inside,marked,own⟩ := EpisodicTable.mem_marked.mp set
    have held := (all 2).marked row inside marked
    rw [own] at held
    exact absurd held (by decide +kernel)

end EventStores

end Ecphoria
