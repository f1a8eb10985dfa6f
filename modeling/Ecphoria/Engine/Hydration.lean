import Ecphoria.Engine.Search
import Ecphoria.Library.Batches

/-! Candidate ids are hydrated in batches. A query answers the rows of its batch in an order of its own; they are
gathered in a map and taken from it in the order of the ids, which is the ranking that the ids came in. -/
namespace Ecphoria
open Library

/-- The order in which the engine answers the rows of each query, which nothing fixes. -/
structure RowOrder where
  answer : Nat → List Memory → List Memory
  permutes : ∀ query rows, (answer query rows).Perm rows

namespace MemoryTable

def hydrationBatch : Nat := 512

/-- `WHERE <scope> AND state = 'active' AND id IN (<batch>)` -/
def selectActiveByIds (t : MemoryTable) (scope : MemoryScope) (batch : List Uuid) : List Memory :=
  t.memories.filter (fun m => activeIn scope m && m.id ∈ batch)

def hydrateBatch (order : RowOrder) (t : MemoryTable) (scope : MemoryScope) (found : Uuid → Option Memory)
    (batch : List Uuid × Nat) : Uuid → Option Memory :=
  (order.answer batch.2 (t.selectActiveByIds scope batch.1)).foldl (keep Memory.id) found

def hydrateActiveByIds (order : RowOrder) (t : MemoryTable) (ids : List Uuid) (scope : MemoryScope) : List Memory :=
  if ids.isEmpty then []
  else takeFound ((batches hydrationBatch ids).zipIdx.foldl (t.hydrateBatch order scope) (fun _ => none)) ids

/-- The active rows of the scope that the ids name, each once, where its id first occurs. -/
structure Hydrated (t : MemoryTable) (ids : List Uuid) (scope : MemoryScope) (out : List Memory) : Prop where
  named : ∀ m, m ∈ out ↔ m ∈ t.memories ∧ activeIn scope m = true ∧ m.id ∈ ids
  ranked : out.Pairwise (fun a b => ids.idxOf a.id < ids.idxOf b.id)

variable {order : RowOrder} {t : MemoryTable} {scope : MemoryScope}

def activeById (t : MemoryTable) (scope : MemoryScope) (id : Uuid) : Option Memory := (t.get id).filter (activeIn scope)

theorem activeById_eq_some {id : Uuid} {m : Memory} :
    t.activeById scope id = some m ↔ m ∈ t.memories ∧ activeIn scope m = true ∧ m.id = id := by
  rw [activeById,Option.filter_eq_some_iff]
  constructor
  · rintro ⟨found,active⟩
    obtain ⟨row,inside,rfl,same⟩ := get_eq_some found
    exact ⟨List.mem_map_of_mem inside,active,same⟩
  · rintro ⟨stored,active,rfl⟩
    obtain ⟨row,inside,rfl⟩ := List.mem_map.mp stored
    exact ⟨get_of_mem inside,active⟩

theorem hydrateBatch_eq (found : Uuid → Option Memory) (batch : List Uuid × Nat) (id : Uuid) :
    t.hydrateBatch order scope found batch id =
      if id ∈ batch.1 ∧ (t.activeById scope id).isSome then t.activeById scope id else found id := by
  have listed (m : Memory) : m ∈ order.answer batch.2 (t.selectActiveByIds scope batch.1) ↔
      t.activeById scope m.id = some m ∧ m.id ∈ batch.1 := by
    rw [(order.permutes batch.2 _).mem_iff,selectActiveByIds,List.mem_filter,activeById_eq_some]
    simp [and_assoc]
  rw [hydrateBatch,foldl_keep (fun m inside => ((listed m).mp inside).1)]
  refine if_congr ?_ rfl rfl
  constructor
  · rintro ⟨m,inside,rfl⟩
    obtain ⟨active,among⟩ := (listed m).mp inside
    exact ⟨among,by rw [active]; rfl⟩
  · rintro ⟨among,some⟩
    obtain ⟨m,active⟩ := Option.isSome_iff_exists.mp some
    obtain ⟨_,_,rfl⟩ := activeById_eq_some.mp active
    exact ⟨m,(listed m).mpr ⟨active,among⟩,rfl⟩

theorem hydrateBatches_eq (all : List (List Uuid × Nat)) (found : Uuid → Option Memory) (id : Uuid) :
    all.foldl (t.hydrateBatch order scope) found id =
      if id ∈ (all.map Prod.fst).flatten ∧ (t.activeById scope id).isSome then t.activeById scope id else found id := by
  induction all generalizing found with
  | nil => simp
  | cons batch all ih =>
    rw [List.foldl_cons,ih,hydrateBatch_eq,List.map_cons,List.flatten_cons]
    by_cases later : id ∈ (all.map Prod.fst).flatten ∧ (t.activeById scope id).isSome
    · rw [if_pos later,if_pos ⟨List.mem_append_right _ later.1,later.2⟩]
    · rw [if_neg later]
      refine if_congr ?_ rfl rfl
      constructor
      · exact fun here => ⟨List.mem_append_left _ here.1,here.2⟩
      · rintro ⟨inside,some⟩
        rcases List.mem_append.mp inside with here | among
        · exact ⟨here,some⟩
        · exact absurd ⟨among,some⟩ later

theorem hydrateActiveByIds_eq (order : RowOrder) (t : MemoryTable) (ids : List Uuid) (scope : MemoryScope) :
    t.hydrateActiveByIds order ids scope =
      takeFound (fun id => if id ∈ ids then t.activeById scope id else none) ids := by
  have all : ((batches hydrationBatch ids).zipIdx.map Prod.fst).flatten = ids := by
    rw [List.zipIdx_map_fst,flatten_batches]
  rw [hydrateActiveByIds]
  split
  next empty =>
    rw [List.isEmpty_iff.mp empty]
    rfl
  next =>
    congr 1
    funext id
    rw [hydrateBatches_eq,all]
    by_cases inside : id ∈ ids
    · cases active : t.activeById scope id <;> simp [inside]
    · simp [inside]

/-- Candidates come out of the store as they were ranked, for any order of the rows of any query. -/
theorem hydration_keeps_ranking (order : RowOrder) (t : MemoryTable) (ids : List Uuid) (scope : MemoryScope) :
    t.Hydrated ids scope (t.hydrateActiveByIds order ids scope) := by
  rw [hydrateActiveByIds_eq]
  refine ⟨?_,pairwise_takeFound ?_ ids⟩
  · intro m
    rw [mem_takeFound]
    constructor
    · rintro ⟨id,inside,got⟩
      rw [if_pos inside] at got
      obtain ⟨stored,active,rfl⟩ := activeById_eq_some.mp got
      exact ⟨stored,active,inside⟩
    · rintro ⟨stored,active,inside⟩
      refine ⟨m.id,inside,?_⟩
      rw [if_pos inside]
      exact activeById_eq_some.mpr ⟨stored,active,rfl⟩
  · intro id m got
    split at got
    next => exact (activeById_eq_some.mp got).2.2
    next => cases got

end MemoryTable
end Ecphoria
