import Ecphoria.Memory.Indexes

/-! Filling the derived indexes from the memory table: the text index page by page
after it is cleared, the vector index row by row over what it holds. -/
namespace Ecphoria
open Library

/-- The paged loop of `rebuild_lexical_index`. Every page but the last moves the offset, so one turn more
than there are rows is enough. -/
def rebuildPages (t : MemoryTable) (page : Nat) : Nat → Nat → LexicalIndex → LexicalIndex
  | 0,_,index => index
  | turns + 1,offset,index =>
    let rows := t.lexicalPage offset page
    if rows.isEmpty then index
    else
      let index := index.upsertAll (rows.map Memory.toLexicalEntry)
      if rows.length < page then index else rebuildPages t page turns (offset + rows.length) index

def rebuildLexicalIndex (t : MemoryTable) : LexicalIndex := rebuildPages t 2000 (t.rows.length + 1) 0 .empty

theorem rebuildPages_eq (t : MemoryTable) {page : Nat} (positive : 0 < page) :
    ∀ (turns offset : Nat) (index : LexicalIndex), t.lexicalRows.length - offset < turns →
      rebuildPages t page turns offset index =
        index.upsertAll ((t.lexicalRows.drop offset).map Memory.toLexicalEntry)
  | turns + 1,offset,index,enough => by
    have size : (t.lexicalPage offset page).length = min page (t.lexicalRows.length - offset) := by
      simp [MemoryTable.lexicalPage]
    have parts : t.lexicalRows.drop offset = t.lexicalPage offset page ++ t.lexicalRows.drop (offset + page) := by
      rw [MemoryTable.lexicalPage,← List.drop_drop,List.take_append_drop]
    simp only [rebuildPages]
    split
    next empty =>
      have none : t.lexicalRows.length ≤ offset := by
        rw [List.isEmpty_iff_length_eq_zero] at empty
        omega
      rw [List.drop_eq_nil_of_le none]
      rfl
    next some_rows =>
      split
      next last =>
        rw [parts,List.drop_eq_nil_of_le (show t.lexicalRows.length ≤ offset + page by omega),List.append_nil]
      next full =>
        have whole : (t.lexicalPage offset page).length = page := by omega
        rw [whole,rebuildPages_eq t positive turns (offset + page) _ (by omega),parts,List.map_append]
        exact List.foldl_append.symm

theorem find_rebuildLexicalIndex (t : MemoryTable) (id : Uuid) : (rebuildLexicalIndex t).find id =
    ((t.get id).filter (fun m => m.state = .active)).map Memory.toLexicalEntry := by
  have bound : t.lexicalRows.length ≤ t.rows.length := by
    simp only [MemoryTable.lexicalRows,List.length_insertionSort]
    exact (List.length_filter_le _ _).trans_eq (List.length_map _)
  have distinct : ((t.lexicalRows.map Memory.toLexicalEntry).map LexicalEntry.id).Nodup := by
    rw [List.map_map]
    refine (List.Perm.map _ (List.perm_insertionSort _ _)).nodup_iff.mpr ?_
    exact t.memories_nodup.sublist (List.filter_sublist.map _)
  rw [rebuildLexicalIndex,rebuildPages_eq t (by decide) _ _ _ (by omega),List.drop_zero]
  apply Option.ext
  intro entry
  rw [Table.find_upsertAll_empty distinct]
  constructor
  · intro given
    obtain ⟨inside,rfl⟩ := given
    obtain ⟨m,listed,rfl⟩ := List.mem_map.mp inside
    obtain ⟨member,active⟩ := List.mem_filter.mp ((List.mem_insertionSort _).mp listed)
    obtain ⟨row,there,rfl⟩ := List.mem_map.mp member
    have found : t.find row.memory.id = some row := (Table.find_eq_some _ _ _).mpr ⟨there,rfl⟩
    have got : t.get row.memory.toLexicalEntry.id = some row.memory := by
      rw [MemoryTable.get]
      exact congrArg _ found
    simp [got,of_decide_eq_true active]
  · intro found
    obtain ⟨m,kept,rfl⟩ := Option.map_eq_some_iff.mp found
    obtain ⟨got,active⟩ := Option.filter_eq_some_iff.mp kept
    obtain ⟨row,member,rfl,same⟩ := MemoryTable.get_eq_some got
    have listed : row.memory ∈ t.lexicalRows :=
      (List.mem_insertionSort _).mpr (List.mem_filter.mpr ⟨List.mem_map_of_mem member,active⟩)
    exact ⟨List.mem_map_of_mem listed,same⟩

/-- The vectors of the rows, each upserted; a rejected one is skipped. -/
def indexRows (index : ScopedVectorIndex) (rows : List (Memory × List Rat)) : ScopedVectorIndex :=
  rows.foldl (fun index (m,emb) => (index.upsert (scopePartitionKey m.scope) (m.toSemanticEntry emb)).2) index

def rebuildVectorIndex (dimension : Nat) (t : MemoryTable) : ScopedVectorIndex :=
  indexRows (.withDimension dimension) t.loadActiveWithEmbeddings

namespace ScopedVectorIndex

theorem find_leaveOther (index : ScopedVectorIndex) (key other : String) (id x : Uuid) :
    ((index.leaveOther key id).partitions other).entries.find x =
      if x = id ∧ other ≠ key then none else (index.partitions other).entries.find x := by
  split
  next gone =>
    rw [Table.find_eq_none,Table.mem_keys]
    intro given
    obtain ⟨entry,inside,rfl⟩ := given
    exact leaveOther_apart gone.2 inside gone.1
  next kept =>
    unfold leaveOther
    split
    next old found =>
      split
      next moved =>
        by_cases here : other = old
        · subst here
          have apart : x ≠ id := fun same => kept ⟨same,moved⟩
          simp only [retract,Function.update_self]
          exact (Table.find_delete _ id x).trans (if_neg apart)
        · simp only [retract,Function.update_of_ne here]
      next => rfl
    next => rfl

theorem leaveOther_idPartition (index : ScopedVectorIndex) (key : String) (id : Uuid) :
    (index.leaveOther key id).idPartition = index.idPartition := by
  unfold leaveOther
  split
  next =>
    split
    next => rfl
    next => rfl
  next => rfl

theorem leaveOther_dimension (index : ScopedVectorIndex) (key : String) (id : Uuid) :
    (index.leaveOther key id).dimension = index.dimension := by
  unfold leaveOther
  split
  next =>
    split
    next => rfl
    next => rfl
  next => rfl

@[simp] theorem upsert_dimension (index : ScopedVectorIndex) (key : String) (entry : SemanticEntry) :
    (index.upsert key entry).2.dimension = index.dimension := by
  simp only [upsert]
  split
  next => exact leaveOther_dimension ..
  next => exact leaveOther_dimension ..

theorem upsert_misfit {index : ScopedVectorIndex} {entry : SemanticEntry} (key : String)
    (misfit : entry.embedding.length ≠ index.dimension) :
    (index.upsert key entry).2 = index.leaveOther key entry.id := by
  simp only [upsert]
  split
  next => rfl
  next store accepted =>
    have fits := (SemanticStore.upsert_ok accepted).1
    rw [sized,leaveOther_dimension] at fits
    exact absurd fits misfit

theorem upsert_fits {index : ScopedVectorIndex} {entry : SemanticEntry} (key : String)
    (fits : entry.embedding.length = index.dimension) :
    (index.upsert key entry).2.idPartition = Function.update index.idPartition entry.id (some key) ∧
      ∀ other x, ((index.upsert key entry).2.partitions other).entries.find x =
        if x = entry.id then (if other = key then some entry else none)
        else (index.partitions other).entries.find x := by
  simp only [upsert]
  split
  next err refused =>
    have misfit := SemanticStore.upsert_error refused
    rw [sized,leaveOther_dimension] at misfit
    exact absurd fits misfit
  next store accepted =>
    refine ⟨by rw [← leaveOther_idPartition index key entry.id]; rfl,?_⟩
    intro other x
    by_cases here : other = key
    · subst here
      simp only [place,Function.update_self,(SemanticStore.upsert_ok accepted).2,Table.find_upsert]
      by_cases own : x = entry.id
      · simp [own]
      · simp [own,Ne.symm own,find_leaveOther]
    · simp only [place,Function.update_of_ne here,find_leaveOther]
      by_cases own : x = entry.id <;> simp [own,here]

theorem upsert_apart (index : ScopedVectorIndex) (key other : String) (entry : SemanticEntry) {x : Uuid}
    (apart : x ≠ entry.id) : (index.upsert key entry).2.idPartition x = index.idPartition x ∧
      ((index.upsert key entry).2.partitions other).entries.find x = (index.partitions other).entries.find x := by
  by_cases fits : entry.embedding.length = index.dimension
  · obtain ⟨ids,entries⟩ := upsert_fits key fits
    rw [ids,entries,Function.update_of_ne apart,if_neg apart]
    exact ⟨rfl,rfl⟩
  · rw [upsert_misfit key fits,leaveOther_idPartition,find_leaveOther,if_neg (fun both => apart both.1)]
    exact ⟨rfl,rfl⟩

theorem find_eq_none (index : ScopedVectorIndex) {key : String} {id : Uuid}
    (elsewhere : index.idPartition id ≠ some key) : (index.partitions key).entries.find id = none := by
  rw [Table.find_eq_none,Table.mem_keys]
  intro given
  obtain ⟨entry,inside,rfl⟩ := given
  exact elsewhere (index.located key entry inside)

structure Same (a b : ScopedVectorIndex) : Prop where
  dimension : a.dimension = b.dimension
  idPartition : ∀ id, a.idPartition id = b.idPartition id
  entries : ∀ key, (a.partitions key).entries.Same (b.partitions key).entries

end ScopedVectorIndex

def vectorRow (dimension : Nat) (rows : List (Memory × List Rat)) (id : Uuid) : Option (Memory × List Rat) :=
  rows.find? (fun (m,emb) => m.id = id && emb.length = dimension)

@[simp] theorem indexRows_dimension (index : ScopedVectorIndex) (rows : List (Memory × List Rat)) :
    (indexRows index rows).dimension = index.dimension := by
  induction rows generalizing index with
  | nil => rfl
  | cons row rows ih => exact (ih _).trans (index.upsert_dimension ..)

theorem indexRows_apart (index : ScopedVectorIndex) (rows : List (Memory × List Rat)) {id : Uuid}
    (apart : ∀ row ∈ rows, row.1.id ≠ id) (key : String) :
    (indexRows index rows).idPartition id = index.idPartition id ∧
      ((indexRows index rows).partitions key).entries.find id = (index.partitions key).entries.find id := by
  induction rows generalizing index with
  | nil => exact ⟨rfl,rfl⟩
  | cons row rows ih =>
    have rest := ih (index.upsert (scopePartitionKey row.1.scope) (row.1.toSemanticEntry row.2)).2
      (fun later inside => apart later (List.mem_cons_of_mem _ inside))
    have first := index.upsert_apart (scopePartitionKey row.1.scope) key (row.1.toSemanticEntry row.2)
      (apart row List.mem_cons_self).symm
    exact ⟨rest.1.trans first.1,rest.2.trans first.2⟩

theorem indexRows_found {index : ScopedVectorIndex} {rows : List (Memory × List Rat)} {id : Uuid} {m : Memory}
    {emb : List Rat} (distinct : (rows.map (fun row => row.1.id)).Nodup)
    (found : vectorRow index.dimension rows id = some (m,emb)) :
    (indexRows index rows).idPartition id = some (scopePartitionKey m.scope) ∧
      ((indexRows index rows).partitions (scopePartitionKey m.scope)).entries.find id =
        some (m.toSemanticEntry emb) := by
  induction rows generalizing index with
  | nil => cases found
  | cons row rows ih =>
    obtain ⟨new,distinct⟩ := List.nodup_cons.mp distinct
    by_cases here : row.1.id = id ∧ row.2.length = index.dimension
    · obtain ⟨rfl,fits⟩ := here
      have first : row = (m,emb) := by simpa [vectorRow,fits] using found
      subst first
      have placed := ScopedVectorIndex.upsert_fits (scopePartitionKey m.scope)
        (show (m.toSemanticEntry emb).embedding.length = index.dimension from fits)
      have later := indexRows_apart (index.upsert (scopePartitionKey m.scope) (m.toSemanticEntry emb)).2 rows
        (fun row inside same => new (List.mem_map.mpr ⟨row,inside,same⟩)) (scopePartitionKey m.scope)
      refine ⟨later.1.trans ?_,later.2.trans ?_⟩
      · rw [placed.1]
        exact Function.update_self ..
      · rw [placed.2]
        simp [Memory.toSemanticEntry]
    · refine ih distinct ?_
      rw [ScopedVectorIndex.upsert_dimension]
      simpa [vectorRow,here] using found

theorem indexRows_missing {index : ScopedVectorIndex} {rows : List (Memory × List Rat)} {id : Uuid}
    (missing : vectorRow index.dimension rows id = none) :
    (indexRows index rows).idPartition id = index.idPartition id := by
  induction rows generalizing index with
  | nil => rfl
  | cons row rows ih =>
    have here : ¬ (row.1.id = id ∧ row.2.length = index.dimension) := by
      intro here
      simp [vectorRow,here] at missing
    refine (ih ?_).trans ?_
    · rw [ScopedVectorIndex.upsert_dimension]
      simpa [vectorRow,here] using missing
    · change (index.upsert (scopePartitionKey row.1.scope) (row.1.toSemanticEntry row.2)).2.idPartition id = _
      by_cases own : row.1.id = id
      · have misfit : (row.1.toSemanticEntry row.2).embedding.length ≠ index.dimension := fun fits => here ⟨own,fits⟩
        rw [ScopedVectorIndex.upsert_misfit _ misfit,ScopedVectorIndex.leaveOther_idPartition]
      · exact (index.upsert_apart _ "" (row.1.toSemanticEntry row.2) (Ne.symm own)).1

/-- Filling an index gives what filling an empty one gives exactly when the rows place every id it had. -/
theorem indexRows_same_iff (index : ScopedVectorIndex) {rows : List (Memory × List Rat)}
    (distinct : (rows.map (fun row => row.1.id)).Nodup) :
    (indexRows index rows).Same (indexRows (.withDimension index.dimension) rows) ↔
      ∀ id, index.idPartition id ≠ none → vectorRow index.dimension rows id ≠ none := by
  constructor
  · intro same id known missing
    have kept := indexRows_missing missing
    have empty := @indexRows_missing (.withDimension index.dimension) rows id missing
    exact known (kept.symm.trans ((same.idPartition id).trans empty))
  · intro placed
    have same : ∀ id, (indexRows index rows).idPartition id =
        (indexRows (.withDimension index.dimension) rows).idPartition id := by
      intro id
      cases found : vectorRow index.dimension rows id with
      | some row => rw [(indexRows_found distinct found).1,(@indexRows_found (.withDimension _) _ _ _ _ distinct found).1]
      | none =>
        rw [indexRows_missing found,@indexRows_missing (.withDimension index.dimension) rows id found]
        exact not_not.mp (fun known => placed id known found)
    refine ⟨by simp [ScopedVectorIndex.withDimension],same,?_⟩
    intro key id
    cases found : vectorRow index.dimension rows id with
    | some row =>
      have here := indexRows_found distinct found
      have there := @indexRows_found (.withDimension index.dimension) _ _ _ _ distinct found
      by_cases at_key : scopePartitionKey row.1.scope = key
      · subst at_key
        rw [here.2,there.2]
      · rw [ScopedVectorIndex.find_eq_none _ (by simpa [here.1] using at_key),
          ScopedVectorIndex.find_eq_none _ (by simpa [there.1] using at_key)]
    | none =>
      have gone := @indexRows_missing (.withDimension index.dimension) rows id found
      rw [ScopedVectorIndex.find_eq_none _ (by rw [same,gone]; simp [ScopedVectorIndex.withDimension]),
        ScopedVectorIndex.find_eq_none _ (by rw [gone]; simp [ScopedVectorIndex.withDimension])]

theorem MemoryTable.mem_loadActive {t : MemoryTable} {m : Memory} {emb : List Rat} :
    (m,emb) ∈ t.loadActiveWithEmbeddings ↔
      ∃ row ∈ t.rows, row.memory = m ∧ row.memory.state = .active ∧ row.embedding = some emb ∧ emb ≠ [] := by
  simp only [MemoryTable.loadActiveWithEmbeddings,List.mem_filter,List.mem_filterMap]
  constructor
  · intro given
    obtain ⟨⟨row,member,kept⟩,some_numbers⟩ := given
    by_cases active : row.memory.state = .active
    · rw [if_pos active] at kept
      obtain ⟨xs,found,equal⟩ := Option.map_eq_some_iff.mp kept
      cases equal
      exact ⟨row,member,rfl,active,found,by simpa using some_numbers⟩
    · rw [if_neg active] at kept
      cases kept
  · intro given
    obtain ⟨row,member,rfl,active,found,some_numbers⟩ := given
    exact ⟨⟨row,member,by simp [active,found]⟩,by simpa using some_numbers⟩

theorem MemoryTable.loadActive_distinct (t : MemoryTable) :
    (t.loadActiveWithEmbeddings.map (fun row => row.1.id)).Nodup := by
  refine List.Nodup.sublist ?_ t.unique
  refine (List.filter_sublist.map _).trans ?_
  induction t.rows with
  | nil => exact .slnil
  | cons row rows ih =>
    rw [List.filterMap_cons]
    split
    next => exact ih.trans (List.sublist_cons_self _ _)
    next pair kept =>
      have own : pair.1.id = row.id := by
        by_cases active : row.memory.state = .active
        · rw [if_pos active] at kept
          obtain ⟨xs,_,rfl⟩ := Option.map_eq_some_iff.mp kept
          rfl
        · rw [if_neg active] at kept
          cases kept
      rw [List.map_cons,List.map_cons,own]
      exact ih.cons_cons _

end Ecphoria
