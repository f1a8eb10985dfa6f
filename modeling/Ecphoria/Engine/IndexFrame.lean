import Ecphoria.Engine.Frame
import Ecphoria.Library.Derived
import Ecphoria.Memory.Rebuild
import Mathlib.Data.List.Induction

/-! What the write calls do to the two derived indexes, row by row, and what each index
should hold of a row: the text of an active memory, and its vector if it has one. -/
namespace Ecphoria
open Library

def textView (row : Option MemoryRow) : Option LexicalEntry :=
  row.bind (fun row => if row.memory.state = .active then some row.memory.toLexicalEntry else none)

def vectorPlace (row : Option MemoryRow) : Option (String × SemanticEntry) :=
  row.bind (fun row =>
    if row.memory.state = .active then
      (row.embedding.filter (fun emb => !emb.isEmpty)).map
        (fun emb => (scopePartitionKey row.memory.scope,row.memory.toSemanticEntry emb))
    else none)

/-- What a vector index says of an id: its partition, and the entry in each partition. -/
def ScopedVectorIndex.holding (index : ScopedVectorIndex) (id : Uuid) : Option String × (String → Option SemanticEntry) :=
  (index.idPartition id,fun key => (index.partitions key).entries.find id)

def vectorView (row : Option MemoryRow) : Option String × (String → Option SemanticEntry) :=
  ((vectorPlace row).map Prod.fst,
    fun key => ((vectorPlace row).filter (fun place => place.1 = key)).map Prod.snd)

def LexicalIndex.follow (index : LexicalIndex) (row : MemoryRow) : LexicalIndex :=
  match row.memory.state with
  | .active => index.upsert row.memory.toLexicalEntry
  | _ => index.remove row.id

def ScopedVectorIndex.follow (index : ScopedVectorIndex) (row : MemoryRow) : ScopedVectorIndex :=
  match row.memory.state with
  | .active =>
    match row.embedding with
    | none => index
    | some emb => (index.upsert (scopePartitionKey row.memory.scope) (row.memory.toSemanticEntry emb)).2
  | _ => index.delete row.id

theorem textView_rebuilt (t : MemoryTable) (id : Uuid) : (rebuildLexicalIndex t).find id = textView (t.find id) := by
  rw [find_rebuildLexicalIndex,MemoryTable.get]
  cases t.find id with
  | none => rfl
  | some row => by_cases active : row.memory.state = .active <;> simp [textView,active]

@[simp] theorem textView_stored (row : MemoryRow) : textView (some row.stored) = textView (some row) := rfl

@[simp] theorem vectorView_stored (row : MemoryRow) : vectorView (some row.stored) = vectorView (some row) := rfl

theorem textView_idle {row : MemoryRow} (idle : row.memory.state ≠ .active) : textView (some row) = none := by
  simp [textView,idle]

def nowhere : Option String × (String → Option SemanticEntry) := (none,fun _ => none)

theorem vectorView_nowhere_iff {row : Option MemoryRow} : vectorView row = nowhere ↔ vectorPlace row = none := by
  unfold vectorView nowhere
  constructor
  · intro same
    exact Option.map_eq_none_iff.mp (Prod.mk.inj same).1
  · intro absent
    simp [absent]

theorem vectorPlace_idle {row : MemoryRow} (idle : row.memory.state ≠ .active) : vectorPlace (some row) = none := by
  simp [vectorPlace,idle]

section
variable (env : Env)

theorem applyRow_indexes (stamp : Uuid → Int) (e : Engine) (row : MemoryRow) :
    (applyRow env stamp e row).lexical = e.lexical.follow row ∧
      (applyRow env stamp e row).vectors = e.vectors.follow row := by
  unfold applyRow LexicalIndex.follow ScopedVectorIndex.follow Engine.indexVector
  cases row.memory.state with
  | active => cases row.embedding <;> exact ⟨rfl,rfl⟩
  | superseded => exact ⟨rfl,rfl⟩
  | expired => exact ⟨rfl,rfl⟩
  | pending => exact ⟨rfl,rfl⟩

theorem memoryApplyRows_indexes (stamp : Uuid → Int) (e : Engine) (rows : List MemoryRow) :
    (memoryApplyRows env stamp e rows).lexical = rows.foldl LexicalIndex.follow e.lexical ∧
      (memoryApplyRows env stamp e rows).vectors = rows.foldl ScopedVectorIndex.follow e.vectors := by
  induction rows generalizing e with
  | nil => exact ⟨rfl,rfl⟩
  | cons row rows ih =>
    obtain ⟨lexical,vectors⟩ := applyRow_indexes env stamp e row
    rw [memoryApplyRows,List.foldl_cons,← memoryApplyRows,List.foldl_cons,List.foldl_cons,← lexical,← vectors]
    exact ih _

end

/-- The removals a batch makes before it writes its texts. -/
def LexicalIndex.clear (index : LexicalIndex) (row : MemoryRow) : LexicalIndex :=
  match row.memory.state with
  | .active => index
  | _ => index.remove row.id

def activeTexts (rows : List MemoryRow) : List LexicalEntry :=
  (rows.filter (fun row => row.memory.state = .active)).map (fun row => row.memory.toLexicalEntry)

private theorem applyBatchRow_indexes (e : Engine) (row : MemoryRow) :
    (applyBatchRow e row).lexical = e.lexical.clear row ∧ (applyBatchRow e row).vectors = e.vectors.follow row := by
  unfold applyBatchRow LexicalIndex.clear ScopedVectorIndex.follow Engine.indexVector
  cases row.memory.state with
  | active => cases row.embedding <;> exact ⟨rfl,rfl⟩
  | superseded => exact ⟨rfl,rfl⟩
  | expired => exact ⟨rfl,rfl⟩
  | pending => exact ⟨rfl,rfl⟩

private theorem applyBatchRows_indexes (e : Engine) (rows : List MemoryRow) :
    (rows.foldl applyBatchRow e).lexical = rows.foldl LexicalIndex.clear e.lexical ∧
      (rows.foldl applyBatchRow e).vectors = rows.foldl ScopedVectorIndex.follow e.vectors := by
  induction rows generalizing e with
  | nil => exact ⟨rfl,rfl⟩
  | cons row rows ih =>
    obtain ⟨lexical,vectors⟩ := applyBatchRow_indexes e row
    rw [List.foldl_cons,List.foldl_cons,List.foldl_cons,← lexical,← vectors]
    exact ih _

theorem memoryApplyRowsBatch_indexes {e after : Engine} {rows : List MemoryRow}
    (ok : memoryApplyRowsBatch e rows = .ok after) :
    after.lexical = (rows.foldl LexicalIndex.clear e.lexical).upsertAll (activeTexts rows) ∧
      after.vectors = rows.foldl ScopedVectorIndex.follow e.vectors := by
  unfold memoryApplyRowsBatch at ok
  split at ok
  next none =>
    cases List.isEmpty_iff.mp none
    cases ok
    exact ⟨rfl,rfl⟩
  next some =>
    split at ok
    next err failed => cases ok
    next memories written =>
      cases ok
      obtain ⟨lexical,vectors⟩ := applyBatchRows_indexes { e with memories := memories } rows
      exact ⟨congrArg (fun index => Table.upsertAll index (activeTexts rows)) lexical,vectors⟩

theorem LexicalIndex.find_remove (index : LexicalIndex) (id k : Uuid) :
    (index.remove id).find k = if k = id then none else index.find k :=
  Table.find_delete index id k

theorem LexicalIndex.find_follow (index : LexicalIndex) (row : MemoryRow) (k : Uuid) :
    (index.follow row).find k = if k = row.id then textView (some row) else index.find k := by
  unfold follow
  split
  next active =>
    rw [Table.find_upsert]
    by_cases own : k = row.id
    · simp [own,textView,active,Memory.toLexicalEntry,MemoryRow.id]
    · have apart : row.memory.toLexicalEntry.id ≠ k := Ne.symm own
      rw [if_neg apart,if_neg own]
  next idle => rw [find_remove,textView_idle (fun active => idle active)]

theorem Follows.texts {t : MemoryTable} {index : LexicalIndex} (follows : Follows t textView index.find)
    (rows : List MemoryRow) : Follows (t.upsertRows rows) textView (rows.foldl LexicalIndex.follow index).find := by
  induction rows generalizing t index with
  | nil => exact follows
  | cons row rows ih =>
    refine ih (follows.upsert row.stored ?_ ?_)
    · exact (index.find_follow row row.id).trans (if_pos rfl)
    · intro k other
      exact (index.find_follow row k).trans (if_neg other)

def ClosesFirst (rows : List MemoryRow) : Prop :=
  rows.Pairwise (fun a b => a.id = b.id → a.memory.state = .active → b.memory.state = .active)

theorem LexicalIndex.find_batch {rows : List MemoryRow} (orderly : ClosesFirst rows) (index : LexicalIndex) (k : Uuid) :
    ((rows.foldl clear index).upsertAll (activeTexts rows)).find k = (rows.foldl follow index).find k := by
  induction rows using List.reverseRecOn with
  | nil => rfl
  | append_singleton rows row ih =>
    obtain ⟨before,_,last⟩ := List.pairwise_append.mp orderly
    have rest := ih before
    rw [List.foldl_append,List.foldl_append,activeTexts,List.filter_append,List.map_append]
    change (((rows.foldl clear index).clear row).upsertAll (activeTexts rows ++ activeTexts [row])).find k =
      ((rows.foldl follow index).follow row).find k
    rw [find_follow,Table.upsertAll,List.foldl_append]
    by_cases active : row.memory.state = .active
    · have alone : activeTexts [row] = [row.memory.toLexicalEntry] := by simp [activeTexts,active]
      have kept : (rows.foldl clear index).clear row = rows.foldl clear index := by simp [clear,active]
      rw [alone,kept,List.foldl_cons,List.foldl_nil,← Table.upsertAll,Table.find_upsert,rest]
      by_cases own : k = row.id
      · simp [own,textView,active,Memory.toLexicalEntry,MemoryRow.id]
      · have apart : row.memory.toLexicalEntry.id ≠ k := Ne.symm own
        rw [if_neg apart,if_neg own]
    · have none : activeTexts [row] = [] := by simp [activeTexts,active]
      have cleared : (rows.foldl clear index).clear row = (rows.foldl clear index).remove row.id := by
        unfold clear
        split
        next now => exact absurd now active
        next => rfl
      rw [none,cleared,List.foldl_nil,← Table.upsertAll]
      by_cases own : k = row.id
      · rw [if_pos own,textView_idle active,Table.find_upsertAll,find_remove,if_pos own]
        intro entry inside same
        obtain ⟨r,kept,rfl⟩ := List.mem_map.mp inside
        obtain ⟨member,closed⟩ := List.mem_filter.mp kept
        exact active (last r member row (by simp) (same.trans own) (of_decide_eq_true closed))
      · rw [if_neg own,← rest,Table.find_upsertAll_eq,Table.find_upsertAll_eq,find_remove,if_neg own]

namespace ScopedVectorIndex

theorem holding_of_missing {index : ScopedVectorIndex} {id : Uuid} (missing : index.idPartition id = none) :
    index.holding id = nowhere := by
  refine Prod.ext missing (funext fun key => index.find_eq_none ?_)
  rw [missing]
  exact Option.some_ne_none key |>.symm

theorem holding_delete (index : ScopedVectorIndex) (id k : Uuid) :
    (index.delete id).holding k = if k = id then nowhere else index.holding k := by
  have gone : (index.delete id).idPartition k = if k = id then none else index.idPartition k := by
    unfold delete
    split
    next missing =>
      by_cases own : k = id
      · rw [if_pos own,own,missing]
      · rw [if_neg own]
    next home found => exact Function.update_apply ..
  by_cases own : k = id
  · rw [if_pos own] at gone ⊢
    exact holding_of_missing gone
  · rw [if_neg own] at gone ⊢
    refine Prod.ext gone (funext fun key => Option.ext fun entry => ?_)
    simp only [holding,Table.find_eq_some,mem_delete]
    constructor
    · intro given
      exact ⟨given.1.1,given.2⟩
    · intro given
      exact ⟨⟨given.1,fun same => own (given.2.symm.trans same)⟩,given.2⟩

/-- The vector can be written: it is not empty and has the width of the index. -/
def Takes (dimension : Nat) (emb : List Rat) : Prop := emb ≠ [] ∧ emb.length = dimension

instance (dimension : Nat) (emb : List Rat) : Decidable (Takes dimension emb) := inferInstanceAs (Decidable (_ ∧ _))

@[simp] theorem delete_dimension (index : ScopedVectorIndex) (id : Uuid) : (index.delete id).dimension = index.dimension := by
  unfold delete
  split <;> rfl

@[simp] theorem follow_dimension (index : ScopedVectorIndex) (row : MemoryRow) :
    (index.follow row).dimension = index.dimension := by
  unfold follow
  split
  next =>
    split
    next => rfl
    next => exact upsert_dimension ..
  next => exact delete_dimension ..

/-- After a row the index holds its vector, if every write lands and a row without one had none before. -/
theorem holding_follow {index : ScopedVectorIndex} {row : MemoryRow}
    (lands : row.memory.state = .active → ∀ emb, row.embedding = some emb → Takes index.dimension emb)
    (bare : row.memory.state = .active → row.embedding = none → index.holding row.id = nowhere) (k : Uuid) :
    (index.follow row).holding k = if k = row.id then vectorView (some row) else index.holding k := by
  unfold follow
  split
  next active =>
    split
    next without =>
      have absent : vectorView (some row) = nowhere := vectorView_nowhere_iff.mpr (by simp [vectorPlace,without])
      by_cases own : k = row.id
      · rw [if_pos own,own,absent]
        exact bare active without
      · rw [if_neg own]
    next emb given =>
      obtain ⟨some_numbers,fits⟩ := lands active emb given
      have place : vectorPlace (some row) =
          some (scopePartitionKey row.memory.scope,row.memory.toSemanticEntry emb) := by
        simp [vectorPlace,active,given,Option.filter_some,some_numbers]
      obtain ⟨homes,entries⟩ := upsert_fits (scopePartitionKey row.memory.scope)
        (show (row.memory.toSemanticEntry emb).embedding.length = index.dimension from fits)
      unfold holding
      simp only [homes,entries]
      by_cases own : k = row.id
      · subst own
        rw [if_pos rfl,vectorView,place]
        refine Prod.ext (Function.update_self ..) (funext fun key => ?_)
        simp [Memory.toSemanticEntry,MemoryRow.id,Option.filter_some,eq_comm]
      · have apart : k ≠ (row.memory.toSemanticEntry emb).id := own
        rw [if_neg own]
        exact Prod.ext (Function.update_of_ne apart ..) (funext fun key => if_neg apart)
  next idle =>
    rw [holding_delete,vectorView_nowhere_iff.mpr (vectorPlace_idle (fun active => idle active))]

end ScopedVectorIndex

/-- An active row without a vector comes after no active row of its memory. -/
def Backed (rows : List MemoryRow) : Prop :=
  rows.Pairwise (fun a b => a.id = b.id → a.memory.state = .active → b.memory.state = .active → b.embedding ≠ none)

theorem Follows.vectors {t : MemoryTable} {index : ScopedVectorIndex} (follows : Follows t vectorView index.holding)
    {rows : List MemoryRow} (backed : Backed rows)
    (lands : ∀ row ∈ rows, row.memory.state = .active → ∀ emb, row.embedding = some emb →
      ScopedVectorIndex.Takes index.dimension emb)
    (bare : ∀ row ∈ rows, row.memory.state = .active → row.embedding = none → vectorPlace (t.find row.id) = none) :
    Follows (t.upsertRows rows) vectorView (rows.foldl ScopedVectorIndex.follow index).holding := by
  induction rows generalizing t index with
  | nil => exact follows
  | cons row rows ih =>
    obtain ⟨first,rest⟩ := List.pairwise_cons.mp backed
    have held := ScopedVectorIndex.holding_follow (lands row (by simp)) (by
      intro active without
      rw [follows row.id]
      exact vectorView_nowhere_iff.mpr (bare row (by simp) active without))
    refine ih (follows.upsert row.stored ?_ ?_) rest ?_ ?_
    · exact (held row.id).trans (if_pos rfl)
    · intro k other
      exact (held k).trans (if_neg other)
    · intro later inside
      rw [ScopedVectorIndex.follow_dimension]
      exact lands later (List.mem_cons_of_mem row inside)
    · intro later inside active without
      rw [MemoryTable.upsertRaw,Table.find_upsert]
      split
      next same => exact vectorPlace_idle (fun now => first later inside same now active without)
      next => exact bare later (List.mem_cons_of_mem row inside) active without

/-- The vectors of the active rows can all be written. -/
def Landing (dimension : Nat) (t : MemoryTable) : Prop :=
  ∀ row ∈ t.rows, row.memory.state = .active → ∀ emb, row.embedding = some emb → ScopedVectorIndex.Takes dimension emb

theorem Landing.upsertRows {dimension : Nat} {t : MemoryTable} {rows : List MemoryRow} (landing : Landing dimension t)
    (lands : ∀ row ∈ rows, row.memory.state = .active → ∀ emb, row.embedding = some emb →
      ScopedVectorIndex.Takes dimension emb) : Landing dimension (t.upsertRows rows) := by
  intro row inside
  rcases MemoryTable.mem_upsertRows inside with ⟨given,member,rfl⟩ | ⟨old,_⟩
  · exact lands given member
  · exact landing row old

theorem Landing.delete {dimension : Nat} {t : MemoryTable} (landing : Landing dimension t) (p : MemoryRow → Bool) :
    Landing dimension (t.delete p) :=
  fun row inside => landing row ((Table.mem_delete _ _ _).mp inside).1

@[simp] theorem ScopedVectorIndex.follows_dimension (index : ScopedVectorIndex) (rows : List MemoryRow) :
    (rows.foldl ScopedVectorIndex.follow index).dimension = index.dimension := by
  induction rows generalizing index with
  | nil => rfl
  | cons row rows ih => exact (ih _).trans (index.follow_dimension row)

theorem ScopedVectorIndex.same_iff {a b : ScopedVectorIndex} :
    a.Same b ↔ a.dimension = b.dimension ∧ ∀ id, a.holding id = b.holding id := by
  constructor
  · intro same
    exact ⟨same.dimension,fun id => Prod.ext (same.idPartition id) (funext fun key => same.entries key id)⟩
  · intro given
    exact ⟨given.1,fun id => congrArg Prod.fst (given.2 id),fun key id => congrFun (congrArg Prod.snd (given.2 id)) key⟩

theorem holding_rebuilt {dimension : Nat} {t : MemoryTable} (landing : Landing dimension t) (id : Uuid) :
    (rebuildVectorIndex dimension t).holding id = vectorView (t.find id) := by
  cases listed : vectorRow dimension t.loadActiveWithEmbeddings id with
  | some pair =>
    obtain ⟨m,emb⟩ := pair
    have inside := List.mem_of_find?_eq_some listed
    have chosen := List.find?_some listed
    obtain ⟨row,member,rfl,active,given,some_numbers⟩ := MemoryTable.mem_loadActive.mp inside
    simp only [Bool.and_eq_true,decide_eq_true_eq] at chosen
    have found : t.find id = some row := (t.find_eq_some id row).mpr ⟨member,chosen.1⟩
    have place : vectorPlace (some row) = some (scopePartitionKey row.memory.scope,row.memory.toSemanticEntry emb) := by
      simp [vectorPlace,active,given,Option.filter_some,some_numbers]
    obtain ⟨home,entry⟩ := @indexRows_found (.withDimension dimension) _ id _ _ t.loadActive_distinct listed
    rw [found,vectorView,place]
    refine Prod.ext home (funext fun key => ?_)
    by_cases here : scopePartitionKey row.memory.scope = key
    · subst here
      simpa [ScopedVectorIndex.holding,rebuildVectorIndex,Option.filter_some] using entry
    · rw [ScopedVectorIndex.holding]
      simp only [Option.filter_some,here,decide_false,Bool.false_eq_true,if_false,Option.map_none]
      refine ScopedVectorIndex.find_eq_none _ ?_
      rw [rebuildVectorIndex,home]
      simpa using here
  | none =>
    have missing := @indexRows_missing (.withDimension dimension) _ id listed
    rw [rebuildVectorIndex,ScopedVectorIndex.holding_of_missing missing]
    refine (vectorView_nowhere_iff.mpr ?_).symm
    cases found : t.find id with
    | none => rfl
    | some row =>
      obtain ⟨member,own⟩ := (t.find_eq_some id row).mp found
      by_cases active : row.memory.state = .active
      · cases given : row.embedding with
        | none => simp [vectorPlace,given]
        | some emb =>
          obtain ⟨some_numbers,fits⟩ := landing row member active emb given
          have inside := MemoryTable.mem_loadActive.mpr ⟨row,member,rfl,active,given,some_numbers⟩
          have refused := List.find?_eq_none.mp listed _ inside
          exact absurd (by simpa using ⟨own,fits⟩) refused
      · exact vectorPlace_idle active

theorem forgetAll_holds (e : Engine) (ids : List Uuid) (k : Uuid) :
    (ids.foldl Engine.forgetIndexes e).lexical.find k = (if k ∈ ids then none else e.lexical.find k) ∧
      (ids.foldl Engine.forgetIndexes e).vectors.holding k = if k ∈ ids then nowhere else e.vectors.holding k := by
  induction ids generalizing e with
  | nil => simp
  | cons id ids ih =>
    obtain ⟨texts,vectors⟩ := ih (e.forgetIndexes id)
    have text : (e.forgetIndexes id).lexical.find k = if k = id then none else e.lexical.find k :=
      LexicalIndex.find_remove _ _ _
    have vector : (e.forgetIndexes id).vectors.holding k = if k = id then nowhere else e.vectors.holding k :=
      ScopedVectorIndex.holding_delete _ _ _
    rw [List.foldl_cons,texts,vectors,text,vector]
    by_cases listed : k ∈ ids
    · simp [listed]
    · by_cases own : k = id <;> simp [listed,own]

@[simp] theorem forgetAll_dimension (e : Engine) (ids : List Uuid) :
    (ids.foldl Engine.forgetIndexes e).vectors.dimension = e.vectors.dimension := by
  induction ids generalizing e with
  | nil => rfl
  | cons id ids ih => exact (ih _).trans (ScopedVectorIndex.delete_dimension ..)

theorem expireOne_indexes (stamp : Uuid → Int) (e : Engine) (id : Uuid) :
    (expireOne stamp e id).memories = e.memories.expire id (stamp id) ∧
      (expireOne stamp e id).lexical = e.lexical.remove id ∧ (expireOne stamp e id).vectors = e.vectors.delete id := by
  unfold expireOne
  cases e.memories.get id <;> exact ⟨rfl,rfl,rfl⟩

theorem expired_idle {id : Uuid} (now : Int) {row : MemoryRow} (own : row.id = id) :
    (if (row.id = id && row.memory.state = .active : Bool) then
      { row with memory := { row.memory with state := .expired, validTo := some (micros now), updatedAt := micros now } }
      else row).memory.state ≠ .active := by
  by_cases active : row.memory.state = .active <;> simp [own,active]

end Ecphoria
