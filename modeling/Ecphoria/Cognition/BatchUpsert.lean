import Ecphoria.Cognition.Store

/-! A batch of rows with every statement that can fail. The new rows are appended and the
others replaced afterwards, in a transaction of their own. -/
namespace Ecphoria
open Library

/-- What the database answers to the statements of one batch, beside the keys it checks itself. -/
structure BatchAnswers where
  selects : Bool
  appends : Bool
  begins : Bool
  executes : MemoryRow → Bool
  commits : Bool

def BatchAnswers.fine : BatchAnswers := ⟨true,true,true,fun _ => true,true⟩

namespace MemoryTable

def newRows (t : MemoryTable) (rows : List MemoryRow) : List MemoryRow := rows.filter (fun row => row.id ∉ t.keys)

def oldRows (t : MemoryTable) (rows : List MemoryRow) : List MemoryRow := rows.filter (fun row => row.id ∈ t.keys)

/-- `append_new_batch`: the appender flushes once, at the end. -/
def appendNewBatch (answers : BatchAnswers) (t : MemoryTable) (rows : List MemoryRow) : Except Error MemoryTable :=
  if answers.appends then
    match t.append (rows.map MemoryRow.stored) with
    | none => .error (.ingest "memories appender flush")
    | some appended => .ok appended
  else .error (.ingest "memories appender")

def replaceRow (answers : BatchAnswers) (t : MemoryTable) (row : MemoryRow) : Option MemoryTable :=
  if answers.executes row then some (t.upsertRaw row) else none

/-- The transaction of `INSERT OR REPLACE` statements; an error rolls it back. -/
def replaceRows (answers : BatchAnswers) (t : MemoryTable) (rows : List MemoryRow) : Except Error Unit × MemoryTable :=
  if answers.begins then
    match rows.foldlM (replaceRow answers) t with
    | none => (.error (.ingest "insert memory"),t)
    | some replaced => if answers.commits then (.ok (),replaced) else (.error (.ingest "commit"),t)
  else (.error (.ingest "begin transaction"),t)

/-- `upsert_raw_batch`, with the table that it leaves when it fails. -/
def upsertRawBatchAnswered (answers : BatchAnswers) (t : MemoryTable) (rows : List MemoryRow) :
    Except Error Unit × MemoryTable :=
  if rows.isEmpty then (.ok (),t)
  else if answers.selects then
    match if (t.newRows rows).isEmpty then .ok t else t.appendNewBatch answers (t.newRows rows) with
    | .error err => (.error err,t)
    | .ok appended =>
      if (t.oldRows rows).isEmpty then (.ok (),appended) else appended.replaceRows answers (t.oldRows rows)
  else (.error (.query "existing ids"),t)

/-- The batch does what the rows do one after the other, and it does so unless a statement fails; then it does nothing. -/
structure BatchFaithful (t : MemoryTable) (rows : List MemoryRow) : Prop where
  sequential : ∀ answers, (t.upsertRawBatchAnswered answers rows).1 = .ok () →
    (t.upsertRawBatchAnswered answers rows).2 = t.upsertRows rows
  complete : (t.upsertRawBatchAnswered .fine rows).1 = .ok ()
  unchanged : ∀ answers err, (t.upsertRawBatchAnswered answers rows).1 = .error err →
    (t.upsertRawBatchAnswered answers rows).2 = t

section
variable {answers : BatchAnswers} {t after : MemoryTable} {rows : List MemoryRow}

theorem foldlM_replaceRow (replaced : rows.foldlM (replaceRow answers) t = some after) : after = t.upsertRows rows := by
  induction rows generalizing t with
  | nil =>
    cases replaced
    rfl
  | cons row rows ih =>
    rw [List.foldlM_cons,replaceRow] at replaced
    split at replaced
    next => exact ih replaced
    next => cases replaced

theorem foldlM_replaceRow_fine : rows.foldlM (replaceRow .fine) t = some (t.upsertRows rows) := by
  induction rows generalizing t with
  | nil => rfl
  | cons row rows ih =>
    rw [List.foldlM_cons]
    exact ih

theorem replaceRows_cases : (t.replaceRows answers rows = (.ok (),t.upsertRows rows)) ∨
    ∃ err, t.replaceRows answers rows = (.error err,t) := by
  unfold replaceRows
  split
  next =>
    split
    next => exact Or.inr ⟨_,rfl⟩
    next replaced done =>
      rw [foldlM_replaceRow done]
      split
      next => exact Or.inl rfl
      next => exact Or.inr ⟨_,rfl⟩
  next => exact Or.inr ⟨_,rfl⟩

theorem replaceRows_fine : t.replaceRows .fine rows = (.ok (),t.upsertRows rows) := by
  rw [replaceRows,foldlM_replaceRow_fine]
  rfl

theorem appendNewBatch_ok (appended : t.appendNewBatch answers rows = .ok after) :
    t.append (rows.map MemoryRow.stored) = some after := by
  unfold appendNewBatch at appended
  split at appended
  next =>
    split at appended
    next => cases appended
    next done =>
      cases appended
      exact done
  next => cases appended

theorem appendNewBatch_fine (fresh : ∀ row ∈ rows, row.id ∉ t.keys) :
    (∃ after, t.appendNewBatch .fine rows = .ok after) ↔ (rows.map MemoryRow.id).Nodup := by
  have ids : (rows.map MemoryRow.stored).map MemoryRow.id = rows.map MemoryRow.id := by
    rw [List.map_map]
    rfl
  have apart : ∀ row ∈ rows.map MemoryRow.stored, row.id ∉ t.keys := by
    intro row inside
    obtain ⟨new,listed,rfl⟩ := List.mem_map.mp inside
    exact fresh new listed
  constructor
  · intro given
    obtain ⟨after,appended⟩ := given
    rw [← ids]
    exact ((Table.append_eq_some _ _ _).mp (appendNewBatch_ok appended)).1
  · intro distinct
    have written := (Table.append_eq_some t _ (rows.map MemoryRow.stored)).mpr ⟨by rwa [ids],apart,rfl⟩
    refine ⟨t.upsertAll (rows.map MemoryRow.stored),?_⟩
    rw [appendNewBatch,written]
    rfl

theorem fresh_newRows : ∀ row ∈ t.newRows rows, row.id ∉ t.keys :=
  fun _ inside => of_decide_eq_true (List.mem_filter.mp inside).2

theorem upsertRows_appended (appended : t.append ((t.newRows rows).map MemoryRow.stored) = some after) :
    after.upsertRows (t.oldRows rows) = t.upsertRows rows := by
  have written : t.upsertRawBatch rows = .ok (after.upsertRows (t.oldRows rows)) := by
    unfold newRows at appended
    simp only [upsertRawBatch,appended]
    rfl
  exact upsertRawBatch_ok written

theorem appended_grows (appended : t.append ((t.newRows rows).map MemoryRow.stored) = some after)
    (new : t.newRows rows ≠ []) : after ≠ t := by
  intro same
  obtain ⟨row,listed⟩ := List.exists_mem_of_ne_nil _ new
  obtain ⟨_,_,written⟩ := (Table.append_eq_some _ _ _).mp appended
  refine fresh_newRows row listed ?_
  have known : row.id ∈ (t.upsertAll ((t.newRows rows).map MemoryRow.stored)).keys :=
    Table.mem_keys_upsertAll (Or.inl ⟨row.stored,List.mem_map_of_mem listed,rfl⟩)
  rwa [written,same] at known

theorem upsertRawBatchAnswered_cases : (∃ err, t.upsertRawBatchAnswered answers rows = (.error err,t)) ∨
    t.upsertRawBatchAnswered answers rows = (.ok (),t.upsertRows rows) ∨
    t.newRows rows ≠ [] ∧ t.oldRows rows ≠ [] ∧
      ∃ err after, t.upsertRawBatchAnswered answers rows = (.error err,after) ∧ after ≠ t := by
  unfold upsertRawBatchAnswered
  split
  next none =>
    rw [List.isEmpty_iff.mp none]
    exact Or.inr (Or.inl rfl)
  next =>
    split
    next =>
      split
      next => exact Or.inl ⟨_,rfl⟩
      next mid appending =>
        have appended : t.append ((t.newRows rows).map MemoryRow.stored) = some mid := by
          split at appending
          next none =>
            cases appending
            have empty : t.newRows rows = [] := List.isEmpty_iff.mp none
            rw [empty]
            rfl
          next => exact appendNewBatch_ok appending
        have all := upsertRows_appended appended
        split
        next none =>
          have empty : t.oldRows rows = [] := List.isEmpty_iff.mp none
          rw [empty] at all
          rw [← all]
          exact Or.inr (Or.inl rfl)
        next some =>
          rcases @replaceRows_cases answers mid (t.oldRows rows) with done | ⟨err,failed⟩
          · refine Or.inr (Or.inl ?_)
            rw [← all]
            exact done
          · by_cases new : t.newRows rows = []
            · rw [new] at appended
              cases appended
              exact Or.inl ⟨err,failed⟩
            · refine Or.inr (Or.inr ⟨new,fun empty => some (List.isEmpty_iff.mpr empty),err,mid,failed,?_⟩)
              exact appended_grows appended new
    next => exact Or.inl ⟨_,rfl⟩

theorem upsertRawBatchAnswered_fine : (t.upsertRawBatchAnswered .fine rows).1 = .ok () ↔
    ((t.newRows rows).map MemoryRow.id).Nodup := by
  have taken := appendNewBatch_fine (@fresh_newRows t rows)
  have answered : BatchAnswers.fine.selects = true := rfl
  unfold upsertRawBatchAnswered
  rw [if_pos answered,← taken]
  split
  next none =>
    rw [List.isEmpty_iff.mp none] at taken ⊢
    exact iff_of_true rfl (taken.mpr List.nodup_nil)
  next =>
    have rest (mid : MemoryTable) : (if (t.oldRows rows).isEmpty then (.ok (),mid)
        else mid.replaceRows .fine (t.oldRows rows) : Except Error Unit × MemoryTable).1 = .ok () := by
      split
      next => rfl
      next => rw [replaceRows_fine]
    by_cases new : (t.newRows rows).isEmpty = true
    · rw [if_pos new]
      refine iff_of_true (rest t) (taken.mpr ?_)
      rw [List.isEmpty_iff.mp new]
      exact List.nodup_nil
    · rw [if_neg new]
      cases appended : t.appendNewBatch .fine (t.newRows rows) with
      | error err =>
        refine iff_of_false nofun ?_
        rintro ⟨_,⟨⟩⟩
      | ok mid => exact iff_of_true (rest mid) ⟨mid,rfl⟩

/-- A batch does what its rows do in order, or nothing, exactly when its new rows have ids of their own and it does not
mix new rows with rows that replace others. -/
theorem batch_upsert_iff (t : MemoryTable) (rows : List MemoryRow) : BatchFaithful t rows ↔
    ((t.newRows rows).map MemoryRow.id).Nodup ∧ (t.newRows rows = [] ∨ t.oldRows rows = []) := by
  constructor
  · intro faithful
    have distinct := upsertRawBatchAnswered_fine.mp faithful.complete
    refine ⟨distinct,?_⟩
    by_contra mixed
    obtain ⟨new,old⟩ := not_or.mp mixed
    -- the transaction of the old rows does not commit, after the new rows are in
    let answers : BatchAnswers := { BatchAnswers.fine with commits := false }
    obtain ⟨mid,appended⟩ := (appendNewBatch_fine (@fresh_newRows t rows)).mpr distinct
    have failed : t.upsertRawBatchAnswered answers rows = (.error (.ingest "commit"),mid) := by
      have filled : ¬rows.isEmpty = true := by
        intro none
        rw [List.isEmpty_iff.mp none] at new
        exact new rfl
      have running : answers.selects = true := rfl
      have taken : t.appendNewBatch answers (t.newRows rows) = .ok mid := appended
      unfold upsertRawBatchAnswered
      rw [if_neg filled,if_pos running,if_neg (fun none => new (List.isEmpty_iff.mp none)),taken]
      dsimp only
      rw [if_neg (fun none => old (List.isEmpty_iff.mp none))]
      have executed : (t.oldRows rows).foldlM (replaceRow answers) mid = some (mid.upsertRows (t.oldRows rows)) :=
        foldlM_replaceRow_fine
      rw [replaceRows,executed]
      rfl
    have kept := faithful.unchanged answers (.ingest "commit") (by rw [failed])
    rw [failed] at kept
    exact appended_grows (appendNewBatch_ok appended) new kept
  · intro given
    obtain ⟨distinct,plain⟩ := given
    refine ⟨?_,upsertRawBatchAnswered_fine.mpr distinct,?_⟩
    · intro answers done
      rcases @upsertRawBatchAnswered_cases answers t rows with ⟨err,failed⟩ | all | ⟨_,_,err,after,failed,_⟩
      · rw [failed] at done
        cases done
      · rw [all]
      · rw [failed] at done
        cases done
    · intro answers err refused
      rcases @upsertRawBatchAnswered_cases answers t rows with ⟨err,failed⟩ | all | ⟨new,old,_⟩
      · rw [failed]
      · rw [all] at refused
        cases refused
      · exact (plain.elim new old).elim

end

end MemoryTable

def batchRow (id : Uuid) (content : String) : MemoryRow :=
  ⟨Memory.new id 0 (.tenant "acme") content,none⟩

/-- A new row that comes twice fails the batch, where the second one stays row by row; and a batch whose second part
fails has written its first. -/
theorem batch_not_faithful : ¬MemoryTable.BatchFaithful .empty [batchRow 1 "tea",batchRow 1 "coffee"] ∧
    ¬MemoryTable.BatchFaithful (MemoryTable.upsertRaw .empty (batchRow 1 "tea")) [batchRow 2 "milk",batchRow 1 "coffee"] := by
  constructor
  · intro faithful
    have done := faithful.complete
    revert done
    decide +kernel
  · intro faithful
    have kept := congrArg Table.keys (faithful.unchanged { BatchAnswers.fine with executes := fun row => row.id ≠ 1 }
      (.ingest "insert memory") (by decide +kernel))
    revert kept
    decide +kernel

end Ecphoria
