import Ecphoria.Library.Table
import Ecphoria.Cognition.Types
import Mathlib.Data.List.Sort

/-! The statements of the memory store over its tables. A query without a total
order returns ties in row order. -/
namespace Ecphoria
open Library

inductive Error where
  | validation (message : String)
  | ingest (message : String)
  | query (message : String)
  | state (message : String)
  | storage (message : String)
deriving DecidableEq,Repr

abbrev MemoryTable := Table MemoryRow MemoryRow.id
abbrev EdgeTable := Table EdgeRow EdgeRow.id

def newestFirst (a b : Memory) : Prop := b.validFrom ≤ a.validFrom

instance : DecidableRel newestFirst := fun a b => inferInstanceAs (Decidable (b.validFrom ≤ a.validFrom))

def keepFirst (a b : Memory) : Prop :=
  b.importance < a.importance ∨ b.importance = a.importance ∧ b.updatedAt ≤ a.updatedAt

instance : DecidableRel keepFirst := fun a b =>
  inferInstanceAs (Decidable (b.importance < a.importance ∨ b.importance = a.importance ∧ b.updatedAt ≤ a.updatedAt))

def bySubject (a b : Memory) : Prop := a.subject.getD "" ≤ b.subject.getD ""

instance : DecidableRel bySubject := fun a b =>
  inferInstanceAs (Decidable (a.subject.getD "" ≤ b.subject.getD ""))

namespace MemoryTable

def memories (t : MemoryTable) : List Memory := t.rows.map MemoryRow.memory

def upsertRaw (t : MemoryTable) (row : MemoryRow) : MemoryTable := t.upsert row.stored

def upsertRows (t : MemoryTable) (rows : List MemoryRow) : MemoryTable := rows.foldl upsertRaw t

/-- New rows go through the appender, which has no conflict handling; the rows that
replace one follow. Nothing is written when the appender fails. -/
def upsertRawBatch (t : MemoryTable) (rows : List MemoryRow) : Except Error MemoryTable :=
  let inserts := rows.filter (fun row => row.id ∉ t.keys)
  let updates := rows.filter (fun row => row.id ∈ t.keys)
  match t.append (inserts.map MemoryRow.stored) with
  | none => .error (.ingest "memories appender flush")
  | some appended => .ok (upsertRows appended updates)

def get (t : MemoryTable) (id : Uuid) : Option Memory := (t.find id).map MemoryRow.memory

def getScoped (t : MemoryTable) (id : Uuid) (tenant : String) : Option Memory :=
  (t.get id).filter (fun m => m.scope.tenantId = tenant)

def getEmbedding (t : MemoryTable) (id : Uuid) : Option (List Rat) :=
  ((t.find id).bind MemoryRow.embedding).filter (fun e => !e.isEmpty)

def beliefFilter (scope : MemoryScope) (subject : String) (project : Option String) (m : Memory) : Bool :=
  scope.matchesRow m.scope && m.subject = some subject && m.project = project && m.state = .active

def findActiveBySubject (t : MemoryTable) (scope : MemoryScope) (subject : String)
    (project : Option String) : List Memory :=
  (t.memories.filter (beliefFilter scope subject project)).insertionSort newestFirst

def findActiveByDocument (env : Env) (t : MemoryTable) (scope : MemoryScope) (docPath : String) :
    List Memory :=
  let path := normalizeSubject env docPath
  (t.memories.filter (fun m => scope.matchesRow m.scope && m.state = .active &&
    match m.subject with
    | some s => s = path || (path ++ "#").toList.isPrefixOf s.toList
    | none => false)).insertionSort bySubject

/-- The rows `as_of` selects: valid at the instant, in whatever state. -/
def validAt (scope : MemoryScope) (subject : String) (instant : Int) (m : Memory) : Bool :=
  scope.matchesRow m.scope && m.subject = some subject && m.validFrom ≤ micros instant &&
    match m.validTo with
    | some stop => micros instant < stop
    | none => true

def asOfScan (scan : List Memory) (scope : MemoryScope) (subject : String) (instant : Int) : Option Memory :=
  ((scan.filter (validAt scope subject instant)).insertionSort newestFirst).head?

def asOf (t : MemoryTable) (scope : MemoryScope) (subject : String) (instant : Int) : Option Memory :=
  asOfScan t.memories scope subject instant

def countActive (t : MemoryTable) (scope : MemoryScope) : Nat :=
  (t.memories.filter (fun m => scope.matchesRow m.scope && m.state = .active)).length

def overCap (t : MemoryTable) (scope : MemoryScope) (cap : Nat) : List Uuid :=
  if cap = 0 then []
  else (((t.memories.filter (fun m => scope.matchesRow m.scope && m.state = .active)).insertionSort
    keepFirst).map Memory.id).drop cap

def enforceScopeCap (t : MemoryTable) (scope : MemoryScope) (cap : Nat) : List Uuid × MemoryTable :=
  let evict := t.overCap scope cap
  (evict,t.delete (fun row => row.id ∈ evict))

/-- `UPDATE .. SET state='expired' .. WHERE id=? AND state='active'`. -/
def expire (t : MemoryTable) (id : Uuid) (now : Int) : MemoryTable :=
  t.update (fun row => row.id = id && row.memory.state = .active)
    (fun row => { row with memory := { row.memory with
      state := .expired, validTo := some (micros now), updatedAt := micros now } })
    (fun _ => rfl)

def deleteId (t : MemoryTable) (id : Uuid) : MemoryTable := t.delete (fun row => row.id = id)

def loadActiveWithEmbeddings (t : MemoryTable) : List (Memory × List Rat) :=
  (t.rows.filterMap (fun row =>
    if row.memory.state = .active then row.embedding.map (fun e => (row.memory,e)) else none)).filter
    (fun (_,e) => !e.isEmpty)

def lexicalRows (t : MemoryTable) : List Memory :=
  (t.memories.filter (fun m => m.state = .active)).insertionSort (fun a b => a.id.bits ≤ b.id.bits)

def lexicalPage (t : MemoryTable) (offset limit : Nat) : List Memory := (t.lexicalRows.drop offset).take limit

theorem memories_nodup (t : MemoryTable) : (t.memories.map Memory.id).Nodup := by
  rw [memories,List.map_map]
  exact t.unique

theorem upsertRows_eq (t : MemoryTable) (rows : List MemoryRow) :
    t.upsertRows rows = t.upsertAll (rows.map MemoryRow.stored) := by
  rw [upsertRows,Table.upsertAll,List.foldl_map]
  rfl

theorem upsertRawBatch_ok {t after : MemoryTable} {rows : List MemoryRow}
    (ok : t.upsertRawBatch rows = .ok after) : after = t.upsertRows rows := by
  simp only [upsertRawBatch] at ok
  split at ok
  next failed => cases ok
  next appended written =>
    cases ok
    obtain ⟨distinct,_,rfl⟩ := (Table.append_eq_some _ _ _).mp written
    have news : (rows.filter (fun row => row.id ∉ t.keys)).map MemoryRow.stored =
        (rows.map MemoryRow.stored).filter (fun row => row.id ∉ t.keys) := by
      rw [List.filter_map]
      rfl
    have olds : (rows.filter (fun row => row.id ∈ t.keys)).map MemoryRow.stored =
        (rows.map MemoryRow.stored).filter (fun row => row.id ∈ t.keys) := by
      rw [List.filter_map]
      rfl
    rw [news] at distinct
    rw [upsertRows_eq,upsertRows_eq,news,olds]
    exact Table.upsertAll_partition t (rows.map MemoryRow.stored) distinct

theorem upsertRawBatch_of_distinct {t : MemoryTable} {rows : List MemoryRow}
    (distinct : ((rows.filter (fun row => row.id ∉ t.keys)).map MemoryRow.id).Nodup) :
    t.upsertRawBatch rows = .ok (t.upsertRows rows) := by
  cases written : t.upsertRawBatch rows with
  | ok after => rw [upsertRawBatch_ok written]
  | error err =>
    have fresh : ∀ row ∈ (rows.filter (fun row => row.id ∉ t.keys)).map MemoryRow.stored, row.id ∉ t.keys := by
      intro row inside
      obtain ⟨new,listed,rfl⟩ := List.mem_map.mp inside
      exact of_decide_eq_true (List.mem_filter.mp listed).2
    have appended := (Table.append_eq_some t _ ((rows.filter (fun row => row.id ∉ t.keys)).map
      MemoryRow.stored)).mpr ⟨by rwa [List.map_map],fresh,rfl⟩
    simp only [upsertRawBatch,appended] at written
    cases written

theorem upsertRows_append (t : MemoryTable) (first second : List MemoryRow) :
    t.upsertRows (first ++ second) = (t.upsertRows first).upsertRows second := List.foldl_append

theorem mem_upsertRows {t : MemoryTable} {rows : List MemoryRow} {r : MemoryRow}
    (member : r ∈ (t.upsertRows rows).rows) :
    (∃ row ∈ rows, row.stored = r) ∨ r ∈ t.rows ∧ ∀ row ∈ rows, row.id ≠ r.id := by
  rw [upsertRows_eq] at member
  rcases Table.mem_upsertAll member with inside | ⟨old,apart⟩
  · exact Or.inl (List.mem_map.mp inside)
  · exact Or.inr ⟨old,fun row inside => apart row.stored (List.mem_map_of_mem inside)⟩

theorem overCap_eq_nil_iff (t : MemoryTable) (scope : MemoryScope) (cap : Nat) :
    t.overCap scope cap = [] ↔ cap = 0 ∨ t.countActive scope ≤ cap := by
  unfold overCap
  split
  next zero => simp [zero]
  next positive => simp [positive,countActive,List.drop_eq_nil_iff,List.length_insertionSort]

theorem overCap_active {t : MemoryTable} {scope : MemoryScope} {cap : Nat} {id : Uuid}
    (evicted : id ∈ t.overCap scope cap) : ∃ row ∈ t.rows, row.id = id ∧ row.memory.state = .active := by
  unfold overCap at evicted
  split at evicted
  next => cases evicted
  next =>
    obtain ⟨m,chosen,same⟩ := List.mem_map.mp (List.mem_of_mem_drop evicted)
    obtain ⟨listed,active⟩ := List.mem_filter.mp ((List.mem_insertionSort _).mp chosen)
    obtain ⟨row,there,rfl⟩ := List.mem_map.mp listed
    simp only [Bool.and_eq_true,decide_eq_true_eq] at active
    exact ⟨row,there,same,active.2⟩

theorem mem_upsertRows_of_apart {t : MemoryTable} {rows : List MemoryRow} {r : MemoryRow} (member : r ∈ t.rows)
    (apart : ∀ row ∈ rows, row.id ≠ r.id) : r ∈ (t.upsertRows rows).rows := by
  have others : ∀ row ∈ rows.map MemoryRow.stored, row.id ≠ r.id := by
    intro row inside
    obtain ⟨written,listed,rfl⟩ := List.mem_map.mp inside
    exact apart written listed
  have found : (t.upsertRows rows).find r.id = some r := by
    rw [upsertRows_eq,Table.find_upsertAll t _ _ others]
    exact (Table.find_eq_some t r.id r).mpr ⟨member,rfl⟩
  exact ((Table.find_eq_some _ _ _).mp found).1

theorem exists_upsertRows_written {t : MemoryTable} {rows : List MemoryRow} {row : MemoryRow} (inside : row ∈ rows) :
    ∃ written ∈ rows, written.id = row.id ∧ written.stored ∈ (t.upsertRows rows).rows := by
  have known : row.id ∈ (t.upsertRows rows).keys := by
    rw [upsertRows_eq]
    exact Table.mem_keys_upsertAll (Or.inl ⟨row.stored,List.mem_map_of_mem inside,rfl⟩)
  obtain ⟨stored,there,same⟩ := (Table.mem_keys _ _).mp known
  rcases mem_upsertRows there with ⟨written,listed,rfl⟩ | ⟨_,apart⟩
  · exact ⟨written,listed,same,there⟩
  · exact absurd same.symm (apart row inside)

theorem enforceScopeCap_of_within {t : MemoryTable} {scope : MemoryScope} {cap : Nat}
    (within : cap = 0 ∨ t.countActive scope ≤ cap) : (t.enforceScopeCap scope cap).2 = t := by
  have none := (overCap_eq_nil_iff t scope cap).mpr within
  apply Table.ext
  simp [enforceScopeCap,none,Table.delete]

theorem get_eq_some {t : MemoryTable} {id : Uuid} {m : Memory} (found : t.get id = some m) :
    ∃ row ∈ t.rows, row.memory = m ∧ row.id = id := by
  obtain ⟨row,inside,equal⟩ := Option.map_eq_some_iff.mp found
  obtain ⟨member,same⟩ := (Table.find_eq_some _ _ _).mp inside
  exact ⟨row,member,equal,same⟩

theorem mem_findActiveBySubject {t : MemoryTable} {scope : MemoryScope} {subject : String}
    {project : Option String} {m : Memory} :
    m ∈ t.findActiveBySubject scope subject project ↔
      ∃ row ∈ t.rows, row.memory = m ∧ m.scope = scope.withDefaultTenant ∧ m.subject = some subject ∧
        m.project = project ∧ m.state = .active := by
  simp only [findActiveBySubject,List.mem_insertionSort,List.mem_filter,memories,List.mem_map,
    beliefFilter,Bool.and_eq_true,decide_eq_true_eq,MemoryScope.matchesRow_iff,and_assoc]
  constructor
  · intro given
    obtain ⟨⟨row,member,rfl⟩,inScope,keyed,grouped,active⟩ := given
    exact ⟨row,member,rfl,inScope,keyed,grouped,active⟩
  · intro given
    obtain ⟨row,member,rfl,inScope,keyed,grouped,active⟩ := given
    exact ⟨⟨row,member,rfl⟩,inScope,keyed,grouped,active⟩

end MemoryTable

theorem MemoryRow.stored_stored (row : MemoryRow) : row.stored.stored = row.stored := by
  have times : (row.memory.validTo.map micros).map micros = row.memory.validTo.map micros := by
    cases row.memory.validTo <;> simp
  simp only [MemoryRow.stored,micros_micros,times]

/-- The timestamps of the rows are what their columns keep. -/
def RowsRecorded (t : MemoryTable) : Prop := ∀ row ∈ t.rows, row.stored = row

theorem RowsRecorded.upsertRows {t : MemoryTable} (recorded : RowsRecorded t) (rows : List MemoryRow) :
    RowsRecorded (t.upsertRows rows) := by
  intro row member
  rcases MemoryTable.mem_upsertRows member with ⟨written,_,rfl⟩ | ⟨old,_⟩
  · exact written.stored_stored
  · exact recorded row old

namespace EdgeTable

def addEdge (t : EdgeTable) (tenant : String) (e : Edge) (now : Int) : EdgeTable :=
  t.insertIgnore
    { edge := { e with validFrom := e.validFrom.map micros, validTo := e.validTo.map micros }
      tenantId := tenant
      createdAt := micros now }

def supersedeEdges (t : EdgeTable) (tenant src relation : String) (instant : Int) (byEdge : Option Uuid) :
    EdgeTable :=
  t.update (fun row => row.tenantId = tenant && row.edge.src = src && row.edge.relation = relation &&
      row.edge.state = .active)
    (fun row => { row with edge := { row.edge with
      validTo := some (micros instant), state := .superseded, invalidatedBy := byEdge } })
    (fun _ => rfl)

end EdgeTable

end Ecphoria
