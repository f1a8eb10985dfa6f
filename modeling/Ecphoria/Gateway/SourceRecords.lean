import Ecphoria.Cognition.Subjects
import Ecphoria.Engine.Keyed
import Ecphoria.Gateway.Writes
import Mathlib.Data.List.Dedup

/-! Writes keyed by the caller's identifier. A source and an identifier become one subject, so
that what is sent again lands on what was sent before; two records with one subject meet. -/
namespace Ecphoria
open Library

structure SourceRecord where
  source : String
  externalId : String
deriving DecidableEq

/-- One `PUT /memories/by-external-id` and what its handling draws. -/
structure ExternalUpsert where
  caller : Caller
  req : MemoryExternalUpsertRequest
  draw : Draw

def ExternalUpsert.record (u : ExternalUpsert) : SourceRecord := ⟨u.req.source,u.req.externalId⟩

def ExternalUpsert.input (u : ExternalUpsert) : MemoryInput := u.req.input u.caller

structure AnsweredUpsert where
  record : SourceRecord
  content : String
  id : Uuid

/-- The engine, and the requests it answered with success, the latest first. -/
structure Importing where
  engine : Engine
  answered : List AnsweredUpsert

section
variable (env : Env)

def upsertByExternalId (e : Engine) (u : ExternalUpsert) : Option MemoryAdd × Engine :=
  if blank u.req.externalId || blank u.req.content then (none,e)
  else
    match memoryAdd env e u.draw u.input with
    | (.ok added,e) => (some added,e)
    | (.error _,e) => (none,e)

theorem upsertByExternalId_config (e : Engine) (u : ExternalUpsert) :
    (upsertByExternalId env e u).2.config = e.config := by
  have kept := memoryAdd_config env e u.draw u.input
  unfold upsertByExternalId
  split
  next => rfl
  next =>
    split
    next added after ok =>
      rw [ok] at kept
      exact kept
    next err after failed =>
      rw [failed] at kept
      exact kept

def Importing.step (s : Importing) (u : ExternalUpsert) : Importing :=
  match upsertByExternalId env s.engine u with
  | (some added,e) => ⟨e,⟨u.record,u.req.content,added.memory.id⟩ :: s.answered⟩
  | (none,e) => ⟨e,s.answered⟩

/-- The subject under which the memory of a record is stored. -/
def SourceRecord.subject (record : SourceRecord) : String :=
  normalizeSubject env ("ext:" ++ record.source ++ ":" ++ record.externalId)

end

namespace Importing

def latest (s : Importing) (record : SourceRecord) : Option AnsweredUpsert :=
  s.answered.find? (fun a => a.record = record)

def records (s : Importing) : List SourceRecord := (s.answered.map AnsweredUpsert.record).dedup

def written (s : Importing) : List Memory :=
  s.engine.memories.memories.filter (fun m => m.state = .active && m.id ∈ s.answered.map AnsweredUpsert.id)

/-- One active memory for each record, with the content that was sent last for it. -/
def OnePerRecord (s : Importing) : Prop :=
  s.written.length = s.records.length ∧
    ∀ record ∈ s.records, ∃ a, s.latest record = some a ∧
      ∃ m ∈ s.written, m.id = a.id ∧ m.content = a.content

theorem latest_listed {s : Importing} {record : SourceRecord} {a : AnsweredUpsert} (found : s.latest record = some a) :
    a ∈ s.answered ∧ a.record = record :=
  ⟨List.mem_of_find?_eq_some found,by simpa using List.find?_some found⟩

theorem exists_latest {s : Importing} {a : AnsweredUpsert} (listed : a ∈ s.answered) :
    ∃ b, s.latest a.record = some b := by
  refine Option.isSome_iff_exists.mp (List.find?_isSome.mpr ?_)
  exact ⟨a,listed,by simp⟩

theorem mem_records {s : Importing} {record : SourceRecord} :
    record ∈ s.records ↔ ∃ a ∈ s.answered, a.record = record :=
  List.mem_dedup.trans List.mem_map

theorem mem_written {s : Importing} {m : Memory} : m ∈ s.written ↔
    ∃ row ∈ s.engine.memories.rows, row.memory = m ∧ m.state = .active ∧ ∃ a ∈ s.answered, a.id = m.id := by
  simp only [written,List.mem_filter,MemoryTable.memories,List.mem_map,Bool.and_eq_true,decide_eq_true_eq]
  constructor
  · intro given
    obtain ⟨⟨row,member,rfl⟩,active,listed⟩ := given
    exact ⟨row,member,rfl,active,listed⟩
  · intro given
    obtain ⟨row,member,rfl,active,listed⟩ := given
    exact ⟨⟨row,member,rfl⟩,active,listed⟩

theorem written_nodup (s : Importing) : (s.written.map Memory.id).Nodup :=
  (List.filter_sublist.map Memory.id).nodup s.engine.memories.memories_nodup

def current (s : Importing) (record : SourceRecord) : Option Uuid := (s.latest record).map AnsweredUpsert.id

end Importing

section
variable (env : Env) (home : MemoryScope) (project : Option String)

/-- The request goes to the scope and project and names no subject. -/
def ExternalUpsert.Aimed (u : ExternalUpsert) : Prop :=
  u.input.scope.withDefaultTenant = home ∧ u.req.project = project ∧ u.req.subject = none

def ExternalUpsert.Enters (config : CoreConfig) (u : ExternalUpsert) : Prop :=
  blank u.req.externalId = false ∧ blank u.req.content = false ∧ Accepts env config u.input

instance (config : CoreConfig) (u : ExternalUpsert) : Decidable (u.Enters env config) :=
  inferInstanceAs (Decidable (_ ∧ _ ∧ _))

def DrawsNew (s : Importing) (u : ExternalUpsert) : Prop := u.draw.id ∉ s.engine.memories.keys

instance (s : Importing) (u : ExternalUpsert) : Decidable (DrawsNew s u) :=
  inferInstanceAs (Decidable (u.draw.id ∉ s.engine.memories.keys))

def HasRoom (s : Importing) (u : ExternalUpsert) : Prop :=
  u.Enters env s.engine.config → Room home (u.record.subject env) project s.engine

/-- No other record has the subject, and the memory of the subject is not confirmed by a content that differs from its
own in outer whitespace. -/
def KeepsRecords (s : Importing) (u : ExternalUpsert) : Prop :=
  u.Enters env s.engine.config →
    (∀ a ∈ s.answered, a.record.subject env = u.record.subject env → a.record = u.record) ∧
    ∀ m, newest s.engine.memories home (u.record.subject env) project = some m →
      trim m.content = trim u.req.content → m.content = u.req.content

/-- Each record has its own subject, whose newest memory is the one answered last for the record; and of the memories
answered no others are active. -/
structure Tidy (s : Importing) : Prop where
  off : s.engine.config.cognition.contradictionReview = false
  recorded : RowsRecorded s.engine.memories
  held : ∀ record a, s.latest record = some a → ∃ m,
    newest s.engine.memories home (record.subject env) project = some m ∧ m.id = a.id ∧ m.content = a.content
  apart : ∀ a ∈ s.answered, ∀ b ∈ s.answered, a.record.subject env = b.record.subject env → a.record = b.record
  owned : ∀ row ∈ s.engine.memories.rows, row.memory.state = .active → ∀ a ∈ s.answered, a.id = row.id →
    ∃ record b, s.latest record = some b ∧ b.id = row.id

variable {env home project}

theorem Tidy.onePerRecord {s : Importing} (tidy : Tidy env home project s) : s.OnePerRecord := by
  have placed {record : SourceRecord} {a : AnsweredUpsert} (found : s.latest record = some a) :
      ∃ m ∈ s.written, m.id = a.id ∧ m.content = a.content ∧ m.subject = some (record.subject env) := by
    obtain ⟨m,first,same,text⟩ := tidy.held record a found
    obtain ⟨row,member,rfl,_,about,_,active⟩ := newest_listed first
    exact ⟨row.memory,Importing.mem_written.mpr ⟨row,member,rfl,active,a,(Importing.latest_listed found).1,same.symm⟩,
      same,text,about⟩
  have found {record : SourceRecord} (listed : record ∈ s.records) : ∃ a, s.latest record = some a := by
    obtain ⟨a,inside,rfl⟩ := Importing.mem_records.mp listed
    exact Importing.exists_latest inside
  refine ⟨?_,?_⟩
  · have distinct : (s.records.map s.current).Nodup := by
      refine List.Nodup.map_on ?_ (List.nodup_dedup _)
      intro r listedR q listedQ same
      obtain ⟨a,foundA⟩ := found listedR
      obtain ⟨b,foundB⟩ := found listedQ
      rw [Importing.current,Importing.current,foundA,foundB] at same
      obtain ⟨m,insideM,idM,_,aboutM⟩ := placed foundA
      obtain ⟨n,insideN,idN,_,aboutN⟩ := placed foundB
      have equal : m.id = n.id := (idM.trans (Option.some.inj same)).trans idN.symm
      cases List.inj_on_of_nodup_map s.written_nodup insideM insideN equal
      obtain ⟨inA,rfl⟩ := Importing.latest_listed foundA
      obtain ⟨inB,rfl⟩ := Importing.latest_listed foundB
      exact tidy.apart a inA b inB (Option.some.inj (aboutM.symm.trans aboutN))
    have some : (s.written.map (fun m => Option.some m.id)).Nodup := by
      have shape : s.written.map (fun m => Option.some m.id) = (s.written.map Memory.id).map Option.some := by
        rw [List.map_map]
        rfl
      rw [shape]
      exact s.written_nodup.map (Option.some_injective _)
    have both : (s.written.map (fun m => Option.some m.id)).Perm (s.records.map s.current) := by
      refine (List.perm_ext_iff_of_nodup some distinct).mpr ?_
      intro answer
      constructor
      · intro inside
        obtain ⟨m,listed,rfl⟩ := List.mem_map.mp inside
        obtain ⟨row,member,rfl,active,a,answered,same⟩ := Importing.mem_written.mp listed
        obtain ⟨record,b,latest,equal⟩ := tidy.owned row member active a answered same
        obtain ⟨inside,rfl⟩ := Importing.latest_listed latest
        refine List.mem_map.mpr ⟨b.record,Importing.mem_records.mpr ⟨b,inside,rfl⟩,?_⟩
        rw [Importing.current,latest]
        exact congrArg Option.some equal
      · intro inside
        obtain ⟨record,listed,rfl⟩ := List.mem_map.mp inside
        obtain ⟨a,latest⟩ := found listed
        obtain ⟨m,written,same,_⟩ := placed latest
        rw [Importing.current,latest]
        exact List.mem_map.mpr ⟨m,written,congrArg Option.some same⟩
    simpa using both.length_eq
  · intro record listed
    obtain ⟨a,latest⟩ := found listed
    obtain ⟨m,written,same,text,_⟩ := placed latest
    exact ⟨a,latest,m,written,same,text⟩

theorem SourceRecord.subject_ne_empty (lowercases : env.Lowercases) (record : SourceRecord) :
    record.subject env ≠ "" := by
  intro empty
  have words := lowercases.words (String.intercalate " "
    (splitWhitespace ("ext:" ++ record.source ++ ":" ++ record.externalId)))
  rw [show env.toLowercase _ = "" from empty,splitWhitespace_join (fun word inside => isWord_of_mem inside)] at words
  have none : splitWhitespace ("ext:" ++ record.source ++ ":" ++ record.externalId) = [] :=
    List.map_eq_nil_iff.mp words.symm
  have blank := (splitWhitespace_eq_nil ("ext:" ++ record.source ++ ":" ++ record.externalId).toList).mp
    (by rwa [String.ofList_toList])
  have first := blank 'e' (by simp)
  revert first
  decide

theorem ExternalUpsert.Aimed.subject {u : ExternalUpsert} (lowercases : env.Lowercases) (aimed : u.Aimed home project) :
    (canonicalInput env u.input).subject = some (u.record.subject env) := by
  change canonicalSubject env (some (u.req.subject.getD ("ext:" ++ u.req.source ++ ":" ++ u.req.externalId))) = _
  rw [aimed.2.2]
  refine Option.filter_eq_some_iff.mpr ⟨rfl,?_⟩
  simpa using u.record.subject_ne_empty lowercases

theorem ExternalUpsert.Aimed.adds {s : Importing} {u : ExternalUpsert} (lowercases : env.Lowercases)
    (aimed : u.Aimed home project) (enters : u.Enters env s.engine.config) (fresh : DrawsNew s u)
    (room : HasRoom env home project s u) (off : s.engine.config.cognition.contradictionReview = false)
    (recorded : RowsRecorded s.engine.memories) : Adds env s.engine u.draw u.input (u.record.subject env) := by
  refine ⟨off,recorded,fresh,enters.2.2,aimed.subject lowercases,?_⟩
  obtain ⟨inHome,rfl,_⟩ := aimed
  rw [show (canonicalInput env u.input).scope = home from inHome]
  exact room enters

theorem Importing.step_refused {s : Importing} {u : ExternalUpsert} (refused : ¬u.Enters env s.engine.config) :
    s.step env u = s := by
  unfold Importing.step upsertByExternalId
  by_cases blanks : (blank u.req.externalId || blank u.req.content) = true
  · rw [if_pos blanks]
  · rw [if_neg blanks]
    have both : blank u.req.externalId = false ∧ blank u.req.content = false := by simpa using blanks
    have refuses : ¬Accepts env s.engine.config u.input := fun accepted => refused ⟨both.1,both.2,accepted⟩
    obtain ⟨err,failed⟩ : ∃ err, memoryAdd env s.engine u.draw u.input = (.error err,s.engine) := memoryAdd_refused refuses
    rw [failed]

theorem Importing.step_enters {s : Importing} {u : ExternalUpsert} (lowercases : env.Lowercases)
    (aimed : u.Aimed home project) (enters : u.Enters env s.engine.config) (fresh : DrawsNew s u)
    (room : HasRoom env home project s u) (off : s.engine.config.cognition.contradictionReview = false)
    (recorded : RowsRecorded s.engine.memories) : ∃ id e, s.step env u = ⟨e,⟨u.record,u.req.content,id⟩ :: s.answered⟩ ∧
      e.config = s.engine.config ∧ RowsRecorded e.memories ∧
      KeyedWrite home (u.record.subject env) project u.req.content u.draw.id s.engine.memories e.memories id ∧
      ∀ other, other ≠ u.record.subject env →
        newest e.memories home other project = newest s.engine.memories home other project := by
  obtain ⟨result,ok,kept,written,others⟩ := memoryAdd_written (aimed.adds lowercases enters fresh room off recorded)
  obtain ⟨inHome,rfl,_⟩ := aimed
  rw [show (canonicalInput env u.input).scope = home from inHome] at written others
  refine ⟨result.memory.id,(memoryAdd env s.engine u.draw u.input).2,?_,memoryAdd_config env _ _ _,kept,written,?_⟩
  · unfold Importing.step upsertByExternalId
    rw [enters.1,enters.2.1]
    have shape : memoryAdd env s.engine u.draw u.input = (.ok result,(memoryAdd env s.engine u.draw u.input).2) := by
      rw [← ok]
    rw [shape]
    rfl
  · intro other differs
    exact others other u.req.project (fun same => absurd same differs)

section
variable {s : Importing} {u : ExternalUpsert} {e : Engine} {id : Uuid}

theorem Importing.latest_same :
    (Importing.mk e (⟨u.record,u.req.content,id⟩ :: s.answered)).latest u.record = some ⟨u.record,u.req.content,id⟩ :=
  List.find?_cons_of_pos (by simp)

theorem Importing.latest_other {record : SourceRecord} (other : record ≠ u.record) :
    (Importing.mk e (⟨u.record,u.req.content,id⟩ :: s.answered)).latest record = s.latest record :=
  List.find?_cons_of_neg (by simpa using other.symm)

private theorem eq_of_newest {t : MemoryTable} {subject : String} {m : Memory} {row : MemoryRow}
    (found : newest t home subject project = some m) (member : row ∈ t.rows) (same : row.id = m.id) :
    row.memory = m ∧ MemoryTable.beliefFilter home subject project row.memory = true := by
  obtain ⟨held,there,rfl,inHome,about,grouped,active⟩ := newest_listed found
  cases t.eq_of_key member there same
  exact ⟨rfl,MemoryTable.beliefFilter_eq_true.mpr ⟨inHome,about,grouped,active⟩⟩

theorem Tidy.step (tidy : Tidy env home project s) (config : e.config = s.engine.config)
    (recorded : RowsRecorded e.memories)
    (written : KeyedWrite home (u.record.subject env) project u.req.content u.draw.id s.engine.memories e.memories id)
    (others : ∀ other, other ≠ u.record.subject env →
      newest e.memories home other project = newest s.engine.memories home other project)
    (apart : ∀ a ∈ s.answered, a.record.subject env = u.record.subject env → a.record = u.record)
    (trimmed : ∀ m, newest s.engine.memories home (u.record.subject env) project = some m →
      trim m.content = trim u.req.content → m.content = u.req.content) :
    Tidy env home project ⟨e,⟨u.record,u.req.content,id⟩ :: s.answered⟩ := by
  have own : ∃ m, newest e.memories home (u.record.subject env) project = some m ∧ m.id = id ∧
      m.content = u.req.content := by
    cases written with
    | confirmed m m' found same leaves retouched rows =>
      exact ⟨m',leaves,retouched.kept.1,retouched.kept.2.trans (trimmed m found same)⟩
    | landed row differs leaves drawn text rows => exact ⟨row.memory,leaves,drawn,text⟩
  refine ⟨?_,recorded,?_,?_,?_⟩
  · rw [config]
    exact tidy.off
  · intro record a latest
    by_cases same : record = u.record
    · subst same
      cases Importing.latest_same.symm.trans latest
      exact own
    · rw [Importing.latest_other same] at latest
      obtain ⟨inside,rfl⟩ := Importing.latest_listed latest
      rw [others _ (fun equal => same (apart a inside equal))]
      exact tidy.held _ a latest
  · intro a insideA b insideB equal
    rcases List.mem_cons.mp insideA with rfl | insideA <;> rcases List.mem_cons.mp insideB with rfl | insideB
    · rfl
    · exact (apart b insideB equal.symm).symm
    · exact apart a insideA equal
    · exact tidy.apart a insideA b insideB equal
  · intro row member active a listed same
    -- a memory answered earlier is still the one of its record, unless it is the one written
    have earlier (old : MemoryRow) (before : old ∈ s.engine.memories.rows) (was : old.memory.state = .active)
        (equal : old.id = row.id) (unwritten : row.id ≠ id) (inside : ∃ b ∈ s.answered, b.id = row.id)
        (aside : ∀ m, newest s.engine.memories home (u.record.subject env) project = some m → m.id ≠ row.id) :
        ∃ record b, (Importing.mk e (⟨u.record,u.req.content,id⟩ :: s.answered)).latest record = some b ∧
          b.id = row.id := by
      obtain ⟨b,listed,equal'⟩ := inside
      obtain ⟨record,c,latest,final⟩ := tidy.owned old before was b listed (equal'.trans equal.symm)
      refine ⟨record,c,?_,final.trans equal⟩
      rw [Importing.latest_other,latest]
      intro equalRecord
      subst equalRecord
      obtain ⟨m,found,idM,_⟩ := tidy.held _ c latest
      exact aside m found (idM.trans (final.trans equal))
    by_cases new : row.id = id
    · exact ⟨u.record,_,Importing.latest_same,new.symm⟩
    · have inside : ∃ b ∈ s.answered, b.id = row.id := by
        rcases List.mem_cons.mp listed with rfl | later
        · exact absurd same.symm new
        · exact ⟨a,later,same⟩
      cases written with
      | confirmed m m' found text leaves retouched rows =>
        obtain ⟨old,before,touched⟩ := rows row member
        rw [touched] at active
        refine earlier old before active touched.kept.1.symm new inside ?_
        intro other again equal
        cases found.symm.trans again
        exact new equal.symm
      | landed own differs leaves drawn text rows =>
        rcases rows row member active with rfl | ⟨before,_,unselected⟩
        · exact absurd drawn new
        · refine earlier row before active rfl new inside ?_
          intro m found equal
          rw [(eq_of_newest found before equal.symm).2] at unselected
          cases unselected

/-- When a request confirms the memory of another record, the other records have all the memories between them. -/
private theorem Tidy.crowded (tidy : Tidy env home project s) {a b : AnsweredUpsert} (inside : a ∈ s.answered)
    (equal : a.record.subject env = u.record.subject env) (differs : a.record ≠ u.record)
    (latest : s.latest a.record = some b) (same : b.id = id)
    (rows : ∀ row ∈ e.memories.rows, ∃ old ∈ s.engine.memories.rows, Retouched old.memory row.memory) :
    (Importing.mk e (⟨u.record,u.req.content,id⟩ :: s.answered)).written.length <
      (Importing.mk e (⟨u.record,u.req.content,id⟩ :: s.answered)).records.length := by
  set t : Importing := ⟨e,⟨u.record,u.req.content,id⟩ :: s.answered⟩ with after
  have others : ∀ id ∈ t.written.map Memory.id, some id ∈ (t.records.erase u.record).map t.current := by
    intro answer listed
    obtain ⟨m,written,rfl⟩ := List.mem_map.mp listed
    obtain ⟨row,member,rfl,active,c,answered,named⟩ := Importing.mem_written.mp written
    obtain ⟨record,d,kept,unlike,final⟩ : ∃ record d, s.latest record = some d ∧ record ≠ u.record ∧ d.id = row.id := by
      by_cases new : row.id = id
      · exact ⟨a.record,b,latest,differs,same.trans new.symm⟩
      · have earlier : c ∈ s.answered := by
          rcases List.mem_cons.mp answered with rfl | later
          · exact absurd named.symm new
          · exact later
        obtain ⟨old,before,touched⟩ := rows row member
        rw [touched] at active
        obtain ⟨record,d,found,equalId⟩ := tidy.owned old before active c earlier (named.trans touched.kept.1)
        refine ⟨record,d,found,?_,equalId.trans touched.kept.1.symm⟩
        intro own
        obtain ⟨listed,named⟩ := Importing.latest_listed found
        refine differs ((tidy.apart a inside d listed ?_).trans (named.trans own))
        rw [equal,named,own]
    refine List.mem_map.mpr ⟨record,(List.mem_erase_of_ne unlike).mpr ?_,?_⟩
    · obtain ⟨listed,named⟩ := Importing.latest_listed kept
      exact Importing.mem_records.mpr ⟨d,List.mem_cons_of_mem _ listed,named⟩
    · rw [Importing.current,after,Importing.latest_other unlike,kept]
      exact congrArg some final
  have here : u.record ∈ t.records := Importing.mem_records.mpr ⟨_,List.mem_cons_self,rfl⟩
  have few : (t.written.map Memory.id).length ≤ ((t.records.erase u.record).map t.current).length := by
    have wrapped : ((t.written.map Memory.id).map some).length = (t.written.map Memory.id).length := List.length_map _
    rw [← wrapped]
    refine (List.subperm_of_subset (t.written_nodup.map (Option.some_injective _)) ?_).length_le
    intro answer listed
    obtain ⟨id,inside,rfl⟩ := List.mem_map.mp listed
    exact others id inside
  rw [List.length_map,List.length_map,List.length_erase_of_mem here] at few
  have positive := List.length_pos_of_mem here
  omega

/-- Two records under one subject leave one active memory for both; a content that only trims to that of the memory is
not taken over. -/
theorem Tidy.keeps (tidy : Tidy env home project s) (fresh : DrawsNew s u)
    (written : KeyedWrite home (u.record.subject env) project u.req.content u.draw.id s.engine.memories e.memories id)
    (one : (Importing.mk e (⟨u.record,u.req.content,id⟩ :: s.answered)).OnePerRecord) :
    (∀ a ∈ s.answered, a.record.subject env = u.record.subject env → a.record = u.record) ∧
      ∀ m, newest s.engine.memories home (u.record.subject env) project = some m →
        trim m.content = trim u.req.content → m.content = u.req.content := by
  obtain ⟨count,each⟩ := one
  refine ⟨?_,?_⟩
  · intro a inside equal
    by_contra differs
    obtain ⟨b,latest⟩ := Importing.exists_latest inside
    obtain ⟨m,found,idM,_⟩ := tidy.held _ b latest
    rw [equal] at found
    obtain ⟨c,latest',x,listed,idX,_⟩ := each a.record
      (Importing.mem_records.mpr ⟨a,List.mem_cons_of_mem _ inside,rfl⟩)
    rw [Importing.latest_other differs,latest] at latest'
    cases latest'
    obtain ⟨row,member,rfl,active,_⟩ := Importing.mem_written.mp listed
    have sameId : row.id = m.id := idX.trans idM.symm
    obtain ⟨held,there,rfl,_⟩ := newest_listed found
    cases written with
    | landed own unlike leaves drawn text rows =>
      rcases rows row member active with rfl | ⟨before,_,unselected⟩
      · exact fresh ((Table.mem_keys _ _).mpr ⟨held,there,sameId.symm.trans drawn⟩)
      · rw [(eq_of_newest found before sameId).2] at unselected
        cases unselected
    | confirmed m' after found' text leaves retouched rows =>
      cases found.symm.trans found'
      exact absurd count (Nat.ne_of_lt (tidy.crowded inside equal differs latest idM.symm rows))
  · intro m found same
    obtain ⟨a,latest,x,listed,idX,text⟩ := each u.record
      (Importing.mem_records.mpr ⟨_,List.mem_cons_self,rfl⟩)
    rw [Importing.latest_same] at latest
    cases latest
    cases written with
    | landed own unlike leaves drawn => exact absurd same (unlike m found)
    | confirmed m' after found' trimmed leaves retouched rows =>
      cases found.symm.trans found'
      obtain ⟨row,member,rfl,_⟩ := Importing.mem_written.mp listed
      have last := (eq_of_newest leaves member (idX.trans retouched.kept.1.symm)).1
      rw [← retouched.kept.2,← last]
      exact text

end

theorem hasRoom_unlimited {e : Engine} (upserts : List ExternalUpsert)
    (unlimited : e.config.cognition.maxMemoriesPerScope = 0) (answered : List AnsweredUpsert) :
    Along (Importing.step env) (HasRoom env home project) ⟨e,answered⟩ upserts := by
  induction upserts generalizing e answered with
  | nil => trivial
  | cons u upserts ih =>
    refine ⟨fun _ => Or.inl unlimited,?_⟩
    obtain ⟨answered',step⟩ : ∃ answered', (Importing.mk e answered).step env u =
        ⟨(upsertByExternalId env e u).2,answered'⟩ := by
      unfold Importing.step
      rcases upsertByExternalId env e u with ⟨none | added,after⟩
      · exact ⟨_,rfl⟩
      · exact ⟨_,rfl⟩
    rw [step]
    refine ih ?_ answered'
    rw [upsertByExternalId_config]
    exact unlimited

/-- Redelivery in one scope and project ends, and stays all along, with one memory for each record exactly when no
request meets the subject of another record, or the memory of its own with a content that differs in outer whitespace. -/
theorem one_per_record_iff (lowercases : env.Lowercases) (e : Engine) (upserts : List ExternalUpsert)
    (off : e.config.cognition.contradictionReview = false) (recorded : RowsRecorded e.memories)
    (aimed : ∀ u ∈ upserts, u.Aimed home project)
    (fresh : Along (Importing.step env) DrawsNew ⟨e,[]⟩ upserts)
    (room : Along (Importing.step env) (HasRoom env home project) ⟨e,[]⟩ upserts) :
    Throughout (Importing.step env) Importing.OnePerRecord ⟨e,[]⟩ upserts ↔
      Along (Importing.step env) (KeepsRecords env home project) ⟨e,[]⟩ upserts := by
  have start : Tidy env home project ⟨e,[]⟩ := by
    refine ⟨off,recorded,?_,?_,?_⟩
    · intro record a latest
      cases latest
    · intro a inside
      cases inside
    · intro row _ _ a inside
      cases inside
  refine ((fresh.and room).and (Along.of_forall aimed)).throughout_iff
    (fun s => s.OnePerRecord → Tidy env home project s) (fun _ => start) start.onePerRecord ?_
  intro s u tidies one given
  obtain ⟨⟨fresh,room⟩,aimed⟩ := given
  have tidy := tidies one
  by_cases enters : u.Enters env s.engine.config
  · obtain ⟨id,e,step,config,recorded,written,others⟩ :=
      Importing.step_enters lowercases aimed enters fresh room tidy.off tidy.recorded
    rw [step]
    have keeps (one : (Importing.mk e (⟨u.record,u.req.content,id⟩ :: s.answered)).OnePerRecord) :=
      tidy.keeps fresh written one
    refine ⟨?_,?_⟩
    · intro one
      obtain ⟨apart,trimmed⟩ := keeps one
      exact tidy.step config recorded written others apart trimmed
    · constructor
      · intro one _
        exact keeps one
      · intro kept
        obtain ⟨apart,trimmed⟩ := kept enters
        exact (tidy.step config recorded written others apart trimmed).onePerRecord
  · rw [Importing.step_refused enters]
    exact ⟨tidies,iff_of_true one (fun given => absurd given enters)⟩

end

def sourceUpsert (source externalId content : String) (now : Int) (id : Uuid) : ExternalUpsert where
  caller := ⟨none,none⟩
  req := ⟨externalId,source,content,none,none,none,none,none,none,⟨none,none,none,none⟩⟩
  draw := .plain now id

def ticketUpserts : List ExternalUpsert :=
  [sourceUpsert "jira" "OPS-1" "open" 1000 1,sourceUpsert "github" "OPS-1" "open" 2000 2,
    sourceUpsert "jira" "OPS-1" "closed" 3000 3]

def blankImport : Importing := ⟨.empty .default 2,[]⟩

theorem one_per_record_iff_tickets :
    Throughout (Importing.step .ascii) Importing.OnePerRecord blankImport ticketUpserts ↔
      Along (Importing.step .ascii) (KeepsRecords .ascii (.tenant "default") none) blankImport ticketUpserts := by
  have aimed : ∀ u ∈ ticketUpserts, u.Aimed (.tenant "default") none := by
    simp [ticketUpserts,sourceUpsert,ExternalUpsert.Aimed,ExternalUpsert.input,MemoryExternalUpsertRequest.input,
      scopeWithHeader,MemoryScope.withDefaultTenant,MemoryScope.tenant,tenantOrDefault]
  have recorded : RowsRecorded (Engine.empty .default 2).memories := by
    simp [RowsRecorded,Engine.empty,Table.empty]
  have fresh : Along (Importing.step .ascii) DrawsNew blankImport ticketUpserts := by decide +kernel
  exact one_per_record_iff ascii_lowercases (.empty .default 2) ticketUpserts rfl recorded aimed fresh
    (hasRoom_unlimited ticketUpserts rfl [])

/-- The colon may stand in the source or in the identifier. -/
def colonUpserts : List ExternalUpsert :=
  [sourceUpsert "jira" "OPS:1" "open" 1000 1,sourceUpsert "jira:OPS" "1" "closed" 2000 2]

theorem records_meet : (∀ u ∈ colonUpserts, u.Aimed (.tenant "default") none) ∧
    ¬Throughout (Importing.step .ascii) Importing.OnePerRecord blankImport colonUpserts := by
  refine ⟨?_,?_⟩
  · simp [colonUpserts,sourceUpsert,ExternalUpsert.Aimed,ExternalUpsert.input,MemoryExternalUpsertRequest.input,
      scopeWithHeader,MemoryScope.withDefaultTenant,MemoryScope.tenant,tenantOrDefault]
  · intro one
    have count := (one 2).1
    revert count
    decide +kernel

end Ecphoria
