import Ecphoria.Engine.Timeline
import Ecphoria.Library.Transition

/-! Calls of `memory_add` beside each other. A call plans against the store as it is and then
writes its rows one after the other; nothing keeps another call from planning in between,
and then both write a version of their own. -/
namespace Ecphoria
open Library

/-- One call. On the leader of a cluster the rows are committed as one entry and the cap is not enforced. -/
structure AddCall where
  input : MemoryInput
  clustered : Bool

inductive AddStage where
  | waiting
  | applying (add : MemoryAdd) (stamp : Uuid → Int) (written rows : List MemoryRow)
  | capping (add : MemoryAdd) (written : List MemoryRow)
  | done (written : List MemoryRow) (answer : Except Error MemoryAdd)

/-- What `upsert_raw` answers when the database does not take the row. -/
def upsertFailed : Error := .ingest "upsert memory"

section
variable (env : Env)

/-- The next step of a call. `fails` tells that the store refuses what the step writes. -/
def AddCall.advance (call : AddCall) (e : Engine) (d : Draw) (fails : Bool) : AddStage → Engine × AddStage
  | .waiting =>
    match memoryPlan env e d call.input with
    | .error err => (e,.done [] (.error err))
    | .ok (add,rows) => (e,.applying add d.stamp [] rows)
  | .applying add _ written [] => (e,if call.clustered then .done written (.ok add) else .capping add written)
  | .applying add stamp written (row :: rows) =>
    if fails then (e,.done written (.error upsertFailed))
    else (applyRow env stamp e row,.applying add stamp (written ++ [row]) rows)
  | .capping add written => (if fails then e else evictOverCap e add.memory.scope,.done written (.ok add))
  | .done written answer => (e,.done written answer)

/-- Steps of one call with nothing in between. -/
def AddCall.alone (call : AddCall) (d : Draw) (reached : Engine × AddStage) : Nat → Engine × AddStage
  | 0 => reached
  | n + 1 => call.alone d (call.advance env reached.1 d false reached.2) n

theorem AddCall.alone_rows (call : AddCall) (e : Engine) (d : Draw) (add : MemoryAdd) (stamp : Uuid → Int)
    (written rows : List MemoryRow) (more : Nat) :
    call.alone env d (e,.applying add stamp written rows) (rows.length + more) =
      call.alone env d (memoryApplyRows env stamp e rows,.applying add stamp (written ++ rows) []) more := by
  induction rows generalizing e written with
  | nil => simp [memoryApplyRows]
  | cons row rows ih =>
    have next : call.advance env e d false (.applying add stamp written (row :: rows)) =
        (applyRow env stamp e row,.applying add stamp (written ++ [row]) rows) := rfl
    rw [List.length_cons,Nat.succ_add,AddCall.alone,next,ih]
    simp [memoryApplyRows]

theorem AddCall.alone_memoryAdd (input : MemoryInput) (e : Engine) (d : Draw) :
    ∃ n written, AddCall.alone env ⟨input,false⟩ d (e,.waiting) n =
      ((memoryAdd env e d input).2,.done written (memoryAdd env e d input).1) := by
  cases ok : memoryPlan env e d input with
  | error err =>
    refine ⟨1,[],?_⟩
    simp [AddCall.alone,AddCall.advance,memoryAdd,ok]
  | ok planned =>
    refine ⟨1 + (planned.rows.length + 2),planned.rows,?_⟩
    have first : AddCall.alone env ⟨input,false⟩ d (e,.waiting) (1 + (planned.rows.length + 2)) =
        AddCall.alone env ⟨input,false⟩ d (e,.applying planned.add d.stamp [] planned.rows) (planned.rows.length + 2) := by
      rw [Nat.add_comm,AddCall.alone]
      simp only [AddCall.advance,ok]
      rfl
    rw [first,AddCall.alone_rows]
    simp only [AddCall.alone,AddCall.advance,memoryAdd,ok,List.nil_append]
    rfl

def AddStage.InFlight : AddStage → Prop
  | .applying _ _ _ _ => True
  | .capping _ _ => True
  | _ => False

instance : DecidablePred AddStage.InFlight
  | .waiting => isFalse id
  | .applying _ _ _ _ => isTrue trivial
  | .capping _ _ => isTrue trivial
  | .done _ _ => isFalse id

abbrev Writers := Processes Engine (AddCall × AddStage)

def Writers.move (e : Engine) (own : AddCall × AddStage) (d : Draw) : Engine × (AddCall × AddStage) :=
  let moved := own.1.advance env e d false own.2
  (moved.1,(own.1,moved.2))

def Writers.next : Writers → Nat × Draw → Writers := Processes.step (Writers.move env)

section
variable (k : BeliefKey)

def ActiveOnce (t : MemoryTable) : Prop :=
  ∀ a ∈ t.rows, ∀ b ∈ t.rows, beliefOf a.memory = some k → beliefOf b.memory = some k → a = b

/-- The version is active, or closed at the instant at which its successor starts. -/
def Stands (t : MemoryTable) (row : MemoryRow) : Prop :=
  About k row.memory ∧ (row.memory.state = .active ∨ row.memory.state = .superseded ∧ ∃ next ∈ t.rows,
    About k next.memory ∧ next.memory.supersedes = some row.id ∧ row.memory.validTo = some next.memory.validFrom)

def AddRecorded (t : MemoryTable) (id : Uuid) (content : String) : Prop :=
  ∃ row ∈ t.rows, row.id = id ∧ trim row.memory.content = trim content ∧ Stands k t row

/-- Once no call is under way, the belief is not split and what every call wrote stands. -/
def Unsplit (s : Writers) : Prop :=
  (∀ i, ¬(s.locals i).2.InFlight) → ActiveOnce k s.shared.memories ∧
    ∀ i add written, (s.locals i).2 = .done written (.ok add) →
      AddRecorded k s.shared.memories add.memory.id (s.locals i).1.input.content

def PlansFresh (s : Writers) (input : Nat × Draw) : Prop :=
  match (s.locals input.1).2 with
  | .waiting => input.2.id ∉ s.shared.memories.keys
  | _ => True

instance (s : Writers) (input : Nat × Draw) : Decidable (PlansFresh s input) :=
  match stage : (s.locals input.1).2 with
  | .waiting => decidable_of_iff (input.2.id ∉ s.shared.memories.keys) (by simp [PlansFresh,stage])
  | .applying _ _ _ _ => isTrue (by simp [PlansFresh,stage])
  | .capping _ _ => isTrue (by simp [PlansFresh,stage])
  | .done _ _ => isTrue (by simp [PlansFresh,stage])

/-- A call plans only while no other is under way, and the cap evicts no version. -/
def Serial (s : Writers) (input : Nat × Draw) : Prop :=
  match (s.locals input.1).2 with
  | .waiting => ∀ i, ¬(s.locals i).2.InFlight
  | .capping add _ => ∀ row ∈ s.shared.memories.rows, About k row.memory →
    row.id ∉ s.shared.memories.overCap add.memory.scope s.shared.config.cognition.maxMemoriesPerScope
  | _ => True

end

end

section
variable {env : Env} {k : BeliefKey}

variable (k) in
/-- The rows of a plan about the key: in the place of active versions, and then one active version. -/
inductive WriterPlan (e : Engine) (d : Draw) (input : MemoryInput) (planned : Planned) : Prop
  | inserted (new : MemoryRow) (written : planned.rows = [new]) (answer : planned.add.memory = new.memory)
      (id : new.id = d.id) (about : About k new.memory) (active : new.memory.state = .active)
      (content : new.memory.content = input.content)
      (absent : ∀ row ∈ e.memories.rows, beliefOf row.memory ≠ some k)
  | confirmed (old : MemoryRow) (member : old ∈ e.memories.rows) (believed : beliefOf old.memory = some k)
      (new : MemoryRow) (written : planned.rows = [new]) (answer : planned.add.memory = new.memory)
      (same : trim old.memory.content = trim input.content)
      (kept : new.memory = { old.memory with
        importance := new.memory.importance, version := new.memory.version, updatedAt := new.memory.updatedAt })
  | superseded (validAt recordedAt : Int) (closed : List Memory) (new : MemoryRow)
      (written : planned.rows = closed.map (closeRow validAt recordedAt) ++ [new])
      (answer : planned.add.memory = new.memory) (id : new.id = d.id) (about : About k new.memory)
      (active : new.memory.state = .active) (content : new.memory.content = input.content)
      (actives : ∀ m, m ∈ closed ↔ ∃ row ∈ e.memories.rows, row.memory = m ∧ beliefOf m = some k)
      (first : ∃ old ∈ closed, new.memory.supersedes = some old.id) (since : new.memory.validFrom = validAt)

theorem memoryPlan_writer {e : Engine} {d : Draw} {input : MemoryInput} {planned : Planned}
    (off : e.config.cognition.contradictionReview = false) (about : InputAbout env k input)
    (ok : memoryPlan env e d input = .ok planned) : WriterPlan k e d input planned := by
  obtain ⟨inScope,grouped,keyed⟩ := about
  have tenant : k.scope.withDefaultTenant = k.scope := InputAbout.tenant env k ⟨inScope,grouped,keyed⟩
  have listed (m : Memory) : m ∈ e.memories.findActiveBySubject k.scope k.subject k.project ↔
      ∃ row ∈ e.memories.rows, row.memory = m ∧ beliefOf m = some k := by
    rw [MemoryTable.mem_findActiveBySubject]
    refine exists_congr (fun row => and_congr_right (fun _ => and_congr_right (fun _ => ?_)))
    rw [beliefOf_eq_some,tenant]
    constructor
    · intro given
      exact ⟨given.2.2.2,given.1,given.2.2.1,given.2.1⟩
    · intro given
      exact ⟨given.2.1,given.2.2.2,given.2.2.1,given.1⟩
  have key {subject : String} (given : (canonicalInput env input).subject = some subject) :
      e.memories.findActiveBySubject (canonicalInput env input).scope subject input.project =
        e.memories.findActiveBySubject k.scope k.subject k.project :=
    (InputAbout.found env k ⟨inScope,grouped,keyed⟩ given).2
  cases (memoryPlanWithEmbedding_cases env ok).2 with
  | confirmed subject existing others given found same =>
    rw [key given] at found
    obtain ⟨old,member,rfl,believed⟩ := (listed existing).mp (found ▸ List.mem_cons_self)
    exact .confirmed old member believed _ rfl rfl same rfl
  | conflict _ _ _ _ _ review => cases review.symm.trans off
  | superseded subject existing others given found differs =>
    cases keyed.symm.trans given
    rw [key given] at found
    refine .superseded _ d.recordedAt (existing :: others) _ rfl rfl rfl ⟨inScope,grouped,rfl⟩ rfl rfl ?_ ?_ rfl
    · intro m
      rw [← found]
      exact listed m
    · exact ⟨existing,List.mem_cons_self,rfl⟩
  | merged top unkeyed _ => cases keyed.symm.trans unkeyed
  | inserted absent _ =>
    refine .inserted _ rfl rfl rfl ⟨inScope,grouped,keyed⟩ rfl rfl ?_
    intro row member believed
    have none := absent k.subject keyed
    rw [key keyed] at none
    have inside := (listed row.memory).mpr ⟨row,member,rfl,believed⟩
    rw [none] at inside
    cases inside

/-- When the written rows stand where the active versions did, and one of them is active, there is one. -/
theorem ActiveOnce.of_covered {t : MemoryTable} {rows : List MemoryRow} (last : MemoryRow)
    (covers : ∀ row ∈ t.rows, beliefOf row.memory = some k → ∃ x ∈ rows, x.id = row.id)
    (single : ∀ row ∈ rows, beliefOf row.memory = some k → row = last) : ActiveOnce k (t.upsertRows rows) := by
  have alone {row : MemoryRow} (member : row ∈ (t.upsertRows rows).rows) (believed : beliefOf row.memory = some k) :
      row = last.stored := by
    rcases MemoryTable.mem_upsertRows member with ⟨written,inside,rfl⟩ | ⟨old,apart⟩
    · rw [single written inside believed]
    · obtain ⟨x,inside,same⟩ := covers row old believed
      exact absurd same (apart x inside)
  intro a memberA b memberB believedA believedB
  rw [alone memberA believedA,alone memberB believedB]

/-- The version under the same identifier: what other versions say of it is the same. -/
def SameVersion (k : BeliefKey) (a b : MemoryRow) : Prop :=
  b.id = a.id ∧ About k b.memory ∧ b.memory.content = a.memory.content ∧ b.memory.supersedes = a.memory.supersedes ∧
    b.memory.validFrom = a.memory.validFrom

theorem SameVersion.refl {row : MemoryRow} (about : About k row.memory) : SameVersion k row row :=
  ⟨rfl,about,rfl,rfl,rfl⟩

/-- What is recorded stays so when versions stay, closed ones as they are, and active ones stand again. -/
theorem AddRecorded.transfer {t u : MemoryTable}
    (kept : ∀ row ∈ t.rows, About k row.memory → ∃ other ∈ u.rows, SameVersion k row other)
    (closed : ∀ row ∈ t.rows, row.memory.state = .superseded → row ∈ u.rows)
    (active : ∀ row ∈ t.rows, beliefOf row.memory = some k → ∀ other ∈ u.rows, SameVersion k row other → Stands k u other)
    {id : Uuid} {content : String} (before : AddRecorded k t id content) : AddRecorded k u id content := by
  obtain ⟨row,member,same,text,about,either⟩ := before
  rcases either with live | ⟨ended,next,there,nextAbout,links,ends⟩
  · obtain ⟨other,inside,version⟩ := kept row member about
    have believed : beliefOf row.memory = some k := beliefOf_eq_some.mpr ⟨live,about.1,about.2.1,about.2.2⟩
    refine ⟨other,inside,version.1.trans same,?_,active row member believed other inside version⟩
    rw [version.2.2.1]
    exact text
  · obtain ⟨other,inside,_,otherAbout,_,linked,since⟩ := kept next there nextAbout
    exact ⟨row,closed row member ended,same,text,about,Or.inr ⟨ended,other,inside,otherAbout,linked.trans links,
      ends.trans (congrArg some since.symm)⟩⟩

private theorem recorded_validFrom {t : MemoryTable} (recorded : RowsRecorded t) {row : MemoryRow} (member : row ∈ t.rows) :
    micros row.memory.validFrom = row.memory.validFrom :=
  congrArg (fun row : MemoryRow => row.memory.validFrom) (recorded row member)

variable (k) in
/-- With the rows written there is one active version, the content is recorded, and what was recorded stays so. -/
def WritesRecorded (t : MemoryTable) (rows : List MemoryRow) (id : Uuid) (content : String) : Prop :=
  ActiveOnce k (t.upsertRows rows) ∧ AddRecorded k (t.upsertRows rows) id content ∧
    ∀ other text, AddRecorded k t other text → AddRecorded k (t.upsertRows rows) other text

section
variable {t : MemoryTable} {new : MemoryRow}

private theorem upsertRows_new (t : MemoryTable) (rows : List MemoryRow) (new : MemoryRow) :
    new.stored ∈ (t.upsertRows (rows ++ [new])).rows := by
  rw [MemoryTable.upsertRows_append]
  exact (Table.mem_upsert _ _ _).mpr (Or.inl rfl)

theorem inserted_recorded (unused : ∀ row ∈ t.rows, new.id ≠ row.id) (about : About k new.memory)
    (active : new.memory.state = .active) (absent : ∀ row ∈ t.rows, beliefOf row.memory ≠ some k) :
    WritesRecorded k t [new] new.memory.id new.memory.content := by
  have stays {row : MemoryRow} (member : row ∈ t.rows) : row ∈ (t.upsertRows [new]).rows :=
    MemoryTable.mem_upsertRows_of_apart member (by simpa using unused row member)
  refine ⟨ActiveOnce.of_covered new ?_ (fun row inside _ => List.mem_singleton.mp inside),?_,?_⟩
  · exact fun row member believed => absurd believed (absent row member)
  · exact ⟨new.stored,upsertRows_new t [] new,rfl,rfl,about,Or.inl active⟩
  · intro other text before
    refine before.transfer ?_ (fun row member _ => stays member) ?_
    · exact fun row member about => ⟨row,stays member,SameVersion.refl about⟩
    · exact fun row member believed => absurd believed (absent row member)

theorem confirmed_version {old : MemoryRow} (recorded : RowsRecorded t) (member : old ∈ t.rows)
    (believed : beliefOf old.memory = some k)
    (kept : new.memory = { old.memory with
      importance := new.memory.importance, version := new.memory.version, updatedAt := new.memory.updatedAt }) :
    SameVersion k old new.stored := by
  obtain ⟨_,inScope,grouped,keyed⟩ := beliefOf_eq_some.mp believed
  have since := recorded_validFrom recorded member
  refine ⟨?_,?_,?_,?_,?_⟩
  · change new.memory.id = old.memory.id
    rw [kept]
  · change About k new.memory
    rw [kept]
    exact ⟨inScope,grouped,keyed⟩
  · change new.memory.content = old.memory.content
    rw [kept]
  · change new.memory.supersedes = old.memory.supersedes
    rw [kept]
  · change micros new.memory.validFrom = old.memory.validFrom
    rw [kept]
    exact since

theorem confirmed_recorded {old : MemoryRow} {content : String} (recorded : RowsRecorded t) (once : ActiveOnce k t)
    (member : old ∈ t.rows) (believed : beliefOf old.memory = some k) (same : trim old.memory.content = trim content)
    (kept : new.memory = { old.memory with
      importance := new.memory.importance, version := new.memory.version, updatedAt := new.memory.updatedAt }) :
    WritesRecorded k t [new] new.memory.id content := by
  have live := (beliefOf_eq_some.mp believed).1
  have version := confirmed_version recorded member believed kept
  have there : new.stored ∈ (t.upsertRows [new]).rows := upsertRows_new t [] new
  have active : new.memory.state = .active := (congrArg Memory.state kept).trans live
  have stays {row : MemoryRow} (inside : row ∈ t.rows) (other : row ≠ old) : row ∈ (t.upsertRows [new]).rows := by
    refine MemoryTable.mem_upsertRows_of_apart inside ?_
    intro x listed equal
    rw [List.mem_singleton.mp listed] at equal
    exact other (t.eq_of_key inside member (equal.symm.trans version.1))
  refine ⟨ActiveOnce.of_covered new ?_ (fun row inside _ => List.mem_singleton.mp inside),?_,?_⟩
  · intro row inside believed'
    rw [once row inside old member believed' believed]
    exact ⟨new,List.mem_singleton_self new,version.1⟩
  · refine ⟨new.stored,there,rfl,?_,version.2.1,Or.inl active⟩
    rw [version.2.2.1]
    exact same
  · intro id text before
    refine before.transfer ?_ ?_ ?_
    · intro row inside about
      by_cases equal : row = old
      · exact ⟨new.stored,there,equal ▸ version⟩
      · exact ⟨row,stays inside equal,SameVersion.refl about⟩
    · intro row inside ended
      refine stays inside ?_
      intro equal
      rw [equal] at ended
      cases ended.symm.trans live
    · intro row inside believed' other listed same'
      cases once row inside old member believed' believed
      cases Table.eq_of_key _ listed there (same'.1.trans version.1.symm)
      exact ⟨version.2.1,Or.inl active⟩

section
variable {validAt recordedAt : Int} {closed : List Memory}
  (actives : ∀ m, m ∈ closed ↔ ∃ row ∈ t.rows, row.memory = m ∧ beliefOf m = some k)
include actives

theorem mem_closing {x : MemoryRow} (inside : x ∈ closed.map (closeRow validAt recordedAt) ++ [new]) :
    x = new ∨ ∃ old ∈ t.rows, beliefOf old.memory = some k ∧ x = closeRow validAt recordedAt old.memory := by
  rcases List.mem_append.mp inside with shut | final
  · obtain ⟨m,listed,rfl⟩ := List.mem_map.mp shut
    obtain ⟨old,member,rfl,believed⟩ := (actives m).mp listed
    exact Or.inr ⟨old,member,believed,rfl⟩
  · exact Or.inl (List.mem_singleton.mp final)

theorem closing_listed {row : MemoryRow} (member : row ∈ t.rows) (believed : beliefOf row.memory = some k) :
    closeRow validAt recordedAt row.memory ∈ closed.map (closeRow validAt recordedAt) ++ [new] :=
  List.mem_append_left _ (List.mem_map_of_mem ((actives _).mpr ⟨row,member,rfl,believed⟩))

theorem closing_shut (unused : ∀ row ∈ t.rows, new.id ≠ row.id) {row : MemoryRow} (member : row ∈ t.rows)
    (believed : beliefOf row.memory = some k) : (closeRow validAt recordedAt row.memory).stored ∈
      (t.upsertRows (closed.map (closeRow validAt recordedAt) ++ [new])).rows := by
  have inside : closeRow validAt recordedAt row.memory ∈ closed.map (closeRow validAt recordedAt) ++ [new] :=
    closing_listed actives member believed
  obtain ⟨written,listed,same,found⟩ := MemoryTable.exists_upsertRows_written (t := t) inside
  rcases mem_closing actives listed with rfl | ⟨old,older,_,rfl⟩
  · exact absurd same (unused row member)
  · cases t.eq_of_key older member same
    exact found

theorem closing_stays (unused : ∀ row ∈ t.rows, new.id ≠ row.id) {row : MemoryRow} (member : row ∈ t.rows)
    (other : beliefOf row.memory ≠ some k) :
    row ∈ (t.upsertRows (closed.map (closeRow validAt recordedAt) ++ [new])).rows := by
  refine MemoryTable.mem_upsertRows_of_apart member ?_
  intro x inside equal
  rcases mem_closing actives inside with rfl | ⟨old,older,believed,rfl⟩
  · exact unused row member equal
  · cases t.eq_of_key older member equal
    exact other believed

theorem superseded_recorded (recorded : RowsRecorded t) (once : ActiveOnce k t) (unused : ∀ row ∈ t.rows, new.id ≠ row.id)
    (about : About k new.memory) (active : new.memory.state = .active)
    (first : ∃ old ∈ closed, new.memory.supersedes = some old.id) (since : new.memory.validFrom = validAt) :
    WritesRecorded k t (closed.map (closeRow validAt recordedAt) ++ [new]) new.memory.id new.memory.content := by
  have there := upsertRows_new t (closed.map (closeRow validAt recordedAt)) new
  have version {row : MemoryRow} (member : row ∈ t.rows) (believed : beliefOf row.memory = some k) :
      SameVersion k row (closeRow validAt recordedAt row.memory).stored := by
    have since := recorded_validFrom recorded member
    exact ⟨rfl,(beliefOf_eq_some.mp believed).2,rfl,rfl,since⟩
  refine ⟨ActiveOnce.of_covered new ?_ ?_,⟨new.stored,there,rfl,rfl,about,Or.inl active⟩,?_⟩
  · exact fun row member believed => ⟨_,closing_listed actives member believed,rfl⟩
  · intro row inside believed
    rcases mem_closing actives inside with same | ⟨old,_,_,rfl⟩
    · exact same
    · cases (beliefOf_eq_some.mp believed).1
  · intro other text before
    refine before.transfer ?_ ?_ ?_
    · intro row member about
      by_cases believed : beliefOf row.memory = some k
      · exact ⟨_,closing_shut actives unused member believed,version member believed⟩
      · exact ⟨row,closing_stays actives unused member believed,SameVersion.refl about⟩
    · intro row member ended
      refine closing_stays actives unused member ?_
      intro believed
      cases ended.symm.trans (beliefOf_eq_some.mp believed).1
    · intro row member believed after listed same
      cases Table.eq_of_key _ listed (closing_shut actives unused member believed) same.1
      obtain ⟨old,before,links⟩ := first
      obtain ⟨held,older,rfl,believed'⟩ := (actives old).mp before
      cases once held older row member believed' believed
      refine ⟨(version older believed).2.1,Or.inr ⟨rfl,new.stored,there,about,links,?_⟩⟩
      change some (micros validAt) = some (micros new.memory.validFrom)
      rw [since]

end

end

theorem memoryPlan_recorded {e : Engine} {d : Draw} {input : MemoryInput} {planned : Planned}
    (off : e.config.cognition.contradictionReview = false) (recorded : RowsRecorded e.memories)
    (once : ActiveOnce k e.memories) (about : InputAbout env k input) (fresh : d.id ∉ e.memories.keys)
    (ok : memoryPlan env e d input = .ok planned) :
    WritesRecorded k e.memories planned.rows planned.add.memory.id input.content := by
  have unused {new : MemoryRow} (id : new.id = d.id) : ∀ row ∈ e.memories.rows, new.id ≠ row.id :=
    fun row member equal => fresh ((Table.mem_keys _ _).mpr ⟨row,member,equal.symm.trans id⟩)
  cases memoryPlan_writer off about ok with
  | inserted new written answer id placed active content absent =>
    rw [written,answer,← content]
    exact inserted_recorded (unused id) placed active absent
  | confirmed old member believed new written answer same kept =>
    rw [written,answer]
    exact confirmed_recorded recorded once member believed same kept
  | superseded validAt recordedAt closed new written answer id placed active content actives first since =>
    rw [written,answer,← content]
    exact superseded_recorded actives recorded once (unused id) placed active first since

/-- The belief is not split in the table, and what the finished calls wrote stands in it. -/
def Holds (k : BeliefKey) (locals : Nat → AddCall × AddStage) (t : MemoryTable) : Prop :=
  ActiveOnce k t ∧ ∀ i add written, (locals i).2 = .done written (.ok add) →
    AddRecorded k t add.memory.id (locals i).1.input.content

variable (env k) in
/-- The call planned against a table that held, and nothing but its rows was written since. -/
def UnderWay (s : Writers) (i : Nat) : Prop :=
  match (s.locals i).2 with
  | .applying add _ written rows => ∃ (base : Engine) (d : Draw),
    base.config.cognition.contradictionReview = false ∧ RowsRecorded base.memories ∧
      Holds k s.locals base.memories ∧ d.id ∉ base.memories.keys ∧
      memoryPlan env base d (s.locals i).1.input = .ok (add,written ++ rows) ∧
      s.shared.memories = base.memories.upsertRows written
  | .capping add _ => Holds k s.locals s.shared.memories ∧
    AddRecorded k s.shared.memories add.memory.id (s.locals i).1.input.content
  | _ => False

theorem UnderWay.inFlight {s : Writers} {i : Nat} (way : UnderWay env k s i) : (s.locals i).2.InFlight := by
  unfold UnderWay at way
  cases stage : (s.locals i).2 with
  | waiting => simp [stage] at way
  | applying => trivial
  | capping => trivial
  | done => simp [stage] at way

variable (env k) in
structure OneAtATime (s : Writers) : Prop where
  off : s.shared.config.cognition.contradictionReview = false
  recorded : RowsRecorded s.shared.memories
  about : ∀ i, InputAbout env k (s.locals i).1.input
  either : (∀ i, ¬(s.locals i).2.InFlight) ∧ Holds k s.locals s.shared.memories ∨
    ∃ i, (∀ j, (s.locals j).2.InFlight → j = i) ∧ UnderWay env k s i

theorem OneAtATime.unsplit {s : Writers} (orderly : OneAtATime env k s) : Unsplit k s := by
  intro idle
  rcases orderly.either with ⟨_,holds⟩ | ⟨i,_,way⟩
  · exact holds
  · exact absurd way.inFlight (idle i)

theorem Holds.update {locals : Nat → AddCall × AddStage} {t : MemoryTable} (holds : Holds k locals t) {i : Nat}
    {stage : AddStage} (kept : ∀ add written, stage = .done written (.ok add) →
      AddRecorded k t add.memory.id (locals i).1.input.content) :
    Holds k (Function.update locals i ((locals i).1,stage)) t := by
  refine ⟨holds.1,?_⟩
  intro j add written finished
  by_cases here : j = i
  · subst here
    rw [Function.update_self] at finished ⊢
    exact kept add written finished
  · rw [Function.update_of_ne here] at finished ⊢
    exact holds.2 j add written finished

theorem AddRecorded.delete {t : MemoryTable} {p : MemoryRow → Bool}
    (spared : ∀ row ∈ t.rows, About k row.memory → p row = false) {id : Uuid} {content : String}
    (before : AddRecorded k t id content) : AddRecorded k (t.delete p) id content := by
  have stays {row : MemoryRow} (member : row ∈ t.rows) (about : About k row.memory) : row ∈ (t.delete p).rows :=
    (Table.mem_delete t p row).mpr ⟨member,spared row member about⟩
  obtain ⟨row,member,same,text,about,either⟩ := before
  refine ⟨row,stays member about,same,text,about,either.imp_right ?_⟩
  rintro ⟨ended,next,there,nextAbout,links⟩
  exact ⟨ended,next,stays there nextAbout,nextAbout,links⟩

theorem Holds.delete {locals : Nat → AddCall × AddStage} {t : MemoryTable} {p : MemoryRow → Bool} (holds : Holds k locals t)
    (spared : ∀ row ∈ t.rows, About k row.memory → p row = false) : Holds k locals (t.delete p) := by
  refine ⟨?_,fun i add written finished => (holds.2 i add written finished).delete spared⟩
  intro a memberA b memberB
  exact holds.1 a ((Table.mem_delete t p a).mp memberA).1 b ((Table.mem_delete t p b).mp memberB).1

theorem OneAtATime.moved {s : Writers} (orderly : OneAtATime env k s) {i : Nat} {e : Engine} {stage : AddStage}
    (off : e.config.cognition.contradictionReview = false) (recorded : RowsRecorded e.memories)
    (others : ∀ j, j ≠ i → ¬(s.locals j).2.InFlight)
    (either : ¬stage.InFlight ∧ Holds k (Function.update s.locals i ((s.locals i).1,stage)) e.memories ∨
      UnderWay env k ⟨e,Function.update s.locals i ((s.locals i).1,stage)⟩ i) :
    OneAtATime env k ⟨e,Function.update s.locals i ((s.locals i).1,stage)⟩ := by
  have elsewhere {j : Nat} (flying : (Function.update s.locals i ((s.locals i).1,stage) j).2.InFlight) (other : j ≠ i) :
      False := by
    rw [Function.update_of_ne other] at flying
    exact others j other flying
  refine ⟨off,recorded,?_,?_⟩
  · intro j
    change InputAbout env k (Function.update s.locals i ((s.locals i).1,stage) j).1.input
    by_cases here : j = i
    · subst here
      rw [Function.update_self]
      exact orderly.about j
    · rw [Function.update_of_ne here]
      exact orderly.about j
  · rcases either with ⟨landed,holds⟩ | way
    · refine Or.inl ⟨?_,holds⟩
      intro j flying
      change (Function.update s.locals i ((s.locals i).1,stage) j).2.InFlight at flying
      by_cases here : j = i
      · subst here
        rw [Function.update_self] at flying
        exact landed flying
      · exact elsewhere flying here
    · refine Or.inr ⟨i,?_,way⟩
      intro j flying
      by_contra other
      exact elsewhere flying other

theorem Writers.next_of_advance {s : Writers} {i : Nat} {d : Draw} {e : Engine} {stage : AddStage}
    (moved : (s.locals i).1.advance env s.shared d false (s.locals i).2 = (e,stage)) :
    Writers.next env s (i,d) = ⟨e,Function.update s.locals i ((s.locals i).1,stage)⟩ := by
  simp only [Writers.next,Processes.step,Writers.move,moved]

theorem OneAtATime.flight {s : Writers} (orderly : OneAtATime env k s) {i : Nat} (flying : (s.locals i).2.InFlight) :
    (∀ j, j ≠ i → ¬(s.locals j).2.InFlight) ∧ UnderWay env k s i := by
  rcases orderly.either with ⟨idle,_⟩ | ⟨other,only,way⟩
  · exact absurd flying (idle i)
  · cases only i flying
    exact ⟨fun j apart flies => apart (only j flies),way⟩

theorem OneAtATime.plans {s : Writers} (orderly : OneAtATime env k s) {i : Nat} {d : Draw}
    (stage : (s.locals i).2 = .waiting) (idle : ∀ j, ¬(s.locals j).2.InFlight) (unused : d.id ∉ s.shared.memories.keys) :
    OneAtATime env k (Writers.next env s (i,d)) := by
  have holds : Holds k s.locals s.shared.memories := orderly.unsplit idle
  cases ok : memoryPlan env s.shared d (s.locals i).1.input with
  | error err =>
    have refused : (s.locals i).1.advance env s.shared d false (s.locals i).2 = (s.shared,.done [] (.error err)) := by
      simp [stage,AddCall.advance,ok]
    rw [Writers.next_of_advance refused]
    refine orderly.moved orderly.off orderly.recorded (fun j _ => idle j) (Or.inl ⟨id,holds.update ?_⟩)
    intro add written finished
    cases finished
  | ok planned =>
    have applying : (s.locals i).1.advance env s.shared d false (s.locals i).2 =
        (s.shared,.applying planned.add d.stamp [] planned.rows) := by
      rw [stage,AddCall.advance,ok]
      rfl
    rw [Writers.next_of_advance applying]
    refine orderly.moved orderly.off orderly.recorded (fun j _ => idle j) (Or.inr ?_)
    have kept : Holds k (Function.update s.locals i ((s.locals i).1,.applying planned.add d.stamp [] planned.rows))
        s.shared.memories := holds.update (fun _ _ finished => by cases finished)
    simp only [UnderWay,Function.update_self]
    exact ⟨s.shared,d,orderly.off,orderly.recorded,kept,unused,ok,rfl⟩

theorem OneAtATime.writes {s : Writers} (orderly : OneAtATime env k s) {i : Nat} (d : Draw) {add : MemoryAdd}
    {stamp : Uuid → Int} {written rest : List MemoryRow} {row : MemoryRow}
    (stage : (s.locals i).2 = .applying add stamp written (row :: rest)) : OneAtATime env k (Writers.next env s (i,d)) := by
  obtain ⟨others,way⟩ := orderly.flight (i := i) (by rw [stage]; trivial)
  simp only [UnderWay,stage] at way
  obtain ⟨base,drawn,off,recorded,holds,unused,planned,memories⟩ := way
  have grown : (applyRow env stamp s.shared row).memories = s.shared.memories.upsertRows [row] :=
    memoryApplyRows_memories env stamp s.shared [row]
  have applied : (s.locals i).1.advance env s.shared d false (s.locals i).2 =
      (applyRow env stamp s.shared row,.applying add stamp (written ++ [row]) rest) := by
    simp [stage,AddCall.advance]
  rw [Writers.next_of_advance applied]
  refine orderly.moved ?_ ?_ others (Or.inr ?_)
  · rw [applyRow_config]
    exact orderly.off
  · rw [grown]
    exact orderly.recorded.upsertRows [row]
  · simp only [UnderWay,Function.update_self]
    refine ⟨base,drawn,off,recorded,holds.update (fun _ _ finished => by cases finished),unused,?_,?_⟩
    · rw [List.append_assoc]
      exact planned
    · rw [grown,memories,MemoryTable.upsertRows_append]

theorem OneAtATime.finishes {s : Writers} (orderly : OneAtATime env k s) {i : Nat} (d : Draw) {add : MemoryAdd}
    {stamp : Uuid → Int} {written : List MemoryRow} (stage : (s.locals i).2 = .applying add stamp written []) :
    OneAtATime env k (Writers.next env s (i,d)) := by
  obtain ⟨others,way⟩ := orderly.flight (i := i) (by rw [stage]; trivial)
  simp only [UnderWay,stage] at way
  obtain ⟨base,drawn,off,recorded,holds,unused,planned,memories⟩ := way
  rw [List.append_nil] at planned
  obtain ⟨once,own,kept⟩ := memoryPlan_recorded off recorded holds.1 (orderly.about i) unused planned
  change ActiveOnce k (base.memories.upsertRows written) at once
  change AddRecorded k (base.memories.upsertRows written) add.memory.id _ at own
  change ∀ id content, _ → AddRecorded k (base.memories.upsertRows written) id content at kept
  rw [← memories] at once own kept
  have after : Holds k s.locals s.shared.memories :=
    ⟨once,fun j answer before finished => kept _ _ (holds.2 j answer before finished)⟩
  cases clustered : (s.locals i).1.clustered with
  | true =>
    have ended : (s.locals i).1.advance env s.shared d false (s.locals i).2 = (s.shared,.done written (.ok add)) := by
      simp [stage,AddCall.advance,clustered]
    rw [Writers.next_of_advance ended]
    refine orderly.moved orderly.off orderly.recorded others (Or.inl ⟨id,after.update ?_⟩)
    intro answer before finished
    cases finished
    exact own
  | false =>
    have capping : (s.locals i).1.advance env s.shared d false (s.locals i).2 = (s.shared,.capping add written) := by
      simp [stage,AddCall.advance,clustered]
    rw [Writers.next_of_advance capping]
    refine orderly.moved orderly.off orderly.recorded others (Or.inr ?_)
    simp only [UnderWay,Function.update_self]
    exact ⟨after.update (fun _ _ finished => by cases finished),own⟩

theorem OneAtATime.caps {s : Writers} (orderly : OneAtATime env k s) {i : Nat} (d : Draw) {add : MemoryAdd}
    {written : List MemoryRow} (stage : (s.locals i).2 = .capping add written)
    (spared : ∀ row ∈ s.shared.memories.rows, About k row.memory →
      row.id ∉ s.shared.memories.overCap add.memory.scope s.shared.config.cognition.maxMemoriesPerScope) :
    OneAtATime env k (Writers.next env s (i,d)) := by
  obtain ⟨others,way⟩ := orderly.flight (i := i) (by rw [stage]; trivial)
  simp only [UnderWay,stage] at way
  obtain ⟨holds,own⟩ := way
  have evicted : (evictOverCap s.shared add.memory.scope).memories = s.shared.memories.delete
      (fun row => row.id ∈ s.shared.memories.overCap add.memory.scope s.shared.config.cognition.maxMemoriesPerScope) :=
    evictOverCap_memories s.shared add.memory.scope
  have ended : (s.locals i).1.advance env s.shared d false (s.locals i).2 =
      (evictOverCap s.shared add.memory.scope,.done written (.ok add)) := by
    simp [stage,AddCall.advance]
  rw [Writers.next_of_advance ended]
  refine orderly.moved ?_ ?_ others (Or.inl ⟨id,?_⟩)
  · rw [evictOverCap_config]
    exact orderly.off
  · rw [evicted]
    intro row member
    exact orderly.recorded row ((Table.mem_delete _ _ row).mp member).1
  · rw [evicted]
    refine (holds.delete (by simpa using spared)).update ?_
    intro answer before finished
    cases finished
    exact own.delete (by simpa using spared)

theorem OneAtATime.step {s : Writers} (orderly : OneAtATime env k s) {input : Nat × Draw} (serial : Serial k s input)
    (fresh : PlansFresh s input) : OneAtATime env k (Writers.next env s input) := by
  obtain ⟨i,d⟩ := input
  cases stage : (s.locals i).2 with
  | waiting =>
    exact orderly.plans stage (by simpa [Serial,stage] using serial) (by simpa [PlansFresh,stage] using fresh)
  | applying add stamp written rows =>
    cases rows with
    | nil => exact orderly.finishes d stage
    | cons row rest => exact orderly.writes d stage
  | capping add written => exact orderly.caps d stage (by simpa [Serial,stage] using serial)
  | done written answer =>
    have idle : (s.locals i).1.advance env s.shared d false (s.locals i).2 = (s.shared,.done written answer) := by
      rw [stage]
      rfl
    have same : Writers.next env s (i,d) = s := by
      rw [Writers.next_of_advance idle,← stage]
      simp
    rw [same]
    exact orderly

/-- In every run of calls on one key in which they plan one after the other and the cap spares their versions, no
state without a call under way has the belief split or a content lost. -/
theorem belief_unsplit_throughout (s : Writers) (inputs : List (Nat × Draw))
    (off : s.shared.config.cognition.contradictionReview = false) (recorded : RowsRecorded s.shared.memories)
    (once : ActiveOnce k s.shared.memories) (about : ∀ i, InputAbout env k (s.locals i).1.input)
    (start : ∀ i, (s.locals i).2 = .waiting) (fresh : Along (Writers.next env) PlansFresh s inputs)
    (serial : Along (Writers.next env) (Serial k) s inputs) : Throughout (Writers.next env) (Unsplit k) s inputs := by
  have orderly : OneAtATime env k s := by
    refine ⟨off,recorded,about,Or.inl ⟨?_,once,?_⟩⟩
    · intro i flying
      rw [start i] at flying
      exact flying
    · intro i add written finished
      cases (start i).symm.trans finished
  have reached := (serial.and fresh).throughout orderly (fun s input orderly given => orderly.step given.1 given.2)
  exact fun n => (reached n).unsplit

theorem Writers.run_other (s : Writers) (inputs : List (Nat × Draw)) {j : Nat} (absent : j ∉ inputs.map Prod.fst) :
    (run (Writers.next env) s inputs).locals j = s.locals j := by
  induction inputs generalizing s with
  | nil => rfl
  | cons input inputs ih =>
    obtain ⟨first,later⟩ := not_or.mp (List.mem_cons.not.mp absent)
    exact (ih (Writers.next env s input) later).trans (Processes.step_other _ s first)

theorem ActiveOnce.listing {t : MemoryTable} (once : ActiveOnce k t) {a b : Uuid}
    (first : (a,some k) ∈ t.rows.map (fun row => (row.id,beliefOf row.memory)))
    (second : (b,some k) ∈ t.rows.map (fun row => (row.id,beliefOf row.memory))) : a = b := by
  obtain ⟨r,insideR,equalR⟩ := List.mem_map.mp first
  obtain ⟨s,insideS,equalS⟩ := List.mem_map.mp second
  obtain ⟨sameR,believedR⟩ := Prod.mk.inj equalR
  obtain ⟨sameS,believedS⟩ := Prod.mk.inj equalS
  rw [← sameR,← sameS,once r insideR s insideS believedR believedS]

end

/-- Serial as far as the first `n` calls go. -/
def SerialBelow (n : Nat) (k : BeliefKey) (s : Writers) (input : Nat × Draw) : Prop :=
  match (s.locals input.1).2 with
  | .waiting => ∀ i < n, ¬(s.locals i).2.InFlight
  | .capping add _ => ∀ row ∈ s.shared.memories.rows, About k row.memory →
    row.id ∉ s.shared.memories.overCap add.memory.scope s.shared.config.cognition.maxMemoriesPerScope
  | _ => True

instance (k : BeliefKey) (m : Memory) : Decidable (About k m) :=
  inferInstanceAs (Decidable (_ ∧ _ ∧ _))

instance (n : Nat) (k : BeliefKey) (s : Writers) (input : Nat × Draw) : Decidable (SerialBelow n k s input) :=
  match stage : (s.locals input.1).2 with
  | .waiting => decidable_of_iff (∀ i < n, ¬(s.locals i).2.InFlight) (by simp [SerialBelow,stage])
  | .capping add _ => decidable_of_iff (∀ row ∈ s.shared.memories.rows, About k row.memory →
      row.id ∉ s.shared.memories.overCap add.memory.scope s.shared.config.cognition.maxMemoriesPerScope)
        (by simp [SerialBelow,stage])
  | .applying _ _ _ _ => isTrue (by simp [SerialBelow,stage])
  | .done _ _ => isTrue (by simp [SerialBelow,stage])

theorem serial_of_below {env : Env} {k : BeliefKey} {n : Nat} {s : Writers} {inputs : List (Nat × Draw)}
    (bound : ∀ input ∈ inputs, input.1 < n) (rest : ∀ i, n ≤ i → (s.locals i).2 = .waiting)
    (along : Along (Writers.next env) (SerialBelow n k) s inputs) : Along (Writers.next env) (Serial k) s inputs := by
  induction inputs generalizing s with
  | nil => trivial
  | cons input inputs ih =>
    refine ⟨?_,ih (fun other inside => bound other (List.mem_cons_of_mem _ inside)) ?_ along.2⟩
    · have first := along.1
      unfold SerialBelow at first
      unfold Serial
      split at first
      next =>
        intro i
        by_cases low : i < n
        · exact first i low
        · rw [rest i (Nat.le_of_not_lt low)]
          exact id
      next => exact first
      next => trivial
    · intro i high
      have apart : i ≠ input.1 := fun equal => by
        have low := bound input List.mem_cons_self
        omega
      rw [Writers.next,Processes.step_other _ s apart]
      exact rest i high

private def seatKey : BeliefKey := ⟨.tenant "acme",none,"seat"⟩

private def seatCall (content : String) : AddCall × AddStage :=
  (⟨{ MemoryInput.new (.tenant "acme") content with subject := some "Seat" },false⟩,.waiting)

/-- Two callers who say different things of one subject, on an empty store. -/
def seatWriters : Writers := ⟨.empty .default 2,fun i => if i = 0 then seatCall "window" else seatCall "aisle"⟩

private theorem seatWriters_about (i : Nat) : InputAbout .ascii seatKey (seatWriters.locals i).1.input := by
  have keyed : canonicalSubject .ascii (some "Seat") = some "seat" := by decide +kernel
  unfold seatWriters
  dsimp only
  split
  next => exact ⟨rfl,rfl,keyed⟩
  next => exact ⟨rfl,rfl,keyed⟩

private theorem seatWriters_waiting (i : Nat) : (seatWriters.locals i).2 = .waiting := by
  unfold seatWriters
  dsimp only
  split
  next => rfl
  next => rfl

private theorem seatWriters_idle {inputs : List (Nat × Draw)}
    (settled : ∀ i ∈ inputs.map Prod.fst, ¬((run (Writers.next .ascii) seatWriters inputs).locals i).2.InFlight) (i : Nat) :
    ¬((run (Writers.next .ascii) seatWriters inputs).locals i).2.InFlight := by
  by_cases called : i ∈ inputs.map Prod.fst
  · exact settled i called
  · rw [Writers.run_other seatWriters inputs called,seatWriters_waiting i]
    exact id

def seatTurns : List (Nat × Draw) :=
  [(0,.plain 1000 1),(0,.plain 1000 9),(0,.plain 1000 9),(0,.plain 1000 9),
    (1,.plain 2000 2),(1,.plain 2000 9),(1,.plain 2000 9),(1,.plain 2000 9),(1,.plain 2000 9)]

theorem belief_unsplit_seat : Throughout (Writers.next .ascii) (Unsplit seatKey) seatWriters seatTurns := by
  refine belief_unsplit_throughout seatWriters seatTurns rfl ?_ ?_ seatWriters_about seatWriters_waiting ?_ ?_
  · simp [RowsRecorded,seatWriters,Engine.empty,Table.empty]
  · simp [ActiveOnce,seatWriters,Engine.empty,Table.empty]
  · decide +kernel
  · exact serial_of_below (by decide : ∀ input ∈ seatTurns, input.1 < 2) (fun i _ => seatWriters_waiting i) (by decide +kernel)

def seatCrossed : List (Nat × Draw) :=
  [(0,.plain 1000 1),(1,.plain 2000 2),(0,.plain 1000 9),(1,.plain 2000 9),(0,.plain 1000 9),(1,.plain 2000 9),
    (0,.plain 1000 9),(1,.plain 2000 9)]

private theorem seatCrossed_rows : (run (Writers.next .ascii) seatWriters seatCrossed).shared.memories.rows.map
    (fun row => (row.id,beliefOf row.memory)) = [(1,some seatKey),(2,some seatKey)] := by
  decide +kernel

theorem crossed_writers_split : ¬Throughout (Writers.next .ascii) (Unsplit seatKey) seatWriters seatCrossed := by
  intro unsplit
  have last : Unsplit seatKey (run (Writers.next .ascii) seatWriters seatCrossed) := unsplit 8
  obtain ⟨once,_⟩ := last (seatWriters_idle (by decide +kernel))
  have same : (1 : Uuid) = 2 := once.listing (by rw [seatCrossed_rows]; simp) (by rw [seatCrossed_rows]; simp)
  exact absurd same (by decide)

end Ecphoria
