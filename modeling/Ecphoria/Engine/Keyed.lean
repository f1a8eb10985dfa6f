import Ecphoria.Engine.Sections

/-! One addition about a subject, with review off and room in the scope: it confirms the newest
memory of the subject, or it leaves a new one as the only active memory of the subject. -/
namespace Ecphoria
open Library

section
variable (env : Env) (home : MemoryScope) (subject : String) (project : Option String)

/-- Another memory about the subject fits under the cap of the scope. -/
def Room (e : Engine) : Prop :=
  e.config.cognition.maxMemoriesPerScope = 0 ∨
    e.memories.countActive home + (if e.memories.findActiveBySubject home subject project = [] then 1 else 0) ≤
      e.config.cognition.maxMemoriesPerScope

/-- What an addition of `content` leaves about its subject, by the identifier that it answers. -/
inductive KeyedWrite (content : String) (drawn : Uuid) (t u : MemoryTable) : Uuid → Prop
  | confirmed (m m' : Memory) (found : newest t home subject project = some m) (same : trim m.content = trim content)
      (leaves : newest u home subject project = some m') (retouched : Retouched m m')
      (rows : ∀ row ∈ u.rows, ∃ old ∈ t.rows, Retouched old.memory row.memory) :
      KeyedWrite content drawn t u m.id
  | landed (row : MemoryRow) (differs : ∀ m, newest t home subject project = some m → trim m.content ≠ trim content)
      (leaves : newest u home subject project = some row.memory) (id : row.id = drawn)
      (text : row.memory.content = content)
      (rows : ∀ other ∈ u.rows, other.memory.state = .active → other = row ∨
        other ∈ t.rows ∧ other.id ≠ drawn ∧
          MemoryTable.beliefFilter home subject project other.memory = false) :
      KeyedWrite content drawn t u drawn

variable {env home subject project}

theorem newest_eq_none {t : MemoryTable} :
    newest t home subject project = none ↔ t.findActiveBySubject home subject project = [] := List.head?_eq_none_iff

private def activeIn (t : MemoryTable) (home : MemoryScope) : List Uuid :=
  (t.memories.filter (fun m => home.matchesRow m.scope && m.state = .active)).map Memory.id

private theorem activeIn_nodup (t : MemoryTable) (home : MemoryScope) : (activeIn t home).Nodup :=
  (List.filter_sublist.map Memory.id).nodup t.memories_nodup

private theorem mem_activeIn {t : MemoryTable} {id : Uuid} : id ∈ activeIn t home ↔
    ∃ row ∈ t.rows, row.id = id ∧ row.memory.scope = home.withDefaultTenant ∧ row.memory.state = .active := by
  simp only [activeIn,List.mem_map,List.mem_filter,MemoryTable.memories,Bool.and_eq_true,decide_eq_true_eq,
    MemoryScope.matchesRow_iff]
  constructor
  · intro given
    obtain ⟨m,⟨⟨row,member,rfl⟩,inHome,active⟩,rfl⟩ := given
    exact ⟨row,member,rfl,inHome,active⟩
  · intro given
    obtain ⟨row,member,rfl,inHome,active⟩ := given
    exact ⟨row.memory,⟨⟨row,member,rfl⟩,inHome,active⟩,rfl⟩

private theorem countActive_eq (t : MemoryTable) : t.countActive home = (activeIn t home).length :=
  (List.length_map _).symm

/-- A write leaves no more active memories in the scope than there were, and one more when there was none about the
subject. -/
theorem KeyedWrite.countActive_le {t u : MemoryTable} {content : String} {drawn id : Uuid}
    (written : KeyedWrite home subject project content drawn t u id) :
    u.countActive home ≤
      t.countActive home + if t.findActiveBySubject home subject project = [] then 1 else 0 := by
  rw [countActive_eq,countActive_eq]
  cases written with
  | confirmed m m' found same leaves retouched rows =>
    refine Nat.le_add_right_of_le (List.subperm_of_subset (activeIn_nodup u home) ?_).length_le
    intro id inside
    obtain ⟨row,member,rfl,inHome,active⟩ := mem_activeIn.mp inside
    obtain ⟨old,before,touched⟩ := rows row member
    rw [touched] at inHome active
    exact mem_activeIn.mpr ⟨old,before,touched.kept.1.symm,inHome,active⟩
  | landed row differs leaves id text rows =>
    have listed : ∀ id ∈ activeIn u home, id = drawn ∨ id ∈ activeIn t home ∧
        ∃ other ∈ t.rows, other.id = id ∧ MemoryTable.beliefFilter home subject project other.memory = false := by
      intro id inside
      obtain ⟨other,member,rfl,inHome,active⟩ := mem_activeIn.mp inside
      rcases rows other member active with rfl | ⟨old,_,unselected⟩
      · exact Or.inl ‹_›
      · exact Or.inr ⟨mem_activeIn.mpr ⟨other,old,rfl,inHome,active⟩,other,old,rfl,unselected⟩
    cases found : t.findActiveBySubject home subject project with
    | nil =>
      rw [if_pos rfl,← List.length_cons (a := drawn)]
      refine (List.subperm_of_subset (activeIn_nodup u home) ?_).length_le
      intro id inside
      rcases listed id inside with rfl | ⟨before,_⟩
      · exact List.mem_cons_self
      · exact List.mem_cons_of_mem drawn before
    | cons m others =>
      -- the new memory takes the place of the newest one, which is closed
      have first : m ∈ t.findActiveBySubject home subject project := found ▸ List.mem_cons_self
      obtain ⟨held,there,rfl,inHome,about,grouped,active⟩ := MemoryTable.mem_findActiveBySubject.mp first
      have before : held.id ∈ activeIn t home := mem_activeIn.mpr ⟨held,there,rfl,inHome,active⟩
      have size : (drawn :: (activeIn t home).erase held.id).length = (activeIn t home).length := by
        rw [List.length_cons,List.length_erase_of_mem before]
        exact Nat.sub_add_cancel (List.length_pos_of_mem before)
      rw [if_neg (by simp),Nat.add_zero,← size]
      refine (List.subperm_of_subset (activeIn_nodup u home) ?_).length_le
      intro id inside
      rcases listed id inside with rfl | ⟨old,other,member,rfl,unselected⟩
      · exact List.mem_cons_self
      · refine List.mem_cons_of_mem drawn ((List.mem_erase_of_ne ?_).mpr old)
        intro equal
        cases t.eq_of_key member there equal
        rw [MemoryTable.beliefFilter_eq_true.mpr ⟨inHome,about,grouped,active⟩] at unselected
        cases unselected

section
variable {e : Engine} {d : Draw} {input : MemoryInput}

private theorem landed_rows {t : MemoryTable} {closed : List MemoryRow} {row : MemoryRow} (fresh : row.id ∉ t.keys)
    (known : ∀ other ∈ closed, other.id ∈ t.keys ∧ other.memory.state ≠ .active)
    (covered : ∀ m ∈ t.findActiveBySubject home subject project, ∃ other ∈ closed, other.id = m.id)
    {other : MemoryRow} (member : other ∈ (t.upsertRows (closed ++ [row])).rows) (active : other.memory.state = .active) :
    other = row.stored ∨ other ∈ t.rows ∧ other.id ≠ row.id ∧
      MemoryTable.beliefFilter home subject project other.memory = false := by
  rcases MemoryTable.mem_upsertRows member with ⟨written,inside,rfl⟩ | ⟨old,apart⟩
  · rcases List.mem_append.mp inside with inside | inside
    · exact absurd active (known written inside).2
    · exact Or.inl (congrArg MemoryRow.stored (List.mem_singleton.mp inside))
  · refine Or.inr ⟨old,fresh_apart fresh old,?_⟩
    rw [Bool.eq_false_iff]
    intro selected
    obtain ⟨inHome,about,grouped,_⟩ := MemoryTable.beliefFilter_eq_true.mp selected
    obtain ⟨closing,inside,same⟩ := covered other.memory
      (MemoryTable.mem_findActiveBySubject.mpr ⟨other,old,rfl,inHome,about,grouped,active⟩)
    exact apart closing (List.mem_append_left _ inside) same

theorem planSubject_written (off : e.config.cognition.contradictionReview = false) (recorded : RowsRecorded e.memories)
    (fresh : d.id ∉ e.memories.keys) (settled : input.scope.withDefaultTenant = input.scope)
    (about : input.subject = some subject) (vector : Option (List Rat)) :
    KeyedWrite input.scope subject input.project input.content d.id e.memories
      (e.memories.upsertRows (planSubject e d input vector subject).rows)
      (planSubject e d input vector subject).add.memory.id := by
  unfold planSubject
  cases found : e.memories.findActiveBySubject input.scope subject input.project with
  | nil =>
    have none : newest e.memories input.scope subject input.project = none := newest_eq_none.mpr found
    have selected : MemoryTable.beliefFilter input.scope subject input.project
        (planInserted d input (importanceOf e input) vector).add.memory = true :=
      MemoryTable.beliefFilter_eq_true.mpr ⟨settled.symm,about,rfl,rfl⟩
    refine .landed (MemoryRow.stored ⟨(planInserted d input (importanceOf e input) vector).add.memory,vector⟩) ?_ ?_
      rfl rfl ?_
    · intro m given
      cases none.symm.trans given
    · refine (@newest_appended _ _ _ _ ⟨_,vector⟩ fresh selected).trans ?_
      rw [none]
    · intro other member active
      exact @landed_rows _ _ _ _ [] _ fresh (by simp) (by simp [found]) _ member active
  | cons m others =>
    have first : newest e.memories input.scope subject input.project = some m := by
      rw [newest,found]
      rfl
    dsimp only
    split
    next same =>
      have memories := confirmed_memories recorded first d (importanceOf e input) vector
      have related := newest_retouched memories input.scope subject input.project
      rw [first] at related
      cases leaves : newest (e.memories.upsertRows (planConfirmed e d (importanceOf e input) vector m).rows)
          input.scope subject input.project with
      | none =>
        rw [leaves] at related
        cases related
      | some m' =>
        rw [leaves] at related
        cases related with
        | some retouched =>
          refine .confirmed m m' first same leaves retouched ?_
          intro row member
          obtain ⟨old,before,touched⟩ := exists_of_forall₂ memories.flip (List.mem_map_of_mem member)
          obtain ⟨there,inside,rfl⟩ := List.mem_map.mp before
          exact ⟨there,inside,touched⟩
    next differs =>
      rw [if_neg (by simp [off])]
      have selected : MemoryTable.beliefFilter input.scope subject input.project
          (planSuperseded d input (importanceOf e input) vector subject m others).add.memory = true :=
        MemoryTable.beliefFilter_eq_true.mpr ⟨settled.symm,rfl,rfl,rfl⟩
      refine .landed (MemoryRow.stored
        ⟨(planSuperseded d input (importanceOf e input) vector subject m others).add.memory,vector⟩) ?_ ?_ rfl rfl ?_
      · intro other given
        cases first.symm.trans given
        exact differs
      · exact @newest_superseding _ _ _ _ _ ⟨_,vector⟩ _ d.recordedAt found selected
      · intro other member active
        refine @landed_rows _ _ _ _ _ ⟨_,vector⟩ fresh ?_ ?_ _ member active
        · intro closed inside
          obtain ⟨old,listed,rfl⟩ := List.mem_map.mp inside
          obtain ⟨row,there,rfl,_⟩ := MemoryTable.mem_findActiveBySubject.mp (found ▸ listed)
          exact ⟨(Table.mem_keys _ _).mpr ⟨row,there,rfl⟩,by simp [closeRow]⟩
        · intro old listed
          rw [found] at listed
          exact ⟨_,List.mem_map_of_mem listed,rfl⟩

theorem planSubject_apart (off : e.config.cognition.contradictionReview = false) (fresh : d.id ∉ e.memories.keys)
    (about : input.subject = some subject) (vector : Option (List Rat)) {other : String} {grouped : Option String}
    (differs : other = subject → grouped ≠ input.project) :
    newest (e.memories.upsertRows (planSubject e d input vector subject).rows) input.scope other grouped =
      newest e.memories input.scope other grouped := by
  have unselected {m : Memory} (own : m.subject = some subject) (inside : m.project = input.project) :
      MemoryTable.beliefFilter input.scope other grouped m = false := by
    rw [Bool.eq_false_iff]
    intro selected
    obtain ⟨_,about',grouped',_⟩ := MemoryTable.beliefFilter_eq_true.mp selected
    exact differs (Option.some.inj (about'.symm.trans own)) (grouped'.symm.trans inside)
  have listed {m : Memory} (found : m ∈ e.memories.findActiveBySubject input.scope subject input.project)
      {old : MemoryRow} (member : old ∈ e.memories.rows) (same : old.id = m.id) :
      MemoryTable.beliefFilter input.scope other grouped old.memory = false := by
    obtain ⟨row,there,rfl,_,own,inside,_⟩ := MemoryTable.mem_findActiveBySubject.mp found
    cases e.memories.eq_of_key member there same
    exact unselected own inside
  unfold planSubject
  cases found : e.memories.findActiveBySubject input.scope subject input.project with
  | nil =>
    refine newest_apart ?_ ?_
    · intro row inside
      rw [List.mem_singleton.mp inside]
      exact unselected about rfl
    · intro row inside old member same
      rw [List.mem_singleton.mp inside] at same
      exact absurd same (fresh_apart fresh member)
  | cons m others =>
    have first : m ∈ e.memories.findActiveBySubject input.scope subject input.project := found ▸ List.mem_cons_self
    obtain ⟨_,_,_,_,own,inside,_⟩ := MemoryTable.mem_findActiveBySubject.mp first
    dsimp only
    split
    next same =>
      refine newest_apart ?_ ?_
      · intro row written
        rw [List.mem_singleton.mp written]
        exact unselected own inside
      · intro row written old member same
        rw [List.mem_singleton.mp written] at same
        exact listed first member same
    next differs' =>
      rw [if_neg (by simp [off])]
      refine newest_apart ?_ ?_
      · intro row written
        rcases List.mem_append.mp written with closed | new
        · obtain ⟨old,_,rfl⟩ := List.mem_map.mp closed
          simp [MemoryTable.beliefFilter,closeRow]
        · rw [List.mem_singleton.mp new]
          exact unselected rfl rfl
      · intro row written old member same
        rcases List.mem_append.mp written with closed | new
        · obtain ⟨old',chosen,rfl⟩ := List.mem_map.mp closed
          rw [← found] at chosen
          exact listed chosen member same
        · rw [List.mem_singleton.mp new] at same
          exact absurd same (fresh_apart fresh member)

variable (env) in
/-- An addition about a subject that governance lets in, when its scope has room. -/
structure Adds (e : Engine) (d : Draw) (input : MemoryInput) (subject : String) : Prop where
  off : e.config.cognition.contradictionReview = false
  recorded : RowsRecorded e.memories
  fresh : d.id ∉ e.memories.keys
  accepted : Accepts env e.config input
  about : (canonicalInput env input).subject = some subject
  room : Room (canonicalInput env input).scope subject input.project e

theorem memoryAdd_written (adds : Adds env e d input subject) :
    ∃ result, (memoryAdd env e d input).1 = .ok result ∧
      RowsRecorded (memoryAdd env e d input).2.memories ∧
      KeyedWrite (canonicalInput env input).scope subject input.project input.content d.id e.memories
        (memoryAdd env e d input).2.memories result.memory.id ∧
      ∀ other grouped, (other = subject → grouped ≠ input.project) →
        newest (memoryAdd env e d input).2.memories (canonicalInput env input).scope other grouped =
          newest e.memories (canonicalInput env input).scope other grouped := by
  have settled : (canonicalInput env input).scope.withDefaultTenant = (canonicalInput env input).scope :=
    input.scope.withDefaultTenant_withDefaultTenant
  have written := planSubject_written adds.off adds.recorded adds.fresh settled adds.about (e.embedMemoryContent d)
  have apart {other : String} {grouped : Option String} (differs : other = subject → grouped ≠ input.project) :=
    planSubject_apart adds.off adds.fresh adds.about (e.embedMemoryContent d) differs
  have planned := memoryPlan_keyed (d := d) adds.accepted adds.about
  have recorded := adds.recorded.upsertRows
    (planSubject e d (canonicalInput env input) (e.embedMemoryContent d) subject).rows
  have inHome : (planSubject e d (canonicalInput env input) (e.embedMemoryContent d) subject).add.memory.scope =
      (canonicalInput env input).scope := by
    unfold planSubject
    cases found : e.memories.findActiveBySubject (canonicalInput env input).scope subject
        (canonicalInput env input).project with
    | nil => rfl
    | cons m others =>
      have first := List.mem_cons_self (a := m) (l := others)
      rw [← found] at first
      obtain ⟨_,_,_,lies,_⟩ := MemoryTable.mem_findActiveBySubject.mp first
      dsimp only
      split
      next => exact lies.trans settled
      next => split <;> rfl
  have within : e.config.cognition.maxMemoriesPerScope = 0 ∨
      (e.memories.upsertRows (planSubject e d (canonicalInput env input) (e.embedMemoryContent d) subject).rows).countActive
        (canonicalInput env input).scope ≤ e.config.cognition.maxMemoriesPerScope := by
    rcases adds.room with unlimited | fits
    · exact Or.inl unlimited
    · exact Or.inr (written.countActive_le.trans fits)
  have after : (memoryAdd env e d input).2.memories = e.memories.upsertRows
      (planSubject e d (canonicalInput env input) (e.embedMemoryContent d) subject).rows := by
    unfold memoryAdd
    rw [planned]
    dsimp only
    rw [evictOverCap_memories,memoryApplyRows_memories,memoryApplyRows_config]
    rw [← inHome] at within
    exact MemoryTable.enforceScopeCap_of_within within
  refine ⟨(planSubject e d (canonicalInput env input) (e.embedMemoryContent d) subject).add,?_,?_,?_,?_⟩
  · simp only [memoryAdd,planned]
    rfl
  · rwa [after]
  · rw [after]
    exact written
  · intro other grouped differs
    rw [after]
    exact apart differs

theorem memoryAdd_refused (refused : ¬Accepts env e.config input) :
    ∃ err, memoryAdd env e d input = (.error err,e) := by
  cases planned : memoryPlan env e d input with
  | ok plan => exact absurd (memoryPlanWithEmbedding_cases env planned).1 refused
  | error err => exact ⟨err,by simp only [memoryAdd,planned]⟩

end

end

end Ecphoria
