import Ecphoria.Engine.Links
import Ecphoria.Engine.Overlap
import Ecphoria.Engine.BeliefRuns

/-! Which projects a write reaches. The subject path looks for versions of its project; a
contradiction under review is written without one, a merge takes whatever the vector index
answers, and the cap counts the scope. -/
namespace Ecphoria
open Library

def Stays (t : MemoryTable) (row : MemoryRow) : Prop := ∃ same ∈ t.rows, same.id = row.id ∧ frozen same.memory = frozen row.memory

/-- What is changed or removed is of the project, and so is what is added. -/
structure StaysIn (project : Option String) (t u : MemoryTable) : Prop where
  changed : ∀ row ∈ t.rows, ¬Stays u row → row.memory.project = project
  added : ∀ row ∈ u.rows, row.id ∉ t.keys → row.memory.project = project

/-- Rows written one after the other: each keeps the project of the active row it replaces, and closes it when that is
another project. -/
structure Rewrites (project : Option String) (t : MemoryTable) (rows : List MemoryRow) : Prop where
  replaced : ∀ row ∈ rows, ∀ old ∈ t.rows, old.id = row.id → row.memory.project = old.memory.project ∧
    old.memory.state = .active ∧ (row.memory.project ≠ project → row.memory.state ≠ .active)
  alike : ∀ a ∈ rows, ∀ b ∈ rows, a.id = b.id → a.memory.project = b.memory.project

section
variable {project : Option String} {t : MemoryTable} {rows : List MemoryRow}

theorem Rewrites.sublist (writes : Rewrites project t rows) {part : List MemoryRow} (inside : part ⊆ rows) :
    Rewrites project t part :=
  ⟨fun row member => writes.replaced row (inside member),
    fun a memberA b memberB => writes.alike a (inside memberA) b (inside memberB)⟩

/-- Rows are written and active ones then removed. What happens is of the project exactly when all rows written are,
but for new ones that are removed at once, and all that is removed. -/
theorem Rewrites.staysIn_iff (writes : Rewrites project t rows) (gone : Uuid → Bool) :
    StaysIn project t ((t.upsertRows rows).delete (fun row => gone row.id)) ↔
      (∀ row ∈ rows, row.memory.project = project ∨ row.id ∉ t.keys ∧ gone row.id = true) ∧
        ∀ old ∈ t.rows, gone old.id = true → old.memory.project = project := by
  have kept {row : MemoryRow} : row ∈ ((t.upsertRows rows).delete (fun row => gone row.id)).rows ↔
      row ∈ (t.upsertRows rows).rows ∧ gone row.id = false := by
    rw [Table.mem_delete]
  constructor
  · intro stays
    constructor
    · intro row inside
      by_contra neither
      obtain ⟨foreign,left⟩ := not_or.mp neither
      obtain ⟨written,listed,same,there⟩ := MemoryTable.exists_upsertRows_written (t := t) inside
      have elsewhere : written.memory.project ≠ project := by
        rw [writes.alike written listed row inside same]
        exact foreign
      by_cases known : row.id ∈ t.keys
      · -- it stands closed where an active row of another project was
        obtain ⟨old,member,equal⟩ := (Table.mem_keys _ _).mp known
        obtain ⟨grouped,stood,closes⟩ := writes.replaced written listed old member (equal.trans same.symm)
        refine elsewhere (grouped.trans (stays.changed old member ?_))
        rintro ⟨other,stands,sameId,froze⟩
        cases Table.eq_of_key _ (kept.mp stands).1 there (sameId.trans (equal.trans same.symm))
        have state : written.stored.memory.state = old.memory.state := congrArg Prod.fst froze
        exact closes elsewhere (state.trans stood)
      · refine elsewhere (stays.added written.stored (kept.mpr ⟨there,?_⟩) ?_)
        · by_contra removed
          refine left ⟨known,?_⟩
          rw [← same]
          exact Bool.eq_true_of_not_eq_false removed
        · change written.id ∉ t.keys
          rwa [same]
    · intro old member removed
      refine stays.changed old member ?_
      rintro ⟨other,stands,same,_⟩
      have spared := (kept.mp stands).2
      rw [same,removed] at spared
      cases spared
  · rintro ⟨grouped,removed⟩
    constructor
    · intro old member changed
      by_cases away : gone old.id = true
      · exact removed old member away
      · by_contra foreign
        refine changed ⟨old,kept.mpr ⟨MemoryTable.mem_upsertRows_of_apart member ?_,Bool.eq_false_iff.mpr away⟩,rfl,rfl⟩
        intro row inside same
        have own := (writes.replaced row inside old member same.symm).1
        rcases grouped row inside with here | ⟨new,_⟩
        · exact foreign (own.symm.trans here)
        · exact new ((Table.mem_keys _ _).mpr ⟨old,member,same.symm⟩)
    · intro row stands new
      obtain ⟨there,spared⟩ := kept.mp stands
      rcases MemoryTable.mem_upsertRows there with ⟨written,inside,rfl⟩ | ⟨old,_⟩
      · refine (grouped written inside).resolve_right ?_
        rintro ⟨_,away⟩
        cases spared.symm.trans away
      · exact absurd ((Table.mem_keys _ _).mpr ⟨row,old,rfl⟩) new

end

section
variable (env : Env)

/-- The input is not written without its project beside a version it contradicts. -/
def Assigned (e : Engine) (input : MemoryInput) : Prop :=
  e.config.cognition.contradictionReview = true → input.project ≠ none →
    ∀ subject, (canonicalInput env input).subject = some subject →
      ∀ existing, (e.memories.findActiveBySubject (canonicalInput env input).scope subject input.project).head? = some existing →
        trim existing.content = trim input.content

/-- What the input would be merged into is of its project. -/
def MergesWithin (e : Engine) (d : Draw) (input : MemoryInput) : Prop :=
  (canonicalInput env input).subject = none → ∀ top,
    mergeTarget e d (canonicalInput env input).scope (e.embedMemoryContent d) = .ok (some top) →
      top.project = input.project

/-- The row replaces an active one of its project, and closes it when that is not the given one. -/
def ReplacesIn (project : Option String) (t : MemoryTable) (row : MemoryRow) : Prop :=
  ∃ old ∈ t.rows, old.id = row.id ∧ old.memory.state = .active ∧ row.memory.project = old.memory.project ∧
    (row.memory.project ≠ project → row.memory.state ≠ .active)

variable {env}

theorem memoryPlan_replaces {e : Engine} {d : Draw} {input : MemoryInput} {planned : Planned}
    (ok : memoryPlan env e d input = .ok planned) : ∃ olds last, planned.rows = olds ++ [last] ∧
      (∀ row ∈ olds, ReplacesIn input.project e.memories row) ∧
        (ReplacesIn input.project e.memories last ∨ last.id = d.id) := by
  have found {subject : String} {m : Memory}
      (listed : m ∈ e.memories.findActiveBySubject (canonicalInput env input).scope subject input.project) :
      ∃ row ∈ e.memories.rows, row.memory = m ∧ m.project = input.project ∧ m.state = .active := by
    obtain ⟨row,member,same,_,_,grouped,active⟩ := MemoryTable.mem_findActiveBySubject.mp listed
    exact ⟨row,member,same,grouped,active⟩
  cases (memoryPlanWithEmbedding_cases env ok).2 with
  | confirmed subject existing others keyed read same =>
    obtain ⟨row,member,rfl,grouped,active⟩ := found (read ▸ List.mem_cons_self)
    exact ⟨[],_,rfl,by simp,Or.inl ⟨row,member,rfl,active,rfl,fun foreign => absurd grouped foreign⟩⟩
  | conflict subject existing others keyed read review => exact ⟨[],_,rfl,by simp,Or.inr rfl⟩
  | superseded subject existing others keyed read differs =>
    refine ⟨_,_,rfl,?_,Or.inr rfl⟩
    intro row inside
    obtain ⟨m,listed,rfl⟩ := List.mem_map.mp inside
    obtain ⟨old,member,rfl,_,active⟩ := found (read ▸ listed)
    exact ⟨old,member,rfl,active,rfl,fun _ => by simp [closeRow]⟩
  | merged top unkeyed hit =>
    obtain ⟨active,row,member,rfl⟩ := mergeTarget_active hit
    refine ⟨[_],_,rfl,?_,Or.inr rfl⟩
    intro closed inside
    cases List.mem_singleton.mp inside
    exact ⟨row,member,rfl,active,rfl,fun _ => by simp [closeRow]⟩
  | inserted absent missed => exact ⟨[],_,rfl,by simp,Or.inr rfl⟩

/-- The rows of a plan are of the project of the input exactly when it is assigned and merges within. -/
theorem memoryPlan_within_iff {e : Engine} {d : Draw} {input : MemoryInput} {planned : Planned}
    (ok : memoryPlan env e d input = .ok planned) :
    (∀ row ∈ planned.rows, row.memory.project = input.project) ↔ Assigned env e input ∧ MergesWithin env e d input := by
  obtain ⟨accepted,plan⟩ := memoryPlanWithEmbedding_cases env ok
  cases about : (canonicalInput env input).subject with
  | none =>
    have assigned : Assigned env e input := by
      intro _ _ subject keyed
      cases about.symm.trans keyed
    rw [and_iff_right assigned]
    cases plan with
    | confirmed subject existing others keyed read same => cases about.symm.trans keyed
    | conflict subject existing others keyed read review => cases about.symm.trans keyed
    | superseded subject existing others keyed read differs => cases about.symm.trans keyed
    | merged top unkeyed hit =>
      constructor
      · intro within _ other again
        cases hit.symm.trans again
        exact within _ List.mem_cons_self
      · intro within row inside
        have same : top.project = input.project := within about top hit
        rcases List.mem_cons.mp inside with rfl | inside
        · exact same
        · cases List.mem_singleton.mp inside
          change (canonicalInput env input).project.or top.project = input.project
          rw [same]
          exact Option.or_self
    | inserted absent missed =>
      refine iff_of_true ?_ ?_
      · intro row inside
        cases List.mem_singleton.mp inside
        rfl
      · intro unkeyed top hit
        cases (missed about).symm.trans hit
  | some subject =>
    have within : MergesWithin env e d input := by
      intro unkeyed
      cases about.symm.trans unkeyed
    rw [and_iff_left within]
    rw [memoryPlan_keyed accepted about] at ok
    obtain ⟨rfl⟩ := ok
    have grouped : (canonicalInput env input).project = input.project := rfl
    have own {m : Memory} (listed : m ∈ e.memories.findActiveBySubject (canonicalInput env input).scope subject input.project) :
        m.project = input.project := by
      obtain ⟨row,member,rfl,_,_,grouped,_⟩ := MemoryTable.mem_findActiveBySubject.mp listed
      exact grouped
    have content : (canonicalInput env input).content = input.content := rfl
    have assigned_iff : Assigned env e input ↔ (e.config.cognition.contradictionReview = true → input.project ≠ none →
        ∀ existing, (e.memories.findActiveBySubject (canonicalInput env input).scope subject input.project).head? =
          some existing → trim existing.content = trim input.content) := by
      simp [Assigned,about]
    rw [assigned_iff]
    unfold planSubject
    rw [grouped,content]
    cases read : e.memories.findActiveBySubject (canonicalInput env input).scope subject input.project with
    | nil => simp [planInserted,Planned.rows,grouped]
    | cons existing others =>
      have first := own (read ▸ List.mem_cons_self)
      by_cases same : trim existing.content = trim input.content
      · simp [planConfirmed,Planned.rows,same,first]
      · cases review : e.config.cognition.contradictionReview with
        | true =>
          simp only [same,if_false,if_true,planConflict,Planned.rows,List.forall_mem_singleton,draftMemory,Memory.new,
            List.head?_cons,Option.some.injEq,forall_eq',forall_const,imp_false,not_not]
          exact eq_comm
        | false =>
          refine iff_of_true ?_ (fun on => by cases on)
          simp only [same,if_false,Bool.false_eq_true]
          intro row inside
          rcases List.mem_append.mp inside with inside | inside
          · obtain ⟨m,listed,rfl⟩ := List.mem_map.mp inside
            have here : m.project = input.project := own (by rwa [read])
            exact here
          · cases List.mem_singleton.mp inside
            rfl

theorem ReplacesIn.known {project : Option String} {t : MemoryTable} {row : MemoryRow} (replaces : ReplacesIn project t row) :
    row.id ∈ t.keys := by
  obtain ⟨old,member,same,_⟩ := replaces
  exact (Table.mem_keys _ _).mpr ⟨old,member,same⟩

theorem memoryPlan_written {e : Engine} {d : Draw} {input : MemoryInput} {planned : Planned}
    (ok : memoryPlan env e d input = .ok planned) {row : MemoryRow} (inside : row ∈ planned.rows) :
    row.id ∈ e.memories.keys ∨ row.id = d.id := by
  obtain ⟨olds,last,same,replaced,either⟩ := memoryPlan_replaces ok
  rw [same] at inside
  rcases List.mem_append.mp inside with inside | inside
  · exact Or.inl (replaced row inside).known
  · cases List.mem_singleton.mp inside
    exact either.imp_left ReplacesIn.known

theorem Rewrites.nil (project : Option String) (t : MemoryTable) : Rewrites project t [] := ⟨by simp,by simp⟩

theorem Rewrites.replacing {project : Option String} {t : MemoryTable} {rows before : List MemoryRow}
    (writes : Rewrites project t rows) (part : before ⊆ rows) {row : MemoryRow}
    (replaces : ReplacesIn project (t.upsertRows before) row) : Rewrites project t (rows ++ [row]) := by
  obtain ⟨stood,there,same,active,grouped,closes⟩ := replaces
  have own : (∀ old ∈ t.rows, old.id = row.id → row.memory.project = old.memory.project ∧ old.memory.state = .active) ∧
      ∀ other ∈ rows, other.id = row.id → other.memory.project = row.memory.project := by
    rcases MemoryTable.mem_upsertRows there with ⟨written,inside,rfl⟩ | ⟨first,_⟩
    · have key : written.id = row.id := same
      refine ⟨?_,?_⟩
      · intro old member equal
        obtain ⟨project,state,_⟩ := writes.replaced written (part inside) old member (equal.trans key.symm)
        exact ⟨grouped.trans project,state⟩
      · intro other member equal
        exact (writes.alike other member written (part inside) (equal.trans key.symm)).trans grouped.symm
    · refine ⟨?_,?_⟩
      · intro old member equal
        cases t.eq_of_key member first (equal.trans same.symm)
        exact ⟨grouped,active⟩
      · intro other member equal
        exact (writes.replaced other member stood first (same.trans equal.symm)).1.trans grouped.symm
  refine ⟨?_,?_⟩
  · intro other inside old member equal
    rcases List.mem_append.mp inside with inside | inside
    · exact writes.replaced other inside old member equal
    · cases List.mem_singleton.mp inside
      obtain ⟨project,state⟩ := own.1 old member equal
      exact ⟨project,state,closes⟩
  · intro a insideA b insideB equal
    rcases List.mem_append.mp insideA with insideA | insideA
    · rcases List.mem_append.mp insideB with insideB | insideB
      · exact writes.alike a insideA b insideB equal
      · cases List.mem_singleton.mp insideB
        exact own.2 a insideA equal
    · cases List.mem_singleton.mp insideA
      rcases List.mem_append.mp insideB with insideB | insideB
      · exact (own.2 b insideB equal.symm).symm
      · cases List.mem_singleton.mp insideB
        rfl

theorem Rewrites.adding {project : Option String} {t : MemoryTable} {rows : List MemoryRow}
    (writes : Rewrites project t rows) {row : MemoryRow} (new : row.id ∉ t.keys) (apart : row.id ∉ rows.map MemoryRow.id) :
    Rewrites project t (rows ++ [row]) := by
  have other {a : MemoryRow} (inside : a ∈ rows) : a.id ≠ row.id :=
    fun same => apart (List.mem_map.mpr ⟨a,inside,same⟩)
  refine ⟨?_,?_⟩
  · intro written inside old member equal
    rcases List.mem_append.mp inside with inside | inside
    · exact writes.replaced written inside old member equal
    · cases List.mem_singleton.mp inside
      exact absurd ((Table.mem_keys _ _).mpr ⟨old,member,equal⟩) new
  · intro a insideA b insideB equal
    rcases List.mem_append.mp insideA with insideA | insideA
    · rcases List.mem_append.mp insideB with insideB | insideB
      · exact writes.alike a insideA b insideB equal
      · cases List.mem_singleton.mp insideB
        exact absurd equal (other insideA)
    · cases List.mem_singleton.mp insideA
      rcases List.mem_append.mp insideB with insideB | insideB
      · exact absurd equal.symm (other insideB)
      · cases List.mem_singleton.mp insideB
        rfl

/-- The rows of a plan follow those that were written or wait, when it was planned on the first of them. -/
theorem Rewrites.plan {project : Option String} {t : MemoryTable} {rows before : List MemoryRow}
    (writes : Rewrites project t rows) (part : before ⊆ rows) {e : Engine} {d : Draw} {input : MemoryInput}
    {planned : Planned} (memories : e.memories = t.upsertRows before) (grouped : input.project = project)
    (new : d.id ∉ t.keys) (apart : d.id ∉ rows.map MemoryRow.id) (ok : memoryPlan env e d input = .ok planned) :
    Rewrites project t (rows ++ planned.rows) := by
  obtain ⟨olds,last,same,replaced,either⟩ := memoryPlan_replaces ok
  rw [grouped,memories] at replaced either
  rw [same,← List.append_assoc]
  have fresh : d.id ∉ (t.upsertRows before).keys :=
    MemoryTable.unused_upsertRows new (fun listed => apart (List.map_subset _ part listed))
  have known : ∀ row ∈ olds, row.id ≠ d.id := fun row inside drawn => fresh (drawn ▸ (replaced row inside).known)
  have first : Rewrites project t (rows ++ olds) := by
    clear same known either
    induction olds using List.reverseRecOn with
    | nil => simpa using writes
    | append_singleton olds row ih =>
      rw [← List.append_assoc]
      exact (ih (fun other inside => replaced other (List.mem_append_left _ inside))).replacing
        (List.subset_append_of_subset_left _ part) (replaced row (List.mem_append_right _ List.mem_cons_self))
  rcases either with replaces | drawn
  · exact first.replacing (List.subset_append_of_subset_left _ part) replaces
  · refine first.adding (drawn ▸ new) ?_
    rw [drawn,List.map_append]
    intro listed
    rcases List.mem_append.mp listed with inside | inside
    · exact apart inside
    · obtain ⟨row,there,same⟩ := List.mem_map.mp inside
      exact known row there same

theorem memoryPlan_olds_iff {e : Engine} {d : Draw} {input : MemoryInput} {planned : Planned} (fresh : d.id ∉ e.memories.keys)
    (ok : memoryPlan env e d input = .ok planned) :
    (∀ row ∈ planned.rows, row.id ∈ e.memories.keys → row.memory.project = input.project) ↔ MergesWithin env e d input := by
  have keyed_within {subject : String} (keyed : (canonicalInput env input).subject = some subject) :
      MergesWithin env e d input := by
    intro unkeyed
    cases keyed.symm.trans unkeyed
  have own {subject : String} {m : Memory}
      (listed : m ∈ e.memories.findActiveBySubject (canonicalInput env input).scope subject input.project) :
      m.project = input.project := by
    obtain ⟨_,_,_,_,_,grouped,_⟩ := MemoryTable.mem_findActiveBySubject.mp listed
    exact grouped
  cases (memoryPlanWithEmbedding_cases env ok).2 with
  | confirmed subject existing others keyed read same =>
    refine iff_of_true ?_ (keyed_within keyed)
    intro row inside _
    cases List.mem_singleton.mp inside
    exact own (m := existing) (read ▸ List.mem_cons_self)
  | conflict subject existing others keyed read review =>
    refine iff_of_true ?_ (keyed_within keyed)
    intro row inside known
    cases List.mem_singleton.mp inside
    exact absurd known fresh
  | superseded subject existing others keyed read differs =>
    refine iff_of_true ?_ (keyed_within keyed)
    intro row inside known
    rcases List.mem_append.mp inside with inside | inside
    · obtain ⟨m,listed,rfl⟩ := List.mem_map.mp inside
      exact own (m := m) (read ▸ listed)
    · cases List.mem_singleton.mp inside
      exact absurd known fresh
  | merged top unkeyed hit =>
    obtain ⟨_,old,member,rfl⟩ := mergeTarget_active hit
    constructor
    · intro within _ other again
      cases hit.symm.trans again
      have closes := within (closeRow _ d.recordedAt old.memory) List.mem_cons_self
      exact closes ((Table.mem_keys _ _).mpr ⟨old,member,rfl⟩)
    · intro within row inside known
      rcases List.mem_cons.mp inside with rfl | inside
      · exact within unkeyed old.memory hit
      · cases List.mem_singleton.mp inside
        exact absurd known fresh
  | inserted absent missed =>
    refine iff_of_true ?_ ?_
    · intro row inside known
      cases List.mem_singleton.mp inside
      exact absurd known fresh
    · intro unkeyed top hit
      cases (missed unkeyed).symm.trans hit

variable (env) in
/-- An input that governance lets in is assigned, unless its row is evicted at once, merges within its project, and has
nothing evicted but what is of its project. -/
def AddsWithin (e : Engine) (d : Draw) (input : MemoryInput) : Prop :=
  Accepts env e.config input → (Assigned env e input ∨ d.id ∈ addEvictions env e d input) ∧ MergesWithin env e d input ∧
    ∀ old ∈ e.memories.rows, old.id ∈ addEvictions env e d input → old.memory.project = input.project

theorem StaysIn.refl (project : Option String) (t : MemoryTable) : StaysIn project t t where
  changed := fun row member changed => absurd ⟨row,member,rfl,rfl⟩ changed
  added := fun row member new => absurd ((Table.mem_keys _ _).mpr ⟨row,member,rfl⟩) new

/-- An input that is let in and cannot be planned has no subject, and the search for what it merges into has failed. -/
theorem memoryPlan_failed {e : Engine} {d : Draw} {input : MemoryInput} {err : Error} (accepted : Accepts env e.config input)
    (failed : memoryPlan env e d input = .error err) : Assigned env e input ∧ MergesWithin env e d input := by
  cases about : (canonicalInput env input).subject with
  | some subject =>
    rw [memoryPlan_keyed accepted about] at failed
    cases failed
  | none =>
    refine ⟨?_,?_⟩
    · intro _ _ subject keyed
      cases about.symm.trans keyed
    · intro _ top hit
      rw [memoryPlan_unkeyed accepted about,planUnkeyed,hit] at failed
      cases failed

theorem memoryAdd_staysIn_iff {e : Engine} {d : Draw} {input : MemoryInput} (fresh : d.id ∉ e.memories.keys) :
    StaysIn input.project e.memories (memoryAdd env e d input).2.memories ↔ AddsWithin env e d input := by
  cases ok : memoryPlan env e d input with
  | error err =>
    have same : (memoryAdd env e d input).2.memories = e.memories := by simp only [memoryAdd,ok]
    rw [same]
    refine iff_of_true (.refl _ _) ?_
    intro accepted
    obtain ⟨assigned,within⟩ := memoryPlan_failed accepted ok
    refine ⟨Or.inl assigned,within,?_⟩
    simp [addEvictions,ok]
  | ok planned =>
    have accepted := (memoryPlanWithEmbedding_cases env ok).1
    have evicts : addEvictions env e d input = (e.memories.upsertRows planned.rows).overCap planned.add.memory.scope
        e.config.cognition.maxMemoriesPerScope := by
      simp only [addEvictions,ok]
      exact congrArg (fun t => MemoryTable.overCap t _ _) (memoryApplyRows_memories env d.stamp e planned.rows)
    have memories : (memoryAdd env e d input).2.memories = (e.memories.upsertRows planned.rows).delete
        (fun row => decide (row.id ∈ addEvictions env e d input)) := by
      rw [memoryAdd_planned env ok,evicts]
      change (evictOverCap _ _).memories = _
      rw [evictOverCap_memories,memoryApplyRows_memories,memoryApplyRows_config]
      rfl
    have writes : Rewrites input.project e.memories ([] ++ planned.rows) :=
      (Rewrites.nil _ _).plan (List.Subset.refl []) rfl rfl fresh List.not_mem_nil ok
    rw [List.nil_append] at writes
    rw [memories,writes.staysIn_iff (fun id => decide (id ∈ addEvictions env e d input))]
    simp only [decide_eq_true_eq]
    have drawn {row : MemoryRow} (inside : row ∈ planned.rows) (new : row.id ∉ e.memories.keys) : row.id = d.id :=
      (memoryPlan_written ok inside).resolve_left new
    constructor
    · rintro ⟨grouped,evicted⟩ _
      have within : MergesWithin env e d input := (memoryPlan_olds_iff fresh ok).mp
        (fun row inside known => (grouped row inside).resolve_right (fun new => new.1 known))
      refine ⟨?_,within,evicted⟩
      by_contra neither
      obtain ⟨unassigned,kept⟩ := not_or.mp neither
      refine unassigned ((memoryPlan_within_iff ok).mp ?_).1
      intro row inside
      refine (grouped row inside).resolve_right ?_
      rintro ⟨new,gone⟩
      exact kept (drawn inside new ▸ gone)
    · intro given
      obtain ⟨assigned,within,evicted⟩ := given accepted
      refine ⟨?_,evicted⟩
      intro row inside
      by_cases known : row.id ∈ e.memories.keys
      · exact Or.inl ((memoryPlan_olds_iff fresh ok).mpr within row inside known)
      · rcases assigned with assigned | gone
        · exact Or.inl ((memoryPlan_within_iff ok).mpr ⟨assigned,within⟩ row inside)
        · exact Or.inr ⟨known,drawn inside known ▸ gone⟩

structure Planning where
  engine : Engine
  draw : Draw
  input : MemoryInput

variable (env) in
def Planning.rows (plan : Planning) : List MemoryRow :=
  match memoryPlan env plan.engine plan.draw plan.input with
  | .error _ => []
  | .ok planned => planned.rows

variable (env) in
/-- The plans of a batch whose rows reach the table; `pending` are those of the rows in the buffer. -/
def batchPlans : List (MemoryInput × Draw) → Engine → Buffer → List Planning → List Planning
  | [],e,buffer,pending =>
    match memoryApplyRowsBatch e buffer.rows with
    | .error _ => []
    | .ok _ => pending
  | (input,d) :: rest,e,buffer,pending =>
    match flushColliding e (batchKey env input) buffer with
    | .error _ => []
    | .ok (e,left) =>
      let landed := if buffer.collides (batchKey env input) then pending else []
      let waiting := if buffer.collides (batchKey env input) then [] else pending
      landed ++ match memoryPlan env e d input with
        | .error _ => []
        | .ok (_,planned) => batchPlans rest e (left.push (batchKey env input) planned) (waiting ++ [⟨e,d,input⟩])

variable (env) in
/-- What is known of a batch: the rows of the landed plans are in the table, those of the pending ones in the buffer. -/
structure BatchTrace (project : Option String) (t : MemoryTable) (e : Engine) (buffer : Buffer)
    (landed pending : List Planning) : Prop where
  memories : e.memories = t.upsertRows (landed.flatMap (Planning.rows env))
  waiting : buffer.rows = pending.flatMap (Planning.rows env)
  writes : Rewrites project t ((landed ++ pending).flatMap (Planning.rows env))
  made : ∀ plan ∈ landed ++ pending, plan.input.project = project ∧
    ∃ planned, memoryPlan env plan.engine plan.draw plan.input = .ok planned

theorem BatchTrace.landed {project : Option String} {t : MemoryTable} {e : Engine} {buffer : Buffer}
    {landed pending : List Planning} (trace : BatchTrace env project t e buffer landed pending) :
    BatchTrace env project t e ⟨[],[]⟩ landed [] := by
  refine ⟨trace.memories,rfl,?_,?_⟩
  · rw [List.append_nil]
    refine trace.writes.sublist ?_
    rw [List.flatMap_append]
    exact List.subset_append_left _ _
  · intro plan inside
    rw [List.append_nil] at inside
    exact trace.made plan (List.mem_append_left _ inside)

theorem BatchTrace.applied {project : Option String} {t : MemoryTable} {e after : Engine} {buffer : Buffer}
    {landed pending : List Planning} (trace : BatchTrace env project t e buffer landed pending)
    (ok : memoryApplyRowsBatch e buffer.rows = .ok after) :
    BatchTrace env project t after ⟨[],[]⟩ (landed ++ pending) [] := by
  refine ⟨?_,rfl,by simpa using trace.writes,by simpa using trace.made⟩
  rw [memoryApplyRowsBatch_memories ok,trace.memories,trace.waiting,← MemoryTable.upsertRows_append,List.flatMap_append]

theorem BatchTrace.push {project : Option String} {t : MemoryTable} {e : Engine} {buffer : Buffer}
    {landed pending : List Planning} (trace : BatchTrace env project t e buffer landed pending) {d : Draw}
    {input : MemoryInput} {planned : Planned} (grouped : input.project = project) (new : d.id ∉ t.keys)
    (apart : d.id ∉ ((landed ++ pending).flatMap (Planning.rows env)).map MemoryRow.id)
    (ok : memoryPlan env e d input = .ok planned) (key : Option (String × String)) :
    BatchTrace env project t e (buffer.push key planned.rows) landed (pending ++ [⟨e,d,input⟩]) := by
  have rows : Planning.rows env ⟨e,d,input⟩ = planned.rows := by simp only [Planning.rows,ok]
  refine ⟨trace.memories,?_,?_,?_⟩
  · rw [List.flatMap_append,← trace.waiting,List.flatMap_singleton,rows]
    rfl
  · rw [← List.append_assoc,List.flatMap_append,List.flatMap_singleton,rows]
    refine trace.writes.plan ?_ trace.memories grouped new apart ok
    rw [List.flatMap_append]
    exact List.subset_append_left _ _
  · intro plan inside
    rw [← List.append_assoc] at inside
    rcases List.mem_append.mp inside with inside | inside
    · exact trace.made plan inside
    · cases List.mem_singleton.mp inside
      exact ⟨grouped,planned,ok⟩

theorem BatchTrace.loop {project : Option String} {t : MemoryTable} {e : Engine} {buffer : Buffer}
    {landed pending : List Planning} (trace : BatchTrace env project t e buffer landed pending)
    (inputs : List (MemoryInput × Draw)) (adds : List MemoryAdd) (grouped : ∀ item ∈ inputs, item.1.project = project)
    (fresh : ∀ item ∈ inputs, item.2.id ∉ t.keys ∧
      item.2.id ∉ ((landed ++ pending).flatMap (Planning.rows env)).map MemoryRow.id)
    (distinct : (inputs.map (fun item => item.2.id)).Nodup) :
    BatchTrace env project t (batchLoop env inputs e buffer adds).2 ⟨[],[]⟩
      (landed ++ batchPlans env inputs e buffer pending) [] := by
  induction inputs generalizing e buffer landed pending adds with
  | nil =>
    unfold batchLoop batchPlans
    cases applied : memoryApplyRowsBatch e buffer.rows with
    | error err => simpa using trace.landed
    | ok after => exact trace.applied applied
  | cons item rest ih =>
    obtain ⟨input,d⟩ := item
    obtain ⟨first,others⟩ := List.nodup_cons.mp distinct
    unfold batchLoop batchPlans
    cases flushed : flushColliding e (batchKey env input) buffer with
    | error err => simpa using trace.landed
    | ok reached =>
      obtain ⟨after,left⟩ := reached
      dsimp only
      -- the flush moves the pending plans to the landed ones; together they stay the same
      have moved : BatchTrace env project t after left
          (landed ++ if buffer.collides (batchKey env input) then pending else [])
          (if buffer.collides (batchKey env input) then [] else pending) := by
        rcases flushColliding_cases flushed with ⟨clear,rfl,rfl⟩ | ⟨collides,applied,rfl⟩
        · simpa [clear] using trace
        · simpa [collides] using trace.applied applied
      have whole : (landed ++ if buffer.collides (batchKey env input) then pending else []) ++
          (if buffer.collides (batchKey env input) then [] else pending) = landed ++ pending := by
        split
        next => simp
        next => simp
      generalize (if buffer.collides (batchKey env input) then pending else []) = moving at moved whole ⊢
      generalize (if buffer.collides (batchKey env input) then [] else pending) = resting at moved whole ⊢
      rw [← List.append_assoc]
      rw [← whole] at fresh
      cases ok : memoryPlan env after d input with
      | error err => simpa using moved.landed
      | ok planned =>
        obtain ⟨new,apart⟩ := fresh (input,d) List.mem_cons_self
        refine ih (moved.push (grouped (input,d) List.mem_cons_self) new apart ok _) _
          (fun other inside => grouped other (List.mem_cons_of_mem _ inside)) ?_ others
        intro other inside
        obtain ⟨unknown,beside⟩ := fresh other (List.mem_cons_of_mem _ inside)
        refine ⟨unknown,?_⟩
        have unused : other.2.id ∉ after.memories.keys := by
          rw [moved.memories]
          refine MemoryTable.unused_upsertRows unknown (fun listed => beside (List.map_subset _ ?_ listed))
          intro row written
          obtain ⟨plan,there,own⟩ := List.mem_flatMap.mp written
          exact List.mem_flatMap.mpr ⟨plan,List.mem_append_left _ there,own⟩
        have rows : Planning.rows env ⟨after,d,input⟩ = planned.rows := by simp only [Planning.rows,ok]
        rw [← List.append_assoc,List.flatMap_append,List.flatMap_singleton,rows,List.map_append]
        intro listed
        rcases List.mem_append.mp listed with inside' | inside'
        · exact beside inside'
        · obtain ⟨row,written,same⟩ := List.mem_map.mp inside'
          rcases memoryPlan_written ok written with known | drawn
          · exact unused (same ▸ known)
          · exact first (List.mem_map.mpr ⟨other,inside,same.symm.trans drawn⟩)

theorem memoryAddBatch_staysIn_iff {project : Option String} {e : Engine} {inputs : List (MemoryInput × Draw)}
    (grouped : ∀ item ∈ inputs, item.1.project = project) (fresh : ∀ item ∈ inputs, item.2.id ∉ e.memories.keys)
    (distinct : (inputs.map (fun item => item.2.id)).Nodup) :
    StaysIn project e.memories (memoryAddBatch env e inputs).2.memories ↔ ∀ plan ∈ batchPlans env inputs e ⟨[],[]⟩ [],
      Assigned env plan.engine plan.input ∧ MergesWithin env plan.engine plan.draw plan.input := by
  have start : BatchTrace env project e.memories e ⟨[],[]⟩ [] [] := ⟨rfl,rfl,.nil _ _,by simp⟩
  have trace : BatchTrace env project e.memories (memoryAddBatch env e inputs).2 ⟨[],[]⟩
      (batchPlans env inputs e ⟨[],[]⟩ []) [] :=
    start.loop inputs [] grouped (fun item inside => ⟨fresh item inside,by simp⟩) distinct
  generalize batchPlans env inputs e ⟨[],[]⟩ [] = plans at trace ⊢
  have writes := trace.writes
  rw [List.append_nil] at writes
  have spared : (e.memories.upsertRows (plans.flatMap (Planning.rows env))).delete (fun row => (fun _ => false) row.id) =
      e.memories.upsertRows (plans.flatMap (Planning.rows env)) := by
    apply Table.ext
    simp [Table.delete]
  rw [trace.memories,← spared,writes.staysIn_iff (fun _ => false)]
  simp only [Bool.false_eq_true,and_false,or_false,false_imp_iff,implies_true,and_true]
  have each {plan : Planning} (inside : plan ∈ plans) : (∀ row ∈ Planning.rows env plan, row.memory.project = project) ↔
      Assigned env plan.engine plan.input ∧ MergesWithin env plan.engine plan.draw plan.input := by
    obtain ⟨same,planned,ok⟩ := trace.made plan (List.mem_append_left _ inside)
    rw [← same,← memoryPlan_within_iff ok]
    simp only [Planning.rows,ok]
  constructor
  · intro within plan inside
    exact (each inside).mp (fun row written => within row (List.mem_flatMap.mpr ⟨plan,inside,written⟩))
  · intro given row listed
    obtain ⟨plan,inside,written⟩ := List.mem_flatMap.mp listed
    exact (each inside).mpr (given plan inside) row written

/-- What the writes of a project reach. -/
theorem writes_stay_in_project :
    (∀ (e : Engine) (d : Draw) (input : MemoryInput), d.id ∉ e.memories.keys →
      (StaysIn input.project e.memories (memoryAdd env e d input).2.memories ↔ AddsWithin env e d input)) ∧
    ∀ (project : Option String) (e : Engine) (inputs : List (MemoryInput × Draw)),
      (∀ item ∈ inputs, item.1.project = project) → (∀ item ∈ inputs, item.2.id ∉ e.memories.keys) →
      (inputs.map (fun item => item.2.id)).Nodup →
        (StaysIn project e.memories (memoryAddBatch env e inputs).2.memories ↔
          ∀ plan ∈ batchPlans env inputs e ⟨[],[]⟩ [],
            Assigned env plan.engine plan.input ∧ MergesWithin env plan.engine plan.draw plan.input) :=
  ⟨fun _ _ _ fresh => memoryAdd_staysIn_iff fresh,
    fun _ _ _ grouped fresh distinct => memoryAddBatch_staysIn_iff grouped fresh distinct⟩

end

theorem Assigned.of_off {env : Env} {e : Engine} {input : MemoryInput}
    (off : e.config.cognition.contradictionReview = false) : Assigned env e input := by
  intro on
  cases off.symm.trans on

theorem MergesWithin.of_unmerged {env : Env} {e : Engine} {d : Draw} {input : MemoryInput}
    (unmerged : Unmerged env e.config input) : MergesWithin env e d input := by
  intro unkeyed top hit
  cases (unmerged.target unkeyed _).symm.trans hit

/-- A store with one version of a plan in the project. -/
def plannedStore (config : CoreConfig) (project : String) : Engine :=
  addNext .ascii (.empty config 2) (planFact (some project) "free",⟨1000,1000,1,some [1,0],[],fun _ => 0⟩)

theorem writes_stay_in_project_web :
    StaysIn (some "web") (plannedStore .default "web").memories
      (memoryAdd .ascii (plannedStore .default "web") (.plain 2000 2) (planFact (some "web") "pro")).2.memories ∧
    StaysIn (some "web") (plannedStore .default "web").memories
      (memoryAddBatch .ascii (plannedStore .default "web")
        [(planFact (some "web") "pro",.plain 2000 2),(planFact (some "web") "team",.plain 3000 3)]).2.memories := by
  constructor
  · refine (writes_stay_in_project.1 (plannedStore .default "web") (.plain 2000 2) (planFact (some "web") "pro")
      (by decide +kernel)).mpr ?_
    intro _
    refine ⟨Or.inl (.of_off rfl),.of_unmerged (Or.inl rfl),?_⟩
    have spared : addEvictions .ascii (plannedStore .default "web") (.plain 2000 2) (planFact (some "web") "pro") = [] := by
      decide +kernel
    simp [spared]
  · refine (writes_stay_in_project.2 (some "web") (plannedStore .default "web")
      [(planFact (some "web") "pro",.plain 2000 2),(planFact (some "web") "team",.plain 3000 3)] (by decide)
      (by decide +kernel) (by decide)).mpr ?_
    have plain : ∀ plan ∈ batchPlans .ascii
        [(planFact (some "web") "pro",.plain 2000 2),(planFact (some "web") "team",.plain 3000 3)]
        (plannedStore .default "web") ⟨[],[]⟩ [], plan.engine.config.cognition.contradictionReview = false ∧
          plan.engine.config.embedding = false := by
      decide +kernel
    intro plan inside
    exact ⟨.of_off (plain plan inside).1,.of_unmerged (Or.inl (plain plan inside).2)⟩

theorem StaysIn.listed {project : Option String} {t u : MemoryTable} (stays : StaysIn project t u) (id : Uuid)
    {own : Option String} (new : id ∉ t.keys) (listed : (id,own) ∈ u.rows.map (fun row => (row.id,row.memory.project))) :
    own = project := by
  obtain ⟨row,member,same⟩ := List.mem_map.mp listed
  obtain ⟨rfl,rfl⟩ := Prod.mk.inj same
  exact stays.added row member new

theorem StaysIn.moved {project : Option String} {t u : MemoryTable} (stays : StaysIn project t u) (id : Uuid)
    {own : Option String} (before after : MemoryState) (differs : before ≠ after)
    (stood : (id,own,before) ∈ t.rows.map (fun row => (row.id,row.memory.project,row.memory.state)))
    (stands : (id,after) ∈ u.rows.map (fun row => (row.id,row.memory.state))) : own = project := by
  obtain ⟨old,member,same⟩ := List.mem_map.mp stood
  obtain ⟨new,there,equal⟩ := List.mem_map.mp stands
  simp only [Prod.mk.injEq] at same equal
  rw [← same.2.1]
  refine stays.changed old member ?_
  rintro ⟨other,listed,sameId,froze⟩
  rw [u.eq_of_key listed there (sameId.trans (same.1.trans equal.1.symm))] at froze
  have state : new.memory.state = old.memory.state := congrArg Prod.fst froze
  exact differs (same.2.2.symm.trans (state.symm.trans equal.2))

/-- Under review the new version of a project is written without it; a merge closes the version of another project. -/
theorem writes_leave_project :
    ¬StaysIn (some "web") (plannedStore reviewConfig "web").memories
      (memoryAdd .ascii (plannedStore reviewConfig "web") (.plain 2000 2) (planFact (some "web") "pro")).2.memories ∧
    ¬StaysIn (some "app") (plannedStore vectorConfig "web").memories
      (memoryAdd .ascii (plannedStore vectorConfig "web") ⟨3000,3000,3,some [1,0],[(1,1)],fun _ => 0⟩
        { planFact (some "app") "free of charge" with subject := none }).2.memories := by
  constructor
  · intro stays
    have project : (none : Option String) = some "web" := stays.listed 2 (by decide +kernel) (by decide +kernel)
    cases project
  · intro stays
    have project : some "web" = some "app" := stays.moved 1 .active .superseded (by decide)
      (by decide +kernel) (by decide +kernel)
    exact absurd project (by decide)

end Ecphoria
