import Ecphoria.Engine.Frame

/-! Batch ingest against one-at-a-time ingest, without an embedding provider. The
buffered plans are the plans of the loop, because what waits in the buffer is about
other subjects; what the batch leaves out is the graph, the cap and, when governance
refuses an input, the rows still waiting. -/
namespace Ecphoria
open Library

section
variable (env : Env)

def addEvictions (e : Engine) (d : Draw) (input : MemoryInput) : List Uuid :=
  match memoryPlan env e d input with
  | .error _ => []
  | .ok (result,rows) =>
    (memoryApplyRows env d.stamp e rows).memories.overCap result.memory.scope
      e.config.cognition.maxMemoriesPerScope

def loopEvictions : List (MemoryInput × Draw) → Engine → List Uuid
  | [],_ => []
  | (input,d) :: rest,e =>
    match memoryAdd env e d input with
    | (.error _,_) => []
    | (.ok _,after) => addEvictions env e d input ++ loopEvictions rest after

/-- The batch with its buffer and the loop end alike: the same outcomes or error, the same rows of both
tables, and the same evictions, of which the batch path has none. -/
structure Agree (inputs : List (MemoryInput × Draw)) (b : Engine) (buffer : Buffer) (s : Engine)
    (adds : List MemoryAdd) : Prop where
  outcomes : (batchLoop env inputs b buffer adds).1 = (addLoop env inputs s adds).1
  memories : (batchLoop env inputs b buffer adds).2.memories.rows.Perm (addLoop env inputs s adds).2.memories.rows
  edges : (batchLoop env inputs b buffer adds).2.edges.rows.Perm (addLoop env inputs s adds).2.edges.rows
  evictions : loopEvictions env inputs s = []

/-- `memory_add_batch` does what `memory_add` on each input in order does. -/
def BatchAgrees (e : Engine) (inputs : List (MemoryInput × Draw)) : Prop :=
  Agree env inputs e ⟨[],[]⟩ e []

def waits (waiting : List (Option (String × String))) (key : Option (String × String)) : Bool :=
  key.isSome && key ∈ waiting

/-- Adding the input derives no edge the graph lacks and leaves its scope within the cap. -/
def AddsPlainly (e : Engine) (d : Draw) (input : MemoryInput) : Prop :=
  ∀ planned, memoryPlan env e d input = .ok planned →
    (∀ row ∈ planned.rows, ∀ edge ∈ graphEdges env e.config row, edge.id ∈ e.edges.keys) ∧
      (e.config.cognition.maxMemoriesPerScope = 0 ∨
        (e.memories.upsertRows planned.rows).countActive planned.add.memory.scope ≤
          e.config.cognition.maxMemoriesPerScope)

/-- Every input that governance lets in is added plainly, and none is refused while the rows of earlier
inputs wait. `waiting` holds the keys of the inputs since the buffer was last empty. -/
def Fits : List (MemoryInput × Draw) → Engine → List (Option (String × String)) → Prop
  | [],_,_ => True
  | (input,d) :: rest,e,waiting =>
    let left := if waits waiting (batchKey env input) then [] else waiting
    if Accepts env e.config input then
      AddsPlainly env e d input ∧ Fits rest (memoryAdd env e d input).2 (left ++ [batchKey env input])
    else left = []

/-- The input is not merged by vector: there is no provider, or the input has a subject. -/
def Unmerged (config : CoreConfig) (input : MemoryInput) : Prop :=
  config.embedding = false ∨ (canonicalInput env input).subject ≠ none

variable {env} in
theorem Unmerged.target {e : Engine} {d : Draw} {input : MemoryInput} (unmerged : Unmerged env e.config input)
    (unkeyed : (canonicalInput env input).subject = none) (scope : MemoryScope) :
    mergeTarget e d scope (e.embedMemoryContent d) = .ok none := by
  rcases unmerged with off | keyed
  · simp [Engine.embedMemoryContent,off,mergeTarget]
  · exact absurd unkeyed keyed

theorem memoryPlan_accepted {e : Engine} {d : Draw} {input : MemoryInput} (unmerged : Unmerged env e.config input) :
    (∃ planned, memoryPlan env e d input = .ok planned) ↔ Accepts env e.config input := by
  constructor
  · intro given
    obtain ⟨planned,ok⟩ := given
    exact (memoryPlanWithEmbedding_cases env ok).1
  · intro accepted
    have governed : checkGovernance env e.config (canonicalInput env input).scope (canonicalInput env input).subject
        (canonicalInput env input).metadata (canonicalInput env input).sourceEventIds = .ok () := accepted
    simp only [memoryPlan,memoryPlanWithEmbedding,governed]
    cases keyed : (canonicalInput env input).subject with
    | none =>
      simp only [planUnkeyed,unmerged.target keyed]
      exact ⟨_,rfl⟩
    | some subject => exact ⟨_,rfl⟩

/-- When nothing is merged a plan reads the configuration, the active versions of its subject and their
vectors, and nothing else. -/
theorem memoryPlan_congr {e f : Engine} {d : Draw} {input : MemoryInput} (unmerged : Unmerged env e.config input)
    (config : f.config = e.config)
    (found : ∀ subject, (canonicalInput env input).subject = some subject →
      f.memories.findActiveBySubject (canonicalInput env input).scope subject input.project =
        e.memories.findActiveBySubject (canonicalInput env input).scope subject input.project)
    (vectors : ∀ subject, (canonicalInput env input).subject = some subject →
      ∀ m ∈ e.memories.findActiveBySubject (canonicalInput env input).scope subject input.project,
        f.memories.getEmbedding m.id = e.memories.getEmbedding m.id) :
    memoryPlan env f d input = memoryPlan env e d input := by
  have vector : f.embedMemoryContent d = e.embedMemoryContent d := by simp [Engine.embedMemoryContent,config]
  simp only [memoryPlan,memoryPlanWithEmbedding,vector,config]
  split
  next err refused => rfl
  next accepted =>
    split
    next subject keyed =>
      have same : f.memories.findActiveBySubject (canonicalInput env input).scope subject
          (canonicalInput env input).project = e.memories.findActiveBySubject (canonicalInput env input).scope
            subject (canonicalInput env input).project := found subject keyed
      simp only [planSubject,importanceOf,config,same]
      split
      next => rfl
      next existing others read =>
        have stored := vectors subject keyed existing (by
          rw [show e.memories.findActiveBySubject _ subject input.project = existing :: others from read]
          simp)
        simp only [planConfirmed,stored]
    next unkeyed =>
      have missed := (show Unmerged env f.config input from config ▸ unmerged).target unkeyed (d := d)
      rw [vector] at missed
      simp only [planUnkeyed,missed,unmerged.target unkeyed,importanceOf,config]

theorem memoryAdd_planned {e : Engine} {d : Draw} {input : MemoryInput} {planned : Planned}
    (ok : memoryPlan env e d input = .ok planned) :
    memoryAdd env e d input = (.ok planned.add,evictOverCap (memoryApplyRows env d.stamp e planned.rows)
      planned.add.memory.scope) := by
  unfold memoryAdd
  rw [ok]
  rfl

theorem memoryAdd_plain {e : Engine} {d : Draw} {input : MemoryInput} {planned : Planned}
    (ok : memoryPlan env e d input = .ok planned) (plain : AddsPlainly env e d input) :
    (memoryAdd env e d input).1 = .ok planned.add ∧
      (memoryAdd env e d input).2.memories = e.memories.upsertRows planned.rows ∧
      (memoryAdd env e d input).2.edges = e.edges := by
  obtain ⟨known,within⟩ := plain planned ok
  rw [memoryAdd_planned env ok]
  refine ⟨rfl,?_,?_⟩
  · change (evictOverCap _ _).memories = _
    rw [evictOverCap_memories,memoryApplyRows_memories,memoryApplyRows_config]
    exact MemoryTable.enforceScopeCap_of_within within
  · exact (congrArg Tables.edges (evictOverCap_tables _ _)).trans (memoryApplyRows_edges_known env known)

theorem addLoop_planned {e : Engine} {d : Draw} {input : MemoryInput} {planned : Planned}
    (rest : List (MemoryInput × Draw)) (out : List MemoryAdd) (ok : memoryPlan env e d input = .ok planned) :
    addLoop env ((input,d) :: rest) e out =
      addLoop env rest (memoryAdd env e d input).2 (out ++ [planned.add]) := by
  rw [addLoop,memoryAdd_planned env ok]

theorem loopEvictions_planned {e : Engine} {d : Draw} {input : MemoryInput} {planned : Planned}
    (rest : List (MemoryInput × Draw)) (ok : memoryPlan env e d input = .ok planned) :
    loopEvictions env ((input,d) :: rest) e =
      addEvictions env e d input ++ loopEvictions env rest (memoryAdd env e d input).2 := by
  rw [loopEvictions,memoryAdd_planned env ok]

theorem addEvictions_eq_nil_iff {e : Engine} {d : Draw} {input : MemoryInput} {planned : Planned}
    (ok : memoryPlan env e d input = .ok planned) :
    addEvictions env e d input = [] ↔ e.config.cognition.maxMemoriesPerScope = 0 ∨
      (e.memories.upsertRows planned.rows).countActive planned.add.memory.scope ≤
        e.config.cognition.maxMemoriesPerScope := by
  unfold addEvictions
  rw [ok]
  change MemoryTable.overCap (memoryApplyRows env d.stamp e planned.rows).memories _ _ = [] ↔ _
  rw [memoryApplyRows_memories]
  exact MemoryTable.overCap_eq_nil_iff _ _ _

theorem batchLoop_planned {e after : Engine} {buffer left : Buffer} {d : Draw} {input : MemoryInput}
    {planned : Planned} (rest : List (MemoryInput × Draw)) (adds : List MemoryAdd)
    (flushed : flushColliding e (batchKey env input) buffer = .ok (after,left))
    (ok : memoryPlan env after d input = .ok planned) :
    batchLoop env ((input,d) :: rest) e buffer adds =
      batchLoop env rest after (left.push (batchKey env input) planned.rows) (adds ++ [planned.add]) := by
  simp only [batchLoop,flushed,ok]
  rfl

theorem addLoop_edges_keys {k : Uuid} (inputs : List (MemoryInput × Draw)) (e : Engine) (out : List MemoryAdd)
    (known : k ∈ e.edges.keys) : k ∈ (addLoop env inputs e out).2.edges.keys := by
  induction inputs generalizing e out with
  | nil => exact known
  | cons head rest ih =>
    have kept : k ∈ (memoryAdd env e head.2 head.1).2.edges.keys := by
      unfold memoryAdd
      split
      next => exact known
      next result rows ok =>
        have same := congrArg Tables.edges
          (evictOverCap_tables (memoryApplyRows env head.2.stamp e rows) result.memory.scope)
        change k ∈ (evictOverCap _ _).tables.edges.keys
        rw [same]
        exact (memoryApplyRows_edges_keys env _ e rows k).mpr (Or.inl known)
    unfold addLoop
    split
    next err after added =>
      rw [added] at kept
      exact kept
    next add after added =>
      rw [added] at kept
      exact ih after _ kept

theorem batchLoop_edges (inputs : List (MemoryInput × Draw)) (e : Engine) (buffer : Buffer)
    (adds : List MemoryAdd) : (batchLoop env inputs e buffer adds).2.edges = e.edges := by
  have written {e after : Engine} {rows : List MemoryRow} (ok : memoryApplyRowsBatch e rows = .ok after) :
      after.edges = e.edges :=
    congrArg Tables.edges (memoryApplyRowsBatch_ok e after rows ok).2.1
  induction inputs generalizing e buffer adds with
  | nil =>
    unfold batchLoop
    split
    next => rfl
    next after applied => exact written applied
  | cons head rest ih =>
    unfold batchLoop
    split
    next => rfl
    next after left flushed =>
      have kept : after.edges = e.edges := by
        rcases flushColliding_cases flushed with ⟨_,rfl,_⟩ | ⟨_,applied,_⟩
        · rfl
        · exact written applied
      split
      next => exact kept
      next add planned ok => rw [ih,kept]

theorem memoryPlan_rows {e : Engine} {d : Draw} {input : MemoryInput} {planned : Planned}
    (unmerged : Unmerged env e.config input) (ok : memoryPlan env e d input = .ok planned) {row : MemoryRow}
    (inside : row ∈ planned.rows) :
    (row.id = d.id ∨ ∃ old ∈ e.memories.rows, old.id = row.id ∧ old.memory.scope = row.memory.scope ∧
        old.memory.subject = row.memory.subject) ∧
      row.memory.scope = (canonicalInput env input).scope ∧
      row.memory.subject = (canonicalInput env input).subject := by
  have scope : (canonicalInput env input).scope.withDefaultTenant = (canonicalInput env input).scope :=
    MemoryScope.withDefaultTenant_withDefaultTenant input.scope
  cases (memoryPlanWithEmbedding_cases env ok).2 with
  | confirmed subject existing others keyed found same =>
    cases List.mem_singleton.mp inside
    obtain ⟨old,member,rfl,inScope,about,_,_⟩ := MemoryTable.mem_findActiveBySubject.mp
      (found ▸ List.mem_cons_self : existing ∈ e.memories.findActiveBySubject _ subject input.project)
    exact ⟨Or.inr ⟨old,member,rfl,rfl,rfl⟩,inScope.trans scope,about.trans keyed.symm⟩
  | conflict subject existing others keyed found review =>
    cases List.mem_singleton.mp inside
    exact ⟨Or.inl rfl,rfl,keyed.symm⟩
  | superseded subject existing others keyed found differs =>
    rcases List.mem_append.mp inside with inside | inside
    · obtain ⟨m,listed,rfl⟩ := List.mem_map.mp inside
      obtain ⟨old,member,rfl,inScope,about,_,_⟩ := MemoryTable.mem_findActiveBySubject.mp (found ▸ listed)
      exact ⟨Or.inr ⟨old,member,rfl,rfl,rfl⟩,inScope.trans scope,about.trans keyed.symm⟩
    · cases List.mem_singleton.mp inside
      exact ⟨Or.inl rfl,rfl,keyed.symm⟩
  | merged top unkeyed hit =>
    rw [unmerged.target unkeyed] at hit
    cases hit
  | inserted absent missed =>
    cases List.mem_singleton.mp inside
    exact ⟨Or.inl rfl,rfl,rfl⟩

def versionOf (row : MemoryRow) : Nat := row.memory.version

private theorem total_close_insert (t : MemoryTable) (closed : List Memory) (validAt recordedAt : Int)
    (new : MemoryRow) (listed : ∀ m ∈ closed, ∃ row ∈ t.rows, row.memory = m) (fresh : new.id ∉ t.keys) :
    (t.upsertRows (closed.map (closeRow validAt recordedAt) ++ [new])).total versionOf =
      t.total versionOf + versionOf new := by
  rw [MemoryTable.upsertRows_eq,List.map_append,Table.upsertAll,List.foldl_append]
  change ((t.upsertAll _).upsert new.stored).total versionOf = _
  have matched : ∀ row ∈ (closed.map (closeRow validAt recordedAt)).map MemoryRow.stored,
      ∃ old ∈ t.rows, old.id = row.id ∧ versionOf old = versionOf row := by
    simp only [List.mem_map]
    rintro row ⟨_,⟨m,inside,rfl⟩,rfl⟩
    obtain ⟨old,member,rfl⟩ := listed m inside
    exact ⟨old,member,rfl,rfl⟩
  have absent : new.stored.id ∉ (t.upsertAll ((closed.map (closeRow validAt recordedAt)).map
      MemoryRow.stored)).keys := by
    intro again
    obtain ⟨row,member,same⟩ := (Table.mem_keys _ _).mp again
    rcases Table.mem_upsertAll member with inside | ⟨old,_⟩
    · obtain ⟨old,member,equal,_⟩ := matched row inside
      exact fresh ((Table.mem_keys _ _).mpr ⟨old,member,equal.trans same⟩)
    · exact fresh ((Table.mem_keys _ _).mpr ⟨row,old,same⟩)
  rw [Table.total_upsert_fresh _ _ _ absent,Table.total_upsertAll_same _ _ _ matched]
  rfl

theorem memoryPlan_total {e : Engine} {d : Draw} {input : MemoryInput} {planned : Planned}
    (ok : memoryPlan env e d input = .ok planned) (fresh : d.id ∉ e.memories.keys) :
    (e.memories.upsertRows planned.rows).total versionOf = e.memories.total versionOf + 1 := by
  have found {subject : String} {m : Memory} (listed : m ∈ e.memories.findActiveBySubject
      (canonicalInput env input).scope subject input.project) : ∃ row ∈ e.memories.rows, row.memory = m := by
    obtain ⟨row,member,equal,_⟩ := MemoryTable.mem_findActiveBySubject.mp listed
    exact ⟨row,member,equal⟩
  have alone (new : MemoryRow) (drawn : new.id = d.id) :
      (e.memories.upsertRows [new]).total versionOf = e.memories.total versionOf + versionOf new :=
    total_close_insert e.memories [] 0 0 new (by simp) (drawn ▸ fresh)
  have again (new old : MemoryRow) (member : old ∈ e.memories.rows) (same : old.id = new.id)
      (bumped : versionOf new = versionOf old + 1) :
      (e.memories.upsertRows [new]).total versionOf = e.memories.total versionOf + 1 := by
    have replaced := e.memories.total_upsert_present new.stored old versionOf member same
    change (e.memories.upsert new.stored).total versionOf + versionOf old =
      e.memories.total versionOf + versionOf new at replaced
    change (e.memories.upsert new.stored).total versionOf = _
    omega
  cases (memoryPlanWithEmbedding_cases env ok).2 with
  | confirmed subject existing others keyed read same =>
    obtain ⟨old,member,rfl⟩ := found (read ▸ List.mem_cons_self :
      existing ∈ e.memories.findActiveBySubject _ subject input.project)
    exact again _ old member rfl rfl
  | conflict subject existing others keyed read review => exact alone _ rfl
  | superseded subject existing others keyed read differs =>
    exact total_close_insert e.memories (existing :: others) _ _ _
      (fun m listed => found (read ▸ listed)) fresh
  | merged top unkeyed hit =>
    obtain ⟨_,row,member,equal⟩ := mergeTarget_active hit
    exact total_close_insert e.memories [top] _ _ _ (by
      intro m listed
      rw [List.mem_singleton.mp listed]
      exact ⟨row,member,equal⟩) fresh
  | inserted absent missed => exact alone _ rfl

private theorem memoryPlan_news {e : Engine} {d : Draw} {input : MemoryInput} {planned : Planned}
    (ok : memoryPlan env e d input = .ok planned) :
    (planned.rows.filter (fun row => row.id ∉ e.memories.keys)).length ≤ 1 := by
  have known (closed : List MemoryRow) (last : MemoryRow)
      (old : ∀ row ∈ closed, row.id ∈ e.memories.keys) :
      ((closed ++ [last]).filter (fun row => row.id ∉ e.memories.keys)).length ≤ 1 := by
    rw [List.filter_append,List.filter_eq_nil_iff.mpr (by simpa using old)]
    exact List.length_filter_le _ _
  cases (memoryPlanWithEmbedding_cases env ok).2 with
  | confirmed subject existing others keyed found same => exact known [] _ (by simp)
  | conflict subject existing others keyed found review => exact known [] _ (by simp)
  | superseded subject existing others keyed found differs =>
    apply known
    intro row inside
    obtain ⟨m,listed,rfl⟩ := List.mem_map.mp inside
    obtain ⟨old,member,rfl,_⟩ := MemoryTable.mem_findActiveBySubject.mp (found ▸ listed)
    exact (Table.mem_keys _ _).mpr ⟨old,member,rfl⟩
  | merged top unkeyed hit =>
    apply known [closeRow _ d.recordedAt top]
    intro row inside
    obtain ⟨_,old,member,rfl⟩ := mergeTarget_active hit
    rw [List.mem_singleton.mp inside]
    exact (Table.mem_keys _ _).mpr ⟨old,member,rfl⟩
  | inserted absent missed => exact known [] _ (by simp)

/-- Rows that the query does not select, written over rows that it does not select, leave its answer. -/
theorem MemoryTable.findActiveBySubject_apart {t : MemoryTable} {rows : List MemoryRow} {scope : MemoryScope}
    {subject : String} {project : Option String}
    (news : ∀ row ∈ rows, MemoryTable.beliefFilter scope subject project row.memory = false)
    (olds : ∀ row ∈ rows, ∀ old ∈ t.rows, old.id = row.id →
      MemoryTable.beliefFilter scope subject project old.memory = false) :
    (t.upsertRows rows).findActiveBySubject scope subject project = t.findActiveBySubject scope subject project := by
  have same : (t.upsertRows rows).rows.filter (fun row => MemoryTable.beliefFilter scope subject project row.memory) =
      t.rows.filter (fun row => MemoryTable.beliefFilter scope subject project row.memory) := by
    rw [MemoryTable.upsertRows_eq]
    apply Table.filter_upsertAll
    · intro stored inside
      obtain ⟨row,listed,rfl⟩ := List.mem_map.mp inside
      exact news row listed
    · intro stored inside old member equal
      obtain ⟨row,listed,rfl⟩ := List.mem_map.mp inside
      exact olds row listed old member equal
  simp only [MemoryTable.findActiveBySubject,MemoryTable.memories,List.filter_map]
  exact congrArg (fun rows => (rows.map MemoryRow.memory).insertionSort newestFirst) same

theorem MemoryTable.beliefFilter_eq_true {scope : MemoryScope} {subject : String} {project : Option String} {m : Memory} :
    MemoryTable.beliefFilter scope subject project m = true ↔ m.scope = scope.withDefaultTenant ∧
      m.subject = some subject ∧ m.project = project ∧ m.state = .active := by
  simp only [MemoryTable.beliefFilter,Bool.and_eq_true,decide_eq_true_eq,MemoryScope.matchesRow_iff,and_assoc]

/-- One store is the other with rows written over it, and these are about the subjects that are listed. -/
structure Overlay (b : Engine) (rows : List MemoryRow) (s : Engine) (subjects : List (String × String)) : Prop where
  config : s.config = b.config
  memories : s.memories = b.memories.upsertRows rows
  keyed : ∀ row ∈ rows, ∀ subject, row.memory.subject = some subject →
    (scopePartitionKey row.memory.scope,subject) ∈ subjects
  kept : ∀ row ∈ rows, ∀ old ∈ b.memories.rows, old.id = row.id →
    old.memory.scope = row.memory.scope ∧ old.memory.subject = row.memory.subject

theorem Overlay.plan {b s : Engine} {rows : List MemoryRow} {subjects : List (String × String)} {d : Draw}
    {input : MemoryInput} (laid : Overlay b rows s subjects) (unmerged : Unmerged env b.config input)
    (clear : ∀ subject, (canonicalInput env input).subject = some subject →
      (scopePartitionKey (canonicalInput env input).scope,subject) ∉ subjects) :
    memoryPlan env s d input = memoryPlan env b d input := by
  have apart {subject : String} (about : (canonicalInput env input).subject = some subject) {row : MemoryRow}
      (inside : row ∈ rows) (inScope : row.memory.scope = (canonicalInput env input).scope) :
      row.memory.subject ≠ some subject := by
    intro keyed
    refine clear subject about ?_
    rw [← inScope]
    exact laid.keyed row inside subject keyed
  have scope : (canonicalInput env input).scope.withDefaultTenant = (canonicalInput env input).scope :=
    MemoryScope.withDefaultTenant_withDefaultTenant input.scope
  apply memoryPlan_congr env unmerged laid.config
  · intro subject about
    -- no row that lies over the store is selected, nor any row that one replaces
    rw [laid.memories]
    apply MemoryTable.findActiveBySubject_apart
    · intro row inside
      apply Bool.eq_false_iff.mpr
      intro listed
      obtain ⟨inScope,keyed,_⟩ := MemoryTable.beliefFilter_eq_true.mp listed
      exact apart about inside (inScope.trans scope) keyed
    · intro row inside old member equal
      obtain ⟨sameScope,sameSubject⟩ := laid.kept row inside old member equal
      apply Bool.eq_false_iff.mpr
      intro listed
      obtain ⟨inScope,keyed,_⟩ := MemoryTable.beliefFilter_eq_true.mp listed
      exact apart about inside (sameScope.symm.trans (inScope.trans scope)) (sameSubject.symm.trans keyed)
  · intro subject about m listed
    obtain ⟨old,member,rfl,inScope,keyed,_,_⟩ := MemoryTable.mem_findActiveBySubject.mp listed
    rw [MemoryTable.getEmbedding,MemoryTable.getEmbedding,laid.memories,MemoryTable.upsertRows_eq,
      Table.find_upsertAll]
    intro stored inside same
    obtain ⟨row,waiting,rfl⟩ := List.mem_map.mp inside
    obtain ⟨sameScope,sameSubject⟩ := laid.kept row waiting old member same.symm
    exact apart about waiting (sameScope.symm.trans (inScope.trans scope)) (sameSubject.symm.trans keyed)

theorem Overlay.push {b s t : Engine} {rows : List MemoryRow} {subjects more : List (String × String)} {d : Draw}
    {input : MemoryInput} {planned : Planned} (laid : Overlay b rows s subjects)
    (unmerged : Unmerged env b.config input) (ok : memoryPlan env b d input = .ok planned) (fresh : d.id ∉ b.memories.keys) (config : t.config = s.config)
    (memories : t.memories = s.memories.upsertRows planned.rows)
    (listed : ∀ subject, (canonicalInput env input).subject = some subject →
      (scopePartitionKey (canonicalInput env input).scope,subject) ∈ more) :
    Overlay b (rows ++ planned.rows) t (subjects ++ more) := by
  refine ⟨config.trans laid.config,?_,?_,?_⟩
  · rw [memories,laid.memories]
    exact (MemoryTable.upsertRows_append _ _ _).symm
  · intro row inside subject about
    rcases List.mem_append.mp inside with inside | inside
    · exact List.mem_append_left _ (laid.keyed row inside subject about)
    · obtain ⟨_,inScope,keyed⟩ := memoryPlan_rows env unmerged ok inside
      rw [inScope]
      exact List.mem_append_right _ (listed subject (keyed.symm.trans about))
  · intro row inside old member equal
    rcases List.mem_append.mp inside with inside | inside
    · exact laid.kept row inside old member equal
    · rcases (memoryPlan_rows env unmerged ok inside).1 with drawn | ⟨other,there,sameId,kept⟩
      · exact absurd ((Table.mem_keys _ _).mpr ⟨old,member,equal.trans drawn⟩) fresh
      · cases b.memories.eq_of_key member there (equal.trans sameId.symm)
        exact kept

/-- The loop is where the batch will be once its buffer is written, and what the buffer holds is about
the subjects that wait. -/
structure Mirrors (b : Engine) (buffer : Buffer) (s : Engine) (waiting : List (Option (String × String))) :
    Prop where
  config : s.config = b.config
  memories : s.memories = b.memories.upsertRows buffer.rows
  edges : s.edges = b.edges
  subjects : buffer.subjects = waiting.filterMap id
  idle : waiting = [] → buffer.rows = []
  keyed : ∀ row ∈ buffer.rows, ∀ subject, row.memory.subject = some subject →
    (scopePartitionKey row.memory.scope,subject) ∈ buffer.subjects
  kept : ∀ row ∈ buffer.rows, ∀ old ∈ b.memories.rows, old.id = row.id →
    old.memory.scope = row.memory.scope ∧ old.memory.subject = row.memory.subject
  news : ((buffer.rows.filter (fun row => row.id ∉ b.memories.keys)).map MemoryRow.id).Nodup
  grown : s.memories.total versionOf = b.memories.total versionOf + waiting.length

theorem Mirrors.empty {b s : Engine} (config : s.config = b.config) (memories : s.memories = b.memories)
    (edges : s.edges = b.edges) : Mirrors b ⟨[],[]⟩ s [] where
  config := config
  memories := memories
  edges := edges
  subjects := rfl
  idle := fun _ => rfl
  keyed := by simp
  kept := by simp
  news := by simp
  grown := by rw [memories]; rfl

theorem Mirrors.written {b s : Engine} {buffer : Buffer} {waiting : List (Option (String × String))}
    (mirrors : Mirrors b buffer s waiting) :
    ∃ after, memoryApplyRowsBatch b buffer.rows = .ok after ∧ Mirrors after ⟨[],[]⟩ s [] := by
  have goes : ∃ after, memoryApplyRowsBatch b buffer.rows = .ok after := by
    unfold memoryApplyRowsBatch
    split
    next => exact ⟨b,rfl⟩
    next =>
      rw [MemoryTable.upsertRawBatch_of_distinct mirrors.news]
      exact ⟨_,rfl⟩
  obtain ⟨after,ok⟩ := goes
  obtain ⟨_,tables,config⟩ := memoryApplyRowsBatch_ok b after buffer.rows ok
  refine ⟨after,ok,Mirrors.empty (mirrors.config.trans config.symm) ?_ ?_⟩
  · rw [mirrors.memories,memoryApplyRowsBatch_memories ok]
  · exact mirrors.edges.trans (congrArg Tables.edges tables).symm

theorem Mirrors.flush {b s : Engine} {buffer : Buffer} {waiting : List (Option (String × String))}
    (mirrors : Mirrors b buffer s waiting) (key : Option (String × String)) :
    ∃ after left, flushColliding b key buffer = .ok (after,left) ∧ left.collides key = false ∧
      Mirrors after left s (if waits waiting key then [] else waiting) := by
  have same : buffer.collides key = waits waiting key := by
    cases key with
    | none => rfl
    | some k => simp [Buffer.collides,waits,mirrors.subjects]
  unfold flushColliding
  by_cases collides : buffer.collides key = true
  · obtain ⟨after,ok,clean⟩ := mirrors.written
    refine ⟨after,⟨[],[]⟩,by simp [collides,ok],?_,by simpa [← same,collides] using clean⟩
    cases key with
    | none => rfl
    | some k => simp [Buffer.collides]
  · exact ⟨b,buffer,by simp [collides],by simpa using collides,by simpa [← same,collides] using mirrors⟩

theorem Mirrors.overlay {b s : Engine} {buffer : Buffer} {waiting : List (Option (String × String))}
    (mirrors : Mirrors b buffer s waiting) : Overlay b buffer.rows s buffer.subjects :=
  ⟨mirrors.config,mirrors.memories,mirrors.keyed,mirrors.kept⟩

theorem Mirrors.plan {b s : Engine} {buffer : Buffer} {waiting : List (Option (String × String))} {d : Draw}
    {input : MemoryInput} (mirrors : Mirrors b buffer s waiting) (unmerged : Unmerged env b.config input)
    (clear : buffer.collides (batchKey env input) = false) :
    memoryPlan env s d input = memoryPlan env b d input := by
  refine mirrors.overlay.plan env unmerged ?_
  intro subject about
  rw [batchKey_keyed env about] at clear
  exact of_decide_eq_false clear

theorem Mirrors.push {b s t : Engine} {buffer : Buffer} {waiting : List (Option (String × String))} {d : Draw}
    {input : MemoryInput} {planned : Planned} (mirrors : Mirrors b buffer s waiting)
    (unmerged : Unmerged env b.config input) (ok : memoryPlan env b d input = .ok planned)
    (same : memoryPlan env s d input = .ok planned) (fresh : d.id ∉ s.memories.keys) (config : t.config = s.config)
    (memories : t.memories = s.memories.upsertRows planned.rows) (edges : t.edges = s.edges) :
    Mirrors b (buffer.push (batchKey env input) planned.rows) t (waiting ++ [batchKey env input]) := by
  have subsumed {k : Uuid} (known : (∃ row ∈ buffer.rows, row.id = k) ∨ k ∈ b.memories.keys) :
      k ∈ s.memories.keys := by
    rw [mirrors.memories,MemoryTable.upsertRows_eq]
    apply Table.mem_keys_upsertAll
    rcases known with ⟨row,inside,rfl⟩ | old
    · exact Or.inl ⟨row.stored,List.mem_map_of_mem inside,rfl⟩
    · exact Or.inr old
  have laid : Overlay b (buffer.rows ++ planned.rows) t
      (buffer.subjects ++ (batchKey env input).toList) := by
    refine mirrors.overlay.push env unmerged ok (fun known => fresh (subsumed (Or.inr known))) config memories ?_
    intro subject about
    rw [batchKey_keyed env about]
    exact List.mem_singleton_self _
  refine ⟨laid.config,laid.memories,edges.trans mirrors.edges,?_,by simp,laid.keyed,laid.kept,?_,?_⟩
  · rw [Buffer.push,mirrors.subjects,List.filterMap_append]
    cases batchKey env input <;> rfl
  · rw [Buffer.push,List.filter_append,List.map_append]
    refine List.nodup_append'.mpr ⟨mirrors.news,?_,?_⟩
    · have single := memoryPlan_news env ok
      generalize planned.rows.filter (fun row => row.id ∉ b.memories.keys) = news at single
      match news with
      | [] => simp
      | [_] => simp
      | _ :: _ :: _ => simp at single
    · intro k first second
      obtain ⟨row,inside,rfl⟩ := List.mem_map.mp first
      obtain ⟨new,listed,equal⟩ := List.mem_map.mp second
      obtain ⟨planned,absent⟩ := List.mem_filter.mp listed
      rcases (memoryPlan_rows env unmerged ok planned).1 with drawn | ⟨old,member,sameId,_⟩
      · exact fresh (drawn ▸ equal ▸ subsumed (Or.inl ⟨row,(List.mem_filter.mp inside).1,rfl⟩))
      · exact of_decide_eq_true absent ((Table.mem_keys _ _).mpr ⟨old,member,sameId⟩)
  · have more := memoryPlan_total env same fresh
    rw [memories,more,mirrors.grown,List.length_append,List.length_singleton]
    omega

private theorem Mirrors.refused_iff {b b' s : Engine} {buffer buffer' : Buffer}
    {waiting : List (Option (String × String))} {input : MemoryInput} {d : Draw} {err : Error}
    (rest : List (MemoryInput × Draw)) (adds : List MemoryAdd) (mirrors : Mirrors b' buffer' s waiting)
    (flushed : flushColliding b (batchKey env input) buffer = .ok (b',buffer'))
    (failed : memoryPlan env b' d input = .error err) (same : memoryPlan env s d input = memoryPlan env b' d input) :
    Agree env ((input,d) :: rest) b buffer s adds ↔ waiting = [] := by
  have stays : memoryAdd env s d input = (.error err,s) := by simp [memoryAdd,same,failed]
  have loop : addLoop env ((input,d) :: rest) s adds = (.error err,s) := by simp [addLoop,stays]
  have batch : batchLoop env ((input,d) :: rest) b buffer adds = (.error err,b') := by
    simp [batchLoop,flushed,failed]
  constructor
  · intro agree
    -- a waiting plan would have raised the total of the versions
    have perm : b'.memories.rows.Perm s.memories.rows := by
      have perm := agree.memories
      rwa [batch,loop] at perm
    have level : b'.memories.total versionOf = s.memories.total versionOf := (perm.map versionOf).sum_nat
    have grown := mirrors.grown
    exact List.length_eq_zero_iff.mp (by omega)
  · intro idle
    have rows := mirrors.memories
    rw [mirrors.idle idle] at rows
    have equal : s.memories = b'.memories := rows
    refine ⟨?_,?_,?_,?_⟩
    · rw [batch,loop]
    · rw [batch,loop,equal]
    · rw [batch,loop,mirrors.edges]
    · simp [loopEvictions,stays]

theorem memoryPlan_unused {s : Engine} {d : Draw} {input : MemoryInput} {planned : Planned} {id : Uuid}
    (unmerged : Unmerged env s.config input) (ok : memoryPlan env s d input = .ok planned) (apart : id ≠ d.id)
    (unused : id ∉ s.memories.keys) : id ∉ (s.memories.upsertRows planned.rows).keys := by
  intro again
  obtain ⟨row,member,equal⟩ := (Table.mem_keys _ _).mp again
  rcases MemoryTable.mem_upsertRows member with ⟨new,written,rfl⟩ | ⟨old,_⟩
  · rcases (memoryPlan_rows env unmerged ok written).1 with drawn | ⟨old,there,sameId,_⟩
    · exact apart (equal.symm.trans drawn)
    · exact unused ((Table.mem_keys _ _).mpr ⟨old,there,sameId.trans equal⟩)
  · exact unused ((Table.mem_keys _ _).mpr ⟨row,old,equal⟩)

private theorem plain_of_edges {b s : Engine} {d : Draw} {input : MemoryInput} {planned : Planned}
    {buffer : Buffer} {rest : List (MemoryInput × Draw)} {adds : List MemoryAdd} (kept : s.edges = b.edges)
    (ok : memoryPlan env s d input = .ok planned)
    (edges : (batchLoop env rest b buffer adds).2.edges.rows.Perm
      (addLoop env rest (memoryAdd env s d input).2 adds).2.edges.rows)
    (none : addEvictions env s d input = []) : AddsPlainly env s d input := by
  intro other equal
  cases ok.symm.trans equal
  refine ⟨?_,(addEvictions_eq_nil_iff env ok).mp none⟩
  intro row inside edge derived
  -- an edge the loop adds stays, and the batch adds none
  have added : edge.id ∈ (memoryAdd env s d input).2.edges.keys := by
    rw [memoryAdd_planned env ok]
    change edge.id ∈ (evictOverCap _ _).tables.edges.keys
    rw [evictOverCap_tables]
    exact (memoryApplyRows_edges_keys env _ s _ _).mpr (Or.inr ⟨row,inside,edge,derived,rfl⟩)
  have final := addLoop_edges_keys env rest _ adds added
  rw [Table.keys,← (edges.map EdgeRow.id).mem_iff,batchLoop_edges] at final
  rw [kept]
  exact final

theorem Mirrors.agree_iff {b s : Engine} {buffer : Buffer} {waiting : List (Option (String × String))}
    (inputs : List (MemoryInput × Draw)) (adds : List MemoryAdd) (mirrors : Mirrors b buffer s waiting)
    (off : b.config.embedding = false) (unused : ∀ item ∈ inputs, item.2.id ∉ s.memories.keys)
    (distinct : (inputs.map (fun item => item.2.id)).Nodup) :
    Agree env inputs b buffer s adds ↔ Fits env inputs s waiting := by
  induction inputs generalizing b s buffer waiting adds with
  | nil =>
    obtain ⟨after,ok,clean⟩ := mirrors.written
    have same : after.memories = s.memories := clean.memories.symm
    refine iff_of_true ⟨?_,?_,?_,rfl⟩ trivial <;> simp [batchLoop,addLoop,ok,same,clean.edges]
  | cons head rest ih =>
    obtain ⟨input,d⟩ := head
    obtain ⟨first,others⟩ := List.nodup_cons.mp distinct
    obtain ⟨b',buffer',flushed,clear,mirrors'⟩ := mirrors.flush (batchKey env input)
    have off' : b'.config.embedding = false := by rw [flushColliding_config flushed,off]
    have unmerged : Unmerged env s.config input := Or.inl (by rw [mirrors.config,off])
    have same := mirrors'.plan env (Or.inl off') clear (d := d)
    have fresh : d.id ∉ s.memories.keys := unused (input,d) (by simp)
    cases ok : memoryPlan env b' d input with
    | error err =>
      have refused : ¬Accepts env s.config input := by
        rw [← memoryPlan_accepted env unmerged (d := d),same,ok]
        simp
      simp only [Fits,if_neg refused]
      exact mirrors'.refused_iff env rest adds flushed ok same
    | ok planned =>
      have planS : memoryPlan env s d input = .ok planned := same.trans ok
      have accepted : Accepts env s.config input := (memoryPlan_accepted env unmerged).mp ⟨planned,planS⟩
      have batch := batchLoop_planned env rest adds flushed ok
      have loop := addLoop_planned env rest adds planS
      have evicts := loopEvictions_planned env rest planS
      have next (plain : AddsPlainly env s d input) :
          Agree env rest b' (buffer'.push (batchKey env input) planned.rows) (memoryAdd env s d input).2
              (adds ++ [planned.add]) ↔
            Fits env rest (memoryAdd env s d input).2
              ((if waits waiting (batchKey env input) then [] else waiting) ++ [batchKey env input]) := by
        obtain ⟨_,memories,edges⟩ := memoryAdd_plain env planS plain
        apply ih _ (mirrors'.push env (Or.inl off') ok planS fresh (memoryAdd_config env s d input) memories edges)
          off' _ others
        intro item inside
        have apart : item.2.id ≠ d.id := fun equal => first (List.mem_map.mpr ⟨item,inside,equal⟩)
        rw [memories]
        exact memoryPlan_unused env unmerged planS apart (unused item (List.mem_cons_of_mem _ inside))
      simp only [Fits,if_pos accepted]
      constructor
      · intro agree
        obtain ⟨outcomes,memories,edges,evictions⟩ := agree
        rw [batch,loop] at outcomes memories edges
        rw [evicts,List.append_eq_nil_iff] at evictions
        have plain := plain_of_edges env mirrors'.edges planS edges evictions.1
        exact ⟨plain,(next plain).mp ⟨outcomes,memories,edges,evictions.2⟩⟩
      · intro given
        obtain ⟨plain,fits⟩ := given
        obtain ⟨outcomes,memories,edges,evictions⟩ := (next plain).mpr fits
        have none := (addEvictions_eq_nil_iff env planS).mpr (plain planned planS).2
        refine ⟨?_,?_,?_,?_⟩
        · rw [batch,loop]
          exact outcomes
        · rw [batch,loop]
          exact memories
        · rw [batch,loop]
          exact edges
        · rw [evicts,none,evictions]
          rfl

/-- Without an embedding provider, and with ids that are new, `memory_add_batch` does what `memory_add`
on each input does exactly when the inputs fit. -/
theorem batch_agrees_iff (e : Engine) (inputs : List (MemoryInput × Draw))
    (off : e.config.embedding = false) (fresh : ∀ item ∈ inputs, item.2.id ∉ e.memories.keys)
    (distinct : (inputs.map (fun item => item.2.id)).Nodup) :
    BatchAgrees env e inputs ↔ Fits env inputs e [] :=
  (Mirrors.empty rfl rfl rfl).agree_iff env inputs [] off fresh distinct

theorem Fits.of_permissive (inputs : List (MemoryInput × Draw)) (e : Engine)
    (waiting : List (Option (String × String))) (graph : e.config.cognition.autoGraph = false)
    (cap : e.config.cognition.maxMemoriesPerScope = 0) (governed : ∀ input, Accepts env e.config input) :
    Fits env inputs e waiting := by
  induction inputs generalizing e waiting with
  | nil => trivial
  | cons head rest ih =>
    have config := memoryAdd_config env e head.2 head.1
    simp only [Fits,if_pos (governed head.1)]
    refine ⟨?_,ih _ _ (by rw [config]; exact graph) (by rw [config]; exact cap) (by rw [config]; exact governed)⟩
    intro planned _
    exact ⟨by simp [graphEdges,graph],Or.inl cap⟩

end

private def corpusInput (subject : Option String) (content : String) : MemoryInput :=
  { MemoryInput.new (.tenant "acme") content with subject := subject }

def corpus : List (MemoryInput × Draw) :=
  [(corpusInput (some "Plan") "free",.plain 1000 1),(corpusInput (some "city") "Oslo",.plain 2000 2),
    (corpusInput (some " plan") "pro",.plain 3000 3),(corpusInput none "call back",.plain 4000 4)]

theorem batch_agrees_corpus : BatchAgrees .ascii (.empty .default 2) corpus :=
  (batch_agrees_iff .ascii (.empty .default 2) corpus rfl (by decide +kernel) (by decide +kernel)).mpr
    (Fits.of_permissive .ascii corpus _ [] rfl rfl (fun _ => rfl))

def graphConfig : CoreConfig :=
  { CoreConfig.default with cognition := { CoreConfig.default.cognition with autoGraph := true } }

private theorem ada_edges :
    ((addLoop .ascii [(corpusInput none "Ada likes tea",.plain 1000 1)] (.empty graphConfig 2) []).2.edges.rows.map
      (fun row => row.edge.dst)) = ["tea"] := by
  decide +kernel

/-- One memory added alone puts an edge in the graph; added as a batch of one it does not. -/
theorem batch_skips_graph :
    graphConfig.embedding = false ∧
      ¬BatchAgrees .ascii (.empty graphConfig 2) [(corpusInput none "Ada likes tea",.plain 1000 1)] := by
  refine ⟨rfl,?_⟩
  intro agree
  have same := (agree.edges.map (fun row => row.edge.dst)).length_eq
  rw [ada_edges,batchLoop_edges] at same
  cases same

end Ecphoria
