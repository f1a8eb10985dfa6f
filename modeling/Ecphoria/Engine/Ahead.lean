import Ecphoria.Engine.Batch

/-! Planning ahead. The facts of one text are added one by one, or are all planned against
the store as it stands and written afterwards. A plan made ahead is the plan of its turn
when no earlier fact of the text is about the same subject. -/
namespace Ecphoria
open Library

def Memory.timeless (m : Memory) : Memory :=
  { m with validFrom := 0, validTo := m.validTo.map (fun _ => 0), createdAt := 0, updatedAt := 0 }

/-- The same versions of everything, and the same chains: all but the clock readings. -/
def SameVersions (t u : MemoryTable) : Prop := (t.memories.map Memory.timeless).Perm (u.memories.map Memory.timeless)

section
variable (env : Env)

def rememberInputs (e : Engine) (rawText : String) (scope : MemoryScope) (reply : Option String) (draws : Nat → Draw) :
    List (MemoryInput × Draw) :=
  withDraws ((extractFacts env e.config reply rawText).map (factInput scope)) draws

def memoryRememberPlan (e : Engine) (rawText : String) (scope : MemoryScope) (reply : Option String)
    (draws : Nat → Draw) : Except Error (List (Planned × Draw)) :=
  planAll env e (rememberInputs env e rawText scope reply draws)

/-- What the change-sets of a plan leave, applied in order. A plan that fails has none. -/
def appliedAhead (e : Engine) : Except Error (List (Planned × Draw)) → Engine
  | .error _ => e
  | .ok plans => applyPlans env e plans

/-- Facts of one text: all in one scope, of no project and dated by the clock. -/
structure Facts (scope : MemoryScope) (inputs : List (MemoryInput × Draw)) : Prop where
  scope : ∀ item ∈ inputs, item.1.scope = scope
  project : ∀ item ∈ inputs, item.1.project = none
  undated : ∀ item ∈ inputs, item.1.validFrom = none

def planRows (plans : List (Planned × Draw)) : List MemoryRow := plans.flatMap (fun plan => plan.1.rows)

/-- What a fact finds of its subject in its turn is what it found ahead; or, in review mode, the newest there is the same, or
has another text both times. -/
def PlansAlike (e : Engine) (t : MemoryTable) (input : MemoryInput) : Prop :=
  ∀ subject, (canonicalInput env input).subject = some subject →
    let ahead := e.memories.findActiveBySubject (canonicalInput env input).scope subject none
    let now := t.findActiveBySubject (canonicalInput env input).scope subject none
    now = ahead ∨ e.config.cognition.contradictionReview = true ∧
      (now.head? = ahead.head? ∨ ∀ m, ahead.head? = some m ∨ now.head? = some m → trim m.content ≠ trim input.content)

/-- The plans are those of the turns, and the scope stays within the cap while they are written: over every store that the
plans so far leave. -/
structure Uncrossed (e : Engine) (t : MemoryTable) (scope : MemoryScope) (inputs : List (MemoryInput × Draw))
    (plans : List (Planned × Draw)) : Prop where
  found : ∀ n (inside : n < inputs.length), PlansAlike env e (t.upsertRows (planRows (plans.take n))) inputs[n].1
  room : e.config.cognition.maxMemoriesPerScope = 0 ∨ ∀ n < plans.length,
    (t.upsertRows (planRows (plans.take (n + 1)))).countActive scope.withDefaultTenant ≤ e.config.cognition.maxMemoriesPerScope

/-- When planning ahead is adding one by one: governance refuses the first fact, or it takes all of them, no fact
crosses an earlier one, and nothing has to go. -/
def PlansAlone (e : Engine) (scope : MemoryScope) (inputs : List (MemoryInput × Draw)) : Prop :=
  (∃ first rest, inputs = first :: rest ∧ ¬Accepts env e.config first.1) ∨
    (∀ item ∈ inputs, Accepts env e.config item.1) ∧
      ∀ plans, planAll env e inputs = .ok plans → Uncrossed env e e.memories scope inputs plans

theorem planAll_cons {e : Engine} {input : MemoryInput} {d : Draw} {rest : List (MemoryInput × Draw)}
    {plans : List (Planned × Draw)} (ok : planAll env e ((input,d) :: rest) = .ok plans) :
    ∃ planned later, memoryPlan env e d input = .ok planned ∧ planAll env e rest = .ok later ∧
      plans = (planned,d) :: later := by
  rw [planAll] at ok
  split at ok
  next => cases ok
  next planned first =>
    split at ok
    next => cases ok
    next later rest =>
      cases ok
      exact ⟨planned,later,first,rest,rfl⟩

theorem planAll_accepted {e : Engine} (off : e.config.embedding = false) (inputs : List (MemoryInput × Draw))
    (accepted : ∀ item ∈ inputs, Accepts env e.config item.1) : ∃ plans, planAll env e inputs = .ok plans := by
  induction inputs with
  | nil => exact ⟨[],rfl⟩
  | cons head rest ih =>
    obtain ⟨later,ok⟩ := ih (fun item inside => accepted item (List.mem_cons_of_mem head inside))
    obtain ⟨planned,first⟩ := (memoryPlan_accepted env (Or.inl off)).mpr (accepted head List.mem_cons_self)
    exact ⟨(planned,head.2) :: later,by rw [planAll,first,ok]⟩

theorem memoryPlan_scope {e : Engine} {d : Draw} {input : MemoryInput} {planned : Planned}
    (off : e.config.embedding = false) (ok : memoryPlan env e d input = .ok planned) :
    planned.add.memory.scope = (canonicalInput env input).scope := by
  have listed : ∃ row ∈ planned.rows, row.memory = planned.add.memory := by
    cases (memoryPlanWithEmbedding_cases env ok).2 with
    | confirmed => exact ⟨_,List.mem_singleton_self _,rfl⟩
    | conflict => exact ⟨_,List.mem_singleton_self _,rfl⟩
    | superseded => exact ⟨_,List.mem_append_right _ (List.mem_singleton_self _),rfl⟩
    | merged => exact ⟨_,List.mem_cons_of_mem _ (List.mem_singleton_self _),rfl⟩
    | inserted => exact ⟨_,List.mem_singleton_self _,rfl⟩
  obtain ⟨row,inside,same⟩ := listed
  rw [← same]
  exact (memoryPlan_rows env (Or.inl off) ok inside).2.1

/-- In review mode a fact is written beside what there is, whether there is something or not, unless the newest confirms it. -/
theorem memoryPlan_beside {e : Engine} {d : Draw} {input : MemoryInput} {planned : Planned} {subject : String}
    (off : e.config.embedding = false) (ok : memoryPlan env e d input = .ok planned)
    (about : (canonicalInput env input).subject = some subject) (project : input.project = none)
    (undated : input.validFrom = none) (review : e.config.cognition.contradictionReview = true)
    (differs : ∀ m, (e.memories.findActiveBySubject (canonicalInput env input).scope subject none).head? = some m →
      trim m.content ≠ trim input.content) :
    planned.rows = (planInserted d (canonicalInput env input) (importanceOf e input) none).rows := by
  have none : e.embedMemoryContent d = none := by simp [Engine.embedMemoryContent,off]
  rw [memoryPlan,none] at ok
  simp only [memoryPlanWithEmbedding,about] at ok
  split at ok
  next => cases ok
  next =>
    cases ok
    have grouped : (canonicalInput env input).project = Option.none := project
    unfold planSubject
    rw [grouped]
    split
    next => rfl
    next existing others found =>
      have other : trim existing.content ≠ trim (canonicalInput env input).content :=
        differs existing (by rw [found]; rfl)
      have dated : (canonicalInput env input).validFrom = Option.none := undated
      rw [if_neg other,if_pos review]
      simp only [planConflict,planInserted,Planned.rows,draftMemory,Memory.new,about,grouped,dated,Option.getD_none]
      rfl

theorem memoryPlan_newest {e f : Engine} {d : Draw} {input : MemoryInput} {subject : String} (config : f.config = e.config) (about : (canonicalInput env input).subject = some subject) (project : input.project = none)
    (review : e.config.cognition.contradictionReview = true)
    (newest : (f.memories.findActiveBySubject (canonicalInput env input).scope subject none).head? =
      (e.memories.findActiveBySubject (canonicalInput env input).scope subject none).head?)
    (vectors : ∀ m ∈ e.memories.findActiveBySubject (canonicalInput env input).scope subject none,
      m ∈ f.memories.findActiveBySubject (canonicalInput env input).scope subject none →
      f.memories.getEmbedding m.id = e.memories.getEmbedding m.id) :
    memoryPlan env f d input = memoryPlan env e d input := by
  have vector : f.embedMemoryContent d = e.embedMemoryContent d := by simp [Engine.embedMemoryContent,config]
  have grouped : (canonicalInput env input).project = none := project
  simp only [memoryPlan,memoryPlanWithEmbedding,vector,config,about]
  split
  next => rfl
  next =>
    unfold planSubject
    rw [grouped]
    cases ahead : e.memories.findActiveBySubject (canonicalInput env input).scope subject none with
    | nil =>
      rw [ahead,List.head?_nil,List.head?_eq_none_iff] at newest
      simp only [newest,importanceOf,config]
    | cons existing others =>
      rw [ahead,List.head?_cons] at newest
      obtain ⟨later,now⟩ := List.head?_eq_some_iff.mp newest
      have stored := vectors existing (by rw [ahead]; exact List.mem_cons_self) (by rw [now]; exact List.mem_cons_self)
      simp only [now,importanceOf,config,planConfirmed,stored,review,if_true]

def subjectKey (input : MemoryInput) : Option (String × String) :=
  (canonicalInput env input).subject.map (fun subject => (scopePartitionKey (canonicalInput env input).scope,subject))

/-- The rows of the facts so far lie over the store; an active one that takes the place of a stored one is a later version of it. -/
structure Forward (b : Engine) (rows : List MemoryRow) (s : Engine) (done : List (MemoryInput × Draw)) : Prop extends
    Overlay b rows s (done.filterMap (fun item => subjectKey env item.1)) where
  later : ∀ row ∈ rows, row.memory.state = .active → ∀ old ∈ b.memories.rows, old.id = row.id →
    row.memory.version ≠ old.memory.version

theorem Forward.start (e : Engine) : Forward env e [] e [] := ⟨⟨rfl,rfl,by simp,by simp⟩,by simp⟩

theorem Forward.getEmbedding {b s : Engine} {rows : List MemoryRow} {done : List (MemoryInput × Draw)}
    (forward : Forward env b rows s done) {scope : MemoryScope} {subject : String} {m : Memory}
    (ahead : m ∈ b.memories.findActiveBySubject scope subject none)
    (now : m ∈ s.memories.findActiveBySubject scope subject none) :
    s.memories.getEmbedding m.id = b.memories.getEmbedding m.id := by
  obtain ⟨old,stored,rfl,_,_,_,active⟩ := MemoryTable.mem_findActiveBySubject.mp ahead
  obtain ⟨row,inside,same,_⟩ := MemoryTable.mem_findActiveBySubject.mp now
  have ids : old.id = row.id := (congrArg Memory.id same).symm
  have kept : row = old := by
    have member := inside
    rw [forward.memories] at member
    rcases MemoryTable.mem_upsertRows member with ⟨written,listed,rfl⟩ | ⟨there,_⟩
    · exact absurd (congrArg Memory.version same) (forward.later written listed
        ((congrArg Memory.state same).trans active) old stored ids)
    · exact b.memories.eq_of_key there stored ids.symm
  have before : b.memories.find old.id = some old := (Table.find_eq_some _ _ _).mpr ⟨stored,rfl⟩
  have after : s.memories.find old.id = some old := (Table.find_eq_some _ _ _).mpr ⟨kept ▸ inside,rfl⟩
  rw [MemoryTable.getEmbedding,MemoryTable.getEmbedding,show old.memory.id = old.id from rfl,before,after]

theorem Forward.plan {b s : Engine} {rows : List MemoryRow} {done : List (MemoryInput × Draw)}
    {input : MemoryInput} {d : Draw} (forward : Forward env b rows s done) (off : b.config.embedding = false)
    (project : input.project = none) (undated : input.validFrom = none) (accepted : Accepts env b.config input)
    (found : PlansAlike env b s.memories input) :
    ∃ planned turn, memoryPlan env b d input = .ok planned ∧ memoryPlan env s d input = .ok turn ∧
      turn.rows = planned.rows := by
  have offS : s.config.embedding = false := by rw [forward.config,off]
  obtain ⟨planned,ok⟩ := (memoryPlan_accepted env (Or.inl off) (d := d)).mpr accepted
  obtain ⟨turn,okS⟩ := (memoryPlan_accepted env (Or.inl offS) (d := d)).mpr (show Accepts env s.config input by rwa [forward.config])
  have agreed (same : memoryPlan env s d input = memoryPlan env b d input) : turn.rows = planned.rows := by
    rw [okS,ok] at same
    cases same
    rfl
  refine ⟨planned,turn,ok,okS,?_⟩
  cases about : (canonicalInput env input).subject with
  | none =>
    refine agreed (memoryPlan_congr env (Or.inl off) forward.config ?_ ?_)
    all_goals
      intro subject keyed
      cases about.symm.trans keyed
  | some subject =>
    have vectors : ∀ m ∈ b.memories.findActiveBySubject (canonicalInput env input).scope subject none,
        m ∈ s.memories.findActiveBySubject (canonicalInput env input).scope subject none →
        s.memories.getEmbedding m.id = b.memories.getEmbedding m.id :=
      fun m before after => forward.getEmbedding env before after
    rcases found subject about with same | ⟨review,newest | differs⟩
    · refine agreed (memoryPlan_congr env (Or.inl off) forward.config ?_ ?_)
      · intro other keyed
        cases about.symm.trans keyed
        rw [project]
        exact same
      · intro other keyed m before
        cases about.symm.trans keyed
        rw [project] at before
        exact vectors m before (same.symm ▸ before)
    · exact agreed (memoryPlan_newest env forward.config about project review newest vectors)
    · have reviewS : s.config.cognition.contradictionReview = true := by rwa [forward.config]
      rw [memoryPlan_beside env off ok about project undated review (fun m head => differs m (Or.inl head)),
        memoryPlan_beside env offS okS about project undated reviewS (fun m head => differs m (Or.inr head)),importanceOf,
        importanceOf,forward.config]

/-- A plan that takes the place of an active memory by an active one counts its version on. -/
theorem memoryPlan_later {e : Engine} {d : Draw} {input : MemoryInput} {planned : Planned}
    (off : e.config.embedding = false) (ok : memoryPlan env e d input = .ok planned) (fresh : d.id ∉ e.memories.keys)
    {row : MemoryRow} (inside : row ∈ planned.rows) (active : row.memory.state = .active) {old : MemoryRow}
    (stored : old ∈ e.memories.rows) (same : old.id = row.id) : row.memory.version ≠ old.memory.version := by
  have known (drawn : row.id = d.id) : False :=
    fresh ((Table.mem_keys _ _).mpr ⟨old,stored,same.trans drawn⟩)
  have none : e.embedMemoryContent d = none := by simp [Engine.embedMemoryContent,off]
  rw [memoryPlan,none] at ok
  cases (memoryPlanWithEmbedding_cases env ok).2 with
  | confirmed other existing others given found equal =>
    cases List.mem_singleton.mp inside
    have listed : existing ∈ e.memories.findActiveBySubject (canonicalInput env input).scope other input.project :=
      found ▸ List.mem_cons_self
    obtain ⟨first,there,rfl,_⟩ := MemoryTable.mem_findActiveBySubject.mp listed
    cases e.memories.eq_of_key stored there same
    exact Nat.succ_ne_self _
  | conflict =>
    cases List.mem_singleton.mp inside
    exact (known rfl).elim
  | superseded other existing others given found differs =>
    rcases List.mem_append.mp inside with closed | new
    · obtain ⟨m,_,rfl⟩ := List.mem_map.mp closed
      cases active
    · cases List.mem_singleton.mp new
      exact (known rfl).elim
  | merged top unkeyed hit => cases hit
  | inserted =>
    cases List.mem_singleton.mp inside
    exact (known rfl).elim

theorem Forward.loop {scope : MemoryScope} {b s : Engine} {rows : List MemoryRow} {done : List (MemoryInput × Draw)}
    (forward : Forward env b rows s done) (off : b.config.embedding = false)
    (inputs : List (MemoryInput × Draw)) (out : List MemoryAdd) (facts : Facts scope inputs)
    (accepted : ∀ item ∈ inputs, Accepts env b.config item.1) (fresh : ∀ item ∈ inputs, item.2.id ∉ b.memories.keys)
    (plans : List (Planned × Draw)) (ok : planAll env b inputs = .ok plans)
    (uncrossed : Uncrossed env b s.memories scope inputs plans) :
    (addLoop env inputs s out).2.memories = s.memories.upsertRows (planRows plans) := by
  induction inputs generalizing s rows done out plans with
  | nil =>
    cases ok
    rfl
  | cons head rest ih =>
    obtain ⟨input,d⟩ := head
    obtain ⟨planned,later,first,restOk,rfl⟩ := planAll_cons env ok
    have placed : (canonicalInput env input).scope = scope.withDefaultTenant :=
      congrArg MemoryScope.withDefaultTenant (facts.scope (input,d) List.mem_cons_self)
    have project := facts.project (input,d) List.mem_cons_self
    have unseen := fresh (input,d) List.mem_cons_self
    obtain ⟨planned',turn,ahead,now,same⟩ := forward.plan env (d := d) off project
      (facts.undated (input,d) List.mem_cons_self) (accepted (input,d) List.mem_cons_self)
      (uncrossed.found 0 (Nat.succ_pos _))
    cases first.symm.trans ahead
    have offS : s.config.embedding = false := by rw [forward.config,off]
    have added : memoryAdd env s d input = (.ok turn.add,(memoryAdd env s d input).2) := by
      rw [memoryAdd_planned env now]
    have within : (memoryAdd env s d input).2.memories = s.memories.upsertRows planned.rows := by
      rw [memoryAdd_planned env now,memoryPlan_scope env offS now,placed,same]
      change (evictOverCap _ _).memories = _
      rw [evictOverCap_memories,memoryApplyRows_memories,memoryApplyRows_config,forward.config]
      apply MemoryTable.enforceScopeCap_of_within
      refine uncrossed.room.imp id ?_
      intro each
      simpa [planRows] using each 0 (Nat.succ_pos _)
    have next : Forward env b (rows ++ planned.rows) (memoryAdd env s d input).2 (done ++ [(input,d)]) := by
      refine ⟨?_,?_⟩
      · rw [List.filterMap_append]
        refine forward.toOverlay.push env (Or.inl off) first unseen (memoryAdd_config env s d input) within ?_
        intro subject about
        simp [subjectKey,about]
      · intro row inside active old stored equal
        rcases List.mem_append.mp inside with before | new
        · exact forward.later row before active old stored equal
        · exact memoryPlan_later env off first unseen new active stored equal
    have ahead (n : Nat) : (memoryAdd env s d input).2.memories.upsertRows (planRows (later.take n)) =
        s.memories.upsertRows (planRows (((planned,d) :: later).take (n + 1))) := by
      rw [within,List.take_succ_cons,planRows,planRows,List.flatMap_cons,MemoryTable.upsertRows_append]
    have onward : Uncrossed env b (memoryAdd env s d input).2.memories scope rest later := by
      refine ⟨fun n inside => ?_,uncrossed.room.imp id fun each n inside => ?_⟩
      · rw [ahead]
        exact uncrossed.found (n + 1) (Nat.succ_lt_succ inside)
      · rw [ahead]
        exact each (n + 1) (Nat.succ_lt_succ inside)
    rw [addLoop,added]
    have rest' := ih next (out ++ [turn.add])
      ⟨fun item inside => facts.scope item (List.mem_cons_of_mem _ inside),
        fun item inside => facts.project item (List.mem_cons_of_mem _ inside),
        fun item inside => facts.undated item (List.mem_cons_of_mem _ inside)⟩
      (fun item inside => accepted item (List.mem_cons_of_mem _ inside))
      (fun item inside => fresh item (List.mem_cons_of_mem _ inside)) later restOk onward
    change (addLoop env rest (memoryAdd env s d input).2 (out ++ [turn.add])).2.memories = _
    rw [rest',within,← MemoryTable.upsertRows_append]
    rfl

theorem planAll_first_refused {e : Engine} {first : MemoryInput × Draw} (off : e.config.embedding = false)
    (refused : ¬Accepts env e.config first.1) (rest : List (MemoryInput × Draw)) :
    ∃ err, planAll env e (first :: rest) = .error err ∧ addLoop env (first :: rest) e [] = (.error err,e) := by
  cases failed : memoryPlan env e first.2 first.1 with
  | ok planned => exact absurd ((memoryPlan_accepted env (Or.inl off)).mp ⟨planned,failed⟩) refused
  | error err => exact ⟨err,by simp [planAll,failed],by simp [addLoop,memoryAdd,failed]⟩

theorem planAll_addLoop {e : Engine} {scope : MemoryScope} {inputs : List (MemoryInput × Draw)}
    (off : e.config.embedding = false) (facts : Facts scope inputs) (fresh : ∀ item ∈ inputs, item.2.id ∉ e.memories.keys)
    (alone : PlansAlone env e scope inputs) :
    (appliedAhead env e (planAll env e inputs)).memories = (addLoop env inputs e []).2.memories := by
  rcases alone with ⟨first,rest,rfl,refused⟩ | ⟨accepted,uncrossed⟩
  · obtain ⟨err,planned,added⟩ := planAll_first_refused env off refused rest
    rw [planned,added]
    rfl
  · obtain ⟨plans,ok⟩ := planAll_accepted env off inputs accepted
    rw [ok,appliedAhead,applyPlans_memories]
    exact ((Forward.start env e).loop env off inputs [] facts accepted fresh plans ok (uncrossed plans ok)).symm

theorem facts_remember (e : Engine) (rawText : String) (scope : MemoryScope) (reply : Option String)
    (draws : Nat → Draw) : Facts scope (rememberInputs env e rawText scope reply draws) := by
  have made : ∀ item ∈ rememberInputs env e rawText scope reply draws, ∃ fact, item.1 = factInput scope fact := by
    intro item inside
    obtain ⟨fact,_,same⟩ := List.mem_map.mp (mem_withDraws inside).1
    exact ⟨fact,same.symm⟩
  constructor
  all_goals
    intro item inside
    obtain ⟨fact,same⟩ := made item inside
    rw [same]
    rfl

theorem facts_distill (e : Engine) (sessionId : String) (scope : MemoryScope) (reply : Option String)
    (draws : Nat → Draw) :
    Facts { scope with sessionId := some sessionId } (distillInputs env e sessionId scope reply draws) := by
  have made : ∀ item ∈ distillInputs env e sessionId scope reply draws, ∃ fact,
      item.1 = distillInput scope sessionId fact := by
    intro item inside
    simp only [distillInputs] at inside
    split at inside
    next => cases inside
    next =>
      obtain ⟨fact,_,same⟩ := List.mem_map.mp (mem_withDraws inside).1
      exact ⟨fact,same.symm⟩
  constructor
  all_goals
    intro item inside
    obtain ⟨fact,same⟩ := made item inside
    rw [same]
    rfl

theorem mem_planRows_take {e : Engine} {inputs : List (MemoryInput × Draw)} {plans : List (Planned × Draw)}
    (ok : planAll env e inputs = .ok plans) {n : Nat} {row : MemoryRow} (inside : row ∈ planRows (plans.take n)) :
    ∃ k, ∃ known : k < inputs.length, k < n ∧
      ∃ planned, memoryPlan env e inputs[k].2 inputs[k].1 = .ok planned ∧ row ∈ planned.rows := by
  induction inputs generalizing plans n with
  | nil =>
    cases ok
    rw [List.take_nil] at inside
    cases inside
  | cons head rest ih =>
    obtain ⟨planned,later,first,restOk,rfl⟩ := planAll_cons env ok
    cases n with
    | zero => cases inside
    | succ n =>
      rw [List.take_succ_cons,planRows,List.flatMap_cons,List.mem_append] at inside
      rcases inside with now | after
      · exact ⟨0,Nat.succ_pos _,Nat.succ_pos _,planned,first,now⟩
      · obtain ⟨k,known,before,written⟩ := ih restOk after
        exact ⟨k + 1,Nat.succ_lt_succ known,Nat.succ_lt_succ before,written⟩

theorem undisturbed_apart {e : Engine} {inputs : List (MemoryInput × Draw)} {plans : List (Planned × Draw)}
    (off : e.config.embedding = false) (ok : planAll env e inputs = .ok plans) (fresh : ∀ item ∈ inputs, item.2.id ∉ e.memories.keys)
    (apart : inputs.Pairwise (fun earlier later => ∀ subject, (canonicalInput env earlier.1).subject = some subject →
      (canonicalInput env later.1).subject ≠ some subject)) (n : Nat) (inside : n < inputs.length) :
    PlansAlike env e (e.memories.upsertRows (planRows (plans.take n))) inputs[n].1 := by
  intro subject about
  have other {row : MemoryRow} (written : row ∈ planRows (plans.take n)) : row.memory.subject ≠ some subject ∧
      ∀ old ∈ e.memories.rows, old.id = row.id → old.memory.subject ≠ some subject := by
    obtain ⟨k,known,before,planned,made,listed⟩ := mem_planRows_take env ok written
    obtain ⟨placed,_,keyed⟩ := memoryPlan_rows env (Or.inl off) made listed
    have apartK (same : row.memory.subject = some subject) : False :=
      List.pairwise_iff_getElem.mp apart k n known inside before subject (keyed.symm.trans same) about
    refine ⟨apartK,fun old stored same kept => ?_⟩
    rcases placed with drawn | ⟨first,there,ids,_,subjects⟩
    · exact fresh _ (List.getElem_mem known) ((Table.mem_keys _ _).mpr ⟨old,stored,same.trans drawn⟩)
    · cases e.memories.eq_of_key stored there (same.trans ids.symm)
      exact apartK (subjects.symm.trans kept)
  refine Or.inl (MemoryTable.findActiveBySubject_apart ?_ ?_)
  · intro row written
    refine Bool.eq_false_iff.mpr fun listed => ?_
    exact (other written).1 (MemoryTable.beliefFilter_eq_true.mp listed).2.1
  · intro row written old stored same
    refine Bool.eq_false_iff.mpr fun listed => ?_
    exact (other written).2 old stored same (MemoryTable.beliefFilter_eq_true.mp listed).2.1

/-- Without a provider, what is remembered or distilled by plans is what adding its facts one by one leaves, where the
facts plan alone. -/
theorem planned_ahead_agrees (e : Engine) (off : e.config.embedding = false) (draws : Nat → Draw)
    (fresh : ∀ n, (draws n).id ∉ e.memories.keys) (scope : MemoryScope) (reply : Option String) :
    (∀ rawText, PlansAlone env e scope (rememberInputs env e rawText scope reply draws) →
        SameVersions (appliedAhead env e (memoryRememberPlan env e rawText scope reply draws)).memories
          (memoryRemember env e rawText scope reply draws).2.memories) ∧
      ∀ sessionId, PlansAlone env e { scope with sessionId := some sessionId }
          (distillInputs env e sessionId scope reply draws) →
        SameVersions (appliedAhead env e (sessionDistillPlan env e sessionId scope reply draws)).memories
          (addLoop env (distillInputs env e sessionId scope reply draws) e []).2.memories := by
  constructor
  · intro rawText alone
    have drawn : ∀ item ∈ rememberInputs env e rawText scope reply draws, item.2.id ∉ e.memories.keys := by
      intro item inside
      obtain ⟨n,same⟩ := (mem_withDraws inside).2
      rw [same]
      exact fresh n
    have same : (appliedAhead env e (memoryRememberPlan env e rawText scope reply draws)).memories =
        (memoryRemember env e rawText scope reply draws).2.memories :=
      planAll_addLoop env off (facts_remember env e rawText scope reply draws) drawn alone
    rw [SameVersions,same]
  · intro sessionId alone
    have drawn : ∀ item ∈ distillInputs env e sessionId scope reply draws, item.2.id ∉ e.memories.keys := by
      intro item inside
      simp only [distillInputs] at inside
      split at inside
      next => cases inside
      next =>
        obtain ⟨n,same⟩ := (mem_withDraws inside).2
        rw [same]
        exact fresh n
    have same : (appliedAhead env e (sessionDistillPlan env e sessionId scope reply draws)).memories =
        (addLoop env (distillInputs env e sessionId scope reply draws) e []).2.memories :=
      planAll_addLoop env off (facts_distill env e sessionId scope reply draws) drawn alone
    rw [SameVersions,same]

end

/-- An answer with two facts, about the given subjects. -/
def twoFacts (first second : String) : String :=
  "[\x7b\"subject\":\"" ++ first ++ "\",\"content\":\"free\"\x7d,\x7b\"subject\":\"" ++ second ++
    "\",\"content\":\"pro\"\x7d]"

def parseTwoFacts (first second text : String) : Option Json :=
  if text = twoFacts first second then
    some (.arr [.obj [("content",.str "free"),("subject",.str first)],.obj [("content",.str "pro"),("subject",.str second)]])
  else none

def Env.reading (first second : String) : Env := { Env.ascii with parseJson := parseTwoFacts first second }

def extractingConfig : CoreConfig :=
  { CoreConfig.default with
    cognition := { CoreConfig.default.cognition with extraction := "llm" }
    completion := true }

def numberedDraw (n : Nat) : Draw := .plain (1000 * (n + 1)) ⟨BitVec.ofNat 128 (n + 1)⟩

theorem planned_ahead_agrees_two :
    PlansAlone (.reading "plan" "city") (.empty extractingConfig 2) (.tenant "acme")
        (rememberInputs (.reading "plan" "city") (.empty extractingConfig 2) "Pro, in Oslo." (.tenant "acme")
          (some (twoFacts "plan" "city")) numberedDraw) ∧
      SameVersions
        (appliedAhead (.reading "plan" "city") (.empty extractingConfig 2) (memoryRememberPlan (.reading "plan" "city")
          (.empty extractingConfig 2) "Pro, in Oslo." (.tenant "acme") (some (twoFacts "plan" "city")) numberedDraw)).memories
        (memoryRemember (.reading "plan" "city") (.empty extractingConfig 2) "Pro, in Oslo." (.tenant "acme")
          (some (twoFacts "plan" "city")) numberedDraw).2.memories := by
  have alone : PlansAlone (.reading "plan" "city") (.empty extractingConfig 2) (.tenant "acme")
      (rememberInputs (.reading "plan" "city") (.empty extractingConfig 2) "Pro, in Oslo." (.tenant "acme")
        (some (twoFacts "plan" "city")) numberedDraw) := by
    refine Or.inr ⟨fun item inside => rfl,fun plans ok => ⟨?_,Or.inl rfl⟩⟩
    refine undisturbed_apart _ rfl ok (fun item inside => List.not_mem_nil) ?_
    have subjects : (rememberInputs (.reading "plan" "city") (.empty extractingConfig 2) "Pro, in Oslo." (.tenant "acme")
        (some (twoFacts "plan" "city")) numberedDraw).Pairwise (fun earlier later =>
          (canonicalInput (.reading "plan" "city") earlier.1).subject ≠
            (canonicalInput (.reading "plan" "city") later.1).subject) := by decide +kernel
    exact subjects.imp fun differ subject left right => differ (left.trans right.symm)
  exact ⟨alone,(planned_ahead_agrees (.reading "plan" "city") (.empty extractingConfig 2) rfl numberedDraw
    (fun n => List.not_mem_nil) (.tenant "acme") (some (twoFacts "plan" "city"))).1 "Pro, in Oslo." alone⟩

/-- Both facts are about one subject: planned ahead, both become active; one by one, the second supersedes the first. -/
theorem planned_ahead_parts :
    ¬SameVersions
      (appliedAhead (.reading "plan" "plan") (.empty extractingConfig 2) (memoryRememberPlan (.reading "plan" "plan")
        (.empty extractingConfig 2) "Moved to pro." (.tenant "acme") (some (twoFacts "plan" "plan")) numberedDraw)).memories
      (memoryRemember (.reading "plan" "plan") (.empty extractingConfig 2) "Moved to pro." (.tenant "acme")
        (some (twoFacts "plan" "plan")) numberedDraw).2.memories := by
  intro same
  have counts := (same.filter (fun m => m.state = .active)).length_eq
  revert counts
  decide +kernel

end Ecphoria
