import Ecphoria.Engine.Belief
import Mathlib.Data.List.Pairwise

/-! The valid-time line of one subject under `memory_add`. Its versions stand in the
table oldest first, each closed where the next one opens. The boundary is chosen at
nanosecond precision and stored at microsecond precision, so a version is lost when
its successor falls inside the microsecond it opened in. -/
namespace Ecphoria
open Library

def Covers (m : Memory) (instant : Int) : Prop :=
  m.validFrom ≤ instant ∧ ∀ stop, m.validTo = some stop → instant < stop

def About (k : BeliefKey) (m : Memory) : Prop :=
  m.scope = k.scope ∧ m.project = k.project ∧ m.subject = some k.subject

def Precedes (a b : MemoryRow) : Prop :=
  ∃ stop, a.memory.validTo = some stop ∧ stop ≤ b.memory.validFrom

/-- The versions of a subject in the order of the table: closed ones, then the current one. -/
structure Versions (k : BeliefKey) (closed : List MemoryRow) (current : MemoryRow) : Prop where
  about : ∀ row ∈ closed ++ [current], About k row.memory
  stored : ∀ row ∈ closed ++ [current], micros row.memory.validFrom = row.memory.validFrom
  ended : ∀ row ∈ closed, row.memory.state = .superseded ∧
    ∃ stop, row.memory.validTo = some stop ∧ micros stop = stop ∧ row.memory.validFrom < stop
  ordered : (closed ++ [current]).Pairwise Precedes
  active : current.memory.state = .active
  unbounded : current.memory.validTo = none

def History (k : BeliefKey) (t : MemoryTable) : Prop :=
  t.rows = [] ∨ ∃ closed current, t.rows = closed ++ [current] ∧ Versions k closed current

/-- What the bi-temporal layer promises of the versions of one subject. -/
structure TimelineLaw (env : Env) (k : BeliefKey) (e : Engine) : Prop where
  disjoint : ∀ a ∈ e.memories.rows, ∀ b ∈ e.memories.rows, ∀ instant,
    Covers a.memory instant → Covers b.memory instant → a = b
  current : e.memories.rows ≠ [] → ∃ row ∈ e.memories.rows, row.memory.state = .active ∧
    ∀ other ∈ e.memories.rows, other.memory.validTo = none ↔ other = row
  asOf : ∀ scope subject, scope.withDefaultTenant = k.scope → normalizeSubject env subject = k.subject →
    ∀ instant m, memoryAsOf env e scope subject instant = some m ↔
      ∃ row ∈ e.memories.rows, row.memory = m ∧ Covers m instant
  reachable : ∀ row ∈ e.memories.rows, ∃ instant, Covers row.memory instant

theorem Versions.nonempty {k : BeliefKey} {closed : List MemoryRow} {current : MemoryRow}
    (versions : Versions k closed current) {row : MemoryRow} (member : row ∈ closed ++ [current]) :
    Covers row.memory row.memory.validFrom := by
  refine ⟨le_refl _,?_⟩
  intro stop bounded
  rcases List.mem_append.mp member with inside | inside
  · obtain ⟨_,finish,equal,_,less⟩ := versions.ended row inside
    cases bounded.symm.trans equal
    exact less
  · cases List.mem_singleton.mp inside
    rw [versions.unbounded] at bounded
    cases bounded

theorem Versions.disjoint {k : BeliefKey} {closed : List MemoryRow} {current : MemoryRow}
    (versions : Versions k closed current) {a b : MemoryRow} {instant : Int} (memberA : a ∈ closed ++ [current])
    (memberB : b ∈ closed ++ [current]) (coversA : Covers a.memory instant) (coversB : Covers b.memory instant) :
    a = b := by
  have never (x y : MemoryRow) (order : Precedes x y) (covers : Covers x.memory instant)
      (later : Covers y.memory instant) : False := by
    obtain ⟨stop,equal,le⟩ := order
    have before := covers.2 stop equal
    have opened := later.1
    omega
  by_contra apart
  have symmetric : Std.Symm (fun x y => Precedes x y ∨ Precedes y x) := ⟨fun _ _ => Or.symm⟩
  have either : (closed ++ [current]).Pairwise (fun x y => Precedes x y ∨ Precedes y x) :=
    versions.ordered.imp (fun order => Or.inl order)
  rcases either.forall memberA memberB apart with order | order
  · exact never a b order coversA coversB
  · exact never b a order coversB coversA

theorem Versions.covers_iff {k : BeliefKey} {closed : List MemoryRow} {current row : MemoryRow}
    (versions : Versions k closed current) (member : row ∈ closed ++ [current]) (scope : MemoryScope)
    (tenant : scope.withDefaultTenant = k.scope) (instant : Int) :
    MemoryTable.validAt scope k.subject instant row.memory = true ↔ Covers row.memory instant := by
  obtain ⟨inScope,_,keyed⟩ := versions.about row member
  have opened := versions.stored row member
  have matching : scope.matchesRow row.memory.scope = true :=
    (MemoryScope.matchesRow_iff _ _).mpr (inScope.trans tenant.symm)
  simp only [MemoryTable.validAt,Covers,matching,keyed,decide_true,Bool.true_and,Bool.and_eq_true,
    decide_eq_true_eq,le_micros_iff opened]
  refine and_congr_right ?_
  intro _
  rcases List.mem_append.mp member with inside | inside
  · obtain ⟨_,stop,equal,exact,_⟩ := versions.ended row inside
    simp [equal,micros_lt_iff exact]
  · cases List.mem_singleton.mp inside
    simp [versions.unbounded]

theorem Versions.asOf_iff {k : BeliefKey} {closed : List MemoryRow} {current : MemoryRow} {t : MemoryTable}
    (rows : t.rows = closed ++ [current]) (versions : Versions k closed current) (scope : MemoryScope)
    (tenant : scope.withDefaultTenant = k.scope) (instant : Int) (m : Memory) :
    t.asOf scope k.subject instant = some m ↔ ∃ row ∈ t.rows, row.memory = m ∧ Covers m instant := by
  have selected (x : Memory) :
      x ∈ t.memories.filter (MemoryTable.validAt scope k.subject instant) ↔
        ∃ row ∈ closed ++ [current], row.memory = x ∧ Covers x instant := by
    simp only [List.mem_filter,MemoryTable.memories,rows,List.mem_map]
    constructor
    · intro given
      obtain ⟨⟨row,member,rfl⟩,valid⟩ := given
      exact ⟨row,member,rfl,(versions.covers_iff member scope tenant instant).mp valid⟩
    · intro given
      obtain ⟨row,member,rfl,covers⟩ := given
      exact ⟨⟨row,member,rfl⟩,(versions.covers_iff member scope tenant instant).mpr covers⟩
  rw [rows,← selected,MemoryTable.asOf,MemoryTable.asOfScan]
  constructor
  · intro first
    exact (List.mem_insertionSort _).mp (List.mem_of_head? first)
  · intro member
    cases sorted : (t.memories.filter (MemoryTable.validAt scope k.subject instant)).insertionSort newestFirst with
    | nil =>
      have inside := (List.mem_insertionSort newestFirst).mpr member
      rw [sorted] at inside
      cases inside
    | cons first others =>
      have inside := (List.mem_insertionSort newestFirst).mp (sorted ▸ List.mem_cons_self)
      obtain ⟨row,memberRow,rfl,covers⟩ := (selected m).mp member
      obtain ⟨other,memberOther,rfl,coversOther⟩ := (selected first).mp inside
      rw [versions.disjoint memberRow memberOther covers coversOther]
      rfl

theorem History.law (env : Env) {k : BeliefKey} {e : Engine} (history : History k e.memories) :
    TimelineLaw env k e := by
  rcases history with empty | ⟨closed,current,rows,versions⟩
  · have none (row : MemoryRow) : row ∉ e.memories.rows := by simp [empty]
    refine ⟨fun a inside => absurd inside (none a),fun some => absurd empty some,?_,
      fun row inside => absurd inside (none row)⟩
    intro scope subject _ _ instant m
    simp [memoryAsOf,MemoryTable.asOf,MemoryTable.asOfScan,MemoryTable.memories,empty]
  · refine ⟨?_,?_,?_,?_⟩
    · intro a memberA b memberB instant coversA coversB
      rw [rows] at memberA memberB
      exact versions.disjoint memberA memberB coversA coversB
    · intro _
      refine ⟨current,by simp [rows],versions.active,?_⟩
      intro other member
      rw [rows] at member
      constructor
      · intro unbounded
        rcases List.mem_append.mp member with inside | inside
        · obtain ⟨_,stop,equal,_⟩ := versions.ended other inside
          simp [equal] at unbounded
        · exact List.mem_singleton.mp inside
      · rintro rfl
        exact versions.unbounded
    · intro scope subject tenant keyed instant m
      rw [memoryAsOf,keyed]
      exact Versions.asOf_iff rows versions scope tenant instant m
    · intro row member
      rw [rows] at member
      exact ⟨_,versions.nonempty member⟩

theorem Versions.filter_active {k : BeliefKey} {closed : List MemoryRow} {current : MemoryRow}
    {t : MemoryTable} (rows : t.rows = closed ++ [current]) (versions : Versions k closed current)
    (p : Memory → Bool) (active : ∀ m, p m = true → m.state = .active) :
    t.memories.filter p = if p current.memory then [current.memory] else [] := by
  have none : (closed.map MemoryRow.memory).filter p = [] := by
    rw [List.filter_eq_nil_iff]
    intro m inside chosen
    obtain ⟨row,member,rfl⟩ := List.mem_map.mp inside
    have superseded := (versions.ended row member).1
    rw [active _ chosen] at superseded
    cases superseded
  rw [MemoryTable.memories,rows,List.map_append,List.filter_append,none,List.nil_append]
  by_cases chosen : p current.memory <;> simp [chosen]

theorem History.within_cap {k : BeliefKey} {t : MemoryTable} (history : History k t) (scope : MemoryScope)
    (cap : Nat) : cap = 0 ∨ t.countActive scope ≤ cap := by
  have few : t.countActive scope ≤ 1 := by
    rcases history with empty | ⟨closed,current,rows,versions⟩
    · simp [MemoryTable.countActive,MemoryTable.memories,empty]
    · rw [MemoryTable.countActive,versions.filter_active rows _ (by simp)]
      split <;> simp
  omega

section
variable (env : Env) (k : BeliefKey)

def InputAbout (input : MemoryInput) : Prop :=
  (canonicalInput env input).scope = k.scope ∧ input.project = k.project ∧
    (canonicalInput env input).subject = some k.subject

/-- The boundary an input asks for is not inside the microsecond of the version it would close. -/
def Separable (e : Engine) (d : Draw) (input : MemoryInput) : Prop :=
  ∀ m ∈ e.memories.findActiveBySubject k.scope k.subject k.project,
    trim m.content ≠ trim input.content →
      input.validFrom.getD d.recordedAt ≤ m.validFrom ∨
        m.validFrom + microsecond ≤ input.validFrom.getD d.recordedAt

instance (e : Engine) (d : Draw) (input : MemoryInput) : Decidable (Separable k e d input) :=
  inferInstanceAs (Decidable (∀ m ∈ _,_ → _))

theorem validBoundary_after {requested : Option Int} {previous recordedAt : Int}
    (stored : micros previous = previous)
    (separable : requested.getD recordedAt ≤ previous ∨ previous + microsecond ≤ requested.getD recordedAt) :
    previous < micros (validBoundary requested (some previous) recordedAt) := by
  have positive : 0 < microsecond := by decide
  unfold validBoundary
  dsimp only
  split
  next le =>
    have next : micros (previous + microsecond) ≤ micros (max recordedAt (previous + microsecond)) :=
      micros_mono (le_max_right _ _)
    rw [← stored,micros_add_microsecond,stored] at next
    omega
  next gt =>
    have next := micros_mono (separable.resolve_left gt)
    rw [← stored,micros_add_microsecond,stored] at next
    omega

private theorem versions_first {input : MemoryInput} {d : Draw} {importance : Rat}
    {embedding : Option (List Rat)} (about : InputAbout env k input) :
    Versions k [] (MemoryRow.stored ⟨(planInserted d (canonicalInput env input) importance embedding).add.memory,
      embedding⟩) where
  about := by
    intro row inside
    cases List.mem_singleton.mp inside
    exact about
  stored := by
    intro row inside
    cases List.mem_singleton.mp inside
    exact micros_micros _
  ended := by simp
  ordered := by simp
  active := rfl
  unbounded := rfl

private theorem Versions.replace_current {k : BeliefKey} {closed : List MemoryRow} {current again : MemoryRow}
    (versions : Versions k closed current) (about : About k again.memory)
    (opened : again.memory.validFrom = current.memory.validFrom) (active : again.memory.state = .active)
    (unbounded : again.memory.validTo = none) : Versions k closed again where
  about := by
    intro row inside
    rcases List.mem_append.mp inside with inside | inside
    · exact versions.about row (List.mem_append_left _ inside)
    · cases List.mem_singleton.mp inside
      exact about
  stored := by
    intro row inside
    rcases List.mem_append.mp inside with inside | inside
    · exact versions.stored row (List.mem_append_left _ inside)
    · cases List.mem_singleton.mp inside
      rw [opened]
      exact versions.stored current (by simp)
  ended := versions.ended
  ordered := by
    obtain ⟨before,_,last⟩ := List.pairwise_append.mp versions.ordered
    refine List.pairwise_append.mpr ⟨before,by simp,?_⟩
    intro row inside other isLast
    cases List.mem_singleton.mp isLast
    obtain ⟨stop,equal,le⟩ := last row inside current (by simp)
    exact ⟨stop,equal,opened ▸ le⟩
  active := active
  unbounded := unbounded

private theorem Versions.extend {k : BeliefKey} {closed : List MemoryRow} {current old new : MemoryRow}
    {boundary : Int} (versions : Versions k closed current) (exact : micros boundary = boundary)
    (after : current.memory.validFrom < boundary) (oldAbout : About k old.memory)
    (oldOpened : old.memory.validFrom = current.memory.validFrom) (oldState : old.memory.state = .superseded)
    (oldEnded : old.memory.validTo = some boundary) (newAbout : About k new.memory)
    (newOpened : new.memory.validFrom = boundary) (newState : new.memory.state = .active)
    (newUnbounded : new.memory.validTo = none) : Versions k (closed ++ [old]) new where
  about := by
    intro row inside
    simp only [List.append_assoc,List.mem_append,List.mem_cons,List.not_mem_nil,or_false] at inside
    rcases inside with inside | rfl | rfl
    · exact versions.about row (List.mem_append_left _ inside)
    · exact oldAbout
    · exact newAbout
  stored := by
    intro row inside
    simp only [List.append_assoc,List.mem_append,List.mem_cons,List.not_mem_nil,or_false] at inside
    rcases inside with inside | rfl | rfl
    · exact versions.stored row (List.mem_append_left _ inside)
    · rw [oldOpened]
      exact versions.stored current (by simp)
    · rw [newOpened,exact]
  ended := by
    intro row inside
    rcases List.mem_append.mp inside with inside | inside
    · exact versions.ended row inside
    · cases List.mem_singleton.mp inside
      exact ⟨oldState,boundary,oldEnded,exact,oldOpened ▸ after⟩
  ordered := by
    obtain ⟨before,_,last⟩ := List.pairwise_append.mp versions.ordered
    rw [List.append_assoc]
    refine List.pairwise_append.mpr ⟨before,?_,?_⟩
    · refine List.pairwise_pair.mpr ⟨boundary,oldEnded,le_of_eq newOpened.symm⟩
    · intro row inside other later
      obtain ⟨stop,equal,le⟩ := last row inside current (by simp)
      simp only [List.cons_append,List.nil_append,List.mem_cons,List.not_mem_nil,or_false] at later
      rcases later with rfl | rfl
      · exact ⟨stop,equal,oldOpened ▸ le⟩
      · exact ⟨stop,equal,newOpened ▸ le.trans after.le⟩
  active := newState
  unbounded := newUnbounded

theorem Versions.findActive {k : BeliefKey} {closed : List MemoryRow} {current : MemoryRow} {t : MemoryTable}
    (rows : t.rows = closed ++ [current]) (versions : Versions k closed current)
    (tenant : k.scope.withDefaultTenant = k.scope) :
    t.findActiveBySubject k.scope k.subject k.project = [current.memory] := by
  obtain ⟨inScope,grouped,keyed⟩ := versions.about current (by simp)
  have chosen : MemoryTable.beliefFilter k.scope k.subject k.project current.memory = true := by
    have matching : k.scope.matchesRow current.memory.scope = true :=
      (MemoryScope.matchesRow_iff _ _).mpr (inScope.trans tenant.symm)
    simp [MemoryTable.beliefFilter,matching,keyed,grouped,versions.active]
  rw [MemoryTable.findActiveBySubject,versions.filter_active rows _ (by simp [MemoryTable.beliefFilter]),
    if_pos chosen]
  rfl

theorem InputAbout.found {input : MemoryInput} {e : Engine} (about : InputAbout env k input)
    {subject : String} (keyed : (canonicalInput env input).subject = some subject) :
    subject = k.subject ∧
      e.memories.findActiveBySubject (canonicalInput env input).scope subject input.project =
        e.memories.findActiveBySubject k.scope k.subject k.project := by
  obtain ⟨scope,project,about⟩ := about
  cases keyed.symm.trans about
  rw [scope,project]
  exact ⟨rfl,rfl⟩

theorem InputAbout.tenant {input : MemoryInput} (about : InputAbout env k input) :
    k.scope.withDefaultTenant = k.scope := by
  rw [← about.1]
  exact MemoryScope.withDefaultTenant_withDefaultTenant input.scope

theorem History.plan {e : Engine} {d : Draw} {input : MemoryInput} {planned : Planned}
    (off : e.config.cognition.contradictionReview = false) (history : History k e.memories)
    (about : InputAbout env k input) (fresh : d.id ∉ e.memories.keys) (separable : Separable k e d input)
    (ok : memoryPlan env e d input = .ok planned) : History k (e.memories.upsertRows planned.rows) := by
  obtain ⟨_,plan⟩ := memoryPlanWithEmbedding_cases env ok
  cases plan with
  | confirmed subject existing others keyed found same =>
    obtain ⟨rfl,key⟩ := about.found env k keyed
    rw [key] at found
    rcases history with empty | ⟨closed,current,rows,versions⟩
    · simp [MemoryTable.findActiveBySubject,MemoryTable.memories,empty] at found
    · cases (versions.findActive rows (about.tenant env k)).symm.trans found
      refine Or.inr ⟨closed,_,Table.rows_upsert_last e.memories closed current _ rows rfl,?_⟩
      exact versions.replace_current (versions.about current (by simp)) (versions.stored current (by simp))
        versions.active (by simp [MemoryRow.stored,versions.unbounded])
  | conflict subject existing others keyed found on => simp [off] at on
  | superseded subject existing others keyed found differs =>
    obtain ⟨rfl,key⟩ := about.found env k keyed
    rw [key] at found
    rcases history with empty | ⟨closed,current,rows,versions⟩
    · simp [MemoryTable.findActiveBySubject,MemoryTable.memories,empty] at found
    · have only := versions.findActive rows (about.tenant env k)
      cases only.symm.trans found
      have after := validBoundary_after (versions.stored current (by simp))
        (separable current.memory (by simp [only]) differs)
      have written := Table.rows_upsert_last_append e.memories closed current
        (closeRow (validBoundary input.validFrom (some current.memory.validFrom) d.recordedAt) d.recordedAt
          current.memory).stored
        (MemoryRow.stored ⟨(planSuperseded d (canonicalInput env input) (importanceOf e input)
          (e.embedMemoryContent d) k.subject current.memory []).add.memory,e.embedMemoryContent d⟩) rows rfl fresh
      refine Or.inr ⟨_,_,written,?_⟩
      exact versions.extend (micros_micros _) after (versions.about current (by simp))
        (versions.stored current (by simp)) rfl rfl ⟨about.1,about.2.1,rfl⟩ rfl rfl rfl
  | merged top unkeyed hit =>
    rw [about.2.2] at unkeyed
    cases unkeyed
  | inserted absent missed =>
    have none := absent k.subject about.2.2
    rw [(about.found env k about.2.2).2] at none
    rcases history with empty | ⟨closed,current,rows,versions⟩
    · have written := Table.rows_upsert_fresh e.memories
        (MemoryRow.stored ⟨(planInserted d (canonicalInput env input) (importanceOf e input)
          (e.embedMemoryContent d)).add.memory,e.embedMemoryContent d⟩) fresh
      rw [empty] at written
      exact Or.inr ⟨[],_,written,versions_first env k about⟩
    · rw [versions.findActive rows (about.tenant env k)] at none
      cases none

theorem History.add {e : Engine} {d : Draw} {input : MemoryInput}
    (off : e.config.cognition.contradictionReview = false) (history : History k e.memories)
    (about : InputAbout env k input) (fresh : d.id ∉ e.memories.keys) (separable : Separable k e d input) :
    History k (memoryAdd env e d input).2.memories := by
  unfold memoryAdd
  split
  next => exact history
  next result rows ok =>
    have next : History k (e.memories.upsertRows rows) := history.plan env k off about fresh separable ok
    have within := next.within_cap result.memory.scope e.config.cognition.maxMemoriesPerScope
    rw [evictOverCap_memories,memoryApplyRows_memories,memoryApplyRows_config]
    rwa [MemoryTable.enforceScopeCap_of_within within]

def addStep (e : Engine) (call : Draw × MemoryInput) : Engine := (memoryAdd env e call.1 call.2).2

/-- Every run of adds about one subject whose boundaries are separable obeys the timeline law in
every state, whatever the clocks read. -/
theorem timeline_law_throughout (e : Engine) (calls : List (Draw × MemoryInput))
    (off : e.config.cognition.contradictionReview = false) (empty : e.memories.rows = [])
    (about : ∀ call ∈ calls, InputAbout env k call.2)
    (fresh : Along (addStep env) (fun e call => call.1.id ∉ e.memories.keys) e calls)
    (separable : Along (addStep env) (fun e call => Separable k e call.1 call.2) e calls) :
    Throughout (addStep env) (TimelineLaw env k) e calls := by
  have guarded := ((Along.of_forall about).and fresh).and separable
  have reached : Throughout (addStep env)
      (fun e => e.config.cognition.contradictionReview = false ∧ History k e.memories) e calls := by
    refine guarded.throughout ⟨off,Or.inl empty⟩ ?_
    rintro s call ⟨off,history⟩ ⟨⟨about,fresh⟩,separable⟩
    refine ⟨?_,history.add env k off about fresh separable⟩
    rw [addStep,memoryAdd_config]
    exact off
  exact fun n => (reached n).2.law env

end

private def planKey : BeliefKey := ⟨.tenant "acme",none,"plan"⟩

private def planInputAt (content : String) (validFrom : Option Int) : MemoryInput :=
  { MemoryInput.new (.tenant "acme") content with subject := some "Plan", validFrom := validFrom }

private theorem planInputAt_about (content : String) (validFrom : Option Int) :
    InputAbout .ascii planKey (planInputAt content validFrom) := by
  have keyed : canonicalSubject .ascii (some "Plan") = some "plan" := by decide +kernel
  exact ⟨rfl,rfl,keyed⟩

def planHistory : List (Draw × MemoryInput) :=
  [(.plain 5000 1,planInputAt "free" (some 1500)),(.plain 6000 2,planInputAt "pro" none),
    (.plain 7000 3,planInputAt "pro" none)]

theorem timeline_law_throughout_plan :
    Throughout (addStep .ascii) (TimelineLaw .ascii planKey) (.empty .default 2) planHistory := by
  apply timeline_law_throughout .ascii planKey (.empty .default 2) planHistory rfl rfl
  · intro call inside
    simp only [planHistory,List.mem_cons,List.not_mem_nil,or_false] at inside
    rcases inside with rfl | rfl | rfl <;> exact planInputAt_about _ _
  · decide +kernel
  · decide +kernel

def tightHistory : List (Draw × MemoryInput) :=
  [(.plain 5000 1,planInputAt "free" (some 1000)),(.plain 6000 2,planInputAt "pro" (some 1500))]

private theorem tightHistory_intervals :
    (run (addStep .ascii) (.empty .default 2) tightHistory).memories.rows.map
      (fun row => (row.memory.validFrom,row.memory.validTo)) = [(1000,some 1000),(1000,none)] := by
  decide +kernel

/-- The first version is stored with an empty interval: no instant finds it. -/
theorem tight_versions_unreachable :
    (∀ call ∈ tightHistory, InputAbout .ascii planKey call.2) ∧
      ¬Throughout (addStep .ascii) (TimelineLaw .ascii planKey) (.empty .default 2) tightHistory := by
  constructor
  · intro call inside
    simp only [tightHistory,List.mem_cons,List.not_mem_nil,or_false] at inside
    rcases inside with rfl | rfl <;> exact planInputAt_about _ _
  · intro law
    have last : TimelineLaw .ascii planKey (run (addStep .ascii) (.empty .default 2) tightHistory) := law 2
    have listed : (1000,some 1000) ∈ (run (addStep .ascii) (.empty .default 2) tightHistory).memories.rows.map
        (fun row => (row.memory.validFrom,row.memory.validTo)) := by
      rw [tightHistory_intervals]
      simp
    obtain ⟨row,member,interval⟩ := List.mem_map.mp listed
    obtain ⟨opened,closed⟩ := Prod.mk.inj interval
    obtain ⟨instant,after,before⟩ := last.reachable row member
    have less := before 1000 closed
    omega

end Ecphoria
