import Ecphoria.Engine.Sections
import Ecphoria.Gateway.Writes

/-! A request with many memories against one request for each. Both plan and write the
memories in order; the request with many leaves out the date of a memory. -/
namespace Ecphoria
open Library

def MemoryInput.undated (input : MemoryInput) : MemoryInput := { input with validFrom := none }

/-- Where a request plans and what its rows are written over. A node of a cluster that has entries to apply writes over
what these leave. -/
structure WritePath where
  engine : Engine
  table : MemoryTable

section
variable (env : Env)

def WritePath.step (s : WritePath) (item : MemoryInput × Draw) : WritePath :=
  match memoryPlan env s.engine item.2 item.1 with
  | .error _ => s
  | .ok planned => ⟨{ s.engine with memories := s.table.upsertRows planned.rows },s.table.upsertRows planned.rows⟩

/-- The date of the input makes no difference: nothing is dated by it, or the new memory begins in the same
microsecond without it. -/
def DateIdle (s : WritePath) (item : MemoryInput × Draw) : Prop :=
  ∀ date, item.1.validFrom = some date →
    match (canonicalInput env item.1).subject with
    | none => micros date = micros item.2.now
    | some subject =>
      match s.engine.memories.findActiveBySubject (canonicalInput env item.1).scope subject item.1.project with
      | [] => micros date = micros item.2.now
      | existing :: others =>
        trim existing.content = trim item.1.content ∨ s.engine.config.cognition.contradictionReview = true ∨
          micros (validBoundary (some date) ((existing :: others).map Memory.validFrom).max? item.2.recordedAt) =
            micros (validBoundary none ((existing :: others).map Memory.validFrom).max? item.2.recordedAt)

variable {env} {e : Engine} {d : Draw} {input : MemoryInput}

theorem memoryPlan_inserted (off : e.config.embedding = false) (accepted : Accepts env e.config input)
    (unkeyed : (canonicalInput env input).subject = none) : memoryPlan env e d input =
      .ok (planInserted d (canonicalInput env input) (importanceOf e input) (e.embedMemoryContent d)) := by
  have missed := (show Unmerged env e.config input from Or.inl off).target unkeyed (d := d)
  rw [memoryPlan_unkeyed accepted unkeyed,planUnkeyed,missed]
  rfl

private def Draws (d : Draw) (e : Engine) (rows : List MemoryRow) (validFrom : Int) : Prop :=
  ∃ row ∈ rows, row.id = d.id ∧ row.memory.validFrom = validFrom ∧
    ∀ other ∈ rows, other = row ∨ other.id ∈ e.memories.keys

private theorem inserted_undated {date : Int} (dated : input.validFrom = some date) (importance : Rat)
    (vector : Option (List Rat)) :
    micros date = micros d.now ∧
        (planInserted d (canonicalInput env input) importance vector).rows.map MemoryRow.stored =
          (planInserted d (canonicalInput env input.undated) importance vector).rows.map MemoryRow.stored ∨
      micros date ≠ micros d.now ∧ ∃ left right, micros left ≠ micros right ∧
        Draws d e (planInserted d (canonicalInput env input) importance vector).rows left ∧
        Draws d e (planInserted d (canonicalInput env input.undated) importance vector).rows right := by
  have begins : (canonicalInput env input).validFrom = some date := dated
  by_cases same : micros date = micros d.now
  · refine Or.inl ⟨same,?_⟩
    simp only [planInserted,Planned.rows,List.map_cons,List.map_nil,MemoryRow.stored,begins,Option.getD_some,same]
    rfl
  · refine Or.inr ⟨same,date,d.now,same,⟨_,List.mem_singleton_self _,rfl,?_,?_⟩,⟨_,List.mem_singleton_self _,rfl,rfl,?_⟩⟩
    · exact congrArg (fun validFrom => validFrom.getD d.now) begins
    · intro other inside
      exact Or.inl (List.mem_singleton.mp inside)
    · intro other inside
      exact Or.inl (List.mem_singleton.mp inside)

private theorem superseded_undated {date : Int} (dated : input.validFrom = some date) (importance : Rat)
    (vector : Option (List Rat)) (subject : String) {existing : Memory} {others : List Memory}
    (known : ∀ m ∈ existing :: others, m.id ∈ e.memories.keys) :
    micros (validBoundary (some date) ((existing :: others).map Memory.validFrom).max? d.recordedAt) =
        micros (validBoundary none ((existing :: others).map Memory.validFrom).max? d.recordedAt) ∧
        (planSuperseded d (canonicalInput env input) importance vector subject existing others).rows.map
          MemoryRow.stored =
          (planSuperseded d (canonicalInput env input.undated) importance vector subject existing others).rows.map
            MemoryRow.stored ∨
      micros (validBoundary (some date) ((existing :: others).map Memory.validFrom).max? d.recordedAt) ≠
        micros (validBoundary none ((existing :: others).map Memory.validFrom).max? d.recordedAt) ∧
        ∃ left right, micros left ≠ micros right ∧
          Draws d e (planSuperseded d (canonicalInput env input) importance vector subject existing others).rows left ∧
          Draws d e (planSuperseded d (canonicalInput env input.undated) importance vector subject existing
            others).rows right := by
  have begins : (canonicalInput env input).validFrom = some date := dated
  have draws (given : MemoryInput) : Draws d e (planSuperseded d given importance vector subject existing others).rows
      (validBoundary given.validFrom ((existing :: others).map Memory.validFrom).max? d.recordedAt) := by
    refine ⟨_,List.mem_append_right _ (List.mem_singleton_self _),rfl,rfl,?_⟩
    intro other inside
    rcases List.mem_append.mp inside with closed | new
    · obtain ⟨m,listed,rfl⟩ := List.mem_map.mp closed
      exact Or.inr (known m listed)
    · exact Or.inl (List.mem_singleton.mp new)
  by_cases same : micros (validBoundary (some date) ((existing :: others).map Memory.validFrom).max? d.recordedAt) =
      micros (validBoundary none ((existing :: others).map Memory.validFrom).max? d.recordedAt)
  · refine Or.inl ⟨same,?_⟩
    have starts : micros (planSuperseded d (canonicalInput env input) importance vector subject existing
        others).add.memory.validFrom = micros (planSuperseded d (canonicalInput env input.undated) importance vector
          subject existing others).add.memory.validFrom := by
      rw [← begins] at same
      exact same
    have shape (given : MemoryInput) : (planSuperseded d given importance vector subject existing others).rows =
        (existing :: others).map (closeRow (planSuperseded d given importance vector subject existing
          others).add.memory.validFrom d.recordedAt) ++
          [⟨(planSuperseded d given importance vector subject existing others).add.memory,vector⟩] := rfl
    rw [shape,shape,List.map_append,List.map_append,List.map_map,List.map_map]
    refine congrArg₂ _ (List.map_congr_left ?_) ?_
    · intro m _
      simp only [Function.comp_apply,closeRow,MemoryRow.stored,Option.map_some,starts]
    · rw [List.map_singleton,List.map_singleton]
      unfold MemoryRow.stored
      rw [starts]
      rfl
  · refine Or.inr ⟨same,_,_,same,?_,draws (canonicalInput env input.undated)⟩
    rw [← begins]
    exact draws (canonicalInput env input)

/-- With and without its date an input is planned alike, or its new memory begins in different microseconds. -/
theorem memoryPlan_undated (off : e.config.embedding = false) (accepted : Accepts env e.config input)
    (table : MemoryTable) : ∃ dated undated, memoryPlan env e d input = .ok dated ∧
      memoryPlan env e d input.undated = .ok undated ∧
      (DateIdle env ⟨e,table⟩ (input,d) ∧ dated.rows.map MemoryRow.stored = undated.rows.map MemoryRow.stored ∨
        ¬DateIdle env ⟨e,table⟩ (input,d) ∧ ∃ left right, micros left ≠ micros right ∧
          Draws d e dated.rows left ∧ Draws d e undated.rows right) := by
  have acceptedU : Accepts env e.config input.undated := accepted
  cases date : input.validFrom with
  | none =>
    have same : input.undated = input := by
      rw [MemoryInput.undated,← date]
    obtain ⟨p,ok⟩ := (memoryPlan_accepted env (d := d) (Or.inl off)).mpr accepted
    refine ⟨p,p,ok,same.symm ▸ ok,Or.inl ⟨?_,rfl⟩⟩
    intro other given
    cases date.symm.trans given
  | some began =>
    have idle_iff : DateIdle env ⟨e,table⟩ (input,d) ↔
        match (canonicalInput env input).subject with
        | none => micros began = micros d.now
        | some subject =>
          match e.memories.findActiveBySubject (canonicalInput env input).scope subject input.project with
          | [] => micros began = micros d.now
          | existing :: others =>
            trim existing.content = trim input.content ∨ e.config.cognition.contradictionReview = true ∨
              micros (validBoundary (some began) ((existing :: others).map Memory.validFrom).max? d.recordedAt) =
                micros (validBoundary none ((existing :: others).map Memory.validFrom).max? d.recordedAt) := by
      constructor
      · intro idle
        exact idle began date
      · intro holds other given
        cases date.symm.trans given
        exact holds
    rw [idle_iff]
    cases keyed : (canonicalInput env input).subject with
    | none =>
      exact ⟨_,_,memoryPlan_inserted off accepted keyed,memoryPlan_inserted off acceptedU keyed,
        inserted_undated date _ _⟩
    | some subject =>
      refine ⟨_,_,memoryPlan_keyed accepted keyed,memoryPlan_keyed acceptedU keyed,?_⟩
      dsimp only
      unfold planSubject
      have scope : (canonicalInput env input.undated).scope = (canonicalInput env input).scope := rfl
      have project : (canonicalInput env input.undated).project = input.project := rfl
      have project' : (canonicalInput env input).project = input.project := rfl
      rw [scope,project,project']
      cases found : e.memories.findActiveBySubject (canonicalInput env input).scope subject input.project with
      | nil => exact inserted_undated date _ _
      | cons existing others =>
        dsimp only
        have text : (canonicalInput env input).content = input.content := rfl
        have text' : (canonicalInput env input.undated).content = input.content := rfl
        rw [text,text']
        by_cases same : trim existing.content = trim input.content
        · rw [if_pos same,if_pos same]
          exact Or.inl ⟨Or.inl same,rfl⟩
        · rw [if_neg same,if_neg same]
          by_cases review : e.config.cognition.contradictionReview = true
          · rw [if_pos review,if_pos review]
            exact Or.inl ⟨Or.inr (Or.inl review),rfl⟩
          · rw [if_neg review,if_neg review]
            have known : ∀ m ∈ existing :: others, m.id ∈ e.memories.keys := by
              intro m listed
              rw [← found] at listed
              obtain ⟨row,member,rfl,_⟩ := MemoryTable.mem_findActiveBySubject.mp listed
              exact (Table.mem_keys _ _).mpr ⟨row,member,rfl⟩
            rcases superseded_undated date _ _ subject known with ⟨idle,rows⟩ | ⟨moved,draws⟩
            · exact Or.inl ⟨Or.inr (Or.inr idle),rows⟩
            · refine Or.inr ⟨?_,draws⟩
              rintro (equal | on | idle)
              · exact same equal
              · exact review on
              · exact moved idle

theorem memoryPlan_validFrom {planned : Planned} (off : e.config.embedding = false)
    (ok : memoryPlan env e d input = .ok planned) {row : MemoryRow} (inside : row ∈ planned.rows) :
    row.id = d.id ∨ ∃ old ∈ e.memories.rows, old.id = row.id ∧ row.memory.validFrom = old.memory.validFrom := by
  cases (memoryPlanWithEmbedding_cases env ok).2 with
  | confirmed subject existing others keyed found same =>
    cases List.mem_singleton.mp inside
    have first := List.mem_cons_self (a := existing) (l := others)
    rw [← found] at first
    obtain ⟨old,member,rfl,_⟩ := MemoryTable.mem_findActiveBySubject.mp first
    exact Or.inr ⟨old,member,rfl,rfl⟩
  | conflict subject existing others keyed found review =>
    cases List.mem_singleton.mp inside
    exact Or.inl rfl
  | superseded subject existing others keyed found differs =>
    rcases List.mem_append.mp inside with inside | inside
    · obtain ⟨m,listed,rfl⟩ := List.mem_map.mp inside
      rw [← found] at listed
      obtain ⟨old,member,rfl,_⟩ := MemoryTable.mem_findActiveBySubject.mp listed
      exact Or.inr ⟨old,member,rfl,rfl⟩
    · cases List.mem_singleton.mp inside
      exact Or.inl rfl
  | merged top unkeyed hit =>
    rw [(show Unmerged env e.config input from Or.inl off).target unkeyed] at hit
    cases hit
  | inserted absent missed =>
    cases List.mem_singleton.mp inside
    exact Or.inl rfl

def Began (t : MemoryTable) (id : Uuid) (instant : Int) : Prop :=
  ∃ row ∈ t.rows, row.id = id ∧ micros row.memory.validFrom = instant

theorem Began.same {t u : MemoryTable} {id : Uuid} {left right : Int} (first : Began t id left) (second : Began u id right)
    (same : t.Same u) : left = right := by
  obtain ⟨row,member,rfl,rfl⟩ := first
  obtain ⟨other,there,equal,rfl⟩ := second
  have found := same row.id
  rw [(Table.find_eq_some t row.id row).mpr ⟨member,rfl⟩,(Table.find_eq_some u row.id other).mpr ⟨there,equal⟩] at found
  cases found
  rfl

theorem Began.upsertRows {t : MemoryTable} {rows : List MemoryRow} {row : MemoryRow} (inside : row ∈ rows)
    (only : ∀ other ∈ rows, other.id = row.id → other.memory.validFrom = row.memory.validFrom) :
    Began (t.upsertRows rows) row.id (micros row.memory.validFrom) := by
  obtain ⟨written,listed,same,there⟩ := MemoryTable.exists_upsertRows_written (t := t) inside
  refine ⟨written.stored,there,same,?_⟩
  change micros (micros written.memory.validFrom) = _
  rw [micros_micros,only written listed same]

private theorem Draws.began {t : MemoryTable} {rows : List MemoryRow} {validFrom : Int} (draws : Draws d e rows validFrom)
    (fresh : d.id ∉ e.memories.keys) : Began (t.upsertRows rows) d.id (micros validFrom) := by
  obtain ⟨row,inside,drawn,rfl,others⟩ := draws
  rw [← drawn]
  refine Began.upsertRows inside ?_
  intro other listed same
  rcases others other listed with rfl | known
  · rfl
  · exact absurd (same.trans drawn ▸ known) fresh

def WritePath.Settled (s : WritePath) : Prop := s.engine.memories = s.table

theorem WritePath.step_settled {s : WritePath} (settled : s.Settled) (item : MemoryInput × Draw) :
    (s.step env item).Settled := by
  unfold WritePath.step
  split
  next => exact settled
  next => rfl

theorem WritePath.step_config (s : WritePath) (item : MemoryInput × Draw) :
    (s.step env item).engine.config = s.engine.config := by
  unfold WritePath.step
  split <;> rfl

theorem WritePath.step_began {s : WritePath} (off : s.engine.config.embedding = false) (settled : s.Settled) {id : Uuid}
    {instant : Int} (began : Began s.table id instant) {item : MemoryInput × Draw} (apart : item.2.id ≠ id) :
    Began (s.step env item).table id instant := by
  unfold WritePath.step
  split
  next => exact began
  next planned ok =>
    obtain ⟨row,member,rfl,rfl⟩ := began
    by_cases touched : ∃ written ∈ planned.rows, written.id = row.id
    · obtain ⟨written,inside,same⟩ := touched
      have begins (other : MemoryRow) (listed : other ∈ planned.rows) (equal : other.id = row.id) :
          other.memory.validFrom = row.memory.validFrom := by
        rcases memoryPlan_validFrom off ok listed with drawn | ⟨old,there,sameId,kept⟩
        · exact absurd (drawn.symm.trans equal) apart
        · rw [settled] at there
          cases s.table.eq_of_key there member (sameId.trans equal)
          exact kept
      have after := Began.upsertRows (t := s.table) inside
        (fun other listed equal => (begins other listed (equal.trans same)).trans (begins written inside same).symm)
      rwa [same,begins written inside same] at after
    · refine ⟨row,MemoryTable.mem_upsertRows_of_apart member ?_,rfl,rfl⟩
      intro written inside same
      exact touched ⟨written,inside,same⟩

theorem WritePath.run_began {s : WritePath} (off : s.engine.config.embedding = false) (settled : s.Settled) {id : Uuid}
    {instant : Int} (began : Began s.table id instant) {items : List (MemoryInput × Draw)}
    (apart : ∀ item ∈ items, item.2.id ≠ id) : Began (run (WritePath.step env) s items).table id instant := by
  induction items generalizing s with
  | nil => exact began
  | cons item items ih =>
    refine ih ?_ (WritePath.step_settled settled item)
      (WritePath.step_began off settled began (apart item List.mem_cons_self))
      (fun other inside => apart other (List.mem_cons_of_mem item inside))
    rw [WritePath.step_config]
    exact off

def undatedItem (item : MemoryInput × Draw) : MemoryInput × Draw := (item.1.undated,item.2)

structure Enterable (env : Env) (s : WritePath) (items : List (MemoryInput × Draw)) : Prop where
  off : s.engine.config.embedding = false
  accepted : ∀ item ∈ items, Accepts env s.engine.config item.1
  unplanned : ∀ item ∈ items, item.2.id ∉ s.engine.memories.keys
  unwritten : ∀ item ∈ items, item.2.id ∉ s.table.keys
  distinct : (items.map (fun item => item.2.id)).Nodup

theorem Enterable.tail {s : WritePath} {item : MemoryInput × Draw} {items : List (MemoryInput × Draw)}
    (enterable : Enterable env s (item :: items)) : Enterable env (s.step env item) items := by
  obtain ⟨first,others⟩ := List.nodup_cons.mp enterable.distinct
  have unused (other : MemoryInput × Draw) (inside : other ∈ items) :
      other.2.id ∉ (s.step env item).engine.memories.keys ∧ other.2.id ∉ (s.step env item).table.keys := by
    have apart : other.2.id ≠ item.2.id := fun equal => first (List.mem_map.mpr ⟨other,inside,equal⟩)
    have listed := List.mem_cons_of_mem item inside
    unfold WritePath.step
    split
    next => exact ⟨enterable.unplanned other listed,enterable.unwritten other listed⟩
    next planned ok =>
      have absent : other.2.id ∉ (s.table.upsertRows planned.rows).keys := by
        intro known
        obtain ⟨row,member,same⟩ := (Table.mem_keys _ _).mp known
        rcases MemoryTable.mem_upsertRows member with ⟨written,wrote,rfl⟩ | ⟨old,_⟩
        · rcases memoryPlan_validFrom enterable.off ok wrote with drawn | ⟨old,there,sameId,_⟩
          · exact apart (same.symm.trans drawn)
          · exact enterable.unplanned other listed ((Table.mem_keys _ _).mpr ⟨old,there,sameId.trans same⟩)
        · exact enterable.unwritten other listed ((Table.mem_keys _ _).mpr ⟨row,old,same⟩)
      exact ⟨absent,absent⟩
  refine ⟨?_,?_,fun other inside => (unused other inside).1,fun other inside => (unused other inside).2,others⟩
  · rw [WritePath.step_config]
    exact enterable.off
  · intro other inside
    rw [WritePath.step_config]
    exact enterable.accepted other (List.mem_cons_of_mem item inside)

theorem Enterable.undated {s : WritePath} {items : List (MemoryInput × Draw)} (enterable : Enterable env s items) :
    Enterable env s (items.map undatedItem) := by
  refine ⟨enterable.off,?_,?_,?_,?_⟩
  · intro item inside
    obtain ⟨dated,listed,rfl⟩ := List.mem_map.mp inside
    exact enterable.accepted dated listed
  · intro item inside
    obtain ⟨dated,listed,rfl⟩ := List.mem_map.mp inside
    exact enterable.unplanned dated listed
  · intro item inside
    obtain ⟨dated,listed,rfl⟩ := List.mem_map.mp inside
    exact enterable.unwritten dated listed
  · rw [List.map_map]
    exact enterable.distinct

/-- Written with and without their dates, the items leave the same table exactly when no date makes a difference. -/
theorem undated_same_iff {s : WritePath} {items : List (MemoryInput × Draw)} (enterable : Enterable env s items) :
    (run (WritePath.step env) s (items.map undatedItem)).table.Same (run (WritePath.step env) s items).table ↔
      Along (WritePath.step env) (DateIdle env) s items := by
  induction items generalizing s with
  | nil => exact iff_of_true (Table.Same.refl _) trivial
  | cons item items ih =>
    obtain ⟨input,d⟩ := item
    obtain ⟨first,_⟩ := List.nodup_cons.mp enterable.distinct
    have fresh := enterable.unplanned (input,d) List.mem_cons_self
    obtain ⟨dated,undated,planD,planU,either⟩ := memoryPlan_undated (d := d) enterable.off
      (enterable.accepted (input,d) List.mem_cons_self) s.table
    have stepD : s.step env (input,d) =
        ⟨{ s.engine with memories := s.table.upsertRows dated.rows },s.table.upsertRows dated.rows⟩ := by
      rw [WritePath.step,planD]
    have stepU : s.step env (undatedItem (input,d)) =
        ⟨{ s.engine with memories := s.table.upsertRows undated.rows },s.table.upsertRows undated.rows⟩ := by
      rw [WritePath.step,undatedItem,planU]
    rw [List.map_cons,run_cons,run_cons]
    rcases either with ⟨idle,rows⟩ | ⟨moved,left,right,differ,drawsD,drawsU⟩
    · have same : s.step env (undatedItem (input,d)) = s.step env (input,d) := by
        rw [stepD,stepU,MemoryTable.upsertRows_eq,MemoryTable.upsertRows_eq,rows]
      rw [same]
      exact (ih enterable.tail).trans ⟨fun given => ⟨idle,given⟩,fun given => given.2⟩
    · refine iff_of_false ?_ (fun given => moved given.1)
      intro same
      have apart (id : Uuid) (drawn : id = d.id) : ∀ other ∈ items, other.2.id ≠ id := by
        intro other inside equal
        exact first (List.mem_map.mpr ⟨other,inside,equal.trans drawn⟩)
      have apartU : ∀ other ∈ items.map undatedItem, other.2.id ≠ d.id := by
        intro other inside
        obtain ⟨item,listed,rfl⟩ := List.mem_map.mp inside
        exact apart d.id rfl item listed
      have keptD : Began (run (WritePath.step env) (s.step env (input,d)) items).table d.id (micros left) := by
        refine WritePath.run_began ?_ ?_ ?_ (apart d.id rfl)
        · rw [WritePath.step_config]
          exact enterable.off
        · rw [stepD]
          rfl
        · rw [stepD]
          exact drawsD.began fresh
      have keptU : Began (run (WritePath.step env) (s.step env (undatedItem (input,d))) (items.map undatedItem)).table
          d.id (micros right) := by
        refine WritePath.run_began ?_ ?_ ?_ apartU
        · rw [WritePath.step_config]
          exact enterable.off
        · rw [stepU]
          rfl
        · rw [stepU]
          exact drawsU.began fresh
      exact differ (keptU.same keptD same).symm

end

section
variable (env : Env)

namespace OneNode

/-- `POST /memories` without a cluster. -/
def memoryAdd (e : Engine) (caller : Caller) (req : MemoryAddRequest) (d : Draw) : Answer × Engine :=
  if blank req.content then (Rest.missingField "content is required",e)
  else
    match Ecphoria.memoryAdd env e d (req.input caller) with
    | (.ok _,e) => (.ok,e)
    | (.error err,e) => (.failed (.error err),e)

/-- `POST /memories/batch` without a cluster. -/
def memoryAddBatch (e : Engine) (caller : Caller) (reqs : List MemoryAddRequest) (draws : Nat → Draw) : Answer × Engine :=
  if reqs.isEmpty then (Rest.missingField "memories must not be empty",e)
  else if Rest.maxBatchMemories < reqs.length then
    (.refused 413 "BATCH_TOO_LARGE"
      (toString reqs.length ++ " memories exceeds the " ++ toString Rest.maxBatchMemories ++ " limit"),e)
  else
    match reqs.findIdx? (fun req => blank req.content) with
    | some k => (Rest.missingField ("memories[" ++ toString k ++ "].content is required"),e)
    | none =>
      let inputs := reqs.map (fun req => { req.input caller with validFrom := none })
      match Ecphoria.memoryAddBatch env e (withDraws inputs draws) with
      | (.ok _,e) => (.ok,e)
      | (.error err,e) => (.failed (.error err),e)

end OneNode

/-- Each memory in a request of its own, in order. -/
def sendEach {σ : Type} (send : σ → MemoryAddRequest → Draw → Answer × σ) (s : σ) (reqs : List MemoryAddRequest)
    (draws : Nat → Draw) : σ :=
  reqs.zipIdx.foldl (fun s p => (send s p.1 (draws p.2)).2) s

def batchItems (caller : Caller) (reqs : List MemoryAddRequest) (draws : Nat → Draw) : List (MemoryInput × Draw) :=
  withDraws (reqs.map (fun req => req.input caller)) draws

variable {env}

theorem batchItems_undated (caller : Caller) (reqs : List MemoryAddRequest) (draws : Nat → Draw) :
    withDraws (reqs.map (fun req => { req.input caller with validFrom := none })) draws =
      (batchItems caller reqs draws).map undatedItem := by
  simp only [batchItems,withDraws,List.zipIdx_map,List.map_map]
  rfl

theorem batchItems_eq (caller : Caller) (reqs : List MemoryAddRequest) (draws : Nat → Draw) :
    batchItems caller reqs draws = reqs.zipIdx.map (fun p => (p.1.input caller,draws p.2)) := by
  simp only [batchItems,withDraws,List.zipIdx_map,List.map_map]
  rfl

theorem memoryPlan_tables {e f : Engine} {d : Draw} {input : MemoryInput} (off : e.config.embedding = false)
    (config : f.config = e.config) (memories : f.memories = e.memories) :
    memoryPlan env f d input = memoryPlan env e d input :=
  memoryPlan_congr env (Or.inl off) config (fun _ _ => by rw [memories]) (fun _ _ _ _ => by rw [memories])

theorem writes_path (e : Engine) (items : List (MemoryInput × Draw)) :
    run (WritePath.step env) ⟨e,e.memories⟩ items =
      ⟨run (writeNext env) e items,(run (writeNext env) e items).memories⟩ := by
  induction items generalizing e with
  | nil => rfl
  | cons item items ih =>
    have first : WritePath.step env ⟨e,e.memories⟩ item = ⟨writeNext env e item,(writeNext env e item).memories⟩ := by
      unfold WritePath.step writeNext
      cases memoryPlan env e item.2 item.1 <;> rfl
    rw [run_cons,run_cons,first,ih]

/-- No embedding provider, no cap and no graph. -/
structure PlainConfig (config : CoreConfig) : Prop where
  embedding : config.embedding = false
  cap : config.cognition.maxMemoriesPerScope = 0
  graph : config.cognition.autoGraph = false

/-- A batch that one node answers with success let every memory in and wrote them one after the other without dates. -/
theorem OneNode.memoryAddBatch_path {e : Engine} {caller : Caller} {reqs : List MemoryAddRequest} {draws : Nat → Draw}
    (plain : PlainConfig e.config) (fresh : ∀ item ∈ batchItems caller reqs draws, item.2.id ∉ e.memories.keys)
    (distinct : ((batchItems caller reqs draws).map (fun item => item.2.id)).Nodup)
    (ok : (OneNode.memoryAddBatch env e caller reqs draws).1 = .ok) :
    (∀ req ∈ reqs, blank req.content = false) ∧
      Enterable env ⟨e,e.memories⟩ (batchItems caller reqs draws) ∧
      (OneNode.memoryAddBatch env e caller reqs draws).2.memories =
        (run (WritePath.step env) ⟨e,e.memories⟩ ((batchItems caller reqs draws).map undatedItem)).table := by
  unfold OneNode.memoryAddBatch at ok ⊢
  split at ok
  next => cases ok
  next some =>
    rw [if_neg some]
    split at ok
    next => cases ok
    next small =>
      rw [if_neg small]
      cases found : reqs.findIdx? (fun req => blank req.content) with
      | some k =>
        rw [found] at ok
        cases ok
      | none =>
        rw [found] at ok
        dsimp only at ok ⊢
        rw [batchItems_undated] at ok ⊢
        have filled : ∀ req ∈ reqs, blank req.content = false := by
          intro req inside
          simpa using List.findIdx?_eq_none_iff.mp found req inside
        have freshU : ∀ item ∈ (batchItems caller reqs draws).map undatedItem, item.2.id ∉ e.memories.keys := by
          intro item inside
          obtain ⟨dated,listed,rfl⟩ := List.mem_map.mp inside
          exact fresh dated listed
        have distinctU : (((batchItems caller reqs draws).map undatedItem).map (fun item => item.2.id)).Nodup := by
          rw [List.map_map]
          exact distinct
        obtain ⟨memories,_,_⟩ := @memoryAddBatch_lands env e _ (fun _ _ => Or.inl plain.embedding) freshU distinctU
        rcases added : Ecphoria.memoryAddBatch env e ((batchItems caller reqs draws).map undatedItem) with ⟨err | out,after⟩
        · rw [added] at ok
          cases ok
        · have accepted := memoryAddBatch_accepted env added
          rw [added] at memories
          refine ⟨filled,⟨plain.embedding,?_,fresh,fresh,distinct⟩,?_⟩
          · intro item inside
            exact accepted (undatedItem item) (List.mem_map_of_mem inside)
          · rw [landedItems_accepted env _ [] [] accepted] at memories
            rw [writes_path]
            exact memories

theorem OneNode.sendEach_path {e : Engine} {s : WritePath} {caller : Caller} {reqs : List (MemoryAddRequest × Nat)}
    {draws : Nat → Draw} (plain : PlainConfig e.config) (config : s.engine.config = e.config)
    (planned : s.engine.memories = e.memories) (written : s.table = e.memories)
    (filled : ∀ p ∈ reqs, blank p.1.content = false)
    (accepted : ∀ p ∈ reqs, Accepts env e.config (p.1.input caller)) :
    (reqs.foldl (fun e p => (OneNode.memoryAdd env e caller p.1 (draws p.2)).2) e).memories =
      (run (WritePath.step env) s (reqs.map (fun p => (p.1.input caller,draws p.2)))).table := by
  induction reqs generalizing e s with
  | nil => exact written.symm
  | cons p reqs ih =>
    have text := filled p List.mem_cons_self
    obtain ⟨plan,ok⟩ := (memoryPlan_accepted env (d := draws p.2) (Or.inl plain.embedding)).mpr
      (accepted p List.mem_cons_self)
    have okS : memoryPlan env s.engine (draws p.2) (p.1.input caller) = .ok plan :=
      (memoryPlan_tables (config.symm ▸ plain.embedding) config.symm planned.symm).symm.trans ok
    have after : (OneNode.memoryAdd env e caller p.1 (draws p.2)).2 =
        evictOverCap (memoryApplyRows env (draws p.2).stamp e plan.rows) plan.add.memory.scope := by
      unfold OneNode.memoryAdd
      rw [text,memoryAdd_planned env ok]
      rfl
    have memories : (OneNode.memoryAdd env e caller p.1 (draws p.2)).2.memories = e.memories.upsertRows plan.rows := by
      rw [after,evictOverCap_memories,memoryApplyRows_memories,memoryApplyRows_config]
      exact MemoryTable.enforceScopeCap_of_within (Or.inl plain.cap)
    have kept : (OneNode.memoryAdd env e caller p.1 (draws p.2)).2.config = e.config := by
      rw [after,evictOverCap_config,memoryApplyRows_config]
    have step : s.step env (p.1.input caller,draws p.2) =
        ⟨{ s.engine with memories := s.table.upsertRows plan.rows },s.table.upsertRows plan.rows⟩ := by
      rw [WritePath.step,okS]
    rw [List.foldl_cons,List.map_cons,run_cons,step]
    refine ih (kept.symm ▸ plain) (config.trans kept.symm) ?_ ?_
      (fun q inside => filled q (List.mem_cons_of_mem p inside)) ?_
    · rw [memories,written]
    · rw [memories,written]
    · intro q inside
      rw [kept]
      exact accepted q (List.mem_cons_of_mem p inside)

/-- The node leads, and once it has applied the log it takes what it writes. -/
structure Leads (env : Env) (readings : Nat → Reading) (c : Cluster) (i : NodeId) : Prop where
  leader : c.leader = some i
  behind : (c.nodes i).applied ≤ c.log.length
  running : ((c.nodes i).catchUp env readings c.log).halted = false
  applied : ((c.nodes i).catchUp env readings c.log).applied = c.log.length

def Cluster.path (env : Env) (readings : Nat → Reading) (c : Cluster) (i : NodeId) : WritePath :=
  ⟨c.engine i,((c.nodes i).catchUp env readings c.log).engine.memories⟩

variable {readings : Nat → Reading} {c : Cluster} {i : NodeId}

variable (env readings) in
theorem catchUp_config (log : List AppRequest) (node : Node) :
    (node.catchUp env readings log).engine.config = node.engine.config := by
  unfold Node.catchUp
  generalize log.drop node.applied = rest
  induction rest generalizing node with
  | nil => rfl
  | cons request rest ih =>
    rw [List.foldl_cons,ih]
    unfold applyEntry
    split
    next => rfl
    next =>
      have kept := applyRequest_config env (readings node.applied) node.engine request
      split <;> simp_all

private theorem catchUp_append (node : Node) (log : List AppRequest) (request : AppRequest)
    (behind : node.applied ≤ log.length) : node.catchUp env readings (log ++ [request]) =
      applyEntry env (readings (node.catchUp env readings log).applied) (node.catchUp env readings log) request := by
  unfold Node.catchUp
  rw [List.drop_append_of_le_length behind,List.foldl_append]
  rfl

variable (env readings) in
private theorem catchUp_applied (node : Node) (log : List AppRequest) (behind : node.applied ≤ log.length) :
    (node.catchUp env readings log).applied ≤ log.length := by
  have grows (rest : List AppRequest) (node : Node) :
      (rest.foldl (fun node request => applyEntry env (readings node.applied) node request) node).applied ≤
        node.applied + rest.length := by
    induction rest generalizing node with
    | nil => exact le_rfl
    | cons request rest ih =>
      have one : (applyEntry env (readings node.applied) node request).applied ≤ node.applied + 1 := by
        unfold applyEntry
        split
        next => exact Nat.le_succ _
        next => split <;> simp
      rw [List.foldl_cons,List.length_cons]
      exact (ih _).trans (by omega)
  have bound := grows (log.drop node.applied) node
  rw [List.length_drop] at bound
  exact bound.trans (by omega)

private theorem catchUp_done (node : Node) (log : List AppRequest) (done : node.applied = log.length) :
    node.catchUp env readings log = node := by
  rw [Node.catchUp,done,List.drop_length]
  rfl

theorem leads_of_written {rows : List MemoryRow} (behind : (c.nodes i).applied ≤ c.log.length)
    (ok : (c.clientWrite env readings i (.memoryUpsert rows)).1 = true) : Leads env readings c i := by
  unfold Cluster.clientWrite at ok
  split at ok
  next leader =>
    have counted := of_decide_eq_true ok
    dsimp only at counted
    rw [catchUp_append _ _ _ behind,List.length_append,List.length_singleton] at counted
    cases running : ((c.nodes i).catchUp env readings c.log).halted with
    | true =>
      have bound := catchUp_applied env readings (c.nodes i) c.log behind
      rw [applyEntry,if_pos running] at counted
      omega
    | false =>
      refine ⟨leader,behind,running,?_⟩
      simp only [applyEntry,running,applyRequest] at counted
      exact Nat.succ.inj counted
  next => cases ok

theorem Leads.write (leads : Leads env readings c i) (rows : List MemoryRow) :
    ∃ after, c.clientWrite env readings i (.memoryUpsert rows) = (true,after) ∧ Leads env readings after i ∧
      (after.engine i).config = (c.engine i).config ∧
      (after.engine i).memories = (c.path env readings i).table.upsertRows rows ∧
      (after.path env readings i).table = (c.path env readings i).table.upsertRows rows := by
  set settled := (c.nodes i).catchUp env readings c.log with caught
  set node : Node := ⟨memoryApplyRows env (readings settled.applied).stamp settled.engine rows,settled.applied + 1,false⟩
    with written
  have entry : (c.nodes i).catchUp env readings (c.log ++ [.memoryUpsert rows]) = node := by
    rw [catchUp_append _ _ _ leads.behind,← caught,applyEntry,leads.running]
    rfl
  have count : node.applied = (c.log ++ [AppRequest.memoryUpsert rows]).length := by
    rw [List.length_append,List.length_singleton]
    exact congrArg (· + 1) leads.applied
  set after : Cluster := ({ c with log := c.log ++ [.memoryUpsert rows] } : Cluster).setNode i node with left
  have own : after.nodes i = node := by
    simp [left,Cluster.setNode]
  have log : after.log = c.log ++ [.memoryUpsert rows] := rfl
  have still : (after.nodes i).catchUp env readings after.log = node := by
    rw [own,log]
    exact catchUp_done node _ count
  have memories : node.engine.memories = settled.engine.memories.upsertRows rows :=
    memoryApplyRows_memories env _ settled.engine rows
  refine ⟨after,?_,⟨leads.leader,?_,?_,?_⟩,?_,?_,?_⟩
  · unfold Cluster.clientWrite
    rw [if_pos leads.leader]
    dsimp only
    rw [entry,decide_eq_true count]
  · rw [own,log,count]
  · rw [still]
  · rw [still,log]
    exact count
  · rw [Cluster.engine,own,Cluster.engine,← catchUp_config env readings c.log (c.nodes i)]
    exact memoryApplyRows_config env _ settled.engine rows
  · rw [Cluster.engine,own]
    exact memories
  · rw [Cluster.path,still]
    exact memories

/-- The leader stands where the path does. -/
structure Follows (env : Env) (readings : Nat → Reading) (c : Cluster) (i : NodeId) (s : WritePath) : Prop where
  leads : Leads env readings c i
  config : (c.engine i).config = s.engine.config
  planned : (c.engine i).memories = s.engine.memories
  written : (c.path env readings i).table = s.table

theorem Follows.propose {s : WritePath} (follows : Follows env readings c i s) (off : s.engine.config.embedding = false)
    {input : MemoryInput} {d : Draw} (accepted : Accepts env s.engine.config input) :
    ∃ after, c.proposePlanned env readings i (memoryPlan env (c.engine i) d input) = (.ok,after) ∧
      Follows env readings after i (s.step env (input,d)) := by
  obtain ⟨plan,ok⟩ := (memoryPlan_accepted env (d := d) (Or.inl off)).mpr accepted
  obtain ⟨after,wrote,leads,config,memories,table⟩ := follows.leads.write plan.rows
  refine ⟨after,?_,?_⟩
  · rw [memoryPlan_tables off follows.config follows.planned,ok]
    simp only [Cluster.proposePlanned,Cluster.propose,Cluster.clientWrites,wrote]
  · rw [WritePath.step,ok]
    refine ⟨leads,config.trans follows.config,?_,?_⟩
    · rw [memories,follows.written]
    · rw [table,follows.written]

theorem Follows.addEach {s : WritePath} {items : List (MemoryInput × Draw)} (follows : Follows env readings c i s)
    (off : s.engine.config.embedding = false) (accepted : ∀ item ∈ items, Accepts env s.engine.config item.1) :
    ∃ after, Rest.addEach env readings i c items = (.ok,after) ∧
      Follows env readings after i (run (WritePath.step env) s items) := by
  induction items generalizing c s with
  | nil => exact ⟨c,rfl,follows⟩
  | cons item items ih =>
    obtain ⟨after,ok,next⟩ := follows.propose off (d := item.2) (accepted item List.mem_cons_self)
    have kept : (s.step env item).engine.config = s.engine.config := WritePath.step_config s item
    obtain ⟨last,each,final⟩ := ih next (by rw [kept]; exact off) (by
      intro other inside
      rw [kept]
      exact accepted other (List.mem_cons_of_mem item inside))
    refine ⟨last,?_,final⟩
    simp only [Rest.addEach,ok,each]

theorem Follows.sendEach {s : WritePath} {caller : Caller} {reqs : List (MemoryAddRequest × Nat)} {draws : Nat → Draw}
    (follows : Follows env readings c i s) (off : s.engine.config.embedding = false)
    (filled : ∀ p ∈ reqs, blank p.1.content = false)
    (accepted : ∀ p ∈ reqs, Accepts env s.engine.config (p.1.input caller)) :
    Follows env readings (reqs.foldl (fun c p => (Rest.memoryAdd env readings c i caller p.1 (draws p.2)).2) c) i
      (run (WritePath.step env) s (reqs.map (fun p => (p.1.input caller,draws p.2)))) := by
  induction reqs generalizing c s with
  | nil => exact follows
  | cons p reqs ih =>
    obtain ⟨after,ok,next⟩ := follows.propose off (d := draws p.2) (accepted p List.mem_cons_self)
    have answer : (Rest.memoryAdd env readings c i caller p.1 (draws p.2)).2 = after := by
      unfold Rest.memoryAdd
      rw [filled p List.mem_cons_self,if_neg (by simp),ok]
    have kept : (s.step env (p.1.input caller,draws p.2)).engine.config = s.engine.config := WritePath.step_config s _
    rw [List.foldl_cons,List.map_cons,run_cons,answer]
    refine ih next ?_ (fun q inside => filled q (List.mem_cons_of_mem p inside)) ?_
    · rw [kept]
      exact off
    · intro q inside
      rw [kept]
      exact accepted q (List.mem_cons_of_mem p inside)

theorem WritePath.run_settled {s : WritePath} {items : List (MemoryInput × Draw)} (enterable : Enterable env s items)
    (some : items ≠ []) : (run (WritePath.step env) s items).Settled := by
  cases items with
  | nil => exact absurd rfl some
  | cons item items =>
    obtain ⟨plan,ok⟩ := (memoryPlan_accepted env (d := item.2) (Or.inl enterable.off)).mpr
      (enterable.accepted item List.mem_cons_self)
    have first : (s.step env item).Settled := by
      rw [WritePath.step,ok]
      rfl
    have keeps (rest : List (MemoryInput × Draw)) {t : WritePath} (settled : t.Settled) :
        (run (WritePath.step env) t rest).Settled := by
      induction rest generalizing t with
      | nil => exact settled
      | cons other rest ih => exact ih (WritePath.step_settled settled other)
    exact keeps items first

theorem Rest.addEach_ok {items : List (MemoryInput × Draw)} (off : (c.engine i).config.embedding = false)
    (behind : (c.nodes i).applied ≤ c.log.length) (ok : (Rest.addEach env readings i c items).1 = .ok) :
    (∀ item ∈ items, Accepts env (c.engine i).config item.1) ∧ (items ≠ [] → Leads env readings c i) := by
  induction items generalizing c with
  | nil => exact ⟨by simp,fun some => absurd rfl some⟩
  | cons item items ih =>
    unfold Rest.addEach at ok
    cases planned : memoryPlan env (c.engine i) item.2 item.1 with
    | error err =>
      rw [planned] at ok
      cases ok
    | ok plan =>
      rw [planned] at ok
      simp only [Cluster.proposePlanned,Cluster.propose,Cluster.clientWrites] at ok
      rcases wrote : c.clientWrite env readings i (.memoryUpsert plan.rows) with ⟨answer,after⟩
      rw [wrote] at ok
      cases answer with
      | false => cases ok
      | true =>
        have leads : Leads env readings c i := leads_of_written behind (by rw [wrote])
        obtain ⟨after',wrote',next,config,_,_⟩ := leads.write plan.rows
        cases wrote.symm.trans wrote'
        obtain ⟨accepted,_⟩ := ih (by rw [config]; exact off) next.behind ok
        rw [config] at accepted
        refine ⟨?_,fun _ => leads⟩
        intro other inside
        rcases List.mem_cons.mp inside with rfl | later
        · exact (memoryPlanWithEmbedding_cases env planned).1
        · exact accepted other later

theorem Rest.memoryAddBatch_enters {caller : Caller} {reqs : List MemoryAddRequest} {draws : Nat → Draw}
    (off : (c.engine i).config.embedding = false) (behind : (c.nodes i).applied ≤ c.log.length)
    (ok : (Rest.memoryAddBatch env readings c i caller reqs draws).1 = .ok) :
    reqs ≠ [] ∧ (∀ req ∈ reqs, blank req.content = false) ∧ Leads env readings c i ∧
      (∀ item ∈ batchItems caller reqs draws, Accepts env (c.engine i).config item.1) ∧
      Rest.memoryAddBatch env readings c i caller reqs draws =
        Rest.addEach env readings i c ((batchItems caller reqs draws).map undatedItem) := by
  unfold Rest.memoryAddBatch at ok ⊢
  split at ok
  next => cases ok
  next some =>
    rw [if_neg some]
    split at ok
    next => cases ok
    next small =>
      rw [if_neg small]
      cases found : reqs.findIdx? (fun req => blank req.content) with
      | some k =>
        rw [found] at ok
        cases ok
      | none =>
        rw [found] at ok
        dsimp only at ok ⊢
        rw [batchItems_undated] at ok ⊢
        have nonempty : reqs ≠ [] := by simpa using some
        have items : (batchItems caller reqs draws).map undatedItem ≠ [] := by
          simpa [batchItems_eq] using nonempty
        obtain ⟨accepted,leads⟩ := Rest.addEach_ok off behind ok
        refine ⟨nonempty,?_,leads items,?_,rfl⟩
        · intro req inside
          simpa using List.findIdx?_eq_none_iff.mp found req inside
        · intro item inside
          exact accepted (undatedItem item) (List.mem_map_of_mem inside)

/-- Sent in one request the memories are those of one request each, on one node and through the log, exactly when no
date makes a difference. -/
theorem batch_matches_singles_iff (env : Env) (caller : Caller) (reqs : List MemoryAddRequest) (draws : Nat → Draw)
    (distinct : ((batchItems caller reqs draws).map (fun item => item.2.id)).Nodup) :
    (∀ e : Engine, PlainConfig e.config → (∀ item ∈ batchItems caller reqs draws, item.2.id ∉ e.memories.keys) →
      (OneNode.memoryAddBatch env e caller reqs draws).1 = .ok →
        ((OneNode.memoryAddBatch env e caller reqs draws).2.memories.Same
            (sendEach (fun e => OneNode.memoryAdd env e caller) e reqs draws).memories ↔
          Along (WritePath.step env) (DateIdle env) ⟨e,e.memories⟩ (batchItems caller reqs draws))) ∧
    (∀ (readings : Nat → Reading) (c : Cluster) (i : NodeId), PlainConfig (c.engine i).config →
      (c.nodes i).applied ≤ c.log.length →
      (∀ item ∈ batchItems caller reqs draws, item.2.id ∉ (c.engine i).memories.keys ∧
        item.2.id ∉ (c.path env readings i).table.keys) →
      (Rest.memoryAddBatch env readings c i caller reqs draws).1 = .ok →
        (((Rest.memoryAddBatch env readings c i caller reqs draws).2.engine i).memories.Same
            ((sendEach (fun c => Rest.memoryAdd env readings c i caller) c reqs draws).engine i).memories ↔
          Along (WritePath.step env) (DateIdle env) (c.path env readings i) (batchItems caller reqs draws))) := by
  have positions : ∀ p ∈ reqs.zipIdx, p.1 ∈ reqs := fun p inside => List.fst_mem_of_mem_zipIdx inside
  refine ⟨?_,?_⟩
  · intro e plain fresh ok
    obtain ⟨filled,enterable,memories⟩ := OneNode.memoryAddBatch_path plain fresh distinct ok
    have singles : (sendEach (fun e => OneNode.memoryAdd env e caller) e reqs draws).memories =
        (run (WritePath.step env) ⟨e,e.memories⟩ (batchItems caller reqs draws)).table := by
      rw [batchItems_eq]
      refine OneNode.sendEach_path plain rfl rfl rfl (fun p inside => filled p.1 (positions p inside)) ?_
      intro p inside
      refine enterable.accepted (p.1.input caller,draws p.2) ?_
      rw [batchItems_eq]
      exact List.mem_map_of_mem inside
    rw [memories,singles]
    exact undated_same_iff enterable
  · intro readings c i plain behind fresh ok
    obtain ⟨some,filled,leads,accepted,shape⟩ := Rest.memoryAddBatch_enters plain.embedding behind ok
    have enterable : Enterable env (c.path env readings i) (batchItems caller reqs draws) :=
      ⟨plain.embedding,accepted,fun item inside => (fresh item inside).1,fun item inside => (fresh item inside).2,distinct⟩
    have items : batchItems caller reqs draws ≠ [] := by
      simpa [batchItems_eq] using some
    have start : Follows env readings c i (c.path env readings i) := ⟨leads,rfl,rfl,rfl⟩
    have acceptedU : ∀ item ∈ (batchItems caller reqs draws).map undatedItem,
        Accepts env (c.path env readings i).engine.config item.1 := by
      intro item inside
      obtain ⟨dated,listed,rfl⟩ := List.mem_map.mp inside
      exact accepted dated listed
    obtain ⟨after,each,batch⟩ := start.addEach plain.embedding acceptedU
    have singles : Follows env readings (sendEach (fun c => Rest.memoryAdd env readings c i caller) c reqs draws) i
        (run (WritePath.step env) (c.path env readings i) (batchItems caller reqs draws)) := by
      rw [batchItems_eq]
      refine start.sendEach plain.embedding (fun p inside => filled p.1 (positions p inside)) ?_
      intro p inside
      refine accepted (p.1.input caller,draws p.2) ?_
      rw [batchItems_eq]
      exact List.mem_map_of_mem inside
    have settledU := WritePath.run_settled enterable.undated (by simpa using items)
    have settledD := WritePath.run_settled enterable items
    rw [shape,each,batch.planned,singles.planned,settledU,settledD]
    exact undated_same_iff enterable

end

section
private def addRequest (content : String) (validFrom : Option Int) : MemoryAddRequest :=
  ⟨content,none,none,⟨none,none,none,none⟩,none,none,none,validFrom⟩

def anonymous : Caller := ⟨none,none⟩

def twoDraws (n : Nat) : Draw := if n = 0 then .plain 1000 1 else .plain 2000 2

def undatedRequests : List MemoryAddRequest := [addRequest "call back" none,addRequest "order tea" none]

theorem plain_default : PlainConfig CoreConfig.default := ⟨rfl,rfl,rfl⟩

theorem batch_matches_singles_iff_two :
    ((OneNode.memoryAddBatch .ascii (.empty .default 2) anonymous undatedRequests twoDraws).2.memories.Same
        (sendEach (fun e => OneNode.memoryAdd .ascii e anonymous) (.empty .default 2) undatedRequests twoDraws).memories ↔
      Along (WritePath.step .ascii) (DateIdle .ascii) ⟨.empty .default 2,.empty⟩
        (batchItems anonymous undatedRequests twoDraws)) ∧
    (((Rest.memoryAddBatch .ascii (fun _ => .uniform 0) (.formed (.empty .default 2) (some 0)) 0 anonymous
        undatedRequests twoDraws).2.engine 0).memories.Same
        ((sendEach (fun c => Rest.memoryAdd .ascii (fun _ => .uniform 0) c 0 anonymous)
          (.formed (.empty .default 2) (some 0)) undatedRequests twoDraws).engine 0).memories ↔
      Along (WritePath.step .ascii) (DateIdle .ascii)
        (Cluster.path .ascii (fun _ => .uniform 0) (.formed (.empty .default 2) (some 0)) 0)
        (batchItems anonymous undatedRequests twoDraws)) := by
  have distinct : ((batchItems anonymous undatedRequests twoDraws).map (fun item => item.2.id)).Nodup := by decide +kernel
  have both := batch_matches_singles_iff .ascii anonymous undatedRequests twoDraws distinct
  refine ⟨both.1 (.empty .default 2) plain_default ?_ ?_,
    both.2 (fun _ => .uniform 0) (.formed (.empty .default 2) (some 0)) 0 plain_default ?_ ?_ ?_⟩
  · decide +kernel
  · decide +kernel
  · decide +kernel
  · decide +kernel
  · decide +kernel

/-- A decision that was taken long before it is imported. -/
def datedRequests : List MemoryAddRequest := [addRequest "we chose tea" (some 0)]

theorem batch_forgets_date :
    (OneNode.memoryAddBatch .ascii (.empty .default 2) anonymous datedRequests
        (fun _ => .plain (5 * microsecond) 1)).1 = .ok ∧
      ¬(OneNode.memoryAddBatch .ascii (.empty .default 2) anonymous datedRequests
        (fun _ => .plain (5 * microsecond) 1)).2.memories.Same
        (sendEach (fun e => OneNode.memoryAdd .ascii e anonymous) (.empty .default 2) datedRequests
          (fun _ => .plain (5 * microsecond) 1)).memories := by
  refine ⟨by decide +kernel,?_⟩
  intro same
  have begins := congrArg (Option.map (fun row => row.memory.validFrom)) (same 1)
  revert begins
  decide +kernel

end

end Ecphoria
