import Ecphoria.Engine.State

/-! Planning a memory: governance, then contradiction by subject, then merge by
vector, then a plain insertion. A plan reads the stores and writes nothing. -/
namespace Ecphoria
open Library

/-- The instant at which a new version takes over from `previous`. -/
def validBoundary (requested previous : Option Int) (recordedAt : Int) : Int :=
  let candidate := requested.getD recordedAt
  match previous with
  | some prev => if candidate ≤ prev then max recordedAt (prev + microsecond) else candidate
  | none => candidate

def maxRat (a b : Rat) : Rat := if a ≤ b then b else a

abbrev Planned := MemoryAdd × List MemoryRow

def Planned.add (p : Planned) : MemoryAdd := p.1

def Planned.rows (p : Planned) : List MemoryRow := p.2

def closeRow (validAt recordedAt : Int) (m : Memory) : MemoryRow :=
  ⟨{ m with state := .superseded, validTo := some validAt, updatedAt := recordedAt },none⟩

def draftMemory (d : Draw) (input : MemoryInput) (importance : Rat) : Memory :=
  { Memory.new d.id d.now input.scope input.content with
    importance := importance
    sourceEventIds := input.sourceEventIds
    metadata := input.metadata
    memType := input.memType.getD "semantic" }

def canonicalInput (env : Env) (input : MemoryInput) : MemoryInput :=
  { input with scope := input.scope.withDefaultTenant, subject := canonicalSubject env input.subject }

def planConfirmed (e : Engine) (d : Draw) (importance : Rat) (embedding : Option (List Rat))
    (existing : Memory) : Planned :=
  let m := { existing with
    importance := maxRat importance existing.importance
    version := existing.version + 1
    updatedAt := d.recordedAt }
  (⟨m,.confirmed⟩,[⟨m,embedding.or (e.memories.getEmbedding existing.id)⟩])

/-- Review mode: the new version stands beside the old ones. It carries no project. -/
def planConflict (d : Draw) (input : MemoryInput) (importance : Rat) (embedding : Option (List Rat))
    (subject : String) : Planned :=
  let m := { draftMemory d input importance with subject := some subject }
  (⟨m,.conflict⟩,[⟨m,embedding⟩])

def planSuperseded (d : Draw) (input : MemoryInput) (importance : Rat) (embedding : Option (List Rat))
    (subject : String) (existing : Memory) (others : List Memory) : Planned :=
  let actives := existing :: others
  let validAt := validBoundary input.validFrom (actives.map Memory.validFrom).max? d.recordedAt
  let m := { draftMemory d input importance with
    subject := some subject
    project := input.project
    supersedes := some existing.id
    validFrom := validAt }
  (⟨m,.superseded⟩,actives.map (closeRow validAt d.recordedAt) ++ [⟨m,embedding⟩])

def planMerged (d : Draw) (input : MemoryInput) (importance : Rat) (embedding : Option (List Rat))
    (top : Memory) : Planned :=
  let validAt := validBoundary input.validFrom (some top.validFrom) d.recordedAt
  let m := { draftMemory d input (maxRat importance top.importance) with
    subject := top.subject
    project := input.project.or top.project
    supersedes := some top.id
    validFrom := validAt
    sourceEventIds := input.sourceEventIds.foldl
      (fun src id => if id ∈ src then src else src ++ [id]) top.sourceEventIds }
  (⟨m,.merged⟩,[closeRow validAt d.recordedAt top,⟨m,embedding⟩])

def planInserted (d : Draw) (input : MemoryInput) (importance : Rat) (embedding : Option (List Rat)) :
    Planned :=
  let m := { draftMemory d input importance with
    subject := input.subject
    project := input.project
    validFrom := input.validFrom.getD d.now }
  (⟨m,.inserted⟩,[⟨m,embedding⟩])

def importanceOf (e : Engine) (input : MemoryInput) : Rat :=
  input.importance.getD e.config.cognition.defaultImportance

def planSubject (e : Engine) (d : Draw) (input : MemoryInput) (embedding : Option (List Rat))
    (subject : String) : Planned :=
  match e.memories.findActiveBySubject input.scope subject input.project with
  | [] => planInserted d input (importanceOf e input) embedding
  | existing :: others =>
    if trim existing.content = trim input.content then
      planConfirmed e d (importanceOf e input) embedding existing
    else if e.config.cognition.contradictionReview then
      planConflict d input (importanceOf e input) embedding subject
    else planSuperseded d input (importanceOf e input) embedding subject existing others

def mergeTarget (e : Engine) (d : Draw) (scope : MemoryScope) (embedding : Option (List Rat)) :
    Except Error (Option Memory) :=
  match embedding with
  | none => .ok none
  | some emb =>
    match e.memoryIndexSearch emb scope 1 d.matched with
    | .error err => .error err
    | .ok hits => .ok ((hits.head?.filter (fun (_,score) => e.config.cognition.dedupThreshold ≤ score)).map
        Prod.fst)

def planUnkeyed (e : Engine) (d : Draw) (input : MemoryInput) (embedding : Option (List Rat)) :
    Except Error Planned :=
  match mergeTarget e d input.scope embedding with
  | .error err => .error err
  | .ok (some top) => .ok (planMerged d input (importanceOf e input) embedding top)
  | .ok none => .ok (planInserted d input (importanceOf e input) embedding)

section
variable (env : Env)

def memoryPlanWithEmbedding (e : Engine) (d : Draw) (input : MemoryInput) (embedding : Option (List Rat)) :
    Except Error Planned :=
  let input := canonicalInput env input
  match checkGovernance env e.config input.scope input.subject input.metadata input.sourceEventIds with
  | .error err => .error err
  | .ok () =>
    match input.subject with
    | some subject => .ok (planSubject e d input embedding subject)
    | none => planUnkeyed e d input embedding

def memoryPlan (e : Engine) (d : Draw) (input : MemoryInput) : Except Error Planned :=
  memoryPlanWithEmbedding env e d input (e.embedMemoryContent d)

def Accepts (config : CoreConfig) (input : MemoryInput) : Prop :=
  checkGovernance env config (canonicalInput env input).scope (canonicalInput env input).subject
    input.metadata input.sourceEventIds = .ok ()

instance (config : CoreConfig) (input : MemoryInput) : Decidable (Accepts env config input) :=
  inferInstanceAs (Decidable (checkGovernance _ _ _ _ _ _ = .ok ()))

inductive PlanCase (e : Engine) (d : Draw) (input : MemoryInput) (embedding : Option (List Rat)) :
    Planned → Prop
  | confirmed (subject : String) (existing : Memory) (others : List Memory)
      (keyed : (canonicalInput env input).subject = some subject)
      (found : e.memories.findActiveBySubject (canonicalInput env input).scope subject input.project =
        existing :: others)
      (same : trim existing.content = trim input.content) :
      PlanCase e d input embedding (planConfirmed e d (importanceOf e input) embedding existing)
  | conflict (subject : String) (existing : Memory) (others : List Memory)
      (keyed : (canonicalInput env input).subject = some subject)
      (found : e.memories.findActiveBySubject (canonicalInput env input).scope subject input.project =
        existing :: others)
      (review : e.config.cognition.contradictionReview = true) :
      PlanCase e d input embedding
        (planConflict d (canonicalInput env input) (importanceOf e input) embedding subject)
  | superseded (subject : String) (existing : Memory) (others : List Memory)
      (keyed : (canonicalInput env input).subject = some subject)
      (found : e.memories.findActiveBySubject (canonicalInput env input).scope subject input.project =
        existing :: others)
      (differs : trim existing.content ≠ trim input.content) :
      PlanCase e d input embedding (planSuperseded d (canonicalInput env input) (importanceOf e input)
        embedding subject existing others)
  | merged (top : Memory) (unkeyed : (canonicalInput env input).subject = none)
      (hit : mergeTarget e d (canonicalInput env input).scope embedding = .ok (some top)) :
      PlanCase e d input embedding
        (planMerged d (canonicalInput env input) (importanceOf e input) embedding top)
  | inserted
      (absent : ∀ subject, (canonicalInput env input).subject = some subject →
        e.memories.findActiveBySubject (canonicalInput env input).scope subject input.project = [])
      (missed : (canonicalInput env input).subject = none →
        mergeTarget e d (canonicalInput env input).scope embedding = .ok none) :
      PlanCase e d input embedding
        (planInserted d (canonicalInput env input) (importanceOf e input) embedding)

theorem memoryPlanWithEmbedding_cases {e : Engine} {d : Draw} {input : MemoryInput}
    {embedding : Option (List Rat)} {planned : Planned}
    (ok : memoryPlanWithEmbedding env e d input embedding = .ok planned) :
    Accepts env e.config input ∧ PlanCase env e d input embedding planned := by
  simp only [memoryPlanWithEmbedding] at ok
  split at ok
  next err refused => cases ok
  next accepted =>
    refine ⟨accepted,?_⟩
    split at ok
    next subject keyed =>
      cases ok
      unfold planSubject
      split
      next absent =>
        refine .inserted ?_ (by simp [keyed])
        intro other equal
        cases keyed.symm.trans equal
        exact absent
      next existing others found =>
        split
        next same => exact .confirmed subject existing others keyed found same
        next differs =>
          split
          next review => exact .conflict subject existing others keyed found review
          next off => exact .superseded subject existing others keyed found differs
    next unkeyed =>
      unfold planUnkeyed at ok
      split at ok
      next err failed => cases ok
      next top hit =>
        cases ok
        exact .merged top unkeyed hit
      next missed =>
        cases ok
        exact .inserted (by simp [unkeyed]) (fun _ => missed)

end

theorem memoryIndexSearch_active {e : Engine} {vector : List Rat} {scope : MemoryScope} {k : Nat}
    {matched : List (Uuid × Rat)} {hits : List (Memory × Rat)} {hit : Memory × Rat}
    (ok : e.memoryIndexSearch vector scope k matched = .ok hits) (member : hit ∈ hits) :
    hit.1.state = .active ∧ ∃ row ∈ e.memories.rows, row.memory = hit.1 := by
  unfold Engine.memoryIndexSearch at ok
  split at ok
  next err failed => cases ok
  next results searched =>
    cases ok
    obtain ⟨⟨entry,score⟩,_,found⟩ := List.mem_filterMap.mp member
    dsimp only at found
    split at found
    next m stored =>
      split at found
      next active =>
        cases found
        obtain ⟨row,inside,equal,_⟩ := MemoryTable.get_eq_some stored
        exact ⟨active,row,inside,equal⟩
      next closed => cases found
    next missing => cases found

theorem mergeTarget_active {e : Engine} {d : Draw} {scope : MemoryScope} {embedding : Option (List Rat)}
    {top : Memory} (hit : mergeTarget e d scope embedding = .ok (some top)) :
    top.state = .active ∧ ∃ row ∈ e.memories.rows, row.memory = top := by
  unfold mergeTarget at hit
  split at hit
  next => cases hit
  next emb =>
    split at hit
    next err failed => cases hit
    next hits searched =>
      simp only [Except.ok.injEq,Option.map_eq_some_iff,Option.filter_eq_some_iff] at hit
      obtain ⟨found,⟨first,_⟩,rfl⟩ := hit
      exact memoryIndexSearch_active searched (List.mem_of_head? first)

theorem PlanCase.targets {env : Env} {e : Engine} {d : Draw} {input : MemoryInput}
    {embedding : Option (List Rat)} {planned : Planned} (plan : PlanCase env e d input embedding planned)
    {row : MemoryRow} (inside : row ∈ planned.rows) :
    (∃ old ∈ e.memories.rows, old.memory.state = .active ∧ old.id = row.id) ∨
      row.id = d.id ∧ row.memory.state = .active := by
  have found {subject : String} {m : Memory}
      (listed : m ∈ e.memories.findActiveBySubject (canonicalInput env input).scope subject input.project) :
      ∃ old ∈ e.memories.rows, old.memory.state = .active ∧ old.id = m.id := by
    obtain ⟨old,member,rfl,_,_,_,active⟩ := MemoryTable.mem_findActiveBySubject.mp listed
    exact ⟨old,member,active,rfl⟩
  cases plan with
  | confirmed subject existing others keyed read same =>
    cases List.mem_singleton.mp inside
    have listed : existing ∈ existing :: others := List.mem_cons_self
    obtain ⟨old,member,active,equal⟩ := found (read ▸ listed)
    exact Or.inl ⟨old,member,active,equal⟩
  | conflict subject existing others keyed read review =>
    cases List.mem_singleton.mp inside
    exact Or.inr ⟨rfl,rfl⟩
  | superseded subject existing others keyed read differs =>
    rcases List.mem_append.mp inside with inside | inside
    · obtain ⟨m,listed,rfl⟩ := List.mem_map.mp inside
      obtain ⟨old,member,active,equal⟩ := found (read ▸ listed)
      exact Or.inl ⟨old,member,active,equal⟩
    · cases List.mem_singleton.mp inside
      exact Or.inr ⟨rfl,rfl⟩
  | merged top unkeyed hit =>
    rcases List.mem_cons.mp inside with rfl | inside
    · obtain ⟨active,old,member,rfl⟩ := mergeTarget_active hit
      exact Or.inl ⟨old,member,active,rfl⟩
    · cases List.mem_singleton.mp inside
      exact Or.inr ⟨rfl,rfl⟩
  | inserted absent missed =>
    cases List.mem_singleton.mp inside
    exact Or.inr ⟨rfl,rfl⟩

end Ecphoria
