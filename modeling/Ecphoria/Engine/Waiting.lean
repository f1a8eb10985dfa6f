import Ecphoria.Engine.Frame

/-! What a batch has planned and not yet applied. A row of a plan is new, says a stored
memory again, or closes one; the rows waiting in the buffer never say one memory
twice, because an input under a waiting subject flushes it. -/
namespace Ecphoria
open Library

section
variable (env : Env)

def UnderKey (input : MemoryInput) (old : MemoryRow) : Prop :=
  ∃ subject, old.memory.subject = some subject ∧
    batchKey env input = some (scopePartitionKey old.memory.scope,subject)

inductive PlannedRow (e : Engine) (d : Draw) (input : MemoryInput) (embedding : Option (List Rat)) (row : MemoryRow) : Prop
  | drawn (own : row.id = d.id) (active : row.memory.state = .active) (vector : row.embedding = embedding)
  | confirmed (old : MemoryRow) (member : old ∈ e.memories.rows) (same : old.id = row.id)
      (stored : old.memory.state = .active) (active : row.memory.state = .active) (under : UnderKey env input old)
      (vector : row.embedding = embedding.or (e.memories.getEmbedding old.id))
  | closed (old : MemoryRow) (member : old ∈ e.memories.rows) (same : old.id = row.id)
      (idle : row.memory.state ≠ .active)
      (how : UnderKey env input old ∨ (canonicalInput env input).subject = none ∧
        mergeTarget e d (canonicalInput env input).scope embedding = .ok (some old.memory))

variable {env}

private theorem listed_under {e : Engine} {input : MemoryInput} {subject : String} {m : Memory}
    (keyed : (canonicalInput env input).subject = some subject)
    (listed : m ∈ e.memories.findActiveBySubject (canonicalInput env input).scope subject input.project) :
    ∃ old ∈ e.memories.rows, old.memory = m ∧ UnderKey env input old := by
  obtain ⟨old,member,rfl,scope,about,_,_⟩ := MemoryTable.mem_findActiveBySubject.mp listed
  have whole : (canonicalInput env input).scope.withDefaultTenant = (canonicalInput env input).scope := by
    simp [canonicalInput]
  refine ⟨old,member,rfl,subject,about,?_⟩
  rw [batchKey_keyed env keyed,scope,whole]

theorem PlanCase.row {e : Engine} {d : Draw} {input : MemoryInput} {embedding : Option (List Rat)}
    {planned : Planned} (plan : PlanCase env e d input embedding planned) {row : MemoryRow}
    (inside : row ∈ planned.rows) : PlannedRow env e d input embedding row := by
  cases plan with
  | confirmed subject existing others keyed read same =>
    cases List.mem_singleton.mp inside
    have listed : existing ∈ existing :: others := List.mem_cons_self
    obtain ⟨old,member,rfl,under⟩ := listed_under keyed (read ▸ listed)
    obtain ⟨_,_,_,_,_,_,active⟩ := MemoryTable.mem_findActiveBySubject.mp (read ▸ listed)
    exact .confirmed old member rfl active active under rfl
  | conflict subject existing others keyed read review =>
    cases List.mem_singleton.mp inside
    exact .drawn rfl rfl rfl
  | superseded subject existing others keyed read differs =>
    rcases List.mem_append.mp inside with inside | inside
    · obtain ⟨m,listed,rfl⟩ := List.mem_map.mp inside
      obtain ⟨old,member,rfl,under⟩ := listed_under keyed (read ▸ listed)
      exact .closed old member rfl (by simp [closeRow]) (Or.inl under)
    · cases List.mem_singleton.mp inside
      exact .drawn rfl rfl rfl
  | merged top unkeyed hit =>
    rcases List.mem_cons.mp inside with rfl | inside
    · obtain ⟨_,old,member,rfl⟩ := mergeTarget_active hit
      exact .closed old member rfl (by simp [closeRow]) (Or.inr ⟨unkeyed,hit⟩)
    · cases List.mem_singleton.mp inside
      exact .drawn rfl rfl rfl
  | inserted absent missed =>
    cases List.mem_singleton.mp inside
    exact .drawn rfl rfl rfl

theorem PlanCase.closes_first {e : Engine} {d : Draw} {input : MemoryInput} {embedding : Option (List Rat)}
    {planned : Planned} (plan : PlanCase env e d input embedding planned) :
    ∃ closed last, planned.rows = closed ++ [last] ∧ ∀ row ∈ closed, row.memory.state ≠ .active := by
  cases plan with
  | confirmed subject existing others keyed read same => exact ⟨[],_,rfl,by simp⟩
  | conflict subject existing others keyed read review => exact ⟨[],_,rfl,by simp⟩
  | superseded subject existing others keyed read differs =>
    refine ⟨_,_,rfl,?_⟩
    intro row inside
    obtain ⟨m,_,rfl⟩ := List.mem_map.mp inside
    simp [closeRow]
  | merged top unkeyed hit => exact ⟨[_],_,rfl,by simp [closeRow]⟩
  | inserted absent missed => exact ⟨[],_,rfl,by simp⟩

theorem PlanCase.pairwise {e : Engine} {d : Draw} {input : MemoryInput} {embedding : Option (List Rat)}
    {planned : Planned} (plan : PlanCase env e d input embedding planned) {R : MemoryRow → MemoryRow → Prop}
    (idle : ∀ a b, a.memory.state ≠ .active → R a b) : planned.rows.Pairwise R := by
  obtain ⟨closed,last,rows,closes⟩ := plan.closes_first
  rw [rows]
  refine List.pairwise_append.mpr ⟨?_,List.pairwise_singleton ..,?_⟩
  · exact List.pairwise_iff_forall_sublist.mpr (fun {a b} pair => idle a b (closes a (pair.subset (by simp))))
  · exact fun a inside b _ => idle a b (closes a inside)

/-- Every active row waiting is new to the store, or says again a stored memory whose subject waits. -/
def Waiting (e : Engine) (buffer : Buffer) : Prop :=
  ∀ row ∈ buffer.rows, row.memory.state = .active → row.id ∉ e.memories.keys ∨
    ∃ old ∈ e.memories.rows, old.id = row.id ∧
      ∃ subject, old.memory.subject = some subject ∧ (scopePartitionKey old.memory.scope,subject) ∈ buffer.subjects

theorem Waiting.empty (e : Engine) : Waiting e ⟨[],[]⟩ := fun _ inside => nomatch inside

theorem Waiting.apart {e : Engine} {buffer : Buffer} {input : MemoryInput} {old row : MemoryRow}
    (waiting : Waiting e buffer) (free : buffer.collides (batchKey env input) = false) (member : old ∈ e.memories.rows)
    (under : UnderKey env input old) (inside : row ∈ buffer.rows) (same : old.id = row.id) :
    row.memory.state ≠ .active := by
  intro active
  rcases waiting row inside active with unknown | ⟨stored,there,equal,subject,about,held⟩
  · exact unknown ((e.memories.mem_keys _).mpr ⟨old,member,same⟩)
  · obtain ⟨name,named,key⟩ := under
    cases e.memories.eq_of_key there member (equal.trans same.symm)
    cases about.symm.trans named
    rw [key,Buffer.collides] at free
    simp [held] at free

theorem Waiting.push {e : Engine} {d : Draw} {input : MemoryInput} {embedding : Option (List Rat)} {buffer : Buffer}
    {planned : Planned} (waiting : Waiting e buffer) (fresh : d.id ∉ e.memories.keys)
    (plan : PlanCase env e d input embedding planned) : Waiting e (buffer.push (batchKey env input) planned.rows) := by
  intro row inside active
  rcases List.mem_append.mp inside with inside | inside
  · rcases waiting row inside active with unknown | ⟨old,member,same,subject,about,held⟩
    · exact Or.inl unknown
    · exact Or.inr ⟨old,member,same,subject,about,List.mem_append_left _ held⟩
  · cases plan.row inside with
    | drawn own _ _ => exact Or.inl (own ▸ fresh)
    | confirmed old member same _ _ under _ =>
      obtain ⟨subject,about,key⟩ := under
      refine Or.inr ⟨old,member,same,subject,about,List.mem_append_right _ ?_⟩
      simp [key]
    | closed old member same idle how => exact absurd active idle

/-- The identifier drawn for an input is in use neither in the store nor among the rows waiting. -/
def DrawNew (e : Engine) (buffer : Buffer) (_ : MemoryInput) (d : Draw) : Prop :=
  d.id ∉ e.memories.keys ∧ ∀ row ∈ buffer.rows, row.id ≠ d.id

variable (env)

/-- What every input meets where the loop of a batch plans it: the engine and the buffer after the flush. -/
def AlongBatch (ok : Engine → Buffer → MemoryInput → Draw → Prop) : List (MemoryInput × Draw) → Engine → Buffer → Prop
  | [],_,_ => True
  | (input,d) :: rest,e,buffer =>
    match flushColliding e (batchKey env input) buffer with
    | .error _ => True
    | .ok (e,left) =>
      ok e left input d ∧
        match memoryPlan env e d input with
        | .error _ => True
        | .ok (_,planned) => AlongBatch ok rest e (left.push (batchKey env input) planned)

/-- What holds of engine and buffer at the start, is kept by a flush and by a plan, holds at the end. -/
theorem AlongBatch.invariant {ok : Engine → Buffer → MemoryInput → Draw → Prop} {Inv : Engine → Buffer → Prop}
    (flush : ∀ e buffer after, Inv e buffer → memoryApplyRowsBatch e buffer.rows = .ok after → Inv after ⟨[],[]⟩)
    (plan : ∀ e buffer input d planned, Inv e buffer → buffer.collides (batchKey env input) = false →
      ok e buffer input d → Accepts env e.config input →
        PlanCase env e d input (e.embedMemoryContent d) planned → Inv e (buffer.push (batchKey env input) planned.rows))
    {e : Engine} {buffer : Buffer} (inputs : List (MemoryInput × Draw)) (adds : List MemoryAdd) (start : Inv e buffer)
    (along : AlongBatch env ok inputs e buffer) :
    ∃ left, Inv (batchLoop env inputs e buffer adds).2 left := by
  induction inputs generalizing e buffer adds with
  | nil =>
    unfold batchLoop
    split
    next => exact ⟨buffer,start⟩
    next after applied => exact ⟨_,flush e buffer after start applied⟩
  | cons head rest ih =>
    unfold AlongBatch at along
    unfold batchLoop
    split
    next => exact ⟨buffer,start⟩
    next after left flushed =>
      rw [flushed] at along
      obtain ⟨here,later⟩ := along
      have between : Inv after left ∧ left.collides (batchKey env head.1) = false := by
        rcases flushColliding_cases flushed with ⟨free,rfl,rfl⟩ | ⟨_,applied,rfl⟩
        · exact ⟨start,free⟩
        · refine ⟨flush e buffer after start applied,?_⟩
          cases batchKey env head.1 <;> simp [Buffer.collides]
      split
      next => exact ⟨left,between.1⟩
      next add planned planOk =>
        rw [planOk] at later
        obtain ⟨accepted,cases⟩ := memoryPlanWithEmbedding_cases env planOk
        exact ih _ (plan after left head.1 head.2 (add,planned) between.1 between.2 here accepted cases) later

theorem AlongBatch.and {ok ok' : Engine → Buffer → MemoryInput → Draw → Prop} {inputs : List (MemoryInput × Draw)}
    {e : Engine} {buffer : Buffer} (first : AlongBatch env ok inputs e buffer)
    (second : AlongBatch env ok' inputs e buffer) :
    AlongBatch env (fun e buffer input d => ok e buffer input d ∧ ok' e buffer input d) inputs e buffer := by
  induction inputs generalizing e buffer with
  | nil => trivial
  | cons head rest ih =>
    unfold AlongBatch at first second ⊢
    split
    next => trivial
    next after left flushed =>
      rw [flushed] at first second
      refine ⟨⟨first.1,second.1⟩,?_⟩
      have later := first.2
      have later' := second.2
      split
      next => trivial
      next add planned ok =>
        rw [ok] at later later'
        exact ih later later'

theorem AlongBatch.of_forall {ok : MemoryInput → Draw → Prop} {inputs : List (MemoryInput × Draw)} {e : Engine}
    {buffer : Buffer} (all : ∀ item ∈ inputs, ok item.1 item.2) :
    AlongBatch env (fun _ _ input d => ok input d) inputs e buffer := by
  induction inputs generalizing e buffer with
  | nil => trivial
  | cons head rest ih =>
    unfold AlongBatch
    split
    next => trivial
    next after left flushed =>
      refine ⟨all head (by simp),?_⟩
      split
      next => trivial
      next add planned ok => exact ih (fun item inside => all item (List.mem_cons_of_mem head inside))

end

end Ecphoria
