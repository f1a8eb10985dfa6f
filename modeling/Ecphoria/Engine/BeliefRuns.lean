import Ecphoria.Engine.Belief

/-! Runs of the memory calls and the belief they keep single. The guard of a call is
read off the engine before it: what a merge takes over, and what plans of one
unapplied stretch write. -/
namespace Ecphoria
open Library

/-- The memory calls of a run, each with what it reads from outside. -/
inductive Call where
  | add (d : Draw) (input : MemoryInput)
  | addBatch (inputs : List (MemoryInput × Draw))
  | remember (rawText : String) (scope : MemoryScope) (reply : Option String) (draws : Nat → Draw)
  | distill (sessionId : String) (scope : MemoryScope) (reply : Option String) (draws : Nat → Draw)
  | document (doc : DocumentIngest) (scope : MemoryScope) (opts : ChunkOptions) (draws : Nat → Draw) (now : Int)
  | propose (d : Draw) (input : MemoryInput)
  | accept (id : Uuid) (tenant : String) (d : Draw) (now : Int)
  | reject (id : Uuid) (tenant : String) (now : Int)
  | expire (ids : List Uuid) (stamp : Uuid → Int)
  | feedback (id : Uuid) (tenant : Option String) (verdict : MemoryFeedback) (now : Int) (stamp : Uuid → Int)

section
variable (env : Env)

def Call.step (e : Engine) : Call → Engine
  | .add d input => (memoryAdd env e d input).2
  | .addBatch inputs => (memoryAddBatch env e inputs).2
  | .remember rawText scope reply draws => (memoryRemember env e rawText scope reply draws).2
  | .distill sessionId scope reply draws => (sessionDistill env e sessionId scope reply draws).2
  | .document doc scope opts draws now => (documentIngest env e doc scope opts draws now).2
  | .propose d input => (memoryPropose env e d input).2
  | .accept id tenant d now => (memoryAccept env e id tenant d now).2
  | .reject id tenant now => (memoryReject env e id tenant now).2
  | .expire ids stamp => memoryExpire stamp e ids
  | .feedback id tenant verdict now stamp => (memoryFeedback env e id tenant verdict now stamp).2

def AddsClear : List (MemoryInput × Draw) → Engine → Prop
  | [],_ => True
  | (input,d) :: rest,e =>
    MergeClear env e d input ∧
      match memoryAdd env e d input with
      | (.error _,_) => True
      | (.ok _,after) => AddsClear rest after

def PlansClear (e : Engine) : List (MemoryInput × Draw) → List BeliefKey → Prop
  | [],_ => True
  | (input,d) :: rest,written =>
    MergeClear env e d input ∧ (∀ k, writtenBelief env e d input = some k → k ∉ written) ∧
      PlansClear e rest (written ++ (writtenBelief env e d input).toList)

/-- An input may join the rows pending: its belief is not one a merge has taken, and if it merges
itself, not one any pending row holds. Two keyed inputs are kept apart by the flush. -/
def StretchClear (e : Engine) (d : Draw) (input : MemoryInput) (pending : List MemoryRow)
    (merged : List BeliefKey) : Prop :=
  ∀ k, writtenBelief env e d input = some k →
    k ∉ merged ∧ ((canonicalInput env input).subject = none → ∀ row ∈ pending, beliefOf row.memory ≠ some k)

def mergedBelief (e : Engine) (d : Draw) (input : MemoryInput) : List BeliefKey :=
  if (canonicalInput env input).subject = none then (writtenBelief env e d input).toList else []

/-- Every input of a batch is clear where the loop plans it. `merged` holds the beliefs taken by
merges since the last flush. -/
def BatchClear : List (MemoryInput × Draw) → Engine → Buffer → List BeliefKey → Prop
  | [],_,_,_ => True
  | (input,d) :: rest,e,buffer,merged =>
    match flushColliding e (batchKey env input) buffer with
    | .error _ => True
    | .ok (e,left) =>
      let merged := if buffer.collides (batchKey env input) then [] else merged
      MergeClear env e d input ∧ StretchClear env e d input left.rows merged ∧
        match memoryPlan env e d input with
        | .error _ => True
        | .ok (_,planned) =>
          BatchClear rest e (left.push (batchKey env input) planned) (merged ++ mergedBelief env e d input)

def Call.Clear (e : Engine) : Call → Prop
  | .add d input => MergeClear env e d input
  | .addBatch inputs => BatchClear env inputs e ⟨[],[]⟩ []
  | .remember rawText scope reply draws =>
    AddsClear env (withDraws ((extractFacts env e.config reply rawText).map (factInput scope)) draws) e
  | .distill sessionId scope reply draws =>
    PlansClear env e (distillInputs env e sessionId scope reply draws) []
  | .document doc scope opts draws _ =>
    BatchClear env (withDraws (documentInputs doc scope opts) draws) e ⟨[],[]⟩ []
  | .accept id tenant d _ => ∀ proposal, pendingOf e id tenant = some proposal →
      MergeClear env e d (proposalInput proposal)
  | _ => True

def Believes (e : Engine) : Prop :=
  e.config.cognition.contradictionReview = false ∧ OneBelief e.memories

private theorem Believes.of_memories {e after : Engine} (believes : Believes e)
    (config : after.config = e.config) (one : OneBelief after.memories) : Believes after :=
  ⟨config ▸ believes.1,one⟩

private theorem believes_add {e : Engine} (believes : Believes e) (d : Draw) (input : MemoryInput)
    (clear : MergeClear env e d input) : Believes (memoryAdd env e d input).2 := by
  refine believes.of_memories (memoryAdd_config env e d input) ?_
  unfold memoryAdd
  split
  next => exact believes.2
  next result rows ok =>
    rw [evictOverCap_memories,memoryApplyRows_memories]
    exact (believes.2.upsertRows (memoryPlan_settled env believes.1 believes.2 clear ok).1).delete _

private theorem believes_adds {e : Engine} (believes : Believes e) (inputs : List (MemoryInput × Draw))
    (out : List MemoryAdd) (clear : AddsClear env inputs e) : Believes (addLoop env inputs e out).2 := by
  induction inputs generalizing e out with
  | nil => exact believes
  | cons head rest ih =>
    have step := believes_add env believes head.2 head.1 clear.1
    have later := clear.2
    unfold addLoop
    split
    next err after added =>
      rw [added] at step
      exact step
    next add after added =>
      rw [added] at step later
      exact ih step (out ++ [add]) later

private theorem believes_batchRows {e after : Engine} {rows : List MemoryRow} (believes : Believes e)
    (settled : Settled e.memories rows) (ok : memoryApplyRowsBatch e rows = .ok after) : Believes after := by
  refine believes.of_memories (memoryApplyRowsBatch_ok e after rows ok).2.2 ?_
  rw [memoryApplyRowsBatch_memories ok]
  exact believes.2.upsertRows settled

theorem MergeClear.of_keyed {e : Engine} {d : Draw} {input : MemoryInput} {subject : String}
    (keyed : (canonicalInput env input).subject = some subject) : MergeClear env e d input := by
  intro unkeyed
  rw [keyed] at unkeyed
  cases unkeyed

theorem BatchClear.of_keyed (inputs : List (MemoryInput × Draw)) (e : Engine) (buffer : Buffer)
    (keyed : ∀ item ∈ inputs, ∃ subject, (canonicalInput env item.1).subject = some subject) :
    BatchClear env inputs e buffer [] := by
  induction inputs generalizing e buffer with
  | nil => trivial
  | cons head rest ih =>
    obtain ⟨subject,first⟩ := keyed head (by simp)
    unfold BatchClear
    split
    next => trivial
    next after left flushed =>
      refine ⟨MergeClear.of_keyed env first,?_,?_⟩
      · intro k written
        refine ⟨by simp,?_⟩
        intro unkeyed
        rw [first] at unkeyed
        cases unkeyed
      · split
        next => trivial
        next add planned ok =>
          have none : mergedBelief env after head.2 head.1 = [] := by simp [mergedBelief,first]
          rw [none]
          simpa using ih after _ (fun item inside => keyed item (List.mem_cons_of_mem head inside))

/-- What the loop knows of the rows pending: they settle together, and each belief among them was
taken by a merge or is the one of a pending subject. -/
private structure Stretch (e : Engine) (buffer : Buffer) (merged : List BeliefKey) : Prop where
  settled : Settled e.memories buffer.rows
  known : ∀ row ∈ buffer.rows, ∀ k, beliefOf row.memory = some k →
    k ∈ merged ∨ (scopePartitionKey k.scope,k.subject) ∈ buffer.subjects

private theorem Stretch.empty (e : Engine) : Stretch e ⟨[],[]⟩ [] :=
  ⟨Settled.of_closed (by simp),by simp⟩

private theorem Stretch.flush {e after : Engine} {buffer left : Buffer} {merged : List BeliefKey}
    {key : Option (String × String)} (believes : Believes e) (stretch : Stretch e buffer merged)
    (ok : flushColliding e key buffer = .ok (after,left)) :
    Believes after ∧ Stretch after left (if buffer.collides key then [] else merged) ∧
      left.collides key = false := by
  rcases flushColliding_cases ok with ⟨apart,rfl,rfl⟩ | ⟨collides,applied,rfl⟩
  · exact ⟨believes,by simpa [apart] using stretch,apart⟩
  · refine ⟨believes_batchRows believes stretch.settled applied,?_,?_⟩
    · simpa [collides] using Stretch.empty after
    · cases key <;> simp [Buffer.collides]

private theorem Stretch.push {e : Engine} {d : Draw} {input : MemoryInput} {buffer : Buffer}
    {merged : List BeliefKey} {planned : Planned} (believes : Believes e) (stretch : Stretch e buffer merged)
    (apart : buffer.collides (batchKey env input) = false) (clear : MergeClear env e d input)
    (joins : StretchClear env e d input buffer.rows merged) (ok : memoryPlan env e d input = .ok planned) :
    Stretch e (buffer.push (batchKey env input) planned.rows) (merged ++ mergedBelief env e d input) := by
  obtain ⟨settled,writes⟩ := memoryPlan_settled env believes.1 believes.2 clear ok
  refine ⟨stretch.settled.append settled ?_,?_⟩
  · intro v pending w inside k held believed
    obtain ⟨untaken,unheld⟩ := joins k (writes w inside k believed)
    cases keyed : (canonicalInput env input).subject with
    | none => exact unheld keyed v pending held
    | some subject =>
      rcases stretch.known v pending k held with taken | known
      · exact untaken taken
      · have written := writes w inside k believed
        rw [writtenBelief_keyed env keyed] at written
        cases written
        rw [batchKey_keyed env keyed,Buffer.collides] at apart
        simp [known] at apart
  · intro row inside k believed
    rcases List.mem_append.mp inside with pending | inside
    · rcases stretch.known row pending k believed with taken | known
      · exact Or.inl (List.mem_append_left _ taken)
      · exact Or.inr (List.mem_append_left _ known)
    · have written := writes row inside k believed
      cases keyed : (canonicalInput env input).subject with
      | none =>
        refine Or.inl (List.mem_append_right _ ?_)
        simp [mergedBelief,keyed,written]
      | some subject =>
        rw [writtenBelief_keyed env keyed] at written
        cases written
        refine Or.inr (List.mem_append_right _ ?_)
        simp [batchKey_keyed env keyed]

private theorem believes_batch {e : Engine} (believes : Believes e) (inputs : List (MemoryInput × Draw))
    (buffer : Buffer) (merged : List BeliefKey) (adds : List MemoryAdd) (stretch : Stretch e buffer merged)
    (clear : BatchClear env inputs e buffer merged) : Believes (batchLoop env inputs e buffer adds).2 := by
  induction inputs generalizing e buffer merged adds with
  | nil =>
    unfold batchLoop
    split
    next => exact believes
    next after applied => exact believes_batchRows believes stretch.settled applied
  | cons head rest ih =>
    unfold BatchClear at clear
    unfold batchLoop
    split
    next => exact believes
    next after left flushed =>
      rw [flushed] at clear
      obtain ⟨mergeClear,joins,later⟩ := clear
      obtain ⟨believesAfter,stretchAfter,apart⟩ := stretch.flush believes flushed
      split
      next => exact believesAfter
      next add planned ok =>
        rw [ok] at later
        exact ih believesAfter _ _ _ (stretchAfter.push env believesAfter apart mergeClear joins ok) later

private theorem planAll_settled {e : Engine} (believes : Believes e) (inputs : List (MemoryInput × Draw))
    (written : List BeliefKey) (clear : PlansClear env e inputs written) (plans : List (Planned × Draw))
    (ok : planAll env e inputs = .ok plans) :
    Settled e.memories (plans.flatMap (fun plan => plan.1.rows)) ∧
      ∀ w ∈ plans.flatMap (fun plan => plan.1.rows), ∀ k, beliefOf w.memory = some k → k ∉ written := by
  induction inputs generalizing written plans with
  | nil =>
    cases ok
    exact ⟨Settled.of_closed (by simp),by simp⟩
  | cons head rest ih =>
    obtain ⟨mergeClear,fresh,later⟩ := clear
    unfold planAll at ok
    split at ok
    next => cases ok
    next planned planOk =>
      split at ok
      next => cases ok
      next tail tailOk =>
        cases ok
        obtain ⟨settled,writes⟩ := memoryPlan_settled env believes.1 believes.2 mergeClear planOk
        obtain ⟨restSettled,apart⟩ := ih _ later tail tailOk
        refine ⟨settled.append restSettled ?_,?_⟩
        · intro v inside w beside k believedV believedW
          apply apart w beside k believedW
          simp [writes v inside k believedV]
        · intro w inside k believed
          rcases List.mem_append.mp inside with inside | beside
          · exact fresh k (writes w inside k believed)
          · intro taken
            exact apart w beside k believed (List.mem_append_left _ taken)

private theorem believes_plans {e : Engine} (believes : Believes e) (inputs : List (MemoryInput × Draw))
    (clear : PlansClear env e inputs []) (plans : List (Planned × Draw))
    (ok : planAll env e inputs = .ok plans) : Believes (applyPlans env e plans) := by
  refine believes.of_memories (applyPlans_config env e plans) ?_
  rw [applyPlans_memories]
  exact believes.2.upsertRows (planAll_settled env believes inputs [] clear plans ok).1

private theorem believes_document {e : Engine} (believes : Believes e) (doc : DocumentIngest)
    (scope : MemoryScope) (opts : ChunkOptions) (draws : Nat → Draw) (now : Int)
    (clear : BatchClear env (withDraws (documentInputs doc scope opts) draws) e ⟨[],[]⟩ []) :
    Believes (documentIngest env e doc scope opts draws now).2 := by
  have step := believes_batch env believes _ _ _ [] (Stretch.empty e) clear
  unfold documentIngest
  dsimp only
  split
  next err after added =>
    rw [memoryAddBatch] at added
    rw [added] at step
    exact step
  next added after ok =>
    rw [memoryAddBatch] at ok
    rw [ok] at step
    split
    next => exact step
    next swept applied =>
      refine believes_batchRows step (Settled.of_closed ?_) applied
      intro row inside
      obtain ⟨m,_,rfl⟩ := List.mem_map.mp inside
      simp [beliefOf]

private theorem OneBelief.upsertRaw {t : MemoryTable} (one : OneBelief t) (row : MemoryRow)
    (silent : beliefOf row.memory = none) : OneBelief (t.upsertRaw row) := by
  have settled : Settled t [row] := Settled.of_closed (by simpa using silent)
  exact one.upsertRows settled

private theorem believes_retire {e : Engine} (believes : Believes e) (proposal : Memory) (decision : String)
    (acceptedAs : Option Uuid) (now : Int) :
    Believes (retireProposal env e proposal decision acceptedAs now) :=
  ⟨believes.1,believes.2.upsertRaw _ (by simp [beliefOf,retiredProposal])⟩

private theorem believes_propose {e : Engine} (believes : Believes e) (d : Draw) (input : MemoryInput) :
    Believes (memoryPropose env e d input).2 := by
  unfold memoryPropose
  dsimp only
  split
  next => exact believes
  next => exact ⟨believes.1,believes.2.upsertRaw _ (by simp [beliefOf,proposalMemory])⟩

private theorem believes_accept {e : Engine} (believes : Believes e) (id : Uuid) (tenant : String) (d : Draw)
    (now : Int) (clear : ∀ proposal, pendingOf e id tenant = some proposal →
      MergeClear env e d (proposalInput proposal)) :
    Believes (memoryAccept env e id tenant d now).2 := by
  unfold memoryAccept
  split
  next => exact believes
  next proposal found =>
    have step := believes_add env believes d (proposalInput proposal) (clear proposal found)
    split
    next err after added =>
      rw [added] at step
      exact step
    next add after added =>
      rw [added] at step
      exact believes_retire env step proposal "accepted" _ now

private theorem believes_expire {e : Engine} (believes : Believes e) (ids : List Uuid) (stamp : Uuid → Int) :
    Believes (memoryExpire stamp e ids) := by
  refine believes.of_memories (memoryExpire_frame stamp e ids).2 ?_
  rw [memoryExpire_memories]
  have one := believes.2
  generalize e.memories = t at one
  induction ids generalizing t with
  | nil => exact one
  | cons id ids ih => exact ih _ (one.expire id (stamp id))

private theorem believes_feedback {e : Engine} (believes : Believes e) (id : Uuid) (tenant : Option String)
    (verdict : MemoryFeedback) (now : Int) (stamp : Uuid → Int) :
    Believes (memoryFeedback env e id tenant verdict now stamp).2 := by
  unfold memoryFeedback
  split
  next => exact believes
  next m action planned =>
    obtain ⟨read,found,equal⟩ := Option.map_eq_some_iff.mp planned
    obtain ⟨row,member,rfl,_⟩ := lookup_eq_some found
    cases verdict with
    | helpful =>
      cases equal
      refine believes.of_memories (memoryApplyRows_config env stamp e _) ?_
      rw [memoryFeedbackApply,memoryApplyRows_memories]
      refine believes.2.upsertRows (Settled.singleton ?_)
      intro r inside k believed held
      have same : row = r := believes.2 row member r inside k believed held
      rw [← same]
      rfl
    | wrong | obsolete =>
      cases equal
      exact believes_expire believes _ stamp

theorem Call.step_believes {e : Engine} (believes : Believes e) (call : Call) (clear : call.Clear env e) :
    Believes (call.step env e) := by
  cases call with
  | add d input => exact believes_add env believes d input clear
  | addBatch inputs => exact believes_batch env believes inputs _ _ [] (Stretch.empty e) clear
  | remember rawText scope reply draws => exact believes_adds env believes _ [] clear
  | distill sessionId scope reply draws =>
    simp only [Call.step,sessionDistill,sessionDistillPlan]
    split
    next => exact believes
    next plans ok => exact believes_plans env believes _ clear plans ok
  | document doc scope opts draws now => exact believes_document env believes doc scope opts draws now clear
  | propose d input => exact believes_propose env believes d input
  | accept id tenant d now => exact believes_accept env believes id tenant d now clear
  | reject id tenant now =>
    simp only [Call.step,memoryReject]
    split
    next => exact believes
    next proposal found => exact believes_retire env believes proposal "rejected" none now
  | expire ids stamp => exact believes_expire believes ids stamp
  | feedback id tenant verdict now stamp => exact believes_feedback env believes id tenant verdict now stamp

/-- With review off and every call clear, no state of a run from an empty memories table holds two
active rows for one scope, project and subject. -/
theorem one_belief_throughout (e : Engine) (calls : List Call) (off : e.config.cognition.contradictionReview = false)
    (empty : e.memories.rows = []) (clear : Along (Call.step env) (Call.Clear env) e calls) :
    Throughout (Call.step env) (fun e => OneBelief e.memories) e calls := by
  have init : Believes e := ⟨off,by simp [OneBelief,empty]⟩
  intro n
  exact (clear.throughout init (fun s call believes ok => call.step_believes env believes ok) n).2

end

section
private def planInput (subject : Option String) (content : String) (project : Option String) : MemoryInput :=
  { MemoryInput.new (.tenant "acme") content with subject := subject, project := project }

theorem one_belief_throughout_plan :
    Throughout (Call.step .ascii) (fun e => OneBelief e.memories) (.empty .default 2)
      [.add (.plain 1000 1) (planInput (some "Plan") "free" none),
        .add (.plain 2000 2) (planInput (some " plan ") "pro" none),
        .addBatch [(planInput (some "plan") "team" none,.plain 3000 3),
          (planInput (some "PLAN") "free" none,.plain 4000 4)]] := by
  have first : (canonicalInput .ascii (planInput (some "Plan") "free" none)).subject = some "plan" := by
    decide +kernel
  have second : (canonicalInput .ascii (planInput (some " plan ") "pro" none)).subject = some "plan" := by
    decide +kernel
  have batch : ∀ item ∈ [(planInput (some "plan") "team" none,Draw.plain 3000 3),
      (planInput (some "PLAN") "free" none,.plain 4000 4)],
      (canonicalInput .ascii item.1).subject = some "plan" := by
    intro item inside
    simp only [List.mem_cons,List.not_mem_nil,or_false] at inside
    rcases inside with rfl | rfl <;> decide +kernel
  exact one_belief_throughout .ascii _ _ rfl rfl
    ⟨MergeClear.of_keyed _ first,MergeClear.of_keyed _ second,
      BatchClear.of_keyed _ _ _ _ (fun item inside => ⟨_,batch item inside⟩),trivial⟩

def splitCalls : List Call :=
  [.add ⟨1000,1000,1,some [1,0],[],fun _ => 0⟩ (planInput (some "plan") "plan a" (some "a")),
    .add ⟨2000,2000,2,some [0,1],[],fun _ => 0⟩ (planInput (some "plan") "plan b" (some "b")),
    .add ⟨3000,3000,3,some [1,0],[(1,1)],fun _ => 0⟩ (planInput none "plan a" (some "b"))]

def vectorConfig : CoreConfig := { CoreConfig.default with embedding := true }

private theorem splitCalls_beliefs :
    (run (Call.step .ascii) (.empty vectorConfig 2) splitCalls).memories.rows.map
      (fun row => (row.id,beliefOf row.memory)) =
      [(1,none),(2,some ⟨.tenant "acme",some "b","plan"⟩),(3,some ⟨.tenant "acme",some "b","plan"⟩)] := by
  decide +kernel

/-- The merge takes the subject of one project into another and looks for no row there. -/
theorem merge_splits_belief :
    vectorConfig.cognition.contradictionReview = false ∧
      ¬Throughout (Call.step .ascii) (fun e => OneBelief e.memories) (.empty vectorConfig 2) splitCalls := by
  refine ⟨rfl,?_⟩
  intro one
  have last : OneBelief (run (Call.step .ascii) (.empty vectorConfig 2) splitCalls).memories := one 3
  have same : (2 : Uuid) = 3 := last.listing (k := ⟨.tenant "acme",some "b","plan"⟩)
    (by rw [splitCalls_beliefs]; simp) (by rw [splitCalls_beliefs]; simp)
  revert same
  decide

end

end Ecphoria
