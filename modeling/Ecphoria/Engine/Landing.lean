import Ecphoria.Engine.Batch
import Ecphoria.Library.Grouping
import Ecphoria.Library.Transition

/-! A batch of inputs that are not merged, read as writes one after the other. The rows that land
are those of a leading part of the inputs: all of them, or, when governance refuses one, those
before the last flush. -/
namespace Ecphoria
open Library

section
variable (env : Env)

def writeNext (e : Engine) (item : MemoryInput × Draw) : Engine :=
  match memoryPlan env e item.2 item.1 with
  | .error _ => e
  | .ok planned => { e with memories := e.memories.upsertRows planned.rows }

def addOf (e : Engine) (item : MemoryInput × Draw) : List MemoryAdd :=
  match memoryPlan env e item.2 item.1 with
  | .error _ => []
  | .ok planned => [planned.add]

/-- The inputs whose rows are in the table when the batch ends: `kept` are flushed, `waiting` in the buffer. -/
def landedItems (config : CoreConfig) : List (MemoryInput × Draw) → List (MemoryInput × Draw) → List (MemoryInput × Draw) →
    List (MemoryInput × Draw)
  | [],kept,waiting => kept ++ waiting
  | item :: rest,kept,waiting =>
    let flushes := waits (waiting.map (fun item => batchKey env item.1)) (batchKey env item.1)
    let kept := if flushes then kept ++ waiting else kept
    let waiting := if flushes then [] else waiting
    if Accepts env config item.1 then landedItems config rest kept (waiting ++ [item]) else kept

theorem writeNext_planned {e : Engine} {d : Draw} {input : MemoryInput} {planned : Planned}
    (ok : memoryPlan env e d input = .ok planned) :
    writeNext env e (input,d) = { e with memories := e.memories.upsertRows planned.rows } := by
  rw [writeNext,ok]

theorem writeNext_config (e : Engine) (item : MemoryInput × Draw) : (writeNext env e item).config = e.config := by
  unfold writeNext
  split
  next => rfl
  next => rfl

theorem writes_config (e : Engine) (items : List (MemoryInput × Draw)) :
    (run (writeNext env) e items).config = e.config := by
  induction items generalizing e with
  | nil => rfl
  | cons item items ih => rw [run_cons,ih,writeNext_config]

theorem writes_keys (e : Engine) (items : List (MemoryInput × Draw)) {id : Uuid} (known : id ∈ e.memories.keys) :
    id ∈ (run (writeNext env) e items).memories.keys := by
  induction items generalizing e with
  | nil => exact known
  | cons item rest ih =>
    apply ih
    unfold writeNext
    split
    next => exact known
    next planned _ =>
      change id ∈ (e.memories.upsertRows planned.rows).keys
      rw [MemoryTable.upsertRows_eq]
      exact Table.mem_keys_upsertAll (Or.inr known)

theorem memoryApplyRowsBatch_known {e : Engine} {rows : List MemoryRow} (known : ∀ row ∈ rows, row.id ∈ e.memories.keys) :
    ∃ after, memoryApplyRowsBatch e rows = .ok after ∧ after.memories = e.memories.upsertRows rows ∧
      after.config = e.config := by
  have none : rows.filter (fun row => row.id ∉ e.memories.keys) = [] := by simpa using known
  have goes : ∃ after, memoryApplyRowsBatch e rows = .ok after := by
    unfold memoryApplyRowsBatch
    split
    next => exact ⟨e,rfl⟩
    next =>
      rw [MemoryTable.upsertRawBatch_of_distinct (by rw [none]; exact List.nodup_nil)]
      exact ⟨_,rfl⟩
  obtain ⟨after,ok⟩ := goes
  exact ⟨after,ok,memoryApplyRowsBatch_memories ok,(memoryApplyRowsBatch_ok e after rows ok).2.2⟩

theorem landedItems_accepted {config : CoreConfig} (inputs kept waiting : List (MemoryInput × Draw))
    (accepted : ∀ item ∈ inputs, Accepts env config item.1) :
    landedItems env config inputs kept waiting = kept ++ waiting ++ inputs := by
  induction inputs generalizing kept waiting with
  | nil => simp [landedItems]
  | cons item rest ih =>
    rw [landedItems,if_pos (accepted item List.mem_cons_self),
      ih _ _ (fun other inside => accepted other (List.mem_cons_of_mem item inside))]
    split
    next => simp
    next => simp

theorem landedItems_leading {config : CoreConfig} (inputs kept waiting : List (MemoryInput × Draw)) :
    landedItems env config inputs kept waiting <+: kept ++ waiting ++ inputs := by
  induction inputs generalizing kept waiting with
  | nil => simp [landedItems]
  | cons item rest ih =>
    rw [landedItems]
    split
    next =>
      refine (ih _ _).trans ?_
      split
      next => simp
      next => simp
    next =>
      split
      next => exact List.prefix_append _ _
      next =>
        rw [List.append_assoc]
        exact List.prefix_append _ _

theorem accepted_of_landed {config : CoreConfig} {x : MemoryInput × Draw} (inputs kept waiting : List (MemoryInput × Draw))
    (before : ∀ item ∈ kept ++ waiting, Accepts env config item.1)
    (inside : x ∈ landedItems env config inputs kept waiting) : Accepts env config x.1 := by
  induction inputs generalizing kept waiting with
  | nil => exact before x inside
  | cons item rest ih =>
    -- the flush only moves the inputs that were taken
    have moved : ∀ x ∈ (if waits (waiting.map (fun item => batchKey env item.1)) (batchKey env item.1) then kept ++ waiting
        else kept) ++ if waits (waiting.map (fun item => batchKey env item.1)) (batchKey env item.1) then [] else waiting,
        Accepts env config x.1 := by
      split
      next => simpa using before
      next => exact before
    rw [landedItems] at inside
    split at inside
    next accepted =>
      refine ih _ _ ?_ inside
      intro y listed
      rw [← List.append_assoc] at listed
      rcases List.mem_append.mp listed with old | new
      · exact moved y old
      · rw [List.mem_singleton.mp new]
        exact accepted
    next => exact moved x (List.mem_append_left _ inside)

variable {env}

theorem writeNext_unused {e : Engine} {item : MemoryInput × Draw} {id : Uuid}
    (unmerged : Unmerged env e.config item.1) (apart : id ≠ item.2.id) (unused : id ∉ e.memories.keys) :
    id ∉ (writeNext env e item).memories.keys := by
  unfold writeNext
  split
  next => exact unused
  next planned ok => exact memoryPlan_unused env unmerged ok apart unused

variable (env) in
/-- The state of a batch: the rows of `kept` are in the table, those of `waiting` in the buffer. -/
structure Lands (e b : Engine) (buffer : Buffer) (kept waiting : List (MemoryInput × Draw)) : Prop where
  config : b.config = e.config
  written : b.memories = (run (writeNext env) e kept).memories
  mirrors : Mirrors b buffer (run (writeNext env) e (kept ++ waiting)) (waiting.map (fun item => batchKey env item.1))

theorem Lands.start (e : Engine) : Lands env e e ⟨[],[]⟩ [] [] where
  config := rfl
  written := rfl
  mirrors := Mirrors.empty rfl rfl rfl

theorem Lands.flush {e b : Engine} {buffer : Buffer} {kept waiting : List (MemoryInput × Draw)}
    (lands : Lands env e b buffer kept waiting) (key : Option (String × String)) :
    ∃ after left, flushColliding b key buffer = .ok (after,left) ∧ left.collides key = false ∧
      (let flushes := waits (waiting.map (fun item => batchKey env item.1)) key
       Lands env e after left (if flushes then kept ++ waiting else kept) (if flushes then [] else waiting)) := by
  obtain ⟨after,left,flushed,clear,mirrors⟩ := lands.mirrors.flush key
  refine ⟨after,left,flushed,clear,?_⟩
  have config : after.config = e.config := (flushColliding_config flushed).trans lands.config
  dsimp only
  split
  next collides =>
    rw [if_pos collides] at mirrors
    have rows : left.rows = [] := mirrors.idle rfl
    have same : (run (writeNext env) e (kept ++ waiting)).memories = after.memories := by
      rw [mirrors.memories,rows]
      rfl
    exact ⟨config,same.symm,by simpa using mirrors⟩
  next apart =>
    rw [if_neg apart] at mirrors
    rcases flushColliding_cases flushed with ⟨_,rfl,rfl⟩ | ⟨collides,_,_⟩
    · exact ⟨config,lands.written,mirrors⟩
    · have taken : waits (waiting.map (fun item => batchKey env item.1)) key = true := by
        cases key with
        | none => cases collides
        | some k => simpa [Buffer.collides,waits,lands.mirrors.subjects] using collides
      exact absurd taken apart

theorem Lands.loop {e b : Engine} {buffer : Buffer} {kept waiting : List (MemoryInput × Draw)}
    (lands : Lands env e b buffer kept waiting) (inputs : List (MemoryInput × Draw)) (adds : List MemoryAdd)
    (unmerged : ∀ item ∈ inputs, Unmerged env e.config item.1)
    (unused : ∀ item ∈ inputs, item.2.id ∉ (run (writeNext env) e (kept ++ waiting)).memories.keys)
    (distinct : (inputs.map (fun item => item.2.id)).Nodup) :
    (batchLoop env inputs b buffer adds).2.memories =
        (run (writeNext env) e (landedItems env e.config inputs kept waiting)).memories ∧
      (batchLoop env inputs b buffer adds).2.config = e.config ∧
      ((∀ item ∈ inputs, Accepts env e.config item.1) → (batchLoop env inputs b buffer adds).1 =
        .ok (adds ++ outputs (writeNext env) (addOf env) (run (writeNext env) e (kept ++ waiting)) inputs)) := by
  induction inputs generalizing b buffer kept waiting adds with
  | nil =>
    obtain ⟨after,ok,clean⟩ := lands.mirrors.written
    have config := (memoryApplyRowsBatch_ok b after buffer.rows ok).2.2
    refine ⟨?_,?_,?_⟩
    · simp only [batchLoop,ok,landedItems]
      exact clean.memories.symm
    · simp only [batchLoop,ok]
      exact config.trans lands.config
    · intro _
      simp [batchLoop,ok,outputs]
  | cons item rest ih =>
    obtain ⟨input,d⟩ := item
    obtain ⟨first,others⟩ := List.nodup_cons.mp distinct
    obtain ⟨b',left,flushed,clear,next⟩ := lands.flush (batchKey env input)
    dsimp only at next
    -- the flush moves the waiting inputs to the kept ones; the writes stay the same
    generalize kept' : (if waits (waiting.map (fun item => batchKey env item.1)) (batchKey env input) then kept ++ waiting
      else kept) = moved at next
    generalize waiting' : (if waits (waiting.map (fun item => batchKey env item.1)) (batchKey env input) then []
      else waiting) = rested at next
    have whole : moved ++ rested = kept ++ waiting := by
      rw [← kept',← waiting']
      split
      next => simp
      next => rfl
    have configS : (run (writeNext env) e (moved ++ rested)).config = e.config := writes_config env e _
    have apartB : Unmerged env b'.config input := next.config ▸ unmerged (input,d) List.mem_cons_self
    have apartS : Unmerged env (run (writeNext env) e (moved ++ rested)).config input :=
      configS ▸ unmerged (input,d) List.mem_cons_self
    have same := next.mirrors.plan env apartB clear (d := d)
    have fresh : d.id ∉ (run (writeNext env) e (moved ++ rested)).memories.keys :=
      whole ▸ unused (input,d) List.mem_cons_self
    simp only [landedItems,kept',waiting']
    cases ok : memoryPlan env b' d input with
    | error err =>
      have refused : ¬Accepts env e.config input := by
        rw [← next.config,← memoryPlan_accepted env apartB (d := d),ok]
        simp
      rw [if_neg refused]
      refine ⟨?_,?_,?_⟩
      · simp only [batchLoop,flushed,ok]
        exact next.written
      · simp only [batchLoop,flushed,ok]
        exact next.config
      · intro accepted
        exact absurd (accepted (input,d) List.mem_cons_self) refused
    | ok planned =>
      have planS := same.trans ok
      have accepted : Accepts env e.config input := next.config ▸ (memoryPlan_accepted env apartB).mp ⟨planned,ok⟩
      rw [if_pos accepted,batchLoop_planned env rest adds flushed ok]
      have wrote := writeNext_planned env planS
      have grown : run (writeNext env) e (moved ++ (rested ++ [(input,d)])) =
          writeNext env (run (writeNext env) e (moved ++ rested)) (input,d) := by
        rw [← List.append_assoc,run_append]
        rfl
      have pushed : Lands env e b' (left.push (batchKey env input) planned.rows) moved (rested ++ [(input,d)]) := by
        refine ⟨next.config,next.written,?_⟩
        rw [grown,wrote,List.map_append]
        exact next.mirrors.push env apartB ok planS fresh rfl rfl rfl
      obtain ⟨memories,config,outcomes⟩ := ih pushed (adds ++ [planned.add])
        (fun item inside => unmerged item (List.mem_cons_of_mem _ inside)) (by
          intro item inside
          have apart : item.2.id ≠ d.id := fun equal => first (List.mem_map.mpr ⟨item,inside,equal⟩)
          rw [grown]
          exact writeNext_unused apartS apart (whole ▸ unused item (List.mem_cons_of_mem _ inside))) others
      refine ⟨memories,config,?_⟩
      intro all
      have added : addOf env (run (writeNext env) e (moved ++ rested)) (input,d) = [planned.add] := by
        simp only [addOf,planS]
      rw [outcomes (fun item inside => all item (List.mem_cons_of_mem _ inside)),grown,outputs,← whole,added,
        List.append_assoc]

/-- A batch of inputs that are not merged, with new identifiers, writes the inputs that land one after the other. -/
theorem memoryAddBatch_lands (e : Engine) (inputs : List (MemoryInput × Draw))
    (unmerged : ∀ item ∈ inputs, Unmerged env e.config item.1) (fresh : ∀ item ∈ inputs, item.2.id ∉ e.memories.keys)
    (distinct : (inputs.map (fun item => item.2.id)).Nodup) :
    (memoryAddBatch env e inputs).2.memories = (run (writeNext env) e (landedItems env e.config inputs [] [])).memories ∧
      (memoryAddBatch env e inputs).2.config = e.config ∧
      ((∀ item ∈ inputs, Accepts env e.config item.1) → (memoryAddBatch env e inputs).1 =
        .ok (outputs (writeNext env) (addOf env) e inputs)) := by
  simpa [memoryAddBatch] using (Lands.start e).loop inputs [] unmerged fresh distinct

variable (env)

theorem batchLoop_config (b : Engine) (buffer : Buffer) (inputs : List (MemoryInput × Draw)) (adds : List MemoryAdd) :
    (batchLoop env inputs b buffer adds).2.config = b.config := by
  induction inputs generalizing b buffer adds with
  | nil =>
    unfold batchLoop
    split
    next => rfl
    next after applied => exact (memoryApplyRowsBatch_ok b after buffer.rows applied).2.2
  | cons item rest ih =>
    unfold batchLoop
    split
    next => rfl
    next after left flushed =>
      split
      next => exact flushColliding_config flushed
      next => exact (ih _ _ _).trans (flushColliding_config flushed)

theorem batchLoop_outcomes {b : Engine} {buffer : Buffer} (inputs : List (MemoryInput × Draw)) (adds : List MemoryAdd)
    {out : List MemoryAdd} (ok : (batchLoop env inputs b buffer adds).1 = .ok out) :
    ∃ news, out = adds ++ news ∧ List.Forall₂ (fun item add => ∃ e planned, e.config = b.config ∧
      memoryPlan env e item.2 item.1 = .ok planned ∧ planned.add = add) inputs news := by
  induction inputs generalizing b buffer adds with
  | nil =>
    unfold batchLoop at ok
    split at ok
    next => cases ok
    next =>
      cases ok
      exact ⟨[],by simp,.nil⟩
  | cons item rest ih =>
    unfold batchLoop at ok
    split at ok
    next => cases ok
    next after left flushed =>
      split at ok
      next => cases ok
      next add planned plan =>
        have config := flushColliding_config flushed
        obtain ⟨news,rfl,each⟩ := ih (adds ++ [add]) ok
        rw [config] at each
        exact ⟨add :: news,by simp,.cons ⟨after,(add,planned),config,plan,rfl⟩ each⟩

theorem memoryAddBatch_accepted {e after : Engine} {inputs : List (MemoryInput × Draw)} {added : List MemoryAdd}
    (ok : memoryAddBatch env e inputs = (.ok added,after)) : ∀ item ∈ inputs, Accepts env e.config item.1 := by
  intro item inside
  obtain ⟨news,_,each⟩ := batchLoop_outcomes env inputs [] (congrArg Prod.fst ok)
  obtain ⟨_,_,f,planned,config,made,_⟩ := exists_of_forall₂ each inside
  exact config ▸ (memoryPlanWithEmbedding_cases env made).1

end

end Ecphoria
