import Ecphoria.Engine.Frame
import Ecphoria.Library.Transition

/-! Calls that overlap. A call reads when it plans and writes row by row later, and a
write replaces the whole row, so between the two another call may have closed the
row. Closed versions are history as long as no write is overtaken that way. -/
namespace Ecphoria
open Library

inductive Write where
  | row (stamp : Uuid → Int) (new : MemoryRow)
  | expire (stamp : Uuid → Int) (id : Uuid)
  | evict (scope : MemoryScope)

inductive SplitCall where
  | add (d : Draw) (input : MemoryInput)
  | update (id : Uuid) (patch : MemoryPatch) (tenant : Option String) (d : Draw)
  | feedback (id : Uuid) (tenant : Option String) (verdict : MemoryFeedback) (now : Int) (stamp : Uuid → Int)
  | resolve (scope : MemoryScope) (subject : String) (keepId : Uuid) (now : Int) (stamp : Uuid → Int)

/-- A planned call: the table its plan read and the writes it has left. -/
structure Flight where
  seen : MemoryTable
  left : List Write

structure Busy where
  engine : Engine
  flights : List Flight

inductive Turn where
  | plan (call : SplitCall)
  | write (i : Nat)

section
variable (env : Env)

def Write.apply (e : Engine) : Write → Engine
  | .row stamp new => applyRow env stamp e new
  | .expire stamp id => expireOne stamp e id
  | .evict scope => evictOverCap e scope

def SplitCall.writes (e : Engine) : SplitCall → List Write
  | .add d input =>
    match memoryPlan env e d input with
    | .error _ => []
    | .ok (result,rows) => rows.map (.row d.stamp) ++ [.evict result.memory.scope]
  | .update id patch tenant d =>
    match memoryUpdatePlan e id patch tenant d.now d.embedding with
    | none => []
    | some (_,rows) => rows.map (.row d.stamp)
  | .feedback id tenant verdict now stamp =>
    match memoryFeedbackPlan e id tenant verdict now with
    | none => []
    | some (_,.reinforce rows) => rows.map (.row stamp)
    | some (_,.retire ids) => ids.map (.expire stamp)
  | .resolve scope subject keepId now stamp =>
    match memoryResolvePlan env e scope subject keepId now with
    | .error _ => []
    | .ok rows => rows.map (.row stamp)

/-- A turn plans one more call, or does the next write of one that is under way. -/
def turnStep (s : Busy) : Turn → Busy
  | .plan call => { s with flights := s.flights ++ [⟨s.engine.memories,call.writes env s.engine⟩] }
  | .write i =>
    match s.flights[i]? with
    | some ⟨seen,w :: left⟩ => ⟨w.apply env s.engine,s.flights.set i ⟨seen,left⟩⟩
    | _ => s

def SplitCall.alone (e : Engine) : SplitCall → Engine
  | .add d input => (memoryAdd env e d input).2
  | .update id patch tenant d => (memoryUpdate env e id patch tenant d).2
  | .feedback id tenant verdict now stamp => (memoryFeedback env e id tenant verdict now stamp).2
  | .resolve scope subject keepId now stamp =>
    match memoryResolvePlan env e scope subject keepId now with
    | .error _ => e
    | .ok rows => memoryApplyRows env stamp e rows

theorem SplitCall.writes_alone (e : Engine) (call : SplitCall) :
    (call.writes env e).foldl (Write.apply env) e = call.alone env e := by
  have rows (stamp : Uuid → Int) (rows : List MemoryRow) :
      (rows.map (Write.row stamp)).foldl (Write.apply env) e = memoryApplyRows env stamp e rows := by
    rw [List.foldl_map]
    rfl
  cases call with
  | add d input =>
    simp only [SplitCall.writes,SplitCall.alone,memoryAdd]
    cases memoryPlan env e d input with
    | error err => rfl
    | ok planned =>
      change ((planned.2.map (Write.row d.stamp)) ++ [Write.evict _]).foldl (Write.apply env) e = _
      rw [List.foldl_append,rows]
      rfl
  | update id patch tenant d =>
    simp only [SplitCall.writes,SplitCall.alone,memoryUpdate]
    cases memoryUpdatePlan e id patch tenant d.now d.embedding with
    | none => rfl
    | some planned => exact rows d.stamp planned.2
  | feedback id tenant verdict now stamp =>
    simp only [SplitCall.writes,SplitCall.alone,memoryFeedback]
    rcases memoryFeedbackPlan e id tenant verdict now with _ | ⟨m,planned | ids⟩
    · rfl
    · exact rows stamp planned
    · change (ids.map (Write.expire stamp)).foldl (Write.apply env) e = memoryExpire stamp e ids
      rw [List.foldl_map]
      rfl
  | resolve scope subject keepId now stamp =>
    simp only [SplitCall.writes,SplitCall.alone]
    cases memoryResolvePlan env e scope subject keepId now with
    | error err => rfl
    | ok planned => exact rows stamp planned

end

def MemoryRow.closed (row : MemoryRow) : Bool :=
  row.memory.state = .superseded || row.memory.state = .expired

def frozen (m : Memory) : MemoryState × String × Int × Option Int := (m.state,m.content,m.validFrom,m.validTo)

def HistoryKept (t u : MemoryTable) : Prop :=
  ∀ row ∈ t.rows, row.closed = true → ∃ kept ∈ u.rows, kept.id = row.id ∧ frozen kept.memory = frozen row.memory

/-- From any state of the run to any later one, closed versions stay as they are. -/
def ClosedImmutable (env : Env) (s : Busy) (turns : List Turn) : Prop :=
  ∀ n m, n ≤ m → HistoryKept (run (turnStep env) s (turns.take n)).engine.memories
    (run (turnStep env) s (turns.take m)).engine.memories

def closedIn (t : MemoryTable) (id : Uuid) : Bool := t.rows.any (fun row => row.id = id && row.closed)

/-- The turn writes a row that some other call has closed since the plan read it. -/
def overtaken (s : Busy) : Turn → Bool
  | .plan _ => false
  | .write i =>
    match s.flights[i]? with
    | some ⟨seen,.row _ row :: _⟩ => closedIn s.engine.memories row.id && !closedIn seen row.id
    | _ => false

def drawsKnown (s : Busy) : Turn → Bool
  | .plan (.add d _) => d.id ∈ s.engine.memories.keys
  | _ => false

/-- Valid times stand in the columns as the columns keep them. -/
def Columns (t : MemoryTable) : Prop := ∀ row ∈ t.rows, frozen row.stored.memory = frozen row.memory

theorem Columns.upsertRaw {t : MemoryTable} (columns : Columns t) (row : MemoryRow) : Columns (t.upsertRaw row) := by
  intro r member
  rcases (Table.mem_upsert _ _ _).mp member with rfl | ⟨old,_⟩
  · rw [row.stored_stored]
  · exact columns r old

theorem Columns.expire {t : MemoryTable} (columns : Columns t) (id : Uuid) (now : Int) :
    Columns (t.expire id now) := by
  intro r member
  obtain ⟨old,there,rfl⟩ := (Table.mem_update _ _ _ _ _).mp member
  have kept := columns old there
  simp only [frozen,MemoryRow.stored,Prod.mk.injEq] at kept
  split
  next => simp [frozen,MemoryRow.stored,micros_micros,kept]
  next => exact columns old there

theorem Columns.delete {t : MemoryTable} (columns : Columns t) (p : MemoryRow → Bool) : Columns (t.delete p) :=
  fun row member => columns row ((Table.mem_delete _ _ _).mp member).1

theorem closedIn_iff {t : MemoryTable} {id : Uuid} :
    closedIn t id = true ↔ ∃ row ∈ t.rows, row.id = id ∧ row.closed = true := by
  simp [closedIn]

theorem closed_of_frozen {a b : MemoryRow} (same : frozen a.memory = frozen b.memory) : a.closed = b.closed := by
  have state : a.memory.state = b.memory.state := congrArg Prod.fst same
  simp [MemoryRow.closed,state]

theorem HistoryKept.refl (t : MemoryTable) : HistoryKept t t := fun row member _ => ⟨row,member,rfl,rfl⟩

theorem HistoryKept.trans {t u v : MemoryTable} (first : HistoryKept t u) (second : HistoryKept u v) :
    HistoryKept t v := by
  intro row member closed
  obtain ⟨middle,there,sameId,same⟩ := first row member closed
  obtain ⟨last,here,lastId,lastSame⟩ := second middle there ((closed_of_frozen same).trans closed)
  exact ⟨last,here,lastId.trans sameId,lastSame.trans same⟩

theorem HistoryKept.upsertRaw {t : MemoryTable} {row : MemoryRow}
    (same : ∀ old ∈ t.rows, old.id = row.id → old.closed = true →
      frozen row.stored.memory = frozen old.memory) : HistoryKept t (t.upsertRaw row) := by
  intro old member closed
  by_cases equal : old.id = row.id
  · exact ⟨row.stored,(Table.mem_upsert _ _ _).mpr (Or.inl rfl),equal.symm,same old member equal closed⟩
  · exact ⟨old,(Table.mem_upsert _ _ _).mpr (Or.inr ⟨member,equal⟩),rfl,rfl⟩

private theorem closed_not_active {row : MemoryRow} (closed : row.closed = true) : row.memory.state ≠ .active := by
  intro active
  simp [MemoryRow.closed,active] at closed

theorem HistoryKept.expire (t : MemoryTable) (id : Uuid) (now : Int) : HistoryKept t (t.expire id now) := by
  intro row member closed
  refine ⟨row,(Table.mem_update _ _ _ _ _).mpr ⟨row,member,?_⟩,rfl,rfl⟩
  simp [closed_not_active closed]

theorem HistoryKept.enforceScopeCap (t : MemoryTable) (scope : MemoryScope) (cap : Nat) :
    HistoryKept t (t.enforceScopeCap scope cap).2 := by
  intro row member closed
  refine ⟨row,(Table.mem_delete _ _ _).mpr ⟨member,?_⟩,rfl,rfl⟩
  have spared : row.id ∉ t.overCap scope cap := by
    intro evicted
    obtain ⟨other,there,same,active⟩ := MemoryTable.overCap_active evicted
    cases t.eq_of_key there member same
    exact closed_not_active closed active
  simpa using spared

/-- The writes a call has left: what one of them replaces was open when the call read it, or it
carries over the frozen part of what was closed. -/
structure Flight.Faithful (flight : Flight) (now : MemoryTable) : Prop where
  kept : HistoryKept flight.seen now
  rows : ∀ stamp new, Write.row stamp new ∈ flight.left → ∀ old ∈ flight.seen.rows, old.id = new.id →
    old.closed = true → frozen new.stored.memory = frozen old.memory

structure Orderly (s : Busy) : Prop where
  columns : Columns s.engine.memories
  flights : ∀ flight ∈ s.flights, flight.Faithful s.engine.memories

section
variable (env : Env)

theorem SplitCall.writes_faithful {e : Engine} {call : SplitCall} (columns : Columns e.memories)
    (fresh : ∀ d input, call = .add d input → d.id ∉ e.memories.keys) {stamp : Uuid → Int} {new old : MemoryRow}
    (inside : Write.row stamp new ∈ call.writes env e) (member : old ∈ e.memories.rows)
    (same : old.id = new.id) (closed : old.closed = true) : frozen new.stored.memory = frozen old.memory := by
  have open_ (other : MemoryRow) (there : other ∈ e.memories.rows) (equal : other.id = new.id)
      (active : other.memory.state = .active) : frozen new.stored.memory = frozen old.memory := by
    cases e.memories.eq_of_key there member (equal.trans same.symm)
    exact absurd active (closed_not_active closed)
  cases call with
  | add d input =>
    simp only [SplitCall.writes] at inside
    split at inside
    next => cases inside
    next result rows ok =>
      have listed : new ∈ rows ∧ d.stamp = stamp := by simpa using inside
      rcases (memoryPlanWithEmbedding_cases env ok).2.targets listed.1 with ⟨other,there,active,equal⟩ | ⟨drawn,_⟩
      · exact open_ other there equal active
      · exact absurd ((Table.mem_keys _ _).mpr ⟨old,member,same.trans drawn⟩) (fresh d input rfl)
  | update id patch tenant d =>
    simp only [SplitCall.writes] at inside
    split at inside
    next => cases inside
    next m rows ok =>
      obtain ⟨found,active,equal⟩ := Option.map_eq_some_iff.mp ok
      obtain ⟨looked,isActive⟩ := Option.filter_eq_some_iff.mp active
      obtain ⟨other,there,rfl,sameId⟩ := lookup_eq_some looked
      cases equal
      have written : new.id = other.id := by
        simp only [List.map_cons,List.map_nil,List.mem_singleton,Write.row.injEq] at inside
        rw [inside.2]
        rfl
      exact open_ other there written.symm (of_decide_eq_true isActive)
  | feedback id tenant verdict now stamp' =>
    simp only [SplitCall.writes] at inside
    split at inside
    next => cases inside
    next m rows ok =>
      obtain ⟨found,looked,equal⟩ := Option.map_eq_some_iff.mp ok
      obtain ⟨other,there,rfl,sameId⟩ := lookup_eq_some looked
      cases verdict with
      | helpful =>
        cases equal
        simp only [List.map_cons,List.map_nil,List.mem_singleton,Write.row.injEq] at inside
        obtain ⟨_,rfl⟩ := inside
        cases e.memories.eq_of_key there member same.symm
        exact columns old member
      | wrong => cases equal
      | obsolete => cases equal
    next m ids ok => simp at inside
  | resolve scope subject keepId now stamp' =>
    simp only [SplitCall.writes] at inside
    split at inside
    next => cases inside
    next rows ok =>
      simp only [memoryResolvePlan] at ok
      split at ok
      next kept =>
        cases ok
        simp only [List.mem_map,Write.row.injEq] at inside
        obtain ⟨_,⟨m,listed,rfl⟩,_,rfl⟩ := inside
        obtain ⟨other,there,rfl,_,_,_,active⟩ := MemoryTable.mem_findActiveBySubject.mp (List.mem_filter.mp listed).1
        exact open_ other there rfl active
      next => cases ok

theorem Write.apply_kept {e : Engine} (w : Write)
    (faithful : ∀ stamp new, w = .row stamp new → ∀ old ∈ e.memories.rows, old.id = new.id →
      old.closed = true → frozen new.stored.memory = frozen old.memory) :
    HistoryKept e.memories (w.apply env e).memories := by
  cases w with
  | row stamp new =>
    have written : (applyRow env stamp e new).memories = e.memories.upsertRaw new :=
      congrArg Tables.memories (applyRow_tables env stamp e new)
    rw [Write.apply,written]
    exact HistoryKept.upsertRaw (faithful stamp new rfl)
  | expire stamp id =>
    have written : (expireOne stamp e id).memories = e.memories.expire id (stamp id) :=
      memoryExpire_memories stamp e [id]
    rw [Write.apply,written]
    exact HistoryKept.expire _ _ _
  | evict scope =>
    rw [Write.apply,evictOverCap_memories]
    exact HistoryKept.enforceScopeCap _ _ _

theorem Write.apply_columns {e : Engine} (w : Write) (columns : Columns e.memories) :
    Columns (w.apply env e).memories := by
  cases w with
  | row stamp new =>
    have written : (applyRow env stamp e new).memories = e.memories.upsertRaw new :=
      congrArg Tables.memories (applyRow_tables env stamp e new)
    rw [Write.apply,written]
    exact columns.upsertRaw new
  | expire stamp id =>
    have written : (expireOne stamp e id).memories = e.memories.expire id (stamp id) :=
      memoryExpire_memories stamp e [id]
    rw [Write.apply,written]
    exact columns.expire id (stamp id)
  | evict scope =>
    rw [Write.apply,evictOverCap_memories]
    exact columns.delete _

theorem Orderly.step {s : Busy} {turn : Turn} (orderly : Orderly s) (fresh : drawsKnown s turn = false)
    (ahead : overtaken s turn = false) :
    Orderly (turnStep env s turn) ∧ HistoryKept s.engine.memories (turnStep env s turn).engine.memories := by
  cases turn with
  | plan call =>
    refine ⟨⟨orderly.columns,?_⟩,HistoryKept.refl _⟩
    intro flight inside
    rcases List.mem_append.mp inside with inside | inside
    · exact orderly.flights flight inside
    · cases List.mem_singleton.mp inside
      refine ⟨HistoryKept.refl _,?_⟩
      intro stamp new listed old member same closed
      refine call.writes_faithful env orderly.columns ?_ listed member same closed
      rintro d input rfl known
      simp [drawsKnown,known] at fresh
  | write i =>
    simp only [turnStep]
    split
    next seen w left found =>
      have faithful := orderly.flights _ (List.mem_of_getElem? found)
      -- the row written was read as closed already, or what it replaces is still open
      have carried : HistoryKept s.engine.memories (w.apply env s.engine).memories := by
        apply w.apply_kept env
        rintro stamp new rfl old member same closed
        have now : closedIn s.engine.memories new.id = true := closedIn_iff.mpr ⟨old,member,same,closed⟩
        have before : closedIn seen new.id = true := by simpa [overtaken,found,now] using ahead
        obtain ⟨read,there,sameRead,wasClosed⟩ := closedIn_iff.mp before
        obtain ⟨kept,here,keptId,unchanged⟩ := faithful.kept read there wasClosed
        cases s.engine.memories.eq_of_key here member (keptId.trans (sameRead.trans same.symm))
        exact (faithful.rows stamp new (by simp) read there sameRead wasClosed).trans unchanged.symm
      refine ⟨⟨w.apply_columns env orderly.columns,?_⟩,carried⟩
      intro flight inside
      rcases List.mem_or_eq_of_mem_set inside with other | rfl
      · exact ⟨(orderly.flights flight other).kept.trans carried,(orderly.flights flight other).rows⟩
      · exact ⟨faithful.kept.trans carried,
          fun stamp new listed => faithful.rows stamp new (List.mem_cons_of_mem w listed)⟩
    next => exact ⟨orderly,HistoryKept.refl _⟩

theorem Orderly.run {s : Busy} {turns : List Turn} (orderly : Orderly s)
    (guarded : Along (turnStep env) (fun s turn => drawsKnown s turn = false ∧ overtaken s turn = false) s turns) :
    Orderly (run (turnStep env) s turns) ∧
      HistoryKept s.engine.memories (Library.run (turnStep env) s turns).engine.memories := by
  induction turns generalizing s with
  | nil => exact ⟨orderly,HistoryKept.refl _⟩
  | cons turn turns ih =>
    obtain ⟨next,kept⟩ := orderly.step env guarded.1.1 guarded.1.2
    obtain ⟨last,rest⟩ := ih next guarded.2
    exact ⟨last,kept.trans rest⟩

/-- In every run of overlapping calls in which no write is overtaken, a version that is superseded or
expired keeps its state, content and interval in every later state. -/
theorem closed_immutable (e : Engine) (turns : List Turn) (columns : Columns e.memories)
    (fresh : Along (turnStep env) (fun s turn => drawsKnown s turn = false) ⟨e,[]⟩ turns)
    (ahead : Along (turnStep env) (fun s turn => overtaken s turn = false) ⟨e,[]⟩ turns) :
    ClosedImmutable env ⟨e,[]⟩ turns := by
  intro n m later
  have split : turns.take m = turns.take n ++ (turns.take m).drop n := by
    have first : turns.take n = (turns.take m).take n := by rw [List.take_take,Nat.min_eq_left later]
    rw [first,List.take_append_drop]
  have reached : Orderly (run (turnStep env) ⟨e,[]⟩ (turns.take n)) :=
    (Orderly.run env ⟨columns,by simp⟩ ((fresh.and ahead).take n)).1
  have whole := (fresh.and ahead).take m
  rw [split] at whole ⊢
  rw [run_append]
  exact (reached.run env whole.drop).2

end

private def cityInput (subject : Option String) (content : String) : MemoryInput :=
  { MemoryInput.new (.tenant "acme") content with subject := subject }

private def renamed : MemoryPatch := ⟨some "Bergen",none,none,none⟩

def overlappingTurns : List Turn :=
  [.plan (.add (.plain 1000 1) (cityInput (some "city") "Oslo")),.write 0,
    .plan (.add (.plain 2000 2) (cityInput (some "city") "Bergen")),
    .plan (.add (.plain 2500 3) (cityInput (some "plan") "pro")),.write 1,.write 2,.write 1,
    .plan (.feedback 1 none .helpful 3000 (fun _ => 3000)),
    .plan (.update 2 renamed none (.plain 4000 9)),.write 3,.write 4]

theorem closed_immutable_overlapping :
    ClosedImmutable .ascii ⟨.empty .default 2,[]⟩ overlappingTurns :=
  closed_immutable .ascii (.empty .default 2) overlappingTurns (by simp [Columns,Engine.empty,Table.empty])
    (by decide +kernel) (by decide +kernel)

/-- A correction planned on a memory that is then retired, and written only after that. -/
def overtakenTurns : List Turn :=
  [.plan (.add (.plain 1000 1) (cityInput (some "city") "Oslo")),.write 0,
    .plan (.update 1 renamed none (.plain 2000 9)),.plan (.feedback 1 none .wrong 3000 (fun _ => 3000)),
    .write 2,.write 1]

private theorem overtakenTurns_retired :
    (run (turnStep .ascii) ⟨.empty .default 2,[]⟩ (overtakenTurns.take 5)).engine.memories.rows.map
      (fun row => row.memory.state) = [.expired] := by
  decide +kernel

private theorem overtakenTurns_revived :
    (run (turnStep .ascii) ⟨.empty .default 2,[]⟩ (overtakenTurns.take 6)).engine.memories.rows.map
      (fun row => row.memory.state) = [.active] := by
  decide +kernel

/-- The retired memory is active again, with another content. -/
theorem overtaken_update_revives :
    ¬ClosedImmutable .ascii ⟨.empty .default 2,[]⟩ overtakenTurns := by
  intro immutable
  have listed : MemoryState.expired ∈ (run (turnStep .ascii) ⟨.empty .default 2,[]⟩
      (overtakenTurns.take 5)).engine.memories.rows.map (fun row => row.memory.state) := by
    rw [overtakenTurns_retired]
    simp
  obtain ⟨row,member,expired⟩ := List.mem_map.mp listed
  obtain ⟨kept,there,_,same⟩ := immutable 5 6 (by decide) row member (by simp [MemoryRow.closed,expired])
  have state : kept.memory.state = .expired := (congrArg Prod.fst same).trans expired
  have final := List.mem_map_of_mem there (f := fun row => row.memory.state)
  rw [overtakenTurns_revived,state] at final
  simp at final

end Ecphoria
