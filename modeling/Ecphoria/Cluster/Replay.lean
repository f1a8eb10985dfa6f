import Ecphoria.Cluster.Request

/-! An entry applied twice, as after a crash between the engine write and the record
of it. Every store recognises what it has seen, except the versions of the state
store and the appender, which has no conflict handling. -/
namespace Ecphoria
open Library

section
variable (env : Env)

/-- Applying the request again succeeds and leaves every table as the first time. -/
def Harmless (first second : Reading) (e : Engine) (request : AppRequest) : Prop :=
  (∃ response, (applyRequest env second (applyRequest env first e request).2 request).1 = .ok response) ∧
    (applyRequest env second (applyRequest env first e request).2 request).2.tables =
      (applyRequest env first e request).2.tables

/-- No version is counted up, and events carry a key to recognise them by. -/
def Repeatable : AppRequest → Prop
  | .stateSet _ _ _ _ => False
  | .ingest events _ => events = [] ∨ ∃ event ∈ events, event.idempotencyKey.isSome
  | _ => True

end

namespace EpisodicTable

theorem insertOrIgnore_conflicts (t : EpisodicTable) (row : EventRow) : (t.insertOrIgnore row).conflicts row = true := by
  unfold insertOrIgnore
  split
  next known => exact known
  next fresh => simp [conflicts,Table.mem_keys_upsert]

theorem conflicts_insertOrIgnore {t : EpisodicTable} {row other : EventRow} (known : t.conflicts other = true) :
    (t.insertOrIgnore row).conflicts other = true := by
  unfold insertOrIgnore
  split
  next => exact known
  next fresh =>
    simp only [conflicts,Bool.or_eq_true,decide_eq_true_eq,Bool.and_eq_true,List.any_eq_true] at known ⊢
    rcases known with id | ⟨keyed,old,member,same⟩
    · exact Or.inl ((Table.mem_keys_upsert _ _ _).mpr (Or.inr id))
    · refine Or.inr ⟨keyed,old,(Table.mem_upsert _ _ _).mpr (Or.inr ⟨member,?_⟩),same⟩
      intro equal
      have clash : t.conflicts row = true := by
        simp only [conflicts,Bool.or_eq_true,decide_eq_true_eq]
        exact Or.inl ((Table.mem_keys _ _).mpr ⟨old,member,equal⟩)
      exact fresh clash

theorem fold_conflicts {t : EpisodicTable} {rows : List EventRow} {other : EventRow}
    (known : t.conflicts other = true ∨ other ∈ rows) : (rows.foldl insertOrIgnore t).conflicts other = true := by
  induction rows generalizing t with
  | nil => simpa using known
  | cons row rows ih =>
    apply ih
    rcases known with known | inside
    · exact Or.inl (conflicts_insertOrIgnore known)
    · rcases List.mem_cons.mp inside with rfl | inside
      · exact Or.inl (insertOrIgnore_conflicts t other)
      · exact Or.inr inside

theorem fold_known {t : EpisodicTable} {rows : List EventRow} (known : ∀ row ∈ rows, t.conflicts row = true) :
    rows.foldl insertOrIgnore t = t := by
  induction rows with
  | nil => rfl
  | cons row rows ih =>
    have first : t.insertOrIgnore row = t := if_pos (known row (by simp))
    rw [List.foldl_cons,first]
    exact ih (fun other inside => known other (List.mem_cons_of_mem row inside))

theorem append_again {t after : EpisodicTable} {events : List Event} {n : Nat}
    (keyed : events = [] ∨ ∃ event ∈ events, event.idempotencyKey.isSome) (ok : t.append events = .ok (n,after)) :
    ∃ m, after.append events = .ok (m,after) := by
  unfold append at ok ⊢
  split at ok
  next none =>
    cases ok
    exact ⟨0,by simp [none]⟩
  next some =>
    have slow : events.all (fun event => event.idempotencyKey.isNone) = false := by
      rcases keyed with rfl | ⟨event,inside,key⟩
      · simp at some
      · apply Bool.eq_false_iff.mpr
        intro fast
        have unkeyed := List.all_eq_true.mp fast event inside
        rw [Option.isNone_iff_eq_none.mp unkeyed] at key
        cases key
    rw [slow] at ok
    simp only [Bool.false_eq_true,if_false,Except.ok.injEq,Prod.mk.injEq] at ok
    obtain ⟨_,rfl⟩ := ok
    have again := @fold_known ((events.map Event.toRow).foldl insertOrIgnore t) (events.map Event.toRow)
      (fun row inside => fold_conflicts (Or.inr inside))
    exact ⟨_,by simp only [some,slow,again]; rfl⟩

theorem append_twice_fails {t after : EpisodicTable} {events : List Event} {n : Nat} (some : events ≠ [])
    (unkeyed : ∀ event ∈ events, event.idempotencyKey.isSome = false) (ok : t.append events = .ok (n,after)) :
    ∃ err, after.append events = .error err := by
  have fast : events.all (fun event => event.idempotencyKey.isNone) = true := by
    apply List.all_eq_true.mpr
    intro event inside
    simpa using unkeyed event inside
  have filled : events.isEmpty = false := by simpa using some
  have goes : t.appendFast events = .ok (n,after) := by simpa [append,fast,filled] using ok
  unfold appendFast at goes
  split at goes
  next => cases goes
  next appended written =>
    cases goes
    obtain ⟨event,rest,rfl⟩ := List.exists_cons_of_ne_nil some
    have known : event.toRow.id ∈ after.keys := by
      obtain ⟨_,_,rfl⟩ := (Table.append_eq_some _ _ _).mp written
      exact Table.mem_keys_upsertAll (Or.inl ⟨event.toRow,by simp,rfl⟩)
    refine ⟨.ingest "appender flush",?_⟩
    have refused : Table.append after ((event :: rest).map Event.toRow) = none := by
      cases again : Table.append after ((event :: rest).map Event.toRow) with
      | none => rfl
      | some more => exact absurd known (((Table.append_eq_some _ _ _).mp again).2.1 event.toRow (by simp))
    simp only [append,filled,fast,appendFast,refused]
    rfl

end EpisodicTable

private theorem expire_inactive {t : MemoryTable} {id : Uuid} (now : Int)
    (inactive : ∀ row ∈ t.rows, row.id = id → row.memory.state ≠ .active) : t.expire id now = t := by
  apply Table.update_of_none
  intro row member
  simpa using inactive row member

private theorem expire_keeps_inactive {t : MemoryTable} {id other : Uuid} (now : Int)
    (inactive : ∀ row ∈ t.rows, row.id = id → row.memory.state ≠ .active) :
    ∀ row ∈ (t.expire other now).rows, row.id = id → row.memory.state ≠ .active := by
  intro row member same
  obtain ⟨old,there,rfl⟩ := (Table.mem_update _ _ _ _ _).mp member
  split
  next => simp
  next untouched =>
    rw [if_neg untouched] at same
    exact inactive old there same

private theorem expire_inactivates (t : MemoryTable) (id : Uuid) (now : Int) :
    ∀ row ∈ (t.expire id now).rows, row.id = id → row.memory.state ≠ .active := by
  intro row member same
  obtain ⟨old,there,rfl⟩ := (Table.mem_update _ _ _ _ _).mp member
  split
  next => simp
  next untouched =>
    rw [if_neg untouched] at same
    simpa [same] using untouched

theorem expireAll_inactive {t : MemoryTable} {ids : List Uuid} (stamp : Uuid → Int)
    (inactive : ∀ id ∈ ids, ∀ row ∈ t.rows, row.id = id → row.memory.state ≠ .active) :
    ids.foldl (fun t id => t.expire id (stamp id)) t = t := by
  induction ids with
  | nil => rfl
  | cons id ids ih =>
    rw [List.foldl_cons,expire_inactive _ (inactive id (by simp))]
    exact ih (fun other inside => inactive other (List.mem_cons_of_mem id inside))

theorem expireAll_inactivates {t : MemoryTable} {ids : List Uuid} (stamp : Uuid → Int) {id : Uuid}
    (known : id ∈ ids ∨ ∀ row ∈ t.rows, row.id = id → row.memory.state ≠ .active) :
    ∀ row ∈ (ids.foldl (fun t id => t.expire id (stamp id)) t).rows, row.id = id → row.memory.state ≠ .active := by
  induction ids generalizing t with
  | nil => simpa using known
  | cons first ids ih =>
    apply ih
    rcases known with inside | inactive
    · rcases List.mem_cons.mp inside with rfl | inside
      · exact Or.inr (expire_inactivates t id _)
      · exact Or.inl inside
    · exact Or.inr (expire_keeps_inactive _ inactive)

private theorem supersedeEdges_again (t : EdgeTable) (tenant src relation : String) (instant : Int)
    (byEdge : Option Uuid) :
    (t.supersedeEdges tenant src relation instant byEdge).supersedeEdges tenant src relation instant byEdge =
      t.supersedeEdges tenant src relation instant byEdge := by
  apply Table.update_of_none
  intro row member
  obtain ⟨old,there,rfl⟩ := (Table.mem_update _ _ _ _ _).mp member
  split
  next => simp
  next untouched => simpa using untouched

private theorem runPatch_again (patch : RunPatch) (updatedAt : Int) (run : Run) :
    patch.apply updatedAt (patch.apply updatedAt run) = patch.apply updatedAt run := by
  obtain ⟨status,result,error,cursor,startedAt,endedAt⟩ := patch
  cases status <;> cases result <;> cases error <;> cases cursor <;> cases startedAt <;> cases endedAt <;> rfl

private theorem set_version (t : StateTable) (agentId key : String) (value : Json) (first second : Int) :
    ((t.set agentId key value first).2.set agentId key value second).2 ≠ (t.set agentId key value first).2 := by
  intro same
  have written (u : StateTable) (now : Int) :
      (u.set agentId key value now).2.find (agentId,key) = some (u.nextRow agentId key value now) := by
    have keyed : (u.nextRow agentId key value now).primary = (agentId,key) := by
      unfold StateTable.nextRow
      cases found : u.find (agentId,key) with
      | none => rfl
      | some old => exact ((Table.find_eq_some _ _ _).mp found).2
    simp only [StateTable.set,Table.find_upsert,keyed,if_true]
  have once := written t first
  have twice := written (t.set agentId key value first).2 second
  have counted : ((t.set agentId key value first).2.nextRow agentId key value second).version =
      (t.nextRow agentId key value first).version + 1 := by
    rw [StateTable.nextRow,once]
  rw [same,once,Option.some.injEq] at twice
  rw [← twice] at counted
  omega

section
variable (env : Env)

private theorem memoryApplyRows_again (first second : Uuid → Int) (e : Engine) (rows : List MemoryRow) :
    (memoryApplyRows env second (memoryApplyRows env first e rows) rows).tables =
      (memoryApplyRows env first e rows).tables := by
  have memories : (memoryApplyRows env first e rows).memories.upsertRows rows =
      (memoryApplyRows env first e rows).memories := by
    rw [memoryApplyRows_memories,MemoryTable.upsertRows_eq,MemoryTable.upsertRows_eq,Table.upsertAll_upsertAll]
  have edges : (memoryApplyRows env second (memoryApplyRows env first e rows) rows).edges =
      (memoryApplyRows env first e rows).edges := by
    apply memoryApplyRows_edges_known
    intro row inside edge derived
    rw [memoryApplyRows_config] at derived
    exact (memoryApplyRows_edges_keys env first e rows _).mpr (Or.inr ⟨row,inside,edge,derived,rfl⟩)
  have again := Tables.applyRows_frame env (memoryApplyRows env first e rows).config second
    (memoryApplyRows env first e rows).tables rows
  rw [← memoryApplyRows_tables] at again
  rw [again]
  change ({ (memoryApplyRows env first e rows).tables with
    memories := (memoryApplyRows env first e rows).memories.upsertRows rows
    edges := (memoryApplyRows env second (memoryApplyRows env first e rows) rows).edges } : Tables) = _
  rw [memories,edges]
  rfl

private theorem tagEvents_keyed {tenant : Option String} {events : List Event}
    (keyed : events = [] ∨ ∃ event ∈ events, event.idempotencyKey.isSome) :
    tagEvents tenant events = [] ∨ ∃ event ∈ tagEvents tenant events, event.idempotencyKey.isSome := by
  cases tenant with
  | none => exact keyed
  | some t =>
    rcases keyed with rfl | ⟨event,inside,key⟩
    · exact Or.inl rfl
    · exact Or.inr ⟨_,List.mem_map_of_mem inside,key⟩

private theorem tagEvents_unkeyed {tenant : Option String} {events : List Event}
    (unkeyed : ∀ event ∈ events, event.idempotencyKey.isSome = false) :
    ∀ event ∈ tagEvents tenant events, event.idempotencyKey.isSome = false := by
  cases tenant with
  | none => exact unkeyed
  | some t =>
    intro event inside
    obtain ⟨plain,listed,rfl⟩ := List.mem_map.mp inside
    exact unkeyed plain listed

theorem applyRequest_again {first second : Reading} {e : Engine} {request : AppRequest}
    (repeatable : Repeatable request) (takes : Takes e request) :
    Takes (applyRequest env first e request).2 request ∧
      (applyRequest env second (applyRequest env first e request).2 request).2.tables =
        (applyRequest env first e request).2.tables := by
  cases request with
  | ingest events tenant =>
    obtain ⟨⟨n,after⟩,ok⟩ := takes
    obtain ⟨m,again⟩ := EpisodicTable.append_again (tagEvents_keyed repeatable) ok
    have once : (applyRequest env first e (.ingest events tenant)).2 = { e with episodic := after } := by
      simp [applyRequest,ingestReplicated,ok]
    rw [once]
    refine ⟨⟨_,again⟩,?_⟩
    simp [applyRequest,ingestReplicated,again]
  | stateSet agentId key value tenant => exact absurd repeatable id
  | stateDelete agentId key tenant =>
    refine ⟨trivial,?_⟩
    exact congrArg (fun state => { e.tables with state := state }) (Table.delete_delete _ _)
  | semanticUpsert id content embedding metadata =>
    refine ⟨takes.trans (applyRequest_dimension env first e _).symm,?_⟩
    rw [applyRequest_tables]
    rfl
  | semanticDelete id => exact ⟨trivial,rfl⟩
  | memoryUpsert rows => exact ⟨trivial,memoryApplyRows_again env first.stamp second.stamp e rows⟩
  | memoryDelete id =>
    refine ⟨trivial,?_⟩
    exact congrArg (fun memories => { e.tables with memories := memories }) (Table.delete_delete _ _)
  | graphAddEdge tenant edge =>
    refine ⟨trivial,congrArg (fun edges => { e.tables with edges := edges }) ?_⟩
    exact Table.insertIgnore_known _ _ ((Table.mem_keys_insertIgnore _ _ _).mpr (Or.inl rfl))
  | graphSupersede tenant src relation instant byEdge =>
    refine ⟨trivial,?_⟩
    exact congrArg (fun edges => { e.tables with edges := edges }) (supersedeEdges_again _ _ _ _ _ _)
  | memoryExpire ids =>
    refine ⟨trivial,?_⟩
    have settled : ids.foldl (fun t id => t.expire id (second.stamp id)) (memoryExpire first.stamp e ids).memories =
        (memoryExpire first.stamp e ids).memories := by
      apply expireAll_inactive
      intro id inside
      rw [memoryExpire_memories]
      exact expireAll_inactivates first.stamp (Or.inl inside)
    exact (memoryExpire_frame second.stamp _ ids).1.trans
      (congrArg (fun memories => { (memoryExpire first.stamp e ids).tables with memories := memories }) settled)
  | runCreate run =>
    refine ⟨trivial,?_⟩
    exact congrArg (fun runs => { e.tables with runs := runs }) (Table.insertIgnore_insertIgnore _ _)
  | runUpdate id patch updatedAt =>
    refine ⟨trivial,?_⟩
    exact congrArg (fun runs => { e.tables with runs := runs })
      (Table.update_update e.runs _ (patch.apply updatedAt) (fun _ => rfl) (runPatch_again patch updatedAt))

/-- An entry whose first application succeeds may be applied again exactly when it is no state write
and no append of events without a key. -/
theorem reapply_harmless_iff (first second : Reading) (e : Engine) (request : AppRequest)
    (succeeds : ∃ response, (applyRequest env first e request).1 = .ok response) :
    Harmless env first second e request ↔ Repeatable request := by
  have takes := (applyRequest_ok_iff env first e request).mp succeeds
  constructor
  · intro given
    obtain ⟨again,same⟩ := given
    cases request with
    | stateSet agentId key value tenant => exact set_version _ _ _ _ _ _ (congrArg Tables.state same)
    | ingest events tenant =>
      by_contra unrepeatable
      simp only [Repeatable,not_or,not_exists,not_and,Bool.not_eq_true] at unrepeatable
      obtain ⟨⟨n,after⟩,ok⟩ := takes
      have some : tagEvents tenant events ≠ [] := by
        cases tenant <;> simp [tagEvents,unrepeatable.1]
      obtain ⟨err,fails⟩ := EpisodicTable.append_twice_fails some (tagEvents_unkeyed unrepeatable.2) ok
      have once : (applyRequest env first e (.ingest events tenant)).2 = { e with episodic := after } := by
        simp [applyRequest,ingestReplicated,ok]
      rw [once] at again
      obtain ⟨response,answered⟩ := again
      simp [applyRequest,ingestReplicated,fails] at answered
    | _ => trivial
  · intro repeatable
    obtain ⟨took,same⟩ := applyRequest_again env repeatable takes
    exact ⟨(applyRequest_ok_iff env second _ request).mpr took,same⟩

end

private def loginEvent : Event := ⟨1,"app","login",.obj [],500,none,none,[],none⟩
private def logoutEvent : Event := ⟨2,"app","logout",.obj [],600,none,none,[],some "k"⟩

theorem reapply_harmless_keyed :
    Harmless .ascii (.uniform 1000) (.uniform 9000) (.empty .default 2)
      (.ingest [loginEvent,logoutEvent] (some "acme")) :=
  (reapply_harmless_iff .ascii _ _ _ _ ⟨_,rfl⟩).mpr (Or.inr ⟨logoutEvent,by simp,rfl⟩)

/-- A state write counts its version again when it is applied again. -/
theorem reapplied_state_set_counts :
    (∃ response, (applyRequest .ascii (.uniform 1000) (.empty .default 2)
        (.stateSet "planner" "step" (.int 1) none)).1 = .ok response) ∧
      ¬Harmless .ascii (.uniform 1000) (.uniform 1000) (.empty .default 2)
        (.stateSet "planner" "step" (.int 1) none) := by
  refine ⟨⟨_,rfl⟩,?_⟩
  intro given
  obtain ⟨_,same⟩ := given
  have versions := congrArg (fun t => t.state.rows.map StateRow.version) same
  revert versions
  decide +kernel

end Ecphoria
