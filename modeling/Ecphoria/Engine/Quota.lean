import Ecphoria.Engine.IndexFrame
import Ecphoria.Engine.Search
import Ecphoria.Library.Sorted
import Mathlib.Data.List.TakeDrop

/-! The cap on the memories of a scope. An add writes its rows, ranks what is active in the
scope then, the new memory included, and deletes the rows after the first of the ranking one
by one; what it answers was settled before. -/
namespace Ecphoria
open Library

/-- The deletes that are carried out when the database fails after so many, if it fails. -/
def carriedOut (evict : List Uuid) : Option Nat → List Uuid
  | none => evict
  | some n => evict.take n

/-- `enforce_scope_cap` over a database that may fail. A scope that cannot be read fails before the first delete. -/
def MemoryTable.enforceScopeCapUntil (t : MemoryTable) (scope : MemoryScope) (cap : Nat) (deletes : Option Nat) :
    Option (List Uuid) × MemoryTable :=
  let evict := t.overCap scope cap
  let gone := carriedOut evict deletes
  (if gone.length = evict.length then some evict else none,t.delete (fun row => row.id ∈ gone))

def evictOverCapUntil (e : Engine) (scope : MemoryScope) (deletes : Option Nat) : Engine :=
  let (evicted,memories) := e.memories.enforceScopeCapUntil scope e.config.cognition.maxMemoriesPerScope deletes
  match evicted with
  | some ids => ids.foldl Engine.forgetIndexes { e with memories := memories }
  | none => { e with memories := memories }

/-- `memory_add` over a database that may fail while it evicts. -/
def memoryAddUntil (env : Env) (e : Engine) (d : Draw) (input : MemoryInput) (deletes : Option Nat) :
    Except Error MemoryAdd × Engine :=
  match memoryPlan env e d input with
  | .error err => (.error err,e)
  | .ok (result,rows) =>
    (.ok result,evictOverCapUntil (memoryApplyRows env d.stamp e rows) result.memory.scope deletes)

/-- Where the ranking puts a memory of the scope. -/
def MemoryTable.rank (t : MemoryTable) (scope : MemoryScope) (m : Memory) : Nat :=
  standing keepFirst Memory.id (t.memories.filter (activeIn scope)) m

/-- The row is active, in the scope, and ranked after the first `cap`. -/
def MemoryTable.Beyond (t : MemoryTable) (scope : MemoryScope) (cap : Nat) (row : MemoryRow) : Prop :=
  activeIn scope row.memory = true ∧ cap ≤ t.rank scope row.memory

instance (t : MemoryTable) (scope : MemoryScope) (cap : Nat) (row : MemoryRow) : Decidable (t.Beyond scope cap row) :=
  inferInstanceAs (Decidable (_ ∧ _))

/-- What an exact eviction leaves of the store `written` after the rows of an add to `before`: `added` is the
memory the add answers with. -/
structure QuotaExact (cap : Nat) (before written : MemoryTable) (planned : Planned)
    (answer : Except Error MemoryAdd × Engine) : Prop where
  answered : answer.1 = .ok planned.add
  within : answer.2.memories.countActive planned.add.memory.scope ≤ cap
  kept : ∀ row ∈ answer.2.memories.rows, row ∈ written.rows
  deleted : ∀ row ∈ written.rows,
    row ∉ answer.2.memories.rows ↔ written.Beyond planned.add.memory.scope cap row
  untouched : ∀ row ∈ before.rows, row.memory.state ≠ .active ∨
    row.memory.scope ≠ planned.add.memory.scope ∧ row.id ∉ planned.rows.map MemoryRow.id →
      row ∈ answer.2.memories.rows
  forgotten : ∀ row ∈ written.rows, row ∉ answer.2.memories.rows →
    answer.2.lexical.find row.id = none ∧ answer.2.vectors.holding row.id = nowhere
  stored : planned.add.memory.id ∈ answer.2.memories.keys

theorem keepFirst_total (a b : Memory) : keepFirst a b ∨ keepFirst b a := by
  rcases lt_trichotomy a.importance b.importance with less | same | more
  · exact Or.inr (Or.inl less)
  · rcases le_total b.updatedAt a.updatedAt with older | newer
    · exact Or.inl (Or.inr ⟨same.symm,older⟩)
    · exact Or.inr (Or.inr ⟨same,newer⟩)
  · exact Or.inl (Or.inl more)

theorem keepFirst_trans (a b c : Memory) (first : keepFirst a b) (second : keepFirst b c) : keepFirst a c := by
  rcases first with above | ⟨level,newer⟩
  · rcases second with next | ⟨level,_⟩
    · exact Or.inl (lt_trans next above)
    · exact Or.inl (level ▸ above)
  · rcases second with next | ⟨same,later⟩
    · exact Or.inl (level ▸ next)
    · exact Or.inr ⟨same.trans level,le_trans later newer⟩

namespace MemoryTable
variable {t : MemoryTable} {scope : MemoryScope} {cap : Nat}

theorem memory_nodup (t : MemoryTable) (p : Memory → Bool) : ((t.memories.filter p).map Memory.id).Nodup :=
  t.memories_nodup.sublist (List.filter_sublist.map Memory.id)

theorem overCap_eq (capped : 0 < cap) :
    t.overCap scope cap =
      (((t.memories.filter (activeIn scope)).insertionSort keepFirst).drop cap).map Memory.id := by
  rw [overCap,if_neg (by omega),List.map_drop]
  rfl

theorem overCap_nodup (t : MemoryTable) (scope : MemoryScope) (cap : Nat) : (t.overCap scope cap).Nodup := by
  unfold overCap
  split
  next => exact List.nodup_nil
  next => exact (t.nodup_selected (activeIn scope) keepFirst).sublist (List.drop_sublist _ _)

theorem overCap_listed (t : MemoryTable) (capped : 0 < cap) {id : Uuid} (evicted : id ∈ t.overCap scope cap) :
    id ∈ (t.memories.filter (activeIn scope)).map Memory.id := by
  rw [overCap_eq capped] at evicted
  obtain ⟨m,dropped,rfl⟩ := List.mem_map.mp evicted
  exact List.mem_map_of_mem ((List.mem_insertionSort _).mp (List.mem_of_mem_drop dropped))

theorem mem_overCap_iff (capped : 0 < cap) {row : MemoryRow} (member : row ∈ t.rows) :
    row.id ∈ t.overCap scope cap ↔ t.Beyond scope cap row := by
  have own {m : Memory} (inside : m ∈ (t.memories.filter (activeIn scope)).insertionSort keepFirst)
      (same : m.id = row.id) : m = row.memory := by
    obtain ⟨other,there,rfl⟩ := List.mem_map.mp (List.mem_filter.mp ((List.mem_insertionSort _).mp inside)).1
    rw [t.eq_of_key there member same]
  have ranked (chosen : activeIn scope row.memory = true) :
      row.memory ∈ ((t.memories.filter (activeIn scope)).insertionSort keepFirst).drop cap ↔
        cap ≤ t.rank scope row.memory :=
    mem_drop_insertionSort keepFirst_total keepFirst_trans (t.memory_nodup (activeIn scope))
      (List.mem_filter.mpr ⟨List.mem_map_of_mem member,chosen⟩) cap
  rw [overCap_eq capped]
  constructor
  · intro evicted
    obtain ⟨m,dropped,same⟩ := List.mem_map.mp evicted
    have inside := List.mem_of_mem_drop dropped
    cases own inside same
    have chosen := (List.mem_filter.mp ((List.mem_insertionSort _).mp inside)).2
    exact ⟨chosen,(ranked chosen).mp dropped⟩
  · intro beyond
    exact List.mem_map_of_mem ((ranked beyond.1).mpr beyond.2)

theorem countActive_deleted {gone : List Uuid} (once : gone.Nodup)
    (listed : ∀ id ∈ gone, id ∈ (t.memories.filter (activeIn scope)).map Memory.id) :
    countActive (t.delete (fun row => row.id ∈ gone)) scope + gone.length = t.countActive scope := by
  have apart : (memories (t.delete (fun row => row.id ∈ gone))).filter (activeIn scope) =
      (t.memories.filter (activeIn scope)).filter (fun m => !decide (m.id ∈ gone)) := by
    simp only [memories,Table.delete,List.filter_map,List.filter_filter]
    refine congrArg (List.map MemoryRow.memory) (List.filter_congr fun row _ => ?_)
    rw [Bool.and_comm]
    rfl
  change ((memories (t.delete (fun row => row.id ∈ gone))).filter (activeIn scope)).length + gone.length =
    (t.memories.filter (activeIn scope)).length
  rw [apart,← length_filter_keys (t.memory_nodup (activeIn scope)) once listed]
  have parts := (t.memories.filter (activeIn scope)).length_eq_length_filter_add (fun m => decide (m.id ∈ gone))
  omega

end MemoryTable

section
variable {env : Env} {e : Engine} {d : Draw} {input : MemoryInput} {deletes : Option Nat} {planned : Planned}

theorem memoryPlan_answer (ok : memoryPlan env e d input = .ok planned) :
    ∃ olds last, planned.rows = olds ++ [last] ∧ last.memory = planned.add.memory ∧
      MemoryTable.activeIn planned.add.memory.scope planned.add.memory = true := by
  have home {m : Memory} (placed : m.scope = m.scope.withDefaultTenant) (active : m.state = .active) :
      MemoryTable.activeIn m.scope m = true :=
    (Bool.and_eq_true _ _).mpr ⟨(MemoryScope.matchesRow_iff _ _).mpr placed,decide_eq_true active⟩
  have canonical : (canonicalInput env input).scope = (canonicalInput env input).scope.withDefaultTenant :=
    (MemoryScope.withDefaultTenant_withDefaultTenant input.scope).symm
  cases (memoryPlanWithEmbedding_cases env ok).2 with
  | confirmed subject existing others keyed read same =>
    obtain ⟨row,_,rfl,placed,_,_,active⟩ := MemoryTable.mem_findActiveBySubject.mp (read ▸ List.mem_cons_self)
    have own : row.memory.scope = row.memory.scope.withDefaultTenant := by
      rw [placed,MemoryScope.withDefaultTenant_withDefaultTenant]
    exact ⟨[],_,rfl,rfl,home own active⟩
  | conflict => exact ⟨[],_,rfl,rfl,home canonical rfl⟩
  | superseded => exact ⟨_,_,rfl,rfl,home canonical rfl⟩
  | merged => exact ⟨[_],_,rfl,rfl,home canonical rfl⟩
  | inserted => exact ⟨[],_,rfl,rfl,home canonical rfl⟩

theorem evictOverCapUntil_memories (e : Engine) (scope : MemoryScope) (deletes : Option Nat) :
    (evictOverCapUntil e scope deletes).memories = e.memories.delete (fun row =>
      row.id ∈ carriedOut (e.memories.overCap scope e.config.cognition.maxMemoriesPerScope) deletes) := by
  simp only [evictOverCapUntil,MemoryTable.enforceScopeCapUntil]
  split
  next => exact congrArg Tables.memories (forgetAll_frame _ _).1
  next => rfl

theorem evictOverCapUntil_forgets {scope : MemoryScope}
    (whole : (carriedOut (e.memories.overCap scope e.config.cognition.maxMemoriesPerScope) deletes).length =
      (e.memories.overCap scope e.config.cognition.maxMemoriesPerScope).length) {id : Uuid}
    (evicted : id ∈ e.memories.overCap scope e.config.cognition.maxMemoriesPerScope) :
    (evictOverCapUntil e scope deletes).lexical.find id = none ∧
      (evictOverCapUntil e scope deletes).vectors.holding id = nowhere := by
  simp only [evictOverCapUntil,MemoryTable.enforceScopeCapUntil]
  rw [if_pos whole]
  obtain ⟨text,vector⟩ := forgetAll_holds { e with memories := e.memories.delete (fun row =>
    row.id ∈ carriedOut (e.memories.overCap scope e.config.cognition.maxMemoriesPerScope) deletes) } _ id
  rw [if_pos evicted] at text vector
  exact ⟨text,vector⟩

private theorem memoryAddUntil_parts (deletes : Option Nat) (ok : memoryPlan env e d input = .ok planned) :
    let written := e.memories.upsertRows planned.rows
    let evict := written.overCap planned.add.memory.scope e.config.cognition.maxMemoriesPerScope
    let answer := memoryAddUntil env e d input deletes
    answer.1 = .ok planned.add ∧
      answer.2.memories = written.delete (fun row => row.id ∈ carriedOut evict deletes) ∧
      ((carriedOut evict deletes).length = evict.length → ∀ id ∈ evict,
        answer.2.lexical.find id = none ∧ answer.2.vectors.holding id = nowhere) := by
  intro written evict answer
  have whole : answer = (.ok planned.add,
      evictOverCapUntil (memoryApplyRows env d.stamp e planned.rows) planned.add.memory.scope deletes) := by
    simp only [answer,memoryAddUntil,ok]
    rfl
  have applied : (memoryApplyRows env d.stamp e planned.rows).memories = written := memoryApplyRows_memories env d.stamp e _
  have left := evictOverCapUntil_memories (memoryApplyRows env d.stamp e planned.rows) planned.add.memory.scope deletes
  have forgets := @evictOverCapUntil_forgets (memoryApplyRows env d.stamp e planned.rows) deletes planned.add.memory.scope
  rw [applied,memoryApplyRows_config] at left forgets
  rw [whole]
  exact ⟨rfl,left,fun full id inside => forgets full inside⟩

/-- A row that was there and not active, or elsewhere and not written, is there as before once the rows are written. -/
private theorem plan_leaves (fresh : d.id ∉ e.memories.keys) (ok : memoryPlan env e d input = .ok planned)
    {row : MemoryRow} (member : row ∈ e.memories.rows)
    (apart : row.memory.state ≠ .active ∨ row.id ∉ planned.rows.map MemoryRow.id) :
    row ∈ (e.memories.upsertRows planned.rows).rows := by
  refine MemoryTable.mem_upsertRows_of_apart member fun new inside same => ?_
  rcases apart with idle | unlisted
  · rcases (memoryPlanWithEmbedding_cases env ok).2.targets inside with ⟨old,there,active,replaced⟩ | ⟨drawn,_⟩
    · rw [e.memories.eq_of_key there member (replaced.trans same)] at active
      exact idle active
    · exact fresh ((Table.mem_keys _ _).mpr ⟨row,member,same.symm.trans drawn⟩)
  · exact unlisted (List.mem_map.mpr ⟨new,inside,same⟩)

theorem carriedOut_sublist (evict : List Uuid) : ∀ deletes, (carriedOut evict deletes).Sublist evict
  | none => List.Sublist.refl evict
  | some n => List.take_sublist n evict

/-- When all deletes are carried out and the memory added ranks within the cap, the eviction is exact. -/
private theorem exact_of_whole {cap : Nat} {before written : MemoryTable} {answer : Except Error MemoryAdd × Engine}
    (capped : 0 < cap) (home : planned.add.memory.scope = planned.add.memory.scope.withDefaultTenant)
    (answered : answer.1 = .ok planned.add)
    (left : answer.2.memories = written.delete (fun row => row.id ∈ written.overCap planned.add.memory.scope cap))
    (clears : ∀ id ∈ written.overCap planned.add.memory.scope cap,
      answer.2.lexical.find id = none ∧ answer.2.vectors.holding id = nowhere)
    (leaves : ∀ row ∈ before.rows, row.memory.state ≠ .active ∨ row.id ∉ planned.rows.map MemoryRow.id →
      row ∈ written.rows)
    (within : answer.2.memories.countActive planned.add.memory.scope ≤ cap)
    {added : MemoryRow} (stands : added ∈ written.rows) (own : added.id = planned.add.memory.id)
    (ranked : written.rank planned.add.memory.scope added.memory < cap) :
    QuotaExact cap before written planned answer := by
  have gone {row : MemoryRow} (member : row ∈ written.rows) :
      row ∉ answer.2.memories.rows ↔ written.Beyond planned.add.memory.scope cap row := by
    rw [left,Table.mem_delete,← MemoryTable.mem_overCap_iff capped member]
    simp [member]
  refine ⟨answered,within,?_,fun row member => gone member,?_,?_,?_⟩
  · intro row member
    rw [left,Table.mem_delete] at member
    exact member.1
  · intro row member apart
    have there := leaves row member (apart.imp_right And.right)
    by_contra lost
    obtain ⟨chosen,_⟩ := (gone there).mp lost
    obtain ⟨placed,active⟩ := (Bool.and_eq_true _ _).mp chosen
    rcases apart with idle | ⟨elsewhere,_⟩
    · exact idle (of_decide_eq_true active)
    · exact elsewhere (((MemoryScope.matchesRow_iff _ _).mp placed).trans home.symm)
  · intro row member lost
    exact clears row.id ((MemoryTable.mem_overCap_iff capped member).mpr ((gone member).mp lost))
  · have kept : added ∈ answer.2.memories.rows := by
      by_contra lost
      have beyond := ((gone stands).mp lost).2
      omega
    exact (Table.mem_keys _ _).mpr ⟨added,kept,own⟩

/-- What an add leaves is an exact eviction when the database carries out the deletes it is asked for and the
memory that was added ranks within the cap, and not otherwise. -/
theorem quota_exact_iff (capped : 0 < e.config.cognition.maxMemoriesPerScope) (fresh : d.id ∉ e.memories.keys)
    (ok : memoryPlan env e d input = .ok planned) :
    let cap := e.config.cognition.maxMemoriesPerScope
    let scope := planned.add.memory.scope
    let written := e.memories.upsertRows planned.rows
    QuotaExact cap e.memories written planned (memoryAddUntil env e d input deletes) ↔
      (∀ n, deletes = some n → written.countActive scope ≤ cap + n) ∧
        ∀ row ∈ written.rows, row.id = planned.add.memory.id → written.rank scope row.memory < cap := by
  intro cap scope written
  obtain ⟨answered,left,clears⟩ := memoryAddUntil_parts deletes ok
  obtain ⟨olds,last,rows,answer,active⟩ := memoryPlan_answer ok
  change (memoryAddUntil env e d input deletes).2.memories = written.delete (fun row =>
    row.id ∈ carriedOut (written.overCap scope cap) deletes) at left
  have stands : last.stored ∈ written.rows := by
    simp only [written,rows,MemoryTable.upsertRows_append]
    exact (Table.mem_upsert _ _ _).mpr (Or.inl rfl)
  have own : last.stored.id = planned.add.memory.id := (congrArg Memory.id answer : last.memory.id = _)
  have chosen : MemoryTable.activeIn scope last.stored.memory = true := by
    rw [← answer] at active
    simp only [scope,← answer]
    exact active
  have home : scope = scope.withDefaultTenant :=
    (MemoryScope.matchesRow_iff _ _).mp ((Bool.and_eq_true _ _).mp active).1
  have part := carriedOut_sublist (written.overCap scope cap) deletes
  have size : (written.overCap scope cap).length = written.countActive scope - cap := by
    rw [MemoryTable.overCap_eq capped,List.length_map,List.length_drop,List.length_insertionSort]
    rfl
  have reached : carriedOut (written.overCap scope cap) deletes = written.overCap scope cap ↔
      ∀ n, deletes = some n → written.countActive scope ≤ cap + n := by
    cases deletes with
    | none => simp [carriedOut]
    | some n =>
      simp only [carriedOut,List.take_eq_self_iff,size,Option.some.injEq,forall_eq']
      omega
  have count := MemoryTable.countActive_deleted ((written.overCap_nodup scope cap).sublist part)
    (fun id inside => written.overCap_listed capped (part.subset inside))
  rw [← left] at count
  rw [← reached]
  constructor
  · intro exact
    refine ⟨?_,?_⟩
    · have within : (memoryAddUntil env e d input deletes).2.memories.countActive scope ≤ cap := exact.within
      exact part.eq_of_length (by have short := part.length_le; omega)
    · intro row member same
      by_contra late
      obtain ⟨other,there,equal⟩ := (Table.mem_keys _ _).mp exact.stored
      cases written.eq_of_key member stands (same.trans own.symm)
      cases written.eq_of_key (exact.kept other there) stands (equal.trans own.symm)
      exact (exact.deleted _ stands).mpr ⟨chosen,Nat.le_of_not_lt late⟩ there
  · intro given
    obtain ⟨whole,ranked⟩ := given
    rw [whole] at left count
    have within : (memoryAddUntil env e d input deletes).2.memories.countActive scope ≤ cap := by omega
    exact exact_of_whole capped home answered left (clears (congrArg List.length whole))
      (fun row member apart => plan_leaves fresh ok member apart) within stands own (ranked _ stands own)

end

def ratedNote (content : String) (importance : Rat) : MemoryInput :=
  { MemoryInput.new (.tenant "acme") content with importance := some importance }

/-- A scope that may keep one memory, and keeps an important one. -/
def fullScope : Engine :=
  (memoryAdd .ascii (.empty { CoreConfig.default with cognition := ⟨9 / 10,"none",1 / 2,1,false,false⟩ } 2) (.plain 1000 1)
    (ratedNote "deploys need approval" (9 / 10))).2

private theorem fullScope_plan (importance : Rat) :
    memoryPlan .ascii fullScope (.plain 2000 2) (ratedNote "lunch is at noon" importance) =
      .ok (planInserted (.plain 2000 2) (ratedNote "lunch is at noon" importance) importance none) := by
  rfl

theorem quota_exact_higher :
    QuotaExact 1 fullScope.memories
      (fullScope.memories.upsertRows (planInserted (.plain 2000 2) (ratedNote "lunch is at noon" 1) 1 none).rows)
      (planInserted (.plain 2000 2) (ratedNote "lunch is at noon" 1) 1 none)
      (memoryAddUntil .ascii fullScope (.plain 2000 2) (ratedNote "lunch is at noon" 1) none) := by
  refine (quota_exact_iff (by decide) (by decide) (fullScope_plan 1)).mpr ⟨by simp,?_⟩
  decide +kernel

/-- A newcomer that ranks last is deleted by the add that answers it was inserted. -/
theorem newcomer_evicted :
    (memoryAddUntil .ascii fullScope (.plain 2000 2) (ratedNote "lunch is at noon" (1 / 2)) none).1 =
        .ok (planInserted (.plain 2000 2) (ratedNote "lunch is at noon" (1 / 2)) (1 / 2) none).add ∧
      ¬QuotaExact 1 fullScope.memories
        (fullScope.memories.upsertRows (planInserted (.plain 2000 2) (ratedNote "lunch is at noon" (1 / 2)) (1 / 2) none).rows)
        (planInserted (.plain 2000 2) (ratedNote "lunch is at noon" (1 / 2)) (1 / 2) none)
        (memoryAddUntil .ascii fullScope (.plain 2000 2) (ratedNote "lunch is at noon" (1 / 2)) none) := by
  refine ⟨rfl,fun exact => ?_⟩
  have gone : 2 ∉ (memoryAddUntil .ascii fullScope (.plain 2000 2) (ratedNote "lunch is at noon" (1 / 2)) none).2.memories.keys := by
    decide +kernel
  exact gone exact.stored

end Ecphoria
