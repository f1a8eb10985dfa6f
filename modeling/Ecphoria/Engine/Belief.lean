import Ecphoria.Engine.Frame
import Ecphoria.Library.Transition

/-! One active belief for each scope, project and subject. A change-set keeps this when
it writes at most one active row for a belief and covers the row that held it; plans
do, except that a merge takes over another row's subject without looking for it, and
that plans made before any of them is applied do not see each other. -/
namespace Ecphoria
open Library

structure BeliefKey where
  scope : MemoryScope
  project : Option String
  subject : String
deriving DecidableEq,Repr

def beliefOf (m : Memory) : Option BeliefKey :=
  if m.state = .active then m.subject.map (fun s => ⟨m.scope,m.project,s⟩) else none

theorem beliefOf_eq_some {m : Memory} {k : BeliefKey} :
    beliefOf m = some k ↔
      m.state = .active ∧ m.scope = k.scope ∧ m.project = k.project ∧ m.subject = some k.subject := by
  rcases k with ⟨scope,project,subject⟩
  unfold beliefOf
  by_cases active : m.state = .active
  · cases keyed : m.subject with
    | none => simp [active]
    | some s => simp [active,BeliefKey.mk.injEq,and_comm]
  · simp [active]

/-- At most one active row for each scope, project and subject. -/
def OneBelief (t : MemoryTable) : Prop :=
  ∀ a ∈ t.rows, ∀ b ∈ t.rows, ∀ k, beliefOf a.memory = some k → beliefOf b.memory = some k → a = b

theorem OneBelief.listing {t : MemoryTable} (one : OneBelief t) {a b : Uuid} {k : BeliefKey}
    (first : (a,some k) ∈ t.rows.map (fun row => (row.id,beliefOf row.memory)))
    (second : (b,some k) ∈ t.rows.map (fun row => (row.id,beliefOf row.memory))) : a = b := by
  obtain ⟨r,insideR,equalR⟩ := List.mem_map.mp first
  obtain ⟨s,insideS,equalS⟩ := List.mem_map.mp second
  rw [Prod.mk.injEq] at equalR equalS
  rw [← equalR.1,← equalS.1,one r insideR s insideS k equalR.2 equalS.2]

/-- A change-set that can be written to the table without splitting a belief. -/
structure Settled (t : MemoryTable) (rows : List MemoryRow) : Prop where
  single : ∀ v ∈ rows, ∀ w ∈ rows, ∀ k, beliefOf v.memory = some k → beliefOf w.memory = some k → v.id = w.id
  covers : ∀ w ∈ rows, ∀ r ∈ t.rows, ∀ k, beliefOf w.memory = some k → beliefOf r.memory = some k →
    ∃ x ∈ rows, x.id = r.id

theorem Settled.of_closed {t : MemoryTable} {rows : List MemoryRow}
    (closed : ∀ row ∈ rows, beliefOf row.memory = none) : Settled t rows where
  single := by
    intro v inside w _ k believed
    simp [closed v inside] at believed
  covers := by
    intro w inside r _ k believed
    simp [closed w inside] at believed

theorem Settled.of_last {t : MemoryTable} {closed : List MemoryRow} {last : MemoryRow}
    (silent : ∀ row ∈ closed, beliefOf row.memory = none)
    (covers : ∀ r ∈ t.rows, ∀ k, beliefOf last.memory = some k → beliefOf r.memory = some k →
      ∃ x ∈ closed ++ [last], x.id = r.id) : Settled t (closed ++ [last]) := by
  have believer (row : MemoryRow) (inside : row ∈ closed ++ [last]) (k : BeliefKey)
      (believed : beliefOf row.memory = some k) : row = last := by
    rcases List.mem_append.mp inside with inside | inside
    · simp [silent row inside] at believed
    · exact List.mem_singleton.mp inside
  refine ⟨?_,?_⟩
  · intro v inV w inW k believedV believedW
    rw [believer v inV k believedV,believer w inW k believedW]
  · intro w inW r member k believed held
    rw [believer w inW k believed] at believed
    exact covers r member k believed held

theorem Settled.singleton {t : MemoryTable} {row : MemoryRow}
    (covers : ∀ r ∈ t.rows, ∀ k, beliefOf row.memory = some k → beliefOf r.memory = some k → row.id = r.id) :
    Settled t [row] :=
  Settled.of_last (List.forall_mem_nil _)
    (fun r member k believed held => ⟨row,List.mem_singleton_self row,covers r member k believed held⟩)

theorem Settled.append {t : MemoryTable} {first second : List MemoryRow} (settled : Settled t first)
    (next : Settled t second)
    (apart : ∀ v ∈ first, ∀ w ∈ second, ∀ k, beliefOf v.memory = some k → beliefOf w.memory ≠ some k) :
    Settled t (first ++ second) where
  single := by
    intro v inV w inW k believedV believedW
    rcases List.mem_append.mp inV with inV | inV <;> rcases List.mem_append.mp inW with inW | inW
    · exact settled.single v inV w inW k believedV believedW
    · exact absurd believedW (apart v inV w inW k believedV)
    · exact absurd believedV (apart w inW v inV k believedW)
    · exact next.single v inV w inW k believedV believedW
  covers := by
    intro w inW r member k believed held
    rcases List.mem_append.mp inW with inW | inW
    · obtain ⟨x,inside,same⟩ := settled.covers w inW r member k believed held
      exact ⟨x,List.mem_append_left second inside,same⟩
    · obtain ⟨x,inside,same⟩ := next.covers w inW r member k believed held
      exact ⟨x,List.mem_append_right first inside,same⟩

theorem OneBelief.upsertRows {t : MemoryTable} {rows : List MemoryRow} (one : OneBelief t)
    (settled : Settled t rows) : OneBelief (t.upsertRows rows) := by
  intro a memberA b memberB k believedA believedB
  apply (t.upsertRows rows).eq_of_key memberA memberB
  -- an active row of the new table is written by the change-set or untouched by it
  rcases MemoryTable.mem_upsertRows memberA with ⟨v,inV,rfl⟩ | ⟨oldA,apartA⟩ <;>
    rcases MemoryTable.mem_upsertRows memberB with ⟨w,inW,rfl⟩ | ⟨oldB,apartB⟩
  · exact settled.single v inV w inW k believedA believedB
  · obtain ⟨x,inside,same⟩ := settled.covers v inV b oldB k believedA believedB
    exact absurd same (apartB x inside)
  · obtain ⟨x,inside,same⟩ := settled.covers w inW a oldA k believedB believedA
    exact absurd same (apartA x inside)
  · exact congrArg MemoryRow.id (one a oldA b oldB k believedA believedB)

theorem OneBelief.delete {t : MemoryTable} (one : OneBelief t) (p : MemoryRow → Bool) :
    OneBelief (t.delete p) := by
  intro a memberA b memberB
  exact one a ((Table.mem_delete t p a).mp memberA).1 b ((Table.mem_delete t p b).mp memberB).1

theorem OneBelief.expire {t : MemoryTable} (one : OneBelief t) (id : Uuid) (now : Int) :
    OneBelief (t.expire id now) := by
  intro a memberA b memberB k believedA believedB
  obtain ⟨old,inside,rfl⟩ := (Table.mem_update _ _ _ _ _).mp memberA
  obtain ⟨other,beside,rfl⟩ := (Table.mem_update _ _ _ _ _).mp memberB
  have active (r : MemoryRow) (p : Prop) [Decidable p] (now : Int)
      (believed : beliefOf (if p then { r with memory := { r.memory with
        state := .expired, validTo := some (micros now), updatedAt := micros now } } else r).memory = some k) :
      ¬p ∧ beliefOf r.memory = some k := by
    by_cases chosen : p
    · simp [chosen,beliefOf] at believed
    · exact ⟨chosen,by simpa [chosen] using believed⟩
  obtain ⟨keptA,believedA⟩ := active old _ now believedA
  obtain ⟨keptB,believedB⟩ := active other _ now believedB
  rw [if_neg keptA,if_neg keptB]
  exact one old inside other beside k believedA believedB

section
variable (env : Env)

/-- The belief an input is going to write, read off the input and the store before it. -/
def writtenBelief (e : Engine) (d : Draw) (input : MemoryInput) : Option BeliefKey :=
  let input := canonicalInput env input
  match input.subject with
  | some subject => some ⟨input.scope,input.project,subject⟩
  | none =>
    match mergeTarget e d input.scope (e.embedMemoryContent d) with
    | .ok (some top) => top.subject.map (fun s => ⟨input.scope,input.project.or top.project,s⟩)
    | _ => none

/-- A subject-less input that merges takes a belief no row but the merged one holds. -/
def MergeClear (e : Engine) (d : Draw) (input : MemoryInput) : Prop :=
  (canonicalInput env input).subject = none → ∀ top,
    mergeTarget e d (canonicalInput env input).scope (e.embedMemoryContent d) = .ok (some top) →
      ∀ k, writtenBelief env e d input = some k →
        ∀ row ∈ e.memories.rows, beliefOf row.memory = some k → row.id = top.id

private theorem beliefOf_closeRow (validAt recordedAt : Int) (m : Memory) :
    beliefOf (closeRow validAt recordedAt m).memory = none := by
  simp [closeRow,beliefOf]

private theorem held_found {e : Engine} {input : MemoryInput} {subject : String} {r : MemoryRow}
    {k : BeliefKey} (member : r ∈ e.memories.rows) (held : beliefOf r.memory = some k)
    (scope : (canonicalInput env input).scope = k.scope) (project : input.project = k.project)
    (keyed : subject = k.subject) :
    r.memory ∈ e.memories.findActiveBySubject (canonicalInput env input).scope subject input.project := by
  obtain ⟨active,inScope,grouped,about⟩ := beliefOf_eq_some.mp held
  refine MemoryTable.mem_findActiveBySubject.mpr ⟨r,member,rfl,?_,?_,?_,active⟩
  · rw [inScope,← scope]
    simp [canonicalInput]
  · rw [about,keyed]
  · rw [grouped,project]

private theorem found_belief {e : Engine} {input : MemoryInput} {subject : String} {m : Memory}
    (found : m ∈ e.memories.findActiveBySubject (canonicalInput env input).scope subject input.project) :
    (∃ row ∈ e.memories.rows, row.memory = m) ∧
      beliefOf m = some ⟨(canonicalInput env input).scope,input.project,subject⟩ := by
  obtain ⟨row,member,equal,inScope,about,grouped,active⟩ := MemoryTable.mem_findActiveBySubject.mp found
  exact ⟨⟨row,member,equal⟩,beliefOf_eq_some.mpr ⟨active,by simpa [canonicalInput] using inScope,grouped,about⟩⟩

theorem writtenBelief_keyed {e : Engine} {d : Draw} {input : MemoryInput} {subject : String}
    (keyed : (canonicalInput env input).subject = some subject) :
    writtenBelief env e d input = some ⟨(canonicalInput env input).scope,input.project,subject⟩ := by
  simp only [writtenBelief,keyed]
  rfl

private theorem writtenBelief_merged {e : Engine} {d : Draw} {input : MemoryInput} {top : Memory}
    (unkeyed : (canonicalInput env input).subject = none)
    (hit : mergeTarget e d (canonicalInput env input).scope (e.embedMemoryContent d) = .ok (some top)) :
    writtenBelief env e d input =
      top.subject.map (fun s => ⟨(canonicalInput env input).scope,input.project.or top.project,s⟩) := by
  simp only [writtenBelief,unkeyed,hit]
  rfl

theorem memoryPlan_settled {e : Engine} {d : Draw} {input : MemoryInput} {planned : Planned}
    (review : e.config.cognition.contradictionReview = false) (one : OneBelief e.memories)
    (clear : MergeClear env e d input) (ok : memoryPlan env e d input = .ok planned) :
    Settled e.memories planned.rows ∧
      ∀ w ∈ planned.rows, ∀ k, beliefOf w.memory = some k → writtenBelief env e d input = some k := by
  obtain ⟨_,plan⟩ := memoryPlanWithEmbedding_cases env ok
  cases plan with
  | confirmed subject existing others keyed found same =>
    obtain ⟨⟨row,member,rfl⟩,believed⟩ := found_belief env (found ▸ List.mem_cons_self)
    refine ⟨Settled.singleton ?_,?_⟩
    · intro r inside k written held
      have same : row = r := one row member r inside k written held
      rw [← same]
      rfl
    · intro w inside k written
      cases List.mem_singleton.mp inside
      rw [writtenBelief_keyed env keyed,← believed]
      exact written
  | conflict subject existing others keyed found on => simp [review] at on
  | superseded subject existing others keyed found differs =>
    have silent : ∀ row ∈ (existing :: others).map (closeRow (validBoundary input.validFrom
        ((existing :: others).map Memory.validFrom).max? d.recordedAt) d.recordedAt),
        beliefOf row.memory = none := by
      intro row inside
      obtain ⟨m,_,rfl⟩ := List.mem_map.mp inside
      exact beliefOf_closeRow _ _ m
    refine ⟨Settled.of_last silent ?_,?_⟩
    · intro r inside k written held
      obtain ⟨_,inScope,grouped,about⟩ := beliefOf_eq_some.mp written
      have again := held_found env inside held inScope grouped (Option.some.inj about)
      rw [found] at again
      exact ⟨_,List.mem_append_left _ (List.mem_map_of_mem again),rfl⟩
    · intro w inside k written
      rcases List.mem_append.mp inside with inside | inside
      · simp [silent w inside] at written
      · cases List.mem_singleton.mp inside
        rw [writtenBelief_keyed env keyed,← written]
        rfl
  | merged top unkeyed hit =>
    have writes : ∀ k, beliefOf (planMerged d (canonicalInput env input) (importanceOf e input)
        (e.embedMemoryContent d) top).add.memory = some k → writtenBelief env e d input = some k := by
      intro k written
      rw [writtenBelief_merged env unkeyed hit,← written]
      rfl
    refine ⟨@Settled.of_last _ [_] _ ?_ ?_,?_⟩
    · intro row inside
      cases List.mem_singleton.mp inside
      exact beliefOf_closeRow _ _ top
    · intro r inside k written held
      have same := clear unkeyed top hit k (writes k written) r inside held
      exact ⟨_,List.mem_append_left _ (List.mem_singleton_self _),same.symm⟩
    · intro w inside k written
      rcases List.mem_cons.mp inside with rfl | inside
      · rw [beliefOf_closeRow] at written
        cases written
      · cases List.mem_singleton.mp inside
        exact writes k written
  | inserted absent missed =>
    refine ⟨Settled.singleton ?_,?_⟩
    · intro r inside k written held
      obtain ⟨_,inScope,grouped,about⟩ := beliefOf_eq_some.mp written
      have again := held_found env inside held inScope grouped rfl
      rw [absent k.subject about] at again
      cases again
    · intro w inside k written
      cases List.mem_singleton.mp inside
      obtain ⟨_,inScope,grouped,about⟩ := beliefOf_eq_some.mp written
      rw [writtenBelief_keyed env about]
      rcases k with ⟨scope,project,subject⟩
      cases inScope
      cases grouped
      rfl

end

end Ecphoria
