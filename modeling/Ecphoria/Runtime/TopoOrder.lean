import Ecphoria.Library.Vectors
import Mathlib.Data.Fintype.Card
import Mathlib.Data.List.FinRange
import Mathlib.Data.List.Sort
import Mathlib.Logic.Relation
import Mathlib.Order.WellFounded

/-! The order in which the nodes of a workflow run, by Kahn's algorithm. A node is
queued when the last of its dependencies has been put in the order. -/
namespace Ecphoria

open Library.Vectors

structure WorkflowNode where
  id : String
  agentId : String
  question : String
  deps : List String

section
variable (nodes : List WorkflowNode)

/-- The map from an id to a node's place, in which the last node of an id is kept. -/
def nodeIndex (d : String) : Option (Fin nodes.length) :=
  (List.finRange nodes.length).reverse.find? (fun i => (nodes.get i).id = d)

end

/-- For each node the nodes that wait for it, and how many dependencies it waits for. -/
structure Waits (n : Nat) where
  adj : Vector (List (Fin n)) n
  indeg : Vector Nat n

variable {n : Nat}

def Waits.empty (n : Nat) : Waits n := ⟨Vector.replicate n [],Vector.replicate n 0⟩

/-- `adj[j].push(i); indeg[i] += 1`. -/
def Waits.add (waits : Waits n) (i j : Fin n) : Waits n :=
  ⟨replaceAt waits.adj j (waits.adj.get j ++ [i]),addAt waits.indeg i 1⟩

/-- The loop over the dependencies of one node, which an unknown one ends. -/
def waitFor {n : Nat} (index : String → Option (Fin n)) (i : Fin n) (waits : Waits n) (deps : List String) :
    Option (Waits n) :=
  deps.foldlM (fun waits d => do
    let j ← index d
    pure (waits.add i j)) waits

def buildWaits (nodes : List WorkflowNode) : Option (Waits nodes.length) :=
  (List.finRange nodes.length).foldlM (fun waits i => waitFor (nodeIndex nodes) i waits (nodes.get i).deps)
    (Waits.empty _)

/-- `indeg[k] -= 1`, which fails where it would underflow, and `newly.push(k)` at zero. -/
def release (state : Vector Nat n × List (Fin n)) (k : Fin n) : Option (Vector Nat n × List (Fin n)) :=
  if state.1.get k = 0 then none
  else
    let indeg := replaceAt state.1 k (state.1.get k - 1)
    some (indeg,if indeg.get k = 0 then state.2 ++ [k] else state.2)

/-- The loop over the queue, of which `queue` is what is left to read; no result where it makes no end. -/
def drain (adj : Vector (List (Fin n)) n) : Nat → Vector Nat n → List (Fin n) → List (Fin n) → Option (List (Fin n))
  | 0, _, _, _ => none
  | rounds + 1, indeg, queue, order =>
    match queue with
    | [] => some order
    | i :: queue => do
      let (indeg,newly) ← (adj.get i).foldlM release (indeg,[])
      drain adj rounds indeg (queue ++ newly.insertionSort (fun a b => a ≤ b)) (order ++ [i])

/-- The inner option is the answer; there is none at all where the subtraction underflows or the loop makes no end. -/
def topoOrder (nodes : List WorkflowNode) : Option (Option (List (Fin nodes.length))) :=
  match buildWaits nodes with
  | none => some none
  | some waits =>
    let queue := ((List.finRange nodes.length).filter (fun i => waits.indeg.get i = 0)).insertionSort (fun a b => a ≤ b)
    (drain waits.adj (nodes.length + 1) waits.indeg queue []).map
      (fun order => if order.length = nodes.length then some order else none)

def Denotes (nodes : List WorkflowNode) (d : String) (j : Fin nodes.length) : Prop :=
  (nodes.get j).id = d ∧ ∀ k, j < k → (nodes.get k).id ≠ d

def DependsOn (nodes : List WorkflowNode) (i j : Fin nodes.length) : Prop :=
  ∃ d ∈ (nodes.get i).deps, Denotes nodes d j

private theorem pairwise_reverse_finRange (n : Nat) : (List.finRange n).reverse.Pairwise (fun a b => b < a) :=
  List.pairwise_reverse.mpr (List.pairwise_lt_finRange n)

theorem nodeIndex_eq_some (nodes : List WorkflowNode) (d : String) (j : Fin nodes.length) :
    nodeIndex nodes d = some j ↔ Denotes nodes d j := by
  unfold nodeIndex Denotes
  rw [List.find?_eq_some_iff_append]
  simp only [decide_eq_true_eq,Bool.not_eq_eq_eq_not,Bool.not_true,decide_eq_false_iff_not]
  refine and_congr_right (fun _ => ⟨?_,?_⟩)
  · rintro ⟨before,after,split,others⟩ k later
    have listed : k ∈ before ++ j :: after := split ▸ List.mem_reverse.mpr (List.mem_finRange k)
    have ordered := split ▸ pairwise_reverse_finRange nodes.length
    rcases List.mem_append.mp listed with first | last
    · exact others k first
    · exfalso
      rcases List.mem_cons.mp last with rfl | last
      · exact lt_irrefl _ later
      · have earlier := (List.pairwise_cons.mp (List.pairwise_append.mp ordered).2.1).1 k last
        exact absurd later (not_lt.mpr earlier.le)
  · intro later
    obtain ⟨before,after,split⟩ := List.append_of_mem (List.mem_reverse.mpr (List.mem_finRange j))
    refine ⟨before,after,split,?_⟩
    intro k first
    have ordered := split ▸ pairwise_reverse_finRange nodes.length
    exact later k ((List.pairwise_append.mp ordered).2.2 k first j List.mem_cons_self)

theorem nodeIndex_eq_none (nodes : List WorkflowNode) (d : String) :
    nodeIndex nodes d = none ↔ ∀ node ∈ nodes, node.id ≠ d := by
  unfold nodeIndex
  rw [List.find?_eq_none]
  refine ⟨?_,?_⟩
  · intro unnamed node listed
    obtain ⟨i,rfl⟩ := List.get_of_mem listed
    simpa using unnamed i (List.mem_reverse.mpr (List.mem_finRange i))
  · intro unnamed i _
    simpa using unnamed _ (List.get_mem nodes i)

private theorem indeg_add (waits : Waits n) (i j k : Fin n) :
    (waits.add i j).indeg.get k = waits.indeg.get k + if i = k then 1 else 0 := get_addAt waits.indeg k i 1

private theorem adj_add (waits : Waits n) (i j m k : Fin n) :
    ((waits.add i j).adj.get m).count k = (waits.adj.get m).count k + if j = m then (if i = k then 1 else 0) else 0 := by
  by_cases here : j = m
  · subst here
    have pushed : (waits.add i j).adj.get j = waits.adj.get j ++ [i] := replaceAt_self _ _ _
    rw [pushed,List.count_append,if_pos rfl,List.count_singleton]
    simp only [beq_iff_eq]
  · have kept : (waits.add i j).adj.get m = waits.adj.get m := replaceAt_other _ _ here
    rw [kept,if_neg here,Nat.add_zero]

/-- What a list of dependencies of `i` adds, each at the place its name denotes. -/
structure Added (index : String → Option (Fin n)) (i : Fin n) (deps : List String) (waits built : Waits n) : Prop where
  indeg : ∀ k : Fin n, built.indeg.get k = waits.indeg.get k + if i = k then (deps.filterMap index).length else 0
  adj : ∀ j k : Fin n, (built.adj.get j).count k = (waits.adj.get j).count k + if i = k then (deps.filterMap index).count j else 0

private theorem waitFor_known (index : String → Option (Fin n)) (i : Fin n) (deps : List String) (waits : Waits n)
    (known : ∀ d ∈ deps, index d ≠ none) :
    ∃ built, waitFor index i waits deps = some built ∧ Added index i deps waits built := by
  induction deps generalizing waits with
  | nil => exact ⟨waits,rfl,by simp,by simp⟩
  | cons d deps ih =>
    obtain ⟨j,found⟩ := Option.ne_none_iff_exists'.mp (known d List.mem_cons_self)
    obtain ⟨built,run,added⟩ := ih (waits.add i j) (fun other inside => known other (List.mem_cons_of_mem _ inside))
    refine ⟨built,?_,?_,?_⟩
    · rw [waitFor,List.foldlM_cons,found]
      exact run
    · intro k
      rw [added.indeg k,indeg_add,List.filterMap_cons_some found,List.length_cons]
      split <;> omega
    · intro m k
      rw [added.adj m k,adj_add,List.filterMap_cons_some found,List.count_cons]
      simp only [beq_iff_eq]
      split <;> split <;> omega

private theorem waitFor_unknown (index : String → Option (Fin n)) (i : Fin n) (deps : List String) (waits : Waits n)
    (unknown : ∃ d ∈ deps, index d = none) : waitFor index i waits deps = none := by
  induction deps generalizing waits with
  | nil => exact absurd unknown (by simp)
  | cons d deps ih =>
    rw [waitFor,List.foldlM_cons]
    cases found : index d with
    | none => rfl
    | some j =>
      obtain ⟨other,listed,missing⟩ := unknown
      rcases List.mem_cons.mp listed with rfl | later
      · exact absurd (found.symm.trans missing) (Option.some_ne_none _)
      · exact ih (waits.add i j) ⟨other,later,missing⟩

/-- The places that the dependencies of a node denote, repeated where the names are. -/
def depPlaces (nodes : List WorkflowNode) (i : Fin nodes.length) : List (Fin nodes.length) :=
  (nodes.get i).deps.filterMap (nodeIndex nodes)

theorem mem_depPlaces (nodes : List WorkflowNode) (i j : Fin nodes.length) :
    j ∈ depPlaces nodes i ↔ DependsOn nodes i j := by
  rw [depPlaces,List.mem_filterMap]
  exact exists_congr (fun d => and_congr_right (fun _ => nodeIndex_eq_some nodes d j))

/-- Every waiting node counts its dependencies, and is listed by each as often as it names it. -/
structure Counted (nodes : List WorkflowNode) (waits : Waits nodes.length) : Prop where
  indeg : ∀ k : Fin nodes.length, waits.indeg.get k = (depPlaces nodes k).length
  adj : ∀ j k : Fin nodes.length, (waits.adj.get j).count k = (depPlaces nodes k).count j

def Known (nodes : List WorkflowNode) : Prop := ∀ node ∈ nodes, ∀ d ∈ node.deps, ∃ other ∈ nodes, other.id = d

private theorem known_index {nodes : List WorkflowNode} (known : Known nodes) (i : Fin nodes.length) :
    ∀ d ∈ (nodes.get i).deps, nodeIndex nodes d ≠ none := by
  intro d listed missing
  obtain ⟨other,inside,named⟩ := known _ (List.get_mem nodes i) d listed
  exact (nodeIndex_eq_none nodes d).mp missing other inside named

theorem buildWaits_known {nodes : List WorkflowNode} (known : Known nodes) :
    ∃ waits, buildWaits nodes = some waits ∧ Counted nodes waits := by
  have all (places : List (Fin nodes.length)) (waits : Waits nodes.length) :
      ∃ built, places.foldlM (fun waits i => waitFor (nodeIndex nodes) i waits (nodes.get i).deps) waits = some built ∧
        (∀ k : Fin nodes.length, built.indeg.get k = waits.indeg.get k + places.count k * (depPlaces nodes k).length) ∧
        ∀ j k : Fin nodes.length,
          (built.adj.get j).count k = (waits.adj.get j).count k + places.count k * (depPlaces nodes k).count j := by
    induction places generalizing waits with
    | nil => exact ⟨waits,rfl,by simp,by simp⟩
    | cons i places ih =>
      obtain ⟨middle,step,added⟩ := waitFor_known (nodeIndex nodes) i (nodes.get i).deps waits (known_index known i)
      obtain ⟨built,run,indeg,adj⟩ := ih middle
      refine ⟨built,?_,?_,?_⟩
      · rw [List.foldlM_cons,step]
        exact run
      · intro k
        rw [indeg k,added.indeg k,List.count_cons]
        by_cases here : i = k
        · subst here
          simp only [beq_self_eq_true,if_pos,depPlaces,Nat.add_mul,Nat.one_mul]
          omega
        · rw [if_neg here,if_neg (by simpa using here),Nat.add_zero,Nat.add_zero]
      · intro j k
        rw [adj j k,added.adj j k,List.count_cons]
        by_cases here : i = k
        · subst here
          simp only [beq_self_eq_true,if_pos,depPlaces,Nat.add_mul,Nat.one_mul]
          omega
        · rw [if_neg here,if_neg (by simpa using here),Nat.add_zero,Nat.add_zero]
  obtain ⟨waits,run,indeg,adj⟩ := all (List.finRange nodes.length) (Waits.empty _)
  have once (k : Fin nodes.length) : (List.finRange nodes.length).count k = 1 :=
    List.count_eq_one_of_mem (List.nodup_finRange _) (List.mem_finRange k)
  refine ⟨waits,run,?_,?_⟩
  · intro k
    rw [indeg k,once k]
    simp [Waits.empty]
  · intro j k
    rw [adj j k,once k]
    simp [Waits.empty]

theorem buildWaits_unknown {nodes : List WorkflowNode} (unknown : ¬Known nodes) : buildWaits nodes = none := by
  have named : ∃ i : Fin nodes.length, ∃ d ∈ (nodes.get i).deps, nodeIndex nodes d = none := by
    by_contra all_named
    apply unknown
    intro node inside d listed
    obtain ⟨i,rfl⟩ := List.get_of_mem inside
    by_contra nobody
    exact all_named ⟨i,d,listed,(nodeIndex_eq_none nodes d).mpr
      (fun other there same => nobody ⟨other,there,same⟩)⟩
  obtain ⟨i,d,listed,missing⟩ := named
  have all (places : List (Fin nodes.length)) (inside : i ∈ places) (waits : Waits nodes.length) :
      places.foldlM (fun waits i => waitFor (nodeIndex nodes) i waits (nodes.get i).deps) waits = none := by
    induction places generalizing waits with
    | nil => exact absurd inside List.not_mem_nil
    | cons first places ih =>
      rw [List.foldlM_cons]
      rcases List.mem_cons.mp inside with rfl | later
      · rw [waitFor_unknown (nodeIndex nodes) i _ waits ⟨d,listed,missing⟩]
        rfl
      · cases waitFor (nodeIndex nodes) first waits (nodes.get first).deps with
        | none => rfl
        | some middle => exact ih later middle
  exact all _ (List.mem_finRange i) _

/-- The loop over the nodes that wait for one: what each waits for falls by as often as it is listed, and those that
come to zero are new, each once. -/
private theorem release_all (ks : List (Fin n)) (indeg : Vector Nat n) (newly : List (Fin n))
    (enough : ∀ k : Fin n, ks.count k ≤ indeg.get k) :
    ∃ (last : Vector Nat n) (more : List (Fin n)), ks.foldlM release (indeg,newly) = some (last,newly ++ more) ∧
      (∀ k : Fin n, last.get k = indeg.get k - ks.count k) ∧ more.Nodup ∧ ∀ k, k ∈ more ↔ k ∈ ks ∧ last.get k = 0 := by
  induction ks generalizing indeg newly with
  | nil => exact ⟨indeg,[],by simp,by simp,List.nodup_nil,by simp⟩
  | cons i ks ih =>
    have positive : indeg.get i ≠ 0 := by
      have more := enough i
      rw [List.count_cons_self] at more
      omega
    have lowered (k : Fin n) : (replaceAt indeg i (indeg.get i - 1)).get k = indeg.get k - if i = k then 1 else 0 := by
      by_cases here : i = k
      · subst here
        rw [replaceAt_self,if_pos rfl]
      · rw [replaceAt_other _ _ here,if_neg here,Nat.sub_zero]
    have still (k : Fin n) : ks.count k ≤ (replaceAt indeg i (indeg.get i - 1)).get k := by
      have more := enough k
      rw [List.count_cons] at more
      simp only [beq_iff_eq] at more
      rw [lowered k]
      omega
    obtain ⟨last,more,run,counted,distinct,new⟩ := ih (replaceAt indeg i (indeg.get i - 1))
      (if (replaceAt indeg i (indeg.get i - 1)).get i = 0 then newly ++ [i] else newly) still
    have step : release (indeg,newly) i = some (replaceAt indeg i (indeg.get i - 1),
        if (replaceAt indeg i (indeg.get i - 1)).get i = 0 then newly ++ [i] else newly) := by
      rw [release,if_neg positive]
    have total (k : Fin n) : last.get k = indeg.get k - (i :: ks).count k := by
      rw [counted k,lowered k,List.count_cons]
      simp only [beq_iff_eq]
      omega
    by_cases zero : (replaceAt indeg i (indeg.get i - 1)).get i = 0
    · have gone : i ∉ ks := by
        have none_left := still i
        rw [zero] at none_left
        exact List.count_eq_zero.mp (Nat.le_zero.mp none_left)
      have at_zero : last.get i = 0 := by
        rw [counted i,zero]
        exact Nat.zero_sub _
      refine ⟨last,i :: more,?_,total,?_,?_⟩
      · rw [if_pos zero] at run step
        rw [List.foldlM_cons,step]
        simpa using run
      · exact List.nodup_cons.mpr ⟨fun listed => gone ((new i).mp listed).1,distinct⟩
      · intro k
        rw [List.mem_cons,List.mem_cons,new k]
        refine ⟨?_,?_⟩
        · rintro (rfl | ⟨listed,here⟩)
          · exact ⟨Or.inl rfl,at_zero⟩
          · exact ⟨Or.inr listed,here⟩
        · rintro ⟨rfl | listed,here⟩
          · exact Or.inl rfl
          · exact Or.inr ⟨listed,here⟩
    · rw [if_neg zero] at run step
      refine ⟨last,more,?_,total,distinct,?_⟩
      · rw [List.foldlM_cons,step]
        exact run
      · intro k
        rw [new k,List.mem_cons]
        refine ⟨fun ⟨listed,here⟩ => ⟨Or.inr listed,here⟩,?_⟩
        rintro ⟨rfl | listed,here⟩
        · -- a count that stays above zero can only come to zero by being listed again
          refine ⟨?_,here⟩
          by_contra absent
          rw [counted k,List.count_eq_zero_of_not_mem absent] at here
          exact zero here
        · exact ⟨listed,here⟩

/-- The order and the queue while the loop runs: each node waits for its dependencies that are not in the order, it
is queued when there are none, and what is in the order comes after all its dependencies. -/
structure Sorting (nodes : List WorkflowNode) (indeg : Vector Nat nodes.length)
    (queue order : List (Fin nodes.length)) : Prop where
  distinct : (order ++ queue).Nodup
  counted : ∀ k : Fin nodes.length, indeg.get k = ((depPlaces nodes k).filter (fun d => d ∉ order)).length
  queued : ∀ k, k ∈ order ++ queue ↔ indeg.get k = 0
  after : ∀ front i back, order = front ++ i :: back → ∀ d ∈ depPlaces nodes i, d ∈ front

private theorem filter_snoc {ds order : List (Fin n)} {i : Fin n} (fresh : i ∉ order) :
    (ds.filter (fun d => d ∉ order ++ [i])).length + ds.count i = (ds.filter (fun d => d ∉ order)).length := by
  induction ds with
  | nil => rfl
  | cons d ds ih =>
    rw [List.filter_cons,List.filter_cons,List.count_cons]
    by_cases here : d = i
    · subst here
      simp only [List.mem_append,List.mem_singleton,or_true,not_true,decide_false,fresh,not_false_eq_true,decide_true,
        if_true,beq_self_eq_true,List.length_cons]
      simp only [List.mem_append,List.mem_singleton] at ih
      simp only [Bool.false_eq_true,if_false]
      omega
    · have same : (d ∉ order ++ [i]) ↔ d ∉ order := by simp [here]
      simp only [same,beq_iff_eq,here,if_false,Nat.add_zero]
      split
      · simp only [List.length_cons]
        omega
      · exact ih

private theorem sorting_step {nodes : List WorkflowNode} {waits : Waits nodes.length} (waiting : Counted nodes waits)
    {indeg : Vector Nat nodes.length} {i : Fin nodes.length} {queue order : List (Fin nodes.length)}
    (sorting : Sorting nodes indeg (i :: queue) order) :
    ∃ (last : Vector Nat nodes.length) (more : List (Fin nodes.length)),
      (waits.adj.get i).foldlM release (indeg,[]) = some (last,more) ∧
      Sorting nodes last (queue ++ more.insertionSort (fun a b => a ≤ b)) (order ++ [i]) := by
  have fresh : i ∉ order := by
    intro inside
    exact (List.nodup_append.mp sorting.distinct).2.2 i inside i List.mem_cons_self rfl
  have falls (k : Fin nodes.length) : ((depPlaces nodes k).filter (fun d => d ∉ order ++ [i])).length +
      (waits.adj.get i).count k = indeg.get k := by
    rw [waiting.adj i k,sorting.counted k]
    exact filter_snoc fresh
  obtain ⟨last,more,run,counted,distinct,new⟩ := release_all (waits.adj.get i) indeg [] (fun k => by
    have sum := falls k
    omega)
  have left (k : Fin nodes.length) : last.get k = ((depPlaces nodes k).filter (fun d => d ∉ order ++ [i])).length := by
    have sum := falls k
    rw [counted k]
    omega
  have members (k : Fin nodes.length) : k ∈ more.insertionSort (fun a b => a ≤ b) ↔ k ∈ more :=
    (List.perm_insertionSort _ _).mem_iff
  have shifted (rest : List (Fin nodes.length)) : order ++ [i] ++ (queue ++ rest) = (order ++ i :: queue) ++ rest := by simp
  have same_zero (k : Fin nodes.length) : k ∈ order ++ i :: queue → last.get k = 0 := by
    intro inside
    have zero := (sorting.queued k).mp inside
    rw [counted k,zero]
    exact Nat.zero_sub _
  refine ⟨last,more,run,?_,left,?_,?_⟩
  · rw [shifted]
    refine sorting.distinct.append ((List.perm_insertionSort _ _).nodup_iff.mpr distinct) ?_
    intro k old fresh_k
    have listed := (new k).mp ((members k).mp fresh_k)
    -- what was at zero before can have been listed no more
    have zero := (sorting.queued k).mp old
    have sum := falls k
    rw [zero] at sum
    exact List.count_eq_zero.mp (Nat.eq_zero_of_add_eq_zero_left sum) listed.1
  · intro k
    rw [shifted,List.mem_append,members k,new k]
    refine ⟨?_,?_⟩
    · rintro (old | ⟨_,zero⟩)
      · exact same_zero k old
      · exact zero
    · intro zero
      by_cases listed : k ∈ waits.adj.get i
      · exact Or.inr ⟨listed,zero⟩
      · left
        rw [sorting.queued k]
        rw [counted k,List.count_eq_zero_of_not_mem listed] at zero
        exact zero
  · intro front j back split d dep
    rcases List.eq_nil_or_concat back with rfl | ⟨rest,z,rfl⟩
    · obtain ⟨rfl,same⟩ := List.append_inj' split rfl
      obtain rfl : i = j := by simpa using same
      have zero := (sorting.queued i).mp (List.mem_append_right _ List.mem_cons_self)
      rw [sorting.counted i,List.length_eq_zero_iff,List.filter_eq_nil_iff] at zero
      by_contra outside
      exact zero d dep (decide_eq_true outside)
    · rw [List.concat_eq_append,← List.cons_append,← List.append_assoc] at split
      obtain ⟨same,_⟩ := List.append_inj' split rfl
      exact sorting.after front j rest same d dep

theorem drain_sorted {nodes : List WorkflowNode} {waits : Waits nodes.length} (waiting : Counted nodes waits)
    (rounds : Nat) {indeg : Vector Nat nodes.length} {queue order : List (Fin nodes.length)}
    (sorting : Sorting nodes indeg queue order) (enough : nodes.length < rounds + order.length) :
    ∃ last sorted, drain waits.adj rounds indeg queue order = some sorted ∧ Sorting nodes last [] sorted := by
  induction rounds generalizing indeg queue order with
  | zero =>
    have few := sorting.distinct.length_le_card
    rw [List.length_append,Fintype.card_fin] at few
    omega
  | succ rounds ih =>
    cases queue with
    | nil => exact ⟨indeg,order,rfl,sorting⟩
    | cons i queue =>
      obtain ⟨last,more,step,kept⟩ := sorting_step waiting sorting
      obtain ⟨final,sorted,run,done⟩ := ih kept (by simp only [List.length_append,List.length_singleton]; omega)
      refine ⟨final,sorted,?_,done⟩
      rw [drain,step]
      exact run

private theorem sorting_start {nodes : List WorkflowNode} {waits : Waits nodes.length} (waiting : Counted nodes waits) :
    Sorting nodes waits.indeg (((List.finRange nodes.length).filter (fun i => waits.indeg.get i = 0)).insertionSort
      (fun a b => a ≤ b)) [] := by
  have perm := List.perm_insertionSort (fun a b : Fin nodes.length => a ≤ b)
    ((List.finRange nodes.length).filter (fun i => waits.indeg.get i = 0))
  refine ⟨?_,?_,?_,?_⟩
  · rw [List.nil_append,perm.nodup_iff]
    exact (List.nodup_finRange _).filter _
  · intro k
    simp [waiting.indeg k]
  · intro k
    rw [List.nil_append,perm.mem_iff]
    simp
  · intro front i back split
    simp at split

/-- In an order that puts every node after its dependencies, a node is after all it depends on by any way. -/
private theorem before_of_path {nodes : List WorkflowNode} {order : List (Fin nodes.length)}
    (after : ∀ front i back, order = front ++ i :: back → ∀ d ∈ depPlaces nodes i, d ∈ front)
    {i d : Fin nodes.length} (path : Relation.TransGen (DependsOn nodes) i d) :
    ∀ front back, order = front ++ i :: back → d ∈ front := by
  induction path using Relation.TransGen.head_induction_on with
  | single step =>
    intro front back split
    exact after front _ back split _ ((mem_depPlaces nodes _ _).mpr step)
  | head step _ ih =>
    intro front back split
    have near := after front _ back split _ ((mem_depPlaces nodes _ _).mpr step)
    obtain ⟨first,rest,rfl⟩ := List.append_of_mem near
    rw [List.append_assoc,List.cons_append] at split
    exact List.mem_append_left _ (ih first _ split)

private theorem complete_of_acyclic {nodes : List WorkflowNode} {indeg : Vector Nat nodes.length}
    {order : List (Fin nodes.length)} (sorting : Sorting nodes indeg [] order)
    (acyclic : ∀ i, ¬Relation.TransGen (DependsOn nodes) i i) (i : Fin nodes.length) : i ∈ order := by
  have trans : IsTrans (Fin nodes.length) (fun d i => Relation.TransGen (DependsOn nodes) i d) :=
    ⟨fun _ _ _ first second => second.trans first⟩
  have irrefl : Std.Irrefl (fun d i : Fin nodes.length => Relation.TransGen (DependsOn nodes) i d) := ⟨acyclic⟩
  have founded : WellFounded (fun d i : Fin nodes.length => Relation.TransGen (DependsOn nodes) i d) :=
    Finite.wellFounded_of_trans_of_irrefl _
  induction i using founded.induction with
  | _ i ih =>
    have settled : indeg.get i = 0 := by
      rw [sorting.counted i,List.length_eq_zero_iff,List.filter_eq_nil_iff]
      intro d dep outside
      exact of_decide_eq_true outside (ih d (.single ((mem_depPlaces nodes i d).mp dep)))
    have inside := (sorting.queued i).mpr settled
    rwa [List.append_nil] at inside

private theorem complete_iff {n : Nat} {order : List (Fin n)} (distinct : order.Nodup) :
    order.length = n ↔ order.Perm (List.finRange n) := by
  refine ⟨?_,fun all => by simpa using all.length_eq⟩
  intro complete
  apply (List.subperm_of_subset distinct (fun i _ => List.mem_finRange i)).perm_of_length_le
  rw [List.length_finRange,complete]

/-- No subtraction underflows and the loop ends; there is an order exactly where every dependency is known and nothing
depends on itself, and it lists each node once, after all its dependencies. -/
theorem topoOrder_sorts (nodes : List WorkflowNode) :
    ∃ answer, topoOrder nodes = some answer ∧
      (answer.isSome ↔ (∀ node ∈ nodes, ∀ d ∈ node.deps, ∃ other ∈ nodes, other.id = d) ∧
        ∀ i, ¬Relation.TransGen (DependsOn nodes) i i) ∧
      ∀ order, answer = some order → order.Perm (List.finRange nodes.length) ∧
        ∀ front i back, order = front ++ i :: back → ∀ j, DependsOn nodes i j → j ∈ front := by
  by_cases known : Known nodes
  · obtain ⟨waits,built,waiting⟩ := buildWaits_known known
    obtain ⟨last,order,run,sorting⟩ := drain_sorted waiting (nodes.length + 1) (sorting_start waiting) (by simp)
    have distinct : order.Nodup := by
      have both := sorting.distinct
      rwa [List.append_nil] at both
    have result : topoOrder nodes = some (if order.length = nodes.length then some order else none) := by
      rw [topoOrder,built]
      simp only [run,Option.map_some]
    refine ⟨_,result,?_,?_⟩
    · by_cases complete : order.length = nodes.length
      · rw [if_pos complete]
        refine iff_of_true rfl ⟨known,?_⟩
        intro i cycle
        have inside := ((complete_iff distinct).mp complete).mem_iff.mpr (List.mem_finRange i)
        obtain ⟨front,back,rfl⟩ := List.append_of_mem inside
        have again := before_of_path sorting.after cycle front back rfl
        exact (List.nodup_append.mp distinct).2.2 i again i List.mem_cons_self rfl
      · rw [if_neg complete]
        refine iff_of_false (by simp) ?_
        rintro ⟨_,acyclic⟩
        apply complete
        rw [complete_iff distinct,List.perm_ext_iff_of_nodup distinct (List.nodup_finRange _)]
        intro i
        exact iff_of_true (complete_of_acyclic sorting acyclic i) (List.mem_finRange i)
    · intro sorted same
      split at same
      next complete =>
        obtain rfl := Option.some.inj same
        refine ⟨(complete_iff distinct).mp complete,?_⟩
        intro front i back split j dep
        exact sorting.after front i back split j ((mem_depPlaces nodes i j).mpr dep)
      next => exact absurd same.symm (Option.some_ne_none _)
  · refine ⟨none,?_,?_,by simp⟩
    · rw [topoOrder,buildWaits_unknown known]
    · exact iff_of_false (by simp) (fun both => known both.1)

end Ecphoria
