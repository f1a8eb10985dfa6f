import Ecphoria.Graph.Nodes
import Ecphoria.Library.Vectors
import Mathlib.Algebra.Field.Rat
import Mathlib.Data.List.Sort
import Mathlib.Data.String.Basic
import Mathlib.Tactic.FieldSimp
import Mathlib.Tactic.Linarith
import Mathlib.Tactic.Positivity
import Mathlib.Tactic.Ring

/-! Degree centrality and PageRank over exact rationals. One round spreads the
base rank, the rank of the dangling nodes and the shares of the out-links. -/
namespace Ecphoria.Graph

open Library.Vectors
open scoped BigOperators

structure NodeCentrality where
  node : String
  inDegree : Nat
  outDegree : Nat
  pagerank : Rat
  deriving DecidableEq

structure Links (n : Nat) where
  inDeg : Vector Nat n
  outDeg : Vector Nat n
  outLinks : Vector (List (Fin n × Rat)) n
  outWeight : Vector Rat n

variable {n : Nat}

def Links.empty (n : Nat) : Links n :=
  ⟨Vector.replicate n 0,Vector.replicate n 0,Vector.replicate n [],Vector.replicate n 0⟩

/-- The body of the loop over the edges; a weight that is not positive counts as one. -/
def Links.add (links : Links n) (si di : Fin n) (weight : Rat) : Links n :=
  let w := if weight ≤ 0 then 1 else weight
  { inDeg := addAt links.inDeg di 1
    outDeg := addAt links.outDeg si 1
    outLinks := replaceAt links.outLinks si (links.outLinks.get si ++ [(di,w)])
    outWeight := addAt links.outWeight si w }

def buildLinks (edges : List (Edge Rat)) : Option (Links (nodes edges).length) :=
  edges.foldlM (fun links (s,d,w) => do
    let si ← idx (nodes edges) s
    let di ← idx (nodes edges) d
    pure (links.add si di w)) (Links.empty _)

def divide (a b : Rat) : Option Rat := if b = 0 then none else some (a / b)

def damping : Rat := 17 / 20

def iters : Nat := 40

/-- `next[*j] += share * w` along the out-links of one node. -/
def spread (links : List (Fin n × Rat)) (share : Rat) (next : Vector Rat n) : Vector Rat n :=
  links.foldl (fun next (j,w) => addAt next j (share * w)) next

def dangling (links : Links n) (pr : Vector Rat n) : Rat :=
  (List.finRange n).foldl (fun dangling i => if (links.outLinks.get i).isEmpty then dangling + pr.get i else dangling) 0

def iteration (links : Links n) (base : Rat) (pr : Vector Rat n) : Option (Vector Rat n) := do
  let danglingShare ← divide (damping * dangling links pr) n
  let next := (Vector.replicate n base).map (fun v => v + danglingShare)
  (List.finRange n).foldlM (fun next i =>
    if links.outWeight.get i ≤ (0 : Rat) then some next
    else do
      let share ← divide (damping * pr.get i) (links.outWeight.get i)
      pure (spread (links.outLinks.get i) share next)) next

def ranks (links : Links n) : Nat → Option (Vector Rat n)
  | 0 => do
    let start ← divide 1 n
    pure (Vector.replicate n start)
  | rounds + 1 => do
    let base ← divide (1 - damping) n
    let pr ← ranks links rounds
    iteration links base pr

def row (names : List String) (links : Links names.length) (pr : Vector Rat names.length) (i : Fin names.length) :
    NodeCentrality :=
  ⟨names.get i,links.inDeg.get i,links.outDeg.get i,pr.get i⟩

def rowOrder (a b : NodeCentrality) : Bool := b.pagerank < a.pagerank || (a.pagerank = b.pagerank && a.node ≤ b.node)

def sortRows (rows : List NodeCentrality) : List NodeCentrality := rows.insertionSort (fun a b => rowOrder a b = true)

def centrality (edges : List (Edge Rat)) : Option (List NodeCentrality) :=
  if (nodes edges).length = 0 then some []
  else do
    let links ← buildLinks edges
    let pr ← ranks links iters
    pure (sortRows ((List.finRange (nodes edges).length).map (row (nodes edges) links pr)))

/-- Every out-link weighs something, and a node's weight is what its out-links weigh together. -/
def Balanced (links : Links n) : Prop :=
  ∀ i : Fin n, (∀ link ∈ links.outLinks.get i, 0 < link.2) ∧ links.outWeight.get i = ((links.outLinks.get i).map Prod.snd).sum

private theorem balanced_empty : Balanced (Links.empty n) := by
  intro i
  simp [Links.empty]

private theorem balanced_add (links : Links n) (si di : Fin n) (weight : Rat) (balanced : Balanced links) :
    Balanced (links.add si di weight) := by
  intro i
  obtain ⟨positive,weighed⟩ := balanced i
  have weighs : 0 < (if weight ≤ 0 then 1 else weight) := by
    split
    next => exact one_pos
    next above => exact lt_of_not_ge above
  by_cases here : si = i
  · subst here
    have appended : (links.add si di weight).outLinks.get si =
        links.outLinks.get si ++ [(di,if weight ≤ 0 then 1 else weight)] := replaceAt_self _ _ _
    rw [appended]
    refine ⟨?_,?_⟩
    · intro link inside
      rcases List.mem_append.mp inside with old | new
      · exact positive link old
      · rw [List.mem_singleton.mp new]
        exact weighs
    · rw [List.map_append,List.sum_append,← weighed]
      simpa [Links.add] using addAt_self links.outWeight si (if weight ≤ 0 then 1 else weight)
  · have kept : (links.add si di weight).outLinks.get i = links.outLinks.get i := replaceAt_other _ _ here
    have unweighed : (links.add si di weight).outWeight.get i = links.outWeight.get i := addAt_other _ _ _ _ here
    rw [kept,unweighed]
    exact ⟨positive,weighed⟩

theorem buildLinks_balanced (edges : List (Edge Rat)) : ∃ links, buildLinks edges = some links ∧ Balanced links := by
  have all (rest : List (Edge Rat)) (listed : ∀ edge ∈ rest, edge ∈ edges) (links : Links (nodes edges).length)
      (balanced : Balanced links) : ∃ built, rest.foldlM (fun links (s,d,w) => do
        let si ← idx (nodes edges) s
        let di ← idx (nodes edges) d
        pure (links.add si di w)) links = some built ∧ Balanced built := by
    induction rest generalizing links with
    | nil => exact ⟨links,rfl,balanced⟩
    | cons edge rest ih =>
      obtain ⟨⟨si,source,_⟩,di,target,_⟩ := idx_endpoints edges edge (listed edge List.mem_cons_self)
      obtain ⟨built,run,kept⟩ := ih (fun other inside => listed other (List.mem_cons_of_mem _ inside))
        (links.add si di edge.2.2) (balanced_add links si di edge.2.2 balanced)
      refine ⟨built,?_,kept⟩
      rw [List.foldlM_cons]
      simpa [source,target] using run
  exact all edges (fun _ inside => inside) _ balanced_empty

private theorem sum_pos_of_mem (links : List (Fin n × Rat)) (positive : ∀ link ∈ links, 0 < link.2)
    (some_link : links ≠ []) : 0 < (links.map Prod.snd).sum := by
  apply List.sum_pos
  · intro w inside
    obtain ⟨link,member,rfl⟩ := List.mem_map.mp inside
    exact positive link member
  · simpa using some_link

private theorem divide_pos (a b : Rat) (positive : 0 < b) : divide a b = some (a / b) := if_neg positive.ne'

/-- What a node hands on in a round: its damped rank, unless it is dangling. -/
private def outflow (links : Links n) (pr : Vector Rat n) (i : Fin n) : Rat :=
  if (links.outLinks.get i).isEmpty then 0 else damping * pr.get i

private theorem spread_node (links : Links n) (balanced : Balanced links) (pr : Vector Rat n)
    (positive : ∀ i : Fin n, 0 < pr.get i) (i : Fin n) (next : Vector Rat n) :
    ∃ spreadOut : Vector Rat n, (if links.outWeight.get i ≤ (0 : Rat) then some next
      else do
        let share ← divide (damping * pr.get i) (links.outWeight.get i)
        pure (spread (links.outLinks.get i) share next)) = some spreadOut ∧
      total spreadOut = total next + outflow links pr i ∧ ∀ j : Fin n, next.get j ≤ spreadOut.get j := by
  obtain ⟨weighs,weighed⟩ := balanced i
  by_cases none_out : links.outLinks.get i = []
  · have nothing : links.outWeight.get i ≤ (0 : Rat) := by simp [weighed,none_out]
    rw [if_pos nothing]
    exact ⟨next,rfl,by simp [outflow,none_out],fun _ => le_refl _⟩
  · have heavy : 0 < links.outWeight.get i := weighed ▸ sum_pos_of_mem _ weighs none_out
    rw [if_neg (not_le.mpr heavy),divide_pos _ _ heavy]
    have share_nonneg : 0 ≤ damping * pr.get i / links.outWeight.get i := by
      have rank := positive i
      unfold damping
      positivity
    have changes : spread (links.outLinks.get i) (damping * pr.get i / links.outWeight.get i) next =
        ((links.outLinks.get i).map (fun link => (link.1,damping * pr.get i / links.outWeight.get i * link.2))).foldl
          (fun v change => addAt v change.1 change.2) next := by
      rw [List.foldl_map]
      rfl
    refine ⟨_,rfl,?_,?_⟩
    · rw [changes,total_addAll,List.map_map]
      have shares : (Prod.snd ∘ fun link : Fin n × Rat => (link.1,damping * pr.get i / links.outWeight.get i * link.2)) =
          fun link => damping * pr.get i / links.outWeight.get i * link.2 := rfl
      have handed : outflow links pr i = damping * pr.get i :=
        if_neg (fun empty => none_out (List.isEmpty_iff.mp empty))
      rw [shares,List.sum_map_mul_left,← weighed,div_mul_cancel₀ _ heavy.ne',handed]
    · intro j
      rw [changes]
      apply le_addAll
      intro change inside
      obtain ⟨link,member,rfl⟩ := List.mem_map.mp inside
      exact mul_nonneg share_nonneg (weighs link member).le

private theorem spread_nodes (links : Links n) (balanced : Balanced links) (pr : Vector Rat n)
    (positive : ∀ i : Fin n, 0 < pr.get i) (places : List (Fin n)) (next : Vector Rat n) :
    ∃ spreadOut : Vector Rat n, places.foldlM (fun next i =>
      if links.outWeight.get i ≤ (0 : Rat) then some next
      else do
        let share ← divide (damping * pr.get i) (links.outWeight.get i)
        pure (spread (links.outLinks.get i) share next)) next = some spreadOut ∧
      total spreadOut = total next + (places.map (outflow links pr)).sum ∧ ∀ j : Fin n, next.get j ≤ spreadOut.get j := by
  induction places generalizing next with
  | nil => exact ⟨next,rfl,by simp,fun _ => le_refl _⟩
  | cons i places ih =>
    obtain ⟨middle,first,gained,rises⟩ := spread_node links balanced pr positive i next
    obtain ⟨last,run,total_gained,rises_again⟩ := ih middle
    refine ⟨last,?_,?_,fun j => (rises j).trans (rises_again j)⟩
    · rw [List.foldlM_cons,first]
      exact run
    · rw [total_gained,gained,List.map_cons,List.sum_cons,add_assoc]

private theorem dangling_total (links : Links n) (pr : Vector Rat n) :
    damping * dangling links pr + ((List.finRange n).map (outflow links pr)).sum = damping * total pr := by
  have all (places : List (Fin n)) (start : Rat) :
      damping * places.foldl (fun dangling i => if (links.outLinks.get i).isEmpty then dangling + pr.get i else dangling) start +
        (places.map (outflow links pr)).sum = damping * start + damping * (places.map (fun i => pr.get i)).sum := by
    induction places generalizing start with
    | nil => simp
    | cons i places ih =>
      rw [List.foldl_cons,List.map_cons,List.sum_cons,List.map_cons,List.sum_cons]
      by_cases empty : (links.outLinks.get i).isEmpty = true
      · have kept := ih (start + pr.get i)
        rw [if_pos empty]
        have nothing : outflow links pr i = 0 := if_pos empty
        rw [nothing]
        linarith
      · have kept := ih start
        rw [if_neg empty]
        have handed : outflow links pr i = damping * pr.get i := if_neg empty
        rw [handed]
        linarith
  have whole := all (List.finRange n) 0
  rw [mul_zero,zero_add] at whole
  rw [total,Fin.sum_univ_def]
  exact whole

private theorem dangling_nonneg (links : Links n) (pr : Vector Rat n) (positive : ∀ i : Fin n, 0 < pr.get i) :
    0 ≤ dangling links pr := by
  have all (places : List (Fin n)) (start : Rat) (some_start : 0 ≤ start) :
      0 ≤ places.foldl (fun dangling i => if (links.outLinks.get i).isEmpty then dangling + pr.get i else dangling) start := by
    induction places generalizing start with
    | nil => exact some_start
    | cons i places ih =>
      apply ih
      change 0 ≤ if (links.outLinks.get i).isEmpty then start + pr.get i else start
      split
      next => exact add_nonneg some_start (positive i).le
      next => exact some_start
  exact all _ 0 (le_refl _)

def Distribution (pr : Vector Rat n) : Prop := (∀ i : Fin n, 0 < pr.get i) ∧ total pr = 1

private theorem iteration_distribution (links : Links n) (balanced : Balanced links) (some_node : 0 < n)
    (pr : Vector Rat n) (spread_out : Distribution pr) :
    ∃ next, iteration links ((1 - damping) / n) pr = some next ∧ Distribution next := by
  obtain ⟨positive,whole⟩ := spread_out
  have count : (0 : Rat) < n := Nat.cast_pos.mpr some_node
  obtain ⟨next,run,gained,rises⟩ := spread_nodes links balanced pr positive (List.finRange n)
    ((Vector.replicate n ((1 - damping) / n)).map (fun v => v + damping * dangling links pr / n))
  have started (i : Fin n) : ((Vector.replicate n ((1 - damping) / n)).map
      (fun v => v + damping * dangling links pr / n)).get i = (1 - damping) / n + damping * dangling links pr / n := by
    simp
  refine ⟨next,?_,?_,?_⟩
  · rw [iteration,divide_pos _ _ count]
    exact run
  · intro i
    have from_base := rises i
    rw [started i] at from_base
    have above : 0 < (1 - damping) / n := div_pos (by norm_num [damping]) count
    have share : 0 ≤ damping * dangling links pr / n :=
      div_nonneg (mul_nonneg (by norm_num [damping]) (dangling_nonneg links pr positive)) count.le
    linarith
  · have start_total : total ((Vector.replicate n ((1 - damping) / n)).map
        (fun v => v + damping * dangling links pr / n)) = (1 - damping) + damping * dangling links pr := by
      rw [Vector.map_replicate,total_replicate,nsmul_eq_mul]
      field_simp
    have handed := dangling_total links pr
    rw [gained,start_total]
    rw [whole] at handed
    linarith

theorem ranks_distribution (links : Links n) (balanced : Balanced links) (some_node : 0 < n) (rounds : Nat) :
    ∃ pr, ranks links rounds = some pr ∧ Distribution pr := by
  have count : (0 : Rat) < n := Nat.cast_pos.mpr some_node
  induction rounds with
  | zero =>
    refine ⟨Vector.replicate n (1 / n),by simp [ranks,divide_pos _ _ count],?_,?_⟩
    · intro i
      have share : (0 : Rat) < 1 / n := one_div_pos.mpr count
      simpa using share
    · rw [total_replicate,nsmul_eq_mul]
      field_simp
  | succ rounds ih =>
    obtain ⟨pr,reached,spread_out⟩ := ih
    obtain ⟨next,step,kept⟩ := iteration_distribution links balanced some_node pr spread_out
    refine ⟨next,?_,kept⟩
    rw [ranks,divide_pos _ _ count,reached]
    exact step

private theorem length_nodes_pos (edges : List (Edge Rat)) (some_edge : edges ≠ []) : 0 < (nodes edges).length := by
  obtain ⟨edge,rest,rfl⟩ := List.exists_cons_of_ne_nil some_edge
  exact List.length_pos_of_mem ((mem_nodes (edge :: rest) edge.1).mpr ⟨edge,List.mem_cons_self,Or.inl rfl⟩)

/-- Whatever the edges, no lookup and no division fails, and the ranks are a distribution after every round and in
the rows returned. -/
theorem centrality_conserves (edges : List (Edge Rat)) (some_edge : edges ≠ []) :
    (∃ links, buildLinks edges = some links ∧
      ∀ rounds, ∃ pr, ranks links rounds = some pr ∧ (∀ i : Fin (nodes edges).length, 0 < pr.get i) ∧ total pr = 1) ∧
    ∃ rows, centrality edges = some rows ∧ (rows.map NodeCentrality.node).Perm (nodes edges) ∧
      (∀ row ∈ rows, 0 < row.pagerank) ∧ (rows.map NodeCentrality.pagerank).sum = 1 := by
  have some_node := length_nodes_pos edges some_edge
  obtain ⟨links,built,balanced⟩ := buildLinks_balanced edges
  obtain ⟨pr,reached,positive,whole⟩ := ranks_distribution links balanced some_node iters
  have sorted : (sortRows ((List.finRange (nodes edges).length).map (row (nodes edges) links pr))).Perm
      ((List.finRange (nodes edges).length).map (row (nodes edges) links pr)) := List.perm_insertionSort _ _
  refine ⟨⟨links,built,ranks_distribution links balanced some_node⟩,
    sortRows ((List.finRange (nodes edges).length).map (row (nodes edges) links pr)),?_,?_,?_,?_⟩
  · rw [centrality,if_neg some_node.ne',built]
    simp only [Option.bind_eq_bind,Option.bind_some,reached]
    rfl
  · refine (sorted.map _).trans ?_
    rw [List.map_map]
    have named : (NodeCentrality.node ∘ row (nodes edges) links pr) = (nodes edges).get := rfl
    rw [named,← List.ofFn_eq_map,List.ofFn_get]
  · intro ranked inside
    obtain ⟨i,_,rfl⟩ := List.mem_map.mp (sorted.mem_iff.mp inside)
    exact positive i
  · rw [(sorted.map _).sum_eq,List.map_map]
    have ranked : (NodeCentrality.pagerank ∘ row (nodes edges) links pr) = fun i => pr.get i := rfl
    rw [ranked,← Fin.sum_univ_def]
    exact whole

/-- Two parallel edges, a self loop, a dangling node. -/
theorem centrality_of_parallel : ([("a","b",2),("a","b",0),("a","a",1)] : List (Edge Rat)) ≠ [] ∧
    (∃ links, buildLinks [("a","b",2),("a","b",0),("a","a",1)] = some links ∧
      ∀ rounds, ∃ pr, ranks links rounds = some pr ∧
        (∀ i : Fin (nodes [("a","b",(2 : Rat)),("a","b",0),("a","a",1)]).length, 0 < pr.get i) ∧ total pr = 1) ∧
    ∃ rows, centrality [("a","b",2),("a","b",0),("a","a",1)] = some rows ∧
      (rows.map NodeCentrality.node).Perm (nodes [("a","b",(2 : Rat)),("a","b",0),("a","a",1)]) ∧
      (∀ row ∈ rows, 0 < row.pagerank) ∧ (rows.map NodeCentrality.pagerank).sum = 1 :=
  ⟨by simp,centrality_conserves _ (by simp)⟩

end Ecphoria.Graph
