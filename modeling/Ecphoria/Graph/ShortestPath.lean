import Ecphoria.Graph.Nodes
import Ecphoria.Library.Hops
import Mathlib.Data.List.Perm.Subperm

/-! Breadth-first search for a shortest directed path. The frontier is two layers
deep, and the map of predecessors leads every seen node back to the source. -/
namespace Ecphoria.Graph

open Library

variable {W : Type}

/-- `adj.get(cur)`: the targets of a node's edges, in edge order. -/
def adj (edges : List (Edge W)) (cur : String) : List String :=
  (edges.filter (fun edge => edge.1 = cur)).map (fun edge => edge.2.1)

structure Search where
  prev : List (String × String)
  q : List String
  seen : List String

/-- The loop over the neighbours of `cur`, which stops where it meets `dst`. -/
def visit (dst cur : String) (search : Search) : List String → Search × Bool
  | [] => (search,false)
  | nb :: rest =>
    if nb ∈ search.seen then visit dst cur search rest
    else
      let marked := { search with seen := nb :: search.seen, prev := (nb,cur) :: search.prev }
      if nb = dst then (marked,true)
      else visit dst cur { marked with q := search.q ++ [nb] } rest

/-- The loop `while let Some(p) = prev.get(c)`; no result where it makes no end in so many rounds. -/
def reconstruct (prev : List (String × String)) : Nat → String → Option (List String)
  | 0, _ => none
  | rounds + 1, c =>
    match prev.lookup c with
    | none => some []
    | some p => (reconstruct prev rounds p).map (fun path => p :: path)

def bfs (edges : List (Edge W)) (dst : String) : Nat → Search → Option (Option (List String))
  | 0, _ => none
  | rounds + 1, search =>
    match search.q with
    | [] => some none
    | cur :: q =>
      match visit dst cur { search with q := q } (adj edges cur) with
      | (found,true) =>
        (reconstruct found.prev (found.prev.length + 1) dst).map (fun path => some (dst :: path).reverse)
      | (next,false) => bfs edges dst rounds next

/-- The inner option is the answer; there is none at all where a loop does not end. -/
def shortestPath (edges : List (Edge W)) (src dst : String) : Option (Option (List String)) :=
  if src = dst then some (some [src])
  else bfs edges dst (edges.length + 2) ⟨[],[src],[src]⟩

def Directed (edges : List (Edge W)) (x y : String) : Prop := ∃ edge ∈ edges, edge.1 = x ∧ edge.2.1 = y

theorem mem_adj (edges : List (Edge W)) (x y : String) : y ∈ adj edges x ↔ Directed edges x y := by
  simp only [adj,Directed,List.mem_map,List.mem_filter,decide_eq_true_eq,and_assoc]

/-- The predecessors lead from `x` back to `src` through a list of nodes. -/
inductive Traced (prev : List (String × String)) (src : String) : String → List String → Prop
  | root (unset : prev.lookup src = none) : Traced prev src src []
  | back {x p : String} {path : List String} (set : prev.lookup x = some p) (traced : Traced prev src p path) :
      Traced prev src x (p :: path)

private theorem traced_grow {prev : List (String × String)} {src x nb cur : String} {path : List String}
    (fresh : prev.lookup nb = none) (apart : nb ≠ src) (traced : Traced prev src x path) :
    Traced ((nb,cur) :: prev) src x path := by
  have elsewhere (y : String) (other : y ≠ nb) : ((nb,cur) :: prev).lookup y = prev.lookup y := by
    rw [List.lookup_cons,beq_false_of_ne other]
  induction traced with
  | root unset => exact .root (by rw [elsewhere src apart.symm,unset])
  | @back x p path set traced ih =>
    have other : x ≠ nb := by
      rintro rfl
      rw [fresh] at set
      exact Option.some_ne_none _ set.symm
    exact .back (by rw [elsewhere x other,set]) ih

private theorem traced_reconstruct {prev : List (String × String)} {src x : String} {path : List String}
    (traced : Traced prev src x path) (rounds : Nat) (enough : path.length < rounds) :
    reconstruct prev rounds x = some path := by
  induction traced generalizing rounds with
  | root unset =>
    obtain ⟨rest,rfl⟩ := Nat.exists_eq_add_of_lt enough
    simp [reconstruct,unset]
  | back set traced ih =>
    rw [List.length_cons] at enough
    obtain ⟨rest,rfl⟩ := Nat.exists_eq_add_of_lt enough
    simp only [reconstruct,set]
    rw [ih _ (by omega)]
    rfl

def Backward (edges : List (Edge W)) (prev : List (String × String)) : Prop :=
  ∀ entry ∈ prev, Directed edges entry.2 entry.1

private theorem mem_of_lookup {prev : List (String × String)} {x p : String} (set : prev.lookup x = some p) :
    (x,p) ∈ prev := by
  obtain ⟨before,after,rfl,_⟩ := List.lookup_eq_some_iff.mp set
  simp

private theorem traced_walk {edges : List (Edge W)} {prev : List (String × String)} {src x : String}
    {path : List String} (backward : Backward edges prev) (traced : Traced prev src x path) :
    IsWalk (Directed edges) src x (x :: path).reverse := by
  have last : (x :: path).getLast? = some src := by
    induction traced with
    | root => simp
    | back _ _ ih => rw [List.getLast?_cons_cons]; exact ih
  have chain : (x :: path).IsChain (fun a b => Directed edges b a) := by
    clear last
    induction traced with
    | root => exact List.isChain_singleton _
    | back set _ ih => exact List.isChain_cons_cons.mpr ⟨backward _ (mem_of_lookup set),ih⟩
  exact ⟨by rw [List.head?_reverse,last],by simp,List.isChain_reverse.mpr chain⟩

/-- A node at its distance from the source, which the predecessors trace back in as many steps. -/
structure Placed (edges : List (Edge W)) (src : String) (prev : List (String × String)) (depth : Nat) (x : String) :
    Prop where
  traced : ∃ path, Traced prev src x path ∧ path.length = depth
  bounded : depth ≤ prev.length
  least : ∀ n, Hops (Directed edges) src n x → depth ≤ n

private theorem placed_grow {edges : List (Edge W)} {src x nb cur : String} {prev : List (String × String)} {depth : Nat}
    (fresh : prev.lookup nb = none) (apart : nb ≠ src) (placed : Placed edges src prev depth x) :
    Placed edges src ((nb,cur) :: prev) depth x := by
  obtain ⟨path,traced,counted⟩ := placed.traced
  exact ⟨⟨path,traced_grow fresh apart traced,counted⟩,Nat.le_succ_of_le placed.bounded,placed.least⟩

/-- The queue is a layer at one depth and a beginning of the next one; all that is nearer is seen. -/
structure Layered (edges : List (Edge W)) (src dst : String) (done front back : List String) (depth : Nat)
    (search : Search) : Prop where
  queued : search.q = front ++ back
  seen : ∀ x, x ∈ search.seen ↔ x ∈ done ∨ x ∈ front ∨ x ∈ back
  keys : ∀ x, x ∈ search.seen ↔ x = src ∨ x ∈ search.prev.map Prod.fst
  rootless : src ∉ search.prev.map Prod.fst
  distinct : (search.prev.map Prod.fst).Nodup
  backward : Backward edges search.prev
  counted : done.length + front.length + back.length = search.prev.length + 1
  unmet : dst ∉ search.seen
  atFront : ∀ x ∈ front, Placed edges src search.prev depth x
  atBack : ∀ x ∈ back, Placed edges src search.prev (depth + 1) x
  nearer : ∀ n ≤ depth, ∀ x, Hops (Directed edges) src n x → x ∈ search.seen

def Closed (edges : List (Edge W)) (done : List String) (search : Search) : Prop :=
  ∀ x ∈ done, ∀ y, Directed edges x y → y ∈ search.seen

private theorem lookup_none {prev : List (String × String)} {x : String} (absent : x ∉ prev.map Prod.fst) :
    prev.lookup x = none := by
  rw [List.lookup_eq_none_iff]
  intro entry inside
  rw [bne_iff_ne]
  rintro rfl
  exact absent (List.mem_map_of_mem inside)

private theorem placed_neighbour {edges : List (Edge W)} {src dst cur nb : String} {done front back : List String}
    {depth : Nat} {search : Search} (layered : Layered edges src dst done front back depth search)
    (placed : Placed edges src search.prev depth cur) (fresh : nb ∉ search.seen) :
    Placed edges src ((nb,cur) :: search.prev) (depth + 1) nb := by
  have unkeyed : nb ∉ search.prev.map Prod.fst := fun inside => fresh ((layered.keys nb).mpr (Or.inr inside))
  have apart : nb ≠ src := fun same => fresh ((layered.keys nb).mpr (Or.inl same))
  obtain ⟨path,traced,counted⟩ := placed.traced
  refine ⟨⟨cur :: path,.back List.lookup_cons_self (traced_grow (lookup_none unkeyed) apart traced),by simp [counted]⟩,
    Nat.succ_le_succ placed.bounded,?_⟩
  intro n reached
  by_contra near
  exact fresh (layered.nearer n (by omega) nb reached)

private theorem layered_push {edges : List (Edge W)} {src dst cur nb : String} {done front back : List String}
    {depth : Nat} {search : Search} (layered : Layered edges src dst done front back depth search)
    (placed : Placed edges src search.prev depth cur) (hop : Directed edges cur nb) (fresh : nb ∉ search.seen)
    (other : nb ≠ dst) :
    Layered edges src dst done front (back ++ [nb]) depth
      ⟨(nb,cur) :: search.prev,search.q ++ [nb],nb :: search.seen⟩ := by
  have unkeyed : nb ∉ search.prev.map Prod.fst := fun inside => fresh ((layered.keys nb).mpr (Or.inr inside))
  have apart : nb ≠ src := fun same => fresh ((layered.keys nb).mpr (Or.inl same))
  have unset := lookup_none unkeyed
  refine ⟨?_,?_,?_,?_,?_,?_,?_,?_,?_,?_,?_⟩
  · rw [layered.queued,List.append_assoc]
  · intro x
    rw [List.mem_cons,layered.seen x,List.mem_append,List.mem_singleton]
    tauto
  · intro x
    rw [List.mem_cons,layered.keys x,List.map_cons,List.mem_cons]
    tauto
  · rw [List.map_cons,List.mem_cons]
    rintro (same | inside)
    · exact apart same.symm
    · exact layered.rootless inside
  · exact List.nodup_cons.mpr ⟨unkeyed,layered.distinct⟩
  · intro entry inside
    rcases List.mem_cons.mp inside with rfl | old
    · exact hop
    · exact layered.backward entry old
  · have counted := layered.counted
    simp only [List.length_append,List.length_cons,List.length_nil]
    omega
  · rw [List.mem_cons]
    rintro (same | inside)
    · exact other same.symm
    · exact layered.unmet inside
  · intro x inside
    exact placed_grow unset apart (layered.atFront x inside)
  · intro x inside
    rcases List.mem_append.mp inside with old | new
    · exact placed_grow unset apart (layered.atBack x old)
    · rw [List.mem_singleton.mp new]
      exact placed_neighbour layered placed fresh
  · intro n near x reached
    exact List.mem_cons_of_mem _ (layered.nearer n near x reached)

private theorem visit_layered {edges : List (Edge W)} {src dst cur : String} {done front back : List String}
    {depth : Nat} {search : Search} (nbs : List String) (hops : ∀ nb ∈ nbs, Directed edges cur nb)
    (layered : Layered edges src dst done front back depth search)
    (placed : Placed edges src search.prev depth cur) :
    (∃ next more, visit dst cur search nbs = (next,false) ∧ Layered edges src dst done front more depth next ∧
      (∀ x ∈ search.seen, x ∈ next.seen) ∧ ∀ nb ∈ nbs, nb ∈ next.seen) ∨
    ∃ found, visit dst cur search nbs = (found,true) ∧ Placed edges src found.prev (depth + 1) dst ∧
      Backward edges found.prev := by
  induction nbs generalizing search back with
  | nil => exact Or.inl ⟨search,back,rfl,layered,fun _ inside => inside,by simp⟩
  | cons nb nbs ih =>
    have hop := hops nb List.mem_cons_self
    have rest := fun other inside => hops other (List.mem_cons_of_mem _ inside)
    by_cases known : nb ∈ search.seen
    · have skipped : visit dst cur search (nb :: nbs) = visit dst cur search nbs := by rw [visit,if_pos known]
      rw [skipped]
      rcases ih rest layered placed with ⟨next,more,run,kept,grown,met⟩ | found
      · refine Or.inl ⟨next,more,run,kept,grown,?_⟩
        intro other inside
        rcases List.mem_cons.mp inside with rfl | later
        · exact grown other known
        · exact met other later
      · exact Or.inr found
    · have unkeyed : nb ∉ search.prev.map Prod.fst := fun inside => known ((layered.keys nb).mpr (Or.inr inside))
      have apart : nb ≠ src := fun same => known ((layered.keys nb).mpr (Or.inl same))
      by_cases target : nb = dst
      · subst target
        refine Or.inr ⟨⟨(nb,cur) :: search.prev,search.q,nb :: search.seen⟩,?_,
          placed_neighbour layered placed known,?_⟩
        · rw [visit,if_neg known,if_pos rfl]
        · intro entry inside
          rcases List.mem_cons.mp inside with rfl | old
          · exact hop
          · exact layered.backward entry old
      · have pushed : visit dst cur search (nb :: nbs) =
            visit dst cur ⟨(nb,cur) :: search.prev,search.q ++ [nb],nb :: search.seen⟩ nbs := by
          rw [visit,if_neg known,if_neg target]
        rw [pushed]
        rcases ih rest (layered_push layered placed hop known target)
          (placed_grow (lookup_none unkeyed) apart placed) with ⟨next,more,run,kept,grown,met⟩ | found
        · refine Or.inl ⟨next,more,run,kept,fun x inside => grown x (List.mem_cons_of_mem _ inside),?_⟩
          intro other inside
          rcases List.mem_cons.mp inside with rfl | later
          · exact grown other List.mem_cons_self
          · exact met other later
        · exact Or.inr found

private theorem prev_length {edges : List (Edge W)} {prev : List (String × String)} (backward : Backward edges prev)
    (distinct : (prev.map Prod.fst).Nodup) : prev.length ≤ edges.length := by
  have targets : prev.map Prod.fst ⊆ edges.map (fun edge => edge.2.1) := by
    intro x inside
    obtain ⟨entry,member,rfl⟩ := List.mem_map.mp inside
    obtain ⟨edge,listed,_,target⟩ := backward entry member
    exact List.mem_map.mpr ⟨edge,listed,target⟩
  simpa using (List.subperm_of_subset distinct targets).length_le

private theorem layered_shift {edges : List (Edge W)} {src dst : String} {done back : List String} {depth : Nat}
    {search : Search} (layered : Layered edges src dst done [] back depth search) (closed : Closed edges done search) :
    Layered edges src dst done back [] (depth + 1) search := by
  refine ⟨by simpa using layered.queued,?_,layered.keys,layered.rootless,layered.distinct,layered.backward,
    by simpa using layered.counted,layered.unmet,layered.atBack,by simp,?_⟩
  · intro x
    rw [layered.seen x]
    simp
  · intro n near x reached
    rcases Nat.lt_or_ge depth n with last | nearer
    · obtain rfl : n = depth + 1 := by omega
      cases reached with
      | @next _ y _ before hop =>
        -- the node before is in no later layer, so it is done and its neighbours are seen
        have known := layered.nearer depth le_rfl y before
        rcases (layered.seen y).mp known with finished | none_left | later
        · exact closed y finished x hop
        · exact absurd none_left List.not_mem_nil
        · exact absurd ((layered.atBack y later).least depth before) (by omega)
    · exact layered.nearer n nearer x reached

private theorem layered_head {edges : List (Edge W)} {src dst cur : String} {done front back q : List String}
    {depth : Nat} {search : Search} (layered : Layered edges src dst done front back depth search)
    (closed : Closed edges done search) (queue : search.q = cur :: q) :
    ∃ front' back' depth', Layered edges src dst done (cur :: front') back' depth' search := by
  have queued := layered.queued
  rw [queue] at queued
  cases front with
  | cons first front =>
    obtain ⟨rfl,_⟩ := List.cons.inj queued
    exact ⟨front,back,depth,layered⟩
  | nil =>
    rw [List.nil_append] at queued
    subst queued
    exact ⟨q,[],depth + 1,layered_shift layered closed⟩

private theorem layered_pop {edges : List (Edge W)} {src dst cur : String} {done front back q : List String}
    {depth : Nat} {search : Search} (layered : Layered edges src dst done (cur :: front) back depth search)
    (queue : search.q = cur :: q) : Layered edges src dst (cur :: done) front back depth { search with q := q } := by
  have queued := layered.queued
  rw [queue,List.cons_append] at queued
  refine ⟨(List.cons.inj queued).2,?_,layered.keys,layered.rootless,layered.distinct,layered.backward,?_,layered.unmet,
    fun x inside => layered.atFront x (List.mem_cons_of_mem _ inside),layered.atBack,layered.nearer⟩
  · intro x
    rw [layered.seen x,List.mem_cons,List.mem_cons]
    tauto
  · have counted := layered.counted
    simp only [List.length_cons] at counted ⊢
    omega

/-- What the search comes to: no answer where the target is out of reach, else a walk that no walk is shorter than. -/
def Answered (edges : List (Edge W)) (src dst : String) (result : Option (Option (List String))) : Prop :=
  ∃ answer, result = some answer ∧ (answer = none → ¬Relation.ReflTransGen (Directed edges) src dst) ∧
    ∀ path, answer = some path → IsWalk (Directed edges) src dst path ∧
      ∀ other, IsWalk (Directed edges) src dst other → path.length ≤ other.length

private theorem answered_found {edges : List (Edge W)} {src dst : String} {prev : List (String × String)} {depth : Nat}
    (placed : Placed edges src prev depth dst) (backward : Backward edges prev) :
    Answered edges src dst ((reconstruct prev (prev.length + 1) dst).map (fun path => some (dst :: path).reverse)) := by
  obtain ⟨path,traced,counted⟩ := placed.traced
  have enough : path.length < prev.length + 1 := by
    have bounded := placed.bounded
    omega
  rw [traced_reconstruct traced _ enough]
  refine ⟨some (dst :: path).reverse,rfl,fun missing => absurd missing (Option.some_ne_none _),?_⟩
  rintro _ ⟨rfl⟩
  refine ⟨traced_walk backward traced,?_⟩
  intro other walk
  have least := placed.least _ walk.hops
  have some_member : other ≠ [] := by
    rintro rfl
    exact absurd walk.starts (by simp)
  have positive := List.length_pos_iff.mpr some_member
  simp only [List.length_reverse,List.length_cons]
  omega

private theorem answered_exhausted {edges : List (Edge W)} {src dst : String} {done front back : List String}
    {depth : Nat} {search : Search} (layered : Layered edges src dst done front back depth search)
    (closed : Closed edges done search) (queue : search.q = []) : Answered edges src dst (some none) := by
  refine ⟨none,rfl,?_,fun path found => absurd found.symm (Option.some_ne_none _)⟩
  intro _ reached
  have queued := layered.queued
  rw [queue] at queued
  obtain ⟨rfl,rfl⟩ := List.append_eq_nil_iff.mp queued.symm
  obtain ⟨n,hops⟩ := Hops.of_reachable reached
  apply layered.unmet
  refine hops.closed (fun x => x ∈ search.seen) ((layered.keys src).mpr (Or.inl rfl)) ?_
  intro x y known hop
  have finished : x ∈ done := by simpa using (layered.seen x).mp known
  exact closed x finished y hop

theorem bfs_answered {edges : List (Edge W)} {src dst : String} (rounds : Nat) {done front back : List String}
    {depth : Nat} {search : Search} (layered : Layered edges src dst done front back depth search)
    (closed : Closed edges done search) (enough : edges.length + 2 ≤ rounds + done.length) :
    Answered edges src dst (bfs edges dst rounds search) := by
  induction rounds generalizing done front back depth search with
  | zero =>
    have few := prev_length layered.backward layered.distinct
    have counted := layered.counted
    omega
  | succ rounds ih =>
    cases queue : search.q with
    | nil =>
      rw [bfs,queue]
      exact answered_exhausted layered closed queue
    | cons cur q =>
      obtain ⟨front',back',depth',headed⟩ := layered_head layered closed queue
      have placed := headed.atFront cur List.mem_cons_self
      have hops : ∀ nb ∈ adj edges cur, Directed edges cur nb := fun nb inside => (mem_adj edges cur nb).mp inside
      rcases visit_layered (adj edges cur) hops (layered_pop headed queue) placed with
        ⟨next,more,run,kept,grown,met⟩ | ⟨found,run,reached,backward⟩
      · rw [bfs,queue]
        simp only [run]
        apply ih kept
        · intro x inside y hop
          rcases List.mem_cons.mp inside with rfl | earlier
          · exact met y ((mem_adj edges x y).mpr hop)
          · exact grown y (closed x earlier y hop)
        · rw [List.length_cons]
          omega
      · rw [bfs,queue]
        simp only [run]
        exact answered_found reached backward

private theorem layered_start (edges : List (Edge W)) (src dst : String) (apart : src ≠ dst) :
    Layered edges src dst [] [src] [] 0 ⟨[],[src],[src]⟩ := by
  refine ⟨rfl,by simp,by simp,by simp,by simp,fun _ inside => absurd inside List.not_mem_nil,rfl,?_,?_,by simp,?_⟩
  · simpa using apart.symm
  · intro x inside
    rw [List.mem_singleton.mp inside]
    exact ⟨⟨[],.root rfl,rfl⟩,Nat.zero_le _,fun _ _ => Nat.zero_le _⟩
  · intro n near x reached
    obtain rfl : n = 0 := by omega
    cases reached
    exact List.mem_singleton_self _

/-- The search ends; it finds a path exactly where the target is reachable, and no path has fewer edges. -/
theorem shortestPath_minimal (edges : List (Edge W)) (s t : String) :
    ∃ answer, shortestPath edges s t = some answer ∧
      (answer.isSome ↔ Relation.ReflTransGen (Directed edges) s t) ∧
      ∀ p, answer = some p → p.head? = some s ∧ p.getLast? = some t ∧ p.IsChain (Directed edges) ∧
        ∀ q : List String, q.head? = some s → q.getLast? = some t → q.IsChain (Directed edges) →
          p.length ≤ q.length := by
  have answered : Answered edges s t (shortestPath edges s t) := by
    unfold shortestPath
    by_cases same : s = t
    · subst same
      rw [if_pos rfl]
      refine ⟨some [s],rfl,fun missing => absurd missing (Option.some_ne_none _),?_⟩
      rintro _ ⟨rfl⟩
      refine ⟨⟨rfl,rfl,List.isChain_singleton _⟩,?_⟩
      intro other walk
      cases other with
      | nil => exact absurd walk.starts (by simp)
      | cons first rest => simp
    · rw [if_neg same]
      exact bfs_answered _ (layered_start edges s t same) (fun _ inside => absurd inside List.not_mem_nil) (by simp)
  obtain ⟨answer,run,unreached,found⟩ := answered
  refine ⟨answer,run,?_,?_⟩
  · cases answer with
    | none => simpa using unreached rfl
    | some path => simpa using (found path rfl).1.hops.reachable
  · intro p same
    obtain ⟨walk,shortest⟩ := found p same
    exact ⟨walk.starts,walk.ends,walk.linked,fun q starts ends linked => shortest q ⟨starts,ends,linked⟩⟩

example : shortestPath [("a","b",()),("b","c",()),("c","d",()),("a","x",())] "a" "d" =
    some (some ["a","b","c","d"]) := by decide +kernel

end Ecphoria.Graph
