import Ecphoria.Graph.Nodes
import Ecphoria.Library.Grouping
import Ecphoria.Library.UnionFind
import Mathlib.Data.List.Sort
import Mathlib.Data.String.Basic

/-! Communities by union-find with path halving, which are the connected components
of the edges read without direction. -/
namespace Ecphoria.Graph

open Library Library.UnionFind

variable {W : Type}

/-- The loop `while parent[x] != x`; an index out of bounds, or no end in so many rounds, is no result. -/
def find : Nat → List Nat → Nat → Option (List Nat × Nat)
  | 0, _, _ => none
  | rounds + 1, parent, x => do
    let p ← parent[x]?
    if p = x then pure (parent,x)
    else
      -- `parent[x] = parent[parent[x]]; x = parent[x]`
      let g ← parent[p]?
      find rounds (parent.set x g) g

def union (names : List String) (parent : List Nat) (edge : Edge W) : Option (List Nat) := do
  let s ← idx names edge.1
  let (parent,a) ← find (parent.length + 1) parent s
  let d ← idx names edge.2.1
  let (parent,b) ← find (parent.length + 1) parent d
  pure (if a ≠ b then parent.set a b else parent)

/-- `groups.entry(root).or_default().push(node)`. -/
def pushGroup (groups : List (Nat × List String)) (root : Nat) (node : String) : List (Nat × List String) :=
  mergeInto Prod.fst appendItems groups (root,[node])

def fileNode (state : List Nat × List (Nat × List String)) (place : String × Nat) :
    Option (List Nat × List (Nat × List String)) := do
  let (parent,root) ← find (state.1.length + 1) state.1 place.2
  pure (parent,pushGroup state.2 root place.1)

/-- The larger group first, then by the first node; no group is empty. -/
def groupOrder (a b : List String) : Bool :=
  b.length < a.length || (a.length = b.length && a.headD "" ≤ b.headD "")

def sortNodes (group : List String) : List String := group.insertionSort (fun a b => a ≤ b)

/-- `hashOrder` is the order in which the map of groups is read. -/
def communities (hashOrder : List (Nat × List String) → List (Nat × List String)) (edges : List (Edge W)) :
    Option (List (List String)) := do
  let parent ← edges.foldlM (union (nodes edges)) (List.range (nodes edges).length)
  let (_,groups) ← (nodes edges).zipIdx.foldlM fileNode (parent,[])
  pure (((hashOrder groups).map (fun group => sortNodes group.2)).insertionSort (fun a b => groupOrder a b = true))

/-- What a search for roots leaves of the array: the size, what is joined and the roots. -/
structure Same (parent next : List Nat) : Prop where
  size : next.length = parent.length
  joined : ∀ y z, Joined next y z ↔ Joined parent y z
  roots : ∀ c, Link parent c c → Link next c c

theorem Same.refl (parent : List Nat) : Same parent parent := ⟨rfl,fun _ _ => Iff.rfl,fun _ root => root⟩

theorem Same.trans {parent next last : List Nat} (first : Same parent next) (second : Same next last) :
    Same parent last :=
  ⟨second.size.trans first.size,fun y z => (second.joined y z).trans (first.joined y z),
    fun c root => second.roots c (first.roots c root)⟩

theorem find_root {rank : Nat → Nat} (rounds : Nat) {parent : List Nat} {x : Nat} (ranked : Ranked parent rank)
    (place : x < parent.length) (enough : above parent rank x < rounds) :
    ∃ next c, find rounds parent x = some (next,c) ∧ Same parent next ∧ Ranked next rank ∧ Link next c c ∧
      Joined next x c := by
  induction rounds generalizing parent x with
  | zero => exact absurd enough (Nat.not_lt_zero _)
  | succ rounds ih =>
    obtain ⟨p,up⟩ := exists_link place
    have read : parent[x]? = some p := up
    by_cases top : p = x
    · subst top
      exact ⟨parent,p,by simp [find,read],Same.refl parent,ranked,up,.refl _⟩
    · obtain ⟨inside,rises⟩ := ranked x p up
      obtain ⟨g,again⟩ := exists_link inside
      have read_again : parent[p]? = some g := again
      have place_g : g < parent.length := (ranked p g again).1
      have higher : rank x < rank g := by
        by_cases stays : g = p
        · rw [stays]
          exact rises top
        · exact (rises top).trans ((ranked p g again).2 stays)
      have lower := above_lt place_g higher
      have size : (parent.set x g).length = parent.length := List.length_set
      have same_above : above (parent.set x g) rank g = above parent rank g := by rw [above,size,above]
      obtain ⟨next,c,run,same,kept,root,joined⟩ := ih (ranked.halve up top again) (by rw [size]; exact place_g) (by omega)
      have halved : Same parent (parent.set x g) :=
        ⟨size,joined_halve up top again,fun _ root => root_halve up top root⟩
      refine ⟨next,c,?_,halved.trans same,kept,root,?_⟩
      · simp only [find,read,read_again,Option.bind_eq_bind,Option.bind_some,if_neg top]
        exact run
      · have step : Joined next x g :=
          ((halved.trans same).joined x g).mpr (.trans _ _ _ (.rel _ _ up) (.rel _ _ again))
        exact .trans _ _ _ step joined

def Between (names : List String) (edges : List (Edge W)) (i j : Nat) : Prop :=
  ∃ edge ∈ edges, names[i]? = some edge.1 ∧ names[j]? = some edge.2.1

private theorem between_append {names : List String} (distinct : names.Nodup) (edges : List (Edge W)) (edge : Edge W)
    {s d : Fin names.length} (source : names.get s = edge.1) (target : names.get d = edge.2.1) (i j : Nat) :
    Between names (edges ++ [edge]) i j ↔ Between names edges i j ∨ (i = s ∧ j = d) := by
  have placed (k : Fin names.length) (i : Nat) : names[i]? = some (names.get k) ↔ i = k := by
    rw [List.getElem?_eq_some_iff]
    refine ⟨?_,?_⟩
    · rintro ⟨place,same⟩
      exact (distinct.getElem_inj_iff).mp same
    · rintro rfl
      exact ⟨k.2,rfl⟩
  unfold Between
  refine ⟨?_,?_⟩
  · rintro ⟨other,listed,left,right⟩
    rcases List.mem_append.mp listed with old | new
    · exact Or.inl ⟨other,old,left,right⟩
    · rw [List.mem_singleton.mp new,← source] at left
      rw [List.mem_singleton.mp new,← target] at right
      exact Or.inr ⟨(placed s i).mp left,(placed d j).mp right⟩
  · rintro (⟨other,old,left,right⟩ | ⟨left,right⟩)
    · exact ⟨other,List.mem_append_left _ old,left,right⟩
    · refine ⟨edge,by simp,?_,?_⟩
      · rw [← source,(placed s i).mpr left]
      · rw [← target,(placed d j).mpr right]

structure Merged (names : List String) (edges : List (Edge W)) (parent : List Nat) : Prop where
  size : parent.length = names.length
  ranked : ∃ rank, Ranked parent rank
  joined : ∀ i j, Joined parent i j ↔ Relation.EqvGen (Between names edges) i j

private theorem find_ranked {rank : Nat → Nat} {parent : List Nat} {x : Nat} (ranked : Ranked parent rank)
    (place : x < parent.length) : ∃ next c, find (parent.length + 1) parent x = some (next,c) ∧ Same parent next ∧
      Ranked next rank ∧ Link next c c ∧ Joined next x c :=
  find_root _ ranked place (Nat.lt_succ_of_le above_le)

private theorem union_merged {names : List String} (distinct : names.Nodup) {edges : List (Edge W)} {edge : Edge W}
    {parent : List Nat} (merged : Merged names edges parent) (source : edge.1 ∈ names) (target : edge.2.1 ∈ names) :
    ∃ next, union names parent edge = some next ∧ Merged names (edges ++ [edge]) next := by
  obtain ⟨s,found_s,named_s⟩ := idx_of_mem names edge.1 source
  obtain ⟨d,found_d,named_d⟩ := idx_of_mem names edge.2.1 target
  obtain ⟨size,⟨rank,ranked⟩,joined⟩ := merged
  obtain ⟨first,a,run_a,same_a,ranked_a,root_a,joined_a⟩ := find_ranked ranked (x := s) (by rw [size]; exact s.2)
  obtain ⟨next,b,run_b,same_b,ranked_b,root_b,joined_b⟩ :=
    find_ranked ranked_a (x := d) (by rw [same_a.size,size]; exact d.2)
  have same := same_a.trans same_b
  have left : Joined next s a := (same_b.joined s a).mpr joined_a
  have whole (i j : Nat) : Joined next i j ↔ Relation.EqvGen (Between names edges) i j :=
    (same.joined i j).trans (joined i j)
  have pair := eqvGen_pair whole left joined_b
  have added (i j : Nat) : Relation.EqvGen (Between names (edges ++ [edge])) i j ↔
      Relation.EqvGen (fun u v => Between names edges u v ∨ (u = s ∧ v = d)) i j := by
    have alike : Between names (edges ++ [edge]) = fun u v => Between names edges u v ∨ (u = s ∧ v = d) := by
      funext u v
      exact propext (between_append distinct edges edge named_s named_d u v)
    rw [alike]
  refine ⟨if a ≠ b then next.set a b else next,?_,?_⟩
  · simp only [union,found_s,found_d,run_a,run_b,Option.bind_eq_bind,Option.bind_some]
    rfl
  · by_cases one_tree : a = b
    · subst one_tree
      rw [if_neg (fun other => other rfl)]
      refine ⟨same.size.trans size,⟨rank,ranked_b⟩,?_⟩
      intro i j
      exact ((eqvGen_known (.refl a) i j).symm.trans (pair i j)).trans (added i j).symm
    · rw [if_pos one_tree]
      refine ⟨by rw [List.length_set,same.size,size],ranked_b.attach (same_b.roots a root_a) root_b one_tree,?_⟩
      intro i j
      exact ((joined_attach (same_b.roots a root_a) i j).trans (pair i j)).trans (added i j).symm

private theorem merged_start (names : List String) : Merged names ([] : List (Edge W)) (List.range names.length) := by
  have itself (x p : Nat) (link : Link (List.range names.length) x p) : p = x ∧ x < names.length := by
    unfold Link at link
    rw [List.getElem?_eq_some_iff] at link
    obtain ⟨place,same⟩ := link
    rw [List.getElem_range] at same
    exact ⟨same.symm,by simpa using place⟩
  refine ⟨by simp,⟨fun _ => 0,?_⟩,?_⟩
  · intro x p link
    obtain ⟨rfl,place⟩ := itself x p link
    exact ⟨by simpa using place,fun moved => absurd rfl moved⟩
  · intro i j
    refine ⟨Relation.EqvGen.eqvGen_le ?_ i j,Relation.EqvGen.eqvGen_le ?_ i j⟩
    · intro x p link
      rw [(itself x p link).1]
      exact .refl _
    · rintro x p ⟨edge,listed,_⟩
      exact absurd listed List.not_mem_nil

theorem unions_merged (edges : List (Edge W)) :
    ∃ parent, edges.foldlM (union (nodes edges)) (List.range (nodes edges).length) = some parent ∧
      Merged (nodes edges) edges parent := by
  have all (rest done : List (Edge W)) (listed : ∀ edge ∈ rest, edge ∈ edges) (parent : List Nat)
      (merged : Merged (nodes edges) done parent) : ∃ next, rest.foldlM (union (nodes edges)) parent = some next ∧
        Merged (nodes edges) (done ++ rest) next := by
    induction rest generalizing done parent with
    | nil => exact ⟨parent,rfl,by rwa [List.append_nil]⟩
    | cons edge rest ih =>
      have here := listed edge List.mem_cons_self
      obtain ⟨middle,step,kept⟩ := union_merged (nodup_nodes edges) merged
        ((mem_nodes edges _).mpr ⟨edge,here,Or.inl rfl⟩) ((mem_nodes edges _).mpr ⟨edge,here,Or.inr rfl⟩)
      obtain ⟨next,run,last⟩ := ih (done ++ [edge]) (fun other inside => listed other (List.mem_cons_of_mem _ inside))
        middle kept
      refine ⟨next,?_,by rwa [List.append_assoc] at last⟩
      rw [List.foldlM_cons,step]
      exact run
  exact all edges [] (fun _ inside => inside) _ (merged_start _)

private def Filed (parent : List Nat) (place : String × Nat) (pair : Nat × List String) : Prop :=
  pair.2 = [place.1] ∧ Link parent pair.1 pair.1 ∧ Joined parent place.2 pair.1

private theorem filed_same {parent next : List Nat} (same : Same parent next) {place : String × Nat}
    {pair : Nat × List String} (filed : Filed parent place pair) : Filed next place pair :=
  ⟨filed.1,same.roots _ filed.2.1,(same.joined _ _).mpr filed.2.2⟩

private theorem groups_filed {rank : Nat → Nat} (places : List (String × Nat)) {parent : List Nat}
    (ranked : Ranked parent rank) (inside : ∀ place ∈ places, place.2 < parent.length)
    (groups : List (Nat × List String)) :
    ∃ next pairs, places.foldlM fileNode (parent,groups) =
        some (next,pairs.foldl (mergeInto Prod.fst appendItems) groups) ∧
      Same parent next ∧ List.Forall₂ (Filed next) places pairs := by
  induction places generalizing parent groups with
  | nil => exact ⟨parent,[],rfl,Same.refl parent,.nil⟩
  | cons place places ih =>
    obtain ⟨middle,c,step,same,kept,root,joined⟩ := find_ranked ranked (inside place List.mem_cons_self)
    obtain ⟨next,pairs,run,later,filed⟩ := ih kept
      (fun other listed => by rw [same.size]; exact inside other (List.mem_cons_of_mem _ listed))
      (pushGroup groups c place.1)
    refine ⟨next,(c,[place.1]) :: pairs,?_,same.trans later,.cons (filed_same later ⟨rfl,root,joined⟩) filed⟩
    have filing : fileNode (parent,groups) place = some (middle,pushGroup groups c place.1) := by
      simp only [fileNode,step,Option.bind_eq_bind,Option.bind_some]
      rfl
    rw [List.foldlM_cons,filing]
    exact run

private theorem filed_flatten {parent : List Nat} {places : List (String × Nat)} {pairs : List (Nat × List String)}
    (filed : List.Forall₂ (Filed parent) places pairs) : (pairs.map Prod.snd).flatten = places.map Prod.fst := by
  induction filed with
  | nil => rfl
  | cons head _ ih => rw [List.map_cons,List.flatten_cons,head.1,ih]; rfl

private theorem key_of_member {parent : List Nat} {places : List (String × Nat)} {pairs : List (Nat × List String)}
    (filed : List.Forall₂ (Filed parent) places pairs) {group : Nat × List String}
    (kept : group ∈ mergeAll Prod.fst appendItems pairs) {x : String} (member : x ∈ group.2) :
    ∃ place ∈ places, place.1 = x ∧ Joined parent place.2 group.1 := by
  rw [items_mergeAll kept,List.mem_flatten] at member
  obtain ⟨_,listed,member⟩ := member
  obtain ⟨pair,inside,rfl⟩ := List.mem_map.mp listed
  obtain ⟨inside,key⟩ := List.mem_filter.mp inside
  obtain ⟨place,known,only,_,joined⟩ := exists_of_forall₂ filed.flip inside
  rw [only,List.mem_singleton] at member
  exact ⟨place,known,member.symm,of_decide_eq_true key ▸ joined⟩

private theorem member_of_key {pairs : List (Nat × List String)} {group pair : Nat × List String}
    (kept : group ∈ mergeAll Prod.fst appendItems pairs) (listed : pair ∈ pairs) (key : pair.1 = group.1) {x : String}
    (only : pair.2 = [x]) : x ∈ group.2 := by
  rw [items_mergeAll kept,List.mem_flatten]
  refine ⟨pair.2,List.mem_map_of_mem (List.mem_filter.mpr ⟨listed,decide_eq_true key⟩),?_⟩
  rw [only]
  exact List.mem_singleton_self x

private theorem connected_iff (edges : List (Edge W)) {i j : Nat} {x y : String} (here : (nodes edges)[i]? = some x)
    (there : (nodes edges)[j]? = some y) : Relation.EqvGen (Between (nodes edges) edges) i j ↔
      Relation.EqvGen (fun a b => ∃ edge ∈ edges, edge.1 = a ∧ edge.2.1 = b) x y := by
  have named (k : Nat) (n : String) (known : (nodes edges)[k]? = some n) : ((nodes edges)[k]?).getD "" = n := by
    rw [known]
    rfl
  have placed (k : Nat) (n : String) (known : (nodes edges)[k]? = some n) : (nodes edges).idxOf n = k := by
    obtain ⟨place,rfl⟩ := List.getElem?_eq_some_iff.mp known
    exact (nodup_nodes edges).idxOf_getElem k place
  refine ⟨?_,?_⟩
  · intro joined
    rw [← named i x here,← named j y there]
    refine eqvGen_lift (fun k => ((nodes edges)[k]?).getD "") ?_ joined
    rintro a b ⟨edge,listed,left,right⟩
    exact .rel _ _ ⟨edge,listed,(named a _ left).symm,(named b _ right).symm⟩
  · intro connected
    rw [← placed i x here,← placed j y there]
    refine eqvGen_lift (fun n => (nodes edges).idxOf n) ?_ connected
    rintro _ _ ⟨edge,listed,rfl,rfl⟩
    have known (n : String) (inside : n ∈ nodes edges) : (nodes edges)[(nodes edges).idxOf n]? = some n := by
      rw [List.getElem?_eq_getElem (List.idxOf_lt_length_of_mem inside),List.getElem_idxOf]
    exact .rel _ _ ⟨edge,listed,known _ ((mem_nodes edges _).mpr ⟨edge,listed,Or.inl rfl⟩),
      known _ ((mem_nodes edges _).mpr ⟨edge,listed,Or.inr rfl⟩)⟩

private theorem together_iff {names : List String} (distinct : names.Nodup) {parent : List Nat}
    {pairs : List (Nat × List String)} (filed : List.Forall₂ (Filed parent) names.zipIdx pairs) {i j : Nat}
    {x y : String} (here : names[i]? = some x) (there : names[j]? = some y) :
    (∃ group ∈ mergeAll Prod.fst appendItems pairs, x ∈ group.2 ∧ y ∈ group.2) ↔ Joined parent i j := by
  have position (k : Nat) (n : String) (known : names[k]? = some n) (place : String × Nat)
      (listed : place ∈ names.zipIdx) (named : place.1 = n) : place.2 = k := by
    obtain ⟨inside,same⟩ := List.getElem?_eq_some_iff.mp (List.mk_mem_zipIdx_iff_getElem?.mp listed)
    obtain ⟨inside_k,same_k⟩ := List.getElem?_eq_some_iff.mp known
    exact distinct.getElem_inj_iff.mp ((same.trans named).trans same_k.symm)
  refine ⟨?_,?_⟩
  · rintro ⟨group,kept,left,right⟩
    obtain ⟨place_x,listed_x,named_x,joined_x⟩ := key_of_member filed kept left
    obtain ⟨place_y,listed_y,named_y,joined_y⟩ := key_of_member filed kept right
    rw [position i x here place_x listed_x named_x] at joined_x
    rw [position j y there place_y listed_y named_y] at joined_y
    exact .trans _ _ _ joined_x (.symm _ _ joined_y)
  · intro joined
    obtain ⟨pair_x,in_x,only_x,root_x,joined_x⟩ := exists_of_forall₂ filed (List.mk_mem_zipIdx_iff_getElem?.mpr here)
    obtain ⟨pair_y,in_y,only_y,root_y,joined_y⟩ := exists_of_forall₂ filed (List.mk_mem_zipIdx_iff_getElem?.mpr there)
    have one_root : pair_x.1 = pair_y.1 :=
      root_unique root_x root_y (.trans _ _ _ (.symm _ _ joined_x) (.trans _ _ _ joined joined_y))
    obtain ⟨group,kept,key⟩ := List.mem_map.mp ((mem_groups pairs pair_x.1).mpr (List.mem_map_of_mem in_x))
    exact ⟨group,kept,member_of_key kept in_x key.symm only_x,
      member_of_key kept in_y (one_root.symm.trans key.symm) only_y⟩

private theorem group_nonempty {parent : List Nat} {places : List (String × Nat)} {pairs : List (Nat × List String)}
    (filed : List.Forall₂ (Filed parent) places pairs) {group : Nat × List String}
    (kept : group ∈ mergeAll Prod.fst appendItems pairs) : group.2 ≠ [] := by
  obtain ⟨pair,listed,key⟩ := List.mem_map.mp ((mem_groups pairs group.1).mp (List.mem_map_of_mem kept))
  obtain ⟨place,_,only,_⟩ := exists_of_forall₂ filed.flip listed
  exact List.ne_nil_of_mem (member_of_key kept listed key only)

private theorem sortNodes_perm (group : List String) : (sortNodes group).Perm group := List.perm_insertionSort _ _

/-- The communities are a partition of the nodes into the connected components, whatever order the map of groups
is read in. -/
theorem communities_components (hashOrder : List (Nat × List String) → List (Nat × List String))
    (reordered : ∀ groups, (hashOrder groups).Perm groups) (edges : List (Edge W)) :
    ∃ out, communities hashOrder edges = some out ∧
      (out.flatten.Nodup ∧ (∀ x, x ∈ out.flatten ↔ ∃ edge ∈ edges, x = edge.1 ∨ x = edge.2.1) ∧ ∀ group ∈ out, group ≠ []) ∧
      ∀ x ∈ nodes edges, ∀ y ∈ nodes edges, (∃ group ∈ out, x ∈ group ∧ y ∈ group) ↔
        Relation.EqvGen (fun a b => ∃ edge ∈ edges, edge.1 = a ∧ edge.2.1 = b) x y := by
  obtain ⟨parent,unions,merged⟩ := unions_merged edges
  obtain ⟨rank,ranked⟩ := merged.ranked
  have inside : ∀ place ∈ (nodes edges).zipIdx, place.2 < parent.length := by
    intro place listed
    rw [merged.size]
    exact (List.getElem?_eq_some_iff.mp (List.mk_mem_zipIdx_iff_getElem?.mp listed)).1
  obtain ⟨last,pairs,run,same,filed⟩ := groups_filed (nodes edges).zipIdx ranked inside []
  obtain ⟨out,made⟩ : ∃ out, out = ((hashOrder (mergeAll Prod.fst appendItems pairs)).map
    (fun group => sortNodes group.2)).insertionSort (fun a b => groupOrder a b = true) := ⟨_,rfl⟩
  have listing : out.Perm ((mergeAll Prod.fst appendItems pairs).map (fun group => sortNodes group.2)) :=
    made ▸ (List.perm_insertionSort _ _).trans ((reordered _).map _)
  have whole : out.flatten.Perm (nodes edges) := by
    have unsorted : ((mergeAll Prod.fst appendItems pairs).flatMap (fun group => sortNodes group.2)).Perm
        ((mergeAll Prod.fst appendItems pairs).flatMap Prod.snd) :=
      List.Perm.flatMap_left _ (fun group _ => sortNodes_perm group.2)
    rw [List.flatMap_def,List.flatMap_def] at unsorted
    refine listing.flatten.trans (unsorted.trans ((flatten_mergeAll pairs).trans ?_))
    rw [filed_flatten filed,List.zipIdx_map_fst]
  refine ⟨out,?_,⟨whole.nodup_iff.mpr (nodup_nodes edges),?_,?_⟩,?_⟩
  · simp only [communities,unions,run,Option.bind_eq_bind,Option.bind_some]
    rw [made]
    rfl
  · intro x
    rw [whole.mem_iff,mem_nodes]
  · intro group listed empty
    obtain ⟨kept,known,rfl⟩ := List.mem_map.mp (listing.mem_iff.mp listed)
    exact group_nonempty filed known ((empty ▸ sortNodes_perm kept.2).symm.eq_nil)
  · intro x x_in y y_in
    obtain ⟨i,here⟩ := List.mem_iff_getElem?.mp x_in
    obtain ⟨j,there⟩ := List.mem_iff_getElem?.mp y_in
    rw [← connected_iff edges here there,← merged.joined,← same.joined,← together_iff (nodup_nodes edges) filed here there]
    refine ⟨?_,?_⟩
    · rintro ⟨group,listed,left,right⟩
      obtain ⟨kept,known,rfl⟩ := List.mem_map.mp (listing.mem_iff.mp listed)
      exact ⟨kept,known,(sortNodes_perm kept.2).mem_iff.mp left,(sortNodes_perm kept.2).mem_iff.mp right⟩
    · rintro ⟨kept,known,left,right⟩
      exact ⟨sortNodes kept.2,listing.mem_iff.mpr (List.mem_map_of_mem known),
        (sortNodes_perm kept.2).mem_iff.mpr left,(sortNodes_perm kept.2).mem_iff.mpr right⟩

/-- Two clusters, one with a cycle and a self loop, the map of groups read backwards. -/
theorem communities_of_two :
    ∃ out, communities List.reverse [("a","b",()),("b","c",()),("c","a",()),("x","y",()),("y","y",())] = some out ∧
      (out.flatten.Nodup ∧ (∀ x, x ∈ out.flatten ↔
        ∃ edge ∈ [("a","b",()),("b","c",()),("c","a",()),("x","y",()),("y","y",())], x = edge.1 ∨ x = edge.2.1) ∧
          ∀ group ∈ out, group ≠ []) ∧
      ∀ x ∈ nodes [("a","b",()),("b","c",()),("c","a",()),("x","y",()),("y","y",())],
        ∀ y ∈ nodes [("a","b",()),("b","c",()),("c","a",()),("x","y",()),("y","y",())],
          (∃ group ∈ out, x ∈ group ∧ y ∈ group) ↔ Relation.EqvGen (fun a b =>
            ∃ edge ∈ [("a","b",()),("b","c",()),("c","a",()),("x","y",()),("y","y",())], edge.1 = a ∧ edge.2.1 = b) x y :=
  communities_components List.reverse List.reverse_perm _

example : communities List.reverse [("x","y",()),("a","b",()),("c","b",())] = some [["a","b","c"],["x","y"]] := by
  decide +kernel

end Ecphoria.Graph
