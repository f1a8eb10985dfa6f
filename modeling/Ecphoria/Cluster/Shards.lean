import Ecphoria.Library.Ring

/-! Routing of tenants to shards by consistent hashing, and the plans for changing the
number of shards. The operator keeps a copy of the ring of its own. -/
namespace Ecphoria
open Library

structure ShardMove where
  key : String
  fromShard : Nat
  toShard : Nat
deriving DecidableEq,Repr

structure ShardRouter where
  ring : Std.TreeMap UInt64 Nat
  shards : Nat

def vnodeName (s v : Nat) : String := s!"shard-{s}-vnode-{v}"

section
variable (hash : String → UInt64)

/-- The virtual nodes of one shard. A point that is taken changes its owner. -/
def insertShard (vnodes : Nat) (ring : Std.TreeMap UInt64 Nat) (s : Nat) : Std.TreeMap UInt64 Nat :=
  (List.range vnodes).foldl (fun ring v => ring.insert (hash (vnodeName s v)) s) ring

def shardRing (shards vnodes : Nat) : Std.TreeMap UInt64 Nat :=
  (List.range shards).foldl (insertShard hash vnodes) ∅

namespace ShardRouter

def new (shards vnodes : Nat) : ShardRouter :=
  ⟨shardRing hash (max shards 1) (max vnodes 1),max shards 1⟩

def shardFor (router : ShardRouter) (key : String) : Nat :=
  if router.shards = 1 then 0 else ((clockwise router.ring (hash key)).map Prod.snd).getD 0

def reshardMoves (router newRouter : ShardRouter) (keys : List String) : List ShardMove :=
  keys.filterMap (fun k =>
    let origin := router.shardFor hash k
    let target := newRouter.shardFor hash k
    if origin ≠ target then some ⟨k,origin,target⟩ else none)

end ShardRouter

structure ReconcilePlan where
  scaleTo : Nat
  moves : List ShardMove

def reconcilePlan (desired actual : Nat) (tenants : List String) : ReconcilePlan :=
  let old := ShardRouter.new hash (max actual 1) 128
  let new := ShardRouter.new hash (max desired 1) 128
  ⟨max desired 1,old.reshardMoves hash new tenants⟩

inductive ScaleDirection where
  | up
  | down
  | none
deriving DecidableEq,Repr

structure ScalePlan where
  direction : ScaleDirection
  scaleTo : Nat
  addShards : List Nat
  removeShards : List Nat
  moves : List ShardMove

def scalePlan (desired actual : Nat) (tenants : List String) : ScalePlan :=
  let desired := max desired 1
  let actual := max actual 1
  let moves := (reconcilePlan hash desired actual tenants).moves
  if actual < desired then ⟨.up,desired,List.range' actual (desired - actual),[],moves⟩
  else if desired < actual then ⟨.down,desired,[],List.range' desired (actual - desired),moves⟩
  else ⟨.none,desired,[],[],moves⟩

end

/-- FNV-1a of the bytes of a text, in 64 bits. -/
def shardHash (s : String) : UInt64 :=
  s.toUTF8.toList.foldl (fun h b => (h ^^^ b.toUInt64) * 0x100000001b3) 0xcbf29ce484222325

namespace Operator

def fnv1a (s : String) : UInt64 :=
  s.toUTF8.toList.foldl (fun h b => (h ^^^ b.toUInt64) * 0x100000001b3) 0xcbf29ce484222325

def ring (shards vnodes : Nat) : Std.TreeMap UInt64 Nat :=
  (List.range (max shards 1)).foldl (fun r s =>
    (List.range (max vnodes 1)).foldl (fun r v => r.insert (fnv1a (vnodeName s v)) s) r) ∅

def shardFor (ring : Std.TreeMap UInt64 Nat) (shards : Nat) (key : String) : Nat :=
  if shards ≤ 1 then 0 else ((clockwise ring (fnv1a key)).map Prod.snd).getD 0

def reconcileMoves (desired actual : Nat) (tenants : List String) : List ShardMove :=
  let a := max actual 1
  let d := max desired 1
  tenants.filterMap (fun t =>
    let origin := shardFor (ring a 128) a t
    let target := shardFor (ring d 128) d t
    if origin ≠ target then some ⟨t,origin,target⟩ else none)

end Operator

/-- Where the ring of a plan for this many shards has the keys. -/
def placement (hash : String → UInt64) (shards : Nat) : String → Nat :=
  (ShardRouter.new hash (max shards 1) 128).shardFor hash

def ShardMove.apply (placement : String → Nat) (move : ShardMove) : String → Nat :=
  if placement move.key = move.fromShard then Function.update placement move.key move.toShard else placement

def applyMoves (placement : String → Nat) (moves : List ShardMove) : String → Nat :=
  moves.foldl ShardMove.apply placement

section
variable (hash : String → UInt64)

theorem getElem?_insertShard {vnodes s a : Nat} {ring : Std.TreeMap UInt64 Nat} {k : UInt64} :
    (insertShard hash vnodes ring s)[k]? = some a ↔
      (a = s ∧ ∃ v < vnodes, hash (vnodeName s v) = k) ∨
        ring[k]? = some a ∧ ∀ v < vnodes, hash (vnodeName s v) ≠ k := by
  induction vnodes with
  | zero => simp [insertShard]
  | succ vnodes ih =>
    have grown : insertShard hash (vnodes + 1) ring s =
        (insertShard hash vnodes ring s).insert (hash (vnodeName s vnodes)) s := by
      simp [insertShard,List.range_succ]
    rw [grown,Std.TreeMap.getElem?_insert]
    by_cases here : hash (vnodeName s vnodes) = k
    · rw [if_pos (Std.LawfulEqCmp.compare_eq_iff_eq.mpr here)]
      constructor
      · intro same
        exact Or.inl ⟨(Option.some.inj same).symm,vnodes,Nat.lt_succ_self vnodes,here⟩
      · rintro (⟨rfl,_⟩ | ⟨_,apart⟩)
        · rfl
        · exact absurd here (apart vnodes (Nat.lt_succ_self vnodes))
    · rw [if_neg (fun same => here (Std.LawfulEqCmp.compare_eq_iff_eq.mp same)),ih]
      have split (P : Nat → Prop) : (∃ v < vnodes + 1, P v) ↔ (∃ v < vnodes, P v) ∨ P vnodes :=
        ⟨fun ⟨v,bound,holds⟩ => by
          rcases Nat.lt_succ_iff_lt_or_eq.mp bound with below | rfl
          · exact Or.inl ⟨v,below,holds⟩
          · exact Or.inr holds,
        fun given => by
          rcases given with ⟨v,below,holds⟩ | last
          · exact ⟨v,Nat.lt_succ_of_lt below,holds⟩
          · exact ⟨vnodes,Nat.lt_succ_self vnodes,last⟩⟩
      have all : (∀ v < vnodes + 1, hash (vnodeName s v) ≠ k) ↔ ∀ v < vnodes, hash (vnodeName s v) ≠ k := by
        constructor
        · intro given v below
          exact given v (Nat.lt_succ_of_lt below)
        · intro given v bound
          rcases Nat.lt_succ_iff_lt_or_eq.mp bound with below | rfl
          · exact given v below
          · exact here
      rw [split (fun v => hash (vnodeName s v) = k),all]
      simp [here]

theorem shardRing_succ (shards vnodes : Nat) :
    shardRing hash (shards + 1) vnodes = insertShard hash vnodes (shardRing hash shards vnodes) shards := by
  simp [shardRing,List.range_succ]

theorem owner_lt {shards vnodes a : Nat} {k : UInt64} (owned : (shardRing hash shards vnodes)[k]? = some a) :
    a < shards := by
  induction shards with
  | zero => simp [shardRing] at owned
  | succ shards ih =>
    rw [shardRing_succ,getElem?_insertShard] at owned
    rcases owned with ⟨rfl,_⟩ | ⟨before,_⟩
    · exact Nat.lt_succ_self a
    · exact Nat.lt_succ_of_lt (ih before)

/-- A larger ring has the points of a smaller one, and of the points it gives to the shards of the smaller ring all
are there, with the same owner. -/
theorem shardRing_grown {n m : Nat} (vnodes : Nat) (le : n ≤ m) (k : UInt64) :
    (∀ a, (shardRing hash n vnodes)[k]? = some a → ∃ b, (shardRing hash m vnodes)[k]? = some b) ∧
      ∀ a < n, (shardRing hash m vnodes)[k]? = some a → (shardRing hash n vnodes)[k]? = some a := by
  induction le with
  | refl => exact ⟨fun a owned => ⟨a,owned⟩,fun a _ owned => owned⟩
  | @step m le ih =>
    rw [shardRing_succ]
    refine ⟨?_,?_⟩
    · intro a owned
      obtain ⟨b,before⟩ := ih.1 a owned
      by_cases taken : ∃ v < vnodes, hash (vnodeName m v) = k
      · exact ⟨m,(getElem?_insertShard hash).mpr (Or.inl ⟨rfl,taken⟩)⟩
      · refine ⟨b,(getElem?_insertShard hash).mpr (Or.inr ⟨before,?_⟩)⟩
        intro v below same
        exact taken ⟨v,below,same⟩
    · intro a small owned
      rcases (getElem?_insertShard hash).mp owned with ⟨rfl,_⟩ | ⟨before,_⟩
      · exact absurd small (Nat.not_lt.mpr le)
      · exact ih.2 a small before

theorem shardRing_point {shards vnodes : Nat} (some_shard : 0 < shards) (some_node : 0 < vnodes) :
    ∃ (k : UInt64) (a : Nat), (shardRing hash shards vnodes)[k]? = some a := by
  have first : (shardRing hash 1 vnodes)[hash (vnodeName 0 0)]? = some 0 := by
    rw [shardRing_succ,getElem?_insertShard]
    exact Or.inl ⟨rfl,0,some_node,rfl⟩
  obtain ⟨a,owned⟩ := (shardRing_grown hash vnodes some_shard (hash (vnodeName 0 0))).1 0 first
  exact ⟨_,a,owned⟩

theorem shardFor_new (shards vnodes : Nat) (key : String) :
    ∃ k, clockwise (shardRing hash (max shards 1) (max vnodes 1)) (hash key) =
        some (k,(ShardRouter.new hash shards vnodes).shardFor hash key) ∧
      (ShardRouter.new hash shards vnodes).shardFor hash key < max shards 1 := by
  obtain ⟨point,a,owned⟩ := shardRing_point hash (Nat.lt_of_lt_of_le Nat.zero_lt_one (Nat.le_max_right shards 1))
    (Nat.lt_of_lt_of_le Nat.zero_lt_one (Nat.le_max_right vnodes 1))
  obtain ⟨entry,found⟩ := clockwise_isSome owned (hash key)
  have bound := owner_lt hash (clockwise_mem found)
  have routed : (ShardRouter.new hash shards vnodes).shardFor hash key = entry.2 := by
    simp only [ShardRouter.shardFor,ShardRouter.new,found]
    split
    next single => omega
    next => rfl
  rw [routed]
  exact ⟨entry.1,found,bound⟩

theorem shardFor_eq_of_lt {n m : Nat} (vnodes : Nat) (le : max n 1 ≤ max m 1) (key : String)
    (kept : (ShardRouter.new hash m vnodes).shardFor hash key < max n 1) :
    (ShardRouter.new hash m vnodes).shardFor hash key = (ShardRouter.new hash n vnodes).shardFor hash key := by
  obtain ⟨k,found,_⟩ := shardFor_new hash m vnodes key
  obtain ⟨_,found',_⟩ := shardFor_new hash n vnodes key
  have grown := shardRing_grown hash (max vnodes 1) le
  have owned := (grown k).2 _ kept (clockwise_mem found)
  have same := clockwise_of_smaller (fun k a inside => (grown k).1 a inside) found owned
  exact (Prod.mk.inj (Option.some.inj (same.symm.trans found'))).2

/-- Between a smaller and a larger number of shards a key keeps its shard, unless the larger ring has it on a shard
that the smaller one lacks; then the smaller one has it on one of its own. -/
theorem shardFor_scaled (vnodes n m : Nat) (fewer : n < m) (key : String) :
    let small := (ShardRouter.new hash n vnodes).shardFor hash key
    let large := (ShardRouter.new hash m vnodes).shardFor hash key
    (large = small ∨ n ≤ large) ∧ (large < n → large = small) ∧
      (large ≠ small → max n 1 ≤ large ∧ large < m ∧ small < max n 1) := by
  have le : max n 1 ≤ max m 1 := by omega
  obtain ⟨_,_,below⟩ := shardFor_new hash m vnodes key
  obtain ⟨_,_,within⟩ := shardFor_new hash n vnodes key
  have kept := shardFor_eq_of_lt hash vnodes le key
  refine ⟨?_,?_,?_⟩
  · by_cases low : (ShardRouter.new hash m vnodes).shardFor hash key < n
    · exact Or.inl (kept (by omega))
    · exact Or.inr (by omega)
  · intro low
    exact kept (by omega)
  · intro moved
    have high : max n 1 ≤ (ShardRouter.new hash m vnodes).shardFor hash key := by
      by_contra low
      exact moved (kept (by omega))
    exact ⟨high,by omega,within⟩

theorem shardFor_scaled_two :
    (1 : Nat) < 2 ∧
      (let small := (ShardRouter.new shardHash 1 128).shardFor shardHash "acme"
      let large := (ShardRouter.new shardHash 2 128).shardFor shardHash "acme"
      (large = small ∨ 1 ≤ large) ∧ (large < 1 → large = small) ∧
        (large ≠ small → max 1 1 ≤ large ∧ large < 2 ∧ small < max 1 1)) :=
  ⟨by decide,shardFor_scaled shardHash 128 1 2 (by decide) "acme"⟩

theorem reshardMoves_of_key (old new : ShardRouter) {keys : List String} (distinct : keys.Nodup) (t : String) :
    (old.reshardMoves hash new keys).filter (fun move => move.key = t) =
      if t ∈ keys ∧ old.shardFor hash t ≠ new.shardFor hash t then
        [⟨t,old.shardFor hash t,new.shardFor hash t⟩] else [] := by
  induction keys with
  | nil => simp [ShardRouter.reshardMoves]
  | cons key keys ih =>
    obtain ⟨absent,distinct⟩ := List.nodup_cons.mp distinct
    have rest := ih distinct
    by_cases here : t = key
    · subst here
      rw [if_neg (fun given => absent given.1)] at rest
      by_cases moved : old.shardFor hash t = new.shardFor hash t
      · simpa [ShardRouter.reshardMoves,moved] using rest
      · simpa [ShardRouter.reshardMoves,moved] using rest
    · by_cases moved : old.shardFor hash key = new.shardFor hash key
      · simpa [ShardRouter.reshardMoves,moved,here] using rest
      · simpa [ShardRouter.reshardMoves,moved,here,Ne.symm here] using rest

theorem mem_reshardMoves {old new : ShardRouter} {keys : List String} {move : ShardMove}
    (listed : move ∈ old.reshardMoves hash new keys) :
    move.toShard = new.shardFor hash move.key ∧ old.shardFor hash move.key ≠ new.shardFor hash move.key := by
  obtain ⟨key,_,made⟩ := List.mem_filterMap.mp listed
  dsimp only at made
  split at made
  next moved =>
    cases made
    exact ⟨rfl,moved⟩
  next => cases made

theorem applyMoves_reshardMoves (old new : ShardRouter) (keys : List String) (placement : String → Nat)
    (placed : ∀ t ∈ keys, placement t = old.shardFor hash t ∨ placement t = new.shardFor hash t) (t : String) :
    applyMoves placement (old.reshardMoves hash new keys) t =
      if t ∈ keys then new.shardFor hash t else placement t := by
  induction keys generalizing placement with
  | nil => rfl
  | cons key keys ih =>
    have stepped : applyMoves placement (old.reshardMoves hash new (key :: keys)) =
        applyMoves (Function.update placement key (new.shardFor hash key)) (old.reshardMoves hash new keys) := by
      by_cases moved : old.shardFor hash key = new.shardFor hash key
      · have there : placement key = new.shardFor hash key := (placed key List.mem_cons_self).elim
          (fun before => before.trans moved) id
        rw [← there,Function.update_eq_self]
        simp [ShardRouter.reshardMoves,moved]
      · have first : old.reshardMoves hash new (key :: keys) =
            ⟨key,old.shardFor hash key,new.shardFor hash key⟩ :: old.reshardMoves hash new keys := by
          simp [ShardRouter.reshardMoves,moved]
        rw [first,applyMoves,List.foldl_cons,ShardMove.apply]
        rcases placed key List.mem_cons_self with before | after
        · rw [if_pos before]
          rfl
        · rw [if_neg (fun before => moved (before.symm.trans after)),← after,Function.update_eq_self]
          rfl
    rw [stepped,ih]
    · by_cases here : t = key
      · subst here
        simp
      · simp [here]
    · intro other inside
      by_cases here : other = key
      · subst here
        exact Or.inr (Function.update_self ..)
      · rw [Function.update_of_ne here]
        exact placed other (List.mem_cons_of_mem key inside)

theorem scalePlan_moves (desired actual : Nat) (tenants : List String) :
    (scalePlan hash desired actual tenants).moves =
      (ShardRouter.new hash (max actual 1) 128).reshardMoves hash (ShardRouter.new hash (max desired 1) 128) tenants := by
  have moves : (reconcilePlan hash (max desired 1) (max actual 1) tenants).moves =
      (ShardRouter.new hash (max actual 1) 128).reshardMoves hash
        (ShardRouter.new hash (max desired 1) 128) tenants := by
    simp [reconcilePlan]
  rw [← moves]
  simp only [scalePlan]
  split
  next => rfl
  next =>
    split
    next => rfl
    next => rfl

theorem mem_removeShards (desired actual : Nat) (tenants : List String) (s : Nat) :
    s ∈ (scalePlan hash desired actual tenants).removeShards ↔ max desired 1 ≤ s ∧ s < max actual 1 := by
  simp only [scalePlan]
  split
  next => simp; omega
  next =>
    split
    next => simp only [List.mem_range'_1]; omega
    next => simp; omega

theorem mem_addShards (desired actual : Nat) (tenants : List String) (s : Nat) :
    s ∈ (scalePlan hash desired actual tenants).addShards ↔ max actual 1 ≤ s ∧ s < max desired 1 := by
  simp only [scalePlan]
  split
  next => simp only [List.mem_range'_1]; omega
  next =>
    split
    next => simp; omega
    next => simp; omega

theorem reconcileMoves_eq (desired actual : Nat) (tenants : List String) :
    Operator.reconcileMoves desired actual tenants = (scalePlan shardHash desired actual tenants).moves := by
  have routed (shards : Nat) (t : String) :
      Operator.shardFor (Operator.ring (max shards 1) 128) (max shards 1) t =
        (ShardRouter.new shardHash (max shards 1) 128).shardFor shardHash t := by
    have rings : Operator.ring (max shards 1) 128 = shardRing shardHash (max (max shards 1) 1) 128 := rfl
    rw [Operator.shardFor,rings,ShardRouter.shardFor]
    by_cases single : max shards 1 = 1
    · simp [ShardRouter.new,single]
    · have several : ¬max shards 1 ≤ 1 := by omega
      simp only [ShardRouter.new,several,if_false,Nat.max_assoc,Nat.max_self,single]
      rfl
  rw [scalePlan_moves]
  simp only [Operator.reconcileMoves,ShardRouter.reshardMoves,routed]

theorem placement_lt (shards : Nat) (t : String) : placement hash shards t < max shards 1 := by
  obtain ⟨_,_,bound⟩ := shardFor_new hash (max shards 1) 128 t
  rwa [Nat.max_assoc,Nat.max_self] at bound

theorem placement_of_lt {fewer more : Nat} (le : max fewer 1 ≤ max more 1) {t : String}
    (kept : placement hash more t < max fewer 1) : placement hash more t = placement hash fewer t := by
  refine shardFor_eq_of_lt hash 128 ?_ t ?_
  · rwa [Nat.max_assoc,Nat.max_self,Nat.max_assoc,Nat.max_self]
  · rwa [Nat.max_assoc,Nat.max_self]

/-- The moves of a plan take the tenants from where the old ring has them to where the new one does: off the shards
that go and no others, onto the shards that come and no others. -/
theorem scalePlan_places (desired actual : Nat) (tenants : List String) (distinct : tenants.Nodup) :
    (∀ t ∈ tenants, applyMoves (placement hash actual) (scalePlan hash desired actual tenants).moves t =
        placement hash desired t) ∧
      (max desired 1 < max actual 1 → ∀ t ∈ tenants,
        (scalePlan hash desired actual tenants).moves.filter (fun move => move.key = t) =
          (if placement hash actual t ∈ (scalePlan hash desired actual tenants).removeShards then
            [⟨t,placement hash actual t,placement hash desired t⟩] else []) ∧
          (placement hash actual t ∈ (scalePlan hash desired actual tenants).removeShards →
            placement hash desired t < max desired 1)) ∧
      (max actual 1 < max desired 1 → ∀ move ∈ (scalePlan hash desired actual tenants).moves,
        move.toShard ∈ (scalePlan hash desired actual tenants).addShards) ∧
      (max desired 1 = max actual 1 → (scalePlan hash desired actual tenants).moves = []) ∧
      Operator.reconcileMoves desired actual tenants = (scalePlan shardHash desired actual tenants).moves := by
  have moves := scalePlan_moves hash desired actual tenants
  refine ⟨?_,?_,?_,?_,reconcileMoves_eq desired actual tenants⟩
  · intro t inside
    have placed := applyMoves_reshardMoves hash (ShardRouter.new hash (max actual 1) 128)
      (ShardRouter.new hash (max desired 1) 128) tenants (placement hash actual) (fun _ _ => Or.inl rfl) t
    rw [moves,placed,if_pos inside]
    rfl
  · intro shrinking t inside
    have leaves : placement hash actual t ∈ (scalePlan hash desired actual tenants).removeShards ↔
        placement hash actual t ≠ placement hash desired t := by
      rw [mem_removeShards]
      constructor
      · intro given same
        have := placement_lt hash desired t
        omega
      · intro moved
        refine ⟨?_,placement_lt hash actual t⟩
        by_contra low
        exact moved (placement_of_lt hash (by omega) (by omega))
    refine ⟨?_,fun _ => placement_lt hash desired t⟩
    rw [moves,reshardMoves_of_key hash _ _ distinct]
    simp only [leaves,inside,true_and]
    rfl
  · intro growing move listed
    rw [moves] at listed
    obtain ⟨target,moved⟩ := mem_reshardMoves hash listed
    have lands : move.toShard = placement hash desired move.key := target
    rw [mem_addShards,lands]
    refine ⟨?_,placement_lt hash desired move.key⟩
    by_contra low
    exact moved (placement_of_lt hash (by omega) (by omega)).symm
  · intro same
    rw [moves,same]
    simp [ShardRouter.reshardMoves]

end

theorem placement_of_point (shards s v : Nat) (several : s + 1 = shards) (node : v < 128) :
    placement shardHash shards (vnodeName s v) = s := by
  subst several
  have owned : (shardRing shardHash (s + 1) 128)[shardHash (vnodeName s v)]? = some s := by
    rw [shardRing_succ,getElem?_insertShard]
    exact Or.inl ⟨rfl,v,node,rfl⟩
  obtain ⟨k,found,_⟩ := shardFor_new shardHash (s + 1) 128 (vnodeName s v)
  have same : max (s + 1) 1 = s + 1 := by omega
  rw [same,show max 128 1 = 128 from rfl,clockwise_here owned] at found
  unfold placement
  rw [same]
  exact (Prod.mk.inj (Option.some.inj found)).2.symm

theorem scalePlan_places_one : ["acme"].Nodup ∧
    ((∀ t ∈ ["acme"], applyMoves (placement shardHash 3) (scalePlan shardHash 1 3 ["acme"]).moves t =
        placement shardHash 1 t) ∧
      (max 1 1 < max 3 1 → ∀ t ∈ ["acme"],
        (scalePlan shardHash 1 3 ["acme"]).moves.filter (fun move => move.key = t) =
          (if placement shardHash 3 t ∈ (scalePlan shardHash 1 3 ["acme"]).removeShards then
            [⟨t,placement shardHash 3 t,placement shardHash 1 t⟩] else []) ∧
          (placement shardHash 3 t ∈ (scalePlan shardHash 1 3 ["acme"]).removeShards →
            placement shardHash 1 t < max 1 1)) ∧
      (max 3 1 < max 1 1 → ∀ move ∈ (scalePlan shardHash 1 3 ["acme"]).moves,
        move.toShard ∈ (scalePlan shardHash 1 3 ["acme"]).addShards) ∧
      (max 1 1 = max 3 1 → (scalePlan shardHash 1 3 ["acme"]).moves = []) ∧
      Operator.reconcileMoves 1 3 ["acme"] = (scalePlan shardHash 1 3 ["acme"]).moves) :=
  ⟨by decide,scalePlan_places shardHash 1 3 ["acme"] (by decide)⟩

end Ecphoria
