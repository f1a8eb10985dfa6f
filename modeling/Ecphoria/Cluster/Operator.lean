import Ecphoria.Cluster.Shards
import Ecphoria.Data
import Ecphoria.Library.Transition
import Mathlib.Data.List.Dedup

/-! The operator that keeps as many shards as its plan asks for. A pass counts the shards that
stand, plans the moves between the ring of that count and the ring of the plan, and creates
or deletes shards around them. -/
namespace Ecphoria
open Library

inductive TenantStore where
  | events
  | memories
  | state
deriving DecidableEq,Repr

structure Piece where
  shard : Nat
  store : TenantStore
  tenant : String
deriving DecidableEq,Repr

/-- The StatefulSets of the namespace, and the data of the shards. The volume of a deleted shard is left behind. -/
structure Fleet where
  sets : List String
  data : List Piece

structure ShardPlan where
  shards : Nat
  release : String
  shardBaseUrls : List String
  tenantsAnnotation : Option String

inductive Rebalanced where
  | confirmed
  | failed (moved : TenantStore → Bool)

/-- How the calls of one pass end. A query answers no more than `maxRows` rows. -/
structure PassAnswers where
  listed : Bool
  queried : Bool
  maxRows : Nat
  template : Bool
  created : Nat → Bool
  rebalanced : Nat → Rebalanced
  deleted : Nat → Bool

namespace Operator

def shardName (plan : ShardPlan) (i : Nat) : String := s!"{plan.release}-shard-{i}"

def countShards (plan : ShardPlan) (s : Fleet) : Nat :=
  max (s.sets.filter (fun name => (plan.release ++ "-shard-").toList.isPrefixOf name.toList)).length 1

/-- `SELECT DISTINCT tenant_id FROM episodic` on shard 0. -/
def queryTenants (s : Fleet) : List String :=
  ((s.data.filter (fun p => p.shard = 0 && p.store = .events)).map Piece.tenant).dedup

def annotatedTenants (text : String) : List String :=
  ((text.toList.splitOn ',').map (fun part => trim (String.ofList part))).filter (fun t => !t.isEmpty)

def discoverTenants (plan : ShardPlan) (a : PassAnswers) (s : Fleet) : Option (List String) :=
  if !plan.shardBaseUrls.isEmpty && a.queried then some ((queryTenants s).take a.maxRows)
  else plan.tenantsAnnotation.map annotatedTenants

/-- The pieces of the tenant on the source that are in the stores moved. -/
def rebalance (move : ShardMove) (moved : TenantStore → Bool) (p : Piece) : Piece :=
  if p.tenant = move.key ∧ p.shard = move.fromShard ∧ moved p.store = true then { p with shard := move.toShard } else p

def moveOne (plan : ShardPlan) (a : PassAnswers) (s : Bool × List Piece) (item : ShardMove × Nat) : Bool × List Piece :=
  match plan.shardBaseUrls[item.1.fromShard]? with
  | none => (false,s.2)
  | some _ =>
    match a.rebalanced item.2 with
    | .confirmed => (s.1,s.2.map (rebalance item.1 (fun _ => true)))
    | .failed moved => (false,s.2.map (rebalance item.1 moved))

def applyMoves (plan : ShardPlan) (a : PassAnswers) (moves : List ShardMove) (data : List Piece) : Bool × List Piece :=
  moves.zipIdx.foldl (moveOne plan a) (true,data)

def safeToDeleteAfterDrain (tenantsKnown allMovesConfirmed : Bool) : Bool := tenantsKnown && allMovesConfirmed

def scaleUp (plan : ShardPlan) (a : PassAnswers) (sets : List String) (actual desired : Nat) : List String :=
  if a.template && shardName plan 0 ∈ sets then
    (List.range' actual (desired - actual)).foldl (fun sets i =>
      if a.created i && shardName plan i ∉ sets then sets ++ [shardName plan i] else sets) sets
  else sets

def deletions (plan : ShardPlan) (a : PassAnswers) (sets : List String) (desired actual : Nat) : List Nat :=
  (List.range' desired (actual - desired)).filter (fun i => a.deleted i && shardName plan i ∈ sets)

def scaleDown (plan : ShardPlan) (a : PassAnswers) (sets : List String) (desired actual : Nat) : List String :=
  sets.filter (fun name => name ∉ (deletions plan a sets desired actual).map (shardName plan))

/-- What a pass leaves, and the shards it deletes. They are deleted when the moves of the pass have been made. -/
structure Pass where
  fleet : Fleet
  deleted : List Nat

def reconcile (plan : ShardPlan) (a : PassAnswers) (s : Fleet) : Pass :=
  if a.listed then
    let desired := max plan.shards 1
    let actual := countShards plan s
    let discovered := discoverTenants plan a s
    let moves := reconcileMoves desired actual (discovered.getD [])
    if actual < desired then ⟨⟨scaleUp plan a s.sets actual desired,(applyMoves plan a moves s.data).2⟩,[]⟩
    else if desired < actual then
      let (allMovesConfirmed,data) := if discovered.isSome then applyMoves plan a moves s.data else (false,s.data)
      if safeToDeleteAfterDrain discovered.isSome allMovesConfirmed then
        ⟨⟨scaleDown plan a s.sets desired actual,data⟩,deletions plan a s.sets desired actual⟩
      else ⟨⟨s.sets,data⟩,[]⟩
    else ⟨⟨s.sets,(applyMoves plan a moves s.data).2⟩,[]⟩
  else ⟨s,[]⟩

def step (s : Fleet) (pass : ShardPlan × PassAnswers) : Fleet := (reconcile pass.1 pass.2 s).fleet

section
variable (plan : ShardPlan) (a : PassAnswers)

def moveConfirmed (item : ShardMove × Nat) : Bool :=
  (plan.shardBaseUrls[item.1.fromShard]?).isSome && match a.rebalanced item.2 with
    | .confirmed => true
    | .failed _ => false

/-- What a call moves: everything when it is confirmed, nothing when the source has no address. -/
def movedStores (item : ShardMove × Nat) (store : TenantStore) : Bool :=
  (plan.shardBaseUrls[item.1.fromShard]?).isSome && match a.rebalanced item.2 with
    | .confirmed => true
    | .failed moved => moved store

def carry (items : List (ShardMove × Nat)) (p : Piece) : Piece :=
  items.foldl (fun p item => rebalance item.1 (movedStores plan a item) p) p

theorem moveOne_eq (s : Bool × List Piece) (item : ShardMove × Nat) :
    moveOne plan a s item =
      (s.1 && moveConfirmed plan a item,s.2.map (rebalance item.1 (movedStores plan a item))) := by
  have kept : rebalance item.1 (fun _ => false) = id := by
    funext p
    simp [rebalance]
  unfold moveOne moveConfirmed movedStores
  cases plan.shardBaseUrls[item.1.fromShard]? with
  | none => simp [kept]
  | some url =>
    cases a.rebalanced item.2 with
    | confirmed => simp
    | failed moved => simp

theorem applyMoves_eq (moves : List ShardMove) (data : List Piece) : applyMoves plan a moves data =
    (moves.zipIdx.all (moveConfirmed plan a),data.map (carry plan a moves.zipIdx)) := by
  have folded (items : List (ShardMove × Nat)) (s : Bool × List Piece) : items.foldl (moveOne plan a) s =
      (s.1 && items.all (moveConfirmed plan a),s.2.map (carry plan a items)) := by
    induction items generalizing s with
    | nil =>
      have none : carry plan a [] = id := rfl
      simp [none]
    | cons item items ih =>
      rw [List.foldl_cons,ih,moveOne_eq,List.all_cons,Bool.and_assoc,List.map_map]
      rfl
  rw [applyMoves,folded,Bool.true_and]

end

theorem mem_reconcileMoves {desired actual : Nat} {tenants : List String} {move : ShardMove} :
    move ∈ reconcileMoves desired actual tenants ↔ move.key ∈ tenants ∧
      move.fromShard = placement shardHash actual move.key ∧ move.toShard = placement shardHash desired move.key ∧
      move.fromShard ≠ move.toShard := by
  rw [reconcileMoves_eq,scalePlan_moves]
  simp only [ShardRouter.reshardMoves,List.mem_filterMap]
  constructor
  · rintro ⟨t,inside,made⟩
    split at made
    next moved =>
      cases made
      exact ⟨inside,rfl,rfl,moved⟩
    next => cases made
  · rintro ⟨inside,origin,target,moved⟩
    refine ⟨move.key,inside,?_⟩
    rw [origin,target] at moved
    show (if placement shardHash actual move.key ≠ placement shardHash desired move.key then
      some ⟨move.key,placement shardHash actual move.key,placement shardHash desired move.key⟩ else none) = some move
    rw [if_pos moved,← origin,← target]

/-- Every move takes a tenant of the list from where one placement has it to where another does. -/
def Routed (origin target : String → Nat) (tenants : List String) (items : List (ShardMove × Nat)) : Prop :=
  ∀ item ∈ items, item.1.key ∈ tenants ∧ item.1.fromShard = origin item.1.key ∧ item.1.toShard = target item.1.key ∧
    origin item.1.key ≠ target item.1.key

theorem reconcileMoves_routed (desired actual : Nat) (tenants : List String) :
    Routed (placement shardHash actual) (placement shardHash desired) tenants
      (reconcileMoves desired actual tenants).zipIdx := by
  intro item listed
  obtain ⟨inside,origin,target,moved⟩ := mem_reconcileMoves.mp (List.fst_mem_of_mem_zipIdx listed)
  rw [origin,target] at moved
  exact ⟨inside,origin,target,moved⟩

section
variable {plan : ShardPlan} {a : PassAnswers} {origin target : String → Nat} {tenants : List String}
variable {items : List (ShardMove × Nat)}

theorem carry_cases (routed : Routed origin target tenants items) (p : Piece) : carry plan a items p = p ∨
    p.tenant ∈ tenants ∧ p.shard = origin p.tenant ∧ carry plan a items p = { p with shard := target p.tenant } := by
  induction items generalizing p with
  | nil => exact Or.inl rfl
  | cons item items ih =>
    obtain ⟨inside,start,finish,apart⟩ := routed item List.mem_cons_self
    have rest := ih (fun other listed => routed other (List.mem_cons_of_mem item listed))
    change carry plan a items (rebalance item.1 (movedStores plan a item) p) = p ∨ _ ∧ _ ∧
      carry plan a items (rebalance item.1 (movedStores plan a item) p) = _
    by_cases taken : p.tenant = item.1.key ∧ p.shard = item.1.fromShard ∧ movedStores plan a item p.store = true
    · have moved : rebalance item.1 (movedStores plan a item) p = { p with shard := target p.tenant } := by
        rw [rebalance,if_pos taken,finish,taken.1]
      obtain ⟨named,here,_⟩ := taken
      rw [moved]
      refine Or.inr ⟨named ▸ inside,by rw [here,start,named],?_⟩
      rcases rest { p with shard := target p.tenant } with stays | ⟨_,back,_⟩
      · exact stays
      · simp only [named] at back
        exact absurd back.symm apart
    · have stays : rebalance item.1 (movedStores plan a item) p = p := if_neg taken
      rw [stays]
      exact rest p

theorem carry_confirmed (routed : Routed origin target tenants items) (confirmed : items.all (moveConfirmed plan a) = true)
    {p : Piece} (listed : ∃ item ∈ items, item.1.key = p.tenant) (here : p.shard = origin p.tenant) :
    (carry plan a items p).shard = target p.tenant := by
  induction items with
  | nil =>
    obtain ⟨item,inside,_⟩ := listed
    cases inside
  | cons item items ih =>
    obtain ⟨_,start,finish,apart⟩ := routed item List.mem_cons_self
    have later : Routed origin target tenants items := fun other inside => routed other (List.mem_cons_of_mem item inside)
    rw [List.all_cons,Bool.and_eq_true] at confirmed
    change (carry plan a items (rebalance item.1 (movedStores plan a item) p)).shard = _
    have whole : movedStores plan a item p.store = true := by
      have ok := confirmed.1
      unfold moveConfirmed at ok
      unfold movedStores
      cases answer : a.rebalanced item.2 with
      | confirmed => simpa [answer] using ok
      | failed moved => simp [answer] at ok
    by_cases named : p.tenant = item.1.key
    · have moved : rebalance item.1 (movedStores plan a item) p = { p with shard := target p.tenant } := by
        rw [rebalance,if_pos ⟨named,by rw [here,start,named],whole⟩,finish,named]
      rw [moved]
      rcases carry_cases later { p with shard := target p.tenant } with stays | ⟨_,_,again⟩
      · rw [stays]
      · rw [again]
    · have stays : rebalance item.1 (movedStores plan a item) p = p := if_neg (fun taken => named taken.1)
      rw [stays]
      refine ih later confirmed.2 ?_
      obtain ⟨other,inside,same⟩ := listed
      rcases List.mem_cons.mp inside with rfl | after
      · exact absurd same.symm named
      · exact ⟨other,after,same⟩

end

section
variable (plan : ShardPlan) (a : PassAnswers) (s : Fleet)

/-- The moves of the pass are planned for these tenants, and all are confirmed. -/
def AllConfirmed (tenants : List String) : Prop :=
  (reconcileMoves (max plan.shards 1) (countShards plan s) tenants).zipIdx.all (moveConfirmed plan a) = true

def carried (tenants : List String) (p : Piece) : Piece :=
  carry plan a (reconcileMoves (max plan.shards 1) (countShards plan s) tenants).zipIdx p

end

section
variable {plan : ShardPlan} {a : PassAnswers} {s : Fleet}

theorem placement_desired (shards : Nat) : placement shardHash (max shards 1) = placement shardHash shards := by
  unfold placement
  rw [Nat.max_assoc,Nat.max_self]

variable (plan a s) in
theorem carried_cases (tenants : List String) (p : Piece) : carried plan a s tenants p = p ∨
    p.tenant ∈ tenants ∧ p.shard = placement shardHash (countShards plan s) p.tenant ∧
      carried plan a s tenants p = { p with shard := placement shardHash plan.shards p.tenant } := by
  have cases := @carry_cases plan a _ _ _ _
    (reconcileMoves_routed (max plan.shards 1) (countShards plan s) tenants) p
  rwa [placement_desired] at cases

theorem carried_confirmed {tenants : List String} (confirmed : AllConfirmed plan a s tenants) {p : Piece}
    (listed : p.tenant ∈ tenants) (here : p.shard = placement shardHash (countShards plan s) p.tenant) :
    (carried plan a s tenants p).shard = placement shardHash plan.shards p.tenant := by
  by_cases same : placement shardHash (countShards plan s) p.tenant = placement shardHash plan.shards p.tenant
  · rcases carried_cases plan a s tenants p with stays | ⟨_,_,moved⟩
    · rw [stays,here,same]
    · rw [moved]
  · have routed := reconcileMoves_routed (max plan.shards 1) (countShards plan s) tenants
    rw [placement_desired] at routed
    refine carry_confirmed routed confirmed ?_ here
    have planned : (⟨p.tenant,placement shardHash (countShards plan s) p.tenant,
        placement shardHash plan.shards p.tenant⟩ : ShardMove) ∈
        reconcileMoves (max plan.shards 1) (countShards plan s) tenants := by
      rw [mem_reconcileMoves,placement_desired]
      exact ⟨listed,rfl,rfl,same⟩
    obtain ⟨i,bound,found⟩ := List.mem_iff_getElem.mp planned
    exact ⟨(_,i),List.mk_mem_zipIdx_iff_getElem?.mpr ((List.getElem?_eq_getElem bound).trans (congrArg some found)),rfl⟩

theorem reconcile_unlisted (failed : a.listed = false) : reconcile plan a s = ⟨s,[]⟩ := by
  simp [reconcile,failed]

theorem reconcile_grows (listed : a.listed = true) (fewer : countShards plan s < max plan.shards 1) :
    reconcile plan a s =
      ⟨⟨scaleUp plan a s.sets (countShards plan s) (max plan.shards 1),
        s.data.map (carried plan a s ((discoverTenants plan a s).getD []))⟩,[]⟩ := by
  simp only [reconcile,listed,if_true,fewer,applyMoves_eq]
  rfl

theorem reconcile_steady (listed : a.listed = true) (same : countShards plan s = max plan.shards 1) :
    reconcile plan a s = ⟨⟨s.sets,s.data.map (carried plan a s ((discoverTenants plan a s).getD []))⟩,[]⟩ := by
  have up : ¬countShards plan s < max plan.shards 1 := by omega
  have down : ¬max plan.shards 1 < countShards plan s := by omega
  simp only [reconcile,listed,if_true,if_neg up,if_neg down,applyMoves_eq]
  rfl

theorem reconcile_drained (listed : a.listed = true) (more : max plan.shards 1 < countShards plan s)
    {tenants : List String} (found : discoverTenants plan a s = some tenants) (confirmed : AllConfirmed plan a s tenants) :
    reconcile plan a s =
      ⟨⟨scaleDown plan a s.sets (max plan.shards 1) (countShards plan s),s.data.map (carried plan a s tenants)⟩,
        deletions plan a s.sets (max plan.shards 1) (countShards plan s)⟩ := by
  have up : ¬countShards plan s < max plan.shards 1 := by omega
  unfold AllConfirmed at confirmed
  simp only [reconcile,listed,if_true,if_neg up,if_pos more,found,Option.isSome_some,Option.getD_some,
    applyMoves_eq,confirmed,safeToDeleteAfterDrain,Bool.and_self]
  rfl

/-- A shrinking pass that does not know the tenants, or whose drain is not confirmed, deletes nothing. -/
theorem reconcile_blocked (listed : a.listed = true) (more : max plan.shards 1 < countShards plan s)
    (blocked : ∀ tenants, discoverTenants plan a s = some tenants → ¬AllConfirmed plan a s tenants) :
    reconcile plan a s = ⟨⟨s.sets,match discoverTenants plan a s with
      | none => s.data
      | some tenants => s.data.map (carried plan a s tenants)⟩,[]⟩ := by
  have up : ¬countShards plan s < max plan.shards 1 := by omega
  simp only [reconcile,listed,if_true,if_neg up,if_pos more]
  cases found : discoverTenants plan a s with
  | none => simp [safeToDeleteAfterDrain]
  | some tenants =>
    have partly : (reconcileMoves (max plan.shards 1) (countShards plan s) tenants).zipIdx.all
        (moveConfirmed plan a) = false := Bool.not_eq_true _ ▸ blocked tenants found
    simp only [Option.isSome_some,if_true,Option.getD_some,applyMoves_eq,partly,safeToDeleteAfterDrain,
      Bool.and_false,Bool.false_eq_true,if_false]
    rfl

theorem mem_deletions {sets : List String} {desired actual i : Nat} :
    i ∈ deletions plan a sets desired actual ↔
      (desired ≤ i ∧ i < actual) ∧ a.deleted i = true ∧ shardName plan i ∈ sets := by
  simp only [deletions,List.mem_filter,List.mem_range'_1,Bool.and_eq_true,decide_eq_true_eq]
  constructor
  · intro given
    exact ⟨⟨given.1.1,by omega⟩,given.2⟩
  · intro given
    exact ⟨⟨given.1.1,by omega⟩,given.2⟩

end

/-- Nothing is left on a shard that the pass deletes. -/
def SafeDeletes (s : Fleet) (pass : ShardPlan × PassAnswers) : Prop :=
  ∀ i ∈ (reconcile pass.1 pass.2 s).deleted, ∀ p ∈ (reconcile pass.1 pass.2 s).fleet.data, p.shard ≠ i

/-- When every move planned for the tenants found is confirmed, whatever lies on a shard to be deleted is of one of
these tenants, and the ring of the counted shards has the tenant there. -/
def Drainable (s : Fleet) (pass : ShardPlan × PassAnswers) : Prop :=
  pass.2.listed = true → max pass.1.shards 1 < countShards pass.1 s →
    ∀ tenants, discoverTenants pass.1 pass.2 s = some tenants → AllConfirmed pass.1 pass.2 s tenants →
      ∀ i ∈ deletions pass.1 pass.2 s.sets (max pass.1.shards 1) (countShards pass.1 s), ∀ p ∈ s.data, p.shard = i →
        p.tenant ∈ tenants ∧ placement shardHash (countShards pass.1 s) p.tenant = i

theorem reconcile_deletes {plan : ShardPlan} {a : PassAnswers} {s : Fleet} {i : Nat}
    (gone : i ∈ (reconcile plan a s).deleted) : a.listed = true ∧ max plan.shards 1 < countShards plan s ∧
      ∃ tenants, discoverTenants plan a s = some tenants ∧ AllConfirmed plan a s tenants := by
  cases listed : a.listed with
  | false =>
    rw [reconcile_unlisted listed] at gone
    cases gone
  | true =>
    rcases Nat.lt_trichotomy (countShards plan s) (max plan.shards 1) with fewer | same | more
    · rw [reconcile_grows listed fewer] at gone
      cases gone
    · rw [reconcile_steady listed same] at gone
      cases gone
    · refine ⟨rfl,more,?_⟩
      by_contra none
      have blocked : ∀ tenants, discoverTenants plan a s = some tenants → ¬AllConfirmed plan a s tenants :=
        fun tenants found confirmed => none ⟨tenants,found,confirmed⟩
      rw [reconcile_blocked listed more blocked] at gone
      cases gone

theorem safeDeletes_iff (s : Fleet) (pass : ShardPlan × PassAnswers) : SafeDeletes s pass ↔ Drainable s pass := by
  obtain ⟨plan,a⟩ := pass
  constructor
  · intro safe listed more tenants found confirmed i doomed p inside here
    have drained := reconcile_drained listed more found confirmed
    have left := safe i (by rw [drained]; exact doomed) (carried plan a s tenants p)
      (by rw [drained]; exact List.mem_map_of_mem inside)
    rcases carried_cases plan a s tenants p with stays | ⟨named,origin,_⟩
    · rw [stays] at left
      exact absurd here left
    · exact ⟨named,origin.symm.trans here⟩
  · intro drainable i gone q inside here
    obtain ⟨listed,more,tenants,found,confirmed⟩ := reconcile_deletes gone
    rw [reconcile_drained listed more found confirmed] at gone inside
    obtain ⟨p,before,rfl⟩ := List.mem_map.mp inside
    have beyond : max plan.shards 1 ≤ i := (mem_deletions.mp gone).1.1
    have within := placement_lt shardHash plan.shards p.tenant
    rcases carried_cases plan a s tenants p with stays | ⟨_,_,moved⟩
    · rw [stays] at here
      obtain ⟨named,origin⟩ := drainable listed more tenants found confirmed i gone p before here
      have lands : (carried plan a s tenants p).shard = placement shardHash plan.shards p.tenant :=
        carried_confirmed confirmed named (here.trans origin.symm)
      rw [stays,here] at lands
      omega
    · rw [moved] at here
      change placement shardHash plan.shards p.tenant = i at here
      omega

/-- In every run, whatever fails, the deleted shards are empty exactly when each pass can drain what it deletes. -/
theorem scale_down_safe_iff (s : Fleet) (passes : List (ShardPlan × PassAnswers)) :
    Along step SafeDeletes s passes ↔ Along step Drainable s passes :=
  along_congr (fun _ => True) trivial (fun s pass _ => safeDeletes_iff s pass) (fun _ _ _ _ => trivial)

/-- Every piece is where the ring of so many shards has its tenant. -/
def Placed (shards : Nat) (data : List Piece) : Prop := ∀ p ∈ data, p.shard = placement shardHash shards p.tenant

/-- On shard 0 there are only tenants of shard 0: what the query finds is never on a shard that goes. -/
theorem queryTenants_misses {s : Fleet} {shards : Nat} (placed : Placed shards s.data) {p : Piece} (inside : p ∈ s.data)
    (beyond : p.shard ≠ 0) : p.tenant ∉ queryTenants s := by
  intro found
  rw [queryTenants,List.mem_dedup] at found
  obtain ⟨q,kept,same⟩ := List.mem_map.mp found
  obtain ⟨stored,first⟩ := List.mem_filter.mp kept
  simp only [Bool.and_eq_true,decide_eq_true_eq] at first
  rw [placed p inside,← same,← placed q stored] at beyond
  exact beyond first.1

/-- With the data in place, a drain planned by the query is safe only for shards that hold nothing. -/
theorem queried_drain_safe_iff {plan : ShardPlan} {a : PassAnswers} {s : Fleet} (placed : Placed (countShards plan s) s.data)
    (listed : a.listed = true) (more : max plan.shards 1 < countShards plan s)
    (addressed : plan.shardBaseUrls.isEmpty = false) (queried : a.queried = true)
    (confirmed : AllConfirmed plan a s ((queryTenants s).take a.maxRows)) :
    SafeDeletes s (plan,a) ↔
      ∀ i ∈ deletions plan a s.sets (max plan.shards 1) (countShards plan s), ∀ p ∈ s.data, p.shard ≠ i := by
  have found : discoverTenants plan a s = some ((queryTenants s).take a.maxRows) := by
    simp [discoverTenants,addressed,queried]
  rw [safeDeletes_iff]
  constructor
  · intro drainable i doomed p inside here
    have named := (drainable listed more _ found confirmed i doomed p inside here).1
    have beyond := (mem_deletions.mp doomed).1.1
    exact queryTenants_misses placed inside (by omega) (List.mem_of_mem_take named)
  · intro empty _ _ tenants _ _ i doomed p inside here
    exact absurd here (empty i doomed p inside)

/-- The second of two shards is deleted with the events of its tenant, which the query of the first does not find. -/
theorem scale_down_deletes_data :
    let tenant := vnodeName 1 0
    let plan : ShardPlan := ⟨1,"e",["http://e-shard-0","http://e-shard-1"],none⟩
    let s : Fleet := ⟨["e-shard-0","e-shard-1"],[⟨1,.events,tenant⟩]⟩
    let a : PassAnswers := ⟨true,true,10000,true,fun _ => true,fun _ => .confirmed,fun _ => true⟩
    Placed (countShards plan s) s.data ∧ ¬SafeDeletes s (plan,a) := by
  intro tenant plan s a
  have counted : countShards plan s = 2 := by decide
  have placed : Placed (countShards plan s) s.data := by
    rw [counted]
    intro p inside
    rw [List.mem_singleton.mp inside]
    exact (placement_of_point 2 1 0 rfl (by decide)).symm
  refine ⟨placed,?_⟩
  have nobody : (queryTenants s).take a.maxRows = [] := rfl
  have more : max plan.shards 1 < countShards plan s := by
    rw [counted]
    decide
  have doomed : 1 ∈ deletions plan a s.sets (max plan.shards 1) (countShards plan s) := by
    rw [counted]
    decide
  rw [queried_drain_safe_iff placed rfl more rfl rfl (by rw [nobody]; rfl)]
  intro empty
  exact empty 1 doomed _ List.mem_cons_self rfl

end Operator

end Ecphoria
