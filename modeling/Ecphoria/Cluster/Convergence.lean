import Ecphoria.Cluster.Operator

/-! Whether the operator gets there. The moves are planned from the number of StatefulSets, not
from where the data is: what a pass leaves behind is planned again only while the number stays. -/
namespace Ecphoria
open Library

namespace Operator

section
variable (plan : ShardPlan)

/-- Every piece is where the ring of the counted shards has it, or where the ring of the plan does. -/
def Between (s : Fleet) : Prop :=
  ∀ p ∈ s.data, p.shard = placement shardHash (countShards plan s) p.tenant ∨
    p.shard = placement shardHash plan.shards p.tenant

/-- The pass knows every tenant that has data, and every move it plans is confirmed. -/
def Thorough (s : Fleet) (a : PassAnswers) : Prop :=
  ∃ tenants, discoverTenants plan a s = some tenants ∧ AllConfirmed plan a s tenants ∧
    ∀ p ∈ s.data, p.tenant ∈ tenants

def Still (s : Fleet) (a : PassAnswers) : Prop :=
  scaleUp plan a s.sets (countShards plan s) (max plan.shards 1) = s.sets ∧
    (deletions plan a s.sets (max plan.shards 1) (countShards plan s) = [] ∨
      ∀ tenants, discoverTenants plan a s = some tenants → ¬AllConfirmed plan a s tenants)

/-- A pass that changes the number of shards has moved everything. -/
def Careful (s : Fleet) (a : PassAnswers) : Prop := a.listed = false ∨ Thorough plan s a ∨ Still plan s a

def planned (s : Fleet) (a : PassAnswers) : Fleet := step s (plan,a)

end

theorem carry_refused {plan : ShardPlan} {a : PassAnswers} (refused : ∀ i, a.rebalanced i = .failed (fun _ => false))
    (items : List (ShardMove × Nat)) (p : Piece) : carry plan a items p = p := by
  induction items with
  | nil => rfl
  | cons item items ih =>
    have stays : rebalance item.1 (movedStores plan a item) p = p := by
      simp [rebalance,movedStores,refused]
    change carry plan a items (rebalance item.1 (movedStores plan a item) p) = p
    rw [stays,ih]

theorem data_refused {plan : ShardPlan} {a : PassAnswers} (refused : ∀ i, a.rebalanced i = .failed (fun _ => false))
    {s : Fleet} {tenants : List String} : s.data.map (carried plan a s tenants) = s.data := by
  refine (List.map_congr_left ?_).trans (List.map_id s.data)
  intro p _
  exact carry_refused refused _ p

section
variable {plan : ShardPlan} {a : PassAnswers} {s : Fleet}

theorem planned_data (listed : a.listed = true) : (planned plan s a).data =
    match discoverTenants plan a s with
      | none => s.data
      | some tenants => s.data.map (carried plan a s tenants) := by
  have nobody : s.data.map (carried plan a s []) = s.data := List.map_id s.data
  unfold planned step
  rcases Nat.lt_trichotomy (countShards plan s) (max plan.shards 1) with fewer | same | more
  · rw [reconcile_grows listed fewer]
    cases discoverTenants plan a s with
    | none => exact nobody
    | some tenants => rfl
  · rw [reconcile_steady listed same]
    cases discoverTenants plan a s with
    | none => exact nobody
    | some tenants => rfl
  · by_cases drained : ∃ tenants, discoverTenants plan a s = some tenants ∧ AllConfirmed plan a s tenants
    · obtain ⟨tenants,found,confirmed⟩ := drained
      rw [reconcile_drained listed more found confirmed,found]
    · have stuck := reconcile_blocked listed more (fun tenants found confirmed => drained ⟨tenants,found,confirmed⟩)
      exact congrArg (fun out => out.1.data) stuck

theorem planned_sets (listed : a.listed = true) (still : Still plan s a) : (planned plan s a).sets = s.sets := by
  unfold planned step
  rcases Nat.lt_trichotomy (countShards plan s) (max plan.shards 1) with fewer | same | more
  · rw [reconcile_grows listed fewer]
    exact still.1
  · rw [reconcile_steady listed same]
  · by_cases drained : ∃ tenants, discoverTenants plan a s = some tenants ∧ AllConfirmed plan a s tenants
    · obtain ⟨tenants,found,confirmed⟩ := drained
      rw [reconcile_drained listed more found confirmed]
      rcases still.2 with empty | blocked
      · simp [scaleDown,empty]
      · exact absurd confirmed (blocked tenants found)
    · rw [reconcile_blocked listed more (fun tenants found confirmed => drained ⟨tenants,found,confirmed⟩)]

theorem thorough_places (listed : a.listed = true) (thorough : Thorough plan s a) :
    Placed plan.shards (planned plan s a).data ↔ Between plan s := by
  obtain ⟨tenants,found,confirmed,known⟩ := thorough
  have data : (planned plan s a).data = s.data.map (carried plan a s tenants) := by
    rw [planned_data listed,found]
  rw [data]
  constructor
  · intro placed p inside
    have lands := placed _ (List.mem_map_of_mem inside)
    rcases carried_cases plan a s tenants p with stays | ⟨_,origin,_⟩
    · rw [stays] at lands
      exact Or.inr lands
    · exact Or.inl origin
  · intro between q inside
    obtain ⟨p,before,rfl⟩ := List.mem_map.mp inside
    rcases carried_cases plan a s tenants p with stays | ⟨_,_,moved⟩
    · rcases between p before with origin | there
      · have lands := carried_confirmed confirmed (known p before) origin
        rw [stays] at lands ⊢
        exact lands
      · rw [stays]
        exact there
    · rw [moved]

theorem confirmed_steady {tenants : List String} (same : countShards plan s = max plan.shards 1) :
    AllConfirmed plan a s tenants := by
  have nothing : reconcileMoves (max plan.shards 1) (max plan.shards 1) tenants = [] := by
    rw [List.eq_nil_iff_forall_not_mem]
    intro move listed
    obtain ⟨_,origin,target,apart⟩ := mem_reconcileMoves.mp listed
    exact apart (origin.trans target.symm)
  unfold AllConfirmed
  rw [same,nothing]
  rfl

theorem Placed.between (placed : Placed plan.shards s.data) : Between plan s := fun p inside => Or.inr (placed p inside)

theorem Between.planned (between : Between plan s) (careful : Careful plan s a) : Between plan (planned plan s a) := by
  cases listed : a.listed with
  | false =>
    have kept : Operator.planned plan s a = s := by
      unfold Operator.planned step
      rw [reconcile_unlisted listed]
    rwa [kept]
  | true =>
    rcases careful with failed | thorough | still
    · rw [listed] at failed
      cases failed
    · exact Placed.between ((thorough_places listed thorough).mpr between)
    · have counted : countShards plan (Operator.planned plan s a) = countShards plan s := by
        unfold countShards
        rw [planned_sets listed still]
      intro q inside
      rw [counted]
      rw [planned_data listed] at inside
      cases found : discoverTenants plan a s with
      | none =>
        rw [found] at inside
        exact between q inside
      | some tenants =>
        rw [found] at inside
        obtain ⟨p,before,rfl⟩ := List.mem_map.mp inside
        rcases carried_cases plan a s tenants p with stays | ⟨_,_,moved⟩
        · rw [stays]
          exact between p before
        · rw [moved]
          exact Or.inr rfl

/-- After any passes, one that finds every tenant and moves all of them brings the data home exactly when it was on
one of the two rings before it; and so it is when every earlier pass was careful. -/
theorem converges_iff_between {passes : List PassAnswers} {last : PassAnswers} (listed : last.listed = true)
    (thorough : Thorough plan (run (Operator.planned plan) s passes) last) :
    (Placed plan.shards (run (Operator.planned plan) s (passes ++ [last])).data ↔
        Between plan (run (Operator.planned plan) s passes)) ∧
      (Between plan s → Along (Operator.planned plan) (Careful plan) s passes →
        Placed plan.shards (run (Operator.planned plan) s (passes ++ [last])).data) := by
  have home : Placed plan.shards (run (Operator.planned plan) s (passes ++ [last])).data ↔
      Between plan (run (Operator.planned plan) s passes) := by
    rw [run_append]
    exact thorough_places listed thorough
  refine ⟨home,?_⟩
  intro start along
  exact home.mpr (along.invariant start (fun _ _ between careful => between.planned careful))

end

/-- The second shard is not created and the move to it is refused; the next pass counts one shard still, creates the second
one and makes the move. -/
theorem converges_iff_between_two :
    let tenant := vnodeName 1 0
    let plan : ShardPlan := ⟨2,"e",["http://e-shard-0","http://e-shard-1"],none⟩
    let s : Fleet := ⟨["e-shard-0"],[⟨0,.events,tenant⟩]⟩
    let first : PassAnswers := ⟨true,true,10000,true,fun _ => false,fun _ => .failed (fun _ => false),fun _ => true⟩
    let last : PassAnswers := ⟨true,true,10000,true,fun _ => true,fun _ => .confirmed,fun _ => true⟩
    run (planned plan) s [first] = s ∧ Thorough plan s last ∧ ¬Placed plan.shards s.data ∧
      (Placed plan.shards (run (planned plan) s ([first] ++ [last])).data ↔ Between plan (run (planned plan) s [first])) ∧
      Placed plan.shards (run (planned plan) s ([first] ++ [last])).data := by
  intro tenant plan s first last
  have counted : countShards plan s = 1 := by decide
  have here (shards : Nat) (one : shards = 1) : 0 = placement shardHash shards tenant := by
    have bound := placement_lt shardHash shards tenant
    omega
  have created : scaleUp plan first s.sets 1 (max plan.shards 1) = ["e-shard-0"] := by decide
  have after : run (planned plan) s [first] = s := by
    change (reconcile plan first s).fleet = _
    rw [reconcile_grows rfl (by rw [counted]; decide),counted,data_refused (fun _ => rfl),created]
  have thorough : Thorough plan s last := by
    refine ⟨[tenant],rfl,?_,?_⟩
    · refine List.all_eq_true.mpr (fun item inside => ?_)
      have listed : item.1 ∈ reconcileMoves (max plan.shards 1) (countShards plan s) [tenant] :=
        List.fst_mem_of_mem_zipIdx inside
      obtain ⟨named,origin,_,_⟩ := mem_reconcileMoves.mp listed
      rw [List.mem_singleton.mp named,← here _ counted] at origin
      rw [moveConfirmed,origin]
      rfl
    · intro p inside
      rw [List.mem_singleton.mp inside]
      exact List.mem_cons_self
  have start : Between plan s := by
    intro p inside
    rw [List.mem_singleton.mp inside]
    exact .inl (here _ counted)
  have careful : Along (planned plan) (Careful plan) s [first] := by
    refine ⟨.inr (.inr ⟨?_,.inl ?_⟩),trivial⟩
    · rw [counted]
      exact created
    · decide
  have law := @converges_iff_between plan s [first] last rfl (after.symm ▸ thorough)
  refine ⟨after,thorough,?_,law.1,law.2 start careful⟩
  intro placed
  have there : placement shardHash 2 tenant = 1 := placement_of_point 2 1 0 rfl (by decide)
  have stays : 0 = placement shardHash 2 tenant := placed ⟨0,.events,tenant⟩ (List.mem_singleton.mpr rfl)
  omega

/-- The second shard is created and the move to it is refused; the next pass counts two shards, plans no move, and
leaves the tenant on the first one. -/
theorem refused_move_not_retried :
    let tenant := vnodeName 1 0
    let plan : ShardPlan := ⟨2,"e",["http://e-shard-0","http://e-shard-1"],none⟩
    let s : Fleet := ⟨["e-shard-0"],[⟨0,.events,tenant⟩]⟩
    let first : PassAnswers := ⟨true,true,10000,true,fun _ => true,fun _ => .failed (fun _ => false),fun _ => true⟩
    let last : PassAnswers := ⟨true,true,10000,true,fun _ => true,fun _ => .confirmed,fun _ => true⟩
    Placed (countShards plan s) s.data ∧ last.listed = true ∧ Thorough plan (run (planned plan) s [first]) last ∧
      ¬Placed plan.shards (run (planned plan) s [first,last]).data := by
  intro tenant plan s first last
  have counted : countShards plan s = 1 := by decide
  have after : run (planned plan) s [first] = ⟨["e-shard-0","e-shard-1"],[⟨0,.events,tenant⟩]⟩ := by
    change (reconcile plan first s).fleet = _
    rw [reconcile_grows rfl (by rw [counted]; decide),counted,data_refused (fun _ => rfl)]
    have created : scaleUp plan first s.sets 1 (max plan.shards 1) = ["e-shard-0","e-shard-1"] := by decide
    rw [created]
  have steady : countShards plan ⟨["e-shard-0","e-shard-1"],[⟨0,.events,tenant⟩]⟩ = 2 := by decide
  have there : placement shardHash 2 tenant = 1 := placement_of_point 2 1 0 rfl (by decide)
  have thorough : Thorough plan (run (planned plan) s [first]) last := by
    rw [after]
    refine ⟨[tenant],rfl,?_,?_⟩
    · exact confirmed_steady steady
    · intro p inside
      rw [List.mem_singleton.mp inside]
      exact List.mem_cons_self
  refine ⟨?_,rfl,thorough,?_⟩
  · intro p inside
    rw [List.mem_singleton.mp inside,counted]
    have bound := placement_lt shardHash 1 tenant
    change 0 = placement shardHash 1 tenant
    omega
  · intro placed
    have passes : run (planned plan) s [first,last] = planned plan (run (planned plan) s [first]) last := by
      simp only [run_cons,run_nil]
    rw [passes,thorough_places rfl thorough] at placed
    rw [after] at placed
    have stuck : 0 = placement shardHash 2 tenant := by
      rcases placed ⟨0,.events,tenant⟩ (List.mem_singleton.mpr rfl) with origin | target
      · rwa [steady] at origin
      · exact target
    omega

end Operator

end Ecphoria
