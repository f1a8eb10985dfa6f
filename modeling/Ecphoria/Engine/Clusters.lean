import Ecphoria.Engine.Consolidate
import Ecphoria.Engine.Batch

/-! Folding the clusters of a scope. The clusters of one pass are disjoint, and each is
expired after a summary of it was added; a later summary may be merged into an earlier one,
and the cap may evict it, and then what it held is in no active memory. -/
namespace Ecphoria
open Library

/-- What the vector index answers during a pass is in the scope asked for. -/
def AnswersHome (e : Engine) (scope : MemoryScope) (near : Neighbours) : Prop :=
  ∀ vector k id hits, e.memoryIndexSearch vector scope k (near.matched id) = .ok hits →
    ∀ hit ∈ hits, hit.1.scope = scope.withDefaultTenant

/-- Wherever the clustering loop folds, two of the hits that pass name two memories. -/
def HitsApart (e : Engine) (scope : MemoryScope) (threshold : Rat) (k : Nat) (near : Neighbours) :
    List (Memory × List Rat) → List Uuid → Prop
  | [],_ => True
  | (m,v) :: rest,grouped =>
    if m.id ∈ grouped then HitsApart e scope threshold k near rest grouped
    else
      match e.memoryIndexSearch v scope k (near.matched m.id) with
      | .error _ => True
      | .ok hits =>
        let passing := (hits.filter (fun hit => threshold ≤ hit.2 && hit.1.id ∉ grouped)).map Prod.fst
        if passing.length < 2 then HitsApart e scope threshold k near rest (grouped ++ [m.id])
        else (∃ a ∈ passing, ∃ b ∈ passing, a.id ≠ b.id) ∧
          HitsApart e scope threshold k near rest (grouped ++ passing.map Memory.id)

def withVectors (e : Engine) (scope : MemoryScope) (maxRows : Nat) : List (Memory × List Rat) :=
  (e.memories.listActive scope maxRows).filterMap (fun m => (e.memories.getEmbedding m.id).map (fun v => (m,v)))

/-- The plans fold disjoint clusters of at least two active memories of the scope. -/
structure DisjointClusters (t : MemoryTable) (scope : MemoryScope) (plans : List (MemoryInput × List Uuid)) : Prop where
  disjoint : plans.Pairwise (fun a b => ∀ id ∈ a.2, id ∉ b.2)
  pairs : ∀ plan ∈ plans, ∃ a ∈ plan.2, ∃ b ∈ plan.2, a ≠ b
  members : ∀ plan ∈ plans, ∀ id ∈ plan.2, ∃ row ∈ t.rows, row.id = id ∧ row.memory.state = .active ∧
    row.memory.scope = scope.withDefaultTenant

theorem infix_intercalate {words : List String} {word : String} (separator : String) (inside : word ∈ words) :
    word.toList <:+: (String.intercalate separator words).toList := by
  induction words with
  | nil => cases inside
  | cons first rest ih =>
    cases rest with
    | nil =>
      cases List.mem_singleton.mp inside
      simp
    | cons next rest =>
      rw [String.intercalate_cons_cons,String.toList_append,String.toList_append,List.append_assoc]
      rcases List.mem_cons.mp inside with rfl | later
      · exact (List.prefix_append _ _).isInfix
      · exact (ih later).trans (((List.suffix_append _ _).trans (List.suffix_append _ _)).isInfix)

theorem summarizeMemories_lists {config : CoreConfig} {mems : List Memory} {m : Memory} (inside : m ∈ mems) :
    m.content.toList <:+: (summarizeMemories config none mems).toList := by
  have listed : m.content.toList <:+: (String.intercalate "\n" (mems.map (fun m => "- " ++ m.content))).toList := by
    have item := infix_intercalate "\n" (List.mem_map_of_mem (f := fun m : Memory => "- " ++ m.content) inside)
    rw [String.toList_append] at item
    exact (List.suffix_append _ _).isInfix.trans item
  have whole : summarizeMemories config none mems = "Consolidated " ++ toString mems.length ++ " memories:\n" ++
      String.intercalate "\n" (mems.map (fun m => "- " ++ m.content)) := by
    unfold summarizeMemories
    split
    next => rfl
    next => rfl
  rw [whole,String.toList_append]
  exact listed.trans (List.suffix_append _ _).isInfix

section
variable {e : Engine} {scope : MemoryScope} {threshold : Rat} {k : Nat} {near : Neighbours}

private structure Clustered (e : Engine) (scope : MemoryScope) (near : Neighbours) (grouped : List Uuid)
    (plans : List (MemoryInput × List Uuid)) : Prop where
  disjoint : plans.Pairwise (fun a b => ∀ id ∈ a.2, id ∉ b.2)
  members : ∀ plan ∈ plans, ∀ id ∈ plan.2, ∃ row ∈ e.memories.rows, row.id = id ∧ row.memory.state = .active ∧
    row.memory.scope = scope.withDefaultTenant
  listed : ∀ plan ∈ plans, ∀ id ∈ plan.2, id ∈ grouped
  unkeyed : ∀ plan ∈ plans, plan.1.subject = none
  told : (∀ id, near.reply id = none) → ∀ plan ∈ plans, ∀ row ∈ e.memories.rows, row.id ∈ plan.2 →
    row.memory.content.toList <:+: plan.1.content.toList

private theorem Clustered.fold (answers : AnswersHome e scope near) {grouped : List Uuid}
    {plans : List (MemoryInput × List Uuid)} (before : Clustered e scope near grouped plans) {v : List Rat} {m : Memory}
    {hits : List (Memory × Rat)} (searched : e.memoryIndexSearch v scope k (near.matched m.id) = .ok hits) :
    let cluster := (hits.filter (fun hit => threshold ≤ hit.2 && hit.1.id ∉ grouped)).map Prod.fst
    Clustered e scope near (grouped ++ cluster.map Memory.id)
      (plans ++ [(clusterInput scope (summarizeMemories e.config (near.reply m.id) cluster) cluster,
        cluster.map Memory.id)]) := by
  intro cluster
  have chosen {id : Uuid} (inside : id ∈ cluster.map Memory.id) : ∃ hit ∈ hits, hit.1.id = id ∧ id ∉ grouped := by
    obtain ⟨m,member,rfl⟩ := List.mem_map.mp inside
    obtain ⟨hit,kept,rfl⟩ := List.mem_map.mp member
    obtain ⟨listed,passes⟩ := List.mem_filter.mp kept
    exact ⟨hit,listed,rfl,of_decide_eq_true ((Bool.and_eq_true _ _).mp passes).2⟩
  refine ⟨?_,?_,?_,?_,?_⟩
  · refine List.pairwise_append.mpr ⟨before.disjoint,List.pairwise_singleton _ _,?_⟩
    intro a inside b alone id member twice
    cases List.mem_singleton.mp alone
    obtain ⟨_,_,_,fresh⟩ := chosen twice
    exact fresh (before.listed a inside id member)
  · intro plan inside id member
    rcases List.mem_append.mp inside with old | new
    · exact before.members plan old id member
    · cases List.mem_singleton.mp new
      obtain ⟨hit,listed,rfl,_⟩ := chosen member
      obtain ⟨active,row,there,same⟩ := memoryIndexSearch_active searched listed
      refine ⟨row,there,congrArg Memory.id same,?_,?_⟩
      · rw [same]
        exact active
      · rw [same]
        exact answers _ _ _ _ searched hit listed
  · intro plan inside id member
    rcases List.mem_append.mp inside with old | new
    · exact List.mem_append_left _ (before.listed plan old id member)
    · cases List.mem_singleton.mp new
      exact List.mem_append_right _ member
  · intro plan inside
    rcases List.mem_append.mp inside with old | new
    · exact before.unkeyed plan old
    · cases List.mem_singleton.mp new
      rfl
  · intro silent plan inside row there folded
    rcases List.mem_append.mp inside with old | new
    · exact before.told silent plan old row there folded
    · cases List.mem_singleton.mp new
      obtain ⟨m',member,same⟩ := List.mem_map.mp folded
      obtain ⟨hit,kept,rfl⟩ := List.mem_map.mp member
      obtain ⟨_,stored,listed,equal⟩ := memoryIndexSearch_active searched (List.mem_filter.mp kept).1
      rw [← equal] at same member
      cases e.memories.eq_of_key listed there same
      rw [silent]
      exact summarizeMemories_lists member

private theorem clusterLoop_clustered (answers : AnswersHome e scope near) (withVec : List (Memory × List Rat))
    {grouped : List Uuid} {plans all : List (MemoryInput × List Uuid)} (before : Clustered e scope near grouped plans)
    (ok : clusterLoop e scope threshold k near withVec grouped plans = .ok all) : ∃ ids, Clustered e scope near ids all := by
  induction withVec generalizing grouped plans with
  | nil =>
    cases ok
    exact ⟨grouped,before⟩
  | cons head rest ih =>
    obtain ⟨m,v⟩ := head
    have wider {more : List Uuid} : Clustered e scope near (grouped ++ more) plans :=
      ⟨before.disjoint,before.members,fun plan inside id member => List.mem_append_left _ (before.listed plan inside id member),before.unkeyed,
        before.told⟩
    rw [clusterLoop] at ok
    split at ok
    next => exact ih before ok
    next =>
      split at ok
      next => cases ok
      next hits searched =>
        dsimp only at ok
        split at ok
        next => exact ih wider ok
        next => exact ih (before.fold answers searched) ok

/-- The clusters have two distinct members exactly when the hits that were folded name two memories. -/
theorem clusterLoop_pairs (withVec : List (Memory × List Rat)) {grouped : List Uuid}
    {plans all : List (MemoryInput × List Uuid)} (ok : clusterLoop e scope threshold k near withVec grouped plans = .ok all) :
    (∀ plan ∈ all, ∃ a ∈ plan.2, ∃ b ∈ plan.2, a ≠ b) ↔
      (∀ plan ∈ plans, ∃ a ∈ plan.2, ∃ b ∈ plan.2, a ≠ b) ∧ HitsApart e scope threshold k near withVec grouped := by
  induction withVec generalizing grouped plans with
  | nil =>
    cases ok
    exact (and_iff_left trivial).symm
  | cons head rest ih =>
    obtain ⟨m,v⟩ := head
    rw [clusterLoop] at ok
    rw [HitsApart]
    split at ok
    next seen =>
      rw [if_pos seen]
      exact ih ok
    next fresh =>
      rw [if_neg fresh]
      revert ok
      cases e.memoryIndexSearch v scope k (near.matched m.id) with
      | error err =>
        intro ok
        cases ok
      | ok hits =>
        intro ok
        dsimp only at ok ⊢
        split at ok
        next small =>
          rw [if_pos small]
          exact ih ok
        next large =>
          rw [if_neg large,ih ok,List.forall_mem_append,List.forall_mem_singleton,and_assoc]
          refine and_congr_right fun _ => and_congr_left fun _ => ?_
          simp only [List.mem_map,exists_exists_and_eq_and]

theorem similarPlan_clusters {maxRows scanCap : Nat} {plans : List (MemoryInput × List Uuid)}
    (answers : AnswersHome e scope near)
    (ok : memoryConsolidateSimilarPlan e scope threshold maxRows scanCap near = .ok plans) :
    (DisjointClusters e.memories scope plans ↔
      HitsApart e scope threshold (max scanCap 8) near (withVectors e scope maxRows) []) ∧
      (∀ plan ∈ plans, ∀ id ∈ plan.2, id ∈ e.memories.keys) ∧ ∀ plan ∈ plans, plan.1.subject = none := by
  have none : Clustered e scope near [] [] := ⟨List.Pairwise.nil,by simp,by simp,by simp,by simp⟩
  obtain ⟨ids,all⟩ := clusterLoop_clustered answers _ none ok
  have pairs := clusterLoop_pairs _ ok
  refine ⟨⟨fun clusters => (pairs.mp clusters.pairs).2,fun apart => ?_⟩,?_,all.unkeyed⟩
  · exact ⟨all.disjoint,pairs.mpr ⟨by simp,apart⟩,all.members⟩
  · intro plan inside id member
    obtain ⟨row,there,same,_⟩ := all.members plan inside id member
    exact (Table.mem_keys _ _).mpr ⟨row,there,same⟩

end

abbrev Fold := (MemoryInput × List Uuid) × Draw

def ActiveText (t : MemoryTable) (id : Uuid) (content : String) : Prop :=
  ∃ row ∈ t.rows, row.id = id ∧ row.memory.state = .active ∧ row.memory.content = content

section
variable (env : Env)

/-- The folds that are carried out: those before the first summary that cannot be added. -/
def foldsDone : List Fold → Engine → List Fold
  | [],_ => []
  | ((input,expired),d) :: rest,e =>
    match memoryAdd env e d input with
    | (.error _,_) => []
    | (.ok _,after) => ((input,expired),d) :: foldsDone rest (memoryExpire d.stamp after expired)

/-- The input is merged into the memory, or the cap evicts it as the input is added. -/
def Displaces (e : Engine) (d : Draw) (input : MemoryInput) (id : Uuid) : Prop :=
  (∃ top, mergeTarget e d (canonicalInput env input).scope (e.embedMemoryContent d) = .ok (some top) ∧ top.id = id) ∨
    id ∈ addEvictions env e d input

instance (e : Engine) (d : Draw) (input : MemoryInput) (id : Uuid) : Decidable (Displaces env e d input id) :=
  decidable_of_iff ((mergeTarget e d (canonicalInput env input).scope (e.embedMemoryContent d)).toOption.join.map Memory.id =
      some id ∨ id ∈ addEvictions env e d input) (by
    unfold Displaces
    rcases mergeTarget e d (canonicalInput env input).scope (e.embedMemoryContent d) with err | none | top <;>
      simp [Except.toOption])

def Outlasts (id : Uuid) : List Fold → Engine → Prop
  | [],_ => True
  | ((input,expired),d) :: rest,e =>
    match memoryAdd env e d input with
    | (.error _,_) => True
    | (.ok _,after) => ¬Displaces env e d input id ∧ Outlasts id rest (memoryExpire d.stamp after expired)

instance decidableOutlasts (id : Uuid) : ∀ folds e, Decidable (Outlasts env id folds e)
  | [],_ => isTrue trivial
  | ((input,expired),d) :: rest,e =>
    match answered : memoryAdd env e d input with
    | (.error _,_) => isTrue (by simp [Outlasts,answered])
    | (.ok _,after) =>
      have := decidableOutlasts id rest (memoryExpire d.stamp after expired)
      decidable_of_iff (¬Displaces env e d input id ∧ Outlasts env id rest (memoryExpire d.stamp after expired))
        (by simp [Outlasts,answered])

/-- One of the folds adds a summary with the content under the id, which is not evicted at once and which no later
summary displaces. -/
def Lasting (id : Uuid) (content : String) : List Fold → Engine → Prop
  | [],_ => False
  | ((input,expired),d) :: rest,e =>
    match memoryAdd env e d input with
    | (.error _,_) => False
    | (.ok _,after) =>
      id = d.id ∧ content = input.content ∧ id ∉ addEvictions env e d input ∧
          Outlasts env id rest (memoryExpire d.stamp after expired) ∨
        Lasting id content rest (memoryExpire d.stamp after expired)

instance decidableLasting (id : Uuid) (content : String) : ∀ folds e, Decidable (Lasting env id content folds e)
  | [],_ => isFalse not_false
  | ((input,expired),d) :: rest,e =>
    match answered : memoryAdd env e d input with
    | (.error _,_) => isFalse (by simp [Lasting,answered])
    | (.ok _,after) =>
      have := decidableLasting id content rest (memoryExpire d.stamp after expired)
      decidable_of_iff (id = d.id ∧ content = input.content ∧ id ∉ addEvictions env e d input ∧
          Outlasts env id rest (memoryExpire d.stamp after expired) ∨
        Lasting env id content rest (memoryExpire d.stamp after expired)) (by simp [Lasting,answered])

variable {env} {e : Engine} {d : Draw} {input : MemoryInput}

private theorem memoryPlan_unkeyed_rows {planned : Planned} (unkeyed : input.subject = none)
    (ok : memoryPlan env e d input = .ok planned) :
    ∃ olds last, planned.rows = olds ++ [last] ∧ last.id = d.id ∧ last.memory.state = .active ∧
      last.memory.content = input.content ∧ (∀ row ∈ olds, row.memory.state ≠ .active) ∧
      (∀ id, id ∈ olds.map MemoryRow.id ↔
        ∃ top, mergeTarget e d (canonicalInput env input).scope (e.embedMemoryContent d) = .ok (some top) ∧ top.id = id) ∧
      ∀ row ∈ olds, row.id ∈ e.memories.keys := by
  have bare : (canonicalInput env input).subject = none := by
    simp [canonicalInput,canonicalSubject,unkeyed]
  cases (memoryPlanWithEmbedding_cases env ok).2 with
  | confirmed subject existing others keyed read same => cases bare.symm.trans keyed
  | conflict subject existing others keyed read review => cases bare.symm.trans keyed
  | superseded subject existing others keyed read differs => cases bare.symm.trans keyed
  | merged top free hit =>
    obtain ⟨_,row,member,same⟩ := mergeTarget_active hit
    refine ⟨[_],_,rfl,rfl,rfl,rfl,?_,?_,?_⟩
    · intro closed inside
      cases List.mem_singleton.mp inside
      simp [closeRow]
    · intro id
      simp [hit,closeRow,MemoryRow.id,eq_comm]
    · intro closed inside
      cases List.mem_singleton.mp inside
      exact (Table.mem_keys _ _).mpr ⟨row,member,(congrArg Memory.id same : row.memory.id = top.id)⟩
  | inserted absent missed =>
    refine ⟨[],_,rfl,rfl,rfl,rfl,by simp,?_,by simp⟩
    intro id
    simp [missed bare]

private theorem memoryAdd_left {planned : Planned} (ok : memoryPlan env e d input = .ok planned) {row : MemoryRow} :
    row ∈ (memoryAdd env e d input).2.memories.rows ↔
      row ∈ (e.memories.upsertRows planned.rows).rows ∧ row.id ∉ addEvictions env e d input := by
  have evicts : addEvictions env e d input = (e.memories.upsertRows planned.rows).overCap planned.add.memory.scope
      e.config.cognition.maxMemoriesPerScope := by
    simp only [addEvictions,ok]
    exact congrArg (fun t => MemoryTable.overCap t _ _) (memoryApplyRows_memories env d.stamp e planned.rows)
  rw [memoryAdd_planned env ok,evictOverCap_memories,memoryApplyRows_memories,memoryApplyRows_config,
    MemoryTable.enforceScopeCap,Table.mem_delete,evicts]
  simp

/-- What is active once a summary was added: the summary unless it is evicted, and what it does not displace. -/
theorem memoryAdd_activeText (unkeyed : input.subject = none) (fresh : d.id ∉ e.memories.keys) {planned : Planned}
    (ok : memoryPlan env e d input = .ok planned) (id : Uuid) (content : String) :
    ActiveText (memoryAdd env e d input).2.memories id content ↔
      id = d.id ∧ content = input.content ∧ id ∉ addEvictions env e d input ∨
        ActiveText e.memories id content ∧ ¬Displaces env e d input id := by
  obtain ⟨olds,last,rows,drawn,active,said,closed,merged,known⟩ := memoryPlan_unkeyed_rows unkeyed ok
  constructor
  · intro left
    obtain ⟨row,member,rfl,stands,rfl⟩ := left
    obtain ⟨written,spared⟩ := (memoryAdd_left ok).mp member
    rcases MemoryTable.mem_upsertRows written with ⟨new,inside,rfl⟩ | ⟨there,apart⟩
    · rw [rows] at inside
      rcases List.mem_append.mp inside with old | new
      · exact absurd stands (closed new old)
      · cases List.mem_singleton.mp new
        exact Or.inl ⟨drawn,said,spared⟩
    · refine Or.inr ⟨⟨row,there,rfl,stands,rfl⟩,?_⟩
      intro displaced
      rcases displaced with target | evicted
      · obtain ⟨old,inside,same⟩ := List.mem_map.mp ((merged row.id).mpr target)
        exact apart old (by rw [rows]; exact List.mem_append_left _ inside) same
      · exact spared evicted
  · intro either
    rcases either with ⟨rfl,rfl,spared⟩ | ⟨⟨row,there,rfl,stands,rfl⟩,kept⟩
    · refine ⟨last.stored,(memoryAdd_left ok).mpr ⟨?_,?_⟩,drawn,active,said⟩
      · rw [rows,MemoryTable.upsertRows_append]
        exact (Table.mem_upsert _ _ _).mpr (Or.inl rfl)
      · change last.id ∉ _
        rwa [drawn]
    · refine ⟨row,(memoryAdd_left ok).mpr ⟨MemoryTable.mem_upsertRows_of_apart there ?_,?_⟩,rfl,stands,rfl⟩
      · intro new inside same
        rw [rows] at inside
        rcases List.mem_append.mp inside with old | new
        · exact kept (Or.inl ((merged row.id).mp (List.mem_map.mpr ⟨_,old,same⟩)))
        · cases List.mem_singleton.mp new
          exact fresh ((Table.mem_keys _ _).mpr ⟨row,there,same.symm.trans drawn⟩)
      · exact fun evicted => kept (Or.inr evicted)

theorem memoryAdd_known (unkeyed : input.subject = none) {planned : Planned}
    (ok : memoryPlan env e d input = .ok planned) {id : Uuid} (inside : id ∈ (memoryAdd env e d input).2.memories.keys) :
    id ∈ e.memories.keys ∨ id = d.id := by
  obtain ⟨olds,last,rows,drawn,_,_,_,_,known⟩ := memoryPlan_unkeyed_rows unkeyed ok
  obtain ⟨row,member,rfl⟩ := (Table.mem_keys _ _).mp inside
  rcases MemoryTable.mem_upsertRows ((memoryAdd_left ok).mp member).1 with ⟨new,listed,rfl⟩ | ⟨there,_⟩
  · rw [rows] at listed
    rcases List.mem_append.mp listed with old | new
    · exact Or.inl (known new old)
    · cases List.mem_singleton.mp new
      exact Or.inr drawn
  · exact Or.inl ((Table.mem_keys _ _).mpr ⟨row,there,rfl⟩)

theorem memoryExpire_activeText (stamp : Uuid → Int) (e : Engine) (ids : List Uuid) (id : Uuid) (content : String) :
    ActiveText (memoryExpire stamp e ids).memories id content ↔ ActiveText e.memories id content ∧ id ∉ ids := by
  rw [memoryExpire_memories]
  generalize e.memories = t
  induction ids generalizing t with
  | nil => simp
  | cons first ids ih =>
    have one : ActiveText (t.expire first (stamp first)) id content ↔ ActiveText t id content ∧ id ≠ first := by
      constructor
      · intro left
        obtain ⟨row,there,rfl,active,rfl⟩ := left
        obtain ⟨old,member,rfl⟩ := (Table.mem_update _ _ _ _ _).mp there
        split at active
        next => cases active
        next spared =>
          rw [if_neg spared]
          simp only [Bool.and_eq_true,decide_eq_true_eq,not_and] at spared
          exact ⟨⟨old,member,rfl,active,rfl⟩,fun same => spared same active⟩
      · intro given
        obtain ⟨⟨row,member,rfl,active,rfl⟩,apart⟩ := given
        refine ⟨row,(Table.mem_update _ _ _ _ _).mpr ⟨row,member,?_⟩,rfl,active,rfl⟩
        rw [if_neg (by simp [apart])]
    rw [List.foldl_cons,ih,one,List.mem_cons,not_or,and_assoc]

theorem memoryExpire_keys (stamp : Uuid → Int) (e : Engine) (ids : List Uuid) :
    (memoryExpire stamp e ids).memories.keys = e.memories.keys := by
  rw [memoryExpire_memories]
  generalize e.memories = t
  induction ids generalizing t with
  | nil => rfl
  | cons first ids ih => exact (ih _).trans (Table.keys_update _ _ _ _)

/-- The summaries have no subject, and the ids drawn for them are new, distinct and none of those that are folded. -/
structure FreshFolds (folds : List Fold) (t : MemoryTable) : Prop where
  unkeyed : ∀ fold ∈ folds, fold.1.1.subject = none
  distinct : (folds.map (fun fold => fold.2.id)).Nodup
  unused : ∀ fold ∈ folds, fold.2.id ∉ t.keys
  apart : ∀ fold ∈ folds, ∀ other ∈ folds, fold.2.id ∉ other.1.2

theorem FreshFolds.step {fold : Fold} {rest : List Fold} (fresh : FreshFolds (fold :: rest) e.memories) {planned : Planned}
    (ok : memoryPlan env e fold.2 fold.1.1 = .ok planned) :
    FreshFolds rest (memoryExpire fold.2.stamp (memoryAdd env e fold.2 fold.1.1).2 fold.1.2).memories where
  unkeyed := fun other inside => fresh.unkeyed other (List.mem_cons_of_mem _ inside)
  distinct := (List.nodup_cons.mp fresh.distinct).2
  unused := by
    intro other inside known
    rw [memoryExpire_keys] at known
    rcases memoryAdd_known (fresh.unkeyed fold List.mem_cons_self) ok known with old | same
    · exact fresh.unused other (List.mem_cons_of_mem _ inside) old
    · exact (List.nodup_cons.mp fresh.distinct).1 (List.mem_map.mpr ⟨other,inside,same⟩)
  apart := fun other inside another there =>
    fresh.apart other (List.mem_cons_of_mem _ inside) another (List.mem_cons_of_mem _ there)

theorem foldsDone_sublist (folds : List Fold) (e : Engine) : (foldsDone env folds e).Sublist folds := by
  induction folds generalizing e with
  | nil => exact .slnil
  | cons fold rest ih =>
    obtain ⟨⟨input,expired⟩,d⟩ := fold
    rw [foldsDone]
    split
    next => exact List.nil_sublist _
    next => exact (ih _).cons_cons _

/-- What is active after the folds: what was and is neither displaced nor folded, and the summaries that last. -/
theorem foldLoop_activeText (folds : List Fold) {e : Engine} (fresh : FreshFolds folds e.memories) (id : Uuid)
    (content : String) :
    ActiveText (foldLoop env folds e).2.memories id content ↔
      ActiveText e.memories id content ∧ Outlasts env id folds e ∧ (∀ fold ∈ foldsDone env folds e, id ∉ fold.1.2) ∨
        Lasting env id content folds e := by
  induction folds generalizing e with
  | nil => simp [foldLoop,Outlasts,foldsDone,Lasting]
  | cons fold rest ih =>
    obtain ⟨⟨input,expired⟩,d⟩ := fold
    cases planned : memoryPlan env e d input with
    | error err =>
      have failed : memoryAdd env e d input = (.error err,e) := by rw [memoryAdd,planned]
      simp [foldLoop,Outlasts,foldsDone,Lasting,failed]
    | ok plan =>
      have unkeyed := fresh.unkeyed _ List.mem_cons_self
      have unused := fresh.unused _ List.mem_cons_self
      have added := memoryAdd_activeText unkeyed unused planned id content
      have after := ih (fresh.step planned)
      dsimp only at after unkeyed unused
      rw [memoryExpire_activeText,added] at after
      have spared (own : id = d.id) : id ∉ expired ∧ ∀ fold ∈ foldsDone env rest
          (memoryExpire d.stamp (memoryAdd env e d input).2 expired), id ∉ fold.1.2 := by
        subst own
        exact ⟨fresh.apart _ List.mem_cons_self _ List.mem_cons_self,fun other done =>
          fresh.apart _ List.mem_cons_self other (List.mem_cons_of_mem _ ((foldsDone_sublist _ _).subset done))⟩
      have answered : memoryAdd env e d input = (.ok plan.add,(memoryAdd env e d input).2) := by
        rw [memoryAdd_planned env planned]
      generalize (memoryAdd env e d input).2 = left at answered after spared
      simp only [foldLoop,Outlasts,foldsDone,Lasting,answered,List.forall_mem_cons]
      rw [after]
      constructor
      · intro given
        rcases given with ⟨⟨⟨own,said,kept⟩ | ⟨old,kept⟩,outside⟩,lasts,others⟩ | later
        · exact Or.inr (Or.inl ⟨own,said,kept,lasts⟩)
        · exact Or.inl ⟨old,⟨kept,lasts⟩,outside,others⟩
        · exact Or.inr (Or.inr later)
      · intro given
        rcases given with ⟨old,⟨kept,lasts⟩,outside,others⟩ | ⟨own,said,kept,lasts⟩ | later
        · exact Or.inl ⟨⟨Or.inr ⟨old,kept⟩,outside⟩,lasts,others⟩
        · exact Or.inl ⟨⟨Or.inl ⟨own,said,kept⟩,(spared own).1⟩,lasts,(spared own).2⟩
        · exact Or.inr later

theorem Lasting.drawn {id : Uuid} {content : String} (folds : List Fold) {e : Engine}
    (lasting : Lasting env id content folds e) : ∃ fold ∈ foldsDone env folds e, fold.2.id = id := by
  induction folds generalizing e with
  | nil => exact lasting.elim
  | cons fold rest ih =>
    obtain ⟨⟨input,expired⟩,d⟩ := fold
    rw [Lasting] at lasting
    rw [foldsDone]
    split
    next failed => simp [failed] at lasting
    next answered =>
      simp only [answered] at lasting
      rcases lasting with ⟨rfl,_⟩ | later
      · exact ⟨_,List.mem_cons_self,rfl⟩
      · obtain ⟨other,done,same⟩ := ih later
        exact ⟨other,List.mem_cons_of_mem _ done,same⟩

/-- The folds of a pass: the plans in order, each with what adding its summary draws. -/
def foldsOf (plans : List (MemoryInput × List Uuid)) (draws : Nat → Draw) : List Fold :=
  plans.zipIdx.map (fun (plan,i) => (plan,draws i))

/-- What was folded is not active, and its content stands in an active summary of the pass. -/
structure FoldsKept (before after : MemoryTable) (folds : List Fold) : Prop where
  closed : ∀ fold ∈ folds, ∀ row ∈ after.rows, row.id ∈ fold.1.2 → row.memory.state ≠ .active
  summarized : ∀ fold ∈ folds, ∀ row ∈ before.rows, row.id ∈ fold.1.2 →
    ∃ summary ∈ after.rows, summary.memory.state = .active ∧ (∃ other ∈ folds, other.2.id = summary.id) ∧
      row.memory.content.toList <:+: summary.memory.content.toList

theorem foldsKept_iff {folds : List Fold} (fresh : FreshFolds folds e.memories)
    (known : ∀ fold ∈ folds, ∀ id ∈ fold.1.2, id ∈ e.memories.keys) :
    FoldsKept e.memories (foldLoop env folds e).2.memories (foldsDone env folds e) ↔
      ∀ fold ∈ foldsDone env folds e, ∀ row ∈ e.memories.rows, row.id ∈ fold.1.2 →
        ∃ id content, Lasting env id content folds e ∧ row.memory.content.toList <:+: content.toList := by
  have part : (foldsDone env folds e).Sublist folds := foldsDone_sublist folds e
  have active := @foldLoop_activeText env folds e fresh
  have new {fold : Fold} (done : fold ∈ foldsDone env folds e) : fold.2.id ∉ e.memories.keys :=
    fresh.unused fold (part.subset done)
  constructor
  · intro kept fold done row member folded
    obtain ⟨summary,there,stands,⟨other,listed,own⟩,told⟩ := kept.summarized fold done row member folded
    rcases (active _ _).mp ⟨summary,there,rfl,stands,rfl⟩ with ⟨⟨old,before,same,_⟩,_⟩ | lasting
    · exact absurd ((Table.mem_keys _ _).mpr ⟨old,before,same.trans own.symm⟩) (new listed)
    · exact ⟨_,_,lasting,told⟩
  · intro carried
    refine ⟨?_,?_⟩
    · intro fold done row there folded stands
      rcases (active _ _).mp ⟨row,there,rfl,stands,rfl⟩ with ⟨_,_,spared⟩ | lasting
      · exact spared fold done folded
      · obtain ⟨other,listed,own⟩ := lasting.drawn
        exact new listed (own ▸ known fold (part.subset done) row.id folded)
    · intro fold done row member folded
      obtain ⟨id,content,lasting,told⟩ := carried fold done row member folded
      obtain ⟨summary,there,rfl,stands,rfl⟩ := (active id content).mpr (Or.inr lasting)
      exact ⟨summary,there,stands,lasting.drawn,told⟩

/-- A pass folds disjoint clusters of two memories or more, and keeps what it folds, when and only when the hits it folds
name two memories each time, and the content of each folded memory stands in a summary that lasts: not evicted as it is
added, and neither merged into nor evicted by the add of a later one. -/
theorem consolidateSimilar_keeps_iff {scope : MemoryScope} {threshold : Rat} {maxRows scanCap : Nat} {near : Neighbours}
    {draws : Nat → Draw} {plans : List (MemoryInput × List Uuid)} (answers : AnswersHome e scope near)
    (ok : memoryConsolidateSimilarPlan e scope threshold maxRows scanCap near = .ok plans)
    (new : ∀ i < plans.length, (draws i).id ∉ e.memories.keys)
    (apart : ∀ i < plans.length, ∀ j < plans.length, (draws i).id = (draws j).id → i = j) :
    let folds := foldsOf plans draws
    (DisjointClusters e.memories scope plans ∧ FoldsKept e.memories
      (memoryConsolidateSimilar env e scope threshold maxRows scanCap near draws).2.memories (foldsDone env folds e)) ↔
      HitsApart e scope threshold (max scanCap 8) near (withVectors e scope maxRows) [] ∧
        ∀ fold ∈ foldsDone env folds e, ∀ row ∈ e.memories.rows, row.id ∈ fold.1.2 →
          ∃ id content, Lasting env id content folds e ∧ row.memory.content.toList <:+: content.toList := by
  intro folds
  obtain ⟨clusters,stored,unkeyed⟩ := similarPlan_clusters answers ok
  have left : (memoryConsolidateSimilar env e scope threshold maxRows scanCap near draws).2 = (foldLoop env folds e).2 := by
    simp only [memoryConsolidateSimilar,ok,folds,foldsOf]
    split
    next failed => rw [failed]
    next done => rw [done]
  have planned {fold : Fold} (inside : fold ∈ folds) : fold.1 ∈ plans ∧ ∃ i < plans.length, fold.2 = draws i := by
    obtain ⟨⟨plan,i⟩,listed,rfl⟩ := List.mem_map.mp inside
    obtain ⟨bound,same⟩ := List.mem_zipIdx' listed
    exact ⟨same ▸ List.getElem_mem bound,i,bound,rfl⟩
  have known : ∀ fold ∈ folds, ∀ id ∈ fold.1.2, id ∈ e.memories.keys := by
    intro fold inside id member
    exact stored fold.1 (planned inside).1 id member
  have fresh : FreshFolds folds e.memories := by
    refine ⟨fun fold inside => unkeyed fold.1 (planned inside).1,?_,?_,?_⟩
    · have indices : folds.map (fun fold => fold.2.id) = (List.range plans.length).map (fun i => (draws i).id) := by
        have numbers := congrArg (List.map (fun i => (draws i).id)) (List.zipIdx_map_snd 0 plans)
        rw [List.map_map,← List.range_eq_range'] at numbers
        simp only [folds,foldsOf,List.map_map]
        exact numbers
      rw [indices]
      refine List.Nodup.map_on ?_ List.nodup_range
      intro i first j second same
      exact apart i (List.mem_range.mp first) j (List.mem_range.mp second) same
    · intro fold inside
      obtain ⟨_,i,bound,same⟩ := planned inside
      rw [same]
      exact new i bound
    · intro fold inside other there member
      obtain ⟨_,i,bound,same⟩ := planned inside
      rw [same] at member
      exact new i bound (known other there _ member)
  rw [left,foldsKept_iff fresh known]
  exact and_congr_left fun _ => clusters

end

def dayNote (content : String) : MemoryInput := MemoryInput.new (.tenant "acme") content

def twoPairs : Engine :=
  [((1 : Uuid),"tea at four"),(2,"tea at 4"),(3,"bus is late"),(4,"bus was late")].foldl (fun e note =>
    (memoryAdd .ascii e { Draw.plain 1000 note.1 with embedding := some [1,0] } (dayNote note.2)).2) (.empty { CoreConfig.default with embedding := true } 2)

def pairNeighbours : Neighbours where
  matched id := if id = 1 ∨ id = 2 then [(1,1),(2,1)] else [(3,1),(4,1)]
  reply _ := none

/-- The summary of the first cluster, and that of the second, which is or is not near the first. -/
def pairDraws (near : List (Uuid × Rat)) : Nat → Draw
  | 0 => { Draw.plain 2000 10 with embedding := some [1,1] }
  | _ => { Draw.plain 3000 11 with embedding := some [1,1], matched := near }

def pairPlans : List (MemoryInput × List Uuid) :=
  (memoryConsolidateSimilarPlan twoPairs (.tenant "acme") (9 / 10) 100 50 pairNeighbours).toOption.getD []

private theorem pairPlans_planned :
    memoryConsolidateSimilarPlan twoPairs (.tenant "acme") (9 / 10) 100 50 pairNeighbours = .ok pairPlans := by
  have answered : (memoryConsolidateSimilarPlan twoPairs (.tenant "acme") (9 / 10) 100 50 pairNeighbours).toOption.isSome =
      true := by
    decide +kernel
  unfold pairPlans
  cases planned : memoryConsolidateSimilarPlan twoPairs (.tenant "acme") (9 / 10) 100 50 pairNeighbours with
  | error err => simp [planned,Except.toOption] at answered
  | ok plans => rfl

private theorem pairNeighbours_home : AnswersHome twoPairs (.tenant "acme") pairNeighbours := by
  have rows : ∀ row ∈ twoPairs.memories.rows, row.memory.scope = MemoryScope.withDefaultTenant (.tenant "acme") := by
    decide +kernel
  intro vector k id hits searched hit inside
  obtain ⟨_,row,there,same⟩ := memoryIndexSearch_active searched inside
  rw [← same]
  exact rows row there

theorem consolidateSimilar_keeps_pairs :
    DisjointClusters twoPairs.memories (.tenant "acme") pairPlans ∧ FoldsKept twoPairs.memories
      (memoryConsolidateSimilar .ascii twoPairs (.tenant "acme") (9 / 10) 100 50 pairNeighbours (pairDraws [])).2.memories
      (foldsDone .ascii (foldsOf pairPlans (pairDraws [])) twoPairs) := by
  refine (consolidateSimilar_keeps_iff pairNeighbours_home pairPlans_planned ?_ ?_).mpr ⟨?_,?_⟩
  · decide +kernel
  · decide +kernel
  · exact ((clusterLoop_pairs _ pairPlans_planned).mp (by decide +kernel)).2
  · have lasting : ∀ fold ∈ foldsDone .ascii (foldsOf pairPlans (pairDraws [])) twoPairs,
        ∀ row ∈ twoPairs.memories.rows, row.id ∈ fold.1.2 →
          Lasting .ascii fold.2.id fold.1.1.content (foldsOf pairPlans (pairDraws [])) twoPairs ∧
            row.memory.content.toList <:+: fold.1.1.content.toList := by
      decide +kernel
    exact fun fold done row there folded => ⟨_,_,lasting fold done row there folded⟩

/-- The second summary is merged into the first, and what the first was about is in no active memory. -/
theorem first_summary_merged :
    (memoryConsolidateSimilar .ascii twoPairs (.tenant "acme") (9 / 10) 100 50 pairNeighbours (pairDraws [(10,1)])).1 =
        .ok 2 ∧
      ¬FoldsKept twoPairs.memories
        (memoryConsolidateSimilar .ascii twoPairs (.tenant "acme") (9 / 10) 100 50 pairNeighbours
          (pairDraws [(10,1)])).2.memories
        (foldsDone .ascii (foldsOf pairPlans (pairDraws [(10,1)])) twoPairs) := by
  refine ⟨by decide +kernel,fun kept => ?_⟩
  have folded : ∃ fold ∈ foldsDone .ascii (foldsOf pairPlans (pairDraws [(10,1)])) twoPairs, (1 : Uuid) ∈ fold.1.2 := by
    decide +kernel
  have original : ∃ row ∈ twoPairs.memories.rows, row.id = 1 ∧ row.memory.content = "tea at four" := by decide +kernel
  have silent : ∀ row ∈ (memoryConsolidateSimilar .ascii twoPairs (.tenant "acme") (9 / 10) 100 50 pairNeighbours
      (pairDraws [(10,1)])).2.memories.rows, row.memory.state = .active →
        ¬"tea at four".toList <:+: row.memory.content.toList := by
    decide +kernel
  obtain ⟨fold,done,member⟩ := folded
  obtain ⟨row,there,own,content⟩ := original
  obtain ⟨summary,left,active,_,told⟩ := kept.summarized fold done row there (own ▸ member)
  exact silent summary left active (content ▸ told)

end Ecphoria
