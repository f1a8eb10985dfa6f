import Ecphoria.Cluster.Shards
import Ecphoria.Engine.Migration

/-! Carrying out the moves of a plan between the shards of one process. Only the memories of a
tenant move; its events and its state stay where they are. -/
namespace Ecphoria
open Library

/-- Where a move gives up. Of an import the rows before the one that fails are stored. -/
inductive MoveFault where
  | exporting
  | importing (rows : Nat)
  | deleting

/-- A shard with the limit of its queries. -/
structure ShardHandle where
  engine : Engine
  maxRows : Nat

structure ShardedCluster where
  shards : List ShardHandle

namespace ShardHandle

def exportTenantMemories (s : ShardHandle) (tenant : String) : List Memory :=
  s.engine.memories.listByTenant tenant s.maxRows

def importMemories (s : ShardHandle) (memories : List Memory) : ShardHandle :=
  { s with engine := { s.engine with memories := s.engine.memories.importMemories memories } }

def dropMemories (s : ShardHandle) (tenant : String) : ShardHandle :=
  { s with engine := s.engine.dropMemories tenant }

def migrateTenantMemoriesTo (source dest : ShardHandle) (tenant : String) (fault : Option MoveFault) :
    Option Nat × ShardHandle × ShardHandle :=
  let memories := source.exportTenantMemories tenant
  match fault with
  | some .exporting => (none,source,dest)
  | some (.importing rows) => (none,source,dest.importMemories (memories.take rows))
  | some .deleting => (none,source,dest.importMemories memories)
  | none => (some memories.length,source.dropMemories tenant,dest.importMemories memories)

end ShardHandle

namespace ShardedCluster

def applyMove (c : ShardedCluster) (m : ShardMove) (fault : Option MoveFault) : Option Nat × ShardedCluster :=
  if m.fromShard = m.toShard then (some 0,c)
  else match c.shards[m.fromShard]?,c.shards[m.toShard]? with
    | some source,some dest =>
      let (moved,source,dest) := source.migrateTenantMemoriesTo dest m.key fault
      (moved,⟨(c.shards.set m.fromShard source).set m.toShard dest⟩)
    | _,_ => (some 0,c)

def applyMoves : ShardedCluster → List (ShardMove × Option MoveFault) → Option Nat × ShardedCluster
  | c,[] => (some 0,c)
  | c,(m,fault) :: moves =>
    match c.applyMove m fault with
    | (none,c) => (none,c)
    | (some n,c) => ((applyMoves c moves).1.map (n + ·),(applyMoves c moves).2)

def carryOut (c : ShardedCluster) (m : ShardMove) : ShardedCluster := (c.applyMove m none).2

/-- The move names two different shards, and the cluster has both. -/
def Names (c : ShardedCluster) (m : ShardMove) (source dest : ShardHandle) : Prop :=
  m.fromShard ≠ m.toShard ∧ c.shards[m.fromShard]? = some source ∧ c.shards[m.toShard]? = some dest

section
variable {c : ShardedCluster} {m : ShardMove} {source dest : ShardHandle}

theorem applyMove_named (named : c.Names m source dest) (fault : Option MoveFault) :
    c.applyMove m fault = ((source.migrateTenantMemoriesTo dest m.key fault).1,
      ⟨(c.shards.set m.fromShard (source.migrateTenantMemoriesTo dest m.key fault).2.1).set m.toShard
        (source.migrateTenantMemoriesTo dest m.key fault).2.2⟩) := by
  rw [applyMove,if_neg named.1,named.2.1,named.2.2]

theorem applyMove_skipped (skipped : ∀ source dest, ¬c.Names m source dest) (fault : Option MoveFault) :
    c.applyMove m fault = (some 0,c) := by
  unfold applyMove
  split
  next => rfl
  next apart =>
    split
    next source dest from' to' => exact absurd ⟨apart,from',to'⟩ (skipped source dest)
    next => rfl

theorem applyMove_ok {fault : Option MoveFault} {n : Nat} (ok : (c.applyMove m fault).1 = some n) :
    (c.applyMove m fault).2 = c.carryOut m := by
  by_cases named : ∃ source dest, c.Names m source dest
  · obtain ⟨source,dest,named⟩ := named
    rw [carryOut,applyMove_named named,applyMove_named named]
    rw [applyMove_named named] at ok
    cases fault with
    | none => rfl
    | some fault => cases fault <;> cases ok
  · have skipped : ∀ source dest, ¬c.Names m source dest := fun source dest given => named ⟨source,dest,given⟩
    rw [carryOut,applyMove_skipped skipped,applyMove_skipped skipped]

end

theorem applyMoves_ok {c : ShardedCluster} {moves : List (ShardMove × Option MoveFault)} {n : Nat}
    (ok : (c.applyMoves moves).1 = some n) : (c.applyMoves moves).2 = run carryOut c (moves.map Prod.fst) := by
  induction moves generalizing c n with
  | nil => rfl
  | cons item moves ih =>
    obtain ⟨m,fault⟩ := item
    rw [applyMoves] at ok ⊢
    cases answer : c.applyMove m fault with
    | mk moved after =>
      cases moved with
      | none =>
        rw [answer] at ok
        cases ok
      | some k =>
        rw [answer] at ok
        have carried : after = c.carryOut m := by
          have done := applyMove_ok (congrArg Prod.fst answer)
          rwa [answer] at done
        obtain ⟨rest,left,_⟩ := Option.map_eq_some_iff.mp ok
        exact (ih left).trans (by rw [carried]; rfl)

theorem applyMoves_skip {c : ShardedCluster} {before after : List (ShardMove × Option MoveFault)} {m : ShardMove}
    {fault : Option MoveFault} (apart : m.fromShard = m.toShard ∨ c.shards.length ≤ m.fromShard ∨
      c.shards.length ≤ m.toShard) :
    c.applyMoves (before ++ (m,fault) :: after) = c.applyMoves (before ++ after) := by
  induction before generalizing c with
  | nil =>
    have skipped : ∀ source dest, ¬c.Names m source dest := by
      rintro source dest ⟨two,origin,target⟩
      have lower := (List.getElem?_eq_some_iff.mp origin).1
      have upper := (List.getElem?_eq_some_iff.mp target).1
      rcases apart with same | beyond | beyond
      · exact two same
      · omega
      · omega
    rw [List.nil_append,List.nil_append,applyMoves,applyMove_skipped skipped]
    simp
  | cons item before ih =>
    obtain ⟨other,fault'⟩ := item
    rw [List.cons_append,List.cons_append,applyMoves,applyMoves]
    have length : (c.applyMove other fault').2.shards.length = c.shards.length := by
      unfold applyMove
      split
      next => rfl
      next =>
        split
        next => simp
        next => rfl
    cases answer : c.applyMove other fault' with
    | mk moved next =>
      rw [answer] at length
      rw [← length] at apart
      cases moved with
      | none => rfl
      | some n => simp only [ih apart]

end ShardedCluster

/-- The tables that hold neither memories nor edges. -/
def ShardHandle.others (s : ShardHandle) : Tables := { s.engine.tables with memories := .empty, edges := .empty }

namespace ShardHandle

theorem dropMemories_tables (s : ShardHandle) (tenant : String) :
    (s.dropMemories tenant).engine.tables =
      { s.engine.tables with
        memories := s.engine.memories.delete (MemoryTable.ofTenant tenant)
        edges := s.engine.edges.delete (fun row => row.tenantId = tenant) } := (forgetAll_frame _ _).1

theorem dropMemories_memories (s : ShardHandle) (tenant : String) :
    (s.dropMemories tenant).engine.memories = s.engine.memories.delete (MemoryTable.ofTenant tenant) :=
  congrArg Tables.memories (s.dropMemories_tables tenant)

theorem dropMemories_edges (s : ShardHandle) (tenant : String) :
    (s.dropMemories tenant).engine.edges = s.engine.edges.delete (fun row => row.tenantId = tenant) :=
  congrArg Tables.edges (s.dropMemories_tables tenant)

theorem dropMemories_others (s : ShardHandle) (tenant : String) : (s.dropMemories tenant).others = s.others := by
  unfold others
  rw [s.dropMemories_tables tenant]

theorem mem_dropMemories {s : ShardHandle} {tenant : String} {row : MemoryRow} :
    row ∈ (s.dropMemories tenant).engine.memories.rows ↔
      row ∈ s.engine.memories.rows ∧ row.memory.scope.tenantId ≠ tenant := by
  rw [s.dropMemories_memories,Table.mem_delete]
  simp [MemoryTable.ofTenant]

theorem mem_importMemories {source dest : ShardHandle} {tenant : String} {row : MemoryRow}
    (inside : row ∈ (dest.importMemories (source.exportTenantMemories tenant)).engine.memories.rows) :
    row ∈ dest.engine.memories.rows ∨ row.memory.scope.tenantId = tenant ∧
      ∃ origin ∈ source.engine.memories.rows, origin.memory.scope.tenantId = tenant ∧ origin.id = row.id := by
  rcases MemoryTable.mem_upsertRows inside with ⟨new,listed,rfl⟩ | ⟨old,_⟩
  · obtain ⟨memory,member,rfl⟩ := List.mem_map.mp listed
    obtain ⟨origin,there,rfl,owned,_⟩ := MemoryTable.mem_listByTenant member
    exact Or.inr ⟨owned,origin,there,owned,rfl⟩
  · exact Or.inl old

theorem importMemories_keeps {source dest : ShardHandle} {tenant : String} {row : MemoryRow}
    (inside : row ∈ dest.engine.memories.rows)
    (apart : ∀ origin ∈ source.engine.memories.rows, origin.memory.scope.tenantId = tenant → origin.id ≠ row.id) :
    row ∈ (dest.importMemories (source.exportTenantMemories tenant)).engine.memories.rows := by
  refine MemoryTable.mem_upsertRows_of_apart inside ?_
  intro new listed
  obtain ⟨memory,member,rfl⟩ := List.mem_map.mp listed
  obtain ⟨origin,there,rfl,owned,_⟩ := MemoryTable.mem_listByTenant member
  exact apart origin there owned

end ShardHandle

theorem MemoryTable.nodup_listByTenant (t : MemoryTable) (tenant : String) (limit : Nat) :
    ((t.listByTenant tenant limit).map Memory.id).Nodup := by
  have kept : (((t.rows.filter (fun row => ofTenant tenant row && row.memory.state = .active)).map
      MemoryRow.memory).map Memory.id).Nodup := by
    rw [List.map_map]
    exact t.unique.sublist (List.filter_sublist.map _)
  have sorted := ((List.perm_insertionSort (fun a b : Memory => b.updatedAt ≤ a.updatedAt) _).map
    Memory.id).nodup_iff.mpr kept
  exact sorted.sublist ((List.take_sublist _ _).map _)

theorem MemoryTable.listByTenant_few {t : MemoryTable} {tenant : String} {limit : Nat}
    (few : (t.rows.filter (fun row => ofTenant tenant row && row.memory.state = .active)).length ≤
      clampNat limit 1 1000000) {row : MemoryRow} (inside : row ∈ t.rows)
    (owned : row.memory.scope.tenantId = tenant) (active : row.memory.state = .active) :
    row.memory ∈ t.listByTenant tenant limit := by
  have sorted := List.perm_insertionSort (fun a b : Memory => b.updatedAt ≤ a.updatedAt)
    ((t.rows.filter (fun row => ofTenant tenant row && row.memory.state = .active)).map MemoryRow.memory)
  rw [listByTenant,List.take_of_length_le (by rw [sorted.length_eq,List.length_map]; exact few)]
  refine sorted.mem_iff.mpr (List.mem_map_of_mem (List.mem_filter.mpr ⟨inside,?_⟩))
  simp [ofTenant,owned,active]

namespace ShardedCluster

section
variable {c : ShardedCluster} {m : ShardMove} {source dest : ShardHandle}

theorem carryOut_skipped (skipped : ∀ source dest, ¬c.Names m source dest) : c.carryOut m = c := by
  rw [carryOut,applyMove_skipped skipped]

theorem carryOut_shards (named : c.Names m source dest) (i : Nat) : (c.carryOut m).shards[i]? =
    if i = m.toShard then some (dest.importMemories (source.exportTenantMemories m.key))
    else if i = m.fromShard then some (source.dropMemories m.key) else c.shards[i]? := by
  have lower := (List.getElem?_eq_some_iff.mp named.2.1).1
  have upper := (List.getElem?_eq_some_iff.mp named.2.2).1
  rw [carryOut,applyMove_named named]
  simp only [List.getElem?_set,List.length_set]
  by_cases target : i = m.toShard
  · rw [if_pos target.symm,if_pos upper,if_pos target]
    rfl
  · rw [if_neg (Ne.symm target),if_neg target]
    by_cases origin : i = m.fromShard
    · rw [if_pos origin.symm,if_pos lower,if_pos origin]
      rfl
    · rw [if_neg (Ne.symm origin),if_neg origin]

theorem carryOut_cases (c : ShardedCluster) (m : ShardMove) (i : Nat) : (c.carryOut m).shards[i]? = c.shards[i]? ∨
    ∃ source dest, c.Names m source dest ∧
      (i = m.toShard ∧ c.shards[i]? = some dest ∧
          (c.carryOut m).shards[i]? = some (dest.importMemories (source.exportTenantMemories m.key)) ∨
        i = m.fromShard ∧ c.shards[i]? = some source ∧ (c.carryOut m).shards[i]? = some (source.dropMemories m.key)) := by
  by_cases named : ∃ source dest, c.Names m source dest
  · obtain ⟨source,dest,named⟩ := named
    have after := carryOut_shards named i
    by_cases target : i = m.toShard
    · rw [if_pos target] at after
      exact Or.inr ⟨source,dest,named,Or.inl ⟨target,target ▸ named.2.2,after⟩⟩
    · rw [if_neg target] at after
      by_cases origin : i = m.fromShard
      · rw [if_pos origin] at after
        exact Or.inr ⟨source,dest,named,Or.inr ⟨origin,origin ▸ named.2.1,after⟩⟩
      · rw [if_neg origin] at after
        exact Or.inl after
  · rw [carryOut_skipped (fun source dest given => named ⟨source,dest,given⟩)]
    exact Or.inl rfl

end

/-- What a shard keeps over moves of other tenants: which shards there are, their limits, their other tables, and
that what they have of the tenant they had before. -/
structure Bystander (tenant : String) (before after : ShardHandle) : Prop where
  maxRows : after.maxRows = before.maxRows
  rows : ∀ row ∈ after.engine.memories.rows, row.memory.scope.tenantId = tenant → row ∈ before.engine.memories.rows
  edges : ∀ edge ∈ after.engine.edges.rows, edge.tenantId = tenant → edge ∈ before.engine.edges.rows

theorem carryOut_bystander {c : ShardedCluster} {m : ShardMove} {tenant : String} (other : m.key ≠ tenant) {i : Nat}
    {s : ShardHandle} (there : c.shards[i]? = some s) :
    ∃ after, (c.carryOut m).shards[i]? = some after ∧ Bystander tenant s after := by
  rcases carryOut_cases c m i with same | ⟨source,dest,_,⟨_,here,after⟩ | ⟨_,here,after⟩⟩
  · exact ⟨s,same.trans there,⟨rfl,fun _ inside _ => inside,fun _ inside _ => inside⟩⟩
  · cases here.symm.trans there
    refine ⟨_,after,⟨rfl,?_,fun _ inside _ => inside⟩⟩
    intro row inside owned
    rcases ShardHandle.mem_importMemories inside with old | ⟨moved,_⟩
    · exact old
    · exact absurd (moved.symm.trans owned) other
  · cases here.symm.trans there
    refine ⟨_,after,⟨rfl,?_,?_⟩⟩
    · intro row inside _
      exact (ShardHandle.mem_dropMemories.mp inside).1
    · intro edge inside _
      rw [ShardHandle.dropMemories_edges,Table.mem_delete] at inside
      exact inside.1

theorem run_bystander {c : ShardedCluster} {moves : List ShardMove} {tenant : String}
    (others : ∀ m ∈ moves, m.key ≠ tenant) {i : Nat} {s : ShardHandle} (there : c.shards[i]? = some s) :
    ∃ after, (run carryOut c moves).shards[i]? = some after ∧ Bystander tenant s after := by
  induction moves generalizing c s with
  | nil => exact ⟨s,there,⟨rfl,fun _ inside _ => inside,fun _ inside _ => inside⟩⟩
  | cons m moves ih =>
    obtain ⟨middle,reached,first⟩ := carryOut_bystander (others m List.mem_cons_self) there
    obtain ⟨after,last,second⟩ := ih (fun m inside => others m (List.mem_cons_of_mem _ inside)) reached
    exact ⟨after,last,⟨second.maxRows.trans first.maxRows,
      fun row inside owned => first.rows row (second.rows row inside owned) owned,
      fun edge inside owned => first.edges edge (second.edges edge inside owned) owned⟩⟩

theorem run_others (c : ShardedCluster) (moves : List ShardMove) (i : Nat) :
    (run carryOut c moves).shards[i]?.map ShardHandle.others = c.shards[i]?.map ShardHandle.others := by
  induction moves generalizing c with
  | nil => rfl
  | cons m moves ih =>
    refine (ih (c.carryOut m)).trans ?_
    rcases carryOut_cases c m i with same | ⟨source,dest,_,⟨_,here,after⟩ | ⟨_,here,after⟩⟩
    · rw [same]
    · rw [here,after]
      rfl
    · rw [here,after,Option.map_some,ShardHandle.dropMemories_others]
      rfl

def Own (c : ShardedCluster) (tenant : String) (id : Uuid) : Prop :=
  ∀ (i : Nat) (s : ShardHandle), c.shards[i]? = some s → ∀ row ∈ s.engine.memories.rows, row.id = id →
    row.memory.scope.tenantId = tenant

theorem Own.carryOut {c : ShardedCluster} {tenant : String} {id : Uuid} (own : c.Own tenant id) (m : ShardMove) :
    (c.carryOut m).Own tenant id := by
  intro i s there row inside same
  rcases carryOut_cases c m i with kept | ⟨source,dest,named,⟨_,here,after⟩ | ⟨_,here,after⟩⟩
  · exact own i s (kept.symm.trans there) row inside same
  · cases after.symm.trans there
    rcases ShardHandle.mem_importMemories inside with old | ⟨moved,origin,among,owned,alike⟩
    · exact own i dest here row old same
    · rw [moved,← owned]
      exact own m.fromShard source named.2.1 origin among (alike.trans same)
  · cases after.symm.trans there
    exact own i source here row (ShardHandle.mem_dropMemories.mp inside).1 same

theorem run_keeps {c : ShardedCluster} {moves : List ShardMove} {tenant : String}
    (others : ∀ m ∈ moves, m.key ≠ tenant) {row : MemoryRow} (own : c.Own tenant row.id) {i : Nat} {s : ShardHandle}
    (there : c.shards[i]? = some s) (inside : row ∈ s.engine.memories.rows) :
    (run carryOut c moves).Own tenant row.id ∧
      ∃ after, (run carryOut c moves).shards[i]? = some after ∧ row ∈ after.engine.memories.rows := by
  induction moves generalizing c s with
  | nil => exact ⟨own,s,there,inside⟩
  | cons m moves ih =>
    have rest : ∀ m ∈ moves, m.key ≠ tenant := fun m inside => others m (List.mem_cons_of_mem _ inside)
    have other := others m List.mem_cons_self
    have step : ∃ after, (c.carryOut m).shards[i]? = some after ∧ row ∈ after.engine.memories.rows := by
      rcases carryOut_cases c m i with same | ⟨source,dest,named,⟨_,here,after⟩ | ⟨_,here,after⟩⟩
      · exact ⟨s,same.trans there,inside⟩
      · cases here.symm.trans there
        refine ⟨_,after,ShardHandle.importMemories_keeps inside ?_⟩
        intro origin among owned alike
        exact other (owned.symm.trans (own m.fromShard source named.2.1 origin among alike))
      · cases here.symm.trans there
        exact ⟨_,after,ShardHandle.mem_dropMemories.mpr
          ⟨inside,fun same => other (same.symm.trans (own i _ there row inside rfl))⟩⟩
    obtain ⟨after,reached,kept⟩ := step
    exact ih rest (own.carryOut m) reached kept

def activeRows (s : ShardHandle) (tenant : String) : List MemoryRow :=
  s.engine.memories.rows.filter (fun row => MemoryTable.ofTenant tenant row && row.memory.state = .active)

theorem Bystander.few {tenant : String} {before after : ShardHandle} (kept : Bystander tenant before after)
    (few : (activeRows before tenant).length ≤ clampNat before.maxRows 1 1000000) :
    (activeRows after tenant).length ≤ clampNat after.maxRows 1 1000000 := by
  have distinct : (activeRows after tenant).Nodup :=
    List.Nodup.of_map MemoryRow.id (after.engine.memories.unique.sublist (List.filter_sublist.map _))
  have among : activeRows after tenant ⊆ activeRows before tenant := by
    intro row inside
    obtain ⟨there,chosen⟩ := List.mem_filter.mp inside
    have owned : row.memory.scope.tenantId = tenant := by
      simp only [MemoryTable.ofTenant,Bool.and_eq_true,decide_eq_true_eq] at chosen
      exact chosen.1
    exact List.mem_filter.mpr ⟨kept.rows row there owned,chosen⟩
  calc (activeRows after tenant).length ≤ (activeRows before tenant).length := (distinct.subperm among).length_le
    _ ≤ clampNat before.maxRows 1 1000000 := few
    _ = clampNat after.maxRows 1 1000000 := by rw [kept.maxRows]

/-- At the end of a run, for the only move of its tenant. -/
structure Moved (c c' : ShardedCluster) (m : ShardMove) (source source' dest' : ShardHandle) : Prop where
  left : c'.shards[m.fromShard]? = some source'
  reached : c'.shards[m.toShard]? = some dest'
  memoryless : ∀ row ∈ source'.engine.memories.rows, row.memory.scope.tenantId ≠ m.key
  edgeless : ∀ edge ∈ source'.engine.edges.rows, edge.tenantId ≠ m.key
  arrived : (activeRows source m.key).length ≤ clampNat source.maxRows 1 1000000 →
    ∀ row ∈ activeRows source m.key, c.Own m.key row.id → ∃ copy ∈ dest'.engine.memories.rows,
      copy.memory = row.stored.memory

theorem run_moved {c : ShardedCluster} {before after : List ShardMove} {m : ShardMove}
    (others : ∀ other ∈ before ++ after, other.key ≠ m.key) {source dest : ShardHandle} (named : c.Names m source dest) :
    ∃ source' dest', Moved c (run carryOut c (before ++ m :: after)) m source source' dest' := by
  have ahead : ∀ other ∈ before, other.key ≠ m.key := fun other inside => others other (List.mem_append_left _ inside)
  have behind : ∀ other ∈ after, other.key ≠ m.key := fun other inside => others other (List.mem_append_right _ inside)
  obtain ⟨source₁,origin,kept⟩ := run_bystander ahead named.2.1
  obtain ⟨dest₁,target,_⟩ := run_bystander ahead named.2.2
  have turn : (run carryOut c before).Names m source₁ dest₁ := ⟨named.1,origin,target⟩
  have left := carryOut_shards turn m.fromShard
  have reached := carryOut_shards turn m.toShard
  rw [if_neg named.1,if_pos rfl] at left
  rw [if_pos rfl] at reached
  obtain ⟨source₂,last,bystander⟩ := run_bystander behind left
  obtain ⟨dest₂,arrives,_⟩ := run_bystander behind reached
  rw [run_append,run_cons]
  refine ⟨source₂,dest₂,last,arrives,?_,?_,?_⟩
  · intro row inside owned
    exact (ShardHandle.mem_dropMemories.mp (bystander.rows row inside owned)).2 owned
  · intro edge inside owned
    have before := bystander.edges edge inside owned
    rw [ShardHandle.dropMemories_edges,Table.mem_delete] at before
    simp [owned] at before
  · intro few row inside own
    obtain ⟨there,chosen⟩ := List.mem_filter.mp inside
    simp only [MemoryTable.ofTenant,Bool.and_eq_true,decide_eq_true_eq] at chosen
    obtain ⟨owned,active⟩ := chosen
    obtain ⟨own₁,_,same,here⟩ := run_keeps ahead own named.2.1 there
    cases same.symm.trans origin
    have exported : row.memory ∈ source₁.exportTenantMemories m.key :=
      MemoryTable.listByTenant_few (kept.few few) here owned active
    have landed : (⟨row.memory,none⟩ : MemoryRow).stored ∈
        (dest₁.importMemories (source₁.exportTenantMemories m.key)).engine.memories.rows :=
      MemoryTable.importMemories_lands (MemoryTable.nodup_listByTenant _ _ _) exported
    have own₂ : ((run carryOut c before).carryOut m).Own m.key (⟨row.memory,none⟩ : MemoryRow).stored.id :=
      own₁.carryOut m
    obtain ⟨_,_,found,stays⟩ := run_keeps behind own₂ reached landed
    cases found.symm.trans arrives
    exact ⟨_,stays,rfl⟩

/-- Moves that answer: every move that names two shards has taken the active memories of its tenant from the one to
the other and left no memory and no edge of the tenant behind; the rest of the tenant stays, and other moves are
passed over. -/
theorem applyMoves_carries {c c' : ShardedCluster} {moves : List (ShardMove × Option MoveFault)} {n : Nat}
    (ok : c.applyMoves moves = (some n,c')) :
    (∀ i : Nat, c'.shards[i]?.map ShardHandle.others = c.shards[i]?.map ShardHandle.others) ∧
      ∀ before m fault after, moves = before ++ (m,fault) :: after →
        (m.fromShard = m.toShard ∨ c.shards.length ≤ m.fromShard ∨ c.shards.length ≤ m.toShard →
          c.applyMoves (before ++ after) = (some n,c')) ∧
        ((∀ other ∈ before ++ after, other.1.key ≠ m.key) → ∀ source dest, c.Names m source dest →
          ∃ source' dest', Moved c c' m source source' dest') := by
  have carried : c' = run carryOut c (moves.map Prod.fst) := by
    have done := applyMoves_ok (congrArg Prod.fst ok)
    rwa [ok] at done
  refine ⟨?_,?_⟩
  · intro i
    rw [carried]
    exact run_others c _ i
  · intro before m fault after split
    refine ⟨?_,?_⟩
    · intro apart
      rw [← ok,split]
      exact (applyMoves_skip apart).symm
    · intro others source dest named
      rw [carried,split,List.map_append,List.map_cons]
      refine run_moved ?_ named
      intro other inside
      rw [← List.map_append] at inside
      obtain ⟨item,among,rfl⟩ := List.mem_map.mp inside
      exact others item among

/-- Two shards, the first with a memory and an event of acme and a memory of globex. -/
def acmeShards : ShardedCluster :=
  let first := (memoryAdd .ascii (.empty .default 2) (.plain 5000 1) (.new (.tenant "acme") "green")).2
  let stored := (memoryAdd .ascii first (.plain 6000 3) (.new (.tenant "globex") "blue")).2
  let event : Event := ⟨2,"app","login",.obj [("_tenant_id",.str "acme")],0,none,none,[],none⟩
  ⟨[⟨{ stored with episodic := stored.episodic.insertOrIgnore event.toRow },10000⟩,⟨.empty .default 2,10000⟩]⟩

def acmeMoves : List (ShardMove × Option MoveFault) := [(⟨"acme",0,1⟩,none),(⟨"globex",0,7⟩,none)]

/-- The move of acme is made, the one of globex passed over. -/
theorem applyMoves_carries_acme :
    ∃ source dest source' dest', acmeShards.Names ⟨"acme",0,1⟩ source dest ∧
      Moved acmeShards (acmeShards.applyMoves acmeMoves).2 ⟨"acme",0,1⟩ source source' dest' ∧
      acmeShards.applyMoves [(⟨"acme",0,1⟩,none)] = (some 1,(acmeShards.applyMoves acmeMoves).2) := by
  have ok : acmeShards.applyMoves acmeMoves = (some 1,(acmeShards.applyMoves acmeMoves).2) := by
    apply Prod.ext
    · decide +kernel
    · rfl
  obtain ⟨_,each⟩ := applyMoves_carries ok
  have named : acmeShards.Names ⟨"acme",0,1⟩ acmeShards.shards[0] acmeShards.shards[1] := ⟨by decide,rfl,rfl⟩
  obtain ⟨source',dest',moved⟩ := (each [] ⟨"acme",0,1⟩ none [(⟨"globex",0,7⟩,none)] rfl).2 (by decide) _ _ named
  have skipped := (each [(⟨"acme",0,1⟩,none)] ⟨"globex",0,7⟩ none [] rfl).1 (by decide)
  exact ⟨_,_,source',dest',named,moved,skipped⟩

/-- The call answers, although one move names a shard that is not there, and the event stays on the first shard. -/
theorem events_stay_behind :
    (acmeShards.applyMoves acmeMoves).1 = some 1 ∧
      (acmeShards.applyMoves acmeMoves).2.shards.map (fun s => s.engine.episodic.rows.map EventRow.tenantId) =
        [["acme"],[]] := by
  decide +kernel

end ShardedCluster

end Ecphoria
