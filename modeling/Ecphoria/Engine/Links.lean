import Ecphoria.Engine.DocumentFrame
import Ecphoria.Engine.Review
import Mathlib.Data.Finset.Lattice.Fold
import Mathlib.Logic.Relation

/-! The links between versions. A plan closes a version and links the new row to it; a
resolved contradiction links the rows it closes to the one it keeps, which stays active. -/
namespace Ecphoria
open Library

/-- The row `a` says that it supersedes `b`. -/
def Succeeds (t : MemoryTable) (a b : Uuid) : Prop := ∃ row ∈ t.rows, row.id = a ∧ row.memory.supersedes = some b

def ClosedAt (t : MemoryTable) (scope : MemoryScope) (instant : Int) (id : Uuid) : Prop :=
  ∃ old ∈ t.rows, old.id = id ∧ old.memory.scope = scope ∧ old.memory.state ≠ .active ∧ old.memory.validTo = some instant

/-- Every link leads to a row of the scope that was closed when the linking one began, and none leads back. -/
structure LinksTrue (t : MemoryTable) : Prop where
  found : ∀ row ∈ t.rows, ∀ id, row.memory.supersedes = some id → ClosedAt t row.memory.scope row.memory.validFrom id
  acyclic : ∀ id, ¬Relation.TransGen (Succeeds t) id id

/-- The table keeps timestamps as it stores them, and a link leads to a row of lower rank. -/
structure WellLinked (t : MemoryTable) : Prop where
  recorded : RowsRecorded t
  found : ∀ row ∈ t.rows, ∀ id, row.memory.supersedes = some id → ClosedAt t row.memory.scope row.memory.validFrom id
  ranked : ∃ rank : Uuid → Nat, ∀ a b, Succeeds t a b → rank b < rank a

/-- The row is written in the place of an active one and keeps what links are about. -/
def KeepsRow (t : MemoryTable) (row : MemoryRow) : Prop :=
  ∃ old ∈ t.rows, old.id = row.id ∧ old.memory.state = .active ∧ row.memory.scope = old.memory.scope ∧
    row.memory.validFrom = old.memory.validFrom ∧ row.memory.supersedes = old.memory.supersedes

/-- The row is new, and what it links to is closed by the rows beside it. -/
def Continues (t : MemoryTable) (rows : List MemoryRow) (row : MemoryRow) : Prop :=
  row.id ∉ t.keys ∧ ∀ id, row.memory.supersedes = some id → id ∈ t.keys ∧ ∃ closed ∈ rows, closed.id = id ∧
    closed.memory.scope = row.memory.scope ∧ closed.memory.state ≠ .active ∧
    closed.memory.validTo = some row.memory.validFrom

structure LinkRows (t : MemoryTable) (rows : List MemoryRow) : Prop where
  distinct : (rows.map MemoryRow.id).Nodup
  each : ∀ row ∈ rows, KeepsRow t row ∨ Continues t rows row

theorem WellLinked.linksTrue {t : MemoryTable} (linked : WellLinked t) : LinksTrue t where
  found := linked.found
  acyclic := by
    intro id cycle
    obtain ⟨rank,falls⟩ := linked.ranked
    have below : Relation.TransGen (· > ·) (rank id) (rank id) := cycle.lift rank falls
    rw [Relation.transGen_eq_self] at below
    exact lt_irrefl _ below

theorem wellLinked_empty : WellLinked (Table.empty : MemoryTable) := by
  refine ⟨?_,?_,fun _ => 0,?_⟩
  · intro row member
    cases member
  · intro row member
    cases member
  · rintro a b ⟨row,member,_⟩
    cases member

theorem LinkRows.nil (t : MemoryTable) : LinkRows t [] := ⟨List.nodup_nil,by simp⟩

theorem LinkRows.append {t : MemoryTable} {first second : List MemoryRow} (links : LinkRows t first)
    (more : LinkRows t second) (apart : ∀ row ∈ second, row.id ∉ first.map MemoryRow.id) :
    LinkRows t (first ++ second) where
  distinct := by
    rw [List.map_append]
    refine links.distinct.append more.distinct ?_
    intro id inside beside
    obtain ⟨row,member,rfl⟩ := List.mem_map.mp beside
    exact apart row member inside
  each := by
    have widen {rows : List MemoryRow} (part : rows ⊆ first ++ second) {row : MemoryRow}
        (either : KeepsRow t row ∨ Continues t rows row) : KeepsRow t row ∨ Continues t (first ++ second) row := by
      refine either.imp_right ?_
      rintro ⟨new,closes⟩
      refine ⟨new,fun id linked => ?_⟩
      obtain ⟨known,closed,inside,rest⟩ := closes id linked
      exact ⟨known,closed,part inside,rest⟩
    intro row inside
    rcases List.mem_append.mp inside with inside | inside
    · exact widen (List.subset_append_left _ _) (links.each row inside)
    · exact widen (List.subset_append_right _ _) (more.each row inside)

theorem ClosedAt.upsertRows {t : MemoryTable} {rows : List MemoryRow} (links : LinkRows t rows) {scope : MemoryScope}
    {instant : Int} {id : Uuid} (closed : ClosedAt t scope instant id) :
    ClosedAt (t.upsertRows rows) scope instant id := by
  obtain ⟨old,member,same,placed,shut,ends⟩ := closed
  refine ⟨old,MemoryTable.mem_upsertRows_of_apart member ?_,same,placed,shut,ends⟩
  intro row inside equal
  rcases links.each row inside with ⟨other,there,key,active,_⟩ | ⟨new,_⟩
  · cases t.eq_of_key there member (key.trans equal)
    exact shut active
  · exact new ((Table.mem_keys _ _).mpr ⟨old,member,equal.symm⟩)

theorem ClosedAt.known {t : MemoryTable} {scope : MemoryScope} {instant : Int} {id : Uuid}
    (closed : ClosedAt t scope instant id) : id ∈ t.keys := by
  obtain ⟨old,member,same,_⟩ := closed
  exact (Table.mem_keys _ _).mpr ⟨old,member,same⟩

theorem LinkRows.closes {t : MemoryTable} {rows : List MemoryRow} (links : LinkRows t rows) {row closed : MemoryRow}
    (inside : closed ∈ rows) (placed : closed.memory.scope = row.memory.scope) (shut : closed.memory.state ≠ .active)
    (ends : closed.memory.validTo = some row.memory.validFrom) :
    ClosedAt (t.upsertRows rows) row.stored.memory.scope row.stored.memory.validFrom closed.id := by
  obtain ⟨written,listed,same,there⟩ := MemoryTable.exists_upsertRows_written (t := t) inside
  cases List.inj_on_of_nodup_map links.distinct listed inside same
  refine ⟨closed.stored,there,rfl,placed,shut,?_⟩
  change closed.memory.validTo.map micros = some (micros row.memory.validFrom)
  rw [ends,Option.map_some]

theorem RowsRecorded.validFrom {t : MemoryTable} (recorded : RowsRecorded t) {row : MemoryRow} (member : row ∈ t.rows) :
    micros row.memory.validFrom = row.memory.validFrom :=
  congrArg (fun row : MemoryRow => row.memory.validFrom) (recorded row member)

theorem WellLinked.found_upsertRows {t : MemoryTable} {rows : List MemoryRow} (linked : WellLinked t)
    (links : LinkRows t rows) : ∀ row ∈ (t.upsertRows rows).rows, ∀ id, row.memory.supersedes = some id →
      ClosedAt (t.upsertRows rows) row.memory.scope row.memory.validFrom id := by
  intro row member id points
  rcases MemoryTable.mem_upsertRows member with ⟨written,inside,rfl⟩ | ⟨old,_⟩
  · rcases links.each written inside with ⟨old,there,_,_,placed,since,same⟩ | ⟨_,closes⟩
    · have before := (linked.found old there id (same.symm.trans points)).upsertRows links
      have scope : written.stored.memory.scope = old.memory.scope := placed
      have start : written.stored.memory.validFrom = old.memory.validFrom := by
        change micros written.memory.validFrom = _
        rw [since,linked.recorded.validFrom there]
      rwa [scope,start]
    · obtain ⟨_,closed,listed,rfl,placed,shut,ends⟩ := closes id points
      exact links.closes listed placed shut ends
  · exact (linked.found row old id points).upsertRows links

theorem WellLinked.ranked_upsertRows {t : MemoryTable} {rows : List MemoryRow} (linked : WellLinked t)
    (links : LinkRows t rows) : ∃ rank : Uuid → Nat, ∀ a b, Succeeds (t.upsertRows rows) a b → rank b < rank a := by
  obtain ⟨rank,falls⟩ := linked.ranked
  refine ⟨fun id => if id ∈ t.keys then rank id else t.keys.toFinset.sup rank + 1,?_⟩
  have low {id : Uuid} (known : id ∈ t.keys) : rank id < t.keys.toFinset.sup rank + 1 :=
    Nat.lt_succ_of_le (Finset.le_sup (f := rank) (List.mem_toFinset.mpr known))
  rintro a b ⟨row,member,rfl,points⟩
  have before {old : MemoryRow} (there : old ∈ t.rows) (same : old.id = row.id) (kept : old.memory.supersedes = some b) :
      row.id ∈ t.keys ∧ b ∈ t.keys ∧ rank b < rank row.id :=
    ⟨(Table.mem_keys _ _).mpr ⟨old,there,same⟩,(linked.found old there b kept).known,falls _ _ ⟨old,there,same,kept⟩⟩
  rcases MemoryTable.mem_upsertRows member with ⟨written,inside,rfl⟩ | ⟨old,_⟩
  · rcases links.each written inside with ⟨old,there,same,_,_,_,kept⟩ | ⟨new,closes⟩
    · obtain ⟨known,target,less⟩ := before there same (kept.symm.trans points)
      simpa [known,target] using less
    · have target := (closes b points).1
      have new : written.stored.id ∉ t.keys := new
      simpa [new,target] using low target
  · obtain ⟨known,target,less⟩ := before old rfl points
    simpa [known,target] using less

theorem WellLinked.upsertRows {t : MemoryTable} {rows : List MemoryRow} (linked : WellLinked t) (links : LinkRows t rows) :
    WellLinked (t.upsertRows rows) :=
  ⟨linked.recorded.upsertRows rows,linked.found_upsertRows links,linked.ranked_upsertRows links⟩

theorem WellLinked.delete {t : MemoryTable} {gone : MemoryRow → Bool} (linked : WellLinked t)
    (active : ∀ row ∈ t.rows, gone row = true → row.memory.state = .active) : WellLinked (t.delete gone) where
  recorded := fun row member => linked.recorded row ((Table.mem_delete t gone row).mp member).1
  found := by
    intro row member id points
    obtain ⟨old,there,same,placed,shut,ends⟩ := linked.found row ((Table.mem_delete t gone row).mp member).1 id points
    refine ⟨old,(Table.mem_delete t gone old).mpr ⟨there,?_⟩,same,placed,shut,ends⟩
    exact Bool.eq_false_iff.mpr (fun chosen => shut (active old there chosen))
  ranked := by
    obtain ⟨rank,falls⟩ := linked.ranked
    refine ⟨rank,?_⟩
    rintro a b ⟨row,member,same,points⟩
    exact falls a b ⟨row,((Table.mem_delete t gone row).mp member).1,same,points⟩

theorem WellLinked.enforceScopeCap {t : MemoryTable} (linked : WellLinked t) (scope : MemoryScope) (cap : Nat) :
    WellLinked (t.enforceScopeCap scope cap).2 := by
  refine linked.delete ?_
  intro row member evicted
  obtain ⟨other,there,same,active⟩ := MemoryTable.overCap_active (of_decide_eq_true evicted)
  cases t.eq_of_key there member same
  exact active

theorem LinkRows.singleton {t : MemoryTable} {row : MemoryRow} (either : KeepsRow t row ∨ Continues t [row] row) :
    LinkRows t [row] :=
  ⟨List.nodup_singleton _,fun _ inside => List.mem_singleton.mp inside ▸ either⟩

theorem LinkRows.closing {t : MemoryTable} {closed : List Memory} {new : MemoryRow} (validAt recordedAt : Int)
    (distinct : (closed.map Memory.id).Nodup)
    (active : ∀ m ∈ closed, m.state = .active ∧ m.scope = new.memory.scope ∧ ∃ row ∈ t.rows, row.memory = m)
    (fresh : new.id ∉ t.keys) (points : ∃ m ∈ closed, new.memory.supersedes = some m.id)
    (since : new.memory.validFrom = validAt) : LinkRows t (closed.map (closeRow validAt recordedAt) ++ [new]) where
  distinct := by
    rw [List.map_append,List.map_map]
    refine List.Nodup.append distinct (List.nodup_singleton _) ?_
    intro id inside beside
    obtain ⟨m,listed,rfl⟩ := List.mem_map.mp inside
    obtain ⟨_,_,row,member,rfl⟩ := active m listed
    rw [← List.mem_singleton.mp beside] at fresh
    exact fresh ((Table.mem_keys _ _).mpr ⟨row,member,rfl⟩)
  each := by
    intro row inside
    rcases List.mem_append.mp inside with inside | inside
    · obtain ⟨m,listed,rfl⟩ := List.mem_map.mp inside
      obtain ⟨stands,_,old,member,rfl⟩ := active m listed
      exact Or.inl ⟨old,member,rfl,stands,rfl,rfl,rfl⟩
    · cases List.mem_singleton.mp inside
      refine Or.inr ⟨fresh,?_⟩
      intro id linked
      obtain ⟨m,listed,given⟩ := points
      cases linked.symm.trans given
      obtain ⟨_,placed,old,member,rfl⟩ := active m listed
      refine ⟨(Table.mem_keys _ _).mpr ⟨old,member,rfl⟩,closeRow validAt recordedAt old.memory,?_,rfl,placed,by
        simp [closeRow],by rw [since]; rfl⟩
      exact List.mem_append_left _ (List.mem_map_of_mem listed)

section
variable (env : Env)

def MergesHome (e : Engine) (d : Draw) (input : MemoryInput) : Prop :=
  (canonicalInput env input).subject = none → ∀ top,
    mergeTarget e d (canonicalInput env input).scope (e.embedMemoryContent d) = .ok (some top) →
      top.scope = (canonicalInput env input).scope

variable {env}

theorem memoryPlan_linkRows {e : Engine} {d : Draw} {input : MemoryInput} {planned : Planned} (fresh : d.id ∉ e.memories.keys)
    (home : MergesHome env e d input) (ok : memoryPlan env e d input = .ok planned) :
    LinkRows e.memories planned.rows := by
  have found {subject : String} {m : Memory}
      (listed : m ∈ e.memories.findActiveBySubject (canonicalInput env input).scope subject input.project) :
      m.state = .active ∧ m.scope = (canonicalInput env input).scope ∧ ∃ row ∈ e.memories.rows, row.memory = m := by
    obtain ⟨row,member,same,placed,_,_,active⟩ := MemoryTable.mem_findActiveBySubject.mp listed
    exact ⟨active,placed.trans (MemoryScope.withDefaultTenant_withDefaultTenant input.scope),row,member,same⟩
  have plain {m : Memory} (drawn : m.id = d.id) (unlinked : m.supersedes = none) (vector : Option (List Rat)) :
      LinkRows e.memories [⟨m,vector⟩] := by
    have new : (⟨m,vector⟩ : MemoryRow).id ∉ e.memories.keys := by
      change m.id ∉ _
      rwa [drawn]
    refine .singleton (Or.inr ⟨new,?_⟩)
    intro id linked
    cases unlinked.symm.trans linked
  cases (memoryPlanWithEmbedding_cases env ok).2 with
  | confirmed subject existing others keyed read same =>
    obtain ⟨active,_,row,member,rfl⟩ := found (read ▸ List.mem_cons_self)
    exact .singleton (Or.inl ⟨row,member,rfl,active,rfl,rfl,rfl⟩)
  | conflict subject existing others keyed read review => exact plain rfl rfl _
  | superseded subject existing others keyed read differs =>
    refine .closing _ d.recordedAt (read ▸ MemoryTable.nodup_selected e.memories _ newestFirst) ?_ fresh
      ⟨existing,List.mem_cons_self,rfl⟩ rfl
    exact fun m listed => found (read ▸ listed)
  | merged top unkeyed hit =>
    obtain ⟨active,row,member,rfl⟩ := mergeTarget_active hit
    have distinct : ([row.memory].map Memory.id).Nodup := List.nodup_singleton _
    refine .closing _ d.recordedAt distinct ?_ fresh ⟨row.memory,List.mem_cons_self,rfl⟩ rfl
    intro m listed
    cases List.mem_singleton.mp listed
    exact ⟨active,home unkeyed row.memory hit,row,member,rfl⟩
  | inserted absent missed => exact plain rfl rfl _

end

/-- The calls that write versions, each with what it reads from outside. -/
inductive LinkCall where
  | add (d : Draw) (input : MemoryInput)
  | addBatch (inputs : List (MemoryInput × Draw))
  | document (doc : DocumentIngest) (scope : MemoryScope) (opts : ChunkOptions) (draws : Nat → Draw) (now : Int)
  | resolve (scope : MemoryScope) (subject : String) (keepId : Uuid) (now : Int) (stamp : Uuid → Int)

section
variable (env : Env)

def LinkCall.step (e : Engine) : LinkCall → Engine
  | .add d input => (memoryAdd env e d input).2
  | .addBatch inputs => (memoryAddBatch env e inputs).2
  | .document doc scope opts draws now => (documentIngest env e doc scope opts draws now).2
  | .resolve scope subject keepId now stamp =>
    match memoryResolvePlan env e scope subject keepId now with
    | .error _ => e
    | .ok rows => memoryApplyRows env stamp e rows

/-- Every identifier that a batch draws is new, what it merges into is in scope, and no plan writes a row that waits
in the buffer. -/
def BatchApart : List (MemoryInput × Draw) → Engine → Buffer → Prop
  | [],_,_ => True
  | (input,d) :: rest,e,buffer =>
    match flushColliding e (batchKey env input) buffer with
    | .error _ => True
    | .ok (e,left) => d.id ∉ e.memories.keys ∧ MergesHome env e d input ∧
      match memoryPlan env e d input with
      | .error _ => True
      | .ok (_,planned) => (∀ row ∈ planned, row.id ∉ left.rows.map MemoryRow.id) ∧
        BatchApart rest e (left.push (batchKey env input) planned)

/-- The batch of an import is apart, and leaves the rows as they are that the sweep has read before it. -/
def DocumentApart (e : Engine) (doc : DocumentIngest) (scope : MemoryScope) (opts : ChunkOptions) (draws : Nat → Draw) :
    Prop :=
  BatchApart env (documentItems doc scope opts draws) e ⟨[],[]⟩ ∧
    ∀ row ∈ e.memories.rows, row.memory ∈ e.memories.findActiveByDocument env scope doc.path →
      (∀ subject, row.memory.subject = some subject → subject ∉ documentProduced env (documentInputs doc scope opts)) →
        row ∈ (memoryAddBatch env e (documentItems doc scope opts draws)).2.memories.rows

/-- What keeps the links true: a resolution finds no row to close. -/
def LinkCall.Forward (e : Engine) : LinkCall → Prop
  | .add d input => d.id ∉ e.memories.keys ∧ MergesHome env e d input
  | .addBatch inputs => BatchApart env inputs e ⟨[],[]⟩
  | .document doc scope opts draws _ => DocumentApart env e doc scope opts draws
  | .resolve scope subject keepId _ _ => ∀ m ∈ e.memories.findActiveBySubject scope (normalizeSubject env subject)
      ((e.memories.get keepId).bind Memory.project), m.id = keepId

variable {env}

theorem memoryAdd_wellLinked {e : Engine} {d : Draw} {input : MemoryInput} (linked : WellLinked e.memories)
    (fresh : d.id ∉ e.memories.keys) (home : MergesHome env e d input) :
    WellLinked (memoryAdd env e d input).2.memories := by
  unfold memoryAdd
  split
  next => exact linked
  next add rows ok =>
    rw [evictOverCap_memories,memoryApplyRows_memories]
    exact (linked.upsertRows (memoryPlan_linkRows fresh home ok)).enforceScopeCap _ _

theorem memoryApplyRowsBatch_wellLinked {e after : Engine} {rows : List MemoryRow} (linked : WellLinked e.memories)
    (links : LinkRows e.memories rows) (ok : memoryApplyRowsBatch e rows = .ok after) : WellLinked after.memories := by
  rw [memoryApplyRowsBatch_memories ok]
  exact linked.upsertRows links

theorem batchLoop_wellLinked {e : Engine} {buffer : Buffer} (linked : WellLinked e.memories)
    (links : LinkRows e.memories buffer.rows) (inputs : List (MemoryInput × Draw)) (adds : List MemoryAdd)
    (apart : BatchApart env inputs e buffer) : WellLinked (batchLoop env inputs e buffer adds).2.memories := by
  induction inputs generalizing e buffer adds with
  | nil =>
    unfold batchLoop
    split
    next => exact linked
    next after applied => exact memoryApplyRowsBatch_wellLinked linked links applied
  | cons item rest ih =>
    unfold BatchApart at apart
    unfold batchLoop
    split
    next => exact linked
    next after left flushed =>
      rw [flushed] at apart
      obtain ⟨fresh,home,later⟩ := apart
      have flush : WellLinked after.memories ∧ LinkRows after.memories left.rows := by
        rcases flushColliding_cases flushed with ⟨_,rfl,rfl⟩ | ⟨_,applied,rfl⟩
        · exact ⟨linked,links⟩
        · exact ⟨memoryApplyRowsBatch_wellLinked linked links applied,.nil _⟩
      split
      next => exact flush.1
      next add planned ok =>
        rw [ok] at later
        exact ih flush.1 (flush.2.append (memoryPlan_linkRows fresh home ok) later.1) _ later.2

theorem documentIngest_wellLinked {e : Engine} {doc : DocumentIngest} {scope : MemoryScope} {opts : ChunkOptions}
    {draws : Nat → Draw} (now : Int) (linked : WellLinked e.memories) (apart : DocumentApart env e doc scope opts draws) :
    WellLinked (documentIngest env e doc scope opts draws now).2.memories := by
  obtain ⟨batch,unswept⟩ := apart
  have written : WellLinked (memoryAddBatch env e (documentItems doc scope opts draws)).2.memories :=
    batchLoop_wellLinked linked (.nil _) _ _ batch
  have same : memoryAddBatch env e (withDraws (documentInputs doc scope opts) draws) =
    memoryAddBatch env e (documentItems doc scope opts draws) := rfl
  simp only [documentIngest,same]
  split
  next err after added =>
    rw [added] at written
    exact written
  next added after ok =>
    rw [ok] at written unswept
    split
    next => exact written
    next swept applied =>
      refine memoryApplyRowsBatch_wellLinked written ⟨?_,?_⟩ applied
      · rw [sweepRows,List.map_map]
        exact (MemoryTable.nodup_selected e.memories _ bySubject).sublist (List.filter_sublist.map Memory.id)
      · intro row inside
        obtain ⟨m,listed,⟨subject,keyed,absent⟩,rfl⟩ := mem_sweepRows.mp inside
        obtain ⟨⟨old,member,rfl⟩,_,active,_⟩ := mem_findActiveByDocument.mp listed
        refine Or.inl ⟨old,unswept old member listed ?_,rfl,active,rfl,rfl,rfl⟩
        intro other given
        cases keyed.symm.trans given
        exact absent

theorem memoryPlan_over {e : Engine} {d : Draw} {input : MemoryInput} {planned : Planned}
    (unmerged : Unmerged env e.config input) (ok : memoryPlan env e d input = .ok planned) {row : MemoryRow}
    (inside : row ∈ planned.rows) (old : row.id ≠ d.id) : ∃ subject, (canonicalInput env input).subject = some subject := by
  cases (memoryPlanWithEmbedding_cases env ok).2 with
  | confirmed subject existing others keyed read same => exact ⟨subject,keyed⟩
  | conflict subject existing others keyed read review => exact ⟨subject,keyed⟩
  | superseded subject existing others keyed read differs => exact ⟨subject,keyed⟩
  | merged top unkeyed hit => cases (unmerged.target unkeyed _).symm.trans hit
  | inserted absent missed =>
    cases List.mem_singleton.mp inside
    exact absurd rfl old

/-- The pending rows that replace one are about pending subjects, and about what they replace. -/
structure PendingKnown (e : Engine) (buffer : Buffer) : Prop where
  known : ∀ row ∈ buffer.rows, row.id ∈ e.memories.keys → ∃ subject, row.memory.subject = some subject ∧
    (scopePartitionKey row.memory.scope,subject) ∈ buffer.subjects
  about : ∀ row ∈ buffer.rows, ∀ old ∈ e.memories.rows, old.id = row.id →
    old.memory.scope = row.memory.scope ∧ old.memory.subject = row.memory.subject

theorem PendingKnown.push {e : Engine} {buffer : Buffer} {d : Draw} {input : MemoryInput} {planned : Planned}
    (pending : PendingKnown e buffer) (unmerged : Unmerged env e.config input) (fresh : d.id ∉ e.memories.keys)
    (ok : memoryPlan env e d input = .ok planned) :
    PendingKnown e (buffer.push (batchKey env input) planned.rows) where
  known := by
    intro row inside stored
    rcases List.mem_append.mp inside with inside | inside
    · obtain ⟨subject,about,listed⟩ := pending.known row inside stored
      exact ⟨subject,about,List.mem_append_left _ listed⟩
    · obtain ⟨_,placed,keyed⟩ := memoryPlan_rows env unmerged ok inside
      obtain ⟨subject,about⟩ := memoryPlan_over unmerged ok inside (fun drawn => fresh (drawn ▸ stored))
      refine ⟨subject,keyed.trans about,List.mem_append_right _ ?_⟩
      rw [batchKey_keyed env about,placed]
      exact List.mem_singleton_self _
  about := by
    intro row inside old member same
    rcases List.mem_append.mp inside with inside | inside
    · exact pending.about row inside old member same
    · obtain ⟨drawn | ⟨other,there,equal,placed,keyed⟩,_⟩ := memoryPlan_rows env unmerged ok inside
      · exact absurd ((Table.mem_keys _ _).mpr ⟨old,member,same.trans drawn⟩) fresh
      · cases e.memories.eq_of_key there member (equal.trans same.symm)
        exact ⟨placed,keyed⟩

theorem PendingKnown.apart {e : Engine} {buffer : Buffer} {d : Draw} {input : MemoryInput} {planned : Planned}
    (pending : PendingKnown e buffer) (unmerged : Unmerged env e.config input)
    (clear : buffer.collides (batchKey env input) = false) (unused : d.id ∉ buffer.rows.map MemoryRow.id)
    (ok : memoryPlan env e d input = .ok planned) : ∀ row ∈ planned.rows, row.id ∉ buffer.rows.map MemoryRow.id := by
  intro row inside listed
  by_cases drawn : row.id = d.id
  · exact unused (drawn ▸ listed)
  · obtain ⟨waiting,held,same⟩ := List.mem_map.mp listed
    obtain ⟨either,placed,keyed⟩ := memoryPlan_rows env unmerged ok inside
    obtain ⟨old,member,equal,oldScope,oldSubject⟩ := either.resolve_left drawn
    have here : old.id = waiting.id := equal.trans same.symm
    obtain ⟨subject,named,taken⟩ := pending.known waiting held ((Table.mem_keys _ _).mpr ⟨old,member,here⟩)
    obtain ⟨waitingScope,waitingSubject⟩ := pending.about waiting held old member here
    have about : (canonicalInput env input).subject = some subject := by
      rw [← keyed,← oldSubject,waitingSubject,named]
    have scope : waiting.memory.scope = (canonicalInput env input).scope := by
      rw [← waitingScope,oldScope,placed]
    rw [batchKey_keyed env about,Buffer.collides,← scope] at clear
    exact of_decide_eq_false clear taken

theorem MemoryTable.unused_upsertRows {t : MemoryTable} {rows : List MemoryRow} {id : Uuid} (unused : id ∉ t.keys)
    (apart : id ∉ rows.map MemoryRow.id) : id ∉ (t.upsertRows rows).keys := by
  intro known
  obtain ⟨row,member,rfl⟩ := (Table.mem_keys _ _).mp known
  rcases mem_upsertRows member with ⟨written,inside,rfl⟩ | ⟨old,_⟩
  · exact apart (List.mem_map.mpr ⟨written,inside,rfl⟩)
  · exact unused ((Table.mem_keys _ _).mpr ⟨row,old,rfl⟩)

theorem BatchApart.of_unmerged {e : Engine} {buffer : Buffer} (inputs : List (MemoryInput × Draw))
    (pending : PendingKnown e buffer) (unmerged : ∀ item ∈ inputs, Unmerged env e.config item.1)
    (fresh : ∀ item ∈ inputs, item.2.id ∉ e.memories.keys ∧ item.2.id ∉ buffer.rows.map MemoryRow.id)
    (distinct : (inputs.map (fun item => item.2.id)).Nodup) : BatchApart env inputs e buffer := by
  induction inputs generalizing e buffer with
  | nil => trivial
  | cons item rest ih =>
    obtain ⟨input,d⟩ := item
    obtain ⟨first,others⟩ := List.nodup_cons.mp distinct
    unfold BatchApart
    split
    next => trivial
    next after left flushed =>
      have flush : PendingKnown after left ∧ left.collides (batchKey env input) = false ∧
          ∀ item ∈ (input,d) :: rest, item.2.id ∉ after.memories.keys ∧ item.2.id ∉ left.rows.map MemoryRow.id := by
        rcases flushColliding_cases flushed with ⟨clear,rfl,rfl⟩ | ⟨_,applied,rfl⟩
        · exact ⟨pending,clear,fresh⟩
        · refine ⟨⟨by simp,by simp⟩,by cases batchKey env input <;> simp [Buffer.collides],?_⟩
          intro item inside
          rw [memoryApplyRowsBatch_memories applied]
          exact ⟨MemoryTable.unused_upsertRows (fresh item inside).1 (fresh item inside).2,by simp⟩
      obtain ⟨pending,clear,fresh⟩ := flush
      have plain : Unmerged env after.config input := by
        rw [flushColliding_config flushed]
        exact unmerged (input,d) List.mem_cons_self
      obtain ⟨unused,absent⟩ := fresh (input,d) List.mem_cons_self
      refine ⟨unused,?_,?_⟩
      · intro unkeyed top hit
        cases (plain.target unkeyed _).symm.trans hit
      · split
        next => trivial
        next add planned ok =>
          refine ⟨pending.apart plain clear absent ok,ih (pending.push plain unused ok) ?_ ?_ others⟩
          · intro other inside
            rw [flushColliding_config flushed]
            exact unmerged other (List.mem_cons_of_mem _ inside)
          · intro other inside
            obtain ⟨new,beside⟩ := fresh other (List.mem_cons_of_mem _ inside)
            refine ⟨new,?_⟩
            intro listed
            obtain ⟨row,held,same⟩ := List.mem_map.mp listed
            rcases List.mem_append.mp held with held | held
            · exact beside (List.mem_map.mpr ⟨row,held,same⟩)
            · rcases (memoryPlan_rows env plain ok held).1 with drawn | ⟨old,member,equal,_⟩
              · exact first (List.mem_map.mpr ⟨other,inside,same.symm.trans drawn⟩)
              · exact new ((Table.mem_keys _ _).mpr ⟨old,member,equal.trans same⟩)

theorem writeNext_stays {e : Engine} {item : MemoryInput × Draw} (unmerged : Unmerged env e.config item.1)
    (fresh : item.2.id ∉ e.memories.keys) {row : MemoryRow} (member : row ∈ e.memories.rows)
    (other : ∀ subject, (canonicalInput env item.1).subject = some subject → row.memory.subject ≠ some subject) :
    row ∈ (writeNext env e item).memories.rows := by
  unfold writeNext
  split
  next => exact member
  next planned ok =>
    refine MemoryTable.mem_upsertRows_of_apart member ?_
    intro written inside same
    obtain ⟨either,_,keyed⟩ := memoryPlan_rows env unmerged ok inside
    have old : written.id ≠ item.2.id := by
      intro drawn
      exact fresh ((Table.mem_keys _ _).mpr ⟨row,member,same.symm.trans drawn⟩)
    obtain ⟨stored,there,equal,_,about⟩ := either.resolve_left old
    cases e.memories.eq_of_key there member (equal.trans same)
    obtain ⟨subject,named⟩ := memoryPlan_over unmerged ok inside old
    exact other subject named (about.trans (keyed.trans named))

theorem writes_stay {e : Engine} (items : List (MemoryInput × Draw)) (unmerged : ∀ item ∈ items, Unmerged env e.config item.1)
    (fresh : ∀ item ∈ items, item.2.id ∉ e.memories.keys) (distinct : (items.map (fun item => item.2.id)).Nodup)
    {row : MemoryRow} (member : row ∈ e.memories.rows)
    (other : ∀ item ∈ items, ∀ subject, (canonicalInput env item.1).subject = some subject →
      row.memory.subject ≠ some subject) : row ∈ (run (writeNext env) e items).memories.rows := by
  induction items generalizing e with
  | nil => exact member
  | cons item rest ih =>
    obtain ⟨first,others⟩ := List.nodup_cons.mp distinct
    have plain := unmerged item List.mem_cons_self
    refine ih ?_ ?_ others ?_ (fun next inside => other next (List.mem_cons_of_mem _ inside))
    · intro next inside
      rw [writeNext_config]
      exact unmerged next (List.mem_cons_of_mem _ inside)
    · intro next inside
      refine writeNext_unused plain ?_ (fresh next (List.mem_cons_of_mem _ inside))
      exact fun equal => first (List.mem_map.mpr ⟨next,inside,equal⟩)
    · exact writeNext_stays plain (fresh item List.mem_cons_self) member (other item List.mem_cons_self)

theorem DocumentApart.of_unmerged {e : Engine} {doc : DocumentIngest} {scope : MemoryScope} {opts : ChunkOptions}
    {draws : Nat → Draw} (unmerged : ∀ input ∈ documentInputs doc scope opts, Unmerged env e.config input)
    (fresh : ∀ item ∈ documentItems doc scope opts draws, item.2.id ∉ e.memories.keys)
    (distinct : ((documentItems doc scope opts draws).map (fun item => item.2.id)).Nodup) :
    DocumentApart env e doc scope opts draws := by
  have plain : ∀ item ∈ documentItems doc scope opts draws, Unmerged env e.config item.1 :=
    fun item inside => unmerged item.1 (mem_withDraws inside).1
  refine ⟨.of_unmerged _ ⟨by simp,by simp⟩ plain (fun item inside => ⟨fresh item inside,by simp⟩) distinct,?_⟩
  intro row member _ unproduced
  have part : landedItems env e.config (documentItems doc scope opts draws) [] [] <+: documentItems doc scope opts draws :=
    landedItems_leading env (documentItems doc scope opts draws) [] []
  rw [(memoryAddBatch_lands e _ plain fresh distinct).1]
  refine writes_stay _ (fun item inside => plain item (part.subset inside)) (fun item inside => fresh item (part.subset inside))
    (distinct.sublist (part.sublist.map _)) member ?_
  intro item inside subject about named
  exact unproduced subject named (produced_canonical (mem_withDraws (part.subset inside)).1 about)

theorem memoryResolvePlan_idle {e : Engine} {scope : MemoryScope} {subject : String} {keepId : Uuid} {now : Int}
    {rows : List MemoryRow} (alone : ∀ m ∈ e.memories.findActiveBySubject scope (normalizeSubject env subject)
      ((e.memories.get keepId).bind Memory.project), m.id = keepId)
    (planned : memoryResolvePlan env e scope subject keepId now = .ok rows) : rows = [] := by
  simp only [memoryResolvePlan] at planned
  split at planned
  next =>
    cases planned
    rw [List.map_eq_nil_iff,List.filter_eq_nil_iff]
    intro m listed
    simpa using alone m listed
  next => cases planned

theorem LinkCall.step_wellLinked {e : Engine} (linked : WellLinked e.memories) (call : LinkCall)
    (forward : call.Forward env e) : WellLinked (call.step env e).memories := by
  cases call with
  | add d input => exact memoryAdd_wellLinked linked forward.1 forward.2
  | addBatch inputs => exact batchLoop_wellLinked linked (.nil _) inputs [] forward
  | document doc scope opts draws now => exact documentIngest_wellLinked now linked forward
  | resolve scope subject keepId now stamp =>
    simp only [LinkCall.step]
    split
    next => exact linked
    next rows planned =>
      cases memoryResolvePlan_idle forward planned
      exact linked

/-- In every run from an empty store in which resolutions find nothing to close and batches write no row twice, the
links are true in every state. -/
theorem links_true_throughout (config : CoreConfig) (dimension : Nat) (calls : List LinkCall)
    (forward : Along (LinkCall.step env) (LinkCall.Forward env) (.empty config dimension) calls) :
    Throughout (LinkCall.step env) (fun e => LinksTrue e.memories) (.empty config dimension) calls := by
  have linked : Throughout (LinkCall.step env) (fun e => WellLinked e.memories) (.empty config dimension) calls :=
    forward.throughout wellLinked_empty (fun e call linked given => call.step_wellLinked linked given)
  exact fun n => (linked n).linksTrue

end

theorem MergesHome.of_unmerged {env : Env} {e : Engine} {d : Draw} {input : MemoryInput}
    (unmerged : Unmerged env e.config input) : MergesHome env e d input := by
  intro unkeyed top hit
  cases (unmerged.target unkeyed _).symm.trans hit

/-- One version after the other, a document of two states, and a resolution with one version left. -/
def succession : List LinkCall :=
  [.add (.plain 1000 1) (planFact none "free"),
    .addBatch [(planFact none "pro",.plain 2000 2),(planFact none "team",.plain 3000 3)],
    .document (guideDoc "# Setup\nuse brew\n") (.tenant "acme") wideChunks (importDraws 10) 20000,
    .document (guideDoc "# Run\nmake\n") (.tenant "acme") wideChunks (importDraws 30) 40000,
    .resolve (.tenant "acme") "plan" 3 50000 (fun _ => 50000)]

theorem links_true_succession : Throughout (LinkCall.step .ascii) (fun e => LinksTrue e.memories) (.empty .default 2) succession := by
  refine links_true_throughout .default 2 succession ⟨?_,?_,?_,?_,?_,trivial⟩
  · exact ⟨by decide +kernel,.of_unmerged (Or.inl rfl)⟩
  · refine .of_unmerged _ ⟨by simp,by simp⟩ (fun item _ => Or.inl rfl) ?_ (by decide)
    decide +kernel
  · exact .of_unmerged (fun input _ => Or.inl rfl) (by decide +kernel) (by decide +kernel)
  · exact .of_unmerged (fun input _ => Or.inl (by decide +kernel)) (by decide +kernel) (by decide +kernel)
  · unfold LinkCall.Forward
    decide +kernel

/-- Two contradicting versions under review, of which the second is kept. -/
def decidedContest : List LinkCall :=
  [.add (.plain 1000 1) (planFact none "free"),.add (.plain 2000 2) (planFact none "pro"),
    .resolve (.tenant "acme") "plan" 2 3000 (fun _ => 3000)]

private theorem decidedContest_rows : (run (LinkCall.step .ascii) (.empty reviewConfig 2) decidedContest).memories.rows.map
    (fun row => (row.id,row.memory.state,row.memory.supersedes)) = [(1,.superseded,some 2),(2,.active,none)] := by
  decide +kernel

/-- The row that lost says that it supersedes the one that was kept. -/
theorem resolution_links_backwards :
    ¬Throughout (LinkCall.step .ascii) (fun e => LinksTrue e.memories) (.empty reviewConfig 2) decidedContest := by
  intro all
  have last : LinksTrue (run (LinkCall.step .ascii) (.empty reviewConfig 2) decidedContest).memories := all 3
  have listed {x : Uuid × MemoryState × Option Uuid} (inside : x ∈ [((1 : Uuid),MemoryState.superseded,some (2 : Uuid)),
      (2,.active,none)]) := List.mem_map.mp (decidedContest_rows ▸ inside)
  obtain ⟨loser,there,same⟩ := listed List.mem_cons_self
  obtain ⟨winner,member,equal⟩ := listed (List.mem_cons_of_mem _ List.mem_cons_self)
  simp only [Prod.mk.injEq] at same equal
  obtain ⟨old,stored,known,_,shut,_⟩ := last.found loser there 2 same.2.2
  cases Table.eq_of_key _ stored member (known.trans equal.1.symm)
  exact shut equal.2.1

end Ecphoria
