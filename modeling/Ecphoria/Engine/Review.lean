import Ecphoria.Cognition.Subjects
import Ecphoria.Engine.Frame
import Ecphoria.Engine.Search
import Ecphoria.Library.Transition

/-! The review queue. Contradictions are grouped by subject, a resolution settles a subject
within one project; the two agree as long as a subject is active in one project only. -/
namespace Ecphoria
open Library

structure ContradictionGroup where
  subject : String
  memories : List Memory

def groupOf (actives : List Memory) (subject : String) : ContradictionGroup :=
  ⟨subject,actives.filter (fun m => m.subject = some subject)⟩

/-- `maxRows` is the configured limit of a query. -/
def memoryContradictions (e : Engine) (scope : MemoryScope) (maxRows : Nat) : List ContradictionGroup :=
  let actives := e.memories.listActive scope maxRows
  (((actives.filterMap Memory.subject).eraseDups.map (groupOf actives)).filter
    (fun group => 1 < group.memories.length)).insertionSort (fun a b => a.subject ≤ b.subject)

theorem mem_memoryContradictions {e : Engine} {scope : MemoryScope} {maxRows : Nat} {group : ContradictionGroup}
    (inside : group ∈ memoryContradictions e scope maxRows) :
    group = groupOf (e.memories.listActive scope maxRows) group.subject ∧ 1 < group.memories.length := by
  obtain ⟨listed,many⟩ := List.mem_filter.mp ((List.mem_insertionSort _).mp inside)
  obtain ⟨subject,_,rfl⟩ := List.mem_map.mp listed
  exact ⟨rfl,of_decide_eq_true many⟩

/-- The active memories of a subject in a scope are of one project, and subjects are stored as keys. -/
structure OneProject (env : Env) (t : MemoryTable) : Prop where
  project : ∀ a ∈ t.rows, ∀ b ∈ t.rows, a.memory.state = .active → b.memory.state = .active →
    a.memory.scope = b.memory.scope → ∀ subject, a.memory.subject = some subject → b.memory.subject = some subject →
    a.memory.project = b.memory.project
  stored : ∀ row ∈ t.rows, ∀ subject, row.memory.subject = some subject → normalizeSubject env subject = subject

section
variable (env : Env)

def ResolvesTo (e : Engine) (scope : MemoryScope) (maxRows : Nat) (now : Int) (stamp : Uuid → Int)
    (group : ContradictionGroup) (m : Memory) : Prop :=
  ∃ rows, memoryResolvePlan env e scope group.subject m.id now = .ok rows ∧
    (∃ row ∈ (memoryApplyRows env stamp e rows).memories.rows, row.memory = m) ∧
    (∀ row ∈ (memoryApplyRows env stamp e rows).memories.rows, row.memory.scope = scope.withDefaultTenant →
      row.memory.subject = some group.subject → row.memory.state = .active → row.memory = m) ∧
    ∀ other ∈ memoryContradictions (memoryApplyRows env stamp e rows) scope maxRows, other.subject ≠ group.subject

/-- Every queued contradiction can be resolved to each of its members. -/
def QueueResolves (e : Engine) : Prop :=
  ∀ scope maxRows now stamp, ∀ group ∈ memoryContradictions e scope maxRows, ∀ m ∈ group.memories,
    ResolvesTo env e scope maxRows now stamp group m

/-- What an addition must meet to leave its subject in one project: that of the memories it joins, and none where it
contradicts the newest of them; a merged one keeps the project of those that stand beside the memory it replaces. -/
structure KeepsProject (e : Engine) (item : MemoryInput × Draw) : Prop where
  joins : ∀ subject, (canonicalInput env item.1).subject = some subject → ∀ old ∈ e.memories.rows,
    old.memory.state = .active → old.memory.scope = (canonicalInput env item.1).scope →
    old.memory.subject = some subject → old.memory.project = item.1.project
  contradicts : ∀ subject, (canonicalInput env item.1).subject = some subject → ∀ existing,
    (e.memories.findActiveBySubject (canonicalInput env item.1).scope subject item.1.project).head? = some existing →
    trim existing.content ≠ trim item.1.content → item.1.project = none
  merges : ∀ top, mergeTarget e item.2 (canonicalInput env item.1).scope (e.embedMemoryContent item.2) = .ok (some top) →
    ∀ subject, top.subject = some subject → ∀ old ∈ e.memories.rows, old.memory.state = .active →
    old.memory.scope = (canonicalInput env item.1).scope → old.memory.subject = some subject → old.id ≠ top.id →
    old.memory.project = item.1.project.or top.project

def addNext (e : Engine) (item : MemoryInput × Draw) : Engine := (memoryAdd env e item.2 item.1).2

/-- What is written in place of the rows of a plan: at most one of them is active, and it fits in. -/
structure FitsIn (t : MemoryTable) (rows : List MemoryRow) : Prop where
  single : ∀ a ∈ rows, ∀ b ∈ rows, a.memory.state = .active → b.memory.state = .active → a = b
  project : ∀ new ∈ rows, new.memory.state = .active → ∀ old ∈ t.rows, old.memory.state = .active →
    (∀ row ∈ rows, row.id ≠ old.id) → old.memory.scope = new.memory.scope → ∀ subject,
    new.memory.subject = some subject → old.memory.subject = some subject → old.memory.project = new.memory.project
  stored : ∀ new ∈ rows, ∀ subject, new.memory.subject = some subject → normalizeSubject env subject = subject

variable {env}

theorem OneProject.upsertRows {t : MemoryTable} {rows : List MemoryRow} (one : OneProject env t)
    (fits : FitsIn env t rows) : OneProject env (t.upsertRows rows) := by
  refine ⟨?_,?_⟩
  · intro a insideA b insideB activeA activeB scopes subject aboutA aboutB
    rcases MemoryTable.mem_upsertRows insideA with ⟨newA,writtenA,rfl⟩ | ⟨oldA,apartA⟩
    · rcases MemoryTable.mem_upsertRows insideB with ⟨newB,writtenB,rfl⟩ | ⟨oldB,apartB⟩
      · cases fits.single newA writtenA newB writtenB activeA activeB
        rfl
      · exact (fits.project newA writtenA activeA b oldB activeB apartB scopes.symm subject aboutA aboutB).symm
    · rcases MemoryTable.mem_upsertRows insideB with ⟨newB,writtenB,rfl⟩ | ⟨oldB,_⟩
      · exact fits.project newB writtenB activeB a oldA activeA apartA scopes subject aboutB aboutA
      · exact one.project a oldA b oldB activeA activeB scopes subject aboutA aboutB
  · intro row inside subject about
    rcases MemoryTable.mem_upsertRows inside with ⟨new,written,rfl⟩ | ⟨old,_⟩
    · exact fits.stored new written subject about
    · exact one.stored row old subject about

theorem OneProject.delete {t : MemoryTable} (one : OneProject env t) (gone : MemoryRow → Bool) :
    OneProject env (t.delete gone) := by
  have kept {row : MemoryRow} (inside : row ∈ (t.delete gone).rows) : row ∈ t.rows :=
    ((Table.mem_delete _ _ _).mp inside).1
  exact ⟨fun a insideA b insideB => one.project a (kept insideA) b (kept insideB),
    fun row inside => one.stored row (kept inside)⟩

theorem memoryPlan_confirms {e : Engine} {d : Draw} {input : MemoryInput} {planned : Planned} {subject : String}
    {existing : Memory} {others : List Memory} (ok : memoryPlan env e d input = .ok planned)
    (about : (canonicalInput env input).subject = some subject)
    (found : e.memories.findActiveBySubject (canonicalInput env input).scope subject input.project = existing :: others)
    (same : trim existing.content = trim input.content) : planned.add.outcome = .confirmed := by
  simp only [memoryPlan,memoryPlanWithEmbedding,about] at ok
  split at ok
  next => cases ok
  next =>
    cases ok
    have read : e.memories.findActiveBySubject (canonicalInput env input).scope subject
        (canonicalInput env input).project = existing :: others := found
    have equal : trim existing.content = trim (canonicalInput env input).content := same
    simp only [planSubject,read,if_pos equal]
    rfl

theorem KeepsProject.fitsIn {e : Engine} {item : MemoryInput × Draw} {planned : Planned} (lowercases : env.Lowercases)
    (one : OneProject env e.memories) (keeps : KeepsProject env e item)
    (ok : memoryPlan env e item.2 item.1 = .ok planned) : FitsIn env e.memories planned.rows := by
  have scope : (canonicalInput env item.1).scope.withDefaultTenant = (canonicalInput env item.1).scope :=
    MemoryScope.withDefaultTenant_withDefaultTenant item.1.scope
  have alone {new : MemoryRow} {a b : MemoryRow} (first : a ∈ [new]) (second : b ∈ [new]) : a = b :=
    (List.mem_singleton.mp first).trans (List.mem_singleton.mp second).symm
  have keyed {subject : String} (about : (canonicalInput env item.1).subject = some subject) :
      normalizeSubject env subject = subject := normalizeSubject_canonical lowercases about
  have found {subject : String} {m : Memory}
      (listed : m ∈ e.memories.findActiveBySubject (canonicalInput env item.1).scope subject item.1.project) :
      ∃ row ∈ e.memories.rows, row.memory = m ∧ m.scope = (canonicalInput env item.1).scope ∧ m.subject = some subject ∧
        m.state = .active := by
    obtain ⟨row,member,same,placed,about,_,active⟩ := MemoryTable.mem_findActiveBySubject.mp listed
    exact ⟨row,member,same,placed.trans scope,about,active⟩
  cases (memoryPlanWithEmbedding_cases env ok).2 with
  | confirmed subject existing others about read same =>
    obtain ⟨row,member,rfl,placed,_,active⟩ := found (read ▸ List.mem_cons_self)
    refine ⟨fun a first b second _ _ => alone first second,?_,?_⟩
    · intro new inside _ old there activeOld _ scopes subject aboutNew aboutOld
      cases List.mem_singleton.mp inside
      exact one.project old there row member activeOld active scopes subject aboutOld aboutNew
    · intro new inside subject aboutNew
      cases List.mem_singleton.mp inside
      exact one.stored row member subject aboutNew
  | conflict subject existing others about read review =>
    refine ⟨fun a first b second _ _ => alone first second,?_,?_⟩
    · intro new inside _ old there activeOld _ scopes other aboutNew aboutOld
      cases List.mem_singleton.mp inside
      cases aboutNew
      have differs : trim existing.content ≠ trim item.1.content := by
        intro same
        cases memoryPlan_confirms ok about read same
      have none := keeps.contradicts subject about existing (by rw [read]; rfl) differs
      exact (keeps.joins subject about old there activeOld scopes aboutOld).trans none
    · intro new inside other aboutNew
      cases List.mem_singleton.mp inside
      cases aboutNew
      exact keyed about
  | superseded subject existing others about read differs =>
    have active {row : MemoryRow} (inside : row ∈ (planSuperseded item.2 (canonicalInput env item.1)
        (importanceOf e item.1) (e.embedMemoryContent item.2) subject existing others).rows)
        (live : row.memory.state = .active) : row = ⟨(planSuperseded item.2 (canonicalInput env item.1)
          (importanceOf e item.1) (e.embedMemoryContent item.2) subject existing others).add.memory,
            e.embedMemoryContent item.2⟩ := by
      rcases List.mem_append.mp inside with closed | new
      · obtain ⟨m,_,rfl⟩ := List.mem_map.mp closed
        cases live
      · exact List.mem_singleton.mp new
    refine ⟨fun a first b second liveA liveB => (active first liveA).trans (active second liveB).symm,?_,?_⟩
    · intro new inside live old there activeOld _ scopes other aboutNew aboutOld
      cases active inside live
      cases aboutNew
      exact keeps.joins subject about old there activeOld scopes aboutOld
    · intro new inside other aboutNew
      rcases List.mem_append.mp inside with closed | last
      · obtain ⟨m,listed,rfl⟩ := List.mem_map.mp closed
        obtain ⟨row,member,rfl,_⟩ := found (read ▸ listed)
        exact one.stored row member other aboutNew
      · cases List.mem_singleton.mp last
        cases aboutNew
        exact keyed about
  | merged top unkeyed hit =>
    obtain ⟨_,stored,member,rfl⟩ := mergeTarget_active hit
    have active {row : MemoryRow} (inside : row ∈ (planMerged item.2 (canonicalInput env item.1)
        (importanceOf e item.1) (e.embedMemoryContent item.2) stored.memory).rows)
        (live : row.memory.state = .active) : row = ⟨(planMerged item.2 (canonicalInput env item.1)
          (importanceOf e item.1) (e.embedMemoryContent item.2) stored.memory).add.memory,
            e.embedMemoryContent item.2⟩ := by
      rcases List.mem_cons.mp inside with rfl | new
      · cases live
      · exact List.mem_singleton.mp new
    refine ⟨fun a first b second liveA liveB => (active first liveA).trans (active second liveB).symm,?_,?_⟩
    · intro new inside live old there activeOld apart scopes other aboutNew aboutOld
      cases active inside live
      have closed : closeRow (validBoundary item.1.validFrom (some stored.memory.validFrom) item.2.recordedAt)
          item.2.recordedAt stored.memory ∈ (planMerged item.2 (canonicalInput env item.1) (importanceOf e item.1)
            (e.embedMemoryContent item.2) stored.memory).rows := List.mem_cons_self
      exact keeps.merges stored.memory hit other aboutNew old there activeOld scopes aboutOld
        (fun same => apart _ closed same.symm)
    · intro new inside other aboutNew
      rcases List.mem_cons.mp inside with rfl | last
      · exact one.stored stored member other aboutNew
      · cases List.mem_singleton.mp last
        exact one.stored stored member other aboutNew
  | inserted absent missed =>
    refine ⟨fun a first b second _ _ => alone first second,?_,?_⟩
    · intro new inside _ old there activeOld _ scopes subject aboutNew aboutOld
      cases List.mem_singleton.mp inside
      exact keeps.joins subject aboutNew old there activeOld scopes aboutOld
    · intro new inside subject aboutNew
      cases List.mem_singleton.mp inside
      exact keyed aboutNew

theorem OneProject.addNext {e : Engine} {item : MemoryInput × Draw} (lowercases : env.Lowercases)
    (one : OneProject env e.memories) (keeps : KeepsProject env e item) :
    OneProject env (addNext env e item).memories := by
  unfold Ecphoria.addNext memoryAdd
  split
  next => exact one
  next result rows ok =>
    have fits : FitsIn env e.memories rows := keeps.fitsIn lowercases one ok
    rw [evictOverCap_memories,memoryApplyRows_memories]
    exact (one.upsertRows fits).delete _

theorem not_queued {e : Engine} {scope : MemoryScope} {maxRows : Nat} {subject : String} {m : Memory}
    (alone : ∀ row ∈ e.memories.rows, row.memory.scope = scope.withDefaultTenant → row.memory.subject = some subject →
      row.memory.state = .active → row.memory = m) :
    ∀ group ∈ memoryContradictions e scope maxRows, group.subject ≠ subject := by
  intro group queued same
  obtain ⟨made,many⟩ := mem_memoryContradictions queued
  rw [same] at made
  have members : ∀ x ∈ group.memories, x = m := by
    intro x inside
    rw [made] at inside
    obtain ⟨listed,about⟩ := List.mem_filter.mp inside
    obtain ⟨placed,active,row,there,rfl⟩ := MemoryTable.mem_listActive listed
    exact alone row there placed (of_decide_eq_true about) active
  have distinct : (group.memories.map Memory.id).Nodup := by
    rw [made]
    exact (e.memories.nodup_listActive scope maxRows).sublist (List.filter_sublist.map Memory.id)
  generalize group.memories = list at many members distinct
  match list with
  | [] => simp at many
  | [_] => simp at many
  | first :: second :: rest =>
    have equal := (members first (by simp)).trans (members second (by simp)).symm
    simp [equal] at distinct

def loserRow (keepId : Uuid) (now : Int) (m : Memory) : MemoryRow :=
  ⟨{ m with state := .superseded, validTo := some now, updatedAt := now, supersedes := some keepId },none⟩

theorem memoryResolvePlan_ok {e : Engine} {scope : MemoryScope} {subject : String} {kept : Memory}
    (normal : normalizeSubject env subject = subject) (known : e.memories.get kept.id = some kept)
    (chosen : kept ∈ e.memories.findActiveBySubject scope subject kept.project) (now : Int) :
    memoryResolvePlan env e scope subject kept.id now =
      .ok (((e.memories.findActiveBySubject scope subject kept.project).filter (fun m => m.id ≠ kept.id)).map
        (loserRow kept.id now)) := by
  simp only [memoryResolvePlan,normal,known,Option.bind_some]
  rw [if_pos (List.any_eq_true.mpr ⟨kept,chosen,decide_eq_true rfl⟩)]
  rfl

theorem OneProject.resolves {e : Engine} (one : OneProject env e.memories) : QueueResolves env e := by
  intro scope maxRows now stamp group queued m member
  obtain ⟨made,_⟩ := mem_memoryContradictions queued
  rw [made] at member
  obtain ⟨listed,about⟩ := List.mem_filter.mp member
  have about := of_decide_eq_true about
  obtain ⟨placed,active,row,inside,rfl⟩ := MemoryTable.mem_listActive listed
  have normal : normalizeSubject env group.subject = group.subject := one.stored row inside _ about
  have known : e.memories.get row.memory.id = some row.memory := by
    have found := (Table.find_eq_some e.memories row.id row).mpr ⟨inside,rfl⟩
    rw [MemoryTable.get]
    exact congrArg (Option.map MemoryRow.memory) found
  have chosen : row.memory ∈ e.memories.findActiveBySubject scope group.subject row.memory.project :=
    MemoryTable.mem_findActiveBySubject.mpr ⟨row,inside,rfl,placed,about,rfl,active⟩
  have plan := memoryResolvePlan_ok normal known chosen now
  have losers (loser : MemoryRow) : loser ∈ ((e.memories.findActiveBySubject scope group.subject row.memory.project).filter
      (fun m => m.id ≠ row.memory.id)).map (loserRow row.memory.id now) ↔
      ∃ m ∈ e.memories.findActiveBySubject scope group.subject row.memory.project,
        m.id ≠ row.memory.id ∧ loserRow row.memory.id now m = loser := by
    simp only [List.mem_map,List.mem_filter,decide_eq_true_eq,and_assoc]
  generalize ((e.memories.findActiveBySubject scope group.subject row.memory.project).filter
      (fun m => m.id ≠ row.memory.id)).map (loserRow row.memory.id now) = rows at plan losers
  have alone : ∀ left ∈ (e.memories.upsertRows rows).rows, left.memory.scope = scope.withDefaultTenant →
      left.memory.subject = some group.subject → left.memory.state = .active → left.memory = row.memory := by
    intro left there leftPlaced leftAbout leftActive
    rcases MemoryTable.mem_upsertRows there with ⟨loser,written,rfl⟩ | ⟨old,apart⟩
    · obtain ⟨m,_,_,rfl⟩ := (losers loser).mp written
      cases leftActive
    · have grouped := one.project left old row inside leftActive active (leftPlaced.trans placed.symm) _ leftAbout about
      by_cases same : left.id = row.id
      · rw [e.memories.eq_of_key old inside same]
      · have found := MemoryTable.mem_findActiveBySubject.mpr ⟨left,old,rfl,leftPlaced,leftAbout,grouped,leftActive⟩
        exact absurd rfl (apart (loserRow row.memory.id now left.memory) ((losers _).mpr ⟨left.memory,found,same,rfl⟩))
  have stays : row ∈ (e.memories.upsertRows rows).rows := by
    have found : (e.memories.upsertRows rows).find row.id = some row := by
      rw [MemoryTable.upsertRows_eq,Table.find_upsertAll]
      · exact (Table.find_eq_some e.memories row.id row).mpr ⟨inside,rfl⟩
      · intro written listed same
        obtain ⟨loser,there,rfl⟩ := List.mem_map.mp listed
        obtain ⟨m,_,other,rfl⟩ := (losers loser).mp there
        exact other same
    exact ((Table.find_eq_some _ _ _).mp found).1
  have memories : (memoryApplyRows env stamp e rows).memories = e.memories.upsertRows rows :=
    memoryApplyRows_memories env stamp e rows
  refine ⟨rows,plan,?_,?_,?_⟩
  · rw [memories]
    exact ⟨row,stays,rfl⟩
  · rw [memories]
    exact alone
  · refine not_queued (m := row.memory) ?_
    rw [memories]
    exact alone

theorem oneProject_empty (config : CoreConfig) (dimension : Nat) : OneProject env (Engine.empty config dimension).memories :=
  ⟨by simp [Engine.empty,Table.empty],by simp [Engine.empty,Table.empty]⟩

/-- Along every run of additions that keep their subjects in one project, everything queued can be resolved. -/
theorem contradictions_resolve (lowercases : env.Lowercases) (config : CoreConfig) (dimension : Nat)
    (adds : List (MemoryInput × Draw))
    (keeps : Along (addNext env) (KeepsProject env) (Engine.empty config dimension) adds) :
    Throughout (addNext env) (QueueResolves env) (Engine.empty config dimension) adds := by
  have kept : Throughout (addNext env) (fun e => OneProject env e.memories) (Engine.empty config dimension) adds :=
    keeps.throughout (oneProject_empty config dimension) (fun e item one given => one.addNext lowercases given)
  intro n
  exact (kept n).resolves

end

def reviewConfig : CoreConfig :=
  { CoreConfig.default with cognition := { CoreConfig.default.cognition with contradictionReview := true } }

def planFact (project : Option String) (content : String) : MemoryInput :=
  { MemoryInput.new (.tenant "acme") content with subject := some "Plan", project := project }

/-- Two versions of a subject without a project. -/
def contested : List (MemoryInput × Draw) :=
  [(planFact none "free",.plain 1000 1),(planFact none "pro",.plain 2000 2)]

theorem contradictions_resolve_contested :
    (memoryContradictions (run (addNext Env.ascii) (.empty reviewConfig 2) contested) (.tenant "acme") 100).length = 1 ∧
      Throughout (addNext Env.ascii) (QueueResolves Env.ascii) (.empty reviewConfig 2) contested := by
  have keeps : Along (addNext Env.ascii) (KeepsProject Env.ascii) (.empty reviewConfig 2) contested := by
    have unmerged {e : Engine} {item : MemoryInput × Draw} {top : Memory} (off : e.config.embedding = false)
        (hit : mergeTarget e item.2 (canonicalInput Env.ascii item.1).scope (e.embedMemoryContent item.2) =
          .ok (some top)) : False := by
      simp [Engine.embedMemoryContent,off,mergeTarget] at hit
    refine ⟨⟨?_,fun _ _ _ _ _ => rfl,fun top hit => (unmerged rfl hit).elim⟩,
      ⟨?_,fun _ _ _ _ _ => rfl,fun top hit => (unmerged rfl hit).elim⟩,trivial⟩
    · intro subject _ old inside
      cases inside
    · have unassigned : ∀ old ∈ (addNext Env.ascii (.empty reviewConfig 2) (planFact none "free",.plain 1000 1)).memories.rows,
          old.memory.project = none := by decide +kernel
      intro subject _ old inside _ _ _
      exact unassigned old inside
  exact ⟨by decide +kernel,contradictions_resolve ascii_lowercases reviewConfig 2 contested keeps⟩

/-- One subject in two projects, and a contradiction within a project. -/
def crossedProjects : List (MemoryInput × Draw) :=
  [(planFact (some "web") "free",.plain 1000 1),(planFact (some "app") "pro",.plain 2000 2)]

def contradictedProject : List (MemoryInput × Draw) :=
  [(planFact (some "web") "free",.plain 1000 1),(planFact (some "web") "pro",.plain 2000 2)]

/-- Whether some queued group is still queued when one of its members is chosen. -/
def stuckGroup (e : Engine) (scope : MemoryScope) (maxRows : Nat) : Bool :=
  (memoryContradictions e scope maxRows).any (fun group => group.memories.any (fun m =>
    match memoryResolvePlan Env.ascii e scope group.subject m.id 3000 with
    | .error _ => true
    | .ok rows => (memoryContradictions (memoryApplyRows Env.ascii (fun _ => 3000) e rows) scope maxRows).any
        (fun other => other.subject = group.subject)))

theorem stuckGroup_stays {e : Engine} {scope : MemoryScope} {maxRows : Nat} (stuck : stuckGroup e scope maxRows = true) :
    ¬QueueResolves Env.ascii e := by
  intro resolves
  obtain ⟨group,queued,some⟩ := List.any_eq_true.mp stuck
  obtain ⟨m,member,left⟩ := List.any_eq_true.mp some
  obtain ⟨rows,plan,_,_,gone⟩ := resolves scope maxRows 3000 (fun _ => 3000) group queued m member
  rw [plan] at left
  obtain ⟨other,again,same⟩ := List.any_eq_true.mp left
  exact gone other again (of_decide_eq_true same)

/-- In both runs the queue holds a group that no choice empties. -/
theorem contradictions_stay :
    ¬Throughout (addNext Env.ascii) (QueueResolves Env.ascii) (.empty reviewConfig 2) crossedProjects ∧
      ¬Throughout (addNext Env.ascii) (QueueResolves Env.ascii) (.empty reviewConfig 2) contradictedProject := by
  constructor
  · intro all
    have stuck : stuckGroup (run (addNext Env.ascii) (.empty reviewConfig 2) crossedProjects) (.tenant "acme") 100 = true := by
      decide +kernel
    exact stuckGroup_stays stuck (all 2)
  · intro all
    have stuck : stuckGroup (run (addNext Env.ascii) (.empty reviewConfig 2) contradictedProject) (.tenant "acme") 100 =
        true := by
      decide +kernel
    exact stuckGroup_stays stuck (all 2)

end Ecphoria
