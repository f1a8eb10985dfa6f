import Ecphoria.Library.Transition
import Mathlib.Algebra.Ring.Nat
import Mathlib.Data.List.Infix
import Mathlib.Data.List.Induction

/-! Versioned changes of a schema. Each statement is committed on its own, and so is the version of a migration after its
last one: a call that ends between the two leaves statements behind that no version tells of. -/
namespace Ecphoria
open Library

structure Migration (ι : Type) where
  version : Nat
  sql : List ι

/-- What the engine makes of a statement, and how it refuses the row of a version. -/
structure SqlEngine (ι σ : Type) where
  exec : ι → σ → Except String σ
  refusal : Nat → String

structure VersionedDb (σ : Type) where
  schema : σ
  versions : List Nat

inductive Stop where
  | crashed
  | error (text : String)

/-- A call ends after some commits of one migration, by a crash or by a statement that fails. -/
structure Cut where
  version : Nat
  commits : Nat
  failure : Option String

/-- How a call goes: it may end before it reads the version, may not read it, and may be cut short later. -/
structure Course where
  early : Option Stop
  readable : Bool
  cut : Option Cut

def Course.smooth : Course := ⟨none,true,none⟩

section
variable {ι σ : Type}

def Migration.label (m : Migration ι) : String := s!"migration v{m.version}: "

def Cut.stop (cut : Cut) (m : Migration ι) : Stop :=
  match cut.failure with
  | none => .crashed
  | some text => .error (m.label ++ text)

/-- How many commits there are before the end of a call, where that is in this migration. -/
def Course.left (course : Course) (m : Migration ι) : Option Nat :=
  (course.cut.filter (fun cut => cut.version = m.version)).map Cut.commits

variable (engine : SqlEngine ι σ)

def executeBatch (m : Migration ι) (halt : Stop) (left : Option Nat) (statements : List ι) (schema : σ) :
    Except Stop Unit × σ :=
  if left = some 0 then (.error halt,schema)
  else
    match statements with
    | [] => (.ok (),schema)
    | statement :: rest =>
      match engine.exec statement schema with
      | .error text => (.error (.error (m.label ++ text)),schema)
      | .ok schema => executeBatch m halt (left.map (· - 1)) rest schema

/-- `INSERT INTO .. (version)`, an `INTEGER PRIMARY KEY` -/
def recordVersion (m : Migration ι) (db : VersionedDb σ) : Except Stop Unit × VersionedDb σ :=
  if m.version ∈ db.versions || 2 ^ 31 ≤ m.version then
    (.error (.error (s!"record migration v{m.version}: " ++ engine.refusal m.version)),db)
  else (.ok (),{ db with versions := db.versions ++ [m.version] })

def applyMigration (course : Course) (m : Migration ι) (db : VersionedDb σ) : Except Stop Unit × VersionedDb σ :=
  match executeBatch engine m ((course.cut.map (Cut.stop · m)).getD .crashed) (course.left m) m.sql db.schema with
  | (.error stop,schema) => (.error stop,{ db with schema := schema })
  | (.ok (),schema) => recordVersion engine m { db with schema := schema }

def applyPending (course : Course) : List (Migration ι) → Nat → VersionedDb σ → Except Stop Nat × VersionedDb σ
  | [],applied,db => (.ok applied,db)
  | m :: rest,_,db =>
    match applyMigration engine course m db with
    | (.error stop,db) => (.error stop,db)
    | (.ok (),db) => applyPending course rest m.version db

def currentVersion (course : Course) (db : VersionedDb σ) : Nat := if course.readable then db.versions.foldl max 0 else 0

def runMigrations (course : Course) (db : VersionedDb σ) (migrations : List (Migration ι)) :
    Except Stop Nat × VersionedDb σ :=
  match course.early with
  | some stop => (.error stop,db)
  | none =>
    let current := currentVersion course db
    applyPending engine course (migrations.filter (fun m => current < m.version)) current db

end

section
variable {ι σ : Type}

structure UpgradeCall (ι : Type) where
  migrations : List (Migration ι)
  course : Course

structure Upgraded (ι σ : Type) where
  db : VersionedDb σ
  known : List (Migration ι)

def Upgraded.fresh (schema : σ) : Upgraded ι σ := ⟨⟨schema,[]⟩,[]⟩

variable (engine : SqlEngine ι σ)

def upgrade (s : Upgraded ι σ) (call : UpgradeCall ι) : Upgraded ι σ :=
  ⟨(runMigrations engine call.course s.db call.migrations).2,call.migrations⟩

def Grows (s : Upgraded ι σ) (call : UpgradeCall ι) : Prop := s.known <+: call.migrations

def statementsOf (migrations : List (Migration ι)) : List ι := migrations.flatMap Migration.sql

def executeAll (statements : List ι) (schema : σ) : Except String σ :=
  statements.foldlM (fun schema statement => engine.exec statement schema) schema

def lastVersion (migrations : List (Migration ι)) : Nat := (migrations.getLast?.map Migration.version).getD 0

/-- The versions are numbers from 1 on that the column holds, in order. -/
structure Numbered (migrations : List (Migration ι)) : Prop where
  ascending : migrations.Pairwise (fun a b => a.version < b.version)
  bounds : ∀ m ∈ migrations,1 ≤ m.version ∧ m.version < 2 ^ 31

/-- After the calls, wherever they ended, a smooth one with a list that goes on from theirs answers the last version, and
the schema is that of each statement executed once. -/
def AppliesOnce (schema : σ) (calls : List (UpgradeCall ι)) (migrations : List (Migration ι)) : Prop :=
  (run (upgrade engine) (.fresh schema) calls).known <+: migrations →
    ∀ whole,executeAll engine (statementsOf migrations) schema = .ok whole →
      ∃ db,runMigrations engine .smooth (run (upgrade engine) (.fresh schema) calls).db migrations =
        (.ok (lastVersion migrations),db) ∧ db.schema = whole

/-- The version is read if there is one, and the call ends at no migration of which a statement is committed and the version
is not. -/
def Clean (s : Upgraded ι σ) (call : UpgradeCall ι) : Prop :=
  (call.course.readable = true ∨ s.db.versions = []) ∧
    ∀ cut,call.course.cut = some cut → ∀ m ∈ call.migrations,currentVersion call.course s.db < m.version →
      m.version = cut.version → cut.commits = 0 ∨ m.sql.length < cut.commits

variable {engine}

structure HasApplied (engine : SqlEngine ι σ) (schema : σ) (done : List (Migration ι)) (db : VersionedDb σ) : Prop where
  versions : db.versions = done.map Migration.version
  executed : executeAll engine (statementsOf done) schema = .ok db.schema

variable {schema : σ} {db : VersionedDb σ} {done pending : List (Migration ι)}

theorem executeAll_append (first second : List ι) (schema : σ) :
    executeAll engine (first ++ second) schema = (executeAll engine first schema).bind (executeAll engine second) :=
  List.foldlM_append

theorem statementsOf_append (first second : List (Migration ι)) :
    statementsOf (first ++ second) = statementsOf first ++ statementsOf second := List.flatMap_append

theorem executeAll_parts {first second : List ι} {whole : σ} (sound : executeAll engine (first ++ second) schema = .ok whole) :
    ∃ mid,executeAll engine first schema = .ok mid ∧ executeAll engine second mid = .ok whole := by
  rw [executeAll_append] at sound
  cases part : executeAll engine first schema with
  | error text =>
    rw [part] at sound
    cases sound
  | ok mid =>
    rw [part] at sound
    exact ⟨mid,rfl,sound⟩

theorem executeBatch_halted {m : Migration ι} {halt : Stop} {statements : List ι} {left : Option Nat} (here : left = some 0) :
    executeBatch engine m halt left statements schema = (.error halt,schema) := by
  unfold executeBatch
  rw [if_pos here]

theorem executeBatch_complete {m : Migration ι} {halt : Stop} {statements : List ι} {whole : σ} {left : Option Nat}
    (sound : executeAll engine statements schema = .ok whole) (enough : ∀ k,left = some k → statements.length < k) :
    executeBatch engine m halt left statements schema = (.ok (),whole) := by
  have goes : left ≠ some 0 := fun none_left => absurd (enough 0 none_left) (Nat.not_lt_zero _)
  induction statements generalizing schema left with
  | nil =>
    cases sound
    rw [executeBatch,if_neg goes]
  | cons statement rest ih =>
    obtain ⟨mid,first,later⟩ := @executeAll_parts _ _ _ _ [statement] rest _ sound
    have executed : engine.exec statement schema = .ok mid := by
      simpa [executeAll] using first
    have more (k : Nat) (given : left.map (· - 1) = some k) : rest.length < k := by
      obtain ⟨n,was,rfl⟩ := Option.map_eq_some_iff.mp given
      have before := enough n was
      rw [List.length_cons] at before
      omega
    rw [executeBatch,if_neg goes]
    simp only [executed]
    exact ih later more (fun none_left => absurd (more 0 none_left) (Nat.not_lt_zero _))

theorem lastVersion_append (done : List (Migration ι)) (m : Migration ι) : lastVersion (done ++ [m]) = m.version := by
  simp [lastVersion]

theorem Numbered.sublist {migrations part : List (Migration ι)} (numbered : Numbered migrations)
    (inside : part.Sublist migrations) : Numbered part :=
  ⟨numbered.ascending.sublist inside,fun m member => numbered.bounds m (inside.subset member)⟩

theorem Numbered.below (numbered : Numbered (done ++ pending)) {m : Migration ι} (inside : m ∈ pending) :
    lastVersion done < m.version := by
  cases done using List.reverseRecOn with
  | nil => exact (numbered.bounds m (List.mem_append_right _ inside)).1
  | append_singleton done last =>
    rw [lastVersion_append]
    exact (List.pairwise_append.mp numbered.ascending).2.2 last (List.mem_append_right _ (List.mem_singleton_self _)) m inside

theorem Numbered.le_last (numbered : Numbered done) {m : Migration ι} (inside : m ∈ done) : m.version ≤ lastVersion done := by
  cases done using List.reverseRecOn with
  | nil => cases inside
  | append_singleton done last =>
    rw [lastVersion_append]
    rcases List.mem_append.mp inside with before | here
    · exact Nat.le_of_lt ((List.pairwise_append.mp numbered.ascending).2.2 m before last (List.mem_singleton_self _))
    · exact Nat.le_of_eq (congrArg Migration.version (List.mem_singleton.mp here))

theorem Numbered.current (numbered : Numbered done) : (done.map Migration.version).foldl max 0 = lastVersion done := by
  induction done using List.reverseRecOn with
  | nil => rfl
  | append_singleton done m ih =>
    rw [List.map_append,List.foldl_append,ih (numbered.sublist (List.sublist_append_left _ _)),lastVersion_append]
    exact Nat.max_eq_right (Nat.le_of_lt (numbered.below (List.mem_singleton_self m)))

theorem Numbered.filter_pending (numbered : Numbered (done ++ pending)) :
    (done ++ pending).filter (fun m => lastVersion done < m.version) = pending := by
  have first : done.filter (fun m => lastVersion done < m.version) = [] := by
    refine List.filter_eq_nil_iff.mpr ?_
    intro m inside
    simpa using (numbered.sublist (List.sublist_append_left _ _)).le_last inside
  have rest : pending.filter (fun m => lastVersion done < m.version) = pending := by
    refine List.filter_eq_self.mpr ?_
    intro m inside
    simpa using numbered.below inside
  rw [List.filter_append,first,rest,List.nil_append]

/-- A migration that the call does not end in is applied; one that it ends before leaves the store as it is. -/
theorem applyMigration_clean {course : Course} {m : Migration ι} (numbered : Numbered (done ++ [m]))
    (applied : HasApplied engine schema done db) {whole : σ}
    (sound : executeAll engine (statementsOf (done ++ [m])) schema = .ok whole)
    (clean : ∀ cut,course.cut = some cut → m.version = cut.version → cut.commits = 0 ∨ m.sql.length < cut.commits) :
    (∃ stop,course.cut.isSome ∧ applyMigration engine course m db = (.error stop,db)) ∨
      ∃ after,applyMigration engine course m db = (.ok (),after) ∧ HasApplied engine schema (done ++ [m]) after := by
  by_cases here : course.left m = some 0
  · left
    have cut : course.cut.isSome := by
      obtain ⟨cut,found,_⟩ := Option.map_eq_some_iff.mp here
      rw [(Option.filter_eq_some_iff.mp found).1]
      rfl
    refine ⟨(course.cut.map (Cut.stop · m)).getD .crashed,cut,?_⟩
    rw [applyMigration,executeBatch_halted here]
  · right
    rw [statementsOf_append] at sound
    obtain ⟨mid,before,after⟩ := executeAll_parts sound
    cases before.symm.trans applied.executed
    have batch := @executeBatch_complete _ _ engine _ m ((course.cut.map (Cut.stop · m)).getD .crashed) _ _
      (course.left m) (by simpa [statementsOf] using after) (by
        intro k given
        obtain ⟨cut,found,rfl⟩ := Option.map_eq_some_iff.mp given
        obtain ⟨is_cut,own⟩ := Option.filter_eq_some_iff.mp found
        refine (clean cut is_cut (of_decide_eq_true own).symm).resolve_left ?_
        intro none_left
        exact here (given.trans (congrArg some none_left)))
    have fresh : m.version ∉ db.versions := by
      rw [applied.versions]
      intro inside
      obtain ⟨other,member,same⟩ := List.mem_map.mp inside
      exact Nat.ne_of_lt ((List.pairwise_append.mp numbered.ascending).2.2 other member m (List.mem_singleton_self m)) same
    have held : ¬2 ^ 31 ≤ m.version :=
      Nat.not_le.mpr (numbered.bounds m (List.mem_append_right _ (List.mem_singleton_self m))).2
    refine ⟨⟨whole,db.versions ++ [m.version]⟩,?_,?_,?_⟩
    · rw [applyMigration,batch]
      simp only [recordVersion,fresh,held,decide_false,Bool.or_self,Bool.false_eq_true,if_false]
    · rw [applied.versions,List.map_append]
      rfl
    · rw [statementsOf_append,executeAll_append,applied.executed]
      exact after

theorem applyPending_clean {course : Course} (numbered : Numbered (done ++ pending)) (applied : HasApplied engine schema done db)
    {whole : σ} (sound : executeAll engine (statementsOf (done ++ pending)) schema = .ok whole)
    (clean : ∀ cut,course.cut = some cut → ∀ m ∈ pending,m.version = cut.version →
      cut.commits = 0 ∨ m.sql.length < cut.commits) :
    ∃ more,more <+: pending ∧
      HasApplied engine schema (done ++ more) (applyPending engine course pending (lastVersion done) db).2 ∧
      (course.cut = none → more = pending ∧
        (applyPending engine course pending (lastVersion done) db).1 = .ok (lastVersion (done ++ pending))) := by
  induction pending generalizing done db with
  | nil =>
    rw [List.append_nil]
    exact ⟨[],List.prefix_refl _,(List.append_nil done).symm ▸ applied,fun _ => ⟨rfl,rfl⟩⟩
  | cons m rest ih =>
    rw [List.append_cons] at numbered sound
    have part : ∃ mid,executeAll engine (statementsOf (done ++ [m])) schema = .ok mid := by
      rw [statementsOf_append] at sound
      obtain ⟨mid,first,_⟩ := executeAll_parts sound
      exact ⟨mid,first⟩
    obtain ⟨mid,first⟩ := part
    rcases applyMigration_clean (numbered.sublist (List.sublist_append_left _ _)) applied first
      (fun cut found => clean cut found m List.mem_cons_self) with ⟨stop,cut,halted⟩ | ⟨after,done_here,applied_here⟩
    · refine ⟨[],List.nil_prefix,?_,?_⟩
      · rw [applyPending,halted,List.append_nil]
        exact applied
      · intro smooth
        rw [smooth] at cut
        cases cut
    · obtain ⟨more,inside,later,all⟩ := ih numbered applied_here sound
        (fun cut found other member => clean cut found other (List.mem_cons_of_mem m member))
      rw [lastVersion_append] at later all
      refine ⟨m :: more,List.cons_prefix_cons.mpr ⟨rfl,inside⟩,?_,?_⟩
      · rw [applyPending,done_here,List.append_cons]
        exact later
      · intro smooth
        obtain ⟨same,answer⟩ := all smooth
        refine ⟨congrArg (m :: ·) same,?_⟩
        rw [applyPending,done_here,List.append_cons]
        exact answer

theorem runMigrations_clean {course : Course} {migrations : List (Migration ι)} (numbered : Numbered migrations)
    (first : done <+: migrations) (applied : HasApplied engine schema done db) {whole : σ}
    (sound : executeAll engine (statementsOf migrations) schema = .ok whole)
    (readable : course.readable = true ∨ db.versions = [])
    (clean : ∀ cut,course.cut = some cut → ∀ m ∈ migrations,currentVersion course db < m.version →
      m.version = cut.version → cut.commits = 0 ∨ m.sql.length < cut.commits) :
    ∃ more,more <+: migrations ∧ HasApplied engine schema more (runMigrations engine course db migrations).2 ∧
      (course = .smooth → more = migrations ∧ (runMigrations engine course db migrations).1 = .ok (lastVersion migrations)) := by
  obtain ⟨pending,rfl⟩ := first
  have current : currentVersion course db = lastVersion done := by
    have versions := (numbered.sublist (List.sublist_append_left done pending)).current
    rw [← applied.versions] at versions
    rcases readable with read | empty
    · rw [currentVersion,if_pos read,versions]
    · rw [currentVersion,versions]
      rw [empty] at versions
      rw [← versions]
      exact ite_self _
  rw [runMigrations]
  cases early : course.early with
  | some stop =>
    refine ⟨done,List.prefix_append _ _,applied,?_⟩
    rintro rfl
    cases early
  | none =>
    simp only [current,numbered.filter_pending]
    obtain ⟨more,inside,later,all⟩ := applyPending_clean numbered applied sound (by
      intro cut found m member
      exact clean cut found m (List.mem_append_right _ member) (current ▸ numbered.below member))
    refine ⟨done ++ more,(List.prefix_append_right_inj done).mpr inside,later,?_⟩
    rintro rfl
    obtain ⟨same,answer⟩ := all rfl
    exact ⟨congrArg (done ++ ·) same,answer⟩

/-- Along calls none of which ends with a part of a migration committed, each statement of the list is executed once. -/
theorem migrations_apply_once {schema : σ} {calls : List (UpgradeCall ι)} {migrations : List (Migration ι)}
    (numbered : Numbered migrations)
    (along : Along (upgrade engine) (fun s call => Grows s call ∧ Clean s call) (.fresh schema) calls) :
    AppliesOnce engine schema calls migrations := by
  intro grown whole sound
  have part {list : List (Migration ι)} (known : list <+: migrations) :
      ∃ mid,executeAll engine (statementsOf list) schema = .ok mid := by
    obtain ⟨rest,rfl⟩ := known
    rw [statementsOf_append] at sound
    obtain ⟨mid,first,_⟩ := executeAll_parts sound
    exact ⟨mid,first⟩
  -- the lists only grow, so each is a part of the last one
  have invariant : (run (upgrade engine) (Upgraded.fresh schema) calls).known <+: migrations →
      ∃ done,done <+: (run (upgrade engine) (Upgraded.fresh schema) calls).known ∧
        HasApplied engine schema done (run (upgrade engine) (Upgraded.fresh schema) calls).db :=
    @Along.invariant _ _ (upgrade engine) _ (fun s => s.known <+: migrations →
      ∃ done,done <+: s.known ∧ HasApplied engine schema done s.db) _ _ along
    (fun _ => ⟨[],List.prefix_refl _,rfl,rfl⟩) (by
      rintro s call held ⟨grows,readable,clean⟩ known
      obtain ⟨done,inside,applied⟩ := held (grows.trans known)
      obtain ⟨mid,runs⟩ := part known
      obtain ⟨more,listed,later,_⟩ := runMigrations_clean (numbered.sublist known.sublist) (inside.trans grows) applied runs
        readable clean
      exact ⟨more,listed,later⟩)
  obtain ⟨done,inside,applied⟩ := invariant grown
  obtain ⟨more,_,later,all⟩ := @runMigrations_clean _ _ _ _ _ _ .smooth _ numbered (inside.trans grown) applied _ sound (.inl rfl)
    (by
      intro cut found
      cases found)
  obtain ⟨same,answer⟩ := all rfl
  rw [same] at later
  have executed := sound.symm.trans later.executed
  exact ⟨_,Prod.ext answer rfl,(Except.ok.inj executed).symm⟩

section
/-- Statements that create a table, which fail when it is there. -/
private def createTables : SqlEngine String (List String) where
  exec name tables := if name ∈ tables then .error s!"Table with name {name} already exists!" else .ok (tables ++ [name])
  refusal _ := ""

/-- Statements that insert a row, which never fail. -/
private def insertRows : SqlEngine String (List String) where
  exec row rows := .ok (rows ++ [row])
  refusal _ := ""

private def oneTable : List (Migration String) := [⟨1,["t"]⟩]

private def cutBefore (commits : Nat) : UpgradeCall String := ⟨oneTable,⟨none,true,some ⟨1,commits,none⟩⟩⟩

/-- A crash before the first statement does no harm. -/
theorem migrations_crash_before : AppliesOnce createTables [] [cutBefore 0] oneTable := by
  refine migrations_apply_once ⟨List.pairwise_singleton _ _,?_⟩ ⟨⟨List.nil_prefix,.inl rfl,?_⟩,trivial⟩
  · intro m inside
    rw [List.mem_singleton.mp inside]
    decide
  · intro cut found m inside pending own
    cases found
    exact .inl rfl

/-- After a crash between the statement and its version the next call executes the statement again: it fails there, and so
does every other call, or the statement is executed twice. -/
theorem migrations_crash_between : ¬AppliesOnce createTables [] [cutBefore 1] oneTable ∧
    ¬AppliesOnce insertRows [] [cutBefore 1] oneTable := by
  constructor
  · intro once
    obtain ⟨db,answer,_⟩ := once (List.prefix_refl _) ["t"] rfl
    cases answer
  · intro once
    obtain ⟨db,answer,schema⟩ := once (List.prefix_refl _) ["t"] rfl
    cases answer
    revert schema
    decide

end

end
end Ecphoria
