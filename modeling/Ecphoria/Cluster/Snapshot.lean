import Ecphoria.Cluster.Backup

/-! Building a snapshot while entries are applied. The builder notes the last applied
entry and then dumps one store after another; an apply makes the writes of its
entry and then records it. Nothing orders the steps of the one among those of the other. -/
namespace Ecphoria
open Library

/-- An entry of the log: its request, or none for a blank or a membership entry, which write no store.
Wherever the entry is replayed, its statements read the same clock. -/
structure Entry where
  request : Option AppRequest
  reading : Reading

/-- The writes of a request, in order: the rows of a change-set and the ids of an expiry go one by one. -/
def AppRequest.pieces : AppRequest → List AppRequest
  | .memoryUpsert rows => rows.map (fun row => .memoryUpsert [row])
  | .memoryExpire ids => ids.map (fun id => .memoryExpire [id])
  | request => [request]

def Entry.pieces (entry : Entry) : List AppRequest := (entry.request.map AppRequest.pieces).getD []

structure Writing where
  pieces : List AppRequest
  reading : Reading

structure Build where
  lastLogId : Nat
  episodic : Option EpisodicExport
  vectors : Option SemanticStore
  memories : Option MemoriesExport
  state : Option StateTable

structure StoredSnapshot where
  lastLogId : Nat
  data : BackupDir

/-- The replica: its node, the entry after the last recorded one when it is being applied, the build under
way and the last snapshot. -/
structure MemStore where
  node : Node
  writing : Option Writing
  build : Option Build
  snapshot : Option StoredSnapshot

def MemStore.start (e : Engine) : MemStore := ⟨⟨e,0,false⟩,none,none,none⟩

def Build.packs (b : Build) (e : Engine) : Dumps where
  episodic := b.episodic.getD e.exportEpisodic
  vectors := b.vectors.getD e.semantic
  memories := b.memories.getD e.exportMemories
  state := b.state.getD e.state

inductive StoreTurn where
  | apply
  | build
deriving DecidableEq,Repr

section
variable (env : Env) (sha256 : Artifact → String) (e : Engine) (log : List Entry)

def replayEntry (node : Node) (entry : Entry) : Node :=
  match entry.request with
  | some request => applyEntry env entry.reading node request
  | none => if node.halted then node else { node with applied := node.applied + 1 }

def replay (entries : List Entry) (node : Node) : Node := run (replayEntry env) node entries

/-- The next step of `apply_to_state_machine`: take up the next entry, make its next write, or record it
when all are made. -/
def applyStep (m : MemStore) : MemStore :=
  if m.node.halted then m
  else
    match m.writing with
    | none =>
      match log[m.node.applied]? with
      | none => m
      | some entry => { m with writing := some ⟨entry.pieces,entry.reading⟩ }
    | some ⟨[],_⟩ => { m with node := { m.node with applied := m.node.applied + 1 }, writing := none }
    | some ⟨piece :: pieces,reading⟩ =>
      match applyRequest env reading m.node.engine piece with
      | (.ok _,written) => { m with node := { m.node with engine := written }, writing := some ⟨pieces,reading⟩ }
      | (.error _,written) => { m with node := { m.node with engine := written, halted := true } }

/-- The next step of `build_snapshot`: note the last applied entry, take the next dump, or store the
snapshot. -/
def buildStep (m : MemStore) : MemStore :=
  match m.build with
  | none => { m with build := some ⟨m.node.applied,none,none,none,none⟩ }
  | some b =>
    match b.episodic,b.vectors,b.memories,b.state with
    | none,_,_,_ => { m with build := some { b with episodic := some m.node.engine.exportEpisodic } }
    | some _,none,_,_ => { m with build := some { b with vectors := some m.node.engine.semantic } }
    | some _,some _,none,_ => { m with build := some { b with memories := some m.node.engine.exportMemories } }
    | some _,some _,some _,none => { m with build := some { b with state := some m.node.engine.state } }
    | some episodic,some vectors,some memories,some state =>
      { m with build := none, snapshot := some ⟨b.lastLogId,packBackup sha256 ⟨episodic,vectors,memories,state⟩⟩ }

def storeStep (m : MemStore) : StoreTurn → MemStore
  | .apply => applyStep env log m
  | .build => buildStep sha256 m

def prefixEngine (n : Nat) : Engine := (replay env (log.take n) ⟨e,0,false⟩).engine

/-- What an install leaves alone is on the installing node as it is in the state it installs. -/
structure Beside (installing s : Engine) : Prop where
  config : installing.config = s.config
  dimension : installing.semantic.dimension = s.semantic.dimension
  sessions : installing.sessions = s.sessions
  edges : installing.edges = s.edges
  grants : installing.grants = s.grants
  attachments : installing.attachments = s.attachments

/-- The stored snapshot is the state at its own log id, and a node that installs it and replays the rest
of the log gets where a replay of the whole log gets. -/
def SnapshotExact (m : MemStore) : Prop :=
  ∀ snap, m.snapshot = some snap →
    snap.data = backup sha256 (prefixEngine env e log snap.lastLogId) ∧
    ∀ installing, Beside installing (prefixEngine env e log snap.lastLogId) →
      (replay env (log.drop snap.lastLogId)
        ⟨(restoreFromBackup sha256 installing snap.data).2,snap.lastLogId,false⟩).engine.dumps =
      (replay env log ⟨e,0,false⟩).engine.dumps

/-- No entry is written to a store that the build under way has yet to dump, and none is being applied,
with an effect on the stores, when a build notes the last applied entry. -/
def Undisturbed (m : MemStore) : StoreTurn → Prop
  | .apply => ∀ b, m.build = some b → b.packs (applyStep env log m).node.engine = b.packs m.node.engine
  | .build => m.build = none → m.writing ≠ none →
    m.node.engine.dumps = (prefixEngine env e log m.node.applied).dumps

def Reached (n : Nat) : Prop := replay env (log.take n) ⟨e,0,false⟩ = ⟨prefixEngine env e log n,n,false⟩

private theorem replay_take_succ {n : Nat} {entry : Entry} (found : log[n]? = some entry) (node : Node) :
    replay env (log.take (n + 1)) node = replayEntry env (replay env (log.take n) node) entry := by
  rw [List.take_add_one,found,replay,run_append]
  rfl

def finish (reading : Reading) : List AppRequest → Node → Node
  | [],node => { node with applied := node.applied + 1 }
  | piece :: pieces,node =>
    match applyRequest env reading node.engine piece with
    | (.ok _,written) => finish reading pieces { node with engine := written }
    | (.error _,written) => { node with engine := written, halted := true }

private theorem finish_rows (reading : Reading) (rows : List MemoryRow) (node : Node) :
    finish env reading (AppRequest.memoryUpsert rows).pieces node =
      ⟨memoryApplyRows env reading.stamp node.engine rows,node.applied + 1,node.halted⟩ := by
  induction rows generalizing node with
  | nil => rfl
  | cons row rows ih => exact ih { node with engine := applyRow env reading.stamp node.engine row }

private theorem finish_ids (reading : Reading) (ids : List Uuid) (node : Node) :
    finish env reading (AppRequest.memoryExpire ids).pieces node =
      ⟨memoryExpire reading.stamp node.engine ids,node.applied + 1,node.halted⟩ := by
  induction ids generalizing node with
  | nil => rfl
  | cons id ids ih => exact ih { node with engine := expireOne reading.stamp node.engine id }

private theorem finish_single (reading : Reading) (request : AppRequest) (engine : Engine) (n : Nat) :
    finish env reading [request] ⟨engine,n,false⟩ = applyEntry env reading ⟨engine,n,false⟩ request := by
  cases answered : applyRequest env reading engine request with
  | mk answer written =>
    cases answer with
    | ok response => simp [finish,applyEntry,answered]
    | error err => simp [finish,applyEntry,answered]

theorem finish_pieces (entry : Entry) (engine : Engine) (n : Nat) :
    finish env entry.reading entry.pieces ⟨engine,n,false⟩ = replayEntry env ⟨engine,n,false⟩ entry := by
  obtain ⟨request,reading⟩ := entry
  cases request with
  | none => rfl
  | some request =>
    cases request with
    | memoryUpsert rows => exact finish_rows env reading rows ⟨engine,n,false⟩
    | memoryExpire ids => exact finish_ids env reading ids ⟨engine,n,false⟩
    | _ => exact finish_single env reading _ engine n

/-- How far the applies of a replica are: its engine is that of the entries it recorded, and what is left
of the entry being applied completes it. -/
structure Applying (m : MemStore) : Prop where
  reached : Reached env e log m.node.applied
  settled : m.writing = none → m.node.engine = prefixEngine env e log m.node.applied
  completes : ∀ w, m.writing = some w → m.node.halted = false →
    replay env (log.take (m.node.applied + 1)) ⟨e,0,false⟩ =
      finish env w.reading w.pieces ⟨m.node.engine,m.node.applied,false⟩

structure Tracks (m : MemStore) : Prop where
  applying : Applying env e log m
  building : ∀ b, m.build = some b → Reached env e log b.lastLogId ∧
    b.packs m.node.engine = (prefixEngine env e log b.lastLogId).dumps
  stored : ∀ snap, m.snapshot = some snap → Reached env e log snap.lastLogId ∧
    snap.data = backup sha256 (prefixEngine env e log snap.lastLogId)

variable {env e log} {m : MemStore}

theorem Applying.step (applying : Applying env e log m) : Applying env e log (applyStep env log m) := by
  unfold applyStep
  split
  next => exact applying
  next running =>
    have running : m.node.halted = false := by simpa using running
    split
    next idle =>
      split
      next => exact applying
      next entry found =>
        refine ⟨applying.reached,nofun,?_⟩
        intro w taken _
        cases taken
        rw [replay_take_succ env log found,applying.reached,applying.settled idle]
        exact (finish_pieces env entry _ _).symm
    next reading all_made =>
      have done := applying.completes _ all_made running
      have same : prefixEngine env e log (m.node.applied + 1) = m.node.engine := by
        rw [prefixEngine,done]
        rfl
      refine ⟨?_,fun _ => same.symm,nofun⟩
      rw [Reached,done,same]
      rfl
    next piece pieces reading under_way =>
      have rest := applying.completes _ under_way running
      split
      next response written answered =>
        refine ⟨applying.reached,nofun,?_⟩
        intro w left _
        cases left
        rw [rest,finish,answered]
      next err written failed =>
        refine ⟨applying.reached,?_,nofun⟩
        intro idle
        cases idle.symm.trans under_way

private theorem applyStep_frame (env : Env) (log : List Entry) (m : MemStore) :
    (applyStep env log m).build = m.build ∧ (applyStep env log m).snapshot = m.snapshot := by
  unfold applyStep
  split
  next => exact ⟨rfl,rfl⟩
  next =>
    split
    next =>
      split
      next => exact ⟨rfl,rfl⟩
      next => exact ⟨rfl,rfl⟩
    next => exact ⟨rfl,rfl⟩
    next =>
      split
      next => exact ⟨rfl,rfl⟩
      next => exact ⟨rfl,rfl⟩

theorem Tracks.apply (tracks : Tracks env sha256 e log m) (quiet : Undisturbed env e log m .apply) :
    Tracks env sha256 e log (applyStep env log m) := by
  obtain ⟨build,snapshot⟩ := applyStep_frame env log m
  refine ⟨tracks.applying.step,?_,?_⟩
  · intro b under_way
    rw [build] at under_way
    obtain ⟨reached,packs⟩ := tracks.building b under_way
    exact ⟨reached,(quiet b under_way).trans packs⟩
  · rw [snapshot]
    exact tracks.stored

private theorem Tracks.take {b taken : Build} (tracks : Tracks env sha256 e log m) (under_way : m.build = some b)
    (noted : taken.lastLogId = b.lastLogId) (packs : taken.packs m.node.engine = b.packs m.node.engine) :
    Tracks env sha256 e log { m with build := some taken } := by
  obtain ⟨reached,exact_so_far⟩ := tracks.building b under_way
  refine ⟨⟨tracks.applying.reached,tracks.applying.settled,tracks.applying.completes⟩,?_,tracks.stored⟩
  intro other same
  cases same
  rw [noted]
  exact ⟨reached,packs.trans exact_so_far⟩

theorem Tracks.build (tracks : Tracks env sha256 e log m) (quiet : Undisturbed env e log m .build) :
    Tracks env sha256 e log (buildStep sha256 m) := by
  have applying := tracks.applying
  unfold buildStep
  split
  next idle =>
    refine ⟨⟨applying.reached,applying.settled,applying.completes⟩,?_,tracks.stored⟩
    intro b noted
    cases noted
    refine ⟨applying.reached,?_⟩
    by_cases writing : m.writing = none
    · exact congrArg Engine.dumps (applying.settled writing)
    · exact quiet idle writing
  next b under_way =>
    split
    next missing => exact tracks.take sha256 under_way rfl (by simp [Build.packs,missing])
    next missing => exact tracks.take sha256 under_way rfl (by simp [Build.packs,missing])
    next missing => exact tracks.take sha256 under_way rfl (by simp [Build.packs,missing])
    next missing => exact tracks.take sha256 under_way rfl (by simp [Build.packs,missing])
    next episodic vectors memories state first second third fourth =>
      obtain ⟨reached,packs⟩ := tracks.building b under_way
      refine ⟨⟨applying.reached,applying.settled,applying.completes⟩,nofun,?_⟩
      intro snap same
      cases same
      refine ⟨reached,?_⟩
      have taken : b.packs m.node.engine = ⟨episodic,vectors,memories,state⟩ := by
        simp [Build.packs,first,second,third,fourth]
      rw [backup,← packs,taken]

end

/-- The tables a backup dumps: the run ledger is in none of the dumps. -/
def Tables.packed (t : Tables) : Tables := { t with runs := .empty }

section
variable (env : Env)

private theorem applyRows_packed (config : CoreConfig) (stamp : Uuid → Int) (t : Tables) (rows : List MemoryRow) :
    (t.applyRows env config stamp rows).packed = t.packed.applyRows env config stamp rows := by
  induction rows generalizing t with
  | nil => rfl
  | cons row rows ih => exact ih (t.applyRow env config stamp row)

theorem applyRequest_packed (config : CoreConfig) (reading : Reading) (t : Tables) (request : AppRequest) :
    (t.applyRequest env config reading request).packed =
      (t.packed.applyRequest env config reading request).packed := by
  cases request with
  | ingest events tenant =>
    have same : t.packed.episodic = t.episodic := rfl
    simp only [Tables.applyRequest,same]
    cases t.episodic.append (tagEvents tenant events) with
    | error err => rfl
    | ok appended => rfl
  | memoryUpsert rows =>
    have again : t.packed.packed = t.packed := rfl
    simp only [Tables.applyRequest,applyRows_packed,again]
  | _ => rfl

structure PackAlike (a b : Engine) : Prop where
  config : a.config = b.config
  semantic : a.semantic = b.semantic
  tables : a.tables.packed = b.tables.packed

theorem PackAlike.dumps {a b : Engine} (agree : PackAlike a b) : a.dumps = b.dumps := by
  have episodic : a.exportEpisodic = b.exportEpisodic :=
    congrArg (fun t : Tables => EpisodicExport.mk t.episodic t.sessions) agree.tables
  have memories : a.exportMemories = b.exportMemories :=
    congrArg (fun t : Tables => MemoriesExport.mk t.memories t.edges t.grants t.attachments) agree.tables
  have state : a.state = b.state := congrArg Tables.state agree.tables
  rw [Engine.dumps,Engine.dumps,episodic,memories,agree.semantic,state]

private theorem PackAlike.takes {a b : Engine} (agree : PackAlike a b) (request : AppRequest) :
    Takes a request ↔ Takes b request := by
  have episodic : a.episodic = b.episodic := congrArg Tables.episodic agree.tables
  cases request with
  | ingest events tenant => simp only [Takes,episodic]
  | semanticUpsert id content embedding metadata => simp only [Takes,agree.semantic]
  | _ => exact Iff.rfl

private theorem PackAlike.applyRequest {a b : Engine} (agree : PackAlike a b) (reading : Reading) (request : AppRequest) :
    PackAlike (Ecphoria.applyRequest env reading a request).2 (Ecphoria.applyRequest env reading b request).2 where
  config := by rw [applyRequest_config,applyRequest_config,agree.config]
  semantic := by rw [applyRequest_semantic,applyRequest_semantic,agree.semantic]
  tables := by
    rw [applyRequest_tables,applyRequest_tables,applyRequest_packed,applyRequest_packed env _ _ b.tables,
      agree.config,agree.tables]

structure Level (a b : Node) : Prop where
  engine : PackAlike a.engine b.engine
  halted : a.halted = b.halted

theorem Level.step {a b : Node} (level : Level a b) (entry : Entry) :
    Level (replayEntry env a entry) (replayEntry env b entry) := by
  cases stopped : a.halted with
  | true =>
    have both : b.halted = true := level.halted ▸ stopped
    have stay : replayEntry env a entry = a := by
      cases request : entry.request <;> simp [replayEntry,request,applyEntry,stopped]
    have wait : replayEntry env b entry = b := by
      cases request : entry.request <;> simp [replayEntry,request,applyEntry,both]
    rw [stay,wait]
    exact level
  | false =>
    have both : b.halted = false := level.halted ▸ stopped
    cases request : entry.request with
    | none =>
      simp only [replayEntry,request,stopped,both]
      exact ⟨level.engine,rfl⟩
    | some r =>
      obtain ⟨engineA,endsA⟩ := applyEntry_running env entry.reading r stopped
      obtain ⟨engineB,endsB⟩ := applyEntry_running env entry.reading r both
      simp only [replayEntry,request]
      refine ⟨?_,?_⟩
      · rw [engineA,engineB]
        exact level.engine.applyRequest env entry.reading r
      · have ends := endsA.trans ((level.engine.takes r).trans endsB.symm)
        exact Bool.eq_iff_iff.mpr (by simpa using not_congr ends)

theorem replay_level {a b : Node} (level : Level a b) (entries : List Entry) :
    Level (replay env entries a) (replay env entries b) := by
  induction entries generalizing a b with
  | nil => exact level
  | cons entry entries ih => exact ih (level.step env entry)

end

theorem restore_packAlike (sha256 : Artifact → String) {installing s : Engine} (beside : Beside installing s) :
    PackAlike (restoreFromBackup sha256 installing (backup sha256 s)).2 s := by
  rw [restoreFromBackup_backup]
  refine ⟨beside.config,?_,?_⟩
  · change (⟨installing.semantic.dimension,s.semantic.entries⟩ : SemanticStore) = s.semantic
    rw [beside.dimension]
  · simp [Tables.packed,Engine.tables,beside.edges,beside.grants,beside.attachments,beside.sessions]

theorem Tracks.exact {env : Env} {sha256 : Artifact → String} {e : Engine} {log : List Entry} {m : MemStore}
    (tracks : Tracks env sha256 e log m) : SnapshotExact env sha256 e log m := by
  intro snap stored
  obtain ⟨reached,data⟩ := tracks.stored snap stored
  refine ⟨data,fun installing beside => ?_⟩
  have whole : replay env log ⟨e,0,false⟩ =
      replay env (log.drop snap.lastLogId) ⟨prefixEngine env e log snap.lastLogId,snap.lastLogId,false⟩ := by
    rw [← reached]
    exact (congrArg (fun entries => replay env entries ⟨e,0,false⟩) (List.take_append_drop _ log).symm).trans
      (run_append ..)
  have agree := restore_packAlike sha256 beside
  rw [← data] at agree
  rw [whole]
  have level : Level ⟨(restoreFromBackup sha256 installing snap.data).2,snap.lastLogId,false⟩
      ⟨prefixEngine env e log snap.lastLogId,snap.lastLogId,false⟩ := ⟨agree,rfl⟩
  exact (replay_level env level (log.drop snap.lastLogId)).engine.dumps

/-- In a run no write of which disturbs a build, every snapshot is the state at its own log id. -/
theorem snapshot_exact_throughout (env : Env) (sha256 : Artifact → String) (e : Engine) (log : List Entry)
    (turns : List StoreTurn)
    (quiet : Along (storeStep env sha256 log) (Undisturbed env e log) (.start e) turns) :
    Throughout (storeStep env sha256 log) (SnapshotExact env sha256 e log) (.start e) turns := by
  have start : Tracks env sha256 e log (.start e) := ⟨⟨rfl,fun _ => rfl,nofun⟩,nofun,nofun⟩
  have tracks := quiet.throughout start (fun m turn tracks undisturbed => by
    cases turn with
    | apply => exact tracks.apply sha256 undisturbed
    | build => exact tracks.build sha256 undisturbed)
  exact fun n => (tracks n).exact

def stepLog : List Entry := [⟨some (.stateSet "planner" "step" (.int 1) none),.uniform 1000⟩]

def orderlyBuild : List StoreTurn := [.apply,.apply,.apply,.build,.build,.build,.build,.build,.build]

theorem snapshot_exact_orderly :
    Throughout (storeStep .ascii (fun _ => "") stepLog) (SnapshotExact .ascii (fun _ => "") (.empty .default 2) stepLog)
      (.start (.empty .default 2)) orderlyBuild :=
  snapshot_exact_throughout .ascii (fun _ => "") (.empty .default 2) stepLog orderlyBuild
    ⟨nofun,nofun,nofun,fun _ writing => absurd rfl writing,nofun,nofun,nofun,nofun,nofun,trivial⟩

def overtakenBuild : List StoreTurn := [.build,.apply,.apply,.build,.build,.build,.build,.build]

/-- The snapshot claims the empty log and holds the write of its first entry. -/
theorem snapshot_overtaken :
    ¬ Throughout (storeStep .ascii (fun _ => "") stepLog)
      (SnapshotExact .ascii (fun _ => "") (.empty .default 2) stepLog) (.start (.empty .default 2)) overtakenBuild := by
  intro always
  obtain ⟨data,_⟩ := always 8 _ rfl
  have rows := congrArg (fun dir : BackupDir => dir.stateDb.map (fun t => t.rows.length)) data
  have differ : some 1 = some 0 := rows
  cases differ

end Ecphoria
