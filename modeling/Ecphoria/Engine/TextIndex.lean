import Ecphoria.Cluster.Backup
import Ecphoria.Engine.IndexFrame
import Ecphoria.Engine.Upkeep
import Ecphoria.Engine.Waiting
import Ecphoria.Library.Transition

/-! The text index beside the memories. Every call that writes a row writes it through and
every call that drops one forgets it, with three exceptions: an import and a restore do
not touch the index, and a batch writes its texts after it has closed its memories. -/
namespace Ecphoria
open Library

/-- One entry for every active memory, with its scope, project, subject and content, and no other; that
is, what a rebuild gives. -/
def LexicalAgrees (e : Engine) : Prop :=
  (∀ entry, entry ∈ e.lexical.rows ↔
      ∃ row ∈ e.memories.rows, row.memory.state = .active ∧ row.memory.toLexicalEntry = entry) ∧
    e.lexical.Same (rebuildLexicalIndex e.memories)

def TextsFollow (e : Engine) : Prop := Follows e.memories textView e.lexical.find

theorem lexicalAgrees_iff (e : Engine) : LexicalAgrees e ↔ TextsFollow e := by
  constructor
  · intro agrees id
    exact (agrees.2 id).trans (textView_rebuilt e.memories id)
  · intro follows
    refine ⟨?_,fun id => (follows id).trans (textView_rebuilt e.memories id).symm⟩
    intro entry
    have found : entry ∈ e.lexical.rows ↔ textView (e.memories.find entry.id) = some entry := by
      rw [← follows entry.id,Table.find_eq_some]
      simp
    rw [found]
    constructor
    · intro viewed
      obtain ⟨row,stored,kept⟩ := Option.bind_eq_some_iff.mp viewed
      split at kept
      next active => exact ⟨row,((e.memories.find_eq_some _ row).mp stored).1,active,Option.some.inj kept⟩
      next => cases kept
    · rintro ⟨row,member,active,rfl⟩
      have stored : e.memories.find row.memory.id = some row := (e.memories.find_eq_some _ row).mpr ⟨member,rfl⟩
      simp [textView,stored,active,Memory.toLexicalEntry]

/-- The calls that write or drop memories, each with what it reads from outside. -/
inductive TextCall where
  | add (d : Draw) (input : MemoryInput)
  | addBatch (inputs : List (MemoryInput × Draw))
  | update (id : Uuid) (patch : MemoryPatch) (tenant : Option String) (d : Draw)
  | expire (ids : List Uuid) (stamp : Uuid → Int)
  | delete (id : Uuid)
  | decay (fading : Decay) (now : Int)
  | document (doc : DocumentIngest) (scope : MemoryScope) (opts : ChunkOptions) (draws : Nat → Draw) (now : Int)
  | prune (scope : MemoryScope) (project : String) (keepPaths : List String) (now : Int)
  | importMemories (memories : List Memory)
  | deleteTenant (tenant : String)
  | deleteUser (tenant userId : String)
  | restore (dir : BackupDir)

section
variable (env : Env) (sha256 : Artifact → String)

def TextCall.step (e : Engine) : TextCall → Engine
  | .add d input => (memoryAdd env e d input).2
  | .addBatch inputs => (memoryAddBatch env e inputs).2
  | .update id patch tenant d => (memoryUpdate env e id patch tenant d).2
  | .expire ids stamp => memoryExpire stamp e ids
  | .delete id => memoryDelete e id
  | .decay fading now => (e.memoryEnforceDecay fading now).2
  | .document doc scope opts draws now => (documentIngest env e doc scope opts draws now).2
  | .prune scope project keepPaths now => (documentPrune env e scope project keepPaths now).2
  | .importMemories memories => (e.importMemories memories).2
  | .deleteTenant tenant => (e.deleteTenant tenant).2
  | .deleteUser tenant userId => (e.deleteUser tenant userId).2
  | .restore dir => (restoreFromBackup sha256 e dir).2

/-- An input without a subject does not merge into a memory that an input still waiting says again. -/
def MergesApart (e : Engine) (buffer : Buffer) (input : MemoryInput) (d : Draw) : Prop :=
  (canonicalInput env input).subject = none → ∀ top,
    mergeTarget e d (canonicalInput env input).scope (e.embedMemoryContent d) = .ok (some top) →
      ∀ row ∈ buffer.rows, row.id = top.id → row.memory.state ≠ .active

def TextCall.DrawsNew (e : Engine) : TextCall → Prop
  | .addBatch inputs => AlongBatch env DrawNew inputs e ⟨[],[]⟩
  | .document doc scope opts draws _ =>
    AlongBatch env DrawNew (withDraws (documentInputs doc scope opts) draws) e ⟨[],[]⟩
  | _ => True

/-- The call leaves no text behind: the merges of a batch are apart, an import brings memories whose texts
are there already, and a restored table has the texts of the one it replaces. -/
def TextCall.Keeps (e : Engine) : TextCall → Prop
  | .addBatch inputs => AlongBatch env (MergesApart env) inputs e ⟨[],[]⟩
  | .document doc scope opts draws _ =>
    AlongBatch env (MergesApart env) (withDraws (documentInputs doc scope opts) draws) e ⟨[],[]⟩
  | .importMemories memories => ∀ m ∈ memories, textView (e.memories.find m.id) = textView (some ⟨m,none⟩)
  | .restore dir => verifyBackup sha256 dir = .ok () →
      ∀ id, textView ((dir.memoriesOver e.memories).find id) = textView (e.memories.find id)
  | _ => True

private theorem texts_applied {e : Engine} (follows : TextsFollow e) (stamp : Uuid → Int) (rows : List MemoryRow) :
    TextsFollow (memoryApplyRows env stamp e rows) := by
  have written := Follows.texts follows rows
  rw [TextsFollow,memoryApplyRows_memories,(memoryApplyRows_indexes env stamp e rows).1]
  exact written

private theorem texts_batch {e after : Engine} (follows : TextsFollow e) {rows : List MemoryRow} (orderly : ClosesFirst rows)
    (ok : memoryApplyRowsBatch e rows = .ok after) : TextsFollow after := by
  have written := Follows.texts follows rows
  intro id
  rw [memoryApplyRowsBatch_memories ok,(memoryApplyRowsBatch_indexes ok).1,LexicalIndex.find_batch orderly]
  exact written id

private theorem texts_forgotten {e : Engine} (follows : TextsFollow e) (base : Engine) (lexical : base.lexical = e.lexical)
    {p : MemoryRow → Bool} (ids : List Uuid) (chosen : ∀ row ∈ e.memories.rows, p row = true ↔ row.id ∈ ids) :
    Follows (e.memories.delete p) textView (ids.foldl Engine.forgetIndexes base).lexical.find := by
  refine Follows.forget_delete follows ids chosen ?_
  intro k
  rw [(forgetAll_holds base ids k).1,lexical]
  rfl

private theorem texts_evicted {e : Engine} (follows : TextsFollow e) (scope : MemoryScope) :
    TextsFollow (evictOverCap e scope) := by
  rw [TextsFollow,evictOverCap_memories]
  let kept := (e.memories.enforceScopeCap scope e.config.cognition.maxMemoriesPerScope).2
  exact texts_forgotten follows { e with memories := kept } rfl
    (e.memories.overCap scope e.config.cognition.maxMemoriesPerScope) (fun _ _ => decide_eq_true_iff)

theorem texts_add {e : Engine} (follows : TextsFollow e) (d : Draw) (input : MemoryInput) :
    TextsFollow (memoryAdd env e d input).2 := by
  unfold memoryAdd
  split
  next => exact follows
  next result rows ok => exact texts_evicted (texts_applied env follows d.stamp rows) _

private theorem texts_update {e : Engine} (follows : TextsFollow e) (id : Uuid) (patch : MemoryPatch)
    (tenant : Option String) (d : Draw) : TextsFollow (memoryUpdate env e id patch tenant d).2 := by
  unfold memoryUpdate
  split
  next => exact follows
  next m rows planned => exact texts_applied env follows d.stamp rows

private theorem texts_expired {e : Engine} (follows : TextsFollow e) (stamp : Uuid → Int) (ids : List Uuid) :
    TextsFollow (memoryExpire stamp e ids) := by
  induction ids generalizing e with
  | nil => exact follows
  | cons id ids ih =>
    obtain ⟨memories,lexical,_⟩ := expireOne_indexes stamp e id
    refine ih ?_
    rw [TextsFollow,memories,lexical]
    refine Follows.forget_update follows (by intro _; rfl) [id] ?_ ?_ ?_
    · intro row _ chosen
      simp only [Bool.and_eq_true,decide_eq_true_eq] at chosen
      simp [chosen.1]
    · intro row _ listed
      exact textView_idle (expired_idle (stamp id) (by simpa using listed))
    · intro k
      rw [LexicalIndex.find_remove]
      simp [textView]

private theorem texts_deleted {e : Engine} (follows : TextsFollow e) (id : Uuid) : TextsFollow (memoryDelete e id) :=
  texts_forgotten (p := fun row => row.id = id) follows e rfl [id] (by simp)

private theorem texts_decayed {e : Engine} (follows : TextsFollow e) (fading : Decay) (now : Int) :
    TextsFollow (e.memoryEnforceDecay fading now).2 := by
  have tables := (forgetAll_frame { e with memories := (e.memories.decay fading now).2 } (e.memories.decay fading now).1).1
  rw [TextsFollow,show (e.memoryEnforceDecay fading now).2.memories = (e.memories.decay fading now).2 from
    congrArg Tables.memories tables]
  refine Follows.forget_update follows (by intro _; rfl) (e.memories.decay fading now).1 ?_ ?_ ?_
  · intro row member forgets
    exact List.mem_map.mpr ⟨row,List.mem_filter.mpr ⟨member,forgets⟩,rfl⟩
  · intro row member listed
    obtain ⟨other,chosen,same⟩ := List.mem_map.mp listed
    obtain ⟨there,forgets⟩ := List.mem_filter.mp chosen
    cases e.memories.eq_of_key there member same
    rw [if_pos forgets]
    exact textView_idle (by simp [MemoryRow.forgotten])
  · intro k
    exact (forgetAll_holds _ _ k).1

private theorem texts_swept {e : Engine} (follows : TextsFollow e) (p : MemoryRow → Bool) (base : Engine)
    (lexical : base.lexical = e.lexical) :
    Follows (e.memories.delete p) textView
      (((e.memories.rows.filter p).map MemoryRow.id).foldl Engine.forgetIndexes base).lexical.find := by
  refine texts_forgotten follows base lexical _ ?_
  intro row member
  constructor
  · intro chosen
    exact List.mem_map.mpr ⟨row,List.mem_filter.mpr ⟨member,chosen⟩,rfl⟩
  · intro listed
    obtain ⟨other,kept,same⟩ := List.mem_map.mp listed
    obtain ⟨there,chosen⟩ := List.mem_filter.mp kept
    cases e.memories.eq_of_key there member same
    exact chosen

private theorem texts_deleteUser {e : Engine} (follows : TextsFollow e) (tenant userId : String) :
    TextsFollow (e.deleteUser tenant userId).2 := by
  have swept := texts_swept follows (MemoryTable.ofUser tenant userId)
    { e with memories := e.memories.delete (MemoryTable.ofUser tenant userId) } rfl
  have tables := (forgetAll_frame { e with memories := e.memories.delete (MemoryTable.ofUser tenant userId) }
    ((e.memories.rows.filter (MemoryTable.ofUser tenant userId)).map MemoryRow.id)).1
  rw [TextsFollow,show (e.deleteUser tenant userId).2.memories = e.memories.delete (MemoryTable.ofUser tenant userId) from
    congrArg Tables.memories tables]
  exact swept

private theorem texts_deleteTenant {e : Engine} (follows : TextsFollow e) (tenant : String) :
    TextsFollow (e.deleteTenant tenant).2 := by
  have swept := texts_swept follows (MemoryTable.ofTenant tenant)
    { e.dropEvents tenant with
      memories := e.memories.delete (MemoryTable.ofTenant tenant)
      edges := e.edges.delete (fun row => row.tenantId = tenant) } rfl
  rw [TextsFollow,show (e.deleteTenant tenant).2.memories = e.memories.delete (MemoryTable.ofTenant tenant) from
    congrArg Tables.memories (Engine.deleteTenant_tables e tenant)]
  exact swept

private theorem orderly_of_idle {rows : List MemoryRow} (idle : ∀ row ∈ rows, row.memory.state ≠ .active) :
    ClosesFirst rows :=
  List.pairwise_iff_forall_sublist.mpr (fun {a b} pair _ active => absurd active (idle a (pair.subset (by simp))))

private theorem texts_prune {e : Engine} (follows : TextsFollow e) (scope : MemoryScope) (project : String)
    (keepPaths : List String) (now : Int) : TextsFollow (documentPrune env e scope project keepPaths now).2 := by
  unfold documentPrune
  dsimp only
  split
  next => exact follows
  next after applied =>
    refine texts_batch follows (orderly_of_idle ?_) applied
    intro row inside
    obtain ⟨m,_,rfl⟩ := List.mem_map.mp inside
    simp

/-- What the loop of a batch keeps: the texts of what is applied, and an order in what waits. -/
private structure TextsWait (e : Engine) (buffer : Buffer) : Prop where
  follows : TextsFollow e
  waiting : Waiting e buffer
  orderly : ClosesFirst buffer.rows

private theorem TextsWait.plan {e : Engine} {buffer : Buffer} {input : MemoryInput} {d : Draw} {planned : Planned}
    (waits : TextsWait e buffer) (free : buffer.collides (batchKey env input) = false) (new : DrawNew e buffer input d)
    (apart : MergesApart env e buffer input d) (plan : PlanCase env e d input (e.embedMemoryContent d) planned) :
    TextsWait e (buffer.push (batchKey env input) planned.rows) := by
  refine ⟨waits.follows,waits.waiting.push new.1 plan,?_⟩
  refine List.pairwise_append.mpr ⟨waits.orderly,plan.pairwise (fun a b idle _ active => absurd active idle),?_⟩
  intro a inside b written same active
  cases plan.row written with
  | drawn _ now _ => exact now
  | confirmed _ _ _ _ now _ _ => exact now
  | closed old member own idle how =>
    rcases how with under | ⟨unkeyed,hit⟩
    · exact absurd active (waits.waiting.apart free member under inside (own.trans same.symm))
    · exact absurd active (apart unkeyed old.memory hit a inside (same.trans own.symm))

private theorem texts_addBatch {e : Engine} (follows : TextsFollow e) (inputs : List (MemoryInput × Draw))
    (new : AlongBatch env DrawNew inputs e ⟨[],[]⟩) (apart : AlongBatch env (MergesApart env) inputs e ⟨[],[]⟩)  :
    TextsFollow (memoryAddBatch env e inputs).2 := by
  have start : TextsWait e ⟨[],[]⟩ := ⟨follows,.empty e,.nil⟩
  obtain ⟨left,waits⟩ := AlongBatch.invariant env
    (fun e buffer after waits applied => ⟨texts_batch waits.follows waits.orderly applied,.empty after,.nil⟩)
    (fun e buffer input d planned waits free given _ plan => waits.plan env free given.1 given.2 plan)
    inputs [] start (new.and env apart)
  exact waits.follows

private theorem texts_document {e : Engine} (follows : TextsFollow e) (doc : DocumentIngest) (scope : MemoryScope)
    (opts : ChunkOptions) (draws : Nat → Draw) (now : Int)
    (new : AlongBatch env DrawNew (withDraws (documentInputs doc scope opts) draws) e ⟨[],[]⟩)
    (apart : AlongBatch env (MergesApart env) (withDraws (documentInputs doc scope opts) draws) e ⟨[],[]⟩) :
    TextsFollow (documentIngest env e doc scope opts draws now).2 := by
  have batch := texts_addBatch env follows _ new apart
  unfold documentIngest
  dsimp only
  split
  next err after failed =>
    rw [failed] at batch
    exact batch
  next added after ok =>
    rw [ok] at batch
    split
    next => exact batch
    next swept applied =>
      refine texts_batch batch (orderly_of_idle ?_) applied
      intro row inside
      obtain ⟨m,_,rfl⟩ := List.mem_map.mp inside
      simp

private theorem texts_import {e : Engine} (follows : TextsFollow e) (memories : List Memory)
    (known : ∀ m ∈ memories, textView (e.memories.find m.id) = textView (some ⟨m,none⟩)) :
    TextsFollow (e.importMemories memories).2 := by
  intro id
  have written : (e.importMemories memories).2.memories =
      e.memories.upsertRows (memories.map (fun m => ⟨m,none⟩)) := rfl
  rw [written,MemoryTable.upsertRows_eq,Table.find_upsertAll_eq]
  refine (follows id).trans ?_
  cases found : ((memories.map (fun m => (⟨m,none⟩ : MemoryRow))).map MemoryRow.stored).reverse.find?
      (fun row => row.id = id) with
  | none => rfl
  | some row =>
    have inside := List.mem_reverse.mp (List.mem_of_find?_eq_some found)
    have own : row.id = id := by simpa using List.find?_some found
    obtain ⟨given,listed,rfl⟩ := List.mem_map.mp inside
    obtain ⟨m,member,rfl⟩ := List.mem_map.mp listed
    subst own
    exact known m member

private theorem texts_restore {e : Engine} (follows : TextsFollow e) (dir : BackupDir)
    (same : verifyBackup sha256 dir = .ok () →
      ∀ id, textView ((dir.memoriesOver e.memories).find id) = textView (e.memories.find id)) :
    TextsFollow (restoreFromBackup sha256 e dir).2 := by
  cases verified : verifyBackup sha256 dir with
  | error err =>
    rw [restoreFromBackup_refused sha256 verified]
    exact follows
  | ok =>
    obtain ⟨memories,lexical,_⟩ := restoreFromBackup_verified sha256 (e := e) verified
    rw [TextsFollow,memories,lexical]
    intro id
    exact (follows id).trans (same verified id).symm

/-- From an index that agrees, a run keeps it so in every state, if no batch merges into a memory that
waits to be said again, every imported memory has its text there, and every restored table has the texts
of the one it replaces. -/
theorem texts_agree_throughout {e : Engine} (start : LexicalAgrees e) (calls : List TextCall)
    (new : Along (TextCall.step env sha256) (TextCall.DrawsNew env) e calls)
    (keeps : Along (TextCall.step env sha256) (TextCall.Keeps env sha256) e calls) :
    Throughout (TextCall.step env sha256) LexicalAgrees e calls := by
  have reached : Throughout (TextCall.step env sha256) TextsFollow e calls := by
    refine (new.and keeps).throughout ((lexicalAgrees_iff e).mp start) ?_
    rintro e call follows ⟨new,keeps⟩
    cases call with
    | add d input => exact texts_add env follows d input
    | addBatch inputs => exact texts_addBatch env follows inputs new keeps
    | update id patch tenant d => exact texts_update env follows id patch tenant d
    | expire ids stamp => exact texts_expired follows stamp ids
    | delete id => exact texts_deleted follows id
    | decay fading now => exact texts_decayed follows fading now
    | document doc scope opts draws now => exact texts_document env follows doc scope opts draws now new keeps
    | prune scope project keepPaths now => exact texts_prune env follows scope project keepPaths now
    | importMemories memories => exact texts_import follows memories keeps
    | deleteTenant tenant => exact texts_deleteTenant follows tenant
    | deleteUser tenant userId => exact texts_deleteUser follows tenant userId
    | restore dir => exact texts_restore sha256 follows dir keeps
  exact fun n => (lexicalAgrees_iff _).mpr (reached n)

private theorem AlongBatch.single {ok : Engine → Buffer → MemoryInput → Draw → Prop} {input : MemoryInput} {d : Draw}
    {e : Engine} (holds : ok e ⟨[],[]⟩ input d) : AlongBatch env ok [(input,d)] e ⟨[],[]⟩ := by
  unfold AlongBatch
  split
  next => trivial
  next after left flushed =>
    rcases flushColliding_cases flushed with ⟨_,rfl,rfl⟩ | ⟨_,applied,rfl⟩
    · refine ⟨holds,?_⟩
      split <;> trivial
    · cases applied
      refine ⟨holds,?_⟩
      split <;> trivial

end

def planNote (content : String) : MemoryInput :=
  { MemoryInput.new (.tenant "acme") content with subject := some "plan" }

def notedPlan : Engine := (memoryAdd .ascii (.empty .default 2) (.plain 1000 1) (planNote "free")).2

def indexedCalls : List TextCall :=
  [.addBatch [(planNote "pro",.plain 2000 2)],.update 2 ⟨some "team",none,none,none⟩ (some "acme") (.plain 3000 3),
    .expire [2] (fun _ => 4000),.deleteTenant "acme"]

private theorem empty_agrees (config : CoreConfig) (dimension : Nat) : LexicalAgrees (.empty config dimension) :=
  (lexicalAgrees_iff _).mpr (fun _ => rfl)

theorem texts_agree_throughout_noted :
    Throughout (TextCall.step .ascii (fun _ => "")) LexicalAgrees (.empty .default 2)
      (.add (.plain 1000 1) (planNote "free") :: indexedCalls) := by
  refine texts_agree_throughout .ascii (fun _ => "") (empty_agrees .default 2) _ ?_ ?_
  · refine ⟨trivial,?_,trivial,trivial,trivial,trivial⟩
    change AlongBatch .ascii DrawNew [(planNote "pro",.plain 2000 2)] notedPlan ⟨[],[]⟩
    have new : DrawNew notedPlan ⟨[],[]⟩ (planNote "pro") (.plain 2000 2) :=
      ⟨by decide +kernel,fun _ inside => nomatch inside⟩
    exact AlongBatch.single .ascii new
  · refine ⟨trivial,?_,trivial,trivial,trivial,trivial⟩
    change AlongBatch .ascii (MergesApart .ascii) [(planNote "pro",.plain 2000 2)] notedPlan ⟨[],[]⟩
    have apart : MergesApart .ascii notedPlan ⟨[],[]⟩ (planNote "pro") (.plain 2000 2) :=
      fun _ _ _ _ inside => nomatch inside
    exact AlongBatch.single .ascii apart

private theorem notedPlan_row : ∃ row ∈ notedPlan.memories.rows, row.memory.state = .active := by
  decide +kernel

/-- A restored memory has no entry in the text index. -/
theorem restore_leaves_texts :
    ¬Throughout (TextCall.step .ascii (fun _ => "")) LexicalAgrees (.empty .default 2)
      [.restore (backup (fun _ => "") notedPlan)] := by
  intro agrees
  have last : LexicalAgrees (restoreFromBackup (fun _ => "") (.empty .default 2) (backup (fun _ => "") notedPlan)).2 :=
    agrees 1
  rw [restoreFromBackup_backup] at last
  obtain ⟨row,member,active⟩ := notedPlan_row
  have inside := (last.1 row.memory.toLexicalEntry).mpr ⟨row,member,active,rfl⟩
  cases inside

end Ecphoria
