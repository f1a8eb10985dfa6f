import Ecphoria.Cluster.Request
import Ecphoria.Memory.Rebuild

/-! State transfer: the stores a backup dumps, with the manifest that guards them, and
what a restore reads back. The restore clears and fills one table of each dump and
fills the vector index over what it held. -/
namespace Ecphoria
open Library

structure EpisodicExport where
  episodic : EpisodicTable
  sessions : SessionTable

structure MemoriesExport where
  memories : MemoryTable
  edges : EdgeTable
  grants : GrantTable
  attachments : AttachmentTable

structure Dumps where
  episodic : EpisodicExport
  vectors : SemanticStore
  memories : MemoriesExport
  state : StateTable

inductive Artifact where
  | episodic (dump : EpisodicExport)
  | vectors (store : SemanticStore)
  | memories (dump : MemoriesExport)
  | state (dump : StateTable)

structure BackupArtifact where
  path : String
  sha256 : String

structure BackupManifest where
  formatVersion : Nat
  artifacts : List BackupArtifact

structure BackupDir where
  manifest : Option BackupManifest
  episodicExport : Option EpisodicExport
  vectors : Option SemanticStore
  memoriesExport : Option MemoriesExport
  stateDb : Option StateTable

def backupFormatVersion : Nat := 1

def BackupDir.join (dir : BackupDir) (path : String) : Option Artifact :=
  match path with
  | "episodic_export" => dir.episodicExport.map .episodic
  | "memories_export" => dir.memoriesExport.map .memories
  | "vectors" => dir.vectors.map .vectors
  | "state.db" => dir.stateDb.map .state
  | _ => none

namespace Engine

def exportEpisodic (e : Engine) : EpisodicExport := ⟨e.episodic,e.sessions⟩

def exportMemories (e : Engine) : MemoriesExport := ⟨e.memories,e.edges,e.grants,e.attachments⟩

def dumps (e : Engine) : Dumps := ⟨e.exportEpisodic,e.semantic,e.exportMemories,e.state⟩

def restoreEpisodic (e : Engine) : Option EpisodicExport → Engine
  | some dump => { e with episodic := dump.episodic }
  | none => e

/-- `MemoryStore::restore_from_export`, with every column in both tables. -/
def restoreMemories (e : Engine) : Option MemoriesExport → Engine
  | some dump => { e with memories := dump.memories }
  | none => e

def restoreState (e : Engine) : Option StateTable → Engine
  | some dump => { e with state := dump }
  | none => e

/-- `SemanticStore::load_from`: the entries are replaced, the width stays. -/
def restoreSemantic (e : Engine) : Option SemanticStore → Engine
  | some store => { e with semantic := { e.semantic with entries := store.entries } }
  | none => e

end Engine

section
variable (sha256 : Artifact → String)

def backupArtifacts (dir : BackupDir) : List BackupArtifact :=
  ["episodic_export","memories_export","vectors","state.db"].filterMap
    (fun path => (dir.join path).map (fun artifact => ⟨path,sha256 artifact⟩))

def packBackup (taken : Dumps) : BackupDir :=
  let dir : BackupDir := ⟨none,some taken.episodic,some taken.vectors,some taken.memories,some taken.state⟩
  { dir with manifest := some ⟨backupFormatVersion,backupArtifacts sha256 dir⟩ }

def backup (e : Engine) : BackupDir := packBackup sha256 e.dumps

def verifyArtifact (dir : BackupDir) (artifact : BackupArtifact) : Except Error Unit :=
  match dir.join artifact.path with
  | none => .error (.storage s!"checksum read {artifact.path}")
  | some found =>
    if sha256 found = artifact.sha256 then .ok ()
    else .error (.storage ("backup integrity check failed for '" ++ artifact.path ++ "': manifest " ++
      artifact.sha256 ++ " != actual " ++ sha256 found))

def verifyManifest (dir : BackupDir) (manifest : BackupManifest) : Except Error Unit :=
  if backupFormatVersion < manifest.formatVersion then
    .error (.storage (s!"backup manifest format v{manifest.formatVersion} is newer than this build supports " ++
      s!"(v{backupFormatVersion}); upgrade Ecphoria"))
  else manifest.artifacts.forM (verifyArtifact sha256 dir)

def verifyBackup (dir : BackupDir) : Except Error Unit :=
  match dir.manifest with
  | some manifest => verifyManifest sha256 dir manifest
  | none => .ok ()

def restoreFromBackup (e : Engine) (dir : BackupDir) : Except Error Unit × Engine :=
  match verifyBackup sha256 dir with
  | .error err => (.error err,e)
  | .ok () =>
    let e := (((e.restoreEpisodic dir.episodicExport).restoreMemories dir.memoriesExport).restoreState
      dir.stateDb).restoreSemantic dir.vectors
    (.ok (),{ e with vectors := indexRows e.vectors e.memories.loadActiveWithEmbeddings })

/-- The memories a restore leaves: those of the dump, if the directory has one. -/
def BackupDir.memoriesOver (dir : BackupDir) (t : MemoryTable) : MemoryTable :=
  (dir.memoriesExport.map MemoriesExport.memories).getD t

theorem restoreFromBackup_verified {e : Engine} {dir : BackupDir} (verified : verifyBackup sha256 dir = .ok ()) :
    (restoreFromBackup sha256 e dir).2.memories = dir.memoriesOver e.memories ∧
      (restoreFromBackup sha256 e dir).2.lexical = e.lexical ∧
      (restoreFromBackup sha256 e dir).2.vectors =
        indexRows e.vectors (dir.memoriesOver e.memories).loadActiveWithEmbeddings := by
  rw [restoreFromBackup,verified,BackupDir.memoriesOver]
  cases dir.episodicExport <;> cases dir.memoriesExport <;> cases dir.stateDb <;> cases dir.vectors <;>
    exact ⟨rfl,rfl,rfl⟩

theorem restoreFromBackup_refused {e : Engine} {dir : BackupDir} {err : Error}
    (refused : verifyBackup sha256 dir = .error err) :
    restoreFromBackup sha256 e dir = (.error err,e) := by
  rw [restoreFromBackup,refused]

/-- What a complete transfer of `s` leaves on the installing node. -/
structure Transferred (s restored : Engine) : Prop where
  memories : restored.memories.Same s.memories
  edges : restored.edges.Same s.edges
  grants : restored.grants.Same s.grants
  attachments : restored.attachments.Same s.attachments
  episodic : restored.episodic.Same s.episodic
  sessions : restored.sessions.Same s.sessions
  state : restored.state.Same s.state
  lexical : restored.lexical.Same (rebuildLexicalIndex restored.memories)
  vectors : restored.vectors.Same (rebuildVectorIndex restored.vectors.dimension restored.memories)

def Placeable (s : Engine) (dimension : Nat) (id : Uuid) : Prop :=
  ∃ row ∈ s.memories.rows, row.id = id ∧ row.memory.state = .active ∧
    ∃ emb, row.embedding = some emb ∧ emb ≠ [] ∧ emb.length = dimension

/-- What the restore neither fills nor clears is already as it should be: the tables beside the two main
ones, the text of the active memories, and no vector of another memory. -/
structure Prepared (s installing : Engine) : Prop where
  edges : installing.edges.Same s.edges
  grants : installing.grants.Same s.grants
  attachments : installing.attachments.Same s.attachments
  sessions : installing.sessions.Same s.sessions
  lexical : ∀ id, installing.lexical.find id =
    ((s.memories.get id).filter (fun m => m.state = .active)).map Memory.toLexicalEntry
  vectors : ∀ id, installing.vectors.idPartition id ≠ none → Placeable s installing.vectors.dimension id

theorem forM_ok_iff {α : Type} {check : α → Except Error Unit} {items : List α} :
    items.forM check = .ok () ↔ ∀ a ∈ items, check a = .ok () := by
  induction items with
  | nil => exact iff_of_true rfl (fun _ inside => absurd inside List.not_mem_nil)
  | cons a items ih =>
    rw [List.forM_eq_forM] at ih ⊢
    rw [List.forM_cons,List.forall_mem_cons]
    cases first : check a with
    | error err => exact iff_of_false nofun (fun both => nomatch both.1)
    | ok done => exact ih.trans (and_iff_right rfl).symm

theorem verifyArtifact_recorded {dir : BackupDir} {artifact : BackupArtifact}
    (recorded : artifact ∈ backupArtifacts sha256 dir) : verifyArtifact sha256 dir artifact = .ok () := by
  obtain ⟨path,_,found⟩ := List.mem_filterMap.mp recorded
  obtain ⟨content,there,rfl⟩ := Option.map_eq_some_iff.mp found
  simp [verifyArtifact,there]

theorem verifyBackup_backup (e : Engine) : verifyBackup sha256 (backup sha256 e) = .ok () := by
  rw [verifyBackup,backup,packBackup]
  simp only [verifyManifest,Nat.lt_irrefl,if_false]
  apply forM_ok_iff.mpr
  intro artifact recorded
  exact verifyArtifact_recorded sha256 recorded

theorem restoreFromBackup_backup (installing s : Engine) :
    restoreFromBackup sha256 installing (backup sha256 s) =
      (.ok (),{ installing with
        episodic := s.episodic
        memories := s.memories
        state := s.state
        semantic := { installing.semantic with entries := s.semantic.entries }
        vectors := indexRows installing.vectors s.memories.loadActiveWithEmbeddings }) := by
  rw [restoreFromBackup,verifyBackup_backup]
  rfl

private theorem vectorRow_iff (s : Engine) (dimension : Nat) (id : Uuid) :
    vectorRow dimension s.memories.loadActiveWithEmbeddings id ≠ none ↔ Placeable s dimension id := by
  rw [vectorRow,ne_eq,List.find?_eq_none]
  constructor
  · intro some_row
    simp only [not_forall,not_not] at some_row
    obtain ⟨⟨m,emb⟩,inside,fits⟩ := some_row
    obtain ⟨row,member,rfl,active,found,some_numbers⟩ := MemoryTable.mem_loadActive.mp inside
    simp only [Bool.and_eq_true,decide_eq_true_eq] at fits
    exact ⟨row,member,fits.1,active,emb,found,some_numbers,fits.2⟩
  · rintro ⟨row,member,rfl,active,emb,found,some_numbers,fits⟩ none
    have inside := MemoryTable.mem_loadActive.mpr ⟨row,member,rfl,active,found,some_numbers⟩
    exact none _ inside (by simpa using ⟨rfl,fits⟩)

/-- A restore makes the transfer complete exactly when the installing node was prepared for it. -/
theorem restore_transfers_iff (s installing : Engine) :
    (restoreFromBackup sha256 installing (backup sha256 s)).1 = .ok () ∧
      Transferred s (restoreFromBackup sha256 installing (backup sha256 s)).2 ↔ Prepared s installing := by
  rw [restoreFromBackup_backup]
  have texts := find_rebuildLexicalIndex s.memories
  have vectors := indexRows_same_iff installing.vectors s.memories.loadActive_distinct
  constructor
  · intro given
    obtain ⟨_,done⟩ := given
    refine ⟨done.edges,done.grants,done.attachments,done.sessions,?_,?_⟩
    · intro id
      exact (done.lexical id).trans (texts id)
    · intro id known
      have same := done.vectors
      rw [indexRows_dimension] at same
      exact (vectorRow_iff s _ id).mp (vectors.mp same id known)
  · intro ready
    refine ⟨rfl,⟨.refl _,ready.edges,ready.grants,ready.attachments,.refl _,ready.sessions,.refl _,?_,?_⟩⟩
    · intro id
      exact (ready.lexical id).trans (texts id).symm
    · rw [indexRows_dimension]
      exact vectors.mpr (fun id known => (vectorRow_iff s _ id).mpr (ready.vectors id known))

end

def linkedEdge : Edge := ⟨1,"ada","likes","tea",1,none,some 0,none,.active,none⟩

def linkedLeader : Engine :=
  (applyRequest .ascii (.uniform 0) (.empty .default 2) (.graphAddEdge none linkedEdge)).2

/-- A node that starts empty and installs the backup of the leader has no edge afterwards. -/
theorem restore_loses_edge :
    ¬ Transferred linkedLeader
      (restoreFromBackup (fun _ => "") (.empty .default 2) (backup (fun _ => "") linkedLeader)).2 := by
  intro done
  rw [restoreFromBackup_backup] at done
  have lost : (none : Option EdgeRow) = some ⟨linkedEdge,"default",0⟩ := done.edges 1
  cases lost

end Ecphoria
