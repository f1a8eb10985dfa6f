import Ecphoria.Cluster.Backup
import Ecphoria.Cluster.Archive
import Mathlib.Order.Lex
import Mathlib.Data.List.Lex
import Mathlib.Logic.Function.Basic

/-! The checksums of a backup: what is fed to the hash for a directory, which
directories that determines, and which changed backups the manifest refuses. -/
namespace Ecphoria
open Library

/-- The first `Utf8Chunk`: whether its bytes are one character, and how many they are. -/
def firstChunk : Bytes → Bool × Nat
  | [] => (true,0)
  | lead :: rest =>
    let continues := fun i => decide (0x80 ≤ rest.getD i 0 ∧ rest.getD i 0 ≤ 0xBF)
    let second := fun low high => decide (low ≤ rest.getD 0 0 ∧ rest.getD 0 0 ≤ high)
    if lead < 0x80 then (true,1)
    else if 0xC2 ≤ lead ∧ lead ≤ 0xDF then (continues 0,if continues 0 then 2 else 1)
    else if 0xE0 ≤ lead ∧ lead ≤ 0xEF then
      if !second (if lead = 0xE0 then 0xA0 else 0x80) (if lead = 0xED then 0x9F else 0xBF) then (false,1)
      else (continues 1,if continues 1 then 3 else 2)
    else if 0xF0 ≤ lead ∧ lead ≤ 0xF4 then
      if !second (if lead = 0xF0 then 0x90 else 0x80) (if lead = 0xF4 then 0x8F else 0xBF) then (false,1)
      else if !continues 1 then (false,2)
      else (continues 2,if continues 2 then 4 else 3)
    else (false,1)

/-- `to_string_lossy`: what is no character is replaced by U+FFFD. -/
def toStringLossy : Nat → Bytes → Bytes
  | 0,_ => []
  | fuel + 1,bytes =>
    let (valid,width) := firstChunk bytes
    if width = 0 then []
    else (if valid then bytes.take width else [0xEF,0xBF,0xBD]) ++ toStringLossy fuel (bytes.drop width)

abbrev FilePath := List Bytes

/-- The bytes of a relative path, with its separators. -/
def FilePath.bytes : FilePath → Bytes
  | [] => []
  | [name] => name
  | name :: rest => name ++ 0x2F :: bytes rest

def FilePath.text (path : FilePath) : Bytes := toStringLossy path.bytes.length path.bytes

/-- The order of paths: by their components, each by its bytes. -/
def FilePath.key (path : FilePath) : List (List Nat) := path.map (List.map UInt8.toNat)

def FilePath.le (a b : FilePath) : Bool := decide (a.key ≤ b.key)

/-- A path that a regular file can have below a directory. -/
def FilePath.Valid (path : FilePath) : Prop :=
  path ≠ [] ∧ ∀ name ∈ path, name ≠ [] ∧ name ≠ [0x2E] ∧ name ≠ [0x2E,0x2E] ∧ 0x2F ∉ name ∧ 0 ∉ name

def FilePath.Apart (a b : FilePath) : Prop := ¬a <+: b ∧ ¬b <+: a

/-- A directory by its files, in the order that `collect_files` finds them. -/
structure FileTree where
  files : List (FilePath × Bytes)
  valid : ∀ file ∈ files, file.1.Valid
  apart : files.Pairwise (fun a b => a.1.Apart b.1)

namespace FileTree

def Same (a b : FileTree) : Prop := a.files.Perm b.files

def sorted (tree : FileTree) : List (FilePath × Bytes) := tree.files.mergeSort (fun a b => a.1.le b.1)

def feedFiles (files : List (FilePath × Bytes)) : Bytes :=
  files.flatMap (fun (path,content) => path.text ++ 0 :: content)

/-- The bytes that `sha256_path` hashes for a directory. -/
def feed (tree : FileTree) : Bytes := feedFiles tree.sorted

/-- No other directory is hashed as the same bytes. -/
def Determined (tree : FileTree) : Prop := ∀ other : FileTree, other.feed = tree.feed → other.Same tree

/-- There is at most one file, no other path is shown as its path, and nowhere in its content does what could
be a later file begin. -/
def Sealed (tree : FileTree) : Prop :=
  tree.files = [] ∨ ∃ path content, tree.files = [(path,content)] ∧
    (∀ other : FilePath, other.Valid → other.text = path.text → other = path) ∧
    ∀ later : FilePath, later.Valid → path.Apart later → path.le later →
      ∀ kept rest, content ≠ kept ++ later.text ++ 0 :: rest

end FileTree

section
variable {bytes rest left right : Bytes} {path a b c : FilePath}

theorem zero_not_mem_toStringLossy {fuel : Nat} (plain : 0 ∉ bytes) : 0 ∉ toStringLossy fuel bytes := by
  induction fuel generalizing bytes with
  | zero => exact List.not_mem_nil
  | succ fuel ih =>
    rw [toStringLossy]
    dsimp only
    split
    · exact List.not_mem_nil
    · intro inside
      rcases List.mem_append.mp inside with first | later
      · split at first
        · exact plain (List.mem_of_mem_take first)
        · revert first
          decide
      · exact ih (fun dropped => plain (List.mem_of_mem_drop dropped)) later

theorem FilePath.zero_not_mem_bytes (plain : ∀ name ∈ path, (0 : UInt8) ∉ name) : 0 ∉ path.bytes := by
  induction path using FilePath.bytes.induct with
  | case1 => exact List.not_mem_nil
  | case2 name => exact plain name List.mem_cons_self
  | case3 name rest more ih =>
    rw [FilePath.bytes]
    · intro inside
      rcases List.mem_append.mp inside with first | later
      · exact plain name List.mem_cons_self first
      · rcases List.mem_cons.mp later with slash | deeper
        · revert slash
          decide
        · exact ih (fun other listed => plain other (List.mem_cons_of_mem name listed)) deeper
    · exact more

theorem FilePath.Valid.zero_not_mem (valid : path.Valid) : 0 ∉ path.text :=
  zero_not_mem_toStringLossy (FilePath.zero_not_mem_bytes (fun name inside => (valid.2 name inside).2.2.2.2))

example : FilePath.text [[0x66,0xFF],[0xC3,0xA9]] = [0x66,0xEF,0xBF,0xBD,0x2F,0xC3,0xA9] := by decide

theorem cut_at_zero (left_plain : 0 ∉ left) (right_plain : 0 ∉ right) (same : left ++ 0 :: bytes = right ++ 0 :: rest) :
    left = right ∧ bytes = rest := by
  induction left generalizing right with
  | nil =>
    cases right with
    | nil => exact ⟨rfl,(List.cons.inj same).2⟩
    | cons first others =>
      have lead := (List.cons.inj same).1
      exact absurd (lead ▸ List.mem_cons_self) right_plain
  | cons first others ih =>
    cases right with
    | nil =>
      have lead := (List.cons.inj same).1
      exact absurd (lead ▸ List.mem_cons_self) left_plain
    | cons second more =>
      obtain ⟨lead,tail⟩ := List.cons.inj same
      obtain ⟨whole,after⟩ := ih (fun inside => left_plain (List.mem_cons_of_mem first inside))
        (fun inside => right_plain (List.mem_cons_of_mem second inside)) tail
      exact ⟨by rw [lead,whole],after⟩

theorem FilePath.Apart.symm (apart : a.Apart b) : b.Apart a := ⟨apart.2,apart.1⟩

theorem FilePath.le_of_le (first : a.le b) (second : b.le c) : a.le c :=
  decide_eq_true (le_trans (of_decide_eq_true first) (of_decide_eq_true second))

theorem FilePath.le_or_le (a b : FilePath) : (a.le b || b.le a) = true := by
  have some := le_total a.key b.key
  simpa [FilePath.le] using some

end

namespace FileTree
variable {tree other : FileTree} {file next : FilePath × Bytes} {others : List (FilePath × Bytes)}

theorem sorted_perm (tree : FileTree) : tree.sorted.Perm tree.files := List.mergeSort_perm _ _

theorem sorted_ordered (tree : FileTree) :
    tree.sorted.Pairwise (fun a b => a.1.Apart b.1 ∧ a.1.le b.1 = true) := by
  refine List.Pairwise.and ?_ ?_
  · exact (tree.sorted_perm.pairwise_iff (fun apart => apart.symm)).mpr tree.apart
  · exact @List.pairwise_mergeSort _ (fun a b : FilePath × Bytes => a.1.le b.1)
      (fun _ _ _ first second => FilePath.le_of_le first second) (fun a b => FilePath.le_or_le a.1 b.1) _

theorem valid_sorted (inside : file ∈ tree.sorted) : file.1.Valid := tree.valid file (tree.sorted_perm.mem_iff.mp inside)

theorem files_of_none (none : tree.sorted = []) : tree.files = [] := List.nil_perm.mp (none ▸ tree.sorted_perm)

theorem files_of_one (one : tree.sorted = [file]) : tree.files = [file] :=
  List.perm_singleton.mp (one ▸ tree.sorted_perm).symm

def single (path : FilePath) (valid : path.Valid) (content : Bytes) : FileTree where
  files := [(path,content)]
  valid := by simpa using valid
  apart := List.pairwise_singleton _ _

theorem feed_single {path : FilePath} (valid : path.Valid) (content : Bytes) :
    (single path valid content).feed = path.text ++ 0 :: content := by
  rw [feed,sorted,single,List.mergeSort_singleton,feedFiles,List.flatMap_singleton]

def pair (path later : FilePath) (valid : path.Valid) (after : later.Valid) (apart : path.Apart later)
    (kept rest : Bytes) : FileTree where
  files := [(path,kept),(later,rest)]
  valid := by simp [valid,after]
  apart := by simpa using apart

theorem feed_pair {path later : FilePath} (valid : path.Valid) (after : later.Valid) (apart : path.Apart later)
    (before : path.le later) (kept rest : Bytes) :
    (pair path later valid after apart kept rest).feed = path.text ++ 0 :: (kept ++ later.text ++ 0 :: rest) := by
  have ordered : (pair path later valid after apart kept rest).sorted = [(path,kept),(later,rest)] :=
    List.mergeSort_of_pairwise (by simpa [pair] using before)
  rw [feed,ordered]
  simp [feedFiles]

theorem feed_cons (first : tree.sorted = file :: others) :
    tree.feed = file.1.text ++ 0 :: (file.2 ++ feedFiles others) := by
  rw [feed,first,feedFiles,List.flatMap_cons,← feedFiles]
  simp

theorem feed_empty (none : tree.files = []) : tree.feed = [] := by
  have sorted : tree.sorted = [] := List.perm_nil.mp (none ▸ tree.sorted_perm)
  rw [feed,sorted,feedFiles,List.flatMap_nil]

theorem same_single {path : FilePath} {content : Bytes} (only : tree.files = [(path,content)]) :
    other.Same tree ↔ other.files = [(path,content)] := by
  rw [Same,only,List.perm_singleton]

theorem length_sorted (tree : FileTree) : tree.sorted.length = tree.files.length := tree.sorted_perm.length_eq

theorem feed_merged (two : tree.sorted = file :: next :: others) :
    (single file.1 (valid_sorted (two ▸ List.mem_cons_self)) (file.2 ++ feedFiles (next :: others))).feed =
    tree.feed := by
  rw [feed_single,feed_cons two]

theorem Determined.sealed (determined : tree.Determined) : tree.Sealed := by
  cases order : tree.sorted with
  | nil => exact Or.inl (files_of_none order)
  | cons file others =>
    cases others with
    | nil =>
      obtain ⟨path,content⟩ := file
      have only : tree.files = [(path,content)] := files_of_one order
      have fed : tree.feed = path.text ++ 0 :: content := by
        rw [feed_cons order]
        simp [feedFiles]
      refine Or.inr ⟨path,content,only,?_,?_⟩
      · intro other valid shown
        have same := determined (single other valid content) (by rw [feed_single,shown,fed])
        have equal := (same_single only).mp same
        cases equal
        rfl
      · intro later after apart before kept rest cut
        have valid : path.Valid := tree.valid (path,content) (only ▸ List.mem_cons_self)
        have same := determined (pair path later valid after apart kept rest) (by rw [feed_pair valid after apart before,fed,cut])
        have size := same.length_eq
        rw [only] at size
        cases size
    | cons next others =>
      have same := determined _ (feed_merged order)
      have many : tree.files.length = others.length + 2 := by rw [← length_sorted,order,List.length_cons,List.length_cons]
      have size : 1 = tree.files.length := same.length_eq
      omega

theorem Sealed.determined (sealed : tree.Sealed) : tree.Determined := by
  intro other fed
  rcases sealed with none | ⟨path,content,only,shown,uncut⟩
  · rw [feed_empty none] at fed
    cases order : other.sorted with
    | nil => rw [Same,none,files_of_none order]
    | cons file others =>
      rw [feed_cons order] at fed
      exact absurd fed (by simp)
  · have valid : path.Valid := tree.valid (path,content) (only ▸ List.mem_cons_self)
    have alone : tree.sorted = [(path,content)] := List.perm_singleton.mp (only ▸ tree.sorted_perm)
    rw [feed_cons alone,feedFiles,List.flatMap_nil,List.append_nil] at fed
    refine (same_single only).mpr ?_
    cases order : other.sorted with
    | nil =>
      rw [feed,order,feedFiles,List.flatMap_nil] at fed
      exact absurd fed (by simp)
    | cons file others =>
      obtain ⟨first,held⟩ := file
      rw [feed_cons order] at fed
      have there : FilePath.Valid first := valid_sorted (order ▸ List.mem_cons_self)
      obtain ⟨same_text,same_rest⟩ := cut_at_zero there.zero_not_mem valid.zero_not_mem fed
      obtain rfl := shown first there same_text
      cases others with
      | nil =>
        rw [feedFiles,List.flatMap_nil,List.append_nil] at same_rest
        have whole : held = content := same_rest
        rw [files_of_one order,whole]
      | cons next more =>
        have next_valid : next.1.Valid := valid_sorted (order ▸ List.mem_cons_of_mem _ List.mem_cons_self)
        have ordered := other.sorted_ordered
        rw [order] at ordered
        obtain ⟨apart,before⟩ := (List.pairwise_cons.mp ordered).1 next List.mem_cons_self
        refine absurd ?_ (uncut next.1 next_valid apart before held (next.2 ++ feedFiles more))
        have whole : held ++ feedFiles (next :: more) = content := same_rest
        rw [← whole,feedFiles,List.flatMap_cons,← feedFiles]
        simp

theorem determined_iff : tree.Determined ↔ tree.Sealed := ⟨Determined.sealed,Sealed.determined⟩

end FileTree

inductive OnDisk where
  | file (content : Bytes)
  | directory (tree : FileTree)

abbrev BackupFiles := String → Option OnDisk

/-- What is found is not what was captured: it is missing, or some file in it differs. An artifact of the
other kind is not compared here; the store it belongs to does not open it. -/
def OnDisk.DiffersFrom : Option OnDisk → OnDisk → Prop
  | none,_ => True
  | some (.file found),.file captured => found ≠ captured
  | some (.directory found),.directory captured => ¬found.Same captured
  | _,_ => False

section
variable (hash : Bytes → String)

def sha256Path : OnDisk → String
  | .file content => hash content
  | .directory tree => hash tree.feed

def capturedNames : List String := ["episodic_export","memories_export","vectors","state.db"]

def recordArtifacts (dir : BackupFiles) : List BackupArtifact :=
  capturedNames.filterMap (fun name => (dir name).map (fun found => ⟨name,sha256Path hash found⟩))

def checkArtifact (dir : BackupFiles) (artifact : BackupArtifact) : Except Error Unit :=
  match dir artifact.path with
  | none => .error (.storage s!"checksum read {artifact.path}")
  | some found =>
    if sha256Path hash found = artifact.sha256 then .ok ()
    else .error (.storage ("backup integrity check failed for '" ++ artifact.path ++ "': manifest " ++
      artifact.sha256 ++ " != actual " ++ sha256Path hash found))

def checkManifest (dir : BackupFiles) (manifest : BackupManifest) : Except Error Unit :=
  if backupFormatVersion < manifest.formatVersion then
    .error (.storage (s!"backup manifest format v{manifest.formatVersion} is newer than this build supports " ++
      s!"(v{backupFormatVersion}); upgrade Ecphoria"))
  else manifest.artifacts.forM (checkArtifact hash dir)

/-- The manifest of what was captured refuses every backup in which something listed differs. -/
def Guards (captured : BackupFiles) : Prop :=
  ∀ found : BackupFiles, (∃ artifact ∈ recordArtifacts hash captured, ∃ content,
      captured artifact.path = some content ∧ OnDisk.DiffersFrom (found artifact.path) content) →
    ∃ err, checkManifest hash found ⟨backupFormatVersion,recordArtifacts hash captured⟩ = .error err

variable {hash} {captured found : BackupFiles} {name : String} {content : OnDisk}

theorem mem_recordArtifacts {artifact : BackupArtifact} :
    artifact ∈ recordArtifacts hash captured ↔ artifact.path ∈ capturedNames ∧
      ∃ content, captured artifact.path = some content ∧ artifact.sha256 = sha256Path hash content := by
  rw [recordArtifacts,List.mem_filterMap]
  constructor
  · rintro ⟨name,listed,recorded⟩
    obtain ⟨content,there,rfl⟩ := Option.map_eq_some_iff.mp recorded
    exact ⟨listed,content,there,rfl⟩
  · rintro ⟨listed,content,there,digest⟩
    refine ⟨artifact.path,listed,?_⟩
    rw [there,Option.map_some,← digest]

theorem checkArtifact_ok {artifact : BackupArtifact} : checkArtifact hash found artifact = .ok () ↔
    ∃ content, found artifact.path = some content ∧ sha256Path hash content = artifact.sha256 := by
  rw [checkArtifact]
  cases found artifact.path with
  | none => exact iff_of_false nofun (by rintro ⟨_,there,_⟩; cases there)
  | some content =>
    dsimp only
    split
    next same => exact iff_of_true rfl ⟨content,rfl,same⟩
    next differs =>
      refine iff_of_false nofun ?_
      rintro ⟨_,there,same⟩
      cases there
      exact differs same

theorem checkManifest_ok {artifacts : List BackupArtifact} :
    checkManifest hash found ⟨backupFormatVersion,artifacts⟩ = .ok () ↔
      ∀ artifact ∈ artifacts, checkArtifact hash found artifact = .ok () := by
  rw [checkManifest,if_neg (Nat.lt_irrefl _)]
  exact forM_ok_iff

theorem sha256Path_differs (injective : Function.Injective hash) {other : OnDisk}
    (guarded : ∀ tree, content = .directory tree → tree.Sealed) (same : sha256Path hash other = sha256Path hash content) :
    ¬OnDisk.DiffersFrom (some other) content := by
  cases other with
  | file found =>
    cases content with
    | file bytes => exact fun differs => differs (injective same)
    | directory tree => exact id
  | directory found =>
    cases content with
    | file bytes => exact id
    | directory tree =>
      have sealed := guarded tree rfl
      exact fun differs => differs (sealed.determined found (injective same))

theorem guards_iff (injective : Function.Injective hash) : Guards hash captured ↔
    ∀ name ∈ capturedNames, ∀ tree, captured name = some (.directory tree) → tree.Sealed := by
  constructor
  · intro guards name listed tree there
    refine FileTree.determined_iff.mp ?_
    intro other fed
    by_contra differs
    have recorded : (⟨name,hash tree.feed⟩ : BackupArtifact) ∈ recordArtifacts hash captured :=
      mem_recordArtifacts.mpr ⟨listed,_,there,rfl⟩
    obtain ⟨err,refused⟩ := guards (Function.update captured name (some (.directory other)))
      ⟨_,recorded,_,there,by rw [Function.update_self]; exact differs⟩
    have accepted : checkManifest hash (Function.update captured name (some (.directory other)))
        ⟨backupFormatVersion,recordArtifacts hash captured⟩ = .ok () := by
      refine checkManifest_ok.mpr ?_
      intro artifact inside
      obtain ⟨_,content,captured_there,digest⟩ := mem_recordArtifacts.mp inside
      refine checkArtifact_ok.mpr ?_
      by_cases here : artifact.path = name
      · rw [here] at captured_there ⊢
        cases there.symm.trans captured_there
        rw [Function.update_self]
        exact ⟨_,rfl,by rw [digest,sha256Path,sha256Path,fed]⟩
      · rw [Function.update_of_ne here]
        exact ⟨content,captured_there,digest.symm⟩
    cases refused.symm.trans accepted
  · intro sealed found changed
    obtain ⟨artifact,recorded,content,there,differs⟩ := changed
    cases result : checkManifest hash found ⟨backupFormatVersion,recordArtifacts hash captured⟩ with
    | error err => exact ⟨err,rfl⟩
    | ok _ =>
      obtain ⟨other,found_there,same⟩ := checkArtifact_ok.mp (checkManifest_ok.mp result artifact recorded)
      obtain ⟨listed,_,captured_there,digest⟩ := mem_recordArtifacts.mp recorded
      cases there.symm.trans captured_there
      rw [found_there] at differs
      refine absurd differs (sha256Path_differs injective ?_ (same.trans digest))
      rintro tree rfl
      exact sealed artifact.path listed tree there

end

/-- A directory is the only one fed to the hash as its bytes exactly when it is sealed, and the manifest refuses
every differing backup exactly when all captured directories are. -/
theorem checksum_determines_iff {hash : Bytes → String} (injective : Function.Injective hash) (tree : FileTree)
    (captured : BackupFiles) : (tree.Determined ↔ tree.Sealed) ∧ (Guards hash captured ↔
      ∀ name ∈ capturedNames, ∀ tree, captured name = some (.directory tree) → tree.Sealed) :=
  ⟨FileTree.determined_iff,guards_iff injective⟩

def byteChar (byte : UInt8) : Char :=
  ⟨byte.toUInt32,Or.inl (by rw [UInt8.toNat_toUInt32]; exact byte.toNat_lt.trans (by decide))⟩

def spelled (bytes : Bytes) : String := String.ofList (bytes.map byteChar)

theorem spelled_injective : Function.Injective spelled := by
  intro a b same
  have chars := String.ofList_inj.mp same
  refine List.map_injective_iff.mpr ?_ chars
  intro x y equal
  exact UInt8.toUInt32_inj.mp (congrArg Char.val equal)

theorem plainPath : FilePath.Valid [[0x61]] ∧ FilePath.Valid [[0x62]] ∧ FilePath.Apart [[0x61]] [[0x62]] := by
  simp [FilePath.Valid,FilePath.Apart]

def oneFile : FileTree := .single [[0x61]] plainPath.1 [0x78]

/-- A vector directory of one file beside a state database. -/
def vectorBackup : BackupFiles := fun name =>
  if name = "vectors" then some (.directory oneFile)
  else if name = "state.db" then some (.file [1,2,3]) else none

theorem checksum_determines_vectors : (oneFile.Determined ↔ oneFile.Sealed) ∧ (Guards spelled vectorBackup ↔
    ∀ name ∈ capturedNames, ∀ tree, vectorBackup name = some (.directory tree) → tree.Sealed) :=
  checksum_determines_iff spelled_injective oneFile vectorBackup

def twoFiles : FileTree := .pair [[0x61]] [[0x62]] plainPath.1 plainPath.2.1 plainPath.2.2 [0x78] [0x79]

def joinedFile : FileTree := .single [[0x61]] plainPath.1 [0x78,0x62,0,0x79]

theorem joined_fed_alike : ¬∀ s t : FileTree, s.feed = t.feed → s.Same t := by
  intro determines
  have fed : twoFiles.feed = joinedFile.feed := by
    rw [twoFiles,joinedFile,FileTree.feed_pair _ _ _ (by decide),FileTree.feed_single]
    decide
  have size := (determines twoFiles joinedFile fed).length_eq
  cases size

end Ecphoria
