import Ecphoria.Cognition.Store
import Ecphoria.Library.Lossy

/-! A backup in object storage. The files of the local backup are put one by one, the
manifest last, and then listed; a put may fail, and what was put may be lost. -/
namespace Ecphoria
open Library

abbrev FileBytes := List UInt8

abbrev RelativePath := List FileBytes

/-- What a directory holds. A file whose content is `none` cannot be read. -/
inductive DirEntry where
  | file (name : FileBytes) (content : Option FileBytes)
  | dir (name : FileBytes) (entries : List DirEntry)

structure BackupFile where
  path : RelativePath
  content : Option FileBytes
deriving DecidableEq,Repr

mutual

/-- `walk_dir`: the files below a directory. -/
def walkDir (before : RelativePath) : List DirEntry → List BackupFile
  | [] => []
  | entry :: entries => walkEntry before entry ++ walkDir before entries

def walkEntry (before : RelativePath) : DirEntry → List BackupFile
  | .file name content => [⟨before ++ [name],content⟩]
  | .dir name entries => walkDir (before ++ [name]) entries

end

def manifestName : FileBytes := asciiBytes "manifest.json"

/-- `file_name() == "manifest.json"` with the backup directory itself as the parent. -/
def BackupFile.isManifest (f : BackupFile) : Bool := f.path = [manifestName]

def relativeText (path : RelativePath) : String := toStringLossy (List.intercalate [47] path)

def objectKey (base : String) (path : RelativePath) : String := base ++ "/" ++ relativeText path

def manifestKey (base : String) : String := base ++ "/manifest.json"

structure StorageBackend (S : Type) where
  put : S → String → FileBytes → Except Error Unit × S
  get : S → String → Except Error (Option FileBytes) × S
  list : S → String → Except Error (List String) × S

/-- The store, the files whose put has returned, and how many bytes those have. -/
structure Uploaded (S : Type) where
  store : S
  done : List RelativePath
  bytes : Nat

structure BackupSummary where
  base : String
  files : Nat
  bytes : Nat
  manifestKey : String
  artifacts : Nat
deriving DecidableEq,Repr

/-- A run: its moments, one after each call of the backend, and what it returns. -/
structure UploadRun (S α : Type) where
  moments : List (Uploaded S)
  result : Except Error α

section
/- `readManifest` is what `serde_json` finds in a manifest: how many artifacts it names. -/
variable {S : Type} (backend : StorageBackend S) (base : String) (readManifest : FileBytes → Option Nat)

def uploadFiles : List BackupFile → Uploaded S → UploadRun S (Uploaded S)
  | [],u => ⟨[],.ok u⟩
  | f :: rest,u =>
    match f.content with
    | none => ⟨[],.error (.storage "read backup file")⟩
    | some data =>
      match backend.put u.store (objectKey base f.path) data with
      | (.error err,store) => ⟨[{ u with store := store }],.error err⟩
      | (.ok _,store) =>
        let u := ⟨store,u.done ++ [f.path],u.bytes + data.length⟩
        let run := uploadFiles rest u
        ⟨u :: run.moments,run.result⟩

def missingMessage (missing : List String) : String :=
  let missing := missing.insertionSort (fun a b => a ≤ b)
  let more := missing.length - 5
  "backup incomplete: " ++ toString missing.length ++ " object(s) did not land — " ++
    String.intercalate ", " (missing.take 5) ++ (if 0 < more then " (+" ++ toString more ++ " more)" else "")

/-- The manifest is read back, and every file is looked for in the listing. -/
def verifyUpload (entries : List BackupFile) (u : Uploaded S) : UploadRun S BackupSummary :=
  match backend.get u.store (manifestKey base) with
  | (.error err,store) => ⟨[{ u with store := store }],.error err⟩
  | (.ok none,store) => ⟨[{ u with store := store }],.error (.storage "backup manifest missing after upload")⟩
  | (.ok (some data),store) =>
    let got := { u with store := store }
    match readManifest data with
    | none => ⟨[got],.error (.storage "backup manifest unreadable")⟩
    | some artifacts =>
      match backend.list got.store (base ++ "/") with
      | (.error err,store) => ⟨[got,{ got with store := store }],.error err⟩
      | (.ok present,store) =>
        let missing := (entries.map (fun f => objectKey base f.path)).filter (fun key => key ∉ present)
        ⟨[got,{ got with store := store }],
          if missing.isEmpty then .ok ⟨base,entries.length,u.bytes,manifestKey base,artifacts⟩
          else .error (.storage (missingMessage missing))⟩

def pathOrder (a b : BackupFile) : Bool := a.path ≤ b.path

/-- `backup_to_storage`, from the directory that `backup` has left. -/
def backupToStorage (tree : List DirEntry) (start : S) : UploadRun S BackupSummary :=
  let entries := (walkDir [] tree).insertionSort (fun a b => pathOrder a b = true)
  let uploads := uploadFiles backend base
    (entries.filter (fun f => !f.isManifest) ++ entries.filter BackupFile.isManifest) ⟨start,[],0⟩
  match uploads.result with
  | .error err => ⟨uploads.moments,.error err⟩
  | .ok u =>
    let verified := verifyUpload backend base readManifest entries u
    ⟨uploads.moments ++ verified.moments,verified.result⟩

end

/-- A file below a directory. -/
inductive FileBelow : List DirEntry → RelativePath → Option FileBytes → Prop
  | here {entries name content} (member : DirEntry.file name content ∈ entries) : FileBelow entries [name] content
  | inside {entries name inner path content} (member : DirEntry.dir name inner ∈ entries)
      (deeper : FileBelow inner path content) : FileBelow entries (name :: path) content

/-- A backend holds only objects that were put, with the content that was put; it may lose them. -/
structure StorageLaw {S : Type} (backend : StorageBackend S) (holds : S → String → FileBytes → Prop) : Prop where
  put : ∀ s key data other content, holds (backend.put s key data).2 other content →
    holds s other content ∨ other = key ∧ content = data
  get : ∀ s key other content, holds (backend.get s key).2 other content → holds s other content
  list : ∀ s key other content, holds (backend.list s key).2 other content → holds s other content

mutual

theorem mem_walkDir (before : RelativePath) (f : BackupFile) : ∀ entries : List DirEntry,
    f ∈ walkDir before entries ↔ ∃ path, f.path = before ++ path ∧ FileBelow entries path f.content
  | [] => by
    rw [walkDir]
    refine iff_of_false List.not_mem_nil ?_
    rintro ⟨_,_,below⟩
    cases below with
    | here member => cases member
    | inside member _ => cases member
  | entry :: entries => by
    rw [walkDir,List.mem_append,mem_walkEntry before f entry,mem_walkDir before f entries]
    constructor
    · rintro (⟨path,same,below⟩ | ⟨path,same,below⟩)
      · refine ⟨path,same,?_⟩
        cases below with
        | here member => exact .here (List.mem_singleton.mp member ▸ List.mem_cons_self)
        | inside member deeper => exact .inside (List.mem_singleton.mp member ▸ List.mem_cons_self) deeper
      · refine ⟨path,same,?_⟩
        cases below with
        | here member => exact .here (List.mem_cons_of_mem _ member)
        | inside member deeper => exact .inside (List.mem_cons_of_mem _ member) deeper
    · rintro ⟨path,same,below⟩
      cases below with
      | here member =>
        rcases List.mem_cons.mp member with first | later
        · exact Or.inl ⟨_,same,.here (first ▸ List.mem_singleton_self _)⟩
        · exact Or.inr ⟨_,same,.here later⟩
      | inside member deeper =>
        rcases List.mem_cons.mp member with first | later
        · exact Or.inl ⟨_,same,.inside (first ▸ List.mem_singleton_self _) deeper⟩
        · exact Or.inr ⟨_,same,.inside later deeper⟩

theorem mem_walkEntry (before : RelativePath) (f : BackupFile) : ∀ entry : DirEntry,
    f ∈ walkEntry before entry ↔ ∃ path, f.path = before ++ path ∧ FileBelow [entry] path f.content
  | .file name content => by
    rw [walkEntry,List.mem_singleton]
    constructor
    · rintro rfl
      exact ⟨[name],rfl,.here (List.mem_singleton_self _)⟩
    · rintro ⟨path,same,below⟩
      obtain ⟨own,data⟩ := f
      cases below with
      | here member =>
        cases List.mem_singleton.mp member
        cases same
        rfl
      | inside member _ => cases List.mem_singleton.mp member
  | .dir name inner => by
    rw [walkEntry,mem_walkDir (before ++ [name]) f inner]
    constructor
    · rintro ⟨path,same,below⟩
      exact ⟨name :: path,by rw [same,List.append_assoc,List.singleton_append],.inside (List.mem_singleton_self _) below⟩
    · rintro ⟨path,same,below⟩
      cases below with
      | here member => cases List.mem_singleton.mp member
      | @inside _ _ _ path _ member deeper =>
        cases List.mem_singleton.mp member
        exact ⟨path,by rw [same,List.append_assoc,List.singleton_append],deeper⟩

end

theorem mem_backup (tree : List DirEntry) (f : BackupFile) : f ∈ walkDir [] tree ↔ FileBelow tree f.path f.content := by
  rw [mem_walkDir]
  constructor
  · rintro ⟨path,same,below⟩
    rw [List.nil_append] at same
    rwa [same]
  · exact fun below => ⟨f.path,rfl,below⟩

theorem objectKey_manifest {base : String} {path : RelativePath} (same : objectKey base path = manifestKey base) :
    path = [manifestName] := by
  have text : relativeText path = "manifest.json" := by
    have chars := congrArg String.toList same
    have split : "/manifest.json" = "/" ++ "manifest.json" := rfl
    rw [objectKey,manifestKey,split,String.toList_append,String.toList_append,String.toList_append,String.toList_append,
      List.append_assoc] at chars
    exact String.toList_inj.mp (List.append_cancel_left (List.append_cancel_left chars))
  have plain : "manifest.json".toList.all (fun c => c.toNat < 0x80) = true := by decide
  have bytes : List.intercalate [47] path = manifestName :=
    toStringLossy_eq text (fun c inside => of_decide_eq_true (List.all_eq_true.mp plain c inside))
  cases path with
  | nil => exact absurd bytes (by decide +kernel)
  | cons first rest =>
    cases rest with
    | nil =>
      rw [List.intercalate_singleton] at bytes
      rw [bytes]
    | cons second rest =>
      have slash : (47 : UInt8) ∈ manifestName := by
        rw [← bytes,List.intercalate_cons_cons]
        simp
      exact absurd slash (by decide +kernel)

section
variable {S : Type} {backend : StorageBackend S} {base : String} {readManifest : FileBytes → Option Nat}
  {holds : S → String → FileBytes → Prop}

theorem StorageLaw.put_other (law : StorageLaw backend holds) {s : S} {key other : String} {data content : FileBytes}
    (different : other ≠ key) (held : holds (backend.put s key data).2 other content) : holds s other content :=
  (law.put s key data other content held).resolve_right (fun same => different same.1)

theorem uploadFiles_done (files : List BackupFile) (u after : Uploaded S)
    (ok : (uploadFiles backend base files u).result = .ok after) : after.done = u.done ++ files.map BackupFile.path := by
  induction files generalizing u with
  | nil =>
    rw [uploadFiles] at ok
    cases ok
    rw [List.map_nil,List.append_nil]
  | cons f rest ih =>
    rw [uploadFiles] at ok
    split at ok
    · cases ok
    · split at ok
      · cases ok
      · rw [ih _ ok,List.append_assoc,List.map_cons,List.singleton_append]

theorem uploadFiles_keep (files : List BackupFile) (u moment : Uploaded S)
    (reached : moment ∈ (uploadFiles backend base files u).moments) : u.done ⊆ moment.done := by
  induction files generalizing u with
  | nil =>
    rw [uploadFiles] at reached
    cases reached
  | cons f rest ih =>
    rw [uploadFiles] at reached
    split at reached
    · cases reached
    · split at reached
      · cases List.mem_singleton.mp reached
        exact List.Subset.refl _
      · rcases List.mem_cons.mp reached with rfl | later
        · exact List.subset_append_left _ _
        · exact List.Subset.trans (List.subset_append_left _ _) (ih _ later)

/-- The step of the upload: while files other than the manifest are put the manifest does not come to be
held, and once they are all put they stay put. -/
theorem uploadFiles_commit (law : StorageLaw backend holds) (data : FileBytes) (artifacts manifests : List BackupFile)
    (u moment : Uploaded S) (others : ∀ f ∈ artifacts, f.path ≠ [manifestName])
    (fresh : artifacts ≠ [] → ¬holds u.store (manifestKey base) data)
    (reached : moment ∈ (uploadFiles backend base (artifacts ++ manifests) u).moments)
    (held : holds moment.store (manifestKey base) data) : u.done ++ artifacts.map BackupFile.path ⊆ moment.done := by
  induction artifacts generalizing u with
  | nil =>
    rw [List.map_nil,List.append_nil]
    exact uploadFiles_keep manifests u moment reached
  | cons f rest ih =>
    have different : manifestKey base ≠ objectKey base f.path := fun same => others f List.mem_cons_self (objectKey_manifest same.symm)
    have fresh := fresh (List.cons_ne_nil f rest)
    rw [List.cons_append,uploadFiles] at reached
    split at reached
    · cases reached
    · rename_i content _
      have absent : ∀ result store, backend.put u.store (objectKey base f.path) content = (result,store) →
          ¬holds store (manifestKey base) data := by
        intro result store same after
        exact fresh (law.put_other different (by rwa [same]))
      split at reached
      · rename_i err store same
        cases List.mem_singleton.mp reached
        exact absurd held (absent _ _ same)
      · rename_i store same
        rcases List.mem_cons.mp reached with rfl | later
        · exact absurd held (absent _ _ same)
        · have done := ih _ (fun g member => others g (List.mem_cons_of_mem f member)) (fun _ => absent _ _ same) later
          rwa [List.append_assoc,List.singleton_append] at done

theorem verifyUpload_done (entries : List BackupFile) (u moment : Uploaded S)
    (reached : moment ∈ (verifyUpload backend base readManifest entries u).moments) : moment.done = u.done := by
  rw [verifyUpload] at reached
  split at reached
  · cases List.mem_singleton.mp reached
    rfl
  · cases List.mem_singleton.mp reached
    rfl
  · dsimp only at reached
    split at reached
    · cases List.mem_singleton.mp reached
      rfl
    · split at reached
      all_goals
        simp only [List.mem_cons,List.not_mem_nil,or_false] at reached
        rcases reached with rfl | rfl
        all_goals rfl

theorem verifyUpload_listed (entries : List BackupFile) (u : Uploaded S) (summary : BackupSummary)
    (ok : (verifyUpload backend base readManifest entries u).result = .ok summary) :
    ∃ moment ∈ (verifyUpload backend base readManifest entries u).moments, ∃ present after,
      backend.list moment.store (base ++ "/") = (.ok present,after) ∧ ∀ f ∈ entries, objectKey base f.path ∈ present := by
  rw [verifyUpload] at ok ⊢
  split at ok
  · cases ok
  · cases ok
  · dsimp only at ok ⊢
    split at ok
    · cases ok
    · split at ok
      · cases ok
      · rename_i present after listed
        refine ⟨_,List.mem_cons_self,present,after,listed,?_⟩
        split at ok
        · rename_i complete
          intro f member
          by_contra absent
          have missing : objectKey base f.path ∈ (entries.map (fun f => objectKey base f.path)).filter (fun key => key ∉ present) :=
            List.mem_filter.mpr ⟨List.mem_map_of_mem member,decide_eq_true absent⟩
          rw [List.isEmpty_iff.mp complete] at missing
          cases missing
        · cases ok

theorem isManifest_iff {f : BackupFile} : f.isManifest = true ↔ f.path = [manifestName] := decide_eq_true_iff

/-- A moment of a backup that holds the manifest: all its files have been put, but for the manifest. -/
theorem backupToStorage_commit (law : StorageLaw backend holds) (tree : List DirEntry) (start : S) (data : FileBytes)
    (fresh : ¬holds start (manifestKey base) data) (moment : Uploaded S)
    (reached : moment ∈ (backupToStorage backend base readManifest tree start).moments)
    (held : holds moment.store (manifestKey base) data) (f : BackupFile) (listed : f ∈ walkDir [] tree)
    (other : f.path ≠ [manifestName]) : f.path ∈ moment.done := by
  have artifact : f ∈ ((walkDir [] tree).insertionSort (fun a b => pathOrder a b = true)).filter (fun f => !f.isManifest) := by
    refine List.mem_filter.mpr ⟨(List.mem_insertionSort _).mpr listed,?_⟩
    rw [Bool.not_eq_true',Bool.eq_false_iff]
    exact fun manifest => other (isManifest_iff.mp manifest)
  have others : ∀ g ∈ ((walkDir [] tree).insertionSort (fun a b => pathOrder a b = true)).filter (fun f => !f.isManifest),
      g.path ≠ [manifestName] := by
    intro g member same
    have not := (List.mem_filter.mp member).2
    rw [isManifest_iff.mpr same] at not
    cases not
  rw [backupToStorage] at reached
  dsimp only at reached
  split at reached
  · have done := uploadFiles_commit law data _ _ _ moment others (fun _ => fresh) reached held
    exact done (List.mem_append_right _ (List.mem_map_of_mem artifact))
  · rename_i u uploaded
    rcases List.mem_append.mp reached with during | verifying
    · have done := uploadFiles_commit law data _ _ _ moment others (fun _ => fresh) during held
      exact done (List.mem_append_right _ (List.mem_map_of_mem artifact))
    · rw [verifyUpload_done _ _ _ verifying,uploadFiles_done _ _ _ uploaded,List.nil_append,List.map_append]
      exact List.mem_append_left _ (List.mem_map_of_mem artifact)

theorem backupToStorage_listed (tree : List DirEntry) (start : S) (summary : BackupSummary)
    (ok : (backupToStorage backend base readManifest tree start).result = .ok summary) :
    ∃ moment ∈ (backupToStorage backend base readManifest tree start).moments, ∃ present after,
      backend.list moment.store (base ++ "/") = (.ok present,after) ∧
        ∀ f ∈ walkDir [] tree, objectKey base f.path ∈ present := by
  rw [backupToStorage] at ok ⊢
  dsimp only at ok ⊢
  split at ok
  · cases ok
  · obtain ⟨moment,reached,present,after,listing,all⟩ := verifyUpload_listed _ _ _ ok
    exact ⟨moment,List.mem_append_right _ reached,present,after,listing,
      fun f member => all f ((List.mem_insertionSort _).mpr member)⟩

/-- The manifest is a commit record, whichever put fails or is lost. -/
theorem manifest_commits (law : StorageLaw backend holds) (tree : List DirEntry) (start : S) :
    (∀ data, ¬holds start (manifestKey base) data →
      ∀ moment ∈ (backupToStorage backend base readManifest tree start).moments,
      holds moment.store (manifestKey base) data →
      ∀ path content, FileBelow tree path content → path ≠ [manifestName] → path ∈ moment.done) ∧
    (∀ summary, (backupToStorage backend base readManifest tree start).result = .ok summary →
      ∃ moment ∈ (backupToStorage backend base readManifest tree start).moments, ∃ present after,
        backend.list moment.store (base ++ "/") = (.ok present,after) ∧
          ∀ path content, FileBelow tree path content → objectKey base path ∈ present) := by
  constructor
  · intro data fresh moment reached held path content present other
    exact backupToStorage_commit law tree start data fresh moment reached held ⟨path,content⟩
      ((mem_backup tree ⟨path,content⟩).mpr present) other
  · intro summary ok
    obtain ⟨moment,reached,present,after,listing,all⟩ := backupToStorage_listed tree start summary ok
    exact ⟨moment,reached,present,after,listing,
      fun path content listed => all ⟨path,content⟩ ((mem_backup tree ⟨path,content⟩).mpr listed)⟩

end

/-- A store in memory. A put of a key that `refused` names fails, and one that `lost` names is lost. -/
def memoryBackend (refused lost : List String) : StorageBackend (List (String × FileBytes)) where
  put s key data :=
    if key ∈ refused then (.error (.storage "refused"),s)
    else if key ∈ lost then (.ok (),s)
    else (.ok (),(key,data) :: s.filter (fun o => o.1 ≠ key))
  get s key := (.ok ((s.find? (fun o => o.1 = key)).map Prod.snd),s)
  list s start := (.ok ((s.map Prod.fst).filter (fun key => start.toList.isPrefixOf key.toList)),s)

theorem memoryBackend_law (refused lost : List String) :
    StorageLaw (memoryBackend refused lost) (fun s key content => (key,content) ∈ s) where
  put s key data other content held := by
    rw [memoryBackend] at held
    dsimp only at held
    split_ifs at held
    · exact Or.inl held
    · exact Or.inl held
    · rcases List.mem_cons.mp held with same | kept
      · exact Or.inr (Prod.mk.inj same)
      · exact Or.inl (List.mem_of_mem_filter kept)
  get _ _ _ _ held := held
  list _ _ _ _ held := held

/-- A nested file has the manifest's name. -/
def nestedBackup : List DirEntry := [.file manifestName (some [1]),.dir [118] [.file manifestName (some [2])]]

theorem manifest_commits_nested :
    (∃ summary,(backupToStorage (memoryBackend [] []) "b" (fun _ => some 1) nestedBackup []).result = .ok summary) ∧
    (∀ data, ¬(manifestKey "b",data) ∈ ([] : List (String × FileBytes)) →
      ∀ moment ∈ (backupToStorage (memoryBackend [] []) "b" (fun _ => some 1) nestedBackup []).moments,
      (manifestKey "b",data) ∈ moment.store →
      ∀ path content, FileBelow nestedBackup path content → path ≠ [manifestName] → path ∈ moment.done) ∧
    (∀ summary, (backupToStorage (memoryBackend [] []) "b" (fun _ => some 1) nestedBackup []).result = .ok summary →
      ∃ moment ∈ (backupToStorage (memoryBackend [] []) "b" (fun _ => some 1) nestedBackup []).moments, ∃ present after,
        (memoryBackend [] []).list moment.store ("b" ++ "/") = (.ok present,after) ∧
          ∀ path content, FileBelow nestedBackup path content → objectKey "b" path ∈ present) :=
  ⟨⟨_,by with_unfolding_all rfl⟩,manifest_commits (memoryBackend_law [] []) nestedBackup []⟩

end Ecphoria
