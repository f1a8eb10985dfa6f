import Ecphoria.Cluster.Unpacking

/-! Packing a directory, and what unpacking it into an empty one brings back. -/
namespace Ecphoria
open Library

/-- What `read_dir` lists, in its order, with the listings of the folders. -/
inductive Directory where
  | empty
  | file (name : String) (content : Bytes) (others : Directory)
  | folder (name : String) (inside others : Directory)

namespace Directory

def names : Directory → List String
  | empty => []
  | file name _ others => name :: others.names
  | folder name _ others => name :: others.names

/-- `walk_dir`: the files below a path, added to those found so far. -/
def walk (path : List String) : Directory → List (List String × Bytes) → List (List String × Bytes)
  | empty,out => out
  | file name content others,out => others.walk path (out ++ [(path ++ [name],content)])
  | folder name inside others,out => others.walk path (inside.walk (path ++ [name]) out)

def files : Directory → List (List String × Bytes)
  | empty => []
  | file name content others => ([name],content) :: others.files
  | folder name inside others => inside.files.map (fun (path,content) => (name :: path,content)) ++ others.files

end Directory

def IsName (name : String) : Prop := name ≠ "" ∧ name ≠ "." ∧ name ≠ ".." ∧ '/' ∉ name.toList

def Directory.Named : Directory → Prop
  | .empty => True
  | .file name _ others => IsName name ∧ name ∉ others.names ∧ others.Named
  | .folder name inside others => IsName name ∧ name ∉ others.names ∧ inside.Named ∧ others.Named

def pathText (names : List String) : String := String.intercalate "/" names

/-- One file of an archive; `as` cuts the lengths to their widths. -/
def packFile (path : List String) (content : Bytes) : Bytes := field 4 (utf8 (pathText path)) ++ field 8 content

def packFiles (dir : List String) (files : List (List String × Bytes)) : Bytes :=
  files.flatMap (fun (path,content) => packFile (path.drop dir.length) content)

/-- `pack_directory`; a buffer that no `Vec` can hold is not built. -/
def packDirectory (dir : List String) (listing : Directory) : Option Slice :=
  if fits : (packFiles dir (listing.walk dir [])).length < 2 ^ 63 then some ⟨packFiles dir (listing.walk dir []),fits⟩
  else none

inductive DiskEntry where
  | directory
  | file (content : Bytes)
deriving DecidableEq

/-- A disk by the resolved paths from the root. -/
abbrev Disk := List String → Option DiskEntry

namespace Disk

/-- Each directory on the way is made unless it is there; a file on the way is in the way. -/
def createDirAll (disk : Disk) (pieces : List String) : Option Disk :=
  let reached := resolve pieces
  if reached.inits.all (fun path => disk path = none || disk path = some .directory) then
    some (fun path => if path <+: reached ∧ disk path = none then some .directory else disk path)
  else none

/-- A file is written into a directory that is there, and not over a directory. -/
def write (disk : Disk) (path : Path) (content : Bytes) : Option Disk :=
  let reached := resolve path.pieces
  if path.asDirectory || disk reached = some .directory || disk reached.dropLast ≠ some .directory then none
  else some (fun other => if other = reached then some (.file content) else disk other)

def fileSystem : FileSystem Disk := ⟨createDirAll,write⟩

/-- The target is there, with nothing in it. -/
structure EmptyAt (disk : Disk) (target : List String) : Prop where
  plain : ".." ∉ target
  there : ∀ path, path <+: target → disk path = some .directory
  clear : ∀ path, path ≠ [] → disk (target ++ path) = none

end Disk

namespace Directory

theorem walk_files (listing : Directory) (path : List String) (out : List (List String × Bytes)) :
    listing.walk path out = out ++ listing.files.map (fun (below,content) => (path ++ below,content)) := by
  induction listing generalizing path out with
  | empty => simp [walk,files]
  | file name content others ih =>
    rw [walk,ih,files,List.map_cons,List.append_assoc]
    rfl
  | folder name inside others first second =>
    rw [walk,first,second,files,List.map_append,List.map_map,List.append_assoc]
    congr 2
    refine List.map_congr_left ?_
    intro found _
    simp

theorem files_names {listing : Directory} (named : listing.Named) {path : List String} {content : Bytes}
    (found : (path,content) ∈ listing.files) :
    (∃ name rest, path = name :: rest ∧ name ∈ listing.names) ∧ ∀ name ∈ path, IsName name := by
  induction listing generalizing path with
  | empty => cases found
  | file name _ others ih =>
    obtain ⟨plain,_,named⟩ := named
    rcases List.mem_cons.mp found with same | later
    · cases same
      exact ⟨⟨name,[],rfl,List.mem_cons_self⟩,by simpa using plain⟩
    · obtain ⟨⟨first,rest,same,among⟩,all⟩ := ih named later
      exact ⟨⟨first,rest,same,List.mem_cons_of_mem name among⟩,all⟩
  | folder name inside others first second =>
    obtain ⟨plain,_,inner,outer⟩ := named
    rcases List.mem_append.mp found with here | later
    · obtain ⟨⟨below,kept⟩,among,same⟩ := List.mem_map.mp here
      cases same
      refine ⟨⟨name,below,rfl,List.mem_cons_self⟩,?_⟩
      intro other listed
      rcases List.mem_cons.mp listed with rfl | deeper
      · exact plain
      · exact (first inner among).2 other deeper
    · obtain ⟨⟨head,rest,same,among⟩,all⟩ := second outer later
      exact ⟨⟨head,rest,same,List.mem_cons_of_mem name among⟩,all⟩

theorem files_apart {listing : Directory} (named : listing.Named) :
    listing.files.Pairwise (fun a b => ¬a.1 <+: b.1 ∧ ¬b.1 <+: a.1) := by
  induction listing with
  | empty => exact .nil
  | file name content others ih =>
    obtain ⟨_,new,named⟩ := named
    refine .cons ?_ (ih named)
    intro other inside
    obtain ⟨⟨first,rest,same,among⟩,_⟩ := files_names named inside
    have apart : name ≠ first := fun equal => new (equal ▸ among)
    rw [same]
    simp [List.cons_prefix_cons,apart,apart.symm]
  | folder name inside others first second =>
    obtain ⟨_,new,inner,outer⟩ := named
    refine List.pairwise_append.mpr ⟨?_,second outer,?_⟩
    · refine List.pairwise_map.mpr ((first inner).imp ?_)
      intro a b apart
      simpa [List.cons_prefix_cons] using apart
    · intro a here b there
      obtain ⟨below,_,rfl⟩ := List.mem_map.mp here
      obtain ⟨⟨head,rest,same,among⟩,_⟩ := files_names outer there
      have apart : name ≠ head := fun equal => new (equal ▸ among)
      rw [same]
      simp [List.cons_prefix_cons,apart,apart.symm]

end Directory

section
variable {path : List String} {target : List String}

private theorem splitOn_pathText (some : path ≠ []) (named : ∀ name ∈ path, IsName name) :
    (pathText path).toList.splitOn '/' = path.map String.toList := by
  rw [pathText,String.toList_intercalate]
  refine List.splitOn_intercalate '/' ?_ (by simpa using some)
  intro chars inside
  obtain ⟨name,listed,rfl⟩ := List.mem_map.mp inside
  exact (named name listed).2.2.2

theorem pieces_pathText (some : path ≠ []) (named : ∀ name ∈ path, IsName name) : pieces (pathText path) = path := by
  rw [pieces,splitOn_pathText some named,List.map_map]
  have same : path.map (String.ofList ∘ String.toList) = path :=
    (List.map_congr_left (fun name _ => String.ofList_toList)).trans (List.map_id path)
  rw [same,List.filter_eq_self]
  intro name inside
  obtain ⟨filled,undotted,_⟩ := named name inside
  simp [filled,undotted]

theorem join_pathText (some : path ≠ []) (named : ∀ name ∈ path, IsName name) :
    Path.join target (pathText path) = ⟨target ++ path,false⟩ := by
  have relative : isAbsolute (pathText path) = false := by
    obtain ⟨name,rest,rfl⟩ := List.exists_cons_of_ne_nil some
    obtain ⟨filled,_⟩ := named name List.mem_cons_self
    have cut := splitOn_pathText some named
    cases chars : (pathText (name :: rest)).toList with
    | nil => simp [isAbsolute,chars]
    | cons c others =>
      rw [isAbsolute,chars,List.head?_cons]
      refine decide_eq_false ?_
      intro slash
      rw [Option.some.inj slash] at chars
      rw [chars,List.splitOn_cons_eq_if_modifyHead,if_pos (by rfl),List.map_cons] at cut
      exact filled (String.toList_inj.mp (List.cons.inj cut).1.symm)
  have last : ∀ chars, ((pathText path).toList.splitOn '/').getLast? = .some chars → chars ≠ [] ∧ chars ≠ ['.'] := by
    intro chars found
    rw [splitOn_pathText some named] at found
    obtain ⟨name,listed,rfl⟩ := List.mem_map.mp (List.mem_of_getLast? found)
    obtain ⟨filled,undotted,_⟩ := named name listed
    refine ⟨fun none => filled (String.toList_inj.mp none),fun dot => undotted (String.toList_inj.mp dot)⟩
  have plain : (Path.join target (pathText path)).asDirectory = false := by
    rw [Path.join]
    simp only [Bool.or_eq_false_iff,decide_eq_false_iff_not]
    exact ⟨fun found => (last _ found).1 rfl,fun found => (last _ found).2 rfl⟩
  have whole : (Path.join target (pathText path)).pieces = target ++ path := by
    simp [Path.join,relative,pieces_pathText some named]
  calc Path.join target (pathText path)
      = ⟨(Path.join target (pathText path)).pieces,(Path.join target (pathText path)).asDirectory⟩ := rfl
    _ = ⟨target ++ path,false⟩ := by rw [whole,plain]

theorem resolve_plain (plain : ".." ∉ path) : resolve path = path := by
  induction path using List.reverseRecOn with
  | nil => rfl
  | append_singleton front last ih =>
    have first := ih (fun inside => plain (List.mem_append_left _ inside))
    have apart : last ≠ ".." := fun same => plain (List.mem_append_right _ (List.mem_singleton.mpr same.symm))
    rw [resolve,List.foldl_append]
    rw [resolve] at first
    rw [first]
    simp [apart]

end

namespace Disk

/-- The files are on the disk below the target, in directories that lead to them. -/
structure Filled (disk : Disk) (target : List String) (done : List (List String × Bytes)) : Prop where
  there : ∀ path, path <+: target → disk path = some .directory
  files : ∀ path content, disk (target ++ path) = some (.file content) ↔ (path,content) ∈ done
  leads : ∀ path, path ≠ [] → disk (target ++ path) = some .directory → ∃ file ∈ done, path <+: file.1

theorem EmptyAt.filled {disk : Disk} {target : List String} (empty : disk.EmptyAt target) : disk.Filled target [] := by
  refine ⟨empty.there,?_,?_⟩
  · intro path content
    refine iff_of_false ?_ List.not_mem_nil
    intro found
    by_cases start : path = []
    · rw [start,List.append_nil,empty.there _ (List.prefix_refl _)] at found
      cases found
    · rw [empty.clear path start] at found
      cases found
  · intro path some found
    rw [empty.clear path some] at found
    cases found

section
variable {disk : Disk} {target : List String} {done : List (List String × Bytes)} {path : List String}

def withDirectories (disk : Disk) (pieces : List String) : Disk :=
  fun path => if path <+: pieces ∧ disk path = none then some .directory else disk path

def withFile (disk : Disk) (path : List String) (content : Bytes) : Disk :=
  fun other => if other = path then some (.file content) else disk other

theorem withDirectories_of_not {pieces other : List String} (off : ¬other <+: pieces ∨ disk other ≠ none) :
    disk.withDirectories pieces other = disk other :=
  if_neg (fun given => off.elim (fun away => away given.1) (fun here => here given.2))

theorem withDirectories_last {pieces : List String} (clear : disk pieces = none ∨ disk pieces = some .directory) :
    disk.withDirectories pieces pieces = some .directory := by
  rcases clear with none | directory
  · exact if_pos ⟨List.prefix_refl _,none⟩
  · rw [withDirectories_of_not (Or.inr (by rw [directory]; nofun)),directory]

theorem withDirectories_file {pieces other : List String} {content : Bytes} :
    disk.withDirectories pieces other = some (.file content) ↔ disk other = some (.file content) := by
  unfold withDirectories
  split
  next fresh =>
    rw [fresh.2]
    exact iff_of_false nofun nofun
  next => exact Iff.rfl

theorem createDirAll_clear {pieces : List String} (plain : ".." ∉ pieces)
    (clear : ∀ above, above <+: pieces → disk above = none ∨ disk above = some .directory) :
    disk.createDirAll pieces = some (disk.withDirectories pieces) := by
  rw [createDirAll,resolve_plain plain,if_pos]
  · rfl
  rw [List.all_eq_true]
  intro above inside
  simpa using clear above ((List.mem_inits _ _).mp inside)

section
variable {front : List String} {last : String}

private theorem below_target : (target ++ (front ++ [last])).dropLast = target ++ front := by
  rw [← List.append_assoc,List.dropLast_concat]

private theorem not_above : ¬target ++ (front ++ [last]) <+: target ++ front := by
  intro inside
  have size := inside.length_le
  simp at size

theorem Filled.way_clear (filled : disk.Filled target done) (apart : ∀ file ∈ done, ¬file.1 <+: front ++ [last])
    {above : List String} (on_way : above <+: target ++ front) : disk above = none ∨ disk above = some .directory := by
  rcases List.prefix_or_prefix_of_prefix on_way (List.prefix_append target front) with early | late
  · exact Or.inr (filled.there above early)
  · obtain ⟨rest,rfl⟩ := late
    cases found : disk (target ++ rest) with
    | none => exact Or.inl rfl
    | some node =>
      cases node with
      | directory => exact Or.inr rfl
      | file other =>
        have listed := (filled.files rest other).mp found
        refine absurd ?_ (apart _ listed)
        exact ((List.prefix_append_right_inj target).mp on_way).trans (List.prefix_append front [last])

theorem writeFile_clear (plain : ".." ∉ target) (named : ∀ name ∈ front ++ [last], IsName name)
    (clear : ∀ above, above <+: target ++ front → disk above = none ∨ disk above = some .directory)
    (unused : disk (target ++ (front ++ [last])) ≠ some .directory) (content : Bytes) :
    writeFile fileSystem target disk (pathText (front ++ [last])) content =
      ⟨(disk.withDirectories (target ++ front)).withFile (target ++ (front ++ [last])) content,
        [.createDirAll (target ++ front),.write ⟨target ++ (front ++ [last]),false⟩],.ok⟩ := by
  have whole_plain : ".." ∉ target ++ (front ++ [last]) := by
    intro inside
    rcases List.mem_append.mp inside with above | below
    · exact plain above
    · exact (named _ below).2.2.1 rfl
  have parent_plain : ".." ∉ target ++ front := by
    intro inside
    exact whole_plain (by rw [← List.append_assoc]; exact List.mem_append_left _ inside)
  have above : Path.parent ⟨target ++ (front ++ [last]),false⟩ = some (target ++ front) := by
    rw [Path.parent,if_neg (by simp),below_target]
  have makes : fileSystem.createDirAll disk (target ++ front) = some (disk.withDirectories (target ++ front)) :=
    createDirAll_clear parent_plain clear
  have written : fileSystem.write (disk.withDirectories (target ++ front)) ⟨target ++ (front ++ [last]),false⟩ content =
      some ((disk.withDirectories (target ++ front)).withFile (target ++ (front ++ [last])) content) := by
    change write _ _ content = _
    rw [write,resolve_plain whole_plain,below_target]
    have parent := withDirectories_last (clear _ (List.prefix_refl _))
    have still : disk.withDirectories (target ++ front) (target ++ (front ++ [last])) = disk (target ++ (front ++ [last])) :=
      withDirectories_of_not (Or.inl not_above)
    rw [if_neg (by simp [parent,still,unused])]
    rfl
  simp only [writeFile,join_pathText (List.append_ne_nil_of_right_ne_nil front (List.cons_ne_nil last [])) named,above,makes,
    written]

theorem Filled.withFile (filled : disk.Filled target done) (apart : ∀ file ∈ done, ¬front ++ [last] <+: file.1)
    (content : Bytes) : ((disk.withDirectories (target ++ front)).withFile (target ++ (front ++ [last])) content).Filled
      target (done ++ [(front ++ [last],content)]) := by
  refine ⟨?_,?_,?_⟩
  · intro above on_way
    have other : above ≠ target ++ (front ++ [last]) := by
      rintro rfl
      have size := on_way.length_le
      simp at size
    rw [Disk.withFile,if_neg other,withDirectories_of_not (Or.inr (by rw [filled.there above on_way]; nofun)),
      filled.there above on_way]
  · intro below other
    by_cases here : below = front ++ [last]
    · rw [Disk.withFile,here,if_pos rfl,List.mem_append,List.mem_singleton]
      constructor
      · intro same
        cases same
        exact Or.inr rfl
      · rintro (old | new)
        · exact absurd (List.prefix_refl _) (apart _ old)
        · cases new
          rfl
    · rw [Disk.withFile,if_neg (fun same => here (List.append_cancel_left same)),withDirectories_file,
        filled.files below other,List.mem_append,List.mem_singleton]
      exact (or_iff_left (fun same => here (Prod.ext_iff.mp same).1)).symm
  · intro below some_below found
    by_cases here : below = front ++ [last]
    · rw [Disk.withFile,here,if_pos rfl] at found
      cases found
    · rw [Disk.withFile,if_neg (fun same => here (List.append_cancel_left same)),withDirectories] at found
      split at found
      next fresh =>
        refine ⟨_,List.mem_append_right _ (List.mem_singleton_self _),?_⟩
        exact ((List.prefix_append_right_inj target).mp fresh.1).trans (List.prefix_append front [last])
      next =>
        obtain ⟨file,listed,leads⟩ := filled.leads below some_below found
        exact ⟨file,List.mem_append_left _ listed,leads⟩

end

theorem Filled.writes (filled : disk.Filled target done) (plain : ".." ∉ target) (some_name : path ≠ [])
    (named : ∀ name ∈ path, IsName name) (apart : ∀ file ∈ done, ¬path <+: file.1 ∧ ¬file.1 <+: path) (content : Bytes) :
    (writeFile fileSystem target disk (pathText path) content).exit = .ok ∧
      (writeFile fileSystem target disk (pathText path) content).disk.Filled target (done ++ [(path,content)]) := by
  obtain ⟨front,last,rfl⟩ : ∃ front last, path = front ++ [last] :=
    ⟨path.dropLast,path.getLast some_name,(List.dropLast_append_getLast some_name).symm⟩
  have unused : disk (target ++ (front ++ [last])) ≠ some .directory := by
    intro found
    obtain ⟨file,listed,below⟩ := filled.leads _ some_name found
    exact (apart file listed).1 below
  have clear {above : List String} (on_way : above <+: target ++ front) : disk above = none ∨ disk above = some .directory :=
    filled.way_clear (fun file listed => (apart file listed).2) on_way
  rw [writeFile_clear plain named (fun _ on_way => clear on_way) unused]
  exact ⟨rfl,filled.withFile (fun file listed => (apart file listed).1) content⟩

end

end Disk

theorem unpackFrom_files {data : Bytes} (bounded : data.length < 2 ^ 63) {target : List String} (plain : ".." ∉ target)
    {files done : List (List String × Bytes)} {cursor : Nat} {disk : Disk} (calls : List DiskCall)
    (rest : data.drop cursor = files.flatMap (fun (path,content) => packFile path content))
    (named : ∀ file ∈ files, file.1 ≠ [] ∧ ∀ name ∈ file.1, IsName name)
    (short : ∀ file ∈ files, (utf8 (pathText file.1)).length < 2 ^ 32)
    (apart : (done ++ files).Pairwise (fun a b => ¬a.1 <+: b.1 ∧ ¬b.1 <+: a.1)) (filled : disk.Filled target done) :
    (unpackFrom Disk.fileSystem target data cursor disk calls).exit = .ok ∧
      (unpackFrom Disk.fileSystem target data cursor disk calls).disk.Filled target (done ++ files) := by
  induction files generalizing cursor disk calls done with
  | nil =>
    rw [unpackFrom_end rest,List.append_nil]
    exact ⟨rfl,filled⟩
  | cons file files ih =>
    obtain ⟨path,content⟩ := file
    obtain ⟨some_name,names⟩ := named _ List.mem_cons_self
    have size := congrArg List.length rest
    rw [List.length_drop,List.flatMap_cons,List.length_append] at size
    dsimp only at size
    rw [packFile,List.length_append,length_field,length_field] at size
    let entry : ArchiveEntry := ⟨pathText path,content,short _ List.mem_cons_self,by omega⟩
    have whole : data.drop cursor = entry.encode ++ files.flatMap (fun (path,content) => packFile path content) := rest
    have others : ∀ file ∈ done, ¬path <+: file.1 ∧ ¬file.1 <+: path := by
      intro file listed
      exact ((List.pairwise_append.mp apart).2.2 file listed _ List.mem_cons_self).symm
    obtain ⟨ok,next⟩ := filled.writes plain some_name names others content
    rw [unpackFrom_entry bounded whole,if_pos ok]
    rw [List.append_cons]
    refine ih _ (drop_of_drop whole rfl) (fun other inside => named other (List.mem_cons_of_mem _ inside))
      (fun other inside => short other (List.mem_cons_of_mem _ inside)) ?_ next
    rwa [← List.append_cons]

/-- Unpacking what a directory was packed into fills an empty target with its files and no others. -/
theorem unpack_pack {listing : Directory} (named : listing.Named) {dir : List String} {data : Slice}
    (packed : packDirectory dir listing = some data)
    (short : ∀ file ∈ listing.files, (utf8 (pathText file.1)).length < 2 ^ 32) {disk : Disk} {target : List String}
    (empty : disk.EmptyAt target) : (unpackDirectory Disk.fileSystem target data disk).exit = .ok ∧
      ∀ path content, (unpackDirectory Disk.fileSystem target data disk).disk (target ++ path) = some (.file content) ↔
        (path,content) ∈ listing.files := by
  have whole : data.bytes = listing.files.flatMap (fun (path,content) => packFile path content) := by
    unfold packDirectory at packed
    split at packed
    next =>
      cases packed
      change packFiles dir (listing.walk dir []) = _
      rw [packFiles,listing.walk_files,List.nil_append,List.flatMap_map]
      refine List.flatMap_congr ?_
      intro file _
      simp
    next => cases packed
  have made : Disk.fileSystem.createDirAll disk target = some disk := by
    refine (Disk.createDirAll_clear empty.plain (fun above on_way => Or.inr (empty.there above on_way))).trans ?_
    refine congrArg some (funext (fun other => if_neg ?_))
    rintro ⟨on_way,none⟩
    rw [empty.there other on_way] at none
    cases none
  have names (file : List String × Bytes) (inside : file ∈ listing.files) : file.1 ≠ [] ∧
    ∀ name ∈ file.1, IsName name := by
    obtain ⟨⟨first,rest,same,_⟩,all⟩ := Directory.files_names named inside
    exact ⟨by rw [same]; nofun,all⟩
  have unpacked : unpackDirectory Disk.fileSystem target data disk =
      unpackFrom Disk.fileSystem target data.bytes 0 disk [.createDirAll target] := by
    simp only [unpackDirectory,made]
  obtain ⟨ok,filled⟩ := @unpackFrom_files data.bytes data.fits target empty.plain listing.files [] 0 disk
    [.createDirAll target] whole names short (Directory.files_apart named) empty.filled
  rw [unpacked]
  exact ⟨ok,filled.files⟩

/-- A data file beside a folder with an empty one. -/
def dataDirectory : Directory := .file "data" [10,0] (.folder "wal" (.file "00" [] .empty) .empty)

def emptySnapshot : Disk := fun path => if path = [] ∨ path = ["snapshot"] then some .directory else none

theorem emptySnapshot_empty : emptySnapshot.EmptyAt ["snapshot"] := by
  refine ⟨by decide,?_,?_⟩
  · intro path on_way
    have cases : path = [] ∨ path = ["snapshot"] := by
      rcases List.prefix_concat_iff.mp (show path <+: [] ++ ["snapshot"] from on_way) with whole | start
      · exact Or.inr whole
      · exact Or.inl (List.prefix_nil.mp start)
    exact if_pos cases
  · intro path some
    refine if_neg ?_
    simp [some]

theorem dataDirectory_unpacked : ∃ data, packDirectory ["data"] dataDirectory = some data ∧
    (unpackDirectory Disk.fileSystem ["snapshot"] data emptySnapshot).exit = .ok ∧
    (unpackDirectory Disk.fileSystem ["snapshot"] data emptySnapshot).disk ["snapshot","wal","00"] = some (.file []) := by
  have named : dataDirectory.Named := by
    simp [dataDirectory,Directory.Named,Directory.names,IsName]
  have short : ∀ file ∈ dataDirectory.files, (utf8 (pathText file.1)).length < 2 ^ 32 := by decide
  have packed : packDirectory ["data"] dataDirectory =
    some ⟨packFiles ["data"] (dataDirectory.walk ["data"] []),by decide⟩ :=
    dif_pos (by decide)
  obtain ⟨ok,files⟩ := unpack_pack named packed short emptySnapshot_empty
  exact ⟨_,packed,ok,(files ["wal","00"] []).mpr (by decide)⟩

end Ecphoria
