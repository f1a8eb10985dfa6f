import Ecphoria.Cluster.Archive
import Mathlib.Data.Set.Finite.Basic

/-! What the unpacker takes for an archive. It is sound on an input when, on any file system,
it does not panic, stays in its directory, and succeeds only on a sequence of whole entries. -/
namespace Ecphoria
open Library

/-- The names that are left of a path from the root, `..` taken as one step up. -/
def resolve (pieces : List String) : List String :=
  pieces.foldl (fun reached piece => if piece = ".." then reached.dropLast else reached ++ [piece]) []

/-- A directory is made on the way to the target or below it, a file is written below it. -/
def DiskCall.Below (target : List String) : DiskCall → Prop
  | .createDirAll pieces => resolve target <+: resolve pieces ∨ resolve pieces <+: resolve target
  | .write path => resolve target <+: resolve path.pieces

/-- A relative path without `..`. -/
def Safe (path : String) : Prop := isAbsolute path = false ∧ ".." ∉ pieces path

/-- The input is a sequence of whole entries with safe paths. -/
def IsArchive (data : Bytes) : Prop :=
  ∃ entries : List ArchiveEntry, (∀ entry ∈ entries, Safe entry.path) ∧ data = entries.flatMap ArchiveEntry.encode

structure UnpacksSoundly (data : Slice) : Prop where
  quiet : ∀ {σ : Type} (fs : FileSystem σ) (target : List String) (disk : σ),
    (unpackDirectory fs target data disk).exit ≠ .panicked
  below : ∀ {σ : Type} (fs : FileSystem σ) (target : List String) (disk : σ),
    ∀ call ∈ (unpackDirectory fs target data disk).calls, call.Below target
  whole : ∀ {σ : Type} (fs : FileSystem σ) (target : List String) (disk : σ),
    (unpackDirectory fs target data disk).exit = .ok → IsArchive data.bytes

def staysFrom : Nat → List String → Bool
  | _,[] => true
  | 0,piece :: rest => if piece = ".." then false else staysFrom 1 rest
  | depth + 1,piece :: rest => if piece = ".." then staysFrom depth rest else staysFrom (depth + 2) rest

/-- A relative path that does not lead out of the directory it is joined to. -/
def StaysInside (path : String) : Prop := isAbsolute path = false ∧ staysFrom 0 (pieces path) = true

section
variable {base below names : List String}

private def climb (reached : List String) (piece : String) : List String :=
  if piece = ".." then reached.dropLast else reached ++ [piece]

private theorem resolve_append (first second : List String) :
    resolve (first ++ second) = second.foldl climb (resolve first) := List.foldl_append

theorem staysFrom_within (stays : staysFrom below.length names = true) : base <+: names.foldl climb (base ++ below) := by
  induction names generalizing below with
  | nil => exact List.prefix_append base below
  | cons name names ih =>
    rw [List.foldl_cons]
    by_cases up : name = ".."
    · cases below using List.reverseRecOn with
      | nil => simp [staysFrom,up] at stays
      | append_singleton below last =>
        have step : climb (base ++ (below ++ [last])) name = base ++ below := by
          rw [climb,if_pos up,← List.append_assoc,List.dropLast_concat]
        rw [step]
        refine ih ?_
        rw [List.length_append] at stays
        simpa [staysFrom,up] using stays
    · have step : climb (base ++ below) name = base ++ (below ++ [name]) := by
        rw [climb,if_neg up,List.append_assoc]
      rw [step]
      refine ih ?_
      rw [List.length_append]
      cases size : below.length with
      | zero =>
        rw [size] at stays
        simpa [staysFrom,up] using stays
      | succ depth =>
        rw [size] at stays
        simpa [staysFrom,up] using stays

private theorem not_mem_climbs {fresh : String} {reached : List String} (absent : fresh ∉ reached) (new : fresh ∉ names) :
    fresh ∉ names.foldl climb reached := by
  induction names generalizing reached with
  | nil => exact absent
  | cons name names ih =>
    obtain ⟨apart,later⟩ := not_or.mp (mt List.mem_cons.mpr new)
    refine ih ?_ later
    unfold climb
    split
    next => exact fun inside => absent (List.mem_of_mem_dropLast inside)
    next =>
      intro inside
      rcases List.mem_append.mp inside with old | last
      · exact absent old
      · exact apart (List.mem_singleton.mp last)

theorem not_mem_of_leaves {fresh : String} (new : fresh ∉ names) (plain : fresh ∉ below)
    (leaves : staysFrom below.length names = false) : fresh ∉ names.foldl climb ([fresh] ++ below) := by
  induction names generalizing below with
  | nil => cases leaves
  | cons name names ih =>
    obtain ⟨apart,later⟩ := not_or.mp (mt List.mem_cons.mpr new)
    rw [List.foldl_cons]
    by_cases up : name = ".."
    · cases below using List.reverseRecOn with
      | nil =>
        refine not_mem_climbs ?_ later
        simp [climb,up]
      | append_singleton below last =>
        have step : climb ([fresh] ++ (below ++ [last])) name = [fresh] ++ below := by
          rw [climb,if_pos up,← List.append_assoc,List.dropLast_concat]
        rw [step]
        refine ih later (fun inside => plain (List.mem_append_left _ inside)) ?_
        rw [List.length_append] at leaves
        simpa [staysFrom,up] using leaves
    · have step : climb ([fresh] ++ below) name = [fresh] ++ (below ++ [name]) := by
        rw [climb,if_neg up,List.append_assoc]
      rw [step]
      refine ih later ?_ ?_
      · simp [plain,apart]
      · rw [List.length_append]
        cases size : below.length with
        | zero =>
          rw [size] at leaves
          simpa [staysFrom,up] using leaves
        | succ depth =>
          rw [size] at leaves
          simpa [staysFrom,up] using leaves

end

section
variable {target : List String} {path : String}

theorem resolve_joined (stays : StaysInside path) : resolve target <+: resolve (Path.join target path).pieces := by
  have pieces : (Path.join target path).pieces = target ++ Ecphoria.pieces path := by simp [Path.join,stays.1]
  rw [pieces,resolve_append]
  have within := @staysFrom_within (resolve target) [] (Ecphoria.pieces path) stays.2
  rwa [List.append_nil] at within

private theorem parent_comparable {pieces : List String} (inside : resolve target <+: resolve pieces) :
    resolve target <+: resolve pieces.dropLast ∨ resolve pieces.dropLast <+: resolve target := by
  cases pieces using List.reverseRecOn with
  | nil => exact Or.inl inside
  | append_singleton front last =>
    rw [List.dropLast_concat]
    rw [resolve_append] at inside
    have step : [last].foldl climb (resolve front) = climb (resolve front) last := rfl
    rw [step,climb] at inside
    split at inside
    next => exact Or.inl (inside.trans (List.dropLast_prefix _))
    next =>
      rcases List.prefix_or_prefix_of_prefix inside (List.prefix_append (resolve front) [last]) with before | after
      · exact Or.inl before
      · exact Or.inr after

variable {σ : Type} {fs : FileSystem σ} {disk : σ} {content : Bytes}

theorem writeFile_exit : (writeFile fs target disk path content).exit ≠ .panicked := by
  unfold writeFile
  dsimp only
  split
  next => split <;> nofun
  next =>
    split
    next => nofun
    next => split <;> nofun

theorem writeFile_calls : ∀ call ∈ (writeFile fs target disk path content).calls,
    call = .write (Path.join target path) ∨ call = .createDirAll (Path.join target path).pieces.dropLast := by
  have parent {at_parent : List String} (given : (Path.join target path).parent = some at_parent) :
      at_parent = (Path.join target path).pieces.dropLast := by
    unfold Path.parent at given
    split at given
    next => cases given
    next =>
      cases given
      rfl
  unfold writeFile
  dsimp only
  split
  next => split <;> simp
  next given =>
    rw [parent given]
    split
    next => simp
    next => split <;> simp [or_comm]

theorem writeFile_below (stays : StaysInside path) :
    ∀ call ∈ (writeFile fs target disk path content).calls, call.Below target := by
  intro call made
  have inside := @resolve_joined target path stays
  rcases writeFile_calls call made with rfl | rfl
  · exact inside
  · exact parent_comparable inside

end

def FileSystem.accepting : FileSystem Unit := ⟨fun _ _ => some (),fun _ _ _ => some ()⟩

section
variable {σ : Type} {fs : FileSystem σ} {target : List String} {data : Bytes} {cursor : Nat}

theorem writeFile_accepted (path : String) (content : Bytes) : (writeFile .accepting target () path content).exit = .ok ∧
    .write (Path.join target path) ∈ (writeFile .accepting target () path content).calls := by
  unfold writeFile
  dsimp only
  split
  next => exact ⟨rfl,List.mem_singleton_self _⟩
  next => exact ⟨rfl,List.mem_cons_of_mem _ (List.mem_singleton_self _)⟩

theorem calls_grow (bounded : data.length < 2 ^ 63) (disk : σ) (calls : List DiskCall) :
    calls ⊆ (unpackFrom fs target data cursor disk calls).calls := by
  induction size : data.length - cursor using Nat.strong_induction_on generalizing cursor disk calls with
  | h size ih =>
    rcases unpackFrom_cases fs target bounded cursor disk calls with ⟨exit,ends,_⟩ | ⟨entry,tail,whole⟩
    · rw [ends]
      exact List.Subset.refl _
    · have length := congrArg List.length whole
      rw [List.length_drop,List.length_append] at length
      have some := entry.encode_pos
      rw [unpackFrom_entry bounded whole]
      split
      next => exact List.Subset.trans (List.subset_append_left _ _) (ih _ (by omega) _ _ rfl)
      next => exact List.subset_append_left _ _

/-- On whole entries that stay inside, the unpacker stays inside too, and it succeeds only when nothing is left. -/
theorem unpackFrom_stays {entries : List ArchiveEntry} {tail : Bytes} (bounded : data.length < 2 ^ 63)
    (rest : data.drop cursor = entries.flatMap ArchiveEntry.encode ++ tail) (ending : tail = [] ∨ BadPath tail)
    (stays : ∀ entry ∈ entries, StaysInside entry.path) (disk : σ) {calls : List DiskCall}
    (below : ∀ call ∈ calls, call.Below target) :
    (unpackFrom fs target data cursor disk calls).exit ≠ .panicked ∧
      (∀ call ∈ (unpackFrom fs target data cursor disk calls).calls, call.Below target) ∧
      ((unpackFrom fs target data cursor disk calls).exit = .ok → tail = []) := by
  induction entries generalizing cursor disk calls with
  | nil =>
    rcases ending with rfl | bad
    · rw [unpackFrom_end rest]
      exact ⟨nofun,below,fun _ => rfl⟩
    · rw [unpackFrom_badPath (by rw [rest]; exact bad)]
      exact ⟨nofun,below,nofun⟩
  | cons entry entries ih =>
    have whole : data.drop cursor = entry.encode ++ (entries.flatMap ArchiveEntry.encode ++ tail) := by
      rw [rest,List.flatMap_cons,List.append_assoc]
    rw [unpackFrom_entry bounded whole]
    have made : ∀ call ∈ calls ++ (writeFile fs target disk entry.path entry.content).calls, call.Below target := by
      intro call inside
      rcases List.mem_append.mp inside with old | new
      · exact below call old
      · exact writeFile_below (stays entry List.mem_cons_self) call new
    split
    next =>
      exact ih (drop_of_drop whole rfl) (fun other inside => stays other (List.mem_cons_of_mem entry inside)) _ made
    next refused => exact ⟨writeFile_exit,made,fun ok => absurd ok refused⟩

theorem unpackFrom_splits (bounded : data.length < 2 ^ 63) (calls : List DiskCall) :
    ∃ entries : List ArchiveEntry, ∃ tail,
      data.drop cursor = entries.flatMap ArchiveEntry.encode ++ tail ∧
      (∀ message, (unpackFrom .accepting target data cursor () calls).exit = .error message → BadPath tail) := by
  induction size : data.length - cursor using Nat.strong_induction_on generalizing cursor calls with
  | h size ih =>
    rcases unpackFrom_cases .accepting target bounded cursor () calls with ⟨exit,ends,bad⟩ | ⟨entry,tail,whole⟩
    · refine ⟨[],data.drop cursor,rfl,?_⟩
      rw [ends]
      exact bad
    · have length := congrArg List.length whole
      rw [List.length_drop,List.length_append] at length
      have some := entry.encode_pos
      obtain ⟨ok,_⟩ := @writeFile_accepted target entry.path entry.content
      obtain ⟨entries,last,rest,bad⟩ := @ih _ (by omega) (cursor + entry.encode.length)
        (calls ++ (writeFile .accepting target () entry.path entry.content).calls) rfl
      refine ⟨entry :: entries,last,?_,?_⟩
      · rw [whole,← drop_of_drop whole rfl,rest,List.flatMap_cons,List.append_assoc]
      · rw [unpackFrom_entry bounded whole,if_pos ok]
        exact bad

theorem writes_of_entries {entries : List ArchiveEntry} {tail : Bytes} (bounded : data.length < 2 ^ 63)
    (rest : data.drop cursor = entries.flatMap ArchiveEntry.encode ++ tail) (calls : List DiskCall) :
    ∀ entry ∈ entries, .write (Path.join target entry.path) ∈
    (unpackFrom .accepting target data cursor () calls).calls := by
  induction entries generalizing cursor calls with
  | nil => exact fun _ none => absurd none List.not_mem_nil
  | cons entry entries ih =>
    have whole : data.drop cursor = entry.encode ++ (entries.flatMap ArchiveEntry.encode ++ tail) := by
      rw [rest,List.flatMap_cons,List.append_assoc]
    obtain ⟨ok,written⟩ := @writeFile_accepted target entry.path entry.content
    rw [unpackFrom_entry bounded whole,if_pos ok]
    intro other inside
    rcases List.mem_cons.mp inside with rfl | later
    · exact calls_grow bounded _ _ (List.mem_append_right _ written)
    · exact ih (drop_of_drop whole rfl) _ other later

end

theorem Safe.stays {path : String} (safe : Safe path) : StaysInside path := by
  refine ⟨safe.1,?_⟩
  have down (names : List String) (plain : ".." ∉ names) (depth : Nat) : staysFrom depth names = true := by
    induction names generalizing depth with
    | nil => cases depth <;> rfl
    | cons name names ih =>
      obtain ⟨apart,later⟩ := not_or.mp (mt List.mem_cons.mpr plain)
      have name_plain : name ≠ ".." := Ne.symm apart
      cases depth <;> simp [staysFrom,name_plain,ih later]
  exact down _ safe.2 0

theorem stays_of_below {path : String} (below : ∀ target, (DiskCall.write (Path.join target path)).Below target) :
    StaysInside path := by
  obtain ⟨fresh,new⟩ := Infinite.exists_notMem_finset (insert ".." (pieces path).toFinset)
  rw [Finset.mem_insert,List.mem_toFinset,not_or] at new
  obtain ⟨named,absent⟩ := new
  have single : resolve [fresh] = [fresh] := by simp [resolve,named]
  have inside := below [fresh]
  rw [DiskCall.Below,single] at inside
  have first : fresh ∈ resolve (Path.join [fresh] path).pieces := inside.subset (List.mem_singleton_self fresh)
  have relative : isAbsolute path = false := by
    by_contra absolute
    rw [Bool.not_eq_false] at absolute
    have whole : (Path.join [fresh] path).pieces = pieces path := by simp [Path.join,absolute]
    rw [whole] at first
    exact not_mem_climbs List.not_mem_nil absent first
  refine ⟨relative,?_⟩
  by_contra leaves
  rw [Bool.not_eq_true] at leaves
  have whole : (Path.join [fresh] path).pieces = [fresh] ++ pieces path := by simp [Path.join,relative]
  rw [whole,resolve_append,single] at first
  exact @not_mem_of_leaves [] (pieces path) fresh absent List.not_mem_nil leaves first

/-- The unpacker is sound on an input exactly when that is a sequence of whole entries with safe paths, or whole entries
that stay inside come before a path that is no UTF-8. -/
theorem unpacks_soundly_iff (data : Slice) : UnpacksSoundly data ↔ IsArchive data.bytes ∨
    ∃ entries : List ArchiveEntry, ∃ tail, data.bytes = entries.flatMap ArchiveEntry.encode ++ tail ∧
      (∀ entry ∈ entries, StaysInside entry.path) ∧ BadPath tail := by
  constructor
  · intro sound
    obtain ⟨entries,tail,rest,bad⟩ := @unpackFrom_splits [] data.bytes 0 data.fits [.createDirAll []]
    cases exit : (unpackDirectory .accepting [] data ()).exit with
    | ok => exact Or.inl (sound.whole _ _ _ exit)
    | panicked => exact absurd exit (sound.quiet _ _ _)
    | error message =>
      refine Or.inr ⟨entries,tail,rest,?_,bad message exit⟩
      intro entry inside
      refine stays_of_below (fun target => sound.below .accepting target () _ ?_)
      exact writes_of_entries data.fits rest _ entry inside
  · intro given
    have split : ∃ entries : List ArchiveEntry, ∃ tail, data.bytes.drop 0 = entries.flatMap ArchiveEntry.encode ++ tail ∧
        (∀ entry ∈ entries, StaysInside entry.path) ∧ (tail = [] ∨ BadPath tail) ∧
          (tail = [] → IsArchive data.bytes) := by
      rcases given with archive | ⟨entries,tail,whole,stays,bad⟩
      · obtain ⟨entries,safe,whole⟩ := archive
        exact ⟨entries,[],by rw [List.append_nil]; exact whole,fun entry inside => (safe entry inside).stays,Or.inl rfl,
          fun _ => ⟨entries,safe,whole⟩⟩
      · refine ⟨entries,tail,whole,stays,Or.inr bad,?_⟩
        rintro rfl
        obtain ⟨path,rest,empty,_⟩ := bad
        have size := congrArg List.length empty
        rw [List.length_append,length_field,List.length_nil] at size
        omega
    obtain ⟨entries,tail,whole,stays,ending,archive⟩ := split
    have start (target : List String) : ∀ call ∈ [DiskCall.createDirAll target], call.Below target := by
      intro call made
      rw [List.mem_singleton.mp made]
      exact Or.inl (List.prefix_refl _)
    have all {σ : Type} (fs : FileSystem σ) (target : List String) (disk : σ) :
        (unpackDirectory fs target data disk).exit ≠ .panicked ∧
          (∀ call ∈ (unpackDirectory fs target data disk).calls, call.Below target) ∧
          ((unpackDirectory fs target data disk).exit = .ok → IsArchive data.bytes) := by
      unfold unpackDirectory
      split
      next => exact ⟨nofun,start target,nofun⟩
      next grown _ =>
        obtain ⟨quiet,below,finished⟩ :=
          @unpackFrom_stays _ fs _ _ _ _ _ data.fits whole ending stays grown _ (start target)
        exact ⟨quiet,below,fun ok => archive (finished ok)⟩
    exact ⟨fun fs target disk => (all fs target disk).1,fun fs target disk => (all fs target disk).2.1,
      fun fs target disk => (all fs target disk).2.2⟩

def cutArchive : Slice := ⟨(field 4 (utf8 "a") ++ field 8 [7]).dropLast,by decide +kernel⟩

/-- An archive without its last byte is unpacked with success. -/
theorem cut_archive_accepted : ¬∀ data : Slice, UnpacksSoundly data := by
  intro all
  have read : readEntry cutArchive.bytes 0 = .cut := by decide +kernel
  have done : (unpackDirectory .accepting [] cutArchive ()).exit = .ok :=
    congrArg Unpacked.exit (unpackFrom_cut read (by decide +kernel))
  obtain ⟨entries,_,whole⟩ := (all cutArchive).whole _ _ _ done
  cases entries with
  | nil =>
    have size := congrArg List.length whole
    revert size
    decide +kernel
  | cons entry entries =>
    have found := @readEntry_encode cutArchive.bytes 0 entry _ cutArchive.fits whole (Nat.zero_le _)
    cases found.symm.trans read

end Ecphoria
