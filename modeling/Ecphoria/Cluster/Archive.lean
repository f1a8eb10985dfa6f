import Ecphoria.Library.Framing
import Ecphoria.Data

/-! The archive of a snapshot: a directory as one byte string, each file by its path and its
content, both with their lengths in front. Unpacking reads it back through a file system that
may refuse any call. -/
namespace Ecphoria
open Library

abbrev Bytes := List UInt8

/-- A byte slice; it holds fewer than 2^63 bytes. -/
structure Slice where
  bytes : Bytes
  fits : bytes.length < 2 ^ 63

def utf8 (text : String) : Bytes := text.toByteArray.data.toList

/-- `str::from_utf8`. -/
def fromUtf8 (bytes : Bytes) : Option String := String.fromUTF8? ⟨bytes.toArray⟩

theorem fromUtf8_eq_some {bytes : Bytes} {text : String} : fromUtf8 bytes = some text ↔ bytes = utf8 text := by
  unfold fromUtf8 String.fromUTF8?
  constructor
  · intro read
    split at read
    next =>
      cases read
      rfl
    next => cases read
  · rintro rfl
    have whole : (⟨(utf8 text).toArray⟩ : ByteArray) = text.toByteArray := by simp [utf8]
    rw [dif_pos (by rw [whole]; exact text.isValidUTF8)]
    exact congrArg some (String.toByteArray_inj.mp whole)

def pieces (text : String) : List String :=
  ((text.toList.splitOn '/').map String.ofList).filter (fun piece => piece ≠ "" && piece ≠ ".")

def isAbsolute (text : String) : Bool := text.toList.head? = some '/'

/-- A path from the root, as its names and `..`; one that ends in a separator or a dot stands for a directory. -/
structure Path where
  pieces : List String
  asDirectory : Bool

/-- `Path::join`: an absolute path replaces the directory. -/
def Path.join (dir : List String) (text : String) : Path where
  pieces := if isAbsolute text then Ecphoria.pieces text else dir ++ Ecphoria.pieces text
  asDirectory := (text.toList.splitOn '/').getLast? = some [] || (text.toList.splitOn '/').getLast? = some ['.']

def Path.parent (path : Path) : Option (List String) := if path.pieces = [] then none else some path.pieces.dropLast

structure FileSystem (σ : Type) where
  createDirAll : σ → List String → Option σ
  write : σ → Path → Bytes → Option σ

inductive Exit where
  | ok
  | error (message : String)
  | panicked
deriving DecidableEq,Repr

inductive DiskCall where
  | createDirAll (pieces : List String)
  | write (path : Path)

structure Unpacked (σ : Type) where
  disk : σ
  calls : List DiskCall
  exit : Exit

/-- What one round of the loop reads; it breaks when the input is cut. -/
inductive EntryRead where
  | cut
  | invalidPath
  | overflow
  | entry (path : String) (content : Bytes) (next : Nat)
deriving DecidableEq

def readEntry (data : Bytes) (cursor : Nat) : EntryRead :=
  if data.length < cursor + 4 then .cut
  else
    let pathLen := fieldLength 4 (data.drop cursor)
    let cursor := cursor + 4
    if data.length < cursor + pathLen then .cut
    else
      match fromUtf8 ((data.drop cursor).take pathLen) with
      | none => .invalidPath
      | some path =>
        let cursor := cursor + pathLen
        if data.length < cursor + 8 then .cut
        else
          let dataLen := fieldLength 8 (data.drop cursor)
          let cursor := cursor + 8
          -- the sum wraps around, and the slice from the cursor to it is then out of order
          let stop := (cursor + dataLen) % 2 ^ 64
          if data.length < stop then .cut
          else if stop < cursor then .overflow
          else .entry path ((data.drop cursor).take dataLen) stop

theorem readEntry_advances {data : Bytes} {cursor next : Nat} {path : String} {content : Bytes}
    (read : readEntry data cursor = .entry path content next) : cursor < next := by
  unfold readEntry at read
  split at read
  next => cases read
  next =>
    dsimp only at read
    split at read
    next => cases read
    next =>
      split at read
      next => cases read
      next =>
        split at read
        next => cases read
        next =>
          split at read
          next => cases read
          next =>
            split at read
            next => cases read
            next =>
              cases read
              omega

section
variable {σ : Type} (fs : FileSystem σ) (target : List String)

def writeFile (disk : σ) (path : String) (content : Bytes) : Unpacked σ :=
  let file := Path.join target path
  match file.parent with
  | none =>
    match fs.write disk file content with
    | none => ⟨disk,[.write file],.error "write file"⟩
    | some disk => ⟨disk,[.write file],.ok⟩
  | some parent =>
    match fs.createDirAll disk parent with
    | none => ⟨disk,[.createDirAll parent],.error "mkdir"⟩
    | some disk =>
      match fs.write disk file content with
      | none => ⟨disk,[.createDirAll parent,.write file],.error "write file"⟩
      | some disk => ⟨disk,[.createDirAll parent,.write file],.ok⟩

def unpackFrom (data : Bytes) (cursor : Nat) (disk : σ) (calls : List DiskCall) : Unpacked σ :=
  if cursor < data.length then
    match _read : readEntry data cursor with
    | .cut => ⟨disk,calls,.ok⟩
    | .invalidPath => ⟨disk,calls,.error "invalid path"⟩
    | .overflow => ⟨disk,calls,.panicked⟩
    | .entry path content next =>
      let written := writeFile fs target disk path content
      if written.exit = .ok then unpackFrom data next written.disk (calls ++ written.calls)
      else { written with calls := calls ++ written.calls }
  else ⟨disk,calls,.ok⟩
termination_by data.length - cursor
decreasing_by
  have later := readEntry_advances ‹_›
  omega

def unpackDirectory (data : Slice) (disk : σ) : Unpacked σ :=
  match fs.createDirAll disk target with
  | none => ⟨disk,[.createDirAll target],.error "mkdir"⟩
  | some disk => unpackFrom fs target data.bytes 0 disk [.createDirAll target]

end

/-- An entry that the length fields can carry. -/
structure ArchiveEntry where
  path : String
  content : Bytes
  short : (utf8 path).length < 256 ^ 4
  fits : content.length < 256 ^ 8

def ArchiveEntry.encode (entry : ArchiveEntry) : Bytes := field 4 (utf8 entry.path) ++ field 8 entry.content

/-- The input goes on with a complete path that is no UTF-8. -/
def BadPath (rest : Bytes) : Prop :=
  ∃ path tail, rest = field 4 path ++ tail ∧ path.length < 256 ^ 4 ∧ fromUtf8 path = none

section
variable {data : Bytes} {cursor : Nat}

theorem length_of_drop {front tail : Bytes} (rest : data.drop cursor = front ++ tail) (within : cursor ≤ data.length) :
    data.length = cursor + front.length + tail.length := by
  have size := congrArg List.length rest
  rw [List.length_drop,List.length_append] at size
  omega

theorem drop_of_drop {front tail : Bytes} (rest : data.drop cursor = front ++ tail) {next : Nat}
    (far : next = cursor + front.length) : data.drop next = tail := by
  rw [far,← List.drop_drop,rest,List.drop_left]

theorem readPath {path tail : Bytes} (rest : data.drop cursor = field 4 path ++ tail) (within : cursor ≤ data.length)
    (short : path.length < 256 ^ 4) : ¬data.length < cursor + 4 ∧ fieldLength 4 (data.drop cursor) = path.length ∧
      ¬data.length < cursor + 4 + path.length ∧ (data.drop (cursor + 4)).take path.length = path := by
  have size := length_of_drop rest within
  rw [length_field] at size
  refine ⟨by omega,?_,by omega,?_⟩
  · rw [rest,fieldLength_field short]
  · rw [← List.drop_drop,rest,drop_field,List.take_left]

theorem readEntry_badPath (rest : BadPath (data.drop cursor)) (within : cursor ≤ data.length) :
    readEntry data cursor = .invalidPath := by
  obtain ⟨path,tail,whole,short,invalid⟩ := rest
  obtain ⟨enough,size,room,text⟩ := readPath whole within short
  simp only [readEntry]
  rw [if_neg enough,size,if_neg room,text,invalid]

theorem readEntry_encode {entry : ArchiveEntry} {tail : Bytes} (bounded : data.length < 2 ^ 63)
    (rest : data.drop cursor = entry.encode ++ tail) (within : cursor ≤ data.length) :
    readEntry data cursor = .entry entry.path entry.content (cursor + entry.encode.length) := by
  have whole : data.drop cursor = field 4 (utf8 entry.path) ++ (field 8 entry.content ++ tail) := by
    rw [rest,ArchiveEntry.encode,List.append_assoc]
  obtain ⟨enough,size,room,text⟩ := readPath whole within entry.short
  have valid : fromUtf8 (utf8 entry.path) = some entry.path := fromUtf8_eq_some.mpr rfl
  have length := length_of_drop rest within
  have parts : entry.encode.length = 4 + (utf8 entry.path).length + (8 + entry.content.length) := by
    rw [ArchiveEntry.encode,List.length_append,length_field,length_field]
  have after : data.drop (cursor + 4 + (utf8 entry.path).length) = field 8 entry.content ++ tail := by
    refine drop_of_drop whole ?_
    rw [length_field]
    omega
  have content : data.drop (cursor + 4 + (utf8 entry.path).length + 8) = entry.content ++ tail := by
    rw [← List.drop_drop,after,drop_field]
  have small : (cursor + 4 + (utf8 entry.path).length + 8 + entry.content.length) % 2 ^ 64 =
      cursor + entry.encode.length := by
    rw [Nat.mod_eq_of_lt (by omega)]
    omega
  simp only [readEntry]
  rw [if_neg enough,size,if_neg room,text,valid]
  dsimp only
  rw [if_neg (by omega),after,fieldLength_field entry.fits,small,if_neg (by omega),if_neg (by omega),content,List.take_left]

private theorem entry_of_room {path : String} (bounded : data.length < 2 ^ 63)
    (text : (data.drop (cursor + 4)).take (fieldLength 4 (data.drop cursor)) = utf8 path)
    (enough : cursor + 4 + fieldLength 4 (data.drop cursor) + 8 ≤ data.length)
    (inside : ¬data.length < (cursor + 4 + fieldLength 4 (data.drop cursor) + 8 +
      fieldLength 8 (data.drop (cursor + 4 + fieldLength 4 (data.drop cursor)))) % 2 ^ 64)
    (order : ¬(cursor + 4 + fieldLength 4 (data.drop cursor) + 8 +
      fieldLength 8 (data.drop (cursor + 4 + fieldLength 4 (data.drop cursor)))) % 2 ^ 64 <
        cursor + 4 + fieldLength 4 (data.drop cursor) + 8) :
    ∃ entry : ArchiveEntry, entry.path = path ∧
      entry.content = (data.drop (cursor + 4 + fieldLength 4 (data.drop cursor) + 8)).take
        (fieldLength 8 (data.drop (cursor + 4 + fieldLength 4 (data.drop cursor)))) ∧
      data.drop cursor = entry.encode ++ data.drop ((cursor + 4 + fieldLength 4 (data.drop cursor) + 8 +
        fieldLength 8 (data.drop (cursor + 4 + fieldLength 4 (data.drop cursor)))) % 2 ^ 64) ∧
      (cursor + 4 + fieldLength 4 (data.drop cursor) + 8 +
        fieldLength 8 (data.drop (cursor + 4 + fieldLength 4 (data.drop cursor)))) % 2 ^ 64 ≤ data.length := by
  have first := @eq_field_append 4 (data.drop cursor) (by rw [List.length_drop]; omega)
  have short : fieldLength 4 (data.drop cursor) < 256 ^ 4 := fieldLength_lt (by rw [List.length_drop]; omega)
  rw [List.drop_drop,text,List.drop_drop] at first
  generalize start : cursor + 4 + fieldLength 4 (data.drop cursor) = second at *
  have fits : fieldLength 8 (data.drop second) < 256 ^ 8 := fieldLength_lt (by rw [List.length_drop]; omega)
  -- a sum that wraps around would stand before the content
  have exact_sum : (second + 8 + fieldLength 8 (data.drop second)) % 2 ^ 64 =
    second + 8 + fieldLength 8 (data.drop second) := by
    omega
  rw [exact_sum] at inside order ⊢
  have content := @eq_field_append 8 (data.drop second) (by rw [List.length_drop]; omega)
  rw [List.drop_drop,List.drop_drop] at content
  have path_size : (utf8 path).length < 256 ^ 4 := by
    rw [← text]
    exact (List.length_take_le _ _).trans_lt short
  refine ⟨⟨path,(data.drop (second + 8)).take (fieldLength 8 (data.drop second)),path_size,
    (List.length_take_le _ _).trans_lt fits⟩,rfl,rfl,?_,by omega⟩
  rw [ArchiveEntry.encode,List.append_assoc,← content]
  exact first

theorem encode_of_readEntry {path : String} {content : Bytes} {next : Nat} (bounded : data.length < 2 ^ 63)
    (read : readEntry data cursor = .entry path content next) :
    ∃ entry : ArchiveEntry, entry.path = path ∧ entry.content = content ∧
      data.drop cursor = entry.encode ++ data.drop next ∧ next ≤ data.length := by
  unfold readEntry at read
  split at read
  next => cases read
  next enough =>
    dsimp only at read
    split at read
    next => cases read
    next room =>
      split at read
      next => cases read
      next text valid =>
        split at read
        next => cases read
        next =>
          split at read
          next => cases read
          next inside =>
            split at read
            next => cases read
            next order =>
              cases read
              exact entry_of_room bounded (fromUtf8_eq_some.mp valid) (by omega) inside order

theorem badPath_of_readEntry (read : readEntry data cursor = .invalidPath) : BadPath (data.drop cursor) := by
  unfold readEntry at read
  split at read
  next => cases read
  next enough =>
    dsimp only at read
    split at read
    next => cases read
    next room =>
      split at read
      next invalid =>
        have long : 4 + fieldLength 4 (data.drop cursor) ≤ (data.drop cursor).length := by
          rw [List.length_drop]
          omega
        rw [← List.drop_drop] at invalid
        refine ⟨_,_,eq_field_append long,?_,invalid⟩
        refine (List.length_take_le _ _).trans_lt (fieldLength_lt ?_)
        omega
      next =>
        split at read
        next => cases read
        next =>
          split at read
          next => cases read
          next =>
            split at read
            next => cases read
            next => cases read

variable {σ : Type} {fs : FileSystem σ} {target : List String} {disk : σ} {calls : List DiskCall}

theorem unpackFrom_end (finished : data.drop cursor = []) : unpackFrom fs target data cursor disk calls =
    ⟨disk,calls,.ok⟩ := by
  have over_end : ¬cursor < data.length := Nat.not_lt.mpr (List.drop_eq_nil_iff.mp finished)
  rw [unpackFrom,if_neg over_end]

theorem unpackFrom_badPath (rest : BadPath (data.drop cursor)) :
    unpackFrom fs target data cursor disk calls = ⟨disk,calls,.error "invalid path"⟩ := by
  have before : cursor < data.length := by
    obtain ⟨path,tail,whole,_⟩ := rest
    have size := congrArg List.length whole
    rw [List.length_drop,List.length_append,length_field] at size
    omega
  have read := readEntry_badPath rest before.le
  rw [unpackFrom,if_pos before]
  split
  next found => cases found.symm.trans read
  next => rfl
  next found => cases found.symm.trans read
  next found => cases found.symm.trans read

theorem unpackFrom_entry {entry : ArchiveEntry} {tail : Bytes} (bounded : data.length < 2 ^ 63)
    (rest : data.drop cursor = entry.encode ++ tail) : unpackFrom fs target data cursor disk calls =
      if (writeFile fs target disk entry.path entry.content).exit = .ok then
        unpackFrom fs target data (cursor + entry.encode.length) (writeFile fs target disk entry.path entry.content).disk
          (calls ++ (writeFile fs target disk entry.path entry.content).calls)
      else { writeFile fs target disk entry.path entry.content with
        calls := calls ++ (writeFile fs target disk entry.path entry.content).calls } := by
  have before : cursor < data.length := by
    have size := congrArg List.length rest
    rw [List.length_drop,List.length_append,ArchiveEntry.encode,List.length_append,length_field] at size
    omega
  have read := readEntry_encode bounded rest before.le
  rw [unpackFrom,if_pos before]
  split
  next found => cases found.symm.trans read
  next found => cases found.symm.trans read
  next found => cases found.symm.trans read
  next found =>
    cases found.symm.trans read
    rfl

theorem unpackFrom_cut (read : readEntry data cursor = .cut) (before : cursor < data.length) :
    unpackFrom fs target data cursor disk calls = ⟨disk,calls,.ok⟩ := by
  rw [unpackFrom,if_pos before]
  split
  next => rfl
  next found => cases found.symm.trans read
  next found => cases found.symm.trans read
  next found => cases found.symm.trans read

theorem unpackFrom_cases (fs : FileSystem σ) (target : List String) (bounded : data.length < 2 ^ 63) (cursor : Nat)
    (disk : σ) (calls : List DiskCall) : (∃ exit, unpackFrom fs target data cursor disk calls = ⟨disk,calls,exit⟩ ∧
        ∀ message, exit = .error message → BadPath (data.drop cursor)) ∨
      ∃ entry : ArchiveEntry, ∃ tail, data.drop cursor = entry.encode ++ tail := by
  by_cases before : cursor < data.length
  · cases read : readEntry data cursor with
    | entry path content next =>
      obtain ⟨entry,_,_,whole,_⟩ := encode_of_readEntry bounded read
      exact Or.inr ⟨entry,_,whole⟩
    | invalidPath =>
      have bad := badPath_of_readEntry read
      exact Or.inl ⟨_,unpackFrom_badPath bad,fun _ _ => bad⟩
    | cut => exact Or.inl ⟨.ok,unpackFrom_cut read before,nofun⟩
    | overflow =>
      refine Or.inl ⟨.panicked,?_,nofun⟩
      rw [unpackFrom,if_pos before]
      split
      next found => cases found.symm.trans read
      next found => cases found.symm.trans read
      next => rfl
      next found => cases found.symm.trans read
  · exact Or.inl ⟨.ok,unpackFrom_end (List.drop_eq_nil_iff.mpr (Nat.not_lt.mp before)),nofun⟩

theorem ArchiveEntry.encode_pos (entry : ArchiveEntry) : 0 < entry.encode.length := by
  rw [ArchiveEntry.encode,List.length_append,length_field]
  omega

end

end Ecphoria
