import Mathlib.Data.List.Basic

/-! Compact MessagePack as a serialisation framework uses it. A struct is the array of
the fields it does not skip and is read back by position; a field with a default may
be missing at the end only; an enum variant with fields is a map of one entry. -/
namespace Ecphoria.Library

/-- A MessagePack value. A byte string of length `n` is a vector of `8 * n` bits. -/
inductive MsgPack where
  | nil
  | bool (b : Bool)
  | int (n : Int)
  | float (x : Rat)
  | str (s : String)
  | bin (n : Nat) (bytes : BitVec (8 * n))
  | arr (items : List MsgPack)
  | map (entries : List (String × MsgPack))

namespace MsgPack
variable {α : Type}

def Reads (encode : α → MsgPack) (decode : MsgPack → Option α) : Prop := ∀ a, decode (encode a) = some a

def encodeNat (n : Nat) : MsgPack := .int n

def decodeNat : MsgPack → Option Nat
  | .int (.ofNat n) => some n
  | _ => none

def decodeFloat : MsgPack → Option Rat
  | .float x => some x
  | .int n => some n
  | _ => none

def decodeStr : MsgPack → Option String
  | .str s => some s
  | _ => none

def decodeBin (n : Nat) : MsgPack → Option (BitVec (8 * n))
  | .bin m bytes => if same : m = n then some (same ▸ bytes) else none
  | _ => none

@[simp] theorem reads_nat (n : Nat) : decodeNat (encodeNat n) = some n := rfl

@[simp] theorem reads_bin {n : Nat} (bytes : BitVec (8 * n)) : decodeBin n (.bin n bytes) = some bytes := by
  simp [decodeBin]

def encodeOption (encode : α → MsgPack) : Option α → MsgPack
  | some a => encode a
  | none => .nil

/-- `nil` is an absent value, whatever the type of the value. -/
def decodeOption (decode : MsgPack → Option α) : MsgPack → Option (Option α)
  | .nil => some none
  | v => (decode v).map some

theorem decodeOption_present {decode : MsgPack → Option α} {v : MsgPack} (present : v ≠ .nil) :
    decodeOption decode v = (decode v).map some := by
  cases v <;> simp_all [decodeOption]

theorem reads_option {encode : α → MsgPack} {decode : MsgPack → Option α} (o : Option α)
    (reads : Reads encode decode) (visible : ∀ a, o = some a → encode a ≠ .nil) :
    decodeOption decode (encodeOption encode o) = some o := by
  cases o with
  | none => rfl
  | some a => rw [encodeOption,decodeOption_present (visible a rfl),reads a,Option.map_some]

def encodeList (encode : α → MsgPack) (items : List α) : MsgPack := .arr (items.map encode)

def decodeAll (decode : MsgPack → Option α) : List MsgPack → Option (List α)
  | [] => some []
  | v :: vs =>
    match decode v, decodeAll decode vs with
    | some a,some rest => some (a :: rest)
    | _,_ => none

def decodeList (decode : MsgPack → Option α) : MsgPack → Option (List α)
  | .arr items => decodeAll decode items
  | _ => none

theorem reads_list {encode : α → MsgPack} {decode : MsgPack → Option α} (reads : Reads encode decode)
    (items : List α) : decodeList decode (encodeList encode items) = some items := by
  simp only [encodeList,decodeList]
  induction items with
  | nil => rfl
  | cons a items ih => simp [decodeAll,reads a,ih]

def skipNone (encode : α → MsgPack) : Option α → List MsgPack
  | some a => [encode a]
  | none => []

def field (items : List MsgPack) (i : Nat) (decode : MsgPack → Option α) : Option α :=
  (items[i]?).bind decode

/-- A field by its position, with a default when the array ends before it. -/
def fieldOr (items : List MsgPack) (i : Nat) (absent : α) (decode : MsgPack → Option α) : Option α :=
  match items[i]? with
  | some v => decode v
  | none => some absent

/-- A struct of `n` fields: an array of that many elements at most. -/
def decodeStruct (n : Nat) (fields : List MsgPack → Option α) : MsgPack → Option α
  | .arr items => if items.length ≤ n then fields items else none
  | _ => none

@[simp] theorem field_zero (v : MsgPack) (rest : List MsgPack) (decode : MsgPack → Option α) :
    field (v :: rest) 0 decode = decode v := rfl

@[simp] theorem field_succ (v : MsgPack) (rest : List MsgPack) (i : Nat) (decode : MsgPack → Option α) :
    field (v :: rest) (i + 1) decode = field rest i decode := rfl

@[simp] theorem fieldOr_nil (i : Nat) (absent : α) (decode : MsgPack → Option α) :
    fieldOr [] i absent decode = some absent := rfl

@[simp] theorem fieldOr_zero (v : MsgPack) (rest : List MsgPack) (absent : α) (decode : MsgPack → Option α) :
    fieldOr (v :: rest) 0 absent decode = decode v := rfl

@[simp] theorem fieldOr_succ (v : MsgPack) (rest : List MsgPack) (i : Nat) (absent : α)
    (decode : MsgPack → Option α) : fieldOr (v :: rest) (i + 1) absent decode = fieldOr rest i absent decode := rfl

def entry (entries : List (String × MsgPack)) (name : String) (decode : MsgPack → Option α) : Option α :=
  (entries.lookup name).bind decode

def entryOr (entries : List (String × MsgPack)) (name : String) (absent : α) (decode : MsgPack → Option α) :
    Option α :=
  match entries.lookup name with
  | some v => decode v
  | none => some absent

def skipEntry (name : String) (encode : α → MsgPack) : Option α → List (String × MsgPack)
  | some a => [(name,encode a)]
  | none => []

@[simp] theorem lookup_skipEntry (name other : String) (encode : α → MsgPack) (o : Option α) :
    (skipEntry name encode o).lookup other = if other = name then o.map encode else none := by
  cases o with
  | none => simp [skipEntry]
  | some a =>
    by_cases same : other = name
    · simp [skipEntry,same]
    · simp [skipEntry,List.lookup_cons,beq_eq_false_iff_ne.mpr same,same]

def skipEmpty (name : String) (encode : α → MsgPack) : List α → List (String × MsgPack)
  | [] => []
  | a :: items => [(name,encodeList encode (a :: items))]

@[simp] theorem lookup_skipEmpty (name other : String) (encode : α → MsgPack) (items : List α) :
    (skipEmpty name encode items).lookup other =
      if other = name ∧ items ≠ [] then some (encodeList encode items) else none := by
  cases items with
  | nil => simp [skipEmpty]
  | cons a items =>
    by_cases same : other = name
    · simp [skipEmpty,same]
    · simp [skipEmpty,List.lookup_cons,beq_eq_false_iff_ne.mpr same,same]

theorem reads_entry {entries : List (String × MsgPack)} {name : String} {v : MsgPack}
    {decode : MsgPack → Option α} {a : α} (found : entries.lookup name = some v) (read : decode v = some a) :
    entry entries name decode = some a := by
  simp [entry,found,read]

theorem reads_entryOr {entries : List (String × MsgPack)} {name : String} {v : MsgPack} {absent a : α}
    {decode : MsgPack → Option α} (found : entries.lookup name = some v) (read : decode v = some a) :
    entryOr entries name absent decode = some a := by
  simp [entryOr,found,read]

theorem reads_skipEntry {entries : List (String × MsgPack)} {name : String} {encode : α → MsgPack}
    {decode : MsgPack → Option α} {o : Option α} (found : entries.lookup name = o.map encode)
    (reads : Reads encode decode) (visible : ∀ a, encode a ≠ .nil) :
    entryOr entries name none (decodeOption decode) = some o := by
  cases o with
  | none => simp [entryOr,found]
  | some a => simp [entryOr,found,decodeOption_present (visible a),reads a]

theorem reads_skipEmpty {entries : List (String × MsgPack)} {name : String} {encode : α → MsgPack}
    {decode : MsgPack → Option α} {items : List α}
    (found : entries.lookup name = if items ≠ [] then some (encodeList encode items) else none)
    (reads : Reads encode decode) : entryOr entries name [] (decodeList decode) = some items := by
  by_cases empty : items = []
  · simp [entryOr,found,empty]
  · simp [entryOr,found,empty,reads_list reads]

def variant (name : String) (fields : List MsgPack) : MsgPack := .map [(name,.arr fields)]

end MsgPack

end Ecphoria.Library
