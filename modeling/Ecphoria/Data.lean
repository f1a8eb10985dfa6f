import Mathlib.Data.List.Basic
import Mathlib.Algebra.Order.Ring.Rat

/-! Values every layer shares: identifiers, instants, JSON documents and the text
operations the engine applies to them. Floating-point fields are exact rationals. -/
namespace Ecphoria

structure Uuid where
  bits : BitVec 128
deriving DecidableEq,Repr

instance (n : Nat) : OfNat Uuid n := ⟨⟨BitVec.ofNat 128 n⟩⟩

namespace Uuid

def hexDigit (n : Nat) : Char := (Nat.digitChar (n % 16))

/-- `Uuid::to_string`: 32 hexadecimal digits in groups of 8, 4, 4, 4 and 12. -/
def toString (id : Uuid) : String :=
  let digits := (List.range 32).map (fun i => hexDigit (id.bits.toNat / 16 ^ (31 - i)))
  String.ofList (digits.take 8 ++ '-' :: (digits.drop 8).take 4 ++ '-' :: (digits.drop 12).take 4
    ++ '-' :: (digits.drop 16).take 4 ++ '-' :: digits.drop 20)

end Uuid

/-- Instants are integers, in nanoseconds since the epoch: the precision of `DateTime<Utc>`. -/
def microsecond : Int := 1000

/-- What a `TIMESTAMPTZ` column keeps of an instant. -/
def micros (t : Int) : Int := t / microsecond * microsecond

@[simp] theorem micros_micros (t : Int) : micros (micros t) = micros t := by
  unfold micros microsecond
  omega

theorem micros_mono {s t : Int} (le : s ≤ t) : micros s ≤ micros t := by
  unfold micros microsecond
  omega

theorem micros_add_microsecond (t : Int) :
    micros (micros t + microsecond) = micros t + microsecond := by
  unfold micros microsecond
  omega

theorem le_micros_iff {s t : Int} (stored : micros s = s) : s ≤ micros t ↔ s ≤ t := by
  unfold micros microsecond at *
  omega

theorem micros_lt_iff {s t : Int} (stored : micros t = t) : micros s < t ↔ s < t := by
  unfold micros microsecond at *
  omega

inductive Json where
  | null
  | bool (b : Bool)
  | int (n : Int)
  | float (x : Rat)
  | str (s : String)
  | arr (items : List Json)
  | obj (fields : List (String × Json))
deriving Repr,BEq,Inhabited

namespace Json

def get (k : String) : Json → Option Json
  | obj fields => fields.lookup k
  | _ => none

def asStr : Json → Option String
  | str s => some s
  | _ => none

def isObject : Json → Bool
  | obj _ => true
  | _ => false

def insertField (k : String) (v : Json) : List (String × Json) → List (String × Json)
  | [] => [(k,v)]
  | (l,w) :: rest =>
    if k = l then (k,v) :: rest
    else if k < l then (k,v) :: (l,w) :: rest
    else (l,w) :: insertField k v rest

/-- `as_object_mut` followed by `insert`: nothing happens to a value that is no object. -/
def insert (target : Json) (k : String) (v : Json) : Json :=
  match target with
  | obj fields => obj (insertField k v fields)
  | other => other

def orInsert (target : Json) (k : String) (v : Json) : Json :=
  match target with
  | obj fields => if (fields.lookup k).isSome then obj fields else obj (insertField k v fields)
  | other => other

theorem isObject_iff {v : Json} : v.isObject = true ↔ ∃ fields, v = obj fields := by
  cases v <;> simp [isObject]

theorem get_insert (k : String) (v : Json) (fields : List (String × Json)) :
    ((Json.obj fields).insert k v).get k = some v := by
  change (insertField k v fields).lookup k = some v
  induction fields with
  | nil => simp [insertField]
  | cons field fields ih =>
    rw [insertField]
    split
    next same => simp
    next apart =>
      split
      next => simp
      next => rwa [List.lookup_cons,beq_false_of_ne apart]

theorem get_insert_ne {k other : String} (apart : k ≠ other) (v target : Json) :
    (target.insert other v).get k = target.get k := by
  cases target with
  | obj fields =>
    change (insertField other v fields).lookup k = fields.lookup k
    induction fields with
    | nil => simp [insertField,apart]
    | cons field fields ih =>
      obtain ⟨name,value⟩ := field
      rw [insertField]
      split
      next same => simp [← same,List.lookup_cons,beq_false_of_ne apart]
      next =>
        split
        next => rw [List.lookup_cons,beq_false_of_ne apart]
        next => rw [List.lookup_cons,List.lookup_cons,ih]
  | _ => rfl

end Json

/-- The Unicode `White_Space` property, as `char::is_whitespace` reads it. -/
def isWhitespace (c : Char) : Bool :=
  let n := c.toNat
  (9 ≤ n && n ≤ 13) || n == 0x20 || n == 0x85 || n == 0xA0 || n == 0x1680 ||
    (0x2000 ≤ n && n ≤ 0x200A) || n == 0x2028 || n == 0x2029 || n == 0x202F || n == 0x205F ||
    n == 0x3000

def trimStart (s : String) : String := String.ofList (s.toList.dropWhile isWhitespace)

def trimEnd (s : String) : String :=
  String.ofList (s.toList.reverse.dropWhile isWhitespace).reverse

def trim (s : String) : String := trimEnd (trimStart s)

def splitWhitespace (s : String) : List String :=
  ((s.toList.splitOnP isWhitespace).filter (fun w => !w.isEmpty)).map String.ofList

theorem separated_inj {α : Type} {s : α} {a b x y : List α} (left : s ∉ a) (right : s ∉ b) :
    a ++ s :: x = b ++ s :: y ↔ a = b ∧ x = y := by
  constructor
  · intro same
    induction a generalizing b with
    | nil =>
      cases b with
      | nil => exact ⟨rfl,(List.cons.inj same).2⟩
      | cons c b => exact absurd (List.cons.inj same).1 (fun first => right (first ▸ List.mem_cons_self))
    | cons c a ih =>
      cases b with
      | nil => exact absurd (List.cons.inj same).1 (fun first => left (first ▸ List.mem_cons_self))
      | cons d b =>
        obtain ⟨rfl,rest⟩ := List.cons.inj same
        obtain ⟨rfl,tails⟩ := ih (fun inside => left (List.mem_cons_of_mem c inside))
          (fun inside => right (List.mem_cons_of_mem c inside)) rest
        exact ⟨rfl,tails⟩
  · intro given
    rw [given.1,given.2]

theorem hexDigits_inj (k : Nat) {m n : Nat} (left : m < 16 ^ k) (right : n < 16 ^ k)
    (same : ∀ j < k, m / 16 ^ j % 16 = n / 16 ^ j % 16) : m = n := by
  induction k generalizing m n with
  | zero =>
    simp at left right
    rw [left,right]
  | succ k ih =>
    have low := same 0 (Nat.succ_pos k)
    have high : m / 16 = n / 16 := by
      rw [pow_succ'] at left right
      refine ih (Nat.div_lt_of_lt_mul left) (Nat.div_lt_of_lt_mul right) ?_
      intro j inside
      have next := same (j + 1) (Nat.succ_lt_succ inside)
      rwa [pow_succ',← Nat.div_div_eq_div_mul,← Nat.div_div_eq_div_mul] at next
    simp at low
    omega

namespace Uuid

theorem hexDigit_inj {m n : Nat} (same : hexDigit m = hexDigit n) : m % 16 = n % 16 := by
  have digits : ∀ a < 16, ∀ b < 16, Nat.digitChar a = Nat.digitChar b → a = b := by decide
  exact digits _ (Nat.mod_lt m (by decide)) _ (Nat.mod_lt n (by decide)) same

theorem hexDigit_ne (n : Nat) : hexDigit n ≠ '-' := by
  have digits : ∀ a < 16, Nat.digitChar a ≠ '-' := by decide
  exact digits _ (Nat.mod_lt n (by decide))

private theorem regroup (digits : List Char) : digits = digits.take 8 ++ ((digits.drop 8).take 4 ++
    ((digits.drop 12).take 4 ++ ((digits.drop 16).take 4 ++ digits.drop 20))) := by
  have cut (n : Nat) : digits.drop n = (digits.drop n).take 4 ++ digits.drop (n + 4) := by
    rw [← List.drop_drop,List.take_append_drop]
  rw [← cut 16,← cut 12,← cut 8,List.take_append_drop]

theorem toString_inj {a b : Uuid} (same : a.toString = b.toString) : a = b := by
  have plain (id : Uuid) : '-' ∉ (List.range 32).map (fun i => hexDigit (id.bits.toNat / 16 ^ (31 - i))) := by
    intro inside
    obtain ⟨i,_,dash⟩ := List.mem_map.mp inside
    exact hexDigit_ne _ dash
  have lists := congrArg String.toList same
  simp only [toString,String.toList_ofList,List.append_assoc,List.cons_append] at lists
  have digits : (List.range 32).map (fun i => hexDigit (a.bits.toNat / 16 ^ (31 - i))) =
      (List.range 32).map (fun i => hexDigit (b.bits.toNat / 16 ^ (31 - i))) := by
    generalize left : (List.range 32).map (fun i => hexDigit (a.bits.toNat / 16 ^ (31 - i))) = l at lists ⊢
    generalize right : (List.range 32).map (fun i => hexDigit (b.bits.toNat / 16 ^ (31 - i))) = r at lists ⊢
    have first : '-' ∉ l := left ▸ plain a
    have second : '-' ∉ r := right ▸ plain b
    have part (n : Nat) : '-' ∉ (l.drop n).take 4 ∧ '-' ∉ (r.drop n).take 4 :=
      ⟨fun inside => first (List.mem_of_mem_drop (List.mem_of_mem_take inside)),
        fun inside => second (List.mem_of_mem_drop (List.mem_of_mem_take inside))⟩
    obtain ⟨eight,lists⟩ := (separated_inj (fun inside => first (List.mem_of_mem_take inside))
      (fun inside => second (List.mem_of_mem_take inside))).mp lists
    obtain ⟨twelve,lists⟩ := (separated_inj (part 8).1 (part 8).2).mp lists
    obtain ⟨sixteen,lists⟩ := (separated_inj (part 12).1 (part 12).2).mp lists
    obtain ⟨twenty,rest⟩ := (separated_inj (part 16).1 (part 16).2).mp lists
    rw [regroup l,regroup r,eight,twelve,sixteen,twenty,rest]
  have bits : a.bits.toNat = b.bits.toNat := by
    refine hexDigits_inj 32 a.bits.isLt b.bits.isLt ?_
    intro j inside
    have digit := List.map_inj_left.mp digits (31 - j) (List.mem_range.mpr (by omega))
    have place : 31 - (31 - j) = j := by omega
    rw [place] at digit
    exact hexDigit_inj digit
  obtain ⟨left⟩ := a
  obtain ⟨right⟩ := b
  exact congrArg Uuid.mk (BitVec.eq_of_toNat_eq bits)

end Uuid
def eqIgnoreAsciiCase (a b : String) : Bool := a.toList.map Char.toLower == b.toList.map Char.toLower

end Ecphoria
