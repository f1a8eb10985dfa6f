import Mathlib.Data.List.Basic
import Mathlib.Tactic.Ring

/-! Fields with a length in front. The length is a little-endian number of a fixed width, and
a field is read back from any text that begins with it, and from no other. -/
namespace Ecphoria.Library

/-- `width` bytes, the lowest first; what does not fit is cut off. -/
def littleEndian : Nat → Nat → List UInt8
  | 0,_ => []
  | width + 1,n => UInt8.ofNat n :: littleEndian width (n / 256)

def fromLittleEndian : List UInt8 → Nat
  | [] => 0
  | byte :: bytes => byte.toNat + 256 * fromLittleEndian bytes

@[simp] theorem length_littleEndian (width n : Nat) : (littleEndian width n).length = width := by
  induction width generalizing n with
  | zero => rfl
  | succ width ih => rw [littleEndian,List.length_cons,ih]

theorem fromLittleEndian_littleEndian {width n : Nat} (fits : n < 256 ^ width) :
    fromLittleEndian (littleEndian width n) = n := by
  induction width generalizing n with
  | zero => exact (Nat.lt_one_iff.mp fits).symm
  | succ width ih =>
    have high : n / 256 < 256 ^ width := Nat.div_lt_of_lt_mul (by rwa [pow_succ'] at fits)
    have low : (UInt8.ofNat n).toNat = n % 256 := UInt8.toNat_ofNat'
    rw [littleEndian,fromLittleEndian,ih high,low]
    exact Nat.mod_add_div n 256

theorem fromLittleEndian_lt (bytes : List UInt8) : fromLittleEndian bytes < 256 ^ bytes.length := by
  induction bytes with
  | nil => exact Nat.one_pos
  | cons byte bytes ih =>
    have low := byte.toNat_lt
    rw [fromLittleEndian,List.length_cons,pow_succ]
    omega

theorem littleEndian_fromLittleEndian (bytes : List UInt8) :
    littleEndian bytes.length (fromLittleEndian bytes) = bytes := by
  induction bytes with
  | nil => rfl
  | cons byte bytes ih =>
    have low := byte.toNat_lt
    have high : (byte.toNat + 256 * fromLittleEndian bytes) / 256 = fromLittleEndian bytes := by omega
    have first : UInt8.ofNat (byte.toNat + 256 * fromLittleEndian bytes) = byte := by
      apply UInt8.toNat_inj.mp
      rw [UInt8.toNat_ofNat']
      omega
    rw [fromLittleEndian,List.length_cons,littleEndian,high,ih,first]

def field (width : Nat) (bytes : List UInt8) : List UInt8 := littleEndian width bytes.length ++ bytes

@[simp] theorem length_field (width : Nat) (bytes : List UInt8) : (field width bytes).length = width + bytes.length := by
  simp [field]

def fieldLength (width : Nat) (text : List UInt8) : Nat := fromLittleEndian (text.take width)

theorem fieldLength_field {width : Nat} {bytes : List UInt8} (fits : bytes.length < 256 ^ width) (rest : List UInt8) :
    fieldLength width (field width bytes ++ rest) = bytes.length := by
  have cut : (field width bytes ++ rest).take width = littleEndian width bytes.length := by
    rw [field,List.append_assoc,List.take_left' (length_littleEndian width _)]
  rw [fieldLength,cut,fromLittleEndian_littleEndian fits]

theorem fieldLength_lt {width : Nat} {text : List UInt8} (long : width ≤ text.length) :
    fieldLength width text < 256 ^ width := by
  have bound := fromLittleEndian_lt (text.take width)
  rwa [List.length_take_of_le long] at bound

theorem drop_field (width : Nat) (bytes rest : List UInt8) :
    (field width bytes ++ rest).drop width = bytes ++ rest := by
  rw [field,List.append_assoc,List.drop_left' (length_littleEndian width _)]

theorem eq_field_append {width : Nat} {text : List UInt8} (long : width + fieldLength width text ≤ text.length) :
    text = field width ((text.drop width).take (fieldLength width text)) ++
      (text.drop width).drop (fieldLength width text) := by
  have front : (text.take width).length = width := List.length_take_of_le (by omega)
  have size : ((text.drop width).take (fieldLength width text)).length = fieldLength width text := by
    rw [List.length_take,List.length_drop]
    omega
  have lead : littleEndian width (fieldLength width text) = text.take width := by
    have same := littleEndian_fromLittleEndian (text.take width)
    rwa [front] at same
  rw [field,size,lead,List.append_assoc,List.take_append_drop,List.take_append_drop]

end Ecphoria.Library
