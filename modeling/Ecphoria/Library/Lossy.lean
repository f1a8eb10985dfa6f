import Mathlib.Data.List.Basic
import Mathlib.Tactic.SplitIfs

/-! Bytes that may be no UTF-8 text, read as `from_utf8_lossy` does: the longest start of
a sequence that cannot be completed is one replacement character. Where what is read is
plain ASCII, so were the bytes. -/
namespace Ecphoria.Library

def replacement : Char := Char.ofNat 0xFFFD

def isContinuation (b : UInt8) : Bool := 0x80 ≤ b.toNat && b.toNat ≤ 0xBF

def allowsSecond (first second : UInt8) : Bool :=
  if first.toNat = 0xE0 then 0xA0 ≤ second.toNat && second.toNat ≤ 0xBF
  else if first.toNat = 0xED then 0x80 ≤ second.toNat && second.toNat ≤ 0x9F
  else if first.toNat = 0xF0 then 0x90 ≤ second.toNat && second.toNat ≤ 0xBF
  else if first.toNat = 0xF4 then 0x80 ≤ second.toNat && second.toNat ≤ 0x8F
  else isContinuation second

def scalar (lead : Nat) (rest : List UInt8) : Char :=
  Char.ofNat (rest.foldl (fun n b => n * 64 + (b.toNat - 0x80)) lead)

/-- The character that a byte of a longer sequence begins, and how many bytes after it belong to it. -/
def sequenceFrom (first : UInt8) (rest : List UInt8) : Char × Nat :=
  if 0xC2 ≤ first.toNat && first.toNat ≤ 0xDF then
    match rest with
    | b :: _ => if isContinuation b then (scalar (first.toNat - 0xC0) [b],1) else (replacement,0)
    | [] => (replacement,0)
  else if 0xE0 ≤ first.toNat && first.toNat ≤ 0xEF then
    match rest with
    | b :: rest =>
      if allowsSecond first b then
        match rest with
        | c :: _ => if isContinuation c then (scalar (first.toNat - 0xE0) [b,c],2) else (replacement,1)
        | [] => (replacement,1)
      else (replacement,0)
    | [] => (replacement,0)
  else if 0xF0 ≤ first.toNat && first.toNat ≤ 0xF4 then
    match rest with
    | b :: rest =>
      if allowsSecond first b then
        match rest with
        | c :: rest =>
          if isContinuation c then
            match rest with
            | d :: _ => if isContinuation d then (scalar (first.toNat - 0xF0) [b,c,d],3) else (replacement,2)
            | [] => (replacement,2)
          else (replacement,1)
        | [] => (replacement,1)
      else (replacement,0)
    | [] => (replacement,0)
  else (replacement,0)

def toCharsLossy : List UInt8 → List Char
  | [] => []
  | first :: rest =>
    if first.toNat < 0x80 then Char.ofNat first.toNat :: toCharsLossy rest
    else (sequenceFrom first rest).1 :: toCharsLossy (rest.drop (sequenceFrom first rest).2)
termination_by bytes => bytes.length
decreasing_by
  · exact Nat.lt_succ_self _
  · exact Nat.lt_succ_of_le (by rw [List.length_drop]; exact Nat.sub_le _ _)

def toStringLossy (bytes : List UInt8) : String := String.ofList (toCharsLossy bytes)

def asciiBytes (text : String) : List UInt8 := text.toList.map (fun c => UInt8.ofNat c.toNat)

theorem replacement_plain : 0x80 ≤ replacement.toNat := by decide

theorem toNat_ofNat {n : Nat} (valid : n.isValidChar) : (Char.ofNat n).toNat = n := by
  rw [Char.ofNat,dif_pos valid]
  exact UInt32.toNat_ofNatLT ..

theorem isContinuation_iff {b : UInt8} : isContinuation b = true ↔ 0x80 ≤ b.toNat ∧ b.toNat ≤ 0xBF := by
  simp [isContinuation]

theorem allowsSecond_bounds {first second : UInt8} (allowed : allowsSecond first second = true) :
    (0x80 ≤ second.toNat ∧ second.toNat ≤ 0xBF) ∧ (first.toNat = 0xE0 → 0xA0 ≤ second.toNat) ∧
      (first.toNat = 0xED → second.toNat ≤ 0x9F) ∧ (first.toNat = 0xF0 → 0x90 ≤ second.toNat) ∧
      (first.toNat = 0xF4 → second.toNat ≤ 0x8F) := by
  unfold allowsSecond at allowed
  split_ifs at allowed <;> simp only [isContinuation,Bool.and_eq_true,decide_eq_true_eq] at allowed <;> omega

theorem sequenceFrom_plain (first : UInt8) (rest : List UInt8) : 0x80 ≤ (sequenceFrom first rest).1.toNat := by
  unfold sequenceFrom
  split
  next two =>
    simp only [Bool.and_eq_true,decide_eq_true_eq] at two
    split
    next b _ =>
      split
      next more =>
        have within := isContinuation_iff.mp more
        have value : (scalar (first.toNat - 0xC0) [b]).toNat = (first.toNat - 0xC0) * 64 + (b.toNat - 0x80) := by
          refine toNat_ofNat (Or.inl ?_)
          simp only [List.foldl_cons,List.foldl_nil]
          omega
        rw [value]
        omega
      next => exact replacement_plain
    next => exact replacement_plain
  next =>
    split
    next three =>
      simp only [Bool.and_eq_true,decide_eq_true_eq] at three
      split
      next b _ =>
        split
        next allowed =>
          split
          next c _ =>
            split
            next more =>
              have within := isContinuation_iff.mp more
              obtain ⟨second,e0,ed,_,_⟩ := allowsSecond_bounds allowed
              have value : (scalar (first.toNat - 0xE0) [b,c]).toNat =
                  ((first.toNat - 0xE0) * 64 + (b.toNat - 0x80)) * 64 + (c.toNat - 0x80) := by
                refine toNat_ofNat ?_
                simp only [List.foldl_cons,List.foldl_nil,Nat.isValidChar]
                omega
              rw [value]
              omega
            next => exact replacement_plain
          next => exact replacement_plain
        next => exact replacement_plain
      next => exact replacement_plain
    next =>
      split
      next four =>
        simp only [Bool.and_eq_true,decide_eq_true_eq] at four
        split
        next b _ =>
          split
          next allowed =>
            split
            next c _ =>
              split
              next more =>
                split
                next d _ =>
                  split
                  next last =>
                    have within := isContinuation_iff.mp more
                    have within' := isContinuation_iff.mp last
                    obtain ⟨second,_,_,f0,f4⟩ := allowsSecond_bounds allowed
                    have value : (scalar (first.toNat - 0xF0) [b,c,d]).toNat =
                        (((first.toNat - 0xF0) * 64 + (b.toNat - 0x80)) * 64 + (c.toNat - 0x80)) * 64 +
                          (d.toNat - 0x80) := by
                      refine toNat_ofNat (Or.inr ?_)
                      simp only [List.foldl_cons,List.foldl_nil]
                      omega
                    rw [value]
                    omega
                  next => exact replacement_plain
                next => exact replacement_plain
              next => exact replacement_plain
            next => exact replacement_plain
          next => exact replacement_plain
        next => exact replacement_plain
      next => exact replacement_plain

theorem bytes_of_ascii {bytes : List UInt8} (plain : ∀ c ∈ toCharsLossy bytes, c.toNat < 0x80) :
    bytes = (toCharsLossy bytes).map (fun c => UInt8.ofNat c.toNat) := by
  induction bytes with
  | nil => simp [toCharsLossy]
  | cons first rest ih =>
    rw [toCharsLossy] at plain ⊢
    split at plain
    next small =>
      have own : (Char.ofNat first.toNat).toNat = first.toNat := toNat_ofNat (Or.inl (by omega))
      rw [if_pos small,List.map_cons,own,UInt8.ofNat_toNat,← ih (fun c inside => plain c (List.mem_cons_of_mem _ inside))]
    next =>
      have large := sequenceFrom_plain first rest
      have less := plain _ List.mem_cons_self
      omega

theorem toStringLossy_eq {bytes : List UInt8} {text : String} (read : toStringLossy bytes = text)
    (plain : ∀ c ∈ text.toList, c.toNat < 0x80) : bytes = asciiBytes text := by
  have chars : text.toList = toCharsLossy bytes := by rw [← read,toStringLossy,String.toList_ofList]
  rw [chars] at plain
  rw [asciiBytes,chars]
  exact bytes_of_ascii plain

end Ecphoria.Library
