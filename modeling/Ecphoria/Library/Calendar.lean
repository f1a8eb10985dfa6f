import Mathlib.Algebra.Ring.Nat
import Mathlib.Data.List.Basic
import Mathlib.Order.Basic

/-! Instants in nanoseconds since the epoch and their text in UTC: the RFC 3339 form with
as many fractional digits as the instant needs, and the form SQL clocks print. As long
as years have four digits, texts of one form sort as the instants do. -/
namespace Ecphoria.Library

theorem append_lt_append_iff {a b x y : List Char} (len : a.length = b.length) :
    a ++ x < b ++ y ↔ a < b ∨ a = b ∧ x < y := by
  induction a generalizing b with
  | nil =>
    obtain rfl := List.length_eq_zero_iff.mp len.symm
    simp
  | cons c a ih =>
    cases b with
    | nil => cases len
    | cons d b =>
      simp only [List.cons_append,List.cons_lt_cons_iff,ih (Nat.succ.inj len),List.cons.injEq]
      constructor
      · intro given
        rcases given with less | ⟨same,less | ⟨rest,less⟩⟩
        · exact Or.inl (Or.inl less)
        · exact Or.inl (Or.inr ⟨same,less⟩)
        · exact Or.inr ⟨⟨same,rest⟩,less⟩
      · intro given
        rcases given with (less | ⟨same,less⟩) | ⟨⟨same,rest⟩,less⟩
        · exact Or.inl less
        · exact Or.inr ⟨same,Or.inl less⟩
        · exact Or.inr ⟨same,Or.inr ⟨rest,less⟩⟩

/-- The last `width` decimal digits. -/
def digits : Nat → Nat → List Char
  | 0,_ => []
  | width + 1,n => digits width (n / 10) ++ [Nat.digitChar (n % 10)]

@[simp] theorem length_digits (width n : Nat) : (digits width n).length = width := by
  induction width generalizing n with
  | zero => rfl
  | succ width ih => simp [digits,ih]

private theorem digitChar_lt {m n : Nat} (left : m < 10) (right : n < 10) :
    Nat.digitChar m < Nat.digitChar n ↔ m < n := by
  have all : ∀ a < 10, ∀ b < 10, Nat.digitChar a < Nat.digitChar b ↔ a < b := by decide
  exact all m left n right

private theorem digitChar_inj {m n : Nat} (left : m < 10) (right : n < 10) :
    Nat.digitChar m = Nat.digitChar n ↔ m = n := by
  have all : ∀ a < 10, ∀ b < 10, Nat.digitChar a = Nat.digitChar b ↔ a = b := by decide
  exact all m left n right

theorem digits_inj {width m n : Nat} (left : m < 10 ^ width) (right : n < 10 ^ width) :
    digits width m = digits width n ↔ m = n := by
  induction width generalizing m n with
  | zero => simp [digits] at left right ⊢; omega
  | succ width ih =>
    rw [Nat.pow_succ] at left right
    have front : digits width (m / 10) = digits width (n / 10) ↔ m / 10 = n / 10 := ih (by omega) (by omega)
    have last := digitChar_inj (Nat.mod_lt m (by decide : 10 > 0)) (Nat.mod_lt n (by decide))
    simp only [digits]
    constructor
    · intro same
      obtain ⟨high,low⟩ := List.append_inj same (by simp)
      have tens := front.mp high
      have ones := last.mp (List.cons.inj low).1
      omega
    · rintro rfl
      rfl

theorem digits_lt {width m n : Nat} (left : m < 10 ^ width) (right : n < 10 ^ width) :
    digits width m < digits width n ↔ m < n := by
  induction width generalizing m n with
  | zero => simp [digits] at left right ⊢; omega
  | succ width ih =>
    rw [Nat.pow_succ] at left right
    have front : digits width (m / 10) < digits width (n / 10) ↔ m / 10 < n / 10 := ih (by omega) (by omega)
    have equal : digits width (m / 10) = digits width (n / 10) ↔ m / 10 = n / 10 :=
      digits_inj (by omega) (by omega)
    have last := digitChar_lt (Nat.mod_lt m (by decide : 10 > 0)) (Nat.mod_lt n (by decide))
    simp only [digits]
    rw [append_lt_append_iff (by simp),front,equal,List.cons_lt_cons_iff,last]
    simp
    omega

structure Date where
  year : Nat
  month : Nat
  day : Nat
deriving DecidableEq,Repr

def isLeap (year : Nat) : Bool := year % 4 = 0 && (year % 100 ≠ 0 || year % 400 = 0)

def daysIn (year month : Nat) : Nat :=
  if month = 2 then (if isLeap year then 29 else 28)
  else if month = 4 || month = 6 || month = 9 || month = 11 then 30
  else 31

def Date.next (d : Date) : Date :=
  if d.day < daysIn d.year d.month then { d with day := d.day + 1 }
  else if d.month < 12 then ⟨d.year,d.month + 1,1⟩
  else ⟨d.year + 1,1,1⟩

def dateOf : Nat → Date
  | 0 => ⟨1970,1,1⟩
  | n + 1 => (dateOf n).next

def Date.Before (a b : Date) : Prop :=
  a.year < b.year ∨ a.year = b.year ∧ (a.month < b.month ∨ a.month = b.month ∧ a.day < b.day)

theorem Date.Before.trans {a b c : Date} (first : a.Before b) (second : b.Before c) : a.Before c := by
  unfold Before at *
  omega

theorem Date.before_next (d : Date) : d.Before d.next := by
  unfold next
  split
  next => exact Or.inr ⟨rfl,Or.inr ⟨rfl,Nat.lt_succ_self _⟩⟩
  next =>
    split
    next => exact Or.inr ⟨rfl,Or.inl (Nat.lt_succ_self _)⟩
    next => exact Or.inl (Nat.lt_succ_self _)

theorem dateOf_before {m n : Nat} (less : m < n) : (dateOf m).Before (dateOf n) := by
  induction n with
  | zero => cases less
  | succ n ih =>
    rcases Nat.lt_succ_iff_lt_or_eq.mp less with earlier | rfl
    · exact (ih earlier).trans (dateOf n).before_next
    · exact (dateOf m).before_next

theorem dateOf_year_mono {m n : Nat} (le : m ≤ n) : (dateOf m).year ≤ (dateOf n).year := by
  rcases Nat.lt_or_eq_of_le le with less | rfl
  · have before := dateOf_before less
    unfold Date.Before at before
    omega
  · exact Nat.le_refl _

theorem daysIn_le (year month : Nat) : daysIn year month ≤ 31 := by
  unfold daysIn
  split
  next => split <;> decide
  next => split <;> decide

theorem dateOf_bounds (n : Nat) : (dateOf n).month ≤ 12 ∧ (dateOf n).day ≤ 31 := by
  induction n with
  | zero => decide
  | succ n ih =>
    have most := daysIn_le (dateOf n).year (dateOf n).month
    simp only [dateOf,Date.next]
    split
    next room => exact ⟨ih.1,Nat.le_trans room most⟩
    next =>
      split
      next more => exact ⟨more,by simp⟩
      next => exact ⟨by simp,by simp⟩

theorem le_dateOf (n : Nat) : 1970 ≤ (dateOf n).year ∧ 1 ≤ (dateOf n).month ∧
    n + 1 ≤ ((dateOf n).year - 1970) * 372 + ((dateOf n).month - 1) * 31 + (dateOf n).day := by
  induction n with
  | zero => decide
  | succ n ih =>
    have bounds := dateOf_bounds n
    simp only [dateOf,Date.next]
    split
    next => exact ⟨ih.1,ih.2.1,by simp; omega⟩
    next =>
      split
      next => exact ⟨ih.1,by simp,by simp; omega⟩
      next => exact ⟨by simp; omega,by simp,by simp; omega⟩

def yearText (year : Nat) : List Char := if year < 10000 then digits 4 year else '+' :: Nat.toDigits 10 year

def dateText (d : Date) : List Char := yearText d.year ++ '-' :: (digits 2 d.month ++ '-' :: digits 2 d.day)

theorem dateText_lt {a b : Date} (left : a.year < 10000) (right : b.year < 10000) (bounds : a.month ≤ 12 ∧ a.day ≤ 31)
    (bounds' : b.month ≤ 12 ∧ b.day ≤ 31) : dateText a < dateText b ↔ a.Before b := by
  have years := digits_lt (show a.year < 10 ^ 4 from left) (show b.year < 10 ^ 4 from right)
  have sameYear := digits_inj (show a.year < 10 ^ 4 from left) (show b.year < 10 ^ 4 from right)
  have months : digits 2 a.month < digits 2 b.month ↔ a.month < b.month := digits_lt (by omega) (by omega)
  have sameMonth : digits 2 a.month = digits 2 b.month ↔ a.month = b.month := digits_inj (by omega) (by omega)
  have days : digits 2 a.day < digits 2 b.day ↔ a.day < b.day := digits_lt (by omega) (by omega)
  unfold dateText yearText Date.Before
  rw [if_pos left,if_pos right,append_lt_append_iff (by simp),years,sameYear,List.cons_lt_cons_iff,
    append_lt_append_iff (by simp),months,sameMonth,List.cons_lt_cons_iff,days]
  simp

theorem length_dateText {d : Date} (short : d.year < 10000) : (dateText d).length = 10 := by
  simp [dateText,yearText,short]

theorem dateText_dateOf {m n : Nat} (left : (dateOf m).year < 10000) (right : (dateOf n).year < 10000) :
    dateText (dateOf m) < dateText (dateOf n) ↔ m < n := by
  rw [dateText_lt left right (dateOf_bounds m) (dateOf_bounds n)]
  constructor
  · intro before
    by_contra late
    rcases Nat.lt_or_eq_of_le (Nat.not_lt.mp late) with after | rfl
    · have back := dateOf_before after
      unfold Date.Before at *
      omega
    · unfold Date.Before at *
      omega
  · exact dateOf_before

def timeText (second : Nat) : List Char :=
  digits 2 (second / 3600) ++ ':' :: (digits 2 (second / 60 % 60) ++ ':' :: digits 2 (second % 60))

@[simp] theorem length_timeText (second : Nat) : (timeText second).length = 8 := by simp [timeText]

theorem timeText_lt {m n : Nat} (left : m < 86400) (right : n < 86400) : timeText m < timeText n ↔ m < n := by
  have hours : digits 2 (m / 3600) < digits 2 (n / 3600) ↔ m / 3600 < n / 3600 := digits_lt (by omega) (by omega)
  have sameHour : digits 2 (m / 3600) = digits 2 (n / 3600) ↔ m / 3600 = n / 3600 := digits_inj (by omega) (by omega)
  have minutes : digits 2 (m / 60 % 60) < digits 2 (n / 60 % 60) ↔ m / 60 % 60 < n / 60 % 60 :=
    digits_lt (by omega) (by omega)
  have sameMinute : digits 2 (m / 60 % 60) = digits 2 (n / 60 % 60) ↔ m / 60 % 60 = n / 60 % 60 :=
    digits_inj (by omega) (by omega)
  have seconds : digits 2 (m % 60) < digits 2 (n % 60) ↔ m % 60 < n % 60 := digits_lt (by omega) (by omega)
  unfold timeText
  rw [append_lt_append_iff (by simp),hours,sameHour,List.cons_lt_cons_iff,append_lt_append_iff (by simp),minutes,
    sameMinute,List.cons_lt_cons_iff,seconds]
  simp
  omega

theorem digits_add (a b n : Nat) : digits (a + b) n = digits a (n / 10 ^ b) ++ digits b n := by
  induction b generalizing n with
  | zero => simp [digits]
  | succ b ih =>
    rw [← Nat.add_assoc,digits,ih,digits,List.append_assoc,Nat.div_div_eq_div_mul,← Nat.pow_succ']

theorem digits_mod (width n : Nat) : digits width (n % 10 ^ width) = digits width n := by
  induction width generalizing n with
  | zero => rfl
  | succ width ih =>
    have high : n % 10 ^ (width + 1) / 10 = n / 10 % 10 ^ width := by
      rw [Nat.pow_succ',Nat.mod_mul_right_div_self]
    have low : n % 10 ^ (width + 1) % 10 = n % 10 := by
      rw [Nat.pow_succ',Nat.mod_mul_right_mod]
    rw [digits,digits,high,low,ih]

def utc : List Char := ['+','0','0',':','0','0']

/-- Three digits, six or nine, as few as tell the fraction of a second. -/
def fraction (nano : Nat) : List Char :=
  if nano = 0 then []
  else if nano % 1000000 = 0 then '.' :: digits 3 (nano / 1000000)
  else if nano % 1000 = 0 then '.' :: digits 6 (nano / 1000)
  else '.' :: digits 9 nano

private def grouped : List Nat → List Char
  | [] => utc
  | g :: gs => if (g :: gs).all (· = 0) then utc else digits 3 g ++ grouped gs

private theorem utc_lt_digits (width n : Nat) (rest : List Char) : utc < digits (width + 1) n ++ rest := by
  induction width generalizing n rest with
  | zero =>
    have least : ∀ d < 10, '+' < Nat.digitChar d := by decide
    exact List.cons_lt_cons_iff.mpr (Or.inl (least _ (Nat.mod_lt n (by decide))))
  | succ width ih =>
    rw [digits,List.append_assoc]
    exact ih _ _

private theorem zeros_lt {gs hs : List Nat} (len : gs.length = hs.length) (zero : gs.all (· = 0) = true)
    (more : hs.all (· = 0) = false) : gs < hs := by
  induction gs generalizing hs with
  | nil =>
    obtain rfl := List.length_eq_zero_iff.mp len.symm
    cases more
  | cons g gs ih =>
    cases hs with
    | nil => cases len
    | cons k hs =>
      simp only [List.all_cons,Bool.and_eq_true,decide_eq_true_eq] at zero
      rw [List.cons_lt_cons_iff,zero.1]
      by_cases first : k = 0
      · rw [List.all_cons,first] at more
        exact Or.inr ⟨first.symm,ih (Nat.succ.inj len) zero.2 (by simpa using more)⟩
      · exact Or.inl (Nat.pos_of_ne_zero first)

private theorem zeros_eq {gs hs : List Nat} (len : gs.length = hs.length) (left : gs.all (· = 0) = true)
    (right : hs.all (· = 0) = true) : gs = hs := by
  have flat (l : List Nat) (zero : l.all (· = 0) = true) : l = List.replicate l.length 0 :=
    List.eq_replicate_iff.mpr ⟨rfl,by simpa using zero⟩
  calc gs = List.replicate gs.length 0 := flat gs left
    _ = List.replicate hs.length 0 := by rw [len]
    _ = hs := (flat hs right).symm

private theorem grouped_lt {gs hs : List Nat} (len : gs.length = hs.length) (left : ∀ g ∈ gs, g < 1000)
    (right : ∀ h ∈ hs, h < 1000) : grouped gs < grouped hs ↔ gs < hs := by
  induction gs generalizing hs with
  | nil =>
    obtain rfl := List.length_eq_zero_iff.mp len.symm
    simp
  | cons g gs ih =>
    cases hs with
    | nil => cases len
    | cons k hs =>
      have low : g < 10 ^ 3 := left g List.mem_cons_self
      have high : k < 10 ^ 3 := right k List.mem_cons_self
      have rest := ih (Nat.succ.inj len) (fun x inside => left x (List.mem_cons_of_mem g inside))
        (fun x inside => right x (List.mem_cons_of_mem k inside))
      simp only [grouped]
      by_cases first : (g :: gs).all (· = 0) = true
      · by_cases second : (k :: hs).all (· = 0) = true
        · rw [if_pos first,if_pos second,zeros_eq len first second]
          exact iff_of_false (List.lt_irrefl _) (List.lt_irrefl _)
        · rw [if_pos first,if_neg second]
          exact iff_of_true (utc_lt_digits 2 k _) (zeros_lt len first (by simpa using second))
      · by_cases second : (k :: hs).all (· = 0) = true
        · rw [if_neg first,if_pos second]
          exact iff_of_false (List.lt_asymm (utc_lt_digits 2 g _))
            (List.lt_asymm (zeros_lt len.symm second (by simpa using first)))
        · rw [if_neg first,if_neg second,append_lt_append_iff (by simp),digits_lt low high,digits_inj low high,rest,
            List.cons_lt_cons_iff]

private theorem fraction_grouped {nano : Nat} (some : nano ≠ 0) :
    fraction nano ++ utc = '.' :: grouped [nano / 1000000,nano / 1000 % 1000,nano % 1000] := by
  have cut (n : Nat) : digits 3 (n % 1000) = digits 3 n := digits_mod 3 n
  have six (n : Nat) : digits 6 n = digits 3 (n / 1000) ++ digits 3 n := digits_add 3 3 n
  have nine : digits 9 nano = digits 3 (nano / 1000000) ++ (digits 3 (nano / 1000) ++ digits 3 nano) := by
    have last : digits 9 nano = digits 6 (nano / 1000) ++ digits 3 nano := digits_add 6 3 nano
    rw [last,six,List.append_assoc,Nat.div_div_eq_div_mul]
  unfold fraction
  rw [if_neg some]
  split
  next millis =>
    have middle : nano / 1000 % 1000 = 0 := by omega
    have last : nano % 1000 = 0 := by omega
    have front : nano / 1000000 ≠ 0 := by omega
    simp [grouped,middle,last,front]
  next =>
    split
    next micros =>
      have middle : nano / 1000 % 1000 ≠ 0 := by omega
      simp only [grouped,List.all_cons,List.all_nil,decide_eq_true_eq,Bool.and_eq_true,middle,micros,
        false_and,and_false,if_false,decide_true,Bool.true_and,if_true,List.cons_append]
      rw [six,cut,List.append_assoc,Nat.div_div_eq_div_mul]
    next =>
      have last : nano % 1000 ≠ 0 := by assumption
      simp only [grouped,List.all_cons,List.all_nil,decide_eq_true_eq,Bool.and_eq_true,last,
        false_and,and_false,if_false,List.cons_append]
      rw [nine,cut,cut]
      simp

theorem fraction_lt {m n : Nat} (left : m < 1000000000) (right : n < 1000000000) :
    fraction m ++ utc < fraction n ++ utc ↔ m < n := by
  have start (rest : List Char) : utc < '.' :: rest := List.cons_lt_cons_iff.mpr (Or.inl (by decide))
  by_cases first : m = 0
  · rw [first]
    by_cases second : n = 0
    · rw [second]
      exact iff_of_false (List.lt_irrefl _) (Nat.lt_irrefl _)
    · rw [fraction_grouped second]
      exact iff_of_true (start _) (Nat.pos_of_ne_zero second)
  · rw [fraction_grouped first]
    by_cases second : n = 0
    · rw [second]
      exact iff_of_false (List.lt_asymm (start _)) (Nat.not_lt_zero _)
    · have groups {x : Nat} (short : x < 1000000000) : ∀ g ∈ [x / 1000000,x / 1000 % 1000,x % 1000], g < 1000 := by
        simp only [List.mem_cons,List.not_mem_nil,or_false,forall_eq_or_imp,forall_eq]
        omega
      have point : ¬ '.' < '.' := by decide
      rw [fraction_grouped second,List.cons_lt_cons_iff,grouped_lt (by simp) (groups left) (groups right)]
      simp only [point,false_or,true_and,List.cons_lt_cons_iff,List.lt_irrefl,and_false,or_false]
      omega

def oneSecond : Nat := 1000000000

def dayLength : Nat := 86400 * oneSecond

def dayOf (instant : Nat) : Nat := instant / dayLength

def clockText (instant : Nat) : List Char := timeText (instant / oneSecond % 86400)

def rfc3339 (instant : Nat) : String :=
  String.ofList (dateText (dateOf (dayOf instant)) ++ 'T' :: (clockText instant ++ (fraction (instant % oneSecond) ++ utc)))

def datetime (instant : Nat) : Option String :=
  if (dateOf (dayOf instant)).year < 10000 then
    some (String.ofList (dateText (dateOf (dayOf instant)) ++ ' ' :: clockText instant))
  else none

theorem dateText_inj {m n : Nat} (left : (dateOf m).year < 10000) (right : (dateOf n).year < 10000) :
    dateText (dateOf m) = dateText (dateOf n) ↔ m = n := by
  constructor
  · intro same
    have forward := (dateText_dateOf left right).not.mp (same ▸ List.lt_irrefl _)
    have backward := (dateText_dateOf right left).not.mp (same ▸ List.lt_irrefl _)
    omega
  · rintro rfl
    rfl

theorem timeText_inj {m n : Nat} (left : m < 86400) (right : n < 86400) : timeText m = timeText n ↔ m = n := by
  constructor
  · intro same
    have forward := (timeText_lt left right).not.mp (same ▸ List.lt_irrefl _)
    have backward := (timeText_lt right left).not.mp (same ▸ List.lt_irrefl _)
    omega
  · rintro rfl
    rfl

theorem rfc3339_lt {a b : Nat} (left : (dateOf (dayOf a)).year < 10000) (right : (dateOf (dayOf b)).year < 10000) :
    rfc3339 a < rfc3339 b ↔ a < b := by
  have lengths : (dateText (dateOf (dayOf a))).length = (dateText (dateOf (dayOf b))).length := by
    rw [length_dateText left,length_dateText right]
  have clocks (n : Nat) : n / oneSecond % 86400 < 86400 := Nat.mod_lt _ (by decide)
  have nanos (n : Nat) : n % oneSecond < 1000000000 := Nat.mod_lt _ (by decide)
  rw [rfc3339,rfc3339,String.lt_iff,String.toList_ofList,String.toList_ofList,append_lt_append_iff lengths,
    dateText_dateOf left right,dateText_inj left right,List.cons_lt_cons_iff,clockText,clockText,
    append_lt_append_iff (by simp),timeText_lt (clocks a) (clocks b),timeText_inj (clocks a) (clocks b),
    fraction_lt (nanos a) (nanos b)]
  have mark : ¬ 'T' < 'T' := by decide
  simp only [mark,false_or,true_and]
  unfold dayOf dayLength oneSecond
  omega

theorem datetime_lt_rfc3339 {now instant : Nat} {text : String} (clock : datetime now = some text)
    (right : (dateOf (dayOf instant)).year < 10000) : text < rfc3339 instant ↔ dayOf now ≤ dayOf instant := by
  unfold datetime at clock
  split at clock
  next left =>
    cases clock
    have lengths : (dateText (dateOf (dayOf now))).length = (dateText (dateOf (dayOf instant))).length := by
      rw [length_dateText left,length_dateText right]
    rw [rfc3339,String.lt_iff,String.toList_ofList,String.toList_ofList,append_lt_append_iff lengths,
      dateText_dateOf left right,dateText_inj left right,List.cons_lt_cons_iff]
    have space : ' ' < 'T' := by decide
    simp only [space,true_or,and_true]
    omega
  next => cases clock

end Ecphoria.Library
