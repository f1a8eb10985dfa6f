import Ecphoria.Library.Calendar

/-! The calendar from the year 0 on. Dates are counted from its first day, so that instants before the epoch have
their text too; texts with years of four digits sort as the instants do. -/
namespace Ecphoria.Library

def civil : Nat → Date
  | 0 => ⟨0,1,1⟩
  | n + 1 => (civil n).next

theorem civil_before {m n : Nat} (less : m < n) : (civil m).Before (civil n) := by
  induction n with
  | zero => cases less
  | succ n ih =>
    rcases Nat.lt_succ_iff_lt_or_eq.mp less with earlier | rfl
    · exact (ih earlier).trans (civil n).before_next
    · exact (civil m).before_next

theorem civil_bounds (n : Nat) : (civil n).month ≤ 12 ∧ (civil n).day ≤ 31 := by
  induction n with
  | zero => decide
  | succ n ih =>
    have most := daysIn_le (civil n).year (civil n).month
    simp only [civil,Date.next]
    split
    next room => exact ⟨ih.1,Nat.le_trans room most⟩
    next =>
      split
      next more => exact ⟨more,by simp⟩
      next => exact ⟨by simp,by simp⟩

theorem dateText_civil_lt {m n : Nat} (left : (civil m).year < 10000) (right : (civil n).year < 10000) :
    dateText (civil m) < dateText (civil n) ↔ m < n := by
  rw [dateText_lt left right (civil_bounds m) (civil_bounds n)]
  constructor
  · intro before
    by_contra late
    rcases Nat.lt_or_eq_of_le (Nat.not_lt.mp late) with after | rfl
    · have back := civil_before after
      unfold Date.Before at *
      omega
    · unfold Date.Before at *
      omega
  · exact civil_before

theorem dateText_civil_inj {m n : Nat} (left : (civil m).year < 10000) (right : (civil n).year < 10000) :
    dateText (civil m) = dateText (civil n) ↔ m = n := by
  constructor
  · intro same
    have forward := (dateText_civil_lt left right).not.mp (same ▸ List.lt_irrefl _)
    have backward := (dateText_civil_lt right left).not.mp (same ▸ List.lt_irrefl _)
    omega
  · rintro rfl
    rfl

def epochDays : Nat := 719528

def dayNumber (instant : Int) : Int := instant / dayLength + epochDays

def FourDigitYear (instant : Int) : Prop := 0 ≤ dayNumber instant ∧ (civil (dayNumber instant).toNat).year < 10000

/-- `DateTime<Utc>::to_rfc3339`, for the years from 0 on. -/
def toRfc3339 (instant : Int) : String :=
  String.ofList (dateText (civil (dayNumber instant).toNat) ++ 'T' ::
    (timeText (instant / oneSecond % 86400).toNat ++ (fraction (instant % oneSecond).toNat ++ utc)))

theorem toRfc3339_lt {a b : Int} (left : FourDigitYear a) (right : FourDigitYear b) :
    toRfc3339 a < toRfc3339 b ↔ a < b := by
  have lengths : (dateText (civil (dayNumber a).toNat)).length = (dateText (civil (dayNumber b).toNat)).length := by
    rw [length_dateText left.2,length_dateText right.2]
  have second (t : Int) : (t / oneSecond % 86400).toNat < 86400 := by omega
  have nano (t : Int) : (t % oneSecond).toNat < 1000000000 := by
    unfold oneSecond
    omega
  rw [toRfc3339,toRfc3339,String.lt_iff,String.toList_ofList,String.toList_ofList,append_lt_append_iff lengths,
    dateText_civil_lt left.2 right.2,dateText_civil_inj left.2 right.2,List.cons_lt_cons_iff,
    append_lt_append_iff (by simp),timeText_lt (second a) (second b),timeText_inj (second a) (second b),
    fraction_lt (nano a) (nano b)]
  have mark : ¬ 'T' < 'T' := by decide
  have start := left.1
  have start' := right.1
  simp only [mark,false_or,true_and]
  unfold dayNumber dayLength oneSecond at *
  omega

end Ecphoria.Library
