import Mathlib.Data.List.Nodup
import Mathlib.Data.List.Count

/-! Entries numbered by how many equal ones stand in front of them, as a counter kept for each entry numbers them. -/
namespace Ecphoria.Library

section
variable {α : Type} [DecidableEq α]

def countUp (used : α → Nat) (a : α) : α → Nat := fun b => if b = a then used b + 1 else used b

def numberedFrom (used : α → Nat) : List α → List (α × Nat)
  | [] => []
  | a :: rest => (a,used a) :: numberedFrom (countUp used a) rest

theorem countUp_add_count (used : α → Nat) (a b : α) (rest : List α) :
    countUp used a b + rest.count b = used b + (a :: rest).count b := by
  rw [countUp,List.count_cons]
  by_cases same : b = a
  · subst same
    simp only [if_true,beq_self_eq_true]
    omega
  · rw [if_neg same,if_neg (by simpa using Ne.symm same),Nat.add_zero]

theorem mem_numberedFrom {used : α → Nat} {items : List α} {a : α} {n : Nat} :
    (a,n) ∈ numberedFrom used items ↔ used a ≤ n ∧ n < used a + items.count a := by
  induction items generalizing used with
  | nil => simp [numberedFrom]
  | cons b rest ih =>
    rw [numberedFrom,List.mem_cons,ih,countUp_add_count,countUp,Prod.mk.injEq]
    by_cases same : a = b
    · subst same
      rw [if_pos rfl,List.count_cons_self]
      constructor
      · rintro (⟨_,rfl⟩ | ⟨low,high⟩)
        · exact ⟨Nat.le_refl _,by omega⟩
        · exact ⟨by omega,high⟩
      · rintro ⟨low,high⟩
        by_cases first : n = used a
        · exact .inl ⟨rfl,first⟩
        · exact .inr ⟨by omega,high⟩
    · rw [if_neg same]
      exact ⟨fun either => either.resolve_left (fun here => same here.1),.inr⟩

theorem nodup_numberedFrom (used : α → Nat) (items : List α) : (numberedFrom used items).Nodup := by
  induction items generalizing used with
  | nil => exact List.nodup_nil
  | cons a rest ih =>
    refine List.nodup_cons.mpr ⟨?_,ih _⟩
    intro later
    have low := (mem_numberedFrom.mp later).1
    rw [countUp,if_pos rfl] at low
    omega

/-- Names made of an entry and its number are distinct exactly if none of a number is the name of an entry that is not
numbered. -/
theorem nodup_names_iff {β : Type} {name : α → Nat → β} {items : List α}
    (plain : ∀ a b, name a 0 = name b 0 → a = b) (numbered : ∀ a b k l, 0 < k → 0 < l → name a k = name b l → a = b ∧ k = l) :
    ((numberedFrom (fun _ => 0) items).map (fun entry => name entry.1 entry.2)).Nodup ↔
      ∀ a ∈ items, ∀ b ∈ items, ∀ k, 0 < k → k < items.count b → name a 0 ≠ name b k := by
  have listed {a : α} {n : Nat} : (a,n) ∈ numberedFrom (fun _ => 0) items ↔ n < items.count a := by
    rw [mem_numberedFrom]
    simp
  rw [List.nodup_map_iff_inj_on (nodup_numberedFrom _ _)]
  constructor
  · intro apart a inA b _ k positive below same
    have equal := apart (a,0) (listed.mpr (List.count_pos_iff.mpr inA)) (b,k) (listed.mpr below) same
    exact absurd (Prod.mk.inj equal).2 (Nat.ne_of_lt positive)
  · rintro apart ⟨a,n⟩ inA ⟨b,k⟩ inB same
    have below := listed.mp inA
    have other := listed.mp inB
    have member : a ∈ items := List.count_pos_iff.mp (Nat.lt_of_le_of_lt (Nat.zero_le n) below)
    have member' : b ∈ items := List.count_pos_iff.mp (Nat.lt_of_le_of_lt (Nat.zero_le k) other)
    rcases Nat.eq_zero_or_pos n with rfl | first
    · rcases Nat.eq_zero_or_pos k with rfl | second
      · rw [plain a b same]
      · exact absurd same (apart a member b member' k second other)
    · rcases Nat.eq_zero_or_pos k with rfl | second
      · exact absurd same.symm (apart b member' a member n first below)
      · obtain ⟨rfl,rfl⟩ := numbered a b n k first second same
        rfl

/-- A relation to what is made of each item and its number holds throughout exactly if it holds at each place. -/
theorem forall₂_numbered_iff {ι β : Type} {related : ι → β → Prop} {key : ι → α} {make : ι → Nat → β} (used : α → Nat)
    (items : List ι) :
    List.Forall₂ related items (items.zipWith (fun i entry => make i entry.2) (numberedFrom used (items.map key))) ↔
      ∀ before i after, items = before ++ i :: after → related i (make i (used (key i) + (before.map key).count (key i))) := by
  induction items generalizing used with
  | nil => exact iff_of_true .nil (fun before i after whole => absurd whole (by simp))
  | cons i items ih =>
    rw [List.map_cons,numberedFrom,List.zipWith_cons_cons,List.forall₂_cons,ih]
    constructor
    · rintro ⟨first,rest⟩ before j after whole
      cases before with
      | nil =>
        obtain ⟨rfl,_⟩ := List.cons.inj whole
        exact first
      | cons head before =>
        obtain ⟨rfl,split⟩ := List.cons.inj whole
        rw [List.map_cons,← countUp_add_count]
        exact rest before j after split
    · intro all
      refine ⟨all [] i items rfl,fun before j after split => ?_⟩
      have later := all (i :: before) j after (by rw [split]; rfl)
      rwa [List.map_cons,← countUp_add_count] at later

end
end Ecphoria.Library
