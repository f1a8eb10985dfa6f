import Mathlib.Data.List.Nodup
import Mathlib.Data.List.Sort
import Mathlib.Order.Basic

/-! The nearest elements of a set, some of which are one's own. Own elements that are picked out of the nearest of all
are the nearest of the own ones exactly where others do not crowd them out. -/
namespace Ecphoria.Library

variable {κ D : Type} [LinearOrder D] (dist : κ → D)

/-- An answer of the `n` nearest elements, nearest first. -/
structure Nearest (all : List κ) (n : Nat) (answer : List κ) : Prop where
  distinct : answer.Nodup
  stored : ∀ x ∈ answer, x ∈ all
  count : answer.length = min n all.length
  ascending : answer.Pairwise (fun a b => dist a ≤ dist b)
  nearest : ∀ x ∈ answer, ∀ y ∈ all, y ∉ answer → dist x ≤ dist y

section
variable (own : κ → Bool) (all : List κ)

def nearby (e : κ) : Nat := (all.filter (fun x => !own x && decide (dist x ≤ dist e))).length

/-- The own elements near which there is room for `count` of them among the `window` nearest of all. -/
def uncrowded (count window : Nat) : List κ :=
  all.filter (fun e => own e && decide (nearby dist own all e + count ≤ window))

/-- Nearer elements first, and those of others before own ones at the same distance. -/
def othersFirst (a b : κ) : Prop := dist a < dist b ∨ dist a = dist b ∧ (own a = true → own b = true)

instance : DecidableRel (othersFirst dist own) := fun a b =>
  inferInstanceAs (Decidable (dist a < dist b ∨ dist a = dist b ∧ (own a = true → own b = true)))

end

variable {dist} {own : κ → Bool} {all answer : List κ} {k m : Nat}

theorem length_le_of_subset {a b : List κ} (distinct : a.Nodup) (inside : ∀ x ∈ a, x ∈ b) : a.length ≤ b.length :=
  (List.subperm_of_subset distinct inside).length_le

theorem length_own_others (own : κ → Bool) (items : List κ) :
    items.length = (items.filter own).length + (items.filter (fun x => !own x)).length := by
  have parts := List.length_eq_countP_add_countP own (l := items)
  rw [List.countP_eq_length_filter,List.countP_eq_length_filter] at parts
  rw [parts]
  simp

theorem nearby_mono {a b : κ} (nearer : dist a ≤ dist b) : nearby dist own all a ≤ nearby dist own all b := by
  unfold nearby
  rw [← List.countP_eq_length_filter,← List.countP_eq_length_filter]
  refine List.countP_mono_left ?_
  intro x _ near
  simp only [Bool.and_eq_true,decide_eq_true_eq] at near ⊢
  exact ⟨near.1,near.2.trans nearer⟩

theorem Nearest.filter (near : Nearest dist all m answer)
    (enough : min k (all.filter own).length ≤ (answer.filter own).length) :
    Nearest dist (all.filter own) k ((answer.filter own).take k) := by
  have once := near.distinct.filter own
  have fewer : (answer.filter own).length ≤ (all.filter own).length := by
    refine length_le_of_subset once ?_
    intro x inside
    obtain ⟨listed,mine⟩ := List.mem_filter.mp inside
    exact List.mem_filter.mpr ⟨near.stored x listed,mine⟩
  refine ⟨once.sublist (List.take_sublist k _),?_,?_,?_,?_⟩
  · intro x inside
    obtain ⟨listed,mine⟩ := List.mem_filter.mp (List.mem_of_mem_take inside)
    exact List.mem_filter.mpr ⟨near.stored x listed,mine⟩
  · rw [List.length_take]
    omega
  · exact near.ascending.sublist ((List.take_sublist k _).trans List.filter_sublist)
  · intro x inside y mine absent
    obtain ⟨there,own_y⟩ := List.mem_filter.mp mine
    by_cases listed : y ∈ answer
    · have split := List.take_append_drop k (answer.filter own)
      have later : y ∈ (answer.filter own).drop k := by
        have among : y ∈ (answer.filter own).take k ++ (answer.filter own).drop k := by
          rw [split]
          exact List.mem_filter.mpr ⟨listed,own_y⟩
        exact (List.mem_append.mp among).resolve_left absent
      have sorted := near.ascending.sublist (List.filter_sublist (p := own))
      rw [← split] at sorted
      exact (List.pairwise_append.mp sorted).2.2 x inside y later
    · exact near.nearest x (List.mem_filter.mp (List.mem_of_mem_take inside)).1 y there listed

theorem enough_of_uncrowded (distinct : all.Nodup) (fits : m ≤ all.length) (near : Nearest dist all m answer)
    {count : Nat} (room : count ≤ (uncrowded dist own all count m).length) : count ≤ (answer.filter own).length := by
  by_contra short
  obtain ⟨e,inside,absent⟩ : ∃ e ∈ uncrowded dist own all count m, e ∉ answer := by
    by_contra all_in
    push Not at all_in
    have within : (uncrowded dist own all count m).length ≤ (answer.filter own).length := by
      refine length_le_of_subset (distinct.filter _) ?_
      intro x inside
      have mine := (List.mem_filter.mp inside).2
      simp only [Bool.and_eq_true] at mine
      exact List.mem_filter.mpr ⟨all_in x inside,mine.1⟩
    omega
  obtain ⟨there,mine⟩ := List.mem_filter.mp inside
  simp only [Bool.and_eq_true,decide_eq_true_eq] at mine
  -- every element of others in the answer is at most as far as the one that is left out
  have others : (answer.filter (fun x => !own x)).length ≤ nearby dist own all e := by
    refine length_le_of_subset (near.distinct.filter _) ?_
    intro x listed
    obtain ⟨answered,foreign⟩ := List.mem_filter.mp listed
    refine List.mem_filter.mpr ⟨near.stored x answered,?_⟩
    simpa [foreign] using near.nearest x answered e there absent
  have size := length_own_others own answer
  rw [near.count,Nat.min_eq_left fits] at size
  omega

section
variable (dist own all)

theorem othersFirst_total (a b : κ) : othersFirst dist own a b ∨ othersFirst dist own b a := by
  unfold othersFirst
  rcases lt_trichotomy (dist a) (dist b) with less | same | more
  · exact Or.inl (Or.inl less)
  · cases mine : own a with
    | false => exact Or.inl (Or.inr ⟨same,nofun⟩)
    | true => exact Or.inr (Or.inr ⟨same.symm,fun _ => rfl⟩)
  · exact Or.inr (Or.inl more)

theorem othersFirst_trans (a b c : κ) (first : othersFirst dist own a b) (second : othersFirst dist own b c) :
    othersFirst dist own a c := by
  rcases first with less | ⟨same,mine⟩
  · rcases second with more | ⟨equal,_⟩
    · exact Or.inl (less.trans more)
    · exact Or.inl (equal ▸ less)
  · rcases second with more | ⟨equal,yours⟩
    · exact Or.inl (same ▸ more)
    · exact Or.inr ⟨same.trans equal,fun own_a => yours (mine own_a)⟩

def crowdedAnswer (m : Nat) : List κ := (all.insertionSort (othersFirst dist own)).take m

theorem othersFirst_sorted : (all.insertionSort (othersFirst dist own)).Pairwise (othersFirst dist own) := by
  have : Std.Total (othersFirst dist own) := ⟨othersFirst_total dist own⟩
  have : IsTrans κ (othersFirst dist own) := ⟨othersFirst_trans dist own⟩
  exact List.pairwise_insertionSort (othersFirst dist own) all

end

theorem othersFirst_dist {a b : κ} (first : othersFirst dist own a b) : dist a ≤ dist b := by
  rcases first with less | ⟨same,_⟩
  · exact less.le
  · exact same.le

theorem crowdedAnswer_nearest (dist : κ → D) (own : κ → Bool) (distinct : all.Nodup) (m : Nat) :
    Nearest dist all m (crowdedAnswer dist own all m) := by
  have sorted := othersFirst_sorted dist own all
  have whole := List.take_append_drop m (all.insertionSort (othersFirst dist own))
  refine ⟨?_,?_,?_,?_,?_⟩
  · exact ((List.perm_insertionSort _ all).nodup_iff.mpr distinct).sublist (List.take_sublist m _)
  · exact fun x inside => (List.mem_insertionSort _).mp (List.mem_of_mem_take inside)
  · rw [crowdedAnswer,List.length_take,List.length_insertionSort]
  · exact (sorted.imp othersFirst_dist).sublist (List.take_sublist m _)
  · intro x inside y there absent
    have later : y ∈ (all.insertionSort (othersFirst dist own)).drop m := by
      have among := (List.mem_insertionSort (othersFirst dist own)).mpr there
      rw [← whole] at among
      exact (List.mem_append.mp among).resolve_left absent
    rw [← whole] at sorted
    exact othersFirst_dist ((List.pairwise_append.mp sorted).2.2 x inside y later)

theorem nearby_le_before (distinct : all.Nodup) {before after : List κ} {e : κ}
    (cut : crowdedAnswer dist own all m = before ++ e :: after) (mine : own e = true) :
    nearby dist own all e ≤ (before.filter (fun x => !own x)).length := by
  have sorted := othersFirst_sorted dist own all
  have whole := List.take_append_drop m (all.insertionSort (othersFirst dist own))
  rw [show (all.insertionSort (othersFirst dist own)).take m = before ++ e :: after from cut] at whole
  rw [← whole,List.append_assoc] at sorted
  refine length_le_of_subset (distinct.filter _) ?_
  intro x inside
  obtain ⟨there,near⟩ := List.mem_filter.mp inside
  simp only [Bool.and_eq_true,Bool.not_eq_true',decide_eq_true_eq] at near
  refine List.mem_filter.mpr ⟨?_,by simpa using near.1⟩
  have among := (List.mem_insertionSort (othersFirst dist own)).mpr there
  rw [← whole,List.append_assoc,List.cons_append] at among
  rcases List.mem_append.mp among with early | late
  · exact early
  · rcases List.mem_cons.mp late with rfl | later
    · rw [mine] at near
      cases near.1
    · have behind := (List.pairwise_cons.mp (List.pairwise_append.mp sorted).2.1).1 x later
      rcases behind with less | ⟨_,yours⟩
      · exact absurd near.2 (not_le.mpr less)
      · have own_x := yours mine
        rw [near.1] at own_x
        cases own_x

theorem uncrowded_of_enough (distinct : all.Nodup) {count : Nat}
    (enough : count ≤ ((crowdedAnswer dist own all m).filter own).length) :
    count ≤ (uncrowded dist own all count m).length := by
  cases count with
  | zero => exact Nat.zero_le _
  | succ i =>
    have near := crowdedAnswer_nearest dist own distinct m
    obtain ⟨first,e,rest,parts,place⟩ : ∃ first e rest,
        (crowdedAnswer dist own all m).filter own = first ++ e :: rest ∧ first.length = i := by
      refine ⟨_,_,_,(List.take_append_drop i _).symm.trans (by rw [List.drop_eq_getElem_cons enough]),?_⟩
      rw [List.length_take]
      omega
    obtain ⟨ahead,behind,cut,own_ahead,here⟩ := List.filter_eq_append_iff.mp parts
    obtain ⟨skipped,after,rfl,others,mine,_⟩ := List.filter_eq_cons_iff.mp here
    rw [← List.append_assoc] at cut
    have own_before : (ahead ++ skipped).filter own = first := by
      rw [List.filter_append,own_ahead,List.filter_eq_nil_iff.mpr others,List.append_nil]
    -- the window holds the own elements up to this one and all elements of others near it
    have crowd := nearby_le_before distinct cut mine
    have size := near.count
    have before := length_own_others own (ahead ++ skipped)
    rw [own_before,place] at before
    rw [cut,List.length_append,List.length_cons] at size
    have room : nearby dist own all e + (i + 1) ≤ m := by omega
    have ascending := near.ascending
    rw [cut] at ascending
    have within : (first ++ [e]).length ≤ (uncrowded dist own all (i + 1) m).length := by
      refine length_le_of_subset ?_ ?_
      · refine (near.distinct.filter own).sublist ?_
        rw [parts]
        exact List.Sublist.append_left (List.singleton_sublist.mpr List.mem_cons_self) first
      · intro x inside
        have listed : x ∈ (crowdedAnswer dist own all m).filter own := by
          rw [parts]
          exact (List.Sublist.append_left (List.singleton_sublist.mpr List.mem_cons_self) first).subset inside
        obtain ⟨answered,own_x⟩ := List.mem_filter.mp listed
        have nearer : dist x ≤ dist e := by
          rcases List.mem_append.mp inside with early | last
          · rw [← own_before] at early
            exact (List.pairwise_append.mp ascending).2.2 x (List.mem_of_mem_filter early) e List.mem_cons_self
          · rw [List.mem_singleton.mp last]
        have fewer : nearby dist own all x ≤ nearby dist own all e := nearby_mono nearer
        refine List.mem_filter.mpr ⟨near.stored x answered,?_⟩
        simp only [own_x,Bool.true_and,decide_eq_true_eq]
        omega
    rw [List.length_append,place,List.length_singleton] at within
    exact within

/-- The own elements among the nearest of all are the nearest own ones, whatever the order of equal distances,
exactly where as many as are asked for are not crowded out. -/
theorem nearest_filter_iff (distinct : all.Nodup) (fits : m ≤ all.length) :
    (∀ answer, Nearest dist all m answer → Nearest dist (all.filter own) k ((answer.filter own).take k)) ↔
      min k (all.filter own).length ≤ (uncrowded dist own all (min k (all.filter own).length) m).length := by
  constructor
  · intro exact_all
    have exact_one := (exact_all _ (crowdedAnswer_nearest dist own distinct m)).count
    rw [List.length_take] at exact_one
    exact uncrowded_of_enough distinct (by omega)
  · intro room answer near
    exact near.filter (enough_of_uncrowded distinct fits near room)

end Ecphoria.Library
