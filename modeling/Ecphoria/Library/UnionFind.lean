import Mathlib.Data.Finset.Card
import Mathlib.Logic.Relation
import Mathlib.Order.Interval.Finset.Nat

/-! Parent arrays of a union-find structure: what is joined, when every climb ends,
and what path halving and the union of two roots do to either. -/
namespace Ecphoria.Library.UnionFind

theorem eqvGen_lift {A B : Type} {r : A → A → Prop} {s : B → B → Prop} (f : A → B)
    (carried : ∀ a b, r a b → Relation.EqvGen s (f a) (f b)) {a b : A} (joined : Relation.EqvGen r a b) :
    Relation.EqvGen s (f a) (f b) := by
  induction joined with
  | rel a b related => exact carried a b related
  | refl a => exact .refl _
  | symm a b _ ih => exact .symm _ _ ih
  | trans a b c _ _ left right => exact .trans _ _ _ left right

section
variable {A : Type} {r : A → A → Prop}

theorem eqvGen_pair {s : A → A → Prop} {c d a b : A} (same : ∀ y z, Relation.EqvGen s y z ↔ Relation.EqvGen r y z)
    (left : Relation.EqvGen s c a) (right : Relation.EqvGen s d b) (y z : A) :
    Relation.EqvGen (fun u v => s u v ∨ (u = a ∧ v = b)) y z ↔
      Relation.EqvGen (fun u v => r u v ∨ (u = c ∧ v = d)) y z := by
  have more {t : A → A → Prop} {e f u v : A} (joined : Relation.EqvGen t u v) :
      Relation.EqvGen (fun u v => t u v ∨ (u = e ∧ v = f)) u v :=
    Relation.EqvGen.mono (fun _ _ related => Or.inl related) u v joined
  refine ⟨Relation.EqvGen.eqvGen_le ?_ y z,Relation.EqvGen.eqvGen_le ?_ y z⟩
  · rintro u v (related | ⟨rfl,rfl⟩)
    · exact more ((same u v).mp (.rel _ _ related))
    · have first := more (e := c) (f := d) ((same c u).mp left)
      have last := more (e := c) (f := d) ((same d v).mp right)
      exact .trans _ _ _ (.symm _ _ first) (.trans _ _ _ (.rel _ _ (Or.inr ⟨rfl,rfl⟩)) last)
  · rintro u v (related | ⟨rfl,rfl⟩)
    · exact more ((same u v).mpr (.rel _ _ related))
    · have first := more (e := a) (f := b) left
      have last := more (e := a) (f := b) right
      exact .trans _ _ _ first (.trans _ _ _ (.rel _ _ (Or.inr ⟨rfl,rfl⟩)) (.symm _ _ last))

theorem eqvGen_known {a b : A} (joined : Relation.EqvGen r a b) (y z : A) :
    Relation.EqvGen (fun u v => r u v ∨ (u = a ∧ v = b)) y z ↔ Relation.EqvGen r y z := by
  refine ⟨Relation.EqvGen.eqvGen_le ?_ y z,Relation.EqvGen.mono (fun _ _ related => Or.inl related) y z⟩
  rintro u v (related | ⟨rfl,rfl⟩)
  · exact .rel _ _ related
  · exact joined

end

/-- `p` is the parent of `x`; a root is its own parent. -/
def Link (parent : List Nat) (x p : Nat) : Prop := parent[x]? = some p

abbrev Joined (parent : List Nat) : Nat → Nat → Prop := Relation.EqvGen (Link parent)

def Ranked (parent : List Nat) (rank : Nat → Nat) : Prop :=
  ∀ x p, Link parent x p → p < parent.length ∧ (p ≠ x → rank x < rank p)

theorem link_set {parent : List Nat} {x q y p : Nat} (place : x < parent.length) :
    Link (parent.set x q) y p ↔ if y = x then p = q else Link parent y p := by
  unfold Link
  by_cases same : y = x
  · subst same
    rw [if_pos rfl,List.getElem?_set_self place,Option.some_inj]
    exact eq_comm
  · rw [if_neg same,List.getElem?_set_ne (Ne.symm same)]

theorem link_place {parent : List Nat} {x p : Nat} (link : Link parent x p) : x < parent.length := by
  obtain ⟨place,_⟩ := List.getElem?_eq_some_iff.mp link
  exact place

theorem link_unique {parent : List Nat} {x p q : Nat} (first : Link parent x p) (second : Link parent x q) : p = q :=
  Option.some.inj (first.symm.trans second)

theorem exists_link {parent : List Nat} {x : Nat} (place : x < parent.length) : ∃ p, Link parent x p :=
  ⟨parent[x],List.getElem?_eq_getElem place⟩

section
variable {parent : List Nat} {rank : Nat → Nat} {x p g : Nat}

/-- How many places stand higher than `x`. -/
def above (parent : List Nat) (rank : Nat → Nat) (x : Nat) : Nat :=
  ((Finset.range parent.length).filter (fun y => rank x < rank y)).card

theorem above_le : above parent rank x ≤ parent.length := by
  have all := Finset.card_filter_le (Finset.range parent.length) (fun y => rank x < rank y)
  rwa [Finset.card_range] at all

theorem above_lt {y : Nat} (place : y < parent.length) (rises : rank x < rank y) :
    above parent rank y < above parent rank x := by
  apply Finset.card_lt_card
  refine ⟨?_,?_⟩
  · intro z higher
    obtain ⟨inside,higher⟩ := Finset.mem_filter.mp higher
    exact Finset.mem_filter.mpr ⟨inside,rises.trans higher⟩
  · intro subset
    have itself := subset (Finset.mem_filter.mpr ⟨Finset.mem_range.mpr place,rises⟩)
    exact absurd (Finset.mem_filter.mp itself).2 (lt_irrefl _)

theorem Ranked.halve (ranked : Ranked parent rank) (up : Link parent x p) (moved : p ≠ x) (again : Link parent p g) :
    Ranked (parent.set x g) rank := by
  have higher := (ranked x p up).2 moved
  intro y q link
  rw [List.length_set]
  rw [link_set (link_place up)] at link
  split at link
  next same =>
    subst same link
    refine ⟨(ranked p q again).1,fun _ => ?_⟩
    by_cases top : q = p
    · rw [top]
      exact higher
    · exact higher.trans ((ranked p q again).2 top)
  next => exact ranked y q link

theorem joined_halve (up : Link parent x p) (moved : p ≠ x) (again : Link parent p g) (y z : Nat) :
    Joined (parent.set x g) y z ↔ Joined parent y z := by
  have place := link_place up
  refine ⟨?_,?_⟩
  · apply Relation.EqvGen.eqvGen_le
    intro a b link
    rw [link_set place] at link
    split at link
    next same =>
      subst same link
      exact .trans _ _ _ (.rel _ _ up) (.rel _ _ again)
    next => exact .rel _ _ link
  · apply Relation.EqvGen.eqvGen_le
    intro a b link
    by_cases same : a = x
    · subst same
      obtain rfl := link_unique up link
      have first : Link (parent.set a g) a g := (link_set place).mpr (by rw [if_pos rfl])
      have second : Link (parent.set a g) p g := (link_set place).mpr (by rw [if_neg moved]; exact again)
      exact .trans _ _ _ (.rel _ _ first) (.symm _ _ (.rel _ _ second))
    · exact .rel _ _ ((link_set place).mpr (by rw [if_neg same]; exact link))

theorem root_halve (up : Link parent x p) (moved : p ≠ x) {c : Nat} (root : Link parent c c) :
    Link (parent.set x g) c c := by
  have other : c ≠ x := by
    rintro rfl
    exact moved (link_unique up root)
  exact (link_set (link_place up)).mpr (by rw [if_neg other]; exact root)

/-- The ranks once `b` stands above all that `a` stood above. -/
private def raise (rank : Nat → Nat) (a b y : Nat) : Nat := if y = b then max (rank a) (rank b) + 1 else rank y

theorem Ranked.attach {a b : Nat} (ranked : Ranked parent rank) (left : Link parent a a) (right : Link parent b b)
    (apart : a ≠ b) : ∃ raised, Ranked (parent.set a b) raised := by
  refine ⟨raise rank a b,?_⟩
  intro y q link
  rw [List.length_set]
  rw [link_set (link_place left)] at link
  split at link
  next same =>
    subst same link
    refine ⟨link_place right,fun _ => ?_⟩
    rw [raise,if_neg apart,raise,if_pos rfl]
    omega
  next other =>
    obtain ⟨place,rises⟩ := ranked y q link
    refine ⟨place,fun moved => ?_⟩
    have lower : y ≠ b := by
      rintro rfl
      exact moved (link_unique link right)
    have step := rises moved
    rw [raise,if_neg lower,raise]
    split
    next top =>
      subst top
      omega
    next => exact step

theorem joined_attach {a b : Nat} (left : Link parent a a) (y z : Nat) :
    Joined (parent.set a b) y z ↔ Relation.EqvGen (fun u v => Link parent u v ∨ (u = a ∧ v = b)) y z := by
  have place := link_place left
  refine ⟨Relation.EqvGen.eqvGen_le ?_ y z,Relation.EqvGen.eqvGen_le ?_ y z⟩
  · intro u v link
    rw [link_set place] at link
    split at link
    next same => exact .rel _ _ (Or.inr ⟨same,link⟩)
    next => exact .rel _ _ (Or.inl link)
  · rintro u v (link | ⟨same,target⟩)
    · by_cases same : u = a
      · subst same
        rw [← link_unique left link]
        exact .refl _
      · exact .rel _ _ ((link_set place).mpr (by rw [if_neg same]; exact link))
    · exact .rel _ _ ((link_set place).mpr (by rw [if_pos same]; exact target))

/-- The climb from `x` comes to the root `c`. -/
private def Climbs (parent : List Nat) (x c : Nat) : Prop := Relation.ReflTransGen (Link parent) x c

private theorem climbs_link {c : Nat} (root : Link parent c c) (up : Link parent x p) :
    Climbs parent x c ↔ Climbs parent p c := by
  refine ⟨?_,fun climbs => .head up climbs⟩
  intro climbs
  rcases climbs.cases_head with rfl | ⟨q,first,rest⟩
  · rw [← link_unique root up]
    exact .refl
  · rw [link_unique up first]
    exact rest

theorem root_unique {c d : Nat} (left : Link parent c c) (right : Link parent d d) (joined : Joined parent c d) :
    c = d := by
  have same (x y : Nat) (joined : Joined parent x y) : Climbs parent x d ↔ Climbs parent y d := by
    induction joined with
    | rel x y up => exact climbs_link right up
    | refl x => rfl
    | symm x y _ ih => exact ih.symm
    | trans x y z _ _ first second => exact first.trans second
  have climbs := (same c d joined).mpr .refl
  have stays (y : Nat) (climbs : Climbs parent c y) : y = c := by
    induction climbs with
    | refl => rfl
    | tail _ up ih =>
      subst ih
      exact (link_unique left up).symm
  exact (stays d climbs).symm

end

end Ecphoria.Library.UnionFind
