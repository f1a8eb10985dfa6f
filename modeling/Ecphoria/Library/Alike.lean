import Ecphoria.Library.Table

/-! Two tables that agree on what a view keeps of each row, as the copies of one table do
when each writes its own clock. A statement keeps them alike when the view decides
which rows it picks and what it keeps of the rows it leaves. -/
namespace Ecphoria.Library
namespace Table

section
variable {α β κ : Type} {key : α → κ} [DecidableEq κ] {view : α → β} {t u v : Table α key}

def Alike (view : α → β) (t u : Table α key) : Prop := ∀ k, (t.find k).map view = (u.find k).map view

theorem Alike.refl (view : α → β) (t : Table α key) : t.Alike view t := fun _ => rfl

theorem Alike.symm (alike : t.Alike view u) : u.Alike view t := fun k => (alike k).symm

theorem Alike.trans (first : t.Alike view u) (second : u.Alike view v) : t.Alike view v :=
  fun k => (first k).trans (second k)

theorem Alike.map {γ : Type} (alike : t.Alike view u) {f : α → γ} (g : β → γ) (through : ∀ r, f r = g (view r)) (k : κ) :
    (t.find k).map f = (u.find k).map f := by
  have same : f = g ∘ view := funext through
  rw [same,← Option.map_map,← Option.map_map,alike k]

theorem Alike.keys_iff (alike : t.Alike view u) (k : κ) : k ∈ t.keys ↔ k ∈ u.keys := by
  have none : t.find k = none ↔ u.find k = none := by
    rw [← Option.map_eq_none_iff,alike k,Option.map_eq_none_iff]
  rw [find_eq_none,find_eq_none] at none
  exact not_iff_not.mp none

theorem Alike.upsert (alike : t.Alike view u) {a b : α} (key_eq : key a = key b) (same : view a = view b) :
    (t.upsert a).Alike view (u.upsert b) := by
  intro k
  rw [find_upsert,find_upsert,← key_eq]
  split
  next => exact congrArg some same
  next => exact alike k

theorem Alike.insertIgnore (alike : t.Alike view u) {a b : α} (key_eq : key a = key b) (same : view a = view b) :
    (t.insertIgnore a).Alike view (u.insertIgnore b) := by
  have known : key a ∈ t.keys ↔ key b ∈ u.keys := key_eq ▸ alike.keys_iff (key a)
  by_cases stored : key b ∈ u.keys
  · rw [insertIgnore_known t a (known.mpr stored),insertIgnore_known u b stored]
    exact alike
  · rw [Table.insertIgnore,Table.insertIgnore,if_neg (mt known.mp stored),if_neg stored]
    exact alike.upsert key_eq same

theorem Alike.delete (alike : t.Alike view u) (gone : κ) :
    (t.delete (fun r => key r = gone)).Alike view (u.delete (fun r => key r = gone)) := by
  intro k
  rw [find_delete,find_delete]
  split
  next => rfl
  next => exact alike k

theorem Alike.update (alike : t.Alike view u) {p : α → Bool} {f g : α → α} {kept : ∀ r, key (f r) = key r}
    {kept' : ∀ r, key (g r) = key r} (picks : ∀ r s, view r = view s → p r = p s)
    (same : ∀ r s, view r = view s → view (f r) = view (g s)) :
    (t.update p f kept).Alike view (u.update p g kept') := by
  intro k
  rw [find_update,find_update,Option.map_map,Option.map_map]
  have here := alike k
  cases left : t.find k with
  | none =>
    rw [left] at here
    rw [Option.map_eq_none_iff.mp here.symm]
    rfl
  | some r =>
    rw [left] at here
    obtain ⟨s,right,matched⟩ := Option.map_eq_some_iff.mp here.symm
    rw [right]
    refine congrArg some ?_
    change view (if p r then f r else r) = view (if p s then g s else s)
    rw [picks r s matched.symm]
    split
    next => exact same r s matched.symm
    next => exact matched.symm

end

end Table
end Ecphoria.Library
