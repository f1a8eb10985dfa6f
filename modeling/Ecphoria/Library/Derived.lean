import Ecphoria.Library.Table

/-! An index kept beside a table by hand. It follows the table when it holds, under every
key, what a view makes of the row there. Each statement on the table has the change
of the index that keeps it so: a written row is written through, and the keys of
rows that are deleted or emptied are forgotten. -/
namespace Ecphoria.Library

section
variable {α β κ : Type} {key : α → κ} [DecidableEq κ] {t : Table α key} {view : Option α → β} {index after : κ → β}

/-- The index holds under each key the view of the row with that key, or of there being none. -/
def Follows (t : Table α key) (view : Option α → β) (index : κ → β) : Prop := ∀ k, index k = view (t.find k)

theorem Follows.upsert (follows : Follows t view index) (a : α) (own : after (key a) = view (some a))
    (kept : ∀ k, k ≠ key a → after k = index k) : Follows (t.upsert a) view after := by
  intro k
  rw [Table.find_upsert]
  by_cases same : key a = k
  · subst same
    rw [if_pos rfl]
    exact own
  · rw [if_neg same,kept k (Ne.symm same)]
    exact follows k

theorem Follows.forget_delete (follows : Follows t view index) {p : α → Bool} (ids : List κ)
    (chosen : ∀ r ∈ t.rows, p r = true ↔ key r ∈ ids)
    (forgotten : ∀ k, after k = if k ∈ ids then view none else index k) : Follows (t.delete p) view after := by
  intro k
  rw [forgotten,Table.find_delete_where,follows k]
  cases found : t.find k with
  | none => exact ite_self _
  | some r =>
    obtain ⟨inside,rfl⟩ := (t.find_eq_some k r).mp found
    by_cases listed : key r ∈ ids
    · simp [listed,Option.filter_some,(chosen r inside).mpr listed]
    · have spared : p r = false := Bool.eq_false_iff.mpr (fun gone => listed ((chosen r inside).mp gone))
      simp [listed,Option.filter_some,spared]

theorem Follows.forget_update (follows : Follows t view index) {p : α → Bool} {f : α → α}
    (same : ∀ r, key (f r) = key r) (ids : List κ) (listed : ∀ r ∈ t.rows, p r = true → key r ∈ ids)
    (emptied : ∀ r ∈ t.rows, key r ∈ ids → view (some (if p r then f r else r)) = view none)
    (forgotten : ∀ k, after k = if k ∈ ids then view none else index k) : Follows (t.update p f same) view after := by
  intro k
  rw [forgotten,Table.find_update,follows k]
  cases found : t.find k with
  | none => exact ite_self _
  | some r =>
    obtain ⟨inside,rfl⟩ := (t.find_eq_some k r).mp found
    by_cases covered : key r ∈ ids
    · rw [if_pos covered,Option.map_some,emptied r inside covered]
    · have spared : p r = false := Bool.eq_false_iff.mpr (fun changed => covered (listed r inside changed))
      simp [covered,spared]

end

end Ecphoria.Library
