import Mathlib.Data.List.Basic

/-! Rings over an ordered map: from a point, the first entry clockwise, around the end when
none is left. Entries that one ring has and a larger one keeps are found alike in both. -/
namespace Ecphoria.Library

section
variable {κ α : Type} [Ord κ] [Std.TransOrd κ] [Std.LawfulEqOrd κ]

/-- `range(point..).next()`, or else the first entry of all. -/
def clockwise (ring : Std.TreeMap κ α) (point : κ) : Option (κ × α) :=
  (ring.toList.find? (fun entry => (compare point entry.1).isLE)).or ring.toList.head?

theorem find?_ascending {entries : List (κ × α)} {p : κ × α → Bool}
    (ascending : entries.Pairwise (fun a b => compare a.1 b.1 = .lt)) (entry : κ × α) :
    entries.find? p = some entry ↔
      entry ∈ entries ∧ p entry = true ∧ ∀ other ∈ entries, p other = true → (compare entry.1 other.1).isLE := by
  induction entries with
  | nil => simp
  | cons first rest ih =>
    obtain ⟨below,ascending⟩ := List.pairwise_cons.mp ascending
    by_cases chosen : p first = true
    · rw [List.find?_cons_of_pos chosen]
      constructor
      · intro found
        cases found
        refine ⟨List.mem_cons_self,chosen,?_⟩
        intro other inside _
        rcases List.mem_cons.mp inside with rfl | later
        · simp [Std.ReflCmp.compare_self]
        · simp [below other later]
      · intro given
        obtain ⟨inside,_,least⟩ := given
        rcases List.mem_cons.mp inside with rfl | later
        · rfl
        · have before := below entry later
          have after := least first List.mem_cons_self chosen
          have swapped : compare entry.1 first.1 = (compare first.1 entry.1).swap := Std.OrientedCmp.eq_swap
          rw [swapped,before] at after
          cases after
    · rw [List.find?_cons_of_neg chosen,ih ascending]
      constructor
      · intro given
        obtain ⟨inside,qualifies,least⟩ := given
        refine ⟨List.mem_cons_of_mem first inside,qualifies,?_⟩
        intro other listed fits
        rcases List.mem_cons.mp listed with rfl | later
        · exact absurd fits chosen
        · exact least other later fits
      · intro given
        obtain ⟨inside,qualifies,least⟩ := given
        rcases List.mem_cons.mp inside with rfl | later
        · exact absurd qualifies chosen
        · exact ⟨later,qualifies,fun other listed => least other (List.mem_cons_of_mem first listed)⟩

theorem find?_toList_iff (ring : Std.TreeMap κ α) (p : κ × α → Bool) (entry : κ × α) :
    ring.toList.find? p = some entry ↔ ring[entry.1]? = some entry.2 ∧ p entry = true ∧
      ∀ other, ring[other.1]? = some other.2 → p other = true → (compare entry.1 other.1).isLE := by
  rw [find?_ascending Std.TreeMap.ordered_keys_toList]
  simp only [← Std.TreeMap.mem_toList_iff_getElem?_eq_some]

private theorem find?_toList_of_smaller {small large : Std.TreeMap κ α} {p : κ × α → Bool} {entry : κ × α}
    (byKey : ∀ a b : κ × α, a.1 = b.1 → p a = p b) (points : ∀ (k : κ) a, small[k]? = some a → ∃ b, large[k]? = some b)
    (found : large.toList.find? p = some entry) (kept : small[entry.1]? = some entry.2) :
    small.toList.find? p = some entry := by
  obtain ⟨_,qualifies,least⟩ := (find?_toList_iff large p entry).mp found
  refine (find?_toList_iff small p entry).mpr ⟨kept,qualifies,?_⟩
  intro other inside fits
  obtain ⟨value,there⟩ := points other.1 other.2 inside
  exact least (other.1,value) there ((byKey (other.1,value) other rfl).trans fits)

theorem clockwise_of_smaller {small large : Std.TreeMap κ α} {point : κ} {entry : κ × α}
    (points : ∀ (k : κ) a, small[k]? = some a → ∃ b, large[k]? = some b) (found : clockwise large point = some entry)
    (kept : small[entry.1]? = some entry.2) : clockwise small point = some entry := by
  have first (ring : Std.TreeMap κ α) : ring.toList.head? = ring.toList.find? (fun _ => true) := by
    cases ring.toList with
    | nil => rfl
    | cons _ _ => rfl
  rw [clockwise,Option.or_eq_some_iff] at found ⊢
  rcases found with ahead | ⟨none,around⟩
  · exact Or.inl (find?_toList_of_smaller (by intro a b same; simp [same]) points ahead kept)
  · refine Or.inr ⟨?_,?_⟩
    · rw [List.find?_eq_none] at none ⊢
      intro other inside
      obtain ⟨value,there⟩ := points other.1 other.2 (Std.TreeMap.mem_toList_iff_getElem?_eq_some.mp inside)
      exact none (other.1,value) (Std.TreeMap.mem_toList_iff_getElem?_eq_some.mpr there)
    · rw [first] at around ⊢
      exact find?_toList_of_smaller (by intros; rfl) points around kept

theorem clockwise_mem {ring : Std.TreeMap κ α} {point : κ} {entry : κ × α}
    (found : clockwise ring point = some entry) : ring[entry.1]? = some entry.2 := by
  rw [clockwise,Option.or_eq_some_iff] at found
  rw [← Std.TreeMap.mem_toList_iff_getElem?_eq_some]
  rcases found with ahead | ⟨_,around⟩
  · exact List.mem_of_find?_eq_some ahead
  · exact List.mem_of_head? around

theorem clockwise_isSome {ring : Std.TreeMap κ α} {k : κ} {value : α} (there : ring[k]? = some value) (point : κ) :
    ∃ entry, clockwise ring point = some entry := by
  have listed := Std.TreeMap.mem_toList_iff_getElem?_eq_some.mpr there
  cases entries : ring.toList with
  | nil =>
    rw [entries] at listed
    cases listed
  | cons first rest =>
    refine Option.isSome_iff_exists.mp ?_
    simp [clockwise,entries]

theorem clockwise_here {ring : Std.TreeMap κ α} {k : κ} {value : α} (there : ring[k]? = some value) :
    clockwise ring k = some (k,value) := by
  have first : ring.toList.find? (fun entry => (compare k entry.1).isLE) = some (k,value) :=
    (find?_toList_iff ring _ (k,value)).mpr ⟨there,by simp [Std.ReflCmp.compare_self],fun _ _ ahead => ahead⟩
  rw [clockwise,first,Option.some_or]

end

end Ecphoria.Library
