import Mathlib.Data.Option.Basic

/-! A shared object with a version that changes with every write. A write that names the version it has read takes effect only
where nothing was written in between, since no version is given out twice. -/
namespace Ecphoria.Library

structure Versioned (α : Type) where
  content : Option (Nat × α)
  next : Nat
  earlier : ∀ entry ∈ content, entry.1 < next

namespace Versioned
variable {α : Type}

def empty : Versioned α := ⟨none,0,by simp⟩

def written (r : Versioned α) (a : α) : Versioned α := ⟨some (r.next,a),r.next + 1,by simp⟩

def create (r : Versioned α) (a : α) : Bool × Versioned α :=
  match r.content with
  | none => (true,r.written a)
  | some _ => (false,r)

/-- A replacement is refused where the object is missing or has another version. -/
def replace (r : Versioned α) (version : Nat) (a : α) : Bool × Versioned α :=
  match r.content with
  | none => (false,r)
  | some entry => if entry.1 = version then (true,r.written a) else (false,r)

def delete (r : Versioned α) : Versioned α := ⟨none,r.next,by simp⟩

@[simp] theorem written_content (r : Versioned α) (a : α) : (r.written a).content = some (r.next,a) := rfl

theorem create_cases (r : Versioned α) (a : α) :
    r.content = none ∧ r.create a = (true,r.written a) ∨ r.content.isSome ∧ r.create a = (false,r) := by
  unfold create
  cases r.content with
  | none => exact .inl ⟨rfl,rfl⟩
  | some entry => exact .inr ⟨rfl,rfl⟩

theorem replace_cases (r : Versioned α) (version : Nat) (a : α) :
    (∃ b,r.content = some (version,b)) ∧ r.replace version a = (true,r.written a) ∨ r.replace version a = (false,r) := by
  unfold replace
  cases r.content with
  | none => exact .inr rfl
  | some entry =>
    by_cases same : entry.1 = version
    · exact .inl ⟨⟨entry.2,by rw [← same]⟩,if_pos same⟩
    · exact .inr (if_neg same)

/-- The entry was read: where its version still stands, so does its value. -/
structure Saw (r : Versioned α) (entry : Nat × α) : Prop where
  past : entry.1 < r.next
  same : ∀ a, r.content = some (entry.1,a) → a = entry.2

theorem Saw.of_content {r : Versioned α} {entry : Nat × α} (found : r.content = some entry) : r.Saw entry where
  past := r.earlier entry found
  same a again := by
    rw [found,Option.some_inj] at again
    rw [again]

theorem Saw.written {r : Versioned α} {entry : Nat × α} (saw : r.Saw entry) (a : α) : (r.written a).Saw entry where
  past := Nat.lt_succ_of_lt saw.past
  same b found := by
    rw [written_content,Option.some_inj,Prod.mk.injEq] at found
    exact absurd found.1.symm (Nat.ne_of_lt saw.past)

theorem Saw.create {r : Versioned α} {entry : Nat × α} (saw : r.Saw entry) (a : α) : (r.create a).2.Saw entry := by
  rcases r.create_cases a with ⟨_,done⟩ | ⟨_,done⟩
  · rw [done]
    exact saw.written a
  · rw [done]
    exact saw

theorem Saw.replace {r : Versioned α} {entry : Nat × α} (saw : r.Saw entry) (version : Nat) (a : α) :
    (r.replace version a).2.Saw entry := by
  rcases r.replace_cases version a with ⟨_,done⟩ | done
  · rw [done]
    exact saw.written a
  · rw [done]
    exact saw

theorem Saw.delete {r : Versioned α} {entry : Nat × α} (saw : r.Saw entry) : r.delete.Saw entry where
  past := saw.past
  same _ found := absurd found.symm (Option.some_ne_none _)

theorem Saw.replaced {r : Versioned α} {entry : Nat × α} (saw : r.Saw entry) {a : α}
    (done : (r.replace entry.1 a).1 = true) : r.content = some entry ∧ (r.replace entry.1 a).2 = r.written a := by
  rcases r.replace_cases entry.1 a with ⟨⟨b,found⟩,result⟩ | result
  · exact ⟨by rw [found,saw.same b found],by rw [result]⟩
  · rw [result] at done
    cases done

end Versioned

end Ecphoria.Library
