import Mathlib.Data.List.Nodup

/-! The weighted edges the graph algorithms read, and the table of their nodes. -/
namespace Ecphoria.Graph

/-- A `(src, dst, weight)` triple. -/
abbrev Edge (W : Type) := String × String × W

variable {W : Type}

/-- `seen.insert(n)`, pushing what it had not seen. -/
def push (out : List String) (n : String) : List String := if n ∈ out then out else out ++ [n]

def nodes (edges : List (Edge W)) : List String :=
  edges.foldl (fun out (s,d,_) => push (push out s) d) []

/-- The map from a node to its place; looking up what is not there panics. -/
def idx (nodes : List String) (name : String) : Option (Fin nodes.length) := nodes.finIdxOf? name

private theorem mem_push (out : List String) (n m : String) : m ∈ push out n ↔ m ∈ out ∨ m = n := by
  unfold push
  split
  next known =>
    refine (or_iff_left_of_imp ?_).symm
    rintro rfl
    exact known
  next => simp

private theorem nodup_push (out : List String) (n : String) (distinct : out.Nodup) : (push out n).Nodup := by
  unfold push
  split
  next => exact distinct
  next fresh => exact distinct.append (List.nodup_singleton _) (List.disjoint_singleton.mpr fresh)

theorem mem_nodes (edges : List (Edge W)) (m : String) :
    m ∈ nodes edges ↔ ∃ edge ∈ edges, m = edge.1 ∨ m = edge.2.1 := by
  have all (edges : List (Edge W)) (out : List String) :
      m ∈ edges.foldl (fun out (s,d,_) => push (push out s) d) out ↔
        m ∈ out ∨ ∃ edge ∈ edges, m = edge.1 ∨ m = edge.2.1 := by
    induction edges generalizing out with
    | nil => simp
    | cons edge edges ih =>
      rw [List.foldl_cons,ih,mem_push,mem_push]
      simp [or_assoc]
  simpa [nodes] using all edges []

theorem nodup_nodes (edges : List (Edge W)) : (nodes edges).Nodup := by
  have all (edges : List (Edge W)) (out : List String) (distinct : out.Nodup) :
      (edges.foldl (fun out (s,d,_) => push (push out s) d) out).Nodup := by
    induction edges generalizing out with
    | nil => exact distinct
    | cons edge edges ih => exact ih _ (nodup_push _ _ (nodup_push _ _ distinct))
  exact all edges [] List.nodup_nil

theorem idx_of_mem (names : List String) (name : String) (listed : name ∈ names) :
    ∃ i, idx names name = some i ∧ names.get i = name := by
  cases found : idx names name with
  | none => exact absurd listed (List.finIdxOf?_eq_none_iff.mp found)
  | some i => exact ⟨i,rfl,(List.finIdxOf?_eq_some_iff.mp found).1⟩

theorem idx_endpoints (edges : List (Edge W)) (edge : Edge W) (listed : edge ∈ edges) :
    (∃ i, idx (nodes edges) edge.1 = some i ∧ (nodes edges).get i = edge.1) ∧
      ∃ j, idx (nodes edges) edge.2.1 = some j ∧ (nodes edges).get j = edge.2.1 :=
  ⟨idx_of_mem _ _ ((mem_nodes edges _).mpr ⟨edge,listed,Or.inl rfl⟩),
    idx_of_mem _ _ ((mem_nodes edges _).mpr ⟨edge,listed,Or.inr rfl⟩)⟩

end Ecphoria.Graph
