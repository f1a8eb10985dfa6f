import Mathlib.Data.List.Sort
import Mathlib.Data.List.Forall2

/-! The first element of a stable insertion sort, as a query with an order reads its best
row: of two elements that are alike the earlier one stays first. -/
namespace Ecphoria.Library

section
variable {α : Type} (r : α → α → Prop) [DecidableRel r]

def firstOf (a : α) : Option α → α
  | none => a
  | some b => if r a b then a else b

theorem head?_insertionSort_cons (a : α) (items : List α) :
    ((a :: items).insertionSort r).head? = some (firstOf r a (items.insertionSort r).head?) := by
  rw [List.insertionSort_cons]
  cases items.insertionSort r with
  | nil => rfl
  | cons b rest =>
    rw [List.orderedInsert_cons,List.head?_cons,firstOf]
    split
    next => rfl
    next => rfl

variable {r} in
theorem head?_insertionSort_append (total : ∀ a b, r a b ∨ r b a) (trans : ∀ a b c, r a b → r b c → r a c)
    (items : List α) (x : α) :
    ((items ++ [x]).insertionSort r).head? =
      match (items.insertionSort r).head? with
      | none => some x
      | some a => if r a x then some a else some x := by
  induction items with
  | nil => rfl
  | cons a items ih =>
    rw [List.cons_append,head?_insertionSort_cons,ih,head?_insertionSort_cons]
    cases (items.insertionSort r).head? with
    | none => by_cases whole : r a x <;> simp [firstOf,whole]
    | some h =>
      by_cases left : r a h
      · by_cases later : r h x
        · simp [firstOf,left,later,trans a h x left later]
        · by_cases whole : r a x <;> simp [firstOf,left,later,whole]
      · by_cases later : r h x
        · simp [firstOf,left,later]
        · have below : r x h := (total h x).resolve_left later
          have whole : ¬r a x := fun above => left (trans a x h above below)
          simp [firstOf,left,later,whole]

variable {r} in
theorem forall₂_insertionSort {s : α → α → Prop} [DecidableRel s] {R : α → α → Prop}
    (same : ∀ a b a' b', R a a' → R b b' → (r a b ↔ s a' b')) {items items' : List α} (related : List.Forall₂ R items items') :
    List.Forall₂ R (items.insertionSort r) (items'.insertionSort s) := by
  have inserted {a a' : α} (first : R a a') {sorted sorted' : List α} (rest : List.Forall₂ R sorted sorted') :
      List.Forall₂ R (sorted.orderedInsert r a) (sorted'.orderedInsert s a') := by
    induction rest with
    | nil => exact .cons first .nil
    | @cons b b' tail tail' here later ih =>
      rw [List.orderedInsert_cons,List.orderedInsert_cons]
      by_cases before : r a b
      · rw [if_pos before,if_pos ((same a b a' b' first here).mp before)]
        exact .cons first (.cons here later)
      · rw [if_neg before,if_neg (fun swapped => before ((same a b a' b' first here).mpr swapped))]
        exact .cons here ih
  induction related with
  | nil => exact .nil
  | cons first _ ih =>
    rw [List.insertionSort_cons,List.insertionSort_cons]
    exact inserted first ih

variable {r} in
theorem insertionSort_congr {s : α → α → Prop} [DecidableRel s] {items : List α}
    (same : ∀ a ∈ items, ∀ b ∈ items, (r a b ↔ s a b)) : items.insertionSort r = items.insertionSort s := by
  have related : List.Forall₂ (fun a b => a = b ∧ a ∈ items) items items :=
    List.forall₂_same.mpr (fun a inside => ⟨rfl,inside⟩)
  have sorted := forall₂_insertionSort (r := r) (s := s) (R := fun a b => a = b ∧ a ∈ items) (by
    rintro a b _ _ ⟨rfl,left⟩ ⟨rfl,right⟩
    exact same a left b right) related
  exact List.forall₂_eq_eq_eq ▸ sorted.imp (fun _ _ given => given.1)

variable {r} in
private theorem takeWhile_sorted (trans : ∀ a b c, r a b → r b c → r a c) (a : α) {sorted : List α}
    (inOrder : sorted.Pairwise r) :
    sorted.takeWhile (fun x => ¬r a x) = sorted.filter (fun x => ¬r a x) := by
  induction sorted with
  | nil => rfl
  | cons x rest ih =>
    obtain ⟨first,later⟩ := List.pairwise_cons.mp inOrder
    rw [List.takeWhile_cons,List.filter_cons,ih later]
    by_cases reached : r a x
    · have beyond : rest.filter (fun y => ¬r a y) = [] := by
        rw [List.filter_eq_nil_iff]
        intro y inside
        simpa using trans a x y reached (first y inside)
      simp only [reached,beyond,not_true,decide_false,Bool.false_eq_true,if_false]
    · simp only [reached,not_false_eq_true,decide_true,if_true]

variable {r} in
private theorem orderedInsert_ahead {b a : α} (ahead behind : List α) (goes : r b a) :
    (ahead ++ a :: behind).orderedInsert r b = ahead.orderedInsert r b ++ a :: behind := by
  induction ahead with
  | nil => simp [goes]
  | cons x rest ih =>
    rw [List.cons_append,List.orderedInsert_cons,List.orderedInsert_cons]
    split
    next => rfl
    next => rw [ih,List.cons_append]

variable {r} in
private theorem orderedInsert_behind {b a : α} (ahead behind : List α) (stays : ¬r b a)
    (passed : ∀ x ∈ ahead, ¬r b x) :
    (ahead ++ a :: behind).orderedInsert r b = ahead ++ a :: behind.orderedInsert r b := by
  induction ahead with
  | nil => simp [stays]
  | cons x rest ih =>
    rw [List.cons_append,List.orderedInsert_cons,if_neg (passed x List.mem_cons_self),
      ih (fun y inside => passed y (List.mem_cons_of_mem x inside)),List.cons_append]

variable {r} in
theorem insertionSort_split (total : ∀ a b, r a b ∨ r b a) (trans : ∀ a b c, r a b → r b c → r a c)
    (before after : List α) (a : α) :
    ∃ ahead behind, (before ++ a :: after).insertionSort r = ahead ++ a :: behind ∧
      (∀ x ∈ ahead, r x a) ∧
      ahead.length = before.countP (fun x => r x a) + after.countP (fun x => ¬r a x) := by
  have : Std.Total r := ⟨total⟩
  have : IsTrans α r := ⟨trans⟩
  induction before with
  | nil =>
    have chosen := takeWhile_sorted trans a (List.pairwise_insertionSort r after)
    refine ⟨(after.insertionSort r).takeWhile (fun x => ¬r a x),(after.insertionSort r).dropWhile (fun x => ¬r a x),?_,?_,?_⟩
    · rw [List.nil_append,List.insertionSort_cons,List.orderedInsert_eq_take_drop]
    · intro x inside
      rw [chosen] at inside
      have worse : ¬r a x := by simpa using (List.mem_filter.mp inside).2
      exact (total a x).resolve_left worse
    · rw [chosen,← List.countP_eq_length_filter,(List.perm_insertionSort r after).countP_eq,List.countP_nil,Nat.zero_add]
  | cons b before ih =>
    obtain ⟨ahead,behind,sorted,better,standing⟩ := ih
    rw [List.cons_append,List.insertionSort_cons,sorted,List.countP_cons]
    by_cases goes : r b a
    · refine ⟨ahead.orderedInsert r b,behind,orderedInsert_ahead ahead behind goes,?_,?_⟩
      · intro x inside
        rcases List.mem_orderedInsert r |>.mp inside with rfl | old
        · exact goes
        · exact better x old
      · rw [List.orderedInsert_length,standing]
        simp only [goes,decide_true,if_true]
        omega
    · have passed : ∀ x ∈ ahead, ¬r b x := fun x inside reached => goes (trans b x a reached (better x inside))
      refine ⟨ahead,behind.orderedInsert r b,orderedInsert_behind ahead behind goes passed,better,?_⟩
      simp only [goes,decide_false,standing]
      simp

/-- How many elements a stable sort puts before the one with the key of `a`. -/
def standing {κ : Type} [DecidableEq κ] (key : α → κ) (items : List α) (a : α) : Nat :=
  (items.takeWhile (fun x => key x ≠ key a)).countP (fun x => r x a) +
    (items.dropWhile (fun x => key x ≠ key a)).countP (fun x => ¬r a x)

variable {r} in
theorem mem_drop_insertionSort {κ : Type} [DecidableEq κ] {key : α → κ} (total : ∀ a b, r a b ∨ r b a)
    (trans : ∀ a b c, r a b → r b c → r a c) {items : List α} (distinct : (items.map key).Nodup) {a : α}
    (member : a ∈ items) (k : Nat) :
    a ∈ (items.insertionSort r).drop k ↔ k ≤ standing r key items a := by
  obtain ⟨before,after,rfl⟩ := List.append_of_mem member
  obtain ⟨ahead,behind,sorted,_,length⟩ := insertionSort_split total trans before after a
  have once : ((ahead ++ a :: behind).map key).Nodup := by
    rw [← sorted]
    exact ((List.perm_insertionSort r _).map key).nodup_iff.mpr distinct
  have behindApart : a ∉ behind := by
    rw [List.map_append,List.map_cons] at once
    exact fun inside => (List.nodup_cons.mp (List.nodup_append.mp once).2.1).1 (List.mem_map_of_mem inside)
  have earlier : ∀ x ∈ before, decide (key x ≠ key a) = true := by
    rw [List.map_append,List.map_cons] at distinct
    intro x inside
    exact decide_eq_true ((List.nodup_append.mp distinct).2.2 _ (List.mem_map_of_mem inside) _ List.mem_cons_self)
  have place : standing r key (before ++ a :: after) a = ahead.length := by
    have self : r a a := (total a a).elim id id
    rw [standing,List.takeWhile_append_of_pos earlier,List.dropWhile_append_of_pos earlier,length]
    simp [self]
  rw [place,sorted,List.drop_append,List.mem_append]
  constructor
  · intro dropped
    by_contra short
    obtain ⟨n,past⟩ : ∃ n, k - ahead.length = n + 1 := ⟨k - ahead.length - 1,by omega⟩
    rw [List.drop_of_length_le (by omega),past,List.drop_succ_cons] at dropped
    rcases dropped with dropped | dropped
    · cases dropped
    · exact behindApart (List.mem_of_mem_drop dropped)
  · intro reached
    right
    rw [Nat.sub_eq_zero_of_le reached,List.drop_zero]
    exact List.mem_cons_self

theorem length_filter_keys {κ : Type} [DecidableEq κ] {key : α → κ} {items : List α} (distinct : (items.map key).Nodup)
    {keys : List κ} (once : keys.Nodup) (listed : ∀ k ∈ keys, k ∈ items.map key) :
    (items.filter (fun a => key a ∈ keys)).length = keys.length := by
  have same : ((items.filter (fun a => key a ∈ keys)).map key).Perm keys := by
    refine (List.perm_ext_iff_of_nodup (distinct.sublist (List.filter_sublist.map key)) once).mpr fun k => ?_
    constructor
    · intro inside
      obtain ⟨a,chosen,rfl⟩ := List.mem_map.mp inside
      exact of_decide_eq_true (List.mem_filter.mp chosen).2
    · intro inside
      obtain ⟨a,member,rfl⟩ := List.mem_map.mp (listed k inside)
      exact List.mem_map_of_mem (List.mem_filter.mpr ⟨member,decide_eq_true inside⟩)
  rw [← same.length_eq,List.length_map]

end

end Ecphoria.Library
