import Ecphoria.Library.Sorted
import Mathlib.Data.List.Nodup
import Mathlib.Data.List.Range

/-! Paging through the rows of a query with an order. Each page is a query of its own, in which rows that are alike come
in any order; no offset goes beyond a cap. -/
namespace Ecphoria.Library

/-- How a query orders its rows: by the order asked for, and beyond it as it likes. -/
structure QueryOrder {α : Type} (r : α → α → Prop) where
  sort : List α → List α
  perm : ∀ items, (sort items).Perm items
  sorted : ∀ items, (sort items).Pairwise r

def pageOf {α : Type} (limit offset : Nat) (rows : List α) : List α := (rows.drop offset).take limit

def Once {α : Type} (a : α) (rows : List α) : Prop := ∃ ahead behind, rows = ahead ++ a :: behind ∧ a ∉ ahead ∧ a ∉ behind

/-- The pages up to the first empty one contain each row that is wanted exactly once. -/
def EachOnce {α : Type} (pages : Nat → List α) (wanted : List α) : Prop :=
  ∃ n, pages n = [] ∧ (∀ i < n, pages i ≠ []) ∧ ∀ a ∈ wanted, Once a ((List.range n).flatMap pages)

section
variable {α : Type} (r : α → α → Prop) [DecidableRel r]

def rowsBefore (items : List α) (a : α) : Nat := items.countP (fun b => ¬r a b)

def rowsUpTo (items : List α) (a : α) : Nat := items.countP (fun b => r b a)

/-- The places that a row may have, by the rows alike to it, are on one page. -/
def OnOnePage (limit : Nat) (items : List α) (a : α) : Prop :=
  rowsBefore r items a / limit = (rowsUpTo r items a - 1) / limit

instance (limit : Nat) (items : List α) (a : α) : Decidable (OnOnePage r limit items a) :=
  inferInstanceAs (Decidable (_ = _))

def QueryOrder.stable (total : ∀ a b, r a b ∨ r b a) (trans : ∀ a b c, r a b → r b c → r a c) : QueryOrder r where
  sort items := items.insertionSort r
  perm := List.perm_insertionSort r
  sorted items :=
    have : Std.Total r := ⟨total⟩
    have : IsTrans α r := ⟨trans⟩
    List.pairwise_insertionSort r items
end

section
variable {α : Type} {r : α → α → Prop} [DecidableRel r]

theorem pageOf_eq_nil_iff {limit offset : Nat} {rows : List α} (positive : 0 < limit) :
    pageOf limit offset rows = [] ↔ rows.length ≤ offset := by
  rw [pageOf,List.take_eq_nil_iff,List.drop_eq_nil_iff]
  exact or_iff_right (Nat.ne_of_gt positive)

theorem mem_pageOf_iff {limit offset place : Nat} {rows : List α} (nodup : rows.Nodup) (bound : place < rows.length) :
    rows[place] ∈ pageOf limit offset rows ↔ offset ≤ place ∧ place < offset + limit := by
  rw [pageOf,List.mem_take_iff_getElem]
  constructor
  · rintro ⟨i,inside,same⟩
    rw [List.getElem_drop,nodup.getElem_inj_iff] at same
    rw [List.length_drop] at inside
    omega
  · rintro ⟨start,stop⟩
    have inside : place - offset < min limit (rows.drop offset).length := by
      rw [List.length_drop]
      omega
    refine ⟨place - offset,inside,?_⟩
    rw [List.getElem_drop]
    exact getElem_congr_idx (by omega)

omit [DecidableRel r] in
theorem Once.apart {a : α} {left right : List α} (once : Once a (left ++ right)) (inside : a ∈ left) : a ∉ right := by
  classical
  obtain ⟨ahead,behind,rows_eq,before,after⟩ := once
  intro again
  have counted := congrArg (List.count a) rows_eq
  rw [List.count_append,List.count_append,List.count_cons_self,List.count_eq_zero.mpr before,
    List.count_eq_zero.mpr after] at counted
  have first := List.count_pos_iff.mpr inside
  have second := List.count_pos_iff.mpr again
  omega

/-- A row that stands once on one page, and on no other, stands once on the pages together. -/
theorem once_flatMap {pages : Nat → List α} {a : α} {n p : Nat} (bound : p < n) (inside : a ∈ pages p)
    (nodup : (pages p).Nodup) (others : ∀ i, i ≠ p → a ∉ pages i) : Once a ((List.range n).flatMap pages) := by
  obtain ⟨earlier,later,numbers⟩ := List.append_of_mem (List.mem_range.mpr bound)
  have apart := numbers ▸ List.nodup_range
  obtain ⟨ahead,behind,page⟩ := List.append_of_mem inside
  rw [List.nodup_append',List.nodup_cons,List.disjoint_cons_right] at apart
  rw [page,List.nodup_append',List.nodup_cons,List.disjoint_cons_right] at nodup
  refine ⟨earlier.flatMap pages ++ ahead,behind ++ later.flatMap pages,by simp [numbers,page],?_,?_⟩
  · intro found
    rcases List.mem_append.mp found with before | here
    · obtain ⟨i,given,listed⟩ := List.mem_flatMap.mp before
      exact others i (fun same => apart.2.2.1 (same ▸ given)) listed
    · exact nodup.2.2.1 here
  · intro found
    rcases List.mem_append.mp found with here | after
    · exact nodup.2.1.1 here
    · obtain ⟨i,given,listed⟩ := List.mem_flatMap.mp after
      exact others i (fun same => apart.2.1.1 (same ▸ given)) listed

theorem Once.one_page {pages : Nat → List α} {a : α} {n p q : Nat} (once : Once a ((List.range n).flatMap pages))
    (order : p < q) (bound : q < n) (first : a ∈ pages p) : a ∉ pages q := by
  obtain ⟨rest,rfl⟩ := Nat.exists_eq_add_of_lt bound
  intro again
  rw [show q + rest + 1 = q + (rest + 1) by omega,List.range_add,List.flatMap_append] at once
  refine once.apart (List.mem_flatMap.mpr ⟨p,List.mem_range.mpr order,first⟩) (List.mem_flatMap.mpr ⟨q,?_,again⟩)
  exact List.mem_map.mpr ⟨0,List.mem_range.mpr (Nat.zero_lt_succ rest),Nat.add_zero q⟩

/-- In a sorted list the place of a row is after those before it in every order, and before those behind it in every
order. -/
theorem place_bounds (total : ∀ a b, r a b ∨ r b a) {rows : List α} (sorted : rows.Pairwise r) {place : Nat}
    (bound : place < rows.length) : rowsBefore r rows rows[place] ≤ place ∧ place < rowsUpTo r rows rows[place] := by
  have parts : rows = rows.take place ++ rows[place] :: rows.drop (place + 1) := by
    rw [← List.drop_eq_getElem_cons bound,List.take_append_drop]
  have self : r rows[place] rows[place] := (total _ _).elim id id
  generalize rows[place] = x at parts self
  have front : (rows.take place).length = place := by
    rw [List.length_take]
    omega
  rw [parts,List.pairwise_append] at sorted
  obtain ⟨-,rest,across⟩ := sorted
  have earlier : ∀ y ∈ rows.take place,r y x := fun y inside => across y inside x List.mem_cons_self
  have later : ∀ y ∈ rows.drop (place + 1),r x y := (List.pairwise_cons.mp rest).1
  constructor
  · have behind : (rows.drop (place + 1)).countP (fun y => ¬r x y) = 0 :=
      List.countP_eq_zero.mpr (fun y inside => by simp [later y inside])
    have most := List.countP_le_length (p := fun y => decide (¬r x y)) (l := rows.take place)
    rw [rowsBefore,parts,List.countP_append,List.countP_cons,behind]
    simp only [self,not_true,decide_false,Bool.false_eq_true,if_false]
    omega
  · have ahead : (rows.take place).countP (fun y => r y x) = (rows.take place).length :=
      List.countP_eq_length.mpr (fun y inside => by simp [earlier y inside])
    rw [rowsUpTo,parts,List.countP_append,List.countP_cons,ahead,front]
    simp only [self,decide_true,if_true]
    omega

theorem exists_order (total : ∀ a b, r a b ∨ r b a) (trans : ∀ a b c, r a b → r b c → r a c) {items rows : List α}
    (perm : rows.Perm items) (sorted : rows.Pairwise r) : ∃ order : QueryOrder r, order.sort items = rows := by
  classical
  let other := QueryOrder.stable r total trans
  refine ⟨⟨fun list => if list = items then rows else other.sort list,?_,?_⟩,if_pos rfl⟩
  · intro list
    split
    next same => exact same ▸ perm
    next => exact other.perm list
  · intro list
    split
    next => exact sorted
    next => exact other.sorted list

/-- In every order the first rows hold a row that, with those before it and those alike to it, finds room there. -/
theorem mem_take_of_upTo (total : ∀ a b, r a b ∨ r b a) {items : List α} {a : α} (inside : a ∈ items) {count : Nat}
    (room : rowsUpTo r items a ≤ count) (order : QueryOrder r) : a ∈ (order.sort items).take count := by
  have perm := order.perm items
  obtain ⟨place,bound,rfl⟩ := List.mem_iff_getElem.mp (perm.mem_iff.mpr inside)
  have placed := (place_bounds total (order.sorted items) bound).2
  have upTo := perm.countP_eq (fun b => decide (r b (order.sort items)[place]))
  unfold rowsUpTo at placed room
  exact List.mem_take_iff_getElem.mpr ⟨place,by omega,rfl⟩

/-- Some order puts a row behind the rows that come before it and any of those that are alike to it. -/
theorem exists_order_at (total : ∀ a b, r a b ∨ r b a) (trans : ∀ a b c, r a b → r b c → r a c) {items before after : List α}
    {a : α} (perm : (before ++ a :: after).Perm items) :
    ∃ order : QueryOrder r, ∃ ahead behind, order.sort items = ahead ++ a :: behind ∧
      ahead.length = before.countP (fun x => r x a) + after.countP (fun x => ¬r a x) := by
  obtain ⟨ahead,behind,sorted,_,length⟩ := insertionSort_split total trans before after a
  have moved : (ahead ++ a :: behind).Perm items := sorted ▸ (List.perm_insertionSort r _).trans perm
  have inOrder : (ahead ++ a :: behind).Pairwise r := sorted ▸ (QueryOrder.stable r total trans).sorted _
  obtain ⟨order,order_eq⟩ := exists_order total trans moved inOrder
  exact ⟨order,ahead,behind,order_eq,length⟩

theorem exists_order_first (total : ∀ a b, r a b ∨ r b a) (trans : ∀ a b c, r a b → r b c → r a c) {items : List α} {a : α}
    (inside : a ∈ items) :
    ∃ order : QueryOrder r, ∃ ahead behind, order.sort items = ahead ++ a :: behind ∧ ahead.length = rowsBefore r items a := by
  classical
  have self : r a a := (total a a).elim id id
  have moved : ([] ++ a :: items.erase a).Perm items := (List.perm_cons_erase inside).symm
  obtain ⟨order,ahead,behind,rows_eq,length⟩ := exists_order_at total trans moved
  refine ⟨order,ahead,behind,rows_eq,?_⟩
  rw [length,rowsBefore,← moved.countP_eq,List.nil_append,List.countP_nil,Nat.zero_add,List.countP_cons]
  simp [self]

theorem exists_order_last (total : ∀ a b, r a b ∨ r b a) (trans : ∀ a b c, r a b → r b c → r a c) {items : List α} {a : α}
    (inside : a ∈ items) :
    ∃ order : QueryOrder r, ∃ ahead behind, order.sort items = ahead ++ a :: behind ∧ ahead.length + 1 = rowsUpTo r items a := by
  classical
  have self : r a a := (total a a).elim id id
  have moved : (items.erase a ++ [a]).Perm items :=
    (List.perm_append_singleton a _).trans (List.perm_cons_erase inside).symm
  obtain ⟨order,ahead,behind,rows_eq,length⟩ := exists_order_at total trans moved
  refine ⟨order,ahead,behind,rows_eq,?_⟩
  rw [length,rowsUpTo,← moved.countP_eq,List.countP_append,List.countP_singleton,List.countP_nil,Nat.add_zero]
  simp [self]

theorem exists_order_behind (total : ∀ a b, r a b ∨ r b a) (trans : ∀ a b c, r a b → r b c → r a c) {items : List α}
    (nodup : items.Nodup) {a : α} (inside : a ∈ items) {count : Nat} (more : count < rowsUpTo r items a) :
    ∃ order : QueryOrder r, a ∉ (order.sort items).take count := by
  obtain ⟨order,ahead,behind,rows_eq,length⟩ := exists_order_last total trans inside
  refine ⟨order,?_⟩
  rw [rows_eq,List.take_append_of_le_length (by omega)]
  intro taken
  have once := (order.perm items).nodup_iff.mpr nodup
  rw [rows_eq] at once
  exact (List.nodup_append'.mp once).2.2 (List.mem_of_mem_take taken) List.mem_cons_self

theorem rowsBefore_lt (total : ∀ a b, r a b ∨ r b a) (trans : ∀ a b c, r a b → r b c → r a c) {items : List α} {a : α}
    (inside : a ∈ items) : rowsBefore r items a < rowsUpTo r items a := by
  let base := QueryOrder.stable r total trans
  have perm := base.perm items
  obtain ⟨place,bound,rfl⟩ := List.mem_iff_getElem.mp (perm.mem_iff.mpr inside)
  have bounds := place_bounds total (base.sorted items) bound
  have before := perm.countP_eq (fun b => decide (¬r (base.sort items)[place] b))
  have upTo := perm.countP_eq (fun b => decide (r b (base.sort items)[place]))
  unfold rowsBefore rowsUpTo at bounds ⊢
  omega

/-- A row whose places are on one page is on that page in every order, and on no other. -/
theorem OnOnePage.mem_iff (total : ∀ a b, r a b ∨ r b a) {items : List α} (nodup : items.Nodup) {limit : Nat}
    (positive : 0 < limit) {a : α} (one : OnOnePage r limit items a) (inside : a ∈ items) (order : QueryOrder r) (i : Nat) :
    a ∈ pageOf limit (i * limit) (order.sort items) ↔ rowsBefore r items a / limit = i := by
  have perm := order.perm items
  obtain ⟨place,bound,rfl⟩ := List.mem_iff_getElem.mp (perm.mem_iff.mpr inside)
  have bounds := place_bounds total (order.sorted items) bound
  have before : rowsBefore r (order.sort items) (order.sort items)[place] = _ := perm.countP_eq _
  have upTo : rowsUpTo r (order.sort items) (order.sort items)[place] = _ := perm.countP_eq _
  rw [before,upTo] at bounds
  have low := Nat.div_le_div_right (c := limit) bounds.1
  have high := Nat.div_le_div_right (c := limit) (Nat.le_sub_one_of_lt bounds.2)
  unfold OnOnePage rowsBefore rowsUpTo at one
  rw [← one] at high
  have at_place : place / limit = rowsBefore r items (order.sort items)[place] / limit := le_antisymm high low
  rw [mem_pageOf_iff (perm.nodup_iff.mpr nodup) bound,← at_place,Nat.div_eq_iff positive]
  constructor <;> intro given <;> constructor <;> omega

omit [DecidableRel r] in
theorem mem_page_at {items ahead behind : List α} {a : α} {order : QueryOrder r} (nodup : items.Nodup) {limit cap : Nat}
    (positive : 0 < limit) (short : items.length ≤ cap) (rows_eq : order.sort items = ahead ++ a :: behind) :
    a ∈ pageOf limit (min (ahead.length / limit * limit) cap) (order.sort items) := by
  have length := (order.perm items).length_eq
  have bound : ahead.length < (order.sort items).length := by simp [rows_eq]
  have here : (order.sort items)[ahead.length] = a := by simp [rows_eq]
  have start := Nat.div_mul_le_self ahead.length limit
  have stop := Nat.lt_div_mul_add (a := ahead.length) positive
  have listed : (order.sort items)[ahead.length] ∈ pageOf limit (ahead.length / limit * limit) (order.sort items) :=
    (mem_pageOf_iff ((order.perm items).nodup_iff.mpr nodup) bound).mpr ⟨start,stop⟩
  rwa [here,← Nat.min_eq_left (show ahead.length / limit * limit ≤ cap by omega)] at listed

/-- A row whose places reach over a page boundary comes twice: first among those alike to it in one query, last in a later
one. -/
theorem not_each_once (total : ∀ a b, r a b ∨ r b a) (trans : ∀ a b c, r a b → r b c → r a c) {items wanted : List α}
    (nodup : items.Nodup) {limit cap : Nat} (positive : 0 < limit) (short : items.length ≤ cap) {a : α} (wants : a ∈ wanted)
    (inside : a ∈ items) (apart : ¬OnOnePage r limit items a) :
    ∃ orders : Nat → QueryOrder r,
      ¬EachOnce (fun i => pageOf limit (min (i * limit) cap) ((orders i).sort items)) wanted := by
  have ordered := rowsBefore_lt total trans inside
  have fewer : rowsBefore r items a / limit < (rowsUpTo r items a - 1) / limit :=
    Nat.lt_of_le_of_ne (Nat.div_le_div_right (by omega)) apart
  obtain ⟨first,front,rest,first_eq,first_place⟩ := exists_order_first total trans inside
  obtain ⟨last,ahead,behind,last_eq,last_place⟩ := exists_order_last total trans inside
  have places : rowsUpTo r items a - 1 = ahead.length := by omega
  rw [← first_place,places] at fewer
  refine ⟨fun i => if i = front.length / limit then first else last,?_⟩
  rintro ⟨n,stops,-,once⟩
  have within : rowsUpTo r items a ≤ items.length := List.countP_le_length
  have ends : items.length ≤ n * limit := by
    rw [pageOf_eq_nil_iff positive,(QueryOrder.perm _ items).length_eq] at stops
    exact stops.trans (Nat.min_le_left _ _)
  have bound : ahead.length / limit < n := by
    rw [Nat.div_lt_iff_lt_mul positive]
    omega
  refine (once a wants).one_page fewer bound ?_ ?_
  · simpa only [if_true] using mem_page_at nodup positive short first_eq
  · simpa only [if_neg (Nat.ne_of_gt fewer)] using mem_page_at nodup positive short last_eq

/-- Paging answers each row that is wanted once, whatever the order of each query, exactly if no row is beyond the cap and
every row that is wanted is listed, its places on one page. -/
theorem each_once_iff (total : ∀ a b, r a b ∨ r b a) (trans : ∀ a b c, r a b → r b c → r a c) {items wanted : List α}
    (nodup : items.Nodup) {limit cap : Nat} (positive : 0 < limit) :
    (∀ orders : Nat → QueryOrder r, EachOnce (fun i => pageOf limit (min (i * limit) cap) ((orders i).sort items)) wanted) ↔
      items.length ≤ cap ∧ ∀ a ∈ wanted, a ∈ items ∧ OnOnePage r limit items a := by
  have ends {i : Nat} {order : QueryOrder r} : pageOf limit (min (i * limit) cap) (order.sort items) = [] ↔
      items.length ≤ min (i * limit) cap := by
    rw [pageOf_eq_nil_iff positive,(order.perm items).length_eq]
  constructor
  · intro once
    have short : items.length ≤ cap := by
      obtain ⟨n,last,-⟩ := once (fun _ => QueryOrder.stable r total trans)
      exact (ends.mp last).trans (Nat.min_le_right _ _)
    refine ⟨short,?_⟩
    intro a wants
    have inside : a ∈ items := by
      obtain ⟨n,-,-,all⟩ := once (fun _ => QueryOrder.stable r total trans)
      obtain ⟨ahead,behind,rows_eq,-⟩ := all a wants
      have listed := rows_eq ▸ List.mem_append_right ahead List.mem_cons_self
      obtain ⟨i,-,here⟩ := List.mem_flatMap.mp listed
      exact ((QueryOrder.stable r total trans).perm items).mem_iff.mp (List.mem_of_mem_drop (List.mem_of_mem_take here))
    refine ⟨inside,?_⟩
    by_contra apart
    obtain ⟨orders,twice⟩ := not_each_once total trans nodup positive short wants inside apart
    exact twice (once orders)
  · rintro ⟨short,listed⟩ orders
    have pages (i : Nat) : i < (items.length + limit - 1) / limit ↔ i * limit < items.length := by
      rw [← Nat.succ_le_iff,Nat.le_div_iff_mul_le positive,Nat.succ_mul]
      omega
    refine ⟨(items.length + limit - 1) / limit,?_,?_,?_⟩
    · have past := (pages ((items.length + limit - 1) / limit)).not.mp (Nat.lt_irrefl _)
      exact ends.mpr (Nat.le_min.mpr ⟨Nat.le_of_not_lt past,short⟩)
    · intro i below full
      have more := (pages i).mp below
      have stopped := (ends.mp full).trans (Nat.min_le_left _ _)
      omega
    · intro a wants
      obtain ⟨inside,one⟩ := listed a wants
      have uncapped (i : Nat) : pageOf limit (min (i * limit) cap) ((orders i).sort items) =
          pageOf limit (i * limit) ((orders i).sort items) := by
        rcases Nat.le_total (i * limit) cap with low | past
        · rw [Nat.min_eq_left low]
        · have length := ((orders i).perm items).length_eq
          rw [Nat.min_eq_right past,(pageOf_eq_nil_iff positive).mpr (by omega),(pageOf_eq_nil_iff positive).mpr (by omega)]
      have placed (i : Nat) : a ∈ pageOf limit (min (i * limit) cap) ((orders i).sort items) ↔
          rowsBefore r items a / limit = i := by
        rw [uncapped]
        exact one.mem_iff total nodup positive inside (orders i) i
      have before := rowsBefore_lt total trans inside
      have within : rowsUpTo r items a ≤ items.length := List.countP_le_length
      refine once_flatMap (p := rowsBefore r items a / limit) ?_ ((placed _).mpr rfl) ?_ ?_
      · rw [pages]
        have start := Nat.div_mul_le_self (rowsBefore r items a) limit
        omega
      · have rows := ((orders (rowsBefore r items a / limit)).perm items).nodup_iff.mpr nodup
        exact rows.sublist ((List.take_sublist _ _).trans (List.drop_sublist _ _))
      · intro i other here
        exact other ((placed i).mp here).symm

end
end Ecphoria.Library
