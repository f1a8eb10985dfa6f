import Mathlib.Data.List.Nodup
import Mathlib.Data.List.Basic
import Mathlib.Algebra.GroupWithZero.Nat

/-! Tables with a primary key. Rows stand in physical order and no two of them
share a key; each statement of the usual SQL dialects is a total function that
keeps this, so a table with a duplicate key cannot be built. -/
namespace Ecphoria.Library

@[ext] structure Table (α : Type) {κ : Type} (key : α → κ) where
  rows : List α
  unique : (rows.map key).Nodup

namespace Table
variable {α κ : Type} {key : α → κ}

def empty : Table α key := ⟨[],List.nodup_nil⟩

def keys (t : Table α key) : List κ := t.rows.map key

theorem mem_keys (t : Table α key) (k : κ) : k ∈ t.keys ↔ ∃ r ∈ t.rows, key r = k := by
  simp [keys]

theorem eq_of_key (t : Table α key) {a b : α} (ha : a ∈ t.rows) (hb : b ∈ t.rows)
    (same : key a = key b) : a = b :=
  List.inj_on_of_nodup_map t.unique ha hb same

theorem keys_filterMap_sublist {β γ : Type} {f : β → Option γ} {key : γ → κ} {asked : β → κ}
    (named : ∀ b c, f b = some c → key c = asked b) (bs : List β) :
    ((bs.filterMap f).map key).Sublist (bs.map asked) := by
  induction bs with
  | nil => exact .slnil
  | cons b bs ih =>
    rw [List.filterMap_cons]
    cases found : f b with
    | none => exact ih.cons (asked b)
    | some c =>
      simp only [List.map_cons,named b c found]
      exact ih.cons_cons (asked b)

/-- `UPDATE .. SET f WHERE p` for an assignment that leaves the key alone. -/
def update (t : Table α key) (p : α → Bool) (f : α → α) (same : ∀ r, key (f r) = key r) :
    Table α key :=
  ⟨t.rows.map (fun r => if p r then f r else r),by
    have kept : (t.rows.map (fun r => if p r then f r else r)).map key = t.rows.map key := by
      rw [List.map_map]
      apply List.map_congr_left
      intro r _
      by_cases chosen : p r <;> simp [chosen,same]
    rw [kept]
    exact t.unique⟩

def delete (t : Table α key) (p : α → Bool) : Table α key :=
  ⟨t.rows.filter (fun r => !p r),t.unique.sublist (List.filter_sublist.map key)⟩

@[simp] theorem mem_update (t : Table α key) (p : α → Bool) (f : α → α)
    (same : ∀ r, key (f r) = key r) (r : α) :
    r ∈ (t.update p f same).rows ↔ ∃ s ∈ t.rows, (if p s then f s else s) = r := by
  simp only [update,List.mem_map]

@[simp] theorem mem_delete (t : Table α key) (p : α → Bool) (r : α) :
    r ∈ (t.delete p).rows ↔ r ∈ t.rows ∧ p r = false := by
  simp [delete]

theorem delete_delete (t : Table α key) (p : α → Bool) : (t.delete p).delete p = t.delete p := by
  apply Table.ext
  simp [delete,List.filter_filter]

theorem update_of_none (t : Table α key) (p : α → Bool) (f : α → α) (same : ∀ r, key (f r) = key r)
    (none : ∀ r ∈ t.rows, p r = false) : t.update p f same = t := by
  apply Table.ext
  apply (List.map_congr_left (fun r member => ?_)).trans (List.map_id' t.rows)
  simp [none r member]

theorem update_update (t : Table α key) (p : α → Bool) (f : α → α) (same : ∀ r, key (f r) = key r)
    (settles : ∀ r, f (f r) = f r) : (t.update p f same).update p f same = t.update p f same := by
  apply Table.ext
  simp only [update,List.map_map]
  apply List.map_congr_left
  intro r _
  simp only [Function.comp_apply]
  by_cases first : p r
  · by_cases second : p (f r) <;> simp [first,second,settles]
  · simp [first]

variable [DecidableEq κ]

def find (t : Table α key) (k : κ) : Option α := t.rows.find? (fun r => key r = k)

/-- `INSERT OR REPLACE`: the row takes the place of the one with its key. -/
def upsert (t : Table α key) (a : α) : Table α key :=
  if present : key a ∈ t.keys then
    ⟨t.rows.map (fun r => if key r = key a then a else r),by
      have same : (t.rows.map (fun r => if key r = key a then a else r)).map key = t.keys := by
        rw [List.map_map,keys]
        apply List.map_congr_left
        intro r _
        by_cases equal : key r = key a <;> simp [equal]
      rw [same]
      exact t.unique⟩
  else
    ⟨t.rows ++ [a],by
      rw [List.map_append,List.map_singleton]
      exact List.nodup_append'.mpr ⟨t.unique,by simp,by simpa [keys] using present⟩⟩

def insertIgnore (t : Table α key) (a : α) : Table α key :=
  if key a ∈ t.keys then t else t.upsert a

def insert (t : Table α key) (a : α) : Option (Table α key) :=
  if key a ∈ t.keys then none else some (t.upsert a)

def upsertAll (t : Table α key) (rows : List α) : Table α key := rows.foldl upsert t

/-- A bulk append: all rows go in, or the call fails on a duplicate key and none does. -/
def append (t : Table α key) (rows : List α) : Option (Table α key) := rows.foldlM insert t

@[simp] theorem mem_upsert (t : Table α key) (a r : α) :
    r ∈ (t.upsert a).rows ↔ r = a ∨ r ∈ t.rows ∧ key r ≠ key a := by
  unfold upsert
  split
  next present =>
    obtain ⟨old,inside,equal⟩ := (t.mem_keys _).mp present
    simp only [List.mem_map]
    constructor
    · intro given
      obtain ⟨s,member,rfl⟩ := given
      by_cases same : key s = key a
      · simp [same]
      · simp [same,member]
    · intro given
      rcases given with rfl | ⟨member,other⟩
      · exact ⟨old,inside,by simp [equal]⟩
      · exact ⟨r,member,by simp [other]⟩
  next absent =>
    simp only [List.mem_append,List.mem_singleton]
    constructor
    · intro given
      rcases given with member | rfl
      · exact Or.inr ⟨member,fun same => absent ((t.mem_keys _).mpr ⟨r,member,same⟩)⟩
      · exact Or.inl rfl
    · intro given
      rcases given with rfl | ⟨member,_⟩
      · exact Or.inr rfl
      · exact Or.inl member

theorem find_eq_some (t : Table α key) (k : κ) (r : α) :
    t.find k = some r ↔ r ∈ t.rows ∧ key r = k := by
  constructor
  · intro found
    exact ⟨List.mem_of_find?_eq_some found,by simpa using List.find?_some found⟩
  · intro given
    obtain ⟨member,rfl⟩ := given
    cases found : t.find (key r) with
    | none =>
      have absent := List.find?_eq_none.mp found r member
      simp at absent
    | some s =>
      have inside := List.mem_of_find?_eq_some found
      have same : key s = key r := by simpa using List.find?_some found
      rw [t.eq_of_key inside member same]

theorem find_sublist (t : Table α key) (ks : List κ) : ((ks.filterMap t.find).map key).Sublist ks := by
  have named : ((ks.filterMap t.find).map key).Sublist (ks.map id) :=
    keys_filterMap_sublist (fun k r found => ((t.find_eq_some k r).mp found).2) ks
  rwa [List.map_id] at named

theorem find_eq_none (t : Table α key) (k : κ) : t.find k = none ↔ k ∉ t.keys := by
  simp [find,keys]

theorem find_update (t : Table α key) (p : α → Bool) (f : α → α) (same : ∀ r, key (f r) = key r) (k : κ) :
    (t.update p f same).find k = (t.find k).map (fun r => if p r then f r else r) := by
  unfold find update
  rw [List.find?_map]
  have kept : (fun r => decide (key r = k)) ∘ (fun r => if p r then f r else r) = fun r => decide (key r = k) := by
    funext r
    by_cases chosen : p r <;> simp [chosen,same]
  rw [kept]

omit [DecidableEq κ] in
theorem keys_update (t : Table α key) (p : α → Bool) (f : α → α) (same : ∀ r, key (f r) = key r) :
    (t.update p f same).keys = t.keys := by
  unfold keys update
  rw [List.map_map]
  apply List.map_congr_left
  intro r _
  by_cases chosen : p r <;> simp [chosen,same]

theorem keys_upsert (t : Table α key) (a : α) :
    (t.upsert a).keys = if key a ∈ t.keys then t.keys else t.keys ++ [key a] := by
  unfold upsert
  split
  next present =>
    simp only [keys,List.map_map]
    apply List.map_congr_left
    intro r _
    by_cases equal : key r = key a <;> simp [equal]
  next absent => simp [keys]

theorem find_upsert (t : Table α key) (a : α) (k : κ) :
    (t.upsert a).find k = if key a = k then some a else t.find k := by
  split
  next same => exact (find_eq_some _ _ _).mpr ⟨by simp,same⟩
  next other =>
    cases found : t.find k with
    | none =>
      rw [find_eq_none] at found ⊢
      rw [keys_upsert]
      split <;> simp [found,Ne.symm other]
    | some r =>
      obtain ⟨member,rfl⟩ := (find_eq_some _ _ _).mp found
      exact (find_eq_some _ _ _).mpr ⟨by simp [member,Ne.symm other],rfl⟩

theorem find_delete (t : Table α key) (gone : κ) (k : κ) :
    (t.delete (fun r => key r = gone)).find k = if k = gone then none else t.find k := by
  split
  next same =>
    rw [find_eq_none,mem_keys]
    intro given
    obtain ⟨r,inside,rfl⟩ := given
    simp [same] at inside
  next apart =>
    apply Option.ext
    intro r
    simp only [find_eq_some,mem_delete,decide_eq_false_iff_not]
    constructor
    · intro given
      obtain ⟨⟨inside,_⟩,found⟩ := given
      exact ⟨inside,found⟩
    · intro given
      obtain ⟨inside,found⟩ := given
      exact ⟨⟨inside,found ▸ apart⟩,found⟩

theorem find_delete_where (t : Table α key) (p : α → Bool) (k : κ) :
    (t.delete p).find k = (t.find k).filter (fun r => !p r) := by
  apply Option.ext
  intro r
  simp only [find_eq_some,mem_delete,Option.filter_eq_some_iff,Bool.not_eq_true']
  constructor
  · intro given
    exact ⟨⟨given.1.1,given.2⟩,given.1.2⟩
  · intro given
    exact ⟨⟨given.1.1,given.2⟩,given.1.2⟩

theorem rows_eq_filterMap (t : Table α key) : t.rows = t.keys.filterMap t.find := by
  rw [keys,List.filterMap_map]
  have found (r : α) (member : r ∈ t.rows) : (t.find ∘ key) r = some r :=
    (find_eq_some _ _ _).mpr ⟨member,rfl⟩
  rw [List.filterMap_congr found,List.filterMap_some]

theorem ext_find {t u : Table α key} (order : t.keys = u.keys)
    (lookup : ∀ k, t.find k = u.find k) : t = u := by
  apply Table.ext
  rw [rows_eq_filterMap t,rows_eq_filterMap u,order,funext lookup]

def Same (t u : Table α key) : Prop := ∀ k, t.find k = u.find k

theorem Same.refl (t : Table α key) : t.Same t := fun _ => rfl

theorem mem_keys_upsert (t : Table α key) (a : α) (k : κ) :
    k ∈ (t.upsert a).keys ↔ k = key a ∨ k ∈ t.keys := by
  rw [keys_upsert]
  split
  next present =>
    constructor
    · exact Or.inr
    · intro given
      rcases given with rfl | inside
      · exact present
      · exact inside
  next absent => simp [or_comm]

theorem mem_keys_insertIgnore (t : Table α key) (a : α) (k : κ) :
    k ∈ (t.insertIgnore a).keys ↔ k = key a ∨ k ∈ t.keys := by
  unfold insertIgnore
  split
  next present =>
    constructor
    · exact Or.inr
    · intro given
      rcases given with rfl | inside
      · exact present
      · exact inside
  next absent => exact mem_keys_upsert t a k

theorem rows_upsert_fresh (t : Table α key) (a : α) (absent : key a ∉ t.keys) :
    (t.upsert a).rows = t.rows ++ [a] := by
  rw [upsert,dif_neg absent]

theorem rows_upsert_present (t : Table α key) (a : α) (present : key a ∈ t.keys) :
    (t.upsert a).rows = t.rows.map (fun r => if key r = key a then a else r) := by
  rw [upsert,dif_pos present]

theorem rows_upsert_last (t : Table α key) (before : List α) (last a : α) (rows : t.rows = before ++ [last])
    (same : key a = key last) : (t.upsert a).rows = before ++ [a] := by
  have present : key a ∈ t.keys := (t.mem_keys _).mpr ⟨last,by simp [rows],same.symm⟩
  have other : ∀ r ∈ before, key r ≠ key a := by
    intro r inside equal
    have unique := t.unique
    rw [rows,List.map_append,List.nodup_append'] at unique
    exact unique.2.2 (List.mem_map_of_mem inside) (by simp [equal,same])
  have kept : before.map (fun r => if key r = key a then a else r) = before :=
    (List.map_congr_left (fun r inside => if_neg (other r inside))).trans (List.map_id' before)
  rw [rows_upsert_present t a present,rows,List.map_append,kept]
  simp [same]

theorem rows_upsert_last_append (t : Table α key) (before : List α) (last a b : α)
    (rows : t.rows = before ++ [last]) (same : key a = key last) (absent : key b ∉ t.keys) :
    ((t.upsert a).upsert b).rows = (before ++ [a]) ++ [b] := by
  have present : key a ∈ t.keys := (t.mem_keys _).mpr ⟨last,by simp [rows],same.symm⟩
  have absentAfter : key b ∉ (t.upsert a).keys := by rwa [keys_upsert,if_pos present]
  rw [rows_upsert_fresh _ b absentAfter,rows_upsert_last t before last a rows same]

theorem mem_upsertAll {t : Table α key} {rows : List α} {r : α} (member : r ∈ (t.upsertAll rows).rows) :
    r ∈ rows ∨ r ∈ t.rows ∧ ∀ a ∈ rows, key a ≠ key r := by
  induction rows generalizing t with
  | nil => exact Or.inr ⟨member,by simp⟩
  | cons a rows ih =>
    rcases ih member with inside | ⟨older,apart⟩
    · exact Or.inl (List.mem_cons_of_mem a inside)
    · rcases (mem_upsert t a r).mp older with rfl | ⟨oldest,other⟩
      · exact Or.inl (by simp)
      · refine Or.inr ⟨oldest,?_⟩
        intro b inside
        rcases List.mem_cons.mp inside with rfl | inside
        · exact Ne.symm other
        · exact apart b inside

theorem mem_keys_upsertAll {t : Table α key} {rows : List α} {k : κ}
    (known : (∃ a ∈ rows, key a = k) ∨ k ∈ t.keys) : k ∈ (t.upsertAll rows).keys := by
  induction rows generalizing t with
  | nil => simpa [upsertAll] using known
  | cons a rows ih =>
    apply ih
    rw [mem_keys_upsert]
    rcases known with ⟨b,inside,rfl⟩ | present
    · rcases List.mem_cons.mp inside with rfl | inside
      · exact Or.inr (Or.inl rfl)
      · exact Or.inl ⟨b,inside,rfl⟩
    · exact Or.inr (Or.inr present)

theorem upsert_comm (t : Table α key) (a b : α) (present : key a ∈ t.keys) (absent : key b ∉ t.keys) :
    (t.upsert a).upsert b = (t.upsert b).upsert a := by
  have other : key b ≠ key a := fun same => absent (same ▸ present)
  have absentAfter : key b ∉ (t.upsert a).keys := by
    rw [mem_keys_upsert]
    simp [other,absent]
  have presentAfter : key a ∈ (t.upsert b).keys := (mem_keys_upsert t b _).mpr (Or.inr present)
  apply Table.ext
  rw [rows_upsert_fresh _ b absentAfter,rows_upsert_present _ a presentAfter,rows_upsert_present t a present,
    rows_upsert_fresh t b absent]
  simp [other]

theorem upsertAll_upsert_comm (t : Table α key) (a : α) (rows : List α) (present : key a ∈ t.keys)
    (fresh : ∀ b ∈ rows, key b ∉ t.keys) (distinct : (rows.map key).Nodup) :
    (t.upsertAll rows).upsert a = (t.upsert a).upsertAll rows := by
  induction rows generalizing t with
  | nil => rfl
  | cons b rows ih =>
    obtain ⟨first,rest⟩ := List.nodup_cons.mp distinct
    have freshAfter : ∀ c ∈ rows, key c ∉ (t.upsert b).keys := by
      intro c inside again
      rcases (mem_keys_upsert t b _).mp again with same | old
      · exact first (List.mem_map.mpr ⟨c,inside,same⟩)
      · exact fresh c (List.mem_cons_of_mem b inside) old
    change ((t.upsert b).upsertAll rows).upsert a = ((t.upsert a).upsert b).upsertAll rows
    rw [ih (t.upsert b) ((mem_keys_upsert t b _).mpr (Or.inr present)) freshAfter rest,
      upsert_comm t a b present (fresh b (by simp))]

/-- Writing the new rows first and the replacing rows after them is writing all in order, as
long as no two new rows share a key. -/
theorem upsertAll_partition (t : Table α key) (rows : List α)
    (distinct : ((rows.filter (fun r => key r ∉ t.keys)).map key).Nodup) :
    (t.upsertAll (rows.filter (fun r => key r ∉ t.keys))).upsertAll (rows.filter (fun r => key r ∈ t.keys)) =
      t.upsertAll rows := by
  induction rows generalizing t with
  | nil => rfl
  | cons a rows ih =>
    by_cases present : key a ∈ t.keys
    · have same (r : α) : key r ∈ (t.upsert a).keys ↔ key r ∈ t.keys := by
        rw [keys_upsert,if_pos present]
      have step := ih (t.upsert a) (by simpa [same,present] using distinct)
      simp only [same] at step
      simp only [List.filter_cons,present,not_true_eq_false,decide_false,decide_true,if_true,
        Bool.false_eq_true,if_false]
      change ((t.upsertAll _).upsert a).upsertAll _ = (t.upsert a).upsertAll rows
      rw [upsertAll_upsert_comm t a _ present (by simp) (by simpa [present] using distinct),step]
    · have first : ∀ r ∈ rows, key r ∉ t.keys → key r ≠ key a := by
        intro r inside fresh same
        simp only [List.filter_cons,present,not_false_eq_true,decide_true,if_true,List.map_cons,
          List.nodup_cons] at distinct
        exact distinct.1 (List.mem_map.mpr ⟨r,by simp [inside,fresh],same⟩)
      have same (r : α) (inside : r ∈ rows) : key r ∈ (t.upsert a).keys ↔ key r ∈ t.keys := by
        rw [mem_keys_upsert]
        constructor
        · intro given
          rcases given with equal | old
          · by_contra fresh
            exact first r inside fresh equal
          · exact old
        · exact Or.inr
      have news : rows.filter (fun r => key r ∉ (t.upsert a).keys) = rows.filter (fun r => key r ∉ t.keys) :=
        List.filter_congr (fun r inside => by simp [same r inside])
      have olds : rows.filter (fun r => key r ∈ (t.upsert a).keys) = rows.filter (fun r => key r ∈ t.keys) :=
        List.filter_congr (fun r inside => by simp [same r inside])
      have step := ih (t.upsert a) (by
        rw [news]
        simp only [List.filter_cons,present,not_false_eq_true,decide_true,if_true,List.map_cons,
          List.nodup_cons] at distinct
        exact distinct.2)
      rw [news,olds] at step
      simp only [List.filter_cons,present,not_false_eq_true,decide_true,if_true,decide_false,
        Bool.false_eq_true,if_false]
      exact step

theorem append_eq_some (t u : Table α key) (rows : List α) :
    t.append rows = some u ↔
      (rows.map key).Nodup ∧ (∀ a ∈ rows, key a ∉ t.keys) ∧ t.upsertAll rows = u := by
  induction rows generalizing t with
  | nil => simp [append,upsertAll]
  | cons a rows ih =>
    by_cases present : key a ∈ t.keys
    · simp [append,insert,present]
    · have step : t.append (a :: rows) = (t.upsert a).append rows := by simp [append,insert,present]
      rw [step,ih (t.upsert a)]
      simp only [List.map_cons,List.nodup_cons,List.mem_map,not_exists,not_and,List.mem_cons,
        forall_eq_or_imp,mem_keys_upsert,not_or]
      constructor
      · intro given
        obtain ⟨distinct,apart,written⟩ := given
        exact ⟨⟨fun b inside => (apart b inside).1,distinct⟩,⟨present,fun b inside => (apart b inside).2⟩,written⟩
      · intro given
        obtain ⟨⟨first,distinct⟩,⟨_,fresh⟩,written⟩ := given
        exact ⟨distinct,fun b inside => ⟨first b inside,fresh b inside⟩,written⟩

theorem filter_upsert (t : Table α key) (a : α) (p : α → Bool) (new : p a = false)
    (old : ∀ r ∈ t.rows, key r = key a → p r = false) : (t.upsert a).rows.filter p = t.rows.filter p := by
  by_cases present : key a ∈ t.keys
  · rw [rows_upsert_present t a present,List.filter_map]
    have kept : t.rows.filter (p ∘ fun r => if key r = key a then a else r) = t.rows.filter p := by
      apply List.filter_congr
      intro r member
      by_cases same : key r = key a
      · simp [same,new,old r member same]
      · simp [same]
    rw [kept]
    -- what passes the filter is not the row replaced
    have other : ∀ r ∈ t.rows.filter p, (if key r = key a then a else r) = r := by
      intro r inside
      obtain ⟨member,chosen⟩ := List.mem_filter.mp inside
      apply if_neg
      intro same
      rw [old r member same] at chosen
      cases chosen
    exact (List.map_congr_left other).trans (List.map_id' _)
  · rw [rows_upsert_fresh t a present,List.filter_append]
    simp [new]

theorem filter_upsertAll (t : Table α key) (rows : List α) (p : α → Bool) (new : ∀ a ∈ rows, p a = false)
    (old : ∀ a ∈ rows, ∀ r ∈ t.rows, key r = key a → p r = false) :
    (t.upsertAll rows).rows.filter p = t.rows.filter p := by
  induction rows generalizing t with
  | nil => rfl
  | cons a rows ih =>
    have first := t.filter_upsert a p (new a (by simp)) (old a (by simp))
    have rest := ih (t.upsert a) (fun b inside => new b (List.mem_cons_of_mem a inside)) (by
      intro b inside r member same
      rcases (mem_upsert t a r).mp member with rfl | ⟨earlier,_⟩
      · exact new r (by simp)
      · exact old b (List.mem_cons_of_mem a inside) r earlier same)
    exact rest.trans first

theorem find_upsertAll (t : Table α key) (rows : List α) (k : κ) (apart : ∀ a ∈ rows, key a ≠ k) :
    (t.upsertAll rows).find k = t.find k := by
  induction rows generalizing t with
  | nil => rfl
  | cons a rows ih =>
    have rest := ih (t.upsert a) (fun b inside => apart b (List.mem_cons_of_mem a inside))
    rw [find_upsert,if_neg (apart a (by simp))] at rest
    exact rest

theorem find_upsertAll_eq (t : Table α key) (rows : List α) (k : κ) :
    (t.upsertAll rows).find k = (rows.reverse.find? (fun r => key r = k)).or (t.find k) := by
  induction rows generalizing t with
  | nil => rfl
  | cons a rows ih =>
    change ((t.upsert a).upsertAll rows).find k = _
    rw [ih,find_upsert,List.reverse_cons,List.find?_append,Option.or_assoc]
    congr 1
    by_cases same : key a = k <;> simp [same]

theorem find_upsertAll_empty {rows : List α} (distinct : (rows.map key).Nodup) (k : κ) (r : α) :
    ((empty : Table α key).upsertAll rows).find k = some r ↔ r ∈ rows ∧ key r = k := by
  have listed : ((rows.reverse).map key).Nodup := by
    rw [List.map_reverse]
    exact List.nodup_reverse.mpr distinct
  have absent : (empty : Table α key).find k = none := rfl
  rw [find_upsertAll_eq,absent,Option.or_none]
  have found := find_eq_some (⟨rows.reverse,listed⟩ : Table α key) k r
  rw [List.mem_reverse] at found
  exact found

theorem keys_upsertAll_known (t : Table α key) (rows : List α) (known : ∀ a ∈ rows, key a ∈ t.keys) :
    (t.upsertAll rows).keys = t.keys := by
  induction rows generalizing t with
  | nil => rfl
  | cons a rows ih =>
    have first : (t.upsert a).keys = t.keys := by rw [keys_upsert,if_pos (known a (by simp))]
    have rest := ih (t.upsert a) (fun b inside => by
      rw [first]
      exact known b (List.mem_cons_of_mem a inside))
    exact rest.trans first

theorem upsertAll_upsertAll (t : Table α key) (rows : List α) :
    (t.upsertAll rows).upsertAll rows = t.upsertAll rows := by
  apply ext_find
  · apply keys_upsertAll_known
    intro a inside
    exact mem_keys_upsertAll (Or.inl ⟨a,inside,rfl⟩)
  · intro k
    rw [find_upsertAll_eq (t.upsertAll rows),find_upsertAll_eq t,← Option.or_assoc,Option.or_self]

theorem find_insertIgnore_known {t : Table α key} {k : κ} {r : α} (found : t.find k = some r) (a : α) :
    (t.insertIgnore a).find k = some r := by
  unfold insertIgnore
  split
  next => exact found
  next absent =>
    obtain ⟨inside,same⟩ := (find_eq_some t k r).mp found
    rw [find_upsert,if_neg]
    · exact found
    · intro mine
      exact absent (mine ▸ (mem_keys t k).mpr ⟨r,inside,same⟩)

theorem insertIgnore_known (t : Table α key) (a : α) (known : key a ∈ t.keys) : t.insertIgnore a = t := by
  rw [insertIgnore,if_pos known]

theorem insertIgnore_insertIgnore (t : Table α key) (a : α) :
    (t.insertIgnore a).insertIgnore a = t.insertIgnore a :=
  insertIgnore_known _ a ((mem_keys_insertIgnore t a _).mpr (Or.inl rfl))

def total (t : Table α key) (w : α → Nat) : Nat := (t.rows.map w).sum

theorem total_upsert_fresh (t : Table α key) (a : α) (w : α → Nat) (absent : key a ∉ t.keys) :
    (t.upsert a).total w = t.total w + w a := by
  simp [total,rows_upsert_fresh t a absent]

theorem total_upsert_present (t : Table α key) (a r : α) (w : α → Nat) (member : r ∈ t.rows)
    (same : key r = key a) : (t.upsert a).total w + w r = t.total w + w a := by
  obtain ⟨before,after,split⟩ := List.append_of_mem member
  have present : key a ∈ t.keys := (t.mem_keys _).mpr ⟨r,member,same⟩
  have unique := t.unique
  rw [split,List.map_append,List.map_cons,List.nodup_append'] at unique
  obtain ⟨_,second,apart⟩ := unique
  have kept (part : List α) (other : ∀ s ∈ part, key s ≠ key a) :
      part.map (fun s => if key s = key a then a else s) = part :=
    (List.map_congr_left (fun s inside => if_neg (other s inside))).trans (List.map_id' part)
  have left := kept before (by
    intro s inside equal
    exact apart (List.mem_map_of_mem inside) (by simp [equal,same]))
  have right := kept after (by
    intro s inside equal
    exact (List.nodup_cons.mp second).1 (List.mem_map.mpr ⟨s,inside,equal.trans same.symm⟩))
  rw [total,total,rows_upsert_present t a present,split,List.map_append,List.map_cons,left,right,if_pos same]
  simp only [List.map_append,List.map_cons,List.sum_append,List.sum_cons]
  omega

theorem total_upsertAll_same (t : Table α key) (rows : List α) (w : α → Nat)
    (matched : ∀ a ∈ rows, ∃ r ∈ t.rows, key r = key a ∧ w r = w a) :
    (t.upsertAll rows).total w = t.total w := by
  induction rows generalizing t with
  | nil => rfl
  | cons a rows ih =>
    obtain ⟨r,member,same,weight⟩ := matched a (by simp)
    have first := t.total_upsert_present a r w member same
    have rest := ih (t.upsert a) (by
      intro b inside
      obtain ⟨s,there,equal,weighs⟩ := matched b (List.mem_cons_of_mem a inside)
      by_cases again : key s = key a
      · cases t.eq_of_key there member (again.trans same.symm)
        exact ⟨a,by simp,again.symm.trans equal,weight.symm.trans weighs⟩
      · exact ⟨s,(mem_upsert t a s).mpr (Or.inr ⟨there,again⟩),equal,weighs⟩)
    change ((t.upsert a).upsertAll rows).total w = t.total w
    omega

end Table
end Ecphoria.Library
