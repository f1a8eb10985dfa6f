import Ecphoria.Engine.Search
import Ecphoria.Library.Paging

/-! The memories of a scope, listed page by page. Each page is a query of its own, by importance and then by the time
from which a memory is valid, and these need not tell two memories apart. -/
namespace Ecphoria
open Library

structure MemoryFilter where
  memType : Option String
  minImportance : Option Rat
  updatedAfter : Option Int
  updatedBefore : Option Int
  metadata : Option (String × String)

def MemoryFilter.empty : MemoryFilter := ⟨none,none,none,none,none⟩

/-- A key that may stand in a path of the query. -/
def MemoryFilter.safeKey (filter : MemoryFilter) : Bool :=
  filter.metadata.all (fun entry => !entry.1.isEmpty && entry.1.toList.all (fun c => c.isAlphanum || c = '_' || c = '.'))

/-- What the engine makes of what stands in a query: the number it reads in the decimal text of an `f32`, the text of a
JSON value, and the text at a path inside one (`json_extract_string`). -/
structure ListingSql where
  printed : Rat → Rat
  text : Json → Option String
  extract : Json → String → Option String

section
variable (sql : ListingSql)

/-- What the fields of a filter ask of a memory. -/
def MemoryFilter.keeps (filter : MemoryFilter) (m : Memory) : Bool :=
  filter.memType.all (fun memType => m.memType = memType) &&
  filter.minImportance.all (fun importance => max 0 (min importance 1) ≤ m.importance) &&
  filter.updatedAfter.all (fun after => after ≤ m.updatedAt) &&
  filter.updatedBefore.all (fun before => m.updatedAt < before) &&
  filter.metadata.all (fun entry => (m.metadata.get entry.1).bind sql.text = some entry.2)

/-- The clauses of the query. The importance is printed into it and read as a `DOUBLE`, a date is cut to what the column
holds, and the key is a path. -/
def MemoryFilter.selects (filter : MemoryFilter) (m : Memory) : Bool :=
  filter.memType.all (fun memType => m.memType = memType) &&
  filter.minImportance.all (fun importance => sql.printed (max 0 (min importance 1)) ≤ m.importance) &&
  filter.updatedAfter.all (fun after => micros after ≤ m.updatedAt) &&
  filter.updatedBefore.all (fun before => m.updatedAt < micros before) &&
  filter.metadata.all (fun entry => sql.extract m.metadata entry.1 = some entry.2)

namespace MemoryTable

/-- The active memories of a scope that satisfy a filter. -/
def satisfying (t : MemoryTable) (scope : MemoryScope) (filter : MemoryFilter) : List Memory :=
  t.memories.filter (fun m => activeIn scope m && filter.keeps sql m)

/-- Those that the query finds. -/
def selected (t : MemoryTable) (scope : MemoryScope) (filter : MemoryFilter) : List Memory :=
  t.memories.filter (fun m => activeIn scope m && filter.selects sql m)

def listPaged (order : QueryOrder byImportance) (t : MemoryTable) (scope : MemoryScope) (limit offset : Nat)
    (filter : MemoryFilter) : List Memory :=
  if filter.safeKey then
    pageOf (max 1 (min limit 10000)) (min offset 10000000) (order.sort (t.selected sql scope filter))
  else []

def memoryList (order : QueryOrder byImportance) (maxRows : Nat) (t : MemoryTable) (scope : MemoryScope)
    (limit offset : Nat) (filter : MemoryFilter) : List Memory :=
  t.listPaged sql order scope (min limit maxRows) offset filter

end MemoryTable
end

namespace MemoryTable

theorem byImportance_total (a b : Memory) : byImportance a b ∨ byImportance b a := by
  unfold byImportance
  rcases lt_trichotomy a.importance b.importance with less | same | more
  · exact .inr (.inl less)
  · rcases le_total a.validFrom b.validFrom with older | newer
    · exact .inr (.inr ⟨same,older⟩)
    · exact .inl (.inr ⟨same.symm,newer⟩)
  · exact .inl (.inl more)

theorem byImportance_trans (a b c : Memory) (first : byImportance a b) (second : byImportance b c) : byImportance a c := by
  rcases first with more | ⟨same,newer⟩ <;> rcases second with above | ⟨equal,later⟩
  · exact .inl (above.trans more)
  · exact .inl (equal ▸ more)
  · exact .inl (same ▸ above)
  · exact .inr ⟨equal.trans same,later.trans newer⟩

variable {sql : ListingSql}

theorem selected_nodup (t : MemoryTable) (scope : MemoryScope) (filter : MemoryFilter) :
    (t.selected sql scope filter).Nodup := (t.memories_nodup.of_map _).filter _

theorem mem_selected {t : MemoryTable} {scope : MemoryScope} {filter : MemoryFilter} {m : Memory}
    (satisfies : m ∈ t.satisfying sql scope filter) : m ∈ t.selected sql scope filter ↔ filter.selects sql m = true := by
  obtain ⟨inside,found⟩ := List.mem_filter.mp satisfies
  rw [selected,List.mem_filter,(Bool.and_eq_true_iff.mp found).1,Bool.true_and,and_iff_right inside]

theorem each_once_nil (wanted : List Memory) : EachOnce (fun _ => []) wanted ↔ wanted = [] := by
  constructor
  · rintro ⟨n,-,-,once⟩
    refine List.eq_nil_iff_forall_not_mem.mpr ?_
    intro m wants
    obtain ⟨ahead,behind,rows_eq,-⟩ := once m wants
    have nothing : (List.range n).flatMap (fun _ => ([] : List Memory)) = [] := by simp
    simp [nothing] at rows_eq
  · rintro rfl
    exact ⟨0,rfl,fun i below => absurd below (Nat.not_lt_zero i),by simp⟩

/-- The pages contain each memory of the scope that satisfies the filter once, whatever order each query takes, exactly if
the query can be built, finds every such memory and none beyond the last offset, and no such memory is alike in the order
to one that may take it over a page boundary. -/
theorem paging_iff (t : MemoryTable) (scope : MemoryScope) (filter : MemoryFilter) {limit maxRows : Nat}
    (positive : 1 ≤ limit) (bound : limit ≤ min 10000 maxRows) :
    (∀ orders : Nat → QueryOrder byImportance,
        EachOnce (fun i => t.memoryList sql (orders i) maxRows scope limit (i * limit) filter)
          (t.satisfying sql scope filter)) ↔
      if filter.safeKey then (t.selected sql scope filter).length ≤ 10000000 ∧
        ∀ m ∈ t.satisfying sql scope filter,filter.selects sql m = true ∧
          OnOnePage byImportance limit (t.selected sql scope filter) m
      else t.satisfying sql scope filter = [] := by
  have size : max 1 (min (min limit maxRows) 10000) = limit := by omega
  unfold memoryList listPaged
  rw [size]
  cases safe : filter.safeKey with
  | true =>
    simp only [if_true]
    rw [each_once_iff byImportance_total byImportance_trans (t.selected_nodup scope filter) positive]
    refine and_congr_right (fun _ => forall₂_congr (fun m satisfies => ?_))
    rw [mem_selected satisfies]
  | false =>
    simp only [Bool.false_eq_true,if_false,each_once_nil]
    have : Nonempty (Nat → QueryOrder byImportance) :=
      ⟨fun _ => .stable byImportance byImportance_total byImportance_trans⟩
    exact forall_const _

section
private def listedRow (id : Uuid) (importance : Rat) : MemoryRow :=
  ⟨{ Memory.new id 0 (.tenant "acme") "tea" with importance := importance },none⟩

/-- Two memories of one import, alike in importance and time. -/
private def imported : MemoryTable := upsertRows .empty [listedRow 1 (1 / 2),listedRow 2 (1 / 2)]

/-- The `f32` next to 0.7, below it, and the `DOUBLE` that the query has for its text. -/
private def seven : Rat := 11744051 / 16777216

private def listingSql : ListingSql where
  printed x := if x = seven then 3152519739159347 / 4503599627370496 else x
  text := Json.asStr
  extract v key := (v.get key).bind Json.asStr

private def atLeast (importance : Rat) : MemoryFilter := ⟨none,some importance,none,none,none⟩

private def nearSeven : MemoryTable := upsertRows .empty [listedRow 1 seven]

/-- On pages of two rows both memories come once. -/
theorem paging_pair : (imported.satisfying listingSql (.tenant "acme") (atLeast (1 / 2))).length = 2 ∧
    ∀ orders : Nat → QueryOrder byImportance,
      EachOnce (fun i => imported.memoryList listingSql (orders i) 1000 (.tenant "acme") 2 (i * 2) (atLeast (1 / 2)))
        (imported.satisfying listingSql (.tenant "acme") (atLeast (1 / 2))) := by
  refine ⟨by decide +kernel,?_⟩
  exact (paging_iff imported (.tenant "acme") (atLeast (1 / 2)) (by decide) (by decide)).mpr (by decide +kernel)

/-- On pages of one row the first memory comes twice when the second query has the rows the other way around; and a memory
of importance 0.7 is on no page of those of at least 0.7. -/
theorem paging_repeats :
    (¬∀ orders : Nat → QueryOrder byImportance,
      EachOnce (fun i => imported.memoryList listingSql (orders i) 1000 (.tenant "acme") 1 (i * 1) .empty)
        (imported.satisfying listingSql (.tenant "acme") .empty)) ∧
    ¬∀ orders : Nat → QueryOrder byImportance,
      EachOnce (fun i => nearSeven.memoryList listingSql (orders i) 1000 (.tenant "acme") 1 (i * 1) (atLeast seven))
        (nearSeven.satisfying listingSql (.tenant "acme") (atLeast seven)) := by
  have pages (t : MemoryTable) (filter : MemoryFilter) (safe : filter.safeKey = true)
      (orders : Nat → QueryOrder byImportance) :
      (fun i => t.memoryList listingSql (orders i) 1000 (.tenant "acme") 1 (i * 1) filter) =
        fun i => pageOf 1 (min (i * 1) 10000000) ((orders i).sort (t.selected listingSql (.tenant "acme") filter)) := by
    funext i
    unfold memoryList listPaged
    rw [safe]
    rfl
  constructor
  · intro once
    have each := fun orders => pages imported .empty rfl orders ▸ once orders
    have apart := ((each_once_iff byImportance_total byImportance_trans (selected_nodup _ _ _) Nat.zero_lt_one).mp each).2
    exact absurd (fun m wants => (apart m wants).2) (by decide +kernel)
  · intro once
    have each := fun orders => pages _ (atLeast seven) rfl orders ▸ once orders
    have listed := ((each_once_iff byImportance_total byImportance_trans (selected_nodup _ _ _) Nat.zero_lt_one).mp each).2
    have nothing : nearSeven.selected listingSql (.tenant "acme") (atLeast seven) = [] :=
      List.length_eq_zero_iff.mp (by decide +kernel)
    have satisfies : nearSeven.satisfying listingSql (.tenant "acme") (atLeast seven) ≠ [] :=
      List.ne_nil_of_length_pos (by decide +kernel)
    obtain ⟨m,wants⟩ := List.exists_mem_of_ne_nil _ satisfies
    have found := (listed m wants).1
    rw [nothing] at found
    exact List.not_mem_nil found

end

end MemoryTable
end Ecphoria
