import Ecphoria.Library.Nearest
import Ecphoria.Engine.Ingest
import Ecphoria.Memory.VectorStore

/-! Vector search for one tenant. The index is asked for four times as many neighbours as are wanted, those of other
tenants are passed over, and what is left may be too little. -/
namespace Ecphoria
open Library

/-- Where a search runs: whether overflow is checked, the bytes of a result, and the bytes that one buffer may take.
A result holds an id, and no buffer is larger than `isize::MAX`. -/
structure Machine where
  overflowChecks : Bool
  resultSize : Nat
  memory : Nat
  sized : 16 ≤ resultSize
  addressable : memory < 2 ^ 63

namespace Machine

/-- `usize` multiplication. -/
def mul (machine : Machine) (a b : Nat) : Option Nat :=
  if a * b < 2 ^ 64 then some (a * b) else if machine.overflowChecks then none else some (a * b % 2 ^ 64)

/-- `Vec::with_capacity` for results. -/
def allocates (machine : Machine) (k : Nat) : Bool := k * machine.resultSize ≤ machine.memory

end Machine

/-- What the neighbour library answers for a number of neighbours: numbers of entries with their distances. -/
abbrev IndexAnswers := Nat → Except String (List (Nat × Rat))

namespace VectorStore

/-- Pass over the matches until there are `k` results. -/
def collectMatches (store : VectorStore) (filter : StoredEntry → Bool) (k : Nat) :
    List (Nat × Rat) → List (StoredEntry × Rat) → List (StoredEntry × Rat)
  | [],results => results
  | (key,distance) :: rest,results =>
    if k ≤ results.length then results
    else
      match store.entries.find key with
      | some entry =>
        store.collectMatches filter k rest (if filter entry then results ++ [(entry,1 - distance)] else results)
      | none => store.collectMatches filter k rest results

def searchFiltered (store : VectorStore) (machine : Machine) (index : IndexAnswers) (vector : List Rat) (k : Nat)
    (filter : StoredEntry → Bool) : Except Failure (List (StoredEntry × Rat)) :=
  if k = 0 || store.entries.rows.isEmpty then .ok []
  else if vector.length ≠ store.dimension then
    .error (.error (.query s!"query dimension mismatch: expected {store.dimension}, got {vector.length}"))
  else
    match machine.mul k 4 with
    | none => .error .panic
    | some product =>
      match index (min product store.entries.rows.length) with
      | .error text => .error (.error (.query ("search failed: " ++ text)))
      | .ok found => if machine.allocates k then .ok (store.collectMatches filter k found []) else .error .panic

end VectorStore

inductive SearchFailure where
  | embedding (message : String)
  | failed (failure : Failure)

/-- The executor of one query: the event vectors, the provider of query vectors, and the tenant it is scoped to. -/
structure QueryExecutor where
  semantic : VectorStore
  embedding : Option (String → Except String (List (List Rat)))
  tenant : Option String

def ofTenant (tenant : String) (entry : StoredEntry) : Bool :=
  ((entry.metadata.get "tenant_id").bind Json.asStr).getD "default" = tenant

def hitRow (hit : StoredEntry × Rat) : Json :=
  .obj [("content",.str hit.1.content),("id",.str hit.1.id.toString),("metadata",hit.1.metadata),("score",.float hit.2)]

def QueryExecutor.executeVectorSearch (exec : QueryExecutor) (machine : Machine) (index : IndexAnswers)
    (queryText : String) (k : Nat) : Except SearchFailure (List Json) :=
  match exec.embedding with
  | none => .error (.embedding
      "no embedding provider configured — ecphoria_search() requires an embedding provider")
  | some embedQuery =>
    match embedQuery queryText with
    | .error text => .error (.embedding text)
    | .ok [] => .error (.embedding "embedding returned empty result")
    | .ok (vector :: _) =>
      let results := match exec.tenant with
        | some tenant => exec.semantic.searchFiltered machine index vector k (ofTenant tenant)
        | none => (exec.semantic.search vector k (index k)).mapError Failure.error
      match results with
      | .error failure => .error (.failed failure)
      | .ok hits => .ok (hits.map hitRow)

/-- The library answers the nearest stored entries, as many as it is asked for, up to its size. -/
def AnswersNearest (store : VectorStore) (dist : StoredEntry → Rat) (index : IndexAnswers) : Prop :=
  ∀ n ≤ store.entries.rows.length, ∃ answer, Nearest dist store.entries.rows n answer ∧
    index n = .ok (answer.map (fun entry => (entry.key,dist entry)))

/-- The `k` nearest entries of the tenant, or all it has, with their scores; entries of others play no part. -/
structure TenantExact (store : VectorStore) (dist : StoredEntry → Rat) (tenant : String) (k : Nat)
    (hits : List (StoredEntry × Rat)) : Prop where
  nearest : Nearest dist (store.entries.rows.filter (ofTenant tenant)) k (hits.map Prod.fst)
  scores : ∀ hit ∈ hits, hit.2 = 1 - dist hit.1

/-- As many entries of the tenant as are answered have few enough entries of others around them: at most `4 * k`, less
the entries answered, are at most as far. -/
def RoomForTenant (store : VectorStore) (dist : StoredEntry → Rat) (tenant : String) (k : Nat) : Prop :=
  let count := min k (store.entries.rows.filter (ofTenant tenant)).length
  count ≤ (uncrowded dist (ofTenant tenant) store.entries.rows count (4 * k)).length

instance (store : VectorStore) (dist : StoredEntry → Rat) (tenant : String) (k : Nat) :
    Decidable (RoomForTenant store dist tenant k) := Nat.decLe _ _

section
variable {store : VectorStore} {dist : StoredEntry → Rat} {tenant : String} {k : Nat} {machine : Machine}
  {index : IndexAnswers} {vector : List Rat}

theorem entries_nodup (store : VectorStore) : store.entries.rows.Nodup := List.Nodup.of_map _ store.entries.unique

theorem collectMatches_eq (filter : StoredEntry → Bool) {answer : List StoredEntry}
    (stored : ∀ entry ∈ answer, entry ∈ store.entries.rows) (results : List (StoredEntry × Rat)) :
    store.collectMatches filter k (answer.map (fun entry => (entry.key,dist entry))) results =
      results ++ ((answer.filter filter).take (k - results.length)).map (fun entry => (entry,1 - dist entry)) := by
  induction answer generalizing results with
  | nil => simp [VectorStore.collectMatches]
  | cons entry answer ih =>
    have found : store.entries.find entry.key = some entry :=
      (Table.find_eq_some _ _ _).mpr ⟨stored entry List.mem_cons_self,rfl⟩
    have rest := ih (fun other inside => stored other (List.mem_cons_of_mem entry inside))
    rw [List.map_cons,VectorStore.collectMatches,List.filter_cons]
    by_cases full : k ≤ results.length
    · rw [if_pos full,Nat.sub_eq_zero_of_le full]
      simp
    · rw [if_neg full,found]
      dsimp only
      rw [rest]
      split
      next mine =>
        obtain ⟨left,room⟩ : ∃ left, k - results.length = left + 1 := ⟨k - results.length - 1,by omega⟩
        have next : k - (results ++ [(entry,1 - dist entry)]).length = left := by
          rw [List.length_append,List.length_singleton]
          omega
        rw [next,room,List.take_succ_cons,List.map_cons,List.append_assoc,List.singleton_append]
      next => rfl

theorem uncrowded_window {count : Nat} (fits : count ≤ (store.entries.rows.filter (ofTenant tenant)).length) (window : Nat) :
    uncrowded dist (ofTenant tenant) store.entries.rows count (min window store.entries.rows.length) =
      uncrowded dist (ofTenant tenant) store.entries.rows count window := by
  refine List.filter_congr ?_
  intro entry _
  have whole := length_own_others (ofTenant tenant) store.entries.rows
  have near : nearby dist (ofTenant tenant) store.entries.rows entry ≤
      (store.entries.rows.filter (fun x => !ofTenant tenant x)).length := by
    unfold nearby
    rw [← List.countP_eq_length_filter,← List.countP_eq_length_filter]
    refine List.countP_mono_left ?_
    intro x _ there
    rw [Bool.and_eq_true] at there
    exact there.1
  have same : nearby dist (ofTenant tenant) store.entries.rows entry + count ≤ min window store.entries.rows.length ↔
      nearby dist (ofTenant tenant) store.entries.rows entry + count ≤ window := by omega
  simp only [same]

theorem Machine.mul_of_allocates (fits : machine.allocates k = true) : machine.mul k 4 = some (k * 4) := by
  have bytes := of_decide_eq_true fits
  have least := Nat.mul_le_mul_left k machine.sized
  have most := machine.addressable
  rw [Machine.mul,if_pos (by omega)]

/-- A search that is not over at once: nothing stops it, and then it answers the own ones among the matches. -/
theorem searchFiltered_ok_iff (some : k ≠ 0) (entries : store.entries.rows ≠ []) (filter : StoredEntry → Bool)
    {hits : List (StoredEntry × Rat)} :
    store.searchFiltered machine index vector k filter = .ok hits ↔
      vector.length = store.dimension ∧ machine.allocates k = true ∧
        ∃ found, index (min (k * 4) store.entries.rows.length) = .ok found ∧ store.collectMatches filter k found [] = hits := by
  have going : ¬(decide (k = 0) || store.entries.rows.isEmpty) = true := by simp [some,entries]
  rw [VectorStore.searchFiltered,if_neg going]
  by_cases fits : vector.length = store.dimension
  · rw [if_neg (not_not.mpr fits)]
    cases room : machine.allocates k with
    | true =>
      rw [Machine.mul_of_allocates room]
      dsimp only
      cases index (min (k * 4) store.entries.rows.length) with
      | error text => simp
      | ok found => simp [fits]
    | false =>
      refine iff_of_false ?_ (by simp)
      cases machine.mul k 4 with
      | none => simp
      | some product =>
        dsimp only
        cases index (min product store.entries.rows.length) with
        | error text => simp
        | ok found => simp
  · rw [if_pos fits]
    simp [fits]

theorem tenantExact_nil (none : k = 0 ∨ store.entries.rows = []) : TenantExact store dist tenant k [] := by
  refine ⟨⟨List.nodup_nil,nofun,?_,List.Pairwise.nil,nofun⟩,nofun⟩
  rcases none with rfl | empty
  · simp
  · rw [empty]
    simp

theorem exists_index_answers (tenant : String) (answer : List StoredEntry) {m : Nat}
    (near : Nearest dist store.entries.rows m answer) :
    ∃ index, AnswersNearest store dist index ∧ index m = .ok (answer.map (fun entry => (entry.key,dist entry))) := by
  refine ⟨fun n => if n = m then .ok (answer.map (fun entry => (entry.key,dist entry)))
    else .ok ((crowdedAnswer dist (ofTenant tenant) store.entries.rows n).map (fun entry => (entry.key,dist entry))),?_,
    if_pos rfl⟩
  intro n _
  by_cases same : n = m
  · exact ⟨answer,same ▸ near,if_pos same⟩
  · exact ⟨_,crowdedAnswer_nearest dist (ofTenant tenant) (entries_nodup store) n,if_neg same⟩

theorem collected_entries {answer : List StoredEntry} (stored : ∀ entry ∈ answer, entry ∈ store.entries.rows) :
    (store.collectMatches (ofTenant tenant) k (answer.map (fun entry => (entry.key,dist entry))) []).map Prod.fst =
      (answer.filter (ofTenant tenant)).take k := by
  rw [collectMatches_eq _ stored,List.nil_append,List.length_nil,Nat.sub_zero,List.map_map]
  exact List.map_id _

theorem collected_exact {answer : List StoredEntry} (stored : ∀ entry ∈ answer, entry ∈ store.entries.rows)
    (nearest : Nearest dist (store.entries.rows.filter (ofTenant tenant)) k ((answer.filter (ofTenant tenant)).take k)) :
    TenantExact store dist tenant k
      (store.collectMatches (ofTenant tenant) k (answer.map (fun entry => (entry.key,dist entry))) []) := by
  refine ⟨by rwa [collected_entries stored],?_⟩
  rw [collectMatches_eq _ stored]
  intro hit inside
  obtain ⟨entry,_,rfl⟩ := List.mem_map.mp inside
  rfl

theorem map_of_map {α β γ : Type} {f : α → β} {g : α → γ} {a b : List α}
    (told : ∀ x ∈ a, ∀ y ∈ b, f x = f y → g x = g y) (same : a.map f = b.map f) : a.map g = b.map g := by
  induction a generalizing b with
  | nil => rw [List.map_eq_nil_iff.mp same.symm]
  | cons x a ih =>
    cases b with
    | nil => cases same
    | cons y b =>
      obtain ⟨first,rest⟩ := List.cons.inj same
      rw [List.map_cons,List.map_cons,told x List.mem_cons_self y List.mem_cons_self first,
        ih (fun c left d right => told c (List.mem_cons_of_mem x left) d (List.mem_cons_of_mem y right)) rest]

theorem entry_of_hitRow (store : VectorStore) {a b : StoredEntry × Rat} (left : a.1 ∈ store.entries.rows)
    (right : b.1 ∈ store.entries.rows)
    (same : hitRow a = hitRow b) : a.1 = b.1 := by
  have texts : some (Json.str a.1.id.toString) = some (Json.str b.1.id.toString) := congrArg (Json.get "id") same
  have ids := Uuid.toString_inj (Json.str.inj (Option.some.inj texts))
  have first := (store.tied a.1.id a.1.key).mpr ⟨a.1,left,rfl,rfl⟩
  have second := (store.tied a.1.id b.1.key).mpr ⟨b.1,right,rfl,ids.symm⟩
  exact store.entries.eq_of_key left right (Option.some.inj (first.symm.trans second))

theorem room_iff : (∀ answer, Nearest dist store.entries.rows (min (k * 4) store.entries.rows.length) answer →
    Nearest dist (store.entries.rows.filter (ofTenant tenant)) k ((answer.filter (ofTenant tenant)).take k)) ↔
      RoomForTenant store dist tenant k := by
  rw [nearest_filter_iff (entries_nodup store) (Nat.min_le_right _ _),uncrowded_window (Nat.min_le_right _ _),
    Nat.mul_comm k 4]
  rfl

section
variable {exec : QueryExecutor} {embedQuery : String → Except String (List (List Rat))} {queryText : String}
  {others : List (List Rat)} (asked : exec.tenant = some tenant) (provider : exec.embedding = some embedQuery)
  (embedded : embedQuery queryText = .ok (vector :: others))

include asked provider embedded

theorem executed_iff {rows : List Json} : exec.executeVectorSearch machine index queryText k = .ok rows ↔
    ∃ hits, exec.semantic.searchFiltered machine index vector k (ofTenant tenant) = .ok hits ∧ hits.map hitRow = rows := by
  simp only [QueryExecutor.executeVectorSearch,provider,embedded,asked]
  cases exec.semantic.searchFiltered machine index vector k (ofTenant tenant) with
  | error failure => simp
  | ok hits => simp

theorem room_of_exact (some : k ≠ 0) (entries : exec.semantic.entries.rows ≠ [])
    (exact_all : ∀ index, AnswersNearest exec.semantic dist index → ∃ hits, TenantExact exec.semantic dist tenant k hits ∧
      exec.executeVectorSearch machine index queryText k = .ok (hits.map hitRow)) :
    vector.length = exec.semantic.dimension ∧ machine.allocates k = true ∧ RoomForTenant exec.semantic dist tenant k := by
  rw [← room_iff]
  have outcome (answer : List StoredEntry)
      (near : Nearest dist exec.semantic.entries.rows (min (k * 4) exec.semantic.entries.rows.length) answer) :
      vector.length = exec.semantic.dimension ∧ machine.allocates k = true ∧
        Nearest dist (exec.semantic.entries.rows.filter (ofTenant tenant)) k
          ((answer.filter (ofTenant tenant)).take k) := by
    obtain ⟨index,answers,found⟩ := exists_index_answers tenant answer near
    obtain ⟨hits,exact_hits,ok⟩ := exact_all index answers
    obtain ⟨collected,searched,rows⟩ := (executed_iff asked provider embedded).mp ok
    obtain ⟨fits,memory,matched,here,rfl⟩ := (searchFiltered_ok_iff some entries _).mp searched
    rw [found] at here
    cases here
    have told : ∀ x ∈ exec.semantic.collectMatches (ofTenant tenant) k
        (answer.map (fun entry => (entry.key,dist entry))) [], ∀ y ∈ hits, hitRow x = hitRow y → x.1 = y.1 := by
      intro x left y right same
      refine entry_of_hitRow exec.semantic ?_ ?_ same
      · have listed := List.mem_map_of_mem (f := Prod.fst) left
        rw [collected_entries near.stored] at listed
        exact near.stored x.1 (List.mem_of_mem_filter (List.mem_of_mem_take listed))
      · exact List.mem_of_mem_filter (exact_hits.nearest.stored y.1 (List.mem_map_of_mem right))
    have same := map_of_map told rows
    rw [collected_entries near.stored] at same
    exact ⟨fits,memory,same ▸ exact_hits.nearest⟩
  have one := outcome _ (crowdedAnswer_nearest dist (ofTenant tenant) (entries_nodup exec.semantic) _)
  exact ⟨one.1,one.2.1,fun answer near => (outcome answer near).2.2⟩

/-- A tenant is answered its nearest entries, for every answer of the library, exactly when there is nothing to search,
or the vector has the width of the index, the results fit into memory, and others leave room. -/
theorem tenant_search_iff (machine : Machine) (dist : StoredEntry → Rat) (k : Nat) :
    (∀ index, AnswersNearest exec.semantic dist index → ∃ hits, TenantExact exec.semantic dist tenant k hits ∧
        exec.executeVectorSearch machine index queryText k = .ok (hits.map hitRow)) ↔
      k = 0 ∨ exec.semantic.entries.rows = [] ∨
        vector.length = exec.semantic.dimension ∧ machine.allocates k = true ∧
          RoomForTenant exec.semantic dist tenant k := by
  by_cases done : k = 0 ∨ exec.semantic.entries.rows = []
  · refine iff_of_true ?_ (or_assoc.mp (Or.inl done))
    intro index _
    refine ⟨[],tenantExact_nil done,(executed_iff asked provider embedded).mpr ⟨[],?_,rfl⟩⟩
    rw [VectorStore.searchFiltered,if_pos (by simpa using done)]
  · obtain ⟨some,entries⟩ := not_or.mp done
    rw [or_iff_right some,or_iff_right entries]
    constructor
    · exact room_of_exact asked provider embedded some entries
    · rintro ⟨fits,memory,room⟩ index answers
      obtain ⟨answer,near,found⟩ := answers _ (Nat.min_le_right (k * 4) _)
      refine ⟨_,collected_exact near.stored (room_iff.mpr room answer near),?_⟩
      exact (executed_iff asked provider embedded).mpr
        ⟨_,(searchFiltered_ok_iff some entries _).mpr ⟨fits,memory,_,found,rfl⟩,rfl⟩

end

end

def eventOf (tenant : String) (n : Nat) : SemanticEntry :=
  ⟨⟨BitVec.ofNat 128 n⟩,"note",[1],.obj [("tenant_id",.str tenant)]⟩

def sharedEvents : VectorStore :=
  [eventOf "b" 1,eventOf "b" 2,eventOf "b" 3,eventOf "b" 4,eventOf "a" 5].foldl
    (fun store entry => (store.upsert entry .willing).2) (.withDimension 1)

/-- The executor of a query of the other tenant. -/
def scopedExecutor : QueryExecutor := ⟨sharedEvents,some (fun _ => .ok [[1]]),some "a"⟩

def server : Machine := ⟨false,96,2 ^ 40,by decide,by decide⟩

/-- The event of the tenant is a little farther than the others. -/
def closeness (entry : StoredEntry) : Rat := if entry.key = 5 then 1 else 0

theorem sharedEvents_rows : sharedEvents.entries.rows.map StoredEntry.key = [1,2,3,4,5] := by decide

theorem tenant_crowded_out : ¬∀ (exec : QueryExecutor) (tenant : String) embedQuery queryText vector others,
    exec.tenant = some tenant → exec.embedding = some embedQuery → embedQuery queryText = .ok (vector :: others) →
    vector.length = exec.semantic.dimension → ∀ machine dist k index, AnswersNearest exec.semantic dist index →
      ∃ hits, TenantExact exec.semantic dist tenant k hits ∧
        exec.executeVectorSearch machine index queryText k = .ok (hits.map hitRow) := by
  intro kept
  have some : sharedEvents.entries.rows ≠ [] := by
    intro none
    have keys := sharedEvents_rows
    rw [none] at keys
    cases keys
  have found : [(1 : Rat)].length = scopedExecutor.semantic.dimension ∧ server.allocates 1 = true ∧
      RoomForTenant scopedExecutor.semantic closeness "a" 1 :=
    room_of_exact rfl rfl rfl (by decide) some
      (kept scopedExecutor "a" _ "notes" [1] [] rfl rfl rfl (by decide) server closeness 1)
  exact absurd found.2.2 (by decide)

/-- With two neighbours asked for there is room. -/
theorem tenant_search_two : RoomForTenant scopedExecutor.semantic closeness "a" 2 ∧
    ∀ index, AnswersNearest scopedExecutor.semantic closeness index → ∃ hits,
      TenantExact scopedExecutor.semantic closeness "a" 2 hits ∧
        scopedExecutor.executeVectorSearch server index "notes" 2 = .ok (hits.map hitRow) := by
  refine ⟨by decide,?_⟩
  exact (tenant_search_iff rfl rfl rfl server closeness 2).mpr (Or.inr (Or.inr ⟨by decide,by decide,by decide⟩))

end Ecphoria
