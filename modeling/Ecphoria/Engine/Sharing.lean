import Ecphoria.Engine.Isolation
import Ecphoria.Library.Grouping

/-! Memories shared by grants. A shared search asks once for the caller and once for each
grantor, keeps the best hit of every memory and the best of these; what it may read is said
by the book of the grants given and not revoked. -/
namespace Ecphoria
open Library

structure Grant where
  id : Uuid
  granteeUserId : String
  grantorUserId : String
deriving DecidableEq,Repr

namespace GrantTable

def isGrant (tenant grantee grantor : String) (row : GrantRow) : Bool :=
  row.tenantId = tenant && row.granteeUserId = grantee && row.grantorUserId = grantor && row.access = "read"

/-- `id` is drawn, `now` is the default of the column, and `refusal` what the database says to an id that is taken.
A grant that stands is answered with its id. -/
def addGrant (t : GrantTable) (refusal : String) (id : Uuid) (now : Int) (tenant grantee grantor : String) :
    Except Error Uuid × GrantTable :=
  match t.rows.find? (isGrant tenant grantee grantor) with
  | some row => (.ok row.id,t)
  | none =>
    match t.insert ⟨id,tenant,grantee,grantor,"read",now⟩ with
    | some t => (.ok id,t)
    | none => (.error (.state ("add grant: " ++ refusal)),t)

def listGrants (t : GrantTable) (tenant grantee : String) : List Grant :=
  ((t.rows.filter (fun row => row.tenantId = tenant && row.granteeUserId = grantee)).insertionSort
    (fun a b => a.createdAt ≤ b.createdAt)).map (fun row => ⟨row.id,row.granteeUserId,row.grantorUserId⟩)

def revokeGrant (t : GrantTable) (tenant : String) (id : Uuid) : Bool × GrantTable :=
  (t.rows.any (fun row => row.id = id && row.tenantId = tenant),t.delete (fun row => row.id = id && row.tenantId = tenant))

end GrantTable

abbrev AuthzBackend := String → String → List String

def localGrants (t : GrantTable) : AuthzBackend := fun tenant user => (t.listGrants tenant user).map Grant.grantorUserId

namespace Engine

def grantShare (e : Engine) (refusal : String) (id : Uuid) (now : Int) (tenant grantee grantor : String) :
    Except Error Uuid × Engine :=
  let (answer,grants) := GrantTable.addGrant e.grants refusal id now tenant grantee grantor
  (answer,{ e with grants := grants })

def revokeGrant (e : Engine) (tenant : String) (id : Uuid) : Bool × Engine :=
  let (removed,grants) := GrantTable.revokeGrant e.grants tenant id
  (removed,{ e with grants := grants })

end Engine

/-- How a shared search puts hits together: the total order of its floats, in which a smaller score comes before a
greater one, and the order in which a hash map is read. -/
structure Merger {F : Type} (f32 : Arith F) where
  totalLe : F → F → Bool
  total : ∀ a b, totalLe a b = true ∨ totalLe b a = true
  trans : ∀ a b c, totalLe a b = true → totalLe b c = true → totalLe a c = true
  strict : ∀ a b, f32.lt a b = true → totalLe b a = false
  hashOrder : List (MemoryHit F) → List (MemoryHit F)
  reordered : ∀ hits, (hashOrder hits).Perm hits

def hitId {F : Type} (hit : MemoryHit F) : Uuid := hit.memory.id

def grantorScope (scope : MemoryScope) (grantor : String) : MemoryScope := ⟨scope.tenantId,some grantor,none,none⟩

section
variable (env : Env) {F : Type} (r : Retriever F)

/-- The hits of a memory that is known already count when they score higher. -/
def raiseScore (best hit : MemoryHit F) : MemoryHit F :=
  { best with score := greater r.f32.lt best.score hit.score }

def grantorHits (e : Engine) (config : RetrievalConfig) (answers : Nat → Answers) (authz : AuthzBackend) (query : String)
    (scope : MemoryScope) (k : Nat) : List (MemoryHit F) :=
  match scope.userId with
  | none => []
  | some grantee => (authz (tenantOrDefault scope.tenantId) grantee).zipIdx.flatMap (fun (grantor,i) =>
      memorySearch env r e config (answers (i + 1)) query (grantorScope scope grantor) k)

def sharedHits (e : Engine) (config : RetrievalConfig) (answers : Nat → Answers) (authz : AuthzBackend) (query : String)
    (scope : MemoryScope) (k : Nat) : List (MemoryHit F) :=
  memorySearch env r e config (answers 0) query scope k ++ grantorHits env r e config answers authz query scope k

def bestFirst (merger : Merger r.f32) (hits : List (MemoryHit F)) : List (MemoryHit F) :=
  (merger.hashOrder (mergeAll hitId (raiseScore r) hits)).insertionSort (fun a b => merger.totalLe b.score a.score = true)

def memorySearchShared (merger : Merger r.f32) (e : Engine) (config : RetrievalConfig) (answers : Nat → Answers)
    (authz : AuthzBackend) (query : String) (scope : MemoryScope) (k : Nat) : List (MemoryHit F) :=
  match scope.userId with
  | none => memorySearch env r e config (answers 0) query scope k
  | some _ => (bestFirst r merger (sharedHits env r e config answers authz query scope k)).take k

end

/-- The grants given and not revoked: of a tenant, a grantee and a grantor, the id of the grant. -/
abbrev GrantBook := String × String × String → Option Uuid

namespace GrantBook

def grant (book : GrantBook) (id : Uuid) (key : String × String × String) : GrantBook :=
  Function.update book key (some ((book key).getD id))

def revoke (book : GrantBook) (tenant : String) (id : Uuid) : GrantBook :=
  fun key => (book key).filter (fun held => !(held = id && key.1 = tenant))

end GrantBook

def GrantRow.key (row : GrantRow) : String × String × String := (row.tenantId,row.granteeUserId,row.grantorUserId)

structure GrantsFollow (t : GrantTable) (book : GrantBook) : Prop where
  listed : ∀ row ∈ t.rows, row.access = "read" ∧ book row.key = some row.id
  written : ∀ key id, book key = some id → ∃ row ∈ t.rows, row.id = id ∧ row.key = key

namespace GrantsFollow
variable {t : GrantTable} {book : GrantBook}

theorem empty : GrantsFollow .empty (fun _ => none) := ⟨fun _ none => absurd none List.not_mem_nil,fun _ _ given => by cases given⟩

theorem addGrant (follows : GrantsFollow t book) (refusal : String) {id : Uuid} (fresh : id ∉ t.keys) (now : Int)
    (tenant grantee grantor : String) :
    GrantsFollow (GrantTable.addGrant t refusal id now tenant grantee grantor).2 (book.grant id (tenant,grantee,grantor)) := by
  unfold GrantTable.addGrant
  split
  next row found =>
    have named : row.key = (tenant,grantee,grantor) := by
      have chosen := List.find?_some found
      simp only [GrantTable.isGrant,Bool.and_eq_true,decide_eq_true_eq] at chosen
      obtain ⟨⟨⟨rfl,rfl⟩,rfl⟩,_⟩ := chosen
      rfl
    have held := (follows.listed row (List.mem_of_find?_eq_some found)).2
    have same : book.grant id (tenant,grantee,grantor) = book := by
      rw [GrantBook.grant,← named,held]
      exact Function.update_eq_self_iff.mpr held.symm
    rw [same]
    exact follows
  next absent =>
    have free : book (tenant,grantee,grantor) = none := by
      cases held : book (tenant,grantee,grantor) with
      | none => rfl
      | some other =>
        obtain ⟨row,inside,_,named⟩ := follows.written _ _ held
        simp only [GrantRow.key,Prod.mk.injEq] at named
        have other := List.find?_eq_none.mp absent row inside
        simp [GrantTable.isGrant,named,(follows.listed row inside).1] at other
    rw [Table.insert,if_neg fresh]
    have rows (row : GrantRow) : row ∈ (Table.upsert t ⟨id,tenant,grantee,grantor,"read",now⟩).rows ↔
        row = ⟨id,tenant,grantee,grantor,"read",now⟩ ∨ row ∈ t.rows ∧ row.id ≠ id := Table.mem_upsert _ _ _
    rw [GrantBook.grant,free,Option.getD_none]
    constructor
    · intro row inside
      rcases (rows row).mp inside with rfl | ⟨old,_⟩
      · exact ⟨rfl,Function.update_self ..⟩
      · obtain ⟨read,held⟩ := follows.listed row old
        refine ⟨read,?_⟩
        rw [Function.update_of_ne (fun equal => by rw [equal,free] at held; cases held)]
        exact held
    · intro key held given
      by_cases equal : key = (tenant,grantee,grantor)
      · subst equal
        rw [Function.update_self] at given
        cases given
        exact ⟨_,(rows _).mpr (Or.inl rfl),rfl,rfl⟩
      · rw [Function.update_of_ne equal] at given
        obtain ⟨row,inside,rfl,named⟩ := follows.written key held given
        exact ⟨row,(rows row).mpr (Or.inr ⟨inside,fun drawn => fresh ((t.mem_keys _).mpr ⟨row,inside,drawn⟩)⟩),rfl,named⟩

theorem revokeGrant (follows : GrantsFollow t book) (tenant : String) (id : Uuid) :
    GrantsFollow (GrantTable.revokeGrant t tenant id).2 (book.revoke tenant id) := by
  have rows (row : GrantRow) : row ∈ (GrantTable.revokeGrant t tenant id).2.rows ↔
      row ∈ t.rows ∧ (row.id = id && row.tenantId = tenant) = false := Table.mem_delete _ _ _
  constructor
  · intro row inside
    obtain ⟨old,spared⟩ := (rows row).mp inside
    obtain ⟨read,held⟩ := follows.listed row old
    exact ⟨read,by rw [GrantBook.revoke,held]; exact Option.filter_eq_some_iff.mpr ⟨rfl,by rw [GrantRow.key,spared]; rfl⟩⟩
  · intro key held given
    obtain ⟨found,spared⟩ := Option.filter_eq_some_iff.mp given
    obtain ⟨row,inside,rfl,rfl⟩ := follows.written key held found
    exact ⟨row,(rows row).mpr ⟨inside,by rw [Bool.not_eq_true'] at spared; exact spared⟩,rfl,rfl⟩

theorem mem_localGrants (follows : GrantsFollow t book) (tenant user grantor : String) :
    grantor ∈ localGrants t tenant user ↔ (book (tenant,user,grantor)).isSome := by
  have rows : grantor ∈ localGrants t tenant user ↔ ∃ row ∈ t.rows, row.key = (tenant,user,grantor) := by
    simp only [localGrants,GrantTable.listGrants,List.map_map,List.mem_map,List.mem_insertionSort,List.mem_filter,
      Bool.and_eq_true,decide_eq_true_eq,Function.comp_apply,GrantRow.key,Prod.mk.injEq]
    constructor
    · rintro ⟨row,⟨inside,about,grantee⟩,named⟩
      exact ⟨row,inside,about,grantee,named⟩
    · rintro ⟨row,inside,about,grantee,named⟩
      exact ⟨row,⟨inside,about,grantee⟩,named⟩
  rw [rows,Option.isSome_iff_exists]
  constructor
  · rintro ⟨row,inside,named⟩
    exact ⟨row.id,named ▸ (follows.listed row inside).2⟩
  · rintro ⟨id,held⟩
    obtain ⟨row,inside,_,named⟩ := follows.written _ _ held
    exact ⟨row,inside,named⟩

end GrantsFollow

/-- The scope of the caller, or that of a user who has given the caller a grant. -/
def Readable (book : GrantBook) (scope within : MemoryScope) : Prop :=
  within = scope.withDefaultTenant ∨ ∃ grantee grantor, scope.userId = some grantee ∧
    (book (tenantOrDefault scope.tenantId,grantee,grantor)).isSome ∧ within = (grantorScope scope grantor).withDefaultTenant

/-- A vector that a shared search can reach belongs to a memory that it may read. -/
def VectorsReadable (e : Engine) (book : GrantBook) (scope : MemoryScope) : Prop :=
  ∀ within, Readable book scope within → ∀ entry ∈ (e.vectors.partitions (scopePartitionKey within)).entries.rows,
    ∀ m, e.memories.get entry.id = some m → m.state = .active → Readable book scope m.scope.withDefaultTenant

section
variable {env : Env} {F : Type} {r : Retriever F} {merger : Merger r.f32} {e : Engine} {config : RetrievalConfig}
variable {answers : Nat → Answers} {authz : AuthzBackend} {book : GrantBook} {query : String} {scope : MemoryScope} {k : Nat}

theorem hitId_raiseScore (best hit : MemoryHit F) : hitId (raiseScore r best hit) = hitId best := rfl

theorem raise_foldl (rest : List (MemoryHit F)) (first : MemoryHit F) :
    (rest.foldl (raiseScore r) first).memory = first.memory ∧
      (rest.foldl (raiseScore r) first).score = (rest.map MemoryHit.score).foldl (greater r.f32.lt) first.score := by
  induction rest generalizing first with
  | nil => exact ⟨rfl,rfl⟩
  | cons hit rest ih => exact ih (raiseScore r first hit)

/-- What is kept of a memory is one of its hits, with a score that no hit of it exceeds, as far as they compare. -/
theorem kept_best {hits : List (MemoryHit F)} {kept : MemoryHit F} (asymm : ∀ a b, r.f32.lt a b = true → r.f32.lt b a = false)
    (inside : kept ∈ mergeAll hitId (raiseScore r) hits) :
    (∃ hit ∈ hits, hit.memory = kept.memory) ∧ ((∀ hit ∈ hits, hitId hit = hitId kept → Comparable r.f32.lt hit.score) →
      Comparable r.f32.lt kept.score ∧ ∀ hit ∈ hits, hitId hit = hitId kept → r.f32.lt kept.score hit.score = false) := by
  obtain ⟨first,rest,group,folded⟩ := mem_mergeAll hitId_raiseScore inside
  obtain ⟨memory,score⟩ := raise_foldl (r := r) rest first
  rw [folded] at memory score
  have listed (hit : MemoryHit F) : hit ∈ first :: rest ↔ hit ∈ hits ∧ hitId hit = hitId kept := by
    rw [← group,List.mem_filter,decide_eq_true_eq]
  refine ⟨⟨first,((listed first).mp List.mem_cons_self).1,memory.symm⟩,?_⟩
  intro numbers
  have comparable : ∀ x ∈ first.score :: rest.map MemoryHit.score, Comparable r.f32.lt x := by
    intro x member
    rw [← List.map_cons] at member
    obtain ⟨hit,there,rfl⟩ := List.mem_map.mp member
    obtain ⟨given,same⟩ := (listed hit).mp there
    exact numbers hit given same
  rw [score]
  refine ⟨comparable _ (foldl_greater_mem _ _),?_⟩
  intro hit given same
  apply foldl_greater asymm comparable
  rw [← List.map_cons]
  exact List.mem_map_of_mem ((listed hit).mpr ⟨given,same⟩)

theorem Merger.asymm (merger : Merger r.f32) (a b : F) (less : r.f32.lt a b = true) : r.f32.lt b a = false := by
  by_contra more
  have first := merger.strict a b less
  have second := merger.strict b a ((Bool.not_eq_false _).mp more)
  rcases merger.total a b with le | le
  · rw [le] at second
    cases second
  · rw [le] at first
    cases first

theorem bestFirst_perm (merger : Merger r.f32) (hits : List (MemoryHit F)) :
    (bestFirst r merger hits).Perm (mergeAll hitId (raiseScore r) hits) :=
  (List.perm_insertionSort _ _).trans (merger.reordered _)

theorem bestFirst_sorted (merger : Merger r.f32) (hits : List (MemoryHit F)) :
    (bestFirst r merger hits).Pairwise (fun a b => merger.totalLe b.score a.score = true) := by
  have total : Std.Total (fun a b : MemoryHit F => merger.totalLe b.score a.score = true) :=
    ⟨fun a b => (merger.total b.score a.score)⟩
  have trans : IsTrans (MemoryHit F) (fun a b => merger.totalLe b.score a.score = true) :=
    ⟨fun a b c first second => merger.trans _ _ _ second first⟩
  exact List.pairwise_insertionSort _ _

structure SharedAnswer (f32 : Arith F) (book : GrantBook) (scope : MemoryScope) (k : Nat) (found hits : List (MemoryHit F)) :
    Prop where
  readable : ∀ hit ∈ hits, Readable book scope hit.memory.scope.withDefaultTenant
  once : (hits.map hitId).Nodup
  bounded : hits.length ≤ k
  best : ∀ hit ∈ hits, ∀ other ∈ found, hitId other ∉ hits.map hitId →
    (∀ twin ∈ found, hitId twin = hitId other → Comparable f32.lt twin.score) → f32.lt hit.score other.score = false

theorem memorySearch_readable {within : MemoryScope} (apart : VectorsReadable e book scope)
    (readable : Readable book scope within.withDefaultTenant) {answers : Answers} {hit : MemoryHit F} (inside : hit ∈ memorySearch env r e config answers query within k) :
    Readable book scope hit.memory.scope.withDefaultTenant := by
  have own (same : hit.memory.scope = within.withDefaultTenant) :
      Readable book scope hit.memory.scope.withDefaultTenant := by
    rw [same,MemoryScope.withDefaultTenant_withDefaultTenant]
    exact readable
  cases memorySearchInner_hit inside with
  | listed blank listed => exact own (MemoryTable.mem_listActive listed).1
  | fallback asked listed filtered => exact own (MemoryTable.mem_listActive listed).1
  | text asked listed => exact own (mem_textCandidates listed).1
  | near asked listed =>
    obtain ⟨near,member,same⟩ := List.mem_map.mp listed
    obtain ⟨_,active,stored,entry,indexed,named⟩ := mem_vectorHits member
    rw [← same]
    refine apart _ readable entry ?_ near.1 (named ▸ stored) active
    rw [scopePartitionKey_withDefaultTenant]
    exact indexed
  | linked asked linked => rw [linked.within]; exact readable

theorem sharedHits_readable (follows : GrantsFollow e.grants book) (apart : VectorsReadable e book scope) {hit : MemoryHit F}
    (inside : hit ∈ sharedHits env r e config answers (localGrants e.grants) query scope k) :
    Readable book scope hit.memory.scope.withDefaultTenant := by
  rcases List.mem_append.mp inside with own | shared
  · exact memorySearch_readable apart (Or.inl rfl) own
  · unfold grantorHits at shared
    split at shared
    next => cases shared
    next grantee caller =>
      obtain ⟨⟨grantor,i⟩,listed,found⟩ := List.mem_flatMap.mp shared
      have granted : grantor ∈ localGrants e.grants (tenantOrDefault scope.tenantId) grantee :=
        (List.mem_zipIdx' listed).2 ▸ List.getElem_mem _
      exact memorySearch_readable apart
        (Or.inr ⟨grantee,grantor,caller,(follows.mem_localGrants _ _ _).mp granted,rfl⟩) found

theorem bestFirst_answer {found : List (MemoryHit F)}
    (readable : ∀ hit ∈ found, Readable book scope hit.memory.scope.withDefaultTenant) :
    SharedAnswer r.f32 book scope k found ((bestFirst r merger found).take k) where
  readable := by
    intro hit taken
    have kept := (bestFirst_perm merger found).mem_iff.mp (List.mem_of_mem_take taken)
    obtain ⟨⟨origin,given,memory⟩,_⟩ := kept_best merger.asymm kept
    exact memory ▸ readable origin given
  once := by
    refine List.Nodup.sublist ((List.take_sublist _ _).map hitId) ?_
    rw [((bestFirst_perm merger found).map hitId).nodup_iff]
    exact nodup_mergeAll hitId_raiseScore found
  bounded := List.length_take_le _ _
  best := by
    intro hit taken other given left numbers
    have known : hitId other ∈ (bestFirst r merger found).map hitId := by
      rw [((bestFirst_perm merger found).map hitId).mem_iff]
      exact (mem_keys_mergeAll hitId_raiseScore found _).mpr (List.mem_map_of_mem given)
    obtain ⟨kept,sorted,named⟩ := List.mem_map.mp known
    have dropped : kept ∈ (bestFirst r merger found).drop k := by
      rw [← List.take_append_drop k (bestFirst r merger found)] at sorted
      rcases List.mem_append.mp sorted with early | late
      · exact absurd (named ▸ List.mem_map_of_mem early) left
      · exact late
    have below : merger.totalLe kept.score hit.score = true := by
      have whole := bestFirst_sorted merger found
      rw [← List.take_append_drop k (bestFirst r merger found),List.pairwise_append] at whole
      exact whole.2.2 hit taken kept dropped
    obtain ⟨comparable,highest⟩ := (kept_best merger.asymm ((bestFirst_perm merger found).mem_iff.mp sorted)).2
      (fun twin there same => numbers twin there (same.trans named))
    by_contra more
    rcases comparable _ _ ((Bool.not_eq_false _).mp more) with less | less
    · have above := merger.strict _ _ less
      rw [below] at above
      cases above
    · rw [highest other given named.symm] at less
      cases less

theorem memorySearchShared_answer (follows : GrantsFollow e.grants book) (apart : VectorsReadable e book scope) (asked : 0 < k) :
    SharedAnswer r.f32 book scope k (sharedHits env r e config answers (localGrants e.grants) query scope k)
      (memorySearchShared env r merger e config answers (localGrants e.grants) query scope k) := by
  have readable : ∀ hit ∈ sharedHits env r e config answers (localGrants e.grants) query scope k,
      Readable book scope hit.memory.scope.withDefaultTenant := fun _ inside => sharedHits_readable follows apart inside
  unfold memorySearchShared
  split
  next alone =>
    have own : sharedHits env r e config answers (localGrants e.grants) query scope k =
        memorySearch env r e config (answers 0) query scope k := by
      simp only [sharedHits,grantorHits,alone,List.append_nil]
    rw [own] at readable ⊢
    refine ⟨readable,memorySearchInner_nodup,memorySearchInner_length asked,?_⟩
    intro hit taken other given left
    exact absurd (List.mem_map_of_mem given) left
  next => exact bestFirst_answer readable

end

def Merger.plain : Merger Retriever.plain.f32 where
  totalLe a b := decide (a ≤ b)
  total a b := (le_total a b).imp (fun le => decide_eq_true le) (fun le => decide_eq_true le)
  trans _ _ _ first second := decide_eq_true (le_trans (of_decide_eq_true first) (of_decide_eq_true second))
  strict _ _ less := decide_eq_false (not_le.mpr (of_decide_eq_true less))
  hashOrder := id
  reordered := fun _ => .refl _

section
variable (env : Env) {e : Engine} {book : GrantBook}

/-- The query has no text match, and its vector is nearest to the one of `id`. -/
def nearestOnly (e : Engine) (within : MemoryScope) (id : Uuid) : Answers :=
  ⟨.ok [],some (List.replicate (e.vectors.partitions (scopePartitionKey within)).dimension 0),[(id,1)],0⟩

theorem memorySearch_nearest {within : MemoryScope} {entry : SemanticEntry} {m : Memory} {k : Nat} (asked : 0 < k)
    (indexed : entry ∈ (e.vectors.partitions (scopePartitionKey within)).entries.rows)
    (stored : e.memories.get entry.id = some m) (active : m.state = .active) :
    ∃ hit ∈ memorySearch env .plain e .plain (nearestOnly e within entry.id) "tea" within k, hit.memory = m := by
  have near : vectorHits .plain e .plain (nearestOnly e within entry.id) within k none = [(m,1)] := by
    have found : e.vectors.search (scopePartitionKey within)
        (List.replicate (e.vectors.partitions (scopePartitionKey within)).dimension 0)
        (max (poolSize .plain .plain k) (k * 4)) [(entry.id,1)] = .ok [(entry,1)] := by
      have here : (e.vectors.partitions (scopePartitionKey within)).entries.find entry.id = some entry :=
        (Table.find_eq_some _ _ _).mpr ⟨indexed,rfl⟩
      have wide : max (poolSize .plain .plain k) (k * 4) ≠ 0 := by omega
      rw [ScopedVectorIndex.search,SemanticStore.search,if_neg (by simpa [wide] using List.ne_nil_of_mem indexed),
        if_neg (by simp),List.take_of_length_le (by simp; omega)]
      simp [here]
    simp [vectorHits,nearestOnly,Engine.memoryIndexSearch,found,stored,active,inProject]
  have text : textCandidates env .plain e .plain (nearestOnly e within entry.id) "tea" within k none = [] := by
    have none : e.lexical.search (scopePartitionKey within) none (buildMatchExpr env Retriever.plain.isAlphanumeric "tea")
        (max RetrievalConfig.plain.retrievalScanCap k) (.ok []) = .ok [] := by
      unfold LexicalIndex.search
      split
      next => rfl
      next => simp
    simp only [textCandidates,nearestOnly,none]
    rfl
  have blank : ¬(((trim "tea").isEmpty || decide (k = 0)) = true) := by
    have word : (trim "tea").isEmpty = false := by decide
    simp [word]
    omega
  obtain ⟨pool,wide⟩ : ∃ pool, poolSize .plain .plain k = pool + 1 := by
    refine ⟨poolSize .plain .plain k - 1,?_⟩
    simp [poolSize,RetrievalConfig.plain,Retriever.plain]
  obtain ⟨rest,some⟩ : ∃ rest, k = rest + 1 := ⟨k - 1,by omega⟩
  rw [memorySearch,memorySearchInProject,memorySearchInner,if_neg blank]
  simp only [near,text,wide]
  simp [rankText,graphArm,RetrievalConfig.plain,rrfFuseWeighted,rrfScores,addScore,sortByScore,findById,rerank,
    Retriever.plain,some]

theorem sharedHits_stored {F : Type} {r : Retriever F} {config : RetrievalConfig} {answers : Nat → Answers}
    {authz : AuthzBackend} {query : String} {scope : MemoryScope} {k : Nat} {hit : MemoryHit F}
    (inside : hit ∈ sharedHits env r e config answers authz query scope k) :
    e.memories.get (hitId hit) = some hit.memory := by
  rcases List.mem_append.mp inside with own | shared
  · exact memorySearchInner_stored own
  · unfold grantorHits at shared
    split at shared
    next => cases shared
    next =>
      obtain ⟨_,_,found⟩ := List.mem_flatMap.mp shared
      exact memorySearchInner_stored found

theorem memorySearchShared_all {F : Type} {r : Retriever F} (merger : Merger r.f32) {config : RetrievalConfig}
    {answers : Nat → Answers} {authz : AuthzBackend} {query : String} {scope : MemoryScope} {hit : MemoryHit F}
    (inside : hit ∈ sharedHits env r e config answers authz query scope (e.memories.rows.length + 1)) :
    ∃ kept ∈ memorySearchShared env r merger e config answers authz query scope (e.memories.rows.length + 1),
      kept.memory = hit.memory := by
  unfold memorySearchShared
  split
  next alone =>
    simp only [sharedHits,grantorHits,alone,List.append_nil] at inside
    exact ⟨hit,inside,rfl⟩
  next grantee caller =>
    have found := sharedHits_stored env (e := e) (r := r) (k := e.memories.rows.length + 1) inside
    generalize hits : sharedHits env r e config answers authz query scope (e.memories.rows.length + 1) = list at inside
    have stored (other : MemoryHit F) (given : other ∈ list) : e.memories.get (hitId other) = some other.memory :=
      sharedHits_stored env (hits ▸ given)
    have known : hitId hit ∈ (bestFirst r merger list).map hitId := by
      rw [((bestFirst_perm merger list).map hitId).mem_iff]
      exact (mem_keys_mergeAll hitId_raiseScore list _).mpr (List.mem_map_of_mem inside)
    have listed : (bestFirst r merger list).map hitId ⊆ e.memories.keys := by
      intro id member
      rw [((bestFirst_perm merger list).map hitId).mem_iff] at member
      obtain ⟨other,given,rfl⟩ := List.mem_map.mp ((mem_keys_mergeAll hitId_raiseScore list _).mp member)
      obtain ⟨row,there,_,same⟩ := MemoryTable.get_eq_some (stored other given)
      exact (Table.mem_keys _ _).mpr ⟨row,there,same⟩
    have few : (bestFirst r merger list).length ≤ e.memories.rows.length := by
      have distinct : ((bestFirst r merger list).map hitId).Nodup := by
        rw [((bestFirst_perm merger list).map hitId).nodup_iff]
        exact nodup_mergeAll hitId_raiseScore list
      have bound := (List.subperm_of_subset distinct listed).length_le
      rwa [List.length_map,Table.keys,List.length_map] at bound
    obtain ⟨kept,member,same⟩ := List.mem_map.mp known
    refine ⟨kept,?_,?_⟩
    · rw [List.take_of_length_le (by omega)]
      exact member
    · obtain ⟨⟨origin,given,memory⟩,_⟩ := kept_best merger.asymm ((bestFirst_perm merger list).mem_iff.mp member)
      have one := stored origin given
      rw [show hitId origin = hitId hit from (congrArg Memory.id memory).trans same,stored hit inside] at one
      exact memory.symm.trans (Option.some.inj one).symm

/-- Whatever is asked, and whatever the indexes and the clock answer. -/
def SharingSound (e : Engine) (book : GrantBook) (scope : MemoryScope) : Prop :=
  ∀ (F : Type) (r : Retriever F) (merger : Merger r.f32) config answers query k, 0 < k →
    SharedAnswer r.f32 book scope k (sharedHits env r e config answers (localGrants e.grants) query scope k)
      (memorySearchShared env r merger e config answers (localGrants e.grants) query scope k)

theorem sharingSound_iff (follows : GrantsFollow e.grants book) (scope : MemoryScope) :
    SharingSound env e book scope ↔ VectorsReadable e book scope := by
  constructor
  · intro sound within readable entry indexed m stored active
    have reached (answers : Nat → Answers) (hit : MemoryHit Rat) (memory : hit.memory = m)
        (inside : hit ∈ sharedHits env .plain e .plain answers (localGrants e.grants) "tea" scope (e.memories.rows.length + 1)) :
        Readable book scope m.scope.withDefaultTenant := by
      obtain ⟨kept,answered,same⟩ := memorySearchShared_all env .plain inside
      have read := (sound Rat .plain .plain .plain answers "tea" _ (Nat.succ_pos _)).readable kept answered
      rwa [same,memory] at read
    rcases readable with rfl | ⟨grantee,grantor,caller,granted,rfl⟩
    · rw [scopePartitionKey_withDefaultTenant] at indexed
      obtain ⟨hit,found,memory⟩ := memorySearch_nearest env (Nat.succ_pos e.memories.rows.length) indexed stored active
      exact reached (fun _ => nearestOnly e scope entry.id) hit memory (List.mem_append_left _ found)
    · rw [scopePartitionKey_withDefaultTenant] at indexed
      obtain ⟨hit,found,memory⟩ := memorySearch_nearest env (Nat.succ_pos e.memories.rows.length) indexed stored active
      refine reached (fun _ => nearestOnly e (grantorScope scope grantor) entry.id) hit memory (List.mem_append_right _ ?_)
      simp only [grantorHits,caller]
      have listed := (follows.mem_localGrants _ _ _).mpr granted
      obtain ⟨i,bound,named⟩ := List.mem_iff_getElem.mp listed
      exact List.mem_flatMap.mpr ⟨(grantor,i),List.mem_zipIdx_iff_getElem?.mpr (by simp [bound,named]),found⟩
  · intro apart F r merger config answers query k asked
    exact memorySearchShared_answer follows apart asked

end

/-- The calls of tenants and users, and what is drawn for them. -/
inductive ShareCall where
  | grant (refusal : String) (id : Uuid) (now : Int) (tenant grantee grantor : String)
  | revoke (tenant : String) (id : Uuid)
  | add (d : Draw) (input : MemoryInput)

structure Sharing where
  engine : Engine
  book : GrantBook

namespace ShareCall

def step (env : Env) (s : Sharing) : ShareCall → Sharing
  | .grant refusal id now tenant grantee grantor =>
    ⟨(s.engine.grantShare refusal id now tenant grantee grantor).2,s.book.grant id (tenant,grantee,grantor)⟩
  | .revoke tenant id => ⟨(s.engine.revokeGrant tenant id).2,s.book.revoke tenant id⟩
  | .add d input => ⟨(memoryAdd env s.engine d input).2,s.book⟩

def DrawsNew (s : Sharing) : ShareCall → Prop
  | .grant _ id _ _ _ _ => id ∉ s.engine.grants.keys
  | _ => True

instance (s : Sharing) (call : ShareCall) : Decidable (call.DrawsNew s) := by
  cases call <;> unfold DrawsNew <;> infer_instance

theorem follows {env : Env} {s : Sharing} {call : ShareCall} (follows : GrantsFollow s.engine.grants s.book)
    (fresh : call.DrawsNew s) : GrantsFollow (call.step env s).engine.grants (call.step env s).book := by
  cases call with
  | grant refusal id now tenant grantee grantor => exact follows.addGrant refusal fresh now tenant grantee grantor
  | revoke tenant id => exact follows.revokeGrant tenant id
  | add d input =>
    obtain ⟨memories,edges,tables⟩ := memoryAdd_frame env s.engine d input
    have grants : (memoryAdd env s.engine d input).2.grants = s.engine.grants := congrArg Tables.grants tables
    rw [step,grants]
    exact follows

end ShareCall

def Sharing.start (config : CoreConfig) (dimension : Nat) : Sharing := ⟨.empty config dimension,fun _ => none⟩

/-- In every state of every run, a shared search stays within the caller's scope and the live grants exactly when the
vectors that it can reach do; and then it answers every memory once, at most `k` of them, and the best. -/
theorem sharing_within_live_grants (env : Env) (config : CoreConfig) (dimension : Nat) (calls : List ShareCall)
    (fresh : Along (ShareCall.step env) (fun s call => call.DrawsNew s) (.start config dimension) calls) :
    Throughout (ShareCall.step env)
      (fun s => ∀ scope, SharingSound env s.engine s.book scope ↔ VectorsReadable s.engine s.book scope)
      (.start config dimension) calls := by
  have reached : Throughout (ShareCall.step env) (fun s => GrantsFollow s.engine.grants s.book) (.start config dimension) calls :=
    fresh.throughout .empty (fun _ _ follows drawn => ShareCall.follows follows drawn)
  exact fun n scope => sharingSound_iff env (reached n) scope

def teamScope (user : Option String) : MemoryScope := ⟨"acme",user,none,none⟩

/-- Bob has a memory with a vector. His grant is given twice, taken back and given again. -/
def grantedCalls : List ShareCall :=
  [.add { Draw.plain 1000 1 with embedding := some [1,0] } (.new (teamScope (some "bob")) "likes sushi"),
    .grant "" 7 2000 "acme" "ann" "bob",.grant "" 8 3000 "acme" "ann" "bob",.revoke "acme" 7,.grant "" 9 4000 "acme" "ann" "bob"]

theorem sharing_within_live_grants_bob : SharingSound .ascii
    (run (ShareCall.step .ascii) (.start .embedded 2) grantedCalls).engine
    (run (ShareCall.step .ascii) (.start .embedded 2) grantedCalls).book (teamScope (some "ann")) := by
  have all := sharing_within_live_grants .ascii .embedded 2 grantedCalls (by decide +kernel) 5 (teamScope (some "ann"))
  refine all.mpr ?_
  intro within _ entry _ m stored _
  have bobs : ∀ m ∈ (run (ShareCall.step .ascii) (.start .embedded 2) (grantedCalls.take 5)).engine.memories.memories,
      m.scope = teamScope (some "bob") := by decide +kernel
  obtain ⟨row,member,equal,_⟩ := MemoryTable.get_eq_some stored
  rw [bobs m (equal ▸ List.mem_map_of_mem member)]
  exact .inr ⟨"ann","bob",rfl,by decide +kernel,rfl⟩

/-- A memory of the whole team, and a grant of the user with the empty name. -/
def namelessGrant : List ShareCall :=
  [.add { Draw.plain 1000 1 with embedding := some [1,0] } (.new (teamScope none) "likes tea"),
    .grant "" 7 2000 "acme" "ann" ""]

/-- The grant opens the memories of no user, whose key is spelled alike. -/
theorem nameless_grant_widens :
    ¬ ∀ calls, Along (ShareCall.step .ascii) (fun s call => call.DrawsNew s) (.start .embedded 2) calls →
      Throughout (ShareCall.step .ascii) (fun s => ∀ scope, SharingSound .ascii s.engine s.book scope)
        (.start .embedded 2) calls := by
  intro all
  have sound := all namelessGrant (by decide +kernel) 2 (teamScope (some "ann")) Rat .plain .plain .plain
    (fun _ => ⟨.ok [],some [1,0],[(1,1)],6000⟩) "tea" 5 (by decide)
  have found : ∃ hit ∈ memorySearchShared .ascii .plain .plain
      (run (ShareCall.step .ascii) (.start .embedded 2) (namelessGrant.take 2)).engine .plain
      (fun _ => ⟨.ok [],some [1,0],[(1,1)],6000⟩)
      (localGrants (run (ShareCall.step .ascii) (.start .embedded 2) (namelessGrant.take 2)).engine.grants) "tea"
      (teamScope (some "ann")) 5, hit.memory.scope.userId = none := by
    decide +kernel
  obtain ⟨hit,inside,nobody⟩ := found
  rcases sound.readable hit inside with own | ⟨_,grantor,_,_,shared⟩
  · have user := congrArg MemoryScope.userId own
    rw [show hit.memory.scope.withDefaultTenant.userId = none from nobody] at user
    cases user
  · have user := congrArg MemoryScope.userId shared
    rw [show hit.memory.scope.withDefaultTenant.userId = none from nobody] at user
    cases user

end Ecphoria
