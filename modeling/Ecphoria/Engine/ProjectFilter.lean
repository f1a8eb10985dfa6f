import Ecphoria.Engine.Search
import Ecphoria.Engine.Apply

/-! A search restricted to one project. The text and vector arms and the fallback filter
by it; the plain list of a blank query and the memories linked by the graph do not. -/
namespace Ecphoria
open Library

section
variable (env : Env) {F : Type} (r : Retriever F) (e : Engine) (config : RetrievalConfig) (query : String)
variable (scope : MemoryScope) (k : Nat) (p : String)

/-- Whatever the reranker and the outside answer, every hit is of the project and there are no more than asked. -/
def ProjectSound : Prop :=
  ∀ reranker answers,
    (∀ hit ∈ memorySearchInProject env { r with reranker := reranker } e config answers query scope k (some p),
      hit.memory.project = some p) ∧
      (memorySearchInProject env { r with reranker := reranker } e config answers query scope k (some p)).length ≤ k

/-- What the scope lists first is of the project, and a search for nothing has nothing to list. -/
structure ListedWithin : Prop where
  within : ∀ m ∈ e.memories.listActive scope (max k 1), m.project = some p
  none : k = 0 → e.memories.listActive scope 1 = []

/-- With graph expansion, every active memory of exactly this scope that an active edge of the tenant links to
a term of the query is of the project. -/
def LinkedWithin : Prop :=
  config.graphExpansion = true → ∀ row ∈ e.edges.rows, row.tenantId = tenantOrDefault scope.tenantId →
    row.edge.state = .active → mentions env r query row.edge = true → ∀ m,
      row.edge.sourceMemoryId = some m.id → e.memories.get m.id = some m → m.state = .active → m.scope = scope →
        m.project = some p

variable {env r e config query scope k p}

theorem mem_listEdges {t : EdgeTable} {tenant : String} {limit : Nat} {edge : Edge}
    (inside : edge ∈ t.listEdges tenant limit) :
    ∃ row ∈ t.rows, row.edge = edge ∧ row.tenantId = tenant ∧ edge.state = .active := by
  obtain ⟨row,kept,rfl⟩ := List.mem_map.mp ((List.perm_insertionSort _ _).mem_iff.mp (List.mem_of_mem_take inside))
  obtain ⟨there,chosen⟩ := List.mem_filter.mp kept
  obtain ⟨owned,active⟩ := (Bool.and_eq_true _ _).mp chosen
  exact ⟨row,there,rfl,of_decide_eq_true owned,of_decide_eq_true active⟩

private theorem project_of_inProject {m : Memory} (filtered : inProject (some p) m = true) : m.project = some p := by
  simpa [inProject] using filtered

theorem LinkedWithin.sound (within : LinkedWithin env r e config query scope p)
    (asked : ¬ ((trim query).isEmpty = true ∨ k = 0)) : ProjectSound env r e config query scope k p := by
  intro reranker answers
  have some : 0 < k := Nat.pos_of_ne_zero (fun zero => asked (Or.inr zero))
  refine ⟨?_,memorySearchInner_length some⟩
  intro hit inside
  cases memorySearchInner_hit inside with
  | listed blank listed => exact absurd blank asked
  | fallback asked listed filtered => exact project_of_inProject filtered
  | text asked listed => exact project_of_inProject (mem_textCandidates listed).2
  | near asked listed =>
    obtain ⟨near,member,same⟩ := List.mem_map.mp listed
    exact same ▸ project_of_inProject (mem_vectorHits member).1
  | linked asked linked =>
    obtain ⟨edge,listed,source,mentioned⟩ := linked.mentioned
    obtain ⟨row,there,rfl,owned,active⟩ := mem_listEdges listed
    exact within linked.expansion row there owned active mentioned _ source linked.stored linked.active linked.within

/-- The graph arm on its own: what it knows is stored, and a stored memory of the scope that an edge reached
is ranked. -/
private structure Alone (r : Retriever F) (e : Engine) (query : String) (scope : MemoryScope) (edges : List Edge)
    (arm : GraphArm) (env : Env) : Prop where
  stored : ∀ m ∈ arm.known, e.memories.get m.id = some m
  met : ∀ edge ∈ edges, mentions env r query edge = true → ∀ id, edge.sourceMemoryId = some id → id ∈ arm.seen
  taken : ∀ id ∈ arm.seen, ∀ m, e.memories.get id = some m → m.state = .active → m.scope = scope → id ∈ arm.ids
  count : arm.ids.length ≤ edges.length

private theorem Alone.step {edges : List Edge} {arm : GraphArm} {edge : Edge} (alone : Alone r e query scope edges arm env) :
    Alone r e query scope (edges ++ [edge]) (graphStep env r e query scope arm edge) env := by
  have longer : arm.ids.length ≤ (edges ++ [edge]).length := by
    have count := alone.count
    simp
    omega
  have before (arm' : GraphArm) (grows : arm.seen ⊆ arm'.seen) (own : mentions env r query edge = true →
      ∀ id, edge.sourceMemoryId = some id → id ∈ arm'.seen) : ∀ other ∈ edges ++ [edge],
      mentions env r query other = true → ∀ id, other.sourceMemoryId = some id → id ∈ arm'.seen := by
    intro other listed mentioned id source
    rcases List.mem_append.mp listed with old | new
    · exact grows (alone.met other old mentioned id source)
    · cases List.mem_singleton.mp new
      exact own mentioned id source
  unfold graphStep
  split
  next sourceless =>
    exact ⟨alone.stored,before _ (List.Subset.refl _) (fun _ id source => by rw [sourceless] at source; cases source),alone.taken,
      longer⟩
  next id source =>
    split
    next skipped =>
      refine ⟨alone.stored,before _ (List.Subset.refl _) ?_,alone.taken,longer⟩
      intro mentioned other named
      rw [source] at named
      cases named
      simpa [mentioned] using skipped
    next fresh =>
      have met {arm' : GraphArm} (seen : arm'.seen = id :: arm.seen) := before arm'
        (fun other inside => seen ▸ List.mem_cons_of_mem id inside) (fun _ other named => by
          rw [source] at named
          cases named
          rw [seen]
          exact List.mem_cons_self)
      -- what is found under the id is what is stored under it
      have found {m : Memory} (located : (findById arm.known id).or (e.memories.get id) = some m) :
          e.memories.get id = some m := by
        rcases Option.or_eq_some_iff.mp located with known | ⟨_,stored⟩
        · obtain ⟨inside,same⟩ := findById_eq_some known
          exact same ▸ alone.stored m inside
        · exact stored
      simp only
      split
      next m located =>
        have same := MemoryTable.get_id (found located)
        split
        next =>
          refine ⟨?_,met rfl,?_,by have count := alone.count; simp; omega⟩
          · intro other inside
            rcases List.mem_append.mp inside with old | new
            · exact alone.stored other old
            · cases List.mem_singleton.mp new
              exact same ▸ found located
          · intro other inside m stored active within
            rcases List.mem_cons.mp inside with rfl | old
            · simp
            · exact List.mem_append_left _ (alone.taken other old m stored active within)
        next refused =>
          refine ⟨alone.stored,met rfl,?_,longer⟩
          intro other inside n stored active within
          rcases List.mem_cons.mp inside with rfl | old
          · cases (found located).symm.trans stored
            exact absurd (by simp [active,within]) refused
          · exact alone.taken other old n stored active within
      next missing =>
        refine ⟨alone.stored,met rfl,?_,longer⟩
        intro other inside n stored active within
        rcases List.mem_cons.mp inside with rfl | old
        · cases (Option.or_eq_none_iff.mp missing).2.symm.trans stored
        · exact alone.taken other old n stored active within

private theorem length_rrfScores (ids : List Uuid) (weight kRrf : F) :
    (rrfScores r.f32 [(ids,weight)] kRrf).length ≤ ids.length := by
  have added (scores : List (Uuid × F)) (id : Uuid) (x : F) :
      (addScore r.f32 scores id x).length ≤ scores.length + 1 := by
    unfold addScore
    split <;> simp
  have folded (ranking : List (Uuid × Nat)) (scores : List (Uuid × F)) :
      (ranking.foldl (fun scores item => addScore r.f32 scores item.1
        (r.f32.div weight (r.f32.add kRrf (r.f32.add (r.f32.ofNat item.2) (r.f32.ofNat 1))))) scores).length ≤
        scores.length + ranking.length := by
    induction ranking generalizing scores with
    | nil => simp
    | cons item ranking ih =>
      have first := added scores item.1
        (r.f32.div weight (r.f32.add kRrf (r.f32.add (r.f32.ofNat item.2) (r.f32.ofNat 1))))
      calc _ ≤ (addScore r.f32 scores item.1
            (r.f32.div weight (r.f32.add kRrf (r.f32.add (r.f32.ofNat item.2) (r.f32.ofNat 1))))).length +
              ranking.length := ih _
        _ ≤ scores.length + (item :: ranking).length := by
          rw [List.length_cons]
          omega
  simpa [rrfScores] using folded ids.zipIdx []

private def silent : Answers := ⟨.ok [],none,[],0⟩

/-- With nothing else to rank, a search that asks for as much as there are edges answers every ranked memory. -/
private theorem linked_found {m : Memory} (unranked : r.reranker = none) (asked : (trim query).isEmpty = false)
    (expansion : config.graphExpansion = true)
    {row : EdgeRow} (there : row ∈ e.edges.rows) (owned : row.tenantId = tenantOrDefault scope.tenantId)
    (current : row.edge.state = .active) (mentioned : mentions env r query row.edge = true)
    (source : row.edge.sourceMemoryId = some m.id) (stored : e.memories.get m.id = some m) (active : m.state = .active)
    (within : m.scope = scope) :
    ∃ hit ∈ memorySearchInProject env r e config silent query scope (e.edges.rows.length + 1) (some p),
      hit.memory = m := by
  have many : (e.edges.listEdges (tenantOrDefault scope.tenantId) (max config.retrievalScanCap (e.edges.rows.length + 1))).length ≤
      e.edges.rows.length := by
    rw [EdgeTable.listEdges,List.length_take,(List.perm_insertionSort _ _).length_eq,List.length_map]
    exact (Nat.min_le_right _ _).trans (List.length_filter_le _ _)
  have listed : row.edge ∈ e.edges.listEdges (tenantOrDefault scope.tenantId)
      (max config.retrievalScanCap (e.edges.rows.length + 1)) := by
    rw [EdgeTable.listEdges,List.take_of_length_le]
    · refine (List.perm_insertionSort _ _).mem_iff.mpr (List.mem_map_of_mem (List.mem_filter.mpr ⟨there,?_⟩))
      simp [owned,current]
    · rw [(List.perm_insertionSort _ _).length_eq,List.length_map]
      have kept := List.length_filter_le (fun row : EdgeRow =>
        row.tenantId = tenantOrDefault scope.tenantId && row.edge.state = .active) e.edges.rows
      omega
  have folded (edges before : List Edge) (arm : GraphArm) (alone : Alone r e query scope before arm env) :
      Alone r e query scope (before ++ edges) (edges.foldl (graphStep env r e query scope) arm) env := by
    induction edges generalizing before arm with
    | nil => simpa using alone
    | cons edge edges ih => simpa using ih (before ++ [edge]) _ alone.step
  have alone := folded (e.edges.listEdges (tenantOrDefault scope.tenantId)
    (max config.retrievalScanCap (e.edges.rows.length + 1))) [] ⟨[],[],[]⟩ ⟨by simp,by simp,by simp,by simp⟩
  have ranked := alone.taken m.id (alone.met _ listed mentioned m.id source) m stored active within
  have short := alone.count.trans many
  have texts : textCandidates env r e config silent query scope (e.edges.rows.length + 1) (some p) = [] := by
    have matched (expression : Option String) : e.lexical.search (scopePartitionKey scope) (some p) expression
        (max config.retrievalScanCap (e.edges.rows.length + 1)) silent.matched = .ok [] := by
      cases expression <;> simp [LexicalIndex.search,silent]
    simp [textCandidates,matched,MemoryTable.getActiveByIds]
  have words : rankText env r query [] = ([] : List (Memory × F)) := by simp [rankText]
  have nearby : vectorHits r e config silent scope (e.edges.rows.length + 1) (some p) = [] := rfl
  simp only [memorySearchInProject,memorySearchInner,texts,words,nearby,asked,List.map_nil,List.append_nil]
  have arm : graphArm env r e config query scope (e.edges.rows.length + 1) [] =
      (e.edges.listEdges (tenantOrDefault scope.tenantId) (max config.retrievalScanCap (e.edges.rows.length + 1))).foldl
        (graphStep env r e query scope) ⟨[],[],[]⟩ := if_pos expansion
  rw [arm]
  generalize (e.edges.listEdges (tenantOrDefault scope.tenantId) (max config.retrievalScanCap (e.edges.rows.length + 1))).foldl
        (graphStep env r e query scope) ⟨[],[],[]⟩ = reached at *
  have nonempty : reached.ids.isEmpty = false := by
    rw [← Bool.not_eq_true,List.isEmpty_iff]
    exact List.ne_nil_of_mem ranked
  have located : (findById reached.known m.id).or (e.memories.get m.id) = some m := by
    cases known : findById reached.known m.id with
    | none => exact stored
    | some first =>
      obtain ⟨inside,same⟩ := findById_eq_some known
      exact (same ▸ alone.stored first inside).symm.trans stored
  have untouched (scored : List (MemoryHit F)) : rerank r silent.now query scored = scored := by simp [rerank,unranked]
  have scores := length_rrfScores (r := r) reached.ids (r.f32.ofRat config.retrievalLexicalWeight) (r.f32.ofNat 60)
  have fusedShort : (rrfFuseWeighted r.f32 r.hashOrder [(reached.ids,r.f32.ofRat config.retrievalLexicalWeight)]
      (r.f32.ofNat 60) (poolSize r config (e.edges.rows.length + 1))).length ≤ e.edges.rows.length := by
    rw [rrfFuseWeighted,List.length_take,(sortByScore_perm r.f32 Prod.snd _).length_eq,(r.reordered _).length_eq]
    omega
  have fused : m.id ∈ (rrfFuseWeighted r.f32 r.hashOrder [(reached.ids,r.f32.ofRat config.retrievalLexicalWeight)]
      (r.f32.ofNat 60) (poolSize r config (e.edges.rows.length + 1))).map Prod.fst := by
    rw [rrfFuseWeighted,List.take_of_length_le]
    · refine ((sortByScore_perm r.f32 Prod.snd _).map Prod.fst).mem_iff.mpr ?_
      refine ((r.reordered _).map Prod.fst).mem_iff.mpr ((mem_rrfScores r.f32 _ _ _).mpr ⟨_,List.mem_singleton.mpr rfl,ranked⟩)
    · rw [(sortByScore_perm r.f32 Prod.snd _).length_eq,(r.reordered _).length_eq,poolSize,unranked]
      simp only [Option.isSome_none,Bool.false_eq_true,if_false]
      omega
  obtain ⟨⟨id,rrf⟩,inside,same⟩ := List.mem_map.mp fused
  simp only [Bool.false_or,Nat.add_eq_zero_iff,Nat.one_ne_zero,and_false,decide_false,Bool.false_eq_true,if_false,
    List.filter_cons,List.isEmpty_nil,Bool.not_true,nonempty,Bool.not_false,if_true,List.filter_nil,List.isEmpty_cons,
    untouched,List.filter_true]
  refine ⟨⟨m,blend r config silent.now m rrf,none,none⟩,?_,rfl⟩
  rw [List.take_of_length_le]
  · refine (sortByScore_perm r.f32 MemoryHit.score _).mem_iff.mpr (List.mem_filterMap.mpr ⟨(id,rrf),inside,?_⟩)
    rw [show id = m.id from same,located]
    rfl
  · rw [(sortByScore_perm r.f32 MemoryHit.score _).length_eq]
    exact (List.length_filterMap_le _ _).trans (fusedShort.trans (Nat.le_succ _))

/-- On a blank query, or one that asks for nothing, the filter is sound exactly when the list it falls back to happens to
be of the project; on any other query, for all numbers of hits at once, exactly when the graph links nothing else. -/
theorem project_filter_iff (env : Env) (r : Retriever F) (e : Engine) (config : RetrievalConfig) (query : String)
    (scope : MemoryScope) (p : String) :
    (∀ k, (trim query).isEmpty = true ∨ k = 0 →
      (ProjectSound env r e config query scope k p ↔ ListedWithin e scope k p)) ∧
      ((trim query).isEmpty = false →
        ((∀ k, 0 < k → ProjectSound env r e config query scope k p) ↔ LinkedWithin env r e config query scope p)) := by
  constructor
  · intro k blank
    have answered (r : Retriever F) (answers : Answers) :
        memorySearchInProject env r e config answers query scope k (some p) =
          (e.memories.listActive scope (max k 1)).map (unscored r) := by
      simp only [memorySearchInProject,memorySearchInner]
      rw [if_pos (by simpa using blank)]
    constructor
    · intro sound
      obtain ⟨within,count⟩ := sound none silent
      rw [answered] at within count
      refine ⟨fun m inside => within _ (List.mem_map_of_mem inside),?_⟩
      intro zero
      subst zero
      simpa using count
    · intro listed reranker answers
      rw [answered]
      refine ⟨?_,?_⟩
      · intro hit inside
        obtain ⟨m,member,rfl⟩ := List.mem_map.mp inside
        exact listed.within m member
      · rw [List.length_map]
        cases k with
        | zero => simp [listed.none rfl]
        | succ k =>
          rw [Nat.max_eq_left (Nat.succ_pos k)]
          exact e.memories.length_listActive scope (Nat.succ_pos k)
  · intro asked
    constructor
    · intro sound expansion row there owned current mentioned m source stored active within
      have found := linked_found (r := { r with reranker := none }) (p := p) rfl asked expansion there owned current mentioned
        source stored active within
      obtain ⟨hit,inside,rfl⟩ := found
      exact (sound _ (Nat.succ_pos _) none silent).1 hit inside
    · intro within k some
      refine within.sound ?_
      rw [not_or]
      exact ⟨by simp [asked],Nat.ne_of_gt some⟩

end

def webEngine : Engine :=
  (memoryAdd .ascii (.empty .default 2) (.plain 5000 1)
    { MemoryInput.new (.tenant "acme") "likes tea" with project := some "web" }).2

theorem project_filter_web :
    ProjectSound .ascii .plain webEngine .plain "tea" (.tenant "acme") 3 "api" ∧
      ProjectSound .ascii .plain webEngine .plain " " (.tenant "acme") 3 "web" := by
  obtain ⟨_,asked⟩ := project_filter_iff .ascii .plain webEngine .plain "tea" (.tenant "acme") "api"
  obtain ⟨blank,_⟩ := project_filter_iff .ascii .plain webEngine .plain " " (.tenant "acme") "web"
  refine ⟨(asked (by decide +kernel)).mpr (fun on => absurd on (by decide)) 3 (by decide),?_⟩
  exact (blank 3 (Or.inl (by decide +kernel))).mpr ⟨by decide +kernel,by decide⟩

/-- A blank query answers with the memories of every project, and one that asks for nothing with one hit. -/
theorem blank_query_leaks :
    ¬ (∀ k, ProjectSound .ascii .plain webEngine .plain " " (.tenant "acme") k "api") ∧
      ¬ ProjectSound .ascii .plain webEngine .plain "tea" (.tenant "acme") 0 "web" := by
  constructor
  · intro sound
    have within := (sound 3 none ⟨.ok [],none,[],6000⟩).1
    revert within
    decide +kernel
  · intro sound
    have count := (sound none ⟨.ok [],none,[],6000⟩).2
    revert count
    decide +kernel

end Ecphoria
