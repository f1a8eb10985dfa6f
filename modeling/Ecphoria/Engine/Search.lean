import Ecphoria.Engine.Plan
import Ecphoria.Cognition.Ranking

/-! Hybrid search over the memories of a scope: text candidates, nearest vectors and,
when enabled, memories linked by the graph, fused by rank and blended with importance
and age. What the text index, the encoder, the neighbour library and the reranker
answer comes from outside. -/
namespace Ecphoria
open Library

namespace MemoryTable

def byImportance (a b : Memory) : Prop :=
  b.importance < a.importance ∨ b.importance = a.importance ∧ b.validFrom ≤ a.validFrom

instance : DecidableRel byImportance := fun a b =>
  inferInstanceAs (Decidable (b.importance < a.importance ∨ b.importance = a.importance ∧ b.validFrom ≤ a.validFrom))

def activeIn (scope : MemoryScope) (m : Memory) : Bool := scope.matchesRow m.scope && m.state = .active

def listActive (t : MemoryTable) (scope : MemoryScope) (limit : Nat) : List Memory :=
  ((t.memories.filter (activeIn scope)).insertionSort byImportance).take (max 1 (min limit 10000))

def getActiveByIds (t : MemoryTable) (ids : List Uuid) (scope : MemoryScope) : List Memory :=
  ids.eraseDups.filterMap (fun id => (t.get id).filter (activeIn scope))

end MemoryTable

def EdgeTable.listEdges (t : EdgeTable) (tenant : String) (limit : Nat) : List Edge :=
  (((t.rows.filter (fun row => row.tenantId = tenant && row.edge.state = .active)).map EdgeRow.edge).insertionSort
    (fun a b => b.weight ≤ a.weight)).take limit

structure RetrievalConfig where
  retrievalScanCap : Nat
  retrievalPool : Nat
  graphExpansion : Bool
  retrievalImportanceWeight : Rat
  retrievalRecencyWeight : Rat
  retrievalVectorWeight : Rat
  retrievalLexicalWeight : Rat
  rerankCandidates : Nat

/-- What a search runs with: the arithmetic of its scores, the character classes, the order of a hash map, and
the reranker, if there is one. -/
structure Retriever (F : Type) where
  f32 : Arith F
  isAlphanumeric : Char → Bool
  hashOrder : List (Uuid × F) → List (Uuid × F)
  reordered : ∀ scores, (hashOrder scores).Perm scores
  reranker : Option (String → List String → Option (List F))

/-- What one search is answered from outside: the ids the text index matches, best first, the vector of the
query, its nearest neighbours, and the clock. -/
structure Answers where
  matched : Except Error (List Uuid)
  vector : Option (List Rat)
  nearest : List (Uuid × Rat)
  now : Int

structure MemoryHit (F : Type) where
  memory : Memory
  score : F
  similarity : Option Rat
  lexical : Option F

def inProject (project : Option String) (m : Memory) : Bool := project.isNone || m.project = project

/-- The entries of the scope and the project among those the index matches. -/
def LexicalIndex.search (index : LexicalIndex) (scopeKey : String) (project : Option String)
    (expression : Option String) (limit : Nat) (matched : Except Error (List Uuid)) : Except Error (List Uuid) :=
  match expression with
  | none => .ok []
  | some _ =>
    match matched with
    | .error err => .error err
    | .ok ids => .ok (((ids.filterMap index.find).filter (fun entry =>
        entry.scopeKey = scopeKey && (project.isNone || entry.project = project))).map LexicalEntry.id |>.take limit)

def findById (known : List Memory) (id : Uuid) : Option Memory := known.find? (fun m => m.id = id)

/-- The ids the graph arm has met, the memories known, and the ids it ranks. -/
structure GraphArm where
  seen : List Uuid
  known : List Memory
  ids : List Uuid

section
variable (env : Env) {F : Type} (r : Retriever F)

def rankText (query : String) (candidates : List Memory) : List (Memory × F) :=
  (lexicalRank env r.isAlphanumeric r.f32 query candidates).filterMap (fun (i,score) =>
    candidates[i]?.map (fun m => (m,score)))

def textCandidates (e : Engine) (config : RetrievalConfig) (answers : Answers) (query : String) (scope : MemoryScope)
    (k : Nat) (project : Option String) : List Memory :=
  let scanCap := max config.retrievalScanCap k
  let candidates := match e.lexical.search (scopePartitionKey scope) project
      (buildMatchExpr env r.isAlphanumeric query) scanCap answers.matched with
    | .ok ids => e.memories.getActiveByIds ids scope
    | .error _ => e.memories.listActive scope scanCap
  match project with
  | some p => candidates.filter (fun m => m.project = some p)
  | none => candidates

def poolSize (config : RetrievalConfig) (k : Nat) : Nat :=
  if r.reranker.isSome then max config.rerankCandidates config.retrievalPool else max config.retrievalPool k

def vectorHits (e : Engine) (config : RetrievalConfig) (answers : Answers) (scope : MemoryScope) (k : Nat)
    (project : Option String) : List (Memory × Rat) :=
  match answers.vector with
  | none => []
  | some vector =>
    match e.memoryIndexSearch vector scope (max (poolSize r config k) (k * 4)) answers.nearest with
    | .error _ => []
    | .ok hits => hits.filter (fun hit => inProject project hit.1)

def mentions (query : String) (edge : Edge) : Bool :=
  let terms := tokenize env r.isAlphanumeric query
  (tokenize env r.isAlphanumeric edge.src).any (· ∈ terms) || (tokenize env r.isAlphanumeric edge.dst).any (· ∈ terms)

/-- A linked memory is taken when it is active and has exactly this scope. -/
def graphStep (e : Engine) (query : String) (scope : MemoryScope) (arm : GraphArm) (edge : Edge) : GraphArm :=
  match edge.sourceMemoryId with
  | none => arm
  | some id =>
    if !mentions env r query edge || id ∈ arm.seen then arm
    else
      let arm := { arm with seen := id :: arm.seen }
      match (findById arm.known id).or (e.memories.get id) with
      | some m =>
        if m.state = .active && m.scope = scope then { arm with known := arm.known ++ [m], ids := arm.ids ++ [id] }
        else arm
      | none => arm

def graphArm (e : Engine) (config : RetrievalConfig) (query : String) (scope : MemoryScope) (k : Nat)
    (known : List Memory) : GraphArm :=
  if config.graphExpansion then
    (e.edges.listEdges (tenantOrDefault scope.tenantId) (max config.retrievalScanCap k)).foldl
      (graphStep env r e query scope) ⟨[],known,[]⟩
  else ⟨[],known,[]⟩

def recency (now : Int) (m : Memory) : F :=
  let seconds := (max 0 ((now - m.updatedAt).tdiv 1000000000)).toNat
  let days := r.f32.div (r.f32.ofNat seconds) (r.f32.ofNat 86400)
  r.f32.powf (r.f32.ofRat (1 / 2)) (r.f32.div days (r.f32.ofNat 30))

def blend (config : RetrievalConfig) (now : Int) (m : Memory) (rrf : F) : F :=
  r.f32.mul rrf (r.f32.add
    (r.f32.add (r.f32.ofNat 1) (r.f32.mul (r.f32.ofRat config.retrievalImportanceWeight) (r.f32.ofRat m.importance)))
    (r.f32.mul (r.f32.ofRat config.retrievalRecencyWeight) (recency r now m)))

/-- A reranker that fails, or answers for another number of documents, leaves the order as it is. -/
def rerank (now : Int) (query : String) (scored : List (MemoryHit F)) : List (MemoryHit F) :=
  match r.reranker with
  | none => scored
  | some reranker =>
    if scored.isEmpty then scored
    else
      match reranker query (scored.map (fun hit => hit.memory.content)) with
      | none => scored
      | some scores =>
        if scores.length = scored.length then
          sortByScore r.f32 MemoryHit.score ((scored.zip scores).map (fun (hit,score) =>
            { hit with score := r.f32.mul score (r.f32.add (r.f32.ofNat 1)
                (r.f32.mul (r.f32.ofRat (1 / 10)) (recency r now hit.memory))) }))
        else scored

def unscored (m : Memory) : MemoryHit F := ⟨m,r.f32.ofNat 0,none,none⟩

/-- The hits, and whether anything matched. Every id of the fused ranking is known from one of the arms. -/
def memorySearchInner (e : Engine) (config : RetrievalConfig) (answers : Answers) (query : String)
    (scope : MemoryScope) (k : Nat) (project : Option String) (minSimilarity : Option Rat) :
    List (MemoryHit F) × Bool :=
  if (trim query).isEmpty || k = 0 then ((e.memories.listActive scope (max k 1)).map (unscored r),false)
  else
    let candidates := textCandidates env r e config answers query scope k project
    let ranked := rankText env r query candidates
    let near := vectorHits r e config answers scope k project
    let arm := graphArm env r e config query scope k (candidates ++ near.map Prod.fst)
    let weightVec := r.f32.ofRat config.retrievalVectorWeight
    let weightLex := r.f32.ofRat config.retrievalLexicalWeight
    let rankings := [(near.map (fun hit => hit.1.id),weightVec),(ranked.map (fun hit => hit.1.id),weightLex),
      (arm.ids,weightLex)].filter (fun ranking => !ranking.1.isEmpty)
    if rankings.isEmpty then
      (((e.memories.listActive scope k).filter (inProject project)).map (unscored r),false)
    else
      let fused := rrfFuseWeighted r.f32 r.hashOrder rankings (r.f32.ofNat 60) (poolSize r config k)
      let scored := fused.filterMap (fun (id,rrf) =>
        ((findById arm.known id).or (e.memories.get id)).map (fun m =>
          (⟨m,blend r config answers.now m rrf,(near.reverse.find? (fun hit => hit.1.id = m.id)).map Prod.snd,
            (ranked.find? (fun hit => hit.1.id = m.id)).map Prod.snd⟩ : MemoryHit F)))
      let kept := scored.filter (fun hit =>
        match minSimilarity,hit.similarity with
        | some floor,some similarity => floor ≤ similarity
        | _,_ => true)
      ((rerank r answers.now query (sortByScore r.f32 MemoryHit.score kept)).take k,true)

def memorySearchInProject (e : Engine) (config : RetrievalConfig) (answers : Answers) (query : String)
    (scope : MemoryScope) (k : Nat) (project : Option String) : List (MemoryHit F) :=
  (memorySearchInner env r e config answers query scope k project none).1

def memorySearch (e : Engine) (config : RetrievalConfig) (answers : Answers) (query : String)
    (scope : MemoryScope) (k : Nat) : List (MemoryHit F) :=
  memorySearchInProject env r e config answers query scope k none

variable {env r} {e : Engine} {config : RetrievalConfig} {answers : Answers} {query : String} {scope : MemoryScope}
variable {k : Nat} {project : Option String} {minSimilarity : Option Rat}

/-- The memory is active, of exactly this scope, and the source of an edge that mentions a term of the query. -/
structure Linked (env : Env) (r : Retriever F) (e : Engine) (config : RetrievalConfig) (query : String)
    (scope : MemoryScope) (k : Nat) (m : Memory) : Prop where
  expansion : config.graphExpansion = true
  mentioned : ∃ edge ∈ e.edges.listEdges (tenantOrDefault scope.tenantId) (max config.retrievalScanCap k),
    edge.sourceMemoryId = some m.id ∧ mentions env r query edge = true
  stored : e.memories.get m.id = some m
  active : m.state = .active
  within : m.scope = scope

theorem MemoryTable.get_id {t : MemoryTable} {id : Uuid} {m : Memory} (found : t.get id = some m) : m.id = id := by
  obtain ⟨row,_,rfl,same⟩ := MemoryTable.get_eq_some found
  exact same

theorem findById_eq_some {known : List Memory} {id : Uuid} {m : Memory} (found : findById known id = some m) :
    m ∈ known ∧ m.id = id := by
  unfold findById at found
  exact ⟨List.mem_of_find?_eq_some found,by simpa using List.find?_some found⟩

/-- What the graph arm knows after some edges: what it was given, and linked memories. -/
private structure ArmSound (r : Retriever F) (e : Engine) (query : String) (scope : MemoryScope)
    (known : List Memory) (edges : List Edge) (arm : GraphArm) (env : Env) : Prop where
  origin : ∀ m ∈ arm.known, m ∈ known ∨ (∃ edge ∈ edges, edge.sourceMemoryId = some m.id ∧ mentions env r query edge = true) ∧
    e.memories.get m.id = some m ∧ m.state = .active ∧ m.scope = scope
  ranked : ∀ id ∈ arm.ids, ∃ m ∈ arm.known, m.id = id
  kept : known ⊆ arm.known

private theorem ArmSound.step {known : List Memory} {edges : List Edge} {arm : GraphArm} {edge : Edge}
    (sound : ArmSound r e query scope known edges arm env) :
    ArmSound r e query scope known (edges ++ [edge]) (graphStep env r e query scope arm edge) env := by
  have later : ∀ m ∈ arm.known, m ∈ known ∨
      (∃ other ∈ edges ++ [edge], other.sourceMemoryId = some m.id ∧ mentions env r query other = true) ∧
        e.memories.get m.id = some m ∧ m.state = .active ∧ m.scope = scope := by
    intro m inside
    rcases sound.origin m inside with given | ⟨⟨other,listed,linked⟩,rest⟩
    · exact Or.inl given
    · exact Or.inr ⟨⟨other,List.mem_append_left _ listed,linked⟩,rest⟩
  unfold graphStep
  split
  next => exact ⟨later,sound.ranked,sound.kept⟩
  next id source =>
    split
    next => exact ⟨later,sound.ranked,sound.kept⟩
    next fresh =>
      have mentioned : mentions env r query edge = true := by simp at fresh; exact fresh.1
      simp only
      split
      next m found =>
        split
        next taken =>
          obtain ⟨active,within⟩ := (Bool.and_eq_true _ _).mp taken
          have same : m.id = id := by
            rcases Option.or_eq_some_iff.mp found with known | ⟨_,stored⟩
            · exact (findById_eq_some known).2
            · exact MemoryTable.get_id stored
          refine ⟨?_,?_,fun old given => List.mem_append_left _ (sound.kept given)⟩
          · intro other inside
            rcases List.mem_append.mp inside with before | new
            · exact later other before
            · cases List.mem_singleton.mp new
              rcases Option.or_eq_some_iff.mp found with known | ⟨_,stored⟩
              · exact later m (findById_eq_some known).1
              · refine Or.inr ⟨⟨edge,by simp,same ▸ source,mentioned⟩,same ▸ stored,?_⟩
                exact ⟨of_decide_eq_true active,of_decide_eq_true within⟩
          · intro other inside
            rcases List.mem_append.mp inside with before | new
            · obtain ⟨old,there,named⟩ := sound.ranked other before
              exact ⟨old,List.mem_append_left _ there,named⟩
            · cases List.mem_singleton.mp new
              exact ⟨m,by simp,same⟩
        next => exact ⟨later,sound.ranked,sound.kept⟩
      next => exact ⟨later,sound.ranked,sound.kept⟩

theorem graphArm_spec (env : Env) (r : Retriever F) (e : Engine) (config : RetrievalConfig) (query : String)
    (scope : MemoryScope) (k : Nat) (known : List Memory) :
    (∀ m ∈ (graphArm env r e config query scope k known).known, m ∈ known ∨ Linked env r e config query scope k m) ∧
      (∀ id ∈ (graphArm env r e config query scope k known).ids,
        ∃ m ∈ (graphArm env r e config query scope k known).known, m.id = id) ∧
      known ⊆ (graphArm env r e config query scope k known).known := by
  have folded (edges before : List Edge) (arm : GraphArm) (sound : ArmSound r e query scope known before arm env) :
      ArmSound r e query scope known (before ++ edges) (edges.foldl (graphStep env r e query scope) arm) env := by
    induction edges generalizing before arm with
    | nil => simpa using sound
    | cons edge edges ih => simpa using ih (before ++ [edge]) _ sound.step
  unfold graphArm
  split
  next expansion =>
    have sound := folded (e.edges.listEdges (tenantOrDefault scope.tenantId) (max config.retrievalScanCap k)) []
      ⟨[],known,[]⟩ ⟨fun m inside => Or.inl inside,by simp,fun _ given => given⟩
    refine ⟨?_,sound.ranked,sound.kept⟩
    intro m inside
    rcases sound.origin m inside with given | ⟨mentioned,stored,active,within⟩
    · exact Or.inl given
    · exact Or.inr ⟨expansion,mentioned,stored,active,within⟩
  next => exact ⟨fun m inside => Or.inl inside,by simp,fun _ given => given⟩

theorem findById_isSome {known : List Memory} {m : Memory} (inside : m ∈ known) : ∃ found, findById known m.id = some found := by
  have some : (findById known m.id).isSome = true := by
    rw [findById,List.find?_isSome]
    exact ⟨m,inside,by simp⟩
  exact Option.isSome_iff_exists.mp some

theorem rerank_perm (now : Int) (query : String) (scored : List (MemoryHit F)) :
    ((rerank r now query scored).map MemoryHit.memory).Perm (scored.map MemoryHit.memory) := by
  unfold rerank
  split
  next => exact .refl _
  next =>
    split
    next => exact .refl _
    next =>
      split
      next => exact .refl _
      next scores _ =>
        split
        next equal =>
          refine ((sortByScore_perm r.f32 MemoryHit.score _).map MemoryHit.memory).trans ?_
          rw [List.map_map]
          have same : (scored.zip scores).map Prod.fst = scored := List.map_fst_zip equal.ge
          conv_rhs => rw [← same,List.map_map]
          exact .refl _
        next => exact .refl _

private theorem mem_rerank {now : Int} {scored : List (MemoryHit F)} {hit : MemoryHit F}
    (inside : hit ∈ rerank r now query scored) : ∃ old ∈ scored, old.memory = hit.memory :=
  List.mem_map.mp ((rerank_perm now query scored).mem_iff.mp (List.mem_map_of_mem inside))

theorem mem_rankText {candidates : List Memory} {hit : Memory × F} (inside : hit ∈ rankText env r query candidates) :
    hit.1 ∈ candidates := by
  obtain ⟨⟨i,score⟩,_,found⟩ := List.mem_filterMap.mp inside
  obtain ⟨m,there,rfl⟩ := Option.map_eq_some_iff.mp found
  exact List.mem_of_getElem? there

/-- Where a hit comes from: the plain list of the scope, when the query is blank, asks for nothing or finds nothing,
or else one of the three arms. -/
inductive HitFrom (env : Env) (r : Retriever F) (e : Engine) (config : RetrievalConfig) (answers : Answers)
    (query : String) (scope : MemoryScope) (k : Nat) (project : Option String) (m : Memory) : Prop
  | listed (blank : (trim query).isEmpty = true ∨ k = 0) (inside : m ∈ e.memories.listActive scope (max k 1))
  | fallback (asked : ¬ ((trim query).isEmpty = true ∨ k = 0)) (inside : m ∈ e.memories.listActive scope k)
      (filtered : inProject project m = true)
  | text (asked : ¬ ((trim query).isEmpty = true ∨ k = 0))
      (inside : m ∈ textCandidates env r e config answers query scope k project)
  | near (asked : ¬ ((trim query).isEmpty = true ∨ k = 0))
      (inside : m ∈ (vectorHits r e config answers scope k project).map Prod.fst)
  | linked (asked : ¬ ((trim query).isEmpty = true ∨ k = 0)) (linked : Linked env r e config query scope k m)

theorem memorySearchInner_hit {hit : MemoryHit F}
    (inside : hit ∈ (memorySearchInner env r e config answers query scope k project minSimilarity).1) :
    HitFrom env r e config answers query scope k project hit.memory := by
  simp only [memorySearchInner] at inside
  split at inside
  next blank =>
    obtain ⟨m,listed,rfl⟩ := List.mem_map.mp inside
    exact .listed (by simpa using blank) listed
  next asked =>
    have asked : ¬ ((trim query).isEmpty = true ∨ k = 0) := by simpa using asked
    split at inside
    next =>
      obtain ⟨m,kept,rfl⟩ := List.mem_map.mp inside
      obtain ⟨listed,filtered⟩ := List.mem_filter.mp kept
      exact .fallback asked listed filtered
    next =>
      obtain ⟨old,sorted,same⟩ := mem_rerank (List.mem_of_mem_take inside)
      have kept := (sortByScore_perm r.f32 MemoryHit.score _).mem_iff.mp sorted
      obtain ⟨⟨id,rrf⟩,fused,found⟩ := List.mem_filterMap.mp (List.mem_filter.mp kept).1
      obtain ⟨origin,ranked,given⟩ := graphArm_spec env r e config query scope k
        (textCandidates env r e config answers query scope k project ++
          (vectorHits r e config answers scope k project).map Prod.fst)
      -- every fused id comes from a ranking, and the memories of the rankings are all known
      have known : ∃ m ∈ (graphArm env r e config query scope k
          (textCandidates env r e config answers query scope k project ++
            (vectorHits r e config answers scope k project).map Prod.fst)).known, m.id = id := by
        have read := (sortByScore_perm r.f32 Prod.snd _).mem_iff.mp (List.mem_of_mem_take fused)
        have listed := (mem_rrfScores r.f32 _ _ id).mp
          (List.mem_map_of_mem ((r.reordered _).mem_iff.mp read))
        obtain ⟨ranking,chosen,member⟩ := listed
        simp only [List.mem_filter,List.mem_cons,List.not_mem_nil,or_false] at chosen
        rcases chosen.1 with rfl | rfl | rfl
        · obtain ⟨near,there,rfl⟩ := List.mem_map.mp member
          exact ⟨near.1,given (List.mem_append_right _ (List.mem_map_of_mem there)),rfl⟩
        · obtain ⟨text,there,rfl⟩ := List.mem_map.mp member
          exact ⟨text.1,given (List.mem_append_left _ (mem_rankText there)),rfl⟩
        · exact ranked id member
      obtain ⟨m,there,rfl⟩ := known
      obtain ⟨first,located⟩ := findById_isSome there
      rw [located,Option.some_or,Option.map_some] at found
      have memory : hit.memory = first := by rw [← same,← Option.some.inj found]
      rw [memory]
      rcases origin first (findById_eq_some located).1 with arms | linked
      · rcases List.mem_append.mp arms with text | near
        · exact .text asked text
        · exact .near asked near
      · exact .linked asked linked

theorem MemoryTable.mem_listActive {t : MemoryTable} {limit : Nat} {m : Memory} (inside : m ∈ t.listActive scope limit) :
    m.scope = scope.withDefaultTenant ∧ m.state = .active ∧ ∃ row ∈ t.rows, row.memory = m := by
  have kept := (List.perm_insertionSort _ _).mem_iff.mp (List.mem_of_mem_take inside)
  obtain ⟨member,chosen⟩ := List.mem_filter.mp kept
  obtain ⟨within,active⟩ := (Bool.and_eq_true _ _).mp chosen
  exact ⟨(MemoryScope.matchesRow_iff _ _).mp within,of_decide_eq_true active,List.mem_map.mp member⟩

theorem MemoryTable.nodup_selected (t : MemoryTable) (p : Memory → Bool) (order : Memory → Memory → Prop)
    [DecidableRel order] : (((t.memories.filter p).insertionSort order).map Memory.id).Nodup := by
  rw [((List.perm_insertionSort order _).map Memory.id).nodup_iff]
  exact t.memories_nodup.sublist (List.filter_sublist.map Memory.id)

theorem MemoryTable.nodup_listActive (t : MemoryTable) (scope : MemoryScope) (limit : Nat) :
    ((t.listActive scope limit).map Memory.id).Nodup :=
  (t.nodup_selected (activeIn scope) byImportance).sublist ((List.take_sublist _ _).map Memory.id)

theorem MemoryTable.length_listActive (t : MemoryTable) (scope : MemoryScope) {limit : Nat} (some : 0 < limit) :
    (t.listActive scope limit).length ≤ limit := by
  rw [listActive,List.length_take]
  omega

theorem mem_textCandidates {m : Memory} (inside : m ∈ textCandidates env r e config answers query scope k project) :
    m.scope = scope.withDefaultTenant ∧ inProject project m = true := by
  have found : m.scope = scope.withDefaultTenant ∧ ∀ p, project = some p → m.project = some p := by
    have within {candidates : List Memory} (scopes : ∀ m ∈ candidates, m.scope = scope.withDefaultTenant)
        (inside : m ∈ (match project with
          | some p => candidates.filter (fun m : Memory => m.project = some p)
          | none => candidates)) : m.scope = scope.withDefaultTenant ∧ ∀ p, project = some p → m.project = some p := by
      cases project with
      | none => exact ⟨scopes m inside,by simp⟩
      | some p =>
        obtain ⟨listed,owned⟩ := List.mem_filter.mp inside
        refine ⟨scopes m listed,?_⟩
        intro q same
        cases same
        exact of_decide_eq_true owned
    refine within ?_ inside
    intro m listed
    split at listed
    next ids _ =>
      obtain ⟨id,_,found⟩ := List.mem_filterMap.mp listed
      have chosen := (Option.filter_eq_some_iff.mp found).2
      exact (MemoryScope.matchesRow_iff _ _).mp ((Bool.and_eq_true _ _).mp chosen).1
    next => exact (MemoryTable.mem_listActive listed).1
  refine ⟨found.1,?_⟩
  cases project with
  | none => rfl
  | some p => simp [inProject,found.2 p rfl]

theorem MemoryTable.get_of_mem {t : MemoryTable} {row : MemoryRow} (inside : row ∈ t.rows) :
    t.get row.memory.id = some row.memory :=
  congrArg (Option.map MemoryRow.memory) ((Table.find_eq_some _ _ _).mpr ⟨inside,rfl⟩)

theorem textCandidates_stored {m : Memory} (inside : m ∈ textCandidates env r e config answers query scope k project) :
    e.memories.get m.id = some m := by
  have known {candidates : List Memory} (stored : ∀ m ∈ candidates, e.memories.get m.id = some m)
      (inside : m ∈ (match project with
        | some p => candidates.filter (fun m : Memory => m.project = some p)
        | none => candidates)) : e.memories.get m.id = some m := by
    cases project with
    | none => exact stored m inside
    | some p => exact stored m (List.mem_filter.mp inside).1
  refine known ?_ inside
  intro m listed
  split at listed
  next ids _ =>
    obtain ⟨id,_,found⟩ := List.mem_filterMap.mp listed
    have stored := (Option.filter_eq_some_iff.mp found).1
    exact MemoryTable.get_id stored ▸ stored
  next =>
    obtain ⟨_,_,row,there,rfl⟩ := MemoryTable.mem_listActive listed
    exact MemoryTable.get_of_mem there

theorem memoryIndexSearch_hit {vector : List Rat} {matched : List (Uuid × Rat)} {hits : List (Memory × Rat)}
    {hit : Memory × Rat} (ok : e.memoryIndexSearch vector scope k matched = .ok hits) (member : hit ∈ hits) :
    hit.1.state = .active ∧ e.memories.get hit.1.id = some hit.1 ∧
      ∃ entry ∈ (e.vectors.partitions (scopePartitionKey scope)).entries.rows, entry.id = hit.1.id := by
  unfold Engine.memoryIndexSearch at ok
  split at ok
  next => cases ok
  next results searched =>
    cases ok
    obtain ⟨⟨entry,score⟩,listed,found⟩ := List.mem_filterMap.mp member
    have inside : entry ∈ (e.vectors.partitions (scopePartitionKey scope)).entries.rows := by
      unfold ScopedVectorIndex.search SemanticStore.search at searched
      split at searched
      next =>
        cases searched
        cases listed
      next =>
        split at searched
        next => cases searched
        next =>
          cases searched
          obtain ⟨⟨id,_⟩,_,stored⟩ := List.mem_filterMap.mp listed
          obtain ⟨other,there,same⟩ := Option.map_eq_some_iff.mp stored
          cases same
          exact ((Table.find_eq_some _ _ _).mp there).1
    dsimp only at found
    split at found
    next m stored =>
      split at found
      next active =>
        cases found
        have id := MemoryTable.get_id stored
        exact ⟨active,id ▸ stored,entry,inside,id.symm⟩
      next => cases found
    next => cases found

theorem mem_vectorHits {hit : Memory × Rat} (inside : hit ∈ vectorHits r e config answers scope k project) :
    inProject project hit.1 = true ∧ hit.1.state = .active ∧ e.memories.get hit.1.id = some hit.1 ∧
      ∃ entry ∈ (e.vectors.partitions (scopePartitionKey scope)).entries.rows, entry.id = hit.1.id := by
  unfold vectorHits at inside
  split at inside
  next => cases inside
  next vector _ =>
    split at inside
    next => cases inside
    next hits searched =>
      obtain ⟨member,owned⟩ := List.mem_filter.mp inside
      exact ⟨owned,memoryIndexSearch_hit searched member⟩

private theorem MemoryTable.nodup_unscored {memories : List Memory} (distinct : (memories.map Memory.id).Nodup) :
    ((memories.map (unscored r)).map (fun hit => hit.memory.id)).Nodup := by
  rw [List.map_map]
  exact distinct

theorem memorySearchInner_nodup :
    ((memorySearchInner env r e config answers query scope k project minSimilarity).1.map (fun hit => hit.memory.id)).Nodup := by
  simp only [memorySearchInner]
  split
  next => exact MemoryTable.nodup_unscored (e.memories.nodup_listActive scope _)
  next =>
    split
    next =>
      exact MemoryTable.nodup_unscored ((e.memories.nodup_listActive scope k).sublist (List.filter_sublist.map Memory.id))
    next =>
      -- a fused id gives one hit or none, and the hit has that id
      have hits (fused : List (Uuid × F)) (known : List Memory) (score : Memory → F → F) (near : Memory → Option Rat)
          (text : Memory → Option F) (distinct : (fused.map Prod.fst).Nodup) :
          ((fused.filterMap (fun (id,rrf) => ((findById known id).or (e.memories.get id)).map (fun m =>
            (⟨m,score m rrf,near m,text m⟩ : MemoryHit F)))).map (fun hit => hit.memory.id)).Nodup := by
        refine distinct.sublist ?_
        induction fused with
        | nil => exact .slnil
        | cons entry fused ih =>
          obtain ⟨id,rrf⟩ := entry
          have rest := ih (List.nodup_cons.mp distinct).2
          cases found : (findById known id).or (e.memories.get id) with
          | none =>
            simp only [List.filterMap_cons,found,Option.map_none]
            exact rest.cons _
          | some m =>
            have named : m.id = id := by
              rcases Option.or_eq_some_iff.mp found with given | ⟨_,stored⟩
              · exact (findById_eq_some given).2
              · exact MemoryTable.get_id stored
            simp only [List.filterMap_cons,found,Option.map_some,List.map_cons,named]
            exact rest.cons_cons _
      have order {scored : List (MemoryHit F)} (distinct : (scored.map (fun hit => hit.memory.id)).Nodup) :
          ((rerank r answers.now query (sortByScore r.f32 MemoryHit.score scored)).map (fun hit => hit.memory.id)).Nodup := by
        have perm := (rerank_perm (r := r) answers.now query (sortByScore r.f32 MemoryHit.score scored)).trans
          ((sortByScore_perm r.f32 MemoryHit.score scored).map MemoryHit.memory)
        have ids := perm.map Memory.id
        rw [List.map_map,List.map_map] at ids
        exact ids.nodup_iff.mpr distinct
      refine (order ?_).sublist ((List.take_sublist _ _).map _)
      refine (hits _ _ _ _ _ ?_).sublist (List.filter_sublist.map _)
      refine List.Nodup.sublist ((List.take_sublist _ _).map Prod.fst) ?_
      rw [((sortByScore_perm r.f32 Prod.snd _).map Prod.fst).nodup_iff,((r.reordered _).map Prod.fst).nodup_iff]
      exact nodup_rrfScores r.f32 _ _

theorem memorySearchInner_stored {hit : MemoryHit F}
    (inside : hit ∈ (memorySearchInner env r e config answers query scope k project minSimilarity).1) :
    e.memories.get hit.memory.id = some hit.memory := by
  cases memorySearchInner_hit inside with
  | listed blank listed =>
    obtain ⟨_,_,row,there,same⟩ := MemoryTable.mem_listActive listed
    exact same ▸ MemoryTable.get_of_mem there
  | fallback asked listed filtered =>
    obtain ⟨_,_,row,there,same⟩ := MemoryTable.mem_listActive listed
    exact same ▸ MemoryTable.get_of_mem there
  | text asked listed => exact textCandidates_stored listed
  | near asked listed =>
    obtain ⟨near,member,same⟩ := List.mem_map.mp listed
    exact same ▸ (mem_vectorHits member).2.2.1
  | linked asked linked => exact linked.stored

theorem memorySearchInner_length (some : 0 < k) :
    (memorySearchInner env r e config answers query scope k project minSimilarity).1.length ≤ k := by
  have listed := e.memories.length_listActive scope some
  simp only [memorySearchInner]
  split
  next =>
    rw [List.length_map,Nat.max_eq_left some]
    exact listed
  next =>
    split
    next =>
      rw [List.length_map]
      exact (List.length_filter_le _ _).trans listed
    next => exact List.length_take_le _ _

end

/-- Scores as fractions, without the transcendental functions, and no reranker. -/
def Retriever.plain : Retriever Rat where
  f32 := ⟨fun n => n,id,(· + ·),(· - ·),(· * ·),(· / ·),maxRat,id,fun x _ => x,fun a b => a < b⟩
  isAlphanumeric := Char.isAlphanum
  hashOrder := id
  reordered := fun _ => .refl _
  reranker := none

def RetrievalConfig.plain : RetrievalConfig := ⟨100,20,false,0,0,1,1,50⟩

end Ecphoria
