import Ecphoria.Engine.TextIndex
import Ecphoria.Engine.Isolation
import Mathlib.Algebra.Order.BigOperators.Group.List
import Mathlib.Algebra.Order.Group.Nat
import Mathlib.Algebra.Order.Ring.Rat
import Mathlib.Tactic.Linarith
import Mathlib.Tactic.Positivity

/-! The keyword arm of a search. The text index proposes the memories that have a term of the
query in their subject or content; the ranking then keeps those whose content has a word of
the query. The two split a text differently and read different fields. -/
namespace Ecphoria
open Library

/-- What the keyword ranking relies on of its floats: the weight of a term that occurs is positive as long as no more
than `most` documents are ranked, and a sum of positive weights is positive. -/
structure Arith.Weighs {F : Type} (f32 : Arith F) (most : Nat) : Prop where
  zero : f32.lt (f32.ofNat 0) (f32.ofNat 0) = false
  weight : ∀ n nq length freq total, 0 < nq → nq ≤ n → n ≤ most → 0 < freq → freq ≤ length → length ≤ total →
    f32.lt (f32.ofNat 0) (bm25Term f32 (f32.ofNat n) (f32.max (f32.div (f32.ofNat total) (f32.ofNat n)) (f32.ofNat 1))
      (f32.ofNat nq) (f32.ofNat length) (f32.ofNat freq)) = true
  first : ∀ x, f32.lt (f32.ofNat 0) x = true → f32.lt (f32.ofNat 0) (f32.add (f32.ofNat 0) x) = true
  sum : ∀ s x, f32.lt (f32.ofNat 0) s = true → f32.lt (f32.ofNat 0) x = true → f32.lt (f32.ofNat 0) (f32.add s x) = true

section
variable (env : Env) (isAlphanumeric : Char → Bool)

def edgeChar (c : Char) : Bool := c = '.' || c = '-' || c = '_'

def matchTerms (query : String) : List String :=
  let words := (query.toList.splitOnP (fun c => !(isAlphanumeric c || edgeChar c))).map
    (fun word => (((word.dropWhile edgeChar).reverse).dropWhile edgeChar).reverse)
  ((words.filter (fun word => !word.isEmpty)).map (fun word => env.toLowercase (String.ofList word))).filter
    (fun term => !isStopWord term)

theorem buildMatchExpr_eq (query : String) : buildMatchExpr env isAlphanumeric query =
    if (matchTerms env isAlphanumeric query).isEmpty then none
    else some (String.intercalate " OR " ((matchTerms env isAlphanumeric query).map (fun term => "\"" ++ term ++ "\""))) :=
  rfl

def textTokens (text : String) : List String :=
  ((text.toList.splitOnP (fun c => !(isAlphanumeric c || edgeChar c))).filter (fun word => !word.isEmpty)).map
    (fun word => env.toLowercase (String.ofList word))

def TextMatches (query : String) (entry : LexicalEntry) : Prop :=
  ∃ term ∈ matchTerms env isAlphanumeric query, term ∈ textTokens env isAlphanumeric entry.content ∨
    ∃ subject, entry.subject = some subject ∧ term ∈ textTokens env isAlphanumeric subject

instance (query : String) (entry : LexicalEntry) : Decidable (TextMatches env isAlphanumeric query entry) :=
  inferInstanceAs (Decidable (∃ term ∈ matchTerms env isAlphanumeric query,
    term ∈ textTokens env isAlphanumeric entry.content ∨ ∃ subject ∈ entry.subject,
      term ∈ textTokens env isAlphanumeric subject))

/-- The content has a word of the query, as the ranking splits and stems them. -/
def SharesWord (query content : String) : Prop :=
  ∃ word ∈ tokenize env isAlphanumeric query, word ∈ tokenize env isAlphanumeric content

instance (query content : String) : Decidable (SharesWord env isAlphanumeric query content) :=
  inferInstanceAs (Decidable (∃ word ∈ tokenize env isAlphanumeric query, word ∈ tokenize env isAlphanumeric content))

variable {env isAlphanumeric} {F : Type} {f32 : Arith F}

/-- What a document scores: the weights of the terms that occur in it. -/
def weighed (f32 : Arith F) (freq : String → Nat) (weight : String → F) (terms : List String) (start : F) : F :=
  terms.foldl (fun score term => if freq term = 0 then score else f32.add score (weight term)) start

theorem weighed_cons (freq : String → Nat) (weight : String → F) (term : String) (terms : List String) (start : F) :
    weighed f32 freq weight (term :: terms) start =
      weighed f32 freq weight terms (if freq term = 0 then start else f32.add start (weight term)) := rfl

section
variable {most : Nat} (weighs : f32.Weighs most) {freq : String → Nat} {weight : String → F}
include weighs

theorem weighed_above {terms : List String} {start : F} (above : f32.lt (f32.ofNat 0) start = true)
    (positive : ∀ term ∈ terms, freq term ≠ 0 → f32.lt (f32.ofNat 0) (weight term) = true) :
    f32.lt (f32.ofNat 0) (weighed f32 freq weight terms start) = true := by
  induction terms generalizing start with
  | nil => exact above
  | cons term terms ih =>
    have later := fun other inside => positive other (List.mem_cons_of_mem term inside)
    rw [weighed_cons]
    split
    next => exact ih above later
    next occurs => exact ih (weighs.sum start _ above (positive term List.mem_cons_self occurs)) later

theorem weighed_pos {terms : List String}
    (positive : ∀ term ∈ terms, freq term ≠ 0 → f32.lt (f32.ofNat 0) (weight term) = true) :
    f32.lt (f32.ofNat 0) (weighed f32 freq weight terms (f32.ofNat 0)) = true ↔ ∃ term ∈ terms, freq term ≠ 0 := by
  induction terms with
  | nil => simp [weighed,weighs.zero]
  | cons term terms ih =>
    have later := fun other inside => positive other (List.mem_cons_of_mem term inside)
    rw [weighed_cons,List.exists_mem_cons_iff]
    split
    next absent => rw [ih later,or_iff_right (not_not_intro absent)]
    next occurs =>
      have above := weighs.first _ (positive term List.mem_cons_self occurs)
      exact iff_of_true (weighed_above weighs above later) (Or.inl occurs)

theorem mem_lexicalRank {query : String} {candidates : List Memory} (few : candidates.length ≤ most) (i : Nat) :
    (∃ score, (i,score) ∈ lexicalRank env isAlphanumeric f32 query candidates) ↔
      ∃ m, candidates[i]? = some m ∧ SharesWord env isAlphanumeric query m.content := by
  unfold lexicalRank
  simp only
  split
  next blank =>
    refine iff_of_false (by simp) ?_
    rintro ⟨m,found,word,asked,_⟩
    rcases Bool.or_eq_true _ _ |>.mp blank with nothing | nobody
    · have listed := List.mem_dedup.mpr asked
      rw [List.isEmpty_iff.mp nothing] at listed
      cases listed
    · rw [List.isEmpty_iff.mp nobody] at found
      cases found
  next =>
    set docs := candidates.map (fun m => tokenize env isAlphanumeric m.content) with made
    set terms := (tokenize env isAlphanumeric query).dedup with asked
    have score (doc : List String) (inside : doc ∈ docs) :
        f32.lt (f32.ofNat 0) (weighed f32 (fun term => doc.count term) (fun term => bm25Term f32 (f32.ofNat docs.length)
          (f32.max (f32.div (f32.ofNat (docs.map List.length).sum) (f32.ofNat docs.length)) (f32.ofNat 1))
          (f32.ofNat (docs.filter (fun other => other.contains term)).length) (f32.ofNat doc.length)
          (f32.ofNat (doc.count term))) terms (f32.ofNat 0)) = true ↔ ∃ word ∈ tokenize env isAlphanumeric query, word ∈ doc := by
      rw [weighed_pos weighs]
      · simp [terms,List.count_eq_zero]
      · intro term _ occurs
        have there : term ∈ doc := List.count_pos_iff.mp (Nat.pos_of_ne_zero occurs)
        apply weighs.weight
        · exact List.length_pos_of_mem (List.mem_filter.mpr ⟨inside,by simpa using there⟩)
        · exact List.length_filter_le _ _
        · rw [made,List.length_map]
          exact few
        · exact Nat.pos_of_ne_zero occurs
        · exact List.count_le_length
        · exact List.single_le_sum (fun _ _ => Nat.zero_le _) _ (List.mem_map_of_mem inside)
    constructor
    · rintro ⟨mark,ranked⟩
      obtain ⟨listed,above⟩ := List.mem_filter.mp ((sortByScore_perm f32 Prod.snd _).mem_iff.mp ranked)
      obtain ⟨⟨doc,j⟩,indexed,same⟩ := List.mem_map.mp listed
      cases same
      have there := List.mem_zipIdx_iff_getElem?.mp indexed
      rw [made,List.getElem?_map,Option.map_eq_some_iff] at there
      obtain ⟨m,found,read⟩ := there
      have inside : doc ∈ docs := by
        rw [made,List.mem_map]
        exact ⟨m,List.mem_of_getElem? found,read⟩
      refine ⟨m,found,?_⟩
      unfold SharesWord
      rw [read]
      exact (score doc inside).mp above
    · rintro ⟨m,found,shares⟩
      have there : docs[i]? = some (tokenize env isAlphanumeric m.content) := by
        rw [made,List.getElem?_map,found,Option.map_some]
      refine ⟨_,(sortByScore_perm f32 Prod.snd _).mem_iff.mpr (List.mem_filter.mpr ⟨List.mem_map.mpr
        ⟨(_,i),List.mem_zipIdx_iff_getElem?.mpr there,rfl⟩,?_⟩)⟩
      exact (score _ (List.mem_iff_getElem?.mpr ⟨i,there⟩)).mpr shares

end

end

section
variable (env : Env) {F : Type} (r : Retriever F) (e : Engine) (config : RetrievalConfig) (answers : Answers) (query : String)
variable (scope : MemoryScope) (k : Nat) (project : Option String)

/-- The text index matches exactly the entries with a term of the query, in some order. -/
def AnswersTerms (matched : Except Error (List Uuid)) : Prop :=
  ∃ ids, matched = .ok ids ∧ ids.Nodup ∧
    ∀ id, id ∈ ids ↔ ∃ entry ∈ e.lexical.rows, entry.id = id ∧ TextMatches env r.isAlphanumeric query entry

/-- An active memory of the scope and the project that has a term of the query. -/
structure Matching (m : Memory) : Prop where
  stored : ∃ row ∈ e.memories.rows, row.memory = m
  active : MemoryTable.activeIn scope m = true
  within : inProject project m = true
  termed : TextMatches env r.isAlphanumeric query m.toLexicalEntry

structure OnlyMatch (m : Memory) : Prop where
  asked : (trim query).isEmpty = false
  matching : Matching env r e query scope project m
  alone : ∀ row ∈ e.memories.rows, row.memory.state = .active → scopePartitionKey row.memory.scope = scopePartitionKey scope →
    inProject project row.memory = true → TextMatches env r.isAlphanumeric query row.memory.toLexicalEntry → row.memory = m

def othersFound : Nat :=
  (vectorHits r e config answers scope k project).length +
    (graphArm env r e config query scope k (textCandidates env r e config answers query scope k project ++
      (vectorHits r e config answers scope k project).map Prod.fst)).ids.length

/-- Every memory that the index returns is ranked, and one that alone has a term is answered as a match, unless the
other arms fill the places. -/
structure KeywordsKept : Prop where
  ranked : ∀ m ∈ textCandidates env r e config answers query scope k project,
    m.id ∈ (rankText env r query (textCandidates env r e config answers query scope k project)).map (fun hit => hit.1.id)
  found : ∀ m, OnlyMatch env r e query scope project m →
    (memorySearchInner env r e config answers query scope k project none).2 = true ∧
      (othersFound env r e config answers query scope k project < min k (poolSize r config k) →
        ∃ hit ∈ (memorySearchInner env r e config answers query scope k project none).1, hit.memory = m)

variable {env r e config answers query scope k project}

theorem ranked_iff {most : Nat} (weighs : r.f32.Weighs most) {candidates : List Memory} (few : candidates.length ≤ most)
    (distinct : ∀ a ∈ candidates, ∀ b ∈ candidates, a.id = b.id → a = b) {m : Memory} (inside : m ∈ candidates) :
    m.id ∈ (rankText env r query candidates).map (fun hit => hit.1.id) ↔
      SharesWord env r.isAlphanumeric query m.content := by
  constructor
  · intro listed
    obtain ⟨hit,ranked,same⟩ := List.mem_map.mp listed
    have given := mem_rankText ranked
    obtain ⟨⟨i,score⟩,placed,read⟩ := List.mem_filterMap.mp ranked
    obtain ⟨other,found,rfl⟩ := Option.map_eq_some_iff.mp read
    cases distinct other given m inside same
    obtain ⟨same,there,shares⟩ := (mem_lexicalRank weighs few i).mp ⟨score,placed⟩
    cases there.symm.trans found
    exact shares
  · intro shares
    obtain ⟨i,found⟩ := List.mem_iff_getElem?.mp inside
    obtain ⟨score,placed⟩ := (mem_lexicalRank weighs few i).mpr ⟨m,found,shares⟩
    refine List.mem_map.mpr ⟨(m,score),List.mem_filterMap.mpr ⟨(i,score),placed,?_⟩,rfl⟩
    simp [found]

theorem entry_of_agrees (agrees : LexicalAgrees e) {entry : LexicalEntry} (inside : entry ∈ e.lexical.rows) :
    ∃ row ∈ e.memories.rows, row.memory.state = .active ∧ row.memory.toLexicalEntry = entry := (agrees.1 entry).mp inside

theorem find_of_agrees (agrees : LexicalAgrees e) {m : Memory} (stored : ∃ row ∈ e.memories.rows, row.memory = m)
    (active : m.state = .active) : e.lexical.find m.id = some m.toLexicalEntry := by
  obtain ⟨row,there,rfl⟩ := stored
  exact (Table.find_eq_some _ _ _).mpr ⟨(agrees.1 _).mpr ⟨row,there,active,rfl⟩,rfl⟩

private theorem textCandidates_ok {returned : List Uuid} (found : e.lexical.search (scopePartitionKey scope) project
    (buildMatchExpr env r.isAlphanumeric query) (max config.retrievalScanCap k) answers.matched = .ok returned) :
    textCandidates env r e config answers query scope k project =
      (e.memories.getActiveByIds returned scope).filter (inProject project) := by
  unfold textCandidates
  simp only [found]
  cases project with
  | none => exact (List.filter_eq_self.mpr (fun _ _ => rfl)).symm
  | some p => rfl

theorem textCandidates_matching (agrees : LexicalAgrees e) (answered : AnswersTerms env r e query answers.matched)
    {m : Memory} (inside : m ∈ textCandidates env r e config answers query scope k project) :
    Matching env r e query scope project m := by
  obtain ⟨_,within⟩ := mem_textCandidates inside
  have stored := textCandidates_stored inside
  obtain ⟨row,there,rfl,_⟩ := MemoryTable.get_eq_some stored
  obtain ⟨ids,ok,_,terms⟩ := answered
  cases expression : buildMatchExpr env r.isAlphanumeric query with
  | none =>
    rw [textCandidates_ok (by rw [expression]; rfl)] at inside
    cases (List.mem_filter.mp inside).1
  | some text =>
    rw [textCandidates_ok (by rw [expression,ok]; rfl)] at inside
    obtain ⟨id,returned,found⟩ := List.mem_filterMap.mp (List.mem_filter.mp inside).1
    obtain ⟨got,active⟩ := Option.filter_eq_some_iff.mp found
    have named : row.memory.id = id := MemoryTable.get_id got
    obtain ⟨entry,kept,same⟩ := List.mem_map.mp (List.mem_of_mem_take (List.mem_eraseDups.mp returned))
    obtain ⟨other,given,looked⟩ := List.mem_filterMap.mp (List.mem_filter.mp kept).1
    obtain ⟨held,spelled⟩ := (Table.find_eq_some _ _ _).mp looked
    obtain ⟨source,indexed,about,termed⟩ := (terms other).mp given
    cases e.lexical.eq_of_key indexed held (about.trans spelled.symm)
    obtain ⟨owner,member,_,written⟩ := entry_of_agrees agrees indexed
    have one : owner.id = row.id := (congrArg LexicalEntry.id written).trans (same.trans named.symm)
    cases e.memories.eq_of_key member there one
    exact ⟨⟨row,there,rfl⟩,active,within,written ▸ termed⟩

def inPartition (scope : MemoryScope) (project : Option String) (entry : LexicalEntry) : Bool :=
  entry.scopeKey = scopePartitionKey scope && (project.isNone || entry.project = project)

def partitioned (index : LexicalIndex) (scope : MemoryScope) (project : Option String) (ids : List Uuid) : List Uuid :=
  ((ids.filterMap index.find).filter (inPartition scope project)).map LexicalEntry.id

theorem Matching.expression {m : Memory} (matching : Matching env r e query scope project m) :
    ∃ text, buildMatchExpr env r.isAlphanumeric query = some text := by
  obtain ⟨term,listed,_⟩ := matching.termed
  have some : (matchTerms env r.isAlphanumeric query).isEmpty = false := by
    cases terms : matchTerms env r.isAlphanumeric query with
    | nil =>
      rw [terms] at listed
      cases listed
    | cons term rest => rfl
  rw [buildMatchExpr_eq,some]
  exact ⟨_,rfl⟩

theorem Matching.placed {m : Memory} (matching : Matching env r e query scope project m) :
    inPartition scope project m.toLexicalEntry = true := by
  have same := (MemoryScope.matchesRow_iff scope m.scope).mp ((Bool.and_eq_true _ _).mp matching.active).1
  have spelled : m.toLexicalEntry.scopeKey = scopePartitionKey scope := by
    change scopePartitionKey m.scope = scopePartitionKey scope
    rw [same,scopePartitionKey_withDefaultTenant]
  exact (Bool.and_eq_true _ _).mpr ⟨decide_eq_true spelled,matching.within⟩

theorem textCandidates_returned {m : Memory} (matching : Matching env r e query scope project m) {ids : List Uuid}
    (matched : answers.matched = .ok ids)
    (returned : m.id ∈ (partitioned e.lexical scope project ids).take (max config.retrievalScanCap k)) :
    m ∈ textCandidates env r e config answers query scope k project := by
  obtain ⟨text,expression⟩ := matching.expression
  have got : e.memories.get m.id = some m := by
    obtain ⟨row,there,rfl⟩ := matching.stored
    exact MemoryTable.get_of_mem there
  have listed : m ∈ e.memories.getActiveByIds ((partitioned e.lexical scope project ids).take
      (max config.retrievalScanCap k)) scope := by
    refine List.mem_filterMap.mpr ⟨m.id,List.mem_eraseDups.mpr returned,?_⟩
    exact Option.filter_eq_some_iff.mpr ⟨got,matching.active⟩
  have within := matching.within
  simp only [textCandidates,LexicalIndex.search,expression,matched]
  cases project with
  | none => exact listed
  | some p => exact List.mem_filter.mpr ⟨listed,by simpa [inProject] using within⟩

theorem exists_answers (agrees : LexicalAgrees e) (asked : 0 < k) {m : Memory} (matching : Matching env r e query scope project m) :
    ∃ answers : Answers, AnswersTerms env r e query answers.matched ∧
      m ∈ textCandidates env r e config answers query scope k project := by
  classical
  have active : m.state = .active := of_decide_eq_true ((Bool.and_eq_true _ _).mp matching.active).2
  have indexed : m.toLexicalEntry ∈ e.lexical.rows := by
    obtain ⟨row,there,rfl⟩ := matching.stored
    exact (agrees.1 _).mpr ⟨row,there,active,rfl⟩
  let rest := ((e.lexical.rows.filter (fun entry => decide (TextMatches env r.isAlphanumeric query entry))).map LexicalEntry.id)
  have distinct : rest.Nodup := e.lexical.unique.sublist (List.filter_sublist.map LexicalEntry.id)
  refine ⟨⟨.ok (m.id :: rest.erase m.id),none,[],0⟩,⟨_,rfl,?_,?_⟩,?_⟩
  · exact List.nodup_cons.mpr ⟨distinct.not_mem_erase,distinct.erase _⟩
  · intro id
    have found : id ∈ rest ↔ ∃ entry ∈ e.lexical.rows, entry.id = id ∧ TextMatches env r.isAlphanumeric query entry := by
      simp only [rest,List.mem_map,List.mem_filter,decide_eq_true_eq]
      constructor
      · rintro ⟨entry,⟨inside,termed⟩,same⟩
        exact ⟨entry,inside,same,termed⟩
      · rintro ⟨entry,inside,same,termed⟩
        exact ⟨entry,⟨inside,termed⟩,same⟩
    rw [← found,List.mem_cons]
    by_cases first : id = m.id
    · exact iff_of_true (Or.inl first) (found.mpr ⟨_,indexed,first.symm,matching.termed⟩)
    · rw [or_iff_right first,List.mem_erase_of_ne first]
  · refine textCandidates_returned matching rfl ?_
    obtain ⟨cap,wide⟩ : ∃ cap, max config.retrievalScanCap k = cap + 1 := ⟨max config.retrievalScanCap k - 1,by omega⟩
    rw [wide,partitioned,List.filterMap_cons,find_of_agrees agrees matching.stored active]
    simp only
    rw [List.filter_cons_of_pos matching.placed,List.map_cons,List.take_succ_cons]
    exact List.mem_cons_self

theorem length_rankText (candidates : List Memory) : (rankText env r query candidates).length ≤ candidates.length := by
  refine (List.length_filterMap_le _ _).trans ?_
  unfold lexicalRank
  simp only
  split
  next => exact Nat.zero_le _
  next =>
    rw [(sortByScore_perm r.f32 Prod.snd _).length_eq]
    refine (List.length_filter_le _ _).trans ?_
    simp

theorem fused_all (r : Retriever F) (rankings : List (List Uuid × F)) (base : F) (pool : Nat) :
    (rrfFuseWeighted r.f32 r.hashOrder rankings base pool).length ≤ (rankings.flatMap Prod.fst).length ∧
      ((rankings.flatMap Prod.fst).length ≤ pool → ∀ id ∈ rankings.flatMap Prod.fst,
        ∃ score, (id,score) ∈ rrfFuseWeighted r.f32 r.hashOrder rankings base pool) := by
  have perm := (sortByScore_perm r.f32 Prod.snd (r.hashOrder (rrfScores r.f32 rankings base))).trans
    (r.reordered (rrfScores r.f32 rankings base))
  have members (id : Uuid) : id ∈ (rrfScores r.f32 rankings base).map Prod.fst ↔ id ∈ rankings.flatMap Prod.fst := by
    rw [mem_rrfScores,List.mem_flatMap]
  have few : (rrfScores r.f32 rankings base).length ≤ (rankings.flatMap Prod.fst).length := by
    have bound := (List.subperm_of_subset (nodup_rrfScores r.f32 rankings base) (fun id inside => (members id).mp inside)).length_le
    rwa [List.length_map] at bound
  constructor
  · refine (List.length_take_le' _ _).trans ?_
    rw [perm.length_eq]
    exact few
  · intro wide id listed
    obtain ⟨⟨id,score⟩,inside,rfl⟩ := List.mem_map.mp ((members id).mpr listed)
    refine ⟨score,?_⟩
    rw [rrfFuseWeighted,List.take_of_length_le (by rw [perm.length_eq]; exact few.trans wide)]
    exact perm.mem_iff.mpr inside

theorem flatMap_nonempty (rankings : List (List Uuid × F)) :
    (rankings.filter (fun ranking => !ranking.1.isEmpty)).flatMap Prod.fst = rankings.flatMap Prod.fst := by
  induction rankings with
  | nil => rfl
  | cons ranking rankings ih =>
    cases empty : ranking.1.isEmpty with
    | true => simp [ih,List.isEmpty_iff.mp empty]
    | false => simp [empty,ih]

theorem scored_answered (now : Int) {scored : List (MemoryHit F)} {id : Uuid} (inside : ∃ hit ∈ scored, hit.memory.id = id)
    (few : scored.length ≤ k) :
    ∃ hit ∈ (rerank r now query (sortByScore r.f32 MemoryHit.score scored)).take k, hit.memory.id = id := by
  have perm := (rerank_perm (r := r) now query (sortByScore r.f32 MemoryHit.score scored)).trans
    ((sortByScore_perm r.f32 MemoryHit.score scored).map MemoryHit.memory)
  have length : (rerank r now query (sortByScore r.f32 MemoryHit.score scored)).length = scored.length := by
    have equal := perm.length_eq
    rwa [List.length_map,List.length_map] at equal
  rw [List.take_of_length_le (by omega)]
  obtain ⟨known,there,named⟩ := inside
  obtain ⟨hit,member,same⟩ := List.mem_map.mp (perm.mem_iff.mpr (List.mem_map_of_mem there))
  exact ⟨hit,member,by rw [same,named]⟩

/-- A ranked memory makes the search one that matched, and is answered unless the arms find more than there is room for. -/
theorem ranked_found (asked : 0 < k) (words : (trim query).isEmpty = false) {m : Memory} (stored : e.memories.get m.id = some m)
    (ranked : m.id ∈ (rankText env r query (textCandidates env r e config answers query scope k project)).map
      (fun hit => hit.1.id)) :
    (memorySearchInner env r e config answers query scope k project none).2 = true ∧
      (othersFound env r e config answers query scope k project +
          (rankText env r query (textCandidates env r e config answers query scope k project)).length ≤
        min k (poolSize r config k) →
      ∃ hit ∈ (memorySearchInner env r e config answers query scope k project none).1, hit.memory = m) := by
  have blank : ¬((trim query).isEmpty || decide (k = 0)) = true := by
    rw [words]
    simp
    omega
  suffices given : (memorySearchInner env r e config answers query scope k project none).2 = true ∧
      (othersFound env r e config answers query scope k project +
          (rankText env r query (textCandidates env r e config answers query scope k project)).length ≤
        min k (poolSize r config k) →
      ∃ hit ∈ (memorySearchInner env r e config answers query scope k project none).1, hit.memory.id = m.id) by
    refine ⟨given.1,fun room => ?_⟩
    obtain ⟨hit,inside,named⟩ := given.2 room
    have here := memorySearchInner_stored inside
    rw [named,stored] at here
    exact ⟨hit,inside,(Option.some.inj here).symm⟩
  rw [memorySearchInner,if_neg blank,othersFound]
  simp only
  generalize textCandidates env r e config answers query scope k project = candidates at ranked ⊢
  generalize vectorHits r e config answers scope k project = near
  generalize graphArm env r e config query scope k (candidates ++ near.map Prod.fst) = arm
  split
  next empty =>
    have chosen := List.filter_eq_nil_iff.mp (List.isEmpty_iff.mp empty)
      ((rankText env r query candidates).map (fun hit => hit.1.id),r.f32.ofRat config.retrievalLexicalWeight) (by simp)
    simp only [Bool.not_eq_true,Bool.not_eq_false',List.isEmpty_iff] at chosen
    rw [chosen] at ranked
    cases ranked
  next =>
    refine ⟨rfl,fun room => ?_⟩
    generalize rankings : [(near.map (fun hit => hit.1.id),r.f32.ofRat config.retrievalVectorWeight),
      ((rankText env r query candidates).map (fun hit => hit.1.id),r.f32.ofRat config.retrievalLexicalWeight),
      (arm.ids,r.f32.ofRat config.retrievalLexicalWeight)].filter (fun ranking => !ranking.1.isEmpty) = chosen
    have ids : chosen.flatMap Prod.fst = near.map (fun hit => hit.1.id) ++
        ((rankText env r query candidates).map (fun hit => hit.1.id) ++ arm.ids) := by
      rw [← rankings,flatMap_nonempty]
      simp
    have sizes : (chosen.flatMap Prod.fst).length ≤ min k (poolSize r config k) := by
      rw [ids]
      simp only [List.length_append,List.length_map]
      omega
    obtain ⟨short,all⟩ := fused_all r chosen (r.f32.ofNat 60) (poolSize r config k)
    obtain ⟨score,fused⟩ := all (by omega) m.id (by
      rw [ids]
      exact List.mem_append_right _ (List.mem_append_left _ ranked))
    obtain ⟨other,read⟩ : ∃ other, (findById arm.known m.id).or (e.memories.get m.id) = some other := by
      cases findById arm.known m.id with
      | some other => exact ⟨other,rfl⟩
      | none => exact ⟨m,stored⟩
    have named : other.id = m.id := by
      rcases Option.or_eq_some_iff.mp read with given | ⟨_,got⟩
      · exact (findById_eq_some given).2
      · exact MemoryTable.get_id got
    apply scored_answered
    · refine ⟨_,List.mem_filter.mpr ⟨List.mem_filterMap.mpr ⟨(m.id,score),fused,congrArg (Option.map _) read⟩,rfl⟩,named⟩
    · exact ((List.length_filter_le _ _).trans (List.length_filterMap_le _ _)).trans (by omega)

variable (env r e config query scope k project) in
theorem textCandidates_eq {ids : List Uuid} (matched : answers.matched = .ok ids) :
    ∃ returned : List Uuid, returned.length ≤ max config.retrievalScanCap k ∧
      textCandidates env r e config answers query scope k project =
        (e.memories.getActiveByIds returned scope).filter (inProject project) ∧
      ((buildMatchExpr env r.isAlphanumeric query).isSome →
        returned = (partitioned e.lexical scope project ids).take (max config.retrievalScanCap k)) := by
  cases expression : buildMatchExpr env r.isAlphanumeric query with
  | none => exact ⟨[],Nat.zero_le _,textCandidates_ok (by rw [expression]; rfl),fun given => by cases given⟩
  | some text =>
    exact ⟨_,List.length_take_le _ _,textCandidates_ok (by rw [expression,matched]; rfl),fun _ => rfl⟩

theorem length_eraseDups_le {α : Type} [BEq α] (items : List α) : items.eraseDups.length ≤ items.length := by
  match items with
  | [] => exact Nat.le_refl _
  | a :: items =>
    have rest := length_eraseDups_le (items.filter (fun b => !(b == a)))
    have fewer := List.length_filter_le (fun b => !(b == a)) items
    rw [List.eraseDups_cons,List.length_cons,List.length_cons]
    omega
termination_by items.length
decreasing_by
  exact Nat.lt_succ_of_le (List.length_filter_le _ _)

theorem length_textCandidates {ids : List Uuid} (matched : answers.matched = .ok ids) :
    (textCandidates env r e config answers query scope k project).length ≤ max config.retrievalScanCap k := by
  obtain ⟨returned,few,read,_⟩ := textCandidates_eq env r e config query scope k project matched
  rw [read]
  refine (List.length_filter_le _ _).trans ((List.length_filterMap_le _ _).trans ?_)
  exact (length_eraseDups_le _).trans few

theorem textCandidates_only (agrees : LexicalAgrees e) (asked : 0 < k) (answered : AnswersTerms env r e query answers.matched)
    {m : Memory} (only : OnlyMatch env r e query scope project m) :
    textCandidates env r e config answers query scope k project = [m] := by
  have active : m.state = .active := of_decide_eq_true ((Bool.and_eq_true _ _).mp only.matching.active).2
  obtain ⟨ids,matched,distinct,terms⟩ := answered
  have indexed : m.toLexicalEntry ∈ e.lexical.rows := by
    obtain ⟨row,there,rfl⟩ := only.matching.stored
    exact (agrees.1 _).mpr ⟨row,there,active,rfl⟩
  have single : partitioned e.lexical scope project ids = [m.id] := by
    have once : (partitioned e.lexical scope project ids).Nodup :=
      (distinct.sublist (e.lexical.find_sublist ids)).sublist (List.filter_sublist.map LexicalEntry.id)
    refine List.perm_singleton.mp ((List.perm_ext_iff_of_nodup once (List.nodup_singleton _)).mpr (fun id => ?_))
    rw [List.mem_singleton]
    constructor
    · intro inside
      obtain ⟨entry,kept,rfl⟩ := List.mem_map.mp inside
      obtain ⟨looked,placed⟩ := List.mem_filter.mp kept
      obtain ⟨other,given,found⟩ := List.mem_filterMap.mp looked
      obtain ⟨held,rfl⟩ := (Table.find_eq_some _ _ _).mp found
      obtain ⟨source,listed,about,termed⟩ := (terms _).mp given
      cases e.lexical.eq_of_key listed held about
      obtain ⟨row,there,stands,rfl⟩ := entry_of_agrees agrees listed
      obtain ⟨spelled,within⟩ := (Bool.and_eq_true _ _).mp placed
      exact congrArg Memory.id (only.alone row there stands (of_decide_eq_true spelled) within termed)
    · rintro rfl
      refine List.mem_map.mpr ⟨m.toLexicalEntry,List.mem_filter.mpr ⟨?_,only.matching.placed⟩,rfl⟩
      refine List.mem_filterMap.mpr ⟨m.id,(terms m.id).mpr ⟨_,indexed,rfl,only.matching.termed⟩,?_⟩
      exact find_of_agrees agrees only.matching.stored active
  obtain ⟨returned,_,read,taken⟩ := textCandidates_eq env r e config query scope k project matched
  obtain ⟨text,expression⟩ := only.matching.expression
  rw [read,taken (by rw [expression]; rfl),single,List.take_of_length_le (by simp; omega)]
  obtain ⟨row,there,rfl⟩ := only.matching.stored
  have got : (e.memories.get row.memory.id).filter (MemoryTable.activeIn scope) = some row.memory :=
    Option.filter_eq_some_iff.mpr ⟨MemoryTable.get_of_mem there,only.matching.active⟩
  simp [MemoryTable.getActiveByIds,List.eraseDups_cons,got,only.matching.within]

/-- No keyword match is dropped, in whatever order the index answers, exactly when every memory with a term of the
query shares a word with it in its content. -/
theorem keywordsKept_iff {most : Nat} (agrees : LexicalAgrees e) (asked : 0 < k) (weighs : r.f32.Weighs most)
    (few : max config.retrievalScanCap k ≤ most) :
    (∀ answers : Answers, AnswersTerms env r e query answers.matched → KeywordsKept env r e config answers query scope k project) ↔
      ∀ m, Matching env r e query scope project m → SharesWord env r.isAlphanumeric query m.content := by
  have distinct (answers : Answers) : ∀ a ∈ textCandidates env r e config answers query scope k project,
      ∀ b ∈ textCandidates env r e config answers query scope k project, a.id = b.id → a = b := by
    intro a first b second same
    have one := textCandidates_stored first
    rw [same,textCandidates_stored second] at one
    exact (Option.some.inj one).symm
  have ranked {answers : Answers} (answered : AnswersTerms env r e query answers.matched) {m : Memory}
      (inside : m ∈ textCandidates env r e config answers query scope k project) :
      m.id ∈ (rankText env r query (textCandidates env r e config answers query scope k project)).map (fun hit => hit.1.id) ↔
        SharesWord env r.isAlphanumeric query m.content := by
    obtain ⟨ids,matched,_⟩ := answered
    exact ranked_iff weighs ((length_textCandidates matched).trans few) (distinct answers) inside
  constructor
  · intro kept m matching
    obtain ⟨answers,answered,inside⟩ : ∃ answers : Answers, AnswersTerms env r e query answers.matched ∧
        m ∈ textCandidates env r e config answers query scope k project := exists_answers agrees asked matching
    exact (ranked answered inside).mp ((kept answers answered).ranked m inside)
  · intro shares answers answered
    refine ⟨fun m inside => (ranked answered inside).mpr (shares m (textCandidates_matching agrees answered inside)),?_⟩
    intro m only
    have alone : textCandidates env r e config answers query scope k project = [m] :=
      textCandidates_only agrees asked answered only
    have stored : e.memories.get m.id = some m := by
      obtain ⟨row,there,rfl⟩ := only.matching.stored
      exact MemoryTable.get_of_mem there
    have listed := (ranked answered (alone ▸ List.mem_singleton.mpr rfl)).mpr (shares m only.matching)
    obtain ⟨matched,found⟩ := ranked_found asked only.asked stored listed
    refine ⟨matched,fun room => found ?_⟩
    have one : (rankText env r query (textCandidates env r e config answers query scope k project)).length ≤ 1 := by
      rw [alone]
      exact length_rankText [m]
    omega

end

theorem plain_weighs (most : Nat) : Retriever.plain.f32.Weighs most where
  zero := by decide
  weight := by
    intro n nq length freq total some within _ occurs _ _
    have whole : (nq : Rat) ≤ n := by exact_mod_cast within
    have counted : (0 : Rat) < freq := by exact_mod_cast occurs
    have many : (0 : Rat) < nq := by exact_mod_cast some
    have above (x y : Rat) (positive : 0 < y) : 0 < maxRat x y := by
      unfold maxRat
      split
      next => exact positive
      next less => exact positive.trans (not_le.mp less)
    have idf : 0 < ((n : Rat) - nq + 1 / 2) / (nq + 1 / 2) + 1 := by
      have top : 0 ≤ (n : Rat) - nq + 1 / 2 := by linarith
      positivity
    apply decide_eq_true
    exact div_pos (mul_pos idf (mul_pos counted (by norm_num [Retriever.plain]))) (above _ _ (by norm_num [Retriever.plain]))
  first := by
    intro x above
    have positive : (0 : Rat) < x := of_decide_eq_true above
    exact decide_eq_true (by simpa [Retriever.plain] using positive)
  sum := by
    intro s x first second
    have left : (0 : Rat) < s := of_decide_eq_true first
    have right : (0 : Rat) < x := of_decide_eq_true second
    exact decide_eq_true (show (0 : Rat) < s + x from add_pos left right)

def ticketNote (subject : Option String) (content : String) : Engine :=
  (memoryAdd .ascii (.empty .default 2) (.plain 1000 1) { MemoryInput.new (.tenant "acme") content with subject := subject }).2

private theorem ticketNote_agrees (subject : Option String) (content : String) : LexicalAgrees (ticketNote subject content) := by
  have start : TextsFollow (.empty .default 2) := fun _ => rfl
  exact (lexicalAgrees_iff _).mpr (texts_add .ascii start _ _)

private theorem ticketNote_answered {subject : Option String} {content query : String}
    (listed : (ticketNote subject content).lexical.rows.map LexicalEntry.id = [1])
    (termed : ∀ entry ∈ (ticketNote subject content).lexical.rows, TextMatches .ascii Retriever.plain.isAlphanumeric query entry) :
    AnswersTerms .ascii .plain (ticketNote subject content) query (.ok [1]) := by
  refine ⟨[1],rfl,by decide,fun id => ?_⟩
  rw [← listed,List.mem_map]
  constructor
  · rintro ⟨entry,inside,same⟩
    exact ⟨entry,inside,same,termed entry inside⟩
  · rintro ⟨entry,inside,same,_⟩
    exact ⟨entry,inside,same⟩

theorem keywordsKept_ticket : KeywordsKept .ascii .plain (ticketNote none "rollout of PROJ-1234") .plain ⟨.ok [1],none,[],0⟩
    "proj-1234" (.tenant "acme") 5 none := by
  have answered := @ticketNote_answered none "rollout of PROJ-1234" "proj-1234" (by decide +kernel) (by decide +kernel)
  refine (keywordsKept_iff (ticketNote_agrees none "rollout of PROJ-1234") (by decide) (plain_weighs 100)
    (by decide)).mpr ?_ _ answered
  intro m matching
  have all : ∀ row ∈ (ticketNote none "rollout of PROJ-1234").memories.rows,
      SharesWord .ascii Retriever.plain.isAlphanumeric "proj-1234" row.memory.content := by decide +kernel
  obtain ⟨row,there,rfl⟩ := matching.stored
  exact all row there

private theorem ticketNote_returned : ∃ m ∈ textCandidates .ascii .plain (ticketNote (some "proj-1234") "rollout plan") .plain
    ⟨.ok [1],none,[],0⟩ "PROJ-1234" (.tenant "acme") 5 none, m.id ∉ (rankText .ascii .plain "PROJ-1234" (textCandidates .ascii
      .plain (ticketNote (some "proj-1234") "rollout plan") .plain ⟨.ok [1],none,[],0⟩ "PROJ-1234" (.tenant "acme") 5 none)).map
        (fun hit => hit.1.id) := by
  decide +kernel

/-- A ticket that only the subject names is proposed and then not ranked. -/
theorem subject_match_dropped : ¬ ∀ (e : Engine) (answers : Answers) (query : String) (scope : MemoryScope), LexicalAgrees e →
    AnswersTerms .ascii .plain e query answers.matched → KeywordsKept .ascii .plain e .plain answers query scope 5 none := by
  intro all
  have answered := @ticketNote_answered (some "proj-1234") "rollout plan" "PROJ-1234" (by decide +kernel) (by decide +kernel)
  have kept := all (ticketNote (some "proj-1234") "rollout plan") ⟨.ok [1],none,[],0⟩ "PROJ-1234" (.tenant "acme")
    (ticketNote_agrees _ _) answered
  obtain ⟨m,inside,dropped⟩ := ticketNote_returned
  exact dropped (kept.ranked m inside)

end Ecphoria
