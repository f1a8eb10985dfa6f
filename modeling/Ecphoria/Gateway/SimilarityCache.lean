import Ecphoria.Gateway.ResponseCache

/-! The response cache with both kinds of lookup. Beside the entries it keeps the vectors of
prompts in one index for all scopes; a similar prompt answers when its entry has the scope
asked for, an equal one when its key is the key asked for. -/
namespace Ecphoria
open Library

/-- The cache of `ResponseCache` with its vectors. `vectorKeys` is the `vector_key` of the entry under a key. -/
structure SimilarityCache where
  exact : SemanticCache
  vectorKeys : String → Option Nat
  keyToPrompt : Nat → Option String
  index : List (Nat × List Rat)
  nextKey : Nat
  similarityThreshold : Rat

def SimilarityCache.withConfig (ttl maxEntries : Nat) (similarityThreshold : Rat) : SimilarityCache :=
  ⟨⟨Table.empty,ttl,maxEntries⟩,fun _ => none,fun _ => none,[],1,similarityThreshold⟩

/-- The calls, each with what the vector library says: whether it adds the vector, and what it finds. -/
inductive CacheCall where
  | putWithVector (query response : String) (embedding : Option (List Rat)) (scope : Option String) (added : Bool)
  | get (query : String) (scope : Option String)
  | getByVector (embedding : List Rat) (scope : Option String) (found : Option (List (Nat × Rat)))
  | evictExpired

def CacheCall.scope : CacheCall → Option String
  | .putWithVector _ _ _ scope _ => scope
  | .get _ scope => scope
  | .getByVector _ scope _ => scope
  | .evictExpired => none

section
variable (env : Env)

namespace SimilarityCache
variable (c : SimilarityCache)

def get (query : String) (scope : Option String) (now : Nat) : Option String × SimilarityCache :=
  let key := cacheKey env scope query
  let (found,exact) := c.exact.get env query scope now
  let expired := found.isNone && (c.exact.entries.find key).isSome
  (found,{ c with
    exact := exact
    keyToPrompt := match c.vectorKeys key with
      | some vk => if expired then Function.update c.keyToPrompt vk none else c.keyToPrompt
      | none => c.keyToPrompt })

/-- Nearest first: the search ends at the first prompt that is not similar enough. -/
def firstSimilar (scope : Option String) (now : Nat) : List (Nat × Rat) → Option String
  | [] => none
  | (vk,dist) :: rest =>
    if 1 - dist < c.similarityThreshold then none
    else
      match (c.keyToPrompt vk).bind c.exact.entries.find with
      | some entry =>
        if now - entry.createdAt < c.exact.ttl && entry.scope = scope then some entry.response
        else firstSimilar scope now rest
      | none => firstSimilar scope now rest

def getByVector (embedding : List Rat) (scope : Option String) (found : Option (List (Nat × Rat))) (now : Nat) :
    Option String :=
  if embedding.isEmpty || c.index.isEmpty then none
  else found.bind (c.firstSimilar scope now)

def putWithVector (query response : String) (embedding : Option (List Rat)) (scope : Option String) (added : Bool)
    (now : Nat) : SimilarityCache :=
  let key := cacheKey env scope query
  let c := { c with exact := c.exact.put env query response scope now }
  match embedding with
  | none => { c with vectorKeys := Function.update c.vectorKeys key none }
  | some emb =>
    let vk := c.nextKey
    let c := { c with nextKey := vk + 1 }
    if added then { c with
      index := c.index ++ [(vk,emb)]
      keyToPrompt := Function.update c.keyToPrompt vk (some key)
      vectorKeys := Function.update c.vectorKeys key (some vk) }
    else { c with vectorKeys := Function.update c.vectorKeys key none }

def evictExpired (now : Nat) : SimilarityCache :=
  { c with exact := { c.exact with
      entries := c.exact.entries.delete (fun entry => !(now - entry.createdAt < c.exact.ttl)) } }

def call (item : Nat × CacheCall) : Option String × SimilarityCache :=
  match item.2 with
  | .putWithVector query response embedding scope added =>
    (none,c.putWithVector env query response embedding scope added item.1)
  | .get query scope => c.get env query scope item.1
  | .getByVector embedding scope found => (c.getByVector embedding scope found item.1,c)
  | .evictExpired => (none,c.evictExpired item.1)

def step (item : Nat × CacheCall) : SimilarityCache := (c.call env item).2

end SimilarityCache

/-- Every answer of the run was put earlier under the scope of the lookup, less than the time to live ago. -/
def AnswersOwn (start : SimilarityCache) (calls : List (Nat × CacheCall)) : Prop :=
  ∀ before item after, calls = before ++ item :: after → ∀ response,
    ((run (SimilarityCache.step env) start before).call env item).1 = some response →
      ∃ earlier ∈ before, (∃ query embedding added,
        earlier.2 = .putWithVector query response embedding item.2.scope added) ∧
          item.1 - earlier.1 < start.exact.ttl

def SimilarityCache.Bounded (c : SimilarityCache) : Prop := c.exact.entries.rows.length ≤ c.exact.maxEntries

/-- No lookup has the key of an answer that is put under another scope. -/
def LookupsApart (calls : List (Nat × CacheCall)) : Prop :=
  ∀ first ∈ calls, ∀ query response embedding scope added,
    first.2 = .putWithVector query response embedding scope added → ∀ second ∈ calls, ∀ query' scope',
      second.2 = .get query' scope' → cacheKey env scope query = cacheKey env scope' query' → scope = scope'

def SimilarityCache.roomed (c : SimilarityCache) (now : Nat) : SemanticCache :=
  if c.exact.maxEntries ≤ c.exact.entries.rows.length then c.exact.evictOldest now else c.exact

/-- A new key comes when there is room, once entries past three quarters of their time have left a full cache. -/
def SimilarityCache.Room (c : SimilarityCache) (item : Nat × CacheCall) : Prop :=
  match item.2 with
  | .putWithVector query _ _ scope _ =>
    cacheKey env scope query ∈ (c.roomed item.1).entries.keys ∨
      (c.roomed item.1).entries.rows.length < c.exact.maxEntries
  | _ => True

variable {env}

namespace SimilarityCache
variable {c : SimilarityCache}

theorem exact_putWithVector (query response : String) (embedding : Option (List Rat)) (scope : Option String)
    (added : Bool) (now : Nat) :
    (c.putWithVector env query response embedding scope added now).exact = c.exact.put env query response scope now := by
  unfold putWithVector
  cases embedding with
  | none => rfl
  | some emb =>
    cases added with
    | false => rfl
    | true => rfl

theorem firstSimilar_some {scope : Option String} {now : Nat} {found : List (Nat × Rat)} {response : String}
    (hit : c.firstSimilar scope now found = some response) :
    ∃ entry ∈ c.exact.entries.rows, entry.scope = scope ∧ now - entry.createdAt < c.exact.ttl ∧
      entry.response = response := by
  induction found with
  | nil => cases hit
  | cons first rest ih =>
    obtain ⟨vk,dist⟩ := first
    rw [firstSimilar] at hit
    split at hit
    next => cases hit
    next =>
      split at hit
      next entry stored =>
        obtain ⟨prompt,_,there⟩ := Option.bind_eq_some_iff.mp stored
        split at hit
        next own =>
          simp only [Bool.and_eq_true,decide_eq_true_eq] at own
          exact ⟨entry,((Table.find_eq_some _ _ _).mp there).1,own.2,own.1,Option.some.inj hit⟩
        next => exact ih hit
      next => exact ih hit

inductive EntriesCase (env : Env) (c : SimilarityCache) (item : Nat × CacheCall) : SemanticCache → Prop
  | put (query response : String) (embedding : Option (List Rat)) (scope : Option String) (added : Bool)
      (is : item.2 = .putWithVector query response embedding scope added) :
      EntriesCase env c item (c.exact.put env query response scope item.1)
  | fewer (after : SemanticCache) (ttl : after.ttl = c.exact.ttl) (cap : after.maxEntries = c.exact.maxEntries)
      (kept : after.entries.rows.Sublist c.exact.entries.rows)
      (other : ∀ query response embedding scope added, item.2 ≠ .putWithVector query response embedding scope added) :
      EntriesCase env c item after

theorem entries_cases (env : Env) (c : SimilarityCache) (item : Nat × CacheCall) : EntriesCase env c item (c.step env item).exact := by
  obtain ⟨now,call⟩ := item
  cases call with
  | putWithVector query response embedding scope added =>
    change EntriesCase env c _ (c.putWithVector env query response embedding scope added now).exact
    rw [exact_putWithVector]
    exact .put query response embedding scope added rfl
  | get query scope =>
    change EntriesCase env c _ (c.exact.get env query scope now).2
    simp only [SemanticCache.get]
    split
    next entry found =>
      split
      next => exact .fewer _ rfl rfl (List.Sublist.refl _) (by simp)
      next => exact .fewer _ rfl rfl List.filter_sublist (by simp)
    next => exact .fewer _ rfl rfl (List.Sublist.refl _) (by simp)
  | getByVector embedding scope found => exact .fewer _ rfl rfl (List.Sublist.refl _) (by simp)
  | evictExpired => exact .fewer _ rfl rfl List.filter_sublist (by simp)

theorem config_step (env : Env) (c : SimilarityCache) (item : Nat × CacheCall) :
    (c.step env item).exact.ttl = c.exact.ttl ∧ (c.step env item).exact.maxEntries = c.exact.maxEntries := by
  have made := entries_cases env c item
  generalize (c.step env item).exact = after at made
  cases made with
  | put query response embedding scope added is =>
    unfold SemanticCache.put SemanticCache.evictOldest
    dsimp only
    split
    next => exact ⟨rfl,rfl⟩
    next => exact ⟨rfl,rfl⟩
  | fewer after ttl cap kept other => exact ⟨ttl,cap⟩

def Traced (env : Env) (done : List (Nat × CacheCall)) (c : SimilarityCache) : Prop :=
  ∀ entry ∈ c.exact.entries.rows, ∃ query embedding added,
    (entry.createdAt,.putWithVector query entry.response embedding entry.scope added) ∈ done ∧
      entry.key = cacheKey env entry.scope query

theorem traced_step {done : List (Nat × CacheCall)} (traced : Traced env done c) (item : Nat × CacheCall) :
    Traced env (done ++ [item]) (c.step env item) := by
  intro entry inside
  have made := entries_cases env c item
  have older (old : entry ∈ c.exact.entries.rows) : ∃ query embedding added,
      (entry.createdAt,.putWithVector query entry.response embedding entry.scope added) ∈ done ++ [item] ∧
        entry.key = cacheKey env entry.scope query := by
    obtain ⟨query,embedding,added,listed,own⟩ := traced entry old
    exact ⟨query,embedding,added,List.mem_append_left _ listed,own⟩
  generalize (c.step env item).exact = after at made inside
  cases made with
  | put query response embedding scope added is =>
    rcases SemanticCache.mem_put inside with rfl | ⟨old,_⟩
    · refine ⟨query,embedding,added,List.mem_append_right _ (List.mem_singleton.mpr ?_),rfl⟩
      rw [← is]
    · exact older old
  | fewer after ttl cap kept other => exact older (kept.subset inside)

theorem traced_run {done : List (Nat × CacheCall)} (traced : Traced env done c) (calls : List (Nat × CacheCall)) :
    Traced env (done ++ calls) (run (step env) c calls) := by
  induction calls generalizing done c with
  | nil => simpa using traced
  | cons item calls ih =>
    have rest := ih (traced_step traced item)
    rwa [List.append_assoc,List.singleton_append] at rest

theorem config_run (env : Env) (calls : List (Nat × CacheCall)) (c : SimilarityCache) :
    (run (step env) c calls).exact.ttl = c.exact.ttl := by
  induction calls generalizing c with
  | nil => rfl
  | cons item calls ih => exact (ih _).trans (config_step env c item).1

theorem length_put (query response : String) (scope : Option String) (now : Nat) :
    (c.exact.put env query response scope now).entries.rows.length =
      (c.roomed now).entries.rows.length +
        if cacheKey env scope query ∈ (c.roomed now).entries.keys then 0 else 1 := by
  change ((c.roomed now).entries.upsert ⟨cacheKey env scope query,response,now,scope⟩).rows.length = _
  by_cases present : cacheKey env scope query ∈ (c.roomed now).entries.keys
  · rw [Table.rows_upsert_present _ _ present,if_pos present,List.length_map,Nat.add_zero]
  · rw [Table.rows_upsert_fresh _ _ present,if_neg present,List.length_append,List.length_singleton]

theorem roomed_length (c : SimilarityCache) (now : Nat) : (c.roomed now).entries.rows.length ≤ c.exact.entries.rows.length := by
  unfold roomed
  split
  next => exact List.length_filter_le _ _
  next => exact Nat.le_refl _

theorem bounded_step_iff (item : Nat × CacheCall) (bounded : c.Bounded) :
    (c.step env item).Bounded ↔ c.Room env item := by
  have made := entries_cases env c item
  have cap := (config_step env c item).2
  rw [Bounded,cap]
  generalize (c.step env item).exact = after at made
  cases made with
  | put query response embedding scope added is =>
    have within := (roomed_length c item.1).trans bounded
    rw [length_put,Room,is]
    by_cases present : cacheKey env scope query ∈ (c.roomed item.1).entries.keys
    · simp only [present,if_true,true_or,iff_true]
      omega
    · simp only [present,if_false,false_or]
      omega
  | fewer after ttl _ kept other =>
    refine iff_of_true (kept.length_le.trans bounded) ?_
    unfold Room
    split
    next query response embedding scope added is => exact absurd is (other query response embedding scope added)
    next => trivial

end SimilarityCache

theorem answersOwn_of_keysApart {start : SimilarityCache} (empty : start.exact.entries.rows = [])
    {calls : List (Nat × CacheCall)} (apart : LookupsApart env calls) : AnswersOwn env start calls := by
  intro before item after split response answered
  have traced : SimilarityCache.Traced env before (run (SimilarityCache.step env) start before) := by
    have first : SimilarityCache.Traced env [] start := by
      intro entry inside
      rw [empty] at inside
      cases inside
    exact SimilarityCache.traced_run first before
  have kept := SimilarityCache.config_run env before start
  generalize run (SimilarityCache.step env) start before = c at traced kept answered
  -- an entry of the scope asked for, within its time, was put as the claim wants it
  have settle (entry : CachedResponse) (inside : entry ∈ c.exact.entries.rows) (own : entry.scope = item.2.scope)
      (fresh : item.1 - entry.createdAt < c.exact.ttl) : ∃ earlier ∈ before, (∃ query embedding added,
        earlier.2 = .putWithVector query entry.response embedding item.2.scope added) ∧
          item.1 - earlier.1 < start.exact.ttl := by
    obtain ⟨query,embedding,added,listed,_⟩ := traced entry inside
    exact ⟨_,listed,⟨query,embedding,added,by rw [own]⟩,kept ▸ fresh⟩
  obtain ⟨now,call⟩ := item
  cases call with
  | putWithVector query response embedding scope added => cases answered
  | evictExpired => cases answered
  | getByVector embedding scope found =>
    change c.getByVector embedding scope found now = some response at answered
    unfold SimilarityCache.getByVector at answered
    split at answered
    next => cases answered
    next =>
      obtain ⟨results,_,hit⟩ := Option.bind_eq_some_iff.mp answered
      obtain ⟨entry,inside,own,fresh,rfl⟩ := SimilarityCache.firstSimilar_some hit
      exact settle entry inside own fresh
  | get query scope =>
    obtain ⟨entry,inside,mine,fresh,rfl⟩ := SemanticCache.get_some answered
    obtain ⟨query',embedding,added,listed,own⟩ := traced entry inside
    refine settle entry inside ?_ fresh
    rw [split] at apart
    exact apart _ (List.mem_append_left _ listed) query' _ embedding _ added rfl (now,.get query scope)
      (List.mem_append_right _ List.mem_cons_self) query scope rfl (own.symm.trans mine)

theorem scope_of_cacheKey {scope scope' : Option String} {query query' : String}
    (left : unitSeparator ∉ (normalizeKey env query).toList) (right : unitSeparator ∉ (normalizeKey env query').toList)
    (same : cacheKey env scope query = cacheKey env scope' query') : scope = scope' := by
  have texts := congrArg String.toList same
  cases scope with
  | none =>
    cases scope' with
    | none => rfl
    | some s' =>
      simp only [cacheKey,String.toList_ofList] at texts
      rw [texts] at left
      exact absurd (List.mem_append_right _ List.mem_cons_self) left
  | some s =>
    cases scope' with
    | none =>
      simp only [cacheKey,String.toList_ofList] at texts
      rw [← texts] at right
      exact absurd (List.mem_append_right _ List.mem_cons_self) right
    | some s' =>
      -- the last separator is the one that ends the scope
      have reversed := congrArg List.reverse texts
      simp only [cacheKey,String.toList_ofList,List.reverse_append,List.reverse_cons,List.append_assoc,
        List.singleton_append] at reversed
      have scopes := ((separated_inj (fun inside => left (List.mem_reverse.mp inside))
        (fun inside => right (List.mem_reverse.mp inside))).mp reversed).2
      exact congrArg some (String.toList_injective (List.reverse_injective scopes))

/-- The prompt of a call, as it stands in a key. -/
def CacheCall.Plain (env : Env) : CacheCall → Prop
  | .putWithVector query _ _ _ _ => unitSeparator ∉ (normalizeKey env query).toList
  | .get query _ => unitSeparator ∉ (normalizeKey env query).toList
  | _ => True

theorem lookupsApart_of_plain {calls : List (Nat × CacheCall)} (plain : ∀ item ∈ calls, item.2.Plain env) :
    LookupsApart env calls := by
  intro first inside query response embedding scope added is second there query' scope' asks same
  have left := plain first inside
  have right := plain second there
  rw [is] at left
  rw [asks] at right
  exact scope_of_cacheKey left right same

/-- Where no lookup meets the key of another scope, answers keep to their scope and time; the cache keeps to its size
exactly when every new key comes when there is room. -/
theorem answers_scoped_and_entries_bounded (ttl maxEntries : Nat) (similarityThreshold : Rat)
    (calls : List (Nat × CacheCall)) (apart : LookupsApart env calls) :
    AnswersOwn env (.withConfig ttl maxEntries similarityThreshold) calls ∧
      (Throughout (SimilarityCache.step env) SimilarityCache.Bounded (.withConfig ttl maxEntries similarityThreshold)
          calls ↔
        Along (SimilarityCache.step env) (SimilarityCache.Room env) (.withConfig ttl maxEntries similarityThreshold)
          calls) := by
  refine ⟨answersOwn_of_keysApart rfl apart,?_⟩
  have empty : (SimilarityCache.withConfig ttl maxEntries similarityThreshold).Bounded := Nat.zero_le _
  rw [throughout_iff_along empty]
  exact along_congr SimilarityCache.Bounded empty (fun c item bounded => SimilarityCache.bounded_step_iff item bounded)
    (fun c item _ bounded => bounded)

end

/-- A question and the same question again, with the scope of its asker. -/
def askedTwice : List (Nat × CacheCall) :=
  [(0,.putWithVector "Hi" "Hello." none (some "acme") false),(1,.get "hi " (some "acme"))]

theorem askedTwice_plain : ∀ item ∈ askedTwice, item.2.Plain Env.ascii := by
  intro item inside
  simp only [askedTwice,List.mem_cons,List.not_mem_nil,or_false] at inside
  rcases inside with rfl | rfl
  · change unitSeparator ∉ (normalizeKey Env.ascii "Hi").toList
    decide +kernel
  · change unitSeparator ∉ (normalizeKey Env.ascii "hi ").toList
    decide +kernel

theorem answers_scoped_and_entries_bounded_askedTwice :
    LookupsApart Env.ascii askedTwice ∧
      ((run (SimilarityCache.step Env.ascii) (.withConfig 10 1 (19 / 20)) (askedTwice.take 1)).call Env.ascii
        (1,.get "hi " (some "acme"))).1 = some "Hello." ∧
      AnswersOwn Env.ascii (.withConfig 10 1 (19 / 20)) askedTwice ∧
      (Throughout (SimilarityCache.step Env.ascii) SimilarityCache.Bounded (.withConfig 10 1 (19 / 20)) askedTwice ↔
        Along (SimilarityCache.step Env.ascii) (SimilarityCache.Room Env.ascii) (.withConfig 10 1 (19 / 20))
          askedTwice) :=
  ⟨lookupsApart_of_plain askedTwice_plain,by decide +kernel,
    answers_scoped_and_entries_bounded 10 1 (19 / 20) askedTwice (lookupsApart_of_plain askedTwice_plain)⟩

/-- A prompt with the separator in it, put without a scope, and another prompt; the cache is meant for one. -/
def disguised : List (Nat × CacheCall) :=
  [(0,.putWithVector "acme\x1fhi" "Not yours." none none false),(0,.putWithVector "hello" "Hello." none none false),
    (1,.get "hi" (some "acme"))]

/-- The first answer is given to another scope, and both stay. -/
theorem disguised_answer :
    ¬(AnswersOwn Env.ascii (.withConfig 10 1 (19 / 20)) disguised ∧
      Throughout (SimilarityCache.step Env.ascii) SimilarityCache.Bounded (.withConfig 10 1 (19 / 20)) disguised) ∧
    ¬AnswersOwn Env.ascii (.withConfig 10 1 (19 / 20)) disguised ∧
    ¬Throughout (SimilarityCache.step Env.ascii) SimilarityCache.Bounded (.withConfig 10 1 (19 / 20)) disguised := by
  have leaks : ¬AnswersOwn Env.ascii (.withConfig 10 1 (19 / 20)) disguised := by
    intro own
    have answered : ((run (SimilarityCache.step Env.ascii) (.withConfig 10 1 (19 / 20)) (disguised.take 2)).call Env.ascii
        (1,.get "hi" (some "acme"))).1 = some "Not yours." := by decide +kernel
    obtain ⟨earlier,inside,⟨query,embedding,added,is⟩,_⟩ := own (disguised.take 2) (1,.get "hi" (some "acme")) [] rfl
      "Not yours." answered
    simp only [disguised,List.take_succ_cons,List.take_zero,List.mem_cons,List.not_mem_nil,or_false] at inside
    rcases inside with rfl | rfl
    · exact absurd (CacheCall.putWithVector.inj is).2.2.2.1 (by decide)
    · exact absurd (CacheCall.putWithVector.inj is).2.1 (by decide)
  have grows : ¬Throughout (SimilarityCache.step Env.ascii) SimilarityCache.Bounded (.withConfig 10 1 (19 / 20))
      disguised := by
    intro bounded
    have within := bounded 2
    have two : (run (SimilarityCache.step Env.ascii) (.withConfig 10 1 (19 / 20))
        (disguised.take 2)).exact.entries.rows.length = 2 := by decide +kernel
    have one : (run (SimilarityCache.step Env.ascii) (.withConfig 10 1 (19 / 20))
        (disguised.take 2)).exact.maxEntries = 1 := by decide +kernel
    rw [SimilarityCache.Bounded,two,one] at within
    exact absurd within (by decide)
  exact ⟨fun both => leaks both.1,leaks,grows⟩

end Ecphoria
