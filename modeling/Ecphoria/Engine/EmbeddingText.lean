import Ecphoria.Engine.EventVectors

/-! The text of an event that is embedded, cut at a byte. A cut inside a character ends the
call: an ingestion whose events are committed by then, and every reindexing that meets the event. -/
namespace Ecphoria
open Library

/-- `is_char_boundary`: a start of the text has just these bytes. -/
def IsCharBoundary (text : List Char) (n : Nat) : Prop := ∃ start, start <+: text ∧ (String.ofList start).utf8ByteSize = n

theorem utf8ByteSize_cons (c : Char) (rest : List Char) :
    (String.ofList (c :: rest)).utf8ByteSize = c.utf8Size + (String.ofList rest).utf8ByteSize := by
  have split : String.ofList (c :: rest) = String.singleton c ++ String.ofList rest := by
    rw [← String.toList_inj,String.toList_ofList,String.toList_append,String.toList_singleton,String.toList_ofList]
    rfl
  rw [split,String.utf8ByteSize_append,String.utf8ByteSize_singleton]

theorem isCharBoundary_zero (text : List Char) : IsCharBoundary text 0 := ⟨[],List.nil_prefix,rfl⟩

theorem isCharBoundary_cons {c : Char} {rest : List Char} {n : Nat} :
    IsCharBoundary (c :: rest) (n + 1) ↔ c.utf8Size ≤ n + 1 ∧ IsCharBoundary rest (n + 1 - c.utf8Size) := by
  constructor
  · rintro ⟨start,begins,size⟩
    cases start with
    | nil => cases size
    | cons first more =>
      obtain ⟨rfl,later⟩ := List.cons_prefix_cons.mp begins
      rw [utf8ByteSize_cons] at size
      exact ⟨by omega,more,later,by omega⟩
  · rintro ⟨fits,start,begins,size⟩
    refine ⟨c :: start,List.cons_prefix_cons.mpr ⟨rfl,begins⟩,?_⟩
    rw [utf8ByteSize_cons,size]
    omega

theorem utf8Prefix_start {n : Nat} {text left : List Char} (cut : utf8Prefix n text = some left) :
    left <+: text ∧ (String.ofList left).utf8ByteSize ≤ n := by
  induction text generalizing n left with
  | nil =>
    rw [utf8Prefix] at cut
    cases cut
    exact ⟨List.prefix_refl _,Nat.zero_le n⟩
  | cons c rest ih =>
    cases n with
    | zero =>
      cases cut
      exact ⟨List.nil_prefix,Nat.le_refl 0⟩
    | succ n =>
      rw [utf8Prefix] at cut
      split at cut
      · rename_i fits
        obtain ⟨more,taken,rfl⟩ := Option.map_eq_some_iff.mp cut
        obtain ⟨begins,size⟩ := ih taken
        refine ⟨List.cons_prefix_cons.mpr ⟨rfl,begins⟩,?_⟩
        rw [utf8ByteSize_cons]
        omega
      · cases cut

theorem utf8Prefix_boundary {n : Nat} {text : List Char} (long : n ≤ (String.ofList text).utf8ByteSize) :
    (utf8Prefix n text).isSome ↔ IsCharBoundary text n := by
  induction text generalizing n with
  | nil =>
    cases Nat.le_zero.mp long
    exact iff_of_true rfl (isCharBoundary_zero [])
  | cons c rest ih =>
    cases n with
    | zero => exact iff_of_true rfl (isCharBoundary_zero _)
    | succ n =>
      rw [utf8ByteSize_cons] at long
      rw [utf8Prefix,isCharBoundary_cons]
      split
      · rename_i fits
        rw [Option.isSome_map,ih (by omega),and_iff_right fits]
      · rename_i inside
        exact iff_of_false Bool.false_ne_true (fun both => inside both.1)

section
variable (env : Env)

def joinedText (event : Event) : String := String.intercalate ". " (embeddingParts env event)

/-- No character of the text stands across its byte 2048. -/
def CutsClean (event : Event) : Prop :=
  2048 < (joinedText env event).utf8ByteSize → IsCharBoundary (joinedText env event).toList 2048

theorem extractEmbeddingText_isSome (event : Event) : (extractEmbeddingText env event).isSome ↔ CutsClean env event := by
  have text : extractEmbeddingText env event = if 2048 < (joinedText env event).utf8ByteSize
      then (utf8Prefix 2048 (joinedText env event).toList).map String.ofList else some (joinedText env event) := rfl
  rw [text,CutsClean]
  split
  · rename_i long
    rw [Option.isSome_map,utf8Prefix_boundary (by rw [String.ofList_toList]; exact long.le),imp_iff_right long]
  · rename_i short
    exact iff_of_true rfl (fun long => absurd long short)

theorem extractEmbeddingText_start {event : Event} {text : String} (read : extractEmbeddingText env event = some text) :
    text.toList <+: (joinedText env event).toList ∧ text.utf8ByteSize ≤ 2048 := by
  rw [extractEmbeddingText] at read
  split at read
  · obtain ⟨left,cut,rfl⟩ := Option.map_eq_some_iff.mp read
    rw [String.toList_ofList]
    exact utf8Prefix_start cut
  · rename_i short
    cases read
    exact ⟨List.prefix_refl _,not_lt.mp short⟩

theorem embeddingTexts_isSome (events : List Event) :
    (embeddingTexts env events).isSome ↔ ∀ event ∈ events, CutsClean env event := by
  induction events with
  | nil => exact iff_of_true rfl (fun _ member => absurd member List.not_mem_nil)
  | cons event rest ih =>
    rw [embeddingTexts,List.forall_mem_cons,← extractEmbeddingText_isSome,← ih]
    split
    · rename_i panics
      rw [panics]
      exact iff_of_false Bool.false_ne_true (fun both => Bool.false_ne_true both.1)
    · rename_i text read
      rw [read,Option.isSome_map]
      exact (and_iff_right rfl).symm

/-- The provider answers every batch with vectors of the width of the index, the library takes every vector and the
log takes the marks. -/
structure Surroundings.Working (around : Surroundings) (dimension : Nat) : Prop where
  answers : ∃ provider, around.provider = some provider ∧ ∀ n texts, ∃ vectors, provider.embedDocuments n texts = some vectors ∧
    vectors.length = texts.length ∧ ∀ vector ∈ vectors, vector.length = dimension
  takes : ∀ store entry, (around.library store entry).fault = none
  marks : around.marks = true

theorem chunks_cover {α : Type} {size : Nat} (positive : 0 < size) {items : List α} {item : α} (member : item ∈ items) :
    ∃ chunk ∈ chunks size items, item ∈ chunk := by
  have within (turns : Nat) (items : List α) (enough : items.length ≤ turns) (member : item ∈ items) :
      ∃ chunk ∈ chunksOf size turns items, item ∈ chunk := by
    induction turns generalizing items with
    | zero =>
      rw [List.length_eq_zero_iff.mp (Nat.le_zero.mp enough)] at member
      cases member
    | succ turns ih =>
      rw [chunksOf]
      split
      · rename_i empty
        rw [List.isEmpty_iff.mp empty] at member
        cases member
      · rw [← List.take_append_drop size items] at member
        rcases List.mem_append.mp member with first | later
        · exact ⟨_,List.mem_cons_self,first⟩
        · obtain ⟨chunk,listed,inside⟩ := ih (items.drop size) (by rw [List.length_drop]; omega) later
          exact ⟨chunk,List.mem_cons_of_mem _ listed,inside⟩
  exact within _ items (Nat.le_refl _) member

theorem upsert_taken (store : VectorStore) (entry : SemanticEntry) (answer : LibraryAnswer) (accepts : store.Accepts entry answer) :
    store.upsert entry answer =
      (.ok (),(store.delete entry.id answer.removes).record entry (store.absent_delete entry.id answer.removes)) := by
  rw [VectorStore.upsert,if_neg (not_not_intro accepts.1)]
  simp only [accepts.2]

theorem indexVector_taken {library : VectorStore → SemanticEntry → LibraryAnswer} {done : VectorStore × List Uuid}
    {item : (Event × String) × List Rat} (accepts : done.1.Accepts (semanticEntry env item) (library done.1 (semanticEntry env item))) :
    (indexVector env library done item).2 = done.2 ++ [item.1.1.id] ∧
      (indexVector env library done item).1.dimension = done.1.dimension := by
  rw [indexVector,upsert_taken _ _ _ accepts]
  exact ⟨rfl,VectorStore.dimension_delete ..⟩

theorem indexVectors_taken {around : Surroundings} {dimension : Nat} (working : around.Working dimension)
    (items : List ((Event × String) × List Rat)) (fit : ∀ item ∈ items, item.2.length = dimension)
    (done : VectorStore × List Uuid) (width : done.1.dimension = dimension) :
    (items.foldl (indexVector env around.library) done).2 = done.2 ++ items.map (fun item => item.1.1.id) ∧
      (items.foldl (indexVector env around.library) done).1.dimension = dimension := by
  induction items generalizing done with
  | nil => exact ⟨(List.append_nil _).symm,width⟩
  | cons item items ih =>
    have accepts : done.1.Accepts (semanticEntry env item) (around.library done.1 (semanticEntry env item)) :=
      ⟨(fit item List.mem_cons_self).trans width.symm,working.takes _ _⟩
    obtain ⟨noted,same⟩ := indexVector_taken env accepts
    obtain ⟨all,kept⟩ := ih (fun other member => fit other (List.mem_cons_of_mem item member))
      (indexVector env around.library done item) (same.trans width)
    refine ⟨?_,kept⟩
    rw [List.foldl_cons,all,noted,List.append_assoc,List.map_cons,List.singleton_append]

def batchesOf (provider : EventProvider) (paired : List (Event × String)) : List (List (Event × String) × Nat) :=
  (chunks (if provider.batchSize = 0 then 64 else provider.batchSize) paired).zipIdx

theorem mem_offered_iff {around : Surroundings} {provider : EventProvider} (given : around.provider = some provider)
    {events : List Event} {paired : List (Event × String)} (read : embeddingTexts env events = some paired)
    (item : (Event × String) × List Rat) : item ∈ offered env around events ↔
      ∃ batch ∈ batchesOf provider paired, ∃ vectors,
        provider.embedDocuments batch.2 (batch.1.map Prod.snd) = some vectors ∧ item ∈ batch.1.zip vectors := by
  unfold offered
  rw [given]
  dsimp only
  rw [read]
  dsimp only
  rw [List.mem_flatMap]
  refine exists_congr (fun batch => and_congr_right (fun _ => ?_))
  cases provider.embedDocuments batch.2 (batch.1.map Prod.snd) with
  | none =>
    refine iff_of_false List.not_mem_nil ?_
    rintro ⟨_,none,_⟩
    cases none
  | some vectors =>
    constructor
    · exact fun inside => ⟨vectors,rfl,inside⟩
    · rintro ⟨_,same,inside⟩
      cases same
      exact inside

theorem exists_zip {α β : Type} {left : List α} {right : List β} (same : right.length = left.length) {a : α} (member : a ∈ left) :
    ∃ b, (a,b) ∈ left.zip right := by
  have firsts : (left.zip right).map Prod.fst = left := List.map_fst_zip same.ge
  rw [← firsts] at member
  obtain ⟨pair,inside,rfl⟩ := List.mem_map.mp member
  exact ⟨pair.2,inside⟩

theorem offered_all {around : Surroundings} {dimension : Nat} (working : around.Working dimension) {events : List Event}
    (clean : ∀ event ∈ events, CutsClean env event) :
    (∀ event ∈ events, ∃ item ∈ offered env around events, item.1.1 = event) ∧
      ∀ item ∈ offered env around events, item.2.length = dimension := by
  obtain ⟨provider,given,answers⟩ := working.answers
  obtain ⟨paired,read⟩ := Option.isSome_iff_exists.mp ((embeddingTexts_isSome env events).mpr clean)
  have size : 0 < (if provider.batchSize = 0 then 64 else provider.batchSize) := by split <;> omega
  constructor
  · intro event member
    rw [← embeddingTexts_events env read] at member
    obtain ⟨pair,listed,rfl⟩ := List.mem_map.mp member
    obtain ⟨chunk,inside,placed⟩ := chunks_cover size listed
    obtain ⟨n,numbered⟩ := List.getElem?_of_mem inside
    obtain ⟨vectors,answered,count,_⟩ := answers n (chunk.map Prod.snd)
    rw [List.length_map] at count
    obtain ⟨vector,zipped⟩ := exists_zip count placed
    exact ⟨(pair,vector),(mem_offered_iff env given read _).mpr
      ⟨(chunk,n),List.mk_mem_zipIdx_iff_getElem?.mpr numbered,vectors,answered,zipped⟩,rfl⟩
  · intro item member
    obtain ⟨batch,_,vectors,answered,inside⟩ := (mem_offered_iff env given read item).mp member
    obtain ⟨others,again,_,widths⟩ := answers batch.2 (batch.1.map Prod.snd)
    cases answered.symm.trans again
    exact widths item.2 (List.of_mem_zip inside).2

theorem offered_clean {around : Surroundings} {events : List Event} {item : (Event × String) × List Rat}
    (inside : item ∈ offered env around events) : ∀ event ∈ events, CutsClean env event := by
  rw [← embeddingTexts_isSome]
  unfold offered at inside
  split at inside
  · cases inside
  · split at inside
    · cases inside
    · rename_i paired read
      rw [read]
      rfl

theorem indexVectors_noted {library : VectorStore → SemanticEntry → LibraryAnswer} (items : List ((Event × String) × List Rat))
    (done : VectorStore × List Uuid) {id : Uuid} (noted : id ∈ (items.foldl (indexVector env library) done).2) :
    id ∈ done.2 ∨ ∃ item ∈ items, item.1.1.id = id := by
  induction items generalizing done with
  | nil => exact Or.inl noted
  | cons item items ih =>
    rcases ih _ noted with before | ⟨other,listed,same⟩
    · rcases indexVector_cases env library done item with same | ⟨_,_,_,made⟩ | ⟨_,_,_,made⟩
      · exact Or.inl (same ▸ before)
      · rw [made] at before
        exact Or.inl before
      · rw [made] at before
        rcases List.mem_append.mp before with earlier | last
        · exact Or.inl earlier
        · exact Or.inr ⟨item,List.mem_cons_self,(List.mem_singleton.mp last).symm⟩
    · exact Or.inr ⟨other,List.mem_cons_of_mem item listed,same⟩

namespace EventStores

def pending (s : EventStores) : List EventRow := s.episodic.rows.filter (fun row => !row.embedded)

def reindexing (around : Surroundings) (limit : Nat) (s : EventStores) : Nat → EventStores
  | 0 => s
  | n + 1 => reindexing around limit (reindexUnembedded env s around limit).2 n

theorem reindexUnembedded_clean {s : EventStores} {around : Surroundings} (working : around.Working s.index.dimension)
    (limit : Nat) (clean : ∀ event ∈ s.episodic.unembeddedEvents limit, CutsClean env event) :
    ∃ noted, (reindexUnembedded env s around limit).2.episodic = s.episodic.markEmbedded noted ∧
      (∀ event ∈ s.episodic.unembeddedEvents limit, event.id ∈ noted) ∧
      (reindexUnembedded env s around limit).2.index.dimension = s.index.dimension := by
  obtain ⟨all,fit⟩ := offered_all env working clean
  obtain ⟨noted,width⟩ := indexVectors_taken env working _ fit (s.index,[]) rfl
  rw [reindexUnembedded_indexed,indexed]
  refine ⟨_,if_pos working.marks,?_,width⟩
  intro event member
  obtain ⟨item,inside,rfl⟩ := all event member
  rw [noted,List.nil_append]
  exact List.mem_map_of_mem inside

theorem reindexUnembedded_stuck {s : EventStores} (around : Surroundings) (limit : Nat) {row : EventRow}
    (waits : row ∈ s.pending) (unclean : ¬CutsClean env row.parseEvent) :
    row ∈ (reindexUnembedded env s around limit).2.pending := by
  obtain ⟨stored,open_⟩ := List.mem_filter.mp waits
  have unnoted : row.id ∉ ((offered env around (s.episodic.unembeddedEvents limit)).foldl (indexVector env around.library)
      (s.index,[])).2 := by
    intro noted
    rcases indexVectors_noted env _ _ noted with none | ⟨item,inside,same⟩
    · cases none
    · have member := mem_offered env inside
      obtain ⟨other,waiting,parsed⟩ := EpisodicTable.mem_unembeddedEvents member
      have own : other = row := by
        refine s.episodic.eq_of_key (List.mem_filter.mp waiting).1 stored ?_
        rw [← same,← parsed]
        rfl
      rw [← parsed,own] at member
      exact unclean (offered_clean env inside _ member)
  rw [reindexUnembedded_indexed,indexed]
  refine List.mem_filter.mpr ⟨?_,open_⟩
  split
  · exact EpisodicTable.mem_markEmbedded.mpr ⟨row,stored,if_neg unnoted⟩
  · exact stored

theorem pending_markEmbedded (s : EventStores) (after : EventStores) {noted : List Uuid}
    (marked : after.episodic = s.episodic.markEmbedded noted) : after.pending = s.pending.filter (fun row => row.id ∉ noted) := by
  have chosen : s.episodic.rows.filter ((fun row => !row.embedded) ∘ fun row => if row.id ∈ noted then { row with embedded := true } else row) =
      s.pending.filter (fun row => row.id ∉ noted) := by
    rw [pending,List.filter_filter]
    refine List.filter_congr (fun row _ => ?_)
    by_cases named : row.id ∈ noted <;> simp [named]
  have rows : after.pending = (s.pending.filter (fun row => row.id ∉ noted)).map
      (fun row => if row.id ∈ noted then { row with embedded := true } else row) := by
    rw [pending,marked,EpisodicTable.markEmbedded,Table.update,← chosen]
    simp only [decide_eq_true_eq,List.filter_map]
  rw [rows]
  refine (List.map_congr_left (fun row member => ?_)).trans (List.map_id _)
  exact if_neg (of_decide_eq_true (List.mem_filter.mp member).2)

theorem unembeddedEvents_first {s : EventStores} {limit : Nat} (positive : 0 < limit) (small : limit < 2 ^ 63)
    (waiting : s.pending ≠ []) :
    ∃ row ∈ s.pending, row.parseEvent ∈ s.episodic.unembeddedEvents limit := by
  have sorted : 0 < (s.pending.insertionSort (fun a b => a.ts ≤ b.ts)).length := by
    rw [List.length_insertionSort]
    exact List.length_pos_of_ne_nil waiting
  obtain ⟨first,rest,shape⟩ := List.exists_cons_of_length_pos sorted
  refine ⟨first,(List.mem_insertionSort _).mp (shape ▸ List.mem_cons_self),?_⟩
  rw [EpisodicTable.unembeddedEvents,if_neg (Nat.not_le.mpr small)]
  refine List.mem_map_of_mem ?_
  obtain ⟨n,rfl⟩ := Nat.exists_eq_succ_of_ne_zero positive.ne'
  have same : s.episodic.rows.filter (fun row => !row.embedded) = s.pending := rfl
  rw [same,shape,List.take_succ_cons]
  exact List.mem_cons_self

theorem reindexing_done {around : Surroundings} {limit : Nat} (positive : 0 < limit) (small : limit < 2 ^ 63) (n : Nat)
    (s : EventStores) (working : around.Working s.index.dimension) (clean : ∀ row ∈ s.pending, CutsClean env row.parseEvent)
    (few : s.pending.length ≤ n) : (reindexing env around limit s n).pending = [] := by
  induction n generalizing s with
  | zero => exact List.length_eq_zero_iff.mp (Nat.le_zero.mp few)
  | succ n ih =>
    have batch : ∀ event ∈ s.episodic.unembeddedEvents limit, CutsClean env event := by
      intro event member
      obtain ⟨row,waits,rfl⟩ := EpisodicTable.mem_unembeddedEvents member
      exact clean row waits
    obtain ⟨noted,marked,all,width⟩ := reindexUnembedded_clean env working limit batch
    have left := pending_markEmbedded s _ marked
    refine ih _ (width ▸ working) (fun row waits => clean row ?_) ?_
    · rw [left] at waits
      exact (List.mem_filter.mp waits).1
    · rw [left]
      by_cases waiting : s.pending = []
      · rw [waiting]
        exact Nat.zero_le n
      · obtain ⟨row,waits,first⟩ := unembeddedEvents_first positive small waiting
        have named : row.id ∈ noted := all _ first
        have fewer : (s.pending.filter (fun row => row.id ∉ noted)).length < s.pending.length :=
          List.length_filter_lt_length_iff_exists.mpr ⟨row,waits,by simpa using named⟩
        omega

theorem reindexing_stuck (around : Surroundings) (limit n : Nat) {s : EventStores} {row : EventRow} (waits : row ∈ s.pending)
    (unclean : ¬CutsClean env row.parseEvent) : row ∈ (reindexing env around limit s n).pending := by
  induction n generalizing s with
  | zero => exact waits
  | succ n ih => exact ih (reindexUnembedded_stuck env around limit waits unclean)

theorem embedAndIndex_answer (s : EventStores) (around : Surroundings) (events : List Event) :
    (∃ n, (embedAndIndex env s around events).1 = .ok n) ↔ (around.provider.isSome → ∀ event ∈ events, CutsClean env event) := by
  rw [← embeddingTexts_isSome,embedAndIndex]
  cases around.provider with
  | none => exact iff_of_true ⟨0,rfl⟩ (fun given => absurd given Bool.false_ne_true)
  | some provider =>
    rw [imp_iff_right (Option.isSome_some : (some provider).isSome = true)]
    dsimp only
    cases embeddingTexts env events with
    | none =>
      refine iff_of_false ?_ Bool.false_ne_true
      rintro ⟨n,ok⟩
      cases ok
    | some paired => exact iff_of_true ⟨_,rfl⟩ rfl

/-- Whether the texts can be cut decides whether an ingestion returns. Its events are committed in either case. -/
theorem ingest_answer (s : EventStores) (around : Surroundings) {events : List Event} {count : Nat} {episodic : EpisodicTable}
    (appended : s.episodic.append events = .ok (count,episodic)) :
    ((ingest env s around events).1 = .ok count ↔ (around.provider.isSome → ∀ event ∈ events, CutsClean env event)) ∧
      (ingest env s around events).2.episodic.keys = episodic.keys := by
  constructor
  · rw [ingest]
    split
    · rename_i empty
      rw [List.isEmpty_iff.mp empty] at appended ⊢
      rw [EpisodicTable.append] at appended
      cases appended
      exact iff_of_true rfl (fun _ _ member => absurd member List.not_mem_nil)
    · rw [appended,← embedAndIndex_answer env { s with episodic := episodic } around events]
      dsimp only
      split
      · rename_i failure after made
        rw [made]
        refine iff_of_false (fun ok => by cases ok) ?_
        rintro ⟨n,ok⟩
        cases ok
      · rename_i n after made
        rw [made]
        exact iff_of_true rfl ⟨n,rfl⟩
  · rw [ingest_indexed,appended]
    exact keys_indexed env _ around _

end EventStores

/-- An event survives its embedding: the text is a start of what was joined, in 2048 bytes. An ingestion returns, and
reindexing comes to an end. Each of them if and only if the texts that are met can be cut. -/
theorem embedding_survives_iff :
    (∀ event, (∃ text, extractEmbeddingText env event = some text ∧ text.toList <+: (joinedText env event).toList ∧
      text.utf8ByteSize ≤ 2048) ↔ CutsClean env event) ∧
    (∀ (s : EventStores) (around : Surroundings) events count episodic, s.episodic.append events = .ok (count,episodic) →
      ((EventStores.ingest env s around events).1 = .ok count ↔
        (around.provider.isSome → ∀ event ∈ events, CutsClean env event)) ∧
        (EventStores.ingest env s around events).2.episodic.keys = episodic.keys) ∧
    (∀ (s : EventStores) (around : Surroundings) limit, around.Working s.index.dimension → 0 < limit → limit < 2 ^ 63 →
      ((∃ n, (EventStores.reindexing env around limit s n).pending = []) ↔
        ∀ row ∈ s.pending, CutsClean env row.parseEvent)) := by
  refine ⟨?_,?_,?_⟩
  · intro event
    rw [← extractEmbeddingText_isSome,Option.isSome_iff_exists]
    refine exists_congr (fun text => ?_)
    exact and_iff_left_of_imp (extractEmbeddingText_start env)
  · intro s around events count episodic appended
    exact EventStores.ingest_answer env s around appended
  · intro s around limit working positive small
    constructor
    · rintro ⟨n,done⟩ row waits
      by_contra unclean
      have stuck := EventStores.reindexing_stuck env around limit n waits unclean
      rw [done] at stuck
      cases stuck
    · intro clean
      exact ⟨s.pending.length,EventStores.reindexing_done env positive small _ s working clean (Nat.le_refl _)⟩

end

/-- A provider and a library that take everything. -/
def Surroundings.willing : Surroundings where
  provider := some ⟨64,fun _ texts => some (texts.map (fun _ => [1]))⟩
  library := fun _ _ => .willing
  marks := true

theorem willing_working : Surroundings.willing.Working 1 where
  answers := by
    refine ⟨_,rfl,fun n texts => ⟨texts.map (fun _ => [1]),rfl,List.length_map _,?_⟩⟩
    intro vector member
    obtain ⟨text,_,rfl⟩ := List.mem_map.mp member
    rfl
  takes _ _ := rfl
  marks := rfl

def EventStores.waiting (event : Event) : EventStores :=
  { EventStores.fresh 1 with episodic := EpisodicTable.insertOrIgnore .empty event.toRow }

theorem embedding_survives_short : Surroundings.willing.Working (EventStores.waiting (deliveredEvent 1 "k")).index.dimension ∧
    ∃ n, (EventStores.reindexing Env.ascii .willing 10 (.waiting (deliveredEvent 1 "k")) n).pending = [] := by
  refine ⟨willing_working,((embedding_survives_iff Env.ascii).2.2 _ _ 10 willing_working (by decide) (by decide)).mpr ?_⟩
  intro row waits
  have only : row = (deliveredEvent 1 "k").toRow := List.mem_singleton.mp waits
  subst only
  exact fun long => absurd long (by decide)

/-- An event whose type ends in a character of two bytes, after `n` letters. -/
def accentedType (n : Nat) : String := String.ofList (List.replicate n 'a' ++ ['é'])

def accentedEvent (n : Nat) : Event := ⟨1,"s",accentedType n,.obj [],0,none,none,[],none⟩

/-- The last character stands across byte 2048. -/
def splitEvent : Event := accentedEvent 2047

theorem utf8ByteSize_replicate (n : Nat) : (String.ofList (List.replicate n 'a')).utf8ByteSize = n := by
  induction n with
  | zero => rfl
  | succ n ih =>
    rw [List.replicate_succ,utf8ByteSize_cons,ih,Nat.add_comm]
    rfl

theorem replaceChar_plain {c : Char} {into text : List Char} (plain : c ∉ text) : replaceChar c into text = text := by
  have same : ∀ d ∈ text, (if d = c then into else [d]) = [d] := fun d member => if_neg (ne_of_mem_of_not_mem member plain)
  rw [replaceChar,List.flatMap_congr same]
  exact List.flatMap_singleton' _

theorem joinedText_typed {type : String} (plain : '.' ∉ type.toList) :
    joinedText Env.ascii ⟨1,"s",type,.obj [],0,none,none,[],none⟩ = type := by
  have parts : embeddingParts Env.ascii ⟨1,"s",type,.obj [],0,none,none,[],none⟩ =
      [String.ofList (replaceChar '.' [' '] type.toList)] := rfl
  rw [joinedText,parts,replaceChar_plain plain,String.ofList_toList]
  exact String.intercalate_singleton ..

theorem accentedType_plain (n : Nat) : '.' ∉ (accentedType n).toList := by
  rw [accentedType,String.toList_ofList,List.mem_append,List.mem_replicate,List.mem_singleton]
  rintro (⟨_,letter⟩ | last)
  · exact absurd letter (by decide)
  · exact absurd last (by decide)

theorem accentedType_size (n : Nat) : (String.ofList (List.replicate n 'a' ++ ['é'])).utf8ByteSize = n + 2 := by
  have last : (String.ofList ['é']).utf8ByteSize = 2 := rfl
  rw [String.ofList_append,String.utf8ByteSize_append,utf8ByteSize_replicate,last]

theorem accented_boundary (n : Nat) : ¬IsCharBoundary (accentedType n).toList (n + 1) := by
  rw [accentedType,String.toList_ofList]
  rintro ⟨start,begins,same⟩
  rcases List.prefix_concat_iff.mp begins with whole | inside
  · rw [whole,accentedType_size] at same
    omega
  · obtain ⟨count,letters⟩ := List.prefix_replicate_iff.mp inside
    rw [letters,utf8ByteSize_replicate] at same
    omega

theorem split_unclean : ¬CutsClean Env.ascii splitEvent := by
  intro clean
  have joined : joinedText Env.ascii splitEvent = accentedType 2047 := joinedText_typed (accentedType_plain 2047)
  rw [CutsClean,joined] at clean
  refine accented_boundary 2047 (clean ?_)
  rw [accentedType,accentedType_size]
  omega

/-- Extraction panics, the ingestion of the event does with the event committed, and no reindexing ever marks it. -/
theorem embedding_panics : extractEmbeddingText Env.ascii splitEvent = none ∧
    (∃ count episodic, (EventStores.fresh 1).episodic.append [splitEvent] = .ok (count,episodic) ∧
      (EventStores.ingest Env.ascii (.fresh 1) .willing [splitEvent]).1 ≠ .ok count ∧
      (1 : Uuid) ∈ (EventStores.ingest Env.ascii (.fresh 1) .willing [splitEvent]).2.episodic.keys) ∧
    ∀ limit n, (EventStores.reindexing Env.ascii .willing limit (.waiting splitEvent) n).pending ≠ [] := by
  refine ⟨?_,?_,?_⟩
  · rw [← Option.not_isSome_iff_eq_none,extractEmbeddingText_isSome]
    exact split_unclean
  · have able : (EventStores.fresh 1).episodic.Appendable [splitEvent] := by
      simp [EpisodicTable.Appendable,EventStores.fresh,Table.empty,Table.keys]
    obtain ⟨count,appended⟩ := (EpisodicTable.append_spec _ _).1 able
    obtain ⟨answer,kept⟩ := EventStores.ingest_answer Env.ascii (.fresh 1) .willing appended
    refine ⟨count,_,appended,fun ok => split_unclean (answer.mp ok rfl splitEvent (List.mem_singleton_self _)),?_⟩
    rw [kept]
    exact (Table.mem_keys _ _).mpr ⟨splitEvent.toRow,List.mem_singleton_self _,rfl⟩
  · intro limit n none
    have stuck := @EventStores.reindexing_stuck Env.ascii .willing limit n (.waiting splitEvent) splitEvent.toRow
      (List.mem_singleton_self _) split_unclean
    rw [none] at stuck
    cases stuck

end Ecphoria
