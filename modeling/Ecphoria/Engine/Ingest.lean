import Ecphoria.Engine.State
import Ecphoria.Library.Like

/-! The ingestion pipeline: events go to the episodic log in one statement, and then,
as far as the embedding provider answers, their vectors to the semantic store. -/
namespace Ecphoria
open Library

/-- How a call that does not answer ends: with an error, or by a panic. -/
inductive Failure where
  | error (err : Error)
  | panic
deriving DecidableEq,Repr

/-- The embedding provider during one call: the configured batch size, and the vectors it answers for a batch
of texts. -/
structure Embedder where
  batchSize : Nat
  embedDocuments : List String → Option (List (List Rat))

def Embedder.absent : Embedder := ⟨64,fun _ => none⟩

/-- `text[..n]`: the first `n` bytes, a panic when they end inside a character. -/
def utf8Prefix : Nat → List Char → Option (List Char)
  | _,[] => some []
  | 0,_ => some []
  | n + 1,c :: rest =>
    if c.utf8Size ≤ n + 1 then (utf8Prefix (n + 1 - c.utf8Size) rest).map (c :: ·) else none

/-- `slice::chunks`, with a turn for every element. -/
def chunksOf {α : Type} (size : Nat) : Nat → List α → List (List α)
  | 0,_ => []
  | turns + 1,items => if items.isEmpty then [] else items.take size :: chunksOf size turns (items.drop size)

def chunks {α : Type} (size : Nat) (items : List α) : List (List α) := chunksOf size items.length items

theorem mem_chunks {α : Type} {size : Nat} {items chunk : List α} {item : α} (inside : chunk ∈ chunks size items)
    (member : item ∈ chunk) : item ∈ items := by
  have within (turns : Nat) (items : List α) (inside : chunk ∈ chunksOf size turns items) : item ∈ items := by
    induction turns generalizing items with
    | zero => cases inside
    | succ turns ih =>
      rw [chunksOf] at inside
      split at inside
      next => cases inside
      next =>
        rcases List.mem_cons.mp inside with rfl | later
        · exact List.mem_of_mem_take member
        · exact List.mem_of_mem_drop (ih _ later)
  exact within _ _ inside

def isHexDigit (c : Char) : Bool := c.isDigit || ('a' ≤ c && c ≤ 'f') || ('A' ≤ c && c ≤ 'F')

section
variable (env : Env)

/-- The part of an embedding text that one field of the payload gives. -/
def embeddingPart (field : String × Json) : Option String :=
  if "_".toList.isPrefixOf field.1.toList then none
  else
    match field.2 with
    | .str s =>
      if 2 < s.utf8ByteSize && !s.toList.all (fun c => isHexDigit c || c = '-') then some (field.1 ++ ": " ++ s)
      else none
    | .obj _ | .arr _ => if (env.jsonText field.2).utf8ByteSize < 500 then some (env.jsonText field.2) else none
    | _ => none

def embeddingParts (event : Event) : List String :=
  let described := String.ofList (replaceChar '.' [' '] event.eventType.toList)
  let told := match event.payload with
    | .obj fields => fields.filterMap (embeddingPart env)
    | other => [env.jsonText other]
  described :: told ++ (if event.tags.isEmpty then [] else [String.intercalate " " event.tags])

/-- `extract_embedding_text`, or nothing when cutting the text panics. -/
def extractEmbeddingText (event : Event) : Option String :=
  let text := String.intercalate ". " (embeddingParts env event)
  if 2048 < text.utf8ByteSize then (utf8Prefix 2048 text.toList).map String.ofList else some text

def embeddingTexts : List Event → Option (List (Event × String))
  | [] => some []
  | event :: rest =>
    match extractEmbeddingText env event with
    | none => none
    | some text => (embeddingTexts rest).map ((event,text) :: ·)

theorem embeddingTexts_events {events : List Event} {paired : List (Event × String)}
    (read : embeddingTexts env events = some paired) : paired.map Prod.fst = events := by
  induction events generalizing paired with
  | nil =>
    cases read
    rfl
  | cons event rest ih =>
    rw [embeddingTexts] at read
    split at read
    next => cases read
    next text extracted =>
      obtain ⟨later,found,rfl⟩ := Option.map_eq_some_iff.mp read
      rw [List.map_cons,ih found]

def eventMetadata (event : Event) : Json :=
  .obj [("event_type",.str event.eventType),("source",.str event.source),
    ("tags",.arr (event.tags.map .str)),
    ("tenant_id",.str (((event.payload.get "_tenant_id").bind Json.asStr).getD "default")),
    ("timestamp",.str (env.rfc3339 event.timestamp)),("trace_id",.ofOption event.traceId)]

def indexEvent (store : SemanticStore × List Uuid) (item : (Event × String) × List Rat) :
    SemanticStore × List Uuid :=
  match store.1.upsert ⟨item.1.1.id,item.1.2,item.2,eventMetadata env item.1.1⟩ with
  | .error _ => store
  | .ok written => (written,store.2 ++ [item.1.1.id])

/-- One batch: its vectors are upserted, and the events whose vector landed are noted. -/
def indexBatch (embedder : Embedder) (store : SemanticStore × List Uuid) (batch : List (Event × String)) :
    SemanticStore × List Uuid :=
  match embedder.embedDocuments (batch.map Prod.snd) with
  | none => store
  | some embeddings => (batch.zip embeddings).foldl (indexEvent env) store

def EpisodicTable.markEmbedded (t : EpisodicTable) (ids : List Uuid) : EpisodicTable :=
  t.update (fun row => row.id ∈ ids) (fun row => { row with embedded := true }) (fun _ => rfl)

theorem EpisodicTable.markEmbedded_nil (t : EpisodicTable) : t.markEmbedded [] = t :=
  t.update_of_none _ _ _ (by simp)

def embedAndIndex (e : Engine) (embedder : Embedder) (events : List Event) : Except Failure Nat × Engine :=
  if !e.config.embedding then (.ok 0,e)
  else
    match embeddingTexts env events with
    | none => (.error .panic,e)
    | some paired =>
      let size := if embedder.batchSize = 0 then 64 else embedder.batchSize
      let (semantic,succeeded) := (chunks size paired).foldl (indexBatch env embedder) (e.semantic,[])
      (.ok succeeded.length,{ e with semantic := semantic, episodic := e.episodic.markEmbedded succeeded })

def ingest (e : Engine) (embedder : Embedder) (events : List Event) : Except Failure Nat × Engine :=
  if events.isEmpty then (.ok 0,e)
  else
    match e.episodic.append events with
    | .error err => (.error (.error err),e)
    | .ok (count,episodic) =>
      match embedAndIndex env { e with episodic := episodic } embedder events with
      | (.error failure,e) => (.error failure,e)
      | (.ok _,e) => (.ok count,e)

/-- The events of a call whose vectors land: the provider answers for their batch, with vectors of the
width of the store. -/
def landed (config : CoreConfig) (dimension : Nat) (embedder : Embedder) (events : List Event) : List Uuid :=
  if !config.embedding then []
  else
    match embeddingTexts env events with
    | none => []
    | some paired =>
      let size := if embedder.batchSize = 0 then 64 else embedder.batchSize
      (chunks size paired).flatMap (fun batch =>
        match embedder.embedDocuments (batch.map Prod.snd) with
        | none => []
        | some embeddings => ((batch.zip embeddings).filter (fun item => item.2.length = dimension)).map
            (fun item => item.1.1.id))

private theorem indexEvents_landed (items : List ((Event × String) × List Rat)) (store : SemanticStore × List Uuid) :
    (items.foldl (indexEvent env) store).2 =
        store.2 ++ (items.filter (fun item => item.2.length = store.1.dimension)).map (fun item => item.1.1.id) ∧
      (items.foldl (indexEvent env) store).1.dimension = store.1.dimension := by
  induction items generalizing store with
  | nil => simp
  | cons item items ih =>
    rw [List.foldl_cons,indexEvent,SemanticStore.upsert]
    by_cases fits : item.2.length = store.1.dimension
    · have rest := ih (⟨store.1.dimension,store.1.entries.upsert
        ⟨item.1.1.id,item.1.2,item.2,eventMetadata env item.1.1⟩⟩,store.2 ++ [item.1.1.id])
      simpa [fits] using rest
    · simpa [fits] using ih store

private theorem indexBatches_landed (embedder : Embedder) (batches : List (List (Event × String)))
    (store : SemanticStore × List Uuid) :
    (batches.foldl (indexBatch env embedder) store).2 = store.2 ++ batches.flatMap (fun batch =>
        match embedder.embedDocuments (batch.map Prod.snd) with
        | none => []
        | some embeddings => ((batch.zip embeddings).filter (fun item => item.2.length = store.1.dimension)).map
            (fun item => item.1.1.id)) := by
  induction batches generalizing store with
  | nil => simp
  | cons batch batches ih =>
    rw [List.foldl_cons,ih,List.flatMap_cons,indexBatch]
    cases embedder.embedDocuments (batch.map Prod.snd) with
    | none => simp
    | some embeddings =>
      obtain ⟨noted,width⟩ := indexEvents_landed env (batch.zip embeddings) store
      simp only [noted,width,List.append_assoc]

theorem mem_landed {config : CoreConfig} {dimension : Nat} {embedder : Embedder} {events : List Event} {id : Uuid}
    (inside : id ∈ landed env config dimension embedder events) : ∃ event ∈ events, event.id = id := by
  unfold landed at inside
  split at inside
  next => cases inside
  next =>
    split at inside
    next => cases inside
    next paired read =>
      obtain ⟨batch,listed,inside⟩ := List.mem_flatMap.mp inside
      split at inside
      next => cases inside
      next embeddings answered =>
        obtain ⟨item,kept,rfl⟩ := List.mem_map.mp inside
        have zipped := List.of_mem_zip (List.mem_filter.mp kept).1
        exact ⟨item.1.1,embeddingTexts_events env read ▸ List.mem_map_of_mem (mem_chunks listed zipped.1),rfl⟩

/-- What a call leaves in the episodic log: the batch, if it is taken, with the landed vectors marked. -/
theorem ingest_episodic (e : Engine) (embedder : Embedder) (events : List Event) :
    (ingest env e embedder events).2.episodic =
      match e.episodic.append events with
      | .error _ => e.episodic
      | .ok (_,episodic) => episodic.markEmbedded (landed env e.config e.semantic.dimension embedder events) := by
  unfold ingest
  split
  next empty =>
    cases List.isEmpty_iff.mp empty
    have none : landed env e.config e.semantic.dimension embedder [] = [] := by simp [landed,embeddingTexts,chunks,chunksOf]
    simp [EpisodicTable.append,none,EpisodicTable.markEmbedded_nil]
  next =>
    cases e.episodic.append events with
    | error err => rfl
    | ok written =>
      simp only [embedAndIndex,landed]
      by_cases provided : e.config.embedding = true
      · simp only [provided,Bool.not_true,Bool.false_eq_true,if_false]
        cases embeddingTexts env events with
        | none => exact (EpisodicTable.markEmbedded_nil _).symm
        | some paired =>
          have noted := indexBatches_landed env embedder
            (chunks (if embedder.batchSize = 0 then 64 else embedder.batchSize) paired) (e.semantic,[])
          rw [List.nil_append] at noted
          exact congrArg written.2.markEmbedded noted
      · simp only [provided,Bool.not_false,if_true]
        exact (EpisodicTable.markEmbedded_nil _).symm

theorem ingest_settings (e : Engine) (embedder : Embedder) (events : List Event) :
    (ingest env e embedder events).2.config = e.config ∧
      (ingest env e embedder events).2.semantic.dimension = e.semantic.dimension := by
  have batches (batches : List (List (Event × String))) (store : SemanticStore × List Uuid) :
      (batches.foldl (indexBatch env embedder) store).1.dimension = store.1.dimension := by
    induction batches generalizing store with
    | nil => rfl
    | cons batch batches ih =>
      rw [List.foldl_cons,ih,indexBatch]
      cases embedder.embedDocuments (batch.map Prod.snd) with
      | none => rfl
      | some embeddings => exact (indexEvents_landed env (batch.zip embeddings) store).2
  unfold ingest
  split
  next => exact ⟨rfl,rfl⟩
  next =>
    cases e.episodic.append events with
    | error err => exact ⟨rfl,rfl⟩
    | ok written =>
      simp only [embedAndIndex]
      by_cases provided : e.config.embedding = true
      · simp only [provided,Bool.not_true,Bool.false_eq_true,if_false]
        cases embeddingTexts env events with
        | none => exact ⟨rfl,rfl⟩
        | some paired => exact ⟨rfl,batches _ _⟩
      · simp only [provided,Bool.not_false,if_true]
        exact ⟨trivial,trivial⟩

theorem ingest_frame (e : Engine) (embedder : Embedder) (events : List Event) :
    ∃ episodic semantic,
      (ingest env e embedder events).2 = { e with episodic := episodic, semantic := semantic } := by
  unfold ingest
  split
  next => exact ⟨e.episodic,e.semantic,rfl⟩
  next =>
    cases e.episodic.append events with
    | error err => exact ⟨e.episodic,e.semantic,rfl⟩
    | ok written =>
      simp only [embedAndIndex]
      by_cases provided : e.config.embedding = true
      · simp only [provided,Bool.not_true,Bool.false_eq_true,if_false]
        cases embeddingTexts env events with
        | none => exact ⟨written.2,e.semantic,rfl⟩
        | some paired => exact ⟨_,_,rfl⟩
      · simp only [provided,Bool.not_false,if_true]
        exact ⟨written.2,e.semantic,rfl⟩

def ingestForTenant (e : Engine) (embedder : Embedder) (events : List Event) (tenant : String) :
    Except Failure Nat × Engine :=
  ingest env e embedder (tagEvents (some tenant) events)

end

end Ecphoria
