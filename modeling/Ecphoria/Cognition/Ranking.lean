import Ecphoria.Cognition.Types
import Mathlib.Algebra.GroupWithZero.Nat
import Mathlib.Data.List.Sort
import Mathlib.Data.List.Dedup

/-! Keyword ranking and rank fusion. Scores are machine floats, of which only the
operations are known here; every list they order is ordered by a stable sort. -/
namespace Ecphoria

/-- The operations of `f32` that the ranking uses. -/
structure Arith (F : Type) where
  ofNat : Nat → F
  ofRat : Rat → F
  add : F → F → F
  sub : F → F → F
  mul : F → F → F
  div : F → F → F
  max : F → F → F
  ln : F → F
  powf : F → F → F
  lt : F → F → Bool

def stopWords : List String :=
  ["a","an","and","are","as","at","be","been","being","but","by","did","do","does",
    "for","from","had","has","have","he","her","here","him","his","how","i","if","in",
    "into","is","it","its","me","my","of","on","or","our","she","so","than","that",
    "the","their","them","then","there","they","this","to","up","us","was","we","were",
    "what","when","where","which","who","why","will","with","would","you","your"]

def isStopWord (w : String) : Bool := stopWords.contains w

def stem (w : String) : String :=
  let letters := w.toList
  let n := letters.length
  let endsWith (ending : String) : Bool := ending.toList.isSuffixOf letters
  if !letters.all (fun c => c.toNat < 128) then w
  else if 4 < n && endsWith "ing" then String.ofList (letters.take (n - 3))
  else if 3 < n && endsWith "ies" then String.ofList (letters.take (n - 3)) ++ "y"
  else if 3 < n && endsWith "ed" then String.ofList (letters.take (n - 2))
  else if 3 < n && endsWith "s" && !endsWith "ss" && !endsWith "us" then String.ofList (letters.take (n - 1))
  else w

section
variable (env : Env) (isAlphanumeric : Char → Bool)

def tokenize (text : String) : List String :=
  let words := (text.toList.splitOnP (fun c => !isAlphanumeric c)).filter (fun word => !word.isEmpty)
  ((words.map (fun word => env.toLowercase (String.ofList word))).filter (fun word => !isStopWord word)).map stem

/-- `build_match_expr`: the expression handed to the text index, or nothing when no term is left. No term has a
quote in it to double. -/
def buildMatchExpr (query : String) : Option String :=
  let edge (c : Char) : Bool := c = '.' || c = '-' || c = '_'
  let words := (query.toList.splitOnP (fun c => !(isAlphanumeric c || edge c))).map
    (fun word => (((word.dropWhile edge).reverse).dropWhile edge).reverse)
  let terms := ((words.filter (fun word => !word.isEmpty)).map (fun word => env.toLowercase (String.ofList word))).filter
    (fun term => !isStopWord term)
  if terms.isEmpty then none
  else some (String.intercalate " OR " (terms.map (fun term => "\"" ++ term ++ "\"")))

variable {F : Type} (f32 : Arith F)

/-- A stable sort by descending score; scores that do not compare keep their order. -/
def sortByScore {α : Type} (score : α → F) (items : List α) : List α :=
  items.insertionSort (fun a b => f32.lt (score a) (score b) = false)

theorem sortByScore_perm {α : Type} (score : α → F) (items : List α) : (sortByScore f32 score items).Perm items :=
  List.perm_insertionSort _ _

def bm25Term (n avgdl nq dl freq : F) : F :=
  let one := f32.ofNat 1
  let half := f32.ofRat (1 / 2)
  let k1 := f32.ofRat (6 / 5)
  let b := f32.ofRat (3 / 4)
  let idf := f32.ln (f32.add (f32.div (f32.add (f32.sub n nq) half) (f32.add nq half)) one)
  let denom := f32.add freq (f32.mul k1 (f32.add (f32.sub one b) (f32.div (f32.mul b dl) avgdl)))
  f32.div (f32.mul idf (f32.mul freq (f32.add k1 one))) (f32.max denom (f32.ofRat (1 / 1000000)))

/-- Positions into the candidates with their positive BM25 scores, best first. -/
def lexicalRank (query : String) (candidates : List Memory) : List (Nat × F) :=
  let terms := (tokenize env isAlphanumeric query).dedup
  if terms.isEmpty || candidates.isEmpty then []
  else
    let docs := candidates.map (fun m => tokenize env isAlphanumeric m.content)
    let n := f32.ofNat docs.length
    let avgdl := f32.max (f32.div (f32.ofNat (docs.map List.length).sum) n) (f32.ofNat 1)
    let scoreOf (doc : List String) : F :=
      terms.foldl (fun score term =>
        let freq := doc.count term
        if freq = 0 then score
        else
          let nq := f32.ofNat (docs.filter (fun other => other.contains term)).length
          f32.add score (bm25Term f32 n avgdl nq (f32.ofNat doc.length) (f32.ofNat freq))) (f32.ofNat 0)
    let scored := (docs.zipIdx.map (fun (doc,i) => (i,scoreOf doc))).filter (fun (_,score) => f32.lt (f32.ofNat 0) score)
    sortByScore f32 Prod.snd scored

def addScore (scores : List (Uuid × F)) (id : Uuid) (x : F) : List (Uuid × F) :=
  if scores.any (fun entry => entry.1 = id) then
    scores.map (fun entry => if entry.1 = id then (id,f32.add entry.2 x) else entry)
  else scores ++ [(id,f32.add (f32.ofNat 0) x)]

def rrfScores (rankings : List (List Uuid × F)) (kRrf : F) : List (Uuid × F) :=
  rankings.foldl (fun scores (ranking,weight) =>
    ranking.zipIdx.foldl (fun scores (id,rank) =>
      addScore f32 scores id (f32.div weight (f32.add kRrf (f32.add (f32.ofNat rank) (f32.ofNat 1))))) scores) []

/-- `hashOrder` is the order in which the map of scores is read. -/
def rrfFuseWeighted (hashOrder : List (Uuid × F) → List (Uuid × F)) (rankings : List (List Uuid × F)) (kRrf : F)
    (topK : Nat) : List (Uuid × F) :=
  (sortByScore f32 Prod.snd (hashOrder (rrfScores f32 rankings kRrf))).take topK

private theorem ids_addScore (scores : List (Uuid × F)) (id : Uuid) (x : F) : (addScore f32 scores id x).map Prod.fst =
    if id ∈ scores.map Prod.fst then scores.map Prod.fst else scores.map Prod.fst ++ [id] := by
  have known : scores.any (fun entry => entry.1 = id) = true ↔ id ∈ scores.map Prod.fst := by simp
  unfold addScore
  split
  next present =>
    rw [if_pos (known.mp present),List.map_map]
    apply List.map_congr_left
    intro entry _
    by_cases hit : entry.1 = id <;> simp [hit]
  next absent =>
    rw [if_neg (fun inside => absent (known.mpr inside))]
    simp

private theorem mem_addScore (scores : List (Uuid × F)) (id other : Uuid) (x : F) :
    other ∈ (addScore f32 scores id x).map Prod.fst ↔ other ∈ scores.map Prod.fst ∨ other = id := by
  rw [ids_addScore]
  split
  next known =>
    refine (or_iff_left_of_imp ?_).symm
    rintro rfl
    exact known
  next => simp

theorem nodup_rrfScores (rankings : List (List Uuid × F)) (kRrf : F) :
    ((rrfScores f32 rankings kRrf).map Prod.fst).Nodup := by
  have one (ranking : List (Uuid × Nat)) (weight : F) (scores : List (Uuid × F)) (distinct : (scores.map Prod.fst).Nodup) :
      ((ranking.foldl (fun scores (id,rank) =>
        addScore f32 scores id (f32.div weight (f32.add kRrf (f32.add (f32.ofNat rank) (f32.ofNat 1))))) scores).map
          Prod.fst).Nodup := by
    induction ranking generalizing scores with
    | nil => exact distinct
    | cons item ranking ih =>
      apply ih
      rw [ids_addScore]
      split
      next => exact distinct
      next fresh => exact distinct.append (List.nodup_singleton _) (List.disjoint_singleton.mpr fresh)
  have all (rankings : List (List Uuid × F)) (scores : List (Uuid × F)) (distinct : (scores.map Prod.fst).Nodup) :
      ((rankings.foldl (fun scores (ranking,weight) =>
        ranking.zipIdx.foldl (fun scores (id,rank) =>
          addScore f32 scores id (f32.div weight (f32.add kRrf (f32.add (f32.ofNat rank) (f32.ofNat 1))))) scores)
          scores).map Prod.fst).Nodup := by
    induction rankings generalizing scores with
    | nil => exact distinct
    | cons ranking rankings ih => exact ih _ (one _ _ _ distinct)
  exact all rankings [] List.nodup_nil

theorem mem_rrfScores (rankings : List (List Uuid × F)) (kRrf : F) (id : Uuid) :
    id ∈ (rrfScores f32 rankings kRrf).map Prod.fst ↔ ∃ ranking ∈ rankings, id ∈ ranking.1 := by
  have one (ranking : List (Uuid × Nat)) (weight : F) (scores : List (Uuid × F)) :
      id ∈ (ranking.foldl (fun scores (id,rank) =>
        addScore f32 scores id (f32.div weight (f32.add kRrf (f32.add (f32.ofNat rank) (f32.ofNat 1))))) scores).map Prod.fst ↔
      id ∈ scores.map Prod.fst ∨ id ∈ ranking.map Prod.fst := by
    induction ranking generalizing scores with
    | nil => simp
    | cons item ranking ih =>
      rw [List.foldl_cons,ih,mem_addScore,List.map_cons,List.mem_cons,or_assoc]
  have all (rankings : List (List Uuid × F)) (scores : List (Uuid × F)) :
      id ∈ (rankings.foldl (fun scores (ranking,weight) =>
        ranking.zipIdx.foldl (fun scores (id,rank) =>
          addScore f32 scores id (f32.div weight (f32.add kRrf (f32.add (f32.ofNat rank) (f32.ofNat 1))))) scores)
          scores).map Prod.fst ↔ id ∈ scores.map Prod.fst ∨ ∃ ranking ∈ rankings, id ∈ ranking.1 := by
    induction rankings generalizing scores with
    | nil => simp
    | cons ranking rankings ih =>
      rw [List.foldl_cons,ih,one,List.zipIdx_map_fst]
      simp [or_assoc]
  simpa [rrfScores] using all rankings []

end

end Ecphoria
