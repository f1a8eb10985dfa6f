import Ecphoria.Gateway.PackPaths
import Ecphoria.Gateway.Writes
import Ecphoria.Engine.Search
import Ecphoria.Library.Fitting

/-! The context pack: what a search finds, as far as the kinds and the paths of a task allow it and its budget of tokens lasts. -/
namespace Ecphoria
open Library

structure ContextPackRequest where
  query : String
  paths : List String
  kinds : List String
  budgetTokens : Nat
  k : Nat
  project : Option String
  fields : ScopeFields

structure PackItem (F : Type) where
  id : Uuid
  kind : String
  subject : String
  content : String
  score : F
  validFrom : Int
  validTo : Option Int
  provenance : Json

structure ContextPack (F : Type) where
  query : String
  memories : List (PackItem F)
  incidents : List (PackItem F)
  tokensEstimated : Nat
  budgetTokens : Nat
  truncated : Bool
  candidates : Nat

/-- `div_ceil` by four -/
def estimateTokens (text : String) : Nat := (text.toList.length + 3) / 4

def kindOf (m : Memory) : Option String := (m.metadata.get "kind").bind Json.asStr

def kindAllowed (m : Memory) (kinds : List String) : Bool := kinds.isEmpty || (kindOf m).any (fun kind => kinds.contains kind)

def packItem {F : Type} (hit : MemoryHit F) : PackItem F where
  id := hit.memory.id
  kind := (kindOf hit.memory).getD hit.memory.memType
  subject := hit.memory.subject.getD ""
  content := hit.memory.content
  score := hit.score
  validFrom := hit.memory.validFrom
  validTo := hit.memory.validTo
  provenance := (hit.memory.metadata.get "provenance").getD (.obj [])

def isIncident {F : Type} (hit : MemoryHit F) : Bool := kindOf hit.memory = some "incident"

structure Packing (F : Type) where
  memories : List (PackItem F)
  incidents : List (PackItem F)
  spent : Nat
  truncated : Bool

def Packing.add {F : Type} (p : Packing F) (hit : MemoryHit F) : Packing F :=
  let spent := p.spent + estimateTokens hit.memory.content
  if isIncident hit then { p with incidents := p.incidents ++ [packItem hit],spent := spent }
  else { p with memories := p.memories ++ [packItem hit],spent := spent }

def ContextPackRequest.eligible {F : Type} (req : ContextPackRequest) (hit : MemoryHit F) : Bool :=
  kindAllowed hit.memory req.kinds && pathsAllow hit.memory req.paths

def packHits {F : Type} (req : ContextPackRequest) : Packing F → List (MemoryHit F) → Packing F
  | p,[] => p
  | p,hit :: hits =>
    if !req.eligible hit then packHits req p hits
    else if req.budgetTokens < p.spent + estimateTokens hit.memory.content then { p with truncated := true }
    else packHits req (p.add hit) hits

def ContextPackRequest.pack {F : Type} (req : ContextPackRequest) (hits : List (MemoryHit F)) : ContextPack F :=
  let packed := packHits req ⟨[],[],0,false⟩ hits
  ⟨req.query,packed.memories,packed.incidents,packed.spent,req.budgetTokens,packed.truncated,hits.length⟩

section
variable (env : Env) {F : Type} (r : Retriever F) (e : Engine) (config : RetrievalConfig) (answers : Answers)

def ContextPackRequest.hits (caller : Caller) (req : ContextPackRequest) : List (MemoryHit F) :=
  memorySearchInProject env r e config answers req.query (scopeWithHeader caller req.fields) (max 1 (min req.k 200)) req.project

/-- `context_pack`; a blank query is a bad request. -/
def contextPack (caller : Caller) (req : ContextPackRequest) : Option (ContextPack F) :=
  if (trim req.query).isEmpty then none else some (req.pack (req.hits env r e config answers caller))

end

abbrev tokensOf {F : Type} (hit : MemoryHit F) : Nat := estimateTokens hit.memory.content

def packed {F : Type} (req : ContextPackRequest) (hits : List (MemoryHit F)) : List (MemoryHit F) :=
  fitting tokensOf req.budgetTokens 0 (hits.filter req.eligible)

structure Packs {F : Type} (start done : Packing F) (kept : List (MemoryHit F)) (cut : Bool) : Prop where
  memories : done.memories = start.memories ++ (kept.filter (fun hit => !isIncident hit)).map packItem
  incidents : done.incidents = start.incidents ++ (kept.filter isIncident).map packItem
  spent : done.spent = start.spent + spending tokensOf kept
  truncated : done.truncated = cut

section
variable {F : Type} {req : ContextPackRequest} {p done : Packing F} {hit : MemoryHit F} {kept : List (MemoryHit F)} {cut : Bool}

theorem Packing.add_spent : (p.add hit).spent = p.spent + tokensOf hit := by
  unfold Packing.add
  split
  next => rfl
  next => rfl

theorem Packs.cons (packs : Packs (p.add hit) done kept cut) : Packs p done (hit :: kept) cut := by
  have spent : done.spent = p.spent + spending tokensOf (hit :: kept) := by
    rw [packs.spent,Packing.add_spent,spending_cons,Nat.add_assoc]
  have memories := packs.memories
  have incidents := packs.incidents
  unfold Packing.add at memories incidents
  cases kind : isIncident hit with
  | true =>
    rw [if_pos kind] at memories incidents
    refine ⟨?_,?_,spent,packs.truncated⟩
    · rw [memories,List.filter_cons_of_neg (by simp [kind])]
    · rw [incidents,List.filter_cons_of_pos kind,List.map_cons,List.append_assoc]
      rfl
  | false =>
    rw [if_neg (by simp [kind])] at memories incidents
    refine ⟨?_,?_,spent,packs.truncated⟩
    · rw [memories,List.filter_cons_of_pos (by simp [kind]),List.map_cons,List.append_assoc]
      rfl
    · rw [incidents,List.filter_cons_of_neg (by simp [kind])]

theorem packHits_packs (req : ContextPackRequest) (p : Packing F) (hits : List (MemoryHit F)) (whole : p.truncated = false) :
    Packs p (packHits req p hits) (fitting tokensOf req.budgetTokens p.spent (hits.filter req.eligible))
      (decide ((fitting tokensOf req.budgetTokens p.spent (hits.filter req.eligible)).length < (hits.filter req.eligible).length)) := by
  induction hits generalizing p with
  | nil => exact ⟨by simp [packHits,fitting],by simp [packHits,fitting],by simp [packHits,fitting],whole⟩
  | cons hit hits ih =>
    rw [packHits]
    cases allowed : req.eligible hit with
    | false =>
      rw [List.filter_cons_of_neg (by simp [allowed])]
      exact ih p whole
    | true =>
      rw [List.filter_cons_of_pos allowed,fitting]
      simp only [Bool.not_true,Bool.false_eq_true,if_false]
      split
      next => exact ⟨by simp,by simp,by simp,by simp⟩
      next fits =>
        have rest : (p.add hit).truncated = false := by
          unfold Packing.add
          split
          next => exact whole
          next => exact whole
        have packs := ih (p.add hit) rest
        rw [Packing.add_spent] at packs
        simpa using packs.cons

theorem pack_eq (req : ContextPackRequest) (hits : List (MemoryHit F)) : req.pack hits =
    ⟨req.query,((packed req hits).filter (fun hit => !isIncident hit)).map packItem,((packed req hits).filter isIncident).map packItem,
      spending tokensOf (packed req hits),req.budgetTokens,decide ((packed req hits).length < (hits.filter req.eligible).length),
      hits.length⟩ := by
  have packs := packHits_packs req ⟨[],[],0,false⟩ hits rfl
  have spent := packs.spent
  rw [Nat.zero_add] at spent
  rw [ContextPackRequest.pack,packs.memories,packs.incidents,packs.truncated,spent]
  rfl

end

theorem kindAllowed_iff (m : Memory) (kinds : List String) :
    kindAllowed m kinds = true ↔ kinds = [] ∨ ∃ kind ∈ kinds,kindOf m = some kind := by
  rw [kindAllowed,Bool.or_eq_true,List.isEmpty_iff]
  refine or_congr_right ?_
  cases kind : kindOf m with
  | none => simp
  | some own => simp

/-- A pack is the longest front of the ranked hits, as far as the task may know of them, that its budget pays for, told apart by
what they are; what it says of itself is so, and with a larger budget it goes on where it ended. -/
theorem contextPack_law (env : Env) {F : Type} (r : Retriever F) (e : Engine) (config : RetrievalConfig) (answers : Answers)
    (caller : Caller) (req : ContextPackRequest) :
    let hits := req.hits env r e config answers caller
    let eligible := hits.filter req.eligible
    let kept := packed req hits
    (contextPack env r e config answers caller req = if (trim req.query).isEmpty then none else
      some ⟨req.query,(kept.filter (fun hit => !isIncident hit)).map packItem,(kept.filter isIncident).map packItem,
        spending tokensOf kept,req.budgetTokens,decide (kept.length < eligible.length),hits.length⟩) ∧
    (kept <+: eligible ∧ ∀ front, front <+: eligible → (front <+: kept ↔ spending tokensOf front ≤ req.budgetTokens)) ∧
    (hits.length ≤ 200 ∧ (kept.map (fun hit => hit.memory.id)).Nodup ∧
      ∀ hit ∈ kept, e.memories.get hit.memory.id = some hit.memory ∧
        (req.kinds = [] ∨ ∃ kind ∈ req.kinds,kindOf hit.memory = some kind) ∧ pathsAllow hit.memory req.paths = true) ∧
    ∀ budget, req.budgetTokens ≤ budget → kept <+: packed { req with budgetTokens := budget } hits := by
  intro hits eligible kept
  have front : kept <+: eligible := fitting_front 0 eligible
  have inside (hit : MemoryHit F) (listed : hit ∈ kept) : hit ∈ hits ∧ req.eligible hit = true :=
    List.mem_filter.mp (front.subset listed)
  refine ⟨?_,⟨front,fun first shorter => ?_⟩,⟨?_,?_,fun hit listed => ⟨?_,?_⟩⟩,fun budget larger => ?_⟩
  · rw [contextPack,pack_eq]
  · have longest : first <+: kept ↔ 0 + spending tokensOf first ≤ req.budgetTokens := prefix_fitting_iff (Nat.zero_le _) shorter
    rwa [Nat.zero_add] at longest
  · exact (memorySearchInner_length (by omega)).trans (by omega)
  · exact memorySearchInner_nodup.sublist ((front.sublist.trans List.filter_sublist).map _)
  · exact memorySearchInner_stored (inside hit listed).1
  · have allowed := (inside hit listed).2
    rw [ContextPackRequest.eligible,Bool.and_eq_true,kindAllowed_iff] at allowed
    exact allowed
  · exact fitting_mono (Nat.zero_le _) larger eligible

end Ecphoria
