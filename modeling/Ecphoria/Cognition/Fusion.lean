import Ecphoria.Cognition.Ranking
import Mathlib.Algebra.BigOperators.Group.List.Basic
import Mathlib.Algebra.Field.Rat
import Mathlib.Algebra.Order.Ring.Rat
import Mathlib.Data.Nat.Cast.Order.Ring

/-! Rank fusion over exact rationals: what the fused scores are, and what the
sorted and cut list of them says about the ids that were left out. -/
namespace Ecphoria

/-- Rationals for the machine floats; the fusion takes no logarithm and no power. -/
def exactArith (ln : Rat → Rat) (powf : Rat → Rat → Rat) : Arith Rat where
  ofNat n := n
  ofRat x := x
  add x y := x + y
  sub x y := x - y
  mul x y := x * y
  div x y := x / y
  max x y := max x y
  ln := ln
  powf := powf
  lt x y := decide (x < y)

section
variable {F : Type} (f32 : Arith F)

/-- The loops of `rrf_fuse`, which divides one by the rank. -/
def rrfFuse (hashOrder : List (Uuid × F) → List (Uuid × F)) (rankings : List (List Uuid)) (kRrf : F) (topK : Nat) :
    List (Uuid × F) :=
  let scores := rankings.foldl (fun scores ranking =>
    ranking.zipIdx.foldl (fun scores (id,rank) =>
      addScore f32 scores id (f32.div (f32.ofNat 1) (f32.add kRrf (f32.add (f32.ofNat rank) (f32.ofNat 1))))) scores) []
  (sortByScore f32 Prod.snd (hashOrder scores)).take topK

end

variable (ln : Rat → Rat) (powf : Rat → Rat → Rat)

/-- What one ranking gives an id: the weight over the constant and the position, for each time the ranking has it. -/
def rankScore (kRrf weight : Rat) (id : Uuid) (ranking : List Uuid) : Rat :=
  ((ranking.zipIdx.filter (fun place => place.1 = id)).map (fun place => weight / (kRrf + (place.2 + 1)))).sum

def fusedScore (rankings : List (List Uuid × Rat)) (kRrf : Rat) (id : Uuid) : Rat :=
  (rankings.map (fun ranking => rankScore kRrf ranking.2 id ranking.1)).sum

private def held (scores : List (Uuid × Rat)) (id : Uuid) : Rat := (scores.lookup id).getD 0

private theorem lookup_first (scores : List (Uuid × Rat)) (key id : Uuid) (y : Rat) :
    ((key,y) :: scores).lookup id = if id = key then some y else scores.lookup id := by
  by_cases same : id = key
  · subst same
    rw [if_pos rfl,List.lookup_cons_self]
  · rw [if_neg same,List.lookup_cons,beq_false_of_ne same]

private theorem lookup_raised (scores : List (Uuid × Rat)) (id other : Uuid) (x : Rat) :
    (scores.map (fun entry => if entry.1 = id then (id,entry.2 + x) else entry)).lookup other =
      if other = id then (scores.lookup id).map (fun y => y + x) else scores.lookup other := by
  induction scores with
  | nil => simp
  | cons entry scores ih =>
    obtain ⟨key,y⟩ := entry
    rw [List.map_cons,lookup_first,lookup_first]
    by_cases here : key = id
    · subst here
      rw [if_pos rfl,lookup_first,ih]
      by_cases same : other = key
      · simp [same]
      · simp [same]
    · rw [if_neg here,lookup_first,ih]
      by_cases same : other = id
      · subst same
        rw [if_pos rfl,if_neg (Ne.symm here),if_pos rfl,if_neg (Ne.symm here)]
      · rw [if_neg same,if_neg same]

private theorem lookup_known {scores : List (Uuid × Rat)} {id : Uuid} (known : id ∈ scores.map Prod.fst) :
    ∃ y, scores.lookup id = some y := by
  rw [← Option.isSome_iff_exists,Option.isSome_iff_ne_none]
  intro missing
  obtain ⟨entry,listed,rfl⟩ := List.mem_map.mp known
  exact bne_iff_ne.mp (List.lookup_eq_none_iff.mp missing entry listed) rfl

private theorem held_addScore (scores : List (Uuid × Rat)) (id other : Uuid) (x : Rat) :
    held (addScore (exactArith ln powf) scores id x) other = held scores other + if other = id then x else 0 := by
  unfold held addScore
  split
  next present =>
    have known : id ∈ scores.map Prod.fst := by simpa using present
    obtain ⟨y,found⟩ := lookup_known known
    have raised := lookup_raised scores id other x
    simp only [exactArith] at *
    rw [raised]
    by_cases same : other = id
    · subst same
      rw [if_pos rfl,if_pos rfl,found]
      rfl
    · rw [if_neg same,if_neg same,add_zero]
  next absent =>
    have missing : scores.lookup id = none := by
      rw [List.lookup_eq_none_iff]
      intro entry listed
      rw [bne_iff_ne]
      rintro rfl
      exact absent (List.any_eq_true.mpr ⟨entry,listed,by simp⟩)
    rw [List.lookup_append,lookup_first]
    simp only [exactArith]
    by_cases same : other = id
    · subst same
      rw [missing,if_pos rfl,if_pos rfl]
      simp
    · rw [if_neg same,if_neg same]
      simp

private theorem held_ranking (kRrf weight : Rat) (id : Uuid) (places : List (Uuid × Nat)) (scores : List (Uuid × Rat)) :
    held (places.foldl (fun scores (id,rank) => addScore (exactArith ln powf) scores id
      ((exactArith ln powf).div weight ((exactArith ln powf).add kRrf
        ((exactArith ln powf).add ((exactArith ln powf).ofNat rank) ((exactArith ln powf).ofNat 1))))) scores) id =
      held scores id + ((places.filter (fun place => place.1 = id)).map
        (fun place => weight / (kRrf + (place.2 + 1)))).sum := by
  induction places generalizing scores with
  | nil => simp
  | cons place places ih =>
    rw [List.foldl_cons,ih,held_addScore,List.filter_cons]
    by_cases here : place.1 = id
    · rw [if_pos here.symm,if_pos (by simpa using here),List.map_cons,List.sum_cons,← add_assoc]
      simp [exactArith]
    · rw [if_neg (Ne.symm here),if_neg (by simpa using here),add_zero]

private theorem held_rrfScores (rankings : List (List Uuid × Rat)) (kRrf : Rat) (id : Uuid) :
    held (rrfScores (exactArith ln powf) rankings kRrf) id = fusedScore rankings kRrf id := by
  have all (rankings : List (List Uuid × Rat)) (scores : List (Uuid × Rat)) :
      held (rankings.foldl (fun scores (ranking,weight) =>
        ranking.zipIdx.foldl (fun scores (id,rank) => addScore (exactArith ln powf) scores id
          ((exactArith ln powf).div weight ((exactArith ln powf).add kRrf
            ((exactArith ln powf).add ((exactArith ln powf).ofNat rank) ((exactArith ln powf).ofNat 1))))) scores)
          scores) id = held scores id + fusedScore rankings kRrf id := by
    induction rankings generalizing scores with
    | nil => simp [fusedScore]
    | cons ranking rankings ih =>
      rw [List.foldl_cons,ih,held_ranking,fusedScore,fusedScore,List.map_cons,List.sum_cons,rankScore,add_assoc]
  have whole := all rankings []
  rw [rrfScores]
  simpa [held] using whole

private theorem score_of_entry (rankings : List (List Uuid × Rat)) (kRrf : Rat) {entry : Uuid × Rat}
    (listed : entry ∈ rrfScores (exactArith ln powf) rankings kRrf) : entry.2 = fusedScore rankings kRrf entry.1 := by
  rw [← held_rrfScores ln powf]
  obtain ⟨y,found⟩ := lookup_known (List.mem_map_of_mem listed)
  obtain ⟨before,after,split,_⟩ := List.lookup_eq_some_iff.mp found
  have inside : (entry.1,y) ∈ rrfScores (exactArith ln powf) rankings kRrf := by
    rw [split]
    simp
  have same : entry = (entry.1,y) :=
    List.inj_on_of_nodup_map (nodup_rrfScores (exactArith ln powf) rankings kRrf) listed inside rfl
  rw [held,found]
  exact congrArg Prod.snd same

theorem mem_rrfScores_iff (rankings : List (List Uuid × Rat)) (kRrf : Rat) (entry : Uuid × Rat) :
    entry ∈ rrfScores (exactArith ln powf) rankings kRrf ↔
      (∃ ranking ∈ rankings, entry.1 ∈ ranking.1) ∧ entry.2 = fusedScore rankings kRrf entry.1 := by
  refine ⟨?_,?_⟩
  · intro listed
    exact ⟨(mem_rrfScores (exactArith ln powf) rankings kRrf entry.1).mp (List.mem_map_of_mem listed),
      score_of_entry ln powf rankings kRrf listed⟩
  · rintro ⟨occurs,scored⟩
    obtain ⟨other,listed,same⟩ := List.mem_map.mp ((mem_rrfScores (exactArith ln powf) rankings kRrf entry.1).mpr occurs)
    have known := score_of_entry ln powf rankings kRrf listed
    have equal : other = entry := Prod.ext same (by rw [known,scored,same])
    rwa [← equal]

private theorem sorted_scores (entries : List (Uuid × Rat)) :
    (sortByScore (exactArith ln powf) Prod.snd entries).Pairwise (fun a b => b.2 ≤ a.2) := by
  have same (a b : Uuid × Rat) : (exactArith ln powf).lt a.2 b.2 = false ↔ b.2 ≤ a.2 := by
    simp [exactArith]
  have total : Std.Total (fun a b : Uuid × Rat => (exactArith ln powf).lt a.2 b.2 = false) := by
    refine ⟨fun a b => ?_⟩
    rw [same,same]
    exact le_total _ _
  have trans : IsTrans (Uuid × Rat) (fun a b => (exactArith ln powf).lt a.2 b.2 = false) := by
    refine ⟨fun a b c first second => ?_⟩
    rw [same] at *
    exact second.trans first
  exact (List.pairwise_insertionSort _ entries).imp (fun {a b} sorted => (same a b).mp sorted)

private theorem rrfFuse_eq (hashOrder : List (Uuid × Rat) → List (Uuid × Rat)) (plain : List (List Uuid)) (kRrf : Rat)
    (topK : Nat) : rrfFuse (exactArith ln powf) hashOrder plain kRrf topK =
      rrfFuseWeighted (exactArith ln powf) hashOrder (plain.map (fun ranking => (ranking,1))) kRrf topK := by
  have one : (exactArith ln powf).ofNat 1 = (1 : Rat) := Nat.cast_one
  rw [rrfFuse,rrfFuseWeighted,rrfScores,List.foldl_map]
  simp only [one]

section
variable {hashOrder hashOrder' : List (Uuid × Rat) → List (Uuid × Rat)}
  (reordered : ∀ scores, (hashOrder scores).Perm scores) (reordered' : ∀ scores, (hashOrder' scores).Perm scores)
  {rankings permuted : List (List Uuid × Rat)} (kRrf : Rat)
include reordered

private theorem mem_sorted (entry : Uuid × Rat) :
    entry ∈ sortByScore (exactArith ln powf) Prod.snd (hashOrder (rrfScores (exactArith ln powf) rankings kRrf)) ↔
      (∃ ranking ∈ rankings, entry.1 ∈ ranking.1) ∧ entry.2 = fusedScore rankings kRrf entry.1 := by
  rw [(sortByScore_perm (exactArith ln powf) Prod.snd _).mem_iff,(reordered _).mem_iff,mem_rrfScores_iff]

private theorem nodup_sorted :
    ((sortByScore (exactArith ln powf) Prod.snd (hashOrder (rrfScores (exactArith ln powf) rankings kRrf))).map
      Prod.fst).Nodup := by
  rw [((sortByScore_perm (exactArith ln powf) Prod.snd _).map Prod.fst).nodup_iff,((reordered _).map Prod.fst).nodup_iff]
  exact nodup_rrfScores _ _ _

private theorem cut_le (topK : Nat) {id : Uuid} (occurs : ∃ ranking ∈ rankings, id ∈ ranking.1)
    (cut : id ∉ (rrfFuseWeighted (exactArith ln powf) hashOrder rankings kRrf topK).map Prod.fst) {entry : Uuid × Rat}
    (listed : entry ∈ rrfFuseWeighted (exactArith ln powf) hashOrder rankings kRrf topK) :
    fusedScore rankings kRrf id ≤ entry.2 := by
  have inside := (mem_sorted ln powf reordered kRrf (id,fusedScore rankings kRrf id)).mpr ⟨occurs,rfl⟩
  have sorted := sorted_scores ln powf (hashOrder (rrfScores (exactArith ln powf) rankings kRrf))
  rw [← List.take_append_drop topK (sortByScore _ _ _)] at inside sorted
  rcases List.mem_append.mp inside with kept | dropped
  · exact absurd (List.mem_map_of_mem kept) cut
  · exact (List.pairwise_append.mp sorted).2.2 entry listed _ dropped

include reordered' in
private theorem sorted_perm (same : rankings.Perm permuted) :
    (sortByScore (exactArith ln powf) Prod.snd (hashOrder' (rrfScores (exactArith ln powf) permuted kRrf))).Perm
      (sortByScore (exactArith ln powf) Prod.snd (hashOrder (rrfScores (exactArith ln powf) rankings kRrf))) := by
  rw [List.perm_ext_iff_of_nodup (nodup_sorted ln powf reordered' kRrf).of_map (nodup_sorted ln powf reordered kRrf).of_map]
  intro entry
  have scores : fusedScore permuted kRrf entry.1 = fusedScore rankings kRrf entry.1 := (same.symm.map _).sum_eq
  have occurs : (∃ ranking ∈ permuted, entry.1 ∈ ranking.1) ↔ ∃ ranking ∈ rankings, entry.1 ∈ ranking.1 :=
    exists_congr (fun ranking => and_congr_left (fun _ => same.symm.mem_iff))
  rw [mem_sorted ln powf reordered' kRrf,mem_sorted ln powf reordered kRrf,scores,occurs]

end

/-- The law of weighted rank fusion, whatever order the maps of scores are read in. -/
theorem rrfFuseWeighted_law (hashOrder hashOrder' : List (Uuid × Rat) → List (Uuid × Rat))
    (reordered : ∀ scores, (hashOrder scores).Perm scores) (reordered' : ∀ scores, (hashOrder' scores).Perm scores)
    (rankings : List (List Uuid × Rat)) (kRrf : Rat) (positive : 0 < kRrf) (topK : Nat) :
    (∀ rank : Nat, kRrf + (rank + 1) ≠ 0) ∧
    (((rrfFuseWeighted (exactArith ln powf) hashOrder rankings kRrf topK).map Prod.fst).Nodup ∧
      (∀ entry ∈ rrfFuseWeighted (exactArith ln powf) hashOrder rankings kRrf topK,
        (∃ ranking ∈ rankings, entry.1 ∈ ranking.1) ∧ entry.2 = fusedScore rankings kRrf entry.1) ∧
      (rrfFuseWeighted (exactArith ln powf) hashOrder rankings kRrf topK).Pairwise (fun a b => b.2 ≤ a.2) ∧
      ∀ id, (∃ ranking ∈ rankings, id ∈ ranking.1) →
        id ∉ (rrfFuseWeighted (exactArith ln powf) hashOrder rankings kRrf topK).map Prod.fst →
          ∀ entry ∈ rrfFuseWeighted (exactArith ln powf) hashOrder rankings kRrf topK,
            fusedScore rankings kRrf id ≤ entry.2) ∧
    (∀ plain, rankings = plain.map (fun ranking => (ranking,1)) →
      (rrfFuseWeighted (exactArith ln powf) hashOrder rankings kRrf topK).map Prod.snd =
        (rrfFuse (exactArith ln powf) hashOrder' plain kRrf topK).map Prod.snd ∧
      ∀ entry ∈ rrfFuseWeighted (exactArith ln powf) hashOrder rankings kRrf topK,
        ∀ other ∈ rrfFuse (exactArith ln powf) hashOrder' plain kRrf topK, entry.1 = other.1 → entry.2 = other.2) ∧
    ∀ permuted, rankings.Perm permuted → (∀ id, fusedScore permuted kRrf id = fusedScore rankings kRrf id) ∧
      ((∀ id id', (∃ ranking ∈ rankings, id ∈ ranking.1) → (∃ ranking ∈ rankings, id' ∈ ranking.1) →
        fusedScore rankings kRrf id = fusedScore rankings kRrf id' → id = id') →
          rrfFuseWeighted (exactArith ln powf) hashOrder' permuted kRrf topK =
            rrfFuseWeighted (exactArith ln powf) hashOrder rankings kRrf topK) := by
  have entries (hashOrder : List (Uuid × Rat) → List (Uuid × Rat)) (reordered : ∀ scores, (hashOrder scores).Perm scores)
      (entry : Uuid × Rat) (listed : entry ∈ rrfFuseWeighted (exactArith ln powf) hashOrder rankings kRrf topK) :
      (∃ ranking ∈ rankings, entry.1 ∈ ranking.1) ∧ entry.2 = fusedScore rankings kRrf entry.1 :=
    (mem_sorted ln powf reordered kRrf entry).mp (List.mem_of_mem_take listed)
  refine ⟨?_,⟨?_,entries hashOrder reordered,?_,?_⟩,?_,?_⟩
  · intro rank
    have place : (0 : Rat) ≤ rank := Nat.cast_nonneg rank
    exact (add_pos positive (add_pos_of_nonneg_of_pos place one_pos)).ne'
  · exact (nodup_sorted ln powf reordered kRrf).sublist ((List.take_sublist topK _).map Prod.fst)
  · exact (sorted_scores ln powf _).sublist (List.take_sublist topK _)
  · intro id occurs cut entry listed
    exact cut_le ln powf reordered kRrf topK occurs cut listed
  · intro plain same
    rw [rrfFuse_eq,← same]
    refine ⟨?_,?_⟩
    · have perm := sorted_perm ln powf reordered reordered' kRrf (List.Perm.refl rankings)
      have equal := (perm.symm.map Prod.snd).eq_of_pairwise (fun a b _ _ up down => le_antisymm down up)
        (List.pairwise_map.mpr (sorted_scores ln powf _)) (List.pairwise_map.mpr (sorted_scores ln powf _))
      rw [rrfFuseWeighted,rrfFuseWeighted,List.map_take,List.map_take,equal]
    · intro entry listed other also one_id
      rw [(entries hashOrder reordered entry listed).2,(entries hashOrder' reordered' other also).2,one_id]
  · intro permuted same
    refine ⟨fun id => (same.symm.map _).sum_eq,?_⟩
    intro distinct
    have equal := (sorted_perm ln powf reordered reordered' kRrf same).eq_of_pairwise (fun a b left right up down => by
      have first := (mem_sorted ln powf reordered kRrf a).mp
        ((sorted_perm ln powf reordered reordered' kRrf same).mem_iff.mp left)
      have second := (mem_sorted ln powf reordered kRrf b).mp right
      have scores : a.2 = b.2 := le_antisymm down up
      exact Prod.ext (distinct a.1 b.1 first.1 second.1 (first.2.symm.trans (scores.trans second.2))) scores)
      (sorted_scores ln powf _) (sorted_scores ln powf _)
    rw [rrfFuseWeighted,rrfFuseWeighted,equal]

/-- Two rankings, one of which repeats an id, with a cut after two ids. -/
theorem rrfFuseWeighted_of_two :
    (∀ rank : Nat, (60 : Rat) + (rank + 1) ≠ 0) ∧
    (((rrfFuseWeighted (exactArith id (fun x _ => x)) List.reverse [([1,2,1],1),([3,1],1)] 60 2).map Prod.fst).Nodup ∧
      (∀ entry ∈ rrfFuseWeighted (exactArith id (fun x _ => x)) List.reverse [([1,2,1],1),([3,1],1)] 60 2,
        (∃ ranking ∈ [([1,2,1],(1 : Rat)),([3,1],1)], entry.1 ∈ ranking.1) ∧
          entry.2 = fusedScore [([1,2,1],1),([3,1],1)] 60 entry.1) ∧
      (rrfFuseWeighted (exactArith id (fun x _ => x)) List.reverse [([1,2,1],1),([3,1],1)] 60 2).Pairwise
        (fun a b => b.2 ≤ a.2) ∧
      ∀ id', (∃ ranking ∈ [([1,2,1],(1 : Rat)),([3,1],1)], id' ∈ ranking.1) →
        id' ∉ (rrfFuseWeighted (exactArith id (fun x _ => x)) List.reverse [([1,2,1],1),([3,1],1)] 60 2).map Prod.fst →
          ∀ entry ∈ rrfFuseWeighted (exactArith id (fun x _ => x)) List.reverse [([1,2,1],1),([3,1],1)] 60 2,
            fusedScore [([1,2,1],1),([3,1],1)] 60 id' ≤ entry.2) ∧
    (rrfFuseWeighted (exactArith id (fun x _ => x)) List.reverse [([1,2,1],1),([3,1],1)] 60 2).map Prod.snd =
      (rrfFuse (exactArith id (fun x _ => x)) List.reverse [[1,2,1],[3,1]] 60 2).map Prod.snd ∧
    ∀ id', fusedScore [([3,1],1),([1,2,1],1)] 60 id' = fusedScore [([1,2,1],1),([3,1],1)] 60 id' := by
  obtain ⟨apart,law,plain,permuted⟩ := rrfFuseWeighted_law id (fun x _ => x) List.reverse List.reverse
    List.reverse_perm List.reverse_perm [([1,2,1],1),([3,1],1)] 60 (by decide) 2
  exact ⟨apart,law,(plain [[1,2,1],[3,1]] rfl).1,(permuted [([3,1],1),([1,2,1],1)] (List.Perm.swap _ _ [])).1⟩

end Ecphoria
