import Ecphoria.Ingest.Notes

/-! The links of a note as they are read back. Each line of the links section is a link of its own, unless the content leaves
a link open: that one ends where the first link of the section does, and names what the content says. -/
namespace Ecphoria
open Library

private def opens : List Char := ['[','[']
private def closes : List Char := [']',']']

private theorem apart_of_all {front mark : List Char} (all : front.all (fun c => c ∉ mark) = true) : ∀ c ∈ front, c ∉ mark :=
  fun c inside => of_decide_eq_true (List.all_eq_true.mp all c inside)

private theorem distinct : ∀ c ∈ opens, c ∉ closes := apart_of_all (by decide)

def linkText (dst : String) : List Char := opens ++ (dst.toList ++ closes)

def headingText (dst : String) : List Char := opens ++ ('#' :: dst.toList ++ closes)

theorem linkTexts_cons (left : Bool) (dst : String) (dsts : List String) :
    linkTexts left (dst :: dsts) = (if left then headingText dst else linkText dst) :: dsts.map linkText := by
  cases left <;> rfl

theorem linkLine_eq (dst : String) (rest : List Char) : linkLine dst ++ rest = "- ".toList ++ (linkText dst ++ '\n' :: rest) := by
  have opening : "- [[".toList = "- ".toList ++ opens := by decide
  have closing : "]]\n".toList = closes ++ ['\n'] := by decide
  rw [linkLine,opening,closing,linkText]
  simp only [List.append_assoc,List.cons_append,List.nil_append]

theorem enclosed_linkLine (dst : String) (rest : List Char) :
    enclosed opens closes (linkLine dst ++ rest) = enclosed opens closes (linkText dst) ++ enclosed opens closes rest := by
  have settled : openTail opens closes (linkText dst) = none := by
    rw [linkText,← List.append_assoc]
    exact openTail_of_closed (by decide) (by decide) distinct _
  rw [linkLine_eq,enclosed_behind (by decide) (apart_of_all (by decide)),enclosed_around (by decide) (by decide) (by decide) settled]

theorem enclosed_linkLines (dsts : List String) :
    enclosed opens closes (dsts.flatMap linkLine) = dsts.flatMap (fun dst => enclosed opens closes (linkText dst)) := by
  induction dsts with
  | nil => rfl
  | cons dst dsts ih => rw [List.flatMap_cons,enclosed_linkLine,ih,List.flatMap_cons]

private def linksHeading : List Char := "\n## Links\n".toList

theorem linksSection_cons (dst : String) (dsts : List String) :
    linksSection (dst :: dsts) = linksHeading ++ (dst :: dsts).flatMap linkLine := rfl

theorem wikilinkTarget_open (tail inner : List Char) :
    wikilinkTarget (tail ++ '\n' :: (linksHeading ++ inner)) = wikilinkTarget (tail ++ ['\n']) := by
  have both (text : List Char) : (text.takeWhile (· ≠ '|')).takeWhile (· ≠ '#') =
      text.takeWhile (fun c => c ≠ '#' ∧ c ≠ '|') := by
    rw [List.takeWhile_takeWhile]
    simp
  apply String.toList_inj.mp
  rw [wikilinkTarget,wikilinkTarget,both,both,toList_trim,toList_trim,String.toList_ofList,String.toList_ofList]
  rw [List.takeWhile_append,List.takeWhile_append]
  have longer : ('\n' :: (linksHeading ++ inner)).takeWhile (fun c => c ≠ '#' ∧ c ≠ '|') = ['\n'] ++ ['\n'] := rfl
  have short : ['\n'].takeWhile (fun c => c ≠ '#' ∧ c ≠ '|') = ['\n'] := rfl
  split
  · rw [longer,short,← List.append_assoc,trimMatches_concat rfl]
  · rfl

theorem wikilinkTarget_heading (heading : List Char) : wikilinkTarget ('#' :: heading) = "" := by
  rw [wikilinkTarget,List.takeWhile_cons_of_pos (by decide),List.takeWhile_cons_of_neg (by decide)]
  decide

private theorem exists_cut (text : List Char) : ∃ before after,cutAt closes (text ++ closes) = some (before,after) := by
  cases cut : cutAt closes (text ++ closes) with
  | none => exact absurd (List.suffix_append text closes).isInfix ((cutAt_eq_none (by decide)).mp cut)
  | some parts => exact ⟨parts.1,parts.2,rfl⟩

private theorem cutAt_behind {front text before after : List Char} (apart : ∀ c ∈ front, c ∉ closes)
    (cut : cutAt closes text = some (before,after)) : cutAt closes (front ++ text) = some (front ++ before,after) := by
  obtain ⟨parts,earliest⟩ := (cutAt_eq_some (by decide)).mp cut
  refine (cutAt_eq_some (by decide)).mpr ⟨by rw [parts]; simp,?_⟩
  rw [List.append_assoc]
  exact fun inside => earliest (infix_behind (by decide) apart inside)

theorem enclosed_kept {content : List Char} (settled : openTail opens closes content = none) (dst : String)
    (dsts : List String) :
    enclosed opens closes ('\n' :: (content ++ '\n' :: linksSection (dst :: dsts))) =
      enclosed opens closes content ++ (dst :: dsts).flatMap (fun dst => enclosed opens closes (linkText dst)) := by
  rw [enclosed_cons rfl,enclosed_around (by decide) (by decide) (by decide) settled,linksSection_cons,
    enclosed_behind (by decide) (apart_of_all (by decide)),enclosed_linkLines]

theorem enclosed_swallowed {content tail : List Char} (left : openTail opens closes content = some tail) (dst : String)
    (dsts : List String) : ∃ inner after,
      enclosed opens closes ('\n' :: (content ++ '\n' :: linksSection (dst :: dsts))) =
        enclosed opens closes content ++ (tail ++ '\n' :: (linksHeading ++ inner)) :: (enclosed opens closes after ++
          dsts.flatMap (fun dst => enclosed opens closes (linkText dst))) ∧
      ∃ heading,enclosed opens closes (headingText dst) = ('#' :: heading) :: enclosed opens closes after := by
  obtain ⟨before,after,cut⟩ := exists_cut dst.toList
  have first : cutAt closes ('#' :: dst.toList ++ closes) = some ('#' :: before,after) :=
    @cutAt_behind ['#'] _ _ _ (apart_of_all (by decide)) cut
  have settled : openTail opens closes after = none := by
    have whole := openTail_of_closed (by decide) (by decide) distinct (opens ++ ('#' :: dst.toList))
    rw [List.append_assoc,openTail_opening (by decide) (by decide) first] at whole
    exact whole
  have section_eq : linksSection (dst :: dsts) =
      (linksHeading ++ "- [[".toList) ++ ((dst.toList ++ closes) ++ '\n' :: dsts.flatMap linkLine) := by
    have opening : "- [[".toList = "- ".toList ++ opens := by decide
    rw [linksSection_cons,List.flatMap_cons,linkLine_eq,linkText,opening]
    simp only [List.append_assoc]
  have swallowed : cutAt closes (linksSection (dst :: dsts)) =
      some ((linksHeading ++ "- [[".toList) ++ before,after ++ '\n' :: dsts.flatMap linkLine) := by
    rw [section_eq]
    exact cutAt_behind (apart_of_all (by decide)) (cutAt_append (by decide) _ cut)
  refine ⟨"- [[".toList ++ before,after,?_,before,?_⟩
  · rw [enclosed_cons rfl,enclosed_open (by decide) (by decide) (by decide) (by decide) distinct left swallowed,
      enclosed_around (by decide) (by decide) (by decide) settled,enclosed_linkLines,List.append_assoc]
  · rw [headingText,enclosed_closed (by decide) (by decide) first]

theorem enclosed_ended (content : List Char) : enclosed opens closes (content ++ "\n]]".toList) =
    enclosed opens closes content ++ ((openTail opens closes content).map (· ++ ['\n'])).toList := by
  have shape : content ++ "\n]]".toList = content ++ '\n' :: closes := rfl
  rw [shape]
  cases left : openTail opens closes content with
  | none =>
    have none : enclosed opens closes closes = [] := by decide
    rw [enclosed_around (by decide) (by decide) (by decide) left,none]
    rfl
  | some tail =>
    have cut : cutAt closes closes = some ([],[]) := by decide
    rw [enclosed_open (by decide) (by decide) (by decide) (by decide) distinct left cut,enclosed_nil]
    rfl

theorem mem_named {text : List Char} {target : String} (some : target ≠ "") :
    target ∈ extractWikilinks text ↔ target ∈ (enclosed opens closes text).map wikilinkTarget := by
  rw [mem_extractWikilinks,List.mem_map]
  exact ⟨fun found => found.2,fun found => ⟨some,found⟩⟩

theorem mem_body_iff {content : List Char} {dst : String} {dsts : List String} (target : String) :
    target ∈ extractWikilinks ('\n' :: (content ++ '\n' :: linksSection (dst :: dsts))) ↔
      target ∈ extractWikilinks (content ++ "\n]]".toList) ∨
        ∃ text ∈ linkTexts (openTail opens closes content).isSome (dst :: dsts), target ∈ extractWikilinks text := by
  by_cases some : target = ""
  · have absent (text : List Char) : target ∉ extractWikilinks text := fun found => (mem_extractWikilinks.mp found).1 some
    refine iff_of_false (absent _) ?_
    rintro (found | ⟨text,_,found⟩)
    · exact absent _ found
    · exact absent _ found
  · have listed (dsts : List String) : (∃ text ∈ dsts.map linkText, target ∈ (enclosed opens closes text).map wikilinkTarget) ↔
        target ∈ (dsts.flatMap (fun dst => enclosed opens closes (linkText dst))).map wikilinkTarget := by
      rw [List.map_flatMap,List.mem_flatMap]
      constructor
      · rintro ⟨_,there,found⟩
        obtain ⟨dst,inside,rfl⟩ := List.mem_map.mp there
        exact ⟨dst,inside,found⟩
      · exact fun ⟨dst,inside,found⟩ => ⟨linkText dst,List.mem_map_of_mem inside,found⟩
    have ended := enclosed_ended content
    simp only [mem_named some]
    rw [ended,linkTexts_cons]
    cases left : openTail opens closes content with
    | none =>
      rw [enclosed_kept left,List.map_append,List.mem_append,← listed]
      simp
    | some tail =>
      obtain ⟨inner,after,body,heading,text⟩ := enclosed_swallowed left dst dsts
      have first : target ∈ (enclosed opens closes (headingText dst)).map wikilinkTarget ↔
          target ∈ (enclosed opens closes after).map wikilinkTarget := by
        rw [text,List.map_cons,wikilinkTarget_heading,List.mem_cons]
        exact or_iff_right some
      rw [body,List.map_append,List.mem_append,List.map_cons,List.mem_cons,wikilinkTarget_open,List.map_append,List.mem_append,
        ← listed,← first,List.map_append,List.mem_append]
      simp only [Option.isSome_some,if_true,List.mem_cons,exists_eq_or_imp,Option.map_some,Option.toList_some,List.map_cons,
        List.map_nil,List.not_mem_nil,or_false,or_assoc]

theorem linksKept_iff (content : List Char) (dsts : List String) :
    (∀ dst ∈ dsts, dst ∈ extractWikilinks ('\n' :: (content ++ '\n' :: linksSection dsts))) ↔ LinksKept content dsts := by
  cases dsts with
  | nil => exact iff_of_true (fun _ inside => absurd inside List.not_mem_nil) (fun _ inside => absurd inside List.not_mem_nil)
  | cons dst dsts => exact forall₂_congr (fun target _ => mem_body_iff target)

end Ecphoria
