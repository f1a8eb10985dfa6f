import Ecphoria.Ingest.Notes
import Ecphoria.Ingest.Rows
import Ecphoria.Library.Numbering

/-! The names of notes. A name is the subject without the characters that file systems refuse, and a number for all but the
first note of a name; a note is read back under its name, which is the subject only if nothing had to be replaced. -/
namespace Ecphoria
open Library

def noteFile (base : String) (n : Nat) : String := if n = 0 then base ++ ".md" else base ++ "-" ++ toString n ++ ".md"

def noteStem (base : String) (n : Nat) : String := if n = 0 then base else base ++ "-" ++ toString n

/-- `str::to_lowercase` makes no `-` and no `.`, and loses none. -/
structure Env.KeepsMarks (env : Env) : Prop where
  dash : ∀ s, (env.toLowercase s).toList.count '-' = s.toList.count '-'
  dot : ∀ s, (env.toLowercase s).toList.count '.' = s.toList.count '.'

@[simp] theorem noteStem_zero (base : String) : noteStem base 0 = base := rfl

theorem noteFile_eq (base : String) (n : Nat) : noteFile base n = noteStem base n ++ ".md" := by
  rw [noteFile,noteStem]
  split
  · rfl
  · rfl

theorem fileStem_md {stem : String} (some : stem ≠ "") : fileStem (stem ++ ".md") = stem := by
  have shape : (stem ++ ".md").toList.reverse = 'd' :: 'm' :: '.' :: stem.toList.reverse := by simp
  have front : ((stem ++ ".md").toList.reverse.dropWhile (· ≠ '.')).drop 1 = stem.toList.reverse := by
    rw [shape]
    rfl
  have full : stem.toList.reverse.isEmpty = false := by
    rw [List.isEmpty_eq_false_iff,ne_eq,List.reverse_eq_nil_iff,String.toList_eq_nil_iff]
    exact some
  rw [fileStem,front,full,List.reverse_reverse,String.ofList_toList]
  rfl

theorem toList_number (n : Nat) : (toString n).toList = Nat.toDigits 10 n := String.toList_ofList

theorem digits_plain (n : Nat) : '-' ∉ (toString n).toList := by
  rw [toList_number]
  intro inside
  exact absurd (Nat.isDigit_of_mem_toDigits (b := 10) (by decide) (by decide) inside) (by decide)

theorem sanitizeFilename_ne_empty (title : String) : sanitizeFilename title ≠ "" := by
  rw [sanitizeFilename]
  split
  next => decide
  next some => exact fun empty => some (by rw [empty]; rfl)

theorem noteStem_ne_empty {base : String} (some : base ≠ "") (n : Nat) : noteStem base n ≠ "" := by
  rw [noteStem]
  split
  · exact some
  · intro empty
    have nothing := congrArg String.toList empty
    simp at nothing

theorem count_splitWhitespace {c : Char} (plain : isWhitespace c = false) (s : String) :
    ((splitWhitespace s).map (fun word => word.toList.count c)).sum = s.toList.count c := by
  have parts (text : List Char) : ((text.splitOnP isWhitespace).map (List.count c)).sum = text.count c := by
    induction text with
    | nil => rfl
    | cons d text ih =>
      rw [List.splitOnP_cons_eq_if_modifyHead]
      split
      next blank =>
        have apart : d ≠ c := fun same => absurd (same ▸ blank) (by simp [plain])
        rw [List.map_cons,List.sum_cons,ih,List.count_nil,List.count_cons_of_ne apart,Nat.zero_add]
      next =>
        obtain ⟨first,rest,split⟩ := List.exists_cons_of_ne_nil (List.splitOnP_ne_nil isWhitespace text)
        rw [split] at ih ⊢
        rw [List.modifyHead_cons,List.map_cons,List.sum_cons,List.count_cons,List.count_cons,← ih,List.map_cons,List.sum_cons]
        omega
  have filled (words : List (List Char)) :
      ((words.filter (fun word => !word.isEmpty)).map (List.count c)).sum = (words.map (List.count c)).sum := by
    induction words with
    | nil => rfl
    | cons word words ih =>
      cases word with
      | nil => simpa using ih
      | cons d word => simpa using ih
  rw [splitWhitespace,List.map_map,← parts s.toList,← filled]
  refine congrArg List.sum (List.map_congr_left (fun word _ => ?_))
  simp

theorem count_intercalate {c : Char} (apart : c ≠ ' ') (words : List String) :
    (String.intercalate " " words).toList.count c = (words.map (fun word => word.toList.count c)).sum := by
  induction words with
  | nil => simp
  | cons word words ih =>
    cases words with
    | nil => simp
    | cons next words =>
      have space : (" " : String).toList.count c = 0 := List.count_eq_zero.mpr (by simpa using apart)
      rw [String.intercalate_cons_cons,String.toList_append,String.toList_append,List.count_append,List.count_append,ih,space,
        List.map_cons,List.map_cons,List.sum_cons]
      simp

theorem splitWhitespace_blank {blank : List Char} (spaces : ∀ c ∈ blank, isWhitespace c = true) (text : List Char) :
    splitWhitespace (String.ofList (blank ++ text)) = splitWhitespace (String.ofList text) := by
  induction blank with
  | nil => rfl
  | cons c blank ih =>
    have front := splitWhitespace_append [] (blank ++ text) (spaces c List.mem_cons_self)
    have nothing : splitWhitespace (String.ofList []) = [] := (splitWhitespace_eq_nil []).mpr (by simp)
    rw [List.cons_append]
    exact front.trans ((congrArg (· ++ _) nothing).trans (ih (fun d inside => spaces d (List.mem_cons_of_mem c inside))))

theorem splitWhitespace_blank_end {blank : List Char} (spaces : ∀ c ∈ blank, isWhitespace c = true) (text : List Char) :
    splitWhitespace (String.ofList (text ++ blank)) = splitWhitespace (String.ofList text) := by
  cases blank with
  | nil => rw [List.append_nil]
  | cons c blank =>
    have nothing : splitWhitespace (String.ofList blank) = [] :=
      (splitWhitespace_eq_nil blank).mpr (fun d inside => spaces d (List.mem_cons_of_mem c inside))
    rw [splitWhitespace_append text blank (spaces c List.mem_cons_self),nothing,List.append_nil]

theorem splitWhitespace_trim (s : String) : splitWhitespace (trim s) = splitWhitespace s := by
  obtain ⟨before,after,front,back,parts⟩ := Chunk.exists_trim s
  have whole : s = String.ofList (before ++ (trim s).toList ++ after) := by rw [← parts,String.ofList_toList]
  have kept := splitWhitespace_blank_end back (before ++ (trim s).toList)
  rw [splitWhitespace_blank front,String.ofList_toList] at kept
  exact kept.symm.trans (congrArg splitWhitespace whole).symm

theorem normalizeSubject_trim (env : Env) (s : String) : normalizeSubject env (trim s) = normalizeSubject env s := by
  rw [normalizeSubject,normalizeSubject,splitWhitespace_trim]

section
variable {env : Env}

theorem count_normalizeSubject {c : Char} (plain : isWhitespace c = false) (apart : c ≠ ' ')
    (kept : ∀ s, (env.toLowercase s).toList.count c = s.toList.count c) (s : String) :
    (normalizeSubject env s).toList.count c = s.toList.count c := by
  rw [normalizeSubject,kept,count_intercalate apart,count_splitWhitespace plain]

theorem count_sanitizeFilename (title : String) : (sanitizeFilename title).toList.count '-' =
    title.toList.count '-' + title.toList.countP isForbidden := by
  have cleaned (text : List Char) : (text.map (fun c => if isForbidden c then '-' else c)).count '-' =
      text.count '-' + text.countP isForbidden := by
    induction text with
    | nil => rfl
    | cons c text ih =>
      rw [List.map_cons,List.count_cons,List.count_cons,List.countP_cons,ih]
      by_cases bad : isForbidden c = true
      · have other : c ≠ '-' := by
          rintro rfl
          exact absurd bad (by decide)
        simp only [bad,if_true,beq_self_eq_true,beq_false_of_ne other,Bool.false_eq_true,if_false]
        omega
      · rw [if_neg bad,if_neg bad]
        omega
  have kept : (trim (String.ofList (trimMatches (· == '.') (trim (String.ofList
      (title.toList.map (fun c => if isForbidden c then '-' else c)))).toList))).toList.count '-' =
      title.toList.count '-' + title.toList.countP isForbidden := by
    rw [toList_trim,count_trimMatches (by decide),String.toList_ofList,count_trimMatches (by decide),toList_trim,
      count_trimMatches (by decide),String.toList_ofList,cleaned]
  rw [sanitizeFilename]
  split
  next empty =>
    rw [String.isEmpty_iff.mp empty] at kept
    exact Eq.trans (by decide) kept
  next => exact kept

theorem count_noteStem (base : String) (n : Nat) :
    (noteStem base n).toList.count '-' = base.toList.count '-' + if n = 0 then 0 else 1 := by
  rw [noteStem]
  split
  · rfl
  · have mark : ("-" : String).toList.count '-' = 1 := by decide
    rw [String.toList_append,String.toList_append,List.count_append,List.count_append,mark,
      List.count_eq_zero.mpr (digits_plain n),Nat.add_zero]

theorem sanitizeFilename_plain {title : String} (plain : ∀ c ∈ title.toList, isForbidden c = false) :
    sanitizeFilename title =
      let trimmed := trim (String.ofList (trimMatches (· == '.') (trim title).toList))
      if trimmed.isEmpty then "untitled" else trimmed := by
  have same : title.toList.map (fun c => if isForbidden c then '-' else c) = title.toList := by
    refine (List.map_congr_left (fun c inside => ?_)).trans (List.map_id _)
    rw [plain c inside]
    rfl
  rw [sanitizeFilename,same,String.ofList_toList]

theorem trim_ne_dotted {title : String} (kept : trimMatches (· == '.') (trim title).toList = (trim title).toList) :
    (trim title).toList.head? ≠ some '.' ∧ (trim title).toList.getLast? ≠ some '.' := by
  refine ⟨fun first => ?_,fun last => ?_⟩
  · rw [← kept] at first
    exact absurd (head_trimMatches first) (by decide)
  · rw [← kept] at last
    exact absurd (last_trimMatches last) (by decide)

theorem undotted_of_count {title : String} (plain : ∀ c ∈ title.toList, isForbidden c = false)
    (same : (sanitizeFilename title).toList.count '.' = title.toList.count '.') :
    trimMatches (· == '.') (trim title).toList = (trim title).toList := by
  have trimmed : (trim title).toList.count '.' = title.toList.count '.' := by
    rw [toList_trim,count_trimMatches (by decide)]
  apply trimMatches_eq_of_count
  rw [sanitizeFilename_plain plain] at same
  dsimp only at same
  split at same
  next =>
    have none : ("untitled" : String).toList.count '.' = 0 := by decide
    have fewer := (trimMatches_within (· == '.') (trim title).toList).count_le '.'
    omega
  next =>
    rw [toList_trim,count_trimMatches (by decide),String.toList_ofList] at same
    rw [same,trimmed]

theorem sanitizeFilename_kept {title : String} (filled : isBlankText title = false)
    (plain : ∀ c ∈ title.toList, isForbidden c = false) (first : (trim title).toList.head? ≠ some '.')
    (last : (trim title).toList.getLast? ≠ some '.') : sanitizeFilename title = trim (trim title) := by
  have undotted : trimMatches (· == '.') (trim title).toList = (trim title).toList := by
    apply trimMatches_eq_self
    · rintro c here
      exact beq_false_of_ne (fun same => first (same ▸ here))
    · rintro c here
      exact beq_false_of_ne (fun same => last (same ▸ here))
  have full : (trim (trim title)).isEmpty = false :=
    (nonBlank_iff _).mp ((nonBlank_iff title).mpr filled).trim
  rw [sanitizeFilename_plain plain,undotted,String.ofList_toList]
  dsimp only
  rw [full]
  rfl

theorem blank_subject_lost (marks : env.KeepsMarks) {m : Json} {subject : String} (given : m.strAt "subject" = some subject)
    (blank : isBlankText subject = true) (n : Nat) :
    normalizeSubject env (noteStem (sanitizeFilename (noteTitle m)) n) ≠ normalizeSubject env subject := by
  intro same
  have dashes := count_normalizeSubject (c := '-') (by decide) (by decide) marks.dash
  have title : ∃ id,noteTitle m = "memory-" ++ id := by
    rw [noteTitle,given,Option.filter_some,blank]
    exact ⟨_,rfl⟩
  obtain ⟨id,title⟩ := title
  have count := congrArg (fun s => s.toList.count '-') same
  have mark : ("memory-" : String).toList.count '-' = 1 := by decide
  have none : subject.toList.count '-' = 0 := by
    rw [← count_trimMatches (p := isWhitespace) (by decide),← toList_trim,String.isEmpty_iff.mp blank]
    rfl
  simp only [dashes,count_noteStem,count_sanitizeFilename,title,String.toList_append,List.count_append,mark,none] at count
  omega

/-- The name of a note says its subject exactly if the subject needs no other name, and no note before took this one. -/
theorem noteStem_kept_iff (marks : env.KeepsMarks) {m : Json} {subject : String} (given : m.strAt "subject" = some subject)
    (earlier : List String) :
    normalizeSubject env (noteStem (sanitizeFilename (noteTitle m)) (earlier.count (sanitizeFilename (noteTitle m)))) =
        normalizeSubject env subject ↔
      isBlankText subject = false ∧ (∀ c ∈ subject.toList, isForbidden c = false) ∧
        (trim subject).toList.head? ≠ some '.' ∧ (trim subject).toList.getLast? ≠ some '.' ∧
        sanitizeFilename subject ∉ earlier := by
  have dashes := count_normalizeSubject (c := '-') (by decide) (by decide) marks.dash
  have dots := count_normalizeSubject (c := '.') (by decide) (by decide) marks.dot
  cases blank : isBlankText subject with
  | true => exact iff_of_false (blank_subject_lost marks given blank _) (fun plain => Bool.noConfusion plain.1)
  | false =>
    have title : noteTitle m = subject := by
      rw [noteTitle,given,Option.filter_some,blank]
      rfl
    rw [title]
    constructor
    · intro same
      have count := congrArg (fun s => s.toList.count '-') same
      simp only [dashes,count_noteStem,count_sanitizeFilename] at count
      have plain : ∀ c ∈ subject.toList, isForbidden c = false := by
        have none : subject.toList.countP isForbidden = 0 := by omega
        intro c inside
        exact Bool.eq_false_iff.mpr (List.countP_eq_zero.mp none c inside)
      have first : earlier.count (sanitizeFilename subject) = 0 := by
        by_contra used
        rw [if_neg used] at count
        omega
      rw [first,noteStem_zero] at same
      have dotted := congrArg (fun s => s.toList.count '.') same
      simp only [dots] at dotted
      obtain ⟨front,back⟩ := trim_ne_dotted (undotted_of_count plain dotted)
      exact ⟨rfl,plain,front,back,List.count_eq_zero.mp first⟩
    · rintro ⟨_,plain,front,back,fresh⟩
      have name := sanitizeFilename_kept blank plain front back
      have first := List.count_eq_zero.mpr fresh
      rw [first,noteStem_zero,name,normalizeSubject_trim,normalizeSubject_trim]

end
end Ecphoria
