import Ecphoria.Ingest.NoteLinks
import Ecphoria.Ingest.NoteTitles

/-! The export of memories to a vault of notes. Each memory is written to a file of its own name, one after the other, and a
file that is written again is replaced. -/
namespace Ecphoria
open Library

abbrev Vault := List (String × List Char)

def memoriesOf (mems : Json) : List Json :=
  match mems.get "memories" with
  | some (.arr items) => items
  | _ => []

def noteBase (m : Json) : String := sanitizeFilename (noteTitle m)

section
/- `takes` are the names that the file system takes. -/
variable (env : Env) (takes : String → Bool)

/-- The notes of the memories, up to the first whose file cannot be written. -/
def writeNotes (links : List (String × String)) : (String → Nat) → Vault → List Json → Bool × Vault
  | _,vault,[] => (true,vault)
  | used,vault,m :: rest =>
    let base := noteBase m
    let fname := noteFile base (used base)
    if takes fname then writeNotes links (countUp used base) (insertEntry vault (fname,renderNote env m links)) rest
    else (false,vault)

/-- The export of what the two queries answer. -/
def runObsidian (mems edges : Json) : Bool × Vault :=
  let memories := memoriesOf mems
  if memories.isEmpty then (true,[]) else writeNotes env takes (linkMap edges) (fun _ => 0) [] memories

/-- Each memory has a file of its own, from which it is read back. -/
structure Exported (mems edges : Json) (outcome : Bool × Vault) : Prop where
  done : outcome.1 = true
  distinct : (outcome.2.map Prod.fst).Nodup
  each : List.Forall₂ (fun m file => ∀ subject,m.strAt "subject" = some subject →
    Restores env m subject (outgoing (linkMap edges) m) (parseNote file.1 file.2)) (memoriesOf mems) outcome.2

/-- The file system takes all names, and no numbered name is the name of another note. -/
structure NamesKept (bases : List String) : Prop where
  taken : ∀ base ∈ bases, ∀ n < bases.count base, takes (noteFile base n) = true
  apart : ∀ base ∈ bases, ∀ other ∈ bases, ∀ n, 0 < n → n < bases.count other → noteFile base 0 ≠ noteFile other n

end

theorem noteFile_inj {a b : String} {k l : Nat} (same : noteFile a k = noteFile b l) : noteStem a k = noteStem b l := by
  rw [noteFile_eq,noteFile_eq] at same
  have chars := congrArg String.toList same
  rw [String.toList_append,String.toList_append] at chars
  exact String.toList_inj.mp (List.append_cancel_right chars)

theorem noteStem_numbered {a b : String} {k l : Nat} (left : 0 < k) (right : 0 < l) (same : noteStem a k = noteStem b l) :
    a = b ∧ k = l := by
  rw [noteStem,noteStem,if_neg (Nat.ne_of_gt left),if_neg (Nat.ne_of_gt right)] at same
  have chars := congrArg (fun s => s.toList.reverse) same
  have mark : ("-" : String).toList.reverse = ['-'] := by decide
  have plain (n : Nat) : '-' ∉ (toString n).toList.reverse := fun inside => digits_plain n (List.mem_reverse.mp inside)
  simp only [String.toList_append,List.reverse_append,mark,List.singleton_append] at chars
  obtain ⟨digits,names⟩ := (separated_inj (plain k) (plain l)).mp chars
  have numbers := List.reverse_inj.mp digits
  rw [toList_number,toList_number] at numbers
  refine ⟨String.toList_inj.mp (List.reverse_inj.mp names),?_⟩
  have value (n : Nat) : Nat.ofDigitChars 10 (Nat.toDigits 10 n) 0 = n := Nat.ofDigitChars_toDigits (by decide) (by decide)
  rw [← value k,numbers,value l]

section
variable {env : Env} {takes : String → Bool}

theorem parseNote_kept (plain : ∀ v, '\n' ∉ (env.jsonText v).toList) {m : Json}
    (kept : ∀ field ∈ frontFields env m, ¬fence <:+: field.2) (links : List (String × String)) (file : String) :
    parseNote file (renderNote env m links) = ⟨((frontFields env m).flatMap innerTitles).getLast?.getD (fileStem file),
      '\n' :: (contentOf m ++ '\n' :: linksSection (outgoing links m)),frontOf (frontMatter env m),
      extractWikilinks ('\n' :: (contentOf m ++ '\n' :: linksSection (outgoing links m)))⟩ := by
  rw [parseNote,splitFrontmatter_kept plain kept]
  dsimp only
  rw [title_given plain]

/-- A note gives its memory back exactly under the condition on its fields, its title and its links. -/
theorem restores_iff (marks : env.KeepsMarks) (plain : ∀ v, '\n' ∉ (env.jsonText v).toList) {m : Json} {subject : String}
    (given : m.strAt "subject" = some subject) (links : List (String × String)) (earlier : List String) :
    Restores env m subject (outgoing links m)
        (parseNote (noteFile (noteBase m) (earlier.count (noteBase m))) (renderNote env m links)) ↔
      NoteKept env m subject (outgoing links m) earlier := by
  by_cases kept : ∀ field ∈ frontFields env m, ¬fence <:+: field.2
  · have read := parseNote_kept plain kept links (noteFile (noteBase m) (earlier.count (noteBase m)))
    have title : normalizeSubject env (parseNote (noteFile (noteBase m) (earlier.count (noteBase m)))
        (renderNote env m links)).title = normalizeSubject env subject ↔ TitleKept env m subject earlier := by
      rw [read,TitleKept]
      cases ((frontFields env m).flatMap innerTitles).getLast? with
      | some title => exact Iff.rfl
      | none =>
        dsimp only
        have named : noteBase m ≠ "" := sanitizeFilename_ne_empty (noteTitle m)
        rw [Option.getD_none,noteFile_eq,fileStem_md (noteStem_ne_empty named _)]
        exact noteStem_kept_iff marks given earlier
    have found : (parseNote (noteFile (noteBase m) (earlier.count (noteBase m))) (renderNote env m links)).links =
        extractWikilinks ('\n' :: (contentOf m ++ '\n' :: linksSection (outgoing links m))) := by
      rw [read]
    constructor
    · intro restores
      refine ⟨kept,title.mp restores.title,(linksKept_iff _ _).mp ?_⟩
      rw [← found]
      exact restores.links
    · intro holds
      refine ⟨title.mpr holds.title,(body_iff plain links _).mpr kept,?_⟩
      rw [found]
      exact (linksKept_iff _ _).mpr holds.links
  · exact iff_of_false (fun restores => kept ((body_iff plain links _).mp restores.body)) (fun holds => kept holds.fields)

def noteFiles (env : Env) (links : List (String × String)) (used : String → Nat) (memories : List Json) : Vault :=
  memories.zipWith (fun m entry => (noteFile (noteBase m) entry.2,renderNote env m links))
    (numberedFrom used (memories.map noteBase))

theorem noteFiles_cons (links : List (String × String)) (used : String → Nat) (m : Json) (rest : List Json) :
    noteFiles env links used (m :: rest) = (noteFile (noteBase m) (used (noteBase m)),renderNote env m links) ::
      noteFiles env links (countUp used (noteBase m)) rest := rfl

theorem names_noteFiles (links : List (String × String)) (used : String → Nat) (memories : List Json) :
    (noteFiles env links used memories).map Prod.fst =
      (numberedFrom used (memories.map noteBase)).map (fun entry => noteFile entry.1 entry.2) := by
  induction memories generalizing used with
  | nil => rfl
  | cons m rest ih => rw [noteFiles_cons,List.map_cons,ih,List.map_cons,numberedFrom,List.map_cons]

theorem length_noteFiles (links : List (String × String)) (used : String → Nat) (memories : List Json) :
    (noteFiles env links used memories).length = memories.length := by
  induction memories generalizing used with
  | nil => rfl
  | cons m rest ih => rw [noteFiles_cons,List.length_cons,ih,List.length_cons]

theorem writeNotes_done (links : List (String × String)) (used : String → Nat) (vault : Vault) (memories : List Json) :
    (writeNotes env takes links used vault memories).1 = true ↔
      ∀ file ∈ noteFiles env links used memories, takes file.1 = true := by
  induction memories generalizing used vault with
  | nil => exact iff_of_true rfl (fun file inside => absurd inside List.not_mem_nil)
  | cons m rest ih =>
    rw [writeNotes,noteFiles_cons,List.forall_mem_cons]
    dsimp only
    split
    next taken => exact (ih _ _).trans (and_iff_right taken).symm
    next refused => exact iff_of_false Bool.false_ne_true (fun all => refused all.1)

theorem writeNotes_files (links : List (String × String)) (used : String → Nat) (vault : Vault) (memories : List Json)
    (done : (writeNotes env takes links used vault memories).1 = true) :
    (writeNotes env takes links used vault memories).2 = (noteFiles env links used memories).foldl insertEntry vault := by
  induction memories generalizing used vault with
  | nil => rfl
  | cons m rest ih =>
    rw [writeNotes] at done ⊢
    split at done
    next taken =>
      rw [if_pos taken,ih _ _ done,noteFiles_cons,List.foldl_cons]
    next => cases done

variable (env) in
theorem namesKept_iff (links : List (String × String)) (memories : List Json) :
    ((∀ file ∈ noteFiles env links (fun _ => 0) memories, takes file.1 = true) ∧
        ((noteFiles env links (fun _ => 0) memories).map Prod.fst).Nodup) ↔ NamesKept takes (memories.map noteBase) := by
  have listed {base : String} {n : Nat} :
      (base,n) ∈ numberedFrom (fun _ => 0) (memories.map noteBase) ↔ n < (memories.map noteBase).count base := by
    rw [mem_numberedFrom]
    simp
  have names : (∀ file ∈ noteFiles env links (fun _ => 0) memories, takes file.1 = true) ↔
      ∀ base ∈ memories.map noteBase, ∀ n < (memories.map noteBase).count base, takes (noteFile base n) = true := by
    have mapped : (∀ file ∈ noteFiles env links (fun _ => 0) memories, takes file.1 = true) ↔
        ∀ name ∈ (noteFiles env links (fun _ => 0) memories).map Prod.fst, takes name = true :=
      (List.forall_mem_map (P := fun name => takes name = true)).symm
    rw [mapped,names_noteFiles]
    constructor
    · intro all base _ n below
      exact all _ (List.mem_map.mpr ⟨(base,n),listed.mpr below,rfl⟩)
    · intro all name inside
      obtain ⟨⟨base,n⟩,there,rfl⟩ := List.mem_map.mp inside
      have below := listed.mp there
      exact all base (List.count_pos_iff.mp (Nat.lt_of_le_of_lt (Nat.zero_le n) below)) n below
  have distinct := @nodup_names_iff _ _ _ noteFile (memories.map noteBase) (fun a b same => noteFile_inj same)
    (fun a b k l left right same => noteStem_numbered left right (noteFile_inj same))
  rw [names,names_noteFiles,distinct]
  exact ⟨fun both => ⟨both.1,both.2⟩,fun kept => ⟨kept.taken,kept.apart⟩⟩

theorem export_iff (marks : env.KeepsMarks) (plain : ∀ v, '\n' ∉ (env.jsonText v).toList) (takes : String → Bool)
    (mems edges : Json) :
    Exported env mems edges (runObsidian env takes mems edges) ↔
      NamesKept takes ((memoriesOf mems).map noteBase) ∧
        ∀ before m after,memoriesOf mems = before ++ m :: after → ∀ subject,m.strAt "subject" = some subject →
          NoteKept env m subject (outgoing (linkMap edges) m) (before.map noteBase) := by
  have ran : runObsidian env takes mems edges = writeNotes env takes (linkMap edges) (fun _ => 0) [] (memoriesOf mems) := by
    rw [runObsidian]
    cases memoriesOf mems <;> rfl
  have each := @forall₂_numbered_iff _ _ _ _ (fun m (file : String × List Char) => ∀ subject,m.strAt "subject" = some subject →
    Restores env m subject (outgoing (linkMap edges) m) (parseNote file.1 file.2)) noteBase
    (fun m n => (noteFile (noteBase m) n,renderNote env m (linkMap edges))) (fun _ => 0) (memoriesOf mems)
  have notes : List.Forall₂ (fun m (file : String × List Char) => ∀ subject,m.strAt "subject" = some subject →
      Restores env m subject (outgoing (linkMap edges) m) (parseNote file.1 file.2)) (memoriesOf mems)
        (noteFiles env (linkMap edges) (fun _ => 0) (memoriesOf mems)) ↔
      ∀ before m after,memoriesOf mems = before ++ m :: after → ∀ subject,m.strAt "subject" = some subject →
        NoteKept env m subject (outgoing (linkMap edges) m) (before.map noteBase) := by
    refine each.trans (forall_congr' fun before => forall_congr' fun m => forall_congr' fun after => forall_congr' fun _ =>
      forall_congr' fun subject => forall_congr' fun given => ?_)
    rw [Nat.zero_add]
    exact restores_iff marks plain given (linkMap edges) (before.map noteBase)
  rw [ran,← namesKept_iff env (linkMap edges),← notes]
  constructor
  · intro exported
    have files := writeNotes_files (linkMap edges) (fun _ => 0) [] (memoriesOf mems) exported.done
    have distinct : ((noteFiles env (linkMap edges) (fun _ => 0) (memoriesOf mems)).map Prod.fst).Nodup := by
      rw [← length_foldl_insertEntry,length_noteFiles,← files,exported.each.length_eq]
    refine ⟨⟨(writeNotes_done _ _ _ _).mp exported.done,distinct⟩,?_⟩
    rw [← foldl_insertEntry distinct,← files]
    exact exported.each
  · rintro ⟨⟨taken,distinct⟩,each⟩
    have done := (writeNotes_done (linkMap edges) (fun _ => 0) [] (memoriesOf mems)).mpr taken
    have files := writeNotes_files (linkMap edges) (fun _ => 0) [] (memoriesOf mems) done
    rw [foldl_insertEntry distinct] at files
    exact ⟨done,files ▸ distinct,files ▸ each⟩

end

/-- ASCII text, with a number that `serde_json` writes as it is. -/
private def plainEnv : Env := { Env.ascii with jsonText := fun _ => "1" }

private theorem plainEnv_marks : plainEnv.KeepsMarks := by
  have kept {mark : Char} (low : mark.toNat < 65) (text : List Char) : (text.map Char.toLower).count mark = text.count mark := by
    induction text with
    | nil => rfl
    | cons c text ih =>
      have same : c.toLower = mark ↔ c = mark := by
        rcases toLower_cases c with ⟨same,_⟩ | ⟨above,_,lowered⟩
        · rw [same]
        · refine iff_of_false ?_ ?_
          · rintro rfl
            omega
          · rintro rfl
            omega
      rw [List.map_cons,List.count_cons,List.count_cons,ih]
      simp only [beq_iff_eq,same]
  have chars (s : String) : (plainEnv.toLowercase s).toList = s.toList.map Char.toLower := String.toList_ofList
  refine ⟨fun s => ?_,fun s => ?_⟩
  · rw [chars,kept (by decide)]
  · rw [chars,kept (by decide)]

private def noted (id subject content : String) : Json :=
  .obj [("id",.str id),("subject",.str subject),("content",.str content),("importance",.int 1)]

private def answered (memories : List Json) : Json := .obj [("memories",.arr memories)]

private def linked (src dst : String) : Json := .obj [("edges",.arr [.obj [("src",.str src),("dst",.str dst)]])]

/-- The second note of a name is replaced by the first one of another, and a slash in a subject does not come back. -/
theorem export_loses :
    ¬Exported plainEnv (answered [noted "1" "a" "x",noted "2" "a" "y",noted "3" "a-1" "z"]) .null
        (runObsidian plainEnv (fun _ => true) (answered [noted "1" "a" "x",noted "2" "a" "y",noted "3" "a-1" "z"]) .null) ∧
      ¬Exported plainEnv (answered [noted "1" "user/city" "Oslo"]) .null
        (runObsidian plainEnv (fun _ => true) (answered [noted "1" "user/city" "Oslo"]) .null) := by
  constructor
  · intro exported
    have size := exported.each.length_eq
    exact absurd size (by decide +kernel)
  · intro exported
    have each := exported.each
    have files : (runObsidian plainEnv (fun _ => true) (answered [noted "1" "user/city" "Oslo"]) .null).2 =
        [("user-city.md",renderNote plainEnv (noted "1" "user/city" "Oslo") [])] := by decide +kernel
    rw [files] at each
    have title := ((List.forall₂_cons.mp each).1 "user/city" rfl).title
    exact absurd title (by decide +kernel)

private theorem noted_kept {id subject content : String} {dsts earlier : List String}
    (fields : ∀ field ∈ frontFields plainEnv (noted id subject content), ¬fence <:+: field.2)
    (untitled : ((frontFields plainEnv (noted id subject content)).flatMap innerTitles).getLast? = none)
    (allowed : subject.toList.all (fun c => isForbidden c = false) = true)
    (named : isBlankText subject = false ∧ (trim subject).toList.head? ≠ some '.' ∧ (trim subject).toList.getLast? ≠ some '.' ∧
      sanitizeFilename subject ∉ earlier) (links : LinksKept (contentOf (noted id subject content)) dsts) :
    NoteKept plainEnv (noted id subject content) subject dsts earlier := by
  refine ⟨fields,?_,links⟩
  rw [TitleKept,untitled]
  exact ⟨named.1,fun c inside => of_decide_eq_true (List.all_eq_true.mp allowed c inside),named.2⟩

/-- A note with one link in its content and one to the target of an edge, which has a note too. -/
private def twoNotes : List Json := [noted "1" "tea" "In a [[cup]].",noted "2" "pot" "Of clay.\n\nOld."]

theorem export_linked : Exported plainEnv (answered twoNotes) (linked "tea" "pot")
    (runObsidian plainEnv (fun _ => true) (answered twoNotes) (linked "tea" "pot")) := by
  have plain (v : Json) : '\n' ∉ (plainEnv.jsonText v).toList := by
    change '\n' ∉ ("1" : String).toList
    decide
  refine (export_iff plainEnv_marks plain _ _ _).mpr ⟨⟨fun _ _ _ _ => rfl,?_⟩,?_⟩
  · intro base inside other there n positive below
    have distinct : ((memoriesOf (answered twoNotes)).map noteBase).Nodup := by decide +kernel
    exact absurd (Nat.lt_of_lt_of_le below (List.nodup_iff_count_le_one.mp distinct other)) (Nat.not_lt.mpr positive)
  · intro before m after whole subject given
    have linked_to : outgoing (linkMap (linked "tea" "pot")) (noted "1" "tea" "In a [[cup]].") = ["pot"] := by decide +kernel
    have no_links : outgoing (linkMap (linked "tea" "pot")) (noted "2" "pot" "Of clay.\n\nOld.") = [] := by decide +kernel
    match before,whole with
    | [],whole =>
      obtain ⟨rfl,-⟩ := List.cons.inj whole
      cases given
      refine noted_kept (by decide +kernel) (by decide +kernel) (by decide +kernel) (by decide +kernel) ?_
      rw [linked_to]
      intro dst inside
      obtain rfl := List.mem_singleton.mp inside
      exact .inr ⟨linkText "pot",by decide +kernel,by decide +kernel⟩
    | [first],whole =>
      obtain ⟨rfl,rest⟩ := List.cons.inj whole
      obtain ⟨rfl,-⟩ := List.cons.inj rest
      cases given
      refine noted_kept (by decide +kernel) (by decide +kernel) (by decide +kernel) (by decide +kernel) ?_
      rw [no_links]
      exact nofun
    | first :: second :: before,whole =>
      have longer := congrArg List.length whole
      simp [memoriesOf,answered,twoNotes,Json.get] at longer

end Ecphoria
