import Ecphoria.Cognition.Subjects
import Ecphoria.Ingest.Chunk
import Ecphoria.Library.HeaderMap
import Ecphoria.Library.Lines
import Ecphoria.Library.Markers
import Ecphoria.Library.Trim

/-! Notes of a vault. A memory is written as front matter, its content and the links of its subject; a note is read back
without knowing where the parts of the text came from. -/
namespace Ecphoria
open Library

def Json.strAt (m : Json) (name : String) : Option String := (m.get name).bind Json.asStr

/-- The sources and targets of the edges that have both. -/
def linkMap (edges : Json) : List (String × String) :=
  match edges.get "edges" with
  | some (.arr items) =>
    items.filterMap (fun e => (e.strAt "src").bind (fun src => (e.strAt "dst").map (fun dst => (src,dst))))
  | _ => []

def isBlankText (s : String) : Bool := (trim s).isEmpty

def noteTitle (m : Json) : String :=
  match (m.strAt "subject").filter (fun s => !isBlankText s) with
  | some s => s
  | none =>
    let id := ((m.strAt "id").getD "memory").toList
    "memory-" ++ String.ofList ((id.splitOn '-').headD id)

def isControl (c : Char) : Bool := c.toNat < 0x20 || (0x7F ≤ c.toNat && c.toNat ≤ 0x9F)

def isForbidden (c : Char) : Bool := "/\\:*?\"<>|#^[]".toList.contains c || isControl c

def sanitizeFilename (title : String) : String :=
  let cleaned := String.ofList (title.toList.map (fun c => if isForbidden c then '-' else c))
  let trimmed := trim (String.ofList (trimMatches (· == '.') (trim cleaned).toList))
  if trimmed.isEmpty then "untitled" else trimmed

def escapeQuotes (s : List Char) : List Char := s.flatMap (fun c => if c = '"' then ['\\','"'] else [c])

def fmStr (m : Json) (key name : String) : List (String × List Char) :=
  (m.strAt name).toList.map (fun s => (key,'"' :: (escapeQuotes s.toList ++ ['"'])))

def fmRaw (env : Env) (m : Json) (key : String) : List (String × List Char) :=
  match m.get key with
  | none => []
  | some .null => []
  | some v => [(key,(env.jsonText v).toList)]

def frontFields (env : Env) (m : Json) : List (String × List Char) :=
  fmStr m "id" "id" ++ fmStr m "subject" "subject" ++ fmStr m "type" "mem_type" ++ fmRaw env m "importance" ++
    fmStr m "valid_from" "valid_from" ++ fmStr m "valid_to" "valid_to" ++ fmStr m "state" "state" ++
    ["tenant_id","user_id","agent_id","session_id"].flatMap (fun key => fmStr m key key)

def frontLine (field : String × List Char) : List Char := field.1.toList ++ ": ".toList ++ field.2 ++ ['\n']

def linkLine (dst : String) : List Char := "- [[".toList ++ dst.toList ++ "]]\n".toList

def linksSection (dsts : List String) : List Char :=
  if dsts.isEmpty then [] else "\n## Links\n".toList ++ dsts.flatMap linkLine

/-- The targets of the edges whose source is the subject. -/
def outgoing (links : List (String × String)) (m : Json) : List String :=
  match m.strAt "subject" with
  | some subject => valuesOf links subject
  | none => []

def contentOf (m : Json) : List Char := ((m.strAt "content").getD "").toList

def frontOpening : List Char := "---\n".toList

def frontClosing : List Char := "source: ecphoria\n---\n\n".toList

def renderNote (env : Env) (m : Json) (links : List (String × String)) : List Char :=
  frontOpening ++ (frontFields env m).flatMap frontLine ++ frontClosing ++ contentOf m ++ ['\n'] ++
    linksSection (outgoing links m)

structure Note where
  title : String
  body : List Char
  frontmatter : Json
  links : List String

/-- A line `key: value`, without the blanks and quotes around. -/
def frontEntry (line : String) : Option (String × String) :=
  (splitOnce ':' line.toList).bind (fun (k,v) =>
    let key := trim (String.ofList k)
    let value := String.ofList (trimMatches (· == '"') (trim (String.ofList v)).toList)
    if key.isEmpty then none else some (key,value))

def frontOf (fm : List Char) : Json :=
  .obj (((Chunk.lines (String.ofList fm)).filterMap frontEntry).foldl
    (fun fields entry => Json.insertField entry.1 (.str entry.2) fields) [])

def splitFrontmatter (content : List Char) : Json × List Char :=
  if frontOpening.isPrefixOf content then
    let rest := content.drop 4
    match cutAt "\n---\n".toList rest with
    | some (fm,body) => (frontOf fm,body)
    | none =>
      -- a fence at the very end
      if "\n---".toList.isSuffixOf rest then (frontOf (rest.take (rest.length - 4)),[]) else (.obj [],content)
  else (.obj [],content)

def wikilinkTarget (inner : List Char) : String :=
  trim (String.ofList ((inner.takeWhile (· ≠ '|')).takeWhile (· ≠ '#')))

def extractWikilinks (text : List Char) : List String :=
  (enclosed ['[','['] [']',']'] text).foldl (fun out inner =>
    let target := wikilinkTarget inner
    if target.isEmpty || out.contains target then out else out ++ [target]) []

def fileStem (name : String) : String :=
  let front := (name.toList.reverse.dropWhile (· ≠ '.')).drop 1
  if front.isEmpty then name else String.ofList front.reverse

def parseNote (file : String) (content : List Char) : Note :=
  let (frontmatter,body) := splitFrontmatter content
  ⟨(frontmatter.strAt "title").getD (fileStem file),body,frontmatter,extractWikilinks body⟩

def innerLines (text : List Char) : List (List Char) := trimMatches (fun line => line.all isWhitespace) (text.splitOn '\n')

structure Restores (env : Env) (m : Json) (subject : String) (dsts : List String) (note : Note) : Prop where
  title : normalizeSubject env note.title = normalizeSubject env subject
  body : ∃ front,note.body = front ++ linksSection dsts ∧ innerLines front = innerLines (contentOf m)
  links : ∀ dst ∈ dsts, dst ∈ note.links

def fence : List Char := "\n---\n".toList

/-- What the lines behind the first line of a field give as the title. -/
def innerTitles (field : String × List Char) : List String :=
  valuesOf ((field.2.splitOn '\n').tail.filterMap (fun line => frontEntry (String.ofList line))) "title"

/-- Where a field has a line that gives a title, the last one is the subject. Otherwise the subject makes the name of the
note as it is, apart from blanks around it. -/
def TitleKept (env : Env) (m : Json) (subject : String) (earlier : List String) : Prop :=
  match ((frontFields env m).flatMap innerTitles).getLast? with
  | some title => normalizeSubject env title = normalizeSubject env subject
  | none => isBlankText subject = false ∧ (∀ c ∈ subject.toList, isForbidden c = false) ∧
      (trim subject).toList.head? ≠ some '.' ∧ (trim subject).toList.getLast? ≠ some '.' ∧ sanitizeFilename subject ∉ earlier

/-- The links of a section, each on its own. A link that the content leaves open takes the first of them for a heading. -/
def linkTexts (left : Bool) : List String → List (List Char)
  | [] => []
  | dst :: dsts => ("[[".toList ++ (if left then "#" else "").toList ++ dst.toList ++ "]]".toList) ::
      dsts.map (fun dst => "[[".toList ++ dst.toList ++ "]]".toList)

/-- Each target is read from the content, with its last line at the end of what it leaves open, or from the link to a target. -/
def LinksKept (content : List Char) (dsts : List String) : Prop :=
  ∀ dst ∈ dsts, dst ∈ extractWikilinks (content ++ "\n]]".toList) ∨
    ∃ text ∈ linkTexts (openTail ['[','['] [']',']'] content).isSome dsts, dst ∈ extractWikilinks text

structure NoteKept (env : Env) (m : Json) (subject : String) (dsts earlier : List String) : Prop where
  fields : ∀ field ∈ frontFields env m, ¬fence <:+: field.2
  title : TitleKept env m subject earlier
  links : LinksKept (contentOf m) dsts

section
variable {env : Env} {m : Json}

def frontKeys : List String :=
  ["id","subject","type","importance","valid_from","valid_to","state","tenant_id","user_id","agent_id","session_id"]

theorem frontFields_shape (plain : ∀ v, '\n' ∉ (env.jsonText v).toList) : ∀ field ∈ frontFields env m,
    field.1 ∈ frontKeys ∧ ((∃ s,field.2 = s ++ ['"']) ∨ '\n' ∉ field.2) := by
  intro field inside
  have text {key name : String} (listed : key ∈ frontKeys) (here : field ∈ fmStr m key name) :
      field.1 ∈ frontKeys ∧ ((∃ s,field.2 = s ++ ['"']) ∨ '\n' ∉ field.2) := by
    obtain ⟨s,_,rfl⟩ := List.mem_map.mp here
    exact ⟨listed,.inl ⟨'"' :: escapeQuotes s.toList,rfl⟩⟩
  have raw {key : String} (listed : key ∈ frontKeys) (here : field ∈ fmRaw env m key) :
      field.1 ∈ frontKeys ∧ ((∃ s,field.2 = s ++ ['"']) ∨ '\n' ∉ field.2) := by
    unfold fmRaw at here
    split at here
    · cases here
    · cases here
    · rw [List.mem_singleton.mp here]
      exact ⟨listed,.inr (plain _)⟩
  simp only [frontFields,List.mem_append,List.mem_flatMap] at inside
  rcases inside with ((((((id | subject) | type) | importance) | start) | stop) | state) | ⟨key,listed,scope⟩
  · exact text (by decide) id
  · exact text (by decide) subject
  · exact text (by decide) type
  · exact raw (by decide) importance
  · exact text (by decide) start
  · exact text (by decide) stop
  · exact text (by decide) state
  · have among : ["tenant_id","user_id","agent_id","session_id"] ⊆ frontKeys := by decide
    exact text (among listed) scope

def frontText (field : String × List Char) : List Char := field.1.toList ++ ": ".toList ++ field.2

def frontMatter (env : Env) (m : Json) : List Char := (frontFields env m).flatMap frontLine ++ "source: ecphoria".toList

theorem splitOn_front (fields : List (String × List Char)) {last : List Char} (plain : '\n' ∉ last) :
    (fields.flatMap frontLine ++ last).splitOn '\n' = fields.flatMap (fun field => (frontText field).splitOn '\n') ++ [last] := by
  induction fields with
  | nil => exact List.splitOn_eq_singleton plain
  | cons field fields ih =>
    have shape : (field :: fields).flatMap frontLine ++ last =
        frontText field ++ '\n' :: (fields.flatMap frontLine ++ last) := by
      rw [List.flatMap_cons,frontLine,frontText]
      simp only [List.append_assoc,List.cons_append,List.nil_append]
    rw [shape,List.splitOn_append_cons_self,ih,List.flatMap_cons,List.append_assoc]

theorem splitOn_frontText {field : String × List Char} (listed : field.1 ∈ frontKeys) :
    ∃ first,(frontText field).splitOn '\n' = (field.1.toList ++ ':' :: first) :: (field.2.splitOn '\n').tail := by
  have plain : ∀ key ∈ frontKeys, '\n' ∉ key.toList ++ ": ".toList := by decide
  obtain ⟨first,rest,parts⟩ := List.exists_cons_of_ne_nil (List.splitOn_ne_nil '\n' field.2)
  refine ⟨' ' :: first,?_⟩
  rw [frontText,splitOn_append_plain (plain field.1 listed),parts]
  simp

theorem renderNote_eq (links : List (String × String)) :
    renderNote env m links = frontOpening ++ (frontMatter env m ++ fence ++
      ('\n' :: (contentOf m ++ '\n' :: linksSection (outgoing links m)))) := by
  have closing : frontClosing = "source: ecphoria".toList ++ fence ++ ['\n'] := by decide
  rw [renderNote,frontMatter,closing]
  simp only [List.append_assoc,List.cons_append,List.nil_append]

theorem fence_inside (plain : ∀ v, '\n' ∉ (env.jsonText v).toList)
    (inside : "---".toList ∈ ((frontMatter env m).splitOn '\n')) : ∃ field ∈ frontFields env m, fence <:+: field.2 := by
  rw [frontMatter,splitOn_front _ (by decide),List.mem_append] at inside
  rcases inside with inside | last
  · obtain ⟨field,there,line⟩ := List.mem_flatMap.mp inside
    obtain ⟨listed,shape⟩ := frontFields_shape plain field there
    obtain ⟨first,parts⟩ := splitOn_frontText listed
    rw [parts] at line
    have tail : "---".toList ∈ (field.2.splitOn '\n').tail := by
      rcases List.mem_cons.mp line with head | tail
      · have colon : ':' ∈ "---".toList := head ▸ List.mem_append_right _ List.mem_cons_self
        exact absurd colon (by decide)
      · exact tail
    refine ⟨field,there,(@infix_line_iff _ _ '\n' "---".toList _ (by decide)).mpr ?_⟩
    rcases shape with ⟨s,ends⟩ | single
    · obtain ⟨front,last,_,parts⟩ := @splitOn_concat_plain _ _ '\n' ['"'] (by decide) s
      rw [ends,parts] at tail ⊢
      cases front with
      | nil => cases tail
      | cons line front =>
        rw [List.cons_append,List.tail_cons] at tail ⊢
        rw [List.dropLast_concat]
        rcases List.mem_append.mp tail with here | last
        · exact here
        · have quote : '"' ∈ "---".toList := List.mem_singleton.mp last ▸ List.mem_append_right _ (List.mem_singleton_self _)
          exact absurd quote (by decide)
    · rw [List.splitOn_eq_singleton single] at tail
      cases tail
  · exact absurd last (by decide)

theorem splitFrontmatter_kept (plain : ∀ v, '\n' ∉ (env.jsonText v).toList)
    (kept : ∀ field ∈ frontFields env m, ¬fence <:+: field.2) (links : List (String × String)) :
    splitFrontmatter (renderNote env m links) =
      (frontOf (frontMatter env m),'\n' :: (contentOf m ++ '\n' :: linksSection (outgoing links m))) := by
  have earliest : ¬fence <:+: frontMatter env m ++ fence.dropLast := by
    intro inside
    have line := (@infix_line_iff _ _ '\n' "---".toList _ (by decide)).mp inside
    have shape : frontMatter env m ++ fence.dropLast = frontMatter env m ++ '\n' :: "---".toList := rfl
    have bar : "---".toList.splitOn '\n' = ["---".toList] := by decide
    rw [shape,List.splitOn_append_cons_self,bar,List.tail_append_of_ne_nil (List.splitOn_ne_nil _ _),List.dropLast_concat] at line
    obtain ⟨field,there,found⟩ := fence_inside plain (List.mem_of_mem_tail line)
    exact kept field there found
  have cut (body : List Char) : cutAt fence (frontMatter env m ++ fence ++ body) = some (frontMatter env m,body) :=
    (cutAt_eq_some (by decide)).mpr ⟨rfl,earliest⟩
  have starts (text : List Char) : frontOpening.isPrefixOf (frontOpening ++ text) = true :=
    List.isPrefixOf_iff_prefix.mpr (List.prefix_append _ _)
  rw [renderNote_eq,splitFrontmatter,if_pos (starts _)]
  have drop (text : List Char) : (frontOpening ++ text).drop 4 = text := @List.drop_left _ frontOpening text
  rw [drop]
  dsimp only
  rw [show "\n---\n".toList = fence from rfl,cut]
/-- A fence inside a field cuts the note there: what stands behind it in the front matter is taken for the body. -/
theorem splitFrontmatter_cut {field : String × List Char} (there : field ∈ frontFields env m) (inside : fence <:+: field.2)
    (links : List (String × String)) : ∃ fm rest,splitFrontmatter (renderNote env m links) =
      (frontOf fm,rest ++ "source: ecphoria".toList ++ fence ++
        ('\n' :: (contentOf m ++ '\n' :: linksSection (outgoing links m)))) := by
  have within : fence <:+: (frontFields env m).flatMap frontLine := by
    obtain ⟨before,after,split⟩ := List.append_of_mem there
    rw [split,List.flatMap_append,List.flatMap_cons]
    refine inside.trans ⟨before.flatMap frontLine ++ (field.1.toList ++ ": ".toList),'\n' :: after.flatMap frontLine,?_⟩
    rw [frontLine]
    simp only [List.append_assoc,List.cons_append,List.nil_append]
  obtain ⟨⟨fm,rest⟩,cut⟩ : ∃ parts,cutAt fence ((frontFields env m).flatMap frontLine) = some parts := by
    cases cut : cutAt fence ((frontFields env m).flatMap frontLine) with
    | none => exact absurd within ((cutAt_eq_none (by decide)).mp cut)
    | some parts => exact ⟨parts,rfl⟩
  refine ⟨fm,rest,?_⟩
  have starts (text : List Char) : frontOpening.isPrefixOf (frontOpening ++ text) = true :=
    List.isPrefixOf_iff_prefix.mpr (List.prefix_append _ _)
  have drop (text : List Char) : (frontOpening ++ text).drop 4 = text := @List.drop_left _ frontOpening text
  rw [renderNote_eq,splitFrontmatter,if_pos (starts _),drop]
  dsimp only
  rw [show "\n---\n".toList = fence from rfl,frontMatter,List.append_assoc,List.append_assoc,
    cutAt_append (by decide) _ cut]
  simp only [List.append_assoc]

theorem innerLines_framed (text : List Char) : innerLines ('\n' :: (text ++ ['\n'])) = innerLines text := by
  have parts : ('\n' :: (text ++ ['\n'])).splitOn '\n' = [] :: (text.splitOn '\n' ++ [[]]) := by
    have back := List.splitOn_append_cons_self (a := '\n') text []
    have front := List.splitOn_append_cons_self (a := '\n') [] (text ++ ['\n'])
    rw [back] at front
    exact front
  rw [innerLines,parts,trimMatches_cons rfl,trimMatches_concat rfl,innerLines]

theorem innerLines_fenced (rest content : List Char) :
    innerLines (rest ++ fence ++ ('\n' :: (content ++ ['\n']))) ≠ innerLines content := by
  intro same
  have stays : (("---".toList).all isWhitespace) = false := by decide
  have count := congrArg (@List.count _ instBEqOfDecidableEq "---".toList) same
  have kept (lines : List (List Char)) : @List.count _ instBEqOfDecidableEq "---".toList
      (trimMatches (fun line => line.all isWhitespace) lines) = @List.count _ instBEqOfDecidableEq "---".toList lines :=
    count_trimMatches stays
  rw [innerLines,innerLines,kept,kept] at count
  have shape : rest ++ fence ++ ('\n' :: (content ++ ['\n'])) =
      rest ++ '\n' :: ("---".toList ++ '\n' :: ([] ++ '\n' :: (content ++ '\n' :: []))) := by
    rw [show fence = '\n' :: ("---".toList ++ ['\n']) from rfl]
    simp only [List.append_assoc,List.cons_append,List.nil_append]
  have bar : "---".toList.splitOn '\n' = ["---".toList] := by decide
  rw [shape,List.splitOn_append_cons_self,List.splitOn_append_cons_self,List.splitOn_append_cons_self,
    List.splitOn_append_cons_self,bar] at count
  simp only [List.count_append,List.count_singleton_self] at count
  omega

theorem body_iff (plain : ∀ v, '\n' ∉ (env.jsonText v).toList) (links : List (String × String)) (file : String) :
    (∃ front,(parseNote file (renderNote env m links)).body = front ++ linksSection (outgoing links m) ∧
        innerLines front = innerLines (contentOf m)) ↔ ∀ field ∈ frontFields env m, ¬fence <:+: field.2 := by
  constructor
  · rintro ⟨front,body,same⟩ field there inside
    obtain ⟨fm,rest,cut⟩ := splitFrontmatter_cut there inside links
    rw [parseNote,cut] at body
    have shape : rest ++ "source: ecphoria".toList ++ fence ++ ('\n' :: (contentOf m ++ '\n' :: linksSection (outgoing links m))) =
        rest ++ "source: ecphoria".toList ++ fence ++ ('\n' :: (contentOf m ++ ['\n'])) ++ linksSection (outgoing links m) := by
      simp
    rw [shape,List.append_cancel_right_eq] at body
    rw [← body] at same
    exact innerLines_fenced _ _ same
  · intro kept
    refine ⟨'\n' :: (contentOf m ++ ['\n']),?_,innerLines_framed _⟩
    rw [parseNote,splitFrontmatter_kept plain kept]
    simp

theorem strAt_entries (entries : List (String × String)) (key : String) :
    (Json.obj (entries.foldl (fun fields entry => Json.insertField entry.1 (.str entry.2) fields) [])).strAt key =
      (valuesOf entries key).getLast? := by
  induction entries using List.reverseRecOn with
  | nil => rfl
  | append_singleton entries entry ih =>
    rw [List.foldl_append,List.foldl_cons,List.foldl_nil,valuesOf_append,valuesOf_singleton]
    by_cases own : entry.1 = key
    · rw [if_pos own,List.getLast?_concat,Json.strAt,← own]
      exact congrArg (Option.bind · Json.asStr) (Json.get_insert _ _ _)
    · rw [if_neg own,List.append_nil,← ih]
      exact congrArg (Option.bind · Json.asStr) (Json.get_insert_ne (Ne.symm own) _ (.obj _))

theorem toList_trim (s : String) : (trim s).toList = trimMatches isWhitespace s.toList := by
  simp [trim,trimEnd,trimStart,trimMatches]

theorem frontEntry_carriage (line : List Char) :
    frontEntry (String.ofList (Chunk.stripCarriage line)) = frontEntry (String.ofList line) := by
  rw [Chunk.stripCarriage]
  split
  next last =>
    obtain ⟨rest,rfl⟩ := List.getLast?_eq_some_iff.mp last
    rw [List.dropLast_concat,frontEntry,frontEntry,String.toList_ofList,String.toList_ofList]
    cases found : splitOnce ':' rest with
    | none =>
      have plain : ':' ∉ rest ++ ['\r'] := by
        rw [List.mem_append,not_or]
        exact ⟨splitOnce_eq_none.mp found,by decide⟩
      rw [splitOnce_eq_none.mpr plain]
    | some parts =>
      obtain ⟨k,v⟩ := parts
      have longer : splitOnce ':' (rest ++ ['\r']) = some (k,v ++ ['\r']) := by
        rw [splitOnce_joined found,List.append_assoc]
        exact splitOnce_eq_some (splitOnce_apart found)
      have blank : trim (String.ofList (v ++ ['\r'])) = trim (String.ofList v) := by
        apply String.toList_inj.mp
        rw [toList_trim,toList_trim,String.toList_ofList,String.toList_ofList]
        exact trimMatches_concat rfl v
      rw [longer,Option.bind_some,Option.bind_some]
      dsimp only
      rw [blank]
  next => rfl

theorem valuesOf_title {field : String × List Char} (listed : field.1 ∈ frontKeys) :
    valuesOf (((frontText field).splitOn '\n').filterMap (fun line => frontEntry (String.ofList line))) "title" =
      innerTitles field := by
  have each : ∀ key ∈ frontKeys, ':' ∉ key.toList ∧ trim (String.ofList key.toList) = key ∧ key.isEmpty = false ∧
      key ≠ "title" := by
    decide
  obtain ⟨plain,trimmed,some,other⟩ := each field.1 listed
  obtain ⟨first,parts⟩ := splitOn_frontText listed
  have head : ∃ value,frontEntry (String.ofList (field.1.toList ++ ':' :: first)) = Option.some (field.1,value) := by
    rw [frontEntry,String.toList_ofList,splitOnce_eq_some plain,Option.bind_some]
    dsimp only
    rw [trimmed,some]
    exact ⟨_,rfl⟩
  obtain ⟨value,entry⟩ := head
  rw [parts,List.filterMap_cons_some (f := fun line => frontEntry (String.ofList line)) entry,← List.singleton_append,
    valuesOf_append,valuesOf_singleton,if_neg other]
  rfl

theorem title_given (plain : ∀ v, '\n' ∉ (env.jsonText v).toList) :
    (frontOf (frontMatter env m)).strAt "title" = ((frontFields env m).flatMap innerTitles).getLast? := by
  have parts := @splitOn_front (frontFields env m) "source: ecphoria".toList (by decide)
  have rows : Chunk.lines (String.ofList (frontMatter env m)) =
      ((((frontFields env m).flatMap (fun field => (frontText field).splitOn '\n')).map Chunk.stripCarriage) ++
        ["source: ecphoria".toList]).map String.ofList := by
    rw [Chunk.lines,String.toList_ofList,frontMatter,parts,List.dropLast_concat,List.getLastD_concat]
    rfl
  have last : valuesOf (["source: ecphoria".toList].filterMap (fun line => frontEntry (String.ofList line))) "title" = [] := by
    decide
  have entries : valuesOf ((Chunk.lines (String.ofList (frontMatter env m))).filterMap frontEntry) "title" =
      (frontFields env m).flatMap innerTitles := by
    have unstripped : (frontEntry ∘ String.ofList) ∘ Chunk.stripCarriage = fun line => frontEntry (String.ofList line) :=
      funext frontEntry_carriage
    rw [rows,List.filterMap_map,List.filterMap_append,List.filterMap_map,unstripped,List.filterMap_flatMap,valuesOf_append,
      valuesOf_flatMap]
    refine (congrArg _ last).trans ((List.append_nil _).trans ?_)
    exact List.flatMap_congr (fun field there => valuesOf_title (frontFields_shape plain field there).1)
  rw [frontOf,strAt_entries,entries]

end

theorem mem_extractWikilinks {text : List Char} {target : String} : target ∈ extractWikilinks text ↔
    target ≠ "" ∧ ∃ inner ∈ enclosed ['[','['] [']',']'] text, wikilinkTarget inner = target := by
  have run (found : List (List Char)) (out : List String) :
      target ∈ found.foldl (fun out inner =>
        let target := wikilinkTarget inner
        if target.isEmpty || out.contains target then out else out ++ [target]) out ↔
      target ∈ out ∨ (target ≠ "" ∧ ∃ inner ∈ found, wikilinkTarget inner = target) := by
    induction found generalizing out with
    | nil => simp
    | cons inner found ih =>
      rw [List.foldl_cons,ih]
      simp only [List.exists_mem_cons_iff,Bool.or_eq_true,String.isEmpty_iff,List.contains_iff_mem]
      by_cases empty : wikilinkTarget inner = ""
      · rw [if_pos (.inl empty)]
        constructor
        · rintro (old | ⟨some,later⟩)
          · exact .inl old
          · exact .inr ⟨some,.inr later⟩
        · rintro (old | ⟨some,here | later⟩)
          · exact .inl old
          · exact absurd (here.symm.trans empty) some
          · exact .inr ⟨some,later⟩
      · by_cases known : wikilinkTarget inner ∈ out
        · rw [if_pos (.inr known)]
          constructor
          · rintro (old | ⟨some,later⟩)
            · exact .inl old
            · exact .inr ⟨some,.inr later⟩
          · rintro (old | ⟨some,here | later⟩)
            · exact .inl old
            · exact .inl (here ▸ known)
            · exact .inr ⟨some,later⟩
        · rw [if_neg (fun either => either.elim empty known),List.mem_append,List.mem_singleton]
          constructor
          · rintro ((old | rfl) | ⟨some,later⟩)
            · exact .inl old
            · exact .inr ⟨empty,.inl rfl⟩
            · exact .inr ⟨some,.inr later⟩
          · rintro (old | ⟨some,here | later⟩)
            · exact .inl (.inl old)
            · exact .inl (.inr here.symm)
            · exact .inr ⟨some,later⟩
  rw [extractWikilinks,run]
  simp

end Ecphoria
