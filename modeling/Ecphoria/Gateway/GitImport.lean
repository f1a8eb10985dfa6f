import Ecphoria.Engine.Uploads
import Ecphoria.Gateway.Batches

/-! Imports of a repository's Markdown files. Each run uploads the files it can read and then
reports the uploaded paths, so that the server expires what is not among them. -/
namespace Ecphoria
open Library

/-- A tracked file. Its upload is `sent` when it reaches the server and is answered. -/
structure GitFile where
  rel : String
  markdown : ".md".toList <:+ rel.toList
  content : Option String
  date : Option String
  sent : Bool
  draws : Nat → Draw
  now : Int

def vendored : List String :=
  ["node_modules","vendor","third_party","site-packages",".venv","venv","target","dist"]

def isVendored (importAll : Bool) (path : String) : Bool :=
  if importAll then false else (path.toList.splitOn '/').any (fun segment => String.ofList segment ∈ vendored)

structure ImportRun where
  tracked : List GitFile
  importAll : Bool
  user : Option String
  pruneSent : Bool
  now : Int

/-- The files that are in the repository and not excluded. -/
def ImportRun.files (run : ImportRun) : List GitFile :=
  run.tracked.filter (fun file => !file.rel.isEmpty && !isVendored run.importAll file.rel)

namespace OneNode

variable (env : Env) (e : Engine) (caller : Caller)

/-- `POST /documents` without a cluster. -/
def documentIngest (req : DocumentIngestRequest) (draws : Nat → Draw) (now : Int) : Answer × Engine :=
  if blank req.path then (Rest.missingField "path is required",e)
  else if blank req.content then (Rest.missingField "content is required",e)
  else
    match Ecphoria.documentIngest env e req.document (scopeWithHeader caller req.fields) req.options draws now with
    | (.ok _,e) => (.ok,e)
    | (.error err,e) => (.failed (.error err),e)

/-- `POST /documents/prune` without a cluster. -/
def documentPrune (req : DocumentPruneRequest) (now : Int) : Answer × Engine :=
  if blank req.project then (Rest.missingField "project is required",e)
  else if req.keepPaths.isEmpty then
    (Rest.missingField "keep_paths must not be empty — refusing to expire an entire project",e)
  else
    match Ecphoria.documentPrune env e (scopeWithHeader caller req.fields) req.project req.keepPaths now with
    | (.ok _,e) => (.ok,e)
    | (.error err,e) => (.failed (.error err),e)

end OneNode

/-- For each user and stored document name, the sections of the version that was uploaded last. -/
abbrev FileVersions := Option String → String → Option (List (String × String))

def FileVersions.put (versions : FileVersions) (user : Option String) (document : String) (sections : List (String × String)) :
    FileVersions :=
  fun other name => if other = user ∧ name = document then some sections else versions other name

def FileVersions.restrict (versions : FileVersions) (user : Option String) (documents : List String) : FileVersions :=
  fun other name => if other = user ∧ name ∉ documents then none else versions other name

/-- The engine, the paths that the run has uploaded, and the latest version of each file that is still in the repository:
what has left it is dropped by a run that prunes. -/
structure Documentation where
  engine : Engine
  imported : List String
  versions : FileVersions

section
variable (env : Env) (parseInstant : String → Option Int) (caller : Caller) (project : String)

def docPath (file : GitFile) : String := project ++ "/" ++ file.rel

def docName (file : GitFile) : String := normalizeSubject env (docPath project file)

def ImportRun.documents (run : ImportRun) : List String := run.files.map (docName env project)

/-- The body of an upload as the server reads it; a date that does not parse refuses it. -/
def documentRequest (file : GitFile) (content : String) (user : Option String) : Option DocumentIngestRequest :=
  let request (validFrom : Option Int) : DocumentIngestRequest :=
    ⟨docPath project file,content,validFrom,some (.obj [("source",.str "git")]),none,some project,⟨none,user,none,none⟩⟩
  match file.date with
  | none => some (request none)
  | some text => (parseInstant text).map (fun instant => request (some instant))

def postDocument (e : Engine) (user : Option String) (file : GitFile) (content : String) : Bool × Engine :=
  if !file.sent then (false,e)
  else
    match documentRequest parseInstant project file content user with
    | none => (false,e)
    | some req =>
      match OneNode.documentIngest env e caller req file.draws file.now with
      | (.ok,e) => (true,e)
      | (_,e) => (false,e)

def importFile (user : Option String) (s : Documentation) (file : GitFile) : Documentation :=
  match file.content with
  | none => s
  | some content =>
    if blank content then s
    else
      match postDocument env parseInstant caller project s.engine user file content with
      | (true,e) => ⟨e,s.imported ++ [docPath project file],s.versions.put user (docName env project file)
          (documentSections env (docPath project file) content .default)⟩
      | (false,e) => { s with engine := e }

/-- The prune carries the project and the paths, and no user. -/
def importGit (s : Documentation) (r : ImportRun) : Documentation :=
  let s := run (importFile env parseInstant caller project r.user) { s with imported := [] } r.files
  if s.imported.isEmpty || !r.pruneSent then s
  else
    match OneNode.documentPrune env s.engine caller ⟨project,s.imported,⟨none,none,none,none⟩⟩ r.now with
    | (.ok,e) => ⟨e,s.imported,s.versions.restrict r.user (r.documents env project)⟩
    | (_,e) => { s with engine := e }

def importScope (user : Option String) : MemoryScope := scopeWithHeader caller ⟨none,user,none,none⟩

/-- The active chunks of the project in the scope of the user are the sections of the versions, one for each. -/
structure UpToDate (s : Documentation) (user : Option String) : Prop where
  listed : ∀ row ∈ s.engine.memories.rows, Prunable (importScope caller user) project row.memory →
    ∃ document sections, s.versions user document = some sections ∧ ∃ part ∈ sections,
      row.memory.subject = some part.1 ∧ trim row.memory.content = trim part.2
  held : ∀ document sections, s.versions user document = some sections → ∀ part ∈ sections,
    ∃ row ∈ s.engine.memories.rows, Prunable (importScope caller user) project row.memory ∧
      row.memory.subject = some part.1 ∧ trim row.memory.content = trim part.2
  single : ∀ a ∈ s.engine.memories.rows, Prunable (importScope caller user) project a.memory →
    ∀ b ∈ s.engine.memories.rows, Prunable (importScope caller user) project b.memory →
      a.memory.subject = b.memory.subject → a = b

def Arrives (config : CoreConfig) (user : Option String) (file : GitFile) : Prop :=
  file.sent = true ∧ ∃ content, file.content = some content ∧ blank content = false ∧
    ∃ req, documentRequest parseInstant project file content user = some req ∧
      ∀ input ∈ documentInputs req.document (scopeWithHeader caller req.fields) req.options, Accepts env config input

def ReachesPrune (config : CoreConfig) (r : ImportRun) : Prop :=
  r.pruneSent = true ∧ blank project = false ∧ ∃ file ∈ r.files, Arrives env parseInstant caller project config r.user file

/-- The paths of the run are apart and name their sections, no two sections of a file share a subject, and what the run
prunes from the scope without a user is what left the repository, for the user who imports. -/
structure KeepsCurrent (s : Documentation) (r : ImportRun) : Prop where
  plain : ∀ file ∈ r.files, '#' ∉ (docPath project file).toList
  apart : (r.documents env project).Nodup
  separate : ∀ file ∈ r.files, ∀ content, file.content = some content →
    ((documentSections env (docPath project file) content .default).map Prod.fst).Nodup
  retires : ReachesPrune env parseInstant caller project s.engine.config r →
    (r.user ≠ none → ∀ document sections, s.versions r.user document = some sections → sections ≠ [] →
      document ∈ r.documents env project) ∧
    ∀ document sections, s.versions none document = some sections → sections ≠ [] →
      (r.user = none → document ∈ r.documents env project) →
        ∃ file ∈ r.files, docName env project file = document ∧
          Arrives env parseInstant caller project s.engine.config r.user file

end

section
variable {env : Env} {parseInstant : String → Option Int} {caller : Caller} {project : String} {user : Option String}
  {file : GitFile}

theorem docPath_kept (project : String) (file : GitFile) :
    (∃ c ∈ (docPath project file).toList, isWhitespace c = false) ∧ PathKept (docPath project file) := by
  obtain ⟨before,joined⟩ := file.markdown
  have whole : (docPath project file).toList = (project ++ "/").toList ++ before ++ ['.','m'] ++ ['d'] := by
    rw [docPath,String.toList_append,← joined]
    simp
  refine ⟨⟨'d',by rw [whole]; simp,by decide⟩,Or.inl ?_⟩
  rw [whole,List.getLast?_concat]
  intro c given
  cases given
  decide

theorem documentRequest_fields {content : String} {req : DocumentIngestRequest}
    (read : documentRequest parseInstant project file content user = some req) :
    req.path = docPath project file ∧ req.content = content ∧ req.project = some project ∧
      req.fields = ⟨none,user,none,none⟩ ∧ req.options = .default := by
  unfold documentRequest at read
  split at read
  next =>
    cases read
    exact ⟨rfl,rfl,rfl,rfl,rfl⟩
  next =>
    obtain ⟨instant,_,rfl⟩ := Option.map_eq_some_iff.mp read
    exact ⟨rfl,rfl,rfl,rfl,rfl⟩

theorem documentOf_documentSections (lowercases : env.Lowercases) (plain : '#' ∉ (docPath project file).toList)
    {content : String} {opts : ChunkOptions} {part : String × String}
    (inside : part ∈ documentSections env (docPath project file) content opts) :
    documentOf part.1 = docName env project file := by
  obtain ⟨chunk,listed,rfl⟩ := List.mem_map.mp inside
  exact (documentOf_section lowercases listed _).mpr ⟨plain,Or.inr (docPath_kept project file).2⟩

theorem docName_plain (lowercases : env.Lowercases) (plain : '#' ∉ (docPath project file).toList) :
    '#' ∉ (docName env project file).toList :=
  fun inside => plain ((hash_mem_normalizeSubject lowercases _).mp inside)

theorem documentInputs_keyed (lowercases : env.Lowercases) (plain : '#' ∉ (docPath project file).toList)
    {doc : DocumentIngest} (named : doc.path = docPath project file) (scope : MemoryScope) (opts : ChunkOptions) :
    ∀ input ∈ documentInputs doc scope opts, ∃ raw, input.subject = some raw ∧
      (canonicalInput env input).subject = some (normalizeSubject env raw) := by
  intro input inside
  obtain ⟨chunk,listed,rfl⟩ := mem_documentInputs inside
  refine ⟨_,rfl,?_⟩
  have part : (normalizeSubject env (chunk.1.subject doc.path chunk.2),chunk.1.text) ∈
      documentSections env (docPath project file) doc.content opts := by
    rw [← named]
    exact List.mem_map_of_mem listed
  have owned := documentOf_documentSections lowercases plain part
  change canonicalSubject env (some (chunk.1.subject doc.path chunk.2)) = _
  refine Option.filter_eq_some_iff.mpr ⟨rfl,?_⟩
  rw [Bool.not_eq_true',Bool.eq_false_iff]
  intro empty
  rw [String.isEmpty_iff.mp empty] at owned
  exact normalizeSubject_ne_empty lowercases (docPath_kept project file).1 owned.symm

theorem documentInputs_apart (lowercases : env.Lowercases) (plain : '#' ∉ (docPath project file).toList)
    {doc : DocumentIngest} (named : doc.path = docPath project file) {scope : MemoryScope} {opts : ChunkOptions}
    (separate : ((documentSections env (docPath project file) doc.content opts).map Prod.fst).Nodup) :
    ((documentInputs doc scope opts).map (fun input => (canonicalInput env input).subject)).Nodup := by
  have same : (documentInputs doc scope opts).map (fun input => (canonicalInput env input).subject) =
      ((documentSections env (docPath project file) doc.content opts).map Prod.fst).map some := by
    have keyed := documentInputs_keyed lowercases plain named scope opts
    unfold documentInputs documentSections at *
    rw [List.map_map,List.map_map,List.map_map]
    refine List.map_congr_left ?_
    intro chunk listed
    obtain ⟨raw,about,stored⟩ := keyed _ (List.mem_map_of_mem listed)
    cases about
    rw [← named]
    exact stored
  rw [same]
  exact separate.map (Option.some_injective _)

end

section
variable {env : Env} {parseInstant : String → Option Int} {caller : Caller} {project : String} {user : Option String}

def fileItems (parseInstant : String → Option Int) (caller : Caller) (project : String) (user : Option String)
    (file : GitFile) : List (MemoryInput × Draw) :=
  match file.content.bind (fun content => documentRequest parseInstant project file content user) with
  | none => []
  | some req => documentItems req.document (scopeWithHeader caller req.fields) req.options file.draws

def UploadFresh (parseInstant : String → Option Int) (caller : Caller) (project : String) (user : Option String)
    (s : Documentation) (file : GitFile) : Prop :=
  (∀ item ∈ fileItems parseInstant caller project user file, item.2.id ∉ s.engine.memories.keys) ∧
    ((fileItems parseInstant caller project user file).map (fun item => item.2.id)).Nodup

instance (s : Documentation) (file : GitFile) : Decidable (UploadFresh parseInstant caller project user s file) :=
  inferInstanceAs (Decidable (_ ∧ _))

variable (env caller project) in
/-- Each user sees the versions, and the other memories of the project are not chunks and not under these documents. -/
structure Mirrored (documents : String → Prop) (s : Documentation) : Prop where
  off : s.engine.config.cognition.contradictionReview = false
  recorded : RowsRecorded s.engine.memories
  current : ∀ user, UpToDate caller project s user
  named : ∀ user document sections, s.versions user document = some sections →
    ∀ part ∈ sections, documentOf part.1 = document
  unmixed : ∀ user, ∀ row ∈ s.engine.memories.rows, row.memory.scope = (importScope caller user).withDefaultTenant →
    row.memory.project = some project → row.memory.state = .active → row.memory.memType ≠ "chunk" →
      ∀ subject, row.memory.subject = some subject → ¬documents (documentOf subject)

section
variable {documents : String → Prop} {s : Documentation}

theorem beliefFilter_prunable {scope : MemoryScope} {subject : String} {m : Memory} (chunk : m.memType = "chunk") :
    MemoryTable.beliefFilter scope subject (some project) m = true ↔
      Prunable scope project m ∧ m.subject = some subject := by
  rw [MemoryTable.beliefFilter_eq_true]
  constructor
  · intro given
    obtain ⟨inHome,about,grouped,active⟩ := given
    exact ⟨⟨inHome,grouped,chunk,active⟩,about⟩
  · intro given
    obtain ⟨⟨inHome,grouped,_,active⟩,about⟩ := given
    exact ⟨inHome,about,grouped,active⟩

theorem importScope_inj {other : Option String}
    (same : (importScope caller other).withDefaultTenant = (importScope caller user).withDefaultTenant) : other = user :=
  congrArg MemoryScope.userId same

theorem put_same {versions : FileVersions} {document : String} {sections : List (String × String)} :
    versions.put user document sections user document = some sections := if_pos ⟨rfl,rfl⟩

theorem put_other {versions : FileVersions} {other : Option String} {name document : String} {sections : List (String × String)}
    (apart : other = user → name ≠ document) : versions.put user document sections other name = versions other name :=
  if_neg (fun both => apart both.1 both.2)

theorem restrict_some {versions : FileVersions} {gone : List String} {other : Option String} {name : String}
    {sections : List (String × String)} (found : versions.restrict user gone other name = some sections) :
    (other = user → name ∈ gone) ∧ versions other name = some sections := by
  unfold FileVersions.restrict at found
  split at found
  next => cases found
  next there => exact ⟨fun same => by_contra (fun left => there ⟨same,left⟩),found⟩

theorem Mirrored.shelf (mirrored : Mirrored caller project documents s) {subject : String}
    (among : documents (documentOf subject)) :
    Shelf (importScope caller user).withDefaultTenant (some project) s.engine.memories subject := by
  have chunk {a : MemoryRow} (member : a ∈ s.engine.memories.rows)
      (selected : MemoryTable.beliefFilter (importScope caller user).withDefaultTenant subject (some project) a.memory = true) :
      a.memory.memType = "chunk" := by
    obtain ⟨inHome,about,grouped,active⟩ := MemoryTable.beliefFilter_eq_true.mp selected
    by_contra other
    exact mirrored.unmixed user a member (inHome.trans (MemoryScope.withDefaultTenant_withDefaultTenant _)) grouped active
      other subject about among
  have prunable {a : MemoryRow} (member : a ∈ s.engine.memories.rows)
      (selected : MemoryTable.beliefFilter (importScope caller user).withDefaultTenant subject (some project) a.memory = true) :
      Prunable (importScope caller user) project a.memory ∧ a.memory.subject = some subject := by
    obtain ⟨⟨inHome,grouped,type,active⟩,about⟩ := (beliefFilter_prunable (chunk member selected)).mp selected
    exact ⟨⟨inHome.trans (MemoryScope.withDefaultTenant_withDefaultTenant _),grouped,type,active⟩,about⟩
  refine ⟨?_,fun a member selected => chunk member selected⟩
  intro a member selected b there again
  obtain ⟨shown,about⟩ := prunable member selected
  obtain ⟨shown',about'⟩ := prunable there again
  exact (mirrored.current user).single a member shown b there shown' (about.trans about'.symm)

theorem Replaced.current {e : Engine} {document : String} {sections : List (String × String)} (imported : List String)
    (replaced : Replaced (importScope caller user).withDefaultTenant (some project) document sections s.engine.memories
      e.memories)
    (owned : ∀ part ∈ sections, documentOf part.1 = document)
    (named : ∀ user document sections, s.versions user document = some sections →
      ∀ part ∈ sections, documentOf part.1 = document) (other : Option String) (current : UpToDate caller project s other) :
    UpToDate caller project ⟨e,imported,s.versions.put user document sections⟩ other := by
  have homely := (importScope caller user).withDefaultTenant_withDefaultTenant
  have elsewhere {row : MemoryRow} (lies : row.memory.scope = (importScope caller other).withDefaultTenant)
      (apart : other = user → ∀ subject, row.memory.subject = some subject → documentOf subject ≠ document) :
      row ∈ e.memories.rows ↔ row ∈ s.engine.memories.rows := by
    refine replaced.spares row ?_
    rintro ⟨inHome,subject,about,own⟩
    exact apart (importScope_inj (lies.symm.trans (inHome.trans homely))) subject about own
  have selected {row : MemoryRow} {subject : String} (shown : Prunable (importScope caller user) project row.memory)
      (about : row.memory.subject = some subject) :
      MemoryTable.beliefFilter (importScope caller user).withDefaultTenant subject (some project) row.memory = true :=
    MemoryTable.beliefFilter_eq_true.mpr ⟨shown.1.trans homely.symm,about,shown.2.1,shown.2.2.2⟩
  have split {row : MemoryRow} (member : row ∈ e.memories.rows)
      (shown : Prunable (importScope caller other) project row.memory) :
      (other = user ∧ ∃ subject, row.memory.subject = some subject ∧ documentOf subject = document) ∨
        row ∈ s.engine.memories.rows ∧
          (other = user → ∀ subject, row.memory.subject = some subject → documentOf subject ≠ document) := by
    by_cases inside : other = user ∧ ∃ subject, row.memory.subject = some subject ∧ documentOf subject = document
    · exact Or.inl inside
    · have apart : other = user → ∀ subject, row.memory.subject = some subject → documentOf subject ≠ document :=
        fun same subject about own => inside ⟨same,subject,about,own⟩
      exact Or.inr ⟨(elsewhere shown.1 apart).mp member,apart⟩
  refine ⟨?_,?_,?_⟩
  · intro row member shown
    rcases split member shown with ⟨rfl,subject,about,own⟩ | ⟨before,apart⟩
    · obtain ⟨part,inside,rfl,text⟩ := replaced.only subject own row member (selected shown about)
      exact ⟨document,sections,put_same,part,inside,about,text⟩
    · obtain ⟨name,parts,found,part,inside,about,text⟩ := current.listed row before shown
      refine ⟨name,parts,(put_other ?_).trans found,part,inside,about,text⟩
      intro same equal
      exact apart same part.1 about ((named other name parts found part inside).trans equal)
  · intro name parts found part inside
    by_cases own : other = user ∧ name = document
    · obtain ⟨rfl,rfl⟩ := own
      cases put_same.symm.trans found
      obtain ⟨row,member,chosen,text⟩ := replaced.shows part inside
      have chunk := (replaced.shelf part.1 (owned part inside)).chunk row member chosen
      obtain ⟨⟨inHome,rest⟩,about⟩ := (beliefFilter_prunable chunk).mp chosen
      exact ⟨row,member,⟨inHome.trans homely,rest⟩,about,text⟩
    · have old : s.versions other name = some parts := (put_other (fun same equal => own ⟨same,equal⟩)).symm.trans found
      obtain ⟨row,member,shown,about,text⟩ := current.held name parts old part inside
      refine ⟨row,(elsewhere shown.1 ?_).mpr member,shown,about,text⟩
      intro same subject keyed equal
      cases about.symm.trans keyed
      exact own ⟨same,(named other name parts old part inside).symm.trans equal⟩
  · intro a member shown b there shown' same
    rcases split member shown with ⟨rfl,subject,about,own⟩ | ⟨before,apart⟩
    · exact (replaced.shelf subject own).single a member (selected shown about) b there
        (selected shown' (same.symm.trans about))
    · rcases split there shown' with ⟨rfl,subject,about,own⟩ | ⟨before',_⟩
      · exact absurd own (apart rfl subject (same.trans about))
      · exact current.single a before shown b before' shown' same

theorem Mirrored.replaced (mirrored : Mirrored caller project documents s) {e : Engine} {document : String}
    {sections : List (String × String)} (imported : List String) (config : e.config = s.engine.config)
    (recorded : RowsRecorded e.memories) (owned : ∀ part ∈ sections, documentOf part.1 = document)
    (replaced : Replaced (importScope caller user).withDefaultTenant (some project) document sections s.engine.memories
      e.memories) :
    Mirrored caller project documents ⟨e,imported,s.versions.put user document sections⟩ where
  off := by
    rw [config]
    exact mirrored.off
  recorded := recorded
  current other := replaced.current imported owned mirrored.named other (mirrored.current other)
  named other name parts found := by
    by_cases own : other = user ∧ name = document
    · obtain ⟨rfl,rfl⟩ := own
      cases put_same.symm.trans found
      exact owned
    · exact mirrored.named other name parts ((put_other (fun same equal => own ⟨same,equal⟩)).symm.trans found)
  unmixed other row member inHome grouped active unlike subject about among := by
    have homely := (importScope caller user).withDefaultTenant_withDefaultTenant
    by_cases inside : Under (importScope caller user).withDefaultTenant (fun subject => documentOf subject = document) row.memory
    · obtain ⟨lies,own,keyed,same⟩ := inside
      exact unlike ((replaced.shelf own same).chunk row member (MemoryTable.beliefFilter_eq_true.mpr ⟨lies,keyed,grouped,active⟩))
    · exact mirrored.unmixed other row ((replaced.spares row inside).mp member) inHome grouped active unlike subject about among

theorem OneNode.documentIngest_answered {e : Engine} {req : DocumentIngestRequest} {draws : Nat → Draw} {now : Int}
    (path : blank req.path = false) (content : blank req.content = false) :
    (∀ result after, Ecphoria.documentIngest env e req.document (scopeWithHeader caller req.fields) req.options draws now =
        (.ok result,after) → OneNode.documentIngest env e caller req draws now = (.ok,after)) ∧
      ∀ err after, Ecphoria.documentIngest env e req.document (scopeWithHeader caller req.fields) req.options draws now =
        (.error err,after) → OneNode.documentIngest env e caller req draws now = (.failed (.error err),after) := by
  refine ⟨?_,?_⟩
  · intro result after ok
    simp [OneNode.documentIngest,path,content,ok]
  · intro err after failed
    simp [OneNode.documentIngest,path,content,failed]

theorem docPath_filled (project : String) (file : GitFile) : blank (docPath project file) = false :=
  (nonBlank_iff _).mp (docPath_kept project file).1

theorem importFile_arrives (lowercases : env.Lowercases) {file : GitFile} (mirrored : Mirrored caller project documents s)
    (plain : '#' ∉ (docPath project file).toList) (among : documents (docName env project file))
    (separate : ∀ content, file.content = some content →
      ((documentSections env (docPath project file) content .default).map Prod.fst).Nodup)
    (fresh : UploadFresh parseInstant caller project user s file)
    (arrives : Arrives env parseInstant caller project s.engine.config user file) :
    ∃ e sections, importFile env parseInstant caller project user s file =
        ⟨e,s.imported ++ [docPath project file],s.versions.put user (docName env project file) sections⟩ ∧
      e.config = s.engine.config ∧ Mirrored caller project documents
        ⟨e,s.imported ++ [docPath project file],s.versions.put user (docName env project file) sections⟩ := by
  obtain ⟨sent,content,read,filled,req,made,accepted⟩ := arrives
  obtain ⟨path,text,grouped,fields,options⟩ := documentRequest_fields made
  have scope : scopeWithHeader caller req.fields = importScope caller user := by rw [fields]; rfl
  have items : fileItems parseInstant caller project user file =
      documentItems req.document (scopeWithHeader caller req.fields) req.options file.draws := by
    simp only [fileItems,read,Option.bind_some,made]
  obtain ⟨unused,distinct⟩ := fresh
  rw [items] at unused distinct
  have named : req.document.path = docPath project file := path
  have owned : ∀ part ∈ documentSections env (docPath project file) content .default,
      documentOf part.1 = docName env project file :=
    fun part inside => documentOf_documentSections lowercases plain inside
  have apart : ((documentSections env (docPath project file) req.document.content req.options).map Prod.fst).Nodup := by
    rw [options]
    exact separate req.content (text ▸ read)
  have clean : CleanUpload env s.engine req.document (scopeWithHeader caller req.fields) req.options file.draws := by
    refine ⟨sections_of mirrored.recorded accepted ?_ unused distinct,mirrored.off,
      documentInputs_apart lowercases plain named apart,?_,?_,?_⟩
    · intro input inside
      obtain ⟨raw,_,stored⟩ := documentInputs_keyed lowercases plain named _ _ input inside
      rw [stored]
      exact Option.some_ne_none _
    · intro part inside
      rw [named] at inside ⊢
      exact documentOf_documentSections lowercases plain inside
    · rw [named]
      exact docName_plain lowercases plain
    · intro subject own
      rw [named] at own
      rw [scope,show req.document.project = some project from grouped]
      exact mirrored.shelf (own ▸ among)
  obtain ⟨result,e,ok,config,recorded,replaced⟩ := clean.replaces file.now
  have answered := (OneNode.documentIngest_answered (path ▸ docPath_filled project file) (text ▸ filled)).1 result e ok
  have stands : Replaced (importScope caller user).withDefaultTenant (some project) (docName env project file)
      (documentSections env (docPath project file) content .default) s.engine.memories e.memories := by
    rw [scope,options,named,show req.document.project = some project from grouped,
      show req.document.content = content from text] at replaced
    exact replaced
  refine ⟨e,_,?_,config,mirrored.replaced _ config recorded owned stands⟩
  simp only [importFile,read,filled,Bool.false_eq_true,if_false,postDocument,sent,Bool.not_true,made,answered]

theorem importFile_fails (lowercases : env.Lowercases) {file : GitFile} (plain : '#' ∉ (docPath project file).toList)
    (separate : ∀ content, file.content = some content →
      ((documentSections env (docPath project file) content .default).map Prod.fst).Nodup)
    (fresh : UploadFresh parseInstant caller project user s file)
    (fails : ¬Arrives env parseInstant caller project s.engine.config user file) :
    ∃ e, importFile env parseInstant caller project user s file = { s with engine := e } ∧
      e.config = s.engine.config ∧ e.memories = s.engine.memories := by
  cases read : file.content with
  | none => exact ⟨s.engine,by simp only [importFile,read],rfl,rfl⟩
  | some content =>
    cases filled : blank content with
    | true => exact ⟨s.engine,by simp only [importFile,read,filled,if_true],rfl,rfl⟩
    | false =>
      have posted : importFile env parseInstant caller project user s file =
          match postDocument env parseInstant caller project s.engine user file content with
          | (true,e) => ⟨e,s.imported ++ [docPath project file],s.versions.put user (docName env project file)
              (documentSections env (docPath project file) content .default)⟩
          | (false,e) => { s with engine := e } := by
        simp only [importFile,read,filled,Bool.false_eq_true,if_false]
      rw [posted]
      cases sent : file.sent with
      | false => exact ⟨s.engine,by simp only [postDocument,sent,Bool.not_false,if_true],rfl,rfl⟩
      | true =>
        cases made : documentRequest parseInstant project file content user with
        | none =>
          exact ⟨s.engine,by simp only [postDocument,sent,Bool.not_true,Bool.false_eq_true,if_false,made],rfl,rfl⟩
        | some req =>
          obtain ⟨path,text,_,_,options⟩ := documentRequest_fields made
          have named : req.document.path = docPath project file := path
          have items : fileItems parseInstant caller project user file =
              documentItems req.document (scopeWithHeader caller req.fields) req.options file.draws := by
            simp only [fileItems,read,Option.bind_some,made]
          obtain ⟨unused,distinct⟩ := fresh
          rw [items] at unused distinct
          have refused : ∃ input ∈ documentInputs req.document (scopeWithHeader caller req.fields) req.options,
              ¬Accepts env s.engine.config input := by
            by_contra all
            refine fails ⟨sent,content,read,filled,req,made,?_⟩
            intro input inside
            by_contra unaccepted
            exact all ⟨input,inside,unaccepted⟩
          have keyed : ∀ input ∈ documentInputs req.document (scopeWithHeader caller req.fields) req.options,
              (canonicalInput env input).subject ≠ none := by
            intro input inside
            obtain ⟨raw,_,stored⟩ := documentInputs_keyed lowercases plain named _ _ input inside
            rw [stored]
            exact Option.some_ne_none _
          have apart : ((documentSections env (docPath project file) req.document.content req.options).map
              Prod.fst).Nodup := by
            rw [options]
            exact separate req.content (text ▸ read)
          obtain ⟨err,e,failed,config,memories⟩ := documentIngest_refused keyed unused distinct
            (documentInputs_apart lowercases plain named apart) refused file.now
          have answered := (OneNode.documentIngest_answered (path ▸ docPath_filled project file)
            (text ▸ filled)).2 err e failed
          refine ⟨e,?_,config,memories⟩
          simp only [postDocument,sent,Bool.not_true,Bool.false_eq_true,if_false,made,answered]

theorem Mirrored.unchanged (mirrored : Mirrored caller project documents s) {e : Engine} (imported : List String)
    (config : e.config = s.engine.config) (memories : e.memories = s.engine.memories) :
    Mirrored caller project documents ⟨e,imported,s.versions⟩ where
  off := by
    rw [config]
    exact mirrored.off
  recorded := by
    rw [memories]
    exact mirrored.recorded
  current user := by
    obtain ⟨listed,held,single⟩ := mirrored.current user
    rw [← memories] at listed held single
    exact ⟨listed,held,single⟩
  named := mirrored.named
  unmixed := by
    rw [memories]
    exact mirrored.unmixed

end

section
variable {documents : String → Prop} {s : Documentation} {files : List GitFile}

theorem importFiles_mirrored (lowercases : env.Lowercases) (mirrored : Mirrored caller project documents s)
    (plain : ∀ file ∈ files, '#' ∉ (docPath project file).toList)
    (among : ∀ file ∈ files, documents (docName env project file))
    (separate : ∀ file ∈ files, ∀ content, file.content = some content →
      ((documentSections env (docPath project file) content .default).map Prod.fst).Nodup)
    (fresh : Along (importFile env parseInstant caller project user) (UploadFresh parseInstant caller project user) s files) :
    Mirrored caller project documents (run (importFile env parseInstant caller project user) s files) ∧
      (run (importFile env parseInstant caller project user) s files).engine.config = s.engine.config ∧
      (∀ path, path ∈ (run (importFile env parseInstant caller project user) s files).imported ↔ path ∈ s.imported ∨
        ∃ file ∈ files, docPath project file = path ∧ Arrives env parseInstant caller project s.engine.config user file) ∧
      ∀ other name, (run (importFile env parseInstant caller project user) s files).versions other name =
          s.versions other name ∨
        other = user ∧ ∃ file ∈ files, docName env project file = name ∧
          Arrives env parseInstant caller project s.engine.config user file := by
  induction files generalizing s with
  | nil => exact ⟨mirrored,rfl,by simp,fun _ _ => Or.inl rfl⟩
  | cons file files ih =>
    obtain ⟨here,later⟩ := fresh
    have own : file ∈ file :: files := List.mem_cons_self
    have rest {t : Documentation} (step : importFile env parseInstant caller project user s file = t)
        (still : Mirrored caller project documents t) :=
      ih still (fun other inside => plain other (List.mem_cons_of_mem file inside))
        (fun other inside => among other (List.mem_cons_of_mem file inside))
        (fun other inside => separate other (List.mem_cons_of_mem file inside)) (step ▸ later)
    rcases em (Arrives env parseInstant caller project s.engine.config user file) with arrives | fails
    · obtain ⟨e,sections,step,config,placed⟩ := importFile_arrives lowercases mirrored (plain file own) (among file own)
        (separate file own) here arrives
      obtain ⟨done,kept,paths,versions⟩ := rest step placed
      rw [run_cons,step]
      dsimp only at kept paths versions
      rw [config] at kept paths versions
      refine ⟨done,kept,?_,?_⟩
      · intro path
        rw [paths path,List.exists_mem_cons_iff,List.mem_append,List.mem_singleton,and_iff_left arrives,or_assoc,
          @eq_comm _ path]
      · intro other name
        rcases versions other name with same | ⟨own,file',inside,named,arrived⟩
        · by_cases put : other = user ∧ name = docName env project file
          · exact Or.inr ⟨put.1,file,List.mem_cons_self,put.2.symm,arrives⟩
          · exact Or.inl (same.trans (put_other (fun same equal => put ⟨same,equal⟩)))
        · exact Or.inr ⟨own,file',List.mem_cons_of_mem file inside,named,arrived⟩
    · obtain ⟨e,step,config,memories⟩ := importFile_fails lowercases (plain file own) (separate file own) here fails
      obtain ⟨done,kept,paths,versions⟩ := rest step (mirrored.unchanged s.imported config memories)
      rw [run_cons,step]
      dsimp only at kept paths versions
      rw [config] at kept paths versions
      refine ⟨done,kept,?_,?_⟩
      · intro path
        rw [paths path,List.exists_mem_cons_iff]
        simp only [fails,and_false,false_or]
      · intro other name
        rcases versions other name with same | ⟨own,file',inside,named,arrived⟩
        · exact Or.inl same
        · exact Or.inr ⟨own,file',List.mem_cons_of_mem file inside,named,arrived⟩

/-- A prune expires the active chunks of the scope and project whose document is not kept, and leaves the other rows. -/
theorem OneNode.documentPrune_answered {e : Engine} {req : DocumentPruneRequest} (now : Int)
    (filled : blank req.project = false) (some : req.keepPaths ≠ []) :
    ∃ after, OneNode.documentPrune env e caller req now = (.ok,after) ∧ after.config = e.config ∧
      (RowsRecorded e.memories → RowsRecorded after.memories) ∧
      (∀ row ∈ after.memories.rows, row.memory.state = .active → row ∈ e.memories.rows) ∧
      (∀ row ∈ after.memories.rows, Prunable (scopeWithHeader caller req.fields) req.project row.memory →
        ∀ subject, row.memory.subject = Option.some subject → documentOf subject ∈ req.keepPaths.map (normalizeSubject env)) ∧
      ∀ row ∈ e.memories.rows, (Prunable (scopeWithHeader caller req.fields) req.project row.memory →
        ∀ subject, row.memory.subject = Option.some subject → documentOf subject ∈ req.keepPaths.map (normalizeSubject env)) →
          row ∈ after.memories.rows := by
  have known : ∀ row ∈ pruneRows (e.memories.listProjectChunks (scopeWithHeader caller req.fields) req.project)
      (req.keepPaths.map (normalizeSubject env)) now, row.id ∈ e.memories.keys := by
    intro row pruned
    obtain ⟨m,listed,_,rfl⟩ := mem_pruneRows.mp pruned
    obtain ⟨⟨old,member,rfl⟩,_⟩ := mem_listProjectChunks.mp listed
    exact (Table.mem_keys _ _).mpr ⟨old,member,rfl⟩
  obtain ⟨after,ok,memories,config⟩ := memoryApplyRowsBatch_known known
  have stays {row : MemoryRow} (member : row ∈ e.memories.rows) := (@documentPrune_row env e
    (scopeWithHeader caller req.fields) req.project req.keepPaths now row member).2
  have answer : Ecphoria.documentPrune env e (scopeWithHeader caller req.fields) req.project req.keepPaths now =
      (.ok (pruneRows (e.memories.listProjectChunks (scopeWithHeader caller req.fields) req.project)
        (req.keepPaths.map (normalizeSubject env)) now).length,after) := by
    simp only [Ecphoria.documentPrune,ok]
  rw [answer] at stays
  have rows {row : MemoryRow} (member : row ∈ after.memories.rows) (active : row.memory.state = .active) :
      row ∈ e.memories.rows ∧ ∀ stale ∈ pruneRows (e.memories.listProjectChunks (scopeWithHeader caller req.fields)
        req.project) (req.keepPaths.map (normalizeSubject env)) now, stale.id ≠ row.id := by
    rw [memories] at member
    rcases MemoryTable.mem_upsertRows member with ⟨written,pruned,rfl⟩ | old
    · obtain ⟨m,_,_,rfl⟩ := mem_pruneRows.mp pruned
      cases active
    · exact old
  refine ⟨after,?_,config,?_,fun row member active => (rows member active).1,?_,?_⟩
  · simp [OneNode.documentPrune,filled,some,answer]
  · intro recorded
    rw [memories]
    exact recorded.upsertRows _
  · intro row member shown subject about
    obtain ⟨old,apart⟩ := rows member shown.2.2.2
    by_contra absent
    exact apart _ (mem_pruneRows.mpr ⟨row.memory,mem_listProjectChunks.mpr ⟨⟨row,old,rfl⟩,shown⟩,
      ⟨subject,about,absent⟩,rfl⟩) rfl
  · intro row member keeps
    refine stays member ?_
    rintro ⟨shown,subject,about,absent⟩
    exact absent (keeps shown subject about)

/-- The scope of the run's user, and the one that the prune reaches, after a prune that only expires what left the
repository. -/
theorem Mirrored.pruned (mirrored : Mirrored caller project documents s) {e : Engine} {keep gone : List String}
    (config : e.config = s.engine.config) (recorded : RowsRecorded e.memories)
    (within : ∀ row ∈ e.memories.rows, row.memory.state = .active → row ∈ s.engine.memories.rows)
    (swept : ∀ row ∈ e.memories.rows, Prunable (importScope caller none) project row.memory →
      ∀ subject, row.memory.subject = some subject → documentOf subject ∈ keep)
    (stays : ∀ row ∈ s.engine.memories.rows, (Prunable (importScope caller none) project row.memory →
      ∀ subject, row.memory.subject = some subject → documentOf subject ∈ keep) → row ∈ e.memories.rows)
    (kept : user = none → ∀ name ∈ keep, name ∈ gone)
    (own : user ≠ none → ∀ name sections, s.versions user name = some sections → sections ≠ [] → name ∈ gone)
    (bare : ∀ name sections, s.versions none name = some sections → sections ≠ [] → (user = none → name ∈ gone) → name ∈ keep) :
    Mirrored caller project documents ⟨e,s.imported,s.versions.restrict user gone⟩ where
  off := by
    rw [config]
    exact mirrored.off
  recorded := recorded
  current other := by
    obtain ⟨listed,held,single⟩ := mirrored.current other
    refine ⟨?_,?_,?_⟩
    · intro row member shown
      obtain ⟨name,sections,found,part,inside,about,text⟩ := listed row (within row member shown.2.2.2) shown
      refine ⟨name,sections,(if_neg ?_).trans found,part,inside,about,text⟩
      rintro ⟨rfl,left⟩
      cases other with
      | none => exact left (kept rfl name (mirrored.named _ _ _ found part inside ▸ swept row member shown part.1 about))
      | some user => exact left (own (Option.some_ne_none user) name sections found (List.ne_nil_of_mem inside))
    · intro name sections found part inside
      obtain ⟨there,old⟩ := restrict_some found
      obtain ⟨row,member,shown,about,text⟩ := held name sections old part inside
      refine ⟨row,stays row member ?_,shown,about,text⟩
      intro bareShown subject keyed
      cases about.symm.trans keyed
      cases importScope_inj (shown.1.symm.trans bareShown.1)
      rw [mirrored.named _ _ _ old part inside]
      exact bare name sections old (List.ne_nil_of_mem inside) (fun same => there same.symm)
    · intro a member shown b there shown' same
      exact single a (within a member shown.2.2.2) shown b (within b there shown'.2.2.2) shown' same
  named other name sections found := mirrored.named other name sections (restrict_some found).2
  unmixed other row member inHome grouped active :=
    mirrored.unmixed other row (within row member active) inHome grouped active

variable (env parseInstant caller project) in
/-- Each upload of the run draws new identifiers. -/
def FreshRun (s : Documentation) (r : ImportRun) : Prop :=
  Along (importFile env parseInstant caller project r.user) (UploadFresh parseInstant caller project r.user)
    { s with imported := [] } r.files

instance (s : Documentation) (r : ImportRun) : Decidable (FreshRun env parseInstant caller project s r) :=
  inferInstanceAs (Decidable (Along _ _ _ _))

theorem importGit_mirrored (lowercases : env.Lowercases) (mirrored : Mirrored caller project documents s) {r : ImportRun}
    (among : ∀ name ∈ r.documents env project, documents name) (fresh : FreshRun env parseInstant caller project s r)
    (keeps : KeepsCurrent env parseInstant caller project s r) :
    Mirrored caller project documents (importGit env parseInstant caller project s r) := by
  obtain ⟨done,config,paths,versions⟩ := importFiles_mirrored lowercases (mirrored.unchanged [] rfl rfl) keeps.plain
    (fun file inside => among _ (List.mem_map_of_mem inside)) keeps.separate fresh
  unfold importGit
  dsimp only at config paths versions
  generalize run (importFile env parseInstant caller project r.user) { s with imported := [] } r.files = t at *
  dsimp only
  have uploaded {name : String} : name ∈ t.imported.map (normalizeSubject env) ↔ ∃ file ∈ r.files,
      docName env project file = name ∧ Arrives env parseInstant caller project s.engine.config r.user file := by
    constructor
    · intro inside
      obtain ⟨path,listed,rfl⟩ := List.mem_map.mp inside
      obtain ⟨file,among,rfl,arrives⟩ := ((paths path).mp listed).resolve_left List.not_mem_nil
      exact ⟨file,among,rfl,arrives⟩
    · intro given
      obtain ⟨file,among,rfl,arrives⟩ := given
      exact List.mem_map_of_mem ((paths _).mpr (Or.inr ⟨file,among,rfl,arrives⟩))
  split
  next => exact done
  next reaches =>
    simp only [Bool.or_eq_true,List.isEmpty_iff,Bool.not_eq_true',not_or,Bool.not_eq_false] at reaches
    obtain ⟨some,sent⟩ := reaches
    cases filled : blank project with
    | true =>
      have answer : OneNode.documentPrune env t.engine caller ⟨project,t.imported,⟨none,none,none,none⟩⟩ r.now =
          (Rest.missingField "project is required",t.engine) := if_pos filled
      rw [answer]
      exact done
    | false =>
      obtain ⟨path,listed⟩ := List.exists_mem_of_ne_nil _ some
      obtain ⟨file,among,_,arrives⟩ := ((paths path).mp listed).resolve_left List.not_mem_nil
      obtain ⟨own,bare⟩ := keeps.retires ⟨sent,filled,file,among,arrives⟩
      obtain ⟨e,answer,same,recorded,within,swept,stays⟩ := @OneNode.documentPrune_answered env caller t.engine
        ⟨project,t.imported,⟨none,none,none,none⟩⟩ r.now filled some
      rw [answer]
      refine done.pruned same (recorded done.recorded) within swept stays ?_ ?_ ?_
      · intro _ name inside
        obtain ⟨file,among,rfl,_⟩ := uploaded.mp inside
        exact List.mem_map_of_mem among
      · intro given name sections found filled
        rcases versions r.user name with old | ⟨_,file,among,rfl,_⟩
        · exact own given name sections (old.symm.trans found) filled
        · exact List.mem_map_of_mem among
      · intro name sections found filled there
        rcases versions none name with old | ⟨_,uploads⟩
        · exact uploaded.mpr (bare name sections (old.symm.trans found) filled there)
        · exact uploaded.mpr uploads

variable (caller project) in
/-- No chunk of the project, and nothing of it under the documents of the runs, is active in a scope that they import into. -/
def Unimported (env : Env) (runs : List ImportRun) (e : Engine) : Prop :=
  ∀ user, ∀ row ∈ e.memories.rows, row.memory.scope = (importScope caller user).withDefaultTenant →
    row.memory.project = some project → row.memory.state = .active → row.memory.memType ≠ "chunk" ∧
      ∀ subject, row.memory.subject = some subject → ∀ r ∈ runs, documentOf subject ∉ r.documents env project

/-- Runs that keep the conditions leave each user, after every run, the sections of the latest uploaded version of each
file that is still in the repository, and no others. -/
theorem import_current (lowercases : env.Lowercases) (e : Engine) (runs : List ImportRun)
    (off : e.config.cognition.contradictionReview = false) (recorded : RowsRecorded e.memories)
    (unimported : Unimported caller project env runs e)
    (fresh : Along (importGit env parseInstant caller project) (FreshRun env parseInstant caller project)
      ⟨e,[],fun _ _ => none⟩ runs)
    (keeps : Along (importGit env parseInstant caller project) (KeepsCurrent env parseInstant caller project)
      ⟨e,[],fun _ _ => none⟩ runs) :
    Throughout (importGit env parseInstant caller project) (fun s => ∀ user, UpToDate caller project s user)
      ⟨e,[],fun _ _ => none⟩ runs := by
  have start : Mirrored caller project (fun name => ∃ r ∈ runs, name ∈ r.documents env project) ⟨e,[],fun _ _ => none⟩ := by
    refine ⟨off,recorded,?_,?_,?_⟩
    · intro user
      have absent {row : MemoryRow} (member : row ∈ e.memories.rows)
          (shown : Prunable (importScope caller user) project row.memory) : False :=
        (unimported user row member shown.1 shown.2.1 shown.2.2.2).1 shown.2.2.1
      refine ⟨fun row member shown => (absent member shown).elim,?_,fun a member shown => (absent member shown).elim⟩
      intro name sections found
      cases found
    · intro user name sections found
      cases found
    · rintro user row member inHome grouped active _ subject about ⟨r,listed,inside⟩
      exact (unimported user row member inHome grouped active).2 subject about r listed inside
  have among : ∀ r ∈ runs, ∀ name ∈ r.documents env project, ∃ r ∈ runs, name ∈ r.documents env project :=
    fun r listed name inside => ⟨r,listed,inside⟩
  intro n user
  have mirrored := (((fresh.and keeps).and (Along.of_forall among)).take n).invariant start
    (fun s r mirrored given => importGit_mirrored lowercases mirrored given.2 given.1.1 given.1.2)
  exact mirrored.current user

end

end

def readmeFile (start : Nat) : GitFile :=
  ⟨"README.md",by decide,some "# Setup\nuse brew\n",none,true,importDraws start,90000⟩

def newsFile (sent : Bool) (start : Nat) : GitFile :=
  ⟨"NEWS.md",by decide,some "# News\nfirst\n",none,sent,importDraws start,90000⟩

def siteRun (files : List GitFile) : ImportRun := ⟨files,false,none,true,95000⟩

theorem import_current_site :
    Throughout (importGit .ascii (fun _ => none) ⟨none,none⟩ "site") (fun s => ∀ user, UpToDate ⟨none,none⟩ "site" s user)
      ⟨.empty .default 2,[],fun _ _ => none⟩ [siteRun [readmeFile 1,newsFile true 10]] := by
  refine import_current ascii_lowercases (.empty .default 2) _ rfl ?_ ?_ ?_ ?_
  · simp [RowsRecorded,Engine.empty,Table.empty]
  · intro user row member
    cases member
  · decide +kernel
  · refine ⟨⟨by decide +kernel,by decide +kernel,?_,?_⟩,trivial⟩
    · intro file among content read
      have tracked : file ∈ [readmeFile 1,newsFile true 10] := List.mem_of_mem_filter among
      obtain rfl | listed := List.mem_cons.mp tracked
      · cases read
        decide +kernel
      · obtain rfl := List.mem_singleton.mp listed
        cases read
        decide +kernel
    · intro _
      refine ⟨?_,?_⟩
      · intro _ _ _ found
        cases found
      · intro _ _ found
        cases found

/-- A file whose second upload fails loses the sections of its first. -/
theorem failed_upload_retired :
    ¬Throughout (importGit .ascii (fun _ => none) ⟨none,none⟩ "site") (fun s => ∀ user, UpToDate ⟨none,none⟩ "site" s user)
      ⟨.empty .default 2,[],fun _ _ => none⟩
      [siteRun [readmeFile 1,newsFile true 10],siteRun [readmeFile 20,newsFile false 30]] := by
  intro all
  have held := (all 2 none).held "site/news.md" [("site/news.md#news","News\n\nfirst")] (by decide +kernel)
    ("site/news.md#news","News\n\nfirst") (List.mem_singleton_self _)
  revert held
  unfold Prunable
  decide +kernel

end Ecphoria
