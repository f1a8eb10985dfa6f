import Ecphoria.Cognition.Types

/-! Typed facts: the kinds, the form of the subject each kind asks for, and the check of
subject and metadata. The schema documents and the regular expressions are compiled
outside. -/
namespace Ecphoria

inductive FactKind where
  | decision | convention | incident | ticketSummary | runLesson | flakyTest | hotspot | finding | other
deriving DecidableEq,Repr

namespace FactKind

def all : List FactKind :=
  [decision,convention,incident,ticketSummary,runLesson,flakyTest,hotspot,finding,other]

def asStr : FactKind → String
  | decision => "decision"
  | convention => "convention"
  | incident => "incident"
  | ticketSummary => "ticket_summary"
  | runLesson => "run_lesson"
  | flakyTest => "flaky_test"
  | hotspot => "hotspot"
  | finding => "finding"
  | other => "other"

def parse (s : String) : Option FactKind := all.find? (fun k => k.asStr = s)

def subjectGrammar : FactKind → Option (String × String)
  | decision => some ("decision:<area>:<slug>","^decision:[a-z0-9][a-z0-9._/-]*:[a-z0-9][a-z0-9._/-]*$")
  | convention => some ("convention:<area>:<slug>","^convention:[a-z0-9][a-z0-9._/-]*:[a-z0-9][a-z0-9._/-]*$")
  | incident => some ("incident:<service>:<yyyy-mm-dd>",
      "^incident:[a-z0-9][a-z0-9._/-]*:\\d\x7b4\x7d-\\d\x7b2\x7d-\\d\x7b2\x7d$")
  | ticketSummary => some ("ticket:<tracker>:<key>","^ticket:[a-z0-9][a-z0-9._/-]*:[a-z0-9][a-z0-9._/-]*$")
  | runLesson => some ("run_lesson:<workflow>:<slug>","^run_lesson:[a-z0-9][a-z0-9._/-]*:[a-z0-9][a-z0-9._/-]*$")
  | flakyTest => some ("flaky_test:<path>::<name>","^flaky_test:[^:]+::\\S.*$")
  | hotspot => some ("hotspot:<path>","^hotspot:\\S+$")
  | finding => some ("finding:<tool>:<rule>","^finding:[a-z0-9][a-z0-9._/-]*:[a-z0-9][a-z0-9._/-]*$")
  | other => none

end FactKind

/-- What the compiled schemas find wrong with a document, and whether a pattern matches a text. -/
structure FactSchemas where
  envelope : Json → List String
  perKind : FactKind → Json → List String
  isMatch : String → String → Bool

def unknownKind (kind : String) : String :=
  "metadata.kind: unknown fact kind `" ++ kind ++ "` — known kinds: " ++
    String.intercalate ", " (FactKind.all.map FactKind.asStr)

def kindErrors (schemas : FactSchemas) (kind : FactKind) (metadata : Json) : List String :=
  (schemas.perKind kind metadata).map (fun e => ("metadata." ++ e).replace "metadata.<root>" "metadata")

def subjectErrors (schemas : FactSchemas) (kind : FactKind) (subject : Option String) : List String :=
  match kind.subjectGrammar with
  | none => []
  | some (form,pattern) =>
    match subject with
    | none | some "" => ["subject: a `" ++ kind.asStr ++ "` fact needs a subject of the form `" ++ form ++
        "` — without it nothing supersedes anything"]
    | some s =>
      if schemas.isMatch pattern s then []
      else ["subject: `" ++ s ++ "` does not match the `" ++ kind.asStr ++ "` grammar `" ++ form ++ "`"]

def validateFacts (schemas : FactSchemas) (subject : Option String) (metadata : Json) : List String :=
  let errors := schemas.envelope metadata
  match (metadata.get "kind").bind Json.asStr with
  | none => errors
  | some kind =>
    match FactKind.parse kind with
    | none => errors ++ [unknownKind kind]
    | some kind => errors ++ kindErrors schemas kind metadata ++ subjectErrors schemas kind subject

theorem validateFacts_of_none {schemas : FactSchemas} {metadata : Json}
    (valid : validateFacts schemas none metadata = []) (subject : Option String) :
    validateFacts schemas subject metadata = [] := by
  rw [validateFacts] at valid ⊢
  split at valid
  next => exact valid
  next kind given =>
    split at valid
    next unknown => simp at valid
    next kind known =>
      obtain ⟨before,subjects⟩ := List.append_eq_nil_iff.mp valid
      rw [subjectErrors] at subjects
      cases grammar : kind.subjectGrammar with
      | none =>
        have free : subjectErrors schemas kind subject = [] := by rw [subjectErrors,grammar]
        simp only [before,free,List.nil_append]
      | some form =>
        rw [grammar] at subjects
        cases subjects

def Env.withFacts (env : Env) (schemas : FactSchemas) : Env := { env with validateFact := validateFacts schemas }

end Ecphoria
