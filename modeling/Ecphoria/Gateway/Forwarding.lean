import Ecphoria.Ingest.Webhook
import Ecphoria.Library.HeaderMap

/-! Forwarding a request to another node: the request is sent again with its headers built anew, up to four times while the
answer is a 307, and the answer is given back with its headers built anew and its body read to the end. -/
namespace Ecphoria
open Library

def toAsciiLowercase (s : String) : String := String.ofList (s.toList.map Char.toLower)

/-- Names are kept in lower case. -/
structure HeaderName where
  text : String
  lower : toAsciiLowercase text = text
deriving DecidableEq

namespace HeaderName

def host : HeaderName := ⟨"host",by decide⟩
def contentLength : HeaderName := ⟨"content-length",by decide⟩
def contentType : HeaderName := ⟨"content-type",by decide⟩
def accept : HeaderName := ⟨"accept",by decide⟩
def location : HeaderName := ⟨"location",by decide⟩

end HeaderName

abbrev HeaderFields := List (HeaderName × String)

inductive ReadBody where
  | whole (bytes : List UInt8)
  | broken
deriving DecidableEq

/-- A request, with the path that it was first sent to where the router has stripped it. -/
structure ProxiedRequest where
  method : String
  originalUri : Option String
  uri : Option String
  headers : HeaderFields
  body : ReadBody

structure TargetAnswer where
  status : Nat
  headers : HeaderFields
  body : ReadBody
deriving DecidableEq

def TargetAnswer.redirects (answer : TargetAnswer) : Bool :=
  answer.status ∈ [301,302,303,307,308] && !(valuesOf answer.headers .location).isEmpty

/-- What comes of one attempt. The client follows a redirect, and then answers what it finds elsewhere. -/
inductive Attempt where
  | unreachable (detail : String)
  | dropped (detail : String)
  | answered (answer : TargetAnswer)
  | redirected (answer : TargetAnswer) (redirects : answer.redirects = true) (found : Except String TargetAnswer)

def Attempt.got : Attempt → Except String TargetAnswer
  | .unreachable detail => .error detail
  | .dropped detail => .error detail
  | .answered answer => .ok answer
  | .redirected _ _ found => found

def Attempt.target : Attempt → Option TargetAnswer
  | .unreachable _ => none
  | .dropped _ => none
  | .answered answer => some answer
  | .redirected answer _ _ => some answer

def Attempt.reached : Attempt → Bool
  | .unreachable _ => false
  | _ => true

structure DeliveredRequest where
  method : String
  path : String
  headers : HeaderFields
  body : List UInt8

structure ProxyResponse where
  status : Nat
  headers : HeaderFields
  body : List UInt8

def isErrorStatus (status : Nat) : Prop := 400 ≤ status ∧ status < 600

def isHopByHop (name : String) : Bool :=
  toAsciiLowercase name ∈ ["connection","keep-alive","proxy-authenticate","proxy-authorization","te","trailer","trailers",
    "transfer-encoding","upgrade"]

/-- `HeaderValue::from_str` takes no control characters but the tab. -/
def isHeaderValue (value : String) : Bool := value.toList.all (fun c => (32 ≤ c.toNat && c.toNat ≠ 127) || c.toNat = 9)

/-- `to_bytes` with a limit -/
def toBytes (limit : Nat) : ReadBody → Option (List UInt8)
  | .whole bytes => if bytes.length ≤ limit then some bytes else none
  | .broken => none

/-- `unwrap_or_default` of what is read -/
def ReadBody.orEmpty : ReadBody → List UInt8
  | .whole bytes => bytes
  | .broken => []

def ProxiedRequest.pathAndQuery (req : ProxiedRequest) : String := (req.originalUri.or req.uri).getD "/"

def isForwarded (name : HeaderName) : Bool :=
  !(isHopByHop name.text || equalIgnoringCase name.text "host" || equalIgnoringCase name.text "content-length")

def isReturned (name : HeaderName) : Bool := !(isHopByHop name.text || equalIgnoringCase name.text "content-length")

def forwardHeaders (headers : HeaderFields) (markerHeader : HeaderName) (marker : Option String) : HeaderFields :=
  let value := marker.getD "1"
  insertEntry (insertKept isForwarded headers) (markerHeader,if isHeaderValue value then value else "1")

def clientHeaders (headers : HeaderFields) : HeaderFields := insertDefault headers (.accept,"*/*")

def reqwestToAxum (answer : TargetAnswer) : ProxyResponse :=
  -- a response with plain bytes has this type, unless the headers give one
  ⟨answer.status,insertDefault (insertKept isReturned answer.headers) (.contentType,"application/octet-stream"),
    answer.body.orEmpty⟩

def badRequest : ProxyResponse := ⟨400,[],[]⟩

section
/- `jsonText` is `serde_json::to_string`. The client puts the path of the parsed URL on the wire, and refuses a text that
is no URL. -/
variable (jsonText : Json → String) (sentPath : String → Except String String)

def badGateway (detail : String) : ProxyResponse :=
  ⟨502,[(.contentType,"application/json")],
    (jsonText (.obj [("detail",.str detail),("error",.str "shard_proxy_failed")])).toUTF8.toList⟩

/-- Up to `left` more attempts, with the answer of the last one that was a 307. -/
def sendLoop (attempts : Nat → Attempt) (wire : DeliveredRequest) : Nat → Nat → Option TargetAnswer →
    ProxyResponse × List DeliveredRequest
  | 0,_,some answer => (reqwestToAxum answer,[])
  | 0,_,none => (⟨502,[],[]⟩,[])
  | left + 1,i,_ =>
    let delivered := if (attempts i).reached then [wire] else []
    match (attempts i).got with
    | .error detail => (badGateway jsonText detail,delivered)
    | .ok answer =>
      if answer.status = 307 then
        let next := sendLoop attempts wire left (i + 1) (some answer)
        (next.1,delivered ++ next.2)
      else (reqwestToAxum answer,delivered)

def proxy (base : String) (req : ProxiedRequest) (markerHeader : HeaderName) (marker : Option String)
    (attempts : Nat → Attempt) : ProxyResponse × List DeliveredRequest :=
  match toBytes (16 * 1024 * 1024) req.body with
  | none => (badRequest,[])
  | some bytes =>
    match sentPath (base ++ req.pathAndQuery) with
    | .error detail => (badGateway jsonText detail,[])
    | .ok path =>
      sendLoop jsonText attempts ⟨req.method,path,clientHeaders (forwardHeaders req.headers markerHeader marker),bytes⟩ 4 0 none

end

def Attempt.again (attempt : Attempt) : Bool :=
  match attempt.got with
  | .ok answer => answer.status = 307
  | .error _ => false

/-- The last attempt, with up to `left` more behind the given one. -/
def lastAttempt (attempts : Nat → Attempt) : Nat → Nat → Attempt
  | 0,i => attempts i
  | left + 1,i => if (attempts i).again then lastAttempt attempts left (i + 1) else attempts i

structure SameRequest (req : ProxiedRequest) (markerHeader : HeaderName) (delivered : DeliveredRequest) : Prop where
  method : delivered.method = req.method
  path : delivered.path = req.pathAndQuery
  headers : ∀ name : HeaderName, isHopByHop name.text = false → name ≠ .host → name ≠ .contentLength → name ≠ markerHeader →
    valuesOf delivered.headers name = valuesOf req.headers name
  body : req.body = .whole delivered.body

structure SameAnswer (answer : TargetAnswer) (resp : ProxyResponse) : Prop where
  status : resp.status = answer.status
  headers : ∀ name : HeaderName, isHopByHop name.text = false → name ≠ .contentLength →
    valuesOf resp.headers name = valuesOf answer.headers name
  body : answer.body = .whole resp.body

/-- All that reaches the target is the request, and what comes back is the answer of the last attempt or an error. -/
def Transparent (req : ProxiedRequest) (markerHeader : HeaderName) (last : Attempt)
    (outcome : ProxyResponse × List DeliveredRequest) : Prop :=
  (∀ delivered ∈ outcome.2,SameRequest req markerHeader delivered) ∧
    (isErrorStatus outcome.1.status ∨ ∃ answer,last.target = some answer ∧ SameAnswer answer outcome.1)

def AnswerKept : Attempt → Prop
  | .unreachable _ => True
  | .dropped _ => True
  | .answered answer => isErrorStatus answer.status ∨ (answer.body ≠ .broken ∧
      ∀ name : HeaderName, isHopByHop name.text = false → name ≠ .contentLength → Carried answer.headers .contentType name)
  | .redirected _ _ (.error _) => True
  | .redirected answer _ (.ok found) => isErrorStatus found.status ∨ (found.status = answer.status ∧
      answer.body = .whole found.body.orEmpty ∧
      ∀ name : HeaderName, isHopByHop name.text = false → name ≠ .contentLength →
        lastOr found.headers (.contentType,"application/octet-stream") name = valuesOf answer.headers name)

/-- The client puts the path on the wire as it is, and the headers say once what each of them says. -/
def RequestKept (req : ProxiedRequest) (markerHeader : HeaderName) (path : String) : Prop :=
  path = req.pathAndQuery ∧
    ∀ name : HeaderName, isHopByHop name.text = false → name ≠ .host → name ≠ .contentLength → name ≠ markerHeader →
      Carried req.headers .accept name

theorem HeaderName.equalIgnoringCase_iff {a b : HeaderName} : equalIgnoringCase a.text b.text = true ↔ a = b := by
  have lowered (name : HeaderName) : name.text.toList.map Char.toLower = name.text.toList := by
    have same := congrArg String.toList name.lower
    rwa [toAsciiLowercase,String.toList_ofList] at same
  rw [equalIgnoringCase,decide_eq_true_iff,lowered a,lowered b]
  constructor
  · intro same
    have text : a.text = b.text := String.toList_inj.mp same
    cases a
    cases b
    cases text
    rfl
  · exact fun same => same ▸ rfl

theorem isForwarded_of {name : HeaderName} (endToEnd : isHopByHop name.text = false) (host : name ≠ .host)
    (length : name ≠ .contentLength) : isForwarded name = true := by
  have notHost : equalIgnoringCase name.text "host" = false :=
    Bool.eq_false_iff.mpr (fun same => host (HeaderName.equalIgnoringCase_iff.mp same))
  have notLength : equalIgnoringCase name.text "content-length" = false :=
    Bool.eq_false_iff.mpr (fun same => length (HeaderName.equalIgnoringCase_iff.mp same))
  rw [isForwarded,endToEnd,notHost,notLength]
  rfl

theorem isReturned_of {name : HeaderName} (endToEnd : isHopByHop name.text = false) (length : name ≠ .contentLength) :
    isReturned name = true := by
  have notLength : equalIgnoringCase name.text "content-length" = false :=
    Bool.eq_false_iff.mpr (fun same => length (HeaderName.equalIgnoringCase_iff.mp same))
  rw [isReturned,endToEnd,notLength]
  rfl

theorem valuesOf_forwarded (headers : HeaderFields) (markerHeader : HeaderName) (marker : Option String) {name : HeaderName}
    (forwarded : isForwarded name = true) (other : name ≠ markerHeader) :
    valuesOf (clientHeaders (forwardHeaders headers markerHeader marker)) name = lastOr headers (.accept,"*/*") name := by
  refine valuesOf_insertDefault _ ?_
  rw [forwardHeaders,valuesOf_insert,if_neg (Ne.symm other),valuesOf_insertKept,if_pos forwarded]

theorem valuesOf_returned (answer : TargetAnswer) {name : HeaderName} (returned : isReturned name = true) :
    valuesOf (reqwestToAxum answer).headers name =
      lastOr answer.headers (.contentType,"application/octet-stream") name := by
  refine valuesOf_insertDefault _ ?_
  rw [valuesOf_insertKept,if_pos returned]

section
variable (jsonText : Json → String) (sentPath : String → Except String String)

def Attempt.response (attempt : Attempt) : ProxyResponse :=
  match attempt.got with
  | .error detail => badGateway jsonText detail
  | .ok answer => reqwestToAxum answer

variable {attempts : Nat → Attempt} {wire : DeliveredRequest}

theorem sendLoop_response (left i : Nat) (last : Option TargetAnswer) :
    (sendLoop jsonText attempts wire (left + 1) i last).1 = (lastAttempt attempts left i).response jsonText := by
  induction left generalizing i last with
  | zero =>
    rw [sendLoop,lastAttempt,Attempt.response]
    cases got : (attempts i).got with
    | error detail => rfl
    | ok answer =>
      dsimp only
      split
      · rfl
      · rfl
  | succ left ih =>
    rw [sendLoop,lastAttempt,Attempt.again]
    cases got : (attempts i).got with
    | error detail => simp [Attempt.response,got]
    | ok answer =>
      by_cases again : answer.status = 307
      · simpa [again] using ih (i + 1) (some answer)
      · simp [again,Attempt.response,got]

theorem got_of_unreached {attempt : Attempt} (unreached : attempt.reached = false) : ∃ detail,attempt.got = .error detail := by
  cases attempt with
  | unreachable detail => exact ⟨detail,rfl⟩
  | dropped _ => cases unreached
  | answered _ => cases unreached
  | redirected _ _ _ => cases unreached

theorem mem_sendLoop {delivered : DeliveredRequest} (left i : Nat) (last : Option TargetAnswer)
    (mem : delivered ∈ (sendLoop jsonText attempts wire left i last).2) : delivered = wire := by
  induction left generalizing i last with
  | zero => cases last <;> simp [sendLoop] at mem
  | succ left ih =>
    rw [sendLoop] at mem
    have own (mem : delivered ∈ if (attempts i).reached then [wire] else []) : delivered = wire := by
      split at mem
      · exact List.mem_singleton.mp mem
      · cases mem
    cases got : (attempts i).got with
    | error detail =>
      rw [got] at mem
      exact own mem
    | ok answer =>
      rw [got] at mem
      dsimp only at mem
      split at mem
      · rcases List.mem_append.mp mem with here | later
        · exact own here
        · exact ih _ _ later
      · exact own mem

/-- What is delivered is one request, if the first attempt reaches the target, and nothing otherwise. -/
theorem delivered_iff {P : DeliveredRequest → Prop} (left i : Nat) (last : Option TargetAnswer) :
    (∀ delivered ∈ (sendLoop jsonText attempts wire (left + 1) i last).2,P delivered) ↔
      ((attempts i).reached = true → P wire) := by
  constructor
  · intro all reached
    refine all wire ?_
    rw [sendLoop,if_pos reached]
    cases got : (attempts i).got with
    | error detail => exact List.mem_singleton_self wire
    | ok answer =>
      dsimp only
      split
      · exact List.mem_append_left _ (List.mem_singleton_self wire)
      · exact List.mem_singleton_self wire
  · intro first delivered mem
    by_cases reached : (attempts i).reached = true
    · exact mem_sendLoop jsonText _ _ _ mem ▸ first reached
    · have unreached := Bool.eq_false_iff.mpr reached
      obtain ⟨detail,got⟩ := got_of_unreached unreached
      rw [sendLoop,got,unreached] at mem
      cases mem

theorem sameRequest_iff {req : ProxiedRequest} {markerHeader : HeaderName} {marker : Option String} {path : String}
    {bytes : List UInt8} (whole : req.body = .whole bytes) :
    SameRequest req markerHeader ⟨req.method,path,clientHeaders (forwardHeaders req.headers markerHeader marker),bytes⟩ ↔
      RequestKept req markerHeader path := by
  constructor
  · intro same
    refine ⟨same.path,fun name endToEnd host length other => ?_⟩
    have kept := same.headers name endToEnd host length other
    rw [valuesOf_forwarded _ _ _ (isForwarded_of endToEnd host length) other] at kept
    exact lastOr_eq_iff.mp kept
  · intro kept
    refine ⟨rfl,kept.1,fun name endToEnd host length other => ?_,whole⟩
    rw [valuesOf_forwarded _ _ _ (isForwarded_of endToEnd host length) other]
    exact lastOr_eq_iff.mpr (kept.2 name endToEnd host length other)

theorem sameAnswer_iff {answer found : TargetAnswer} :
    SameAnswer answer (reqwestToAxum found) ↔ found.status = answer.status ∧ answer.body = .whole found.body.orEmpty ∧
      ∀ name : HeaderName, isHopByHop name.text = false → name ≠ .contentLength →
        lastOr found.headers (.contentType,"application/octet-stream") name = valuesOf answer.headers name := by
  constructor
  · intro same
    refine ⟨same.status,same.body,fun name endToEnd length => ?_⟩
    rw [← valuesOf_returned found (isReturned_of endToEnd length)]
    exact same.headers name endToEnd length
  · rintro ⟨status,body,headers⟩
    refine ⟨status,fun name endToEnd length => ?_,body⟩
    rw [valuesOf_returned found (isReturned_of endToEnd length)]
    exact headers name endToEnd length

theorem whole_orEmpty_iff {body : ReadBody} : body = .whole body.orEmpty ↔ body ≠ .broken := by
  cases body with
  | whole bytes => simp [ReadBody.orEmpty]
  | broken => simp

theorem badGateway_isError (detail : String) : isErrorStatus (badGateway jsonText detail).status :=
  show 400 ≤ 502 ∧ 502 < 600 by decide

theorem answerKept_iff (attempt : Attempt) :
    (isErrorStatus (attempt.response jsonText).status ∨
        ∃ answer,attempt.target = some answer ∧ SameAnswer answer (attempt.response jsonText)) ↔ AnswerKept attempt := by
  cases attempt with
  | unreachable detail => exact iff_of_true (.inl (badGateway_isError jsonText detail)) trivial
  | dropped detail => exact iff_of_true (.inl (badGateway_isError jsonText detail)) trivial
  | answered answer =>
    rw [AnswerKept,Attempt.target,Attempt.response,Attempt.got]
    refine or_congr Iff.rfl ⟨?_,?_⟩
    · rintro ⟨_,⟨⟩,same⟩
      have ⟨_,body,headers⟩ := sameAnswer_iff.mp same
      exact ⟨whole_orEmpty_iff.mp body,fun name endToEnd length => lastOr_eq_iff.mp (headers name endToEnd length)⟩
    · rintro ⟨body,headers⟩
      exact ⟨answer,rfl,sameAnswer_iff.mpr
        ⟨rfl,whole_orEmpty_iff.mpr body,fun name endToEnd length => lastOr_eq_iff.mpr (headers name endToEnd length)⟩⟩
  | redirected answer _ found =>
    cases found with
    | error detail => exact iff_of_true (.inl (badGateway_isError jsonText detail)) trivial
    | ok found =>
      rw [AnswerKept,Attempt.target,Attempt.response,Attempt.got]
      refine or_congr Iff.rfl ⟨?_,?_⟩
      · rintro ⟨_,⟨⟩,same⟩
        exact sameAnswer_iff.mp same
      · exact fun kept => ⟨answer,rfl,sameAnswer_iff.mpr kept⟩

/-- Where the request is sent at all, it is kept if it reaches the target, and so is the last answer. -/
def Forwardable (base : String) (req : ProxiedRequest) (markerHeader : HeaderName) (attempts : Nat → Attempt) : Prop :=
  ∀ bytes path,toBytes (16 * 1024 * 1024) req.body = some bytes → sentPath (base ++ req.pathAndQuery) = .ok path →
    ((attempts 0).reached = true → RequestKept req markerHeader path) ∧ AnswerKept (lastAttempt attempts 3 0)

theorem transparent_refused {req : ProxiedRequest} {markerHeader : HeaderName} {last : Attempt} {resp : ProxyResponse}
    (error : isErrorStatus resp.status) : Transparent req markerHeader last (resp,[]) :=
  ⟨fun _ mem => absurd mem List.not_mem_nil,.inl error⟩

theorem forwarding_iff (base : String) (req : ProxiedRequest) (markerHeader : HeaderName) (marker : Option String)
    (attempts : Nat → Attempt) :
    Transparent req markerHeader (lastAttempt attempts 3 0) (proxy jsonText sentPath base req markerHeader marker attempts) ↔
      Forwardable sentPath base req markerHeader attempts := by
  rw [Forwardable,proxy]
  cases read : toBytes (16 * 1024 * 1024) req.body with
  | none => exact iff_of_true (transparent_refused (show 400 ≤ 400 ∧ 400 < 600 by decide)) (fun _ _ some => nomatch some)
  | some bytes =>
    have whole : req.body = .whole bytes := by
      cases body : req.body with
      | broken => simp [toBytes,body] at read
      | whole all =>
        simp only [toBytes,body,Option.ite_none_right_eq_some,Option.some.injEq] at read
        rw [read.2]
    cases sent : sentPath (base ++ req.pathAndQuery) with
    | error detail => exact iff_of_true (transparent_refused (badGateway_isError jsonText detail)) (fun _ _ _ ok => nomatch ok)
    | ok path =>
      have parts : Transparent req markerHeader (lastAttempt attempts 3 0)
          (sendLoop jsonText attempts ⟨req.method,path,clientHeaders (forwardHeaders req.headers markerHeader marker),bytes⟩ 4 0
            none) ↔
          ((attempts 0).reached = true → RequestKept req markerHeader path) ∧ AnswerKept (lastAttempt attempts 3 0) := by
        rw [Transparent,delivered_iff,sameRequest_iff whole,sendLoop_response,answerKept_iff]
      refine parts.trans ⟨?_,?_⟩
      · rintro kept _ _ ⟨⟩ ⟨⟩
        exact kept
      · exact fun all => all bytes path rfl rfl

end

private def listing (headers : HeaderFields) : ProxiedRequest := ⟨"GET",some "/api/v1/memories",some "/memories",headers,.whole []⟩

private def via : HeaderName := ⟨"via",by decide⟩
private def cookie : HeaderName := ⟨"set-cookie",by decide⟩
private def forwardMarker : HeaderName := ⟨"x-ecphoria-shard-forwarded",by decide⟩

private def answering (headers : HeaderFields) (body : ReadBody) : Nat → Attempt := fun _ => .answered ⟨200,headers,body⟩

private def forwarded (headers : HeaderFields) (attempts : Nat → Attempt) : ProxyResponse × List DeliveredRequest :=
  proxy (fun _ => "") (fun _ => .ok "/api/v1/memories") "http://shard-1:8432" (listing headers) forwardMarker none attempts

/-- The first of two values is lost on either way, and a body that breaks off comes back empty with the status 200. -/
theorem forwarding_loses :
    ¬Transparent (listing [(.accept,"*/*"),(via,"1.1 a"),(via,"1.1 b")]) forwardMarker (.answered ⟨200,[],.whole []⟩)
        (forwarded [(.accept,"*/*"),(via,"1.1 a"),(via,"1.1 b")] (answering [] (.whole []))) ∧
      ¬Transparent (listing [(.accept,"*/*")]) forwardMarker (.answered ⟨200,[(cookie,"a=1"),(cookie,"b=2")],.whole []⟩)
        (forwarded [(.accept,"*/*")] (answering [(cookie,"a=1"),(cookie,"b=2")] (.whole []))) ∧
      ¬Transparent (listing [(.accept,"*/*")]) forwardMarker (.answered ⟨200,[(.contentType,"text/plain")],.broken⟩)
        (forwarded [(.accept,"*/*")] (answering [(.contentType,"text/plain")] .broken)) := by
  have succeeded : ¬isErrorStatus 200 := fun error => absurd error.1 (by decide)
  refine ⟨fun transparent => ?_,fun transparent => ?_,fun transparent => ?_⟩
  · have both := (transparent.1 _ (List.mem_singleton_self _)).headers via (by decide) (by decide) (by decide) (by decide)
    exact absurd both (by decide)
  · rcases transparent.2 with error | ⟨_,⟨⟩,same⟩
    · exact succeeded error
    · exact absurd (same.headers cookie (by decide) (by decide)) (by decide)
  · rcases transparent.2 with error | ⟨_,⟨⟩,same⟩
    · exact succeeded error
    · cases same.body

end Ecphoria
