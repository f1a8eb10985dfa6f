import Ecphoria.Engine.StateTenants
import Ecphoria.Gateway.Writes

/-! Signed webhooks. A request is checked with the secret of its source and the scheme of that
source; what it becomes is attributed to the vendor, which is the source up to a slash. -/
namespace Ecphoria
open Library

/-- The secrets by source, the secret for all other sources, and whether a source without one is refused. -/
structure WebhookVerifier where
  perSource : String → Option String
  default : Option String
  require : Bool

namespace WebhookVerifier

def addEntry (perSource : String → Option String) (entry : String) : String → Option String :=
  match splitOnce '=' entry.toList with
  | none => perSource
  | some (source,secret) =>
    let source := trim (String.ofList source)
    if source.isEmpty || secret.isEmpty then perSource
    else Function.update perSource source (some (String.ofList secret))

def fromConfig (default : Option String) (entries : List String) (require : Bool) : WebhookVerifier :=
  ⟨entries.foldl addEntry (fun _ => none),default,require⟩

def secretFor (v : WebhookVerifier) (source : String) : Option String := (v.perSource source).or v.default

end WebhookVerifier

/-- The first value of a header, by its name in lower case, when it is visible ASCII. -/
abbrev Headers := String → Option String

def hexValue (c : Char) : Option Nat :=
  if '0' ≤ c ∧ c ≤ '9' then some (c.toNat - '0'.toNat)
  else if 'a' ≤ c ∧ c ≤ 'f' then some (c.toNat - 'a'.toNat + 10)
  else if 'A' ≤ c ∧ c ≤ 'F' then some (c.toNat - 'A'.toNat + 10)
  else none

/-- `u8::from_str_radix` of two characters, which takes a plus sign before the digits. -/
def hexPair (high low : Char) : Option UInt8 :=
  if high = '+' then (hexValue low).map UInt8.ofNat
  else (hexValue high).bind (fun h => (hexValue low).map (fun l => UInt8.ofNat (16 * h + l)))

def hexDecode : List Char → Option (List UInt8)
  | [] => some []
  | [_] => none
  | high :: low :: rest => (hexPair high low).bind (fun byte => (hexDecode rest).map (byte :: ·))

def decimal (digits : List Char) : Option Nat :=
  if digits.isEmpty then none
  else digits.foldl (fun value c => value.bind (fun n =>
    if '0' ≤ c ∧ c ≤ '9' then some (10 * n + (c.toNat - '0'.toNat)) else none)) (some 0)

/-- `str::parse::<i64>`. -/
def parseI64 (text : String) : Option Int :=
  let value : Option Int := match text.toList with
    | '-' :: digits => (decimal digits).map (fun n => -(n : Int))
    | '+' :: digits => (decimal digits).map Int.ofNat
    | digits => (decimal digits).map Int.ofNat
  value.filter (fun n => -2 ^ 63 ≤ n && n < 2 ^ 63)

def bytes (text : String) : List UInt8 := text.toUTF8.toList

/-- `(now - n).abs()` of two `i64`, which wraps in a release build, where the least number is its own absolute value. -/
def distance (now n : Int) : Int :=
  let apart := (now - n).bmod (2 ^ 64)
  if apart = -2 ^ 63 then apart else |apart|

section
variable (mac : String → List UInt8 → List UInt8)

def verifyHexHmac (secret : String) (msg : List UInt8) (sigHex : String) : Bool :=
  match hexDecode (trim sigHex).toList with
  | none => false
  | some expected => expected = mac secret msg

def verifyWebhookSignature (secret : String) (signatureHeader : Option String) (body : List UInt8) : Bool :=
  match signatureHeader with
  | none => false
  | some sig => verifyHexHmac mac secret body ((stripPrefix "sha256=" sig).getD sig)

def verifySlackSignature (secret : String) (headers : Headers) (body : List UInt8) (now : Int) : Bool :=
  match headers "x-slack-request-timestamp" with
  | none => false
  | some ts =>
    match parseI64 ts with
    | none => false
    | some n =>
      if 300 < distance now n then false
      else
        match (headers "x-slack-signature").bind (stripPrefix "v0=") with
        | none => false
        | some sig => verifyHexHmac mac secret (bytes ("v0:" ++ ts ++ ":") ++ body) sig

def verifyVendorSignature (source secret : String) (headers : Headers) (body : List UInt8) (now : Int) : Bool :=
  match source with
  | "slack" => verifySlackSignature mac secret headers body now
  | "sentry" => ((headers "sentry-hook-signature").map (verifyHexHmac mac secret body)).getD false
  | "pagerduty" => ((headers "x-pagerduty-signature").map (fun h =>
      ((h.toList.splitOn ',').filterMap (fun p => stripPrefix "v1=" (trim (String.ofList p)))).any
        (verifyHexHmac mac secret body))).getD false
  | _ => verifyWebhookSignature mac secret ((headers "x-hub-signature-256").or (headers "x-signature-256")) body

/-- The refusal of a request whose source has a secret that did not sign it, or has none where one is required. -/
def WebhookVerifier.refusal (v : WebhookVerifier) (source : String) (headers : Headers) (body : List UInt8) (now : Int) :
    Option (String × String) :=
  match v.secretFor source with
  | some secret =>
    if verifyVendorSignature mac source secret headers body now then none
    else some ("INVALID_SIGNATURE","webhook signature verification failed")
  | none =>
    if v.require then
      some ("SIGNATURE_REQUIRED","no webhook secret configured for source '" ++ source ++
        "' and signatures are required; configure gateway.webhook_secrets = [\"" ++ source ++ "=<secret>\"]")
    else none

end

def signatures (vendor : String) (headers : Headers) : List String :=
  match vendor with
  | "slack" => ((headers "x-slack-signature").bind (stripPrefix "v0=")).toList
  | "sentry" => (headers "sentry-hook-signature").toList
  | "pagerduty" => (headers "x-pagerduty-signature").toList.flatMap (fun h =>
      (h.toList.splitOn ',').filterMap (fun p => stripPrefix "v1=" (trim (String.ofList p))))
  | _ => ((headers "x-hub-signature-256").or (headers "x-signature-256")).toList.map
      (fun sig => (stripPrefix "sha256=" sig).getD sig)

/-- What the scheme signs: the body, which Slack puts behind the time of the request. -/
def signedText (vendor : String) (headers : Headers) (body : List UInt8) : Option (List UInt8) :=
  match vendor with
  | "slack" => (headers "x-slack-request-timestamp").map (fun ts => bytes ("v0:" ++ ts ++ ":") ++ body)
  | _ => some body

/-- The request is signed with the secret in the scheme of the vendor. -/
def Signed (mac : String → List UInt8 → List UInt8) (vendor secret : String) (headers : Headers) (body : List UInt8) :
    Prop :=
  ∃ sig ∈ signatures vendor headers, ∃ text ∈ signedText vendor headers body,
    hexDecode (trim sig).toList = some (mac secret text)

/-- A Slack request is at most five minutes away, as far as numbers of 64 bits tell. -/
def Fresh (vendor : String) (headers : Headers) (now : Int) : Prop :=
  vendor = "slack" → ∃ ts ∈ headers "x-slack-request-timestamp", ∃ n ∈ parseI64 ts, distance now n ≤ 300

section
variable {mac : String → List UInt8 → List UInt8} {source secret : String} {headers : Headers} {body : List UInt8}
  {now : Int}

theorem verifyHexHmac_iff {msg : List UInt8} {sigHex : String} :
    verifyHexHmac mac secret msg sigHex = true ↔ hexDecode (trim sigHex).toList = some (mac secret msg) := by
  unfold verifyHexHmac
  cases hexDecode (trim sigHex).toList <;> simp

theorem verifySlackSignature_iff :
    verifySlackSignature mac secret headers body now = true ↔
      Signed mac "slack" secret headers body ∧ Fresh "slack" headers now := by
  unfold verifySlackSignature Signed Fresh
  simp only [signatures,signedText]
  cases stamped : headers "x-slack-request-timestamp" with
  | none => simp
  | some ts =>
    cases parsed : parseI64 ts with
    | none => simp [parsed]
    | some n =>
      cases carried : (headers "x-slack-signature").bind (stripPrefix "v0=") with
      | none => simp [parsed]
      | some sig =>
        by_cases late : 300 < distance now n
        · simp [late,parsed,Int.not_le.mpr late]
        · simp [late,parsed,verifyHexHmac_iff,Int.not_lt.mp late]

theorem fresh_other (other : source ≠ "slack") : Fresh source headers now := fun same => absurd same other

private theorem signed_body (text : signedText source headers body = some body) :
    Signed mac source secret headers body ↔
      (signatures source headers).any (verifyHexHmac mac secret body) = true := by
  simp only [Signed,text,Option.mem_some_iff,exists_eq_left',List.any_eq_true,verifyHexHmac_iff]

theorem verifyVendorSignature_iff : verifyVendorSignature mac source secret headers body now = true ↔
    Signed mac source secret headers body ∧ Fresh source headers now := by
  unfold verifyVendorSignature
  split
  next => exact verifySlackSignature_iff
  next =>
    rw [signed_body rfl,and_iff_left (fresh_other (by decide)),signatures]
    cases headers "sentry-hook-signature" <;> simp
  next =>
    rw [signed_body rfl,and_iff_left (fresh_other (by decide)),signatures]
    cases headers "x-pagerduty-signature" <;> simp
  next slack sentry pagerduty =>
    have carries : signatures source headers = ((headers "x-hub-signature-256").or (headers "x-signature-256")).toList.map
        (fun sig => (stripPrefix "sha256=" sig).getD sig) := by
      unfold signatures
      split
      next => exact absurd rfl slack
      next => exact absurd rfl sentry
      next => exact absurd rfl pagerduty
      next => rfl
    have text : signedText source headers body = some body := by
      unfold signedText
      split
      next => exact absurd rfl slack
      next => rfl
    rw [signed_body text,and_iff_left (fresh_other slack),carries]
    cases (headers "x-hub-signature-256").or (headers "x-signature-256") <;> simp [verifyWebhookSignature]

end

/-- A webhook as it arrives: its source is one decoded segment of the path. -/
structure WebhookRequest where
  source : String
  headers : Headers
  body : List UInt8

/-- What handling a webhook reads from outside: the clock of the check, and what ingesting and promoting draw. -/
structure WebhookReading where
  now : Int
  stamp : EventStamp
  embedder : Embedder
  draws : Nat → Draw

section
variable (env : Env) (g : Gateway) (mac : String → List UInt8 → List UInt8)
  (parseBody : List UInt8 → Except String Json)

/-- The handler on one node, with the check in front of it. -/
def receiveWebhook (v : WebhookVerifier) (c : Cluster) (i : NodeId) (caller : Caller) (req : WebhookRequest)
    (reading : WebhookReading) : Answer × Cluster :=
  Rest.webhook env g c i caller req.source (parseBody req.body)
    ⟨v.refusal mac req.source req.headers req.body reading.now,reading.stamp,reading.embedder,reading.draws⟩

/-- The request leaves an event of the vendor in the log, or changes the memories by what it promotes of one. -/
def VendorEnters (v : WebhookVerifier) (c : Cluster) (i : NodeId) (caller : Caller) (req : WebhookRequest)
    (reading : WebhookReading) (name : String) : Prop :=
  let after := (receiveWebhook env g mac parseBody v c i caller req reading).2
  ∃ payload, parseBody req.body = .ok payload ∧
    ∃ event ∈ normalizeWebhook reading.stamp req.source payload, vendor event.source = name ∧
      ((event.id ∉ (c.engine i).episodic.keys ∧
          ∃ row ∈ (after.engine i).episodic.rows, row.id = event.id ∧ row.source = event.source) ∨
        (after.engine i).memories ≠ (c.engine i).memories)

/-- What enters for a vendor that has a secret is signed with it. -/
def Authentic (v : WebhookVerifier) (source : String) : Prop :=
  ∀ c i caller headers body reading name secret, v.perSource name = some secret →
    VendorEnters env g mac parseBody v c i caller ⟨source,headers,body⟩ reading name → Signed mac name secret headers body

/-- The source is its vendor, its vendor has no secret, or it has one itself, and what this signs the vendor's signs too. -/
def Attributed (v : WebhookVerifier) (source : String) : Prop :=
  ∀ secret, v.perSource (vendor source) = some secret → vendor source = source ∨
    ∃ own, v.perSource source = some own ∧ ∀ headers body payload, parseBody body = .ok payload →
      Signed mac source own headers body → Signed mac (vendor source) secret headers body

end

section
variable {env : Env} {g : Gateway} {mac : String → List UInt8 → List UInt8}
  {parseBody : List UInt8 → Except String Json} {v : WebhookVerifier} {source : String}

theorem vendor_normalizeWebhook {stamp : EventStamp} {payload : Json} {event : Event}
    (inside : event ∈ normalizeWebhook stamp source payload) : vendor event.source = vendor source := by
  have named {name : String} (plain : '/' ∉ name.toList) (rest : String) : vendor (name ++ "/" ++ rest) = vendor name := by
    rw [vendor_slash plain,vendor_unslashed plain]
  unfold normalizeWebhook at inside
  split at inside
  next =>
    rw [List.mem_singleton.mp inside]
    exact named (show '/' ∉ "github".toList by decide) _
  next =>
    rw [List.mem_singleton.mp inside]
    exact named (show '/' ∉ "sentry".toList by decide) _
  next =>
    rw [List.mem_singleton.mp inside]
    exact named (show '/' ∉ "slack".toList by decide) _
  next =>
    rw [List.mem_singleton.mp inside]
    exact named (show '/' ∉ "pagerduty".toList by decide) _
  next =>
    rw [List.mem_singleton.mp inside]
    rfl

theorem normalizeWebhook_slashed (apart : vendor source ≠ source) (stamp : EventStamp) (payload : Json) :
    normalizeWebhook stamp source payload = [normalizeGeneric stamp source payload] := by
  unfold normalizeWebhook
  split
  next => exact absurd (vendor_unslashed (by decide)) apart
  next => exact absurd (vendor_unslashed (by decide)) apart
  next => exact absurd (vendor_unslashed (by decide)) apart
  next => exact absurd (vendor_unslashed (by decide)) apart
  next => rfl

theorem refusal_eq_none (closed : v.default = none) (lenient : v.require = false) {headers : Headers}
    {body : List UInt8} {now : Int} : v.refusal mac source headers body now = none ↔
      ∀ own, v.perSource source = some own →
        Signed mac source own headers body ∧ Fresh source headers now := by
  unfold WebhookVerifier.refusal WebhookVerifier.secretFor
  rw [closed,Option.or_none]
  cases v.perSource source with
  | none => simp [lenient]
  | some own => simp [verifyVendorSignature_iff]

theorem refusal_of_enters {c : Cluster} {i : NodeId} {caller : Caller} {req : WebhookRequest} {reading : WebhookReading}
    {name : String} (enters : VendorEnters env g mac parseBody v c i caller req reading name) :
    vendor req.source = name ∧ v.refusal mac req.source req.headers req.body reading.now = none := by
  obtain ⟨payload,_,event,inside,named,wrote⟩ := enters
  refine ⟨(vendor_normalizeWebhook inside).symm.trans named,?_⟩
  cases refused : v.refusal mac req.source req.headers req.body reading.now with
  | none => rfl
  | some error =>
    have same : (receiveWebhook env g mac parseBody v c i caller req reading).2 = c := by
      rw [receiveWebhook,refused]
      rfl
    simp only [same] at wrote
    rcases wrote with ⟨fresh,row,member,own,_⟩ | changed
    · exact absurd ((Table.mem_keys _ _).mpr ⟨row,member,own⟩) fresh
    · exact absurd rfl changed

variable (env) in
theorem memoryAddBatch_episodic (e : Engine) (inputs : List (MemoryInput × Draw)) :
    (memoryAddBatch env e inputs).2.episodic = e.episodic := by
  have flushed {e after : Engine} {rows : List MemoryRow} (ok : memoryApplyRowsBatch e rows = .ok after) :
      after.episodic = e.episodic := congrArg Tables.episodic (memoryApplyRowsBatch_ok e after rows ok).2.1
  have loop (inputs : List (MemoryInput × Draw)) (e : Engine) (buffer : Buffer) (adds : List MemoryAdd) :
      (batchLoop env inputs e buffer adds).2.episodic = e.episodic := by
    induction inputs generalizing e buffer adds with
    | nil =>
      unfold batchLoop
      split
      next => rfl
      next after applied => exact flushed applied
    | cons item rest ih =>
      unfold batchLoop
      split
      next => rfl
      next after left ok =>
        have kept : after.episodic = e.episodic := by
          rcases flushColliding_cases ok with ⟨_,rfl,_⟩ | ⟨_,applied,_⟩
          · rfl
          · exact flushed applied
        split
        next => exact kept
        next => exact (ih _ _ _).trans kept
  exact loop inputs e ⟨[],[]⟩ []

theorem promoteEvents_episodic (isAlphanumeric : Char → Bool) (e : Engine) (config : PromotionConfig) (tenant : String)
    (events : List Event) (draws : Nat → Draw) :
    (promoteEvents env isAlphanumeric e config tenant events draws).2.episodic = e.episodic := by
  unfold promoteEvents
  split
  next => rfl
  next =>
    dsimp only
    split
    next => rfl
    next =>
      have kept := memoryAddBatch_episodic env e
        (withDraws (promotedInputs env isAlphanumeric config tenant events) draws)
      split
      next err after failed =>
        rw [failed] at kept
        exact kept
      next added after ok =>
        rw [ok] at kept
        exact kept

theorem enters_of_accepted (apart : vendor source ≠ source) {headers : Headers} {body : List UInt8} {payload : Json}
    (parsed : parseBody body = .ok payload) (reading : WebhookReading)
    (accepted : v.refusal mac source headers body reading.now = none) :
    VendorEnters env g mac parseBody v (.formed (.empty .default 2) (some 0)) 0 ⟨none,none⟩ ⟨source,headers,body⟩ reading
      (vendor source) := by
  have events := normalizeWebhook_slashed apart reading.stamp payload
  refine ⟨payload,parsed,normalizeGeneric reading.stamp source payload,by rw [events]; simp,rfl,Or.inl ⟨?_,?_⟩⟩
  · exact List.not_mem_nil
  · have stores : ingest env ((Cluster.formed (.empty .default 2) (some 0)).engine 0) reading.embedder
        [normalizeGeneric reading.stamp source payload] = (.ok 1,{ Engine.empty .default 2 with
          episodic := ⟨[(normalizeGeneric reading.stamp source payload).toRow],List.nodup_singleton _⟩ }) := rfl
    refine ⟨(normalizeGeneric reading.stamp source payload).toRow,?_,rfl,rfl⟩
    simp only [receiveWebhook,accepted,parsed,Rest.webhook,events,Rest.ingestFor,stores]
    simp only [Cluster.engine,Cluster.setEngine,Cluster.setNode,Function.update_self,promoteEvents_episodic]
    exact List.mem_singleton_self _

theorem not_signed_bare (vendor secret : String) (body : List UInt8) : ¬Signed mac vendor secret (fun _ => none) body := by
  intro signed
  obtain ⟨sig,carried,_⟩ := signed
  unfold signatures at carried
  split at carried <;> cases carried

/-- All that enters for a vendor with a secret is signed with it exactly when the source is the vendor, or has a secret of
its own that signs nothing else. -/
theorem authentic_iff (closed : v.default = none) (lenient : v.require = false)
    (parses : ∃ body payload, parseBody body = .ok payload) :
    Authentic env g mac parseBody v source ↔ Attributed mac parseBody v source := by
  constructor
  · intro authentic secret configured
    by_cases same : vendor source = source
    · exact Or.inl same
    · have signs {headers : Headers} {body : List UInt8} {payload : Json} (parsed : parseBody body = .ok payload)
          (accepted : v.refusal mac source headers body 0 = none) : Signed mac (vendor source) secret headers body :=
        authentic _ _ _ headers body ⟨0,⟨0,0⟩,.absent,fun _ => .plain 0 0⟩ _ secret configured
          (enters_of_accepted same parsed _ accepted)
      cases own : v.perSource source with
      | none =>
        obtain ⟨body,payload,parsed⟩ := parses
        have accepted : v.refusal mac source (fun _ => none) body 0 = none :=
          (refusal_eq_none closed lenient).mpr (by simp [own])
        exact absurd (signs parsed accepted) (not_signed_bare _ _ _)
      | some key =>
        refine Or.inr ⟨key,rfl,?_⟩
        intro headers body payload parsed signed
        refine signs parsed ((refusal_eq_none closed lenient).mpr ?_)
        intro other given
        cases own.symm.trans given
        refine ⟨signed,fresh_other ?_⟩
        rintro rfl
        exact same (vendor_unslashed (by decide))
  · intro attributed c i caller headers body reading name secret configured enters
    obtain ⟨rfl,accepted⟩ := refusal_of_enters enters
    have checked := (refusal_eq_none closed lenient).mp accepted
    rcases attributed secret configured with same | ⟨own,given,covers⟩
    · have signed := (checked secret (same ▸ configured)).1
      dsimp only at same ⊢
      rwa [same]
    · obtain ⟨payload,parsed,_⟩ := enters
      exact covers headers body payload parsed (checked own given).1

end

def githubVerifier : WebhookVerifier := .fromConfig none ["github=s3cret"] false

def defaultGateway : Gateway := ⟨fun _ => none,Char.isAlphanum,⟨true,defaultRules⟩,fun _ => false⟩

def forgedPayload : Json := .obj [("raw",.obj [("issue",.obj [("number",.int 7)])]),("repository",.str "acme/api"),
  ("type",.str "issue.closed")]

/-- `POST /webhook/github%2Facme` without a signature. -/
def forgedRequest : WebhookRequest where
  source := "github/acme"
  headers := fun _ => none
  body := bytes
    "\x7b\"raw\":\x7b\"issue\":\x7b\"number\":7\x7d\x7d,\"repository\":\"acme/api\",\"type\":\"issue.closed\"\x7d"

/-- What is read of the one body. -/
def parseForged (body : List UInt8) : Except String Json :=
  if body = forgedRequest.body then .ok forgedPayload else .error "expected value"

theorem authentic_iff_github :
    Authentic .ascii defaultGateway (fun _ _ => []) parseForged githubVerifier "github/acme" ↔
      Attributed (fun _ _ => []) parseForged githubVerifier "github/acme" :=
  authentic_iff rfl rfl ⟨forgedRequest.body,forgedPayload,if_pos rfl⟩

/-- A closed issue is stored, and remembered, under the vendor whose secret signed nothing. -/
theorem forged_issue : githubVerifier.perSource "github" = some "s3cret" ∧
    ∀ mac : String → List UInt8 → List UInt8,
      VendorEnters .ascii defaultGateway mac parseForged githubVerifier
          (.formed (.empty .default 2) (some 0)) 0 ⟨none,none⟩ forgedRequest
          ⟨0,⟨1,1000⟩,.absent,fun _ => .plain 1000 2⟩ "github" ∧
        ((receiveWebhook .ascii defaultGateway mac parseForged githubVerifier
          (.formed (.empty .default 2) (some 0)) 0 ⟨none,none⟩ forgedRequest
          ⟨0,⟨1,1000⟩,.absent,fun _ => .plain 1000 2⟩).2.engine 0).memories.rows.map (fun row => row.memory.subject) =
            [some "acme/api#issue-7"] ∧
        ¬Signed mac "github" "s3cret" forgedRequest.headers forgedRequest.body := by
  refine ⟨by decide,fun mac => ?_⟩
  have accepted : githubVerifier.refusal mac forgedRequest.source forgedRequest.headers forgedRequest.body 0 = none := by
    refine (refusal_eq_none rfl rfl).mpr ?_
    have unset : githubVerifier.perSource forgedRequest.source = none := by decide
    rw [unset]
    exact nofun
  refine ⟨enters_of_accepted (by decide) (if_pos rfl) ⟨0,⟨1,1000⟩,.absent,fun _ => .plain 1000 2⟩ accepted,?_,
    not_signed_bare _ _ _⟩
  rw [receiveWebhook,accepted]
  decide +kernel

end Ecphoria
