import Ecphoria.Engine.Calls
import Ecphoria.Library.Text

/-! Webhooks: the payload of a vendor becomes one event, and an event that marks a durable
outcome also becomes a memory. -/
namespace Ecphoria
open Library

/-- `Value::pointer` along object keys. -/
def Json.pointer : List String → Json → Option Json
  | [],value => some value
  | k :: path,value => (value.get k).bind (pointer path)

def Json.textAt (path : List String) (value : Json) : Option String := (value.pointer path).bind Json.asStr

def Json.asNat : Json → Option Nat
  | .int n => if 0 ≤ n then some n.toNat else none
  | _ => none

def Json.asBool : Json → Option Bool
  | .bool b => some b
  | _ => none

/-- The events a front end builds itself: the id and the time are drawn by the node. -/
structure EventStamp where
  id : Uuid
  now : Int

def EventStamp.event (stamp : EventStamp) (source eventType : String) (payload : Json) : Event :=
  ⟨stamp.id,source,eventType,payload,stamp.now,none,none,[],none⟩

def githubType (payload : Json) (action : String) : String :=
  if (payload.get "pull_request").isSome then "pull_request." ++ action
  else if (payload.get "issue").isSome then "issue." ++ action
  else if (payload.get "commits").isSome then "push"
  else if (payload.get "release").isSome then "release." ++ action
  else "github." ++ action

def normalizeGithub (stamp : EventStamp) (payload : Json) : Event :=
  let action := (payload.textAt ["action"]).getD "unknown"
  let repo := (payload.textAt ["repository","full_name"]).getD "unknown"
  let sender := (payload.textAt ["sender","login"]).getD "unknown"
  stamp.event ("github/" ++ repo) (githubType payload action)
    (.obj [("action",.str action),("raw",payload),("repository",.str repo),("sender",.str sender)])

def normalizeSentry (stamp : EventStamp) (payload : Json) : Event :=
  let action := (payload.textAt ["action"]).getD "triggered"
  let project := (((payload.pointer ["data","issue","project","slug"]).or
    (payload.pointer ["project_slug"])).bind Json.asStr).getD "unknown"
  let title := (((payload.pointer ["data","issue","title"]).or (payload.pointer ["message"])).bind Json.asStr).getD ""
  let level := (payload.textAt ["data","issue","level"]).getD "error"
  stamp.event ("sentry/" ++ project) ("issue." ++ action)
    (.obj [("action",.str action),("level",.str level),("project",.str project),("title",.str title)])

def normalizeSlack (stamp : EventStamp) (payload : Json) : Event :=
  let channel := (payload.textAt ["event","channel"]).getD "unknown"
  let user := (payload.textAt ["event","user"]).getD "unknown"
  let text := (payload.textAt ["event","text"]).getD ""
  stamp.event ("slack/" ++ channel) ((payload.textAt ["event","type"]).getD "message")
    (.obj [("channel",.str channel),("text",.str text),("user",.str user)])

def normalizePagerduty (stamp : EventStamp) (payload : Json) : Event :=
  let eventType := (payload.textAt ["event","event_type"]).getD "incident.trigger"
  let service := (payload.textAt ["event","data","service","name"]).getD "unknown"
  let title := (payload.textAt ["event","data","title"]).getD ""
  stamp.event ("pagerduty/" ++ service) eventType
    (.obj [("event_type",.str eventType),("service",.str service),("title",.str title)])

def normalizeGeneric (stamp : EventStamp) (source : String) (payload : Json) : Event :=
  let eventType := ((((payload.get "event_type").or (payload.get "type")).or (payload.get "action")).bind
    Json.asStr).getD "webhook"
  stamp.event source eventType payload

def normalizeWebhook (stamp : EventStamp) (source : String) (payload : Json) : List Event :=
  match source with
  | "github" => [normalizeGithub stamp payload]
  | "sentry" => [normalizeSentry stamp payload]
  | "slack" => [normalizeSlack stamp payload]
  | "pagerduty" => [normalizePagerduty stamp payload]
  | _ => [normalizeGeneric stamp source payload]

structure PromotionConfig where
  enabled : Bool
  rules : List String

structure Promotion where
  subject : String
  content : String

/-- `github/acme/api` is of `github`. -/
def vendor (source : String) : String :=
  match splitOnce '/' source.toList with
  | some (first,_) => String.ofList first
  | none => source

theorem vendor_slash {name : String} (plain : '/' ∉ name.toList) (rest : String) : vendor (name ++ "/" ++ rest) = name := by
  have cut : (name ++ "/" ++ rest).toList = name.toList ++ '/' :: rest.toList := by simp
  rw [vendor,cut,splitOnce_eq_some plain]
  exact String.ofList_toList

theorem vendor_unslashed {source : String} (plain : '/' ∉ source.toList) : vendor source = source := by
  rw [vendor,splitOnce_eq_none.mpr plain]

def equalIgnoringCase (a b : String) : Bool := a.toList.map Char.toLower = b.toList.map Char.toLower

/-- `*` matches all, and a type that ends in `*` matches by what stands before it. -/
def matchesType (wanted eventType : String) : Bool :=
  wanted = "*" || wanted = eventType ||
    (wanted.toList.getLast? = some '*' && wanted.toList.dropLast.isPrefixOf eventType.toList)

def matchesRules (event : Event) (rules : List String) : Bool :=
  rules.any (fun rule =>
    match splitOnce ':' rule.toList with
    | none => false
    | some (wanted,type) =>
      (wanted = ['*'] || equalIgnoringCase (String.ofList wanted) (vendor event.source)) &&
        matchesType (String.ofList type) event.eventType)

def defaultRules : List String :=
  ["github:pull_request.closed","github:issue.closed","sentry:issue.resolved","pagerduty:incident.resolved",
    "pagerduty:incident.resolve"]

section
variable (env : Env) (isAlphanumeric : Char → Bool)

def slugLoop : List Char → List Char → Bool → List Char
  | [],out,_ => out
  | c :: rest,out,lastDash =>
    if isAlphanumeric c then slugLoop rest (out ++ (env.toLowercase (String.singleton c)).toList) false
    else if lastDash then slugLoop rest out true
    else slugLoop rest (out ++ ['-']) true

def slug (s : String) : String :=
  let out := slugLoop env isAlphanumeric (s.toList.take 120) [] true
  String.ofList ((out.dropWhile (· = '-')).reverse.dropWhile (· = '-')).reverse

def promotePullRequest (payload : Json) (repo : String) : Option Promotion :=
  ((payload.pointer ["raw","pull_request","number"]).bind Json.asNat).map (fun number =>
    let title := (payload.textAt ["raw","pull_request","title"]).getD "(no title)"
    let merged := ((payload.pointer ["raw","pull_request","merged"]).bind Json.asBool).getD false
    let who := (payload.textAt ["sender"]).getD "someone"
    let outcome := if merged then "merged" else "closed without merging"
    ⟨repo ++ "#pr-" ++ toString number,"Pull request #" ++ toString number ++ " in " ++ repo ++ " — \"" ++ title ++
      "\" — " ++ outcome ++ " by " ++ who ++ "."⟩)

def promoteIssue (payload : Json) (repo : String) : Option Promotion :=
  ((payload.pointer ["raw","issue","number"]).bind Json.asNat).map (fun number =>
    let title := (payload.textAt ["raw","issue","title"]).getD "(no title)"
    let who := (payload.textAt ["sender"]).getD "someone"
    let body := trim ((payload.textAt ["raw","issue","body"]).getD "")
    let line := "Issue #" ++ toString number ++ " in " ++ repo ++ " — \"" ++ title ++ "\" — closed by " ++ who ++ "."
    ⟨repo ++ "#issue-" ++ toString number,if body.isEmpty then line else line ++ "\n\n" ++ body⟩)

def promoteSentry (payload : Json) : Option Promotion :=
  ((payload.textAt ["title"]).filter (fun title => !title.isEmpty)).map (fun title =>
    let project := (payload.textAt ["project"]).getD "unknown"
    let level := (payload.textAt ["level"]).getD "error"
    let action := (payload.textAt ["action"]).getD "resolved"
    ⟨"sentry/" ++ project ++ "#" ++ slug env isAlphanumeric title,
      "Sentry " ++ level ++ " in " ++ project ++ " — \"" ++ title ++ "\" — " ++ action ++ "."⟩)

def promotePagerduty (event : Event) : Option Promotion :=
  ((event.payload.textAt ["title"]).filter (fun title => !title.isEmpty)).map (fun title =>
    let service := (event.payload.textAt ["service"]).getD "unknown"
    ⟨"pagerduty/" ++ service ++ "#" ++ slug env isAlphanumeric title,
      "PagerDuty incident on " ++ service ++ " — \"" ++ title ++ "\" — " ++ event.eventType ++ "."⟩)

def promote (event : Event) : Option Promotion :=
  let repo := (event.payload.textAt ["repository"]).getD "unknown"
  match vendor event.source with
  | "github" =>
    if "pull_request.".toList.isPrefixOf event.eventType.toList then promotePullRequest event.payload repo
    else if "issue.".toList.isPrefixOf event.eventType.toList then promoteIssue event.payload repo
    else none
  | "sentry" => promoteSentry env isAlphanumeric event.payload
  | "pagerduty" => promotePagerduty env isAlphanumeric event
  | _ => none

def promotedInput (scope : MemoryScope) (event : Event) (p : Promotion) : MemoryInput where
  scope := scope
  subject := some p.subject
  content := p.content
  importance := none
  sourceEventIds := [event.id]
  metadata := .obj [("event_type",.str event.eventType),("promoted",.bool true),("source",.str event.source)]
  memType := some "episodic"
  validFrom := some event.timestamp
  project := none

def promotedInputs (config : PromotionConfig) (tenant : String) (events : List Event) : List MemoryInput :=
  (events.filter (fun event => matchesRules event config.rules)).filterMap (fun event =>
    (promote env isAlphanumeric event).map (promotedInput (.tenant tenant) event))

def promoteEvents (e : Engine) (config : PromotionConfig) (tenant : String) (events : List Event)
    (draws : Nat → Draw) : Nat × Engine :=
  if !config.enabled then (0,e)
  else
    let inputs := promotedInputs env isAlphanumeric config tenant events
    if inputs.isEmpty then (0,e)
    else
      match memoryAddBatch env e (withDraws inputs draws) with
      | (.error _,e) => (0,e)
      | (.ok added,e) => (added.length,e)

end

end Ecphoria
