import Ecphoria.Cluster.Shards
import Ecphoria.Gateway.Writes

/-! Routing a request to the shard that owns its tenant. The key is read off the credential or
the path; the handler that runs afterwards reads its tenant from where it does, and the list of
addresses is indexed by shard after its blank entries are dropped. The public pages are not behind
the router. -/
namespace Ecphoria
open Library

inductive Method where
  | get
  | head
  | post
  | put
  | patch
  | delete
deriving DecidableEq,Repr

def Method.mounted : Method → Method
  | head => get
  | method => method

/-- What routing and the handlers see of a request. `named` is the tenant each object of the body, or the query,
names; `header` is `X-Ecphoria-Tenant`. -/
structure GatewayRequest where
  method : Method
  path : String
  token : Option String
  header : Option String
  named : List (Option String)
  forwarded : Bool

structure ShardRoutingState where
  router : ShardRouter
  myShard : Nat
  baseUrls : List String

inductive ShardTarget where
  | here
  | forward (base : String)
  | unroutable
deriving DecidableEq,Repr

inductive Routed where
  | served
  | unroutable (tenant : String)
  | proxyLoop
  | forwarded (base : String)
deriving DecidableEq,Repr

/-- `trim_end_matches('/')` -/
def trimEndSlashes (s : String) : String := String.ofList (s.toList.reverse.dropWhile (· = '/')).reverse

def afterFirst (needle : List Char) : List Char → Option (List Char)
  | [] => if needle = [] then some [] else none
  | c :: text => if needle.isPrefixOf (c :: text) then some ((c :: text).drop needle.length) else afterFirst needle text

def hasPart (needle text : String) : Bool := (afterFirst needle.toList text.toList).isSome

def baseUrlEntries (config : String) : List String :=
  (config.toList.splitOn ',').map (fun entry => trim (String.ofList entry))

/-- `cluster.shard_base_urls`, with the blank entries dropped. -/
def shardBaseUrls (config : String) : List String := (baseUrlEntries config).filter (fun url => !url.isEmpty)

def configuredUrl (config : String) (shard : Nat) : Option String :=
  (((baseUrlEntries config)[shard]?).filter (fun url => !url.isEmpty)).map trimEndSlashes

def ShardRoutingState.configured (shards myShard : Nat) (config : String) : ShardRoutingState :=
  ⟨.new shardHash shards 128,myShard,shardBaseUrls config⟩

section
variable (s : ShardRoutingState) (r : GatewayRequest)

def routeDecision (tenant : String) : ShardTarget :=
  let owner := s.router.shardFor shardHash tenant
  if owner = s.myShard then .here
  else
    match s.baseUrls[owner]? with
    | some url => .forward (trimEndSlashes url)
    | none => .unroutable

/-- The path tenant of a deletion, as it is written there; else the tenant of the credential. -/
def routingKey : String :=
  let deleted :=
    if r.method = .delete then
      ((afterFirst "/admin/tenants/".toList r.path.toList).map
        (fun rest => String.ofList (rest.takeWhile (· ≠ '/')))).filter (fun id => !id.isEmpty)
    else none
  (deleted.or r.token).getD "default"

/-- Requests under `/admin/` stay where they arrive, unless they delete a tenant. -/
def servedAsAdmin : Bool :=
  hasPart "/admin/" r.path && !(r.method = .delete && hasPart "/admin/tenants/" r.path)

def routeToOwningShard : Routed :=
  if servedAsAdmin r then .served
  else
    let tenant := routingKey r
    match routeDecision s tenant with
    | .here => .served
    | .unroutable => .unroutable tenant
    | .forward base => if r.forwarded then .proxyLoop else .forwarded base

end

/-- Where a handler reads its tenant: from the credential; from the credential or else the body; from these or else
the header; from the credential or else the header; from the body alone; from the body, which the credential has to
allow; from a segment of the path; or from the configuration. -/
inductive TenantSource where
  | token
  | body
  | scope
  | header
  | named
  | provisioned
  | segment (position : Nat)
  | published
deriving DecidableEq,Repr

inductive PathPart where
  | lit (text : String)
  | param
deriving DecidableEq,Repr

def PathPart.matches : PathPart → String → Bool
  | .lit text,segment => text = segment
  | .param,segment => !segment.isEmpty

structure TenantRoute where
  method : Method
  path : List PathPart
  source : TenantSource

def TenantRoute.matches (route : TenantRoute) (segments : List String) : Bool :=
  route.path.length = segments.length && (route.path.zip segments).all (fun (part,segment) => part.matches segment)

open PathPart in
/-- The handlers of the API that work on the data of a tenant, literal segments before parameters. -/
def tenantRoutes : List TenantRoute :=
  [⟨.post,[lit "query"],.token⟩,⟨.post,[lit "ingest"],.body⟩,⟨.post,[lit "webhook",param],.body⟩,
    ⟨.post,[lit "search"],.token⟩,⟨.get,[lit "state",param,lit "watch"],.token⟩,
    ⟨.get,[lit "state",param,param],.token⟩,⟨.put,[lit "state",param,param],.token⟩,
    ⟨.post,[lit "embed-and-search"],.token⟩,⟨.get,[lit "schema",lit "sources"],.token⟩,
    ⟨.get,[lit "schema",lit "agents"],.token⟩,⟨.get,[lit "schema",lit "memory-scopes"],.token⟩,
    ⟨.post,[lit "admin",lit "tenants"],.provisioned⟩,
    ⟨.get,[lit "admin",lit "tenants",param,lit "export"],.segment 2⟩,
    ⟨.post,[lit "admin",lit "tenants",param,lit "import"],.segment 2⟩,⟨.post,[lit "admin",lit "rebalance"],.named⟩,
    ⟨.delete,[lit "admin",lit "tenants",param],.segment 2⟩,⟨.delete,[lit "admin",lit "users",param],.token⟩,
    ⟨.post,[lit "memories"],.scope⟩,⟨.get,[lit "memories"],.scope⟩,⟨.put,[lit "memories",lit "by-external-id"],.scope⟩,
    ⟨.post,[lit "context-pack"],.scope⟩,⟨.get,[lit "pending"],.scope⟩,⟨.post,[lit "pending",param,lit "accept"],.header⟩,
    ⟨.post,[lit "pending",param,lit "reject"],.header⟩,⟨.post,[lit "memories",lit "batch"],.scope⟩,
    ⟨.post,[lit "documents"],.scope⟩,⟨.post,[lit "documents",lit "prune"],.scope⟩,
    ⟨.get,[lit "memories",lit "history"],.scope⟩,⟨.post,[lit "memories",lit "search"],.scope⟩,
    ⟨.get,[lit "memories",lit "watch"],.token⟩,⟨.get,[lit "memories",lit "contradictions"],.header⟩,
    ⟨.post,[lit "memories",lit "contradictions",lit "resolve"],.scope⟩,
    ⟨.post,[lit "memories",lit "grants"],.token⟩,⟨.get,[lit "memories",lit "grants"],.token⟩,
    ⟨.delete,[lit "memories",lit "grants",param],.token⟩,⟨.post,[lit "memories",lit "link"],.token⟩,
    ⟨.get,[lit "memories",lit "graph"],.token⟩,⟨.get,[lit "memories",lit "edges"],.token⟩,
    ⟨.get,[lit "memories",lit "graph",lit "centrality"],.token⟩,⟨.get,[lit "memories",lit "graph",lit "path"],.token⟩,
    ⟨.get,[lit "memories",lit "graph",lit "communities"],.token⟩,⟨.post,[lit "memories",lit "from-template"],.scope⟩,
    ⟨.get,[lit "memories",param],.token⟩,⟨.patch,[lit "memories",param],.token⟩,⟨.delete,[lit "memories",param],.token⟩,
    ⟨.get,[lit "memories",param,lit "history"],.token⟩,⟨.get,[lit "memories",param,lit "provenance"],.token⟩,
    ⟨.post,[lit "memories",param,lit "feedback"],.token⟩,
    ⟨.post,[lit "admin",lit "memory",lit "consolidate"],.scope⟩,
    ⟨.post,[lit "admin",lit "memory",lit "consolidate-similar"],.scope⟩,
    ⟨.post,[lit "attachments"],.token⟩,⟨.post,[lit "attachments"],.header⟩,⟨.get,[lit "attachments"],.token⟩,
    ⟨.post,[lit "attachments",lit "search-image"],.token⟩,⟨.get,[lit "attachments",param],.token⟩,
    ⟨.delete,[lit "attachments",param],.token⟩,⟨.post,[lit "sessions"],.token⟩,
    ⟨.post,[lit "sessions",param,lit "end"],.token⟩,⟨.get,[lit "sessions",param,lit "recall"],.token⟩,
    ⟨.post,[lit "sessions",param,lit "distill"],.token⟩,⟨.post,[lit "runs"],.token⟩,⟨.get,[lit "runs"],.token⟩,
    ⟨.get,[lit "runs",param],.token⟩,⟨.get,[lit "runs",param,lit "trace"],.token⟩,
    ⟨.post,[lit "runs",param,lit "cancel"],.token⟩,⟨.post,[lit "runs",param,lit "request-approval"],.token⟩,
    ⟨.post,[lit "runs",param,lit "approve"],.token⟩,⟨.post,[lit "runs",param,lit "resume"],.token⟩,
    ⟨.post,[lit "agents",lit "run"],.token⟩,⟨.post,[lit "triggers"],.token⟩,⟨.get,[lit "triggers"],.token⟩,
    ⟨.post,[lit "mcp"],.body⟩,⟨.post,[lit "v1",lit "chat",lit "completions"],.token⟩,
    ⟨.post,[lit "v1",lit "messages"],.token⟩,⟨.get,[lit "public"],.published⟩,⟨.get,[lit "public",lit "memories"],.published⟩]

def pathSegments (path : String) : List String := ((path.toList.splitOn '/').drop 1).map String.ofList

def hexDigit (b : UInt8) : Option UInt8 :=
  if 48 ≤ b ∧ b ≤ 57 then some (b - 48)
  else if 97 ≤ b ∧ b ≤ 102 then some (b - 87)
  else if 65 ≤ b ∧ b ≤ 70 then some (b - 55)
  else none

def percentDecodeBytes : List UInt8 → List UInt8
  | 37 :: high :: low :: rest =>
    match hexDigit high,hexDigit low with
    | some h,some l => (h * 16 + l) :: percentDecodeBytes rest
    | _,_ => 37 :: percentDecodeBytes (high :: low :: rest)
  | b :: rest => b :: percentDecodeBytes rest
  | [] => []

def percentDecode (segment : String) : Option String :=
  String.fromUTF8? ⟨(percentDecodeBytes segment.toUTF8.toList).toArray⟩

/-- `tenant_header_layer` -/
def tenantHeader (raw : Option String) : Option String :=
  (raw.map trim).filter (fun t => !t.isEmpty && t.utf8ByteSize ≤ 200)

def GatewayRequest.caller (r : GatewayRequest) : Caller := ⟨r.token,tenantHeader r.header⟩

/-- The tenants on whose data a handler works; `publish` is the tenant whose memories are published, if publishing is on. -/
def GatewayRequest.tenants (r : GatewayRequest) (publish : Option String) : TenantSource → List String
  | .token => [r.token.getD "default"]
  | .body => r.named.map (fun n => (r.token.or n).getD "default")
  | .scope => r.named.map (fun n => (scopeWithHeader r.caller ⟨n,none,none,none⟩).tenantId)
  | .header => [(scopeWithHeader r.caller ⟨none,none,none,none⟩).tenantId]
  | .named => r.named.filterMap id
  | .provisioned =>
    ((r.named.filterMap id).map trim).filter (fun name => !name.isEmpty && r.token.all (fun own => own = name))
  | .segment position => (((pathSegments r.path)[position]?).bind percentDecode).toList
  | .published => publish.toList

def GatewayRequest.pathRoute (r : GatewayRequest) : Option TenantRoute :=
  tenantRoutes.find? (fun route => route.matches (pathSegments r.path))

/-- The router picks the path first, and then the method among the handlers of that path. -/
def GatewayRequest.dataTenants (r : GatewayRequest) (publish : Option String) : List String :=
  match r.pathRoute with
  | none => []
  | some first => (tenantRoutes.filter (fun route => route.path = first.path && route.method = r.method.mounted)).flatMap
      (fun route => r.tenants publish route.source)

/-- The public pages are mounted beside the API, before any of its layers. -/
def GatewayRequest.isPublic (r : GatewayRequest) (publish : Option String) : Bool :=
  publish.isSome && r.pathRoute.any (fun route => route.source = .published)

section
variable (publish : Option String) (shards myShard : Nat) (config : String) (r : GatewayRequest) (t : String)

def handleRequest : Routed :=
  if r.isPublic publish then .served else routeToOwningShard (.configured shards myShard config) r

def ownerOf (shards : Nat) (t : String) : Nat := (ShardRouter.new shardHash shards 128).shardFor shardHash t

/-- The request runs on the shard that owns the tenant, or goes to the address the list has for that shard, or is
turned away. -/
def RoutesToOwner : Prop :=
  match handleRequest publish shards myShard config r with
  | .served => ownerOf shards t = myShard
  | .forwarded base => configuredUrl config (ownerOf shards t) = some base
  | .unroutable _ => True
  | .proxyLoop => True

/-- The list without its blank entries has for a shard the address that the whole list has. -/
def Listed (shard : Nat) : Prop :=
  ∀ url, (shardBaseUrls config)[shard]? = some url → configuredUrl config shard = some (trimEndSlashes url)

/-- The request is routed, its key is on the shard of the tenant, and the list of addresses is right there, unless the
request was forwarded before. -/
structure RoutedByTenant : Prop where
  apart : r.isPublic publish = false
  outside : servedAsAdmin r = false
  key : ownerOf shards (routingKey r) = ownerOf shards t
  listed : r.forwarded = false → Listed config (ownerOf shards t)

end

section
variable {publish : Option String} {shards myShard : Nat} {config : String} {r : GatewayRequest} {t : String}

theorem ownerOf_lt (sharded : 1 < shards) (t : String) : ownerOf shards t < shards := by
  obtain ⟨_,_,inside⟩ := shardFor_new shardHash shards 128 t
  rw [ownerOf]
  omega

theorem routesToOwner_served (served : handleRequest publish shards myShard config r = .served) :
    RoutesToOwner publish shards myShard config r t ↔ ownerOf shards t = myShard := by
  rw [RoutesToOwner,served]

theorem routesToOwner_here (apart : r.isPublic publish = false) (outside : servedAsAdmin r = false)
    (here : ownerOf shards (routingKey r) = myShard) :
    RoutesToOwner publish shards myShard config r t ↔ ownerOf shards t = myShard := by
  have decided : routeDecision (.configured shards myShard config) (routingKey r) = .here := if_pos here
  exact routesToOwner_served (by simp [handleRequest,apart,routeToOwningShard,outside,decided])

theorem routesToOwner_away (apart : r.isPublic publish = false) (outside : servedAsAdmin r = false)
    (away : ownerOf shards (routingKey r) ≠ myShard) :
    RoutesToOwner publish shards myShard config r t ↔ (r.forwarded = false →
      ∀ url, (shardBaseUrls config)[ownerOf shards (routingKey r)]? = some url →
        configuredUrl config (ownerOf shards t) = some (trimEndSlashes url)) := by
  have decided : routeDecision (.configured shards myShard config) (routingKey r) =
      match (shardBaseUrls config)[ownerOf shards (routingKey r)]? with
      | some url => .forward (trimEndSlashes url)
      | none => .unroutable := if_neg away
  rw [RoutesToOwner,handleRequest,apart,if_neg Bool.false_ne_true,routeToOwningShard,outside,if_neg Bool.false_ne_true]
  simp only [decided]
  cases found : (shardBaseUrls config)[ownerOf shards (routingKey r)]? with
  | none => simp
  | some url => cases marked : r.forwarded <;> simp

theorem shardBaseUrls_plain (plain : ∀ url ∈ baseUrlEntries config, url ≠ "") (i : Nat) : Listed config i := by
  have whole : shardBaseUrls config = baseUrlEntries config := by
    apply List.filter_eq_self.mpr
    intro url inside
    simpa using plain url inside
  intro url found
  have filled : url.isEmpty = false := by simpa using plain url (List.mem_of_getElem? (whole ▸ found))
  rw [whole] at found
  simp [configuredUrl,found,Option.filter,filled]

/-- A request whose key is its tenant is routed right, outside `/admin/` and with a list that has no blank entry. -/
theorem RoutedByTenant.of_key (apart : r.isPublic publish = false) (outside : servedAsAdmin r = false)
    (key : routingKey r = t) (plain : ∀ url ∈ baseUrlEntries config, url ≠ "") : RoutedByTenant publish shards config r t :=
  ⟨apart,outside,by rw [key],fun _ => shardBaseUrls_plain plain _⟩

end

def listRequest : GatewayRequest := ⟨.get,"/memories",some (vnodeName 1 0),none,[none],false⟩

private theorem of_both_pods {P : Nat → Prop} (all : ∀ pod < 2, P pod) : P 0 ∧ P 1 := ⟨all 0 Nat.two_pos,all 1 Nat.one_lt_two⟩

/-- An agent called admin: its state is served on the shard the request arrives at. -/
def adminAgentRequest : GatewayRequest := ⟨.get,"/state/admin/mood",some (vnodeName 1 0),none,[],false⟩

end Ecphoria
