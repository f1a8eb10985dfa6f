import Ecphoria.Data
import Ecphoria.Library.IpAddress

/-! Calls of downstream tools. Before a call the host of the server is looked up and its addresses are checked; the
client that makes the call looks it up again and connects to what it then finds. -/
namespace Ecphoria
open Library

inductive UrlHost where
  | domain (name : String)
  | ipv4 (a : Ipv4Addr)
  | ipv6 (a : Ipv6Addr)
deriving DecidableEq

structure Url where
  scheme : String
  host : Option UrlHost
  port : Option Nat

def Url.isHttp (url : Url) : Bool := url.scheme = "http" || url.scheme = "https"

def postUrl (url : String) : String := String.ofList (url.toList.reverse.dropWhile (· = '/')).reverse ++ "/mcp"

/-- The URL parser, and the texts of what stands in errors. A path behind an HTTP URL does not change its host. -/
structure UrlLibrary where
  parse : String → Except String Url
  unresolved : String
  display : IpAddr → String
  hostText : UrlHost → String
  jsonText : Json → String
  posted : ∀ url parsed other, parse url = .ok parsed → parsed.isHttp = true → parse (postUrl url) = .ok other →
    other.host = parsed.host

/-- The two lookups of the name: that of the check, and that of the client. -/
structure Lookups where
  checked : Except String (List IpAddr)
  connected : Except String (List IpAddr)

def isBlockedV4 (a : Ipv4Addr) (allowPrivate : Bool) : Bool :=
  if a.isLinkLocal || a.isUnspecified || a.isMulticast || a.isBroadcast then true
  else
    let cgnat := a.octet 0 = 100 && (64 ≤ a.octet 1 && a.octet 1 ≤ 127)
    if allowPrivate then false else a.isLoopback || a.isPrivate || cgnat

def isBlockedV6 (a : Ipv6Addr) (allowPrivate : Bool) : Bool :=
  if a.isUnspecified || a.isMulticast then true
  else if (a.segment 0 &&& 0xffc0) = 0xfe80 then true
  else if allowPrivate then false
  else a.isLoopback || (a.segment 0 &&& 0xfe00) = 0xfc00

def isBlockedIp (ip : IpAddr) (allowPrivate : Bool) : Bool :=
  match ip with
  | .v4 a => isBlockedV4 a allowPrivate
  | .v6 a =>
    match a.toIpv4Mapped with
    | some b => isBlockedV4 b allowPrivate
    | none => isBlockedV6 a allowPrivate

section
variable (library : UrlLibrary)

def validateUrlShape (url : String) : Except String Unit :=
  match library.parse url with
  | .error text => .error s!"invalid tool server URL '{url}': {text}"
  | .ok parsed =>
    if !parsed.isHttp then .error s!"tool server URL scheme must be http(s), got '{parsed.scheme}'"
    else if parsed.host.isNone then .error s!"tool server URL '{url}' has no host"
    else .ok ()

/-- The text of the host read as an address: one of the sixth version stands there in brackets, and is not read. -/
def UrlHost.literal : UrlHost → Option IpAddr
  | .ipv4 a => some (.v4 a)
  | .ipv6 _ => none
  | .domain _ => none

/-- `lookup_host` of the text of the host: what stands in brackets is no name and is not found. -/
def UrlHost.lookup (host : UrlHost) (found : Except String (List IpAddr)) : Except String (List IpAddr) :=
  match host with
  | .ipv6 _ => .error library.unresolved
  | _ => found

def validateAddresses (host : UrlHost) (allowPrivate : Bool) : List IpAddr → Except String Unit
  | [] => .error s!"tool server host '{library.hostText host}' resolved to no addresses"
  | addrs =>
    match addrs.find? (fun ip => isBlockedIp ip allowPrivate) with
    | some ip => .error s!"blocked tool server address (SSRF guard): {library.hostText host} → {library.display ip}"
    | none => .ok ()

def validateOutboundUrl (url : String) (allowPrivate : Bool) (lookup : Except String (List IpAddr)) : Except String Unit :=
  match validateUrlShape library url with
  | .error text => .error text
  | .ok () =>
    match library.parse url with
    | .error text => .error s!"invalid URL: {text}"
    | .ok parsed =>
      match parsed.host,parsed.port with
      | none,_ => .error "URL has no host"
      | some _,none => .error "URL has no port"
      | some host,some _ =>
        match host.literal with
        | some ip =>
          if isBlockedIp ip allowPrivate then .error s!"blocked tool server address (SSRF guard): {library.display ip}"
          else .ok ()
        | none =>
          match host.lookup library lookup with
          | .error text => .error s!"cannot resolve tool server host '{library.hostText host}': {text}"
          | .ok addrs => validateAddresses library host allowPrivate addrs

/-- The registry: every URL in it has passed the check of its shape. -/
structure ToolGateway where
  servers : String → Option String
  allowPrivateNetworks : Bool
  shaped : ∀ name url, servers name = some url → validateUrlShape library url = .ok ()

def ToolGateway.new (allowPrivateNetworks : Bool) : ToolGateway library := ⟨fun _ => none,allowPrivateNetworks,nofun⟩

variable {library}

def ToolGateway.register (gateway : ToolGateway library) (name url : String) : Except String (ToolGateway library) :=
  match shape : validateUrlShape library url with
  | .error text => .error text
  | .ok () => .ok { gateway with
      servers := fun other => if other = name then some url else gateway.servers other
      shaped := by
        intro other kept found
        split at found
        next =>
          cases found
          exact shape
        next => exact gateway.shaped other kept found }

/-- The addresses a client may connect to: a literal, or what it finds under a name. -/
def UrlHost.connections (host : UrlHost) (lookup : Except String (List IpAddr)) : List IpAddr :=
  match host with
  | .ipv4 a => [.v4 a]
  | .ipv6 a => [.v6 a]
  | .domain _ => lookup.toOption.getD []

variable (library) in
/-- What comes of the answer to a call: it may not arrive, or not be JSON. -/
def readAnswer : Except String (Except String Json) → Except String Json
  | .error text => .error s!"downstream MCP request failed: {text}"
  | .ok (.error text) => .error s!"downstream MCP response parse failed: {text}"
  | .ok (.ok json) =>
    match json.get "error" with
    | some err => .error s!"downstream MCP error: {library.jsonText err}"
    | none => .ok ((json.get "result").getD .null)

/-- A call, with the addresses to which connections may be opened for it. -/
def ToolGateway.call (gateway : ToolGateway library) (server : String) (lookups : Lookups)
    (answer : Except String (Except String Json)) : Except String Json × List IpAddr :=
  match gateway.servers server with
  | none => (.error s!"unknown tool server: {server}",[])
  | some url =>
    match validateOutboundUrl library url gateway.allowPrivateNetworks lookups.checked with
    | .error text => (.error text,[])
    | .ok () =>
      match library.parse (postUrl url) with
      | .error text => (.error s!"downstream MCP request failed: {text}",[])
      | .ok parsed =>
        match parsed.host with
        | none => (.error "downstream MCP request failed: empty host",[])
        | some host => (readAnswer library answer,host.connections lookups.connected)

end

/-- Addresses never to be reached, and those to be reached in private networks only. -/
def ForbiddenV4 (allowPrivate : Bool) (a : Ipv4Addr) : Prop :=
  a.InNetwork (.ofOctets 169 254 0 0) 16 ∨ a.InNetwork (.ofOctets 0 0 0 0) 32 ∨ a.InNetwork (.ofOctets 224 0 0 0) 4 ∨
    a.InNetwork (.ofOctets 255 255 255 255) 32 ∨
    allowPrivate = false ∧ (a.InNetwork (.ofOctets 127 0 0 0) 8 ∨ a.InNetwork (.ofOctets 10 0 0 0) 8 ∨
      a.InNetwork (.ofOctets 172 16 0 0) 12 ∨ a.InNetwork (.ofOctets 192 168 0 0) 16 ∨
      a.InNetwork (.ofOctets 100 64 0 0) 10)

def ForbiddenV6 (allowPrivate : Bool) (a : Ipv6Addr) : Prop :=
  a.InNetwork (0xfe80 * 2 ^ 112) 10 ∨ a.InNetwork 0 128 ∨ a.InNetwork (0xff00 * 2 ^ 112) 8 ∨
    allowPrivate = false ∧ (a.InNetwork 1 128 ∨ a.InNetwork (0xfc00 * 2 ^ 112) 7)

/-- What holds an address of the fourth version counts as that address. -/
def Forbidden (allowPrivate : Bool) : IpAddr → Prop
  | .v4 a => ForbiddenV4 allowPrivate a
  | .v6 a => ForbiddenV6 allowPrivate a ∨ ∃ b, a.embedded = some b ∧ ForbiddenV4 allowPrivate b

/-- An address that the check would refuse, or that holds one in a form that the check does not look into. -/
def Escapes (allowPrivate : Bool) (ip : IpAddr) : Prop :=
  isBlockedIp ip allowPrivate = true ∨
    ∃ a b, ip = .v6 a ∧ a.disguised = some b ∧ isBlockedIp (.v4 b) allowPrivate = true

theorem isBlockedV4_iff (a : Ipv4Addr) (allowPrivate : Bool) :
    isBlockedV4 a allowPrivate = true ↔ ForbiddenV4 allowPrivate a := by
  have cgnat : (a.octet 0 = 100 && (64 ≤ a.octet 1 && a.octet 1 ≤ 127)) = true ↔ a.InNetwork (.ofOctets 100 64 0 0) 10 := by
    have bound := a.bits.isLt
    have network : (Ipv4Addr.ofOctets 100 64 0 0).bits.toNat = 0x64400000 := by decide
    simp only [Ipv4Addr.InNetwork,sharesLead,network,Bool.and_eq_true,decide_eq_true_eq]
    unfold Ipv4Addr.octet
    omega
  have private_iff (other : Prop) : a.InNetwork (.ofOctets 10 0 0 0) 8 ∨ a.InNetwork (.ofOctets 172 16 0 0) 12 ∨
      a.InNetwork (.ofOctets 192 168 0 0) 16 ∨ other ↔ a.isPrivate = true ∨ other := by
    rw [a.isPrivate_iff,or_assoc,or_assoc]
  unfold isBlockedV4 ForbiddenV4
  rw [← a.isLinkLocal_iff,← a.isUnspecified_iff,← a.isMulticast_iff,← a.isBroadcast_iff,← a.isLoopback_iff,← cgnat,
    private_iff]
  cases allowPrivate with
  | true => simp [or_assoc]
  | false => 
    generalize (a.octet 0 = 100 && (64 ≤ a.octet 1 && a.octet 1 ≤ 127) : Bool) = shared
    grind

theorem isBlockedV6_iff (a : Ipv6Addr) (allowPrivate : Bool) :
    isBlockedV6 a allowPrivate = true ↔ ForbiddenV6 allowPrivate a := by
  unfold isBlockedV6 ForbiddenV6
  rw [← a.linkLocal_iff,← a.uniqueLocal_iff,← a.isUnspecified_iff,← a.isLoopback_iff,← a.isMulticast_iff]
  cases allowPrivate with
  | true => grind
  | false => grind

theorem mapped_apart (a : Ipv6Addr) (mapped : a.InNetwork Ipv6Addr.mappedNetwork 96) (allowPrivate : Bool) :
    ¬ForbiddenV6 allowPrivate a ∧ a.disguised = none := by
  have lead : a.bits.toNat / 2 ^ 32 = 0xffff := mapped
  constructor
  · unfold ForbiddenV6 Ipv6Addr.InNetwork sharesLead
    omega
  · have apart : ¬(a.InNetwork 0 96 ∨ a.InNetwork Ipv6Addr.nat64Network 96) ∧ ¬a.InNetwork Ipv6Addr.sixToFourNetwork 16 := by
      unfold Ipv6Addr.InNetwork sharesLead Ipv6Addr.nat64Network Ipv6Addr.sixToFourNetwork
      omega
    simp only [Ipv6Addr.disguised,Bool.or_eq_true,decide_eq_true_eq,if_neg apart.1,if_neg apart.2]

theorem forbidden_iff (allowPrivate : Bool) (ip : IpAddr) : Forbidden allowPrivate ip ↔ Escapes allowPrivate ip := by
  cases ip with
  | v4 a => simp [Forbidden,Escapes,isBlockedIp,isBlockedV4_iff]
  | v6 a =>
    unfold Forbidden Escapes
    by_cases mapped : a.InNetwork Ipv6Addr.mappedNetwork 96
    · have ⟨outside,plain⟩ := mapped_apart a mapped allowPrivate
      simp [isBlockedIp,a.toIpv4Mapped_eq,Ipv6Addr.embedded,mapped,outside,plain,isBlockedV4_iff]
    · simp [isBlockedIp,a.toIpv4Mapped_eq,Ipv6Addr.embedded,mapped,isBlockedV4_iff,isBlockedV6_iff]

section
variable {library : UrlLibrary}

/-- What the check leaves open: under a name whose addresses it has accepted the client must find no other one that it
would refuse, and none that holds such an address in disguise. -/
def Guarded (gateway : ToolGateway library) (server : String) (lookups : Lookups) : Prop :=
  ∀ url parsed name addrs, gateway.servers server = some url → library.parse url = .ok parsed →
    parsed.host = some (.domain name) → parsed.port.isSome = true → (library.parse (postUrl url)).isOk = true →
    lookups.checked = .ok addrs → addrs ≠ [] → (∀ ip ∈ addrs,isBlockedIp ip gateway.allowPrivateNetworks = false) →
    ∀ ip ∈ lookups.connected.toOption.getD [],
      (ip ∉ addrs → isBlockedIp ip gateway.allowPrivateNetworks = false) ∧
        ∀ a b, ip = .v6 a → a.disguised = some b → isBlockedIp (.v4 b) gateway.allowPrivateNetworks = false

def UrlHost.Passes (host : UrlHost) (allowPrivate : Bool) (lookup : Except String (List IpAddr)) : Prop :=
  match host with
  | .ipv4 a => isBlockedIp (.v4 a) allowPrivate = false
  | .ipv6 _ => False
  | .domain _ => ∃ addrs, lookup = .ok addrs ∧ addrs ≠ [] ∧ ∀ ip ∈ addrs,isBlockedIp ip allowPrivate = false

theorem validateAddresses_iff {host : UrlHost} {allowPrivate : Bool} {addrs : List IpAddr} :
    validateAddresses library host allowPrivate addrs = .ok () ↔
      addrs ≠ [] ∧ ∀ ip ∈ addrs,isBlockedIp ip allowPrivate = false := by
  unfold validateAddresses
  split
  next => simp
  next some =>
    split
    next ip found =>
      refine ⟨nofun,fun given => ?_⟩
      have refused := List.find?_some found
      rw [given.2 ip (List.mem_of_find?_eq_some found)] at refused
      cases refused
    next none =>
      refine ⟨fun _ => ⟨some,fun ip inside => ?_⟩,fun _ => rfl⟩
      simpa using List.find?_eq_none.mp none ip inside

theorem validateUrlShape_iff {url : String} :
    validateUrlShape library url = .ok () ↔ ∃ parsed, library.parse url = .ok parsed ∧ parsed.isHttp = true ∧
      parsed.host.isSome = true := by
  unfold validateUrlShape
  cases library.parse url with
  | error text => simp
  | ok parsed => cases http : parsed.isHttp <;> cases named : parsed.host <;> simp [http,named]

theorem validateOutboundUrl_iff {url : String} {allowPrivate : Bool} {lookup : Except String (List IpAddr)} :
    validateOutboundUrl library url allowPrivate lookup = .ok () ↔ ∃ parsed host, library.parse url = .ok parsed ∧
      parsed.isHttp = true ∧ parsed.host = some host ∧ parsed.port.isSome = true ∧ host.Passes allowPrivate lookup := by
  unfold validateOutboundUrl
  cases shape : validateUrlShape library url with
  | error text =>
    refine ⟨nofun,?_⟩
    rintro ⟨parsed,host,parse_eq,http,host_eq,_⟩
    have shaped := validateUrlShape_iff.mpr ⟨parsed,parse_eq,http,by rw [host_eq]; rfl⟩
    rw [shape] at shaped
    cases shaped
  | ok _ =>
    obtain ⟨parsed,parse_eq,http,named⟩ := validateUrlShape_iff.mp shape
    obtain ⟨host,host_eq⟩ := Option.isSome_iff_exists.mp named
    simp only [parse_eq,host_eq,Except.ok.injEq,exists_and_left,exists_eq_left',Option.some.injEq,http,true_and]
    cases port_eq : parsed.port with
    | none => simp
    | some port =>
      cases host with
      | ipv4 a => cases blocked : isBlockedIp (.v4 a) allowPrivate <;> simp [UrlHost.literal,UrlHost.Passes,blocked]
      | ipv6 a => simp [UrlHost.literal,UrlHost.lookup,UrlHost.Passes]
      | domain name =>
        cases lookup with
        | error text => simp [UrlHost.literal,UrlHost.lookup,UrlHost.Passes]
        | ok addrs => simp [UrlHost.literal,UrlHost.lookup,UrlHost.Passes,validateAddresses_iff]

theorem mem_call_iff (gateway : ToolGateway library) (server : String) (lookups : Lookups)
    (answer : Except String (Except String Json)) (ip : IpAddr) :
    ip ∈ (gateway.call server lookups answer).2 ↔ ∃ url posted host, gateway.servers server = some url ∧
      validateOutboundUrl library url gateway.allowPrivateNetworks lookups.checked = .ok () ∧
      library.parse (postUrl url) = .ok posted ∧ posted.host = some host ∧ ip ∈ host.connections lookups.connected := by
  constructor
  · intro reached
    unfold ToolGateway.call at reached
    split at reached
    next => cases reached
    next url found =>
      split at reached
      next => cases reached
      next passed =>
        split at reached
        next => cases reached
        next posted posted_eq =>
          split at reached
          next => cases reached
          next host host_eq => exact ⟨url,posted,host,found,passed,posted_eq,host_eq,reached⟩
  · rintro ⟨url,posted,host,found,passed,posted_eq,host_eq,reached⟩
    simpa [ToolGateway.call,found,passed,posted_eq,host_eq] using reached

/-- A call opens no connection to a forbidden address exactly where it is guarded. -/
theorem call_reaches_iff (gateway : ToolGateway library) (server : String) (lookups : Lookups)
    (answer : Except String (Except String Json)) :
    (∀ ip ∈ (gateway.call server lookups answer).2,¬Forbidden gateway.allowPrivateNetworks ip) ↔
      Guarded gateway server lookups := by
  simp only [forbidden_iff,mem_call_iff]
  constructor
  · intro safe url parsed name addrs found parse_eq host_eq ported posts checked some accepted ip reached
    obtain ⟨posted,posted_eq⟩ : ∃ posted, library.parse (postUrl url) = .ok posted := by
      cases parse : library.parse (postUrl url) with
      | error text => simp [parse,Except.isOk,Except.toBool] at posts
      | ok posted => exact ⟨posted,rfl⟩
    have shape := gateway.shaped server url found
    obtain ⟨other,other_eq,http,_⟩ := validateUrlShape_iff.mp shape
    cases parse_eq.symm.trans other_eq
    have passed := validateOutboundUrl_iff.mpr ⟨parsed,.domain name,parse_eq,http,host_eq,ported,addrs,checked,some,accepted⟩
    have same := (library.posted url parsed posted parse_eq http posted_eq).trans host_eq
    have kept := safe ip ⟨url,posted,_,found,passed,posted_eq,same,reached⟩
    obtain ⟨open',plain⟩ := not_or.mp kept
    refine ⟨fun _ => Bool.not_eq_true _ ▸ open',fun a b is hidden => ?_⟩
    exact Bool.eq_false_iff.mpr fun blocked => plain ⟨a,b,is,hidden,blocked⟩
  · rintro guarded ip ⟨url,posted,host,found,passed,posted_eq,host_eq,reached⟩
    obtain ⟨parsed,first,parse_eq,http,first_eq,ported,passes⟩ := validateOutboundUrl_iff.mp passed
    have same : some host = some first :=
      host_eq.symm.trans ((library.posted url parsed posted parse_eq http posted_eq).trans first_eq)
    cases same
    cases host with
    | ipv6 a => exact passes.elim
    | ipv4 a =>
      rw [List.mem_singleton.mp reached]
      rintro (blocked | ⟨_,_,other,_⟩)
      · rw [show isBlockedIp (.v4 a) gateway.allowPrivateNetworks = false from passes] at blocked
        cases blocked
      · cases other
    | domain name =>
      obtain ⟨addrs,checked,some,accepted⟩ := passes
      have posts : (library.parse (postUrl url)).isOk = true := by
        rw [posted_eq]
        rfl
      obtain ⟨beyond,plain⟩ := guarded url parsed name addrs found parse_eq first_eq ported posts checked some accepted ip reached
      rintro (blocked | ⟨a,b,is,hidden,blocked⟩)
      · by_cases listed : ip ∈ addrs
        · rw [accepted ip listed] at blocked
          cases blocked
        · rw [beyond listed] at blocked
          cases blocked
      · rw [plain a b is hidden] at blocked
        cases blocked

end

section
private def toolLibrary : UrlLibrary where
  parse _ := .ok ⟨"http",some (.domain "tools.example"),some 80⟩
  unresolved := "failed to lookup address information"
  display _ := "address"
  hostText _ := "tools.example"
  jsonText _ := ""
  posted := by
    intro _ _ _ parsed _ other
    cases parsed
    cases other
    rfl

private def reboundLookups : Lookups := ⟨.ok [.v4 (.ofOctets 93 184 216 34)],.ok [.v4 (.ofOctets 169 254 169 254)]⟩

/-- The name is found under a public address first, and under that of the metadata service by the client. -/
theorem call_rebound : ∃ gateway : ToolGateway toolLibrary,
    (ToolGateway.new toolLibrary false).register "tools" "http://tools.example" = .ok gateway ∧
      ∃ ip ∈ (gateway.call "tools" reboundLookups (.error "")).2,Forbidden gateway.allowPrivateNetworks ip := by
  refine ⟨_,rfl,_,List.mem_singleton_self _,?_⟩
  exact Or.inl (by decide)

end
end Ecphoria
