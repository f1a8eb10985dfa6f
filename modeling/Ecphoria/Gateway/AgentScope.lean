import Ecphoria.Gateway.ShardRouting
import Ecphoria.Gateway.Signatures
import Ecphoria.Engine.Ingest

/-! Who may reach the state of which agent. A credential resolves to a role and perhaps to an
agent id; the paths of the REST interface are compared with that id as they were sent, the
calls of the other two interfaces are not compared at all. -/
namespace Ecphoria
open Library

inductive Role where
  | admin
  | writer
  | reader
  | agent
deriving DecidableEq,Repr

inductive RequestMethod where
  | get
  | head
  | options
  | post
  | put
  | patch
  | delete
deriving DecidableEq,Repr

namespace Role

def fromStrLoose (env : Env) (s : String) : Option Role :=
  let lower := env.toLowercase s
  if lower = "admin" then some .admin
  else if lower = "writer" then some .writer
  else if lower = "reader" then some .reader
  else if lower = "agent" then some .agent
  else none

def allowsMethod : Role → RequestMethod → Bool
  | .admin,_ => true
  | .reader,m => m = .get || m = .head || m = .options
  | .writer,m | .agent,m => m = .get || m = .head || m = .options || m = .post || m = .put

def allowsAdminPath (r : Role) : Bool := r = .admin

end Role

structure Claims where
  sub : String
  role : String
  agentId : Option String
  tenantId : Option String

structure ApiKeyInfo where
  tenant : Option String
  role : Role

structure AuthContext where
  identity : String
  role : Role
  agentId : Option String
  tenantId : Option String

/-- What a bearer token stands for. -/
inductive Credential where
  | oidc (claims : Claims)
  | jwt (claims : Claims)
  | apiKey (info : ApiKeyInfo)

/-- The validators as they answer during one call, with the claims of a token they accept. -/
structure AuthState where
  keys : List (List UInt8 × ApiKeyInfo)
  jwt : Option (String → Option Claims)
  oidc : Option (String → Option Claims)
  requireTenant : Bool

def hexToDigest (s : String) : Option (List UInt8) :=
  if s.utf8ByteSize = 64 ∧ s.toList.all isHexDigit then hexDecode s.toList else none

section
/- `sha256` is the digest of a text. -/
variable (env : Env) (sha256 : String → List UInt8)

def keyGrant (text : String) : String × ApiKeyInfo :=
  match splitOnce '@' text.toList with
  | none => (text,⟨none,.writer⟩)
  | some (key,rest) =>
    let (tenant,role) := match splitOnce ':' rest with
      | some (t,r) => (t,(Role.fromStrLoose env (String.ofList r)).getD .writer)
      | none => (rest,.writer)
    (String.ofList key,⟨if tenant.isEmpty then none else some (String.ofList tenant),role⟩)

def parseApiKey (text : String) : Option (List UInt8 × ApiKeyInfo) :=
  let (secret,info) := keyGrant env text
  if "sha256:".toList.isPrefixOf secret.toList then
    (hexToDigest (String.ofList (secret.toList.drop 7))).map (fun digest => (digest,info))
  else some (sha256 secret,info)

def AuthState.new (apiKeys : List String) (jwt oidc : Option (String → Option Claims)) (requireTenant : Bool) : AuthState :=
  ⟨apiKeys.filterMap (parseApiKey env sha256),jwt,oidc,requireTenant⟩

/-- The agent that claims are scoped to: the one they name, or the subject of the role spelled `agent`. -/
def Claims.agent (c : Claims) : Option String := c.agentId.or (if c.role = "agent" then some c.sub else none)

def Claims.context (c : Claims) : AuthContext := ⟨c.sub,(Role.fromStrLoose env c.role).getD .reader,c.agent,c.tenantId⟩

namespace Credential

def context : Credential → AuthContext
  | .oidc claims | .jwt claims => claims.context env
  | .apiKey info => ⟨"api-key-user",info.role,none,info.tenant⟩

def agent : Credential → Option String
  | .oidc claims | .jwt claims => claims.agent
  | .apiKey _ => none

theorem context_agent (c : Credential) : (c.context env).agentId = c.agent := by
  cases c with
  | oidc claims => rfl
  | jwt claims => rfl
  | apiKey info => rfl

end Credential

namespace AuthState

def enforceTenant (s : AuthState) (ctx : AuthContext) : Option AuthContext :=
  if s.requireTenant && ctx.tenantId.isNone && ctx.role ≠ .admin then none else some ctx

def findKey (s : AuthState) (token : String) : Option ApiKeyInfo :=
  (s.keys.find? (fun key => key.1 = sha256 token)).map Prod.snd

/-- The first of the chain that accepts the token. -/
def credential (s : AuthState) (token : String) : Option Credential :=
  match s.oidc.bind (fun validate => validate token) with
  | some claims => some (.oidc claims)
  | none =>
    match s.jwt.bind (fun validate => validate token) with
    | some claims => some (.jwt claims)
    | none => (s.findKey sha256 token).map .apiKey

def authenticate (s : AuthState) (token : String) : Option AuthContext :=
  (s.credential sha256 token).bind (fun c => s.enforceTenant (c.context env))

end AuthState

end

/-- A request as it is below `/api/v1`: its path as it was sent, whether it asks for a web socket, its body when that
is JSON, and whether the rate limit lets it through. -/
structure RestRequest where
  method : RequestMethod
  path : String
  upgrades : Bool
  body : Option Json
  withinRate : Bool

def pathPieces (path : String) : List String := (path.toList.splitOn '/').map String.ofList

def adminPath (path : String) : Bool :=
  "/admin/".toList <:+: path.toList || "/cluster/".toList <:+: path.toList

/-- The comparison of `require_auth`: the segment after the first `state`, as it was sent. -/
def deniedToAgent (ctx : AuthContext) (path : String) : Bool :=
  match ctx.agentId with
  | none => false
  | some own =>
    "/state/".toList <:+: path.toList &&
      match (pathPieces path).findIdx? (fun s => s = "state") with
      | some place => ((pathPieces path)[place + 1]?).any (fun s => s ≠ own)
      | none => false

def requireAuth (ctx : AuthContext) (r : RestRequest) : Bool :=
  ctx.role.allowsMethod r.method && !(adminPath r.path && !ctx.role.allowsAdminPath) &&
    !(ctx.role = .agent && deniedToAgent ctx r.path) && r.withinRate

/-- The agent and the key that the path of a state route names, as they were sent. No key stands for `watch`. -/
def stateRoute (path : String) : Option (String × Option String) :=
  match pathPieces path with
  | [root,route,agent,key] =>
    if root = "" ∧ route = "state" ∧ agent ≠ "" ∧ key ≠ "" then some (agent,if key = "watch" then none else some key) else none
  | _ => none

/-- The agent whose state the handler of a request works on: as the path has it, and decoded. -/
def stateTarget (r : RestRequest) : Option (String × String) :=
  match stateRoute r.path with
  | none => none
  | some (raw,none) => if r.method = .get ∧ r.upgrades then (percentDecode raw).map (fun agent => (raw,agent)) else none
  | some (raw,some key) =>
    if r.method = .get ∨ r.method = .head ∨ (r.method = .put ∧ r.body.isSome) then
      (percentDecode key).bind (fun _ => (percentDecode raw).map (fun agent => (raw,agent)))
    else none

/-- The agent that `get_state` or `set_state` is called with. -/
def callToolAgent (tool : String) (args : Json) : Option String :=
  let agent := (args.get "agent_id").bind Json.asStr
  let key := (args.get "key").bind Json.asStr
  if tool = "get_state" then agent.bind (fun a => key.map (fun _ => a))
  else if tool = "set_state" then agent.bind (fun a => key.bind (fun _ => (args.get "value").map (fun _ => a)))
  else none

/-- A call that may work on the state of an agent. `owned` says that the shard owns the tenant of the caller. -/
inductive AgentCall where
  | rest (r : RestRequest)
  | mcp (withinRate : Bool) (tool : String) (args : Json)
  | grpc (write owned : Bool) (agentId : String)

/-- The agent whose state a call of an authenticated caller reads or writes. -/
def reachedAgent (ctx : AuthContext) : AgentCall → Option String
  | .rest r => if requireAuth ctx r then (stateTarget r).map Prod.snd else none
  | .mcp withinRate tool args =>
    if requireAuth ctx ⟨.post,"/mcp",false,some args,withinRate⟩ then callToolAgent tool args else none
  | .grpc write owned agentId => if (!write || ctx.role.allowsMethod .post) && owned then some agentId else none

def AgentConfined (ctx : AuthContext) (call : AgentCall) : Prop := ∀ agent, reachedAgent ctx call = some agent → ctx.agentId = some agent

/-- When a call keeps to the agent of a credential. A path that names the agent as it is spelled has to decode to it;
the other calls have to name it themselves. -/
def KeepsToAgent (c : Credential) : AgentCall → Prop
  | .rest r => r.withinRate = true → adminPath r.path = false → ∀ raw agent, stateTarget r = some (raw,agent) →
    ∃ own, c.agent = some own ∧ (raw = own → agent = own)
  | .mcp withinRate tool args => withinRate = true → ∀ agent, callToolAgent tool args = some agent → c.agent = some agent
  | .grpc _ owned agentId => owned = true → c.agent = some agentId

theorem stateRoute_pieces {path raw : String} {key : Option String} (route : stateRoute path = some (raw,key)) :
    ∃ last, pathPieces path = ["","state",raw,last] := by
  rw [stateRoute] at route
  split at route
  · rename_i root name agent last pieces
    split at route
    · rename_i shape
      cases route
      exact ⟨last,by rw [pieces,shape.1,shape.2.1]⟩
    · cases route
  · cases route

theorem stateRoute_inside {path raw last : String} (pieces : pathPieces path = ["","state",raw,last]) :
    "/state/".toList <:+: path.toList := by
  have whole : ['/'].intercalate (path.toList.splitOn '/') = path.toList := List.intercalate_splitOn '/'
  have parts : path.toList.splitOn '/' = ["".toList,"state".toList,raw.toList,last.toList] := by
    have back := congrArg (List.map String.toList) pieces
    have same : (path.toList.splitOn '/').map (String.toList ∘ String.ofList) = path.toList.splitOn '/' :=
      (List.map_congr_left (fun piece _ => String.toList_ofList)).trans (List.map_id _)
    rwa [pathPieces,List.map_map,same] at back
  rw [parts] at whole
  refine ⟨[],raw.toList ++ '/' :: last.toList,?_⟩
  rw [← whole]
  simp [List.intercalate,List.intersperse]

theorem stateTarget_route {r : RestRequest} {raw agent : String} (target : stateTarget r = some (raw,agent)) :
    (∃ key, stateRoute r.path = some (raw,key)) ∧ (r.method = .get ∨ r.method = .head ∨ r.method = .put) := by
  rw [stateTarget] at target
  split at target
  · cases target
  · rename_i own route
    split at target
    · rename_i asked
      obtain ⟨_,_,same⟩ := Option.map_eq_some_iff.mp target
      cases same
      exact ⟨⟨none,route⟩,Or.inl asked.1⟩
    · cases target
  · rename_i own key route
    split at target
    · rename_i asked
      obtain ⟨_,_,target⟩ := Option.bind_eq_some_iff.mp target
      obtain ⟨_,_,same⟩ := Option.map_eq_some_iff.mp target
      cases same
      refine ⟨⟨some key,route⟩,?_⟩
      rcases asked with get | head | ⟨put,_⟩
      · exact Or.inl get
      · exact Or.inr (Or.inl head)
      · exact Or.inr (Or.inr put)
    · cases target

theorem denied_iff {ctx : AuthContext} {path raw : String} {key : Option String} (route : stateRoute path = some (raw,key)) :
    deniedToAgent ctx path = true ↔ ∃ own, ctx.agentId = some own ∧ raw ≠ own := by
  obtain ⟨last,pieces⟩ := stateRoute_pieces route
  have place : (pathPieces path).findIdx? (fun s => s = "state") = some 1 := by
    rw [pieces]
    rfl
  rw [deniedToAgent]
  cases ctx.agentId with
  | none =>
    refine iff_of_false Bool.false_ne_true ?_
    rintro ⟨_,none,_⟩
    cases none
  | some own =>
    dsimp only
    rw [place,pieces,Bool.and_eq_true,decide_eq_true_iff,and_iff_right (stateRoute_inside pieces)]
    constructor
    · intro different
      exact ⟨own,rfl,by simpa using different⟩
    · rintro ⟨_,⟨⟩,different⟩
      simpa using different

/-- What admits an agent to a state route: its path is no admin path, the rate allows it, and its segment, as it was
sent, is the own id, if there is one. -/
theorem requireAuth_iff {ctx : AuthContext} (agentRole : ctx.role = .agent) {r : RestRequest} {raw agent : String}
    (target : stateTarget r = some (raw,agent)) : requireAuth ctx r = true ↔
      adminPath r.path = false ∧ (∀ own, ctx.agentId = some own → raw = own) ∧ r.withinRate = true := by
  obtain ⟨⟨key,route⟩,method⟩ := stateTarget_route target
  have allowed : ctx.role.allowsMethod r.method = true := by
    rw [agentRole]
    rcases method with get | head | put
    · rw [get]
      rfl
    · rw [head]
      rfl
    · rw [put]
      rfl
  have plain : ctx.role.allowsAdminPath = false := by
    rw [agentRole]
    rfl
  have denied : deniedToAgent ctx r.path = false ↔ ∀ own, ctx.agentId = some own → raw = own := by
    rw [← Bool.not_eq_true,denied_iff route]
    exact ⟨fun none own same => by_contra (fun different => none ⟨own,same,different⟩),
      fun all some => by obtain ⟨own,same,different⟩ := some; exact different (all own same)⟩
  rw [requireAuth,allowed,plain,agentRole,decide_eq_true (rfl : Role.agent = Role.agent),Bool.true_and,Bool.not_false,
    Bool.and_true,Bool.true_and,Bool.and_eq_true,Bool.and_eq_true,Bool.not_eq_true',Bool.not_eq_true',denied,and_assoc]

theorem mcp_admitted {ctx : AuthContext} (agentRole : ctx.role = .agent) (args : Option Json) (withinRate : Bool) :
    requireAuth ctx ⟨.post,"/mcp",false,args,withinRate⟩ = withinRate := by
  have plain : adminPath "/mcp" = false := by decide
  have denied : deniedToAgent ctx "/mcp" = false := by
    rw [deniedToAgent]
    cases ctx.agentId with
    | none => rfl
    | some own =>
      have apart : decide ("/state/".toList <:+: "/mcp".toList) = false := by decide
      dsimp only
      rw [apart,Bool.false_and]
  rw [requireAuth,agentRole,plain,denied]
  rfl

section
variable (env : Env) (sha256 : String → List UInt8)

theorem authenticate_context {s : AuthState} {token : String} {c : Credential} (found : s.credential sha256 token = some c)
    {ctx : AuthContext} (resolved : s.authenticate env sha256 token = some ctx) : ctx = c.context env := by
  rw [AuthState.authenticate,found,Option.bind_some,AuthState.enforceTenant] at resolved
  split at resolved
  · cases resolved
  · cases resolved
    rfl

/-- A call of a credential with the agent role keeps to its agent if and only if it names that agent, with one
exception: a path whose segment is not the id, as it was sent, is turned away. -/
theorem confined_iff {s : AuthState} {token : String} {c : Credential} (found : s.credential sha256 token = some c)
    {ctx : AuthContext} (resolved : s.authenticate env sha256 token = some ctx) (agentRole : ctx.role = .agent) (call : AgentCall) :
    AgentConfined ctx call ↔ KeepsToAgent c call := by
  have own : ctx.agentId = c.agent := by
    rw [authenticate_context env sha256 found resolved,Credential.context_agent]
  rw [AgentConfined,own]
  cases call with
  | rest r =>
    rw [KeepsToAgent]
    constructor
    · intro all rate plain raw agent target
      have admitted := requireAuth_iff agentRole target
      rw [own] at admitted
      cases held : c.agent with
      | none =>
        have open_ : requireAuth ctx r = true := admitted.mpr ⟨plain,fun _ some => absurd (held.symm.trans some) (Option.some_ne_none _).symm,rate⟩
        have named := all agent (by rw [reachedAgent,if_pos open_,target]; rfl)
        rw [held] at named
        cases named
      | some mine =>
        refine ⟨mine,rfl,fun same => ?_⟩
        have open_ : requireAuth ctx r = true :=
          admitted.mpr ⟨plain,fun _ some => same.trans (Option.some.inj (held.symm.trans some)),rate⟩
        have named := all agent (by rw [reachedAgent,if_pos open_,target]; rfl)
        rw [held] at named
        exact (Option.some.inj named).symm
    · intro keeps agent reached
      rw [reachedAgent] at reached
      split at reached
      · rename_i open_
        obtain ⟨⟨raw,same⟩,target,rfl⟩ := Option.map_eq_some_iff.mp reached
        have admitted := (requireAuth_iff agentRole target).mp open_
        obtain ⟨mine,held,decoded⟩ := keeps admitted.2.2 admitted.1 raw same target
        have spelled := admitted.2.1 mine (own.trans held)
        rw [held,decoded spelled]
      · cases reached
  | mcp withinRate tool args =>
    rw [KeepsToAgent,reachedAgent,mcp_admitted agentRole]
    cases withinRate with
    | true => exact (imp_iff_right rfl).symm
    | false =>
      refine iff_of_true (fun _ none => ?_) (fun no => absurd no Bool.false_ne_true)
      cases none
  | grpc write owned agentId =>
    have allowed : (!write || ctx.role.allowsMethod .post) = true := by
      rw [agentRole]
      exact Bool.or_true _
    rw [KeepsToAgent,reachedAgent,allowed,Bool.true_and]
    cases owned with
    | true =>
      constructor
      · exact fun all _ => all agentId rfl
      · rintro named _ ⟨⟩
        exact named rfl
    | false =>
      refine iff_of_true (fun _ none => ?_) (fun no => absurd no Bool.false_ne_true)
      cases none

end

/-- A token that is accepted with the claims it spells out. -/
def agentClaims (agentId : Option String) (role : String) : Claims := ⟨"bot",role,agentId,none⟩

def jwtState (claims : Claims) : AuthState := ⟨[],some (fun _ => some claims),none,false⟩

def stateArguments (agent : String) : Json := .obj [("agent_id",.str agent),("key",.str "k")]

theorem confined_own : AgentConfined ((agentClaims none "agent").context Env.ascii) (.mcp true "get_state" (stateArguments "bot")) := by
  refine (@confined_iff Env.ascii (fun _ => []) (jwtState (agentClaims none "agent")) "t" (.jwt (agentClaims none "agent"))
    rfl _ rfl (by decide +kernel) _).mpr ?_
  intro _ agent called
  exact called

/-- An API key of the agent role has no agent, and reads the state of any; a token of the agent `bot` reads the state
of another over the other interfaces. -/
theorem agents_unconfined :
    (∃ ctx, (AuthState.new Env.ascii (fun _ => [1]) ["k@t:agent"] none none false).authenticate Env.ascii (fun _ => [1]) "k" = some ctx ∧
      ctx.role = .agent ∧ ¬AgentConfined ctx (.rest ⟨.get,"/state/alice/notes",false,none,true⟩)) ∧
    ∃ ctx, (jwtState (agentClaims none "agent")).authenticate Env.ascii (fun _ => []) "t" = some ctx ∧ ctx.role = .agent ∧
      ctx.agentId = some "bot" ∧ ¬AgentConfined ctx (.mcp true "get_state" (stateArguments "alice")) ∧
      ¬AgentConfined ctx (.grpc true true "alice") := by
  refine ⟨⟨⟨"api-key-user",.agent,none,some "t"⟩,by rfl,rfl,?_⟩,
    ⟨(agentClaims none "agent").context Env.ascii,rfl,by decide +kernel,rfl,?_,?_⟩⟩
  · intro confined
    cases confined "alice" (by decide +kernel)
  · intro confined
    exact absurd (confined "alice" (by decide +kernel)) (by decide)
  · intro confined
    exact absurd (confined "alice" (by decide +kernel)) (by decide)

end Ecphoria
