import Ecphoria.Gateway.Middleware
import Ecphoria.Gateway.ShardRouting

/-! The PostgreSQL listener over runs of its connections: the permits they hold, the time they have to authenticate, and the
tenant their queries run under. -/
namespace Ecphoria
open Library

/-- The states of a connection as the wire library has them, as far as the handlers tell them apart. -/
inductive PgWireConnectionState where
  | awaitingStartup
  | authenticationInProgress
  | readyForQuery
deriving DecidableEq,Repr

inductive PgMessage where
  | startup (parameters : List (String × String))
  | password (text : String)
  | query (sql : String)
  | other
deriving DecidableEq,Repr

abbrev PgMetadata := String → Option String

structure PgClient where
  metadata : PgMetadata
  state : PgWireConnectionState

/-- The wire library: what it keeps of the startup parameters, and the states in which a message is for the startup handler. -/
structure PgWire where
  saveStartup : PgMetadata → List (String × String) → PgMetadata
  startingUp : PgWireConnectionState → Bool

/-- A connection and its task, which waits for the timer of the handshake first. -/
structure PgConnection where
  id : Nat
  peer : String
  client : PgClient
  authenticated : Bool
  pastTimer : Bool

structure PgServer where
  auth : Option AuthState
  shard : Option ShardRoutingState
  auditLog : Option (List AuditEntry)
  maxConnections : Nat
  permits : Nat
  active : Nat
  accepted : Nat
  accepting : Bool
  live : List PgConnection

structure PgQuery where
  connection : Nat
  sql : String
  tenant : Option String
deriving DecidableEq,Repr

/-- What befalls the listener. A message comes with whether its answer could be sent. -/
inductive PgEvent where
  | accept (peer : Option String)
  | message (connection : Nat) (text : PgMessage) (sent : Bool)
  | timer (connection : Nat)
  | closed (connection : Nat)
  | shutdown
deriving DecidableEq,Repr

def startPgWire (auth : Option AuthState) (shard : Option ShardRoutingState) (auditLog : Option (List AuditEntry))
    (maxConnections : Nat) : PgServer :=
  ⟨auth,shard,auditLog,maxConnections,maxConnections,0,0,true,[]⟩

def PgMetadata.insert (metadata : PgMetadata) (key value : String) : PgMetadata :=
  fun other => if other = key then some value else metadata other

@[simp] theorem PgMetadata.insert_own (metadata : PgMetadata) (key value : String) :
    metadata.insert key value key = some value := if_pos rfl

namespace PgConnection

def opened (id : Nat) (peer : String) : PgConnection := ⟨id,peer,⟨fun _ => none,.awaitingStartup⟩,false,false⟩

/-- The library sends what ends a handshake and only then is ready; the flag is set where that went well. -/
def finishAuthentication (c : PgConnection) (sent : Bool) : PgConnection :=
  if sent then { c with client := { c.client with state := .readyForQuery },authenticated := true } else c

def scopeTo (c : PgConnection) (tenant : Option String) : PgConnection :=
  { c with client := { c.client with metadata := tenant.elim c.client.metadata (c.client.metadata.insert "tenant_id") } }

end PgConnection

def pgDenial (peer : String) : AuditEntry := ⟨"invalid-token","PG","startup",401,none,some peer⟩

section
variable (env : Env) (sha256 : String → List UInt8) (lib : PgWire)

/-- `on_startup`: the connection after a message, and whether it is to be put down as a denial. -/
def onStartup (auth : Option AuthState) (c : PgConnection) (sent : Bool) : PgMessage → PgConnection × Bool
  | .startup parameters =>
    let named := { c with client := { c.client with metadata := lib.saveStartup c.client.metadata parameters } }
    if auth.isSome then ({ named with client := { named.client with state := .authenticationInProgress } },false)
    else (named.finishAuthentication sent,false)
  | .password text =>
    match auth with
    | none => (c,false)
    | some auth =>
      match auth.authenticate env sha256 text with
      | some ctx => ((c.scopeTo ctx.tenantId).finishAuthentication sent,false)
      | none => (c,true)
  | .query _ | .other => (c,false)

end

namespace PgServer

section
variable (env : Env) (sha256 : String → List UInt8) (lib : PgWire)

def resolveTenant (s : PgServer) (c : PgConnection) : Option (Option String) :=
  match s.shard,c.client.metadata "tenant_id" with
  | some shard,some tenant => if routeDecision shard tenant = .here then some (some tenant) else none
  | _,tenant => some tenant

def find (s : PgServer) (id : Nat) : Option PgConnection := s.live.find? (fun c => c.id = id)

def put (s : PgServer) (c : PgConnection) : PgServer := { s with live := s.live.map (fun d => if d.id = c.id then c else d) }

def release (s : PgServer) (id : Nat) : PgServer :=
  { s with live := s.live.eraseP (fun c => c.id = id),active := s.active - 1,permits := s.permits + 1 }

def accept (s : PgServer) : Option String → PgServer
  | none => { s with accepting := false }
  | some peer =>
    match s.permits with
    | 0 => s
    | permits + 1 =>
      { s with
        permits := permits
        active := s.active + 1
        accepted := s.accepted + 1
        live := s.live ++ [.opened s.accepted peer] }

def receive (s : PgServer) (c : PgConnection) (m : PgMessage) (sent : Bool) : PgServer :=
  if lib.startingUp c.client.state then
    let (next,denied) := onStartup env sha256 lib s.auth c sent m
    { s.put next with auditLog := s.auditLog.map (· ++ if denied then [pgDenial c.peer] else []) }
  else s

def step (s : PgServer) : PgEvent → PgServer
  | .accept peer => if s.accepting then s.accept peer else s
  | .message id m sent => (s.find id).elim s (fun c => s.receive env sha256 lib c m sent)
  | .timer id => (s.find id).elim s (fun c =>
    if c.pastTimer then s else if c.authenticated then s.put { c with pastTimer := true } else s.release id)
  | .closed id => (s.find id).elim s (fun _ => s.release id)
  | .shutdown => { s with accepting := false }

def executed (s : PgServer) : PgEvent → List PgQuery
  | .message id (.query sql) _ => (s.find id).elim [] (fun c =>
    if lib.startingUp c.client.state then [] else ((s.resolveTenant c).map (fun tenant => ⟨id,sql,tenant⟩)).toList)
  | _ => []

/-- Someone let the connection in: it has sent a token that stands for somebody, and where the token is a tenant's,
the connection is. -/
def LetIn (auth : AuthState) (inputs : List PgEvent) (id : Nat) (tenant : Option String) : Prop :=
  ∃ token ctx,(∃ sent,PgEvent.message id (.password token) sent ∈ inputs) ∧ auth.authenticate env sha256 token = some ctx ∧
    ∀ own, ctx.tenantId = some own → tenant = some own

structure Sound (auth : Option AuthState) (inputs : List PgEvent) (accepted : Nat) (c : PgConnection) : Prop where
  old : c.id < accepted
  ready : c.authenticated = true ↔ c.client.state = .readyForQuery
  timed : c.pastTimer = true → c.authenticated = true
  letIn : ∀ own, auth = some own → c.authenticated = true → LetIn env sha256 own inputs c.id (c.client.metadata "tenant_id")

structure Reached (start : PgServer) (inputs : List PgEvent) (s : PgServer) : Prop where
  auth : s.auth = start.auth
  shard : s.shard = start.shard
  most : s.maxConnections = start.maxConnections
  permits : s.permits + s.live.length = start.maxConnections
  active : s.active = s.live.length
  ids : (s.live.map PgConnection.id).Nodup
  sound : ∀ c ∈ s.live, Sound env sha256 start.auth inputs s.accepted c

end

variable {env : Env} {sha256 : String → List UInt8} {lib : PgWire} {start s : PgServer} {inputs : List PgEvent}

theorem LetIn.mono {auth : AuthState} {id : Nat} {tenant : Option String} (letIn : LetIn env sha256 auth inputs id tenant)
    (i : PgEvent) : LetIn env sha256 auth (inputs ++ [i]) id tenant := by
  obtain ⟨token,ctx,⟨sent,told⟩,rest⟩ := letIn
  exact ⟨token,ctx,⟨sent,List.mem_append_left _ told⟩,rest⟩

theorem Sound.mono {auth : Option AuthState} {accepted more : Nat} {c : PgConnection} (sound : Sound env sha256 auth inputs accepted c)
    (grown : accepted ≤ more) (i : PgEvent) : Sound env sha256 auth (inputs ++ [i]) more c where
  old := sound.old.trans_le grown
  ready := sound.ready
  timed := sound.timed
  letIn own some known := (sound.letIn own some known).mono i

theorem opened_sound (auth : Option AuthState) (accepted : Nat) (peer : String) :
    Sound env sha256 auth inputs (accepted + 1) (.opened accepted peer) where
  old := Nat.lt_succ_self accepted
  ready := iff_of_false nofun nofun
  timed := nofun
  letIn _ _ := nofun

theorem find_mem {id : Nat} {c : PgConnection} (found : s.find id = some c) : c ∈ s.live ∧ c.id = id :=
  ⟨List.mem_of_find?_eq_some found,by simpa using List.find?_some found⟩

structure Waits (accepted : Nat) (c : PgConnection) : Prop where
  old : c.id < accepted
  state : c.client.state ≠ .readyForQuery
  unknown : c.authenticated = false
  untimed : c.pastTimer = false

theorem Sound.waits {auth : Option AuthState} {accepted : Nat} {c : PgConnection} (sound : Sound env sha256 auth inputs accepted c)
    (state : c.client.state ≠ .readyForQuery) : Waits accepted c where
  old := sound.old
  state := state
  unknown := Bool.eq_false_iff.mpr (state ∘ sound.ready.mp)
  untimed := Bool.eq_false_iff.mpr (fun past => state (sound.ready.mp (sound.timed past)))

theorem Waits.sound {accepted : Nat} {c : PgConnection} (waits : Waits accepted c) (auth : Option AuthState) (inputs : List PgEvent) :
    Sound env sha256 auth inputs accepted c where
  old := waits.old
  ready := iff_of_false (by simp [waits.unknown]) waits.state
  timed := by simp [waits.untimed]
  letIn own some := by simp [waits.unknown]

theorem Waits.finish {auth : Option AuthState} {accepted : Nat} {c : PgConnection} (waits : Waits accepted c)
    (letIn : ∀ own, auth = some own → LetIn env sha256 own inputs c.id (c.client.metadata "tenant_id")) (sent : Bool) :
    Sound env sha256 auth inputs accepted (c.finishAuthentication sent) := by
  cases sent with
  | false => exact waits.sound auth inputs
  | true => exact ⟨waits.old,iff_of_true rfl rfl,fun _ => rfl,fun own some _ => letIn own some⟩

theorem onStartup_sound {auth : Option AuthState} {accepted : Nat} {c : PgConnection} (waits : Waits accepted c) (m : PgMessage)
    (sent : Bool) :
    Sound env sha256 auth (inputs ++ [.message c.id m sent]) accepted (onStartup env sha256 lib auth c sent m).1 := by
  have stays : Sound env sha256 auth (inputs ++ [.message c.id m sent]) accepted c := waits.sound auth _
  cases m with
  | startup parameters =>
    let named : PgConnection := { c with client := { c.client with metadata := lib.saveStartup c.client.metadata parameters } }
    have still : Waits accepted named := ⟨waits.old,waits.state,waits.unknown,waits.untimed⟩
    cases auth with
    | none =>
      refine still.finish (fun own some => ?_) sent
      cases some
    | some own =>
      let asked : PgConnection := { named with client := { named.client with state := .authenticationInProgress } }
      have asking : Waits accepted asked := ⟨waits.old,nofun,waits.unknown,waits.untimed⟩
      exact asking.sound _ _
  | password text =>
    cases auth with
    | none => exact stays
    | some own =>
      unfold onStartup
      simp only
      cases told : own.authenticate env sha256 text with
      | none => exact stays
      | some ctx =>
        have still : Waits accepted (c.scopeTo ctx.tenantId) := ⟨waits.old,waits.state,waits.unknown,waits.untimed⟩
        refine still.finish (fun _ same => ?_) sent
        obtain rfl := Option.some_inj.mp same
        refine ⟨text,ctx,⟨sent,List.mem_append_right _ (List.mem_singleton_self _)⟩,told,fun tenant named => ?_⟩
        rw [named]
        exact PgMetadata.insert_own c.client.metadata "tenant_id" tenant
  | query sql => exact stays
  | other => exact stays

theorem Reached.put (reached : Reached env sha256 start inputs s) {next : PgConnection} (i : PgEvent)
    (sound : Sound env sha256 start.auth (inputs ++ [i]) s.accepted next) :
    Reached env sha256 start (inputs ++ [i]) (s.put next) where
  auth := reached.auth
  shard := reached.shard
  most := reached.most
  permits := by simpa [PgServer.put] using reached.permits
  active := by simpa [PgServer.put] using reached.active
  ids := by
    have names : (s.put next).live.map PgConnection.id = s.live.map PgConnection.id := by
      rw [PgServer.put,List.map_map]
      refine List.map_congr_left (fun d _ => ?_)
      rw [Function.comp_apply]
      split
      next own => exact own.symm
      next => rfl
    rw [names]
    exact reached.ids
  sound d inside := by
    obtain ⟨before,listed,rfl⟩ := List.mem_map.mp inside
    split
    next => exact sound
    next => exact (reached.sound before listed).mono (le_refl _) i

theorem Reached.release (reached : Reached env sha256 start inputs s) {c : PgConnection} (found : s.find c.id = some c) (i : PgEvent) :
    Reached env sha256 start (inputs ++ [i]) (s.release c.id) := by
  have inside := (find_mem found).1
  have shorter : (s.release c.id).live.length + 1 = s.live.length := by
    have removed : (s.release c.id).live.length = s.live.length - 1 := List.length_eraseP_of_mem inside (by simp)
    have some := List.length_pos_of_mem inside
    omega
  have permits := reached.permits
  have active := reached.active
  refine ⟨reached.auth,reached.shard,reached.most,?_,?_,?_,?_⟩
  · change s.permits + 1 + (s.release c.id).live.length = _
    omega
  · change s.active - 1 = _
    omega
  · exact reached.ids.sublist (List.eraseP_sublist.map _)
  · exact fun d listed => (reached.sound d (List.eraseP_sublist.subset listed)).mono (le_refl _) i

theorem Reached.accept (reached : Reached env sha256 start inputs s) (peer : Option String) (i : PgEvent) :
    Reached env sha256 start (inputs ++ [i]) (s.accept peer) := by
  have stays (d : PgConnection) (listed : d ∈ s.live) (more : Nat) (grown : s.accepted ≤ more) :=
    (reached.sound d listed).mono grown i
  cases peer with
  | none => exact ⟨reached.auth,reached.shard,reached.most,reached.permits,reached.active,reached.ids,
      fun d listed => stays d listed _ (le_refl _)⟩
  | some peer =>
    have permits := reached.permits
    rw [PgServer.accept]
    cases free : s.permits with
    | zero => exact ⟨reached.auth,reached.shard,reached.most,reached.permits,reached.active,reached.ids,
        fun d listed => stays d listed _ (le_refl _)⟩
    | succ left =>
      refine ⟨reached.auth,reached.shard,reached.most,?_,?_,?_,?_⟩
      · simp only [List.length_append,List.length_singleton]
        omega
      · simp only [List.length_append,List.length_singleton,reached.active]
      · simp only [List.map_append,List.map_cons,List.map_nil]
        refine List.nodup_append.mpr ⟨reached.ids,List.nodup_singleton _,?_⟩
        rintro id listed other ⟨⟩ same
        · obtain ⟨d,inside,rfl⟩ := List.mem_map.mp listed
          exact absurd (reached.sound d inside).old (same ▸ lt_irrefl s.accepted)
        · contradiction
      · intro d inside
        rcases List.mem_append.mp inside with listed | fresh
        · exact stays d listed _ (Nat.le_succ _)
        · rw [List.mem_singleton.mp fresh]
          exact opened_sound start.auth s.accepted peer

theorem Reached.step (routed : ∀ state, lib.startingUp state = true ↔ state ≠ .readyForQuery)
    (reached : Reached env sha256 start inputs s) (i : PgEvent) :
    Reached env sha256 start (inputs ++ [i]) (s.step env sha256 lib i) := by
  have unchanged : Reached env sha256 start (inputs ++ [i]) s :=
    { reached with sound := fun d listed => (reached.sound d listed).mono (le_refl _) i }
  cases i with
  | accept peer =>
    rw [PgServer.step]
    split
    next => exact reached.accept peer _
    next => exact unchanged
  | message id m sent =>
    rw [PgServer.step]
    cases found : s.find id with
    | none => exact unchanged
    | some c =>
      obtain ⟨inside,rfl⟩ := find_mem found
      rw [Option.elim_some,receive]
      split
      next starting =>
        have sound : Sound env sha256 start.auth (inputs ++ [.message c.id m sent]) s.accepted
            (onStartup env sha256 lib start.auth c sent m).1 :=
          onStartup_sound ((reached.sound c inside).waits ((routed _).mp starting)) m sent
        have next := reached.put _ sound
        rw [reached.auth]
        exact { next with }
      next => exact unchanged
  | timer id =>
    rw [PgServer.step]
    cases found : s.find id with
    | none => exact unchanged
    | some c =>
      obtain ⟨inside,rfl⟩ := find_mem found
      have sound := (reached.sound c inside).mono (le_refl _) (.timer c.id)
      rw [Option.elim_some]
      split
      next => exact unchanged
      next =>
        split
        next known => exact reached.put _ ⟨sound.old,sound.ready,fun _ => known,sound.letIn⟩
        next => exact reached.release found _
  | closed id =>
    rw [PgServer.step]
    cases found : s.find id with
    | none => exact unchanged
    | some c =>
      obtain ⟨inside,rfl⟩ := find_mem found
      exact reached.release found _
  | shutdown => exact { unchanged with }

theorem start_reached (auth : Option AuthState) (shard : Option ShardRoutingState) (auditLog : Option (List AuditEntry))
    (maxConnections : Nat) : Reached env sha256 (startPgWire auth shard auditLog maxConnections) []
      (startPgWire auth shard auditLog maxConnections) :=
  ⟨rfl,rfl,rfl,rfl,rfl,.nil,nofun⟩

theorem Reached.run (routed : ∀ state, lib.startingUp state = true ↔ state ≠ .readyForQuery) (later : List PgEvent)
    (reached : Reached env sha256 start inputs s) :
    Reached env sha256 start (inputs ++ later) (Library.run (PgServer.step env sha256 lib) s later) := by
  induction later generalizing inputs s with
  | nil => rwa [List.append_nil]
  | cons i later ih =>
    have rest := ih (reached.step routed i)
    rwa [List.append_assoc] at rest

/-- A query runs for one who was let in, under their tenant, on the shard of the tenant. -/
structure Scoped (env : Env) (sha256 : String → List UInt8) (start : PgServer) (inputs : List PgEvent) (q : PgQuery) : Prop where
  letIn : ∀ auth, start.auth = some auth → LetIn env sha256 auth inputs q.connection q.tenant
  here : ∀ shard tenant, start.shard = some shard → q.tenant = some tenant → routeDecision shard tenant = .here

theorem resolveTenant_some {c : PgConnection} {tenant : Option String} (resolved : s.resolveTenant c = some tenant) :
    tenant = c.client.metadata "tenant_id" ∧
      ∀ shard own, s.shard = some shard → tenant = some own → routeDecision shard own = .here := by
  unfold resolveTenant at resolved
  split at resolved
  next shard own known named =>
    split at resolved
    next here =>
      cases resolved
      refine ⟨named.symm,?_⟩
      intro shard' own' known' named'
      cases known.symm.trans known'
      cases named'
      exact here
    next => cases resolved
  next other =>
    cases resolved
    exact ⟨rfl,fun shard own known named => (other shard own known named).elim⟩

theorem Reached.scoped (routed : ∀ state, lib.startingUp state = true ↔ state ≠ .readyForQuery)
    (reached : Reached env sha256 start inputs s) {i : PgEvent} {q : PgQuery} (ran : q ∈ s.executed lib i) :
    Scoped env sha256 start inputs q := by
  unfold executed at ran
  split at ran
  next id sql sent =>
    cases found : s.find id with
    | none => simp [found] at ran
    | some c =>
      obtain ⟨inside,rfl⟩ := find_mem found
      rw [found,Option.elim_some] at ran
      split at ran
      next => cases ran
      next asking =>
        obtain ⟨tenant,resolved,rfl⟩ := Option.map_eq_some_iff.mp (Option.mem_toList.mp ran)
        obtain ⟨named,here⟩ := resolveTenant_some resolved
        have sound := reached.sound c inside
        have ready : c.client.state = .readyForQuery := not_not.mp (mt (routed _).mpr asking)
        exact ⟨fun auth known => named ▸ sound.letIn auth known (sound.ready.mpr ready),
          fun shard own known => here shard own (reached.shard.trans known)⟩
  next => cases ran

/-- Over every run of the listener the connections that are live hold its permits, a new one is turned away exactly while they
hold all, no connection that is past its timer is not authenticated, and every query runs for one who sent a token that stands
for somebody, under the tenant of the token where it has one, whatever else the client sent. -/
theorem pgWire_law (env : Env) (sha256 : String → List UInt8) (lib : PgWire)
    (routed : ∀ state, lib.startingUp state = true ↔ state ≠ .readyForQuery) (auth : Option AuthState)
    (shard : Option ShardRoutingState) (auditLog : Option (List AuditEntry)) (maxConnections : Nat) (inputs : List PgEvent) :
    let start := startPgWire auth shard auditLog maxConnections
    let s := Library.run (PgServer.step env sha256 lib) start inputs
    (s.permits + s.live.length = maxConnections ∧ s.active = s.live.length ∧ (s.live.map PgConnection.id).Nodup) ∧
    (∀ peer, (s.step env sha256 lib (.accept (some peer))).live = s.live ↔ s.accepting = false ∨ s.live.length = maxConnections) ∧
    (∀ c ∈ s.live, c.pastTimer = true → c.authenticated = true) ∧
    ∀ i, ∀ q ∈ s.executed lib i, Scoped env sha256 start inputs q := by
  intro start s
  have reached : Reached env sha256 start inputs s := (start_reached auth shard auditLog maxConnections).run routed inputs
  have permits : s.permits + s.live.length = maxConnections := reached.permits
  refine ⟨⟨permits,reached.active,reached.ids⟩,fun peer => ?_,fun c inside => (reached.sound c inside).timed,
    fun i q ran => reached.scoped routed ran⟩
  rw [PgServer.step]
  cases taking : s.accepting with
  | false => simp
  | true =>
    rw [if_pos rfl,PgServer.accept]
    cases free : s.permits with
    | zero =>
      refine iff_of_true rfl (.inr ?_)
      omega
    | succ left =>
      refine iff_of_false ?_ ?_
      · simp
      · simp only [Bool.true_eq_false,false_or]
        omega

/-- The startup parameters are put beside what is known, and a connection is in its handshake until it is ready. -/
def keepsParameters : PgWire where
  saveStartup metadata parameters key := (parameters.lookup key).or (metadata key)
  startingUp state := state ≠ .readyForQuery

def acmeTokens : AuthState := ⟨[],some (fun token => if token = "a" then some ⟨"alice","reader",none,some "acme"⟩ else none),none,false⟩

/-- A client that names the tenant of another. It is turned away once, and comes again. -/
def borrowedTenant : List PgEvent :=
  [.accept (some "10.0.0.1:9"),.accept (some "10.0.0.2:9"),.message 0 (.startup [("tenant_id","globex")]) true,
    .message 0 (.password "b") true,.closed 0,.accept (some "10.0.0.1:9"),.message 1 (.startup [("tenant_id","globex")]) true,
    .message 1 (.password "a") true]

private def borrowed : PgServer :=
  Library.run (PgServer.step Env.ascii (fun _ => []) keepsParameters) (startPgWire (some acmeTokens) none (some []) 1) borrowedTenant

private theorem borrowed_executed :
    borrowed.executed keepsParameters (.message 1 (.query "SELECT 1") true) = [⟨1,"SELECT 1",some "acme"⟩] ∧
      borrowed.auditLog = some [pgDenial "10.0.0.1:9"] := by decide +kernel

theorem pgWire_borrowed :
    let start := startPgWire (some acmeTokens) none (some []) 1
    let s := Library.run (PgServer.step Env.ascii (fun _ => []) keepsParameters) start borrowedTenant
    s.permits + s.live.length = 1 ∧ s.auditLog = some [pgDenial "10.0.0.1:9"] ∧
      s.executed keepsParameters (.message 1 (.query "SELECT 1") true) = [⟨1,"SELECT 1",some "acme"⟩] ∧
      Scoped Env.ascii (fun _ => []) start borrowedTenant ⟨1,"SELECT 1",some "acme"⟩ := by
  intro start s
  have law := pgWire_law Env.ascii (fun _ => []) keepsParameters (fun state => decide_eq_true_iff) (some acmeTokens) none (some []) 1
    borrowedTenant
  have ran : s.executed keepsParameters (.message 1 (.query "SELECT 1") true) = [⟨1,"SELECT 1",some "acme"⟩] :=
    borrowed_executed.1
  refine ⟨law.1.1,borrowed_executed.2,ran,law.2.2.2 (.message 1 (.query "SELECT 1") true) _ ?_⟩
  change _ ∈ s.executed keepsParameters (.message 1 (.query "SELECT 1") true)
  rw [ran]
  exact List.mem_singleton_self _

end PgServer

end Ecphoria
