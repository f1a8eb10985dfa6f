import Ecphoria.Gateway.AgentScope
import Ecphoria.Gateway.RateLimiter
import Ecphoria.Library.Outputs

/-! The authentication middleware over runs of requests: who is let in, which bucket pays for it, and what the audit log keeps
of each request. -/
namespace Ecphoria
open Library

def RequestMethod.asStr : RequestMethod → String
  | .get => "GET"
  | .head => "HEAD"
  | .options => "OPTIONS"
  | .post => "POST"
  | .put => "PUT"
  | .patch => "PATCH"
  | .delete => "DELETE"

/-- What the middleware sees of a request. Inside a nested router `path` is the rest of the path that was sent. -/
structure HttpCall where
  method : RequestMethod
  path : String
  originalUri : Option String
  authorization : Option String
  forwardedFor : Option String
  realIp : Option String
  shardForwarded : Option (List UInt8)

structure AuditEntry where
  identity : String
  method : String
  path : String
  status : Nat
  tenant : Option String
  ip : Option String
deriving DecidableEq,Repr

/-- The state behind the middleware. There may be no limiter, and no log. -/
structure Gate where
  auth : AuthState
  shardForwardSecret : Option (List UInt8)
  rateLimiter : Option RateLimiter
  auditLog : Option (List AuditEntry)

def ctEq (a b : List UInt8) : Bool :=
  if a.length ≠ b.length then false else (a.zip b).foldl (fun diff pair => diff ||| (pair.1 ^^^ pair.2)) 0 = 0

namespace HttpCall

def clientIp (r : HttpCall) : Option String :=
  ((r.forwardedFor.bind (fun s => (s.toList.splitOn ',').head?)).bind (fun first =>
    let hop := trim (String.ofList first)
    if hop.isEmpty then none else some hop)).or r.realIp

def sentPath (r : HttpCall) : String := r.originalUri.getD r.path

def bearer (r : HttpCall) : Option String :=
  r.authorization.bind (fun header =>
    if "Bearer ".toList.isPrefixOf header.toList then some (String.ofList (header.toList.drop 7)) else none)

end HttpCall

/-- A request, what the validators answer to its token with the keys they hold and the time it is, the time at which the
limiter is asked, the status that the handler answers with, and whether the row for the log is written. -/
structure HttpEvent where
  call : HttpCall
  oidc : Option Claims
  jwt : Option Claims
  now : ℚ
  status : Nat
  logged : Bool

def AuthState.during (auth : AuthState) (i : HttpEvent) : AuthState :=
  { auth with oidc := auth.oidc.map (fun _ _ => i.oidc), jwt := auth.jwt.map (fun _ _ => i.jwt) }

/-- A call that is turned away: the status, and whom it is put down to. -/
structure Denial where
  status : Nat
  identity : String
  tenant : Option String

section
variable (env : Env) (sha256 : String → List UInt8)

namespace Gate

def screen (g : Gate) (i : HttpEvent) : Except Denial AuthContext :=
  match i.call.bearer with
  | none => .error ⟨401,"anonymous",none⟩
  | some token =>
    match (g.auth.during i).authenticate env sha256 token with
    | none => .error ⟨401,"invalid-token",none⟩
    | some ctx =>
      if !ctx.role.allowsMethod i.call.method then .error ⟨403,ctx.identity,ctx.tenantId⟩
      else if adminPath i.call.path && !ctx.role.allowsAdminPath then .error ⟨403,ctx.identity,ctx.tenantId⟩
      else if ctx.role = .agent && deniedToAgent ctx i.call.path then .error ⟨403,ctx.identity,ctx.tenantId⟩
      else .ok ctx

def isShardForwarded (g : Gate) (r : HttpCall) : Bool :=
  g.shardForwardSecret.any (fun secret => r.shardForwarded.any (fun marker => ctEq marker secret))

end Gate

def rlKey (ctx : AuthContext) : String :=
  match ctx.tenantId with
  | some tenant => String.ofList (ctx.identity.toList ++ '\x1f' :: tenant.toList)
  | none => ctx.identity

/-- What the caller gets: the status, the context of the handler if it ran, and the rate-limit header. -/
structure HttpAnswer where
  status : Nat
  reached : Option AuthContext
  rateHeader : Option String

def HttpCall.entry (r : HttpCall) (status : Nat) (identity : String) (tenant : Option String) : AuditEntry :=
  ⟨identity,r.method.asStr,r.sentPath,status,tenant,r.clientIp⟩

namespace Gate

def record (g : Gate) (i : HttpEvent) (status : Nat) (identity : String) (tenant : Option String) : Gate :=
  { g with auditLog := g.auditLog.map (· ++ if i.logged then [i.call.entry status identity tenant] else []) }

def deny (g : Gate) (i : HttpEvent) (denial : Denial) (header : Option String) : HttpAnswer × Gate :=
  (⟨denial.status,none,header⟩,g.record i denial.status denial.identity denial.tenant)

/-- The handler runs. What the limiter left is put beside the request and looked for beside the response, where it is not. -/
def handle (g : Gate) (i : HttpEvent) (ctx : AuthContext) : HttpAnswer × Gate :=
  (⟨i.status,some ctx,none⟩,g.record i i.status ctx.identity ctx.tenantId)

/-- `require_auth` around a handler. -/
def serve (g : Gate) (i : HttpEvent) : HttpAnswer × Gate :=
  match g.screen env sha256 i with
  | .error denial => g.deny i denial none
  | .ok ctx =>
    match g.rateLimiter with
    | none => g.handle i ctx
    | some limiter =>
      if g.isShardForwarded i.call then g.handle i ctx
      else
        let taken := limiter.tryAcquire (rlKey ctx) i.now
        let after := { g with rateLimiter := some taken.2 }
        if taken.1.1 then after.handle i ctx else after.deny i ⟨429,ctx.identity,ctx.tenantId⟩ (some "0")

def Entitled (auth : AuthState) (i : HttpEvent) (ctx : AuthContext) : Prop :=
  (∃ token,i.call.bearer = some token ∧ (auth.during i).authenticate env sha256 token = some ctx) ∧
    ctx.role.allowsMethod i.call.method = true ∧ (adminPath i.call.path = true → ctx.role.allowsAdminPath = true) ∧
    (ctx.role = .agent → deniedToAgent ctx i.call.path = false)

def Rejected (auth : AuthState) (i : HttpEvent) : Prop :=
  ∃ token,i.call.bearer = some token ∧ (auth.during i).authenticate env sha256 token = none

/-- The identity and the tenant that a request is made in the name of. -/
def caller (auth : AuthState) (i : HttpEvent) : Option (String × Option String) :=
  (i.call.bearer.bind ((auth.during i).authenticate env sha256)).map (fun ctx => (ctx.identity,ctx.tenantId))

variable {env} {sha256} {g : Gate} {i : HttpEvent}

theorem screen_ok_iff (ctx : AuthContext) : g.screen env sha256 i = .ok ctx ↔ Entitled env sha256 g.auth i ctx := by
  unfold screen Entitled
  cases bearer : i.call.bearer with
  | none =>
    refine iff_of_false nofun ?_
    rintro ⟨⟨_,⟨⟩,_⟩,_⟩
  | some token =>
    simp only [Option.some_inj,exists_eq_left']
    cases known : (g.auth.during i).authenticate env sha256 token with
    | none =>
      refine iff_of_false nofun ?_
      rintro ⟨⟨⟩,_⟩
    | some own =>
      simp only [Option.some_inj]
      constructor
      · intro passed
        split at passed
        next => cases passed
        next allowed =>
          split at passed
          next => cases passed
          next admin =>
            split at passed
            next => cases passed
            next agent =>
              cases passed
              exact ⟨rfl,by simpa using allowed,by simpa using admin,by simpa using agent⟩
      · rintro ⟨rfl,allowed,admin,agent⟩
        rw [if_neg (by simp [allowed]),if_neg (by simpa using admin),if_neg (by simpa using agent)]

theorem screen_caller {ctx : AuthContext} (screened : g.screen env sha256 i = .ok ctx) :
    caller env sha256 g.auth i = some (ctx.identity,ctx.tenantId) := by
  obtain ⟨⟨token,bearer,known⟩,_⟩ := (screen_ok_iff ctx).mp screened
  rw [caller,bearer,Option.bind_some,known]
  rfl

theorem screen_denied {denial : Denial} (denied : g.screen env sha256 i = .error denial) :
    caller env sha256 g.auth i = none ∧
        denial = ⟨401,if i.call.bearer.isSome then "invalid-token" else "anonymous",none⟩ ∨
      caller env sha256 g.auth i = some (denial.identity,denial.tenant) ∧ denial.status = 403 := by
  unfold screen at denied
  unfold caller
  cases bearer : i.call.bearer with
  | none =>
    rw [bearer] at denied
    cases denied
    exact .inl ⟨rfl,rfl⟩
  | some token =>
    rw [bearer] at denied
    simp only [Option.bind_some] at denied ⊢
    cases known : (g.auth.during i).authenticate env sha256 token with
    | none =>
      rw [known] at denied
      cases denied
      exact .inl ⟨rfl,rfl⟩
    | some ctx =>
      rw [known] at denied
      refine .inr ?_
      simp only at denied
      split at denied
      next => cases denied; exact ⟨rfl,rfl⟩
      next =>
        split at denied
        next => cases denied; exact ⟨rfl,rfl⟩
        next =>
          split at denied
          next => cases denied; exact ⟨rfl,rfl⟩
          next => cases denied

variable (env) (sha256)

inductive Served (g : Gate) (i : HttpEvent) (done : HttpAnswer × Gate) : Prop
  | turned (denial : Denial) (screened : g.screen env sha256 i = .error denial) (is : done = g.deny i denial none)
  | free (ctx : AuthContext) (screened : g.screen env sha256 i = .ok ctx)
      (exempt : g.rateLimiter = none ∨ g.isShardForwarded i.call = true) (is : done = g.handle i ctx)
  | paid (ctx : AuthContext) (limiter : RateLimiter) (screened : g.screen env sha256 i = .ok ctx)
      (limits : g.rateLimiter = some limiter) (counted : g.isShardForwarded i.call = false)
      (allowed : (limiter.tryAcquire (rlKey ctx) i.now).1.1 = true)
      (is : done = { g with rateLimiter := some (limiter.tryAcquire (rlKey ctx) i.now).2 }.handle i ctx)
  | spent (ctx : AuthContext) (limiter : RateLimiter) (screened : g.screen env sha256 i = .ok ctx)
      (limits : g.rateLimiter = some limiter) (counted : g.isShardForwarded i.call = false)
      (refused : (limiter.tryAcquire (rlKey ctx) i.now).1.1 = false)
      (is : done = { g with rateLimiter := some (limiter.tryAcquire (rlKey ctx) i.now).2 }.deny i
        ⟨429,ctx.identity,ctx.tenantId⟩ (some "0"))

theorem serve_served (g : Gate) (i : HttpEvent) : Served env sha256 g i (g.serve env sha256 i) := by
  unfold serve
  cases screened : g.screen env sha256 i with
  | error denial => exact .turned denial screened rfl
  | ok ctx =>
    cases limits : g.rateLimiter with
    | none => exact .free ctx screened (.inl limits) rfl
    | some limiter =>
      cases counted : g.isShardForwarded i.call with
      | true => exact .free ctx screened (.inr counted) rfl
      | false =>
        cases allowed : (limiter.tryAcquire (rlKey ctx) i.now).1.1 with
        | true => exact .paid ctx limiter screened limits counted allowed (by simp [allowed])
        | false => exact .spent ctx limiter screened limits counted allowed (by simp [allowed])

end Gate

end

namespace Gate

section
variable (env : Env) (sha256 : String → List UInt8)

def answer (g : Gate) (i : HttpEvent) : HttpAnswer := (g.serve env sha256 i).1

def step (g : Gate) (i : HttpEvent) : Gate := (g.serve env sha256 i).2

/-- What the log tells of a request and its answer: a row names the caller, handled or turned away, and without one tells
whether a token came along. -/
structure Told (auth : AuthState) (seen : HttpEvent × HttpAnswer) (row : AuditEntry) : Prop where
  status : row.status = seen.2.status
  method : row.method = seen.1.call.method.asStr
  path : row.path = seen.1.call.sentPath
  ip : row.ip = seen.1.call.clientIp
  handled : ∀ ctx,seen.2.reached = some ctx → Entitled env sha256 auth seen.1 ctx ∧ seen.2.status = seen.1.status ∧
    row.identity = ctx.identity ∧ row.tenant = ctx.tenantId
  denied : seen.2.reached = none →
    (seen.2.status = 403 ∨ seen.2.status = 429) ∧ caller env sha256 auth seen.1 = some (row.identity,row.tenant) ∨
    seen.2.status = 401 ∧ caller env sha256 auth seen.1 = none ∧ row.tenant = none ∧
      row.identity = if seen.1.call.bearer.isSome then "invalid-token" else "anonymous"

/-- The same request, or the same up to a token that stands for no one, whatever the validators say. -/
def Disguised (auth : AuthState) (i j : HttpEvent) : Prop :=
  j = i ∨ (∃ header oidc jwt,j = { i with call := { i.call with authorization := header },oidc := oidc,jwt := jwt }) ∧
    Rejected env sha256 auth i ∧ Rejected env sha256 auth j

/-- The requests whose row is written, with their answers. -/
def recorded (g : Gate) (i : HttpEvent) : List (HttpEvent × HttpAnswer) :=
  if i.logged then [(i,g.answer env sha256 i)] else []

end

variable {env : Env} {sha256 : String → List UInt8}

theorem step_constant (g : Gate) (i : HttpEvent) : (g.step env sha256 i).auth = g.auth ∧
    (g.step env sha256 i).shardForwardSecret = g.shardForwardSecret := by
  rw [step]
  cases serve_served env sha256 g i with
  | turned denial screened is => rw [is]; exact ⟨rfl,rfl⟩
  | free ctx screened exempt is => rw [is]; exact ⟨rfl,rfl⟩
  | paid ctx limiter screened limits counted allowed is => rw [is]; exact ⟨rfl,rfl⟩
  | spent ctx limiter screened limits counted refused is => rw [is]; exact ⟨rfl,rfl⟩

theorem answer_told (env : Env) (sha256 : String → List UInt8) (g : Gate) (i : HttpEvent) :
    ∃ identity tenant,(g.step env sha256 i).auditLog = g.auditLog.map (· ++ if i.logged then
        [i.call.entry (g.answer env sha256 i).status identity tenant] else []) ∧
      Told env sha256 g.auth (i,g.answer env sha256 i) (i.call.entry (g.answer env sha256 i).status identity tenant) := by
  rw [step,answer]
  cases serve_served env sha256 g i with
  | turned denial screened is =>
    rw [is]
    refine ⟨denial.identity,denial.tenant,rfl,rfl,rfl,rfl,rfl,nofun,fun _ => ?_⟩
    rcases screen_denied screened with ⟨nobody,denied⟩ | ⟨named,forbidden⟩
    · rw [denied]
      exact .inr ⟨rfl,nobody,rfl,rfl⟩
    · exact .inl ⟨.inl forbidden,named⟩
  | free ctx screened exempt is =>
    rw [is]
    refine ⟨ctx.identity,ctx.tenantId,rfl,rfl,rfl,rfl,rfl,?_,nofun⟩
    rintro _ ⟨⟩
    exact ⟨(screen_ok_iff ctx).mp screened,rfl,rfl,rfl⟩
  | paid ctx limiter screened limits counted allowed is =>
    rw [is]
    refine ⟨ctx.identity,ctx.tenantId,rfl,rfl,rfl,rfl,rfl,?_,nofun⟩
    rintro _ ⟨⟩
    exact ⟨(screen_ok_iff ctx).mp screened,rfl,rfl,rfl⟩
  | spent ctx limiter screened limits counted refused is =>
    rw [is]
    exact ⟨ctx.identity,ctx.tenantId,rfl,rfl,rfl,rfl,rfl,nofun,fun _ => .inl ⟨.inr rfl,screen_caller screened⟩⟩

theorem step_told (env : Env) (sha256 : String → List UInt8) (g : Gate) (i : HttpEvent) :
    ∃ rows,(g.step env sha256 i).auditLog = g.auditLog.map (· ++ rows) ∧
      List.Forall₂ (Told env sha256 g.auth) (recorded env sha256 g i) rows := by
  obtain ⟨identity,tenant,grown,told⟩ := answer_told env sha256 g i
  refine ⟨_,grown,?_⟩
  rw [recorded]
  split
  next => exact .cons told .nil
  next => exact .nil

theorem serve_disguised {g : Gate} {i j : HttpEvent} (disguised : Disguised env sha256 g.auth i j) :
    g.serve env sha256 j = g.serve env sha256 i := by
  rcases disguised with same | ⟨⟨header,oidc,jwt,other⟩,⟨token,bearer,unknown⟩,token',bearer',unknown'⟩
  · rw [same]
  · have first : g.screen env sha256 i = .error ⟨401,"invalid-token",none⟩ := by simp only [screen,bearer,unknown]
    have second : g.screen env sha256 j = .error ⟨401,"invalid-token",none⟩ := by simp only [screen,bearer',unknown']
    rw [serve,serve,first,second,other]
    rfl

/-- Over every run of requests the log gets a row for each whose row is written, in order, which tells whom it was put down
to and how it was answered; a handler runs only for those who may; and a token that is rejected changes nothing here. -/
theorem gate_law (env : Env) (sha256 : String → List UInt8) (g : Gate) (inputs : List HttpEvent) :
    (∃ rows,(run (step env sha256) g inputs).auditLog = g.auditLog.map (· ++ rows) ∧
      List.Forall₂ (Told env sha256 g.auth) (outputs (step env sha256) (recorded env sha256) g inputs) rows) ∧
    (∀ seen ∈ outputs (step env sha256) (fun g i => [(i,g.answer env sha256 i)]) g inputs,
      ∀ ctx,seen.2.reached = some ctx → Entitled env sha256 g.auth seen.1 ctx) ∧
    ∀ disguises,List.Forall₂ (Disguised env sha256 g.auth) inputs disguises →
      run (step env sha256) g disguises = run (step env sha256) g inputs ∧
        outputs (step env sha256) (fun g i => [g.answer env sha256 i]) g disguises =
          outputs (step env sha256) (fun g i => [g.answer env sha256 i]) g inputs := by
  refine ⟨?_,?_,?_⟩
  · induction inputs generalizing g with
    | nil => exact ⟨[],by cases log : g.auditLog <;> simp [log],.nil⟩
    | cons i inputs ih =>
      obtain ⟨here,first,told⟩ := step_told env sha256 g i
      obtain ⟨rows,rest,all⟩ := ih (g.step env sha256 i)
      rw [(step_constant g i).1] at all
      refine ⟨here ++ rows,?_,List.rel_append told all⟩
      rw [run_cons,rest,first,Option.map_map]
      refine congrArg (Option.map · g.auditLog) (funext fun log => ?_)
      simp
  · induction inputs generalizing g with
    | nil => exact fun seen none_seen => absurd none_seen List.not_mem_nil
    | cons i inputs ih =>
      intro seen among ctx reached
      rw [outputs,List.singleton_append] at among
      rcases List.mem_cons.mp among with rfl | later
      · obtain ⟨_,_,_,told⟩ := answer_told env sha256 g i
        exact (told.handled ctx reached).1
      · exact (step_constant g i).1 ▸ ih (g.step env sha256 i) seen later ctx reached
  · intro disguises same
    generalize known : g.auth = auth at same
    induction same generalizing g with
    | nil => exact ⟨rfl,rfl⟩
    | @cons i j inputs disguises here later ih =>
      have served := serve_disguised (known ▸ here)
      obtain ⟨last,answers⟩ := ih (g.step env sha256 i) ((step_constant g i).1.trans known)
      have next : g.step env sha256 j = g.step env sha256 i := congrArg Prod.snd served
      have given : g.answer env sha256 j = g.answer env sha256 i := congrArg Prod.fst served
      refine ⟨?_,?_⟩
      · rw [run_cons,run_cons,next,last]
      · rw [outputs,outputs,next,given,answers]

/-- The times of the requests of a key that a handler answered and the limiter counted. -/
def countedTimes (env : Env) (sha256 : String → List UInt8) (key : String) (g : Gate) (i : HttpEvent) : List ℚ :=
  match (g.answer env sha256 i).reached with
  | some ctx => if rlKey ctx = key ∧ g.isShardForwarded i.call = false then [i.now] else []
  | none => []

def limiterCalls (env : Env) (sha256 : String → List UInt8) (g : Gate) (i : HttpEvent) : AcquireCalls :=
  match g.screen env sha256 i with
  | .ok ctx => if g.isShardForwarded i.call then [] else [(rlKey ctx,i.now)]
  | .error _ => []

theorem rlKey_inj (first second : AuthContext) (plain : '\x1f' ∉ first.identity.toList)
    (plain' : '\x1f' ∉ second.identity.toList) :
    rlKey first = rlKey second ↔ (first.identity,first.tenantId) = (second.identity,second.tenantId) := by
  unfold rlKey
  rw [Prod.mk.injEq]
  cases one : first.tenantId with
  | none =>
    cases other : second.tenantId with
    | none => simp
    | some tenant =>
      refine iff_of_false (fun same => plain ?_) (by simp)
      simp only at same
      rw [same]
      simp
  | some tenant =>
    cases other : second.tenantId with
    | none =>
      refine iff_of_false (fun same => plain' ?_) (by simp)
      simp only at same
      rw [← same]
      simp
    | some tenant' =>
      simp only
      rw [String.ofList_inj,separated_inj plain plain',String.toList_inj,String.toList_inj,Option.some_inj]

def bucketOf (key : String) (l : RateLimiter) : UInt32 × Option TokenBucket := (l.tokensPerSec,l.buckets key)

structure SameBucket (key : String) (s t : Gate) : Prop where
  auth : s.auth = t.auth
  secret : s.shardForwardSecret = t.shardForwardSecret
  limits : s.rateLimiter.map (bucketOf key) = t.rateLimiter.map (bucketOf key)

theorem screen_congr (env : Env) (sha256 : String → List UInt8) {s t : Gate} (auth : s.auth = t.auth) (i : HttpEvent) :
    s.screen env sha256 i = t.screen env sha256 i := by
  rw [screen,screen,auth]

theorem tryAcquire_congr {a b : RateLimiter} {key : String} (same : bucketOf key a = bucketOf key b) (now : ℚ) :
    (a.tryAcquire key now).1 = (b.tryAcquire key now).1 ∧
      bucketOf key (a.tryAcquire key now).2 = bucketOf key (b.tryAcquire key now).2 := by
  obtain ⟨rate,bucket⟩ := Prod.mk.inj same
  have entry : a.entry key now = b.entry key now := by rw [RateLimiter.entry,RateLimiter.entry,rate,bucket]
  constructor
  · rw [RateLimiter.tryAcquire,RateLimiter.tryAcquire,entry,rate]
  · rw [bucketOf,bucketOf,RateLimiter.tryAcquire_own,RateLimiter.tryAcquire_own,entry,RateLimiter.tryAcquire_rate,
      RateLimiter.tryAcquire_rate,rate]

theorem bucketOf_other (l : RateLimiter) {key other : String} (now : ℚ) (apart : key ≠ other) :
    bucketOf key (l.tryAcquire other now).2 = bucketOf key l := by
  rw [bucketOf,l.tryAcquire_other now apart]
  rfl

section
variable {key : String} {s t : Gate} {i : HttpEvent}

theorem SameBucket.other (same : SameBucket key s t) (apart : ∀ ctx, s.screen env sha256 i = .ok ctx → key ≠ rlKey ctx) :
    SameBucket key (s.step env sha256 i) t := by
  have moved (ctx : AuthContext) (limiter : RateLimiter) (screened : s.screen env sha256 i = .ok ctx)
      (limits : s.rateLimiter = some limiter) :
      some (bucketOf key (limiter.tryAcquire (rlKey ctx) i.now).2) = t.rateLimiter.map (bucketOf key) := by
    rw [bucketOf_other limiter i.now (apart ctx screened),← same.limits,limits]
    rfl
  rw [step]
  cases serve_served env sha256 s i with
  | turned denial screened is => rw [is]; exact ⟨same.auth,same.secret,same.limits⟩
  | free ctx screened exempt is => rw [is]; exact ⟨same.auth,same.secret,same.limits⟩
  | paid ctx limiter screened limits counted allowed is =>
    rw [is]
    exact ⟨same.auth,same.secret,moved ctx limiter screened limits⟩
  | spent ctx limiter screened limits counted refused is =>
    rw [is]
    exact ⟨same.auth,same.secret,moved ctx limiter screened limits⟩

theorem SameBucket.own (same : SameBucket key s t) (named : ∀ ctx, s.screen env sha256 i = .ok ctx → rlKey ctx = key) :
    s.answer env sha256 i = t.answer env sha256 i ∧ SameBucket key (s.step env sha256 i) (t.step env sha256 i) := by
  have screens := screen_congr env sha256 same.auth i
  have trusts : t.isShardForwarded i.call = s.isShardForwarded i.call := by rw [isShardForwarded,isShardForwarded,same.secret]
  rw [answer,answer,step,step,serve,serve,← screens]
  cases screened : s.screen env sha256 i with
  | error denial => exact ⟨rfl,same.auth,same.secret,same.limits⟩
  | ok ctx =>
    have limits := same.limits
    cases first : s.rateLimiter with
    | none =>
      rw [first] at limits
      have second : t.rateLimiter = none := Option.map_eq_none_iff.mp limits.symm
      rw [second]
      exact ⟨rfl,same.auth,same.secret,same.limits⟩
    | some a =>
      rw [first] at limits
      obtain ⟨b,second,both⟩ := Option.map_eq_some_iff.mp limits.symm
      rw [second]
      simp only [trusts]
      cases s.isShardForwarded i.call with
      | true => exact ⟨rfl,same.auth,same.secret,same.limits⟩
      | false =>
        have equal := tryAcquire_congr both.symm i.now
        rw [named ctx screened]
        simp only [Bool.false_eq_true,if_false,equal.1]
        split
        next => exact ⟨rfl,same.auth,same.secret,congrArg some equal.2⟩
        next => exact ⟨rfl,same.auth,same.secret,congrArg some equal.2⟩

end

def answersTo (env : Env) (sha256 : String → List UInt8) (who : String × Option String) (g : Gate) (i : HttpEvent) : List HttpAnswer :=
  if caller env sha256 g.auth i = some who then [g.answer env sha256 i] else []

theorem allowedTimes_single (limiter : RateLimiter) (key own : String) (now : ℚ) :
    allowedTimes key (limiter.run [(own,now)]) = if own = key ∧ (limiter.tryAcquire own now).1.1 = true then [now] else [] := by
  change allowedTimes key [⟨own,now,(limiter.tryAcquire own now).1.1,(limiter.tryAcquire own now).1.2⟩] = _
  obtain ⟨allowed,remaining⟩ := (limiter.tryAcquire own now).1
  by_cases same : own = key
  · cases allowed with
    | true => simp [allowedTimes,acquiresOf,same]
    | false => simp [allowedTimes,acquiresOf]
  · simp [allowedTimes,acquiresOf,same]

theorem step_limiter (env : Env) (sha256 : String → List UInt8) {g : Gate} {limiter : RateLimiter}
    (limits : g.rateLimiter = some limiter) (i : HttpEvent) :
    (g.step env sha256 i).rateLimiter = some (limiter.after (limiterCalls env sha256 g i)) ∧
      ∀ key, countedTimes env sha256 key g i = allowedTimes key (limiter.run (limiterCalls env sha256 g i)) := by
  rw [step]
  cases serve_served env sha256 g i with
  | turned denial screened is =>
    simp only [countedTimes,answer,limiterCalls,screened,is]
    exact ⟨limits,fun key => rfl⟩
  | free ctx screened exempt is =>
    have forwarded : g.isShardForwarded i.call = true := exempt.resolve_left (by simp [limits])
    simp only [countedTimes,answer,limiterCalls,screened,is,forwarded,if_true]
    exact ⟨limits,fun key => if_neg (by simp)⟩
  | paid ctx own screened counts counted allowed is =>
    obtain rfl := Option.some_inj.mp (limits.symm.trans counts)
    simp only [countedTimes,answer,limiterCalls,screened,is,counted,Bool.false_eq_true,if_false]
    refine ⟨rfl,fun key => ?_⟩
    rw [allowedTimes_single,allowed]
    simp [handle]
  | spent ctx own screened counts counted refused is =>
    obtain rfl := Option.some_inj.mp (limits.symm.trans counts)
    simp only [countedTimes,answer,limiterCalls,screened,is,counted,Bool.false_eq_true,if_false]
    refine ⟨rfl,fun key => ?_⟩
    rw [allowedTimes_single,refused]
    simp [deny]

theorem run_append (limiter : RateLimiter) (calls later : AcquireCalls) :
    limiter.run (calls ++ later) = limiter.run calls ++ (limiter.after calls).run later := by
  induction calls generalizing limiter with
  | nil => rfl
  | cons call calls ih => exact congrArg (List.cons _) (ih (limiter.tryAcquire call.1 call.2).2)

theorem countedTimes_run (key : String) {g : Gate} {limiter : RateLimiter} (limits : g.rateLimiter = some limiter)
    (inputs : List HttpEvent) : outputs (step env sha256) (countedTimes env sha256 key) g inputs =
      allowedTimes key (limiter.run (outputs (step env sha256) (limiterCalls env sha256) g inputs)) := by
  induction inputs generalizing g limiter with
  | nil => rfl
  | cons i inputs ih =>
    obtain ⟨next,here⟩ := step_limiter env sha256 limits i
    rw [outputs,outputs,run_append,allowedTimes,acquiresOf,List.filter_append,List.filter_append,List.map_append,here key,ih next]
    rfl

theorem limiterCalls_times (g : Gate) (inputs : List HttpEvent) :
    ((outputs (step env sha256) (limiterCalls env sha256) g inputs).map Prod.snd).Sublist (inputs.map (fun i => i.now)) := by
  rw [outputs_map]
  refine outputs_sublist (fun g i => ?_) g inputs
  unfold limiterCalls
  split
  next ctx screened =>
    split
    next => exact List.nil_sublist _
    next => exact .refl _
  next => exact List.nil_sublist _

theorem answersTo_alone (g : Gate) (inputs : List HttpEvent) {who : String × Option String} (own : '\x1f' ∉ who.1.toList)
    (plain : ∀ i ∈ inputs, ∀ other, caller env sha256 g.auth i = some other → '\x1f' ∉ other.1.toList) :
    outputs (step env sha256) (answersTo env sha256 who) g inputs = outputs (step env sha256) (answersTo env sha256 who) g
      (inputs.filter (fun i => caller env sha256 g.auth i = some who)) := by
  let me : AuthContext := ⟨who.1,.reader,none,who.2⟩
  refine outputs_filtered (R := fun s t => SameBucket (rlKey me) s t ∧ s.auth = g.auth) ?_ ?_ ⟨⟨rfl,rfl,rfl⟩,rfl⟩
  · rintro i inside other s t ⟨same,auth⟩
    have stranger : caller env sha256 g.auth i ≠ some who := by simpa using other
    refine ⟨if_neg (auth ▸ stranger),same.other (fun ctx screened equal => stranger ?_),(step_constant s i).1.trans auth⟩
    have called := screen_caller screened
    rw [auth] at called
    rw [called]
    exact congrArg some ((rlKey_inj me ctx own (plain i inside _ called)).mp equal).symm
  · rintro i inside mine s t ⟨same,auth⟩
    have asked : caller env sha256 g.auth i = some who := by simpa using mine
    have named (ctx : AuthContext) (screened : s.screen env sha256 i = .ok ctx) : rlKey ctx = rlKey me := by
      have called := (screen_caller screened).symm.trans ((congrArg (caller env sha256 · i) auth).trans asked)
      exact (rlKey_inj ctx me (plain i inside _ (asked.trans called.symm |>.trans rfl)) own).mpr (Option.some_inj.mp called)
    obtain ⟨answered,next⟩ := same.own named
    rw [answersTo,answersTo,← same.auth,auth,if_pos asked,if_pos asked,answered]
    exact ⟨rfl,next,(step_constant s i).1.trans auth⟩

/-- A gate with a validator of tokens, at one request a second. -/
def oneASecond : Gate := ⟨⟨[],some (fun _ => none),none,false⟩,none,some (.new 1),none⟩

def askOf (header subject : String) (now : ℚ) : HttpEvent :=
  ⟨⟨.get,"/recall",none,some header,none,none,none⟩,none,some ⟨subject,"reader",none,none⟩,now,200,true⟩

def twoCallers : List HttpEvent := [askOf "Bearer a" "a" 0,askOf "Bearer b" "b" 0,askOf "Bearer a" "a" 0]

end Gate

end Ecphoria
