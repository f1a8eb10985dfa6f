import Ecphoria.Library.Stamped
import Ecphoria.Gateway.AgentScope
import Mathlib.Data.List.Perm.Basic

/-! Tokens of an identity provider. Its keys are kept for a while; the tokens that find none wait for what it answers, several
at a time, and a key that it once gave is never given up. -/
namespace Ecphoria
open Library

structure OidcConfig where
  enabled : Bool
  issuerUrl : String
  jwksUri : String
  audience : String
  roleClaim : String
  jwksCacheTtlSecs : UInt64

structure JwkKey where
  kid : Option String
  n : Option String
  e : Option String

structure Validation where
  issuer : List String
  audience : Option (List String)
  requiredSpecClaims : List String

/-- The library that reads tokens, checks them at a time, and makes keys. -/
structure JwtLibrary where
  Key : Type
  decodeHeader : String → Except String (Option String)
  fromRsaComponents : String → String → Option Key
  decode : String → Key → Validation → Int → Except String Json

namespace OidcConfig

def uri (config : OidcConfig) : String :=
  if config.jwksUri.isEmpty then trimEndSlashes config.issuerUrl ++ "/.well-known/jwks.json" else config.jwksUri

def cacheTtl (config : OidcConfig) : Nat := config.jwksCacheTtlSecs.toNat * 1000000000

def validation (config : OidcConfig) : Validation where
  issuer := [config.issuerUrl]
  audience := if config.audience.isEmpty then none else some [config.audience]
  requiredSpecClaims := ["sub","exp"]

def claims (config : OidcConfig) (raw : Json) : Claims where
  sub := ((raw.get "sub").bind Json.asStr).getD ""
  role := ((raw.get config.roleClaim).bind Json.asStr).getD "reader"
  agentId := (raw.get "agent_id").bind Json.asStr
  tenantId := (raw.get "tenant_id").bind Json.asStr

end OidcConfig

structure OidcValidator (lib : JwtLibrary) where
  keyCache : Stamped String lib.Key
  /-- The tokens that wait for the provider, with the ids of their keys. -/
  waiting : List (String × String)

inductive OidcEvent where
  | validate (token : String) (now : Int)
  | respond (n : Nat) (response : Except String (List JwkKey)) (now : Int)

def OidcEvent.asked : OidcEvent → List String
  | .validate token _ => [token]
  | .respond _ _ _ => []

structure OidcAnswer where
  token : String
  now : Int
  result : Except String Claims

/-- What an event brings about: an answer, a fetch of the key set, keys that are stored. -/
structure OidcEffect (lib : JwtLibrary) where
  answers : List OidcAnswer
  fetches : List String
  stored : List (String × lib.Key × Int)

namespace OidcValidator
section
variable (lib : JwtLibrary) (config : OidcConfig)

def new : OidcValidator lib := ⟨fun _ => none,[]⟩

def judge (token : String) (key : lib.Key) (now : Int) : Except String Claims :=
  match lib.decode token key config.validation now with
  | .error e => .error ("OIDC token validation failed: " ++ e)
  | .ok raw => .ok (config.claims raw)

def refreshed (keys : List JwkKey) (now : Int) : List (String × lib.Key × Int) :=
  keys.filterMap fun key =>
    match key.kid,key.n,key.e with
    | some kid,some n,some e => (lib.fromRsaComponents n e).map (fun made => (kid,made,now))
    | _,_,_ => none

def act (v : OidcValidator lib) : OidcEvent → OidcEffect lib × OidcValidator lib
  | .validate token now =>
    match lib.decodeHeader token with
    | .error e => (⟨[⟨token,now,.error ("invalid JWT header: " ++ e)⟩],[],[]⟩,v)
    | .ok none => (⟨[⟨token,now,.error "JWT missing kid header"⟩],[],[]⟩,v)
    | .ok (some kid) =>
      match v.keyCache.fresh config.cacheTtl kid now with
      | some key => (⟨[⟨token,now,judge lib config token key now⟩],[],[]⟩,v)
      | none => (⟨[],[config.uri],[]⟩,{ v with waiting := v.waiting ++ [(token,kid)] })
  | .respond n response now =>
    match v.waiting[n]? with
    | none => (⟨[],[],[]⟩,v)
    | some (token,kid) =>
      match response with
      | .error e => (⟨[⟨token,now,.error e⟩],[],[]⟩,{ v with waiting := v.waiting.eraseIdx n })
      | .ok keys =>
        let stored := refreshed lib keys now
        -- after the refresh the age of an entry is not looked at again
        let cache := v.keyCache.storeAll stored
        let result := match cache.value kid with
          | some key => judge lib config token key now
          | none => .error ("key ID '" ++ kid ++ "' not found in JWKS")
        (⟨[⟨token,now,result⟩],[],stored⟩,⟨cache,v.waiting.eraseIdx n⟩)

def effect (v : OidcValidator lib) (i : OidcEvent) : OidcEffect lib := (v.act lib config i).1

def step (v : OidcValidator lib) (i : OidcEvent) : OidcValidator lib := (v.act lib config i).2

/-- The keys of the provider that a run has seen, in order, with the times they came at. -/
def given (inputs : List OidcEvent) : List (String × lib.Key × Int) :=
  outputs (step lib config) (fun v i => (v.effect lib config i).stored) (new lib) inputs

def Warranted (log : List (String × lib.Key × Int)) (answer : OidcAnswer) (claims : Claims) : Prop :=
  ∃ kid key stored raw,lib.decodeHeader answer.token = .ok (some kid) ∧ latest log kid = some (key,stored) ∧
    lib.decode answer.token key config.validation answer.now = .ok raw ∧ claims = config.claims raw

end

section
variable {lib : JwtLibrary} {config : OidcConfig} {v : OidcValidator lib}

theorem judge_ok {token : String} {key : lib.Key} {now : Int} {claims : Claims} (accepted : judge lib config token key now = .ok claims) :
    ∃ raw,lib.decode token key config.validation now = .ok raw ∧ claims = config.claims raw := by
  unfold judge at accepted
  split at accepted
  next => cases accepted
  next raw decoded => exact ⟨raw,decoded,(Except.ok.inj accepted).symm⟩

theorem step_cache (v : OidcValidator lib) (i : OidcEvent) :
    (v.step lib config i).keyCache = v.keyCache.storeAll (v.effect lib config i).stored := by
  unfold step effect
  cases i with
  | validate token now =>
    rw [act]
    split
    next => rfl
    next => rfl
    next => split <;> rfl
  | respond n response now =>
    rw [act]
    split
    next => rfl
    next => cases response <;> rfl

theorem run_cache (inputs : List OidcEvent) :
    (run (step lib config) (new lib) inputs).keyCache = latest (given lib config inputs) :=
  cache_latest step_cache rfl inputs

def tokens (v : OidcValidator lib) : List String := v.waiting.map Prod.fst

theorem step_waiting (v : OidcValidator lib) (i : OidcEvent) :
    ((v.step lib config i).tokens ++ (v.effect lib config i).answers.map OidcAnswer.token).Perm (v.tokens ++ i.asked) := by
  unfold step effect tokens
  cases i with
  | validate token now =>
    rw [act]
    split
    next => exact .refl _
    next => exact .refl _
    next =>
      split
      next => exact .refl _
      next =>
        rw [List.map_append,List.map_nil,List.append_nil]
        exact .refl _
  | respond n response now =>
    rw [act]
    split
    next => exact .refl _
    next token kid waits =>
      have place : n < v.waiting.length := (List.getElem?_eq_some_iff.mp waits).1
      have here : v.waiting[n] = (token,kid) := (List.getElem?_eq_some_iff.mp waits).2
      have split : ((v.waiting.eraseIdx n).map Prod.fst ++ [token]).Perm (v.waiting.map Prod.fst ++ []) := by
        have taken := (List.getElem_cons_eraseIdx_perm place).map Prod.fst
        rw [here,List.map_cons] at taken
        rw [List.append_nil]
        exact (List.perm_append_singleton token _).trans taken
      cases response with
      | error e => exact split
      | ok keys => exact split

/-- The tokens that wait have the ids they wait for. -/
def Named (v : OidcValidator lib) : Prop := ∀ w ∈ v.waiting, lib.decodeHeader w.1 = .ok (some w.2)

theorem step_named (named : v.Named) (i : OidcEvent) : (v.step lib config i).Named := by
  unfold step
  cases i with
  | validate token now =>
    rw [act]
    split
    next => exact named
    next => exact named
    next kid header =>
      split
      next => exact named
      next => exact List.forall_mem_append.mpr ⟨named,List.forall_mem_singleton.mpr header⟩
  | respond n response now =>
    rw [act]
    split
    next => exact named
    next =>
      have rest : ∀ w ∈ v.waiting.eraseIdx n, lib.decodeHeader w.1 = .ok (some w.2) :=
        fun w inside => named w (List.mem_of_mem_eraseIdx inside)
      cases response with
      | error e => exact rest
      | ok keys => exact rest

theorem run_named (inputs : List OidcEvent) : (run (step lib config) (new lib) inputs).Named := by
  induction inputs using List.reverseRecOn with
  | nil => exact nofun
  | append_singleton inputs i ih =>
    rw [run_append]
    exact step_named ih i

theorem effect_warranted {log : List (String × lib.Key × Int)} (told : v.keyCache = latest log) (named : v.Named) (i : OidcEvent)
    {a : OidcAnswer} (answered : a ∈ (v.effect lib config i).answers) {claims : Claims} (accepted : a.result = .ok claims) :
    Warranted lib config (log ++ (v.effect lib config i).stored) a claims := by
  unfold effect at answered ⊢
  cases i with
  | validate token now =>
    rw [act] at answered ⊢
    split at answered
    next => cases List.mem_singleton.mp answered; cases accepted
    next => cases List.mem_singleton.mp answered; cases accepted
    next kid header =>
      split at answered
      next key held =>
        cases List.mem_singleton.mp answered
        obtain ⟨stored,last,_⟩ := fresh_latest.mp (told ▸ held)
        obtain ⟨raw,decoded,are⟩ := judge_ok accepted
        exact ⟨kid,key,stored,raw,header,by rw [List.append_nil]; exact last,decoded,are⟩
      next => cases answered
  | respond n response now =>
    rw [act] at answered ⊢
    split at answered
    next => cases answered
    next token kid waits =>
      cases response with
      | error e => cases List.mem_singleton.mp answered; cases accepted
      | ok keys =>
        cases List.mem_singleton.mp answered
        simp only at accepted
        split at accepted
        next key held =>
          rw [told,← storeAll_latest,← storeAll_append,storeAll_latest,Stamped.value] at held
          obtain ⟨⟨_,stored⟩,last,rfl⟩ := Option.map_eq_some_iff.mp held
          obtain ⟨raw,decoded,are⟩ := judge_ok accepted
          exact ⟨kid,_,stored,raw,named _ (List.mem_of_getElem? waits),last,decoded,are⟩
        next => cases accepted

end

end OidcValidator

open OidcValidator in
/-- Over every run, in whatever order the provider answers the tokens that wait for it: a token is accepted only with the key
that the provider gave last for its id; it is sent for the keys exactly when that key was not given within the time to live; a
key that was given once is used for every token that a later set answers, though the set lacks it; and the tokens that came are,
up to their order, those answered and those that wait. -/
theorem oidc_law (lib : JwtLibrary) (config : OidcConfig) (inputs : List OidcEvent) :
    let v := run (step lib config) (new lib) inputs
    let log := given lib config inputs
    (∀ i, ∀ a ∈ (v.effect lib config i).answers, ∀ claims, a.result = .ok claims →
      Warranted lib config (log ++ (v.effect lib config i).stored) a claims) ∧
    (∀ token kid now, lib.decodeHeader token = .ok (some kid) → ((v.effect lib config (.validate token now)).fetches = [] ↔
      ∃ key stored,latest log kid = some (key,stored) ∧ (now - stored).toNat < config.cacheTtl)) ∧
    (∀ n token kid keys now, v.waiting[n]? = some (token,kid) → (∃ entry,(kid,entry) ∈ log) →
      ∃ key stored,latest (log ++ refreshed lib keys now) kid = some (key,stored) ∧
        (v.effect lib config (.respond n (.ok keys) now)).answers = [⟨token,now,judge lib config token key now⟩]) ∧
    (v.tokens ++
      (outputs (step lib config) (fun v i => (v.effect lib config i).answers) (new lib) inputs).map OidcAnswer.token).Perm
        (inputs.flatMap OidcEvent.asked) := by
  intro v log
  have told : v.keyCache = latest log := run_cache inputs
  refine ⟨fun i a answered claims accepted => effect_warranted told (run_named inputs) i answered accepted,?_,?_,?_⟩
  · intro token kid now header
    simp only [effect,act,header]
    split
    next key held => exact iff_of_true rfl ⟨key,fresh_latest.mp (told ▸ held)⟩
    next none =>
      refine iff_of_false nofun ?_
      rintro ⟨key,found⟩
      rw [told,fresh_latest.mpr found] at none
      cases none
  · intro n token kid keys now waits before
    obtain ⟨entry,inside⟩ := before
    obtain ⟨⟨key,stored⟩,last⟩ := Option.isSome_iff_exists.mp
      (latest_isSome.mpr ⟨entry,List.mem_append_left (refreshed lib keys now) inside⟩)
    refine ⟨key,stored,last,?_⟩
    have held : Stamped.value (v.keyCache.storeAll (refreshed lib keys now)) kid = some key := by
      rw [told,← storeAll_latest,← storeAll_append,storeAll_latest,Stamped.value,last]
      rfl
    simp only [effect,act,waits,held]
  · have kept := outputs_permuted (@step_waiting lib config) (new lib) inputs
    rw [outputs_inputs] at kept
    rw [outputs_map]
    exact kept

end Ecphoria
