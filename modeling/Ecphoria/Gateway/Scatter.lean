import Ecphoria.Gateway.ShardRouting

/-! Admin operations over the whole fleet. An operation runs on the shard that gets the request
and is then sent to the other addresses of the list; what the answer says is compared with the
shards that did it. -/
namespace Ecphoria

/-- The operations. The audit comes with whether this gateway keeps a log. -/
inductive AdminOperation where
  | reindex
  | backup (target : Option String)
  | retention
  | audit (logged : Bool)
deriving DecidableEq,Repr

/-- What a forwarded call brings back: an answer with a body; a good status whose body is not understood; another
status; or nothing. The call may have been carried out although no answer says so. -/
inductive CallOutcome where
  | answered
  | garbled (performed : Bool)
  | status (code : Nat) (performed : Bool)
  | unreachable (performed : Bool)
deriving DecidableEq,Repr

def CallOutcome.performed : CallOutcome → Bool
  | .answered => true
  | .garbled performed => performed
  | .status _ performed => performed
  | .unreachable performed => performed

/-- Which shard's gateway an address leads to, and what becomes of a call there. -/
structure AdminCalls where
  serves : String → Option Nat
  outcome : Nat → CallOutcome

def AdminCalls.call (calls : AdminCalls) (base : String) : CallOutcome :=
  match calls.serves (trimEndSlashes base) with
  | some shard => calls.outcome shard
  | none => .unreachable false

/-- One line of the breakdown: the shard it names, whether it is ok, and the shard whose result it holds. -/
structure ShardEntry where
  shard : Nat
  ok : Bool
  result : Option Nat
deriving DecidableEq,Repr

inductive AdminAnswer where
  | refused (status : Nat) (code : String)
  | single (shard : Nat)
  | cluster (isPartial : Bool) (shards : List ShardEntry)
  | entries (shards : List Nat)
deriving DecidableEq,Repr

section
variable (s : ShardRoutingState) (calls : AdminCalls) (done : Bool)

def otherUrls : List (String × Nat) := s.baseUrls.zipIdx.filter (fun item => item.2 ≠ s.myShard)

def scatterEntry (item : String × Nat) : ShardEntry :=
  match calls.call item.1 with
  | .answered => ⟨item.2,true,calls.serves (trimEndSlashes item.1)⟩
  | _ => ⟨item.2,false,none⟩

/-- `scatter_admin`, for a request that is not forwarded. -/
def scatterAdmin : AdminAnswer :=
  if s.router.shards ≤ 1 then .single s.myShard
  else
    let shards := (otherUrls s).map (scatterEntry calls)
    .cluster (shards.any (fun entry => !entry.ok)) (⟨s.myShard,true,some s.myShard⟩ :: shards)

/-- The shards whose log entries come in. A call that fails is left out. -/
def auditEntries : List Nat :=
  s.myShard :: (otherUrls s).filterMap (fun item =>
    match calls.call item.1 with
    | .answered => calls.serves (trimEndSlashes item.1)
    | _ => none)

/-- The handlers, with whether the operation succeeds on this shard. -/
def AdminOperation.handle : AdminOperation → AdminAnswer
  | .reindex => if done then scatterAdmin s calls else .refused 500 "REINDEX_ERROR"
  | .retention => if done then scatterAdmin s calls else .refused 500 "RETENTION_ERROR"
  | .backup (some "s3") => if done then .single s.myShard else .refused 500 "BACKUP_ERROR"
  | .backup target =>
    if (target.getD "local") ≠ "local" then .refused 400 "INVALID_TARGET"
    else if done then scatterAdmin s calls else .refused 500 "BACKUP_ERROR"
  | .audit false => .refused 503 "AUDIT_DISABLED"
  | .audit true =>
    if done then
      if 1 < s.router.shards then .entries (auditEntries s calls) else .entries [s.myShard]
    else .refused 500 "AUDIT_ERROR"

def calledShards : AdminOperation → List Nat
  | .backup (some "s3") => []
  | _ => (otherUrls s).filterMap (fun item => calls.serves (trimEndSlashes item.1))

end

def AdminAnswer.PlainSuccess : AdminAnswer → Prop
  | .refused _ _ => False
  | .cluster isPartial _ => isPartial = false
  | .single _ => True
  | .entries _ => True

def AdminAnswer.AccountsFor (shard : Nat) : AdminAnswer → Prop
  | .refused _ _ => False
  | .single own => own = shard
  | .cluster _ listed => (⟨shard,true,some shard⟩ : ShardEntry) ∈ listed
  | .entries shards => shard ∈ shards

/-- A plain success means that every shard has done it, and that the answer says so of each. -/
def HonestSuccess (s : ShardRoutingState) (calls : AdminCalls) (done : Bool) (op : AdminOperation) : Prop :=
  (op.handle s calls done).PlainSuccess → ∀ shard < s.router.shards,
    (shard = s.myShard ∨ shard ∈ calledShards s calls op ∧ (calls.outcome shard).performed = true) ∧
      (op.handle s calls done).AccountsFor shard

def Addressed (s : ShardRoutingState) (calls : AdminCalls) (shard : Nat) : Prop :=
  ∃ url, s.baseUrls[shard]? = some url ∧ calls.serves (trimEndSlashes url) = some shard

/-- Some address other than that of this shard leads to the shard, which answers there. -/
def Heard (s : ShardRoutingState) (calls : AdminCalls) (shard : Nat) : Prop :=
  ∃ (i : Nat) (url : String), i ≠ s.myShard ∧ s.baseUrls[i]? = some url ∧
    calls.serves (trimEndSlashes url) = some shard ∧ calls.outcome shard = .answered

/-- Nothing succeeds; or the operation goes out, and either some call fails visibly or every other shard is listed
at its place. For the audit, every other shard is heard. -/
def AsksEvery (s : ShardRoutingState) (calls : AdminCalls) (done : Bool) : AdminOperation → Prop
  | .backup (some "s3") => done = false
  | .backup target => (target.getD "local") = "local" → done = true →
      (∀ item ∈ otherUrls s, calls.call item.1 = .answered) →
        ∀ shard < s.router.shards, shard ≠ s.myShard → Addressed s calls shard
  | .audit logged => logged = true → done = true → ∀ shard < s.router.shards, shard ≠ s.myShard → Heard s calls shard
  | _ => done = true → (∀ item ∈ otherUrls s, calls.call item.1 = .answered) →
      ∀ shard < s.router.shards, shard ≠ s.myShard → Addressed s calls shard

section
variable {s : ShardRoutingState} {calls : AdminCalls} {shard : Nat}

theorem mem_otherUrls {item : String × Nat} :
    item ∈ otherUrls s ↔ item.2 ≠ s.myShard ∧ s.baseUrls[item.2]? = some item.1 := by
  obtain ⟨url,i⟩ := item
  rw [otherUrls,List.mem_filter,List.mk_mem_zipIdx_iff_getElem?,decide_eq_true_iff,and_comm]

theorem scatterEntry_ok {item : String × Nat} : (scatterEntry calls item).ok = true ↔ calls.call item.1 = .answered := by
  unfold scatterEntry
  cases calls.call item.1 <;> simp

theorem call_served {base : String} (served : calls.serves (trimEndSlashes base) = some shard) :
    calls.call base = calls.outcome shard := by
  rw [AdminCalls.call,served]

/-- The scatter, where it is used: a plain success is honest exactly when the addresses cover the shards. -/
theorem scatterAdmin_honest_iff (several : 1 < s.router.shards) :
    ((scatterAdmin s calls).PlainSuccess → ∀ shard < s.router.shards,
      (shard = s.myShard ∨ shard ∈ (otherUrls s).filterMap (fun item => calls.serves (trimEndSlashes item.1)) ∧
          (calls.outcome shard).performed = true) ∧ (scatterAdmin s calls).AccountsFor shard) ↔
      ((∀ item ∈ otherUrls s, calls.call item.1 = .answered) →
        ∀ shard < s.router.shards, shard ≠ s.myShard → Addressed s calls shard) := by
  have unfolded : scatterAdmin s calls =
      .cluster (((otherUrls s).map (scatterEntry calls)).any (fun entry => !entry.ok))
        (⟨s.myShard,true,some s.myShard⟩ :: (otherUrls s).map (scatterEntry calls)) :=
    if_neg (Nat.not_le.mpr several)
  have plain : (scatterAdmin s calls).PlainSuccess ↔ ∀ item ∈ otherUrls s, calls.call item.1 = .answered := by
    rw [unfolded]
    simp only [AdminAnswer.PlainSuccess,List.any_eq_false,List.mem_map,forall_exists_index,and_imp,
      forall_apply_eq_imp_iff₂,Bool.not_eq_true',Bool.not_eq_false]
    exact forall₂_congr (fun item _ => scatterEntry_ok)
  have accounts (shard : Nat) (other : shard ≠ s.myShard) :
      (scatterAdmin s calls).AccountsFor shard ↔ ∃ url, s.baseUrls[shard]? = some url ∧
        calls.call url = .answered ∧ calls.serves (trimEndSlashes url) = some shard := by
    rw [unfolded]
    simp only [AdminAnswer.AccountsFor,List.mem_cons,List.mem_map]
    constructor
    · rintro (own | ⟨item,listed,entry⟩)
      · exact absurd (ShardEntry.mk.inj own).1 other
      · obtain ⟨_,found⟩ := mem_otherUrls.mp listed
        unfold scatterEntry at entry
        split at entry
        next answered =>
          obtain ⟨place,_,result⟩ := ShardEntry.mk.inj entry
          rw [place] at found
          exact ⟨item.1,found,answered,result⟩
        next => cases (ShardEntry.mk.inj entry).2.1
    · rintro ⟨url,found,answered,result⟩
      refine Or.inr ⟨(url,shard),mem_otherUrls.mpr ⟨other,found⟩,?_⟩
      rw [scatterEntry,answered,result]
  rw [plain]
  constructor
  · intro honest answered shard bound other
    obtain ⟨url,found,_,result⟩ := (accounts shard other).mp (honest answered shard bound).2
    exact ⟨url,found,result⟩
  · intro covered answered shard bound
    by_cases own : shard = s.myShard
    · refine ⟨Or.inl own,?_⟩
      rw [unfolded,own]
      exact List.mem_cons_self
    · obtain ⟨url,found,result⟩ := covered answered shard bound own
      have listed : (url,shard) ∈ otherUrls s := mem_otherUrls.mpr ⟨own,found⟩
      have good := answered (url,shard) listed
      refine ⟨Or.inr ⟨List.mem_filterMap.mpr ⟨_,listed,result⟩,?_⟩,(accounts shard own).mpr ⟨url,found,good,result⟩⟩
      rw [← call_served result,good]
      rfl

theorem auditEntries_honest_iff :
    (∀ shard < s.router.shards,
      (shard = s.myShard ∨ shard ∈ (otherUrls s).filterMap (fun item => calls.serves (trimEndSlashes item.1)) ∧
        (calls.outcome shard).performed = true) ∧ shard ∈ auditEntries s calls) ↔
      ∀ shard < s.router.shards, shard ≠ s.myShard → Heard s calls shard := by
  have heard (shard : Nat) (other : shard ≠ s.myShard) : shard ∈ auditEntries s calls ↔ Heard s calls shard := by
    simp only [auditEntries,List.mem_cons,List.mem_filterMap]
    constructor
    · rintro (own | ⟨item,listed,entry⟩)
      · exact absurd own other
      · obtain ⟨apart,found⟩ := mem_otherUrls.mp listed
        split at entry
        next answered => exact ⟨item.2,item.1,apart,found,entry,call_served entry ▸ answered⟩
        next => cases entry
    · rintro ⟨i,url,apart,found,served,answered⟩
      refine Or.inr ⟨(url,i),mem_otherUrls.mpr ⟨apart,found⟩,?_⟩
      rw [call_served served,answered]
      exact served
  constructor
  · intro honest shard bound other
    exact (heard shard other).mp (honest shard bound).2
  · intro all shard bound
    by_cases own : shard = s.myShard
    · exact ⟨Or.inl own,own ▸ List.mem_cons_self⟩
    · have there := all shard bound own
      obtain ⟨i,url,apart,found,served,answered⟩ := there
      refine ⟨Or.inr ⟨List.mem_filterMap.mpr ⟨(url,i),mem_otherUrls.mpr ⟨apart,found⟩,served⟩,?_⟩,
        (heard shard own).mpr ⟨i,url,apart,found,served,answered⟩⟩
      rw [answered]
      rfl

theorem not_success {status : Nat} {code : String} : ¬(AdminAnswer.refused status code).PlainSuccess := id

theorem scattered_honest_iff (several : 1 < s.router.shards) {done : Bool} {code : String} {op : AdminOperation}
    (handled : op.handle s calls done = if done then scatterAdmin s calls else .refused 500 code)
    (goes : calledShards s calls op = (otherUrls s).filterMap (fun item => calls.serves (trimEndSlashes item.1))) :
    HonestSuccess s calls done op ↔ (done = true → (∀ item ∈ otherUrls s, calls.call item.1 = .answered) →
      ∀ shard < s.router.shards, shard ≠ s.myShard → Addressed s calls shard) := by
  rw [HonestSuccess,handled,goes]
  cases done with
  | false => exact iff_of_true (fun success => absurd success not_success) (fun fails => by cases fails)
  | true =>
    rw [if_pos rfl]
    exact (scatterAdmin_honest_iff several).trans ⟨fun covered _ => covered,fun covered => covered rfl⟩

/-- For every operation, list of addresses and pattern of failures. -/
theorem honestSuccess_iff (several : 1 < s.router.shards) (done : Bool) (op : AdminOperation) :
    HonestSuccess s calls done op ↔ AsksEvery s calls done op := by
  cases op with
  | reindex => exact scattered_honest_iff several rfl rfl
  | retention => exact scattered_honest_iff several rfl rfl
  | audit logged =>
    cases logged with
    | false => exact iff_of_true (fun success => absurd success not_success) nofun
    | true =>
      have handled : (AdminOperation.audit true).handle s calls done =
          if done then .entries (auditEntries s calls) else .refused 500 "AUDIT_ERROR" := by
        simp [AdminOperation.handle,several]
      have sent : calledShards s calls (.audit true) =
          (otherUrls s).filterMap (fun item => calls.serves (trimEndSlashes item.1)) := rfl
      rw [HonestSuccess,handled,sent]
      cases done with
      | false => exact iff_of_true (fun success => absurd success not_success) (fun _ fails => by cases fails)
      | true =>
        rw [if_pos rfl]
        constructor
        · intro honest _ _
          exact auditEntries_honest_iff.mp (honest trivial)
        · intro covered _
          exact auditEntries_honest_iff.mpr (covered rfl rfl)
  | backup target =>
    by_cases cloud : target = some "s3"
    · subst cloud
      rw [HonestSuccess]
      cases done with
      | false => exact iff_of_true (fun success => absurd success not_success) rfl
      | true =>
        refine iff_of_false ?_ (fun fails => by cases fails)
        intro honest
        have alone (shard : Nat) (bound : shard < s.router.shards) : s.myShard = shard := (honest trivial shard bound).2
        have first := alone 0 (by omega)
        have second := alone 1 several
        omega
    · have handled : (AdminOperation.backup target).handle s calls done =
          if target.getD "local" ≠ "local" then .refused 400 "INVALID_TARGET"
          else if done then scatterAdmin s calls else .refused 500 "BACKUP_ERROR" := by
        unfold AdminOperation.handle
        split <;> simp_all
      have sent : calledShards s calls (.backup target) =
          (otherUrls s).filterMap (fun item => calls.serves (trimEndSlashes item.1)) := by
        unfold calledShards
        split <;> simp_all
      have covers : AsksEvery s calls done (.backup target) ↔ (target.getD "local" = "local" → done = true →
          (∀ item ∈ otherUrls s, calls.call item.1 = .answered) →
            ∀ shard < s.router.shards, shard ≠ s.myShard → Addressed s calls shard) := by
        unfold AsksEvery
        split <;> simp_all
      rw [covers]
      by_cases known : target.getD "local" = "local"
      · rw [if_neg (not_not.mpr known)] at handled
        rw [scattered_honest_iff several handled sent]
        exact ⟨fun covered _ => covered,fun covered => covered known⟩
      · rw [if_pos known] at handled
        refine iff_of_true ?_ (fun same => absurd same known)
        intro success
        rw [handled] at success
        exact absurd success not_success

end

def pairedState : ShardRoutingState := ⟨.new shardHash 2 128,0,["http://a","http://b"]⟩

def pairedCalls : AdminCalls :=
  ⟨fun url => if url = "http://a" then some 0 else if url = "http://b" then some 1 else none,fun _ => .answered⟩

theorem honestSuccess_iff_paired : 1 < pairedState.router.shards ∧
    (HonestSuccess pairedState pairedCalls true .reindex ↔ AsksEvery pairedState pairedCalls true .reindex) :=
  ⟨by decide,honestSuccess_iff (by decide) true .reindex⟩

/-- Two shards, of which the list has one: the answer is a plain success of the first alone. -/
theorem short_list_claims_success :
    ¬HonestSuccess ⟨.new shardHash 2 128,0,["http://a"]⟩ pairedCalls true .reindex := by
  intro honest
  have second := (honest rfl 1 (by decide)).2
  have missing : ¬(⟨1,true,some 1⟩ : ShardEntry) ∈ [(⟨0,true,some 0⟩ : ShardEntry)] := by decide
  exact missing second

end Ecphoria
