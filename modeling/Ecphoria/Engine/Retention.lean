import Ecphoria.Memory.Records
import Ecphoria.Memory.StateStore
import Ecphoria.Library.Transition

/-! Retention: a pass for each source that has a policy, then one for the sources that
have none. The policies are an entry of the state store. A day count may reach back
before the first instant of the calendar library, where the subtraction panics. -/
namespace Ecphoria
open Library

abbrev RetentionPolicies := List (String × UInt32)

/-- `serde_json::to_value(&policies)`. -/
def RetentionPolicies.toJson (policies : RetentionPolicies) : Json :=
  .arr (policies.map (fun policy => .arr [.str policy.1,.int policy.2.toNat]))

/-- A pair of a text and a `u32`. -/
def readPolicy : Json → Option (String × UInt32)
  | .arr [.str source,.int n] => if 0 ≤ n ∧ n < 2 ^ 32 then some (source,UInt32.ofNat n.toNat) else none
  | _ => none

/-- `serde_json::from_value(..).unwrap_or_default()`. -/
def readPolicies : Json → RetentionPolicies
  | .arr items => (items.mapM readPolicy).getD []
  | _ => []

/-- The first policy of the source is changed, or one is added. -/
def RetentionPolicies.set (policies : RetentionPolicies) (source : String) (days : UInt32) : RetentionPolicies :=
  match policies with
  | [] => [(source,days)]
  | (other,old) :: rest => if other = source then (other,days) :: rest else (other,old) :: RetentionPolicies.set rest source days

def RetentionPolicies.remove (policies : RetentionPolicies) (source : String) : RetentionPolicies :=
  policies.filter (fun policy => policy.1 ≠ source)

def policiesKey : String × String := ("_system","retention_policies")

namespace StateStore

def retentionPolicies (s : StateStore) (now : Nat) : RetentionPolicies × StateStore :=
  match s.call now (.get "_system" "retention_policies") with
  | (.entry (some entry),s,_) => (readPolicies entry.value,s)
  | (_,s,_) => ([],s)

def storePolicies (s : StateStore) (now : Nat) (policies : RetentionPolicies) : StateStore :=
  (s.call now (.set "_system" "retention_policies" policies.toJson)).2.1

def setRetentionPolicy (s : StateStore) (now : Nat) (source : String) (days : UInt32) : StateStore :=
  let (policies,s) := s.retentionPolicies now
  s.storePolicies now (policies.set source days)

def removeRetentionPolicy (s : StateStore) (now : Nat) (source : String) : StateStore :=
  let (policies,s) := s.retentionPolicies now
  s.storePolicies now (policies.remove source)

end StateStore

/-- The first instant of the calendar library, at the start of the year -262143. -/
def minInstant : Int := -8334601228800 * oneSecond

/-- `Utc::now() - Duration::days(days)`, which panics before the first instant. -/
def retentionCutoff (now : Int) (days : UInt32) : Option Int :=
  let cutoff := now - days.toNat * dayLength
  if minInstant ≤ cutoff then some cutoff else none

inductive RetentionError where
  | panicked
  | storage
deriving DecidableEq,Repr

section
/- `cast` is how the database reads the text of a cutoff, `now` the clock in the pass of a source or in the last one. -/
variable (cast : Int → Option Int) (now : Option String → Int)

/-- `DELETE FROM episodic WHERE ts < ?::TIMESTAMPTZ`, for the chosen rows. -/
def deleteBefore (pass : Option String) (days : UInt32) (chosen : EventRow → Bool) (n : Nat) (t : EpisodicTable) :
    Except RetentionError Nat × EpisodicTable :=
  match retentionCutoff (now pass) days with
  | none => (.error .panicked,t)
  | some cutoff =>
    match cast cutoff with
    | none => (.error .storage,t)
    | some cutoff =>
      let old := fun row => chosen row && row.ts < cutoff
      (.ok (n + t.rows.countP old),t.delete old)

def policyPasses : RetentionPolicies → Nat → EpisodicTable → Except RetentionError Nat × EpisodicTable
  | [],n,t => (.ok n,t)
  | (source,days) :: rest,n,t =>
    if days = 0 then policyPasses rest n t
    else
      match deleteBefore cast now (some source) days (fun row => row.source = source) n t with
      | (.ok n,t) => policyPasses rest n t
      | failed => failed

def defaultPass (policies : RetentionPolicies) (defaultDays : UInt32) (n : Nat) (t : EpisodicTable) :
    Except RetentionError Nat × EpisodicTable :=
  if defaultDays = 0 then (.ok n,t)
  else if policies.isEmpty then deleteBefore cast now none defaultDays (fun _ => true) n t
  else deleteBefore cast now none defaultDays (fun row => row.source ∉ policies.map Prod.fst) n t

def retentionPasses (policies : RetentionPolicies) (defaultDays : UInt32) (t : EpisodicTable) :
    Except RetentionError Nat × EpisodicTable :=
  match policyPasses cast now policies 0 t with
  | (.ok n,t) => defaultPass cast now policies defaultDays n t
  | failed => failed

def enforceRetention (defaultDays : UInt32) (s : StateStore) (stateNow : Nat) (t : EpisodicTable) :
    Except RetentionError Nat × EpisodicTable :=
  retentionPasses cast now (s.retentionPolicies stateNow).1 defaultDays t

end

inductive PolicyCall where
  | set (source : String) (days : UInt32)
  | remove (source : String)

def StateStore.policyStep (s : StateStore) (input : Nat × PolicyCall) : StateStore :=
  match input.2 with
  | .set source days => s.setRetentionPolicy input.1 source days
  | .remove source => s.removeRetentionPolicy input.1 source

def PolicyCall.about (source : String) (before : Option UInt32) : PolicyCall → Option UInt32
  | .set other days => if other = source then some days else before
  | .remove other => if other = source then none else before

def policyOf (calls : List (Nat × PolicyCall)) (source : String) : Option UInt32 :=
  (calls.map Prod.snd).foldl (PolicyCall.about source) none

/-- The event is older than the days its source keeps events for, by the clock to the microsecond. -/
def Outdated (now : Option String → Int) (policy : String → Option UInt32) (defaultDays : UInt32) (row : EventRow) : Bool :=
  match policy row.source with
  | some days => days ≠ 0 && row.ts < micros (now (some row.source)) - days.toNat * dayLength
  | none => defaultDays ≠ 0 && row.ts < micros (now none) - defaultDays.toNat * dayLength

section
variable {policies : RetentionPolicies} {source : String} {days : UInt32} {s : StateStore}

theorem readPolicy_pair (source : String) (days : UInt32) :
    readPolicy (.arr [.str source,.int days.toNat]) = some (source,days) := by
  have small : (days.toNat : Int) < 2 ^ 32 := by exact_mod_cast days.toNat_lt
  rw [readPolicy,if_pos ⟨Int.natCast_nonneg _,small⟩,Int.toNat_natCast,UInt32.ofNat_toNat]

theorem readPolicies_toJson (policies : RetentionPolicies) : readPolicies policies.toJson = policies := by
  have items : (policies.map (fun policy => Json.arr [.str policy.1,.int policy.2.toNat])).mapM readPolicy =
      some policies := by
    induction policies with
    | nil => rfl
    | cons policy policies ih =>
      rw [List.map_cons,List.mapM_cons,readPolicy_pair,ih]
      rfl
  rw [RetentionPolicies.toJson,readPolicies,items,Option.getD_some]

theorem lookup_set (policies : RetentionPolicies) (source : String) (days : UInt32) (other : String) :
    (policies.set source days).lookup other = if source = other then some days else policies.lookup other := by
  induction policies with
  | nil =>
    by_cases same : source = other
    · simp [RetentionPolicies.set,same]
    · have apart : (other == source) = false := beq_false_of_ne (Ne.symm same)
      simp [RetentionPolicies.set,same,List.lookup_cons,apart]
  | cons policy policies ih =>
    obtain ⟨name,old⟩ := policy
    rw [RetentionPolicies.set]
    by_cases here : name = source
    · rw [if_pos here,here]
      by_cases same : source = other
      · simp [same]
      · have apart : (other == source) = false := beq_false_of_ne (Ne.symm same)
        simp [same,List.lookup_cons,apart]
    · rw [if_neg here,List.lookup_cons,List.lookup_cons,ih]
      by_cases same : source = other
      · rw [← same,beq_false_of_ne (Ne.symm here)]
      · rw [if_neg same,if_neg same]

theorem lookup_remove (policies : RetentionPolicies) (source other : String) :
    (policies.remove source).lookup other = if source = other then none else policies.lookup other := by
  induction policies with
  | nil => simp [RetentionPolicies.remove]
  | cons policy policies ih =>
    obtain ⟨name,old⟩ := policy
    rw [RetentionPolicies.remove] at ih ⊢
    rw [List.filter_cons]
    by_cases here : name = source
    · rw [if_neg (by simp [here]),ih,here]
      by_cases same : source = other
      · simp [same]
      · have apart : (other == source) = false := beq_false_of_ne (Ne.symm same)
        simp [same,List.lookup_cons,apart]
    · rw [if_pos (by simpa using here),List.lookup_cons,List.lookup_cons,ih]
      by_cases same : source = other
      · rw [← same,beq_false_of_ne (Ne.symm here)]
      · rw [if_neg same,if_neg same]

theorem sources_set (policies : RetentionPolicies) (source : String) (days : UInt32) :
    (policies.set source days).map Prod.fst =
      if source ∈ policies.map Prod.fst then policies.map Prod.fst else policies.map Prod.fst ++ [source] := by
  induction policies with
  | nil => simp [RetentionPolicies.set]
  | cons policy policies ih =>
    obtain ⟨name,old⟩ := policy
    rw [RetentionPolicies.set]
    by_cases here : name = source
    · simp [here]
    · rw [if_neg here,List.map_cons,ih,List.map_cons]
      simp only [List.mem_cons,Ne.symm here,false_or]
      split <;> rfl

theorem nodup_set (distinct : (policies.map Prod.fst).Nodup) (source : String) (days : UInt32) :
    ((policies.set source days).map Prod.fst).Nodup := by
  rw [sources_set]
  split
  next => exact distinct
  next absent =>
    refine distinct.append (List.nodup_singleton source) ?_
    rintro name inside same
    rw [List.mem_singleton.mp same] at inside
    exact absent inside

/-- The store holds the policies, in its cache or as none at all. -/
def PoliciesKept (s : StateStore) (policies : RetentionPolicies) : Prop :=
  (∃ entry, s.cache policiesKey = some entry ∧ entry.value = policies.toJson) ∨
    (policies = [] ∧ s.cache policiesKey = none ∧ s.table.find policiesKey = none)

theorem PoliciesKept.read (kept : PoliciesKept s policies) (now : Nat) :
    (s.retentionPolicies now).1 = policies ∧ PoliciesKept (s.retentionPolicies now).2 policies := by
  rcases kept with ⟨entry,cached,value⟩ | ⟨rfl,uncached,absent⟩
  · have hit : s.hit (.get "_system" "retention_policies") = some entry := cached
    have call : s.call now (.get "_system" "retention_policies") = (.entry (some entry),s,[]) := by
      rw [StateStore.call,hit]
    have read : s.retentionPolicies now = (readPolicies entry.value,s) := by
      unfold StateStore.retentionPolicies
      rw [call]
    rw [read]
    exact ⟨by rw [value,readPolicies_toJson],Or.inl ⟨entry,cached,value⟩⟩
  · have missed : s.table.read policiesKey now = none := by
      rw [StateTable.read,absent]
      rfl
    have call : s.call now (.get "_system" "retention_policies") =
        (.entry none,⟨s.table,s.cache.offer policiesKey none⟩,[]) := by
      have hit : s.hit (.get "_system" "retention_policies") = none := uncached
      have done : s.table.execute now (.get "_system" "retention_policies") =
          ⟨.entry none,s.table,fun cache => cache.offer policiesKey none,[]⟩ := by
        rw [← missed]
        rfl
      rw [StateStore.call,hit,done]
    have read : s.retentionPolicies now = ([],⟨s.table,s.cache.offer policiesKey none⟩) := by
      unfold StateStore.retentionPolicies
      rw [call]
    rw [read]
    refine ⟨rfl,Or.inr ⟨rfl,?_,absent⟩⟩
    change s.cache.offer policiesKey none policiesKey = none
    rw [StateCache.offer,uncached]
    exact Function.update_self _ _ _

theorem policiesKept_stored (s : StateStore) (now : Nat) (policies : RetentionPolicies) :
    PoliciesKept (s.storePolicies now policies) policies := by
  have cached : (s.storePolicies now policies).cache = s.cache.put policiesKey ⟨"_system","retention_policies",
      policies.toJson,(s.table.set "_system" "retention_policies" policies.toJson now).1⟩ := rfl
  exact Or.inl ⟨_,by rw [cached]; exact Function.update_self _ _ _,rfl⟩

structure PoliciesLeft (calls : List (Nat × PolicyCall)) (s : StateStore) (policies : RetentionPolicies) : Prop where
  kept : PoliciesKept s policies
  distinct : (policies.map Prod.fst).Nodup
  each : ∀ source, policies.lookup source = policyOf calls source

theorem policyOf_append (calls : List (Nat × PolicyCall)) (call : Nat × PolicyCall) (source : String) :
    policyOf (calls ++ [call]) source = call.2.about source (policyOf calls source) := by
  simp [policyOf]

theorem PoliciesLeft.step {calls : List (Nat × PolicyCall)} (left : PoliciesLeft calls s policies)
    (call : Nat × PolicyCall) : ∃ policies', PoliciesLeft (calls ++ [call]) (s.policyStep call) policies' := by
  obtain ⟨now,change⟩ := call
  obtain ⟨same,kept⟩ := left.kept.read now
  cases change with
  | set source days =>
    refine ⟨policies.set source days,?_,nodup_set left.distinct source days,?_⟩
    · unfold StateStore.policyStep StateStore.setRetentionPolicy
      dsimp only
      rw [same]
      exact policiesKept_stored _ now _
    · intro other
      rw [lookup_set,policyOf_append,left.each]
      rfl
  | remove source =>
    refine ⟨policies.remove source,?_,?_,?_⟩
    · unfold StateStore.policyStep StateStore.removeRetentionPolicy
      dsimp only
      rw [same]
      exact policiesKept_stored _ now _
    · exact left.distinct.sublist (List.filter_sublist.map Prod.fst)
    · intro other
      rw [lookup_remove,policyOf_append,left.each]
      rfl

theorem policies_run (unset : PoliciesKept s []) (calls : List (Nat × PolicyCall)) :
    ∃ policies, PoliciesLeft calls (run StateStore.policyStep s calls) policies := by
  induction calls using List.reverseRecOn with
  | nil => exact ⟨[],unset,List.nodup_nil,fun _ => rfl⟩
  | append_singleton calls call ih =>
    obtain ⟨policies,left⟩ := ih
    rw [run_append]
    exact left.step call

end

section
variable {cast : Int → Option Int} {now : Option String → Int} {policies : RetentionPolicies} {defaultDays : UInt32}

def policyOutdated (now : Option String → Int) (policies : RetentionPolicies) (row : EventRow) : Bool :=
  policies.any (fun policy => policy.2 ≠ 0 && row.source = policy.1 &&
    row.ts < micros (now (some policy.1)) - policy.2.toNat * dayLength)

/-- The count of days does not reach back before the first instant. -/
def Reaches (now : Int) (days : UInt32) : Prop := days ≠ 0 → minInstant ≤ now - days.toNat * dayLength

instance (now : Int) (days : UInt32) : Decidable (Reaches now days) := inferInstanceAs (Decidable (_ → _))

theorem micros_cutoff (now : Int) (days : Nat) : micros (now - days * dayLength) = micros now - days * dayLength := by
  unfold micros microsecond dayLength oneSecond
  omega

theorem deleteBefore_cut {pass : Option String} {days : UInt32} {chosen : EventRow → Bool} {n : Nat} {t : EpisodicTable}
    (some_days : days ≠ 0) (reaches : Reaches (now pass) days)
    (reads : ∀ cutoff, retentionCutoff (now pass) days = some cutoff → cast cutoff = some (micros cutoff)) :
    deleteBefore cast now pass days chosen n t =
      (.ok (n + t.rows.countP (fun row => chosen row && row.ts < micros (now pass) - days.toNat * dayLength)),
        t.delete (fun row => chosen row && row.ts < micros (now pass) - days.toNat * dayLength)) := by
  have cutoff : retentionCutoff (now pass) days = some (now pass - days.toNat * dayLength) := if_pos (reaches some_days)
  rw [deleteBefore,cutoff]
  dsimp only
  rw [reads _ cutoff]
  dsimp only
  rw [micros_cutoff]

theorem deleteBefore_panics {pass : Option String} {days : UInt32} {chosen : EventRow → Bool} {n : Nat}
    {t : EpisodicTable} (far : ¬Reaches (now pass) days) :
    deleteBefore cast now pass days chosen n t = (.error .panicked,t) := by
  rw [Reaches,Classical.not_imp] at far
  rw [deleteBefore,retentionCutoff]
  dsimp only
  rw [if_neg far.2]

theorem delete_two (t : EpisodicTable) (p q : EventRow → Bool) (n : Nat) :
    n + t.rows.countP p + (t.delete p).rows.countP q = n + t.rows.countP (fun row => p row || q row) ∧
      (t.delete p).delete q = t.delete (fun row => p row || q row) := by
  constructor
  · have rest : (t.delete p).rows.countP q + t.rows.countP p = t.rows.countP (fun row => p row || q row) := by
      change (t.rows.filter (fun row => !p row)).countP q + _ = _
      induction t.rows with
      | nil => rfl
      | cons row rows ih =>
        rw [List.filter_cons,List.countP_cons,List.countP_cons]
        cases first : p row <;> simp [List.countP_cons] <;> omega
    omega
  · apply Table.ext
    simp [Table.delete,List.filter_filter,Bool.and_comm]

theorem policyPasses_cut (reaches : ∀ policy ∈ policies, Reaches (now (some policy.1)) policy.2)
    (reads : ∀ pass days cutoff, retentionCutoff (now pass) days = some cutoff → cast cutoff = some (micros cutoff))
    (n : Nat) (t : EpisodicTable) : policyPasses cast now policies n t =
      (.ok (n + t.rows.countP (policyOutdated now policies)),t.delete (policyOutdated now policies)) := by
  induction policies generalizing n t with
  | nil =>
    have never : policyOutdated now [] = fun _ => false := rfl
    have whole : t.delete (fun _ => false) = t := Table.ext (List.filter_true _)
    rw [policyPasses,never,whole,List.countP_false]
    rfl
  | cons policy policies ih =>
    obtain ⟨source,days⟩ := policy
    have rest := ih (fun policy inside => reaches policy (List.mem_cons_of_mem _ inside))
    rw [policyPasses]
    by_cases zero : days = 0
    · have same : policyOutdated now ((source,days) :: policies) = policyOutdated now policies := by
        funext row
        simp [policyOutdated,zero]
      rw [if_pos zero,rest,same]
    · rw [if_neg zero,deleteBefore_cut zero (reaches _ List.mem_cons_self) (reads _ _)]
      dsimp only
      rw [rest]
      obtain ⟨counted,deleted⟩ := delete_two t (fun row => decide (row.source = source) &&
        decide (row.ts < micros (now (some source)) - days.toNat * dayLength)) (policyOutdated now policies) n
      rw [counted,deleted]
      have same : policyOutdated now ((source,days) :: policies) = fun row => (decide (row.source = source) &&
          decide (row.ts < micros (now (some source)) - days.toNat * dayLength)) || policyOutdated now policies row := by
        funext row
        simp [policyOutdated,zero]
      rw [same]

theorem policyPasses_panics {policy : String × UInt32} (inside : policy ∈ policies)
    (far : ¬Reaches (now (some policy.1)) policy.2) (n : Nat) (t : EpisodicTable) :
    ∀ m t', policyPasses cast now policies n t ≠ (.ok m,t') := by
  induction policies generalizing n t with
  | nil => cases inside
  | cons first policies ih =>
    obtain ⟨source,days⟩ := first
    intro m t' done
    rw [policyPasses] at done
    rcases List.mem_cons.mp inside with rfl | later
    · have some_days : days ≠ 0 := (Classical.not_imp.mp far).1
      rw [if_neg some_days,deleteBefore_panics far] at done
      cases done
    · split at done
      next => exact ih later n t m t' done
      next =>
        generalize passed : deleteBefore cast now (some source) days (fun row => decide (row.source = source)) n t = result
          at done
        obtain ⟨outcome,left⟩ := result
        cases outcome with
        | ok k => exact ih later k left m t' done
        | error err => cases done

theorem policyOutdated_lookup (distinct : (policies.map Prod.fst).Nodup) (row : EventRow) :
    policyOutdated now policies row = (policies.lookup row.source).any (fun days =>
      days ≠ 0 && row.ts < micros (now (some row.source)) - days.toNat * dayLength) := by
  induction policies with
  | nil => rfl
  | cons policy policies ih =>
    obtain ⟨name,days⟩ := policy
    obtain ⟨new,rest⟩ := List.nodup_cons.mp distinct
    have later : policyOutdated now ((name,days) :: policies) row = ((decide (days ≠ 0) && decide (row.source = name) &&
        decide (row.ts < micros (now (some name)) - days.toNat * dayLength)) || policyOutdated now policies row) := rfl
    rw [later,ih rest,List.lookup_cons]
    by_cases same : row.source = name
    · have absent : policies.lookup row.source = none := by
        rw [List.lookup_eq_none_iff]
        intro other inside
        refine bne_iff_ne.mpr ?_
        intro equal
        exact new (List.mem_map.mpr ⟨other,inside,(equal.symm.trans same)⟩)
      rw [absent]
      simp [same]
    · have apart : (row.source == name) = false := beq_false_of_ne same
      simp [same,apart]

theorem mem_policies (distinct : (policies.map Prod.fst).Nodup) (source : String) (days : UInt32) :
    (source,days) ∈ policies ↔ policies.lookup source = some days := by
  rw [List.lookup_eq_some_iff]
  constructor
  · intro inside
    obtain ⟨before,after,rfl⟩ := List.append_of_mem inside
    refine ⟨before,after,rfl,?_⟩
    intro other first
    rw [List.map_append,List.nodup_append] at distinct
    exact bne_iff_ne.mpr (distinct.2.2 other.1 (List.mem_map_of_mem first) source (by simp)).symm
  · rintro ⟨before,after,rfl,_⟩
    exact List.mem_append_right _ List.mem_cons_self

theorem mem_sources (policies : RetentionPolicies) (source : String) :
    source ∈ policies.map Prod.fst ↔ (policies.lookup source).isSome := by
  induction policies with
  | nil => simp
  | cons policy policies ih =>
    obtain ⟨name,days⟩ := policy
    rw [List.map_cons,List.mem_cons,ih,List.lookup_cons]
    by_cases same : source = name
    · simp [same]
    · have apart : (source == name) = false := beq_false_of_ne same
      simp [same,apart]

theorem defaultPass_eq (policies : RetentionPolicies) (defaultDays : UInt32) (n : Nat) (t : EpisodicTable) :
    defaultPass cast now policies defaultDays n t = if defaultDays = 0 then (.ok n,t)
      else deleteBefore cast now none defaultDays (fun row => row.source ∉ policies.map Prod.fst) n t := by
  unfold defaultPass
  cases policies with
  | nil =>
    have all : (fun row : EventRow => decide (row.source ∉ ([] : RetentionPolicies).map Prod.fst)) = fun _ => true := by
      funext row
      simp
    rw [List.isEmpty_nil,if_pos rfl,all]
  | cons policy policies => rfl

theorem passes_cut {policy : String → Option UInt32} (distinct : (policies.map Prod.fst).Nodup)
    (each : ∀ source, policies.lookup source = policy source)
    (reachesDefault : Reaches (now none) defaultDays)
    (reads : ∀ pass days cutoff, retentionCutoff (now pass) days = some cutoff → cast cutoff = some (micros cutoff))
    (t : EpisodicTable) : defaultPass cast now policies defaultDays (0 + t.rows.countP (policyOutdated now policies))
      (t.delete (policyOutdated now policies)) =
        (.ok (t.rows.countP (Outdated now policy defaultDays)),t.delete (Outdated now policy defaultDays)) := by
  rw [defaultPass_eq]
  by_cases zero : defaultDays = 0
  · have same : policyOutdated now policies = Outdated now policy defaultDays := by
      funext row
      rw [policyOutdated_lookup distinct,each,Outdated]
      cases policy row.source <;> simp [zero]
    rw [if_pos zero,same,Nat.zero_add]
  · rw [if_neg zero,deleteBefore_cut zero reachesDefault (reads _ _)]
    obtain ⟨counted,deleted⟩ := delete_two t (policyOutdated now policies) (fun row =>
      decide (row.source ∉ policies.map Prod.fst) && decide (row.ts < micros (now none) - defaultDays.toNat * dayLength)) 0
    have same : (fun row => policyOutdated now policies row || (decide (row.source ∉ policies.map Prod.fst) &&
        decide (row.ts < micros (now none) - defaultDays.toNat * dayLength))) = Outdated now policy defaultDays := by
      funext row
      have named : decide (row.source ∉ policies.map Prod.fst) = !(policy row.source).isSome := by
        rw [← each,decide_not,Bool.decide_congr (mem_sources policies row.source),Bool.decide_eq_true]
      rw [policyOutdated_lookup distinct,each,Outdated,named]
      cases policy row.source <;> simp [zero]
    rw [counted,deleted,same,Nat.zero_add]

private theorem enforceRetention_left {calls : List (Nat × PolicyCall)} {s : StateStore}
    (left : PoliciesLeft calls s policies) (stateNow : Nat) (t : EpisodicTable) :
    enforceRetention cast now defaultDays s stateNow t = retentionPasses cast now policies defaultDays t := by
  rw [enforceRetention,(left.kept.read stateNow).1]

theorem enforceRetention_policy_far {calls : List (Nat × PolicyCall)} {s : StateStore} (left : PoliciesLeft calls s policies)
    {source : String} {days : UInt32} (set : policyOf calls source = some days)
    (far : ¬Reaches (now (some source)) days) (stateNow : Nat) (t : EpisodicTable) (n : Nat) (t' : EpisodicTable) :
    enforceRetention cast now defaultDays s stateNow t ≠ (.ok n,t') := by
  have inside : (source,days) ∈ policies := by
    rwa [mem_policies left.distinct,left.each]
  have never := @policyPasses_panics cast now policies (source,days) inside far 0 t
  rw [enforceRetention_left left,retentionPasses]
  generalize policyPasses cast now policies 0 t = passed at never
  obtain ⟨outcome,rest⟩ := passed
  cases outcome with
  | ok m => exact absurd rfl (never m rest)
  | error err => exact fun done => by cases done

/-- Retention deletes exactly what is outdated exactly when no count of days that is in force reaches back before the
first instant of the calendar library. -/
theorem retention_exact_iff {s : StateStore} (unset : PoliciesKept s []) (calls : List (Nat × PolicyCall)) (stateNow : Nat)
    (t : EpisodicTable)
    (reads : ∀ pass days cutoff, retentionCutoff (now pass) days = some cutoff → cast cutoff = some (micros cutoff)) :
    enforceRetention cast now defaultDays (run StateStore.policyStep s calls) stateNow t =
        (.ok (t.rows.countP (Outdated now (policyOf calls) defaultDays)),
          t.delete (Outdated now (policyOf calls) defaultDays)) ↔
      (∀ source days, policyOf calls source = some days → Reaches (now (some source)) days) ∧
        Reaches (now none) defaultDays := by
  obtain ⟨policies,left⟩ := policies_run unset calls
  constructor
  · intro exact_
    have reaches : ∀ source days, policyOf calls source = some days → Reaches (now (some source)) days := by
      intro source days set
      by_contra far
      exact enforceRetention_policy_far left set far stateNow t _ _ exact_
    refine ⟨reaches,?_⟩
    by_contra far
    have some_days : defaultDays ≠ 0 := (Classical.not_imp.mp far).1
    have each : ∀ policy ∈ policies, Reaches (now (some policy.1)) policy.2 := by
      intro policy inside
      have set := (mem_policies left.distinct policy.1 policy.2).mp inside
      exact reaches policy.1 policy.2 (by rwa [← left.each])
    rw [enforceRetention_left left,retentionPasses,policyPasses_cut each reads] at exact_
    dsimp only at exact_
    rw [defaultPass_eq,if_neg some_days,deleteBefore_panics far] at exact_
    cases exact_
  · rintro ⟨reaches,reachesDefault⟩
    have each : ∀ policy ∈ policies, Reaches (now (some policy.1)) policy.2 := by
      intro policy inside
      have set := (mem_policies left.distinct policy.1 policy.2).mp inside
      exact reaches policy.1 policy.2 (by rwa [← left.each])
    rw [enforceRetention_left left,retentionPasses,policyPasses_cut each reads]
    exact passes_cut left.distinct left.each reachesDefault reads t

end

def signedUp (id : Uuid) (source : String) (ts : Int) : EventRow :=
  ⟨id,source,"signup",.obj [],ts,none,none,none,none,"default",none,false⟩

def retentionClock : Int := 1780000000 * oneSecond

theorem retention_exact_two :
    enforceRetention (fun cutoff => some (micros cutoff)) (fun _ => retentionClock) 365
      (run StateStore.policyStep (.opened Table.empty) [(5,.set "app" 30),(6,.set "audit" 0)]) 7
      ⟨[signedUp 1 "app" 0,signedUp 2 "audit" 0],by decide⟩ =
    (.ok ((⟨[signedUp 1 "app" 0,signedUp 2 "audit" 0],by decide⟩ : EpisodicTable).rows.countP (Outdated
        (fun _ => retentionClock) (policyOf [(5,.set "app" 30),(6,.set "audit" 0)]) 365)),
      (⟨[signedUp 1 "app" 0,signedUp 2 "audit" 0],by decide⟩ : EpisodicTable).delete (Outdated
        (fun _ => retentionClock) (policyOf [(5,.set "app" 30),(6,.set "audit" 0)]) 365)) := by
  refine (retention_exact_iff (Or.inr ⟨rfl,rfl,rfl⟩) _ 7 _ ?_).mpr ⟨?_,by decide⟩
  · intro _ _ _ _
    rfl
  · intro source days set
    rw [policyOf] at set
    simp only [List.map_cons,List.map_nil,List.foldl_cons,List.foldl_nil,PolicyCall.about] at set
    split at set
    next =>
      cases set
      decide
    next =>
      split at set
      next =>
        cases set
        decide
      next => cases set

/-- A policy of `u32::MAX` days panics, and nothing is deleted for it. -/
theorem retention_panics : ¬∀ (calls : List (Nat × PolicyCall)) (defaultDays : UInt32) (t : EpisodicTable)
    (now : Option String → Int),
    enforceRetention (fun cutoff => some (micros cutoff)) now defaultDays
        (run StateStore.policyStep (.opened Table.empty) calls) 0 t =
      (.ok (t.rows.countP (Outdated now (policyOf calls) defaultDays)),
        t.delete (Outdated now (policyOf calls) defaultDays)) := by
  intro claim
  have call := claim [(0,.set "app" 4294967295)] 0 Table.empty (fun _ => retentionClock)
  obtain ⟨policies,left⟩ := policies_run (s := .opened Table.empty) (Or.inr ⟨rfl,rfl,rfl⟩) [(0,.set "app" 4294967295)]
  have set : policyOf [(0,.set "app" 4294967295)] "app" = some 4294967295 := rfl
  exact enforceRetention_policy_far left set (by decide) 0 Table.empty _ _ call

end Ecphoria
