import Ecphoria.Library.Stamped
import Ecphoria.Runtime.Ledger
import Ecphoria.Engine.StateTenants
import Mathlib.Data.List.Dedup

/-! Triggers: events that start runs. The triggers of a tenant are entries of the state store, under an agent that is the tenant's
alone, and what they come to is told from what was registered, whoever else registers or writes. -/
namespace Ecphoria
open Library

def StateTable.listKeys (t : StateTable) (agentId : String) : List String :=
  (((t.rows.filter (fun row => row.agentId = agentId)).map StateRow.key).insertionSort (· ≤ ·)).take 10000

def matchesEvent (v : Json) (source eventType : String) : Bool :=
  let wantSrc := ((v.get "source").bind Json.asStr).getD "*"
  let wantEvt := ((v.get "event_type").bind Json.asStr).getD "*"
  (wantSrc = "*" || wantSrc = source) && (wantEvt = "*" || wantEvt = eventType)

/-- What the creation of a run draws from outside: its id, its time, and an error where it fails. -/
structure Creation where
  id : Uuid
  now : Int
  fault : Option String

section
/- `clock` is what the state store reads as the time of the call. -/
variable (env : Env)

def triggerList (e : Engine) (tenant clock : String) : List Json :=
  (e.state.listKeys (triggerAgent tenant)).filterMap fun name =>
    (e.state.get env (triggerAgent tenant) name clock).map (fun entry => entry.value.insert "name" (.str name))

/-- The loop of `fire_triggers`; the first run that cannot be created ends it. -/
def fireFrom (tenant source eventType : String) (input : Json) (clock : String) (creations : Nat → Creation) :
    List String → List Uuid → Engine → Except String (List Uuid) × Engine
  | [],fired,e => (.ok fired,e)
  | name :: names,fired,e =>
    match e.state.get env (triggerAgent tenant) name clock with
    | none => fireFrom tenant source eventType input clock creations names fired e
    | some entry =>
      if matchesEvent entry.value source eventType then
        let agent := ((entry.value.get "agent_id").bind Json.asStr).getD "trigger"
        let c := creations fired.length
        match c.fault with
        | some err => (.error err,e)
        | none =>
          fireFrom tenant source eventType input clock creations names (fired ++ [c.id])
            (runCreate e (newRun c.id tenant (some agent) none input c.now))
      else fireFrom tenant source eventType input clock creations names fired e

def fireTriggers (e : Engine) (tenant source eventType : String) (input : Json) (clock : String) (creations : Nat → Creation) :
    Except String (List Uuid) × Engine :=
  fireFrom env tenant source eventType input clock creations (e.state.listKeys (triggerAgent tenant)) [] e

end

inductive TriggerCall where
  | register (tenant name : String) (trigger : Trigger) (now : Int)
  | stateSet (tenant : Option String) (agentId key : String) (value : Json) (now : Int)
  | fire (tenant source eventType : String) (input : Json) (clock : String) (creations : Nat → Creation)

namespace TriggerCall

def step (env : Env) (e : Engine) : TriggerCall → Engine
  | register tenant name trigger now => triggerRegister e tenant name trigger now
  | stateSet (some tenant) agentId key value now => (stateSetForTenant e tenant agentId key value now).2
  | stateSet none agentId key value now => { e with state := (e.state.set agentId key value now).2 }
  | fire tenant source eventType input clock creations => (fireTriggers env e tenant source eventType input clock creations).2

/-- A registration, under the tenant it is kept for. -/
def registered : TriggerCall → List ((String × String) × Trigger × Int)
  | register tenant name trigger now => [((tenantOrDefault tenant,name),trigger,now)]
  | _ => []

/-- A call that writes agent state leaves the agents of triggers alone: a tenant is not named like one, and a caller without a
tenant names none. -/
def Plain : TriggerCall → Prop
  | stateSet tenant agentId _ _ _ => ¬"__trigger:".toList <+: (tenant.getD agentId).toList
  | _ => True

instance : ∀ call : TriggerCall,Decidable call.Plain
  | register .. => isTrue trivial
  | stateSet tenant agentId .. => inferInstanceAs (Decidable (¬"__trigger:".toList <+: (tenant.getD agentId).toList))
  | fire .. => isTrue trivial

end TriggerCall

/-- A log of registrations. -/
abbrev TriggerLog := List ((String × String) × Trigger × Int)

/-- The triggers of a tenant, by name, as they were registered last. -/
def TriggerLog.triggers (log : TriggerLog) (tenant : String) : List (String × Trigger) :=
  ((((log.filter (fun r => r.1.1 = tenantOrDefault tenant)).map (fun r => r.1.2)).dedup.insertionSort (· ≤ ·)).take 10000).filterMap
    fun name => (latest log (tenantOrDefault tenant,name)).map (fun entry => (name,entry.1))

def Trigger.meets (t : Trigger) (source eventType : String) : Bool :=
  (t.source = "*" || t.source = source) && (t.eventType = "*" || t.eventType = eventType)

/-- Runs that are started one after the other, until one fails. -/
def startRuns (tenant : String) (input : Json) (creations : Nat → Creation) :
    List String → List Uuid → Engine → Except String (List Uuid) × Engine
  | [],fired,e => (.ok fired,e)
  | agent :: agents,fired,e =>
    let c := creations fired.length
    match c.fault with
    | some err => (.error err,e)
    | none =>
      startRuns tenant input creations agents (fired ++ [c.id]) (runCreate e (newRun c.id tenant (some agent) none input c.now))

theorem triggerAgent_inj {a b : String} : triggerAgent a = triggerAgent b ↔ tenantOrDefault a = tenantOrDefault b := by
  unfold triggerAgent
  rw [← String.toList_inj,String.toList_append,String.toList_append,List.append_cancel_left_eq,String.toList_inj]

theorem plain_agent {agentId : String} (plain : ¬"__trigger:".toList <+: agentId.toList) (tenant : String) :
    agentId ≠ triggerAgent tenant := by
  rintro rfl
  refine plain ?_
  rw [triggerAgent,String.toList_append]
  exact List.prefix_append _ _

theorem scopedAgent_plain {tenant : String} (plain : ¬"__trigger:".toList <+: tenant.toList) (agentId : String) :
    ¬"__trigger:".toList <+: (scopedAgent tenant agentId).toList := by
  intro starts
  rw [scopedAgent,String.append_assoc,String.toList_append] at starts
  rcases List.prefix_or_prefix_of_prefix starts (List.prefix_append _ _) with within | ⟨rest,whole⟩
  · exact plain within
  · rw [← whole,List.prefix_append_right_inj,String.toList_append] at starts
    cases rest with
    | nil => exact plain (by rw [← whole,List.append_nil])
    | cons c rest =>
      have first : c = '\x1f' := (List.cons_prefix_cons.mp starts).1
      have inside : '\x1f' ∈ "__trigger:".toList := by rw [← whole,← first]; simp
      exact absurd inside (by decide)

theorem matchesEvent_value (t : Trigger) (source eventType : String) : matchesEvent t.value source eventType = t.meets source eventType := rfl

theorem agent_value (t : Trigger) : ((t.value.get "agent_id").bind Json.asStr).getD "trigger" = t.agentId := rfl

/-- The entries of the triggers are what was registered last. -/
def HoldsLog (e : Engine) (log : TriggerLog) : Prop :=
  ∀ tenant name, (e.state.find (triggerAgent tenant,name)).map (fun row => (row.value,row.expiresAt)) =
    (latest log (tenantOrDefault tenant,name)).map (fun entry => (entry.1.value,none))

section
variable {env : Env} {e : Engine} {log : TriggerLog}

theorem HoldsLog.register (holds : HoldsLog e log) (tenant name : String) (trigger : Trigger) (now : Int) :
    HoldsLog (triggerRegister e tenant name trigger now) (log ++ [((tenantOrDefault tenant,name),trigger,now)]) := by
  intro other key
  have before := holds other key
  rw [latest_snoc,triggerRegister,StateTable.find_set]
  by_cases same : (triggerAgent tenant,name) = (triggerAgent other,key)
  · obtain ⟨agents,rfl⟩ := Prod.mk.inj same
    have tenants : tenantOrDefault tenant = tenantOrDefault other := triggerAgent_inj.mp agents
    rw [if_pos same,if_pos (by rw [tenants]),Option.map_some,Option.map_some,StateTable.nextRow,agents]
    cases found : e.state.find (triggerAgent other,name) with
    | none => rfl
    | some row =>
      rw [found] at before
      obtain ⟨entry,_,is⟩ := Option.map_eq_some_iff.mp before.symm
      exact congrArg (fun expires => some (trigger.value,expires)) (Prod.mk.inj is).2.symm
  · rw [if_neg same,if_neg,before]
    intro one
    obtain ⟨tenants,rfl⟩ := Prod.mk.inj one
    exact same (by rw [triggerAgent_inj.mpr tenants])

theorem HoldsLog.stateSet (holds : HoldsLog e log) {agentId : String} (plain : ¬"__trigger:".toList <+: agentId.toList) (key : String)
    (value : Json) (now : Int) : HoldsLog { e with state := (e.state.set agentId key value now).2 } log := by
  intro tenant name
  rw [StateTable.find_set,if_neg (fun same => plain_agent plain tenant (Prod.mk.inj same).1)]
  exact holds tenant name

theorem HoldsLog.get (holds : HoldsLog e log) (tenant name clock : String) :
    (e.state.get env (triggerAgent tenant) name clock).map StateEntry.value =
      (latest log (tenantOrDefault tenant,name)).map (fun entry => entry.1.value) := by
  have kept := holds tenant name
  unfold StateTable.get
  cases found : e.state.find (triggerAgent tenant,name) with
  | none =>
    rw [found] at kept
    rw [Option.map_eq_none_iff.mp kept.symm]
    rfl
  | some row =>
    rw [found] at kept
    obtain ⟨entry,last,is⟩ := Option.map_eq_some_iff.mp kept.symm
    obtain ⟨value,never⟩ := Prod.mk.inj is
    rw [last,Option.filter_some,← never]
    exact congrArg some value.symm

theorem StateTable.keys_nodup (t : StateTable) (agentId : String) :
    ((t.rows.filter (fun row => row.agentId = agentId)).map StateRow.key).Nodup := by
  have named : (t.rows.filter (fun row => row.agentId = agentId)).map StateRow.primary =
      ((t.rows.filter (fun row => row.agentId = agentId)).map StateRow.key).map (Prod.mk agentId) := by
    rw [List.map_map]
    refine List.map_congr_left fun row inside => ?_
    have own : row.agentId = agentId := by simpa using (List.mem_filter.mp inside).2
    rw [StateRow.primary,own]
    rfl
  have unique := t.unique.sublist (List.filter_sublist.map StateRow.primary : ((t.rows.filter (fun row => row.agentId = agentId)).map
    StateRow.primary).Sublist (t.rows.map StateRow.primary))
  rw [named] at unique
  exact unique.of_map

theorem StateTable.mem_keys_of (t : StateTable) (agentId name : String) :
    name ∈ (t.rows.filter (fun row => row.agentId = agentId)).map StateRow.key ↔ (t.find (agentId,name)).isSome = true := by
  rw [Option.isSome_iff_exists,List.mem_map]
  refine exists_congr fun row => ?_
  rw [Table.find_eq_some,List.mem_filter,StateRow.primary,Prod.mk.injEq,decide_eq_true_iff,and_assoc]

/-- The keys that are listed are the names that were registered. -/
theorem HoldsLog.listKeys (holds : HoldsLog e log) (tenant : String) : e.state.listKeys (triggerAgent tenant) =
    (((log.filter (fun r => r.1.1 = tenantOrDefault tenant)).map (fun r => r.1.2)).dedup.insertionSort (· ≤ ·)).take 10000 := by
  unfold StateTable.listKeys
  refine congrArg (List.take 10000) (List.Perm.eq_of_pairwise' (List.pairwise_insertionSort _ _) (List.pairwise_insertionSort _ _) ?_)
  refine ((List.perm_insertionSort _ _).trans ?_).trans (List.perm_insertionSort _ _).symm
  refine (List.perm_ext_iff_of_nodup (e.state.keys_nodup _) (List.nodup_dedup _)).mpr fun name => ?_
  have kept := congrArg Option.isSome (holds tenant name)
  rw [Option.isSome_map,Option.isSome_map] at kept
  rw [StateTable.mem_keys_of,kept,latest_isSome,List.mem_dedup,List.mem_map]
  constructor
  · rintro ⟨entry,inside⟩
    exact ⟨_,List.mem_filter.mpr ⟨inside,decide_eq_true rfl⟩,rfl⟩
  · rintro ⟨⟨⟨owner,key⟩,entry⟩,inside,rfl⟩
    obtain ⟨listed,own⟩ := List.mem_filter.mp inside
    have same : owner = tenantOrDefault tenant := of_decide_eq_true own
    exact ⟨entry,same ▸ listed⟩

/-- The loop starts the runs of the triggers that the event meets. -/
theorem HoldsLog.fireFrom (holds : HoldsLog e log) (tenant source eventType : String) (input : Json) (clock : String)
    (creations : Nat → Creation) (names : List String) (fired : List Uuid) :
    Ecphoria.fireFrom env tenant source eventType input clock creations names fired e =
      startRuns tenant input creations (((names.filterMap (fun name => (latest log (tenantOrDefault tenant,name)).map
        (fun entry => (name,entry.1)))).filter (fun t => t.2.meets source eventType)).map (fun t => t.2.agentId)) fired e := by
  induction names generalizing fired e with
  | nil => rfl
  | cons name names ih =>
    have got := @HoldsLog.get env e log holds tenant name clock
    rw [Ecphoria.fireFrom]
    cases found : e.state.get env (triggerAgent tenant) name clock with
    | none =>
      rw [found] at got
      rw [List.filterMap_cons_none (by rw [Option.map_eq_none_iff.mp got.symm]; rfl)]
      exact ih holds fired
    | some entry =>
      rw [found] at got
      obtain ⟨⟨trigger,now⟩,last,is⟩ := Option.map_eq_some_iff.mp got.symm
      rw [List.filterMap_cons_some (by rw [last]; rfl)]
      simp only [← is,matchesEvent_value,agent_value]
      cases meets : trigger.meets source eventType with
      | false =>
        rw [List.filter_cons_of_neg (by simp [meets])]
        exact ih holds fired
      | true =>
        rw [List.filter_cons_of_pos (by exact meets),List.map_cons,startRuns]
        simp only [if_true]
        cases (creations fired.length).fault with
        | some err => rfl
        | none =>
          have next : HoldsLog (runCreate e (newRun (creations fired.length).id tenant (some trigger.agentId) none input
            (creations fired.length).now)) log := holds
          exact ih next _

theorem HoldsLog.triggerList (holds : HoldsLog e log) (tenant clock : String) : Ecphoria.triggerList env e tenant clock =
    (log.triggers tenant).map (fun t => t.2.value.insert "name" (.str t.1)) := by
  rw [Ecphoria.triggerList,holds.listKeys,TriggerLog.triggers,List.map_filterMap]
  refine congrArg (fun f => List.filterMap f _) (funext fun name => ?_)
  have got := congrArg (Option.map (fun value => Json.insert value "name" (.str name))) (@HoldsLog.get env e log holds tenant name clock)
  rw [Option.map_map,Option.map_map] at got
  rw [Option.map_map]
  exact got

theorem HoldsLog.fireTriggers (holds : HoldsLog e log) (tenant source eventType : String) (input : Json) (clock : String)
    (creations : Nat → Creation) : Ecphoria.fireTriggers env e tenant source eventType input clock creations =
      startRuns tenant input creations (((log.triggers tenant).filter (fun t => t.2.meets source eventType)).map
        (fun t => t.2.agentId)) [] e := by
  rw [Ecphoria.fireTriggers,holds.listKeys]
  exact holds.fireFrom tenant source eventType input clock creations _ []

end

theorem startRuns_state (tenant : String) (input : Json) (creations : Nat → Creation) (agents : List String) (fired : List Uuid)
    (e : Engine) : (startRuns tenant input creations agents fired e).2.state = e.state := by
  induction agents generalizing fired e with
  | nil => rfl
  | cons agent agents ih =>
    rw [startRuns]
    cases (creations fired.length).fault with
    | some err => rfl
    | none => exact ih _ _

/-- The runs of some agents, made from the n-th creation on. -/
def runsOf (tenant : String) (input : Json) (creations : Nat → Creation) (agents : List (String × Nat)) : List Run :=
  agents.map fun a => newRun (creations a.2).id tenant (some a.1) none input (creations a.2).now

theorem runCreate_rows {e : Engine} {run : Run} (absent : run.id ∉ e.runs.keys) : (runCreate e run).runs.rows = e.runs.rows ++ [run] := by
  rw [runCreate,RunTable.create,Table.insertIgnore,if_neg absent,Table.rows_upsert_fresh _ _ absent]

/-- With ids that are new, the runs up to the first failure are added, and what is answered tells all of them or the failure. -/
theorem startRuns_runs (tenant : String) (input : Json) (creations : Nat → Creation) (agents : List String) (fired : List Uuid)
    (e : Engine) (fresh : e.runs.keys ++ (runsOf tenant input creations (agents.zipIdx fired.length)).map Run.id |>.Nodup) :
    (startRuns tenant input creations agents fired e).2.runs.rows = e.runs.rows ++ runsOf tenant input creations
        ((agents.zipIdx fired.length).takeWhile (fun a => (creations a.2).fault.isNone)) ∧
      (startRuns tenant input creations agents fired e).1 =
        match (agents.zipIdx fired.length).findSome? (fun a => (creations a.2).fault) with
        | some err => .error err
        | none => .ok (fired ++ (runsOf tenant input creations (agents.zipIdx fired.length)).map Run.id) := by
  induction agents generalizing fired e with
  | nil => simp [startRuns,runsOf]
  | cons agent agents ih =>
    rw [startRuns,List.zipIdx_cons]
    cases fault : (creations fired.length).fault with
    | some err => simp [fault,runsOf]
    | none =>
      have ids : (e.runs.keys ++ [(creations fired.length).id]) ++
          (runsOf tenant input creations (agents.zipIdx (fired.length + 1))).map Run.id |>.Nodup := by
        rwa [List.zipIdx_cons,runsOf,List.map_cons,List.map_cons,← List.singleton_append,← List.append_assoc] at fresh
      have absent : (creations fired.length).id ∉ e.runs.keys := fun known =>
        List.disjoint_of_nodup_append (List.Nodup.of_append_left ids) known (List.mem_singleton_self _)
      have rows : (runCreate e (newRun (creations fired.length).id tenant (some agent) none input (creations fired.length).now)).runs.rows =
          e.runs.rows ++ [newRun (creations fired.length).id tenant (some agent) none input (creations fired.length).now] :=
        runCreate_rows absent
      have length : (fired ++ [(creations fired.length).id]).length = fired.length + 1 := List.length_append
      obtain ⟨added,answered⟩ := ih (fired ++ [(creations fired.length).id])
        (runCreate e (newRun (creations fired.length).id tenant (some agent) none input (creations fired.length).now))
        (by rw [length,Table.keys,rows,List.map_append]; exact ids)
      rw [length] at added answered
      refine ⟨?_,?_⟩
      · rw [List.takeWhile_cons_of_pos (by rw [fault]; rfl),runsOf,List.map_cons]
        refine added.trans ?_
        rw [rows,List.append_assoc]
        rfl
      · rw [List.findSome?_cons_of_isNone (by rw [fault]; rfl),runsOf,List.map_cons,List.map_cons]
        refine answered.trans ?_
        rw [List.append_assoc]
        rfl

/-- Every call keeps the entries of the triggers what was registered. -/
theorem HoldsLog.step {env : Env} {e : Engine} {log : TriggerLog} (holds : HoldsLog e log) (call : TriggerCall) (plain : call.Plain) :
    HoldsLog (call.step env e) (log ++ call.registered) := by
  cases call with
  | register tenant name trigger now => exact holds.register tenant name trigger now
  | stateSet tenant agentId key value now =>
    change HoldsLog _ (log ++ [])
    rw [List.append_nil]
    cases tenant with
    | none => exact holds.stateSet plain key value now
    | some tenant => exact holds.stateSet (scopedAgent_plain plain agentId) key value now
  | fire tenant source eventType input clock creations =>
    change HoldsLog _ (log ++ [])
    rw [List.append_nil,TriggerCall.step,holds.fireTriggers]
    intro other name
    rw [startRuns_state]
    exact holds other name

def registrations (calls : List TriggerCall) : TriggerLog := calls.flatMap TriggerCall.registered

theorem run_holdsLog (env : Env) {start : Engine} (bare : ∀ tenant name, start.state.find (triggerAgent tenant,name) = none)
    (calls : List TriggerCall) (plain : ∀ call ∈ calls, call.Plain) :
    HoldsLog (run (TriggerCall.step env) start calls) (registrations calls) := by
  induction calls using List.reverseRecOn with
  | nil =>
    intro tenant name
    rw [run_nil,bare]
    rfl
  | append_singleton calls call ih =>
    have before := ih fun other inside => plain other (List.mem_append_left _ inside)
    rw [run_append,run_cons,run_nil,registrations,List.flatMap_append,List.flatMap_singleton]
    exact before.step call (plain call (List.mem_append_right _ (List.mem_singleton_self _)))

/-- The triggers of a tenant that an event meets, each with the number of its creation. -/
def TriggerLog.met (log : TriggerLog) (tenant source eventType : String) : List (String × Nat) :=
  (((log.triggers tenant).filter (fun t => t.2.meets source eventType)).map (fun t => t.2.agentId)).zipIdx

/-- Whatever calls came before, a tenant is told the triggers registered for it, and an event starts a run for each of them that it
meets, in the order of their names, up to the first that fails. -/
theorem trigger_law (env : Env) (start : Engine) (bare : ∀ tenant name, start.state.find (triggerAgent tenant,name) = none)
    (calls : List TriggerCall) (plain : ∀ call ∈ calls, call.Plain) (tenant source eventType : String) (input : Json) (clock : String)
    (creations : Nat → Creation)
    (fresh : ((run (TriggerCall.step env) start calls).runs.keys ++ (runsOf tenant input creations
      ((registrations calls).met tenant source eventType)).map Run.id).Nodup) :
    triggerList env (run (TriggerCall.step env) start calls) tenant clock =
        ((registrations calls).triggers tenant).map (fun t => t.2.value.insert "name" (.str t.1)) ∧
      (fireTriggers env (run (TriggerCall.step env) start calls) tenant source eventType input clock creations).2.runs.rows =
        (run (TriggerCall.step env) start calls).runs.rows ++ runsOf tenant input creations
          (((registrations calls).met tenant source eventType).takeWhile (fun a => (creations a.2).fault.isNone)) ∧
      (fireTriggers env (run (TriggerCall.step env) start calls) tenant source eventType input clock creations).1 =
        match ((registrations calls).met tenant source eventType).findSome? (fun a => (creations a.2).fault) with
        | some err => .error err
        | none => .ok ((runsOf tenant input creations ((registrations calls).met tenant source eventType)).map Run.id) := by
  have holds := run_holdsLog env bare calls plain
  refine ⟨holds.triggerList tenant clock,?_⟩
  rw [holds.fireTriggers]
  exact startRuns_runs tenant input creations _ [] _ fresh

section
private def onSale (agentId : String) : Trigger := ⟨"shop","*",agentId⟩

private def creation (id : Uuid) (_ : Nat) : Creation := ⟨id,4,none⟩

/-- Two tenants register under one name, one of them twice, and an event of the other starts a run. -/
private def registering : List TriggerCall :=
  [.register "acme" "brew" (onSale "old") 0,.register "globex" "brew" (onSale "cup") 1,.register "acme" "brew" (onSale "pot") 2,
    .stateSet (some "globex") "__trigger:acme" "brew" .null 3,.fire "globex" "shop" "sale" .null "" (creation 0)]

theorem trigger_of_two_tenants :
    ((fireTriggers Env.ascii (run (TriggerCall.step Env.ascii) (.empty .default 1) registering) "acme" "shop" "sale" .null ""
      (creation 1)).2.runs.rows.map (fun run => (run.id,run.tenantId,run.agentId))) =
      [(0,"globex",some "cup"),(1,"acme",some "pot")] := by
  have started := (trigger_law Env.ascii (.empty .default 1) (fun _ _ => rfl) registering (by decide) "acme" "shop" "sale" .null ""
    (creation 1) (by decide)).2.1
  rw [started]
  rfl
end

end Ecphoria
