import Ecphoria.Engine.Consolidate
import Ecphoria.Engine.Frame
import Ecphoria.Library.Transition
import Ecphoria.Memory.Facts

/-! Governed tenants. Every write path but the correction of a memory checks what it is
given, and the rows it assembles from other rows pass as well; a correction that
replaces the metadata is not checked. -/
namespace Ecphoria
open Library

/-- The tenant asks for valid facts and for their provenance. -/
def CoreConfig.Strict (config : CoreConfig) (tenant : String) : Prop :=
  (config.governance.forTenant tenant).factValidation = .strict ∧
    (config.governance.forTenant tenant).requireProvenance = true

instance (config : CoreConfig) (tenant : String) : Decidable (config.Strict tenant) :=
  inferInstanceAs (Decidable (_ ∧ _))

def Vouched (schemas : FactSchemas) (subject : Option String) (metadata : Json) (sourceEventIds : List Uuid) : Prop :=
  validateFacts schemas subject metadata = [] ∧ hasProvenance metadata sourceEventIds = true

instance (schemas : FactSchemas) (subject : Option String) (metadata : Json) (sourceEventIds : List Uuid) :
    Decidable (Vouched schemas subject metadata sourceEventIds) :=
  inferInstanceAs (Decidable (_ ∧ _))

def Memory.Governed (schemas : FactSchemas) (config : CoreConfig) (m : Memory) : Prop :=
  m.state = .active → config.Strict m.scope.tenantId → Vouched schemas m.subject m.metadata m.sourceEventIds

def MemoryTable.Governed (schemas : FactSchemas) (config : CoreConfig) (t : MemoryTable) : Prop :=
  ∀ row ∈ t.rows, row.memory.Governed schemas config

/-- Every active row of every strict tenant is valid and attributed. -/
def Engine.Governed (schemas : FactSchemas) (e : Engine) : Prop := e.memories.Governed schemas e.config

namespace MemoryTable
variable {schemas : FactSchemas} {config : CoreConfig} {t : MemoryTable}

theorem Governed.upsertRows {rows : List MemoryRow} (governed : t.Governed schemas config)
    (each : ∀ row ∈ rows, row.memory.Governed schemas config) : (t.upsertRows rows).Governed schemas config := by
  intro row inside
  rcases mem_upsertRows inside with ⟨given,member,rfl⟩ | ⟨old,_⟩
  · exact each given member
  · exact governed row old

theorem Governed.upsertRaw {row : MemoryRow} (governed : t.Governed schemas config)
    (given : row.memory.Governed schemas config) : (t.upsertRaw row).Governed schemas config := by
  have each : ∀ r ∈ [row], r.memory.Governed schemas config := by simpa using given
  exact governed.upsertRows each

theorem Governed.delete (governed : t.Governed schemas config) (p : MemoryRow → Bool) :
    Governed schemas config (Table.delete t p) :=
  fun row inside => governed row ((Table.mem_delete _ _ _).mp inside).1

theorem Governed.expire (governed : t.Governed schemas config) (id : Uuid) (now : Int) :
    (t.expire id now).Governed schemas config := by
  intro row inside
  obtain ⟨old,member,rfl⟩ := (Table.mem_update _ _ _ _ _).mp inside
  split
  next chosen =>
    intro active
    cases active
  next => exact governed old member

theorem Governed.expireAll (governed : t.Governed schemas config) (ids : List Uuid) (stamp : Uuid → Int) :
    Governed schemas config (ids.foldl (fun t id => t.expire id (stamp id)) t) := by
  induction ids generalizing t with
  | nil => exact governed
  | cons id ids ih => exact ih (governed.expire id (stamp id))

end MemoryTable

theorem Memory.Governed.of_idle {schemas : FactSchemas} {config : CoreConfig} {m : Memory} (idle : m.state ≠ .active) :
    m.Governed schemas config :=
  fun active => absurd active idle

theorem hasProvenance_of_subset {metadata : Json} {given more : List Uuid} (subset : given ⊆ more)
    (attributed : hasProvenance metadata given = true) : hasProvenance metadata more = true := by
  cases more with
  | nil => rwa [List.subset_nil.mp subset] at attributed
  | cons id more => rfl

theorem subset_mergeEvents (events more : List Uuid) : events ⊆ mergeEvents events more ∧ more ⊆ mergeEvents events more := by
  induction more generalizing events with
  | nil => exact ⟨fun _ inside => inside,List.nil_subset _⟩
  | cons id more ih =>
    by_cases known : id ∈ events
    · have rest := ih events
      simp only [mergeEvents,List.foldl_cons,if_pos known] at rest ⊢
      exact ⟨rest.1,List.cons_subset.mpr ⟨rest.1 known,rest.2⟩⟩
    · have rest := ih (events ++ [id])
      simp only [mergeEvents,List.foldl_cons,if_neg known] at rest ⊢
      exact ⟨fun x inside => rest.1 (List.mem_append_left _ inside),
        List.cons_subset.mpr ⟨rest.1 (by simp),rest.2⟩⟩

section
variable (env : Env) (schemas : FactSchemas)

theorem checkGovernance_vouched {config : CoreConfig} {scope : MemoryScope} {subject : Option String} {metadata : Json}
    {sourceEventIds : List Uuid}
    (accepted : checkGovernance (env.withFacts schemas) config scope subject metadata sourceEventIds = .ok ())
    (strict : config.Strict scope.tenantId) : Vouched schemas subject metadata sourceEventIds := by
  obtain ⟨validation,provenance⟩ := strict
  simp only [checkGovernance,EffectiveGovernance.isPermissive,validation,provenance] at accepted
  by_cases attributed : hasProvenance metadata sourceEventIds = true
  · refine ⟨?_,attributed⟩
    by_contra invalid
    have some : (validateFacts schemas subject metadata).isEmpty = false := by simpa using invalid
    simp [attributed,Env.withFacts,some] at accepted
  · simp [attributed] at accepted

/-- The rows of a plan: the input has been checked, a merged row has no more to pass than the input
it takes its metadata from, and a confirmed row has passed before. -/
theorem PlanCase.governed {e : Engine} {d : Draw} {input : MemoryInput} {embedding : Option (List Rat)}
    {planned : Planned} (governed : e.Governed schemas) (accepted : Accepts (env.withFacts schemas) e.config input)
    (plan : PlanCase (env.withFacts schemas) e d input embedding planned) :
    ∀ row ∈ planned.rows, row.memory.Governed schemas e.config := by
  have vouched (strict : e.config.Strict (canonicalInput (env.withFacts schemas) input).scope.tenantId) :=
    checkGovernance_vouched env schemas accepted strict
  intro row inside
  cases plan with
  | confirmed subject existing others keyed read same =>
    cases List.mem_singleton.mp inside
    have listed : existing ∈ existing :: others := List.mem_cons_self
    obtain ⟨old,member,rfl,_⟩ := MemoryTable.mem_findActiveBySubject.mp (read ▸ listed)
    exact governed old member
  | conflict subject existing others keyed read review =>
    cases List.mem_singleton.mp inside
    intro active strict
    have given := vouched strict
    rwa [keyed] at given
  | superseded subject existing others keyed read differs =>
    rcases List.mem_append.mp inside with inside | inside
    · obtain ⟨m,listed,rfl⟩ := List.mem_map.mp inside
      exact .of_idle (by simp [closeRow])
    · cases List.mem_singleton.mp inside
      intro active strict
      have given := vouched strict
      rwa [keyed] at given
  | merged top unkeyed hit =>
    rcases List.mem_cons.mp inside with rfl | inside
    · exact .of_idle (by simp [closeRow])
    · cases List.mem_singleton.mp inside
      intro active strict
      obtain ⟨valid,attributed⟩ := vouched strict
      rw [unkeyed] at valid
      exact ⟨validateFacts_of_none valid top.subject,
        hasProvenance_of_subset (subset_mergeEvents top.sourceEventIds _).2 attributed⟩
  | inserted absent missed =>
    cases List.mem_singleton.mp inside
    exact fun _ strict => vouched strict

end

/-- The calls that write memories, each with what it reads from outside. -/
inductive GovernedCall where
  | add (d : Draw) (input : MemoryInput)
  | addBatch (inputs : List (MemoryInput × Draw))
  | propose (d : Draw) (input : MemoryInput)
  | accept (id : Uuid) (tenant : String) (d : Draw) (now : Int)
  | update (id : Uuid) (patch : MemoryPatch) (tenant : Option String) (d : Draw)
  | remember (rawText : String) (scope : MemoryScope) (reply : Option String) (draws : Nat → Draw)
  | document (doc : DocumentIngest) (scope : MemoryScope) (opts : ChunkOptions) (draws : Nat → Draw) (now : Int)
  | consolidate (scope : MemoryScope) (keep maxRows : Nat) (reply : Option String) (d : Draw)
  | consolidateSimilar (scope : MemoryScope) (threshold : Rat) (maxRows scanCap : Nat) (near : Neighbours)
      (draws : Nat → Draw)

section
variable (env : Env) (schemas : FactSchemas)

def GovernedCall.step (e : Engine) : GovernedCall → Engine
  | .add d input => (memoryAdd (env.withFacts schemas) e d input).2
  | .addBatch inputs => (memoryAddBatch (env.withFacts schemas) e inputs).2
  | .propose d input => (memoryPropose (env.withFacts schemas) e d input).2
  | .accept id tenant d now => (memoryAccept (env.withFacts schemas) e id tenant d now).2
  | .update id patch tenant d => (memoryUpdate (env.withFacts schemas) e id patch tenant d).2
  | .remember rawText scope reply draws => (memoryRemember (env.withFacts schemas) e rawText scope reply draws).2
  | .document doc scope opts draws now => (documentIngest (env.withFacts schemas) e doc scope opts draws now).2
  | .consolidate scope keep maxRows reply d =>
    (memoryConsolidate (env.withFacts schemas) e scope keep maxRows reply d).2
  | .consolidateSimilar scope threshold maxRows scanCap near draws =>
    (memoryConsolidateSimilar (env.withFacts schemas) e scope threshold maxRows scanCap near draws).2

/-- A correction that replaces the metadata of an active memory of a strict tenant gives it metadata that
pass for its subject and its events. -/
def GovernedCall.Corrects (e : Engine) : GovernedCall → Prop
  | .update id patch tenant _ => ∀ m, lookup e id tenant = some m → m.state = .active →
      e.config.Strict m.scope.tenantId → ∀ metadata, patch.metadata = some metadata →
        Vouched schemas m.subject metadata m.sourceEventIds
  | _ => True

variable {schemas}

/-- The call leaves the configuration, and the rows governed by it. -/
private def Keeps (schemas : FactSchemas) (e after : Engine) : Prop :=
  after.config = e.config ∧ after.memories.Governed schemas e.config

private theorem Keeps.refl {e : Engine} (governed : e.Governed schemas) : Keeps schemas e e := ⟨rfl,governed⟩

private theorem Keeps.trans {e between after : Engine} (first : Keeps schemas e between)
    (second : Keeps schemas between after) : Keeps schemas e after :=
  ⟨second.1.trans first.1,first.1 ▸ second.2⟩

private theorem Keeps.governed {e after : Engine} (keeps : Keeps schemas e after) : after.Governed schemas := by
  rw [Engine.Governed,keeps.1]
  exact keeps.2

private theorem keeps_add {e : Engine} (governed : e.Governed schemas) (d : Draw) (input : MemoryInput) :
    Keeps schemas e (memoryAdd (env.withFacts schemas) e d input).2 := by
  refine ⟨memoryAdd_config _ e d input,?_⟩
  unfold memoryAdd
  split
  next => exact governed
  next result rows ok =>
    obtain ⟨accepted,plan⟩ := memoryPlanWithEmbedding_cases _ ok
    rw [evictOverCap_memories,memoryApplyRows_memories]
    exact (MemoryTable.Governed.upsertRows governed (plan.governed env schemas governed accepted)).delete _

private theorem keeps_batchRows {e after : Engine} {rows : List MemoryRow} (governed : e.Governed schemas)
    (each : ∀ row ∈ rows, row.memory.Governed schemas e.config) (ok : memoryApplyRowsBatch e rows = .ok after) :
    Keeps schemas e after := by
  refine ⟨(memoryApplyRowsBatch_ok e after rows ok).2.2,?_⟩
  rw [memoryApplyRowsBatch_memories ok]
  exact MemoryTable.Governed.upsertRows governed each

private theorem keeps_batch {e : Engine} (governed : e.Governed schemas) (inputs : List (MemoryInput × Draw))
    (buffer : Buffer) (adds : List MemoryAdd) (waiting : ∀ row ∈ buffer.rows, row.memory.Governed schemas e.config) :
    Keeps schemas e (batchLoop (env.withFacts schemas) inputs e buffer adds).2 := by
  induction inputs generalizing e buffer adds with
  | nil =>
    unfold batchLoop
    split
    next => exact .refl governed
    next after applied => exact keeps_batchRows governed waiting applied
  | cons head rest ih =>
    unfold batchLoop
    split
    next => exact .refl governed
    next after left flushed =>
      have flush : Keeps schemas e after ∧ ∀ row ∈ left.rows, row.memory.Governed schemas after.config := by
        rcases flushColliding_cases flushed with ⟨_,rfl,rfl⟩ | ⟨_,applied,rfl⟩
        · exact ⟨.refl governed,waiting⟩
        · exact ⟨keeps_batchRows governed waiting applied,by simp⟩
      obtain ⟨kept,left⟩ := flush
      split
      next => exact kept
      next add planned ok =>
        obtain ⟨accepted,plan⟩ := memoryPlanWithEmbedding_cases _ ok
        refine kept.trans (ih kept.governed _ _ ?_)
        intro row inside
        rcases List.mem_append.mp inside with inside | inside
        · exact left row inside
        · exact plan.governed env schemas kept.governed accepted row inside

private theorem keeps_adds {e : Engine} (governed : e.Governed schemas) (inputs : List (MemoryInput × Draw))
    (out : List MemoryAdd) : Keeps schemas e (addLoop (env.withFacts schemas) inputs e out).2 := by
  induction inputs generalizing e out with
  | nil => exact .refl governed
  | cons head rest ih =>
    have first := keeps_add env governed head.2 head.1
    unfold addLoop
    split
    next err after added =>
      rw [added] at first
      exact first
    next add after added =>
      rw [added] at first
      exact first.trans (ih first.governed _)

private theorem keeps_document {e : Engine} (governed : e.Governed schemas) (doc : DocumentIngest) (scope : MemoryScope)
    (opts : ChunkOptions) (draws : Nat → Draw) (now : Int) :
    Keeps schemas e (documentIngest (env.withFacts schemas) e doc scope opts draws now).2 := by
  have batch := keeps_batch env governed (withDraws (documentInputs doc scope opts) draws) ⟨[],[]⟩ [] (by simp)
  unfold documentIngest
  dsimp only
  split
  next err after added =>
    rw [memoryAddBatch] at added
    rw [added] at batch
    exact batch
  next added after ok =>
    rw [memoryAddBatch] at ok
    rw [ok] at batch
    split
    next => exact batch
    next swept applied =>
      refine batch.trans (keeps_batchRows batch.governed ?_ applied)
      intro row inside
      obtain ⟨m,_,rfl⟩ := List.mem_map.mp inside
      exact .of_idle (by simp)

private theorem keeps_accept {e : Engine} (governed : e.Governed schemas) (id : Uuid) (tenant : String) (d : Draw)
    (now : Int) : Keeps schemas e (memoryAccept (env.withFacts schemas) e id tenant d now).2 := by
  unfold memoryAccept
  split
  next => exact .refl governed
  next proposal found =>
    have added := keeps_add env governed d (proposalInput proposal)
    split
    next err after failed =>
      rw [failed] at added
      exact added
    next add after ok =>
      rw [ok] at added
      exact ⟨added.1,added.2.upsertRaw (.of_idle (by simp [retiredProposal]))⟩

private theorem keeps_expire {e : Engine} (governed : e.Governed schemas) (stamp : Uuid → Int) (ids : List Uuid) :
    Keeps schemas e (memoryExpire stamp e ids) := by
  refine ⟨(memoryExpire_frame stamp e ids).2,?_⟩
  rw [memoryExpire_memories]
  exact MemoryTable.Governed.expireAll governed ids stamp

private theorem keeps_consolidate {e : Engine} (governed : e.Governed schemas) (scope : MemoryScope)
    (keep maxRows : Nat) (reply : Option String) (d : Draw) :
    Keeps schemas e (memoryConsolidate (env.withFacts schemas) e scope keep maxRows reply d).2 := by
  unfold memoryConsolidate
  split
  next => exact .refl governed
  next input expired planned =>
    have added := keeps_add env governed d input
    split
    next err after failed =>
      rw [failed] at added
      exact added
    next add after ok =>
      rw [ok] at added
      exact added.trans (keeps_expire added.governed d.stamp expired)

private theorem keeps_folds {e : Engine} (governed : e.Governed schemas)
    (plans : List ((MemoryInput × List Uuid) × Draw)) :
    Keeps schemas e (foldLoop (env.withFacts schemas) plans e).2 := by
  induction plans generalizing e with
  | nil => exact .refl governed
  | cons head rest ih =>
    obtain ⟨⟨input,expired⟩,d⟩ := head
    have added := keeps_add env governed d input
    unfold foldLoop
    split
    next err after failed =>
      rw [failed] at added
      exact added
    next add after ok =>
      rw [ok] at added
      have expiry := keeps_expire added.governed d.stamp expired
      exact (added.trans expiry).trans (ih expiry.governed)

private theorem keeps_consolidateSimilar {e : Engine} (governed : e.Governed schemas) (scope : MemoryScope)
    (threshold : Rat) (maxRows scanCap : Nat) (near : Neighbours) (draws : Nat → Draw) :
    Keeps schemas e
      (memoryConsolidateSimilar (env.withFacts schemas) e scope threshold maxRows scanCap near draws).2 := by
  unfold memoryConsolidateSimilar
  split
  next => exact .refl governed
  next plans planned =>
    have folded := keeps_folds env governed (plans.zipIdx.map (fun plan => (plan.1,draws plan.2)))
    split
    next err after failed =>
      rw [failed] at folded
      exact folded
    next after ok =>
      rw [ok] at folded
      exact folded

private theorem keeps_propose {e : Engine} (governed : e.Governed schemas) (d : Draw) (input : MemoryInput) :
    Keeps schemas e (memoryPropose (env.withFacts schemas) e d input).2 := by
  unfold memoryPropose
  dsimp only
  split
  next => exact .refl governed
  next accepted => exact ⟨rfl,MemoryTable.Governed.upsertRaw governed (.of_idle (by simp [proposalMemory]))⟩

private theorem update_governed_iff {e : Engine} (governed : e.Governed schemas) (id : Uuid) (patch : MemoryPatch)
    (tenant : Option String) (d : Draw) :
    (memoryUpdate (env.withFacts schemas) e id patch tenant d).2.Governed schemas ↔
      GovernedCall.Corrects schemas e (.update id patch tenant d) := by
  unfold memoryUpdate
  rcases memoryUpdatePlan_cases e id patch tenant d.now d.embedding with
    ⟨none,idle⟩ | ⟨m,vector,found,active,planned,_⟩
  · rw [none]
    exact iff_of_true governed (fun m found active => absurd active (idle m found))
  · rw [planned]
    simp only [Engine.Governed,memoryApplyRows_config,memoryApplyRows_memories]
    constructor
    · intro kept other same _ strict metadata replaced
      cases found.symm.trans same
      have written := kept _ ((Table.mem_upsert _ _ _).mpr (Or.inl rfl)) active strict
      simpa [MemoryRow.stored,patchMemory,replaced] using written
    · intro corrects
      refine MemoryTable.Governed.upsertRaw governed ?_
      intro _ strict
      cases replaced : patch.metadata with
      | none =>
        obtain ⟨row,member,rfl,_⟩ := lookup_eq_some found
        have before := governed row member active strict
        simpa [patchMemory,replaced] using before
      | some metadata => simpa [patchMemory,replaced] using corrects m found active strict metadata replaced

theorem GovernedCall.step_governed_iff {e : Engine} (governed : e.Governed schemas) (call : GovernedCall) :
    (call.step env schemas e).Governed schemas ↔ call.Corrects schemas e := by
  cases call with
  | update id patch tenant d => exact update_governed_iff env governed id patch tenant d
  | add d input => exact iff_of_true (keeps_add env governed d input).governed trivial
  | addBatch inputs => exact iff_of_true (keeps_batch env governed inputs ⟨[],[]⟩ [] (by simp)).governed trivial
  | propose d input => exact iff_of_true (keeps_propose env governed d input).governed trivial
  | accept id tenant d now => exact iff_of_true (keeps_accept env governed id tenant d now).governed trivial
  | remember rawText scope reply draws => exact iff_of_true (keeps_adds env governed _ []).governed trivial
  | document doc scope opts draws now =>
    exact iff_of_true (keeps_document env governed doc scope opts draws now).governed trivial
  | consolidate scope keep maxRows reply d =>
    exact iff_of_true (keeps_consolidate env governed scope keep maxRows reply d).governed trivial
  | consolidateSimilar scope threshold maxRows scanCap near draws =>
    exact iff_of_true (keeps_consolidateSimilar env governed scope threshold maxRows scanCap near draws).governed trivial

/-- Along a run from a governed store, the rows of the strict tenants stay governed exactly when every
correction that replaces the metadata of such a row gives metadata that pass. -/
theorem governed_throughout_iff {e : Engine} (start : e.Governed schemas) (calls : List GovernedCall) :
    Throughout (GovernedCall.step env schemas) (Engine.Governed schemas) e calls ↔
      Along (GovernedCall.step env schemas) (GovernedCall.Corrects schemas) e calls := by
  have free : Along (GovernedCall.step env schemas) (fun _ _ => True) e calls := .of_forall (fun _ _ => trivial)
  refine free.throughout_iff (fun _ => True) trivial start ?_
  intro e call _ governed _
  exact ⟨trivial,call.step_governed_iff env governed⟩

end

def FactSchemas.lenient : FactSchemas := ⟨fun _ => [],fun _ _ => [],fun _ _ => true⟩

def strictConfig : CoreConfig :=
  { CoreConfig.default with governance := ⟨false,.off,[("acme",⟨some true,some .strict⟩)]⟩ }

private def attributedInput : MemoryInput :=
  { MemoryInput.new (.tenant "acme") "eu-west" with
    subject := some "deploy.target"
    metadata := .obj [("provenance",.obj [("ref",.str "MR-12"),("source",.str "gitlab")])] }

private def retag (metadata : Json) : GovernedCall :=
  .update 1 ⟨none,none,none,some metadata⟩ (some "acme") (.plain 2000 2)

def attributedRun : List GovernedCall :=
  [.add (.plain 1000 1) attributedInput,retag (.obj [("provenance",.obj [("source",.str "gitlab")])])]

private theorem empty_governed (schemas : FactSchemas) (config : CoreConfig) (dimension : Nat) :
    (Engine.empty config dimension).Governed schemas :=
  fun _ inside => nomatch inside

theorem governed_throughout_attributed :
    Throughout (GovernedCall.step .ascii .lenient) (Engine.Governed .lenient) (.empty strictConfig 2) attributedRun := by
  refine (governed_throughout_iff .ascii (empty_governed .lenient strictConfig 2) attributedRun).mpr ?_
  refine ⟨trivial,?_,trivial⟩
  intro m found active strict metadata replaced
  cases replaced
  exact ⟨rfl,hasProvenance_of_subset (List.nil_subset _) (by decide +kernel)⟩

def stripped : List GovernedCall := [.add (.plain 1000 1) attributedInput,retag (.obj [])]

private theorem stripped_row :
    (.active,"acme",false) ∈
      (run (GovernedCall.step .ascii .lenient) (.empty strictConfig 2) stripped).memories.rows.map (fun row =>
        (row.memory.state,row.memory.scope.tenantId,hasProvenance row.memory.metadata row.memory.sourceEventIds)) := by
  decide +kernel

/-- A correction strips the provenance of a fact of a tenant that requires it. -/
theorem correction_strips_provenance :
    strictConfig.Strict "acme" ∧
      ¬Throughout (GovernedCall.step .ascii .lenient) (Engine.Governed .lenient) (.empty strictConfig 2) stripped := by
  have strict : strictConfig.Strict "acme" := by decide +kernel
  refine ⟨strict,?_⟩
  intro governed
  obtain ⟨row,member,equal⟩ := List.mem_map.mp stripped_row
  simp only [Prod.mk.injEq] at equal
  obtain ⟨active,tenant,unattributed⟩ := equal
  have last : (run (GovernedCall.step .ascii .lenient) (.empty strictConfig 2) stripped).Governed .lenient := governed 2
  have vouched := last row member active (tenant ▸ strict)
  rw [vouched.2] at unattributed
  cases unattributed

end Ecphoria
