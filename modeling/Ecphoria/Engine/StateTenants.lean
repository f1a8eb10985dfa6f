import Ecphoria.Engine.Tenants
import Ecphoria.Runtime.Ledger
import Mathlib.Data.List.Dedup

/-! Agent state between tenants. An entry belongs to the tenant its agent id starts
with; erasing and exporting a tenant match that start without regard to case, and
listing its agents takes the wildcards of its name at their word. The triggers of a
tenant are entries too, under an agent that does not start so. -/
namespace Ecphoria
open Library

section
variable (env : Env)

def stateGetForTenant (e : Engine) (tenant agentId key : String) (clock : String) : Option StateEntry :=
  (StateTable.get env e.state (scopedAgent tenant agentId) key clock).map (fun entry => { entry with agentId := agentId })

end

def stateSetForTenant (e : Engine) (tenant agentId key : String) (value : Json) (now : Int) : Nat × Engine :=
  let (version,state) := e.state.set (scopedAgent tenant agentId) key value now
  (version,{ e with state := state })

def stripPrefix (before text : String) : Option String :=
  if before.toList.isPrefixOf text.toList then some (String.ofList (text.toList.drop before.toList.length)) else none

def agentPattern (tenant : String) : String := tenantAgents tenant ++ "%"

def listAgentsForTenant (e : Engine) (tenant : String) : List String :=
  (e.state.agentsLike (agentPattern tenant)).map (fun agent => (stripPrefix (tenantAgents tenant) agent).getD agent)

/-- `TOOL_CATALOG_AGENT`: the catalogue is the operator's and of no tenant. -/
def toolCatalogAgent : String := "__tools"

def toolServerRegister (e : Engine) (name url : String) (now : Int) : Engine :=
  { e with state := (e.state.set toolCatalogAgent name (.obj [("url",.str url)]) now).2 }

def triggerAgent (tenant : String) : String := "__trigger:" ++ tenantOrDefault tenant

structure Trigger where
  source : String
  eventType : String
  agentId : String

def Trigger.value (t : Trigger) : Json :=
  .obj [("agent_id",.str t.agentId),("event_type",.str t.eventType),("source",.str t.source)]

def triggerRegister (e : Engine) (tenant name : String) (trigger : Trigger) (now : Int) : Engine :=
  { e with state := (e.state.set (triggerAgent tenant) name trigger.value now).2 }

def WrittenBy (tenant : String) (agentId : String) : Prop := ∃ agent, agentId = scopedAgent tenant agent

/-- An agent that the engine keeps for itself: of the catalogue of tools, of triggers, or of an approval. -/
def Reserved (agentId : String) : Prop :=
  agentId = toolCatalogAgent ∨ "__trigger:".toList <+: agentId.toList ∨ "__approval:".toList <+: agentId.toList

/-- The state of a tenant: what is written under its name, its triggers, the approvals of its runs, and, if it is the default
tenant, what is written under no name. -/
def StateOwned (runs : RunTable) (tenant agentId : String) : Prop :=
  WrittenBy tenant agentId ∨ agentId = triggerAgent tenant ∨
    (∃ run ∈ runs.rows, run.tenantId = tenant ∧ agentId = approvalAgent run.id) ∨
    tenant = "default" ∧ '\x1f' ∉ agentId.toList ∧ ¬ Reserved agentId

/-- What the calls of tenant `t` do not do to the entries of tenant `u`. -/
structure StateFrame (env : Env) (t u : String) : Prop where
  erased : ∀ (e : Engine), ∀ row ∈ e.state.rows, WrittenBy u row.agentId → row ∈ (e.deleteTenant t).2.state.rows
  exported : ∀ (e : Engine), ∀ entry ∈ (e.exportTenant t).state, ¬ WrittenBy u entry.1
  listed : ∀ (e : Engine), ∀ row ∈ e.state.rowsLike (agentPattern t), ¬ WrittenBy u row.agentId
  told : ∀ (e other : Engine), (∀ row, ¬ WrittenBy u row.agentId → (row ∈ e.state.rows ↔ row ∈ other.state.rows)) →
    listAgentsForTenant e t = listAgentsForTenant other t
  overwritten : ∀ (e : Engine) (a b k l : String) (v : Json) (now : Int) (clock : String),
    stateGetForTenant env (stateSetForTenant e t a k v now).2 u b l clock = stateGetForTenant env e u b l clock

/-- No leading part of the pattern that lists the agents of `t` takes the start of an agent of `u`. -/
def NamesApart (t u : String) : Prop :=
  ∀ leading ∈ ((agentPattern t).toList.map likePiece).inits,
    globMatch Char.toLower leading (tenantAgents u).toList = false

instance (t u : String) : Decidable (NamesApart t u) := by
  unfold NamesApart
  infer_instance

theorem hasPrefix_of_writtenBy {tenant : String} {row : StateRow} (written : WrittenBy tenant row.agentId) :
    StateTable.hasPrefix (tenantAgents tenant) row = true := by
  obtain ⟨agent,named⟩ := written
  rw [StateTable.hasPrefix_iff,named,show scopedAgent tenant agent = tenantAgents tenant ++ agent from rfl,
    String.toList_append,List.map_append]
  exact List.prefix_append ..

theorem toLower_separator {c : Char} (same : c.toLower = '\x1f') : c = '\x1f' := by
  unfold Char.toLower at same
  split at same
  next upper =>
    have letter := congrArg (fun d => d.val.toNat) same
    obtain ⟨low,high⟩ := upper
    simp only [ge_iff_le,UInt32.le_iff_toNat_le] at low high
    simp at low high letter
    omega
  next => exact same

theorem separator_of_hasPrefix {tenant : String} {row : StateRow}
    (found : StateTable.hasPrefix (tenantAgents tenant) row = true) : '\x1f' ∈ row.agentId.toList := by
  have starts := (StateTable.hasPrefix_iff _ _).mp found
  have inside : '\x1f' ∈ row.agentId.toList.map Char.toLower := by
    refine starts.subset ?_
    rw [tenantAgents,String.toList_append,List.map_append]
    exact List.mem_append_right _ (by decide)
  obtain ⟨c,there,lower⟩ := List.mem_map.mp inside
  exact toLower_separator lower ▸ there

/-- Nothing that ends in a sign goes on in front of itself with other signs: the sign would stand first in two places. -/
private theorem not_starts_behind {α : Type} [DecidableEq α] {front name : List α} {mark : α} (unmarked : mark ∉ front)
    (some : front ≠ []) : ¬ name ++ [mark] <+: front ++ name := by
  rintro ⟨rest,whole⟩
  have place := congrArg (List.idxOf mark) whole
  rw [List.append_assoc,List.idxOf_append_of_notMem unmarked] at place
  have long := List.length_pos_iff.mpr some
  by_cases inside : mark ∈ name
  · rw [List.idxOf_append_of_mem inside] at place
    omega
  · rw [List.idxOf_append_of_notMem inside,List.idxOf_eq_length inside,List.singleton_append,List.idxOf_cons_self] at place
    omega

theorem hasPrefix_triggerAgent {tenant : String} {row : StateRow} (trigger : row.agentId = triggerAgent tenant) :
    StateTable.hasPrefix (tenantAgents tenant) row = false := by
  by_contra found
  have starts := (StateTable.hasPrefix_iff _ _).mp (Bool.not_eq_false _ ▸ found)
  rw [trigger,tenantAgents,triggerAgent,String.toList_append,String.toList_append,List.map_append,List.map_append] at starts
  by_cases empty : tenant.isEmpty
  · have name : tenant.toList = [] := by rw [String.isEmpty_iff.mp empty]; rfl
    rw [name,tenantOrDefault,if_pos empty] at starts
    exact absurd starts (by decide)
  · rw [tenantOrDefault,if_neg empty] at starts
    exact not_starts_behind (by decide) (by decide) starts

theorem Uuid.separator_not_mem (id : Uuid) : '\x1f' ∉ id.toString.toList := by
  have digits : ∀ a < 16, Nat.digitChar a ≠ '\x1f' := by decide
  have plain : '\x1f' ∉ (List.range 32).map (fun i => hexDigit (id.bits.toNat / 16 ^ (31 - i))) := by
    intro inside
    obtain ⟨i,_,digit⟩ := List.mem_map.mp inside
    exact digits _ (Nat.mod_lt _ (by decide)) digit
  rw [toString,String.toList_ofList]
  generalize (List.range 32).map (fun i => hexDigit (id.bits.toNat / 16 ^ (31 - i))) = hex at plain ⊢
  grind [List.mem_of_mem_take,List.mem_of_mem_drop]

theorem approvalAgent_plain (id : Uuid) : '\x1f' ∉ (approvalAgent id).toList := by
  rw [approvalAgent,String.toList_append,List.mem_append,not_or]
  exact ⟨by decide,id.separator_not_mem⟩

/-- Of the state of a tenant its name is at the start of what was written under it, and of nothing else. -/
theorem StateOwned.hasPrefix_iff {runs : RunTable} {tenant : String} {row : StateRow}
    (owned : StateOwned runs tenant row.agentId) :
    StateTable.hasPrefix (tenantAgents tenant) row = true ↔ WrittenBy tenant row.agentId := by
  refine ⟨fun found => ?_,hasPrefix_of_writtenBy⟩
  rcases owned with written | trigger | ⟨run,_,_,approval⟩ | ⟨_,bare,_⟩
  · exact written
  · exact absurd found (by simp [hasPrefix_triggerAgent trigger])
  · exact absurd (separator_of_hasPrefix found) (approval ▸ approvalAgent_plain run.id)
  · exact absurd (separator_of_hasPrefix found) bare

theorem toolCatalog_unowned (runs : RunTable) (tenant : String) : ¬ StateOwned runs tenant toolCatalogAgent := by
  rintro (⟨agent,written⟩ | trigger | ⟨run,_,_,approval⟩ | ⟨_,_,free⟩)
  · have inside : '\x1f' ∈ toolCatalogAgent.toList := by rw [written]; simp [scopedAgent]
    exact absurd inside (by decide)
  · have starts : "__trigger:".toList <+: toolCatalogAgent.toList := by
      rw [trigger,triggerAgent,String.toList_append]
      exact List.prefix_append ..
    exact absurd starts (by decide)
  · have starts : "__approval:".toList <+: toolCatalogAgent.toList := by
      rw [approval,approvalAgent,String.toList_append]
      exact List.prefix_append ..
    exact absurd starts (by decide)
  · exact free (Or.inl rfl)

theorem namesApart_iff (t u : String) :
    NamesApart t u ↔ ∀ agentId, WrittenBy u agentId → like none (agentPattern t) agentId = false := by
  have meets := like_completes (agentPattern t) (tenantAgents u)
  rw [← not_iff_not]
  simp only [NamesApart,not_forall,exists_prop,Bool.not_eq_false]
  refine meets.symm.trans ?_
  constructor
  · intro given
    obtain ⟨rest,found⟩ := given
    exact ⟨_,⟨rest,rfl⟩,found⟩
  · intro given
    obtain ⟨_,⟨rest,rfl⟩,found⟩ := given
    exact ⟨rest,found⟩

namespace NamesApart
variable {t u : String} (apart : NamesApart t u)
include apart

theorem unlike {agentId : String} (written : WrittenBy u agentId) : like none (agentPattern t) agentId = false :=
  (namesApart_iff t u).mp apart agentId written

theorem hasPrefix {row : StateRow} (written : WrittenBy u row.agentId) :
    StateTable.hasPrefix (tenantAgents t) row = false := by
  by_contra found
  have starts := (StateTable.hasPrefix_iff _ _).mp (Bool.not_eq_false _ ▸ found)
  exact absurd (like_of_starts starts) (by simpa [agentPattern] using apart.unlike written)

theorem agents_ne (a b : String) : scopedAgent u b ≠ scopedAgent t a := by
  intro same
  have starts : (tenantAgents t).toList.map Char.toLower <+: (scopedAgent u b).toList.map Char.toLower := by
    rw [same,show scopedAgent t a = tenantAgents t ++ a from rfl,String.toList_append,List.map_append]
    exact List.prefix_append ..
  exact absurd (like_of_starts starts) (by simpa [agentPattern] using apart.unlike ⟨b,rfl⟩)

theorem stateFrame (env : Env) : StateFrame env t u where
  erased := by
    intro e row inside written
    have swept : (e.deleteTenant t).2.state = e.state.delete (StateTable.hasPrefix (tenantAgents t)) :=
      congrArg Tables.state (e.deleteTenant_tables t)
    rw [swept]
    exact (Table.mem_delete _ _ _).mpr ⟨inside,apart.hasPrefix written⟩
  exported := by
    intro e entry inside written
    obtain ⟨row,kept,rfl⟩ := List.mem_map.mp inside
    exact absurd (List.mem_filter.mp kept).2 (by simp [apart.hasPrefix written])
  listed := by
    intro e row inside written
    exact absurd (List.mem_filter.mp inside).2 (by simp [apart.unlike written])
  told := by
    intro e other same
    have agents : e.state.agentsLike (agentPattern t) = other.state.agentsLike (agentPattern t) := by
      refine List.Perm.eq_of_pairwise' (List.pairwise_insertionSort _ _) (List.pairwise_insertionSort _ _) ?_
      refine ((List.perm_insertionSort _ _).trans ?_).trans (List.perm_insertionSort _ _).symm
      refine (List.perm_ext_iff_of_nodup (List.nodup_dedup _) (List.nodup_dedup _)).mpr fun agentId => ?_
      simp only [StateTable.rowsLike,List.mem_dedup,List.mem_map,List.mem_filter]
      refine exists_congr fun row => and_congr_left fun _ => and_congr_left fun matched => same row ?_
      exact fun written => absurd matched (by simp [apart.unlike written])
    rw [listAgentsForTenant,agents]
    rfl
  overwritten := by
    intro e a b k l v now clock
    rw [stateGetForTenant,stateGetForTenant]
    exact congrArg _ (StateTable.get_set_apart env e.state v now clock (apart.agents_ne a b))

end NamesApart

def lastWritten (u agent key : String) : Engine := (stateSetForTenant (.empty .default 1) u agent key .null 0).2

/-- The calls of one tenant leave the state of another alone exactly when no agent of the other can match
the pattern that the name of the first makes. -/
theorem state_frame_iff (env : Env) (t u : String) : StateFrame env t u ↔ NamesApart t u := by
  constructor
  · intro frame
    rw [namesApart_iff]
    intro agentId written
    by_contra found
    obtain ⟨agent,rfl⟩ := written
    have row : (⟨scopedAgent u agent,"k",.null,1,0,none⟩ : StateRow) ∈ (lastWritten u agent "k").state.rows :=
      List.mem_singleton.mpr rfl
    refine frame.listed (lastWritten u agent "k") _ (List.mem_filter.mpr ⟨row,?_⟩) ⟨agent,rfl⟩
    simpa using found
  · intro apart
    exact apart.stateFrame env

/-- Names without wildcards and separators are apart exactly when they differ in more than the case of their
ASCII letters. -/
theorem namesApart_plain {t u : String} (plain : ∀ c ∈ t.toList, c ≠ '%' ∧ c ≠ '_' ∧ c ≠ '\x1f')
    (whole : ∀ c ∈ u.toList, c ≠ '\x1f') : NamesApart t u ↔ eqIgnoreAsciiCase t u = false := by
  have lettered : (agentPattern t).toList.map likePiece =
      ((tenantAgents t).toList.map Char.toLower).map .lit ++ [.many] := by
    have name : t.toList.map likePiece = t.toList.map (Glob.lit ∘ Char.toLower) :=
      List.map_congr_left (fun c inside => by simp [likePiece,plain c inside])
    simp only [agentPattern,tenantAgents,String.toList_append,List.map_append,name,List.map_map]
    rfl
  have unmarked {name : String} (whole : ∀ c ∈ name.toList, c ≠ '\x1f') : '\x1f' ∉ name.toList.map Char.toLower := by
    intro inside
    obtain ⟨c,member,same⟩ := List.mem_map.mp inside
    exact whole c member (toLower_separator same)
  have split (name : String) : (tenantAgents name).toList.map Char.toLower = name.toList.map Char.toLower ++ ['\x1f'] := by
    rw [tenantAgents,String.toList_append,List.map_append]
    rfl
  rw [namesApart_iff,← not_iff_not]
  simp only [like_plain,lettered,globMatch_lits_many,eqIgnoreAsciiCase,not_forall,Bool.not_eq_false,beq_iff_eq,
    exists_prop]
  constructor
  · intro given
    obtain ⟨_,⟨agent,rfl⟩,rest,parts⟩ := given
    rw [show scopedAgent u agent = tenantAgents u ++ agent from rfl,String.toList_append,List.map_append,split,split,
      List.append_assoc,List.append_assoc] at parts
    exact ((separated_inj (unmarked (fun c inside => (plain c inside).2.2)) (unmarked whole)).mp parts).1
  · intro same
    refine ⟨scopedAgent u "",⟨"",rfl⟩,?_⟩
    rw [show scopedAgent u "" = tenantAgents u ++ "" from rfl,String.append_empty,split,split,same]

/-- Erasing `acme` erases the state of `Acme`. -/
theorem case_erases_other : ¬ ∀ t u, t ≠ u → StateFrame .ascii t u := by
  intro all
  have frame := all "acme" "Acme" (by decide)
  have kept := frame.erased (lastWritten "Acme" "bot" "k") ⟨scopedAgent "Acme" "bot","k",.null,1,0,none⟩
    (List.mem_singleton.mpr rfl) ⟨"bot",rfl⟩
  have gone : (((lastWritten "Acme" "bot" "k").deleteTenant "acme").2.state.rows.isEmpty) = true := by decide +kernel
  rw [List.isEmpty_iff.mp gone] at kept
  cases kept

end Ecphoria
