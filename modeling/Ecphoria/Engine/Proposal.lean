import Ecphoria.Engine.Belief

/-! Governed writes and the bi-temporal reader. A proposal is kept out of retrieval by
its state; `as_of` reads validity intervals and no state, so it answers with a
proposal as soon as the proposal carries a subject. -/
namespace Ecphoria
open Library

inductive ReviewCall where
  | add (d : Draw) (input : MemoryInput)
  | propose (d : Draw) (input : MemoryInput)
  | accept (id : Uuid) (tenant : String) (d : Draw) (now : Int)
  | reject (id : Uuid) (tenant : String) (now : Int)

/-- An engine with the ids `memory_propose` wrote and the ids that have been active. -/
structure Reviewed where
  engine : Engine
  proposed : List Uuid
  believed : List Uuid

def activeIds (t : MemoryTable) : List Uuid :=
  (t.rows.filter (fun row => row.memory.state = .active)).map MemoryRow.id

section
variable (env : Env)

def ReviewCall.apply (e : Engine) : ReviewCall → Engine
  | .add d input => (memoryAdd env e d input).2
  | .propose d input => (memoryPropose env e d input).2
  | .accept id tenant d now => (memoryAccept env e id tenant d now).2
  | .reject id tenant now => (memoryReject env e id tenant now).2

def ReviewCall.proposes (e : Engine) : ReviewCall → List Uuid
  | .propose d input =>
    match (memoryPropose env e d input).1 with
    | .ok m => [m.id]
    | .error _ => []
  | _ => []

def reviewStep (s : Reviewed) (call : ReviewCall) : Reviewed :=
  let after := call.apply env s.engine
  ⟨after,s.proposed ++ call.proposes env s.engine,s.believed ++ activeIds after.memories⟩

/-- Every answer of `as_of`, in whatever order the scan meets the rows, was once believed and is no
proposal. -/
def AnswersBelieved (s : Reviewed) : Prop :=
  ∀ scan, scan.Perm s.engine.memories.memories → ∀ scope subject instant m,
    MemoryTable.asOfScan scan scope (normalizeSubject env subject) instant = some m →
      m.id ∉ s.proposed ∧ m.id ∈ s.believed

def DrawsFresh (s : Reviewed) : ReviewCall → Prop
  | .add d _ => d.id ∉ s.engine.memories.keys
  | .propose d _ => d.id ∉ s.engine.memories.keys
  | .accept _ _ d _ => d.id ∉ s.engine.memories.keys
  | .reject _ _ _ => True

instance (s : Reviewed) : ∀ call, Decidable (DrawsFresh s call)
  | .add d _ => inferInstanceAs (Decidable (d.id ∉ s.engine.memories.keys))
  | .propose d _ => inferInstanceAs (Decidable (d.id ∉ s.engine.memories.keys))
  | .accept _ _ d _ => inferInstanceAs (Decidable (d.id ∉ s.engine.memories.keys))
  | .reject _ _ _ => isTrue trivial

/-- A proposal that governance lets in has no subject. -/
def ProposesUnkeyed (s : Reviewed) : ReviewCall → Prop
  | .propose _ input => Accepts env s.engine.config input → (canonicalInput env input).subject = none
  | _ => True

instance (s : Reviewed) : ∀ call, Decidable (ProposesUnkeyed env s call)
  | .propose _ input => inferInstanceAs (Decidable (Accepts env s.engine.config input →
      (canonicalInput env input).subject = none))
  | .add _ _ => isTrue trivial
  | .accept _ _ _ _ => isTrue trivial
  | .reject _ _ _ => isTrue trivial

/-- A proposed row has no subject and is not active, and stays in the table; every other row has been
believed. -/
structure Unheard (t : MemoryTable) (proposed believed : List Uuid) : Prop where
  silent : ∀ row ∈ t.rows, row.id ∈ proposed → row.memory.subject = none ∧ row.memory.state ≠ .active
  known : ∀ row ∈ t.rows, row.id ∉ proposed → row.id ∈ believed
  kept : ∀ id ∈ proposed, id ∈ t.keys

theorem Unheard.answers {s : Reviewed} (unheard : Unheard s.engine.memories s.proposed s.believed) :
    AnswersBelieved env s := by
  intro scan perm scope subject instant m answer
  have selected := (List.mem_insertionSort _).mp (List.mem_of_head? answer)
  obtain ⟨inScan,valid⟩ := List.mem_filter.mp selected
  obtain ⟨row,member,rfl⟩ := List.mem_map.mp (perm.mem_iff.mp inScan)
  have keyed : row.memory.subject = some (normalizeSubject env subject) := by
    simp only [MemoryTable.validAt,Bool.and_eq_true,decide_eq_true_eq] at valid
    exact valid.1.1.2
  have unproposed : row.id ∉ s.proposed := by
    intro proposed
    rw [(unheard.silent row member proposed).1] at keyed
    cases keyed
  exact ⟨unproposed,unheard.known row member unproposed⟩

theorem Unheard.upsertRows {t : MemoryTable} {proposed believed : List Uuid} {rows : List MemoryRow}
    (unheard : Unheard t proposed believed)
    (targets : ∀ row ∈ rows, row.id ∉ proposed ∧ (row.id ∈ believed ∨ row.memory.state = .active)) :
    Unheard (t.upsertRows rows) proposed (believed ++ activeIds (t.upsertRows rows)) where
  silent := by
    intro r member listed
    rcases MemoryTable.mem_upsertRows member with ⟨row,inside,rfl⟩ | ⟨old,_⟩
    · exact absurd listed (targets row inside).1
    · exact unheard.silent r old listed
  known := by
    intro r member unlisted
    rcases MemoryTable.mem_upsertRows member with ⟨row,inside,rfl⟩ | ⟨old,_⟩
    · rcases (targets row inside).2 with known | active
      · exact List.mem_append_left _ known
      · exact List.mem_append_right _ (List.mem_map.mpr
          ⟨row.stored,List.mem_filter.mpr ⟨member,decide_eq_true active⟩,rfl⟩)
    · exact List.mem_append_left _ (unheard.known r old unlisted)
  kept := by
    intro id listed
    rw [MemoryTable.upsertRows_eq]
    exact Table.mem_keys_upsertAll (Or.inr (unheard.kept id listed))

theorem Unheard.evict {t : MemoryTable} {proposed believed : List Uuid} (scope : MemoryScope) (cap : Nat)
    (unheard : Unheard t proposed (believed ++ activeIds t)) :
    Unheard (t.enforceScopeCap scope cap).2 proposed
      (believed ++ activeIds (t.enforceScopeCap scope cap).2) where
  silent := fun row member => unheard.silent row ((Table.mem_delete _ _ _).mp member).1
  known := by
    intro row member unlisted
    have old := ((Table.mem_delete _ _ _).mp member).1
    rcases List.mem_append.mp (unheard.known row old unlisted) with known | active
    · exact List.mem_append_left _ known
    · obtain ⟨same,inside,equal⟩ := List.mem_map.mp active
      obtain ⟨there,active⟩ := List.mem_filter.mp inside
      cases t.eq_of_key there old equal
      exact List.mem_append_right _ (List.mem_map.mpr ⟨row,List.mem_filter.mpr ⟨member,active⟩,rfl⟩)
  kept := by
    intro id listed
    obtain ⟨row,member,rfl⟩ := (t.mem_keys id).mp (unheard.kept id listed)
    have idle := (unheard.silent row member listed).2
    refine (Table.mem_keys _ _).mpr ⟨row,(Table.mem_delete _ _ _).mpr ⟨member,?_⟩,rfl⟩
    have spared : row.id ∉ t.overCap scope cap := by
      intro evicted
      obtain ⟨other,there,same,active⟩ := MemoryTable.overCap_active evicted
      cases t.eq_of_key there member same
      exact idle active
    simpa using spared

theorem Unheard.add {e : Engine} {d : Draw} {input : MemoryInput} {proposed believed : List Uuid}
    (unheard : Unheard e.memories proposed believed) (fresh : d.id ∉ e.memories.keys) :
    Unheard (memoryAdd env e d input).2.memories proposed
      (believed ++ activeIds (memoryAdd env e d input).2.memories) := by
  unfold memoryAdd
  split
  next => exact ⟨unheard.silent,fun row member unlisted =>
    List.mem_append_left _ (unheard.known row member unlisted),unheard.kept⟩
  next result rows ok =>
    obtain ⟨_,plan⟩ := memoryPlanWithEmbedding_cases env ok
    rw [evictOverCap_memories,memoryApplyRows_memories]
    refine Unheard.evict _ _ (unheard.upsertRows ?_)
    intro row inside
    rcases plan.targets inside with ⟨old,member,active,same⟩ | ⟨drawn,active⟩
    · rw [← same]
      have unlisted : old.id ∉ proposed := fun listed => (unheard.silent old member listed).2 active
      exact ⟨unlisted,Or.inl (unheard.known old member unlisted)⟩
    · rw [drawn]
      exact ⟨fun listed => fresh (unheard.kept d.id listed),Or.inr active⟩

theorem Unheard.weaken {t : MemoryTable} {proposed believed : List Uuid} (more : List Uuid)
    (unheard : Unheard t proposed believed) : Unheard t proposed (believed ++ more) :=
  ⟨unheard.silent,fun row member unlisted => List.mem_append_left _ (unheard.known row member unlisted),
    unheard.kept⟩

theorem Unheard.retire {e : Engine} {proposal : MemoryRow} {decision : String} {acceptedAs : Option Uuid}
    {now : Int} {proposed believed : List Uuid}
    (unheard : Unheard e.memories proposed (believed ++ activeIds e.memories))
    (silent : proposal.id ∈ proposed → proposal.memory.subject = none)
    (known : proposal.id ∉ proposed → proposal.id ∈ believed) :
    Unheard (retireProposal env e proposal.memory decision acceptedAs now).memories proposed
      (believed ++ activeIds (retireProposal env e proposal.memory decision acceptedAs now).memories) where
  silent := by
    intro row member listed
    rcases (Table.mem_upsert _ _ _).mp member with rfl | ⟨old,_⟩
    · exact ⟨silent listed,by simp [MemoryRow.stored,retiredProposal]⟩
    · exact unheard.silent row old listed
  known := by
    intro row member unlisted
    rcases (Table.mem_upsert _ _ _).mp member with rfl | ⟨old,_⟩
    · exact List.mem_append_left _ (known unlisted)
    · rcases List.mem_append.mp (unheard.known row old unlisted) with known | active
      · exact List.mem_append_left _ known
      · obtain ⟨same,inside,equal⟩ := List.mem_map.mp active
        obtain ⟨there,active⟩ := List.mem_filter.mp inside
        cases e.memories.eq_of_key there old equal
        exact List.mem_append_right _ (List.mem_map.mpr ⟨row,List.mem_filter.mpr ⟨member,active⟩,rfl⟩)
  kept := fun id listed => (Table.mem_keys_upsert _ _ _).mpr (Or.inr (unheard.kept id listed))

theorem Unheard.propose {e : Engine} {d : Draw} {input : MemoryInput} {proposed believed : List Uuid}
    (unheard : Unheard e.memories proposed believed) (fresh : d.id ∉ e.memories.keys)
    (unkeyed : Accepts env e.config input → (canonicalInput env input).subject = none) :
    Unheard ((ReviewCall.propose d input).apply env e).memories
      (proposed ++ (ReviewCall.propose d input).proposes env e) believed := by
  simp only [ReviewCall.apply,ReviewCall.proposes,memoryPropose]
  split
  next => simpa using unheard
  next accepted =>
    refine ⟨?_,?_,?_⟩
    · intro row member listed
      rcases (Table.mem_upsert _ _ _).mp member with rfl | ⟨old,_⟩
      · exact ⟨unkeyed accepted,by simp [MemoryRow.stored,proposalMemory]⟩
      · rcases List.mem_append.mp listed with listed | drawn
        · exact unheard.silent row old listed
        · exact absurd ((e.memories.mem_keys _).mpr ⟨row,old,List.mem_singleton.mp drawn⟩) fresh
    · intro row member unlisted
      rcases (Table.mem_upsert _ _ _).mp member with rfl | ⟨old,_⟩
      · exact absurd (List.mem_append_right _ (List.mem_singleton_self _)) unlisted
      · exact unheard.known row old (fun listed => unlisted (List.mem_append_left _ listed))
    · intro id listed
      rcases List.mem_append.mp listed with listed | drawn
      · exact (Table.mem_keys_upsert _ _ _).mpr (Or.inr (unheard.kept id listed))
      · exact (Table.mem_keys_upsert _ _ _).mpr (Or.inl (List.mem_singleton.mp drawn))

theorem pendingOf_eq_some {e : Engine} {id : Uuid} {tenant : String} {m : Memory}
    (found : pendingOf e id tenant = some m) : ∃ row ∈ e.memories.rows, row.memory = m := by
  obtain ⟨row,member,equal,_⟩ := MemoryTable.get_eq_some
    (Option.filter_eq_some_iff.mp (Option.filter_eq_some_iff.mp found).1).1
  exact ⟨row,member,equal⟩

theorem Unheard.step {s : Reviewed} {call : ReviewCall}
    (unheard : Unheard s.engine.memories s.proposed s.believed) (fresh : DrawsFresh s call)
    (unkeyed : ProposesUnkeyed env s call) :
    Unheard (reviewStep env s call).engine.memories (reviewStep env s call).proposed
      (reviewStep env s call).believed := by
  cases call with
  | add d input =>
    simp only [reviewStep,ReviewCall.apply,ReviewCall.proposes,List.append_nil]
    exact unheard.add env fresh
  | propose d input => exact (unheard.propose env fresh unkeyed).weaken _
  | accept id tenant d now =>
    simp only [reviewStep,ReviewCall.apply,ReviewCall.proposes,List.append_nil,memoryAccept]
    split
    next => exact unheard.weaken _
    next proposal found =>
      obtain ⟨row,member,rfl⟩ := pendingOf_eq_some found
      have added : Unheard (memoryAdd env s.engine d (proposalInput row.memory)).2.memories s.proposed
          (s.believed ++ activeIds (memoryAdd env s.engine d (proposalInput row.memory)).2.memories) :=
        unheard.add env fresh
      split
      next err after failed =>
        rw [failed] at added
        exact added
      next add after ok =>
        rw [ok] at added
        exact added.retire env (fun listed => (unheard.silent row member listed).1) (unheard.known row member)
  | reject id tenant now =>
    simp only [reviewStep,ReviewCall.apply,ReviewCall.proposes,List.append_nil,memoryReject]
    split
    next => exact unheard.weaken _
    next proposal found =>
      obtain ⟨row,member,rfl⟩ := pendingOf_eq_some found
      exact (unheard.weaken _).retire env (fun listed => (unheard.silent row member listed).1)
        (unheard.known row member)

/-- When no proposal with a subject is let in, `as_of` answers in every state of every run only with
rows that have been active, and never with a proposal. -/
theorem answers_believed_throughout (e : Engine) (calls : List ReviewCall) (empty : e.memories.rows = [])
    (fresh : Along (reviewStep env) DrawsFresh ⟨e,[],[]⟩ calls)
    (unkeyed : Along (reviewStep env) (ProposesUnkeyed env) ⟨e,[],[]⟩ calls) :
    Throughout (reviewStep env) (AnswersBelieved env) ⟨e,[],[]⟩ calls := by
  have reached : Throughout (reviewStep env)
      (fun s => Unheard s.engine.memories s.proposed s.believed) ⟨e,[],[]⟩ calls := by
    refine (fresh.and unkeyed).throughout ⟨by simp,by simp [empty],by simp⟩ ?_
    rintro s call unheard ⟨fresh,unkeyed⟩
    exact unheard.step env fresh unkeyed
  exact fun n => (reached n).answers env

end

private def noteInput (subject : Option String) (content : String) : MemoryInput :=
  { MemoryInput.new (.tenant "acme") content with subject := subject }

def reviewedNotes : List ReviewCall :=
  [.add (.plain 1000 1) (noteInput (some "Plan") "free"),.propose (.plain 2000 2) (noteInput none "call back"),
    .propose (.plain 3000 3) (noteInput none "send a quote"),.accept 2 "acme" (.plain 4000 4) 4000,
    .reject 3 "acme" 5000]

theorem answers_believed_throughout_notes :
    Throughout (reviewStep .ascii) (AnswersBelieved .ascii) ⟨.empty .default 2,[],[]⟩ reviewedNotes :=
  answers_believed_throughout .ascii (.empty .default 2) reviewedNotes rfl (by decide +kernel)
    (by decide +kernel)

def pendingPlan : List ReviewCall := [.propose (.plain 1000 1) (noteInput (some "plan") "pro")]

private theorem pendingPlan_answer :
    (memoryAsOf .ascii (run (reviewStep .ascii) ⟨.empty .default 2,[],[]⟩ pendingPlan).engine
      (.tenant "acme") "plan" 1000).map Memory.id = some 1 := by
  decide +kernel

private theorem pendingPlan_proposed :
    1 ∈ (run (reviewStep .ascii) ⟨.empty .default 2,[],[]⟩ pendingPlan).proposed := by
  decide +kernel

/-- `as_of` answers with a proposal nobody has accepted. -/
theorem pending_proposal_answered :
    ¬Throughout (reviewStep .ascii) (AnswersBelieved .ascii) ⟨.empty .default 2,[],[]⟩ pendingPlan := by
  intro believed
  have last : AnswersBelieved .ascii (run (reviewStep .ascii) ⟨.empty .default 2,[],[]⟩ pendingPlan) :=
    believed 1
  obtain ⟨m,answer,same⟩ := Option.map_eq_some_iff.mp pendingPlan_answer
  have unproposed := (last _ (List.Perm.refl _) (.tenant "acme") "plan" 1000 m answer).1
  rw [same] at unproposed
  exact unproposed pendingPlan_proposed

end Ecphoria
