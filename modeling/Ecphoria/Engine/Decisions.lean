import Ecphoria.Engine.Writers
import Ecphoria.Engine.Calls

/-! Reviewers who decide on one proposal beside each other. Accepting reads the proposal, adds
its content by an ordinary add and retires the proposal last, with nothing that keeps
another reviewer, or a failed write, from coming in between. -/
namespace Ecphoria
open Library

/-- Where the call of a reviewer stands. The engine and the proposal that it found are kept; `added` is the memory
that the proposal was accepted as. -/
inductive DecisionStage where
  | waiting (accepts : Bool) (tenant : String)
  | adding (before : Engine) (proposal : Memory) (stage : AddStage)
  | retiring (before : Engine) (proposal : Memory) (added : Option Uuid)
  | decided (added : Option Uuid)
  | absent
  | failed (before after : Engine) (wrote : Bool)

/-- What a step reads from outside, and whether the store refuses what it writes. -/
structure DecisionTick where
  draw : Draw
  now : Int
  fails : Bool

def decisionText (added : Option Uuid) : String := if added.isSome then "accepted" else "rejected"

def AddStage.wrote : AddStage → Bool
  | .waiting => false
  | .applying _ _ written _ => !written.isEmpty
  | .capping _ _ => true
  | .done written answer => !written.isEmpty || answer.isOk

section
variable (env : Env) (id : Uuid)

/-- The call goes on to retire the proposal once the add has answered, and gives up when it has failed. -/
def DecisionStage.settle (before e : Engine) (proposal : Memory) (stage : AddStage) : DecisionStage :=
  match stage with
  | .done _ (.ok add) => .retiring before proposal (some add.memory.id)
  | .done _ (.error _) => .failed before e stage.wrote
  | _ => .adding before proposal stage

def DecisionStage.advance (e : Engine) (stage : DecisionStage) (tick : DecisionTick) : Engine × DecisionStage :=
  match stage with
  | .waiting accepts tenant =>
    match pendingOf e id tenant with
    | none => (e,.absent)
    | some proposal => (e,if accepts then .adding e proposal .waiting else .retiring e proposal none)
  | .adding before proposal stage =>
    let moved := AddCall.advance env ⟨proposalInput proposal,false⟩ e tick.draw tick.fails stage
    (moved.1,.settle before moved.1 proposal moved.2)
  | .retiring before proposal added =>
    if tick.fails then (e,.failed before e added.isSome)
    else (retireProposal env e proposal (decisionText added) added tick.now,.decided added)
  | stage => (e,stage)

/-- Steps of one call with nothing in between. -/
def DecisionStage.alone (tick : DecisionTick) (reached : Engine × DecisionStage) : Nat → Engine × DecisionStage
  | 0 => reached
  | n + 1 => DecisionStage.alone tick (reached.2.advance env id reached.1 tick) n

theorem DecisionStage.alone_append (tick : DecisionTick) (reached : Engine × DecisionStage) (m n : Nat) :
    DecisionStage.alone env id tick reached (m + n) =
      DecisionStage.alone env id tick (DecisionStage.alone env id tick reached m) n := by
  induction m generalizing reached with
  | zero => rw [Nat.zero_add,DecisionStage.alone]
  | succ m ih => rw [Nat.succ_add,DecisionStage.alone,DecisionStage.alone,ih]

theorem DecisionStage.alone_add {d : Draw} (now : Int) (before : Engine) {proposal : Memory} {reached : Engine × AddStage}
    {n : Nat} {after : Engine} {written : List MemoryRow} {answer : Except Error MemoryAdd}
    (ends : AddCall.alone env ⟨proposalInput proposal,false⟩ d reached n = (after,.done written answer)) :
    ∃ m, DecisionStage.alone env id ⟨d,now,false⟩ (reached.1,.settle before reached.1 proposal reached.2) m =
      (after,.settle before after proposal (.done written answer)) := by
  induction n generalizing reached with
  | zero =>
    obtain ⟨rfl⟩ := ends
    exact ⟨0,rfl⟩
  | succ n ih =>
    obtain ⟨m,same⟩ := ih ends
    cases stage : reached.2 with
    | waiting =>
      refine ⟨m + 1,?_⟩
      rw [stage] at same
      exact same
    | applying add stamp written rows =>
      refine ⟨m + 1,?_⟩
      rw [stage] at same
      exact same
    | capping add written =>
      refine ⟨m + 1,?_⟩
      rw [stage] at same
      exact same
    | done written answer =>
      refine ⟨m,?_⟩
      rw [stage] at same
      exact same

theorem DecisionStage.alone_memoryAccept (e : Engine) (tenant : String) (d : Draw) (now : Int) :
    ∃ n, (DecisionStage.alone env id ⟨d,now,false⟩ (e,.waiting true tenant) n).1 = (memoryAccept env e id tenant d now).2 := by
  cases found : pendingOf e id tenant with
  | none =>
    refine ⟨1,?_⟩
    simp [DecisionStage.alone,DecisionStage.advance,memoryAccept,found]
  | some proposal =>
    obtain ⟨n,written,ends⟩ := AddCall.alone_memoryAdd env (proposalInput proposal) e d
    obtain ⟨m,same⟩ := DecisionStage.alone_add env id now e ends
    cases added : memoryAdd env e d (proposalInput proposal) with
    | mk answer after =>
      rw [added] at same
      cases answer with
      | error err =>
        refine ⟨m + 1,?_⟩
        simp only [DecisionStage.alone,DecisionStage.advance,memoryAccept,found,added,if_true]
        exact congrArg Prod.fst same
      | ok add =>
        refine ⟨m + 1 + 1,?_⟩
        have settled : DecisionStage.alone env id ⟨d,now,false⟩ (e,.waiting true tenant) (m + 1) =
            (after,.retiring e proposal (some add.memory.id)) := by
          simp only [DecisionStage.alone,DecisionStage.advance,found,if_true]
          exact same
        rw [DecisionStage.alone_append,settled]
        simp [DecisionStage.alone,DecisionStage.advance,memoryAccept,found,added,decisionText]

theorem DecisionStage.alone_memoryReject (e : Engine) (tenant : String) (d : Draw) (now : Int) :
    (DecisionStage.alone env id ⟨d,now,false⟩ (e,.waiting false tenant) 2).1 = (memoryReject env e id tenant now).2 := by
  cases found : pendingOf e id tenant with
  | none => simp [DecisionStage.alone,DecisionStage.advance,memoryReject,found]
  | some proposal => simp [DecisionStage.alone,DecisionStage.advance,memoryReject,found,decisionText]

abbrev Reviewers := Processes Engine DecisionStage

def Reviewers.next : Reviewers → Nat × DecisionTick → Reviewers := Processes.step (DecisionStage.advance env id)

def DecisionStage.InFlight : DecisionStage → Prop
  | .adding _ _ _ => True
  | .retiring _ _ _ => True
  | _ => False

def DecisionStage.Added : DecisionStage → Prop
  | .adding _ _ stage => stage.wrote = true
  | .retiring _ _ added => added.isSome = true
  | .decided added => added.isSome = true
  | .failed _ _ wrote => wrote = true
  | _ => False

def DecisionStage.Effective (stage : DecisionStage) : Prop := stage.Added ∨ ∃ added, stage = .decided added

/-- One decision takes effect, and the content is added only with the recorded decision to accept; a call that fails
leaves the proposal pending and the rest as it was. -/
structure DecidedOnce (s : Reviewers) : Prop where
  once : ∀ i j, (s.locals i).Effective → (s.locals j).Effective → i = j
  recorded : (∀ i, ¬(s.locals i).InFlight) → (∃ i, (s.locals i).Added) →
    ∃ m, s.shared.memories.get id = some m ∧ m.state = .expired ∧
      m.metadata.get "review_decision" = some (.str "accepted")
  failed : ∀ i before after wrote, s.locals i = .failed before after wrote →
    after = before ∧ ∃ m, after.memories.get id = some m ∧ m.state = .pending

/-- A call that finds the proposal pending is alone with it, and the proposal can hold a decision; only the first
write of a call fails, or its enforcing of the cap. -/
def AloneWithIt (s : Reviewers) (input : Nat × DecisionTick) : Prop :=
  match s.locals input.1 with
  | .waiting _ tenant => ∀ m, pendingOf s.shared id tenant = some m →
    (∀ i, ¬(s.locals i).InFlight) ∧ m.metadata.isObject = true
  | .adding _ _ (.applying _ _ written _) => input.2.fails = true → written = []
  | .retiring _ _ added => input.2.fails = true → added = none
  | _ => True

variable {env id}

variable (env) in
theorem retireProposal_get (e : Engine) {proposal : Memory} (same : proposal.id = id)
    (object : proposal.metadata.isObject = true) (decision : String) (added : Option Uuid) (now : Int) :
    ∃ m, (retireProposal env e proposal decision added now).memories.get id = some m ∧ m.state = .expired ∧
      m.metadata.get "review_decision" = some (.str decision) := by
  refine ⟨(MemoryRow.stored ⟨retiredProposal env proposal decision added now,none⟩).memory,?_,rfl,?_⟩
  · have here : (MemoryRow.stored ⟨retiredProposal env proposal decision added now,none⟩).id = id := same
    have written : (retireProposal env e proposal decision added now).memories =
        e.memories.upsert (MemoryRow.stored ⟨retiredProposal env proposal decision added now,none⟩) := rfl
    rw [written,MemoryTable.get,Table.find_upsert,if_pos here]
    rfl
  · change (retireMetadata env decision added now proposal.metadata).get "review_decision" = _
    obtain ⟨fields,equal⟩ := Json.isObject_iff.mp object
    rw [equal]
    have recorded : (((Json.obj fields).insert "review_decision" (.str decision)).insert "review_decided_at"
        (.str (env.rfc3339 now))).get "review_decision" = some (.str decision) := by
      rw [Json.get_insert_ne (by decide),Json.get_insert]
    cases added with
    | none => exact recorded
    | some accepted => exact (Json.get_insert_ne (by decide) _ _).trans recorded

end

section
variable (id : Uuid)

/-- The row of the proposal is written when it is retired, with the decision in its metadata. -/
def Retirable (proposal : Memory) : Prop := proposal.id = id ∧ proposal.metadata.isObject = true

def Found (e : Engine) (proposal : Memory) : Prop :=
  e.memories.get id = some proposal ∧ proposal.state = .pending ∧ Retirable id proposal

def Untouched (e : Engine) : DecisionStage → Prop
  | .adding before proposal .waiting => e = before ∧ Found id e proposal
  | .adding before proposal (.applying _ _ written _) => written = [] ∧ e = before ∧ Found id e proposal
  | .retiring before proposal none => e = before ∧ Found id e proposal
  | _ => False

def Committed : DecisionStage → Prop
  | .adding _ proposal (.applying _ _ written _) => written ≠ [] ∧ Retirable id proposal
  | .adding _ proposal (.capping _ _) => Retirable id proposal
  | .retiring _ proposal (some _) => Retirable id proposal
  | _ => False

def Over (e : Engine) (stage : DecisionStage) : Prop :=
  ¬stage.InFlight ∧ ∃ m, e.memories.get id = some m ∧ m.state = .expired ∧
    (stage.Added → m.metadata.get "review_decision" = some (.str "accepted"))

/-- When the call has failed, it had written nothing and the proposal was pending still. -/
def FailedClean (stage : DecisionStage) : Prop :=
  ∀ before after wrote, stage = .failed before after wrote →
    wrote = false ∧ after = before ∧ ∃ m, after.memories.get id = some m ∧ m.state = .pending

def Reviewers.Only (s : Reviewers) (i : Nat) : Prop :=
  ∀ j, j ≠ i → ¬(s.locals j).InFlight ∧ ¬(s.locals j).Effective

structure OneDecision (s : Reviewers) : Prop where
  failed : ∀ i, FailedClean id (s.locals i)
  phase : (∀ i, ¬(s.locals i).InFlight ∧ ¬(s.locals i).Effective) ∨ ∃ i, s.Only i ∧
    (Untouched id s.shared (s.locals i) ∨ Committed id (s.locals i) ∨ Over id s.shared (s.locals i))

end

section
variable {env : Env} {id : Uuid}

theorem Untouched.inFlight {e : Engine} {stage : DecisionStage} (untouched : Untouched id e stage) : stage.InFlight := by
  unfold Untouched at untouched
  split at untouched
  next => trivial
  next => trivial
  next => trivial
  next => exact untouched.elim

theorem Committed.inFlight {stage : DecisionStage} (committed : Committed id stage) : stage.InFlight := by
  unfold Committed at committed
  split at committed
  next => trivial
  next => trivial
  next => trivial
  next => exact committed.elim

theorem not_effective_failed (before after : Engine) : ¬(DecisionStage.failed before after false).Effective := by
  rintro (added | ⟨added,decided⟩)
  · cases added
  · cases decided

theorem not_effective_absent : ¬DecisionStage.absent.Effective := by
  rintro (added | ⟨added,decided⟩)
  · exact added
  · cases decided

theorem OneDecision.effective {s : Reviewers} (one : OneDecision id s) :
    ∃ i, ∀ j, (s.locals j).Effective → j = i := by
  rcases one.phase with idle | ⟨i,only,_⟩
  · exact ⟨0,fun j effective => absurd effective (idle j).2⟩
  · exact ⟨i,fun j effective => by_contra fun apart => (only j apart).2 effective⟩

theorem OneDecision.decidedOnce {s : Reviewers} (one : OneDecision id s) : DecidedOnce id s where
  once := by
    intro i j first second
    obtain ⟨l,only⟩ := one.effective
    rw [only i first,only j second]
  recorded := by
    rintro quiet ⟨j,added⟩
    rcases one.phase with idle | ⟨i,only,untouched | committed | ended⟩
    · exact absurd (Or.inl added) (idle j).2
    · exact absurd untouched.inFlight (quiet i)
    · exact absurd committed.inFlight (quiet i)
    · have same : j = i := by_contra fun apart => (only j apart).2 (Or.inl added)
      subst same
      obtain ⟨m,there,expired,accepted⟩ := ended.2
      exact ⟨m,there,expired,accepted added⟩
  failed := by
    intro i before after wrote given
    exact (one.failed i before after wrote given).2

theorem OneDecision.moved {s : Reviewers} (one : OneDecision id s) {i : Nat} (only : s.Only i) {e : Engine}
    {stage : DecisionStage} (failed : FailedClean id stage)
    (phase : (¬stage.InFlight ∧ ¬stage.Effective) ∨ Untouched id e stage ∨ Committed id stage ∨ Over id e stage) :
    OneDecision id ⟨e,Function.update s.locals i stage⟩ where
  failed := (Function.forall_update_iff s.locals (fun _ => FailedClean id)).mpr ⟨failed,fun j _ => one.failed j⟩
  phase := by
    rcases phase with idle | way
    · exact Or.inl ((Function.forall_update_iff s.locals (fun _ stage => ¬stage.InFlight ∧ ¬stage.Effective)).mpr
        ⟨idle,only⟩)
    · refine Or.inr ⟨i,?_,?_⟩
      · intro j apart
        change ¬(Function.update s.locals i stage j).InFlight ∧ ¬(Function.update s.locals i stage j).Effective
        rw [Function.update_of_ne apart]
        exact only j apart
      · change Untouched id e (Function.update s.locals i stage i) ∨ Committed id (Function.update s.locals i stage i) ∨
          Over id e (Function.update s.locals i stage i)
        rwa [Function.update_self]

theorem OneDecision.absent {s : Reviewers} (one : OneDecision id s) {i : Nat} {accepts : Bool} {tenant : String}
    (waiting : s.locals i = .waiting accepts tenant) :
    OneDecision id ⟨s.shared,Function.update s.locals i .absent⟩ := by
  have clean : FailedClean id .absent := fun _ _ _ given => by cases given
  rcases one.phase with idle | ⟨j,only,way⟩
  · exact one.moved (fun l _ => idle l) clean (Or.inl ⟨not_false,not_effective_absent⟩)
  · by_cases same : j = i
    · subst same
      rw [waiting] at way
      rcases way with untouched | committed | ⟨_,m,there,expired,_⟩
      · exact untouched.elim
      · exact committed.elim
      · exact one.moved only clean (Or.inr (Or.inr (Or.inr ⟨not_false,m,there,expired,False.elim⟩)))
    · refine ⟨?_,Or.inr ⟨j,?_,?_⟩⟩
      · exact (Function.forall_update_iff s.locals (fun _ => FailedClean id)).mpr ⟨clean,fun l _ => one.failed l⟩
      · exact (Function.forall_update_iff s.locals (fun l stage => l ≠ j → ¬stage.InFlight ∧ ¬stage.Effective)).mpr
          ⟨fun _ => ⟨not_false,not_effective_absent⟩,fun l _ => only l⟩
      · change Untouched id s.shared (Function.update s.locals i .absent j) ∨
          Committed id (Function.update s.locals i .absent j) ∨ Over id s.shared (Function.update s.locals i .absent j)
        rwa [Function.update_of_ne same]

/-- The call that is under way is the only one, and it has not passed the point of no return or is bound to decide. -/
theorem OneDecision.flying {s : Reviewers} (one : OneDecision id s) {i : Nat} (flying : (s.locals i).InFlight) :
    s.Only i ∧ (Untouched id s.shared (s.locals i) ∨ Committed id (s.locals i)) := by
  rcases one.phase with idle | ⟨j,only,way⟩
  · exact absurd flying (idle i).1
  · have same : i = j := by_contra fun apart => (only i apart).1 flying
    subst same
    rcases way with untouched | committed | ended
    · exact ⟨only,Or.inl untouched⟩
    · exact ⟨only,Or.inr committed⟩
    · exact absurd flying ended.1

theorem AddStage.settle_clean {before e : Engine} {proposal : Memory} {stage : AddStage} (unwritten : stage.wrote = false)
    (same : e = before) (there : ∃ m, e.memories.get id = some m ∧ m.state = .pending) :
    FailedClean id (.settle before e proposal stage) := by
  subst same
  intro a b wrote given
  unfold DecisionStage.settle at given
  split at given
  next => cases given
  next =>
    cases given
    exact ⟨unwritten,rfl,there⟩
  next => cases given

theorem FailedClean.of_inFlight {stage : DecisionStage} (flying : stage.InFlight) : FailedClean id stage := by
  rintro before after wrote rfl
  exact flying.elim

theorem OneDecision.adding {s : Reviewers} (one : OneDecision id s) {i : Nat} {tick : DecisionTick} {before : Engine}
    {proposal : Memory} {inner : AddStage} (stage : s.locals i = .adding before proposal inner)
    (alone : AloneWithIt id s (i,tick)) :
    let moved := AddCall.advance env ⟨proposalInput proposal,false⟩ s.shared tick.draw tick.fails inner
    OneDecision id ⟨moved.1,Function.update s.locals i (.settle before moved.1 proposal moved.2)⟩ := by
  obtain ⟨only,way⟩ := one.flying (i := i) (by rw [stage]; trivial)
  rw [stage] at way
  cases inner with
  | waiting =>
    obtain ⟨same,found⟩ := way.resolve_right not_false
    cases ok : memoryPlan env s.shared tick.draw (proposalInput proposal) with
    | error err =>
      simp only [AddCall.advance,ok]
      have clean : FailedClean id (.settle before s.shared proposal (.done [] (.error err))) :=
        AddStage.settle_clean rfl same ⟨proposal,found.1,found.2.1⟩
      exact one.moved only clean (Or.inl ⟨not_false,not_effective_failed before s.shared⟩)
    | ok planned =>
      simp only [AddCall.advance,ok,DecisionStage.settle]
      exact one.moved only (.of_inFlight trivial) (Or.inr (Or.inl ⟨rfl,same,found⟩))
  | applying add stamp written rows =>
    have retirable : Retirable id proposal := by
      rcases way with ⟨_,_,found⟩ | committed
      · exact found.2.2
      · exact committed.2
    cases rows with
    | nil => exact one.moved only (.of_inFlight trivial) (Or.inr (Or.inr (Or.inl retirable)))
    | cons row rows =>
      cases fails : tick.fails with
      | false =>
        simp only [AddCall.advance,DecisionStage.settle,Bool.false_eq_true,if_false]
        exact one.moved only (.of_inFlight trivial) (Or.inr (Or.inr (Or.inl ⟨by simp,retirable⟩)))
      | true =>
        have first : written = [] := by
          simp only [AloneWithIt,stage] at alone
          exact alone fails
        subst first
        obtain ⟨_,same,found⟩ := way.resolve_right (fun committed => committed.1 rfl)
        simp only [AddCall.advance,if_true]
        have clean : FailedClean id (.settle before s.shared proposal (.done [] (.error upsertFailed))) :=
          AddStage.settle_clean rfl same ⟨proposal,found.1,found.2.1⟩
        exact one.moved only clean (Or.inl ⟨not_false,not_effective_failed before s.shared⟩)
  | capping add written =>
    have retirable : Retirable id proposal := way.resolve_left not_false
    exact one.moved only (.of_inFlight trivial) (Or.inr (Or.inr (Or.inl retirable)))
  | done written answer => exact (way.elim not_false not_false).elim

theorem OneDecision.retiring {s : Reviewers} (one : OneDecision id s) {i : Nat} {tick : DecisionTick} {before : Engine}
    {proposal : Memory} {added : Option Uuid} (stage : s.locals i = .retiring before proposal added)
    (alone : AloneWithIt id s (i,tick)) :
    let moved := (DecisionStage.retiring before proposal added).advance env id s.shared tick
    OneDecision id ⟨moved.1,Function.update s.locals i moved.2⟩ := by
  obtain ⟨only,way⟩ := one.flying (i := i) (by rw [stage]; trivial)
  rw [stage] at way
  cases fails : tick.fails with
  | true =>
    have unwritten : added = none := by
      simp only [AloneWithIt,stage] at alone
      exact alone fails
    subst unwritten
    obtain ⟨same,found⟩ := way.resolve_right not_false
    simp only [DecisionStage.advance,fails,if_true]
    refine one.moved only ?_ (Or.inl ⟨not_false,not_effective_failed before s.shared⟩)
    rintro a b wrote given
    cases given
    exact ⟨rfl,same,proposal,found.1,found.2.1⟩
  | false =>
    have retirable : Retirable id proposal := by
      cases added with
      | none => exact (way.resolve_right not_false).2.2.2
      | some accepted => exact way.resolve_left not_false
    obtain ⟨same,object⟩ := retirable
    obtain ⟨m,there,expired,recorded⟩ :=
      retireProposal_get env s.shared same object (decisionText added) added tick.now
    simp only [DecisionStage.advance,fails,Bool.false_eq_true,if_false]
    refine one.moved only (fun _ _ _ given => by cases given) (Or.inr (Or.inr (Or.inr ⟨not_false,m,there,expired,?_⟩)))
    intro accepted
    have text : decisionText added = "accepted" := if_pos accepted
    rw [recorded,text]

theorem OneDecision.step {s : Reviewers} (one : OneDecision id s) {input : Nat × DecisionTick}
    (alone : AloneWithIt id s input) : OneDecision id (Reviewers.next env id s input) := by
  obtain ⟨i,tick⟩ := input
  have next (stage : DecisionStage) (here : s.locals i = stage) :
      Reviewers.next env id s (i,tick) = ⟨(stage.advance env id s.shared tick).1,
        Function.update s.locals i (stage.advance env id s.shared tick).2⟩ := by
    rw [← here]
    rfl
  have still (stage : DecisionStage) (here : s.locals i = stage)
      (moved : stage.advance env id s.shared tick = (s.shared,stage)) :
      OneDecision id (Reviewers.next env id s (i,tick)) := by
    rw [next stage here,moved,← here,Function.update_eq_self]
    exact one
  cases stage : s.locals i with
  | waiting accepts tenant =>
    rw [next _ stage]
    cases found : pendingOf s.shared id tenant with
    | none =>
      simp only [DecisionStage.advance,found]
      exact one.absent stage
    | some proposal =>
      obtain ⟨there,pending⟩ := pendingOf_found found
      simp only [AloneWithIt,stage] at alone
      obtain ⟨quiet,object⟩ := alone proposal found
      have same : proposal.id = id := by
        obtain ⟨row,_,rfl,keyed⟩ := MemoryTable.get_eq_some there
        exact keyed
      have found' : Found id s.shared proposal := ⟨there,pending,same,object⟩
      have only : s.Only i := by
        rcases one.phase with idle | ⟨j,_,untouched | committed | ⟨_,m,same,expired,_⟩⟩
        · exact fun l _ => idle l
        · exact absurd untouched.inFlight (quiet j)
        · exact absurd committed.inFlight (quiet j)
        · rw [there] at same
          cases same
          cases pending.symm.trans expired
      simp only [DecisionStage.advance,found]
      cases accepts with
      | true => exact one.moved only (.of_inFlight trivial) (Or.inr (Or.inl ⟨rfl,found'⟩))
      | false => exact one.moved only (.of_inFlight trivial) (Or.inr (Or.inl ⟨rfl,found'⟩))
  | adding before proposal inner =>
    rw [next _ stage]
    exact one.adding stage alone
  | retiring before proposal added =>
    rw [next _ stage]
    exact one.retiring stage alone
  | decided added => exact still _ stage rfl
  | absent => exact still _ stage rfl
  | failed before after wrote => exact still _ stage rfl

/-- In every run of reviewers in which one finds the proposal pending only when alone with it, and in which only the
first write of a call fails, the proposal is decided on at most once. -/
theorem proposal_decided_once (s : Reviewers) (inputs : List (Nat × DecisionTick))
    (start : ∀ i, ∃ accepts tenant, s.locals i = .waiting accepts tenant)
    (alone : Along (Reviewers.next env id) (AloneWithIt id) s inputs) :
    Throughout (Reviewers.next env id) (DecidedOnce id) s inputs := by
  have one : OneDecision id s := by
    refine ⟨?_,Or.inl ?_⟩
    · intro i before after wrote given
      obtain ⟨accepts,tenant,waiting⟩ := start i
      cases waiting.symm.trans given
    · intro i
      obtain ⟨accepts,tenant,waiting⟩ := start i
      rw [waiting]
      refine ⟨not_false,?_⟩
      rintro (added | ⟨added,decided⟩)
      · exact added
      · cases decided
  have reached := alone.throughout one (fun s input one alone => one.step alone)
  exact fun n => (reached n).decidedOnce

end

/-- Alone with it as far as the first `n` calls go. -/
def AloneBelow (n : Nat) (id : Uuid) (s : Reviewers) (input : Nat × DecisionTick) : Prop :=
  match s.locals input.1 with
  | .waiting _ tenant =>
    ((pendingOf s.shared id tenant).all (fun m => m.metadata.isObject)) = true ∧
      ((pendingOf s.shared id tenant).isSome = true → ∀ i < n, ¬(s.locals i).InFlight)
  | .adding _ _ (.applying _ _ written _) => input.2.fails = true → written.isEmpty = true
  | .retiring _ _ added => input.2.fails = true → added.isNone = true
  | _ => True

instance : DecidablePred DecisionStage.InFlight
  | .waiting _ _ => isFalse id
  | .adding _ _ _ => isTrue trivial
  | .retiring _ _ _ => isTrue trivial
  | .decided _ => isFalse id
  | .absent => isFalse id
  | .failed _ _ _ => isFalse id

instance : DecidablePred DecisionStage.Added
  | .waiting _ _ => isFalse id
  | .adding _ _ stage => inferInstanceAs (Decidable (stage.wrote = true))
  | .retiring _ _ added => inferInstanceAs (Decidable (added.isSome = true))
  | .decided added => inferInstanceAs (Decidable (added.isSome = true))
  | .absent => isFalse id
  | .failed _ _ wrote => inferInstanceAs (Decidable (wrote = true))

instance (n : Nat) (id : Uuid) (s : Reviewers) (input : Nat × DecisionTick) : Decidable (AloneBelow n id s input) :=
  match stage : s.locals input.1 with
  | .waiting _ tenant => decidable_of_iff (((pendingOf s.shared id tenant).all (fun m => m.metadata.isObject)) = true ∧
      ((pendingOf s.shared id tenant).isSome = true → ∀ i < n, ¬(s.locals i).InFlight)) (by simp [AloneBelow,stage])
  | .adding _ _ (.applying _ _ written _) => decidable_of_iff (input.2.fails = true → written.isEmpty = true)
      (by simp [AloneBelow,stage])
  | .retiring _ _ added => decidable_of_iff (input.2.fails = true → added.isNone = true) (by simp [AloneBelow,stage])
  | .adding _ _ .waiting => isTrue (by simp [AloneBelow,stage])
  | .adding _ _ (.capping _ _) => isTrue (by simp [AloneBelow,stage])
  | .adding _ _ (.done _ _) => isTrue (by simp [AloneBelow,stage])
  | .decided _ => isTrue (by simp [AloneBelow,stage])
  | .absent => isTrue (by simp [AloneBelow,stage])
  | .failed _ _ _ => isTrue (by simp [AloneBelow,stage])

theorem alone_of_below {env : Env} {id : Uuid} {n : Nat} {s : Reviewers} {inputs : List (Nat × DecisionTick)}
    (bound : ∀ input ∈ inputs, input.1 < n) (rest : ∀ i, n ≤ i → ∃ accepts tenant, s.locals i = .waiting accepts tenant)
    (along : Along (Reviewers.next env id) (AloneBelow n id) s inputs) :
    Along (Reviewers.next env id) (AloneWithIt id) s inputs := by
  induction inputs generalizing s with
  | nil => trivial
  | cons input inputs ih =>
    refine ⟨?_,ih (fun other inside => bound other (List.mem_cons_of_mem _ inside)) ?_ along.2⟩
    · have first := along.1
      unfold AloneBelow at first
      unfold AloneWithIt
      split at first
      next =>
        intro m found
        rw [found] at first
        refine ⟨?_,first.1⟩
        intro i
        by_cases low : i < n
        · exact first.2 rfl i low
        · obtain ⟨accepts,tenant,waiting⟩ := rest i (Nat.le_of_not_lt low)
          rw [waiting]
          exact not_false
      next => exact fun fails => List.isEmpty_iff.mp (first fails)
      next => exact fun fails => Option.isNone_iff_eq_none.mp (first fails)
      next => trivial
    · intro i high
      have apart : i ≠ input.1 := fun equal => by
        have low := bound input List.mem_cons_self
        omega
      rw [Reviewers.next,Processes.step_other _ s apart]
      exact rest i high

private def reviewTick (d : Draw) (fails : Bool) : DecisionTick := ⟨d,2000,fails⟩

/-- A store with one proposal, and reviewers of whom the first `n` accept and all others reject. -/
def quoteReviewers (n : Nat) : Reviewers where
  shared := (memoryPropose .ascii (.empty .default 2) (.plain 1000 1)
    (MemoryInput.new (.tenant "acme") "send a quote")).2
  locals i := .waiting (decide (i < n)) "acme"

/-- An acceptance of which the first write fails, then a rejection and a last acceptance that comes too late. -/
def quoteTurns : List (Nat × DecisionTick) :=
  [(0,reviewTick (.plain 1000 2) false),(0,reviewTick (.plain 1000 2) false),(0,reviewTick (.plain 1000 2) true),
    (2,reviewTick (.plain 1000 3) false),(2,reviewTick (.plain 1000 3) false),(1,reviewTick (.plain 1000 4) false)]

theorem proposal_decided_once_quote :
    Throughout (Reviewers.next .ascii 1) (DecidedOnce 1) (quoteReviewers 2) quoteTurns := by
  refine proposal_decided_once (quoteReviewers 2) quoteTurns (fun i => ⟨_,_,rfl⟩) ?_
  exact alone_of_below (by decide : ∀ input ∈ quoteTurns, input.1 < 3) (fun i _ => ⟨_,_,rfl⟩) (by decide +kernel)

/-- Both reviewers find the proposal before either adds its content. -/
def quoteCrossed : List (Nat × DecisionTick) :=
  [(0,reviewTick (.plain 1000 2) false),(1,reviewTick (.plain 1000 3) false),(0,reviewTick (.plain 1000 2) false),
    (1,reviewTick (.plain 1000 3) false),(0,reviewTick (.plain 1000 2) false),(1,reviewTick (.plain 1000 3) false)]

private theorem quoteCrossed_added (i : Nat) (one : i < 2) :
    ((run (Reviewers.next .ascii 1) (quoteReviewers 2) quoteCrossed).locals i).Added := by
  revert i
  decide +kernel

theorem crossed_reviewers_decide_twice :
    ¬Throughout (Reviewers.next .ascii 1) (DecidedOnce 1) (quoteReviewers 2) quoteCrossed := by
  intro decided
  have last : DecidedOnce 1 (run (Reviewers.next .ascii 1) (quoteReviewers 2) quoteCrossed) := decided 6
  have same : 0 = 1 := last.once 0 1 (Or.inl (quoteCrossed_added 0 (by decide)))
    (Or.inl (quoteCrossed_added 1 (by decide)))
  exact absurd same (by decide)

end Ecphoria
