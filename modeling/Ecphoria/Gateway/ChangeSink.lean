import Ecphoria.Cognition.Types
import Ecphoria.Memory.StateStore
import Ecphoria.Library.Broadcast
import Ecphoria.Library.Outputs
import Mathlib.Data.List.Chain

/-! The sink of the change streams: one task takes the changes of memories and states as they come and posts those that it
takes on the leader, each up to three times. -/
namespace Ecphoria
open Library

structure Change where
  stream : String
  id : String
  event : String
  body : Json

def MemoryChange.json (c : MemoryChange) : Json :=
  let required := Json.obj [("event",.str c.event),("id",.str c.id.toString),("tenant_id",.str c.tenantId)]
  let subject := c.subject.elim required (fun s => required.insert "subject" (.str s))
  c.userId.elim subject (fun user => subject.insert "user_id" (.str user))

def StateChange.json (c : StateChange) : Json :=
  .obj [("agent_id",.str c.agentId),("deleted",.bool c.deleted),("key",.str c.key),("value",c.value),("version",.int c.version)]

def envelope (stream id event : String) (change : Json) : Change :=
  match change with
  | .obj fields => ⟨stream,id,event,((Json.obj fields).insert "stream" (.str stream)).insert "event" (.str event)⟩
  | other => ⟨stream,id,event,.obj [("change",other),("event",.str event),("stream",.str stream)]⟩

def MemoryChange.shipped (c : MemoryChange) : Change := envelope "memory" c.id.toString c.event c.json

def StateChange.shipped (c : StateChange) : Change :=
  envelope "state" (c.agentId ++ "/" ++ c.key) (if c.deleted then "deleted" else "set") c.json

/-- Where the task is: waiting for a change, about to look who leads, or posting with some attempts behind it. -/
inductive SinkPhase where
  | waiting
  | taken (change : Change)
  | posting (change : Change) (attempts : Nat)

def maxAttempts : Nat := 3

structure ChangeSink where
  memories : Subscription MemoryChange 1024
  states : Subscription StateChange 1024
  leads : Option Bool
  phase : SinkPhase

/-- What happens around the sink and in it. A post comes with whether it was answered with success. -/
inductive SinkEvent where
  | memory (change : MemoryChange)
  | state (change : StateChange)
  | lead (leads : Bool)
  | takeMemory
  | takeState
  | check
  | post (accepted : Bool)

structure SinkPost where
  change : Change
  attempt : Nat
  accepted : Bool

/-- What an event takes from the streams, which change is found to be for this node, and what is posted. -/
structure SinkEffect where
  memory : Received MemoryChange
  state : Received StateChange
  begun : List Change
  posts : List SinkPost

def SinkEffect.quiet : SinkEffect := ⟨.nothing,.nothing,[],[]⟩

def SinkEffect.taken (effect : SinkEffect) : List Change :=
  effect.memory.items.map MemoryChange.shipped ++ effect.state.items.map StateChange.shipped

namespace SinkPhase

def held : SinkPhase → List Change
  | .taken change => [change]
  | _ => []

/-- The phase after a receipt: the task goes on waiting unless there was an item. -/
def ofChange : List Change → SinkPhase
  | [] => .waiting
  | change :: _ => .taken change

end SinkPhase

namespace ChangeSink

def spawn (leads : Option Bool) : ChangeSink := ⟨.start,.start,leads,.waiting⟩

def isLeader (s : ChangeSink) : Bool := s.leads.getD true

def act (s : ChangeSink) : SinkEvent → ChangeSink × SinkEffect
  | .memory c => ({ s with memories := s.memories.publish c },.quiet)
  | .state c => ({ s with states := s.states.publish c },.quiet)
  | .lead leads => ({ s with leads := s.leads.map (fun _ => leads) },.quiet)
  | .takeMemory =>
    match s.phase with
    | .waiting =>
      let (got,memories) := s.memories.receive
      ({ s with memories := memories,phase := .ofChange (got.items.map MemoryChange.shipped) },{ SinkEffect.quiet with memory := got })
    | _ => (s,.quiet)
  | .takeState =>
    match s.phase with
    | .waiting =>
      let (got,states) := s.states.receive
      ({ s with states := states,phase := .ofChange (got.items.map StateChange.shipped) },{ SinkEffect.quiet with state := got })
    | _ => (s,.quiet)
  | .check =>
    match s.phase with
    | .taken change =>
      if s.isLeader then ({ s with phase := .posting change 0 },{ SinkEffect.quiet with begun := [change] })
      else ({ s with phase := .waiting },.quiet)
    | _ => (s,.quiet)
  | .post accepted =>
    match s.phase with
    | .posting change attempts =>
      ({ s with phase := if accepted = true ∨ attempts + 1 = maxAttempts then .waiting else .posting change (attempts + 1) },
        { SinkEffect.quiet with posts := [⟨change,attempts + 1,accepted⟩] })
    | _ => (s,.quiet)

def step (s : ChangeSink) (i : SinkEvent) : ChangeSink := (s.act i).1

def effect (s : ChangeSink) (i : SinkEvent) : SinkEffect := (s.act i).2

end ChangeSink

def memoryChanges : SinkEvent → List MemoryChange
  | .memory c => [c]
  | _ => []

def stateChanges : SinkEvent → List StateChange
  | .state c => [c]
  | _ => []

namespace ChangeSink

inductive Acts (s : ChangeSink) : SinkEvent → ChangeSink × SinkEffect → Prop
  | memory (c : MemoryChange) : Acts s (.memory c) ({ s with memories := s.memories.publish c },.quiet)
  | state (c : StateChange) : Acts s (.state c) ({ s with states := s.states.publish c },.quiet)
  | still (i : SinkEvent) (leads : Option Bool) (memories : memoryChanges i = []) (states : stateChanges i = []) :
      Acts s i ({ s with leads := leads },.quiet)
  | tookMemory (waits : s.phase = .waiting) : Acts s .takeMemory
      ({ s with memories := s.memories.receive.2,phase := .ofChange (s.memories.receive.1.items.map MemoryChange.shipped) },
        { SinkEffect.quiet with memory := s.memories.receive.1 })
  | tookState (waits : s.phase = .waiting) : Acts s .takeState
      ({ s with states := s.states.receive.2,phase := .ofChange (s.states.receive.1.items.map StateChange.shipped) },
        { SinkEffect.quiet with state := s.states.receive.1 })
  | begins (change : Change) (holds : s.phase = .taken change) (leads : s.isLeader = true) :
      Acts s .check ({ s with phase := .posting change 0 },{ SinkEffect.quiet with begun := [change] })
  | skips (change : Change) (holds : s.phase = .taken change) (follows : s.isLeader = false) :
      Acts s .check ({ s with phase := .waiting },.quiet)
  | posts (change : Change) (attempts : Nat) (accepted : Bool) (holds : s.phase = .posting change attempts) : Acts s (.post accepted)
      ({ s with phase := if accepted = true ∨ attempts + 1 = maxAttempts then .waiting else .posting change (attempts + 1) },
        { SinkEffect.quiet with posts := [⟨change,attempts + 1,accepted⟩] })

theorem act_acts (s : ChangeSink) (i : SinkEvent) : s.Acts i (s.act i) := by
  cases i with
  | memory c => exact .memory c
  | state c => exact .state c
  | lead leads => exact .still _ _ rfl rfl
  | takeMemory =>
    cases phase : s.phase with
    | waiting =>
      simp only [act,phase]
      exact .tookMemory phase
    | taken change => simpa only [act,phase] using Acts.still _ s.leads rfl rfl
    | posting change attempts => simpa only [act,phase] using Acts.still _ s.leads rfl rfl
  | takeState =>
    cases phase : s.phase with
    | waiting =>
      simp only [act,phase]
      exact .tookState phase
    | taken change => simpa only [act,phase] using Acts.still _ s.leads rfl rfl
    | posting change attempts => simpa only [act,phase] using Acts.still _ s.leads rfl rfl
  | check =>
    cases phase : s.phase with
    | waiting => simpa only [act,phase] using Acts.still _ s.leads rfl rfl
    | taken change =>
      simp only [act,phase]
      split
      next leads => exact .begins change phase leads
      next follows => exact .skips change phase (by simpa using follows)
    | posting change attempts => simpa only [act,phase] using Acts.still _ s.leads rfl rfl
  | post accepted =>
    cases phase : s.phase with
    | waiting => simpa only [act,phase] using Acts.still _ s.leads rfl rfl
    | taken change => simpa only [act,phase] using Acts.still _ s.leads rfl rfl
    | posting change attempts =>
      simp only [act,phase]
      exact .posts change attempts accepted phase

theorem moves_memories (s : ChangeSink) (i : SinkEvent) :
    s.memories.Moves (memoryChanges i) (s.effect i).memory (s.step i).memories := by
  have acts := s.act_acts i
  rw [effect,step]
  generalize s.act i = done at acts
  cases acts with
  | memory c => exact .publish c
  | tookMemory waits => exact .receive
  | still i leads memories states =>
    rw [memories]
    exact .rest
  | state c => exact .rest
  | tookState waits => exact .rest
  | begins change holds leads => exact .rest
  | skips change holds follows => exact .rest
  | posts change attempts accepted holds => exact .rest

theorem moves_states (s : ChangeSink) (i : SinkEvent) : s.states.Moves (stateChanges i) (s.effect i).state (s.step i).states := by
  have acts := s.act_acts i
  rw [effect,step]
  generalize s.act i = done at acts
  cases acts with
  | state c => exact .publish c
  | tookState waits => exact .receive
  | still i leads memories states =>
    rw [states]
    exact .rest
  | memory c => exact .rest
  | tookMemory waits => exact .rest
  | begins change holds leads => exact .rest
  | skips change holds follows => exact .rest
  | posts change attempts accepted holds => exact .rest

theorem held_ofChange (changes : List Change) : (SinkPhase.ofChange changes).held.Sublist changes := by
  cases changes with
  | nil => exact .slnil
  | cons change changes => exact (List.nil_sublist changes).cons_cons change

theorem begun_taken (s : ChangeSink) (i : SinkEvent) :
    ((s.effect i).begun ++ (s.step i).phase.held).Sublist (s.phase.held ++ (s.effect i).taken) := by
  have acts := s.act_acts i
  rw [effect,step]
  generalize s.act i = done at acts
  cases acts with
  | memory c => exact List.sublist_append_left _ _
  | state c => exact List.sublist_append_left _ _
  | still i leads memories states => exact List.sublist_append_left _ _
  | tookMemory waits => exact ((held_ofChange _).trans (List.sublist_append_left _ _)).trans (List.sublist_append_right _ _)
  | tookState waits => exact ((held_ofChange _).trans (List.sublist_append_right _ _)).trans (List.sublist_append_right _ _)
  | begins change holds leads => simp [holds,SinkPhase.held]
  | skips change holds follows => simp [SinkPhase.held,SinkEffect.quiet]
  | posts change attempts accepted holds =>
    simp only [SinkEffect.quiet]
    split
    next => simp [SinkPhase.held]
    next => simp [SinkPhase.held]

end ChangeSink

def SinkPost.final (p : SinkPost) : Bool := p.accepted || p.attempt = maxAttempts

/-- A post is the first of a change once the change before is done with, and else the next attempt at the same one. -/
def SinkPost.Follows (first second : SinkPost) : Prop :=
  first.final = true ∧ second.attempt = 1 ∨
    first.final = false ∧ second.change = first.change ∧ second.attempt = first.attempt + 1

def firsts (posts : List SinkPost) : List Change := (posts.filter (fun p => p.attempt = 1)).map SinkPost.change

/-- Where a task is, after some posts of the changes that it has begun. -/
inductive PostedUnder (posts : List SinkPost) (begun : List Change) : SinkPhase → Prop
  | idle (phase : SinkPhase) (rests : ∀ change attempts, phase ≠ .posting change attempts) (done : ∀ p ∈ posts.getLast?, p.final = true)
      (all : firsts posts = begun) : PostedUnder posts begun phase
  | starts (change : Change) (done : ∀ p ∈ posts.getLast?, p.final = true) (all : firsts posts ++ [change] = begun) :
      PostedUnder posts begun (.posting change 0)
  | again (change : Change) (attempts : Nat) (last : posts.getLast? = some ⟨change,attempts + 1,false⟩)
      (few : attempts + 1 < maxAttempts) (all : firsts posts = begun) : PostedUnder posts begun (.posting change (attempts + 1))

structure Posted (posts : List SinkPost) (begun : List Change) (phase : SinkPhase) : Prop where
  chain : posts.IsChain SinkPost.Follows
  few : ∀ p ∈ posts, 1 ≤ p.attempt ∧ p.attempt ≤ maxAttempts
  under : PostedUnder posts begun phase

theorem firsts_snoc (posts : List SinkPost) (p : SinkPost) :
    firsts (posts ++ [p]) = firsts posts ++ if p.attempt = 1 then [p.change] else [] := by
  rw [firsts,firsts,List.filter_append,List.map_append]
  split
  next one => simp [one]
  next more => simp [more]

section
variable {posts : List SinkPost} {begun : List Change} {phase : SinkPhase}

theorem Posted.quiet (posted : Posted posts begun phase) {other : SinkPhase}
    (rests : ∀ change attempts, phase ≠ .posting change attempts) (rests' : ∀ change attempts, other ≠ .posting change attempts) :
    Posted posts begun other := by
  refine ⟨posted.chain,posted.few,?_⟩
  cases posted.under with
  | idle _ _ done all => exact .idle _ rests' done all
  | starts change done all => exact absurd rfl (rests change 0)
  | again change attempts last few all => exact absurd rfl (rests change _)

theorem Posted.post {change : Change} {attempts : Nat} (posted : Posted posts begun (.posting change attempts)) (accepted : Bool) :
    Posted (posts ++ [⟨change,attempts + 1,accepted⟩]) begun
      (if accepted = true ∨ attempts + 1 = maxAttempts then .waiting else .posting change (attempts + 1)) := by
  have facts : (∀ p ∈ posts.getLast?, p.Follows ⟨change,attempts + 1,accepted⟩) ∧ attempts + 1 ≤ maxAttempts ∧
      firsts (posts ++ [⟨change,attempts + 1,accepted⟩]) = begun := by
    cases posted.under with
    | idle _ rests done all => exact absurd rfl (rests change attempts)
    | starts _ done all => exact ⟨fun p last => .inl ⟨done p last,rfl⟩,by decide,by rw [firsts_snoc,if_pos rfl,all]⟩
    | again _ before last few all =>
      refine ⟨fun p other => .inr ?_,few,by rw [firsts_snoc,if_neg (by simp),List.append_nil,all]⟩
      obtain rfl := Option.some_inj.mp (last.symm.trans other)
      refine ⟨?_,rfl,rfl⟩
      simp only [SinkPost.final,Bool.false_or,decide_eq_false_iff_not]
      omega
  obtain ⟨follows,most,all⟩ := facts
  refine ⟨List.isChain_append.mpr ⟨posted.chain,List.isChain_singleton _,fun p last q head => ?_⟩,fun p inside => ?_,?_⟩
  · obtain rfl := Option.some_inj.mp head
    exact follows p last
  · rcases List.mem_append.mp inside with before | here
    · exact posted.few p before
    · rw [List.mem_singleton.mp here]
      exact ⟨Nat.succ_pos attempts,most⟩
  · split
    next ends =>
      refine .idle _ nofun (fun p last => ?_) all
      rw [List.getLast?_concat] at last
      obtain rfl := Option.some_inj.mp last
      simpa [SinkPost.final] using ends
    next more =>
      obtain ⟨refused,short⟩ := not_or.mp more
      refine .again change attempts ?_ (by omega) all
      rw [List.getLast?_concat,Bool.eq_false_iff.mpr refused]

theorem ChangeSink.step_posted {s : ChangeSink} (posted : Posted posts begun s.phase) (i : SinkEvent) :
    Posted (posts ++ (s.effect i).posts) (begun ++ (s.effect i).begun) (s.step i).phase := by
  have acts := s.act_acts i
  rw [effect,step]
  generalize s.act i = done at acts
  cases acts with
  | memory c => simpa [SinkEffect.quiet] using posted
  | state c => simpa [SinkEffect.quiet] using posted
  | still i leads memories states => simpa [SinkEffect.quiet] using posted
  | tookMemory waits =>
    rw [waits] at posted
    simp only [SinkEffect.quiet,List.append_nil]
    refine posted.quiet nofun (fun change attempts => ?_)
    cases s.memories.receive.1 <;> nofun
  | tookState waits =>
    rw [waits] at posted
    simp only [SinkEffect.quiet,List.append_nil]
    refine posted.quiet nofun (fun change attempts => ?_)
    cases s.states.receive.1 <;> nofun
  | begins change holds leads =>
    rw [holds] at posted
    simp only [SinkEffect.quiet,List.append_nil]
    refine ⟨posted.chain,posted.few,?_⟩
    cases posted.under with
    | idle _ rests done all => exact .starts change done (by rw [all])
  | skips change holds follows =>
    rw [holds] at posted
    have rest : Posted posts begun .waiting := posted.quiet nofun nofun
    simpa [SinkEffect.quiet] using rest
  | posts change attempts accepted holds =>
    rw [holds] at posted
    simpa [SinkEffect.quiet] using posted.post accepted

theorem PostedUnder.front (under : PostedUnder posts begun phase) : firsts posts <+: begun := by
  cases under with
  | idle _ rests done all => exact ⟨[],by rw [List.append_nil,all]⟩
  | starts change done all => exact ⟨[change],all⟩
  | again change attempts last few all => exact ⟨[],by rw [List.append_nil,all]⟩

end

theorem envelope_stream (stream id event : String) (change : Json) : (envelope stream id event change).stream = stream := by
  unfold envelope
  split <;> rfl

namespace ChangeSink

theorem taken_memories (effect : SinkEffect) :
    effect.taken.filter (fun c => c.stream = "memory") = effect.memory.items.map MemoryChange.shipped := by
  have own (c : MemoryChange) : c.shipped.stream = "memory" := envelope_stream _ _ _ _
  have other (c : StateChange) : c.shipped.stream = "state" := envelope_stream _ _ _ _
  rw [SinkEffect.taken,List.filter_append,List.filter_eq_self.mpr,List.filter_eq_nil_iff.mpr,List.append_nil]
  · rintro c inside
    obtain ⟨change,_,rfl⟩ := List.mem_map.mp inside
    simp [other]
  · rintro c inside
    obtain ⟨change,_,rfl⟩ := List.mem_map.mp inside
    simp [own]

theorem taken_states (effect : SinkEffect) :
    effect.taken.filter (fun c => c.stream = "state") = effect.state.items.map StateChange.shipped := by
  have own (c : StateChange) : c.shipped.stream = "state" := envelope_stream _ _ _ _
  have other (c : MemoryChange) : c.shipped.stream = "memory" := envelope_stream _ _ _ _
  rw [SinkEffect.taken,List.filter_append,List.filter_eq_nil_iff.mpr,List.filter_eq_self.mpr,List.nil_append]
  · rintro c inside
    obtain ⟨change,_,rfl⟩ := List.mem_map.mp inside
    simp [own]
  · rintro c inside
    obtain ⟨change,_,rfl⟩ := List.mem_map.mp inside
    simp [other]

theorem begun_leads (s : ChangeSink) (i : SinkEvent) {c : Change} (found : c ∈ (s.effect i).begun) :
    s.isLeader = true ∧ s.phase = .taken c := by
  have acts := s.act_acts i
  rw [effect] at found
  generalize s.act i = done at acts found
  cases acts with
  | begins change holds leads =>
    obtain rfl := List.mem_singleton.mp found
    exact ⟨leads,holds⟩
  | memory c => cases found
  | state c => cases found
  | still i leads memories states => cases found
  | tookMemory waits => cases found
  | tookState waits => cases found
  | skips change holds follows => cases found
  | posts change attempts accepted holds => cases found

theorem begun_published (leads : Option Bool) (inputs : List SinkEvent) :
    let begun := outputs step (fun s i => (s.effect i).begun) (spawn leads) inputs
    (begun.filter (fun c => c.stream = "memory")).Sublist ((inputs.flatMap memoryChanges).map MemoryChange.shipped) ∧
      (begun.filter (fun c => c.stream = "state")).Sublist ((inputs.flatMap stateChanges).map StateChange.shipped) := by
  intro begun
  have passed : begun.Sublist (outputs step (fun s i => (s.effect i).taken) (spawn leads) inputs) :=
    (List.sublist_append_left _ _).trans (@outputs_passed _ _ _ step _ _ (fun s => s.phase.held) begun_taken (spawn leads) inputs)
  have memories := (subscription_books moves_memories (spawn leads) inputs).1
  have states := (subscription_books moves_states (spawn leads) inputs).1
  rw [outputs_inputs] at memories states
  constructor
  · refine (passed.filter _).trans ?_
    rw [outputs_filter]
    simp only [taken_memories]
    rw [← outputs_map]
    exact (((List.sublist_append_left _ _).trans memories).map MemoryChange.shipped)
  · refine (passed.filter _).trans ?_
    rw [outputs_filter]
    simp only [taken_states]
    rw [← outputs_map]
    exact (((List.sublist_append_left _ _).trans states).map StateChange.shipped)

theorem run_posted (leads : Option Bool) (inputs : List SinkEvent) :
    Posted (outputs step (fun s i => (s.effect i).posts) (spawn leads) inputs)
      (outputs step (fun s i => (s.effect i).begun) (spawn leads) inputs) (run step (spawn leads) inputs).phase := by
  induction inputs using List.reverseRecOn with
  | nil =>
    refine ⟨.nil,fun p inside => ?_,.idle _ nofun (fun p last => ?_) rfl⟩
    · cases inside
    · cases last
  | append_singleton inputs i ih =>
    rw [outputs_snoc,outputs_snoc,run_append]
    exact step_posted ih i

/-- Over every run of the sink, whoever leads and whatever comes of the posts: each change is posted up to three times in a row,
until one is accepted; the changes are those of the two streams, in their order, that were taken while the node led; and of each
stream every change is taken, waits, or is lost and counted. -/
theorem changeSink_law (leads : Option Bool) (inputs : List SinkEvent) :
    let start := spawn leads
    let s := run step start inputs
    let posts := outputs step (fun s i => (s.effect i).posts) start inputs
    let begun := outputs step (fun s i => (s.effect i).begun) start inputs
    (posts.IsChain SinkPost.Follows ∧ (∀ p ∈ posts, 1 ≤ p.attempt ∧ p.attempt ≤ maxAttempts) ∧ PostedUnder posts begun s.phase ∧
      firsts posts <+: begun) ∧
    ((begun.filter (fun c => c.stream = "memory")).Sublist ((inputs.flatMap memoryChanges).map MemoryChange.shipped) ∧
      (begun.filter (fun c => c.stream = "state")).Sublist ((inputs.flatMap stateChanges).map StateChange.shipped)) ∧
    (∀ i, ∀ c ∈ (s.effect i).begun, s.isLeader = true) ∧
    (inputs.flatMap memoryChanges).length = (outputs step (fun s i => [(s.effect i).memory.lost]) start inputs).sum +
      (outputs step (fun s i => (s.effect i).memory.items) start inputs).length + s.memories.missed + s.memories.items.length ∧
    (inputs.flatMap stateChanges).length = (outputs step (fun s i => [(s.effect i).state.lost]) start inputs).sum +
      (outputs step (fun s i => (s.effect i).state.items) start inputs).length + s.states.missed + s.states.items.length := by
  intro start s posts begun
  have posted : Posted posts begun s.phase := run_posted leads inputs
  have memories := (subscription_books moves_memories start inputs).2
  have states := (subscription_books moves_states start inputs).2
  rw [outputs_inputs] at memories states
  refine ⟨⟨posted.chain,posted.few,posted.under,posted.under.front⟩,begun_published leads inputs,
    fun i c found => (s.begun_leads i found).1,?_,?_⟩
  · exact (Nat.zero_add _).symm.trans memories
  · exact (Nat.zero_add _).symm.trans states

end ChangeSink

end Ecphoria
