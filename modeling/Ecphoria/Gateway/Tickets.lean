import Ecphoria.Cognition.Subjects
import Ecphoria.Engine.Keyed
import Ecphoria.Gateway.Batches

/-! Tickets of a repository, which reach the store in two ways: imported from the list of
closed ones, and promoted from the webhook that closes one. Both write the same subject; only
an import writes a project. -/
namespace Ecphoria
open Library

structure GithubMemory where
  content : String
  subject : String
  memType : String
  project : String
  metadata : Json
  validFrom : Option String
  userId : Option String

def githubMemory (repo : String) (item : Json) (user : Option String) : Option GithubMemory :=
  ((item.get "number").bind Json.asNat).map (fun number =>
    let title := (item.textAt ["title"]).getD "(no title)"
    let who := (item.textAt ["user","login"]).getD "someone"
    let body := trim ((item.textAt ["body"]).getD "")
    let isPr := (item.get "pull_request").isSome
    let line :=
      if isPr then
        let outcome := match item.pointer ["pull_request","merged_at"] with
          | some .null | none => "closed without merging"
          | some _ => "merged"
        "Pull request #" ++ toString number ++ " in " ++ repo ++ " — \"" ++ title ++ "\" — " ++ outcome ++
          ", opened by " ++ who ++ "."
      else "Issue #" ++ toString number ++ " in " ++ repo ++ " — \"" ++ title ++ "\" — closed, opened by " ++ who ++ "."
    { content := if body.isEmpty then line else line ++ "\n\n" ++ String.ofList (body.toList.take 4000)
      subject := repo ++ (if isPr then "#pr-" else "#issue-") ++ toString number
      memType := "episodic"
      project := repo
      metadata := .obj [("backfilled",.bool true),("source",.str ("github/" ++ repo))]
      validFrom := item.textAt ["closed_at"]
      userId := user })

/-- The body as the server reads it; a date that does not parse refuses the request. -/
def GithubMemory.request (parseInstant : String → Option Int) (m : GithubMemory) : Option MemoryAddRequest :=
  let request (validFrom : Option Int) : MemoryAddRequest :=
    ⟨m.content,some m.subject,none,⟨none,m.userId,none,none⟩,some m.metadata,some m.memType,some m.project,validFrom⟩
  match m.validFrom with
  | none => some (request none)
  | some text => (parseInstant text).map (fun instant => request (some instant))

structure Ticket where
  repo : String
  number : Nat
  pull : Bool

def Ticket.subject (ticket : Ticket) : String :=
  ticket.repo ++ (if ticket.pull then "#pr-" else "#issue-") ++ toString ticket.number

def Ticket.Lists (ticket : Ticket) (item : Json) : Prop :=
  (item.get "number").bind Json.asNat = some ticket.number ∧ (item.get "pull_request").isSome = ticket.pull

structure Ticket.Closes (ticket : Ticket) (payload : Json) : Prop where
  action : payload.textAt ["action"] = some "closed"
  repository : payload.textAt ["repository","full_name"] = some ticket.repo
  number : if ticket.pull then (payload.pointer ["pull_request","number"]).bind Json.asNat = some ticket.number
    else payload.get "pull_request" = none ∧ (payload.pointer ["issue","number"]).bind Json.asNat = some ticket.number

theorem githubMemory_subject {ticket : Ticket} {item : Json} (lists : ticket.Lists item) (user : Option String) :
    ∃ m, githubMemory ticket.repo item user = some m ∧ m.subject = ticket.subject ∧ m.project = ticket.repo ∧
      m.userId = user ∧ blank m.content = false := by
  obtain ⟨number,kind⟩ := lists
  refine ⟨_,by rw [githubMemory,number]; rfl,?_,rfl,rfl,?_⟩
  · simp only [kind,Ticket.subject]
  · refine (nonBlank_iff _).mp ⟨'#',?_,by decide⟩
    dsimp only
    split <;> split <;> simp

theorem vendor_github (stamp : EventStamp) (payload : Json) : vendor (normalizeGithub stamp payload).source = "github" :=
  by
  have plain : '/' ∉ "github".toList := by decide
  exact vendor_slash plain _

theorem closing_type {ticket : Ticket} {payload : Json} (closes : ticket.Closes payload) (stamp : EventStamp) :
    (normalizeGithub stamp payload).eventType = if ticket.pull then "pull_request.closed" else "issue.closed" := by
  have number := closes.number
  simp only [normalizeGithub,EventStamp.event,closes.action,Option.getD_some,githubType]
  cases pull : ticket.pull with
  | true =>
    rw [pull,if_pos rfl] at number
    cases found : payload.get "pull_request" with
    | none => simp [Json.pointer,found] at number
    | some value => simp
  | false =>
    rw [pull,if_neg (by simp)] at number
    cases found : payload.get "issue" with
    | none => simp [Json.pointer,found] at number
    | some value => simp [number.1]

section
variable (env : Env) (isAlphanumeric : Char → Bool)

theorem promotePullRequest_number {payload : Json} {number : Nat} (repo : String)
    (given : (payload.pointer ["raw","pull_request","number"]).bind Json.asNat = some number) :
    ∃ p, promotePullRequest payload repo = some p ∧ p.subject = repo ++ "#pr-" ++ toString number := by
  rw [promotePullRequest,given]
  exact ⟨_,rfl,rfl⟩

theorem promoteIssue_number {payload : Json} {number : Nat} (repo : String)
    (given : (payload.pointer ["raw","issue","number"]).bind Json.asNat = some number) :
    ∃ p, promoteIssue payload repo = some p ∧ p.subject = repo ++ "#issue-" ++ toString number := by
  rw [promoteIssue,given]
  exact ⟨_,rfl,rfl⟩

theorem promote_closing {ticket : Ticket} {payload : Json} (closes : ticket.Closes payload) (stamp : EventStamp) :
    ∃ p, promote env isAlphanumeric (normalizeGithub stamp payload) = some p ∧ p.subject = ticket.subject := by
  have repository : (normalizeGithub stamp payload).payload.textAt ["repository"] = some ticket.repo := by
    simp only [normalizeGithub,EventStamp.event,closes.repository]
    rfl
  have raw (path : List String) : (normalizeGithub stamp payload).payload.pointer ("raw" :: path) = payload.pointer path := by
    rfl
  have number := closes.number
  unfold promote Ticket.subject
  simp only [vendor_github,repository,Option.getD_some,closing_type closes]
  cases pull : ticket.pull with
  | true =>
    rw [pull,if_pos rfl] at number
    rw [if_pos (by decide)]
    exact promotePullRequest_number ticket.repo ((congrArg (Option.bind · Json.asNat) (raw _)).trans number)
  | false =>
    rw [pull,if_neg (by simp)] at number
    rw [if_neg (by decide),if_pos (by decide)]
    exact promoteIssue_number ticket.repo ((congrArg (Option.bind · Json.asNat) (raw _)).trans number.2)

end

def sharedScope : MemoryScope := .tenant "default"

theorem sharedScope_default : sharedScope.withDefaultTenant = sharedScope := rfl

def tickets (env : Env) (ticket : Ticket) (t : MemoryTable) : List Memory :=
  t.memories.filter (fun m => m.state = .active && m.scope = sharedScope &&
    m.subject = some (normalizeSubject env ticket.subject))

section
variable {env : Env} {ticket : Ticket} {t u : MemoryTable}

theorem mem_tickets {m : Memory} : m ∈ tickets env ticket t ↔ ∃ row ∈ t.rows, row.memory = m ∧ m.state = .active ∧
    m.scope = sharedScope ∧ m.subject = some (normalizeSubject env ticket.subject) := by
  simp only [tickets,List.mem_filter,MemoryTable.memories,List.mem_map,Bool.and_eq_true,decide_eq_true_eq,and_assoc]
  constructor
  · intro given
    obtain ⟨⟨row,member,rfl⟩,active,inScope,about⟩ := given
    exact ⟨row,member,rfl,active,inScope,about⟩
  · intro given
    obtain ⟨row,member,rfl,active,inScope,about⟩ := given
    exact ⟨⟨row,member,rfl⟩,active,inScope,about⟩

theorem tickets_nodup : (tickets env ticket t).Nodup :=
  List.Nodup.of_map _ ((List.filter_sublist.map Memory.id).nodup t.memories_nodup)

theorem tickets_of_newest {project : Option String} {m : Memory}
    (found : newest t sharedScope (normalizeSubject env ticket.subject) project = some m) :
    m ∈ tickets env ticket t ∧ m.project = project := by
  obtain ⟨row,member,rfl,inScope,about,grouped,active⟩ := newest_listed found
  exact ⟨mem_tickets.mpr ⟨row,member,rfl,active,inScope,about⟩,grouped⟩

theorem newest_of_tickets {m : Memory} (one : tickets env ticket t = [m]) :
    newest t sharedScope (normalizeSubject env ticket.subject) m.project = some m := by
  have inside : m ∈ tickets env ticket t := one ▸ List.mem_singleton_self m
  obtain ⟨row,member,same,active,inScope,about⟩ := mem_tickets.mp inside
  have listed := MemoryTable.mem_findActiveBySubject.mpr
    ⟨row,member,same,inScope.trans sharedScope_default.symm,about,rfl,active⟩
  cases found : newest t sharedScope (normalizeSubject env ticket.subject) m.project with
  | none =>
    rw [newest_eq_none.mp found] at listed
    cases listed
  | some other =>
    have among := (tickets_of_newest found).1
    rw [one] at among
    rw [List.mem_singleton.mp among]

private theorem eq_singleton {α : Type} {items : List α} {x : α} (distinct : items.Nodup) (inside : x ∈ items)
    (only : ∀ y ∈ items, y = x) : items = [x] := by
  have shape := List.eq_replicate_of_mem only
  rw [shape,List.nodup_replicate] at distinct
  have some := List.length_pos_of_mem inside
  rw [shape,show items.length = 1 by omega]
  rfl

theorem tickets_written {project : Option String} {content : String} {drawn id : Uuid}
    (written : KeyedWrite sharedScope (normalizeSubject env ticket.subject) project content drawn t u id) :
    (tickets env ticket t = [] → ∃ m, tickets env ticket u = [m] ∧ m.project = project) ∧
      ∀ m, tickets env ticket t = [m] → m.project = project →
        ∃ m', tickets env ticket u = [m'] ∧ m'.project = project := by
  cases written with
  | confirmed m m' found same leaves retouched rows =>
    obtain ⟨inside,grouped⟩ := tickets_of_newest found
    refine ⟨fun none => ?_,?_⟩
    · rw [none] at inside
      cases inside
    · intro other one _
      rw [one] at inside
      cases List.mem_singleton.mp inside
      obtain ⟨there,grouped'⟩ := tickets_of_newest leaves
      refine ⟨m',eq_singleton tickets_nodup there ?_,grouped'⟩
      intro y listed
      obtain ⟨row,member,rfl,active,inScope,about⟩ := mem_tickets.mp listed
      obtain ⟨old,before,touched⟩ := rows row member
      rw [touched] at active inScope about
      have was : old.memory ∈ tickets env ticket t := mem_tickets.mpr ⟨old,before,rfl,active,inScope,about⟩
      rw [one] at was
      obtain ⟨row',member',rfl,_⟩ := mem_tickets.mp there
      refine congrArg MemoryRow.memory (u.eq_of_key member member' ?_)
      exact touched.kept.1.trans ((congrArg Memory.id (List.mem_singleton.mp was)).trans retouched.kept.1.symm)
  | landed row differs leaves drawnId text rows =>
    obtain ⟨there,grouped⟩ := tickets_of_newest leaves
    have only (gone : ∀ old ∈ t.rows, old.memory ∈ tickets env ticket t → old.memory.project = project) :
        tickets env ticket u = [row.memory] := by
      refine eq_singleton tickets_nodup there ?_
      intro y listed
      obtain ⟨other,member,rfl,active,inScope,about⟩ := mem_tickets.mp listed
      rcases rows other member active with rfl | ⟨before,_,unselected⟩
      · rfl
      · have was := gone other before (mem_tickets.mpr ⟨other,before,rfl,active,inScope,about⟩)
        rw [MemoryTable.beliefFilter_eq_true.mpr ⟨inScope,about,was,active⟩] at unselected
        cases unselected
    refine ⟨fun none => ⟨row.memory,only ?_,grouped⟩,fun m one own => ⟨row.memory,only ?_,grouped⟩⟩
    · intro old _ listed
      rw [none] at listed
      cases listed
    · intro old _ listed
      rw [one] at listed
      rw [List.mem_singleton.mp listed]
      exact own

theorem tickets_doubled {project : Option String} {content : String} {drawn id : Uuid} {m : Memory}
    (written : KeyedWrite sharedScope (normalizeSubject env ticket.subject) project content drawn t u id)
    (one : tickets env ticket t = [m]) (apart : m.project ≠ project)
    (others : newest u sharedScope (normalizeSubject env ticket.subject) m.project =
      newest t sharedScope (normalizeSubject env ticket.subject) m.project) : (tickets env ticket u).length ≠ 1 := by
  intro single
  obtain ⟨x,shape⟩ := List.length_eq_one_iff.mp single
  have stays := (tickets_of_newest (others.trans (newest_of_tickets one))).1
  obtain ⟨new,leaves⟩ : ∃ new, newest u sharedScope (normalizeSubject env ticket.subject) project = some new := by
    cases written with
    | confirmed m m' found same leaves => exact ⟨m',leaves⟩
    | landed row differs leaves => exact ⟨row.memory,leaves⟩
  obtain ⟨beside,grouped⟩ := tickets_of_newest leaves
  rw [shape] at stays beside
  rw [List.mem_singleton.mp stays,← grouped,List.mem_singleton.mp beside] at apart
  exact apart rfl

end

/-- What reaches the server about the ticket, and what its handling draws. -/
inductive TicketStep
  | backfill (caller : Caller) (item : Json) (draws : Nat → Draw)
  | webhook (stamp : EventStamp) (payload : Json) (draws : Nat → Draw)

/-- The engine, and the projects of the steps that landed, the latest first. -/
structure TicketStore where
  engine : Engine
  landed : List (Option String)

section
variable (env : Env) (isAlphanumeric : Char → Bool) (parseInstant : String → Option Int) (promotion : PromotionConfig)
  (ticket : Ticket)

namespace TicketStep

def draws : TicketStep → Nat → Draw
  | .backfill _ _ draws | .webhook _ _ draws => draws

def project : TicketStep → Option String
  | .backfill _ _ _ => some ticket.repo
  | .webhook _ _ _ => none

def About : TicketStep → Prop
  | .backfill caller item _ => ticket.Lists item ∧ scopeWithHeader caller ⟨none,none,none,none⟩ = sharedScope
  | .webhook _ payload _ => ticket.Closes payload

/-- The memory that the step adds, when its date parses and the rules match. -/
def input : TicketStep → Option MemoryInput
  | .backfill caller item _ => ((githubMemory ticket.repo item none).bind (GithubMemory.request parseInstant)).map
      (fun req => { req.input caller with validFrom := none })
  | .webhook stamp payload _ =>
    if promotion.enabled && matchesRules (normalizeGithub stamp payload) promotion.rules then
      (promote env isAlphanumeric (normalizeGithub stamp payload)).map
        (promotedInput (.tenant "default") (normalizeGithub stamp payload))
    else none

def Enters (config : CoreConfig) (step : TicketStep) : Prop :=
  ∃ input ∈ step.input env isAlphanumeric parseInstant promotion ticket, Accepts env config input

/-- Whether the step is answered with a memory, and the engine after it. -/
def handle (e : Engine) : TicketStep → Bool × Engine
  | .backfill caller item draws =>
    match (githubMemory ticket.repo item none).bind (GithubMemory.request parseInstant) with
    | none => (false,e)
    | some req =>
      match OneNode.memoryAddBatch env e caller [req] draws with
      | (.ok,e) => (true,e)
      | (_,e) => (false,e)
  | .webhook stamp payload draws =>
    let (count,e) := promoteEvents env isAlphanumeric e promotion "default" (normalizeWebhook stamp "github" payload) draws
    (count ≠ 0,e)

end TicketStep

def TicketStore.step (s : TicketStore) (step : TicketStep) : TicketStore :=
  match step.handle env isAlphanumeric parseInstant promotion ticket s.engine with
  | (true,e) => ⟨e,step.project ticket :: s.landed⟩
  | (false,e) => ⟨e,s.landed⟩

/-- Once a step has landed, the ticket has one active memory. -/
def TicketStore.OneTicket (s : TicketStore) : Prop :=
  s.landed ≠ [] → (tickets env ticket s.engine.memories).length = 1

/-- A step that is let in comes from the producer that all steps before came from. -/
def KeepsTicket (s : TicketStore) (step : TicketStep) : Prop :=
  step.Enters env isAlphanumeric parseInstant promotion ticket s.engine.config → ∀ project ∈ s.landed, project = step.project ticket

end

section
variable {env : Env} {e : Engine} {d : Draw} {input : MemoryInput} {subject : String}

theorem memoryAddBatch_single (about : (canonicalInput env input).subject = some subject) (fresh : d.id ∉ e.memories.keys) :
    (Accepts env e.config input → ∃ add after, memoryAddBatch env e [(input,d)] = (.ok [add],after) ∧
      after.config = e.config ∧ after.memories =
        e.memories.upsertRows (planSubject e d (canonicalInput env input) (e.embedMemoryContent d) subject).rows) ∧
      (¬Accepts env e.config input → ∃ err after, memoryAddBatch env e [(input,d)] = (.error err,after) ∧
        after.config = e.config ∧ after.memories = e.memories) := by
  have unmerged : ∀ item ∈ [(input,d)], Unmerged env e.config item.1 := by
    intro item inside
    rw [List.mem_singleton.mp inside]
    exact Or.inr (by rw [about]; simp)
  have unused : ∀ item ∈ [(input,d)], item.2.id ∉ e.memories.keys := by
    intro item inside
    rw [List.mem_singleton.mp inside]
    exact fresh
  obtain ⟨memories,config,outcomes⟩ := memoryAddBatch_lands e [(input,d)] unmerged unused (by simp)
  constructor
  · intro accepted
    have planned := memoryPlan_keyed (d := d) accepted about
    have only : landedItems env e.config [(input,d)] [] [] = [(input,d)] := by
      simp [landedItems,accepted]
    have answer := outcomes (by simpa using accepted)
    rw [only,run_cons,run_nil,writeNext_planned env planned] at memories
    have one : outputs (writeNext env) (addOf env) e [(input,d)] =
        [(planSubject e d (canonicalInput env input) (e.embedMemoryContent d) subject).add] := by
      simp only [outputs,addOf,planned,List.append_nil]
    rw [one] at answer
    exact ⟨_,_,Prod.ext answer rfl,config,memories⟩
  · intro refused
    have none : landedItems env e.config [(input,d)] [] [] = [] := by
      simp [landedItems,refused]
    rw [none,run_nil] at memories
    cases added : memoryAddBatch env e [(input,d)] with
    | mk answer after =>
      rw [added] at memories config
      cases answer with
      | error err => exact ⟨err,after,rfl,config,memories⟩
      | ok out => exact absurd (memoryAddBatch_accepted env added (input,d) (by simp)) refused

end

section
variable {env : Env} {isAlphanumeric : Char → Bool} {parseInstant : String → Option Int} {promotion : PromotionConfig}
  {ticket : Ticket} {e : Engine} {step : TicketStep}

theorem Ticket.subject_canonical (lowercases : env.Lowercases) (ticket : Ticket) :
    canonicalSubject env (some ticket.subject) = some (normalizeSubject env ticket.subject) := by
  have hashed : '#' ∈ ticket.subject.toList := by
    unfold Ticket.subject
    split <;> simp
  have kept := (hash_mem_normalizeSubject lowercases _).mpr hashed
  refine Option.filter_eq_some_iff.mpr ⟨rfl,?_⟩
  rw [Bool.not_eq_true',Bool.eq_false_iff]
  intro empty
  rw [String.isEmpty_iff.mp empty] at kept
  cases kept

theorem TicketStep.input_aims (lowercases : env.Lowercases) (about : step.About ticket) {input : MemoryInput}
    (given : input ∈ step.input env isAlphanumeric parseInstant promotion ticket) :
    (canonicalInput env input).scope = sharedScope ∧
      (canonicalInput env input).subject = some (normalizeSubject env ticket.subject) ∧
      input.project = step.project ticket := by
  cases step with
  | backfill caller item draws =>
    obtain ⟨lists,shared⟩ := about
    obtain ⟨m,made,own,grouped,user,_⟩ := githubMemory_subject lists none
    obtain ⟨req,read,rfl⟩ := Option.map_eq_some_iff.mp given
    rw [made,Option.bind_some] at read
    have fields : req.fields = ⟨none,none,none,none⟩ ∧ req.subject = some m.subject ∧ req.project = some m.project := by
      unfold GithubMemory.request at read
      rw [user] at read
      split at read
      next =>
        cases read
        exact ⟨rfl,rfl,rfl⟩
      next =>
        obtain ⟨instant,_,rfl⟩ := Option.map_eq_some_iff.mp read
        exact ⟨rfl,rfl,rfl⟩
    obtain ⟨fields,subject,project⟩ := fields
    refine ⟨?_,?_,?_⟩
    · simp only [canonicalInput,MemoryAddRequest.input,fields,shared]
      rfl
    · simp only [canonicalInput,MemoryAddRequest.input,subject,own]
      exact ticket.subject_canonical lowercases
    · simp only [MemoryAddRequest.input,project,grouped]
      rfl
  | webhook stamp payload draws =>
    obtain ⟨p,promoted,own⟩ := promote_closing env isAlphanumeric about stamp
    obtain ⟨_,given⟩ := Option.ite_none_right_eq_some.mp given
    obtain ⟨p',promoted',rfl⟩ := Option.map_eq_some_iff.mp given
    cases promoted.symm.trans promoted'
    refine ⟨rfl,?_,rfl⟩
    simp only [canonicalInput,promotedInput,own]
    exact ticket.subject_canonical lowercases

theorem TicketStep.handle_batch (about : step.About ticket) :
    (step.input env isAlphanumeric parseInstant promotion ticket = none →
      step.handle env isAlphanumeric parseInstant promotion ticket e = (false,e)) ∧
    ∀ input, step.input env isAlphanumeric parseInstant promotion ticket = some input →
      (∀ add after, memoryAddBatch env e [(input,step.draws 0)] = (.ok [add],after) →
        step.handle env isAlphanumeric parseInstant promotion ticket e = (true,after)) ∧
      ∀ err after, memoryAddBatch env e [(input,step.draws 0)] = (.error err,after) →
        step.handle env isAlphanumeric parseInstant promotion ticket e = (false,after) := by
  cases step with
  | backfill caller item draws =>
    obtain ⟨m,made,_,_,_,filled⟩ := githubMemory_subject about.1 none
    simp only [TicketStep.input,TicketStep.handle,made,Option.bind_some,TicketStep.draws]
    cases read : GithubMemory.request parseInstant m with
    | none => exact ⟨fun _ => rfl,fun input given => by cases given⟩
    | some req =>
      refine ⟨fun absent => absurd absent (Option.some_ne_none _),?_⟩
      intro input given
      cases given
      have content : blank req.content = false := by
        unfold GithubMemory.request at read
        split at read
        next =>
          cases read
          exact filled
        next =>
          obtain ⟨instant,_,rfl⟩ := Option.map_eq_some_iff.mp read
          exact filled
      have counted : ¬Rest.maxBatchMemories < [req].length := by simp [Rest.maxBatchMemories]
      have present : [req].findIdx? (fun req => blank req.content) = none := by simp [content]
      have items : withDraws ([req].map (fun req => { req.input caller with validFrom := none })) draws =
          [({ req.input caller with validFrom := none },draws 0)] := rfl
      refine ⟨?_,?_⟩
      · intro add after added
        simp only [OneNode.memoryAddBatch,List.isEmpty_cons,Bool.false_eq_true,if_false,if_neg counted,present,items,added]
      · intro err after failed
        simp only [OneNode.memoryAddBatch,List.isEmpty_cons,Bool.false_eq_true,if_false,if_neg counted,present,items,failed]
  | webhook stamp payload draws =>
    obtain ⟨p,promoted,_⟩ := promote_closing env isAlphanumeric about stamp
    have answer (count : Nat) (after : Engine) (promotes : promoteEvents env isAlphanumeric e promotion "default"
        (normalizeWebhook stamp "github" payload) draws = (count,after)) : TicketStep.handle env isAlphanumeric
          parseInstant promotion ticket e (.webhook stamp payload draws) = (decide (count ≠ 0),after) := by
      rw [TicketStep.handle,promotes]
    simp only [TicketStep.input,TicketStep.draws,promoted,Option.map_some]
    by_cases enabled : promotion.enabled = true
    · by_cases matched : matchesRules (normalizeGithub stamp payload) promotion.rules = true
      · rw [if_pos (by simp [enabled,matched])]
        have inputs : promotedInputs env isAlphanumeric promotion "default" (normalizeWebhook stamp "github" payload) =
            [promotedInput (.tenant "default") (normalizeGithub stamp payload) p] := by
          simp only [normalizeWebhook,promotedInputs,List.filter_cons,matched,if_true,List.filter_nil,
            List.filterMap_cons,promoted,Option.map_some,List.filterMap_nil]
        have items : withDraws [promotedInput (.tenant "default") (normalizeGithub stamp payload) p] draws =
            [(promotedInput (.tenant "default") (normalizeGithub stamp payload) p,draws 0)] := rfl
        refine ⟨fun absent => absurd absent (Option.some_ne_none _),?_⟩
        intro input given
        cases given
        refine ⟨?_,?_⟩
        · intro add after added
          refine answer 1 after ?_
          simp only [promoteEvents,enabled,Bool.not_true,Bool.false_eq_true,if_false,inputs,List.isEmpty_cons,items,added,
            List.length_singleton]
        · intro err after failed
          refine answer 0 after ?_
          simp only [promoteEvents,enabled,Bool.not_true,Bool.false_eq_true,if_false,inputs,List.isEmpty_cons,items,failed]
      · rw [if_neg (by simp [matched])]
        have inputs : promotedInputs env isAlphanumeric promotion "default" (normalizeWebhook stamp "github" payload) =
            [] := by
          simp only [normalizeWebhook,promotedInputs,List.filter_cons,matched,Bool.false_eq_true,if_false,
            List.filter_nil,List.filterMap_nil]
        have idle : promoteEvents env isAlphanumeric e promotion "default" (normalizeWebhook stamp "github" payload)
            draws = (0,e) := by
          unfold promoteEvents
          rw [enabled,if_neg (by simp),inputs]
          rfl
        exact ⟨fun _ => (answer 0 e idle).trans rfl,fun _ given => absurd given (Option.some_ne_none _).symm⟩
    · rw [if_neg (by simp [enabled])]
      rw [Bool.not_eq_true] at enabled
      have idle : promoteEvents env isAlphanumeric e promotion "default" (normalizeWebhook stamp "github" payload)
          draws = (0,e) := by
        unfold promoteEvents
        rw [enabled]
        rfl
      exact ⟨fun _ => (answer 0 e idle).trans rfl,fun _ given => absurd given (Option.some_ne_none _).symm⟩

section
variable {s : TicketStore}

theorem TicketStore.step_enters (lowercases : env.Lowercases) (about : step.About ticket)
    (off : s.engine.config.cognition.contradictionReview = false) (recorded : RowsRecorded s.engine.memories)
    (fresh : (step.draws 0).id ∉ s.engine.memories.keys)
    (enters : step.Enters env isAlphanumeric parseInstant promotion ticket s.engine.config) :
    ∃ e content id, s.step env isAlphanumeric parseInstant promotion ticket step =
        ⟨e,step.project ticket :: s.landed⟩ ∧
      e.config = s.engine.config ∧ RowsRecorded e.memories ∧
      KeyedWrite sharedScope (normalizeSubject env ticket.subject) (step.project ticket) content (step.draws 0).id
        s.engine.memories e.memories id ∧
      ∀ project, project ≠ step.project ticket →
        newest e.memories sharedScope (normalizeSubject env ticket.subject) project =
          newest s.engine.memories sharedScope (normalizeSubject env ticket.subject) project := by
  obtain ⟨input,given,accepted⟩ := enters
  obtain ⟨inScope,own,grouped⟩ := TicketStep.input_aims lowercases about given
  obtain ⟨lands,_⟩ := memoryAddBatch_single own fresh
  obtain ⟨add,e,added,config,memories⟩ := lands accepted
  have handled := (((TicketStep.handle_batch about).2 input given).1 add e added)
  have written := planSubject_written off recorded fresh (inScope ▸ sharedScope_default) own
    (s.engine.embedMemoryContent (step.draws 0))
  have apart {project : Option String} (differs : project ≠ step.project ticket) :
      newest e.memories (canonicalInput env input).scope (normalizeSubject env ticket.subject) project =
        newest s.engine.memories (canonicalInput env input).scope (normalizeSubject env ticket.subject) project := by
    have beside : project ≠ (canonicalInput env input).project := grouped.symm ▸ differs
    rw [memories]
    exact planSubject_apart off fresh own (s.engine.embedMemoryContent (step.draws 0)) (fun _ => beside)
  rw [inScope] at apart
  rw [inScope,← memories] at written
  refine ⟨e,_,_,?_,config,?_,grouped ▸ written,fun _ differs => apart differs⟩
  · rw [TicketStore.step,handled]
  · rw [memories]
    exact recorded.upsertRows _

theorem TicketStore.step_refused (lowercases : env.Lowercases) (about : step.About ticket)
    (fresh : (step.draws 0).id ∉ s.engine.memories.keys)
    (refused : ¬step.Enters env isAlphanumeric parseInstant promotion ticket s.engine.config) :
    ∃ e, s.step env isAlphanumeric parseInstant promotion ticket step = ⟨e,s.landed⟩ ∧
      e.config = s.engine.config ∧ e.memories = s.engine.memories := by
  obtain ⟨none,some⟩ := @TicketStep.handle_batch env isAlphanumeric parseInstant promotion ticket s.engine step about
  cases given : step.input env isAlphanumeric parseInstant promotion ticket with
  | none => exact ⟨s.engine,by rw [TicketStore.step,none given],rfl,rfl⟩
  | some input =>
    obtain ⟨_,own,_⟩ := TicketStep.input_aims lowercases about given
    have unaccepted : ¬Accepts env s.engine.config input := fun accepted => refused ⟨input,given,accepted⟩
    obtain ⟨err,e,failed,config,memories⟩ := (memoryAddBatch_single own fresh).2 unaccepted
    exact ⟨e,by rw [TicketStore.step,(some input given).2 err e failed],config,memories⟩

variable (env ticket) in
/-- Nothing has landed and the ticket has no memory, or it has one, in the project of all that landed. -/
private structure SettledTicket (s : TicketStore) : Prop where
  off : s.engine.config.cognition.contradictionReview = false
  recorded : RowsRecorded s.engine.memories
  blank : s.landed = [] → tickets env ticket s.engine.memories = []
  held : s.landed ≠ [] → ∃ m, tickets env ticket s.engine.memories = [m] ∧ ∀ project ∈ s.landed, project = m.project

private theorem SettledTicket.oneTicket (settled : SettledTicket env ticket s) : s.OneTicket env ticket := by
  intro some
  obtain ⟨m,one,_⟩ := settled.held some
  rw [one]
  rfl

private theorem SettledTicket.landing (settled : SettledTicket env ticket s) {e : Engine} {project : Option String} {content : String}
    {drawn id : Uuid} (config : e.config = s.engine.config) (recorded : RowsRecorded e.memories)
    (written : KeyedWrite sharedScope (normalizeSubject env ticket.subject) project content drawn s.engine.memories
      e.memories id)
    (others : ∀ other, other ≠ project → newest e.memories sharedScope (normalizeSubject env ticket.subject) other =
      newest s.engine.memories sharedScope (normalizeSubject env ticket.subject) other) :
    ((TicketStore.mk e (project :: s.landed)).OneTicket env ticket ↔ ∀ other ∈ s.landed, other = project) ∧
      ((TicketStore.mk e (project :: s.landed)).OneTicket env ticket → SettledTicket env ticket ⟨e,project :: s.landed⟩) := by
  obtain ⟨first,again⟩ := tickets_written written
  have landing {m : Memory} (one : tickets env ticket e.memories = [m]) (own : m.project = project)
      (same : ∀ other ∈ s.landed, other = project) : SettledTicket env ticket ⟨e,project :: s.landed⟩ := by
    refine ⟨by rw [config]; exact settled.off,recorded,nofun,fun _ => ⟨m,one,?_⟩⟩
    intro other inside
    rw [own]
    rcases List.mem_cons.mp inside with rfl | before
    · rfl
    · exact same other before
  by_cases none : s.landed = []
  · obtain ⟨m,one,own⟩ := first (settled.blank none)
    have same : ∀ other ∈ s.landed, other = project := by
      rw [none]
      exact nofun
    have after := landing one own same
    exact ⟨iff_of_true after.oneTicket same,fun _ => after⟩
  · obtain ⟨m,one,grouped⟩ := settled.held none
    by_cases own : m.project = project
    · obtain ⟨m',one',own'⟩ := again m one own
      have same : ∀ other ∈ s.landed, other = project := fun other inside => (grouped other inside).trans own
      have after := landing one' own' same
      exact ⟨iff_of_true after.oneTicket same,fun _ => after⟩
    · have doubled : ¬(TicketStore.mk e (project :: s.landed)).OneTicket env ticket := fun single =>
        tickets_doubled written one own (others m.project own) (single nofun)
      refine ⟨iff_of_false doubled ?_,fun single => absurd single doubled⟩
      intro same
      obtain ⟨other,inside⟩ := List.exists_mem_of_ne_nil _ none
      exact own ((grouped other inside).symm.trans (same other inside))

/-- From a store without the ticket, a run of imports and closing webhooks leaves it one active memory all along exactly
when all that lands comes from one of the two. -/
theorem one_ticket_iff (lowercases : env.Lowercases) (e : Engine) (steps : List TicketStep)
    (off : e.config.cognition.contradictionReview = false) (recorded : RowsRecorded e.memories)
    (absent : tickets env ticket e.memories = []) (about : ∀ step ∈ steps, step.About ticket)
    (fresh : Along (TicketStore.step env isAlphanumeric parseInstant promotion ticket)
      (fun s step => (step.draws 0).id ∉ s.engine.memories.keys) ⟨e,[]⟩ steps) :
    Throughout (TicketStore.step env isAlphanumeric parseInstant promotion ticket) (TicketStore.OneTicket env ticket)
        ⟨e,[]⟩ steps ↔
      Along (TicketStore.step env isAlphanumeric parseInstant promotion ticket)
        (KeepsTicket env isAlphanumeric parseInstant promotion ticket) ⟨e,[]⟩ steps := by
  have start : SettledTicket env ticket ⟨e,[]⟩ := ⟨off,recorded,fun _ => absent,fun some => absurd rfl some⟩
  refine (fresh.and (Along.of_forall about)).throughout_iff
    (fun s => s.OneTicket env ticket → SettledTicket env ticket s) (fun _ => start) start.oneTicket ?_
  intro s step settles one given
  obtain ⟨fresh,about⟩ := given
  have settled := settles one
  by_cases enters : step.Enters env isAlphanumeric parseInstant promotion ticket s.engine.config
  · obtain ⟨e,content,id,stepped,config,recorded,written,others⟩ := TicketStore.step_enters lowercases about settled.off settled.recorded fresh enters
    obtain ⟨kept,next⟩ := settled.landing config recorded written others
    rw [stepped]
    exact ⟨next,kept.trans ⟨fun same _ => same,fun given => given enters⟩⟩
  · obtain ⟨e,stepped,config,memories⟩ := TicketStore.step_refused lowercases about fresh enters
    have after : SettledTicket env ticket ⟨e,s.landed⟩ := by
      refine ⟨by rw [config]; exact settled.off,?_,?_,?_⟩ <;> rw [memories]
      exacts [settled.recorded,settled.blank,settled.held]
    rw [stepped]
    exact ⟨fun _ => after,iff_of_true after.oneTicket (fun given => absurd given enters)⟩

end

end

def issueTicket : Ticket := ⟨"acme/api",7,false⟩

def listedIssue : Json := .obj [("number",.int 7),("title",.str "Timeout on login"),
  ("closed_at",.str "1970-01-01T00:00:00Z")]

def closedIssue : Json := .obj [("action",.str "closed"),("issue",.obj [("number",.int 7)]),
  ("repository",.obj [("full_name",.str "acme/api")])]

def backfillIssue (now : Int) (id : Uuid) : TicketStep := .backfill ⟨none,none⟩ listedIssue (fun _ => .plain now id)

def webhookIssue (now : Int) (id : Uuid) : TicketStep := .webhook ⟨id,now⟩ closedIssue (fun _ => .plain now id)

theorem backfillIssue_about (now : Int) (id : Uuid) : (backfillIssue now id).About issueTicket :=
  ⟨⟨by decide,by decide⟩,by decide⟩

theorem webhookIssue_about (now : Int) (id : Uuid) : (webhookIssue now id).About issueTicket :=
  Ticket.Closes.mk (by decide) (by decide) (by decide)

def byDefault : PromotionConfig := ⟨true,defaultRules⟩

def epochInstant (text : String) : Option Int := if text = "1970-01-01T00:00:00Z" then some 0 else none

theorem one_ticket_iff_webhooks :
    Throughout (TicketStore.step .ascii Char.isAlphanum epochInstant byDefault issueTicket)
        (TicketStore.OneTicket .ascii issueTicket) ⟨.empty .default 2,[]⟩ [webhookIssue 1000 1,webhookIssue 2000 2] ↔
      Along (TicketStore.step .ascii Char.isAlphanum epochInstant byDefault issueTicket)
        (KeepsTicket .ascii Char.isAlphanum epochInstant byDefault issueTicket) ⟨.empty .default 2,[]⟩
        [webhookIssue 1000 1,webhookIssue 2000 2] := by
  have recorded : RowsRecorded (Engine.empty .default 2).memories := by
    simp [RowsRecorded,Engine.empty,Table.empty]
  have about : ∀ step ∈ [webhookIssue 1000 1,webhookIssue 2000 2], step.About issueTicket := by
    simp [webhookIssue_about]
  refine one_ticket_iff ascii_lowercases (.empty .default 2) _ rfl recorded rfl about ?_
  decide +kernel

/-- Imported into its project and promoted into none, one ticket has two active memories. -/
theorem imported_and_promoted :
    (∀ step ∈ [backfillIssue 1000 1,webhookIssue 2000 2], step.About issueTicket) ∧
      ¬Throughout (TicketStore.step .ascii Char.isAlphanum epochInstant byDefault issueTicket)
        (TicketStore.OneTicket .ascii issueTicket) ⟨.empty .default 2,[]⟩
        [backfillIssue 1000 1,webhookIssue 2000 2] := by
  refine ⟨?_,?_⟩
  · simp [backfillIssue_about,webhookIssue_about]
  · intro one
    have count := one 2
    revert count
    unfold TicketStore.OneTicket
    decide +kernel

end Ecphoria
