import Ecphoria.Engine.Frame
import Ecphoria.Engine.Search
import Ecphoria.Engine.StateTenants
import Ecphoria.Library.Text
import Ecphoria.Runtime.Journal

/-! The agent loop as text. A reply of the model is parsed into what it asks for, each
tool call leaves a step in the journal and a line in the transcript, and a loop that
starts again reads its transcript, its counter and its results off the journal. -/
namespace Ecphoria
open Library

inductive Reply where
  | search (query : String)
  | remember (text : String)
  | call (server tool args : String)
  | approve (prompt : String)
  | answer (text : String)
deriving DecidableEq,Repr

def Reply.unslashed : Reply → Bool
  | .call server _ _ => '/' ∉ server.toList
  | _ => true

/-- `text.split_once(c)`, or the text and the default. -/
def cutAt (c : Char) (text default : String) : String × String :=
  match splitOnce c text.toList with
  | some parts => (String.ofList parts.1,String.ofList parts.2)
  | none => (text,default)

def parseCall (rest : String) : Reply :=
  let (head,args) := cutAt ':' rest "{}"
  let parts := splitWhitespace head
  .call (parts.getD 0 "") (parts.getD 1 "") args

def parseReply (reply : String) : Reply :=
  let trimmed := trim reply
  match stripPrefix "TOOL search:" trimmed with
  | some query => .search (trim query)
  | none =>
    match stripPrefix "TOOL remember:" trimmed with
    | some text => .remember (trim text)
    | none =>
      match stripPrefix "TOOL call " trimmed with
      | some rest => parseCall rest
      | none =>
        match stripPrefix "TOOL approve:" trimmed with
        | some prompt => .approve (trim prompt)
        | none => .answer trimmed

def questionLine (question : String) : String := "Question: " ++ question ++ "\n"

def searchLine (query : String) (results : List String) : String :=
  "Assistant: TOOL search: " ++ query ++ "\nObservation: " ++ String.intercalate " | " results ++ "\n"

def rememberLine (text : String) : String := "Assistant: TOOL remember: " ++ text ++ "\nObservation: stored\n"

def callLine (server tool result : String) : String :=
  "Assistant: TOOL call " ++ server ++ " " ++ tool ++ "\nObservation: " ++ result ++ "\n"

def approvalLine (prompt : String) : String :=
  "Assistant: requested approval for: " ++ prompt ++ "\nObservation: approved\n"

def Json.text (p : Json) (k : String) : String := ((p.get k).bind Json.asStr).getD ""

def Json.texts : Json → List String
  | .arr items => items.filterMap Json.asStr
  | _ => []

/-- The line `rebuild_agent_transcript` writes for a step of the trace. -/
def renderStep (env : Env) (step : TraceStep) : String :=
  let p := step.payload
  if step.eventType = "run_start" then questionLine (p.text "question")
  else if step.eventType = "tool_call" then
    if p.text "tool" = "search" then searchLine (p.text "query") (((p.get "results").map Json.texts).getD [])
    else if p.text "tool" = "remember" then rememberLine (p.text "content")
    else
      let (server,toolName) := cutAt '/' (p.text "tool") ""
      callLine server toolName (((p.get "result").map env.jsonText).getD "")
  else if step.eventType = "hitl_request" then approvalLine (p.text "prompt")
  else ""

def renderSteps (env : Env) (steps : List TraceStep) : String :=
  steps.foldl (fun transcript step => transcript ++ renderStep env step) ""

def rebuildAgentTranscript (env : Env) (e : Engine) (runId : Uuid) : String := renderSteps env (runTrace e runId)

def callMarker : String := "TOOL call "

def markers (text : String) : Nat := occurrences callMarker.toList text.toList

/-- The results of external calls that the journal holds, the latest first. -/
def executedCalls (steps : List TraceStep) : List (String × Json) :=
  steps.foldl (fun ledger step =>
    match (step.payload.get "idempotency_key").bind Json.asStr,step.payload.get "result" with
    | some key,some result => (key,result) :: ledger
    | _,_ => ledger) []

def idempotencyKey (runId : Uuid) (n : Nat) : String := runId.toString ++ ":tool:" ++ toString n

theorem numbered_inj (front : String) {m n : Nat} (same : front ++ toString m = front ++ toString n) : m = n := by
  have lists := congrArg String.toList same
  rw [String.toList_append,String.toList_append] at lists
  have digits : Nat.toDigits 10 m = Nat.toDigits 10 n := by
    simpa only [Nat.toString_eq_repr,Nat.toList_repr] using List.append_cancel_left lists
  rw [← @Nat.ofDigitChars_ten_toDigits m,digits,Nat.ofDigitChars_ten_toDigits]

theorem idempotencyKey_inj (runId : Uuid) {m n : Nat} (same : idempotencyKey runId m = idempotencyKey runId n) : m = n :=
  numbered_inj (runId.toString ++ ":tool:") same

structure Loop where
  transcript : String
  toolSeq : Nat
  executed : List (String × Json)

def Loop.start (transcript : String) (steps : List TraceStep) : Loop :=
  ⟨transcript,markers transcript,executedCalls steps⟩

/-- A `tool_call` step and the line the live loop adds for it. -/
structure JournalEntry where
  payload : Json
  line : String
  external : Bool

def searchEntry (query : String) (results : List String) : JournalEntry where
  payload := .obj [("query",.str query),("results",.arr (results.map .str)),("tool",.str "search")]
  line := searchLine query results
  external := false

def rememberEntry (text : String) : JournalEntry where
  payload := .obj [("content",.str text),("tool",.str "remember")]
  line := rememberLine text
  external := false

def callEntry (env : Env) (server tool key : String) (result : Json) : JournalEntry where
  payload := .obj [("idempotency_key",.str key),("result",result),("tool",.str (server ++ "/" ++ tool))]
  line := callLine server tool (env.jsonText result)
  external := true

def Loop.push (loop : Loop) (entry : JournalEntry) : Loop :=
  { loop with
    transcript := loop.transcript ++ entry.line
    toolSeq := if entry.external then loop.toolSeq + 1 else loop.toolSeq }

theorem Loop.push_toolSeq (loop : Loop) (entry : JournalEntry) :
    (loop.push entry).toolSeq = loop.toolSeq + if entry.external then 1 else 0 := by
  simp only [push]
  split <;> rfl

theorem Loop.push_executed (loop : Loop) (entry : JournalEntry) : (loop.push entry).executed = loop.executed := rfl

structure ToolCall where
  key : String
  server : String
  tool : String
  args : Json

def toolCall (env : Env) (key server tool args : String) : ToolCall :=
  ⟨key,server,tool,((env.parseJson (trim args)).getD (.obj [])).insert "_idempotency_key" (.str key)⟩

/-- The engine a loop runs on, apart from its stores. -/
structure Host (F : Type) where
  env : Env
  retriever : Retriever F
  retrieval : RetrievalConfig

def Host.plain : Host Rat := ⟨.ascii,.plain,.plain⟩

/-- The run a loop works on. -/
structure Assignment where
  runId : Uuid
  tenant : String
  agentId : String

def Assignment.scope (a : Assignment) : MemoryScope := ⟨tenantOrDefault a.tenant,none,some a.agentId,none⟩

structure Tools where
  answers : Answers
  draw : Draw
  isLeader : Bool
  /-- What the executor answers, an error included. -/
  result : Json

/-- Nothing found, and a leader whose tools answer nothing. -/
def Tools.plain (now : Int) (id : Uuid) : Tools := ⟨⟨.ok [],none,[],now⟩,.plain now id,true,.null⟩

inductive Action where
  | journal (entry : JournalEntry)
  | stop
  | pause (prompt : String)
  | conclude (answer : String)

/-- The line that is added has one marker if it is an external call and none if it is not. -/
def Action.marked : Action → Bool
  | .journal entry => markers entry.line = if entry.external then 1 else 0
  | _ => true

structure Performed where
  engine : Engine
  loop : Loop
  action : Action
  issued : Option ToolCall

section
variable {F : Type} (h : Host F) (a : Assignment)

def perform (e : Engine) (loop : Loop) (tools : Tools) : Reply → Performed
  | .search query =>
    let hits := memorySearch h.env h.retriever e h.retrieval tools.answers query a.scope 5
    ⟨e,loop,.journal (searchEntry query (hits.map (fun hit => hit.memory.content))),none⟩
  | .remember text =>
    ⟨(memoryAdd h.env e tools.draw (.new a.scope text)).2,loop,.journal (rememberEntry text),none⟩
  | .call server tool args =>
    let key := idempotencyKey a.runId loop.toolSeq
    match loop.executed.lookup key with
    | some previous => ⟨e,loop,.journal (callEntry h.env server tool key previous),none⟩
    | none =>
      if !tools.isLeader then ⟨e,loop,.stop,none⟩
      else ⟨e,{ loop with executed := (key,tools.result) :: loop.executed },
        .journal (callEntry h.env server tool key tools.result),some (toolCall h.env key server tool args)⟩
  | .approve prompt => ⟨e,loop,.pause prompt,none⟩
  | .answer text => ⟨e,loop,.conclude text,none⟩

theorem perform_tables (e : Engine) (loop : Loop) (tools : Tools) (reply : Reply) :
    ∃ memories edges, (perform h a e loop tools reply).engine.tables =
      { e.tables with memories := memories, edges := edges } := by
  cases reply with
  | remember text => exact memoryAdd_frame h.env e tools.draw (.new a.scope text)
  | call server tool args =>
    rw [perform]
    split
    next => exact ⟨_,_,rfl⟩
    next => split <;> exact ⟨_,_,rfl⟩
  | _ => exact ⟨_,_,rfl⟩

end

theorem renderSteps_append (env : Env) (steps : List TraceStep) (last : TraceStep) :
    renderSteps env (steps ++ [last]) = renderSteps env steps ++ renderStep env last := by
  simp [renderSteps,List.foldl_append]

def Lined (text : String) : Prop := text.toList = [] ∨ ∃ body, text.toList = body ++ ['\n']

theorem Lined.ending (body : String) {last : String} {front : List Char} (ends : last.toList = front ++ ['\n']) :
    Lined (body ++ last) :=
  Or.inr ⟨body.toList ++ front,by simp [ends]⟩

theorem Lined.line (body : String) : Lined (body ++ "\n") := Lined.ending body (show _ = [] ++ ['\n'] from rfl)

theorem Lined.append {a b : String} (first : Lined a) (second : Lined b) : Lined (a ++ b) := by
  rcases second with empty | ⟨body,ends⟩
  · rcases first with none | ⟨body,ends⟩
    · exact Or.inl (by simp [none,empty])
    · exact Or.inr ⟨body,by simp [ends,empty]⟩
  · exact Or.inr ⟨a.toList ++ body,by simp [ends]⟩

theorem renderStep_lined (env : Env) (step : TraceStep) : Lined (renderStep env step) := by
  simp only [renderStep]
  split
  next => exact Lined.line _
  next =>
    split
    next =>
      split
      next => exact Lined.line _
      next =>
        split
        next => exact Lined.ending _ (show _ = "\nObservation: stored".toList ++ ['\n'] by decide)
        next => exact Lined.line _
    next =>
      split
      next => exact Lined.ending _ (show _ = "\nObservation: approved".toList ++ ['\n'] by decide)
      next => exact Or.inl rfl

theorem renderSteps_lined (env : Env) (steps : List TraceStep) : Lined (renderSteps env steps) := by
  induction steps using List.reverseRecOn with
  | nil => exact Or.inl rfl
  | append_singleton steps last ih =>
    rw [renderSteps_append]
    exact ih.append (renderStep_lined env last)

theorem markers_append {a : String} (lined : Lined a) (b : String) : markers (a ++ b) = markers a + markers b := by
  have apart : '\n' ∉ callMarker.toList := by decide
  have some : callMarker.toList ≠ [] := by decide
  unfold markers
  rw [String.toList_append]
  rcases lined with empty | ⟨body,ends⟩
  · rw [empty,List.nil_append,occurrences_nil,Nat.zero_add]
  · have front := @occurrences_separated _ _ _ body [] _ apart some
    rw [ends,List.append_assoc,List.singleton_append,occurrences_separated apart some,front,occurrences_nil]
    omega

private theorem infix_opening {opening : String} (ends : callMarker.toList <:+ opening.toList) (a b c d e f : String) :
    callMarker.toList <:+: (opening ++ a ++ b ++ c ++ d ++ e ++ f).toList := by
  simp only [String.toList_append,List.append_assoc]
  exact ends.isInfix.trans (List.prefix_append _ _).isInfix

theorem markers_callLine (server tool result : String) : 0 < markers (callLine server tool result) := by
  have ends : callMarker.toList <:+ "Assistant: TOOL call ".toList := ⟨"Assistant: ".toList,by decide⟩
  have some : callMarker.toList ≠ [] := by decide
  exact occurrences_pos some (infix_opening ends server " " tool "\nObservation: " result "\n")

section
variable (env : Env) (runId : Uuid) (tenant : String) (stamp : Stamp)

theorem renderStep_search (query : String) (results : List String) :
    renderStep env (stepTaken runId tenant "tool_call" (searchEntry query results).payload stamp) =
      (searchEntry query results).line := by
  have texts : (results.map Json.str).filterMap Json.asStr = results := by
    rw [List.filterMap_map]
    exact List.filterMap_some
  simp [renderStep,stepTaken,searchEntry,Json.text,get_stepPayload,List.lookup_cons,Json.asStr,Json.texts,texts]

theorem renderStep_remember (text : String) :
    renderStep env (stepTaken runId tenant "tool_call" (rememberEntry text).payload stamp) = (rememberEntry text).line := by
  simp [renderStep,stepTaken,rememberEntry,Json.text,get_stepPayload,List.lookup_cons,Json.asStr]

theorem renderStep_call (server tool key : String) (result : Json) :
    renderStep env (stepTaken runId tenant "tool_call" (callEntry env server tool key result).payload stamp) =
      callLine (cutAt '/' (server ++ "/" ++ tool) "").1 (cutAt '/' (server ++ "/" ++ tool) "").2 (env.jsonText result) := by
  have other (name : String) (plain : '/' ∉ name.toList) : server ++ "/" ++ tool ≠ name := by
    intro same
    exact plain (same ▸ by simp)
  simp [renderStep,stepTaken,callEntry,Json.text,get_stepPayload,List.lookup_cons,Json.asStr,other]

end

theorem cutAt_first {c : Char} {text front rest : String} (apart : c ∉ front.toList)
    (same : text.toList = front.toList ++ c :: rest.toList) (default : String) : cutAt c text default = (front,rest) := by
  simp [cutAt,same,splitOnce_eq_some apart]

private theorem callLine_split (server tool other name result : String) :
    ((callLine server tool result).toList.length = (callLine other name result).toList.length ↔
        server.toList.length + tool.toList.length = other.toList.length + name.toList.length) ∧
      (callLine server tool result = callLine other name result ↔
        server.toList ++ ' ' :: tool.toList = other.toList ++ ' ' :: name.toList) := by
  have shape (opening middle : String) (server tool : String) :
      (opening ++ server ++ " " ++ tool ++ middle ++ result ++ "\n").toList =
        opening.toList ++ ((server.toList ++ ' ' :: tool.toList) ++ (middle.toList ++ (result.toList ++ ['\n']))) := by
    simp [String.toList_append,List.append_assoc]
  rw [← String.toList_inj]
  unfold callLine
  rw [shape,shape]
  constructor
  · simp only [List.length_append,List.length_cons]
    omega
  · rw [List.append_right_inj,List.append_left_inj]

/-- A journaled call is read back as the call that was made exactly when the name of the server has no slash;
either way the line is as long. -/
theorem callLine_recalled (server tool result : String) :
    (callLine (cutAt '/' (server ++ "/" ++ tool) "").1 (cutAt '/' (server ++ "/" ++ tool) "").2 result).toList.length =
        (callLine server tool result).toList.length ∧
      (callLine (cutAt '/' (server ++ "/" ++ tool) "").1 (cutAt '/' (server ++ "/" ++ tool) "").2 result =
        callLine server tool result ↔ '/' ∉ server.toList) := by
  by_cases slash : '/' ∈ server.toList
  · obtain ⟨front,rest,cut,apart⟩ := List.eq_append_cons_of_mem slash
    have parts : cutAt '/' (server ++ "/" ++ tool) "" = (String.ofList front,String.ofList rest ++ "/" ++ tool) := by
      refine cutAt_first (by simpa using apart) ?_ ""
      simp [cut]
    rw [parts,(callLine_split _ _ _ _ _).1,(callLine_split _ _ _ _ _).2]
    constructor
    · simp [cut]
      omega
    · refine iff_of_false ?_ (fun plain => plain slash)
      rw [cut]
      intro same
      simp at same
  · have parts : cutAt '/' (server ++ "/" ++ tool) "" = (server,tool) := by
      refine cutAt_first slash ?_ ""
      simp
    rw [parts]
    exact ⟨rfl,iff_of_true rfl slash⟩

end Ecphoria
