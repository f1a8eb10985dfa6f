import Mathlib.Data.List.Induction
import Ecphoria.Gateway.ResponseCache

/-! A chat request as the Messages interface of another provider takes it. Tool calls and
their results become blocks of turns, the results of a run one user turn, and the system
text a field of its own. -/
namespace Ecphoria

def strField (v : Json) (k : String) : String := ((v.get k).bind Json.asStr).getD ""

def ChatMessage.calls (m : ChatMessage) : Option (List Json) :=
  match m.toolCalls with
  | some (.arr calls) => if m.role = "assistant" then some calls else none
  | _ => none

section
/- `parse` is `serde_json::from_str`. -/
variable (parse : String → Option Json)

def callInput (tc : Json) : Option Json :=
  (((tc.get "function").bind (Json.get "arguments")).bind Json.asStr).bind parse

def openaiToolCallToAnthropic (tc : Json) : Json :=
  .obj [("id",.str (strField tc "id")),("input",(callInput parse tc).getD (.obj [])),
    ("name",.str (strField ((tc.get "function").getD .null) "name")),("type",.str "tool_use")]

def toolResultBlock (m : ChatMessage) : Json :=
  .obj [("content",.str m.contentStr),("tool_use_id",.str (m.toolCallId.getD "")),("type",.str "tool_result")]

def textBlock (text : String) : Json := .obj [("text",.str text),("type",.str "text")]

def messageTurn (m : ChatMessage) : Json :=
  match m.calls with
  | some calls => .obj [("content",.arr ((if m.contentStr = "" then [] else [textBlock m.contentStr]) ++
      calls.map (openaiToolCallToAnthropic parse))),("role",.str "assistant")]
  | none => .obj [("content",.str m.contentStr),("role",.str m.role)]

def resultsTurn (pending : List Json) : Json := .obj [("content",.arr pending),("role",.str "user")]

def flushToolResults (out pending : List Json) : List Json := if pending.isEmpty then out else out ++ [resultsTurn pending]

def translateMessage (state : List Json × List Json) (m : ChatMessage) : List Json × List Json :=
  if m.role = "tool" then (state.1,state.2 ++ [toolResultBlock m])
  else (flushToolResults state.1 state.2 ++ [messageTurn parse m],[])

def buildAnthropicMessages (req : ChatCompletionRequest) : List Json :=
  let state := (req.messages.filter (fun m => m.role ≠ "system")).foldl (translateMessage parse) ([],[])
  flushToolResults state.1 state.2

end

def openaiToolToAnthropic (t : Json) : Option Json :=
  let f := (t.get "function").getD t
  match (f.get "name").bind Json.asStr with
  | none => none
  | some name =>
    let base := match (f.get "description").bind Json.asStr with
      | some d => [("description",.str d)]
      | none => []
    some (.obj (base ++ [("input_schema",(f.get "parameters").getD (.obj [("type",.str "object")])),("name",.str name)]))

def openaiToolsToAnthropic : Json → Json
  | .arr tools => .arr (tools.filterMap openaiToolToAnthropic)
  | _ => .arr []

def openaiToolChoiceToAnthropic : Json → Json
  | .str s => if s = "required" ∨ s = "any" then .obj [("type",.str "any")] else .obj [("type",.str "auto")]
  | .obj fields =>
    match (((Json.obj fields).get "function").bind (Json.get "name")).bind Json.asStr with
    | some name => .obj [("name",.str name),("type",.str "tool")]
    | none => .obj [("type",.str "auto")]
  | _ => .obj [("type",.str "auto")]

def Json.setIf (body : Json) (k : String) : Option Json → Json
  | some v => body.insert k v
  | none => body

def systemText (req : ChatCompletionRequest) : Option String :=
  (req.messages.find? (fun m => m.role = "system")).map ChatMessage.contentStr

def buildAnthropicBody (parse : String → Option Json) (req : ChatCompletionRequest) : Json :=
  let body := Json.obj [("max_tokens",.int (req.maxTokens.getD 4096)),
    ("messages",.arr (buildAnthropicMessages parse req)),("model",.str req.model)]
  let body := body.setIf "system" ((systemText req).map .str)
  let body := body.setIf "temperature" (req.temperature.map .float)
  let body := body.setIf "tools" (req.tools.map openaiToolsToAnthropic)
  if req.tools.isSome then body.setIf "tool_choice" (req.toolChoice.map openaiToolChoiceToAnthropic) else body

inductive Said where
  | text (role content : String)
  | call (id name : String) (arguments : Json)
  | result (id content : String)

def saidText (role content : String) : List Said := if content = "" then [] else [.text role content]

def blockSaid (role : String) (block : Json) : List Said :=
  if strField block "type" = "text" then saidText role (strField block "text")
  else if strField block "type" = "tool_use" then
    [.call (strField block "id") (strField block "name") ((block.get "input").getD .null)]
  else if strField block "type" = "tool_result" then [.result (strField block "tool_use_id") (strField block "content")]
  else []

def turnSaid (turn : Json) : List Said :=
  match turn.get "content" with
  | some (.str content) => saidText (strField turn "role") content
  | some (.arr blocks) => blocks.flatMap (blockSaid (strField turn "role"))
  | _ => []

def callId : Said → Option String
  | .call id _ _ => some id
  | _ => none

def resultId : Said → Option String
  | .result id _ => some id
  | _ => none

section
variable (parse : String → Option Json)

/-- A tool call as the request makes it: its id, its name and its arguments, a text that reads as JSON. -/
def requestedCall (tc : Json) : Option Said :=
  ((tc.get "id").bind Json.asStr).bind (fun id =>
    (((tc.get "function").bind (Json.get "name")).bind Json.asStr).bind (fun name =>
      (callInput parse tc).map (fun arguments => .call id name arguments)))

/-- What a message of the request says. A call or a result that is not named as such says nothing that could be kept. -/
def messageSaid (m : ChatMessage) : List (Option Said) :=
  if m.role = "system" then []
  else if m.role = "tool" then [m.toolCallId.map (fun id => .result id m.contentStr)]
  else (saidText m.role m.contentStr).map some ++ (m.calls.getD []).map (requestedCall parse)

def issuedIds (m : ChatMessage) : List String := (m.calls.getD []).map (fun tc => strField tc "id")

/-- What a message says as the translation reads it, with an empty text for what is missing. -/
def keptSaid (m : ChatMessage) : List Said :=
  if m.role = "system" then []
  else if m.role = "tool" then [.result (m.toolCallId.getD "") m.contentStr]
  else turnSaid (messageTurn parse m)

/-- Every tool result has its call id, and every tool call of an assistant its id, its name and arguments in JSON. -/
structure NamesCalls (m : ChatMessage) : Prop where
  result : m.role = "tool" → m.toolCallId.isSome
  call : m.role ≠ "system" → m.role ≠ "tool" → ∀ tc ∈ m.calls.getD [], (requestedCall parse tc).isSome

theorem blockSaid_text (role text : String) : blockSaid role (textBlock text) = saidText role text := rfl

theorem blockSaid_result (role : String) (m : ChatMessage) :
    blockSaid role (toolResultBlock m) = [.result (m.toolCallId.getD "") m.contentStr] := rfl

theorem blockSaid_call (role : String) (tc : Json) : blockSaid role (openaiToolCallToAnthropic parse tc) =
    [.call (strField tc "id") (strField ((tc.get "function").getD .null) "name") ((callInput parse tc).getD (.obj []))] := rfl

theorem turnSaid_results (pending : List Json) : turnSaid (resultsTurn pending) = pending.flatMap (blockSaid "user") := rfl

theorem turnSaid_plain {m : ChatMessage} (plain : m.calls = none) : turnSaid (messageTurn parse m) = saidText m.role m.contentStr := by
  rw [messageTurn,plain]
  rfl

theorem calls_role {m : ChatMessage} {calls : List Json} (some : m.calls = some calls) : m.role = "assistant" := by
  rw [ChatMessage.calls] at some
  split at some
  · split at some
    · assumption
    · cases some
  · cases some

theorem turnSaid_calls {m : ChatMessage} {calls : List Json} (some : m.calls = some calls) :
    turnSaid (messageTurn parse m) =
      saidText m.role m.contentStr ++ calls.flatMap (fun tc => blockSaid "assistant" (openaiToolCallToAnthropic parse tc)) := by
  have content : turnSaid (messageTurn parse m) = ((if m.contentStr = "" then [] else [textBlock m.contentStr]) ++
      calls.map (openaiToolCallToAnthropic parse)).flatMap (blockSaid "assistant") := by
    rw [messageTurn,some]
    rfl
  rw [content,List.flatMap_append,List.flatMap_map,calls_role some]
  congr 1
  rw [saidText]
  split
  · rfl
  · rename_i nonempty
    rw [List.flatMap_singleton,blockSaid_text,saidText,if_neg nonempty]

theorem messageTurn_role (m : ChatMessage) : strField (messageTurn parse m) "role" = m.role := by
  cases some : m.calls with
  | none =>
    rw [messageTurn,some]
    rfl
  | some calls =>
    rw [messageTurn,some,calls_role some]
    rfl

theorem strField_getD (v : Option Json) (k : String) :
    strField (v.getD .null) k = ((v.bind (Json.get k)).bind Json.asStr).getD "" := by
  cases v with
  | none => rfl
  | some value => rfl

theorem requestedCall_kept {tc : Json} {said : Said} (named : requestedCall parse tc = some said) (role : String) :
    blockSaid role (openaiToolCallToAnthropic parse tc) = [said] := by
  obtain ⟨id,own,rest⟩ := Option.bind_eq_some_iff.mp named
  obtain ⟨name,called,rest⟩ := Option.bind_eq_some_iff.mp rest
  obtain ⟨arguments,read,rfl⟩ := Option.map_eq_some_iff.mp rest
  rw [blockSaid_call,strField_getD,strField,own,called,read]
  rfl

theorem messageSaid_kept {m : ChatMessage} (named : NamesCalls parse m) : (keptSaid parse m).map some = messageSaid parse m := by
  rw [keptSaid,messageSaid]
  split
  · rfl
  · rename_i apart
    split
    · rename_i tool
      obtain ⟨id,given⟩ := Option.isSome_iff_exists.mp (named.result tool)
      rw [given]
      rfl
    · rename_i other
      cases some : m.calls with
      | none => rw [turnSaid_plain parse some,Option.getD_none,List.map_nil,List.append_nil]
      | some calls =>
        have all := named.call apart other
        rw [some,Option.getD_some] at all
        rw [turnSaid_calls parse some,List.map_append,List.map_flatMap,Option.getD_some]
        congr 1
        rw [List.map_eq_flatMap]
        refine List.flatMap_congr (fun tc listed => ?_)
        obtain ⟨said,named⟩ := Option.isSome_iff_exists.mp (all tc listed)
        rw [requestedCall_kept parse named,named]
        rfl

theorem messageSaid_unnamed {m : ChatMessage} (unnamed : ¬NamesCalls parse m) : none ∈ messageSaid parse m := by
  by_contra named
  refine unnamed ⟨?_,?_⟩
  · intro tool
    rw [messageSaid,if_neg (by rw [tool]; decide),if_pos tool,List.mem_singleton] at named
    rw [← Option.isSome_map (f := fun id => Said.result id m.contentStr)]
    exact Option.isSome_iff_ne_none.mpr (Ne.symm named)
  · intro apart other tc listed
    rw [messageSaid,if_neg apart,if_neg other] at named
    refine Option.isSome_iff_ne_none.mpr (fun missing => named (List.mem_append_right _ ?_))
    exact List.mem_map.mpr ⟨tc,listed,missing⟩

theorem said_flush (out pending : List Json) : (flushToolResults out pending).flatMap turnSaid =
    out.flatMap turnSaid ++ pending.flatMap (blockSaid "user") := by
  rw [flushToolResults]
  split
  · rename_i none
    rw [List.isEmpty_iff.mp none,List.flatMap_nil,List.append_nil]
  · rw [List.flatMap_append,List.flatMap_singleton,turnSaid_results]

theorem said_translated (messages : List ChatMessage) (state : List Json × List Json) :
    (flushToolResults (messages.foldl (translateMessage parse) state).1 (messages.foldl (translateMessage parse) state).2).flatMap turnSaid =
      (flushToolResults state.1 state.2).flatMap turnSaid ++
        messages.flatMap (fun m => if m.role = "tool" then [.result (m.toolCallId.getD "") m.contentStr] else turnSaid (messageTurn parse m)) := by
  induction messages generalizing state with
  | nil => rw [List.foldl_nil,List.flatMap_nil,List.append_nil]
  | cons m later ih =>
    have step : (flushToolResults (translateMessage parse state m).1 (translateMessage parse state m).2).flatMap turnSaid =
        (flushToolResults state.1 state.2).flatMap turnSaid ++
          (if m.role = "tool" then [.result (m.toolCallId.getD "") m.contentStr] else turnSaid (messageTurn parse m)) := by
      rw [translateMessage]
      split
      · rw [said_flush,said_flush,List.flatMap_append,List.flatMap_singleton,blockSaid_result,List.append_assoc]
      · rw [said_flush,List.flatMap_append,List.flatMap_singleton,List.flatMap_nil,List.append_nil]
    rw [List.foldl_cons,ih,step,List.flatMap_cons,List.append_assoc]

theorem buildAnthropicMessages_said (req : ChatCompletionRequest) :
    (buildAnthropicMessages parse req).flatMap turnSaid = req.messages.flatMap (keptSaid parse) := by
  rw [buildAnthropicMessages,said_translated]
  have start : (flushToolResults [] []).flatMap turnSaid = [] := rfl
  rw [start,List.nil_append]
  induction req.messages with
  | nil => rfl
  | cons m later ih =>
    rw [List.flatMap_cons,keptSaid]
    by_cases system : m.role = "system"
    · rw [if_pos system,List.filter_cons_of_neg (by simpa using system),ih,List.nil_append]
    · rw [if_neg system,List.filter_cons_of_pos (by simpa using system),List.flatMap_cons,ih]

theorem said_iff (req : ChatCompletionRequest) :
    ((buildAnthropicMessages parse req).flatMap turnSaid).map some = req.messages.flatMap (messageSaid parse) ↔
      ∀ m ∈ req.messages, NamesCalls parse m := by
  rw [buildAnthropicMessages_said]
  constructor
  · intro same m member
    by_contra unnamed
    have missing : none ∈ req.messages.flatMap (messageSaid parse) := List.mem_flatMap.mpr ⟨m,member,messageSaid_unnamed parse unnamed⟩
    rw [← same] at missing
    obtain ⟨said,_,none⟩ := List.mem_map.mp missing
    cases none
  · intro named
    rw [List.map_flatMap]
    exact List.flatMap_congr (fun m member => messageSaid_kept parse (named m member))

end

/-- A property of every element of a list and of what stands before it. -/
def EachAfter {α : Type} (holds : List α → α → Prop) (items : List α) : Prop :=
  ∀ before item after, items = before ++ item :: after → holds before item

theorem eachAfter_nil {α : Type} (holds : List α → α → Prop) : EachAfter holds [] := by
  intro before item after split
  cases before with
  | nil => cases split
  | cons _ _ => cases split

theorem eachAfter_snoc {α : Type} {holds : List α → α → Prop} {items : List α} {last : α} :
    EachAfter holds (items ++ [last]) ↔ EachAfter holds items ∧ holds items last := by
  constructor
  · intro all
    refine ⟨fun before item after split => all before item (after ++ [last]) ?_,all items last [] rfl⟩
    rw [split,List.append_assoc,List.cons_append]
  · rintro ⟨earlier,own⟩ before item after split
    rcases List.eq_nil_or_concat after with rfl | ⟨rest,other,rfl⟩
    · obtain ⟨rfl,same⟩ := List.append_inj' split rfl
      cases same
      exact own
    · rw [List.concat_eq_append,← List.cons_append,← List.append_assoc] at split
      obtain ⟨same,_⟩ := List.append_inj' split rfl
      exact earlier before item rest same

/-- A turn with results is a user turn, directly after the assistant turn that issued their calls. -/
def AnswersRun (before : List Json) (turn : Json) : Prop :=
  (turnSaid turn).filterMap resultId ≠ [] → strField turn "role" = "user" ∧
    ∃ issuer, before.getLast? = some issuer ∧ strField issuer "role" = "assistant" ∧
      ∀ id ∈ (turnSaid turn).filterMap resultId, id ∈ (turnSaid issuer).filterMap callId

def speaks (m : ChatMessage) : Bool := m.role ≠ "system" && m.role ≠ "tool"

/-- A tool result follows the message that issued its call, with other results and system messages in between at most. -/
def Answered (before : List ChatMessage) (m : ChatMessage) : Prop :=
  m.role = "tool" → ∃ issuer, (before.filter speaks).getLast? = some issuer ∧ m.toolCallId.getD "" ∈ issuedIds issuer

section
variable (parse : String → Option Json)

theorem calls_text (role content : String) : (saidText role content).filterMap callId = [] := by
  rw [saidText]
  split
  · rfl
  · rfl

theorem results_text (role content : String) : (saidText role content).filterMap resultId = [] := by
  rw [saidText]
  split
  · rfl
  · rfl

theorem calls_issued (m : ChatMessage) : (turnSaid (messageTurn parse m)).filterMap callId = issuedIds m := by
  cases some : m.calls with
  | none =>
    rw [turnSaid_plain parse some,calls_text,issuedIds,some]
    rfl
  | some calls =>
    rw [turnSaid_calls parse some,List.filterMap_append,calls_text,List.nil_append,issuedIds,some,Option.getD_some,
      List.filterMap_flatMap,List.map_eq_flatMap]
    exact List.flatMap_congr (fun tc _ => rfl)

theorem results_turn (m : ChatMessage) : (turnSaid (messageTurn parse m)).filterMap resultId = [] := by
  cases some : m.calls with
  | none => rw [turnSaid_plain parse some,results_text]
  | some calls =>
    rw [turnSaid_calls parse some,List.filterMap_append,results_text,List.nil_append,List.filterMap_flatMap]
    exact List.flatMap_eq_nil_iff.mpr (fun tc _ => rfl)

def ResultBlock (block : Json) : Prop := ∃ m, block = toolResultBlock m

def answeredId (block : Json) : String := strField block "tool_use_id"

theorem results_pending {pending : List Json} (results : ∀ block ∈ pending, ResultBlock block) :
    (turnSaid (resultsTurn pending)).filterMap resultId = pending.map answeredId := by
  rw [turnSaid_results,List.filterMap_flatMap,List.map_eq_flatMap]
  refine List.flatMap_congr (fun block listed => ?_)
  obtain ⟨m,rfl⟩ := results block listed
  rfl

theorem issued_role {m : ChatMessage} {id : String} (issued : id ∈ issuedIds m) : m.role = "assistant" := by
  rw [issuedIds] at issued
  cases some : m.calls with
  | none =>
    rw [some] at issued
    cases issued
  | some calls => exact calls_role some

structure TurnsPlaced (messages : List ChatMessage) (state : List Json × List Json) : Prop where
  last : state.1.getLast? = ((messages.filter speaks).getLast?).map (messageTurn parse)
  results : ∀ block ∈ state.2, ResultBlock block
  grouped : EachAfter AnswersRun state.1 ∧ (∀ block ∈ state.2, ∃ issuer, (messages.filter speaks).getLast? = some issuer ∧
    answeredId block ∈ issuedIds issuer) ↔ EachAfter Answered messages

theorem answers_pending {messages : List ChatMessage} {state : List Json × List Json} (placed : TurnsPlaced parse messages state)
    (waiting : state.2 ≠ []) : AnswersRun state.1 (resultsTurn state.2) ↔
      ∀ block ∈ state.2, ∃ issuer, (messages.filter speaks).getLast? = some issuer ∧ answeredId block ∈ issuedIds issuer := by
  rw [AnswersRun,results_pending placed.results,placed.last]
  constructor
  · intro answers block listed
    obtain ⟨_,issuer,found,_,ids⟩ := answers (by simpa using waiting)
    obtain ⟨own,same,rfl⟩ := Option.map_eq_some_iff.mp found
    rw [calls_issued] at ids
    exact ⟨own,same,ids _ (List.mem_map_of_mem listed)⟩
  · intro each _
    refine ⟨rfl,?_⟩
    obtain ⟨first,listed⟩ := List.exists_mem_of_ne_nil _ waiting
    obtain ⟨issuer,found,issued⟩ := each first listed
    refine ⟨messageTurn parse issuer,by rw [found]; rfl,by rw [messageTurn_role,issued_role issued],?_⟩
    intro id member
    obtain ⟨block,there,rfl⟩ := List.mem_map.mp member
    obtain ⟨other,again,own⟩ := each block there
    cases found.symm.trans again
    rwa [calls_issued]

theorem eachAfter_flush {messages : List ChatMessage} {state : List Json × List Json} (placed : TurnsPlaced parse messages state) :
    EachAfter AnswersRun (flushToolResults state.1 state.2) ↔ EachAfter Answered messages := by
  rw [← placed.grouped,flushToolResults]
  split
  · rename_i none
    rw [List.isEmpty_iff.mp none]
    exact (and_iff_left (fun block listed => absurd listed List.not_mem_nil)).symm
  · rename_i waiting
    rw [eachAfter_snoc,answers_pending parse placed (fun none => waiting (List.isEmpty_iff.mpr none))]

theorem placed_nil : TurnsPlaced parse [] ([],[]) where
  last := rfl
  results _ listed := absurd listed List.not_mem_nil
  grouped := iff_of_true ⟨eachAfter_nil _,fun _ listed => absurd listed List.not_mem_nil⟩ (eachAfter_nil _)

theorem speaks_snoc_other {messages : List ChatMessage} {m : ChatMessage} (silent : speaks m = false) :
    (messages ++ [m]).filter speaks = messages.filter speaks := by
  rw [List.filter_append,List.filter_cons_of_neg (by rw [silent]; exact Bool.false_ne_true),List.filter_nil,List.append_nil]

theorem answered_other {messages : List ChatMessage} {m : ChatMessage} (other : m.role ≠ "tool") :
    EachAfter Answered (messages ++ [m]) ↔ EachAfter Answered messages := by
  rw [eachAfter_snoc]
  exact and_iff_left (fun tool => absurd tool other)

theorem TurnsPlaced.system {messages : List ChatMessage} {state : List Json × List Json} (placed : TurnsPlaced parse messages state)
    {m : ChatMessage} (system : m.role = "system") : TurnsPlaced parse (messages ++ [m]) state := by
  have silent : speaks m = false := by simp [speaks,system]
  refine ⟨?_,placed.results,?_⟩
  · rw [speaks_snoc_other silent]
    exact placed.last
  · rw [speaks_snoc_other silent,answered_other (by rw [system]; decide)]
    exact placed.grouped

theorem TurnsPlaced.step {messages : List ChatMessage} {state : List Json × List Json} (placed : TurnsPlaced parse messages state)
    {m : ChatMessage} (apart : m.role ≠ "system") : TurnsPlaced parse (messages ++ [m]) (translateMessage parse state m) := by
  by_cases tool : m.role = "tool"
  · have silent : speaks m = false := by simp [speaks,tool]
    have moved : translateMessage parse state m = (state.1,state.2 ++ [toolResultBlock m]) := if_pos tool
    rw [moved]
    refine ⟨?_,?_,?_⟩
    · rw [speaks_snoc_other silent]
      exact placed.last
    · exact List.forall_mem_append.mpr ⟨placed.results,List.forall_mem_singleton.mpr ⟨m,rfl⟩⟩
    · rw [speaks_snoc_other silent,eachAfter_snoc,← placed.grouped,List.forall_mem_append,List.forall_mem_singleton,and_assoc,
        Answered,imp_iff_right tool]
      rfl
  · have spoken : speaks m = true := by simp [speaks,tool,apart]
    have moved : translateMessage parse state m = (flushToolResults state.1 state.2 ++ [messageTurn parse m],[]) := if_neg tool
    rw [moved]
    refine ⟨?_,fun _ listed => absurd listed List.not_mem_nil,?_⟩
    · rw [List.filter_append,List.filter_cons_of_pos spoken,List.filter_nil,List.getLast?_concat,List.getLast?_concat]
      rfl
    · rw [answered_other tool,← eachAfter_flush parse placed,eachAfter_snoc]
      refine (and_iff_left (fun _ listed => absurd listed List.not_mem_nil)).trans (and_iff_left ?_)
      exact fun some => absurd (results_turn parse m) some

theorem placed_translated (messages : List ChatMessage) : TurnsPlaced parse messages
    ((messages.filter (fun m => m.role ≠ "system")).foldl (translateMessage parse) ([],[])) := by
  induction messages using List.reverseRecOn with
  | nil => exact placed_nil parse
  | append_singleton messages m ih =>
    rw [List.filter_append]
    by_cases system : m.role = "system"
    · rw [List.filter_cons_of_neg (by simpa using system),List.filter_nil,List.append_nil]
      exact ih.system parse system
    · rw [List.filter_cons_of_pos (by simpa using system),List.filter_nil,List.foldl_append]
      exact ih.step parse system

theorem grouped_iff (req : ChatCompletionRequest) :
    EachAfter AnswersRun (buildAnthropicMessages parse req) ↔ EachAfter Answered req.messages :=
  eachAfter_flush parse (placed_translated parse req.messages)

end

def bodyTurns (body : Json) : List Json :=
  match body.get "messages" with
  | some (.arr turns) => turns
  | _ => []

theorem setIf_get {body : Json} {k other : String} (apart : other ≠ k) (v : Option Json) :
    (body.setIf k v).get other = body.get other := by
  cases v with
  | none => rfl
  | some v => exact Json.get_insert_ne apart v body

section
variable (parse : String → Option Json)

theorem choice_get {body : Json} {other : String} (apart : other ≠ "tool_choice") (given : Bool) (choice : Option Json) :
    (if given then body.setIf "tool_choice" choice else body).get other = body.get other := by
  split
  · exact setIf_get apart choice
  · rfl

theorem body_messages (req : ChatCompletionRequest) :
    bodyTurns (buildAnthropicBody parse req) = buildAnthropicMessages parse req := by
  have found : (buildAnthropicBody parse req).get "messages" = some (.arr (buildAnthropicMessages parse req)) := by
    rw [buildAnthropicBody,choice_get (by decide),setIf_get (by decide),setIf_get (by decide),setIf_get (by decide)]
    rfl
  rw [bodyTurns,found]

theorem body_system (req : ChatCompletionRequest) :
    (buildAnthropicBody parse req).get "system" = (systemText req).map .str := by
  rw [buildAnthropicBody,choice_get (by decide),setIf_get (by decide),setIf_get (by decide)]
  cases systemText req with
  | none => rfl
  | some text => exact Json.get_insert ..

/-- What the translation of a request keeps: all that is said, once and in order, each run of results in the user turn
after its calls, and every system text in the system field. -/
structure Translated (req : ChatCompletionRequest) : Prop where
  said : ((bodyTurns (buildAnthropicBody parse req)).flatMap turnSaid).map some = req.messages.flatMap (messageSaid parse)
  grouped : EachAfter AnswersRun (bodyTurns (buildAnthropicBody parse req))
  system : ∀ m ∈ req.messages, m.role = "system" → ∃ text, (buildAnthropicBody parse req).get "system" = some (.str text) ∧
    m.contentStr.toList <:+: text.toList

/-- The calls and results are named, each result follows its call, and no system text is more than the first. -/
structure Translatable (req : ChatCompletionRequest) : Prop where
  named : ∀ m ∈ req.messages, NamesCalls parse m
  answered : EachAfter Answered req.messages
  system : ∀ first, req.messages.find? (fun m => m.role = "system") = some first →
    ∀ m ∈ req.messages, m.role = "system" → m.contentStr.toList <:+: first.contentStr.toList

theorem system_iff (req : ChatCompletionRequest) :
    (∀ m ∈ req.messages, m.role = "system" → ∃ text, (buildAnthropicBody parse req).get "system" = some (.str text) ∧
      m.contentStr.toList <:+: text.toList) ↔
    ∀ first, req.messages.find? (fun m => m.role = "system") = some first →
      ∀ m ∈ req.messages, m.role = "system" → m.contentStr.toList <:+: first.contentStr.toList := by
  rw [body_system,systemText]
  cases found : req.messages.find? (fun m => m.role = "system") with
  | none =>
    refine iff_of_true (fun m member system => ?_) (fun first none => by cases none)
    have none := List.find?_eq_none.mp found m member
    exact absurd (decide_eq_true system) none
  | some first =>
    constructor
    · rintro all _ ⟨⟩ m member system
      obtain ⟨text,same,inside⟩ := all m member system
      cases same
      exact inside
    · intro all m member system
      exact ⟨first.contentStr,rfl,all first rfl m member system⟩

/-- A translation keeps the conversation if and only if the request can be translated. -/
theorem translated_iff (req : ChatCompletionRequest) : Translated parse req ↔ Translatable parse req := by
  constructor
  · rintro ⟨said,grouped,system⟩
    rw [body_messages] at said grouped
    exact ⟨(said_iff parse req).mp said,(grouped_iff parse req).mp grouped,(system_iff parse req).mp system⟩
  · rintro ⟨named,answered,system⟩
    refine ⟨?_,?_,(system_iff parse req).mpr system⟩
    · rw [body_messages]
      exact (said_iff parse req).mpr named
    · rw [body_messages]
      exact (grouped_iff parse req).mpr answered

end

def textMessage (role content : String) : ChatMessage := ⟨role,some content,none,none⟩

def twoSystems : ChatCompletionRequest :=
  ⟨"claude",[textMessage "system" "be nice",textMessage "system" "answer in French",textMessage "user" "hi"],
    none,none,none,none,none,none⟩

theorem second_system_lost : ¬Translated (fun _ => none) twoSystems := by
  intro translated
  have kept := (system_iff _ twoSystems).mp translated.system (textMessage "system" "be nice") rfl
    (textMessage "system" "answer in French") (List.mem_cons_of_mem _ List.mem_cons_self) rfl
  exact absurd kept.length_le (by decide)

end Ecphoria
