import Ecphoria.Gateway.MessageTranslation

/-! The answer of the other provider, translated as a whole or event by event. The stream
opens a tool call where its block starts and appends what arrives for the block; a client
puts the chunks together again. -/
namespace Ecphoria

/-- `as_u64`, zero where there is none. No integer of a JSON value is beyond 64 bits. -/
def natField (v : Json) (k : String) : Nat :=
  match v.get k with
  | some (.int n) => n.toNat
  | _ => 0

structure StreamState where
  toolIndexByBlock : Nat → Option Nat
  nextToolIndex : Nat

def StreamState.fresh : StreamState := ⟨fun _ => none,0⟩

section
variable (id model : String)

def streamChunk (delta finish : Json) : Json :=
  .obj [("choices",.arr [.obj [("delta",delta),("finish_reason",finish),("index",.int 0)]]),("created",.int 0),
    ("id",.str id),("model",.str model),("object",.str "chat.completion.chunk")]

def streamFinish (stop : String) : String :=
  if stop = "tool_use" then "tool_calls" else if stop = "max_tokens" then "length" else "stop"

def openedCall (index : Nat) (block : Json) : Json :=
  .obj [("function",.obj [("arguments",.str ""),("name",.str (strField block "name"))]),
    ("id",.str (strField block "id")),("index",.int index),("type",.str "function")]

def anthropicEventToOpenaiChunks (ev : Json) (state : StreamState) : List Json × StreamState :=
  let typ := strField ev "type"
  if typ = "message_start" then ([streamChunk id model (.obj [("role",.str "assistant")]) .null],state)
  else if typ = "content_block_start" then
    let block := (ev.get "content_block").getD .null
    if strField block "type" = "tool_use" then
      let o := state.nextToolIndex
      ([streamChunk id model (.obj [("tool_calls",.arr [openedCall o block])]) .null],
        ⟨Function.update state.toolIndexByBlock (natField ev "index") (some o),o + 1⟩)
    else ([],state)
  else if typ = "content_block_delta" then
    let delta := (ev.get "delta").getD .null
    match (delta.get "text").bind Json.asStr with
    | some text => ([streamChunk id model (.obj [("content",.str text)]) .null],state)
    | none =>
      match (delta.get "partial_json").bind Json.asStr with
      | some part =>
        let o := (state.toolIndexByBlock (natField ev "index")).getD 0
        ([streamChunk id model (.obj [("tool_calls",.arr [.obj [("function",.obj [("arguments",.str part)]),("index",.int o)]])])
          .null],state)
      | none => ([],state)
  else if typ = "message_delta" then
    let stop := ((((ev.get "delta").getD .null).get "stop_reason").bind Json.asStr).getD "end_turn"
    ([streamChunk id model (.obj []) (.str (streamFinish stop))],state)
  else ([],state)

def streamChunks (state : StreamState) : List Json → List Json
  | [] => []
  | ev :: later =>
    let (chunks,state) := anthropicEventToOpenaiChunks id model ev state
    chunks ++ streamChunks state later

end

section
/- `jsonText` is `serde_json::to_string`. -/
variable (jsonText : Json → String)

def openaiToolCall (block : Json) : Json :=
  .obj [("function",.obj [("arguments",.str (jsonText ((block.get "input").getD (.obj [])))),
    ("name",.str (strField block "name"))]),("id",.str (strField block "id")),("type",.str "function")]

/-- One block of an answer: its text is appended, its tool call pushed. -/
def translateBlock (done : String × List Json) (block : Json) : String × List Json :=
  if strField block "type" = "text" then (done.1 ++ strField block "text",done.2)
  else if strField block "type" = "tool_use" then (done.1,done.2 ++ [openaiToolCall jsonText block])
  else done

def anthropicContentToOpenai : Json → String × List Json
  | .arr blocks => blocks.foldl (translateBlock jsonText) ("",[])
  | _ => ("",[])

def wholeFinish (stop : String) : String :=
  if stop = "tool_use" then "tool_calls" else if stop = "max_tokens" then "length"
  else if stop = "end_turn" ∨ stop = "stop_sequence" then "stop" else stop

/-- What `forward_to_anthropic` makes of an answer without an error. -/
def anthropicAnswerToOpenai (created : Int) (model : String) (resp : Json) : Json :=
  let (text,calls) := anthropicContentToOpenai jsonText ((resp.get "content").getD .null)
  let usage := (resp.get "usage").getD .null
  let message := Json.obj ([("content",.str text),("role",.str "assistant")] ++
    if calls.isEmpty then [] else [("tool_calls",.arr calls)])
  .obj [("choices",.arr [.obj [("finish_reason",.str (wholeFinish (((resp.get "stop_reason").bind Json.asStr).getD "end_turn"))),
      ("index",.int 0),("message",message)]]),
    ("created",.int created),("id",.str (strField resp "id")),("model",.str model),("object",.str "chat.completion"),
    ("usage",.obj [("completion_tokens",.int (natField usage "output_tokens")),
      ("prompt_tokens",.int (natField usage "input_tokens")),
      ("total_tokens",.int ((natField usage "input_tokens" + natField usage "output_tokens") % 2 ^ 64))])]

end

structure CompletionCall where
  id : String
  name : String
  arguments : String
deriving DecidableEq,Repr

structure Completion where
  text : String
  calls : List CompletionCall
  finish : Option String
deriving DecidableEq,Repr

def readCall (call : Json) : CompletionCall :=
  let func := (call.get "function").getD .null
  ⟨strField call "id",strField func "name",strField func "arguments"⟩

def readCompletion (answer : Json) : Completion :=
  match answer.get "choices" with
  | some (.arr (choice :: _)) =>
    let message := (choice.get "message").getD .null
    ⟨strField message "content",
      match message.get "tool_calls" with
      | some (.arr calls) => calls.map readCall
      | _ => [],
      (choice.get "finish_reason").bind Json.asStr⟩
  | _ => ⟨"",[],none⟩

/-- A piece of a tool call opens the call of its index, or goes to the end of its arguments. -/
def collectCall (calls : List CompletionCall) (piece : Json) : List CompletionCall :=
  if natField piece "index" < calls.length then
    calls.modify (natField piece "index") (fun call => { call with arguments := call.arguments ++ (readCall piece).arguments })
  else calls ++ [readCall piece]

def collectChunk (c : Completion) (chunk : Json) : Completion :=
  match chunk.get "choices" with
  | some (.arr (choice :: _)) =>
    let delta := (choice.get "delta").getD .null
    ⟨c.text ++ strField delta "content",
      match delta.get "tool_calls" with
      | some (.arr pieces) => pieces.foldl collectCall c.calls
      | _ => c.calls,
      ((choice.get "finish_reason").bind Json.asStr).orElse (fun _ => c.finish)⟩
  | _ => c

def collect (chunks : List Json) : Completion := chunks.foldl collectChunk ⟨"",[],none⟩

inductive ContentBlock where
  | text (text : String)
  | toolUse (id name : String) (input : Json)

def ContentBlock.toJson : ContentBlock → Json
  | .text t => .obj [("text",.str t),("type",.str "text")]
  | .toolUse id name input => .obj [("id",.str id),("input",input),("name",.str name),("type",.str "tool_use")]

def ContentBlock.startJson : ContentBlock → Json
  | .text _ => .obj [("text",.str ""),("type",.str "text")]
  | .toolUse id name _ => .obj [("id",.str id),("input",.obj []),("name",.str name),("type",.str "tool_use")]

structure AnthropicAnswer where
  id : String
  blocks : List (UInt64 × ContentBlock)
  stopReason : Option String
  inputTokens : UInt64
  outputTokens : UInt64

def AnthropicAnswer.toJson (a : AnthropicAnswer) : Json :=
  .obj [("content",.arr (a.blocks.map (fun b => b.2.toJson))),("id",.str a.id),("stop_reason",.ofOption a.stopReason),
    ("usage",.obj [("input_tokens",.int a.inputTokens.toNat),("output_tokens",.int a.outputTokens.toNat)])]

inductive StreamEvent where
  | messageStart
  | blockStart (index : UInt64) (block : ContentBlock)
  | textDelta (index : UInt64) (text : String)
  | inputDelta (index : UInt64) (part : String)
  | blockStop (index : UInt64)
  | messageDelta (stopReason : Option String)
  | messageStop
  | ping

def StreamEvent.toJson : StreamEvent → Json
  | .messageStart => .obj [("type",.str "message_start")]
  | .blockStart index block =>
    .obj [("content_block",block.startJson),("index",.int index.toNat),("type",.str "content_block_start")]
  | .textDelta index text =>
    .obj [("delta",.obj [("text",.str text),("type",.str "text_delta")]),("index",.int index.toNat),
      ("type",.str "content_block_delta")]
  | .inputDelta index part =>
    .obj [("delta",.obj [("partial_json",.str part),("type",.str "input_json_delta")]),("index",.int index.toNat),
      ("type",.str "content_block_delta")]
  | .blockStop index => .obj [("index",.int index.toNat),("type",.str "content_block_stop")]
  | .messageDelta stopReason => .obj [("delta",.obj [("stop_reason",.ofOption stopReason)]),("type",.str "message_delta")]
  | .messageStop => .obj [("type",.str "message_stop")]
  | .ping => .obj [("type",.str "ping")]

structure ToolStart where
  index : UInt64
  id : String
  name : String
  input : Json

def toolOf (b : UInt64 × ContentBlock) : Option ToolStart :=
  match b.2 with
  | .toolUse id name input => some ⟨b.1,id,name,input⟩
  | .text _ => none

def blockText : ContentBlock → String
  | .text t => t
  | .toolUse _ _ _ => ""

namespace StreamEvent

def started : StreamEvent → Option (UInt64 × ContentBlock)
  | .blockStart index block => some (index,block)
  | _ => none

def toolStart (ev : StreamEvent) : Option ToolStart := ev.started.bind toolOf

def textPiece : StreamEvent → Option String
  | .textDelta _ text => some text
  | _ => none

def inputPiece (index : UInt64) : StreamEvent → Option String
  | .inputDelta other part => if other = index then some part else none
  | _ => none

def stopPiece : StreamEvent → Option (Option String)
  | .messageDelta stopReason => some stopReason
  | _ => none

end StreamEvent

/-- An input piece comes after the start of the tool call it is of. -/
def Opened (before : List StreamEvent) (ev : StreamEvent) : Prop :=
  ∀ index part, ev = .inputDelta index part → ∃ start ∈ before.filterMap StreamEvent.toolStart, start.index = index

/-- A stream that delivers an answer: its blocks start in order, under indices of their own, its text comes in pieces
in order, the input of each tool call in pieces that are together a JSON text of it, and its stop reason once. -/
structure Delivers (parse : String → Option Json) (jsonText : Json → String) (answer : AnthropicAnswer)
    (events : List StreamEvent) : Prop where
  starts : events.filterMap StreamEvent.started = answer.blocks
  distinct : (answer.blocks.map Prod.fst).Nodup
  text : String.join (events.filterMap StreamEvent.textPiece) = String.join (answer.blocks.map (fun b => blockText b.2))
  opened : EachAfter Opened events
  input : ∀ start ∈ answer.blocks.filterMap toolOf,
    parse (String.join (events.filterMap (StreamEvent.inputPiece start.index))) = parse (jsonText start.input)
  stop : events.filterMap StreamEvent.stopPiece = [answer.stopReason]

theorem join_snoc (texts : List String) (last : String) : String.join (texts ++ [last]) = String.join texts ++ last := by
  rw [String.join,List.foldl_append]
  rfl

theorem filterMap_snoc_none {α β : Type} {f : α → Option β} {items : List α} {last : α} (none : f last = none) :
    (items ++ [last]).filterMap f = items.filterMap f := by
  rw [List.filterMap_append,List.filterMap_cons_none none,List.filterMap_nil,List.append_nil]

theorem filterMap_snoc_some {α β : Type} {f : α → Option β} {items : List α} {last : α} {made : β} (some : f last = some made) :
    (items ++ [last]).filterMap f = items.filterMap f ++ [made] := by
  rw [List.filterMap_append,List.filterMap_cons_some some,List.filterMap_nil]

/-- A call that a stream has opened, with what has come of its arguments. -/
def openCall (before : List StreamEvent) (start : ToolStart) : CompletionCall :=
  ⟨start.id,start.name,String.join (before.filterMap (StreamEvent.inputPiece start.index))⟩

def openCalls (before : List StreamEvent) : List CompletionCall :=
  (before.filterMap StreamEvent.toolStart).map (openCall before)

theorem openCall_snoc_none {before : List StreamEvent} {ev : StreamEvent} {start : ToolStart}
    (none : ev.inputPiece start.index = none) : openCall (before ++ [ev]) start = openCall before start := by
  rw [openCall,filterMap_snoc_none none,openCall]

theorem openCall_snoc_some {before : List StreamEvent} {ev : StreamEvent} {start : ToolStart} {part : String}
    (some : ev.inputPiece start.index = some part) : openCall (before ++ [ev]) start =
      { openCall before start with arguments := (openCall before start).arguments ++ part } := by
  rw [openCall,filterMap_snoc_some some,join_snoc,openCall]

section
variable (id model : String)

def streamStep (s : StreamState × Completion) (ev : StreamEvent) : StreamState × Completion :=
  let (chunks,state) := anthropicEventToOpenaiChunks id model ev.toJson s.1
  (state,chunks.foldl collectChunk s.2)

theorem collect_run (events : List StreamEvent) (s : StreamState × Completion) :
    (streamChunks id model s.1 (events.map StreamEvent.toJson)).foldl collectChunk s.2 = (events.foldl (streamStep id model) s).2 := by
  induction events generalizing s with
  | nil => rfl
  | cons ev later ih =>
    rw [List.map_cons,streamChunks,List.foldl_cons,← ih,streamStep,List.foldl_append]

/-- What the translation of a stream knows, and what its client has, once some events are behind them. -/
structure Streamed (before : List StreamEvent) (s : StreamState × Completion) : Prop where
  text : s.2.text = String.join (before.filterMap StreamEvent.textPiece)
  calls : s.2.calls = openCalls before
  finish : s.2.finish = ((before.filterMap StreamEvent.stopPiece).getLast?).map (fun stop => streamFinish (stop.getD "end_turn"))
  next : s.1.nextToolIndex = (before.filterMap StreamEvent.toolStart).length
  index : ∀ (k : Nat) start, (before.filterMap StreamEvent.toolStart)[k]? = some start →
    s.1.toolIndexByBlock start.index.toNat = some k

theorem step_silent (s : StreamState × Completion) {ev : StreamEvent}
    (silent : ev = .messageStop ∨ ev = .ping ∨ (∃ index, ev = .blockStop index) ∨ ∃ index text, ev = .blockStart index (.text text)) :
    streamStep id model s ev = s := by
  rcases silent with rfl | rfl | ⟨index,rfl⟩ | ⟨index,text,rfl⟩
  · rfl
  · rfl
  · rfl
  · rfl

theorem step_text (s : StreamState × Completion) (index : UInt64) (text : String) :
    streamStep id model s (.textDelta index text) = (s.1,{ s.2 with text := s.2.text ++ text }) := rfl

theorem step_finish (s : StreamState × Completion) (stop : Option String) : streamStep id model s (.messageDelta stop) =
    (s.1,{ s.2 with text := s.2.text ++ "", finish := some (streamFinish (stop.getD "end_turn")) }) := by
  cases stop with
  | none => rfl
  | some stop => rfl

theorem step_start (s : StreamState × Completion) :
    streamStep id model s .messageStart = (s.1,{ s.2 with text := s.2.text ++ "" }) := rfl

theorem step_opens (s : StreamState × Completion) (index : UInt64) (tool name : String) (input : Json) :
    streamStep id model s (.blockStart index (.toolUse tool name input)) =
      (⟨Function.update s.1.toolIndexByBlock index.toNat (some s.1.nextToolIndex),s.1.nextToolIndex + 1⟩,
        ⟨s.2.text ++ "",collectCall s.2.calls (openedCall s.1.nextToolIndex (ContentBlock.toolUse tool name input).startJson),
          s.2.finish⟩) := rfl

theorem step_input (s : StreamState × Completion) (index : UInt64) (part : String) :
    streamStep id model s (.inputDelta index part) =
      (s.1,⟨s.2.text ++ "",collectCall s.2.calls (.obj [("function",.obj [("arguments",.str part)]),
        ("index",.int ((s.1.toolIndexByBlock index.toNat).getD 0))]),s.2.finish⟩) := rfl

theorem collectCall_opens {calls : List CompletionCall} {index : Nat} (tool name : String) (input : Json)
    (last : calls.length = index) :
    collectCall calls (openedCall index (ContentBlock.toolUse tool name input).startJson) = calls ++ [⟨tool,name,""⟩] := by
  have own : natField (openedCall index (ContentBlock.toolUse tool name input).startJson) "index" = index := rfl
  rw [collectCall,own,if_neg (by omega)]
  rfl

theorem collectCall_input {calls : List CompletionCall} {index : Nat} (part : String) (known : index < calls.length) :
    collectCall calls (.obj [("function",.obj [("arguments",.str part)]),("index",.int index)]) =
      calls.modify index (fun call => { call with arguments := call.arguments ++ part }) := if_pos known

theorem openCalls_other {before : List StreamEvent} {ev : StreamEvent} (noStart : ev.toolStart = none)
    (noPiece : ∀ index, ev.inputPiece index = none) : openCalls (before ++ [ev]) = openCalls before := by
  rw [openCalls,filterMap_snoc_none noStart]
  exact List.map_congr_left (fun start _ => openCall_snoc_none (noPiece start.index))

/-- What can come next: a tool call under an index of its own, a piece of a call that is open, or anything else. -/
structure Next (before : List StreamEvent) (ev : StreamEvent) : Prop where
  distinct : (((before ++ [ev]).filterMap StreamEvent.toolStart).map ToolStart.index).Nodup
  unopened : ∀ start, ev.toolStart = some start → before.filterMap (StreamEvent.inputPiece start.index) = []
  opened : Opened before ev

namespace Streamed
variable {id model : String} {before : List StreamEvent} {s : StreamState × Completion}

theorem start (streamed : Streamed before s) {index : UInt64} {tool name : String} {input : Json}
    (next : Next before (.blockStart index (.toolUse tool name input))) :
    Streamed (before ++ [.blockStart index (.toolUse tool name input)])
      (streamStep id model s (.blockStart index (.toolUse tool name input))) := by
  have opens : (before ++ [StreamEvent.blockStart index (.toolUse tool name input)]).filterMap StreamEvent.toolStart =
      before.filterMap StreamEvent.toolStart ++ [⟨index,tool,name,input⟩] := filterMap_snoc_some rfl
  have count : s.2.calls.length = s.1.nextToolIndex := by rw [streamed.calls,streamed.next,openCalls,List.length_map]
  have apart : index ∉ (before.filterMap StreamEvent.toolStart).map ToolStart.index := by
    have distinct := next.distinct
    rw [opens,List.map_append,List.map_singleton] at distinct
    exact List.disjoint_singleton.mp (List.disjoint_of_nodup_append distinct)
  rw [step_opens,collectCall_opens tool name input count]
  refine ⟨?_,?_,?_,?_,?_⟩
  · rw [filterMap_snoc_none rfl,← streamed.text]
    exact String.append_empty
  · have none : before.filterMap (StreamEvent.inputPiece index) = [] := next.unopened ⟨index,tool,name,input⟩ rfl
    have last : openCall (before ++ [.blockStart index (.toolUse tool name input)]) ⟨index,tool,name,input⟩ = ⟨tool,name,""⟩ := by
      rw [openCall_snoc_none rfl,openCall,none]
      rfl
    rw [openCalls,opens,List.map_append,List.map_singleton,last,streamed.calls,openCalls]
    exact congrArg (· ++ _) (List.map_congr_left (fun start _ => (openCall_snoc_none rfl).symm))
  · rw [filterMap_snoc_none rfl]
    exact streamed.finish
  · rw [opens,List.length_append,List.length_singleton,← streamed.next]
  · intro k other found
    rw [opens] at found
    rw [List.getElem?_append] at found
    dsimp only
    split at found
    · have listed : other.index ∈ (before.filterMap StreamEvent.toolStart).map ToolStart.index :=
        List.mem_map_of_mem (List.mem_of_getElem? found)
      have different : other.index.toNat ≠ index.toNat := fun same => apart (UInt64.toNat_inj.mp same ▸ listed)
      rw [Function.update_of_ne different]
      exact streamed.index k other found
    · rename_i beyond
      obtain ⟨bound,same⟩ := List.getElem?_eq_some_iff.mp found
      rw [List.length_singleton] at bound
      have place : k = s.1.nextToolIndex := by rw [streamed.next]; omega
      have own : other.index = index := by
        rw [← same]
        simp [List.getElem_singleton]
      rw [own,Function.update_self,place]

theorem place (streamed : Streamed before s) {index : UInt64} {part : String} (opened : Opened before (.inputDelta index part)) :
    ∃ k start, (before.filterMap StreamEvent.toolStart)[k]? = some start ∧ start.index = index ∧
      s.1.toolIndexByBlock index.toNat = some k := by
  obtain ⟨start,listed,rfl⟩ := opened index part rfl
  obtain ⟨k,found⟩ := List.getElem?_of_mem listed
  exact ⟨k,start,found,rfl,streamed.index k start found⟩

theorem input (streamed : Streamed before s) {index : UInt64} {part : String} (next : Next before (.inputDelta index part)) :
    Streamed (before ++ [.inputDelta index part]) (streamStep id model s (.inputDelta index part)) := by
  obtain ⟨k,start,found,rfl,placed⟩ := streamed.place next.opened
  have same : (before ++ [StreamEvent.inputDelta start.index part]).filterMap StreamEvent.toolStart =
      before.filterMap StreamEvent.toolStart := filterMap_snoc_none rfl
  have count : k < s.2.calls.length := by
    rw [streamed.calls,openCalls,List.length_map]
    exact (List.getElem?_eq_some_iff.mp found).1
  rw [step_input,placed,Option.getD_some,collectCall_input part count]
  refine ⟨?_,?_,?_,?_,?_⟩
  · rw [filterMap_snoc_none rfl,← streamed.text]
    exact String.append_empty
  · have distinct := next.distinct
    rw [same] at distinct
    rw [streamed.calls,openCalls,openCalls,same]
    refine List.ext_getElem? (fun j => ?_)
    rw [List.getElem?_modify,List.getElem?_map,List.getElem?_map]
    cases there : (before.filterMap StreamEvent.toolStart)[j]? with
    | none => rfl
    | some other =>
      rw [Option.map_some,Option.map_some,Option.map_eq_map,Option.map_some,Option.some.injEq]
      by_cases here : k = j
      · subst here
        cases found.symm.trans there
        have piece : (StreamEvent.inputDelta start.index part).inputPiece start.index = some part := if_pos rfl
        rw [if_pos rfl]
        exact (openCall_snoc_some piece).symm
      · have apart : start.index ≠ other.index := by
          intro equal
          refine here ((List.getElem?_inj (by rw [List.length_map]; exact (List.getElem?_eq_some_iff.mp found).1) distinct).mp ?_)
          rw [List.getElem?_map,List.getElem?_map,found,there,Option.map_some,Option.map_some,equal]
        have piece : (StreamEvent.inputDelta start.index part).inputPiece other.index = none := if_neg apart
        rw [if_neg here]
        exact (openCall_snoc_none piece).symm
  · rw [filterMap_snoc_none rfl]
    exact streamed.finish
  · rw [same]
    exact streamed.next
  · rw [same]
    exact streamed.index

theorem quiet (streamed : Streamed before s) {ev : StreamEvent} (noStart : ev.toolStart = none)
    (noPiece : ∀ index, ev.inputPiece index = none) {text : String} {finish : Option String}
    (texts : text = String.join ((before ++ [ev]).filterMap StreamEvent.textPiece))
    (finishes : finish = (((before ++ [ev]).filterMap StreamEvent.stopPiece).getLast?).map
      (fun stop => streamFinish (stop.getD "end_turn"))) :
    Streamed (before ++ [ev]) (s.1,⟨text,s.2.calls,finish⟩) := by
  refine ⟨texts,?_,finishes,?_,?_⟩
  · rw [openCalls_other noStart noPiece]
    exact streamed.calls
  · rw [filterMap_snoc_none noStart]
    exact streamed.next
  · rw [filterMap_snoc_none noStart]
    exact streamed.index

theorem silent (streamed : Streamed before s) {ev : StreamEvent} (noStart : ev.toolStart = none)
    (noPiece : ∀ index, ev.inputPiece index = none) (noText : ev.textPiece = none) (noStop : ev.stopPiece = none) :
    Streamed (before ++ [ev]) s := by
  refine streamed.quiet noStart noPiece ?_ ?_
  · rw [filterMap_snoc_none noText]
    exact streamed.text
  · rw [filterMap_snoc_none noStop]
    exact streamed.finish

theorem step (streamed : Streamed before s) (ev : StreamEvent) (next : Next before ev) :
    Streamed (before ++ [ev]) (streamStep id model s ev) := by
  cases ev with
  | messageStart =>
    rw [step_start,String.append_empty]
    exact streamed.silent rfl (fun _ => rfl) rfl rfl
  | blockStart index block =>
    cases block with
    | text text =>
      rw [step_silent id model s (Or.inr (Or.inr (Or.inr ⟨index,text,rfl⟩)))]
      exact streamed.silent rfl (fun _ => rfl) rfl rfl
    | toolUse tool name input => exact streamed.start next
  | textDelta index text =>
    rw [step_text]
    refine streamed.quiet rfl (fun _ => rfl) ?_ ?_
    · rw [filterMap_snoc_some (f := StreamEvent.textPiece) rfl,join_snoc,streamed.text]
    · rw [filterMap_snoc_none rfl]
      exact streamed.finish
  | inputDelta index part => exact streamed.input next
  | blockStop index =>
    rw [step_silent id model s (Or.inr (Or.inr (Or.inl ⟨index,rfl⟩)))]
    exact streamed.silent rfl (fun _ => rfl) rfl rfl
  | messageDelta stop =>
    rw [step_finish,String.append_empty]
    refine streamed.quiet rfl (fun _ => rfl) ?_ ?_
    · rw [filterMap_snoc_none rfl]
      exact streamed.text
    · rw [filterMap_snoc_some (f := StreamEvent.stopPiece) rfl,List.getLast?_concat,Option.map_some]
  | messageStop =>
    rw [step_silent id model s (Or.inl rfl)]
    exact streamed.silent rfl (fun _ => rfl) rfl rfl
  | ping =>
    rw [step_silent id model s (Or.inr (Or.inl rfl))]
    exact streamed.silent rfl (fun _ => rfl) rfl rfl

end Streamed

theorem streamed_fresh : Streamed [] (StreamState.fresh,⟨"",[],none⟩) where
  text := rfl
  calls := rfl
  finish := rfl
  next := rfl
  index k start found := by cases found

theorem streamed_run (events : List StreamEvent) (follows : EachAfter Next events) :
    Streamed events (events.foldl (streamStep id model) (StreamState.fresh,⟨"",[],none⟩)) := by
  induction events using List.reverseRecOn with
  | nil => exact streamed_fresh
  | append_singleton events ev ih =>
    obtain ⟨earlier,next⟩ := eachAfter_snoc.mp follows
    rw [List.foldl_append,List.foldl_cons,List.foldl_nil]
    exact (ih earlier).step ev next

end

theorem toolOf_index {b : UInt64 × ContentBlock} {start : ToolStart} (tool : toolOf b = some start) : start.index = b.1 := by
  obtain ⟨index,block⟩ := b
  cases block with
  | text text => cases tool
  | toolUse id name input =>
    cases tool
    rfl

theorem tools_sublist (blocks : List (UInt64 × ContentBlock)) :
    ((blocks.filterMap toolOf).map ToolStart.index).Sublist (blocks.map Prod.fst) := by
  induction blocks with
  | nil => exact .slnil
  | cons b blocks ih =>
    cases tool : toolOf b with
    | none =>
      rw [List.filterMap_cons_none tool]
      exact ih.cons b.1
    | some start =>
      rw [List.filterMap_cons_some tool,List.map_cons,List.map_cons,toolOf_index tool]
      exact ih.cons_cons b.1

theorem inputPiece_some {ev : StreamEvent} {index : UInt64} {part : String} (piece : ev.inputPiece index = some part) :
    ev = .inputDelta index part := by
  cases ev with
  | inputDelta other text =>
    rw [StreamEvent.inputPiece] at piece
    split at piece
    · rename_i same
      cases piece
      rw [same]
    · cases piece
  | _ => cases piece

section
variable {parse : String → Option Json} {jsonText : Json → String} {answer : AnthropicAnswer} {events : List StreamEvent}

theorem Delivers.tools (delivers : Delivers parse jsonText answer events) :
    events.filterMap StreamEvent.toolStart = answer.blocks.filterMap toolOf := by
  rw [← delivers.starts,List.filterMap_filterMap]
  rfl

theorem Delivers.follows (delivers : Delivers parse jsonText answer events) : EachAfter Next events := by
  intro before ev after split
  have all : ((events.filterMap StreamEvent.toolStart).map ToolStart.index).Nodup := by
    rw [delivers.tools]
    exact delivers.distinct.sublist (tools_sublist answer.blocks)
  have whole : events = (before ++ [ev]) ++ after := by rw [split,List.append_assoc,List.singleton_append]
  rw [whole,List.filterMap_append,List.map_append] at all
  have distinct := (List.nodup_append'.mp all).1
  refine ⟨distinct,?_,delivers.opened before ev after split⟩
  intro start opens
  rw [List.filterMap_eq_nil_iff]
  intro earlier member
  cases piece : earlier.inputPiece start.index with
  | none => rfl
  | some part =>
    -- a piece before its start would have another start before it
    obtain ⟨first,second,parted⟩ := List.append_of_mem member
    have placed := delivers.opened first earlier (second ++ ev :: after)
      (by rw [split,parted,List.append_assoc,List.cons_append])
    obtain ⟨other,listed,same⟩ := placed start.index part (inputPiece_some piece)
    have known : start.index ∈ (before.filterMap StreamEvent.toolStart).map ToolStart.index := by
      rw [parted,List.filterMap_append,List.map_append,← same]
      exact List.mem_append_left _ (List.mem_map_of_mem listed)
    rw [filterMap_snoc_some opens,List.map_append,List.map_singleton] at distinct
    exact absurd known (List.disjoint_singleton.mp (List.disjoint_of_nodup_append distinct))

end

section
variable (jsonText : Json → String)

theorem translateBlock_tool (done : String × List Json) (id name : String) (input : Json) :
    translateBlock jsonText done (ContentBlock.toolUse id name input).toJson =
      (done.1,done.2 ++ [openaiToolCall jsonText (ContentBlock.toolUse id name input).toJson]) := rfl

def wholeCall (start : ToolStart) : CompletionCall := ⟨start.id,start.name,jsonText start.input⟩

theorem content_read (blocks : List (UInt64 × ContentBlock)) :
    ((blocks.map (fun b => b.2.toJson)).foldl (translateBlock jsonText) ("",[])).1 = String.join (blocks.map (fun b => blockText b.2)) ∧
      ((blocks.map (fun b => b.2.toJson)).foldl (translateBlock jsonText) ("",[])).2.map readCall =
        (blocks.filterMap toolOf).map (wholeCall jsonText) := by
  induction blocks using List.reverseRecOn with
  | nil => exact ⟨rfl,rfl⟩
  | append_singleton blocks b ih =>
    obtain ⟨index,block⟩ := b
    obtain ⟨texts,calls⟩ := ih
    rw [List.map_append,List.foldl_append,List.map_append,List.map_singleton,List.map_singleton,join_snoc,← texts]
    cases block with
    | text text =>
      rw [filterMap_snoc_none (f := toolOf) rfl]
      exact ⟨rfl,calls⟩
    | toolUse id name input =>
      rw [filterMap_snoc_some (f := toolOf) rfl,List.map_append,← calls,List.foldl_cons,List.foldl_nil,translateBlock_tool,
        List.map_append]
      exact ⟨String.append_empty.symm,rfl⟩

theorem completion_read (text finish : String) (calls : List Json) (rest : List (String × Json)) :
    readCompletion (.obj (("choices",.arr [.obj [("finish_reason",.str finish),("index",.int 0),("message",
      .obj ([("content",.str text),("role",.str "assistant")] ++ if calls.isEmpty then [] else [("tool_calls",.arr calls)]))]]) :: rest)) =
      ⟨text,calls.map readCall,some finish⟩ := by
  cases calls with
  | nil => rfl
  | cons call calls => rfl

theorem answer_read (created : Int) (model : String) (answer : AnthropicAnswer) :
    readCompletion (anthropicAnswerToOpenai jsonText created model answer.toJson) =
      ⟨String.join (answer.blocks.map (fun b => blockText b.2)),(answer.blocks.filterMap toolOf).map (wholeCall jsonText),
        some (wholeFinish (answer.stopReason.getD "end_turn"))⟩ := by
  obtain ⟨texts,calls⟩ := content_read jsonText answer.blocks
  have content : (answer.toJson.get "content").getD .null = .arr (answer.blocks.map (fun b => b.2.toJson)) := rfl
  have stop : ((answer.toJson.get "stop_reason").bind Json.asStr).getD "end_turn" = answer.stopReason.getD "end_turn" := by
    cases given : answer.stopReason with
    | none =>
      rw [AnthropicAnswer.toJson,given]
      rfl
    | some reason =>
      rw [AnthropicAnswer.toJson,given]
      rfl
  rw [anthropicAnswerToOpenai,content,stop]
  refine (completion_read _ _ _ _).trans ?_
  rw [texts,calls]

end

/-- The stop reasons that the two translations read alike. -/
def plainStops : List String := ["end_turn","stop_sequence","tool_use","max_tokens","stop"]

theorem finish_iff (stop : String) : streamFinish stop = wholeFinish stop ↔ stop ∈ plainStops := by
  by_cases tool : stop = "tool_use"
  · subst tool
    decide
  · by_cases long : stop = "max_tokens"
    · subst long
      decide
    · by_cases ended : stop = "end_turn" ∨ stop = "stop_sequence"
      · rcases ended with rfl | rfl
        · decide
        · decide
      · rw [streamFinish,wholeFinish,if_neg tool,if_neg tool,if_neg long,if_neg long,if_neg ended]
        rw [not_or] at ended
        simp [plainStops,tool,long,ended.1,ended.2,eq_comm]

/-- The same text and finish reason, and the same calls in the same order, with arguments that read as the same JSON. -/
structure SameCompletion (parse : String → Option Json) (a b : Completion) : Prop where
  text : a.text = b.text
  calls : List.Forall₂ (fun x y => x.id = y.id ∧ x.name = y.name ∧ parse x.arguments = parse y.arguments) a.calls b.calls
  finish : a.finish = b.finish

/-- The two translations agree on an answer if and only if they read its stop reason alike. -/
theorem stream_agrees_iff {parse : String → Option Json} {jsonText : Json → String} {answer : AnthropicAnswer}
    {events : List StreamEvent} (delivers : Delivers parse jsonText answer events) (id model : String) (created : Int) :
    SameCompletion parse (collect (streamChunks id model .fresh (events.map StreamEvent.toJson)))
        (readCompletion (anthropicAnswerToOpenai jsonText created model answer.toJson)) ↔
      answer.stopReason.getD "end_turn" ∈ plainStops := by
  have streamed := streamed_run id model events delivers.follows
  rw [answer_read,collect,collect_run id model events (StreamState.fresh,⟨"",[],none⟩)]
  have finish := streamed.finish
  rw [delivers.stop,List.getLast?_singleton,Option.map_some] at finish
  rw [← finish_iff]
  constructor
  · intro agree
    exact Option.some.inj (finish.symm.trans agree.finish)
  · intro same
    refine ⟨streamed.text.trans delivers.text,?_,finish.trans (congrArg some same)⟩
    rw [streamed.calls,openCalls,delivers.tools,List.forall₂_map_left_iff,List.forall₂_map_right_iff,List.forall₂_same]
    exact fun start listed => ⟨rfl,rfl,delivers.input start listed⟩

def emptyObject (text : String) : Option Json := if text = "\x7b\x7d" then some (.obj []) else none

def toolAnswer : AnthropicAnswer := ⟨"m",[(3,.toolUse "t" "now" (.obj []))],some "tool_use",1,1⟩

def toolEvents : List StreamEvent :=
  [.blockStart 3 (.toolUse "t" "now" (.obj [])),.inputDelta 3 "\x7b",.inputDelta 3 "\x7d",.messageDelta (some "tool_use")]

theorem toolEvents_deliver : Delivers emptyObject (fun _ => "\x7b\x7d") toolAnswer toolEvents where
  starts := rfl
  distinct := by decide
  text := rfl
  opened := by
    have placed (part : String) (earlier : List StreamEvent) :
        Opened (.blockStart 3 (.toolUse "t" "now" (.obj [])) :: earlier) (.inputDelta 3 part) := by
      rintro index other ⟨⟩
      exact ⟨_,List.mem_cons_self,rfl⟩
    have first : EachAfter Opened [.blockStart 3 (.toolUse "t" "now" (.obj []))] :=
      eachAfter_snoc.mpr ⟨eachAfter_nil _,fun _ _ same => by cases same⟩
    have second := eachAfter_snoc.mpr ⟨first,placed "\x7b" []⟩
    have third := eachAfter_snoc.mpr ⟨second,placed "\x7d" [.inputDelta 3 "\x7b"]⟩
    exact eachAfter_snoc.mpr ⟨third,fun _ _ same => by cases same⟩
  input := by
    intro start listed
    cases List.mem_singleton.mp listed
    rfl
  stop := rfl

theorem stream_agrees_tool : Delivers emptyObject (fun _ => "\x7b\x7d") toolAnswer toolEvents ∧
    SameCompletion emptyObject (collect (streamChunks "m" "claude" .fresh (toolEvents.map StreamEvent.toJson)))
      (readCompletion (anthropicAnswerToOpenai (fun _ => "\x7b\x7d") 0 "claude" toolAnswer.toJson)) :=
  ⟨toolEvents_deliver,(stream_agrees_iff toolEvents_deliver "m" "claude" 0).mpr (by decide)⟩

/-- An answer that was refused: the whole answer says so, the stream says that it stopped. -/
theorem refusal_differs :
    Delivers emptyObject (fun _ => "\x7b\x7d") ⟨"m",[],some "refusal",1,1⟩ [.messageDelta (some "refusal")] ∧
      ¬SameCompletion emptyObject (collect (streamChunks "m" "claude" .fresh ([StreamEvent.messageDelta (some "refusal")].map StreamEvent.toJson)))
        (readCompletion (anthropicAnswerToOpenai (fun _ => "\x7b\x7d") 0 "claude"
          (AnthropicAnswer.toJson ⟨"m",[],some "refusal",1,1⟩))) := by
  refine ⟨⟨rfl,List.nodup_nil,rfl,?_,fun start listed => absurd listed List.not_mem_nil,rfl⟩,?_⟩
  · exact eachAfter_snoc.mpr ⟨eachAfter_nil _,fun _ _ same => by cases same⟩
  · intro agree
    exact absurd agree.finish (by decide)

end Ecphoria
