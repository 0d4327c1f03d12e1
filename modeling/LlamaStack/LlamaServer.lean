import LlamaStack.GoJsonDecode

/-!
# The Responses stream of the vendored server

What `server-task.cpp` makes of the results of one streamed task, event by event, and
what `server-context.cpp` sends. The parser of the generated text is not in the
snapshot: a result comes with the differences and the message that it found. The JSON
library is not there either, and is a parameter.
-/
namespace LlamaServer

open GoBytes GoJson

/-- What the server takes from its JSON library: how a string is spelled in a value, and the
text of a value (`dump_safe`). -/
structure JsonLibrary where
  escape : Text → Lexeme
  dump : Json → Bytes

variable (json : JsonLibrary)

def str (t : Text) : Json := .str (json.escape t)

def object (ms : List (String × Json)) : Json := .obj (ms.map fun m => (json.escape m.1.toList, m.2))

def int (i : Int32) : Json := .num (formatInt i.toInt64)

/-! ## Results -/

/-- `common_chat_tool_call`. -/
structure ToolCall where
  name : Text
  arguments : Text
  id : Text

/-- `common_chat_msg_diff`; the index of the call is read for other endpoints only. -/
structure MsgDiff where
  reasoningContentDelta : Text
  contentDelta : Text
  toolCallDelta : ToolCall

/-- `common_chat_msg`. -/
structure ChatMsg where
  reasoningContent : Text
  content : Text
  toolCalls : List ToolCall

/-- `result_prompt_progress`. -/
structure PromptProgress where
  total : Int32
  cache : Int32
  processed : Int32
  timeMs : Int64

/-- `server_task_result_cmpl_partial`, with the differences that `update` found and
the numbers of its statistics if these are set. -/
structure CmplPartial where
  progress : Option PromptProgress
  nDecoded : Int32
  msgDiffs : List MsgDiff
  stats : Option (List (String × GoJson.Num))

/-- `server_task_result_cmpl_final`, with the message that `update` found. -/
structure CmplFinal where
  msg : ChatMsg
  model : Text
  time : Int64
  nPromptTokens : Int32
  nDecoded : Int32
  nPromptTokensCache : Int32
  stats : Option (List (String × GoJson.Num))

/-- `task_result_state`. -/
structure TaskResultState where
  thinkingBlockStarted : Bool := false
  textBlockStarted : Bool := false
  respCreated : Bool := false
  respId : Text
  respReasoningId : Text
  respMessageId : Text
  respFcId : Text := []

/-- An event and the members of its data, of which the first is the type. -/
structure Event where
  name : String
  data : List (String × Json)

def Event.of (name : String) (rest : List (String × Json)) : Event := ⟨name, ("type", str json name.toList) :: rest⟩

def PromptProgress.toJson (p : PromptProgress) : Json :=
  object json [("total", int p.total), ("cache", int p.cache), ("processed", int p.processed),
    ("time_ms", .num (formatInt p.timeMs))]

def statsToJson (stats : List (String × GoJson.Num)) : Json := object json (stats.map fun s => (s.1, .num s.2))

/-- What is added to the data of the last event. -/
def extras (stats : Option (List (String × GoJson.Num))) (progress : Option PromptProgress) : List (String × Json) :=
  (stats.map fun s => ("timings", statsToJson json s)).toList ++
    (progress.map fun p => ("prompt_progress", p.toJson json)).toList

def addToLast (ms : List (String × Json)) : List Event → List Event
  | [] => []
  | [e] => [{ e with data := e.data ++ ms }]
  | e :: es => e :: addToLast ms es

/-! ## Partial results -/

section Partial

variable (s : TaskResultState) (d : MsgDiff)

def inProgress (name : String) : Event :=
  .of json name [("response", object json [("id", str json s.respId), ("object", str json "response".toList),
    ("status", str json "in_progress".toList)])]

def reasoningEvents : List Event :=
  if d.reasoningContentDelta = [] then []
  else
    (if s.thinkingBlockStarted then [] else
      [.of json "response.output_item.added" [("item", object json [("id", str json s.respReasoningId),
        ("summary", .arr []), ("type", str json "reasoning".toList), ("content", .arr []),
        ("encrypted_content", str json []), ("status", str json "in_progress".toList)])]]) ++
    [.of json "response.reasoning_text.delta"
      [("delta", str json d.reasoningContentDelta), ("item_id", str json s.respReasoningId)]]

def textEvents : List Event :=
  if d.contentDelta = [] then []
  else
    (if s.textBlockStarted then [] else
      [.of json "response.output_item.added" [("item", object json [("content", .arr []),
        ("id", str json s.respMessageId), ("role", str json "assistant".toList),
        ("status", str json "in_progress".toList), ("type", str json "message".toList)])],
      .of json "response.content_part.added" [("item_id", str json s.respMessageId),
        ("part", object json [("type", str json "output_text".toList), ("text", str json [])])]]) ++
    [.of json "response.output_text.delta"
      [("item_id", str json s.respMessageId), ("delta", str json d.contentDelta)]]

def itemId (id : Text) : Text := "fc_".toList ++ id

def argumentsDelta (arguments fcId : Text) : Event :=
  .of json "response.function_call_arguments.delta"
    [("delta", str json arguments), ("item_id", str json (itemId fcId))]

/-- `oai_resp_fc_id` after a difference. -/
def fcIdAfter : Text := if d.toolCallDelta.name = [] then s.respFcId else d.toolCallDelta.id

def toolCallEvents : List Event :=
  (if d.toolCallDelta.name = [] then [] else
    [.of json "response.output_item.added" [("item", object json [("id", str json (itemId d.toolCallDelta.id)),
      ("arguments", str json []), ("call_id", str json ("call_".toList ++ d.toolCallDelta.id)),
      ("name", str json d.toolCallDelta.name), ("type", str json "function_call".toList),
      ("status", str json "in_progress".toList)])]]) ++
  (if d.toolCallDelta.arguments = [] then [] else
    [argumentsDelta json d.toolCallDelta.arguments (fcIdAfter s d)])

/-- The events of one difference, and the flags after it. -/
def diffEvents : List Event × TaskResultState :=
  (reasoningEvents json s d ++ textEvents json s d ++ toolCallEvents json s d,
    { s with
      thinkingBlockStarted := s.thinkingBlockStarted || d.reasoningContentDelta ≠ []
      textBlockStarted := s.textBlockStarted || d.contentDelta ≠ []
      respFcId := fcIdAfter s d })

def diffsEvents (s : TaskResultState) : List MsgDiff → List Event
  | [] => []
  | d :: ds => (diffEvents json s d).1 ++ diffsEvents (diffEvents json s d).2 ds

end Partial

/-- `to_json_oaicompat_resp`, on the flags that `update` copied before it changed the state. -/
def CmplPartial.toJsonOaicompatResp (s : TaskResultState) (r : CmplPartial) : List Event :=
  let opening :=
    if ¬ s.respCreated then [inProgress json s "response.created", inProgress json s "response.in_progress"]
    else if r.progress.isSome then [inProgress json s "response.in_progress"]
    else []
  addToLast (extras json r.stats r.progress) (opening ++ diffsEvents json s r.msgDiffs)

/-- The state that `update` leaves for the next result. -/
def CmplPartial.update (s : TaskResultState) (r : CmplPartial) : TaskResultState :=
  let created := s.respCreated || r.progress.isSome || r.nDecoded == 1
  r.msgDiffs.foldl
    (fun s d =>
      { s with
        thinkingBlockStarted := s.thinkingBlockStarted || d.reasoningContentDelta ≠ []
        textBlockStarted := s.textBlockStarted || d.contentDelta ≠ []
        respFcId := fcIdAfter s d })
    { s with respCreated := created }

/-! ## The final result -/

section Final

variable (s : TaskResultState) (f : CmplFinal)

def itemDone (item : Json) : Event := .of json "response.output_item.done" [("item", item)]

def reasoningItem : Json :=
  object json [("id", str json s.respReasoningId), ("summary", .arr []), ("type", str json "reasoning".toList),
    ("content", .arr [object json [("text", str json f.msg.reasoningContent),
      ("type", str json "reasoning_text".toList)]]),
    ("encrypted_content", str json [])]

def contentPart : Json :=
  object json [("type", str json "output_text".toList), ("annotations", .arr []), ("logprobs", .arr []),
    ("text", str json f.msg.content)]

def messageItem : Json :=
  object json [("type", str json "message".toList), ("status", str json "completed".toList),
    ("id", str json s.respMessageId), ("content", .arr [contentPart json f]),
    ("role", str json "assistant".toList)]

def ToolCall.item (c : ToolCall) : Json :=
  object json [("id", str json (itemId c.id)), ("type", str json "function_call".toList),
    ("status", str json "completed".toList), ("arguments", str json c.arguments),
    ("call_id", str json ("call_".toList ++ c.id)), ("name", str json c.name)]

def CmplFinal.reasoningDone : List Event :=
  if f.msg.reasoningContent = [] then [] else [itemDone json (reasoningItem json s f)]

def CmplFinal.messageDone : List Event :=
  if f.msg.content = [] then []
  else
    [.of json "response.output_text.done"
      [("item_id", str json s.respMessageId), ("text", str json f.msg.content)],
    .of json "response.content_part.done"
      [("item_id", str json s.respMessageId), ("part", contentPart json f)],
    itemDone json (messageItem json s f)]

def CmplFinal.output : List Json :=
  (if f.msg.reasoningContent = [] then [] else [reasoningItem json s f]) ++
    (if f.msg.content = [] then [] else [messageItem json s f]) ++ f.msg.toolCalls.map (ToolCall.item json)

def CmplFinal.completed : Event :=
  let event : Event := .of json "response.completed"
    [("response", object json [("id", str json s.respId), ("object", str json "response".toList),
      ("created_at", .num (formatInt f.time)), ("status", str json "completed".toList),
      ("model", str json f.model), ("output", .arr (f.output json s)),
      ("usage", object json [("input_tokens", int f.nPromptTokens), ("output_tokens", int f.nDecoded),
        ("total_tokens", int (f.nDecoded + f.nPromptTokens)),
        ("input_tokens_details", object json [("cached_tokens", int f.nPromptTokensCache)])])])]
  { event with data := event.data ++ extras json f.stats none }

/-- `to_json_oaicompat_resp_stream`. The differences of the final result are not sent. -/
def CmplFinal.toJsonOaicompatRespStream : List Event :=
  f.reasoningDone json s ++ f.messageDone json s ++
    f.msg.toolCalls.map (fun c => itemDone json (c.item json)) ++ [f.completed json s]

end Final

/-! ## What is sent -/

/-- What the generator of the response gets one after the other: results, the time of
a ping, an error. The begin marker sends nothing and is left out. -/
inductive Received where
  | partialResult (r : CmplPartial)
  | ping
  | finalResult (f : CmplFinal)
  | error (message : Json)

/-- One unit of the stream: an event, a comment, or data without a name. -/
inductive Frame where
  | event (e : Event)
  | comment
  | data (j : Json)

/-- `format_oai_resp_sse` of one event, a ping, and `format_oai_sse` of an error. -/
def Frame.bytes : Frame → Bytes
  | .event e => ascii "event: " ++ ascii e.name ++ [lf] ++ ascii "data: " ++ json.dump (object json e.data) ++ [lf, lf]
  | .comment => ascii ":" ++ [lf, lf]
  | .data j => ascii "data: " ++ json.dump j ++ [lf, lf]

/-- The frames of a stream; nothing follows a final result or an error. A task whose very first result
is an error has no stream: the server answers it with the error itself. -/
def frames (s : TaskResultState) : List Received → List Frame
  | [] => []
  | .partialResult r :: rest => (r.toJsonOaicompatResp json s).map .event ++ frames (r.update s) rest
  | .ping :: rest => .comment :: frames s rest
  | .finalResult f :: _ => (f.toJsonOaicompatRespStream json s).map .event
  | .error message :: _ => [.data (object json [("error", message)])]

end LlamaServer
