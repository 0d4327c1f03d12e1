import LlamaStack.NChoiceSse
import LlamaStack.Proxy

/-!
# The streamed n-choice response

One upstream call after the other, each copied into the same event stream. Before
the stream has started a failed call becomes an error response, and after that an
error event. Headers other than the status are left out.
-/
namespace NChoiceResponse

open GoBytes GoJson GoStream GoStrings GoUtf8 NChoiceSse

variable (jsonError : Bytes → Bytes) (canFlush : Bool)

/-- What one upstream call comes to: an error with its text, or a response. -/
inductive Outcome where
  | failed (message : Bytes)
  | response (status : Nat) (body : Source)

/-- What the handler has done: the status that it set, its writes and flushes,
and the number of its upstream calls. -/
structure Reply where
  status : Option Nat := none
  ops : List Op := []
  calls : Nat := 0

def flushOps : List Op := if canFlush then [.flush] else []

/-! ## Error responses -/

/-- `openaiapi.ErrorBody`, with a code. -/
def errorBody (typ code : Text) (msg : Bytes) : Json :=
  .obj [(quote "error".toList, .obj
    [(quote "code".toList, .str (quote code)),
    (quote "message".toList, .str (quoteBytes msg)),
    (quote "type".toList, .str (quote typ))])]

def writeOpenAIError (status : Nat) (typ code : Text) (msg : Bytes) : Reply where
  status := some status
  ops := [.write (print (errorBody typ code msg) ++ [lf])]

def upstreamError : Text := "upstream_error".toList

def isResponseHeaderTimeout (message : Bytes) : Bool :=
  contains message (ascii "timeout awaiting response headers")

/-- The response to a failed `proxy.Do`. -/
def writeProxyError (message : Bytes) : Reply :=
  if isResponseHeaderTimeout message then
    writeOpenAIError 504 upstreamError "response_header_timeout".toList message
  else writeOpenAIError 503 upstreamError "router_unavailable".toList message

structure ErrorPayload where
  message : Text := []

def ErrorPayload.decode (j : Json) : Option ErrorPayload :=
  decodeStruct
    [⟨"error".toList, fun v a =>
      decodeStruct
        [⟨"message".toList, fun v a =>
          (decodeString v a.message).map fun x => { a with message := x }⟩] v a⟩]
    j {}

def isContextLengthExceeded (body : Bytes) : Bool :=
  if containsFold (decodeText body) "context size has been exceeded" then true
  else
    match unmarshal ErrorPayload.decode body with
    | none => false
    | some payload => containsFold payload.message "context size has been exceeded"

/-- `writeUpstreamResponse` on a completion path, for a status outside 200 to 299. A body
that is copied read by read is taken for one read here. -/
def writeUpstreamResponse (status : Nat) (body : Source) : Reply :=
  if 400 ≤ status then
    match body.ending with
    | .failed _ => {}
    | .eof =>
      if isContextLengthExceeded body.bytes then
        writeOpenAIError 400 "invalid_request_error".toList "context_length_exceeded".toList
          (ascii "prompt plus requested completion exceeds the model context window")
      else { status := some status, ops := [.write body.bytes] }
  else
    { status := some status, ops := (Proxy.copyFlush canFlush [] body.bytes body.ending).1 }

/-! ## The stream -/

/-- The payload of an error event. -/
def ssePayload (message : Bytes) : Json :=
  .obj [(quote "error".toList, .obj
    [(quote "message".toList, .str (quoteBytes message)),
    (quote "type".toList, .str (quote upstreamError))])]

def writeSSEError (message : Bytes) : List Op :=
  [.write (ascii "event: error\ndata: " ++ print (ssePayload message) ++ ascii "\n\n")]

def isSuccess (status : Nat) : Bool := 200 ≤ status && status < 300

/-- The calls from the one with index `i` on. -/
def writeStreamFrom (i : Nat) (started : Bool) : List Outcome → Reply
  | [] => {}
  | .failed message :: _ =>
    if ¬ started then { writeProxyError message with calls := 1 }
    else { ops := writeSSEError message ++ flushOps canFlush, calls := 1 }
  | .response status body :: rest =>
    if ¬ isSuccess status then
      if ¬ started then { writeUpstreamResponse canFlush status body with calls := 1 }
      else { ops := writeSSEError body.bytes ++ flushOps canFlush, calls := 1 }
    else
      let setStatus := if started then none else some 200
      let copied := copyNChoiceSSE jsonError (Int64.ofNat i) rest.isEmpty body
      match copied.2 with
      | some err =>
        { status := setStatus
          ops := copied.1 ++ flushOps canFlush ++ writeSSEError err ++ flushOps canFlush
          calls := 1 }
      | none =>
        let r := writeStreamFrom (i + 1) true rest
        { status := setStatus
          ops := copied.1 ++ flushOps canFlush ++ r.ops
          calls := r.calls + 1 }

/-- The response to a request of several choices, by what its upstream calls
come to, one for each of `req.Bodies`. -/
def writeNChoiceStreamResponse (outcomes : List Outcome) : Reply :=
  writeStreamFrom jsonError canFlush 0 false outcomes

end NChoiceResponse
