import LlamaStack.BodyAdapter
import LlamaStack.Proxy
import LlamaStack.ResponseWriter
import LlamaStack.ResponsesSse

/-!
# Responding to a request

How the answers of the upstream become the response: the calls that `Proxy.Do` makes, the copy
loops, and the handlers around them, as programs of operations on the upstream and on the
client. A write may fail, whereupon a loop returns.
-/
namespace Responding

open Effects GoBytes GoJson GoStream GoStrings GoUtf8 NChoiceResponse NChoices Handlers BodyAdapter HttpHeader
  ResponseWriter

variable (jsonError : Bytes → Bytes)

/-! ## Operations -/

/-- A request of a client, its body aside. -/
structure Incoming where
  method : Text
  path : Text
  rawQuery : Text
  header : Header
  canonical : Canonical header

structure UpstreamRequest where
  method : Text
  path : Text
  rawQuery : Text
  header : Header
  body : Bytes

/-- A response of the upstream: each read of its body brings a chunk, and the last one the end. -/
structure Response where
  status : Nat
  header : Header
  canonical : Canonical header
  chunks : List Bytes
  last : Bytes
  ending : ReadEnd

def Response.body (r : Response) : Source := ⟨r.chunks.flatten ++ r.last, r.ending⟩

inductive Answer where
  | failed (message : Bytes)
  | response (r : Response)

/-- `range` takes the entries of a header; `read` and `close` are on the body of the last
response. -/
inductive Op where
  | range (h : Header)
  | call (r : UpstreamRequest)
  | read
  | close
  | appendHeader (name : Text) (value : Bytes)
  | setHeader (name : Text) (value : Bytes)
  | setStatus (status : Nat)
  | write (b : Bytes)
  | flush

abbrev Op.Res : Op → Type
  | .range _ => List (Text × List Bytes)
  | .call _ => Answer
  | .write _ => Wrote
  | .read => Unit
  | .close => Unit
  | .appendHeader .. => Unit
  | .setHeader .. => Unit
  | .setStatus _ => Unit
  | .flush => Unit

abbrev Run (α : Type) := Prog Op Op.Res α

/-- A write, and the error that it returns. -/
def write (b : Bytes) : Run (Option Bytes) := do
  let r ← op (Op.write b)
  return r.err

/-- The second program, unless the first returns an error. -/
def orElse (p q : Run (Option Bytes)) : Run (Option Bytes) := do
  let err ← p
  match err with
  | some e => return some e
  | none => q

/-! ## The proxy -/

def hopHeaders : List Text :=
  ["connection".toList, "content-length".toList, "keep-alive".toList, "proxy-authenticate".toList,
    "proxy-authorization".toList, "te".toList, "trailer".toList, "transfer-encoding".toList, "upgrade".toList]

def isHopHeader (name : Text) : Bool := hopHeaders.contains (name.map lowerRune)

def copyHeaders (dst : Header) (src : List (Text × List Bytes)) : Header :=
  addEntries (src.filter fun e => !isHopHeader e.1) dst

def trimRightSlash (a : Text) : Text := (a.reverse.dropWhile fun c => c = '/').reverse

def joinPath (a b : Text) : Text :=
  if a = [] ∨ a = ['/'] then b else trimRightSlash a ++ '/' :: b.dropWhile fun c => c = '/'

/-- `Proxy.Do` for a backend with this path. -/
def proxyDo (basePath : Text) (req : Incoming) (headers : Header) (body : Bytes) : Run Answer := do
  let es ← op (Op.range headers)
  op (Op.call ⟨req.method, joinPath basePath req.path, req.rawQuery, copyHeaders [] es, body⟩)

/-- What is done with the bytes of one read. -/
def copyChunk (chunk : Bytes) (next : Run (Option Bytes)) : Run (Option Bytes) :=
  if chunk = [] then next
  else orElse (write chunk) do
    op Op.flush
    next

def copyFlush (last : Bytes) (ending : ReadEnd) : List Bytes → Run (Option Bytes)
  | [] => do
    op Op.read
    copyChunk last <| return match ending with
      | .eof => none
      | .failed message => some (ascii "proxy read: " ++ message)
  | chunk :: chunks => do
    op Op.read
    copyChunk chunk (copyFlush last ending chunks)

/-! ## The stream of one response -/

section Responses

open ResponsesSse

def takeLine (s : Loop) (line : Bytes) (next : Loop → Run (Option Bytes)) : Run (Option Bytes) :=
  let block := s.block ++ [line]
  if isBlankSSELine line then
    let out := adaptBlock s.adapter block
    orElse (write out.1) do
      op Op.flush
      next ⟨out.2, []⟩
  else next { s with block := block }

/-- The end of the source. -/
def takeEnd (ending : ReadEnd) (s : Loop) : Run (Option Bytes) :=
  match ending with
  | .eof => if s.block = [] then return none else write (adaptBlock s.adapter s.block).1
  | .failed message => return some (ascii "responses SSE read: " ++ message)

/-- The loop from a state on; the last read brings the unterminated rest. -/
def copyLines (rest : Bytes) (ending : ReadEnd) (s : Loop) : List Bytes → Run (Option Bytes)
  | [] => do
    op Op.read
    if rest = [] then takeEnd ending s else takeLine s rest (takeEnd ending)
  | line :: lines => do
    op Op.read
    takeLine s line fun s => copyLines rest ending s lines

def copyResponsesSSE (src : Source) : Run (Option Bytes) :=
  copyLines (readLines src.bytes).2 src.ending {} (readLines src.bytes).1

end Responses

/-! ## Streams of one choice among several -/

section Choices

open NChoiceSse

def writeLines (choiceIndex : Int64) (emitDone : Bool) : List Bytes → Run (Option Bytes)
  | [] => return none
  | line :: lines =>
    match linePayload line with
    | none => writeLines choiceIndex emitDone lines
    | some data =>
      if data = doneMarker then (if emitDone then write doneFrame else return none)
      else
        match reindexSSEData jsonError data choiceIndex with
        | .error e => return some e
        | .ok none => writeLines choiceIndex emitDone lines
        | .ok (some rewritten) =>
          orElse (write (ascii "data: ")) <| orElse (write rewritten) <| orElse (write (ascii "\n\n")) <|
            writeLines choiceIndex emitDone lines

def writeNChoiceSSEBlock (choiceIndex : Int64) (emitDone : Bool) (block : Bytes) : Run (Option Bytes) :=
  writeLines jsonError choiceIndex emitDone (splitLf (crlfToLf block))

def takeChoiceLine (choiceIndex : Int64) (emitDone : Bool) (block line : Bytes)
    (next : Bytes → Run (Option Bytes)) : Run (Option Bytes) :=
  let block := block ++ line
  if isSSEBlockEnd line then orElse (writeNChoiceSSEBlock jsonError choiceIndex emitDone block) (next [])
  else next block

def takeChoiceEnd (choiceIndex : Int64) (emitDone : Bool) (ending : ReadEnd) (block : Bytes) : Run (Option Bytes) :=
  match ending with
  | .eof =>
    if trimSpace block ≠ [] then writeNChoiceSSEBlock jsonError choiceIndex emitDone block else return none
  | .failed message => return some (ascii "read SSE: " ++ message)

def copyChoiceLines (choiceIndex : Int64) (emitDone : Bool) (rest : Bytes) (ending : ReadEnd) (block : Bytes) :
    List Bytes → Run (Option Bytes)
  | [] => do
    op Op.read
    let finish := takeChoiceEnd jsonError choiceIndex emitDone ending
    if rest = [] then finish block else takeChoiceLine jsonError choiceIndex emitDone block rest finish
  | line :: lines => do
    op Op.read
    takeChoiceLine jsonError choiceIndex emitDone block line fun block =>
      copyChoiceLines choiceIndex emitDone rest ending block lines

def copyNChoiceSSE (choiceIndex : Int64) (emitDone : Bool) (src : Source) : Run (Option Bytes) :=
  copyChoiceLines jsonError choiceIndex emitDone (readLines src.bytes).2 src.ending [] (readLines src.bytes).1

end Choices

/-! ## Responses of the gateway -/

def contentType : Text := "Content-Type".toList
def jsonContentType : Bytes := ascii "application/json; charset=utf-8"
def streamContentType : Bytes := ascii "text/event-stream; charset=utf-8"

/-- `writeJSON`, for a value that can be encoded. -/
def writeJSON (status : Nat) (v : Json) : Run Unit := do
  op (Op.setHeader contentType jsonContentType)
  op (Op.setStatus status)
  let _ ← write (print v ++ [lf])

def writeOpenAIError (status : Nat) (typ code : Text) (msg : Bytes) : Run Unit :=
  writeJSON status (errorBody typ code msg)

/-- The response to a failed `Proxy.Do`. -/
def writeProxyError (message : Bytes) : Run Unit :=
  if isResponseHeaderTimeout message then
    writeOpenAIError 504 upstreamError "response_header_timeout".toList message
  else writeOpenAIError 503 upstreamError "router_unavailable".toList message

def appendValues (name : Text) : List Bytes → Run Unit
  | [] => return ()
  | v :: vs => do
    op (Op.appendHeader name v)
    appendValues name vs

def appendEntries : List (Text × List Bytes) → Run Unit
  | [] => return ()
  | e :: es =>
    if isHopHeader e.1 then appendEntries es
    else do
      appendValues e.1 e.2
      appendEntries es

def appendResponseHeaders (h : Header) : Run Unit := do
  let es ← op (Op.range h)
  appendEntries es

def shouldInspectError (path : Text) : Bool :=
  [chatCompletionsPath, completionsPath, responsesPath, embeddingsPath].contains path

def shouldAdapt (path : Text) (status : Nat) : Bool :=
  isSuccess status && [chatCompletionsPath, completionsPath, responsesPath, embeddingsPath].contains path

def isEventStream (contentType : Bytes) : Bool := containsFold (decodeText contentType) "text/event-stream"

/-- The content type of an answer that has none. -/
def defaultContentType (h : Header) : Run Unit :=
  if first contentType h = [] then op (Op.setHeader contentType jsonContentType) else return ()

/-- The status and the header of an answer that is passed on. -/
def writeHead (resp : Response) : Run Unit := do
  appendResponseHeaders resp.header
  defaultContentType resp.header
  op (Op.setStatus resp.status)

/-- The body of an answer, behind its head. -/
def writeBody (path : Text) (resp : Response) : Run Unit := do
  if shouldAdapt path resp.status then
    if isEventStream (first contentType resp.header) then
      if path = responsesPath then
        let _ ← copyResponsesSSE resp.body
      else
        let _ ← copyFlush resp.last resp.ending resp.chunks
    else
      op Op.read
      match resp.ending with
      | .failed _ => return ()
      | .eof =>
        let _ ← write (adaptBody path resp.body.bytes).body
  else
    let _ ← copyFlush resp.last resp.ending resp.chunks

def writeUpstreamResponse (path : Text) (resp : Response) : Run Unit := do
  if 400 ≤ resp.status ∧ shouldInspectError path then
    op Op.read
    match resp.ending with
    | .failed _ => return ()
    | .eof =>
      if isContextLengthExceeded resp.body.bytes then
        writeOpenAIError 400 invalidRequestError "context_length_exceeded".toList
          (ascii "prompt plus requested completion exceeds the model context window")
      else
        writeHead resp
        let _ ← write resp.body.bytes
  else
    writeHead resp
    writeBody path resp

/-! ## Responses to several calls -/

/-- All calls have succeeded. -/
def writeAggregate (path : Text) (firstHeader : Header) (bodies : List Bytes) : Run Unit :=
  match aggregateNChoiceBodies jsonError bodies with
  | .error message => writeOpenAIError 503 upstreamError "n_choice_aggregation_failed".toList message
  | .ok body => do
    appendResponseHeaders firstHeader
    op (Op.setHeader contentType jsonContentType)
    op (Op.setStatus 200)
    let _ ← write (adaptBody path body).body

/-- The calls of `writeNChoiceResponse` that are left, behind those with these bodies. -/
def writeNChoiceFrom (send : Bytes → Run Answer) (path : Text) (firstHeader : Option Header) (bodies : List Bytes) :
    List Bytes → Run Unit
  | [] => writeAggregate jsonError path (firstHeader.getD []) bodies
  | upstreamBody :: rest => do
    let answer ← send upstreamBody
    match answer with
    | .failed message => writeProxyError message
    | .response resp =>
      if ¬ isSuccess resp.status then do
        writeUpstreamResponse path resp
        op Op.close
      else do
        op Op.read
        op Op.close
        match resp.ending with
        | .failed message => writeOpenAIError 503 upstreamError "upstream_read_failed".toList message
        | .eof => writeNChoiceFrom send path (some (firstHeader.getD resp.header)) (bodies ++ [resp.body.bytes]) rest

def writeSSEError (message : Bytes) : Run Unit := do
  let _ ← write (ascii "event: error\ndata: " ++ print (ssePayload message) ++ ascii "\n\n")
  op Op.flush

/-- The header and the status of the stream, unless it has started. -/
def startStream (started : Bool) (h : Header) : Run Unit :=
  if started then return ()
  else do
    appendResponseHeaders h
    op (Op.setHeader contentType streamContentType)
    op (Op.setStatus 200)

/-- The end of one of the streams; an error event ends them all. -/
def endCopy (next : Run Unit) (err : Option Bytes) : Run Unit := do
  op Op.close
  op Op.flush
  match err with
  | some e => writeSSEError e
  | none => next

/-- The calls of `writeNChoiceStreamResponse` from the one with index `i` on. -/
def writeNChoiceStreamFrom (send : Bytes → Run Answer) (path : Text) (i : Nat) (started : Bool) :
    List Bytes → Run Unit
  | [] => return ()
  | upstreamBody :: rest => do
    let answer ← send upstreamBody
    match answer with
    | .failed message => if ¬ started then writeProxyError message else writeSSEError message
    | .response resp =>
      if ¬ isSuccess resp.status then
        if ¬ started then do
          writeUpstreamResponse path resp
          op Op.close
        else do
          op Op.read
          op Op.close
          writeSSEError resp.body.bytes
      else do
        startStream started resp.header
        let err ← copyNChoiceSSE jsonError (Int64.ofNat i) rest.isEmpty resp.body
        endCopy (writeNChoiceStreamFrom send path (i + 1) true rest) err

/-! ## The response to an inference request -/

/-- The response to a single call. -/
def writeAnswer (path : Text) : Answer → Run Unit
  | .failed message => writeProxyError message
  | .response resp => do
    writeUpstreamResponse path resp
    op Op.close

/-- The handler behind the adapter of the request, for a request that asks for one choice or for
more. -/
def respond (basePath : Text) (req : Incoming) (headers : Header) (upstreamBody : Bytes) (r : NChoiceRequest) :
    Run Unit :=
  let send := proxyDo basePath req headers
  if 1 < r.n then
    if r.stream then writeNChoiceStreamFrom jsonError send req.path 0 false r.bodies
    else writeNChoiceFrom jsonError send req.path none [] r.bodies
  else do
    let answer ← send upstreamBody
    writeAnswer req.path answer

end Responding
