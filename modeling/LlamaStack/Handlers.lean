import LlamaStack.EnsureAvailable
import LlamaStack.NChoiceEvents
import LlamaStack.NChoices
import LlamaStack.RequestAdapter

/-!
# The inference handler

`humaInference`: the checks of a request body, the availability of its model, the
body that goes upstream, and the calls. How the answers of the calls become the
response is modelled on its own; here they are what the handler comes to.
-/
namespace Handlers

open Effects GoBytes GoJson GoStream ModelCatalog RouterManager NChoiceResponse NChoices OpenaiApi

variable (jsonError : Bytes → Bytes) (go : HfDownloader.Library)

inductive Op where
  | ensure (o : EnsureAvailable.Op)
  | post (body : Bytes)

/-- A call of the upstream comes to an error or a response. -/
abbrev Op.Res : Op → Type
  | .ensure o => o.Res
  | .post _ => Outcome

abbrev Run (α : Type) := Prog Op Op.Res α

structure Request where
  path : Text
  body : Source

/-- What the handler comes to: an error response of its own, answers of the
upstream, or a panic, which leaves the client without a response. -/
inductive Handled where
  | refused (r : Reply)
  | answered (outcomes : List Outcome)
  | panicked

def maxInferenceBodyBytes : Nat := 32 <<< 20

/-- All bytes, unless they are more than the limit or a read fails before. -/
def readLimited (src : Source) (limit : Nat) : Except Bytes Bytes :=
  if limit < src.bytes.length then .error (ascii "request body too large")
  else
    match src.ending with
    | .eof => .ok src.bytes
    | .failed message => .error message

def responsesPath : Text := "/v1/responses".toList
def embeddingsPath : Text := "/v1/embeddings".toList

def requiredKind (path : Text) : Text :=
  if path = embeddingsPath then "embedding".toList else "chat".toList

/-- `none` is an error of `Unmarshal`. -/
def adaptRequestBody (path : Text) (body : Bytes) : Option Bytes :=
  if path = responsesPath then RequestAdapter.adaptResponsesRequestBody body else some body

def invalidRequestError : Text := "invalid_request_error".toList

def writeEnsureError (err : EnsureAvailable.Error) : Reply :=
  match err with
  | .modelNotFound => writeOpenAIError 404 invalidRequestError "model_not_found".toList
      (ascii "model is not in catalog")
  | .capabilityMismatch .. => writeOpenAIError 400 invalidRequestError
      "model_capability_mismatch".toList err.text
  | .downloadFailed _ => writeOpenAIError 503 "download_error".toList "download_failed".toList err.text
  | .registryUnknown _ => writeOpenAIError 503 upstreamError "router_registry_stale".toList err.text
  | .registryStale _ => writeOpenAIError 503 upstreamError "router_registry_stale".toList err.text
  | .contextDone _ => writeOpenAIError 503 upstreamError "ensure_available_failed".toList err.text

/-- A call after which no further call is made: of a stream, when it cannot be
copied to its end; else, when there is no body of a success. -/
def endsCalls (stream : Bool) (o : Outcome) : Bool :=
  if stream then (NChoiceEvents.callError jsonError o).isSome
  else
    match o with
    | .failed _ => true
    | .response status body => !(isSuccess status) || decide (body.ending ≠ .eof)

/-- The calls, one after the other. -/
def postAll (stream : Bool) : List Bytes → Run (List Outcome)
  | [] => return []
  | body :: bodies => do
    let o ← op (Op.post body)
    if endsCalls jsonError stream o then return [o]
    else
      let os ← postAll stream bodies
      return o :: os

/-- The calls for a body that passed all checks. -/
def forward (path : Text) (upstreamBody : Bytes) : Run Handled :=
  match buildNChoiceRequest jsonError path upstreamBody with
  | .failed message =>
    return .refused (writeOpenAIError 400 invalidRequestError "invalid_request".toList message)
  | .panicked => return .panicked
  | .request r => do
    if 1 < r.n then
      let os ← postAll jsonError r.stream r.bodies
      return .answered os
    else
      let o ← op (Op.post upstreamBody)
      return .answered [o]

def humaInference (cat : Catalog) (cfg : Config) (req : Request) : Run Handled :=
  match readLimited req.body maxInferenceBodyBytes with
  | .error err =>
    return .refused (writeOpenAIError 400 invalidRequestError "invalid_body".toList err)
  | .ok body =>
    match unmarshal (ModelRequest.unmarshalJSON · {}) body with
    | none => return .refused (writeOpenAIError 400 invalidRequestError "invalid_json".toList
        (ascii "request body must be JSON"))
    | some r =>
      if r.model = [] then
        return .refused (writeOpenAIError 400 invalidRequestError "missing_model".toList
          (ascii "request body must include model"))
      else do
        let err ← (EnsureAvailable.ensureAvailable go cat cfg r.model (requiredKind req.path)).lift
          Op.ensure fun _ r => r
        match err with
        | some err => return .refused (writeEnsureError err)
        | none =>
          match adaptRequestBody req.path body with
          | none => return .refused (writeOpenAIError 400 invalidRequestError
              "invalid_request".toList (jsonError body))
          | some upstreamBody => forward jsonError req.path upstreamBody

end Handlers
