import LlamaStack.LlamacppApi
import LlamaStack.OpenaiApi

/-!
# Adapting Responses payloads

The Responses half of the `apiadapter` package: a response of llama.cpp as the
public schema has it, and the payload of a stream event, which changes only
when the event is `response.completed`.
-/
namespace ResponsesAdapter

open GoBytes GoJson OpenaiApi

def openAIUsageFromLlama (u : LlamacppApi.ResponseUsage) : ResponseUsage where
  inputTokens := u.inputTokens
  outputTokens := u.outputTokens
  totalTokens := u.totalTokens
  inputTokensDetails := ⟨u.inputTokensDetails.cachedTokens⟩
  outputTokensDetails := ⟨0⟩

/-- The output items are marshalled and read back as items of the public type. -/
def openAIResponseOutputFromLlama (items : List Json) : Option (List Json) :=
  decodeRawSlice (.arr (compactItems items)) []

def openAIResponseFromLlama (r : LlamacppApi.Response) : Response where
  id := r.id
  model := r.model
  object := r.object
  output := r.output.bind openAIResponseOutputFromLlama
  status := r.status
  usage := r.usage.map openAIUsageFromLlama
  additionalProperties := r.additionalProperties

def openAIResponseCompletedEventFromLlama (e : LlamacppApi.ResponseCompletedEvent) :
    ResponseCompletedEvent where
  type := responseCompleted
  response := openAIResponseFromLlama e.response
  sequenceNumber := e.sequenceNumber.getD 0

/-- The `type` of an event, which every reader of a payload looks at first. -/
structure Envelope where
  type : Text := []

def Envelope.decode (j : Json) : Option Envelope :=
  decodeStruct [⟨"type".toList, fun v a => (decodeString v a.type).map fun x => { a with type := x }⟩]
    j {}

/-- `AdaptResponsesSSEPayload`: the new payload, when it succeeds and changes it. -/
def adaptResponsesSSEPayload (payload : Bytes) : Option Bytes :=
  match unmarshal Envelope.decode payload with
  | none => none
  | some envelope =>
    if envelope.type ≠ responseCompleted then none
    else
      match unmarshal LlamacppApi.ResponseCompletedEvent.decode payload with
      | none => none
      | some upstream => some (print (openAIResponseCompletedEventFromLlama upstream).marshal)

/-- An adapted payload stays on one line. -/
theorem adaptResponsesSSEPayload_one_line {payload out : Bytes}
    (h : adaptResponsesSSEPayload payload = some out) : lf ∉ out ∧ cr ∉ out := by
  unfold adaptResponsesSSEPayload at h
  split at h
  · cases h
  · split at h
    · cases h
    · split at h
      · cases h
      · cases h
        exact print_one_line _

end ResponsesAdapter
