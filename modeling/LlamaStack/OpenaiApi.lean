import LlamaStack.GoJsonDecode

/-!
# The public types

The generated types of the `openaiapi` package: the replies of the endpoints, the
stream events of the Responses endpoint, and the requests that the gateway reads.
-/
namespace OpenaiApi

open GoBytes GoJson GoMap

/-! ## Responses -/

structure ResponseInputTokensDetails where
  cachedTokens : Int64

structure ResponseOutputTokensDetails where
  reasoningTokens : Int64

structure ResponseUsage where
  inputTokens : Int64
  inputTokensDetails : ResponseInputTokensDetails
  outputTokens : Int64
  outputTokensDetails : ResponseOutputTokensDetails
  totalTokens : Int64

structure Response where
  id : Option Text
  model : Option Text
  object : Option Text
  output : Option (List Json)
  status : Option Text
  usage : Option ResponseUsage
  additionalProperties : Entries Value

structure ResponseCompletedEvent where
  response : Response
  sequenceNumber : Int64
  type : Text

def ResponseUsage.marshal (a : ResponseUsage) : Json :=
  encodeStruct
    [("input_tokens".toList, encodeInt a.inputTokens),
    ("input_tokens_details".toList,
      encodeStruct [("cached_tokens".toList, encodeInt a.inputTokensDetails.cachedTokens)]),
    ("output_tokens".toList, encodeInt a.outputTokens),
    ("output_tokens_details".toList,
      encodeStruct [("reasoning_tokens".toList, encodeInt a.outputTokensDetails.reasoningTokens)]),
    ("total_tokens".toList, encodeInt a.totalTokens)]

def Response.marshalJSON (a : Response) : Json :=
  encodeObject
    (omitNil "id".toList encodeString a.id ++ omitNil "model".toList encodeString a.model ++
      omitNil "object".toList encodeString a.object ++
      omitNil "output".toList (fun items => .arr (compactItems items)) a.output ++
      omitNil "status".toList encodeString a.status ++
      omitNil "usage".toList ResponseUsage.marshal a.usage)
    a.additionalProperties

def ResponseCompletedEvent.marshal (a : ResponseCompletedEvent) : Json :=
  encodeStruct
    [("response".toList, compact a.response.marshalJSON),
    ("sequence_number".toList, encodeInt a.sequenceNumber),
    ("type".toList, encodeString a.type)]

/-! ## Generations and embeddings -/

structure CompletionTokensDetails where
  acceptedPredictionTokens : Option Int64 := none
  audioTokens : Option Int64 := none
  reasoningTokens : Int64
  rejectedPredictionTokens : Option Int64 := none

structure PromptTokensDetails where
  audioTokens : Option Int64 := none
  cachedTokens : Int64

structure CompletionUsage where
  completionTokens : Int64
  completionTokensDetails : CompletionTokensDetails
  promptTokens : Int64
  promptTokensDetails : PromptTokensDetails
  totalTokens : Int64

structure EmbeddingUsage where
  promptTokens : Int64
  totalTokens : Int64

/-- A reply of which only the usage is declared. -/
structure WithUsage (V : Type) where
  usage : Option V
  additionalProperties : Entries Value

abbrev ChatCompletion := WithUsage CompletionUsage
abbrev Completion := WithUsage CompletionUsage
abbrev EmbeddingResponse := WithUsage EmbeddingUsage

def CompletionTokensDetails.marshal (a : CompletionTokensDetails) : Json :=
  encodeStruct
    (omitNil "accepted_prediction_tokens".toList encodeInt a.acceptedPredictionTokens ++
      omitNil "audio_tokens".toList encodeInt a.audioTokens ++
      [("reasoning_tokens".toList, encodeInt a.reasoningTokens)] ++
      omitNil "rejected_prediction_tokens".toList encodeInt a.rejectedPredictionTokens)

def PromptTokensDetails.marshal (a : PromptTokensDetails) : Json :=
  encodeStruct
    (omitNil "audio_tokens".toList encodeInt a.audioTokens ++
      [("cached_tokens".toList, encodeInt a.cachedTokens)])

def CompletionUsage.marshal (a : CompletionUsage) : Json :=
  encodeStruct
    [("completion_tokens".toList, encodeInt a.completionTokens),
      ("completion_tokens_details".toList, a.completionTokensDetails.marshal),
      ("prompt_tokens".toList, encodeInt a.promptTokens),
      ("prompt_tokens_details".toList, a.promptTokensDetails.marshal),
      ("total_tokens".toList, encodeInt a.totalTokens)]

def EmbeddingUsage.marshal (a : EmbeddingUsage) : Json :=
  encodeStruct
    [("prompt_tokens".toList, encodeInt a.promptTokens), ("total_tokens".toList, encodeInt a.totalTokens)]

def WithUsage.marshalJSON {V : Type} (enc : V → Json) (a : WithUsage V) : Json :=
  encodeObject (omitNil "usage".toList enc a.usage) a.additionalProperties

def ChatCompletion.marshalJSON : ChatCompletion → Json := WithUsage.marshalJSON CompletionUsage.marshal
def Completion.marshalJSON : Completion → Json := WithUsage.marshalJSON CompletionUsage.marshal
def EmbeddingResponse.marshalJSON : EmbeddingResponse → Json := WithUsage.marshalJSON EmbeddingUsage.marshal

/-! ## Requests -/

/-- What every inference request is read as first. -/
structure ModelRequest where
  model : Text := []
  additionalProperties : Entries Value := []

def ModelRequest.unmarshalJSON : Json → ModelRequest → Option ModelRequest :=
  decodeObject
    [⟨"model".toList, fun v a => (decodeString v a.model).map fun x => { a with model := x }⟩]
    fun m a => { a with additionalProperties := m }

structure InputMessageContent where
  text : Option Text
  type : Text
  additionalProperties : Entries Value := []

def InputMessageContent.marshalJSON (a : InputMessageContent) : Json :=
  encodeObject (omitNil "text".toList encodeString a.text ++ [("type".toList, encodeString a.type)])
    a.additionalProperties

/-- A message of the input. Its content is a union, nil when there is none. -/
structure EasyInputMessage where
  content : Option Json := none
  role : Text := []
  type : Option Text := none
  additionalProperties : Entries Value := []

def EasyInputMessage.unmarshalJSON : Json → EasyInputMessage → Option EasyInputMessage :=
  decodeObject
    [⟨"content".toList, fun v a => (decodeRaw v a.content).map fun x => { a with content := x }⟩,
    ⟨"role".toList, fun v a => (decodeString v a.role).map fun x => { a with role := x }⟩,
    ⟨"type".toList, fun v a => (decodePtr decodeString [] v a.type).map fun x => { a with type := x }⟩]
    fun m a => { a with additionalProperties := m }

def EasyInputMessage.marshalJSON (a : EasyInputMessage) : Json :=
  encodeObject
    ([("content".toList, (a.content.map compact).getD .null), ("role".toList, encodeString a.role)] ++
      omitNil "type".toList encodeString a.type)
    a.additionalProperties

def roleAssistant : Text := "assistant".toList
def roleDeveloper : Text := "developer".toList
def roleSystem : Text := "system".toList
def roleUser : Text := "user".toList

/-- `EasyInputMessageRole.Valid`. -/
def validRole (role : Text) : Bool := role ∈ [roleAssistant, roleDeveloper, roleSystem, roleUser]

/-- The input is a pointer to a union, which is kept as a raw message. -/
structure ResponseCreateRequest where
  input : Option Json := none
  model : Text := []
  stream : Option Bool := none
  additionalProperties : Entries Value := []

def ResponseCreateRequest.unmarshalJSON : Json → ResponseCreateRequest → Option ResponseCreateRequest :=
  decodeObject
    [⟨"input".toList, fun v a =>
      (decodePtr (fun j _ => some j) .null v a.input).map fun x => { a with input := x }⟩,
    ⟨"model".toList, fun v a => (decodeString v a.model).map fun x => { a with model := x }⟩,
    ⟨"stream".toList, fun v a =>
      (decodePtr decodeBool false v a.stream).map fun x => { a with stream := x }⟩]
    fun m a => { a with additionalProperties := m }

def ResponseCreateRequest.marshalJSON (a : ResponseCreateRequest) : Json :=
  encodeObject
    (omitNil "input".toList compact a.input ++ [("model".toList, encodeString a.model)] ++
      omitNil "stream".toList Json.bool a.stream)
    a.additionalProperties

/-! ## Stream events -/

/-- The event that closes the arguments of one function call. -/
structure ResponseFunctionCallArgumentsDoneEvent where
  arguments : Text := []
  itemId : Text := []
  name : Text := []
  outputIndex : Int64 := 0
  sequenceNumber : Option Int64 := none
  type : Text := []
  deriving DecidableEq

def ResponseFunctionCallArgumentsDoneEvent.marshal (a : ResponseFunctionCallArgumentsDoneEvent) :
    Json :=
  encodeStruct
    ([("arguments".toList, encodeString a.arguments), ("item_id".toList, encodeString a.itemId),
      ("name".toList, encodeString a.name), ("output_index".toList, encodeInt a.outputIndex)] ++
      omitNil "sequence_number".toList encodeInt a.sequenceNumber ++
      [("type".toList, encodeString a.type)])

/-- A finished output item; the item is a union, kept as a raw message. -/
structure ResponseOutputItemDoneEvent where
  item : Option Json := none
  outputIndex : Option Int64 := none
  sequenceNumber : Option Int64 := none
  type : Text := []

def ResponseOutputItemDoneEvent.decode (j : Json) : Option ResponseOutputItemDoneEvent :=
  decodeStruct
    [⟨"item".toList, fun v a => some { a with item := some v }⟩,
    ⟨"output_index".toList, fun v a =>
      (decodePtr decodeInt 0 v a.outputIndex).map fun x => { a with outputIndex := x }⟩,
    ⟨"sequence_number".toList, fun v a =>
      (decodePtr decodeInt 0 v a.sequenceNumber).map fun x => { a with sequenceNumber := x }⟩,
    ⟨"type".toList, fun v a => (decodeString v a.type).map fun x => { a with type := x }⟩]
    j {}

structure ResponseOutputFunctionCallItem where
  arguments : Text := []
  callId : Text := []
  id : Option Text := none
  name : Text := []
  status : Option Text := none
  type : Text := []
  deriving DecidableEq

def ResponseOutputFunctionCallItem.decode (j : Json) : Option ResponseOutputFunctionCallItem :=
  decodeStruct
    [⟨"arguments".toList, fun v a => (decodeString v a.arguments).map fun x => { a with arguments := x }⟩,
    ⟨"call_id".toList, fun v a => (decodeString v a.callId).map fun x => { a with callId := x }⟩,
    ⟨"id".toList, fun v a => (decodePtr decodeString [] v a.id).map fun x => { a with id := x }⟩,
    ⟨"name".toList, fun v a => (decodeString v a.name).map fun x => { a with name := x }⟩,
    ⟨"status".toList, fun v a => (decodePtr decodeString [] v a.status).map fun x => { a with status := x }⟩,
    ⟨"type".toList, fun v a => (decodeString v a.type).map fun x => { a with type := x }⟩]
    j {}

/-- `AsResponseOutputFunctionCallItem`; an empty union is no JSON text. -/
def asResponseOutputFunctionCallItem (item : Option Json) : Option ResponseOutputFunctionCallItem :=
  item.bind ResponseOutputFunctionCallItem.decode

def responseFunctionCallArgumentsDone : Text := "response.function_call_arguments.done".toList
def responseCompleted : Text := "response.completed".toList
def functionCall : Text := "function_call".toList

end OpenaiApi
