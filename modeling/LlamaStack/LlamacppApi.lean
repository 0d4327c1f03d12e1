import LlamaStack.GoJsonDecode

/-!
# What llama.cpp sends

The generated types of the `llamacppapi` package that the gateway decodes, with
their `UnmarshalJSON` methods.
-/
namespace LlamacppApi

open GoBytes GoJson GoMap

structure ResponseUsageInputTokensDetails where
  cachedTokens : Int64 := 0
  additionalProperties : Entries Value := []

structure ResponseUsage where
  inputTokens : Int64 := 0
  inputTokensDetails : ResponseUsageInputTokensDetails := {}
  outputTokens : Int64 := 0
  totalTokens : Int64 := 0
  additionalProperties : Entries Value := []

/-- A response. The output items are unions, kept as raw messages. -/
structure Response where
  id : Option Text := none
  model : Option Text := none
  object : Option Text := none
  output : Option (List Json) := none
  status : Option Text := none
  usage : Option ResponseUsage := none
  additionalProperties : Entries Value := []

structure ResponseCompletedEvent where
  response : Response := {}
  sequenceNumber : Option Int64 := none
  type : Text := []

def ResponseUsageInputTokensDetails.unmarshalJSON :
    Json → ResponseUsageInputTokensDetails → Option ResponseUsageInputTokensDetails :=
  decodeObject
    [⟨"cached_tokens".toList, fun v a =>
      (decodeInt v a.cachedTokens).map fun x => { a with cachedTokens := x }⟩]
    fun m a => { a with additionalProperties := m }

def ResponseUsage.unmarshalJSON : Json → ResponseUsage → Option ResponseUsage :=
  decodeObject
    [⟨"input_tokens".toList, fun v a =>
      (decodeInt v a.inputTokens).map fun x => { a with inputTokens := x }⟩,
    ⟨"input_tokens_details".toList, fun v a =>
      (ResponseUsageInputTokensDetails.unmarshalJSON v a.inputTokensDetails).map fun x =>
        { a with inputTokensDetails := x }⟩,
    ⟨"output_tokens".toList, fun v a =>
      (decodeInt v a.outputTokens).map fun x => { a with outputTokens := x }⟩,
    ⟨"total_tokens".toList, fun v a =>
      (decodeInt v a.totalTokens).map fun x => { a with totalTokens := x }⟩]
    fun m a => { a with additionalProperties := m }

def Response.unmarshalJSON : Json → Response → Option Response :=
  decodeObject
    [⟨"id".toList, fun v a => (decodePtr decodeString [] v a.id).map fun x => { a with id := x }⟩,
    ⟨"model".toList, fun v a =>
      (decodePtr decodeString [] v a.model).map fun x => { a with model := x }⟩,
    ⟨"object".toList, fun v a =>
      (decodePtr decodeString [] v a.object).map fun x => { a with object := x }⟩,
    ⟨"output".toList, fun v a =>
      (decodePtr decodeRawSlice [] v a.output).map fun x => { a with output := x }⟩,
    ⟨"status".toList, fun v a =>
      (decodePtr decodeString [] v a.status).map fun x => { a with status := x }⟩,
    ⟨"usage".toList, fun v a =>
      (decodePtr ResponseUsage.unmarshalJSON {} v a.usage).map fun x => { a with usage := x }⟩]
    fun m a => { a with additionalProperties := m }

/-- The completed event has no `UnmarshalJSON`: it is decoded field by field. -/
def ResponseCompletedEvent.decode (j : Json) : Option ResponseCompletedEvent :=
  decodeStruct
    [⟨"response".toList, fun v a =>
      (Response.unmarshalJSON v a.response).map fun x => { a with response := x }⟩,
    ⟨"sequence_number".toList, fun v a =>
      (decodePtr decodeInt 0 v a.sequenceNumber).map fun x => { a with sequenceNumber := x }⟩,
    ⟨"type".toList, fun v a => (decodeString v a.type).map fun x => { a with type := x }⟩]
    j {}

/-! ## Generations and embeddings -/

/-- The same member as the details of a response's usage. -/
abbrev CompletionUsagePromptTokensDetails := ResponseUsageInputTokensDetails

structure CompletionUsage where
  completionTokens : Int64 := 0
  promptTokens : Int64 := 0
  promptTokensDetails : CompletionUsagePromptTokensDetails := {}
  totalTokens : Int64 := 0
  additionalProperties : Entries Value := []

structure EmbeddingUsage where
  promptTokens : Option Int64 := none
  totalTokens : Option Int64 := none
  additionalProperties : Entries Value := []

/-- A reply of which only the usage is declared. -/
structure WithUsage (U : Type) where
  usage : Option U := none
  additionalProperties : Entries Value := []

abbrev ChatCompletion := WithUsage CompletionUsage
abbrev Completion := WithUsage CompletionUsage
abbrev EmbeddingResponse := WithUsage EmbeddingUsage

def CompletionUsage.fields : List (StructField CompletionUsage) :=
  [⟨"completion_tokens".toList, fun v a =>
      (decodeInt v a.completionTokens).map fun x => { a with completionTokens := x }⟩,
    ⟨"prompt_tokens".toList, fun v a =>
      (decodeInt v a.promptTokens).map fun x => { a with promptTokens := x }⟩,
    ⟨"prompt_tokens_details".toList, fun v a =>
      (ResponseUsageInputTokensDetails.unmarshalJSON v a.promptTokensDetails).map fun x =>
        { a with promptTokensDetails := x }⟩,
    ⟨"total_tokens".toList, fun v a =>
      (decodeInt v a.totalTokens).map fun x => { a with totalTokens := x }⟩]

def CompletionUsage.unmarshalJSON : Json → CompletionUsage → Option CompletionUsage :=
  decodeObject CompletionUsage.fields fun m a => { a with additionalProperties := m }

def EmbeddingUsage.fields : List (StructField EmbeddingUsage) :=
  [⟨"prompt_tokens".toList, fun v a =>
      (decodePtr decodeInt 0 v a.promptTokens).map fun x => { a with promptTokens := x }⟩,
    ⟨"total_tokens".toList, fun v a =>
      (decodePtr decodeInt 0 v a.totalTokens).map fun x => { a with totalTokens := x }⟩]

def EmbeddingUsage.unmarshalJSON : Json → EmbeddingUsage → Option EmbeddingUsage :=
  decodeObject EmbeddingUsage.fields fun m a => { a with additionalProperties := m }

section WithUsage

variable {U : Type} (dec : Json → U → Option U) (zero : U)

def WithUsage.fields : List (StructField (WithUsage U)) :=
  [⟨"usage".toList, fun v a => (decodePtr dec zero v a.usage).map fun x => { a with usage := x }⟩]

def WithUsage.unmarshalJSON : Json → WithUsage U → Option (WithUsage U) :=
  decodeObject (WithUsage.fields dec zero) fun m a => { a with additionalProperties := m }

end WithUsage

def ChatCompletion.unmarshalJSON : Json → ChatCompletion → Option ChatCompletion :=
  WithUsage.unmarshalJSON CompletionUsage.unmarshalJSON {}

def Completion.unmarshalJSON : Json → Completion → Option Completion :=
  WithUsage.unmarshalJSON CompletionUsage.unmarshalJSON {}

def EmbeddingResponse.unmarshalJSON : Json → EmbeddingResponse → Option EmbeddingResponse :=
  WithUsage.unmarshalJSON EmbeddingUsage.unmarshalJSON {}

end LlamacppApi
