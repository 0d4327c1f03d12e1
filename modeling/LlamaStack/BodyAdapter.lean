import LlamaStack.Handlers
import LlamaStack.ResponsesAdapter

/-!
# Adapting bodies

The body of a success that is not a stream, on its way to the client: what the
`apiadapter` package makes of it on each endpoint. Only the usage has another
shape in the public schema.
-/
namespace BodyAdapter

open GoBytes GoJson NChoices OpenaiApi Handlers ResponsesAdapter

/-- A body, and whether the adapter returned an error with it. -/
structure Adapted where
  body : Bytes
  failed : Bool

def openAICompletionUsageFromLlama (u : LlamacppApi.CompletionUsage) : CompletionUsage where
  promptTokens := u.promptTokens
  completionTokens := u.completionTokens
  totalTokens := u.totalTokens
  promptTokensDetails := { cachedTokens := u.promptTokensDetails.cachedTokens }
  completionTokensDetails := { reasoningTokens := 0 }

def openAIEmbeddingUsageFromLlama (u : LlamacppApi.EmbeddingUsage) : EmbeddingUsage where
  promptTokens := u.promptTokens.getD 0
  totalTokens := u.totalTokens.getD 0

/-- `Unmarshal`, a conversion that cannot fail, and `Marshal` of what it makes. -/
def adaptWith {A : Type} (dec : Json → Option A) (out : A → Json) (body : Bytes) : Adapted :=
  match unmarshal dec body with
  | none => ⟨body, true⟩
  | some upstream => ⟨print (out upstream), false⟩

def adaptChatCompletionBody : Bytes → Adapted :=
  adaptWith (LlamacppApi.ChatCompletion.unmarshalJSON · {}) fun upstream =>
    ChatCompletion.marshalJSON
      { usage := upstream.usage.map openAICompletionUsageFromLlama
        additionalProperties := upstream.additionalProperties }

def adaptCompletionBody : Bytes → Adapted :=
  adaptWith (LlamacppApi.Completion.unmarshalJSON · {}) fun upstream =>
    Completion.marshalJSON
      { usage := upstream.usage.map openAICompletionUsageFromLlama
        additionalProperties := upstream.additionalProperties }

def adaptEmbeddingBody : Bytes → Adapted :=
  adaptWith (LlamacppApi.EmbeddingResponse.unmarshalJSON · {}) fun upstream =>
    EmbeddingResponse.marshalJSON
      { usage := upstream.usage.map openAIEmbeddingUsageFromLlama
        additionalProperties := upstream.additionalProperties }

def adaptResponsesBody : Bytes → Adapted :=
  adaptWith (LlamacppApi.Response.unmarshalJSON · {}) fun upstream => (openAIResponseFromLlama upstream).marshalJSON

def adaptBody (path : Text) (body : Bytes) : Adapted :=
  if path = chatCompletionsPath then adaptChatCompletionBody body
  else if path = completionsPath then adaptCompletionBody body
  else if path = responsesPath then adaptResponsesBody body
  else if path = embeddingsPath then adaptEmbeddingBody body
  else ⟨body, false⟩

end BodyAdapter
