import LlamaStack.OpenaiApi

/-!
# Adapting Responses requests

The request half of the `apiadapter` package: messages of the input get a type,
and their text becomes a list of content parts. A body in which nothing changes
is passed on as it is.
-/
namespace RequestAdapter

open GoBytes GoJson OpenaiApi

def inputText : Text := "input_text".toList
def outputText : Text := "output_text".toList
def typeMessage : Text := "message".toList

def contentTypeForRole (role : Text) : Text := if role = roleAssistant then outputText else inputText

/-- `AsEasyInputMessageContent0`; a nil union is no JSON text, and `null` reads as
an empty string. -/
def asEasyInputMessageContent0 (content : Option Json) : Option Text :=
  content.bind fun j => decodeString j []

def responseInputMessage (item : Json) : Option EasyInputMessage :=
  (EasyInputMessage.unmarshalJSON item {}).filter fun message => validRole message.role

/-- The content that replaces a text. -/
def textContent (role text : Text) : Json :=
  .arr [compact (InputMessageContent.marshalJSON
    { type := contentTypeForRole role, text := some text })]

/-- The new item and whether it has changed. -/
def normalizeResponseInputItem (item : Json) : Json × Bool :=
  match responseInputMessage item with
  | none => (item, false)
  | some message =>
    let typed := { message with type := some (message.type.getD typeMessage) }
    match asEasyInputMessageContent0 message.content with
    | some text =>
      ((EasyInputMessage.marshalJSON { typed with content := some (textContent message.role text) }), true)
    | none => if message.type = none then (typed.marshalJSON, true) else (item, false)

/-- The body that is sent upstream; `none` is an error of `Unmarshal`. -/
def adaptResponsesRequestBody (body : Bytes) : Option Bytes :=
  match unmarshal (ResponseCreateRequest.unmarshalJSON · {}) body with
  | none => none
  | some req =>
    match req.input.bind fun input => decodeRawSlice input [] with
    | none => some body
    | some items =>
      let out := items.map normalizeResponseInputItem
      if out.any Prod.snd then
        some (print (ResponseCreateRequest.marshalJSON
          { req with input := some (.arr (compactItems (out.map Prod.fst))) }))
      else some body

end RequestAdapter
