import LlamaStack.GoStream
import LlamaStack.ResponsesAdapter

/-!
# The Responses stream adapter

`copyResponsesSSE` and the adapter behind it, on bytes. The adapter rewrites the
payload of a completed event, keeps the state of every function call, and puts
an arguments done event in front of a finished call that had none.
-/
namespace ResponsesSse

open GoBytes GoJson GoMap GoStream OpenaiApi ResponsesAdapter

/-! ## The adapter -/

structure FunctionCallState where
  itemID : Text := []
  name : Text := []
  arguments : Text := []
  outputIndex : Int64 := 0
  sequence : Option Int64 := none
  argumentsDone : Bool := false
  deriving DecidableEq

/-- The `toolCalls` of a `responsesSSEAdapter`. -/
abbrev ToolCalls := Entries FunctionCallState

/-- `a.toolCalls[k]`: the zero state when the key is absent. -/
def stateOf (a : ToolCalls) (k : Text) : FunctionCallState := (get k a).getD {}

def stringValue (value : Option Text) : Text := value.getD []

def firstNonEmpty (values : List Text) : Text := (values.find? fun v => v ≠ []).getD []

structure ArgumentsDeltaEvent where
  itemID : Text := []
  outputIndex : Int64 := 0
  sequence : Option Int64 := none
  delta : Text := []

def ArgumentsDeltaEvent.decode (j : Json) : Option ArgumentsDeltaEvent :=
  decodeStruct
    [⟨"item_id".toList, fun v a => (decodeString v a.itemID).map fun x => { a with itemID := x }⟩,
    ⟨"output_index".toList, fun v a =>
      (decodeInt v a.outputIndex).map fun x => { a with outputIndex := x }⟩,
    ⟨"sequence_number".toList, fun v a =>
      (decodePtr decodeInt 0 v a.sequence).map fun x => { a with sequence := x }⟩,
    ⟨"delta".toList, fun v a => (decodeString v a.delta).map fun x => { a with delta := x }⟩]
    j {}

structure ArgumentsDoneEvent where
  itemID : Text := []
  name : Text := []
  outputIndex : Int64 := 0
  sequence : Option Int64 := none
  arguments : Text := []

def ArgumentsDoneEvent.decode (j : Json) : Option ArgumentsDoneEvent :=
  decodeStruct
    [⟨"item_id".toList, fun v a => (decodeString v a.itemID).map fun x => { a with itemID := x }⟩,
    ⟨"name".toList, fun v a => (decodeString v a.name).map fun x => { a with name := x }⟩,
    ⟨"output_index".toList, fun v a =>
      (decodeInt v a.outputIndex).map fun x => { a with outputIndex := x }⟩,
    ⟨"sequence_number".toList, fun v a =>
      (decodePtr decodeInt 0 v a.sequence).map fun x => { a with sequence := x }⟩,
    ⟨"arguments".toList, fun v a =>
      (decodeString v a.arguments).map fun x => { a with arguments := x }⟩]
    j {}

def observeArgumentsDelta (a : ToolCalls) (payload : Bytes) : ToolCalls :=
  match unmarshal ArgumentsDeltaEvent.decode payload with
  | none => a
  | some event =>
    if event.itemID = [] then a
    else
      let state := stateOf a event.itemID
      store event.itemID
        { state with
          itemID := event.itemID
          outputIndex := event.outputIndex
          sequence := event.sequence
          arguments := state.arguments ++ event.delta } a

def observeArgumentsDone (a : ToolCalls) (payload : Bytes) : ToolCalls :=
  match unmarshal ArgumentsDoneEvent.decode payload with
  | none => a
  | some event =>
    if event.itemID = [] then a
    else
      store event.itemID
        { itemID := event.itemID
          name := event.name
          outputIndex := event.outputIndex
          sequence := event.sequence
          arguments := event.arguments
          argumentsDone := true } a

def responseOutputFunctionCallItem (item : Option Json) : Option ResponseOutputFunctionCallItem :=
  (asResponseOutputFunctionCallItem item).filter fun call => call.type = functionCall

/-- A finished function call: its event, its item and its nonempty key. -/
structure FinishedCall where
  event : ResponseOutputItemDoneEvent
  item : ResponseOutputFunctionCallItem
  itemID : Text
  itemID_ne : itemID ≠ []

/-- What `injectArgumentsDoneIfNeeded` needs of a payload before it looks at the
state of the call. -/
def finishedCall (payload : Bytes) : Option FinishedCall :=
  match unmarshal ResponseOutputItemDoneEvent.decode payload with
  | none => none
  | some event =>
    match responseOutputFunctionCallItem event.item with
    | none => none
    | some item =>
      let itemID := firstNonEmpty [stringValue item.id, item.callId]
      if h : itemID ≠ [] then some ⟨event, item, itemID, h⟩ else none

/-- The state that an injection leaves. -/
def FinishedCall.close (c : FinishedCall) (state : FunctionCallState) : FunctionCallState where
  itemID := c.itemID
  name := firstNonEmpty [state.name, c.item.name]
  arguments := firstNonEmpty [state.arguments, c.item.arguments]
  outputIndex := c.event.outputIndex.getD state.outputIndex
  sequence := c.event.sequenceNumber
  argumentsDone := true

/-- The event that an injection writes. -/
def FunctionCallState.doneEvent (state : FunctionCallState) :
    ResponseFunctionCallArgumentsDoneEvent where
  type := responseFunctionCallArgumentsDone
  itemId := state.itemID
  name := state.name
  outputIndex := state.outputIndex
  sequenceNumber := state.sequence
  arguments := state.arguments

def itemDoneFrame : Bytes := ascii "\n\nevent: response.output_item.done\ndata: "
def argumentsDoneName : Bytes := ascii "response.function_call_arguments.done"

/-- The payload to write and the name of the event to put before it, if any. -/
def injectArgumentsDoneIfNeeded (a : ToolCalls) (payload : Bytes) : (Bytes × Bytes) × ToolCalls :=
  match finishedCall payload with
  | none => ((payload, []), a)
  | some c =>
    if (stateOf a c.itemID).argumentsDone then ((payload, []), a)
    else
      let state := c.close (stateOf a c.itemID)
      ((print state.doneEvent.marshal ++ itemDoneFrame ++ payload, argumentsDoneName),
        store c.itemID state a)

def argumentsDeltaType : Text := "response.function_call_arguments.delta".toList
def outputItemDoneType : Text := "response.output_item.done".toList

/-- A completed event is rewritten; every other payload stays. -/
def adaptCompleted (payload : Bytes) : Bytes := (adaptResponsesSSEPayload payload).getD payload

def adaptPayload (a : ToolCalls) (original : Bytes) : (Bytes × Bytes) × ToolCalls :=
  let payload := adaptCompleted original
  match unmarshal Envelope.decode payload with
  | none => ((payload, []), a)
  | some envelope =>
    if envelope.type = argumentsDeltaType then ((payload, []), observeArgumentsDelta a payload)
    else if envelope.type = responseFunctionCallArgumentsDone then
      ((payload, []), observeArgumentsDone a payload)
    else if envelope.type = outputItemDoneType then injectArgumentsDoneIfNeeded a payload
    else ((payload, []), a)

/-! ## Lines and blocks -/

def dataField : Bytes := ascii "data: "
def doneMarker : Bytes := ascii "[DONE]"

def isBlankSSELine (line : Bytes) : Bool := (trimLineEnd line).isEmpty

def isDataLine (line : Bytes) : Bool := hasPrefix (trimLineEnd line) dataField

def adaptLine (a : ToolCalls) (line : Bytes) : Bytes × ToolCalls :=
  let trimmed := trimLineEnd line
  let newline := lineEnd line
  if ¬ hasPrefix trimmed dataField then (line, a)
  else
    let payload := trimPrefix trimmed dataField
    if payload = doneMarker then (line, a)
    else
      let r := adaptPayload a payload
      if r.1.2 = [] then (dataField ++ r.1.1 ++ newline, r.2)
      else (ascii "event: " ++ r.1.2 ++ [lf] ++ dataField ++ r.1.1 ++ newline, r.2)

/-- `adaptBlock` behind the lines that it has passed over. -/
def adaptBlockFrom (a : ToolCalls) (passed : List Bytes) : List Bytes → Bytes × ToolCalls
  | [] => (passed.flatten, a)
  | line :: rest =>
    if ¬ isDataLine line then adaptBlockFrom a (passed ++ [line]) rest
    else
      let adapted := adaptLine a line
      if contains adapted.1 (ascii "\n\nevent: ") then
        (if hasSuffix adapted.1 (ascii "\n\n") then adapted.1 else adapted.1 ++ [lf], adapted.2)
      else (passed.flatten ++ adapted.1 ++ rest.flatten, adapted.2)

def adaptBlock (a : ToolCalls) (block : List Bytes) : Bytes × ToolCalls := adaptBlockFrom a [] block

/-! ## The copy loop -/

/-- The state of the loop: the adapter and the lines of the open block. -/
structure Loop where
  adapter : ToolCalls := []
  block : List Bytes := []

def flushOps (canFlush : Bool) : List Op := if canFlush then [.flush] else []

/-- One nonempty line. -/
def takeLine (canFlush : Bool) (s : Loop) (line : Bytes) : List Op × Loop :=
  let block := s.block ++ [line]
  if isBlankSSELine line then
    let out := adaptBlock s.adapter block
    (.write out.1 :: flushOps canFlush, ⟨out.2, []⟩)
  else ([], { s with block := block })

def takeLines (canFlush : Bool) (s : Loop) : List Bytes → List Op × Loop
  | [] => ([], s)
  | line :: lines =>
    let r := takeLine canFlush s line
    let rs := takeLines canFlush r.2 lines
    (.read :: r.1 ++ rs.1, rs.2)

/-- The trace of the loop and the error that it returns. The last read brings
the unterminated rest together with the end of the source. -/
def copyResponsesSSE (canFlush : Bool) (src : Source) : List Op × Option Bytes :=
  let lines := readLines src.bytes
  let r := takeLines canFlush {} lines.1
  let last := if lines.2 = [] then ([], r.2) else takeLine canFlush r.2 lines.2
  match src.ending with
  | .eof =>
    let tail := if last.2.block = [] then [] else
      [Op.write (adaptBlock last.2.adapter last.2.block).1]
    (r.1 ++ .read :: last.1 ++ tail, none)
  | .failed message => (r.1 ++ .read :: last.1, some (ascii "responses SSE read: " ++ message))

/-! ## Runs over blocks -/

/-- The blocks of a source that reach the adapter: the open one only at the end
of the source. -/
def blocks (src : Source) : List (List Bytes) :=
  match src.ending with
  | .eof => splitBlocks isBlankSSELine src.bytes
  | .failed _ => (cutBlocks isBlankSSELine [] (splitLines src.bytes)).1

theorem blocks_stream (src : Source) : StreamBlocks isBlankSSELine (blocks src) := by
  unfold blocks
  split
  · exact splitBlocks_stream _ _
  · exact cutBlocks_stream _ (splitLines_isLines _)

/-- What the adapter makes of the blocks, one after the other. -/
def adaptBlocks (a : ToolCalls) : List (List Bytes) → List Bytes
  | [] => []
  | b :: bs => (adaptBlock a b).1 :: adaptBlocks (adaptBlock a b).2 bs

def afterBlocks (a : ToolCalls) (bs : List (List Bytes)) : ToolCalls :=
  bs.foldl (fun a b => (adaptBlock a b).2) a

theorem adaptBlocks_append (a : ToolCalls) (bs cs : List (List Bytes)) :
    adaptBlocks a (bs ++ cs) = adaptBlocks a bs ++ adaptBlocks (afterBlocks a bs) cs := by
  induction bs generalizing a with
  | nil => rfl
  | cons b bs ih => simp [adaptBlocks, afterBlocks, ih]

@[simp] theorem written_flushOps (canFlush : Bool) : written (flushOps canFlush) = [] := by
  cases canFlush <;> rfl

/-- The loop hands the adapter the blocks that its lines cut into. -/
theorem takeLines_spec (canFlush : Bool) (s : Loop) (lines : List Bytes) :
    written (takeLines canFlush s lines).1 =
        (adaptBlocks s.adapter (cutBlocks isBlankSSELine s.block lines).1).flatten ∧
      (takeLines canFlush s lines).2 =
        ⟨afterBlocks s.adapter (cutBlocks isBlankSSELine s.block lines).1,
          (cutBlocks isBlankSSELine s.block lines).2⟩ := by
  induction lines generalizing s with
  | nil => exact ⟨rfl, rfl⟩
  | cons line lines ih =>
    obtain ⟨h₁, h₂⟩ := ih (takeLine canFlush s line).2
    simp only [takeLines, cutBlocks]
    by_cases hb : isBlankSSELine line = true
    · simp only [takeLine, hb, if_true] at h₁ h₂ ⊢
      simp [adaptBlocks, afterBlocks, h₁, h₂]
    · simp only [takeLine, hb, if_false, Bool.false_eq_true] at h₁ h₂ ⊢
      simp [h₁, h₂]

/-- The lines of the source and its unterminated rest, as the loop takes them. -/
def takeSource (canFlush : Bool) (bytes : Bytes) : List Op × Loop :=
  let r := takeLines canFlush {} (readLines bytes).1
  let last := if (readLines bytes).2 = [] then ([], r.2) else takeLine canFlush r.2 (readLines bytes).2
  (r.1 ++ .read :: last.1, last.2)

theorem takeSource_spec (canFlush : Bool) (bytes : Bytes) :
    written (takeSource canFlush bytes).1 =
        (adaptBlocks [] (cutBlocks isBlankSSELine [] (splitLines bytes)).1).flatten ∧
      (takeSource canFlush bytes).2 =
        ⟨afterBlocks [] (cutBlocks isBlankSSELine [] (splitLines bytes)).1,
          (cutBlocks isBlankSSELine [] (splitLines bytes)).2⟩ := by
  have h := takeLines_spec canFlush {} (splitLines bytes)
  have happ : ∀ (s : Loop) (ls : List Bytes) (l : Bytes),
      written (takeLines canFlush s (ls ++ [l])).1 =
          written ((takeLines canFlush s ls).1 ++
            .read :: (takeLine canFlush (takeLines canFlush s ls).2 l).1) ∧
        (takeLines canFlush s (ls ++ [l])).2 = (takeLine canFlush (takeLines canFlush s ls).2 l).2 := by
    intro s ls l
    induction ls generalizing s with
    | nil => simp [takeLines]
    | cons x ls ih =>
      obtain ⟨h₁, h₂⟩ := ih (takeLine canFlush s x).2
      simp only [List.cons_append, takeLines, written_read, written_append] at h₁ h₂ ⊢
      exact ⟨by rw [h₁]; simp, h₂⟩
  unfold takeSource splitLines at *
  split
  · rename_i h0
    simpa [h0] using h
  · rename_i h0
    obtain ⟨h₁, h₂⟩ := happ {} (readLines bytes).1 (readLines bytes).2
    simp only [h0, if_false] at h ⊢
    rw [← h₁, ← h₂]
    exact h

/-- The client receives the images of the blocks, in order. -/
theorem written_copyResponsesSSE (canFlush : Bool) (src : Source) :
    written (copyResponsesSSE canFlush src).1 = (adaptBlocks [] (blocks src)).flatten := by
  obtain ⟨h₁, h₂⟩ := takeSource_spec canFlush src.bytes
  have hcopy : copyResponsesSSE canFlush src =
      match src.ending with
      | .eof => ((takeSource canFlush src.bytes).1 ++
          (if (takeSource canFlush src.bytes).2.block = [] then [] else
            [.write (adaptBlock (takeSource canFlush src.bytes).2.adapter
              (takeSource canFlush src.bytes).2.block).1]), none)
      | .failed message => ((takeSource canFlush src.bytes).1,
          some (ascii "responses SSE read: " ++ message)) := by
    obtain ⟨bytes, ending⟩ := src
    cases ending <;> simp [copyResponsesSSE, takeSource]
  rw [hcopy, blocks]
  cases src.ending with
  | failed message => exact h₁
  | eof =>
    simp only [h₂, written_append, h₁, splitBlocks, adaptBlocks_append, List.flatten_append]
    split
    · rfl
    · simp [adaptBlocks]

end ResponsesSse
