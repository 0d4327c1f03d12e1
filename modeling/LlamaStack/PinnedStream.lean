import LlamaStack.GoJsonObjects
import LlamaStack.LlamaServer
import LlamaStack.ResponsesHistory

/-!
# The stream of the vendored server at the client

The events of one streamed task go through the adapter. Each finished function call
reaches the client behind an arguments done event, the completed event is rewritten, and
everything else comes as it was sent.
-/
namespace PinnedStream

open GoBytes GoJson GoMap GoStream OpenaiApi ResponsesAdapter ResponsesSse ResponsesEvents ResponsesFraming
open ResponsesHistory
open LlamaServer hiding Event

set_option maxRecDepth 4000

/-- What is relied on of the JSON library: a string and a value are read back as they were written,
and a value is written on one line. -/
structure Faithful (json : JsonLibrary) : Prop where
  spells : ∀ t, unquote (json.escape t) = t
  parses : ∀ j, parse (json.dump j) = some j
  oneLine : ∀ j, lf ∉ json.dump j ∧ cr ∉ json.dump j

variable {json : JsonLibrary}

/-! ## Frames as blocks -/

variable (json) in
def payload (e : LlamaServer.Event) : Bytes := json.dump (object json e.data)

def dataLineOf (p : Bytes) : Bytes := dataField ++ p ++ [lf]

variable (json) in
def frameLines : Frame → List Bytes
  | .event e => [ascii "event: " ++ ascii e.name ++ [lf], dataLineOf (payload json e), [lf]]
  | .comment => [ascii ":" ++ [lf], [lf]]
  | .data j => [dataLineOf (json.dump j), [lf]]

theorem frameLines_flatten (fr : Frame) : (frameLines json fr).flatten = fr.bytes json := by
  cases fr <;> simp [frameLines, Frame.bytes, dataLineOf, payload, dataField, List.append_assoc]

/-- The name of an event stays on its line. -/
def Named : Frame → Prop
  | .event e => lf ∉ ascii e.name
  | _ => True

theorem isLine_append {x : Bytes} (h : lf ∉ x) : IsLine (x ++ [lf]) := ⟨x, rfl, h⟩

theorem lf_not_mem_data (hs : Faithful json) (j : Json) : lf ∉ dataField ++ json.dump j := by
  have hd : lf ∉ dataField := by decide
  simp [hd, (hs.oneLine j).1]

theorem frameLines_closed (hs : Faithful json) {fr : Frame} (h : Named fr) :
    Closed isBlankSSELine (frameLines json fr) := by
  have hblank : isBlankSSELine [lf] = true := isLine_lf.2
  have hdata : ∀ j : Json, isBlankSSELine (dataLineOf (json.dump j)) = false := by
    intro j
    rw [dataLineOf, List.append_assoc]
    exact not_blank_append _
  cases fr with
  | event e =>
    have hhead : lf ∉ ascii "event: " ++ ascii e.name := by
      have he : lf ∉ ascii "event: " := by decide
      have hn : lf ∉ ascii e.name := h
      simp [he, hn]
    have hname : isBlankSSELine (ascii "event: " ++ ascii e.name ++ [lf]) = false :=
      not_blank_of_mem (b := 0x65) (by simp [ascii]) (by decide)
    refine ⟨⟨[_, _], [lf], rfl, hblank, ?_⟩, ?_⟩
    · simp only [List.forall_mem_cons, List.not_mem_nil, false_implies, implies_true, and_true]
      exact ⟨hname, hdata _⟩
    · simp only [frameLines, List.forall_mem_cons, List.not_mem_nil, false_implies, implies_true, and_true]
      exact ⟨isLine_append hhead, isLine_append (lf_not_mem_data hs _), isLine_lf.1⟩
  | comment =>
    refine ⟨⟨[_], [lf], rfl, hblank, ?_⟩, ?_⟩
    · have hcolon : isBlankSSELine (ascii ":" ++ [lf]) = false := by decide
      simp [hcolon]
    · simp only [frameLines, List.forall_mem_cons, List.not_mem_nil, false_implies, implies_true, and_true]
      exact ⟨isLine_append (by decide), isLine_lf.1⟩
  | data j =>
    refine ⟨⟨[_], [lf], rfl, hblank, ?_⟩, ?_⟩
    · simp [hdata]
    · simp only [frameLines, List.forall_mem_cons, List.not_mem_nil, false_implies, implies_true, and_true]
      exact ⟨isLine_append (lf_not_mem_data hs _), isLine_lf.1⟩

/-- The adapter gets one block for each frame. -/
theorem blocks_frames (hs : Faithful json) {frs : List Frame} (h : ∀ fr ∈ frs, Named fr) :
    blocks ⟨frs.flatMap (Frame.bytes json), .eof⟩ = frs.map (frameLines json) := by
  have hbytes : frs.flatMap (Frame.bytes json) = (frs.map (frameLines json)).flatten.flatten := by
    induction frs with
    | nil => rfl
    | cons fr frs ih =>
      rw [List.flatMap_cons, ih fun f hf => h f (by simp [hf])]
      simp [frameLines_flatten]
  have hclosed : ∀ b ∈ frs.map (frameLines json), Closed isBlankSSELine b := by
    intro b hb
    obtain ⟨fr, hfr, rfl⟩ := List.mem_map.mp hb
    exact frameLines_closed hs (h fr hfr)
  rw [blocks, hbytes]
  exact splitBlocks_of_stream (streamBlocks_of_closed hclosed)

/-! ## What the adapter makes of a frame -/

theorem linePayload_dataLineOf {p : Bytes} (h : lf ∉ p ∧ cr ∉ p) :
    isDataLine (dataLineOf p) = true ∧ linePayload (dataLineOf p) = p := by
  have hdata : dataLine (dataLineOf p) = some ⟨true, p⟩ := dataLine_of_payload h (by decide)
  have hline := isDataLine_of_dataLine hdata
  rw [dataLine_visible hline] at hdata
  exact ⟨hline, congrArg DataLine.value (Option.some.inj hdata)⟩

theorem adaptedLine_dataLineOf {p : Bytes} (h : lf ∉ p ∧ cr ∉ p) :
    adaptedLine (dataLineOf p) = dataLineOf (adaptCompleted p) := by
  obtain ⟨hline, hpayload⟩ := linePayload_dataLineOf h
  have hend : lineEnd (dataLineOf p) = [lf] := by
    have heq := line_eq hline
    rw [hpayload, dataLineOf] at heq
    exact (List.append_cancel_left heq).symm
  rw [adaptedLine, hpayload, hend, dataLineOf]

theorem isDataLine_head {b : UInt8} (hb : b ≠ 0x64) (x : Bytes) : isDataLine (b :: x) = false := by
  by_contra hn
  have hline := line_eq ((Bool.not_eq_false _).mp hn)
  simp only [dataField, ascii] at hline
  exact hb (List.cons.inj hline).1

/-- An event without an answer of the adapter passes with its payload rewritten. -/
theorem adaptBlock_event (hs : Faithful json) (a : ToolCalls) (e : LlamaServer.Event) :
    adaptBlock a (frameLines json (.event e)) =
      ((match (step a (classify (payload json e))).2 with
        | none => ascii "event: " ++ ascii e.name ++ [lf] ++ dataLineOf (adaptCompleted (payload json e)) ++ [lf]
        | some d => (argumentsDoneFrame d).flatten ++ (itemDoneHead ++ (dataLineOf (payload json e) ++ [lf]))),
        (step a (classify (payload json e))).1) := by
  have hone := hs.oneLine (object json e.data)
  obtain ⟨hline, hpayload⟩ := linePayload_dataLineOf hone
  have hname : ∀ x ∈ [ascii "event: " ++ ascii e.name ++ [lf]], isDataLine x = false := by
    intro x hx
    rw [List.mem_singleton.mp hx]
    exact isDataLine_head (b := 0x65) (by decide) _
  have hadapt := adaptBlock_eq a [[lf]] hname hline (.inl (isLine_append (lf_not_mem_data hs _)))
  rw [hpayload, adaptedLine_dataLineOf hone] at hadapt
  simp only [List.flatten_cons, List.flatten_nil, List.append_nil] at hadapt
  exact hadapt

/-! ## What the adapter reads in an event -/

theorem decodeStruct_object (hs : Faithful json) {σ : Type} (fields : List (StructField σ)) (ms : List (String × Json))
    (s : σ) : decodeStruct fields (object json ms) s =
      ms.foldlM (fun s m => setField fields m.1.toList m.2 s) s := by
  simp only [decodeStruct, object]
  induction ms generalizing s with
  | nil => rfl
  | cons m ms ih =>
    simp only [List.map_cons, decodeFields, hs.spells, List.foldlM_cons]
    cases h : setField fields m.1.toList m.2 s with
    | none => rfl
    | some s' => exact ih s'

theorem decodeString_str (hs : Faithful json) (t cur : Text) : decodeString (str json t) cur = some t := by
  rw [str, decodeString, hs.spells]

/-- A member that no field is named after changes nothing. -/
theorem setField_other {σ : Type} {fields : List (StructField σ)} {k : Text}
    (h : ∀ f ∈ fields, foldName f.name ≠ foldName k) (v : Json) (s : σ) : setField fields k v s = some s := by
  have hfind : fields.find? (fun f => foldName f.name = foldName k) = none := by simpa using h
  rw [setField, hfind]

theorem foldlM_other {σ : Type} {fields : List (StructField σ)} {ms : List (String × Json)}
    (h : ∀ m ∈ ms, ∀ f ∈ fields, foldName f.name ≠ foldName m.1.toList) (s : σ) :
    ms.foldlM (fun s m => setField fields m.1.toList m.2 s) s = some s := by
  induction ms with
  | nil => rfl
  | cons m ms ih =>
    rw [List.foldlM_cons, setField_other (h m (by simp))]
    exact ih fun m' hm' => h m' (by simp [hm'])

theorem depth_object {ms : List (String × Json)} {d : Nat} (h : ∀ m ∈ ms, depth m.2 ≤ d) :
    depth (object json ms) ≤ d + 1 := by
  rw [object, depth, Nat.add_le_add_iff_right, depthMembers_le]
  intro e he
  obtain ⟨m, hm, rfl⟩ := List.mem_map.mp he
  exact h m hm

theorem unmarshal_dump (hs : Faithful json) {σ : Type} (dec : Json → Option σ) (j : Json) :
    unmarshal dec (json.dump j) = none ∨ unmarshal dec (json.dump j) = dec j := by
  rw [unmarshal, checkValid, hs.parses]
  by_cases h : depth j ≤ maxNestingDepth <;> simp [h]

/-- What `addToLast` adds. -/
def Extra (ms : List (String × Json)) : Prop :=
  ∀ m ∈ ms, (m.1 = "timings" ∨ m.1 = "prompt_progress") ∧ depth m.2 ≤ 1

theorem extra_extras (stats : Option (List (String × GoJson.Num))) (progress : Option PromptProgress) :
    Extra (extras json stats progress) := by
  have hflat : ∀ ms : List (String × Json), (∀ m ∈ ms, depth m.2 = 0) → depth (object json ms) ≤ 1 :=
    fun ms h => depth_object fun m hm => (h m hm).le
  intro m hm
  rcases List.mem_append.mp hm with hm | hm
  · obtain ⟨stats', -, rfl⟩ := Option.map_eq_some_iff.mp (Option.mem_toList.mp hm)
    refine ⟨.inl rfl, hflat _ ?_⟩
    intro m hm
    obtain ⟨x, -, rfl⟩ := List.mem_map.mp hm
    rfl
  · obtain ⟨p, -, rfl⟩ := Option.map_eq_some_iff.mp (Option.mem_toList.mp hm)
    refine ⟨.inr rfl, hflat _ ?_⟩
    simp [int, depth]

theorem foldlM_extra {σ : Type} {fields : List (StructField σ)} {ms : List (String × Json)} (hms : Extra ms)
    (hfields : ∀ f ∈ fields, foldName f.name ≠ foldName "timings".toList ∧
      foldName f.name ≠ foldName "prompt_progress".toList) (s : σ) :
    ms.foldlM (fun s m => setField fields m.1.toList m.2 s) s = some s := by
  refine foldlM_other (fun m hm f hf => ?_) s
  rcases (hms m hm).1 with hname | hname <;> rw [hname]
  · exact (hfields f hf).1
  · exact (hfields f hf).2

theorem decodeStruct_extra (hs : Faithful json) {σ : Type} {fields : List (StructField σ)}
    {data ms : List (String × Json)}
    (hms : Extra ms) (hfields : ∀ f ∈ fields, foldName f.name ≠ foldName "timings".toList ∧
      foldName f.name ≠ foldName "prompt_progress".toList)
    {s s' : σ} (h : decodeStruct fields (object json data) s = some s') :
    decodeStruct fields (object json (data ++ ms)) s = some s' := by
  rw [decodeStruct_object hs] at h ⊢
  rw [List.foldlM_append, h]
  exact foldlM_extra hms hfields s'

/-- The adapter reads an event as this one, and leaves its payload as it is. -/
structure Reads (json : JsonLibrary) (e : LlamaServer.Event) (ev : ResponsesEvents.Event) : Prop where
  named : lf ∉ ascii e.name
  classified : classify (payload json e) = ev
  kept : adaptCompleted (payload json e) = payload json e

/-- It does so whatever is added to the event. -/
def Steady (json : JsonLibrary) (e : LlamaServer.Event) (ev : ResponsesEvents.Event) : Prop :=
  ∀ ms, Extra ms → Reads json ⟨e.name, e.data ++ ms⟩ ev

theorem decode_type (hs : Faithful json) (name : String) {rest ms : List (String × Json)} (hms : Extra ms)
    (hrest : ∀ m ∈ rest, foldName "type".toList ≠ foldName m.1.toList) :
    Envelope.decode (object json ((LlamaServer.Event.of json name rest).data ++ ms)) = some ⟨name.toList⟩ := by
  refine decodeStruct_extra hs hms (by decide) ?_
  rw [decodeStruct_object hs, LlamaServer.Event.of, List.foldlM_cons, setField_cons, if_pos rfl]
  simp only [decodeString_str hs, Option.map_some]
  exact foldlM_other (fun m hm f hf => by rw [List.mem_singleton.mp hf]; exact hrest m hm) _

theorem eventType_of (hs : Faithful json) (name : String) {rest ms : List (String × Json)} (hms : Extra ms)
    (hrest : ∀ m ∈ rest, foldName "type".toList ≠ foldName m.1.toList) :
    ∀ t ∈ eventType (json.dump (object json ((LlamaServer.Event.of json name rest).data ++ ms))), t = name.toList := by
  intro t ht
  rw [eventType] at ht
  rcases unmarshal_dump hs Envelope.decode (object json ((LlamaServer.Event.of json name rest).data ++ ms)) with h | h
  · simp [h] at ht
  · rw [h, decode_type hs name hms hrest] at ht
    exact (Option.some.inj ht).symm

theorem kept_of_type {p : Bytes} {name : Text} (h : ∀ t ∈ eventType p, t = name) (hne : name ≠ responseCompleted) :
    adaptCompleted p = p := by
  unfold adaptCompleted
  cases ha : adaptResponsesSSEPayload p with
  | none => rfl
  | some out => exact absurd (h _ (adaptResponsesSSEPayload_type ha).1).symm hne

theorem classify_other {p : Bytes} {name : Text} (h : ∀ t ∈ eventType p, t = name)
    (hne : name ∉ [argumentsDeltaType, responseFunctionCallArgumentsDone, outputItemDoneType]) :
    classify p = .other := by
  simp only [List.mem_cons, List.not_mem_nil, or_false, not_or] at hne
  unfold classify
  cases ht : eventType p with
  | none => rfl
  | some t =>
    rw [h t ht]
    simp only [if_neg hne.1, if_neg hne.2.1, if_neg hne.2.2]

/-- The event of a finished item, before its item is looked at. -/
theorem classify_item {p : Bytes} (h : ∀ t ∈ eventType p, t = outputItemDoneType) (hnone : finishedCall p = none) :
    classify p = .other := by
  unfold classify
  cases ht : eventType p with
  | none => rfl
  | some t =>
    rw [h t ht, hnone]
    rfl

theorem steady_other (hs : Faithful json) {name : String} {rest : List (String × Json)} (hname : lf ∉ ascii name)
    (htype : name.toList ∉ [argumentsDeltaType, responseFunctionCallArgumentsDone, outputItemDoneType])
    (hcompleted : name.toList ≠ responseCompleted)
    (hrest : ∀ m ∈ rest, foldName "type".toList ≠ foldName m.1.toList) :
    Steady json (.of json name rest) .other := by
  intro ms hms
  have hall := eventType_of hs name hms hrest
  exact ⟨hname, classify_other hall htype, kept_of_type hall hcompleted⟩

theorem type_itemDone (hs : Faithful json) (item : Json) {ms : List (String × Json)} (hms : Extra ms) :
    ∀ t ∈ eventType (json.dump (object json ((itemDone json item).data ++ ms))), t = outputItemDoneType := by
  refine eventType_of hs _ hms fun m hm => ?_
  rw [List.mem_singleton.mp hm]
  exact (by decide : foldName "type".toList ≠ foldName "item".toList)

theorem decode_itemDone (hs : Faithful json) (item : Json) {ms : List (String × Json)} (hms : Extra ms) :
    ResponseOutputItemDoneEvent.decode (object json ((itemDone json item).data ++ ms)) =
      some { item := some item, type := outputItemDoneType } := by
  refine decodeStruct_extra hs hms (by decide) ?_
  rw [decodeStruct_object hs]
  simp +decide [itemDone, LlamaServer.Event.of, setField_cons, decodeString_str hs]

/-- A finished item that is no function call means nothing to the adapter. -/
theorem steady_item (hs : Faithful json) {item : Json} (hitem : responseOutputFunctionCallItem (some item) = none) :
    Steady json (itemDone json item) .other := by
  intro ms hms
  have hall := type_itemDone hs item hms
  have hname : lf ∉ ascii "response.output_item.done" := by decide
  refine ⟨hname, classify_item hall ?_, kept_of_type hall (by decide)⟩
  change finishedCall (json.dump (object json ((itemDone json item).data ++ ms))) = none
  rw [finishedCall]
  have hread := unmarshal_dump hs ResponseOutputItemDoneEvent.decode (object json ((itemDone json item).data ++ ms))
  rcases hread with h | h
  · rw [h]
  · rw [h, decode_itemDone hs item hms]
    simp only [hitem]

theorem responseOutput_none {item : Json} {call : ResponseOutputFunctionCallItem}
    (h : ResponseOutputFunctionCallItem.decode item = some call) (htype : call.type ≠ functionCall) :
    responseOutputFunctionCallItem (some item) = none := by
  rw [responseOutputFunctionCallItem, asResponseOutputFunctionCallItem, Option.bind_some, h]
  simp [Option.filter, htype]

theorem decode_reasoningItem (hs : Faithful json) (s : TaskResultState) (f : CmplFinal) :
    ResponseOutputFunctionCallItem.decode (reasoningItem json s f) =
      some { id := some s.respReasoningId, type := "reasoning".toList } := by
  rw [ResponseOutputFunctionCallItem.decode, reasoningItem, decodeStruct_object hs]
  simp +decide [setField_cons, str, decodePtr, decodeString, hs.spells]

theorem decode_messageItem (hs : Faithful json) (s : TaskResultState) (f : CmplFinal) :
    ResponseOutputFunctionCallItem.decode (messageItem json s f) =
      some { id := some s.respMessageId, status := some "completed".toList, type := "message".toList } := by
  rw [ResponseOutputFunctionCallItem.decode, messageItem, decodeStruct_object hs]
  simp +decide [setField_cons, str, decodePtr, decodeString, hs.spells]

theorem decode_item (hs : Faithful json) (c : ToolCall) : ResponseOutputFunctionCallItem.decode (c.item json) =
    some { arguments := c.arguments, callId := "call_".toList ++ c.id, id := some (itemId c.id), name := c.name
           status := some "completed".toList, type := functionCall } := by
  rw [ResponseOutputFunctionCallItem.decode, ToolCall.item, decodeStruct_object hs]
  simp +decide [setField_cons, str, decodePtr, decodeString, hs.spells]

theorem itemId_ne (id : Text) : itemId id ≠ [] := by simp [itemId]

theorem itemId_inj {id id' : Text} (h : itemId id = itemId id') : id = id' := List.append_cancel_left h

variable (json) in
/-- The call that the adapter reads in a finished item. -/
def finishedOf (c : ToolCall) : FinishedCall where
  event := { item := some (c.item json), type := outputItemDoneType }
  item :=
    { arguments := c.arguments, callId := "call_".toList ++ c.id, id := some (itemId c.id), name := c.name
      status := some "completed".toList, type := functionCall }
  itemID := itemId c.id
  itemID_ne := itemId_ne c.id

theorem depth_extra {ms : List (String × Json)} (hms : Extra ms) {rest : List (String × Json)} {name : String}
    (hrest : ∀ m ∈ rest, depth m.2 ≤ 1) :
    depth (object json ((LlamaServer.Event.of json name rest).data ++ ms)) ≤ maxNestingDepth := by
  have hle : depth (object json ((LlamaServer.Event.of json name rest).data ++ ms)) ≤ 1 + 1 := by
    refine depth_object fun m hm => ?_
    rcases List.mem_append.mp hm with hm | hm
    · rcases List.mem_cons.mp hm with rfl | hm
      · exact Nat.zero_le _
      · exact hrest m hm
    · exact (hms m hm).2
  exact hle.trans (by decide)

theorem unmarshal_valid (hs : Faithful json) {σ : Type} (dec : Json → Option σ) {j : Json}
    (h : depth j ≤ maxNestingDepth) : unmarshal dec (json.dump j) = dec j := by
  rw [unmarshal, checkValid, hs.parses]
  simp only [if_pos h, Option.bind_some]

theorem steady_call (hs : Faithful json) (c : ToolCall) :
    Steady json (itemDone json (c.item json)) (.finished (finishedOf json c)) := by
  intro ms hms
  have hname : lf ∉ ascii "response.output_item.done" := by decide
  have hrest : ∀ m ∈ [("item", c.item json)], foldName "type".toList ≠ foldName m.1.toList := by
    intro m hm
    rw [List.mem_singleton.mp hm]
    exact (by decide : foldName "type".toList ≠ foldName "item".toList)
  have hitem : depth (c.item json) ≤ 0 + 1 := depth_object (by simp [str, depth])
  have hdepth : depth (object json ((itemDone json (c.item json)).data ++ ms)) ≤ maxNestingDepth :=
    depth_extra hms (by simpa using hitem)
  have htype : eventType (json.dump (object json ((itemDone json (c.item json)).data ++ ms))) =
      some outputItemDoneType := by
    rw [eventType, unmarshal_valid hs _ hdepth]
    exact congrArg (Option.map Envelope.type) (decode_type hs "response.output_item.done" hms hrest)
  have hcall : responseOutputFunctionCallItem (some (c.item json)) = some (finishedOf json c).item := by
    rw [responseOutputFunctionCallItem, asResponseOutputFunctionCallItem, Option.bind_some, decode_item hs]
    rfl
  have hfirst : ∀ x, firstNonEmpty [stringValue (some (itemId c.id)), x] = itemId c.id := by
    simp [firstNonEmpty, stringValue, itemId_ne]
  have hfinished : finishedCall (json.dump (object json ((itemDone json (c.item json)).data ++ ms))) =
      some (finishedOf json c) := by
    rw [finishedCall, unmarshal_valid hs _ hdepth, decode_itemDone hs _ hms]
    simp only [hcall]
    simp [finishedOf, hfirst, itemId_ne]
  refine ⟨hname, ?_, kept_of_type (type_itemDone hs _ hms) (by decide)⟩
  change classify (json.dump (object json ((itemDone json (c.item json)).data ++ ms))) = _
  unfold classify
  rw [htype, hfinished]
  rfl

theorem steady_delta (hs : Faithful json) (args id : Text) :
    Steady json (argumentsDelta json args id) (.argumentsDelta { itemID := itemId id, delta := args }) := by
  intro ms hms
  have hname : lf ∉ ascii "response.function_call_arguments.delta" := by decide
  have hrest : ∀ m ∈ [("delta", str json args), ("item_id", str json (itemId id))],
      foldName "type".toList ≠ foldName m.1.toList := by
    simp only [List.forall_mem_cons, List.not_mem_nil, false_implies, implies_true, and_true]
    exact ⟨by decide, by decide⟩
  have hdepth : depth (object json ((argumentsDelta json args id).data ++ ms)) ≤ maxNestingDepth :=
    depth_extra hms (by simp [str, depth])
  have htype := decode_type hs "response.function_call_arguments.delta" hms hrest
  have hdec : ArgumentsDeltaEvent.decode (object json ((argumentsDelta json args id).data ++ ms)) =
      some { itemID := itemId id, delta := args } := by
    refine decodeStruct_extra hs hms (by decide) ?_
    rw [decodeStruct_object hs]
    simp +decide [argumentsDelta, LlamaServer.Event.of, setField_cons, decodeString_str hs]
  refine ⟨hname, ?_, kept_of_type (eventType_of hs _ hms hrest) (by decide)⟩
  change classify (json.dump (object json ((argumentsDelta json args id).data ++ ms))) = _
  have heventType : eventType (json.dump (object json ((argumentsDelta json args id).data ++ ms))) =
      some argumentsDeltaType := by
    rw [eventType, unmarshal_valid hs _ hdepth]
    exact congrArg (Option.map Envelope.type) htype
  unfold classify
  rw [heventType, unmarshal_valid hs _ hdepth, hdec]
  rfl

/-! ## Partial results -/

/-- Events that send arguments, each for the call with this id, among events that mean
nothing to the adapter. -/
inductive Sends (P : LlamaServer.Event → ResponsesEvents.Event → Prop) :
    List LlamaServer.Event → List (Text × Text) → Prop where
  | nil : Sends P [] []
  | other {e : LlamaServer.Event} {es : List LlamaServer.Event} {xs : List (Text × Text)} (h : P e .other)
      (hs : Sends P es xs) : Sends P (e :: es) xs
  | delta {e : LlamaServer.Event} {es : List LlamaServer.Event} {xs : List (Text × Text)} {id args : Text}
      (h : P e (.argumentsDelta { itemID := itemId id, delta := args })) (hs : Sends P es xs) :
      Sends P (e :: es) ((id, args) :: xs)

theorem Sends.append {P : LlamaServer.Event → ResponsesEvents.Event → Prop} {es es' : List LlamaServer.Event}
    {xs xs' : List (Text × Text)} (h : Sends P es xs) (h' : Sends P es' xs') : Sends P (es ++ es') (xs ++ xs') := by
  induction h with
  | nil => exact h'
  | other he _ ih => exact .other he ih
  | delta he _ ih => exact .delta he ih

theorem Sends.append_silent {P : LlamaServer.Event → ResponsesEvents.Event → Prop} {es es' : List LlamaServer.Event}
    {xs : List (Text × Text)} (h : Sends P es []) (h' : Sends P es' xs) : Sends P (es ++ es') xs := h.append h'

theorem sends_others {P : LlamaServer.Event → ResponsesEvents.Event → Prop} {es : List LlamaServer.Event}
    (h : ∀ e ∈ es, P e .other) : Sends P es [] := by
  induction es with
  | nil => exact .nil
  | cons e es ih => exact .other (h e (by simp)) (ih fun e' he' => h e' (by simp [he']))

theorem Steady.reads {e : LlamaServer.Event} {ev : ResponsesEvents.Event} (h : Steady json e ev) :
    Reads json e ev := by
  have hempty := h [] (by simp [Extra])
  rwa [List.append_nil] at hempty

/-- What is added to the last event changes nothing for the adapter. -/
theorem sends_addToLast {es : List LlamaServer.Event} {xs : List (Text × Text)} {ms : List (String × Json)}
    (hms : Extra ms) (h : Sends (Steady json) es xs) : Sends (Reads json) (addToLast ms es) xs := by
  induction h with
  | nil => exact .nil
  | @other e es xs he hes ih =>
    cases es with
    | nil => exact .other (he ms hms) ih
    | cons e' es => exact .other he.reads ih
  | @delta e es xs id args he hes ih =>
    cases es with
    | nil => exact .delta (he ms hms) ih
    | cons e' es => exact .delta he.reads ih

def fcAfter (fcId : Text) (d : MsgDiff) : Text := if d.toolCallDelta.name = [] then fcId else d.toolCallDelta.id

/-- The arguments that differences send, with the id of the call that they are sent for. -/
def sentBy (fcId : Text) : List MsgDiff → List (Text × Text)
  | [] => []
  | d :: ds =>
    (if d.toolCallDelta.arguments = [] then [] else [(fcAfter fcId d, d.toolCallDelta.arguments)]) ++
      sentBy (fcAfter fcId d) ds

theorem sentBy_append (fcId : Text) (ds ds' : List MsgDiff) :
    sentBy fcId (ds ++ ds') = sentBy fcId ds ++ sentBy (ds.foldl fcAfter fcId) ds' := by
  induction ds generalizing fcId with
  | nil => rfl
  | cons d ds ih => simp [sentBy, ih]

theorem respFcId_update (s : TaskResultState) (r : CmplPartial) :
    (r.update s).respFcId = r.msgDiffs.foldl fcAfter s.respFcId := by
  rw [CmplPartial.update]
  generalize hs' : { s with respCreated := s.respCreated || r.progress.isSome || r.nDecoded == 1 } = s'
  have hfc : s'.respFcId = s.respFcId := by rw [← hs']
  rw [← hfc]
  clear hs' hfc
  induction r.msgDiffs generalizing s' with
  | nil => rfl
  | cons d ds ih =>
    rw [List.foldl_cons, List.foldl_cons]
    exact ih _

theorem sends_reasoning (hs : Faithful json) (s : TaskResultState) (d : MsgDiff) :
    Sends (Steady json) (reasoningEvents json s d) [] := by
  apply sends_others
  intro e he
  rw [reasoningEvents] at he
  split at he
  · cases he
  · rcases List.mem_append.mp he with he | he
    · split at he
      · cases he
      · rw [List.mem_singleton.mp he]
        exact steady_other hs (by decide) (by decide) (by decide) (by simp +decide)
    · rw [List.mem_singleton.mp he]
      exact steady_other hs (by decide) (by decide) (by decide) (by simp +decide)

theorem sends_text (hs : Faithful json) (s : TaskResultState) (d : MsgDiff) :
    Sends (Steady json) (textEvents json s d) [] := by
  apply sends_others
  intro e he
  rw [textEvents] at he
  split at he
  · cases he
  · rcases List.mem_append.mp he with he | he
    · split at he
      · cases he
      · simp only [List.mem_cons, List.not_mem_nil, or_false] at he
        rcases he with rfl | rfl <;>
          exact steady_other hs (by decide) (by decide) (by decide) (by simp +decide)
    · rw [List.mem_singleton.mp he]
      exact steady_other hs (by decide) (by decide) (by decide) (by simp +decide)

theorem sends_toolCall (hs : Faithful json) (s : TaskResultState) (d : MsgDiff) :
    Sends (Steady json) (toolCallEvents json s d)
      (if d.toolCallDelta.arguments = [] then [] else [(fcAfter s.respFcId d, d.toolCallDelta.arguments)]) := by
  have hadded : Sends (Steady json) (if d.toolCallDelta.name = [] then [] else
      [.of json "response.output_item.added" [("item", object json [("id", str json (itemId d.toolCallDelta.id)),
        ("arguments", str json []), ("call_id", str json ("call_".toList ++ d.toolCallDelta.id)),
        ("name", str json d.toolCallDelta.name), ("type", str json "function_call".toList),
        ("status", str json "in_progress".toList)])]]) [] := by
    split
    · exact .nil
    · exact .other (steady_other hs (by decide) (by decide) (by decide) (by simp +decide)) .nil
  have hsent : Sends (Steady json) (if d.toolCallDelta.arguments = [] then [] else
      [argumentsDelta json d.toolCallDelta.arguments (fcIdAfter s d)])
      (if d.toolCallDelta.arguments = [] then [] else [(fcAfter s.respFcId d, d.toolCallDelta.arguments)]) := by
    by_cases hargs : d.toolCallDelta.arguments = []
    · simp only [if_pos hargs]
      exact .nil
    · simp only [if_neg hargs]
      exact .delta (steady_delta hs _ _) .nil
  have hboth := hadded.append hsent
  rwa [List.nil_append] at hboth

theorem sends_diffs (hs : Faithful json) (s : TaskResultState) (ds : List MsgDiff) :
    Sends (Steady json) (diffsEvents json s ds) (sentBy s.respFcId ds) := by
  induction ds generalizing s with
  | nil => exact .nil
  | cons d ds ih =>
    exact (((sends_reasoning hs s d).append (sends_text hs s d)).append (sends_toolCall hs s d)).append
      (ih (diffEvents json s d).2)

theorem sends_cmpl (hs : Faithful json) (s : TaskResultState) (r : CmplPartial) :
    Sends (Reads json) (r.toJsonOaicompatResp json s) (sentBy s.respFcId r.msgDiffs) := by
  refine sends_addToLast (extra_extras r.stats r.progress) (Sends.append_silent ?_ (sends_diffs hs s r.msgDiffs))
  have hprogress : ∀ name, name = "response.created" ∨ name = "response.in_progress" →
      Steady json (inProgress json s name) .other := by
    rintro name (rfl | rfl) <;> exact steady_other hs (by decide) (by decide) (by decide) (by simp +decide)
  split
  · exact .other (hprogress _ (.inl rfl)) (.other (hprogress _ (.inr rfl)) .nil)
  · split
    · exact .other (hprogress _ (.inr rfl)) .nil
    · exact .nil

/-! ## The calls of the adapter -/

/-- The arguments that were sent for a call. -/
def argumentsOf (sent : List (Text × Text)) (id : Text) : Text :=
  sent.flatMap fun x => if x.1 = id then x.2 else []

/-- A call that the adapter has not seen finish. -/
structure Running (st : FunctionCallState) (args : Text) : Prop where
  argumentsDone : st.argumentsDone = false
  name : st.name = []
  outputIndex : st.outputIndex = 0
  arguments : st.arguments = args

/-- What the adapter knows of the calls when these arguments were sent and these calls
have finished. -/
structure Tracks (a : ToolCalls) (sent : List (Text × Text)) (finished : List Text) : Prop where
  done : ∀ id ∈ finished, (stateOf a (itemId id)).argumentsDone = true
  running : ∀ id, id ∉ finished → Running (stateOf a (itemId id)) (argumentsOf sent id)

theorem stateOf_store_self (k : Text) (x : FunctionCallState) (a : ToolCalls) : stateOf (store k x a) k = x := by
  rw [stateOf, get_store_self, Option.getD_some]

theorem stateOf_store_ne {id id' : Text} (h : id' ≠ id) (x : FunctionCallState) (a : ToolCalls) :
    stateOf (store (itemId id) x a) (itemId id') = stateOf a (itemId id') := by
  rw [stateOf, get_store_ne fun heq => h (itemId_inj heq), ← stateOf]

theorem tracks_nil : Tracks [] [] [] := ⟨fun _ h => (List.not_mem_nil h).elim, fun _ _ => ⟨rfl, rfl, rfl, rfl⟩⟩

theorem argumentsOf_snoc (sent : List (Text × Text)) (id args k : Text) :
    argumentsOf (sent ++ [(id, args)]) k = argumentsOf sent k ++ if id = k then args else [] := by
  simp [argumentsOf]

theorem tracks_delta {a : ToolCalls} {sent : List (Text × Text)} (h : Tracks a sent []) (id args : Text) :
    Tracks (step a (.argumentsDelta { itemID := itemId id, delta := args })).1 (sent ++ [(id, args)]) [] := by
  rw [step, if_neg (itemId_ne id)]
  refine ⟨fun _ h => (List.not_mem_nil h).elim, fun k hk => ?_⟩
  rw [argumentsOf_snoc]
  obtain ⟨hdone, hname, -, hargs⟩ := h.running k hk
  by_cases hid : k = id
  · rw [← hid, stateOf_store_self, if_pos rfl]
    exact ⟨hdone, hname, rfl, by rw [hargs]⟩
  · rw [stateOf_store_ne hid, if_neg (Ne.symm hid), List.append_nil]
    exact h.running k hk

/-- The call is closed by the adapter and no other is touched. -/
theorem tracks_finished {a : ToolCalls} {sent : List (Text × Text)} {finished : List Text} (h : Tracks a sent finished)
    (c : ToolCall) : Tracks (step a (.finished (finishedOf json c))).1 sent (c.id :: finished) := by
  have hkey : (finishedOf json c).itemID = itemId c.id := rfl
  rw [step, hkey]
  by_cases hdone : (stateOf a (itemId c.id)).argumentsDone = true
  · rw [if_pos hdone]
    refine ⟨fun id hid => ?_, fun id hid => h.running id fun hmem => hid (by simp [hmem])⟩
    rcases List.mem_cons.mp hid with rfl | hid
    · exact hdone
    · exact h.done id hid
  · rw [if_neg hdone]
    refine ⟨fun id hid => ?_, fun id hid => ?_⟩
    · by_cases heq : id = c.id
      · rw [heq, stateOf_store_self]
        rfl
      · rw [stateOf_store_ne heq]
        exact h.done id ((List.mem_cons.mp hid).resolve_left heq)
    · rw [List.mem_cons, not_or] at hid
      rw [stateOf_store_ne hid.1]
      exact h.running id hid.2

/-- The event that closes the arguments of a call. Arguments that were sent before win
over those of the item. -/
def argumentsDone (c : ToolCall) (sent : Text) : ResponseFunctionCallArgumentsDoneEvent where
  type := responseFunctionCallArgumentsDone
  itemId := itemId c.id
  name := c.name
  arguments := firstNonEmpty [sent, c.arguments]

theorem emits_finished {a : ToolCalls} {sent : List (Text × Text)} {finished : List Text} (h : Tracks a sent finished)
    (c : ToolCall) : (step a (.finished (finishedOf json c))).2 =
      if c.id ∈ finished then none else some (argumentsDone c (argumentsOf sent c.id)) := by
  have hkey : (finishedOf json c).itemID = itemId c.id := rfl
  rw [step, hkey]
  by_cases hid : c.id ∈ finished
  · rw [if_pos (h.done c.id hid), if_pos hid]
  · obtain ⟨hdone, hname, hindex, hargs⟩ := h.running c.id hid
    have hfirst : firstNonEmpty [[], c.name] = c.name := by
      cases hn : c.name <;> simp [firstNonEmpty]
    rw [if_neg (by simp [hdone]), if_neg hid]
    simp [FinishedCall.close, FunctionCallState.doneEvent, finishedOf, argumentsDone, hname, hindex, hargs, hfirst]

/-! ## What the client receives -/

variable (json) in
def eventsBytes (es : List LlamaServer.Event) : Bytes := es.flatMap fun e => (Frame.event e).bytes json

variable (json) in
def eventBlocks (es : List LlamaServer.Event) : List (List Bytes) := es.map fun e => frameLines json (.event e)

theorem bytes_event (e : LlamaServer.Event) : (Frame.event e).bytes json =
    ascii "event: " ++ ascii e.name ++ [lf] ++ dataLineOf (payload json e) ++ [lf] := by
  rw [← frameLines_flatten]
  simp [frameLines]

theorem adaptBlock_reads (hs : Faithful json) {e : LlamaServer.Event} {ev : ResponsesEvents.Event}
    (h : Reads json e ev) (a : ToolCalls) (hquiet : (step a ev).2 = none) :
    adaptBlock a (frameLines json (.event e)) = ((Frame.event e).bytes json, (step a ev).1) := by
  rw [adaptBlock_event hs, h.classified, hquiet, h.kept, bytes_event]

/-- Events that send arguments pass as they are, and the adapter adds the arguments up. -/
theorem adapt_sends (hs : Faithful json) {es : List LlamaServer.Event} {xs : List (Text × Text)}
    (h : Sends (Reads json) es xs) {a : ToolCalls} {sent : List (Text × Text)} (ha : Tracks a sent []) :
    (adaptBlocks a (eventBlocks json es)).flatten = eventsBytes json es ∧
      Tracks (afterBlocks a (eventBlocks json es)) (sent ++ xs) [] := by
  induction h generalizing a sent with
  | nil =>
    rw [List.append_nil]
    exact ⟨rfl, ha⟩
  | @other e es xs he _ ih =>
    have hblock := adaptBlock_reads hs he a rfl
    obtain ⟨hbytes, htracks⟩ := ih ha
    simp only [eventBlocks, List.map_cons, adaptBlocks, afterBlocks, List.foldl_cons, hblock, List.flatten_cons,
      eventsBytes, List.flatMap_cons]
    exact ⟨congrArg _ hbytes, htracks⟩
  | @delta e es xs id args he _ ih =>
    have hstep : (step a (.argumentsDelta { itemID := itemId id, delta := args })).2 = none := by
      rw [step, if_neg (itemId_ne id)]
    have hblock := adaptBlock_reads hs he a hstep
    obtain ⟨hbytes, htracks⟩ := ih (tracks_delta ha id args)
    rw [List.append_assoc] at htracks
    simp only [eventBlocks, List.map_cons, adaptBlocks, afterBlocks, List.foldl_cons, hblock, List.flatten_cons,
      eventsBytes, List.flatMap_cons]
    exact ⟨congrArg _ hbytes, htracks⟩

/-- What comes before the frame of a finished call: for the first of the call, the event that
closes its arguments. -/
def closing (sent : Text → Text) (finished : List Text) (c : ToolCall) : Bytes :=
  if finished.any fun id => id = c.id then [] else (argumentsDoneFrame (argumentsDone c (sent c.id))).flatten

variable (json) in
/-- The frames of the finished calls. -/
def callsDelivered (sent : Text → Text) (finished : List Text) : List ToolCall → Bytes
  | [] => []
  | c :: cs =>
    closing sent finished c ++ (Frame.event (itemDone json (c.item json))).bytes json ++
      callsDelivered sent (c.id :: finished) cs

theorem adapt_calls (hs : Faithful json) {a : ToolCalls} {sent : List (Text × Text)} {finished : List Text}
    (ha : Tracks a sent finished) (cs : List ToolCall) :
    (adaptBlocks a (eventBlocks json (cs.map fun c => itemDone json (c.item json)))).flatten =
      callsDelivered json (argumentsOf sent) finished cs := by
  induction cs generalizing a finished with
  | nil => rfl
  | cons c cs ih =>
    have hreads := (steady_call hs c).reads
    have htracks : Tracks (step a (.finished (finishedOf json c))).1 sent (c.id :: finished) := tracks_finished ha c
    have hemit : (step a (.finished (finishedOf json c))).2 = _ := emits_finished ha c
    have hhead : ascii "event: " ++ ascii (itemDone json (c.item json)).name ++ [lf] = itemDoneHead :=
      (by decide : ascii "event: " ++ ascii "response.output_item.done" ++ [lf] = itemDoneHead)
    have hblock : adaptBlock a (frameLines json (.event (itemDone json (c.item json)))) =
        (closing (argumentsOf sent) finished c ++ (Frame.event (itemDone json (c.item json))).bytes json,
        (step a (.finished (finishedOf json c))).1) := by
      rw [adaptBlock_event hs, hreads.classified, hemit, hreads.kept, bytes_event, hhead]
      have hany : (finished.any fun id => id = c.id) = true ↔ c.id ∈ finished := by simp
      by_cases hid : c.id ∈ finished
      · simp only [closing, hany, if_pos hid, List.nil_append]
      · simp only [closing, hany, if_neg hid, List.append_assoc]
    simp only [List.map_cons, eventBlocks, adaptBlocks, hblock, List.flatten_cons, callsDelivered]
    exact congrArg _ (ih htracks)

theorem events_other (hs : Faithful json) (s : TaskResultState) (f : CmplFinal) :
    ∀ e ∈ f.reasoningDone json s ++ f.messageDone json s, Steady json e .other := by
  intro e he
  rcases List.mem_append.mp he with he | he
  · rw [CmplFinal.reasoningDone] at he
    split at he
    · cases he
    · rw [List.mem_singleton.mp he]
      exact steady_item hs (responseOutput_none (decode_reasoningItem hs s f) (by simp +decide))
  · rw [CmplFinal.messageDone] at he
    split at he
    · cases he
    · simp only [List.mem_cons, List.not_mem_nil, or_false] at he
      rcases he with rfl | rfl | rfl
      · exact steady_other hs (by decide) (by decide) (by decide) (by simp +decide)
      · exact steady_other hs (by decide) (by decide) (by decide) (by simp +decide)
      · exact steady_item hs (responseOutput_none (decode_messageItem hs s f) (by simp +decide))

variable (json) in
/-- The frame of the completed event, rewritten. -/
def completedDelivered (s : TaskResultState) (f : CmplFinal) : Bytes :=
  ascii "event: response.completed\n" ++ dataLineOf (adaptCompleted (payload json (f.completed json s))) ++ [lf]

theorem classify_completedEvent (hs : Faithful json) (s : TaskResultState) (f : CmplFinal) :
    classify (payload json (f.completed json s)) = .other := by
  have htype : ∀ t ∈ eventType (payload json (f.completed json s)), t = responseCompleted := by
    refine eventType_of hs "response.completed" (extra_extras f.stats none) ?_
    intro m hm
    rw [List.mem_singleton.mp hm]
    exact (by decide : foldName "type".toList ≠ foldName "response".toList)
  exact classify_other htype (by decide)

variable (json) in
def finalDelivered (s : TaskResultState) (sent : Text → Text) (f : CmplFinal) : Bytes :=
  eventsBytes json (f.reasoningDone json s ++ f.messageDone json s) ++
    callsDelivered json sent [] f.msg.toolCalls ++ completedDelivered json s f

theorem adapt_final (hs : Faithful json) {a : ToolCalls} {sent : List (Text × Text)} (ha : Tracks a sent [])
    (s : TaskResultState) (f : CmplFinal) :
    (adaptBlocks a (eventBlocks json (f.toJsonOaicompatRespStream json s))).flatten =
      finalDelivered json s (argumentsOf sent) f := by
  have hothers : Sends (Reads json) (f.reasoningDone json s ++ f.messageDone json s) [] :=
    sends_others fun e he => (events_other hs s f e he).reads
  obtain ⟨hbytes, htracks⟩ := adapt_sends hs hothers ha
  rw [List.append_nil] at htracks
  have hcompleted : ∀ a, (adaptBlocks a (eventBlocks json [f.completed json s])).flatten =
      completedDelivered json s f := by
    intro a
    have hname : ascii "event: " ++ ascii (f.completed json s).name ++ [lf] = ascii "event: response.completed\n" :=
      (by decide : ascii "event: " ++ ascii "response.completed" ++ [lf] = ascii "event: response.completed\n")
    simp only [eventBlocks, List.map_cons, List.map_nil, adaptBlocks, adaptBlock_event hs,
      classify_completedEvent hs, step,
      hname, List.flatten_cons, List.flatten_nil, List.append_nil, completedDelivered]
  simp only [eventBlocks] at hbytes htracks hcompleted
  rw [CmplFinal.toJsonOaicompatRespStream, eventBlocks, List.map_append, List.map_append, adaptBlocks_append,
    adaptBlocks_append, List.flatten_append, List.flatten_append, hbytes, hcompleted, finalDelivered]
  exact congrArg (fun x => _ ++ x ++ _) (adapt_calls hs htracks f.msg.toolCalls)

/-! ## Whole streams -/

theorem adapt_comment (a : ToolCalls) :
    adaptBlock a (frameLines json .comment) = (Frame.comment.bytes json, a) := by
  rw [← frameLines_flatten]
  refine adaptBlock_of_no_data a fun x hx => ?_
  simp only [frameLines, List.mem_cons, List.not_mem_nil, or_false] at hx
  rcases hx with rfl | rfl
  · exact isDataLine_head (b := 0x3a) (by decide) _
  · exact isDataLine_head (b := lf) (by decide) _

/-- An error has no type, so the adapter leaves it alone. -/
theorem adapt_error (hs : Faithful json) (a : ToolCalls) (message : Json) :
    adaptBlock a (frameLines json (.data (object json [("error", message)]))) =
      ((Frame.data (object json [("error", message)])).bytes json, a) := by
  have hone := hs.oneLine (object json [("error", message)])
  obtain ⟨hline, hpayload⟩ := linePayload_dataLineOf hone
  have htype : ∀ t ∈ eventType (json.dump (object json [("error", message)])), t = [] := by
    intro t ht
    have hdec : Envelope.decode (object json [("error", message)]) = some {} := by
      rw [Envelope.decode, decodeStruct_object hs]
      exact foldlM_other (by simp +decide) _
    rw [eventType] at ht
    rcases unmarshal_dump hs Envelope.decode (object json [("error", message)]) with h | h
    · simp [h] at ht
    · rw [h, hdec] at ht
      exact (Option.some.inj ht).symm
  have hnone : ∀ x ∈ ([] : List Bytes), isDataLine x = false := by simp
  have hadapt := adaptBlock_eq a [[lf]] hnone hline (.inl (isLine_append (lf_not_mem_data hs _)))
  rw [hpayload, adaptedLine_dataLineOf hone, classify_other htype (by decide), kept_of_type htype (by decide)] at hadapt
  rw [← frameLines_flatten]
  exact hadapt.trans (by simp [step, frameLines])

/-- The differences of a stream, whichever results they came in. -/
def diffsOf : List Received → List MsgDiff
  | .partialResult r :: rest => r.msgDiffs ++ diffsOf rest
  | .ping :: rest => diffsOf rest
  | _ => []

variable (json) in
/-- The stream at the client: the frames of the server, but for the finished calls and
the completed event. -/
def delivered (sent : Text → Text) (s : TaskResultState) : List Received → Bytes
  | [] => []
  | .partialResult r :: rest =>
    eventsBytes json (r.toJsonOaicompatResp json s) ++ delivered sent (r.update s) rest
  | .ping :: rest => Frame.comment.bytes json ++ delivered sent s rest
  | .finalResult f :: _ => finalDelivered json s sent f
  | .error message :: _ => (Frame.data (object json [("error", message)])).bytes json

theorem sends_named {es : List LlamaServer.Event} {xs : List (Text × Text)} (h : Sends (Reads json) es xs) :
    ∀ e ∈ es, lf ∉ ascii e.name := by
  induction h with
  | nil => simp
  | other he _ ih => exact List.forall_mem_cons.mpr ⟨he.named, ih⟩
  | delta he _ ih => exact List.forall_mem_cons.mpr ⟨he.named, ih⟩

theorem frames_named (hs : Faithful json) (s : TaskResultState) (rs : List Received) :
    ∀ fr ∈ frames json s rs, Named fr := by
  induction rs generalizing s with
  | nil => simp [frames]
  | cons x rs ih =>
    cases x with
    | partialResult r =>
      intro fr hfr
      rcases List.mem_append.mp hfr with hfr | hfr
      · obtain ⟨e, he, rfl⟩ := List.mem_map.mp hfr
        exact sends_named (sends_cmpl hs s r) e he
      · exact ih _ fr hfr
    | ping => exact List.forall_mem_cons.mpr ⟨trivial, ih s⟩
    | error message => simp [frames, Named]
    | finalResult f =>
      intro fr hfr
      obtain ⟨e, he, rfl⟩ := List.mem_map.mp hfr
      rw [CmplFinal.toJsonOaicompatRespStream] at he
      rcases List.mem_append.mp he with he | he
      · rcases List.mem_append.mp he with he | he
        · exact (events_other hs s f e he).reads.named
        · obtain ⟨c, -, rfl⟩ := List.mem_map.mp he
          exact (steady_call hs c).reads.named
      · rw [List.mem_singleton.mp he]
        exact (by decide : lf ∉ ascii "response.completed")

theorem adapt_frames (hs : Faithful json) {a : ToolCalls} {sent : List (Text × Text)} (ha : Tracks a sent [])
    (s : TaskResultState) (rs : List Received) :
    (adaptBlocks a ((frames json s rs).map (frameLines json))).flatten =
      delivered json (argumentsOf (sent ++ sentBy s.respFcId (diffsOf rs))) s rs := by
  induction rs generalizing a sent s with
  | nil => rfl
  | cons x rs ih =>
    cases x with
    | partialResult r =>
      obtain ⟨hbytes, htracks⟩ := adapt_sends hs (sends_cmpl hs s r) ha
      have hrest := ih htracks (r.update s)
      rw [respFcId_update, List.append_assoc, ← sentBy_append] at hrest
      rw [frames, List.map_append, List.map_map, adaptBlocks_append, List.flatten_append]
      exact congr (congrArg _ hbytes) hrest
    | ping =>
      rw [frames, List.map_cons, adaptBlocks, adapt_comment, List.flatten_cons, ih ha]
      rfl
    | finalResult f =>
      have hnone : sentBy s.respFcId (diffsOf (.finalResult f :: rs)) = [] := rfl
      rw [frames, List.map_map, hnone, List.append_nil]
      exact adapt_final hs ha s f
    | error message =>
      rw [frames, List.map_cons, adaptBlocks, adapt_error hs]
      simp [adaptBlocks, delivered]

/-- The stream of any task, cut into results anywhere, comes to the client as it was sent,
but that each finished call is preceded by the event that closes its arguments and the
completed event is adapted. -/
theorem copyResponsesSSE_pinned (hs : Faithful json) (canFlush : Bool) (s : TaskResultState) (rs : List Received) :
    written (copyResponsesSSE canFlush ⟨(frames json s rs).flatMap (Frame.bytes json), .eof⟩).1 =
      delivered json (argumentsOf (sentBy s.respFcId (diffsOf rs))) s rs := by
  rw [written_copyResponsesSSE, blocks_frames hs (frames_named hs s rs)]
  exact adapt_frames hs tracks_nil s rs

def sampleState : TaskResultState where
  respId := "resp_0".toList
  respReasoningId := "rs_0".toList
  respMessageId := "msg_0".toList

def sampleToolCall : ToolCall := ⟨"f".toList, "[1]".toList, "0".toList⟩

/-- A call whose last character only the final result brings. -/
def sampleTask : List Received :=
  [.partialResult ⟨none, 1, [⟨[], [], ⟨"f".toList, "[1".toList, "0".toList⟩⟩], none⟩, .ping,
    .finalResult ⟨⟨[], [], [sampleToolCall]⟩, "m".toList, 0, 4, 2, 0, none⟩]

/-- A library that spells and writes as Go does. -/
def compactJson : JsonLibrary := ⟨quote, print⟩

theorem faithful_compactJson : Faithful compactJson := ⟨unquote_quote, parse_print, print_one_line⟩

theorem copyResponsesSSE_pinned_sampleTask :
    written (copyResponsesSSE true
          ⟨(frames compactJson sampleState sampleTask).flatMap (Frame.bytes compactJson), .eof⟩).1 =
        delivered compactJson (argumentsOf (sentBy [] (diffsOf sampleTask))) sampleState sampleTask ∧
      (argumentsDone sampleToolCall (argumentsOf (sentBy [] (diffsOf sampleTask)) "0".toList)).arguments =
        "[1".toList :=
  ⟨copyResponsesSSE_pinned faithful_compactJson true sampleState sampleTask, by decide⟩

end PinnedStream
