import LlamaStack.ResponsesSse

/-!
# The adapter as a machine over events

What the adapter is for, without bytes: it watches the argument events of every
function call and, when a call finishes that had no arguments done event, emits
one. `adaptPayload` computes this machine.
-/
namespace ResponsesEvents

open GoBytes GoJson GoMap GoStream OpenaiApi ResponsesAdapter ResponsesSse

set_option maxRecDepth 4000

inductive Event where
  | argumentsDelta (e : ArgumentsDeltaEvent)
  | argumentsDone (e : ArgumentsDoneEvent)
  | finished (c : FinishedCall)
  | other

def eventType (payload : Bytes) : Option Text := (unmarshal Envelope.decode payload).map fun e => e.type

/-- The event of a payload, as far as it concerns the adapter. -/
def classify (payload : Bytes) : Event :=
  match eventType payload with
  | none => .other
  | some type =>
    if type = argumentsDeltaType then
      ((unmarshal ArgumentsDeltaEvent.decode payload).map .argumentsDelta).getD .other
    else if type = responseFunctionCallArgumentsDone then
      ((unmarshal ArgumentsDoneEvent.decode payload).map .argumentsDone).getD .other
    else if type = outputItemDoneType then ((finishedCall payload).map .finished).getD .other
    else .other

theorem classify_itemDone {payload : Bytes} (h : eventType payload = some outputItemDoneType) :
    classify payload = ((finishedCall payload).map .finished).getD .other := by
  have h₁ : outputItemDoneType ≠ argumentsDeltaType := by decide
  have h₂ : outputItemDoneType ≠ responseFunctionCallArgumentsDone := by decide
  simp only [classify, h, if_neg h₁, if_neg h₂, if_true]

theorem finishedCall_of_classify {payload : Bytes} {c : FinishedCall}
    (h : classify payload = .finished c) : finishedCall payload = some c := by
  unfold classify at h
  split at h
  · cases h
  · split at h
    · cases hd : unmarshal ArgumentsDeltaEvent.decode payload <;> rw [hd] at h <;> cases h
    · split at h
      · cases hd : unmarshal ArgumentsDoneEvent.decode payload <;> rw [hd] at h <;> cases h
      · split at h
        · cases hf : finishedCall payload with
          | none =>
            rw [hf] at h
            cases h
          | some c' =>
            rw [hf] at h
            cases h
            rfl
        · cases h

/-- One event: the calls after it, and the event to emit before it. -/
def step (a : ToolCalls) : Event → ToolCalls × Option ResponseFunctionCallArgumentsDoneEvent
  | .argumentsDelta e =>
    if e.itemID = [] then (a, none)
    else
      (store e.itemID
        { stateOf a e.itemID with
          itemID := e.itemID
          outputIndex := e.outputIndex
          sequence := e.sequence
          arguments := (stateOf a e.itemID).arguments ++ e.delta } a, none)
  | .argumentsDone e =>
    if e.itemID = [] then (a, none)
    else
      (store e.itemID ⟨e.itemID, e.name, e.arguments, e.outputIndex, e.sequence, true⟩ a, none)
  | .finished c =>
    if (stateOf a c.itemID).argumentsDone then (a, none)
    else
      (store c.itemID (c.close (stateOf a c.itemID)) a,
        some (c.close (stateOf a c.itemID)).doneEvent)
  | .other => (a, none)

/-! ## The payloads of the machine -/

theorem eventType_marshal (e : ResponseCompletedEvent) (h : e.type = responseCompleted) :
    ∀ t ∈ eventType (print e.marshal), t = responseCompleted := by
  intro t ht
  simp only [eventType, unmarshal, checkValid, parse_print, Option.mem_def] at ht
  split at ht
  · have hd : Envelope.decode e.marshal = some ⟨responseCompleted⟩ := by
      simp only [Envelope.decode, ResponseCompletedEvent.marshal, decodeStruct_encodeStruct, h]
      rfl
    simpa [hd] using ht.symm
  · simp at ht

theorem classify_completed {payload : Bytes} (h : ∀ t ∈ eventType payload, t = responseCompleted) :
    classify payload = .other := by
  unfold classify
  cases ht : eventType payload with
  | none => rfl
  | some t =>
    rw [h t ht]
    rfl

theorem adaptResponsesSSEPayload_type {payload out : Bytes}
    (h : adaptResponsesSSEPayload payload = some out) :
    eventType payload = some responseCompleted ∧ ∀ t ∈ eventType out, t = responseCompleted := by
  unfold adaptResponsesSSEPayload at h
  split at h
  · cases h
  · rename_i envelope he
    split at h
    · cases h
    · rename_i ht
      split at h
      · cases h
      · cases h
        exact ⟨by simp [eventType, he, not_not.mp ht], eventType_marshal _ rfl⟩

/-- Rewriting completed events changes nothing that the machine looks at. -/
theorem classify_adaptCompleted (payload : Bytes) :
    classify (adaptCompleted payload) = classify payload := by
  unfold adaptCompleted
  cases h : adaptResponsesSSEPayload payload with
  | none => rfl
  | some out =>
    obtain ⟨h₁, h₂⟩ := adaptResponsesSSEPayload_type h
    rw [Option.getD_some, classify_completed h₂, classify_completed]
    intro t ht
    rw [h₁, Option.mem_def, Option.some.injEq] at ht
    exact ht.symm

/-- A payload that means something to the machine is never rewritten. -/
theorem adaptCompleted_of_classify {payload : Bytes} (h : classify payload ≠ .other) :
    adaptCompleted payload = payload := by
  unfold adaptCompleted
  cases ha : adaptResponsesSSEPayload payload with
  | none => rfl
  | some out =>
    refine absurd (classify_completed fun t ht => ?_) h
    rw [(adaptResponsesSSEPayload_type ha).1, Option.mem_def, Option.some.injEq] at ht
    exact ht.symm

theorem observeArgumentsDelta_eq (a : ToolCalls) (payload : Bytes) :
    (observeArgumentsDelta a payload, none) =
      step a (((unmarshal ArgumentsDeltaEvent.decode payload).map .argumentsDelta).getD .other) := by
  unfold observeArgumentsDelta
  cases unmarshal ArgumentsDeltaEvent.decode payload with
  | none => rfl
  | some e =>
    simp only [Option.map_some, Option.getD_some, step]
    split <;> rfl

theorem observeArgumentsDone_eq (a : ToolCalls) (payload : Bytes) :
    (observeArgumentsDone a payload, none) =
      step a (((unmarshal ArgumentsDoneEvent.decode payload).map .argumentsDone).getD .other) := by
  unfold observeArgumentsDone
  cases unmarshal ArgumentsDoneEvent.decode payload with
  | none => rfl
  | some e =>
    simp only [Option.map_some, Option.getD_some, step]
    split <;> rfl

/-- What a step of the machine makes of a payload. -/
def respond (payload : Bytes) (r : ToolCalls × Option ResponseFunctionCallArgumentsDoneEvent) :
    (Bytes × Bytes) × ToolCalls :=
  match r.2 with
  | none => ((payload, []), r.1)
  | some d => ((print d.marshal ++ itemDoneFrame ++ payload, argumentsDoneName), r.1)

theorem injectArgumentsDoneIfNeeded_eq (a : ToolCalls) (payload : Bytes) :
    injectArgumentsDoneIfNeeded a payload =
      respond payload (step a (((finishedCall payload).map .finished).getD .other)) := by
  unfold injectArgumentsDoneIfNeeded
  cases finishedCall payload with
  | none => rfl
  | some c =>
    simp only [Option.map_some, Option.getD_some, step]
    split <;> rfl

/-- `adaptPayload` computes the machine. -/
theorem adaptPayload_eq (a : ToolCalls) (payload : Bytes) :
    adaptPayload a payload = respond (adaptCompleted payload) (step a (classify payload)) := by
  rw [← classify_adaptCompleted]
  simp only [adaptPayload, classify, eventType]
  cases unmarshal Envelope.decode (adaptCompleted payload) with
  | none => rfl
  | some envelope =>
    simp only [Option.map_some]
    split
    · rw [← observeArgumentsDelta_eq]
      rfl
    · split
      · rw [← observeArgumentsDone_eq]
        rfl
      · split
        · exact injectArgumentsDoneIfNeeded_eq a _
        · rfl

/-! ## Emitted events -/

/-- An event that the client receives: one that the adapter made, or the
payload of an upstream event. -/
inductive Emitted where
  | synthesized (d : ResponseFunctionCallArgumentsDoneEvent)
  | forwarded (payload : Bytes)

def Emitted.payload : Emitted → Bytes
  | .synthesized d => print d.marshal
  | .forwarded payload => payload

/-- A data line of the stream: what stands behind the colon and one space, and
whether the space is there, without which the adapter does not see the line. -/
structure DataLine where
  visible : Bool
  value : Bytes
  deriving DecidableEq

/-- The data field of a line. -/
def dataLine (line : Bytes) : Option DataLine :=
  let trimmed := trimLineEnd line
  if hasPrefix trimmed dataField then some ⟨true, trimPrefix trimmed dataField⟩
  else if hasPrefix trimmed (ascii "data:") then some ⟨false, trimPrefix trimmed (ascii "data:")⟩
  else if trimmed = ascii "data" then some ⟨false, []⟩
  else none

/-- The data lines of a text. -/
def dataLines (s : Bytes) : List DataLine := (splitLines s).filterMap dataLine

/-- What the adapter emits for one data line. -/
def emit (a : ToolCalls) (d : DataLine) : List Emitted × ToolCalls :=
  if d.visible then
    let r := step a (classify d.value)
    ((match r.2 with | some done => [.synthesized done] | none => []) ++
      [.forwarded (adaptCompleted d.value)], r.1)
  else ([.forwarded d.value], a)

/-- What the client receives for a stream of data lines. -/
def history (a : ToolCalls) : List DataLine → List Emitted
  | [] => []
  | d :: ds => (emit a d).1 ++ history (emit a d).2 ds

/-- The calls after some data lines. -/
def afterData (a : ToolCalls) (ds : List DataLine) : ToolCalls := ds.foldl (fun a d => (emit a d).2) a

theorem history_append (a : ToolCalls) (ds es : List DataLine) :
    history a (ds ++ es) = history a ds ++ history (afterData a ds) es := by
  induction ds generalizing a with
  | nil => rfl
  | cons d ds ih => simp [history, afterData, ih]

/-- Where a synthesized event stands: the machine made it from the state before
some data line, and the event of that line comes next. -/
theorem history_synthesized {a : ToolCalls} {ds : List DataLine} {before after : List Emitted}
    {d : ResponseFunctionCallArgumentsDoneEvent}
    (h : history a ds = before ++ .synthesized d :: after) :
    ∃ pre x post, ds = pre ++ x :: post ∧ x.visible = true ∧ before = history a pre ∧
      (step (afterData a pre) (classify x.value)).2 = some d ∧
      after = .forwarded (adaptCompleted x.value) :: history (emit (afterData a pre) x).2 post := by
  induction ds generalizing a before with
  | nil => simp [history] at h
  | cons x ds ih =>
    by_cases hv : x.visible = true
    · cases hs : (step a (classify x.value)).2 with
      | none =>
        have he : (emit a x).1 = [.forwarded (adaptCompleted x.value)] := by simp [emit, hv, hs]
        rw [history, he] at h
        cases before with
        | nil => cases h
        | cons b before =>
          simp only [List.cons_append, List.nil_append, List.cons.injEq] at h
          obtain ⟨pre, y, post, rfl, hy, hb, hstep, ha⟩ := ih h.2
          refine ⟨x :: pre, y, post, rfl, hy, ?_, hstep, ha⟩
          rw [history, he, ← h.1, ← hb]
          rfl
      | some d' =>
        have he : (emit a x).1 = [.synthesized d', .forwarded (adaptCompleted x.value)] := by
          simp [emit, hv, hs]
        rw [history, he] at h
        rcases before with _ | ⟨b, _ | ⟨c, before⟩⟩
        · simp only [List.cons_append, List.nil_append, List.cons.injEq, Emitted.synthesized.injEq] at h
          exact ⟨[], x, ds, rfl, hv, rfl, h.1 ▸ hs, h.2.symm⟩
        · simp at h
        · simp only [List.cons_append, List.nil_append, List.cons.injEq] at h
          obtain ⟨pre, y, post, rfl, hy, hb, hstep, ha⟩ := ih h.2.2
          refine ⟨x :: pre, y, post, rfl, hy, ?_, hstep, ha⟩
          rw [history, he, ← h.1, ← h.2.1, ← hb]
          rfl
    · have he : emit a x = ([.forwarded x.value], a) := by simp [emit, hv]
      rw [history, he] at h
      cases before with
      | nil => cases h
      | cons b before =>
        simp only [List.cons_append, List.nil_append, List.cons.injEq] at h
        obtain ⟨pre, y, post, rfl, hy, hb, hstep, ha⟩ := ih h.2
        have hafter : afterData a (x :: pre) = afterData a pre := by simp [afterData, he]
        refine ⟨x :: pre, y, post, rfl, hy, ?_, by rw [hafter]; exact hstep, by rw [hafter]; exact ha⟩
        rw [history, he, ← h.1, ← hb]
        rfl

end ResponsesEvents
