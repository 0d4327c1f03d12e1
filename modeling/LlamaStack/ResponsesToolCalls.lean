import LlamaStack.ResponsesHistory

/-!
# The life of a tool call

The client sees the arguments of a function call closed before the call itself
is finished. The invariant ties the state of each call to the whole past of the
client: a call is marked done exactly when a done event for it was received.
-/
namespace ResponsesToolCalls

open GoBytes GoJson GoMap GoStream OpenaiApi ResponsesSse ResponsesEvents ResponsesHistory

set_option maxRecDepth 4000

/-- The call whose arguments a payload closes. -/
def argumentsDoneFor (payload : Bytes) : Option Text :=
  match classify payload with
  | .argumentsDone e => some e.itemID
  | _ => none

/-- The function call that a payload finishes. -/
def itemDoneFor (payload : Bytes) : Option Text :=
  match classify payload with
  | .finished c => some c.itemID
  | _ => none

theorem stateOf_store (k k' : Text) (s : FunctionCallState) (a : ToolCalls) :
    stateOf (store k s a) k' = if k' = k then s else stateOf a k' := by
  unfold stateOf
  split
  · rename_i h
    rw [h, get_store_self, Option.getD_some]
  · rename_i h
    rw [get_store_ne h]

theorem depth_doneEvent (d : ResponseFunctionCallArgumentsDoneEvent) :
    depth d.marshal ≤ maxNestingDepth := by
  obtain ⟨arguments, itemId, name, outputIndex, sequenceNumber, type⟩ := d
  cases sequenceNumber <;>
    simp [ResponseFunctionCallArgumentsDoneEvent.marshal, encodeStruct, omitNil, encodeString,
      encodeInt, depth, depthMembers, maxNestingDepth]

theorem decode_doneEvent (d : ResponseFunctionCallArgumentsDoneEvent) :
    ResponsesAdapter.Envelope.decode d.marshal = some ⟨d.type⟩ ∧
      ArgumentsDoneEvent.decode d.marshal =
        some ⟨d.itemId, d.name, d.outputIndex, d.sequenceNumber, d.arguments⟩ := by
  obtain ⟨arguments, itemId, name, outputIndex, sequenceNumber, type⟩ := d
  cases sequenceNumber <;>
    simp +decide [ResponsesAdapter.Envelope.decode, ArgumentsDoneEvent.decode,
      ResponseFunctionCallArgumentsDoneEvent.marshal, setField_cons, omitNil]

/-- A written done event is read back as it was built. -/
theorem classify_doneEvent (d : ResponseFunctionCallArgumentsDoneEvent)
    (h : d.type = responseFunctionCallArgumentsDone) :
    classify (print d.marshal) =
      .argumentsDone ⟨d.itemId, d.name, d.outputIndex, d.sequenceNumber, d.arguments⟩ := by
  have hvalid := checkValid_print (depth_doneEvent d)
  obtain ⟨htype, hdec⟩ := decode_doneEvent d
  have het : eventType (print d.marshal) = some responseFunctionCallArgumentsDone := by
    simp only [eventType, unmarshal, hvalid, Option.bind_some, htype, Option.map_some, h]
  have hne : responseFunctionCallArgumentsDone ≠ argumentsDeltaType := by decide
  simp only [classify, het, if_neg hne, if_true, unmarshal, hvalid, Option.bind_some, hdec,
    Option.map_some, Option.getD_some]

/-! ## The invariant -/

/-- A call is marked done exactly when the client has received a done event for it. -/
def Tracks (a : ToolCalls) (past : List Emitted) : Prop :=
  ∀ k, k ≠ [] → ((stateOf a k).argumentsDone = true ↔
    ∃ e ∈ past, argumentsDoneFor e.payload = some k)

/-- What holds of an emitted event and the events before it. -/
structure LawfulAt (past : List Emitted) (e : Emitted) : Prop where
  closed : ∀ k, itemDoneFor e.payload = some k →
    ∃ d ∈ past, argumentsDoneFor d.payload = some k
  once : ∀ d, e = .synthesized d → ∀ x ∈ past, argumentsDoneFor x.payload ≠ some d.itemId
  typed : ∀ d, e = .synthesized d → argumentsDoneFor (print d.marshal) = some d.itemId

def Lawful (past : List Emitted) : List Emitted → Prop
  | [] => True
  | e :: es => LawfulAt past e ∧ Lawful (past ++ [e]) es

theorem lawful_append {past es fs : List Emitted} (h : Lawful past es)
    (h' : Lawful (past ++ es) fs) : Lawful past (es ++ fs) := by
  induction es generalizing past with
  | nil => simpa using h'
  | cons e es ih => exact ⟨h.1, ih h.2 (by simpa using h')⟩

theorem lawfulAt_of_lawful {past hist : List Emitted} (h : Lawful past hist) :
    ∀ before e after, hist = before ++ e :: after → LawfulAt (past ++ before) e := by
  intro before
  induction before generalizing past hist with
  | nil =>
    rintro e after rfl
    simpa using h.1
  | cons x before ih =>
    rintro e after rfl
    simpa using ih h.2 e after rfl

theorem tracks_nil : Tracks [] [] := by
  intro k _
  simp [stateOf]

theorem argumentsDoneFor_forwarded {payload : Bytes} :
    argumentsDoneFor (Emitted.forwarded (adaptCompleted payload)).payload =
      argumentsDoneFor payload := by
  simp only [argumentsDoneFor, Emitted.payload, classify_adaptCompleted]

theorem itemDoneFor_forwarded {payload : Bytes} :
    itemDoneFor (Emitted.forwarded (adaptCompleted payload)).payload = itemDoneFor payload := by
  simp only [itemDoneFor, Emitted.payload, classify_adaptCompleted]

/-- An event that closes nothing leaves the invariant, if the calls marked done
stay the same. -/
theorem tracks_snoc {a a' : ToolCalls} {past : List Emitted} {e : Emitted} (h : Tracks a past)
    (he : ∀ k, k ≠ [] → argumentsDoneFor e.payload ≠ some k)
    (hs : ∀ k, (stateOf a' k).argumentsDone = (stateOf a k).argumentsDone) :
    Tracks a' (past ++ [e]) := by
  intro k hk
  rw [hs, h k hk]
  have := he k hk
  simp only [List.mem_append, List.mem_singleton]
  constructor
  · rintro ⟨x, hx, hd⟩
    exact ⟨x, .inl hx, hd⟩
  · rintro ⟨x, hx | rfl, hd⟩
    · exact ⟨x, hx, hd⟩
    · exact absurd hd this

/-- An event that closes call `k` extends the invariant, if `k` becomes marked. -/
theorem tracks_close {a a' : ToolCalls} {past : List Emitted} {e : Emitted} {k : Text}
    (h : Tracks a past) (he : argumentsDoneFor e.payload = some k)
    (hs : ∀ k', (stateOf a' k').argumentsDone = if k' = k then true else (stateOf a k').argumentsDone) :
    Tracks a' (past ++ [e]) := by
  intro k' hk'
  simp only [List.mem_append, List.mem_singleton]
  rw [hs]
  by_cases hkk : k' = k
  · subst hkk
    rw [if_pos rfl]
    exact iff_of_true rfl ⟨e, .inr rfl, he⟩
  · rw [if_neg hkk, h k' hk']
    constructor
    · rintro ⟨x, hx, hd⟩
      exact ⟨x, .inl hx, hd⟩
    · rintro ⟨x, hx | rfl, hd⟩
      · exact ⟨x, hx, hd⟩
      · rw [he, Option.some.injEq] at hd
        exact absurd hd.symm hkk

/-- A forwarded event is lawful when it finishes no call, or one that is closed. -/
theorem lawfulAt_forwarded {past : List Emitted} {payload : Bytes}
    (h : ∀ k, itemDoneFor payload = some k → ∃ d ∈ past, argumentsDoneFor d.payload = some k) :
    LawfulAt past (.forwarded (adaptCompleted payload)) :=
  ⟨fun k hk => h k (itemDoneFor_forwarded ▸ hk), by simp, by simp⟩

/-- Step lemma: one data line keeps the invariant, and what it emits is lawful. -/
theorem emit_tracks {a : ToolCalls} {past : List Emitted} {d : DataLine} (h : Tracks a past)
    (hv : d.visible = true) :
    Tracks (emit a d).2 (past ++ (emit a d).1) ∧ Lawful past (emit a d).1 := by
  simp only [emit, hv, if_true]
  have hf : argumentsDoneFor (Emitted.forwarded (adaptCompleted d.value)).payload =
      argumentsDoneFor d.value := argumentsDoneFor_forwarded
  have hi : ∀ {e}, classify d.value = e → (∀ c, e ≠ .finished c) →
      LawfulAt past (.forwarded (adaptCompleted d.value)) := by
    intro e he hne
    refine lawfulAt_forwarded fun k hk => ?_
    rw [itemDoneFor, he] at hk
    cases e with
    | finished c => exact absurd rfl (hne c)
    | _ => cases hk
  cases hc : classify d.value with
  | other =>
    simp only [step, List.nil_append]
    refine ⟨tracks_snoc h (fun k _ => ?_) fun _ => rfl, hi hc (by simp), trivial⟩
    rw [hf, argumentsDoneFor, hc]
    simp
  | argumentsDelta e =>
    have hn : ∀ k, k ≠ [] → argumentsDoneFor
        (Emitted.forwarded (adaptCompleted d.value)).payload ≠ some k := by
      intro k _
      rw [hf, argumentsDoneFor, hc]
      simp
    simp only [step]
    split
    · exact ⟨tracks_snoc h hn fun _ => rfl, hi hc (by simp), trivial⟩
    · refine ⟨tracks_snoc h hn fun k => ?_, hi hc (by simp), trivial⟩
      rw [stateOf_store]
      split
      · rename_i hk
        rw [hk]
      · rfl
  | argumentsDone e =>
    have hd : argumentsDoneFor (Emitted.forwarded (adaptCompleted d.value)).payload =
        some e.itemID := by
      rw [hf, argumentsDoneFor, hc]
    simp only [step]
    split
    · rename_i he
      refine ⟨tracks_snoc h (fun k hk => ?_) fun _ => rfl, hi hc (by simp), trivial⟩
      rw [hd, he]
      exact fun hk' => hk (Option.some.inj hk').symm
    · refine ⟨tracks_close h hd fun k => ?_, hi hc (by simp), trivial⟩
      rw [stateOf_store]
      split <;> rfl
  | finished c =>
    have hn : ∀ k, k ≠ [] → argumentsDoneFor
        (Emitted.forwarded (adaptCompleted d.value)).payload ≠ some k := by
      intro k _
      rw [hf, argumentsDoneFor, hc]
      simp
    have hk : itemDoneFor d.value = some c.itemID := by rw [itemDoneFor, hc]
    simp only [step]
    split
    · rename_i hdone
      refine ⟨tracks_snoc h hn fun _ => rfl, lawfulAt_forwarded fun k hk' => ?_, trivial⟩
      rw [hk, Option.some.injEq] at hk'
      exact hk' ▸ (h c.itemID c.itemID_ne).mp hdone
    · rename_i hopen
      have hdone : argumentsDoneFor
          (Emitted.synthesized (c.close (stateOf a c.itemID)).doneEvent).payload = some c.itemID := by
        rw [argumentsDoneFor, Emitted.payload, classify_doneEvent _ rfl]
        rfl
      have hclose : Tracks (store c.itemID (c.close (stateOf a c.itemID)) a)
          (past ++ [.synthesized (c.close (stateOf a c.itemID)).doneEvent]) := by
        apply tracks_close h hdone
        intro k
        rw [stateOf_store]
        split <;> rfl
      have hlaw : LawfulAt past (.synthesized (c.close (stateOf a c.itemID)).doneEvent) := by
        refine ⟨fun k hk' => ?_, fun x hx y hy hxy => ?_, fun x hx => ?_⟩
        · rw [itemDoneFor, Emitted.payload, classify_doneEvent _ rfl] at hk'
          cases hk'
        · cases hx
          exact hopen ((h c.itemID c.itemID_ne).mpr ⟨y, hy, hxy⟩)
        · cases hx
          exact hdone
      have hfwd : LawfulAt (past ++ [.synthesized (c.close (stateOf a c.itemID)).doneEvent])
          (.forwarded (adaptCompleted d.value)) := by
        refine lawfulAt_forwarded fun k hk' => ?_
        rw [hk, Option.some.injEq] at hk'
        subst hk'
        exact ⟨_, by simp, hdone⟩
      have htracks := tracks_snoc hclose hn fun _ => rfl
      rw [List.append_assoc] at htracks
      exact ⟨htracks, hlaw, hfwd, trivial⟩

/-- Run lemma: what a stream of visible data lines emits is lawful. -/
theorem history_lawful {a : ToolCalls} {past : List Emitted} {ds : List DataLine}
    (h : Tracks a past) (hv : ∀ d ∈ ds, d.visible = true) : Lawful past (history a ds) := by
  induction ds generalizing a past with
  | nil => trivial
  | cons d ds ih =>
    obtain ⟨ht, hl⟩ := emit_tracks h (hv d (by simp))
    exact lawful_append hl (ih ht fun e he => hv e (by simp [he]))

/-- The payloads of the forwarded events. -/
def forwardedPayloads (es : List Emitted) : List Bytes :=
  es.filterMap fun e => match e with
    | .forwarded payload => some payload
    | .synthesized _ => none

/-- Everything upstream sends is forwarded, once and in order. -/
theorem forwardedPayloads_history (a : ToolCalls) {ds : List DataLine}
    (hv : ∀ d ∈ ds, d.visible = true) :
    forwardedPayloads (history a ds) = ds.map fun d => adaptCompleted d.value := by
  induction ds generalizing a with
  | nil => rfl
  | cons d ds ih =>
    have hd := hv d (by simp)
    have h₁ : forwardedPayloads (emit a d).1 = [adaptCompleted d.value] := by
      simp only [emit, hd, if_true]
      cases (step a (classify d.value)).2 <;> rfl
    have h₂ := ih (emit a d).2 fun e he => hv e (by simp [he])
    simp only [forwardedPayloads] at h₁ h₂ ⊢
    simp [history, h₁, h₂]

def isSynthesizedFor (k : Text) : Emitted → Bool
  | .synthesized d => d.itemId = k
  | .forwarded _ => false

/-- The done events that the adapter made for a call. -/
def synthesizedFor (k : Text) (es : List Emitted) : List Emitted := es.filter (isSynthesizedFor k)

/-- At most one, and none for a call that is closed already. -/
theorem synthesizedFor_length {past hist : List Emitted} (k : Text) (h : Lawful past hist) :
    (synthesizedFor k hist).length ≤ 1 ∧
      ((∃ x ∈ past, argumentsDoneFor x.payload = some k) → synthesizedFor k hist = []) := by
  induction hist generalizing past with
  | nil => simp [synthesizedFor]
  | cons e hist ih =>
    obtain ⟨h₁, h₂⟩ := ih h.2
    have hlaw := h.1
    have hmono : (∃ x ∈ past, argumentsDoneFor x.payload = some k) →
        synthesizedFor k hist = [] := by
      rintro ⟨x, hx, hd⟩
      exact h₂ ⟨x, List.mem_append_left _ hx, hd⟩
    by_cases he : isSynthesizedFor k e = true
    · cases e with
      | forwarded payload => cases he
      | synthesized d =>
        have hk : d.itemId = k := by simpa [isSynthesizedFor] using he
        subst hk
        have hnil := h₂ ⟨.synthesized d, by simp, hlaw.typed d rfl⟩
        have hcons : synthesizedFor d.itemId (.synthesized d :: hist) = [.synthesized d] := by
          rw [synthesizedFor, List.filter_cons_of_pos he, ← synthesizedFor, hnil]
        refine ⟨by simp [hcons], ?_⟩
        rintro ⟨x, hx, hd⟩
        exact absurd hd (hlaw.once d rfl x hx)
    · have hcons : synthesizedFor k (e :: hist) = synthesizedFor k hist :=
        List.filter_cons_of_neg he
      rw [hcons]
      exact ⟨h₁, hmono⟩

/-! ## The life of a tool call -/

instance (block : List Bytes) : Decidable (SingleData block) := inferInstanceAs (Decidable (_ ≤ _))

/-- The events that the client receives are the upstream events and what the
adapter adds; a finished call was closed before, by one event at most that the
adapter made, and by none of its own once upstream had closed the call. -/
theorem copyResponsesSSE_toolCalls (canFlush : Bool) (src : Source)
    (hone : ∀ b ∈ blocks src, SingleData b) (hv : ∀ d ∈ received src, d.visible = true) :
    let hist := history [] (received src)
    (dataLines (written (copyResponsesSSE canFlush src).1)).map DataLine.value = payloads hist ∧
      forwardedPayloads hist = (received src).map (fun d => adaptCompleted d.value) ∧
      (∀ before e after k, hist = before ++ e :: after → itemDoneFor e.payload = some k →
        ∃ d ∈ before, argumentsDoneFor d.payload = some k) ∧
      (∀ k, (synthesizedFor k hist).length ≤ 1) ∧
      ∀ before d after, hist = before ++ .synthesized d :: after →
        argumentsDoneFor (print d.marshal) = some d.itemId ∧
          ∀ payload, .forwarded payload ∈ before → argumentsDoneFor payload ≠ some d.itemId := by
  have hlaw := history_lawful tracks_nil hv
  refine ⟨dataLines_written canFlush src hone, forwardedPayloads_history [] hv,
    fun before e after k he => (lawfulAt_of_lawful hlaw before e after he).closed k,
    fun k => (synthesizedFor_length k hlaw).1, fun before d after he => ?_⟩
  have hat := lawfulAt_of_lawful hlaw before _ after he
  exact ⟨hat.typed d rfl, fun payload hp => hat.once d rfl (.forwarded payload) hp⟩

def callPayload : Bytes :=
  ascii "\x7b\"type\":\"response.output_item.done\",\"item\":\x7b\"type\":\"function_call\",\"id\":\"fc\",\"name\":\"f\",\"arguments\":\"1\"\x7d\x7d"

/-- A stream with one function call that upstream finishes without a done event. -/
def sampleCall : Source := ⟨dataField ++ callPayload ++ [lf, lf], .eof⟩

theorem copyResponsesSSE_toolCalls_sampleCall :
    (history [] (received sampleCall)).length = 2 ∧
      ∀ k, (synthesizedFor k (history [] (received sampleCall))).length ≤ 1 :=
  ⟨by decide +kernel,
    (copyResponsesSSE_toolCalls true sampleCall (by decide +kernel) (by decide +kernel)).2.2.2.1⟩

end ResponsesToolCalls
