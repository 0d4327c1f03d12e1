import LlamaStack.ResponsesToolCalls

/-!
# Sequence numbers

A synthesized event takes the number of the event behind it, and a rewritten
completed event keeps its own. Numbers that increase upstream therefore never
decrease at the client, and repeat at synthesized events only.
-/
namespace ResponsesSequence

open GoBytes GoJson GoMap GoStream OpenaiApi ResponsesAdapter ResponsesSse ResponsesEvents
  ResponsesHistory ResponsesFraming ResponsesToolCalls

set_option maxRecDepth 4000

/-! ## Reading the number -/

def decodeInteger : Json → Int → Option Int
  | .num n, _ => integerOf n
  | .null, cur => some cur
  | _, _ => none

/-- An event as far as its number is concerned; integers are not bounded here. -/
structure Numbered where
  sequence : Option Int := none

def sequenceName : Text := "sequence_number".toList

def numberedFields : List (StructField Numbered) :=
  [⟨sequenceName, fun v a =>
    (decodePtr decodeInteger 0 v a.sequence).map fun x => { a with sequence := x }⟩]

def sequenceOf (j : Json) : Option Int := (decodeStruct numberedFields j {}).bind fun a => a.sequence

/-- The integer `sequence_number` of a payload. -/
def sequenceNumber (payload : Bytes) : Option Int := (parse payload).bind sequenceOf

def isJson (payload : Bytes) : Bool := (parse payload).isSome

theorem isJson_of_sequenceNumber {payload : Bytes} {n : Int} (h : sequenceNumber payload = some n) :
    isJson payload = true := by
  obtain ⟨j, hj, -⟩ := Option.bind_eq_some_iff.mp h
  simp [isJson, hj]

theorem decodePtr_integer {v : Json} {cur x : Option Int64}
    (h : decodePtr decodeInt 0 v cur = some x) :
    decodePtr decodeInteger 0 v (cur.map Int64.toInt) = some (x.map Int64.toInt) := by
  cases v with
  | null =>
    cases h
    rfl
  | num n =>
    obtain ⟨i, hi, rfl⟩ := Option.map_eq_some_iff.mp h
    simp [decodePtr, decodeInteger, integerOf_of_parseInt hi]
  | _ => cases h

theorem setField_number {v : Json} {cur x : Option Int64} (h : decodePtr decodeInt 0 v cur = some x) :
    setField numberedFields sequenceName v ⟨cur.map Int64.toInt⟩ =
      some ⟨x.map Int64.toInt⟩ := by
  simp [numberedFields, setField_cons, decodePtr_integer h]

/-- A struct with an `int` field for the number holds the number of the payload. -/
theorem sequenceOf_decode {σ : Type} (fields : List (StructField σ)) (number : σ → Option Int64)
    {start e : σ} (hstart : number start = none)
    (hname : foldName sequenceName ∈ fields.map fun g => foldName g.name)
    (hset : ∀ g ∈ fields, ∀ v s s', g.set v s = some s' →
      setField numberedFields g.name v ⟨(number s).map Int64.toInt⟩ =
        some ⟨(number s').map Int64.toInt⟩)
    {j : Json} (h : decodeStruct fields j start = some e) :
    sequenceOf j = (number e).map Int64.toInt := by
  have hp := decodeStruct_project numberedFields fields
    (fun s => Numbered.mk ((number s).map Int64.toInt))
    (by simpa [numberedFields] using List.mem_map.mp hname) hset h
  rw [hstart] at hp
  simp only [sequenceOf, Option.map_none] at hp ⊢
  rw [hp]
  rfl

/-- A field of another name leaves the number. -/
theorem setField_other {name : Text} (h : foldName sequenceName ≠ foldName name)
    (v : Json) (a : Numbered) : setField numberedFields name v a = some a := by
  rw [numberedFields, setField_cons, if_neg h, setField_nil]

theorem sequenceOf_completed {j : Json} {e : LlamacppApi.ResponseCompletedEvent}
    (h : LlamacppApi.ResponseCompletedEvent.decode j = some e) :
    sequenceOf j = e.sequenceNumber.map Int64.toInt := by
  refine sequenceOf_decode _ (fun s : LlamacppApi.ResponseCompletedEvent => s.sequenceNumber)
    rfl (by decide) (fun g hg v s s' hs => ?_) h
  simp only [List.mem_cons, List.not_mem_nil, or_false] at hg
  rcases hg with rfl | rfl | rfl <;> obtain ⟨x, hx, rfl⟩ := Option.map_eq_some_iff.mp hs
  · exact setField_other (by decide) v _
  · exact setField_number hx
  · exact setField_other (by decide) v _

theorem sequenceOf_itemDone {j : Json} {e : ResponseOutputItemDoneEvent}
    (h : ResponseOutputItemDoneEvent.decode j = some e) :
    sequenceOf j = e.sequenceNumber.map Int64.toInt := by
  refine sequenceOf_decode _ (fun s : ResponseOutputItemDoneEvent => s.sequenceNumber)
    rfl (by decide) (fun g hg v s s' hs => ?_) h
  simp only [List.mem_cons, List.not_mem_nil, or_false] at hg
  rcases hg with rfl | rfl | rfl | rfl
  · cases hs
    exact setField_other (by decide) v _
  all_goals obtain ⟨x, hx, rfl⟩ := Option.map_eq_some_iff.mp hs
  · exact setField_other (by decide) v _
  · exact setField_number hx
  · exact setField_other (by decide) v _

theorem setField_encodeInt (i : Int64) (a : Numbered) :
    setField numberedFields "sequence_number".toList (encodeInt i) a = some ⟨some i.toInt⟩ := by
  have h : setField numberedFields sequenceName (encodeInt i) a = some ⟨some i.toInt⟩ := by
    simp [numberedFields, setField_cons, decodePtr, decodeInteger, encodeInt, integerOf_formatInt]
  exact h

theorem sequenceOf_argumentsDone (d : ResponseFunctionCallArgumentsDoneEvent) :
    sequenceOf d.marshal = d.sequenceNumber.map Int64.toInt := by
  have hd : decodeStruct numberedFields d.marshal {} = some ⟨d.sequenceNumber.map Int64.toInt⟩ := by
    obtain ⟨arguments, itemId, name, outputIndex, sequenceNumber, type⟩ := d
    rw [ResponseFunctionCallArgumentsDoneEvent.marshal, decodeStruct_encodeStruct]
    cases sequenceNumber with
    | none =>
      simp only [omitNil, List.cons_append, List.nil_append, List.foldlM_cons, List.foldlM_nil,
        Option.bind_eq_bind]
      rw [setField_other (by decide), Option.bind_some,
        setField_other (by decide), Option.bind_some,
        setField_other (by decide), Option.bind_some,
        setField_other (by decide), Option.bind_some,
        setField_other (by decide)]
      rfl
    | some i =>
      simp only [omitNil, List.cons_append, List.nil_append, List.foldlM_cons, List.foldlM_nil,
        Option.bind_eq_bind]
      rw [setField_other (by decide), Option.bind_some,
        setField_other (by decide), Option.bind_some,
        setField_other (by decide), Option.bind_some,
        setField_other (by decide), Option.bind_some,
        setField_encodeInt, Option.bind_some, setField_other (by decide)]
      rfl
  rw [sequenceOf, hd]
  rfl

theorem sequenceOf_completedEvent (e : ResponseCompletedEvent) :
    sequenceOf e.marshal = some e.sequenceNumber.toInt := by
  have hd : decodeStruct numberedFields e.marshal {} = some ⟨some e.sequenceNumber.toInt⟩ := by
    rw [ResponseCompletedEvent.marshal, decodeStruct_encodeStruct]
    simp only [List.foldlM_cons, List.foldlM_nil,
        Option.bind_eq_bind]
    rw [setField_other (by decide), Option.bind_some, setField_encodeInt,
      Option.bind_some, setField_other (by decide)]
    rfl
  rw [sequenceOf, hd]
  rfl

/-! ## The numbers that the adapter writes -/

theorem parse_of_unmarshal {σ : Type} {dec : Json → Option σ} {payload : Bytes} {x : σ}
    (h : unmarshal dec payload = some x) : ∃ j, parse payload = some j ∧ dec j = some x := by
  obtain ⟨j, hj, hx⟩ := Option.bind_eq_some_iff.mp h
  exact ⟨j, parse_of_checkValid hj, hx⟩

/-- An event that carries a number when it is JSON. -/
def NumberedIfJson (payload : Bytes) : Prop :=
  isJson payload = true → (sequenceNumber payload).isSome = true

theorem sequenceNumber_adaptCompleted {payload : Bytes} (h : NumberedIfJson payload) :
    sequenceNumber (adaptCompleted payload) = sequenceNumber payload := by
  unfold adaptCompleted
  cases ha : adaptResponsesSSEPayload payload with
  | none => rfl
  | some out =>
    unfold adaptResponsesSSEPayload at ha
    split at ha
    · cases ha
    · split at ha
      · cases ha
      · split at ha
        · cases ha
        · rename_i e he
          cases ha
          obtain ⟨j, hj, hd⟩ := parse_of_unmarshal he
          have hn : sequenceNumber payload = e.sequenceNumber.map Int64.toInt := by
            rw [sequenceNumber, hj]
            exact sequenceOf_completed hd
          have hs := h (by simp [isJson, hj])
          rw [hn] at hs ⊢
          obtain ⟨i, hi⟩ := Option.isSome_iff_exists.mp (Option.isSome_map.symm.trans hs)
          rw [Option.getD_some, sequenceNumber, parse_print, Option.bind_some,
            sequenceOf_completedEvent, hi]
          simp [openAIResponseCompletedEventFromLlama, hi]

theorem sequenceNumber_finished {payload : Bytes} {c : FinishedCall}
    (h : classify payload = .finished c) :
    sequenceNumber payload = c.event.sequenceNumber.map Int64.toInt := by
  have hf := finishedCall_of_classify h
  unfold finishedCall at hf
  split at hf
  · cases hf
  · rename_i e he
    split at hf
    · cases hf
    · simp only at hf
      split at hf
      · cases hf
        obtain ⟨j, hj, hd⟩ := parse_of_unmarshal he
        rw [sequenceNumber, hj]
        exact sequenceOf_itemDone hd
      · cases hf

/-- A synthesized event carries the number of the event that it is made for. -/
theorem sequenceNumber_synthesized {a : ToolCalls} {payload : Bytes}
    {d : ResponseFunctionCallArgumentsDoneEvent} (h : (step a (classify payload)).2 = some d) :
    sequenceNumber (print d.marshal) = sequenceNumber payload := by
  obtain ⟨c, hc, -, rfl⟩ := classify_of_step h
  rw [sequenceNumber_finished hc, sequenceNumber, parse_print, Option.bind_some,
    sequenceOf_argumentsDone]
  rfl

/-- Step lemma: everything emitted for a data line carries its number. -/
theorem emit_number {a : ToolCalls} {d : DataLine} (h : NumberedIfJson d.value) :
    ∀ e ∈ (emit a d).1, sequenceNumber e.payload = sequenceNumber d.value := by
  intro e he
  unfold emit at he
  split at he
  · cases hs : (step a (classify d.value)).2 with
    | none =>
      simp only [hs, List.nil_append, List.mem_singleton] at he
      subst he
      exact sequenceNumber_adaptCompleted h
    | some s =>
      simp only [hs, List.cons_append, List.nil_append, List.mem_cons, List.not_mem_nil, or_false] at he
      rcases he with rfl | rfl
      · exact sequenceNumber_synthesized hs
      · exact sequenceNumber_adaptCompleted h
  · rw [List.mem_singleton.mp he]
    rfl

/-- What is emitted for a payload that is no JSON is no JSON either. -/
theorem emit_isJson {a : ToolCalls} {d : DataLine} (h : isJson d.value = false) :
    ∀ e ∈ (emit a d).1, isJson e.payload = false := by
  have hu : ∀ {σ : Type} (dec : Json → Option σ), unmarshal dec d.value = none := by
    intro σ dec
    cases hd : unmarshal dec d.value with
    | none => rfl
    | some x =>
      obtain ⟨j, hj, -⟩ := parse_of_unmarshal hd
      simp [isJson, hj] at h
  have hc : classify d.value = .other := by simp [classify, eventType, hu]
  have ha : adaptCompleted d.value = d.value := by simp [adaptCompleted, adaptResponsesSSEPayload, hu]
  intro e he
  have he' : (emit a d).1 = [.forwarded d.value] := by
    by_cases hv : d.visible = true <;> simp [emit, hv, hc, step, ha]
  rw [he', List.mem_singleton] at he
  rw [he]
  exact h

theorem history_numbered {a : ToolCalls} {ds : List DataLine}
    (h : ∀ d ∈ ds, NumberedIfJson d.value) : ∀ p ∈ payloads (history a ds), NumberedIfJson p := by
  induction ds generalizing a with
  | nil => simp [history, payloads]
  | cons d ds ih =>
    intro p hp hj
    simp only [history, payloads, List.map_append, List.mem_append] at hp
    rcases hp with hp | hp
    · obtain ⟨e, he, rfl⟩ := List.mem_map.mp hp
      rw [emit_number (h d (by simp)) e he]
      refine h d (by simp) ?_
      by_contra hn
      rw [emit_isJson (by simpa using hn) e he] at hj
      cases hj
    · exact ih (fun e he => h e (by simp [he])) p hp hj

/-! ## Runs -/

def numbers (payloads : List Bytes) : List Int := payloads.filterMap sequenceNumber

@[simp] theorem numbers_append (ps qs : List Bytes) : numbers (ps ++ qs) = numbers ps ++ numbers qs :=
  List.filterMap_append

theorem numbers_emit {a : ToolCalls} {d : DataLine} (h : NumberedIfJson d.value) :
    ∀ n ∈ numbers (payloads (emit a d).1), sequenceNumber d.value = some n := by
  intro n hn
  obtain ⟨p, hp, hpn⟩ := List.mem_filterMap.mp hn
  obtain ⟨e, he, rfl⟩ := List.mem_map.mp hp
  rw [← emit_number h e he, hpn]

theorem numbers_history {a : ToolCalls} {ds : List DataLine} (h : ∀ d ∈ ds, NumberedIfJson d.value) :
    ∀ n ∈ numbers (payloads (history a ds)), n ∈ numbers (ds.map DataLine.value) := by
  induction ds generalizing a with
  | nil => simp [history, payloads, numbers]
  | cons d ds ih =>
    intro n hn
    simp only [history, payloads, List.map_append, numbers_append, List.mem_append] at hn
    rcases hn with hn | hn
    · have hd := numbers_emit (h d (by simp)) n hn
      simp [numbers, hd]
    · have hmem := ih (fun e he => h e (by simp [he])) n hn
      obtain ⟨p, hp, hpn⟩ := List.mem_filterMap.mp hmem
      exact List.mem_filterMap.mpr ⟨p, by simpa using Or.inr (List.mem_map.mp hp), hpn⟩

/-- Run lemma: numbers that increase upstream do not decrease at the client. -/
theorem history_sorted {a : ToolCalls} {ds : List DataLine} (h : ∀ d ∈ ds, NumberedIfJson d.value)
    (hs : (numbers (ds.map DataLine.value)).Pairwise (· < ·)) :
    (numbers (payloads (history a ds))).Pairwise (· ≤ ·) := by
  induction ds generalizing a with
  | nil => exact List.Pairwise.nil
  | cons d ds ih =>
    have hd := h d (by simp)
    have hds : ∀ e ∈ ds, NumberedIfJson e.value := fun e he => h e (by simp [he])
    have hsplit : numbers ((d :: ds).map DataLine.value) =
        (sequenceNumber d.value).toList ++ numbers (ds.map DataLine.value) := by
      cases hn : sequenceNumber d.value <;> simp [numbers, hn]
    rw [hsplit] at hs
    obtain ⟨-, hrest, hlt⟩ := List.pairwise_append.mp hs
    simp only [history, payloads, List.map_append, numbers_append]
    refine List.pairwise_append.mpr ⟨?_, ih hds hrest, fun m hm n hn => ?_⟩
    · refine List.pairwise_of_forall_mem_list fun m hm n hn => ?_
      have hmn := (numbers_emit hd m hm).symm.trans (numbers_emit hd n hn)
      exact (Option.some.inj hmn).le
    · have hdm := numbers_emit hd m hm
      exact (hlt m (by simp [hdm]) n (numbers_history hds n hn)).le

theorem forwardedPayloads_append (es fs : List Emitted) :
    forwardedPayloads (es ++ fs) = forwardedPayloads es ++ forwardedPayloads fs :=
  List.filterMap_append

/-- The forwarded events carry the numbers of the upstream events. -/
theorem numbers_forwarded {a : ToolCalls} {ds : List DataLine}
    (h : ∀ d ∈ ds, NumberedIfJson d.value) :
    numbers (forwardedPayloads (history a ds)) = numbers (ds.map DataLine.value) := by
  induction ds generalizing a with
  | nil => rfl
  | cons d ds ih =>
    have hone : ∃ p, forwardedPayloads (emit a d).1 = [p] ∧ sequenceNumber p = sequenceNumber d.value := by
      by_cases hv : d.visible = true
      · refine ⟨adaptCompleted d.value, ?_, sequenceNumber_adaptCompleted (h d (by simp))⟩
        simp only [emit, hv, if_true]
        cases (step a (classify d.value)).2 <;> rfl
      · exact ⟨d.value, by simp [emit, hv, forwardedPayloads], rfl⟩
    obtain ⟨p, hp, hn⟩ := hone
    have hih := ih (a := (emit a d).2) fun e he => h e (by simp [he])
    rw [history, forwardedPayloads_append, hp, numbers_append, hih]
    simp only [numbers, List.map_cons, List.filterMap_cons, List.filterMap_nil, hn]
    cases sequenceNumber d.value <;> rfl

/-! ## Streams of numbered events -/

/-- The data of the event of a block: its data lines, joined by line feeds. -/
def eventData (block : List Bytes) : Bytes :=
  List.intercalate [lf] ((block.filterMap dataLine).map DataLine.value)

/-- The events of a stream whose data is JSON. -/
def jsonEvents (bs : List (List Bytes)) : List Bytes := (bs.map eventData).filter isJson

/-- Every JSON event carries a number, and the numbers increase. -/
structure Increasing (bs : List (List Bytes)) : Prop where
  numbered : ∀ p ∈ jsonEvents bs, (sequenceNumber p).isSome = true
  increasing : (numbers (jsonEvents bs)).Pairwise (· < ·)

instance (bs : List (List Bytes)) : Decidable (Increasing bs) :=
  decidable_of_iff ((∀ p ∈ jsonEvents bs, (sequenceNumber p).isSome = true) ∧
    (numbers (jsonEvents bs)).Pairwise (· < ·)) ⟨fun h => ⟨h.1, h.2⟩, fun h => ⟨h.1, h.2⟩⟩

theorem numbers_filter (ps : List Bytes) : numbers (ps.filter isJson) = numbers ps := by
  induction ps with
  | nil => rfl
  | cons p ps ih =>
    simp only [numbers] at ih
    cases hn : sequenceNumber p with
    | none => by_cases hj : isJson p = true <;> simp [numbers, hj, hn, ih]
    | some n => simp [numbers, isJson_of_sequenceNumber hn, hn, ih]

/-- When no block has more than one data line, the JSON events are the JSON data lines. -/
theorem jsonEvents_single {bs : List (List Bytes)} (hone : ∀ b ∈ bs, SingleData b) :
    jsonEvents bs = ((bs.flatten.filterMap dataLine).map DataLine.value).filter isJson := by
  induction bs with
  | nil => rfl
  | cons b bs ih =>
    have hih := ih fun c hc => hone c (by simp [hc])
    have hb : [eventData b].filter isJson =
        ((b.filterMap dataLine).map DataLine.value).filter isJson := by
      have hlen := hone b (by simp)
      unfold SingleData at hlen
      unfold eventData
      cases hd : b.filterMap dataLine with
      | nil => rfl
      | cons d ds =>
        have hds : ds = [] := by
          rw [hd, List.length_cons] at hlen
          exact List.eq_nil_of_length_eq_zero (by omega)
        simp [hds]
    rw [List.flatten_cons, List.filterMap_append, List.map_append, List.filter_append, ← hih, ← hb]
    exact List.filter_append [eventData b] (bs.map eventData)

/-- When every event stands on one data line, the numbers at the client do not
decrease; those of the forwarded events increase, and a synthesized event carries
the number of the finished call that comes right after it. -/
theorem copyResponsesSSE_sequence (canFlush : Bool) (src : Source)
    (hone : ∀ b ∈ blocks src, SingleData b) (hinc : Increasing (blocks src)) :
    let hist := history [] (received src)
    (dataLines (written (copyResponsesSSE canFlush src).1)).map DataLine.value = payloads hist ∧
      (∀ p ∈ payloads hist, isJson p = true → (sequenceNumber p).isSome = true) ∧
      (numbers (payloads hist)).Pairwise (· ≤ ·) ∧
      (numbers (forwardedPayloads hist)).Pairwise (· < ·) ∧
      ∀ before d after, hist = before ++ .synthesized d :: after →
        ∃ p rest c, after = .forwarded p :: rest ∧ classify p = .finished c ∧
          sequenceNumber (print d.marshal) = sequenceNumber p := by
  have hev := jsonEvents_single hone
  have hnum : ∀ d ∈ received src, NumberedIfJson d.value := by
    intro d hd hj
    refine hinc.numbered d.value ?_
    rw [hev]
    exact List.mem_filter.mpr ⟨List.mem_map.mpr ⟨d, hd, rfl⟩, hj⟩
  have hs : (numbers ((received src).map DataLine.value)).Pairwise (· < ·) := by
    have h := hinc.increasing
    rwa [hev, numbers_filter] at h
  refine ⟨dataLines_written canFlush src hone, fun p hp => history_numbered hnum p hp,
    history_sorted hnum hs, by rwa [numbers_forwarded hnum], fun before d after he => ?_⟩
  obtain ⟨pre, x, post, hds, -, -, hstep, rfl⟩ := history_synthesized he
  obtain ⟨c, hc, -⟩ := classify_of_step hstep
  refine ⟨_, _, c, rfl, by rw [classify_adaptCompleted, hc], ?_⟩
  rw [sequenceNumber_synthesized hstep, sequenceNumber_adaptCompleted (hnum x (by rw [hds]; simp))]

/-- A numbered stream with one finished call. -/
def sampleNumbered : Source where
  bytes := ascii "data: \x7b\"type\":\"response.output_item.done\",\"sequence_number\":7,\"item\":\x7b\"type\":\"function_call\",\"id\":\"fc\",\"name\":\"f\",\"arguments\":\"1\"\x7d\x7d\n\n"
  ending := .eof

/-- The finished call between a piece of text and the end of the stream. -/
def sampleSequence : Source where
  bytes :=
    ascii "data: \x7b\"type\":\"response.output_text.delta\",\"sequence_number\":6,\"delta\":\"a\"\x7d\n\n" ++
      sampleNumbered.bytes ++
      ascii "data: \x7b\"type\":\"response.output_text.done\",\"sequence_number\":9,\"text\":\"a\"\x7d\n\n" ++
      ascii "data: [DONE]\n\n"
  ending := .eof

theorem copyResponsesSSE_sequence_sampleSequence :
    (dataLines (written (copyResponsesSSE true sampleSequence).1)).map DataLine.value =
        payloads (history [] (received sampleSequence)) ∧
      (numbers (payloads (history [] (received sampleSequence)))).Pairwise (· ≤ ·) ∧
      (numbers (forwardedPayloads (history [] (received sampleSequence)))).Pairwise (· < ·) ∧
      numbers (payloads (history [] (received sampleSequence))) = [6, 7, 7, 9] := by
  obtain ⟨hwritten, -, hsorted, hforwarded, -⟩ :=
    copyResponsesSSE_sequence true sampleSequence (by decide +kernel) (by decide +kernel)
  exact ⟨hwritten, hsorted, hforwarded, by decide +kernel⟩

/-- A stream without JSON events whose one event, on two data lines, has a
finished call on the first of them. -/
def sampleTwoLines : Source where
  bytes := dataField ++ callPayload ++ [lf] ++ ascii "data: x\n\n"
  ending := .eof

/-- The numbers at the client need not increase strictly, and without the
condition on data lines the events at the client need not be numbered at all. -/
theorem copyResponsesSSE_sequence_not_strict :
    (Increasing (blocks sampleNumbered) ∧ ¬ Increasing
      (splitBlocks isBlankSSELine (written (copyResponsesSSE true sampleNumbered).1))) ∧
    (Increasing (blocks sampleTwoLines) ∧ ¬ Increasing
      (splitBlocks isBlankSSELine (written (copyResponsesSSE true sampleTwoLines).1))) := by
  decide +kernel

end ResponsesSequence
