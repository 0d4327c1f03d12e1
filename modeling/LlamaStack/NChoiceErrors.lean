import LlamaStack.NChoiceStream

/-!
# Errors of an n-choice stream

Every error of an upstream call reaches the client as an error of its own, but
for two: an error chunk in a stream, which is left out like any chunk without
choices, and an error response whose body cannot be read.
-/
namespace NChoiceErrors

open GoBytes GoFloat64 GoJson GoMap GoStream GoUtf8 NChoiceSse NChoiceResponse NChoiceEvents NChoiceStream

set_option maxRecDepth 4000

variable (jsonError : Bytes → Bytes) (canFlush : Bool)

/-! ## Failures and reports -/

def errorKey : Text := "error".toList
def messageKey : Text := "message".toList
def typeKey : Text := "type".toList
def codeKey : Text := "code".toList

/-- The error member of an event, if it is an error event: one without choices. -/
def chunkError (data : Bytes) : Option Value :=
  (readObject data).bind fun m => if (rawChoices m).isNone then get errorKey m else none

/-- The message of an error event or error response. -/
def errorMessage (data : Bytes) : Option Text :=
  match chunkError data with
  | some (.obj m) =>
    match get messageKey m with
    | some (.str t) => some t
    | _ => none
  | _ => none

/-- A failure of an upstream call: no response, an error status, a stream that
breaks off or holds an invalid chunk, and a stream that carries an error chunk. -/
inductive Failure where
  | transport (message : Bytes)
  | status (status : Nat) (body : Bytes)
  | stream (message : Bytes)
  | chunk (error : Value)

def streamFailures (body : Source) : List Failure :=
  ((payloads body).filterMap chunkError).map .chunk ++
    ((streamError jsonError body).map .stream).toList

def callFailures : Outcome → List Failure
  | .failed message => [.transport message]
  | .response status body =>
    if isSuccess status then streamFailures jsonError body else [.status status body.bytes]

/-- The failures of the calls that are made. -/
def failures (os : List Outcome) : List Failure := (made jsonError os).flatMap (callFailures jsonError)

/-- An error that the client sees: an error response, or an error event. -/
inductive Report where
  | response (status : Nat) (body : Bytes)
  | event (data : Bytes)

def reports (r : Reply) : List Report :=
  match r.status with
  | none => []
  | some 200 =>
    (((SseGrammar.events (written r.ops)).getD []).filter fun e => (chunkError e.data).isSome).map
      fun e => .event e.data
  | some status => [.response status (written r.ops)]

def contextLengthMessage : Bytes :=
  ascii "prompt plus requested completion exceeds the model context window"

/-- A report that shows the error of a failure. -/
def Reports : Failure → Report → Prop
  | .transport message, .response _ body => errorMessage body = some (decodeText message)
  | .transport message, .event data => errorMessage data = some (decodeText message)
  | .status status body, .response status' body' =>
    (status' = status ∧ body' = body) ∨
      (isContextLengthExceeded body = true ∧ status' = 400 ∧
        errorMessage body' = some (decodeText contextLengthMessage))
  | .status _ body, .event data => errorMessage data = some (decodeText body)
  | .stream message, .event data => errorMessage data = some (decodeText message)
  | .stream _, .response _ _ => False
  | .chunk error, .event data => chunkError data = some error
  | .chunk _, .response _ _ => False

/-- No failure is lost: each has a report of its own, in order, and a stream with
a failure does not end with the end marker. -/
structure AllReported (os : List Outcome) (r : Reply) : Prop where
  reported : List.SublistForall₂ Reports (failures jsonError os) (reports r)
  unfinished : failures jsonError os ≠ [] → r.status = some 200 →
    hasSuffix (written r.ops) doneFrame = false

/-- No stream that is read carries an error chunk, and the error response of the
first call can be read. -/
structure Visible (os : List Outcome) : Prop where
  chunks : ∀ status body, .response status body ∈ made jsonError os → isSuccess status = true →
    (payloads body).filterMap chunkError = []
  readable : ∀ status body rest, os = .response status body :: rest → 400 ≤ status →
    body.ending = .eof

/-! ## Error events -/

theorem chunkError_of_json {j : Json} {m : Entries Value} {t : Bytes} (ht : EndsNumber t)
    (hs : skipSpace t = []) (hm : decodeMap j = some m) (hc : rawChoices m = none) :
    chunkError (print j ++ t) = get errorKey m := by
  simp [chunkError, readObject, parse_print_append j ht hs, hm, hc]

/-- An object with one member, an object that has a message. -/
theorem errorMessage_of_json (ms : List (Lexeme × Json)) (es : List (Text × Value)) (msg : Bytes)
    {t : Bytes} (ht : EndsNumber t) (hs : skipSpace t = []) (hms : decodeMembers ms = some es)
    (hmsg : get messageKey (ofList es) = some (.str (decodeText msg))) :
    chunkError (print (.obj [(quote errorKey, .obj ms)]) ++ t) = some (.obj (ofList es)) ∧
      errorMessage (print (.obj [(quote errorKey, .obj ms)]) ++ t) = some (decodeText msg) := by
  have hne : choicesKey ≠ errorKey := by decide
  have hm : decodeMap (.obj [(quote errorKey, .obj ms)]) = some [(errorKey, .obj (ofList es))] := by
    simp [decodeMap, decodeMembers, decodeValue, hms, ofList, store]
  have hc : rawChoices [(errorKey, .obj (ofList es))] = none := by
    simp [rawChoices, GoMap.get, hne]
  have herr := chunkError_of_json ht hs hm hc
  have hget : GoMap.get errorKey [(errorKey, Value.obj (ofList es))] = some (.obj (ofList es)) :=
    if_pos rfl
  rw [hget] at herr
  exact ⟨herr, by simp [errorMessage, herr, hmsg]⟩

theorem endsNumber_lf : EndsNumber [lf] := endsNumber_cons [] (by decide)

/-- The error event that the gateway writes shows its message. -/
theorem errorMessage_ssePayload (message : Bytes) :
    (chunkError (print (ssePayload message))).isSome = true ∧
      errorMessage (print (ssePayload message)) = some (decodeText message) := by
  have h := errorMessage_of_json
    [(quote messageKey, .str (quoteBytes message)), (quote typeKey, .str (quote upstreamError))]
    [(messageKey, .str (decodeText message)), (typeKey, .str upstreamError)] message
    endsNumber_nil rfl (by simp [decodeMembers, decodeValue, unquote_quoteBytes]) ?_
  · rw [List.append_nil] at h
    exact ⟨by rw [ssePayload]; exact Option.isSome_iff_exists.mpr ⟨_, h.1⟩, h.2⟩
  · have hne : messageKey ≠ typeKey := by decide
    rw [get_ofList]
    simp only [List.foldl_cons, List.foldl_nil, hne, if_true, if_false]

theorem errorMessage_errorBody (typ code : Text) (msg : Bytes) :
    errorMessage (print (errorBody typ code msg) ++ [lf]) = some (decodeText msg) := by
  refine (errorMessage_of_json
    [(quote codeKey, .str (quote code)), (quote messageKey, .str (quoteBytes msg)),
      (quote typeKey, .str (quote typ))]
    [(codeKey, .str code), (messageKey, .str (decodeText msg)), (typeKey, .str typ)] msg
    endsNumber_lf (by decide) (by simp [decodeMembers, decodeValue, unquote_quoteBytes]) ?_).2
  have h₁ : messageKey ≠ codeKey := by decide
  have h₂ : messageKey ≠ typeKey := by decide
  rw [get_ofList]
  simp only [List.foldl_cons, List.foldl_nil, h₁, h₂, if_true, if_false]

/-! ## Events without error -/

theorem chunkError_chunk {p : Bytes} {cs : List Value} {m : Entries Value}
    (hm : unmarshal decodeMap p = some m) (hcs : rawChoices m = some cs) (k : Int64) :
    chunkError (Emitted.chunk k cs m).data = none := by
  have hraw : rawChoices (withChoices (.num (ofInt64 k)) cs m) =
      some (cs.map (setIndex (.num (ofInt64 k)))) := by
    unfold rawChoices at hcs
    split at hcs
    · cases hcs
      simp [rawChoices, withChoices, get_store_self]
    · cases hcs
  rw [chunkError, Emitted.data, readObject_withChoices hm hcs k, Option.bind_some, hraw]
  rfl

theorem chunkError_done : chunkError Emitted.done.data = none := rfl

theorem chunkError_failed (message : Bytes) :
    (chunkError (Emitted.failed message).data).isSome = true := (errorMessage_ssePayload message).1

/-- No event of a call is an error event. -/
theorem chunkError_callEmits (i : Nat) (emitDone : Bool) (o : Outcome) :
    ∀ e ∈ callEmits i emitDone o, chunkError e.data = none := by
  have hemit : ∀ p, ∀ e ∈ emitOf (Int64.ofNat i) emitDone p, chunkError e.data = none := by
    intro p e he
    unfold emitOf at he
    split at he
    · cases emitDone with
      | true =>
        rw [List.mem_singleton.mp he]
        exact chunkError_done
      | false => simp at he
    · split at he
      · rename_i cs m hc
        obtain ⟨m', hm, hc⟩ := Option.bind_eq_some_iff.mp hc
        obtain ⟨cs', hcs, hpair⟩ := Option.map_eq_some_iff.mp hc
        simp only [Prod.mk.injEq] at hpair
        obtain ⟨rfl, rfl⟩ := hpair
        rw [List.mem_singleton.mp he]
        exact chunkError_chunk hm hcs _
      · simp at he
  intro e he
  cases o with
  | failed message => simp [callEmits] at he
  | response status body =>
    simp only [callEmits] at he
    split at he
    · obtain ⟨p, -, hp⟩ := List.mem_flatMap.mp he
      exact hemit p e hp
    · simp at he

/-- The error that ends the calls, if one does. -/
def replyError (os : List Outcome) : Option Bytes := os.findSome? (callError jsonError)

/-- The error events of a stream: the one that ends it, if there is one. -/
theorem errors_replyEmits (i : Nat) (os : List Outcome) :
    (replyEmits jsonError i os).filter (fun e => (chunkError e.data).isSome) =
      (replyError jsonError os).toList.map .failed := by
  induction os generalizing i with
  | nil => rfl
  | cons o os ih =>
    have hcall : (callEmits i os.isEmpty o).filter (fun e => (chunkError e.data).isSome) = [] := by
      rw [List.filter_eq_nil_iff]
      intro e he
      rw [chunkError_callEmits i os.isEmpty o e he]
      simp
    rw [replyEmits, List.filter_append, hcall, List.nil_append, replyError, List.findSome?_cons]
    cases hc : callError jsonError o with
    | some e => simp [chunkError_failed]
    | none => exact ih (i + 1)

theorem reports_started {os : List Outcome} (h : started os = true) :
    reports (writeNChoiceStreamResponse jsonError canFlush os) =
      (replyError jsonError os).toList.map fun e => .event (print (ssePayload e)) := by
  obtain ⟨hw, -, hst⟩ := writeNChoiceStreamResponse_started jsonError canFlush h
  have hfilter : ((replyEmits jsonError 0 os).map Emitted.event).filter
      (fun e => (chunkError e.data).isSome) =
        ((replyError jsonError os).toList.map Emitted.failed).map Emitted.event := by
    rw [← errors_replyEmits jsonError 0 os, List.filter_map]
    rfl
  rw [reports, hst, hw, events_bytesOf]
  simp only [Option.getD_some, hfilter, List.map_map]
  rfl

/-! ## Counting failures -/

/-- The error chunks of a call. -/
def callErrorChunks : Outcome → List Value
  | .failed _ => []
  | .response status body => if isSuccess status then (payloads body).filterMap chunkError else []

/-- A call fails once when an error ends it, and once for each error chunk. -/
theorem length_callFailures (o : Outcome) :
    (callFailures jsonError o).length =
      (callErrorChunks o).length + (callError jsonError o).toList.length := by
  cases o with
  | failed message => rfl
  | response status body =>
    by_cases hs : isSuccess status = true
    · cases he : streamError jsonError body <;>
        simp [callFailures, callErrorChunks, callError, streamFailures, hs, he]
    · simp [callFailures, callErrorChunks, callError, hs]

theorem length_failures (os : List Outcome) :
    (failures jsonError os).length =
      ((made jsonError os).flatMap callErrorChunks).length + (replyError jsonError os).toList.length := by
  induction os with
  | nil => rfl
  | cons o os ih =>
    have ho := length_callFailures jsonError o
    rw [failures] at ih ⊢
    rw [replyError, List.findSome?_cons, made]
    cases hc : callError jsonError o with
    | some e => simpa [hc] using ho
    | none =>
      rw [hc] at ho
      simp only [Option.isSome_none, Bool.false_eq_true, if_false, List.flatMap_cons,
        List.length_append, Option.toList_none, List.length_nil, Nat.add_zero] at ho ⊢
      rw [ih, ho, replyError, Nat.add_assoc]

/-- Without error chunks, the failures are shown by the error that ends the calls. -/
theorem reports_failures {os : List Outcome}
    (h : (made jsonError os).flatMap callErrorChunks = []) :
    List.Forall₂ Reports (failures jsonError os)
      ((replyError jsonError os).toList.map fun e => .event (print (ssePayload e))) := by
  have hcall : ∀ o, callErrorChunks o = [] → List.Forall₂ Reports (callFailures jsonError o)
      ((callError jsonError o).toList.map fun e => .event (print (ssePayload e))) := by
    intro o ho
    cases o with
    | failed message => exact .cons (errorMessage_ssePayload message).2 .nil
    | response status body =>
      by_cases hs : isSuccess status = true
      · simp only [callErrorChunks, hs, if_true] at ho
        simp only [callFailures, callError, hs, if_true, streamFailures, ho, List.map_nil,
          List.nil_append]
        cases streamError jsonError body with
        | none => exact .nil
        | some e => exact .cons (errorMessage_ssePayload e).2 .nil
      · simp only [callFailures, callError, hs, if_false, Bool.false_eq_true]
        exact .cons (errorMessage_ssePayload body.bytes).2 .nil
  induction os with
  | nil => exact .nil
  | cons o os ih =>
    rw [failures, replyError, List.findSome?_cons]
    rw [made] at h ⊢
    cases hc : callError jsonError o with
    | some e =>
      have ho := hcall o (by simpa [hc] using h)
      rw [hc] at ho
      simpa using ho
    | none =>
      simp only [hc, Option.isSome_none, Bool.false_eq_true, if_false, List.flatMap_cons,
        List.append_eq_nil_iff] at h ⊢
      have ho := hcall o h.1
      rw [hc] at ho
      cases hf : callFailures jsonError o with
      | nil => exact ih h.2
      | cons f fs =>
        rw [hf] at ho
        cases ho

/-! ## The end of the stream -/

theorem replyEmits_failed {os : List Outcome} {message : Bytes}
    (h : replyError jsonError os = some message) (i : Nat) :
    ∃ es, replyEmits jsonError i os = es ++ [.failed message] := by
  induction os generalizing i with
  | nil => cases h
  | cons o os ih =>
    rw [replyError, List.findSome?_cons] at h
    rw [replyEmits]
    cases hc : callError jsonError o with
    | some e =>
      rw [hc] at h
      cases h
      exact ⟨_, rfl⟩
    | none =>
      rw [hc] at h
      obtain ⟨es, he⟩ := ih h (i + 1)
      exact ⟨callEmits i os.isEmpty o ++ es, by simp only [he, List.append_assoc]⟩

/-- An error event closes a brace where the end marker closes a bracket. -/
theorem not_doneFrame_of_failed (es : List Emitted) (message : Bytes) :
    hasSuffix (bytesOf (es ++ [.failed message])) doneFrame = false := by
  have hobj : ∀ k x, ∃ w, print (.obj [(k, x)]) = w ++ [0x7d] := fun k x =>
    ⟨0x7b :: (printStr k ++ 0x3a :: print x), by simp [print, printMembers]⟩
  obtain ⟨w, hw⟩ := hobj (quote "error".toList) (.obj
    [(quote "message".toList, .str (quoteBytes message)),
    (quote "type".toList, .str (quote upstreamError))])
  have hframe : bytesOf (es ++ [.failed message]) =
      bytesOf es ++ (nameLine (ascii "error")).flatten ++ ascii "data: " ++ w ++ [0x7d, lf, lf] := by
    rw [bytesOf_append]
    simp only [bytesOf, List.map_cons, List.map_nil, Emitted.frame, Emitted.name, Emitted.data,
      ssePayload, hw]
    simp
  have hdone : doneFrame = ascii "data: [DONE" ++ [0x5d, lf, lf] := by decide
  rw [← Bool.not_eq_true, hasSuffix_iff, hframe, hdone]
  rintro ⟨t, ht⟩
  rw [← List.append_assoc t] at ht
  have h := (List.append_inj' ht rfl).2
  revert h
  decide

/-! ## Refused requests -/

theorem errorMessage_openAIError (status : Nat) (typ code : Text) (msg : Bytes) :
    errorMessage (written (writeOpenAIError status typ code msg).ops) = some (decodeText msg) := by
  have h := errorMessage_errorBody typ code msg
  simpa [writeOpenAIError] using h

theorem writeProxyError_spec (message : Bytes) :
    ∃ status, status ≠ 200 ∧ (writeProxyError message).status = some status ∧
      errorMessage (written (writeProxyError message).ops) = some (decodeText message) := by
  unfold writeProxyError
  split
  · exact ⟨504, by decide, rfl, errorMessage_openAIError _ _ _ message⟩
  · exact ⟨503, by decide, rfl, errorMessage_openAIError _ _ _ message⟩

/-- An error response is passed on, unless its body cannot be read. -/
theorem writeUpstreamResponse_spec {status : Nat} (hs : isSuccess status = false) (body : Source) :
    ((400 ≤ status ∧ body.ending ≠ .eof) ∧ (writeUpstreamResponse canFlush status body).status = none) ∨
      ((400 ≤ status → body.ending = .eof) ∧
        ∃ status', status' ≠ 200 ∧ (writeUpstreamResponse canFlush status body).status = some status' ∧
          Reports (.status status body.bytes)
            (.response status' (written (writeUpstreamResponse canFlush status body).ops))) := by
  have hne : status ≠ 200 := by
    rintro rfl
    cases hs
  unfold writeUpstreamResponse
  by_cases h400 : 400 ≤ status
  · rw [if_pos h400]
    cases he : body.ending with
    | failed message => exact .inl ⟨⟨h400, nofun⟩, rfl⟩
    | eof =>
      right
      refine ⟨fun _ => rfl, ?_⟩
      by_cases hc : isContextLengthExceeded body.bytes = true
      · simp only [hc, if_true]
        exact ⟨400, by decide, rfl, .inr ⟨hc, rfl, errorMessage_openAIError _ _ _ contextLengthMessage⟩⟩
      · simp only [hc]
        exact ⟨status, hne, rfl, .inl ⟨rfl, by simp⟩⟩
  · rw [if_neg h400]
    right
    exact ⟨fun h => absurd h h400, status, hne, rfl,
      .inl ⟨rfl, Proxy.written_copyFlush canFlush [] body.bytes body.ending⟩⟩

theorem reports_response {r : Reply} {status : Nat} (h : r.status = some status) (hne : status ≠ 200) :
    reports r = [.response status (written r.ops)] := by
  rw [reports, h]
  split
  · rename_i heq
    cases heq
  · rename_i heq
    exact absurd (Option.some.inj heq) hne
  · rename_i heq
    cases heq
    rfl

theorem visible_iff_started {os : List Outcome} (h : started os = true) :
    Visible jsonError os ↔ (made jsonError os).flatMap callErrorChunks = [] := by
  rw [List.flatMap_eq_nil_iff]
  constructor
  · intro hv o ho
    cases o with
    | failed message => rfl
    | response status body =>
      by_cases hs : isSuccess status = true
      · simpa [callErrorChunks, hs] using hv.chunks status body ho hs
      · simp [callErrorChunks, hs]
  · refine fun hc => ⟨fun status body ho hs => ?_, ?_⟩
    · simpa [callErrorChunks, hs] using hc _ ho
    · rintro status body rest rfl h400
      simp only [started, isSuccess, Bool.and_eq_true, decide_eq_true_eq] at h
      omega

theorem errors_started {os : List Outcome} (h : started os = true) :
    AllReported jsonError os (writeNChoiceStreamResponse jsonError canFlush os) ↔
      Visible jsonError os := by
  have hreports := reports_started jsonError canFlush h
  have hcount := length_failures jsonError os
  rw [visible_iff_started jsonError h]
  constructor
  · rintro ⟨hrep, -⟩
    obtain ⟨reps, hall, hsub⟩ := List.sublistForall₂_iff.mp hrep
    have hle := hsub.length_le
    rw [← hall.length_eq, hreports, List.length_map] at hle
    exact List.eq_nil_of_length_eq_zero (by omega)
  · intro hc
    have hall := reports_failures jsonError hc
    refine ⟨?_, fun hne _ => ?_⟩
    · rw [hreports]
      exact List.sublistForall₂_iff.mpr ⟨_, hall, List.Sublist.refl _⟩
    · cases he : replyError jsonError os with
      | none =>
        rw [he, hc] at hcount
        exact absurd (List.eq_nil_of_length_eq_zero hcount) hne
      | some message =>
        obtain ⟨es, hes⟩ := replyEmits_failed jsonError he 0
        rw [(writeNChoiceStreamResponse_started jsonError canFlush h).1, hes]
        exact not_doneFrame_of_failed es message

theorem errors_refused {o : Outcome} {os : List Outcome} (h : started (o :: os) = false) :
    AllReported jsonError (o :: os) (writeNChoiceStreamResponse jsonError canFlush (o :: os)) ↔
      Visible jsonError (o :: os) := by
  obtain ⟨hr, hm⟩ := writeNChoiceStreamResponse_refused jsonError canFlush h
  have hone : ∀ {f : Failure} {status : Nat} {r : Reply}, failures jsonError (o :: os) = [f] →
      r.status = some status → status ≠ 200 → Reports f (.response status (written r.ops)) →
      AllReported jsonError (o :: os) r := by
    intro f status r hf hst hne hrep
    refine ⟨?_, fun _ h200 => absurd (Option.some.inj (hst.symm.trans h200)) hne⟩
    rw [hf, reports_response hst hne]
    exact .cons hrep .nil
  cases o with
  | failed message =>
    obtain ⟨status, hne, hst, hmsg⟩ := writeProxyError_spec message
    have hv : Visible jsonError (.failed message :: os) := by
      refine ⟨fun status body hmem => ?_, fun status body rest he => ?_⟩
      · rw [hm] at hmem
        simp at hmem
      · cases he
    have hf : failures jsonError (.failed message :: os) = [.transport message] := by
      rw [failures, hm]
      rfl
    have hrep : Reports (.transport message)
        (.response status (written (writeProxyError message).ops)) := hmsg
    refine ⟨fun _ => hv, fun _ => ?_⟩
    rw [hr]
    exact hone hf hst hne hrep
  | response status body =>
    have hs : isSuccess status = false := h
    have hchunks : ∀ status' body', Outcome.response status' body' ∈ made jsonError
        (.response status body :: os) → isSuccess status' = true →
        (payloads body').filterMap chunkError = [] := by
      intro status' body' hmem hs'
      rw [hm, List.mem_singleton] at hmem
      cases hmem
      rw [hs] at hs'
      cases hs'
    have hf : failures jsonError (.response status body :: os) = [.status status body.bytes] := by
      rw [failures, hm]
      simp [callFailures, hs]
    rw [hr]
    rcases writeUpstreamResponse_spec canFlush hs body with
      ⟨⟨h400, hunread⟩, hst⟩ | ⟨hread, status', hne, hst, hrep⟩
    · constructor
      · rintro ⟨hrep, -⟩
        rw [hf, reports, show ({ writeUpstreamResponse canFlush status body with calls := 1 } :
          Reply).status = none from hst] at hrep
        cases hrep
      · exact fun hv => absurd (hv.readable status body os rfl h400) hunread
    · refine ⟨fun _ => ⟨hchunks, ?_⟩, fun _ => hone hf hst hne hrep⟩
      rintro s b rest ⟨⟩ h400
      exact hread h400

/-- Every failure of the upstream calls reaches the client exactly when no stream
that is read carries an error chunk and the error response of the first call, if
there is one, can be read. -/
theorem writeNChoiceStreamResponse_errors (os : List Outcome) :
    AllReported jsonError os (writeNChoiceStreamResponse jsonError canFlush os) ↔
      Visible jsonError os := by
  cases os with
  | nil => exact ⟨fun _ => ⟨fun _ _ h => by simp [made] at h, nofun⟩, fun _ => ⟨.nil, nofun⟩⟩
  | cons o os =>
    cases h : started (o :: os) with
    | true => exact errors_started jsonError canFlush h
    | false => exact errors_refused jsonError canFlush h

/-- A stream that fails in its middle, as the server reports it: an error chunk,
and then the end without end marker. -/
def brokenStream : Source where
  bytes := ascii "data: \x7b\"choices\":[\x7b\"index\":0,\"text\":\"a\"\x7d]\x7d\n\ndata: \x7b\"error\":\x7b\"code\":500,\"message\":\"failed\",\"type\":\"server_error\"\x7d\x7d\n\n"
  ending := .eof

/-- The error of the first stream is lost, and the response ends as if complete. -/
theorem writeNChoiceStreamResponse_errors_broken :
    ¬ AllReported id [.response 200 brokenStream, .response 200 sampleStream]
      (writeNChoiceStreamResponse id true [.response 200 brokenStream, .response 200 sampleStream]) := by
  intro h
  have hfail : (failures id [.response 200 brokenStream, .response 200 sampleStream]).length = 1 := by
    decide +kernel
  have hend := h.unfinished (fun h0 => by rw [h0] at hfail; cases hfail) (by decide +kernel)
  revert hend
  decide +kernel

end NChoiceErrors
