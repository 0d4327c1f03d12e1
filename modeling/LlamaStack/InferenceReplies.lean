import LlamaStack.ClientResponse

/-!
# Replies

What a client that takes every byte receives for the answers of the upstream, and that every run
of the handler sends it this, or the first part of it when the client is gone.
-/
namespace InferenceReplies

open Effects GoBytes GoJson GoMap HttpHeader ResponseWriter NChoiceResponse NChoices Handlers BodyAdapter Responding
  RespondingLoops ClientResponse
open GoStream hiding Op

variable (jsonError : Bytes → Bytes)

/-! ## Whole replies -/

structure Full where
  status : Nat
  header : Text → List Bytes
  body : Bytes

/-- A header with one value. -/
def single (k : Text) (v : Bytes) (H : Text → List Bytes) : Text → List Bytes := fun k' => if k' = k then [v] else H k'

def noHeader : Text → List Bytes := fun _ => []

def errorFull (status : Nat) (typ code : Text) (msg : Bytes) : Full where
  status := status
  header := single contentType jsonContentType noHeader
  body := print (errorBody typ code msg) ++ [lf]

def proxyErrorFull (message : Bytes) : Full :=
  if isResponseHeaderTimeout message then errorFull 504 upstreamError "response_header_timeout".toList message
  else errorFull 503 upstreamError "router_unavailable".toList message

/-- What crosses from a header of the upstream. -/
def crossing (h : Header) : Text → List Bytes := fun k => if isHopHeader k then [] else values k h

/-- The header of an answer that is passed on. -/
def passedHeader (resp : Response) : Text → List Bytes :=
  if first contentType resp.header = [] then single contentType jsonContentType (crossing resp.header)
  else crossing resp.header

def bodyOf (path : Text) (resp : Response) : Bytes :=
  if shouldAdapt path resp.status then
    if isEventStream (first contentType resp.header) then
      if path = responsesPath then written (ResponsesSse.copyResponsesSSE true resp.body).1 else resp.body.bytes
    else
      match resp.ending with
      | .failed _ => []
      | .eof => (adaptBody path resp.body.bytes).body
  else resp.body.bytes

def upstreamFull (path : Text) (resp : Response) : Full :=
  if 400 ≤ resp.status ∧ shouldInspectError path then
    match resp.ending with
    | .failed _ => ⟨200, noHeader, []⟩
    | .eof =>
      if isContextLengthExceeded resp.body.bytes then
        errorFull 400 invalidRequestError "context_length_exceeded".toList
          (ascii "prompt plus requested completion exceeds the model context window")
      else ⟨resp.status, passedHeader resp, resp.body.bytes⟩
  else ⟨resp.status, passedHeader resp, bodyOf path resp⟩

def singleFull (path : Text) : Answer → Full
  | .failed message => proxyErrorFull message
  | .response resp => upstreamFull path resp

def aggregateFull (path : Text) (firstHeader : Header) (bodies : List Bytes) : Full :=
  match aggregateNChoiceBodies jsonError bodies with
  | .error message => errorFull 503 upstreamError "n_choice_aggregation_failed".toList message
  | .ok body => ⟨200, single contentType jsonContentType (crossing firstHeader), (adaptBody path body).body⟩

/-- The reply to several calls, behind those with these bodies. -/
def nChoiceFull (path : Text) (firstHeader : Option Header) (bodies : List Bytes) : List Answer → Full
  | [] => aggregateFull jsonError path (firstHeader.getD []) bodies
  | .failed message :: _ => proxyErrorFull message
  | .response resp :: answers =>
    if ¬ isSuccess resp.status then upstreamFull path resp
    else
      match resp.ending with
      | .failed message => errorFull 503 upstreamError "upstream_read_failed".toList message
      | .eof => nChoiceFull path (some (firstHeader.getD resp.header)) (bodies ++ [resp.body.bytes]) answers

/-- What an answer comes to where its header does not matter. -/
def outcome : Answer → Outcome
  | .failed message => .failed message
  | .response resp => .response resp.status resp.body

/-- The header of a stream, which the first answer decides. -/
def streamHeader (path : Text) : List Answer → Text → List Bytes
  | [] => noHeader
  | .failed _ :: _ => single contentType jsonContentType noHeader
  | .response resp :: _ =>
    if ¬ isSuccess resp.status then (upstreamFull path resp).header
    else single contentType streamContentType (crossing resp.header)

def streamFull (path : Text) (answers : List Answer) : Full :=
  let r := NChoiceResponse.writeNChoiceStreamResponse jsonError true (answers.map outcome)
  ⟨r.status.getD 200, streamHeader path answers, written r.ops⟩

/-! ## What was received -/

/-- A reply that has gone out as far as the client took it. -/
def Received (f : Full) (w : World) : Prop :=
  (f.status = 200 ∧ f.body = [] ∧ Fresh f.header w) ∨
    ∃ p broken, p <+: f.body ∧ (broken = false → p = f.body) ∧ Sends f.status f.header p broken w

/-- The end of a reply: the client has received its head and its body, or the first part of the body
if a write has failed; the log tells just this; and the body of the upstream's response is closed. -/
structure Delivered (f : Full) (w : World) : Prop where
  closed : w.reading = false
  head : ∃ h, w.client.inner.finish.sent = some ⟨f.status, h⟩ ∧ ∀ k, values k h = f.header k
  body : w.client.inner.body <+: f.body
  all : w.client.inner.broken = false → w.client.inner.body = f.body
  logged : w.client.logged = ⟨f.status, w.client.inner.body.length⟩

theorem delivered_of_received {f : Full} {w : World} (hw : w.reading = false) (h : Received f w) : Delivered f w := by
  rcases h with ⟨hstatus, hbody, hfresh⟩ | ⟨p, broken, hp, hall, hsends⟩
  · refine ⟨hw, ⟨w.client.inner.header, ?_, hfresh.header⟩, ?_, fun _ => ?_, ?_⟩
    · simp [Writer.finish, Writer.writeHeader, hfresh.sent, hstatus]
    · rw [hfresh.body]
      exact List.nil_prefix
    · rw [hfresh.body, hbody]
    · simp [StatusWriter.logged, hfresh.status, hfresh.bytes, hfresh.body, hstatus]
  · obtain ⟨h, hsent, hH⟩ := hsends.sent
    refine ⟨hw, ⟨h, ?_, hH⟩, ?_, fun hb => ?_, ?_⟩
    · simp [Writer.finish, Writer.writeHeader, hsent]
    · rw [hsends.body]
      exact hp
    · rw [hsends.body]
      exact hall (hsends.broken.symm.trans hb)
    · simp [StatusWriter.logged, hsends.status, hsends.nonzero, hsends.bytes, hsends.body]

variable {basePath : Text} {req : Incoming} {H : Text → List Bytes} {w : World} {jsonError}

theorem received_took {s : Nat} {full : Bytes} {err r : Option Bytes} {w' : World}
    (h : Took s H [] full err w r w') : SameUpstream w w' ∧ Received ⟨s, H, full⟩ w' := by
  obtain ⟨hsame, ⟨-, hall⟩ | ⟨-, p, hp, hpart⟩⟩ := h
  · exact ⟨hsame, .inr ⟨full, false, List.prefix_rfl, fun _ => rfl, hall⟩⟩
  · exact ⟨hsame, .inr ⟨p, true, hp, by simp, hpart⟩⟩

/-! ## Heads -/

theorem fresh_set (h : Fresh H w) (v : Bytes) :
    Fresh (single contentType v H) { w with client := w.client.onHeader (set contentType v) } := by
  have hcanonical : canonicalHeaderKey contentType = contentType := by decide
  have hvalues : ∀ k, values k (set contentType v w.client.inner.header) = single contentType v H k := by
    intro k
    rw [values_set, hcanonical, single, h.header]
  exact { h with header := hvalues }

theorem meets_setHeader {α : Type} {v : Bytes} {f : Unit → Responding.Run α} {Q : α → World → Prop} (h : Fresh H w)
    (hf : Fresh (single contentType v H) { w with client := w.client.onHeader (set contentType v) } →
      Meets basePath req (f ()) { w with client := w.client.onHeader (set contentType v) } Q) :
    Meets basePath req (op (Op.setHeader contentType v) >>= f) w Q := by
  refine spec_op h.isSome fun r w' he => ?_
  cases he
  exact hf (fresh_set h v)

theorem meets_setStatus {α : Type} {s : Nat} {f : Unit → Responding.Run α} {Q : α → World → Prop} (h : Fresh H w)
    (hs : IsFinal s ∨ w.reading = true)
    (hf : ∀ w', SameUpstream w w' → Sends s H [] false w' → Meets basePath req (f ()) w' Q) :
    Meets basePath req (op (Op.setStatus s) >>= f) w Q := by
  refine spec_op ⟨h.isSome, hs⟩ fun r w' he => ?_
  obtain ⟨hs, rfl⟩ := he
  exact hf _ ⟨rfl, rfl⟩ (sends_setStatus h hs)

/-- A write behind the head, whose error nobody reads. -/
theorem meets_lastWrite {s : Nat} {c : Bytes} (h : Sends s H [] false w) :
    Meets basePath req (write c >>= fun _ => pure ()) w fun _ w' => SameUpstream w w' ∧ Received ⟨s, H, c⟩ w' := by
  refine meets_bind (meets_write c h) fun r w' hw => ?_
  obtain ⟨hsame, ⟨-, -, hall⟩ | ⟨-, p, hp, -, hpart⟩⟩ := hw
  · exact ⟨hsame, .inr ⟨c, false, List.prefix_rfl, fun _ => rfl, hall⟩⟩
  · exact ⟨hsame, .inr ⟨p, true, hp, by simp, hpart⟩⟩

theorem meets_writeOpenAIError {status : Nat} (hs : IsFinal status) (typ code : Text) (msg : Bytes)
    (h : Fresh noHeader w) :
    Meets basePath req (Responding.writeOpenAIError status typ code msg) w
      fun _ w' => SameUpstream w w' ∧ Received (errorFull status typ code msg) w' := by
  refine meets_setHeader h fun h' => meets_setStatus h' (.inl hs) fun w' hsame hsends => ?_
  exact meets_mono (meets_lastWrite hsends) fun _ w'' hw => ⟨.trans ⟨hsame.reading, hsame.answers⟩ hw.1, hw.2⟩

theorem meets_writeProxyError (message : Bytes) (h : Fresh noHeader w) :
    Meets basePath req (Responding.writeProxyError message) w
      fun _ w' => SameUpstream w w' ∧ Received (proxyErrorFull message) w' := by
  unfold Responding.writeProxyError proxyErrorFull
  split
  · exact meets_writeOpenAIError (by decide) _ _ _ h
  · exact meets_writeOpenAIError (by decide) _ _ _ h

/-! ## Headers that cross -/

def withHeader (f : Header → Header) (w : World) : World := { w with client := w.client.onHeader f }

theorem meets_appendValues (name : Text) (vs : List Bytes) (h : w.client.inner.sent.isSome = false) :
    Meets basePath req (appendValues name vs) w fun _ w' => w' = withHeader (addValues name vs) w := by
  induction vs generalizing w with
  | nil => rfl
  | cons v vs ih =>
    refine spec_op h fun r w' he => ?_
    cases he
    exact ih (w := withHeader (add name v) w) h

theorem meets_appendEntries (es : List (Text × List Bytes)) (h : w.client.inner.sent.isSome = false) :
    Meets basePath req (appendEntries es) w
      fun _ w' => w' = withHeader (HttpHeader.addEntries (es.filter fun e => !isHopHeader e.1)) w := by
  induction es generalizing w with
  | nil => rfl
  | cons e es ih =>
    unfold appendEntries
    by_cases he : isHopHeader e.1 = true
    · rw [if_pos he, List.filter_cons_of_neg (by simp [he])]
      exact ih h
    · rw [if_neg he, List.filter_cons_of_pos (by simpa using he)]
      refine meets_bind (meets_appendValues e.1 e.2 h) fun _ w' hw => ?_
      subst hw
      exact ih (w := withHeader (addValues e.1 e.2) w) h

theorem meets_appendResponseHeaders {α : Type} {h : Header} (hh : Canonical h) {f : Unit → Responding.Run α}
    {Q : α → World → Prop} (hw : Fresh noHeader w)
    (hf : ∀ w', SameUpstream w w' → Fresh (crossing h) w' → Meets basePath req (f ()) w' Q) :
    Meets basePath req (appendResponseHeaders h >>= f) w Q := by
  refine meets_bind (Q := fun _ w' => SameUpstream w w' ∧ Fresh (crossing h) w') ?_ fun _ w' hw => hf w' hw.1 hw.2
  refine spec_op trivial fun es w' he => ?_
  obtain ⟨hes, hw'⟩ := he
  rw [hw']
  refine meets_mono (meets_appendEntries es hw.isSome) fun _ w'' hw'' => ?_
  subst hw''
  refine ⟨⟨rfl, rfl⟩, { hw with header := fun k => ?_ }⟩
  have hcopied := values_copied hh hes (fun k => !isHopHeader k) k w.client.inner.header
  refine hcopied.trans ?_
  rw [hw.header, noHeader, List.nil_append, crossing]
  cases isHopHeader k <;> rfl

theorem meets_defaultContentType {resp : Response} (hw : Fresh (crossing resp.header) w) :
    Meets basePath req (defaultContentType resp.header) w
      fun _ w' => SameUpstream w w' ∧ Fresh (passedHeader resp) w' := by
  unfold defaultContentType passedHeader
  split
  · exact meets_setHeader (f := pure) hw fun h => ⟨⟨rfl, rfl⟩, h⟩
  · exact ⟨.refl w, hw⟩

theorem meets_writeHead (resp : Response) (hreading : w.reading = true) (hw : Fresh noHeader w) :
    Meets basePath req (writeHead resp) w
      fun _ w' => SameUpstream w w' ∧ Sends resp.status (passedHeader resp) [] false w' := by
  refine meets_appendResponseHeaders resp.canonical hw fun w₁ h₁ hw₁ => ?_
  refine meets_bind (meets_defaultContentType hw₁) fun _ w₂ h₂ => ?_
  have hreading₂ : w₂.reading = true := (h₁.trans h₂.1).reading.trans hreading
  refine meets_setStatus (f := pure) h₂.2 (.inr hreading₂) fun w₃ h₃ hw₃ => ?_
  exact ⟨(h₁.trans h₂.1).trans h₃, hw₃⟩

/-! ## Answers that are passed on -/

/-- A loop behind the head, whose error nobody reads. -/
theorem meets_lastLoop {s : Nat} (t : List GoStream.Op × Option Bytes) (hreading : w.reading = true)
    (h : Sends s H [] false w) :
    Meets basePath req (playThen t >>= fun _ => pure ()) w
      fun _ w' => SameUpstream w w' ∧ Received ⟨s, H, written t.1⟩ w' :=
  meets_bind (meets_playThen t hreading h) fun _ _ hw => received_took hw

theorem meets_copyFlush {s : Nat} (resp : Response) (hreading : w.reading = true) (h : Sends s H [] false w) :
    Meets basePath req (copyFlush resp.last resp.ending resp.chunks >>= fun _ => pure ()) w
      fun _ w' => SameUpstream w w' ∧ Received ⟨s, H, resp.body.bytes⟩ w' := by
  have hwritten : resp.body.bytes = written (Proxy.copyFlush true resp.chunks resp.last resp.ending).1 :=
    (Proxy.written_copyFlush _ _ _ _).symm
  rw [copyFlush_eq, hwritten]
  exact meets_lastLoop _ hreading h

theorem meets_writeBody {s : Nat} (path : Text) (resp : Response) (hreading : w.reading = true)
    (h : Sends s H [] false w) :
    Meets basePath req (writeBody path resp) w
      fun _ w' => SameUpstream w w' ∧ Received ⟨s, H, bodyOf path resp⟩ w' := by
  unfold writeBody bodyOf
  by_cases hadapt : shouldAdapt path resp.status = true
  · rw [if_pos hadapt, if_pos hadapt]
    by_cases hstream : isEventStream (first contentType resp.header) = true
    · rw [if_pos hstream, if_pos hstream]
      by_cases hpath : path = responsesPath
      · rw [if_pos hpath, if_pos hpath, copyResponsesSSE_eq]
        exact meets_lastLoop _ hreading h
      · rw [if_neg hpath, if_neg hpath]
        exact meets_copyFlush resp hreading h
    · rw [if_neg hstream, if_neg hstream]
      refine spec_op ⟨hreading, h.broken⟩ fun r w' he => ?_
      rw [he]
      cases resp.ending with
      | failed message => exact ⟨.refl w, .inr ⟨[], false, List.prefix_rfl, fun _ => rfl, h⟩⟩
      | eof => exact meets_lastWrite h
  · rw [if_neg hadapt, if_neg hadapt]
    exact meets_copyFlush resp hreading h

theorem meets_writeUpstreamResponse (path : Text) (resp : Response) (hreading : w.reading = true)
    (hw : Fresh noHeader w) :
    Meets basePath req (Responding.writeUpstreamResponse path resp) w
      fun _ w' => SameUpstream w w' ∧ Received (upstreamFull path resp) w' := by
  unfold Responding.writeUpstreamResponse upstreamFull
  split
  · refine spec_op ⟨hreading, hw.broken⟩ fun r w' he => ?_
    rw [he]
    cases resp.ending with
    | failed message => exact ⟨.refl w, .inl ⟨rfl, rfl, hw⟩⟩
    | eof =>
      simp only
      split
      · exact meets_writeOpenAIError (by decide) _ _ _ hw
      · refine meets_bind (meets_writeHead resp hreading hw) fun _ w₁ h₁ => ?_
        exact meets_mono (meets_lastWrite h₁.2) fun _ w₂ h₂ => ⟨h₁.1.trans h₂.1, h₂.2⟩
  · refine meets_bind (meets_writeHead resp hreading hw) fun _ w₁ h₁ => ?_
    exact meets_mono (meets_writeBody path resp (h₁.1.reading.trans hreading) h₁.2) fun _ w₂ h₂ =>
      ⟨h₁.1.trans h₂.1, h₂.2⟩

/-! ## Calls -/

/-- Between two calls, with these answers to come next. -/
structure Idle (answers : List Answer) (w : World) : Prop where
  reading : w.reading = false
  answers : (List.range answers.length).map w.answers = answers

theorem Idle.head {answer : Answer} {answers : List Answer} (h : Idle (answer :: answers) w) :
    w.answers 0 = answer := by
  have hanswers := h.answers
  rw [List.length_cons, List.range_succ_eq_map, List.map_cons] at hanswers
  exact (List.cons.inj hanswers).1

/-- The world behind a call with this answer. -/
def called (answer : Answer) (w : World) : World :=
  { w with answers := fun n => w.answers (n + 1), reading := Answer.isResponse answer }

theorem Idle.tail {answer : Answer} {answers : List Answer} (h : Idle (answer :: answers) w) {w' : World}
    (hreading : w'.reading = false) (hanswers : w'.answers = (called answer w).answers) : Idle answers w' := by
  have htail := h.answers
  rw [List.length_cons, List.range_succ_eq_map, List.map_cons, List.map_map] at htail
  refine ⟨hreading, ?_⟩
  rw [hanswers]
  exact (List.cons.inj htail).2

theorem meets_proxyDo {α : Type} {headers : Header} (hh : Canonical headers)
    (hheaders : ∀ k, values k headers = values k req.header) {body : Bytes} {answer : Answer} {answers : List Answer}
    (hidle : Idle (answer :: answers) w) (hbroken : w.client.inner.broken = false) {f : Answer → Responding.Run α}
    {Q : α → World → Prop} (hf : Meets basePath req (f answer) (called answer w) Q) :
    Meets basePath req (proxyDo basePath req headers body >>= f) w Q := by
  refine spec_op trivial fun es w₁ he => ?_
  obtain ⟨hes, he⟩ := he
  rw [he]
  have hforwards : Forwards basePath req
      ⟨req.method, joinPath basePath req.path, req.rawQuery, copyHeaders [] es, body⟩ := by
    refine ⟨rfl, rfl, rfl, fun k => ?_⟩
    have hcopied := values_copied hh hes (fun k => !isHopHeader k) k []
    refine hcopied.trans ?_
    rw [values_nil, List.nil_append, hheaders]
    cases isHopHeader k <;> rfl
  refine spec_op ⟨hidle.reading, hbroken, hforwards⟩ fun a w₂ he => ?_
  obtain ⟨ha, rfl⟩ := he
  obtain rfl : a = answer := ha.trans hidle.head
  exact hf

theorem Received.of_client {f : Full} {w' : World} (h : Received f w) (hc : w'.client = w.client) : Received f w' := by
  obtain ⟨client, reading, answers⟩ := w
  obtain ⟨client', reading', answers'⟩ := w'
  cases hc
  rcases h with ⟨hstatus, hbody, hfresh⟩ | ⟨p, broken, hp, hall, hsends⟩
  · exact .inl ⟨hstatus, hbody, { hfresh with }⟩
  · exact .inr ⟨p, broken, hp, hall, { hsends with }⟩

/-- An answer that is passed on, and then closed. -/
theorem meets_passed (path : Text) (resp : Response) (hreading : w.reading = true) (hw : Fresh noHeader w) :
    Meets basePath req (Responding.writeUpstreamResponse path resp >>= fun _ => op Op.close) w
      fun _ w' => w'.reading = false ∧ Received (upstreamFull path resp) w' := by
  refine meets_bind (meets_writeUpstreamResponse path resp hreading hw) fun _ w₁ h₁ => ?_
  refine spec_op (f := pure) (h₁.1.reading.trans hreading) fun r w₂ he => ?_
  rw [he]
  exact ⟨rfl, h₁.2.of_client rfl⟩

theorem meets_refused {p : Responding.Run Unit} {f : Full}
    (h : Meets basePath req p w fun _ w' => SameUpstream w w' ∧ Received f w') (hreading : w.reading = false) :
    Meets basePath req p w fun _ w' => w'.reading = false ∧ Received f w' :=
  meets_mono h fun _ _ hw => ⟨hw.1.reading.trans hreading, hw.2⟩

theorem fresh_of_client {w' : World} (h : Fresh H w) (hc : w'.client = w.client) : Fresh H w' := by
  obtain ⟨client, reading, answers⟩ := w
  obtain ⟨client', reading', answers'⟩ := w'
  cases hc
  exact { h with }

theorem meets_writeAggregate (path : Text) {firstHeader : Header} (hfirst : Canonical firstHeader) (bodies : List Bytes)
    (hw : Fresh noHeader w) :
    Meets basePath req (writeAggregate jsonError path firstHeader bodies) w
      fun _ w' => SameUpstream w w' ∧ Received (aggregateFull jsonError path firstHeader bodies) w' := by
  unfold writeAggregate aggregateFull
  cases aggregateNChoiceBodies jsonError bodies with
  | error message => exact meets_writeOpenAIError (by decide) _ _ _ hw
  | ok body =>
    refine meets_appendResponseHeaders hfirst hw fun w₁ h₁ hw₁ => ?_
    refine meets_setHeader hw₁ fun hw₂ => meets_setStatus hw₂ (.inl (by decide)) fun w₃ h₃ hw₃ => ?_
    exact meets_mono (meets_lastWrite hw₃) fun _ w₄ h₄ => ⟨h₁.trans (.trans ⟨h₃.reading, h₃.answers⟩ h₄.1), h₄.2⟩

/-! ## Streams -/

/-- What a stream that has begun has brought the client, of all that it is about to write. -/
def Adds (s : Nat) (H : Text → List Bytes) (b full : Bytes) (w : World) : Prop :=
  ∃ p broken, p <+: full ∧ (broken = false → p = full) ∧ Sends s H (b ++ p) broken w

theorem adds_append {s : Nat} {b a full : Bytes} (h : Adds s H (b ++ a) full w) : Adds s H b (a ++ full) w := by
  obtain ⟨p, broken, hp, hall, hsends⟩ := h
  refine ⟨a ++ p, broken, (List.prefix_append_right_inj a).mpr hp, fun hb => ?_, ?_⟩
  · rw [hall hb]
  · rwa [← List.append_assoc]

theorem adds_gone {s : Nat} {b p full : Bytes} (hp : p <+: full) (h : Sends s H (b ++ p) true w) : Adds s H b full w :=
  ⟨p, true, hp, by simp, h⟩

/-- An error event reaches the client, or no more of it than the rest. -/
theorem meets_writeSSEError {s : Nat} {b : Bytes} {broken : Bool} (message : Bytes) (h : Sends s H b broken w) :
    Meets basePath req (Responding.writeSSEError message) w fun _ w' => SameUpstream w w' ∧
      ∃ p broken', p <+: written (NChoiceResponse.writeSSEError message) ∧ (broken = true → p = [] ∧ broken' = true) ∧
        (broken' = false → p = written (NChoiceResponse.writeSSEError message)) ∧ Sends s H (b ++ p) broken' w' := by
  have hwritten : written (NChoiceResponse.writeSSEError message) =
      ascii "event: error\ndata: " ++ print (ssePayload message) ++ ascii "\n\n" := List.append_nil _
  rw [hwritten]
  refine meets_bind (meets_write _ h) fun r w₁ h₁ => ?_
  obtain ⟨hsame, ⟨-, hlive, hall⟩ | ⟨-, p, hp, hgone, hpart⟩⟩ := h₁
  · refine spec_op (f := pure) hall.isSome fun _ w₂ h₂ => ?_
    rw [h₂]
    exact ⟨⟨hsame.reading, hsame.answers⟩, _, false, List.prefix_rfl, by simp [hlive], fun _ => rfl, sends_flush hall⟩
  · refine spec_op (f := pure) hpart.isSome fun _ w₂ h₂ => ?_
    rw [h₂]
    exact ⟨⟨hsame.reading, hsame.answers⟩, p, true, hp, fun hb => ⟨hgone hb, rfl⟩, by simp, sends_flush hpart⟩

/-- An error event ends a stream. -/
theorem meets_lastSSEError {s : Nat} {b : Bytes} (message : Bytes) (h : Sends s H b false w) :
    Meets basePath req (Responding.writeSSEError message) w
      fun _ w' => SameUpstream w w' ∧ Adds s H b (written (NChoiceResponse.writeSSEError message)) w' := by
  refine meets_mono (meets_writeSSEError message h) fun _ w' hw => ?_
  obtain ⟨hsame, p, broken, hp, -, hall, hsends⟩ := hw
  exact ⟨hsame, p, broken, hp, hall, hsends⟩

/-- Behind a failed write, an error event brings nothing. -/
theorem meets_lostSSEError {s : Nat} {b : Bytes} (message : Bytes) (h : Sends s H b true w) :
    Meets basePath req (Responding.writeSSEError message) w fun _ w' => SameUpstream w w' ∧ Sends s H b true w' := by
  refine meets_mono (meets_writeSSEError message h) fun _ w' hw => ?_
  obtain ⟨hsame, p, broken, -, hgone, -, hsends⟩ := hw
  obtain ⟨rfl, rfl⟩ := hgone rfl
  rw [List.append_nil] at hsends
  exact ⟨hsame, hsends⟩

/-- What one copied stream and those behind it bring. -/
def copiedThen (copied : List GoStream.Op × Option Bytes) (rest : List GoStream.Op) : Bytes :=
  match copied.2 with
  | some err => written copied.1 ++ written (NChoiceResponse.writeSSEError err)
  | none => written copied.1 ++ written rest

theorem meets_copied {s : Nat} {b : Bytes} (copied : List GoStream.Op × Option Bytes) (rest : List GoStream.Op)
    {next : Responding.Run Unit} (hreading : w.reading = true) (hw : Sends s H b false w)
    (hnext : copied.2 = none → ∀ w', w'.reading = false → w'.answers = w.answers →
      Sends s H (b ++ written copied.1) false w' →
      Meets basePath req next w' fun _ w'' => w''.reading = false ∧
        Adds s H (b ++ written copied.1) (written rest) w'') :
    Meets basePath req (playThen copied >>= endCopy next) w
      fun _ w' => w'.reading = false ∧ Adds s H b (copiedThen copied rest) w' := by
  refine meets_bind (meets_playThen copied hreading hw) fun err w₁ h₁ => ?_
  obtain ⟨hsame, h₁⟩ := h₁
  have hreading₁ : w₁.reading = true := hsame.reading.trans hreading
  refine spec_op hreading₁ fun _ w₂ h₂ => ?_
  rw [h₂]
  rcases h₁ with ⟨rfl, hall⟩ | ⟨hsome, p, hp, hpart⟩
  · refine spec_op hall.isSome fun _ w₃ h₃ => ?_
    rw [h₃]
    have hw₃ : Sends s H (b ++ written copied.1) false
        { w₁ with reading := false, client := w₁.client.flush } := { sends_flush hall with }
    unfold copiedThen
    cases herr : copied.2 with
    | some e =>
      refine meets_mono (meets_lastSSEError e hw₃) fun _ w₄ h₄ => ?_
      exact ⟨h₄.1.reading, adds_append h₄.2⟩
    | none =>
      refine meets_mono (hnext herr _ rfl hsame.answers hw₃) fun _ w₄ h₄ => ?_
      exact ⟨h₄.1, adds_append h₄.2⟩
  · refine spec_op hpart.isSome fun _ w₃ h₃ => ?_
    rw [h₃]
    have hw₃ : Sends s H (b ++ p) true { w₁ with reading := false, client := w₁.client.flush } :=
      { sends_flush hpart with }
    have hfull : p <+: copiedThen copied rest := by
      unfold copiedThen
      split <;> exact hp.trans (List.prefix_append _ _)
    obtain ⟨e, rfl⟩ := Option.isSome_iff_exists.mp hsome
    refine meets_mono (meets_lostSSEError e hw₃) fun _ w₄ h₄ => ?_
    exact ⟨h₄.1.reading, adds_gone hfull h₄.2⟩

variable (jsonError) in
theorem written_writeStreamFrom (i : Nat) (started : Bool) (resp : Response) (os : List Outcome)
    (hsuccess : isSuccess resp.status = true) :
    written (writeStreamFrom jsonError true i started (outcome (.response resp) :: os)).ops =
      copiedThen (NChoiceSse.copyNChoiceSSE jsonError (Int64.ofNat i) os.isEmpty resp.body)
        (writeStreamFrom jsonError true (i + 1) true os).ops := by
  rw [outcome, writeStreamFrom, if_neg (not_not.mpr hsuccess), copiedThen]
  simp only
  cases (NChoiceSse.copyNChoiceSSE jsonError (Int64.ofNat i) os.isEmpty resp.body).2 with
  | some e => simp [flushOps]
  | none => simp [flushOps]

theorem streamFull_failed (path message) (answers : List Answer) :
    streamFull jsonError path (.failed message :: answers) = proxyErrorFull message := by
  unfold proxyErrorFull
  simp only [streamFull, List.map_cons, outcome, NChoiceResponse.writeNChoiceStreamResponse, writeStreamFrom,
    Bool.false_eq_true, not_false_iff, if_true, NChoiceResponse.writeProxyError, streamHeader]
  split <;> simp [NChoiceResponse.writeOpenAIError, errorFull]

/-- On the paths of completions an error response of the first call is that of a single call. -/
theorem streamFull_refused {path : Text} (hpath : shouldInspectError path = true) {resp : Response}
    (hsuccess : isSuccess resp.status ≠ true) (answers : List Answer) :
    streamFull jsonError path (.response resp :: answers) = upstreamFull path resp := by
  have hadapt : shouldAdapt path resp.status ≠ true := by simp [shouldAdapt, hsuccess]
  have hbody : bodyOf path resp = resp.body.bytes := by rw [bodyOf, if_neg hadapt]
  have hheader : streamHeader path (.response resp :: answers) = (upstreamFull path resp).header := by
    rw [streamHeader, if_pos hsuccess]
  simp only [streamFull, hheader, List.map_cons, outcome, NChoiceResponse.writeNChoiceStreamResponse, writeStreamFrom,
    hsuccess, not_false_iff, if_true, Bool.false_eq_true, NChoiceResponse.writeUpstreamResponse, upstreamFull, hpath,
    and_true, hbody]
  have hending : resp.body.ending = resp.ending := rfl
  by_cases herror : 400 ≤ resp.status
  · simp only [if_pos herror, hending]
    cases resp.ending with
    | failed message => rfl
    | eof =>
      simp only
      split
      · simp only [NChoiceResponse.writeOpenAIError, errorFull, written_write, written_nil, List.append_nil,
          Option.getD_some]
        rfl
      · simp
  · simp only [if_neg herror]
    have hcopied : written (Proxy.copyFlush true [] resp.body.bytes resp.body.ending).1 = resp.body.bytes :=
      Proxy.written_copyFlush true [] resp.body.bytes resp.body.ending
    simp [hcopied]

theorem streamFull_started {path : Text} {resp : Response} (hsuccess : isSuccess resp.status = true)
    (answers : List Answer) :
    streamFull jsonError path (.response resp :: answers) =
      ⟨200, single contentType streamContentType (crossing resp.header),
        copiedThen (NChoiceSse.copyNChoiceSSE jsonError (Int64.ofNat 0) (answers.map outcome).isEmpty resp.body)
          (writeStreamFrom jsonError true 1 true (answers.map outcome)).ops⟩ := by
  have hbody := written_writeStreamFrom jsonError 0 false resp (answers.map outcome) hsuccess
  have hstatus : (writeStreamFrom jsonError true 0 false (outcome (.response resp) :: answers.map outcome)).status =
      some 200 := by
    rw [outcome, writeStreamFrom, if_neg (not_not.mpr hsuccess)]
    simp only
    split <;> rfl
  simp only [streamFull, NChoiceResponse.writeNChoiceStreamResponse, List.map_cons, hbody, hstatus, streamHeader,
    if_neg (not_not.mpr hsuccess), Option.getD_some]

theorem received_of_adds {f : Full} (h : Adds f.status f.header [] f.body w) : Received f w := by
  obtain ⟨p, broken, hp, hall, hsends⟩ := h
  exact .inr ⟨p, broken, hp, hall, hsends⟩

theorem meets_startStream (resp : Response) (hw : Fresh noHeader w) :
    Meets basePath req (startStream false resp.header) w fun _ w' => SameUpstream w w' ∧
      Sends 200 (single contentType streamContentType (crossing resp.header)) [] false w' := by
  refine meets_appendResponseHeaders resp.canonical hw fun w₁ h₁ hw₁ => ?_
  refine meets_setHeader hw₁ fun hw₂ => meets_setStatus (f := pure) hw₂ (.inl (by decide)) fun w₃ h₃ hw₃ => ?_
  exact ⟨h₁.trans ⟨h₃.reading, h₃.answers⟩, hw₃⟩

section Calls

variable {headers : Header} (hh : Canonical headers) (hheaders : ∀ k, values k headers = values k req.header)
include hh hheaders

/-- One call, and its answer. -/
theorem meets_single (path : Text) (body : Bytes) {answer : Answer} {answers : List Answer}
    (hidle : Idle (answer :: answers) w) (hw : Fresh noHeader w) :
    Meets basePath req (proxyDo basePath req headers body >>= writeAnswer path) w
      fun _ w' => w'.reading = false ∧ Received (singleFull path answer) w' := by
  refine meets_proxyDo hh hheaders hidle hw.broken ?_
  cases answer with
  | failed message => exact meets_refused (meets_writeProxyError message (fresh_of_client hw rfl)) rfl
  | response resp => exact meets_passed path resp rfl (fresh_of_client hw rfl)

/-! ## Several calls -/

variable (jsonError)

theorem meets_writeNChoiceFrom (path : Text) (firstHeader : Option Header)
    (hfirst : ∀ h ∈ firstHeader, Canonical h) (bodies rest : List Bytes) {answers : List Answer}
    (hlength : answers.length = rest.length) (hidle : Idle answers w) (hw : Fresh noHeader w) :
    Meets basePath req (writeNChoiceFrom jsonError (proxyDo basePath req headers) path firstHeader bodies rest) w
      fun _ w' => w'.reading = false ∧ Received (nChoiceFull jsonError path firstHeader bodies answers) w' := by
  induction rest generalizing w firstHeader bodies answers with
  | nil =>
    obtain rfl := List.length_eq_zero_iff.mp hlength
    have hcanonical : Canonical (firstHeader.getD []) := by
      cases firstHeader with
      | none => exact canonical_nil
      | some h => exact hfirst h rfl
    exact meets_refused (meets_writeAggregate path hcanonical bodies hw) hidle.reading
  | cons body rest ih =>
    cases answers with
    | nil => simp at hlength
    | cons answer answers =>
      have hlength' : answers.length = rest.length := Nat.succ.inj hlength
      refine meets_proxyDo hh hheaders hidle hw.broken ?_
      cases answer with
      | failed message => exact meets_refused (meets_writeProxyError message (fresh_of_client hw rfl)) rfl
      | response resp =>
        simp only [nChoiceFull]
        by_cases hsuccess : isSuccess resp.status = true
        · rw [if_neg (not_not.mpr hsuccess), if_neg (not_not.mpr hsuccess)]
          refine spec_op ⟨rfl, hw.broken⟩ fun _ w₁ h₁ => ?_
          rw [h₁]
          refine spec_op rfl fun _ w₂ h₂ => ?_
          rw [h₂]
          cases resp.ending with
          | failed message =>
            exact meets_refused (meets_writeOpenAIError (by decide) _ _ _ (fresh_of_client hw rfl)) rfl
          | eof =>
            refine ih (some (firstHeader.getD resp.header)) ?_ _ hlength' (hidle.tail rfl rfl) (fresh_of_client hw rfl)
            intro h hmem
            cases hmem
            cases firstHeader with
            | none => exact resp.canonical
            | some h => exact hfirst h rfl
        · rw [if_pos hsuccess, if_pos hsuccess]
          exact meets_passed path resp rfl (fresh_of_client hw rfl)

/-- The rest of a stream that has begun. -/
theorem meets_streamFrom {s : Nat} (path : Text) (i : Nat) {b : Bytes} (rest : List Bytes) {answers : List Answer}
    (hlength : answers.length = rest.length) (hidle : Idle answers w) (hw : Sends s H b false w) :
    Meets basePath req (writeNChoiceStreamFrom jsonError (proxyDo basePath req headers) path i true rest) w
      fun _ w' => w'.reading = false ∧
        Adds s H b (written (writeStreamFrom jsonError true i true (answers.map outcome)).ops) w' := by
  induction rest generalizing w i b answers with
  | nil =>
    obtain rfl := List.length_eq_zero_iff.mp hlength
    exact ⟨hidle.reading, [], false, List.prefix_rfl, fun _ => rfl, by rwa [List.append_nil]⟩
  | cons body rest ih =>
    cases answers with
    | nil => simp at hlength
    | cons answer answers =>
      have hlength' : answers.length = rest.length := Nat.succ.inj hlength
      refine meets_proxyDo hh hheaders hidle hw.broken ?_
      cases answer with
      | failed message =>
        refine meets_mono (meets_lastSSEError message { hw with }) fun _ w₁ h₁ => ?_
        exact ⟨h₁.1.reading, by simpa [outcome, writeStreamFrom, flushOps] using h₁.2⟩
      | response resp =>
        simp only
        by_cases hsuccess : isSuccess resp.status = true
        · rw [if_neg (not_not.mpr hsuccess), List.map_cons, written_writeStreamFrom jsonError i true resp _ hsuccess,
            copyNChoiceSSE_eq]
          have hempty : rest.isEmpty = (answers.map outcome).isEmpty := by
            rw [Bool.eq_iff_iff]
            simp [List.isEmpty_iff, ← List.length_eq_zero_iff, hlength']
          rw [hempty]
          exact meets_copied _ _ rfl { hw with } fun _ w₁ hr ha hw₁ => ih (i + 1) hlength' (hidle.tail hr ha) hw₁
        · rw [if_pos hsuccess]
          refine spec_op ⟨rfl, hw.broken⟩ fun _ w₁ h₁ => ?_
          rw [h₁]
          refine spec_op rfl fun _ w₂ h₂ => ?_
          rw [h₂]
          refine meets_mono (meets_lastSSEError resp.body.bytes { hw with }) fun _ w₃ h₃ => ?_
          exact ⟨h₃.1.reading, by simpa [outcome, writeStreamFrom, flushOps, hsuccess] using h₃.2⟩

/-- The stream from its first call on. -/
theorem meets_stream {path : Text} (hpath : shouldInspectError path = true) (bodies : List Bytes)
    {answers : List Answer} (hlength : answers.length = bodies.length) (hidle : Idle answers w)
    (hw : Fresh noHeader w) :
    Meets basePath req (writeNChoiceStreamFrom jsonError (proxyDo basePath req headers) path 0 false bodies) w
      fun _ w' => w'.reading = false ∧ Received (streamFull jsonError path answers) w' := by
  cases bodies with
  | nil =>
    obtain rfl := List.length_eq_zero_iff.mp hlength
    exact ⟨hidle.reading, .inl ⟨rfl, rfl, hw⟩⟩
  | cons body rest =>
    cases answers with
    | nil => simp at hlength
    | cons answer answers =>
      have hlength' : answers.length = rest.length := Nat.succ.inj hlength
      refine meets_proxyDo hh hheaders hidle hw.broken ?_
      cases answer with
      | failed message =>
        rw [streamFull_failed]
        exact meets_refused (meets_writeProxyError message (fresh_of_client hw rfl)) rfl
      | response resp =>
        simp only
        by_cases hsuccess : isSuccess resp.status = true
        · rw [if_neg (not_not.mpr hsuccess)]
          have hempty : rest.isEmpty = (answers.map outcome).isEmpty := by
            rw [Bool.eq_iff_iff]
            simp [List.isEmpty_iff, ← List.length_eq_zero_iff, hlength']
          refine meets_bind (meets_startStream resp (fresh_of_client hw rfl)) fun _ w₁ h₁ => ?_
          obtain ⟨hsame, hw₁⟩ := h₁
          rw [hempty, copyNChoiceSSE_eq]
          rw [streamFull_started hsuccess]
          refine meets_mono (meets_copied _ _ hsame.reading hw₁ fun _ w₂ hr ha hw₂ => ?_) fun _ w₃ h₃ =>
            ⟨h₃.1, received_of_adds h₃.2⟩
          exact meets_streamFrom jsonError hh hheaders path 1 rest hlength'
            (hidle.tail hr (ha.trans hsame.answers)) hw₂
        · rw [if_pos hsuccess, streamFull_refused hpath hsuccess]
          exact meets_passed path resp rfl (fresh_of_client hw rfl)

end Calls

/-! ## All requests -/

variable (jsonError) in
/-- The reply to a request, by the answers to its calls. -/
def replyFull (path : Text) (r : NChoiceRequest) (answers : List Answer) : Full :=
  if 1 < r.n then
    if r.stream then streamFull jsonError path answers else nChoiceFull jsonError path none [] answers
  else
    match answers with
    | [] => ⟨200, noHeader, []⟩
    | answer :: _ => singleFull path answer

/-- How many calls a request makes, if none fails. -/
def callCount (r : NChoiceRequest) : Nat := if 1 < r.n then r.bodies.length else 1

theorem meets_respond {headers : Header} (hh : Canonical headers)
    (hheaders : ∀ k, values k headers = values k req.header) (upstreamBody : Bytes) {r : NChoiceRequest}
    (hpath : 1 < r.n → shouldInspectError req.path = true) {answers : List Answer}
    (hlength : answers.length = callCount r) (hidle : Idle answers w) (hw : Fresh noHeader w) :
    Meets basePath req (respond jsonError basePath req headers upstreamBody r) w
      fun _ w' => w'.reading = false ∧ Received (replyFull jsonError req.path r answers) w' := by
  unfold respond replyFull
  unfold callCount at hlength
  by_cases hn : 1 < r.n
  · rw [if_pos hn] at hlength
    simp only [if_pos hn]
    by_cases hstream : r.stream = true
    · rw [if_pos hstream, if_pos hstream]
      exact meets_stream jsonError hh hheaders (hpath hn) r.bodies hlength hidle hw
    · rw [if_neg hstream, if_neg hstream]
      exact meets_writeNChoiceFrom jsonError hh hheaders req.path none (by simp) [] r.bodies hlength hidle hw
  · rw [if_neg hn] at hlength
    simp only [if_neg hn]
    cases answers with
    | nil => simp at hlength
    | cons answer answers => exact meets_single hh hheaders req.path upstreamBody hidle hw

end InferenceReplies
