import LlamaStack.InferenceReplies
import LlamaStack.InferenceRuns

/-!
# The inference handler and its client

`humaInference` with its responses: the checks of a request, the availability of its model, and
what the client receives, whichever of its writes fail.
-/
namespace InferenceServing

open Effects GoBytes GoJson HttpHeader ModelCatalog RouterManager NChoiceResponse NChoices OpenaiApi Handlers
  Responding ClientResponse InferenceReplies
open GoStream hiding Op

variable (jsonError : Bytes → Bytes) (go : HfDownloader.Library) (cat : Catalog) (cfg : Config) (basePath : Text)

inductive Op where
  | ensure (o : EnsureAvailable.Op)
  | respond (o : Responding.Op)

abbrev Op.Res : Op → Type
  | .ensure o => o.Res
  | .respond o => o.Res

abbrev Run (α : Type) := Prog Op Op.Res α

/-- The handler returns, or it panics and the connection is cut. -/
inductive Ending where
  | returned
  | panicked

/-- A program of responses among all operations. -/
def responding {α : Type} (p : Responding.Run α) : Run α := p.lift Op.respond fun _ r => r

def refuse (status : Nat) (typ code : Text) (msg : Bytes) : Responding.Run Ending := do
  Responding.writeOpenAIError status typ code msg
  return .returned

def writeEnsureError (err : EnsureAvailable.Error) : Responding.Run Ending :=
  match err with
  | .modelNotFound => refuse 404 invalidRequestError "model_not_found".toList (ascii "model is not in catalog")
  | .capabilityMismatch .. => refuse 400 invalidRequestError "model_capability_mismatch".toList err.text
  | .downloadFailed _ => refuse 503 "download_error".toList "download_failed".toList err.text
  | .registryUnknown _ => refuse 503 upstreamError "router_registry_stale".toList err.text
  | .registryStale _ => refuse 503 upstreamError "router_registry_stale".toList err.text
  | .contextDone _ => refuse 503 upstreamError "ensure_available_failed".toList err.text

/-- The calls for a body that passed all checks. -/
def forward (req : Incoming) (headers : Header) (upstreamBody : Bytes) : Responding.Run Ending :=
  match buildNChoiceRequest jsonError req.path upstreamBody with
  | .failed message => refuse 400 invalidRequestError "invalid_request".toList message
  | .panicked => return .panicked
  | .request r => do
    respond jsonError basePath req headers upstreamBody r
    return .returned

/-- The handler behind `EnsureAvailable`. -/
def answer (req : Incoming) (body : Bytes) (err : Option EnsureAvailable.Error) : Responding.Run Ending :=
  match err with
  | some err => writeEnsureError err
  | none => do
    let es ← op (Responding.Op.range req.header)
    match adaptRequestBody req.path body with
    | none => refuse 400 invalidRequestError "invalid_request".toList (jsonError body)
    | some upstreamBody => forward jsonError basePath req (addEntries es []) upstreamBody

def humaInference (req : Incoming) (src : Source) : Run Ending :=
  match readLimited src maxInferenceBodyBytes with
  | .error err => responding (refuse 400 invalidRequestError "invalid_body".toList err)
  | .ok body =>
    match unmarshal (ModelRequest.unmarshalJSON · {}) body with
    | none => responding (refuse 400 invalidRequestError "invalid_json".toList (ascii "request body must be JSON"))
    | some r =>
      if r.model = [] then
        responding (refuse 400 invalidRequestError "missing_model".toList (ascii "request body must include model"))
      else do
        let err ← (EnsureAvailable.ensureAvailable go cat cfg r.model (requiredKind req.path)).lift
          Op.ensure fun _ r => r
        responding (answer jsonError basePath req body err)

/-! ## The replies of the handler -/

/-- The reply to a body that is not good for a call, or the model that it asks for. -/
def check (src : Source) : Except Full Text :=
  match readLimited src maxInferenceBodyBytes with
  | .error err => .error (errorFull 400 invalidRequestError "invalid_body".toList err)
  | .ok body =>
    match unmarshal (ModelRequest.unmarshalJSON · {}) body with
    | none => .error (errorFull 400 invalidRequestError "invalid_json".toList (ascii "request body must be JSON"))
    | some r =>
      if r.model = [] then
        .error (errorFull 400 invalidRequestError "missing_model".toList (ascii "request body must include model"))
      else .ok r.model

def ensureErrorFull (err : EnsureAvailable.Error) : Full :=
  let r := Handlers.writeEnsureError err
  ⟨r.status.getD 200, single contentType jsonContentType noHeader, written r.ops⟩

/-- The answers that a request takes, of those that the upstream will give. -/
def taken (r : NChoiceRequest) (answers : Nat → Answer) : List Answer := (List.range (callCount r)).map answers

/-- The reply to a body that passed all checks; `none` is the panic. -/
def forwardFull (path : Text) (upstreamBody : Bytes) (answers : Nat → Answer) : Option Full :=
  match buildNChoiceRequest jsonError path upstreamBody with
  | .failed message => some (errorFull 400 invalidRequestError "invalid_request".toList message)
  | .panicked => none
  | .request r => some (replyFull jsonError path r (taken r answers))

def answerFull (path : Text) (body : Bytes) (answers : Nat → Answer) : Option EnsureAvailable.Error → Option Full
  | some err => some (ensureErrorFull err)
  | none =>
    match adaptRequestBody path body with
    | none => some (errorFull 400 invalidRequestError "invalid_request".toList (jsonError body))
    | some upstreamBody => forwardFull jsonError path upstreamBody answers

/-! ## Runs -/

variable {basePath : Text} {req : Incoming} {w : World} {jsonError go cat cfg}

theorem inspected_of_choices {path : Text} {body : Bytes} {r : NChoiceRequest}
    (h : buildNChoiceRequest jsonError path body = .request r) (hn : 1 < r.n) : shouldInspectError path = true := by
  by_cases hpath : path ≠ chatCompletionsPath ∧ path ≠ completionsPath
  · rw [buildNChoiceRequest, if_pos hpath] at h
    cases h
    simp at hn
  · rw [not_and_or, not_not, not_not] at hpath
    rcases hpath with rfl | rfl <;> decide

/-- The reply that goes with an ending. -/
def Replied (f : Option Full) (ending : Ending) (w : World) : Prop :=
  w.reading = false ∧ (ending = .returned → ∃ x ∈ f, Received x w)

theorem meets_refuse {status : Nat} (hs : IsFinal status) (typ code : Text) (msg : Bytes)
    (hreading : w.reading = false) (hw : Fresh noHeader w) :
    Meets basePath req (refuse status typ code msg) w (Replied (some (errorFull status typ code msg))) := by
  refine meets_bind (meets_writeOpenAIError hs typ code msg hw) fun _ w' hw' => ?_
  exact ⟨hw'.1.reading.trans hreading, fun _ => ⟨_, rfl, hw'.2⟩⟩

theorem meets_writeEnsureError (err : EnsureAvailable.Error) (hreading : w.reading = false) (hw : Fresh noHeader w) :
    Meets basePath req (writeEnsureError err) w (Replied (some (ensureErrorFull err))) := by
  have hwritten : ∀ status typ code msg,
      (⟨(NChoiceResponse.writeOpenAIError status typ code msg).status.getD 200,
        single contentType jsonContentType noHeader,
        written (NChoiceResponse.writeOpenAIError status typ code msg).ops⟩ : Full) =
        errorFull status typ code msg := by
    intro status typ code msg
    simp only [NChoiceResponse.writeOpenAIError, errorFull, written_write, written_nil, List.append_nil,
      Option.getD_some]
  cases err <;>
    simp only [writeEnsureError, ensureErrorFull, Handlers.writeEnsureError, hwritten] <;>
    exact meets_refuse (by decide) _ _ _ hreading hw

theorem meets_forward {headers : Header} (hh : Canonical headers)
    (hheaders : ∀ k, values k headers = values k req.header) (upstreamBody : Bytes) (hreading : w.reading = false)
    (hw : Fresh noHeader w) :
    Meets basePath req (forward jsonError basePath req headers upstreamBody) w
      (Replied (forwardFull jsonError req.path upstreamBody w.answers)) := by
  unfold forward forwardFull
  cases hbuilt : buildNChoiceRequest jsonError req.path upstreamBody with
  | failed message => exact meets_refuse (by decide) _ _ _ hreading hw
  | panicked => exact ⟨hreading, by simp⟩
  | request r =>
    have hlength : (taken r w.answers).length = callCount r := by rw [taken, List.length_map, List.length_range]
    have hidle : Idle (taken r w.answers) w := ⟨hreading, by rw [hlength, taken]⟩
    refine meets_bind (meets_respond hh hheaders upstreamBody (inspected_of_choices hbuilt) hlength hidle hw)
      fun _ w' hw' => ?_
    exact ⟨hw'.1, fun _ => ⟨_, rfl, hw'.2⟩⟩

theorem meets_answer (body : Bytes) (err : Option EnsureAvailable.Error) (hreading : w.reading = false)
    (hw : Fresh noHeader w) :
    Meets basePath req (answer jsonError basePath req body err) w
      (Replied (answerFull jsonError req.path body w.answers err)) := by
  cases err with
  | some err => exact meets_writeEnsureError err hreading hw
  | none =>
    refine spec_op trivial fun es w' he => ?_
    obtain ⟨hes, hw'⟩ := he
    rw [hw', answerFull]
    have hkeys : ∀ e ∈ es, canonicalHeaderKey e.1 = e.1 := fun e he => req.canonical.keys e (hes.mem_iff.mp he)
    have hvalues : ∀ k, values k (addEntries es []) = values k req.header := by
      intro k
      have hcopied := values_copied req.canonical hes (fun _ => true) k []
      rwa [List.filter_true, values_nil, List.nil_append, if_pos rfl] at hcopied
    cases adaptRequestBody req.path body with
    | none => exact meets_refuse (by decide) _ _ _ hreading hw
    | some upstreamBody =>
      exact meets_forward (canonical_addEntries hkeys canonical_nil) hvalues upstreamBody hreading hw

/-! ## The whole handler -/

/-- Operations of `EnsureAvailable` leave the client and the upstream alone. -/
def serve : Meaning Op Op.Res World
  | w, .ensure _, _, w' => w' = w
  | w, .respond o, r, w' => effect w o r w'

/-- The model is made available before anything is sent or asked of the upstream. -/
def AllowedOp (basePath : Text) (req : Incoming) (w : World) : Op → Prop
  | .ensure _ => w.reading = false ∧ w.client.inner.sent.isSome = false
  | .respond o => Allowed basePath req w o

theorem spec_responding {α : Type} {p : Responding.Run α} {Q : α → World → Prop} (h : Meets basePath req p w Q) :
    Spec serve (AllowedOp basePath req) Q (responding p) w := by
  have hlift : Spec serve (fun w o' => True ∧ ∃ o, o' = Op.respond o ∧ Allowed basePath req w o)
      (fun a w => True ∧ Q a w) (responding p) w :=
    spec_lift (F := fun _ => True) (fun _ _ _ _ _ he => ⟨he, trivial⟩) h trivial
  refine spec_mono ?_ (fun _ _ hQ => hQ.2) hlift
  rintro s _ ⟨-, o, rfl, hG⟩
  exact hG

theorem spec_ensure {α : Type} (p : EnsureAvailable.Run α) (hreading : w.reading = false) (hw : Fresh noHeader w) :
    Spec serve (AllowedOp basePath req) (fun _ w' => w' = w) (p.lift Op.ensure fun _ r => r) w := by
  induction p with
  | done a => rfl
  | perform o next ih =>
    refine ⟨⟨hreading, hw.isSome⟩, fun r w' he => ?_⟩
    cases he
    exact ih r

variable (jsonError go cat cfg basePath) in
/-- The model of a request is made available, and then it is answered; or it is refused at once. -/
theorem humaInference_cases (req : Incoming) (src : Source) :
    (∃ code msg, check src = .error (errorFull 400 invalidRequestError code msg) ∧
      humaInference jsonError go cat cfg basePath req src =
        responding (refuse 400 invalidRequestError code msg)) ∨
    ∃ model, check src = .ok model ∧ humaInference jsonError go cat cfg basePath req src =
      (EnsureAvailable.ensureAvailable go cat cfg model (requiredKind req.path)).lift Op.ensure (fun _ r => r) >>=
        fun err => responding (answer jsonError basePath req src.bytes err) := by
  unfold check humaInference
  cases hread : readLimited src maxInferenceBodyBytes with
  | error err => exact .inl ⟨_, _, rfl, rfl⟩
  | ok body =>
    obtain ⟨rfl, -, -⟩ := @InferenceRuns.readLimited_ok ⟨req.path, src⟩ _ hread
    simp only
    cases unmarshal (ModelRequest.unmarshalJSON · {}) src.bytes with
    | none => exact .inl ⟨_, _, rfl, rfl⟩
    | some r =>
      simp only
      by_cases hne : r.model = []
      · rw [if_pos hne, if_pos hne]
        exact .inl ⟨_, _, rfl, rfl⟩
      · rw [if_neg hne, if_neg hne]
        exact .inr ⟨_, rfl, rfl⟩

theorem check_of_decodes {req : Request} {r : ModelRequest} (hd : AllowlistEnforcement.Decodes req (some r))
    (hne : r.model ≠ []) : check req.body = .ok r.model := by
  obtain ⟨hlimit, hend, hr⟩ := hd
  have hread : readLimited req.body maxInferenceBodyBytes = .ok req.body.bytes := by
    rw [readLimited, if_neg (Nat.not_lt.mpr hlimit), hend]
  unfold check
  simp only [hread, hr, if_neg hne]

/-- Before a request: a new response, no open body. -/
def start (answers : Nat → Answer) : World := { answers := answers }

theorem fresh_start (answers : Nat → Answer) : Fresh noHeader (start answers) := ⟨rfl, fun _ => rfl, rfl, rfl, rfl, rfl⟩

theorem spec_humaInference (src : Source) (answers : Nat → Answer) :
    Spec serve (AllowedOp basePath req) (fun _ w => w.reading = false)
      (humaInference jsonError go cat cfg basePath req src) (start answers) := by
  rcases humaInference_cases jsonError go cat cfg basePath req src with
    ⟨code, msg, -, heq⟩ | ⟨model, -, heq⟩
  · rw [heq]
    exact spec_mono (fun _ _ hG => hG) (fun _ _ hw => hw.1)
      (spec_responding (meets_refuse (by decide) _ code msg rfl (fresh_start answers)))
  · rw [heq]
    refine spec_bind (spec_mono (fun _ _ hG => hG) (fun err w hw => ?_) (spec_ensure _ rfl (fresh_start answers)))
    rw [hw]
    exact spec_mono (fun _ _ hG => hG) (fun _ _ hw => hw.1)
      (spec_responding (meets_answer src.bytes err rfl (fresh_start answers)))

/-- Events of `EnsureAvailable` among all events. -/
def ensured (es : List (Event EnsureAvailable.Op EnsureAvailable.Op.Res)) : List (Event Op Op.Res) :=
  es.map fun e => ⟨.ensure e.op, e.res⟩

theorem run_ensure {α : Type} {p : EnsureAvailable.Run α} {t : List (Event Op Op.Res)} {q : Run α} {w' : World}
    (h : Effects.Run serve (p.lift Op.ensure fun _ r => r) w t q w') :
    w' = w ∧ ∃ es p', t = ensured es ∧ q = p'.lift Op.ensure (fun _ r => r) ∧
      Effects.Run Interleaving.free p () es p' () := by
  induction p generalizing w t with
  | done a =>
    obtain ⟨rfl, rfl, rfl⟩ := run_done h
    exact ⟨rfl, [], .done a, rfl, rfl, .refl _ _⟩
  | perform o next ih =>
    cases h with
    | refl => exact ⟨rfl, [], .perform o next, rfl, rfl, .refl _ _⟩
    | @step _ _ r _ _ _ _ _ he hrest =>
      obtain ⟨hw, es, p', rfl, hq, hes⟩ := ih r hrest
      exact ⟨hw.trans he, ⟨o, r⟩ :: es, p', rfl, hq, .step trivial hes⟩

theorem mem_ensured {es : List (Event EnsureAvailable.Op EnsureAvailable.Op.Res)} {e : Event Op Op.Res}
    (h : e ∈ ensured es) : ∃ o, e.op = .ensure o := by
  obtain ⟨e', -, rfl⟩ := List.mem_map.mp h
  exact ⟨e'.op, rfl⟩

/-- What comes behind `EnsureAvailable` is behind all of it. -/
theorem behind_ensured {es : List (Event EnsureAvailable.Op EnsureAvailable.Op.Res)} {t t₁ t₂ : List (Event Op Op.Res)}
    {e : Event Op Op.Res} {o : Responding.Op} (h : ensured es ++ t = t₁ ++ e :: t₂) (he : e.op = .respond o) :
    ∃ t₃, t₁ = ensured es ++ t₃ ∧ t = t₃ ++ e :: t₂ := by
  rcases List.append_eq_append_iff.mp h with ⟨t₃, h₁, h₂⟩ | ⟨t₃, h₁, h₂⟩
  · exact ⟨t₃, h₁, h₂⟩
  · cases t₃ with
    | nil => exact ⟨[], by rw [h₁, List.append_nil, List.append_nil], h₂.symm⟩
    | cons e' t₃ =>
      obtain ⟨rfl, -⟩ := List.cons.inj h₂
      obtain ⟨o', ho'⟩ := mem_ensured (h₁ ▸ List.mem_append_right t₁ List.mem_cons_self)
      cases he.symm.trans ho'

/-! ## Order -/

/-- The model that a body names. -/
def Names (path : Text) (src : Source) (model : Text) : Prop :=
  model ≠ [] ∧ ∃ r, AllowlistEnforcement.Decodes ⟨path, src⟩ (some r) ∧ r.model = model

/-- `EnsureAvailable` has returned for the model that the body names. -/
def Asked (go : HfDownloader.Library) (cat : Catalog) (cfg : Config) (path : Text) (src : Source)
    (err : Option EnsureAvailable.Error) (t : List (Event Op Op.Res)) : Prop :=
  ∃ model es t', Names path src model ∧ t = ensured es ++ t' ∧
    Effects.Run Interleaving.free (EnsureAvailable.ensureAvailable go cat cfg model (requiredKind path)) () es
      (.done err) ()

/-- An operation comes in its order: it is allowed; the model that the body names has been asked
for before anything goes out; and it is available before a call is made. -/
structure Orderly (go : HfDownloader.Library) (cat : Catalog) (cfg : Config) (basePath : Text) (req : Incoming)
    (src : Source) (t : List (Event Op Op.Res)) (w : World) (o : Op) : Prop where
  allowed : AllowedOp basePath req w o
  asked : ∀ o', o = .respond o' → (∀ model, ¬ Names req.path src model) ∨ ∃ err, Asked go cat cfg req.path src err t
  available : ∀ u, o = .respond (.call u) → Asked go cat cfg req.path src none t

theorem names_of_check (path : Text) {src : Source} {model : Text} (h : check src = .ok model) :
    Names path src model := by
  unfold check at h
  cases hread : readLimited src maxInferenceBodyBytes with
  | error err =>
    rw [hread] at h
    cases h
  | ok body =>
    obtain ⟨rfl, hlimit, hend⟩ := @InferenceRuns.readLimited_ok ⟨path, src⟩ _ hread
    simp only [hread] at h
    cases hr : unmarshal (ModelRequest.unmarshalJSON · {}) src.bytes with
    | none =>
      rw [hr] at h
      cases h
    | some r =>
      simp only [hr] at h
      split at h
      · cases h
      · rename_i hne
        cases h
        exact ⟨hne, r, ⟨hlimit, hend, hr⟩, rfl⟩

theorem not_names_of_check {path : Text} {src : Source} {f : Full} (h : check src = .error f) (model : Text) :
    ¬ Names path src model := by
  rintro ⟨hne, r, hd, rfl⟩
  rw [check_of_decodes hd hne] at h
  cases h

/-- No operation of these programs is a call. -/
def Quiet (_ : World) (o : Op) : Prop := ∀ u, o ≠ .respond (.call u)

theorem quiet_refuse (status : Nat) (typ code : Text) (msg : Bytes) (w : World) :
    Spec serve Quiet (fun _ _ => True) (responding (refuse status typ code msg)) w :=
  ⟨nofun, fun _ _ _ => ⟨nofun, fun _ _ _ => ⟨nofun, fun _ _ _ => trivial⟩⟩⟩

theorem quiet_writeEnsureError (err : EnsureAvailable.Error) (w : World) :
    Spec serve Quiet (fun _ _ => True) (responding (writeEnsureError err)) w := by
  cases err <;> exact quiet_refuse ..

theorem not_call_of_quiet {p q : Run Ending} {w' : World} {t₁ t₂ : List (Event Op Op.Res)} {e : Event Op Op.Res}
    (h : Spec serve Quiet (fun _ _ => True) p w) (hrun : Effects.Run serve p w (t₁ ++ e :: t₂) q w')
    (u : UpstreamRequest) : e.op ≠ .respond (.call u) := by
  obtain ⟨_, _, _, hquiet⟩ := spec_event h hrun t₁ e t₂ rfl
  exact hquiet u

/-- What has been asked for when the handler turns to its client, and to the upstream. -/
theorem asked_of_run {src : Source} {t₁ t₂ : List (Event Op Op.Res)} {e : Event Op Op.Res} {p : Run Ending} {w' : World}
    (hrun : Effects.Run serve (humaInference jsonError go cat cfg basePath req src) w (t₁ ++ e :: t₂) p w')
    {o : Responding.Op} (he : e.op = .respond o) :
    ((∀ model, ¬ Names req.path src model) ∧ ∀ u, o ≠ .call u) ∨
      ∃ err, Asked go cat cfg req.path src err t₁ ∧ ((∃ u, o = .call u) → err = none) := by
  rcases humaInference_cases jsonError go cat cfg basePath req src with
    ⟨code, msg, hcheck, heq⟩ | ⟨model, hcheck, heq⟩
  · rw [heq] at hrun
    refine .inl ⟨not_names_of_check hcheck, fun u hu => ?_⟩
    exact not_call_of_quiet (quiet_refuse _ _ _ _ _) hrun u (by rw [he, hu])
  · rw [heq] at hrun
    rcases run_bind hrun with ⟨p', hfirst, -⟩ | ⟨err, t, t', w₁, ht, hfirst, hrest⟩
    · obtain ⟨-, es, -, hes, -⟩ := run_ensure hfirst
      obtain ⟨o', ho'⟩ := mem_ensured (hes ▸ List.mem_append_right t₁ List.mem_cons_self)
      cases he.symm.trans ho'
    · obtain ⟨-, es, q, rfl, hq, hes⟩ := run_ensure hfirst
      obtain ⟨t₃, rfl, rfl⟩ := behind_ensured ht.symm he
      cases q with
      | perform o next => cases hq
      | done a =>
        cases hq
        refine .inr ⟨err, ⟨model, es, t₃, names_of_check req.path hcheck, rfl, hes⟩, ?_⟩
        rintro ⟨u, rfl⟩
        cases err with
        | none => rfl
        | some err => exact absurd he (not_call_of_quiet (quiet_writeEnsureError err _) hrest u)

section Sample

open GoFloat64 GoMap InferenceRuns CatalogPaths SingleDownload AllowlistEnforcement SharedFiles DownloaderAtomicity

def sampleIncoming : Incoming := ⟨"POST".toList, embeddingsPath, [], [], HttpHeader.canonical_nil⟩

/-- No call reaches the router. -/
def noRouter : Nat → Answer := fun _ => .failed (ascii "connection refused")

/-- What comes behind the call. -/
def rest (a : Answer) : Responding.Run Ending := writeAnswer embeddingsPath a >>= fun _ => pure Ending.returned

theorem run_calls (body : Bytes) : ∃ t u, Effects.Run serve (responding (answer id [] sampleIncoming body none))
    (start noRouter) t (.perform (.respond (.call u)) fun a => responding (rest a)) (start noRouter) := by
  have hadapt : adaptRequestBody sampleIncoming.path body = some body := if_neg (by decide)
  have hbuild : buildNChoiceRequest id sampleIncoming.path body = .request ⟨[body], 1, false⟩ := if_pos (by decide)
  unfold answer
  simp only [hadapt, forward, hbuild, respond]
  exact ⟨_, _, .step ⟨List.Perm.nil, rfl⟩ (.step ⟨List.Perm.nil, rfl⟩ (.refl _ _))⟩

/-- A write to a client that is gone. -/
theorem returns_gone (w : ResponseWriter.Writer) (b : Bytes) : w.Returns b ⟨0, some []⟩ :=
  ⟨Nat.zero_le _, by simp, fun _ => ⟨rfl, rfl⟩⟩

/-- The client is gone before the first byte of the error. -/
theorem run_noRouter (body : Bytes) : ∃ t w,
    Effects.Run serve (responding (answer id [] sampleIncoming body none)) (start noRouter) t (.done .returned) w := by
  have hproxy : Responding.writeProxyError (ascii "connection refused") =
      Responding.writeOpenAIError 503 upstreamError "router_unavailable".toList (ascii "connection refused") :=
    if_neg (by decide)
  have hwrite : ∀ w : World, ∃ t w', Effects.Run serve (responding (rest (.failed (ascii "connection refused")))) w t
      (.done .returned) w' := by
    intro w
    rw [rest, writeAnswer, hproxy]
    exact ⟨_, _, .step (r := ()) rfl
      (.step (r := ()) ⟨by decide, rfl⟩ (.step ⟨returns_gone _ _, rfl⟩ (.refl _ _)))⟩
  obtain ⟨t, u, hcalls⟩ := run_calls body
  obtain ⟨t', w, hrest⟩ := hwrite (called (.failed (ascii "connection refused")) (start noRouter))
  exact ⟨_, _, hcalls.trans (.step ⟨rfl, rfl⟩ hrest)⟩

theorem lift_ensured {σ α : Type} {E : Meaning EnsureAvailable.Op EnsureAvailable.Op.Res σ}
    {p q : EnsureAvailable.Run α} {s s' : σ} {t : List (Event EnsureAvailable.Op EnsureAvailable.Op.Res)}
    (h : Effects.Run E p s t q s') (w : World) :
    Effects.Run serve (p.lift Op.ensure fun _ r => r) w (ensured t) (q.lift Op.ensure fun _ r => r) w := by
  induction h with
  | refl => exact .refl _ _
  | step _ _ ih => exact .step rfl ih

/-- A request whose model is there. -/
theorem asks_found (inc : Incoming) (src : Source) {cm : Model} {payload : Entries Value}
    (haccepted : Accepted twoModels ⟨inc.path, src⟩ cm) (hpayload : unmarshal decodeMap src.bytes = some payload)
    (hcm : cm ∈ twoModels.models) : ∃ model es s',
    Effects.Run (ModelLocks.effect false)
      (EnsureAvailable.ensureAvailable sampleLibrary twoModels smallConfig model (requiredKind inc.path))
      embeddingRequests.state es (.done none) s' ∧
    humaInference id sampleLibrary twoModels smallConfig [] inc src =
      (EnsureAvailable.ensureAvailable sampleLibrary twoModels smallConfig model (requiredKind inc.path)).lift
        Op.ensure (fun _ r => r) >>= fun err => responding (answer id [] inc src.bytes err) := by
  obtain ⟨r, hd, hne, hb⟩ := modelRequest_of_accepted haccepted hpayload
  have hr : EnsureAvailable.resolve twoModels r.model (requiredKind inc.path) = .ok cm :=
    resolve_of_kind hb haccepted.kind
  have hfound : ∃ es s', Effects.Run (ModelLocks.effect false)
      (EnsureAvailable.ensureAvailable sampleLibrary twoModels smallConfig r.model (requiredKind inc.path))
        embeddingRequests.state es (.done none) s' := by
    rw [RivalDownloads.ensureAvailable_eq hr]
    exact run_found rfl rfl rfl (present_filled hcm).1 (present_filled hcm).2
  obtain ⟨es, s', hes⟩ := hfound
  have hok : check src = .ok r.model := check_of_decodes hd hne
  rcases humaInference_cases id sampleLibrary twoModels smallConfig [] inc src with
    ⟨_, _, hcheck, -⟩ | ⟨model, hcheck, heq⟩
  · cases hok.symm.trans hcheck
  · cases hok.symm.trans hcheck
    exact ⟨r.model, es, s', hes, heq⟩

/-- Every call is answered with these bytes. -/
def answersOf (c : Bytes) : Nat → Answer := fun _ => .response ⟨200, [], HttpHeader.canonical_nil, [], c, .eof⟩

def noChoices : Bytes := ascii "\x7b\"choices\":[]\x7d"

def chatIncoming : Incoming := ⟨"POST".toList, chatCompletionsPath, [], [], HttpHeader.canonical_nil⟩

/-- A chat request for two choices. -/
def twoChoices : Json :=
  .obj [(quote modelKey, .str (quote (visionEntry "Q4").ref)), (quote nKey, .num (formatInt 2))]

def twoPayload : Entries Value := [(modelKey, .str (visionEntry "Q4").ref), (nKey, .num (ofInt64 2))]

def choicesSource : Source := ⟨print twoChoices, .eof⟩

theorem checkValid_twoChoices : checkValid choicesSource.bytes = some twoChoices := checkValid_print (by decide)

theorem accepted_twoChoices : Accepted twoModels ⟨chatIncoming.path, choicesSource⟩ (visionEntry "Q4") := by
  have hmembers : ofList (rawMembers [(quote modelKey, .str (quote (visionEntry "Q4").ref)),
      (quote nKey, .num (formatInt 2))]) =
      [(modelKey, .str (quote (visionEntry "Q4").ref)), (nKey, .num (formatInt 2))] := by
    simp only [rawMembers, List.map_cons, List.map_nil, unquote_quote]
    exact ofList_of_sorted (by simp [Sorted, modelKey_lt_nKey])
  refine ⟨by decide +kernel, rfl, ⟨_, quote (visionEntry "Q4").ref, checkValid_twoChoices, ?_, by decide +kernel,
    by decide +kernel⟩, by decide +kernel⟩
  simp [hmembers, GoMap.get]

theorem unmarshal_twoChoices : unmarshal decodeMap choicesSource.bytes = some twoPayload := by
  have hmembers : ofList twoPayload = twoPayload := ofList_of_sorted (by simp [twoPayload, Sorted, modelKey_lt_nKey])
  rw [unmarshal, checkValid_twoChoices]
  simp only [twoPayload] at hmembers ⊢
  simp [twoChoices, decodeMap, decodeMembers, decodeValue, hmembers]

theorem build_twoChoices : buildNChoiceRequest id chatIncoming.path choicesSource.bytes =
    .request ⟨[singleChoiceBody twoPayload, singleChoiceBody twoPayload], 2, false⟩ := by
  have hn : jsonInt ((GoMap.get nKey twoPayload).getD .null) = .ok (some 2) := by decide +kernel
  have hstream : GoMap.get streamKey twoPayload = none := by decide +kernel
  have hpath : ¬ (chatIncoming.path ≠ chatCompletionsPath ∧ chatIncoming.path ≠ completionsPath) := by decide
  unfold buildNChoiceRequest
  simp only [if_neg hpath, unmarshal_twoChoices, hn, hstream]
  rfl

theorem run_aggregate (bodies : List Bytes) (w : World) : ∃ t w', Effects.Run serve
    (responding (writeAggregate id chatIncoming.path [] bodies >>= fun _ => pure Ending.returned)) w t
      (.done .returned) w' := by
  unfold writeAggregate
  cases aggregateNChoiceBodies id bodies with
  | error message =>
    exact ⟨_, _, .step (r := ()) rfl
      (.step (r := ()) ⟨by decide, rfl⟩ (.step ⟨returns_gone _ _, rfl⟩ (.refl _ _)))⟩
  | ok body =>
    exact ⟨_, _, .step ⟨List.Perm.nil, rfl⟩ (.step (r := ()) rfl
      (.step (r := ()) ⟨by decide, rfl⟩ (.step ⟨returns_gone _ _, rfl⟩ (.refl _ _))))⟩

/-- Both answers are read and closed, and the client is gone when their choices are put together. -/
theorem run_twoCalls {body b : Bytes} (c : Bytes) (hadapt : adaptRequestBody chatIncoming.path body = some body)
    (hbuild : buildNChoiceRequest id chatIncoming.path body = .request ⟨[b, b], 2, false⟩) :
    ∃ t w, Effects.Run serve (responding (answer id [] chatIncoming body none)) (start (answersOf c)) t
      (.done .returned) w := by
  unfold answer
  simp only [hadapt, forward, hbuild, respond]
  obtain ⟨t, w, hlast⟩ := run_aggregate [c, c] _
  exact ⟨_, w, .step ⟨List.Perm.nil, rfl⟩
    (.step ⟨List.Perm.nil, rfl⟩ (.step ⟨rfl, rfl⟩ (.step (r := ()) rfl (.step (r := ()) rfl
      (.step ⟨List.Perm.nil, rfl⟩ (.step ⟨rfl, rfl⟩ (.step (r := ()) rfl (.step (r := ()) rfl hlast))))))))⟩

theorem run_chat : ∃ t w, Effects.Run serve
    (humaInference id sampleLibrary twoModels smallConfig [] chatIncoming choicesSource) (start (answersOf noChoices)) t
      (.done .returned) w := by
  obtain ⟨model, es, s', hes, heq⟩ :=
    asks_found chatIncoming choicesSource accepted_twoChoices unmarshal_twoChoices (.tail _ (.head _))
  have hadapt : adaptRequestBody chatIncoming.path choicesSource.bytes = some choicesSource.bytes := if_neg (by decide)
  obtain ⟨t, w, hrest⟩ := run_twoCalls noChoices hadapt build_twoChoices
  rw [heq]
  exact ⟨_, _, (lift_ensured hes _).bind hrest⟩

end Sample

/-- Whatever the upstream answers and whichever writes fail: the model is asked for before anything
goes out, and available before a call; no call is made and nothing is read for a client that is gone;
every body that is opened is closed once, before the next call and before the handler returns; the
response is its header, one status, and then its body; and `WriteHeader` panics for the status of an
open answer only, when nothing has gone out. -/
theorem serving_orderly {src : Source} {answers : Nat → Answer} {t : List (Event Op Op.Res)} {p : Run Ending}
    {w : World} (hrun : Effects.Run serve (humaInference jsonError go cat cfg basePath req src) (start answers) t p w) :
    (∀ t₁ e t₂, t = t₁ ++ e :: t₂ → ∃ q w₁,
      Effects.Run serve (humaInference jsonError go cat cfg basePath req src) (start answers) t₁ q w₁ ∧
        Orderly go cat cfg basePath req src t₁ w₁ e.op) ∧
      (∀ ending, p = .done ending → w.reading = false) ∧
      ∀ o next, p = .perform (.respond o) next → Panics o →
        w.reading = true ∧ w.client.inner.sent.isSome = false := by
  have hspec : Spec serve (AllowedOp basePath req) (fun _ w => w.reading = false)
      (humaInference jsonError go cat cfg basePath req src) (start answers) := spec_humaInference src answers
  have hleft := (spec_run hspec hrun).1
  refine ⟨fun t₁ e t₂ ht => ?_, fun ending hp => ?_, fun o next hp hpanics => ?_⟩
  · obtain ⟨q, w₁, hbefore, hallowed⟩ := spec_event hspec hrun t₁ e t₂ ht
    subst ht
    refine ⟨q, w₁, hbefore, hallowed, fun o ho => ?_, fun u hu => ?_⟩
    · exact (asked_of_run hrun ho).imp And.left fun ⟨err, hasked, _⟩ => ⟨err, hasked⟩
    · rcases asked_of_run hrun hu with ⟨-, hquiet⟩ | ⟨err, hasked, hnone⟩
      · exact absurd rfl (hquiet u)
      · rwa [hnone ⟨u, rfl⟩] at hasked
  · rw [hp] at hleft
    exact hleft
  · rw [hp] at hleft
    cases o with
    | setStatus s =>
      obtain ⟨hsent, hfinal | hreading⟩ := hleft.1
      · unfold IsFinal at hfinal
        unfold Panics at hpanics
        omega
      · exact ⟨hreading, hsent⟩
    | _ => exact hpanics.elim

open InferenceRuns SingleDownload DownloaderAtomicity SharedFiles in
theorem serving_orderly_twoChoices : ∃ t w, Effects.Run serve
    (humaInference id sampleLibrary twoModels smallConfig [] chatIncoming choicesSource)
      (start (answersOf noChoices)) t (.done .returned) w ∧ w.reading = false ∧
    ∀ t₁ e t₂, t = t₁ ++ e :: t₂ → ∃ q w₁, Effects.Run serve
      (humaInference id sampleLibrary twoModels smallConfig [] chatIncoming choicesSource)
        (start (answersOf noChoices)) t₁ q w₁ ∧
        Orderly sampleLibrary twoModels smallConfig [] chatIncoming choicesSource t₁ w₁ e.op := by
  obtain ⟨t, w, hrun⟩ := run_chat
  obtain ⟨hevents, hend, -⟩ := serving_orderly hrun
  exact ⟨t, w, hrun, hend _ rfl, hevents⟩

/-! ## What is delivered -/

/-- The reply that a trace of the handler stands for, if the upstream gives these answers: a refusal, or
that to what `EnsureAvailable` came to. -/
def ReplyOf (jsonError : Bytes → Bytes) (go : HfDownloader.Library) (cat : Catalog) (cfg : Config) (path : Text)
    (src : Source) (answers : Nat → Answer) (t : List (Event Op Op.Res)) (f : Full) : Prop :=
  check src = .error f ∨ ∃ model err es t₂, check src = .ok model ∧ t = ensured es ++ t₂ ∧
    Effects.Run Interleaving.free (EnsureAvailable.ensureAvailable go cat cfg model (requiredKind path)) () es
      (.done err) () ∧ answerFull jsonError path src.bytes answers err = some f

theorem run_responding {α : Type} {p : Responding.Run α} {Q : α → World → Prop} (h : Meets basePath req p w Q)
    {t : List (Event Op Op.Res)} {a : α} {w' : World} (hrun : Effects.Run serve (responding p) w t (.done a) w') :
    Q a w' := (spec_run (spec_responding h) hrun).1

/-- Its client receives the head of the reply, and the body, or the first part of the body if a write fails. -/
theorem delivered_of_run {src : Source} {answers : Nat → Answer} {t : List (Event Op Op.Res)} {w : World}
    (hrun : Effects.Run serve (humaInference jsonError go cat cfg basePath req src) (start answers) t
      (.done .returned) w) :
    ∃ f, ReplyOf jsonError go cat cfg req.path src answers t f ∧ Delivered f w := by
  have hfresh := fresh_start answers
  rcases humaInference_cases jsonError go cat cfg basePath req src with
    ⟨code, msg, hcheck, heq⟩ | ⟨model, hcheck, heq⟩
  · rw [heq] at hrun
    have hrefuse : Meets basePath req (refuse 400 invalidRequestError code msg) (start answers)
        (Replied (some (errorFull 400 invalidRequestError code msg))) := meets_refuse (by decide) _ code msg rfl hfresh
    obtain ⟨hclosed, hreplied⟩ := run_responding hrefuse hrun
    obtain ⟨f, hf, hreceived⟩ := hreplied rfl
    cases hf
    exact ⟨_, .inl hcheck, delivered_of_received hclosed hreceived⟩
  · rw [heq] at hrun
    obtain ⟨err, t₁, t₂, w₁, rfl, h₁, h₂⟩ := run_bind_done hrun
    obtain ⟨rfl, es, p', rfl, hdone, hes⟩ := run_ensure h₁
    cases p' with
    | perform o next => cases hdone
    | done a =>
      cases hdone
      obtain ⟨hclosed, hreplied⟩ := run_responding (meets_answer src.bytes err rfl hfresh) h₂
      obtain ⟨f, hf, hreceived⟩ := hreplied rfl
      exact ⟨f, .inr ⟨model, err, es, t₂, hcheck, rfl, hes, hf⟩, delivered_of_received hclosed hreceived⟩

end InferenceServing
