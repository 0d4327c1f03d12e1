import LlamaStack.DownloaderAtomicity
import LlamaStack.Handlers

/-!
# The allowlist

The operations of one inference request, with everything that Hugging Face, the
file system and the router may answer: which of them are performed after which,
and what the client gets when one of them fails before the first call.
-/
namespace AllowlistEnforcement

open Effects GoBytes GoFloat64 GoJson GoMap GoStream ModelCatalog RouterManager NChoiceResponse NChoices OpenaiApi
  CatalogPaths HfDownloader DownloaderAtomicity Handlers

/-- What operations do while the request is alone. Calls and questions to the
router leave the files as they are. -/
def effect : Meaning Handlers.Op Handlers.Op.Res World
  | w, .ensure (.download o), r, w' => HfDownloader.effect w o r w'
  | w, _, _, w' => w' = w

abbrev History := List (Event Handlers.Op Handlers.Op.Res)

/-! ## What a request must be -/

def modelKey : Text := "model".toList

/-- The body is within the limit and an object whose `model` names the entry, and
the entry is of the kind that the endpoint serves. -/
structure Accepted (cat : Catalog) (req : Request) (cm : Model) : Prop where
  limit : req.body.bytes.length ≤ maxInferenceBodyBytes
  whole : req.body.ending = .eof
  names : ∃ ms s, checkValid req.body.bytes = some (.obj ms) ∧
    get modelKey (ofList (rawMembers ms)) = some (.str s) ∧ unquote s ≠ [] ∧
    cat.byRef (unquote s) = some cm
  kind : kindOf cm = requiredKind req.path

/-- The router has answered, and its answer lists the entry. -/
def Listed (cm : Model) (h : History) : Prop :=
  ∃ resp : ModelsResponse, (⟨.ensure .models, (.ok resp : Except Bytes ModelsResponse)⟩ :
    Event Handlers.Op Handlers.Op.Res) ∈ h ∧ modelsResponseHas resp cm.ref = true

/-- What must hold when an operation is performed. -/
def Stage (cat : Catalog) (cfg : Config) (req : Request) (s : World × History) (o : Handlers.Op) : Prop :=
  ∃ cm, Accepted cat req cm ∧
    match o with
    | .post _ => Listed cm s.2
    | .ensure .models => Required cfg.modelsDir cm s.1.files
    | _ => True

/-! ## Failures -/

inductive Failure where
  | badBody
  | badJson
  | noModel
  | unknownModel
  | wrongKind
  | download
  | canceled
  | registry
  | badRequest
  deriving DecidableEq

/-- Status, type and code of the error that a failure is answered with. -/
def Failure.answer : Failure → Nat × Text × Text
  | .badBody => (400, invalidRequestError, "invalid_body".toList)
  | .badJson => (400, invalidRequestError, "invalid_json".toList)
  | .noModel => (400, invalidRequestError, "missing_model".toList)
  | .unknownModel => (404, invalidRequestError, "model_not_found".toList)
  | .wrongKind => (400, invalidRequestError, "model_capability_mismatch".toList)
  | .download => (503, "download_error".toList, "download_failed".toList)
  | .canceled => (503, upstreamError, "ensure_available_failed".toList)
  | .registry => (503, upstreamError, "router_registry_stale".toList)
  | .badRequest => (400, invalidRequestError, "invalid_request".toList)

/-- The response with one error body and nothing else. -/
def Failure.reply (f : Failure) (message : Bytes) : Reply where
  status := some f.answer.1
  ops := [.write (print (errorBody f.answer.2.1 f.answer.2.2 message) ++ [lf])]

def isPost : Handlers.Op → Bool
  | .post _ => true
  | _ => false

/-- An operation of the download, or on its lock. -/
def isEarly : Handlers.Op → Bool
  | .ensure .models => false
  | .ensure .ctxErr => false
  | .post _ => false
  | _ => true

/-- The body can be read, and what it decodes to. -/
def Decodes (req : Request) (r : Option ModelRequest) : Prop :=
  req.body.bytes.length ≤ maxInferenceBodyBytes ∧ req.body.ending = .eof ∧
    unmarshal (ModelRequest.unmarshalJSON · {}) req.body.bytes = r

/-- The failure that a request without a call ends with, by the request and by
what was performed for it: nothing else comes after the failure. -/
inductive Fails (cat : Catalog) (req : Request) : History → Failure → Prop where
  | badBody : maxInferenceBodyBytes < req.body.bytes.length ∨ req.body.ending ≠ .eof →
      Fails cat req [] .badBody
  | badJson : Decodes req none → Fails cat req [] .badJson
  | noModel {r : ModelRequest} : Decodes req (some r) → r.model = [] → Fails cat req [] .noModel
  | unknownModel {r : ModelRequest} : Decodes req (some r) → r.model ≠ [] →
      cat.byRef r.model = none → Fails cat req [] .unknownModel
  | wrongKind {r : ModelRequest} {cm : Model} : Decodes req (some r) → r.model ≠ [] →
      cat.byRef r.model = some cm → kindOf cm ≠ requiredKind req.path → Fails cat req [] .wrongKind
  | download {cm : Model} {h : History} : Accepted cat req cm → (∀ e ∈ h, isEarly e.op = true) →
      Fails cat req h .download
  | canceled {cm : Model} {h h' : History} {message : Bytes} : Accepted cat req cm →
      (∀ e ∈ h ++ h', isEarly e.op = true) →
      Fails cat req (h ++ ⟨.ensure .ctxErr, some message⟩ :: h') .canceled
  | registry {cm : Model} {h h' : History} {answer : Except Bytes ModelsResponse} :
      Accepted cat req cm → (∀ e ∈ h ++ h', isPost e.op = false) →
      (∀ resp, answer = .ok resp → modelsResponseHas resp cm.ref = false) →
      Fails cat req (h ++ ⟨.ensure .models, answer⟩ :: h') .registry
  | badRequest {cm : Model} {h : History} : Accepted cat req cm → Listed cm h →
      (∀ e ∈ h, isPost e.op = false) → Fails cat req h .badRequest

/-! ## Reading the request -/

theorem requiredKind_ne_nil (path : Text) : requiredKind path ≠ [] := by
  unfold requiredKind
  split <;> decide

/-- A request that names a model is an object with a string for it. -/
theorem object_of_modelRequest {body : Bytes} {r : ModelRequest}
    (h : unmarshal (ModelRequest.unmarshalJSON · {}) body = some r) (hne : r.model ≠ []) :
    ∃ ms s, checkValid body = some (.obj ms) ∧
      get modelKey (ofList (rawMembers ms)) = some (.str s) ∧ unquote s = r.model := by
  obtain ⟨j, hj, h⟩ := Option.bind_eq_some_iff.mp h
  obtain ⟨object, hobject, h⟩ := Option.bind_eq_some_iff.mp h
  obtain ⟨q, hq, h⟩ := Option.bind_eq_some_iff.mp h
  have hmodel : r.model = q.2.model := by
    split at h
    · cases h
      rfl
    · obtain ⟨m, -, rfl⟩ := Option.map_eq_some_iff.mp h
      rfl
  have hfound : ∃ s, get modelKey object = some (.str s) ∧ unquote s = r.model := by
    simp only [List.foldlM_cons, List.foldlM_nil, takeField] at hq
    obtain ⟨q', hq', hqq⟩ := Option.bind_eq_some_iff.mp hq
    cases hqq
    cases hg : get modelKey object with
    | none =>
      have hnone : get "model".toList object = none := hg
      rw [hnone] at hq'
      cases hq'
      exact absurd hmodel hne
    | some raw =>
      have hsome : get "model".toList object = some raw := hg
      rw [hsome] at hq'
      obtain ⟨a, ha, rfl⟩ := Option.map_eq_some_iff.mp hq'
      obtain ⟨x, hx, rfl⟩ := Option.map_eq_some_iff.mp ha
      cases raw with
      | str s =>
        cases hx
        exact ⟨s, rfl, hmodel.symm⟩
      | null =>
        cases hx
        exact absurd hmodel hne
      | _ => cases hx
  cases j with
  | obj ms =>
    cases hobject
    obtain ⟨s, hs, hr⟩ := hfound
    exact ⟨ms, s, hj, hs, hr⟩
  | null =>
    cases hobject
    obtain ⟨s, hs, -⟩ := hfound
    cases hs
  | _ => cases hobject

theorem accepted_of_resolve {cat : Catalog} {req : Request} {r : ModelRequest} {cm : Model}
    (hd : Decodes req (some r)) (hne : r.model ≠ [])
    (h : EnsureAvailable.resolve cat r.model (requiredKind req.path) = .ok cm) : Accepted cat req cm := by
  obtain ⟨hlimit, hwhole, hr⟩ := hd
  obtain ⟨ms, s, hj, hs, hm⟩ := object_of_modelRequest hr hne
  unfold EnsureAvailable.resolve at h
  cases hb : cat.byRef r.model with
  | none => simp [hb] at h
  | some cm' =>
    simp only [hb] at h
    split at h
    · cases h
    · rename_i hk
      cases h
      refine ⟨hlimit, hwhole, ⟨ms, s, hj, hs, hm ▸ hne, hm ▸ hb⟩, ?_⟩
      by_contra hkind
      exact hk ⟨requiredKind_ne_nil _, hkind⟩

/-! ## The stages of a request -/

/-- The bodies that are sent for a request: its own, that of one choice, or the
one that is adapted to the Responses endpoint. -/
inductive Upstream (req : Request) : Bytes → Prop where
  | whole : Upstream req req.body.bytes
  | oneChoice {payload : Entries Value} : req.path = chatCompletionsPath ∨ req.path = completionsPath →
      unmarshal decodeMap req.body.bytes = some payload → Upstream req (singleChoiceBody payload)
  | adapted {body : Bytes} : req.path = responsesPath →
      RequestAdapter.adaptResponsesRequestBody req.body.bytes = some body → Upstream req body

def isModels : Handlers.Op → Bool
  | .ensure .models => true
  | _ => false

/-- The stage of an operation, what a call sends, and that the router is asked once. -/
def Sends (cat : Catalog) (cfg : Config) (req : Request) (s : World × History) (o : Handlers.Op) : Prop :=
  Stage cat cfg req s o ∧
    match o with
    | .post body => Upstream req body
    | .ensure .models => ∀ e ∈ s.2, isModels e.op = false
    | _ => True

variable {cat : Catalog} {cfg : Config} {req : Request} {cm : Model}

theorem Listed.append {h : History} (hl : Listed cm h) (h' : History) : Listed cm (h ++ h') := by
  obtain ⟨resp, hmem, hhas⟩ := hl
  exact ⟨resp, List.mem_append_left _ hmem, hhas⟩

theorem forall_append_one {P : Event Handlers.Op Handlers.Op.Res → Prop} {h : History}
    {e : Event Handlers.Op Handlers.Op.Res} (hh : ∀ x ∈ h, P x) (he : P e) : ∀ x ∈ h ++ [e], P x := by
  intro x hx
  cases List.mem_append.mp hx with
  | inl hx => exact hh x hx
  | inr hx => exact List.mem_singleton.mp hx ▸ he

theorem not_isPost_of_isEarly {o : Handlers.Op} (h : isEarly o = true) : isPost o = false := by
  cases o with
  | ensure o => rfl
  | post body => cases h

theorem not_isModels_of_isEarly {o : Handlers.Op} (h : isEarly o = true) : isModels o = false := by
  cases o with
  | post body => rfl
  | ensure o =>
    cases o with
    | models => cases h
    | _ => rfl

theorem download_stage (go : Library) (hacc : Accepted cat req cm) {s : World × History}
    (hs : ∀ e ∈ s.2, isEarly e.op = true) :
    Spec (traced effect) (Sends cat cfg req)
      (fun r s' => (∀ e ∈ s'.2, isEarly e.op = true) ∧
        ((∃ path, r = .ok path) → Required cfg.modelsDir cm s'.1.files))
      (((ensure go cfg.modelsDir cm).lift EnsureAvailable.Op.download fun _ r => r).lift
        Handlers.Op.ensure fun _ r => r) s := by
  obtain ⟨ms, x, -, -, -, hb⟩ := hacc.names
  have hvalid := cat.valid cm (byRef_mem hb)
  rw [lift_lift]
  refine spec_mono (fun s o hg => ?_) (fun r s' hq => hq)
    (spec_lift (fun s o r s' hF he => ?_) (ensure_required go hvalid s.1) hs)
  · obtain ⟨-, o', rfl, -⟩ := hg
    exact ⟨⟨cm, hacc, trivial⟩, trivial⟩
  · refine ⟨he.1, ?_⟩
    rw [he.2]
    exact forall_append_one hF rfl

/-- How the part under the lock ends, before the lock is released. -/
def Closing (cat : Catalog) (req : Request) (cm : Model) (err : Option EnsureAvailable.Error)
    (s : World × History) : Prop :=
  match err with
  | none => Listed cm s.2 ∧ ∀ e ∈ s.2, isPost e.op = false
  | some err => ∀ e, isEarly e.op = true →
      ∃ f message, Fails cat req (s.2 ++ [e]) f ∧ writeEnsureError err = f.reply message

theorem ensureLocked_stage (go : Library) (hacc : Accepted cat req cm) {s : World × History}
    (hs : ∀ e ∈ s.2, isEarly e.op = true) :
    Spec (traced effect) (Sends cat cfg req) (Closing cat req cm)
      ((EnsureAvailable.ensureLocked go cfg cm).lift Handlers.Op.ensure fun _ r => r) s := by
  rw [EnsureAvailable.ensureLocked, lift_bind]
  apply spec_bind
  refine spec_mono (fun _ _ hg => hg) (fun downloaded s₁ h₁ => ?_) (download_stage go hacc hs)
  obtain ⟨hearly, hreq⟩ := h₁
  cases downloaded with
  | error err =>
    intro e he
    exact ⟨.download, _, .download hacc (forall_append_one hearly he), rfl⟩
  | ok path =>
    have hpresent := hreq ⟨path, rfl⟩
    refine ⟨⟨⟨cm, hacc, trivial⟩, trivial⟩, fun done s₂ he => ?_⟩
    obtain ⟨heffect, hhist⟩ := he
    have hfiles : s₂.1 = s₁.1 := heffect
    cases done with
    | some message =>
      intro e he
      refine ⟨.canceled, message, ?_, rfl⟩
      rw [hhist, List.append_assoc]
      exact .canceled hacc (forall_append_one hearly he)
    | none =>
      have hunasked : ∀ e ∈ s₂.2, isModels e.op = false := by
        rw [hhist]
        exact forall_append_one (fun e he => not_isModels_of_isEarly (hearly e he)) rfl
      refine ⟨⟨⟨cm, hacc, hfiles ▸ hpresent⟩, hunasked⟩, fun answer s₃ he => ?_⟩
      obtain ⟨-, hhist₃⟩ := he
      have hquiet : ∀ e ∈ s₂.2, isPost e.op = false := by
        rw [hhist]
        exact forall_append_one (fun e he => not_isPost_of_isEarly (hearly e he)) rfl
      have hstale : ∀ {answer : Except Bytes ModelsResponse} {message : Bytes},
          s₃.2 = s₂.2 ++ [⟨.ensure .models, answer⟩] →
          (∀ resp, answer = .ok resp → modelsResponseHas resp cm.ref = false) →
          ∀ e, isEarly e.op = true → ∃ f m, Fails cat req (s₃.2 ++ [e]) f ∧
            Failure.registry.reply message = f.reply m := by
        intro answer message hh hno e he
        refine ⟨.registry, message, ?_, rfl⟩
        rw [hh, List.append_assoc]
        exact .registry hacc (forall_append_one hquiet (not_isPost_of_isEarly he)) hno
      cases answer with
      | error message => exact hstale hhist₃ (by simp)
      | ok resp =>
        simp only [Prog.bind, pure]
        cases hhas : modelsResponseHas resp cm.ref with
        | false =>
          apply hstale hhist₃
          intro resp' hresp
          cases hresp
          exact hhas
        | true =>
          constructor
          · exact ⟨resp, hhist₃ ▸ by simp, hhas⟩
          · exact hhist₃ ▸ forall_append_one hquiet rfl

/-- What `EnsureAvailable` comes to. -/
def Ensured (cat : Catalog) (req : Request) (err : Option EnsureAvailable.Error)
    (s : World × History) : Prop :=
  match err with
  | none => ∃ cm, Accepted cat req cm ∧ Listed cm s.2 ∧ ∀ e ∈ s.2, isPost e.op = false
  | some err => ∃ f message, Fails cat req s.2 f ∧ writeEnsureError err = f.reply message

theorem ensureAvailable_stage (go : Library) {r : ModelRequest} (hd : Decodes req (some r))
    (hne : r.model ≠ []) (w : World) :
    Spec (traced effect) (Sends cat cfg req) (Ensured cat req)
      ((EnsureAvailable.ensureAvailable go cat cfg r.model (requiredKind req.path)).lift
        Handlers.Op.ensure fun _ r => r) (w, []) := by
  unfold EnsureAvailable.ensureAvailable
  cases hres : EnsureAvailable.resolve cat r.model (requiredKind req.path) with
  | error err =>
    unfold EnsureAvailable.resolve at hres
    cases hb : cat.byRef r.model with
    | none =>
      simp only [hb] at hres
      cases hres
      exact ⟨.unknownModel, _, .unknownModel hd hne hb, rfl⟩
    | some cm =>
      simp only [hb] at hres
      split at hres
      · rename_i hk
        cases hres
        exact ⟨.wrongKind, _, .wrongKind hd hne hb hk.2, rfl⟩
      · cases hres
  | ok cm =>
    have hacc := accepted_of_resolve hd hne hres
    rw [lift_bind]
    apply spec_op ⟨⟨cm, hacc, trivial⟩, trivial⟩
    intro mutex s₁ he₁
    have h₁ : ∀ e ∈ s₁.2, isEarly e.op = true := by
      rw [he₁.2]
      exact forall_append_one (by simp) rfl
    rw [lift_bind]
    apply spec_op ⟨⟨cm, hacc, trivial⟩, trivial⟩
    intro _ s₂ he₂
    have h₂ : ∀ e ∈ s₂.2, isEarly e.op = true := by
      rw [he₂.2]
      exact forall_append_one h₁ rfl
    rw [lift_bind]
    apply spec_bind
    refine spec_mono (fun _ _ hg => hg) (fun err s₃ h₃ => ?_) (ensureLocked_stage go hacc h₂)
    rw [lift_bind]
    apply spec_op ⟨⟨cm, hacc, trivial⟩, trivial⟩
    intro _ s₄ he₄
    cases err with
    | none =>
      obtain ⟨hl, hquiet⟩ := h₃
      refine ⟨cm, hacc, ?_, ?_⟩
      · exact he₄.2 ▸ hl.append _
      · rw [he₄.2]
        exact forall_append_one hquiet rfl
    | some err =>
      obtain ⟨f, message, hf, hr⟩ := h₃ ⟨.ensure (.unlock mutex), ()⟩ rfl
      exact ⟨f, message, he₄.2 ▸ hf, hr⟩

/-! ## The calls -/

/-- The body asks for more choices than a slice of bodies can have. -/
def AsksTooMany (req : Request) : Prop :=
  (req.path = chatCompletionsPath ∨ req.path = completionsPath) ∧
    ∃ payload n, unmarshal decodeMap req.body.bytes = some payload ∧
      jsonInt ((get nKey payload).getD .null) = .ok (some n) ∧ maxAlloc < n.toInt.toNat * sliceSize

/-- What the handler comes to: a failure is answered with its error, and without a
call only a panic has no answer. -/
def Handles (cat : Catalog) (req : Request) (r : Handled) (h : History) : Prop :=
  match r with
  | .refused reply => ∃ f message, Fails cat req h f ∧ reply = f.reply message
  | .answered _ => ∃ e ∈ h, isPost e.op = true
  | .panicked => (∃ cm, Accepted cat req cm) ∧ AsksTooMany req ∧ ∀ e ∈ h, isPost e.op = false

theorem sends_post (hacc : Accepted cat req cm) {s : World × History} (hl : Listed cm s.2)
    {body : Bytes} (hb : Upstream req body) : Sends cat cfg req s (.post body) := ⟨⟨cm, hacc, hl⟩, hb⟩

variable (jsonError : Bytes → Bytes)

theorem postAll_stage (hacc : Accepted cat req cm) (stream : Bool) {bodies : List Bytes}
    {s : World × History} (hl : Listed cm s.2) (hsent : ∀ body ∈ bodies, Upstream req body)
    (hposted : bodies = [] → ∃ e ∈ s.2, isPost e.op = true) :
    Spec (traced effect) (Sends cat cfg req) (fun _ s' => ∃ e ∈ s'.2, isPost e.op = true)
      (postAll jsonError stream bodies) s := by
  induction bodies generalizing s with
  | nil => exact hposted rfl
  | cons body bodies ih =>
    apply spec_op (sends_post hacc hl (hsent body (by simp)))
    intro o s' he
    have hpost : ∃ e ∈ s'.2, isPost e.op = true := by
      rw [he.2]
      exact ⟨⟨.post body, o⟩, by simp, rfl⟩
    split
    · exact hpost
    · apply spec_bind
      refine spec_mono (fun _ _ hg => hg) (fun os s'' h => h)
        (ih ?_ (fun b hb => hsent b (by simp [hb])) fun _ => hpost)
      rw [he.2]
      exact hl.append _

theorem forward_stage (hacc : Accepted cat req cm) {s : World × History} (hl : Listed cm s.2)
    (hquiet : ∀ e ∈ s.2, isPost e.op = false) {upstreamBody : Bytes}
    (hsent : Upstream req upstreamBody) (hsame : req.path ≠ responsesPath → upstreamBody = req.body.bytes) :
    Spec (traced effect) (Sends cat cfg req) (fun r s' => Handles cat req r s'.2)
      (forward jsonError req.path upstreamBody) s := by
  have hone : Spec (traced effect) (Sends cat cfg req) (fun r s' => Handles cat req r s'.2)
      (do let o ← op (Handlers.Op.post upstreamBody); return Handled.answered [o]) s := by
    apply spec_op (sends_post hacc hl hsent)
    intro o s' he
    refine ⟨⟨.post upstreamBody, o⟩, ?_, rfl⟩
    rw [he.2]
    simp
  have hbad : ∀ message, Handles cat req (.refused (writeOpenAIError 400 invalidRequestError
      "invalid_request".toList message)) s.2 :=
    fun message => ⟨.badRequest, message, .badRequest hacc hl hquiet, rfl⟩
  unfold forward buildNChoiceRequest
  by_cases hpath : req.path ≠ chatCompletionsPath ∧ req.path ≠ completionsPath
  · rw [if_pos hpath]
    exact hone
  · rw [if_neg hpath]
    have hpath : req.path = chatCompletionsPath ∨ req.path = completionsPath := by
      by_contra hno
      exact hpath (not_or.mp hno)
    have hbody : upstreamBody = req.body.bytes := by
      apply hsame
      intro he
      rw [he] at hpath
      exact absurd hpath (by decide)
    cases hm : unmarshal decodeMap upstreamBody with
    | none => exact hbad _
    | some payload =>
      cases hn : jsonInt ((get nKey payload).getD .null) with
      | error e =>
        simp only [hn]
        exact hbad _
      | ok n =>
        cases n with
        | none =>
          simp only [hn]
          exact hone
        | some n =>
          simp only [hn]
          by_cases hle : n.toInt ≤ 1
          · simp only [if_pos hle]
            exact hone
          · simp only [if_neg hle]
            by_cases hmax : maxAlloc < n.toInt.toNat * sliceSize
            · simp only [if_pos hmax]
              exact ⟨⟨cm, hacc⟩, ⟨hpath, payload, n, hbody ▸ hm, hn, hmax⟩, hquiet⟩
            · have hmany : 1 < n.toInt := by omega
              simp only [if_neg hmax, if_pos hmany]
              apply spec_bind
              refine spec_mono (fun _ _ hg => hg) (fun os s' h => h)
                (postAll_stage jsonError hacc _ hl (fun body hb => ?_) fun he => ?_)
              · rw [List.eq_of_mem_replicate hb]
                exact .oneChoice hpath (hbody ▸ hm)
              · have hlen : n.toInt.toNat = 0 := by simpa using he
                omega

theorem upstream_of_adapted {body : Bytes} (h : adaptRequestBody req.path req.body.bytes = some body) :
    Upstream req body := by
  unfold adaptRequestBody at h
  split at h
  · rename_i hpath
    exact .adapted hpath h
  · cases h
    exact .whole

theorem humaInference_stage (go : Library) (cat : Catalog) (cfg : Config) (req : Request) (w : World) :
    Spec (traced effect) (Sends cat cfg req) (fun r s => Handles cat req r s.2)
      (humaInference jsonError go cat cfg req) (w, []) := by
  unfold humaInference readLimited
  by_cases hlimit : maxInferenceBodyBytes < req.body.bytes.length
  · rw [if_pos hlimit]
    exact ⟨.badBody, _, .badBody (.inl hlimit), rfl⟩
  · rw [if_neg hlimit]
    cases hend : req.body.ending with
    | failed message => exact ⟨.badBody, _, .badBody (.inr (by simp [hend])), rfl⟩
    | eof =>
      have hread : ∀ {r}, unmarshal (ModelRequest.unmarshalJSON · {}) req.body.bytes = r →
          Decodes req r := fun h => ⟨Nat.not_lt.mp hlimit, hend, h⟩
      cases hr : unmarshal (ModelRequest.unmarshalJSON · {}) req.body.bytes with
      | none =>
        simp only [hr]
        exact ⟨.badJson, _, .badJson (hread hr), rfl⟩
      | some r =>
        simp only [hr]
        by_cases hne : r.model = []
        · rw [if_pos hne]
          exact ⟨.noModel, _, .noModel (hread hr) hne, rfl⟩
        · rw [if_neg hne]
          apply spec_bind
          refine spec_mono (fun _ _ hg => hg) (fun err s₁ h₁ => ?_)
            (ensureAvailable_stage go (hread hr) hne w)
          cases err with
          | some err => exact h₁
          | none =>
            obtain ⟨cm, hacc, hl, hquiet⟩ := h₁
            cases ha : adaptRequestBody req.path req.body.bytes with
            | none =>
              exact ⟨.badRequest, _, .badRequest hacc hl hquiet, rfl⟩
            | some upstreamBody =>
              apply forward_stage jsonError hacc hl hquiet
              · exact upstream_of_adapted ha
              · intro hpath
                simp only [adaptRequestBody, if_neg hpath] at ha
                exact (Option.some.inj ha).symm

/-! ## A run that ends without an answer -/

theorem decodeValue_of_mem {ms : List (Lexeme × Json)} {es : List (Text × Value)}
    (h : decodeMembers ms = some es) {e : Text × Json} (he : e ∈ rawMembers ms) :
    ∃ v, decodeValue e.2 = some v := by
  induction ms generalizing es with
  | nil => cases he
  | cons m ms ih =>
    obtain ⟨v, hv, h⟩ := Option.bind_eq_some_iff.mp h
    obtain ⟨us, hus, rfl⟩ := Option.map_eq_some_iff.mp h
    cases List.mem_cons.mp he with
    | inl he => exact ⟨v, he ▸ hv⟩
    | inr he => exact ih hus he

/-- An accepted body that decodes to a map also decodes to a request. -/
theorem modelRequest_of_accepted (hacc : Accepted cat req cm) {payload : Entries Value}
    (hp : unmarshal decodeMap req.body.bytes = some payload) :
    ∃ r, Decodes req (some r) ∧ r.model ≠ [] ∧ cat.byRef r.model = some cm := by
  obtain ⟨hlimit, hwhole, ⟨ms, s, hj, hs, hne, hb⟩, -⟩ := hacc
  have hs' : get "model".toList (ofList (rawMembers ms)) = some (.str s) := hs
  rw [unmarshal, hj] at hp
  obtain ⟨es, hes, -⟩ := Option.map_eq_some_iff.mp hp
  have hrest : ∀ e ∈ delete "model".toList (ofList (rawMembers ms)), ∃ v, decodeValue e.2 = some v :=
    fun e he => decodeValue_of_mem hes (mem_ofList (List.mem_of_mem_filter he))
  obtain ⟨m, hm⟩ := decodeAdditional_isSome hrest
  have hdecode : ∀ r, (if (delete "model".toList (ofList (rawMembers ms))).isEmpty then
      some { model := unquote s } else some { model := unquote s, additionalProperties := m }) = some r →
      Decodes req (some r) := by
    intro r hr
    refine ⟨hlimit, hwhole, ?_⟩
    rw [unmarshal, hj, ← hr]
    simp only [ModelRequest.unmarshalJSON, decodeObject, decodeRawMap, takeField, hs', decodeString, hm,
      Option.bind_some, Option.map_some, List.foldlM_cons, List.foldlM_nil, bind, pure]
  by_cases hempty : (delete "model".toList (ofList (rawMembers ms))).isEmpty = true
  · exact ⟨_, hdecode _ (if_pos hempty), hne, hb⟩
  · exact ⟨_, hdecode _ (if_neg hempty), hne, hb⟩

/-- With all files in place and the entry listed, a request gets past its checks. -/
theorem available_run (go : Library) {ref kind : Text} {cm : Model} {w : World}
    (hres : EnsureAvailable.resolve cat ref kind = .ok cm) (hreq : Required cfg.modelsDir cm w.files)
    {resp : ModelsResponse} (hhas : modelsResponseHas resp cm.ref = true) :
    ∃ t, Effects.Run effect ((EnsureAvailable.ensureAvailable go cat cfg ref kind).lift
      Handlers.Op.ensure fun _ r => r) w t (.done none) w ∧
      (⟨.ensure .models, (.ok resp : Except Bytes ModelsResponse)⟩ :
        Event Handlers.Op Handlers.Op.Res) ∈ t ∧ ∀ e ∈ t, isPost e.op = false := by
  obtain ⟨t, ht⟩ := ensure_idle_run go hreq
  have hensure := Run.lift effect (fun o => .ensure (.download o)) (fun _ r => r) (fun _ r => r)
    (fun _ _ => rfl) (fun _ _ _ _ he => he) ht
  have hlocked : ∃ t, Effects.Run effect ((EnsureAvailable.ensureLocked go cfg cm).lift
      Handlers.Op.ensure fun _ r => r) w (t ++ [⟨.ensure .ctxErr, none⟩, ⟨.ensure .models,
        (.ok resp : Except Bytes ModelsResponse)⟩]) (.done none) w := by
    rw [EnsureAvailable.ensureLocked, lift_bind, lift_lift]
    apply Exists.intro
    apply hensure.bind
    apply Run.step rfl
    apply Run.step rfl
    simp only [Prog.bind, pure, hhas]
    exact .refl _ _
  obtain ⟨t, ht⟩ := hlocked
  have hrun : ∃ t, Effects.Run effect ((EnsureAvailable.ensureAvailable go cat cfg ref kind).lift
      Handlers.Op.ensure fun _ r => r) w t (.done none) w ∧
      (⟨.ensure .models, (.ok resp : Except Bytes ModelsResponse)⟩ :
        Event Handlers.Op Handlers.Op.Res) ∈ t := by
    simp only [EnsureAvailable.ensureAvailable, hres, lift_bind]
    refine ⟨_, .step (r := 0) rfl (.step (r := ()) rfl (ht.bind (.step (r := ()) rfl (.refl _ _)))), ?_⟩
    simp
  obtain ⟨t, ht, hmodels⟩ := hrun
  refine ⟨t, ht, hmodels, fun e he => ?_⟩
  obtain ⟨o, ho⟩ := ops_of_lift ht e he
  rw [ho]
  rfl

/-- Files at two names, none of them empty. -/
def filesAt (p q : Text) : PosixFiles.Files Text UInt8 where
  links r := if r = p then some 0 else if r = q then some 1 else none
  content _ := [0]
  fresh := 2
  lt_fresh r i h := by
    split at h
    · cases h
      decide
    · split at h <;> cases h
      decide
  link_inj r r' i h h' := by
    split at h
    · cases h
      split at h' <;> simp_all
    · split at h
      · cases h
        split at h' <;> simp_all
      · cases h

/-- All files of the entry are in place. -/
def idleWorld (cfg : Config) (cm : Model) : World :=
  ⟨filesAt (cm.stablePath cfg.modelsDir) (cm.mmprojStablePath cfg.modelsDir), []⟩

theorem required_idleWorld (cfg : Config) (cm : Model) :
    Required cfg.modelsDir cm (idleWorld cfg cm).files := by
  constructor
  · exact ⟨[0], by simp [PosixFiles.Files.read, idleWorld, filesAt], by simp⟩
  · intro _
    refine ⟨[0], ?_, by simp⟩
    simp only [PosixFiles.Files.read, idleWorld, filesAt]
    split <;> rfl

variable (cfg) in
/-- So the request gets to its calls. -/
theorem checked_run (go : Library) {r : ModelRequest} {resp : ModelsResponse} {upstreamBody : Bytes}
    (hd : Decodes req (some r)) (hne : r.model ≠ [])
    (hres : EnsureAvailable.resolve cat r.model (requiredKind req.path) = .ok cm)
    (hhas : modelsResponseHas resp cm.ref = true)
    (hadapt : adaptRequestBody req.path req.body.bytes = some upstreamBody) :
    ∃ t, Effects.Run effect (humaInference jsonError go cat cfg req) (idleWorld cfg cm) t
      (forward jsonError req.path upstreamBody) (idleWorld cfg cm) ∧
      (⟨.ensure .models, (.ok resp : Except Bytes ModelsResponse)⟩ :
        Event Handlers.Op Handlers.Op.Res) ∈ t ∧ ∀ e ∈ t, isPost e.op = false := by
  obtain ⟨hlimit, hwhole, hr⟩ := hd
  obtain ⟨t, ht, hmodels, hquiet⟩ := available_run go hres (required_idleWorld cfg cm) hhas
  refine ⟨t ++ [], ?_, by simpa using hmodels, by simpa using hquiet⟩
  simp only [humaInference, readLimited, if_neg (Nat.not_lt.mpr hlimit), hwhole, hr, if_neg hne]
  apply ht.bind
  simp only [hadapt]
  exact .refl _ _

theorem resolve_of_kind {ref kind : Text} (hb : cat.byRef ref = some cm) (hk : kindOf cm = kind) :
    EnsureAvailable.resolve cat ref kind = .ok cm := by
  rw [EnsureAvailable.resolve, hb]
  exact if_neg fun h => h.2 hk

theorem panicked_run (go : Library) (cfg : Config) (hacc : Accepted cat req cm) (hmany : AsksTooMany req) :
    ∃ w t w', Effects.Run effect (humaInference jsonError go cat cfg req) w t (.done .panicked) w' ∧
      ∀ e ∈ t, isPost e.op = false := by
  obtain ⟨hpath, payload, n, hp, hn, hmax⟩ := hmany
  obtain ⟨r, hd, hne, hb⟩ := modelRequest_of_accepted hacc hp
  have hother : req.path ≠ responsesPath := by
    intro he
    rw [he] at hpath
    exact absurd hpath (by decide)
  have hnot : ¬ (req.path ≠ chatCompletionsPath ∧ req.path ≠ completionsPath) :=
    fun h => hpath.elim h.1 h.2
  have hbig : ¬ n.toInt ≤ 1 := by
    simp only [maxAlloc, sliceSize] at hmax
    omega
  have hforward : forward jsonError req.path req.body.bytes = .done .panicked := by
    simp only [forward, buildNChoiceRequest, if_neg hnot, hp, hn, if_neg hbig, if_pos hmax, pure_def]
  obtain ⟨t, ht, -, hquiet⟩ := checked_run cfg jsonError go hd hne (resolve_of_kind hb hacc.kind)
    (has_own_ref cm) (if_neg hother)
  rw [hforward] at ht
  exact ⟨_, t, _, ht, hquiet⟩

/-! ## The guarantee -/

/-- Every operation is performed after those that must come before it, and a
request that ends without a call is answered with the error of its failure. -/
structure Enforces (cat : Catalog) (cfg : Config) (req : Request) (p : Handlers.Run Handled) : Prop where
  staged : ∀ w t p' w', Effects.Run effect p w t p' w' → ∀ t₁ e t₂, t = t₁ ++ e :: t₂ →
    ∃ q s, Effects.Run effect p w t₁ q s ∧ Stage cat cfg req (s, t₁) e.op
  answered : ∀ w t r w', Effects.Run effect p w t (.done r) w' → (∀ e ∈ t, isPost e.op = false) →
    ∃ f message, Fails cat req t f ∧ r = .refused (f.reply message)

/-- The stages are kept in every run. A failure before the first call is answered
in every run but one that panics: with files and router at hand, a request for more
choices than a slice can hold gets there. -/
theorem humaInference_enforces (go : Library) (cat : Catalog) (cfg : Config) (req : Request) :
    Enforces cat cfg req (humaInference jsonError go cat cfg req) ↔
      ¬ ∃ cm, Accepted cat req cm ∧ AsksTooMany req := by
  constructor
  · rintro h ⟨cm, hacc, hmany⟩
    obtain ⟨w, t, w', hrun, hquiet⟩ := panicked_run jsonError go cfg hacc hmany
    obtain ⟨f, message, -, hr⟩ := h.answered w t _ w' hrun hquiet
    cases hr
  · intro hno
    have hspec := humaInference_stage jsonError go cat cfg req
    constructor
    · intro w t p' w' hrun t₁ e t₂ ht
      obtain ⟨q, s, hq, hstage, -⟩ := (spec_traced (hspec w) hrun).2 t₁ e t₂ ht
      exact ⟨q, s, hq, hstage⟩
    · intro w t r w' hrun hquiet
      have hend : Handles cat req r t := (spec_traced (hspec w) hrun).1
      cases r with
      | refused reply =>
        obtain ⟨f, message, hf, hr⟩ := hend
        exact ⟨f, message, hf, congrArg Handled.refused hr⟩
      | answered os =>
        obtain ⟨e, he, hpost⟩ := hend
        rw [hquiet e he] at hpost
        cases hpost
      | panicked =>
        obtain ⟨⟨cm, hacc⟩, hmany, -⟩ := hend
        exact absurd ⟨cm, hacc, hmany⟩ hno

def sampleCatalog : Catalog where
  models := [sampleEntry]
  valid := by decide

def sampleConfig : Config := ⟨modelsRoot, [], 4096, 1, 1, 0, []⟩

/-- A chat request for 10^15 choices. -/
def manyChoices : Json :=
  .obj [(quote modelKey, .str (quote sampleEntry.ref)), (quote nKey, .num (formatInt 1000000000000000))]

def tooManyChoices : Request := ⟨chatCompletionsPath, ⟨print manyChoices, .eof⟩⟩

theorem checkValid_manyChoices : checkValid (print manyChoices) = some manyChoices :=
  checkValid_print (by decide)

theorem modelKey_lt_nKey : modelKey < nKey := by decide

theorem accepted_manyChoices : Accepted sampleCatalog tooManyChoices sampleEntry := by
  have hmembers : ofList (rawMembers [(quote modelKey, .str (quote sampleEntry.ref)),
      (quote nKey, .num (formatInt 1000000000000000))]) =
      [(modelKey, .str (quote sampleEntry.ref)), (nKey, .num (formatInt 1000000000000000))] := by
    simp only [rawMembers, List.map_cons, List.map_nil, unquote_quote]
    exact ofList_of_sorted (by simp [Sorted, modelKey_lt_nKey])
  constructor
  · decide +kernel
  · rfl
  · refine ⟨_, quote sampleEntry.ref, checkValid_manyChoices, ?_, by decide +kernel, by decide +kernel⟩
    simp [hmembers, GoMap.get]
  · decide +kernel

theorem asksTooMany_manyChoices : AsksTooMany tooManyChoices := by
  have hmembers : ofList [(modelKey, Value.str sampleEntry.ref),
      (nKey, .num (ofInt64 1000000000000000))] =
      [(modelKey, .str sampleEntry.ref), (nKey, .num (ofInt64 1000000000000000))] :=
    ofList_of_sorted (by simp [Sorted, modelKey_lt_nKey])
  have hp : unmarshal decodeMap tooManyChoices.body.bytes =
      some [(modelKey, .str sampleEntry.ref), (nKey, .num (ofInt64 1000000000000000))] := by
    rw [unmarshal, tooManyChoices, checkValid_manyChoices]
    simp [manyChoices, decodeMap, decodeMembers, decodeValue, hmembers]
  have hget : (get nKey [(modelKey, Value.str sampleEntry.ref),
      (nKey, .num (ofInt64 1000000000000000))]).getD .null = .num (ofInt64 1000000000000000) := by
    simp [GoMap.get, modelKey, nKey]
  have hn : jsonInt (.num (ofInt64 1000000000000000)) = .ok (some 1000000000000000) := by
    decide +kernel
  have hmax : maxAlloc < (1000000000000000 : Int64).toInt.toNat * sliceSize := by decide +kernel
  exact ⟨.inl rfl, _, _, hp, (congrArg jsonInt hget).trans hn, hmax⟩

/-- For so many choices the slice of bodies cannot be made, and the request has no answer. -/
theorem humaInference_not_enforces :
    ¬ Enforces sampleCatalog sampleConfig tooManyChoices
      (humaInference id sampleLibrary sampleCatalog sampleConfig tooManyChoices) := by
  intro h
  obtain ⟨w, t, w', hrun, hquiet⟩ := panicked_run id sampleLibrary sampleConfig accepted_manyChoices
    asksTooMany_manyChoices
  obtain ⟨f, message, -, hr⟩ := h.answered w t _ w' hrun hquiet
  cases hr

end AllowlistEnforcement
