import LlamaStack.Erasure
import LlamaStack.InferenceServing

/-!
# Requests with their clients

Inference requests at the same time, each with its client and the answers that the upstream has for
it. With the operations on clients and on headers left out, they do what requests do that come to
their answers at once.
-/
namespace GatewayRefinement

open Effects Interleaving Erasure GoBytes ModelCatalog NChoices Handlers Responding ClientResponse
  InferenceReplies InferenceServing ModelLocks SharedFiles DownloaderAtomicity

/-! ## What is observed -/

/-- Of the operations of a response only the calls are observed, by the body that they send. -/
def callView : ∀ o : Responding.Op, View Responding.Op.Res Handlers.Op.Res o
  | .call r => .shown (.post r.body) outcome
  | .range _ => .hidden
  | .read => .hidden
  | .close => .hidden
  | .appendHeader .. => .hidden
  | .setHeader .. => .hidden
  | .setStatus _ => .hidden
  | .write _ => .hidden
  | .flush => .hidden

def opView : ∀ o : InferenceServing.Op, View InferenceServing.Op.Res Handlers.Op.Res o
  | .ensure o => .shown (.ensure o) fun r => r
  | .respond o => (callView o).before fun r => r

/-- The other program may have more to do at the end. -/
abbrev Follows {α β : Type} (p : Responding.Run α) (q : Handlers.Run β) : Prop :=
  Simulates callView (fun _ _ => True) p q

abbrev Silent {α : Type} (p : Responding.Run α) : Prop := Unseen callView (fun _ => True) p

/-! ## Silent programs -/

theorem silent_write (b : Bytes) : Silent (Responding.write b) := ⟨rfl, fun _ => trivial⟩

theorem silent_lastWrite (b : Bytes) : Silent (Responding.write b >>= fun _ => (pure () : Responding.Run Unit)) :=
  unseen_bind (silent_write b) fun _ _ => trivial

theorem silent_writeJSON (status : Nat) (v : GoJson.Json) : Silent (writeJSON status v) :=
  unseen_op rfl fun _ => unseen_op rfl fun _ => silent_lastWrite _

theorem silent_writeProxyError (message : Bytes) : Silent (Responding.writeProxyError message) := by
  unfold Responding.writeProxyError
  split
  · exact silent_writeJSON ..
  · exact silent_writeJSON ..

theorem silent_appendValues (name : Text) (vs : List Bytes) : Silent (appendValues name vs) := by
  induction vs with
  | nil => trivial
  | cons v vs ih => exact ⟨rfl, fun _ => ih⟩

theorem silent_appendEntries (es : List (Text × List Bytes)) : Silent (appendEntries es) := by
  induction es with
  | nil => trivial
  | cons e es ih =>
    unfold appendEntries
    split
    · exact ih
    · exact unseen_bind (silent_appendValues e.1 e.2) fun _ _ => ih

theorem silent_appendResponseHeaders (h : HttpHeader.Header) : Silent (appendResponseHeaders h) :=
  ⟨rfl, fun es => silent_appendEntries es⟩

theorem silent_play (ops : List GoStream.Op) : Silent (RespondingLoops.play ops) := by
  induction ops with
  | nil => trivial
  | cons o ops ih =>
    cases o with
    | read => exact ⟨rfl, fun _ => ih⟩
    | flush => exact ⟨rfl, fun _ => ih⟩
    | write b =>
      refine unseen_bind (silent_write b) fun err _ => ?_
      cases err with
      | some e => trivial
      | none => exact ih

/-- A loop ends with the error of its trace, or with that of a write. -/
theorem silent_playThen (t : List GoStream.Op × Option Bytes) :
    Unseen callView (fun err => err = none → t.2 = none) (RespondingLoops.playThen t) := by
  refine unseen_bind (silent_play t.1) fun err _ => ?_
  cases err with
  | some e => exact nofun
  | none => exact id

theorem silent_loop (t : List GoStream.Op × Option Bytes) :
    Silent (RespondingLoops.playThen t >>= fun _ => (pure () : Responding.Run Unit)) :=
  unseen_bind (silent_playThen t) fun _ _ => trivial

theorem silent_writeHead (resp : Response) : Silent (writeHead resp) := by
  refine unseen_bind (silent_appendResponseHeaders resp.header) fun _ _ => ?_
  have hdefault : Silent (defaultContentType resp.header) := by
    unfold defaultContentType
    split
    · exact ⟨rfl, fun _ => trivial⟩
    · trivial
  exact unseen_bind hdefault fun _ _ => ⟨rfl, fun _ => trivial⟩

theorem silent_writeBody (path : Text) (resp : Response) : Silent (writeBody path resp) := by
  unfold writeBody
  split
  · split
    · split
      · rw [RespondingLoops.copyResponsesSSE_eq]
        exact silent_loop _
      · rw [RespondingLoops.copyFlush_eq]
        exact silent_loop _
    · refine unseen_op rfl fun _ => ?_
      cases resp.ending with
      | failed message => trivial
      | eof => exact silent_lastWrite _
  · rw [RespondingLoops.copyFlush_eq]
    exact silent_loop _

theorem silent_writeUpstreamResponse (path : Text) (resp : Response) :
    Silent (Responding.writeUpstreamResponse path resp) := by
  unfold Responding.writeUpstreamResponse
  split
  · refine unseen_op rfl fun _ => ?_
    cases resp.ending with
    | failed message => trivial
    | eof =>
      simp only
      split
      · exact silent_writeJSON ..
      · exact unseen_bind (silent_writeHead resp) fun _ _ => silent_lastWrite _
  · exact unseen_bind (silent_writeHead resp) fun _ _ => silent_writeBody path resp

/-- An answer is passed on, and its body closed. -/
theorem silent_passed (path : Text) (resp : Response) :
    Silent (Responding.writeUpstreamResponse path resp >>= fun _ => op Responding.Op.close) :=
  unseen_bind (silent_writeUpstreamResponse path resp) fun _ _ => ⟨rfl, fun _ => trivial⟩

theorem silent_writeSSEError (message : Bytes) : Silent (Responding.writeSSEError message) :=
  unseen_bind (silent_write _) fun _ _ => ⟨rfl, fun _ => trivial⟩

theorem silent_startStream (started : Bool) (h : HttpHeader.Header) : Silent (startStream started h) := by
  unfold startStream
  split
  · trivial
  · exact unseen_bind (silent_appendResponseHeaders h) fun _ _ => ⟨rfl, fun _ => ⟨rfl, fun _ => trivial⟩⟩

theorem silent_writeAggregate (jsonError : Bytes → Bytes) (path : Text) (firstHeader : HttpHeader.Header)
    (bodies : List Bytes) : Silent (writeAggregate jsonError path firstHeader bodies) := by
  unfold writeAggregate
  split
  · exact silent_writeJSON ..
  · exact unseen_bind (silent_appendResponseHeaders firstHeader) fun _ _ =>
      ⟨rfl, fun _ => ⟨rfl, fun _ => silent_lastWrite _⟩⟩

/-! ## Calls -/

section Calls

variable {basePath : Text} {req : Incoming} {headers : HttpHeader.Header} {β : Type} {jsonError : Bytes → Bytes}

/-- A call of the upstream is the call that is observed. -/
theorem follows_proxyDo {body : Bytes} {k : Answer → Responding.Run Unit}
    {next : NChoiceResponse.Outcome → Handlers.Run β} (h : ∀ answer, Follows (k answer) (next (outcome answer))) :
    Follows (proxyDo basePath req headers body >>= k) (.perform (.post body) next) :=
  fun _ => ⟨next, rfl, h⟩

theorem postAll_cons (stream : Bool) (body : Bytes) (bodies : List Bytes) :
    postAll jsonError stream (body :: bodies) = .perform (.post body) fun o =>
      if endsCalls jsonError stream o then .done [o]
      else postAll jsonError stream bodies >>= fun os => .done (o :: os) := rfl

theorem endsCalls_read {resp : Response} (hsuccess : NChoiceResponse.isSuccess resp.status = true)
    (hending : resp.ending = .eof) : endsCalls jsonError false (outcome (.response resp)) ≠ true := by
  simp [endsCalls, outcome, Response.body, hsuccess, hending]

theorem follows_writeNChoiceFrom (path : Text) (firstHeader : Option HttpHeader.Header) (bodies rest : List Bytes) :
    Follows (writeNChoiceFrom jsonError (proxyDo basePath req headers) path firstHeader bodies rest)
      (postAll jsonError false rest) := by
  induction rest generalizing firstHeader bodies with
  | nil => exact simulates_of_unseen (silent_writeAggregate ..) _
  | cons body rest ih =>
    rw [postAll_cons]
    refine follows_proxyDo fun answer => ?_
    cases answer with
    | failed message => exact simulates_of_unseen (silent_writeProxyError message) _
    | response resp =>
      simp only
      by_cases hsuccess : NChoiceResponse.isSuccess resp.status = true
      · rw [if_neg (not_not.mpr hsuccess)]
        refine simulates_op rfl fun _ => simulates_op rfl fun _ => ?_
        cases hending : resp.ending with
        | failed message => exact simulates_of_unseen (silent_writeJSON ..) _
        | eof =>
          rw [if_neg (endsCalls_read hsuccess hending)]
          exact simulates_longer (ih _ _) _
      · rw [if_pos hsuccess]
        exact simulates_of_unseen (silent_passed path resp) _

/-- A stream that was copied to its end, with no failed write, is one that goes on. -/
theorem endsCalls_copied {index : Int64} {emitDone : Bool} {resp : Response}
    (hsuccess : NChoiceResponse.isSuccess resp.status = true)
    (hcopied : (NChoiceSse.copyNChoiceSSE jsonError index emitDone resp.body).2 = none) :
    endsCalls jsonError true (outcome (.response resp)) ≠ true := by
  rw [(NChoiceEvents.copyNChoiceSSE_spec jsonError index emitDone resp.body).2] at hcopied
  simp [endsCalls, outcome, NChoiceEvents.callError, hsuccess, hcopied]

theorem follows_writeNChoiceStreamFrom (path : Text) (i : Nat) (started : Bool) (rest : List Bytes) :
    Follows (writeNChoiceStreamFrom jsonError (proxyDo basePath req headers) path i started rest)
      (postAll jsonError true rest) := by
  induction rest generalizing i started with
  | nil => trivial
  | cons body rest ih =>
    rw [postAll_cons]
    refine follows_proxyDo fun answer => ?_
    cases answer with
    | failed message =>
      simp only
      split
      · exact simulates_of_unseen (silent_writeProxyError message) _
      · exact simulates_of_unseen (silent_writeSSEError message) _
    | response resp =>
      simp only
      by_cases hsuccess : NChoiceResponse.isSuccess resp.status = true
      · rw [if_neg (not_not.mpr hsuccess), RespondingLoops.copyNChoiceSSE_eq]
        refine simulates_unseen (silent_startStream started resp.header) fun _ _ => ?_
        refine simulates_unseen (silent_playThen _) fun err herr => ?_
        refine simulates_op rfl fun _ => simulates_op rfl fun _ => ?_
        cases err with
        | some e => exact simulates_of_unseen (silent_writeSSEError e) _
        | none =>
          rw [if_neg (endsCalls_copied hsuccess (herr rfl))]
          exact simulates_longer (ih _ _) _
      · rw [if_pos hsuccess]
        split
        · exact simulates_of_unseen (silent_passed path resp) _
        · refine simulates_op rfl fun _ => simulates_op rfl fun _ => ?_
          exact simulates_of_unseen (silent_writeSSEError _) _

theorem follows_single (upstreamBody : Bytes) :
    Follows (proxyDo basePath req headers upstreamBody >>= writeAnswer req.path)
      (op (Handlers.Op.post upstreamBody)) := by
  refine follows_proxyDo fun answer => ?_
  cases answer with
  | failed message => exact simulates_of_unseen (silent_writeProxyError message) _
  | response resp => exact simulates_of_unseen (silent_passed req.path resp) _

theorem silent_refuse (status : Nat) (typ code : Text) (msg : Bytes) : Silent (refuse status typ code msg) :=
  unseen_bind (silent_writeJSON ..) fun _ _ => trivial

variable (jsonError basePath req headers)

theorem follows_forward (upstreamBody : Bytes) :
    Follows (InferenceServing.forward jsonError basePath req headers upstreamBody)
      (Handlers.forward jsonError req.path upstreamBody) := by
  unfold InferenceServing.forward Handlers.forward
  cases buildNChoiceRequest jsonError req.path upstreamBody with
  | failed message => exact simulates_of_unseen (silent_refuse ..) _
  | panicked => trivial
  | request r =>
    simp only [respond]
    by_cases hn : 1 < r.n
    · rw [if_pos hn, if_pos hn]
      cases r.stream with
      | true => exact simulates_bind (follows_writeNChoiceStreamFrom req.path 0 false r.bodies) fun _ _ _ => trivial
      | false => exact simulates_bind (follows_writeNChoiceFrom req.path none [] r.bodies) fun _ _ _ => trivial
    · rw [if_neg hn, if_neg hn]
      exact simulates_bind (follows_single upstreamBody) fun _ _ _ => trivial

theorem follows_answer (src : GoStream.Source) (err : Option EnsureAvailable.Error) :
    Follows (answer jsonError basePath req src.bytes err) (InferenceRuns.answering jsonError ⟨req.path, src⟩ err) := by
  cases err with
  | some err =>
    have hsilent : Silent (InferenceServing.writeEnsureError err) := by cases err <;> exact silent_refuse ..
    exact simulates_of_unseen hsilent _
  | none =>
    refine simulates_op rfl fun es => ?_
    unfold InferenceRuns.answering
    simp only
    cases adaptRequestBody req.path src.bytes with
    | none => exact simulates_of_unseen (silent_refuse ..) _
    | some upstreamBody => exact follows_forward basePath req _ jsonError upstreamBody

/-! ## Whole requests -/

theorem simulates_responding {α β : Type} {p : Responding.Run α} {q : Handlers.Run β} (h : Follows p q) :
    Simulates opView (fun _ _ => True) (responding p) q := simulates_lift (fun _ => rfl) h

theorem simulates_ensure {α : Type} (p : EnsureAvailable.Run α) :
    Simulates opView (fun a q => q = .done a) (p.lift Op.ensure fun _ r => r)
      (p.lift Handlers.Op.ensure fun _ r => r) := by
  induction p with
  | done a => rfl
  | perform o next ih => exact ⟨_, rfl, ih⟩

theorem asked_of_check (path : Text) {src : GoStream.Source} {model : Text} (h : check src = .ok model) :
    InferenceRuns.asked ⟨path, src⟩ = model ∧ model ≠ [] := by
  unfold check at h
  unfold InferenceRuns.asked
  cases hread : readLimited src maxInferenceBodyBytes with
  | error err =>
    rw [hread] at h
    cases h
  | ok body =>
    rw [hread] at h
    simp only at h ⊢
    cases hr : GoJson.unmarshal (OpenaiApi.ModelRequest.unmarshalJSON · {}) body with
    | none =>
      rw [hr] at h
      cases h
    | some r =>
      rw [hr] at h
      simp only at h
      split at h
      · cases h
      · rename_i hne
        cases h
        exact ⟨rfl, hne⟩

/-- A request with its client does what the request does that comes to its answers at once. -/
theorem simulates_humaInference (go : HfDownloader.Library) (cat : Catalog) (cfg : RouterManager.Config)
    (src : GoStream.Source) :
    Simulates opView (fun _ _ => True) (InferenceServing.humaInference jsonError go cat cfg basePath req src)
      (Handlers.humaInference jsonError go cat cfg ⟨req.path, src⟩) := by
  rcases humaInference_cases jsonError go cat cfg basePath req src with
    ⟨code, msg, -, heq⟩ | ⟨model, hcheck, heq⟩
  · rw [heq]
    exact simulates_responding (simulates_of_unseen (silent_refuse ..) _)
  · obtain ⟨hasked, hne⟩ := asked_of_check req.path hcheck
    cases InferenceRuns.humaInference_eq jsonError go cat cfg ⟨req.path, src⟩ with
    | inl hrefused => exact absurd (hasked.symm.trans hrefused.1) hne
    | inr hasks =>
      rw [heq, hasks.2, hasked]
      refine simulates_bind (simulates_ensure _) fun err q hq => ?_
      rw [hq]
      exact simulates_responding (follows_answer basePath req jsonError src err)

end Calls

/-! ## Requests at the same time -/

section Requests

variable {ι : Type} [DecidableEq ι]

/-- What the requests share, and for each its client and what the upstream has for it. -/
structure State (ι : Type) where
  shared : Shared ι
  world : ι → World

def effect (i : ι) : Meaning InferenceServing.Op InferenceServing.Op.Res (State ι)
  | s, .ensure o, r, s' => ModelLocks.effect i s.shared o r s'.shared ∧ s'.world = s.world
  | s, .respond o, r, s' => s'.shared = s.shared ∧
    ∃ w, ClientResponse.effect (s.world i) o r w ∧ s'.world = Function.update s.world i w

/-- A context is cancelled; clients and answers stay. -/
def Interrupt (s s' : State ι) : Prop := Cancel s.shared s'.shared ∧ s'.world = s.world

/-- All requests, each with its body and what the upstream will answer to it. -/
def serving (jsonError : Bytes → Bytes) (go : HfDownloader.Library) (cat : Catalog) (cfg : RouterManager.Config)
    (basePath : Text) (reqs : ι → Incoming) (bodies : ι → GoStream.Source) (answers : ι → Nat → Answer)
    (w₀ : HfDownloader.World) : Pool ι InferenceServing.Op InferenceServing.Op.Res Ending (State ι) where
  prog i := InferenceServing.humaInference jsonError go cat cfg basePath (reqs i) (bodies i)
  state :=
    { shared :=
        { world := w₀, modelLocks := fun _ => none, made := 0, locked := fun _ => false, cancelled := fun _ => none }
      world := fun i => start (answers i) }

omit [DecidableEq ι] in
theorem serving_prog (jsonError : Bytes → Bytes) (go : HfDownloader.Library) (cat : Catalog)
    (cfg : RouterManager.Config) (basePath : Text) (reqs : ι → Incoming) (bodies : ι → GoStream.Source)
    (answers : ι → Nat → Answer) (w₀ : HfDownloader.World) (i : ι) :
    (serving jsonError go cat cfg basePath reqs bodies answers w₀).prog i =
      InferenceServing.humaInference jsonError go cat cfg basePath (reqs i) (bodies i) := rfl

/-- The request without its client. -/
def plain (reqs : ι → Incoming) (bodies : ι → GoStream.Source) (i : ι) : Request := ⟨(reqs i).path, bodies i⟩

theorem tracks : Tracks (ι := ι) opView effect InferenceRuns.effect Interrupt Cancel fun s s' => s.shared = s' where
  hidden := by
    intro i o r s s₁ s' hv hs he
    cases o with
    | ensure o => cases hv
    | respond o => exact he.1.trans hs
  shown := by
    intro i o o' back r s s₁ s' hv hs he
    subst hs
    cases o with
    | ensure o =>
      cases hv
      exact ⟨s₁.shared, he.1, rfl⟩
    | respond o =>
      cases o with
      | call u =>
        cases hv
        exact ⟨s.shared, rfl, he.1⟩
      | range h => cases hv
      | read => cases hv
      | close => cases hv
      | appendHeader name value => cases hv
      | setHeader name value => cases hv
      | setStatus status => cases hv
      | write b => cases hv
      | flush => cases hv
  env := by
    intro s s₁ s' hs hn
    subst hs
    exact ⟨s₁.shared, hn.1, rfl⟩

variable {jsonError : Bytes → Bytes} {go : HfDownloader.Library} {cat : Catalog} {cfg : RouterManager.Config}
  {basePath : Text} {reqs : ι → Incoming} {bodies : ι → GoStream.Source} {answers : ι → Nat → Answer}
  {w₀ : HfDownloader.World} {H : History ι InferenceServing.Op InferenceServing.Op.Res}
  {P Q : Pool ι InferenceServing.Op InferenceServing.Op.Res Ending (State ι)} {i : ι}

theorem refined_of_runs
    (hruns : Runs effect Interrupt (serving jsonError go cat cfg basePath reqs bodies answers w₀) H Q) :
    ∃ R, Runs InferenceRuns.effect Cancel (InferenceRuns.serving jsonError go cat cfg (plain reqs bodies) w₀)
        (observed opView H) R ∧
      Q.state.shared = R.state ∧ ∀ i, Simulates opView (fun _ _ => True) (Q.prog i) (R.prog i) :=
  runs_observed tracks hruns (fun i => simulates_humaInference basePath (reqs i) jsonError go cat cfg (bodies i)) rfl

/-! ## Each client -/

theorem effect_self {o : InferenceServing.Op} {r : o.Res} {s s' : State ι} (h : effect i s o r s') :
    serve (s.world i) o r (s'.world i) := by
  cases o with
  | ensure o => exact congrFun h.2 i
  | respond o =>
    obtain ⟨-, w, hw, hworld⟩ := h
    rw [hworld, Function.update_self]
    exact hw

theorem effect_other {j : ι} (hj : i ≠ j) {o : InferenceServing.Op} {r : o.Res} {s s' : State ι}
    (h : effect j s o r s') : s'.world i = s.world i := by
  cases o with
  | ensure o => rw [h.2]
  | respond o =>
    obtain ⟨-, w, -, hworld⟩ := h
    rw [hworld, Function.update_of_ne hj]

/-- What one request does is a run with its own client. -/
theorem run_request (hruns : Runs effect Interrupt P H Q) (i : ι) :
    Effects.Run serve (P.prog i) (P.state.world i) (own i H) (Q.prog i) (Q.state.world i) := by
  induction hruns with
  | refl => exact .refl _ _
  | @snoc Q R t u _ hs ih =>
    cases hs with
    | env hn =>
      rw [List.append_nil]
      simp only [hn.2]
      exact ih
    | @op j o next r s hp he =>
      rw [own_append]
      by_cases hj : i = j
      · subst hj
        rw [hp] at ih
        rw [own_self]
        simp only [Function.update_self]
        exact ih.trans (.step (effect_self he) (.refl _ _))
      · rw [own_other (Ne.symm hj), List.append_nil, effect_other hj he]
        simp only [Function.update_of_ne hj]
        exact ih

/-- A request may call the upstream for its client when it does. -/
theorem allowed_of_runs
    (hruns : Runs effect Interrupt (serving jsonError go cat cfg basePath reqs bodies answers w₀) H Q)
    {o : InferenceServing.Op} {next : o.Res → InferenceServing.Run Ending} (hi : Q.prog i = .perform o next) :
    AllowedOp basePath (reqs i) (Q.state.world i) o := by
  have hspec := (spec_run (spec_humaInference (bodies i) (answers i)) (run_request hruns i)).1
  rw [hi] at hspec
  exact hspec.1

section Sample

open InferenceRuns SingleDownload CatalogPaths SharedFiles

/-- Two requests with clients, for an entry whose files are there; no call reaches the router. -/
def sampleRequests : Pool Bool InferenceServing.Op InferenceServing.Op.Res Ending (State Bool) :=
  serving id sampleLibrary twoModels smallConfig [] (fun _ => sampleIncoming) (fun _ => embeddingRequest.body)
    (fun _ => noRouter) filledWorld

theorem run_asks {p q : EnsureAvailable.Run (Option EnsureAvailable.Error)} {s s' : Shared ι}
    {t : List (Event EnsureAvailable.Op EnsureAvailable.Op.Res)}
    (h : Effects.Run (ModelLocks.effect i) p s t q s') (c : ι → World) :
    Effects.Run (effect i) (p.lift Op.ensure fun _ r => r) ⟨s, c⟩ (ensured t) (q.lift Op.ensure fun _ r => r)
      ⟨s', c⟩ := by
  induction h with
  | refl => exact .refl _ _
  | @step o next r s s₁ s' t p' he _ ih =>
    have hstep : effect i ⟨s, c⟩ (.ensure o) r ⟨s₁, c⟩ := ⟨he, rfl⟩
    exact .step hstep ih

theorem run_client {α : Type} {p : Responding.Run α} {q : InferenceServing.Run α} {w w' : World}
    {t : List (Event InferenceServing.Op InferenceServing.Op.Res)} (h : Effects.Run serve (responding p) w t q w')
    (s : Shared ι) (c : ι → World) :
    Effects.Run (effect i) (responding p) ⟨s, Function.update c i w⟩ t q ⟨s, Function.update c i w'⟩ := by
  induction p generalizing w t with
  | done a =>
    obtain ⟨rfl, rfl, rfl⟩ := run_done h
    exact .refl _ _
  | perform o next ih =>
    cases h with
    | refl => exact .refl _ _
    | @step _ _ r _ w₁ _ _ _ he hrest =>
      have hstep : effect i ⟨s, Function.update c i w⟩ (.respond o) r ⟨s, Function.update c i w₁⟩ := by
        refine ⟨rfl, w₁, ?_, (Function.update_idem ..).symm⟩
        simp only [Function.update_self]
        exact he
      exact .step hstep (ih r hrest)

/-- The first of them, with what its client has seen before and what it will see. -/
theorem runs_sample {q : InferenceServing.Run Ending} {w : World}
    {t : List (Event InferenceServing.Op InferenceServing.Op.Res)}
    (h : Effects.Run serve (responding (answer id [] sampleIncoming embeddingRequest.body.bytes none)) (start noRouter)
      t q w) :
    ∃ H Q, Runs effect Interrupt sampleRequests H Q ∧ Q.prog false = q := by
  obtain ⟨model, es, s', hes, heq⟩ :=
    asks_found sampleIncoming embeddingRequest.body accepted_embedding unmarshal_embeddingBody List.mem_cons_self
  have hclient := run_client (i := false) h s' fun _ => start noRouter
  rw [Function.update_eq_self] at hclient
  have hrun := Run.bind (f := fun err => responding (answer id [] sampleIncoming embeddingRequest.body.bytes err))
    (run_asks (i := false) hes fun _ => start noRouter) hclient
  rw [← heq] at hrun
  have hstart : sampleRequests.prog false = InferenceServing.humaInference id sampleLibrary twoModels smallConfig []
      sampleIncoming embeddingRequest.body := serving_prog ..
  exact ⟨_, _, runs_alone (P := sampleRequests) hrun hstart rfl, by simp only [Function.update_self]⟩

end Sample

/-- What a call of the upstream goes by: a request that the catalog accepts, whose model is ready, and a client
that is still there, whose request it is. -/
structure Called (cat : Catalog) (modelsDir basePath : Text) (req : Incoming) (body : GoStream.Source)
    (t : List (Event EnsureAvailable.Op EnsureAvailable.Op.Res)) (w : HfDownloader.World) (c : World)
    (u : UpstreamRequest) : Prop where
  ready : ∃ cm, AllowlistEnforcement.Accepted cat ⟨req.path, body⟩ cm ∧ InferenceRuns.Ready modelsDir cm t w
  client : c.client.inner.broken = false
  closed : c.reading = false
  forwards : Forwards basePath req u

/-- Where no two refs share a file, no run of any requests with any clients leaves anything but complete bodies
at stable paths, and every call of the upstream is the client's own request, for a model that is ready. -/
theorem calls_ready (hcat : Unshared cfg.modelsDir cat) (hw : Whole cfg.modelsDir w₀)
    (hruns : Runs effect Interrupt (serving jsonError go cat cfg basePath reqs bodies answers w₀) H Q) :
    Whole cfg.modelsDir Q.state.shared.world ∧
      ∀ i u next, Q.prog i = .perform (.respond (.call u)) next →
        Called cat cfg.modelsDir basePath (reqs i) (bodies i)
          (own i (Phases.firsts InferenceRuns.ofEvent (observed opView H))) Q.state.shared.world (Q.state.world i)
          u := by
  obtain ⟨R, hR, hstate, hsim⟩ := refined_of_runs hruns
  obtain ⟨R', hR', hstate', -⟩ := InferenceRuns.ensured_of_runs hR
  refine ⟨?_, fun i u next hi => ?_⟩
  · rw [hstate, ← hstate']
    exact hcat.whole hw hR'
  · have hcall := hsim i
    rw [hi] at hcall
    obtain ⟨next', hpost, -⟩ := hcall
    obtain ⟨hclosed, hclient, hforwards⟩ := allowed_of_runs hruns hi
    rw [hstate]
    exact ⟨InferenceRuns.ready_of_runs hw hR (hcat.apart hR') hpost, hclient, hclosed, hforwards⟩

open InferenceRuns SingleDownload CatalogPaths SharedFiles in
theorem calls_ready_embedding : ∃ H Q u next, Runs effect Interrupt sampleRequests H Q ∧
    Q.prog false = .perform (.respond (.call u)) next ∧ Whole modelsRoot Q.state.shared.world ∧
      ∀ i u next, Q.prog i = .perform (.respond (.call u)) next →
        Called twoModels modelsRoot [] sampleIncoming embeddingRequest.body
          (own i (Phases.firsts ofEvent (observed opView H))) Q.state.shared.world (Q.state.world i) u := by
  obtain ⟨t, u, hcalls⟩ := run_calls embeddingRequest.body.bytes
  obtain ⟨H, Q, hruns, hq⟩ := runs_sample hcalls
  obtain ⟨hwhole, hready⟩ := calls_ready unshared_twoModels whole_filled hruns
  exact ⟨H, Q, u, _, hruns, hq, hwhole, hready⟩

/-- Requests with their clients at the same time are requests that come to their answers at once, once the operations
on headers, bodies and clients are left out; and whatever the others do, the client of each request that has
returned has received the head of its reply, and the body, or the first part of the body if a write failed, with
a line in the log that tells just this. -/
theorem requests_answered
    (hruns : Runs effect Interrupt (serving jsonError go cat cfg basePath reqs bodies answers w₀) H Q) :
    (∃ R, Runs InferenceRuns.effect Cancel (InferenceRuns.serving jsonError go cat cfg (plain reqs bodies) w₀)
        (observed opView H) R ∧ Q.state.shared = R.state) ∧
      ∀ i, Q.prog i = .done .returned →
        ∃ f, ReplyOf jsonError go cat cfg (reqs i).path (bodies i) (answers i) (own i H) f ∧
          Delivered f (Q.state.world i) := by
  refine ⟨?_, fun i hi => ?_⟩
  · obtain ⟨R, hR, hstate, -⟩ := refined_of_runs hruns
    exact ⟨R, hR, hstate⟩
  · have hrun := run_request hruns i
    rw [hi] at hrun
    exact delivered_of_run hrun

open InferenceRuns SingleDownload CatalogPaths SharedFiles in
theorem requests_answered_embedding : ∃ H Q f, Runs effect Interrupt sampleRequests H Q ∧
    Q.prog false = .done .returned ∧
    (∃ R, Runs InferenceRuns.effect Cancel (InferenceRuns.serving id sampleLibrary twoModels smallConfig
      (plain (fun _ => sampleIncoming) fun _ => embeddingRequest.body) filledWorld) (observed opView H) R ∧
        Q.state.shared = R.state) ∧
    ReplyOf id sampleLibrary twoModels smallConfig embeddingsPath embeddingRequest.body noRouter (own false H) f ∧
      Delivered f (Q.state.world false) := by
  obtain ⟨t, w, hgone⟩ := run_noRouter embeddingRequest.body.bytes
  obtain ⟨H, Q, hruns, hq⟩ := runs_sample hgone
  obtain ⟨hrefined, hdelivered⟩ := requests_answered hruns
  obtain ⟨f, hf⟩ := hdelivered false hq
  exact ⟨H, Q, f, hruns, hq, hrefined, hf⟩

end Requests

end GatewayRefinement
