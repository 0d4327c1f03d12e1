import LlamaStack.AllowlistEnforcement
import LlamaStack.Phases
import LlamaStack.SharedFiles

/-!
# Inference requests at the same time

Whole requests that share files and locks, each with the calls of the upstream that come
after its `EnsureAvailable`. What a run of them does before their calls is a run of
`EnsureAvailable` calls.
-/
namespace InferenceRuns

open Effects Interleaving Phases GoBytes GoJson ModelCatalog RouterManager NChoiceResponse OpenaiApi Handlers ModelLocks
  DownloaderAtomicity DownloadMarks DownloadViews SharedFiles AllowlistEnforcement

variable {ι : Type} [DecidableEq ι] (jsonError : Bytes → Bytes) (go : HfDownloader.Library) (cat : Catalog)
  (cfg : Config)

/-- What an operation of a request may return and do. Calls of the upstream leave what
the requests share. -/
def effect (i : ι) : Meaning Handlers.Op Handlers.Op.Res (Shared ι)
  | s, .ensure o, r, s' => ModelLocks.effect i s o r s'
  | s, .post _, _, s' => s' = s

/-- All requests before their first operation, and no lock made. -/
def serving (reqs : ι → Request) (w₀ : HfDownloader.World) :
    Pool ι Handlers.Op Handlers.Op.Res Handled (Shared ι) where
  prog i := humaInference jsonError go cat cfg (reqs i)
  state :=
    { world := w₀, modelLocks := fun _ => none, made := 0, locked := fun _ => false, cancelled := fun _ => none }

omit [DecidableEq ι] in
theorem serving_prog (reqs : ι → Request) (w₀ : HfDownloader.World) (i : ι) :
    (serving jsonError go cat cfg reqs w₀).prog i = humaInference jsonError go cat cfg (reqs i) := rfl

/-! ## The first part of a request -/

/-- The model that a request asks for; empty if it is refused before that. -/
def asked (req : Request) : Text :=
  match readLimited req.body maxInferenceBodyBytes with
  | .error _ => []
  | .ok body => ((unmarshal (ModelRequest.unmarshalJSON · {}) body).map ModelRequest.model).getD []

/-- The handler behind `EnsureAvailable`. -/
def answering (req : Request) (err : Option EnsureAvailable.Error) : Handlers.Run Handled :=
  match err with
  | some err => return .refused (writeEnsureError err)
  | none =>
    match adaptRequestBody req.path req.body.bytes with
    | none => return .refused (writeOpenAIError 400 invalidRequestError "invalid_request".toList
        (jsonError req.body.bytes))
    | some upstreamBody => forward jsonError req.path upstreamBody

variable {jsonError go cat cfg} {req : Request}

theorem readLimited_ok {body : Bytes} (h : readLimited req.body maxInferenceBodyBytes = .ok body) :
    body = req.body.bytes ∧ req.body.bytes.length ≤ maxInferenceBodyBytes ∧ req.body.ending = .eof := by
  unfold readLimited at h
  split at h
  · cases h
  · rename_i hlimit
    cases hend : req.body.ending with
    | failed message =>
      rw [hend] at h
      cases h
    | eof =>
      rw [hend] at h
      exact ⟨(Except.ok.inj h).symm, Nat.not_lt.mp hlimit, rfl⟩

theorem decodes_of_asked (h : asked req ≠ []) : ∃ r, Decodes req (some r) ∧ r.model = asked req := by
  unfold asked at h ⊢
  cases hread : readLimited req.body maxInferenceBodyBytes with
  | error err =>
    rw [hread] at h
    exact absurd rfl h
  | ok body =>
    obtain ⟨rfl, hlimit, hend⟩ := readLimited_ok hread
    rw [hread] at h
    cases hr : unmarshal (ModelRequest.unmarshalJSON · {}) req.body.bytes with
    | none =>
      simp only [hr] at h
      exact absurd rfl h
    | some r => exact ⟨r, ⟨hlimit, hend, hr⟩, by simp [hr]⟩

variable (jsonError go cat cfg)

/-- A request begins with the `EnsureAvailable` of its model, or is refused at once. -/
theorem humaInference_eq (req : Request) :
    (asked req = [] ∧ ∃ r, humaInference jsonError go cat cfg req = .done (.refused r)) ∨
      asked req ≠ [] ∧ humaInference jsonError go cat cfg req =
        (EnsureAvailable.ensureAvailable go cat cfg (asked req) (requiredKind req.path)).lift Handlers.Op.ensure
          (fun _ r => r) >>= answering jsonError req := by
  unfold humaInference asked
  cases hread : readLimited req.body maxInferenceBodyBytes with
  | error err => exact .inl ⟨rfl, _, rfl⟩
  | ok body =>
    obtain ⟨rfl, -, -⟩ := readLimited_ok hread
    cases hr : unmarshal (ModelRequest.unmarshalJSON · {}) req.body.bytes with
    | none =>
      simp only [hr]
      exact .inl ⟨rfl, _, rfl⟩
    | some r =>
      simp only [hr, Option.map_some, Option.getD_some]
      by_cases hne : r.model = []
      · rw [if_pos hne]
        exact .inl ⟨hne, _, rfl⟩
      · rw [if_neg hne]
        exact .inr ⟨hne, rfl⟩

/-- No entry goes by the empty name. -/
theorem byRef_nil (cat : Catalog) : cat.byRef [] = none := by
  rw [Catalog.byRef, List.find?_eq_none]
  intro m _
  have href : m.ref ≠ [] := by simp [Model.ref]
  have hname : m.displayName ≠ [] := by
    unfold Model.displayName
    split
    · assumption
    · exact href
  simp [href, hname]

theorem humaInference_phase (req : Request) :
    Phase Handlers.Op.ensure (fun _ r => r) (answering jsonError req)
      (EnsureAvailable.ensureAvailable go cat cfg (asked req) (requiredKind req.path))
      (humaInference jsonError go cat cfg req) := by
  cases humaInference_eq jsonError go cat cfg req with
  | inl hrefused =>
    obtain ⟨hasked, r, hr⟩ := hrefused
    rw [hr, hasked, EnsureAvailable.ensureAvailable, EnsureAvailable.resolve, byRef_nil]
    exact .ended _ _
  | inr hasks =>
    rw [hasks.2]
    exact .first _

theorem postAll_later (stream : Bool) (bodies : List Bytes) :
    Spec free (fun _ o => Later Handlers.Op.ensure o) (fun _ _ => True) (postAll jsonError stream bodies) () := by
  induction bodies with
  | nil => trivial
  | cons body bodies ih =>
    refine spec_op (fun _ h => by cases h) fun o _ _ => ?_
    split
    · trivial
    · exact spec_bind (spec_mono (fun _ _ h => h) (fun _ _ _ => trivial) ih)

theorem forward_later (path : Text) (body : Bytes) :
    Spec free (fun _ o => Later Handlers.Op.ensure o) (fun _ _ => True) (forward jsonError path body) () := by
  unfold forward
  cases NChoices.buildNChoiceRequest jsonError path body with
  | failed message => trivial
  | panicked => trivial
  | request r =>
    simp only
    split
    · exact spec_bind (spec_mono (fun _ _ h => h) (fun _ _ _ => trivial) (postAll_later jsonError r.stream r.bodies))
    · exact spec_op (fun _ h => by cases h) fun _ _ _ => trivial

theorem answering_later (req : Request) : Parted Handlers.Op.ensure (answering jsonError req) := by
  intro err
  cases err with
  | some err => trivial
  | none =>
    unfold answering
    cases adaptRequestBody req.path req.body.bytes with
    | none => trivial
    | some upstreamBody => exact forward_later jsonError req.path upstreamBody

/-! ## The run of the first parts -/

/-- An event of `EnsureAvailable`. -/
def ofEvent : Event Handlers.Op Handlers.Op.Res → Option (Event EnsureAvailable.Op EnsureAvailable.Op.Res)
  | ⟨.ensure o, r⟩ => some ⟨o, r⟩
  | ⟨.post _, _⟩ => none

omit [DecidableEq ι] in
theorem parts : Parts (ι := ι) Handlers.Op.ensure (fun _ r => r) ModelLocks.effect effect ofEvent where
  first _ _ _ _ _ := .rfl
  later i s o' r s' hlater he := by
    cases o' with
    | ensure o => exact absurd rfl (hlater o)
    | post body => exact he
  event _ _ := rfl
  other o' r hlater := by
    cases o' with
    | ensure o => exact absurd rfl (hlater o)
    | post body => rfl

variable {jsonError go cat cfg} {reqs : ι → Request} {w₀ : HfDownloader.World}
  {H : History ι Handlers.Op Handlers.Op.Res} {Q : Pool ι Handlers.Op Handlers.Op.Res Handled (Shared ι)} {i : ι}

/-- What requests do before their calls is a run of `EnsureAvailable` on the same states. -/
theorem ensured_of_runs (hruns : Runs effect Cancel (serving jsonError go cat cfg reqs w₀) H Q) :
    ∃ R, Runs ModelLocks.effect Cancel
        (started go cat cfg (fun i => asked (reqs i)) (fun i => requiredKind (reqs i).path) w₀) (firsts ofEvent H) R ∧
      R.state = Q.state ∧
      ∀ i, Phase Handlers.Op.ensure (fun _ r => r) (answering jsonError (reqs i)) (R.prog i) (Q.prog i) :=
  runs_first parts (fun i => answering_later jsonError (reqs i))
    (fun i => humaInference_phase jsonError go cat cfg (reqs i)) hruns

/-! ## What has happened before a call -/

section Returned

variable {ref requiredKind : ι → Text} {T : History ι EnsureAvailable.Op EnsureAvailable.Op.Res}
  {R : Pool ι EnsureAvailable.Op EnsureAvailable.Op.Res (Option EnsureAvailable.Error) (Shared ι)}

/-- A call of `EnsureAvailable` that has returned without an error has asked its context
and the router after its downloads, and has released its lock. -/
theorem asks_of_returned
    (hruns : Runs ModelLocks.effect Cancel (started go cat cfg ref requiredKind w₀) T R) (hi : R.prog i = .done none) :
    ∃ cm m, ∃ td : List (Event HfDownloader.Op HfDownloader.Op.Res), ∃ resp,
      EnsureAvailable.resolve cat (ref i) (requiredKind i) = .ok cm ∧
      own i T = ⟨.lockFor cm.ref, m⟩ :: ⟨.lock m, ()⟩ ::
        (td.map SerialDownloads.asEvent ++ [⟨.ctxErr, none⟩, ⟨.models, .ok resp⟩, ⟨.unlock m, ()⟩]) ∧
      modelsResponseHas resp cm.ref = true := by
  cases stage_of_runs hruns i with
  | inr hfailed =>
    obtain ⟨err, -, -, hdone⟩ := hfailed
    rw [hi] at hdone
    cases hdone
  | inl hstage =>
    obtain ⟨cm, hr, hstage⟩ := hstage
    rw [hi] at hstage
    generalize own i T = t at hstage ⊢
    generalize hq : (Prog.done none : EnsureAvailable.Run (Option EnsureAvailable.Error)) = q at hstage
    cases hstage with
    | start => cases hq
    | waiting m => cases hq
    | @inside m t q hrun =>
      cases q with
      | done err => cases hq
      | perform o next => cases hq
    | @returned m t err hrun =>
      cases hq
      obtain ⟨r, t', -, ht, hchecks⟩ := SerialDownloads.download_of_done hrun
      obtain ⟨found, resp, -, rfl, hhas⟩ := SerialDownloads.checks_of_none hchecks
      refine ⟨cm, m, t.filterMap SerialDownloads.ofEvent, resp, hr, ?_, hhas⟩
      nth_rewrite 1 [ht]
      rw [List.append_assoc]
      rfl

/-- What a request that may call the upstream has seen, and what the files are. -/
structure Ready (modelsDir : Text) (cm : Model) (t : List (Event EnsureAvailable.Op EnsureAvailable.Op.Res))
    (w : HfDownloader.World) : Prop where
  main : Complete w (cm.stablePath modelsDir)
  projector : cm.mmproj ≠ [] → Complete w (cm.mmprojStablePath modelsDir)
  listed : ∃ resp, ⟨.models, .ok resp⟩ ∈ t ∧ modelsResponseHas resp cm.ref = true
  asked : ⟨.ctxErr, none⟩ ∈ t
  released : ∀ m, ¬ Holds t m

theorem ready_of_returned (hw : Whole cfg.modelsDir w₀)
    (hruns : Runs ModelLocks.effect Cancel (started go cat cfg ref requiredKind w₀) T R)
    (hapart : Apart cat ref requiredKind T) (hi : R.prog i = .done none) :
    ∃ cm, EnsureAvailable.resolve cat (ref i) (requiredKind i) = .ok cm ∧
      Ready cfg.modelsDir cm (own i T) R.state.world := by
  obtain ⟨cm, m, td, resp, hr, hown, hhas⟩ := asks_of_returned hruns hi
  obtain ⟨hagrees, hview⟩ := agrees_of_runs hw hruns hapart
  have hm : cm.validate = .ok () := cat.valid cm (EnsureAvailable.mem_of_resolve hr)
  have hend := hview i
  rw [hi] at hend
  obtain ⟨hmain, hproj⟩ := hend.2 cm hr rfl
  have hstable := isStable_main cfg.modelsDir hm
  refine ⟨cm, hr, complete_of_present hagrees.whole hstable (hagrees.known i _ hmain hstable), fun hj => ?_,
    ⟨resp, by simp [hown], hhas⟩, by simp [hown], ?_⟩
  · have hstable := isStable_mmproj cfg.modelsDir hm hj
    exact complete_of_present hagrees.whole hstable (hagrees.known i _ (hproj hj) hstable)
  · rintro l ⟨⟨e, he, hlock⟩, hno⟩
    have hl : l = m := by
      rw [hown] at he
      simp only [List.mem_cons, List.mem_append, List.mem_map, List.not_mem_nil, or_false] at he
      rcases he with rfl | rfl | ⟨e, -, rfl⟩ | rfl | rfl | rfl
      all_goals cases hlock
      rfl
    exact hno ⟨.unlock m, ()⟩ (by simp [hown]) (by rw [hl])

end Returned

theorem asked_of_perform (hruns : Runs effect Cancel (serving jsonError go cat cfg reqs w₀) H Q) {o : Handlers.Op}
    {next : Handlers.Op.Res o → Handlers.Run Handled} (hi : Q.prog i = .perform o next) : asked (reqs i) ≠ [] := by
  cases humaInference_eq jsonError go cat cfg (reqs i) with
  | inr hasks => exact hasks.1
  | inl hrefused =>
    obtain ⟨-, r, hr⟩ := hrefused
    have hrun := run_own hruns i
    rw [serving_prog, hr] at hrun
    rw [(run_done hrun).2.1] at hi
    cases hi

/-- At every call of the upstream the model of the request has complete files, the router
has listed it, and the request holds no lock. -/
theorem ready_of_runs (hw : Whole cfg.modelsDir w₀)
    (hruns : Runs effect Cancel (serving jsonError go cat cfg reqs w₀) H Q)
    (hapart : Apart cat (fun i => asked (reqs i)) (fun i => requiredKind (reqs i).path) (firsts ofEvent H))
    {body : Bytes} {next : Outcome → Handlers.Run Handled} (hi : Q.prog i = .perform (.post body) next) :
    ∃ cm, Accepted cat (reqs i) cm ∧ Ready cfg.modelsDir cm (own i (firsts ofEvent H)) Q.state.world := by
  obtain ⟨R, hR, hstate, hphase⟩ := ensured_of_runs hruns
  have hpost := hphase i
  rw [hi] at hpost
  obtain ⟨err, t, hdone, hrun⟩ := later_of_phase (fun _ h => by cases h) hpost
  cases err with
  | some err =>
    obtain ⟨-, h, -⟩ := run_done hrun
    cases h
  | none =>
    obtain ⟨cm, hr, hready⟩ := ready_of_returned hw hR hapart hdone
    have hasked := asked_of_perform hruns hi
    obtain ⟨r, hd, hmodel⟩ := decodes_of_asked hasked
    rw [hstate] at hready
    exact ⟨cm, accepted_of_resolve hd (hmodel ▸ hasked) (hmodel ▸ hr), hready⟩

/-- Where no two refs share a file, no run of any requests leaves anything but complete
bodies at stable paths, and every call of the upstream is made for a model that is ready. -/
theorem posts_ready (hcat : Unshared cfg.modelsDir cat) (hw : Whole cfg.modelsDir w₀)
    (hruns : Runs effect Cancel (serving jsonError go cat cfg reqs w₀) H Q) :
    Whole cfg.modelsDir Q.state.world ∧
      ∀ i body next, Q.prog i = .perform (.post body) next →
        ∃ cm, Accepted cat (reqs i) cm ∧ Ready cfg.modelsDir cm (own i (firsts ofEvent H)) Q.state.world := by
  obtain ⟨R, hR, hstate, -⟩ := ensured_of_runs hruns
  refine ⟨?_, fun i body next hi => ready_of_runs hw hruns (hcat.apart hR) hi⟩
  rw [← hstate]
  exact hcat.whole hw hR

section Sample

open GoMap CatalogPaths SingleDownload

theorem asked_of_decodes {r : ModelRequest} (hd : Decodes req (some r)) : asked req = r.model := by
  obtain ⟨hlimit, hwhole, hr⟩ := hd
  simp only [asked, readLimited, if_neg (Nat.not_lt.mpr hlimit), hwhole, hr, Option.map_some, Option.getD_some]

variable (jsonError go cfg)

omit [DecidableEq ι] in
/-- A request that finds its files and its model listed comes to what is behind
`EnsureAvailable`. -/
theorem run_answering {r : ModelRequest} {cm : Model} {s : Shared ι} (hd : Decodes req (some r)) (hne : r.model ≠ [])
    (hr : EnsureAvailable.resolve cat r.model (requiredKind req.path) = .ok cm) (hnew : s.modelLocks cm.ref = none)
    (hfree : s.locked s.made = false) (hctx : s.cancelled i = none)
    (hmain : HfDownloader.Present s.world.files (cm.stablePath cfg.modelsDir))
    (hproj : HfDownloader.Present s.world.files (cm.mmprojStablePath cfg.modelsDir)) :
    ∃ t s', Effects.Run (effect i) (humaInference jsonError go cat cfg req) s t (answering jsonError req none) s' := by
  obtain ⟨t, s', hrun⟩ := run_found hnew hfree hctx hmain hproj
  have hlift := Run.lift (effect i) Handlers.Op.ensure (fun _ r => r) (fun _ r => r) (fun _ _ => rfl)
    (fun _ _ _ _ he => he) hrun
  have hasked := asked_of_decodes hd
  cases humaInference_eq jsonError go cat cfg req with
  | inl hrefused => exact absurd (hasked.symm.trans hrefused.1) hne
  | inr hasks =>
    rw [hasks.2, hasked, RivalDownloads.ensureAvailable_eq hr]
    exact ⟨_, s', hlift.bind (.refl _ _)⟩

/-- `{"model": …}`, for the entry. -/
def embeddingBody : Json := .obj [(quote modelKey, .str (quote embeddingEntry.ref))]

def embeddingRequest : Request := ⟨embeddingsPath, ⟨print embeddingBody, .eof⟩⟩

theorem checkValid_embeddingBody : checkValid (print embeddingBody) = some embeddingBody := checkValid_print (by decide)

theorem accepted_embedding : Accepted twoModels embeddingRequest embeddingEntry := by
  have hmembers : ofList (rawMembers [(quote modelKey, Json.str (quote embeddingEntry.ref))]) =
      [(modelKey, .str (quote embeddingEntry.ref))] := by
    simp only [rawMembers, List.map_cons, List.map_nil, unquote_quote]
    rfl
  refine ⟨by decide +kernel, rfl, ⟨_, quote embeddingEntry.ref, checkValid_embeddingBody, ?_, ?_, ?_⟩,
    by decide +kernel⟩
  · simp [hmembers, GoMap.get]
  · decide +kernel
  · decide +kernel

theorem unmarshal_embeddingBody :
    unmarshal decodeMap embeddingRequest.body.bytes = some [(modelKey, .str embeddingEntry.ref)] := by
  rw [unmarshal, embeddingRequest, checkValid_embeddingBody]
  simp [embeddingBody, decodeMap, decodeMembers, decodeValue, ofList, store]

theorem answering_embedding : answering id embeddingRequest none =
    .perform (.post embeddingRequest.body.bytes) fun o => .done (.answered [o]) := by
  have hadapt : adaptRequestBody embeddingRequest.path embeddingRequest.body.bytes = some embeddingRequest.body.bytes :=
    if_neg (by decide)
  have hbuild : NChoices.buildNChoiceRequest id embeddingRequest.path embeddingRequest.body.bytes =
      .request ⟨[embeddingRequest.body.bytes], 1, false⟩ := if_pos (by decide)
  simp only [answering, hadapt, forward, hbuild]
  rfl

def modelFiles (cat : Catalog) : List Text :=
  cat.models.flatMap fun m => [m.stablePath modelsRoot, m.mmprojStablePath modelsRoot]

/-- The files of both entries, and the body that they hold. -/
def filledWorld : HfDownloader.World := ⟨filesAt (modelFiles twoModels), [[0]]⟩

theorem present_filled {m : Model} (hm : m ∈ twoModels.models) :
    HfDownloader.Present filledWorld.files (m.stablePath modelsRoot) ∧
      HfDownloader.Present filledWorld.files (m.mmprojStablePath modelsRoot) :=
  ⟨⟨[0], read_filesAt (List.mem_flatMap.mpr ⟨m, hm, by simp⟩), by simp⟩,
    ⟨[0], read_filesAt (List.mem_flatMap.mpr ⟨m, hm, by simp⟩), by simp⟩⟩

theorem whole_filled : Whole modelsRoot filledWorld := whole_filesAt _

/-- Two requests for an entry whose files are there. -/
def embeddingRequests : Pool Bool Handlers.Op Handlers.Op.Res Handled (Shared Bool) :=
  serving id sampleLibrary twoModels smallConfig (fun _ => embeddingRequest) filledWorld

theorem posts_ready_embedding : ∃ H Q body next, Runs effect Cancel embeddingRequests H Q ∧
    Q.prog false = .perform (.post body) next ∧ Whole modelsRoot Q.state.world ∧
      ∀ i body next, Q.prog i = .perform (.post body) next →
        ∃ cm, Accepted twoModels embeddingRequest cm ∧
          Ready modelsRoot cm (own i (firsts ofEvent H)) Q.state.world := by
  obtain ⟨r, hd, hne, hb⟩ := modelRequest_of_accepted accepted_embedding unmarshal_embeddingBody
  have hr := resolve_of_kind hb accepted_embedding.kind
  have hpresent := present_filled (m := embeddingEntry) List.mem_cons_self
  obtain ⟨t, s', hrun⟩ := run_answering id sampleLibrary smallConfig (i := false) (s := embeddingRequests.state) hd hne
    hr rfl rfl rfl hpresent.1 hpresent.2
  rw [answering_embedding] at hrun
  have hstart : embeddingRequests.prog false = humaInference id sampleLibrary twoModels smallConfig embeddingRequest :=
    serving_prog ..
  have hruns := runs_alone (N := Cancel) (P := embeddingRequests) hrun hstart rfl
  obtain ⟨hwhole, hready⟩ := posts_ready unshared_twoModels whole_filled hruns
  exact ⟨_, _, _, _, hruns, rfl, hwhole, hready⟩

end Sample

end InferenceRuns
