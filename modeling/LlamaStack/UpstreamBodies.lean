import LlamaStack.AllowlistEnforcement
import LlamaStack.RequestItems

/-!
# The bodies that go upstream

What the rewritten bodies of a request say, member by member, beside the body that
the client sent; and the model that they name.
-/
namespace UpstreamBodies

open Effects GoBytes GoJson GoMap RouterManager ModelCatalog NChoices OpenaiApi Handlers
  AllowlistEnforcement

/-! ## Maps of members -/

/-- The members of an object and of what is stored back after a change of one. -/
theorem membersOf_singleChoiceBody {body : Bytes} {payload : Entries Value}
    (h : unmarshal decodeMap body = some payload) {m : Entries Tree} (hm : membersOf body = some m) :
    ∃ m', membersOf (singleChoiceBody payload) = some m' ∧
      ∀ k, k ≠ nKey → get k m' = (get k m).map (mapNums recode) := by
  obtain ⟨j, hj, hp⟩ := Option.bind_eq_some_iff.mp h
  have hparse := parse_of_checkValid hj
  cases j with
  | obj ms =>
    obtain ⟨es, hes, rfl⟩ := Option.map_eq_some_iff.mp hp
    rw [membersOf_of_parse hparse] at hm
    cases hm
    have hsorted : Sorted (store nKey (.int 1) (ofList es)) := store_sorted _ _ (ofList_sorted es)
    refine ⟨_, membersOf_of_parse (parse_print _), fun k hk => ?_⟩
    rw [treeOfMembers_encodeMembers, ofList_of_sorted (mapValues_sorted _ hsorted), get_mapValues,
      get_store_ne hk, ← get_mapValues, mapValues_ofList, mapValues_encodeValue ms es hes,
      ← mapValues_ofList, get_mapValues]
  | _ => simp [membersOf, hparse, treeOf] at hm

/-! ## Responses requests -/

def inputKey : Text := "input".toList

/-- The members of a decoded request: what the declared fields took, and the rest. -/
structure Reads (object : Entries Json) (r : ResponseCreateRequest) : Prop where
  model : ∀ raw, get modelKey object = some raw → decodeString raw [] = some r.model
  stream : ∀ raw, get streamKey object = some raw → decodePtr decodeBool false raw none = some r.stream
  noStream : get streamKey object = none → r.stream = none
  sorted : Sorted r.additionalProperties
  additional : ∀ k, get k r.additionalProperties =
    if k = inputKey ∨ k = modelKey ∨ k = streamKey then none else (get k object).bind decodeValue
  decoded : ∀ k raw, k ≠ inputKey → k ≠ modelKey → k ≠ streamKey → get k object = some raw →
    (decodeValue raw).isSome

theorem reads_of_unmarshalJSON {ms : List (Lexeme × Json)} {r : ResponseCreateRequest}
    (h : ResponseCreateRequest.unmarshalJSON (.obj ms) {} = some r) :
    Reads (ofList (rawMembers ms)) r := by
  obtain ⟨rest, a, m, hfields, hm, hr⟩ := decodeObject_some h
  obtain ⟨hsorted, hget⟩ := takeFields_rest hfields (ofList_sorted _)
  obtain ⟨-, hadd⟩ := decodeAdditional_spec hm
  have hmodel := takeFields_field ResponseCreateRequest.model
    (fun x a => { a with model := x }) (fun _ _ => rfl) [_] hfields (by decide)
    (List.forall_mem_cons.mpr ⟨keeps_map fun _ _ => rfl,
      List.forall_mem_singleton.mpr (keeps_map fun _ _ => rfl)⟩)
  have hstream := takeFields_field ResponseCreateRequest.stream
    (fun x a => { a with stream := x }) (fun _ _ => rfl) [_, _] hfields (by decide)
    (List.forall_mem_cons.mpr ⟨keeps_map fun _ _ => rfl,
      List.forall_mem_singleton.mpr (keeps_map fun _ _ => rfl)⟩)
  have hnone : a.additionalProperties = [] :=
    takeFields_keep ResponseCreateRequest.additionalProperties hfields
      (List.forall_mem_cons.mpr ⟨keeps_map fun _ _ => rfl, List.forall_mem_cons.mpr
        ⟨keeps_map fun _ _ => rfl, List.forall_mem_singleton.mpr (keeps_map fun _ _ => rfl)⟩⟩)
  have hparts : r.model = a.model ∧ r.stream = a.stream ∧ r.additionalProperties = m := by
    cases hr with
    | inl hr => exact ⟨by rw [hr.2], by rw [hr.2], by rw [hr.1, hr.2, hnone]⟩
    | inr hr => exact ⟨by rw [hr], by rw [hr], by rw [hr]⟩
  have hrest : ∀ k, get k rest = if k = inputKey ∨ k = modelKey ∨ k = streamKey then none
      else get k (ofList (rawMembers ms)) := by
    intro k
    rw [hget]
    congr 1
    simp [inputKey, modelKey, streamKey]
  constructor
  · exact hparts.1 ▸ hmodel.2
  · exact hparts.2.1 ▸ hstream.2
  · exact hparts.2.1 ▸ hstream.1
  · exact hparts.2.2 ▸ decodeAdditional_sorted hsorted hm
  · intro k
    rw [hparts.2.2, (hadd k).1, hrest]
    split <;> rfl
  · intro k raw h₁ h₂ h₃ hraw
    apply (hadd k).2 raw
    rw [hrest, if_neg (by simp [h₁, h₂, h₃]), hraw]

theorem get_requestFields (r : ResponseCreateRequest) (k : Text) (hk : k ≠ inputKey) :
    get k (ofList (omitNil "input".toList compact r.input ++ [("model".toList, encodeString r.model)] ++
      omitNil "stream".toList Json.bool r.stream)) =
      if k = streamKey then r.stream.map Json.bool
      else if k = modelKey then some (encodeString r.model) else none := by
  have hother : k ≠ RequestItems.inputKey := hk
  have hwritten := RequestItems.get_requestWritten r k
  rw [if_neg hother] at hwritten
  exact hwritten

/-- What the adapted body says beside its input. -/
structure Adapted (r : ResponseCreateRequest) (m m' : Entries Tree) : Prop where
  model : get modelKey m' = some (.str r.model)
  stream : get streamKey m' = r.stream.map Tree.bool
  rest : ∀ k, k ≠ inputKey → k ≠ modelKey → k ≠ streamKey → get k m' = (get k m).map (mapNums recode)

theorem adapted_of_marshalJSON {ms : List (Lexeme × Json)} {r : ResponseCreateRequest}
    (h : Reads (ofList (rawMembers ms)) r) (input : Option Json) :
    ∃ m', membersOf (print (ResponseCreateRequest.marshalJSON { r with input := input })) = some m' ∧
      Adapted r (ofList (treeOfMembers ms)) m' := by
  obtain ⟨m', htree, hget⟩ := treeOf_encodeObject (omitNil "input".toList compact input ++
    [("model".toList, encodeString r.model)] ++ omitNil "stream".toList Json.bool r.stream) h.sorted
  have hfields := get_requestFields { r with input := input }
  refine ⟨m', membersOf_print htree, ?_, ?_, fun k h₁ h₂ h₃ => ?_⟩
  · rw [hget, hfields _ (by decide), h.additional, if_pos (by simp), if_neg (by decide), if_pos rfl]
    simp [encodeString, treeOf]
  · rw [hget, hfields _ (by decide), h.additional, if_pos (by simp), if_pos rfl]
    cases r.stream <;> rfl
  · rw [hget, hfields _ h₁, h.additional, if_neg (by simp [h₁, h₂, h₃]), if_neg h₃, if_neg h₂, get_treeOf]
    cases hraw : get k (ofList (rawMembers ms)) with
    | none => rfl
    | some raw =>
      obtain ⟨v, hv⟩ := Option.isSome_iff_exists.mp (h.decoded k raw h₁ h₂ h₃ hraw)
      simp [hv, treeOf_encodeValue raw v hv]

theorem membersOf_adapted {body sent : Bytes} (h : RequestAdapter.adaptResponsesRequestBody body = some sent)
    (hne : sent ≠ body) {ms : List (Lexeme × Json)} (hms : parse body = some (.obj ms)) :
    ∃ r m', Reads (ofList (rawMembers ms)) r ∧ membersOf sent = some m' ∧
      Adapted r (ofList (treeOfMembers ms)) m' := by
  unfold RequestAdapter.adaptResponsesRequestBody at h
  cases hr : unmarshal (ResponseCreateRequest.unmarshalJSON · {}) body with
  | none => simp [hr] at h
  | some r =>
    simp only [hr] at h
    have hreads : Reads (ofList (rawMembers ms)) r := by
      obtain ⟨j, hj, hr⟩ := Option.bind_eq_some_iff.mp hr
      cases (parse_of_checkValid hj).symm.trans hms
      exact reads_of_unmarshalJSON hr
    split at h
    · cases h
      exact absurd rfl hne
    · split at h
      · rename_i items _ _
        cases h
        obtain ⟨m', hm', hadapted⟩ := adapted_of_marshalJSON hreads (some (.arr (compactItems
          ((items.map RequestAdapter.normalizeResponseInputItem).map Prod.fst))))
        exact ⟨r, m', hreads, hm', hadapted⟩
      · cases h
        exact absurd rfl hne

/-! ## The model that a body names -/

/-- The name under which the client asks for a model. -/
def requestedModel (req : Request) : Option Text :=
  match (membersOf req.body.bytes).bind (get modelKey) with
  | some (.str name) => some name
  | _ => none

/-- The model of a body is a string, an id or an alias of the router's answer. -/
def NamesListed (resp : ModelsResponse) (body : Bytes) : Prop :=
  ∃ m name, membersOf body = some m ∧ get modelKey m = some (.str name) ∧
    modelsResponseHas resp name = true

variable {cat : Catalog} {cfg : Config} {req : Request} {cm : Model}

/-- Every body that is sent names the model as the client does. -/
theorem model_upstream (hacc : Accepted cat req cm) {body : Bytes} (hup : Upstream req body) :
    ∃ name m, requestedModel req = some name ∧ cat.byRef name = some cm ∧
      membersOf body = some m ∧ get modelKey m = some (.str name) := by
  obtain ⟨ms, s, hj, hs, hne, hb⟩ := hacc.names
  have hparse := parse_of_checkValid hj
  have hm := membersOf_of_parse hparse
  have hmodel : get modelKey (ofList (treeOfMembers ms)) = some (.str (unquote s)) := by
    rw [get_treeOf, hs]
    rfl
  have hreq : requestedModel req = some (unquote s) := by
    simp [requestedModel, hm, hmodel]
  cases hup with
  | whole => exact ⟨_, _, hreq, hb, hm, hmodel⟩
  | oneChoice _ hp =>
    obtain ⟨m', hm', hget⟩ := membersOf_singleChoiceBody hp hm
    refine ⟨_, m', hreq, hb, hm', ?_⟩
    rw [hget _ (by decide), hmodel]
    rfl
  | adapted _ ha =>
    by_cases hsame : body = req.body.bytes
    · exact ⟨_, _, hreq, hb, hsame ▸ hm, hmodel⟩
    · obtain ⟨r, m', hreads, hm', hadapted⟩ := membersOf_adapted ha hsame hparse
      refine ⟨_, m', hreq, hb, hm', ?_⟩
      have hr : some (unquote s) = some r.model := hreads.model _ hs
      rw [hadapted.model, Option.some.inj hr]

/-- An operation that no other of its kind may come before is performed once. -/
theorem event_unique {p : Handlers.Op → Bool} {t : History}
    (h : ∀ t₁ e t₂, t = t₁ ++ e :: t₂ → p e.op = true → ∀ e' ∈ t₁, p e'.op = false)
    {e e' : Event Handlers.Op Handlers.Op.Res} (he : e ∈ t) (he' : e' ∈ t) (hp : p e.op = true)
    (hp' : p e'.op = true) : e = e' := by
  obtain ⟨t₁, t₂, rfl⟩ := List.mem_iff_append.mp he
  cases List.mem_append.mp he' with
  | inl h₁ =>
    rw [h t₁ e t₂ rfl hp e' h₁] at hp'
    cases hp'
  | inr h₂ =>
    cases List.mem_cons.mp h₂ with
    | inl heq => exact heq.symm
    | inr h₂ =>
      obtain ⟨t₃, t₄, rfl⟩ := List.mem_iff_append.mp h₂
      rw [h (t₁ ++ e :: t₃) e' t₄ (by simp) hp' e (by simp)] at hp
      cases hp

/-- The availability of a model is checked under its ref, and the body that is sent
names the model as the client does: the router knows that name exactly when its
answer lists it too. -/
theorem upstream_model_listed (jsonError : Bytes → Bytes) (go : HfDownloader.Library) (cat : Catalog)
    (cfg : Config) (req : Request) {w w' : HfDownloader.World} {t : History} {p' : Handlers.Run Handled}
    (hrun : Effects.Run effect (humaInference jsonError go cat cfg req) w t p' w')
    {resp : ModelsResponse} (hresp : ⟨.ensure .models, .ok resp⟩ ∈ t) {body : Bytes} {o : NChoiceResponse.Outcome}
    (hpost : ⟨.post body, o⟩ ∈ t) :
    ∃ name cm, requestedModel req = some name ∧ cat.byRef name = some cm ∧
      modelsResponseHas resp cm.ref = true ∧
      (NamesListed resp body ↔ modelsResponseHas resp name = true) := by
  have hstages := (spec_traced (humaInference_stage jsonError go cat cfg req w) hrun).2
  have honce : ∀ t₁ e t₂, t = t₁ ++ e :: t₂ → isModels e.op = true → ∀ e' ∈ t₁, isModels e'.op = false := by
    intro t₁ e t₂ ht he
    obtain ⟨-, s, -, -, hsends⟩ := hstages t₁ e t₂ ht
    obtain ⟨op, res⟩ := e
    cases op with
    | post body => cases he
    | ensure op =>
      cases op with
      | models => exact hsends
      | _ => cases he
  obtain ⟨t₁, t₂, ht⟩ := List.mem_iff_append.mp hpost
  obtain ⟨-, s, -, ⟨cm, hacc, hlisted⟩, hup⟩ := hstages t₁ _ t₂ ht
  obtain ⟨resp', hmem, hhas⟩ := hlisted
  obtain ⟨name, m, hreq, hb, hm, hmodel⟩ := model_upstream hacc hup
  have hsame := event_unique honce hresp (ht ▸ List.mem_append_left _ hmem) rfl rfl
  cases hsame
  refine ⟨name, cm, hreq, hb, hhas, ?_⟩
  constructor
  · rintro ⟨m', name', hm', hmodel', hlist⟩
    cases hm.symm.trans hm'
    cases hmodel.symm.trans hmodel'
    exact hlist
  · exact fun hlist => ⟨m, name, hm, hmodel, hlist⟩

/-- An embedding model with a name of its own. -/
def embedder : Model :=
  { CatalogPaths.entry "Qwen/Qwen3-Embedding-GGUF" "Q8_0" with
    kind := "embedding".toList
    name := "embedder".toList }

def embedderCatalog : Catalog where
  models := [embedder]
  valid := by decide

def embeddingBody (name : Text) : Json := .obj [(quote modelKey, .str (quote name))]

def embeddingRequest (name : Text) : Request := ⟨embeddingsPath, ⟨print (embeddingBody name), .eof⟩⟩

theorem membersOf_embeddingBody (name : Text) :
    membersOf (print (embeddingBody name)) = some [(modelKey, .str name)] := by
  rw [embeddingBody, membersOf_of_parse (parse_print _)]
  simp [treeOfMembers, treeOf, ofList, store]

theorem decodes_embeddingRequest {name : Text}
    (hlen : (print (embeddingBody name)).length ≤ maxInferenceBodyBytes) :
    Decodes (embeddingRequest name) (some { model := name }) := by
  refine ⟨hlen, rfl, ?_⟩
  have hj : checkValid (print (embeddingBody name)) = some (embeddingBody name) :=
    checkValid_print (by simp [embeddingBody, depth, depthMembers, maxNestingDepth])
  rw [unmarshal, embeddingRequest, hj]
  simp [embeddingBody, ModelRequest.unmarshalJSON, decodeObject, decodeRawMap, rawMembers, ofList, store,
    takeField, modelKey, GoMap.get, delete, decodeString]

/-- A request for the model, by its ref or its name, while the router lists the ref. -/
theorem embedding_run (name : Text) (hne : name ≠ []) (hb : embedderCatalog.byRef name = some embedder)
    (hlen : (print (embeddingBody name)).length ≤ maxInferenceBodyBytes) (cfg : Config) :
    ∃ t p', Effects.Run effect (humaInference id DownloaderAtomicity.sampleLibrary embedderCatalog cfg
        (embeddingRequest name)) (idleWorld cfg embedder) t p' (idleWorld cfg embedder) ∧
      (⟨.ensure .models, (.ok ⟨[], [{ id := embedder.ref }]⟩ : Except Bytes ModelsResponse)⟩ :
        Event Handlers.Op Handlers.Op.Res) ∈ t ∧
      ⟨.post (print (embeddingBody name)), .failed []⟩ ∈ t := by
  have hother : embeddingsPath ≠ responsesPath := by decide
  have hkind : kindOf embedder = requiredKind embeddingsPath := by decide
  obtain ⟨t, ht, hmodels, -⟩ := checked_run cfg id DownloaderAtomicity.sampleLibrary
    (decodes_embeddingRequest hlen) hne (resolve_of_kind hb hkind) (has_own_ref embedder)
    (if_neg hother)
  have hpath : embeddingsPath ≠ chatCompletionsPath ∧ embeddingsPath ≠ completionsPath := by decide
  have hforward : forward id (embeddingRequest name).path (embeddingRequest name).body.bytes =
      .perform (.post (print (embeddingBody name))) fun o => .done (.answered [o]) := by
    simp only [forward, buildNChoiceRequest, embeddingRequest, if_pos hpath]
    rfl
  rw [hforward] at ht
  refine ⟨_, _, ht.trans (.step (r := .failed []) rfl (.refl _ _)), ?_, ?_⟩
  · exact List.mem_append_left _ hmodels
  · simp

theorem upstream_model_listed_ref : ∃ t p', Effects.Run effect (humaInference id
      DownloaderAtomicity.sampleLibrary embedderCatalog sampleConfig (embeddingRequest embedder.ref))
      (idleWorld sampleConfig embedder) t p' (idleWorld sampleConfig embedder) ∧
    (⟨.ensure .models, (.ok ⟨[], [{ id := embedder.ref }]⟩ : Except Bytes ModelsResponse)⟩ :
      Event Handlers.Op Handlers.Op.Res) ∈ t ∧
    ⟨.post (print (embeddingBody embedder.ref)), .failed []⟩ ∈ t ∧
    ∃ name cm, requestedModel (embeddingRequest embedder.ref) = some name ∧
      embedderCatalog.byRef name = some cm ∧
      modelsResponseHas ⟨[], [{ id := embedder.ref }]⟩ cm.ref = true ∧
      (NamesListed ⟨[], [{ id := embedder.ref }]⟩ (print (embeddingBody embedder.ref)) ↔
        modelsResponseHas ⟨[], [{ id := embedder.ref }]⟩ name = true) := by
  obtain ⟨t, p', hrun, hmodels, hpost⟩ := embedding_run embedder.ref (by decide) (by decide)
    (by decide +kernel) sampleConfig
  exact ⟨t, p', hrun, hmodels, hpost, upstream_model_listed id _ _ _ _ hrun hmodels hpost⟩

/-- Asked for by its name, the model is available, and the router does not know it. -/
theorem upstream_model_unlisted : ∃ t p', Effects.Run effect (humaInference id
      DownloaderAtomicity.sampleLibrary embedderCatalog sampleConfig (embeddingRequest embedder.name))
      (idleWorld sampleConfig embedder) t p' (idleWorld sampleConfig embedder) ∧
    (⟨.ensure .models, (.ok ⟨[], [{ id := embedder.ref }]⟩ : Except Bytes ModelsResponse)⟩ :
      Event Handlers.Op Handlers.Op.Res) ∈ t ∧
    ⟨.post (print (embeddingBody embedder.name)), .failed []⟩ ∈ t ∧
    ¬ NamesListed ⟨[], [{ id := embedder.ref }]⟩ (print (embeddingBody embedder.name)) := by
  obtain ⟨t, p', hrun, hmodels, hpost⟩ := embedding_run embedder.name (by decide) (by decide)
    (by decide +kernel) sampleConfig
  refine ⟨t, p', hrun, hmodels, hpost, ?_⟩
  rintro ⟨m, name, hm, hmodel, hlisted⟩
  rw [membersOf_embeddingBody] at hm
  cases hm
  cases hmodel
  exact absurd hlisted (by decide)

end UpstreamBodies
