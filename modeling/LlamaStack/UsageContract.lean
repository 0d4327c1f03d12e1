import LlamaStack.AdaptedBodies

/-!
# The usage contract

What `check_openai_response_contract.py` asserts of a payload, read as `json.loads`
reads it, and the payloads that the adapters write.
-/
namespace UsageContract

open GoBytes GoJson GoMap OpenaiApi Handlers ResponsesAdapter BodyAdapter AdaptedBodies

/-- A passed check, or the text of a `ContractError`. -/
abbrev Checked (α : Type) := Except Text α

def check (holds : Bool) (message : Text) : Checked Unit := if holds then .ok () else .error message

/-- `isinstance(value, int)`. -/
def isInt : Option Tree → Bool
  | some (.num n) => (integerOf n).isSome
  | some (.bool _) => true
  | _ => false

def isDict : Option Tree → Bool
  | some (.obj _) => true
  | _ => false

def isCompleted : Option Tree → Bool
  | some (.str t) => t = responseCompleted
  | _ => false

def responseKey : Text := "response".toList
def typeKey : Text := "type".toList
def sequenceKey : Text := "sequence_number".toList

def usageFromPayload (payload : Entries Tree) : Checked (Entries Tree) :=
  match get usageKey payload with
  | some (.obj usage) => .ok usage
  | _ =>
    match detail usageKey (get responseKey payload) with
    | some (.obj usage) => .ok usage
    | _ => .error "payload does not contain a Responses usage object".toList

def mustBe (field : Text) (what : String) : Text := "usage.".toList ++ field ++ what.toList

/-- The checks of a usage whose counts are named after what goes in and what comes out. -/
def checkUsage (input output : Text) (usage : Entries Tree) : Checked Unit := do
  let inputTokens := input ++ "_tokens".toList
  let inputDetails := input ++ "_tokens_details".toList
  let outputTokens := output ++ "_tokens".toList
  let outputDetails := output ++ "_tokens_details".toList
  let totalTokens := "total_tokens".toList
  for field in [inputTokens, inputDetails, outputTokens, outputDetails, totalTokens] do
    check (get field usage).isSome ("usage missing required field: ".toList ++ field)
  check (isInt (get inputTokens usage)) (mustBe inputTokens " must be an integer")
  check (isInt (get outputTokens usage)) (mustBe outputTokens " must be an integer")
  check (isInt (get totalTokens usage)) (mustBe totalTokens " must be an integer")
  check (isDict (get inputDetails usage)) (mustBe inputDetails " must be an object")
  check (isInt (detail cachedKey (get inputDetails usage)))
    (mustBe inputDetails ".cached_tokens must be an integer")
  check (isDict (get outputDetails usage)) (mustBe outputDetails " must be an object")
  check (isInt (detail reasoningKey (get outputDetails usage)))
    (mustBe outputDetails ".reasoning_tokens must be an integer")

def assertGenerationUsageContract (payload : Entries Tree) : Checked Unit := do
  let usage ← usageFromPayload payload
  checkUsage "prompt".toList "completion".toList usage

def assertResponseEventContract (payload : Entries Tree) : Checked Unit :=
  if isCompleted (get typeKey payload) then do
    check (isInt (get sequenceKey payload)) "response.completed sequence_number must be an integer".toList
    check (isDict (get responseKey payload)) "response.completed response must be an object".toList
  else .ok ()

def assertResponseUsageContract (payload : Entries Tree) : Checked Unit := do
  assertResponseEventContract payload
  let usage ← usageFromPayload payload
  checkUsage "input".toList "output".toList usage

/-! ## Usages that pass -/

/-- The members that the checks look at are there and are integers. -/
structure Counted (s : UsageSchema) (u : Entries Tree) : Prop where
  counts : ∀ k ∈ s.counts, isInt (get k u) = true
  cached : ∀ k ∈ s.cached, ∃ d, get k u = some (.obj d) ∧ isInt (get cachedKey d) = true
  reasoning : ∀ k ∈ s.reasoning, ∃ d, get k u = some (.obj d) ∧ isInt (get reasoningKey d) = true

theorem isInt_of_countKept {x x' : Option Tree} (h : CountKept x x') : isInt x' = true := by
  obtain ⟨n', z, rfl, hz, -⟩ := h
  simp [isInt, hz]

theorem counted_of_kept {s : UsageSchema} {u u' : Entries Tree} (h : UsageKept s u u') : Counted s u' where
  counts k hk := isInt_of_countKept (h.counts k hk)
  cached k hk := by
    obtain ⟨d, hd, hkept⟩ := h.cached k hk
    exact ⟨d, hd, isInt_of_countKept hkept⟩
  reasoning k hk := by
    obtain ⟨d, n, z, hd, hn, hz⟩ := h.reasoning k hk
    exact ⟨d, hd, by simp [isInt, hn, hz]⟩

theorem isSome_of_isInt {x : Option Tree} (h : isInt x = true) : x.isSome = true := by
  cases x with
  | none => cases h
  | some t => rfl

theorem check_true (message : Text) : check true message = .ok () := rfl

variable {input output : Text} {u : Entries Tree}

theorem checkUsage_of_counted (h : Counted
    ⟨[input ++ "_tokens".toList, output ++ "_tokens".toList, "total_tokens".toList],
      some (input ++ "_tokens_details".toList), some (output ++ "_tokens_details".toList)⟩ u) :
    checkUsage input output u = .ok () := by
  obtain ⟨hcounts, hcached, hreasoning⟩ := h
  simp only [List.forall_mem_cons, List.not_mem_nil, false_implies, implies_true, and_true] at hcounts
  obtain ⟨hin, hout, htotal⟩ := hcounts
  obtain ⟨d, hd, hcached⟩ := hcached _ rfl
  obtain ⟨d', hd', hreasoning⟩ := hreasoning _ rfl
  have hfield : ∀ {k : Text} {x : Tree}, get k u = some x → (get k u).isSome = true := fun h => by rw [h]; rfl
  unfold checkUsage
  simp only [List.forIn_cons, List.forIn_nil, isSome_of_isInt hin, isSome_of_isInt hout, isSome_of_isInt htotal,
    hfield hd, hfield hd', hin, hout, htotal, check_true]
  simp only [hd, hd', isDict, detail, hcached, hreasoning, check_true]
  rfl

theorem counted_marshal (a : ResponseUsage) : ∃ u, treeOf a.marshal = .obj u ∧ Counted responseSchema u := by
  have hcached := treeOf_encodeStruct [("cached_tokens".toList, encodeInt a.inputTokensDetails.cachedTokens)]
  have hreasoning := treeOf_encodeStruct [("reasoning_tokens".toList, encodeInt a.outputTokensDetails.reasoningTokens)]
  obtain ⟨d, hd, hgetd⟩ := hcached
  obtain ⟨d', hd', hgetd'⟩ := hreasoning
  have hint : ∀ i, isInt (some (treeOf (encodeInt i))) = true := by
    intro i
    simp [encodeInt, treeOf, isInt, integerOf_formatInt]
  obtain ⟨u, hu, hget⟩ := treeOf_encodeStruct
    [("input_tokens".toList, encodeInt a.inputTokens),
    ("input_tokens_details".toList,
      encodeStruct [("cached_tokens".toList, encodeInt a.inputTokensDetails.cachedTokens)]),
    ("output_tokens".toList, encodeInt a.outputTokens),
    ("output_tokens_details".toList,
      encodeStruct [("reasoning_tokens".toList, encodeInt a.outputTokensDetails.reasoningTokens)]),
    ("total_tokens".toList, encodeInt a.totalTokens)]
  refine ⟨u, hu, ?_, ?_, ?_⟩
  · intro k hk
    simp only [responseSchema, List.mem_cons, List.not_mem_nil, or_false] at hk
    rcases hk with rfl | rfl | rfl <;> rw [hget] <;> exact hint _
  · rintro k ⟨⟩
    exact ⟨d, by rw [hget, ← hd]; rfl, by rw [hgetd]; exact hint _⟩
  · rintro k ⟨⟩
    exact ⟨d', by rw [hget, ← hd']; rfl, by rw [hgetd']; exact hint _⟩

/-! ## Completed events -/

/-- The undeclared members of a response hide none that is declared. -/
structure Tidy (r : LlamacppApi.Response) : Prop where
  sorted : Sorted r.additionalProperties
  usage : get usageKey r.additionalProperties = none

theorem tidy_unmarshal {j : Json} {r r' : LlamacppApi.Response} (hr : Tidy r)
    (h : LlamacppApi.Response.unmarshalJSON j r = some r') : Tidy r' := by
  have hkeeps : ∀ f ∈ responseFields, Keeps LlamacppApi.Response.additionalProperties f := by
    intro f hf
    simp only [responseFields, List.mem_cons, List.not_mem_nil, or_false] at hf
    rcases hf with rfl | rfl | rfl | rfl | rfl | rfl <;> exact keeps_map fun _ _ => rfl
  cases j with
  | obj ms =>
    obtain ⟨rest, a, m, hfields, hm, ha⟩ := decodeObject_some h
    have hkept := takeFields_keep LlamacppApi.Response.additionalProperties hfields hkeeps
    obtain ⟨hsorted, hget⟩ := takeFields_rest hfields (ofList_sorted _)
    rcases ha with ⟨-, rfl⟩ | rfl
    · exact ⟨hkept ▸ hr.sorted, hkept ▸ hr.usage⟩
    · refine ⟨decodeAdditional_sorted hsorted hm, ?_⟩
      have hnone := ((decodeAdditional_spec hm).2 usageKey).1
      rw [hget, if_pos (by decide)] at hnone
      exact hnone
  | null =>
    cases h
    exact hr
  | _ => cases h

/-- What every field keeps, a decoded struct has. -/
theorem decodeStruct_preserves {σ : Type} {P : σ → Prop} {fields : List (StructField σ)}
    (hset : ∀ f ∈ fields, ∀ v s s', P s → f.set v s = some s' → P s') {j : Json} {s s' : σ} (hs : P s)
    (h : decodeStruct fields j s = some s') : P s' := by
  cases j with
  | obj ms =>
    rw [decodeStruct] at h
    induction ms generalizing s with
    | nil =>
      cases h
      exact hs
    | cons m ms ih =>
      obtain ⟨s₁, h₁, h₂⟩ := Option.bind_eq_some_iff.mp h
      refine ih ?_ h₂
      rw [setField] at h₁
      cases hf : fields.find? fun f => foldName f.name = foldName (unquote m.1) with
      | none =>
        rw [hf] at h₁
        cases h₁
        exact hs
      | some f =>
        rw [hf] at h₁
        exact hset f (List.mem_of_find?_eq_some hf) _ _ _ hs h₁
  | null =>
    cases h
    exact hs
  | _ => cases h

theorem tidy_decode {j : Json} {e : LlamacppApi.ResponseCompletedEvent}
    (h : LlamacppApi.ResponseCompletedEvent.decode j = some e) : Tidy e.response := by
  have hempty : Tidy ({} : LlamacppApi.ResponseCompletedEvent).response := ⟨.nil, rfl⟩
  refine decodeStruct_preserves (P := fun e : LlamacppApi.ResponseCompletedEvent => Tidy e.response) ?_ hempty h
  intro f hf v s s' hs hset
  simp only [List.mem_cons, List.not_mem_nil, or_false] at hf
  rcases hf with rfl | rfl | rfl
  · obtain ⟨r, hr, rfl⟩ := Option.map_eq_some_iff.mp hset
    exact tidy_unmarshal hs hr
  · obtain ⟨x, -, rfl⟩ := Option.map_eq_some_iff.mp hset
    exact hs
  · obtain ⟨x, -, rfl⟩ := Option.map_eq_some_iff.mp hset
    exact hs

/-- The usage of a response, as the public schema has it. -/
theorem tree_response {r : LlamacppApi.Response} (hr : Tidy r) :
    ∃ t, treeOf (openAIResponseFromLlama r).marshalJSON = .obj t ∧
      get usageKey t = (r.usage.map fun u => (openAIUsageFromLlama u).marshal).map treeOf := by
  obtain ⟨t, ht, hget⟩ := treeOf_encodeObject (writtenMembers (writtenResponse r)) hr.sorted
  have husage := get_response r (usageKey, r.usage.map fun u => (openAIUsageFromLlama u).marshal)
    (by simp [writtenResponse])
  refine ⟨t, by rw [marshalJSON_response, ht], ?_⟩
  rw [hget, hr.usage, Option.map_none, Option.none_or, husage]

/-! ## What the adapters write -/

/-- The usages of what is sent to the client pass. A body keeps the usage that it has; of
the stream, it is the event that completes the response. -/
structure MeetsContract (body : Bytes) : Prop where
  generation : ∀ path ∈ [NChoices.chatCompletionsPath, NChoices.completionsPath], ∀ m u, membersOf body = some m →
    get usageKey m = some u → u ≠ .null → (adaptBody path body).failed = false →
    ∃ m', membersOf (adaptBody path body).body = some m' ∧ assertGenerationUsageContract m' = .ok ()
  response : ∀ m u, membersOf body = some m → get usageKey m = some u → u ≠ .null →
    isCompleted (get typeKey m) = false → (adaptBody responsesPath body).failed = false →
    ∃ m', membersOf (adaptBody responsesPath body).body = some m' ∧ assertResponseUsageContract m' = .ok ()
  completed : ∀ e out, unmarshal LlamacppApi.ResponseCompletedEvent.decode body = some e →
    adaptResponsesSSEPayload body = some out →
    ∃ m', membersOf out = some m' ∧ (assertResponseUsageContract m' = .ok () ↔ e.response.usage.isSome)

theorem usageFromPayload_usage {m u : Entries Tree} (h : get usageKey m = some (.obj u)) :
    usageFromPayload m = .ok u := by
  simp [usageFromPayload, h]

theorem isCompleted_same {E : GoJson.Num → GoJson.Num → Prop} {x x' : Option Tree} (h : Option.Rel (Same E) x x') :
    isCompleted x' = isCompleted x := by
  cases h with
  | none => rfl
  | some h =>
    rename_i t t'
    cases t <;> cases t' <;> simp_all [Same, isCompleted]

variable {body : Bytes} {m u : Entries Tree}

theorem generation_meets {path : Text} (hadapts : AdaptsBody path body) (hschema : schemaOf path = generationSchema)
    {x : Tree} (hm : membersOf body = some m) (hx : get usageKey m = some x) (hne : x ≠ .null)
    (hok : (adaptBody path body).failed = false) :
    ∃ m', membersOf (adaptBody path body).body = some m' ∧ assertGenerationUsageContract m' = .ok () := by
  obtain ⟨m', hm', hkeeps⟩ := hadapts.kept m hm hok
  obtain ⟨u, u', -, hu', hkept⟩ := hkeeps.usage x hx hne
  refine ⟨m', hm', ?_⟩
  rw [assertGenerationUsageContract, usageFromPayload_usage hu']
  exact checkUsage_of_counted (counted_of_kept (hschema ▸ hkept))

theorem response_meets (hadapts : AdaptsBody responsesPath body) {x : Tree} (hm : membersOf body = some m)
    (hx : get usageKey m = some x) (hne : x ≠ .null) (htype : isCompleted (get typeKey m) = false)
    (hok : (adaptBody responsesPath body).failed = false) :
    ∃ m', membersOf (adaptBody responsesPath body).body = some m' ∧ assertResponseUsageContract m' = .ok () := by
  obtain ⟨m', hm', hkeeps⟩ := hadapts.kept m hm hok
  obtain ⟨u, u', -, hu', hkept⟩ := hkeeps.usage x hx hne
  have htype' : isCompleted (get typeKey m') = false := by
    rcases hkeeps.others typeKey (by decide) with h | ⟨-, h, -⟩
    · rw [isCompleted_same h, htype]
    · exact absurd h (by decide)
  refine ⟨m', hm', ?_⟩
  rw [assertResponseUsageContract, assertResponseEventContract, htype', usageFromPayload_usage hu']
  exact checkUsage_of_counted (counted_of_kept hkept)

/-- A completed event passes exactly when upstream counted. -/
theorem completed_meets {e : LlamacppApi.ResponseCompletedEvent} {out : Bytes}
    (he : unmarshal LlamacppApi.ResponseCompletedEvent.decode body = some e)
    (hout : adaptResponsesSSEPayload body = some out) :
    ∃ m', membersOf out = some m' ∧ (assertResponseUsageContract m' = .ok () ↔ e.response.usage.isSome) := by
  have hprinted : out = print (openAIResponseCompletedEventFromLlama e).marshal := by
    unfold adaptResponsesSSEPayload at hout
    split at hout
    · cases hout
    · split at hout
      · cases hout
      · rw [he] at hout
        exact (Option.some.inj hout).symm
  obtain ⟨j, -, hj⟩ := Option.bind_eq_some_iff.mp he
  obtain ⟨t, ht, husage⟩ := tree_response (tidy_decode hj)
  obtain ⟨m', hm', hget⟩ := treeOf_encodeStruct
    [("response".toList, compact (openAIResponseFromLlama e.response).marshalJSON),
    ("sequence_number".toList, encodeInt (e.sequenceNumber.getD 0)), ("type".toList, encodeString responseCompleted)]
  have hresponse : get responseKey m' = some (.obj t) := by
    rw [hget, ← ht, ← treeOf_compact]
    rfl
  have hsequence : isInt (get sequenceKey m') = true := by
    rw [hget]
    change isInt (some (treeOf (encodeInt (e.sequenceNumber.getD 0)))) = true
    simp [encodeInt, treeOf, isInt, integerOf_formatInt]
  have hnone : get usageKey m' = none := by
    rw [hget]
    rfl
  have hevent : assertResponseEventContract m' = .ok () := by
    rw [assertResponseEventContract, hsequence, hresponse]
    split <;> rfl
  refine ⟨m', hprinted ▸ membersOf_print hm', ?_⟩
  rw [assertResponseUsageContract, hevent]
  cases hu : e.response.usage with
  | none =>
    rw [hu, Option.map_none, Option.map_none] at husage
    have hmissing : usageFromPayload m' = .error "payload does not contain a Responses usage object".toList := by
      rw [usageFromPayload, hnone, hresponse, detail, husage]
    rw [hmissing]
    exact iff_of_false (fun h => by cases h) (fun h => by cases h)
  | some u =>
    obtain ⟨u', hu', hcounted⟩ := counted_marshal (openAIUsageFromLlama u)
    rw [hu, Option.map_some, Option.map_some, hu'] at husage
    have hfound : usageFromPayload m' = .ok u' := by
      rw [usageFromPayload, hnone, hresponse, detail, husage]
    rw [hfound]
    exact iff_of_true (checkUsage_of_counted hcounted) rfl

/-- The payloads of the gateway pass the checks of the repository. -/
theorem adapted_meets (body : Bytes) : MeetsContract body where
  generation path hpath m x hm hx hne hok := by
    have hchat : schemaOf NChoices.chatCompletionsPath = generationSchema := rfl
    have hcompletion : schemaOf NChoices.completionsPath = generationSchema := rfl
    simp only [List.mem_cons, List.not_mem_nil, or_false] at hpath
    rcases hpath with rfl | rfl
    · have hadapts := withUsage_adapts (hchat ▸ converts_completionUsage) (fun _ => rfl) body
      exact generation_meets hadapts hchat hm hx hne hok
    · exact generation_meets (withUsage_adapts (hcompletion ▸ converts_completionUsage) (fun _ => rfl) body) hcompletion
        hm hx hne hok
  response m x hm hx hne htype hok :=
    response_meets (adapts_of (fun _ => rfl) (fun _ _ => response_kept) (fun _ _ => response_again)
      (fun _ _ => response_depth) body) hm hx hne htype hok
  completed e out he hout := completed_meets he hout

/-- A usage without details is sent with them. -/
theorem adapted_meets_sampleResponse : ∃ m', membersOf (adaptBody responsesPath (print sampleResponse)).body = some m' ∧
    assertResponseUsageContract m' = .ok () := by
  have hok : (adaptBody responsesPath (print sampleResponse)).failed = false := by decide +kernel
  obtain ⟨m, hm⟩ : ∃ m, treeOf sampleResponse = .obj m := ⟨_, rfl⟩
  obtain ⟨u, hu⟩ : ∃ u, get usageKey m = some (.obj u) := by
    cases hm
    exact ⟨_, rfl⟩
  have htype : isCompleted (get typeKey m) = false := by
    cases hm
    rfl
  exact (adapted_meets (print sampleResponse)).response m (.obj u) (membersOf_print hm) hu (by simp) htype hok

end UsageContract
