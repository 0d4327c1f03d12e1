import LlamaStack.PinnedStream
import LlamaStack.UsageContract

/-!
# The completed event of the vendored server

Whatever the server reports of a task, the adapter reads its completed event and writes
one that passes the checks of the repository.
-/
namespace PinnedCompletion

open GoBytes GoFloat64 GoJson GoMap OpenaiApi ResponsesAdapter ResponsesSse AdaptedBodies UsageContract PinnedStream
open LlamaServer hiding Event

set_option maxRecDepth 4000

variable {json : JsonLibrary}

/-! ## Objects as they are read -/

theorem decodeRawMap_object (hs : Faithful json) (ms : List (String × Json)) :
    decodeRawMap (object json ms) = some (ofList (ms.map fun m => (m.1.toList, m.2))) := by
  rw [object, decodeRawMap, rawMembers, List.map_map]
  simp only [Function.comp_def, hs.spells]

/-- A value without numbers out of range. -/
def Readable (j : Json) : Prop := ∃ v, decodeValue j = some v

theorem readable_str (t : Text) : Readable (str json t) := ⟨_, rfl⟩

theorem readable_num (i : Int64) : Readable (.num (formatInt i)) := decodeValue_encodeInt i

theorem readable_arr {xs : List Json} (h : ∀ x ∈ xs, Readable x) : Readable (.arr xs) := by
  have hitems : ∃ vs, decodeItems xs = some vs := by
    induction xs with
    | nil => exact ⟨[], rfl⟩
    | cons x xs ih =>
      obtain ⟨v, hv⟩ := h x (by simp)
      obtain ⟨vs, hvs⟩ := ih fun y hy => h y (by simp [hy])
      exact ⟨v :: vs, by simp [decodeItems, hv, hvs]⟩
  obtain ⟨vs, hvs⟩ := hitems
  exact ⟨.arr vs, by simp [decodeValue, hvs]⟩

theorem readable_object {ms : List (String × Json)} (h : ∀ m ∈ ms, Readable m.2) : Readable (object json ms) := by
  have hmembers : ∃ es, decodeMembers (ms.map fun m => (json.escape m.1.toList, m.2)) = some es := by
    induction ms with
    | nil => exact ⟨[], rfl⟩
    | cons m ms ih =>
      obtain ⟨v, hv⟩ := h m (by simp)
      obtain ⟨es, hes⟩ := ih fun m' hm' => h m' (by simp [hm'])
      exact ⟨(unquote (json.escape m.1.toList), v) :: es, by simp [decodeMembers, hv, hes]⟩
  obtain ⟨es, hes⟩ := hmembers
  exact ⟨.obj (ofList es), by simp [object, decodeValue, hes]⟩

theorem readable_int (i : Int32) : Readable (int i) := readable_num i.toInt64

/-- An object is decoded when its declared fields are. -/
theorem decodeObject_object (hs : Faithful json) {σ : Type} {fields : List (StructField σ)}
    {additional : Entries Value → σ → σ} (hnodup : (fields.map StructField.name).Nodup) {ms : List (String × Json)}
    {es : List (Text × Json)} (hes : (ms.map fun m => (m.1.toList, m.2)) = es) {x y : σ}
    (hset : setFields fields (ofList es) x = some y) (hms : ∀ m ∈ ms, Readable m.2) :
    ∃ z, decodeObject fields additional (object json ms) x = some z ∧ (z = y ∨ ∃ m, z = additional m y) := by
  subst hes
  refine decodeObject_of_setFields hnodup (decodeRawMap_object hs ms) hset fun e he => ?_
  obtain ⟨m, hm, rfl⟩ := List.mem_map.mp (mem_ofList he)
  exact hms m hm

/-! ## The usage -/

variable (json) in
def detailsMembers (f : CmplFinal) : List (String × Json) := [("cached_tokens", int f.nPromptTokensCache)]

variable (json) in
def usageMembers (f : CmplFinal) : List (String × Json) :=
  [("input_tokens", int f.nPromptTokens), ("output_tokens", int f.nDecoded),
    ("total_tokens", int (f.nDecoded + f.nPromptTokens)),
    ("input_tokens_details", object json (detailsMembers f))]

theorem readable_details (f : CmplFinal) : ∀ m ∈ detailsMembers f, Readable m.2 := by
  intro m hm
  rw [List.mem_singleton.mp hm]
  exact readable_int _

theorem readable_usage (f : CmplFinal) : ∀ m ∈ usageMembers json f, Readable m.2 := by
  simp only [usageMembers, List.forall_mem_cons, List.not_mem_nil, false_implies, implies_true, and_true]
  exact ⟨readable_int _, readable_int _, readable_int _, readable_object (readable_details f)⟩

theorem readCount_int {object : Entries Json} {k : Text} {i : Int32} (h : get k object = some (int i)) :
    readCount k object = some i.toInt64 := by
  rw [readCount, h, Option.map_some, Option.getD_some]
  exact decodeInt_encodeInt _ _

theorem unmarshal_details (hs : Faithful json) (f : CmplFinal) : ∃ d,
    LlamacppApi.ResponseUsageInputTokensDetails.unmarshalJSON (object json (detailsMembers f)) {} = some d := by
  have hset : setFields detailsFields (ofList [("cached_tokens".toList, int f.nPromptTokensCache)]) {} =
      some { cachedTokens := f.nPromptTokensCache.toInt64 } := by
    rw [setFields_details, readCount_int (i := f.nPromptTokensCache) rfl, Option.map_some]
  have hes : (detailsMembers f).map (fun m => (m.1.toList, m.2)) =
      [("cached_tokens".toList, int f.nPromptTokensCache)] := rfl
  exact (decodeObject_object hs detailsFields_nodup hes hset (readable_details f)).imp fun _ h => h.1

theorem unmarshal_usage (hs : Faithful json) (f : CmplFinal) :
    ∃ u, LlamacppApi.ResponseUsage.unmarshalJSON (object json (usageMembers json f)) {} = some u := by
  obtain ⟨d, hd⟩ := unmarshal_details hs f
  have hset : setFields responseUsageFields
      (ofList [("input_tokens".toList, int f.nPromptTokens), ("output_tokens".toList, int f.nDecoded),
        ("total_tokens".toList, int (f.nDecoded + f.nPromptTokens)),
        ("input_tokens_details".toList, object json (detailsMembers f))]) {} =
      some { inputTokens := f.nPromptTokens.toInt64, inputTokensDetails := d, outputTokens := f.nDecoded.toInt64
             totalTokens := (f.nDecoded + f.nPromptTokens).toInt64 } := by
    have hdetails : readDetails "input_tokens_details".toList
        (ofList [("input_tokens".toList, int f.nPromptTokens), ("output_tokens".toList, int f.nDecoded),
          ("total_tokens".toList, int (f.nDecoded + f.nPromptTokens)),
          ("input_tokens_details".toList, object json (detailsMembers f))]) = some d := hd
    rw [setFields_responseUsage, readCount_int (i := f.nPromptTokens) rfl, hdetails,
      readCount_int (i := f.nDecoded) rfl, readCount_int (i := f.nDecoded + f.nPromptTokens) rfl]
    rfl
  have hes : (usageMembers json f).map (fun m => (m.1.toList, m.2)) =
      [("input_tokens".toList, int f.nPromptTokens), ("output_tokens".toList, int f.nDecoded),
        ("total_tokens".toList, int (f.nDecoded + f.nPromptTokens)),
        ("input_tokens_details".toList, object json (detailsMembers f))] := rfl
  exact (decodeObject_object hs responseUsage_nodup hes hset (readable_usage f)).imp fun _ h => h.1

/-! ## The response -/

variable (json) in
def responseMembers (s : TaskResultState) (f : CmplFinal) : List (String × Json) :=
  [("id", str json s.respId), ("object", str json "response".toList), ("created_at", .num (formatInt f.time)),
    ("status", str json "completed".toList), ("model", str json f.model), ("output", .arr (f.output json s)),
    ("usage", object json (usageMembers json f))]

/-- An item of the output: readable and flat enough. -/
def Item (d : Nat) (j : Json) : Prop := Readable j ∧ depth j ≤ d

theorem item_object {d : Nat} {ms : List (String × Json)} (h : ∀ m ∈ ms, Item d m.2) :
    Item (d + 1) (object json ms) :=
  ⟨readable_object fun m hm => (h m hm).1, depth_object fun m hm => (h m hm).2⟩

theorem item_arr {d : Nat} {xs : List Json} (h : ∀ x ∈ xs, Item d x) : Item (d + 1) (.arr xs) :=
  ⟨readable_arr fun x hx => (h x hx).1, Nat.succ_le_succ (depthItems_le.mpr fun x hx => (h x hx).2)⟩

theorem Item.mono {d d' : Nat} {j : Json} (h : Item d j) (hd : d ≤ d') : Item d' j := ⟨h.1, h.2.trans hd⟩

theorem item_str (d : Nat) (t : Text) : Item d (str json t) := ⟨readable_str t, Nat.zero_le d⟩

theorem output_items (s : TaskResultState) (f : CmplFinal) : ∀ j ∈ f.output json s, Item 4 j := by
  have hempty : ∀ d, Item (d + 1) (.arr []) := fun d => item_arr (by simp)
  have hreasoning : Item 4 (reasoningItem json s f) := by
    refine item_object ?_
    simp only [List.forall_mem_cons, List.not_mem_nil, false_implies, implies_true, and_true]
    refine ⟨item_str _ _, hempty _, item_str _ _, item_arr ?_, item_str _ _⟩
    intro x hx
    rw [List.mem_singleton.mp hx]
    refine item_object ?_
    simp only [List.forall_mem_cons, List.not_mem_nil, false_implies, implies_true, and_true]
    exact ⟨item_str _ _, item_str _ _⟩
  have hmessage : Item 4 (messageItem json s f) := by
    refine item_object ?_
    simp only [List.forall_mem_cons, List.not_mem_nil, false_implies, implies_true, and_true]
    refine ⟨item_str _ _, item_str _ _, item_str _ _, item_arr ?_, item_str _ _⟩
    intro x hx
    rw [List.mem_singleton.mp hx]
    refine item_object ?_
    simp only [List.forall_mem_cons, List.not_mem_nil, false_implies, implies_true, and_true]
    exact ⟨item_str _ _, hempty _, hempty _, item_str _ _⟩
  have hcall : ∀ c : ToolCall, Item 4 (c.item json) := by
    intro c
    refine item_object ?_
    simp only [List.forall_mem_cons, List.not_mem_nil, false_implies, implies_true, and_true]
    exact ⟨item_str _ _, item_str _ _, item_str _ _, item_str _ _, item_str _ _, item_str _ _⟩
  intro j hj
  rw [CmplFinal.output] at hj
  rcases List.mem_append.mp hj with hj | hj
  · rcases List.mem_append.mp hj with hj | hj
    · split at hj
      · cases hj
      · exact List.mem_singleton.mp hj ▸ hreasoning
    · split at hj
      · cases hj
      · exact List.mem_singleton.mp hj ▸ hmessage
  · obtain ⟨c, -, rfl⟩ := List.mem_map.mp hj
    exact hcall c

theorem item_num (d : Nat) (i : Int64) : Item d (.num (formatInt i)) := ⟨readable_num i, Nat.zero_le d⟩

theorem item_usage (f : CmplFinal) : Item 2 (object json (usageMembers json f)) := by
  have hdetails : Item 1 (object json (detailsMembers f)) := by
    refine item_object fun m hm => ?_
    rw [List.mem_singleton.mp hm]
    exact item_num _ _
  refine item_object ?_
  simp only [usageMembers, List.forall_mem_cons, List.not_mem_nil, false_implies, implies_true, and_true]
  exact ⟨item_num _ _, item_num _ _, item_num _ _, hdetails⟩

theorem item_response (s : TaskResultState) (f : CmplFinal) : ∀ m ∈ responseMembers json s f, Item 5 m.2 := by
  simp only [responseMembers, List.forall_mem_cons, List.not_mem_nil, false_implies, implies_true, and_true]
  exact ⟨item_str _ _, item_str _ _, item_num _ _, item_str _ _, item_str _ _, item_arr (output_items s f),
    (item_usage f).mono (by decide)⟩

theorem decodePtr_str (hs : Faithful json) (t : Text) :
    decodePtr decodeString [] (str json t) none = some (some t) := by
  simp [str, decodePtr, decodeString, hs.spells]

variable (json) in
/-- What the adapter reads, but for the time. -/
def responseOf (s : TaskResultState) (f : CmplFinal) (u : LlamacppApi.ResponseUsage) : LlamacppApi.Response where
  id := some s.respId
  model := some f.model
  object := some "response".toList
  output := some (f.output json s)
  status := some "completed".toList
  usage := some u

theorem unmarshal_response (hs : Faithful json) (s : TaskResultState) (f : CmplFinal) :
    ∃ r, LlamacppApi.Response.unmarshalJSON (object json (responseMembers json s f)) {} = some r ∧
      r.usage.isSome = true := by
  obtain ⟨u, hu⟩ := unmarshal_usage hs f
  have hes : (responseMembers json s f).map (fun m => (m.1.toList, m.2)) =
      [("id".toList, str json s.respId), ("object".toList, str json "response".toList),
        ("created_at".toList, .num (formatInt f.time)), ("status".toList, str json "completed".toList),
        ("model".toList, str json f.model), ("output".toList, .arr (f.output json s)),
        (usageKey, object json (usageMembers json f))] := rfl
  have husage : decodePtr LlamacppApi.ResponseUsage.unmarshalJSON {} (object json (usageMembers json f)) none =
      some (some u) := congrArg (Option.map some) hu
  have hreads : ReadsResponse (ofList
      [("id".toList, str json s.respId), ("object".toList, str json "response".toList),
        ("created_at".toList, .num (formatInt f.time)), ("status".toList, str json "completed".toList),
        ("model".toList, str json f.model), ("output".toList, .arr (f.output json s)),
        (usageKey, object json (usageMembers json f))]) (responseOf json s f u) :=
    ⟨decodePtr_str hs _, decodePtr_str hs _, decodePtr_str hs _, rfl, decodePtr_str hs _, husage⟩
  have hset := (setFields_response_iff _ _).mpr ⟨hreads, rfl⟩
  have hdecoded : ∃ r, LlamacppApi.Response.unmarshalJSON (object json (responseMembers json s f)) {} = some r ∧
      (r = responseOf json s f u ∨ ∃ m, r = { responseOf json s f u with additionalProperties := m }) :=
    decodeObject_object hs response_nodup hes hset fun m hm => (item_response s f m hm).1
  obtain ⟨r, hr, rfl | ⟨m, rfl⟩⟩ := hdecoded
  · exact ⟨_, hr, rfl⟩
  · exact ⟨_, hr, rfl⟩

/-! ## The event -/

theorem depth_completed (s : TaskResultState) (f : CmplFinal) :
    depth (object json (f.completed json s).data) ≤ maxNestingDepth := by
  have hle : depth (object json (f.completed json s).data) ≤ 6 + 1 := by
    refine depth_object fun m hm => ?_
    rcases List.mem_append.mp hm with hm | hm
    · rcases List.mem_cons.mp hm with rfl | hm
      · exact Nat.zero_le _
      · rw [List.mem_singleton.mp hm]
        exact (item_object (item_response s f)).2
    · exact (extra_extras f.stats none m hm).2.trans (by decide)
  exact hle.trans (by decide)

theorem unmarshal_type (hs : Faithful json) (s : TaskResultState) (f : CmplFinal) :
    unmarshal Envelope.decode (payload json (f.completed json s)) = some ⟨responseCompleted⟩ := by
  have hrest : ∀ m ∈ [("response", object json (responseMembers json s f))],
      foldName "type".toList ≠ foldName m.1.toList := by
    intro m hm
    rw [List.mem_singleton.mp hm]
    exact (by decide : foldName "type".toList ≠ foldName "response".toList)
  rw [payload, unmarshal_valid hs _ (depth_completed s f)]
  exact decode_type hs "response.completed" (extra_extras f.stats none) hrest

theorem unmarshal_completed (hs : Faithful json) (s : TaskResultState) (f : CmplFinal) :
    ∃ e, unmarshal LlamacppApi.ResponseCompletedEvent.decode (payload json (f.completed json s)) = some e ∧
      e.response.usage.isSome = true := by
  obtain ⟨r, hr, husage⟩ := unmarshal_response hs s f
  have hdec : LlamacppApi.ResponseCompletedEvent.decode (object json
      ((LlamaServer.Event.of json "response.completed"
        [("response", object json (responseMembers json s f))]).data ++ extras json f.stats none)) =
      some { response := r, type := responseCompleted } := by
    refine decodeStruct_extra hs (extra_extras f.stats none) (by decide) ?_
    rw [decodeStruct_object hs]
    simp +decide [LlamaServer.Event.of, setField_cons, decodeString_str hs, hr]
  refine ⟨{ response := r, type := responseCompleted }, ?_, husage⟩
  rw [payload, unmarshal_valid hs _ (depth_completed s f)]
  exact hdec

/-- The completed event of any task reaches the client with a usage that passes the checks. -/
theorem completed_passes (hs : Faithful json) (s : TaskResultState) (f : CmplFinal) :
    ∃ m, membersOf (adaptCompleted (payload json (f.completed json s))) = some m ∧
      assertResponseUsageContract m = .ok () := by
  obtain ⟨e, he, husage⟩ := unmarshal_completed hs s f
  have hout : adaptResponsesSSEPayload (payload json (f.completed json s)) =
      some (print (openAIResponseCompletedEventFromLlama e).marshal) := by
    simp only [adaptResponsesSSEPayload, unmarshal_type hs, ne_eq, not_true, if_false, he]
  obtain ⟨m, hm, hpasses⟩ := completed_meets he hout
  rw [adaptCompleted, hout]
  exact ⟨m, hm, hpasses.mpr husage⟩

def sampleFinal : CmplFinal := ⟨⟨[], [], [sampleToolCall]⟩, "m".toList, 0, 4, 2, 0, none⟩

theorem completed_passes_sampleFinal :
    ∃ m, membersOf (adaptCompleted (payload compactJson (sampleFinal.completed compactJson sampleState))) = some m ∧
      assertResponseUsageContract m = .ok () :=
  completed_passes faithful_compactJson sampleState sampleFinal

end PinnedCompletion
