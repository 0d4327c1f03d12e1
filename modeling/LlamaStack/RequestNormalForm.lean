import LlamaStack.RequestItems

/-!
# A second pass over a request

What the adapter makes of a body that it has written itself: its items are read back
from the text, and all but one kind are in normal form.
-/
namespace RequestNormalForm

open GoBytes GoFloat64 GoJson GoMap OpenaiApi RequestAdapter RequestItems

/-- A message without content and without type. -/
def Contentless (item : Json) : Prop :=
  ∃ message, responseInputMessage item = some message ∧ message.content = none ∧ message.type = none

/-- The items of the input of a body. -/
def inputItems (body : Bytes) : List Json :=
  match parse body with
  | some (.obj ms) =>
    match get inputKey (ofList (rawMembers ms)) with
    | some (.arr items) => items
    | _ => []
  | _ => []

/-- The texts have the same value, with numbers as floats. -/
def SameValue (s s' : Bytes) : Prop :=
  ∃ j j', parse s = some j ∧ parse s' = some j' ∧
    Same (fun n n' => parseFloat n = parseFloat n') (treeOf j) (treeOf j')

/-! ## Compacted items -/

def compactContent (message : EasyInputMessage) : EasyInputMessage :=
  { message with content := message.content.map compact }

/-- A compacted item is read as the item, with its content compacted. -/
theorem responseInputMessage_compact (item : Json) :
    responseInputMessage (compact item) = (responseInputMessage item).map compactContent := by
  have hset : ∀ f ∈ messageFields, ∀ raw s, f.set (compact raw) (compactContent s) =
      (f.set raw s).map compactContent := by
    intro f hf raw s
    simp only [messageFields, List.mem_cons, List.not_mem_nil, or_false] at hf
    rcases hf with rfl | rfl | rfl
    · rfl
    · simp only [decodeString_compact, Option.map_map]
      rfl
    · simp only [decodePtr_compact decodeString_compact, Option.map_map]
      rfl
  have hread : EasyInputMessage.unmarshalJSON (compact item) {} =
      (EasyInputMessage.unmarshalJSON item {}).map compactContent :=
    decodeObject_compact messageFields_nodup (fun m a => { a with additionalProperties := m }) compactContent hset
      (fun _ _ => rfl) item {}
  rw [responseInputMessage, hread, responseInputMessage]
  cases EasyInputMessage.unmarshalJSON item {} with
  | none => rfl
  | some message =>
    simp only [Option.map_some, Option.filter_some]
    cases hvalid : validRole message.role <;> simp [compactContent, hvalid]

theorem asText_compact (content : Option Json) :
    asEasyInputMessageContent0 (content.map compact) = asEasyInputMessageContent0 content := by
  cases content with
  | none => rfl
  | some c => exact decodeString_compact c []

/-- Whether an item changes does not depend on how it is spelled. -/
theorem changed_compact (item : Json) :
    (normalizeResponseInputItem (compact item)).2 = (normalizeResponseInputItem item).2 := by
  unfold normalizeResponseInputItem
  rw [responseInputMessage_compact]
  cases responseInputMessage item with
  | none => rfl
  | some message =>
    have htext : asEasyInputMessageContent0 (compactContent message).content =
        asEasyInputMessageContent0 message.content := asText_compact message.content
    have htype : (compactContent message).type = message.type := rfl
    simp only [Option.map_some, htext, htype]
    cases asEasyInputMessageContent0 message.content with
    | some text => rfl
    | none =>
      simp only
      by_cases hnone : message.type = none
      · rw [if_pos hnone, if_pos hnone]
      · rw [if_neg hnone, if_neg hnone]

/-! ## Written items -/

/-- A written message is read back with its content as a raw message. -/
theorem responseInputMessage_marshalJSON {message : EasyInputMessage} {ms : List (Lexeme × Json)}
    (h : ReadsMessage (ofList (rawMembers ms)) message) (hvalid : validRole message.role = true)
    (content : Option Json) (type : Text) :
    responseInputMessage (EasyInputMessage.marshalJSON { message with content := content, type := some type }) =
      some { message with content := some (compact ((content.map compact).getD .null)), type := some type } := by
  have hread := decodeAdditional_read (undeclared_sorted messageFields (ofList_sorted _)) h.additional
  have hnames : ∀ k ∈ messageFields.map StructField.name, get k message.additionalProperties = none :=
    fun k hk => get_additional_none h.additional hk
  have hkeys : ∀ e ∈ writtenFields ((content.map compact).getD .null) message.role type,
      e.1 ∈ messageFields.map StructField.name := by
    intro e he
    have hlist : messageFields.map StructField.name = [contentKey, roleKey, typeKey] := rfl
    simp only [writtenFields, List.mem_cons, List.not_mem_nil, or_false] at he
    rw [hlist]
    rcases he with rfl | rfl | rfl <;> simp
  have hobject := decodeObject_encodeObject messageFields_nodup
    (fun m (a : EasyInputMessage) => { a with additionalProperties := m }) hkeys hread hnames {}
  have hget : ∀ k,
      get k (mapValues compact (ofList (writtenFields ((content.map compact).getD .null) message.role type))) =
      (if k = typeKey then some (encodeString type)
      else if k = roleKey then some (encodeString message.role)
      else if k = contentKey then some ((content.map compact).getD .null) else none).map compact := by
    intro k
    rw [get_mapValues, get_written]
  have hcontent := hget contentKey
  have hrole := hget roleKey
  have htype := hget typeKey
  rw [if_neg (by decide), if_neg (by decide), if_pos rfl, Option.map_some] at hcontent
  rw [if_neg (by decide), if_pos rfl, Option.map_some] at hrole
  rw [if_pos rfl, Option.map_some] at htype
  rw [setFields_message, readRole, readType, hcontent, hrole, htype] at hobject
  simp only [Option.map_some, Option.getD_some, decodeString_compact, decodeString_encodeString, Option.bind_some,
    decodePtr_compact decodeString_compact] at hobject
  have hptr : decodePtr decodeString [] (encodeString type) none = some (some type) := by
    simp [decodePtr, encodeString, decodeString]
  rw [hptr, Option.map_some, Option.map_some] at hobject
  have hunmarshal : EasyInputMessage.unmarshalJSON
      (EasyInputMessage.marshalJSON { message with content := content, type := some type }) {} =
      some { message with content := some (compact ((content.map compact).getD .null)), type := some type } := by
    refine Eq.trans hobject ?_
    split
    · rename_i hempty
      rw [List.isEmpty_iff.mp hempty]
    · rfl
  rw [responseInputMessage, hunmarshal]
  simp [hvalid]

/-- A written item changes again exactly when it is a message that came without content
and type: its content was written as null, which reads as an empty text. -/
theorem changed_normalize (item : Json) :
    (normalizeResponseInputItem (normalizeResponseInputItem item).1).2 = true ↔ Contentless item := by
  cases hm : responseInputMessage item with
  | none =>
    have hsame : normalizeResponseInputItem item = (item, false) := by
      unfold normalizeResponseInputItem
      rw [hm]
    rw [hsame]
    simp [hsame, Contentless, hm]
  | some message =>
    obtain ⟨ms, rfl, hreads, hvalid⟩ := responseInputMessage_iff.mp hm
    have hcontentless : Contentless (.obj ms) ↔ message.content = none ∧ message.type = none := by
      simp [Contentless, hm]
    have hback := responseInputMessage_marshalJSON hreads hvalid
    rw [hcontentless]
    cases ht : asEasyInputMessageContent0 message.content with
    | some text =>
      have hfirst : (normalizeResponseInputItem (.obj ms)).1 = EasyInputMessage.marshalJSON
          { message with
            content := some (textContent message.role text), type := some (message.type.getD typeMessage) } := by
        simp only [normalizeResponseInputItem, hm, ht]
      have hsecond := hback (some (textContent message.role text)) (message.type.getD typeMessage)
      have hsome : message.content ≠ none := by
        intro hnone
        rw [hnone] at ht
        cases ht
      rw [hfirst, normalizeResponseInputItem, hsecond]
      simp [hsome, asEasyInputMessageContent0, textContent, compact, decodeString]
    | none =>
      by_cases htype : message.type = none
      · have hfirst : (normalizeResponseInputItem (.obj ms)).1 =
            EasyInputMessage.marshalJSON { message with content := message.content, type := some typeMessage } := by
          simp only [normalizeResponseInputItem, hm, ht, htype, if_true, Option.getD_none]
        rw [hfirst, normalizeResponseInputItem, hback message.content typeMessage]
        cases hc : message.content with
        | none => simp [htype, asEasyInputMessageContent0, compact, decodeString]
        | some c =>
          have hno : decodeString c [] = none := by
            rw [hc] at ht
            exact ht
          simp [asEasyInputMessageContent0, hno]
      · have hfirst : normalizeResponseInputItem (.obj ms) = (.obj ms, false) := by
          simp only [normalizeResponseInputItem, hm, ht, if_neg htype]
        rw [hfirst]
        simp [hfirst, htype]

/-! ## The depth of a written body -/

theorem depth_textContent (role text : Text) : depth (textContent role text) ≤ 2 := by
  have hparts : ∀ e ∈ [("text".toList, encodeString text), ("type".toList, encodeString (contentTypeForRole role))],
      depth e.2 ≤ 0 := by
    intro e he
    simp only [List.mem_cons, List.not_mem_nil, or_false] at he
    rcases he with rfl | rfl <;> exact le_rfl
  have hobject : depth (InputMessageContent.marshalJSON { type := contentTypeForRole role, text := some text }) ≤ 1 :=
    depth_encodeObject hparts (by simp)
  rw [textContent, depth, depthItems, depthItems, depth_compact]
  omega

/-- Normalizing nests an item no deeper than it is, or than a text in its parts. -/
theorem depth_normalize (item : Json) : depth (normalizeResponseInputItem item).1 ≤ max (depth item) 3 := by
  cases hm : responseInputMessage item with
  | none =>
    have hsame : normalizeResponseInputItem item = (item, false) := by
      unfold normalizeResponseInputItem
      rw [hm]
    rw [hsame]
    exact le_max_left _ _
  | some message =>
    obtain ⟨ms, rfl, hreads, -⟩ := responseInputMessage_iff.mp hm
    have hraw := depth_rawMembers (le_refl (depthMembers ms))
    have hadditional := depth_decodeAdditional (d := depthMembers ms)
      (fun e he => hraw e (List.mem_filter.mp he).1) hreads.additional
    have hdepth : depth (Json.obj ms) = depthMembers ms + 1 := rfl
    have hwritten : ∀ (content : Option Json) (type : Text),
        depth ((content.map compact).getD .null) ≤ max (depthMembers ms) 2 →
        depth (EasyInputMessage.marshalJSON { message with content := content, type := some type }) ≤
          max (depth (.obj ms)) 3 := by
      intro content type hcontent
      have hfields : ∀ e ∈ writtenFields ((content.map compact).getD .null) message.role type,
          depth e.2 ≤ max (depthMembers ms) 2 := by
        intro e he
        simp only [writtenFields, List.mem_cons, List.not_mem_nil, or_false] at he
        rcases he with rfl | rfl | rfl
        · exact hcontent
        · exact Nat.zero_le _
        · exact Nat.zero_le _
      have hle := depth_encodeObject hfields fun e he => (hadditional e he).trans (le_max_left _ 2)
      rw [marshalJSON_typed, hdepth]
      omega
    unfold normalizeResponseInputItem
    simp only [hm]
    split
    · apply hwritten
      rw [Option.map_some, Option.getD_some, depth_compact]
      exact (depth_textContent _ _).trans (le_max_right _ _)
    · split
      · apply hwritten
        rw [hreads.content]
        cases hc : get contentKey (ofList (rawMembers ms)) with
        | none => exact Nat.zero_le _
        | some c =>
          rw [Option.map_some, Option.getD_some, depth_compact]
          exact (hraw _ (mem_of_get hc)).trans (le_max_left _ _)
      · exact le_max_left _ _

theorem depth_withItems {ms : List (Lexeme × Json)} {r : ResponseCreateRequest}
    (h : ReadsRequest (ofList (rawMembers ms)) r) {items : List Json} (hitems : r.input = some (.arr items)) :
    depth (withItems r items).marshalJSON ≤ max (depth (.obj ms)) 5 := by
  have hraw := depth_rawMembers (le_refl (depthMembers ms))
  have hadditional := depth_decodeAdditional (d := depthMembers ms)
    (fun e he => hraw e (List.mem_filter.mp he).1) h.additional
  have hinput : depthItems items + 1 ≤ depthMembers ms := by
    have hi := h.input
    rw [hitems, readInput] at hi
    obtain ⟨raw, hget, hn⟩ := Option.bind_eq_some_iff.mp hi.symm
    cases raw with
    | arr xs =>
      cases hn
      exact hraw _ (mem_of_get hget)
    | _ => simp [notNull] at hn
  have hsent : depthItems (items.map fun item => (normalizeResponseInputItem item).1) ≤
      max (depthMembers ms - 1) 3 := by
    rw [depthItems_le]
    intro x hx
    obtain ⟨item, hitem, rfl⟩ := List.mem_map.mp hx
    have hone := depth_normalize item
    have hall := depthItems_le.mp (le_refl (depthItems items)) item hitem
    omega
  have hfields : ∀ e ∈ omitNil inputKey compact (withItems r items).input ++ [(modelKey, encodeString r.model)] ++
      omitNil streamKey Json.bool r.stream, depth e.2 ≤ max (depthMembers ms) 4 := by
    intro e he
    simp only [withItems, omitNil, List.mem_append, List.mem_singleton, or_assoc] at he
    rcases he with rfl | rfl | he
    · rw [depth_compact, depth, depthItems_compact]
      omega
    · exact Nat.zero_le _
    · cases hst : r.stream with
      | none => simp [hst] at he
      | some b =>
        simp only [hst, List.mem_singleton] at he
        subst he
        exact Nat.zero_le _
  have hle := depth_encodeObject hfields fun e he => (hadditional e he).trans (le_max_left _ 4)
  have hdepth : depth (Json.obj ms) = depthMembers ms + 1 := rfl
  have hmarshal : depth (withItems r items).marshalJSON ≤ max (depthMembers ms) 4 + 1 := hle
  omega

/-! ## The second pass -/

/-- An item as it is read back from a written body. -/
def reread (item : Json) : Json := compact (compact (compact (normalizeResponseInputItem item).1))

def rereadItems (items : List Json) : List Json := items.map reread

theorem compactItems_eq (xs : List Json) : compactItems xs = xs.map compact := by
  induction xs with
  | nil => rfl
  | cons x xs ih => rw [compactItems, ih, List.map_cons]

/-- A written request is read back with the written items. -/
theorem unmarshal_withItems {object : Entries Json} (hs : Sorted object) {r : ResponseCreateRequest}
    (h : ReadsRequest object r) (items : List Json) :
    ResponseCreateRequest.unmarshalJSON (withItems r items).marshalJSON {} =
      some { r with input := some (.arr (rereadItems items)) } := by
  have hread := decodeAdditional_read (undeclared_sorted requestFields hs) h.additional
  have hnames : ∀ k ∈ requestFields.map StructField.name, get k r.additionalProperties = none :=
    fun k hk => get_additional_none h.additional hk
  have hlist : requestFields.map StructField.name = [inputKey, modelKey, streamKey] := rfl
  have hkeys : ∀ e ∈ omitNil inputKey compact (withItems r items).input ++ [(modelKey, encodeString r.model)] ++
      omitNil streamKey Json.bool r.stream, e.1 ∈ requestFields.map StructField.name := by
    intro e he
    rw [hlist]
    simp only [withItems, omitNil, List.mem_append, List.mem_singleton, or_assoc] at he
    rcases he with rfl | rfl | he
    · simp
    · simp
    · cases hst : r.stream with
      | none => simp [hst] at he
      | some b =>
        simp only [hst, List.mem_singleton] at he
        subst he
        simp
  have hobject := decodeObject_encodeObject requestFields_nodup
    (fun m (a : ResponseCreateRequest) => { a with additionalProperties := m }) hkeys hread hnames {}
  have hwritten := get_requestWritten (withItems r items)
  have hinput := hwritten inputKey
  have hmodel := hwritten modelKey
  have hstream := hwritten streamKey
  rw [if_neg (by decide), if_neg (by decide), if_pos rfl] at hinput
  rw [if_neg (by decide), if_pos rfl] at hmodel
  rw [if_pos rfl] at hstream
  have hmodel' : (withItems r items).model = r.model := rfl
  have hstream' : (withItems r items).stream = r.stream := rfl
  rw [hmodel', hstream'] at hinput hmodel hstream
  rw [setFields_request, readInput, readModel, readStream, get_mapValues, get_mapValues, get_mapValues, hinput, hmodel,
    hstream] at hobject
  have hitems : compact (compact (.arr (compactItems (items.map fun item => (normalizeResponseInputItem item).1)))) =
      .arr (rereadItems items) := by
    simp only [compact, compactItems_eq, List.map_map, rereadItems]
    rfl
  have hsent : (((withItems r items).input.map compact).map compact).bind notNull = some (.arr (rereadItems items)) :=
    congrArg notNull hitems
  have hread' : (((r.stream.map Json.bool).map compact).map fun raw => decodePtr decodeBool false raw none).getD
      (some none) = some r.stream := by
    cases r.stream <;> rfl
  rw [hsent, hread'] at hobject
  simp only [Option.map_some, Option.getD_some, decodeString_compact, decodeString_encodeString, Option.bind_some]
    at hobject
  refine Eq.trans hobject ?_
  split
  · rename_i hempty
    rw [List.isEmpty_iff.mp hempty]
  · rfl

theorem changes_rereadItems (items : List Json) :
    changes (rereadItems items) = true ↔ ∃ item ∈ items, Contentless item := by
  have hone : ∀ item, (normalizeResponseInputItem (reread item)).2 = true ↔ Contentless item := by
    intro item
    rw [reread, changed_compact, changed_compact, changed_compact, changed_normalize]
  simp [changes, rereadItems, hone]

/-- A message without content and type is written with null for its content, and with an
empty text after that. -/
theorem normalize_contentless {ms : List (Lexeme × Json)} {message : EasyInputMessage}
    (h : ReadsMessage (ofList (rawMembers ms)) message) (hvalid : validRole message.role = true)
    (hcontent : message.content = none) (htype : message.type = none) :
    (normalizeResponseInputItem (.obj ms)).1 =
        EasyInputMessage.marshalJSON { message with content := none, type := some typeMessage } ∧
      (normalizeResponseInputItem (reread (.obj ms))).1 = EasyInputMessage.marshalJSON
        { message with content := some (textContent message.role []), type := some typeMessage } := by
  have hm : responseInputMessage (.obj ms) = some message := responseInputMessage_iff.mpr ⟨ms, rfl, h, hvalid⟩
  have hfirst : (normalizeResponseInputItem (.obj ms)).1 =
      EasyInputMessage.marshalJSON { message with content := none, type := some typeMessage } := by
    simp [normalizeResponseInputItem, hm, hcontent, htype, asEasyInputMessageContent0]
  have hback : responseInputMessage (reread (.obj ms)) =
      some { message with content := some .null, type := some typeMessage } := by
    rw [reread, hfirst, responseInputMessage_compact, responseInputMessage_compact, responseInputMessage_compact,
      responseInputMessage_marshalJSON h hvalid]
    rfl
  constructor
  · exact hfirst
  · simp [normalizeResponseInputItem, hback, asEasyInputMessageContent0, decodeString]

/-- The second pass says something else of a message without content and type. -/
theorem not_same_contentless {E : GoJson.Num → GoJson.Num → Prop} {item : Json} (h : Contentless item) :
    ¬ Same E (treeOf (normalizeResponseInputItem item).1) (treeOf (normalizeResponseInputItem (reread item)).1) := by
  obtain ⟨message, hm, hcontent, htype⟩ := h
  obtain ⟨ms, rfl, hreads, hvalid⟩ := responseInputMessage_iff.mp hm
  obtain ⟨hfirst, hsecond⟩ := normalize_contentless hreads hvalid hcontent htype
  obtain ⟨t, ht, hc, -, -, -⟩ := treeOf_marshalJSON hreads.additional none message.role typeMessage
  obtain ⟨t', ht', hc', -, -, -⟩ :=
    treeOf_marshalJSON hreads.additional (some (textContent message.role [])) message.role typeMessage
  rw [hfirst, hsecond]
  intro hsame
  have hobject : Same E (.obj t) (.obj t') := ht ▸ ht' ▸ hsame
  exact get_sameMembers hobject hc hc'

theorem sameValue_refl {s : Bytes} (h : ∃ j, parse s = some j) : SameValue s s := by
  obtain ⟨j, hj⟩ := h
  exact ⟨j, j, hj, hj,
    same_refl (E := fun n n' => parseFloat n = parseFloat n') (fun _ => rfl) _⟩

/-! ## Two passes -/

/-- The second pass over a body whose items were written. -/
theorem adapt_withItems {body : Bytes} {ms : List (Lexeme × Json)} (hbody : checkValid body = some (.obj ms))
    {r : ResponseCreateRequest} (h : ReadsRequest (ofList (rawMembers ms)) r) {items : List Json}
    (hitems : r.input = some (.arr items)) :
    adaptResponsesRequestBody (print (withItems r items).marshalJSON) =
      some (if changes (rereadItems items) then
        print (withItems { r with input := some (.arr (rereadItems items)) } (rereadItems items)).marshalJSON
      else print (withItems r items).marshalJSON) := by
  have hdepth : depth (withItems r items).marshalJSON ≤ maxNestingDepth := by
    have hle := depth_withItems h hitems
    have hvalid := depth_of_checkValid hbody
    have hmax : maxNestingDepth = 10000 := rfl
    omega
  have hread : unmarshal (ResponseCreateRequest.unmarshalJSON · {}) (print (withItems r items).marshalJSON) =
      some { r with input := some (.arr (rereadItems items)) } := by
    rw [unmarshal, checkValid_print hdepth, Option.bind_some, unmarshal_withItems (ofList_sorted _) h]
  rw [adapt_eq hread]

/-- The second pass over a body in which a message without content and type was written. -/
theorem not_sameValue_withItems {ms : List (Lexeme × Json)} {r : ResponseCreateRequest}
    (h : ReadsRequest (ofList (rawMembers ms)) r) {items : List Json} {item : Json} (hitem : item ∈ items)
    (hcontentless : Contentless item) :
    ¬ SameValue (print (withItems r items).marshalJSON)
      (print (withItems { r with input := some (.arr (rereadItems items)) } (rereadItems items)).marshalJSON) := by
  rintro ⟨j, j', hj, hj', hsame⟩
  rw [parse_print] at hj hj'
  cases hj
  cases hj'
  obtain ⟨m, hm, hget⟩ := input_withItems (ofList_sorted _) h items
  obtain ⟨m', hm', hget'⟩ := input_withItems (ofList_sorted _) h (rereadItems items)
  have hmembers : SameMembers (fun n n' => parseFloat n = parseFloat n') m m' := by
    have hobjects : Same (fun n n' => parseFloat n = parseFloat n') (.obj m) (.obj m') := hm ▸ hm' ▸ hsame
    exact hobjects
  have hall := forall₂_of_sameItems (get_sameMembers hmembers hget hget')
  rw [rereadItems, List.map_map, List.forall₂_map_left_iff, List.forall₂_map_right_iff, List.forall₂_same] at hall
  exact not_same_contentless hcontentless (hall item hitem)

theorem inputItems_eq {body : Bytes} {j : Json} (hj : parse body = some j) {object : Entries Json}
    (hobject : decodeRawMap j = some object) {r : ResponseCreateRequest} (h : ReadsRequest object r) :
    inputItems body = match r.input with
      | some (.arr items) => items
      | _ => [] := by
  rw [h.input, readInput]
  unfold inputItems
  rw [hj]
  cases j with
  | obj ms =>
    obtain rfl := Option.some.inj hobject
    simp only
    cases get inputKey (ofList (rawMembers ms)) with
    | none => rfl
    | some raw => cases raw <;> rfl
  | null =>
    obtain rfl := Option.some.inj hobject
    rfl
  | _ => cases hobject

/-- A message without content and type is never sent as it came. -/
theorem changes_of_contentless {items : List Json} {item : Json} (hitem : item ∈ items) (h : Contentless item) :
    changes items = true := by
  obtain ⟨message, hm, hcontent, htype⟩ := h
  apply List.any_eq_true.mpr
  refine ⟨item, hitem, ?_⟩
  simp [normalizeResponseInputItem, hm, hcontent, htype, asEasyInputMessageContent0]

/-- A second pass changes nothing exactly when no item came as a message without content
and type. -/
theorem adaptResponsesRequestBody_twice_iff {body sent : Bytes} (h : adaptResponsesRequestBody body = some sent) :
    (∃ sent', adaptResponsesRequestBody sent = some sent' ∧ SameValue sent sent') ↔
      ∀ item ∈ inputItems body, ¬ Contentless item := by
  cases hr : unmarshal (ResponseCreateRequest.unmarshalJSON · {}) body with
  | none => simp [adaptResponsesRequestBody, hr] at h
  | some r =>
    obtain ⟨j, hj, hread⟩ := Option.bind_eq_some_iff.mp hr
    obtain ⟨object, hobject, hreads⟩ := (unmarshal_request_iff j r).mp hread
    have hparse : parse body = some j := parse_of_checkValid hj
    have hunchanged : sent = body → (∀ item ∈ inputItems body, ¬ Contentless item) →
        ((∃ sent', adaptResponsesRequestBody sent = some sent' ∧ SameValue sent sent') ↔
          ∀ item ∈ inputItems body, ¬ Contentless item) := by
      rintro rfl hnone
      exact ⟨fun _ => hnone, fun _ => ⟨sent, h, sameValue_refl ⟨j, hparse⟩⟩⟩
    rw [adapt_eq hr, Option.some.injEq] at h
    have hinput := inputItems_eq hparse hobject hreads
    split at h
    · rename_i items hi
      simp only [hi] at hinput
      cases hchanges : changes items with
      | false =>
        rw [hchanges] at h
        apply hunchanged h.symm
        intro item hitem hcontentless
        rw [hinput] at hitem
        rw [changes_of_contentless hitem hcontentless] at hchanges
        cases hchanges
      | true =>
        rw [hchanges, if_pos rfl] at h
        subst h
        cases j with
        | obj ms =>
          obtain rfl := Option.some.inj hobject
          have hagain := adapt_withItems hj hreads hi
          rw [hinput, hagain]
          constructor
          · rintro ⟨sent', hsent', hsame⟩ item hitem hcontentless
            rw [if_pos ((changes_rereadItems items).mpr ⟨item, hitem, hcontentless⟩)] at hsent'
            obtain rfl := Option.some.inj hsent'
            exact not_sameValue_withItems hreads hitem hcontentless hsame
          · intro hnone
            have hno : ¬ changes (rereadItems items) = true := by
              rw [changes_rereadItems]
              rintro ⟨item, hitem, hcontentless⟩
              exact hnone item hitem hcontentless
            rw [if_neg hno]
            exact ⟨_, rfl, sameValue_refl ⟨_, parse_print _⟩⟩
        | null =>
          obtain rfl := Option.some.inj hobject
          rw [hreads.input] at hi
          cases hi
        | _ => cases hobject
    · rename_i hno
      apply hunchanged h.symm
      rw [hinput]
      split
      · rename_i items hi
        exact absurd hi (hno items)
      · simp

theorem adaptResponsesRequestBody_twice_userItem : ∃ sent, adaptResponsesRequestBody (itemBody userItem) = some sent ∧
    ((∃ sent', adaptResponsesRequestBody sent = some sent' ∧ SameValue sent sent') ↔
      ∀ item ∈ inputItems (itemBody userItem), ¬ Contentless item) := by
  have hsent : (adaptResponsesRequestBody (itemBody userItem)).isSome = true := by decide +kernel
  obtain ⟨sent, hsent⟩ := Option.isSome_iff_exists.mp hsent
  exact ⟨sent, hsent, adaptResponsesRequestBody_twice_iff hsent⟩

/-- A message with a role and nothing else. -/
def emptyMessage : Json := .obj [(quote roleKey, .str (quote roleUser))]

/-- A request with one message of the user and this content. -/
def writtenBody (content : Json) : Json :=
  .obj [(quote inputKey, .arr [.obj [(quote contentKey, content), (quote roleKey, .str (quote roleUser)),
    (quote typeKey, .str (quote typeMessage))]]), (quote modelKey, .str (quote []))]

/-- Its content is written as null, and the second pass writes an empty text for that. -/
theorem emptyMessage_gains_text : ∃ sent sent', adaptResponsesRequestBody (itemBody emptyMessage) = some sent ∧
    adaptResponsesRequestBody sent = some sent' ∧ ¬ SameValue sent sent' := by
  have hfirst : adaptResponsesRequestBody (itemBody emptyMessage) = some (print (writtenBody .null)) := by
    decide +kernel
  have hsecond : adaptResponsesRequestBody (print (writtenBody .null)) =
      some (print (writtenBody (textContent roleUser []))) := by
    decide +kernel
  refine ⟨_, _, hfirst, hsecond, ?_⟩
  rintro ⟨j, j', hj, hj', hsame⟩
  rw [parse_print] at hj hj'
  cases hj
  cases hj'
  have htree : ∀ content, treeOf (writtenBody content) = .obj [(inputKey, .arr [.obj [(contentKey, treeOf content),
      (roleKey, .str roleUser), (typeKey, .str typeMessage)]]), (modelKey, .str [])] := by
    intro content
    rfl
  rw [htree, htree] at hsame
  exact hsame.2.1.1.2.1

end RequestNormalForm
