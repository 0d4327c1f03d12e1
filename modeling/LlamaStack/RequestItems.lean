import LlamaStack.GoJsonExact
import LlamaStack.GoJsonObjects
import LlamaStack.RequestAdapter

/-!
# The items of a Responses request

What the adapter makes of each item of the input, member by member, and when it
sends the body as it came. Numbers are compared as the floats they are read as.
-/
namespace RequestItems

open GoBytes GoFloat64 GoJson GoMap OpenaiApi RequestAdapter

def contentKey : Text := "content".toList
def roleKey : Text := "role".toList
def typeKey : Text := "type".toList
def textKey : Text := "text".toList
def inputKey : Text := "input".toList

/-! ## Items before and after -/

/-- A message with one of the four roles. -/
def IsMessage (m : Entries Tree) (role : Text) : Prop :=
  get roleKey m = some (.str role) ∧
    (role = "user".toList ∨ role = "assistant".toList ∨ role = "system".toList ∨ role = "developer".toList)

/-- No type is given. -/
def Untyped (m : Entries Tree) : Prop := get typeKey m = none ∨ get typeKey m = some .null

/-- The item has none of the roles, or is a message with type and content parts. -/
def Untouched (x : Tree) : Prop :=
  (∀ m role, x = .obj m → ¬ IsMessage m role) ∨
    ∃ m role t xs, x = .obj m ∧ IsMessage m role ∧ get typeKey m = some (.str t) ∧
      get contentKey m = some (.arr xs)

/-- A member is missing in both, or says the same with numbers as floats. -/
def FloatMember : Option Tree → Option Tree → Prop
  | none, none => True
  | some x, some x' => Same (fun n n' => parseFloat n = parseFloat n') x x'
  | _, _ => False

def KeepsOthers (m m' : Entries Tree) : Prop :=
  ∀ k, k ≠ contentKey → k ≠ typeKey → FloatMember (get k m) (get k m')

/-- What the parts of a message are called. -/
def partType (role : Text) : Text := if role = "assistant".toList then "output_text".toList else "input_text".toList

/-- The content parts that stand for a text. -/
def textParts (role text : Text) : Tree :=
  .arr [.obj [(textKey, .str text), (typeKey, .str (partType role))]]

/-- How an item of the input is sent. -/
structure Normalized (x x' : Tree) : Prop where
  untouched : Untouched x → x' = x
  text : ∀ m role s, x = .obj m → IsMessage m role → get contentKey m = some (.str s) →
    (Untyped m → ∃ m', x' = .obj m' ∧ KeepsOthers m m' ∧ get contentKey m' = some (textParts role s) ∧
      get typeKey m' = some (.str "message".toList)) ∧
    ∀ t, get typeKey m = some (.str t) → ∃ m', x' = .obj m' ∧ KeepsOthers m m' ∧
      get contentKey m' = some (textParts role s) ∧ get typeKey m' = some (.str t)
  parts : ∀ m role xs, x = .obj m → IsMessage m role → get contentKey m = some (.arr xs) → Untyped m →
    ∃ m', x' = .obj m' ∧ KeepsOthers m m' ∧ get contentKey m' = some (.arr xs) ∧
      get typeKey m' = some (.str "message".toList)

/-- The items of the input are sent one by one, in order; where all are untouched, or
there are none, the body is sent as it came. -/
structure Normalizes (m : Entries Tree) (body sent : Bytes) : Prop where
  items : ∀ xs, get inputKey m = some (.arr xs) → ∃ m' xs', membersOf sent = some m' ∧
    get inputKey m' = some (.arr xs') ∧ List.Forall₂ Normalized xs xs'
  same : (∀ xs, get inputKey m = some (.arr xs) → ∀ x ∈ xs, Untouched x) → sent = body

theorem validRole_iff (role : Text) : validRole role = true ↔
    role = "user".toList ∨ role = "assistant".toList ∨ role = "system".toList ∨ role = "developer".toList := by
  have hmem : validRole role = true ↔
      role = roleAssistant ∨ role = roleDeveloper ∨ role = roleSystem ∨ role = roleUser := by
    simp only [validRole, decide_eq_true_eq, List.mem_cons, List.not_mem_nil, or_false]
  rw [hmem]
  unfold roleAssistant roleDeveloper roleSystem roleUser
  constructor
  · rintro (h | h | h | h)
    · exact .inr (.inl h)
    · exact .inr (.inr (.inr h))
    · exact .inr (.inr (.inl h))
    · exact .inl h
  · rintro (h | h | h | h)
    · exact .inr (.inr (.inr h))
    · exact .inl h
    · exact .inr (.inr (.inl h))
    · exact .inr (.inl h)

theorem contentTypeForRole_eq (role : Text) : contentTypeForRole role = partType role := by
  unfold contentTypeForRole partType roleAssistant outputText inputText
  rfl

/-! ## Numbers in range -/

mutual
/-- Every number of the text is read as a float. -/
def InRange : Json → Prop
  | .num n => (parseFloat n).isSome
  | .arr xs => InRangeItems xs
  | .obj ms => InRangeMembers ms
  | _ => True
def InRangeItems : List Json → Prop
  | [] => True
  | x :: xs => InRange x ∧ InRangeItems xs
def InRangeMembers : List (Lexeme × Json) → Prop
  | [] => True
  | (_, x) :: ms => InRange x ∧ InRangeMembers ms
end

mutual
theorem decodeValue_inRange : ∀ j : Json, InRange j → ∃ v, decodeValue j = some v
  | .null, _ => ⟨_, rfl⟩
  | .bool _, _ => ⟨_, rfl⟩
  | .num n, h => by
    obtain ⟨x, hx⟩ := Option.isSome_iff_exists.mp h
    exact ⟨.num x, by rw [decodeValue, hx, Option.map_some]⟩
  | .str _, _ => ⟨_, rfl⟩
  | .arr xs, h => by
    obtain ⟨vs, hvs⟩ := decodeItems_inRange xs h
    exact ⟨.arr vs, by rw [decodeValue, hvs, Option.map_some]⟩
  | .obj ms, h => by
    obtain ⟨es, hes⟩ := decodeMembers_inRange ms h
    exact ⟨.obj (ofList es), by rw [decodeValue, hes, Option.map_some]⟩
theorem decodeItems_inRange : ∀ xs : List Json, InRangeItems xs → ∃ vs, decodeItems xs = some vs
  | [], _ => ⟨[], rfl⟩
  | x :: xs, h => by
    obtain ⟨v, hv⟩ := decodeValue_inRange x h.1
    obtain ⟨vs, hvs⟩ := decodeItems_inRange xs h.2
    exact ⟨v :: vs, by simp [decodeItems, hv, hvs]⟩
theorem decodeMembers_inRange : ∀ ms : List (Lexeme × Json), InRangeMembers ms → ∃ es, decodeMembers ms = some es
  | [], _ => ⟨[], rfl⟩
  | (k, x) :: ms, h => by
    obtain ⟨v, hv⟩ := decodeValue_inRange x h.1
    obtain ⟨es, hes⟩ := decodeMembers_inRange ms h.2
    exact ⟨(unquote k, v) :: es, by simp [decodeMembers, hv, hes]⟩
end

theorem inRange_member {ms : List (Lexeme × Json)} (h : InRangeMembers ms) : ∀ e ∈ rawMembers ms, InRange e.2 := by
  induction ms with
  | nil => simp [rawMembers]
  | cons e ms ih =>
    obtain ⟨k, x⟩ := e
    intro e he
    cases List.mem_cons.mp he with
    | inl he => exact he ▸ h.1
    | inr he => exact ih h.2 e he

theorem inRange_item {xs : List Json} (h : InRangeItems xs) : ∀ x ∈ xs, InRange x := by
  induction xs with
  | nil => simp
  | cons x xs ih =>
    intro y hy
    cases List.mem_cons.mp hy with
    | inl hy => exact hy ▸ h.1
    | inr hy => exact ih h.2 y hy

/-! ## Reading a message -/

def messageFields : List (StructField EasyInputMessage) :=
  [⟨"content".toList, fun v a => (decodeRaw v a.content).map fun x => { a with content := x }⟩,
    ⟨"role".toList, fun v a => (decodeString v a.role).map fun x => { a with role := x }⟩,
    ⟨"type".toList, fun v a => (decodePtr decodeString [] v a.type).map fun x => { a with type := x }⟩]

theorem messageFields_nodup : (messageFields.map StructField.name).Nodup := by decide

/-- The role that is read; `none` is an error. -/
def readRole (object : Entries Json) : Option Text :=
  ((get roleKey object).map fun raw => decodeString raw []).getD (some [])

/-- The type that is read; `none` is an error. -/
def readType (object : Entries Json) : Option (Option Text) :=
  ((get typeKey object).map fun raw => decodePtr decodeString [] raw none).getD (some none)

theorem setFields_message (object : Entries Json) : setFields messageFields object {} =
    (readRole object).bind fun role => (readType object).map fun type =>
      { content := get contentKey object, role := role, type := type } := by
  unfold setFields messageFields readRole readType
  have hc : get "content".toList object = get contentKey object := rfl
  have hr : get "role".toList object = get roleKey object := rfl
  have ht : get "type".toList object = get typeKey object := rfl
  simp only [List.foldlM_cons, List.foldlM_nil, hc, hr, ht]
  cases get contentKey object <;> cases get roleKey object <;> cases get typeKey object <;>
    simp [decodeRaw, Option.map_eq_bind, Option.bind_assoc]

/-- What a message is read from. -/
structure ReadsMessage (object : Entries Json) (message : EasyInputMessage) : Prop where
  content : message.content = get contentKey object
  role : readRole object = some message.role
  type : readType object = some message.type
  additional : decodeAdditional (undeclared messageFields object) = some message.additionalProperties

theorem unmarshal_message_iff (j : Json) (message : EasyInputMessage) :
    EasyInputMessage.unmarshalJSON j {} = some message ↔
      ∃ object, decodeRawMap j = some object ∧ ReadsMessage object message := by
  have hempty : ∀ object (s : EasyInputMessage), setFields messageFields object {} = some s →
      { s with additionalProperties := [] } = s := by
    intro object s hs
    rw [setFields_message] at hs
    obtain ⟨role, -, hs⟩ := Option.bind_eq_some_iff.mp hs
    obtain ⟨type, -, rfl⟩ := Option.map_eq_some_iff.mp hs
    rfl
  have hiff := decodeObject_iff messageFields_nodup (fun m a => { a with additionalProperties := m }) hempty j message
  constructor
  · intro h
    obtain ⟨object, s, m, hobject, hs, hm, rfl⟩ := hiff.mp h
    rw [setFields_message] at hs
    obtain ⟨role, hrole, hs⟩ := Option.bind_eq_some_iff.mp hs
    obtain ⟨type, htype, rfl⟩ := Option.map_eq_some_iff.mp hs
    exact ⟨object, hobject, rfl, hrole, htype, hm⟩
  · rintro ⟨object, hobject, hcontent, hrole, htype, hm⟩
    refine hiff.mpr ⟨object, { message with additionalProperties := [] }, _, hobject, ?_, hm, rfl⟩
    rw [setFields_message, hrole, htype, ← hcontent]
    rfl

theorem treeOf_eq_str {j : Json} {x : Text} (h : treeOf j = .str x) : ∃ s, j = .str s ∧ unquote s = x := by
  cases j with
  | str s => exact ⟨s, rfl, by simpa [treeOf] using h⟩
  | _ => simp [treeOf] at h

section Members

variable {ms : List (Lexeme × Json)}

theorem readRole_of_tree {role : Text} (h : get roleKey (ofList (treeOfMembers ms)) = some (.str role)) :
    readRole (ofList (rawMembers ms)) = some role := by
  rw [get_treeOf] at h
  obtain ⟨raw, hraw, htree⟩ := Option.map_eq_some_iff.mp h
  obtain ⟨s, rfl, rfl⟩ := treeOf_eq_str htree
  rw [readRole, hraw]
  rfl

theorem readType_of_tree {type : Text} (h : get typeKey (ofList (treeOfMembers ms)) = some (.str type)) :
    readType (ofList (rawMembers ms)) = some (some type) := by
  rw [get_treeOf] at h
  obtain ⟨raw, hraw, htree⟩ := Option.map_eq_some_iff.mp h
  obtain ⟨s, rfl, rfl⟩ := treeOf_eq_str htree
  rw [readType, hraw]
  rfl

theorem readType_of_untyped (h : Untyped (ofList (treeOfMembers ms))) :
    readType (ofList (rawMembers ms)) = some none := by
  unfold Untyped at h
  rw [get_treeOf, Option.map_eq_none_iff, Option.map_eq_some_iff] at h
  rw [readType]
  cases h with
  | inl h => rw [h]; rfl
  | inr h =>
    obtain ⟨raw, hraw, htree⟩ := h
    cases raw with
    | null => rw [hraw]; rfl
    | _ => simp [treeOf] at htree

/-- A valid role was given as a string. -/
theorem tree_of_readRole {role : Text} (h : readRole (ofList (rawMembers ms)) = some role)
    (hvalid : validRole role = true) : IsMessage (ofList (treeOfMembers ms)) role := by
  refine ⟨?_, (validRole_iff role).mp hvalid⟩
  have hempty : validRole [] ≠ true := by decide
  rw [get_treeOf]
  unfold readRole at h
  cases hraw : get roleKey (ofList (rawMembers ms)) with
  | none =>
    rw [hraw] at h
    cases h
    exact absurd hvalid hempty
  | some raw =>
    rw [hraw, Option.map_some, Option.getD_some] at h
    cases raw with
    | str s =>
      cases h
      rfl
    | null =>
      cases h
      exact absurd hvalid hempty
    | _ => cases h

theorem responseInputMessage_iff {item : Json} {message : EasyInputMessage} :
    responseInputMessage item = some message ↔ ∃ ms, item = .obj ms ∧
      ReadsMessage (ofList (rawMembers ms)) message ∧ validRole message.role = true := by
  rw [responseInputMessage, Option.filter_eq_some_iff, unmarshal_message_iff]
  constructor
  · rintro ⟨⟨object, hobject, hreads⟩, hvalid⟩
    cases item with
    | obj ms =>
      obtain rfl := Option.some.inj hobject
      exact ⟨ms, rfl, hreads, hvalid⟩
    | null =>
      obtain rfl := Option.some.inj hobject
      have hrole : [] = message.role := Option.some.inj hreads.role
      rw [← hrole] at hvalid
      exact absurd hvalid (by decide)
    | _ => cases hobject
  · rintro ⟨ms, rfl, hreads, hvalid⟩
    exact ⟨⟨_, rfl, hreads⟩, hvalid⟩

/-- A message of the input is read as such. -/
theorem message_of_tree (hrange : InRangeMembers ms) {role : Text} {type : Option Text}
    (hrole : IsMessage (ofList (treeOfMembers ms)) role) (htype : readType (ofList (rawMembers ms)) = some type) :
    ∃ m, decodeAdditional (undeclared messageFields (ofList (rawMembers ms))) = some m ∧
      responseInputMessage (.obj ms) = some
        { content := get contentKey (ofList (rawMembers ms)), role := role, type := type
          additionalProperties := m } := by
  have hdecodes : ∀ e ∈ undeclared messageFields (ofList (rawMembers ms)), ∃ v, decodeValue e.2 = some v := by
    intro e he
    exact decodeValue_inRange _ (inRange_member hrange e (mem_ofList (List.mem_filter.mp he).1))
  obtain ⟨m, hm⟩ := decodeAdditional_isSome hdecodes
  exact ⟨m, hm, responseInputMessage_iff.mpr ⟨ms, rfl, ⟨rfl, readRole_of_tree hrole.1, htype, hm⟩,
    (validRole_iff role).mpr hrole.2⟩⟩

/-- The declared fields of a message with a type, as they are written. -/
def writtenFields (content : Json) (role type : Text) : List (Text × Json) :=
  [(contentKey, content), (roleKey, encodeString role), (typeKey, encodeString type)]

theorem get_written (content : Json) (role type : Text) (k : Text) :
    get k (ofList (writtenFields content role type)) =
      if k = typeKey then some (encodeString type)
      else if k = roleKey then some (encodeString role)
      else if k = contentKey then some content else none := by
  rw [get_ofList]
  rfl

theorem marshalJSON_typed (content : Option Json) (role type : Text) (m : Entries Value) :
    EasyInputMessage.marshalJSON ⟨content, role, some type, m⟩ =
      encodeObject (writtenFields ((content.map compact).getD .null) role type) m := rfl

/-- What a message with a type says when it is written. -/
theorem treeOf_marshalJSON {m : Entries Value}
    (h : decodeAdditional (undeclared messageFields (ofList (rawMembers ms))) = some m) (content : Option Json)
    (role type : Text) :
    ∃ t, treeOf (EasyInputMessage.marshalJSON ⟨content, role, some type, m⟩) = .obj t ∧
      get contentKey t = some (treeOf (content.getD .null)) ∧ get roleKey t = some (.str role) ∧
      get typeKey t = some (.str type) ∧
      ∀ k, k ≠ contentKey → k ≠ roleKey → k ≠ typeKey →
        get k t = (get k (ofList (treeOfMembers ms))).map (mapNums recode) := by
  have hsorted := decodeAdditional_sorted (undeclared_sorted messageFields (ofList_sorted (rawMembers ms))) h
  obtain ⟨t, ht, hget⟩ := treeOf_encodeObject
    (writtenFields ((content.map compact).getD .null) role type) hsorted
  have hfields := get_written ((content.map compact).getD .null) role type
  have hnames : ∀ k ∈ messageFields.map StructField.name, get k m = none := fun k hk => get_additional_none h hk
  have hcontent : treeOf ((content.map compact).getD .null) = treeOf (content.getD .null) := by
    cases content with
    | none => rfl
    | some c => exact treeOf_compact c
  refine ⟨t, ht, ?_, ?_, ?_, ?_⟩
  · rw [hget, hnames _ (by decide), hfields, if_neg (by decide), if_neg (by decide), if_pos rfl, Option.map_some,
      hcontent]
    rfl
  · rw [hget, hnames _ (by decide), hfields, if_neg (by decide), if_pos rfl]
    simp [encodeString, treeOf]
  · rw [hget, hnames _ (by decide), hfields, if_pos rfl]
    simp [encodeString, treeOf]
  · intro k h₁ h₂ h₃
    have hundeclared : k ∉ messageFields.map StructField.name := by
      have hnames : messageFields.map StructField.name = [contentKey, roleKey, typeKey] := rfl
      simp [hnames, h₁, h₂, h₃]
    rw [hget, hfields, if_neg h₃, if_neg h₂, if_neg h₁, get_additional h hundeclared, Option.map_none, Option.or_none]

end Members

/-! ## One item -/

theorem treeOf_textContent (role text : Text) : treeOf (textContent role text) = textParts role text := by
  have hsorted : Sorted [(textKey, encodeString text), (typeKey, encodeString (contentTypeForRole role))] := by
    have hlt : textKey < typeKey := by decide
    simp [Sorted, hlt]
  have hobject : InputMessageContent.marshalJSON { type := contentTypeForRole role, text := some text } =
      encodeRawMap (ofList [(textKey, encodeString text), (typeKey, encodeString (contentTypeForRole role))]) := rfl
  rw [ofList_of_sorted hsorted] at hobject
  rw [textContent, treeOf, treeOfItems, treeOfItems, treeOf_compact, hobject, textParts, ← contentTypeForRole_eq,
    encodeRawMap, treeOf, treeOfMembers_quote, ofList_of_sorted (mapValues_sorted _ hsorted)]
  simp [mapValues, encodeString, treeOf]

theorem floatMember_recode (t : Option Tree) : FloatMember t (t.map (mapNums recode)) := by
  cases t with
  | none => trivial
  | some x => exact (same_mapNums _ recode x).mpr (allNums_of_forall (fun n => (parseFloat_recode n).symm) x)

/-- The role and the members that no field declares are kept. -/
theorem keepsOthers_of_get {m m' : Entries Tree} {role : Text} (hrole : get roleKey m = some (.str role))
    (hrole' : get roleKey m' = some (.str role))
    (h : ∀ k, k ≠ contentKey → k ≠ roleKey → k ≠ typeKey → get k m' = (get k m).map (mapNums recode)) :
    KeepsOthers m m' := by
  intro k h₁ h₃
  by_cases h₂ : k = roleKey
  · rw [h₂, hrole, hrole']
    exact rfl
  · rw [h k h₁ h₂ h₃]
    exact floatMember_recode _

theorem asText_eq_some {content : Option Json} {x : Text} (h : content.map treeOf = some (.str x)) :
    asEasyInputMessageContent0 content = some x := by
  obtain ⟨raw, rfl, htree⟩ := Option.map_eq_some_iff.mp h
  obtain ⟨s, rfl, rfl⟩ := treeOf_eq_str htree
  rfl

theorem asText_eq_none {content : Option Json} {xs : List Tree} (h : content.map treeOf = some (.arr xs)) :
    asEasyInputMessageContent0 content = none := by
  obtain ⟨raw, rfl, htree⟩ := Option.map_eq_some_iff.mp h
  cases raw with
  | arr xs => rfl
  | _ => simp [treeOf] at htree

/-- An untouched item stays as it is. -/
theorem normalize_untouched {item : Json} (h : Untouched (treeOf item)) :
    normalizeResponseInputItem item = (item, false) := by
  unfold normalizeResponseInputItem
  cases hm : responseInputMessage item with
  | none => rfl
  | some message =>
    obtain ⟨ms, rfl, hreads, hvalid⟩ := responseInputMessage_iff.mp hm
    have hmessage := tree_of_readRole hreads.role hvalid
    cases h with
    | inl h => exact absurd hmessage (h _ _ rfl)
    | inr h =>
      obtain ⟨m, role, t, xs, hobject, -, htype, hcontent⟩ := h
      obtain rfl := Tree.obj.inj hobject
      rw [get_treeOf] at hcontent
      have hnone := asText_eq_none hcontent
      rw [← hreads.content] at hnone
      have htyped : some t = message.type :=
        Option.some.inj ((readType_of_tree htype).symm.trans hreads.type)
      have hsome : message.type ≠ none := by
        rw [← htyped]
        exact Option.some_ne_none t
      simp only [hnone, if_neg hsome]

/-- An item of numbers in range is normalized. -/
theorem normalized_item {item : Json} (hrange : InRange item) :
    Normalized (treeOf item) (treeOf (normalizeResponseInputItem item).1) := by
  constructor
  · intro h
    rw [normalize_untouched h]
  · intro m role s hitem hmessage hcontent
    have htext : ∀ type : Option Text, ∀ ms, item = .obj ms → m = ofList (treeOfMembers ms) →
        readType (ofList (rawMembers ms)) = some type →
        ∃ m', treeOf (normalizeResponseInputItem item).1 = .obj m' ∧ KeepsOthers m m' ∧
          get contentKey m' = some (textParts role s) ∧ get typeKey m' = some (.str (type.getD typeMessage)) := by
      rintro type ms rfl rfl htype
      obtain ⟨a, ha, hread⟩ := message_of_tree hrange hmessage htype
      rw [get_treeOf] at hcontent
      have hasText := asText_eq_some hcontent
      obtain ⟨t, ht, hc, hr, hty, hrest⟩ :=
        treeOf_marshalJSON ha (some (textContent role s)) role (type.getD typeMessage)
      refine ⟨t, ?_, keepsOthers_of_get hmessage.1 hr hrest, ?_, hty⟩
      · simp only [normalizeResponseInputItem, hread, hasText]
        exact ht
      · rw [hc, Option.getD_some, treeOf_textContent]
    cases item with
    | obj ms =>
      obtain rfl := Tree.obj.inj hitem
      exact ⟨fun hu => htext none ms rfl rfl (readType_of_untyped hu),
        fun t ht => htext (some t) ms rfl rfl (readType_of_tree ht)⟩
    | _ => cases hitem
  · intro m role xs hitem hmessage hcontent huntyped
    cases item with
    | obj ms =>
      obtain rfl := Tree.obj.inj hitem
      obtain ⟨a, ha, hread⟩ := message_of_tree hrange hmessage (readType_of_untyped huntyped)
      rw [get_treeOf] at hcontent
      have hnone := asText_eq_none hcontent
      obtain ⟨t, ht, hc, hr, hty, hrest⟩ :=
        treeOf_marshalJSON ha (get contentKey (ofList (rawMembers ms))) role typeMessage
      refine ⟨t, ?_, keepsOthers_of_get hmessage.1 hr hrest, ?_, hty⟩
      · simp only [normalizeResponseInputItem, hread, hnone, if_true]
        exact ht
      · obtain ⟨raw, hraw, htree⟩ := Option.map_eq_some_iff.mp hcontent
        rw [hc, hraw, Option.getD_some, htree]
    | _ => cases hitem

/-! ## The request -/

def modelKey : Text := "model".toList
def streamKey : Text := "stream".toList

def requestFields : List (StructField ResponseCreateRequest) :=
  [⟨"input".toList, fun v a =>
      (decodePtr (fun j _ => some j) .null v a.input).map fun x => { a with input := x }⟩,
    ⟨"model".toList, fun v a => (decodeString v a.model).map fun x => { a with model := x }⟩,
    ⟨"stream".toList, fun v a =>
      (decodePtr decodeBool false v a.stream).map fun x => { a with stream := x }⟩]

theorem requestFields_nodup : (requestFields.map StructField.name).Nodup := by decide

def notNull : Json → Option Json
  | .null => none
  | j => some j

/-- The input that is read: null counts as none. -/
def readInput (object : Entries Json) : Option Json := (get inputKey object).bind notNull

def readModel (object : Entries Json) : Option Text :=
  ((get modelKey object).map fun raw => decodeString raw []).getD (some [])

def readStream (object : Entries Json) : Option (Option Bool) :=
  ((get streamKey object).map fun raw => decodePtr decodeBool false raw none).getD (some none)

theorem setFields_request (object : Entries Json) : setFields requestFields object {} =
    (readModel object).bind fun model => (readStream object).map fun stream =>
      { input := readInput object, model := model, stream := stream } := by
  unfold setFields requestFields readInput readModel readStream
  have hi : get "input".toList object = get inputKey object := rfl
  have hm : get "model".toList object = get modelKey object := rfl
  have hs : get "stream".toList object = get streamKey object := rfl
  simp only [List.foldlM_cons, List.foldlM_nil, hi, hm, hs]
  have hinput : ∀ raw cur, decodePtr (fun j _ => some j) .null raw cur = some (notNull raw) := by
    intro raw cur
    cases raw <;> rfl
  cases get inputKey object <;> cases get modelKey object <;> cases get streamKey object <;>
    simp [hinput, Option.map_eq_bind, Option.bind_assoc]

/-- What a request is read from. -/
structure ReadsRequest (object : Entries Json) (r : ResponseCreateRequest) : Prop where
  input : r.input = readInput object
  model : readModel object = some r.model
  stream : readStream object = some r.stream
  additional : decodeAdditional (undeclared requestFields object) = some r.additionalProperties

theorem unmarshal_request_iff (j : Json) (r : ResponseCreateRequest) :
    ResponseCreateRequest.unmarshalJSON j {} = some r ↔
      ∃ object, decodeRawMap j = some object ∧ ReadsRequest object r := by
  have hempty : ∀ object (s : ResponseCreateRequest), setFields requestFields object {} = some s →
      { s with additionalProperties := [] } = s := by
    intro object s hs
    rw [setFields_request] at hs
    obtain ⟨model, -, hs⟩ := Option.bind_eq_some_iff.mp hs
    obtain ⟨stream, -, rfl⟩ := Option.map_eq_some_iff.mp hs
    rfl
  have hiff := decodeObject_iff requestFields_nodup (fun m a => { a with additionalProperties := m }) hempty j r
  constructor
  · intro h
    obtain ⟨object, s, m, hobject, hs, hm, rfl⟩ := hiff.mp h
    rw [setFields_request] at hs
    obtain ⟨model, hmodel, hs⟩ := Option.bind_eq_some_iff.mp hs
    obtain ⟨stream, hstream, rfl⟩ := Option.map_eq_some_iff.mp hs
    exact ⟨object, hobject, rfl, hmodel, hstream, hm⟩
  · rintro ⟨object, hobject, hinput, hmodel, hstream, hm⟩
    refine hiff.mpr ⟨object, { r with additionalProperties := [] }, _, hobject, ?_, hm, rfl⟩
    rw [setFields_request, hmodel, hstream, ← hinput]
    rfl

/-- The request with its items normalized. -/
def withItems (r : ResponseCreateRequest) (items : List Json) : ResponseCreateRequest :=
  { r with input := some (.arr (compactItems (items.map fun item => (normalizeResponseInputItem item).1))) }

/-- Some item is not sent as it came. -/
def changes (items : List Json) : Bool := items.any fun item => (normalizeResponseInputItem item).2

/-- What the adapter does with a body that is read as a request. -/
theorem adapt_eq {body : Bytes} {r : ResponseCreateRequest}
    (h : unmarshal (ResponseCreateRequest.unmarshalJSON · {}) body = some r) :
    adaptResponsesRequestBody body = some (match r.input with
      | some (.arr items) => if changes items then print (withItems r items).marshalJSON else body
      | _ => body) := by
  unfold adaptResponsesRequestBody
  simp only [h]
  cases hi : r.input with
  | none => rfl
  | some input =>
    cases input with
    | arr items =>
      simp only [Option.bind_some, decodeRawSlice, List.any_map, List.map_map]
      split <;> simp_all [changes, withItems, Function.comp_def]
    | null => rfl
    | _ => rfl

theorem treeOfItems_eq (xs : List Json) : treeOfItems xs = xs.map treeOf := by
  induction xs with
  | nil => rfl
  | cons x xs ih => rw [treeOfItems, ih, List.map_cons]

/-- The declared fields of a request, as they are written. -/
theorem get_requestWritten (r : ResponseCreateRequest) (k : Text) :
    get k (ofList (omitNil inputKey compact r.input ++ [(modelKey, encodeString r.model)] ++
      omitNil streamKey Json.bool r.stream)) =
      if k = streamKey then r.stream.map Json.bool
      else if k = modelKey then some (encodeString r.model)
      else if k = inputKey then r.input.map compact else none := by
  have hmodel : streamKey ≠ modelKey := by decide
  have hinput : streamKey ≠ inputKey := by decide
  have hinput' : modelKey ≠ inputKey := by decide
  rw [get_ofList_append, get_ofList_append, get_ofList_omitNil, get_ofList_omitNil, get_ofList_one]
  by_cases h₁ : k = streamKey
  · subst h₁
    simp [hmodel, hinput]
  · by_cases h₂ : k = modelKey
    · subst h₂
      simp [hmodel.symm]
    · simp [h₁, h₂]

/-- The input of the body that is sent. -/
theorem input_withItems {r : ResponseCreateRequest} {object : Entries Json} (hs : Sorted object)
    (h : ReadsRequest object r) (items : List Json) :
    ∃ m', treeOf (withItems r items).marshalJSON = .obj m' ∧
      get inputKey m' = some (.arr (items.map fun item => treeOf (normalizeResponseInputItem item).1)) := by
  have hsorted := decodeAdditional_sorted (undeclared_sorted requestFields hs) h.additional
  have hnone : get inputKey r.additionalProperties = none := get_additional_none h.additional (by decide)
  obtain ⟨m', hm', hget⟩ := treeOf_encodeObject (omitNil inputKey compact (withItems r items).input ++
    [(modelKey, encodeString r.model)] ++ omitNil streamKey Json.bool r.stream) hsorted
  refine ⟨m', hm', ?_⟩
  have htree : treeOf (compact (.arr (compactItems (items.map fun item => (normalizeResponseInputItem item).1)))) =
      .arr (items.map fun item => treeOf (normalizeResponseInputItem item).1) := by
    rw [treeOf_compact, treeOf, treeOfItems_compactItems, treeOfItems_eq, List.map_map]
    rfl
  have hwritten := get_requestWritten (withItems r items) inputKey
  rw [if_neg (by decide), if_neg (by decide), if_pos rfl] at hwritten
  rw [hget, hnone, Option.map_none, Option.none_or, ← htree]
  exact congrArg (Option.map treeOf) hwritten

theorem normalize_unchanged {item : Json} (h : (normalizeResponseInputItem item).2 = false) :
    (normalizeResponseInputItem item).1 = item := by
  unfold normalizeResponseInputItem at h ⊢
  split
  · rfl
  · rename_i message hm
    simp only [hm] at h ⊢
    split
    · rename_i text ht
      simp [ht] at h
    · rename_i ht
      simp only [ht] at h
      split
      · rename_i htype
        simp [htype] at h
      · rfl

/-- The numbers of the body are in the range of floats. -/
def NumbersInRange (body : Bytes) : Prop := ∃ j, parse body = some j ∧ InRange j

/-- What the adapter sends for an object: the items normalized one by one, and the body
itself where nothing is to be done. -/
theorem adaptResponsesRequestBody_normalizes {body sent : Bytes} {m : Entries Tree} (hm : membersOf body = some m)
    (hrange : NumbersInRange body) (h : adaptResponsesRequestBody body = some sent) : Normalizes m body sent := by
  cases hr : unmarshal (ResponseCreateRequest.unmarshalJSON · {}) body with
  | none => simp [adaptResponsesRequestBody, hr] at h
  | some r =>
    obtain ⟨j, hj, hread⟩ := Option.bind_eq_some_iff.mp hr
    obtain ⟨object, hobject, hreads⟩ := (unmarshal_request_iff j r).mp hread
    have hparse : parse body = some j := parse_of_checkValid hj
    obtain ⟨j', hj', hin⟩ := hrange
    obtain rfl := Option.some.inj (hparse.symm.trans hj')
    rw [adapt_eq hr, Option.some.injEq] at h
    cases j with
    | obj ms =>
      obtain rfl := Option.some.inj hobject
      rw [membersOf_of_parse hparse] at hm
      obtain rfl := Option.some.inj hm
      have hinput : ∀ xs, get inputKey (ofList (treeOfMembers ms)) = some (.arr xs) →
          ∃ items, get inputKey (ofList (rawMembers ms)) = some (.arr items) ∧ xs = items.map treeOf := by
        intro xs hxs
        rw [get_treeOf] at hxs
        obtain ⟨raw, hraw, htree⟩ := Option.map_eq_some_iff.mp hxs
        cases raw with
        | arr items =>
          refine ⟨items, hraw, ?_⟩
          rw [treeOf, treeOfItems_eq] at htree
          exact (Tree.arr.inj htree).symm
        | _ => simp [treeOf] at htree
      have hitems : ∀ {items}, r.input = some (.arr items) →
          get inputKey (ofList (rawMembers ms)) = some (.arr items) := by
        intro items hi
        rw [hreads.input, readInput] at hi
        obtain ⟨raw, hraw, hn⟩ := Option.bind_eq_some_iff.mp hi
        cases raw with
        | arr xs =>
          cases hn
          exact hraw
        | _ => simp [notNull] at hn
      constructor
      · intro xs hxs
        obtain ⟨items, hraw, rfl⟩ := hinput xs hxs
        have hri : r.input = some (.arr items) := by
          rw [hreads.input, readInput, hraw]
          rfl
        have hranges : ∀ item ∈ items, InRange item :=
          inRange_item (inRange_member hin _ (mem_ofList (mem_of_get hraw)))
        have hall : List.Forall₂ Normalized (items.map treeOf)
            (items.map fun item => treeOf (normalizeResponseInputItem item).1) := by
          rw [List.forall₂_map_left_iff, List.forall₂_map_right_iff, List.forall₂_same]
          exact fun item hi => normalized_item (hranges item hi)
        simp only [hri] at h
        split at h
        · obtain ⟨m', hm', hget⟩ := input_withItems (ofList_sorted _) hreads items
          have hmembers : membersOf (print (withItems r items).marshalJSON) = some m' := membersOf_print hm'
          exact ⟨m', _, h ▸ hmembers, hget, hall⟩
        · rename_i hchanges
          have hsame : (items.map fun item => treeOf (normalizeResponseInputItem item).1) = items.map treeOf := by
            apply List.map_congr_left
            intro item hi
            have hno : changes items = false := by simpa using hchanges
            have hitem := List.any_eq_false.mp hno item hi
            rw [normalize_unchanged (by simpa using hitem)]
          rw [hsame] at hall
          exact ⟨_, _, h ▸ membersOf_of_parse hparse, hxs, hall⟩
      · intro huntouched
        split at h
        · rename_i items hri
          have hraw := hitems hri
          have hxs : get inputKey (ofList (treeOfMembers ms)) = some (.arr (items.map treeOf)) := by
            rw [get_treeOf, hraw, Option.map_some, treeOf, treeOfItems_eq]
          have hno : changes items = false := by
            apply List.any_eq_false.mpr
            intro item hi
            rw [normalize_untouched (huntouched _ hxs _ (List.mem_map_of_mem hi))]
            simp
          rw [hno] at h
          exact h.symm
        · exact h.symm
    | _ => simp [membersOf, hparse, treeOf] at hm

/-- A request with one item. -/
def itemBody (item : Json) : Bytes := print (.obj [(quote inputKey, .arr [item])])

def userItem : Json :=
  .obj [(quote roleKey, .str (quote roleUser)), (quote contentKey, .str (quote "hi".toList))]

theorem adaptResponsesRequestBody_normalizes_userItem : ∃ m sent, membersOf (itemBody userItem) = some m ∧
    adaptResponsesRequestBody (itemBody userItem) = some sent ∧ Normalizes m (itemBody userItem) sent := by
  have hm : ∃ m, membersOf (itemBody userItem) = some m := ⟨_, membersOf_of_parse (parse_print _)⟩
  have hsent : (adaptResponsesRequestBody (itemBody userItem)).isSome = true := by decide +kernel
  have hrange : NumbersInRange (itemBody userItem) :=
    ⟨_, parse_print _, ⟨⟨⟨trivial, trivial, trivial⟩, trivial⟩, trivial⟩⟩
  obtain ⟨m, hm⟩ := hm
  obtain ⟨sent, hsent⟩ := Option.isSome_iff_exists.mp hsent
  exact ⟨m, sent, hm, hsent, adaptResponsesRequestBody_normalizes hm hrange hsent⟩

end RequestItems
