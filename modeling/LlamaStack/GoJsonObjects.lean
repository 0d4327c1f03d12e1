import LlamaStack.GoJsonTree

/-!
# Objects that are written and read again

Types with declared fields and additional properties: what their decoding takes
from a map of raw messages, and what it makes of an object that was encoded or
compacted before.
-/
namespace GoJson

open GoBytes GoMap

set_option maxRecDepth 4000

variable {σ : Type}

/-! ## Compacted texts -/

mutual
/-- A compacted text has the same value. -/
@[simp] theorem decodeValue_compact : ∀ j : Json, decodeValue (compact j) = decodeValue j
  | .null => rfl
  | .bool _ => rfl
  | .num _ => rfl
  | .str s => by simp [compact, decodeValue]
  | .arr xs => by
    have h := decodeItems_compact xs
    simp [compact, decodeValue, h]
  | .obj ms => by
    have h := decodeMembers_compact ms
    simp [compact, decodeValue, h]
theorem decodeItems_compact : ∀ xs : List Json, decodeItems (compactItems xs) = decodeItems xs
  | [] => rfl
  | x :: xs => by
    have hx := decodeValue_compact x
    have hxs := decodeItems_compact xs
    simp [compactItems, decodeItems, hx, hxs]
theorem decodeMembers_compact : ∀ ms : List (Lexeme × Json), decodeMembers (compactMembers ms) = decodeMembers ms
  | [] => rfl
  | (k, x) :: ms => by
    have hx := decodeValue_compact x
    have hms := decodeMembers_compact ms
    simp [compactMembers, decodeMembers, hx, hms]
end

mutual
@[simp] theorem depth_compact : ∀ j : Json, depth (compact j) = depth j
  | .null => rfl
  | .bool _ => rfl
  | .num _ => rfl
  | .str _ => rfl
  | .arr xs => by rw [compact, depth, depth, depthItems_compact xs]
  | .obj ms => by rw [compact, depth, depth, depthMembers_compact ms]
theorem depthItems_compact : ∀ xs : List Json, depthItems (compactItems xs) = depthItems xs
  | [] => rfl
  | x :: xs => by rw [compactItems, depthItems, depthItems, depth_compact x, depthItems_compact xs]
theorem depthMembers_compact : ∀ ms : List (Lexeme × Json), depthMembers (compactMembers ms) = depthMembers ms
  | [] => rfl
  | (k, x) :: ms => by
    rw [compactMembers, depthMembers, depthMembers, depth_compact x, depthMembers_compact ms]
end

theorem depthItems_le {xs : List Json} {d : Nat} : depthItems xs ≤ d ↔ ∀ x ∈ xs, depth x ≤ d := by
  induction xs with
  | nil => simp [depthItems]
  | cons x xs ih => simp [depthItems, ih]

theorem depthMembers_le {ms : List (Lexeme × Json)} {d : Nat} : depthMembers ms ≤ d ↔ ∀ e ∈ ms, depth e.2 ≤ d := by
  induction ms with
  | nil => simp [depthMembers]
  | cons e ms ih =>
    obtain ⟨k, x⟩ := e
    simp [depthMembers, ih]

theorem depth_encodeItems {xs : List Value} {d : Nat} (h : ∀ x ∈ xs, depth (encodeValue x) ≤ d) :
    depthItems (encodeItems xs) ≤ d := by
  induction xs with
  | nil => exact Nat.zero_le _
  | cons x xs ih =>
    rw [encodeItems, depthItems]
    exact max_le (h x (by simp)) (ih fun y hy => h y (by simp [hy]))

theorem depth_encodeMembers {m : List (Text × Value)} {d : Nat} (h : ∀ e ∈ m, depth (encodeValue e.2) ≤ d) :
    depthMembers (encodeMembers m) ≤ d := by
  induction m with
  | nil => exact Nat.zero_le _
  | cons e m ih =>
    rw [encodeMembers, depthMembers]
    exact max_le (h e (by simp)) (ih fun y hy => h y (by simp [hy]))

mutual
/-- A value is nested no deeper than the text it was read from. -/
theorem depth_encodeValue : ∀ (j : Json) (v : Value), decodeValue j = some v → depth (encodeValue v) ≤ depth j
  | .null, _, rfl => le_rfl
  | .bool _, _, rfl => le_rfl
  | .num n, v, h => by
    obtain ⟨x, -, rfl⟩ := Option.map_eq_some_iff.mp h
    exact le_rfl
  | .str _, _, rfl => le_rfl
  | .arr xs, v, h => by
    obtain ⟨vs, hvs, rfl⟩ := Option.map_eq_some_iff.mp h
    exact Nat.succ_le_succ (depth_encodeItems (depth_decodeItems xs vs hvs))
  | .obj ms, v, h => by
    obtain ⟨es, hes, rfl⟩ := Option.map_eq_some_iff.mp h
    exact Nat.succ_le_succ (depth_encodeMembers fun e he => depth_decodeMembers ms es hes e (mem_ofList he))
theorem depth_decodeItems : ∀ (xs : List Json) (vs : List Value), decodeItems xs = some vs →
    ∀ v ∈ vs, depth (encodeValue v) ≤ depthItems xs
  | [], vs, h => by
    cases h
    simp
  | x :: xs, vs, h => by
    obtain ⟨v, hv, h⟩ := Option.bind_eq_some_iff.mp h
    obtain ⟨us, hus, rfl⟩ := Option.map_eq_some_iff.mp h
    intro w hw
    rw [depthItems]
    cases List.mem_cons.mp hw with
    | inl hw => exact hw ▸ (depth_encodeValue x v hv).trans (le_max_left _ _)
    | inr hw => exact (depth_decodeItems xs us hus w hw).trans (le_max_right _ _)
theorem depth_decodeMembers : ∀ (ms : List (Lexeme × Json)) (es : List (Text × Value)),
    decodeMembers ms = some es → ∀ e ∈ es, depth (encodeValue e.2) ≤ depthMembers ms
  | [], es, h => by
    cases h
    simp
  | (k, x) :: ms, es, h => by
    obtain ⟨v, hv, h⟩ := Option.bind_eq_some_iff.mp h
    obtain ⟨us, hus, rfl⟩ := Option.map_eq_some_iff.mp h
    intro w hw
    rw [depthMembers]
    cases List.mem_cons.mp hw with
    | inl hw => exact hw ▸ (depth_encodeValue x v hv).trans (le_max_left _ _)
    | inr hw => exact (depth_decodeMembers ms us hus w hw).trans (le_max_right _ _)
end

/-! ## Declared fields -/

/-- The declared fields, each from the member of its name. -/
def setFields (fields : List (StructField σ)) (object : Entries Json) (s : σ) : Option σ :=
  fields.foldlM (fun s f => ((get f.name object).map fun raw => f.set raw s).getD (some s)) s

/-- The members that no field declares. -/
def undeclared (fields : List (StructField σ)) (object : Entries Json) : Entries Json :=
  object.filter fun e => !(fields.map StructField.name).contains e.1

theorem delete_of_get_none {β : Type} {k : Text} {m : Entries β} (h : get k m = none) : delete k m = m := by
  induction m with
  | nil => rfl
  | cons e m ih =>
    by_cases hk : k = e.1
    · simp [GoMap.get, hk] at h
    · have hm : get k m = none := by simpa [GoMap.get, hk] using h
      have he : ¬ e.1 = k := fun h => hk h.symm
      rw [delete, List.filter_cons_of_pos (by simpa using he)]
      exact congrArg _ (ih hm)

theorem setFields_congr {fields : List (StructField σ)} {object object' : Entries Json}
    (h : ∀ f ∈ fields, get f.name object = get f.name object') (s : σ) :
    setFields fields object s = setFields fields object' s := by
  unfold setFields
  induction fields generalizing s with
  | nil => rfl
  | cons f fields ih =>
    rw [List.foldlM_cons, List.foldlM_cons, h f (by simp)]
    congr 1
    funext s'
    exact ih (fun g hg => h g (by simp [hg])) s'

/-- One field: read from its member, or left as it is. -/
theorem setFields_cons {β : Type} {f : StructField σ} {s : σ} (dec : Json → Option β) (x₀ : β) (upd : β → σ)
    (hset : ∀ raw, f.set raw s = (dec raw).map upd) (hs : upd x₀ = s) (fields : List (StructField σ))
    (object : Entries Json) : setFields (f :: fields) object s =
      (((get f.name object).map dec).getD (some x₀)).bind fun x => setFields fields object (upd x) := by
  rw [setFields, List.foldlM_cons]
  cases get f.name object with
  | none => exact hs ▸ rfl
  | some raw =>
    rw [Option.map_some, Option.map_some, Option.getD_some, Option.getD_some, hset]
    cases dec raw <;> rfl

theorem takeFields_eq {fields : List (StructField σ)} (h : (fields.map StructField.name).Nodup)
    (object : Entries Json) (s : σ) : fields.foldlM (fun p f => takeField f p) (object, s) =
      (setFields fields object s).map fun s' => (undeclared fields object, s') := by
  induction fields generalizing object s with
  | nil => simp [setFields, undeclared]
  | cons f fields ih =>
    rw [List.map_cons, List.nodup_cons] at h
    have hdelete : undeclared fields (delete f.name object) = undeclared (f :: fields) object := by
      rw [undeclared, delete, List.filter_filter]
      unfold undeclared
      congr 1
      funext e
      by_cases he : e.1 = f.name <;> simp [he]
    have hset : ∀ s', setFields fields (delete f.name object) s' = setFields fields object s' := by
      intro s'
      apply setFields_congr
      intro g hg
      apply get_delete_ne
      intro he
      exact h.1 (he ▸ List.mem_map_of_mem hg)
    rw [List.foldlM_cons, takeField, setFields, List.foldlM_cons]
    cases hg : get f.name object with
    | none =>
      rw [delete_of_get_none hg] at hdelete hset
      have hrest := ih h.2 object s
      rw [hdelete] at hrest
      exact hrest
    | some raw =>
      cases hs : f.set raw s with
      | none => simp [hs]
      | some s' =>
        have hrest := ih h.2 (delete f.name object) s'
        rw [hdelete, hset] at hrest
        simpa [hs, setFields] using hrest

/-- The decoding of an object, field by field. -/
theorem decodeObject_eq {fields : List (StructField σ)} (h : (fields.map StructField.name).Nodup)
    (additional : Entries Value → σ → σ) (j : Json) (s : σ) :
    decodeObject fields additional j s = (decodeRawMap j).bind fun object =>
      (setFields fields object s).bind fun s' =>
        if (undeclared fields object).isEmpty then some s'
        else (decodeAdditional (undeclared fields object)).map fun m => additional m s' := by
  unfold decodeObject
  congr 1
  funext object
  rw [takeFields_eq h]
  cases setFields fields object s <;> rfl

/-- What a decoded object is, where no additional properties leave it as it is. -/
theorem decodeObject_iff {fields : List (StructField σ)} (h : (fields.map StructField.name).Nodup)
    (additional : Entries Value → σ → σ) {s : σ}
    (hempty : ∀ object s', setFields fields object s = some s' → additional [] s' = s') (j : Json) (a : σ) :
    decodeObject fields additional j s = some a ↔ ∃ object s' m, decodeRawMap j = some object ∧
      setFields fields object s = some s' ∧ decodeAdditional (undeclared fields object) = some m ∧
        a = additional m s' := by
  rw [decodeObject_eq h]
  cases decodeRawMap j with
  | none => simp
  | some object =>
    have hrest : (undeclared fields object).isEmpty = true →
        decodeAdditional (undeclared fields object) = some [] := by
      intro he
      rw [List.isEmpty_iff.mp he]
      rfl
    rw [Option.bind_some]
    constructor
    · intro h
      obtain ⟨s', hs, h⟩ := Option.bind_eq_some_iff.mp h
      split at h
      · rename_i he
        cases h
        exact ⟨object, _, [], rfl, hs, hrest he, (hempty _ _ hs).symm⟩
      · obtain ⟨m, hm, rfl⟩ := Option.map_eq_some_iff.mp h
        exact ⟨object, s', m, rfl, hs, hm, rfl⟩
    · rintro ⟨object', s', m, hobject, hs, hm, rfl⟩
      obtain rfl := Option.some.inj hobject
      rw [hs, Option.bind_some]
      split
      · rename_i he
        rw [hrest he] at hm
        obtain rfl := Option.some.inj hm
        rw [hempty _ _ hs]
      · rw [hm, Option.map_some]

/-- A decoded object up to its additional properties. -/
theorem setFields_of_decodeObject {fields : List (StructField σ)} (h : (fields.map StructField.name).Nodup)
    {additional : Entries Value → σ → σ} {j : Json} {s a : σ} (ha : decodeObject fields additional j s = some a) :
    ∃ object s', decodeRawMap j = some object ∧ setFields fields object s = some s' ∧
      (a = s' ∨ ∃ m, a = additional m s') := by
  rw [decodeObject_eq h] at ha
  obtain ⟨object, hobject, ha⟩ := Option.bind_eq_some_iff.mp ha
  obtain ⟨s', hs, ha⟩ := Option.bind_eq_some_iff.mp ha
  refine ⟨object, s', hobject, hs, ?_⟩
  split at ha
  · cases ha
    exact .inl rfl
  · obtain ⟨m, -, rfl⟩ := Option.map_eq_some_iff.mp ha
    exact .inr ⟨m, rfl⟩

theorem decodeObject_of_setFields {fields : List (StructField σ)} (h : (fields.map StructField.name).Nodup)
    {additional : Entries Value → σ → σ} {j : Json} {object : Entries Json} (hobject : decodeRawMap j = some object)
    {s s' : σ} (hs : setFields fields object s = some s') (hvalues : ∀ e ∈ object, ∃ v, decodeValue e.2 = some v) :
    ∃ a, decodeObject fields additional j s = some a ∧ (a = s' ∨ ∃ m, a = additional m s') := by
  have hrest : ∃ m, decodeAdditional (undeclared fields object) = some m :=
    decodeAdditional_isSome fun e he => hvalues e (List.mem_filter.mp he).1
  obtain ⟨m, hm⟩ := hrest
  rw [decodeObject_eq h, hobject, Option.bind_some, hs, Option.bind_some]
  split
  · exact ⟨s', rfl, .inl rfl⟩
  · rw [hm, Option.map_some]
    exact ⟨_, rfl, .inr ⟨m, rfl⟩⟩

theorem get_undeclared (fields : List (StructField σ)) (object : Entries Json) (k : Text) :
    get k (undeclared fields object) = if k ∈ fields.map StructField.name then none else get k object := by
  induction object with
  | nil => simp [undeclared]
  | cons e object ih =>
    unfold undeclared at ih ⊢
    by_cases he : e.1 ∈ fields.map StructField.name
    · rw [List.filter_cons_of_neg (by simpa using he), ih]
      by_cases hk : k ∈ fields.map StructField.name
      · rw [if_pos hk, if_pos hk]
      · have hne : ¬ k = e.1 := fun h => hk (h ▸ he)
        simp [GoMap.get, hne]
    · rw [List.filter_cons_of_pos (by simpa using he), GoMap.get, GoMap.get, ih]
      by_cases hk : k = e.1
      · rw [if_pos hk, if_pos hk, if_neg (hk ▸ he)]
      · rw [if_neg hk, if_neg hk]

theorem undeclared_sorted (fields : List (StructField σ)) {object : Entries Json} (h : Sorted object) :
    Sorted (undeclared fields object) := h.filter _

/-! ## Encoded objects -/

/-- The members of an encoded object. -/
def objectOf (fields : List (Text × Json)) (m : Entries Value) : Entries Json :=
  m.foldl (fun o e => store e.1 (encodeValue e.2) o) (ofList fields)

theorem objectOf_sorted (fields : List (Text × Json)) (m : Entries Value) : Sorted (objectOf fields m) :=
  storeAdditional_sorted m (ofList_sorted fields)

theorem get_objectOf (fields : List (Text × Json)) {m : Entries Value} (hm : Sorted m) (k : Text) :
    get k (objectOf fields m) = ((get k m).map encodeValue).or (get k (ofList fields)) :=
  get_storeAdditional hm _ k

theorem mem_objectOf {fields : List (Text × Json)} {m : Entries Value} {e : Text × Json}
    (h : e ∈ objectOf fields m) : e ∈ fields ∨ ∃ e' ∈ m, e.2 = encodeValue e'.2 := by
  unfold objectOf at h
  induction m using List.reverseRecOn with
  | nil => exact .inl (mem_ofList h)
  | append_singleton m e' ih =>
    rw [List.foldl_append] at h
    cases mem_store h with
    | inl h => exact .inr ⟨e', by simp, congrArg Prod.snd h⟩
    | inr h =>
      cases ih h with
      | inl h => exact .inl h
      | inr h =>
        obtain ⟨e'', he, heq⟩ := h
        exact .inr ⟨e'', by simp [he], heq⟩

/-- Members that are written when they are there. -/
def writtenMembers (es : List (Text × Option Json)) : List (Text × Json) :=
  es.filterMap fun e => e.2.map fun x => (e.1, x)

theorem writtenMembers_append (es es' : List (Text × Option Json)) :
    writtenMembers (es ++ es') = writtenMembers es ++ writtenMembers es' := List.filterMap_append

theorem omitNil_eq {α : Type} (name : Text) (enc : α → Json) (x : Option α) :
    omitNil name enc x = writtenMembers [(name, x.map enc)] := by
  cases x <;> rfl

theorem mem_of_writtenMembers {es : List (Text × Option Json)} {e : Text × Json} (h : e ∈ writtenMembers es) :
    (e.1, some e.2) ∈ es := by
  obtain ⟨e', he', hx⟩ := List.mem_filterMap.mp h
  obtain ⟨x, hx', rfl⟩ := Option.map_eq_some_iff.mp hx
  rw [← hx']
  exact he'

theorem get_writtenMembers_none {es : List (Text × Option Json)} {k : Text} (h : k ∉ es.map Prod.fst) :
    get k (ofList (writtenMembers es)) = none := by
  cases hg : get k (ofList (writtenMembers es)) with
  | none => rfl
  | some x => exact absurd (List.mem_map.mpr ⟨_, mem_of_writtenMembers (mem_ofList (mem_of_get hg)), rfl⟩) h

theorem get_writtenMembers {es : List (Text × Option Json)} (h : (es.map Prod.fst).Nodup) :
    ∀ e ∈ es, get e.1 (ofList (writtenMembers es)) = e.2 := by
  induction es with
  | nil => simp
  | cons e es ih =>
    rw [List.map_cons, List.nodup_cons] at h
    have hone : get e.1 (ofList (writtenMembers [e])) = e.2 := by
      obtain ⟨name, x⟩ := e
      cases x with
      | none => rfl
      | some x => simp [writtenMembers, get_ofList_one]
    intro e' he'
    rw [← List.singleton_append, writtenMembers_append, get_ofList_append]
    cases List.mem_cons.mp he' with
    | inl he' => rw [he', get_writtenMembers_none h.1, hone, Option.none_or]
    | inr he' =>
      have hne : e'.1 ∉ [e].map Prod.fst := by
        rw [List.map_singleton, List.mem_singleton]
        intro heq
        exact h.1 (heq ▸ List.mem_map_of_mem he')
      rw [ih h.2 e' he', get_writtenMembers_none hne, Option.or_none]

theorem decodeRawMap_encodeRawMap {o : Entries Json} (h : Sorted o) :
    decodeRawMap (encodeRawMap o) = some (mapValues compact o) := by
  have hraw : rawMembers (o.map fun e => (quote e.1, compact e.2)) = mapValues compact o := by
    simp [rawMembers, mapValues]
  rw [encodeRawMap, decodeRawMap, hraw, ofList_of_sorted (mapValues_sorted _ h)]

theorem depth_encodeObject {fields : List (Text × Json)} {m : Entries Value} {d : Nat}
    (hfields : ∀ e ∈ fields, depth e.2 ≤ d) (hm : ∀ e ∈ m, depth (encodeValue e.2) ≤ d) :
    depth (encodeObject fields m) ≤ d + 1 := by
  have hmembers : depth (encodeRawMap (objectOf fields m)) ≤ d + 1 := by
    rw [encodeRawMap, depth, Nat.succ_le_succ_iff, depthMembers_le]
    intro e he
    obtain ⟨e', he', rfl⟩ := List.mem_map.mp he
    rw [depth_compact]
    cases mem_objectOf he' with
    | inl h => exact hfields e' h
    | inr h =>
      obtain ⟨e'', h, heq⟩ := h
      exact heq ▸ hm e'' h
  exact hmembers

/-- The values of the additional properties come from the members. -/
theorem mem_decodeAdditional {object : Entries Json} {m : Entries Value} (h : decodeAdditional object = some m) :
    ∀ e ∈ m, ∃ e' ∈ object, decodeValue e'.2 = some e.2 := by
  induction object generalizing m with
  | nil =>
    cases h
    simp
  | cons e object ih =>
    unfold decodeAdditional at ih h
    rw [List.mapM_cons] at h
    obtain ⟨e', he, h⟩ := Option.bind_eq_some_iff.mp h
    obtain ⟨v, hv, rfl⟩ := Option.map_eq_some_iff.mp he
    obtain ⟨m', hm', h⟩ := Option.bind_eq_some_iff.mp h
    cases h
    intro x hx
    cases List.mem_cons.mp hx with
    | inl hx => exact ⟨e, by simp, hx ▸ hv⟩
    | inr hx =>
      obtain ⟨y, hy, hxy⟩ := ih hm' x hx
      exact ⟨y, by simp [hy], hxy⟩

theorem decodeAdditional_read {object : Entries Json} (hs : Sorted object) {m : Entries Value}
    (h : decodeAdditional object = some m) : Read (.obj m) := by
  apply read_obj (decodeAdditional_sorted hs h)
  intro e he
  obtain ⟨e', -, hv⟩ := mem_decodeAdditional h e he
  exact decodeValue_canonical e'.2 e.2 hv

theorem depth_decodeAdditional {object : Entries Json} {d : Nat} (hd : ∀ e ∈ object, depth e.2 ≤ d)
    {m : Entries Value} (h : decodeAdditional object = some m) : ∀ e ∈ m, depth (encodeValue e.2) ≤ d := by
  intro e he
  obtain ⟨e', he', hv⟩ := mem_decodeAdditional h e he
  exact (depth_encodeValue e'.2 e.2 hv).trans (hd e' he')

theorem depth_rawMembers {ms : List (Lexeme × Json)} {d : Nat} (h : depthMembers ms ≤ d) :
    ∀ e ∈ ofList (rawMembers ms), depth e.2 ≤ d := by
  intro e he
  obtain ⟨e', he', rfl⟩ := List.mem_map.mp (mem_ofList he)
  exact depthMembers_le.mp h e' he'

theorem decodeAdditional_encode {m : Entries Value} (h : ∀ e ∈ m, Read e.2) :
    decodeAdditional (mapValues (fun v => compact (encodeValue v)) m) = some m := by
  induction m with
  | nil => rfl
  | cons e m ih =>
    have he := h e (by simp)
    have hread : decodeValue (compact (encodeValue e.2)) = some e.2 := by
      rw [decodeValue_compact, decodeValue_encodeValue _ he.1, he.2]
    have hrest := ih fun x hx => h x (by simp [hx])
    unfold decodeAdditional at hrest ⊢
    rw [mapValues] at hrest ⊢
    rw [List.map_cons, List.mapM_cons, hread, hrest]
    rfl

/-- An encoded object is read with its declared fields and its additional properties. -/
theorem decodeObject_encodeObject {fields : List (StructField σ)} (hnodup : (fields.map StructField.name).Nodup)
    (additional : Entries Value → σ → σ) {es : List (Text × Json)} (hes : ∀ e ∈ es, e.1 ∈ fields.map StructField.name)
    {m : Entries Value} (hread : Read (.obj m)) (hm : ∀ k ∈ fields.map StructField.name, get k m = none) (s : σ) :
    decodeObject fields additional (encodeObject es m) s =
      (setFields fields (mapValues compact (ofList es)) s).map fun s' => if m.isEmpty then s' else additional m s' := by
  have hsorted : Sorted m := hread.1.1
  have hget : ∀ k, get k (mapValues compact (objectOf es m)) =
      ((get k m).map fun v => compact (encodeValue v)).or (get k (mapValues compact (ofList es))) := by
    intro k
    rw [get_mapValues, get_objectOf _ hsorted, get_mapValues]
    cases get k m <;> rfl
  have hdeclared : ∀ f ∈ fields, get f.name (mapValues compact (objectOf es m)) =
      get f.name (mapValues compact (ofList es)) := by
    intro f hf
    rw [hget, hm f.name (List.mem_map_of_mem hf), Option.map_none, Option.none_or]
  have hnames : ∀ k, k ∉ fields.map StructField.name → get k (ofList es) = none := by
    intro k hk
    cases hg : get k (ofList es) with
    | none => rfl
    | some v => exact absurd (hes _ (mem_ofList (mem_of_get hg))) hk
  have hrest : undeclared fields (mapValues compact (objectOf es m)) =
      mapValues (fun v => compact (encodeValue v)) m := by
    apply ext_get (undeclared_sorted _ (mapValues_sorted _ (objectOf_sorted es m))) (mapValues_sorted _ hsorted)
    intro k
    rw [get_undeclared, hget, get_mapValues, get_mapValues]
    by_cases hk : k ∈ fields.map StructField.name
    · rw [if_pos hk, hm k hk, Option.map_none]
    · rw [if_neg hk, hnames k hk, Option.map_none, Option.or_none]
  have hdecoded := decodeAdditional_encode hread.member
  have hempty : (mapValues (fun v => compact (encodeValue v)) m).isEmpty = m.isEmpty := by
    simp [mapValues]
  have hmap : decodeRawMap (encodeObject es m) = some (mapValues compact (objectOf es m)) :=
    decodeRawMap_encodeRawMap (objectOf_sorted es m)
  rw [decodeObject_eq hnodup, hmap, Option.bind_some, setFields_congr hdeclared, hrest, hdecoded, hempty]
  cases setFields fields (mapValues compact (ofList es)) s with
  | none => rfl
  | some s' => cases hme : m.isEmpty <;> simp

/-- What an encoded struct says. -/
theorem treeOf_encodeObject (fields : List (Text × Json)) {m : Entries Value} (hm : Sorted m) :
    ∃ t, treeOf (encodeObject fields m) = .obj t ∧
      ∀ k, get k t = ((get k m).map fun v => treeOf (encodeValue v)).or ((get k (ofList fields)).map treeOf) := by
  have hsorted := objectOf_sorted fields m
  have htree : treeOf (encodeObject fields m) = .obj (mapValues treeOf (objectOf fields m)) := by
    have hmembers := treeOfMembers_quote (objectOf fields m)
    have hobject : encodeObject fields m = .obj ((objectOf fields m).map fun e => (quote e.1, compact e.2)) := rfl
    rw [hobject, treeOf, hmembers, ofList_of_sorted (mapValues_sorted _ hsorted)]
  refine ⟨_, htree, fun k => ?_⟩
  rw [get_mapValues, get_objectOf _ hm]
  cases get k m <;> rfl

/-- An undeclared member keeps its value, with numbers written anew. -/
theorem get_additional {fields : List (StructField σ)} {ms : List (Lexeme × Json)} {m : Entries Value}
    (h : decodeAdditional (undeclared fields (ofList (rawMembers ms))) = some m) {k : Text}
    (hk : k ∉ fields.map StructField.name) :
    (get k m).map (fun v => treeOf (encodeValue v)) = (get k (ofList (treeOfMembers ms))).map (mapNums recode) := by
  obtain ⟨hvalue, hraw⟩ := (decodeAdditional_spec h).2 k
  rw [get_undeclared, if_neg hk] at hvalue hraw
  rw [hvalue, get_treeOf]
  cases hg : get k (ofList (rawMembers ms)) with
  | none => rfl
  | some raw =>
    obtain ⟨v, hv⟩ := Option.isSome_iff_exists.mp (hraw raw hg)
    simp [hv, treeOf_encodeValue raw v hv]

/-- A declared name is no additional property. -/
theorem get_additional_none {fields : List (StructField σ)} {object : Entries Json} {m : Entries Value}
    (h : decodeAdditional (undeclared fields object) = some m) {k : Text} (hk : k ∈ fields.map StructField.name) :
    get k m = none := by
  rw [((decodeAdditional_spec h).2 k).1, get_undeclared, if_pos hk]
  rfl

/-! ## Encoded structs -/

theorem rawMembers_quote (es : List (Text × Json)) : rawMembers (es.map fun e => (quote e.1, e.2)) = es := by
  simp [rawMembers, Function.comp_def]

theorem decodeRawMap_encodeStruct (es : List (Text × Json)) : decodeRawMap (encodeStruct es) = some (ofList es) := by
  rw [encodeStruct, decodeRawMap, rawMembers_quote]

theorem treeOf_encodeStruct (es : List (Text × Json)) :
    ∃ t, treeOf (encodeStruct es) = .obj t ∧ ∀ k, get k t = (get k (ofList es)).map treeOf := by
  refine ⟨ofList (es.map fun e => (e.1, treeOf e.2)), ?_, fun k => ?_⟩
  · rw [encodeStruct, treeOf, treeOfMembers_eq, rawMembers_quote]
  · rw [← mapValues_ofList, get_mapValues]

theorem depth_encodeStruct {es : List (Text × Json)} {d : Nat} (h : ∀ e ∈ es, depth e.2 ≤ d) :
    depth (encodeStruct es) ≤ d + 1 := by
  rw [encodeStruct, depth, Nat.succ_le_succ_iff, depthMembers_le]
  intro e he
  obtain ⟨e', he', rfl⟩ := List.mem_map.mp he
  exact h e' he'

theorem decodeValue_encodeStruct {es : List (Text × Json)} (h : ∀ e ∈ es, ∃ v, decodeValue e.2 = some v) :
    ∃ v, decodeValue (encodeStruct es) = some v := by
  have hmembers : ∃ vs, decodeMembers (es.map fun e => (quote e.1, e.2)) = some vs := by
    induction es with
    | nil => exact ⟨[], rfl⟩
    | cons e es ih =>
      obtain ⟨v, hv⟩ := h e (by simp)
      obtain ⟨vs, hvs⟩ := ih fun e' he' => h e' (by simp [he'])
      exact ⟨(e.1, v) :: vs, by simp [decodeMembers, hv, hvs]⟩
  obtain ⟨vs, hvs⟩ := hmembers
  exact ⟨.obj (ofList vs), by rw [encodeStruct, decodeValue, hvs, Option.map_some]⟩

theorem decodeValue_encodeInt (i : Int64) : ∃ v, decodeValue (encodeInt i) = some v :=
  ⟨.num (GoFloat64.ofInt64 i), by simp [encodeInt, decodeValue]⟩

/-! ## Compacted objects -/

theorem rawMembers_compact (ms : List (Lexeme × Json)) :
    ofList (rawMembers (compactMembers ms)) = mapValues compact (ofList (rawMembers ms)) := by
  have hmembers : rawMembers (compactMembers ms) = (rawMembers ms).map fun e => (e.1, compact e.2) := by
    induction ms with
    | nil => rfl
    | cons e ms ih =>
      obtain ⟨k, x⟩ := e
      simp only [rawMembers] at ih
      simp [rawMembers, compactMembers, ih]
  rw [hmembers, mapValues_ofList]

theorem decodeRawMap_compact (j : Json) : decodeRawMap (compact j) = (decodeRawMap j).map (mapValues compact) := by
  cases j with
  | obj ms => simp only [compact, decodeRawMap, rawMembers_compact, Option.map_some]
  | null => rfl
  | _ => rfl

theorem decodeAdditional_compact (object : Entries Json) :
    decodeAdditional (mapValues compact object) = decodeAdditional object := by
  induction object with
  | nil => rfl
  | cons e object ih =>
    unfold decodeAdditional at ih ⊢
    rw [mapValues] at ih ⊢
    rw [List.map_cons, List.mapM_cons, List.mapM_cons, ih, decodeValue_compact]

theorem undeclared_mapValues (fields : List (StructField σ)) (f : Json → Json) (object : Entries Json) :
    undeclared fields (mapValues f object) = mapValues f (undeclared fields object) := by
  simp [undeclared, mapValues, List.filter_map, Function.comp_def]

/-- A compacted object is read as the object itself, up to what `g` does to the messages
that are kept. -/
theorem decodeObject_compact {fields : List (StructField σ)} (hnodup : (fields.map StructField.name).Nodup)
    (additional : Entries Value → σ → σ) (g : σ → σ)
    (hset : ∀ f ∈ fields, ∀ raw s, f.set (compact raw) (g s) = (f.set raw s).map g)
    (hadd : ∀ m s, additional m (g s) = g (additional m s)) (j : Json) (s : σ) :
    decodeObject fields additional (compact j) (g s) = (decodeObject fields additional j s).map g := by
  rw [decodeObject_eq hnodup, decodeObject_eq hnodup, decodeRawMap_compact]
  cases decodeRawMap j with
  | none => rfl
  | some object =>
    have hfields : setFields fields (mapValues compact object) (g s) = (setFields fields object s).map g := by
      clear hnodup
      unfold setFields
      induction fields generalizing s with
      | nil => rfl
      | cons f fields ih =>
        have hrest := fun s => ih (fun f' hf' => hset f' (by simp [hf'])) s
        rw [List.foldlM_cons, List.foldlM_cons, get_mapValues]
        cases get f.name object with
        | none => exact hrest s
        | some raw =>
          have hraw := hset f (by simp) raw s
          simp only [Option.map_some, Option.getD_some, hraw]
          cases f.set raw s with
          | none => rfl
          | some s' => exact hrest s'
    simp only [Option.map_some, Option.bind_some, hfields, undeclared_mapValues, decodeAdditional_compact]
    cases setFields fields object s with
    | none => rfl
    | some s' =>
      have hempty : (mapValues compact (undeclared fields object)).isEmpty = (undeclared fields object).isEmpty := by
        simp [mapValues]
      simp only [Option.map_some, Option.bind_some, hempty]
      cases (undeclared fields object).isEmpty with
      | true => rfl
      | false =>
        cases decodeAdditional (undeclared fields object) with
        | none => rfl
        | some m => simp [hadd]

@[simp] theorem decodeString_compact (j : Json) (cur : Text) : decodeString (compact j) cur = decodeString j cur := by
  cases j <;> simp [compact, decodeString]

@[simp] theorem decodeBool_compact (j : Json) (cur : Bool) : decodeBool (compact j) cur = decodeBool j cur := by
  cases j <;> simp [compact, decodeBool]

theorem decodePtr_compact {α : Type} {dec : Json → α → Option α} (h : ∀ j cur, dec (compact j) cur = dec j cur)
    (zero : α) (j : Json) (cur : Option α) : decodePtr dec zero (compact j) cur = decodePtr dec zero j cur := by
  cases j with
  | null => rfl
  | bool b => exact congrArg (Option.map some) (h (.bool b) (cur.getD zero))
  | num n => exact congrArg (Option.map some) (h (.num n) (cur.getD zero))
  | str s => exact congrArg (Option.map some) (h (.str s) (cur.getD zero))
  | arr xs => exact congrArg (Option.map some) (h (.arr xs) (cur.getD zero))
  | obj ms => exact congrArg (Option.map some) (h (.obj ms) (cur.getD zero))

end GoJson
