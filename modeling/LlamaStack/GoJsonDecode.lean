import LlamaStack.GoJsonRoundTrip
import LlamaStack.GoJsonValue

/-!
# Decoding into Go types

`json.Unmarshal` into structs, pointers, strings, integers and raw messages. A
decoder takes what the target holds already, because Go keeps it where the text
says nothing, and yields `none` where `Unmarshal` returns an error; nothing
reads a target that failed to decode.
-/
namespace GoJson

open GoBytes GoMap

variable {σ α : Type}

/-- The syntax check in front of every `Unmarshal`, on the bytes it is given. -/
def unmarshal (dec : Json → Option σ) (src : Bytes) : Option σ := (checkValid src).bind dec

def decodeString : Json → Text → Option Text
  | .str s, _ => some (unquote s)
  | .null, cur => some cur
  | _, _ => none

def decodeBool : Json → Bool → Option Bool
  | .bool b, _ => some b
  | .null, cur => some cur
  | _, _ => none

def decodeInt : Json → Int64 → Option Int64
  | .num n, _ => parseInt n
  | .null, cur => some cur
  | _, _ => none

/-- A pointer: `null` makes it nil, anything else goes to what it points to. -/
def decodePtr (dec : Json → α → Option α) (zero : α) : Json → Option α → Option (Option α)
  | .null, _ => some none
  | j, cur => (dec j (cur.getD zero)).map some

/-- A type with `UnmarshalJSON` on a `json.RawMessage`: it keeps the message. -/
def decodeRaw (j : Json) (_ : Option Json) : Option (Option Json) := some (some j)

/-- A slice of raw messages. -/
def decodeRawSlice : Json → List Json → Option (List Json)
  | .arr xs, _ => some xs
  | .null, _ => some []
  | _, _ => none

def rawMembers (ms : List (Lexeme × Json)) : List (Text × Json) := ms.map fun e => (unquote e.1, e.2)

/-- A fresh `map[string]json.RawMessage`. -/
def decodeRawMap : Json → Option (Entries Json)
  | .obj ms => some (ofList (rawMembers ms))
  | .null => some []
  | _ => none

/-! ## Structs -/

/-- The fold of a character as far as it can meet an ASCII name: small letters,
the long s and the Kelvin sign. -/
def foldChar (c : Char) : Char :=
  if 'a' ≤ c ∧ c ≤ 'z' then Char.ofNat (c.toNat - 32)
  else if c.toNat = 0x17F then 'S'
  else if c.toNat = 0x212A then 'K'
  else c

/-- `foldName`. -/
def foldName (t : Text) : Text := t.map foldChar

/-- A field of a struct: its JSON name, and how a member's value is stored. -/
structure StructField (σ : Type) where
  name : Text
  set : Json → σ → Option σ

/-- One member: the field whose name folds to the member's, if there is one. -/
def setField (fields : List (StructField σ)) (k : Text) (v : Json) (s : σ) : Option σ :=
  match fields.find? fun f => foldName f.name = foldName k with
  | some f => f.set v s
  | none => some s

@[simp] theorem setField_nil (k : Text) (v : Json) (s : σ) : setField [] k v s = some s := rfl

theorem setField_cons (f : StructField σ) (fields : List (StructField σ)) (k : Text) (v : Json) (s : σ) :
    setField (f :: fields) k v s =
      if foldName f.name = foldName k then f.set v s else setField fields k v s := by
  unfold setField
  by_cases h : foldName f.name = foldName k <;> simp [h]

def decodeFields (fields : List (StructField σ)) : List (Lexeme × Json) → σ → Option σ
  | [], s => some s
  | (k, v) :: ms, s => (setField fields (unquote k) v s).bind (decodeFields fields ms)

/-- A struct without methods of its own. -/
def decodeStruct (fields : List (StructField σ)) : Json → σ → Option σ
  | .obj ms, s => decodeFields fields ms s
  | .null, s => some s
  | _, _ => none

variable {τ : Type}

/-- A struct that declares some of the fields of another reads them as the other
does: `proj` takes from the larger struct what the smaller one holds. -/
theorem decodeStruct_project (small : List (StructField τ)) (big : List (StructField σ)) (proj : σ → τ)
    (hnames : ∀ f ∈ small, ∃ g ∈ big, foldName g.name = foldName f.name)
    (hset : ∀ g ∈ big, ∀ v s s', g.set v s = some s' →
      setField small g.name v (proj s) = some (proj s'))
    {j : Json} {s s' : σ} (h : decodeStruct big j s = some s') :
    decodeStruct small j (proj s) = some (proj s') := by
  have hfields : ∀ (ms : List (Lexeme × Json)) (s : σ), decodeFields big ms s = some s' →
      decodeFields small ms (proj s) = some (proj s') := by
    intro ms
    induction ms with
    | nil =>
      rintro s ⟨⟩
      rfl
    | cons m ms ih =>
      intro s hm
      obtain ⟨s₁, h₁, h₂⟩ := Option.bind_eq_some_iff.mp hm
      have hone : setField small (unquote m.1) m.2 (proj s) = some (proj s₁) := by
        simp only [setField] at h₁
        cases hf : big.find? fun f => foldName f.name = foldName (unquote m.1) with
        | some g =>
          rw [hf] at h₁
          have hg := List.find?_some hf
          simp only [decide_eq_true_eq] at hg
          have hs := hset g (List.mem_of_find?_eq_some hf) m.2 s s₁ h₁
          rwa [setField, hg, ← setField] at hs
        | none =>
          rw [hf] at h₁
          cases h₁
          have hn : small.find? (fun f => foldName f.name = foldName (unquote m.1)) = none := by
            rw [List.find?_eq_none] at hf ⊢
            intro f hfm heq
            obtain ⟨g, hg, hgf⟩ := hnames f hfm
            exact hf g hg (by simpa [hgf] using heq)
          simp [setField, hn]
      rw [decodeFields, hone]
      exact ih s₁ h₂
  cases j with
  | obj ms => exact hfields ms s h
  | null =>
    cases h
    rfl
  | _ => cases h

/-! ## Structs with additional properties

Their `UnmarshalJSON` reads the members into a map of raw messages, takes the
declared fields out by exact name and keeps the rest as values of any type. -/

/-- One declared field: decoded and deleted from the map when it is there. -/
def takeField (f : StructField σ) (p : Entries Json × σ) : Option (Entries Json × σ) :=
  match get f.name p.1 with
  | some raw => (f.set raw p.2).map fun s => (delete f.name p.1, s)
  | none => some p

/-- The members that no declared field took. -/
def decodeAdditional (object : Entries Json) : Option (Entries Value) :=
  object.mapM fun e => (decodeValue e.2).map fun v => (e.1, v)

theorem decodeAdditional_isSome {object : Entries Json} (h : ∀ e ∈ object, ∃ v, decodeValue e.2 = some v) :
    ∃ m, decodeAdditional object = some m := by
  unfold decodeAdditional
  induction object with
  | nil => exact ⟨[], rfl⟩
  | cons e object ih =>
    obtain ⟨v, hv⟩ := h e (by simp)
    obtain ⟨m, hm⟩ := ih fun e he => h e (by simp [he])
    exact ⟨(e.1, v) :: m, by simp [hv, hm]⟩

def decodeObject (fields : List (StructField σ)) (additional : Entries Value → σ → σ) (j : Json) (s : σ) :
    Option σ :=
  (decodeRawMap j).bind fun object =>
    (fields.foldlM (fun p f => takeField f p) (object, s)).bind fun p =>
      if p.1.isEmpty then some p.2 else (decodeAdditional p.1).map fun m => additional m p.2

/-! ## Encoding -/

/-- The fields of a struct, in the order of its declaration. -/
def encodeStruct (fields : List (Text × Json)) : Json := .obj (fields.map fun f => (quote f.1, f.2))

/-- A `map[string]json.RawMessage`. -/
def encodeRawMap (m : Entries Json) : Json := .obj (m.map fun e => (quote e.1, compact e.2))

/-- Declared fields together with additional properties. -/
def encodeObject (fields : List (Text × Json)) (additional : Entries Value) : Json :=
  encodeRawMap (additional.foldl (fun m e => store e.1 (encodeValue e.2) m) (ofList fields))

def encodeInt (i : Int64) : Json := .num (formatInt i)
def encodeString (t : Text) : Json := .str (quote t)

/-- A field tagged `omitempty` with a pointer type. -/
def omitNil (name : Text) (enc : α → Json) : Option α → List (Text × Json)
  | none => []
  | some x => [(name, enc x)]

@[simp] theorem decodeString_encodeString (t cur : Text) :
    decodeString (encodeString t) cur = some t := by
  simp [decodeString, encodeString]

@[simp] theorem decodeInt_encodeInt (i cur : Int64) : decodeInt (encodeInt i) cur = some i := by
  simp [decodeInt, encodeInt]

@[simp] theorem decodePtr_encodeInt (i : Int64) (cur : Option Int64) :
    decodePtr decodeInt 0 (encodeInt i) cur = some (some i) := by
  simp [decodePtr, encodeInt, decodeInt]

@[simp] theorem decodeStruct_encodeStruct (fields : List (StructField σ)) (es : List (Text × Json)) (s : σ) :
    decodeStruct fields (encodeStruct es) s =
      es.foldlM (fun s e => setField fields e.1 e.2 s) s := by
  simp only [decodeStruct, encodeStruct]
  induction es generalizing s with
  | nil => rfl
  | cons e es ih => 
    simp only [List.map_cons, decodeFields, unquote_quote, List.foldlM_cons]
    cases h : setField fields e.1 e.2 s with
    | none => rfl
    | some s' => exact ih s'

end GoJson
