import LlamaStack.GoJsonNumber
import LlamaStack.GoJsonString
import LlamaStack.GoMap

/-!
# JSON values

The values that `encoding/json` stores in an `any`, their decoding from a tree
and their encoding as a tree. `int` is what a program stores there itself; it
reads back as a float.
-/
namespace GoJson

open GoBytes GoFloat64 GoMap

set_option maxRecDepth 4000

inductive Value where
  | null
  | bool (b : Bool)
  | num (x : Float64)
  | int (i : Int64)
  | str (s : Text)
  | arr (xs : List Value)
  | obj (m : List (Text × Value))

mutual
/-- `Unmarshal` into an `any`; `none` is a number out of range. -/
def decodeValue : Json → Option Value
  | .null => some .null
  | .bool b => some (.bool b)
  | .num n => (parseFloat n).map .num
  | .str s => some (.str (unquote s))
  | .arr xs => (decodeItems xs).map .arr
  | .obj ms => (decodeMembers ms).map fun es => .obj (ofList es)
def decodeItems : List Json → Option (List Value)
  | [] => some []
  | x :: xs => (decodeValue x).bind fun v => (decodeItems xs).map fun vs => v :: vs
def decodeMembers : List (Lexeme × Json) → Option (List (Text × Value))
  | [] => some []
  | (k, x) :: ms => (decodeValue x).bind fun v => (decodeMembers ms).map fun es => (unquote k, v) :: es
end

/-- `Unmarshal` into a `map[string]any`. -/
def decodeMap : Json → Option (Entries Value)
  | .obj ms => (decodeMembers ms).map ofList
  | .null => some []
  | _ => none

mutual
/-- `Marshal` of an `any`. -/
def encodeValue : Value → Json
  | .null => .null
  | .bool b => .bool b
  | .num x => .num (formatFloat x)
  | .int i => .num (formatInt i)
  | .str s => .str (quote s)
  | .arr xs => .arr (encodeItems xs)
  | .obj m => .obj (encodeMembers m)
def encodeItems : List Value → List Json
  | [] => []
  | x :: xs => encodeValue x :: encodeItems xs
def encodeMembers : List (Text × Value) → List (Lexeme × Json)
  | [] => []
  | (k, x) :: m => (quote k, encodeValue x) :: encodeMembers m
end

mutual
/-- The value with every integer replaced by the float nearest to it. -/
def asFloat : Value → Value
  | .int i => .num (ofInt64 i)
  | .arr xs => .arr (asFloatItems xs)
  | .obj m => .obj (asFloatMembers m)
  | .null => .null
  | .bool b => .bool b
  | .num x => .num x
  | .str s => .str s
def asFloatItems : List Value → List Value
  | [] => []
  | x :: xs => asFloat x :: asFloatItems xs
def asFloatMembers : List (Text × Value) → List (Text × Value)
  | [] => []
  | (k, x) :: m => (k, asFloat x) :: asFloatMembers m
end

mutual
/-- Every object of the value is a map: its keys are in order and distinct. -/
def Canonical : Value → Prop
  | .arr xs => CanonicalItems xs
  | .obj m => Sorted m ∧ CanonicalMembers m
  | _ => True
def CanonicalItems : List Value → Prop
  | [] => True
  | x :: xs => Canonical x ∧ CanonicalItems xs
def CanonicalMembers : List (Text × Value) → Prop
  | [] => True
  | (_, x) :: m => Canonical x ∧ CanonicalMembers m
end

theorem canonicalItems_iff {xs : List Value} : CanonicalItems xs ↔ ∀ x ∈ xs, Canonical x := by
  induction xs with
  | nil => simp [CanonicalItems]
  | cons x xs ih => simp [CanonicalItems, ih]

theorem canonicalMembers_iff {m : List (Text × Value)} :
    CanonicalMembers m ↔ ∀ e ∈ m, Canonical e.2 := by
  induction m with
  | nil => simp [CanonicalMembers]
  | cons e m ih =>
    obtain ⟨k, x⟩ := e
    simp [CanonicalMembers, ih]

theorem asFloatItems_eq (xs : List Value) : asFloatItems xs = xs.map asFloat := by
  induction xs with
  | nil => rfl
  | cons x xs ih => simp [asFloatItems, ih]

theorem asFloatMembers_eq (m : List (Text × Value)) : asFloatMembers m = mapValues asFloat m := by
  induction m with
  | nil => rfl
  | cons e m ih =>
    obtain ⟨k, x⟩ := e
    simp only [mapValues] at ih
    simp [asFloatMembers, mapValues, ih]

mutual
/-- An encoded value decodes to itself, up to integers stored as such. -/
theorem decodeValue_encodeValue : ∀ v : Value, Canonical v →
    decodeValue (encodeValue v) = some (asFloat v)
  | .null, _ => rfl
  | .bool _, _ => rfl
  | .num x, _ => by simp [encodeValue, decodeValue, asFloat]
  | .int i, _ => by simp [encodeValue, decodeValue, asFloat]
  | .str s, _ => by simp [encodeValue, decodeValue, asFloat]
  | .arr xs, h => by
    have hi := decodeItems_encodeItems xs h
    simp [encodeValue, decodeValue, asFloat, hi]
  | .obj m, h => by
    have hm := decodeMembers_encodeMembers m h.2
    have hs : ofList (asFloatMembers m) = asFloatMembers m := by
      rw [asFloatMembers_eq]
      exact ofList_of_sorted (mapValues_sorted _ h.1)
    simp [encodeValue, decodeValue, asFloat, hm, hs]
theorem decodeItems_encodeItems : ∀ xs : List Value, CanonicalItems xs →
    decodeItems (encodeItems xs) = some (asFloatItems xs)
  | [], _ => rfl
  | x :: xs, h => by
    have hx := decodeValue_encodeValue x h.1
    have hi := decodeItems_encodeItems xs h.2
    simp [encodeItems, decodeItems, asFloatItems, hx, hi]
theorem decodeMembers_encodeMembers : ∀ m : List (Text × Value), CanonicalMembers m →
    decodeMembers (encodeMembers m) = some (asFloatMembers m)
  | [], _ => rfl
  | (k, x) :: m, h => by
    have hx := decodeValue_encodeValue x h.1
    have hm := decodeMembers_encodeMembers m h.2
    simp [encodeMembers, decodeMembers, asFloatMembers, hx, hm]
end

mutual
theorem decodeValue_canonical : ∀ (j : Json) (v : Value), decodeValue j = some v →
    Canonical v ∧ asFloat v = v
  | .null, _, rfl => ⟨trivial, rfl⟩
  | .bool _, _, rfl => ⟨trivial, rfl⟩
  | .num n, v, h => by
    obtain ⟨x, -, rfl⟩ := Option.map_eq_some_iff.mp h
    exact ⟨trivial, rfl⟩
  | .str _, _, rfl => ⟨trivial, rfl⟩
  | .arr xs, v, h => by
    obtain ⟨vs, hvs, rfl⟩ := Option.map_eq_some_iff.mp h
    have hc := decodeItems_canonical xs vs hvs
    refine ⟨canonicalItems_iff.mpr fun x hx => (hc x hx).1, ?_⟩
    have hmap : vs.map asFloat = vs.map id := List.map_congr_left fun x hx => (hc x hx).2
    rw [asFloat, asFloatItems_eq, hmap, List.map_id]
  | .obj ms, v, h => by
    obtain ⟨es, hes, rfl⟩ := Option.map_eq_some_iff.mp h
    have hc := decodeMembers_canonical ms es hes
    refine ⟨⟨ofList_sorted es, canonicalMembers_iff.mpr fun e he => (hc e (mem_ofList he)).1⟩, ?_⟩
    have hmap : (ofList es).map (fun e => (e.1, asFloat e.2)) = (ofList es).map id :=
      List.map_congr_left fun e he => Prod.ext rfl (hc e (mem_ofList he)).2
    rw [asFloat, asFloatMembers_eq, mapValues, hmap, List.map_id]
theorem decodeItems_canonical : ∀ (xs : List Json) (vs : List Value), decodeItems xs = some vs →
    ∀ v ∈ vs, Canonical v ∧ asFloat v = v
  | [], vs, h => by
    cases h
    simp
  | x :: xs, vs, h => by
    obtain ⟨v, hv, h⟩ := Option.bind_eq_some_iff.mp h
    obtain ⟨us, hus, rfl⟩ := Option.map_eq_some_iff.mp h
    intro w hw
    rcases List.mem_cons.mp hw with rfl | hw
    · exact decodeValue_canonical x w hv
    · exact decodeItems_canonical xs us hus w hw
theorem decodeMembers_canonical : ∀ (ms : List (Lexeme × Json)) (es : List (Text × Value)),
    decodeMembers ms = some es → ∀ e ∈ es, Canonical e.2 ∧ asFloat e.2 = e.2
  | [], es, h => by
    cases h
    simp
  | (k, x) :: ms, es, h => by
    obtain ⟨v, hv, h⟩ := Option.bind_eq_some_iff.mp h
    obtain ⟨us, hus, rfl⟩ := Option.map_eq_some_iff.mp h
    intro w hw
    rcases List.mem_cons.mp hw with rfl | hw
    · exact decodeValue_canonical x v hv
    · exact decodeMembers_canonical ms us hus w hw
end

/-- A value that was read: maps in order, and no integers. -/
def Read (v : Value) : Prop := Canonical v ∧ asFloat v = v

theorem Read.member {m : Entries Value} (h : Read (.obj m)) : ∀ e ∈ m, Read e.2 := by
  intro e he
  have hmap : asFloatMembers m = m := by
    have hobj := h.2
    rw [asFloat] at hobj
    exact Value.obj.inj hobj
  rw [asFloatMembers_eq, mapValues] at hmap
  have hentry := List.map_inj_left.mp (hmap.trans (List.map_id m).symm) e he
  exact ⟨canonicalMembers_iff.mp h.1.2 e he, congrArg Prod.snd hentry⟩

theorem Read.item {xs : List Value} (h : Read (.arr xs)) : ∀ x ∈ xs, Read x := by
  intro x hx
  have hitems := h.2
  rw [asFloat, asFloatItems_eq, Value.arr.injEq] at hitems
  exact ⟨canonicalItems_iff.mp h.1 x hx, List.map_inj_left.mp (hitems.trans (List.map_id xs).symm) x hx⟩

theorem read_obj {m : Entries Value} (hs : Sorted m) (h : ∀ e ∈ m, Read e.2) : Read (.obj m) := by
  refine ⟨⟨hs, canonicalMembers_iff.mpr fun e he => (h e he).1⟩, ?_⟩
  have hmap : m.map (fun e => (e.1, asFloat e.2)) = m.map id :=
    List.map_congr_left fun e he => Prod.ext rfl (h e he).2
  rw [asFloat, asFloatMembers_eq, mapValues, hmap, List.map_id]

end GoJson
