import LlamaStack.NChoices
import LlamaStack.GoJsonExact

/-!
# How many requests

The number of upstream requests that a completion request becomes. Its `n` passes
through a float and a conversion to an integer, and allocates a slice, before it is
the length of a list.
-/
namespace FanOut

open GoBytes GoFloat64 GoJson GoMap NChoices

variable (jsonError : Bytes → Bytes)

/-- The body asks for this many choices, or leaves it open. -/
def Asks (body : Bytes) (z : Option Int) : Prop :=
  ∃ m, membersOf body = some m ∧
    match z with
    | none => get nKey m = none ∨ get nKey m = some .null
    | some z => ∃ n : GoJson.Num, get nKey m = some (.num n) ∧ n.value = z

/-- What the number of requests has to do with what was asked. -/
structure FansOut (path : Text) (body : Bytes) (z : Option Int) : Prop where
  returns : buildNChoiceRequest jsonError path body ≠ .panicked
  counts : ∀ r, buildNChoiceRequest jsonError path body = .request r → r.n = r.bodies.length
  single : (∀ k, z = some k → k ≤ 1) → (unmarshal decodeMap body).isSome →
    ∃ r, buildNChoiceRequest jsonError path body = .request r ∧ r.bodies = [body]
  many : ∀ k, z = some k → 2 ≤ k → ∀ r, buildNChoiceRequest jsonError path body = .request r →
    (r.bodies.length : Int) = k

/-! ## The number that is read -/

theorem object_of_asks {body : Bytes} {z : Option Int} (h : Asks body z) {payload : Entries Value}
    (hp : unmarshal decodeMap body = some payload) :
    ∃ ms es, membersOf body = some (ofList (treeOfMembers ms)) ∧ decodeMembers ms = some es ∧
      payload = ofList es := by
  obtain ⟨m, hm, -⟩ := h
  obtain ⟨j, hj, hdec⟩ := Option.bind_eq_some_iff.mp hp
  have hparse := parse_of_checkValid hj
  cases j with
  | obj ms =>
    obtain ⟨es, hes, rfl⟩ := Option.map_eq_some_iff.mp hdec
    exact ⟨ms, es, membersOf_of_parse hparse, hes, rfl⟩
  | _ => simp [membersOf, hparse, treeOf] at hm

theorem decoded_open {body : Bytes} (h : Asks body none) {payload : Entries Value}
    (hp : unmarshal decodeMap body = some payload) : (get nKey payload).getD .null = .null := by
  obtain ⟨ms, es, hm, hes, rfl⟩ := object_of_asks h hp
  obtain ⟨m, hm', hopen⟩ := h
  obtain rfl := Option.some.inj (hm.symm.trans hm')
  have hget := get_decodeMembers hes nKey
  simp only [get_treeOf] at hopen
  cases hraw : get nKey (ofList (rawMembers ms)) with
  | none =>
    rw [hraw] at hget
    cases hn : get nKey (ofList es) with
    | none => rfl
    | some v => simp [hn] at hget
  | some raw =>
    rw [hraw] at hget hopen
    have hnull : raw = .null := by
      cases raw <;> simp [treeOf] at hopen ⊢
    cases hn : get nKey (ofList es) with
    | none => rfl
    | some v =>
      rw [hn, hnull] at hget
      simp only [decodeValue, Option.map_some, Option.some.injEq] at hget
      rw [← hget]
      rfl

theorem decoded_number {body : Bytes} {z : Int} (h : Asks body (some z)) {payload : Entries Value}
    (hp : unmarshal decodeMap body = some payload) :
    ∃ (n : GoJson.Num) (x : Float64), n.value = z ∧ parseFloat n = some x ∧ (get nKey payload).getD .null = .num x := by
  obtain ⟨ms, es, hm, hes, rfl⟩ := object_of_asks h hp
  obtain ⟨m, hm', n, hn, hz⟩ := h
  obtain rfl := Option.some.inj (hm.symm.trans hm')
  have hget := get_decodeMembers hes nKey
  rw [get_treeOf] at hn
  obtain ⟨raw, hraw, htree⟩ := Option.map_eq_some_iff.mp hn
  have hnum : raw = .num n := by
    cases raw <;> simp [treeOf] at htree ⊢
    exact htree
  rw [hraw, hnum] at hget
  cases hv : get nKey (ofList es) with
  | none => simp [hv] at hget
  | some v =>
    rw [hv] at hget
    simp only [decodeValue, Option.map_some, Option.some.injEq] at hget
    obtain ⟨x, hx, rfl⟩ := Option.map_eq_some_iff.mp hget
    exact ⟨n, x, hz, hx, rfl⟩

/-! ## The request that is built -/

def IsCompletionPath (path : Text) : Prop := path = chatCompletionsPath ∨ path = completionsPath

theorem build_undecodable {path : Text} (hpath : IsCompletionPath path) {body : Bytes}
    (hp : unmarshal decodeMap body = none) :
    buildNChoiceRequest jsonError path body = .failed (jsonError body) := by
  have hother : ¬ (path ≠ chatCompletionsPath ∧ path ≠ completionsPath) := fun h => hpath.elim h.1 h.2
  rw [buildNChoiceRequest, if_neg hother, hp]

theorem build_open {path : Text} (hpath : IsCompletionPath path) {body : Bytes} {payload : Entries Value}
    (hp : unmarshal decodeMap body = some payload) (hn : (get nKey payload).getD .null = .null) :
    buildNChoiceRequest jsonError path body = .request ⟨[body], 1, false⟩ := by
  have hother : ¬ (path ≠ chatCompletionsPath ∧ path ≠ completionsPath) := fun h => hpath.elim h.1 h.2
  rw [buildNChoiceRequest, if_neg hother, hp]
  simp only [hn, jsonInt]

theorem build_number {path : Text} (hpath : IsCompletionPath path) {body : Bytes} {payload : Entries Value}
    (hp : unmarshal decodeMap body = some payload) {x : Float64} (hn : (get nKey payload).getD .null = .num x)
    (hx : x.isWhole = true) :
    (x.toInt64.toInt ≤ 1 ∧ buildNChoiceRequest jsonError path body = .request ⟨[body], 1, false⟩) ∨
      (1 < x.toInt64.toInt ∧ maxAlloc < x.toInt64.toInt.toNat * sliceSize ∧
        buildNChoiceRequest jsonError path body = .panicked) ∨
      (1 < x.toInt64.toInt ∧ ¬ maxAlloc < x.toInt64.toInt.toNat * sliceSize ∧
        ∃ stream, buildNChoiceRequest jsonError path body =
          .request ⟨List.replicate x.toInt64.toInt.toNat (singleChoiceBody payload), x.toInt64.toInt, stream⟩) := by
  have hother : ¬ (path ≠ chatCompletionsPath ∧ path ≠ completionsPath) := fun h => hpath.elim h.1 h.2
  rw [buildNChoiceRequest, if_neg hother, hp]
  simp only [hn, jsonInt, hx, if_true]
  by_cases hone : x.toInt64.toInt ≤ 1
  · exact .inl ⟨hone, if_pos hone⟩
  · right
    have hlt : 1 < x.toInt64.toInt := by omega
    by_cases hmax : maxAlloc < x.toInt64.toInt.toNat * sliceSize
    · exact .inl ⟨hlt, hmax, by rw [if_neg hone, if_pos hmax]⟩
    · exact .inr ⟨hlt, hmax, _, by rw [if_neg hone, if_neg hmax]⟩

/-! ## The arithmetic -/

theorem toInt_toInt64 (x : Float64) :
    x.toInt64.toInt = if -2 ^ 63 ≤ x.trunc ∧ x.trunc < 2 ^ 63 then x.trunc else -2 ^ 63 := by
  unfold Float64.toInt64
  split
  · rename_i h
    exact Int64.toInt_ofInt_of_le h.1 h.2
  · exact Int64.toInt_minValue

/-- A count is carried over exactly as long as the slice for it can be allocated. -/
def Fits (z : Int) : Prop := z ≤ 1 ∨ z * sliceSize ≤ maxAlloc

/-- The number of requests for a count that was decoded. -/
theorem fansOut_number {path : Text} (hpath : IsCompletionPath path) {body : Bytes} {z : Int}
    (h : Asks body (some z)) {payload : Entries Value} (hp : unmarshal decodeMap body = some payload) :
    FansOut jsonError path body (some z) ↔ Fits z := by
  obtain ⟨n, x, hz, hx, hget⟩ := decoded_number h hp
  -- the count is at most 1, or it is read exactly, or it is far too large
  have hcases : x.isWhole = true ∧ ((z ≤ 1 ∧ x.toInt64.toInt ≤ 1) ∨ (1 < z ∧ x.toInt64.toInt = z) ∨
      (2 ^ 53 ≤ z ∧ (x.toInt64.toInt ≤ 1 ∨ 2 ^ 53 ≤ x.toInt64.toInt))) := by
    by_cases hsmall : z.natAbs < 2 ^ 53
    · obtain ⟨x', hx', hwhole, htrunc⟩ := parseFloat_small hz hsmall
      obtain rfl := Option.some.inj (hx.symm.trans hx')
      have hint : x.toInt64.toInt = z := by
        rw [toInt_toInt64, htrunc, if_pos (by omega)]
      refine ⟨hwhole, ?_⟩
      omega
    · obtain ⟨hwhole, hpos, hneg⟩ := parseFloat_large hz (by omega) hx
      refine ⟨hwhole, ?_⟩
      have hint := toInt_toInt64 x
      by_cases hz0 : 0 < z
      · have htrunc := hpos hz0
        right
        right
        refine ⟨by omega, ?_⟩
        split at hint <;> omega
      · have htrunc := hneg (by omega)
        left
        refine ⟨by omega, ?_⟩
        split at hint <;> omega
  obtain ⟨hwhole, hcases⟩ := hcases
  have hbuild := build_number jsonError hpath hp hget hwhole
  constructor
  · intro hf
    unfold Fits
    by_contra hnot
    rw [not_or] at hnot
    obtain ⟨hle, hb⟩ | ⟨-, -, hb⟩ | ⟨hlt, hfit, stream, hb⟩ := hbuild
    · have hlen := hf.many z rfl (by omega) _ hb
      simp only [List.length_singleton] at hlen
      omega
    · exact hf.returns hb
    · simp only [maxAlloc, sliceSize] at hfit hnot
      omega
  · intro hfits
    simp only [Fits, maxAlloc, sliceSize] at hfits
    obtain ⟨hle, hb⟩ | ⟨hlt, hfit, hb⟩ | ⟨hlt, hfit, stream, hb⟩ := hbuild
    · have hz1 : z ≤ 1 := by omega
      refine ⟨by simp [hb], fun r hr => ?_, fun _ _ => ⟨_, hb, rfl⟩, fun k hk hk2 => ?_⟩
      · rw [hb] at hr
        cases hr
        rfl
      · cases hk
        omega
    · simp only [maxAlloc, sliceSize] at hfit
      omega
    · refine ⟨by simp [hb], fun r hr => ?_, fun hk => ?_, fun k hk hk2 r hr => ?_⟩
      · rw [hb] at hr
        cases hr
        simp only [List.length_replicate]
        omega
      · have hz1 := hk z rfl
        omega
      · rw [hb] at hr
        cases hr
        cases hk
        simp only [List.length_replicate]
        simp only [maxAlloc, sliceSize] at hfit
        omega

theorem fansOut_undecodable {path : Text} (hpath : IsCompletionPath path) {body : Bytes} (z : Option Int)
    (hp : unmarshal decodeMap body = none) : FansOut jsonError path body z := by
  have hb := build_undecodable jsonError hpath hp
  constructor
  · simp [hb]
  · intro r hr
    rw [hb] at hr
    cases hr
  · simp [hp]
  · intro k _ _ r hr
    rw [hb] at hr
    cases hr

theorem fansOut_open {path : Text} (hpath : IsCompletionPath path) {body : Bytes}
    (h : Asks body none) {payload : Entries Value} (hp : unmarshal decodeMap body = some payload) :
    FansOut jsonError path body none := by
  have hb := build_open jsonError hpath hp (decoded_open h hp)
  constructor
  · simp [hb]
  · intro r hr
    rw [hb] at hr
    cases hr
    rfl
  · exact fun _ _ => ⟨_, hb, rfl⟩
  · intro k hk
    cases hk

/-- The fan-out is right exactly when the body cannot be decoded at all, or asks for
no more requests than a slice can hold. -/
theorem buildNChoiceRequest_fansOut {path : Text} (hpath : IsCompletionPath path) {body : Bytes}
    {z : Option Int} (h : Asks body z) :
    FansOut jsonError path body z ↔ unmarshal decodeMap body = none ∨ ∀ k, z = some k → Fits k := by
  cases hp : unmarshal decodeMap body with
  | none => simp [fansOut_undecodable jsonError hpath z hp]
  | some payload =>
    cases z with
    | none => simp [fansOut_open jsonError hpath h hp]
    | some z =>
      rw [fansOut_number jsonError hpath h hp]
      simp

/-! ## Bodies that ask for many -/

def countJson (n : GoJson.Num) : Json := .obj [(quote nKey, .num n)]

theorem asks_countJson {n : GoJson.Num} {z : Int} (h : n.value = z) : Asks (print (countJson n)) (some z) := by
  refine ⟨_, membersOf_of_parse (parse_print _), n, ?_, h⟩
  simp [treeOfMembers, treeOf, ofList, store, GoMap.get]

/-- The literal of 2^63. -/
def twoTo63 : GoJson.Num :=
  ⟨false, [9, 2, 2, 3, 3, 7, 2, 0, 3, 6, 8, 5, 4, 7, 7, 5, 8, 0, 8], none, none, by decide⟩

/-- The literal of 20 million millions. -/
def twentyTrillion : GoJson.Num := ⟨false, [2, 0, 0, 0, 0, 0, 0, 0, 0, 0, 0, 0, 0, 0], none, none, by decide⟩

theorem buildNChoiceRequest_fansOut_three :
    FansOut id completionsPath (print (countJson (formatInt 3))) (some 3) ↔
      unmarshal decodeMap (print (countJson (formatInt 3))) = none ∨ ∀ k, some 3 = some k → Fits k :=
  buildNChoiceRequest_fansOut id (.inr rfl) (asks_countJson (by decide +kernel))

/-- One count panics, and a larger one is forwarded as a single request. -/
theorem buildNChoiceRequest_not_fansOut :
    (Asks (print (countJson twentyTrillion)) (some 20000000000000) ∧
      ¬ FansOut id completionsPath (print (countJson twentyTrillion)) (some 20000000000000)) ∧
    (Asks (print (countJson twoTo63)) (some 9223372036854775808) ∧
      ¬ FansOut id completionsPath (print (countJson twoTo63)) (some 9223372036854775808)) := by
  have hdecode : ∀ n : GoJson.Num, (parseFloat n).isSome → ∃ payload,
      unmarshal decodeMap (print (countJson n)) = some payload := by
    intro n hn
    obtain ⟨x, hx⟩ := Option.isSome_iff_exists.mp hn
    have hdepth : depth (countJson n) ≤ maxNestingDepth := by
      simp [countJson, depth, depthMembers, maxNestingDepth]
    refine ⟨ofList [(nKey, .num x)], ?_⟩
    rw [unmarshal, checkValid_print hdepth, Option.bind_some]
    simp [countJson, decodeMap, decodeMembers, decodeValue, hx]
  have hfails : ∀ (n : GoJson.Num) (z : Int), n.value = z → (parseFloat n).isSome → ¬ Fits z →
      Asks (print (countJson n)) (some z) ∧
        ¬ FansOut id completionsPath (print (countJson n)) (some z) := by
    intro n z hz hn hfits
    obtain ⟨payload, hp⟩ := hdecode n hn
    have hasks := asks_countJson hz
    exact ⟨hasks, fun hf => hfits ((fansOut_number id (.inr rfl) hasks hp).mp hf)⟩
  constructor
  · apply hfails _ _ (by decide +kernel) (by decide +kernel)
    simp only [Fits, maxAlloc, sliceSize]
    omega
  · apply hfails _ _ (by decide +kernel) (by decide +kernel)
    simp only [Fits, maxAlloc, sliceSize]
    omega

end FanOut
