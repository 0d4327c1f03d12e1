import LlamaStack.GoJsonTree
import Mathlib.Algebra.Order.Field.Rat
import Mathlib.Tactic.FieldSimp
import Mathlib.Tactic.NormNum

/-!
# Exact numbers

The rational number that a JSON number spells, and which integers keep it when a
float is made of them and written again.
-/
namespace GoJson

open GoFloat64

set_option maxRecDepth 4000

def decimalValue (neg : Bool) (digits : Nat) (exp : Int) : Rat :=
  (if neg then -1 else 1) * digits * (10 : Rat) ^ exp

theorem decimalValue_shift : Shifts decimalValue := by
  intro neg digits a exp
  have h : (10 : Rat) ≠ 0 := by norm_num
  simp only [decimalValue, zpow_add₀ h, Nat.cast_mul, Nat.cast_pow, zpow_natCast]
  push_cast
  ring

/-- The number that a literal spells. -/
def Num.value (n : Num) : Rat := n.read decimalValue

def Num.Whole (n : Num) : Prop := ∃ z : Int, n.value = z

/-- An integer is compared exactly, any other number as a float. -/
structure SameNum (n n' : Num) : Prop where
  whole : n.Whole → n'.value = n.value
  float : parseFloat n' = parseFloat n

/-- An integer that is the shortest decimal of the float nearest to it. -/
def Survives (n : Num) : Prop := n.Whole → (recode n).value = n.value

theorem parseFloat_recode (n : Num) : parseFloat (recode n) = parseFloat n := by
  unfold recode
  cases h : parseFloat n with
  | none => exact h
  | some x => exact parseFloat_formatFloat x

theorem sameNum_recode (n : Num) : SameNum n (recode n) ↔ Survives n :=
  ⟨SameNum.whole, fun h => ⟨h, parseFloat_recode n⟩⟩

/-- A text is kept by decoding and encoding when its integers are. -/
theorem same_recode (t : Tree) : Same SameNum t (mapNums recode t) ↔ AllNums Survives t :=
  (same_mapNums SameNum recode t).trans (allNums_congr sameNum_recode t)

/-! ## Small integers -/

/-- A decimal spells the natural number, up to its sign. -/
def Spells (m digits : Nat) (exp : Int) : Prop := digits * 10 ^ exp.toNat = m * 10 ^ (-exp).toNat

theorem ten_zpow (exp : Int) : (10 : Rat) ^ exp = 10 ^ exp.toNat / 10 ^ (-exp).toNat := by
  have he : exp = (exp.toNat : Int) - ((-exp).toNat : Int) := by omega
  conv_lhs => rw [he, zpow_sub₀ (by norm_num), zpow_natCast, zpow_natCast]

theorem spells_iff (m digits : Nat) (exp : Int) :
    Spells m digits exp ↔ (digits : Rat) * 10 ^ exp = m := by
  have hpos : (10 : Rat) ^ (-exp).toNat ≠ 0 := by positivity
  rw [ten_zpow, ← mul_div_assoc, div_eq_iff hpos, Spells]
  norm_cast

theorem decimalValue_of_spells {m digits : Nat} {exp : Int} (h : Spells m digits exp) (neg : Bool) :
    decimalValue neg digits exp = (if neg then -1 else 1) * m := by
  rw [decimalValue, mul_assoc, (spells_iff m digits exp).mp h]

theorem spells_of_value {n : Num} {z : Int} (h : n.value = z) :
    n.read fun _ digits exp => Spells z.natAbs digits exp := by
  unfold Num.value Num.read decimalValue at h
  unfold Num.read
  generalize digitsVal (n.int ++ fracDigits n.frac) = digits at *
  generalize expVal n.exp - ((fracDigits n.frac).length : Int) = exp at *
  rw [spells_iff]
  have hnonneg : (0 : Rat) ≤ (digits : Rat) * 10 ^ exp :=
    mul_nonneg (Nat.cast_nonneg _) (zpow_nonneg (by norm_num) _)
  have habs : ((z.natAbs : Nat) : Rat) = |(z : Rat)| := by
    rw [Nat.cast_natAbs, Int.cast_abs]
  rw [habs, ← h, mul_assoc, abs_mul, abs_of_nonneg hnonneg]
  cases n.neg <;> simp

theorem le_halfEven (n d : Nat) : n / d ≤ halfEven n d := by
  unfold halfEven
  repeat' split
  all_goals omega

theorem ofDecimal_neg {neg : Bool} {digits : Nat} {exp : Int} {x : Float64}
    (h : ofDecimal neg digits exp = some x) : x.neg = neg := by
  simp only [ofDecimal] at h
  split at h
  · cases h
    rfl
  · cases h

/-- Rounding does not fall below the leading bit. -/
theorem le_roundUnits {u : Nat} (hu : u ≠ 0) : 2 ^ Nat.log2 u ≤ roundUnits u 1 := by
  have hs : lastPlace (u / 1) ≤ Nat.log2 u := by
    rw [Nat.div_one]
    exact Nat.sub_le _ _
  unfold roundUnits
  rw [Nat.one_mul]
  generalize lastPlace (u / 1) = s at *
  have hsplit : 2 ^ Nat.log2 u = 2 ^ (Nat.log2 u - s) * 2 ^ s := by
    rw [← Nat.pow_add]
    congr 1
    omega
  have hquot : 2 ^ (Nat.log2 u - s) ≤ u / 2 ^ s := by
    rw [Nat.le_div_iff_mul_le (by positivity), ← hsplit]
    exact Nat.log2_self_le hu
  rw [hsplit]
  exact Nat.mul_le_mul_right _ (hquot.trans (le_halfEven u (2 ^ s)))

theorem roundUnits_spells {m digits : Nat} {exp : Int} (h : Spells m digits exp) :
    roundUnits (decimalNum digits exp) (decimalDen exp) = roundUnits (m * 2 ^ 1074) 1 := by
  apply roundUnits_congr (decimalDen_pos exp) Nat.one_pos
  rw [decimalNum, decimalDen, h]
  ring

/-- Small integers are floats. -/
theorem ofDecimal_small {m digits : Nat} {exp : Int} (hm : m < 2 ^ 53) (h : Spells m digits exp)
    (neg : Bool) : ∃ x, ofDecimal neg digits exp = some x ∧ x.neg = neg ∧ x.units = m * 2 ^ 1074 := by
  have hround : roundUnits (decimalNum digits exp) (decimalDen exp) = m * 2 ^ 1074 := by
    rw [roundUnits_spells h]
    apply roundUnits_of_dvd
    have hle : lastPlace (m * 2 ^ 1074) ≤ 1074 := by
      by_cases hz : m = 0
      · simp [hz, lastPlace]
      · have hlog : Nat.log2 (m * 2 ^ 1074) < 1127 := by
          apply (Nat.log2_lt (by positivity)).mpr
          exact (Nat.mul_lt_mul_of_pos_right hm (by positivity)).trans_eq (by rw [← Nat.pow_add])
        unfold lastPlace
        omega
    exact (Nat.pow_dvd_pow 2 hle).trans (Nat.dvd_mul_left _ _)
  have hlt : m * 2 ^ 1074 < 2 ^ 2098 := by
    calc m * 2 ^ 1074 < 2 ^ 53 * 2 ^ 1074 := Nat.mul_lt_mul_of_pos_right hm (by positivity)
      _ = 2 ^ 1127 := by rw [← Nat.pow_add]
      _ ≤ 2 ^ 2098 := Nat.pow_le_pow_right (by decide) (by decide)
  exact ⟨⟨neg, _, roundUnits_idem _ (decimalDen_pos exp), hround ▸ hlt⟩,
    by rw [ofDecimal, dif_pos (hround ▸ hlt)], rfl, hround⟩

/-- An integer of at least 2^53 reads as no smaller one. -/
theorem units_ge_of_spells {neg : Bool} {m digits : Nat} {exp : Int} {x : Float64}
    (h : ofDecimal neg digits exp = some x) (hs : Spells m digits exp) (hm : 2 ^ 53 ≤ m) :
    2 ^ 53 * 2 ^ 1074 ≤ x.units := by
  have hle : 2 ^ 53 * 2 ^ 1074 ≤ m * 2 ^ 1074 := Nat.mul_le_mul_right _ hm
  have hne : m * 2 ^ 1074 ≠ 0 := by
    have hpos : 0 < 2 ^ 53 * 2 ^ 1074 := by positivity
    omega
  have hlog : 1127 ≤ Nat.log2 (m * 2 ^ 1074) := by
    rw [Nat.le_log2 hne]
    exact le_trans (by rw [← Nat.pow_add]) hle
  rw [ofDecimal_units h, roundUnits_spells hs]
  calc 2 ^ 53 * 2 ^ 1074 = 2 ^ 1127 := by rw [← Nat.pow_add]
    _ ≤ 2 ^ Nat.log2 (m * 2 ^ 1074) := Nat.pow_le_pow_right (by decide) hlog
    _ ≤ _ := le_roundUnits hne

theorem units_ge {neg : Bool} {digits j : Nat} {x : Float64} (h : ofDecimal neg digits j = some x)
    (hd : 2 ^ 53 ≤ digits * 10 ^ j) : 2 ^ 53 * 2 ^ 1074 ≤ x.units := by
  have hs : Spells (digits * 10 ^ j) digits j := by simp [Spells]
  exact units_ge_of_spells h hs hd

theorem float_ext {x y : Float64} (hneg : x.neg = y.neg) (hunits : x.units = y.units) : x = y := by
  obtain ⟨neg, units, hr, hf⟩ := x
  obtain ⟨neg', units', hr', hf'⟩ := y
  obtain rfl : neg = neg' := hneg
  obtain rfl : units = units' := hunits
  rfl

section Shortest

variable {x : Float64} {m : Nat}

/-- An integer with `j` zeros behind its digits reads back only as itself. -/
theorem eq_of_reads (hm : m < 2 ^ 53) (hx : x.units = m * 2 ^ 1074) {c j : Nat}
    (h : ofDecimal x.neg c j = some x) : c * 10 ^ j = m := by
  have hpos : 0 < 2 ^ 1074 := by positivity
  have hlt : c * 10 ^ j < 2 ^ 53 := by
    by_contra hge
    have hunits := units_ge h (Nat.not_lt.mp hge)
    rw [hx] at hunits
    exact absurd (Nat.le_of_mul_le_mul_right hunits hpos) (Nat.not_le.mpr hm)
  have hspells : Spells (c * 10 ^ j) c j := by simp [Spells]
  obtain ⟨y, hy, -, hunits⟩ := ofDecimal_small hlt hspells x.neg
  cases h.symm.trans hy
  exact Nat.eq_of_mul_eq_mul_right hpos (hunits.symm.trans hx)

theorem exactDigits_small (hx : x.units = m * 2 ^ 1074) : exactDigits x = m * 10 ^ 1074 := by
  rw [exactDigits, hx, Nat.mul_assoc, ← Nat.mul_pow]

theorem pickDigits_small (hm : m < 2 ^ 53) (hx : x.units = m * 2 ^ 1074) {n : Nat} {p : Nat × Int}
    (h : pickDigits x n = some p) : Spells m p.1 p.2 := by
  unfold pickDigits at h
  rw [exactDigits_small hx] at h
  simp only at h
  generalize (Nat.digits 10 (m * 10 ^ 1074)).length - n = cut at *
  by_cases hcut : cut ≤ 1074
  · -- The cut is behind the point: nothing but zeros is cut off.
    have hsplit : m * 10 ^ 1074 = m * 10 ^ (1074 - cut) * 10 ^ cut := by
      rw [Nat.mul_assoc, ← Nat.pow_add]
      congr 2
      omega
    have hquot : m * 10 ^ 1074 / 10 ^ cut = m * 10 ^ (1074 - cut) := by
      rw [hsplit, Nat.mul_div_cancel _ (by positivity)]
    have hmod : m * 10 ^ 1074 % 10 ^ cut = 0 := by
      rw [hsplit, Nat.mul_mod_left]
    have hexp : ((cut : Int) - 1074).toNat = 0 ∧ (-((cut : Int) - 1074)).toNat = 1074 - cut := by omega
    have hspells : Spells m (m * 10 ^ (1074 - cut)) ((cut : Int) - 1074) := by
      rw [Spells, hexp.1, hexp.2, Nat.pow_zero, Nat.mul_one]
    have hlow : ofDecimal x.neg (m * 10 ^ (1074 - cut)) ((cut : Int) - 1074) = some x := by
      obtain ⟨y, hy, hneg, hunits⟩ := ofDecimal_small hm hspells x.neg
      rw [hy, float_ext hneg (hunits.trans hx.symm)]
    rw [hquot, hmod] at h
    rw [if_pos ⟨hlow, .inr (by omega)⟩] at h
    cases h
    exact hspells
  · -- Digits of the integer are cut off; the rest reads back only when they are zeros.
    obtain ⟨j, rfl⟩ : ∃ j, cut = j + 1074 := ⟨cut - 1074, by omega⟩
    have hquot : m * 10 ^ 1074 / 10 ^ (j + 1074) = m / 10 ^ j := by
      rw [Nat.pow_add, Nat.mul_div_mul_right _ _ (by positivity)]
    have hexp : ((j + 1074 : Nat) : Int) - 1074 = j := by omega
    rw [hquot, hexp] at h
    split at h
    · rename_i hlow
      cases h
      have hval := eq_of_reads hm hx hlow.1
      simp [Spells, hval]
    · split at h
      · rename_i hhigh
        have hval := eq_of_reads hm hx hhigh
        have hgt : m < (m / 10 ^ j + 1) * 10 ^ j := by
          rw [Nat.mul_comm]
          exact Nat.lt_mul_div_succ m (by positivity)
        omega
      · cases h

theorem shortest_small (hm : m < 2 ^ 53) (hx : x.units = m * 2 ^ 1074) :
    Spells m (shortest x).1 (shortest x).2 := by
  unfold shortest
  cases h : (List.range (Nat.digits 10 (exactDigits x)).length).findSome?
      fun n => pickDigits x (n + 1) with
  | none =>
    have h₁ : (-1074 : Int).toNat = 0 := by decide
    have h₂ : (-(-1074 : Int)).toNat = 1074 := by decide
    simp only [Option.getD_none, exactDigits_small hx, Spells, h₁, h₂, Nat.pow_zero, Nat.mul_one]
  | some p =>
    obtain ⟨n, -, hp⟩ := List.exists_of_findSome?_eq_some h
    exact pickDigits_small hm hx hp

end Shortest

/-- Integers below 2^53 in magnitude survive. -/
theorem survives_small {n : Num} {z : Int} (h : n.value = z) (hz : z.natAbs < 2 ^ 53) : Survives n := by
  intro _
  have hspells := spells_of_value h
  unfold Num.read at hspells
  obtain ⟨x, hx, hneg, hunits⟩ := ofDecimal_small hz hspells n.neg
  have hparse : parseFloat n = some x := hx
  have hvalue : n.value = (if n.neg then -1 else 1) * (z.natAbs : Rat) := decimalValue_of_spells hspells _
  rw [recode, hparse, hvalue, ← hneg]
  by_cases hzero : x.units = 0
  · have hz0 : z.natAbs = 0 := by
      have hpos : 0 < 2 ^ 1074 := by positivity
      rw [hzero] at hunits
      exact (Nat.mul_eq_zero.mp hunits.symm).resolve_right hpos.ne'
    rw [hz0]
    simp [formatFloat, hzero, plainNum, Num.value, Num.read, decimalValue, digitsVal, fracDigits]
  · rw [Option.map_some, Option.getD_some, Num.value, read_formatFloat decimalValue_shift hzero]
    exact decimalValue_of_spells (shortest_small hz hunits) _

/-! ## Integers as floats -/

theorem value_of_integer {n : Num} {z : Int} (h : n.value = z) :
    ((if n.neg then -1 else 1) * (z.natAbs : Int)) = z := by
  have hvalue : n.value = (if n.neg then -1 else 1) * (z.natAbs : Rat) :=
    decimalValue_of_spells (spells_of_value h) _
  rw [h] at hvalue
  have hcast : (((if n.neg then -1 else 1) * (z.natAbs : Int) : Int) : Rat) = z := by
    rw [hvalue]
    cases n.neg <;> simp
  exact_mod_cast hcast

/-- An integer below 2^53 in magnitude is read as it is. -/
theorem parseFloat_small {n : Num} {z : Int} (h : n.value = z) (hz : z.natAbs < 2 ^ 53) :
    ∃ x, parseFloat n = some x ∧ x.isWhole = true ∧ x.trunc = z := by
  obtain ⟨x, hx, hneg, hunits⟩ := ofDecimal_small hz (spells_of_value h) n.neg
  have hpos : 0 < 2 ^ 1074 := by positivity
  refine ⟨x, hx, by simp [Float64.isWhole, hunits], ?_⟩
  have hsign := value_of_integer h
  rw [Float64.trunc, hunits, hneg, Nat.mul_div_cancel _ hpos]
  cases hn : n.neg <;> rw [hn] at hsign <;> simp only [if_true, Bool.false_eq_true, if_false] at hsign ⊢ <;>
    omega

/-- From 2^53 units of one on, a float is an integer. -/
theorem isWhole_of_large {x : Float64} (h : 2 ^ 53 * 2 ^ 1074 ≤ x.units) : x.isWhole = true := by
  have hne : x.units ≠ 0 := by
    have hpos : 0 < 2 ^ 53 * 2 ^ 1074 := by positivity
    omega
  have hlog : 1127 ≤ Nat.log2 x.units := by
    rw [Nat.le_log2 hne]
    exact le_trans (by rw [← Nat.pow_add]) h
  have hplace : 1074 ≤ lastPlace x.units := by
    unfold lastPlace
    omega
  have hdvd : 2 ^ lastPlace x.units ∣ x.units := by
    have hround := x.rounded
    unfold roundUnits at hround
    rw [Nat.div_one] at hround
    exact ⟨_, by rw [Nat.mul_comm]; exact hround.symm⟩
  rw [Float64.isWhole, decide_eq_true_eq]
  exact Nat.mod_eq_zero_of_dvd ((Nat.pow_dvd_pow 2 hplace).trans hdvd)

/-- A larger one is read as an integer at least as large. -/
theorem parseFloat_large {n : Num} {z : Int} (h : n.value = z) (hz : 2 ^ 53 ≤ z.natAbs) {x : Float64}
    (hx : parseFloat n = some x) :
    x.isWhole = true ∧ (0 < z → 2 ^ 53 ≤ x.trunc) ∧ (z < 0 → x.trunc ≤ -2 ^ 53) := by
  have hunits := units_ge_of_spells hx (spells_of_value h) hz
  have hneg : x.neg = n.neg := ofDecimal_neg hx
  have hquot : 2 ^ 53 ≤ x.units / 2 ^ 1074 := (Nat.le_div_iff_mul_le (by positivity)).mpr hunits
  have hsign := value_of_integer h
  refine ⟨isWhole_of_large hunits, ?_, ?_⟩
  · intro hpos
    have hn : n.neg = false := by
      cases hn : n.neg with
      | false => rfl
      | true =>
        rw [hn] at hsign
        simp only [if_true] at hsign
        omega
    rw [Float64.trunc, hneg, hn, if_neg (by simp)]
    exact_mod_cast hquot
  · intro hlt
    have hn : n.neg = true := by
      cases hn : n.neg with
      | true => rfl
      | false =>
        rw [hn] at hsign
        simp only [Bool.false_eq_true, if_false] at hsign
        omega
    rw [Float64.trunc, hneg, hn, if_pos rfl]
    exact neg_le_neg (by exact_mod_cast hquot)

/-! ## Sums of integers -/

/-- Units that make an integer of at most 2^53: a float holds it. -/
def ExactUnits (v : Int) : Prop := (2 ^ 1074 : Int) ∣ v ∧ v.natAbs ≤ 2 ^ 53 * 2 ^ 1074

theorem roundUnits_exact {u : Nat} (hdvd : 2 ^ 1074 ∣ u) (hle : u ≤ 2 ^ 53 * 2 ^ 1074) : roundUnits u 1 = u := by
  apply roundUnits_of_dvd
  rcases Nat.eq_or_lt_of_le hle with h | h
  · have hlog : Nat.log2 u = 1127 := by
      rw [h, ← Nat.pow_add, Nat.log2_two_pow]
    rw [lastPlace, hlog, h, ← Nat.pow_add]
    exact Nat.pow_dvd_pow 2 (by omega)
  · have hplace : lastPlace u ≤ 1074 := by
      by_cases hu : u = 0
      · subst hu
        exact Nat.zero_le _
      · have hlog : Nat.log2 u < 1127 := by
          rw [Nat.log2_lt hu]
          exact lt_of_lt_of_eq h (by rw [← Nat.pow_add])
        unfold lastPlace
        omega
    exact (Nat.pow_dvd_pow 2 hplace).trans hdvd

/-- A sum that is exact is what the addition gives. -/
theorem ofUnits_exact (neg : Bool) {v : Int} (h : ExactUnits v) :
    ∃ x : Float64, ofUnits neg v = .finite x ∧ x.signed = v := by
  have hdvd : 2 ^ 1074 ∣ v.natAbs := by
    have hnat := Int.natAbs_dvd_natAbs.mpr h.1
    rwa [Int.natAbs_pow] at hnat
  have hround := roundUnits_exact hdvd h.2
  have hsmall : roundUnits v.natAbs 1 < 2 ^ 2098 := by
    rw [hround]
    exact lt_of_le_of_lt h.2 (by rw [← Nat.pow_add]; exact Nat.pow_lt_pow_right (by omega) (by omega))
  unfold ofUnits
  rw [dif_pos hsmall]
  refine ⟨_, rfl, ?_⟩
  simp only [Float64.signed, hround]
  by_cases hzero : v = 0
  · simp [hzero]
  · rw [if_neg hzero]
    by_cases hneg : v < 0
    · rw [if_pos (by simpa using hneg)]
      omega
    · rw [if_neg (by simpa using hneg)]
      omega

end GoJson
