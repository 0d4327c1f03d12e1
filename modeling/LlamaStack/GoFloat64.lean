import Mathlib.Data.Nat.Digits.Defs
import Mathlib.Data.Nat.Log
import Mathlib.Tactic.Ring
import Mathlib.Tactic.Positivity

/-!
# Binary64 numbers

The finite binary64 values, as `strconv.ParseFloat` and `strconv.FormatFloat`
see them. A magnitude is counted in units of the least subnormal number,
2^-1074, so that every finite value is a natural number of units and rounding
to nearest, ties to even, is integer arithmetic.
-/
namespace GoFloat64

/-- The quotient `n / d` rounded to the nearest integer, ties to even. -/
def halfEven (n d : Nat) : Nat :=
  if 2 * (n % d) < d then n / d
  else if d < 2 * (n % d) then n / d + 1
  else if n / d % 2 = 0 then n / d else n / d + 1

/-- The exponent, in units, of the last place of a magnitude: 53 significant
bits, and no place below one unit. -/
def lastPlace (u : Nat) : Nat := Nat.log2 u - 52

/-- The magnitude `n / d` units rounded to a binary64 magnitude. -/
def roundUnits (n d : Nat) : Nat :=
  halfEven n (d * 2 ^ lastPlace (n / d)) * 2 ^ lastPlace (n / d)

/-- A finite binary64 value: a sign and a representable magnitude. -/
structure Float64 where
  neg : Bool
  units : Nat
  rounded : roundUnits units 1 = units
  finite : units < 2 ^ 2098
  deriving DecidableEq

theorem halfEven_le (n d : Nat) : halfEven n d ≤ n / d + 1 := by
  unfold halfEven
  split
  · omega
  · split
    · omega
    · split <;> omega

theorem halfEven_mul (k : Nat) {d : Nat} (hd : 0 < d) : halfEven (k * d) d = k := by
  simp [halfEven, Nat.mul_div_cancel k hd, hd]

theorem halfEven_scale (n d : Nat) {k : Nat} (hk : 0 < k) :
    halfEven (n * k) (d * k) = halfEven n d := by
  have hq : n * k / (d * k) = n / d := Nat.mul_div_mul_right n d hk
  have hr : n * k % (d * k) = n % d * k := Nat.mul_mod_mul_right k n d
  have h₁ : 2 * (n % d * k) < d * k ↔ 2 * (n % d) < d := by
    rw [← Nat.mul_assoc]
    exact Nat.mul_lt_mul_right hk
  have h₂ : d * k < 2 * (n % d * k) ↔ d < 2 * (n % d) := by
    rw [← Nat.mul_assoc]
    exact Nat.mul_lt_mul_right hk
  simp only [halfEven, hq, hr, h₁, h₂]

/-- Rounding sees the quotient only, not the fraction that presents it. -/
theorem roundUnits_scale (n d : Nat) {k : Nat} (hk : 0 < k) :
    roundUnits (n * k) (d * k) = roundUnits n d := by
  have hq : n * k / (d * k) = n / d := Nat.mul_div_mul_right n d hk
  unfold roundUnits
  rw [hq, show d * k * 2 ^ lastPlace (n / d) = d * 2 ^ lastPlace (n / d) * k by ring,
    halfEven_scale _ _ hk]

theorem roundUnits_congr {n d n' d' : Nat} (hd : 0 < d) (hd' : 0 < d')
    (h : n * d' = n' * d) : roundUnits n d = roundUnits n' d' := by
  rw [← roundUnits_scale n d hd', h, Nat.mul_comm d d', roundUnits_scale n' d' hd]

/-- Magnitudes whose last place divides them are representable. -/
theorem roundUnits_of_dvd {u : Nat} (h : 2 ^ lastPlace u ∣ u) : roundUnits u 1 = u := by
  obtain ⟨k, hk⟩ := h
  unfold roundUnits
  rw [Nat.div_one, Nat.one_mul]
  generalize lastPlace u = s at *
  have hm : halfEven u (2 ^ s) = k := by
    rw [hk, Nat.mul_comm]
    exact halfEven_mul k (by positivity)
  rw [hm, Nat.mul_comm, ← hk]

/-- The rounded significand keeps 53 bits, or has carried to the power above. -/
theorem halfEven_lastPlace_le (n : Nat) {d : Nat} (_ : 0 < d) :
    halfEven n (d * 2 ^ lastPlace (n / d)) ≤ 2 ^ 53 := by
  have hlt : n / d < 2 ^ (lastPlace (n / d) + 53) := by
    have h : n / d < 2 ^ (Nat.log2 (n / d) + 1) := Nat.lt_log2_self
    exact h.trans_le (Nat.pow_le_pow_right (by decide) (by unfold lastPlace; omega))
  have hq : n / (d * 2 ^ lastPlace (n / d)) < 2 ^ 53 := by
    rw [← Nat.div_div_eq_div_mul]
    apply (Nat.div_lt_iff_lt_mul (by positivity)).mpr
    rwa [← Nat.pow_add, Nat.add_comm 53]
  have := halfEven_le n (d * 2 ^ lastPlace (n / d))
  omega

/-- A rounded magnitude is representable: rounding is idempotent. -/
theorem roundUnits_idem (n : Nat) {d : Nat} (hd : 0 < d) :
    roundUnits (roundUnits n d) 1 = roundUnits n d := by
  have hm := halfEven_lastPlace_le n hd
  unfold roundUnits at *
  generalize lastPlace (n / d) = s at *
  generalize halfEven n (d * 2 ^ s) = m at *
  apply roundUnits_of_dvd
  by_cases hc : m = 2 ^ 53
  · rw [hc, ← Nat.pow_add, lastPlace, Nat.log2_two_pow]
    exact Nat.pow_dvd_pow 2 (by omega)
  · by_cases hz : m = 0
    · simp [hz]
    · have hlog : Nat.log2 (m * 2 ^ s) < 53 + s := by
        apply (Nat.log2_lt (by positivity)).mpr
        rw [Nat.pow_add]
        exact Nat.mul_lt_mul_of_pos_right (by omega) (by positivity)
      exact (Nat.pow_dvd_pow 2 (by unfold lastPlace; omega)).trans (Nat.dvd_mul_left _ m)

theorem roundUnits_le (n d : Nat) : roundUnits n d ≤ 2 * (n / d) + 1 := by
  have hs : 2 ^ lastPlace (n / d) ≤ n / d + 1 := by
    by_cases hz : n / d = 0
    · simp [hz, lastPlace]
    · have hlog : 2 ^ Nat.log2 (n / d) ≤ n / d := Nat.log2_self_le hz
      have hle : 2 ^ lastPlace (n / d) ≤ 2 ^ Nat.log2 (n / d) :=
        Nat.pow_le_pow_right (by decide) (by unfold lastPlace; omega)
      omega
  have hh := halfEven_le n (d * 2 ^ lastPlace (n / d))
  rw [← Nat.div_div_eq_div_mul] at hh
  unfold roundUnits
  generalize lastPlace (n / d) = s at *
  calc halfEven n (d * 2 ^ s) * 2 ^ s ≤ (n / d / 2 ^ s + 1) * 2 ^ s := Nat.mul_le_mul_right _ hh
    _ = n / d / 2 ^ s * 2 ^ s + 2 ^ s := by ring
    _ ≤ n / d + (n / d + 1) := Nat.add_le_add (Nat.div_mul_le_self _ _) hs
    _ = 2 * (n / d) + 1 := by ring

/-! ## Decimal numbers -/

/-- Numerator and denominator, in units, of `digits * 10 ^ exp`. -/
def decimalNum (digits : Nat) (exp : Int) : Nat := digits * 10 ^ exp.toNat * 2 ^ 1074
def decimalDen (exp : Int) : Nat := 10 ^ (-exp).toNat

theorem decimalDen_pos (exp : Int) : 0 < decimalDen exp := by unfold decimalDen; positivity

/-- `strconv.ParseFloat` on a decimal number; `none` is the range error. -/
def ofDecimal (neg : Bool) (digits : Nat) (exp : Int) : Option Float64 :=
  let u := roundUnits (decimalNum digits exp) (decimalDen exp)
  if h : u < 2 ^ 2098 then
    some ⟨neg, u, roundUnits_idem _ (decimalDen_pos exp), h⟩
  else none

theorem ofDecimal_units {neg : Bool} {digits : Nat} {exp : Int} {x : Float64}
    (h : ofDecimal neg digits exp = some x) :
    x.units = roundUnits (decimalNum digits exp) (decimalDen exp) := by
  simp only [ofDecimal] at h
  split at h
  · cases h
    rfl
  · cases h

theorem roundUnits_zero (exp : Int) : roundUnits (decimalNum 0 exp) (decimalDen exp) = 0 := by
  simp only [roundUnits, halfEven, decimalNum, Nat.zero_mul, Nat.zero_div, Nat.zero_mod]
  split <;> simp

/-- Zero digits spell a zero, of either sign. -/
theorem ofDecimal_zero {x : Float64} (h : x.units = 0) (exp : Int) :
    ofDecimal x.neg 0 exp = some x := by
  obtain ⟨neg, units, hr, hf⟩ := x
  cases (show units = 0 from h)
  simp only [ofDecimal, roundUnits_zero]
  rw [dif_pos hf]

/-- Trailing zeros may be moved between the digits and the exponent. -/
theorem ofDecimal_shift (neg : Bool) (digits a : Nat) (exp : Int) :
    ofDecimal neg (digits * 10 ^ a) exp = ofDecimal neg digits (exp + a) := by
  have h : roundUnits (decimalNum (digits * 10 ^ a) exp) (decimalDen exp) =
      roundUnits (decimalNum digits (exp + a)) (decimalDen (exp + a)) := by
    apply roundUnits_congr (decimalDen_pos _) (decimalDen_pos _)
    unfold decimalNum decimalDen
    have he : a + exp.toNat + (-(exp + a)).toNat = (exp + a).toNat + (-exp).toNat := by omega
    calc digits * 10 ^ a * 10 ^ exp.toNat * 2 ^ 1074 * 10 ^ (-(exp + a)).toNat
        = digits * 2 ^ 1074 * 10 ^ (a + exp.toNat + (-(exp + a)).toNat) := by
          rw [Nat.pow_add, Nat.pow_add]; ring
      _ = digits * 10 ^ (exp + a).toNat * 2 ^ 1074 * 10 ^ (-exp).toNat := by
          rw [he, Nat.pow_add]; ring
  simp only [ofDecimal, h]

/-- The exact decimal digits of a value; their exponent is -1074. -/
def exactDigits (x : Float64) : Nat := x.units * 5 ^ 1074

theorem ofDecimal_exactDigits (x : Float64) :
    ofDecimal x.neg (exactDigits x) (-1074) = some x := by
  have h : roundUnits (decimalNum (exactDigits x) (-1074)) (decimalDen (-1074)) = x.units := by
    refine Eq.trans (roundUnits_congr (decimalDen_pos _) Nat.one_pos ?_) x.rounded
    have h₁ : (-1074 : Int).toNat = 0 := by decide
    have h₂ : (-(-1074 : Int)).toNat = 1074 := by decide
    have h₃ : (10 : Nat) ^ 1074 = 5 ^ 1074 * 2 ^ 1074 := by rw [← Nat.mul_pow]
    simp only [decimalNum, decimalDen, exactDigits, h₁, h₂, h₃]
    ring
  simp only [ofDecimal, h, dif_pos x.finite]

/-- The decimal with `n` significant digits next to a value that reads back as
the value: the nearer of the two neighbours, and of equally near ones the even one. -/
def pickDigits (x : Float64) (n : Nat) : Option (Nat × Int) :=
  let exact := exactDigits x
  let cut := (Nat.digits 10 exact).length - n
  let c := exact / 10 ^ cut
  let e : Int := cut - 1074
  let low := ofDecimal x.neg c e = some x
  let high := ofDecimal x.neg (c + 1) e = some x
  let nearer := 2 * (exact % 10 ^ cut) < 10 ^ cut ∨ 2 * (exact % 10 ^ cut) = 10 ^ cut ∧ c % 2 = 0
  if low ∧ (¬ high ∨ nearer) then some (c, e)
  else if high then some (c + 1, e) else none

/-- The shortest decimal that reads back as the value (precision -1). -/
def shortest (x : Float64) : Nat × Int :=
  ((List.range (Nat.digits 10 (exactDigits x)).length).findSome? fun n => pickDigits x (n + 1)).getD
    (exactDigits x, -1074)

theorem pickDigits_sound {x : Float64} {n : Nat} {p : Nat × Int}
    (h : pickDigits x n = some p) : ofDecimal x.neg p.1 p.2 = some x := by
  simp only [pickDigits] at h
  split at h
  · rename_i hl
    cases h
    exact hl.1
  · split at h
    · rename_i hh
      cases h
      exact hh
    · cases h

/-- Reading the shortest decimal back gives the value again. -/
theorem ofDecimal_shortest (x : Float64) :
    ofDecimal x.neg (shortest x).1 (shortest x).2 = some x := by
  unfold shortest
  cases h : (List.range (Nat.digits 10 (exactDigits x)).length).findSome?
      fun n => pickDigits x (n + 1) with
  | none => exact ofDecimal_exactDigits x
  | some p =>
    obtain ⟨n, -, hp⟩ := List.exists_of_findSome?_eq_some h
    exact pickDigits_sound hp

/-- The conversion `float64(i)` of a machine integer. -/
def ofInt64 (i : Int64) : Float64 where
  neg := i.toInt < 0
  units := roundUnits (decimalNum i.toInt.natAbs 0) (decimalDen 0)
  rounded := roundUnits_idem _ (decimalDen_pos 0)
  finite := by
    have hi : i.toInt.natAbs ≤ 2 ^ 63 := by
      have := i.le_toInt
      have := i.toInt_lt
      omega
    have hn : decimalNum i.toInt.natAbs 0 / decimalDen 0 ≤ 2 ^ 63 * 2 ^ 1074 := by
      have h₁ : decimalDen 0 = 1 := rfl
      have h₂ : decimalNum i.toInt.natAbs 0 = i.toInt.natAbs * 2 ^ 1074 := by simp [decimalNum]
      rw [h₁, h₂, Nat.div_one]
      exact Nat.mul_le_mul_right _ hi
    have hle := roundUnits_le (decimalNum i.toInt.natAbs 0) (decimalDen 0)
    have hb : 2 * (2 ^ 63 * 2 ^ 1074) + 1 < (2 : Nat) ^ 2098 := by decide +kernel
    omega

theorem ofDecimal_int64 (i : Int64) :
    ofDecimal (i.toInt < 0) i.toInt.natAbs 0 = some (ofInt64 i) := by
  simp only [ofDecimal]
  exact dif_pos (ofInt64 i).finite

/-! ## Integers and sums -/

/-- `math.Trunc(x) == x`. -/
def Float64.isWhole (x : Float64) : Bool := x.units % 2 ^ 1074 = 0

/-- The integer part of a value. -/
def Float64.trunc (x : Float64) : Int :=
  if x.neg then -((x.units / 2 ^ 1074 : Nat) : Int) else (x.units / 2 ^ 1074 : Nat)

/-- The conversion `int(x)` on amd64: what is out of range becomes -2^63. -/
def Float64.toInt64 (x : Float64) : Int64 :=
  if -2 ^ 63 ≤ x.trunc ∧ x.trunc < 2 ^ 63 then Int64.ofInt x.trunc else Int64.minValue

/-- What arithmetic on finite values may come to. -/
inductive Extended where
  | finite (x : Float64)
  | inf (neg : Bool)
  | nan
  deriving DecidableEq

def Float64.signed (x : Float64) : Int := if x.neg then -(x.units : Int) else x.units

/-- The value nearest to a number of units, `neg` for the sign of a zero. -/
def ofUnits (neg : Bool) (v : Int) : Extended :=
  let sign := if v = 0 then neg else decide (v < 0)
  let u := roundUnits v.natAbs 1
  if h : u < 2 ^ 2098 then .finite ⟨sign, u, roundUnits_idem _ Nat.one_pos, h⟩ else .inf sign

/-- Addition; a sum of zeros is negative if both are. -/
def Extended.add : Extended → Extended → Extended
  | .finite x, .finite y => ofUnits (x.neg && y.neg) (x.signed + y.signed)
  | .nan, _ => .nan
  | _, .nan => .nan
  | .inf a, .inf b => if a = b then .inf a else .nan
  | .inf a, .finite _ => .inf a
  | .finite _, .inf b => .inf b

end GoFloat64
