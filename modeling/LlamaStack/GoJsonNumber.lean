import LlamaStack.GoJson
import LlamaStack.GoFloat64

/-!
# JSON numbers

A number as a Go `int` or `float64`, and the spellings that `encoding/json`
writes for them. Reading a written number gives the number back.
-/
namespace GoJson

open GoBytes GoFloat64

set_option maxRecDepth 4000

/-! ## Decimal digits -/

/-- The value of a string of digits, most significant first. -/
def digitsVal (ds : List Digit) : Nat := Nat.ofDigits 10 (ds.map Fin.val).reverse

/-- The digits of a natural number; none for zero. -/
def decDigits (n : Nat) : List Digit := (Nat.digits 10 n).reverse.map (Fin.ofNat 10)

theorem digitsVal_decDigits (n : Nat) : digitsVal (decDigits n) = n := by
  have h : ((Nat.digits 10 n).reverse.map (Fin.ofNat 10)).map Fin.val = (Nat.digits 10 n).reverse := by
    rw [List.map_map]
    conv_rhs => rw [← List.map_id (Nat.digits 10 n).reverse]
    refine List.map_congr_left fun d hd => ?_
    have hlt : d < 10 := Nat.digits_lt_base (by decide) (List.mem_reverse.mp hd)
    simp [Fin.ofNat, Nat.mod_eq_of_lt hlt]
  rw [digitsVal, decDigits, h, List.reverse_reverse, Nat.ofDigits_digits]

theorem digitsVal_append (a b : List Digit) :
    digitsVal (a ++ b) = digitsVal a * 10 ^ b.length + digitsVal b := by
  simp only [digitsVal, List.map_append, List.reverse_append, Nat.ofDigits_append]
  simp only [List.length_reverse, List.length_map]
  ring

theorem digitsVal_zeros (k : Nat) : digitsVal (List.replicate k 0) = 0 := by
  induction k with
  | zero => rfl
  | succ k ih =>
    rw [List.replicate_succ', digitsVal_append, ih]
    rfl

theorem decDigits_ne_nil {n : Nat} (h : n ≠ 0) : decDigits n ≠ [] := by
  simpa [decDigits, Nat.digits_eq_nil_iff_eq_zero] using h

theorem decDigits_head {n : Nat} : (decDigits n).head? ≠ some 0 := by
  intro h
  obtain ⟨ds, hds⟩ : ∃ ds, decDigits n = 0 :: ds := by
    cases hd : decDigits n with
    | nil => simp [hd] at h
    | cons d ds =>
      simp only [hd, List.head?_cons, Option.some.injEq] at h
      exact ⟨ds, by rw [h]⟩
  have hz : n ≠ 0 := by
    rintro rfl
    simp [decDigits] at hds
  have hl := Nat.getLast_digit_ne_zero 10 hz
  have hne : Nat.digits 10 n ≠ [] := Nat.digits_ne_nil_iff_ne_zero.mpr hz
  have hlt : (Nat.digits 10 n).getLast hne < 10 :=
    Nat.digits_lt_base (by decide) (List.getLast_mem hne)
  have hh : (decDigits n).head? = some (Fin.ofNat 10 ((Nat.digits 10 n).getLast hne)) := by
    simp [decDigits, List.head?_reverse, List.getLast?_eq_some_getLast hne]
  rw [h, Option.some.injEq] at hh
  have hv := congrArg Fin.val hh
  simp only [Fin.ofNat, Nat.mod_eq_of_lt hlt] at hv
  exact hl hv.symm

/-! ## Integers -/

/-- The number spelled by digits alone. -/
def plainNum (neg : Bool) (n : Nat) : Num :=
  if h : n = 0 then ⟨neg, [0], none, none, zero_ok⟩
  else ⟨neg, decDigits n, none, none, decDigits_ne_nil h, fun h0 => absurd h0 decDigits_head⟩

/-- `strconv.AppendInt`. -/
def formatInt (i : Int64) : Num := plainNum (i.toInt < 0) i.toInt.natAbs

/-- The integer that a literal without point and exponent spells. -/
def integerOf (n : Num) : Option Int :=
  match n.frac, n.exp with
  | none, none => some (if n.neg then -(digitsVal n.int : Int) else digitsVal n.int)
  | _, _ => none

/-- `strconv.ParseInt(_, 10, 64)`: an integer literal, in range. -/
def parseInt (n : Num) : Option Int64 :=
  (integerOf n).bind fun v => if -2 ^ 63 ≤ v ∧ v < 2 ^ 63 then some (Int64.ofInt v) else none

theorem plainNum_spec (neg : Bool) (n : Nat) :
    (plainNum neg n).neg = neg ∧ digitsVal (plainNum neg n).int = n ∧
      (plainNum neg n).frac = none ∧ (plainNum neg n).exp = none := by
  unfold plainNum
  split
  · rename_i h
    subst h
    exact ⟨rfl, rfl, rfl, rfl⟩
  · exact ⟨rfl, digitsVal_decDigits n, rfl, rfl⟩

theorem integerOf_formatInt (i : Int64) : integerOf (formatInt i) = some i.toInt := by
  obtain ⟨h₁, h₂, h₃, h₄⟩ := plainNum_spec (i.toInt < 0) i.toInt.natAbs
  have hv : (if i.toInt < 0 then -(i.toInt.natAbs : Int) else i.toInt.natAbs) = i.toInt := by
    split <;> omega
  simp only [integerOf, formatInt, h₁, h₂, h₃, h₄, decide_eq_true_eq, hv]

@[simp] theorem parseInt_formatInt (i : Int64) : parseInt (formatInt i) = some i := by
  rw [parseInt, integerOf_formatInt, Option.bind_some, if_pos ⟨i.le_toInt, i.toInt_lt⟩,
    Int64.ofInt_toInt]

theorem integerOf_of_parseInt {n : Num} {i : Int64} (h : parseInt n = some i) :
    integerOf n = some i.toInt := by
  obtain ⟨v, hv, h⟩ := Option.bind_eq_some_iff.mp h
  split at h
  · rename_i hr
    cases h
    rw [hv, Int64.toInt_ofInt_of_le hr.1 hr.2]
  · cases h

/-! ## Floats -/

def Exponent.val (e : Exponent) : Int :=
  if e.sign = some true then -(digitsVal e.digits.val : Int) else digitsVal e.digits.val

def fracDigits : Option Digits → List Digit
  | none => []
  | some ds => ds.val

def expVal : Option Exponent → Int
  | none => 0
  | some e => e.val

/-- What is made of the sign, the digits and the exponent of a literal. -/
def Num.read {γ : Type} (f : Bool → Nat → Int → γ) (n : Num) : γ :=
  f n.neg (digitsVal (n.int ++ fracDigits n.frac)) (expVal n.exp - (fracDigits n.frac).length)

/-- Zeros at the end count as digits or in the exponent alike. -/
def Shifts {γ : Type} (f : Bool → Nat → Int → γ) : Prop :=
  ∀ neg digits (a : Nat) exp, f neg (digits * 10 ^ a) exp = f neg digits (exp + a)

/-- `strconv.ParseFloat` on a number literal; `none` is the range error. -/
def parseFloat (n : Num) : Option Float64 :=
  ofDecimal n.neg (digitsVal (n.int ++ fracDigits n.frac))
    (expVal n.exp - (fracDigits n.frac).length)

def optDigits (ds : List Digit) : Option Digits := if h : ds ≠ [] then some ⟨ds, h⟩ else none

@[simp] theorem fracDigits_optDigits (ds : List Digit) : fracDigits (optDigits ds) = ds := by
  unfold optDigits
  split
  · rfl
  · rename_i h
    simpa [fracDigits] using (not_not.mp h).symm

/-- Digits without leading or trailing zeros, and the exponent of the last. -/
structure Decimal where
  digits : List Digit
  exp : Int
  head_ne : digits.head? ≠ some 0
  ne_nil : digits ≠ []

/-- The exponent part as `%e` writes it, less a leading zero. -/
def formatExp (e : Int) : Exponent :=
  if h : e.natAbs = 0 then ⟨false, some false, [0], by simp⟩
  else ⟨false, some (e < 0), decDigits e.natAbs, decDigits_ne_nil h⟩

theorem formatExp_val (e : Int) : (formatExp e).val = e := by
  unfold formatExp
  split
  · rename_i h
    have he : e = 0 := by omega
    simp [Exponent.val, he, digitsVal]
  · simp only [Exponent.val, digitsVal_decDigits, Option.some.injEq, decide_eq_true_eq]
    split <;> omega

def Decimal.scientific (neg : Bool) (d : Decimal) : Num where
  neg := neg
  int := [d.digits.head d.ne_nil]
  frac := optDigits d.digits.tail
  exp := some (formatExp (d.exp + (d.digits.length - 1 : Nat)))
  int_ok := ⟨by simp, fun h => by simpa using h⟩

theorem Decimal.head_append (d : Decimal) (t : List Digit) : (d.digits ++ t).head? ≠ some 0 := by
  obtain ⟨x, xs, h⟩ := List.exists_cons_of_ne_nil d.ne_nil
  have h0 := d.head_ne
  simpa [h] using h0

theorem Decimal.head_take (d : Decimal) {k : Nat} (hk : k ≠ 0) :
    (d.digits.take k).head? ≠ some 0 := by
  rw [List.head?_take, if_neg hk]
  exact d.head_ne

/-- The layout of `%f`: zeros behind, a point inside, or zeros in front. -/
def Decimal.positional (neg : Bool) (d : Decimal) : Num :=
  let k := (-d.exp).toNat
  if hk : k = 0 then
    ⟨neg, d.digits ++ List.replicate d.exp.toNat 0, none, none,
      by simp [d.ne_nil], fun h => absurd h (d.head_append _)⟩
  else if h : k < d.digits.length then
    ⟨neg, d.digits.take (d.digits.length - k), optDigits (d.digits.drop (d.digits.length - k)), none,
      by simp [List.take_eq_nil_iff, d.ne_nil]; omega, fun h0 => absurd h0 (d.head_take (by omega))⟩
  else
    ⟨neg, [0], optDigits (List.replicate (k - d.digits.length) 0 ++ d.digits), none, zero_ok⟩

section Read

variable {γ : Type} {f : Bool → Nat → Int → γ}

theorem read_scientific (neg : Bool) (d : Decimal) :
    (d.scientific neg).read f = f neg (digitsVal d.digits) d.exp := by
  have hd : [d.digits.head d.ne_nil] ++ d.digits.tail = d.digits := by simp
  have he : d.exp + (d.digits.length - 1 : Nat) - d.digits.tail.length = d.exp := by
    rw [List.length_tail]
    omega
  simp only [Num.read, Decimal.scientific, fracDigits_optDigits, expVal, formatExp_val, hd, he]

theorem read_positional (hf : Shifts f) (neg : Bool) (d : Decimal) :
    (d.positional neg).read f = f neg (digitsVal d.digits) d.exp := by
  unfold Decimal.positional
  simp only
  split
  · rename_i hk
    have he : (0 : Int) - (0 : Nat) + (d.exp.toNat : Nat) = d.exp := by omega
    simp only [Num.read, fracDigits, expVal, List.append_nil, digitsVal_append, digitsVal_zeros,
      List.length_replicate, Nat.add_zero, List.length_nil, hf neg _ _ _, he]
  · rename_i hk
    split
    · rename_i h
      have he : (0 : Int) - (d.digits.drop (d.digits.length - (-d.exp).toNat)).length = d.exp := by
        rw [List.length_drop]
        omega
      simp only [Num.read, fracDigits_optDigits, expVal, List.take_append_drop, he]
    · rename_i h
      have he : (0 : Int) - (List.replicate ((-d.exp).toNat - d.digits.length) (0 : Digit) ++
          d.digits).length = d.exp := by
        rw [List.length_append, List.length_replicate]
        omega
      have hv : digitsVal ([0] ++ (List.replicate ((-d.exp).toNat - d.digits.length) 0 ++ d.digits)) =
          digitsVal d.digits := by
        rw [← List.append_assoc, digitsVal_append, show [(0 : Digit)] = List.replicate 1 0 from rfl,
          List.replicate_append_replicate, digitsVal_zeros]
        omega
      simp only [Num.read, fracDigits_optDigits, expVal, hv, he]

end Read

/-- A decimal without its trailing zeros. -/
def trimZeros (n : Nat) (e : Int) (h : n ≠ 0) : Decimal where
  digits := (decDigits n).rdropWhile (· = 0)
  exp := e + ((decDigits n).length - ((decDigits n).rdropWhile (· = 0)).length : Nat)
  head_ne := by
    intro h0
    obtain ⟨t, ht⟩ := List.rdropWhile_prefix (· = (0 : Digit)) (l := decDigits n)
    apply decDigits_head (n := n)
    rw [← ht, List.head?_append, h0]
    rfl
  ne_nil := by
    intro h0
    have hz : ∀ d ∈ decDigits n, d = 0 := by
      simpa [List.rdropWhile_eq_nil_iff] using h0
    obtain ⟨d, ds, hd⟩ := List.exists_cons_of_ne_nil (decDigits_ne_nil h)
    apply decDigits_head (n := n)
    rw [hd, hz d (by simp [hd])]
    rfl

theorem trimZeros_value {γ : Type} {f : Bool → Nat → Int → γ} (hf : Shifts f) (neg : Bool) (n : Nat)
    (e : Int) (h : n ≠ 0) :
    f neg (digitsVal (trimZeros n e h).digits) (trimZeros n e h).exp = f neg n e := by
  have ht := List.rdropWhile_append_rtakeWhile (p := fun d : Digit => decide (d = 0))
    (l := decDigits n)
  have hz : ∀ d ∈ (decDigits n).rtakeWhile (· = 0), d = 0 := fun d hd => by
    simpa using List.mem_rtakeWhile_imp hd
  replace hz := List.eq_replicate_of_mem hz
  generalize (decDigits n).rtakeWhile (· = 0) = t at *
  have hl : (decDigits n).length - ((decDigits n).rdropWhile (· = 0)).length = t.length := by
    rw [← congrArg List.length ht, List.length_append]
    omega
  have hn : n = digitsVal ((decDigits n).rdropWhile (· = 0)) * 10 ^ t.length := by
    conv_lhs => rw [← digitsVal_decDigits n, ← ht, digitsVal_append, hz, digitsVal_zeros]
    simp
  simp only [trimZeros, hl]
  rw [← hf, ← hn]

theorem shortest_ne_zero {x : Float64} (h : x.units ≠ 0) : (shortest x).1 ≠ 0 := by
  intro h0
  have hx := ofDecimal_units (ofDecimal_shortest x)
  rw [h0, roundUnits_zero] at hx
  exact h hx

/-- The bounds outside which a float is written with an exponent: 1e-6 and 1e21. -/
def lowUnits : Nat := roundUnits (decimalNum 1 (-6)) (decimalDen (-6))
def highUnits : Nat := 10 ^ 21 * 2 ^ 1074

/-- The float encoder of `encoding/json`. -/
def formatFloat (x : Float64) : Num :=
  if h : x.units = 0 then plainNum x.neg 0
  else
    let d := trimZeros (shortest x).1 (shortest x).2 (shortest_ne_zero h)
    if x.units < lowUnits ∨ highUnits ≤ x.units then d.scientific x.neg else d.positional x.neg

theorem read_formatFloat {γ : Type} {f : Bool → Nat → Int → γ} (hf : Shifts f) {x : Float64}
    (h : x.units ≠ 0) : (formatFloat x).read f = f x.neg (shortest x).1 (shortest x).2 := by
  rw [formatFloat, dif_neg h]
  simp only
  split
  · rw [read_scientific, trimZeros_value hf]
  · rw [read_positional hf, trimZeros_value hf]

/-- A float survives being written and read. -/
@[simp] theorem parseFloat_formatFloat (x : Float64) : parseFloat (formatFloat x) = some x := by
  by_cases h : x.units = 0
  · rw [formatFloat, dif_pos h]
    simpa [parseFloat, plainNum, fracDigits, expVal, digitsVal] using ofDecimal_zero h 0
  · exact (read_formatFloat ofDecimal_shift h).trans (ofDecimal_shortest x)

/-- A written integer reads as the float nearest to it. -/
@[simp] theorem parseFloat_formatInt (i : Int64) : parseFloat (formatInt i) = some (ofInt64 i) := by
  obtain ⟨h₁, h₂, h₃, h₄⟩ := plainNum_spec (i.toInt < 0) i.toInt.natAbs
  have h := ofDecimal_int64 i
  simpa [parseFloat, formatInt, h₁, h₂, h₃, h₄, fracDigits, expVal] using h

end GoJson
