import LlamaStack.GoBytes

/-!
# UTF-8

Go's `utf8.DecodeRune` and `utf8.EncodeRune` on lists of bytes. Decoding is
total: a byte that starts no valid sequence is consumed alone. Overlong forms,
surrogates and values above U+10FFFF are not valid sequences.
-/
namespace GoUtf8

open GoBytes

def isCont (b : UInt8) : Bool := 0x80 ≤ b.toNat && b.toNat < 0xC0

/-- The replacement character U+FFFD. -/
def runeError : Char := Char.ofNat 0xFFFD

def rune2 (a b : UInt8) : Option Char :=
  let n := (a.toNat - 0xC0) * 64 + (b.toNat - 0x80)
  if 0xC0 ≤ a.toNat ∧ a.toNat < 0xE0 ∧ isCont b ∧ 0x80 ≤ n then some (Char.ofNat n) else none

def rune3 (a b c : UInt8) : Option Char :=
  let n := (a.toNat - 0xE0) * 4096 + (b.toNat - 0x80) * 64 + (c.toNat - 0x80)
  if 0xE0 ≤ a.toNat ∧ a.toNat < 0xF0 ∧ isCont b ∧ isCont c ∧ 0x800 ≤ n ∧ (n < 0xD800 ∨ 0xDFFF < n)
  then some (Char.ofNat n) else none

def rune4 (a b c d : UInt8) : Option Char :=
  let n := (a.toNat - 0xF0) * 262144 + (b.toNat - 0x80) * 4096 + (c.toNat - 0x80) * 64 +
    (d.toNat - 0x80)
  if 0xF0 ≤ a.toNat ∧ a.toNat < 0xF8 ∧ isCont b ∧ isCont c ∧ isCont d ∧ 0x10000 ≤ n ∧ n < 0x110000
  then some (Char.ofNat n) else none

/-- `utf8.DecodeRune` on a string that starts with `a`: the rune, `none` for a
byte of invalid UTF-8, and how many further bytes it takes. -/
def decodeRune (a : UInt8) (r : Bytes) : Option Char × Nat :=
  if a.toNat < 0x80 then (some (Char.ofNat a.toNat), 0)
  else match r with
  | [] => (none, 0)
  | b :: r₂ =>
    match rune2 a b with
    | some x => (some x, 1)
    | none =>
      match r₂ with
      | [] => (none, 0)
      | c :: r₃ =>
        match rune3 a b c with
        | some x => (some x, 2)
        | none =>
          match r₃ with
          | [] => (none, 0)
          | d :: _ =>
            match rune4 a b c d with
            | some x => (some x, 3)
            | none => (none, 0)

/-- The runes of a byte string after `skip` bytes that are already consumed. -/
def decodeFrom : Nat → Bytes → List (Option Char)
  | _, [] => []
  | skip + 1, _ :: r => decodeFrom skip r
  | 0, a :: r => (decodeRune a r).1 :: decodeFrom (decodeRune a r).2 r

/-- The runes of a byte string; `none` stands for one byte of invalid UTF-8. -/
def decodeRunes (s : Bytes) : List (Option Char) := decodeFrom 0 s

/-- The text that ranging over a byte string yields. -/
def decodeText (s : Bytes) : Text := (decodeRunes s).map fun r => r.getD runeError

def encodeRune (c : Char) : Bytes :=
  let n := c.toNat
  if n < 0x80 then [UInt8.ofNat n]
  else if n < 0x800 then [UInt8.ofNat (0xC0 + n / 64), UInt8.ofNat (0x80 + n % 64)]
  else if n < 0x10000 then
    [UInt8.ofNat (0xE0 + n / 4096), UInt8.ofNat (0x80 + n / 64 % 64), UInt8.ofNat (0x80 + n % 64)]
  else
    [UInt8.ofNat (0xF0 + n / 262144), UInt8.ofNat (0x80 + n / 4096 % 64),
      UInt8.ofNat (0x80 + n / 64 % 64), UInt8.ofNat (0x80 + n % 64)]

/-- The bytes of a text. -/
def encodeText (t : Text) : Bytes := t.flatMap encodeRune

@[simp] theorem decodeRunes_nil : decodeRunes [] = [] := rfl
@[simp] theorem decodeText_nil : decodeText [] = [] := rfl
@[simp] theorem encodeText_nil : encodeText [] = [] := rfl
@[simp] theorem encodeText_cons (c : Char) (t : Text) :
    encodeText (c :: t) = encodeRune c ++ encodeText t := rfl

theorem toNat_ofNat {n : Nat} (h : n < 256) : (UInt8.ofNat n).toNat = n := by
  simp [Nat.mod_eq_of_lt h]

theorem char_bounds (c : Char) : c.toNat < 0xD800 ∨ (0xDFFF < c.toNat ∧ c.toNat < 0x110000) := by
  rcases c.valid with h | h
  · exact .inl h
  · exact .inr h

/-- An encoded rune is read back from the front of any byte string. -/
theorem decodeRunes_encodeRune (c : Char) (s : Bytes) :
    decodeRunes (encodeRune c ++ s) = some c :: decodeRunes s := by
  have hc := char_bounds c
  have hn : Char.ofNat c.toNat = c := Char.ofNat_toNat c
  unfold encodeRune
  generalize c.toNat = n at *
  simp only
  split
  · rename_i h
    have ha := toNat_ofNat (show n < 256 by omega)
    simp [decodeRunes, decodeFrom, decodeRune, ha, h, hn]
  · split
    · rename_i h₁ h₂
      have ha := toNat_ofNat (show 0xC0 + n / 64 < 256 by omega)
      have hb := toNat_ofNat (show 0x80 + n % 64 < 256 by omega)
      generalize UInt8.ofNat (0xC0 + n / 64) = a at *
      generalize UInt8.ofNat (0x80 + n % 64) = b at *
      have hr : rune2 a b = some c := by
        simp only [rune2, isCont, ha, hb]
        have he : (0xC0 + n / 64 - 0xC0) * 64 + (0x80 + n % 64 - 0x80) = n := by omega
        rw [he, hn, if_pos]
        simp only [Bool.and_eq_true, decide_eq_true_eq]
        omega
      have hd : decodeRune a (b :: s) = (some c, 1) := by
        simp only [decodeRune, hr]
        rw [if_neg (by omega)]
      simp [decodeRunes, decodeFrom, hd]
    · split
      · rename_i h₁ h₂ h₃
        have ha := toNat_ofNat (show 0xE0 + n / 4096 < 256 by omega)
        have hb := toNat_ofNat (show 0x80 + n / 64 % 64 < 256 by omega)
        have hx := toNat_ofNat (show 0x80 + n % 64 < 256 by omega)
        generalize UInt8.ofNat (0xE0 + n / 4096) = a at *
        generalize UInt8.ofNat (0x80 + n / 64 % 64) = b at *
        generalize UInt8.ofNat (0x80 + n % 64) = x at *
        have hr₂ : rune2 a b = none := by
          simp only [rune2, ha]
          rw [if_neg (by omega)]
        have hr : rune3 a b x = some c := by
          simp only [rune3, isCont, ha, hb, hx]
          have he : (0xE0 + n / 4096 - 0xE0) * 4096 + (0x80 + n / 64 % 64 - 0x80) * 64 +
              (0x80 + n % 64 - 0x80) = n := by omega
          rw [he, hn, if_pos]
          simp only [Bool.and_eq_true, decide_eq_true_eq]
          omega
        have hd : decodeRune a (b :: x :: s) = (some c, 2) := by
          simp only [decodeRune, hr₂, hr]
          rw [if_neg (by omega)]
        simp [decodeRunes, decodeFrom, hd]
      · rename_i h₁ h₂ h₃
        have ha := toNat_ofNat (show 0xF0 + n / 262144 < 256 by omega)
        have hb := toNat_ofNat (show 0x80 + n / 4096 % 64 < 256 by omega)
        have hx := toNat_ofNat (show 0x80 + n / 64 % 64 < 256 by omega)
        have hy := toNat_ofNat (show 0x80 + n % 64 < 256 by omega)
        generalize UInt8.ofNat (0xF0 + n / 262144) = a at *
        generalize UInt8.ofNat (0x80 + n / 4096 % 64) = b at *
        generalize UInt8.ofNat (0x80 + n / 64 % 64) = x at *
        generalize UInt8.ofNat (0x80 + n % 64) = y at *
        have hr₂ : rune2 a b = none := by
          simp only [rune2, ha]
          rw [if_neg (by omega)]
        have hr₃ : rune3 a b x = none := by
          simp only [rune3, ha]
          rw [if_neg (by omega)]
        have hr : rune4 a b x y = some c := by
          simp only [rune4, isCont, ha, hb, hx, hy]
          have he : (0xF0 + n / 262144 - 0xF0) * 262144 + (0x80 + n / 4096 % 64 - 0x80) * 4096 +
              (0x80 + n / 64 % 64 - 0x80) * 64 + (0x80 + n % 64 - 0x80) = n := by omega
          rw [he, hn, if_pos]
          simp only [Bool.and_eq_true, decide_eq_true_eq]
          omega
        have hd : decodeRune a (b :: x :: y :: s) = (some c, 3) := by
          simp only [decodeRune, hr₂, hr₃, hr]
          rw [if_neg (by omega)]
        simp [decodeRunes, decodeFrom, hd]

theorem decodeRunes_encodeText (t : Text) (s : Bytes) :
    decodeRunes (encodeText t ++ s) = t.map some ++ decodeRunes s := by
  induction t with
  | nil => rfl
  | cons c t ih => simp [List.append_assoc, decodeRunes_encodeRune, ih]

theorem decodeText_encodeRune (c : Char) (s : Bytes) :
    decodeText (encodeRune c ++ s) = c :: decodeText s := by
  simp [decodeText, decodeRunes_encodeRune]

/-- Ranging over the bytes of a text yields the text. -/
@[simp] theorem decodeText_encodeText (t : Text) : decodeText (encodeText t) = t := by
  have h := decodeRunes_encodeText t []
  simp only [List.append_nil, decodeRunes_nil] at h
  simp [decodeText, h, Function.comp_def]

/-- Every byte of a rune outside ASCII is at least 0x80. -/
theorem encodeRune_byte (c : Char) (h : 0x80 ≤ c.toNat) : ∀ b ∈ encodeRune c, 0x80 ≤ b.toNat := by
  have hc := char_bounds c
  intro b hb
  unfold encodeRune at hb
  generalize c.toNat = n at *
  simp only at hb
  rw [if_neg (by omega)] at hb
  split at hb
  · simp only [List.mem_cons, List.not_mem_nil, or_false] at hb
    rcases hb with rfl | rfl <;> rw [toNat_ofNat (by omega)] <;> omega
  · split at hb <;> simp only [List.mem_cons, List.not_mem_nil, or_false] at hb
    · rcases hb with rfl | rfl | rfl <;> rw [toNat_ofNat (by omega)] <;> omega
    · rcases hb with rfl | rfl | rfl | rfl <;> rw [toNat_ofNat (by omega)] <;> omega

/-- A byte that continues no sequence is not looked at from before it. -/
theorem decodeRune_append (b : UInt8) (bs : Bytes) {a : UInt8} (ha : isCont a = false) (r : Bytes) :
    decodeRune b (bs ++ a :: r) = decodeRune b bs := by
  have h₂ : ∀ x, rune2 x a = none := fun x => if_neg (by simp [ha])
  have h₃ : ∀ x y, rune3 x y a = none := fun x y => if_neg (by simp [ha])
  have h₃' : ∀ x y, rune3 x a y = none := fun x y => if_neg (by simp [ha])
  have h₄ : ∀ x y z, rune4 x y z a = none := fun x y z => if_neg (by simp [ha])
  have h₄' : ∀ x y z, rune4 x y a z = none := fun x y z => if_neg (by simp [ha])
  have h₄'' : ∀ x y z, rune4 x a y z = none := fun x y z => if_neg (by simp [ha])
  unfold decodeRune
  split
  · rfl
  · cases bs with
    | nil =>
      simp only [List.nil_append, h₂]
      cases r with
      | nil => rfl
      | cons y r =>
        simp only [h₃']
        cases r with
        | nil => rfl
        | cons z r => simp only [h₄'']
    | cons x bs =>
      simp only [List.cons_append]
      cases rune2 b x with
      | some c => rfl
      | none =>
        cases bs with
        | nil =>
          simp only [List.nil_append, h₃]
          cases r with
          | nil => rfl
          | cons z r => simp only [h₄']
        | cons y bs =>
          simp only [List.cons_append]
          cases rune3 b x y with
          | some c => rfl
          | none =>
            cases bs with
            | nil => simp only [List.nil_append, h₄]
            | cons z bs => rfl

theorem decodeRune_le (b : UInt8) (bs : Bytes) : (decodeRune b bs).2 ≤ bs.length := by
  unfold decodeRune
  repeat' split
  all_goals simp

theorem decodeFrom_append (bs : Bytes) {skip : Nat} (hs : skip ≤ bs.length) {a : UInt8}
    (ha : isCont a = false) (r : Bytes) :
    decodeFrom skip (bs ++ a :: r) = decodeFrom skip bs ++ decodeRunes (a :: r) := by
  induction bs generalizing skip with
  | nil =>
    obtain rfl : skip = 0 := Nat.le_zero.mp hs
    rfl
  | cons b bs ih =>
    cases skip with
    | zero =>
      rw [List.cons_append, decodeFrom, decodeFrom, decodeRune_append b bs ha,
        ih (decodeRune_le b bs), List.cons_append]
    | succ skip =>
      rw [List.cons_append, decodeFrom, decodeFrom, ih (Nat.le_of_succ_le_succ hs)]

/-- What stands before such a byte is decoded by itself. -/
theorem decodeText_append (bs : Bytes) {a : UInt8} (ha : isCont a = false) (r : Bytes) :
    decodeText (bs ++ a :: r) = decodeText bs ++ decodeText (a :: r) := by
  rw [decodeText, decodeRunes, decodeFrom_append bs (Nat.zero_le _) ha, List.map_append]
  rfl

end GoUtf8
