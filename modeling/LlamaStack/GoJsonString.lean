import LlamaStack.GoJson

/-!
# JSON strings

The text that a string literal denotes, the literal that `encoding/json` writes
for a text, and the literals that it rewrites when it compacts a raw message
with HTML escaping.
-/
namespace GoJson

open GoBytes GoUtf8

set_option maxRecDepth 4000

/-! ## Reading -/

/-- The UTF-16 unit of a `\uXXXX` escape. -/
def unit (a b c d : HexByte) : Nat := ((a.num * 16 + b.num) * 16 + c.num) * 16 + d.num

def isHigh (u : Nat) : Bool := 0xD800 ≤ u && u < 0xDC00
def isLow (u : Nat) : Bool := 0xDC00 ≤ u && u < 0xE000

def surrogatePair (hi lo : Nat) : Char :=
  Char.ofNat (0x10000 + (hi - 0xD800) * 0x400 + (lo - 0xDC00))

/-- A literal read from its end: a low surrogate and a run of raw bytes at its
front are kept apart, because what stands before them decides what they mean. -/
structure Unquoted where
  low : Option Nat
  run : Bytes
  rest : Text

def Unquoted.text (q : Unquoted) : Text :=
  (match q.low with | some _ => [runeError] | none => []) ++ (decodeText q.run ++ q.rest)

/-- The run of raw bytes that a further raw byte would prolong, and what follows. -/
def Unquoted.front (q : Unquoted) : Bytes × Text :=
  match q.low with
  | none => (q.run, q.rest)
  | some _ => ([], q.text)

def unquoteItem (i : StrItem) (q : Unquoted) : Unquoted :=
  match i with
  | .raw b => ⟨none, b.val :: q.front.1, q.front.2⟩
  | .esc e => ⟨none, [], e.char :: q.text⟩
  | .unicode a b c d =>
    let u := unit a b c d
    if isLow u then ⟨some u, q.front.1, q.front.2⟩
    else if isHigh u then
      match q.low with
      | some lo => ⟨none, [], surrogatePair u lo :: (decodeText q.run ++ q.rest)⟩
      | none => ⟨none, [], runeError :: q.text⟩
    else ⟨none, [], Char.ofNat u :: q.text⟩

def unquoteParts (s : Lexeme) : Unquoted := s.foldr unquoteItem ⟨none, [], []⟩

/-- The text of a string literal: invalid UTF-8 and lone surrogates become
U+FFFD. -/
def unquote (s : Lexeme) : Text := (unquoteParts s).text

/-! ## Writing -/

def lowerHex (n : Fin 16) : UInt8 := UInt8.ofNat (if n.val < 10 then 0x30 + n.val else 0x57 + n.val)

theorem lowerHex_ok : ∀ n : Fin 16, (hexVal (lowerHex n)).isSome := by decide

def hexDigit (n : Nat) : HexByte := ⟨lowerHex (Fin.ofNat 16 n), lowerHex_ok _⟩

def escapeUnit (u : Nat) : StrItem :=
  .unicode (hexDigit (u / 4096)) (hexDigit (u / 256)) (hexDigit (u / 16)) (hexDigit u)

def rawItems (s : Bytes) : Lexeme := (s.filterMap asRaw).map .raw

def shortEscape (c : Char) : Option Escape :=
  if c = '"' then some .quote
  else if c = '\\' then some .backslash
  else if c.toNat = 8 then some .b
  else if c.toNat = 12 then some .f
  else if c = '\n' then some .n
  else if c = '\r' then some .r
  else if c = '\t' then some .t
  else none

/-- Characters that HTML escaping spells as `\uXXXX`. -/
def isHtml (c : Char) : Bool := c = '<' || c = '>' || c = '&'

def isLineSeparator (c : Char) : Bool := c.toNat = 0x2028 || c.toNat = 0x2029

/-- One rune as `appendString` writes it; `none` is a byte of invalid UTF-8. -/
def quoteRune : Option Char → Lexeme
  | none => [escapeUnit 0xFFFD]
  | some c =>
    match shortEscape c with
    | some e => [.esc e]
    | none =>
      if c.toNat < 0x20 ∨ isHtml c ∨ isLineSeparator c then [escapeUnit c.toNat]
      else rawItems (encodeRune c)

/-- The literal of a Go string. -/
def quoteBytes (s : Bytes) : Lexeme := (decodeRunes s).flatMap quoteRune

/-- The literal of a text. -/
def quote (t : Text) : Lexeme := t.flatMap fun c => quoteRune (some c)

theorem quoteBytes_encodeText (t : Text) : quoteBytes (encodeText t) = quote t := by
  have h := decodeRunes_encodeText t []
  simp only [List.append_nil, decodeRunes_nil] at h
  simp [quoteBytes, quote, h, List.flatMap_map]

theorem hexDigit_num (n : Nat) : (hexDigit n).num = n % 16 := by
  have h : ∀ m : Fin 16, (HexByte.mk (lowerHex m) (lowerHex_ok m)).num = m.val := by decide
  exact h (Fin.ofNat 16 n)

theorem unit_escapeUnit {u : Nat} (h : u < 0x10000) :
    unit (hexDigit (u / 4096)) (hexDigit (u / 256)) (hexDigit (u / 16)) (hexDigit u) = u := by
  simp only [unit, hexDigit_num]
  omega

theorem unquoteParts_cons (i : StrItem) (s : Lexeme) :
    unquoteParts (i :: s) = unquoteItem i (unquoteParts s) := rfl

theorem unquote_esc (e : Escape) (s : Lexeme) : unquote (.esc e :: s) = e.char :: unquote s := by
  simp [unquote, unquoteParts_cons, unquoteItem, Unquoted.text]

/-- An escaped unit that is no surrogate stands for its character. -/
theorem unquote_escapeUnit {u : Nat} (h : u < 0xD800 ∨ (0xE000 ≤ u ∧ u < 0x10000)) (s : Lexeme) :
    unquote (escapeUnit u :: s) = Char.ofNat u :: unquote s := by
  have hu : u < 0x10000 := by omega
  have hl : isLow u = false := by
    simp only [isLow, Bool.and_eq_false_iff, decide_eq_false_iff_not]
    omega
  have hh : isHigh u = false := by
    simp only [isHigh, Bool.and_eq_false_iff, decide_eq_false_iff_not]
    omega
  simp [unquote, unquoteParts_cons, escapeUnit, unquoteItem, unit_escapeUnit hu, hl, hh,
    Unquoted.text]

theorem Unquoted.text_front (q : Unquoted) : q.text = decodeText q.front.1 ++ q.front.2 := by
  obtain ⟨low, run, rest⟩ := q
  cases low <;> simp [Unquoted.text, Unquoted.front]

theorem unquoteParts_raw (bs : List RawByte) (s : Lexeme) :
    (unquoteParts (bs.map .raw ++ s)).front =
      (bs.map RawByte.val ++ (unquoteParts s).front.1, (unquoteParts s).front.2) := by
  induction bs with
  | nil => rfl
  | cons b bs ih =>
    rw [List.map_cons, List.cons_append, unquoteParts_cons, unquoteItem, ih]
    rfl

/-- Raw bytes at the front of a literal are decoded together with the raw bytes
that follow them. -/
theorem unquote_raw (bs : List RawByte) (s : Lexeme) :
    unquote (bs.map .raw ++ s) =
      decodeText (bs.map RawByte.val ++ (unquoteParts s).front.1) ++ (unquoteParts s).front.2 := by
  rw [unquote, Unquoted.text_front, unquoteParts_raw]

theorem rawItems_map {s : Bytes} (h : ∀ b ∈ s, 0x20 ≤ b.toNat ∧ b ≠ 0x22 ∧ b ≠ 0x5c) :
    ∃ bs : List RawByte, rawItems s = bs.map .raw ∧ bs.map RawByte.val = s := by
  induction s with
  | nil => exact ⟨[], rfl, rfl⟩
  | cons b s ih =>
    obtain ⟨bs, h₁, h₂⟩ := ih fun b' hb' => h b' (by simp [hb'])
    have hb := h b (by simp)
    refine ⟨⟨b, hb⟩ :: bs, ?_, by simp [h₂]⟩
    simp only [rawItems] at h₁ ⊢
    simp [asRaw, hb, h₁]

/-- The bytes of a rune that is written raw need no escape. -/
theorem encodeRune_raw {c : Char} (hs : shortEscape c = none) (hc : 0x20 ≤ c.toNat) :
    ∀ b ∈ encodeRune c, 0x20 ≤ b.toNat ∧ b ≠ 0x22 ∧ b ≠ 0x5c := by
  intro b hb
  by_cases h : c.toNat < 0x80
  · have he : encodeRune c = [UInt8.ofNat c.toNat] := by simp [encodeRune, h]
    rw [he, List.mem_singleton] at hb
    have hbn : b.toNat = c.toNat := by rw [hb, toNat_ofNat (by omega)]
    refine ⟨by omega, ?_, ?_⟩
    · rintro rfl
      have hq : c = '"' := Char.toNat_inj.mp hbn.symm
      simp [shortEscape, hq] at hs
    · rintro rfl
      have hq : c = '\\' := Char.toNat_inj.mp hbn.symm
      simp [shortEscape, hq] at hs
  · have hge := encodeRune_byte c (by omega) b hb
    refine ⟨by omega, ?_, ?_⟩ <;> rintro rfl <;> simp at hge

theorem shortEscape_char {c : Char} {e : Escape} (h : shortEscape c = some e) : e.char = c := by
  unfold shortEscape at h
  split_ifs at h with h₁ h₂ h₃ h₄ h₅ h₆ h₇ <;> cases h
  · exact h₁.symm
  · exact h₂.symm
  · exact Char.toNat_inj.mp h₃.symm
  · exact Char.toNat_inj.mp h₄.symm
  · exact h₅.symm
  · exact h₆.symm
  · exact h₇.symm

theorem unquote_quoteRune (c : Char) (s : Lexeme) :
    unquote (quoteRune (some c) ++ s) = c :: unquote s := by
  cases he : shortEscape c with
  | some e =>
    simp only [quoteRune, he, List.cons_append, List.nil_append, unquote_esc, shortEscape_char he]
  | none =>
    simp only [quoteRune, he]
    split
    · rename_i h
      have hc : c.toNat < 0xD800 := by
        rcases h with h | h | h
        · omega
        · simp only [isHtml, Bool.or_eq_true, decide_eq_true_eq] at h
          rcases h with (rfl | rfl) | rfl <;> decide
        · simp only [isLineSeparator, Bool.or_eq_true, decide_eq_true_eq] at h
          omega
      rw [List.cons_append, List.nil_append, unquote_escapeUnit (.inl hc), Char.ofNat_toNat]
    · rename_i h
      obtain ⟨bs, h₁, h₂⟩ := rawItems_map (encodeRune_raw he (by omega))
      rw [h₁, unquote_raw, h₂, decodeText_encodeRune, List.cons_append, unquote,
        ← Unquoted.text_front]

theorem unquote_quoteBytes (s : Bytes) : unquote (quoteBytes s) = decodeText s := by
  unfold quoteBytes decodeText
  induction decodeRunes s with
  | nil => rfl
  | cons r rs ih =>
    rw [List.flatMap_cons, List.map_cons, ← ih]
    cases r with
    | none => exact unquote_escapeUnit (by decide) _
    | some c => exact unquote_quoteRune c _

/-- A text survives being written and read. -/
@[simp] theorem unquote_quote (t : Text) : unquote (quote t) = t := by
  rw [← quoteBytes_encodeText, unquote_quoteBytes, decodeText_encodeText]

/-! ## Compaction with HTML escaping -/

/-- The line separator U+2028 or U+2029 spelled by two raw bytes after `0xE2`. -/
def lineSeparatorAfter : Lexeme → Option Nat
  | .raw b :: .raw c :: _ =>
    if b.val = 0x80 ∧ (c.val = 0xA8 ∨ c.val = 0xA9) then some (0x2028 + (c.val.toNat - 0xA8)) else none
  | _ => none

/-- A literal after `skip` items that are already consumed. -/
def compactFrom : Nat → Lexeme → Lexeme
  | _, [] => []
  | skip + 1, _ :: r => compactFrom skip r
  | 0, i :: r =>
    match i with
    | .raw b =>
      if b.val = 0x3c ∨ b.val = 0x3e ∨ b.val = 0x26 then escapeUnit b.val.toNat :: compactFrom 0 r
      else if b.val = 0xE2 then
        match lineSeparatorAfter r with
        | some u => escapeUnit u :: compactFrom 2 r
        | none => i :: compactFrom 0 r
      else i :: compactFrom 0 r
    | _ => i :: compactFrom 0 r

def compactLexeme (s : Lexeme) : Lexeme := compactFrom 0 s

mutual
/-- A raw message as `Marshal` writes it. -/
def compact : Json → Json
  | .str s => .str (compactLexeme s)
  | .arr xs => .arr (compactItems xs)
  | .obj ms => .obj (compactMembers ms)
  | .null => .null
  | .bool b => .bool b
  | .num n => .num n
def compactItems : List Json → List Json
  | [] => []
  | x :: xs => compact x :: compactItems xs
def compactMembers : List (Lexeme × Json) → List (Lexeme × Json)
  | [] => []
  | (k, x) :: ms => (compactLexeme k, compact x) :: compactMembers ms
end

/-- Two readings that no prefix tells apart. -/
structure Unquoted.Alike (q q' : Unquoted) : Prop where
  low : q.low = q'.low
  text : ∀ bs, decodeText (bs ++ q.run) ++ q.rest = decodeText (bs ++ q'.run) ++ q'.rest

theorem Unquoted.Alike.text_eq {q q' : Unquoted} (h : q.Alike q') : q.text = q'.text := by
  have ht := h.text []
  rw [List.nil_append, List.nil_append] at ht
  rw [Unquoted.text, Unquoted.text, h.low, ht]

theorem Unquoted.Alike.front {q q' : Unquoted} (h : q.Alike q') (bs : Bytes) :
    decodeText (bs ++ q.front.1) ++ q.front.2 = decodeText (bs ++ q'.front.1) ++ q'.front.2 := by
  have ht := h.text_eq
  obtain ⟨low, run, rest⟩ := q
  obtain ⟨low', run', rest'⟩ := q'
  obtain rfl : low = low' := h.low
  cases low with
  | none => exact h.text bs
  | some lo => simp only [Unquoted.front, ht]

theorem alike_unquoteItem (i : StrItem) {q q' : Unquoted} (h : q.Alike q') :
    (unquoteItem i q).Alike (unquoteItem i q') := by
  have ht := h.text_eq
  have hr := h.text []
  simp only [List.nil_append] at hr
  cases i with
  | raw b =>
    refine ⟨rfl, fun bs => ?_⟩
    have hf := h.front (bs ++ [b.val])
    simpa [unquoteItem] using hf
  | esc e => exact ⟨rfl, fun bs => by simp [unquoteItem, ht]⟩
  | unicode a b c d =>
    unfold unquoteItem
    simp only
    split
    · exact ⟨rfl, h.front⟩
    · split
      · rw [h.low]
        cases q'.low with
        | none => exact ⟨rfl, fun bs => by simp [ht]⟩
        | some lo => exact ⟨rfl, fun bs => by simp [hr]⟩
      · exact ⟨rfl, fun bs => by simp [ht]⟩

theorem Unquoted.Alike.trans {q q' q'' : Unquoted} (h : q.Alike q') (h' : q'.Alike q'') : q.Alike q'' :=
  ⟨h.low.trans h'.low, fun bs => (h.text bs).trans (h'.text bs)⟩

/-- A character is spelled by its bytes or by its unit. -/
theorem alike_escapeUnit {u : Nat} (hu : u < 0xD800) {b : RawByte} {bs : List RawByte}
    (hb : isCont b.val = false) (hbs : encodeRune (Char.ofNat u) = b.val :: bs.map RawByte.val) (s : Lexeme) :
    (unquoteParts (escapeUnit u :: s)).Alike (unquoteParts ((b :: bs).map .raw ++ s)) := by
  have hlow : isLow u = false := by
    simp only [isLow, Bool.and_eq_false_iff, decide_eq_false_iff_not]
    omega
  have hhigh : isHigh u = false := by
    simp only [isHigh, Bool.and_eq_false_iff, decide_eq_false_iff_not]
    omega
  have hesc : unquoteParts (escapeUnit u :: s) = ⟨none, [], Char.ofNat u :: unquote s⟩ := by
    rw [unquoteParts_cons, escapeUnit, unquoteItem, unit_escapeUnit (by omega)]
    simp [hlow, hhigh, unquote]
  have hraw := unquoteParts_raw (b :: bs) s
  have hnone : (unquoteParts ((b :: bs).map .raw ++ s)).low = none := rfl
  rw [Unquoted.front, hnone] at hraw
  simp only [Prod.mk.injEq] at hraw
  refine ⟨by rw [hesc, hnone], fun t => ?_⟩
  have hchar := decodeText_encodeRune (Char.ofNat u) (unquoteParts s).front.1
  rw [hbs] at hchar
  rw [hesc, hraw.1, hraw.2, List.map_cons, List.cons_append, decodeText_append t hb]
  rw [← List.cons_append, hchar, unquote, Unquoted.text_front]
  simp

theorem alike_cons (i : StrItem) {s s' : Lexeme} (h : (unquoteParts s).Alike (unquoteParts s')) :
    (unquoteParts (i :: s)).Alike (unquoteParts (i :: s')) := by
  rw [unquoteParts_cons, unquoteParts_cons]
  exact alike_unquoteItem i h

theorem lineSeparatorAfter_some {r : Lexeme} {u : Nat} (h : lineSeparatorAfter r = some u) :
    ∃ c d r', r = .raw c :: .raw d :: r' ∧ u < 0xD800 ∧ encodeRune (Char.ofNat u) = [0xE2, c.val, d.val] := by
  unfold lineSeparatorAfter at h
  split at h
  · rename_i c d r'
    split at h
    · rename_i hcd
      cases h
      obtain ⟨hc, hd⟩ := hcd
      refine ⟨c, d, r', rfl, ?_⟩
      rcases hd with hd | hd <;> rw [hc, hd] <;> decide
    · cases h
  · cases h

theorem alike_compactFrom (skip : Nat) (s : Lexeme) :
    (unquoteParts (compactFrom skip s)).Alike (unquoteParts (s.drop skip)) := by
  fun_induction compactFrom skip s with
  | case1 skip => simpa using ⟨rfl, fun bs => rfl⟩
  | case2 skip i r ih => simpa using ih
  | case3 r b h ih =>
    rw [List.drop_zero] at ih ⊢
    have hb : b.val.toNat < 0x80 := by
      rcases h with h | h | h <;> rw [h] <;> decide
    have hcont : isCont b.val = false := by
      simp only [isCont, Bool.and_eq_false_iff, decide_eq_false_iff_not]
      omega
    have henc : encodeRune (Char.ofNat b.val.toNat) = b.val :: ([] : List RawByte).map RawByte.val := by
      rcases h with h | h | h <;> rw [h] <;> decide
    exact (alike_cons _ ih).trans (alike_escapeUnit (by omega) hcont henc r)
  | case4 r b _ h u hu ih =>
    obtain ⟨c, d, r', rfl, hlt, henc⟩ := lineSeparatorAfter_some hu
    have hcont : isCont b.val = false := by
      rw [h]
      decide
    have henc : encodeRune (Char.ofNat u) = b.val :: [c, d].map RawByte.val := h ▸ henc
    exact (alike_cons _ ih).trans (alike_escapeUnit hlt hcont henc r')
  | case5 r b _ _ _ ih => exact alike_cons _ ih
  | case6 r b _ _ ih => exact alike_cons _ ih
  | case7 r i _ ih => exact alike_cons _ ih

/-- Compaction changes the spelling of a literal only. -/
@[simp] theorem unquote_compactLexeme (s : Lexeme) : unquote (compactLexeme s) = unquote s :=
  (alike_compactFrom 0 s).text_eq

/-! ## Compacting again -/

theorem compactFrom_raw {r s : Lexeme} {c : RawByte} (h : compactFrom 0 r = .raw c :: s) :
    ∃ s', r = .raw c :: s' := by
  have hunit : ∀ u, escapeUnit u ≠ .raw c := by
    intro u hu
    cases hu
  cases r with
  | nil => cases h
  | cons i r =>
    cases i with
    | raw b =>
      have hsame : ∀ {t}, StrItem.raw b :: t = .raw c :: s → ∃ s', StrItem.raw b :: r = .raw c :: s' := by
        intro t ht
        exact ⟨r, by rw [(List.cons.inj ht).1]⟩
      rw [compactFrom] at h
      split at h
      · exact absurd (List.cons.inj h).1 (hunit _)
      · split at h
        · split at h
          · exact absurd (List.cons.inj h).1 (hunit _)
          · exact hsame h
        · exact hsame h
    | esc e => cases h
    | unicode a b c' d => cases h

theorem lineSeparatorAfter_compactFrom {r : Lexeme} (h : lineSeparatorAfter r = none) :
    lineSeparatorAfter (compactFrom 0 r) = none := by
  cases hs : lineSeparatorAfter (compactFrom 0 r) with
  | none => rfl
  | some u =>
    unfold lineSeparatorAfter at hs
    split at hs
    · rename_i c d s heq
      split at hs
      · rename_i hcd
        obtain ⟨r', rfl⟩ := compactFrom_raw heq
        have hc : ¬ (c.val = 0x3c ∨ c.val = 0x3e ∨ c.val = 0x26) := by
          rw [hcd.1]
          decide
        have hc' : ¬ c.val = 0xE2 := by
          rw [hcd.1]
          decide
        rw [compactFrom, if_neg hc, if_neg hc'] at heq
        obtain ⟨r'', rfl⟩ := compactFrom_raw (List.cons.inj heq).2
        rw [lineSeparatorAfter, if_pos hcd] at h
        cases h
      · cases hs
    · cases hs

/-- A compacted literal stays as it is. -/
theorem compactFrom_compactFrom (skip : Nat) (s : Lexeme) :
    compactFrom 0 (compactFrom skip s) = compactFrom skip s := by
  have hunit : ∀ u t, compactFrom 0 (escapeUnit u :: t) = escapeUnit u :: compactFrom 0 t := fun _ _ => rfl
  fun_induction compactFrom skip s with
  | case1 skip => rfl
  | case2 skip i r ih => exact ih
  | case3 r b h ih => rw [hunit, ih]
  | case4 r b _ h u hu ih => rw [hunit, ih]
  | case5 r b h h' hu ih => rw [compactFrom, if_neg h, if_pos h', lineSeparatorAfter_compactFrom hu, ih]
  | case6 r b h h' ih => rw [compactFrom, if_neg h, if_neg h', ih]
  | case7 i r h ih =>
    rw [compactFrom, ih]
    exact h

@[simp] theorem compactLexeme_compactLexeme (s : Lexeme) : compactLexeme (compactLexeme s) = compactLexeme s :=
  compactFrom_compactFrom 0 s

mutual
@[simp] theorem compact_compact : ∀ j : Json, compact (compact j) = compact j
  | .null => rfl
  | .bool _ => rfl
  | .num _ => rfl
  | .str s => by rw [compact, compact, compactLexeme_compactLexeme]
  | .arr xs => by rw [compact, compact, compactItems_compactItems xs]
  | .obj ms => by rw [compact, compact, compactMembers_compactMembers ms]
theorem compactItems_compactItems : ∀ xs : List Json, compactItems (compactItems xs) = compactItems xs
  | [] => rfl
  | x :: xs => by rw [compactItems, compactItems, compact_compact x, compactItems_compactItems xs]
theorem compactMembers_compactMembers :
    ∀ ms : List (Lexeme × Json), compactMembers (compactMembers ms) = compactMembers ms
  | [] => rfl
  | (k, x) :: ms => by
    rw [compactMembers, compactMembers, compactLexeme_compactLexeme, compact_compact x,
      compactMembers_compactMembers ms]
end

end GoJson
