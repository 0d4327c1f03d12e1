import LlamaStack.GoJson

/-!
# Printed JSON trees parse back

`parse_print`: the compact text of a tree parses to that tree, spelling
included. The number case needs to know where a number stops, which is what
`EndsNumber` says of the text behind it.
-/
namespace GoJson

open GoBytes GoUtf8

set_option maxRecDepth 4000

/-! ## Numbers -/

theorem asDigit_byte : ∀ d : Digit, asDigit d.byte = some d := by decide

/-- The text behind a number does not prolong it. -/
def EndsNumber (r : Bytes) : Prop :=
  ∀ b ∈ r.head?, asDigit b = none ∧ b ≠ 0x2e ∧ b ≠ 0x65 ∧ b ≠ 0x45

theorem endsNumber_nil : EndsNumber [] := by simp [EndsNumber]

theorem endsNumber_cons {b : UInt8} (r : Bytes)
    (h : asDigit b = none ∧ b ≠ 0x2e ∧ b ≠ 0x65 ∧ b ≠ 0x45) : EndsNumber (b :: r) := by
  simpa [EndsNumber] using h

theorem spanDigits_print (ds : List Digit) {r : Bytes} (hr : ∀ b ∈ r.head?, asDigit b = none) :
    spanDigits (printDigits ds ++ r) = (ds, r) := by
  induction ds with
  | nil =>
    cases r with
    | nil => rfl
    | cons b r => simp [printDigits, spanDigits, hr b (by simp)]
  | cons d ds ih =>
    simp only [printDigits] at ih
    simp [printDigits, spanDigits, asDigit_byte, ih]

theorem parseDigits_print (ds : Digits) {r : Bytes} (hr : ∀ b ∈ r.head?, asDigit b = none) :
    parseDigits (printDigits ds.val ++ r) = some (ds, r) := by
  simp [parseDigits, spanDigits_print ds.val hr, ds.property]

/-- A digit is no sign, no point and no exponent mark. -/
theorem digit_byte_ne : ∀ d : Digit, d.byte ≠ 0x2d ∧ d.byte ≠ 0x2b ∧ d.byte ≠ 0x22 ∧
    d.byte ≠ 0x5b ∧ d.byte ≠ 0x5d ∧ d.byte ≠ 0x7b ∧ d.byte ≠ 0x6e ∧ d.byte ≠ 0x74 ∧
    d.byte ≠ 0x66 ∧ isSpace d.byte = false := by decide

def signBytes : Option Bool → Bytes
  | none => []
  | some true => [0x2d]
  | some false => [0x2b]

theorem parseSign_print (sign : Option Bool) (ds : Digits) (r : Bytes) :
    parseSign (signBytes sign ++ (printDigits ds.val ++ r)) = (sign, printDigits ds.val ++ r) := by
  rcases sign with _ | _ | _
  · obtain ⟨d, ds', hds⟩ := List.exists_cons_of_ne_nil ds.property
    simp [hds, signBytes, printDigits, parseSign, digit_byte_ne d]
  · simp [signBytes, parseSign]
  · simp [signBytes, parseSign]

theorem Exponent.print_eq (e : Exponent) :
    e.print = (if e.upper then 0x45 else 0x65) :: (signBytes e.sign ++ printDigits e.digits.val) := by
  obtain ⟨upper, sign, ds⟩ := e
  rcases sign with _ | _ | _ <;> rfl

theorem parseExp_print (e : Option Exponent) {r : Bytes} (hr : EndsNumber r) :
    parseExp (printExp e ++ r) = some (e, r) := by
  have hd : ∀ b ∈ r.head?, asDigit b = none := fun b hb => (hr b hb).1
  cases e with
  | none =>
    cases r with
    | nil => rfl
    | cons b r =>
      have h := hr b (by simp)
      simp [printExp, parseExp, h.2.2.1, h.2.2.2]
  | some e =>
    have hs := parseSign_print e.sign e.digits r
    have hp := parseDigits_print e.digits hd
    obtain ⟨upper, sign, ds⟩ := e
    cases upper <;> simp [printExp, Exponent.print_eq, parseExp, hs, hp]

theorem printExp_head (e : Option Exponent) {r : Bytes} (hr : EndsNumber r) :
    ∀ b ∈ (printExp e ++ r).head?, asDigit b = none ∧ b ≠ 0x2e := by
  cases e with
  | none =>
    intro b hb
    exact ⟨(hr b hb).1, (hr b hb).2.1⟩
  | some e =>
    intro b hb
    simp only [printExp, Exponent.print, List.cons_append, List.head?_cons, Option.mem_def,
      Option.some.injEq] at hb
    subst hb
    split <;> decide

theorem parseFrac_print (f : Option Digits) (e : Option Exponent) {r : Bytes} (hr : EndsNumber r) :
    parseFrac (printFrac f ++ (printExp e ++ r)) = some (f, printExp e ++ r) := by
  have he := printExp_head e hr
  cases f with
  | none =>
    simp only [printFrac, List.nil_append]
    generalize printExp e ++ r = t at *
    cases t with
    | nil => rfl
    | cons b t => simp [parseFrac, he b (by simp)]
  | some ds =>
    simp [printFrac, parseFrac, parseDigits_print ds fun b hb => (he b hb).1]

theorem printFrac_head (f : Option Digits) (e : Option Exponent) {r : Bytes} (hr : EndsNumber r) :
    ∀ b ∈ (printFrac f ++ (printExp e ++ r)).head?, asDigit b = none := by
  cases f with
  | none => exact fun b hb => (printExp_head e hr b hb).1
  | some ds =>
    intro b hb
    simp only [printFrac, List.cons_append, List.head?_cons, Option.mem_def, Option.some.injEq] at hb
    subst hb
    decide

theorem parseMinus_print (neg : Bool) (d : Digit) (t : Bytes) :
    parseMinus ((if neg then [0x2d] else []) ++ d.byte :: t) = (neg, d.byte :: t) := by
  cases neg <;> simp [parseMinus, digit_byte_ne d]

theorem parseNum_print (n : Num) {r : Bytes} (hr : EndsNumber r) :
    parseNum (n.print ++ r) = some (n, r) := by
  obtain ⟨neg, int, frac, exp, hint⟩ := n
  obtain ⟨d, ds, rfl⟩ := List.exists_cons_of_ne_nil hint.1
  have hm := parseMinus_print neg d (printDigits ds ++ (printFrac frac ++ (printExp exp ++ r)))
  have hs := spanDigits_print (d :: ds) (printFrac_head frac exp hr)
  simp only [printDigits, List.map_cons, List.cons_append] at hm hs
  simp only [parseNum, Num.print, printDigits, List.map_cons, List.append_assoc, List.cons_append,
    hm, hs, parseFrac_print frac exp hr, parseExp_print exp hr]
  rw [dif_pos hint]
  rfl

/-! ## Strings -/

theorem asRaw_val (b : RawByte) : asRaw b.val = some b := by
  simp only [asRaw, dif_pos b.ok]

theorem asHex_val (h : HexByte) : asHex h.val = some h := by
  simp only [asHex, dif_pos h.ok]

theorem asEscape_byte (e : Escape) : asEscape e.byte = some e ∧ e.byte ≠ 0x75 := by
  cases e <;> decide

theorem parseStr_item (i : StrItem) (t : Bytes) :
    parseStr (i.print ++ t) = (parseStr t).map fun p => (i :: p.1, p.2) := by
  cases i with
  | raw b =>
    have h := b.ok
    simp only [StrItem.print, List.cons_append, List.nil_append]
    rw [parseStr.eq_def]
    simp [h.2.1, h.2.2, asRaw_val]
  | esc e =>
    have h := asEscape_byte e
    simp only [StrItem.print, List.cons_append, List.nil_append]
    rw [parseStr.eq_def]
    simp [h.1, h.2]
  | unicode a b c d =>
    simp only [StrItem.print, List.cons_append, List.nil_append]
    rw [parseStr.eq_def]
    simp [asHex_val]

theorem parseStr_print (s : Lexeme) (t : Bytes) :
    parseStr (printLexeme s ++ 0x22 :: t) = some (s, t) := by
  induction s with
  | nil =>
    rw [parseStr.eq_def]
    simp [printLexeme]
  | cons i s ih =>
    simp only [printLexeme, List.flatMap_cons, List.append_assoc] at ih ⊢
    rw [parseStr_item, ih]
    rfl

/-! ## Values -/

theorem skipSpace_cons {b : UInt8} (r : Bytes) (h : isSpace b = false) :
    skipSpace (b :: r) = b :: r := by
  simp [skipSpace, h]

theorem token_self {c : UInt8} (r : Bytes) (h : isSpace c = false) : token c (c :: r) = some r := by
  simp [token, skipSpace_cons r h]

theorem token_other {b c : UInt8} (r : Bytes) (h : isSpace b = false) (hne : b ≠ c) :
    token c (b :: r) = none := by
  simp [token, skipSpace_cons r h, hne]

/-- A printed number starts with a minus sign or a digit. -/
theorem Num.print_head (n : Num) : ∃ b r, n.print = b :: r ∧ b ≠ 0x22 ∧ b ≠ 0x5b ∧ b ≠ 0x5d ∧
    b ≠ 0x7b ∧ b ≠ 0x6e ∧ b ≠ 0x74 ∧ b ≠ 0x66 ∧ isSpace b = false := by
  obtain ⟨neg, int, frac, exp, hint⟩ := n
  obtain ⟨d, ds, rfl⟩ := List.exists_cons_of_ne_nil hint.1
  have h := digit_byte_ne d
  cases neg with
  | true => exact ⟨0x2d, _, rfl, by decide⟩
  | false => exact ⟨d.byte, _, rfl, h.2.2⟩

theorem print_head (j : Json) : ∃ b r, print j = b :: r ∧ b ≠ 0x5d ∧ isSpace b = false := by
  cases j with
  | null => exact ⟨0x6e, _, rfl, by decide⟩
  | bool b => cases b <;> exact ⟨_, _, rfl, by decide⟩
  | num n =>
    obtain ⟨b, r, h, hb⟩ := n.print_head
    exact ⟨b, r, by rw [print, h], hb.2.2.1, hb.2.2.2.2.2.2.2⟩
  | str s => exact ⟨0x22, _, rfl, by decide⟩
  | arr xs => cases xs <;> exact ⟨0x5b, _, by rw [print], by decide⟩
  | obj ms => rcases ms with _ | ⟨⟨k, x⟩, ms⟩ <;> exact ⟨0x7b, _, by rw [print], by decide⟩

mutual
/-- The calls that parsing a printed tree takes. -/
def size : Json → Nat
  | .arr xs => 1 + sizeItems xs
  | .obj ms => 1 + sizeMembers ms
  | _ => 1
def sizeItems : List Json → Nat
  | [] => 0
  | x :: xs => 1 + size x + sizeItems xs
def sizeMembers : List (Lexeme × Json) → Nat
  | [] => 0
  | (_, x) :: ms => 1 + size x + sizeMembers ms
end

mutual
theorem size_le : ∀ j : Json, size j + 1 ≤ 2 * (print j).length
  | .null => by simp [size, print, ascii]
  | .bool true => by simp [size, print, ascii]
  | .bool false => by simp [size, print, ascii]
  | .num n => by
    obtain ⟨b, r, h, -⟩ := n.print_head
    simp only [size, print, h, List.length_cons]
    omega
  | .str s => by
    simp only [size, print, printStr, List.length_cons]
    omega
  | .arr [] => by simp [size, sizeItems, print]
  | .arr (x :: xs) => by
    have h₁ := size_le x
    have h₂ := sizeItems_le xs
    simp only [size, sizeItems, print, List.length_cons, List.length_append]
    omega
  | .obj [] => by simp [size, sizeMembers, print]
  | .obj ((k, x) :: ms) => by
    have h₁ := size_le x
    have h₂ := sizeMembers_le ms
    simp only [size, sizeMembers, print, List.length_cons, List.length_append]
    omega
theorem sizeItems_le : ∀ xs : List Json, sizeItems xs + 2 ≤ 2 * (printItems xs).length
  | [] => by simp [sizeItems, printItems]
  | x :: xs => by
    have h₁ := size_le x
    have h₂ := sizeItems_le xs
    simp only [sizeItems, printItems, List.length_cons, List.length_append]
    omega
theorem sizeMembers_le : ∀ ms : List (Lexeme × Json), sizeMembers ms + 2 ≤ 2 * (printMembers ms).length
  | [] => by simp [sizeMembers, printMembers]
  | (k, x) :: ms => by
    have h₁ := size_le x
    have h₂ := sizeMembers_le ms
    simp only [sizeMembers, printMembers, List.length_cons, List.length_append]
    omega
end

theorem parseStr_printStr (k : Lexeme) (t : Bytes) :
    (token 0x22 (printStr k ++ t)).bind parseStr = some (k, t) := by
  have h : printStr k ++ t = 0x22 :: (printLexeme k ++ 0x22 :: t) := by simp [printStr]
  rw [h, token_self _ (by decide)]
  exact parseStr_print k t

/-- What `value` does once the first byte of a nonempty array is read. -/
theorem value_arr {n : Nat} {src : Bytes} {xs : List Json} {t : Bytes}
    (ht : token 0x5d src = none) (hi : items n src = some (xs, t)) :
    value (n + 1) (0x5b :: src) = some (.arr xs, t) := by
  simp [value, skipSpace_cons src (show isSpace 0x5b = false by decide), ht, hi]

theorem value_obj {n : Nat} {src : Bytes} {ms : List (Lexeme × Json)} {t : Bytes}
    (ht : token 0x7d src = none) (hm : members n src = some (ms, t)) :
    value (n + 1) (0x7b :: src) = some (.obj ms, t) := by
  simp [value, skipSpace_cons src (show isSpace 0x7b = false by decide), ht, hm]

theorem items_nil {n : Nat} {src t : Bytes} {x : Json} (hv : value n src = some (x, 0x5d :: t)) :
    items (n + 1) src = some ([x], t) := by
  simp [items, hv, token_self t (show isSpace 0x5d = false by decide),
    token_other t (show isSpace 0x5d = false by decide) (show (0x5d : UInt8) ≠ 0x2c by decide)]

theorem items_cons {n : Nat} {src r t : Bytes} {x : Json} {xs : List Json}
    (hv : value n src = some (x, 0x2c :: r)) (hi : items n r = some (xs, t)) :
    items (n + 1) src = some (x :: xs, t) := by
  simp [items, hv, token_self r (show isSpace 0x2c = false by decide), hi]

theorem members_nil {n : Nat} {src r t : Bytes} {k : Lexeme} {x : Json}
    (hk : (token 0x22 src).bind parseStr = some (k, 0x3a :: r))
    (hv : value n r = some (x, 0x7d :: t)) :
    members (n + 1) src = some ([(k, x)], t) := by
  simp [members, hk, hv, token_self r (show isSpace 0x3a = false by decide),
    token_self t (show isSpace 0x7d = false by decide),
    token_other t (show isSpace 0x7d = false by decide) (show (0x7d : UInt8) ≠ 0x2c by decide)]

theorem members_cons {n : Nat} {src r r' t : Bytes} {k : Lexeme} {x : Json}
    {ms : List (Lexeme × Json)} (hk : (token 0x22 src).bind parseStr = some (k, 0x3a :: r))
    (hv : value n r = some (x, 0x2c :: r')) (hm : members n r' = some (ms, t)) :
    members (n + 1) src = some ((k, x) :: ms, t) := by
  simp [members, hk, hv, token_self r (show isSpace 0x3a = false by decide),
    token_self r' (show isSpace 0x2c = false by decide), hm]

mutual
theorem value_print : ∀ (j : Json) (n : Nat) (t : Bytes), size j ≤ n → EndsNumber t →
    value n (print j ++ t) = some (j, t)
  | .null, n + 1, t, _, _ => rfl
  | .bool true, n + 1, t, _, _ => rfl
  | .bool false, n + 1, t, _, _ => rfl
  | .num m, n + 1, t, _, ht => by
    obtain ⟨b, r, hm, h₁, h₂, h₃, h₄, h₅, h₆, h₇, hb⟩ := m.print_head
    have hp := parseNum_print m ht
    rw [hm] at hp
    simp only [List.cons_append] at hp
    simp [print, hm, value, skipSpace_cons _ hb, h₁, h₂, h₄, h₅, h₆, h₇, hp]
  | .str s, n + 1, t, _, _ => by
    have hp := parseStr_print s t
    simp [print, printStr, value, skipSpace_cons _ (show isSpace 0x22 = false by decide), hp]
  | .arr [], n + 1, t, _, _ => rfl
  | .arr (x :: xs), n + 1, t, h, _ => by
    simp only [size, sizeItems] at h
    obtain ⟨b, r, hx, hne, hb⟩ := print_head x
    have hi := items_print x xs n t (by omega)
    have ht : token 0x5d (print x ++ (printItems xs ++ t)) = none := by
      rw [hx]
      exact token_other _ hb hne
    simpa [print] using value_arr ht hi
  | .obj [], n + 1, t, _, _ => rfl
  | .obj ((k, x) :: ms), n + 1, t, h, _ => by
    simp only [size, sizeMembers] at h
    have hm := members_print k x ms n t (by omega)
    have ht : token 0x7d (printStr k ++ 0x3a :: (print x ++ (printMembers ms ++ t))) = none :=
      token_other _ (by decide) (by decide)
    simpa [print] using value_obj ht hm
  | .arr (_ :: _), 0, _, h, _ => by
    simp only [size] at h
    omega
  | .obj ((_, _) :: _), 0, _, h, _ => by
    simp only [size] at h
    omega
theorem items_print : ∀ (x : Json) (xs : List Json) (n : Nat) (t : Bytes),
    size x + sizeItems xs < n → items n (print x ++ (printItems xs ++ t)) = some (x :: xs, t)
  | x, [], n + 1, t, h => by
    have hv := value_print x n (0x5d :: t) (by omega) (endsNumber_cons t (by decide))
    exact items_nil hv
  | x, y :: ys, n + 1, t, h => by
    simp only [sizeItems] at h
    have hi := items_print y ys n t (by omega)
    have hv := value_print x n (0x2c :: (print y ++ (printItems ys ++ t))) (by omega)
      (endsNumber_cons _ (by decide))
    simpa [printItems] using items_cons hv hi
theorem members_print : ∀ (k : Lexeme) (x : Json) (ms : List (Lexeme × Json)) (n : Nat) (t : Bytes),
    size x + sizeMembers ms < n →
    members n (printStr k ++ 0x3a :: (print x ++ (printMembers ms ++ t))) = some ((k, x) :: ms, t)
  | k, x, [], n + 1, t, h => by
    have hk := parseStr_printStr k (0x3a :: (print x ++ 0x7d :: t))
    have hv := value_print x n (0x7d :: t) (by omega) (endsNumber_cons t (by decide))
    exact members_nil hk hv
  | k, x, (k', y) :: ms, n + 1, t, h => by
    simp only [sizeMembers] at h
    have hm := members_print k' y ms n t (by omega)
    have hv := value_print x n (0x2c :: (printStr k' ++ 0x3a :: (print y ++ (printMembers ms ++ t))))
      (by omega) (endsNumber_cons _ (by decide))
    have hk := parseStr_printStr k
      (0x3a :: (print x ++ 0x2c :: (printStr k' ++ 0x3a :: (print y ++ (printMembers ms ++ t)))))
    simpa [printMembers] using members_cons hk hv hm
end

/-- The compact text of a tree, and white space behind it, parses to that tree. -/
theorem parse_print_append (j : Json) {t : Bytes} (ht : EndsNumber t) (hspace : skipSpace t = []) :
    parse (print j ++ t) = some j := by
  have hn : size j ≤ 2 * (print j ++ t).length := by
    have h := size_le j
    rw [List.length_append]
    omega
  rw [parse, value_print j _ t hn ht]
  exact if_pos hspace

/-- The compact text of a tree parses to that tree. -/
theorem parse_print (j : Json) : parse (print j) = some j := by
  have h := parse_print_append j (t := []) endsNumber_nil rfl
  rwa [List.append_nil] at h

theorem checkValid_print {j : Json} (h : depth j ≤ maxNestingDepth) :
    checkValid (print j) = some j := by
  simp [checkValid, parse_print, h]

/-! ## Printed trees stay on one line -/

theorem printDigits_bytes (ds : List Digit) : ∀ b ∈ printDigits ds, 0x20 ≤ b.toNat := by
  intro b hb
  obtain ⟨d, -, rfl⟩ := List.mem_map.mp hb
  exact (by decide : ∀ d : Digit, 0x20 ≤ d.byte.toNat) d

theorem Num.print_bytes (n : Num) : ∀ b ∈ n.print, 0x20 ≤ b.toNat := by
  obtain ⟨neg, int, frac, exp, hint⟩ := n
  intro b hb
  simp only [Num.print, List.mem_append] at hb
  rcases hb with hb | hb | hb | hb
  · cases neg <;> simp at hb
    subst hb
    decide
  · exact printDigits_bytes _ b hb
  · cases frac with
    | none => simp [printFrac] at hb
    | some ds =>
      rcases List.mem_cons.mp hb with rfl | hb
      · decide
      · exact printDigits_bytes _ b hb
  · cases exp with
    | none => simp [printExp] at hb
    | some e =>
      obtain ⟨upper, sign, ds⟩ := e
      simp only [printExp, Exponent.print_eq, List.mem_cons, List.mem_append] at hb
      rcases hb with rfl | hb | hb
      · cases upper <;> simp
      · rcases sign with _ | _ | _ <;> simp [signBytes] at hb <;> subst hb <;> decide
      · exact printDigits_bytes _ b hb

theorem hexByte_ge (h : HexByte) : 0x20 ≤ h.val.toNat := by
  have hok := h.ok
  by_contra hlt
  simp only [hexVal] at hok
  rw [dif_neg (by omega), dif_neg (by omega), dif_neg (by omega)] at hok
  simp at hok

theorem StrItem.print_bytes (i : StrItem) : ∀ b ∈ i.print, 0x20 ≤ b.toNat := by
  intro b hb
  cases i with
  | raw r =>
    simp only [StrItem.print, List.mem_singleton] at hb
    exact hb ▸ r.ok.1
  | esc e => cases e <;> revert b <;> decide
  | unicode x y z w =>
    simp only [StrItem.print, List.mem_cons, List.not_mem_nil, or_false] at hb
    rcases hb with rfl | rfl | rfl | rfl | rfl | rfl
    · decide
    · decide
    all_goals exact hexByte_ge _

theorem printStr_bytes (s : Lexeme) : ∀ b ∈ printStr s, 0x20 ≤ b.toNat := by
  intro b hb
  simp only [printStr, printLexeme, List.mem_cons, List.mem_append, List.mem_flatMap,
    List.not_mem_nil, or_false] at hb
  rcases hb with rfl | ⟨i, -, hb⟩ | rfl
  · decide
  · exact i.print_bytes b hb
  · decide

mutual
theorem print_bytes : ∀ j : Json, ∀ b ∈ print j, 0x20 ≤ b.toNat
  | .null => by decide
  | .bool true => by decide
  | .bool false => by decide
  | .num n => n.print_bytes
  | .str s => printStr_bytes s
  | .arr [] => by decide
  | .arr (x :: xs) => by
    intro b hb
    simp only [print, List.mem_cons, List.mem_append] at hb
    rcases hb with rfl | hb | hb
    · decide
    · exact print_bytes x b hb
    · exact printItems_bytes xs b hb
  | .obj [] => by decide
  | .obj ((k, x) :: ms) => by
    intro b hb
    simp only [print, List.mem_cons, List.mem_append] at hb
    rcases hb with rfl | hb | rfl | hb | hb
    · decide
    · exact printStr_bytes k b hb
    · decide
    · exact print_bytes x b hb
    · exact printMembers_bytes ms b hb
theorem printItems_bytes : ∀ xs : List Json, ∀ b ∈ printItems xs, 0x20 ≤ b.toNat
  | [] => by decide
  | x :: xs => by
    intro b hb
    simp only [printItems, List.mem_cons, List.mem_append] at hb
    rcases hb with rfl | hb | hb
    · decide
    · exact print_bytes x b hb
    · exact printItems_bytes xs b hb
theorem printMembers_bytes : ∀ ms : List (Lexeme × Json), ∀ b ∈ printMembers ms, 0x20 ≤ b.toNat
  | [] => by decide
  | (k, x) :: ms => by
    intro b hb
    simp only [printMembers, List.mem_cons, List.mem_append] at hb
    rcases hb with rfl | hb | rfl | hb | hb
    · decide
    · exact printStr_bytes k b hb
    · decide
    · exact print_bytes x b hb
    · exact printMembers_bytes ms b hb
end

/-- A printed tree holds no line feed and no carriage return. -/
theorem print_one_line (j : Json) : lf ∉ print j ∧ cr ∉ print j := by
  constructor
  · intro h
    have hb := print_bytes j lf h
    simp [lf] at hb
  · intro h
    have hb := print_bytes j cr h
    simp [cr] at hb

theorem checkValid_eq_some {src : Bytes} {j : Json} :
    checkValid src = some j ↔ parse src = some j ∧ depth j ≤ maxNestingDepth := by
  unfold checkValid
  cases parse src with
  | none => simp
  | some j' =>
    simp only [Option.some.injEq]
    split
    · rename_i hdepth
      simp only [Option.some.injEq]
      constructor
      · rintro rfl
        exact ⟨rfl, hdepth⟩
      · exact And.left
    · rename_i hdepth
      constructor
      · intro h
        cases h
      · rintro ⟨rfl, h⟩
        exact absurd h hdepth

theorem parse_of_checkValid {src : Bytes} {j : Json} (h : checkValid src = some j) : parse src = some j :=
  (checkValid_eq_some.mp h).1

theorem depth_of_checkValid {src : Bytes} {j : Json} (h : checkValid src = some j) : depth j ≤ maxNestingDepth :=
  (checkValid_eq_some.mp h).2

end GoJson
