import Mathlib.Data.List.DropRight

/-!
# Byte strings

The fragment of Go's `bytes`, `strings` and `bufio` packages that works on raw
bytes: affixes, substring search, trimming of line ends, and reading a source
line by line. A Go string is a byte string; one that is known to be valid UTF-8
is represented by its characters.
-/
namespace GoBytes

abbrev Bytes := List UInt8

/-- A Go string that is valid UTF-8, as the list of its characters. -/
abbrev Text := List Char

def lf : UInt8 := 0x0a
def cr : UInt8 := 0x0d

/-- The bytes of an ASCII literal. -/
def ascii (s : String) : Bytes := s.toList.map fun c => UInt8.ofNat c.toNat

/-- `bytes.HasPrefix`. -/
def hasPrefix (s p : Bytes) : Bool := p.isPrefixOf s

/-- `bytes.HasSuffix`. -/
def hasSuffix (s p : Bytes) : Bool := p.isSuffixOf s

/-- `bytes.Contains`. -/
def contains : Bytes → Bytes → Bool
  | [], sub => sub.isEmpty
  | b :: s, sub => sub.isPrefixOf (b :: s) || contains s sub

/-- `bytes.TrimPrefix`. -/
def trimPrefix (s p : Bytes) : Bytes := if hasPrefix s p then s.drop p.length else s

def isLineEnd (b : UInt8) : Bool := b == cr || b == lf

/-- `bytes.TrimRight(s, "\r\n")`. -/
def trimLineEnd (s : Bytes) : Bytes := s.rdropWhile isLineEnd

/-- What `trimLineEnd` cuts off: `line[len(trimmed):]`. -/
def lineEnd (s : Bytes) : Bytes := s.drop (trimLineEnd s).length

theorem hasPrefix_iff (s p : Bytes) : hasPrefix s p = true ↔ ∃ t, s = p ++ t := by
  simp only [hasPrefix, List.isPrefixOf_iff_prefix]
  constructor
  · rintro ⟨t, ht⟩
    exact ⟨t, ht.symm⟩
  · rintro ⟨t, ht⟩
    exact ⟨t, ht.symm⟩

theorem hasSuffix_iff (s p : Bytes) : hasSuffix s p = true ↔ ∃ t, s = t ++ p := by
  simp only [hasSuffix, List.isSuffixOf_iff_suffix]
  constructor
  · rintro ⟨t, ht⟩
    exact ⟨t, ht.symm⟩
  · rintro ⟨t, ht⟩
    exact ⟨t, ht.symm⟩

@[simp] theorem hasPrefix_append (p t : Bytes) : hasPrefix (p ++ t) p = true :=
  (hasPrefix_iff _ _).mpr ⟨t, rfl⟩

@[simp] theorem trimPrefix_append (p t : Bytes) : trimPrefix (p ++ t) p = t := by
  simp [trimPrefix]

/-- A substring occurs exactly when the string splits around it. -/
theorem contains_iff (s sub : Bytes) :
    contains s sub = true ↔ ∃ a b, s = a ++ sub ++ b := by
  induction s with
  | nil =>
    simp only [contains, List.isEmpty_iff]
    constructor
    · rintro rfl
      exact ⟨[], [], rfl⟩
    · rintro ⟨a, b, h⟩
      have h' := h.symm
      simp only [List.append_eq_nil_iff] at h'
      exact h'.1.2
  | cons x s ih =>
    simp only [contains, Bool.or_eq_true, List.isPrefixOf_iff_prefix, ih]
    constructor
    · rintro (⟨t, ht⟩ | ⟨a, b, rfl⟩)
      · exact ⟨[], t, by simpa using ht.symm⟩
      · exact ⟨x :: a, b, by simp⟩
    · rintro ⟨a, b, h⟩
      cases a with
      | nil => exact .inl ⟨b, by simpa using h.symm⟩
      | cons y a =>
        simp only [List.cons_append, List.cons.injEq] at h
        exact .inr ⟨a, b, h.2⟩

theorem trimLineEnd_append_lineEnd (s : Bytes) : trimLineEnd s ++ lineEnd s = s := by
  have h : trimLineEnd s <+: s := List.rdropWhile_prefix isLineEnd s
  obtain ⟨t, ht⟩ := h
  unfold lineEnd
  conv_lhs => rw [← ht]
  rw [show trimLineEnd (trimLineEnd s ++ t) = trimLineEnd s by rw [ht]]
  simpa using ht

theorem lineEnd_isLineEnd (s : Bytes) : ∀ b ∈ lineEnd s, isLineEnd b = true := by
  have h : lineEnd s = s.rtakeWhile isLineEnd := by
    have he : trimLineEnd s ++ lineEnd s = trimLineEnd s ++ s.rtakeWhile isLineEnd := by
      rw [trimLineEnd_append_lineEnd, trimLineEnd, List.rdropWhile_append_rtakeWhile]
    exact List.append_cancel_left he
  rw [h]
  exact fun b hb => List.mem_rtakeWhile_imp hb

/-- Line ends behind a text are trimmed together with the line ends at its end. -/
theorem trimLineEnd_append (s : Bytes) {e : Bytes} (he : ∀ b ∈ e, isLineEnd b = true) :
    trimLineEnd (s ++ e) = trimLineEnd s := by
  induction e using List.reverseRecOn with
  | nil => rw [List.append_nil]
  | append_singleton e b ih =>
    rw [trimLineEnd, ← List.append_assoc, List.rdropWhile_concat_pos _ _ _ (he b (by simp))]
    exact ih fun c hc => he c (by simp [hc])

theorem trimLineEnd_of_forall {s : Bytes} (h : ∀ b ∈ s, isLineEnd b = false) : trimLineEnd s = s := by
  rw [trimLineEnd, List.rdropWhile_eq_self_iff]
  intro hne
  simp [h _ (List.getLast_mem hne)]

/-! ## Reading lines -/

/-- The results of calling `ReadBytes('\n')` until the source ends: the lines
with their terminator, and the unterminated rest that the last call returns. -/
def readLines : Bytes → List Bytes × Bytes
  | [] => ([], [])
  | b :: bs =>
    let r := readLines bs
    if b = lf then ([lf] :: r.1, r.2)
    else match r.1 with
      | [] => ([], b :: r.2)
      | l :: ls => ((b :: l) :: ls, r.2)

/-- A line as `ReadBytes` returns it: one line feed, at its end. -/
def IsLine (l : Bytes) : Prop := ∃ c, l = c ++ [lf] ∧ lf ∉ c

theorem IsLine.ne_nil {l : Bytes} (h : IsLine l) : l ≠ [] := by
  obtain ⟨c, rfl, -⟩ := h
  simp

theorem readLines_flatten (s : Bytes) :
    (readLines s).1.flatten ++ (readLines s).2 = s := by
  induction s with
  | nil => rfl
  | cons b s ih =>
    simp only [readLines]
    split
    · rename_i h
      simpa [h] using ih
    · split
      · rename_i h
        simpa [h] using ih
      · rename_i l ls h
        rw [h] at ih
        simpa using ih

theorem readLines_isLine (s : Bytes) : ∀ l ∈ (readLines s).1, IsLine l := by
  induction s with
  | nil => simp [readLines]
  | cons b s ih =>
    intro l hl
    simp only [readLines] at hl
    split at hl
    · rcases List.mem_cons.mp hl with rfl | hl
      · exact ⟨[], rfl, by simp⟩
      · exact ih l hl
    · rename_i hb
      split at hl
      · simp at hl
      · rename_i l' ls h
        rcases List.mem_cons.mp hl with rfl | hl
        · obtain ⟨c, rfl, hc⟩ := ih l' (by simp [h])
          exact ⟨b :: c, rfl, by simp [Ne.symm hb, hc]⟩
        · exact ih l (by simp [h, hl])

theorem readLines_rest (s : Bytes) : lf ∉ (readLines s).2 := by
  induction s with
  | nil => simp [readLines]
  | cons b s ih =>
    simp only [readLines]
    split
    · exact ih
    · rename_i hb
      split
      · simp [Ne.symm hb, ih]
      · exact ih

theorem readLines_of_not_mem {s : Bytes} (h : lf ∉ s) : readLines s = ([], s) := by
  induction s with
  | nil => rfl
  | cons b s ih =>
    simp only [List.mem_cons, not_or] at h
    simp [readLines, ih h.2, Ne.symm h.1]

theorem readLines_line_append {l : Bytes} (hl : IsLine l) (s : Bytes) :
    readLines (l ++ s) = (l :: (readLines s).1, (readLines s).2) := by
  obtain ⟨c, rfl, hc⟩ := hl
  induction c with
  | nil => simp [readLines]
  | cons b c ih =>
    simp only [List.mem_cons, not_or] at hc
    have h := ih hc.2
    simp only [List.cons_append, List.append_assoc, List.nil_append] at h ⊢
    simp [readLines, h, Ne.symm hc.1]

/-- A word without the character in between stands on one side of it. -/
theorem infix_append_cons {α : Type} {w a b : List α} {c : α} (hc : c ∉ w) :
    w <:+: a ++ c :: b ↔ w <:+: a ∨ w <:+: b := by
  constructor
  · rintro ⟨s, t, h⟩
    rw [List.append_assoc] at h
    obtain ⟨r, ha, hr⟩ | ⟨r, hs, hr⟩ := List.append_eq_append_iff.mp h
    · obtain ⟨r', hw, hr'⟩ | ⟨r', hw, hr'⟩ := List.append_eq_append_iff.mp hr
      · left
        rw [ha, hw, ← List.append_assoc]
        exact List.infix_append _ _ _
      · cases r' with
        | nil =>
          left
          rw [List.append_nil] at hw
          rw [ha, hw]
          exact List.infix_append_right
        | cons d r' =>
          rw [List.cons_append, List.cons.injEq] at hr'
          rw [hw, hr'.1] at hc
          simp at hc
    · cases r with
      | nil =>
        cases w with
        | nil => exact .inl List.nil_infix
        | cons d w =>
          rw [List.nil_append, List.cons_append, List.cons.injEq] at hr
          rw [hr.1] at hc
          simp at hc
      | cons d r =>
        right
        rw [List.cons_append, List.cons.injEq] at hr
        rw [hr.2, ← List.append_assoc]
        exact List.infix_append _ _ _
  · intro h
    cases h with
    | inl h => exact List.infix_append_of_infix_left h
    | inr h => exact List.infix_append_of_infix_right (List.infix_cons h)

end GoBytes
