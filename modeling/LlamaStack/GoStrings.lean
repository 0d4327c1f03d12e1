import LlamaStack.GoStream
import LlamaStack.GoUtf8

/-!
# Strings

The functions of Go's `strings` package that look at runes: trimming of white
space, splitting at line feeds, and lower case as far as an ASCII word can tell.
-/
namespace GoStrings

open GoBytes GoStream GoUtf8

/-! ## White space -/

/-- The runes of `unicode.IsSpace`. -/
def spaceRunes : List Char :=
  ([0x09, 0x0a, 0x0b, 0x0c, 0x0d, 0x20, 0x85, 0xa0, 0x1680, 0x2000, 0x2001, 0x2002, 0x2003, 0x2004,
    0x2005, 0x2006, 0x2007, 0x2008, 0x2009, 0x200a, 0x2028, 0x2029, 0x202f, 0x205f, 0x3000]
    : List Nat).map Char.ofNat

def spaces : List Bytes := spaceRunes.map encodeRune

/-- The string without the pieces that stand at its front. -/
def dropPieces (pieces : List Bytes) : Nat → Bytes → Bytes
  | 0, s => s
  | fuel + 1, s =>
    match pieces.find? (hasPrefix s) with
    | some p => dropPieces pieces fuel (s.drop p.length)
    | none => s

/-- `strings.TrimSpace`. Every piece has a byte, so the length is fuel enough. -/
def trimSpace (s : Bytes) : Bytes :=
  let t := dropPieces spaces s.length s
  (dropPieces (spaces.map List.reverse) t.length t.reverse).reverse

/-- What trimming drops is made of the pieces. -/
theorem dropPieces_spec (pieces : List Bytes) (fuel : Nat) (s : Bytes) :
    ∃ ps, s = List.flatten ps ++ dropPieces pieces fuel s ∧ ∀ p ∈ ps, p ∈ pieces := by
  induction fuel generalizing s with
  | zero => exact ⟨[], rfl, by simp⟩
  | succ fuel ih =>
    unfold dropPieces
    split
    · rename_i p hp
      obtain ⟨ps, hs, hps⟩ := ih (s.drop p.length)
      obtain ⟨t, ht⟩ := (hasPrefix_iff _ _).mp (List.find?_some hp)
      refine ⟨p :: ps, ?_, ?_⟩
      · rw [List.flatten_cons, List.append_assoc, ← hs, ht]
        simp
      · intro q hq
        rcases List.mem_cons.mp hq with rfl | hq
        · exact List.mem_of_find?_eq_some hp
        · exact hps q hq
    · exact ⟨[], rfl, by simp⟩

/-- A string of which trimming leaves nothing holds bytes of white space only. -/
theorem mem_spaces_of_trimSpace {s : Bytes} (h : trimSpace s = []) : ∀ b ∈ s, b ∈ spaces.flatten := by
  obtain ⟨ps, hs, hps⟩ := dropPieces_spec spaces s.length s
  obtain ⟨qs, ht, hqs⟩ := dropPieces_spec (spaces.map List.reverse)
    (dropPieces spaces s.length s).length (dropPieces spaces s.length s).reverse
  rw [trimSpace, List.reverse_eq_nil_iff] at h
  rw [h, List.append_nil] at ht
  intro b hb
  rw [hs] at hb
  rcases List.mem_append.mp hb with hb | hb
  · obtain ⟨p, hp, hbp⟩ := List.mem_flatten.mp hb
    exact List.mem_flatten.mpr ⟨p, hps p hp, hbp⟩
  · rw [← List.mem_reverse, ht] at hb
    obtain ⟨q, hq, hbq⟩ := List.mem_flatten.mp hb
    obtain ⟨p, hp, rfl⟩ := List.mem_map.mp (hqs q hq)
    exact List.mem_flatten.mpr ⟨p, hp, List.mem_reverse.mp hbq⟩

/-! ## Lines -/

/-- `strings.ReplaceAll(s, "\r\n", "\n")`. -/
def crlfToLf : Bytes → Bytes
  | [] => []
  | b :: s => if b = cr ∧ s.head? = some lf then crlfToLf s else b :: crlfToLf s

/-- `strings.Split(s, "\n")`. -/
def splitLf (s : Bytes) : List Bytes := s.splitOn lf

theorem crlfToLf_of_not_mem {s : Bytes} (h : lf ∉ s) : crlfToLf s = s := by
  induction s with
  | nil => rfl
  | cons b s ih =>
    simp only [List.mem_cons, not_or] at h
    have hs : s.head? ≠ some lf := fun hm => h.2 (List.mem_of_mem_head? hm)
    rw [crlfToLf, if_neg fun hb => hs hb.2, ih h.2]

theorem crlfToLf_append {t u : Bytes} (ht : lf ∉ t)
    (h : t.getLast? = some cr → u.head? ≠ some lf) : crlfToLf (t ++ u) = t ++ crlfToLf u := by
  induction t with
  | nil => rfl
  | cons b t ih =>
    simp only [List.mem_cons, not_or] at ht
    have hb : ¬ (b = cr ∧ (t ++ u).head? = some lf) := by
      rintro ⟨rfl, hu⟩
      cases t with
      | nil => exact h rfl hu
      | cons c t =>
        simp only [List.cons_append, List.head?_cons, Option.some.injEq] at hu
        simp [hu] at ht
    have hlast : t.getLast? = some cr → u.head? ≠ some lf := by
      cases t with
      | nil => simp
      | cons c t => simpa using h
    rw [List.cons_append, crlfToLf, if_neg hb, ih ht.2 hlast, List.cons_append]

/-- A line keeps its text, and its end becomes LF. -/
theorem crlfToLf_line {l : Bytes} (hl : IsLine l) (s : Bytes) :
    crlfToLf (l ++ s) = lineText l ++ lf :: crlfToLf s := by
  have ht := lf_not_mem_lineText (.inl hl)
  have he := lineText_append_terminator l
  have hlf : crlfToLf (lf :: s) = lf :: crlfToLf s := by simp [crlfToLf, lf, cr]
  rcases terminator_cases l with hc | hc | hc
  · rw [hc] at he
    conv_lhs => rw [← he]
    rw [List.append_assoc, crlfToLf_append ht (by simp [lf, cr]), List.cons_append, crlfToLf,
      if_pos ⟨rfl, rfl⟩, List.singleton_append, hlf]
  · rw [hc] at he
    have hcr : (lineText l).getLast? ≠ some cr := by
      intro hlast
      obtain ⟨t, hlt⟩ := List.getLast?_eq_some_iff.mp hlast
      have hs : hasSuffix l [cr, lf] = true :=
        (hasSuffix_iff _ _).mpr ⟨t, by rw [← he, hlt]; simp⟩
      have hlen := congrArg List.length hlt
      rw [lineText, if_pos hs, ← he, hlt] at hlen
      simp at hlen
    conv_lhs => rw [← he]
    rw [List.append_assoc, crlfToLf_append ht fun h => absurd h hcr, List.singleton_append, hlf]
  · exact absurd hc (terminator_ne_nil hl)

/-- The pieces of some lines: their texts, and an empty piece behind the last
line feed. -/
theorem splitLf_crlfToLf {ls : List Bytes} (h : IsLines ls) :
    ∃ tail, splitLf (crlfToLf ls.flatten) = ls.map lineText ++ tail ∧ ∀ t ∈ tail, t = [] := by
  have hline : ∀ {l : Bytes}, IsLine l → ∀ s,
      splitLf (crlfToLf (l ++ s)) = lineText l :: splitLf (crlfToLf s) := by
    intro l hl s
    rw [crlfToLf_line hl, splitLf, List.splitOn_append_cons_self,
      List.splitOn_eq_singleton (lf_not_mem_lineText (.inl hl))]
    rfl
  induction ls with
  | nil => exact ⟨[[]], by simp [crlfToLf, splitLf], by simp⟩
  | cons l ls ih =>
    cases ls with
    | nil =>
      rcases h with h | h
      · exact ⟨[[]], by simpa [crlfToLf, splitLf] using hline h [], by simp⟩
      · refine ⟨[], ?_, by simp⟩
        have ht : lineText l = l := by
          have he := lineText_append_terminator l
          rwa [terminator_of_rest h.2, List.append_nil] at he
        rw [List.flatten_singleton, crlfToLf_of_not_mem h.2, splitLf, List.splitOn_eq_singleton h.2]
        simp [ht]
    | cons l' ls =>
      obtain ⟨tail, ht, he⟩ := ih h.2
      refine ⟨tail, ?_, he⟩
      rw [List.flatten_cons, hline h.1, ht]
      rfl

/-! ## Lower case -/

/-- `unicode.ToLower` as far as it yields ASCII: capital letters, and the two
other runes whose lower case is an ASCII letter. -/
def lowerRune (c : Char) : Char :=
  if 'A' ≤ c ∧ c ≤ 'Z' then Char.ofNat (c.toNat + 32)
  else if c.toNat = 0x130 then 'i'
  else if c.toNat = 0x212A then 'k'
  else c

/-- `strings.Contains(strings.ToLower(s), word)` for an ASCII word. -/
def containsFold (s : Text) (word : String) : Bool := decide (word.toList <:+: s.map lowerRune)

end GoStrings
