import Mathlib.Data.List.Lex
import Mathlib.Order.Fin.Basic
import LlamaStack.GoUtf8

/-!
# Python strings

A Python `str` is a list of code points, lone surrogates included: a file name that is
not UTF-8 is read as such. The methods here are those for texts that are made of lines.
-/
namespace PythonStr

open GoBytes GoUtf8

abbrev CodePoint := Fin 0x110000

abbrev Str := List CodePoint

theorem char_lt (c : Char) : c.toNat < 0x110000 := by
  have h := char_bounds c
  omega

def ofChar (c : Char) : CodePoint := ⟨c.toNat, char_lt c⟩

/-- A literal. -/
def lit (s : String) : Str := s.toList.map ofChar

def newline : CodePoint := ofChar '\n'
def cr : CodePoint := ofChar '\r'

def isSurrogate (c : CodePoint) : Bool := 0xD800 ≤ c.val && c.val ≤ 0xDFFF

/-- The ends of lines for `str.splitlines`. -/
def isLineBreak (c : CodePoint) : Bool :=
  (0x0A ≤ c.val && c.val ≤ 0x0D) || (0x1C ≤ c.val && c.val ≤ 0x1E) || c.val == 0x85 || c.val == 0x2028 ||
    c.val == 0x2029

/-- `str.isspace` on one character. -/
def isSpace (c : CodePoint) : Bool :=
  (0x09 ≤ c.val && c.val ≤ 0x0D) || (0x1C ≤ c.val && c.val ≤ 0x20) || c.val == 0x85 || c.val == 0xA0 ||
    c.val == 0x1680 || (0x2000 ≤ c.val && c.val ≤ 0x200A) || c.val == 0x2028 || c.val == 0x2029 || c.val == 0x202F ||
    c.val == 0x205F || c.val == 0x3000

/-- `str.encode("utf-8")`; a surrogate has no encoding. -/
def encodeUtf8 (s : Str) : Option Bytes :=
  if s.any isSurrogate then none else some (encodeText (s.map fun c => Char.ofNat c.val))

/-- `bytes.decode("utf-8")`. -/
def decodeUtf8 (b : Bytes) : Option Str := ((decodeRunes b).mapM id).map fun t => t.map ofChar

/-- Text mode reads a carriage return, alone or before a line feed, as a line feed. -/
def universalNewlines : Bool → Str → Str
  | _, [] => []
  | afterCr, c :: s =>
    if c = cr then newline :: universalNewlines true s
    else if afterCr ∧ c = newline then universalNewlines false s
    else c :: universalNewlines false s

/-- `str.splitlines`. Nothing follows the end of the last line. -/
def splitLines (s : Str) : List Str :=
  let ls := (universalNewlines false s).splitOnP isLineBreak
  if ls.getLast? = some [] then ls.dropLast else ls

/-- `str.strip`. -/
def strip (s : Str) : Str := (s.dropWhile isSpace).rdropWhile isSpace

/-- `str.split(None, 1)`: the first word, and what follows the space after it. -/
def splitFirst (s : Str) : List Str :=
  let t := s.dropWhile isSpace
  [t.takeWhile fun c => !isSpace c, (t.dropWhile fun c => !isSpace c).dropWhile isSpace].filter fun f => f ≠ []

/-! ## Encoding -/

theorem ofChar_ofNat {c : CodePoint} (h : isSurrogate c = false) : ofChar (Char.ofNat c.val) = c := by
  have hc : c.val.isValidChar := by
    have hlt := c.isLt
    simp only [isSurrogate, Bool.and_eq_false_iff, decide_eq_false_iff_not] at h
    simp only [Nat.isValidChar]
    omega
  have hchar : Char.ofNat c.val = Char.ofNatAux c.val hc := dif_pos hc
  apply Fin.ext
  change (Char.ofNat c.val).toNat = c.val
  rw [hchar]
  rfl

theorem encodeUtf8_isSome_iff (s : Str) : (encodeUtf8 s).isSome ↔ ∀ c ∈ s, isSurrogate c = false := by
  unfold encodeUtf8
  split
  · rename_i h
    obtain ⟨c, hc, hs⟩ := List.any_eq_true.mp h
    constructor
    · exact fun h => absurd h (by simp)
    · exact fun h => absurd (h c hc) (by simp [hs])
  · rename_i h
    constructor
    · intro _ c hc
      by_contra hs
      exact h (List.any_eq_true.mpr ⟨c, hc, eq_true_of_ne_false hs⟩)
    · exact fun _ => rfl

theorem decodeUtf8_encodeUtf8 {s : Str} {b : Bytes} (h : encodeUtf8 s = some b) : decodeUtf8 b = some s := by
  have hs : ∀ c ∈ s, isSurrogate c = false := (encodeUtf8_isSome_iff s).mp (by rw [h]; rfl)
  unfold encodeUtf8 at h
  split at h
  · cases h
  · obtain rfl := Option.some.inj h
    have hrunes := decodeRunes_encodeText (s.map fun c => Char.ofNat c.val) []
    rw [List.append_nil, decodeRunes_nil, List.append_nil] at hrunes
    have hall : ∀ t : Text, (t.map some).mapM id = some t := by
      intro t
      induction t with
      | nil => rfl
      | cons c t ih => simp [List.mapM_cons, ih]
    rw [decodeUtf8, hrunes, hall, Option.map_some, List.map_map]
    congr 1
    calc s.map (ofChar ∘ fun c => Char.ofNat c.val)
        = s.map id := List.map_congr_left fun c hc => ofChar_ofNat (hs c hc)
      _ = s := List.map_id s

theorem isSurrogate_of_decodeUtf8 {b : Bytes} {s : Str} (h : decodeUtf8 b = some s) :
    ∀ c ∈ s, isSurrogate c = false := by
  obtain ⟨t, -, rfl⟩ := Option.map_eq_some_iff.mp h
  intro c hc
  obtain ⟨x, -, rfl⟩ := List.mem_map.mp hc
  have hx := char_bounds x
  rw [isSurrogate, Bool.and_eq_false_iff, decide_eq_false_iff_not, decide_eq_false_iff_not]
  change ¬0xD800 ≤ x.toNat ∨ ¬x.toNat ≤ 0xDFFF
  omega

/-! ## Lines -/

theorem isSpace_of_isLineBreak {c : CodePoint} (h : isLineBreak c = true) : isSpace c = true := by
  simp only [isLineBreak, isSpace, Bool.or_eq_true, Bool.and_eq_true, decide_eq_true_eq, beq_iff_eq] at h ⊢
  omega

theorem universalNewlines_of_not_mem {s : Str} (h : cr ∉ s) : universalNewlines false s = s := by
  induction s with
  | nil => rfl
  | cons c s ih =>
    have hc : c ≠ cr := fun he => h (he ▸ List.mem_cons_self)
    have hs : cr ∉ s := fun hm => h (List.mem_cons_of_mem _ hm)
    rw [universalNewlines, if_neg hc, if_neg (by simp), ih hs]

theorem mem_universalNewlines {s : Str} {afterCr : Bool} {c : CodePoint} (h : c ∈ universalNewlines afterCr s) :
    c ∈ s ∨ c = newline := by
  induction s generalizing afterCr with
  | nil => cases h
  | cons a s ih =>
    rw [universalNewlines] at h
    split at h
    · cases List.mem_cons.mp h with
      | inl h => exact .inr h
      | inr h => exact (ih h).imp_left (List.mem_cons_of_mem _)
    · split at h
      · exact (ih h).imp_left (List.mem_cons_of_mem _)
      · cases List.mem_cons.mp h with
        | inl h => exact .inl (h ▸ List.mem_cons_self)
        | inr h => exact (ih h).imp_left (List.mem_cons_of_mem _)

theorem mem_of_mem_splitOnP {s l : Str} (hl : l ∈ s.splitOnP isLineBreak) :
    ∀ c ∈ l, c ∈ s ∧ isLineBreak c = false := by
  induction s generalizing l with
  | nil =>
    rw [List.splitOnP_nil, List.mem_singleton] at hl
    subst hl
    simp
  | cons a s ih =>
    have hlater : ∀ {l : Str}, l ∈ s.splitOnP isLineBreak → ∀ c ∈ l, c ∈ a :: s ∧ isLineBreak c = false :=
      fun hl c hc => (ih hl c hc).imp_left (List.mem_cons_of_mem _)
    rw [List.splitOnP_cons_eq_if_modifyHead] at hl
    split at hl
    · cases List.mem_cons.mp hl with
      | inl h => simp [h]
      | inr h => exact hlater h
    · rename_i ha
      obtain ⟨hd, tl, hsp⟩ := List.exists_cons_of_ne_nil (List.splitOnP_ne_nil isLineBreak s)
      rw [hsp, List.modifyHead_cons] at hl
      cases List.mem_cons.mp hl with
      | inl h =>
        subst h
        intro c hc
        cases List.mem_cons.mp hc with
        | inl h =>
          rw [h]
          exact ⟨List.mem_cons_self, eq_false_of_ne_true ha⟩
        | inr h => exact hlater (hsp ▸ List.mem_cons_self) c h
      | inr h => exact hlater (hsp ▸ List.mem_cons_of_mem hd h)

/-- No line has an end of a line inside. -/
theorem mem_of_mem_splitLines {s l : Str} (hl : l ∈ splitLines s) :
    ∀ c ∈ l, (c ∈ s ∨ c = newline) ∧ isLineBreak c = false := by
  have hsplit : l ∈ (universalNewlines false s).splitOnP isLineBreak := by
    unfold splitLines at hl
    simp only at hl
    split at hl
    · exact List.dropLast_subset _ hl
    · exact hl
  exact fun c hc => (mem_of_mem_splitOnP hsplit c hc).imp_left mem_universalNewlines

/-- Text mode reads such lines as they were written. -/
theorem universalNewlines_lines {ls : List Str} (h : ∀ l ∈ ls, ∀ c ∈ l, isLineBreak c = false) :
    universalNewlines false (ls.flatMap fun l => l ++ [newline]) = ls.flatMap fun l => l ++ [newline] := by
  apply universalNewlines_of_not_mem
  intro hm
  obtain ⟨l, hl, hm⟩ := List.mem_flatMap.mp hm
  cases List.mem_append.mp hm with
  | inl hm => exact absurd (h l hl cr hm) (by decide)
  | inr hm => exact absurd (List.mem_singleton.mp hm) (by decide)

/-- Lines that are written with a line feed after each are read back. -/
theorem splitLines_lines {ls : List Str} (h : ∀ l ∈ ls, ∀ c ∈ l, isLineBreak c = false) :
    splitLines (ls.flatMap fun l => l ++ [newline]) = ls := by
  have hsplit : (ls.flatMap fun l => l ++ [newline]).splitOnP isLineBreak = ls ++ [[]] := by
    induction ls with
    | nil => rfl
    | cons l ls ih =>
      rw [List.flatMap_cons, List.append_assoc, List.singleton_append,
        List.splitOnP_append_cons_of_forall_mem (h l List.mem_cons_self) newline (by decide),
        ih fun l hl => h l (List.mem_cons_of_mem _ hl), List.cons_append]
  rw [splitLines, universalNewlines_lines h, hsplit, if_pos List.getLast?_concat, List.dropLast_concat]

/-! ## Words -/

theorem strip_within (s : Str) : strip s <:+: s :=
  (List.rdropWhile_prefix isSpace _).isInfix.trans (List.dropWhile_suffix isSpace).isInfix

theorem strip_last (s : Str) : ∀ c ∈ (strip s).getLast?, isSpace c = false := by
  intro c hc
  have hne : strip s ≠ [] := by
    intro h
    rw [h] at hc
    cases hc
  have hlast := List.rdropWhile_last_not isSpace (s.dropWhile isSpace) hne
  rw [Option.mem_def, List.getLast?_eq_getLast_of_ne_nil hne, Option.some_inj] at hc
  exact hc ▸ eq_false_of_ne_true hlast

theorem dropWhile_of_head {s : Str} (h : ∀ c ∈ s.head?, isSpace c = false) : s.dropWhile isSpace = s := by
  cases s with
  | nil => rfl
  | cons c s => rw [List.dropWhile_cons, h c rfl]; rfl

theorem strip_of_ends {s : Str} (hhead : ∀ c ∈ s.head?, isSpace c = false)
    (hlast : ∀ c ∈ s.getLast?, isSpace c = false) : strip s = s := by
  rw [strip, dropWhile_of_head hhead, List.rdropWhile_eq_self_iff]
  intro hne
  rw [hlast (s.getLast hne) (List.getLast?_eq_getLast_of_ne_nil hne)]
  exact Bool.false_ne_true

theorem strip_ne_nil {s : Str} {c : CodePoint} (hc : c ∈ s) (h : isSpace c = false) : strip s ≠ [] := by
  intro hnil
  rw [strip, List.rdropWhile_eq_nil_iff] at hnil
  have hsplit := List.takeWhile_append_dropWhile (p := isSpace) (l := s)
  rw [← hsplit] at hc
  cases List.mem_append.mp hc with
  | inl hc => exact absurd (List.mem_takeWhile_imp hc) (by simp [h])
  | inr hc => exact absurd (hnil c hc) (by simp [h])

theorem splitFirst_within {s f : Str} (hf : f ∈ splitFirst s) : f <:+: s := by
  have hf := (List.mem_filter.mp hf).1
  simp only [List.mem_cons, List.not_mem_nil, or_false] at hf
  have ht : s.dropWhile isSpace <:+: s := (List.dropWhile_suffix isSpace).isInfix
  cases hf with
  | inl hf => exact hf ▸ (List.takeWhile_prefix _).isInfix.trans ht
  | inr hf =>
    exact hf ▸ ((List.dropWhile_suffix isSpace).trans (List.dropWhile_suffix _)).isInfix.trans ht

/-- A word, some space and what follows it. -/
theorem splitFirst_of_word {w gap r : Str} (hw : w ≠ []) (hword : ∀ c ∈ w, isSpace c = false) (hgap : gap ≠ [])
    (hspace : ∀ c ∈ gap, isSpace c = true) (hr : r ≠ []) (hhead : ∀ c ∈ r.head?, isSpace c = false) :
    splitFirst (w ++ gap ++ r) = [w, r] := by
  obtain ⟨g, gs, rfl⟩ := List.exists_cons_of_ne_nil hgap
  obtain ⟨c, cs, rfl⟩ := List.exists_cons_of_ne_nil hw
  have hg := hspace g List.mem_cons_self
  have hdrop : (c :: cs ++ (g :: gs) ++ r).dropWhile isSpace = c :: cs ++ (g :: gs ++ r) := by
    rw [List.append_assoc]
    exact dropWhile_of_head fun x hx => by
      rw [List.cons_append, List.head?_cons, Option.mem_some] at hx
      exact hx ▸ hword c List.mem_cons_self
  have hneg : ∀ x ∈ c :: cs, (!isSpace x) = true := fun x hx => by rw [hword x hx]; rfl
  have htake : (g :: gs ++ r).takeWhile (fun x => !isSpace x) = [] := List.takeWhile_cons_of_neg (by simp [hg])
  have hrest : (g :: gs ++ r).dropWhile (fun x => !isSpace x) = g :: gs ++ r :=
    List.dropWhile_cons_of_neg (by simp [hg])
  rw [splitFirst, hdrop, List.takeWhile_append_of_pos hneg, List.dropWhile_append_of_pos hneg, htake, hrest,
    List.dropWhile_append_of_pos hspace, dropWhile_of_head hhead, List.append_nil]
  simp [hr]

end PythonStr
