import Mathlib.Data.List.Forall2
import LlamaStack.GoStream

/-!
# The grammar of event streams

A text of lines that end with LF or CRLF, cut into blocks at empty lines. A line
is a field, its name before the first colon and its value behind it, with at most
one space between. The data lines of a block are one event's data, joined by
line feeds.
-/
namespace SseGrammar

open GoBytes GoStream

def colon : UInt8 := 0x3a
def space : UInt8 := 0x20

/-- Name and value of a line's field. A comment is a field without name. -/
def fieldOf (text : Bytes) : Bytes × Bytes :=
  let name := text.takeWhile (· ≠ colon)
  (name, trimPrefix (text.drop (name.length + 1)) [space])

def dataName : Bytes := ascii "data"

def isBlank (line : Bytes) : Bool := (lineText line).isEmpty

/-- The value of a line that is a field of this name. -/
def valueOf (name line : Bytes) : Option Bytes :=
  if (fieldOf (lineText line)).1 = name then some (fieldOf (lineText line)).2 else none

def values (name : Bytes) (block : List Bytes) : List Bytes := block.filterMap (valueOf name)

structure Event where
  name : Bytes := []
  data : Bytes
  id : Option Bytes := none
  deriving DecidableEq

/-- The data lines of an event. -/
def Event.lines (e : Event) : List Bytes := e.data.splitOn lf

/-- The event of a block, if it has a data line. -/
def eventOf (block : List Bytes) : Option Event :=
  match values dataName block with
  | [] => none
  | d :: ds => some
      { name := (values (ascii "event") block).getLast?.getD []
        data := List.intercalate [lf] (d :: ds)
        id := (values (ascii "id") block).getLast? }

/-- No carriage return but in front of the line feed. -/
def WellFormed (line : Bytes) : Prop := cr ∉ lineText line

instance (line : Bytes) : Decidable (WellFormed line) := inferInstanceAs (Decidable (cr ∉ _))

/-- The events of a text in the grammar. -/
def events (s : Bytes) : Option (List Event) :=
  if ∀ l ∈ splitLines s, WellFormed l then some ((splitBlocks isBlank s).filterMap eventOf) else none

/-! ## Lines -/

/-- In the grammar a line's text is what trimming its line ends leaves. -/
theorem trimLineEnd_eq_lineText {l : Bytes} (hl : OneLine l) (h : WellFormed l) :
    trimLineEnd l = lineText l := by
  conv_lhs => rw [← lineText_append_terminator l]
  rw [trimLineEnd_append _ (terminator_isLineEnd l)]
  refine trimLineEnd_of_forall fun b hb => ?_
  simp only [isLineEnd, Bool.or_eq_false_iff, beq_eq_false_iff_ne]
  exact ⟨fun he => h (he ▸ hb), fun he => lf_not_mem_lineText hl (he ▸ hb)⟩

/-! ## Fields -/

theorem fieldOf_data (v : Bytes) :
    fieldOf (ascii "data:" ++ v) = (dataName, trimPrefix v [space]) := rfl

theorem fieldOf_data_space (v : Bytes) : fieldOf (ascii "data: " ++ v) = (dataName, v) := by
  rw [show ascii "data: " ++ v = ascii "data:" ++ ([space] ++ v) by rfl, fieldOf_data,
    trimPrefix_append]

/-- A written data line is read as the data field that it holds. -/
theorem valueOf_data_line (name : Bytes) {v e : Bytes} (he : e = [cr, lf] ∨ e = [lf] ∨ e = [])
    (hv : lf ∉ v ∧ cr ∉ v) :
    valueOf name (ascii "data: " ++ v ++ e) = if dataName = name then some v else none := by
  have hd : lf ∉ ascii "data: " ∧ cr ∉ ascii "data: " := by decide
  have ht : lineText (ascii "data: " ++ v ++ e) = ascii "data: " ++ v :=
    lineText_eq he (by simp only [List.mem_append, hd, hv, or_self, not_false_iff])
      (by simp only [List.mem_append, hd, hv, or_self, not_false_iff])
  rw [valueOf, ht, fieldOf_data_space]

theorem mem_of_mem_trimPrefix {b : UInt8} {s p : Bytes} (h : b ∈ trimPrefix s p) : b ∈ s := by
  unfold trimPrefix at h
  split at h
  · exact List.mem_of_mem_drop h
  · exact h

/-- A value is a piece of its line. -/
theorem mem_of_mem_value {name line v : Bytes} {b : UInt8} (h : valueOf name line = some v)
    (hb : b ∈ v) : b ∈ lineText line := by
  unfold valueOf at h
  split at h
  · cases h
    exact List.mem_of_mem_drop (mem_of_mem_trimPrefix hb)
  · cases h

theorem lf_not_mem_values (name : Bytes) {block : List Bytes} (h : ∀ l ∈ block, OneLine l) :
    ∀ v ∈ values name block, lf ∉ v := by
  intro v hv hmem
  obtain ⟨l, hl, hlv⟩ := List.mem_filterMap.mp hv
  exact lf_not_mem_lineText (h l hl) (mem_of_mem_value hlv hmem)

theorem eventOf_isSome (block : List Bytes) :
    (eventOf block).isSome = true ↔ values dataName block ≠ [] := by
  unfold eventOf
  split <;> simp_all

/-- The data lines of a block are the lines of its event's data. -/
theorem values_data {block : List Bytes} (h : ∀ l ∈ block, OneLine l) :
    values dataName block = (eventOf block).elim [] Event.lines := by
  have hv := lf_not_mem_values dataName h
  unfold eventOf
  split
  · assumption
  · rename_i hd
    rw [hd] at hv ⊢
    exact (List.splitOn_intercalate lf hv (by simp)).symm

/-! ## Texts and blocks -/

theorem events_of_stream {bs : List (List Bytes)} (h : StreamBlocks isBlank bs)
    (hw : ∀ b ∈ bs, ∀ l ∈ b, WellFormed l) : events bs.flatten.flatten = some (bs.filterMap eventOf) := by
  have hb := splitBlocks_of_stream h
  have hl := splitBlocks_lines isBlank bs.flatten.flatten
  rw [hb] at hl
  rw [events, if_pos, hb]
  intro l hmem
  rw [← hl] at hmem
  obtain ⟨b, hbm, hlb⟩ := List.mem_flatten.mp hmem
  exact hw b hbm l hlb

theorem events_eq_some {s : Bytes} {es : List Event} (h : events s = some es) :
    (∀ l ∈ splitLines s, WellFormed l) ∧ es = (splitBlocks isBlank s).filterMap eventOf := by
  unfold events at h
  split at h
  · rename_i hw
    exact ⟨hw, by simpa using h.symm⟩
  · cases h

/-- The data lines of a text are those of its events. -/
theorem values_of_events {s : Bytes} {es : List Event} (h : events s = some es) :
    values dataName (splitLines s) = es.flatMap Event.lines := by
  obtain ⟨-, rfl⟩ := events_eq_some h
  have hl : ∀ l ∈ (splitBlocks isBlank s).flatten, OneLine l := by
    rw [splitBlocks_lines]
    exact oneLine_of_isLines (splitLines_isLines s)
  rw [← splitBlocks_lines isBlank s]
  generalize splitBlocks isBlank s = bs at hl
  induction bs with
  | nil => rfl
  | cons b bs ih =>
    have hb := values_data fun l (hm : l ∈ b) => hl l (by simp [hm])
    have hbs := ih fun l hm => hl l (by
      rw [List.flatten_cons]
      exact List.mem_append_right _ hm)
    simp only [values] at hb hbs ⊢
    rw [List.flatten_cons, List.filterMap_append, hb, hbs, List.filterMap_cons]
    cases eventOf b <;> rfl

/-! ## Spelling -/

/-- Lines that say the same in the same place of a text. -/
structure SameField (l l' : Bytes) : Prop where
  line : IsLine l → IsLine l'
  rest : IsRest l → IsRest l'
  blank : isBlank l = isBlank l'
  wellFormed : WellFormed l → WellFormed l'
  field : fieldOf (lineText l) = fieldOf (lineText l')

theorem SameField.oneLine {l l' : Bytes} (h : SameField l l') (hl : OneLine l) : OneLine l' :=
  hl.imp h.line h.rest

abbrev SameBlock (b b' : List Bytes) : Prop := List.Forall₂ SameField b b'

theorem SameField.refl (l : Bytes) : SameField l l := ⟨id, id, rfl, id, rfl⟩

theorem SameBlock.values {name : Bytes} {b b' : List Bytes} (h : SameBlock b b') :
    values name b = values name b' := by
  induction h with
  | nil => rfl
  | cons h _ ih =>
    unfold SseGrammar.values at ih ⊢
    rw [List.filterMap_cons, List.filterMap_cons, ih, valueOf, valueOf, h.field]

theorem SameBlock.eventOf {b b' : List Bytes} (h : SameBlock b b') : eventOf b = eventOf b' := by
  unfold SseGrammar.eventOf
  rw [h.values, h.values, h.values]

theorem SameBlock.isLines {b b' : List Bytes} (h : SameBlock b b') (hb : IsLines b) : IsLines b' := by
  induction h with
  | nil => trivial
  | cons h hs ih =>
    cases hs with
    | nil => exact hb.imp h.line h.rest
    | cons h' hs => exact ⟨h.line hb.1, ih hb.2⟩

theorem SameBlock.open {b b' : List Bytes} (h : SameBlock b b') (hb : ∀ x ∈ b, isBlank x = false) :
    ∀ x ∈ b', isBlank x = false := by
  induction h with
  | nil => simp
  | cons h _ ih =>
    intro x hx
    rcases List.mem_cons.mp hx with rfl | hx
    · rw [← h.blank]
      exact hb _ (by simp)
    · exact ih (fun y hy => hb y (by simp [hy])) x hx

theorem SameBlock.isBlock {b b' : List Bytes} (h : SameBlock b b') (hb : IsBlock isBlank b) :
    IsBlock isBlank b' := by
  induction h with
  | nil =>
    obtain ⟨c, l, he, -⟩ := hb
    simp at he
  | @cons x x' xs xs' h hs ih =>
    obtain ⟨c, l, he, hl, hc⟩ := hb
    cases c with
    | nil =>
      simp only [List.nil_append, List.cons.injEq] at he
      obtain ⟨rfl, rfl⟩ := he
      cases hs
      exact ⟨[], x', rfl, h.blank ▸ hl, by simp⟩
    | cons y c =>
      simp only [List.cons_append, List.cons.injEq] at he
      obtain ⟨rfl, rfl⟩ := he
      obtain ⟨c', l', rfl, hl', hc'⟩ := ih ⟨c, l, rfl, hl, fun z hz => hc z (by simp [hz])⟩
      refine ⟨x' :: c', l', rfl, hl', fun z hz => ?_⟩
      rcases List.mem_cons.mp hz with rfl | hz
      · rw [← h.blank]
        exact hc x (by simp)
      · exact hc' z hz

theorem SameBlock.isLine {b b' : List Bytes} (h : SameBlock b b') (hb : ∀ l ∈ b, IsLine l) :
    ∀ l ∈ b', IsLine l := by
  induction h with
  | nil => simp
  | cons h _ ih =>
    intro l hl
    rcases List.mem_cons.mp hl with rfl | hl
    · exact h.line (hb _ (by simp))
    · exact ih (fun y hy => hb y (by simp [hy])) l hl

theorem SameBlock.allWellFormed {b b' : List Bytes} (h : SameBlock b b')
    (hb : ∀ l ∈ b, WellFormed l) : ∀ l ∈ b', WellFormed l := by
  induction h with
  | nil => simp
  | cons h _ ih =>
    intro l hl
    rcases List.mem_cons.mp hl with rfl | hl
    · exact h.wellFormed (hb _ (by simp))
    · exact ih (fun y hy => hb y (by simp [hy])) l hl

theorem SameBlock.lastBlock {b b' : List Bytes} (h : SameBlock b b') (hb : LastBlock isBlank b) :
    LastBlock isBlank b' := by
  refine ⟨hb.1.imp h.isBlock fun ho => ⟨?_, h.open ho.2⟩, h.isLines hb.2⟩
  rintro rfl
  cases h
  exact ho.1 rfl

theorem streamBlocks_respell {bs bs' : List (List Bytes)} (h : List.Forall₂ SameBlock bs bs')
    (hb : StreamBlocks isBlank bs) : StreamBlocks isBlank bs' := by
  induction h with
  | nil => trivial
  | cons h hs ih =>
    cases hs with
    | nil => exact h.lastBlock hb
    | cons h' hs => exact ⟨⟨h.isBlock hb.1.1, h.isLine hb.1.2⟩, ih hb.2⟩

theorem allWellFormed_respell {bs bs' : List (List Bytes)} (h : List.Forall₂ SameBlock bs bs')
    (hw : ∀ b ∈ bs, ∀ l ∈ b, WellFormed l) : ∀ b ∈ bs', ∀ l ∈ b, WellFormed l := by
  induction h with
  | nil => simp
  | cons h _ ih =>
    intro b hb
    rcases List.mem_cons.mp hb with rfl | hb
    · exact h.allWellFormed (hw _ (by simp))
    · exact ih (fun c hc => hw c (by simp [hc])) b hb

/-- Line by line the same fields, so the same events. -/
theorem events_respell {bs bs' : List (List Bytes)} (h : List.Forall₂ SameBlock bs bs')
    (hb : StreamBlocks isBlank bs) (hw : ∀ b ∈ bs, ∀ l ∈ b, WellFormed l) :
    events bs'.flatten.flatten = events bs.flatten.flatten := by
  have he : bs'.filterMap eventOf = bs.filterMap eventOf := by
    clear hb hw
    induction h with
    | nil => rfl
    | cons h _ ih => rw [List.filterMap_cons, List.filterMap_cons, ih, h.eventOf]
  rw [events_of_stream hb hw, events_of_stream (streamBlocks_respell h hb)
    (allWellFormed_respell h hw), he]

/-- A data line written with or without the space behind the colon. -/
def spellData (withSpace : Bool) (line : Bytes) : Bytes :=
  match valueOf dataName line with
  | none => line
  | some v => ascii (if withSpace then "data: " else "data:") ++ v ++ terminator line

/-- A value that can be written without the space. -/
def SpaceFree (v : Bytes) : Prop := hasPrefix v [space] = false

theorem fieldOf_spelled (withSpace : Bool) {v : Bytes} (hv : SpaceFree v) :
    fieldOf (ascii (if withSpace then "data: " else "data:") ++ v) = (dataName, v) := by
  cases withSpace with
  | true => exact fieldOf_data_space v
  | false =>
    refine (fieldOf_data v).trans ?_
    rw [trimPrefix, hv]
    rfl

/-- The text of a data line as it is spelled. -/
def spelledText (withSpace : Bool) (v : Bytes) : Bytes :=
  ascii (if withSpace then "data: " else "data:") ++ v

theorem not_mem_spelledText (withSpace : Bool) {line v : Bytes} {b : UInt8}
    (hb : isLineEnd b = true) (h : valueOf dataName line = some v) (hl : b ∉ lineText line) :
    b ∉ spelledText withSpace v := by
  have hascii : ∀ c ∈ ascii (if withSpace then "data: " else "data:"), isLineEnd c = false := by
    cases withSpace <;> decide +kernel
  intro hmem
  rcases List.mem_append.mp hmem with hm | hm
  · rw [hascii b hm] at hb
    cases hb
  · exact hl (mem_of_mem_value h hm)

theorem spelledText_ne_nil (withSpace : Bool) (v : Bytes) : spelledText withSpace v ≠ [] := by
  cases withSpace <;> exact List.cons_ne_nil _ _

theorem isBlank_of_value {name line v : Bytes} (hn : name ≠ []) (h : valueOf name line = some v) :
    isBlank line = false := by
  rw [← Bool.not_eq_true, isBlank, List.isEmpty_iff]
  intro h0
  unfold valueOf at h
  rw [h0] at h
  split at h
  · rename_i hf
    exact hn hf.symm
  · cases h

theorem spellData_eq (withSpace : Bool) {line v : Bytes} (h : valueOf dataName line = some v) :
    spellData withSpace line = spelledText withSpace v ++ terminator line := by
  rw [spellData, h]
  rfl

theorem lineText_spellData (withSpace : Bool) {line v : Bytes} (hl : OneLine line)
    (hw : WellFormed line) (h : valueOf dataName line = some v) :
    lineText (spellData withSpace line) = spelledText withSpace v := by
  rw [spellData_eq withSpace h]
  exact lineText_eq (terminator_cases line)
    (not_mem_spelledText withSpace rfl h (lf_not_mem_lineText hl))
    (not_mem_spelledText withSpace rfl h hw)

/-- With or without the space, a data line says the same. -/
theorem sameField_spellData (withSpace : Bool) {line : Bytes} (hl : OneLine line)
    (hw : WellFormed line) (hv : ∀ v, valueOf dataName line = some v → SpaceFree v) :
    SameField line (spellData withSpace line) := by
  cases h : valueOf dataName line with
  | none =>
    rw [spellData, h]
    exact .refl line
  | some v =>
    have hspell := spellData_eq withSpace h
    have hlf := not_mem_spelledText withSpace (b := lf) rfl h (lf_not_mem_lineText hl)
    have hcr := not_mem_spelledText withSpace (b := cr) rfl h hw
    have htext := lineText_spellData withSpace hl hw h
    have hfield : fieldOf (lineText line) = (dataName, v) := by
      unfold valueOf at h
      split at h
      · rename_i hf
        cases h
        exact Prod.ext hf rfl
      · cases h
    refine ⟨fun hline => ?_, fun hrest => ?_, ?_, fun _ => ?_, ?_⟩
    · rw [hspell]
      rcases terminator_cases line with ht | ht | ht
      · exact ⟨spelledText withSpace v ++ [cr], by simp [ht],
          fun hm => (List.mem_append.mp hm).elim hlf (by decide)⟩
      · exact ⟨spelledText withSpace v, by rw [ht], hlf⟩
      · exact absurd ht (terminator_ne_nil hline)
    · rw [hspell, terminator_of_rest hrest.2, List.append_nil]
      exact ⟨spelledText_ne_nil withSpace v, hlf⟩
    · rw [isBlank_of_value (by decide) h, isBlank, htext, eq_comm, ← Bool.not_eq_true,
        List.isEmpty_iff]
      exact spelledText_ne_nil withSpace v
    · rwa [WellFormed, htext]
    · rw [htext, hfield]
      exact (fieldOf_spelled withSpace (hv v h)).symm

end SseGrammar
