import LlamaStack.ResponsesFraming
import LlamaStack.SseGrammar

/-!
# Spellings of a Responses stream

The grammar gives one sequence of events many spellings, of which the adapter sees
a data line only when a space stands behind its colon. Every spelling of a stream
reaches the client as the same events when no data line is one that the adapter
acts on, and only then.
-/
namespace ResponsesSpelling

open GoBytes GoJson GoStream OpenaiApi ResponsesSse ResponsesEvents ResponsesFraming SseGrammar

set_option maxRecDepth 4000

/-- The text that the client receives for a stream that ends after these bytes. -/
def output (canFlush : Bool) (s : Bytes) : Bytes := written (copyResponsesSSE canFlush ⟨s, .eof⟩).1

/-- The values of the data lines of a text. -/
def dataValues (s : Bytes) : List Bytes := values dataName (splitLines s)

/-- Every spelling of the events of `s` gives the client the same events. -/
def SpellingFree (canFlush : Bool) (s : Bytes) : Prop :=
  ∀ t, events t = events s → events (output canFlush t) = events (output canFlush s)

/-! ## Lines of the grammar -/

theorem isBlank_eq {s : Bytes} (hw : ∀ l ∈ splitLines s, WellFormed l) :
    splitBlocks isBlankSSELine s = splitBlocks isBlank s := by
  refine splitBlocks_congr fun l hl => ?_
  have hone := oneLine_of_isLines (splitLines_isLines s) l hl
  rw [isBlankSSELine, trimLineEnd_eq_lineText hone (hw l hl), isBlank]

theorem lineEnd_eq_terminator {l : Bytes} (hl : OneLine l) (hw : WellFormed l) :
    lineEnd l = terminator l := by
  rw [lineEnd, trimLineEnd_eq_lineText hl hw, terminator]

theorem valueOf_isDataLine {l : Bytes} (hl : OneLine l) (hw : WellFormed l)
    (h : isDataLine l = true) : valueOf dataName l = some (linePayload l) := by
  have ht := trimLineEnd_eq_lineText hl hw
  obtain ⟨v, hv⟩ := (hasPrefix_iff _ _).mp h
  rw [linePayload, hv, trimPrefix_append, valueOf, ← ht, hv,
    show dataField ++ v = ascii "data: " ++ v from rfl, fieldOf_data_space]
  exact if_pos rfl

/-- Without the space the adapter does not see a data line. -/
theorem isDataLine_hidden {l : Bytes} (hl : OneLine l) (hw : WellFormed l)
    (hv : ∀ v, valueOf dataName l = some v → SpaceFree v) :
    isDataLine (spellData false l) = false := by
  have hs := sameField_spellData false hl hw hv
  by_contra hn
  have hd : isDataLine (spellData false l) = true := by simpa using hn
  cases h : valueOf dataName l with
  | none =>
    have hsame : spellData false l = l := by rw [spellData, h]
    rw [hsame] at hd
    rw [valueOf_isDataLine hl hw hd] at h
    cases h
  | some v =>
    have ht := lineText_spellData false hl hw h
    rw [isDataLine, trimLineEnd_eq_lineText (hs.oneLine hl) (hs.wellFormed hw), ht,
      hasPrefix_iff] at hd
    obtain ⟨t, he⟩ := hd
    have hvt : v = [space] ++ t :=
      List.append_cancel_left (show ascii "data:" ++ v = ascii "data:" ++ ([space] ++ t) from he)
    have hfree := hv v h
    rw [SpaceFree, hvt, hasPrefix_append] at hfree
    cases hfree

theorem isDataLine_shown {l v : Bytes} (hl : OneLine l) (hw : WellFormed l)
    (hv : valueOf dataName l = some v) (hfree : SpaceFree v) :
    isDataLine (spellData true l) = true ∧ linePayload (spellData true l) = v := by
  have hs := sameField_spellData true hl hw fun u hu => by
    rw [hv] at hu
    cases hu
    exact hfree
  have ht := lineText_spellData true hl hw hv
  have hd : isDataLine (spellData true l) = true := by
    rw [isDataLine, trimLineEnd_eq_lineText (hs.oneLine hl) (hs.wellFormed hw), ht]
    exact hasPrefix_append _ _
  refine ⟨hd, ?_⟩
  have h := valueOf_isDataLine (hs.oneLine hl) (hs.wellFormed hw) hd
  rw [valueOf, ← hs.field] at h
  rw [valueOf] at hv
  exact (Option.some.inj (h.symm.trans hv))

/-! ## Streams that say the same -/

theorem output_inert {canFlush : Bool} {s : Bytes}
    (h : ∀ l ∈ splitLines s, isDataLine l = true → Inert (linePayload l)) : output canFlush s = s := by
  have hb : ∀ b ∈ splitBlocks isBlankSSELine s, ∀ l ∈ b, isDataLine l = true →
      Inert (linePayload l) := by
    intro b hb l hl
    refine h l ?_
    rw [← splitBlocks_lines isBlankSSELine]
    exact List.mem_flatten.mpr ⟨b, hb, hl⟩
  have hframes := splitBlocks_written canFlush ⟨s, .eof⟩
  rw [show blocks ⟨s, .eof⟩ = splitBlocks isBlankSSELine s from rfl, allFrames_inert [] hb] at hframes
  rw [output, ← splitBlocks_flatten isBlankSSELine (written _), hframes, splitBlocks_flatten]

/-- Inert data lines are passed on in every spelling. -/
theorem spellingFree_of_inert {canFlush : Bool} {s : Bytes} (hs : (events s).isSome = true)
    (h : ∀ v ∈ dataValues s, Inert v) : SpellingFree canFlush s := by
  obtain ⟨es, hes⟩ := Option.isSome_iff_exists.mp hs
  have hout : ∀ t, events t = some es → output canFlush t = t := by
    intro t ht
    refine output_inert fun l hl hd => h _ ?_
    have hw := (events_eq_some ht).1 l hl
    have hone := oneLine_of_isLines (splitLines_isLines t) l hl
    rw [dataValues, values_of_events hes, ← values_of_events ht]
    exact List.mem_filterMap.mpr ⟨l, hl, valueOf_isDataLine hone hw hd⟩
  intro t ht
  rw [hout t (ht.trans hes), hout s hes, ht]

/-- A line of the grammar that can be written without the space. -/
structure FreeLine (l : Bytes) : Prop where
  oneLine : OneLine l
  wellFormed : WellFormed l
  spaceFree : ∀ v, valueOf dataName l = some v → SpaceFree v

theorem FreeLine.sameField {l : Bytes} (h : FreeLine l) (withSpace : Bool) :
    SameField l (spellData withSpace l) :=
  sameField_spellData withSpace h.oneLine h.wellFormed h.spaceFree

/-- A block with all data lines hidden from the adapter. -/
def hide (block : List Bytes) : List Bytes := block.map (spellData false)

theorem sameBlock_hide {b : List Bytes} (h : ∀ l ∈ b, FreeLine l) : SameBlock b (hide b) := by
  rw [hide, SameBlock, List.forall₂_map_right_iff, List.forall₂_same]
  exact fun l hl => (h l hl).sameField false

theorem sameBlocks_hide {bs : List (List Bytes)} (h : ∀ b ∈ bs, ∀ l ∈ b, FreeLine l) :
    List.Forall₂ SameBlock bs (bs.map hide) := by
  rw [List.forall₂_map_right_iff, List.forall₂_same]
  exact fun b hb => sameBlock_hide (h b hb)

theorem isDataLine_hide {b : List Bytes} (h : ∀ l ∈ b, FreeLine l) :
    ∀ l ∈ hide b, isDataLine l = false := by
  intro x hx
  obtain ⟨l, hl, rfl⟩ := List.mem_map.mp hx
  exact isDataLine_hidden (h l hl).oneLine (h l hl).wellFormed (h l hl).spaceFree

/-- Blocks without visible data leave no trace in the adapter. -/
theorem afterBlocks_hide (a : ToolCalls) {bs : List (List Bytes)}
    (h : ∀ b ∈ bs, ∀ l ∈ b, FreeLine l) : afterBlocks a (bs.map hide) = a := by
  induction bs with
  | nil => rfl
  | cons b bs ih =>
    have hb := adaptBlock_of_no_data a (isDataLine_hide (h b (by simp)))
    have hbs := ih fun c hc => h c (by simp [hc])
    rw [afterBlocks] at hbs ⊢
    rw [List.map_cons, List.foldl_cons, hb, hbs]

theorem allFrames_hide (a : ToolCalls) {bs : List (List Bytes)}
    (h : ∀ b ∈ bs, ∀ l ∈ b, FreeLine l) : (allFrames a (bs.map hide)).flatten = bs.map hide := by
  refine allFrames_inert a fun x hx l hl hd => ?_
  obtain ⟨b, hb, rfl⟩ := List.mem_map.mp hx
  rw [isDataLine_hide (h b hb) l hl] at hd
  cases hd

theorem allFrames_append (a : ToolCalls) (bs cs : List (List Bytes)) :
    allFrames a (bs ++ cs) = allFrames a bs ++ allFrames (afterBlocks a bs) cs := by
  induction bs generalizing a with
  | nil => rfl
  | cons b bs ih => simp [allFrames, afterBlocks, ih]

/-- The blocks of a text and of its output, when both are in the grammar. -/
theorem splitBlocks_stream_eq {bs : List (List Bytes)} (h : StreamBlocks isBlank bs)
    (hw : ∀ b ∈ bs, ∀ l ∈ b, WellFormed l) :
    splitBlocks isBlankSSELine bs.flatten.flatten = bs := by
  have he := events_eq_some (events_of_stream h hw)
  rw [isBlank_eq he.1, splitBlocks_of_stream h]

theorem output_blocks {canFlush : Bool} {bs : List (List Bytes)} {es}
    (h : StreamBlocks isBlank bs) (hw : ∀ b ∈ bs, ∀ l ∈ b, WellFormed l)
    (hout : events (output canFlush bs.flatten.flatten) = some es) :
    splitBlocks isBlank (output canFlush bs.flatten.flatten) = (allFrames [] bs).flatten ∧
      es = (allFrames [] bs).flatten.filterMap eventOf := by
  obtain ⟨hwo, rfl⟩ := events_eq_some hout
  have hb := splitBlocks_written canFlush ⟨bs.flatten.flatten, .eof⟩
  rw [show blocks ⟨bs.flatten.flatten, .eof⟩ = splitBlocks isBlankSSELine bs.flatten.flatten from rfl,
    splitBlocks_stream_eq h hw] at hb
  have he := isBlank_eq hwo
  rw [output] at he ⊢
  rw [← he, hb]
  exact ⟨rfl, rfl⟩

theorem splitLines_of_stream {bs : List (List Bytes)} (h : StreamBlocks isBlank bs) :
    splitLines bs.flatten.flatten = bs.flatten := by
  rw [← splitBlocks_lines isBlank, splitBlocks_of_stream h]

theorem output_hide {canFlush : Bool} {bs : List (List Bytes)} (hs : StreamBlocks isBlank bs)
    (hl : ∀ b ∈ bs, ∀ l ∈ b, FreeLine l) :
    output canFlush (bs.map hide).flatten.flatten = (bs.map hide).flatten.flatten := by
  refine output_inert fun l hmem hd => ?_
  rw [splitLines_of_stream (streamBlocks_respell (sameBlocks_hide hl) hs)] at hmem
  obtain ⟨x, hx, hlx⟩ := List.mem_flatten.mp hmem
  obtain ⟨b, hb, rfl⟩ := List.mem_map.mp hx
  rw [isDataLine_hide (hl b hb) l hlx] at hd
  cases hd

/-- The block around one data line, which is the only one that the adapter sees. -/
def showOne (passed : List Bytes) (line : Bytes) (rest : List Bytes) : List Bytes :=
  hide passed ++ spellData true line :: hide rest

/-- When spelling does not matter, a line that alone is visible changes nothing:
the frames of its block are the block's event. -/
theorem framesOf_showOne {canFlush : Bool} {B₁ B₂ : List (List Bytes)} {passed rest : List Bytes}
    {line : Bytes} (hs : StreamBlocks isBlank (B₁ ++ (passed ++ line :: rest) :: B₂))
    (hl : ∀ b ∈ B₁ ++ (passed ++ line :: rest) :: B₂, ∀ l ∈ b, FreeLine l)
    (hfree : SpellingFree canFlush (B₁ ++ (passed ++ line :: rest) :: B₂).flatten.flatten) :
    (framesOf [] (showOne passed line rest)).filterMap eventOf =
        [showOne passed line rest].filterMap eventOf ∧
      ∀ f ∈ framesOf [] (showOne passed line rest), ∀ l ∈ f, OneLine l := by
  have hB₁ : ∀ b ∈ B₁, ∀ l ∈ b, FreeLine l := fun b hb => hl b (by simp [hb])
  have hB₂ : ∀ b ∈ B₂, ∀ l ∈ b, FreeLine l := fun b hb => hl b (by simp [hb])
  have hblock := hl (passed ++ line :: rest) (by simp)
  have hw : ∀ b ∈ B₁ ++ (passed ++ line :: rest) :: B₂, ∀ l ∈ b, WellFormed l :=
    fun b hb l h => (hl b hb l h).wellFormed
  have hone : SameBlock (passed ++ line :: rest) (showOne passed line rest) :=
    List.rel_append (sameBlock_hide fun l h => hblock l (by simp [h]))
      (.cons ((hblock line (by simp)).sameField true)
        (sameBlock_hide fun l h => hblock l (by simp [h])))
  have hsame : List.Forall₂ SameBlock (B₁ ++ (passed ++ line :: rest) :: B₂)
      (B₁.map hide ++ showOne passed line rest :: B₂.map hide) :=
    List.rel_append (sameBlocks_hide hB₁) (.cons hone (sameBlocks_hide hB₂))
  have hshown := events_respell hsame hs hw
  have hhidden := events_respell (sameBlocks_hide hl) hs hw
  have hout : events (output canFlush
      (B₁.map hide ++ showOne passed line rest :: B₂.map hide).flatten.flatten) =
        events (B₁.map hide ++ showOne passed line rest :: B₂.map hide).flatten.flatten := by
    rw [hfree _ hshown, ← hfree _ hhidden, output_hide hs hl, hhidden, hshown]
  have hstream := streamBlocks_respell hsame hs
  have hws := allWellFormed_respell hsame hw
  rw [events_of_stream hstream hws] at hout
  obtain ⟨hblocks, hes⟩ := output_blocks hstream hws hout
  have hframes : (allFrames [] (B₁.map hide ++ showOne passed line rest :: B₂.map hide)).flatten =
      B₁.map hide ++ (framesOf [] (showOne passed line rest) ++ B₂.map hide) := by
    rw [allFrames_append, List.flatten_append, allFrames_hide [] hB₁, afterBlocks_hide [] hB₁,
      allFrames, List.flatten_cons, allFrames_hide _ hB₂]
  rw [hframes] at hblocks hes
  constructor
  · rw [List.filterMap_append, List.filterMap_append, List.filterMap_append, ← List.singleton_append,
      List.filterMap_append] at hes
    exact (List.append_cancel_right (List.append_cancel_left hes)).symm
  · intro f hf l hlf
    have hmem : l ∈ splitLines (output canFlush
        (B₁.map hide ++ showOne passed line rest :: B₂.map hide).flatten.flatten) := by
      rw [← splitBlocks_lines isBlank, hblocks]
      exact List.mem_flatten.mpr ⟨f, by simp [hf], hlf⟩
    exact oneLine_of_isLines (splitLines_isLines _) l hmem

/-! ## The finished call and the completed event -/

theorem valueOf_line {payload e : Bytes} (he : e = [cr, lf] ∨ e = [lf] ∨ e = [])
    (hp : lf ∉ payload ∧ cr ∉ payload) : valueOf dataName (dataField ++ payload ++ e) = some payload := by
  rw [show dataField = ascii "data: " from rfl, valueOf_data_line dataName he hp]
  exact if_pos rfl

theorem eventOf_argumentsDoneFrame (d : ResponseFunctionCallArgumentsDoneEvent) :
    (eventOf (argumentsDoneFrame d)).isSome = true := by
  have hv := valueOf_line (e := [lf]) (.inr (.inl rfl)) (print_one_line d.marshal)
  have hm : print d.marshal ∈ values dataName (argumentsDoneFrame d) :=
    List.mem_filterMap.mpr ⟨dataField ++ print d.marshal ++ [lf], by simp [argumentsDoneFrame], hv⟩
  exact (eventOf_isSome _).mpr (List.ne_nil_of_mem hm)

theorem eventOf_itemDoneFrame {line : Bytes} (hl : OneLine line) (hw : WellFormed line)
    (h : isDataLine line = true) : (eventOf (itemDoneHead :: closeLine line)).isSome = true := by
  have hv := valueOf_isDataLine hl hw h
  have hm : linePayload line ∈ values dataName (itemDoneHead :: closeLine line) := by
    unfold closeLine
    split
    · exact List.mem_filterMap.mpr ⟨line, by simp, hv⟩
    · rename_i hs
      have hend : terminator line = [] := by
        rcases terminator_cases line with ht | ht | ht
        · exact absurd ((hasSuffix_iff _ _).mpr ⟨lineText line ++ [cr], by
            conv_lhs => rw [← lineText_append_terminator line, ht]
            simp⟩) hs
        · exact absurd ((hasSuffix_iff _ _).mpr ⟨lineText line, by
            rw [← ht, lineText_append_terminator]⟩) hs
        · exact ht
      have hline : line = dataField ++ linePayload line := by
        conv_lhs => rw [line_eq h, lineEnd_eq_terminator hl hw, hend, List.append_nil]
      have hlf : lf ∉ linePayload line := fun hm => lf_not_mem_lineText hl (mem_of_mem_value hv hm)
      have hcr : cr ∉ linePayload line := fun hm => hw (mem_of_mem_value hv hm)
      have hv' := valueOf_line (e := [lf]) (.inr (.inl rfl)) ⟨hlf, hcr⟩
      rw [← hline] at hv'
      exact List.mem_filterMap.mpr ⟨line ++ [lf], by simp, hv'⟩
  exact (eventOf_isSome _).mpr (List.ne_nil_of_mem hm)

/-- A visible line that the adapter acts on changes the events of its block. -/
theorem inert_of_frames {passed rest : List Bytes} {line : Bytes} (hl : ∀ l ∈ passed ++ line :: rest, OneLine l)
    (hw : WellFormed line) (hp : ∀ x ∈ passed, isDataLine x = false) (h : isDataLine line = true)
    (he : (framesOf [] (passed ++ line :: rest)).filterMap eventOf =
      [passed ++ line :: rest].filterMap eventOf)
    (hone : ∀ f ∈ framesOf [] (passed ++ line :: rest), ∀ l ∈ f, OneLine l) :
    Inert (linePayload line) := by
  have hline := hl line (by simp)
  have hv := valueOf_isDataLine hline hw h
  rw [framesOf_eq [] rest hp h] at he hone
  cases hs : (step [] (classify (linePayload line))).2 with
  | some d =>
    -- two events where there was one
    rw [hs] at he
    obtain ⟨e₁, h₁⟩ := Option.isSome_iff_exists.mp (eventOf_argumentsDoneFrame d)
    obtain ⟨e₂, h₂⟩ := Option.isSome_iff_exists.mp (eventOf_itemDoneFrame hline hw h)
    have hlen := congrArg List.length he
    have hle := List.length_filterMap_le eventOf [passed ++ line :: rest]
    simp only [List.filterMap_cons_some h₁, List.filterMap_cons_some h₂, List.filterMap_nil,
      List.length_cons, List.length_nil] at hlen hle
    omega
  | none =>
    rw [hs] at he hone
    refine ⟨?_, fun c hc => ?_⟩
    · by_contra hne
      obtain ⟨-, -, -, hp⟩ := (adaptCompleted_cases (linePayload line)).resolve_left hne
      have hv' : valueOf dataName (adaptedLine line) = some (adaptCompleted (linePayload line)) := by
        rw [adaptedLine, lineEnd_eq_terminator hline hw]
        exact valueOf_line (terminator_cases line) hp
      have hvalues := values_data (hone (passed ++ adaptedLine line :: rest) (by simp))
      have hvalues₀ := values_data hl
      have heq : eventOf (passed ++ adaptedLine line :: rest) = eventOf (passed ++ line :: rest) := by
        simp only [List.filterMap_cons, List.filterMap_nil] at he
        cases h₁ : eventOf (passed ++ adaptedLine line :: rest) <;>
          cases h₂ : eventOf (passed ++ line :: rest) <;> simp_all
      rw [heq, ← hvalues₀] at hvalues
      simp only [values, List.filterMap_append, List.filterMap_cons_some hv,
        List.filterMap_cons_some hv', List.append_cancel_left_eq, List.cons.injEq, and_true] at hvalues
      exact hne hvalues
    · rw [hc] at hs
      simp [step, stateOf, GoMap.get] at hs

/-- A stream none of whose data lines starts with a space meets the claim only
when the adapter acts on none of them. -/
theorem inert_of_spellingFree {canFlush : Bool} {s : Bytes} (hs : (events s).isSome = true)
    (hv : ∀ v ∈ dataValues s, SpaceFree v) (hfree : SpellingFree canFlush s) :
    ∀ v ∈ dataValues s, Inert v := by
  obtain ⟨es, hes⟩ := Option.isSome_iff_exists.mp hs
  intro v hmem
  obtain ⟨line, hline, hlv⟩ := List.mem_filterMap.mp hmem
  rw [← splitBlocks_lines isBlank] at hline
  obtain ⟨b, hb, hlb⟩ := List.mem_flatten.mp hline
  obtain ⟨B₁, B₂, hB⟩ := List.append_of_mem hb
  obtain ⟨passed, rest, rfl⟩ := List.append_of_mem hlb
  have hbytes := splitBlocks_flatten isBlank s
  have hstream := splitBlocks_stream isBlank s
  have hl : ∀ b ∈ splitBlocks isBlank s, ∀ l ∈ b, FreeLine l := by
    intro b hb l hl
    have hmem : l ∈ splitLines s := by
      rw [← splitBlocks_lines isBlank]
      exact List.mem_flatten.mpr ⟨b, hb, hl⟩
    exact ⟨oneLine_of_isLines (splitLines_isLines s) l hmem, (events_eq_some hes).1 l hmem,
      fun u hu => hv u (List.mem_filterMap.mpr ⟨l, hmem, hu⟩)⟩
  rw [hB] at hbytes hstream hl
  rw [← hbytes] at hfree
  obtain ⟨he, hone⟩ := framesOf_showOne hstream hl hfree
  have hblock := hl (passed ++ line :: rest) (by simp)
  have hfl := hblock line (by simp)
  obtain ⟨hd, hpay⟩ := isDataLine_shown hfl.oneLine hfl.wellFormed hlv (hfl.spaceFree v hlv)
  have hsame := hfl.sameField true
  have hshown : ∀ l ∈ hide passed ++ spellData true line :: hide rest, OneLine l := by
    intro x hx
    have hx' : ∃ w, ∃ l ∈ passed ++ line :: rest, spellData w l = x := by
      simp only [hide, List.mem_append, List.mem_cons, List.mem_map] at hx
      rcases hx with ⟨l, hl, rfl⟩ | rfl | ⟨l, hl, rfl⟩
      · exact ⟨false, l, by simp [hl], rfl⟩
      · exact ⟨true, line, by simp, rfl⟩
      · exact ⟨false, l, by simp [hl], rfl⟩
    obtain ⟨w, l, hl, rfl⟩ := hx'
    exact ((hblock l hl).sameField w).oneLine (hblock l hl).oneLine
  rw [← hpay]
  exact inert_of_frames hshown (hsame.wellFormed hfl.wellFormed)
    (isDataLine_hide fun l hl => hblock l (by simp [hl])) hd he hone

/-! ## Spelling freedom -/

/-- When every data line is inert, every spelling reaches the client as the same
events; for streams whose data lines can all be written without the space that
is also necessary. -/
theorem copyResponsesSSE_spelling (canFlush : Bool) {s : Bytes} (hs : (events s).isSome = true) :
    ((∀ v ∈ dataValues s, Inert v) → SpellingFree canFlush s) ∧
      ((∀ v ∈ dataValues s, SpaceFree v) →
        (SpellingFree canFlush s ↔ ∀ v ∈ dataValues s, Inert v)) :=
  ⟨spellingFree_of_inert hs, fun hv => ⟨inert_of_spellingFree hs hv, spellingFree_of_inert hs⟩⟩

def sampleItem : Bytes :=
  ascii "\x7b\"type\":\"response.output_item.done\",\"item\":\x7b\"type\":\"function_call\",\"id\":\"fc\",\"name\":\"f\",\"arguments\":\"1\"\x7d\x7d"

/-- One finished call, with and without the space. -/
def sampleSpaced : Bytes := ascii "data: " ++ sampleItem ++ [lf, lf]
def samplePacked : Bytes := ascii "data:" ++ sampleItem ++ [lf, lf]

def sampleText : Bytes := ascii "\x7b\"type\":\"response.output_text.delta\",\"delta\":\"a\"\x7d"

def sampleArguments : Bytes :=
  ascii "\x7b\"type\":\"response.function_call_arguments.delta\",\"item_id\":\"fc\",\"delta\":\"1\"\x7d"

/-- Text, a piece of a call's arguments and the end marker. -/
def sampleDeltas : Bytes :=
  dataField ++ sampleText ++ [lf, lf] ++ dataField ++ sampleArguments ++ [lf, lf] ++ dataField ++ doneMarker ++ [lf, lf]

theorem inert_of_not_call {payload : Bytes} (h : finishedCall payload = none)
    (hsame : adaptCompleted payload = payload) : Inert payload := by
  refine ⟨hsame, fun c hc => ?_⟩
  cases h.symm.trans (finishedCall_of_classify hc)

theorem inert_sampleDeltas : ∀ v ∈ [sampleText, sampleArguments, doneMarker], Inert v := by
  intro v hv
  simp only [List.mem_cons, List.not_mem_nil, or_false] at hv
  rcases hv with rfl | rfl | rfl
  · exact inert_of_not_call (Option.isNone_iff_eq_none.mp (by decide +kernel)) (by decide +kernel)
  · exact inert_of_not_call (Option.isNone_iff_eq_none.mp (by decide +kernel)) (by decide +kernel)
  · refine ⟨adaptCompleted_doneMarker, fun c hc => ?_⟩
    rw [classify_doneMarker] at hc
    cases hc

/-- Deltas may be written in every spelling, a finished call may not. -/
theorem copyResponsesSSE_spelling_sampleDeltas : SpellingFree true sampleDeltas ∧ ¬ SpellingFree true sampleSpaced := by
  constructor
  · refine (copyResponsesSSE_spelling true (by decide +kernel)).1 fun v hv => ?_
    have hvalues : dataValues sampleDeltas = [sampleText, sampleArguments, doneMarker] := by decide +kernel
    exact inert_sampleDeltas v (hvalues ▸ hv)
  · intro hfree
    have hvalues : dataValues sampleSpaced = [sampleItem] := by decide +kernel
    have hspace : ∀ v ∈ dataValues sampleSpaced, SpaceFree v := by
      intro v hv
      rw [hvalues, List.mem_singleton] at hv
      rw [hv]
      rfl
    have htype : eventType sampleItem = some outputItemDoneType := by decide +kernel
    have hcall : (finishedCall sampleItem).isSome = true := by decide +kernel
    obtain ⟨c, hc⟩ := Option.isSome_iff_exists.mp hcall
    have hinert := ((copyResponsesSSE_spelling true (by decide +kernel)).2 hspace).mp hfree
    rw [hvalues] at hinert
    refine (hinert sampleItem List.mem_cons_self).2 c ?_
    rw [classify_itemDone htype, hc, Option.map_some, Option.getD_some]

/-- One event in two spellings, of which the adapter sees only the first. -/
theorem copyResponsesSSE_spelling_differs :
    events samplePacked = events sampleSpaced ∧ (events sampleSpaced).isSome = true ∧
      events (output true samplePacked) ≠ events (output true sampleSpaced) := by
  decide +kernel

end ResponsesSpelling
