import LlamaStack.ResponsesToolCalls

/-!
# What an injection keeps

When the adapter puts an event in front of a block it writes the block anew, from
its data line alone. Which of the other lines the client still receives.
-/
namespace ResponsesInjection

open GoBytes GoJson GoStream OpenaiApi ResponsesSse ResponsesEvents ResponsesFraming
open ResponsesToolCalls (callPayload)

/-- The first data line of the block makes the adapter send an event before it. -/
def Injects (a : ToolCalls) (block : List Bytes) : Prop :=
  ∃ line, block.find? isDataLine = some line ∧ (adaptPayload a (linePayload line)).1.2 ≠ []

/-- Behind the synthesized frame all lines of the block still occur, in their order. -/
def Keeps (block : List Bytes) (out : Bytes) : Prop :=
  ∃ d rest, splitBlocks isBlankSSELine out = argumentsDoneFrame d :: rest ∧
    List.Sublist (block.map trimLineEnd) (rest.flatten.map trimLineEnd)

def before (block : List Bytes) : List Bytes := block.takeWhile fun l => !isDataLine l

def after (block : List Bytes) : List Bytes := (block.dropWhile fun l => !isDataLine l).tail

def itemDoneName : Bytes := ascii "event: response.output_item.done"

/-- Around its data line the block has its event line, or not even this, and the blank line. -/
structure Bare (block : List Bytes) : Prop where
  before : before block = [] ∨ ∃ l, before block = [l] ∧ trimLineEnd l = itemDoneName
  after : ∀ l ∈ after block, isBlankSSELine l = true

/-! ## Lines around the data line -/

/-- A line that stands once in the longer list is met there. -/
theorem sublist_around {α : Type} {x : α} {as cs ds : List α} (bs : List α) (has : x ∉ as) (hcs : x ∉ cs)
    (hds : x ∉ ds) :
    List.Sublist (as ++ x :: bs) (cs ++ x :: ds) ↔ List.Sublist as cs ∧ List.Sublist bs ds := by
  constructor
  · intro h
    induction cs generalizing as with
    | nil =>
      cases as with
      | nil => exact ⟨List.nil_sublist _, List.cons_sublist_cons.mp h⟩
      | cons a as =>
        rw [List.nil_append, List.cons_append, List.sublist_cons_iff] at h
        have hx : List.Sublist (x :: bs) ds := by
          cases h with
          | inl h => exact (List.sublist_append_right (a :: as) _).trans h
          | inr h =>
            obtain ⟨r, hr, h⟩ := h
            rw [List.cons.injEq] at hr
            exact absurd (hr.1 ▸ List.mem_cons_self) has
        exact absurd (hx.subset List.mem_cons_self) hds
    | cons c cs ih =>
      rw [List.mem_cons, not_or] at hcs
      rw [List.cons_append, List.sublist_cons_iff] at h
      cases h with
      | inl h =>
        obtain ⟨h₁, h₂⟩ := ih has hcs.2 h
        exact ⟨h₁.cons c, h₂⟩
      | inr h =>
        obtain ⟨r, hr, h⟩ := h
        cases as with
        | nil =>
          rw [List.nil_append, List.cons.injEq] at hr
          exact absurd hr.1 hcs.1
        | cons a as =>
          rw [List.cons_append, List.cons.injEq] at hr
          obtain ⟨rfl, rfl⟩ := hr
          obtain ⟨h₁, h₂⟩ := ih (fun hx => has (List.mem_cons_of_mem _ hx)) hcs.2 h
          exact ⟨List.cons_sublist_cons.mpr h₁, h₂⟩
  · rintro ⟨h₁, h₂⟩
    exact h₁.append (List.cons_sublist_cons.mpr h₂)

theorem find_data {passed post : List Bytes} {line : Bytes} (hp : ∀ x ∈ passed, isDataLine x = false)
    (h : isDataLine line = true) : (passed ++ line :: post).find? isDataLine = some line := by
  have hnone : passed.find? isDataLine = none := by simpa using hp
  rw [List.find?_append, hnone, List.find?_cons_of_pos h]
  rfl

theorem before_eq {passed post : List Bytes} {line : Bytes} (hp : ∀ x ∈ passed, isDataLine x = false)
    (h : isDataLine line = true) : before (passed ++ line :: post) = passed := by
  rw [before, List.takeWhile_append_of_pos (by simpa using hp), List.takeWhile_cons_of_neg (by simp [h]),
    List.append_nil]

theorem after_eq {passed post : List Bytes} {line : Bytes} (hp : ∀ x ∈ passed, isDataLine x = false)
    (h : isDataLine line = true) : after (passed ++ line :: post) = post := by
  rw [after, List.dropWhile_append_of_pos (by simpa using hp), List.dropWhile_cons_of_neg (by simp [h]),
    List.tail_cons]

/-- The texts of the frame around the data line. -/
theorem closeLine_texts (line : Bytes) :
    (closeLine line).map trimLineEnd = trimLineEnd line :: if hasSuffix line [lf] then [[]] else [] := by
  unfold closeLine
  split
  · rfl
  · rw [List.map_singleton, trimLineEnd_append line (by simp [isLineEnd])]

/-- Behind the data line of a block stands only its blank line, if all there are blank. -/
theorem post_texts {passed post : List Bytes} {line : Bytes}
    (hb : LastBlock isBlankSSELine (passed ++ line :: post)) :
    List.Sublist (post.map trimLineEnd) (if hasSuffix line [lf] then [[]] else []) ↔
      ∀ l ∈ post, isBlankSSELine l = true := by
  constructor
  · intro hs l hl
    have hmem := hs.subset (List.mem_map_of_mem hl)
    have hempty : trimLineEnd l = [] := by
      split at hmem
      · exact List.mem_singleton.mp hmem
      · exact absurd hmem List.not_mem_nil
    rw [isBlankSSELine, hempty]
    rfl
  · intro hall
    rcases List.eq_nil_or_concat' post with rfl | ⟨init, last, rfl⟩
    · exact List.nil_sublist _
    · have hlast : isBlankSSELine last = true := hall last (by simp)
      have hinit : init = [] := by
        rw [List.eq_nil_iff_forall_not_mem]
        intro x hx
        have hblank := hall x (by simp [hx])
        cases hb.1 with
        | inl hblock =>
          obtain ⟨c, l, hc, -, hopen⟩ := hblock
          rw [← List.cons_append, ← List.append_assoc] at hc
          have hcx := hopen x ((List.append_inj' hc rfl).1 ▸ by simp [hx])
          rw [hcx] at hblank
          cases hblank
        | inr hopen =>
          have hcx := hopen.2 x (by simp [hx])
          rw [hcx] at hblank
          cases hblank
      subst hinit
      have hline : IsLine line := (isLines_suffix hb.2).1
      have htext : trimLineEnd last = [] := by simpa [isBlankSSELine] using hlast
      rw [if_pos ((isLine_iff line).mp hline).1, List.nil_append, List.map_singleton, htext]

/-! ## Injected frames -/

/-- The machine emits where the adapter puts an event before the payload. -/
theorem step_of_injects {a : ToolCalls} {payload : Bytes} (h : (adaptPayload a payload).1.2 ≠ []) :
    ∃ d, (step a (classify payload)).2 = some d := by
  rw [adaptPayload_eq, respond] at h
  cases hs : (step a (classify payload)).2 with
  | none => simp [hs] at h
  | some d => exact ⟨d, rfl⟩

/-- An injection leaves two frames: the new event, and the data line under its event line. -/
theorem splitBlocks_of_injects {a : ToolCalls} {passed post : List Bytes} {line : Bytes}
    (hb : LastBlock isBlankSSELine (passed ++ line :: post)) (hp : ∀ x ∈ passed, isDataLine x = false)
    (h : isDataLine line = true) (hi : (adaptPayload a (linePayload line)).1.2 ≠ []) :
    ∃ d, splitBlocks isBlankSSELine (adaptBlock a (passed ++ line :: post)).1 =
      [argumentsDoneFrame d, itemDoneHead :: closeLine line] := by
  obtain ⟨d, hd⟩ := step_of_injects hi
  have hw := adaptBlock_written a hb
  have hframes := framesOf_eq a post hp h
  rw [hd] at hframes
  rw [hframes] at hw
  exact ⟨d, by rw [hw.bytes, splitBlocks_of_stream hw.stream]⟩

theorem keeps_iff_texts {block : List Bytes} {out line : Bytes} {d : ResponseFunctionCallArgumentsDoneEvent}
    (h : splitBlocks isBlankSSELine out = [argumentsDoneFrame d, itemDoneHead :: closeLine line]) :
    Keeps block out ↔ List.Sublist (block.map trimLineEnd)
      ([itemDoneName] ++ trimLineEnd line :: if hasSuffix line [lf] then [[]] else []) := by
  have hhead : trimLineEnd itemDoneHead = itemDoneName := by decide
  have htexts : [itemDoneHead :: closeLine line].flatten.map trimLineEnd =
      [itemDoneName] ++ trimLineEnd line :: if hasSuffix line [lf] then [[]] else [] := by
    rw [List.flatten_singleton, List.map_cons, hhead, closeLine_texts]
    rfl
  rw [← htexts]
  constructor
  · rintro ⟨d', rest, hsplit, hsub⟩
    rw [h, List.cons.injEq] at hsplit
    rw [hsplit.2]
    exact hsub
  · intro hsub
    exact ⟨d, _, h, hsub⟩

/-- An injection keeps the lines of a block exactly when there is nothing around the
data line that the new frame does not have anyway. -/
theorem adaptBlock_keeps_iff (a : ToolCalls) {block : List Bytes} (hb : LastBlock isBlankSSELine block)
    (hi : Injects a block) : Keeps block (adaptBlock a block).1 ↔ Bare block := by
  obtain ⟨first, hfind, hstarts⟩ := hi
  rcases first_data block with hn | ⟨passed, line, post, rfl, hp, h⟩
  · have hnone : block.find? isDataLine = none := by simpa using hn
    rw [hnone] at hfind
    cases hfind
  obtain rfl : line = first := Option.some.inj ((find_data hp h).symm.trans hfind)
  obtain ⟨d, hsplit⟩ := splitBlocks_of_injects hb hp h hstarts
  have hdata : hasPrefix (trimLineEnd line) dataField = true := h
  have hpassed : trimLineEnd line ∉ passed.map trimLineEnd := by
    intro hmem
    obtain ⟨x, hx, heq⟩ := List.mem_map.mp hmem
    have hno := hp x hx
    rw [isDataLine, heq, hdata] at hno
    cases hno
  have hname : trimLineEnd line ≠ itemDoneName := by
    intro heq
    rw [heq] at hdata
    exact absurd hdata (by decide)
  have hempty : trimLineEnd line ≠ [] := by
    intro heq
    rw [heq] at hdata
    exact absurd hdata (by decide)
  have htail : trimLineEnd line ∉ if hasSuffix line [lf] then [([] : Bytes)] else [] := by
    split <;> simp [hempty]
  have hsingle : List.Sublist (passed.map trimLineEnd) [itemDoneName] ↔
      passed = [] ∨ ∃ l, passed = [l] ∧ trimLineEnd l = itemDoneName := by
    rw [List.sublist_singleton, List.map_eq_nil_iff, List.map_eq_singleton_iff]
  have hevent : trimLineEnd line ∉ [itemDoneName] := by simpa using hname
  have haround := sublist_around (post.map trimLineEnd) hpassed hevent htail
  rw [keeps_iff_texts hsplit, List.map_append, List.map_cons, haround, post_texts hb, hsingle]
  constructor
  · rintro ⟨h₁, h₂⟩
    exact ⟨by rw [before_eq hp h]; exact h₁, by rw [after_eq hp h]; exact h₂⟩
  · rintro ⟨h₁, h₂⟩
    rw [before_eq hp h] at h₁
    rw [after_eq hp h] at h₂
    exact ⟨h₁, h₂⟩

/-- A block that finishes a function call, with a line before its data line. -/
def finishedBlock (first : Bytes) : List Bytes := [first, dataField ++ callPayload ++ [lf], [lf]]

theorem finishedBlock_lastBlock {first : Bytes} (h : IsLine first) (hopen : isBlankSSELine first = false) :
    LastBlock isBlankSSELine (finishedBlock first) := by
  have hdata : IsLine (dataField ++ callPayload ++ [lf]) :=
    ⟨dataField ++ callPayload, rfl, by decide +kernel⟩
  have hbody : isBlankSSELine (dataField ++ callPayload ++ [lf]) = false := by
    rw [List.append_assoc]
    exact not_blank_append _
  have hlines : ∀ x ∈ [first, dataField ++ callPayload ++ [lf]], IsLine x ∧ isBlankSSELine x = false := by
    intro x hx
    cases List.mem_cons.mp hx with
    | inl hx => exact hx ▸ ⟨h, hopen⟩
    | inr hx => exact (List.mem_singleton.mp hx) ▸ ⟨hdata, hbody⟩
  exact (closed_of_lines hlines isLine_lf).last

theorem itemDone_keeps :
    Keeps (finishedBlock itemDoneHead) (adaptBlock [] (finishedBlock itemDoneHead)).1 ↔
      Bare (finishedBlock itemDoneHead) :=
  adaptBlock_keeps_iff [] (finishedBlock_lastBlock itemDoneHead_isLine.1 itemDoneHead_isLine.2)
    ⟨dataField ++ callPayload ++ [lf], by decide +kernel, by decide +kernel⟩

def idLine : Bytes := ascii "id: 7\n"

/-- An id line before the data line does not reach the client. -/
theorem idLine_lost :
    LastBlock isBlankSSELine (finishedBlock idLine) ∧ Injects [] (finishedBlock idLine) ∧
      ¬ Keeps (finishedBlock idLine) (adaptBlock [] (finishedBlock idLine)).1 := by
  have hline : IsLine idLine := ⟨ascii "id: 7", by decide, by decide⟩
  have hb := finishedBlock_lastBlock hline (by decide)
  have hfind : (finishedBlock idLine).find? isDataLine = some (dataField ++ callPayload ++ [lf]) := by
    decide +kernel
  have hstarts : (adaptPayload [] (linePayload (dataField ++ callPayload ++ [lf]))).1.2 ≠ [] := by
    decide +kernel
  refine ⟨hb, ⟨_, hfind, hstarts⟩, fun hkeeps => ?_⟩
  have hfirst : ∀ x ∈ [idLine], isDataLine x = false := by decide
  have hdata : isDataLine (dataField ++ callPayload ++ [lf]) = true := by decide +kernel
  obtain ⟨d, hsplit⟩ := splitBlocks_of_injects hb hfirst hdata hstarts
  have hsub := (keeps_iff_texts hsplit).mp hkeeps
  have hmem := hsub.subset (List.mem_map_of_mem (List.mem_cons_self : idLine ∈ finishedBlock idLine))
  exact absurd hmem (by decide +kernel)

end ResponsesInjection
