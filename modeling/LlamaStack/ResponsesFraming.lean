import LlamaStack.ResponsesEvents

/-!
# Framing of the Responses stream

What the adapter writes for a block, frame by frame. The code finds an injection
by searching the bytes it produced, so the lemmas about single lines come first:
a line of the source holds a line feed at its end only.
-/
namespace ResponsesFraming

open GoBytes GoJson GoMap GoStream OpenaiApi ResponsesAdapter ResponsesSse ResponsesEvents

set_option maxRecDepth 4000

/-! ## Single lines -/

theorem lf_not_mem_trimLineEnd {l : Bytes} (h : OneLine l) : lf ∉ trimLineEnd l := by
  intro hmem
  have he := trimLineEnd_append_lineEnd l
  by_cases hl : lineEnd l = []
  · rw [hl, List.append_nil] at he
    have hne : trimLineEnd l ≠ [] := List.ne_nil_of_mem hmem
    have hlast := List.rdropWhile_last_not isLineEnd l hne
    have hd := h.lf_dropLast
    rw [← he] at hd
    rw [← List.dropLast_append_getLast hne, List.mem_append, List.mem_singleton] at hmem
    rcases hmem with hmem | hmem
    · exact hd hmem
    · apply hlast
      change isLineEnd ((trimLineEnd l).getLast hne) = true
      rw [← hmem]
      rfl
  · have hd := h.lf_dropLast
    rw [← he, List.dropLast_append_of_ne_nil hl] at hd
    exact hd (List.mem_append_left _ hmem)

theorem lf_not_mem_lineEnd {l : Bytes} (h : OneLine l) : lf ∉ (lineEnd l).dropLast := by
  intro hmem
  have hl : lineEnd l ≠ [] := by
    rintro h0
    simp [h0] at hmem
  have hd := h.lf_dropLast
  rw [← trimLineEnd_append_lineEnd l, List.dropLast_append_of_ne_nil hl] at hd
  exact hd (List.mem_append_right _ hmem)

/-- The payload of a data line. -/
def linePayload (line : Bytes) : Bytes := trimPrefix (trimLineEnd line) dataField

theorem line_eq {line : Bytes} (h : isDataLine line = true) :
    line = dataField ++ linePayload line ++ lineEnd line := by
  obtain ⟨t, ht⟩ := (hasPrefix_iff _ _).mp h
  have he := trimLineEnd_append_lineEnd line
  conv_lhs => rw [← he, ht]
  rw [linePayload, ht, trimPrefix_append]

theorem lf_not_mem_linePayload {line : Bytes} (hl : OneLine line) (h : isDataLine line = true) :
    lf ∉ linePayload line := by
  obtain ⟨t, ht⟩ := (hasPrefix_iff _ _).mp h
  have hn := lf_not_mem_trimLineEnd hl
  rw [ht, List.mem_append, not_or] at hn
  rw [linePayload, ht, trimPrefix_append]
  exact hn.2

theorem lf_not_mem_adaptCompleted {payload : Bytes} (h : lf ∉ payload) :
    lf ∉ adaptCompleted payload := by
  unfold adaptCompleted
  cases ha : adaptResponsesSSEPayload payload with
  | none => exact h
  | some out => exact (adaptResponsesSSEPayload_one_line ha).1

/-- Text with a line feed at its end only holds no text that starts with one. -/
theorem contains_eq_false {s sub : Bytes} (hs : lf ∉ s.dropLast) (hsub : sub ≠ []) :
    contains s (lf :: sub) = false := by
  rw [← Bool.not_eq_true, contains_iff]
  rintro ⟨x, y, rfl⟩
  apply hs
  rw [List.append_assoc, List.cons_append,
    List.dropLast_append_of_ne_nil (by simp), List.dropLast_cons_of_ne_nil (by simp [hsub])]
  simp

theorem hasSuffix_eq_false {z w : Bytes} (hw : w ≠ []) (hlast : w.length = 1 → w ≠ [lf])
    (hd : lf ∉ w.dropLast) : hasSuffix (z ++ w) [lf, lf] = false := by
  rw [← Bool.not_eq_true, hasSuffix_iff]
  rintro ⟨t, ht⟩
  obtain ⟨c, x, rfl⟩ := (List.eq_nil_or_concat' w).resolve_left hw
  rw [show [lf, lf] = [lf] ++ [lf] from rfl, ← List.append_assoc, ← List.append_assoc] at ht
  obtain ⟨h₁, h₂⟩ := List.append_inj' ht rfl
  rw [List.dropLast_concat] at hd
  rcases List.eq_nil_or_concat' c with rfl | ⟨c, y, rfl⟩
  · exact hlast rfl (by simpa using h₂)
  · rw [← List.append_assoc] at h₁
    obtain ⟨-, h₃⟩ := List.append_inj' h₁ rfl
    apply hd
    simp only [List.cons.injEq, and_true] at h₃
    simp [h₃]

/-! ## Adapted lines and blocks -/

theorem classify_doneMarker : classify doneMarker = .other := rfl

theorem adaptCompleted_doneMarker : adaptCompleted doneMarker = doneMarker := rfl

/-- A payload that the machine knows is a JSON text, so it is not empty. -/
theorem ne_nil_of_classify {payload : Bytes} (h : classify payload ≠ .other) : payload ≠ [] := by
  rintro rfl
  exact h rfl

def argumentsDoneFrame (d : ResponseFunctionCallArgumentsDoneEvent) : List Bytes :=
  [ascii "event: response.function_call_arguments.done\n", dataField ++ print d.marshal ++ [lf], [lf]]

def itemDoneHead : Bytes := ascii "event: response.output_item.done\n"

/-- The line that the adapter writes for a data line. -/
def adaptedLine (line : Bytes) : Bytes :=
  dataField ++ adaptCompleted (linePayload line) ++ lineEnd line

/-- The text that `adaptLine` returns, by what the machine emits. -/
def producedText (line : Bytes) : Option ResponseFunctionCallArgumentsDoneEvent → Bytes
  | none => adaptedLine line
  | some d => (argumentsDoneFrame d).flatten ++ (itemDoneHead ++ adaptedLine line)

theorem adaptLine_eq (a : ToolCalls) {line : Bytes} (h : isDataLine line = true) :
    adaptLine a line =
      (producedText line (step a (classify (linePayload line))).2,
        (step a (classify (linePayload line))).1) := by
  have hp : trimPrefix (trimLineEnd line) dataField = linePayload line := rfl
  have hh : hasPrefix (trimLineEnd line) dataField = true := h
  simp only [adaptLine, hh, hp, not_true_eq_false, if_false]
  split
  · rename_i hd
    have hl := line_eq h
    rw [hd] at hl ⊢
    simp only [classify_doneMarker, step, producedText, adaptedLine, hd, adaptCompleted_doneMarker, ← hl]
  · rw [adaptPayload_eq, respond]
    cases hs : (step a (classify (linePayload line))).2 with
    | none => simp [producedText, adaptedLine]
    | some d =>
      have hne : argumentsDoneName ≠ [] := by decide
      have h₁ : ascii "event: " ++ argumentsDoneName ++ [lf] =
          ascii "event: response.function_call_arguments.done\n" := by decide
      have h₂ : itemDoneFrame = [lf] ++ [lf] ++ itemDoneHead ++ dataField := by decide
      simp only [hne, if_false, h₁, h₂]
      simp [producedText, adaptedLine, argumentsDoneFrame]

theorem adaptedLine_oneLine {line : Bytes} (hl : OneLine line) (h : isDataLine line = true) :
    lf ∉ (adaptedLine line).dropLast := by
  have hp := lf_not_mem_adaptCompleted (lf_not_mem_linePayload hl h)
  have hd : lf ∉ dataField := by decide
  have hdp : lf ∉ dataField ++ adaptCompleted (linePayload line) := by simp [hd, hp]
  unfold adaptedLine
  by_cases he : lineEnd line = []
  · rw [he, List.append_nil]
    exact fun hm => hdp (List.mem_of_mem_dropLast hm)
  · rw [List.dropLast_append_of_ne_nil he, List.mem_append, not_or]
    exact ⟨hdp, lf_not_mem_lineEnd hl⟩

/-- Only a payload known to the machine makes it emit an event. -/
theorem classify_of_step {a : ToolCalls} {payload : Bytes}
    {d : ResponseFunctionCallArgumentsDoneEvent} (h : (step a (classify payload)).2 = some d) :
    ∃ c, classify payload = .finished c ∧ (stateOf a c.itemID).argumentsDone = false ∧
      d = (c.close (stateOf a c.itemID)).doneEvent := by
  cases hc : classify payload with
  | argumentsDelta e =>
    rw [hc, step] at h
    split at h <;> cases h
  | argumentsDone e =>
    rw [hc, step] at h
    split at h <;> cases h
  | other =>
    rw [hc] at h
    cases h
  | finished c =>
    rw [hc, step] at h
    split at h
    · cases h
    · rename_i hd
      cases h
      exact ⟨c, rfl, by simpa using hd, rfl⟩

theorem adaptedLine_of_step {a : ToolCalls} {line : Bytes}
    {d : ResponseFunctionCallArgumentsDoneEvent} (h : isDataLine line = true)
    (hs : (step a (classify (linePayload line))).2 = some d) : adaptedLine line = line := by
  obtain ⟨c, hc, -⟩ := classify_of_step hs
  rw [adaptedLine, adaptCompleted_of_classify (by rw [hc]; nofun), ← line_eq h]

theorem itemDoneHead_append_line {line : Bytes} (h : isDataLine line = true) (x : Bytes) :
    x ++ ([lf] ++ (itemDoneHead ++ line)) =
      x ++ (lf :: ascii "event: ") ++
        (ascii "response.output_item.done\ndata: " ++ (linePayload line ++ lineEnd line)) := by
  have h₁ : itemDoneHead ++ dataField =
      ascii "event: " ++ ascii "response.output_item.done\ndata: " := by decide
  conv_lhs => rw [line_eq h]
  simp only [← List.append_assoc] at h₁ ⊢
  rw [List.append_assoc (x ++ [lf]), h₁]
  simp

/-- What the adapter makes of a block whose first data line is `line`. -/
theorem adaptBlock_eq (a : ToolCalls) {passed : List Bytes} {line : Bytes} (post : List Bytes)
    (hp : ∀ x ∈ passed, isDataLine x = false) (h : isDataLine line = true) (hl : OneLine line) :
    adaptBlock a (passed ++ line :: post) =
      ((match (step a (classify (linePayload line))).2 with
        | none => passed.flatten ++ adaptedLine line ++ post.flatten
        | some d => (argumentsDoneFrame d).flatten ++ (itemDoneHead ++ (line ++ [lf]))),
        (step a (classify (linePayload line))).1) := by
  have hfrom : ∀ (seen passed : List Bytes), (∀ x ∈ passed, isDataLine x = false) →
      adaptBlockFrom a seen (passed ++ line :: post) =
        adaptBlockFrom a (seen ++ passed) (line :: post) := by
    intro seen passed hp
    induction passed generalizing seen with
    | nil => simp
    | cons x passed ih =>
      rw [List.cons_append, adaptBlockFrom, if_pos (by simp [hp x (by simp)]),
        ih _ fun y hy => hp y (by simp [hy])]
      simp
  rw [adaptBlock, hfrom [] passed hp, List.nil_append, adaptBlockFrom, if_neg (by simp [h]),
    adaptLine_eq a h]
  have hpat : ascii "\n\nevent: " = lf :: (lf :: ascii "event: ") := by decide
  cases hs : (step a (classify (linePayload line))).2 with
  | none =>
    have hsub : lf :: ascii "event: " ≠ [] := by simp
    have hc := contains_eq_false (adaptedLine_oneLine hl h) hsub
    simp only [producedText, hpat, hc, Bool.false_eq_true, if_false]
  | some d =>
    have had := adaptedLine_of_step h hs
    have hframe : producedText line (some d) =
        (ascii "event: response.function_call_arguments.done\n" ++ (dataField ++ print d.marshal)) ++
          (lf :: (lf :: ascii "event: ")) ++
            (ascii "response.output_item.done\ndata: " ++ (linePayload line ++ lineEnd line)) := by
      have hh := itemDoneHead_append_line h
        (ascii "event: response.function_call_arguments.done\n" ++ (dataField ++ print d.marshal) ++ [lf])
      simpa [producedText, had, argumentsDoneFrame, List.append_assoc] using hh
    have hc : contains (producedText line (some d)) (ascii "\n\nevent: ") = true := by
      rw [hpat, contains_iff]
      exact ⟨_, _, hframe⟩
    have hsuf : hasSuffix (producedText line (some d)) (ascii "\n\n") = false := by
      obtain ⟨c, hcl, -⟩ := classify_of_step hs
      have hcls : classify (linePayload line) ≠ .other := by
        rw [hcl]
        nofun
      have hne := ne_nil_of_classify hcls
      have hlf := lf_not_mem_linePayload hl h
      rw [hframe, ← List.append_assoc, show ascii "\n\n" = [lf, lf] by decide]
      apply hasSuffix_eq_false
      · simp [hne]
      · intro hlen heq
        obtain ⟨x, xs, hx⟩ := List.exists_cons_of_ne_nil hne
        rw [hx, List.cons_append, List.cons.injEq] at heq
        exact hlf (by rw [hx, heq.1]; simp)
      · by_cases he : lineEnd line = []
        · rw [he, List.append_nil]
          exact fun hm => hlf (List.mem_of_mem_dropLast hm)
        · rw [List.dropLast_append_of_ne_nil he, List.mem_append, not_or]
          exact ⟨hlf, lf_not_mem_lineEnd hl⟩
    simp only [hc, hsuf, if_true, Bool.false_eq_true, if_false]
    simp [producedText, had]

/-- A block without data line stays. -/
theorem adaptBlock_of_no_data (a : ToolCalls) {block : List Bytes}
    (h : ∀ x ∈ block, isDataLine x = false) : adaptBlock a block = (block.flatten, a) := by
  have hfrom : ∀ seen : List Bytes, adaptBlockFrom a seen block = ((seen ++ block).flatten, a) := by
    induction block with
    | nil => simp [adaptBlockFrom]
    | cons x block ih =>
      intro seen
      rw [adaptBlockFrom, if_pos (by simp [h x (by simp)]), ih fun y hy => h y (by simp [hy])]
      simp
  exact hfrom []

/-! ## Frames -/

/-- The last lines of a frame that ends with the given line. -/
def closeLine (line : Bytes) : List Bytes :=
  if hasSuffix line [lf] then [line, [lf]] else [line ++ [lf]]

/-- What the client may receive for one block: the block, the block with the
payload of its first data line rewritten, or a frame with a synthesized event
and a frame with the data line as it came. -/
inductive FrameImage (block : List Bytes) : List (List Bytes) → Prop
  | same : FrameImage block [block]
  | replaced {passed post : List Bytes} {line payload : Bytes}
      {event : LlamacppApi.ResponseCompletedEvent} :
      block = passed ++ line :: post → (∀ x ∈ passed, isDataLine x = false) → isDataLine line = true →
      eventType (linePayload line) = some responseCompleted →
      unmarshal LlamacppApi.ResponseCompletedEvent.decode (linePayload line) = some event →
      lf ∉ payload → cr ∉ payload →
      FrameImage block [passed ++ (dataField ++ payload ++ lineEnd line) :: post]
  | injected {passed post : List Bytes} {line : Bytes} {c : FinishedCall}
      {d : ResponseFunctionCallArgumentsDoneEvent} :
      block = passed ++ line :: post → (∀ x ∈ passed, isDataLine x = false) → isDataLine line = true →
      classify (linePayload line) = .finished c → d.itemId = c.itemID →
      d.type = responseFunctionCallArgumentsDone →
      FrameImage block [argumentsDoneFrame d, itemDoneHead :: closeLine line]

theorem isBlankSSELine_iff (l : Bytes) : isBlankSSELine l = true ↔ ∀ b ∈ l, isLineEnd b = true := by
  simp [isBlankSSELine, trimLineEnd, List.rdropWhile_eq_nil_iff]

theorem not_blank_of_mem {l : Bytes} {b : UInt8} (h : b ∈ l) (hb : isLineEnd b = false) :
    isBlankSSELine l = false := by
  rw [← Bool.not_eq_true, isBlankSSELine_iff]
  intro hall
  simp [hall b h] at hb

theorem not_blank_append (x : Bytes) : isBlankSSELine (dataField ++ x) = false :=
  not_blank_of_mem (b := 0x64) (List.mem_append_left _ (by decide)) (by decide)

theorem not_blank_of_data {line : Bytes} (h : isDataLine line = true) :
    isBlankSSELine line = false := by
  rw [line_eq h, List.append_assoc]
  exact not_blank_append _

theorem isLine_iff (l : Bytes) : IsLine l ↔ hasSuffix l [lf] = true ∧ lf ∉ l.dropLast := by
  rw [hasSuffix_iff]
  constructor
  · rintro ⟨c, rfl, hc⟩
    exact ⟨⟨c, rfl⟩, by simpa using hc⟩
  · rintro ⟨⟨c, rfl⟩, hc⟩
    exact ⟨c, rfl, by simpa using hc⟩

theorem adaptedLine_isLine {line : Bytes} (h : isDataLine line = true) (hl : IsLine line) :
    IsLine (adaptedLine line) := by
  rw [isLine_iff]
  refine ⟨?_, adaptedLine_oneLine (.inl hl) h⟩
  have hone : OneLine line := .inl hl
  obtain ⟨c, hc, -⟩ := hl
  have he : lineEnd line ≠ [] := by
    intro h0
    have hlf := lf_not_mem_trimLineEnd hone
    have ht := trimLineEnd_append_lineEnd line
    rw [h0, List.append_nil] at ht
    rw [ht, hc] at hlf
    simp at hlf
  obtain ⟨e, x, hx⟩ := (List.eq_nil_or_concat' _).resolve_left he
  have hlast : x = lf := by
    have ht := trimLineEnd_append_lineEnd line
    rw [hx, ← List.append_assoc, hc] at ht
    simpa using (List.append_inj' ht rfl).2
  rw [hasSuffix_iff, adaptedLine, hx, hlast]
  exact ⟨dataField ++ adaptCompleted (linePayload line) ++ e, by simp⟩

theorem adaptedLine_isRest {line : Bytes} (h : isDataLine line = true) (hl : IsRest line) :
    IsRest (adaptedLine line) := by
  have hp := lf_not_mem_adaptCompleted (lf_not_mem_linePayload (.inr hl) h)
  have he : lf ∉ lineEnd line := by
    have ht := hl.2
    rw [← trimLineEnd_append_lineEnd line, List.mem_append, not_or] at ht
    exact ht.2
  have hd : lf ∉ dataField := by decide
  refine ⟨by simp [adaptedLine, dataField, ascii], ?_⟩
  simp [adaptedLine, hd, hp, he]

theorem isBlock_replace {isEnd : Bytes → Bool} {passed post : List Bytes} {x y : Bytes}
    (hx : isEnd x = false) (hy : isEnd y = false) (h : IsBlock isEnd (passed ++ x :: post)) :
    IsBlock isEnd (passed ++ y :: post) := by
  obtain ⟨c, l, he, hl, hc⟩ := h
  rcases List.eq_nil_or_concat' post with rfl | ⟨post, z, rfl⟩
  · obtain ⟨-, h₂⟩ := List.append_inj' he rfl
    simp only [List.cons.injEq, and_true] at h₂
    rw [h₂, hl] at hx
    cases hx
  · rw [← List.cons_append, ← List.append_assoc] at he
    obtain ⟨h₁, h₂⟩ := List.append_inj' he rfl
    simp only [List.cons.injEq, and_true] at h₂
    refine ⟨passed ++ y :: post, z, by simp, h₂ ▸ hl, fun w hw => ?_⟩
    rw [← h₁] at hc
    rcases List.mem_append.mp hw with hw | hw
    · exact hc w (by simp [hw])
    · rcases List.mem_cons.mp hw with rfl | hw
      · exact hy
      · exact hc w (by simp [hw])

theorem isLines_replace {passed post : List Bytes} {x y : Bytes} (hline : IsLine x → IsLine y)
    (hrest : IsRest x → IsRest y) (h : IsLines (passed ++ x :: post)) :
    IsLines (passed ++ y :: post) := by
  refine isLines_append (isLines_nonlast h (by simp)) ?_
  have h' := isLines_suffix h
  cases post with
  | nil => exact h'.imp hline hrest
  | cons z post => exact ⟨hline h'.1, h'.2⟩

theorem adaptedLine_not_blank (line : Bytes) : isBlankSSELine (adaptedLine line) = false := by
  rw [adaptedLine, List.append_assoc]
  exact not_blank_append _

theorem lastBlock_replace {passed post : List Bytes} {line : Bytes} (h : isDataLine line = true)
    (hb : LastBlock isBlankSSELine (passed ++ line :: post)) :
    LastBlock isBlankSSELine (passed ++ adaptedLine line :: post) := by
  have hy := adaptedLine_not_blank line
  refine ⟨hb.1.imp (isBlock_replace (not_blank_of_data h) hy) fun ho => ⟨by simp, fun z hz => ?_⟩,
    isLines_replace (adaptedLine_isLine h) (adaptedLine_isRest h) hb.2⟩
  rcases List.mem_append.mp hz with hz | hz
  · exact ho.2 z (by simp [hz])
  · rcases List.mem_cons.mp hz with rfl | hz
    · exact hy
    · exact ho.2 z (by simp [hz])

theorem closed_replace {passed post : List Bytes} {line : Bytes} (h : isDataLine line = true)
    (hb : Closed isBlankSSELine (passed ++ line :: post)) :
    Closed isBlankSSELine (passed ++ adaptedLine line :: post) := by
  refine ⟨isBlock_replace (not_blank_of_data h) (adaptedLine_not_blank line) hb.1, fun l hl => ?_⟩
  rcases List.mem_append.mp hl with hl | hl
  · exact hb.2 l (by simp [hl])
  · rcases List.mem_cons.mp hl with rfl | hl
    · exact adaptedLine_isLine h (hb.2 line (by simp))
    · exact hb.2 l (by simp [hl])

theorem closed_of_lines {c : List Bytes} {l : Bytes} (hc : ∀ x ∈ c, IsLine x ∧ isBlankSSELine x = false)
    (hl : IsLine l ∧ isBlankSSELine l = true) : Closed isBlankSSELine (c ++ [l]) := by
  refine ⟨⟨c, l, rfl, hl.2, fun x hx => (hc x hx).2⟩, fun x hx => ?_⟩
  rcases List.mem_append.mp hx with hx | hx
  · exact (hc x hx).1
  · rw [List.mem_singleton.mp hx]
    exact hl.1

theorem isLine_lf : IsLine [lf] ∧ isBlankSSELine [lf] = true := ⟨⟨[], rfl, by simp⟩, by decide⟩

theorem argumentsDoneFrame_closed (d : ResponseFunctionCallArgumentsDoneEvent) :
    Closed isBlankSSELine (argumentsDoneFrame d) := by
  have hp := (print_one_line d.marshal).1
  have hd : lf ∉ dataField := by decide
  refine closed_of_lines (c := [_, _]) (fun x hx => ?_) isLine_lf
  simp only [List.mem_cons, List.not_mem_nil, or_false] at hx
  rcases hx with rfl | rfl
  · exact ⟨⟨ascii "event: response.function_call_arguments.done", by decide, by decide⟩, by decide⟩
  · refine ⟨⟨dataField ++ print d.marshal, rfl, by simp [hd, hp]⟩, ?_⟩
    rw [List.append_assoc]
    exact not_blank_append _

theorem itemDoneHead_isLine : IsLine itemDoneHead ∧ isBlankSSELine itemDoneHead = false :=
  ⟨⟨ascii "event: response.output_item.done", by decide, by decide⟩, by decide⟩

theorem closeLine_flatten (line : Bytes) : (closeLine line).flatten = line ++ [lf] := by
  unfold closeLine
  split <;> simp

/-- The frame around a data line is closed when the line is terminated. -/
theorem itemDoneFrame_closed {line : Bytes} (h : isDataLine line = true) (hl : IsLine line) :
    Closed isBlankSSELine (itemDoneHead :: closeLine line) := by
  rw [closeLine, if_pos ((isLine_iff line).mp hl).1]
  refine closed_of_lines (c := [_, _]) (fun x hx => ?_) isLine_lf
  simp only [List.mem_cons, List.not_mem_nil, or_false] at hx
  rcases hx with rfl | rfl
  · exact itemDoneHead_isLine
  · exact ⟨hl, not_blank_of_data h⟩

theorem itemDoneFrame_last {line : Bytes} (h : isDataLine line = true) (hl : OneLine line) :
    LastBlock isBlankSSELine (itemDoneHead :: closeLine line) := by
  rcases hl with hl | hl
  · exact (itemDoneFrame_closed h hl).last
  · have hs : hasSuffix line [lf] = false := by
      rw [← Bool.not_eq_true, hasSuffix_iff]
      rintro ⟨t, rfl⟩
      exact hl.2 (by simp)
    rw [closeLine, if_neg (by simp [hs])]
    refine ⟨.inr ⟨by simp, fun x hx => ?_⟩, itemDoneHead_isLine.1, .inl ⟨line, rfl, hl.2⟩⟩
    simp only [List.mem_cons, List.not_mem_nil, or_false] at hx
    rcases hx with rfl | rfl
    · exact itemDoneHead_isLine.2
    · exact not_blank_of_mem (b := 0x64) (by rw [line_eq h]; simp [dataField, ascii]) (by decide)

/-! ## One block -/

/-- The frames of a block behind the lines that the adapter has passed over. -/
def framesFrom (a : ToolCalls) (passed : List Bytes) : List Bytes → List (List Bytes)
  | [] => [passed]
  | line :: rest =>
    if isDataLine line then
      match (step a (classify (linePayload line))).2 with
      | none => [passed ++ adaptedLine line :: rest]
      | some d => [argumentsDoneFrame d, itemDoneHead :: closeLine line]
    else framesFrom a (passed ++ [line]) rest

/-- The frames that the adapter makes of a block. -/
def framesOf (a : ToolCalls) (block : List Bytes) : List (List Bytes) := framesFrom a [] block

theorem framesOf_of_no_data (a : ToolCalls) {block : List Bytes}
    (h : ∀ x ∈ block, isDataLine x = false) : framesOf a block = [block] := by
  have hfrom : ∀ seen : List Bytes, framesFrom a seen block = [seen ++ block] := by
    induction block with
    | nil => simp [framesFrom]
    | cons x block ih =>
      intro seen
      rw [framesFrom, if_neg (by simp [h x (by simp)]), ih fun y hy => h y (by simp [hy])]
      simp
  exact hfrom []

theorem framesOf_eq (a : ToolCalls) {passed : List Bytes} {line : Bytes} (post : List Bytes)
    (hp : ∀ x ∈ passed, isDataLine x = false) (h : isDataLine line = true) :
    framesOf a (passed ++ line :: post) =
      match (step a (classify (linePayload line))).2 with
      | none => [passed ++ adaptedLine line :: post]
      | some d => [argumentsDoneFrame d, itemDoneHead :: closeLine line] := by
  have hfrom : ∀ seen : List Bytes, framesFrom a seen (passed ++ line :: post) =
      framesFrom a (seen ++ passed) (line :: post) := by
    induction passed with
    | nil => simp
    | cons x passed ih =>
      intro seen
      rw [List.cons_append, framesFrom, if_neg (by simp [hp x (by simp)]),
        ih (fun y hy => hp y (by simp [hy]))]
      simp
  rw [framesOf, hfrom [], List.nil_append, framesFrom, if_pos h]

/-- What the adapter writes for a block is one image of it. -/
structure Written (a : ToolCalls) (block : List Bytes) (frames : List (List Bytes)) : Prop where
  image : FrameImage block frames
  bytes : (adaptBlock a block).1 = frames.flatten.flatten
  stream : StreamBlocks isBlankSSELine frames
  closed : Closed isBlankSSELine block → ∀ f ∈ frames, Closed isBlankSSELine f

/-- The first data line of a block, if it has one. -/
theorem first_data (block : List Bytes) :
    (∀ x ∈ block, isDataLine x = false) ∨
      ∃ passed line post, block = passed ++ line :: post ∧
        (∀ x ∈ passed, isDataLine x = false) ∧ isDataLine line = true := by
  induction block with
  | nil => exact .inl (by simp)
  | cons x block ih =>
    by_cases hx : isDataLine x = true
    · exact .inr ⟨[], x, block, rfl, by simp, hx⟩
    · simp only [Bool.not_eq_true] at hx
      rcases ih with h | ⟨passed, line, post, rfl, hp, hl⟩
      · exact .inl (by simpa [hx] using h)
      · exact .inr ⟨x :: passed, line, post, rfl, by simpa [hx] using hp, hl⟩

theorem adaptCompleted_cases (payload : Bytes) :
    adaptCompleted payload = payload ∨
      ∃ event, eventType payload = some responseCompleted ∧
        unmarshal LlamacppApi.ResponseCompletedEvent.decode payload = some event ∧
        lf ∉ adaptCompleted payload ∧ cr ∉ adaptCompleted payload := by
  unfold adaptCompleted
  cases h : adaptResponsesSSEPayload payload with
  | none => exact .inl rfl
  | some out =>
    right
    have ht := (adaptResponsesSSEPayload_type h).1
    have ho := adaptResponsesSSEPayload_one_line h
    unfold adaptResponsesSSEPayload at h
    split at h
    · cases h
    · split at h
      · cases h
      · split at h
        · cases h
        · rename_i event he
          exact ⟨event, ht, he, ho⟩

/-- Step lemma: every block becomes one image. -/
theorem adaptBlock_written (a : ToolCalls) {block : List Bytes}
    (hb : LastBlock isBlankSSELine block) : Written a block (framesOf a block) := by
  rcases first_data block with hn | ⟨passed, line, post, rfl, hp, h⟩
  · rw [framesOf_of_no_data a hn]
    exact ⟨.same, by simp [adaptBlock_of_no_data a hn], hb, by simp⟩
  · have hl : OneLine line := oneLine_of_isLines hb.2 line (by simp)
    have hout := adaptBlock_eq a post hp h hl
    have hfr := framesOf_eq a post hp h
    cases hs : (step a (classify (linePayload line))).2 with
    | some d =>
      rw [hs] at hout hfr
      rw [hfr]
      obtain ⟨c, hc, -, rfl⟩ := classify_of_step hs
      refine ⟨.injected rfl hp h hc rfl rfl, by simp [hout, closeLine_flatten],
        ⟨argumentsDoneFrame_closed _, itemDoneFrame_last h hl⟩, fun hcl f hf => ?_⟩
      simp only [List.mem_cons, List.not_mem_nil, or_false] at hf
      rcases hf with rfl | rfl
      · exact argumentsDoneFrame_closed _
      · exact itemDoneFrame_closed h (hcl.2 line (by simp))
    | none =>
      rw [hs] at hout hfr
      rw [hfr]
      refine ⟨?_, by simp [hout], lastBlock_replace h hb, fun hcl f hf => ?_⟩
      · rcases adaptCompleted_cases (linePayload line) with hsame | ⟨event, ht, he, hlf, hcr⟩
        · have hline : adaptedLine line = line := by
            rw [adaptedLine, hsame, ← line_eq h]
          rw [hline]
          exact .same
        · exact .replaced rfl hp h ht he hlf hcr
      · rw [List.mem_singleton.mp hf]
        exact closed_replace h hcl

/-! ## The stream -/

/-- The frames of all blocks, block by block. -/
def allFrames (a : ToolCalls) : List (List Bytes) → List (List (List Bytes))
  | [] => []
  | b :: bs => framesOf a b :: allFrames (adaptBlock a b).2 bs

/-- Run lemma: the images of a stream of blocks are a stream of blocks. -/
theorem adaptBlocks_written (a : ToolCalls) {bs : List (List Bytes)}
    (h : StreamBlocks isBlankSSELine bs) :
    List.Forall₂ FrameImage bs (allFrames a bs) ∧
      (adaptBlocks a bs).flatten = (allFrames a bs).flatten.flatten.flatten ∧
      StreamBlocks isBlankSSELine (allFrames a bs).flatten := by
  induction bs generalizing a with
  | nil => exact ⟨.nil, rfl, trivial⟩
  | cons b bs ih =>
    cases bs with
    | nil =>
      have hw := adaptBlock_written a h
      exact ⟨.cons hw.image .nil, by simp [allFrames, adaptBlocks, hw.bytes],
        by simpa [allFrames] using hw.stream⟩
    | cons c cs =>
      have hw := adaptBlock_written a h.1.last
      obtain ⟨hi, hbytes, hstream⟩ := ih (adaptBlock a b).2 h.2
      refine ⟨.cons hw.image hi, ?_, streamBlocks_append (hw.closed h.1) hstream⟩
      rw [adaptBlocks, allFrames, List.flatten_cons, hw.bytes, hbytes]
      simp

/-- A payload that the adapter passes on as it is, without an event before it. -/
def Inert (payload : Bytes) : Prop :=
  adaptCompleted payload = payload ∧ ∀ c, classify payload ≠ .finished c

theorem framesOf_inert (a : ToolCalls) {block : List Bytes}
    (h : ∀ l ∈ block, isDataLine l = true → Inert (linePayload l)) : framesOf a block = [block] := by
  rcases first_data block with hn | ⟨passed, line, post, rfl, hp, hd⟩
  · exact framesOf_of_no_data a hn
  · obtain ⟨hsame, hfin⟩ := h line (by simp) hd
    have hline : adaptedLine line = line := by rw [adaptedLine, hsame, ← line_eq hd]
    rw [framesOf_eq a post hp hd]
    cases hs : (step a (classify (linePayload line))).2 with
    | none => rw [hline]
    | some d =>
      obtain ⟨c, hc, -⟩ := classify_of_step hs
      exact absurd hc (hfin c)

/-- A stream of inert data lines stays as it is. -/
theorem allFrames_inert (a : ToolCalls) {bs : List (List Bytes)}
    (h : ∀ b ∈ bs, ∀ l ∈ b, isDataLine l = true → Inert (linePayload l)) :
    (allFrames a bs).flatten = bs := by
  induction bs generalizing a with
  | nil => rfl
  | cons b bs ih =>
    rw [allFrames, List.flatten_cons, framesOf_inert a (h b (by simp)),
      ih _ fun c hc => h c (by simp [hc])]
    rfl

/-- The output, split at blank lines, is the frames of the images. -/
theorem splitBlocks_written (canFlush : Bool) (src : Source) :
    splitBlocks isBlankSSELine (written (copyResponsesSSE canFlush src).1) =
      (allFrames [] (blocks src)).flatten := by
  obtain ⟨-, hbytes, hstream⟩ := adaptBlocks_written [] (blocks_stream src)
  rw [written_copyResponsesSSE, hbytes]
  exact splitBlocks_of_stream hstream

/-- Framing transparency: block by block the client receives one image, split at
blank lines the output gives the frames of the images and nothing else, and a
stream without completed events and finished calls is copied byte for byte. -/
theorem copyResponsesSSE_framing (canFlush : Bool) (src : Source) :
    ∃ frames : List (List (List Bytes)), List.Forall₂ FrameImage (blocks src) frames ∧
      written (copyResponsesSSE canFlush src).1 = frames.flatten.flatten.flatten ∧
      splitBlocks isBlankSSELine (written (copyResponsesSSE canFlush src).1) = frames.flatten ∧
      (src.ending = .eof → (blocks src).flatten.flatten = src.bytes) ∧
      (∀ message, src.ending = .failed message → ∃ rest,
        splitLines src.bytes = (blocks src).flatten ++ rest ∧
          ∀ l ∈ rest, isBlankSSELine l = false) ∧
      ((∀ b ∈ blocks src, ∀ l ∈ b, isDataLine l = true →
          eventType (linePayload l) ≠ some responseCompleted ∧
            ∀ c, classify (linePayload l) ≠ .finished c) →
        written (copyResponsesSSE canFlush src).1 = (blocks src).flatten.flatten) := by
  have hs := blocks_stream src
  obtain ⟨hi, hbytes, -⟩ := adaptBlocks_written [] hs
  have hw := written_copyResponsesSSE canFlush src
  refine ⟨allFrames [] (blocks src), hi, hw.trans hbytes, splitBlocks_written canFlush src,
    fun he => ?_, fun message he => ?_, fun hq => ?_⟩
  · rw [blocks, he]
    exact splitBlocks_flatten _ _
  · refine ⟨(cutBlocks isBlankSSELine [] (splitLines src.bytes)).2, ?_, ?_⟩
    · simp [blocks, he, cutBlocks_flatten]
    · exact (cutBlocks_spec isBlankSSELine (by simp) _).2
  · have hinert : ∀ b ∈ blocks src, ∀ l ∈ b, isDataLine l = true → Inert (linePayload l) := by
      intro b hb l hl hd
      obtain ⟨ht, hc⟩ := hq b hb l hl hd
      refine ⟨?_, hc⟩
      rcases adaptCompleted_cases (linePayload l) with hsame | ⟨event, ht', -⟩
      · exact hsame
      · exact absurd ht' ht
    rw [hw, hbytes, allFrames_inert [] hinert]

end ResponsesFraming
