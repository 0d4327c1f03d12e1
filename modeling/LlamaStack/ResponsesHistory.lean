import LlamaStack.ResponsesFraming

/-!
# The events of the client

When no block has more than one data line, the data lines of the output are the
payloads of the machine's history over the data lines of the source.
-/
namespace ResponsesHistory

open GoBytes GoJson GoMap GoStream OpenaiApi ResponsesSse ResponsesEvents ResponsesFraming

set_option maxRecDepth 4000

/-- The data lines of the blocks that reach the adapter. -/
def received (src : Source) : List DataLine := (blocks src).flatten.filterMap dataLine

/-- A block with at most one data line. -/
def SingleData (block : List Bytes) : Prop := (block.filterMap dataLine).length ≤ 1

/-! ## Data lines of the output -/

theorem dataLine_visible {line : Bytes} (h : isDataLine line = true) :
    dataLine line = some ⟨true, linePayload line⟩ := by
  have h' : hasPrefix (trimLineEnd line) dataField = true := h
  simp [dataLine, h', linePayload]

theorem isDataLine_of_dataLine {line value : Bytes} (h : dataLine line = some ⟨true, value⟩) :
    isDataLine line = true := by
  by_contra hn
  have hn' : hasPrefix (trimLineEnd line) dataField = false := by simpa [isDataLine] using hn
  simp only [dataLine, hn', Bool.false_eq_true, if_false] at h
  split_ifs at h <;> simp at h

/-- A line ends where its payload ends when the payload holds no line end. -/
theorem dataLine_of_payload {payload e : Bytes} (hp : lf ∉ payload ∧ cr ∉ payload)
    (he : ∀ b ∈ e, isLineEnd b = true) : dataLine (dataField ++ payload ++ e) = some ⟨true, payload⟩ := by
  have ht : trimLineEnd (dataField ++ payload ++ e) = dataField ++ payload := by
    rw [trimLineEnd_append _ he]
    refine trimLineEnd_of_forall fun b hb => ?_
    rcases List.mem_append.mp hb with hb | hb
    · exact (by decide : ∀ b ∈ dataField, isLineEnd b = false) b hb
    · simp only [isLineEnd, Bool.or_eq_false_iff, beq_eq_false_iff_ne]
      exact ⟨fun h => hp.2 (h ▸ hb), fun h => hp.1 (h ▸ hb)⟩
  simp only [dataLine, ht, hasPrefix_append, if_true, trimPrefix_append]

theorem dataLine_adaptedLine {line : Bytes} (h : isDataLine line = true) :
    dataLine (adaptedLine line) = some ⟨true, adaptCompleted (linePayload line)⟩ := by
  rcases adaptCompleted_cases (linePayload line) with hs | ⟨event, -, -, hp⟩
  · rw [adaptedLine, hs, ← line_eq h, dataLine_visible h]
  · exact dataLine_of_payload hp (lineEnd_isLineEnd line)

theorem dataLine_argumentsDoneFrame (d : ResponseFunctionCallArgumentsDoneEvent) :
    (argumentsDoneFrame d).filterMap dataLine = [⟨true, print d.marshal⟩] := by
  have h₁ : dataLine (ascii "event: response.function_call_arguments.done\n") = none := by decide
  have h₂ : dataLine (dataField ++ print d.marshal ++ [lf]) = some ⟨true, print d.marshal⟩ :=
    dataLine_of_payload (print_one_line _) (by decide)
  have h₃ : dataLine [lf] = none := by decide
  rw [argumentsDoneFrame, List.filterMap_cons_none h₁, List.filterMap_cons_some h₂,
    List.filterMap_cons_none h₃]
  rfl

theorem dataLine_itemDoneFrame {line : Bytes} (h : isDataLine line = true) :
    (itemDoneHead :: closeLine line).filterMap dataLine = [⟨true, linePayload line⟩] := by
  have h₁ : dataLine itemDoneHead = none := by decide
  have h₂ : dataLine [lf] = none := by decide
  have h₃ : dataLine (line ++ [lf]) = dataLine line := by
    simp only [dataLine, trimLineEnd_append line (e := [lf]) (by decide)]
  unfold closeLine
  split <;> simp [h₁, h₂, h₃, dataLine_visible h]

/-! ## Refinement -/

/-- The payloads that the client receives for some data lines. -/
def payloads (es : List Emitted) : List Bytes := es.map Emitted.payload

/-- Step lemma: a block with at most one data line shows the client what the
machine emits for it, and leaves the machine's state. -/
theorem adaptBlock_history (a : ToolCalls) {block : List Bytes}
    (hb : LastBlock isBlankSSELine block) (hone : SingleData block) :
    ((framesOf a block).flatten.filterMap dataLine).map DataLine.value =
        payloads (history a (block.filterMap dataLine)) ∧
      (adaptBlock a block).2 = afterData a (block.filterMap dataLine) := by
  rcases first_data block with hn | ⟨passed, line, post, rfl, hp, h⟩
  · have hds : ∀ d ∈ block.filterMap dataLine, d.visible = false := by
      intro d hd
      obtain ⟨l, hl, hld⟩ := List.mem_filterMap.mp hd
      by_contra hv
      obtain ⟨v, value⟩ := d
      simp only [Bool.not_eq_false] at hv
      subst hv
      have hvis := isDataLine_of_dataLine hld
      rw [hn l hl] at hvis
      cases hvis
    have hforward : ∀ ds : List DataLine, (∀ d ∈ ds, d.visible = false) →
        payloads (history a ds) = ds.map DataLine.value ∧ afterData a ds = a := by
      intro ds hds
      induction ds with
      | nil => exact ⟨rfl, rfl⟩
      | cons d ds ih =>
        have hd := hds d (by simp)
        obtain ⟨h₁, h₂⟩ := ih fun e he => hds e (by simp [he])
        have he : emit a d = ([.forwarded d.value], a) := by simp [emit, hd]
        simp only [payloads] at h₁
        simp only [afterData] at h₂
        simp [history, payloads, afterData, he, h₁, h₂, Emitted.payload]
    obtain ⟨h₁, h₂⟩ := hforward _ hds
    rw [framesOf_of_no_data a hn, adaptBlock_of_no_data a hn, h₁, h₂]
    simp
  · have hl : OneLine line := oneLine_of_isLines hb.2 line (by simp)
    have hvis := dataLine_visible h
    have hothers : passed.filterMap dataLine = [] ∧ post.filterMap dataLine = [] := by
      have hlen := hone
      simp only [SingleData, List.filterMap_append, List.filterMap_cons_some hvis,
        List.length_append, List.length_cons] at hlen
      constructor <;> apply List.eq_nil_of_length_eq_zero <;> omega
    have hblock : (passed ++ line :: post).filterMap dataLine = [⟨true, linePayload line⟩] := by
      rw [List.filterMap_append, List.filterMap_cons_some hvis, hothers.1, hothers.2]
      rfl
    rw [framesOf_eq a post hp h, adaptBlock_eq a post hp h hl, hblock]
    refine ⟨?_, rfl⟩
    cases hs : (step a (classify (linePayload line))).2 with
    | none =>
      have hhist : history a [⟨true, linePayload line⟩] =
          [.forwarded (adaptCompleted (linePayload line))] := by simp [history, emit, hs]
      rw [hhist]
      simp [payloads, Emitted.payload, List.filterMap_cons_some (dataLine_adaptedLine h), hothers.1,
        hothers.2]
    | some d =>
      obtain ⟨c, hc, -⟩ := classify_of_step hs
      have hcls : classify (linePayload line) ≠ .other := by
        rw [hc]
        simp
      have hsame := adaptCompleted_of_classify hcls
      have h₁ := dataLine_argumentsDoneFrame d
      have h₂ := dataLine_itemDoneFrame h
      have hhist : history a [⟨true, linePayload line⟩] =
          [.synthesized d, .forwarded (adaptCompleted (linePayload line))] := by
        simp [history, emit, hs]
      rw [hhist, List.flatten_cons, List.flatten_singleton, List.filterMap_append, h₁, h₂]
      simp [payloads, Emitted.payload, hsame]

/-- Run lemma: the data lines of all frames are the history's payloads. -/
theorem allFrames_history (a : ToolCalls) {bs : List (List Bytes)}
    (h : StreamBlocks isBlankSSELine bs) (hone : ∀ b ∈ bs, SingleData b) :
    ((allFrames a bs).flatten.flatten.filterMap dataLine).map DataLine.value =
      payloads (history a (bs.flatten.filterMap dataLine)) := by
  induction bs generalizing a with
  | nil => rfl
  | cons b bs ih =>
    have hb : LastBlock isBlankSSELine b ∧ StreamBlocks isBlankSSELine bs := by
      cases bs with
      | nil => exact ⟨h, trivial⟩
      | cons c cs => exact ⟨h.1.last, h.2⟩
    obtain ⟨h₁, h₂⟩ := adaptBlock_history a hb.1 (hone b (by simp))
    have hih := ih (adaptBlock a b).2 hb.2 fun c hc => hone c (by simp [hc])
    simp only [payloads, h₂] at h₁ hih
    simp only [allFrames, List.flatten_cons, List.flatten_append, List.filterMap_append,
      List.map_append, history_append, payloads, h₁, h₂, hih]

/-- The data lines of the output are the payloads of the history. -/
theorem dataLines_written (canFlush : Bool) (src : Source)
    (hone : ∀ b ∈ blocks src, SingleData b) :
    (dataLines (written (copyResponsesSSE canFlush src).1)).map DataLine.value =
      payloads (history [] (received src)) := by
  rw [dataLines, ← splitBlocks_lines isBlankSSELine, splitBlocks_written]
  exact allFrames_history [] (blocks_stream src) hone

end ResponsesHistory
