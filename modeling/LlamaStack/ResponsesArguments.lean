import LlamaStack.ResponsesToolCalls

/-!
# The content of synthesized events

While a call is open its state holds the deltas of that call and of no other.
A synthesized event therefore repeats the arguments of the finished item as soon
as the deltas do not contradict them.
-/
namespace ResponsesArguments

open GoBytes GoJson GoMap GoStream OpenaiApi ResponsesSse ResponsesEvents ResponsesHistory
  ResponsesToolCalls

/-- The argument text that a payload adds to call `k`. -/
def deltaFor (k : Text) (payload : Bytes) : Text :=
  match classify payload with
  | .argumentsDelta e => if e.itemID = k then e.delta else []
  | _ => []

/-- The concatenation of the deltas of call `k`. -/
def deltas (k : Text) (ds : List DataLine) : Text := ds.flatMap fun d => deltaFor k d.value

theorem deltas_snoc (k : Text) (ds : List DataLine) (d : DataLine) :
    deltas k (ds ++ [d]) = deltas k ds ++ deltaFor k d.value := by
  simp [deltas]

/-- The state of every open call is what its own deltas say. -/
def Accumulates (a : ToolCalls) (seen : List DataLine) : Prop :=
  ∀ k, k ≠ [] → (stateOf a k).argumentsDone = false →
    (stateOf a k).arguments = deltas k seen ∧ (stateOf a k).name = []

theorem accumulates_nil : Accumulates [] [] := fun _ _ _ => ⟨rfl, rfl⟩

theorem accumulates_quiet {a : ToolCalls} {seen : List DataLine} {d : DataLine}
    (h : Accumulates a seen) (hd : ∀ k, k ≠ [] → deltaFor k d.value = []) :
    Accumulates a (seen ++ [d]) := by
  intro k hk hopen
  rw [deltas_snoc, hd k hk, List.append_nil]
  exact h k hk hopen

/-- A call that is marked done is free of the invariant, and touches no other call. -/
theorem accumulates_close {a : ToolCalls} {seen : List DataLine} {d : DataLine} {k : Text}
    {s : FunctionCallState} (h : Accumulates a seen) (hd : ∀ k, deltaFor k d.value = [])
    (hs : s.argumentsDone = true) : Accumulates (store k s a) (seen ++ [d]) := by
  intro k' hk' hopen
  rw [stateOf_store] at hopen ⊢
  split at hopen
  · rw [hs] at hopen
    cases hopen
  · rename_i hne
    rw [if_neg hne, deltas_snoc, hd, List.append_nil]
    exact h k' hk' hopen

/-- Step lemma: every visible data line keeps the accumulators right. -/
theorem emit_accumulates {a : ToolCalls} {seen : List DataLine} {d : DataLine}
    (h : Accumulates a seen) (hv : d.visible = true) :
    Accumulates (emit a d).2 (seen ++ [d]) := by
  simp only [emit, hv, if_true]
  cases hc : classify d.value with
  | other =>
    refine accumulates_quiet h fun k _ => ?_
    rw [deltaFor, hc]
  | argumentsDelta e =>
    simp only [step]
    split
    · rename_i he
      refine accumulates_quiet h fun k hk => ?_
      rw [deltaFor, hc]
      simp only [he]
      rw [if_neg fun h0 => hk h0.symm]
    · intro k hk hopen
      rw [stateOf_store] at hopen ⊢
      rw [deltas_snoc, deltaFor, hc]
      simp only
      split at hopen
      · rename_i hke
        subst hke
        obtain ⟨h₁, h₂⟩ := h _ hk hopen
        simp only [if_true, h₁, h₂, and_self]
      · rename_i hke
        rw [if_neg hke, if_neg fun h0 => hke h0.symm, List.append_nil]
        exact h k hk hopen
  | argumentsDone e =>
    have hd : ∀ k, deltaFor k d.value = [] := fun k => by rw [deltaFor, hc]
    simp only [step]
    split
    · exact accumulates_quiet h fun k _ => hd k
    · exact accumulates_close h hd rfl
  | finished c =>
    have hd : ∀ k, deltaFor k d.value = [] := fun k => by rw [deltaFor, hc]
    simp only [step]
    split
    · exact accumulates_quiet h fun k _ => hd k
    · exact accumulates_close h hd rfl

/-- Run lemma: the accumulators are right after any stream of visible data lines. -/
theorem afterData_accumulates {a : ToolCalls} {seen ds : List DataLine} (h : Accumulates a seen)
    (hv : ∀ d ∈ ds, d.visible = true) : Accumulates (afterData a ds) (seen ++ ds) := by
  induction ds generalizing a seen with
  | nil => simpa [afterData] using h
  | cons d ds ih =>
    have hd := ih (emit_accumulates h (hv d (by simp))) fun e he => hv e (by simp [he])
    simpa [afterData] using hd

theorem firstNonEmpty_right (x : Text) : firstNonEmpty [[], x] = x := by
  cases x <;> simp [firstNonEmpty]

theorem firstNonEmpty_same (x : Text) : firstNonEmpty [x, x] = x := by
  cases x <;> simp [firstNonEmpty]

/-- The deltas of a call agree with a finished item: there are none, or they
make up its arguments. -/
def DeltasAgree (ds : List DataLine) : Prop :=
  ∀ pre d post c, ds = pre ++ d :: post → classify d.value = .finished c →
    deltas c.itemID pre = [] ∨ deltas c.itemID pre = c.item.arguments

/-- A synthesized event stands right before the event that finishes its call and
reads as that call's key, name and arguments. -/
theorem copyResponsesSSE_arguments (canFlush : Bool) (src : Source)
    (hone : ∀ b ∈ blocks src, SingleData b) (hv : ∀ d ∈ received src, d.visible = true)
    (hagree : DeltasAgree (received src)) :
    (dataLines (written (copyResponsesSSE canFlush src).1)).map DataLine.value =
        payloads (history [] (received src)) ∧
      ∀ before d after, history [] (received src) = before ++ .synthesized d :: after →
        ∃ payload rest c, after = .forwarded payload :: rest ∧ classify payload = .finished c ∧
          classify (print d.marshal) = .argumentsDone
            ⟨c.itemID, c.item.name, d.outputIndex, d.sequenceNumber, c.item.arguments⟩ := by
  refine ⟨dataLines_written canFlush src hone, fun before d after he => ?_⟩
  obtain ⟨pre, x, post, hds, -, -, hstep, rfl⟩ := history_synthesized he
  obtain ⟨c, hc, hopen, rfl⟩ := ResponsesFraming.classify_of_step hstep
  have hacc := afterData_accumulates accumulates_nil
    (fun e hmem => hv e (by rw [hds]; simp [hmem])) c.itemID c.itemID_ne hopen
  rw [List.nil_append] at hacc
  have hargs : firstNonEmpty [(stateOf (afterData [] pre) c.itemID).arguments, c.item.arguments] =
      c.item.arguments := by
    rw [hacc.1]
    rcases hagree pre x post c hds hc with h | h
    · rw [h, firstNonEmpty_right]
    · rw [h, firstNonEmpty_same]
  have hname : firstNonEmpty [(stateOf (afterData [] pre) c.itemID).name, c.item.name] =
      c.item.name := by
    rw [hacc.2, firstNonEmpty_right]
  refine ⟨_, _, c, rfl, by rw [classify_adaptCompleted, hc], ?_⟩
  rw [classify_doneEvent _ rfl]
  simp only [FunctionCallState.doneEvent, FinishedCall.close, hargs, hname]

def deltaPayload : Bytes :=
  ascii "\x7b\"type\":\"response.function_call_arguments.delta\",\"item_id\":\"fc\",\"delta\":\"1\"\x7d"

/-- A stream with one delta and the call that it belongs to. -/
def sampleDelta : Source := ⟨dataField ++ deltaPayload ++ [lf, lf] ++ sampleCall.bytes, .eof⟩

theorem sampleDelta_agrees : DeltasAgree (received sampleDelta) := by
  have hxy : received sampleDelta = [⟨true, deltaPayload⟩, ⟨true, callPayload⟩] := by decide +kernel
  have hx : deltas "fc".toList [⟨true, deltaPayload⟩] = "1".toList := by decide +kernel
  have hy : (finishedCall callPayload).map (fun c => (c.itemID, c.item.arguments)) =
      some ("fc".toList, "1".toList) := by decide +kernel
  intro pre d post c hds hc
  rw [hxy] at hds
  rcases pre with _ | ⟨p, _ | ⟨q, pre⟩⟩
  · exact .inl rfl
  · simp only [List.cons_append, List.nil_append, List.cons.injEq] at hds
    obtain ⟨rfl, rfl, rfl⟩ := hds
    simp only [finishedCall_of_classify hc, Option.map_some, Option.some.injEq, Prod.mk.injEq] at hy
    rw [hy.1, hy.2]
    exact .inr hx
  · have hlen := congrArg List.length hds
    simp at hlen

theorem copyResponsesSSE_arguments_sampleDelta :
    (dataLines (written (copyResponsesSSE true sampleDelta).1)).map DataLine.value =
        payloads (history [] (received sampleDelta)) ∧
      ∀ before d after, history [] (received sampleDelta) = before ++ .synthesized d :: after →
        ∃ payload rest c, after = .forwarded payload :: rest ∧ classify payload = .finished c ∧
          classify (print d.marshal) = .argumentsDone
            ⟨c.itemID, c.item.name, d.outputIndex, d.sequenceNumber, c.item.arguments⟩ :=
  copyResponsesSSE_arguments true sampleDelta (by decide +kernel) (by decide +kernel)
    sampleDelta_agrees

end ResponsesArguments
