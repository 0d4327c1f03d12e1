import LlamaStack.NChoiceEvents
import LlamaStack.Proxy
import LlamaStack.ResponsesSse

/-!
# Flushing while streaming

Two of the three copy loops flush what they write before they read on. The loop
for n choices leaves that to its caller, which flushes when a whole stream is
copied, so a chunk waits for the end of its stream.
-/
namespace StreamFlushing

open GoBytes GoStream GoStrings NChoiceSse NChoiceResponse NChoiceEvents

/-! ## The Responses loop -/

theorem responses_takeLine (s : ResponsesSse.Loop) (line : Bytes) :
    PromptFrom [] (ResponsesSse.takeLine true s line).1 ∧
      pendingFrom [] (ResponsesSse.takeLine true s line).1 = [] := by
  unfold ResponsesSse.takeLine
  simp only
  split <;> exact ⟨trivial, rfl⟩

theorem responses_takeLines (s : ResponsesSse.Loop) (lines : List Bytes) :
    PromptFrom [] (ResponsesSse.takeLines true s lines).1 ∧
      pendingFrom [] (ResponsesSse.takeLines true s lines).1 = [] := by
  induction lines generalizing s with
  | nil => exact ⟨trivial, rfl⟩
  | cons line lines ih =>
    obtain ⟨h₁, h₂⟩ := responses_takeLine s line
    obtain ⟨h₃, h₄⟩ := ih (ResponsesSse.takeLine true s line).2
    simp only [ResponsesSse.takeLines, List.cons_append, PromptFrom, pendingFrom, promptFrom_append,
      pendingFrom_append, h₁, h₂, h₃, h₄, and_self]

theorem copyResponsesSSE_prompt (src : Source) : Prompt (ResponsesSse.copyResponsesSSE true src).1 := by
  obtain ⟨h₁, h₂⟩ := responses_takeLines {} (readLines src.bytes).1
  have hlast : ∀ s : ResponsesSse.Loop,
      PromptFrom [] (if (readLines src.bytes).2 = [] then ([], s)
        else ResponsesSse.takeLine true s (readLines src.bytes).2).1 := by
    intro s
    split
    · trivial
    · exact (responses_takeLine s _).1
  have hend : ∀ (p : Bytes) (s : ResponsesSse.Loop), PromptFrom p
      (if s.block = [] then [] else [.write (ResponsesSse.adaptBlock s.adapter s.block).1]) := by
    intro p s
    split <;> trivial
  rw [prompt_iff, ResponsesSse.copyResponsesSSE]
  cases src.ending with
  | failed message =>
    simp only [promptFrom_append, h₁, h₂, PromptFrom, hlast, and_self]
  | eof =>
    simp only [promptFrom_append, h₁, h₂, PromptFrom, hlast, hend, and_self]

/-! ## The loop for n choices -/

variable (jsonError : Bytes → Bytes)

theorem writeLines_onlyWrites (index : Int64) (emitDone : Bool) (lines : List Bytes) :
    OnlyWrites (writeLines jsonError index emitDone lines).1 := by
  induction lines with
  | nil => simp [writeLines, OnlyWrites]
  | cons line lines ih =>
    unfold writeLines
    split
    · exact ih
    · split
      · split <;> simp [OnlyWrites]
      · split
        · simp [OnlyWrites]
        · exact ih
        · simp only [OnlyWrites, List.mem_cons]
          rintro op (rfl | rfl | rfl | hop)
          · exact ⟨_, rfl⟩
          · exact ⟨_, rfl⟩
          · exact ⟨_, rfl⟩
          · exact ih op hop

/-- A block that yields nothing for the client: no payload up to its end marker
is a chunk, and an end marker is not passed on. -/
def Silent (emitDone : Bool) (block : List Bytes) : Prop :=
  ∀ p ∈ visited (blockPayloads block), chunkOf p = none ∧ (p = doneMarker → emitDone = false)

/-- Every block is silent, up to the first that ends the copy with an error. -/
def Quiet (emitDone : Bool) : List (List Bytes) → Prop
  | [] => True
  | b :: bs => invalidError jsonError (visited (blockPayloads b)) = none →
      Silent emitDone b ∧ Quiet emitDone bs

theorem bytesOf_eq_nil (es : List Emitted) : bytesOf es = [] ↔ es = [] := by
  constructor
  · intro h
    cases es with
    | nil => rfl
    | cons e es =>
      have hmem : lf ∈ bytesOf (e :: es) := by
        simp [bytesOf, Emitted.frame]
      rw [h] at hmem
      cases hmem
  · rintro rfl
    rfl

theorem emitOf_eq_nil (index : Int64) (emitDone : Bool) (p : Bytes) :
    emitOf index emitDone p = [] ↔ chunkOf p = none ∧ (p = doneMarker → emitDone = false) := by
  have hmarker : chunkOf doneMarker = none := rfl
  unfold emitOf
  by_cases hp : p = doneMarker
  · subst hp
    rw [if_pos rfl, hmarker]
    cases emitDone <;> simp
  · simp only [hp, if_false, false_imp_iff, and_true]
    cases hc : chunkOf p with
    | none => exact iff_of_true rfl rfl
    | some c => exact iff_of_false (List.cons_ne_nil _ _) (by simp)

theorem emits_eq_nil (index : Int64) (emitDone : Bool) {block : List Bytes}
    (h : invalidError jsonError (visited (blockPayloads block)) = none) :
    emits index emitDone (visited (blockPayloads block)) = [] ↔ Silent emitDone block := by
  rw [invalidError, Option.map_eq_none_iff, List.find?_eq_none] at h
  have hall : (visited (blockPayloads block)).takeWhile (fun p => ! isInvalid p) =
      visited (blockPayloads block) := by
    rw [List.takeWhile_eq_self_iff]
    exact fun p hp => by simpa using h p hp
  rw [emits, hall, List.flatMap_eq_nil_iff]
  exact forall₂_congr fun p _ => emitOf_eq_nil index emitDone p

/-- The read after some lines, if there is one. -/
def nextRead : Except Bytes Bytes → List Op
  | .ok _ => [.read]
  | .error _ => []

/-- Every read behind the lines is prompt exactly when their blocks are quiet. -/
theorem takeLines_prompt (index : Int64) (emitDone : Bool) (p : Bytes) (block lines : List Bytes)
    (h : IsLines (block ++ lines)) :
    let t := takeLines jsonError index emitDone block.flatten lines
    PromptFrom p (t.1 ++ nextRead t.2) ↔
      p = [] ∧ Quiet jsonError emitDone (cutBlocks isSSEBlockEnd block lines).1 := by
  induction lines generalizing block p with
  | nil => simp [takeLines, nextRead, PromptFrom, cutBlocks, Quiet]
  | cons line lines ih =>
    have hopen : block.flatten ++ line = (block ++ [line]).flatten := by simp
    have hl : IsLines ((block ++ [line]) ++ lines) := by simpa using h
    by_cases hb : isSSEBlockEnd line = true
    · obtain ⟨hw, he⟩ := writeNChoiceSSEBlock_spec jsonError index emitDone (isLines_left hl)
      have honly := writeLines_onlyWrites jsonError index emitDone
        (splitLf (crlfToLf (block ++ [line]).flatten))
      have hrest := ih (written (writeNChoiceSSEBlock jsonError index emitDone
        (block ++ [line]).flatten).1) [] (isLines_suffix hl)
      have hpend : ∀ q, PromptFrom q (writeNChoiceSSEBlock jsonError index emitDone
          (block ++ [line]).flatten).1 ∧
          pendingFrom q (writeNChoiceSSEBlock jsonError index emitDone (block ++ [line]).flatten).1 =
            q ++ written (writeNChoiceSSEBlock jsonError index emitDone (block ++ [line]).flatten).1 :=
        fun q => promptFrom_writes q honly
      simp only [takeLines, takeLine, cutBlocks, hb, if_true, hopen, List.flatten_nil, Quiet]
        at he hrest ⊢
      cases hinv : invalidError jsonError (visited (blockPayloads (block ++ [line]))) with
      | some e =>
        rw [hinv] at he
        simp only [he, nextRead, List.append_nil, PromptFrom, reduceCtorEq, false_imp_iff, and_true,
          and_iff_left_iff_imp]
        rintro rfl
        exact (hpend []).1
      | none =>
        rw [hinv] at he
        simp only [he, List.cons_append, List.append_assoc, PromptFrom, promptFrom_append,
          true_imp_iff]
        apply and_congr_right
        rintro rfl
        rw [(hpend []).2, List.nil_append, ← promptFrom_append, hrest, hw, bytesOf_eq_nil,
          emits_eq_nil jsonError index emitDone hinv]
        simp only [(hpend []).1, true_and]
    · have hrest := ih p (block ++ [line]) hl
      simp only [takeLines, takeLine, cutBlocks, hb, if_false, Bool.false_eq_true, hopen,
        List.cons_append, List.nil_append, PromptFrom] at hrest ⊢
      rw [hrest]
      exact ⟨And.right, fun hq => ⟨hq.1, hq⟩⟩

/-- The blocks behind which the loop reads on. -/
def closedBlocks (src : Source) : List (List Bytes) :=
  (cutBlocks isSSEBlockEnd [] (readLines src.bytes).1).1

theorem takeLine_onlyWrites (index : Int64) (emitDone : Bool) (block line : Bytes) :
    OnlyWrites (takeLine jsonError index emitDone block line).1 := by
  unfold takeLine
  simp only
  split
  · exact writeLines_onlyWrites jsonError index emitDone _
  · simp [OnlyWrites]

theorem takeEnd_onlyWrites (index : Int64) (emitDone : Bool) (block : Bytes) (ending : ReadEnd) :
    OnlyWrites (takeEnd jsonError index emitDone block ending).1 := by
  unfold takeEnd
  split
  · split
    · exact writeLines_onlyWrites jsonError index emitDone _
    · simp [OnlyWrites]
  · simp [OnlyWrites]

theorem copyNChoiceSSE_prompt (index : Int64) (emitDone : Bool) (src : Source) :
    PromptFrom [] (copyNChoiceSSE jsonError index emitDone src).1 ↔
      Quiet jsonError emitDone (closedBlocks src) := by
  have hlines : IsLines (readLines src.bytes).1 := by
    have h := splitLines_isLines src.bytes
    rw [splitLines] at h
    exact isLines_left h
  have ht := takeLines_prompt jsonError index emitDone [] [] (readLines src.bytes).1 hlines
  simp only [List.flatten_nil, true_and] at ht
  rw [closedBlocks, ← ht, copyNChoiceSSE]
  simp only
  cases (takeLines jsonError index emitDone [] (readLines src.bytes).1).2 with
  | error e => simp only [nextRead, List.append_nil]
  | ok block =>
    simp only [nextRead]
    have hlast : OnlyWrites (if (readLines src.bytes).2 = [] then ([], .ok block)
        else takeLine jsonError index emitDone block (readLines src.bytes).2).1 := by
      split
      · simp [OnlyWrites]
      · exact takeLine_onlyWrites jsonError index emitDone _ _
    cases hr : (if (readLines src.bytes).2 = [] then ([], .ok block)
        else takeLine jsonError index emitDone block (readLines src.bytes).2).2 with
    | error e =>
      simp only [promptFrom_append, PromptFrom, (promptFrom_writes _ hlast).1, and_true]
    | ok rest =>
      simp only [List.append_assoc, List.cons_append, promptFrom_append, PromptFrom,
        (promptFrom_writes _ hlast).1,
        (promptFrom_writes _ (takeEnd_onlyWrites jsonError index emitDone rest src.ending)).1,
        and_true]

/-! ## All calls -/

/-- Every stream that is copied is quiet; the last call passes its end marker on. -/
def QuietCalls (outcomes : List Outcome) : Prop :=
  ∀ (i : Nat) status body, (made jsonError outcomes)[i]? = some (.response status body) →
    isSuccess status = true → Quiet jsonError (decide (i + 1 = outcomes.length)) (closedBlocks body)

def quietCall (emitDone : Bool) : Outcome → Prop
  | .failed _ => True
  | .response status body => isSuccess status = true → Quiet jsonError emitDone (closedBlocks body)

theorem quietCalls_iff (outcomes : List Outcome) :
    QuietCalls jsonError outcomes ↔
      ∀ i o, (made jsonError outcomes)[i]? = some o →
        quietCall jsonError (decide (i + 1 = outcomes.length)) o := by
  constructor
  · intro h i o ho
    cases o with
    | failed message => trivial
    | response status body => exact h i status body ho
  · intro h i status body ho
    exact h i _ ho

/-- The calls are quiet when the first is and, unless it ended them, the others are. -/
theorem quietCalls_cons (o : Outcome) (os : List Outcome) :
    QuietCalls jsonError (o :: os) ↔
      quietCall jsonError os.isEmpty o ∧
        (callError jsonError o = none → QuietCalls jsonError os) := by
  have hempty : decide (0 + 1 = (o :: os).length) = os.isEmpty := by cases os <;> simp
  have hsucc : ∀ i, decide (i + 1 + 1 = (o :: os).length) = decide (i + 1 = os.length) := by simp
  rw [quietCalls_iff]
  cases he : callError jsonError o with
  | some e =>
    simp only [made, he, reduceCtorEq, false_imp_iff, and_true]
    constructor
    · intro h
      exact hempty ▸ h 0 o rfl
    · intro h i o' ho
      cases i with
      | zero =>
        cases ho
        exact hempty ▸ h
      | succ i => cases ho
  | none =>
    simp only [made, he, true_imp_iff, quietCalls_iff]
    constructor
    · intro h
      exact ⟨hempty ▸ h 0 o rfl, fun i o' ho => hsucc i ▸ h (i + 1) o' ho⟩
    · rintro ⟨h₁, h₂⟩ i o' ho
      cases i with
      | zero =>
        cases ho
        exact hempty ▸ h₁
      | succ i => exact hsucc i ▸ h₂ i o' ho

theorem writeSSEError_prompt (p message : Bytes) : PromptFrom p (writeSSEError message ++ [.flush]) :=
  trivial

/-- A reply to a refused call is one write, or a copy that flushes. -/
theorem writeUpstreamResponse_prompt (status : Nat) (body : Source) :
    PromptFrom [] (writeUpstreamResponse true status body).ops := by
  unfold writeUpstreamResponse
  split
  · split
    · trivial
    · split <;> trivial
  · exact (prompt_iff _).mp (Proxy.copyFlush_prompt [] body.bytes body.ending)

theorem writeStreamFrom_prompt (i : Nat) (started : Bool) (os : List Outcome) :
    PromptFrom [] (writeStreamFrom jsonError true i started os).ops ↔ QuietCalls jsonError os := by
  induction os generalizing i started with
  | nil => exact iff_of_true trivial fun i status body h => by cases h
  | cons o os ih =>
    rw [quietCalls_cons]
    cases o with
    | failed message =>
      simp only [writeStreamFrom, callError, quietCall, reduceCtorEq, false_imp_iff, and_true,
        iff_true]
      cases started with
      | false =>
        simp only [Bool.false_eq_true, not_false_iff, if_true, writeProxyError]
        split <;> trivial
      | true => exact writeSSEError_prompt [] message
    | response status body =>
      by_cases hs : isSuccess status = true
      · have hcopy := copyNChoiceSSE_prompt jsonError (Int64.ofNat i) os.isEmpty body
        obtain ⟨-, herr⟩ := copyNChoiceSSE_spec jsonError (Int64.ofNat i) os.isEmpty body
        simp only [writeStreamFrom, hs, not_true, if_false, callError, if_true, quietCall,
          true_imp_iff, herr]
        cases hstream : streamError jsonError body with
        | some e =>
          simp only [List.append_assoc, promptFrom_append, hcopy, reduceCtorEq, false_imp_iff,
            and_true, and_iff_left_iff_imp]
          exact fun _ => ⟨trivial, trivial, trivial⟩
        | none =>
          have hflush : pendingFrom (pendingFrom [] (copyNChoiceSSE jsonError (Int64.ofNat i)
              os.isEmpty body).1) (flushOps true) = [] := rfl
          have hnone : PromptFrom (pendingFrom [] (copyNChoiceSSE jsonError (Int64.ofNat i)
              os.isEmpty body).1) (flushOps true) := trivial
          simp only [List.append_assoc, promptFrom_append, hcopy, hflush, hnone, ih, true_and,
            true_imp_iff]
      · simp only [writeStreamFrom, hs, not_false_iff, if_true, callError, quietCall,
          false_imp_iff, true_and, if_false, reduceCtorEq, Bool.false_eq_true, iff_true]
        cases started with
        | false =>
          simp only [Bool.false_eq_true, not_false_iff, if_true]
          exact writeUpstreamResponse_prompt status body
        | true => exact writeSSEError_prompt [] body.bytes

/-- Both proxy loops have flushed everything whenever they read on. The loop for
n choices has if and only if no block behind which it reads on brought the client
anything. -/
theorem loops_prompt :
    (∀ chunks last ending, Prompt (Proxy.copyFlush true chunks last ending).1) ∧
      (∀ src, Prompt (ResponsesSse.copyResponsesSSE true src).1) ∧
      ∀ outcomes, Prompt (writeNChoiceStreamResponse jsonError true outcomes).ops ↔
        QuietCalls jsonError outcomes := by
  refine ⟨Proxy.copyFlush_prompt, copyResponsesSSE_prompt, fun outcomes => ?_⟩
  rw [prompt_iff]
  exact writeStreamFrom_prompt jsonError 0 false outcomes

def sampleChunk : Source where
  bytes := ascii "data: \x7b\"choices\":[\x7b\x7d]\x7d\n\n"
  ending := .eof

/-- One call with one chunk: the chunk is not flushed when the loop reads on. -/
theorem loops_not_prompt :
    ∃ pre post, (writeNChoiceStreamResponse id true [.response 200 sampleChunk]).ops =
        pre ++ .read :: post ∧ pendingFrom [] pre = ascii "data: \x7b\"choices\":[\x7b\"index\":0\x7d]\x7d\n\n" := by
  have h : (writeNChoiceStreamResponse id true [.response 200 sampleChunk]).ops =
      (writeNChoiceStreamResponse id true [.response 200 sampleChunk]).ops.take 5 ++
        .read :: (writeNChoiceStreamResponse id true [.response 200 sampleChunk]).ops.drop 6 := by
    decide +kernel
  exact ⟨_, _, h, by decide +kernel⟩

end StreamFlushing
