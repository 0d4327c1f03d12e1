import LlamaStack.Responding

/-!
# Loops that stop at a failed write

Each copy loop does what its trace says, up to the first write that fails: then it returns the
error of the write.
-/
namespace RespondingLoops

open Effects GoBytes Responding
open GoStream hiding Op

theorem orElse_done_none (q : Run (Option Bytes)) : orElse (.done none) q = q := rfl

theorem orElse_done_some (e : Bytes) (q : Run (Option Bytes)) : orElse (.done (some e)) q = .done (some e) := rfl

theorem orElse_perform (o : Op) (next : o.Res → Run (Option Bytes)) (q : Run (Option Bytes)) :
    orElse (.perform o next) q = .perform o fun r => orElse (next r) q := rfl

theorem orElse_none (p : Run (Option Bytes)) : orElse p (.done none) = p := by
  induction p with
  | done err => cases err <;> rfl
  | perform o next ih =>
    rw [orElse_perform]
    congr 1
    funext r
    exact ih r

theorem orElse_assoc (p q u : Run (Option Bytes)) : orElse (orElse p q) u = orElse p (orElse q u) := by
  induction p with
  | done err => cases err <;> rfl
  | perform o next ih =>
    rw [orElse_perform, orElse_perform, orElse_perform]
    congr 1
    funext r
    exact ih r

/-! ## Traces that are cut -/

/-- The operations of a trace, up to a write that fails. -/
def play : List GoStream.Op → Run (Option Bytes)
  | [] => return none
  | .read :: ops => do
    op Responding.Op.read
    play ops
  | .write b :: ops => orElse (write b) (play ops)
  | .flush :: ops => do
    op Responding.Op.flush
    play ops

/-- A trace, and the error that its loop returns. -/
def playThen (t : List GoStream.Op × Option Bytes) : Run (Option Bytes) := orElse (play t.1) (return t.2)

theorem play_append (a b : List GoStream.Op) : play (a ++ b) = orElse (play a) (play b) := by
  induction a with
  | nil => rfl
  | cons o a ih =>
    cases o with
    | read => simp only [List.cons_append, play, op_bind, orElse_perform, ih]
    | write c => simp only [List.cons_append, play, orElse_assoc, ih]
    | flush => simp only [List.cons_append, play, op_bind, orElse_perform, ih]

theorem playThen_append (a b : List GoStream.Op) (err : Option Bytes) :
    playThen (a ++ b, err) = orElse (play a) (playThen (b, err)) := by
  rw [playThen, play_append, orElse_assoc, playThen]

theorem playThen_nil (err : Option Bytes) : playThen ([], err) = .done err := rfl

theorem playThen_read (ops : List GoStream.Op) (err : Option Bytes) :
    playThen (.read :: ops, err) = .perform Responding.Op.read fun _ => playThen (ops, err) := rfl

theorem playThen_write (b : Bytes) (ops : List GoStream.Op) (err : Option Bytes) :
    playThen (.write b :: ops, err) = orElse (write b) (playThen (ops, err)) := by
  rw [playThen, play, orElse_assoc, playThen]

theorem playThen_flush (ops : List GoStream.Op) (err : Option Bytes) :
    playThen (.flush :: ops, err) = .perform Responding.Op.flush fun _ => playThen (ops, err) := rfl

/-! ## The loops -/

theorem copyChunk_eq (chunk : Bytes) (ops : List GoStream.Op) (err : Option Bytes) :
    copyChunk chunk (playThen (ops, err)) = playThen (Proxy.copyChunk true chunk ++ ops, err) := by
  rw [copyChunk, Proxy.copyChunk]
  by_cases h : chunk = []
  · rw [if_pos h, if_pos h, List.nil_append]
  · rw [if_neg h, if_neg h, if_pos rfl, List.cons_append, playThen_write]
    rfl

/-- The error with which the copying proxy ends. -/
theorem copyFlush_eq (last : Bytes) (ending : ReadEnd) (chunks : List Bytes) :
    copyFlush last ending chunks = playThen (Proxy.copyFlush true chunks last ending) := by
  induction chunks with
  | nil =>
    have hlast := copyChunk_eq last [] (Proxy.copyFlush true [] last ending).2
    rw [List.append_nil] at hlast
    exact congrArg (Prog.perform Responding.Op.read) (funext fun _ => hlast)
  | cons chunk chunks ih =>
    have hchunk := copyChunk_eq chunk (Proxy.copyFlush true chunks last ending).1
      (Proxy.copyFlush true chunks last ending).2
    have htrace : (Proxy.copyFlush true (chunk :: chunks) last ending) =
        (.read :: (Proxy.copyChunk true chunk ++ (Proxy.copyFlush true chunks last ending).1),
          (Proxy.copyFlush true chunks last ending).2) := by
      simp [Proxy.copyFlush]
    rw [htrace, playThen_read, ← hchunk, copyFlush, ih]
    rfl

section Responses

open ResponsesSse

theorem takeLine_eq (s : Loop) (line : Bytes) (next : Loop → Run (Option Bytes)) :
    Responding.takeLine s line next =
      orElse (play (ResponsesSse.takeLine true s line).1) (next (ResponsesSse.takeLine true s line).2) := by
  unfold Responding.takeLine ResponsesSse.takeLine
  by_cases h : isBlankSSELine line = true
  · simp only [if_pos h, flushOps, play, orElse_assoc]
    rfl
  · simp only [if_neg h]
    rfl

theorem copyLines_eq (rest : Bytes) (ending : ReadEnd) (s : Loop) (lines : List Bytes) :
    copyLines rest ending s lines = orElse (play (takeLines true s lines).1)
      (copyLines rest ending (takeLines true s lines).2 []) := by
  induction lines generalizing s with
  | nil => rfl
  | cons line lines ih =>
    have hrest := ih (ResponsesSse.takeLine true s line).2
    simp only [copyLines, takeLines, op_bind, takeLine_eq, List.cons_append, play, orElse_perform, play_append,
      orElse_assoc] at hrest ⊢
    rw [hrest]

/-- What the loop does with the last read and at the end, behind its lines. -/
def lastOps (rest : Bytes) (ending : ReadEnd) (s : Loop) : List GoStream.Op × Option Bytes :=
  let last := if rest = [] then ([], s) else ResponsesSse.takeLine true s rest
  match ending with
  | .eof =>
    let tail := if last.2.block = [] then [] else [GoStream.Op.write (adaptBlock last.2.adapter last.2.block).1]
    (.read :: last.1 ++ tail, none)
  | .failed message => (.read :: last.1, some (ascii "responses SSE read: " ++ message))

theorem copyLines_nil (rest : Bytes) (ending : ReadEnd) (s : Loop) :
    copyLines rest ending s [] = playThen (lastOps rest ending s) := by
  have hend : ∀ (ops : List GoStream.Op) (s : Loop), orElse (play ops) (takeEnd .eof s) =
      playThen (ops ++ (if s.block = [] then [] else [.write (adaptBlock s.adapter s.block).1]), none) := by
    intro ops s
    rw [playThen_append, takeEnd]
    by_cases h : s.block = []
    · simp only [if_pos h]
      rfl
    · simp only [if_neg h, playThen_write]
      exact congrArg _ (orElse_none _).symm
  have hnil : ∀ s : Loop, takeEnd .eof s =
      playThen ((if s.block = [] then [] else [.write (adaptBlock s.adapter s.block).1]), none) := hend []
  unfold copyLines lastOps
  cases ending with
  | eof =>
    by_cases h : rest = []
    · simp only [if_pos h, List.cons_append, List.nil_append, playThen_read, hnil]
      rfl
    · simp only [if_neg h, List.cons_append, playThen_read, ← hend, takeLine_eq]
      rfl
  | failed message =>
    by_cases h : rest = []
    · simp only [if_pos h, playThen_read]
      rfl
    · simp only [if_neg h, playThen_read, takeLine_eq]
      rfl

theorem copyResponsesSSE_eq (src : Source) :
    Responding.copyResponsesSSE src = playThen (ResponsesSse.copyResponsesSSE true src) := by
  have htrace : ResponsesSse.copyResponsesSSE true src =
      ((takeLines true {} (readLines src.bytes).1).1 ++
        (lastOps (readLines src.bytes).2 src.ending (takeLines true {} (readLines src.bytes).1).2).1,
        (lastOps (readLines src.bytes).2 src.ending (takeLines true {} (readLines src.bytes).1).2).2) := by
    unfold ResponsesSse.copyResponsesSSE lastOps
    cases src.ending <;> simp
  rw [htrace, playThen_append, Responding.copyResponsesSSE, copyLines_eq, copyLines_nil]

end Responses

section Choices

open GoStrings NChoiceSse

variable (jsonError : Bytes → Bytes) (choiceIndex : Int64) (emitDone : Bool)

theorem writeLines_eq (lines : List Bytes) :
    Responding.writeLines jsonError choiceIndex emitDone lines =
      playThen (NChoiceSse.writeLines jsonError choiceIndex emitDone lines) := by
  induction lines with
  | nil => rfl
  | cons line lines ih =>
    unfold Responding.writeLines NChoiceSse.writeLines
    cases linePayload line with
    | none => exact ih
    | some data =>
      by_cases hdone : data = doneMarker
      · simp only [if_pos hdone]
        cases emitDone with
        | true =>
          simp only [if_true, playThen_write]
          exact (orElse_none _).symm
        | false => rfl
      · simp only [if_neg hdone]
        cases reindexSSEData jsonError data choiceIndex with
        | error e => rfl
        | ok rewritten =>
          cases rewritten with
          | none => exact ih
          | some rewritten => simp only [playThen_write, ih]

/-- What comes behind an error or an open block. -/
def resume (r : Except Bytes Bytes) (next : Bytes → Run (Option Bytes)) : Run (Option Bytes) :=
  match r with
  | .error e => return some e
  | .ok block => next block

theorem takeChoiceLine_eq (block line : Bytes) (next : Bytes → Run (Option Bytes)) :
    takeChoiceLine jsonError choiceIndex emitDone block line next =
      orElse (play (NChoiceSse.takeLine jsonError choiceIndex emitDone block line).1)
        (resume (NChoiceSse.takeLine jsonError choiceIndex emitDone block line).2 next) := by
  unfold takeChoiceLine NChoiceSse.takeLine
  by_cases h : isSSEBlockEnd line = true
  · simp only [if_pos h, Responding.writeNChoiceSSEBlock, writeLines_eq, playThen, orElse_assoc,
      NChoiceSse.writeNChoiceSSEBlock]
    cases (NChoiceSse.writeLines jsonError choiceIndex emitDone (splitLf (crlfToLf (block ++ line)))).2 <;> rfl
  · simp only [if_neg h]
    rfl

theorem takeChoiceEnd_eq (ending : ReadEnd) (block : Bytes) :
    takeChoiceEnd jsonError choiceIndex emitDone ending block =
      playThen (NChoiceSse.takeEnd jsonError choiceIndex emitDone block ending) := by
  cases ending with
  | failed message => rfl
  | eof =>
    unfold takeChoiceEnd NChoiceSse.takeEnd
    by_cases h : trimSpace block ≠ []
    · simp only [if_pos h]
      exact writeLines_eq jsonError choiceIndex emitDone _
    · simp only [if_neg h]
      rfl

theorem copyChoiceLines_eq (rest : Bytes) (ending : ReadEnd) (block : Bytes) (lines : List Bytes) :
    copyChoiceLines jsonError choiceIndex emitDone rest ending block lines =
      orElse (play (NChoiceSse.takeLines jsonError choiceIndex emitDone block lines).1)
        (resume (NChoiceSse.takeLines jsonError choiceIndex emitDone block lines).2 fun block =>
          copyChoiceLines jsonError choiceIndex emitDone rest ending block []) := by
  induction lines generalizing block with
  | nil => rfl
  | cons line lines ih =>
    simp only [NChoiceSse.takeLines]
    rw [copyChoiceLines, op_bind]
    cases h : (NChoiceSse.takeLine jsonError choiceIndex emitDone block line).2 with
    | error e =>
      simp only [takeChoiceLine_eq, h]
      rfl
    | ok open' =>
      simp only [takeChoiceLine_eq, h, resume, ih open', List.cons_append, play, op_bind, orElse_perform, play_append,
        orElse_assoc]

theorem copyNChoiceSSE_eq (src : Source) :
    Responding.copyNChoiceSSE jsonError choiceIndex emitDone src =
      playThen (NChoiceSse.copyNChoiceSSE jsonError choiceIndex emitDone src) := by
  rw [Responding.copyNChoiceSSE, copyChoiceLines_eq]
  simp only [NChoiceSse.copyNChoiceSSE]
  cases (NChoiceSse.takeLines jsonError choiceIndex emitDone [] (readLines src.bytes).1).2 with
  | error e => rfl
  | ok block =>
    by_cases hrest : (readLines src.bytes).2 = []
    · simp only [if_pos hrest, List.append_assoc, List.cons_append, playThen_append, playThen_read,
        List.nil_append, resume, copyChoiceLines, op_bind, takeChoiceEnd_eq]
    · simp only [if_neg hrest, resume, copyChoiceLines, op_bind, takeChoiceLine_eq, takeChoiceEnd_eq]
      cases (NChoiceSse.takeLine jsonError choiceIndex emitDone block (readLines src.bytes).2).2 with
      | error e =>
        simp only [playThen_append, playThen_read]
        rfl
      | ok block' => simp only [List.append_assoc, List.cons_append, playThen_append, playThen_read]

end Choices

end RespondingLoops
