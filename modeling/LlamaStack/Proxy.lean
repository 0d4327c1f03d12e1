import LlamaStack.GoStream

/-!
# The copying proxy

`CopyFlush`: whatever a read of the upstream body brings is written and flushed
before the next read. A read may bring bytes together with the end of the body.
-/
namespace Proxy

open GoBytes GoStream

/-- What is done with the bytes of one read. -/
def copyChunk (canFlush : Bool) (chunk : Bytes) : List Op :=
  if chunk = [] then [] else .write chunk :: (if canFlush then [.flush] else [])

/-- The trace of the loop and the error that it returns, by the reads it makes. -/
def copyFlush (canFlush : Bool) (chunks : List Bytes) (last : Bytes) (ending : ReadEnd) :
    List Op × Option Bytes :=
  (chunks.flatMap (fun c => .read :: copyChunk canFlush c) ++ .read :: copyChunk canFlush last,
    match ending with
    | .eof => none
    | .failed message => some (ascii "proxy read: " ++ message))

/-- The client receives the bytes of all reads. -/
theorem written_copyFlush (canFlush : Bool) (chunks : List Bytes) (last : Bytes) (ending : ReadEnd) :
    written (copyFlush canFlush chunks last ending).1 = chunks.flatten ++ last := by
  have hchunk : ∀ c, written (copyChunk canFlush c) = c := by
    intro c
    unfold copyChunk
    split
    · rename_i h
      simp [h]
    · cases canFlush <;> simp
  have hall : written (chunks.flatMap fun c => .read :: copyChunk canFlush c) = chunks.flatten := by
    induction chunks with
    | nil => rfl
    | cons c cs ih => rw [List.flatMap_cons, written_append, ih, written_read, hchunk, List.flatten_cons]
  simp only [copyFlush, written_append, hall, written_read, hchunk]

theorem copyChunk_flushed (chunk : Bytes) :
    PromptFrom [] (copyChunk true chunk) ∧ pendingFrom [] (copyChunk true chunk) = [] := by
  unfold copyChunk
  split
  · exact ⟨trivial, rfl⟩
  · exact ⟨trivial, rfl⟩

theorem copyFlush_prompt (chunks : List Bytes) (last : Bytes) (ending : ReadEnd) :
    Prompt (copyFlush true chunks last ending).1 := by
  have hall : PromptFrom [] (chunks.flatMap fun c => .read :: copyChunk true c) ∧
      pendingFrom [] (chunks.flatMap fun c => .read :: copyChunk true c) = [] := by
    induction chunks with
    | nil => exact ⟨trivial, rfl⟩
    | cons c cs ih =>
      obtain ⟨h₁, h₂⟩ := copyChunk_flushed c
      rw [List.flatMap_cons, promptFrom_append, pendingFrom_append]
      simp only [PromptFrom, pendingFrom, h₁, h₂, true_and]
      exact ih
  simp only [prompt_iff, copyFlush, promptFrom_append, hall.1, hall.2, PromptFrom,
    (copyChunk_flushed last).1, and_self]

end Proxy
