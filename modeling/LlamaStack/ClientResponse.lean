import LlamaStack.RespondingLoops

/-!
# What a client receives

The operations on a client and on the upstream, with a client that may be gone at any write: the
`statusWriter` of the middleware before the server's own writer, and what it logs.
-/
namespace ClientResponse

open Effects GoBytes GoMap HttpHeader ResponseWriter Responding RespondingLoops
open GoStream hiding Op

/-! ## The middleware -/

structure StatusWriter where
  inner : Writer := {}
  status : Nat := 0
  bytes : Nat := 0

namespace StatusWriter

def writeHeader (code : Nat) (w : StatusWriter) : StatusWriter :=
  if w.status ≠ 0 then w else { w with status := code, inner := w.inner.writeHeader code }

def flush (w : StatusWriter) : StatusWriter := { w with inner := w.inner.flush }

def write (b : Bytes) (r : Wrote) (w : StatusWriter) : StatusWriter where
  inner := w.inner.write b r
  status := if w.status = 0 then 200 else w.status
  bytes := w.bytes + r.n

def onHeader (f : Header → Header) (w : StatusWriter) : StatusWriter :=
  { w with inner := { w.inner with header := f w.inner.header } }

end StatusWriter

/-- The line that `logMiddleware` writes. -/
structure Logged where
  status : Nat
  bytes : Nat

def StatusWriter.logged (w : StatusWriter) : Logged := ⟨if w.status = 0 then 200 else w.status, w.bytes⟩

/-! ## Operations -/

/-- The client, whether the body of a response is open, and what the upstream will answer to the
calls that are still to come. -/
structure World where
  client : StatusWriter := {}
  reading : Bool := false
  answers : Nat → Answer

def Answer.isResponse : Answer → Bool
  | .failed _ => false
  | .response _ => true

/-- A status that can be sent as the last one. An informational one but 101 is not: the client
that makes the upstream calls reads past those, so that no answer has one. -/
def IsFinal (status : Nat) : Prop := status = 101 ∨ 200 ≤ status ∧ status ≤ 999

instance : DecidablePred IsFinal := fun _ => inferInstanceAs (Decidable (_ ∨ _ ∧ _))

/-- `WriteHeader` panics for a status that has not three digits. -/
def Panics : Op → Prop
  | .setStatus s => s < 100 ∨ 999 < s
  | _ => False

/-- What operations do that return; one that panics does not. A `range` takes the entries in any
order, and a write comes to anything that it may. -/
def effect : Meaning Op Op.Res World
  | w, .range h, r, w' => r.Perm h ∧ w' = w
  | w, .call _, r, w' => r = w.answers 0 ∧
    w' = { w with answers := fun n => w.answers (n + 1), reading := Answer.isResponse r }
  | w, .read, _, w' => w' = w
  | w, .close, _, w' => w' = { w with reading := false }
  | w, .appendHeader k v, _, w' => w' = { w with client := w.client.onHeader (add k v) }
  | w, .setHeader k v, _, w' => w' = { w with client := w.client.onHeader (set k v) }
  | w, .setStatus s, _, w' => IsFinal s ∧ w' = { w with client := w.client.writeHeader s }
  | w, .write b, r, w' => w.client.inner.Returns b r ∧ w' = { w with client := w.client.write b r }
  | w, .flush, _, w' => w' = { w with client := w.client.flush }

/-- The request that a call makes of the upstream. -/
structure Forwards (basePath : Text) (req : Incoming) (r : UpstreamRequest) : Prop where
  method : r.method = req.method
  path : r.path = joinPath basePath req.path
  rawQuery : r.rawQuery = req.rawQuery
  header : ∀ k, values k r.header = if isHopHeader k then [] else values k req.header

/-- What an operation may be performed in. The head is complete before the body; only one body is
open at a time, which is the one that is read; nothing is asked of the upstream for a client that
is gone; and a status that is not final is that of the answer whose body is open. -/
def Allowed (basePath : Text) (req : Incoming) (w : World) : Op → Prop
  | .range _ => True
  | .call r => w.reading = false ∧ w.client.inner.broken = false ∧ Forwards basePath req r
  | .read => w.reading = true ∧ w.client.inner.broken = false
  | .close => w.reading = true
  | .appendHeader .. => w.client.inner.sent.isSome = false
  | .setHeader .. => w.client.inner.sent.isSome = false
  | .setStatus s => w.client.inner.sent.isSome = false ∧ (IsFinal s ∨ w.reading = true)
  | .write _ => w.client.inner.sent.isSome = true
  | .flush => w.client.inner.sent.isSome = true

/-! ## The states of a response -/

/-- Nothing has gone out yet, and the header holds these values. -/
structure Fresh (H : Text → List Bytes) (w : World) : Prop where
  sent : w.client.inner.sent = none
  header : ∀ k, values k w.client.inner.header = H k
  body : w.client.inner.body = []
  broken : w.client.inner.broken = false
  status : w.client.status = 0
  bytes : w.client.bytes = 0

/-- The head has gone out, and behind it these bytes; the client may be gone. -/
structure Sends (s : Nat) (H : Text → List Bytes) (b : Bytes) (broken : Bool) (w : World) : Prop where
  sent : ∃ h, w.client.inner.sent = some ⟨s, h⟩ ∧ ∀ k, values k h = H k
  body : w.client.inner.body = b
  broken : w.client.inner.broken = broken
  status : w.client.status = s
  bytes : w.client.bytes = b.length
  nonzero : s ≠ 0

/-- The rest of a world, which only the upstream changes. -/
structure SameUpstream (w w' : World) : Prop where
  reading : w'.reading = w.reading
  answers : w'.answers = w.answers

variable {basePath : Text} {req : Incoming} {α : Type}

abbrev Meets (basePath : Text) (req : Incoming) (p : Run α) (w : World) (Q : α → World → Prop) : Prop :=
  Spec effect (Allowed basePath req) Q p w

theorem meets_mono {p : Run α} {w : World} {Q Q' : α → World → Prop} (h : Meets basePath req p w Q)
    (hQ : ∀ a w', Q a w' → Q' a w') : Meets basePath req p w Q' := spec_mono (fun _ _ hG => hG) hQ h

theorem meets_bind {β : Type} {p : Run α} {f : α → Run β} {w : World} {Q : α → World → Prop} {Q' : β → World → Prop}
    (h : Meets basePath req p w Q) (hf : ∀ a w', Q a w' → Meets basePath req (f a) w' Q') :
    Meets basePath req (p >>= f) w Q' := spec_bind (meets_mono h hf)

/-! ## Single operations -/

section Steps

variable {s : Nat} {H : Text → List Bytes} {b : Bytes} {broken : Bool} {w w' : World}

theorem Sends.isSome (h : Sends s H b broken w) : w.client.inner.sent.isSome = true := by
  obtain ⟨hd, hsent, -⟩ := h.sent
  rw [hsent, Option.isSome_some]

theorem Fresh.isSome (h : Fresh H w) : w.client.inner.sent.isSome = false := by rw [h.sent, Option.isSome_none]

theorem sends_flush (h : Sends s H b broken w) : Sends s H b broken { w with client := w.client.flush } := by
  obtain ⟨hd, hsent, hH⟩ := h.sent
  exact { h with sent := ⟨hd, by simp [StatusWriter.flush, Writer.flush, Writer.writeHeader, hsent], hH⟩ }

theorem sends_setStatus (h : Fresh H w) (hs : IsFinal s) :
    Sends s H [] false { w with client := w.client.writeHeader s } := by
  have hzero : ¬ w.client.status ≠ 0 := fun hne => hne h.status
  have hne : s ≠ 0 := by
    unfold IsFinal at hs
    omega
  simp only [StatusWriter.writeHeader, if_neg hzero]
  exact ⟨⟨w.client.inner.header, by simp [Writer.writeHeader, h.sent], h.header⟩, h.body, h.broken, rfl,
    by simp [h.bytes], hne⟩

/-- A write that succeeds sends its bytes; one that fails sends the first of them at most, and nothing
when the client is gone. -/
theorem sends_write {c : Bytes} {r : Wrote} (h : Sends s H b broken w) (hr : w.client.inner.Returns c r) :
    (r.err = none ∧ broken = false ∧ Sends s H (b ++ c) false { w with client := w.client.write c r }) ∨
      r.err.isSome = true ∧ ∃ p, p <+: c ∧ (broken = true → p = []) ∧
        Sends s H (b ++ p) true { w with client := w.client.write c r } := by
  obtain ⟨hd, hsent, hH⟩ := h.sent
  have hgone : broken = true → r.err.isSome = true ∧ r.n = 0 := fun hb => hr.sticky (h.broken.trans hb)
  have hlength : (c.take r.n).length = r.n := by
    rw [List.length_take]
    exact Nat.min_eq_left hr.le
  have hsends : ∀ x, (w.client.inner.broken || r.err.isSome) = x →
      Sends s H (b ++ c.take r.n) x { w with client := w.client.write c r } := fun x hx =>
    { sent := ⟨hd, by simp [StatusWriter.write, Writer.write, Writer.writeHeader, hsent], hH⟩
      body := by simp [StatusWriter.write, Writer.write, h.body]
      broken := hx
      status := by simp [StatusWriter.write, h.status, h.nonzero]
      bytes := by simp [StatusWriter.write, h.bytes, hlength]
      nonzero := h.nonzero }
  cases herr : r.err with
  | none =>
    left
    have hlive : broken = false := by
      cases hb : broken with
      | false => rfl
      | true => simpa [herr] using (hgone hb).1
    have hall := hsends false (by simp [h.broken, hlive, herr])
    rw [hr.all herr, List.take_length] at hall
    exact ⟨rfl, hlive, hall⟩
  | some e =>
    right
    refine ⟨rfl, c.take r.n, List.take_prefix _ _, fun hb => ?_, hsends true (by simp [herr])⟩
    rw [(hgone hb).2, List.take_zero]

end Steps

/-! ## Programs -/

/-- How much of some bytes a client has received: all, or the first of them with an error. -/
def Took (s : Nat) (H : Text → List Bytes) (b full : Bytes) (err : Option Bytes) (w : World) (r : Option Bytes)
    (w' : World) : Prop :=
  SameUpstream w w' ∧ ((r = err ∧ Sends s H (b ++ full) false w') ∨
    r.isSome = true ∧ ∃ p, p <+: full ∧ Sends s H (b ++ p) true w')

section Programs

variable {s : Nat} {H : Text → List Bytes} {b : Bytes} {broken : Bool} {w w' w'' : World}

theorem SameUpstream.refl (w : World) : SameUpstream w w := ⟨rfl, rfl⟩

theorem SameUpstream.trans (h : SameUpstream w w') (h' : SameUpstream w' w'') : SameUpstream w w'' :=
  ⟨h'.reading.trans h.reading, h'.answers.trans h.answers⟩

theorem meets_write (c : Bytes) (h : Sends s H b broken w) :
    Meets basePath req (write c) w fun r w' => SameUpstream w w' ∧
      ((r = none ∧ broken = false ∧ Sends s H (b ++ c) false w') ∨
        r.isSome = true ∧ ∃ p, p <+: c ∧ (broken = true → p = []) ∧ Sends s H (b ++ p) true w') := by
  refine ⟨h.isSome, fun r w' he => ?_⟩
  obtain ⟨hr, rfl⟩ := he
  exact ⟨⟨rfl, rfl⟩, sends_write h hr⟩

/-- A trace reaches the client, up to where a write fails. -/
theorem meets_play (ops : List GoStream.Op) (hreading : w.reading = true) (h : Sends s H b false w) :
    Meets basePath req (play ops) w (Took s H b (written ops) none w) := by
  induction ops generalizing b w with
  | nil => exact ⟨.refl w, .inl ⟨rfl, by rwa [written_nil, List.append_nil]⟩⟩
  | cons o ops ih =>
    cases o with
    | read =>
      refine ⟨⟨hreading, h.broken⟩, fun r w' he => ?_⟩
      cases he
      exact ih hreading h
    | flush =>
      refine ⟨h.isSome, fun r w' he => ?_⟩
      cases he
      have hrest := ih (w := { w with client := w.client.flush }) hreading (sends_flush h)
      exact meets_mono hrest fun r w' hw => ⟨⟨hw.1.reading, hw.1.answers⟩, hw.2⟩
    | write c =>
      refine meets_bind (meets_write c h) fun r w' hw => ?_
      obtain ⟨hsame, ⟨rfl, -, hall⟩ | ⟨hsome, p, hp, -, hpart⟩⟩ := hw
      · refine meets_mono (ih (hsame.reading.trans hreading) hall) fun r w'' hw => ?_
        obtain ⟨hsame', hw⟩ := hw
        refine ⟨hsame.trans hsame', ?_⟩
        simp only [written_write]
        rcases hw with ⟨rfl, hall⟩ | ⟨hsome, p, hp, hpart⟩
        · exact .inl ⟨rfl, by rwa [← List.append_assoc]⟩
        · exact .inr ⟨hsome, c ++ p, (List.prefix_append_right_inj c).mpr hp, by rwa [← List.append_assoc]⟩
      · obtain ⟨e, rfl⟩ := Option.isSome_iff_exists.mp hsome
        exact ⟨hsame, .inr ⟨rfl, p, hp.trans (List.prefix_append c _), hpart⟩⟩

theorem meets_playThen (t : List GoStream.Op × Option Bytes) (hreading : w.reading = true) (h : Sends s H b false w) :
    Meets basePath req (playThen t) w (Took s H b (written t.1) t.2 w) := by
  refine meets_bind (meets_play t.1 hreading h) fun r w' hw => ?_
  obtain ⟨hsame, ⟨rfl, hall⟩ | ⟨hsome, p, hp, hpart⟩⟩ := hw
  · exact ⟨hsame, .inl ⟨rfl, hall⟩⟩
  · obtain ⟨e, rfl⟩ := Option.isSome_iff_exists.mp hsome
    exact ⟨hsame, .inr ⟨rfl, p, hp, hpart⟩⟩

end Programs

end ClientResponse
