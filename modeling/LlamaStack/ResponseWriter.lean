import LlamaStack.HttpHeader

/-!
# Response writers

`http.ResponseWriter` of a server: the header that a handler fills, what has gone out, and whether
a write has failed. The first status counts, a write or a flush without one sends 200, and the
header that goes out is the one at that moment. Behind a failed write nothing gets through.
-/
namespace ResponseWriter

open GoBytes HttpHeader

/-- What a `Write` returns. -/
structure Wrote where
  n : Nat
  err : Option Bytes

/-- The status line and the header that went out. -/
structure Sent where
  status : Nat
  header : Header

structure Writer where
  header : Header := []
  sent : Option Sent := none
  body : Bytes := []
  broken : Bool := false

namespace Writer

def writeHeader (status : Nat) (w : Writer) : Writer := { w with sent := some (w.sent.getD ⟨status, w.header⟩) }

/-- The bytes that a write took have gone out. -/
def write (b : Bytes) (r : Wrote) (w : Writer) : Writer :=
  { w.writeHeader 200 with body := w.body ++ b.take r.n, broken := w.broken || r.err.isSome }

def flush (w : Writer) : Writer := w.writeHeader 200

/-- The handler has returned. -/
def finish (w : Writer) : Writer := w.writeHeader 200

/-- What a write may return: it takes all bytes or comes with an error, and takes none behind an
error. -/
structure Returns (w : Writer) (b : Bytes) (r : Wrote) : Prop where
  le : r.n ≤ b.length
  all : r.err = none → r.n = b.length
  sticky : w.broken = true → r.err.isSome = true ∧ r.n = 0

end Writer

end ResponseWriter
