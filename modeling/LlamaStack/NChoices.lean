import LlamaStack.NChoiceSse

/-!
# Requests of several choices

A completion request with `n` above 1 becomes `n` requests of one choice, and the
bodies of their answers become one body: the choices in a row, numbered anew, and
the usage added up.
-/
namespace NChoices

open GoBytes GoFloat64 GoJson GoMap NChoiceSse

variable (jsonError : Bytes → Bytes)

/-! ## The requests -/

structure NChoiceRequest where
  bodies : List Bytes
  n : Int
  stream : Bool := false
  deriving DecidableEq

/-- What `buildNChoiceRequest` comes to: a request, an error with its text, or the
panic of `make`. -/
inductive Built where
  | request (r : NChoiceRequest)
  | failed (message : Bytes)
  | panicked
  deriving DecidableEq

def nKey : Text := "n".toList
def streamKey : Text := "stream".toList

/-- `jsonInt`: no value, an integer, or an error. A float out of range converts
to the least integer. -/
def jsonInt : Value → Except Unit (Option Int64)
  | .null => .ok none
  | .num x => if x.isWhole then .ok (some x.toInt64) else .error ()
  | .int i => .ok (some i)
  | _ => .error ()

/-- The limit of the address space, and the size of a slice header. -/
def maxAlloc : Nat := 2 ^ 48
def sliceSize : Nat := 24

def chatCompletionsPath : Text := "/v1/chat/completions".toList
def completionsPath : Text := "/v1/completions".toList

/-- The body of each of the requests. -/
def singleChoiceBody (payload : Entries Value) : Bytes :=
  print (encodeValue (.obj (store nKey (.int 1) payload)))

def buildNChoiceRequest (path : Text) (body : Bytes) : Built :=
  if path ≠ chatCompletionsPath ∧ path ≠ completionsPath then .request ⟨[body], 1, false⟩
  else
    match unmarshal decodeMap body with
    | none => .failed (jsonError body)
    | some payload =>
      match jsonInt ((get nKey payload).getD .null) with
      | .error _ => .failed (ascii "field 'n' must be an integer")
      | .ok none => .request ⟨[body], 1, false⟩
      | .ok (some n) =>
        if n.toInt ≤ 1 then .request ⟨[body], 1, false⟩
        else if maxAlloc < n.toInt.toNat * sliceSize then .panicked
        else
          let stream := match get streamKey payload with
            | some (.bool b) => b
            | _ => false
          .request ⟨List.replicate n.toInt.toNat (singleChoiceBody payload), n.toInt, stream⟩

/-! ## Usage -/

/-- A value of the merged usage: a sum, an object, or a value that was kept. -/
inductive Usage where
  | sum (x : Extended)
  | nested (m : List (Text × Usage))
  | other (v : Value)

def numeric : Option Usage → Extended
  | some (.sum x) => x
  | _ => .finite ⟨false, 0, by decide +kernel, by decide +kernel⟩

def nestedOf : Option Usage → Entries Usage
  | some (.nested m) => m
  | _ => []

mutual
def mergeUsage (dst : Entries Usage) : List (Text × Value) → Entries Usage
  | [] => dst
  | (key, value) :: src => mergeUsage (store key (mergeField (get key dst) value) dst) src
/-- The new value of a key, by the one it has. -/
def mergeField (old : Option Usage) : Value → Usage
  | .num x => .sum ((numeric old).add (.finite x))
  | .obj m => .nested (mergeUsage (nestedOf old) m)
  | v => old.getD (.other v)
end

mutual
/-- The usage as it is encoded; `none` where a sum is no JSON number. -/
def Usage.value : Usage → Option Value
  | .sum (.finite x) => some (.num x)
  | .sum _ => none
  | .nested m => (Usage.values m).map .obj
  | .other v => some v
def Usage.values : List (Text × Usage) → Option (List (Text × Value))
  | [] => some []
  | (k, u) :: m => (Usage.value u).bind fun v => (Usage.values m).map fun vs => (k, v) :: vs
end

/-- `strconv.FormatFloat` of a sum that is no JSON number. -/
def unsupportedText : Extended → Option Bytes
  | .finite _ => none
  | .inf neg => some (ascii (if neg then "-Inf" else "+Inf"))
  | .nan => some (ascii "NaN")

mutual
/-- The first sum, in the order of the keys, that is no JSON number. -/
def Usage.unsupported : Usage → Option Bytes
  | .sum x => unsupportedText x
  | .nested m => Usage.unsupportedIn m
  | .other _ => none
def Usage.unsupportedIn : List (Text × Usage) → Option Bytes
  | [] => none
  | (_, u) :: m => (Usage.unsupported u).or (Usage.unsupportedIn m)
end

/-! ## The answers -/

def usageKey : Text := "usage".toList

/-- What is gathered from the bodies so far. -/
structure Gathered where
  out : Option (Entries Value) := none
  choices : List Value := []
  usage : Option (Entries Usage) := none

/-- The choices of one more body, numbered on from `pos`. -/
def numberFrom (pos : Nat) : List Value → List Value
  | [] => []
  | c :: cs => setIndex (.int (Int64.ofNat pos)) c :: numberFrom (pos + 1) cs

def gather (g : Gathered) (body : Bytes) : Except Bytes Gathered :=
  match unmarshal decodeMap body with
  | none => .error (jsonError body)
  | some payload =>
    match get choicesKey payload with
    | some (.arr raw) => .ok
        { out := some (g.out.getD payload)
          choices := g.choices ++ numberFrom g.choices.length raw
          usage := match get usageKey payload with
            | some (.obj m) => some (mergeUsage (g.usage.getD []) m)
            | _ => g.usage }
    | _ => .error (ascii "upstream response is missing choices")

def gatherAll (g : Gathered) : List Bytes → Except Bytes Gathered
  | [] => .ok g
  | body :: bodies =>
    match gather jsonError g body with
    | .error e => .error e
    | .ok g => gatherAll g bodies

/-- The text of the error that `Marshal` returns for the first sum that is not finite. -/
def unsupportedValue (usage : Entries Usage) : Bytes :=
  ascii "json: unsupported value: " ++ (Usage.unsupportedIn usage).getD []

def aggregateNChoiceBodies (bodies : List Bytes) : Except Bytes Bytes :=
  if bodies = [] then .error (ascii "no response bodies to aggregate")
  else
    match gatherAll jsonError {} bodies with
    | .error e => .error e
    | .ok g =>
      let out := store choicesKey (.arr g.choices) (g.out.getD [])
      match g.usage with
      | none => .ok (print (encodeValue (.obj out)))
      | some usage =>
        match Usage.values usage with
        | none => .error (unsupportedValue usage)
        | some usage => .ok (print (encodeValue (.obj (store usageKey (.obj usage) out))))

end NChoices
