import LlamaStack.GoUtf8
import Mathlib.Data.Nat.Digits.Lemmas

/-!
# JSON texts

The syntax that `encoding/json` accepts, as trees. A tree keeps the spelling of
its numbers and strings and the order and repetition of its members; it forgets
only the white space between tokens. Printing a tree gives the compact text of
`json.Compact`, and parsing a printed tree gives the tree back.
-/
namespace GoJson

open GoBytes GoUtf8

/-! ## Numbers -/

instance neZero_ten : NeZero 10 := ⟨by decide⟩

instance neZero_sixteen : NeZero 16 := ⟨by decide⟩

abbrev Digit := Fin 10

def Digit.byte (d : Digit) : UInt8 := UInt8.ofNat (0x30 + d.val)

def asDigit (b : UInt8) : Option Digit :=
  if h : 0x30 ≤ b.toNat ∧ b.toNat < 0x3a then some ⟨b.toNat - 0x30, by omega⟩ else none

/-- A nonempty run of digits, as after the point or in an exponent. -/
abbrev Digits := { ds : List Digit // ds ≠ [] }

/-- An exponent: `e` or `E`, a sign if there is one (`true` is minus), digits. -/
structure Exponent where
  upper : Bool
  sign : Option Bool
  digits : Digits
  deriving DecidableEq

/-- A number as it is spelled. The integer part has no leading zero. -/
structure Num where
  neg : Bool
  int : List Digit
  frac : Option Digits
  exp : Option Exponent
  int_ok : int ≠ [] ∧ (int.head? = some 0 → int = [0])
  deriving DecidableEq

theorem zero_ok : [(0 : Digit)] ≠ [] ∧ ([(0 : Digit)].head? = some 0 → [(0 : Digit)] = [0]) := by
  simp

def printDigits (ds : List Digit) : Bytes := ds.map Digit.byte

def Exponent.print (e : Exponent) : Bytes :=
  (if e.upper then 0x45 else 0x65) ::
    ((match e.sign with | none => [] | some true => [0x2d] | some false => [0x2b]) ++
      printDigits e.digits.val)

def printFrac : Option Digits → Bytes
  | none => []
  | some ds => 0x2e :: printDigits ds.val

def printExp : Option Exponent → Bytes
  | none => []
  | some e => e.print

def Num.print (n : Num) : Bytes :=
  (if n.neg then [0x2d] else []) ++ (printDigits n.int ++ (printFrac n.frac ++ printExp n.exp))

def spanDigits : Bytes → List Digit × Bytes
  | [] => ([], [])
  | b :: r =>
    match asDigit b with
    | some d => let p := spanDigits r; (d :: p.1, p.2)
    | none => ([], b :: r)

def parseDigits (src : Bytes) : Option (Digits × Bytes) :=
  let p := spanDigits src
  if h : p.1 ≠ [] then some (⟨p.1, h⟩, p.2) else none

/-- The fraction, when the text continues with a point. -/
def parseFrac : Bytes → Option (Option Digits × Bytes)
  | b :: r => if b = 0x2e then (parseDigits r).map fun p => (some p.1, p.2) else some (none, b :: r)
  | [] => some (none, [])

def parseSign : Bytes → Option Bool × Bytes
  | b :: r => if b = 0x2d then (some true, r) else if b = 0x2b then (some false, r) else (none, b :: r)
  | [] => (none, [])

/-- The exponent, when the text continues with `e` or `E`. -/
def parseExp : Bytes → Option (Option Exponent × Bytes)
  | b :: r =>
    if b = 0x65 ∨ b = 0x45 then
      (parseDigits (parseSign r).2).map fun p => (some ⟨b = 0x45, (parseSign r).1, p.1⟩, p.2)
    else some (none, b :: r)
  | [] => some (none, [])

def parseMinus : Bytes → Bool × Bytes
  | b :: r => if b = 0x2d then (true, r) else (false, b :: r)
  | [] => (false, [])

def parseNum (src : Bytes) : Option (Num × Bytes) :=
  let m := parseMinus src
  let i := spanDigits m.2
  if h : i.1 ≠ [] ∧ (i.1.head? = some 0 → i.1 = [0]) then
    match parseFrac i.2 with
    | none => none
    | some (frac, r) => (parseExp r).map fun p => (⟨m.1, i.1, frac, p.1, h⟩, p.2)
  else none

/-! ## Strings -/

/-- The two-character escapes. -/
inductive Escape where
  | quote | backslash | slash | b | f | n | r | t
  deriving DecidableEq, Repr

def Escape.byte : Escape → UInt8
  | .quote => 0x22 | .backslash => 0x5c | .slash => 0x2f | .b => 0x62
  | .f => 0x66 | .n => 0x6e | .r => 0x72 | .t => 0x74

def Escape.char : Escape → Char
  | .quote => '"' | .backslash => '\\' | .slash => '/' | .b => Char.ofNat 8
  | .f => Char.ofNat 12 | .n => '\n' | .r => '\r' | .t => '\t'

def Escape.all : List Escape := [.quote, .backslash, .slash, .b, .f, .n, .r, .t]

def asEscape (b : UInt8) : Option Escape := Escape.all.find? fun e => e.byte == b

/-- A byte that stands for itself inside a string. -/
structure RawByte where
  val : UInt8
  ok : 0x20 ≤ val.toNat ∧ val ≠ 0x22 ∧ val ≠ 0x5c
  deriving DecidableEq

def asRaw (b : UInt8) : Option RawByte :=
  if h : 0x20 ≤ b.toNat ∧ b ≠ 0x22 ∧ b ≠ 0x5c then some ⟨b, h⟩ else none

def hexVal (b : UInt8) : Option (Fin 16) :=
  if h : 0x30 ≤ b.toNat ∧ b.toNat < 0x3a then some ⟨b.toNat - 0x30, by omega⟩
  else if h : 0x61 ≤ b.toNat ∧ b.toNat < 0x67 then some ⟨b.toNat - 0x61 + 10, by omega⟩
  else if h : 0x41 ≤ b.toNat ∧ b.toNat < 0x47 then some ⟨b.toNat - 0x41 + 10, by omega⟩
  else none

/-- A hexadecimal digit in either case. -/
structure HexByte where
  val : UInt8
  ok : (hexVal val).isSome
  deriving DecidableEq

def asHex (b : UInt8) : Option HexByte :=
  if h : (hexVal b).isSome then some ⟨b, h⟩ else none

def HexByte.num (h : HexByte) : Nat := ((hexVal h.val).getD 0).val

/-- One element of a string literal. -/
inductive StrItem where
  | raw (b : RawByte)
  | esc (e : Escape)
  | unicode (a b c d : HexByte)
  deriving DecidableEq

/-- What stands between the quotes of a string literal. -/
abbrev Lexeme := List StrItem

def StrItem.print : StrItem → Bytes
  | .raw b => [b.val]
  | .esc e => [0x5c, e.byte]
  | .unicode a b c d => [0x5c, 0x75, a.val, b.val, c.val, d.val]

def printLexeme (s : Lexeme) : Bytes := s.flatMap StrItem.print

/-- A string literal after its opening quote. -/
def parseStr : Bytes → Option (Lexeme × Bytes)
  | [] => none
  | x :: r =>
    if x = 0x22 then some ([], r)
    else if x = 0x5c then
      match r with
      | [] => none
      | y :: r =>
        if y = 0x75 then
          match r with
          | a :: b :: c :: d :: r =>
            match asHex a, asHex b, asHex c, asHex d with
            | some a, some b, some c, some d =>
              (parseStr r).map fun p => (.unicode a b c d :: p.1, p.2)
            | _, _, _, _ => none
          | _ => none
        else
          match asEscape y with
          | some e => (parseStr r).map fun p => (.esc e :: p.1, p.2)
          | none => none
    else
      match asRaw x with
      | some b => (parseStr r).map fun p => (.raw b :: p.1, p.2)
      | none => none

/-! ## Values -/

inductive Json where
  | null
  | bool (b : Bool)
  | num (n : Num)
  | str (s : Lexeme)
  | arr (items : List Json)
  | obj (members : List (Lexeme × Json))

def printStr (s : Lexeme) : Bytes := 0x22 :: (printLexeme s ++ [0x22])

mutual
/-- The compact text of a tree. -/
def print : Json → Bytes
  | .null => ascii "null"
  | .bool true => ascii "true"
  | .bool false => ascii "false"
  | .num n => n.print
  | .str s => printStr s
  | .arr [] => [0x5b, 0x5d]
  | .arr (x :: xs) => 0x5b :: (print x ++ printItems xs)
  | .obj [] => [0x7b, 0x7d]
  | .obj ((k, x) :: ms) => 0x7b :: (printStr k ++ 0x3a :: (print x ++ printMembers ms))
def printItems : List Json → Bytes
  | [] => [0x5d]
  | x :: xs => 0x2c :: (print x ++ printItems xs)
def printMembers : List (Lexeme × Json) → Bytes
  | [] => [0x7d]
  | (k, x) :: ms => 0x2c :: (printStr k ++ 0x3a :: (print x ++ printMembers ms))
end

def isSpace (b : UInt8) : Bool := b == 0x20 || b == 0x09 || b == 0x0a || b == 0x0d

def skipSpace (src : Bytes) : Bytes := src.dropWhile isSpace

/-- White space, then the given byte. -/
def token (c : UInt8) (src : Bytes) : Option Bytes :=
  match skipSpace src with
  | b :: r => if b = c then some r else none
  | [] => none

/-- The rest after a given word. -/
def word (w src : Bytes) : Option Bytes := if hasPrefix src w then some (src.drop w.length) else none

mutual
/-- One value. The fuel bounds the calls, not the nesting alone. -/
def value : Nat → Bytes → Option (Json × Bytes)
  | 0, _ => none
  | fuel + 1, src =>
    match skipSpace src with
    | [] => none
    | x :: r =>
      if x = 0x22 then (parseStr r).map fun p => (.str p.1, p.2)
      else if x = 0x5b then
        match token 0x5d r with
        | some r' => some (.arr [], r')
        | none => (items fuel r).map fun p => (.arr p.1, p.2)
      else if x = 0x7b then
        match token 0x7d r with
        | some r' => some (.obj [], r')
        | none => (members fuel r).map fun p => (.obj p.1, p.2)
      else if x = 0x6e then (word (ascii "ull") r).map fun r' => (.null, r')
      else if x = 0x74 then (word (ascii "rue") r).map fun r' => (.bool true, r')
      else if x = 0x66 then (word (ascii "alse") r).map fun r' => (.bool false, r')
      else (parseNum (x :: r)).map fun p => (.num p.1, p.2)
/-- One or more values and the closing bracket. -/
def items : Nat → Bytes → Option (List Json × Bytes)
  | 0, _ => none
  | fuel + 1, src =>
    match value fuel src with
    | none => none
    | some (v, r) =>
      match token 0x2c r with
      | some r' => (items fuel r').map fun p => (v :: p.1, p.2)
      | none => (token 0x5d r).map fun r' => ([v], r')
/-- One or more members and the closing brace. -/
def members : Nat → Bytes → Option (List (Lexeme × Json) × Bytes)
  | 0, _ => none
  | fuel + 1, src =>
    match (token 0x22 src).bind parseStr with
    | none => none
    | some (k, r) =>
      match (token 0x3a r).bind (value fuel) with
      | none => none
      | some (v, r) =>
        match token 0x2c r with
        | some r' => (members fuel r').map fun p => ((k, v) :: p.1, p.2)
        | none => (token 0x7d r).map fun r' => ([(k, v)], r')
end

/-- A whole text: one value, and nothing but white space around it. -/
def parse (src : Bytes) : Option Json :=
  match value (2 * src.length) src with
  | some (v, r) => if skipSpace r = [] then some v else none
  | none => none

mutual
/-- How many arrays and objects are nested in each other. -/
def depth : Json → Nat
  | .arr xs => depthItems xs + 1
  | .obj ms => depthMembers ms + 1
  | _ => 0
def depthItems : List Json → Nat
  | [] => 0
  | x :: xs => max (depth x) (depthItems xs)
def depthMembers : List (Lexeme × Json) → Nat
  | [] => 0
  | (_, x) :: ms => max (depth x) (depthMembers ms)
end

/-- The scanner refuses deeper nesting ("exceeded max depth"). -/
def maxNestingDepth : Nat := 10000

/-- The syntax check of `json.Unmarshal`. -/
def checkValid (src : Bytes) : Option Json :=
  match parse src with
  | some j => if depth j ≤ maxNestingDepth then some j else none
  | none => none

end GoJson
