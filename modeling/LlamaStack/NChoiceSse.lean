import LlamaStack.GoJsonDecode
import LlamaStack.GoStrings
import LlamaStack.SseGrammar

/-!
# Streams of one choice among several

`copyNChoiceSSE`: one upstream stream is copied to the client chunk by chunk,
with the index of its choices replaced. Chunks without choices are left out, and
the end marker is passed on for the last stream only. The text of a JSON error
is a parameter.
-/
namespace NChoiceSse

open GoBytes GoJson GoMap GoStream GoStrings

variable (jsonError : Bytes → Bytes)

def choicesKey : Text := "choices".toList
def indexKey : Text := "index".toList

/-- A choice with another index, if it is an object. -/
def setIndex (index : Value) : Value → Value
  | .obj m => .obj (store indexKey index m)
  | v => v

/-- The nonempty `choices` of a chunk. -/
def rawChoices (payload : Entries Value) : Option (List Value) :=
  match get choicesKey payload with
  | some (.arr (c :: cs)) => some (c :: cs)
  | _ => none

def withChoices (index : Value) (choices : List Value) (payload : Entries Value) : Entries Value :=
  store choicesKey (.arr (choices.map (setIndex index))) payload

/-- The new chunk, `none` for one to leave out, or the error of `Unmarshal`. -/
def reindexSSEData (data : Bytes) (choiceIndex : Int64) : Except Bytes (Option Bytes) :=
  match unmarshal decodeMap data with
  | none => .error (jsonError data)
  | some payload =>
    match rawChoices payload with
    | none => .ok none
    | some choices =>
      .ok (some (print (encodeValue (.obj (withChoices (.int choiceIndex) choices payload)))))

def dataPrefix : Bytes := ascii "data:"
def doneMarker : Bytes := ascii "[DONE]"
def doneFrame : Bytes := ascii "data: [DONE]\n\n"

/-- The payload of a line: behind the prefix, trimmed, and not empty. -/
def linePayload (line : Bytes) : Option Bytes :=
  if ¬ hasPrefix line dataPrefix then none
  else
    let data := trimSpace (trimPrefix line dataPrefix)
    if data = [] then none else some data

/-- The lines of a block, one after the other, until an error or the end marker. -/
def writeLines (choiceIndex : Int64) (emitDone : Bool) : List Bytes → List Op × Option Bytes
  | [] => ([], none)
  | line :: lines =>
    match linePayload line with
    | none => writeLines choiceIndex emitDone lines
    | some data =>
      if data = doneMarker then (if emitDone then [.write doneFrame] else [], none)
      else
        match reindexSSEData jsonError data choiceIndex with
        | .error e => ([], some e)
        | .ok none => writeLines choiceIndex emitDone lines
        | .ok (some rewritten) =>
          let r := writeLines choiceIndex emitDone lines
          (.write (ascii "data: ") :: .write rewritten :: .write (ascii "\n\n") :: r.1, r.2)

def writeNChoiceSSEBlock (choiceIndex : Int64) (emitDone : Bool) (block : Bytes) :
    List Op × Option Bytes :=
  writeLines jsonError choiceIndex emitDone (splitLf (crlfToLf block))

def isSSEBlockEnd (line : Bytes) : Bool := (trimLineEnd line).isEmpty

/-- One nonempty line: the open block behind it, or the error that ends the copy. -/
def takeLine (choiceIndex : Int64) (emitDone : Bool) (block line : Bytes) :
    List Op × Except Bytes Bytes :=
  let block := block ++ line
  if isSSEBlockEnd line then
    let w := writeNChoiceSSEBlock jsonError choiceIndex emitDone block
    (w.1, match w.2 with | some e => .error e | none => .ok [])
  else ([], .ok block)

def takeLines (choiceIndex : Int64) (emitDone : Bool) (block : Bytes) :
    List Bytes → List Op × Except Bytes Bytes
  | [] => ([], .ok block)
  | line :: lines =>
    let t := takeLine jsonError choiceIndex emitDone block line
    match t.2 with
    | .error e => (.read :: t.1, .error e)
    | .ok block =>
      let r := takeLines choiceIndex emitDone block lines
      (.read :: t.1 ++ r.1, r.2)

/-- The end of the source, with the block that is open there. -/
def takeEnd (choiceIndex : Int64) (emitDone : Bool) (block : Bytes) : ReadEnd → List Op × Option Bytes
  | .eof =>
    if trimSpace block ≠ [] then writeNChoiceSSEBlock jsonError choiceIndex emitDone block
    else ([], none)
  | .failed message => ([], some (ascii "read SSE: " ++ message))

/-- The trace of the loop and the error that it returns. The last read brings
the unterminated rest together with the end of the source. -/
def copyNChoiceSSE (choiceIndex : Int64) (emitDone : Bool) (src : Source) : List Op × Option Bytes :=
  let lines := readLines src.bytes
  let r := takeLines jsonError choiceIndex emitDone [] lines.1
  match r.2 with
  | .error e => (r.1, some e)
  | .ok block =>
    let last := if lines.2 = [] then ([], .ok block) else
      takeLine jsonError choiceIndex emitDone block lines.2
    match last.2 with
    | .error e => (r.1 ++ .read :: last.1, some e)
    | .ok block =>
      let e := takeEnd jsonError choiceIndex emitDone block src.ending
      (r.1 ++ .read :: last.1 ++ e.1, e.2)

end NChoiceSse
