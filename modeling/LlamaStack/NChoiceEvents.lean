import LlamaStack.NChoiceResponse

/-!
# The events of an n-choice stream

What the copy makes of a stream, without bytes and without the loop: the payloads
of its data lines, what the client receives for each, and the error that ends it.
-/
namespace NChoiceEvents

open GoBytes GoJson GoMap GoStream GoStrings NChoiceSse NChoiceResponse

set_option maxRecDepth 4000

variable (jsonError : Bytes → Bytes)

/-! ## Events of the client -/

inductive Emitted where
  | chunk (index : Int64) (choices : List Value) (payload : Entries Value)
  | done
  | failed (message : Bytes)

def Emitted.name : Emitted → Bytes
  | .failed _ => ascii "error"
  | _ => []

def Emitted.data : Emitted → Bytes
  | .chunk index choices payload => print (encodeValue (.obj (withChoices (.int index) choices payload)))
  | .done => doneMarker
  | .failed message => print (ssePayload message)

def Emitted.event (e : Emitted) : SseGrammar.Event := { name := e.name, data := e.data }

def nameLine (name : Bytes) : List Bytes :=
  if name = [] then [] else [ascii "event: " ++ name ++ [lf]]

/-- The lines of an event as they are written. -/
def Emitted.frame (e : Emitted) : List Bytes :=
  nameLine e.name ++ [ascii "data: " ++ e.data ++ [lf], [lf]]

def bytesOf (es : List Emitted) : Bytes := (es.map Emitted.frame).flatten.flatten

theorem bytesOf_append (es fs : List Emitted) : bytesOf (es ++ fs) = bytesOf es ++ bytesOf fs := by
  simp [bytesOf]

theorem Emitted.data_one_line (e : Emitted) : lf ∉ e.data ∧ cr ∉ e.data := by
  cases e with
  | chunk => exact print_one_line _
  | done => decide
  | failed => exact print_one_line _

theorem nameLine_cases (e : Emitted) :
    nameLine e.name = [] ∧ e.name = [] ∨
      nameLine e.name = [ascii "event: error\n"] ∧ e.name = ascii "error" := by
  cases e with
  | chunk => exact .inl ⟨rfl, rfl⟩
  | done => exact .inl ⟨rfl, rfl⟩
  | failed => exact .inr ⟨rfl, rfl⟩

/-- The data line of an event. -/
theorem dataLine_text (e : Emitted) :
    lineText (ascii "data: " ++ e.data ++ [lf]) = ascii "data: " ++ e.data := by
  have hd := e.data_one_line
  have ha : lf ∉ ascii "data: " ∧ cr ∉ ascii "data: " := by decide
  exact lineText_eq (.inr (.inl rfl)) (by simp only [List.mem_append, ha, hd, or_self, not_false_iff])
    (by simp only [List.mem_append, ha, hd, or_self, not_false_iff])

theorem Emitted.frame_line (e : Emitted) :
    ∀ l ∈ e.frame, IsLine l ∧ SseGrammar.WellFormed l := by
  have ha : lf ∉ ascii "data: " ∧ cr ∉ ascii "data: " := by decide
  have hd := e.data_one_line
  have hdata : IsLine (ascii "data: " ++ e.data ++ [lf]) ∧
      SseGrammar.WellFormed (ascii "data: " ++ e.data ++ [lf]) := by
    refine ⟨⟨_, rfl, by simp only [List.mem_append, ha, hd, or_self, not_false_iff]⟩, ?_⟩
    rw [SseGrammar.WellFormed, dataLine_text]
    simp only [List.mem_append, ha, hd, or_self, not_false_iff]
  have hlf : IsLine [lf] ∧ SseGrammar.WellFormed [lf] := ⟨⟨[], rfl, by simp⟩, by decide⟩
  have hname : IsLine (ascii "event: error\n") ∧ SseGrammar.WellFormed (ascii "event: error\n") :=
    ⟨⟨ascii "event: error", by decide, by decide⟩, by decide⟩
  intro l hl
  rcases nameLine_cases e with ⟨hn, -⟩ | ⟨hn, -⟩ <;>
    simp only [Emitted.frame, hn, List.nil_append, List.cons_append, List.mem_cons,
      List.not_mem_nil, or_false] at hl
  · rcases hl with rfl | rfl
    · exact hdata
    · exact hlf
  · rcases hl with rfl | rfl | rfl
    · exact hname
    · exact hdata
    · exact hlf

theorem Emitted.frame_closed (e : Emitted) : Closed SseGrammar.isBlank e.frame := by
  refine ⟨⟨nameLine e.name ++ [ascii "data: " ++ e.data ++ [lf]], [lf], by simp [Emitted.frame],
    by decide, fun x hx => ?_⟩, fun l hl => (e.frame_line l hl).1⟩
  have hdata : SseGrammar.isBlank (ascii "data: " ++ e.data ++ [lf]) = false := by
    rw [SseGrammar.isBlank, dataLine_text]
    rfl
  have hname : SseGrammar.isBlank (ascii "event: error\n") = false := by decide
  rcases List.mem_append.mp hx with hx | hx
  · rcases nameLine_cases e with ⟨hn, -⟩ | ⟨hn, -⟩
    · simp [hn] at hx
    · rw [hn, List.mem_singleton] at hx
      rw [hx]
      exact hname
  · rw [List.mem_singleton.mp hx]
    exact hdata

theorem Emitted.values_frame (e : Emitted) (name : Bytes) (hname : name ≠ []) :
    SseGrammar.values name e.frame =
      (if ascii "event" = name ∧ e.name ≠ [] then [e.name] else []) ++
        (if SseGrammar.dataName = name then [e.data] else []) := by
  have hdata := SseGrammar.valueOf_data_line name (e := [lf]) (.inr (.inl rfl)) e.data_one_line
  have hlf : SseGrammar.valueOf name [lf] = none := if_neg fun h => hname h.symm
  have hev : SseGrammar.valueOf name (ascii "event: error\n") =
      if ascii "event" = name then some (ascii "error") else none := rfl
  have htail : SseGrammar.values name [ascii "data: " ++ e.data ++ [lf], [lf]] =
      if SseGrammar.dataName = name then [e.data] else [] := by
    unfold SseGrammar.values
    by_cases hd : SseGrammar.dataName = name
    · rw [if_pos hd] at hdata ⊢
      rw [List.filterMap_cons_some hdata, List.filterMap_cons_none hlf, List.filterMap_nil]
    · rw [if_neg hd] at hdata ⊢
      rw [List.filterMap_cons_none hdata, List.filterMap_cons_none hlf, List.filterMap_nil]
  have hhead : SseGrammar.values name (nameLine e.name) =
      if ascii "event" = name ∧ e.name ≠ [] then [e.name] else [] := by
    rcases nameLine_cases e with ⟨hn, h0⟩ | ⟨hn, h0⟩
    · rw [hn, h0]
      simp [SseGrammar.values]
    · have hne : ascii "error" ≠ [] := by decide
      rw [hn, h0]
      by_cases he : ascii "event" = name <;> simp [SseGrammar.values, hev, he, hne]
  rw [Emitted.frame, SseGrammar.values, List.filterMap_append]
  rw [SseGrammar.values] at htail hhead
  rw [htail, hhead]

theorem Emitted.eventOf_frame (e : Emitted) : SseGrammar.eventOf e.frame = some e.event := by
  have hd := e.values_frame SseGrammar.dataName (by decide)
  have hn := e.values_frame (ascii "event") (by decide)
  have hi := e.values_frame (ascii "id") (by decide)
  have h₁ : ascii "event" ≠ SseGrammar.dataName := by decide
  have h₂ : SseGrammar.dataName ≠ ascii "event" := by decide
  have h₃ : ascii "event" ≠ ascii "id" := by decide
  have h₄ : SseGrammar.dataName ≠ ascii "id" := by decide
  simp only [h₁, h₂, h₃, h₄, false_and, true_and, if_false, if_true, List.nil_append,
    List.append_nil] at hd hn hi
  rw [SseGrammar.eventOf, hd, hn, hi]
  by_cases h0 : e.name = [] <;> simp [h0, Emitted.event, List.intercalate]

/-- The client reads the events that were written. -/
theorem events_bytesOf (es : List Emitted) :
    SseGrammar.events (bytesOf es) = some (es.map Emitted.event) := by
  have hs : StreamBlocks SseGrammar.isBlank (es.map Emitted.frame) := by
    refine streamBlocks_of_closed fun b hb => ?_
    obtain ⟨e, -, rfl⟩ := List.mem_map.mp hb
    exact e.frame_closed
  have hw : ∀ b ∈ es.map Emitted.frame, ∀ l ∈ b, SseGrammar.WellFormed l := by
    intro b hb l hl
    obtain ⟨e, -, rfl⟩ := List.mem_map.mp hb
    exact (e.frame_line l hl).2
  have he : ∀ es : List Emitted,
      (es.map Emitted.frame).filterMap SseGrammar.eventOf = es.map Emitted.event := by
    intro es
    induction es with
    | nil => rfl
    | cons e es ih => simp [e.eventOf_frame, ih]
  rw [bytesOf, SseGrammar.events_of_stream hs hw, he]

/-! ## Payloads -/

/-- The payloads of a block. -/
def blockPayloads (block : List Bytes) : List Bytes := block.filterMap fun l => linePayload (lineText l)

/-- The blocks of a stream that are looked at: the open one only at the end. -/
def blocks (src : Source) : List (List Bytes) :=
  match src.ending with
  | .eof => splitBlocks isSSEBlockEnd src.bytes
  | .failed _ => (cutBlocks isSSEBlockEnd [] (splitLines src.bytes)).1

def payloads (src : Source) : List Bytes := (blocks src).flatMap blockPayloads

/-- The payloads of a block up to its end marker. -/
def visited : List Bytes → List Bytes
  | [] => []
  | p :: ps => if p = doneMarker then [p] else p :: visited ps

def visitedPayloads (src : Source) : List Bytes := (blocks src).flatMap fun b => visited (blockPayloads b)

/-- A payload that ends the copy with an error. -/
def isInvalid (p : Bytes) : Bool := decide (p ≠ doneMarker) && (unmarshal decodeMap p).isNone

/-- The chunk of a payload, if it has choices. -/
def chunkOf (p : Bytes) : Option (List Value × Entries Value) :=
  (unmarshal decodeMap p).bind fun m => (rawChoices m).map fun cs => (cs, m)

/-- What the client receives for one payload. -/
def emitOf (index : Int64) (emitDone : Bool) (p : Bytes) : List Emitted :=
  if p = doneMarker then (if emitDone then [.done] else [])
  else
    match chunkOf p with
    | some (cs, m) => [.chunk index cs m]
    | none => []

/-- The events for some payloads, until one is invalid. -/
def emits (index : Int64) (emitDone : Bool) (ps : List Bytes) : List Emitted :=
  (ps.takeWhile fun p => ! isInvalid p).flatMap (emitOf index emitDone)

/-- The error of the first invalid payload. -/
def invalidError (ps : List Bytes) : Option Bytes := (ps.find? isInvalid).map jsonError

def readError : ReadEnd → Option Bytes
  | .eof => none
  | .failed message => some (ascii "read SSE: " ++ message)

/-- The error that ends the copy of a stream, if one does. -/
def streamError (src : Source) : Option Bytes :=
  (invalidError jsonError (visitedPayloads src)).or (readError src.ending)

/-! ## Blocks -/

theorem emits_cons {index : Int64} {emitDone : Bool} {p : Bytes} (h : isInvalid p = false)
    (ps : List Bytes) :
    emits index emitDone (p :: ps) = emitOf index emitDone p ++ emits index emitDone ps := by
  simp [emits, h]

theorem emits_append {index : Int64} {emitDone : Bool} (ps qs : List Bytes) :
    emits index emitDone (ps ++ qs) =
      emits index emitDone ps ++
        (if (ps.find? isInvalid).isSome then [] else emits index emitDone qs) := by
  induction ps with
  | nil => simp [emits]
  | cons p ps ih =>
    by_cases h : isInvalid p = true
    · simp [emits, h]
    · simp only [Bool.not_eq_true] at h
      rw [List.cons_append, emits_cons h, emits_cons h, ih, List.append_assoc, List.find?_cons, h]

theorem written_chunk (index : Int64) (cs : List Value) (m : Entries Value) (ops : List Op) :
    written (.write (ascii "data: ") ::
        .write (print (encodeValue (.obj (withChoices (.int index) cs m)))) ::
        .write (ascii "\n\n") :: ops) =
      bytesOf [.chunk index cs m] ++ written ops := by
  have hlf : ascii "\n\n" = [lf] ++ [lf] := by decide
  simp [bytesOf, Emitted.frame, nameLine, Emitted.name, Emitted.data, hlf]

/-- The lines of a block, by its payloads. -/
theorem writeLines_spec (index : Int64) (emitDone : Bool) (lines : List Bytes) :
    let ps := visited (lines.filterMap linePayload)
    written (writeLines jsonError index emitDone lines).1 = bytesOf (emits index emitDone ps) ∧
      (writeLines jsonError index emitDone lines).2 = invalidError jsonError ps := by
  induction lines with
  | nil => exact ⟨rfl, rfl⟩
  | cons line lines ih =>
    cases hp : linePayload line with
    | none => simpa [writeLines, hp] using ih
    | some p =>
      simp only [writeLines, hp, List.filterMap_cons_some hp, visited]
      by_cases hd : p = doneMarker
      · cases emitDone <;>
          simp [hd, emits, isInvalid, emitOf, invalidError, bytesOf, Emitted.frame, nameLine,
            Emitted.name, Emitted.data]
        decide
      · simp only [hd, if_false]
        cases hm : unmarshal decodeMap p with
        | none =>
          have hi : isInvalid p = true := by simp [isInvalid, hd, hm]
          simp [reindexSSEData, hm, emits, hi, invalidError, bytesOf]
        | some m =>
          have hi : isInvalid p = false := by simp [isInvalid, hm]
          have hinv : invalidError jsonError (p :: visited (lines.filterMap linePayload)) =
              invalidError jsonError (visited (lines.filterMap linePayload)) := by
            simp [invalidError, hi]
          rw [emits_cons hi, hinv, bytesOf_append]
          cases hc : rawChoices m with
          | none =>
            have hemit : emitOf index emitDone p = [] := by
              simp [emitOf, hd, chunkOf, hm, hc]
            simpa [reindexSSEData, hm, hc, hemit, bytesOf] using ih
          | some cs =>
            have hemit : emitOf index emitDone p = [.chunk index cs m] := by
              simp [emitOf, hd, chunkOf, hm, hc]
            simp only [reindexSSEData, hm, hc, hemit, written_chunk, ih, and_self]

/-- A block of lines, by its payloads. -/
theorem writeNChoiceSSEBlock_spec (index : Int64) (emitDone : Bool) {block : List Bytes}
    (h : IsLines block) :
    let ps := visited (blockPayloads block)
    written (writeNChoiceSSEBlock jsonError index emitDone block.flatten).1 =
        bytesOf (emits index emitDone ps) ∧
      (writeNChoiceSSEBlock jsonError index emitDone block.flatten).2 = invalidError jsonError ps := by
  obtain ⟨tail, ht, hnil⟩ := splitLf_crlfToLf h
  have hpay : (block.map lineText ++ tail).filterMap linePayload = blockPayloads block := by
    have hempty : tail.filterMap linePayload = [] := by
      rw [List.filterMap_eq_nil_iff]
      intro t hmem
      rw [hnil t hmem]
      rfl
    rw [List.filterMap_append, hempty, List.append_nil, List.filterMap_map]
    rfl
  have hw := writeLines_spec jsonError index emitDone (block.map lineText ++ tail)
  rw [hpay] at hw
  rw [writeNChoiceSSEBlock, ht]
  exact hw

/-- What the blocks of a stream come to, one after the other. -/
def blockVisits (bs : List (List Bytes)) : List Bytes := bs.flatMap fun b => visited (blockPayloads b)

theorem invalidError_append (ps qs : List Bytes) :
    invalidError jsonError (ps ++ qs) = (invalidError jsonError ps).or (invalidError jsonError qs) := by
  simp only [invalidError, List.find?_append]
  cases ps.find? isInvalid <;> rfl

theorem emits_of_error {index : Int64} {emitDone : Bool} {ps : List Bytes} {e : Bytes}
    (h : invalidError jsonError ps = some e) (qs : List Bytes) :
    emits index emitDone (ps ++ qs) = emits index emitDone ps := by
  obtain ⟨p, hp, -⟩ := Option.map_eq_some_iff.mp h
  rw [emits_append, hp, Option.isSome_some, if_pos rfl, List.append_nil]

theorem emits_of_no_error {index : Int64} {emitDone : Bool} {ps : List Bytes}
    (h : invalidError jsonError ps = none) (qs : List Bytes) :
    emits index emitDone (ps ++ qs) = emits index emitDone ps ++ emits index emitDone qs := by
  rw [invalidError, Option.map_eq_none_iff] at h
  rw [emits_append, h, Option.isSome_none, if_neg (by simp)]

/-- The loop over lines handles the blocks that they cut into. -/
theorem takeLines_spec (index : Int64) (emitDone : Bool) (block lines : List Bytes)
    (h : IsLines (block ++ lines)) :
    let c := cutBlocks isSSEBlockEnd block lines
    let t := takeLines jsonError index emitDone block.flatten lines
    written t.1 = bytesOf (emits index emitDone (blockVisits c.1)) ∧
      t.2 = (match invalidError jsonError (blockVisits c.1) with
        | some e => .error e
        | none => .ok c.2.flatten) := by
  induction lines generalizing block with
  | nil => exact ⟨rfl, rfl⟩
  | cons line lines ih =>
    have hopen : block.flatten ++ line = (block ++ [line]).flatten := by simp
    have hl : IsLines ((block ++ [line]) ++ lines) := by simpa using h
    by_cases hb : isSSEBlockEnd line = true
    · obtain ⟨hw, he⟩ := writeNChoiceSSEBlock_spec jsonError index emitDone (isLines_left hl)
      obtain ⟨hw', he'⟩ := ih [] (isLines_suffix hl)
      simp only [takeLines, takeLine, cutBlocks, hb, if_true, hopen, blockVisits, List.flatMap_cons,
        List.flatten_nil] at hw he hw' he' ⊢
      cases hinv : invalidError jsonError (visited (blockPayloads (block ++ [line]))) with
      | some e =>
        rw [hinv] at he
        simp only [he]
        rw [emits_of_error jsonError hinv, invalidError_append, hinv]
        exact ⟨hw, rfl⟩
      | none =>
        rw [hinv] at he
        simp only [he]
        rw [emits_of_no_error jsonError hinv, invalidError_append, hinv, bytesOf_append]
        exact ⟨by rw [written_append, written_read, hw, hw'], he'⟩
    · obtain ⟨hw', he'⟩ := ih (block ++ [line]) hl
      simp only [takeLines, takeLine, cutBlocks, hb, if_false, Bool.false_eq_true, hopen] at hw' he' ⊢
      exact ⟨by simpa using hw', he'⟩

theorem takeLines_concat (index : Int64) (emitDone : Bool) (block : Bytes) (lines : List Bytes)
    (line : Bytes) :
    takeLines jsonError index emitDone block (lines ++ [line]) =
      match (takeLines jsonError index emitDone block lines).2 with
      | .error _ => takeLines jsonError index emitDone block lines
      | .ok rest =>
        let t := takeLine jsonError index emitDone rest line
        ((takeLines jsonError index emitDone block lines).1 ++ .read :: t.1, t.2) := by
  induction lines generalizing block with
  | nil =>
    simp only [List.nil_append, takeLines]
    cases (takeLine jsonError index emitDone block line).2 <;> simp
  | cons l lines ih =>
    simp only [List.cons_append, takeLines]
    cases (takeLine jsonError index emitDone block l).2 with
    | error e => rfl
    | ok rest =>
      simp only [ih]
      cases ht : (takeLines jsonError index emitDone rest lines).2 <;> simp [ht]

/-- The last read adds nothing to the lines of the source. -/
theorem copyNChoiceSSE_lines (index : Int64) (emitDone : Bool) (src : Source) :
    let t := takeLines jsonError index emitDone [] (splitLines src.bytes)
    let c := copyNChoiceSSE jsonError index emitDone src
    written c.1 = written t.1 ++ (match t.2 with
        | .error _ => []
        | .ok block => written (takeEnd jsonError index emitDone block src.ending).1) ∧
      c.2 = (match t.2 with
        | .error e => some e
        | .ok block => (takeEnd jsonError index emitDone block src.ending).2) := by
  simp only [copyNChoiceSSE, splitLines]
  by_cases h0 : (readLines src.bytes).2 = []
  · simp only [h0, if_true, List.append_nil]
    cases (takeLines jsonError index emitDone [] (readLines src.bytes).1).2 with
    | error e => simp
    | ok block => simp
  · simp only [h0, if_false]
    rw [takeLines_concat]
    cases ht : (takeLines jsonError index emitDone [] (readLines src.bytes).1).2 with
    | error e => simp [ht]
    | ok block =>
      simp only
      cases (takeLine jsonError index emitDone block (readLines src.bytes).2).2 <;> simp

/-- Lines of white space hold no payload. -/
theorem blockPayloads_of_trimSpace {block : List Bytes} (h : trimSpace block.flatten = []) :
    blockPayloads block = [] := by
  have hspace := mem_spaces_of_trimSpace h
  rw [blockPayloads, List.filterMap_eq_nil_iff]
  intro l hl
  unfold linePayload
  split
  · rfl
  · rename_i hp
    obtain ⟨t, ht⟩ := (hasPrefix_iff _ _).mp (by simpa using hp)
    have hd : (0x64 : UInt8) ∈ l := by
      rw [← lineText_append_terminator l, ht]
      exact List.mem_append_left _ (List.mem_append_left _ (by decide))
    have hmem := hspace 0x64 (List.mem_flatten.mpr ⟨l, hl, hd⟩)
    exact absurd hmem (by decide)

theorem takeEnd_spec (index : Int64) (emitDone : Bool) {block : List Bytes} (h : IsLines block)
    (ending : ReadEnd) :
    let ps := match ending with | .eof => visited (blockPayloads block) | .failed _ => []
    written (takeEnd jsonError index emitDone block.flatten ending).1 =
        bytesOf (emits index emitDone ps) ∧
      (takeEnd jsonError index emitDone block.flatten ending).2 =
        (invalidError jsonError ps).or (readError ending) := by
  cases ending with
  | failed message => exact ⟨rfl, rfl⟩
  | eof =>
    simp only [takeEnd, readError, Option.or_none]
    by_cases ht : trimSpace block.flatten = []
    · simp only [ht, ne_eq, not_true_eq_false, if_false, blockPayloads_of_trimSpace ht]
      exact ⟨rfl, rfl⟩
    · simp only [ht, ne_eq, not_false_eq_true, if_true]
      exact writeNChoiceSSEBlock_spec jsonError index emitDone h

/-- The events of a stream. -/
def streamEmits (index : Int64) (emitDone : Bool) (src : Source) : List Emitted :=
  emits index emitDone (visitedPayloads src)

/-- The copy writes the events of the stream and returns its error. -/
theorem copyNChoiceSSE_spec (index : Int64) (emitDone : Bool) (src : Source) :
    written (copyNChoiceSSE jsonError index emitDone src).1 =
        bytesOf (streamEmits index emitDone src) ∧
      (copyNChoiceSSE jsonError index emitDone src).2 = streamError jsonError src := by
  have hlines := splitLines_isLines src.bytes
  obtain ⟨hw, he⟩ := copyNChoiceSSE_lines jsonError index emitDone src
  obtain ⟨htw, hte⟩ := takeLines_spec jsonError index emitDone [] (splitLines src.bytes) hlines
  have hrest : IsLines (cutBlocks isSSEBlockEnd [] (splitLines src.bytes)).2 := by
    have hf := cutBlocks_flatten isSSEBlockEnd [] (splitLines src.bytes)
    rw [List.nil_append] at hf
    rw [← hf] at hlines
    exact isLines_suffix hlines
  obtain ⟨hew, hee⟩ := takeEnd_spec jsonError index emitDone hrest src.ending
  have hvisit : visitedPayloads src =
      blockVisits (cutBlocks isSSEBlockEnd [] (splitLines src.bytes)).1 ++
        match src.ending with
        | .eof => visited (blockPayloads (cutBlocks isSSEBlockEnd [] (splitLines src.bytes)).2)
        | .failed _ => [] := by
    rw [visitedPayloads, blocks, blockVisits]
    cases src.ending with
    | failed message => simp
    | eof =>
      simp only [splitBlocks, List.flatMap_append]
      split
      · rename_i h0
        simp [h0, blockPayloads, visited]
      · simp
  simp only [List.flatten_nil] at htw hte
  rw [hw, he, hte, htw, streamEmits, streamError, hvisit, invalidError_append]
  cases hinv : invalidError jsonError
      (blockVisits (cutBlocks isSSEBlockEnd [] (splitLines src.bytes)).1) with
  | some e =>
    rw [emits_of_error jsonError hinv]
    exact ⟨List.append_nil _, rfl⟩
  | none =>
    rw [emits_of_no_error jsonError hinv, bytesOf_append, Option.none_or]
    exact ⟨by simp only [hew], hee⟩

/-! ## Calls -/

/-- The error that ends an upstream call, if one does. -/
def callError : Outcome → Option Bytes
  | .failed message => some message
  | .response status body => if isSuccess status then streamError jsonError body else some body.bytes

/-- The calls that are made: all up to the first that ends with an error. -/
def made : List Outcome → List Outcome
  | [] => []
  | o :: os => if (callError jsonError o).isSome then [o] else o :: made os

/-- The response has become an event stream. -/
def started : List Outcome → Bool
  | .response status _ :: _ => isSuccess status
  | _ => false

def callEmits (i : Nat) (emitDone : Bool) : Outcome → List Emitted
  | .failed _ => []
  | .response status body =>
    if isSuccess status then streamEmits (Int64.ofNat i) emitDone body else []

/-- The events of the calls from the one with index `i` on. -/
def replyEmits (i : Nat) : List Outcome → List Emitted
  | [] => []
  | o :: os =>
    callEmits i os.isEmpty o ++
      match callError jsonError o with
      | some e => [.failed e]
      | none => replyEmits (i + 1) os

theorem prefix_made (os : List Outcome) : made jsonError os <+: os := by
  induction os with
  | nil => exact List.nil_prefix
  | cons o os ih =>
    unfold made
    split
    · exact ⟨os, rfl⟩
    · exact List.cons_prefix_cons.mpr ⟨rfl, ih⟩

/-- No call follows one that ended with an error. -/
theorem made_dropLast (os : List Outcome) :
    ∀ o ∈ (made jsonError os).dropLast, callError jsonError o = none := by
  induction os with
  | nil => simp [made]
  | cons o os ih =>
    unfold made
    split
    · simp
    · rename_i h
      intro x hx
      cases hm : made jsonError os with
      | nil => simp [hm] at hx
      | cons y ys =>
        rw [hm, List.dropLast_cons_of_ne_nil (by simp), ← hm] at hx
        rcases List.mem_cons.mp hx with rfl | hx
        · simpa using h
        · exact ih x hx

variable (canFlush : Bool)

@[simp] theorem written_flushOps : written (flushOps canFlush) = [] := by cases canFlush <;> rfl

theorem written_writeSSEError (message : Bytes) :
    written (writeSSEError message) = bytesOf [.failed message] := by
  have h₁ : ascii "event: error\ndata: " = ascii "event: " ++ ascii "error" ++ [lf] ++ ascii "data: " := by
    decide
  have h₂ : ascii "\n\n" = [lf] ++ [lf] := by decide
  have h₃ : ascii "error" ≠ [] := by decide
  simp [writeSSEError, bytesOf, Emitted.frame, nameLine, Emitted.name, Emitted.data, h₁, h₂, h₃]

/-- One call of a stream that has started: its events, and its error event. -/
theorem writeStreamFrom_started (i : Nat) (os : List Outcome) :
    let r := writeStreamFrom jsonError canFlush i true os
    written r.ops = bytesOf (replyEmits jsonError i os) ∧ r.calls = (made jsonError os).length ∧
      r.status = none := by
  induction os generalizing i with
  | nil => exact ⟨rfl, rfl, rfl⟩
  | cons o os ih =>
    cases o with
    | failed message =>
      simp [writeStreamFrom, replyEmits, callEmits, callError, made, written_writeSSEError]
    | response status body =>
      by_cases hs : isSuccess status = true
      · obtain ⟨hw, he⟩ := copyNChoiceSSE_spec jsonError (Int64.ofNat i) os.isEmpty body
        obtain ⟨hw', hc', hst'⟩ := ih (i + 1)
        cases hce : streamError jsonError body with
        | some e =>
          rw [hce] at he
          simp [writeStreamFrom, replyEmits, callEmits, callError, made, hs, he, hce, hw,
            written_writeSSEError, bytesOf_append]
        | none =>
          rw [hce] at he
          simp [writeStreamFrom, replyEmits, callEmits, callError, made, hs, he, hce, hw, hw', hc',
            bytesOf_append]
      · simp [writeStreamFrom, replyEmits, callEmits, callError, made, hs, written_writeSSEError]

/-- The whole response, when its first call succeeds. -/
theorem writeNChoiceStreamResponse_started {os : List Outcome} (h : started os = true) :
    let r := writeNChoiceStreamResponse jsonError canFlush os
    written r.ops = bytesOf (replyEmits jsonError 0 os) ∧ r.calls = (made jsonError os).length ∧
      r.status = some 200 := by
  unfold started at h
  split at h
  · rename_i status body os
    have hs := writeStreamFrom_started jsonError canFlush 0 (.response status body :: os)
    have h₁ : writeStreamFrom jsonError canFlush 0 false (.response status body :: os) =
        { writeStreamFrom jsonError canFlush 0 true (.response status body :: os) with
          status := some 200 } := by
      simp only [writeStreamFrom, h, not_true_eq_false, if_false, if_true]
      split <;> rfl
    rw [writeNChoiceStreamResponse, h₁]
    exact ⟨hs.1, hs.2.1, rfl⟩
  · cases h

/-- The whole response, when its first call fails. -/
theorem writeNChoiceStreamResponse_refused {o : Outcome} {os : List Outcome}
    (h : started (o :: os) = false) :
    writeNChoiceStreamResponse jsonError canFlush (o :: os) =
      { (match o with
        | .failed message => writeProxyError message
        | .response status body => writeUpstreamResponse canFlush status body) with calls := 1 } ∧
      made jsonError (o :: os) = [o] := by
  cases o with
  | failed message => simp [writeNChoiceStreamResponse, writeStreamFrom, made, callError]
  | response status body =>
    have hs : isSuccess status = false := h
    simp [writeNChoiceStreamResponse, writeStreamFrom, made, callError, hs]

end NChoiceEvents
