import LlamaStack.NChoiceStream

/-!
# The contract of the n-choice stream

What a client of several choices is promised, in terms of the upstream streams
alone: the chunks with choices of all calls in a row, each with the index of its
call, and then at most one event more. No call follows one that fails.
-/
namespace NChoiceContract

open GoBytes GoFloat64 GoJson GoMap GoStream NChoiceResponse NChoiceStream

set_option maxRecDepth 4000

/-! ## Upstream streams -/

/-- A line that ends a block has nothing but line ends. -/
def isEmptyLine (line : Bytes) : Bool := line.all fun b => b = cr || b = lf

/-- The lines of the blocks of a stream. A block that a read error breaks off is none. -/
def blockLines (src : Source) : List Bytes :=
  match src.ending with
  | .eof => splitLines src.bytes
  | .failed _ => (splitLines src.bytes).rdropWhile fun l => ! isEmptyLine l

/-- The data of a data line, without white space around it. -/
def dataOf (line : Bytes) : Option Bytes :=
  ((SseGrammar.valueOf SseGrammar.dataName line).map GoStrings.trimSpace).filter fun d => d ≠ []

def payloads (src : Source) : List Bytes := (blockLines src).filterMap dataOf

/-- The payload of the last block of a whole stream. -/
def donePayload : Bytes := ascii "[DONE]"

/-- A stream ends with its end marker and the end of the source, or it breaks off
before the marker. -/
structure EndsWell (src : Source) : Prop where
  last : donePayload ∉ (payloads src).dropLast
  eof : donePayload ∈ payloads src → src.ending = .eof

/-- The choices of a payload that is an object with an array of choices. -/
def choicesOf (p : Bytes) : List Value :=
  match (unmarshal decodeMap p).bind (get "choices".toList) with
  | some (.arr cs) => cs
  | _ => []

/-- A payload that is no JSON object, where one has to be. -/
def isBroken (p : Bytes) : Bool := decide (p ≠ donePayload) && (unmarshal decodeMap p).isNone

/-- The chunks with choices, up to the first broken payload. -/
def chunks (src : Source) : List Bytes :=
  ((payloads src).takeWhile fun p => ! isBroken p).filter fun p => ! (choicesOf p).isEmpty

/-! ## Upstream calls -/

def isOk (status : Nat) : Bool := decide (200 ≤ status ∧ status ≤ 299)

/-- Whether a call fails: in transport, by its status, or as its stream is read. -/
def fails : Outcome → Bool
  | .failed _ => true
  | .response status body =>
    ! isOk status || decide (body.ending ≠ .eof) || (payloads body).any isBroken

/-- The calls up to the first that fails. -/
def attempted (os : List Outcome) : List Outcome :=
  os.takeWhile (fun o => ! fails o) ++ (os.dropWhile fun o => ! fails o).take 1

def chunksOf : Outcome → List Bytes
  | .failed _ => []
  | .response status body => if isOk status then chunks body else []

/-- The chunks of all calls, each with the index of its call. -/
def allChunks (os : List Outcome) : List (Nat × Bytes) :=
  (attempted os).zipIdx.flatMap fun o => (chunksOf o.1).map fun p => (o.2, p)

/-- The first call opens the client's stream. -/
def opens : List Outcome → Bool
  | .response status _ :: _ => isOk status
  | _ => false

/-- The last call delivers its end marker. -/
def delivers (os : List Outcome) : Bool :=
  match os.getLast? with
  | some (.response _ body) => (payloads body).any fun p => decide (p = donePayload)
  | _ => false

/-! ## Events of the client -/

/-- The same choice at index `i`: of an object that is its index, and anything else
is as it was. -/
def AtIndex (i : Nat) (c c' : Value) : Prop :=
  match c with
  | .obj m => ∃ m', c' = .obj m' ∧ get "index".toList m' = some (.num (ofInt64 (Int64.ofNat i))) ∧
      ∀ k, k ≠ "index".toList → get k m' = get k m
  | c => c' = c

/-- The object of a payload at index `i`: its choices are, and every other member is
as it was. -/
structure ObjectAt (i : Nat) (m m' : Entries Value) : Prop where
  choices : ∃ cs cs', get "choices".toList m = some (.arr cs) ∧ cs ≠ [] ∧
    get "choices".toList m' = some (.arr cs') ∧ List.Forall₂ (AtIndex i) cs cs'
  others : ∀ k, k ≠ "choices".toList → get k m' = get k m

/-- An event without a name that holds a chunk's object at the given index, numbers
as floats. -/
structure IsChunk (c : Nat × Bytes) (e : SseGrammar.Event) : Prop where
  name : e.name = []
  id : e.id = none
  data : ∃ m m', unmarshal decodeMap c.2 = some m ∧ readObject e.data = some m' ∧ ObjectAt c.1 m m'

/-- An error event says that something failed upstream. -/
structure IsError (e : SseGrammar.Event) : Prop where
  name : e.name = ascii "error"
  data : ∃ m error message, readObject e.data = some m ∧
    get "error".toList m = some (.obj error) ∧
    get "message".toList error = some (.str message) ∧
    get "type".toList error = some (.str "upstream_error".toList)

/-- What stands behind the chunks: an error if a call failed, and else the end
marker if the last stream delivered its own. -/
structure EndsWith (os : List Outcome) (es : List SseGrammar.Event) : Prop where
  error : os.any fails = true → ∃ e, es = [e] ∧ IsError e
  done : os.any fails = false → delivers os = true → es = [{ data := donePayload }]
  nothing : os.any fails = false → delivers os = false → es = []

/-! ## Payloads -/

theorem isEmptyLine_eq (line : Bytes) : isEmptyLine line = NChoiceSse.isSSEBlockEnd line := by
  rw [Bool.eq_iff_iff, isEmptyLine, NChoiceSse.isSSEBlockEnd, List.isEmpty_iff, trimLineEnd,
    List.rdropWhile_eq_nil_iff, List.all_eq_true]
  simp [isLineEnd]

/-- White space in front of a text is trimmed. -/
theorem trimSpace_space (v : Bytes) : GoStrings.trimSpace (SseGrammar.space :: v) = GoStrings.trimSpace v := by
  have hdrop : GoStrings.dropPieces GoStrings.spaces (v.length + 1) (SseGrammar.space :: v) =
      GoStrings.dropPieces GoStrings.spaces v.length v := rfl
  rw [GoStrings.trimSpace, List.length_cons, hdrop, GoStrings.trimSpace]

theorem trimSpace_trimPrefix (v : Bytes) :
    GoStrings.trimSpace (trimPrefix v [SseGrammar.space]) = GoStrings.trimSpace v := by
  unfold trimPrefix
  split
  · rename_i h
    obtain ⟨t, rfl⟩ := (hasPrefix_iff _ _).mp h
    exact (trimSpace_space t).symm
  · rfl

/-- What stands behind the name of a data line. -/
theorem valueOf_of_marked {line v : Bytes} (h : lineText line = NChoiceSse.dataPrefix ++ v) :
    SseGrammar.valueOf SseGrammar.dataName line = some (trimPrefix v [SseGrammar.space]) := by
  rw [SseGrammar.valueOf, h]
  exact if_pos rfl

/-- A data line without a colon has no value. -/
theorem valueOf_of_unmarked {line v : Bytes}
    (h : hasPrefix (lineText line) NChoiceSse.dataPrefix = false)
    (hv : SseGrammar.valueOf SseGrammar.dataName line = some v) : v = [] := by
  unfold SseGrammar.valueOf at hv
  split at hv
  · rename_i hname
    cases hv
    have hsplit := List.takeWhile_append_dropWhile (p := (· ≠ SseGrammar.colon)) (l := lineText line)
    rw [show (lineText line).takeWhile (· ≠ SseGrammar.colon) = SseGrammar.dataName from hname] at hsplit
    cases hd : (lineText line).dropWhile (· ≠ SseGrammar.colon) with
    | nil =>
      rw [hd, List.append_nil] at hsplit
      rw [← hsplit]
      rfl
    | cons b rest =>
      have hb : b = SseGrammar.colon := by
        have hhead := List.head?_dropWhile_not (fun c => decide (c ≠ SseGrammar.colon)) (lineText line)
        rw [hd] at hhead
        simpa using hhead
      rw [hd, hb] at hsplit
      rw [← hsplit] at h
      cases h
  · cases hv

/-- The data of a line is what the copy takes for its payload. -/
theorem dataOf_eq (line : Bytes) : dataOf line = NChoiceSse.linePayload (lineText line) := by
  unfold dataOf NChoiceSse.linePayload
  by_cases hp : hasPrefix (lineText line) NChoiceSse.dataPrefix = true
  · obtain ⟨v, hv⟩ := (hasPrefix_iff _ _).mp hp
    have htrim : trimPrefix (lineText line) NChoiceSse.dataPrefix = v := by rw [hv, trimPrefix_append]
    rw [valueOf_of_marked hv, Option.map_some, trimSpace_trimPrefix, if_neg (not_not.mpr hp), htrim]
    by_cases h0 : GoStrings.trimSpace v = [] <;> simp [h0]
  · rw [if_pos hp]
    cases hv : SseGrammar.valueOf SseGrammar.dataName line with
    | none => rfl
    | some v =>
      rw [valueOf_of_unmarked (by simpa using hp) hv]
      rfl

/-- Complete blocks end with an empty line, and open lines are none. -/
theorem cutBlocks_rdropWhile (isEnd : Bytes → Bool) (ls : List Bytes) :
    (cutBlocks isEnd [] ls).1.flatten = ls.rdropWhile fun l => ! isEnd l := by
  obtain ⟨hblocks, hopen⟩ := cutBlocks_spec isEnd (open_nil isEnd) ls
  have hflat := cutBlocks_flatten isEnd [] ls
  generalize (cutBlocks isEnd [] ls).1 = bs, (cutBlocks isEnd [] ls).2 = rest at hblocks hopen hflat
  rw [List.nil_append] at hflat
  rw [← hflat]
  clear hflat
  induction rest using List.reverseRecOn with
  | nil =>
    rw [List.append_nil, eq_comm, List.rdropWhile_eq_self_iff]
    intro hne
    obtain ⟨init, b, rfl⟩ := (List.eq_nil_or_concat' bs).resolve_left fun h0 => hne (by rw [h0]; rfl)
    obtain ⟨c, l, rfl, hl, -⟩ := hblocks b (by simp)
    simp [hl]
  | append_singleton rest l ih =>
    rw [← List.append_assoc, List.rdropWhile_concat_pos _ _ _ (by simp [hopen l (by simp)])]
    exact ih fun x hx => hopen x (by simp [hx])

theorem blockLines_eq (src : Source) : blockLines src = (NChoiceEvents.blocks src).flatten := by
  have hempty : isEmptyLine = NChoiceSse.isSSEBlockEnd := funext isEmptyLine_eq
  unfold blockLines NChoiceEvents.blocks
  cases src.ending with
  | eof => exact (splitBlocks_lines _ _).symm
  | failed message => simp only [hempty, cutBlocks_rdropWhile]

theorem payloads_eq (src : Source) : payloads src = NChoiceEvents.payloads src := by
  have hdata : dataOf = fun l => NChoiceSse.linePayload (lineText l) := funext dataOf_eq
  rw [payloads, blockLines_eq, hdata, NChoiceEvents.payloads]
  generalize NChoiceEvents.blocks src = bs
  induction bs with
  | nil => rfl
  | cons b bs ih =>
    rw [List.flatten_cons, List.filterMap_append, ih, List.flatMap_cons]
    rfl

theorem EndsWell.wellEnded {src : Source} (h : EndsWell src) : WellEnded src := by
  obtain ⟨hlast, heof⟩ := h
  rw [payloads_eq] at hlast heof
  exact ⟨hlast, heof⟩

theorem choicesOf_ne_nil (p : Bytes) : choicesOf p ≠ [] ↔ (NChoiceEvents.chunkOf p).isSome = true := by
  have hkey : "choices".toList = NChoiceSse.choicesKey := rfl
  unfold choicesOf NChoiceEvents.chunkOf NChoiceSse.rawChoices
  rw [hkey]
  cases unmarshal decodeMap p with
  | none => simp
  | some m =>
    simp only [Option.bind_some]
    cases get NChoiceSse.choicesKey m with
    | none => simp
    | some v =>
      cases v with
      | arr cs => cases cs <;> simp
      | _ => simp

theorem chunks_eq (src : Source) : chunks src = chunkPayloads src := by
  have hbroken : isBroken = NChoiceEvents.isInvalid := rfl
  rw [chunks, chunkPayloads, payloads_eq, hbroken]
  refine List.filter_congr fun p _ => ?_
  rw [Bool.eq_iff_iff, ← choicesOf_ne_nil]
  simp

/-! ## Calls -/

theorem isOk_eq (status : Nat) : isOk status = isSuccess status := by
  rw [Bool.eq_iff_iff, isOk, isSuccess]
  simp only [decide_eq_true_eq, Bool.and_eq_true]
  omega

variable (jsonError : Bytes → Bytes) (canFlush : Bool)

/-- Every stream of these outcomes ends well. -/
def AllEndWell (os : List Outcome) : Prop :=
  ∀ status body, .response status body ∈ os → isOk status = true → EndsWell body

theorem streamError_isSome {src : Source} (h : WellEnded src) :
    (NChoiceEvents.streamError jsonError src).isSome =
      (decide (src.ending ≠ .eof) || (payloads src).any isBroken) := by
  have hread : (NChoiceEvents.readError src.ending).isSome = decide (src.ending ≠ .eof) := by
    cases src.ending <;> rfl
  have hinvalid : (NChoiceEvents.invalidError jsonError (payloads src)).isSome =
      (payloads src).any isBroken := by
    rw [NChoiceEvents.invalidError, Option.isSome_map, List.isSome_find?]
    rfl
  rw [NChoiceEvents.streamError, visitedPayloads_of_wellEnded h, ← payloads_eq, Option.isSome_or,
    hinvalid, hread, Bool.or_comm]

/-- A call fails in the same cases as the loop that copies it. -/
theorem fails_eq {o : Outcome} (h : AllEndWell [o]) :
    fails o = (NChoiceEvents.callError jsonError o).isSome := by
  cases o with
  | failed message => rfl
  | response status body =>
    rw [NChoiceEvents.callError, ← isOk_eq, fails]
    cases hs : isOk status with
    | false => rfl
    | true =>
      have hend := (h status body (by simp) hs).wellEnded
      simp only [Bool.not_true, Bool.false_or, if_true, streamError_isSome jsonError hend]

theorem attempted_cons (o : Outcome) (os : List Outcome) :
    attempted (o :: os) = if fails o then [o] else o :: attempted os := by
  unfold attempted
  cases h : fails o <;> simp [h]

theorem attempted_eq {os : List Outcome} (h : AllEndWell os) :
    attempted os = NChoiceEvents.made jsonError os := by
  induction os with
  | nil => rfl
  | cons o os ih =>
    have ho : AllEndWell [o] := fun status body hm => h status body (by simp_all)
    rw [attempted_cons, NChoiceEvents.made, fails_eq jsonError ho,
      ih fun status body hm => h status body (by simp [hm])]

theorem allChunks_eq {os : List Outcome} (h : AllEndWell os) :
    allChunks os = NChoiceStream.allChunks jsonError os := by
  have hchunks : chunksOf = callChunks := by
    funext o
    cases o with
    | failed message => rfl
    | response status body => rw [chunksOf, callChunks, isOk_eq, chunks_eq]
  rw [allChunks, NChoiceStream.allChunks, attempted_eq jsonError h, hchunks]

theorem opens_eq (os : List Outcome) : opens os = NChoiceEvents.started os := by
  unfold opens NChoiceEvents.started
  split <;> simp [isOk_eq]

theorem any_fails {os : List Outcome} (h : AllEndWell os) :
    os.any fails = (os.findSome? (NChoiceEvents.callError jsonError)).isSome := by
  induction os with
  | nil => rfl
  | cons o os ih =>
    have ho : AllEndWell [o] := fun status body hm => h status body (by simp_all)
    rw [List.any_cons, ih fun status body hm => h status body (by simp [hm]), fails_eq jsonError ho,
      List.findSome?_cons]
    cases NChoiceEvents.callError jsonError o <;> rfl

/-! ## Events -/

theorem atIndex_setIndex (i : Nat) (c : Value) :
    AtIndex i c (NChoiceSse.setIndex (.num (ofInt64 (Int64.ofNat i))) c) := by
  cases c with
  | obj m => exact ⟨_, rfl, get_store_self _ _ _, fun k hk => get_store_ne hk _ _⟩
  | _ => rfl

theorem objectAt_withChoices (i : Nat) {m : Entries Value} {cs : List Value}
    (h : NChoiceSse.rawChoices m = some cs) :
    ObjectAt i m (NChoiceSse.withChoices (.num (ofInt64 (Int64.ofNat i))) cs m) := by
  have hne : cs ≠ [] := by
    unfold NChoiceSse.rawChoices at h
    split at h
    · cases h
      exact List.cons_ne_nil _ _
    · cases h
  refine ⟨⟨cs, _, get_of_rawChoices h, hne, get_store_self _ _ _, ?_⟩, fun k hk => get_store_ne hk _ _⟩
  rw [List.forall₂_map_right_iff]
  exact List.forall₂_same.mpr fun c _ => atIndex_setIndex i c

theorem isChunk_of_event {c : Nat × Bytes} {e : SseGrammar.Event} (h : NChoiceStream.IsChunk c e) :
    IsChunk c e := by
  obtain ⟨hname, hid, m, cs, k, hm, hcs, hk, hread⟩ := h
  have hk : k = Int64.ofNat c.1 := by
    rw [← Int64.ofInt_toInt k, hk]
    rfl
  subst hk
  exact ⟨hname, hid, m, _, hm, hread, objectAt_withChoices c.1 hcs⟩

theorem get_pair {k₁ k₂ : Text} (h : k₁ ≠ k₂) (v₁ v₂ : Value) :
    get k₁ (ofList [(k₁, v₁), (k₂, v₂)]) = some v₁ ∧ get k₂ (ofList [(k₁, v₁), (k₂, v₂)]) = some v₂ := by
  rw [get_ofList, get_ofList]
  simp only [List.foldl_cons, List.foldl_nil, h, h.symm, if_true, if_false, and_self]

/-- An object with one member, an object of two texts. -/
theorem readObject_nested (k k₁ k₂ : Text) (s₁ s₂ : Lexeme) :
    readObject (print (.obj [(quote k, .obj [(quote k₁, .str s₁), (quote k₂, .str s₂)])])) =
      some [(k, .obj (ofList [(k₁, .str (unquote s₁)), (k₂, .str (unquote s₂))]))] := by
  rw [readObject, parse_print]
  simp [decodeMap, decodeMembers, decodeValue, ofList, store]

theorem isError_event (message : Bytes) :
    IsError { name := ascii "error", data := print (ssePayload message) } := by
  have hne : "message".toList ≠ "type".toList := by decide
  obtain ⟨hmessage, htype⟩ := get_pair hne (.str (unquote (quoteBytes message))) (.str (unquote (quote upstreamError)))
  rw [unquote_quote] at htype
  exact ⟨rfl, _, _, _, readObject_nested _ _ _ _ _, if_pos rfl, hmessage, htype⟩

/-- If no call fails, the last one is a success. -/
theorem delivers_eq {os : List Outcome} (h : os.any fails = false) :
    delivers os = os.getLast?.any delivered := by
  unfold delivers
  cases hl : os.getLast? with
  | none => rfl
  | some o =>
    have ho : fails o = false := by
      have hall := List.any_eq_false.mp h o (List.mem_of_getLast? hl)
      simpa using hall
    cases o with
    | failed message => cases ho
    | response status body =>
      have hs : isOk status = true := by
        cases hs : isOk status with
        | true => rfl
        | false => simp [fails, hs] at ho
      rw [isOk_eq] at hs
      have hmarker : donePayload = NChoiceSse.doneMarker := rfl
      simp only [payloads_eq, hmarker, delivered, hs, Bool.true_and, Option.any_some]
      rw [Bool.eq_iff_iff, List.any_eq_true]
      simp

/-- The marker of the calls is the one that the contract asks for. -/
theorem endsWith_marker {os : List Outcome} (h : AllEndWell os) : EndsWith os (marker jsonError os) := by
  have hany := any_fails jsonError h
  unfold marker
  cases he : os.findSome? (NChoiceEvents.callError jsonError) with
  | some message =>
    rw [he] at hany
    exact ⟨fun _ => ⟨_, rfl, isError_event message⟩, fun hf => (Bool.eq_false_iff.mp hf hany).elim,
      fun hf => (Bool.eq_false_iff.mp hf hany).elim⟩
  | none =>
    rw [he] at hany
    refine ⟨fun hf => (Bool.eq_false_iff.mp hany hf).elim, fun hf hd => ?_, fun hf hd => ?_⟩
    · rw [delivers_eq hf] at hd
      exact if_pos hd
    · rw [delivers_eq hf] at hd
      exact if_neg (by simp [hd])

/-- The contract of a streamed n-choice response: one call after the other up to the
first that fails, and a stream of their chunks if the first call opens one. -/
theorem writeNChoiceStreamResponse_contract {os : List Outcome} (hlen : os.length < 2 ^ 63)
    (hend : AllEndWell os) :
    let r := writeNChoiceStreamResponse jsonError canFlush os
    r.calls = (attempted os).length ∧
      (opens os = true → r.status = some 200 ∧
        ∃ chunks last, SseGrammar.events (written r.ops) = some (chunks ++ last) ∧
          List.Forall₂ IsChunk (allChunks os) chunks ∧ EndsWith os last) ∧
      (opens os = false → r.status ≠ some 200 ∧ r.calls ≤ 1) := by
  obtain ⟨⟨hcalls, -, -⟩, hopen, hclosed⟩ := streamResponse_spec jsonError canFlush hlen
    fun status body hm hs => (hend status body hm ((isOk_eq status).trans hs)).wellEnded
  rw [opens_eq, attempted_eq jsonError hend]
  refine ⟨hcalls, fun hs => ?_, hclosed⟩
  obtain ⟨hstatus, chunks, hevents, hchunks⟩ := hopen hs
  rw [allChunks_eq jsonError hend]
  exact ⟨hstatus, chunks, _, hevents, hchunks.imp fun _ _ => isChunk_of_event, endsWith_marker jsonError hend⟩

/-- A stream of one chunk, and one that breaks off behind a chunk. -/
def sampleOutcomes : List Outcome :=
  [.response 200 sampleStream,
    .response 200 ⟨ascii "data: \x7b\"choices\":[\x7b\"text\":\"b\"\x7d]\x7d\r\n\r\n", .failed (ascii "reset")⟩]

theorem writeNChoiceStreamResponse_contract_sampleOutcomes :
    let r := writeNChoiceStreamResponse id true sampleOutcomes
    r.calls = 2 ∧ r.status = some 200 ∧
      ∃ chunks last, SseGrammar.events (written r.ops) = some (chunks ++ last) ∧
        List.Forall₂ IsChunk (allChunks sampleOutcomes) chunks ∧ EndsWith sampleOutcomes last := by
  have hend : AllEndWell sampleOutcomes := by
    intro status body hmem _
    simp only [sampleOutcomes, List.mem_cons, List.not_mem_nil, or_false, Outcome.response.injEq] at hmem
    rcases hmem with ⟨-, rfl⟩ | ⟨-, rfl⟩
    · exact ⟨by decide +kernel, fun _ => rfl⟩
    · exact ⟨by decide +kernel, fun h => absurd h (by decide +kernel)⟩
  obtain ⟨hcalls, hopen, -⟩ := writeNChoiceStreamResponse_contract id true (by decide) hend
  obtain ⟨hstatus, hevents⟩ := hopen rfl
  exact ⟨hcalls.trans (by decide +kernel), hstatus, hevents⟩

end NChoiceContract
