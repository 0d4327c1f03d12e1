import LlamaStack.NChoiceEvents

/-!
# Streams that end well

When every upstream stream has its end marker last or not at all, the client
receives the chunks of all calls in order, each with the index of its call, and
then at most one more event: the end marker or an error.
-/
namespace NChoiceStream

open GoBytes GoFloat64 GoJson GoMap GoStream NChoiceSse NChoiceResponse NChoiceEvents

set_option maxRecDepth 4000

variable (jsonError : Bytes → Bytes) (canFlush : Bool)

/-- The end marker is the last payload, and then the stream ends, or it breaks
off before the marker. -/
structure WellEnded (src : Source) : Prop where
  last : doneMarker ∉ (payloads src).dropLast
  eof : doneMarker ∈ payloads src → src.ending = .eof

/-- The chunks of a stream that have choices, until a payload is invalid. -/
def chunkPayloads (src : Source) : List Bytes :=
  ((payloads src).takeWhile fun p => ! isInvalid p).filter fun p => (chunkOf p).isSome

def callChunks : Outcome → List Bytes
  | .failed _ => []
  | .response status body => if isSuccess status then chunkPayloads body else []

/-- The chunks of all calls that are made, each with the index of its call. -/
def allChunks (os : List Outcome) : List (Nat × Bytes) :=
  (made jsonError os).zipIdx.flatMap fun o => (callChunks o.1).map fun p => (o.2, p)

/-- The object that a payload of the client holds, numbers as floats. -/
def readObject (data : Bytes) : Option (Entries Value) := (parse data).bind decodeMap

/-- An event is a chunk with every object choice at the given index. -/
structure IsChunk (c : Nat × Bytes) (e : SseGrammar.Event) : Prop where
  name : e.name = []
  id : e.id = none
  data : ∃ m cs k, unmarshal decodeMap c.2 = some m ∧ rawChoices m = some cs ∧
    Int64.toInt k = c.1 ∧ readObject e.data = some (withChoices (.num (ofInt64 k)) cs m)

def delivered : Outcome → Bool
  | .failed _ => false
  | .response status body => isSuccess status && decide (doneMarker ∈ payloads body)

/-- What stands behind the chunks: an error if a call ended with one, and else
the end marker if the last stream delivered it. -/
def marker (os : List Outcome) : List SseGrammar.Event :=
  match os.findSome? (callError jsonError) with
  | some message => [{ name := ascii "error", data := print (ssePayload message) }]
  | none => if os.getLast?.any delivered then [{ data := doneMarker }] else []

/-! ## Payloads of a stream that ends well -/

theorem visited_of_not_mem {ps : List Bytes} (h : doneMarker ∉ ps.dropLast) : visited ps = ps := by
  induction ps with
  | nil => rfl
  | cons p ps ih =>
    cases ps with
    | nil =>
      simp only [visited]
      split <;> rfl
    | cons q ps =>
      rw [List.dropLast_cons_of_ne_nil (by simp), List.mem_cons, not_or] at h
      rw [visited, if_neg (Ne.symm h.1), ih h.2]

theorem visitedPayloads_of_wellEnded {src : Source} (h : WellEnded src) :
    visitedPayloads src = payloads src := by
  have hflat : ∀ bs : List (List Bytes), doneMarker ∉ (bs.flatMap blockPayloads).dropLast →
      (bs.flatMap fun b => visited (blockPayloads b)) = bs.flatMap blockPayloads := by
    intro bs
    induction bs with
    | nil => exact fun _ => rfl
    | cons b bs ih =>
      intro hd
      rw [List.flatMap_cons] at hd ⊢
      have hb : doneMarker ∉ (blockPayloads b).dropLast := by
        intro hm
        by_cases h0 : bs.flatMap blockPayloads = []
        · exact hd (by rwa [h0, List.append_nil])
        · exact hd (by
            rw [List.dropLast_append_of_ne_nil h0]
            exact List.mem_append_left _ (List.mem_of_mem_dropLast hm))
      have hbs : doneMarker ∉ (bs.flatMap blockPayloads).dropLast := by
        intro hm
        by_cases h0 : bs.flatMap blockPayloads = []
        · simp [h0] at hm
        · exact hd (by
            rw [List.dropLast_append_of_ne_nil h0]
            exact List.mem_append_right _ hm)
      rw [visited_of_not_mem hb, ih hbs, List.flatMap_cons]
  exact hflat (blocks src) h.last

theorem chunkOf_doneMarker : chunkOf doneMarker = none := rfl

/-- The chunk event of a payload. -/
def chunkEmit (index : Int64) (p : Bytes) : Option Emitted :=
  (chunkOf p).map fun c => .chunk index c.1 c.2

theorem emitOf_of_ne {index : Int64} {emitDone : Bool} {p : Bytes} (h : p ≠ doneMarker) :
    emitOf index emitDone p = (chunkEmit index p).toList := by
  simp only [emitOf, h, if_false, chunkEmit]
  cases chunkOf p <;> rfl

theorem emits_of_not_mem (index : Int64) (emitDone : Bool) {ps : List Bytes} (h : doneMarker ∉ ps) :
    emits index emitDone ps = (ps.takeWhile fun p => ! isInvalid p).filterMap (chunkEmit index) := by
  induction ps with
  | nil => rfl
  | cons p ps ih =>
    simp only [List.mem_cons, not_or] at h
    by_cases hp : isInvalid p = true
    · simp [emits, hp]
    · simp only [Bool.not_eq_true] at hp
      rw [emits_cons hp, ih h.2, emitOf_of_ne (Ne.symm h.1), List.takeWhile_cons_of_pos (by simp [hp])]
      cases hc : chunkEmit index p with
      | none => simp [hc]
      | some e => simp [hc]

theorem filterMap_chunkPayloads (index : Int64) (ps : List Bytes) :
    (ps.filter fun p => (chunkOf p).isSome).filterMap (chunkEmit index) =
      ps.filterMap (chunkEmit index) := by
  rw [List.filterMap_filter]
  refine List.filterMap_congr fun p _ => ?_
  unfold chunkEmit
  cases chunkOf p <;> rfl

/-- The events of a stream that ends well: its chunks, and then the end marker. -/
theorem streamEmits_of_wellEnded (index : Int64) (emitDone : Bool) {src : Source}
    (h : WellEnded src) :
    streamEmits index emitDone src =
      (chunkPayloads src).filterMap (chunkEmit index) ++
        (if emitDone = true ∧ streamError jsonError src = none ∧ doneMarker ∈ payloads src
          then [.done] else []) := by
  rw [streamEmits, streamError, visitedPayloads_of_wellEnded h, chunkPayloads, filterMap_chunkPayloads]
  by_cases hd : doneMarker ∈ payloads src
  · obtain ⟨qs, p, hps⟩ := (List.eq_nil_or_concat' (payloads src)).resolve_left (List.ne_nil_of_mem hd)
    have hq : doneMarker ∉ qs := by
      have hlast := h.last
      rwa [hps, List.dropLast_concat] at hlast
    obtain rfl : p = doneMarker := by
      rw [hps, List.mem_append, List.mem_singleton] at hd
      exact (hd.resolve_left hq).symm
    have hdone : isInvalid doneMarker = false := rfl
    have hinv : invalidError jsonError (qs ++ [doneMarker]) = invalidError jsonError qs := by
      rw [invalidError_append]
      simp [invalidError, hdone]
    have hchunks : ((qs ++ [doneMarker]).takeWhile fun p => ! isInvalid p).filterMap (chunkEmit index) =
        (qs.takeWhile fun p => ! isInvalid p).filterMap (chunkEmit index) := by
      rw [List.takeWhile_append]
      split
      · rename_i hall
        have hfull : (qs.takeWhile fun p => ! isInvalid p) = qs :=
          (List.takeWhile_prefix _).eq_of_length hall
        simp [hfull, hdone, chunkEmit, chunkOf_doneMarker]
      · rfl
    rw [h.eof hd, readError, hps, hchunks, Option.or_none, hinv, ← emits_of_not_mem index emitDone hq]
    cases he : invalidError jsonError qs with
    | some e =>
      rw [emits_of_error jsonError he]
      simp
    | none =>
      rw [emits_of_no_error jsonError he]
      cases emitDone <;> simp [emits, hdone, emitOf]
  · rw [emits_of_not_mem index emitDone hd]
    simp [hd]

/-! ## All calls -/

theorem callEmits_of_wellEnded (i : Nat) (emitDone : Bool) (o : Outcome)
    (h : ∀ status body, o = .response status body → isSuccess status = true → WellEnded body) :
    callEmits i emitDone o =
      (callChunks o).filterMap (chunkEmit (Int64.ofNat i)) ++
        (if emitDone = true ∧ callError jsonError o = none ∧ delivered o = true
          then [.done] else []) := by
  cases o with
  | failed message => simp [callEmits, callChunks, delivered]
  | response status body =>
    by_cases hs : isSuccess status = true
    · have he := streamEmits_of_wellEnded jsonError (Int64.ofNat i) emitDone (h status body rfl hs)
      simp [callEmits, callChunks, callError, delivered, hs, he]
    · simp [callEmits, callChunks, delivered, hs]

def chunkEmits (i : Nat) (os : List Outcome) : List Emitted :=
  ((made jsonError os).zipIdx i).flatMap fun o =>
    (callChunks o.1).filterMap (chunkEmit (Int64.ofNat o.2))

def markerEmits (os : List Outcome) : List Emitted :=
  match os.findSome? (callError jsonError) with
  | some message => [.failed message]
  | none => if os.getLast?.any delivered then [.done] else []

/-- The events of all calls: the chunks of the calls that are made, and the marker. -/
theorem replyEmits_of_wellEnded (i : Nat) (os : List Outcome)
    (h : ∀ status body, .response status body ∈ os → isSuccess status = true → WellEnded body) :
    replyEmits jsonError i os = chunkEmits jsonError i os ++ markerEmits jsonError os := by
  induction os generalizing i with
  | nil => rfl
  | cons o os ih =>
    have hcall := callEmits_of_wellEnded jsonError i os.isEmpty o
      fun status body ho => h status body (by simp [ho])
    have hih := ih (i + 1) fun status body hm => h status body (by simp [hm])
    rw [replyEmits, hcall]
    cases he : callError jsonError o with
    | some e => simp [chunkEmits, markerEmits, made, he]
    | none =>
      simp only [hih]
      cases os with
      | nil =>
        by_cases hd : delivered o = true <;>
          simp [chunkEmits, markerEmits, made, he, hd]
      | cons o' os => simp [chunkEmits, markerEmits, made, he]

/-! ## Chunks -/

/-- The objects of a payload are maps, and their numbers are floats. -/
theorem decodeMap_canonical {j : Json} {m : Entries Value} (h : decodeMap j = some m) :
    Canonical (.obj m) ∧ asFloat (.obj m) = .obj m := by
  cases j with
  | obj ms =>
    refine decodeValue_canonical (.obj ms) (.obj m) ?_
    obtain ⟨es, hes, rfl⟩ := Option.map_eq_some_iff.mp h
    simp [decodeValue, hes]
  | null =>
    cases h
    exact ⟨⟨List.Pairwise.nil, trivial⟩, rfl⟩
  | _ => cases h

/-- An encoded map reads as itself, up to integers stored as such. -/
theorem decodeMap_encode {m : Entries Value} (h : Canonical (.obj m)) :
    decodeMap (encodeValue (.obj m)) = some (mapValues asFloat m) := by
  have hs : ofList (asFloatMembers m) = asFloatMembers m := by
    rw [asFloatMembers_eq]
    exact ofList_of_sorted (mapValues_sorted _ h.1)
  rw [encodeValue, decodeMap, decodeMembers_encodeMembers m h.2, Option.map_some, hs,
    asFloatMembers_eq]

theorem asFloat_obj {m : Entries Value} (h : asFloat (.obj m) = .obj m) : mapValues asFloat m = m := by
  rw [asFloat, asFloatMembers_eq] at h
  exact Value.obj.inj h

theorem setIndex_spec {c : Value} (hc : Canonical c) (hf : asFloat c = c) (k : Int64) :
    Canonical (setIndex (.int k) c) ∧ asFloat (setIndex (.int k) c) = setIndex (.num (ofInt64 k)) c := by
  cases c with
  | obj m =>
    refine ⟨⟨store_sorted _ _ hc.1, canonicalMembers_iff.mpr fun e he => ?_⟩, ?_⟩
    · rcases mem_store he with rfl | he
      · trivial
      · exact canonicalMembers_iff.mp hc.2 e he
    · rw [setIndex, setIndex, asFloat, asFloatMembers_eq, mapValues_store, asFloat_obj hf]
      rfl
  | _ => exact ⟨hc, hf⟩

theorem get_of_rawChoices {m : Entries Value} {cs : List Value} (h : rawChoices m = some cs) :
    get choicesKey m = some (.arr cs) := by
  unfold rawChoices at h
  split at h
  · rename_i hg
    cases h
    exact hg
  · cases h

/-- A chunk that was written with an integer index reads with that index as float. -/
theorem readObject_withChoices {p : Bytes} {cs : List Value} {m : Entries Value}
    (hm : unmarshal decodeMap p = some m) (hcs : rawChoices m = some cs) (k : Int64) :
    readObject (print (encodeValue (.obj (withChoices (.int k) cs m)))) =
      some (withChoices (.num (ofInt64 k)) cs m) := by
  obtain ⟨j, -, hj⟩ := Option.bind_eq_some_iff.mp hm
  obtain ⟨hcan, hfloat⟩ := decodeMap_canonical hj
  have hget := get_of_rawChoices hcs
  have hmem := mem_of_get hget
  have hccs : ∀ c ∈ cs, Canonical c := canonicalItems_iff.mp (canonicalMembers_iff.mp hcan.2 _ hmem)
  have hmap := asFloat_obj hfloat
  have hfcs : ∀ c ∈ cs, asFloat c = c := by
    have harr : asFloat (.arr cs) = .arr cs := by
      have hg := get_mapValues asFloat choicesKey m
      rw [hmap, hget, Option.map_some] at hg
      exact (Option.some.inj hg).symm
    rw [asFloat, asFloatItems_eq, Value.arr.injEq] at harr
    exact List.map_inj_left.mp (harr.trans (List.map_id cs).symm)
  have hcanon : Canonical (.obj (withChoices (.int k) cs m)) := by
    refine ⟨store_sorted _ _ hcan.1, canonicalMembers_iff.mpr fun e he => ?_⟩
    rcases mem_store he with rfl | he
    · refine canonicalItems_iff.mpr fun x hx => ?_
      obtain ⟨c, hc, rfl⟩ := List.mem_map.mp hx
      exact (setIndex_spec (hccs c hc) (hfcs c hc) k).1
    · exact canonicalMembers_iff.mp hcan.2 e he
  have hitems : asFloat (.arr (cs.map (setIndex (.int k)))) =
      .arr (cs.map (setIndex (.num (ofInt64 k)))) := by
    rw [asFloat, asFloatItems_eq, List.map_map]
    congr 1
    exact List.map_congr_left fun c hc => (setIndex_spec (hccs c hc) (hfcs c hc) k).2
  rw [readObject, parse_print, Option.bind_some, decodeMap_encode hcanon, withChoices,
    mapValues_store, hitems, hmap, withChoices]

/-- The event of a chunk of one of the calls. -/
def IsChunkEmit (c : Nat × Bytes) (e : Emitted) : Prop :=
  ∃ m cs, unmarshal decodeMap c.2 = some m ∧ rawChoices m = some cs ∧ e = .chunk (Int64.ofNat c.1) cs m

theorem isChunkEmit_filterMap (i : Nat) {ps : List Bytes} (h : ∀ p ∈ ps, (chunkOf p).isSome = true) :
    List.Forall₂ IsChunkEmit (ps.map fun p => (i, p)) (ps.filterMap (chunkEmit (Int64.ofNat i))) := by
  induction ps with
  | nil => exact .nil
  | cons p ps ih =>
    obtain ⟨⟨cs, m⟩, hc⟩ := Option.isSome_iff_exists.mp (h p (by simp))
    have hemit : chunkEmit (Int64.ofNat i) p = some (.chunk (Int64.ofNat i) cs m) := by
      simp [chunkEmit, hc]
    obtain ⟨m', hm, hc⟩ := Option.bind_eq_some_iff.mp hc
    obtain ⟨cs', hcs, he⟩ := Option.map_eq_some_iff.mp hc
    simp only [Prod.mk.injEq] at he
    obtain ⟨rfl, rfl⟩ := he
    rw [List.filterMap_cons_some hemit]
    exact .cons ⟨m', cs', hm, hcs, rfl⟩ (ih fun q hq => h q (by simp [hq]))

theorem chunkOf_callChunks {o : Outcome} : ∀ p ∈ callChunks o, (chunkOf p).isSome = true := by
  intro p hp
  cases o with
  | failed message => simp [callChunks] at hp
  | response status body =>
    simp only [callChunks] at hp
    split at hp
    · exact (List.mem_filter.mp hp).2
    · simp at hp

/-- The chunk events of the calls are their chunks with the index of the call. -/
theorem isChunkEmit_chunkEmits (os : List Outcome) :
    List.Forall₂ IsChunkEmit (allChunks jsonError os) (chunkEmits jsonError 0 os) := by
  unfold allChunks chunkEmits
  generalize (made jsonError os).zipIdx = calls
  induction calls with
  | nil => exact .nil
  | cons o calls ih =>
    rw [List.flatMap_cons, List.flatMap_cons]
    exact List.rel_append (isChunkEmit_filterMap o.2 chunkOf_callChunks) ih

theorem fst_lt_of_mem_allChunks {os : List Outcome} {c : Nat × Bytes} (h : c ∈ allChunks jsonError os) :
    c.1 < os.length := by
  obtain ⟨o, ho, hc⟩ := List.mem_flatMap.mp h
  obtain ⟨p, -, rfl⟩ := List.mem_map.mp hc
  have h₁ := List.snd_lt_of_mem_zipIdx ho
  have h₂ := (prefix_made jsonError os).length_le
  simp only
  omega

theorem isChunk_chunkEmits {os : List Outcome} (hlen : os.length < 2 ^ 63) :
    List.Forall₂ IsChunk (allChunks jsonError os)
      ((chunkEmits jsonError 0 os).map Emitted.event) := by
  rw [List.forall₂_map_right_iff]
  have hlt : ∀ c ∈ allChunks jsonError os, c.1 < 2 ^ 63 := fun c hc =>
    (fst_lt_of_mem_allChunks jsonError hc).trans hlen
  have hemits := isChunkEmit_chunkEmits jsonError os
  generalize allChunks jsonError os = cs, chunkEmits jsonError 0 os = es at hlt hemits
  induction hemits with
  | nil => exact .nil
  | cons h _ ih =>
    obtain ⟨m, cs, hm, hcs, rfl⟩ := h
    refine .cons ⟨rfl, rfl, m, cs, _, hm, hcs, ?_, readObject_withChoices hm hcs _⟩
      (ih fun c hc => hlt c (by simp [hc]))
    rw [Int64.toInt_ofNat_of_lt (hlt _ (by simp))]

theorem markerEmits_event (os : List Outcome) :
    (markerEmits jsonError os).map Emitted.event = marker jsonError os := by
  unfold markerEmits marker
  split
  · rfl
  · split <;> rfl

/-- The calls that are made, what the client receives when the stream has started,
and that it is no stream at all when the first call is refused. -/
theorem streamResponse_spec {os : List Outcome} (hlen : os.length < 2 ^ 63)
    (hend : ∀ status body, .response status body ∈ os → isSuccess status = true → WellEnded body) :
    let r := writeNChoiceStreamResponse jsonError canFlush os
    (r.calls = (made jsonError os).length ∧ made jsonError os <+: os ∧
        ∀ o ∈ (made jsonError os).dropLast, callError jsonError o = none) ∧
      (started os = true → r.status = some 200 ∧
        ∃ chunks, SseGrammar.events (written r.ops) = some (chunks ++ marker jsonError os) ∧
          List.Forall₂ IsChunk (allChunks jsonError os) chunks) ∧
      (started os = false → r.status ≠ some 200 ∧ r.calls ≤ 1) := by
  refine ⟨⟨?_, prefix_made jsonError os, made_dropLast jsonError os⟩, fun h => ?_, fun h => ?_⟩
  · cases hs : started os with
    | true => exact (writeNChoiceStreamResponse_started jsonError canFlush hs).2.1
    | false =>
      cases os with
      | nil => rfl
      | cons o os =>
        obtain ⟨hr, hm⟩ := writeNChoiceStreamResponse_refused jsonError canFlush hs
        rw [hr, hm]
        rfl
  · obtain ⟨hw, -, hst⟩ := writeNChoiceStreamResponse_started jsonError canFlush h
    refine ⟨hst, _, ?_, isChunk_chunkEmits jsonError hlen⟩
    rw [hw, events_bytesOf, replyEmits_of_wellEnded jsonError 0 os hend, List.map_append,
      markerEmits_event]
  · cases os with
    | nil => exact ⟨nofun, Nat.zero_le 1⟩
    | cons o os =>
      obtain ⟨hr, -⟩ := writeNChoiceStreamResponse_refused jsonError canFlush h
      rw [hr]
      refine ⟨?_, Nat.le_refl 1⟩
      cases o with
      | failed message =>
        simp only [writeProxyError, writeOpenAIError]
        split <;> simp
      | response status body =>
        have hs : status ≠ 200 := by
          rintro rfl
          cases h
        simp only [writeUpstreamResponse, writeOpenAIError]
        split
        · split
          · simp
          · split
            · simp
            · simpa using hs
        · simpa using hs

def sampleStream : Source where
  bytes := ascii "data: \x7b\"choices\":[\x7b\"index\":0,\"text\":\"a\"\x7d]\x7d\n\ndata: [DONE]\n\n"
  ending := .eof

end NChoiceStream
