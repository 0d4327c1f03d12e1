import LlamaStack.NChoiceStream
import LlamaStack.NChoices
import LlamaStack.GoJsonTree

/-!
# The indices of choices

One family of upstream answers, each as a body and as a stream: the index that the
client sees for a choice in the aggregated body, and in the events of the stream.
-/
namespace NChoiceIndices

open GoBytes GoFloat64 GoJson GoMap GoStream NChoiceSse NChoiceResponse NChoiceEvents NChoiceStream NChoices

variable (jsonError : Bytes → Bytes) (canFlush : Bool)

/-! ## What the client sees -/

/-- The choices of a body or of a chunk. -/
def clientChoices (data : Bytes) : List Tree :=
  match (membersOf data).bind (get choicesKey) with
  | some (.arr ts) => ts
  | _ => []

/-- The index of a choice, if it is an integer. -/
def visibleIndex : Tree → Option Int
  | .obj m =>
    match get indexKey m with
    | some (.num n) => integerOf n
    | _ => none
  | _ => none

/-- The index that upstream gives to a choice. -/
def indexOf : Value → Option Value
  | .obj m => get indexKey m
  | _ => none

/-- Indexed choices are objects, whose keys are in order. -/
def Indexed (c : Value) : Prop := Canonical c ∧ (indexOf c).isSome

theorem visibleIndex_setIndex {c : Value} (h : Indexed c) (k : Int64) :
    visibleIndex (treeOf (encodeValue (setIndex (.int k) c))) = some k.toInt := by
  obtain ⟨hc, hi⟩ := h
  cases c with
  | obj m =>
    have hsorted := mapValues_sorted (fun v => treeOf (encodeValue v)) (store_sorted indexKey (.int k) hc.1)
    rw [setIndex, encodeValue, treeOf, treeOfMembers_encodeMembers, ofList_of_sorted hsorted, visibleIndex,
      get_mapValues, get_store_self]
    exact integerOf_formatInt k
  | _ => simp [indexOf] at hi

theorem clientChoices_encode {m : Entries Value} (hm : Sorted m) {cs : List Value}
    (h : get choicesKey m = some (.arr cs)) :
    clientChoices (print (encodeValue (.obj m))) = cs.map fun c => treeOf (encodeValue c) := by
  have hsorted := mapValues_sorted (fun v => treeOf (encodeValue v)) hm
  have hitems : ∀ cs : List Value, treeOfItems (encodeItems cs) = cs.map fun c => treeOf (encodeValue c) := by
    intro cs
    induction cs with
    | nil => rfl
    | cons c cs ih => rw [encodeItems, treeOfItems, ih, List.map_cons]
  rw [clientChoices, encodeValue, membersOf_of_parse (parse_print _), Option.bind_some, treeOfMembers_encodeMembers,
    ofList_of_sorted hsorted, get_mapValues, h]
  exact hitems cs

/-! ## Upstream answers -/

/-- The answer of one call in its two forms, and the indices of its choices. -/
structure Answer where
  body : Bytes
  stream : Source
  indices : List Value

/-- The choices of a payload. -/
def HasChoices (p : Bytes) (cs : List Value) : Prop :=
  ∃ m, unmarshal decodeMap p = some m ∧ rawChoices m = some cs

/-- Both forms have the same choices, with distinct indices; the stream comes to its
end without an error, and each of its choices is one of them. -/
structure Answer.Valid (a : Answer) : Prop where
  distinct : a.indices.Nodup
  body : ∃ cs, HasChoices a.body cs ∧ cs.map indexOf = a.indices.map some
  ended : WellEnded a.stream
  clean : streamError id a.stream = none
  known : ∀ p ∈ chunkPayloads a.stream, ∀ cs, HasChoices p cs → ∀ c ∈ cs, ∃ u ∈ a.indices, indexOf c = some u
  seen : ∀ u ∈ a.indices, ∃ p ∈ chunkPayloads a.stream, ∃ cs, HasChoices p cs ∧ ∃ c ∈ cs, indexOf c = some u

/-- The answers as outcomes of streamed calls. -/
def streamed (as : List Answer) : List Outcome := as.map fun a => .response 200 a.stream

/-- How many choices the calls before have. -/
def offset (as : List Answer) (i : Nat) : Nat := ((as.take i).map fun a => a.indices.length).sum

/-- Choice `j` of call `i`. -/
def IsChoice (as : List Answer) (i j : Nat) : Prop := ∃ a, as[i]? = some a ∧ j < a.indices.length

/-- The index that a choice has in the aggregated body. -/
def Aggregated (as : List Answer) (out : Bytes) (i j : Nat) (v : Int) : Prop :=
  IsChoice as i j ∧ ((clientChoices out)[offset as i + j]?).bind visibleIndex = some v

/-- An index that a choice has in the events of the client: that of a choice in an
event, where the chunk behind it has this choice. -/
def Streamed (as : List Answer) (events : List SseGrammar.Event) (i j : Nat) (v : Int) : Prop :=
  ∃ (a : Answer) (u : Value) (n : Nat) (p : Bytes) (cs : List Value) (q : Nat) (c : Value),
    as[i]? = some a ∧ a.indices[j]? = some u ∧
    (allChunks jsonError (streamed as))[n]? = some (i, p) ∧ HasChoices p cs ∧ cs[q]? = some c ∧
    indexOf c = some u ∧
    ∃ e : SseGrammar.Event, events[n]? = some e ∧ ((clientChoices e.data)[q]?).bind visibleIndex = some v

/-! ## Choices of a payload -/

theorem canonical_of_hasChoices {p : Bytes} {cs : List Value} (h : HasChoices p cs) : ∀ c ∈ cs, Canonical c := by
  obtain ⟨m, hm, hcs⟩ := h
  obtain ⟨j, -, hj⟩ := Option.bind_eq_some_iff.mp hm
  obtain ⟨hcan, -⟩ := decodeMap_canonical hj
  exact canonicalItems_iff.mp (canonicalMembers_iff.mp hcan.2 _ (mem_of_get (get_of_rawChoices hcs)))

/-- The choices of an event, with the index that was set. -/
theorem clientChoices_withChoices {p : Bytes} {m : Entries Value} (hm : unmarshal decodeMap p = some m)
    {cs : List Value} (k : Int64) :
    clientChoices (print (encodeValue (.obj (withChoices (.int k) cs m)))) =
      cs.map fun c => treeOf (encodeValue (setIndex (.int k) c)) := by
  obtain ⟨j, -, hj⟩ := Option.bind_eq_some_iff.mp hm
  have hsorted : Sorted (withChoices (.int k) cs m) := store_sorted _ _ (decodeMap_canonical hj).1.1
  rw [clientChoices_encode hsorted (get_store_self _ _ _), List.map_map]
  rfl

/-! ## The aggregated body -/

theorem numberFrom_append (pos : Nat) (cs ds : List Value) :
    numberFrom pos (cs ++ ds) = numberFrom pos cs ++ numberFrom (pos + cs.length) ds := by
  induction cs generalizing pos with
  | nil => rfl
  | cons c cs ih =>
    rw [List.cons_append, numberFrom, numberFrom, ih, List.cons_append, List.length_cons]
    congr 3
    omega

theorem length_numberFrom (pos : Nat) (cs : List Value) : (numberFrom pos cs).length = cs.length := by
  induction cs generalizing pos with
  | nil => rfl
  | cons c cs ih => rw [numberFrom, List.length_cons, ih, List.length_cons]

theorem getElem?_numberFrom (pos : Nat) (cs : List Value) (q : Nat) :
    (numberFrom pos cs)[q]? = (cs[q]?).map (setIndex (.int (Int64.ofNat (pos + q)))) := by
  induction cs generalizing pos q with
  | nil => rfl
  | cons c cs ih =>
    cases q with
    | zero => rfl
    | succ q =>
      rw [numberFrom, List.getElem?_cons_succ, ih, List.getElem?_cons_succ]
      congr 4
      omega

/-- The choices of the bodies come in a row, numbered from the first on. -/
theorem choices_gatherAll {bodies : List Bytes} {css : List (List Value)}
    (h : List.Forall₂ HasChoices bodies css) {g g' : Gathered} (hg : gatherAll jsonError g bodies = .ok g') :
    g'.choices = g.choices ++ numberFrom g.choices.length css.flatten := by
  induction h generalizing g with
  | nil =>
    cases hg
    simp [numberFrom]
  | @cons body cs bodies css hbody _ ih =>
    obtain ⟨m, hm, hcs⟩ := hbody
    have hget := get_of_rawChoices hcs
    unfold gatherAll at hg
    simp only [gather, hm, hget] at hg
    rw [ih hg, List.flatten_cons, numberFrom_append, List.length_append, length_numberFrom,
      List.append_assoc]

theorem gather_sorted {g g' : Gathered} {body : Bytes} (hg : gather jsonError g body = .ok g')
    (h : Sorted (g.out.getD [])) : Sorted (g'.out.getD []) := by
  unfold gather at hg
  split at hg
  · cases hg
  · rename_i m hm
    split at hg
    · cases hg
      obtain ⟨j, -, hj⟩ := Option.bind_eq_some_iff.mp hm
      cases ho : g.out with
      | none => exact (decodeMap_canonical hj).1.1
      | some m' => rwa [ho] at h
    · cases hg

theorem gatherAll_sorted {g g' : Gathered} {bodies : List Bytes} (hg : gatherAll jsonError g bodies = .ok g')
    (h : Sorted (g.out.getD [])) : Sorted (g'.out.getD []) := by
  induction bodies generalizing g with
  | nil =>
    cases hg
    exact h
  | cons body bodies ih =>
    unfold gatherAll at hg
    split at hg
    · cases hg
    · rename_i g₁ hg₁
      exact ih hg (gather_sorted jsonError hg₁ h)

theorem offset_cons (a : Answer) (as : List Answer) (i : Nat) :
    offset (a :: as) (i + 1) = a.indices.length + offset as i := by
  simp [offset]

theorem offset_lt {as : List Answer} {i j : Nat} (h : IsChoice as i j) :
    offset as i + j < offset as as.length := by
  obtain ⟨a, ha, hj⟩ := h
  induction as generalizing i with
  | nil => simp at ha
  | cons a' as ih =>
    rw [List.length_cons, offset_cons]
    cases i with
    | zero =>
      obtain rfl : a' = a := by simpa using ha
      have hzero : offset (a' :: as) 0 = 0 := rfl
      omega
    | succ i =>
      have hlt := ih (by simpa using ha)
      rw [offset_cons]
      omega

/-- With one choice a call, the choices before are counted by the calls before. -/
theorem offset_of_single {as : List Answer} (h : ∀ a ∈ as, a.indices.length = 1) {i : Nat}
    (hi : i ≤ as.length) : offset as i = i := by
  induction as generalizing i with
  | nil =>
    obtain rfl : i = 0 := by simpa using hi
    rfl
  | cons a as ih =>
    cases i with
    | zero => rfl
    | succ i =>
      rw [offset_cons, h a (by simp), ih (fun b hb => h b (by simp [hb])) (by simpa using hi)]
      omega

theorem indexed_of_hasChoices {p : Bytes} {cs : List Value} (h : HasChoices p cs) {us : List Value}
    (hus : cs.map indexOf = us.map some) : ∀ c ∈ cs, Indexed c := by
  intro c hc
  have hmem : indexOf c ∈ us.map some := hus ▸ List.mem_map_of_mem hc
  obtain ⟨u, -, hu⟩ := List.mem_map.mp hmem
  exact ⟨canonical_of_hasChoices h c hc, by simp [← hu]⟩

theorem choices_of_valid {as : List Answer} (h : ∀ a ∈ as, a.Valid) :
    ∃ css, List.Forall₂ HasChoices (as.map Answer.body) css ∧ (∀ c ∈ css.flatten, Indexed c) ∧
      css.flatten.length = offset as as.length := by
  induction as with
  | nil => exact ⟨[], .nil, by simp, rfl⟩
  | cons a as ih =>
    obtain ⟨css, hcss, hindexed, hlen⟩ := ih fun b hb => h b (by simp [hb])
    obtain ⟨cs, hcs, hus⟩ := (h a (by simp)).body
    have hlength : cs.length = a.indices.length := by
      have heq := congrArg List.length hus
      simpa using heq
    refine ⟨cs :: css, .cons hcs hcss, ?_, ?_⟩
    · intro c hc
      rw [List.flatten_cons, List.mem_append] at hc
      cases hc with
      | inl hc => exact indexed_of_hasChoices hcs hus c hc
      | inr hc => exact hindexed c hc
    · rw [List.flatten_cons, List.length_append, hlen, hlength, List.length_cons, offset_cons]

/-- The choices of the aggregated body: all choices in a row, numbered. -/
theorem clientChoices_aggregate {as : List Answer} (h : ∀ a ∈ as, a.Valid) {out : Bytes}
    (hout : aggregateNChoiceBodies jsonError (as.map Answer.body) = .ok out) :
    ∃ cs, (∀ c ∈ cs, Indexed c) ∧ cs.length = offset as as.length ∧
      clientChoices out = (numberFrom 0 cs).map fun c => treeOf (encodeValue c) := by
  obtain ⟨css, hcss, hindexed, hlen⟩ := choices_of_valid h
  refine ⟨css.flatten, hindexed, hlen, ?_⟩
  unfold aggregateNChoiceBodies at hout
  split at hout
  · cases hout
  split at hout
  · cases hout
  rename_i g hg
  have hsorted := gatherAll_sorted jsonError hg List.Pairwise.nil
  have hchoices : g.choices = numberFrom 0 css.flatten := choices_gatherAll jsonError hcss hg
  have hstored := store_sorted choicesKey (.arr g.choices) hsorted
  have hget := get_store_self choicesKey (Value.arr g.choices) (g.out.getD [])
  split at hout
  · cases hout
    rw [clientChoices_encode hstored hget, hchoices]
  · split at hout
    · cases hout
    · cases hout
      have hne : choicesKey ≠ usageKey := by decide
      rw [clientChoices_encode (store_sorted _ _ hstored) ((get_store_ne hne _ _).trans hget), hchoices]

theorem visibleIndex_numberFrom {cs : List Value} (h : ∀ c ∈ cs, Indexed c) (hlen : cs.length < 2 ^ 63)
    {q : Nat} (hq : q < cs.length) :
    (((numberFrom 0 cs).map fun c => treeOf (encodeValue c))[q]?).bind visibleIndex = some (q : Int) := by
  rw [List.getElem?_map, getElem?_numberFrom, List.getElem?_eq_getElem hq, Option.map_some, Option.map_some,
    Option.bind_some, visibleIndex_setIndex (h _ (List.getElem_mem hq)), Nat.zero_add,
    Int64.toInt_ofNat_of_lt (by omega)]

theorem aggregated_iff {as : List Answer} (h : ∀ a ∈ as, a.Valid) (hlen : offset as as.length < 2 ^ 63)
    {out : Bytes} (hout : aggregateNChoiceBodies jsonError (as.map Answer.body) = .ok out) {i j : Nat}
    (hij : IsChoice as i j) (v : Int) : Aggregated as out i j v ↔ v = (offset as i + j : Nat) := by
  obtain ⟨cs, hindexed, hcs, hout⟩ := clientChoices_aggregate jsonError h hout
  have hq : offset as i + j < cs.length := hcs ▸ offset_lt hij
  have hv := visibleIndex_numberFrom hindexed (hcs ▸ hlen) hq
  rw [Aggregated, hout, hv, Option.some.injEq, eq_comm]
  exact and_iff_right hij

/-! ## The stream -/

theorem callError_of_valid {as : List Answer} (h : ∀ a ∈ as, a.Valid) :
    ∀ o ∈ streamed as, callError jsonError o = none := by
  intro o ho
  obtain ⟨a, ha, rfl⟩ := List.mem_map.mp ho
  have hclean := (h a ha).clean
  have hsuccess : isSuccess 200 = true := rfl
  simp only [callError, hsuccess, if_true]
  simp only [streamError, Option.or_eq_none_iff, invalidError, Option.map_eq_none_iff] at hclean ⊢
  exact hclean

theorem made_of_no_error {os : List Outcome} (h : ∀ o ∈ os, callError jsonError o = none) :
    made jsonError os = os := by
  induction os with
  | nil => rfl
  | cons o os ih =>
    rw [made, h o (by simp), if_neg (by simp), ih fun o' ho' => h o' (by simp [ho'])]

theorem mem_allChunks {as : List Answer} (h : ∀ a ∈ as, a.Valid) {i : Nat} {a : Answer} (ha : as[i]? = some a)
    {p : Bytes} (hp : p ∈ chunkPayloads a.stream) : (i, p) ∈ allChunks jsonError (streamed as) := by
  rw [allChunks, made_of_no_error jsonError (callError_of_valid jsonError h), List.mem_flatMap]
  refine ⟨(.response 200 a.stream, i), ?_, ?_⟩
  · rw [List.mk_mem_zipIdx_iff_getElem?, streamed, List.getElem?_map, ha]
    rfl
  · have hsuccess : isSuccess 200 = true := rfl
    simp only [callChunks, hsuccess, if_true]
    exact List.mem_map_of_mem hp

/-- The events that the client receives: one for each chunk, and the marker. -/
theorem events_streamed {as : List Answer} (h : ∀ a ∈ as, a.Valid) (hne : as ≠ []) :
    SseGrammar.events (written (writeNChoiceStreamResponse jsonError canFlush (streamed as)).ops) =
      some ((chunkEmits jsonError 0 (streamed as) ++ markerEmits jsonError (streamed as)).map Emitted.event) := by
  have hstarted : started (streamed as) = true := by
    cases as with
    | nil => exact absurd rfl hne
    | cons a as => rfl
  have hended : ∀ status body, .response status body ∈ streamed as → isSuccess status = true →
      WellEnded body := by
    intro status body hmem _
    obtain ⟨a, ha, heq⟩ := List.mem_map.mp hmem
    cases heq
    exact (h a ha).ended
  rw [(writeNChoiceStreamResponse_started jsonError canFlush hstarted).1, events_bytesOf,
    replyEmits_of_wellEnded jsonError 0 _ hended]

/-- The event of a chunk, with what its choices are there. -/
theorem visibleIndex_event {as : List Answer} {n i : Nat} {p : Bytes}
    (hn : (allChunks jsonError (streamed as))[n]? = some (i, p)) {cs : List Value} (hcs : HasChoices p cs)
    {q : Nat} {c : Value} (hq : cs[q]? = some c) (hi : (indexOf c).isSome) (hlt : i < 2 ^ 63)
    (marks : List Emitted) :
    ∃ e, ((chunkEmits jsonError 0 (streamed as) ++ marks).map Emitted.event)[n]? = some e ∧
      ((clientChoices e.data)[q]?).bind visibleIndex = some (i : Int) := by
  have hindexed : Indexed c := ⟨canonical_of_hasChoices hcs c (List.mem_of_getElem? hq), hi⟩
  obtain ⟨hlen, hemits⟩ := List.forall₂_iff_get.mp (isChunkEmit_chunkEmits jsonError (streamed as))
  obtain ⟨hlt₁, hget⟩ := List.getElem?_eq_some_iff.mp hn
  have hlt₂ := hlen ▸ hlt₁
  obtain ⟨m', cs', hm', hcs', he⟩ := hemits n hlt₁ hlt₂
  rw [List.get_eq_getElem] at he
  rw [List.get_eq_getElem, hget] at hm' he
  obtain ⟨m, hm, hcs⟩ := hcs
  obtain rfl : m' = m := Option.some.inj (hm'.symm.trans hm)
  obtain rfl : cs' = cs := Option.some.inj (hcs'.symm.trans hcs)
  refine ⟨(Emitted.chunk (Int64.ofNat i) cs' m').event, ?_, ?_⟩
  · rw [List.getElem?_map, List.getElem?_append_left hlt₂, List.getElem?_eq_getElem hlt₂, he]
    rfl
  · have hdata : (Emitted.chunk (Int64.ofNat i) cs' m').event.data =
        print (encodeValue (.obj (withChoices (.int (Int64.ofNat i)) cs' m'))) := rfl
    rw [hdata, clientChoices_withChoices hm, List.getElem?_map, hq, Option.map_some, Option.bind_some,
      visibleIndex_setIndex hindexed, Int64.toInt_ofNat_of_lt hlt]

theorem streamed_iff {as : List Answer} (h : ∀ a ∈ as, a.Valid) (hlen : as.length < 2 ^ 63)
    (marks : List Emitted) {i j : Nat} (hij : IsChoice as i j) (v : Int) :
    Streamed jsonError as ((chunkEmits jsonError 0 (streamed as) ++ marks).map Emitted.event) i j v ↔
      v = i := by
  obtain ⟨a, ha, hj⟩ := hij
  have hi : i < as.length := (List.getElem?_eq_some_iff.mp ha).1
  have hu := List.getElem?_eq_getElem hj
  constructor
  · rintro ⟨a', u, n, p, cs, q, c, -, -, hn, hcs, hq, hindex, e, he, hv⟩
    obtain ⟨e', he', hv'⟩ := visibleIndex_event jsonError hn hcs hq (by simp [hindex]) (by omega) marks
    obtain rfl : e = e' := Option.some.inj (he.symm.trans he')
    exact Option.some.inj (hv.symm.trans hv')
  · rintro rfl
    obtain ⟨p, hp, cs, hcs, c, hc, hindex⟩ :=
      (h a (List.mem_of_getElem? ha)).seen _ (List.getElem_mem hj)
    obtain ⟨n, hn⟩ := List.getElem?_of_mem (mem_allChunks jsonError h ha hp)
    obtain ⟨q, hq⟩ := List.getElem?_of_mem hc
    obtain ⟨e, he, hv⟩ := visibleIndex_event jsonError hn hcs hq (by simp [hindex]) (by omega) marks
    exact ⟨a, _, n, p, cs, q, c, ha, hu, hn, hcs, hq, hindex, e, he, hv⟩

/-! ## Both forms -/

/-- A choice has one index, the same in both forms, and shares it with no other. -/
structure SameIdentity (as : List Answer) (out : Bytes) (events : List SseGrammar.Event) : Prop where
  agree : ∀ i j, IsChoice as i j →
    ∃ v, ∀ w, (Aggregated as out i j w ↔ w = v) ∧ (Streamed jsonError as events i j w ↔ w = v)
  aggregated : ∀ i j i' j' v, Aggregated as out i j v → Aggregated as out i' j' v → i = i' ∧ j = j'
  streamed : ∀ i j i' j' v, Streamed jsonError as events i j v → Streamed jsonError as events i' j' v →
    i = i' ∧ j = j'

theorem isChoice_of_streamed {as : List Answer} {events : List SseGrammar.Event} {i j : Nat} {v : Int}
    (h : Streamed jsonError as events i j v) : IsChoice as i j := by
  obtain ⟨a, u, n, p, cs, q, c, ha, hu, -⟩ := h
  exact ⟨a, ha, (List.getElem?_eq_some_iff.mp hu).1⟩

theorem nonempty_of_valid {a : Answer} (h : a.Valid) : 0 < a.indices.length := by
  obtain ⟨cs, ⟨m, -, hcs⟩, hus⟩ := h.body
  have hlen := congrArg List.length hus
  simp only [List.length_map] at hlen
  rw [← hlen, List.length_pos_iff]
  rintro rfl
  unfold rawChoices at hcs
  split at hcs <;> cases hcs

theorem length_le_offset {as : List Answer} (h : ∀ a ∈ as, a.Valid) : as.length ≤ offset as as.length := by
  induction as with
  | nil => exact Nat.le_refl 0
  | cons a as ih =>
    have hpos := nonempty_of_valid (h a (by simp))
    have hle := ih fun b hb => h b (by simp [hb])
    rw [List.length_cons, offset_cons]
    omega

/-- Two choices of one call share their index in the stream. -/
theorem single_of_sameIdentity {as : List Answer} (h : ∀ a ∈ as, a.Valid) (hlen : as.length < 2 ^ 63)
    (marks : List Emitted) {out : Bytes}
    (hsame : SameIdentity jsonError as out
      ((chunkEmits jsonError 0 (streamed as) ++ marks).map Emitted.event)) :
    ∀ a ∈ as, a.indices.length = 1 := by
  intro a ha
  obtain ⟨i, hi⟩ := List.getElem?_of_mem ha
  have hpos := nonempty_of_valid (h a ha)
  by_contra hsingle
  have htwo : 1 < a.indices.length := by omega
  have h₀ := (streamed_iff jsonError h hlen marks ⟨a, hi, hpos⟩ i).mpr rfl
  have h₁ := (streamed_iff jsonError h hlen marks ⟨a, hi, htwo⟩ i).mpr rfl
  exact absurd (hsame.streamed _ _ _ _ _ h₀ h₁).2 (by decide)

/-- The forms agree exactly when each call has one choice: the index in the body is
the place of the choice in the row, and that in the stream the number of its call. -/
theorem choice_identity {as : List Answer} (h : ∀ a ∈ as, a.Valid) (hlen : offset as as.length < 2 ^ 63)
    {out : Bytes} (hout : aggregateNChoiceBodies jsonError (as.map Answer.body) = .ok out) :
    ∃ events,
      SseGrammar.events (written (writeNChoiceStreamResponse jsonError canFlush (streamed as)).ops) =
        some events ∧
      (SameIdentity jsonError as out events ↔ ∀ a ∈ as, a.indices.length = 1) := by
  have hne : as ≠ [] := by
    rintro rfl
    cases hout
  have hcalls : as.length < 2 ^ 63 := (length_le_offset h).trans_lt hlen
  refine ⟨_, events_streamed jsonError canFlush h hne, single_of_sameIdentity jsonError h hcalls _, ?_⟩
  intro hsingle
  have hplace : ∀ {i j}, IsChoice as i j → offset as i + j = i ∧ j = 0 := by
    rintro i j ⟨a, ha, hj⟩
    have hi : i < as.length := (List.getElem?_eq_some_iff.mp ha).1
    have hone := hsingle a (List.mem_of_getElem? ha)
    rw [offset_of_single hsingle (by omega)]
    omega
  constructor
  · intro i j hij
    refine ⟨i, fun w => ⟨?_, streamed_iff jsonError h hcalls _ hij w⟩⟩
    rw [aggregated_iff jsonError h hlen hout hij, (hplace hij).1]
  · intro i j i' j' v hv hv'
    have h₁ := (aggregated_iff jsonError h hlen hout hv.1 v).mp hv
    have h₂ := (aggregated_iff jsonError h hlen hout hv'.1 v).mp hv'
    rw [(hplace hv.1).1] at h₁
    rw [(hplace hv'.1).1] at h₂
    have hj := (hplace hv.1).2
    have hj' := (hplace hv'.1).2
    omega
  · intro i j i' j' v hv hv'
    have hij := isChoice_of_streamed jsonError hv
    have hij' := isChoice_of_streamed jsonError hv'
    have h₁ := (streamed_iff jsonError h hcalls _ hij v).mp hv
    have h₂ := (streamed_iff jsonError h hcalls _ hij' v).mp hv'
    have hj := (hplace hij).2
    have hj' := (hplace hij').2
    omega

/-! ## Calls with one prompt and with two -/

def choicesValue (us : List Int64) : Value :=
  .obj [(choicesKey, .arr (us.map fun u => .obj [(indexKey, .int u)]))]

/-- A body with choices of these indices. -/
def choicesBody (us : List Int64) : Bytes := print (encodeValue (choicesValue us))

/-- An answer that streams its choices one by one. -/
def sampleAnswer (us : List Int64) : Answer where
  body := choicesBody us
  stream := ⟨us.flatMap (fun u => ascii "data: " ++ choicesBody [u] ++ ascii "\n\n") ++ doneFrame, .eof⟩
  indices := us.map fun u => .num (ofInt64 u)

def sampleChoices (us : List Int64) : List Value := us.map fun u => .obj [(indexKey, .num (ofInt64 u))]

theorem hasChoices_choicesBody {us : List Int64} (hne : us ≠ [])
    (hdepth : depth (encodeValue (choicesValue us)) ≤ maxNestingDepth) :
    HasChoices (choicesBody us) (sampleChoices us) := by
  have hcanon : Canonical (choicesValue us) := by
    refine ⟨List.pairwise_singleton _ _, canonicalItems_iff.mpr fun c hc => ?_, trivial⟩
    obtain ⟨u, -, rfl⟩ := List.mem_map.mp hc
    exact ⟨List.pairwise_singleton _ _, trivial, trivial⟩
  have hitems : asFloatItems (us.map fun u => .obj [(indexKey, .int u)]) = sampleChoices us := by
    rw [asFloatItems_eq, List.map_map]
    rfl
  refine ⟨[(choicesKey, .arr (sampleChoices us))], ?_, ?_⟩
  · rw [unmarshal, choicesBody, checkValid_print hdepth, Option.bind_some, choicesValue, decodeMap_encode hcanon,
      ← hitems]
    rfl
  · cases us with
    | nil => exact absurd rfl hne
    | cons u us => simp [rawChoices, GoMap.get, sampleChoices]

theorem sampleAnswer_valid {us : List Int64} (hne : us ≠ []) (hdistinct : (us.map ofInt64).Nodup)
    (hdepth : depth (encodeValue (choicesValue us)) ≤ maxNestingDepth)
    (hlast : doneMarker ∉ (payloads (sampleAnswer us).stream).dropLast)
    (hclean : streamError id (sampleAnswer us).stream = none)
    (hchunks : chunkPayloads (sampleAnswer us).stream = us.map fun u => choicesBody [u]) :
    (sampleAnswer us).Valid := by
  have hone : ∀ u, HasChoices (choicesBody [u]) (sampleChoices [u]) := fun u =>
    hasChoices_choicesBody (by simp) (by
      simp [choicesValue, encodeValue, encodeMembers, encodeItems, depth, depthMembers, depthItems, maxNestingDepth])
  constructor
  · have hmap : (sampleAnswer us).indices = (us.map ofInt64).map Value.num := by simp [sampleAnswer]
    rw [hmap]
    exact hdistinct.map fun a b h => Value.num.inj h
  · refine ⟨sampleChoices us, hasChoices_choicesBody hne hdepth, ?_⟩
    simp [sampleChoices, sampleAnswer, indexOf, GoMap.get]
  · exact ⟨hlast, fun _ => rfl⟩
  · exact hclean
  · intro p hp cs hcs c hc
    obtain ⟨u, hu, rfl⟩ := List.mem_map.mp (hchunks ▸ hp)
    obtain ⟨m, hm, hcs⟩ := hcs
    obtain ⟨m', hm', hcs'⟩ := hone u
    obtain rfl : m = m' := Option.some.inj (hm.symm.trans hm')
    obtain rfl : cs = sampleChoices [u] := Option.some.inj (hcs.symm.trans hcs')
    obtain rfl : c = .obj [(indexKey, .num (ofInt64 u))] := by simpa [sampleChoices] using hc
    exact ⟨_, List.mem_map_of_mem hu, by simp [indexOf, GoMap.get]⟩
  · intro v hv
    obtain ⟨u, hu, rfl⟩ := List.mem_map.mp hv
    refine ⟨choicesBody [u], ?_, _, hone u, .obj [(indexKey, .num (ofInt64 u))], by simp [sampleChoices],
      by simp [indexOf, GoMap.get]⟩
    rw [hchunks]
    exact List.mem_map_of_mem hu

theorem aggregated_of_isOk (as : List Answer)
    (h : (aggregateNChoiceBodies id (as.map Answer.body)).toBool = true) :
    ∃ out, aggregateNChoiceBodies id (as.map Answer.body) = .ok out := by
  cases hout : aggregateNChoiceBodies id (as.map Answer.body) with
  | error e => simp [hout, Except.toBool] at h
  | ok out => exact ⟨out, rfl⟩

theorem onePrompt_valid : (sampleAnswer [0]).Valid :=
  sampleAnswer_valid (by decide) (by simp) (by decide +kernel) (by decide +kernel) (by decide +kernel)
    (by decide +kernel)

theorem twoPrompts_valid : (sampleAnswer [0, 1]).Valid :=
  sampleAnswer_valid (by decide) (by decide +kernel) (by decide +kernel) (by decide +kernel) (by decide +kernel)
    (by decide +kernel)

theorem choice_identity_onePrompt : ∃ out events,
    aggregateNChoiceBodies id ([sampleAnswer [0], sampleAnswer [0]].map Answer.body) = .ok out ∧
    SseGrammar.events (written
      (writeNChoiceStreamResponse id true (streamed [sampleAnswer [0], sampleAnswer [0]])).ops) = some events ∧
    (SameIdentity id [sampleAnswer [0], sampleAnswer [0]] out events ↔
      ∀ a ∈ [sampleAnswer [0], sampleAnswer [0]], a.indices.length = 1) := by
  have hvalid : ∀ a ∈ [sampleAnswer [0], sampleAnswer [0]], a.Valid := by
    intro a ha
    obtain rfl : a = sampleAnswer [0] := by simpa using ha
    exact onePrompt_valid
  obtain ⟨out, hout⟩ := aggregated_of_isOk [sampleAnswer [0], sampleAnswer [0]] (by decide +kernel)
  obtain ⟨events, hevents, hsame⟩ := choice_identity id true hvalid (by decide +kernel) hout
  exact ⟨out, events, hout, hevents, hsame⟩

/-- With two prompts a call, the stream gives each index to two choices. -/
theorem choice_identity_fails : ∃ out events,
    aggregateNChoiceBodies id ([sampleAnswer [0, 1], sampleAnswer [0, 1]].map Answer.body) = .ok out ∧
    SseGrammar.events (written
      (writeNChoiceStreamResponse id true (streamed [sampleAnswer [0, 1], sampleAnswer [0, 1]])).ops) =
      some events ∧
    (∀ a ∈ [sampleAnswer [0, 1], sampleAnswer [0, 1]], a.Valid) ∧
    ¬ SameIdentity id [sampleAnswer [0, 1], sampleAnswer [0, 1]] out events := by
  have hvalid : ∀ a ∈ [sampleAnswer [0, 1], sampleAnswer [0, 1]], a.Valid := by
    intro a ha
    obtain rfl : a = sampleAnswer [0, 1] := by simpa using ha
    exact twoPrompts_valid
  obtain ⟨out, hout⟩ := aggregated_of_isOk [sampleAnswer [0, 1], sampleAnswer [0, 1]] (by decide +kernel)
  refine ⟨out, _, hout, events_streamed id true hvalid (by simp), hvalid, fun hsame => ?_⟩
  have hsingle := single_of_sameIdentity id hvalid (by decide) _ hsame (sampleAnswer [0, 1]) (by simp)
  exact absurd hsingle (by decide)

end NChoiceIndices
