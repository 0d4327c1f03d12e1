import LlamaStack.ResponsesToolCalls
import LlamaStack.SseGrammar

/-!
# The output index of synthesized events

A synthesized event takes the index of the finished item's event, or else the one
that the last delta of the call left, which is zero where upstream names none.
-/
namespace ResponsesOutputIndex

open GoBytes GoJson GoMap GoStream OpenaiApi ResponsesSse ResponsesEvents ResponsesFraming
open ResponsesToolCalls (stateOf_store callPayload)

/-! ## What the adapter looks at -/

/-- The payload of a block's first data line, the only one that the adapter reads. -/
def payloadOf (block : List Bytes) : Option Bytes := (block.find? isDataLine).map linePayload

def seen (bs : List (List Bytes)) : List Bytes := bs.filterMap payloadOf

def observe (a : ToolCalls) (payload : Bytes) : ToolCalls := (step a (classify payload)).1

theorem payloadOf_of_no_data {block : List Bytes} (h : ∀ x ∈ block, isDataLine x = false) :
    payloadOf block = none := by
  rw [payloadOf, Option.map_eq_none_iff, List.find?_eq_none]
  exact fun x hx => by simp [h x hx]

theorem payloadOf_eq {passed : List Bytes} {line : Bytes} (post : List Bytes)
    (hp : ∀ x ∈ passed, isDataLine x = false) (h : isDataLine line = true) :
    payloadOf (passed ++ line :: post) = some (linePayload line) := by
  have hnone : passed.find? isDataLine = none :=
    List.find?_eq_none.mpr fun x hx => by simp [hp x hx]
  rw [payloadOf, List.find?_append, hnone, Option.none_or, List.find?_cons_of_pos h, Option.map_some]

/-- A synthesized event stands in front of what the adapter writes for its block. -/
theorem adaptBlock_payload (a : ToolCalls) {block : List Bytes} {payload : Bytes}
    (hb : LastBlock isBlankSSELine block) (hp : payloadOf block = some payload) :
    (adaptBlock a block).2 = observe a payload ∧
      ∀ d, (step a (classify payload)).2 = some d →
        ∃ tail, (adaptBlock a block).1 = (argumentsDoneFrame d).flatten ++ tail := by
  rcases first_data block with hn | ⟨passed, line, post, rfl, hpassed, h⟩
  · rw [payloadOf_of_no_data hn] at hp
    cases hp
  · rw [payloadOf_eq post hpassed h, Option.some.injEq] at hp
    subst hp
    have hl : OneLine line := oneLine_of_isLines hb.2 line (by simp)
    rw [adaptBlock_eq a post hpassed h hl]
    refine ⟨rfl, fun d hd => ?_⟩
    rw [hd]
    exact ⟨_, rfl⟩

theorem adaptBlock_silent (a : ToolCalls) {block : List Bytes} (hp : payloadOf block = none) :
    (adaptBlock a block).2 = a := by
  have hn : ∀ x ∈ block, isDataLine x = false := by
    rw [payloadOf, Option.map_eq_none_iff, List.find?_eq_none] at hp
    exact fun x hx => by simpa using hp x hx
  rw [adaptBlock_of_no_data a hn]

theorem streamBlocks_last {isEnd : Bytes → Bool} {bs : List (List Bytes)}
    (h : StreamBlocks isEnd bs) : ∀ b ∈ bs, LastBlock isEnd b := by
  induction bs with
  | nil => simp
  | cons b bs ih =>
    cases bs with
    | nil => exact List.forall_mem_singleton.mpr h
    | cons c bs =>
      intro x hx
      cases List.mem_cons.mp hx with
      | inl hx => exact hx ▸ h.1.last
      | inr hx => exact ih h.2 x hx

/-- The calls after some blocks are those that the machine keeps. -/
theorem afterBlocks_seen (a : ToolCalls) {bs : List (List Bytes)}
    (h : ∀ b ∈ bs, LastBlock isBlankSSELine b) : afterBlocks a bs = (seen bs).foldl observe a := by
  induction bs generalizing a with
  | nil => rfl
  | cons b bs ih =>
    have hbs := ih (adaptBlock a b).2 fun x hx => h x (by simp [hx])
    simp only [afterBlocks, List.foldl_cons] at hbs ⊢
    rw [hbs]
    cases hp : payloadOf b with
    | none => rw [adaptBlock_silent a hp, seen, seen, List.filterMap_cons_none hp]
    | some p =>
      rw [(adaptBlock_payload a (h b (by simp)) hp).1, seen, seen, List.filterMap_cons_some hp,
        List.foldl_cons]

/-! ## The state of an open call -/

/-- The event ends the life of call `k`. -/
def Closes (k : Text) (payload : Bytes) : Prop :=
  (∃ e, classify payload = .argumentsDone e ∧ e.itemID = k) ∨
    ∃ c, classify payload = .finished c ∧ c.itemID = k

def IsOpen (k : Text) (ps : List Bytes) : Prop := ∀ p ∈ ps, ¬ Closes k p

/-- The index that a delta of call `k` leaves. -/
def deltaIndex (k : Text) (index : Int64) (payload : Bytes) : Int64 :=
  match classify payload with
  | .argumentsDelta e => if e.itemID = k then e.outputIndex else index
  | _ => index

/-- The index in the last delta of call `k`; zero where there is none. -/
def lastDelta (k : Text) (ps : List Bytes) : Int64 := ps.foldl (deltaIndex k) 0

/-- What the adapter knows of a call after some events. -/
def Knows (a : ToolCalls) (ps : List Bytes) : Prop :=
  ∀ k, k ≠ [] → ((stateOf a k).argumentsDone = false ↔ IsOpen k ps) ∧
    (IsOpen k ps → (stateOf a k).outputIndex = lastDelta k ps)

theorem knows_nil : Knows [] [] := by
  intro k _
  simp [stateOf, IsOpen, lastDelta]

theorem isOpen_snoc {k : Text} {ps : List Bytes} {p : Bytes} :
    IsOpen k (ps ++ [p]) ↔ IsOpen k ps ∧ ¬ Closes k p := by
  simp only [IsOpen, List.mem_append, List.mem_singleton]
  constructor
  · exact fun h => ⟨fun q hq => h q (.inl hq), h p (.inr rfl)⟩
  · rintro ⟨h, hp⟩ q (hq | rfl)
    · exact h q hq
    · exact hp

theorem lastDelta_snoc (k : Text) (ps : List Bytes) (p : Bytes) :
    lastDelta k (ps ++ [p]) = deltaIndex k (lastDelta k ps) p := by
  rw [lastDelta, List.foldl_append]
  rfl

/-- An event that leaves a call alone. -/
theorem knows_quiet {a a' : ToolCalls} {ps : List Bytes} {p : Bytes} {k : Text}
    (h : ((stateOf a k).argumentsDone = false ↔ IsOpen k ps) ∧
      (IsOpen k ps → (stateOf a k).outputIndex = lastDelta k ps))
    (hs : stateOf a' k = stateOf a k) (hc : ¬ Closes k p)
    (hd : deltaIndex k (lastDelta k ps) p = lastDelta k ps) :
    ((stateOf a' k).argumentsDone = false ↔ IsOpen k (ps ++ [p])) ∧
      (IsOpen k (ps ++ [p]) → (stateOf a' k).outputIndex = lastDelta k (ps ++ [p])) := by
  rw [hs, isOpen_snoc, lastDelta_snoc, hd]
  exact ⟨h.1.trans ⟨fun ho => ⟨ho, hc⟩, And.left⟩, fun ho => h.2 ho.1⟩

/-- An event that closes a call. -/
theorem knows_close {a' : ToolCalls} {ps : List Bytes} {p : Bytes} {k : Text}
    (hs : (stateOf a' k).argumentsDone = true) (hc : Closes k p) :
    ((stateOf a' k).argumentsDone = false ↔ IsOpen k (ps ++ [p])) ∧
      (IsOpen k (ps ++ [p]) → (stateOf a' k).outputIndex = lastDelta k (ps ++ [p])) := by
  rw [hs, isOpen_snoc]
  exact ⟨⟨by simp, fun ho => absurd hc ho.2⟩, fun ho => absurd hc ho.2⟩

/-- Step lemma: what the adapter knows stays right. -/
theorem knows_observe {a : ToolCalls} {ps : List Bytes} (h : Knows a ps) (p : Bytes) :
    Knows (observe a p) (ps ++ [p]) := by
  intro k hk
  have hat := h k hk
  cases hc : classify p with
  | other =>
    apply knows_quiet hat
    · rw [observe, hc]
      rfl
    · simp [Closes, hc]
    · rw [deltaIndex, hc]
  | argumentsDelta e =>
    have hnot : ¬ Closes k p := by simp [Closes, hc]
    by_cases he : e.itemID = []
    · apply knows_quiet hat
      · simp only [observe, hc, step, if_pos he]
      · exact hnot
      · rw [deltaIndex, hc]
        exact if_neg fun hek => hk (hek.symm.trans he)
    · by_cases hek : e.itemID = k
      · subst hek
        have hs : stateOf (observe a p) e.itemID =
            { stateOf a e.itemID with
              itemID := e.itemID
              outputIndex := e.outputIndex
              sequence := e.sequence
              arguments := (stateOf a e.itemID).arguments ++ e.delta } := by
          simp only [observe, hc, step, if_neg he]
          rw [stateOf_store, if_pos rfl]
        rw [hs, isOpen_snoc, lastDelta_snoc]
        refine ⟨hat.1.trans ⟨fun ho => ⟨ho, hnot⟩, And.left⟩, fun _ => ?_⟩
        rw [deltaIndex, hc]
        exact (if_pos rfl).symm
      · apply knows_quiet hat
        · simp only [observe, hc, step, if_neg he]
          rw [stateOf_store, if_neg fun h => hek h.symm]
        · exact hnot
        · rw [deltaIndex, hc]
          exact if_neg hek
  | argumentsDone e =>
    have hd : ∀ i, deltaIndex k i p = i := fun i => by rw [deltaIndex, hc]
    by_cases he : e.itemID = []
    · apply knows_quiet hat _ _ (hd _)
      · simp only [observe, hc, step, if_pos he]
      · simp only [Closes, hc]
        rintro (⟨x, hx, hxk⟩ | ⟨c, hx, -⟩)
        · cases hx
          exact hk (hxk.symm.trans he)
        · cases hx
    · by_cases hek : e.itemID = k
      · apply knows_close
        · simp only [observe, hc, step, if_neg he]
          rw [stateOf_store, if_pos hek.symm]
        · exact .inl ⟨e, hc, hek⟩
      · apply knows_quiet hat _ _ (hd _)
        · simp only [observe, hc, step, if_neg he]
          rw [stateOf_store, if_neg fun h => hek h.symm]
        · simp only [Closes, hc]
          rintro (⟨x, hx, hxk⟩ | ⟨c, hx, -⟩)
          · cases hx
            exact hek hxk
          · cases hx
  | finished c =>
    have hd : ∀ i, deltaIndex k i p = i := fun i => by rw [deltaIndex, hc]
    by_cases hck : c.itemID = k
    · apply knows_close
      · by_cases hdone : (stateOf a c.itemID).argumentsDone = true
        · simp only [observe, hc, step, if_pos hdone]
          exact hck ▸ hdone
        · simp only [observe, hc, step, if_neg hdone]
          rw [stateOf_store, if_pos hck.symm]
          rfl
      · exact .inr ⟨c, hc, hck⟩
    · apply knows_quiet hat _ _ (hd _)
      · by_cases hdone : (stateOf a c.itemID).argumentsDone = true
        · simp only [observe, hc, step, if_pos hdone]
        · simp only [observe, hc, step, if_neg hdone]
          rw [stateOf_store, if_neg fun h => hck h.symm]
      · simp only [Closes, hc]
        rintro (⟨e, hx, -⟩ | ⟨x, hx, hxk⟩)
        · cases hx
        · cases hx
          exact hck hxk

/-- Run lemma: what the adapter knows after any events. -/
theorem knows_seen (ps : List Bytes) : Knows (ps.foldl observe []) ps := by
  induction ps using List.reverseRecOn with
  | nil => exact knows_nil
  | append_singleton ps p ih =>
    rw [List.foldl_append]
    exact knows_observe ih p

/-! ## Positions -/

/-- The event of the block says that an item is done, however its data is spelled. -/
def isItemDone (block : List Bytes) : Bool :=
  (SseGrammar.eventOf block).any fun e => decide (eventType e.data = some outputItemDoneType)

/-- The number of items that are done after some blocks. -/
def position (pre : List (List Bytes)) : Nat := pre.countP isItemDone

/-- A finished function call, after the blocks `pre`. -/
def CallAfter (src : Source) (pre : List (List Bytes)) (c : FinishedCall) : Prop :=
  ∃ b post p, blocks src = pre ++ b :: post ∧ payloadOf b = some p ∧ classify p = .finished c

/-- The adapter writes the synthesized event `d` for item number `i`. -/
def Synthesized (src : Source) (i : Nat) (d : ResponseFunctionCallArgumentsDoneEvent) : Prop :=
  ∃ pre b post p tail, blocks src = pre ++ b :: post ∧ position pre = i ∧
    payloadOf b = some p ∧ (step (afterBlocks [] pre) (classify p)).2 = some d ∧
    (adaptBlock (afterBlocks [] pre) b).1 = (argumentsDoneFrame d).flatten ++ tail

/-- Where upstream gives an index, it is the position of the item. -/
def IndexedByPosition (src : Source) : Prop :=
  ∀ pre c, CallAfter src pre c → IsOpen c.itemID (seen pre) →
    (c.event.outputIndex = none ∨ c.event.outputIndex.map Int64.toInt = some (position pre : Int)) ∧
      ∀ p ∈ seen pre, ∀ e, classify p = .argumentsDelta e → e.itemID = c.itemID →
        e.outputIndex = 0 ∨ e.outputIndex.toInt = position pre

/-- Every open call behind the first item has its index in the event that
finishes it, or in its last delta. -/
def Located (src : Source) : Prop :=
  ∀ pre c, CallAfter src pre c → IsOpen c.itemID (seen pre) →
    position pre = 0 ∨ c.event.outputIndex ≠ none ∨ lastDelta c.itemID (seen pre) ≠ 0

theorem lastDelta_cases {k : Text} {ps : List Bytes} {i : Int}
    (h : ∀ p ∈ ps, ∀ e, classify p = .argumentsDelta e → e.itemID = k →
      e.outputIndex = 0 ∨ e.outputIndex.toInt = i) :
    lastDelta k ps = 0 ∨ (lastDelta k ps).toInt = i := by
  induction ps using List.reverseRecOn with
  | nil => exact .inl rfl
  | append_singleton ps p ih =>
    have hps := ih fun q hq => h q (by simp [hq])
    rw [lastDelta_snoc]
    cases hc : classify p with
    | argumentsDelta e =>
      rw [deltaIndex, hc]
      by_cases he : e.itemID = k
      · simp only [if_pos he]
        exact h p (by simp) e hc he
      · simp only [if_neg he]
        exact hps
    | other => rwa [deltaIndex, hc]
    | argumentsDone e => rwa [deltaIndex, hc]
    | finished c => rwa [deltaIndex, hc]

/-- The event for an open call, and where its index comes from. -/
theorem synthesized_of_call {src : Source} {pre : List (List Bytes)} {c : FinishedCall}
    (h : CallAfter src pre c) (ho : IsOpen c.itemID (seen pre)) :
    ∃ d, Synthesized src (position pre) d ∧
      d.outputIndex = c.event.outputIndex.getD (lastDelta c.itemID (seen pre)) := by
  obtain ⟨b, post, p, hsplit, hp, hc⟩ := h
  have hlast := streamBlocks_last (blocks_stream src)
  rw [hsplit] at hlast
  have hpre : afterBlocks [] pre = (seen pre).foldl observe [] :=
    afterBlocks_seen [] fun x hx => hlast x (List.mem_append_left _ hx)
  obtain ⟨hdone, hindex⟩ := knows_seen (seen pre) c.itemID c.itemID_ne
  rw [← hpre] at hdone hindex
  have hstep : (step (afterBlocks [] pre) (classify p)).2 =
      some (c.close (stateOf (afterBlocks [] pre) c.itemID)).doneEvent := by
    have hnot : ¬ (stateOf (afterBlocks [] pre) c.itemID).argumentsDone = true := by
      simp [hdone.mpr ho]
    simp only [hc, step, if_neg hnot]
  obtain ⟨tail, htail⟩ :=
    (adaptBlock_payload (afterBlocks [] pre) (hlast b (by simp)) hp).2 _ hstep
  refine ⟨_, ⟨pre, b, post, p, tail, hsplit, rfl, hp, hstep, htail⟩, ?_⟩
  rw [← hindex ho]
  rfl

theorem call_of_synthesized {src : Source} {i : Nat} {d : ResponseFunctionCallArgumentsDoneEvent}
    (h : Synthesized src i d) :
    ∃ pre c, CallAfter src pre c ∧ IsOpen c.itemID (seen pre) ∧ position pre = i ∧
      d.outputIndex = c.event.outputIndex.getD (lastDelta c.itemID (seen pre)) := by
  obtain ⟨pre, b, post, p, tail, hsplit, hi, hp, hstep, -⟩ := h
  obtain ⟨c, hc, hopen, rfl⟩ := classify_of_step hstep
  have hlast := streamBlocks_last (blocks_stream src)
  rw [hsplit] at hlast
  have hpre : afterBlocks [] pre = (seen pre).foldl observe [] :=
    afterBlocks_seen [] fun x hx => hlast x (List.mem_append_left _ hx)
  obtain ⟨hdone, hindex⟩ := knows_seen (seen pre) c.itemID c.itemID_ne
  rw [← hpre] at hdone hindex
  have ho := hdone.mp hopen
  refine ⟨pre, c, ⟨b, post, p, hsplit, hp, hc⟩, ho, hi, ?_⟩
  rw [← hindex ho]
  rfl

/-- Synthesized events carry the positions of their items exactly when every open
call behind the first item has its index from upstream. -/
theorem copyResponsesSSE_outputIndex (src : Source) (h : IndexedByPosition src) :
    ((∀ i d, Synthesized src i d → d.outputIndex.toInt = i) ∧
      ∀ i j d e, Synthesized src i d → Synthesized src j e → i ≠ j →
        d.outputIndex ≠ e.outputIndex) ↔ Located src := by
  constructor
  · rintro ⟨hright, -⟩ pre c hc ho
    obtain ⟨d, hd, hindex⟩ := synthesized_of_call hc ho
    have hi := hright _ d hd
    by_cases hnone : c.event.outputIndex = none
    · rw [hindex, hnone, Option.getD_none] at hi
      by_cases hzero : lastDelta c.itemID (seen pre) = 0
      · rw [hzero] at hi
        exact .inl (by simpa using hi.symm)
      · exact .inr (.inr hzero)
    · exact .inr (.inl hnone)
  · intro hl
    have hright : ∀ i d, Synthesized src i d → d.outputIndex.toInt = i := by
      intro i d hd
      obtain ⟨pre, c, hc, ho, rfl, hindex⟩ := call_of_synthesized hd
      obtain ⟨hevent, hdelta⟩ := h pre c hc ho
      rw [hindex]
      rcases hevent with hnone | hsome
      · rw [hnone, Option.getD_none]
        rcases hl pre c hc ho with hzero | hsent | hne
        · rcases lastDelta_cases hdelta with hd0 | hdi
          · rw [hd0, hzero]
            rfl
          · exact hdi
        · exact absurd hnone hsent
        · exact (lastDelta_cases hdelta).resolve_left hne
      · obtain ⟨j, hj, hji⟩ := Option.map_eq_some_iff.mp hsome
        rw [hj, Option.getD_some, hji]
    refine ⟨hright, fun i j d e hd he hij heq => hij ?_⟩
    have hdi := hright i d hd
    rw [heq, hright j e he] at hdi
    exact_mod_cast hdi.symm

def messagePayload : Bytes :=
  ascii "\x7b\"type\":\"response.output_item.done\",\"item\":\x7b\"type\":\"message\"\x7d\x7d"

/-- The response with both items. -/
def completedPayload : Bytes :=
  ascii "\x7b\"type\":\"response.completed\",\"response\":\x7b\"output\":[\x7b\"type\":\"message\"\x7d," ++
    ascii "\x7b\"type\":\"function_call\",\"id\":\"fc\",\"name\":\"f\",\"arguments\":\"1\"\x7d]\x7d\x7d"

def blockOf (payload : Bytes) : List Bytes := [dataField ++ payload ++ [lf], [lf]]

/-- A message and then a function call, without indices as llama.cpp sends them. -/
def sampleMessage : Source :=
  ⟨(blockOf messagePayload).flatten ++ (blockOf callPayload).flatten ++ (blockOf completedPayload).flatten, .eof⟩

theorem blocks_sampleMessage :
    blocks sampleMessage = [blockOf messagePayload, blockOf callPayload, blockOf completedPayload] := by
  decide +kernel

theorem payloadOf_message : payloadOf (blockOf messagePayload) = some messagePayload := by
  decide +kernel

theorem payloadOf_call : payloadOf (blockOf callPayload) = some callPayload := by decide +kernel

theorem payloadOf_completed : payloadOf (blockOf completedPayload) = some completedPayload := by decide +kernel

theorem classify_message : classify messagePayload = .other := by
  have htype : eventType messagePayload = some outputItemDoneType := by decide +kernel
  have h : (finishedCall messagePayload).isNone = true := by decide +kernel
  rw [classify_itemDone htype, Option.isNone_iff_eq_none.mp h, Option.map_none, Option.getD_none]

theorem classify_completed : classify completedPayload = .other := by
  have htype : eventType completedPayload = some responseCompleted := by decide +kernel
  have h₁ : responseCompleted ≠ argumentsDeltaType := by decide
  have h₂ : responseCompleted ≠ responseFunctionCallArgumentsDone := by decide
  have h₃ : responseCompleted ≠ outputItemDoneType := by decide
  simp only [classify, htype, if_neg h₁, if_neg h₂, if_neg h₃]

/-- The one call of the stream, and what stands before it. -/
theorem callAfter_sampleMessage {pre : List (List Bytes)} {c : FinishedCall}
    (h : CallAfter sampleMessage pre c) :
    pre = [blockOf messagePayload] ∧ classify callPayload = .finished c := by
  obtain ⟨b, post, p, hsplit, hp, hc⟩ := h
  rw [blocks_sampleMessage] at hsplit
  rcases pre with _ | ⟨x, _ | ⟨y, _ | ⟨z, pre⟩⟩⟩
  · simp only [List.nil_append, List.cons.injEq] at hsplit
    rw [← hsplit.1, payloadOf_message, Option.some.injEq] at hp
    rw [← hp, classify_message] at hc
    cases hc
  · simp only [List.cons_append, List.nil_append, List.cons.injEq] at hsplit
    rw [← hsplit.2.1, payloadOf_call, Option.some.injEq] at hp
    exact ⟨by rw [hsplit.1], hp ▸ hc⟩
  · simp only [List.cons_append, List.nil_append, List.cons.injEq] at hsplit
    rw [← hsplit.2.2.1, payloadOf_completed, Option.some.injEq] at hp
    rw [← hp, classify_completed] at hc
    cases hc
  · have hlen := congrArg List.length hsplit
    simp at hlen

theorem seen_message : seen [blockOf messagePayload] = [messagePayload] := by
  rw [seen, List.filterMap_cons_some payloadOf_message, List.filterMap_nil]

theorem call_index {c : FinishedCall} (h : classify callPayload = .finished c) :
    c.event.outputIndex = none := by
  have hindex : (finishedCall callPayload).map (fun c => c.event.outputIndex) = some none := by
    decide +kernel
  simpa only [finishedCall_of_classify h, Option.map_some, Option.some.injEq] using hindex

theorem sampleMessage_indexed : IndexedByPosition sampleMessage := by
  intro pre c h _
  obtain ⟨rfl, hc⟩ := callAfter_sampleMessage h
  refine ⟨.inl (call_index hc), fun p hp e he _ => ?_⟩
  rw [seen_message, List.mem_singleton] at hp
  rw [hp, classify_message] at he
  cases he

theorem copyResponsesSSE_outputIndex_sampleMessage :
    ((∀ i d, Synthesized sampleMessage i d → d.outputIndex.toInt = i) ∧
      ∀ i j d e, Synthesized sampleMessage i d → Synthesized sampleMessage j e → i ≠ j →
        d.outputIndex ≠ e.outputIndex) ↔ Located sampleMessage :=
  copyResponsesSSE_outputIndex sampleMessage sampleMessage_indexed

/-- The compact text of a member. -/
def member (k : Text) (data : Bytes) : Option Bytes :=
  (unmarshal decodeRawMap data).bind fun m => (GoMap.get k m).map print

/-- The items that are done are, one by one, those of the response that the stream ends with. -/
def CarriesOutput (src : Source) : Prop := ∃ items : List Json,
  ((blocks src).filter isItemDone).map (fun b => (SseGrammar.eventOf b).bind fun e => member "item".toList e.data) =
      items.map (fun item => some (print item)) ∧
    ∃ b e, (blocks src).getLast? = some b ∧ SseGrammar.eventOf b = some e ∧ eventType e.data = some responseCompleted ∧
      (member "response".toList e.data).bind (member "output".toList) = some (print (.arr items))

def messageItem : Json := .obj [(quote "type".toList, .str (quote "message".toList))]

def callItem : Json :=
  .obj [(quote "type".toList, .str (quote "function_call".toList)), (quote "id".toList, .str (quote "fc".toList)),
    (quote "name".toList, .str (quote "f".toList)), (quote "arguments".toList, .str (quote "1".toList))]

theorem sampleMessage_carries : CarriesOutput sampleMessage :=
  ⟨[messageItem, callItem], by decide +kernel, blockOf completedPayload, ⟨[], completedPayload, none⟩,
    by decide +kernel, by decide +kernel, by decide +kernel, by decide +kernel⟩

/-- The call is item number one, and its synthesized event says zero. -/
theorem copyResponsesSSE_outputIndex_broken : CarriesOutput sampleMessage ∧ IndexedByPosition sampleMessage ∧
    ∃ d, Synthesized sampleMessage 1 d ∧ d.outputIndex = 0 := by
  refine ⟨sampleMessage_carries, sampleMessage_indexed, ?_⟩
  have hfin : (finishedCall callPayload).isSome = true := by decide +kernel
  obtain ⟨c, hf⟩ := Option.isSome_iff_exists.mp hfin
  have hc : classify callPayload = .finished c := by
    have htype : eventType callPayload = some outputItemDoneType := by decide +kernel
    rw [classify_itemDone htype, hf, Option.map_some, Option.getD_some]
  have hcall : CallAfter sampleMessage [blockOf messagePayload] c :=
    ⟨blockOf callPayload, [blockOf completedPayload], callPayload, blocks_sampleMessage, payloadOf_call, hc⟩
  have hquiet : ∀ k, deltaIndex k 0 messagePayload = 0 := fun k => by
    rw [deltaIndex, classify_message]
  have hopen : IsOpen c.itemID (seen [blockOf messagePayload]) := by
    rw [seen_message]
    intro p hp
    rw [List.mem_singleton.mp hp, Closes, classify_message]
    simp
  obtain ⟨d, hd, hindex⟩ := synthesized_of_call hcall hopen
  have hposition : position [blockOf messagePayload] = 1 := by decide +kernel
  rw [hposition] at hd
  refine ⟨d, hd, ?_⟩
  rw [hindex, call_index hc, seen_message, Option.getD_none, lastDelta, List.foldl_cons,
    List.foldl_nil, hquiet]

end ResponsesOutputIndex
