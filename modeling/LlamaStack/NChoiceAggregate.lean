import LlamaStack.NChoiceUsage
import LlamaStack.NChoiceIndices

/-!
# The aggregated body

One body out of the bodies of several answers: when it fails, and what the client
reads in it.
-/
namespace NChoiceAggregate

open GoBytes GoFloat64 GoJson GoMap NChoiceSse NChoiceStream NChoices NChoiceUsage
open NChoiceIndices (length_numberFrom getElem?_numberFrom numberFrom_append)

variable (jsonError : Bytes → Bytes)

def payloadOf (body : Bytes) : Entries Value := (unmarshal decodeMap body).getD []

/-- A body with a choices array. -/
def IsAnswer (body : Bytes) : Prop :=
  ∃ m cs, unmarshal decodeMap body = some m ∧ get choicesKey m = some (.arr cs)

def choicesOf (body : Bytes) : List Value :=
  match get choicesKey (payloadOf body) with
  | some (.arr cs) => cs
  | _ => []

def usageOf (body : Bytes) : Option (Entries Value) :=
  match get usageKey (payloadOf body) with
  | some (.obj m) => some m
  | _ => none

/-- The usage objects of the bodies. -/
def usages (bodies : List Bytes) : List (Entries Value) := bodies.filterMap usageOf

/-- The same choice, with the index `q` if it is an object. -/
def Renumbered (q : Nat) (c c' : Value) : Prop :=
  match c with
  | .obj m => ∃ m', c' = .obj m' ∧ get indexKey m' = some (.num (ofInt64 (Int64.ofNat q))) ∧
      ∀ k, k ≠ indexKey → get k m' = get k m
  | c => c' = c

/-- What the client reads: the choices of all bodies in a row, the fields of the first,
and at each path of the usage the total of the bodies. -/
structure Aggregates (first : Bytes) (rest : List Bytes) (out : Entries Value) : Prop where
  choices : ∃ cs, get choicesKey out = some (.arr cs) ∧
    cs.length = ((first :: rest).flatMap choicesOf).length ∧
      ∀ q c, ((first :: rest).flatMap choicesOf)[q]? = some c → ∃ c', cs[q]? = some c' ∧ Renumbered q c c'
  fields : ∀ k, k ≠ choicesKey → k ≠ usageKey → get k out = get k (payloadOf first)
  untouched : usages (first :: rest) = [] → get usageKey out = get usageKey (payloadOf first)
  sums : usages (first :: rest) ≠ [] → Summable (usages (first :: rest)) →
    ∃ u, get usageKey out = some u ∧ ∀ p, kindOf p u = total (kindsAt p (usages (first :: rest)))

/-! ## Gathering -/

/-- What is gathered when each body is an answer. -/
def gathered (g : Gathered) (bodies : List Bytes) : Gathered where
  out := g.out.or (bodies.head?.map payloadOf)
  choices := g.choices ++ numberFrom g.choices.length (bodies.flatMap choicesOf)
  usage := (usages bodies).foldl (fun u m => some (mergeUsage (u.getD []) m)) g.usage

theorem gather_isAnswer (g : Gathered) {body : Bytes} (h : IsAnswer body) :
    gather jsonError g body = .ok (gathered g [body]) := by
  obtain ⟨m, cs, hm, hcs⟩ := h
  have hpayload : payloadOf body = m := by rw [payloadOf, hm, Option.getD_some]
  unfold gather gathered
  simp only [hm, hcs, Except.ok.injEq]
  have hchoices : choicesOf body = cs := by simp only [choicesOf, hpayload, hcs]
  have hout : some (g.out.getD m) = g.out.or ([body].head?.map payloadOf) := by
    cases g.out <;> simp [hpayload]
  rw [hout, List.flatMap_singleton, hchoices]
  congr 1
  unfold usages usageOf
  rw [List.filterMap_cons, List.filterMap_nil, hpayload]
  cases get usageKey m with
  | none => rfl
  | some v => cases v <;> rfl

theorem gather_not_isAnswer (g : Gathered) {body : Bytes} (h : ¬ IsAnswer body) :
    ∃ e, gather jsonError g body = .error e := by
  unfold gather
  cases hm : unmarshal decodeMap body with
  | none => exact ⟨_, rfl⟩
  | some m =>
    simp only
    split
    · rename_i cs hcs
      exact absurd ⟨m, cs, hm, hcs⟩ h
    · exact ⟨_, rfl⟩

theorem gathered_cons (g : Gathered) (body : Bytes) (bodies : List Bytes) :
    gathered (gathered g [body]) bodies = gathered g (body :: bodies) := by
  unfold gathered
  congr 1
  · cases g.out <;> simp
  · rw [List.flatMap_singleton, List.flatMap_cons, numberFrom_append, List.length_append, length_numberFrom,
      List.append_assoc]
  · unfold usages
    rw [List.filterMap_cons, List.filterMap_nil, List.filterMap_cons]
    cases usageOf body <;> rfl

theorem gatherAll_isAnswer (g : Gathered) {bodies : List Bytes} (h : ∀ b ∈ bodies, IsAnswer b) :
    gatherAll jsonError g bodies = .ok (gathered g bodies) := by
  induction bodies generalizing g with
  | nil =>
    unfold gathered
    simp [gatherAll, usages, numberFrom]
  | cons body bodies ih =>
    have hrest := ih (gathered g [body]) fun b hb => h b (by simp [hb])
    rw [gathered_cons] at hrest
    rw [gatherAll, gather_isAnswer jsonError g (h body (by simp))]
    exact hrest

theorem gatherAll_not_isAnswer (g : Gathered) {bodies : List Bytes} (h : ∃ b ∈ bodies, ¬ IsAnswer b) :
    ∃ e, gatherAll jsonError g bodies = .error e := by
  induction bodies generalizing g with
  | nil => simp at h
  | cons body bodies ih =>
    rw [gatherAll]
    by_cases hbody : IsAnswer body
    · rw [gather_isAnswer jsonError g hbody]
      have hrest : ∃ b ∈ bodies, ¬ IsAnswer b := by simpa [hbody] using h
      exact ih _ hrest
    · obtain ⟨e, he⟩ := gather_not_isAnswer jsonError g hbody
      exact ⟨e, by rw [he]⟩

theorem foldl_merge (ms : List (Entries Value)) (u : Option (Entries Usage)) :
    ms.foldl (fun u m => some (mergeUsage (u.getD []) m)) u =
      if ms = [] then u else some (ms.foldl mergeUsage (u.getD [])) := by
  induction ms generalizing u with
  | nil => rfl
  | cons m ms ih =>
    rw [List.foldl_cons, ih, List.foldl_cons]
    by_cases h : ms = []
    · subst h
      rfl
    · simp [h]

/-! ## The body that is written -/

/-- The fields of the first body with all choices. -/
def withAllChoices (first : Bytes) (bodies : List Bytes) : Entries Value :=
  store choicesKey (.arr (numberFrom 0 (bodies.flatMap choicesOf))) (payloadOf first)

theorem aggregate_isAnswer {first : Bytes} {rest : List Bytes} (h : ∀ b ∈ first :: rest, IsAnswer b) :
    aggregateNChoiceBodies jsonError (first :: rest) =
      if usages (first :: rest) = [] then .ok (print (encodeValue (.obj (withAllChoices first (first :: rest)))))
      else
        match Usage.values (merged (usages (first :: rest))) with
        | none => .error (unsupportedValue (merged (usages (first :: rest))))
        | some u =>
          .ok (print (encodeValue (.obj (store usageKey (.obj u) (withAllChoices first (first :: rest)))))) := by
  have hgathered := gatherAll_isAnswer jsonError {} h
  have hout : (gathered {} (first :: rest)).out.getD [] = payloadOf first := rfl
  have hchoices : (gathered {} (first :: rest)).choices = numberFrom 0 ((first :: rest).flatMap choicesOf) := by
    simp [gathered]
  have husage : (gathered {} (first :: rest)).usage =
      if usages (first :: rest) = [] then none else some (merged (usages (first :: rest))) := foldl_merge _ _
  unfold aggregateNChoiceBodies
  rw [if_neg (List.cons_ne_nil _ _), hgathered]
  simp only [hout, hchoices, husage]
  by_cases hu : usages (first :: rest) = []
  · simp only [if_pos hu]
    rfl
  · simp only [if_neg hu]
    rfl

theorem read_payloadOf {body : Bytes} (h : IsAnswer body) : Read (.obj (payloadOf body)) := by
  obtain ⟨m, cs, hm, -⟩ := h
  rw [payloadOf, hm, Option.getD_some]
  obtain ⟨j, -, hj⟩ := Option.bind_eq_some_iff.mp hm
  exact decodeMap_canonical hj

theorem read_usages {bodies : List Bytes} (h : ∀ b ∈ bodies, IsAnswer b) :
    ∀ m ∈ usages bodies, Read (.obj m) := by
  intro m hm
  obtain ⟨b, hb, hu⟩ := List.mem_filterMap.mp hm
  unfold usageOf at hu
  split at hu
  · rename_i hget
    cases hu
    exact (read_payloadOf (h b hb)).member _ (mem_of_get hget)
  · cases hu

theorem read_choices {bodies : List Bytes} (h : ∀ b ∈ bodies, IsAnswer b) :
    ∀ c ∈ bodies.flatMap choicesOf, Read c := by
  intro c hc
  obtain ⟨b, hb, hc⟩ := List.mem_flatMap.mp hc
  unfold choicesOf at hc
  split at hc
  · rename_i hget
    exact Read.item ((read_payloadOf (h b hb)).member _ (mem_of_get hget)) c hc
  · simp at hc

theorem renumbered_setIndex (q : Nat) {c : Value} (h : Read c) :
    Renumbered q c (asFloat (setIndex (.int (Int64.ofNat q)) c)) := by
  rw [(setIndex_spec h.1 h.2 _).2]
  cases c with
  | obj m => exact ⟨_, rfl, get_store_self _ _ _, fun k hk => get_store_ne hk _ _⟩
  | _ => rfl

/-- The choices as they are read back. -/
def readChoices (bodies : List Bytes) : List Value := (numberFrom 0 (bodies.flatMap choicesOf)).map asFloat

theorem readChoices_spec {bodies : List Bytes} (h : ∀ b ∈ bodies, IsAnswer b) :
    (readChoices bodies).length = (bodies.flatMap choicesOf).length ∧
      ∀ q c, (bodies.flatMap choicesOf)[q]? = some c →
        ∃ c', (readChoices bodies)[q]? = some c' ∧ Renumbered q c c' := by
  unfold readChoices
  constructor
  · rw [List.length_map, length_numberFrom]
  · intro q c hc
    rw [List.getElem?_map, getElem?_numberFrom, hc, Nat.zero_add, Option.map_some, Option.map_some]
    exact ⟨_, rfl, renumbered_setIndex q (read_choices h c (List.mem_of_getElem? hc))⟩

theorem canonical_store (k : Text) {v : Value} (hv : Canonical v) {m : Entries Value} (hm : Canonical (.obj m)) :
    Canonical (.obj (store k v m)) := by
  refine ⟨store_sorted k v hm.1, canonicalMembers_iff.mpr fun e he => ?_⟩
  cases mem_store he with
  | inl he => exact he ▸ hv
  | inr he => exact canonicalMembers_iff.mp hm.2 e he

theorem canonical_withAllChoices {first : Bytes} {rest : List Bytes} (h : ∀ b ∈ first :: rest, IsAnswer b) :
    Canonical (.obj (withAllChoices first (first :: rest))) := by
  have hchoices : Canonical (.arr (numberFrom 0 ((first :: rest).flatMap choicesOf))) := by
    refine canonicalItems_iff.mpr fun c hc => ?_
    obtain ⟨q, hq⟩ := List.getElem?_of_mem hc
    rw [getElem?_numberFrom] at hq
    obtain ⟨c', hc', rfl⟩ := Option.map_eq_some_iff.mp hq
    have hread := read_choices h c' (List.mem_of_getElem? hc')
    exact (setIndex_spec hread.1 hread.2 _).1
  exact canonical_store _ hchoices (read_payloadOf (h first (by simp))).1

theorem readObject_encode {m : Entries Value} (h : Canonical (.obj m)) :
    readObject (print (encodeValue (.obj m))) = some (mapValues asFloat m) := by
  rw [readObject, parse_print, Option.bind_some, decodeMap_encode h]

/-- The fields that are read back where no usage is written. -/
theorem mapValues_withAllChoices {first : Bytes} {rest : List Bytes} (h : ∀ b ∈ first :: rest, IsAnswer b) :
    mapValues asFloat (withAllChoices first (first :: rest)) =
      store choicesKey (.arr (readChoices (first :: rest))) (payloadOf first) := by
  have hfloat := (read_payloadOf (h first (by simp))).2
  rw [withAllChoices, mapValues_store, asFloat_obj hfloat, asFloat, asFloatItems_eq]
  rfl

theorem aggregates_isAnswer {first : Bytes} {rest : List Bytes} (h : ∀ b ∈ first :: rest, IsAnswer b) {out : Bytes}
    (hout : aggregateNChoiceBodies jsonError (first :: rest) = .ok out) :
    ∃ m, readObject out = some m ∧ Aggregates first rest m := by
  have hcan := canonical_withAllChoices h
  have hchoices := readChoices_spec h
  have hkeys : choicesKey ≠ usageKey := by decide
  rw [aggregate_isAnswer jsonError h] at hout
  by_cases hu : usages (first :: rest) = []
  · rw [if_pos hu] at hout
    cases hout
    refine ⟨_, readObject_encode hcan, ?_⟩
    rw [mapValues_withAllChoices h]
    constructor
    · exact ⟨_, get_store_self _ _ _, hchoices⟩
    · exact fun k hk _ => get_store_ne hk _ _
    · exact fun _ => get_store_ne hkeys.symm _ _
    · exact fun hne => absurd hu hne
  · rw [if_neg hu] at hout
    cases hvs : Usage.values (merged (usages (first :: rest))) with
    | none =>
      rw [hvs] at hout
      cases hout
    | some vs =>
      rw [hvs] at hout
      cases hout
      have hread := merged_read (read_usages h) hvs
      refine ⟨_, readObject_encode (canonical_store usageKey hread.1 hcan), ?_⟩
      rw [mapValues_store, mapValues_withAllChoices h, hread.2]
      constructor
      · exact ⟨_, (get_store_ne hkeys _ _).trans (get_store_self _ _ _), hchoices⟩
      · exact fun k hk hk' => (get_store_ne hk' _ _).trans (get_store_ne hk _ _)
      · exact fun hempty => absurd hempty hu
      · exact fun hne hsum => ⟨_, get_store_self _ _ _, kindOf_merged hne (read_usages h) hsum hvs⟩

theorem aggregate_fails_iff (first : Bytes) (rest : List Bytes) :
    (∃ e, aggregateNChoiceBodies jsonError (first :: rest) = .error e) ↔
      (∃ b ∈ first :: rest, ¬ IsAnswer b) ∨ Overflow (.nested (merged (usages (first :: rest)))) := by
  by_cases hbad : ∃ b ∈ first :: rest, ¬ IsAnswer b
  · obtain ⟨e, he⟩ := gatherAll_not_isAnswer jsonError {} hbad
    have herror : aggregateNChoiceBodies jsonError (first :: rest) = .error e := by
      unfold aggregateNChoiceBodies
      rw [if_neg (List.cons_ne_nil _ _), he]
    exact ⟨fun _ => .inl hbad, fun _ => ⟨e, herror⟩⟩
  · have h : ∀ b ∈ first :: rest, IsAnswer b := fun b hb => by_contra fun hn => hbad ⟨b, hb, hn⟩
    have hvalues : Usage.values (merged (usages (first :: rest))) = none ↔
        Overflow (.nested (merged (usages (first :: rest)))) := by
      rw [← value_eq_none, Usage.value, Option.map_eq_none_iff]
    rw [or_iff_right hbad, ← hvalues, aggregate_isAnswer jsonError h]
    by_cases hu : usages (first :: rest) = []
    · rw [if_pos hu, hu]
      simp [merged, Usage.values]
    · rw [if_neg hu]
      cases Usage.values (merged (usages (first :: rest))) <;> simp

/-- Where all bodies are answers, the error names a sum that is no JSON number. -/
theorem aggregate_names_sum {first : Bytes} {rest : List Bytes} {e : Bytes}
    (h : ∀ b ∈ first :: rest, IsAnswer b) (he : aggregateNChoiceBodies jsonError (first :: rest) = .error e) :
    ∃ sum, Usage.unsupportedIn (merged (usages (first :: rest))) = some sum ∧
      e = ascii "json: unsupported value: " ++ sum := by
  rw [aggregate_isAnswer jsonError h] at he
  split at he
  · cases he
  · split at he
    next hnone =>
      have hsome := unsupportedIn_isSome (merged (usages (first :: rest)))
      rw [hnone, Option.isNone_none] at hsome
      obtain ⟨sum, hsum⟩ := Option.isSome_iff_exists.mp hsome
      cases he
      exact ⟨sum, hsum, by rw [unsupportedValue, hsum, Option.getD_some]⟩
    next => cases he

/-! ## The order of the bodies -/

theorem kindsAt_perm (p : List Text) {ms ms' : List (Entries Value)} (h : ms.Perm ms') :
    (kindsAt p ms).Perm (kindsAt p ms') := h.map _

theorem Summable.perm {ms ms' : List (Entries Value)} (h : Summable ms) (hp : ms.Perm ms') : Summable ms' := by
  constructor
  · intro p
    have hk := kindsAt_perm p hp
    cases h.uniform p with
    | inl hu => exact .inl fun k hm => hu k (hk.mem_iff.mpr hm)
    | inr hu => exact .inr fun k hm => hu k (hk.mem_iff.mpr hm)
  · exact fun p k hm => h.whole p k ((kindsAt_perm p hp).mem_iff.mpr hm)
  · intro p
    rw [← ((kindsAt_perm p hp).map _).sum_eq]
    exact h.bounded p

/-- Bodies in another order give the same usage, path by path. -/
def OrderFree (bodies : List Bytes) (out : Entries Value) : Prop :=
  ∀ bodies' out' m', bodies'.Perm bodies → aggregateNChoiceBodies jsonError bodies' = .ok out' →
    readObject out' = some m' → ∀ p, (get usageKey m').bind (kindOf p) = (get usageKey out).bind (kindOf p)

theorem orderFree_of_aggregates {first : Bytes} {rest : List Bytes} {m : Entries Value}
    (h : ∀ b ∈ first :: rest, IsAnswer b) (hm : Aggregates first rest m) (hne : usages (first :: rest) ≠ [])
    (hsum : Summable (usages (first :: rest))) : OrderFree jsonError (first :: rest) m := by
  intro bodies' out' m' hperm hout' hm' p
  obtain ⟨first', rest', rfl⟩ : ∃ first' rest', bodies' = first' :: rest' := by
    apply List.exists_cons_of_ne_nil
    rintro rfl
    exact absurd (List.nil_perm.mp hperm) (List.cons_ne_nil _ _)
  have husages : (usages (first' :: rest')).Perm (usages (first :: rest)) := hperm.filterMap _
  have hanswers : ∀ b ∈ first' :: rest', IsAnswer b := fun b hb => h b (hperm.mem_iff.mp hb)
  obtain ⟨m'', hread, haggregates⟩ := aggregates_isAnswer jsonError hanswers hout'
  obtain rfl := Option.some.inj (hm'.symm.trans hread)
  have hne' : usages (first' :: rest') ≠ [] := by
    intro hempty
    rw [hempty] at husages
    exact hne (List.nil_perm.mp husages)
  obtain ⟨u, hu, hkinds⟩ := hm.sums hne hsum
  obtain ⟨u', hu', hkinds'⟩ := haggregates.sums hne' (Summable.perm hsum husages.symm)
  rw [hu, hu', Option.bind_some, Option.bind_some, hkinds, hkinds', total_perm (kindsAt_perm p husages)]

/-- Aggregation fails exactly on a body without choices and on a sum that overflows; else
the client reads the choices numbered in a row, the other fields of the first body, and
the totals of the usage, in whatever order the bodies come. -/
theorem aggregateNChoiceBodies_spec (first : Bytes) (rest : List Bytes) :
    ((∃ e, aggregateNChoiceBodies jsonError (first :: rest) = .error e) ↔
      (∃ b ∈ first :: rest, ¬ IsAnswer b) ∨ Overflow (.nested (merged (usages (first :: rest))))) ∧
    ∀ out, aggregateNChoiceBodies jsonError (first :: rest) = .ok out →
      ∃ m, readObject out = some m ∧ Aggregates first rest m ∧
        (usages (first :: rest) ≠ [] → Summable (usages (first :: rest)) → OrderFree jsonError (first :: rest) m) := by
  refine ⟨aggregate_fails_iff jsonError first rest, fun out hout => ?_⟩
  have h : ∀ b ∈ first :: rest, IsAnswer b := by
    intro b hb
    by_contra hn
    obtain ⟨e, he⟩ := (aggregate_fails_iff jsonError first rest).mpr (.inl ⟨b, hb, hn⟩)
    rw [hout] at he
    cases he
  obtain ⟨m, hread, haggregates⟩ := aggregates_isAnswer jsonError h hout
  exact ⟨m, hread, haggregates, fun hne hsum => orderFree_of_aggregates jsonError h haggregates hne hsum⟩

/-- A body without choices, and with one number in its usage. -/
def usageBody (x : String) : Bytes :=
  ascii "\x7b\"choices\":[],\"usage\":\x7b\"x\":" ++ ascii x ++ ascii "\x7d\x7d"

/-- This number as it is read in the aggregated body. -/
def sumOf (bodies : List Bytes) : Option Kind :=
  ((aggregateNChoiceBodies id bodies).toOption.bind readObject).bind fun m =>
    (get usageKey m).bind (kindOf ["x".toList])

/-- A sum that overflows fails although each body is an answer; and from 2^53 on the sum of
integers depends on the order of the bodies. -/
theorem aggregate_overflows :
    ((∀ b ∈ [usageBody "1e308", usageBody "1e308"], IsAnswer b) ∧
      ∃ e, aggregateNChoiceBodies id [usageBody "1e308", usageBody "1e308"] = .error e) ∧
    sumOf [usageBody "9007199254740992", usageBody "1", usageBody "1"] = some (.num (2 ^ 53 * 2 ^ 1074)) ∧
    sumOf [usageBody "1", usageBody "1", usageBody "9007199254740992"] = some (.num ((2 ^ 53 + 2) * 2 ^ 1074)) := by
  have hanswer : IsAnswer (usageBody "1e308") := by
    by_contra hn
    obtain ⟨e, he⟩ := gather_not_isAnswer id {} hn
    have hok : (gather id {} (usageBody "1e308")).toBool = true := by decide +kernel
    rw [he] at hok
    cases hok
  have hfail : (aggregateNChoiceBodies id [usageBody "1e308", usageBody "1e308"]).toBool = false := by
    decide +kernel
  refine ⟨⟨by simp [hanswer], ?_⟩, by decide +kernel, by decide +kernel⟩
  cases h : aggregateNChoiceBodies id [usageBody "1e308", usageBody "1e308"] with
  | error e => exact ⟨e, rfl⟩
  | ok out =>
    rw [h] at hfail
    cases hfail

end NChoiceAggregate
