import LlamaStack.UpstreamBodies
import LlamaStack.GoJsonExact

/-!
# The fidelity of rewritten requests

A body that is sent instead of the client's own, member by member: what it keeps of
the client's values, and which values it changes.
-/
namespace RequestFidelity

open Effects GoBytes GoFloat64 GoJson GoMap RouterManager ModelCatalog NChoices OpenaiApi Handlers
  AllowlistEnforcement UpstreamBodies

/-! ## Members of a body -/

/-- A member is missing in both bodies, or has the same value. -/
def SameMember : Option Tree → Option Tree → Prop
  | none, none => True
  | some x, some x' => Same SameNum x x'
  | _, _ => False

/-- The member of a body that the gateway owns. -/
def ownedKey (path : Text) : Text := if path = responsesPath then inputKey else nKey

/-- Beside the owned member, the bodies say the same. -/
def Faithful (path : Text) (m m' : Entries Tree) : Prop :=
  ∀ k, k ≠ ownedKey path → SameMember (get k m) (get k m')

/-- Every integer beside the owned member is the shortest decimal of its float, and
a Responses request has no null for its `stream`. -/
structure Preserved (path : Text) (m : Entries Tree) : Prop where
  integers : ∀ k, k ≠ ownedKey path → ∀ t, get k m = some t → AllNums Survives t
  stream : path = responsesPath → get streamKey m ≠ some .null

theorem sameMember_recode (t : Option Tree) :
    SameMember t (t.map (mapNums recode)) ↔ ∀ x, t = some x → AllNums Survives x := by
  cases t with
  | none => simp [SameMember]
  | some x => simpa [SameMember] using same_recode x

theorem faithful_singleChoiceBody {path : Text} (hpath : path ≠ responsesPath) {m m' : Entries Tree}
    (h : ∀ k, k ≠ nKey → get k m' = (get k m).map (mapNums recode)) :
    Faithful path m m' ↔ Preserved path m := by
  have howned : ownedKey path = nKey := if_neg hpath
  constructor
  · intro hf
    refine ⟨fun k hk => ?_, fun he => absurd he hpath⟩
    have hsame := hf k hk
    rw [h k (howned ▸ hk)] at hsame
    exact (sameMember_recode _).mp hsame
  · intro hp k hk
    rw [h k (howned ▸ hk)]
    exact (sameMember_recode _).mpr (hp.integers k hk)

theorem faithful_adapted {m' : Entries Tree} {ms : List (Lexeme × Json)} {r : ResponseCreateRequest}
    {s : Lexeme} (hmodel : get modelKey (ofList (rawMembers ms)) = some (.str s))
    (hr : Reads (ofList (rawMembers ms)) r) (h : Adapted r (ofList (treeOfMembers ms)) m') :
    Faithful responsesPath (ofList (treeOfMembers ms)) m' ↔
      Preserved responsesPath (ofList (treeOfMembers ms)) := by
  have howned : ownedKey responsesPath = inputKey := if_pos rfl
  have hmodelTree : get modelKey (ofList (treeOfMembers ms)) = some (.str r.model) := by
    have hread : some (unquote s) = some r.model := hr.model _ hmodel
    rw [get_treeOf, hmodel, ← Option.some.inj hread]
    rfl
  -- The stream is a bool in both, is missing in both, or is a null that is not sent.
  have hstream : SameMember (get streamKey (ofList (treeOfMembers ms))) (get streamKey m') ↔
      get streamKey (ofList (treeOfMembers ms)) ≠ some .null := by
    rw [get_treeOf, h.stream]
    cases hraw : get streamKey (ofList (rawMembers ms)) with
    | none => simp [hr.noStream hraw, SameMember]
    | some raw =>
      have hdec := hr.stream raw hraw
      cases raw with
      | null =>
        have hs : none = r.stream := Option.some.inj hdec
        simp [← hs, SameMember, treeOf]
      | bool b =>
        have hs : some b = r.stream := Option.some.inj hdec
        simp [← hs, SameMember, Same, treeOf]
      | _ => cases hdec
  have hnums : ∀ t, get streamKey (ofList (treeOfMembers ms)) = some t → AllNums Survives t := by
    intro t ht
    rw [get_treeOf] at ht
    obtain ⟨raw, hraw, rfl⟩ := Option.map_eq_some_iff.mp ht
    have hdec := hr.stream raw hraw
    cases raw with
    | null => trivial
    | bool b => trivial
    | _ => cases hdec
  constructor
  · intro hf
    refine ⟨fun k hk t ht => ?_, fun _ => hstream.mp (hf streamKey (by decide))⟩
    by_cases h₂ : k = modelKey
    · rw [h₂, hmodelTree] at ht
      cases ht
      trivial
    · by_cases h₃ : k = streamKey
      · exact hnums t (h₃ ▸ ht)
      · have hsame := hf k hk
        rw [h.rest k (howned ▸ hk) h₂ h₃] at hsame
        exact (sameMember_recode _).mp hsame t ht
  · intro hp k hk
    by_cases h₂ : k = modelKey
    · rw [h₂, hmodelTree, h.model]
      exact rfl
    · by_cases h₃ : k = streamKey
      · exact h₃ ▸ hstream.mpr (hp.stream rfl)
      · rw [h.rest k (howned ▸ hk) h₂ h₃]
        exact (sameMember_recode _).mpr (hp.integers k hk)

/-- A body that is sent for a request and is not the client's own keeps every value
beside the owned member exactly when the integers there survive being made floats
and no null `stream` is among them. -/
theorem upstream_faithful (jsonError : Bytes → Bytes) (go : HfDownloader.Library) (cat : Catalog)
    (cfg : Config) (req : Request) {w w' : HfDownloader.World} {t : History} {p' : Handlers.Run Handled}
    (hrun : Effects.Run effect (humaInference jsonError go cat cfg req) w t p' w') {body : Bytes}
    {o : NChoiceResponse.Outcome} (hpost : ⟨.post body, o⟩ ∈ t) (hne : body ≠ req.body.bytes) :
    ∃ m m', membersOf req.body.bytes = some m ∧ membersOf body = some m' ∧
      (Faithful req.path m m' ↔ Preserved req.path m) := by
  have hstages := (spec_traced (humaInference_stage jsonError go cat cfg req w) hrun).2
  obtain ⟨t₁, t₂, ht⟩ := List.mem_iff_append.mp hpost
  obtain ⟨-, s, -, ⟨cm, hacc, -⟩, hup⟩ := hstages t₁ _ t₂ ht
  obtain ⟨ms, name, hj, hmodel, -, -⟩ := hacc.names
  have hparse := parse_of_checkValid hj
  have hm := membersOf_of_parse hparse
  have hup : Upstream req body := hup
  cases hup with
  | whole => exact absurd rfl hne
  | oneChoice hpath hp =>
    obtain ⟨m', hm', hget⟩ := membersOf_singleChoiceBody hp hm
    have hother : req.path ≠ responsesPath := by
      intro he
      rw [he] at hpath
      exact absurd hpath (by decide)
    exact ⟨_, m', hm, hm', faithful_singleChoiceBody hother hget⟩
  | adapted hpath ha =>
    obtain ⟨r, m', hreads, hm', hadapted⟩ := membersOf_adapted ha hne hparse
    rw [hpath]
    exact ⟨_, m', hm, hm', faithful_adapted hmodel hreads hadapted⟩

def seedKey : Text := "seed".toList

/-- A chat request for two choices with a seed. -/
def seedBody (seed : Int64) : Json :=
  .obj [(quote modelKey, .str (quote DownloaderAtomicity.sampleEntry.ref)), (quote nKey, .num (formatInt 2)),
    (quote seedKey, .num (formatInt seed))]

def seedRequest (seed : Int64) : Request := ⟨chatCompletionsPath, ⟨print (seedBody seed), .eof⟩⟩

def seedPayload (seed : Int64) : Entries Value :=
  [(modelKey, .str DownloaderAtomicity.sampleEntry.ref), (nKey, .num (ofInt64 2)),
    (seedKey, .num (ofInt64 seed))]

theorem sorted_keys {β : Type} (x y z : β) : Sorted [(modelKey, x), (nKey, y), (seedKey, z)] := by
  have h₁ : modelKey < nKey := by decide
  have h₂ : modelKey < seedKey := by decide
  have h₃ : nKey < seedKey := by decide
  simp [Sorted, h₁, h₂, h₃]

theorem checkValid_seedBody (seed : Int64) : checkValid (print (seedBody seed)) = some (seedBody seed) :=
  checkValid_print (by simp [seedBody, depth, depthMembers, maxNestingDepth])

theorem payload_seedRequest (seed : Int64) :
    unmarshal decodeMap (seedRequest seed).body.bytes = some (seedPayload seed) := by
  have hmembers : decodeMap (seedBody seed) = some (ofList (seedPayload seed)) := by
    simp [seedBody, decodeMap, decodeMembers, decodeValue, seedPayload]
  rw [unmarshal, seedRequest, checkValid_seedBody, Option.bind_some, hmembers, seedPayload,
    ofList_of_sorted (sorted_keys _ _ _)]

theorem accepted_seedRequest {seed : Int64} (hlen : (print (seedBody seed)).length ≤ maxInferenceBodyBytes) :
    Accepted sampleCatalog (seedRequest seed) DownloaderAtomicity.sampleEntry := by
  have hkind : kindOf DownloaderAtomicity.sampleEntry = requiredKind chatCompletionsPath := by decide
  refine ⟨hlen, rfl, ⟨_, quote DownloaderAtomicity.sampleEntry.ref, checkValid_seedBody seed, ?_,
    by decide +kernel, by decide +kernel⟩, hkind⟩
  simp only [rawMembers, List.map_cons, List.map_nil, unquote_quote, ofList_of_sorted (sorted_keys _ _ _)]
  simp [GoMap.get]

theorem seed_run (seed : Int64) (hlen : (print (seedBody seed)).length ≤ maxInferenceBodyBytes) :
    ∃ w t p' w', Effects.Run effect (humaInference id DownloaderAtomicity.sampleLibrary sampleCatalog
        sampleConfig (seedRequest seed)) w t p' w' ∧
      ⟨.post (singleChoiceBody (seedPayload seed)), .failed []⟩ ∈ t := by
  have hacc := accepted_seedRequest hlen
  obtain ⟨r, hd, hne, hb⟩ := modelRequest_of_accepted hacc (payload_seedRequest seed)
  have hother : chatCompletionsPath ≠ responsesPath := by decide
  obtain ⟨t, ht, -, -⟩ := checked_run sampleConfig id DownloaderAtomicity.sampleLibrary hd hne
    (resolve_of_kind hb hacc.kind) (has_own_ref _) (if_neg hother)
  have hpath : ¬ (chatCompletionsPath ≠ chatCompletionsPath ∧ chatCompletionsPath ≠ completionsPath) :=
    fun h => h.1 rfl
  have hn : jsonInt ((get nKey (seedPayload seed)).getD .null) = .ok (some 2) := by
    have hget : get nKey (seedPayload seed) = some (.num (ofInt64 2)) := by
      simp [seedPayload, GoMap.get, modelKey, nKey]
    rw [hget, Option.getD_some]
    decide +kernel
  have hsmall : ¬ (2 : Int64).toInt ≤ 1 := by decide
  have hfit : ¬ maxAlloc < (2 : Int64).toInt.toNat * sliceSize := by decide
  have hforward : ∃ next, forward id (seedRequest seed).path (seedRequest seed).body.bytes =
      .perform (.post (singleChoiceBody (seedPayload seed))) next := by
    simp only [forward, buildNChoiceRequest, payload_seedRequest, hn]
    simp only [seedRequest, if_neg hpath, if_neg hsmall, if_neg hfit]
    exact ⟨_, rfl⟩
  obtain ⟨next, hforward⟩ := hforward
  rw [hforward] at ht
  refine ⟨_, _, _, _, ht.trans (.step (r := .failed []) rfl (.refl _ _)), ?_⟩
  simp

theorem upstream_faithful_seed : ∃ w t p' w', Effects.Run effect (humaInference id
      DownloaderAtomicity.sampleLibrary sampleCatalog sampleConfig (seedRequest 42)) w t p' w' ∧
    ⟨.post (singleChoiceBody (seedPayload 42)), .failed []⟩ ∈ t ∧
    ∃ m m', membersOf (seedRequest 42).body.bytes = some m ∧
      membersOf (singleChoiceBody (seedPayload 42)) = some m' ∧
      (Faithful (seedRequest 42).path m m' ↔ Preserved (seedRequest 42).path m) := by
  have hne : singleChoiceBody (seedPayload 42) ≠ (seedRequest 42).body.bytes := by decide +kernel
  obtain ⟨w, t, p', w', hrun, hpost⟩ := seed_run 42 (by decide +kernel)
  exact ⟨w, t, p', w', hrun, hpost, upstream_faithful id _ _ _ _ hrun hpost hne⟩

/-- The seed 2^53 + 1 goes upstream as 2^53. -/
theorem upstream_unfaithful : ∃ w t p' w', Effects.Run effect (humaInference id
      DownloaderAtomicity.sampleLibrary sampleCatalog sampleConfig (seedRequest 9007199254740993)) w t p' w' ∧
    ⟨.post (singleChoiceBody (seedPayload 9007199254740993)), .failed []⟩ ∈ t ∧
    ∃ m m', membersOf (seedRequest 9007199254740993).body.bytes = some m ∧
      membersOf (singleChoiceBody (seedPayload 9007199254740993)) = some m' ∧
      ¬ Faithful (seedRequest 9007199254740993).path m m' := by
  obtain ⟨w, t, p', w', hrun, hpost⟩ := seed_run 9007199254740993 (by decide +kernel)
  have hm := membersOf_of_parse (parse_of_checkValid (checkValid_seedBody 9007199254740993))
  obtain ⟨m', hm', hget⟩ := membersOf_singleChoiceBody (payload_seedRequest 9007199254740993) hm
  refine ⟨w, t, p', w', hrun, hpost, _, m', hm, hm', fun hf => ?_⟩
  have hseed : get seedKey (ofList (treeOfMembers [(quote modelKey,
      .str (quote DownloaderAtomicity.sampleEntry.ref)), (quote nKey, .num (formatInt 2)),
      (quote seedKey, .num (formatInt 9007199254740993))])) =
      some (.num (formatInt 9007199254740993)) := by
    simp only [treeOfMembers, treeOf, unquote_quote, ofList_of_sorted (sorted_keys _ _ _)]
    simp [GoMap.get, modelKey, nKey, seedKey]
  have hsame := hf seedKey (by decide)
  rw [hget seedKey (by decide), hseed] at hsame
  have hnum : SameNum (formatInt 9007199254740993) (recode (formatInt 9007199254740993)) := hsame
  have hwhole : (formatInt 9007199254740993).value = ((9007199254740993 : Int) : Rat) := by decide +kernel
  have hlost : (recode (formatInt 9007199254740993)).value ≠ (formatInt 9007199254740993).value := by
    decide +kernel
  exact hlost (hnum.whole ⟨_, hwhole⟩)

end RequestFidelity
