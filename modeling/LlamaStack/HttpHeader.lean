import LlamaStack.GoMap

/-!
# HTTP headers

`http.Header`: every name with its values, in order. `Add`, `Set` and `Get` bring a name into its
canonical spelling, and a `range` takes the entries in any order.
-/
namespace HttpHeader

open GoBytes GoMap

abbrev Header := Entries (List Bytes)

/-- A character of a token, which is all that is spelled anew. -/
def isFieldChar (c : Char) : Bool := c.isAlphanum || "!#$%&'*+-.^_|~".toList.contains c || c.toNat == 0x60

/-- The first letter and every letter behind a dash are upper case. -/
def canonicalFrom (upper : Bool) : Text → Text
  | [] => []
  | c :: k => (if upper then c.toUpper else c.toLower) :: canonicalFrom (c == '-') k

/-- `CanonicalMIMEHeaderKey`. -/
def canonicalHeaderKey (k : Text) : Text := if k.all isFieldChar then canonicalFrom true k else k

def add (k : Text) (v : Bytes) (h : Header) : Header :=
  store (canonicalHeaderKey k) ((get (canonicalHeaderKey k) h).getD [] ++ [v]) h

def set (k : Text) (v : Bytes) (h : Header) : Header := store (canonicalHeaderKey k) [v] h

/-- `Get`: the first value, and nothing without one. -/
def first (k : Text) (h : Header) : Bytes := ((get (canonicalHeaderKey k) h).getD []).headD []

/-- A header as the HTTP packages make it. -/
structure Canonical (h : Header) : Prop where
  sorted : Sorted h
  keys : ∀ e ∈ h, canonicalHeaderKey e.1 = e.1

theorem canonical_nil : Canonical [] := ⟨List.Pairwise.nil, by simp⟩

/-! ## Values -/

/-- The values under a name, which is spelled as it stands. -/
def values (k : Text) (h : Header) : List Bytes := (get k h).getD []

@[simp] theorem values_nil (k : Text) : values k [] = [] := rfl

theorem values_add (k k' : Text) (v : Bytes) (h : Header) :
    values k' (add k v h) = values k' h ++ if k' = canonicalHeaderKey k then [v] else [] := by
  by_cases hk : k' = canonicalHeaderKey k
  · rw [if_pos hk, hk, values, add, get_store_self, Option.getD_some, ← values]
  · rw [if_neg hk, values, add, get_store_ne hk, List.append_nil, values]

theorem values_set (k k' : Text) (v : Bytes) (h : Header) :
    values k' (set k v h) = if k' = canonicalHeaderKey k then [v] else values k' h := by
  by_cases hk : k' = canonicalHeaderKey k
  · rw [if_pos hk, hk, values, set, get_store_self, Option.getD_some]
  · rw [if_neg hk, values, set, get_store_ne hk, values]

/-- A name whose values are added, all of them. -/
def addValues (k : Text) (vs : List Bytes) (h : Header) : Header := vs.foldl (fun h v => add k v h) h

theorem values_addValues (k k' : Text) (vs : List Bytes) (h : Header) :
    values k' (addValues k vs h) = values k' h ++ if k' = canonicalHeaderKey k then vs else [] := by
  induction vs generalizing h with
  | nil => simp [addValues]
  | cons v vs ih =>
    have hstep : values k' (addValues k (v :: vs) h) =
        values k' (add k v h) ++ if k' = canonicalHeaderKey k then vs else [] := ih (add k v h)
    rw [hstep, values_add]
    by_cases hk : k' = canonicalHeaderKey k <;> simp [hk]

/-- Entries whose values are added, one entry after the other. -/
def addEntries (es : List (Text × List Bytes)) (h : Header) : Header :=
  es.foldl (fun h e => addValues e.1 e.2 h) h

theorem values_addEntries (k : Text) (es : List (Text × List Bytes)) (h : Header) :
    values k (addEntries es h) =
      values k h ++ es.flatMap fun e => if k = canonicalHeaderKey e.1 then e.2 else [] := by
  induction es generalizing h with
  | nil => simp [addEntries]
  | cons e es ih =>
    have hstep : values k (addEntries (e :: es) h) = values k (addValues e.1 e.2 h) ++
        es.flatMap fun e => if k = canonicalHeaderKey e.1 then e.2 else [] := ih _
    rw [hstep, values_addValues, List.flatMap_cons, List.append_assoc]

theorem canonical_add {k : Text} (hk : canonicalHeaderKey k = k) (v : Bytes) {h : Header} (hh : Canonical h) :
    Canonical (add k v h) := by
  refine ⟨store_sorted _ _ hh.sorted, fun e he => ?_⟩
  cases mem_store he with
  | inl he => rw [he, hk, hk]
  | inr he => exact hh.keys e he

theorem canonical_addValues {k : Text} (hk : canonicalHeaderKey k = k) (vs : List Bytes) {h : Header}
    (hh : Canonical h) : Canonical (addValues k vs h) := by
  induction vs generalizing h with
  | nil => exact hh
  | cons v vs ih => exact ih (canonical_add hk v hh)

theorem canonical_addEntries {es : List (Text × List Bytes)} (hes : ∀ e ∈ es, canonicalHeaderKey e.1 = e.1) {h : Header}
    (hh : Canonical h) : Canonical (addEntries es h) := by
  induction es generalizing h with
  | nil => exact hh
  | cons e es ih =>
    exact ih (fun e' he' => hes e' (by simp [he'])) (canonical_addValues (hes e (by simp)) e.2 hh)

/-! ## Entries in any order -/

/-- What entries without a common name hold under a name. -/
theorem flatMap_entries {es : List (Text × List Bytes)} (hes : (es.map Prod.fst).Nodup) (k : Text) :
    (∀ vs, (k, vs) ∈ es → (es.flatMap fun e => if k = e.1 then e.2 else []) = vs) ∧
      (k ∉ es.map Prod.fst → (es.flatMap fun e => if k = e.1 then e.2 else []) = []) := by
  have hnone : ∀ es : List (Text × List Bytes), k ∉ es.map Prod.fst →
      (es.flatMap fun e => if k = e.1 then e.2 else []) = [] := by
    intro es hk
    rw [List.flatMap_eq_nil_iff]
    intro e he
    exact if_neg fun h => hk (List.mem_map.mpr ⟨e, he, h.symm⟩)
  refine ⟨fun vs hvs => ?_, hnone es⟩
  induction es with
  | nil => cases hvs
  | cons e es ih =>
    obtain ⟨hnot, hes⟩ := List.nodup_cons.mp hes
    rw [List.flatMap_cons]
    rcases List.mem_cons.mp hvs with rfl | hvs
    · rw [if_pos rfl, hnone es hnot, List.append_nil]
    · have hne : k ≠ e.1 := fun h => hnot (List.mem_map.mpr ⟨(k, vs), hvs, h⟩)
      rw [if_neg hne, List.nil_append]
      exact ih hes hvs

theorem get_of_mem {h : Header} (hh : Sorted h) {k : Text} {vs : List Bytes} (hmem : (k, vs) ∈ h) :
    get k h = some vs := by
  induction h with
  | nil => cases hmem
  | cons e h ih =>
    obtain ⟨he, hs⟩ := List.pairwise_cons.mp hh
    rcases List.mem_cons.mp hmem with rfl | hmem
    · exact if_pos rfl
    · rw [GoMap.get, if_neg (he _ hmem).ne']
      exact ih hs hmem

theorem nodup_keys {h : Header} (hh : Sorted h) : (h.map Prod.fst).Nodup :=
  List.pairwise_map.mpr (hh.imp fun hlt => hlt.ne)

/-- The entries that a copy takes, in the order in which a `range` took them, bring every name
that it takes with all values. -/
theorem values_copied {h : Header} (hh : Canonical h) {es : List (Text × List Bytes)} (hes : es.Perm h)
    (keep : Text → Bool) (k : Text) (h₀ : Header) :
    values k (addEntries (es.filter fun e => keep e.1) h₀) =
      values k h₀ ++ if keep k then values k h else [] := by
  have hnodup : ((es.filter fun e => keep e.1).map Prod.fst).Nodup :=
    ((hes.map Prod.fst).nodup_iff.mpr (nodup_keys hh.sorted)).sublist (List.filter_sublist.map _)
  have hkeys : ((es.filter fun e => keep e.1).flatMap fun e => if k = canonicalHeaderKey e.1 then e.2 else []) =
      (es.filter fun e => keep e.1).flatMap fun e => if k = e.1 then e.2 else [] := by
    refine List.flatMap_congr fun e he => ?_
    rw [hh.keys e (hes.mem_iff.mp (List.mem_of_mem_filter he))]
  obtain ⟨hsome, hnone⟩ := flatMap_entries hnodup k
  rw [values_addEntries, hkeys]
  congr 1
  by_cases hk : k ∈ (es.filter fun e => keep e.1).map Prod.fst
  · obtain ⟨e, he, rfl⟩ := List.mem_map.mp hk
    obtain ⟨hmem, hkeep⟩ := List.mem_filter.mp he
    rw [hsome e.2 he, if_pos hkeep, values, get_of_mem hh.sorted (hes.mem_iff.mp hmem), Option.getD_some]
  · rw [hnone hk]
    by_cases hkeep : keep k = true
    · rw [if_pos hkeep]
      cases hg : get k h with
      | none => rw [values, hg, Option.getD_none]
      | some vs =>
        have hmem := hes.mem_iff.mpr (mem_of_get hg)
        exact absurd (List.mem_map.mpr ⟨(k, vs), List.mem_filter.mpr ⟨hmem, hkeep⟩, rfl⟩) hk
    · rw [if_neg hkeep]

end HttpHeader
