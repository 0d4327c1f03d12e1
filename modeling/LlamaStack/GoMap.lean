import LlamaStack.GoBytes
import Mathlib.Data.Char
import Mathlib.Data.List.Lex

/-!
# Maps with text keys

A Go `map[string]T` as its entries in key order. The order is the one in which
`encoding/json` writes a map; equal maps are equal lists.
-/
namespace GoMap

open GoBytes

variable {β γ : Type}

abbrev Entries (β : Type) := List (Text × β)

/-- `m[k] = v`. -/
def store (k : Text) (v : β) : Entries β → Entries β
  | [] => [(k, v)]
  | e :: m =>
    if k < e.1 then (k, v) :: e :: m
    else if k = e.1 then (k, v) :: m
    else e :: store k v m

/-- `v, found := m[k]`. -/
def get (k : Text) : Entries β → Option β
  | [] => none
  | e :: m => if k = e.1 then some e.2 else get k m

/-- `delete(m, k)`. -/
def delete (k : Text) (m : Entries β) : Entries β := m.filter fun e => e.1 ≠ k

def Sorted (m : Entries β) : Prop := m.Pairwise fun a b => a.1 < b.1

/-- The map that a list of assignments leaves, the last one to a key winning. -/
def ofList (es : List (Text × β)) : Entries β := es.foldl (fun m e => store e.1 e.2 m) []

@[simp] theorem get_nil (k : Text) : get k ([] : Entries β) = none := rfl

theorem get_store_self (k : Text) (v : β) (m : Entries β) : get k (store k v m) = some v := by
  induction m with
  | nil => simp [store, get]
  | cons e m ih =>
    simp only [store]
    split
    · simp [get]
    · split
      · simp [get]
      · rename_i h
        simp [get, h, ih]

theorem get_store_ne {k k' : Text} (h : k' ≠ k) (v : β) (m : Entries β) :
    get k' (store k v m) = get k' m := by
  induction m with
  | nil => simp [store, get, h]
  | cons e m ih =>
    simp only [store]
    split
    · simp [get, h]
    · split
      · rename_i he
        simp [get, ← he, h]
      · simp [get, ih]

theorem get_delete_self (k : Text) (m : Entries β) : get k (delete k m) = none := by
  induction m with
  | nil => rfl
  | cons e m ih =>
    by_cases h : e.1 = k
    · simpa [delete, h] using ih
    · have hk : ¬ k = e.1 := fun hk => h hk.symm
      simpa [delete, h, get, hk] using ih

theorem get_delete_ne {k k' : Text} (h : k' ≠ k) (m : Entries β) :
    get k' (delete k m) = get k' m := by
  induction m with
  | nil => rfl
  | cons e m ih =>
    by_cases he : e.1 = k
    · have hk : ¬ k' = e.1 := fun hk => h (hk.trans he)
      simpa [delete, he, get, h] using ih
    · by_cases hk : k' = e.1
      · simp [delete, he, get, hk]
      · simpa [delete, he, get, hk] using ih

theorem mem_store {k : Text} {v : β} {m : Entries β} {e : Text × β} (h : e ∈ store k v m) :
    e = (k, v) ∨ e ∈ m := by
  induction m with
  | nil => simpa [store] using h
  | cons a m ih =>
    simp only [store] at h
    split at h
    · simpa using h
    · split at h
      · rcases List.mem_cons.mp h with h | h
        · exact .inl h
        · exact .inr (by simp [h])
      · rcases List.mem_cons.mp h with h | h
        · exact .inr (by simp [h])
        · exact (ih h).imp_right fun h => by simp [h]

theorem store_sorted (k : Text) (v : β) {m : Entries β} (hm : Sorted m) : Sorted (store k v m) := by
  induction m with
  | nil => simp [store, Sorted]
  | cons e m ih =>
    obtain ⟨he, hm'⟩ := List.pairwise_cons.mp hm
    simp only [store]
    split
    · rename_i h
      refine List.pairwise_cons.mpr ⟨fun a ha => ?_, hm⟩
      rcases List.mem_cons.mp ha with rfl | ha
      · exact h
      · exact h.trans (he a ha)
    · split
      · rename_i h
        exact List.pairwise_cons.mpr ⟨fun a ha => h ▸ he a ha, hm'⟩
      · rename_i h₁ h₂
        refine List.pairwise_cons.mpr ⟨fun a ha => ?_, ih hm'⟩
        rcases mem_store ha with rfl | ha
        · exact lt_of_le_of_ne (not_lt.mp h₁) (Ne.symm h₂)
        · exact he a ha

theorem delete_sorted (k : Text) {m : Entries β} (hm : Sorted m) : Sorted (delete k m) :=
  hm.filter _

theorem mem_of_get {k : Text} {v : β} {m : Entries β} (h : get k m = some v) : (k, v) ∈ m := by
  induction m with
  | nil => simp at h
  | cons e m ih =>
    simp only [get] at h
    split at h
    · rename_i hk
      obtain ⟨a, b⟩ := e
      simp_all
    · exact List.mem_cons_of_mem _ (ih h)

theorem get_none_of_lt {k : Text} {m : Entries β} (h : ∀ e ∈ m, k < e.1) : get k m = none := by
  cases hg : get k m with
  | none => rfl
  | some v => exact absurd (h _ (mem_of_get hg)) (lt_irrefl k)

theorem foldl_store_sorted (es : List (Text × β)) {m : Entries β} (hm : Sorted m) :
    Sorted (es.foldl (fun m e => store e.1 e.2 m) m) := by
  induction es generalizing m with
  | nil => exact hm
  | cons e es ih => exact ih (store_sorted e.1 e.2 hm)

theorem ofList_sorted (es : List (Text × β)) : Sorted (ofList es) :=
  foldl_store_sorted es List.Pairwise.nil

theorem mem_ofList {es : List (Text × β)} {e : Text × β} (h : e ∈ ofList es) : e ∈ es := by
  have hf : ∀ es m : Entries β, e ∈ es.foldl (fun m e => store e.1 e.2 m) m → e ∈ m ∨ e ∈ es := by
    intro es
    induction es with
    | nil => exact fun m h => .inl h
    | cons a es ih =>
      intro m h
      cases ih _ h with
      | inl h =>
        cases mem_store h with
        | inl h => exact .inr (by simp [h])
        | inr h => exact .inl h
      | inr h => exact .inr (by simp [h])
  cases hf es [] h with
  | inl h => cases h
  | inr h => exact h

/-- A key above all others goes to the end. -/
theorem store_last {k : Text} {m : Entries β} (h : ∀ e ∈ m, e.1 < k) (v : β) :
    store k v m = m ++ [(k, v)] := by
  induction m with
  | nil => rfl
  | cons e m ih =>
    have he := h e (by simp)
    simp only [store, if_neg (not_lt.mpr he.le), if_neg (ne_of_gt he)]
    rw [ih fun a ha => h a (by simp [ha])]
    rfl

theorem foldl_store_of_sorted (es m : Entries β) (h : Sorted (m ++ es)) :
    es.foldl (fun m e => store e.1 e.2 m) m = m ++ es := by
  induction es generalizing m with
  | nil => simp
  | cons e es ih =>
    have hlt : ∀ a ∈ m, a.1 < e.1 := fun a ha =>
      (List.pairwise_append.mp h).2.2 a ha e (by simp)
    rw [List.foldl_cons, store_last hlt, ih _ (by simpa using h)]
    simp

/-- A sorted list of entries is its own map. -/
theorem ofList_of_sorted {m : Entries β} (h : Sorted m) : ofList m = m := by
  have hm := foldl_store_of_sorted m [] (by simpa using h)
  rw [List.nil_append] at hm
  exact hm

/-- Maps with equal lookups are equal. -/
theorem ext_get {m m' : Entries β} (hm : Sorted m) (hm' : Sorted m')
    (h : ∀ k, get k m = get k m') : m = m' := by
  induction m generalizing m' with
  | nil =>
    cases m' with
    | nil => rfl
    | cons e m' => simpa [get] using h e.1
  | cons e m ih =>
    cases m' with
    | nil => simpa [get] using h e.1
    | cons e' m' =>
      obtain ⟨he, hs⟩ := List.pairwise_cons.mp hm
      obtain ⟨he', hs'⟩ := List.pairwise_cons.mp hm'
      have above : ∀ {a : Text × β} {n : Entries β}, (∀ b ∈ n, a.1 < b.1) → ∀ {k}, k ≤ a.1 →
          get k n = none := by
        intro a n hn k hk
        cases hg : get k n with
        | none => rfl
        | some v => exact absurd (hn _ (mem_of_get hg)) (not_lt.mpr hk)
      have hkey : e.1 = e'.1 := by
        rcases lt_trichotomy e.1 e'.1 with hlt | heq | hlt
        · have h₁ := h e.1
          simp [get, hlt.ne, above he' hlt.le] at h₁
        · exact heq
        · have h₁ := h e'.1
          simp [get, hlt.ne, above he hlt.le] at h₁
      have hval := h e.1
      simp only [get, if_true, if_pos hkey, Option.some.injEq] at hval
      have hrest : m = m' := by
        refine ih hs hs' fun k => ?_
        by_cases hk : k = e.1
        · rw [hk, above he le_rfl, above he' hkey.le]
        · have h₁ := h k
          have hk' : ¬ k = e'.1 := fun h' => hk (h'.trans hkey.symm)
          simpa [get, hk, hk'] using h₁
      rw [hrest, Prod.ext hkey hval]

/-- The last assignment to a key decides. -/
theorem get_ofList (k : Text) (es : List (Text × β)) :
    get k (ofList es) = es.foldl (fun v e => if k = e.1 then some e.2 else v) none := by
  have hf : ∀ (es m : Entries β), get k (es.foldl (fun m e => store e.1 e.2 m) m) =
      es.foldl (fun v e => if k = e.1 then some e.2 else v) (get k m) := by
    intro es
    induction es with
    | nil => exact fun _ => rfl
    | cons e es ih =>
      intro m
      rw [List.foldl_cons, List.foldl_cons, ih]
      by_cases h : k = e.1
      · rw [if_pos h, h, get_store_self]
      · rw [if_neg h, get_store_ne h]
  exact hf es []

/-- The values of a map, changed one by one. -/
def mapValues (f : β → γ) (m : Entries β) : Entries γ := m.map fun e => (e.1, f e.2)

theorem get_mapValues (f : β → γ) (k : Text) (m : Entries β) :
    get k (mapValues f m) = (get k m).map f := by
  induction m with
  | nil => rfl
  | cons e m ih =>
    simp only [mapValues, List.map_cons, get] at ih ⊢
    split
    · rfl
    · exact ih

theorem mapValues_store (f : β → γ) (k : Text) (v : β) (m : Entries β) :
    mapValues f (store k v m) = store k (f v) (mapValues f m) := by
  induction m with
  | nil => rfl
  | cons e m ih =>
    simp only [mapValues] at ih
    simp only [store, mapValues, List.map_cons]
    split
    · rfl
    · split
      · rfl
      · rw [List.map_cons, ih]

theorem mapValues_sorted (f : β → γ) {m : Entries β} (hm : Sorted m) : Sorted (mapValues f m) :=
  List.pairwise_map.mpr hm

end GoMap
