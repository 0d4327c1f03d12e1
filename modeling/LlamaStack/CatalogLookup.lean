import LlamaStack.ModelCatalog

/-!
# Lookup in the catalog

An entry has two names, its ref and its display name, and `ByRef` answers with the
first entry that has the name asked for. What this needs to be the entry meant.
-/
namespace CatalogLookup

open GoBytes ModelCatalog

/-- An entry goes by this name. -/
def Named (m : Model) (name : Text) : Prop := m.ref = name ∨ m.displayName = name

/-- Both names of each entry lead to the entry itself. -/
def Unambiguous (c : Catalog) : Prop :=
  ∀ m ∈ c.models, c.byRef m.ref = some m ∧ c.byRef m.displayName = some m

/-- No two different entries have a name in common. -/
def NamesApart (c : Catalog) : Prop :=
  ∀ m ∈ c.models, ∀ m' ∈ c.models, m ≠ m' → ∀ name, ¬ (Named m name ∧ Named m' name)

theorem byRef_named {c : Catalog} {name : Text} {m : Model} (h : c.byRef name = some m) :
    m ∈ c.models ∧ Named m name := ⟨byRef_mem h, byRef_name h⟩

/-- A name that an entry has is found. -/
theorem byRef_of_named {c : Catalog} {m : Model} (hm : m ∈ c.models) {name : Text} (h : Named m name) :
    ∃ m', c.byRef name = some m' := by
  cases hfind : c.byRef name with
  | some m' => exact ⟨m', rfl⟩
  | none =>
    have hnone := List.find?_eq_none.mp hfind m hm
    simp only [decide_eq_true_eq] at hnone
    exact absurd h hnone

/-- Where the names are apart, a name leads to the one entry that has it. -/
theorem byRef_of_namesApart {c : Catalog} (h : NamesApart c) {m : Model} (hm : m ∈ c.models) {name : Text}
    (hname : Named m name) : c.byRef name = some m := by
  obtain ⟨m', hfind⟩ := byRef_of_named hm hname
  obtain ⟨hm', hname'⟩ := byRef_named hfind
  by_cases heq : m = m'
  · rw [hfind, heq]
  · exact absurd ⟨hname, hname'⟩ (h m hm m' hm' heq name)

theorem byRef_of_unambiguous {c : Catalog} (h : Unambiguous c) {m : Model} (hm : m ∈ c.models) {name : Text}
    (hname : Named m name) : c.byRef name = some m := by
  cases hname with
  | inl href => exact href ▸ (h m hm).1
  | inr hdisplay => exact hdisplay ▸ (h m hm).2

/-- Every lookup finds the entry that is meant exactly when no two entries have a name
in common; the checks of `Load` look at one entry at a time. -/
theorem byRef_unambiguous_iff (c : Catalog) : Unambiguous c ↔ NamesApart c := by
  constructor
  · intro h m hm m' hm' hne name hboth
    have h₁ := byRef_of_unambiguous h hm hboth.1
    have h₂ := byRef_of_unambiguous h hm' hboth.2
    exact hne (Option.some.inj (h₁.symm.trans h₂))
  · intro h m hm
    exact ⟨byRef_of_namesApart h hm (.inl rfl), byRef_of_namesApart h hm (.inr rfl)⟩

/-- An entry whose name is the ref of the next. -/
def impostor : Model :=
  ⟨"owner/first".toList, "Q4".toList, [], [], [], "owner/second/Q4".toList, []⟩

def shadowed : Model := ⟨"owner/second".toList, "Q4".toList, [], [], [], [], []⟩

/-- `Load` accepts both entries, and the ref of the second leads to the first. -/
theorem byRef_ambiguous : ∃ c, load [impostor, shadowed] = .ok c ∧ c.models = [impostor, shadowed] ∧
    c.byRef shadowed.ref = some impostor ∧ ¬ Unambiguous c := by
  refine ⟨⟨[impostor, shadowed], by decide⟩, rfl, rfl, by decide, fun h => ?_⟩
  have hself := (h shadowed (by simp)).1
  exact absurd hself (by decide)

end CatalogLookup
