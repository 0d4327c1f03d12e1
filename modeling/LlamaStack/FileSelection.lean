import LlamaStack.HfDownloader

/-!
# Which file is selected

What `chooseFile` returns for a listing, in terms of the files that match and their
scores alone: the order of the listing does not matter. Then which files it takes
for a loadable main model, and what becomes of a file that is pinned by its path.
-/
namespace FileSelection

open GoBytes GoStrings GoFilepath ModelCatalog HfDownloader

variable (go : Library) {files : List Text} {m : Model}

/-- A file that matches and has the least score among those that do. -/
def IsBest (files : List Text) (m : Model) (f : Text) : Prop :=
  f ∈ matching go files m ∧ ∀ g ∈ matching go files m, score f ≤ score g

/-- The only best match. -/
def OnlyBest (files : List Text) (m : Model) (f : Text) : Prop := ∀ g, IsBest go files m g ↔ g = f

/-- There are two best matches. -/
def TwoBest (files : List Text) (m : Model) : Prop :=
  ∃ f g, f ≠ g ∧ IsBest go files m f ∧ IsBest go files m g

/-- The code of the error that a choice ends with. -/
def refusal : Except Error Text → Option Text
  | .ok _ => none
  | .error e => some e.code

theorem refusal_ok (f : Text) : refusal (.ok f) = none := rfl

theorem refusal_hferr (code : Text) (message : Bytes) (cause : Option Bytes) :
    refusal (.error (.hferr code message cause)) = some code := rfl

/-! ## Sorting by score -/

def ScoreLe (f g : Text) : Prop := score f < score g ∨ score f = score g ∧ f ≤ g

theorem scoreLe_trans {f g h : Text} (h₁ : ScoreLe f g) (h₂ : ScoreLe g h) : ScoreLe f h := by
  cases h₁ with
  | inl h₁ =>
    left
    cases h₂ with
    | inl h₂ => omega
    | inr h₂ => omega
  | inr h₁ =>
    cases h₂ with
    | inl h₂ =>
      left
      omega
    | inr h₂ => exact .inr ⟨h₁.1.trans h₂.1, le_trans h₁.2 h₂.2⟩

theorem scoreLe_total (f g : Text) : ScoreLe f g ∨ ScoreLe g f := by
  rcases Nat.lt_trichotomy (score f) (score g) with h | h | h
  · exact .inl (.inl h)
  · cases le_total f g with
    | inl hle => exact .inl (.inr ⟨h, hle⟩)
    | inr hle => exact .inr (.inr ⟨h.symm, hle⟩)
  · exact .inr (.inl h)

theorem scoreLe_antisymm {f g : Text} (h₁ : ScoreLe f g) (h₂ : ScoreLe g f) : f = g := by
  cases h₁ with
  | inl h₁ =>
    cases h₂ with
    | inl h₂ => omega
    | inr h₂ => omega
  | inr h₁ =>
    cases h₂ with
    | inl h₂ => omega
    | inr h₂ => exact le_antisymm h₁.2 h₂.2

theorem sortByScore_pairwise (files : List Text) : (sortByScore files).Pairwise ScoreLe := by
  have h : (sortByScore files).Pairwise fun a b =>
      decide (score a < score b ∨ score a = score b ∧ a ≤ b) = true := by
    apply List.pairwise_mergeSort
    · intro a b c hab hbc
      simp only [decide_eq_true_eq] at hab hbc ⊢
      exact scoreLe_trans hab hbc
    · intro a b
      simp only [Bool.or_eq_true, decide_eq_true_eq]
      exact scoreLe_total a b
  exact h.imp fun hab => of_decide_eq_true hab

theorem sortByScore_perm (files : List Text) : (sortByScore files).Perm files := List.mergeSort_perm _ _

/-- The sorted files do not depend on the order in which they came. -/
theorem sortByScore_congr {files files' : List Text} (h : files.Perm files') :
    sortByScore files = sortByScore files' :=
  List.Perm.eq_of_pairwise (fun _ _ _ _ => scoreLe_antisymm) (sortByScore_pairwise files)
    (sortByScore_pairwise files') (((sortByScore_perm files).trans h).trans (sortByScore_perm files').symm)

theorem matching_perm {files files' : List Text} (h : files.Perm files') :
    (matching go files m).Perm (matching go files' m) := h.filter _

theorem mem_sorted {f : Text} : f ∈ sortByScore (matching go files m) ↔ f ∈ matching go files m :=
  (sortByScore_perm _).mem_iff

/-- The files with the score of the first one are the best matches. -/
theorem mem_best {first : Text} {rest : List Text}
    (hsort : sortByScore (matching go files m) = first :: rest) (f : Text) :
    f ∈ (first :: rest).filter (fun f => score f = score first) ↔ IsBest go files m f := by
  have hmem : ∀ g, g ∈ first :: rest ↔ g ∈ matching go files m := fun g => hsort ▸ mem_sorted go
  have hsorted := sortByScore_pairwise (matching go files m)
  rw [hsort, List.pairwise_cons] at hsorted
  have hleast : ∀ g ∈ first :: rest, score first ≤ score g := by
    intro g hg
    cases List.mem_cons.mp hg with
    | inl hg => rw [hg]
    | inr hg =>
      cases hsorted.1 g hg with
      | inl h => omega
      | inr h => omega
  rw [List.mem_filter, decide_eq_true_eq]
  constructor
  · intro hf
    refine ⟨(hmem f).mp hf.1, fun g hg => ?_⟩
    rw [hf.2]
    exact hleast g ((hmem g).mpr hg)
  · intro hf
    have hle := hf.2 first ((hmem first).mp List.mem_cons_self)
    have hge := hleast f ((hmem f).mpr hf.1)
    exact ⟨(hmem f).mpr hf.1, by omega⟩

theorem one_lt_length_iff {l : List Text} (h : l.Nodup) :
    1 < l.length ↔ ∃ f g, f ≠ g ∧ f ∈ l ∧ g ∈ l := by
  constructor
  · intro hlen
    match l with
    | f :: g :: l =>
      have hne : f ≠ g := fun heq => (List.nodup_cons.mp h).1 (by simp [heq])
      exact ⟨f, g, hne, by simp, by simp⟩
  · rintro ⟨f, g, hne, hf, hg⟩
    match l with
    | [x] =>
      rw [List.mem_singleton] at hf hg
      exact absurd (hf.trans hg.symm) hne
    | x :: y :: l => simp

/-! ## What is returned -/

/-- No pinned file: the choice looks at the sorted matches. -/
theorem chooseFile_nil (hfile : m.file = []) (hsort : sortByScore (matching go files m) = []) :
    refusal (chooseFile go files m) = some codeNoMatchingFile := by
  rw [chooseFile, if_neg (not_not.mpr hfile), hsort, refusal_hferr]

theorem chooseFile_many (hfile : m.file = []) {first : Text} {rest : List Text}
    (hsort : sortByScore (matching go files m) = first :: rest)
    (hlen : 1 < ((first :: rest).filter fun f => score f = score first).length) :
    refusal (chooseFile go files m) = some codeAmbiguousFiles := by
  rw [chooseFile, if_neg (not_not.mpr hfile), hsort]
  simp only
  rw [if_pos hlen, refusal_hferr]

theorem chooseFile_split (hfile : m.file = []) {first : Text} {rest : List Text}
    (hsort : sortByScore (matching go files m) = first :: rest)
    (hlen : ¬ 1 < ((first :: rest).filter fun f => score f = score first).length)
    (hsplit : isSplit first = true) : refusal (chooseFile go files m) = some codeSplitGGUF := by
  rw [chooseFile, if_neg (not_not.mpr hfile), hsort]
  simp only
  rw [if_neg hlen, if_pos hsplit, refusal_hferr]

theorem chooseFile_single (hfile : m.file = []) {first : Text} {rest : List Text}
    (hsort : sortByScore (matching go files m) = first :: rest)
    (hlen : ¬ 1 < ((first :: rest).filter fun f => score f = score first).length)
    (hsplit : isSplit first = false) : chooseFile go files m = .ok first := by
  rw [chooseFile, if_neg (not_not.mpr hfile), hsort]
  simp only
  rw [if_neg hlen, if_neg (by simp [hsplit])]

/-- The cases of a choice without a pinned file. -/
theorem chooseFile_cases (hfile : m.file = []) (hnodup : files.Nodup) :
    (matching go files m = [] ∧ refusal (chooseFile go files m) = some codeNoMatchingFile) ∨
      (TwoBest go files m ∧ refusal (chooseFile go files m) = some codeAmbiguousFiles) ∨
      ∃ f, OnlyBest go files m f ∧
        ((isSplit f = true ∧ refusal (chooseFile go files m) = some codeSplitGGUF) ∨
          (isSplit f = false ∧ chooseFile go files m = .ok f)) := by
  cases hsort : sortByScore (matching go files m) with
  | nil =>
    have hnil : (matching go files m).Perm [] := hsort ▸ (sortByScore_perm _).symm
    exact .inl ⟨hnil.eq_nil, chooseFile_nil go hfile hsort⟩
  | cons first rest =>
    right
    have hbest := mem_best go hsort
    have hsub : ((first :: rest).filter fun f => score f = score first).Nodup := by
      apply List.Nodup.filter
      rw [← hsort, (sortByScore_perm _).nodup_iff]
      exact hnodup.filter _
    by_cases hlen : 1 < ((first :: rest).filter fun f => score f = score first).length
    · left
      obtain ⟨f, g, hne, hf, hg⟩ := (one_lt_length_iff hsub).mp hlen
      exact ⟨⟨f, g, hne, (hbest f).mp hf, (hbest g).mp hg⟩, chooseFile_many go hfile hsort hlen⟩
    · right
      have hfirst : first ∈ (first :: rest).filter fun f => score f = score first := by simp
      have honly : OnlyBest go files m first := by
        intro g
        constructor
        · intro hg
          by_contra hne
          exact hlen ((one_lt_length_iff hsub).mpr ⟨g, first, hne, (hbest g).mpr hg, hfirst⟩)
        · rintro rfl
          exact (hbest g).mp hfirst
      refine ⟨first, honly, ?_⟩
      cases hsplit : isSplit first with
      | true => exact .inl ⟨rfl, chooseFile_split go hfile hsort hlen hsplit⟩
      | false => exact .inr ⟨rfl, chooseFile_single go hfile hsort hlen hsplit⟩

theorem not_isBest_of_nil (h : matching go files m = []) (f : Text) : ¬ IsBest go files m f := by
  intro hf
  rw [IsBest, h] at hf
  exact List.not_mem_nil hf.1

theorem not_twoBest_of_onlyBest {f : Text} (h : OnlyBest go files m f) : ¬ TwoBest go files m := by
  rintro ⟨g, g', hne, hg, hg'⟩
  exact hne (((h g).mp hg).trans ((h g').mp hg').symm)

theorem OnlyBest.unique {f g : Text} (hf : OnlyBest go files m f) (hg : OnlyBest go files m g) : f = g :=
  (hg f).mp ((hf f).mpr rfl)

theorem OnlyBest.matching_ne_nil {f : Text} (h : OnlyBest go files m f) : matching go files m ≠ [] :=
  fun hnil => not_isBest_of_nil go hnil f ((h f).mpr rfl)

theorem TwoBest.matching_ne_nil (h : TwoBest go files m) : matching go files m ≠ [] := by
  obtain ⟨f, -, -, hf, -⟩ := h
  exact fun hnil => not_isBest_of_nil go hnil f hf

theorem onlyBest_of_single {f : Text} (h : matching go files m = [f]) : OnlyBest go files m f := by
  intro g
  rw [IsBest, h]
  constructor
  · intro hg
    exact List.mem_singleton.mp hg.1
  · rintro rfl
    simp

theorem onlyBest_of_pair {f g : Text} (h : matching go files m = [f, g]) (hscore : score f < score g) :
    OnlyBest go files m f := by
  intro x
  rw [IsBest, h]
  constructor
  · rintro ⟨hx, hle⟩
    have hf := hle f List.mem_cons_self
    rcases List.mem_pair.mp hx with rfl | rfl
    · rfl
    · omega
  · rintro rfl
    refine ⟨List.mem_cons_self, fun y hy => ?_⟩
    rcases List.mem_pair.mp hy with rfl | rfl
    · exact le_refl _
    · exact hscore.le

/-- A choice returns a file exactly when it is the only best match. -/
theorem chooseFile_ok_iff (hfile : m.file = []) (hnodup : files.Nodup) (f : Text) :
    chooseFile go files m = .ok f ↔ OnlyBest go files m f ∧ isSplit f = false := by
  obtain ⟨hnil, hcode⟩ | ⟨htwo, hcode⟩ | ⟨g, hg, ⟨hsplit, hcode⟩ | ⟨hsplit, hok⟩⟩ :=
    chooseFile_cases go hfile hnodup
  · constructor
    · intro hok
      rw [hok, refusal_ok] at hcode
      cases hcode
    · intro h
      exact absurd hnil (h.1.matching_ne_nil go)
  · constructor
    · intro hok
      rw [hok, refusal_ok] at hcode
      cases hcode
    · intro h
      exact absurd htwo (not_twoBest_of_onlyBest go h.1)
  · constructor
    · intro hok
      rw [hok, refusal_ok] at hcode
      cases hcode
    · intro h
      rw [(h.1.unique go hg), hsplit] at h
      cases h.2
  · rw [hok, Except.ok.injEq]
    constructor
    · rintro rfl
      exact ⟨hg, hsplit⟩
    · intro h
      exact hg.unique go h.1

/-- The three refusals, each for its own reason. -/
theorem refusal_iff (hfile : m.file = []) (hnodup : files.Nodup) :
    (refusal (chooseFile go files m) = some codeNoMatchingFile ↔ matching go files m = []) ∧
      (refusal (chooseFile go files m) = some codeAmbiguousFiles ↔ TwoBest go files m) ∧
      (refusal (chooseFile go files m) = some codeSplitGGUF ↔
        ∃ f, OnlyBest go files m f ∧ isSplit f = true) := by
  have h₁ : codeNoMatchingFile ≠ codeAmbiguousFiles := by decide
  have h₂ : codeNoMatchingFile ≠ codeSplitGGUF := by decide
  have h₃ : codeAmbiguousFiles ≠ codeSplitGGUF := by decide
  obtain ⟨hnil, hcode⟩ | ⟨htwo, hcode⟩ | ⟨g, hg, ⟨hsplit, hcode⟩ | ⟨hsplit, hok⟩⟩ :=
    chooseFile_cases go hfile hnodup
  · have htwo : ¬ TwoBest go files m := fun h => h.matching_ne_nil go hnil
    have honly : ¬ ∃ f, OnlyBest go files m f ∧ isSplit f = true := by
      rintro ⟨f, hf, -⟩
      exact hf.matching_ne_nil go hnil
    simp [hcode, hnil, htwo, honly, h₁, h₂]
  · have honly : ¬ ∃ f, OnlyBest go files m f ∧ isSplit f = true := by
      rintro ⟨f, hf, -⟩
      exact not_twoBest_of_onlyBest go hf htwo
    simp [hcode, htwo, htwo.matching_ne_nil go, honly, h₁.symm, h₃]
  · have honly : ∃ f, OnlyBest go files m f ∧ isSplit f = true := ⟨g, hg, hsplit⟩
    simp [hcode, not_twoBest_of_onlyBest go hg, hg.matching_ne_nil go, honly, h₂.symm, h₃.symm]
  · have honly : ¬ ∃ f, OnlyBest go files m f ∧ isSplit f = true := by
      rintro ⟨f, hf, hf'⟩
      rw [hf.unique go hg, hsplit] at hf'
      cases hf'
    simp [hok, refusal_ok, not_twoBest_of_onlyBest go hg, hg.matching_ne_nil go, honly]

/-- The matches are the listed files in `.gguf`, in any letter case, whose base name or path the
glob takes. -/
theorem mem_matching (f : Text) : f ∈ matching go files m ↔
    f ∈ files ∧ ".gguf".toList <:+ (base f).map lowerRune ∧
      (go.pathMatch m.globPattern (base f) = true ∨ go.pathMatch m.globPattern f = true) := by
  rw [matching, List.mem_filter, Bool.and_eq_true, Bool.or_eq_true, isGguf, decide_eq_true_eq, ggufExt]

theorem isSplit_iff (f : Text) : isSplit f = true ↔ "-of-".toList <:+: (base f).map lowerRune := by
  rw [isSplit, containsFold, decide_eq_true_eq]

theorem chooseFile_perm (hfile : m.file = []) {files' : List Text} (h : files.Perm files') :
    chooseFile go files' m = chooseFile go files m := by
  rw [chooseFile, chooseFile, if_neg (not_not.mpr hfile), if_neg (not_not.mpr hfile),
    sortByScore_congr (matching_perm go h)]

/-- The selection by glob: one file if it is the only best match, and else the error
that fits; the order of the listing is of no account. -/
theorem chooseFile_selects (hfile : m.file = []) (hnodup : files.Nodup) :
    (∀ f, f ∈ matching go files m ↔ f ∈ files ∧ ".gguf".toList <:+ (base f).map lowerRune ∧
        (go.pathMatch m.globPattern (base f) = true ∨ go.pathMatch m.globPattern f = true)) ∧
      (∀ f, isSplit f = true ↔ "-of-".toList <:+: (base f).map lowerRune) ∧
      (∀ f, chooseFile go files m = .ok f ↔ OnlyBest go files m f ∧ isSplit f = false) ∧
      (refusal (chooseFile go files m) = some codeNoMatchingFile ↔ matching go files m = []) ∧
      (refusal (chooseFile go files m) = some codeAmbiguousFiles ↔ TwoBest go files m) ∧
      (refusal (chooseFile go files m) = some codeSplitGGUF ↔
        matching go files m ≠ [] ∧ ¬ TwoBest go files m ∧
          ¬ ∃ f, OnlyBest go files m f ∧ isSplit f = false) ∧
      ∀ files', files.Perm files' → chooseFile go files' m = chooseFile go files m := by
  obtain ⟨hnone, htwo, hsplit⟩ := refusal_iff go hfile hnodup
  refine ⟨mem_matching go, isSplit_iff, chooseFile_ok_iff go hfile hnodup, hnone, htwo, hsplit.trans ?_,
    fun files' h => chooseFile_perm go hfile h⟩
  constructor
  · rintro ⟨f, hf, hf'⟩
    refine ⟨hf.matching_ne_nil go, not_twoBest_of_onlyBest go hf, ?_⟩
    rintro ⟨g, hg, hg'⟩
    rw [hg.unique go hf, hf'] at hg'
    cases hg'
  · rintro ⟨hne, hnot, hplain⟩
    obtain ⟨hnil, -⟩ | ⟨h, -⟩ | ⟨g, hg, ⟨hg', -⟩ | ⟨hg', -⟩⟩ := chooseFile_cases go hfile hnodup
    · exact absurd hnil hne
    · exact absurd h hnot
    · exact ⟨g, hg, hg'⟩
    · exact absurd ⟨g, hg, hg'⟩ hplain

/-- A library whose `path.Match` knows the pattern `*`. -/
def starLibrary : Library where
  pathMatch pattern name := decide (pattern = "*".toList ∧ slash ∉ name)
  quote name := ascii "\"" ++ GoUtf8.encodeText name ++ ascii "\""
  decodeError body := body

/-- An entry that takes every GGUF of its repo. -/
def starEntry : Model := ⟨"owner/repo".toList, "Q4".toList, "*".toList, [], [], [], []⟩

/-- A model, its projector and a text. -/
def sampleListing : List Text := ["a.gguf".toList, "mmproj-a.GGUF".toList, "b.md".toList]

theorem chooseFile_selects_starEntry :
    chooseFile starLibrary sampleListing starEntry = .ok "a.gguf".toList ∧
      ∀ files', sampleListing.Perm files' → chooseFile starLibrary files' starEntry = .ok "a.gguf".toList := by
  have hmatch : matching starLibrary sampleListing starEntry = ["a.gguf".toList, "mmproj-a.GGUF".toList] := by
    decide +kernel
  have honly := onlyBest_of_pair starLibrary hmatch (by decide +kernel)
  obtain ⟨-, -, hok, -, -, -, hperm⟩ :=
    chooseFile_selects starLibrary (m := starEntry) rfl (show sampleListing.Nodup by decide)
  have hchosen := (hok "a.gguf".toList).mpr ⟨honly, by decide +kernel⟩
  exact ⟨hchosen, fun files' h => (hperm files' h).trans hchosen⟩

/-- The mark of a split file is found in any case. -/
theorem chooseFile_selects_upperCase :
    OnlyBest starLibrary ["m-1-OF-2.gguf".toList] starEntry "m-1-OF-2.gguf".toList ∧
      ¬ "-of-".toList <:+: base "m-1-OF-2.gguf".toList ∧
      chooseFile starLibrary ["m-1-OF-2.gguf".toList] starEntry ≠ .ok "m-1-OF-2.gguf".toList := by
  have hmatch : matching starLibrary ["m-1-OF-2.gguf".toList] starEntry = ["m-1-OF-2.gguf".toList] := by
    decide +kernel
  refine ⟨onlyBest_of_single starLibrary hmatch, by decide +kernel, fun hok => ?_⟩
  have h := (chooseFile_ok_iff starLibrary rfl (by decide) _).mp hok
  exact absurd h.2 (by decide +kernel)

/-! ## Loadable main models -/

/-- A text of digits. -/
def Digits (t : Text) : Prop := t ≠ [] ∧ ∀ c ∈ t, c.isDigit = true

/-- The end of a shard's name. -/
def shardTail (k n : Text) : Text := '-' :: k ++ "-of-".toList ++ n ++ ggufExt

/-- The base name ends in `-<digits>-of-<digits>.gguf`. -/
def IsShard (f : Text) : Prop := ∃ stem k n, base f = stem ++ shardTail k n ∧ Digits k ∧ Digits n

def IsAuxiliary (f : Text) : Prop := containsFold (base f) "mmproj" = true ∨ containsFold (base f) "imatrix" = true

/-- All files are shards of one split model. -/
def OneSplit (fs : List Text) : Prop :=
  ∃ stem n, Digits n ∧ ∀ f ∈ fs, ∃ k, Digits k ∧ f = stem ++ shardTail k n

theorem lowerRune_digit {c : Char} (h : c.isDigit = true) : lowerRune c = c := by
  have hc : 48 ≤ c.toNat ∧ c.toNat ≤ 57 := by
    simp only [Char.isDigit, Bool.and_eq_true, decide_eq_true_eq, ge_iff_le, UInt32.le_iff_toNat_le] at h
    exact h
  have hA : ¬ 'A' ≤ c := by
    rw [Char.le_def, UInt32.le_iff_toNat_le]
    have hval : c.val.toNat = c.toNat := rfl
    have hA : 'A'.val.toNat = 65 := rfl
    omega
  rw [lowerRune, if_neg fun h => hA h.1, if_neg (by omega), if_neg (by omega)]

theorem Digits.map_lowerRune {t : Text} (h : Digits t) : t.map lowerRune = t := by
  have hid : t.map lowerRune = t.map id := List.map_congr_left fun c hc => lowerRune_digit (h.2 c hc)
  rw [hid, List.map_id]

theorem Digits.slash_not_mem {t : Text} (h : Digits t) : slash ∉ t := by
  intro hmem
  exact absurd (h.2 slash hmem) (by decide)

theorem shardTail_eq (k n : Text) : shardTail k n = '-' :: (k ++ '-' :: ("of-".toList ++ n ++ ggufExt)) := by
  simp [shardTail]

theorem shardTail_slash {k n : Text} (hk : Digits k) (hn : Digits n) : slash ∉ shardTail k n := by
  have h₁ : slash ≠ '-' := by decide
  have h₂ : slash ∉ "of-".toList := by decide
  have h₃ : slash ∉ ggufExt := by decide
  rw [shardTail_eq]
  simp only [List.mem_cons, List.mem_append, not_or]
  exact ⟨h₁, hk.slash_not_mem, h₁, ⟨h₂, hn.slash_not_mem⟩, h₃⟩

/-- A shard is what the code takes for a part of a split file. -/
theorem isSplit_of_isShard {f : Text} (h : IsShard f) : isSplit f = true := by
  obtain ⟨stem, k, n, hbase, -, -⟩ := h
  have hlower : "-of-".toList.map lowerRune = "-of-".toList := by decide
  rw [isSplit, containsFold, decide_eq_true_eq, hbase, ← hlower]
  apply List.IsInfix.map
  refine ⟨stem ++ '-' :: k, n ++ ggufExt, ?_⟩
  simp [shardTail]

/-- The words that count for the score are not found across a hyphen or a digit. -/
theorem containsFold_shard {word : String} (hdash : '-' ∉ word.toList)
    (hletter : ∃ c ∈ word.toList, c.isDigit = false) {k : Text} (hk : Digits k) (stem n : Text) :
    containsFold (stem ++ shardTail k n) word = true ↔
      word.toList <:+: stem.map lowerRune ∨ word.toList <:+: ("of-".toList ++ n ++ ggufExt).map lowerRune := by
  have hlower : lowerRune '-' = '-' := by decide
  have hnone : ¬ word.toList <:+: k := by
    intro hin
    obtain ⟨c, hc, hdigit⟩ := hletter
    rw [hk.2 c (hin.subset hc)] at hdigit
    cases hdigit
  rw [containsFold, decide_eq_true_eq, shardTail_eq, List.map_append, List.map_cons, hlower, infix_append_cons hdash,
    List.map_append, List.map_cons, hlower, infix_append_cons hdash, hk.map_lowerRune]
  simp [hnone]

theorem base_shard (stem : Text) {n : Text} (hn : Digits n) :
    ∃ s, ∀ k, Digits k → base (stem ++ shardTail k n) = s ++ shardTail k n := by
  have hne : ∀ s k, s ++ shardTail k n ≠ [] := by
    intro s k
    simp [shardTail_eq]
  cases lastSlash_split stem with
  | inl h =>
    refine ⟨stem, fun k hk => base_of_not_mem (hne stem k) ?_⟩
    rw [List.mem_append, not_or]
    exact ⟨h, shardTail_slash hk hn⟩
  | inr h =>
    obtain ⟨p, e, rfl, he⟩ := h
    refine ⟨e, fun k hk => ?_⟩
    rw [List.append_assoc, List.cons_append]
    apply base_append p (hne e k)
    rw [List.mem_append, not_or]
    exact ⟨he, shardTail_slash hk hn⟩

/-- The shards of one model have one score. -/
theorem score_oneSplit {fs : List Text} (h : OneSplit fs) {f g : Text} (hf : f ∈ fs) (hg : g ∈ fs) :
    score f = score g := by
  obtain ⟨stem, n, hn, hall⟩ := h
  obtain ⟨s, hbase⟩ := base_shard stem hn
  obtain ⟨k, hk, rfl⟩ := hall f hf
  obtain ⟨k', hk', rfl⟩ := hall g hg
  have hwords : ∀ word ∈ ["mmproj", "imatrix", "vision"],
      '-' ∉ word.toList ∧ ∃ c ∈ word.toList, c.isDigit = false := by simp
  have hsame : ∀ word ∈ ["mmproj", "imatrix", "vision"],
      containsFold (base (stem ++ shardTail k n)) word = containsFold (base (stem ++ shardTail k' n)) word := by
    intro word hword
    obtain ⟨hdash, hletter⟩ := hwords word hword
    rw [Bool.eq_iff_iff, hbase k hk, hbase k' hk', containsFold_shard hdash hletter hk,
      containsFold_shard hdash hletter hk']
  rw [score, score, List.filter_congr hsame]

theorem isShard_of_oneSplit {fs : List Text} (h : OneSplit fs) {f : Text} (hf : f ∈ fs) : IsShard f := by
  obtain ⟨stem, n, hn, hall⟩ := h
  obtain ⟨s, hbase⟩ := base_shard stem hn
  obtain ⟨k, hk, rfl⟩ := hall f hf
  exact ⟨s, k, n, hbase k hk, hk, hn⟩

/-- What is selected can be loaded, and what is refused as split is split. -/
structure LoadableOnly (files : List Text) (m : Model) : Prop where
  selected : ∀ f, chooseFile go files m = .ok f → ¬ IsShard f ∧ ¬ IsAuxiliary f
  split : refusal (chooseFile go files m) = some codeSplitGGUF → ∀ f, OnlyBest go files m f → IsShard f
  shards : matching go files m ≠ [] → OneSplit (matching go files m) →
    refusal (chooseFile go files m) = some codeSplitGGUF

/-- Several shards of one model are refused as ambiguous. -/
theorem twoBest_of_oneSplit (hnodup : files.Nodup) (h : OneSplit (matching go files m))
    (hlen : 1 < (matching go files m).length) : TwoBest go files m := by
  have hbest : ∀ f ∈ matching go files m, IsBest go files m f := fun f hf =>
    ⟨hf, fun g hg => (score_oneSplit h hf hg).le⟩
  obtain ⟨f, g, hne, hf, hg⟩ := (one_lt_length_iff (hnodup.filter _)).mp hlen
  exact ⟨f, g, hne, hbest f hf, hbest g hg⟩

/-- The choice goes wrong with an auxiliary file that is the only best match, with
one that only looks split, and with several shards. -/
theorem loadableOnly_iff (hfile : m.file = []) (hnodup : files.Nodup) :
    LoadableOnly go files m ↔
      (∀ f, OnlyBest go files m f →
        (isSplit f = true → IsShard f) ∧ (isSplit f = false → ¬ IsAuxiliary f)) ∧
      (OneSplit (matching go files m) → (matching go files m).length ≤ 1) := by
  obtain ⟨-, htwo, hsplit⟩ := refusal_iff go hfile hnodup
  have hok := chooseFile_ok_iff go hfile hnodup
  constructor
  · intro h
    refine ⟨fun f hf => ⟨fun hs => h.split (hsplit.mpr ⟨f, hf, hs⟩) f hf, fun hs =>
      (h.selected f ((hok f).mpr ⟨hf, hs⟩)).2⟩, fun hone => ?_⟩
    by_contra hlen
    have hmany := twoBest_of_oneSplit go hnodup hone (by omega)
    have hcode := h.shards (hmany.matching_ne_nil go) hone
    obtain ⟨f, hf, -⟩ := hsplit.mp hcode
    exact not_twoBest_of_onlyBest go hf hmany
  · rintro ⟨hbest, hfew⟩
    constructor
    · intro f hf
      obtain ⟨honly, hs⟩ := (hok f).mp hf
      refine ⟨fun hshard => ?_, (hbest f honly).2 hs⟩
      rw [isSplit_of_isShard hshard] at hs
      cases hs
    · intro hcode f hf
      obtain ⟨g, hg, hs⟩ := hsplit.mp hcode
      obtain rfl := hf.unique go hg
      exact (hbest f hf).1 hs
    · intro hne hone
      have hlen := hfew hone
      obtain ⟨f, fs, hm⟩ := List.exists_cons_of_ne_nil hne
      have hnil : fs = [] := by
        rw [hm, List.length_cons] at hlen
        exact List.length_eq_zero_iff.mp (by omega)
      rw [hnil] at hm
      have hshard := isShard_of_oneSplit hone (by simp [hm] : f ∈ matching go files m)
      exact hsplit.mpr ⟨f, onlyBest_of_single go hm, isSplit_of_isShard hshard⟩

/-- A shard and a projector. -/
def shardListing : List Text := ["m-1-of-2.gguf".toList, "mmproj-m.gguf".toList]

theorem loadableOnly_iff_shardListing :
    LoadableOnly starLibrary shardListing starEntry ∧
      OnlyBest starLibrary shardListing starEntry "m-1-of-2.gguf".toList := by
  have hmatch : matching starLibrary shardListing starEntry = shardListing := by decide +kernel
  have honly := onlyBest_of_pair starLibrary hmatch (by decide +kernel)
  have hshard : IsShard "m-1-of-2.gguf".toList :=
    ⟨"m".toList, "1".toList, "2".toList, by decide +kernel, ⟨by decide, by simp⟩, ⟨by decide, by simp⟩⟩
  refine ⟨(loadableOnly_iff starLibrary rfl (by decide)).mpr ⟨fun f hf => ?_, fun hone => ?_⟩, honly⟩
  · obtain rfl := hf.unique starLibrary honly
    refine ⟨fun _ => hshard, fun hs => ?_⟩
    rw [isSplit_of_isShard hshard] at hs
    cases hs
  · have hsplit := isSplit_of_isShard (isShard_of_oneSplit (hmatch ▸ hone) (f := "mmproj-m.gguf".toList)
      (by simp [shardListing]))
    exact absurd hsplit (by decide +kernel)

/-- A projector alone is selected; two shards of one model are not refused as split. -/
theorem loadableOnly_fails :
    (chooseFile starLibrary ["mmproj-F16.gguf".toList] starEntry = .ok "mmproj-F16.gguf".toList ∧
      ¬ LoadableOnly starLibrary ["mmproj-F16.gguf".toList] starEntry) ∧
    (refusal (chooseFile starLibrary ["m-1-of-2.gguf".toList, "m-2-of-2.gguf".toList] starEntry) =
        some codeAmbiguousFiles ∧
      OneSplit (matching starLibrary ["m-1-of-2.gguf".toList, "m-2-of-2.gguf".toList] starEntry) ∧
      ¬ LoadableOnly starLibrary ["m-1-of-2.gguf".toList, "m-2-of-2.gguf".toList] starEntry) := by
  constructor
  · have hmatch : matching starLibrary ["mmproj-F16.gguf".toList] starEntry = ["mmproj-F16.gguf".toList] := by
      decide +kernel
    have hok := (chooseFile_ok_iff starLibrary rfl (by decide) "mmproj-F16.gguf".toList).mpr
      ⟨onlyBest_of_single starLibrary hmatch, by decide +kernel⟩
    refine ⟨hok, fun h => (h.selected _ hok).2 (.inl ?_)⟩
    decide +kernel
  · have hmatch : matching starLibrary ["m-1-of-2.gguf".toList, "m-2-of-2.gguf".toList] starEntry =
        ["m-1-of-2.gguf".toList, "m-2-of-2.gguf".toList] := by decide +kernel
    have hdigits : Digits "1".toList ∧ Digits "2".toList := by
      constructor <;> exact ⟨by decide, by simp⟩
    have hone : OneSplit ["m-1-of-2.gguf".toList, "m-2-of-2.gguf".toList] := by
      refine ⟨"m".toList, "2".toList, hdigits.2, fun f hf => ?_⟩
      simp only [List.mem_cons, List.not_mem_nil, or_false] at hf
      cases hf with
      | inl hf => exact ⟨"1".toList, hdigits.1, by rw [hf]; decide⟩
      | inr hf => exact ⟨"2".toList, hdigits.2, by rw [hf]; decide⟩
    have htwo : TwoBest starLibrary ["m-1-of-2.gguf".toList, "m-2-of-2.gguf".toList] starEntry :=
      twoBest_of_oneSplit starLibrary (by decide) (hmatch ▸ hone) (by rw [hmatch]; decide)
    have hcode := (refusal_iff starLibrary rfl (by decide)).2.1.mpr htwo
    refine ⟨hcode, hmatch ▸ hone, fun h => ?_⟩
    have hsplit := h.shards (htwo.matching_ne_nil starLibrary) (hmatch ▸ hone)
    rw [hcode] at hsplit
    exact absurd hsplit (by decide)

/-! ## Pinned files -/

/-- A listing as `listFiles` returns it. -/
def Listed (files : List Text) : Prop := files.Pairwise (· ≤ ·)

theorem listed_mergeSort (paths : List Text) : Listed (paths.mergeSort fun a b => decide (a ≤ b)) := by
  have h : (paths.mergeSort fun a b => decide (a ≤ b)).Pairwise fun a b => decide (a ≤ b) = true := by
    apply List.pairwise_mergeSort
    · intro a b c hab hbc
      simp only [decide_eq_true_eq] at hab hbc ⊢
      exact le_trans hab hbc
    · intro a b
      simp only [Bool.or_eq_true, decide_eq_true_eq]
      exact le_total a b
  exact h.imp fun hab => of_decide_eq_true hab

/-- The first file that is pinned by its path or by its base name. -/
theorem find_pinned (hlisted : Listed files) {name : Text} (hmem : name ∈ files) :
    (files.find? fun f => f = name ∨ base f = name) = some name ↔ ∀ f ∈ files, base f = name → name ≤ f := by
  induction files with
  | nil => simp at hmem
  | cons f files ih =>
    have hsorted := List.pairwise_cons.mp hlisted
    by_cases hf : f = name ∨ base f = name
    · rw [List.find?_cons_of_pos (by simpa using hf), Option.some.injEq]
      constructor
      · rintro rfl g hg -
        cases List.mem_cons.mp hg with
        | inl hg => exact hg ▸ le_refl _
        | inr hg => exact hsorted.1 g hg
      · intro hall
        cases hf with
        | inl hf => exact hf
        | inr hbase =>
          cases List.mem_cons.mp hmem with
          | inl h => exact h.symm
          | inr h => exact le_antisymm (hsorted.1 name h) (hall f List.mem_cons_self hbase)
    · rw [List.find?_cons_of_neg (by simpa using hf)]
      rw [not_or] at hf
      have hmem' : name ∈ files := (List.mem_cons.mp hmem).resolve_left (Ne.symm hf.1)
      rw [ih hsorted.2 hmem', List.forall_mem_cons]
      simp [hf.2]

/-- A pin by path wins exactly when no file before it in the listing has that path as
its base name, and its own name is not taken for a split one. -/
theorem pinned_iff (hlisted : Listed files) {name : Text} (hne : name ≠ []) (hmem : name ∈ files)
    (repo : Text) :
    (chooseFile go files { m with file := name } = .ok name ∧
        chooseExactFile go files repo name = .ok name) ↔
      (∀ f ∈ files, base f = name → name ≤ f) ∧ isSplit name = false := by
  have hexact : ∀ repo, chooseExactFile go files repo name = .ok name ↔
      (∀ f ∈ files, base f = name → name ≤ f) ∧ isSplit name = false := by
    intro repo
    rw [← find_pinned hlisted hmem, chooseExactFile]
    cases hfind : files.find? fun f => f = name ∨ base f = name with
    | none => simp
    | some f =>
      cases hs : isSplit f with
      | true =>
        simp only [Option.some.injEq]
        rw [if_pos hs]
        constructor
        · intro h
          cases h
        · rintro ⟨rfl, h⟩
          rw [hs] at h
          cases h
      | false =>
        simp only [Option.some.injEq]
        rw [if_neg (by simp [hs]), Except.ok.injEq]
        constructor
        · rintro rfl
          exact ⟨rfl, hs⟩
        · intro h
          exact h.1
  rw [chooseFile, if_pos hne, hexact, hexact, and_self]

theorem pinned_iff_nested :
    (chooseFile starLibrary ["a.gguf".toList, "b/a.gguf".toList] { starEntry with file := "a.gguf".toList } =
        .ok "a.gguf".toList ∧
      chooseExactFile starLibrary ["a.gguf".toList, "b/a.gguf".toList] "owner/repo".toList "a.gguf".toList =
        .ok "a.gguf".toList) ↔
      (∀ f ∈ ["a.gguf".toList, "b/a.gguf".toList], base f = "a.gguf".toList → "a.gguf".toList ≤ f) ∧
        isSplit "a.gguf".toList = false :=
  pinned_iff starLibrary (List.pairwise_pair.mpr (by decide +kernel)) (by decide) (by decide) _

/-- A copy in a directory that sorts before the pinned file is returned in its place. -/
theorem pinned_not_selected :
    Listed ["a/m.gguf".toList, "m.gguf".toList] ∧
      chooseFile starLibrary ["a/m.gguf".toList, "m.gguf".toList]
        { starEntry with file := "m.gguf".toList } = .ok "a/m.gguf".toList ∧
      chooseExactFile starLibrary ["a/m.gguf".toList, "m.gguf".toList] "owner/repo".toList "m.gguf".toList =
        .ok "a/m.gguf".toList := by
  have hexact : ∀ repo, chooseExactFile starLibrary ["a/m.gguf".toList, "m.gguf".toList] repo
      "m.gguf".toList = .ok "a/m.gguf".toList := by
    intro repo
    have hfind : (["a/m.gguf".toList, "m.gguf".toList].find? fun f =>
        f = "m.gguf".toList ∨ base f = "m.gguf".toList) = some "a/m.gguf".toList := by decide +kernel
    have hs : isSplit "a/m.gguf".toList = false := by decide +kernel
    rw [chooseExactFile, hfind]
    simp only [hs, Bool.false_eq_true, if_false]
  refine ⟨List.pairwise_pair.mpr (by decide +kernel), ?_, hexact _⟩
  rw [chooseFile, if_pos (by decide), hexact]

end FileSelection
