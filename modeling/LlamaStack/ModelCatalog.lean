import LlamaStack.GoFilepath
import LlamaStack.GoStrings

/-!
# The model catalog

The entries of the catalog file, the checks they pass when it is loaded, and the
names and local paths derived from them. An entry's two files stand in one
directory, which the repo names.
-/
namespace ModelCatalog

open GoBytes GoUtf8 GoStrings GoFilepath

structure Model where
  repo : Text
  quant : Text
  pattern : Text
  file : Text
  mmproj : Text
  name : Text
  kind : Text
  deriving DecidableEq

/-- Why an entry is refused, with the text that is at fault. -/
inductive ValidateError where
  | repoNotOwnerName (repo : Text)
  | quantRequired (repo : Text)
  | quantSlash (quant : Text)
  | mmprojNotGguf (mmproj : Text)
  deriving DecidableEq

def ggufExt : Text := ".gguf".toList
def hf : Text := "hf".toList

/-- `strings.HasSuffix(strings.ToLower(s), ".gguf")`. -/
def isGguf (s : Text) : Bool := decide (ggufExt <:+ s.map lowerRune)

def Model.validate (m : Model) : Except ValidateError Unit :=
  if m.repo.count slash ≠ 1 then .error (.repoNotOwnerName m.repo)
  else if m.quant = [] then .error (.quantRequired m.repo)
  else if slash ∈ m.quant then .error (.quantSlash m.quant)
  else if m.mmproj ≠ [] ∧ isGguf m.mmproj = false then .error (.mmprojNotGguf m.mmproj)
  else .ok ()

def Model.ref (m : Model) : Text := m.repo ++ slash :: m.quant

def Model.displayName (m : Model) : Text := if m.name ≠ [] then m.name else m.ref

def Model.globPattern (m : Model) : Text :=
  if m.file ≠ [] then m.file
  else if m.pattern ≠ [] then m.pattern
  else "*".toList ++ m.quant ++ "*.gguf".toList

def Model.stableRelPath (m : Model) : Text := join [hf, m.repo, m.quant ++ ggufExt]

def Model.stablePath (m : Model) (modelsDir : Text) : Text := join [modelsDir, m.stableRelPath]

def Model.mmprojStableRelPath (m : Model) : Text :=
  if m.mmproj = [] then [] else join [hf, m.repo, base m.mmproj]

def Model.mmprojStablePath (m : Model) (modelsDir : Text) : Text :=
  if m.mmproj = [] then [] else join [modelsDir, m.mmprojStableRelPath]

/-- The entries of a catalog file that was accepted. -/
structure Catalog where
  models : List Model
  valid : ∀ m ∈ models, m.validate = .ok ()

/-- The first entry that is refused, and its number. -/
def firstInvalid : Nat → List Model → Option (Nat × ValidateError)
  | _, [] => none
  | i, m :: ms =>
    match m.validate with
    | .error e => some (i, e)
    | .ok () => firstInvalid (i + 1) ms

theorem valid_of_firstInvalid {i : Nat} {ms : List Model} (h : firstInvalid i ms = none) :
    ∀ m ∈ ms, m.validate = .ok () := by
  induction ms generalizing i with
  | nil => simp
  | cons m ms ih =>
    rw [firstInvalid] at h
    cases hm : m.validate with
    | error e => simp [hm] at h
    | ok u =>
      rw [hm] at h
      intro x hx
      cases List.mem_cons.mp hx with
      | inl hx => exact hx ▸ hm
      | inr hx => exact ih h x hx

/-- `Load`, from the entries that the file decodes to. -/
def load (models : List Model) : Except (Nat × ValidateError) Catalog :=
  match h : firstInvalid 0 models with
  | some e => .error e
  | none => .ok ⟨models, valid_of_firstInvalid h⟩

def Catalog.byRef (c : Catalog) (ref : Text) : Option Model :=
  c.models.find? fun m => m.ref = ref ∨ m.displayName = ref

theorem byRef_mem {c : Catalog} {ref : Text} {m : Model} (h : c.byRef ref = some m) :
    m ∈ c.models := List.mem_of_find?_eq_some h

theorem byRef_name {c : Catalog} {ref : Text} {m : Model} (h : c.byRef ref = some m) :
    m.ref = ref ∨ m.displayName = ref := by simpa using List.find?_some h

/-! ## What the checks establish -/

theorem validate_iff (m : Model) : m.validate = .ok () ↔
    m.repo.count slash = 1 ∧ m.quant ≠ [] ∧ slash ∉ m.quant ∧
      (m.mmproj ≠ [] → isGguf m.mmproj = true) := by
  unfold Model.validate
  split
  · simp_all
  · split
    · simp_all
    · split
      · simp_all
      · split <;> simp_all

/-- A repo is an owner and a name around its one slash. -/
theorem repo_split {m : Model} (h : m.validate = .ok ()) :
    ∃ owner name, m.repo = owner ++ slash :: name ∧ slash ∉ owner ∧ slash ∉ name := by
  have hcount := ((validate_iff m).mp h).1
  cases lastSlash_split m.repo with
  | inl hno =>
    rw [List.count_eq_zero_of_not_mem hno] at hcount
    omega
  | inr hp =>
    obtain ⟨p, e, hpe, he⟩ := hp
    refine ⟨p, e, hpe, fun hmem => ?_, he⟩
    have hpos := List.count_pos_iff.mpr hmem
    rw [hpe, List.count_append, List.count_cons_self] at hcount
    omega

theorem ref_inj {m m' : Model} (h : m.validate = .ok ()) (h' : m'.validate = .ok ())
    (he : m.ref = m'.ref) : m.repo = m'.repo ∧ m.quant = m'.quant := by
  have hq := ((validate_iff m).mp h).2.2.1
  have hq' := ((validate_iff m').mp h').2.2.1
  have hs := congrArg (List.splitOn slash) he
  simp only [Model.ref, List.splitOn_append_cons_self, List.splitOn_eq_singleton hq,
    List.splitOn_eq_singleton hq'] at hs
  have hlast := List.append_inj' hs rfl
  have hquant : m.quant = m'.quant := by simpa using hlast.2
  refine ⟨?_, hquant⟩
  have hcut := he
  rw [Model.ref, Model.ref, hquant] at hcut
  exact List.append_cancel_right hcut

theorem lowerRune_slash : lowerRune slash = slash := by decide

theorem isGguf_length {s : Text} (h : isGguf s = true) : 5 ≤ s.length := by
  have hs := (of_decide_eq_true h).length_le
  simpa [ggufExt] using hs

theorem isGguf_append (s : Text) : isGguf (s ++ ggufExt) = true := by
  have he : ggufExt.map lowerRune = ggufExt := by decide
  rw [isGguf, List.map_append, he, decide_eq_true_eq]
  exact List.suffix_append _ _

/-- The extension is read behind the last slash. -/
theorem isGguf_of_append {p e : Text} (h : isGguf (p ++ slash :: e) = true) : isGguf e = true := by
  obtain ⟨q, hq⟩ := of_decide_eq_true h
  rw [List.map_append, List.map_cons, lowerRune_slash] at hq
  rw [isGguf, decide_eq_true_eq]
  rcases List.append_eq_append_iff.mp hq with ⟨r, hr, hext⟩ | ⟨r, hr, hext⟩
  · cases r with
    | nil =>
      have hslash : slash ∈ ggufExt := by
        rw [List.nil_append] at hext
        simp [hext]
      exact absurd hslash (by decide)
    | cons c r =>
      have hslash : slash ∈ ggufExt := by simp [hext]
      exact absurd hslash (by decide)
  · cases r with
    | nil =>
      have hslash : slash ∈ ggufExt := by
        rw [List.nil_append] at hext
        simp [← hext]
      exact absurd hslash (by decide)
    | cons c r =>
      rw [List.cons_append, List.cons.injEq] at hext
      exact ⟨r, hext.2.symm⟩

/-! ## The two file names -/

def Model.mainFile (m : Model) : Text := m.quant ++ ggufExt

def Model.projectorFile (m : Model) : Text := base m.mmproj

theorem plain_of_isGguf {e : Text} (h : isGguf e = true) (hs : slash ∉ e) : Plain e := by
  have hlen := isGguf_length h
  constructor
  · rintro rfl
    simp at hlen
  · rintro rfl
    simp [dot] at hlen
  · rintro rfl
    simp [dotdot] at hlen
  · exact hs

theorem mainFile_plain {m : Model} (h : m.validate = .ok ()) : Plain m.mainFile := by
  have hq := ((validate_iff m).mp h).2.2.1
  apply plain_of_isGguf (isGguf_append _)
  rw [List.mem_append]
  rintro (hs | hs)
  · exact hq hs
  · exact absurd hs (by decide)

theorem base_isGguf {p : Text} (h : isGguf p = true) : isGguf (base p) = true ∧ slash ∉ base p := by
  have hlen := isGguf_length h
  cases lastSlash_split p with
  | inl hno =>
    have hne : p ≠ [] := by
      rintro rfl
      simp at hlen
    rw [base_of_not_mem hne hno]
    exact ⟨h, hno⟩
  | inr hp =>
    obtain ⟨q, e, rfl, he⟩ := hp
    have hg := isGguf_of_append h
    have hne : e ≠ [] := by
      rintro rfl
      exact absurd (isGguf_length hg) (by simp)
    rw [base_append q hne he]
    exact ⟨hg, he⟩

theorem projectorFile_plain {m : Model} (h : m.validate = .ok ()) (hm : m.mmproj ≠ []) :
    Plain m.projectorFile := by
  have hb := base_isGguf (((validate_iff m).mp h).2.2.2 hm)
  exact plain_of_isGguf hb.1 hb.2

/-! ## The directory of a repo -/

/-- The directory below the models directory that a repo names: parts that are
empty or a dot do not count, and two dots take one part away. -/
def repoDir (repo : Text) : List Text :=
  match repo.splitOn slash with
  | [owner, name] =>
    if name = dotdot then
      if owner = [] ∨ owner = dot ∨ owner = dotdot then [] else [hf]
    else
      (if owner = dotdot then [] else if owner = [] ∨ owner = dot then [hf] else [hf, owner]) ++
        (if name = [] ∨ name = dot then [] else [name])
  | _ => []

/-- A repo of two steps to the parent, the only one that leaves the models
directory. -/
def twoUp : Text := dotdot ++ slash :: dotdot

/-- The stack of the directory that holds an entry's files. -/
def dirStack (modelsDir repo : Text) : List Text :=
  if repo = twoUp then push (isRooted modelsDir) (stackOf modelsDir) dotdot
  else (repoDir repo).reverse ++ stackOf modelsDir

theorem hf_plain : Plain hf := by
  constructor <;> decide

theorem splitOn_repo {owner name : Text} (ho : slash ∉ owner) (hn : slash ∉ name) :
    (owner ++ slash :: name).splitOn slash = [owner, name] := by
  rw [List.splitOn_append_cons_self, List.splitOn_eq_singleton ho, List.splitOn_eq_singleton hn]
  rfl

/-- Walking a repo below `hf` yields its directory, or the two steps up. -/
theorem walk_repo {owner name : Text} (ho : slash ∉ owner) (hn : slash ∉ name) :
    (owner ++ slash :: name = twoUp ∧ walk false [hf] (owner ++ slash :: name) = [dotdot]) ∨
      (owner ++ slash :: name ≠ twoUp ∧ walk false [hf] (owner ++ slash :: name) =
        (repoDir (owner ++ slash :: name)).reverse) := by
  have hpop : push false [hf] dotdot = [] := by decide
  have hpopOwner : ∀ {o : Text}, o ≠ dotdot → push false [o, hf] dotdot = [hf] := fun h =>
    push_dotdot_cons _ _ h
  have htwo : owner ++ slash :: name = twoUp ↔ owner = dotdot ∧ name = dotdot := by
    constructor
    · intro h
      have hs := congrArg (List.splitOn slash) h
      have hd : slash ∉ dotdot := by decide
      rw [twoUp, splitOn_repo ho hn, splitOn_repo hd hd] at hs
      simpa using hs
    · rintro ⟨rfl, rfl⟩
      rfl
  have hname : ∀ stack, name ≠ dotdot → push false stack name =
      (if name = [] ∨ name = dot then [] else [name]) ++ stack := by
    intro stack hne
    by_cases hskip : name = [] ∨ name = dot
    · rw [push_skip _ _ hskip, if_pos hskip, List.nil_append]
    · rw [push_plain _ _ ⟨fun h => hskip (.inl h), fun h => hskip (.inr h), hne, hn⟩, if_neg hskip]
      rfl
  rw [walk_append, walk_single _ _ ho, walk_single _ _ hn, htwo, repoDir, splitOn_repo ho hn]
  by_cases hou : owner = dotdot
  · subst hou
    rw [hpop]
    by_cases hnu : name = dotdot
    · exact .inl ⟨⟨rfl, hnu⟩, by rw [hnu, push_dotdot_nil]⟩
    · refine .inr ⟨fun h => hnu (htwo.mp h).2, ?_⟩
      rw [hname _ hnu]
      simp only [if_neg hnu, if_true]
      split <;> rfl
  · right
    refine ⟨fun h => hou (htwo.mp h).1, ?_⟩
    by_cases hskip : owner = [] ∨ owner = dot
    · rw [push_skip _ _ hskip]
      by_cases hnu : name = dotdot
      · rw [hnu, hpop]
        have hall : owner = [] ∨ owner = dot ∨ owner = dotdot := hskip.elim .inl fun h => .inr (.inl h)
        simp [hall]
      · rw [hname _ hnu]
        simp only [if_neg hnu, if_neg hou, if_pos hskip]
        split <;> rfl
    · have hplain : Plain owner := ⟨fun h => hskip (.inl h), fun h => hskip (.inr h), hou, ho⟩
      rw [push_plain _ _ hplain]
      by_cases hnu : name = dotdot
      · rw [hnu, hpopOwner hou]
        have hall : ¬ (owner = [] ∨ owner = dot ∨ owner = dotdot) := by
          simp only [not_or] at hskip ⊢
          exact ⟨hskip.1, hskip.2, hou⟩
        simp [hall]
      · rw [hname _ hnu]
        simp only [if_neg hnu, if_neg hou, if_neg hskip]
        split <;> rfl

theorem repoDir_plain {owner name : Text} (ho : slash ∉ owner) (hn : slash ∉ name) :
    ∀ e ∈ repoDir (owner ++ slash :: name), Plain e := by
  have hname : name ≠ dotdot → ∀ e ∈ (if name = [] ∨ name = dot then [] else [name]), Plain e := by
    intro hne e he
    split at he
    · cases he
    · rename_i hskip
      rw [List.mem_singleton] at he
      exact he ▸ ⟨fun h => hskip (.inl h), fun h => hskip (.inr h), hne, hn⟩
  rw [repoDir, splitOn_repo ho hn]
  intro e he
  simp only at he
  split at he
  · split at he
    · cases he
    · exact List.mem_singleton.mp he ▸ hf_plain
  · rename_i hnu
    cases List.mem_append.mp he with
    | inr he => exact hname hnu e he
    | inl he =>
      split at he
      · cases he
      · rename_i hou
        split at he
        · exact List.mem_singleton.mp he ▸ hf_plain
        · rename_i hskip
          have hplain : Plain owner :=
            ⟨fun h => hskip (.inl h), fun h => hskip (.inr h), hou, ho⟩
          simp only [List.mem_cons, List.not_mem_nil, or_false] at he
          cases he with
          | inl he => exact he ▸ hf_plain
          | inr he => exact he ▸ hplain

/-- A file below a repo's directory, from the models directory. -/
theorem stackOf_file {m : Model} (modelsDir : Text) {file : Text} (h : m.validate = .ok ())
    (hf' : Plain file) :
    isRooted (join [modelsDir, join [hf, m.repo, file]]) = isRooted modelsDir ∧
      stackOf (join [modelsDir, join [hf, m.repo, file]]) =
        file :: dirStack modelsDir m.repo := by
  obtain ⟨owner, name, hrepo, ho, hn⟩ := repo_split h
  have hjoin : join [hf, m.repo, file] = clean (hf ++ slash :: (m.repo ++ slash :: file)) := by
    rw [join_ne_nil _ (by decide)]
    simp [List.intercalate_cons_cons]
  have hrel : isRooted (hf ++ slash :: (m.repo ++ slash :: file)) = false := by
    rw [isRooted_append _ (by decide)]
    decide
  have hstack : stackOf (hf ++ slash :: (m.repo ++ slash :: file)) =
      file :: walk false [hf] m.repo := by
    have hhf : walk false [] hf = [hf] := by decide
    rw [stackOf, hrel, walk_append, walk_append, hhf, walk_single _ _ hf'.no_slash,
      push_plain _ _ hf']
  have hclean : join [hf, m.repo, file] = spell false (file :: walk false [hf] m.repo) := by
    rw [hjoin, clean, hrel, hstack]
  have hroot : isRooted (join [hf, m.repo, file]) = false := by
    rw [hjoin, isRooted_clean, hrel]
  have hne : join [hf, m.repo, file] ≠ [] := by
    intro h0
    have hs := stackOf_clean (hf ++ slash :: (m.repo ++ slash :: file))
    rw [← hjoin, h0, hstack] at hs
    exact absurd hs (by simp [stackOf, walk, push])
  obtain ⟨h₁, h₂⟩ := join_relative modelsDir hne hroot
  refine ⟨h₁, ?_⟩
  rw [h₂, hclean, hrepo, dirStack]
  rcases walk_repo ho hn with ⟨htwo, hw⟩ | ⟨htwo, hw⟩
  · rw [hw, if_pos htwo]
    exact walk_spell_up _ _ (List.forall_mem_singleton.mpr hf')
  · rw [hw, if_neg htwo, walk_spell_plain _ _ (by simp), List.cons_append]
    intro e he
    cases List.mem_cons.mp he with
    | inl he => exact he ▸ hf'
    | inr he => exact repoDir_plain ho hn e (by simpa using he)

theorem stackOf_stablePath {m : Model} (modelsDir : Text) (h : m.validate = .ok ()) :
    isRooted (m.stablePath modelsDir) = isRooted modelsDir ∧
      stackOf (m.stablePath modelsDir) = m.mainFile :: dirStack modelsDir m.repo :=
  stackOf_file modelsDir h (mainFile_plain h)

theorem stackOf_mmprojStablePath {m : Model} (modelsDir : Text) (h : m.validate = .ok ())
    (hm : m.mmproj ≠ []) :
    isRooted (m.mmprojStablePath modelsDir) = isRooted modelsDir ∧
      stackOf (m.mmprojStablePath modelsDir) = m.projectorFile :: dirStack modelsDir m.repo := by
  rw [Model.mmprojStablePath, if_neg hm, Model.mmprojStableRelPath, if_neg hm]
  exact stackOf_file modelsDir h (projectorFile_plain h hm)

end ModelCatalog
