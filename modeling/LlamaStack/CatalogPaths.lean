import LlamaStack.ModelCatalog

/-!
# The local layout

Where the files of a catalog come to stand. A repo is checked for its number of
slashes only, so a part that is empty, a dot or two dots decides what the cleaned
path becomes.
-/
namespace CatalogPaths

open GoBytes GoUtf8 GoFilepath ModelCatalog

/-! ## Containment -/

/-- A cleaned path strictly inside a directory: the directory's elements and at
least one more. -/
def Inside (dir path : Text) : Prop :=
  isRooted path = isRooted dir ∧ ∃ es, es ≠ [] ∧ stackOf path = es ++ stackOf dir

def hfDir (modelsDir : Text) : Text := join [modelsDir, hf]

/-- A repo whose parts lead out of `hf`. -/
def Climbs (repo : Text) : Prop :=
  match repo.splitOn slash with
  | [owner, name] => (owner = dotdot ∧ name ≠ hf) ∨ ((owner = [] ∨ owner = dot) ∧ name = dotdot)
  | _ => False

theorem climbs_iff {owner name : Text} (ho : slash ∉ owner) (hn : slash ∉ name) :
    Climbs (owner ++ slash :: name) ↔
      (owner = dotdot ∧ name ≠ hf) ∨ ((owner = [] ∨ owner = dot) ∧ name = dotdot) := by
  rw [Climbs, splitOn_repo ho hn]

/-- A repo climbs exactly when its directory does not start at `hf`. -/
theorem climbs_iff_repoDir {owner name : Text} (ho : slash ∉ owner) (hn : slash ∉ name) :
    Climbs (owner ++ slash :: name) ↔ (repoDir (owner ++ slash :: name)).head? ≠ some hf := by
  have hdot : dot ≠ dotdot := by decide
  have hhf : hf ≠ dotdot := by decide
  have hskip : ¬ (hf = [] ∨ hf = dot) := by decide
  rw [climbs_iff ho hn, repoDir, splitOn_repo ho hn]
  by_cases hou : owner = dotdot
  · have hnot : ¬ (dotdot = [] ∨ dotdot = dot) := by decide
    by_cases hnu : name = dotdot
    · simp [hou, hnu, Ne.symm hhf]
    · by_cases hns : name = [] ∨ name = dot
      · have hne : name ≠ hf := by
          rintro rfl
          exact hskip hns
        simp [hou, hnu, hns, hne]
      · simp [hou, hnu, hns, hnot]
  · by_cases hos : owner = [] ∨ owner = dot
    · by_cases hnu : name = dotdot
      · have hall : owner = [] ∨ owner = dot ∨ owner = dotdot := hos.elim .inl fun h => .inr (.inl h)
        simp [hos, hnu, hall]
      · simp [hou, hos, hnu]
    · by_cases hnu : name = dotdot
      · simp [hou, hos, hnu]
      · simp [hou, hos, hnu]

theorem stackOf_hfDir (modelsDir : Text) :
    isRooted (hfDir modelsDir) = isRooted modelsDir ∧
      stackOf (hfDir modelsDir) = hf :: stackOf modelsDir := by
  obtain ⟨h₁, h₂⟩ := join_relative modelsDir (by decide : hf ≠ []) (by decide)
  refine ⟨h₁, h₂.trans ?_⟩
  rw [walk_single _ _ hf_plain.no_slash, push_plain _ _ hf_plain]

theorem length_push_dotdot {stack : List Text} (h : dotdot ∉ stack) :
    (push true stack dotdot).length ≤ stack.length := by
  cases stack with
  | nil => decide
  | cons top rest =>
    have htop : top ≠ dotdot := fun ht => h (by simp [ht])
    rw [push_dotdot_cons _ _ htop]
    simp

/-- A file below a repo's directory is inside `hf` exactly when the repo does not climb. -/
theorem inside_iff {m : Model} {modelsDir path file : Text} (h : m.validate = .ok ())
    (hr : isRooted modelsDir = true) (hp : isRooted path = isRooted modelsDir ∧
      stackOf path = file :: dirStack modelsDir m.repo) :
    Inside (hfDir modelsDir) path ↔ ¬ Climbs m.repo := by
  obtain ⟨owner, name, hrepo, ho, hn⟩ := repo_split h
  obtain ⟨hroot, hstack⟩ := stackOf_hfDir modelsDir
  rw [Inside, hp.1, hp.2, hroot, hstack, hrepo, climbs_iff_repoDir ho hn, not_not, dirStack, hr]
  by_cases htwo : owner ++ slash :: name = twoUp
  · have hdir : repoDir twoUp = [] := by decide
    rw [if_pos htwo, htwo, hdir]
    refine iff_of_false ?_ (by simp)
    rintro ⟨-, es, hes, he⟩
    have hlen := congrArg List.length he
    have hpush := length_push_dotdot ((normal_stackOf modelsDir).rooted_ups hr)
    have hpos := List.length_pos_iff.mpr hes
    simp only [List.length_cons, List.length_append] at hlen
    omega
  · rw [if_neg htwo]
    constructor
    · rintro ⟨-, es, hes, he⟩
      have hcut : file :: (repoDir (owner ++ slash :: name)).reverse = es ++ [hf] := by
        have happ : (file :: (repoDir (owner ++ slash :: name)).reverse) ++ stackOf modelsDir =
            (es ++ [hf]) ++ stackOf modelsDir := by simpa using he
        exact List.append_cancel_right happ
      obtain ⟨x, xs, rfl⟩ := List.exists_cons_of_ne_nil hes
      rw [List.cons_append, List.cons.injEq] at hcut
      have hrev := congrArg List.reverse hcut.2
      rw [List.reverse_reverse, List.reverse_append] at hrev
      rw [hrev]
      rfl
    · intro hhead
      obtain ⟨rest, hrest⟩ : ∃ rest, repoDir (owner ++ slash :: name) = hf :: rest := by
        cases hd : repoDir (owner ++ slash :: name) with
        | nil => simp [hd] at hhead
        | cons x xs =>
          rw [hd, List.head?_cons, Option.some.injEq] at hhead
          exact ⟨xs, by rw [hhead]⟩
      refine ⟨rfl, file :: rest.reverse, by simp, ?_⟩
      rw [hrest]
      simp

/-- The files of an entry stay inside `hf` exactly when its repo does not climb. -/
theorem stablePath_contained (m : Model) (modelsDir : Text) (h : m.validate = .ok ())
    (hr : isRooted modelsDir = true) :
    (Inside (hfDir modelsDir) (m.stablePath modelsDir) ∧
        (m.mmproj ≠ [] → Inside (hfDir modelsDir) (m.mmprojStablePath modelsDir))) ↔
      ¬ Climbs m.repo := by
  constructor
  · rintro ⟨hmain, -⟩
    exact (inside_iff h hr (stackOf_stablePath modelsDir h)).mp hmain
  · intro hc
    refine ⟨(inside_iff h hr (stackOf_stablePath modelsDir h)).mpr hc, fun hm => ?_⟩
    exact (inside_iff h hr (stackOf_mmprojStablePath modelsDir h hm)).mpr hc

/-- An entry with this repo and quant. -/
def entry (repo quant : String) : Model :=
  ⟨repo.toList, quant.toList, [], [], [], [], []⟩

def modelsRoot : Text := "/models".toList

theorem stablePath_contained_qwen :
    (Inside (hfDir modelsRoot) ((entry "Qwen/Qwen3-4B-GGUF" "Q4_K_M").stablePath modelsRoot) ∧
        ((entry "Qwen/Qwen3-4B-GGUF" "Q4_K_M").mmproj ≠ [] → Inside (hfDir modelsRoot)
          ((entry "Qwen/Qwen3-4B-GGUF" "Q4_K_M").mmprojStablePath modelsRoot))) ↔
      ¬ Climbs (entry "Qwen/Qwen3-4B-GGUF" "Q4_K_M").repo :=
  stablePath_contained (entry "Qwen/Qwen3-4B-GGUF" "Q4_K_M") modelsRoot (by decide) (by decide)

/-- The repo `../..` is accepted, and its file stands beside the models directory. -/
theorem stablePath_escapes :
    (entry "../.." "Q4").validate = .ok () ∧
      (entry "../.." "Q4").stablePath modelsRoot = "/Q4.gguf".toList ∧
      ¬ Inside (hfDir modelsRoot) ((entry "../.." "Q4").stablePath modelsRoot) := by
  have hpath : (entry "../.." "Q4").stablePath modelsRoot = "/Q4.gguf".toList := by decide +kernel
  refine ⟨by decide, hpath, ?_⟩
  rw [hpath]
  rintro ⟨-, es, hes, he⟩
  have h₁ : stackOf "/Q4.gguf".toList = ["Q4.gguf".toList] := by decide +kernel
  have h₂ : stackOf (hfDir modelsRoot) = [hf, "models".toList] := by decide +kernel
  rw [h₁, h₂] at he
  have hlen := congrArg List.length he
  simp at hlen

/-! ## No two files in one place -/

/-- What is fetched: a main file, known by its ref, or a projector of a repo. -/
inductive Artifact where
  | main (ref : Text)
  | projector (repo mmproj : Text)
  deriving DecidableEq

/-- The files of an entry and where they are kept. -/
def artifacts (modelsDir : Text) (m : Model) : List (Artifact × Text) :=
  (.main m.ref, m.stablePath modelsDir) ::
    if m.mmproj = [] then [] else [(.projector m.repo m.mmproj, m.mmprojStablePath modelsDir)]

/-- No two different artifacts of the catalog have one local path. -/
def Lossless (c : Catalog) : Prop :=
  ∀ modelsDir, ∀ x ∈ c.models.flatMap (artifacts modelsDir),
    ∀ y ∈ c.models.flatMap (artifacts modelsDir), x.2 = y.2 → x.1 = y.1

/-- Entries that share a directory differ in the names of their files. -/
structure Separate (c : Catalog) : Prop where
  quants : ∀ m ∈ c.models, ∀ m' ∈ c.models, repoDir m.repo = repoDir m'.repo →
    m.quant = m'.quant → m.repo = m'.repo
  projectors : ∀ m ∈ c.models, ∀ m' ∈ c.models, repoDir m.repo = repoDir m'.repo →
    m.mmproj ≠ [] → m'.mmproj ≠ [] → base m.mmproj = base m'.mmproj →
      m.repo = m'.repo ∧ m.mmproj = m'.mmproj
  kinds : ∀ m ∈ c.models, ∀ m' ∈ c.models, repoDir m.repo = repoDir m'.repo →
    m'.mmproj ≠ [] → m.quant ++ ggufExt ≠ base m'.mmproj

/-- An artifact of an entry stands in the entry's directory, under its file name. -/
def Placed (modelsDir : Text) (m : Model) (file path : Text) : Prop :=
  isRooted path = isRooted modelsDir ∧ stackOf path = file :: dirStack modelsDir m.repo ∧
    clean path = path

theorem placed_join {m : Model} {modelsDir file rel : Text}
    (h : isRooted (join [modelsDir, rel]) = isRooted modelsDir ∧
      stackOf (join [modelsDir, rel]) = file :: dirStack modelsDir m.repo) :
    Placed modelsDir m file (join [modelsDir, rel]) := by
  refine ⟨h.1, h.2, clean_join fun h0 => ?_⟩
  have hs := h.2
  rw [h0] at hs
  exact absurd hs (by simp [stackOf, walk, push])

theorem placed_main {m : Model} (modelsDir : Text) (h : m.validate = .ok ()) :
    Placed modelsDir m (m.quant ++ ggufExt) (m.stablePath modelsDir) :=
  placed_join (stackOf_stablePath modelsDir h)

theorem placed_projector {m : Model} (modelsDir : Text) (h : m.validate = .ok ())
    (hm : m.mmproj ≠ []) :
    Placed modelsDir m (base m.mmproj) (m.mmprojStablePath modelsDir) := by
  have hp := stackOf_mmprojStablePath modelsDir h hm
  rw [Model.mmprojStablePath, if_neg hm] at hp ⊢
  exact placed_join hp

theorem placed_eq_iff {m m' : Model} {modelsDir file file' path path' : Text}
    (h : Placed modelsDir m file path) (h' : Placed modelsDir m' file' path') :
    path = path' ↔ file = file' ∧ dirStack modelsDir m.repo = dirStack modelsDir m'.repo := by
  have hroot : isRooted path = isRooted path' := h.1.trans h'.1.symm
  rw [← h.2.2, ← h'.2.2, clean_eq_iff hroot, h.2.1, h'.2.1, List.cons.injEq]

theorem repoDir_twoUp : repoDir twoUp = [] := by decide

/-- A step to the parent never lands in a directory below, but for the root. -/
theorem repoDir_of_push {rooted : Bool} {stack : List Text} {m : Model} (h : m.validate = .ok ())
    (he : push rooted stack dotdot = (repoDir m.repo).reverse ++ stack) : repoDir m.repo = [] := by
  obtain ⟨owner, name, hrepo, ho, hn⟩ := repo_split h
  have hplain := repoDir_plain ho hn
  rw [← hrepo] at hplain
  have hup : ∀ s, [dotdot] ++ s ≠ (repoDir m.repo).reverse ++ s := by
    intro s hs
    have hmem : dotdot ∈ (repoDir m.repo).reverse := by
      rw [← List.append_cancel_right hs]
      simp
    exact (hplain dotdot (by simpa using hmem)).ne_dotdot rfl
  cases stack with
  | nil =>
    cases rooted with
    | true =>
      have hroot : push true [] dotdot = [] := by decide
      rw [hroot] at he
      simpa using he.symm
    | false => exact absurd he (hup [])
  | cons top rest =>
    by_cases htop : top = dotdot
    · subst htop
      exact absurd he (hup (dotdot :: rest))
    · rw [push_dotdot_cons _ _ htop] at he
      have hlen := congrArg List.length he
      simp only [List.length_append, List.length_cons] at hlen
      omega

/-- Two directories are one only if the repos spell one directory. -/
theorem repoDir_of_dirStack {m m' : Model} {modelsDir : Text} (h : m.validate = .ok ())
    (h' : m'.validate = .ok ()) (he : dirStack modelsDir m.repo = dirStack modelsDir m'.repo) :
    repoDir m.repo = repoDir m'.repo := by
  unfold dirStack at he
  by_cases h₁ : m.repo = twoUp
  · by_cases h₂ : m'.repo = twoUp
    · rw [h₁, h₂]
    · rw [if_pos h₁, if_neg h₂] at he
      rw [h₁, repoDir_twoUp, repoDir_of_push h' he]
  · by_cases h₂ : m'.repo = twoUp
    · rw [if_neg h₁, if_pos h₂] at he
      rw [h₂, repoDir_twoUp, repoDir_of_push h he.symm]
    · rw [if_neg h₁, if_neg h₂] at he
      exact List.reverse_injective (List.append_cancel_right he)

def rootDir : Text := [slash]

theorem dirStack_root (repo : Text) : dirStack rootDir repo = (repoDir repo).reverse := by
  have hs : stackOf rootDir = [] := by decide
  have hr : isRooted rootDir = true := by decide
  rw [dirStack, hs, hr]
  split
  · rename_i h
    rw [h, repoDir_twoUp]
    decide
  · simp

theorem mem_artifacts {modelsDir : Text} {m : Model} {x : Artifact × Text}
    (h : x ∈ artifacts modelsDir m) :
    x = (.main m.ref, m.stablePath modelsDir) ∨
      (m.mmproj ≠ [] ∧ x = (.projector m.repo m.mmproj, m.mmprojStablePath modelsDir)) := by
  cases List.mem_cons.mp h with
  | inl h => exact .inl h
  | inr h =>
    split at h
    · cases h
    · rename_i hm
      exact .inr ⟨hm, List.mem_singleton.mp h⟩

theorem lossless_of_separate {c : Catalog} (h : Separate c) : Lossless c := by
  intro modelsDir x hx y hy he
  obtain ⟨m, hm, hx⟩ := List.mem_flatMap.mp hx
  obtain ⟨m', hm', hy⟩ := List.mem_flatMap.mp hy
  have hv := c.valid m hm
  have hv' := c.valid m' hm'
  have hdir : ∀ {f f' p p' : Text}, Placed modelsDir m f p → Placed modelsDir m' f' p' → p = p' →
      f = f' ∧ repoDir m.repo = repoDir m'.repo := by
    intro f f' p p' hp hp' hpp
    obtain ⟨hf, hd⟩ := (placed_eq_iff hp hp').mp hpp
    exact ⟨hf, repoDir_of_dirStack hv hv' hd⟩
  rcases mem_artifacts hx with rfl | ⟨hj, rfl⟩ <;> rcases mem_artifacts hy with rfl | ⟨hj', rfl⟩
  · obtain ⟨hf, hd⟩ := hdir (placed_main _ hv) (placed_main _ hv') he
    have hq : m.quant = m'.quant := List.append_cancel_right hf
    simp only [Model.ref, hq, h.quants m hm m' hm' hd hq]
  · obtain ⟨hf, hd⟩ := hdir (placed_main _ hv) (placed_projector _ hv' hj') he
    exact absurd hf (h.kinds m hm m' hm' hd hj')
  · obtain ⟨hf, hd⟩ := hdir (placed_projector _ hv hj) (placed_main _ hv') he
    exact absurd hf.symm (h.kinds m' hm' m hm hd.symm hj)
  · obtain ⟨hf, hd⟩ := hdir (placed_projector _ hv hj) (placed_projector _ hv' hj') he
    obtain ⟨h₁, h₂⟩ := h.projectors m hm m' hm' hd hj hj' hf
    simp only [h₁, h₂]

theorem separate_of_lossless {c : Catalog} (h : Lossless c) : Separate c := by
  have hmain : ∀ m ∈ c.models, (Artifact.main m.ref, m.stablePath rootDir) ∈
      c.models.flatMap (artifacts rootDir) := fun m hm =>
    List.mem_flatMap.mpr ⟨m, hm, by simp [artifacts]⟩
  have hproj : ∀ m ∈ c.models, m.mmproj ≠ [] →
      (Artifact.projector m.repo m.mmproj, m.mmprojStablePath rootDir) ∈
        c.models.flatMap (artifacts rootDir) := fun m hm hj =>
    List.mem_flatMap.mpr ⟨m, hm, by simp [artifacts, hj]⟩
  have hpath : ∀ {m m' : Model} {f p p' : Text}, Placed rootDir m f p → Placed rootDir m' f p' →
      repoDir m.repo = repoDir m'.repo → p = p' := by
    intro m m' f p p' hp hp' hd
    rw [placed_eq_iff hp hp', dirStack_root, dirStack_root, hd]
    exact ⟨rfl, rfl⟩
  constructor
  · intro m hm m' hm' hd hq
    have hp := placed_main rootDir (c.valid m hm)
    rw [hq] at hp
    have he := h rootDir _ (hmain m hm) _ (hmain m' hm')
      (hpath hp (placed_main rootDir (c.valid m' hm')) hd)
    exact (ref_inj (c.valid m hm) (c.valid m' hm') (Artifact.main.inj he)).1
  · intro m hm m' hm' hd hj hj' hb
    have hp := placed_projector rootDir (c.valid m hm) hj
    rw [hb] at hp
    have he := h rootDir _ (hproj m hm hj) _ (hproj m' hm' hj')
      (hpath hp (placed_projector rootDir (c.valid m' hm') hj') hd)
    exact Artifact.projector.inj he
  · intro m hm m' hm' hd hj' hb
    have hp := placed_main rootDir (c.valid m hm)
    rw [hb] at hp
    have he := h rootDir _ (hmain m hm) _ (hproj m' hm' hj')
      (hpath hp (placed_projector rootDir (c.valid m' hm') hj') hd)
    cases he

/-- The layout keeps artifacts apart exactly when entries that share a directory
differ in their file names. -/
theorem layout_lossless_iff (c : Catalog) : Lossless c ↔ Separate c :=
  ⟨separate_of_lossless, lossless_of_separate⟩

/-- One repo with projectors of one name in two folders. -/
def twoFolders : Catalog where
  models := [{ entry "owner/repo" "Q4" with mmproj := "BF16/mmproj.gguf".toList },
    { entry "owner/repo" "Q8" with mmproj := "F16/mmproj.gguf".toList }]
  valid := by decide

theorem layout_not_lossless : ¬ Lossless twoFolders := by
  intro h
  have hp := (separate_of_lossless h).projectors
    { entry "owner/repo" "Q4" with mmproj := "BF16/mmproj.gguf".toList } (by simp [twoFolders])
    { entry "owner/repo" "Q8" with mmproj := "F16/mmproj.gguf".toList } (by simp [twoFolders]) rfl
    (by decide) (by decide) (by decide +kernel)
  exact absurd hp.2 (by decide)

end CatalogPaths
