import LlamaStack.CatalogPaths
import LlamaStack.HfDownloader

/-!
# Atomic downloads

Calls of `Ensure`, one after the other, with every outcome of every operation. A
stable path never shows a part of a file, because only a renaming puts a file
there and only when it is complete.
-/
namespace DownloaderAtomicity

open Effects GoBytes GoUtf8 GoStrings GoFilepath ModelCatalog PosixFiles HfDownloader CatalogPaths

/-! ## Stable paths and temporary paths -/

/-- A path of a catalog entry's main file or projector. -/
def IsStable (modelsDir p : Text) : Prop :=
  ∃ m : Model, m.validate = .ok () ∧ ∃ a, (a, p) ∈ artifacts modelsDir m

theorem isStable_main {m : Model} (modelsDir : Text) (h : m.validate = .ok ()) :
    IsStable modelsDir (m.stablePath modelsDir) := ⟨m, h, _, List.mem_cons_self⟩

theorem isStable_mmproj {m : Model} (modelsDir : Text) (h : m.validate = .ok ()) (hm : m.mmproj ≠ []) :
    IsStable modelsDir (m.mmprojStablePath modelsDir) := by
  refine ⟨m, h, .projector m.repo m.mmproj, List.mem_cons_of_mem _ ?_⟩
  rw [if_neg hm]
  exact List.mem_singleton.mpr rfl

theorem suffix_intercalate (sep e : Text) (es : List Text) : e <:+ sep.intercalate (es ++ [e]) := by
  induction es with
  | nil => simp
  | cons x es ih =>
    rw [List.cons_append, List.intercalate_cons_of_ne_nil (by simp)]
    exact ih.trans (List.suffix_append _ _)

/-- A path ends with the name of its file. -/
theorem suffix_of_placed {modelsDir file p : Text} {m : Model} (h : Placed modelsDir m file p) :
    file <:+ p := by
  have hinter : file <:+ [slash].intercalate (stackOf p).reverse := by
    rw [h.2.1, List.reverse_cons]
    exact suffix_intercalate _ _ _
  rw [← h.2.2, clean, spell]
  split
  · exact hinter.trans (List.suffix_cons _ _)
  · split
    · rename_i h0
      simp [h.2.1] at h0
    · exact hinter

theorem isGguf_of_suffix {e p : Text} (h : e <:+ p) (he : isGguf e = true) : isGguf p = true := by
  rw [isGguf, decide_eq_true_eq] at he ⊢
  exact he.trans (h.map lowerRune)

theorem isGguf_of_isStable {modelsDir p : Text} (h : IsStable modelsDir p) : isGguf p = true := by
  obtain ⟨m, hm, a, ha⟩ := h
  cases mem_artifacts ha with
  | inl he =>
    cases he
    exact isGguf_of_suffix (suffix_of_placed (placed_main modelsDir hm)) (isGguf_append _)
  | inr he =>
    obtain ⟨hj, he⟩ := he
    cases he
    exact isGguf_of_suffix (suffix_of_placed (placed_projector modelsDir hm hj))
      (base_isGguf (((validate_iff m).mp hm).2.2.2 hj)).1

theorem isGguf_tmp (p : Text) : isGguf (p ++ tmpExt) = false := by
  have he : tmpExt.map lowerRune = tmpExt := by decide
  rw [isGguf, List.map_append, he, decide_eq_false_iff_not]
  rintro ⟨q, hq⟩
  have hlast := congrArg List.getLast? hq
  simp [ggufExt, tmpExt] at hlast

/-- No artifact's temporary path is the stable path of another. -/
theorem not_isStable_tmp (modelsDir p : Text) : ¬ IsStable modelsDir (p ++ tmpExt) := by
  intro h
  rw [← Bool.false_eq_true, ← isGguf_tmp p]
  exact isGguf_of_isStable h

/-! ## What changes at stable paths -/

/-- Every stable path shows nothing, an empty file or a complete body. -/
def Whole (modelsDir : Text) (w : World) : Prop :=
  ∀ p, IsStable modelsDir p → ∀ b, w.files.read p = some b → b = [] ∨ b ∈ w.bodies

/-- Stable paths are as they were, or they had no content and have a complete body. -/
structure Grown (modelsDir : Text) (w₀ w : World) : Prop where
  bodies : w₀.bodies ⊆ w.bodies
  stable : ∀ p, IsStable modelsDir p → w.files.read p = w₀.files.read p ∨
    ¬ Present w₀.files p ∧ ∃ b, w.files.read p = some b ∧ b ≠ [] ∧ b ∈ w.bodies

theorem grown_refl (modelsDir : Text) (w : World) : Grown modelsDir w w :=
  ⟨List.Subset.refl _, fun _ _ => .inl rfl⟩

theorem present_of_read {fs fs' : Files Text UInt8} {p : Text} (h : fs.read p = fs'.read p) :
    Present fs p ↔ Present fs' p := by
  rw [Present, Present, h]

theorem Grown.present {modelsDir p : Text} {w₀ w : World} (h : Grown modelsDir w₀ w)
    (hp : IsStable modelsDir p) (hw : Present w₀.files p) : w.files.read p = w₀.files.read p :=
  (h.stable p hp).resolve_right fun hn => hn.1 hw

theorem Grown.trans {modelsDir : Text} {w₀ w₁ w₂ : World} (h : Grown modelsDir w₀ w₁)
    (h' : Grown modelsDir w₁ w₂) : Grown modelsDir w₀ w₂ := by
  refine ⟨List.Subset.trans h.bodies h'.bodies, fun p hp => ?_⟩
  cases h.stable p hp with
  | inl he =>
    rw [← he, ← present_of_read he]
    exact h'.stable p hp
  | inr hn =>
    obtain ⟨hmissing, b, hb, hne, hmem⟩ := hn
    refine .inr ⟨hmissing, b, ?_, hne, h'.bodies hmem⟩
    rw [h'.present hp ⟨b, hb, hne⟩]
    exact hb

theorem Grown.whole {modelsDir : Text} {w₀ w : World} (h : Grown modelsDir w₀ w)
    (h₀ : Whole modelsDir w₀) : Whole modelsDir w := by
  intro p hp b hb
  cases h.stable p hp with
  | inl he => exact (h₀ p hp b (he ▸ hb)).imp_right fun hmem => h.bodies hmem
  | inr hn =>
    obtain ⟨-, b', hb', -, hmem⟩ := hn
    obtain rfl : b' = b := Option.some.inj (hb'.symm.trans hb)
    exact .inr hmem

/-- What is done to one path that is not stable does not show at stable paths. -/
theorem grown_of_same {modelsDir p : Text} {w w' : World} (hp : ¬ IsStable modelsDir p)
    (h : ∀ q, q ≠ p → w'.files.read q = w.files.read q) (hb : w.bodies ⊆ w'.bodies) :
    Grown modelsDir w w' :=
  ⟨hb, fun q hq => .inl (h q fun he => hp (he ▸ hq))⟩

/-- Whatever comes of the operation, stable paths only grow. -/
def Steady (modelsDir : Text) (w : World) (o : Op) : Prop :=
  ∀ r w', effect w o r w' → Grown modelsDir w w'

theorem steady_fileExists (modelsDir p : Text) (w : World) : Steady modelsDir w (.fileExists p) := by
  intro r w' he
  rw [he.1]
  exact grown_refl _ _

theorem steady_mkdirAll (modelsDir d : Text) (w : World) : Steady modelsDir w (.mkdirAll d) := by
  intro r w' he
  obtain rfl := he
  exact grown_refl _ _

theorem steady_list (modelsDir repo : Text) (w : World) : Steady modelsDir w (.list repo) := by
  intro r w' he
  obtain rfl := he
  exact grown_refl _ _

theorem steady_get (modelsDir repo file : Text) (w : World) : Steady modelsDir w (.get repo file) := by
  intro r w' he
  obtain rfl := he
  exact ⟨List.subset_append_right _ _, fun _ _ => .inl rfl⟩

theorem steady_close (modelsDir : Text) (file : Nat) (w : World) : Steady modelsDir w (.close file) := by
  intro r w' he
  obtain rfl := he
  exact grown_refl _ _

theorem steady_stat (modelsDir p : Text) (w : World) : Steady modelsDir w (.stat p) := by
  intro r w' he
  rw [he.1]
  exact grown_refl _ _

theorem steady_remove {modelsDir p : Text} (hp : ¬ IsStable modelsDir p) (w : World) :
    Steady modelsDir w (.remove p) := by
  intro r w' he
  cases he with
  | inl he => exact he ▸ grown_refl _ _
  | inr he =>
    subst he
    refine grown_of_same hp (fun q hq => ?_) (List.Subset.refl _)
    rw [read_unlink, if_neg hq]

theorem steady_openFile {modelsDir p : Text} (hp : ¬ IsStable modelsDir p) (w : World) :
    Steady modelsDir w (.openFile p) := by
  intro r w' he
  cases r with
  | error err => exact he ▸ grown_refl _ _
  | ok i =>
    obtain ⟨rfl, rfl⟩ := he
    refine grown_of_same hp (fun q hq => ?_) (List.Subset.refl _)
    rw [read_openTrunc, if_neg hq]

theorem steady_write {modelsDir p : Text} (hp : ¬ IsStable modelsDir p) {w : World} {file : Nat}
    (hfile : w.files.links p = some file) (chunk : Bytes) : Steady modelsDir w (.write file chunk) := by
  have happend : ∀ written, Grown modelsDir w { w with files := w.files.append file written } := by
    intro written
    refine grown_of_same hp (fun q hq => ?_) (List.Subset.refl _)
    rw [read_append hfile, if_neg hq]
  intro r w' he
  cases r with
  | some err =>
    obtain ⟨written, -, rfl⟩ := he
    exact happend written
  | none =>
    obtain rfl := he
    exact happend chunk

theorem steady_rename {modelsDir p q : Text} (hp : ¬ IsStable modelsDir p) {w : World}
    (hq : ¬ Present w.files q) {b : Bytes} (hb : w.files.read p = some b) (hne : b ≠ [])
    (hmem : b ∈ w.bodies) : Steady modelsDir w (.rename p q) := by
  intro r w' he
  cases r with
  | some err => exact he ▸ grown_refl _ _
  | none =>
    obtain ⟨-, rfl⟩ := he
    refine ⟨List.Subset.refl _, fun x hx => ?_⟩
    have hxp : x ≠ p := fun he => hp (he ▸ hx)
    by_cases hxq : x = q
    · subst hxq
      refine .inr ⟨hq, b, ?_, hne, hmem⟩
      rw [read_rename, if_pos rfl]
      exact hb
    · left
      rw [read_rename, if_neg hxq, if_neg hxp]

/-! ## One download -/

/-- Nothing but the temporary file has changed. -/
structure Loading (stable : Text) (w₀ w : World) : Prop where
  same : ∀ p, p ≠ stable ++ tmpExt → w.files.read p = w₀.files.read p
  bodies : w₀.bodies ⊆ w.bodies

/-- The file is there, and it is complete. -/
structure Published (stable : Text) (w₀ w : World) : Prop where
  same : ∀ p, p ≠ stable ++ tmpExt → p ≠ stable → w.files.read p = w₀.files.read p
  bodies : w₀.bodies ⊆ w.bodies
  whole : ∃ b, w.files.read stable = some b ∧ b ≠ [] ∧ b ∈ w.bodies

def Loaded (stable : Text) (w₀ : World) (err : Option Error) (w : World) : Prop :=
  match err with
  | some _ => Loading stable w₀ w
  | none => Published stable w₀ w

/-- What a download may do to a file by its name. -/
def Allowed (stable : Text) : Op → Prop
  | .remove p => p = stable ++ tmpExt
  | .openFile p => p = stable ++ tmpExt
  | .rename p q => p = stable ++ tmpExt ∧ q = stable
  | _ => True

def Guard (modelsDir stable : Text) (w₀ w : World) (o : Op) : Prop :=
  Loading stable w₀ w ∧ Allowed stable o ∧ (¬ Present w₀.files stable → Steady modelsDir w o)

theorem loading_refl (stable : Text) (w : World) : Loading stable w w :=
  ⟨fun _ _ => rfl, List.Subset.refl _⟩

theorem Loading.trans {stable : Text} {w₀ w₁ w₂ : World} (h : Loading stable w₀ w₁)
    (h' : Loading stable w₁ w₂) : Loading stable w₀ w₂ :=
  ⟨fun p hp => (h'.same p hp).trans (h.same p hp), List.Subset.trans h.bodies h'.bodies⟩

theorem Loading.published {stable : Text} {w₀ w₁ w₂ : World} (h : Loading stable w₀ w₁)
    (h' : Published stable w₁ w₂) : Published stable w₀ w₂ :=
  ⟨fun p hp hq => (h'.same p hp hq).trans (h.same p hp), List.Subset.trans h.bodies h'.bodies,
    h'.whole⟩

theorem ne_tmp (stable : Text) : stable ≠ stable ++ tmpExt := by
  intro h
  have hlen := congrArg List.length h
  simp [tmpExt] at hlen

/-- What is proved from a later world holds from an earlier one. -/
theorem spec_of_loading {modelsDir stable : Text} {w₀ w₁ w : World}
    {p : HfDownloader.Run (Option Error)} (h : Loading stable w₀ w₁)
    (hp : Spec effect (Guard modelsDir stable w₁) (Loaded stable w₁) p w) :
    Spec effect (Guard modelsDir stable w₀) (Loaded stable w₀) p w := by
  have hpresent := present_of_read (h.same stable (ne_tmp stable))
  refine spec_mono (fun w' o hg => ⟨h.trans hg.1, hg.2.1, fun hm => hg.2.2 (hpresent.not.mpr hm)⟩)
    (fun err w' hl => ?_) hp
  cases err with
  | some err => exact h.trans hl
  | none => exact h.published hl

variable {modelsDir stable : Text} {w₀ w : World}

theorem removeAndFail_spec (h : Loading stable w₀ w) (err : Error) :
    Spec effect (Guard modelsDir stable w₀) (Loaded stable w₀)
      (removeAndFail (stable ++ tmpExt) err) w := by
  apply spec_op ⟨h, rfl, fun _ => steady_remove (not_isStable_tmp _ _) w⟩
  intro _ w' he
  cases he with
  | inl he => exact he ▸ h
  | inr he =>
    subst he
    refine ⟨fun p hp => ?_, h.bodies⟩
    rw [read_unlink, if_neg hp]
    exact h.same p hp

theorem publish_spec (h : Loading stable w₀ w) {b : Bytes}
    (hb : w.files.read (stable ++ tmpExt) = some b) (hmem : b ∈ w.bodies) :
    Spec effect (Guard modelsDir stable w₀) (Loaded stable w₀)
      (publish (stable ++ tmpExt) stable) w := by
  have hpresent := present_of_read (h.same stable (ne_tmp stable))
  apply spec_op ⟨h, trivial, fun _ => steady_stat _ _ w⟩
  intro info w' he
  obtain ⟨rfl, he⟩ := he
  cases info with
  | error err => exact removeAndFail_spec h _
  | ok size =>
    obtain ⟨b', hb', hsize⟩ := he
    obtain rfl : b' = b := Option.some.inj (hb'.symm.trans hb)
    by_cases h0 : size = 0
    · simp only [h0, if_true]
      exact removeAndFail_spec h _
    · have hne : b' ≠ [] := by
        rintro rfl
        exact h0 hsize
      simp only [h0, if_false]
      apply spec_op ⟨h, ⟨rfl, rfl⟩, fun hm =>
        steady_rename (not_isStable_tmp _ _) (hpresent.not.mpr hm) hb hne hmem⟩
      intro err w' he
      cases err with
      | some err => exact he ▸ h
      | none =>
        obtain ⟨-, rfl⟩ := he
        refine ⟨fun p hp hq => ?_, h.bodies, b', ?_, hne, hmem⟩
        · rw [read_rename, if_neg hq, if_neg hp]
          exact h.same p hp
        · rw [read_rename, if_pos rfl]
          exact hb

/-- What the copied body leaves: all of it is in the file if there is no error. -/
def Copied (stable : Text) (w₀ : World) (all : Bytes) (ending : GoStream.ReadEnd)
    (err : Option Bytes) (w : World) : Prop :=
  Loading stable w₀ w ∧
    (err = none → ending = .eof ∧ w.files.read (stable ++ tmpExt) = some all)

variable (modelsDir) in
theorem copyBody_spec (h : Loading stable w₀ w) {file : Nat}
    (hfile : w.files.links (stable ++ tmpExt) = some file) (ending : GoStream.ReadEnd)
    (chunks : List Bytes) :
    Spec effect (Guard modelsDir stable w₀)
      (Copied stable w₀ (w.files.content file ++ chunks.flatten) ending)
      (copyBody file ending chunks) w := by
  have hother : ∀ {w : World} (written : Bytes), Loading stable w₀ w →
      w.files.links (stable ++ tmpExt) = some file →
      Loading stable w₀ { w with files := w.files.append file written } := by
    intro w written h hfile
    refine ⟨fun p hp => ?_, h.bodies⟩
    rw [read_append hfile, if_neg hp]
    exact h.same p hp
  induction chunks generalizing w with
  | nil =>
    cases ending with
    | eof =>
      refine ⟨h, fun _ => ⟨rfl, ?_⟩⟩
      rw [List.flatten_nil, List.append_nil]
      exact read_of_links hfile
    | failed message => exact ⟨h, by simp⟩
  | cons chunk chunks ih =>
    apply spec_op ⟨h, trivial, fun _ => steady_write (not_isStable_tmp _ _) hfile chunk⟩
    intro err w' he
    cases err with
    | some err =>
      obtain ⟨written, -, rfl⟩ := he
      exact ⟨hother written h hfile, by simp⟩
    | none =>
      obtain rfl := he
      have hrest := ih (hother chunk h hfile) hfile
      have hall : (w.files.append file chunk).content file ++ chunks.flatten =
          w.files.content file ++ (chunk :: chunks).flatten := by
        simp [Files.append]
      rw [hall] at hrest
      exact hrest

theorem save_spec {body : Body}
    (hbody : body.ending = .eof → body.bytes ∈ w.bodies) :
    Spec effect (Guard modelsDir stable w) (Loaded stable w) (save body stable) w := by
  apply spec_op ⟨loading_refl _ _, rfl, fun _ => steady_remove (not_isStable_tmp _ _) w⟩
  intro _ w₁ he
  have h₁ : Loading stable w w₁ := by
    cases he with
    | inl he => exact he ▸ loading_refl _ _
    | inr he =>
      subst he
      refine ⟨fun p hp => ?_, List.Subset.refl _⟩
      rw [read_unlink, if_neg hp]
  apply spec_op ⟨h₁, rfl, fun _ => steady_openFile (not_isStable_tmp _ _) w₁⟩
  intro out w₂ he
  cases out with
  | error err => exact he ▸ h₁
  | ok file =>
    obtain ⟨rfl, rfl⟩ := he
    have hfile := openTrunc_links w₁.files (stable ++ tmpExt)
    have hempty : (w₁.files.openTrunc (stable ++ tmpExt)).2.content
        (w₁.files.openTrunc (stable ++ tmpExt)).1 = [] := by
      have hread := read_openTrunc w₁.files (stable ++ tmpExt) (stable ++ tmpExt)
      rw [if_pos rfl, read_of_links hfile] at hread
      exact Option.some.inj hread
    have h₂ : Loading stable w { w₁ with files := (w₁.files.openTrunc (stable ++ tmpExt)).2 } := by
      refine ⟨fun p hp => ?_, h₁.bodies⟩
      rw [read_openTrunc, if_neg hp]
      exact h₁.same p hp
    have hcopy := copyBody_spec modelsDir h₂ hfile body.ending body.chunks
    rw [hempty, List.nil_append] at hcopy
    apply spec_bind
    refine spec_mono (fun _ _ hg => hg) (fun copyErr w₃ hc => ?_) hcopy
    apply spec_op ⟨hc.1, trivial, fun _ => steady_close _ _ w₃⟩
    intro closeErr w₄ he
    obtain rfl := he
    cases copyErr with
    | some err => exact removeAndFail_spec hc.1 _
    | none =>
      cases closeErr with
      | some err => exact removeAndFail_spec hc.1 _
      | none =>
        obtain ⟨heof, hread⟩ := hc.2 rfl
        exact publish_spec hc.1 hread (hc.1.bodies (hbody heof))

theorem download_spec (repo file stable : Text) (w : World) :
    Spec effect (Guard modelsDir stable w) (Loaded stable w) (download repo file stable) w := by
  have hgot : ∀ answer w₁, effect w (.get repo file) answer w₁ → Loading stable w w₁ := by
    rintro answer _ rfl
    exact ⟨fun _ _ => rfl, List.subset_append_right _ _⟩
  refine download_rule repo file stable ⟨loading_refl _ _, trivial, fun _ => steady_get _ _ _ w⟩
    (fun answer w₁ he _ => hgot answer w₁ he) fun status body w₁ he hstatus => ?_
  refine spec_of_loading (hgot _ _ he) (save_spec fun heof => ?_)
  obtain rfl := he
  simp [Answer.bodies, hstatus, heof]

/-! ## Missing files -/

/-- No file is removed, emptied or moved away by the name of a stable path. -/
def Safe (modelsDir : Text) : Op → Prop
  | .remove p => ¬ IsStable modelsDir p
  | .openFile p => ¬ IsStable modelsDir p
  | .rename p _ => ¬ IsStable modelsDir p
  | _ => True

def SafeGuard (modelsDir : Text) (w₀ w : World) (o : Op) : Prop :=
  Grown modelsDir w₀ w ∧ Safe modelsDir o ∧ Steady modelsDir w o

/-- How the download of a missing file ends: every stable path is as it was, or
the file alone is new. -/
structure Fetched (modelsDir q : Text) (w₀ : World) (err : Option Error) (w : World) : Prop where
  grown : Grown modelsDir w₀ w
  others : ∀ p, IsStable modelsDir p → p ≠ q → w.files.read p = w₀.files.read p
  failed : err ≠ none → ¬ Present w₀.files q ∧ w.files.read q = w₀.files.read q
  fetched : err = none → Present w.files q

variable {q : Text}

theorem Loading.grown (h : Loading q w₀ w) : Grown modelsDir w₀ w :=
  ⟨h.bodies, fun p hp => .inl (h.same p fun he => not_isStable_tmp modelsDir q (he ▸ hp))⟩

theorem fetched_of_loaded (hq : IsStable modelsDir q) (hmissing : ¬ Present w₀.files q)
    {err : Option Error} (h : Loaded q w₀ err w) : Fetched modelsDir q w₀ err w := by
  have htmp : ∀ p, IsStable modelsDir p → p ≠ q ++ tmpExt :=
    fun p hp he => not_isStable_tmp modelsDir q (he ▸ hp)
  cases err with
  | some err =>
    exact ⟨Loading.grown h, fun p hp _ => h.same p (htmp p hp),
      fun _ => ⟨hmissing, h.same q (htmp q hq)⟩, by simp⟩
  | none =>
    obtain ⟨hsame, hbodies, b, hb, hne, hmem⟩ := h
    refine ⟨⟨hbodies, fun p hp => ?_⟩, fun p hp hpq => hsame p (htmp p hp) hpq, by simp,
      fun _ => ⟨b, hb, hne⟩⟩
    by_cases hpq : p = q
    · subst hpq
      exact .inr ⟨hmissing, b, hb, hne, hmem⟩
    · exact .inl (hsame p (htmp p hp) hpq)

theorem ifMissing_spec (hq : IsStable modelsDir q) {missing : Bool}
    (hm : missing = true ↔ ¬ Present w₀.files q) {fetch : HfDownloader.Run (Option Error)}
    (h : Spec effect (Guard modelsDir q w₀) (Loaded q w₀) fetch w₀) :
    Spec effect (SafeGuard modelsDir w₀) (Fetched modelsDir q w₀) (ifMissing missing fetch) w₀ := by
  cases missing with
  | false =>
    refine ⟨grown_refl _ _, fun _ _ _ => rfl, by simp, fun _ => ?_⟩
    simpa using hm
  | true =>
    refine spec_mono (fun w o hg => ⟨hg.1.grown, ?_, hg.2.2 (hm.mp rfl)⟩)
      (fun err w hl => fetched_of_loaded hq (hm.mp rfl) hl) h
    have hallowed := hg.2.1
    cases o with
    | remove p => exact hallowed ▸ not_isStable_tmp modelsDir q
    | openFile p => exact hallowed ▸ not_isStable_tmp modelsDir q
    | rename p p' => exact hallowed.1 ▸ not_isStable_tmp modelsDir q
    | _ => trivial

/-! ## One call -/

variable (go : Library)

theorem ensureMain_spec (files : List Text) (m : Model) (q : Text) (w : World) :
    Spec effect (Guard modelsDir q w) (Loaded q w) (ensureMain go files m q) w := by
  unfold ensureMain
  cases chooseFile go files m with
  | error err => exact loading_refl q w
  | ok chosen => exact download_spec m.repo chosen q w

theorem ensureMMProj_spec (files : List Text) (m : Model) (q : Text) (w : World) :
    Spec effect (Guard modelsDir q w) (Loaded q w) (ensureMMProj go files m q) w := by
  unfold ensureMMProj
  cases chooseExactFile go files m.repo m.mmproj with
  | error err => exact loading_refl q w
  | ok chosen =>
    apply spec_op ⟨loading_refl q w, trivial, fun _ => steady_mkdirAll _ _ w⟩
    intro err w' he
    obtain rfl := he
    cases err with
    | some err => exact loading_refl q w'
    | none => exact download_spec m.repo chosen q w'

/-- The files that a request for the model needs. -/
def Required (modelsDir : Text) (m : Model) (fs : Files Text UInt8) : Prop :=
  Present fs (m.stablePath modelsDir) ∧ (m.mmproj ≠ [] → Present fs (m.mmprojStablePath modelsDir))

/-- How a call ends: with all files in place, or with an error and at most a new
main file. -/
structure Ended (modelsDir : Text) (m : Model) (w₀ : World) (r : Except Error Text) (w : World) : Prop where
  grown : Grown modelsDir w₀ w
  others : ∀ p, IsStable modelsDir p → p ≠ m.stablePath modelsDir →
    (∃ err, r = .error err) → w.files.read p = w₀.files.read p
  result : r = .ok (m.stablePath modelsDir) ∧ Required modelsDir m w.files ∨
    (∃ err, r = .error err) ∧ ¬ Required modelsDir m w.files

/-- The main path and the projector's path differ. -/
def Distinct (modelsDir : Text) (m : Model) : Prop :=
  m.mmproj ≠ [] → m.stablePath modelsDir ≠ m.mmprojStablePath modelsDir

theorem SafeGuard.trans {w₁ : World} {o : Op} (h : Grown modelsDir w₀ w₁)
    (hg : SafeGuard modelsDir w₁ w o) : SafeGuard modelsDir w₀ w o := ⟨h.trans hg.1, hg.2⟩

theorem ended_of_failed {m : Model} {err : Error}
    (h : Fetched modelsDir (m.stablePath modelsDir) w₀ (some err) w) :
    Ended modelsDir m w₀ (.error err) w := by
  obtain ⟨hmissing, hsame⟩ := h.failed (by simp)
  refine ⟨h.grown, fun p hp hne _ => h.others p hp hne, .inr ⟨⟨err, rfl⟩, fun hreq => ?_⟩⟩
  exact hmissing ((present_of_read hsame).mp hreq.1)

theorem ensureMissing_spec (files : List Text) {m : Model} (hm : m.validate = .ok ())
    (hd : Distinct modelsDir m) {mainMissing mmprojMissing : Bool}
    (hmain : mainMissing = true ↔ ¬ Present w₀.files (m.stablePath modelsDir))
    (hproj : mmprojMissing = true ↔
      m.mmproj ≠ [] ∧ ¬ Present w₀.files (m.mmprojStablePath modelsDir)) :
    Spec effect (SafeGuard modelsDir w₀) (Ended modelsDir m w₀)
      (ensureMissing go files modelsDir m mainMissing mmprojMissing) w₀ := by
  have hstable := isStable_main modelsDir hm
  apply spec_bind
  refine spec_mono (fun _ _ hg => hg) (fun err w₁ h₁ => ?_)
    (ifMissing_spec hstable hmain (ensureMain_spec go files m _ w₀))
  cases err with
  | some err => exact ended_of_failed h₁
  | none =>
    have hpresent := h₁.fetched rfl
    by_cases hj : m.mmproj = []
    · have hno : mmprojMissing = false := by
        rw [← Bool.not_eq_true, hproj]
        exact fun h => h.1 hj
      subst hno
      exact ⟨h₁.grown, by simp, .inl ⟨rfl, hpresent, fun hne => absurd hj hne⟩⟩
    · have hsame := h₁.others _ (isStable_mmproj modelsDir hm hj) (hd hj).symm
      have hmissing : mmprojMissing = true ↔ ¬ Present w₁.files (m.mmprojStablePath modelsDir) := by
        rw [hproj, present_of_read hsame]
        exact and_iff_right hj
      apply spec_bind
      refine spec_mono (fun _ _ hg => hg.trans h₁.grown) (fun err w₂ h₂ => ?_)
        (ifMissing_spec (isStable_mmproj modelsDir hm hj) hmissing (ensureMMProj_spec go files m _ w₁))
      have hmain₂ := h₂.others _ hstable (hd hj)
      cases err with
      | some err =>
        obtain ⟨hgone, hleft⟩ := h₂.failed (by simp)
        refine ⟨h₁.grown.trans h₂.grown, fun p hp hne _ => ?_, .inr ⟨⟨err, rfl⟩, fun hreq => ?_⟩⟩
        · by_cases hpj : p = m.mmprojStablePath modelsDir
          · rw [hpj, hleft, hsame]
          · rw [h₂.others p hp hpj, h₁.others p hp hne]
        · exact hgone ((present_of_read hleft).mp (hreq.2 hj))
      | none =>
        refine ⟨h₁.grown.trans h₂.grown, by simp, .inl ⟨rfl, ?_, fun _ => h₂.fetched rfl⟩⟩
        exact (present_of_read hmain₂).mpr hpresent

theorem listFiles_spec (repo : Text) {G : World → Op → Prop} (hG : G w (.list repo)) :
    Spec effect G (fun _ w' => w' = w) (listFiles go repo) w :=
  listFiles_rule go repo hG fun _ _ he _ => he

theorem missingMMProj_spec (m : Model) {G : World → Op → Prop}
    (hG : G w (.fileExists (m.mmprojStablePath modelsDir))) :
    Spec effect G (fun missing w' => w' = w ∧ (missing = true ↔
      m.mmproj ≠ [] ∧ ¬ Present w.files (m.mmprojStablePath modelsDir)))
      (missingMMProj modelsDir m) w := by
  unfold missingMMProj
  split
  · rename_i hj
    apply spec_op hG
    intro present w' he
    obtain ⟨rfl, he⟩ := he
    refine ⟨rfl, ?_⟩
    rw [← he]
    cases present <;> simp [hj]
  · rename_i hj
    exact ⟨rfl, by simp [hj]⟩

/-- What one call does, whatever its operations come to. -/
theorem ensure_spec {m : Model} (hm : m.validate = .ok ()) (hd : Distinct modelsDir m) (w : World) :
    Spec effect (SafeGuard modelsDir w) (Ended modelsDir m w) (ensure go modelsDir m) w := by
  have hlook : ∀ p, SafeGuard modelsDir w w (.fileExists p) :=
    fun p => ⟨grown_refl _ _, trivial, steady_fileExists _ p w⟩
  apply spec_op (hlook _)
  intro present w' he
  obtain ⟨rfl, hpresent⟩ := he
  apply spec_bind
  refine spec_mono (fun _ _ hg => hg) (fun mmprojMissing w₁ h₁ => ?_)
    (missingMMProj_spec m (hlook _))
  obtain ⟨rfl, hproj⟩ := h₁
  have hmain : (!present) = true ↔ ¬ Present w₁.files (m.stablePath modelsDir) := by
    rw [← hpresent]
    simp
  by_cases hall : (!(!present) && !mmprojMissing) = true
  · simp only [hall, if_true]
    simp only [Bool.not_not, Bool.and_eq_true, Bool.not_eq_true'] at hall
    refine ⟨grown_refl _ _, by simp, .inl ⟨rfl, hpresent.mp hall.1, fun hj => ?_⟩⟩
    by_contra hno
    have hyes := hproj.mpr ⟨hj, hno⟩
    rw [hall.2] at hyes
    cases hyes
  · have hnot : ¬ Required modelsDir m w₁.files := by
      rintro ⟨h₁, h₂⟩
      apply hall
      have hfalse : mmprojMissing = false := by
        rw [← Bool.not_eq_true, hproj]
        exact fun h => h.2 (h₂ h.1)
      simp [hpresent.mpr h₁, hfalse]
    have hfail : ∀ err, Ended modelsDir m w₁ (.error err) w₁ := fun err =>
      ⟨grown_refl _ _, fun _ _ _ _ => rfl, .inr ⟨⟨err, rfl⟩, hnot⟩⟩
    simp only [hall, Bool.false_eq_true, if_false]
    apply spec_op ⟨grown_refl _ _, trivial, steady_mkdirAll _ _ w₁⟩
    intro err w₂ he
    obtain rfl := he
    cases err with
    | some err => exact hfail _
    | none =>
      apply spec_bind
      refine spec_mono (fun _ _ hg => hg) (fun files w₃ h₃ => ?_)
        (listFiles_spec go m.repo ⟨grown_refl _ _, trivial, steady_list _ _ w₂⟩)
      obtain rfl := h₃
      cases files with
      | error err => exact hfail _
      | ok files => exact ensureMissing_spec go files hm hd hmain hproj

/-- With all files in place, a call only looks for them. -/
theorem ensure_idle {m : Model} {w : World} (hreq : Required modelsDir m w.files) :
    Spec effect (fun w' o => w' = w ∧ ∃ p, o = .fileExists p)
      (fun r w' => w' = w ∧ r = .ok (m.stablePath modelsDir)) (ensure go modelsDir m) w := by
  apply spec_op ⟨rfl, _, rfl⟩
  intro present w' he
  obtain ⟨rfl, hpresent⟩ := he
  obtain rfl : present = true := hpresent.mpr hreq.1
  apply spec_bind
  refine spec_mono (fun _ _ hg => hg) (fun mmprojMissing w₁ h₁ => ?_)
    (missingMMProj_spec m ⟨rfl, _, rfl⟩)
  obtain ⟨rfl, hproj⟩ := h₁
  obtain rfl : mmprojMissing = false := by
    rw [← Bool.not_eq_true, hproj]
    exact fun h => h.2 (hreq.2 h.1)
  exact ⟨rfl, rfl⟩

/-- Such a call does come to its end. -/
theorem ensure_idle_run {m : Model} {w : World} (hreq : Required modelsDir m w.files) :
    ∃ t, Effects.Run effect (ensure go modelsDir m) w t (.done (.ok (m.stablePath modelsDir))) w := by
  have hmain : effect w (.fileExists (m.stablePath modelsDir)) true w := ⟨rfl, by simpa using hreq.1⟩
  have hproj : ∃ t, Effects.Run effect (missingMMProj modelsDir m) w t (.done false) w := by
    unfold missingMMProj
    split
    · rename_i hj
      exact ⟨_, .step (r := true) ⟨rfl, by simpa using hreq.2 hj⟩ (.refl _ _)⟩
    · exact ⟨_, .refl _ _⟩
  obtain ⟨t, ht⟩ := hproj
  exact ⟨_, .step hmain (ht.bind (.refl _ _))⟩

/-! ## What a call that returns has established -/

/-- Once a file has content it keeps some, and a file that was fetched has. -/
structure Filled (modelsDir q : Text) (w₀ : World) (err : Option Error) (w : World) : Prop where
  present : err = none → Present w.files q
  others : ∀ p, IsStable modelsDir p → Present w₀.files p → err = none → Present w.files p

theorem ifMissing_present {missing : Bool} (hm : missing = false → Present w₀.files q)
    {fetch : HfDownloader.Run (Option Error)}
    (h : Spec effect (Guard modelsDir q w₀) (Loaded q w₀) fetch w₀) :
    Spec effect (fun _ _ => True) (Filled modelsDir q w₀) (ifMissing missing fetch) w₀ := by
  cases missing with
  | false => exact ⟨fun _ => hm rfl, fun _ _ hp _ => hp⟩
  | true =>
    refine spec_mono (fun _ _ _ => trivial) (fun err w hl => ?_) h
    cases err with
    | some err => exact ⟨by simp, by simp⟩
    | none =>
      obtain ⟨hsame, -, b, hb, hne, -⟩ := hl
      refine ⟨fun _ => ⟨b, hb, hne⟩, fun p hp hpres _ => ?_⟩
      by_cases hpq : p = q
      · exact hpq ▸ ⟨b, hb, hne⟩
      · have htmp : p ≠ q ++ tmpExt := fun he => not_isStable_tmp modelsDir q (he ▸ hp)
        exact (present_of_read (hsame p htmp hpq)).mpr hpres

theorem ensureMissing_required (files : List Text) {m : Model} (hm : m.validate = .ok ()) {w : World}
    {mainMissing mmprojMissing : Bool}
    (hmain : mainMissing = false → Present w.files (m.stablePath modelsDir))
    (hproj : mmprojMissing = false → m.mmproj ≠ [] → Present w.files (m.mmprojStablePath modelsDir))
    (hnone : m.mmproj = [] → mmprojMissing = false) :
    Spec effect (fun _ _ => True)
      (fun r w' => (∃ path, r = .ok path) → Required modelsDir m w'.files)
      (ensureMissing go files modelsDir m mainMissing mmprojMissing) w := by
  have hfirst : Spec effect (fun _ _ => True) (Filled modelsDir (m.stablePath modelsDir) w)
      (ifMissing mainMissing (ensureMain go files m (m.stablePath modelsDir))) w :=
    ifMissing_present hmain (ensureMain_spec go files m _ w)
  apply spec_bind
  refine spec_mono (fun _ _ hg => hg) (fun err w₁ h₁ => ?_) hfirst
  cases err with
  | some err => exact fun h => by simp at h
  | none =>
    by_cases hj : m.mmproj = []
    · rw [hnone hj]
      exact fun _ => ⟨h₁.present rfl, fun hne => absurd hj hne⟩
    · have hkept : mmprojMissing = false → Present w₁.files (m.mmprojStablePath modelsDir) :=
        fun h => h₁.others _ (isStable_mmproj modelsDir hm hj) (hproj h hj) rfl
      have hsecond : Spec effect (fun _ _ => True)
          (Filled modelsDir (m.mmprojStablePath modelsDir) w₁)
          (ifMissing mmprojMissing (ensureMMProj go files m (m.mmprojStablePath modelsDir))) w₁ :=
        ifMissing_present hkept (ensureMMProj_spec go files m _ w₁)
      apply spec_bind
      refine spec_mono (fun _ _ hg => hg) (fun err w₂ h₂ => ?_) hsecond
      cases err with
      | some err => exact fun h => by simp at h
      | none =>
        exact fun _ => ⟨h₂.others _ (isStable_main modelsDir hm) (h₁.present rfl) rfl,
          fun _ => h₂.present rfl⟩

/-- A call without an error leaves all files in place, also where the main file
and the projector have one path. -/
theorem ensure_required {m : Model} (hm : m.validate = .ok ()) (w : World) :
    Spec effect (fun _ _ => True)
      (fun r w' => (∃ path, r = .ok path) → Required modelsDir m w'.files)
      (ensure go modelsDir m) w := by
  apply spec_op trivial
  intro present w' he
  obtain ⟨rfl, hpresent⟩ := he
  apply spec_bind
  refine spec_mono (fun _ _ hg => hg) (fun mmprojMissing w₁ h₁ => ?_) (missingMMProj_spec m trivial)
  obtain ⟨rfl, hproj⟩ := h₁
  have hmain : (!present) = false → Present w₁.files (m.stablePath modelsDir) := by
    intro h
    exact hpresent.mp (by simpa using h)
  have hkept : mmprojMissing = false → m.mmproj ≠ [] →
      Present w₁.files (m.mmprojStablePath modelsDir) := by
    intro h hj
    by_contra hno
    rw [hproj.mpr ⟨hj, hno⟩] at h
    cases h
  have hnone : m.mmproj = [] → mmprojMissing = false := by
    intro hj
    rw [← Bool.not_eq_true, hproj]
    exact fun h => h.1 hj
  by_cases hall : (!(!present) && !mmprojMissing) = true
  · simp only [hall, if_true]
    simp only [Bool.not_not, Bool.and_eq_true, Bool.not_eq_true'] at hall
    exact fun _ => ⟨hpresent.mp hall.1, hkept hall.2⟩
  · simp only [hall, Bool.false_eq_true, if_false]
    apply spec_op trivial
    intro err w₂ he
    obtain rfl := he
    cases err with
    | some err => exact fun h => by simp at h
    | none =>
      apply spec_bind
      refine spec_mono (fun _ _ hg => hg) (fun files w₃ h₃ => ?_) (listFiles_spec go m.repo trivial)
      obtain rfl := h₃
      cases files with
      | error err => exact fun h => by simp at h
      | ok files => exact ensureMissing_required go files hm hmain hkept hnone

/-! ## Sequences of calls -/

/-- Calls one after the other, and what each returns. -/
def ensureAll (modelsDir : Text) : List Model → HfDownloader.Run (List (Except Error Text))
  | [] => return []
  | m :: ms => do
    let r ← ensure go modelsDir m
    let rs ← ensureAll modelsDir ms
    return r :: rs

theorem ensureAll_spec {ms : List Model} (hms : ∀ m ∈ ms, m.validate = .ok () ∧ Distinct modelsDir m)
    (w : World) :
    Spec effect (SafeGuard modelsDir w) (fun _ w' => Grown modelsDir w w')
      (ensureAll go modelsDir ms) w := by
  induction ms generalizing w with
  | nil => exact grown_refl _ _
  | cons m ms ih =>
    obtain ⟨hm, hd⟩ := hms m (by simp)
    apply spec_bind
    refine spec_mono (fun _ _ hg => hg) (fun r w₁ h₁ => ?_) (ensure_spec go hm hd w)
    apply spec_bind
    refine spec_mono (fun _ _ hg => hg.trans h₁.grown) (fun rs w₂ h₂ => ?_)
      (ih (fun m' hm' => hms m' (by simp [hm'])) w₁)
    exact h₁.grown.trans h₂

/-- A sequence of calls that is under way has only grown, and so it goes on. -/
theorem grown_of_run {ms : List Model} (hms : ∀ m ∈ ms, m.validate = .ok () ∧ Distinct modelsDir m)
    {t t' : List (Event Op Op.Res)} {p p' : HfDownloader.Run (List (Except Error Text))} {w' : World}
    (h : Effects.Run effect (ensureAll go modelsDir ms) w₀ t p w) (h' : Effects.Run effect p w t' p' w') :
    Grown modelsDir w₀ w ∧ Grown modelsDir w w' ∧ ∀ e ∈ t, Safe modelsDir e.op := by
  obtain ⟨hp, ht⟩ := spec_run (ensureAll_spec go hms w₀) h
  have hgrown := spec_state (I := Grown modelsDir w₀) (fun _ _ hg => hg.1) (fun _ _ hq => hq) hp
  refine ⟨hgrown, ?_, fun e he => ?_⟩
  · exact spec_rel (grown_refl modelsDir) Grown.trans (fun _ _ hg => hg.2.2) hp h'
  · obtain ⟨w₁, hg⟩ := ht e he
    exact hg.2.1

/-- What a finished call has done: an error leaves every stable path as it was,
but for a main file that the call published, and there is no error exactly when
all files are in place. -/
structure Kept (modelsDir : Text) (m : Model) (w : World) (r : Except Error Text) (w' : World) : Prop where
  failed : (∃ err, r = .error err) → ∀ p, IsStable modelsDir p →
    w'.files.read p = w.files.read p ∨
      p = m.stablePath modelsDir ∧ ¬ Present w.files p ∧ Present w'.files p
  returned : (∃ path, r = .ok path) ↔ Required modelsDir m w'.files

theorem Ended.kept {m : Model} (hm : m.validate = .ok ()) {r : Except Error Text} {w' : World}
    (h : Ended modelsDir m w r w') : Kept modelsDir m w r w' := by
  constructor
  · intro hr p hp
    by_cases hmain : p = m.stablePath modelsDir
    · subst hmain
      cases h.grown.stable _ (isStable_main modelsDir hm) with
      | inl hsame => exact .inl hsame
      | inr hnew =>
        obtain ⟨hmissing, b, hb, hne, -⟩ := hnew
        exact .inr ⟨rfl, hmissing, b, hb, hne⟩
    · exact .inl (h.others p hp hmain hr)
  · cases h.result with
    | inl hok => exact iff_of_true ⟨_, hok.1⟩ hok.2
    | inr herr =>
      obtain ⟨⟨err, rfl⟩, hno⟩ := herr
      exact iff_of_false (by simp) hno

/-- Atomicity of the downloader. At every moment of a sequence of calls the stable
paths show complete bodies or no content, what they show stays, and no stable
path serves as a temporary one. A finished call is as `Kept` says, and with all
files in place it makes no request and writes nothing. -/
theorem ensure_atomic {ms : List Model}
    (hms : ∀ m ∈ ms, m.validate = .ok () ∧ Distinct modelsDir m) {w₀ : World}
    (hw : Whole modelsDir w₀) :
    (∀ t p w, Effects.Run effect (ensureAll go modelsDir ms) w₀ t p w →
      Whole modelsDir w ∧
        (∀ t' p' w', Effects.Run effect p w t' p' w' → ∀ q, IsStable modelsDir q →
          Present w.files q → w'.files.read q = w.files.read q) ∧
        ∀ e ∈ t, Safe modelsDir e.op) ∧
      ∀ m ∈ ms, ∀ w t,
        (∀ r w', Effects.Run effect (ensure go modelsDir m) w t (.done r) w' →
          Kept modelsDir m w r w') ∧
        ∀ p w', Effects.Run effect (ensure go modelsDir m) w t p w' →
          Required modelsDir m w.files → ∀ e ∈ t, ∃ q, e.op = .fileExists q := by
  refine ⟨fun t p w h => ⟨?_, fun t' p' w' h' q hq hp => ?_, ?_⟩, fun m hm w t =>
    ⟨fun r w' h => ?_, fun p w' h hreq e he => ?_⟩⟩
  · exact (grown_of_run go hms h (.refl _ _)).1.whole hw
  · exact (grown_of_run go hms h h').2.1.present hq hp
  · exact (grown_of_run go hms h (.refl _ _)).2.2
  · obtain ⟨hv, hd⟩ := hms m hm
    exact Ended.kept hv (spec_run (ensure_spec go hv hd w) h).1
  · obtain ⟨w₁, -, hq⟩ := (spec_run (ensure_idle go hreq) h).2 e he
    exact hq

def noFiles : Files Text UInt8 where
  links _ := none
  content _ := []
  fresh := 0
  lt_fresh _ _ h := by cases h
  link_inj _ _ _ h := by cases h

/-- A library whose globs match everything. -/
def sampleLibrary : Library := ⟨fun _ _ => true, encodeText, id⟩

def sampleEntry : Model := entry "Qwen/Qwen3-4B-GGUF" "Q4_K_M"

theorem whole_put {w : World} {b : Bytes} (hw : Whole modelsDir w) (hb : b ∈ w.bodies) (p : Text) :
    Whole modelsDir ⟨w.files.put p b, w.bodies⟩ := by
  intro q hq c hc
  change (w.files.put p b).read q = some c at hc
  rw [read_put] at hc
  split at hc
  · exact .inr (Option.some.inj hc ▸ hb)
  · exact hw q hq c hc

theorem whole_put_tmp {w : World} (hw : Whole modelsDir w) (p : Text) (b : Bytes) :
    Whole modelsDir ⟨w.files.put (p ++ tmpExt) b, w.bodies⟩ := by
  intro q hq c hc
  have hne : q ≠ p ++ tmpExt := fun he => not_isStable_tmp modelsDir p (he ▸ hq)
  change (w.files.put (p ++ tmpExt) b).read q = some c at hc
  rw [read_put, if_neg hne] at hc
  exact hw q hq c hc

/-- An entry with a projector. -/
def pairedEntry : Model := { entry "owner/paired" "Q4" with mmproj := "mmproj-F16.gguf".toList }

/-- The main file of the entry is complete. A download of its projector was interrupted. -/
def interrupted : World where
  files :=
    (noFiles.put (pairedEntry.stablePath modelsRoot) [1]).put (pairedEntry.mmprojStablePath modelsRoot ++ tmpExt) [2]
  bodies := [[1]]

theorem whole_interrupted : Whole modelsRoot interrupted := by
  have hnone : Whole modelsRoot ⟨noFiles, [[1]]⟩ := by
    rintro q _ c hc
    cases hc
  exact whole_put_tmp (whole_put hnone (List.mem_singleton.mpr rfl) (pairedEntry.stablePath modelsRoot)) _ [2]

/-- A call that goes on where the interrupted one was, and one for another entry. -/
theorem ensure_atomic_interrupted :
    (∀ t p w, Effects.Run effect (ensureAll sampleLibrary modelsRoot [pairedEntry, sampleEntry]) interrupted t p w →
      Whole modelsRoot w ∧
        (∀ t' p' w', Effects.Run effect p w t' p' w' → ∀ q, IsStable modelsRoot q →
          Present w.files q → w'.files.read q = w.files.read q) ∧
        ∀ e ∈ t, Safe modelsRoot e.op) ∧
      ∀ m ∈ [pairedEntry, sampleEntry], ∀ w t,
        (∀ r w', Effects.Run effect (ensure sampleLibrary modelsRoot m) w t (.done r) w' →
          Kept modelsRoot m w r w') ∧
        ∀ p w', Effects.Run effect (ensure sampleLibrary modelsRoot m) w t p w' →
          Required modelsRoot m w.files → ∀ e ∈ t, ∃ q, e.op = .fileExists q := by
  refine ensure_atomic sampleLibrary (fun m hm => ?_) whole_interrupted
  simp only [List.mem_cons, List.not_mem_nil, or_false] at hm
  rcases hm with rfl | rfl
  · have hpaths : pairedEntry.stablePath modelsRoot = "/models/hf/owner/paired/Q4.gguf".toList ∧
        pairedEntry.mmprojStablePath modelsRoot = "/models/hf/owner/paired/mmproj-F16.gguf".toList := by decide +kernel
    refine ⟨by decide, fun _ => ?_⟩
    rw [hpaths.1, hpaths.2]
    decide
  · exact ⟨by decide, fun h => absurd rfl h⟩

end DownloaderAtomicity
