import LlamaStack.DownloadTargets
import LlamaStack.DownloadViews
import LlamaStack.RivalDownloads

/-!
# Files that calls share

Calls of `EnsureAvailable` for any entries, at the same time. Stable paths show complete
bodies as long as no call opens a temporary file that a call for another ref has open.
The locks do not see to that, for two refs may have one projector.
-/
namespace SharedFiles

open Effects Interleaving GoBytes ModelCatalog RouterManager EnsureAvailable ModelLocks PosixFiles DownloaderAtomicity
  DownloadMarks DownloadTargets DownloadViews

/-! ## What the files and the calls agree on -/

variable {ι : Type} [DecidableEq ι] {modelsDir : Text} {w w' : HfDownloader.World} {v : ι → View} {i : ι}

/-- The file is at its path alone, if it still is at any, and holds what was written. -/
structure Open (modelsDir : Text) (w : HfDownloader.World) (f : Opened) : Prop where
  temporary : ¬ IsStable modelsDir f.path
  fresh : f.file < w.files.fresh
  linked : ∀ p, w.files.links p = some f.file → p = f.path
  alone : ∀ k, w.files.links f.path = some k → k = f.file
  content : ∀ c, f.content = some c → w.files.content f.file = c

structure Agrees (modelsDir : Text) (w : HfDownloader.World) (v : ι → View) : Prop where
  whole : Whole modelsDir w
  bodies : ∀ i, (v i).bodies ⊆ w.bodies
  known : ∀ i, ∀ p ∈ (v i).known, IsStable modelsDir p → HfDownloader.Present w.files p
  opened : ∀ i f, (v i).opened = some f → Open modelsDir w f
  apart : ∀ i j f g, (v i).opened = some f → (v j).opened = some g → f.file = g.file → i = j

/-- One call has come to another view. -/
theorem Agrees.update (h : Agrees modelsDir w v) {u : View} (hwhole : Whole modelsDir w')
    (hlasting : Lasting modelsDir w w') (hbodies : w.bodies ⊆ w'.bodies)
    (hothers : ∀ j, j ≠ i → ∀ f, (v j).opened = some f → Open modelsDir w' f)
    (hu : u.bodies ⊆ w'.bodies) (hknown : ∀ p ∈ u.known, IsStable modelsDir p → HfDownloader.Present w'.files p)
    (hopened : ∀ f, u.opened = some f → Open modelsDir w' f ∧
      ∀ j, j ≠ i → ∀ g, (v j).opened = some g → g.file ≠ f.file) :
    Agrees modelsDir w' (Function.update v i u) := by
  refine ⟨hwhole, fun j => ?_, fun j p hp hs => ?_, fun j f hf => ?_, fun j k f g hf hg hfg => ?_⟩
  · by_cases hj : j = i
    · subst hj
      rw [Function.update_self]
      exact hu
    · rw [Function.update_of_ne hj]
      exact List.Subset.trans (h.bodies j) hbodies
  · by_cases hj : j = i
    · subst hj
      rw [Function.update_self] at hp
      exact hknown p hp hs
    · rw [Function.update_of_ne hj] at hp
      exact hlasting p hs (h.known j p hp hs)
  · by_cases hj : j = i
    · subst hj
      rw [Function.update_self] at hf
      exact (hopened f hf).1
    · rw [Function.update_of_ne hj] at hf
      exact hothers j hj f hf
  · by_cases hj : j = i
    · by_cases hk : k = i
      · rw [hj, hk]
      · subst hj
        rw [Function.update_self] at hf
        rw [Function.update_of_ne hk] at hg
        exact absurd hfg.symm ((hopened f hf).2 k hk g hg)
    · rw [Function.update_of_ne hj] at hf
      by_cases hk : k = i
      · subst hk
        rw [Function.update_self] at hg
        exact absurd hfg ((hopened g hg).2 j hj f hf)
      · rw [Function.update_of_ne hk] at hg
        exact h.apart j k f g hf hg hfg

/-- Stable paths show what they showed. -/
def Steady (modelsDir : Text) (w w' : HfDownloader.World) : Prop :=
  ∀ p, IsStable modelsDir p → w'.files.read p = w.files.read p

theorem Steady.lasting (h : Steady modelsDir w w') : Lasting modelsDir w w' :=
  fun p hp hw => (present_of_read (h p hp)).mpr hw

theorem Steady.whole (h : Steady modelsDir w w') (hb : w.bodies ⊆ w'.bodies) (hw : Whole modelsDir w) :
    Whole modelsDir w' := by
  intro p hp b hread
  rw [h p hp] at hread
  exact (hw p hp b hread).imp_right fun hmem => hb hmem

/-- The files are as they were, and the call has learnt nothing new of them. -/
theorem Agrees.idle (h : Agrees modelsDir w v) {u : View} (hu : u.bodies ⊆ w.bodies)
    (hknown : ∀ p ∈ u.known, IsStable modelsDir p → HfDownloader.Present w.files p)
    (hopened : ∀ f, u.opened = some f → (v i).opened = some f) : Agrees modelsDir w (Function.update v i u) := by
  refine h.update h.whole (fun _ _ hw => hw) (List.Subset.refl _) (fun j _ f hf => h.opened j f hf) hu hknown ?_
  intro f hf
  refine ⟨h.opened i f (hopened f hf), fun j hj g hg hfile => hj ?_⟩
  exact h.apart j i g f hg (hopened f hf) hfile

/-! ## What an operation keeps -/

theorem Open.remove {f : Opened} (h : Open modelsDir w f) (p : Text) :
    Open modelsDir { w with files := w.files.unlink p } f := by
  refine ⟨h.temporary, h.fresh, fun q hq => ?_, fun k hk => ?_, h.content⟩
  · simp only [Files.unlink] at hq
    split at hq
    · cases hq
    · exact h.linked q hq
  · simp only [Files.unlink] at hk
    split at hk
    · cases hk
    · exact h.alone k hk

theorem agrees_remove (h : Agrees modelsDir w v) {p : Text} (hp : ¬ IsStable modelsDir p)
    (he : w' = w ∨ w' = { w with files := w.files.unlink p }) :
    Agrees modelsDir w' (Function.update v i { v i with opened := none }) := by
  have hidle : Agrees modelsDir w (Function.update v i { v i with opened := none }) :=
    h.idle (h.bodies i) (h.known i) (by simp)
  cases he with
  | inl he => exact he ▸ hidle
  | inr he =>
    subst he
    have hsteady : Steady modelsDir w { w with files := w.files.unlink p } := by
      intro q hq
      have hne : q ≠ p := fun hqp => hp (hqp ▸ hq)
      rw [read_unlink, if_neg hne]
    refine h.update (hsteady.whole (List.Subset.refl _) h.whole) hsteady.lasting (List.Subset.refl _)
      (fun j _ f hf => (h.opened j f hf).remove p) (h.bodies i) ?_ (by simp)
    exact fun q hq hs => hsteady.lasting q hs (h.known i q hq hs)

theorem Open.openTrunc {f : Opened} (h : Open modelsDir w f) {p : Text} (hp : f.path ≠ p) :
    Open modelsDir { w with files := (w.files.openTrunc p).2 } f ∧ f.file ≠ (w.files.openTrunc p).1 := by
  obtain ⟨hlinks, hcontent, hfresh, hfile⟩ := openTrunc_spec w.files p
  have hne : f.file ≠ (w.files.openTrunc p).1 := by
    intro heq
    cases hfile with
    | inl hold => exact hp (h.linked p (heq ▸ hold)).symm
    | inr hnew =>
      have hlt := h.fresh
      omega
  refine ⟨⟨h.temporary, Nat.lt_of_lt_of_le h.fresh hfresh, fun q hq => ?_, fun k hk => ?_, fun c hc => ?_⟩, hne⟩
  · change (w.files.openTrunc p).2.links q = _ at hq
    rw [hlinks] at hq
    split at hq
    · exact absurd (Option.some.inj hq).symm hne
    · exact h.linked q hq
  · change (w.files.openTrunc p).2.links f.path = _ at hk
    rw [hlinks, if_neg hp] at hk
    exact h.alone k hk
  · change (w.files.openTrunc p).2.content f.file = c
    rw [hcontent, if_neg hne]
    exact h.content c hc

theorem agrees_openFile (h : Agrees modelsDir w v) {p : Text} (hp : ¬ IsStable modelsDir p)
    (hfree : ∀ j, j ≠ i → ∀ f, (v j).opened = some f → f.path ≠ p) :
    Agrees modelsDir { w with files := (w.files.openTrunc p).2 }
      (Function.update v i { v i with opened := some ⟨p, (w.files.openTrunc p).1, some []⟩ }) := by
  obtain ⟨hlinks, hcontent, -, -⟩ := openTrunc_spec w.files p
  have hsteady : Steady modelsDir w { w with files := (w.files.openTrunc p).2 } := by
    intro q hq
    have hne : q ≠ p := fun hqp => hp (hqp ▸ hq)
    rw [read_openTrunc, if_neg hne]
  have hself : (w.files.openTrunc p).2.links p = some (w.files.openTrunc p).1 := openTrunc_links w.files p
  refine h.update (hsteady.whole (List.Subset.refl _) h.whole) hsteady.lasting (List.Subset.refl _)
    (fun j hj f hf => ((h.opened j f hf).openTrunc (hfree j hj f hf)).1) (h.bodies i) ?_ ?_
  · exact fun q hq hs => hsteady.lasting q hs (h.known i q hq hs)
  · intro f hf
    obtain rfl := Option.some.inj hf
    refine ⟨⟨hp, (w.files.openTrunc p).2.lt_fresh p _ hself, fun q hq => ?_, fun k hk => ?_, fun c hc => ?_⟩,
      fun j hj g hg => ((h.opened j g hg).openTrunc (hfree j hj g hg)).2⟩
    · exact (w.files.openTrunc p).2.link_inj q p _ hq hself
    · exact Option.some.inj (hk.symm.trans hself)
    · obtain rfl := Option.some.inj hc
      change (w.files.openTrunc p).2.content (w.files.openTrunc p).1 = []
      rw [hcontent, if_pos rfl]

theorem Open.write {f : Opened} (h : Open modelsDir w f) {k : Nat} (hk : f.file ≠ k) (chunk : Bytes) :
    Open modelsDir { w with files := w.files.append k chunk } f := by
  refine ⟨h.temporary, h.fresh, h.linked, h.alone, fun c hc => ?_⟩
  simp only [Files.append, if_neg hk]
  exact h.content c hc

theorem agrees_write (h : Agrees modelsDir w v) {f : Opened} (hf : (v i).opened = some f) {chunk : Bytes}
    {content : Option Bytes} (hcontent : ∀ c, content = some c → w.files.content f.file ++ chunk = c) :
    Agrees modelsDir { w with files := w.files.append f.file chunk }
      (Function.update v i { v i with opened := some { f with content := content } }) := by
  have hopen := h.opened i f hf
  have hsteady : Steady modelsDir w { w with files := w.files.append f.file chunk } := by
    intro q hq
    exact read_append_other (fun hl => hopen.temporary (hopen.linked q hl ▸ hq)) chunk
  have hothers : ∀ j, j ≠ i → ∀ g, (v j).opened = some g → g.file ≠ f.file :=
    fun j hj g hg hfile => hj (h.apart j i g f hg hf hfile)
  refine h.update (hsteady.whole (List.Subset.refl _) h.whole) hsteady.lasting (List.Subset.refl _)
    (fun j hj g hg => (h.opened j g hg).write (hothers j hj g hg) chunk) (h.bodies i) ?_ ?_
  · exact fun q hq hs => hsteady.lasting q hs (h.known i q hq hs)
  · intro g hg
    obtain rfl := Option.some.inj hg
    refine ⟨⟨hopen.temporary, hopen.fresh, hopen.linked, hopen.alone, fun c hc => ?_⟩, hothers⟩
    change (if f.file = f.file then w.files.content f.file ++ chunk else w.files.content f.file) = c
    rw [if_pos rfl]
    exact hcontent c hc

theorem Open.rename {f : Opened} (h : Open modelsDir w f) {p q : Text} (hq : IsStable modelsDir q)
    (hp : w.files.links p ≠ some f.file) : Open modelsDir { w with files := w.files.rename p q } f := by
  refine ⟨h.temporary, h.fresh, fun x hx => ?_, fun k hk => ?_, h.content⟩
  · simp only [Files.rename] at hx
    split at hx
    · exact absurd hx hp
    · split at hx
      · cases hx
      · exact h.linked x hx
  · simp only [Files.rename] at hk
    split at hk
    · rename_i hfq
      exact absurd (hfq ▸ hq) h.temporary
    · split at hk
      · cases hk
      · exact h.alone k hk

/-- A file that its call knows complete takes its final name. -/
theorem agrees_rename (h : Agrees modelsDir w v) {p q : Text} (hq : IsStable modelsDir q) {k : Nat} {c : Bytes}
    (hf : (v i).opened = some ⟨p, k, some c⟩) (hne : c ≠ []) (hmem : c ∈ (v i).bodies)
    (hlink : w.files.links p ≠ none) :
    Agrees modelsDir { w with files := w.files.rename p q }
      (Function.update v i { v i with opened := none, known := q :: (v i).known }) := by
  have hopen := h.opened i _ hf
  obtain ⟨k', hk'⟩ := Option.ne_none_iff_exists'.mp hlink
  obtain rfl : k' = k := hopen.alone k' hk'
  have hread : (w.files.rename p q).read q = some c := by
    rw [read_rename, if_pos rfl, read_of_links hk']
    exact congrArg some (hopen.content c rfl)
  have hother : ∀ x, IsStable modelsDir x → x ≠ q → (w.files.rename p q).read x = w.files.read x := by
    intro x hx hxq
    have hxp : x ≠ p := fun hxp => hopen.temporary (hxp ▸ hx)
    rw [read_rename, if_neg hxq, if_neg hxp]
  have hlasting : Lasting modelsDir w { w with files := w.files.rename p q } := by
    intro x hx hw
    by_cases hxq : x = q
    · subst hxq
      exact ⟨c, hread, hne⟩
    · exact (present_of_read (hother x hx hxq)).mpr hw
  refine h.update ?_ hlasting (List.Subset.refl _) (fun j hj g hg => ?_) (h.bodies i) ?_ (by simp)
  · intro x hx b hb
    by_cases hxq : x = q
    · subst hxq
      obtain rfl : b = c := Option.some.inj (hb.symm.trans hread)
      exact .inr (h.bodies i hmem)
    · exact h.whole x hx b ((hother x hx hxq).symm.trans hb)
  · refine (h.opened j g hg).rename hq fun hl => hj ?_
    exact h.apart j i g _ hg hf (Option.some.inj (hl.symm.trans hk'))
  · intro x hx hs
    cases List.mem_cons.mp hx with
    | inl hx =>
      subst hx
      exact ⟨c, hread, hne⟩
    | inr hx => exact hlasting x hs (h.known i x hx hs)

/-- An operation that its call is right to perform, while no other call has the file open
that it opens. -/
theorem Agrees.step (h : Agrees modelsDir w v) {o : HfDownloader.Op} {r : o.Res} (hg : Guarded modelsDir (v i) o)
    (he : HfDownloader.effect w o r w')
    (hfree : ∀ p, o = .openFile p → ∀ j, j ≠ i → ∀ f, (v j).opened = some f → f.path ≠ p) :
    Told (v i) ⟨o, r⟩ ∧ Agrees modelsDir w' (Function.update v i ((v i).step ⟨o, r⟩)) := by
  cases o with
  | fileExists p =>
    obtain ⟨rfl, he⟩ := he
    refine ⟨trivial, ?_⟩
    cases r with
    | false => exact h.idle (h.bodies i) (h.known i) (fun _ hf => hf)
    | true =>
      refine h.idle (h.bodies i) (fun q hq hs => ?_) (fun _ hf => hf)
      cases List.mem_cons.mp hq with
      | inl hq => exact hq ▸ he.mp rfl
      | inr hq => exact h.known i q hq hs
  | mkdirAll d =>
    obtain rfl := he
    exact ⟨trivial, h.idle (h.bodies i) (h.known i) (fun _ hf => hf)⟩
  | list repo =>
    obtain rfl := he
    exact ⟨trivial, h.idle (h.bodies i) (h.known i) (fun _ hf => hf)⟩
  | get repo file =>
    obtain rfl := he
    have hb : w.bodies ⊆ (r : HfDownloader.Answer).bodies ++ w.bodies := List.subset_append_right _ _
    have hsteady : Steady modelsDir w { w with bodies := (r : HfDownloader.Answer).bodies ++ w.bodies } :=
      fun _ _ => rfl
    have hopen : ∀ j f, (v j).opened = some f →
        Open modelsDir { w with bodies := (r : HfDownloader.Answer).bodies ++ w.bodies } f := by
      intro j f hf
      exact ⟨(h.opened j f hf).temporary, (h.opened j f hf).fresh, (h.opened j f hf).linked, (h.opened j f hf).alone,
        (h.opened j f hf).content⟩
    refine ⟨trivial, h.update (hsteady.whole hb h.whole) hsteady.lasting hb (fun j _ f hf => hopen j f hf) ?_
      (h.known i) fun f hf => ⟨hopen i f hf, fun j hj g hg hfile => hj (h.apart j i g f hg hf hfile)⟩⟩
    exact List.append_subset.mpr ⟨List.subset_append_left _ _, List.Subset.trans (h.bodies i) hb⟩
  | remove p => exact ⟨trivial, agrees_remove h hg he⟩
  | openFile p =>
    refine ⟨trivial, ?_⟩
    cases r with
    | error err =>
      obtain rfl := he
      exact h.idle (h.bodies i) (h.known i) (fun _ hf => hf)
    | ok k =>
      obtain ⟨rfl, rfl⟩ := he
      exact agrees_openFile h hg.1 (hfree p rfl)
  | write k chunk =>
    refine ⟨trivial, ?_⟩
    obtain ⟨p, c, hf⟩ := hg
    have hopen := h.opened i _ hf
    cases r with
    | some err =>
      obtain ⟨written, -, rfl⟩ := he
      have hstep : (v i).step ⟨.write k chunk, some err⟩ = { v i with opened := some ⟨p, k, none⟩ } := by
        rw [View.step, hf]
        rfl
      rw [hstep]
      refine agrees_write h hf fun c' hc' => ?_
      cases hc'
    | none =>
      obtain rfl := he
      have hstep : (v i).step ⟨.write k chunk, none⟩ = { v i with opened := some ⟨p, k, some (c ++ chunk)⟩ } := by
        rw [View.step, hf]
        rfl
      rw [hstep]
      refine agrees_write h hf fun c' hc' => ?_
      rw [hopen.content c rfl]
      exact Option.some.inj hc'
  | close k =>
    obtain rfl := he
    exact ⟨trivial, h.idle (h.bodies i) (h.known i) (fun _ hf => hf)⟩
  | stat p =>
    obtain ⟨rfl, he⟩ := he
    refine ⟨?_, h.idle (h.bodies i) (h.known i) (fun _ hf => hf)⟩
    rintro size k c rfl hf
    obtain ⟨b, hb, rfl⟩ := he
    have hopen := h.opened i _ hf
    obtain ⟨k', hk', rfl⟩ := Option.map_eq_some_iff.mp hb
    rw [hopen.alone k' hk']
    exact congrArg List.length (hopen.content c rfl)
  | rename p q =>
    refine ⟨trivial, ?_⟩
    obtain ⟨hq, k, c, hf, hne, hmem⟩ := hg
    cases r with
    | some err =>
      obtain rfl := he
      refine h.idle (h.bodies i) (h.known i) fun f hf => ?_
      cases hf
    | none =>
      obtain ⟨hlink, rfl⟩ := he
      exact agrees_rename h hq hf hne hmem hlink

/-! ## Calls and their views -/

def stepView (v : View) : Event Op Op.Res → View
  | ⟨.download o, r⟩ => v.step ⟨o, r⟩
  | _ => v

def ToldView (v : View) : Event Op Op.Res → Prop
  | ⟨.download o, r⟩ => Told v ⟨o, r⟩
  | _ => True

def GuardedView (modelsDir : Text) (v : View) : Op → Prop
  | .download o => Guarded modelsDir v o
  | _ => True

/-- What the calls know. -/
def viewOf (H : History ι Op Op.Res) : ι → View := seen stepView .start H

variable (go : HfDownloader.Library) {cat : Catalog} {cfg : Config} {cm : Model}

theorem checking_view {downloaded : Except HfDownloader.Error Text} {u : View} (hopened : u.opened = none)
    (hknown : ∀ found, downloaded = .ok found → Knows modelsDir cm u) :
    Spec (informed stepView ToldView) (GuardedView modelsDir)
      (fun err u => u.opened = none ∧ (err = none → Knows modelsDir cm u)) (checking cm downloaded) u := by
  cases downloaded with
  | error err => exact ⟨hopened, by simp⟩
  | ok found =>
    refine spec_op trivial ?_
    rintro err u' ⟨hu, -⟩
    obtain rfl : u' = u := hu
    cases err with
    | some err => exact ⟨hopened, by simp⟩
    | none =>
      refine ⟨trivial, ?_⟩
      rintro resp u'' ⟨hu, -⟩
      obtain rfl : u'' = u' := hu
      cases resp with
      | error err => exact ⟨hopened, by simp⟩
      | ok resp =>
        cases hhas : modelsResponseHas resp cm.ref with
        | false =>
          simp only [Prog.bind, pure, hhas]
          exact ⟨hopened, by simp⟩
        | true =>
          simp only [Prog.bind, pure, hhas]
          exact ⟨hopened, fun _ => hknown found rfl⟩

theorem ensureLocked_view {u : View} (hm : cm.validate = .ok ()) (hu : u.opened = none) :
    Spec (informed stepView ToldView) (GuardedView cfg.modelsDir)
      (fun err u => u.opened = none ∧ (err = none → Knows cfg.modelsDir cm u)) (ensureLocked go cfg cm) u := by
  have hlift : ∀ (u : View) (o : HfDownloader.Op) (r : Op.Res (.download o)) u', True →
      informed stepView ToldView u (.download o) r u' → heard (id u) o r (id u') ∧ True :=
    fun _ _ _ _ _ he => ⟨he, trivial⟩
  have hensure : Spec (informed stepView ToldView)
      (fun u o' => True ∧ ∃ o, o' = .download o ∧ Guarded cfg.modelsDir u o)
      (fun r u => True ∧ Ensured cfg.modelsDir cm r u) (downloading (HfDownloader.ensure go cfg.modelsDir cm)) u :=
    spec_lift hlift (ensure_view go hm hu) trivial
  rw [ensureLocked_eq]
  apply spec_bind
  refine spec_mono ?_ ?_ hensure
  · rintro u _ ⟨-, o, rfl, hg⟩
    exact hg
  · rintro downloaded u ⟨-, hopened, hknown⟩
    exact checking_view hopened fun found hf => hknown ⟨found, hf⟩

/-- How a call ends. -/
def Returned (cat : Catalog) (cfg : Config) (ref requiredKind : Text) (err : Option Error) (u : View) : Prop :=
  u.opened = none ∧ ∀ cm, resolve cat ref requiredKind = .ok cm → err = none → Knows cfg.modelsDir cm u

theorem ensureAvailable_view (ref requiredKind : Text) :
    Spec (informed stepView ToldView) (GuardedView cfg.modelsDir) (Returned cat cfg ref requiredKind)
      (ensureAvailable go cat cfg ref requiredKind) .start := by
  unfold ensureAvailable
  cases hr : resolve cat ref requiredKind with
  | error err => exact ⟨rfl, fun cm hcm => by rw [hr] at hcm; cases hcm⟩
  | ok cm =>
    have hm : cm.validate = .ok () := cat.valid cm (mem_of_resolve hr)
    refine spec_op trivial ?_
    rintro m _ ⟨rfl, -⟩
    refine spec_op trivial ?_
    rintro _ _ ⟨rfl, -⟩
    apply spec_bind
    refine spec_mono (fun _ _ hg => hg) (fun err u hu => ?_) (ensureLocked_view go hm rfl)
    refine spec_op trivial ?_
    rintro _ u' ⟨hu', -⟩
    obtain rfl : u' = u := hu'
    refine ⟨hu.1, fun cm' hcm' => ?_⟩
    rw [hr] at hcm'
    obtain rfl := Except.ok.inj hcm'
    exact hu.2

/-! ## Temporary files that are open -/

/-- A name is given up by removing or renaming the file. -/
def GivesUp (p : Text) : Op → Prop
  | .download (.remove p') => p' = p
  | .download (.rename p' _) => p' = p
  | _ => False

/-- The call has opened the file and not given up its name since. -/
def HasOpen (t : List (Event Op Op.Res)) (p : Text) : Prop :=
  ∃ t₁ k t₂, t = t₁ ++ ⟨.download (.openFile p), .ok k⟩ :: t₂ ∧ ∀ e ∈ t₂, ¬ GivesUp p e.op

theorem HasOpen.append {t : List (Event Op Op.Res)} {p : Text} (h : HasOpen t p) {e : Event Op Op.Res}
    (he : ¬ GivesUp p e.op) : HasOpen (t ++ [e]) p := by
  obtain ⟨t₁, k, t₂, rfl, hkeeps⟩ := h
  refine ⟨t₁, k, t₂ ++ [e], by rw [List.append_assoc, List.cons_append], fun e' he' => ?_⟩
  cases List.mem_append.mp he' with
  | inl he' => exact hkeeps e' he'
  | inr he' => exact List.mem_singleton.mp he' ▸ he

/-- What is open behind an event was open before, unless the event opens it. -/
theorem opened_step {u : View} {e : Event Op Op.Res} {f : Opened} (h : (stepView u e).opened = some f) :
    (∃ k, e = ⟨.download (.openFile f.path), .ok k⟩) ∨
      (∃ g, u.opened = some g ∧ g.path = f.path) ∧ ¬ GivesUp f.path e.op := by
  obtain ⟨o, r⟩ := e
  cases o with
  | download o =>
    cases o with
    | fileExists p =>
      cases r with
      | false => exact .inr ⟨⟨f, h, rfl⟩, fun hno => hno⟩
      | true => exact .inr ⟨⟨f, h, rfl⟩, fun hno => hno⟩
    | openFile p =>
      cases r with
      | error err => exact .inr ⟨⟨f, h, rfl⟩, fun hno => hno⟩
      | ok k =>
        obtain rfl := Option.some.inj h
        exact .inl ⟨k, rfl⟩
    | write k chunk =>
      obtain ⟨g, hg, hgf⟩ := Option.map_eq_some_iff.mp h
      refine .inr ⟨⟨g, hg, ?_⟩, fun hno => hno⟩
      rw [← hgf]
      cases r with
      | none => rfl
      | some err => rfl
    | remove p => cases h
    | rename p q =>
      cases r with
      | none => cases h
      | some err => cases h
    | mkdirAll d => exact .inr ⟨⟨f, h, rfl⟩, fun hno => hno⟩
    | list repo => exact .inr ⟨⟨f, h, rfl⟩, fun hno => hno⟩
    | get repo file => exact .inr ⟨⟨f, h, rfl⟩, fun hno => hno⟩
    | close k => exact .inr ⟨⟨f, h, rfl⟩, fun hno => hno⟩
    | stat p => exact .inr ⟨⟨f, h, rfl⟩, fun hno => hno⟩
  | lockFor ref => exact .inr ⟨⟨f, h, rfl⟩, fun hno => hno⟩
  | lock m => exact .inr ⟨⟨f, h, rfl⟩, fun hno => hno⟩
  | unlock m => exact .inr ⟨⟨f, h, rfl⟩, fun hno => hno⟩
  | ctxErr => exact .inr ⟨⟨f, h, rfl⟩, fun hno => hno⟩
  | models => exact .inr ⟨⟨f, h, rfl⟩, fun hno => hno⟩

theorem hasOpen_of_view (t : List (Event Op Op.Res)) {f : Opened} (h : (t.foldl stepView .start).opened = some f) :
    HasOpen t f.path := by
  induction t using List.reverseRecOn generalizing f with
  | nil => cases h
  | append_singleton t e ih =>
    rw [List.foldl_append] at h
    cases opened_step h with
    | inl hopens =>
      obtain ⟨k, rfl⟩ := hopens
      exact ⟨t, k, [], rfl, by simp⟩
    | inr hkept =>
      obtain ⟨⟨g, hg, hgf⟩, hkeeps⟩ := hkept
      have hbefore : HasOpen t g.path := ih hg
      rw [hgf] at hbefore
      exact hbefore.append hkeeps

/-! ## Runs -/

/-- No call opens a temporary file that a call for another ref has open. -/
def Apart (cat : Catalog) (ref requiredKind : ι → Text) (H : History ι Op Op.Res) : Prop :=
  ∀ H₁ i p r H₂, H = H₁ ++ (i, ⟨.download (.openFile p), r⟩) :: H₂ → ∀ j cm cm',
    resolve cat (ref i) (requiredKind i) = .ok cm → resolve cat (ref j) (requiredKind j) = .ok cm' →
    cm'.ref ≠ cm.ref → ¬ HasOpen (own j H₁) p

theorem Apart.init {cat : Catalog} {ref requiredKind : ι → Text} {H H' : History ι Op Op.Res}
    (h : Apart cat ref requiredKind (H ++ H')) : Apart cat ref requiredKind H := by
  rintro H₁ i p r H₂ rfl
  refine h H₁ i p r (H₂ ++ H') ?_
  rw [List.append_assoc, List.cons_append]

variable {go} {ref requiredKind : ι → Text} {w₀ : HfDownloader.World} {H : History ι Op Op.Res}
  {Q : Pool ι Op Op.Res (Option Error) (Shared ι)} {j : ι}

/-- A call that has a file open is inside the lock of its ref. -/
theorem inside_of_opened (hruns : Runs effect Cancel (started go cat cfg ref requiredKind w₀) H Q) {f : Opened}
    (hf : (viewOf H j).opened = some f)
    (hview : Spec (informed stepView ToldView) (GuardedView cfg.modelsDir) (Returned cat cfg (ref j) (requiredKind j))
      (Q.prog j) (viewOf H j)) :
    ∃ cm, resolve cat (ref j) (requiredKind j) = .ok cm ∧ Inside (own j H) cm.ref := by
  cases stage_of_runs hruns j with
  | inr hfailed =>
    obtain ⟨err, -, hnil, -⟩ := hfailed
    rw [viewOf, seen, hnil] at hf
    cases hf
  | inl hstage =>
    obtain ⟨cm, hr, hstage⟩ := hstage
    refine ⟨cm, hr, ?_⟩
    unfold viewOf seen at hf hview
    generalize own j H = t at hstage hf hview
    generalize Q.prog j = q at hstage hview
    cases hstage with
    | start => cases hf
    | waiting m => cases hf
    | inside m hrun => exact inside_of_run m hrun
    | returned m hrun =>
      have hnone := hview.1
      rw [hf] at hnone
      cases hnone

theorem inside_of_download (hruns : Runs effect Cancel (started go cat cfg ref requiredKind w₀) H Q)
    {o : HfDownloader.Op} {next : o.Res → EnsureAvailable.Run (Option Error)}
    (hi : Q.prog i = .perform (.download o) next) :
    ∃ cm, resolve cat (ref i) (requiredKind i) = .ok cm ∧ Inside (own i H) cm.ref := by
  obtain ⟨cm, hr, hnext⟩ := next_of_runs hruns hi
  refine ⟨cm, hr, ?_⟩
  generalize own i H = t at hnext
  cases hnext with
  | inner m hrun _ => exact inside_of_run m hrun

theorem quiet_step {o : Op} (ho : ∀ o', o ≠ .download o') (r : o.Res) (u : View) :
    stepView u ⟨o, r⟩ = u ∧ ToldView u ⟨o, r⟩ := by
  cases o with
  | download o => exact absurd rfl (ho o)
  | _ => exact ⟨rfl, trivial⟩

theorem agrees_started (hw : Whole cfg.modelsDir w₀) : Agrees cfg.modelsDir w₀ (viewOf ([] : History ι Op Op.Res)) := by
  refine ⟨hw, fun i => ?_, fun i p hp => ?_, fun i f hf => ?_, fun i j f g hf => ?_⟩
  · exact List.nil_subset _
  · cases hp
  · cases hf
  · cases hf

/-- The files and what the calls know of them agree in every state of the run. -/
theorem agrees_of_runs (hw : Whole cfg.modelsDir w₀)
    (hruns : Runs effect Cancel (started go cat cfg ref requiredKind w₀) H Q) (hapart : Apart cat ref requiredKind H) :
    Agrees cfg.modelsDir Q.state.world (viewOf H) ∧
      ∀ i, Spec (informed stepView ToldView) (GuardedView cfg.modelsDir) (Returned cat cfg (ref i) (requiredKind i))
        (Q.prog i) (viewOf H i) := by
  refine runs_seen (C := Apart cat ref requiredKind) (I := fun H s => Agrees cfg.modelsDir s.world (viewOf H))
    Apart.init (fun i => ensureAvailable_view go (ref i) (requiredKind i)) (agrees_started hw) ?_ ?_ hruns hapart
  · intro H Q i o next r s hruns hagrees hapart hview hp he
    have hi := hview i
    rw [hp] at hi
    rw [viewOf, seen_snoc]
    by_cases ho : ∃ o', o = .download o'
    · obtain ⟨o, rfl⟩ := ho
      obtain ⟨w, he, rfl⟩ := he
      refine hagrees.step hi.1 he ?_
      rintro p rfl j hji f hf rfl
      obtain ⟨cm', hr', hj⟩ := inside_of_opened hruns hf (hview j)
      obtain ⟨cm, hr, hin⟩ := inside_of_download hruns hp
      by_cases href : cm'.ref = cm.ref
      · exact hji (inside_unique hruns (href ▸ hj) hin)
      · exact hapart H i f.path r [] rfl j cm cm' hr hr' href (hasOpen_of_view _ hf)
    · have hother : ∀ o', o ≠ .download o' := fun o' h => ho ⟨o', h⟩
      obtain ⟨hsame, htold⟩ := quiet_step hother r (seen stepView .start H i)
      refine ⟨htold, ?_⟩
      rw [hsame, Function.update_eq_self, world_of_effect he hother]
      exact hagrees
  · intro H s s' h hc
    obtain ⟨i, err, -, rfl⟩ := hc
    exact h

/-! ## Catalogs without shared files -/

/-- Entries of different refs need no path in common. -/
def Unshared (modelsDir : Text) (cat : Catalog) : Prop :=
  ∀ m ∈ cat.models, ∀ m' ∈ cat.models, m'.ref ≠ m.ref → ∀ q, IsFile modelsDir m q → ¬ IsFile modelsDir m' q

theorem Unshared.apart (hcat : Unshared cfg.modelsDir cat)
    (hruns : Runs effect Cancel (started go cat cfg ref requiredKind w₀) H Q) : Apart cat ref requiredKind H := by
  rintro H₁ i p r H₂ rfl j cm cm' hr hr' hne hopen
  obtain ⟨m, q, hm, hq, hp⟩ := opened_of_runs hruns (i := i) (p := p) (r := r) (by simp)
  obtain rfl : m = cm := Except.ok.inj (hm.symm.trans hr)
  obtain ⟨t₁, k, t₂, hown, -⟩ := hopen
  have hmem : (j, (⟨.download (.openFile p), .ok k⟩ : Event Op Op.Res)) ∈ H₁ := by
    rw [← mem_own, hown]
    simp
  obtain ⟨m', q', hm', hq', hp'⟩ := opened_of_runs hruns (List.mem_append_left _ hmem)
  obtain rfl : m' = cm' := Except.ok.inj (hm'.symm.trans hr')
  obtain rfl : q' = q := List.append_cancel_right (hp'.symm.trans hp)
  exact hcat m (mem_of_resolve hr) m' (mem_of_resolve hr') hne q' hq hq'

/-- Where no two refs share a file, every run keeps the stable paths complete. -/
theorem Unshared.whole (hcat : Unshared cfg.modelsDir cat) (hw : Whole cfg.modelsDir w₀)
    (hruns : Runs effect Cancel (started go cat cfg ref requiredKind w₀) H Q) : Whole cfg.modelsDir Q.state.world :=
  (agrees_of_runs hw hruns (hcat.apart hruns)).1.whole

/-! ## Complete files -/

/-- The file at a path is not empty, and a body that has arrived whole. -/
def Complete (w : HfDownloader.World) (p : Text) : Prop := ∃ b, w.files.read p = some b ∧ b ≠ [] ∧ b ∈ w.bodies

theorem complete_of_present (hw : Whole modelsDir w) {p : Text} (hs : IsStable modelsDir p)
    (hp : HfDownloader.Present w.files p) : Complete w p := by
  obtain ⟨b, hb, hne⟩ := hp
  exact ⟨b, hb, hne, (hw p hs b hb).resolve_left hne⟩

/-- While no call opens a temporary file that a call for another ref has open, stable
paths show complete bodies, and the files of a call without an error are complete. -/
theorem ensureAvailable_complete (hw : Whole cfg.modelsDir w₀)
    (hruns : Runs effect Cancel (started go cat cfg ref requiredKind w₀) H Q) (hapart : Apart cat ref requiredKind H) :
    Whole cfg.modelsDir Q.state.world ∧
      ∀ i cm, resolve cat (ref i) (requiredKind i) = .ok cm → Q.prog i = .done none →
        Complete Q.state.world (cm.stablePath cfg.modelsDir) ∧
          (cm.mmproj ≠ [] → Complete Q.state.world (cm.mmprojStablePath cfg.modelsDir)) := by
  obtain ⟨hagrees, hview⟩ := agrees_of_runs hw hruns hapart
  refine ⟨hagrees.whole, fun i cm hr hi => ?_⟩
  have hm : cm.validate = .ok () := cat.valid cm (mem_of_resolve hr)
  have hend := hview i
  rw [hi] at hend
  obtain ⟨hmain, hproj⟩ := hend.2 cm hr rfl
  have hmainStable := isStable_main cfg.modelsDir hm
  refine ⟨complete_of_present hagrees.whole hmainStable (hagrees.known i _ hmain hmainStable), fun hj => ?_⟩
  have hprojStable := isStable_mmproj cfg.modelsDir hm hj
  exact complete_of_present hagrees.whole hprojStable (hagrees.known i _ (hproj hj) hprojStable)

/-! ## Two entries of different repos -/

section Alone

variable {s : Shared ι}

omit [DecidableEq ι] in
/-- A call that finds its files returns without an error, if the router has the entry. -/
theorem run_found (hnew : s.modelLocks cm.ref = none) (hfree : s.locked s.made = false) (hctx : s.cancelled i = none)
    (hmain : HfDownloader.Present s.world.files (cm.stablePath cfg.modelsDir))
    (hproj : HfDownloader.Present s.world.files (cm.mmprojStablePath cfg.modelsDir)) :
    ∃ t s', Effects.Run (effect i) (locking go cfg cm) s t (.done none) s' := by
  have hlook : HfDownloader.effect s.world (.fileExists (cm.stablePath cfg.modelsDir)) true s.world :=
    ⟨rfl, by simpa using hmain⟩
  have hlookProj : HfDownloader.effect s.world (.fileExists (cm.mmprojStablePath cfg.modelsDir)) true s.world :=
    ⟨rfl, by simpa using hproj⟩
  have hmissing : ∃ t, Effects.Run HfDownloader.effect (HfDownloader.missingMMProj cfg.modelsDir cm) s.world t
      (.done false) s.world := by
    unfold HfDownloader.missingMMProj
    by_cases hj : cm.mmproj ≠ []
    · rw [if_pos hj]
      exact ⟨_, .step hlookProj (.refl _ _)⟩
    · rw [if_neg hj]
      exact ⟨[], .refl _ _⟩
  obtain ⟨t₁, hmissing⟩ := hmissing
  have hensure : Effects.Run HfDownloader.effect (HfDownloader.ensure go cfg.modelsDir cm) s.world
      (⟨.fileExists (cm.stablePath cfg.modelsDir), true⟩ :: (t₁ ++ [])) (.done (.ok (cm.stablePath cfg.modelsDir)))
      s.world := .step hlook (hmissing.bind (.refl _ _))
  obtain ⟨t, s', hrun, -, -⟩ := RivalDownloads.run_returns (i := i) hnew hfree hctx hensure
  exact ⟨t, s', hrun⟩

end Alone

open CatalogPaths SingleDownload RivalDownloads

def projectorFile : Text := "mmproj-F16.gguf".toList

/-- An entry with a projector that the repo has for all its quants. -/
def visionEntry (quant : String) : Model := { entry "owner/vision" quant with mmproj := projectorFile }

def embeddingEntry : Model :=
  { entry "owner/embed" "Q8" with kind := "embedding".toList, mmproj := projectorFile }

theorem twoModels_valid : ∀ m ∈ [embeddingEntry, visionEntry "Q4"], m.validate = .ok () := by decide

/-- Two entries of different repos, each with a projector. -/
def twoModels : Catalog := ⟨[embeddingEntry, visionEntry "Q4"], twoModels_valid⟩

theorem unshared_twoModels : Unshared modelsRoot twoModels := by
  intro m hm m' hm' hne q hq hq'
  simp only [twoModels, List.mem_cons, List.not_mem_nil, or_false] at hm hm'
  rcases hm with rfl | rfl <;> rcases hm' with rfl | rfl
  · exact hne rfl
  · rcases hq with rfl | ⟨-, rfl⟩ <;> exact absurd hq' (by decide +kernel)
  · rcases hq with rfl | ⟨-, rfl⟩ <;> exact absurd hq' (by decide +kernel)
  · exact hne rfl

def filesAt (ps : List Text) : Files Text UInt8 := ps.foldr (fun p fs => fs.put p [0]) noFiles

theorem read_filesAt {p : Text} {ps : List Text} (hp : p ∈ ps) : (filesAt ps).read p = some [0] := by
  induction ps with
  | nil => cases hp
  | cons q ps ih =>
    rw [filesAt, List.foldr_cons, read_put]
    split
    · rfl
    · rename_i hne
      exact ih ((List.mem_cons.mp hp).resolve_left hne)

theorem unread_filesAt {p : Text} {ps : List Text} (hp : p ∉ ps) : (filesAt ps).read p = none := by
  induction ps with
  | nil => rfl
  | cons q ps ih =>
    rw [List.mem_cons, not_or] at hp
    obtain ⟨hne, hp⟩ := hp
    rw [filesAt, List.foldr_cons, read_put, if_neg hne]
    exact ih hp

theorem whole_filesAt (ps : List Text) : Whole modelsRoot ⟨filesAt ps, [[0]]⟩ := by
  induction ps with
  | nil =>
    rintro q _ c hc
    cases hc
  | cons p ps ih => exact whole_put ih (List.mem_singleton.mpr rfl) p

theorem listed_vision (m : Model) (hm : m.mmproj = projectorFile) :
    ∃ body entries chosen, HfDownloader.decodeEntries body = some entries ∧
      HfDownloader.chooseExactFile sampleLibrary (listing entries) m.repo m.mmproj = .ok chosen := by
  have hfiles : (HfDownloader.decodeEntries ⟨[ascii "[\x7b\"path\":\"mmproj-F16.gguf\"\x7d]"], .eof⟩).map (fun es =>
      (es.filter fun e => e.type = "file".toList ∨ e.type = []).map HfDownloader.TreeEntry.path) =
      some [projectorFile] := by decide +kernel
  obtain ⟨es, hes, hmap⟩ := Option.map_eq_some_iff.mp hfiles
  have hlist : listing es = [projectorFile] := by rw [listing, hmap, List.mergeSort_singleton]
  refine ⟨_, es, projectorFile, hes, ?_⟩
  have hsplit : HfDownloader.isSplit projectorFile = false := by decide +kernel
  rw [hlist, hm]
  simp [HfDownloader.chooseExactFile, hsplit]

def embeddingMain : Text := embeddingEntry.stablePath modelsRoot

def embeddingProjector : Text := embeddingEntry.mmprojStablePath modelsRoot

def visionMain : Text := (visionEntry "Q4").stablePath modelsRoot

def visionProjector : Text := (visionEntry "Q4").mmprojStablePath modelsRoot

theorem twoModels_paths :
    embeddingMain = "/models/hf/owner/embed/Q8.gguf".toList ∧
      embeddingProjector = "/models/hf/owner/embed/mmproj-F16.gguf".toList ∧
      visionMain = "/models/hf/owner/vision/Q4.gguf".toList ∧
      visionProjector = "/models/hf/owner/vision/mmproj-F16.gguf".toList := by decide +kernel

/-- The main files are there, the projectors are not. -/
def mainFiles : HfDownloader.World := ⟨filesAt [embeddingMain, visionMain], [[0]]⟩

/-- A call for each entry. -/
def repoCalls : Pool Bool Op Op.Res (Option Error) (Shared Bool) :=
  started sampleLibrary twoModels smallConfig
    (fun second => if second then (visionEntry "Q4").ref else embeddingEntry.ref) (fun _ => []) mainFiles

theorem fetches_mainFiles {m : Model} (hm : m ∈ twoModels.models) :
    Fetches sampleLibrary modelsRoot mainFiles m (m.mmprojStablePath modelsRoot) := by
  obtain ⟨hem, hep, hvm, hvp⟩ := twoModels_paths
  have habsent : ∀ p, p ∉ [embeddingMain, visionMain] → ¬ HfDownloader.Present mainFiles.files p := by
    rintro p hp ⟨b, hb, -⟩
    cases (unread_filesAt hp).symm.trans hb
  simp only [twoModels, List.mem_cons, List.not_mem_nil, or_false] at hm
  rcases hm with rfl | rfl
  · refine ⟨⟨[0], read_filesAt List.mem_cons_self, by simp⟩, by decide, rfl, habsent embeddingProjector ?_,
      listed_vision _ rfl⟩
    rw [hem, hep, hvm]
    decide
  · refine ⟨⟨[0], read_filesAt (by simp [visionMain]), by simp⟩, by decide, rfl, habsent visionProjector ?_,
      listed_vision _ rfl⟩
    rw [hem, hvm, hvp]
    decide

/-- The second call downloads its projector while the first one has its own open. -/
theorem repoCalls_both : ∃ H Q, Runs effect Cancel repoCalls H Q ∧ Q.prog false = .done none ∧
    Q.prog true = .done none ∧ Q.state.world.files.read embeddingProjector = some [1] ∧
    Q.state.world.files.read visionProjector = some [2] := by
  obtain ⟨-, hep, -, hvp⟩ := twoModels_paths
  have hne : visionProjector ≠ embeddingProjector := by
    rw [hep, hvp]
    decide
  exact runs_separate (i := false) (j := true) (by decide) (by decide) rfl rfl hne
    (fetches_mainFiles (m := embeddingEntry) (by simp [twoModels])) (fetches_mainFiles (m := visionEntry "Q4")
    (by simp [twoModels])) (by decide) (by decide)

/-- Two calls whose downloads overlap, of entries that share no file. -/
theorem ensureAvailable_complete_twoRepos : ∃ H Q, Runs effect Cancel repoCalls H Q ∧
    Q.prog false = .done none ∧ Q.prog true = .done none ∧ Q.state.world.files.read embeddingProjector = some [1] ∧
    Q.state.world.files.read visionProjector = some [2] ∧ Whole modelsRoot Q.state.world ∧
      ∀ i cm, resolve twoModels (if i then (visionEntry "Q4").ref else embeddingEntry.ref) [] = .ok cm →
        Q.prog i = .done none →
        Complete Q.state.world (cm.stablePath modelsRoot) ∧
          (cm.mmproj ≠ [] → Complete Q.state.world (cm.mmprojStablePath modelsRoot)) := by
  obtain ⟨H, Q, hruns, hfalse, htrue, hE, hV⟩ := repoCalls_both
  obtain ⟨hwhole, hcomplete⟩ :=
    ensureAvailable_complete (whole_filesAt _) hruns (unshared_twoModels.apart hruns)
  exact ⟨H, Q, hruns, hfalse, htrue, hE, hV, hwhole, hcomplete⟩

/-! ## A projector of two entries -/

theorem twoQuants_valid : ∀ m ∈ [visionEntry "Q4", visionEntry "Q8"], m.validate = .ok () := by decide

def twoQuants : Catalog := ⟨[visionEntry "Q4", visionEntry "Q8"], twoQuants_valid⟩

def mainQ4 : Text := (visionEntry "Q4").stablePath modelsRoot

def mainQ8 : Text := (visionEntry "Q8").stablePath modelsRoot

def sharedProjector : Text := (visionEntry "Q4").mmprojStablePath modelsRoot

theorem vision_paths :
    mainQ4 = "/models/hf/owner/vision/Q4.gguf".toList ∧ mainQ8 = "/models/hf/owner/vision/Q8.gguf".toList ∧
      sharedProjector = "/models/hf/owner/vision/mmproj-F16.gguf".toList ∧
      (visionEntry "Q8").mmprojStablePath modelsRoot = sharedProjector := by decide +kernel

/-- The main files of both entries are there. -/
def mainsOnly : HfDownloader.World := ⟨(noFiles.put mainQ4 [0]).put mainQ8 [0], [[0]]⟩

/-- One call for each entry. -/
def visionCalls (w₀ : HfDownloader.World) : Pool Bool Op Op.Res (Option Error) (Shared Bool) :=
  started sampleLibrary twoQuants smallConfig
    (fun second => if second then (visionEntry "Q8").ref else (visionEntry "Q4").ref) (fun _ => []) w₀

theorem read_mainsOnly (p : Text) :
    mainsOnly.files.read p = if p = mainQ4 ∨ p = mainQ8 then some [0] else none := by
  have hnone : noFiles.read p = none := rfl
  rw [mainsOnly, read_put, read_put, hnone]
  by_cases h4 : p = mainQ4 <;> by_cases h8 : p = mainQ8 <;> simp [h4, h8]

theorem whole_mainsOnly : Whole modelsRoot mainsOnly := by
  have hnone : Whole modelsRoot ⟨noFiles, [[0]]⟩ := by
    rintro q _ c hc
    cases hc
  have hmem : ([0] : Bytes) ∈ ([[0]] : List Bytes) := List.mem_singleton.mpr rfl
  exact whole_put (whole_put hnone hmem mainQ4) hmem mainQ8

theorem rivals_twoQuants :
    Rivals sampleLibrary smallConfig.modelsDir mainsOnly (visionEntry "Q4") (visionEntry "Q8") sharedProjector := by
  obtain ⟨h4, h8, hshared, hsame⟩ := vision_paths
  have hmain : ∀ p, p = mainQ4 ∨ p = mainQ8 → HfDownloader.Present mainsOnly.files p := by
    intro p hp
    exact ⟨[0], by rw [read_mainsOnly, if_pos hp], by simp⟩
  refine ⟨by decide, ?_, ?_, ?_, ?_⟩
  · rintro ⟨b, hb, -⟩
    rw [read_mainsOnly, if_neg] at hb
    · cases hb
    · rw [h4, h8, hshared]
      decide
  · rintro m (rfl | rfl)
    · refine ⟨hmain mainQ4 (.inl rfl), ?_⟩
      change mainQ4 ≠ _
      rw [h4, hshared]
      decide
    · refine ⟨hmain mainQ8 (.inr rfl), ?_⟩
      change mainQ8 ≠ _
      rw [h8, hshared]
      decide
  · rintro m (rfl | rfl)
    · exact ⟨by decide, rfl⟩
    · exact ⟨by decide, hsame⟩
  · rintro m (rfl | rfl)
    · exact listed_vision _ rfl
    · exact listed_vision _ rfl

/-- Two calls for entries with one projector: its path comes to hold a piece of a body. -/
theorem ensureAvailable_incomplete : Whole modelsRoot mainsOnly ∧ ∃ H Q,
    Runs effect Cancel (visionCalls mainsOnly) H Q ∧
      Q.state.world.files.read ((visionEntry "Q4").mmprojStablePath modelsRoot) = some [2] ∧
      [2] ∉ Q.state.world.bodies := by
  have hrace : ∃ H Q, Runs effect Cancel (visionCalls mainsOnly) H Q ∧
      Q.state.world.files.read sharedProjector = some [2] ∧
      Q.state.world.bodies = ([2] ++ [3]) :: [1] :: mainsOnly.bodies :=
    runs_race (i := false) (j := true) rivals_twoQuants (by decide) rfl rfl [1] [2] [3] (by decide)
  obtain ⟨H, Q, hruns, hread, hbodies⟩ := hrace
  refine ⟨whole_mainsOnly, H, Q, hruns, hread, ?_⟩
  rw [hbodies]
  decide

end SharedFiles
