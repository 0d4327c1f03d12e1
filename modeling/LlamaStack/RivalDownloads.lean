import LlamaStack.SingleDownload

/-!
# Two downloads to one path

Calls for different refs whose projector has one path. The lock of one ref does not stop
a call for the other, which opens the temporary file of the first and takes its name.
-/
namespace RivalDownloads

open Effects Interleaving GoBytes ModelCatalog RouterManager EnsureAvailable ModelLocks PosixFiles DownloaderAtomicity
  SerialDownloads SingleDownload

variable {go : HfDownloader.Library} {m : Model} {w : HfDownloader.World} {dir q : Text}

/-! ## How far a download goes -/

/-- The files that a listing names. -/
def listing (entries : List HfDownloader.TreeEntry) : List Text :=
  ((entries.filter fun e => e.type = "file".toList ∨ e.type = []).map HfDownloader.TreeEntry.path).mergeSort
    fun a b => decide (a ≤ b)

/-- A call whose projector alone is missing comes to its download. -/
theorem run_projector {body : HfDownloader.Body} {entries : List HfDownloader.TreeEntry} {chosen : Text}
    (hmain : HfDownloader.Present w.files (m.stablePath dir)) (hj : m.mmproj ≠ [])
    (hproj : ¬ HfDownloader.Present w.files (m.mmprojStablePath dir))
    (hlist : HfDownloader.decodeEntries body = some entries)
    (hchosen : HfDownloader.chooseExactFile go (listing entries) m.repo m.mmproj = .ok chosen) :
    ∃ t k, Effects.Run HfDownloader.effect (HfDownloader.ensure go dir m) w t
      (HfDownloader.download m.repo chosen (m.mmprojStablePath dir) >>= k) w ∧
      k none = .done (.ok (m.stablePath dir)) := by
  have hlook : HfDownloader.effect w (.fileExists (m.stablePath dir)) true w := ⟨rfl, by simpa using hmain⟩
  have hmissing : Effects.Run HfDownloader.effect (HfDownloader.missingMMProj dir m) w
      [⟨.fileExists (m.mmprojStablePath dir), false⟩] (.done true) w := by
    unfold HfDownloader.missingMMProj
    rw [if_pos hj]
    exact .step ⟨rfl, by simpa using hproj⟩ (.refl _ _)
  have hmkdir : HfDownloader.effect w (.mkdirAll (GoFilepath.dir (m.stablePath dir))) none w := rfl
  have hfiles : Effects.Run HfDownloader.effect (HfDownloader.listFiles go m.repo) w
      [⟨.list m.repo, .response 200 body⟩] (.done (.ok (listing entries))) w := by
    refine .step rfl ?_
    simp only [Prog.bind, hlist]
    exact .refl _ _
  have hskip : Effects.Run HfDownloader.effect
      (HfDownloader.ifMissing false (HfDownloader.ensureMain go (listing entries) m (m.stablePath dir))) w []
      (.done none) w := .refl _ _
  have hfetch : Effects.Run HfDownloader.effect
      (HfDownloader.ensureMMProj go (listing entries) m (m.mmprojStablePath dir)) w
      [⟨.mkdirAll (GoFilepath.dir (m.mmprojStablePath dir)), none⟩]
      (HfDownloader.download m.repo chosen (m.mmprojStablePath dir)) w := by
    unfold HfDownloader.ensureMMProj
    rw [hchosen]
    exact .step rfl (.refl _ _)
  exact ⟨_, _, .step hlook (hmissing.bind (.step hmkdir (hfiles.bind (hskip.bind hfetch.bind_left)))), rfl⟩

/-- The first piece of a body stands in the temporary file, and the body arrives whole. -/
def begun (w : HfDownloader.World) (fs : Files Text UInt8) (q : Text) (piece : Bytes) (pieces : List Bytes) :
    HfDownloader.World where
  files := fs.put (q ++ HfDownloader.tmpExt) piece
  bodies := (piece :: pieces).flatten :: w.bodies

/-- A download writes its first piece to the temporary file. When there is no other, it
comes to the end of the body. -/
theorem run_begun (repo file : Text) {fs : Files Text UInt8} (piece : Bytes) (pieces : List Bytes)
    (hremove : fs = w.files ∨ fs = w.files.unlink (q ++ HfDownloader.tmpExt)) :
    ∃ t k, Effects.Run HfDownloader.effect (HfDownloader.download repo file q) w t k (begun w fs q piece pieces) ∧
      (pieces = [] → ∃ t', Effects.Run HfDownloader.effect k (begun w fs q piece pieces) t'
        (HfDownloader.publish (q ++ HfDownloader.tmpExt) q) (begun w fs q piece pieces)) := by
  generalize hall : (piece :: pieces).flatten = all
  have hget : HfDownloader.effect w (.get repo file) (.response 200 ⟨piece :: pieces, .eof⟩)
      ⟨w.files, all :: w.bodies⟩ := by
    simp [HfDownloader.effect, HfDownloader.Answer.bodies, HfDownloader.Body.bytes, ← hall]
  have hremove : HfDownloader.effect ⟨w.files, all :: w.bodies⟩ (.remove (q ++ HfDownloader.tmpExt)) ()
      ⟨fs, all :: w.bodies⟩ := by
    cases hremove with
    | inl hsame => exact .inl (hsame ▸ rfl)
    | inr hgone => exact .inr (hgone ▸ rfl)
  have hopen : HfDownloader.effect ⟨fs, all :: w.bodies⟩ (.openFile (q ++ HfDownloader.tmpExt))
      (.ok (fs.openTrunc (q ++ HfDownloader.tmpExt)).1)
      ⟨(fs.openTrunc (q ++ HfDownloader.tmpExt)).2, all :: w.bodies⟩ := ⟨rfl, rfl⟩
  have hwrite : HfDownloader.effect ⟨(fs.openTrunc (q ++ HfDownloader.tmpExt)).2, all :: w.bodies⟩
      (.write (fs.openTrunc (q ++ HfDownloader.tmpExt)).1 piece) none (begun w fs q piece pieces) := by
    rw [begun, hall]
    rfl
  refine ⟨_, _, .step hget (.step hremove (.step hopen (.step hwrite (.refl _ _)))), ?_⟩
  rintro rfl
  exact ⟨[⟨.close (fs.openTrunc (q ++ HfDownloader.tmpExt)).1, none⟩], .step rfl (.refl _ _)⟩

/-- Whatever file has the temporary name is published. -/
theorem run_published {b : Bytes} (hread : w.files.read (q ++ HfDownloader.tmpExt) = some b) (hne : b ≠ []) :
    ∃ t, Effects.Run HfDownloader.effect (HfDownloader.publish (q ++ HfDownloader.tmpExt) q) w t (.done none)
      ⟨w.files.rename (q ++ HfDownloader.tmpExt) q, w.bodies⟩ := by
  have hstat : HfDownloader.effect w (.stat (q ++ HfDownloader.tmpExt)) (.ok b.length) w := ⟨rfl, b, hread, rfl⟩
  have hsize : b.length ≠ 0 := fun h => hne (List.length_eq_zero_iff.mp h)
  have hrename : HfDownloader.effect w (.rename (q ++ HfDownloader.tmpExt) q) none
      ⟨w.files.rename (q ++ HfDownloader.tmpExt) q, w.bodies⟩ := by
    refine ⟨fun hlink => ?_, rfl⟩
    simp [Files.read, hlink] at hread
  refine ⟨[⟨.stat (q ++ HfDownloader.tmpExt), .ok b.length⟩,
    ⟨.rename (q ++ HfDownloader.tmpExt) q, none⟩], .step hstat ?_⟩
  simp only [Prog.bind, if_neg hsize]
  exact .step hrename (.refl _ _)

/-- The projector of the entry, at the path, is the one file that a call for it fetches. -/
structure Fetches (go : HfDownloader.Library) (dir : Text) (w : HfDownloader.World) (m : Model) (q : Text) : Prop where
  main : HfDownloader.Present w.files (m.stablePath dir)
  projector : m.mmproj ≠ []
  path : m.mmprojStablePath dir = q
  missing : ¬ HfDownloader.Present w.files q
  listed : ∃ body entries chosen, HfDownloader.decodeEntries body = some entries ∧
    HfDownloader.chooseExactFile go (listing entries) m.repo m.mmproj = .ok chosen

theorem Fetches.frame (h : Fetches go dir w m q) {w' : HfDownloader.World}
    (hmain : w'.files.read (m.stablePath dir) = w.files.read (m.stablePath dir))
    (hproj : w'.files.read q = w.files.read q) : Fetches go dir w' m q where
  main := (present_of_read hmain).mpr h.main
  projector := h.projector
  path := h.path
  missing := fun hp => h.missing ((present_of_read hproj).mp hp)
  listed := h.listed

/-- Such a call receives the projector whole, and publishes what it finds under the
temporary name. -/
theorem run_received (h : Fetches go dir w m q) (whole : Bytes) :
    ∃ t p, Effects.Run HfDownloader.effect (HfDownloader.ensure go dir m) w t p (begun w w.files q whole []) ∧
      ∀ w' b, w'.files.read (q ++ HfDownloader.tmpExt) = some b → b ≠ [] →
        ∃ t', Effects.Run HfDownloader.effect p w' t' (.done (.ok (m.stablePath dir)))
          ⟨w'.files.rename (q ++ HfDownloader.tmpExt) q, w'.bodies⟩ := by
  obtain ⟨hmain, hj, rfl, hmissing, body, entries, chosen, hlist, hchosen⟩ := h
  obtain ⟨t₁, k, hcomes, hk⟩ := run_projector hmain hj hmissing hlist hchosen
  obtain ⟨t₂, p, hbegins, hends⟩ := run_begun m.repo chosen (q := m.mmprojStablePath dir) (w := w) whole [] (.inl rfl)
  obtain ⟨t₃, hclosed⟩ := hends rfl
  refine ⟨_, _, hcomes.trans (hbegins.trans hclosed).bind_left, fun w' b hread hne => ?_⟩
  obtain ⟨t₄, hpublished⟩ := run_published hread hne
  have hrest : Effects.Run HfDownloader.effect (k none)
      ⟨w'.files.rename (m.mmprojStablePath dir ++ HfDownloader.tmpExt) (m.mmprojStablePath dir), w'.bodies⟩ []
      (.done (.ok (m.stablePath dir)))
      ⟨w'.files.rename (m.mmprojStablePath dir ++ HfDownloader.tmpExt) (m.mmprojStablePath dir), w'.bodies⟩ := by
    rw [hk]
    exact .refl _ _
  exact ⟨_, hpublished.bind hrest⟩

/-! ## Calls of different refs -/

variable {ι : Type} {cat : Catalog} {cfg : Config} {cm : Model} {i j : ι}

/-- A call in its download goes on with it. -/
theorem run_inside {mutex : Nat} {p p' : HfDownloader.Run (Except HfDownloader.Error Text)} {s : Shared ι}
    {w' : HfDownloader.World} {td : List (Event HfDownloader.Op HfDownloader.Op.Res)}
    (h : Effects.Run HfDownloader.effect p s.world td p' w') :
    Effects.Run (effect i) (underLock mutex (downloading p >>= checking cm)) s (td.map asEvent)
      (underLock mutex (downloading p' >>= checking cm)) { s with world := w' } :=
  (run_downloaded h rfl).bind_left.bind_left

/-- A call that is the first for its ref has the lock. -/
def entered (s : Shared ι) (ref : Text) (w : HfDownloader.World) : Shared ι where
  world := w
  modelLocks := Function.update s.modelLocks ref (some s.made)
  made := s.made + 1
  locked := Function.update s.locked s.made true
  cancelled := s.cancelled

theorem run_first {s : Shared ι} (hnew : s.modelLocks cm.ref = none) (hfree : s.locked s.made = false)
    {p : HfDownloader.Run (Except HfDownloader.Error Text)} {w' : HfDownloader.World}
    {td : List (Event HfDownloader.Op HfDownloader.Op.Res)}
    (h : Effects.Run HfDownloader.effect (HfDownloader.ensure go cfg.modelsDir cm) s.world td p w') :
    ∃ t, Effects.Run (effect i) (locking go cfg cm) s t (underLock s.made (downloading p >>= checking cm))
      (entered s cm.ref w') := by
  have hlockFor : effect i s (.lockFor cm.ref) s.made
      { s with modelLocks := Function.update s.modelLocks cm.ref (some s.made), made := s.made + 1 } := by
    simp [effect, hnew]
  have hlock : effect i
      { s with modelLocks := Function.update s.modelLocks cm.ref (some s.made), made := s.made + 1 } (.lock s.made) ()
      (entered s cm.ref s.world) := ⟨hfree, rfl⟩
  have hdown : Effects.Run HfDownloader.effect (HfDownloader.ensure go cfg.modelsDir cm)
      (entered s cm.ref s.world).world td p w' := h
  exact ⟨_, .step hlockFor (.step hlock (run_inside hdown))⟩

/-- A call whose download is done asks the router, which has its entry, and returns. -/
theorem run_checked {s : Shared ι} (mutex : Nat) (path : Text) (hctx : s.cancelled i = none) :
    ∃ t, Effects.Run (effect i) (underLock mutex (checking cm (.ok path))) s t (.done none)
      { s with locked := Function.update s.locked mutex false } := by
  have hasks : Effects.Run (effect i) (checking cm (.ok path)) s
      [⟨.ctxErr, none⟩, ⟨.models, .ok ⟨[], [{ id := cm.ref }]⟩⟩] (.done none) s := by
    refine .step ⟨rfl, hctx.symm⟩ (.step rfl ?_)
    simp only [Prog.bind, pure, has_own_ref]
    exact .refl _ _
  exact ⟨_, hasks.bind (.step (r := ()) rfl (.refl _ _))⟩

/-- So does a call that is the first for its ref and whose download comes to an end. -/
theorem run_returns {s : Shared ι} (hnew : s.modelLocks cm.ref = none) (hfree : s.locked s.made = false)
    (hctx : s.cancelled i = none) {path : Text} {w' : HfDownloader.World}
    {td : List (Event HfDownloader.Op HfDownloader.Op.Res)}
    (h : Effects.Run HfDownloader.effect (HfDownloader.ensure go cfg.modelsDir cm) s.world td (.done (.ok path)) w') :
    ∃ t s', Effects.Run (effect i) (locking go cfg cm) s t (.done none) s' ∧ s'.world = w' ∧
      s'.cancelled = s.cancelled := by
  obtain ⟨t, hfirst⟩ := run_first (i := i) hnew hfree h
  obtain ⟨t', hchecked⟩ := run_checked (i := i) (s := entered s cm.ref w') s.made path hctx
  exact ⟨_, _, hfirst.trans hchecked, rfl, rfl⟩

theorem ensureAvailable_eq {ref requiredKind : Text} (hr : resolve cat ref requiredKind = .ok cm) :
    ensureAvailable go cat cfg ref requiredKind = locking go cfg cm := by
  unfold ensureAvailable
  rw [hr]
  rfl

variable [DecidableEq ι] {ref requiredKind : ι → Text} {w₀ : HfDownloader.World} {a b : Model}

/-- A call goes on after another one has run. -/
theorem runs_between {P : Pool ι Op Op.Res (Option Error) (Shared ι)} (hij : j ≠ i)
    {p p' q : EnsureAvailable.Run (Option Error)} {s₁ s₂ s₃ : Shared ι} {t t' t'' : List (Event Op Op.Res)}
    (h₁ : Effects.Run (effect i) (P.prog i) P.state t p s₁) (h₂ : Effects.Run (effect j) (P.prog j) s₁ t' q s₂)
    (h₃ : Effects.Run (effect i) p s₂ t'' p' s₃) :
    ∃ H Q, Runs effect Cancel P H Q ∧ Q.prog i = p' ∧ Q.prog j = q ∧ Q.state = s₃ := by
  have hfirst := runs_alone (N := Cancel) h₁ rfl rfl
  have hj : (Function.update P.prog i p) j = P.prog j := Function.update_of_ne hij ..
  have hsecond := runs_alone (N := Cancel) (P := ⟨Function.update P.prog i p, s₁⟩) h₂ hj rfl
  have hi : (Function.update (Function.update P.prog i p) j q) i = p := by
    rw [Function.update_of_ne (Ne.symm hij), Function.update_self]
  have hthird := runs_alone (N := Cancel) (P := ⟨Function.update (Function.update P.prog i p) j q, s₂⟩) h₃ hi rfl
  exact ⟨_, _, (hfirst.trans hsecond).trans hthird, Function.update_self ..,
    (Function.update_of_ne hij ..).trans (Function.update_self ..), rfl⟩

/-- Calls for different refs do not wait for each other. -/
theorem runs_overlap (hij : j ≠ i) (href : b.ref ≠ a.ref) (ha : resolve cat (ref i) (requiredKind i) = .ok a)
    (hb : resolve cat (ref j) (requiredKind j) = .ok b) {w₁ w₂ w₃ : HfDownloader.World}
    {p p' p'' : HfDownloader.Run (Except HfDownloader.Error Text)}
    {t t' t'' : List (Event HfDownloader.Op HfDownloader.Op.Res)}
    (hA : Effects.Run HfDownloader.effect (HfDownloader.ensure go cfg.modelsDir a) w₀ t p w₁)
    (hB : Effects.Run HfDownloader.effect (HfDownloader.ensure go cfg.modelsDir b) w₁ t' p' w₂)
    (hA' : Effects.Run HfDownloader.effect p w₂ t'' p'' w₃) :
    ∃ H Q, Runs effect Cancel (started go cat cfg ref requiredKind w₀) H Q ∧ Q.state.world = w₃ := by
  have hi : (started go cat cfg ref requiredKind w₀).prog i = locking go cfg a := ensureAvailable_eq ha
  have hj : (started go cat cfg ref requiredKind w₀).prog j = locking go cfg b := ensureAvailable_eq hb
  obtain ⟨u, hu⟩ := run_first (i := i) (s := (started go cat cfg ref requiredKind w₀).state) rfl rfl hA
  have hnew : (entered (started go cat cfg ref requiredKind w₀).state a.ref w₁).modelLocks b.ref = none :=
    Function.update_of_ne href _ _
  obtain ⟨u', hu'⟩ := run_first (i := j) hnew rfl hB
  obtain ⟨H, Q, hruns, -, -, hstate⟩ := runs_between hij (hi ▸ hu) (hj ▸ hu') (run_inside hA')
  exact ⟨H, Q, hruns, by rw [hstate]⟩

/-- Two calls for different refs download at the same time, and both return. -/
theorem runs_both (hij : j ≠ i) (href : b.ref ≠ a.ref) (ha : resolve cat (ref i) (requiredKind i) = .ok a)
    (hb : resolve cat (ref j) (requiredKind j) = .ok b) {w₁ w₂ w₃ : HfDownloader.World} {pathA pathB : Text}
    {p : HfDownloader.Run (Except HfDownloader.Error Text)}
    {t t' t'' : List (Event HfDownloader.Op HfDownloader.Op.Res)}
    (hA : Effects.Run HfDownloader.effect (HfDownloader.ensure go cfg.modelsDir a) w₀ t p w₁)
    (hB : Effects.Run HfDownloader.effect (HfDownloader.ensure go cfg.modelsDir b) w₁ t' (.done (.ok pathB)) w₂)
    (hA' : Effects.Run HfDownloader.effect p w₂ t'' (.done (.ok pathA)) w₃) :
    ∃ H Q, Runs effect Cancel (started go cat cfg ref requiredKind w₀) H Q ∧ Q.prog i = .done none ∧
      Q.prog j = .done none ∧ Q.state.world = w₃ := by
  have hi : (started go cat cfg ref requiredKind w₀).prog i = locking go cfg a := ensureAvailable_eq ha
  have hj : (started go cat cfg ref requiredKind w₀).prog j = locking go cfg b := ensureAvailable_eq hb
  obtain ⟨u, hu⟩ := run_first (i := i) (s := (started go cat cfg ref requiredKind w₀).state) rfl rfl hA
  have hnew : (entered (started go cat cfg ref requiredKind w₀).state a.ref w₁).modelLocks b.ref = none :=
    Function.update_of_ne href _ _
  obtain ⟨u', s, hs, hworld, hctx⟩ := run_returns (i := j) hnew rfl rfl hB
  obtain ⟨v, hv⟩ := run_checked (i := i) (s := { s with world := w₃ }) 0 pathA (congrFun hctx i)
  obtain ⟨H, Q, hruns, hdone, hdone', hstate⟩ :=
    runs_between hij (hi ▸ hu) (hj ▸ hs) ((run_inside (hworld ▸ hA')).trans hv)
  exact ⟨H, Q, hruns, hdone, hdone', by rw [hstate]⟩

/-! ## Two entries with projectors of their own -/

/-- While one call has its temporary file open, the other downloads its projector. Both
projectors are then there. -/
theorem runs_separate (hij : j ≠ i) (href : b.ref ≠ a.ref) (ha : resolve cat (ref i) (requiredKind i) = .ok a)
    (hb : resolve cat (ref j) (requiredKind j) = .ok b) {q' : Text} (hq : q' ≠ q)
    (hfa : Fetches go cfg.modelsDir w₀ a q) (hfb : Fetches go cfg.modelsDir w₀ b q')
    {piece piece' : Bytes} (hpiece : piece ≠ []) (hpiece' : piece' ≠ []) :
    ∃ H Q, Runs effect Cancel (started go cat cfg ref requiredKind w₀) H Q ∧ Q.prog i = .done none ∧
      Q.prog j = .done none ∧ Q.state.world.files.read q = some piece ∧ Q.state.world.files.read q' = some piece' := by
  have hvb : b.validate = .ok () := cat.valid b (mem_of_resolve hb)
  have hva : a.validate = .ok () := cat.valid a (mem_of_resolve ha)
  have hstable : IsStable cfg.modelsDir q := hfa.path ▸ isStable_mmproj cfg.modelsDir hva hfa.projector
  have hstable' : IsStable cfg.modelsDir q' := hfb.path ▸ isStable_mmproj cfg.modelsDir hvb hfb.projector
  have hne : ∀ {p x : Text}, IsStable cfg.modelsDir p → p ≠ x ++ HfDownloader.tmpExt := by
    intro p x hp he
    exact not_isStable_tmp cfg.modelsDir x (he ▸ hp)
  have htmp : q ++ HfDownloader.tmpExt ≠ q' ++ HfDownloader.tmpExt := fun he => hq (List.append_cancel_right he).symm
  obtain ⟨t, p, hA, hpublish⟩ := run_received hfa piece
  have hread : (begun w₀ w₀.files q piece []).files.read (q ++ HfDownloader.tmpExt) = some piece :=
    (read_put _ _ _ _).trans (if_pos rfl)
  have hsame : ∀ x, IsStable cfg.modelsDir x → (begun w₀ w₀.files q piece []).files.read x = w₀.files.read x := by
    intro x hx
    exact (read_put _ _ _ x).trans (if_neg (hne hx))
  generalize begun w₀ w₀.files q piece [] = w₁ at *
  have hfb' := hfb.frame (hsame _ (isStable_main cfg.modelsDir hvb)) (hsame _ hstable')
  obtain ⟨t', p', hB, hpublish'⟩ := run_received hfb' piece'
  have hread' : (begun w₁ w₁.files q' piece' []).files.read (q' ++ HfDownloader.tmpExt) = some piece' :=
    (read_put _ _ _ _).trans (if_pos rfl)
  have hkept : (begun w₁ w₁.files q' piece' []).files.read (q ++ HfDownloader.tmpExt) = some piece :=
    (read_put _ _ _ _).trans ((if_neg htmp).trans hread)
  obtain ⟨u', hPB⟩ := hpublish' _ piece' hread' hpiece'
  have hB' := hB.trans hPB
  generalize begun w₁ w₁.files q' piece' [] = w₂ at *
  have hkept' : (w₂.files.rename (q' ++ HfDownloader.tmpExt) q').read (q ++ HfDownloader.tmpExt) = some piece := by
    rw [read_rename, if_neg (hne hstable').symm, if_neg htmp, hkept]
  obtain ⟨u, hPA⟩ := hpublish ⟨w₂.files.rename (q' ++ HfDownloader.tmpExt) q', w₂.bodies⟩ piece hkept' hpiece
  obtain ⟨H, Q, hruns, hi, hj, hworld⟩ := runs_both hij href ha hb hA hB' hPA
  refine ⟨H, Q, hruns, hi, hj, ?_, ?_⟩
  · rw [hworld, read_rename, if_pos rfl]
    exact hkept'
  · rw [hworld, read_rename, if_neg hq, if_neg (hne hstable'), read_rename, if_pos rfl, hread']

/-! ## Two entries with one projector -/

/-- Two entries of different refs whose main files are there and whose projector, at one
path, is not. -/
structure Rivals (go : HfDownloader.Library) (dir : Text) (w : HfDownloader.World) (a b : Model) (q : Text) : Prop where
  refs : b.ref ≠ a.ref
  missing : ¬ HfDownloader.Present w.files q
  mains : ∀ m, m = a ∨ m = b → HfDownloader.Present w.files (m.stablePath dir) ∧
    m.stablePath dir ≠ q ++ HfDownloader.tmpExt
  projectors : ∀ m, m = a ∨ m = b → m.mmproj ≠ [] ∧ m.mmprojStablePath dir = q
  listed : ∀ m, m = a ∨ m = b → ∃ body entries chosen, HfDownloader.decodeEntries body = some entries ∧
    HfDownloader.chooseExactFile go (listing entries) m.repo m.mmproj = .ok chosen

theorem Rivals.run (h : Rivals go dir w a b q) (hm : m = a ∨ m = b) {fs : Files Text UInt8}
    (hsame : ∀ p, p ≠ q ++ HfDownloader.tmpExt → fs.read p = w.files.read p) (bodies : List Bytes) :
    ∃ t chosen k, Effects.Run HfDownloader.effect (HfDownloader.ensure go dir m) ⟨fs, bodies⟩ t
      (HfDownloader.download m.repo chosen q >>= k) ⟨fs, bodies⟩ := by
  obtain ⟨hmain, hne⟩ := h.mains m hm
  obtain ⟨hj, hpath⟩ := h.projectors m hm
  obtain ⟨body, entries, chosen, hlist, hchosen⟩ := h.listed m hm
  have hmissing : ¬ HfDownloader.Present fs (m.mmprojStablePath dir) := by
    rw [hpath, present_of_read (hsame _ (ne_tmp _))]
    exact h.missing
  obtain ⟨t, k, hrun, -⟩ := run_projector (w := ⟨fs, bodies⟩) ((present_of_read (hsame _ hne)).mpr hmain) hj hmissing
    hlist hchosen
  rw [hpath] at hrun
  exact ⟨t, chosen, k, hrun⟩

/-- One call has received its body whole when the other opens the file of that name. The
first gives the final name to the piece that the other has written. -/
theorem runs_race (h : Rivals go cfg.modelsDir w₀ a b q) (hij : j ≠ i)
    (ha : resolve cat (ref i) (requiredKind i) = .ok a) (hb : resolve cat (ref j) (requiredKind j) = .ok b)
    (whole piece rest : Bytes) (hpiece : piece ≠ []) :
    ∃ H Q, Runs effect Cancel (started go cat cfg ref requiredKind w₀) H Q ∧
      Q.state.world.files.read q = some piece ∧ Q.state.world.bodies = (piece ++ rest) :: whole :: w₀.bodies := by
  obtain ⟨t₁, fileA, kA, hA₁⟩ := h.run (.inl rfl) (fun _ _ => rfl) w₀.bodies
  obtain ⟨t₂, pA, hA₂, hclose⟩ := run_begun a.repo fileA (w := w₀) whole [] (.inl rfl)
  obtain ⟨t₃, hA₃⟩ := hclose rfl
  have hA := hA₁.trans (hA₂.trans hA₃).bind_left
  generalize hw₁ : begun w₀ w₀.files q whole [] = w₁ at hA
  have hsame : ∀ p, p ≠ q ++ HfDownloader.tmpExt → w₁.files.read p = w₀.files.read p := by
    intro p hp
    rw [← hw₁]
    exact (read_put _ _ _ p).trans (if_neg hp)
  obtain ⟨u₁, fileB, kB, hB₁⟩ := h.run (.inr rfl) hsame w₁.bodies
  obtain ⟨u₂, pB, hB₂, -⟩ := run_begun b.repo fileB (w := w₁) piece [rest] (.inr rfl)
  have hB := hB₁.trans hB₂.bind_left
  have hread : (begun w₁ (w₁.files.unlink (q ++ HfDownloader.tmpExt)) q piece [rest]).files.read
      (q ++ HfDownloader.tmpExt) = some piece := (read_put _ _ _ _).trans (if_pos rfl)
  obtain ⟨t₄, hA₄⟩ := run_published hread hpiece
  obtain ⟨H, Q, hruns, hworld⟩ := runs_overlap hij h.refs ha hb hA hB hA₄.bind_left
  refine ⟨H, Q, hruns, ?_, ?_⟩
  · rw [hworld, read_rename, if_pos rfl]
    exact (read_put _ _ _ _).trans (if_pos rfl)
  · rw [hworld, ← hw₁]
    simp [begun]

end RivalDownloads
