import LlamaStack.DownloaderAtomicity

/-!
# What a call knows

What a call of `Ensure` knows from its own operations while others work on the same
files: the bodies it has received, the temporary file it has open, and the paths that it
has found or filled. A file takes its final name only when the call knows it complete.
-/
namespace DownloadViews

open Effects GoBytes ModelCatalog HfDownloader DownloaderAtomicity

/-- A temporary file that is open, and what was written to it while no write has failed. -/
structure Opened where
  path : Text
  file : Nat
  content : Option Bytes

structure View where
  bodies : List Bytes
  opened : Option Opened
  known : List Text

/-- Before the first operation. -/
def View.start : View := ⟨[], none, []⟩

def Opened.written (f : Opened) (chunk : Bytes) (err : Option Bytes) : Opened :=
  match err with
  | none => { f with content := f.content.map (· ++ chunk) }
  | some _ => { f with content := none }

def View.step (v : View) (e : Event Op Op.Res) : View :=
  match e with
  | ⟨.fileExists p, r⟩ => if (r : Bool) then { v with known := p :: v.known } else v
  | ⟨.get _ _, r⟩ => { v with bodies := (r : Answer).bodies ++ v.bodies }
  | ⟨.remove _, _⟩ => { v with opened := none }
  | ⟨.openFile p, r⟩ =>
    match (r : Except Bytes Nat) with
    | .error _ => v
    | .ok i => { v with opened := some ⟨p, i, some []⟩ }
  | ⟨.write _ chunk, r⟩ => { v with opened := v.opened.map fun f => f.written chunk r }
  | ⟨.rename _ q, r⟩ =>
    match (r : Option Bytes) with
    | some _ => { v with opened := none }
    | none => { v with opened := none, known := q :: v.known }
  | _ => v

/-- The size of the open file is that of what was written to it. -/
def Told (v : View) : Event Op Op.Res → Prop
  | ⟨.stat p, r⟩ => ∀ size i c, (r : Except Bytes Nat) = .ok size → v.opened = some ⟨p, i, some c⟩ → size = c.length
  | _ => True

/-- What an operation may tell the call. -/
def heard : Meaning Op Op.Res View := informed View.step Told

/-- What the call must know before an operation on a file. -/
def Guarded (modelsDir : Text) (v : View) : Op → Prop
  | .remove p => ¬ IsStable modelsDir p
  | .openFile p => ¬ IsStable modelsDir p ∧ v.opened = none
  | .write i _ => ∃ p c, v.opened = some ⟨p, i, some c⟩
  | .rename p q => IsStable modelsDir q ∧ ∃ i c, v.opened = some ⟨p, i, some c⟩ ∧ c ≠ [] ∧ c ∈ v.bodies
  | _ => True

/-! ## One download -/

variable {modelsDir q : Text} {v : View}

/-- How a download ends: nothing is open, and without an error the path is filled. -/
structure Closed (q : Text) (v : View) (err : Option Error) (v' : View) : Prop where
  opened : v'.opened = none
  known : v.known ⊆ v'.known
  filled : err = none → q ∈ v'.known

theorem removeAndFail_view (err : Error) :
    Spec heard (Guarded modelsDir) (Closed q v) (removeAndFail (q ++ tmpExt) err) v := by
  refine spec_op (not_isStable_tmp _ _) ?_
  rintro _ _ ⟨rfl, -⟩
  exact ⟨rfl, List.Subset.refl _, by simp⟩

theorem publish_view (hq : IsStable modelsDir q) {i : Nat} {c : Bytes}
    (hv : v.opened = some ⟨q ++ tmpExt, i, some c⟩) (hc : c ∈ v.bodies) :
    Spec heard (Guarded modelsDir) (Closed q v) (publish (q ++ tmpExt) q) v := by
  refine spec_op trivial ?_
  rintro info _ ⟨rfl, htold⟩
  cases info with
  | error err => exact removeAndFail_view _
  | ok size =>
    have hsize : size = c.length := htold size i c rfl hv
    by_cases h0 : size = 0
    · simp only [h0, if_true]
      exact removeAndFail_view _
    · have hne : c ≠ [] := by
        rintro rfl
        exact h0 hsize
      simp only [h0, if_false]
      refine spec_op ⟨hq, i, c, hv, hne, hc⟩ ?_
      rintro err _ ⟨rfl, -⟩
      cases err with
      | some err => exact ⟨rfl, List.Subset.refl _, by simp⟩
      | none => exact ⟨rfl, List.subset_cons_self _ _, fun _ => List.mem_cons_self⟩

/-- What a copied body leaves. -/
structure Copied (v : View) (f : Opened) (ending : GoStream.ReadEnd) (err : Option Bytes) (v' : View) : Prop where
  bodies : v'.bodies = v.bodies
  known : v'.known = v.known
  whole : err = none → ending = .eof ∧ v'.opened = some f

theorem copyBody_view {p : Text} {i : Nat} (ending : GoStream.ReadEnd) (chunks : List Bytes) {c : Bytes}
    (hv : v.opened = some ⟨p, i, some c⟩) :
    Spec heard (Guarded modelsDir) (Copied v ⟨p, i, some (c ++ chunks.flatten)⟩ ending)
      (copyBody i ending chunks) v := by
  induction chunks generalizing v c with
  | nil =>
    rw [List.flatten_nil, List.append_nil]
    cases ending with
    | eof => exact ⟨rfl, rfl, fun _ => ⟨rfl, hv⟩⟩
    | failed message => exact ⟨rfl, rfl, by simp⟩
  | cons chunk chunks ih =>
    refine spec_op ⟨p, c, hv⟩ ?_
    rintro err _ ⟨rfl, -⟩
    cases err with
    | some err => exact ⟨rfl, rfl, by simp⟩
    | none =>
      have hwritten : (v.step ⟨.write i chunk, none⟩).opened = some ⟨p, i, some (c ++ chunk)⟩ := by
        rw [View.step, hv]
        rfl
      refine spec_mono (fun _ _ hg => hg) (fun err v' h => ?_) (ih hwritten)
      refine ⟨h.bodies, h.known, fun herr => ⟨(h.whole herr).1, ?_⟩⟩
      rw [(h.whole herr).2, List.flatten_cons, List.append_assoc]

theorem save_view (hq : IsStable modelsDir q) {body : Body} (hbody : body.ending = .eof → body.bytes ∈ v.bodies) :
    Spec heard (Guarded modelsDir) (Closed q v) (save body q) v := by
  refine spec_op (not_isStable_tmp _ _) ?_
  rintro _ _ ⟨rfl, -⟩
  refine spec_op ⟨not_isStable_tmp _ _, rfl⟩ ?_
  rintro out _ ⟨rfl, -⟩
  cases out with
  | error err => exact ⟨rfl, List.Subset.refl _, by simp⟩
  | ok i =>
    apply spec_bind
    refine spec_mono (fun _ _ hg => hg) (fun copyErr v₁ h₁ => ?_)
      (copyBody_view (p := q ++ tmpExt) (i := i) (c := []) body.ending body.chunks rfl)
    refine spec_op trivial ?_
    rintro closeErr v₂ ⟨hv₂, -⟩
    obtain rfl : v₂ = v₁ := hv₂
    have hfail : ∀ err, Spec heard (Guarded modelsDir) (Closed q v) (removeAndFail (q ++ tmpExt) err) v₂ := by
      intro err
      refine spec_mono (fun _ _ hg => hg) (fun _ v' h => ?_) (removeAndFail_view err)
      exact ⟨h.opened, h₁.known ▸ h.known, h.filled⟩
    cases copyErr with
    | some err => exact hfail _
    | none =>
      cases closeErr with
      | some err => exact hfail _
      | none =>
        obtain ⟨heof, hopened⟩ := h₁.whole rfl
        have hmem : body.bytes ∈ v₂.bodies := h₁.bodies ▸ hbody heof
        refine spec_mono (fun _ _ hg => hg) (fun _ v' h => ?_) (publish_view hq hopened hmem)
        exact ⟨h.opened, h₁.known ▸ h.known, h.filled⟩

theorem download_view (hq : IsStable modelsDir q) (hv : v.opened = none) (repo file : Text) :
    Spec heard (Guarded modelsDir) (Closed q v) (download repo file q) v := by
  refine download_rule repo file q trivial ?_ ?_
  · rintro answer _ ⟨rfl, -⟩ err
    exact ⟨hv, List.Subset.refl _, by simp⟩
  · rintro status body _ ⟨rfl, -⟩ hstatus
    refine spec_mono (fun _ _ hg => hg) (fun _ v' h => ?_) (save_view hq fun heof => ?_)
    · exact ⟨h.opened, h.known, h.filled⟩
    · simp [View.step, Answer.bodies, hstatus, heof]

/-! ## Both files of an entry -/

theorem ifMissing_view {missing : Bool} (hm : missing = false → q ∈ v.known) (hv : v.opened = none)
    {fetch : HfDownloader.Run (Option Error)}
    (h : missing = true → Spec heard (Guarded modelsDir) (Closed q v) fetch v) :
    Spec heard (Guarded modelsDir) (Closed q v) (ifMissing missing fetch) v := by
  cases missing with
  | false => exact ⟨hv, List.Subset.refl _, fun _ => hm rfl⟩
  | true => exact h rfl

theorem ensureMain_view (go : Library) (files : List Text) (m : Model) (hq : IsStable modelsDir q)
    (hv : v.opened = none) : Spec heard (Guarded modelsDir) (Closed q v) (ensureMain go files m q) v := by
  unfold ensureMain
  cases chooseFile go files m with
  | error err => exact ⟨hv, List.Subset.refl _, by simp⟩
  | ok chosen => exact download_view hq hv m.repo chosen

theorem ensureMMProj_view (go : Library) (files : List Text) (m : Model) (hq : IsStable modelsDir q)
    (hv : v.opened = none) : Spec heard (Guarded modelsDir) (Closed q v) (ensureMMProj go files m q) v := by
  unfold ensureMMProj
  cases chooseExactFile go files m.repo m.mmproj with
  | error err => exact ⟨hv, List.Subset.refl _, by simp⟩
  | ok chosen =>
    refine spec_op trivial ?_
    rintro err _ ⟨rfl, -⟩
    cases err with
    | some err => exact ⟨hv, List.Subset.refl _, by simp⟩
    | none => exact download_view hq hv m.repo chosen

variable {m : Model}

/-- The call knows all files of the entry. -/
def Knows (modelsDir : Text) (m : Model) (v : View) : Prop :=
  m.stablePath modelsDir ∈ v.known ∧ (m.mmproj ≠ [] → m.mmprojStablePath modelsDir ∈ v.known)

/-- How a call ends. -/
def Ensured (modelsDir : Text) (m : Model) (r : Except Error Text) (v : View) : Prop :=
  v.opened = none ∧ ((∃ path, r = .ok path) → Knows modelsDir m v)

theorem ensureMissing_view (go : Library) (files : List Text) (hm : m.validate = .ok ()) (hv : v.opened = none)
    {mainMissing mmprojMissing : Bool} (hmain : mainMissing = false → m.stablePath modelsDir ∈ v.known)
    (hproj : mmprojMissing = false → m.mmproj ≠ [] → m.mmprojStablePath modelsDir ∈ v.known)
    (hnone : m.mmproj = [] → mmprojMissing = false) :
    Spec heard (Guarded modelsDir) (Ensured modelsDir m)
      (ensureMissing go files modelsDir m mainMissing mmprojMissing) v := by
  apply spec_bind
  refine spec_mono (fun _ _ hg => hg) (fun err v₁ h₁ => ?_)
    (ifMissing_view hmain hv fun _ => ensureMain_view go files m (isStable_main modelsDir hm) hv)
  cases err with
  | some err => exact ⟨h₁.opened, by simp⟩
  | none =>
    by_cases hj : m.mmproj = []
    · rw [hnone hj]
      exact ⟨h₁.opened, fun _ => ⟨h₁.filled rfl, fun hne => absurd hj hne⟩⟩
    · apply spec_bind
      refine spec_mono (fun _ _ hg => hg) (fun err v₂ h₂ => ?_)
        (ifMissing_view (fun h => h₁.known (hproj h hj)) h₁.opened fun _ =>
          ensureMMProj_view go files m (isStable_mmproj modelsDir hm hj) h₁.opened)
      cases err with
      | some err => exact ⟨h₂.opened, by simp⟩
      | none => exact ⟨h₂.opened, fun _ => ⟨h₂.known (h₁.filled rfl), fun _ => h₂.filled rfl⟩⟩

theorem listFiles_view (go : Library) (repo : Text) :
    Spec heard (Guarded modelsDir) (fun _ v' => v' = v) (listFiles go repo) v :=
  listFiles_rule go repo trivial fun _ _ he _ => he.1

theorem step_fileExists (v : View) (p : Text) (present : Bool) :
    (v.step ⟨.fileExists p, present⟩).opened = v.opened ∧ v.known ⊆ (v.step ⟨.fileExists p, present⟩).known ∧
      (present = true → p ∈ (v.step ⟨.fileExists p, present⟩).known) := by
  cases present with
  | false => exact ⟨rfl, List.Subset.refl _, by simp⟩
  | true => exact ⟨rfl, List.subset_cons_self _ _, fun _ => List.mem_cons_self⟩

theorem missingMMProj_view (hv : v.opened = none) :
    Spec heard (Guarded modelsDir) (fun missing v' => v'.opened = none ∧ v.known ⊆ v'.known ∧
      (missing = false → m.mmproj ≠ [] → m.mmprojStablePath modelsDir ∈ v'.known) ∧
      (m.mmproj = [] → missing = false)) (missingMMProj modelsDir m) v := by
  unfold missingMMProj
  split
  · rename_i hj
    refine spec_op trivial ?_
    rintro present _ ⟨rfl, -⟩
    obtain ⟨hopened, hknown, hpresent⟩ := step_fileExists v (m.mmprojStablePath modelsDir) present
    exact ⟨hopened.trans hv, hknown, fun h _ => hpresent (by simpa using h), fun h => absurd h hj⟩
  · rename_i hj
    exact ⟨hv, List.Subset.refl _, fun _ h => absurd h hj, fun _ => rfl⟩

/-- What a call knows of its files comes from its own operations. -/
theorem ensure_view (go : Library) (hm : m.validate = .ok ()) (hv : v.opened = none) :
    Spec heard (Guarded modelsDir) (Ensured modelsDir m) (ensure go modelsDir m) v := by
  refine spec_op trivial ?_
  rintro present _ ⟨rfl, -⟩
  obtain ⟨hopened, -, hpresent⟩ := step_fileExists v (m.stablePath modelsDir) present
  apply spec_bind
  refine spec_mono (fun _ _ hg => hg) (fun mmprojMissing v₁ h₁ => ?_) (missingMMProj_view (hopened.trans hv))
  obtain ⟨hv₁, hknown, hproj, hnone⟩ := h₁
  have hmain : (!present) = false → m.stablePath modelsDir ∈ v₁.known :=
    fun h => hknown (hpresent (by simpa using h))
  by_cases hall : (!(!present) && !mmprojMissing) = true
  · simp only [hall, if_true]
    simp only [Bool.and_eq_true, Bool.not_eq_true'] at hall
    exact ⟨hv₁, fun _ => ⟨hmain hall.1, hproj hall.2⟩⟩
  · simp only [hall, Bool.false_eq_true, if_false]
    refine spec_op trivial ?_
    rintro err _ ⟨rfl, -⟩
    cases err with
    | some err => exact ⟨hv₁, by simp⟩
    | none =>
      apply spec_bind
      refine spec_mono (fun _ _ hg => hg) (fun files v₂ h₂ => ?_) (listFiles_view go m.repo)
      obtain rfl := h₂
      cases files with
      | error err => exact ⟨hv₁, by simp⟩
      | ok files => exact ensureMissing_view go files hm hv₁ hmain hproj hnone

end DownloadViews
