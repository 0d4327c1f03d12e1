import LlamaStack.DownloaderAtomicity
import LlamaStack.ModelLocks

/-!
# What a call downloads

The requests and the successful downloads of calls of `Ensure`, in their order. A call
requests only what is missing, and what it has downloaded is there.
-/
namespace DownloadMarks

open Effects GoBytes ModelCatalog HfDownloader DownloaderAtomicity

/-! ## Requests and files -/

inductive Artifact where
  | main
  | projector
  deriving DecidableEq

def path (modelsDir : Text) (m : Model) : Artifact → Text
  | .main => m.stablePath modelsDir
  | .projector => m.mmprojStablePath modelsDir

inductive Mark where
  | requested (a : Artifact)
  | downloaded (a : Artifact)
  deriving DecidableEq

/-- The requests and the downloads that have succeeded, and what a request of each call would be for. -/
structure Log (ι : Type) where
  next : ι → Artifact
  marks : List Mark

variable {ι : Type} [DecidableEq ι]

/-- A call requests the main file behind the listing, the projector when its directory was made. -/
def Log.step (l : Log ι) (x : ι × Event HfDownloader.Op HfDownloader.Op.Res) : Log ι :=
  match x with
  | ⟨i, .list _, _⟩ => { l with next := Function.update l.next i .main }
  | ⟨i, .mkdirAll _, _⟩ => { l with next := Function.update l.next i .projector }
  | ⟨i, .get _ _, _⟩ => { l with marks := l.marks ++ [.requested (l.next i)] }
  | ⟨i, .rename _ _, r⟩ =>
    match (r : Option Bytes) with
    | none => { l with marks := l.marks ++ [.downloaded (l.next i)] }
    | some _ => l
  | _ => l

/-- The log behind the events of one call. -/
def logs (i : ι) : Meaning HfDownloader.Op HfDownloader.Op.Res (Log ι) := follows fun l e => l.step (i, e)

def Log.asked (l : Log ι) (i : ι) : Log ι := { l with marks := l.marks ++ [.requested (l.next i)] }

def Log.got (l : Log ι) (i : ι) : Log ι := { l with marks := l.marks ++ [.downloaded (l.next i)] }

variable {l : Log ι} {i : ι}

/-- The log of a part that ends with the file in place, or with an error. -/
def Settled (i : ι) (l : Log ι) (err : Option HfDownloader.Error) (l' : Log ι) : Prop :=
  l' = if err = none then l.got i else l

theorem removeAndFail_log (p : Text) (err : HfDownloader.Error) :
    Spec (logs i) (fun l' _ => l' = l) (Settled i l) (removeAndFail p err) l := by
  refine spec_op rfl ?_
  rintro _ _ rfl
  rfl

theorem publish_log (tmp stable : Text) :
    Spec (logs i) (fun l' _ => l' = l) (Settled i l) (publish tmp stable) l := by
  refine spec_op rfl ?_
  rintro info _ rfl
  cases info with
  | error err => exact removeAndFail_log _ _
  | ok size =>
    by_cases h0 : size = 0
    · simp only [h0, if_true]
      exact removeAndFail_log _ _
    · simp only [h0, if_false]
      refine spec_op rfl ?_
      rintro err _ rfl
      cases err with
      | none => rfl
      | some err => rfl

theorem copyBody_log (file : Nat) (ending : GoStream.ReadEnd) (chunks : List Bytes) :
    Spec (logs i) (fun l' _ => l' = l) (fun _ l' => l' = l) (copyBody file ending chunks) l := by
  induction chunks with
  | nil => cases ending <;> rfl
  | cons chunk chunks ih =>
    refine spec_op rfl ?_
    rintro err _ rfl
    cases err with
    | some err => rfl
    | none => exact ih

theorem save_log (body : Body) (stable : Text) :
    Spec (logs i) (fun l' _ => l' = l) (Settled i l) (save body stable) l := by
  refine spec_op rfl ?_
  rintro _ _ rfl
  refine spec_op rfl ?_
  rintro out _ rfl
  cases out with
  | error err => rfl
  | ok file =>
    apply spec_bind
    refine spec_mono (fun _ _ h => h) ?_ (copyBody_log file body.ending body.chunks)
    rintro copyErr l' rfl
    refine spec_op rfl ?_
    rintro closeErr _ rfl
    cases copyErr with
    | some err => exact removeAndFail_log _ _
    | none =>
      cases closeErr with
      | some err => exact removeAndFail_log _ _
      | none => exact publish_log _ _

theorem download_log (repo file stable : Text) :
    Spec (logs i) (fun l' _ => l' = l ∨ l' = l.asked i) (Settled i (l.asked i)) (download repo file stable) l := by
  refine download_rule repo file stable (.inl rfl) (fun _ _ he _ => he) fun _ body _ he _ => ?_
  obtain rfl := he
  exact spec_mono (fun _ _ h => .inr h) (fun _ _ h => h) (save_log body stable)

/-! ## One call -/

variable {modelsDir q : Text} {m : Model} {a : Artifact} {w w₀ : World} {s : World × Log ι}

/-- The files of before are still there. -/
def Lasting (modelsDir : Text) (w w' : World) : Prop :=
  ∀ p, IsStable modelsDir p → Present w.files p → Present w'.files p

theorem Lasting.trans {w₁ w₂ w₃ : World} (h : Lasting modelsDir w₁ w₂) (h' : Lasting modelsDir w₂ w₃) :
    Lasting modelsDir w₁ w₃ := fun p hp hw => h' p hp (h p hp hw)

theorem lasting_of_loading {w' : World} (h : Loading q w w') : Lasting modelsDir w w' := by
  intro p hp hw
  have hne : p ≠ q ++ tmpExt := fun he => not_isStable_tmp modelsDir q (he ▸ hp)
  exact (present_of_read (h.same p hne)).mpr hw

theorem lasting_of_published {w' : World} (h : Published q w w') : Lasting modelsDir w w' ∧ Present w'.files q := by
  obtain ⟨b, hb, hne, -⟩ := h.whole
  have hq : Present w'.files q := ⟨b, hb, hne⟩
  refine ⟨fun p hp hw => ?_, hq⟩
  have htmp : p ≠ q ++ tmpExt := fun he => not_isStable_tmp modelsDir q (he ▸ hp)
  by_cases hpq : p = q
  · exact hpq ▸ hq
  · exact (present_of_read (h.same p htmp hpq)).mpr hw

/-- What the part of a call adds that is about one file. -/
structure Part (modelsDir q : Text) (a : Artifact) (w : World) (l : Log ι) (s : World × Log ι) : Prop where
  lasting : Lasting modelsDir w s.1
  marks : ∃ d, s.2.marks = l.marks ++ d ∧ d <+: [.requested a, .downloaded a] ∧
    (.downloaded a ∈ d → Present s.1.files q)

omit [DecidableEq ι] in
theorem part_refl : Part modelsDir q a w l (w, l) := ⟨fun _ _ hw => hw, [], by simp⟩

variable (modelsDir) in
theorem download_part (repo file : Text) (ha : l.next i = a) :
    Spec (both effect (logs i)) (fun s _ => Part modelsDir q a w l s) (fun _ s => Part modelsDir q a w l s)
      (download repo file q) (w, l) := by
  have hasked : ∀ w', Lasting modelsDir w w' → Part modelsDir q a w l (w', l.asked i) := by
    intro w' hw
    exact ⟨hw, [.requested a], by simp [Log.asked, ha], by simp, by simp⟩
  have hload : Spec effect (Guard modelsDir q w) (Loaded q w) (download repo file q) w := download_spec repo file q w
  refine spec_mono ?_ ?_ (spec_both hload (download_log repo file q))
  · rintro ⟨w', l'⟩ o ⟨⟨hloading, -, -⟩, hl⟩
    have hw : Lasting modelsDir w w' := lasting_of_loading hloading
    cases hl with
    | inl hl =>
      obtain rfl : l' = l := hl
      exact ⟨hw, [], by simp⟩
    | inr hl =>
      obtain rfl : l' = l.asked i := hl
      exact hasked w' hw
  · rintro err ⟨w', l'⟩ ⟨hloaded, hl⟩
    cases err with
    | some err =>
      obtain rfl : l' = l.asked i := hl
      exact hasked w' (lasting_of_loading hloaded)
    | none =>
      obtain rfl : l' = (l.asked i).got i := hl
      have hpublished : Lasting modelsDir w w' ∧ Present w'.files q := lasting_of_published hloaded
      obtain ⟨hw, hq⟩ := hpublished
      refine ⟨hw, [.requested a, .downloaded a], ?_, by simp, fun _ => hq⟩
      simp [Log.asked, Log.got, ha]

theorem ensureMain_part (go : Library) (files : List Text) (hl : l.next i = .main) :
    Spec (both effect (logs i)) (fun s _ => Part modelsDir q .main w l s) (fun _ s => Part modelsDir q .main w l s)
      (ensureMain go files m q) (w, l) := by
  unfold ensureMain
  cases chooseFile go files m with
  | error err => exact part_refl
  | ok chosen => exact download_part modelsDir m.repo chosen hl

theorem ensureMMProj_part (go : Library) (files : List Text) :
    Spec (both effect (logs i)) (fun s _ => Part modelsDir q .projector w l s)
      (fun _ s => Part modelsDir q .projector w l s) (ensureMMProj go files m q) (w, l) := by
  unfold ensureMMProj
  cases chooseExactFile go files m.repo m.mmproj with
  | error err => exact part_refl
  | ok chosen =>
    refine spec_op part_refl ?_
    rintro err ⟨w', l'⟩ ⟨hw, hl⟩
    obtain rfl : w' = w := hw
    obtain rfl : l' = { l with next := Function.update l.next i .projector } := hl
    have hpart : ∀ s, Part modelsDir q .projector w' { l with next := Function.update l.next i .projector } s →
        Part modelsDir q .projector w' l s := fun s hs => ⟨hs.lasting, hs.marks⟩
    cases err with
    | some err => exact hpart _ part_refl
    | none =>
      refine spec_mono ?_ ?_ (download_part modelsDir m.repo chosen (Function.update_self ..))
      · intro s _ hs
        exact hpart s hs
      · intro err s hs
        exact hpart s hs

/-- A part that is left out when the file is there. -/
def Fetches (modelsDir q : Text) (a : Artifact) (missing : Bool) (w : World) (l : Log ι) (s : World × Log ι) : Prop :=
  Part modelsDir q a w l s ∧ (missing = false → s = (w, l))

omit [DecidableEq ι] in
theorem fetches_refl {missing : Bool} : Fetches modelsDir q a missing w l (w, l) := ⟨part_refl, fun _ => rfl⟩

theorem ifMissing_part (missing : Bool) {fetch : HfDownloader.Run (Option HfDownloader.Error)}
    (h : Spec (both effect (logs i)) (fun s _ => Part modelsDir q a w l s) (fun _ s => Part modelsDir q a w l s)
      fetch (w, l)) :
    Spec (both effect (logs i)) (fun s _ => Fetches modelsDir q a missing w l s)
      (fun _ s => Fetches modelsDir q a missing w l s) (ifMissing missing fetch) (w, l) := by
  cases missing with
  | false => exact fetches_refl
  | true => exact spec_mono (fun s _ hs => ⟨hs, by simp⟩) (fun _ s hs => ⟨hs, by simp⟩) h

/-- Behind a success comes no further mark of the same file. -/
def After (x y : Mark) : Prop := ∀ a, x = .downloaded a → y ≠ .requested a ∧ y ≠ .downloaded a

/-- A file of the entry that is not there. -/
def Missing (modelsDir : Text) (m : Model) (w : World) (a : Artifact) : Prop :=
  IsStable modelsDir (path modelsDir m a) ∧ ¬ Present w.files (path modelsDir m a)

/-- What a call adds: only files that were missing are requested, each once, and what was downloaded is there. -/
structure Call (modelsDir : Text) (m : Model) (w : World) (l : Log ι) (s : World × Log ι) : Prop where
  lasting : Lasting modelsDir w s.1
  marks : ∃ d, s.2.marks = l.marks ++ d ∧ d.Pairwise After ∧
    (∀ a, .requested a ∈ d ∨ .downloaded a ∈ d → Missing modelsDir m w a) ∧
    ∀ a, .downloaded a ∈ d → Present s.1.files (path modelsDir m a)

omit [DecidableEq ι] in
theorem fetched_marks {missing : Bool} (h : Fetches modelsDir q a missing w l s) :
    ∃ d, s.2.marks = l.marks ++ d ∧ d <+: [.requested a, .downloaded a] ∧ (d ≠ [] → missing = true) ∧
      (.downloaded a ∈ d → Present s.1.files q) := by
  obtain ⟨hpart, hsame⟩ := h
  obtain ⟨d, hd, hprefix, hpresent⟩ := hpart.marks
  refine ⟨d, hd, hprefix, fun hne => ?_, hpresent⟩
  by_contra hmissing
  obtain rfl := hsame (eq_false_of_ne_true hmissing)
  exact hne (List.self_eq_append_right.mp hd)

omit [DecidableEq ι] in
/-- The two parts of a call together. -/
theorem call_of_parts {w₁ : World} {l₁ : Log ι} {missing missing' : Bool}
    (hmain : missing = true → Missing modelsDir m w .main) (hproj : missing' = true → Missing modelsDir m w .projector)
    (h : Fetches modelsDir (m.stablePath modelsDir) .main missing w l (w₁, l₁))
    (h' : Fetches modelsDir (m.mmprojStablePath modelsDir) .projector missing' w₁ l₁ s)
    (hstable : IsStable modelsDir (m.stablePath modelsDir)) : Call modelsDir m w l s := by
  obtain ⟨d, hd, hprefix, hmissing, hpresent⟩ := fetched_marks h
  obtain ⟨d', hd', hprefix', hmissing', hpresent'⟩ := fetched_marks h'
  have hsub : (d ++ d').Sublist
      ([.requested .main, .downloaded .main] ++ [.requested .projector, .downloaded .projector]) :=
    hprefix.sublist.append hprefix'.sublist
  have hof : ∀ x ∈ d, x = .requested .main ∨ x = .downloaded .main := by
    intro x hx
    simpa using hprefix.subset hx
  have hof' : ∀ x ∈ d', x = .requested .projector ∨ x = .downloaded .projector := by
    intro x hx
    simpa using hprefix'.subset hx
  refine ⟨h.1.lasting.trans h'.1.lasting, d ++ d', ?_, ?_, ?_, ?_⟩
  · rw [hd', hd, List.append_assoc]
  · refine List.Pairwise.sublist hsub ?_
    simp [After]
  · have hnone : ∀ x a, x ∈ d ++ d' → x = .requested a ∨ x = .downloaded a → Missing modelsDir m w a := by
      intro x a hx hxa
      cases List.mem_append.mp hx with
      | inl hx =>
        have ha : a = .main := by
          rcases hof x hx with rfl | rfl <;> simpa [eq_comm] using hxa
        exact ha ▸ hmain (hmissing (List.ne_nil_of_mem hx))
      | inr hx =>
        have ha : a = .projector := by
          rcases hof' x hx with rfl | rfl <;> simpa [eq_comm] using hxa
        exact ha ▸ hproj (hmissing' (List.ne_nil_of_mem hx))
    intro a ha
    cases ha with
    | inl ha => exact hnone _ a ha (.inl rfl)
    | inr ha => exact hnone _ a ha (.inr rfl)
  · intro a ha
    cases List.mem_append.mp ha with
    | inl ha =>
      have hm : a = .main := by simpa using hof _ ha
      subst hm
      exact h'.1.lasting _ hstable (hpresent ha)
    | inr ha =>
      have hm : a = .projector := by simpa using hof' _ ha
      subst hm
      exact hpresent' ha

omit [DecidableEq ι] in
theorem call_of_main {missing : Bool} (hmain : missing = true → Missing modelsDir m w .main)
    (hstable : IsStable modelsDir (m.stablePath modelsDir))
    (h : Fetches modelsDir (m.stablePath modelsDir) .main missing w l s) : Call modelsDir m w l s := by
  have hrest : Fetches modelsDir (m.mmprojStablePath modelsDir) .projector false s.1 s.2 s := fetches_refl
  exact call_of_parts hmain (by simp) h hrest hstable

omit [DecidableEq ι] in
/-- What the next requests are for is no mark. -/
theorem Call.of_next {l₁ : Log ι} (h : Call modelsDir m w l₁ s) (hl : l₁.marks = l.marks) : Call modelsDir m w l s := by
  refine ⟨h.lasting, ?_⟩
  rw [← hl]
  exact h.marks

omit [DecidableEq ι] in
theorem call_refl {l₁ : Log ι} (hl : l₁.marks = l.marks) : Call modelsDir m w l (w, l₁) :=
  ⟨fun _ _ hw => hw, [], by simp [hl], by simp, by simp, by simp⟩

theorem ensureMissing_call (go : Library) (files : List Text) (hm : m.validate = .ok ()) (hl : l.next i = .main)
    {mainMissing mmprojMissing : Bool} (hmain : mainMissing = true → Missing modelsDir m w .main)
    (hproj : mmprojMissing = true → Missing modelsDir m w .projector) :
    Spec (both effect (logs i)) (fun s _ => Call modelsDir m w l s) (fun _ s => Call modelsDir m w l s)
      (ensureMissing go files modelsDir m mainMissing mmprojMissing) (w, l) := by
  have hstable := isStable_main modelsDir hm
  have hfirst : Spec (both effect (logs i))
      (fun s _ => Fetches modelsDir (m.stablePath modelsDir) .main mainMissing w l s)
      (fun _ s => Fetches modelsDir (m.stablePath modelsDir) .main mainMissing w l s)
      (ifMissing mainMissing (ensureMain go files m (m.stablePath modelsDir))) (w, l) :=
    ifMissing_part mainMissing (ensureMain_part go files hl)
  apply spec_bind
  refine spec_mono (fun s _ hs => call_of_main hmain hstable hs) ?_ hfirst
  rintro err ⟨w₁, l₁⟩ h₁
  cases err with
  | some err => exact call_of_main hmain hstable h₁
  | none =>
    have hsecond : Spec (both effect (logs i))
        (fun s _ => Fetches modelsDir (m.mmprojStablePath modelsDir) .projector mmprojMissing w₁ l₁ s)
        (fun _ s => Fetches modelsDir (m.mmprojStablePath modelsDir) .projector mmprojMissing w₁ l₁ s)
        (ifMissing mmprojMissing (ensureMMProj go files m (m.mmprojStablePath modelsDir))) (w₁, l₁) :=
      ifMissing_part mmprojMissing (ensureMMProj_part go files)
    apply spec_bind
    refine spec_mono ?_ ?_ hsecond
    · intro s _ h₂
      exact call_of_parts hmain hproj h₁ h₂ hstable
    · intro err s h₂
      have hcall : Call modelsDir m w l s := call_of_parts hmain hproj h₁ h₂ hstable
      cases err with
      | some err => exact hcall
      | none => exact hcall

theorem listFiles_log (go : Library) (repo : Text) :
    Spec (logs i) (fun l' _ => l' = l) (fun _ l' => l' = { l with next := Function.update l.next i .main })
      (listFiles go repo) l := listFiles_rule go repo rfl fun _ _ he _ => he

theorem missingMMProj_log :
    Spec (logs i) (fun l' _ => l' = l) (fun _ l' => l' = l) (missingMMProj modelsDir m) l := by
  unfold missingMMProj
  split
  · refine spec_op rfl ?_
    rintro present _ rfl
    rfl
  · rfl

/-- A call adds what `Call` says, and no more than that at any time. -/
theorem ensure_call (go : Library) (hm : m.validate = .ok ()) :
    Spec (both effect (logs i)) (fun s _ => Call modelsDir m w l s) (fun _ s => Call modelsDir m w l s)
      (ensure go modelsDir m) (w, l) := by
  refine spec_op (call_refl rfl) ?_
  rintro present ⟨w', l'⟩ ⟨⟨hw, hpresent⟩, hl⟩
  obtain rfl : w' = w := hw
  obtain rfl : l' = l := hl
  have hmain : (!present) = true → Missing modelsDir m w' .main := by
    refine fun hmissing => ⟨isStable_main modelsDir hm, fun hthere => ?_⟩
    simp [hpresent.mpr hthere] at hmissing
  apply spec_bind
  refine spec_mono ?_ ?_ (spec_both (missingMMProj_spec (G := fun w₁ _ => w₁ = w') m rfl) missingMMProj_log)
  · rintro ⟨w₁, l₁⟩ o ⟨hw, hl⟩
    obtain rfl : w₁ = w' := hw
    obtain rfl : l₁ = l' := hl
    exact call_refl rfl
  · rintro mmprojMissing ⟨w₁, l₁⟩ ⟨⟨hw, hproj⟩, hl⟩
    obtain rfl : w₁ = w' := hw
    obtain rfl : l₁ = l' := hl
    split
    · exact call_refl rfl
    · refine spec_op (call_refl rfl) ?_
      rintro err ⟨w₂, l₂⟩ ⟨hw, hl₂⟩
      have hmarks : l₂.marks = l₁.marks := by
        obtain rfl : l₂ = { l₁ with next := Function.update l₁.next i .projector } := hl₂
        rfl
      obtain rfl : w₂ = w₁ := hw
      cases err with
      | some err => exact call_refl hmarks
      | none =>
        apply spec_bind
        refine spec_mono ?_ ?_ (spec_both (listFiles_spec (G := fun w₃ _ => w₃ = w₂) go m.repo rfl)
          (listFiles_log go m.repo))
        · rintro ⟨w₃, l₃⟩ o ⟨hw, hl₃⟩
          obtain rfl : l₃ = l₂ := hl₃
          obtain rfl : w₃ = w₂ := hw
          exact call_refl hmarks
        · rintro files ⟨w₃, l₃⟩ ⟨hw, hl₃⟩
          obtain rfl : l₃ = { l₂ with next := Function.update l₂.next i .main } := hl₃
          obtain rfl : w₃ = w₂ := hw
          cases files with
          | error err => exact call_refl hmarks
          | ok files =>
            refine spec_mono ?_ ?_ (ensureMissing_call go files hm (Function.update_self ..) hmain
              (fun hmissing => ⟨isStable_mmproj modelsDir hm (hproj.mp hmissing).1, (hproj.mp hmissing).2⟩))
            · intro s _ hs
              exact hs.of_next hmarks
            · intro _ s hs
              exact hs.of_next hmarks

end DownloadMarks
