import LlamaStack.ModelLocks

/-!
# What a call opens

The temporary files that a call of `EnsureAvailable` opens are those of its own entry's
paths, whatever its operations return.
-/
namespace DownloadTargets

open Effects Interleaving GoBytes ModelCatalog HfDownloader

/-- A file is opened for one of these paths alone. -/
def Opens (paths : Text → Prop) (o : Op) : Prop := ∀ p, o = .openFile p → ∃ q, paths q ∧ p = q ++ tmpExt

variable {paths : Text → Prop} {q : Text} {α : Type}

/-- The program opens no other files. -/
def Keeping (paths : Text → Prop) (p : HfDownloader.Run α) : Prop :=
  Spec free (fun _ o => Opens paths o) (fun _ _ => True) p ()

theorem keeping_op {β : Type} {o : Op} {f : o.Res → HfDownloader.Run β} (ho : Opens paths o)
    (hf : ∀ r, Keeping paths (f r)) : Keeping paths (op o >>= f) := spec_op ho fun r _ _ => hf r

theorem keeping_bind {β : Type} {p : HfDownloader.Run α} {f : α → HfDownloader.Run β} (hp : Keeping paths p)
    (hf : ∀ a, Keeping paths (f a)) : Keeping paths (p >>= f) :=
  spec_bind (spec_mono (fun _ _ h => h) (fun a _ _ => hf a) hp)

/-! ## One download -/

theorem removeAndFail_opens (path : Text) (err : Error) : Keeping paths (removeAndFail path err) :=
  keeping_op (fun _ h => by cases h) fun _ => trivial

theorem publish_opens (tmp stable : Text) : Keeping paths (publish tmp stable) := by
  refine keeping_op (fun _ h => by cases h) fun info => ?_
  cases info with
  | error err => exact removeAndFail_opens tmp _
  | ok size =>
    simp only
    split
    · exact removeAndFail_opens tmp _
    · exact keeping_op (fun _ h => by cases h) fun _ => trivial

theorem copyBody_opens (file : Nat) (ending : GoStream.ReadEnd) (chunks : List Bytes) :
    Keeping paths (copyBody file ending chunks) := by
  induction chunks with
  | nil => cases ending <;> trivial
  | cons chunk chunks ih =>
    refine keeping_op (fun _ h => by cases h) fun err => ?_
    cases err with
    | some err => trivial
    | none => exact ih

theorem save_opens (hq : paths q) (body : Body) : Keeping paths (save body q) := by
  refine keeping_op (fun _ h => by cases h) fun _ => keeping_op (fun p h => ?_) fun out => ?_
  · cases h
    exact ⟨q, hq, rfl⟩
  · cases out with
    | error err => trivial
    | ok file =>
      refine keeping_bind (copyBody_opens file _ _) fun copyErr => keeping_op (fun _ h => by cases h) fun closeErr => ?_
      cases copyErr with
      | some err => exact removeAndFail_opens _ _
      | none =>
        cases closeErr with
        | some err => exact removeAndFail_opens _ _
        | none => exact publish_opens _ _

theorem download_opens (hq : paths q) (repo file : Text) : Keeping paths (download repo file q) :=
  download_rule repo file q (fun _ h => by cases h) (fun _ _ _ _ => trivial) fun _ body _ _ _ => save_opens hq body

/-! ## One call -/

variable (go : Library) {modelsDir : Text} {m : Model}

/-- A path that the entry needs. -/
def IsFile (modelsDir : Text) (m : Model) (q : Text) : Prop :=
  q = m.stablePath modelsDir ∨ m.mmproj ≠ [] ∧ q = m.mmprojStablePath modelsDir

instance (modelsDir : Text) (m : Model) (q : Text) : Decidable (IsFile modelsDir m q) :=
  inferInstanceAs (Decidable (_ ∨ _ ∧ _))

theorem ensureMain_opens (hq : paths q) (files : List Text) (m : Model) : Keeping paths (ensureMain go files m q) := by
  unfold ensureMain
  cases chooseFile go files m with
  | error err => trivial
  | ok chosen => exact download_opens hq m.repo chosen

theorem ensureMMProj_opens (hq : paths q) (files : List Text) (m : Model) :
    Keeping paths (ensureMMProj go files m q) := by
  unfold ensureMMProj
  cases chooseExactFile go files m.repo m.mmproj with
  | error err => trivial
  | ok chosen =>
    refine keeping_op (fun _ h => by cases h) fun err => ?_
    cases err with
    | some err => trivial
    | none => exact download_opens hq m.repo chosen

theorem ifMissing_opens {missing : Bool} {fetch : HfDownloader.Run (Option Error)}
    (h : missing = true → Keeping paths fetch) : Keeping paths (ifMissing missing fetch) := by
  cases missing with
  | false => trivial
  | true => exact h rfl

theorem ensureMissing_opens (files : List Text) {mainMissing mmprojMissing : Bool}
    (hproj : mmprojMissing = true → m.mmproj ≠ []) :
    Keeping (IsFile modelsDir m) (ensureMissing go files modelsDir m mainMissing mmprojMissing) := by
  refine keeping_bind (ifMissing_opens fun _ => ensureMain_opens go (.inl rfl) files m) fun err => ?_
  cases err with
  | some err => trivial
  | none =>
    refine keeping_bind (ifMissing_opens fun h => ensureMMProj_opens go (.inr ⟨hproj h, rfl⟩) files m) fun err => ?_
    cases err with
    | some err => trivial
    | none => trivial

theorem listFiles_opens (repo : Text) : Keeping paths (listFiles go repo) :=
  listFiles_rule go repo (fun _ h => by cases h) fun _ _ _ _ => trivial

theorem missingMMProj_opens : Spec free (fun _ o => Opens paths o) (fun missing _ => missing = true → m.mmproj ≠ [])
    (missingMMProj modelsDir m) () := by
  unfold missingMMProj
  split
  · rename_i hj
    exact spec_op (fun _ h => by cases h) fun _ _ _ _ => hj
  · exact fun h => by cases h

theorem ensure_opens : Keeping (IsFile modelsDir m) (ensure go modelsDir m) := by
  refine keeping_op (fun _ h => by cases h) fun present => ?_
  apply spec_bind
  refine spec_mono (fun _ _ h => h) (fun mmprojMissing _ hproj => ?_) missingMMProj_opens
  split
  · trivial
  · refine keeping_op (fun _ h => by cases h) fun err => ?_
    cases err with
    | some err => trivial
    | none =>
      refine keeping_bind (listFiles_opens go m.repo) fun files => ?_
      cases files with
      | error err => trivial
      | ok files => exact ensureMissing_opens go files hproj

/-! ## Calls in a run -/

open EnsureAvailable RouterManager ModelLocks

variable {go} {ι : Type} [DecidableEq ι] {cat : Catalog} {cfg : Config} {ref requiredKind : ι → Text} {w₀ : World}
  {H : History ι EnsureAvailable.Op EnsureAvailable.Op.Res}
  {Q : Pool ι EnsureAvailable.Op EnsureAvailable.Op.Res (Option EnsureAvailable.Error) (Shared ι)}

theorem downloading_opens {p : HfDownloader.Run α} (h : Keeping paths p) :
    Spec free (fun _ o => ∀ o', o = .download o' → Opens paths o') (fun _ _ => True) (downloading p) () := by
  induction p with
  | done a => trivial
  | perform o next ih =>
    refine ⟨fun o' ho => ?_, fun r _ _ => ih r (h.2 r () trivial)⟩
    cases ho
    exact h.1

/-- The downloads of the call open files for its entry alone. -/
def OpensOwn (cat : Catalog) (modelsDir ref requiredKind : Text) (o : EnsureAvailable.Op) : Prop :=
  ∀ o', o = .download o' → ∃ m, resolve cat ref requiredKind = .ok m ∧ Opens (IsFile modelsDir m) o'

theorem ensureAvailable_opens (go : Library) (ref requiredKind : Text) :
    Spec free (fun _ o => OpensOwn cat cfg.modelsDir ref requiredKind o) (fun _ _ => True)
      (ensureAvailable go cat cfg ref requiredKind) () := by
  unfold ensureAvailable
  cases hr : resolve cat ref requiredKind with
  | error err => trivial
  | ok m =>
    refine spec_op (fun _ h => by cases h) fun mutex _ _ => spec_op (fun _ h => by cases h) fun _ _ _ => ?_
    have hlocked : Spec free (fun _ o => OpensOwn cat cfg.modelsDir ref requiredKind o) (fun _ _ => True)
        (ensureLocked go cfg m) () := by
      rw [ensureLocked_eq]
      apply spec_bind
      refine spec_mono (fun _ _ h o' ho => ⟨m, hr, h o' ho⟩) (fun downloaded _ _ => ?_)
        (downloading_opens (ensure_opens go))
      refine spec_mono ?_ (fun _ _ h => h) (checking_quiet downloaded)
      rintro _ o (rfl | rfl) o' h
      · cases h
      · cases h
    refine spec_bind (spec_mono (fun _ _ h => h) (fun err _ _ => ?_) hlocked)
    exact spec_op (fun _ h => by cases h) fun _ _ _ => trivial

/-- A call of a run opens the temporary file of one of its entry's paths. -/
theorem opened_of_runs (hruns : Runs ModelLocks.effect Cancel (started go cat cfg ref requiredKind w₀) H Q) {i : ι}
    {p : Text} {r : Except Bytes Nat} (hmem : (i, ⟨.download (.openFile p), r⟩) ∈ H) :
    ∃ m q, resolve cat (ref i) (requiredKind i) = .ok m ∧ IsFile cfg.modelsDir m q ∧ p = q ++ tmpExt := by
  have hall := (spec_run (ensureAvailable_opens go (ref i) (requiredKind i)) (run_own hruns i)).2
  obtain ⟨_, hopens⟩ := hall _ (mem_own.mpr hmem)
  obtain ⟨m, hr, hm⟩ := hopens _ rfl
  obtain ⟨q, hq, hp⟩ := hm p rfl
  exact ⟨m, q, hr, hq, hp⟩

end DownloadTargets
