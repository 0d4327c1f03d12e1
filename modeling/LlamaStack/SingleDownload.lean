import LlamaStack.SerialDownloads

/-!
# One download at a time

Calls of `EnsureAvailable` for one entry of the catalog, at the same time. Their
downloads come one after the other, whatever contexts are cancelled meanwhile, and
what was downloaded is not requested again.
-/
namespace SingleDownload

open Effects Interleaving GoBytes ModelCatalog RouterManager EnsureAvailable ModelLocks DownloaderAtomicity
  DownloadMarks SerialDownloads

/-! ## Runs -/

variable {ι : Type} [DecidableEq ι] {go : HfDownloader.Library} {cat : Catalog} {cfg : Config} {cm : Model}
  {ref requiredKind : ι → Text} {w₀ : HfDownloader.World} {H : History ι Op Op.Res}
  {Q : Pool ι Op Op.Res (Option Error) (Shared ι)} {i j : ι}

section Runs

variable (hcat : ∀ i, cat.byRef (ref i) = some cm)
  (hruns : Runs effect Cancel (started go cat cfg ref requiredKind w₀) H Q)
include hcat hruns

/-- A call has come to its stage with the entry, or has failed at once. -/
theorem stage_of_entry (i : ι) :
    Stage go cfg cm (own i H) (Q.prog i) ∨ own i H = [] ∧ ∃ err, Q.prog i = .done (some err) := by
  have hsame : ∀ cm', resolve cat (ref i) (requiredKind i) = .ok cm' → cm' = cm := by
    intro cm' hr
    rw [resolve, hcat i] at hr
    simp only at hr
    split at hr
    · cases hr
    · exact (Except.ok.inj hr).symm
  cases stage_of_runs hruns i with
  | inl hstage =>
    obtain ⟨cm', hr, hstage⟩ := hstage
    rw [hsame cm' hr] at hstage
    exact .inl hstage
  | inr hfailed =>
    obtain ⟨err, -, hnil, hdone⟩ := hfailed
    exact .inr ⟨hnil, err, hdone⟩

theorem next_of_entry {o : Op} {next : o.Res → EnsureAvailable.Run (Option Error)} (hi : Q.prog i = .perform o next) :
    Next go cfg cm (own i H) o := by
  cases stage_of_entry hcat hruns i with
  | inl hstage =>
    rw [hi] at hstage
    exact next_of_stage hstage
  | inr hfailed =>
    obtain ⟨-, err, hdone⟩ := hfailed
    rw [hi] at hdone
    cases hdone

/-- Outside the lock a call has not begun to download, or it has come to the end. -/
theorem settled_of_outside (hout : ¬ Inside (own i H) cm.ref) :
    own i (downloads H) = [] ∨
      ∃ r, Effects.Run free (HfDownloader.ensure go cfg.modelsDir cm) () (own i (downloads H)) (.done r) () := by
  rw [own_downloads]
  cases stage_of_entry hcat hruns i with
  | inr hfailed =>
    rw [hfailed.1]
    exact .inl rfl
  | inl hstage =>
    generalize own i H = t at hstage hout
    generalize Q.prog i = q at hstage
    cases hstage with
    | start => exact .inl rfl
    | waiting m => exact .inl rfl
    | inside m hrun => exact absurd (inside_of_run m hrun) hout
    | @returned m t err hrun =>
      obtain ⟨r, t', hdone, -, -⟩ := download_of_done hrun
      refine .inr ⟨r, ?_⟩
      rw [ofEvent_enter, ofEvent_leave]
      exact hdone

/-- The downloads of a run come one after the other. -/
theorem ordered_of_runs : Ordered go cfg.modelsDir cm w₀ (downloads H) Q.state.world := by
  induction hruns with
  | refl => exact .idle .nil
  | @snoc Q R H u hruns hs ih =>
    cases hs with
    | env hc =>
      obtain ⟨i, err, -, rfl⟩ := hc
      rw [List.append_nil]
      exact ih
    | @op j o next r s hp he =>
      cases ho : ofEvent ⟨o, r⟩ with
      | none =>
        have hquiet : downloads (H ++ [(j, ⟨o, r⟩)]) = downloads H := by
          rw [downloads_append]
          simp [downloads, ho]
        rw [hquiet]
        change Ordered go cfg.modelsDir cm w₀ (downloads H) s.world
        have hworld : ∀ o', o ≠ .download o' := by
          rintro o' rfl
          cases ho
        rw [world_of_effect he hworld]
        exact ih
      | some e =>
        cases o with
        | download o =>
          obtain rfl : ⟨o, r⟩ = e := Option.some.inj ho
          obtain ⟨w, hw, rfl⟩ := he
          have hnext := next_of_entry hcat hruns hp
          generalize hown : own j H = t at hnext
          cases hnext with
          | @inner m t' _ next' hrun _ =>
            have hinside : Inside (own j H) cm.ref := hown ▸ inside_of_run m hrun
            obtain ⟨next'', hdown⟩ := download_of_perform hrun
            have hj : own j (downloads H) = t'.filterMap ofEvent := by
              rw [own_downloads, hown, ofEvent_enter]
            rw [← hj] at hdown
            have hall := ih.snoc (r := r) hdown ?_ hw
            · rw [downloads_append]
              exact hall
            · intro i hij
              refine settled_of_outside hcat hruns fun hi => hij ?_
              exact inside_unique hruns hi hinside
        | lockFor ref => cases ho
        | lock m => cases ho
        | unlock m => cases ho
        | ctxErr => cases ho
        | models => cases ho

end Runs

/-! ## What a call can do alone -/

omit [DecidableEq ι] in
theorem run_downloaded {α : Type} {p p' : HfDownloader.Run α} {w w' : HfDownloader.World}
    {td : List (Event HfDownloader.Op HfDownloader.Op.Res)} (h : Effects.Run HfDownloader.effect p w td p' w')
    {s : Shared ι} (hs : s.world = w) :
    Effects.Run (effect i) (downloading p) s (td.map asEvent) (downloading p') { s with world := w' } := by
  induction h generalizing s with
  | refl p w =>
    subst hs
    exact .refl _ _
  | @step o next r w w₁ w' td p' he _ ih =>
    subst hs
    have hrest := ih (s := { s with world := w₁ }) rfl
    exact .step ⟨w₁, he, rfl⟩ hrest

omit [DecidableEq ι] in
theorem checking_ends (cm : Model) (downloaded : Except HfDownloader.Error Text) (s : Shared ι) :
    ∃ t err, Effects.Run (effect i) (checking cm downloaded) s t (.done err) s ∧ t.filterMap ofEvent = [] := by
  cases downloaded with
  | error err => exact ⟨[], _, .refl _ _, rfl⟩
  | ok _ =>
    cases hc : s.cancelled i with
    | some err =>
      have hctx : effect i s .ctxErr (some err) s := ⟨rfl, hc.symm⟩
      exact ⟨_, _, .step hctx (.refl _ _), rfl⟩
    | none =>
      have hctx : effect i s .ctxErr none s := ⟨rfl, hc.symm⟩
      have hmodels : effect i s .models (.error []) s := rfl
      exact ⟨_, _, .step hctx (.step hmodels (.refl _ _)), rfl⟩

omit [DecidableEq ι] in
theorem lockFor_ends (ref : Text) (s : Shared ι) :
    ∃ m s', effect i s (.lockFor ref) m s' ∧ s'.locked = s.locked ∧ s'.world = s.world := by
  cases hold : s.modelLocks ref with
  | some l => exact ⟨l, s, by simp [effect, hold], rfl, rfl⟩
  | none =>
    exact ⟨s.made, { s with modelLocks := Function.update s.modelLocks ref (some s.made), made := s.made + 1 },
      by simp [effect, hold], rfl, rfl⟩

omit [DecidableEq ι] in
/-- A call that holds the lock can come to every end that its download has, and return. -/
theorem run_underLock (cm : Model) (m : Nat) {p : HfDownloader.Run (Except HfDownloader.Error Text)}
    {r : Except HfDownloader.Error Text} {w' : HfDownloader.World}
    {td : List (Event HfDownloader.Op HfDownloader.Op.Res)} {s : Shared ι}
    (h : Effects.Run HfDownloader.effect p s.world td (.done r) w') :
    ∃ t err s', Effects.Run (effect i) (underLock m (downloading p >>= checking cm)) s t (.done err) s' ∧
      t.filterMap ofEvent = td ∧ s'.world = w' := by
  obtain ⟨t, err, hcheck, hquiet⟩ := checking_ends cm (i := i) r { s with world := w' }
  have hunlock : effect i { s with world := w' } (.unlock m) ()
      { s with world := w', locked := Function.update s.locked m false } := rfl
  refine ⟨(td.map asEvent ++ t) ++ [⟨.unlock m, ()⟩], err, _,
    ((run_downloaded h rfl).bind hcheck).bind (.step hunlock (.refl _ _)), ?_, rfl⟩
  rw [ofEvent_leave, List.filterMap_append, ofEvent_asEvent, hquiet, List.append_nil]

/-- From here the call alone can come to every end that its download has, and return. -/
def Unhindered (i : ι) (p : HfDownloader.Run (Except HfDownloader.Error Text))
    (P : Pool ι Op Op.Res (Option Error) (Shared ι)) : Prop :=
  ∀ td r w', Effects.Run HfDownloader.effect p P.state.world td (.done r) w' →
    ∃ u R err, Runs effect Cancel P u R ∧ (∀ x ∈ u, x.1 = i) ∧ (downloads u = td.map fun e => (i, e)) ∧
      R.state.world = w' ∧ R.prog i = .done err

theorem unhindered_of_run {P : Pool ι Op Op.Res (Option Error) (Shared ι)}
    {p : HfDownloader.Run (Except HfDownloader.Error Text)}
    (h : ∀ td r w', Effects.Run HfDownloader.effect p P.state.world td (.done r) w' →
      ∃ t err s', Effects.Run (effect i) (P.prog i) P.state t (.done err) s' ∧ t.filterMap ofEvent = td ∧
        s'.world = w') :
    Unhindered i p P := by
  intro td r w' hp
  obtain ⟨t, err, s', hrun, hdown, hworld⟩ := h td r w' hp
  refine ⟨_, _, err, runs_alone hrun rfl rfl, ?_, ?_, hworld, Function.update_self ..⟩
  · intro x hx
    obtain ⟨e, -, rfl⟩ := List.mem_map.mp hx
    rfl
  · rw [downloads_alone, hdown]

theorem unhindered_underLock {P : Pool ι Op Op.Res (Option Error) (Shared ι)} {m : Nat}
    {p : HfDownloader.Run (Except HfDownloader.Error Text)}
    (h : P.prog i = underLock m (downloading p >>= checking cm)) :
    Unhindered i p P := by
  refine unhindered_of_run fun td r w' hp => ?_
  rw [h]
  exact run_underLock cm m hp

/-! ## Calls for one entry -/

section Entry

variable (hcat : ∀ i, cat.byRef (ref i) = some cm)
  (hruns : Runs effect Cancel (started go cat cfg ref requiredKind w₀) H Q)
include hcat hruns

theorem not_holds_of_done {err : Option Error} (hi : Q.prog i = .done err) (m : Nat) : ¬ Holds (own i H) m := by
  rintro ⟨⟨e, he, hm⟩, hno⟩
  cases stage_of_entry hcat hruns i with
  | inr hfailed =>
    rw [hfailed.1] at he
    cases he
  | inl hstage =>
    rw [hi] at hstage
    generalize hq : Prog.done err = q at hstage
    generalize own i H = t at hstage he hno
    cases hstage with
    | start => cases he
    | waiting m' => cases hq
    | inside m' hrun =>
      rename_i t q
      cases q with
      | done err' => cases hq
      | perform o next => cases hq
    | returned m' hrun =>
      have hm' : m' = m := by
        simp only [List.mem_cons, List.mem_append, List.not_mem_nil, or_false] at he
        rcases he with rfl | rfl | he | rfl
        · cases hm
        · exact Op.lock.inj hm
        · exact absurd hm (inner_ne ((inner_of_run hrun).1 e he) m).1
        · cases hm
      subst hm'
      exact hno ⟨.unlock m', ()⟩ (by simp) rfl

/-- While no call holds a lock, every call that has not returned can do its whole download. -/
theorem unhindered_of_free (hfree : ∀ i m, ¬ Holds (own i H) m) (hj : ∀ err, Q.prog j ≠ .done err) :
    Unhindered j (HfDownloader.ensure go cfg.modelsDir cm) Q := by
  have hunlocked : ∀ m, Q.state.locked m = false := by
    intro m
    rw [← Bool.not_eq_true, (locked_of_runs hruns).held]
    rintro ⟨i, hi⟩
    exact hfree i m hi
  refine unhindered_of_run fun td r w' hp => ?_
  cases stage_of_entry hcat hruns j with
  | inr hfailed =>
    obtain ⟨-, err, hdone⟩ := hfailed
    exact absurd hdone (hj _)
  | inl hstage =>
    have hown : ∀ m, ¬ Holds (own j H) m := hfree j
    generalize own j H = t at hstage hown
    generalize Q.prog j = q at hstage hj
    have hwait : ∀ (s : Shared ι) m, s.locked m = false → s.world = Q.state.world →
        ∃ t err s', Effects.Run (effect j) (.perform (.lock m) fun _ => underLock m (ensureLocked go cfg cm)) s t
          (.done err) s' ∧ t.filterMap ofEvent = td ∧ s'.world = w' := by
      intro s m hm hs
      have hp' : Effects.Run HfDownloader.effect (HfDownloader.ensure go cfg.modelsDir cm)
          (Shared.world { s with locked := Function.update s.locked m true }) td (.done r) w' := hs ▸ hp
      obtain ⟨t, err, s', hrun, hdown, hworld⟩ := run_underLock (i := j) cm m hp'
      have hlock : effect j s (.lock m) () { s with locked := Function.update s.locked m true } := ⟨hm, rfl⟩
      exact ⟨_, err, s', .step hlock hrun, hdown, hworld⟩
    cases hstage with
    | start =>
      obtain ⟨m, s, hlockFor, hlocked, hs⟩ := lockFor_ends (i := j) cm.ref Q.state
      obtain ⟨t, err, s', hrun, hdown, hworld⟩ := hwait s m (hlocked ▸ hunlocked m) hs
      exact ⟨_, err, s', .step hlockFor hrun, hdown, hworld⟩
    | waiting m => exact hwait Q.state m (hunlocked m) rfl
    | inside m hrun => exact absurd (holds_of_run m hrun) (hown m)
    | returned m hrun => exact absurd rfl (hj _)

/-- The call has gone on from its download. -/
def Left (t : List (Event Op Op.Res)) : Prop := ∃ e ∈ t, e.op = .ctxErr ∨ ∃ m, e.op = .unlock m

/-- How a call stands with its download. -/
theorem uncut_of_runs (i : ι) :
    ∃ w p w', Effects.Run HfDownloader.effect (HfDownloader.ensure go cfg.modelsDir cm) w (own i (downloads H)) p w' ∧
      (Left (own i H) → ∃ r, p = .done r) ∧
      (∀ m, Holds (own i H) m → ¬ Left (own i H) → ∃ m, Q.prog i = underLock m (downloading p >>= checking cm)) := by
  obtain ⟨w, p, w', hp⟩ := (ordered_of_runs hcat hruns).run i
  refine ⟨w, p, w', hp, ?_⟩
  rw [own_downloads] at hp
  cases stage_of_entry hcat hruns i with
  | inr hfailed =>
    rw [hfailed.1]
    constructor
    · rintro ⟨e, he, -⟩
      cases he
    · rintro m ⟨⟨e, he, -⟩, -⟩
      cases he
  | inl hstage =>
    generalize own i H = t at hstage hp
    generalize Q.prog i = q at hstage
    cases hstage with
    | start =>
      constructor
      · rintro ⟨e, he, -⟩
        cases he
      · rintro m ⟨⟨e, he, -⟩, -⟩
        cases he
    | waiting m =>
      constructor
      · rintro ⟨e, he, hop⟩
        obtain rfl := List.mem_singleton.mp he
        simp at hop
      · rintro m' ⟨⟨e, he, hop⟩, -⟩
        obtain rfl := List.mem_singleton.mp he
        cases hop
    | @inside m t q hrun =>
      rw [ofEvent_enter] at hp
      obtain ⟨td, p', htd, hp', hcase⟩ := download_of_run hrun
      rw [htd] at hp
      obtain rfl : p = p' := run_residual hp hp'
      cases hcase with
      | inl hcase =>
        obtain ⟨rfl, hq⟩ := hcase
        refine ⟨?_, fun _ _ _ => ⟨m, by rw [hq]⟩⟩
        rintro ⟨e, he, hop⟩
        simp only [List.mem_cons, List.mem_map] at he
        rcases he with rfl | rfl | ⟨e, -, rfl⟩
        · simp at hop
        · simp at hop
        · simp [asEvent] at hop
      | inr hcase =>
        obtain ⟨r, t', rfl, rfl, hrest⟩ := hcase
        refine ⟨fun _ => ⟨r, rfl⟩, fun _ _ hleft => ?_⟩
        cases r with
        | error err =>
          obtain ⟨-, rfl, -⟩ := run_done hrest
          exact ⟨m, rfl⟩
        | ok found =>
          cases hrest with
          | refl => exact ⟨m, rfl⟩
          | @step _ _ res _ _ _ t' _ _ _ =>
            have hmem : ⟨.ctxErr, res⟩ ∈ td.map asEvent ++ ⟨.ctxErr, res⟩ :: t' :=
              List.mem_append_right _ List.mem_cons_self
            exact absurd ⟨_, List.mem_cons_of_mem _ (List.mem_cons_of_mem _ hmem), .inl rfl⟩ hleft
    | @returned m t err hrun =>
      rw [ofEvent_enter, ofEvent_leave] at hp
      obtain ⟨r, t', hdone, -, -⟩ := download_of_done hrun
      refine ⟨fun _ => ⟨r, run_residual hp hdone⟩, fun _ _ hleft => absurd ?_ hleft⟩
      exact ⟨⟨.unlock m, ()⟩, by simp, .inr ⟨m, rfl⟩⟩

/-- What a call without an error has found. -/
theorem events_of_none (hi : Q.prog i = .done none) :
    ∃ m td found resp, own i H = ⟨.lockFor cm.ref, m⟩ :: ⟨.lock m, ()⟩ :: (td.map asEvent ++
        [⟨.ctxErr, none⟩, ⟨.models, .ok resp⟩, ⟨.unlock m, ()⟩]) ∧ modelsResponseHas resp cm.ref = true ∧
      Effects.Run free (HfDownloader.ensure go cfg.modelsDir cm) () td (.done (.ok found)) () := by
  cases stage_of_entry hcat hruns i with
  | inr hfailed =>
    obtain ⟨-, err, hdone⟩ := hfailed
    rw [hi] at hdone
    cases hdone
  | inl hstage =>
    rw [hi] at hstage
    generalize hq : Prog.done none = q at hstage
    generalize own i H = t at hstage
    cases hstage with
    | start => cases hq
    | waiting m => cases hq
    | @inside m t q hrun =>
      cases q with
      | done err => cases hq
      | perform o next => cases hq
    | @returned m t err hrun =>
      cases hq
      obtain ⟨r, t', hdone, ht, hrest⟩ := download_of_done hrun
      obtain ⟨found, resp, rfl, rfl, hhas⟩ := checks_of_none hrest
      generalize t.filterMap ofEvent = td at hdone ht
      subst ht
      refine ⟨m, td, found, resp, ?_, hhas, hdone⟩
      rw [List.append_assoc]
      rfl

end Entry

/-! ## The guarantee -/

/-- Behind its download the call found its context alive and its files there, and then
its ref in the router's answer. -/
def Checked (cfg : Config) (cm : Model) (P : Pool ι Op Op.Res (Option Error) (Shared ι))
    (H : History ι Op Op.Res) (i : ι) : Prop :=
  ∃ H₁ H₂ R, H = H₁ ++ (i, ⟨.ctxErr, none⟩) :: H₂ ∧ Runs effect Cancel P H₁ R ∧ R.state.cancelled i = none ∧
    Required cfg.modelsDir cm R.state.world.files ∧ own i (downloads H₂) = [] ∧
    ∃ resp, ⟨.models, .ok resp⟩ ∈ own i H₂ ∧ modelsResponseHas resp cm.ref = true

/-- What holds in a run of calls for one entry. The downloads of two calls do not
overlap, and what was downloaded is not requested again. A call ends its download as
if it were alone, whatever contexts are cancelled. A call that has returned holds no
lock, and while no call does, each of the others can do its own download. A call
without an error has checked what it says. -/
structure Single (go : HfDownloader.Library) (cfg : Config) (cm : Model)
    (P : Pool ι Op Op.Res (Option Error) (Shared ι)) (H : History ι Op Op.Res)
    (Q : Pool ι Op Op.Res (Option Error) (Shared ι)) : Prop where
  apart : Apart (downloads H)
  once : (logOf (downloads H)).marks.Pairwise After
  uncut : ∀ i, ∃ w p w',
    Effects.Run HfDownloader.effect (HfDownloader.ensure go cfg.modelsDir cm) w (own i (downloads H)) p w' ∧
      (Left (own i H) → ∃ r, p = .done r) ∧
      ∀ m, Holds (own i H) m → ¬ Left (own i H) →
        ∀ cancelled, Unhindered i p ⟨Q.prog, { Q.state with cancelled := cancelled }⟩
  released : ∀ i err m, Q.prog i = .done err → ¬ Holds (own i H) m
  retry : (∀ i m, ¬ Holds (own i H) m) → ∀ i, (∀ err, Q.prog i ≠ .done err) →
    Unhindered i (HfDownloader.ensure go cfg.modelsDir cm) Q
  checked : ∀ i, Q.prog i = .done none → Checked cfg cm P H i

theorem checked_of_runs (hm : cm.validate = .ok ()) (hcat : ∀ i, cat.byRef (ref i) = some cm)
    (hruns : Runs effect Cancel (started go cat cfg ref requiredKind w₀) H Q) (hi : Q.prog i = .done none) :
    Checked cfg cm (started go cat cfg ref requiredKind w₀) H i := by
  obtain ⟨m, td, found, resp, hown, hhas, hdone⟩ := events_of_none hcat hruns hi
  have hmem : (i, ⟨.ctxErr, none⟩) ∈ H := by
    rw [← mem_own, hown]
    simp
  obtain ⟨H₁, H₂, rfl⟩ := List.append_of_mem hmem
  obtain ⟨R, R', hbefore, hs, -⟩ := runs_event hruns rfl
  have hsplit : own i H₁ = ⟨.lockFor cm.ref, m⟩ :: ⟨.lock m, ()⟩ :: td.map asEvent ∧
      own i H₂ = [⟨.models, .ok resp⟩, ⟨.unlock m, ()⟩] := by
    have hcons : own i (H₁ ++ (i, ⟨.ctxErr, none⟩) :: H₂) = own i H₁ ++ ⟨.ctxErr, none⟩ :: own i H₂ := by
      rw [List.append_cons, own_append, own_append, own_self, List.append_assoc, List.singleton_append]
    rw [hcons, ← List.cons_append, ← List.cons_append] at hown
    have hparts := (List.append_cons_inj_of_notMem ?_ ?_).mp hown.symm
    · exact ⟨hparts.1.symm, hparts.2.2.symm⟩
    · simp [asEvent]
    · simp
  refine ⟨H₁, H₂, R, rfl, hbefore, ?_, ?_, ?_, resp, ?_, hhas⟩
  · cases hs with
    | op hp he => exact he.2.symm
  · rw [← ofEvent_asEvent td, ← ofEvent_enter cm.ref m, ← hsplit.1, ← own_downloads] at hdone
    exact (ordered_of_runs hcat hbefore).required hm hdone
  · rw [own_downloads, hsplit.2]
    rfl
  · rw [hsplit.2]
    exact List.mem_cons_self

/-- Calls for one entry of a catalog, at the same time and with any contexts, download one
after the other and each file once. -/
theorem ensureAvailable_single (hcm : cm ∈ cat.models) (hcat : ∀ i, cat.byRef (ref i) = some cm)
    (hruns : Runs effect Cancel (started go cat cfg ref requiredKind w₀) H Q) :
    Single go cfg cm (started go cat cfg ref requiredKind w₀) H Q := by
  have hm : cm.validate = .ok () := cat.valid cm hcm
  have hordered := ordered_of_runs hcat hruns
  refine ⟨hordered.apart, (hordered.sound hm).once, fun i => ?_, fun i err m hi => not_holds_of_done hcat hruns hi m,
    fun hfree i hi => unhindered_of_free hcat hruns hfree hi, fun i hi => checked_of_runs hm hcat hruns hi⟩
  obtain ⟨w, p, w', hp, hleft, hgoes⟩ := uncut_of_runs hcat hruns i
  refine ⟨w, p, w', hp, hleft, fun m hholds hno cancelled => ?_⟩
  obtain ⟨m', hprog⟩ := hgoes m hholds hno
  exact unhindered_underLock hprog

/-! ## Two calls -/

theorem oneEntry_valid : ∀ m ∈ [sampleEntry], m.validate = .ok () := by decide

def oneEntry : Catalog := ⟨[sampleEntry], oneEntry_valid⟩

def smallConfig : Config := ⟨CatalogPaths.modelsRoot, [], 4096, 1, 1, 0, []⟩

/-- Two calls for one entry, and no files. -/
def twoCalls : Pool Bool Op Op.Res (Option Error) (Shared Bool) :=
  started sampleLibrary oneEntry smallConfig (fun _ => sampleEntry.ref) (fun _ => []) ⟨noFiles, []⟩

theorem run_failedListing : Effects.Run HfDownloader.effect
    (HfDownloader.ensure sampleLibrary smallConfig.modelsDir sampleEntry) ⟨noFiles, []⟩
    [⟨.fileExists (sampleEntry.stablePath smallConfig.modelsDir), false⟩,
      ⟨.mkdirAll (GoFilepath.dir (sampleEntry.stablePath smallConfig.modelsDir)), none⟩,
      ⟨.list sampleEntry.repo, .failed []⟩]
    (.done (.error (.hferr HfDownloader.codeListFailed (ascii "huggingface list files request failed") (some []))))
    ⟨noFiles, []⟩ := by
  have hmissing : HfDownloader.effect ⟨noFiles, []⟩ (.fileExists (sampleEntry.stablePath smallConfig.modelsDir)) false
      ⟨noFiles, []⟩ := ⟨rfl, by simp [HfDownloader.Present, noFiles, PosixFiles.Files.read]⟩
  exact .step hmissing (.step rfl (.step rfl (.refl _ _)))

/-- One call has asked for the lock; the context of the other is cancelled, and it fails
with the listing. -/
theorem ensureAvailable_single_twoCalls : ∃ H Q err, Runs effect Cancel twoCalls H Q ∧ Q.prog false = .done err ∧
    Single sampleLibrary smallConfig sampleEntry twoCalls H Q := by
  have hcat : ∀ _ : Bool, oneEntry.byRef sampleEntry.ref = some sampleEntry := fun _ => by decide
  have hlockFor : effect true twoCalls.state (.lockFor sampleEntry.ref) (0 : Nat)
      { twoCalls.state with
        modelLocks := Function.update twoCalls.state.modelLocks sampleEntry.ref (some 0), made := 1 } := ⟨rfl, rfl⟩
  have hwaits := Runs.snoc (Runs.refl twoCalls) (Step.op (N := Cancel) rfl hlockFor)
  have hcancelled := Runs.snoc hwaits (.env ⟨false, ascii "context canceled", rfl, rfl⟩)
  have hfree : ∀ i m,
      ¬ Holds (own i ([] ++ [(true, (⟨.lockFor sampleEntry.ref, (0 : Nat)⟩ : Event Op Op.Res))] ++ [])) m := by
    intro i m
    cases i <;> simp [own, Holds]
  have hstarts : ∀ err, (Function.update twoCalls.prog true
      (.perform (.lock 0) fun _ => underLock 0 (ensureLocked sampleLibrary smallConfig sampleEntry))) false ≠
      .done err := by
    intro err h
    cases h
  obtain ⟨u, R, err, hrest, -, -, -, hdone⟩ := unhindered_of_free (j := false) hcat hcancelled hfree hstarts
    _ _ _ run_failedListing
  have hruns := hcancelled.trans hrest
  exact ⟨_, R, err, hruns, hdone, ensureAvailable_single (by decide) hcat hruns⟩

end SingleDownload
