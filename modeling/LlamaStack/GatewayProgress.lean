import LlamaStack.InferenceRuns
import LlamaStack.Scheduling

/-!
# Every request is handled

A request that cannot go on waits for the lock of its ref, which another request for the
same ref holds, and that one can go on. So no schedule of requests gets stuck, and of
finitely many requests every schedule handles all.
-/
namespace GatewayProgress

open Effects Interleaving Scheduling Phases GoBytes ModelCatalog RouterManager Handlers InferenceRuns
open ModelLocks hiding effect

/-! ## Operations that do not wait -/

theorem download_goes (w : HfDownloader.World) (o : HfDownloader.Op) : ∃ r w', HfDownloader.effect w o r w' := by
  classical
  cases o with
  | fileExists p => exact ⟨decide (HfDownloader.Present w.files p), w, rfl, by simp⟩
  | mkdirAll dir => exact ⟨none, w, rfl⟩
  | list repo => exact ⟨.failed [], w, rfl⟩
  | get repo file => exact ⟨.failed [], w, rfl⟩
  | remove p => exact ⟨(), w, .inl rfl⟩
  | openFile p => exact ⟨.error [], w, rfl⟩
  | write file chunk => exact ⟨none, _, rfl⟩
  | close file => exact ⟨none, w, rfl⟩
  | stat p => exact ⟨.error [], w, rfl, trivial⟩
  | rename p q => exact ⟨some [], w, rfl⟩

variable {ι : Type} [DecidableEq ι] {i j : ι}

omit [DecidableEq ι] in
theorem lockFor_new {s : Shared ι} {ref : Text} (h : s.modelLocks ref = none) :
    ModelLocks.effect i s (.lockFor ref) s.made
      { s with modelLocks := Function.update s.modelLocks ref (some s.made), made := s.made + 1 } := by
  unfold ModelLocks.effect
  simp [h]

omit [DecidableEq ι] in
theorem lockFor_known {s : Shared ι} {ref : Text} {m : Nat} (h : s.modelLocks ref = some m) :
    ModelLocks.effect i s (.lockFor ref) m s := by
  unfold ModelLocks.effect
  simp [h]

omit [DecidableEq ι] in
/-- An operation can be performed, or it is for a lock that is taken. -/
theorem goes_or_waits (i : ι) (s : Shared ι) (o : EnsureAvailable.Op) :
    (∃ r s', ModelLocks.effect i s o r s') ∨ ∃ m, o = .lock m ∧ s.locked m = true := by
  cases o with
  | download o =>
    obtain ⟨r, w, he⟩ := download_goes s.world o
    exact .inl ⟨r, _, w, he, rfl⟩
  | lockFor ref =>
    cases hold : s.modelLocks ref with
    | none => exact .inl ⟨s.made, _, lockFor_new hold⟩
    | some m => exact .inl ⟨m, s, lockFor_known hold⟩
  | lock m =>
    cases hm : s.locked m with
    | false => exact .inl ⟨(), _, hm, rfl⟩
    | true => exact .inr ⟨m, rfl, hm⟩
  | unlock m => exact .inl ⟨(), _, rfl⟩
  | ctxErr => exact .inl ⟨s.cancelled i, s, rfl, rfl⟩
  | models => exact .inl ⟨.error [], s, rfl⟩

/-! ## One lock for each ref -/

/-- Locks that were made are of different refs. -/
structure Distinct (s : Shared ι) : Prop where
  made : ∀ ref m, s.modelLocks ref = some m → m < s.made
  one : ∀ ref ref' m, s.modelLocks ref = some m → s.modelLocks ref' = some m → ref = ref'

omit [DecidableEq ι] in
theorem Distinct.effect {s s' : Shared ι} (h : Distinct s) {o : EnsureAvailable.Op} {r : EnsureAvailable.Op.Res o}
    (he : ModelLocks.effect i s o r s') : Distinct s' := by
  cases o with
  | lockFor ref =>
    unfold ModelLocks.effect at he
    cases hold : s.modelLocks ref with
    | some l =>
      simp only [hold] at he
      exact he.2 ▸ h
    | none =>
      simp only [hold] at he
      obtain ⟨-, rfl⟩ := he
      refine ⟨fun ref' m hm => ?_, fun ref₁ ref₂ m h₁ h₂ => ?_⟩
      · by_cases href : ref' = ref
        · subst href
          simp only [Function.update_self, Option.some.injEq] at hm
          subst hm
          exact Nat.lt_succ_self _
        · simp only [Function.update_of_ne href] at hm
          exact Nat.lt_succ_of_lt (h.made ref' m hm)
      · by_cases href₁ : ref₁ = ref
        · by_cases href₂ : ref₂ = ref
          · rw [href₁, href₂]
          · subst href₁
            simp only [Function.update_self, Option.some.injEq] at h₁
            simp only [Function.update_of_ne href₂] at h₂
            have hlt := h.made ref₂ m h₂
            omega
        · simp only [Function.update_of_ne href₁] at h₁
          by_cases href₂ : ref₂ = ref
          · subst href₂
            simp only [Function.update_self, Option.some.injEq] at h₂
            have hlt := h.made ref₁ m h₁
            omega
          · simp only [Function.update_of_ne href₂] at h₂
            exact h.one ref₁ ref₂ m h₁ h₂
  | download o =>
    obtain ⟨w, -, rfl⟩ := he
    exact ⟨h.made, h.one⟩
  | lock m =>
    obtain ⟨-, rfl⟩ := he
    exact ⟨h.made, h.one⟩
  | unlock m =>
    obtain rfl := he
    exact ⟨h.made, h.one⟩
  | ctxErr => exact he.1 ▸ h
  | models =>
    obtain rfl := he
    exact h

section Calls

variable {go : HfDownloader.Library} {cat : Catalog} {cfg : Config} {ref requiredKind : ι → Text}
  {w₀ : HfDownloader.World} {T : History ι EnsureAvailable.Op EnsureAvailable.Op.Res}
  {R : Pool ι EnsureAvailable.Op EnsureAvailable.Op.Res (Option EnsureAvailable.Error) (Shared ι)}

theorem distinct_of_runs (hruns : Runs ModelLocks.effect Cancel (started go cat cfg ref requiredKind w₀) T R) :
    Distinct R.state := by
  apply runs_invariant (I := fun _ R => Distinct R.state) _ _ hruns
  · constructor
    · intro ref m h
      cases h
    · intro ref ref' m h
      cases h
  · intro T Q u R _ h hs
    cases hs with
    | op _ he => exact h.effect he
    | env hc =>
      obtain ⟨i, err, -, rfl⟩ := hc
      exact ⟨h.made, h.one⟩

omit [DecidableEq ι] in
theorem lock_of_mem {ref : Text} {l m : Nat} {t : List (Event EnsureAvailable.Op EnsureAvailable.Op.Res)}
    (ht : ∀ e ∈ t, e.op ≠ .lock m) {e : Event EnsureAvailable.Op EnsureAvailable.Op.Res}
    (he : e ∈ (⟨.lockFor ref, l⟩ :: ⟨.lock l, ()⟩ :: t : List (Event EnsureAvailable.Op EnsureAvailable.Op.Res)))
    (hlock : e.op = .lock m) : l = m := by
  simp only [List.mem_cons] at he
  rcases he with rfl | rfl | he
  · cases hlock
  · cases hlock
    rfl
  · exact absurd hlock (ht e he)

/-- A call that holds a lock is inside it. -/
theorem inside_of_holds (hruns : Runs ModelLocks.effect Cancel (started go cat cfg ref requiredKind w₀) T R) {m : Nat}
    (hj : Holds (own j T) m) : ∃ cm o next, EnsureAvailable.resolve cat (ref j) (requiredKind j) = .ok cm ∧
      ⟨.lockFor cm.ref, m⟩ ∈ own j T ∧ R.prog j = .perform o next ∧ ∀ l, o ≠ .lock l := by
  cases stage_of_runs hruns j with
  | inr hfailed =>
    obtain ⟨-, -, hnil, -⟩ := hfailed
    obtain ⟨⟨e, he, -⟩, -⟩ := hj
    rw [hnil] at he
    cases he
  | inl hstage =>
    obtain ⟨cm, hr, hstage⟩ := hstage
    generalize own j T = t at hstage hj
    generalize R.prog j = q at hstage
    cases hstage with
    | start =>
      obtain ⟨⟨e, he, -⟩, -⟩ := hj
      cases he
    | waiting l =>
      obtain ⟨⟨e, he, hlock⟩, -⟩ := hj
      rw [List.mem_singleton.mp he] at hlock
      cases hlock
    | @inside l t q hrun =>
      obtain ⟨⟨e, he, hlock⟩, -⟩ := hj
      obtain rfl : l = m := lock_of_mem (fun e he => (inner_ne ((inner_of_run hrun).1 e he) m).1) he hlock
      cases q with
      | done err => exact ⟨cm, _, _, hr, by simp, underLock_done l err, by simp⟩
      | perform o next =>
        have hinner := (inner_of_run hrun).2 o next rfl
        exact ⟨cm, _, _, hr, by simp, underLock_perform l o next, fun k => (inner_ne hinner k).1⟩
    | @returned l t err hrun =>
      obtain ⟨⟨e, he, hlock⟩, hno⟩ := hj
      obtain rfl : l = m := by
        refine lock_of_mem (fun e he => ?_) he hlock
        cases List.mem_append.mp he with
        | inl he => exact (inner_ne ((inner_of_run hrun).1 e he) m).1
        | inr he => simp [List.mem_singleton.mp he]
      exact absurd rfl (hno ⟨.unlock l, ()⟩ (by simp))

/-- A call that cannot go on is about to take the lock that was made for its ref, and
another call for that ref, which can go on, holds it. -/
theorem waits_of_runs (hruns : Runs ModelLocks.effect Cancel (started go cat cfg ref requiredKind w₀) T R)
    {o : EnsureAvailable.Op} {next : o.Res → EnsureAvailable.Run (Option EnsureAvailable.Error)}
    (hi : R.prog i = .perform o next) (hstuck : ∀ r s, ¬ ModelLocks.effect i R.state o r s) :
    ∃ cm m, EnsureAvailable.resolve cat (ref i) (requiredKind i) = .ok cm ∧ o = .lock m ∧
      R.state.modelLocks cm.ref = some m ∧ ∃ j cm', j ≠ i ∧
        EnsureAvailable.resolve cat (ref j) (requiredKind j) = .ok cm' ∧ cm'.ref = cm.ref ∧
        ⟨.lockFor cm.ref, m⟩ ∈ own j T ∧ Holds (own j T) m ∧
        ∃ o next r s, R.prog j = .perform o next ∧ ModelLocks.effect j R.state o r s := by
  cases goes_or_waits i R.state o with
  | inl hgoes =>
    obtain ⟨r, s, he⟩ := hgoes
    exact absurd he (hstuck r s)
  | inr hwaits =>
    obtain ⟨m, rfl, hm⟩ := hwaits
    have hl := locked_of_runs hruns
    obtain ⟨j, hj⟩ := (hl.held m).mp hm
    obtain ⟨cm', o', next', hr', hown', hprog, hnot⟩ := inside_of_holds hruns hj
    obtain ⟨cm, hr, hnext⟩ := next_of_runs hruns hi
    have hown : own i T = [⟨.lockFor cm.ref, m⟩] := by
      generalize own i T = t at hnext ⊢
      cases hnext with
      | lock m => rfl
      | inner l hrun ho => exact ho.elim
    have hmade := hl.made i cm.ref m (by simp [hown])
    have hsame : cm'.ref = cm.ref := (distinct_of_runs hruns).one _ _ m (hl.made j _ m hown') hmade
    refine ⟨cm, m, hr, rfl, hmade, j, cm', ?_, hr', hsame, hsame ▸ hown', hj, o', next', ?_⟩
    · rintro rfl
      obtain ⟨⟨e, he, hlock⟩, -⟩ := hj
      rw [hown] at he
      rw [List.mem_singleton.mp he] at hlock
      cases hlock
    · cases goes_or_waits j R.state o' with
      | inl hgoes =>
        obtain ⟨r, s, he⟩ := hgoes
        exact ⟨r, s, hprog, he⟩
      | inr hwaits =>
        obtain ⟨l, hlock, -⟩ := hwaits
        exact absurd hlock (hnot l)

end Calls

/-! ## Whole requests -/

variable {jsonError : Bytes → Bytes} {go : HfDownloader.Library} {cat : Catalog} {cfg : Config} {reqs : ι → Request}
  {w₀ : HfDownloader.World} {H : History ι Handlers.Op Handlers.Op.Res}
  {Q : Pool ι Handlers.Op Handlers.Op.Res Handled (Shared ι)}

theorem accepted_of_asked {req : Request} {cm : Model} (hasked : asked req ≠ [])
    (hr : EnsureAvailable.resolve cat (asked req) (requiredKind req.path) = .ok cm) :
    AllowlistEnforcement.Accepted cat req cm := by
  obtain ⟨r, hd, hmodel⟩ := decodes_of_asked hasked
  exact AllowlistEnforcement.accepted_of_resolve hd (hmodel ▸ hasked) (hmodel ▸ hr)

/-- A request that cannot go on is a call of `EnsureAvailable` that cannot, in a run of
the calls of all requests. -/
theorem call_of_stuck (hruns : Runs effect Cancel (serving jsonError go cat cfg reqs w₀) H Q) {o : Handlers.Op}
    {next : o.Res → Handlers.Run Handled} (hi : Q.prog i = .perform o next)
    (hstuck : ∀ r s, ¬ effect i Q.state o r s) :
    ∃ R o₀ next₀, Runs ModelLocks.effect Cancel
        (started go cat cfg (fun i => asked (reqs i)) (fun i => requiredKind (reqs i).path) w₀) (firsts ofEvent H) R ∧
      R.state = Q.state ∧ o = .ensure o₀ ∧ R.prog i = .perform o₀ next₀ ∧
      ∀ j o next, R.prog j = .perform o next → ∃ next', Q.prog j = .perform (.ensure o) next' := by
  obtain ⟨R, hR, hstate, hphase⟩ := ensured_of_runs hruns
  have hpart := hphase i
  rw [hi] at hpart
  cases phase_step (answering_later jsonError (reqs i)) hpart with
  | inr hlater =>
    cases o with
    | ensure o => exact absurd rfl (hlater.1 o)
    | post body => exact absurd rfl (hstuck (.failed []) Q.state)
  | inl hfirst =>
    obtain ⟨o₀, next₀, rfl, hprog, -⟩ := hfirst
    refine ⟨R, o₀, next₀, hR, hstate, rfl, hprog, fun j o' next' hj => ?_⟩
    have hpartj := hphase j
    rw [hj] at hpartj
    exact first_of_phase hpartj

/-- A request that cannot go on is about to take the lock that was made for the model it
names. Another request that names this model holds the lock, and it can go on. -/
theorem request_waits (hruns : Runs effect Cancel (serving jsonError go cat cfg reqs w₀) H Q) {o : Handlers.Op}
    {next : o.Res → Handlers.Run Handled} (hi : Q.prog i = .perform o next)
    (hstuck : ∀ r s, ¬ effect i Q.state o r s) :
    ∃ cm m, AllowlistEnforcement.Accepted cat (reqs i) cm ∧ o = .ensure (.lock m) ∧
      Q.state.modelLocks cm.ref = some m ∧ ∃ j cm', j ≠ i ∧ AllowlistEnforcement.Accepted cat (reqs j) cm' ∧
        cm'.ref = cm.ref ∧ ⟨.lockFor cm.ref, m⟩ ∈ own j (firsts ofEvent H) ∧ Holds (own j (firsts ofEvent H)) m ∧
        ∃ o next r s, Q.prog j = .perform o next ∧ effect j Q.state o r s := by
  obtain ⟨R, o₀, next₀, hR, hstate, rfl, hprog, hback⟩ := call_of_stuck hruns hi hstuck
  rw [← hstate] at hstuck
  obtain ⟨cm, m, hr, rfl, hmade, j, cm', hne, hr', hsame, hlock, hholds, o', next', r, s, hj, he⟩ :=
    waits_of_runs hR hprog hstuck
  obtain ⟨next'', hj'⟩ := hback j o' next' hj
  exact ⟨cm, m, accepted_of_asked (asked_of_perform hruns hi) hr, rfl, hstate ▸ hmade, j, cm', hne,
    accepted_of_asked (asked_of_perform hruns hj') hr', hsame, hlock, hholds, _, _, r, s, hj', hstate ▸ he⟩

/-- Of two programs that begin with one lock, the second cannot go on while the first has it. -/
theorem runs_stuck {P : Pool ι Handlers.Op Handlers.Op.Res Handled (Shared ι)} {ref : Text}
    {rest : Nat → Handlers.Run Handled}
    (hp : ∀ i, P.prog i = .perform (.ensure (.lockFor ref)) fun m => .perform (.ensure (.lock m)) fun _ => rest m)
    (hnew : P.state.modelLocks ref = none) (hfree : P.state.locked P.state.made = false) (hij : i ≠ j) :
    ∃ H Q next, Runs effect Cancel P H Q ∧ Q.prog i = .perform (.ensure (.lock P.state.made)) next ∧
      ∀ r s, ¬ effect i Q.state (.ensure (.lock P.state.made)) r s := by
  let s₁ : Shared ι :=
    { P.state with
      modelLocks := Function.update P.state.modelLocks ref (some P.state.made), made := P.state.made + 1 }
  let s₂ : Shared ι := { s₁ with locked := Function.update s₁.locked P.state.made true }
  have hfirst : Effects.Run (effect j) (P.prog j) P.state
      [⟨.ensure (.lockFor ref), P.state.made⟩, ⟨.ensure (.lock P.state.made), ()⟩] (rest P.state.made) s₂ := by
    rw [hp]
    have hlock : effect j P.state (.ensure (.lockFor ref)) P.state.made s₁ := lockFor_new (i := j) hnew
    exact .step hlock (.step ⟨hfree, rfl⟩ (.refl _ _))
  have hknown : s₂.modelLocks ref = some P.state.made := by simp [s₂, s₁]
  have hsecond : Effects.Run (effect i) (P.prog i) s₂ [⟨.ensure (.lockFor ref), P.state.made⟩]
      (.perform (.ensure (.lock P.state.made)) fun _ => rest P.state.made) s₂ := by
    rw [hp]
    have hlock : effect i s₂ (.ensure (.lockFor ref)) P.state.made s₂ := lockFor_known (i := i) hknown
    exact .step hlock (.refl _ _)
  have hruns := (runs_alone (N := Cancel) hfirst rfl rfl).trans
    (runs_alone hsecond (Function.update_of_ne hij ..) rfl)
  refine ⟨_, _, _, hruns, Function.update_self .., ?_⟩
  rintro r s ⟨hfree, -⟩
  simp [s₂] at hfree

section Sample

open CatalogPaths SingleDownload DownloaderAtomicity AllowlistEnforcement SharedFiles

/-- What a request of the sample does behind its lock. -/
def embeddingRest (m : Nat) : Handlers.Run Handled :=
  (underLock m (EnsureAvailable.ensureLocked sampleLibrary smallConfig embeddingEntry)).lift Handlers.Op.ensure
    (fun _ r => r) >>= answering id embeddingRequest

theorem humaInference_embedding : humaInference id sampleLibrary twoModels smallConfig embeddingRequest =
    .perform (.ensure (.lockFor embeddingEntry.ref)) fun m =>
      .perform (.ensure (.lock m)) fun _ => embeddingRest m := by
  obtain ⟨r, hd, hne, hb⟩ := modelRequest_of_accepted accepted_embedding unmarshal_embeddingBody
  have hasked := asked_of_decodes hd
  have hr : EnsureAvailable.resolve twoModels r.model (requiredKind embeddingRequest.path) = .ok embeddingEntry :=
    resolve_of_kind hb accepted_embedding.kind
  cases humaInference_eq id sampleLibrary twoModels smallConfig embeddingRequest with
  | inl hrefused => exact absurd (hasked.symm.trans hrefused.1) hne
  | inr hasks =>
    rw [hasks.2, hasked, RivalDownloads.ensureAvailable_eq hr]
    rfl

theorem request_waits_embedding : ∃ H Q next, Runs effect Cancel embeddingRequests H Q ∧
    Q.prog true = .perform (.ensure (.lock 0)) next ∧ (∀ r s, ¬ effect true Q.state (.ensure (.lock 0)) r s) ∧
    ∃ cm m, Accepted twoModels embeddingRequest cm ∧ Op.ensure (.lock 0) = .ensure (.lock m) ∧
      Q.state.modelLocks cm.ref = some m ∧ ∃ j cm', j ≠ true ∧ Accepted twoModels embeddingRequest cm' ∧
        cm'.ref = cm.ref ∧ ⟨.lockFor cm.ref, m⟩ ∈ own j (firsts ofEvent H) ∧ Holds (own j (firsts ofEvent H)) m ∧
        ∃ o next r s, Q.prog j = .perform o next ∧ effect j Q.state o r s := by
  have hprog : ∀ i, embeddingRequests.prog i =
      .perform (.ensure (.lockFor embeddingEntry.ref)) fun m => .perform (.ensure (.lock m)) fun _ => embeddingRest m :=
    fun i => (serving_prog ..).trans humaInference_embedding
  obtain ⟨H, Q, next, hruns, hi, hstuck⟩ := runs_stuck (i := true) (j := false) hprog rfl rfl (by decide)
  exact ⟨H, Q, next, hruns, hi, hstuck, request_waits hruns hi hstuck⟩

end Sample

/-- Every request has come to what the handler makes of it. -/
def AllHandled (Q : Pool ι Handlers.Op Handlers.Op.Res Handled (Shared ι)) : Prop := ∀ i, ∃ h, Q.prog i = .done h

theorem goes_of_runs (hruns : Runs effect Cancel (serving jsonError go cat cfg reqs w₀) H Q) :
    AllHandled Q ∨ ∃ x R, Step effect Cancel Q [x] R := by
  by_cases hall : AllHandled Q
  · exact .inl hall
  · obtain ⟨i, hi⟩ := not_forall.mp hall
    cases hprog : Q.prog i with
    | done h => exact absurd ⟨h, hprog⟩ hi
    | perform o next =>
      by_cases hgoes : ∃ r s, effect i Q.state o r s
      · obtain ⟨r, s, he⟩ := hgoes
        exact .inr ⟨_, _, .op hprog he⟩
      · have hstuck : ∀ r s, ¬ effect i Q.state o r s := fun r s he => hgoes ⟨r, s, he⟩
        obtain ⟨R, o₀, next₀, hR, hstate, rfl, hprog₀, hback⟩ := call_of_stuck hruns hprog hstuck
        rw [← hstate] at hstuck
        obtain ⟨-, -, -, -, -, j, -, -, -, -, -, -, o', next', r, s, hj, he⟩ := waits_of_runs hR hprog₀ hstuck
        obtain ⟨next'', hj'⟩ := hback j o' next' hj
        exact .inr ⟨_, _, .op hj' (hstate ▸ he)⟩

/-- A context is cancelled once at most. -/
theorem wf_cancel [Finite ι] :
    WellFounded fun u v : ι → Option Bytes => ∃ i x, (x ≠ none ∧ v i = none) ∧ u = Function.update v i x := by
  have hone : WellFounded fun x y : Option Bytes => x ≠ none ∧ y = none := by
    refine ⟨fun y => ⟨_, fun x hx => ⟨_, fun z hz => ?_⟩⟩⟩
    exact absurd hz.2 hx.1
  exact wf_update hone

/-- However finitely many requests are scheduled and their contexts cancelled, and
whatever files, Hugging Face, the router and the upstream answer, all are handled. -/
theorem all_handled [Finite ι] (reqs : ι → Request) (w₀ : HfDownloader.World) :
    Eventually effect Cancel AllHandled (serving jsonError go cat cfg reqs w₀) := by
  refine eventually_of_wf (wf_step wf_cancel (m := Shared.cancelled) ?_) goes_of_runs (.refl _)
  rintro s s' ⟨i, err, hnone, rfl⟩
  exact ⟨i, some err, ⟨by simp, hnone⟩, rfl⟩

theorem all_handled_embedding : Eventually effect Cancel AllHandled embeddingRequests := all_handled _ _

end GatewayProgress
