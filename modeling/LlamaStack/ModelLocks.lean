import LlamaStack.EnsureAvailable
import LlamaStack.Interleaving

/-!
# Requests at the same time

Calls of `EnsureAvailable` that share the files, the map of locks and the locks. Each
call has a context of its own, which may be cancelled at any time.
-/
namespace ModelLocks

open Effects GoBytes ModelCatalog RouterManager EnsureAvailable Interleaving

/-! ## What calls share -/

structure Shared (ι : Type) where
  world : HfDownloader.World
  modelLocks : Text → Option Nat
  made : Nat
  locked : Nat → Bool
  cancelled : ι → Option Bytes

variable {ι : Type} [DecidableEq ι]

/-- What an operation of a call may return and do. -/
def effect (i : ι) : Meaning Op Op.Res (Shared ι)
  | s, .download o, r, s' => ∃ w, HfDownloader.effect s.world o r w ∧ s' = { s with world := w }
  | s, .lockFor ref, m, s' =>
    match s.modelLocks ref with
    | some l => (m : Nat) = l ∧ s' = s
    | none => (m : Nat) = s.made ∧
        s' = { s with modelLocks := Function.update s.modelLocks ref (some s.made), made := s.made + 1 }
  | s, .lock m, _, s' => s.locked m = false ∧ s' = { s with locked := Function.update s.locked m true }
  | s, .unlock m, _, s' => s' = { s with locked := Function.update s.locked m false }
  | s, .ctxErr, r, s' => s' = s ∧ (r : Option Bytes) = s.cancelled i
  | s, .models, _, s' => s' = s

/-- A context is cancelled, and stays so. -/
def Cancel (s s' : Shared ι) : Prop :=
  ∃ i err, s.cancelled i = none ∧ s' = { s with cancelled := Function.update s.cancelled i (some err) }

variable (go : HfDownloader.Library) (cat : Catalog) (cfg : Config)

/-- All calls before their first operation, and no lock made. -/
def started (ref requiredKind : ι → Text) (w₀ : HfDownloader.World) :
    Pool ι Op Op.Res (Option Error) (Shared ι) where
  prog i := ensureAvailable go cat cfg (ref i) (requiredKind i)
  state :=
    { world := w₀, modelLocks := fun _ => none, made := 0, locked := fun _ => false, cancelled := fun _ => none }

/-! ## How far a call has come -/

def underLock (m : Nat) (p : EnsureAvailable.Run (Option Error)) : EnsureAvailable.Run (Option Error) := do
  let err ← p
  let _ ← op (Op.unlock m)
  return err

variable (cm : Model)

/-- A call for an entry of the catalog. -/
def locking : EnsureAvailable.Run (Option Error) := do
  let m ← op (Op.lockFor cm.ref)
  let _ ← op (Op.lock m)
  underLock m (ensureLocked go cfg cm)

/-- A call's own events, and what is left of it. -/
inductive Stage : List (Event Op Op.Res) → EnsureAvailable.Run (Option Error) → Prop where
  | start : Stage [] (locking go cfg cm)
  | waiting (m : Nat) :
      Stage [⟨.lockFor cm.ref, m⟩] (.perform (.lock m) fun _ => underLock m (ensureLocked go cfg cm))
  | inside (m : Nat) {t : List (Event Op Op.Res)} {q : EnsureAvailable.Run (Option Error)} :
      Effects.Run free (ensureLocked go cfg cm) () t q () →
      Stage (⟨.lockFor cm.ref, m⟩ :: ⟨.lock m, ()⟩ :: t) (underLock m q)
  | returned (m : Nat) {t : List (Event Op Op.Res)} {err : Option Error} :
      Effects.Run free (ensureLocked go cfg cm) () t (.done err) () →
      Stage (⟨.lockFor cm.ref, m⟩ :: ⟨.lock m, ()⟩ :: (t ++ [⟨.unlock m, ()⟩])) (.done err)

variable {go cat cfg cm} {t : List (Event Op Op.Res)} {q : EnsureAvailable.Run (Option Error)}

theorem stage_of_run (h : Effects.Run free (locking go cfg cm) () t q ()) : Stage go cfg cm t q := by
  cases h with
  | refl => exact .start
  | @step _ _ m _ _ _ _ _ _ h =>
    cases h with
    | refl => exact .waiting m
    | @step _ _ _ _ _ _ t _ _ h =>
      have hlocked : Effects.Run free (ensureLocked go cfg cm >>= fun err => .perform (.unlock m) fun _ => .done err)
          () t q () := h
      cases run_bind hlocked with
      | inl h =>
        obtain ⟨q', hq, rfl⟩ := h
        exact .inside m hq
      | inr h =>
        obtain ⟨err, t₁, t₂, _, rfl, h₁, h₂⟩ := h
        cases h₂ with
        | refl =>
          rw [List.append_nil]
          exact .inside m h₁
        | step _ h₂ =>
          obtain ⟨rfl, rfl, -⟩ := run_done h₂
          exact .returned m h₁

/-- The operations under the lock. -/
def Inner : Op → Prop
  | .download _ => True
  | .ctxErr => True
  | .models => True
  | _ => False

/-- A program of the downloader among the operations of a call. -/
def downloading {α : Type} (p : HfDownloader.Run α) : EnsureAvailable.Run α := p.lift Op.download fun _ r => r

theorem downloading_inner {α : Type} (p : HfDownloader.Run α) :
    Spec free (fun _ o => Inner o) (fun _ _ => True) (downloading p) () := by
  induction p with
  | done a => trivial
  | perform o next ih => exact ⟨trivial, fun r _ _ => ih r⟩

/-- What follows the download. -/
def checking (cm : Model) (downloaded : Except HfDownloader.Error Text) : EnsureAvailable.Run (Option Error) :=
  match downloaded with
  | .error err => return some (.downloadFailed err)
  | .ok _ => do
    let err ← op Op.ctxErr
    match (err : Option Bytes) with
    | some err => return some (.contextDone err)
    | none =>
      let listed ← routerHasModel cm.ref
      match listed with
      | .error err => return some (.registryUnknown err)
      | .ok false => return some (.registryStale cm.ref)
      | .ok true => return none

theorem ensureLocked_eq : ensureLocked go cfg cm =
    downloading (HfDownloader.ensure go cfg.modelsDir cm) >>= checking cm := rfl

theorem checking_quiet (downloaded : Except HfDownloader.Error Text) :
    Spec free (fun _ o => o = .ctxErr ∨ o = .models) (fun _ _ => True) (checking cm downloaded) () := by
  cases downloaded with
  | error err => trivial
  | ok _ =>
    refine ⟨.inl rfl, fun err _ _ => ?_⟩
    cases err with
    | some err => trivial
    | none =>
      refine ⟨.inr rfl, fun resp _ _ => ?_⟩
      cases resp with
      | error err => trivial
      | ok resp =>
        cases hhas : modelsResponseHas resp cm.ref with
        | false =>
          simp only [Prog.bind, pure, hhas]
          trivial
        | true =>
          simp only [Prog.bind, pure, hhas]
          trivial

theorem ensureLocked_inner : Spec free (fun _ o => Inner o) (fun _ _ => True) (ensureLocked go cfg cm) () := by
  rw [ensureLocked_eq]
  apply spec_bind
  refine spec_mono (fun _ _ h => h) (fun downloaded _ _ => ?_) (downloading_inner _)
  refine spec_mono ?_ (fun _ _ h => h) (checking_quiet downloaded)
  rintro _ o (rfl | rfl)
  · trivial
  · trivial

theorem inner_of_run (h : Effects.Run free (ensureLocked go cfg cm) () t q ()) :
    (∀ e ∈ t, Inner e.op) ∧ ∀ o next, q = .perform o next → Inner o := by
  obtain ⟨hq, ht⟩ := spec_run ensureLocked_inner h
  refine ⟨fun e he => (ht e he).choose_spec, ?_⟩
  rintro o next rfl
  exact hq.1

theorem underLock_done (m : Nat) (err : Option Error) :
    underLock m (.done err) = .perform (.unlock m) fun _ => .done err := rfl

theorem underLock_perform (m : Nat) (o : Op) (next : Op.Res o → EnsureAvailable.Run (Option Error)) :
    underLock m (.perform o next) = .perform o fun r => underLock m (next r) := rfl

/-- What a call does next, and what it has done so far. -/
inductive Next (go : HfDownloader.Library) (cfg : Config) (cm : Model) : List (Event Op Op.Res) → Op → Prop where
  | lockFor : Next go cfg cm [] (.lockFor cm.ref)
  | lock (m : Nat) : Next go cfg cm [⟨.lockFor cm.ref, m⟩] (.lock m)
  | inner (m : Nat) {t : List (Event Op Op.Res)} {o : Op} {next : Op.Res o → EnsureAvailable.Run (Option Error)} :
      Effects.Run free (ensureLocked go cfg cm) () t (.perform o next) () → Inner o →
      Next go cfg cm (⟨.lockFor cm.ref, m⟩ :: ⟨.lock m, ()⟩ :: t) o
  | unlock (m : Nat) {t : List (Event Op Op.Res)} {err : Option Error} :
      Effects.Run free (ensureLocked go cfg cm) () t (.done err) () →
      Next go cfg cm (⟨.lockFor cm.ref, m⟩ :: ⟨.lock m, ()⟩ :: t) (.unlock m)

theorem next_of_stage {o : Op} {next : Op.Res o → EnsureAvailable.Run (Option Error)}
    (h : Stage go cfg cm t (.perform o next)) : Next go cfg cm t o := by
  generalize hq : Prog.perform o next = q at h
  cases h with
  | start =>
    cases hq
    exact .lockFor
  | waiting m =>
    cases hq
    exact .lock m
  | @inside m t q hrun =>
    cases q with
    | done err =>
      rw [underLock_done] at hq
      cases hq
      exact .unlock m hrun
    | perform o' next' =>
      rw [underLock_perform] at hq
      cases hq
      exact .inner m hrun ((inner_of_run hrun).2 _ _ rfl)
  | returned => cases hq

/-! ## The locks -/

/-- The call has taken the lock and not released it. -/
def Holds (t : List (Event Op Op.Res)) (m : Nat) : Prop :=
  (∃ e ∈ t, e.op = .lock m) ∧ ∀ e ∈ t, e.op ≠ .unlock m

theorem holds_append {t : List (Event Op Op.Res)} {e : Event Op Op.Res} {m : Nat} (hlock : e.op ≠ .lock m)
    (hunlock : e.op ≠ .unlock m) : Holds (t ++ [e]) m ↔ Holds t m := by
  simp only [Holds, List.mem_append, List.mem_singleton]
  constructor
  · rintro ⟨⟨x, hx, hxm⟩, hno⟩
    refine ⟨⟨x, hx.resolve_right ?_, hxm⟩, fun y hy => hno y (.inl hy)⟩
    rintro rfl
    exact hlock hxm
  · rintro ⟨⟨x, hx, hxm⟩, hno⟩
    refine ⟨⟨x, .inl hx, hxm⟩, fun y hy => ?_⟩
    cases hy with
    | inl hy => exact hno y hy
    | inr hy => exact hy ▸ hunlock

theorem holds_snoc {H : History ι Op Op.Res} {e : Event Op Op.Res} {m : Nat} (i j : ι) (hlock : e.op ≠ .lock m)
    (hunlock : e.op ≠ .unlock m) : Holds (own i (H ++ [(j, e)])) m ↔ Holds (own i H) m := by
  rw [own_append]
  by_cases hj : j = i
  · subst hj
    rw [own_self, holds_append hlock hunlock]
  · rw [own_other hj, List.append_nil]

/-- Locks are made once, and each is taken exactly when one call holds it. -/
structure Locked (t : History ι Op Op.Res) (Q : Pool ι Op Op.Res (Option Error) (Shared ι)) : Prop where
  made : ∀ i ref m, ⟨.lockFor ref, m⟩ ∈ own i t → Q.state.modelLocks ref = some m
  held : ∀ m, Q.state.locked m = true ↔ ∃ i, Holds (own i t) m
  one : ∀ i j m, Holds (own i t) m → Holds (own j t) m → i = j

variable {ref requiredKind : ι → Text} {w₀ : HfDownloader.World} {H : History ι Op Op.Res}
  {Q : Pool ι Op Op.Res (Option Error) (Shared ι)}

/-- A call of a run is for an entry, or it has failed at once. -/
theorem stage_of_runs (hruns : Runs effect Cancel (started go cat cfg ref requiredKind w₀) H Q) (i : ι) :
    (∃ cm, resolve cat (ref i) (requiredKind i) = .ok cm ∧ Stage go cfg cm (own i H) (Q.prog i)) ∨
      ∃ err, resolve cat (ref i) (requiredKind i) = .error err ∧ own i H = [] ∧ Q.prog i = .done (some err) := by
  have hrun := run_own hruns i
  change Effects.Run free (ensureAvailable go cat cfg (ref i) (requiredKind i)) () (own i H) (Q.prog i) () at hrun
  unfold ensureAvailable at hrun
  cases hr : resolve cat (ref i) (requiredKind i) with
  | error err =>
    rw [hr] at hrun
    obtain ⟨hnil, hdone, -⟩ := run_done hrun
    exact .inr ⟨err, rfl, hnil, hdone⟩
  | ok cm =>
    rw [hr] at hrun
    exact .inl ⟨cm, rfl, stage_of_run hrun⟩

theorem next_of_runs (hruns : Runs effect Cancel (started go cat cfg ref requiredKind w₀) H Q) {i : ι} {o : Op}
    {next : Op.Res o → EnsureAvailable.Run (Option Error)} (hi : Q.prog i = .perform o next) :
    ∃ cm, resolve cat (ref i) (requiredKind i) = .ok cm ∧ Next go cfg cm (own i H) o := by
  cases stage_of_runs hruns i with
  | inl hstage =>
    obtain ⟨cm, hr, hstage⟩ := hstage
    rw [hi] at hstage
    exact ⟨cm, hr, next_of_stage hstage⟩
  | inr hfailed =>
    obtain ⟨err, -, -, hdone⟩ := hfailed
    rw [hi] at hdone
    cases hdone

theorem inner_ne {o : Op} (ho : Inner o) (m : Nat) : o ≠ .lock m ∧ o ≠ .unlock m := by
  cases o with
  | lock => exact ho.elim
  | unlock => exact ho.elim
  | lockFor => exact ho.elim
  | _ => simp

theorem holds_of_run (m : Nat) (h : Effects.Run free (ensureLocked go cfg cm) () t q ()) :
    Holds (⟨.lockFor cm.ref, m⟩ :: ⟨.lock m, ()⟩ :: t) m := by
  refine ⟨⟨⟨.lock m, ()⟩, by simp, rfl⟩, fun e he => ?_⟩
  simp only [List.mem_cons] at he
  rcases he with rfl | rfl | he
  · simp
  · simp
  · exact (inner_ne ((inner_of_run h).1 e he) m).2

omit [DecidableEq ι] in
/-- Under the lock nothing is done to locks. -/
theorem effect_inner {i : ι} {s s' : Shared ι} {o : Op} {r : Op.Res o} (ho : Inner o) (he : effect i s o r s') :
    s'.locked = s.locked ∧ s'.modelLocks = s.modelLocks := by
  cases o with
  | lock => exact ho.elim
  | unlock => exact ho.elim
  | lockFor => exact ho.elim
  | download o =>
    obtain ⟨w, -, rfl⟩ := he
    exact ⟨rfl, rfl⟩
  | ctxErr =>
    obtain ⟨rfl, -⟩ := he
    exact ⟨rfl, rfl⟩
  | models =>
    obtain rfl := he
    exact ⟨rfl, rfl⟩

omit [DecidableEq ι] in
/-- What is not an operation of the downloader leaves the files. -/
theorem world_of_effect {i : ι} {s s' : Shared ι} {o : Op} {r : Op.Res o} (he : effect i s o r s')
    (ho : ∀ o', o ≠ .download o') : s'.world = s.world := by
  cases o with
  | download o => exact absurd rfl (ho o)
  | lockFor ref =>
    unfold effect at he
    cases hold : s.modelLocks ref with
    | some l =>
      simp only [hold] at he
      rw [he.2]
    | none =>
      simp only [hold] at he
      rw [he.2]
  | lock m => rw [he.2]
  | unlock m =>
    obtain rfl := he
    rfl
  | ctxErr => rw [he.1]
  | models =>
    obtain rfl := he
    rfl

/-- What is not about locks leaves them. -/
theorem Locked.keep {P : Pool ι Op Op.Res (Option Error) (Shared ι)} (hl : Locked H P) {j : ι} {e : Event Op Op.Res}
    (hother : ∀ m, e.op ≠ .lock m ∧ e.op ≠ .unlock m) (hlocked : Q.state.locked = P.state.locked)
    (hmade : ∀ i ref m, ⟨.lockFor ref, m⟩ ∈ own i (H ++ [(j, e)]) → Q.state.modelLocks ref = some m) :
    Locked (H ++ [(j, e)]) Q := by
  have hiff : ∀ i m, Holds (own i (H ++ [(j, e)])) m ↔ Holds (own i H) m :=
    fun i m => holds_snoc i j (hother m).1 (hother m).2
  refine ⟨hmade, fun m => ?_, fun i i' m hi hi' => ?_⟩
  · rw [hlocked, hl.held]
    exact exists_congr fun i => (hiff i m).symm
  · exact hl.one i i' m ((hiff i m).mp hi) ((hiff i' m).mp hi')

theorem mem_own_snoc {i j : ι} {e e' : Event Op Op.Res} (h : e' ∈ own i (H ++ [(j, e)])) :
    e' ∈ own i H ∨ i = j ∧ e' = e := by
  rw [mem_own, List.mem_append, List.mem_singleton] at h
  exact h.imp mem_own.mpr Prod.ext_iff.mp

variable {P : Pool ι Op Op.Res (Option Error) (Shared ι)} {j : ι} {s : Shared ι}
  {progs : ι → EnsureAvailable.Run (Option Error)}

theorem locked_lockFor (hl : Locked H P) {ref : Text} {m : Nat} (he : effect j P.state (.lockFor ref) m s) :
    Locked (H ++ [(j, ⟨.lockFor ref, m⟩)]) ⟨progs, s⟩ := by
  have hmade : s.locked = P.state.locked ∧ s.modelLocks ref = some m ∧
      ∀ ref' m', P.state.modelLocks ref' = some m' → s.modelLocks ref' = some m' := by
    unfold effect at he
    cases hold : P.state.modelLocks ref with
    | some l =>
      simp only [hold] at he
      obtain ⟨rfl, rfl⟩ := he
      exact ⟨rfl, hold, fun _ _ h => h⟩
    | none =>
      simp only [hold] at he
      obtain ⟨rfl, rfl⟩ := he
      refine ⟨rfl, Function.update_self .., fun ref' m' h => ?_⟩
      have hne : ref' ≠ ref := by
        rintro rfl
        rw [hold] at h
        cases h
      simp only [Function.update_of_ne hne]
      exact h
  refine hl.keep (by simp) hmade.1 fun i ref' m' hi => ?_
  cases mem_own_snoc hi with
  | inl hi => exact hmade.2.2 ref' m' (hl.made i ref' m' hi)
  | inr hi =>
    obtain ⟨-, hi⟩ := hi
    cases hi
    exact hmade.2.1

theorem locked_lock (hl : Locked H P) {m : Nat} (hno : ∀ e ∈ own j H, e.op ≠ .unlock m)
    (he : effect j P.state (.lock m) () s) : Locked (H ++ [(j, ⟨.lock m, ()⟩)]) ⟨progs, s⟩ := by
  obtain ⟨hfree, rfl⟩ := he
  have hnone : ∀ i, ¬ Holds (own i H) m := by
    intro i hi
    rw [(hl.held m).mpr ⟨i, hi⟩] at hfree
    cases hfree
  have hself : Holds (own j (H ++ [(j, ⟨.lock m, ()⟩)])) m := by
    rw [own_append, own_self]
    refine ⟨⟨⟨.lock m, ()⟩, by simp, rfl⟩, fun e he => ?_⟩
    cases List.mem_append.mp he with
    | inl he => exact hno e he
    | inr he => simp [List.mem_singleton.mp he]
  have honly : ∀ i, Holds (own i (H ++ [(j, ⟨.lock m, ()⟩)])) m → i = j := by
    intro i hi
    by_contra hne
    rw [own_append, own_other (Ne.symm hne), List.append_nil] at hi
    exact hnone i hi
  have hother : ∀ i m', m' ≠ m → (Holds (own i (H ++ [(j, ⟨.lock m, ()⟩)])) m' ↔ Holds (own i H) m') :=
    fun i m' hne => holds_snoc i j (by simpa using hne.symm) (by simp)
  refine ⟨fun i ref' m' hi => ?_, fun m' => ?_, fun i i' m' hi hi' => ?_⟩
  · cases mem_own_snoc hi with
    | inl hi => exact hl.made i ref' m' hi
    | inr hi => exact absurd (congrArg Event.op hi.2) (by simp)
  · by_cases hm : m' = m
    · subst hm
      simp only [Function.update_self, true_iff]
      exact ⟨j, hself⟩
    · simp only [Function.update_of_ne hm, hl.held, hother _ m' hm]
  · by_cases hm : m' = m
    · subst hm
      rw [honly i hi, honly i' hi']
    · exact hl.one i i' m' ((hother i m' hm).mp hi) ((hother i' m' hm).mp hi')

theorem locked_unlock (hl : Locked H P) {m : Nat} (hholds : Holds (own j H) m)
    (he : effect j P.state (.unlock m) () s) : Locked (H ++ [(j, ⟨.unlock m, ()⟩)]) ⟨progs, s⟩ := by
  obtain rfl := he
  have hnone : ∀ i, ¬ Holds (own i (H ++ [(j, ⟨.unlock m, ()⟩)])) m := by
    intro i hi
    by_cases hij : i = j
    · subst hij
      exact hi.2 ⟨.unlock m, ()⟩ (by simp) rfl
    · rw [own_append, own_other (Ne.symm hij), List.append_nil] at hi
      exact hij (hl.one i j m hi hholds)
  have hother : ∀ i m', m' ≠ m → (Holds (own i (H ++ [(j, ⟨.unlock m, ()⟩)])) m' ↔ Holds (own i H) m') :=
    fun i m' hne => holds_snoc i j (by simp) (by simpa using hne.symm)
  refine ⟨fun i ref' m' hi => ?_, fun m' => ?_, fun i i' m' hi hi' => ?_⟩
  · cases mem_own_snoc hi with
    | inl hi => exact hl.made i ref' m' hi
    | inr hi => exact absurd (congrArg Event.op hi.2) (by simp)
  · by_cases hm : m' = m
    · subst hm
      simp only [Function.update_self, Bool.false_eq_true, false_iff, not_exists]
      exact hnone
    · simp only [Function.update_of_ne hm, hl.held, hother _ m' hm]
  · by_cases hm : m' = m
    · subst hm
      exact absurd hi (hnone i)
    · exact hl.one i i' m' ((hother i m' hm).mp hi) ((hother i' m' hm).mp hi')

/-- In every run, each lock is taken exactly when one call holds it. -/
theorem locked_of_runs (hruns : Runs effect Cancel (started go cat cfg ref requiredKind w₀) H Q) : Locked H Q := by
  apply runs_invariant _ _ hruns
  · exact ⟨by simp, by simp [started, Holds], by simp [Holds]⟩
  · intro H P u R hruns hl hs
    cases hs with
    | env hc =>
      obtain ⟨i, err, -, rfl⟩ := hc
      rw [List.append_nil]
      exact ⟨hl.made, hl.held, hl.one⟩
    | @op j o next r s hp he =>
      obtain ⟨cm, -, hnext⟩ := next_of_runs hruns hp
      generalize hown : own j H = t at hnext
      cases hnext with
      | lockFor => exact locked_lockFor hl he
      | lock m => exact locked_lock hl (by simp [hown]) he
      | inner m _ ho =>
        obtain ⟨hlocked, hmade⟩ := effect_inner ho he
        refine hl.keep (inner_ne ho) hlocked fun i ref m hi => ?_
        cases mem_own_snoc hi with
        | inl hi => exact hmade ▸ hl.made i ref m hi
        | inr hi =>
          obtain rfl : Op.lockFor ref = o := congrArg Event.op hi.2
          exact ho.elim
      | unlock m hrun =>
        have hholds : Holds (own j H) m := hown ▸ holds_of_run m hrun
        exact locked_unlock hl hholds he

/-- The call holds the lock of the ref. -/
def Inside (t : List (Event Op Op.Res)) (ref : Text) : Prop := ∃ m, ⟨.lockFor ref, m⟩ ∈ t ∧ Holds t m

/-- At any time at most one call is inside the lock of a ref. -/
theorem inside_unique (hruns : Runs effect Cancel (started go cat cfg ref requiredKind w₀) H Q) {i j : ι} {r : Text}
    (hi : Inside (own i H) r) (hj : Inside (own j H) r) : i = j := by
  have hl := locked_of_runs hruns
  obtain ⟨m, hm, hi⟩ := hi
  obtain ⟨m', hm', hj⟩ := hj
  have hsame : some m = some m' := (hl.made i r m hm).symm.trans (hl.made j r m' hm')
  obtain rfl := Option.some.inj hsame
  exact hl.one i j m hi hj

theorem inside_of_run (m : Nat) (h : Effects.Run free (ensureLocked go cfg cm) () t q ()) :
    Inside (⟨.lockFor cm.ref, m⟩ :: ⟨.lock m, ()⟩ :: t) cm.ref := ⟨m, by simp, holds_of_run m h⟩

end ModelLocks
