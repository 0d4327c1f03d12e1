import LlamaStack.Interleaving

/-!
# Operations that are not observed

A program simulates another one when it performs the operations of the other, in between hidden
ones, and goes on as the other does. What many such programs do at the same time is then, with the
hidden operations left out, what the others do.
-/
namespace Erasure

open Effects Interleaving

variable {Op Op' : Type} {Res : Op → Type} {Res' : Op' → Type} {α β γ δ : Type}

/-- What an operation is to an observer: nothing, or an operation with the result it has there. -/
inductive View (Res : Op → Type) (Res' : Op' → Type) (o : Op) where
  | hidden
  | shown (o' : Op') (back : Res o → Res' o')

/-- How a program goes on, by what its operation is to an observer. -/
def View.after {o : Op} (v : View Res Res' o) (next : Res o → Prog Op' Res' β → Prop) (q : Prog Op' Res' β) : Prop :=
  match v with
  | .hidden => ∀ r, next r q
  | .shown o' back => ∃ next', q = .perform o' next' ∧ ∀ r, next r (next' (back r))

variable (view : ∀ o, View Res Res' o)

/-- `D` is required of what is left of the other program at the end. -/
def Simulates (D : α → Prog Op' Res' β → Prop) : Prog Op Res α → Prog Op' Res' β → Prop
  | .done a, q => D a q
  | .perform o next, q => (view o).after (fun r => Simulates D (next r)) q

/-- A program that the observer does not see, with results as required. -/
def Unseen (P : α → Prop) : Prog Op Res α → Prop
  | .done a => P a
  | .perform o next => view o = .hidden ∧ ∀ r, Unseen P (next r)

def View.observe {o : Op} (v : View Res Res' o) (r : Res o) : Option (Event Op' Res') :=
  match v with
  | .hidden => none
  | .shown o' back => some ⟨o', back r⟩

/-- The event as it is observed. -/
def observe (e : Event Op Res) : Option (Event Op' Res') := (view e.op).observe e.res

/-! ## Rules -/

variable {view} {D : α → Prog Op' Res' β → Prop} {D' : γ → Prog Op' Res' δ → Prop} {P : α → Prop}

theorem simulates_bind {p : Prog Op Res α} {q : Prog Op' Res' β} {f : α → Prog Op Res γ} {g : β → Prog Op' Res' δ}
    (h : Simulates view D p q) (hf : ∀ a q', D a q' → Simulates view D' (f a) (q' >>= g)) :
    Simulates view D' (p >>= f) (q >>= g) := by
  induction p generalizing q with
  | done a => exact hf a q h
  | perform o next ih =>
    rw [perform_bind]
    unfold Simulates at h ⊢
    cases hv : view o with
    | hidden =>
      rw [hv] at h
      exact fun r => ih r (h r)
    | shown o' back =>
      rw [hv] at h
      obtain ⟨next', rfl, hnext⟩ := h
      exact ⟨fun r => next' r >>= g, rfl, fun r => ih r (hnext r)⟩

theorem simulates_op {o : Op} {f : Res o → Prog Op Res α} {q : Prog Op' Res' β} (h : view o = .hidden)
    (hf : ∀ r, Simulates view D (f r) q) : Simulates view D (op o >>= f) q := by
  rw [op_bind]
  unfold Simulates
  rw [h]
  exact hf

/-- What is not seen changes nothing for the observer. -/
theorem simulates_unseen {p : Prog Op Res α} {f : α → Prog Op Res γ} {q : Prog Op' Res' δ} (h : Unseen view P p)
    (hf : ∀ a, P a → Simulates view D' (f a) q) : Simulates view D' (p >>= f) q := by
  induction p with
  | done a => exact hf a h
  | perform o next ih =>
    rw [perform_bind]
    unfold Simulates
    rw [h.1]
    exact fun r => ih r (h.2 r)

/-- A program that may end where it likes simulates every longer one. -/
theorem simulates_longer {p : Prog Op Res α} {q : Prog Op' Res' β} (h : Simulates view (fun _ _ => True) p q)
    (g : β → Prog Op' Res' δ) : Simulates view (fun _ _ => True) p (q >>= g) := by
  induction p generalizing q with
  | done a => trivial
  | perform o next ih =>
    unfold Simulates at h ⊢
    cases hv : view o with
    | hidden =>
      rw [hv] at h
      exact fun r => ih r (h r)
    | shown o' back =>
      rw [hv] at h
      obtain ⟨next', rfl, hnext⟩ := h
      exact ⟨fun r => next' r >>= g, rfl, fun r => ih r (hnext r)⟩

theorem simulates_of_unseen {p : Prog Op Res α} (h : Unseen view P p) (q : Prog Op' Res' β) :
    Simulates view (fun _ _ => True) p q := by
  induction p with
  | done a => trivial
  | perform o next ih =>
    unfold Simulates
    rw [h.1]
    exact fun r => ih r (h.2 r)

theorem unseen_op {o : Op} {f : Res o → Prog Op Res α} (h : view o = .hidden) (hf : ∀ r, Unseen view P (f r)) :
    Unseen view P (op o >>= f) := ⟨h, hf⟩

theorem unseen_bind {Q : γ → Prop} {p : Prog Op Res α} {f : α → Prog Op Res γ} (h : Unseen view P p)
    (hf : ∀ a, P a → Unseen view Q (f a)) : Unseen view Q (p >>= f) := by
  induction p with
  | done a => exact hf a h
  | perform o next ih => exact ⟨h.1, fun r => ih r (h.2 r)⟩

/-! ## Operations among others -/

section Lift

variable {Op₁ : Type} {Res₁ : Op₁ → Type} {f : Op → Op₁} {g : ∀ o, Res₁ (f o) → Res o} {view₁ : ∀ o, View Res₁ Res' o}

/-- What an operation is where it stands for another one. -/
def View.before {o : Op} {o₁ : Op₁} (v : View Res Res' o) (g : Res₁ o₁ → Res o) : View Res₁ Res' o₁ :=
  match v with
  | .hidden => .hidden
  | .shown o' back => .shown o' fun r => back (g r)

theorem simulates_lift (hview : ∀ o, view₁ (f o) = (view o).before (g o)) {p : Prog Op Res α} {q : Prog Op' Res' β}
    (h : Simulates view D p q) : Simulates view₁ D (p.lift f g) q := by
  induction p generalizing q with
  | done a => exact h
  | perform o next ih =>
    rw [lift_perform]
    unfold Simulates at h ⊢
    rw [hview]
    cases hv : view o with
    | hidden =>
      rw [hv] at h
      exact fun r => ih _ (h (g o r))
    | shown o' back =>
      rw [hv] at h
      obtain ⟨next', rfl, hnext⟩ := h
      exact ⟨next', rfl, fun r => ih _ (hnext (g o r))⟩

end Lift

/-! ## Pools -/

variable {ι σ σ' : Type} [DecidableEq ι] {E : ι → Meaning Op Res σ} {E' : ι → Meaning Op' Res' σ'} {N : σ → σ → Prop}
  {N' : σ' → σ' → Prop}

/-- The states that the two kinds of operations go through stay related. -/
structure Tracks (view : ∀ o, View Res Res' o) (E : ι → Meaning Op Res σ) (E' : ι → Meaning Op' Res' σ')
    (N : σ → σ → Prop) (N' : σ' → σ' → Prop) (R : σ → σ' → Prop) : Prop where
  hidden : ∀ {i o r s s₁ s'}, view o = .hidden → R s s' → E i s o r s₁ → R s₁ s'
  shown : ∀ {i o o' back r s s₁ s'}, view o = .shown o' back → R s s' → E i s o r s₁ →
    ∃ s₁', E' i s' o' (back r) s₁' ∧ R s₁ s₁'
  env : ∀ {s s₁ s'}, R s s' → N s s₁ → ∃ s₁', N' s' s₁' ∧ R s₁ s₁'

/-- The history as it is observed. -/
def observed (view : ∀ o, View Res Res' o) (t : History ι Op Res) : History ι Op' Res' :=
  t.filterMap fun x => (observe view x.2).map fun e => (x.1, e)

omit [DecidableEq ι] in
theorem observed_append (t u : History ι Op Res) : observed view (t ++ u) = observed view t ++ observed view u :=
  List.filterMap_append

/-- Programs at the same time are observed as those that they simulate. -/
theorem runs_observed {R : σ → σ' → Prop} (hR : Tracks view E E' N N' R) {P Q : Pool ι Op Res α σ}
    {P' : Pool ι Op' Res' β σ'} {t : History ι Op Res} (h : Runs E N P t Q)
    (hprog : ∀ i, Simulates view D (P.prog i) (P'.prog i)) (hstate : R P.state P'.state) :
    ∃ Q', Runs E' N' P' (observed view t) Q' ∧ R Q.state Q'.state ∧ ∀ i, Simulates view D (Q.prog i) (Q'.prog i) := by
  induction h with
  | refl => exact ⟨P', .refl _, hstate, hprog⟩
  | @snoc Q Q₁ t u _ hs ih =>
    obtain ⟨Q', hruns, hstate', hsim⟩ := ih
    rw [observed_append]
    cases hs with
    | env hn =>
      obtain ⟨s₁', hn', hs₁⟩ := hR.env hstate' hn
      exact ⟨⟨Q'.prog, s₁'⟩, .snoc hruns (.env hn'), hs₁, hsim⟩
    | @op i o next r s hp he =>
      have hi := hsim i
      rw [hp] at hi
      unfold Simulates at hi
      cases hv : view o with
      | hidden =>
        rw [hv] at hi
        have hnone : observe view ⟨o, r⟩ = none := by rw [observe, hv, View.observe]
        refine ⟨Q', ?_, hR.hidden hv hstate' he, fun j => ?_⟩
        · simpa [observed, hnone] using hruns
        · by_cases hj : j = i
          · subst hj
            simpa using hi r
          · simpa [hj] using hsim j
      | shown o' back =>
        rw [hv] at hi
        obtain ⟨next', hq, hnext⟩ := hi
        obtain ⟨s₁', he', hs₁⟩ := hR.shown hv hstate' he
        have hsome : observe view ⟨o, r⟩ = some ⟨o', back r⟩ := by rw [observe, hv, View.observe]
        refine ⟨⟨Function.update Q'.prog i (next' (back r)), s₁'⟩, ?_, hs₁, fun j => ?_⟩
        · simpa [observed, hsome] using Runs.snoc hruns (.op hq he')
        · by_cases hj : j = i
          · subst hj
            simpa using hnext r
          · simpa [hj] using hsim j

end Erasure
