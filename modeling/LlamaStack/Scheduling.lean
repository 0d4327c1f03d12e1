import Mathlib.Data.DFinsupp.WellFounded
import Mathlib.SetTheory.Cardinal.Order
import LlamaStack.Interleaving

/-!
# Runs that come to an end

Whatever steps finitely many programs and their environment take, there comes a time
at which a property of the pool holds: programs have no infinite runs, so it is enough
that as long as it does not hold some program can go on.
-/
namespace Scheduling

open Effects Interleaving

variable {ι Op : Type} {Res : Op → Type} {α σ τ : Type} [DecidableEq ι]

section Always

variable (E : ι → Meaning Op Res σ) (N : σ → σ → Prop) (good : Pool ι Op Res α σ → Prop)

/-- On every schedule the property comes to hold, and until then a program can go on. -/
inductive Eventually : Pool ι Op Res α σ → Prop where
  | now {P : Pool ι Op Res α σ} : good P → Eventually P
  | later {P : Pool ι Op Res α σ} : (∃ x R, Step E N P [x] R) → (∀ u R, Step E N P u R → Eventually R) → Eventually P

end Always

variable {E : ι → Meaning Op Res σ} {N : σ → σ → Prop} {good : Pool ι Op Res α σ → Prop}

/-! ## What every step makes smaller -/

/-- A program after one of its operations. -/
def Rest (q p : Prog Op Res α) : Prop := ∃ o next r, p = .perform o next ∧ q = next r

theorem wf_rest : WellFounded (Rest : Prog Op Res α → Prog Op Res α → Prop) := by
  refine ⟨fun p => ?_⟩
  induction p with
  | done a =>
    refine ⟨_, ?_⟩
    rintro q ⟨o, next, r, h, -⟩
    cases h
  | perform o next ih =>
    refine ⟨_, ?_⟩
    rintro q ⟨o', next', r, h, rfl⟩
    cases h
    exact ih r

/-- What becomes smaller at one of finitely many places comes to an end. -/
theorem wf_update [Finite ι] {s : τ → τ → Prop} (hs : WellFounded s) :
    WellFounded fun u v : ι → τ => ∃ i x, s x (v i) ∧ u = Function.update v i x := by
  refine Subrelation.wf ?_ (Pi.Lex.wellFounded WellOrderingRel fun _ => hs)
  rintro u v ⟨i, x, hx, rfl⟩
  refine ⟨i, fun j hj => ?_, ?_⟩
  · have hne : j ≠ i := by
      rintro rfl
      exact irrefl_of WellOrderingRel j hj
    exact Function.update_of_ne hne x v
  · rw [Function.update_self]
    exact hx

/-- No run is infinite, if the environment alone has only so much to do. -/
theorem wf_step [Finite ι] {r : τ → τ → Prop} (hr : WellFounded r) {m : σ → τ}
    (henv : ∀ s s', N s s' → r (m s') (m s)) :
    WellFounded fun Q P : Pool ι Op Res α σ => ∃ u, Step E N P u Q := by
  refine Subrelation.wf ?_ (InvImage.wf (fun P : Pool ι Op Res α σ => (P.prog, m P.state))
    (WellFounded.prod_lex (wf_update wf_rest) hr))
  rintro Q P ⟨u, hs⟩
  cases hs with
  | op hp he =>
    exact Prod.Lex.left _ _ ⟨_, _, ⟨_, _, _, hp, rfl⟩, rfl⟩
  | env hn => exact Prod.Lex.right _ (henv _ _ hn)

theorem eventually_of_wf (hwf : WellFounded fun Q P : Pool ι Op Res α σ => ∃ u, Step E N P u Q)
    {P Q : Pool ι Op Res α σ} {t : History ι Op Res}
    (hgoes : ∀ {t Q}, Runs E N P t Q → good Q ∨ ∃ x R, Step E N Q [x] R) (h : Runs E N P t Q) :
    Eventually E N good Q := by
  induction Q using hwf.induction generalizing t with
  | h Q ih =>
    cases hgoes h with
    | inl hgood => exact .now hgood
    | inr hstep => exact .later hstep fun u R hs => ih R ⟨u, hs⟩ (h.snoc hs)

end Scheduling
