import Mathlib.Logic.Function.Basic
import LlamaStack.Effects

/-!
# Programs that run at the same time

Programs of a family perform their operations on one state, in any order. What an
operation does may depend on the program that performs it. The environment changes the
state between operations.
-/
namespace Interleaving

open Effects

variable {ι Op : Type} {Res : Op → Type} {α σ : Type} [DecidableEq ι]

/-- What is left of every program, and the state. -/
structure Pool (ι Op : Type) (Res : Op → Type) (α σ : Type) where
  prog : ι → Prog Op Res α
  state : σ

/-- The events of all programs, each with the program that performed it. -/
abbrev History (ι Op : Type) (Res : Op → Type) := List (ι × Event Op Res)

variable (E : ι → Meaning Op Res σ) (N : σ → σ → Prop)

inductive Step : Pool ι Op Res α σ → History ι Op Res → Pool ι Op Res α σ → Prop where
  | op {P : Pool ι Op Res α σ} {i : ι} {o : Op} {next : Res o → Prog Op Res α} {r : Res o} {s : σ} :
      P.prog i = .perform o next → E i P.state o r s → Step P [(i, ⟨o, r⟩)] ⟨Function.update P.prog i (next r), s⟩
  | env {P : Pool ι Op Res α σ} {s : σ} : N P.state s → Step P [] ⟨P.prog, s⟩

inductive Runs : Pool ι Op Res α σ → History ι Op Res → Pool ι Op Res α σ → Prop where
  | refl (P : Pool ι Op Res α σ) : Runs P [] P
  | snoc {P Q R : Pool ι Op Res α σ} {t u : History ι Op Res} : Runs P t Q → Step E N Q u R → Runs P (t ++ u) R

variable {E N} {P Q R : Pool ι Op Res α σ} {t u : History ι Op Res}

theorem Runs.trans (h : Runs E N P t Q) (h' : Runs E N Q u R) : Runs E N P (t ++ u) R := by
  induction h' with
  | refl => rw [List.append_nil]; exact h
  | snoc _ hstep ih =>
    rw [← List.append_assoc]
    exact .snoc ih hstep

/-- What holds at the start and is kept by every step of a run holds at its end. -/
theorem runs_invariant {I : History ι Op Res → Pool ι Op Res α σ → Prop} (h₀ : I [] P)
    (hstep : ∀ {t Q u R}, Runs E N P t Q → I t Q → Step E N Q u R → I (t ++ u) R) (h : Runs E N P t Q) : I t Q := by
  induction h with
  | refl => exact h₀
  | snoc hruns hs ih => exact hstep hruns ih hs

/-- The pools around an event of a run. -/
theorem runs_event {t₁ t₂ : History ι Op Res} {e : ι × Event Op Res} (h : Runs E N P t Q) (ht : t = t₁ ++ e :: t₂) :
    ∃ R R', Runs E N P t₁ R ∧ Step E N R [e] R' ∧ Runs E N R' t₂ Q := by
  induction h generalizing t₂ with
  | refl => simp at ht
  | @snoc Q' Q t u hruns hs ih =>
    cases hs with
    | env hn =>
      rw [List.append_nil] at ht
      obtain ⟨R, R', h₁, h₂, h₃⟩ := ih ht
      refine ⟨R, R', h₁, h₂, ?_⟩
      rw [← List.append_nil t₂]
      exact .snoc h₃ (.env hn)
    | op hp he =>
      cases List.eq_nil_or_concat t₂ with
      | inl hnil =>
        subst hnil
        obtain ⟨rfl, hlast⟩ := List.append_inj' ht rfl
        obtain rfl := (List.cons.inj hlast).1
        exact ⟨_, _, hruns, .op hp he, .refl _⟩
      | inr hconcat =>
        obtain ⟨t₂', e', rfl⟩ := hconcat
        rw [List.concat_eq_append, ← List.cons_append, ← List.append_assoc] at ht
        obtain ⟨hinit, hlast⟩ := List.append_inj' ht rfl
        obtain rfl := (List.cons.inj hlast).1
        obtain ⟨R, R', h₁, h₂, h₃⟩ := ih hinit
        refine ⟨R, R', h₁, h₂, ?_⟩
        rw [List.concat_eq_append]
        exact .snoc h₃ (.op hp he)

/-! ## One of the programs -/

/-- A program can always go on alone. -/
theorem runs_alone {i : ι} {p q : Prog Op Res α} {s s' : σ} {t : List (Event Op Res)} (h : Effects.Run (E i) p s t q s')
    (hp : P.prog i = p) (hs : P.state = s) : Runs E N P (t.map fun e => (i, e)) ⟨Function.update P.prog i q, s'⟩ := by
  induction h generalizing P with
  | refl p s =>
    subst hp hs
    rw [Function.update_eq_self]
    exact .refl _
  | @step o next r s s₁ s' t p' he _ ih =>
    have hstep : Step E N P [(i, ⟨o, r⟩)] ⟨Function.update P.prog i (next r), s₁⟩ := .op hp (hs ▸ he)
    have hrest := ih (P := ⟨Function.update P.prog i (next r), s₁⟩) (Function.update_self ..) rfl
    simp only [Function.update_idem] at hrest
    exact (Runs.snoc (.refl P) hstep).trans hrest

/-- The events of one program. -/
def own (i : ι) (t : History ι Op Res) : List (Event Op Res) := t.filterMap fun x => if x.1 = i then some x.2 else none

@[simp] theorem own_nil (i : ι) : own i ([] : History ι Op Res) = [] := rfl

@[simp] theorem own_append (i : ι) (t u : History ι Op Res) : own i (t ++ u) = own i t ++ own i u :=
  List.filterMap_append

@[simp] theorem own_self (i : ι) (e : Event Op Res) : own i [(i, e)] = [e] := by simp [own]

theorem own_alone (i j : ι) (t : List (Event Op Res)) : own j (t.map fun e => (i, e)) = if i = j then t else [] := by
  rw [own, List.filterMap_map]
  split
  · rename_i hij
    simp [hij]
  · rename_i hij
    simp [hij]

theorem own_other {i j : ι} (h : j ≠ i) (e : Event Op Res) : own i [(j, e)] = [] := by simp [own, h]

theorem mem_own {i : ι} {e : Event Op Res} : e ∈ own i t ↔ (i, e) ∈ t := by
  rw [own, List.mem_filterMap]
  constructor
  · rintro ⟨x, hx, h⟩
    split at h
    · rename_i hi
      rw [← Option.some.inj h, ← hi]
      exact hx
    · cases h
  · intro h
    exact ⟨_, h, by simp⟩

/-- Operations without a state, and with any result. -/
def free : Meaning Op Res Unit := fun _ _ _ _ => True

/-- Each program has come as far as its own events lead. -/
theorem run_own (h : Runs E N P t Q) (i : ι) : Effects.Run free (P.prog i) () (own i t) (Q.prog i) () := by
  induction h with
  | refl => exact .refl _ _
  | @snoc Q R t u _ hs ih =>
    cases hs with
    | env _ =>
      rw [List.append_nil]
      exact ih
    | @op j o next r s hp _ =>
      rw [own_append]
      by_cases hj : j = i
      · subst hj
        rw [hp] at ih
        rw [own_self]
        simp only [Function.update_self]
        exact ih.trans (.step trivial (.refl _ _))
      · rw [own_other hj, List.append_nil]
        simp only [Function.update_of_ne (Ne.symm hj)]
        exact ih

/-! ## What a program has seen -/

variable {τ : Type} {step : τ → Event Op Res → τ} {told : τ → Event Op Res → Prop} {u₀ : τ}

/-- A state that the program's own events lead to. -/
def seen (step : τ → Event Op Res → τ) (u₀ : τ) (t : History ι Op Res) (i : ι) : τ := (own i t).foldl step u₀

theorem seen_snoc (t : History ι Op Res) (i : ι) (e : Event Op Res) :
    seen step u₀ (t ++ [(i, e)]) = Function.update (seen step u₀ t) i (step (seen step u₀ t i) e) := by
  funext j
  rw [seen, own_append, List.foldl_append]
  by_cases hj : j = i
  · subst hj
    rw [own_self, Function.update_self]
    rfl
  · rw [own_other (Ne.symm hj), Function.update_of_ne hj]
    rfl

/-- Programs that are right by what they have seen, and an invariant that each operation
keeps when its program is. -/
theorem runs_seen {G : τ → Op → Prop} {A : ι → α → τ → Prop} {C : History ι Op Res → Prop}
    {I : History ι Op Res → σ → Prop} (hC : ∀ {t u}, C (t ++ u) → C t)
    (hspec : ∀ i, Spec (informed step told) G (A i) (P.prog i) u₀) (h₀ : I [] P.state)
    (hop : ∀ {t Q i o next r s}, Runs E N P t Q → I t Q.state → C (t ++ [(i, ⟨o, r⟩)]) →
      (∀ j, Spec (informed step told) G (A j) (Q.prog j) (seen step u₀ t j)) → Q.prog i = .perform o next →
      E i Q.state o r s → told (seen step u₀ t i) ⟨o, r⟩ ∧ I (t ++ [(i, ⟨o, r⟩)]) s)
    (henv : ∀ {t s s'}, I t s → N s s' → I t s') (h : Runs E N P t Q) (hc : C t) :
    I t Q.state ∧ ∀ i, Spec (informed step told) G (A i) (Q.prog i) (seen step u₀ t i) := by
  induction h with
  | refl => exact ⟨h₀, hspec⟩
  | @snoc Q R t u hruns hs ih =>
    obtain ⟨hi, hq⟩ := ih (hC hc)
    cases hs with
    | env hn =>
      rw [List.append_nil]
      exact ⟨henv hi hn, hq⟩
    | @op i o next r s hp he =>
      obtain ⟨htold, hi'⟩ := hop hruns hi hc hq hp he
      refine ⟨hi', fun j => ?_⟩
      rw [seen_snoc]
      by_cases hj : j = i
      · subst hj
        have hj := hq j
        rw [hp] at hj
        simp only [Function.update_self]
        exact hj.2 r _ ⟨rfl, htold⟩
      · simp only [Function.update_of_ne hj]
        exact hq j

end Interleaving
