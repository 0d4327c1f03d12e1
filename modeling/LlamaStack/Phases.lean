import LlamaStack.Interleaving

/-!
# Programs with a first part

Programs of a pool that begin with a program among operations of another kind, and go
on with operations that leave the state. What the first parts do is a run of a pool of
their own.
-/
namespace Phases

open Effects Interleaving

variable {ι Op Op' : Type} {Res : Op → Type} {Res' : Op' → Type} {α β σ : Type} [DecidableEq ι]

section Phase

variable (f : Op → Op') (g : ∀ o, Res' (f o) → Res o)

/-- The operation is none of a first part. -/
def Later (o' : Op') : Prop := ∀ o, o' ≠ f o

/-- How far a program has come, beside its first part. A program may also have ended at once. -/
inductive Phase (rest : α → Prog Op' Res' β) : Prog Op Res α → Prog Op' Res' β → Prop where
  | first (p : Prog Op Res α) : Phase rest p (p.lift f g >>= rest)
  | later (a : α) {t : List (Event Op' Res')} {q : Prog Op' Res' β} :
      Effects.Run free (rest a) () t q () → Phase rest (.done a) q
  | ended (a : α) (b : β) : Phase rest (.done a) (.done b)

end Phase

variable {f : Op → Op'} {g : ∀ o, Res' (f o) → Res o} {rest : α → Prog Op' Res' β} {p : Prog Op Res α}
  {q : Prog Op' Res' β}

/-- What a first part is followed by performs none of its operations. -/
def Parted (f : Op → Op') (rest : α → Prog Op' Res' β) : Prop :=
  ∀ a, Spec free (fun _ o' => Later f o') (fun _ _ => True) (rest a) ()

/-- A program goes on in its first part, or behind it. -/
theorem phase_step (hrest : Parted f rest) {o' : Op'} {next' : Res' o' → Prog Op' Res' β}
    (h : Phase f g rest p (.perform o' next')) :
    (∃ (o : Op) (next : Res o → Prog Op Res α) (ho : f o = o'), p = .perform o next ∧
      ∀ r, Phase f g rest (next (g o r)) (next' (ho ▸ r))) ∨
      Later f o' ∧ ∀ r, Phase f g rest p (next' r) := by
  generalize hq : Prog.perform o' next' = q at h
  cases h with
  | first p =>
    cases p with
    | perform o next =>
      cases hq
      exact .inl ⟨o, next, rfl, rfl, fun r => .first _⟩
    | done a =>
      have hlater := hrest a
      change Prog.perform o' next' = rest a at hq
      rw [← hq] at hlater
      refine .inr ⟨hlater.1, fun r => .later a (t := [⟨o', r⟩]) ?_⟩
      rw [← hq]
      exact .step trivial (.refl _ _)
  | later a hrun =>
    subst hq
    exact .inr ⟨(spec_run (hrest a) hrun).1.1, fun r => .later a (hrun.trans (.step trivial (.refl _ _)))⟩
  | ended a b => cases hq

/-- At an operation that is none of a first part, the first part has come to its end. -/
theorem later_of_phase {o' : Op'} {next' : Res' o' → Prog Op' Res' β} (ho : Later f o')
    (h : Phase f g rest p (.perform o' next')) :
    ∃ a t, p = .done a ∧ Effects.Run free (rest a) () t (.perform o' next') () := by
  generalize hq : Prog.perform o' next' = q at h
  cases h with
  | first p =>
    cases p with
    | perform o next =>
      cases hq
      exact absurd rfl (ho o)
    | done a =>
      exact ⟨a, [], rfl, .refl _ _⟩
  | later a hrun => exact ⟨a, _, rfl, hrun⟩
  | ended a b => cases hq

/-- At an operation of a first part the program is at it too. -/
theorem first_of_phase {o : Op} {next : Res o → Prog Op Res α} (h : Phase f g rest (.perform o next) q) :
    ∃ next', q = .perform (f o) next' := by
  cases h with
  | first p => exact ⟨_, rfl⟩

/-- Operations of first parts are what they are among themselves, the others leave the
state, and the events of first parts can be told. -/
structure Parts (f : Op → Op') (g : ∀ o, Res' (f o) → Res o) (E : ι → Meaning Op Res σ) (E' : ι → Meaning Op' Res' σ)
    (ofEvent : Event Op' Res' → Option (Event Op Res)) : Prop where
  first : ∀ i s o r s', E' i s (f o) r s' ↔ E i s o (g o r) s'
  later : ∀ i s o' r s', Later f o' → E' i s o' r s' → s' = s
  event : ∀ o r, ofEvent ⟨f o, r⟩ = some ⟨o, g o r⟩
  other : ∀ o' r, Later f o' → ofEvent ⟨o', r⟩ = none

/-- The events of first parts. -/
def firsts (ofEvent : Event Op' Res' → Option (Event Op Res)) (H : History ι Op' Res') : History ι Op Res :=
  H.filterMap fun x => (ofEvent x.2).map fun e => (x.1, e)

variable {E : ι → Meaning Op Res σ} {E' : ι → Meaning Op' Res' σ} {N : σ → σ → Prop}
  {ofEvent : Event Op' Res' → Option (Event Op Res)} {k : ι → α → Prog Op' Res' β} {p₀ : ι → Prog Op Res α}
  {P Q : Pool ι Op' Res' β σ} {H : History ι Op' Res'}

omit [DecidableEq ι] in
theorem firsts_append (H H' : History ι Op' Res') : firsts ofEvent (H ++ H') = firsts ofEvent H ++ firsts ofEvent H' :=
  List.filterMap_append

theorem update_phases {u : ι → Prog Op Res α} {v : ι → Prog Op' Res' β} (h : ∀ j, Phase f g (k j) (u j) (v j)) {i : ι}
    {p : Prog Op Res α} {q : Prog Op' Res' β} (hi : Phase f g (k i) p q) (j : ι) :
    Phase f g (k j) (Function.update u i p j) (Function.update v i q j) := by
  by_cases hj : j = i
  · subst hj
    rw [Function.update_self, Function.update_self]
    exact hi
  · rw [Function.update_of_ne hj, Function.update_of_ne hj]
    exact h j

/-- What the first parts of a run do is a run of their own, on the same states. -/
theorem runs_first (hparts : Parts f g E E' ofEvent) (hk : ∀ i, Parted f (k i))
    (h₀ : ∀ i, Phase f g (k i) (p₀ i) (P.prog i)) (h : Runs E' N P H Q) :
    ∃ R, Runs E N ⟨p₀, P.state⟩ (firsts ofEvent H) R ∧ R.state = Q.state ∧
      ∀ i, Phase f g (k i) (R.prog i) (Q.prog i) := by
  induction h with
  | refl => exact ⟨_, .refl _, rfl, h₀⟩
  | @snoc Q Q' H u hruns hs ih =>
    obtain ⟨R, hR, hstate, hphase⟩ := ih
    rw [firsts_append]
    cases hs with
    | @env s hn =>
      exact ⟨⟨R.prog, s⟩, hR.snoc (.env (hstate ▸ hn)), rfl, hphase⟩
    | @op i o' next' r s hp he =>
      have hi := hphase i
      rw [hp] at hi
      cases phase_step (hk i) hi with
      | inl hfirst =>
        obtain ⟨o, next, rfl, hnext, hgo⟩ := hfirst
        have hevent : firsts ofEvent [(i, (⟨f o, r⟩ : Event Op' Res'))] = [(i, ⟨o, g o r⟩)] := by
          simp [firsts, hparts.event]
        rw [hevent]
        exact ⟨_, hR.snoc (.op hnext (hstate ▸ (hparts.first i _ o r s).mp he)), rfl, update_phases hphase (hgo r)⟩
      | inr hlater =>
        obtain ⟨hlater, hgo⟩ := hlater
        have hevent : firsts ofEvent [(i, (⟨o', r⟩ : Event Op' Res'))] = [] := by
          simp [firsts, hparts.other o' r hlater]
        rw [hevent, List.append_nil]
        refine ⟨R, hR, hstate.trans (hparts.later i _ o' r s hlater he).symm, ?_⟩
        have hall := update_phases hphase (hgo r)
        rw [Function.update_eq_self] at hall
        exact hall

end Phases
