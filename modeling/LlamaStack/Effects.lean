import Mathlib.Data.List.Basic

/-!
# Programs that perform operations

A program is a tree: it is done, or it performs an operation and goes on with
what the operation returns. What an operation does to the state, and what it may
return there, is a relation. The rules prove what holds whenever a program
performs an operation and when it is done.
-/
namespace Effects

/-- `Res o` is what the operation `o` returns. -/
inductive Prog (Op : Type) (Res : Op → Type) (α : Type) where
  | done (a : α)
  | perform (o : Op) (next : Res o → Prog Op Res α)

/-- An operation that was performed, and what it returned. -/
structure Event (Op : Type) (Res : Op → Type) where
  op : Op
  res : Res op

variable {Op : Type} {Res : Op → Type} {α β σ : Type}

def Prog.bind : Prog Op Res α → (α → Prog Op Res β) → Prog Op Res β
  | .done a, f => f a
  | .perform o next, f => .perform o fun r => (next r).bind f

instance : Monad (Prog Op Res) where
  pure := .done
  bind := .bind

/-- The program of one operation. -/
def op (o : Op) : Prog Op Res (Res o) := .perform o .done

@[simp] theorem pure_def (a : α) : (pure a : Prog Op Res α) = .done a := rfl
@[simp] theorem done_bind (a : α) (f : α → Prog Op Res β) : Prog.done a >>= f = f a := rfl
@[simp] theorem perform_bind (o : Op) (next : Res o → Prog Op Res α) (f : α → Prog Op Res β) :
    Prog.perform o next >>= f = .perform o fun r => next r >>= f := rfl
@[simp] theorem op_bind (o : Op) (f : Res o → Prog Op Res β) : op o >>= f = .perform o f := rfl

/-- The program with every operation taken for one of another kind. -/
def Prog.lift {Op' : Type} {Res' : Op' → Type} (f : Op → Op') (g : ∀ o, Res' (f o) → Res o) :
    Prog Op Res α → Prog Op' Res' α
  | .done a => .done a
  | .perform o next => .perform (f o) fun r => (next (g o r)).lift f g

section Lift

variable {Op' : Type} {Res' : Op' → Type} {f : Op → Op'} {g : ∀ o, Res' (f o) → Res o}

@[simp] theorem lift_done (a : α) : (Prog.done a : Prog Op Res α).lift f g = .done a := rfl

@[simp] theorem lift_perform (o : Op) (next : Res o → Prog Op Res α) :
    (Prog.perform o next).lift f g = .perform (f o) fun r => (next (g o r)).lift f g := rfl

@[simp] theorem lift_op (o : Op) :
    (op o : Prog Op Res (Res o)).lift f g = .perform (f o) fun r => .done (g o r) := rfl

theorem lift_bind (p : Prog Op Res α) (k : α → Prog Op Res β) :
    (p >>= k).lift f g = p.lift f g >>= fun a => (k a).lift f g := by
  induction p with
  | done a => rfl
  | perform o next ih =>
    rw [perform_bind, lift_perform, lift_perform, perform_bind]
    congr 1
    funext r
    exact ih _

theorem lift_lift {Op'' : Type} {Res'' : Op'' → Type} {f' : Op' → Op''}
    {g' : ∀ o, Res'' (f' o) → Res' o} (p : Prog Op Res α) :
    (p.lift f g).lift f' g' = p.lift (fun o => f' (f o)) fun o r => g o (g' (f o) r) := by
  induction p with
  | done a => rfl
  | perform o next ih =>
    rw [lift_perform, lift_perform, lift_perform]
    congr 1
    funext r
    exact ih _

end Lift

/-! ## Runs -/

/-- What operations do: the state before, what is returned, the state after. -/
abbrev Meaning (Op : Type) (Res : Op → Type) (σ : Type) := σ → (o : Op) → Res o → σ → Prop

variable (E : Meaning Op Res σ)

/-- A program has performed the events of a trace, and what is left of it. -/
inductive Run : Prog Op Res α → σ → List (Event Op Res) → Prog Op Res α → σ → Prop where
  | refl (p : Prog Op Res α) (s : σ) : Run p s [] p s
  | step {o : Op} {next : Res o → Prog Op Res α} {r : Res o} {s s₁ s' : σ}
      {t : List (Event Op Res)} {p' : Prog Op Res α} :
      E s o r s₁ → Run (next r) s₁ t p' s' → Run (.perform o next) s (⟨o, r⟩ :: t) p' s'

variable {E}

theorem Run.trans {p q u : Prog Op Res α} {s s₁ s₂ : σ} {t t' : List (Event Op Res)}
    (h : Run E p s t q s₁) (h' : Run E q s₁ t' u s₂) : Run E p s (t ++ t') u s₂ := by
  induction h with
  | refl => exact h'
  | step he _ ih => exact .step he (ih h')

theorem run_done {a : α} {s s' : σ} {t : List (Event Op Res)} {p : Prog Op Res α}
    (h : Run E (.done a) s t p s') : t = [] ∧ p = .done a ∧ s' = s := by
  cases h
  exact ⟨rfl, rfl, rfl⟩

theorem run_nil {p q : Prog Op Res α} {s s' : σ} (h : Run E p s [] q s') : q = p ∧ s' = s := by
  cases h
  exact ⟨rfl, rfl⟩

/-- A run of a sequence is still in its first part, or has come to the second. -/
theorem run_bind {p : Prog Op Res α} {f : α → Prog Op Res β} {s s' : σ}
    {t : List (Event Op Res)} {q : Prog Op Res β} (h : Run E (p >>= f) s t q s') :
    (∃ p', Run E p s t p' s' ∧ q = p' >>= f) ∨
      ∃ a t₁ t₂ s₁, t = t₁ ++ t₂ ∧ Run E p s t₁ (.done a) s₁ ∧ Run E (f a) s₁ t₂ q s' := by
  induction p generalizing s t with
  | done a => exact .inr ⟨a, [], t, s, rfl, .refl _ _, h⟩
  | perform o next ih =>
    rw [perform_bind] at h
    cases h with
    | refl => exact .inl ⟨_, .refl _ _, rfl⟩
    | step he hrest =>
      cases ih _ hrest with
      | inl hfirst =>
        obtain ⟨p', hp, hq⟩ := hfirst
        exact .inl ⟨p', .step he hp, hq⟩
      | inr hsecond =>
        obtain ⟨a, t₁, t₂, s₁, ht, h₁, h₂⟩ := hsecond
        exact .inr ⟨a, _ :: t₁, t₂, s₁, by rw [ht, List.cons_append], .step he h₁, h₂⟩

theorem Run.bind {p : Prog Op Res α} {f : α → Prog Op Res β} {a : α} {s s₁ s' : σ}
    {t t' : List (Event Op Res)} {q : Prog Op Res β} (h : Run E p s t (.done a) s₁)
    (h' : Run E (f a) s₁ t' q s') : Run E (p >>= f) s (t ++ t') q s' := by
  induction p generalizing s t with
  | done b =>
    obtain ⟨rfl, hb, rfl⟩ := run_done h
    cases hb
    exact h'
  | perform o next ih =>
    cases h with
    | step he hrest => exact .step he (ih _ hrest)

/-- A run of a sequence to its end comes to the end of its first part. -/
theorem run_bind_done {p : Prog Op Res α} {f : α → Prog Op Res β} {s s' : σ} {t : List (Event Op Res)} {b : β}
    (h : Run E (p >>= f) s t (.done b) s') :
    ∃ a t₁ t₂ s₁, t = t₁ ++ t₂ ∧ Run E p s t₁ (.done a) s₁ ∧ Run E (f a) s₁ t₂ (.done b) s' := by
  cases run_bind h with
  | inr hsecond => exact hsecond
  | inl hfirst =>
    obtain ⟨p', hp, hdone⟩ := hfirst
    cases p' with
    | perform o next => cases hdone
    | done a =>
      rw [done_bind] at hdone
      exact ⟨a, t, [], s', (List.append_nil t).symm, hp, hdone ▸ .refl _ _⟩

/-- What is left of the first program stands before the second. -/
theorem Run.bind_left {p p' : Prog Op Res α} {f : α → Prog Op Res β} {s s' : σ} {t : List (Event Op Res)}
    (h : Run E p s t p' s') : Run E (p >>= f) s t (p' >>= f) s' := by
  induction h with
  | refl => exact .refl _ _
  | step he _ ih => exact .step he ih

/-- A run among operations of another kind, each with a result that stands for
the one it had. -/
theorem Run.lift {Op' : Type} {Res' : Op' → Type} (E' : Meaning Op' Res' σ) (f : Op → Op')
    (g : ∀ o, Res' (f o) → Res o) (back : ∀ o, Res o → Res' (f o)) (hg : ∀ o r, g o (back o r) = r)
    (hE : ∀ s o r s', E s o r s' → E' s (f o) (back o r) s') {p p' : Prog Op Res α} {s s' : σ}
    {t : List (Event Op Res)} (h : Run E p s t p' s') :
    Run E' (p.lift f g) s (t.map fun e => ⟨f e.op, back e.op e.res⟩) (p'.lift f g) s' := by
  induction h with
  | refl => exact .refl _ _
  | step he _ ih =>
    apply Run.step (hE _ _ _ _ he)
    rw [hg]
    exact ih

theorem ops_of_lift {Op' : Type} {Res' : Op' → Type} {f : Op → Op'} {g : ∀ o, Res' (f o) → Res o}
    {E' : Meaning Op' Res' σ} {p : Prog Op Res α} {q : Prog Op' Res' α} {s s' : σ}
    {t : List (Event Op' Res')} (h : Run E' (p.lift f g) s t q s') : ∀ e ∈ t, ∃ o, e.op = f o := by
  induction p generalizing s t with
  | done a => simp [(run_done h).1]
  | perform o next ih =>
    cases h with
    | refl => simp
    | step he hrest =>
      intro e hmem
      cases List.mem_cons.mp hmem with
      | inl hhead => exact ⟨o, hhead ▸ rfl⟩
      | inr htail => exact ih _ hrest e htail

/-! ## Rules -/

/-- Every operation is performed in a state that allows it, and at the end the
result and the state are as required. -/
def Spec (E : Meaning Op Res σ) (G : σ → Op → Prop) (Q : α → σ → Prop) : Prog Op Res α → σ → Prop
  | .done a, s => Q a s
  | .perform o next, s => G s o ∧ ∀ r s', E s o r s' → Spec E G Q (next r) s'

variable {G G' : σ → Op → Prop} {Q Q' : α → σ → Prop}

theorem spec_mono (hG : ∀ s o, G s o → G' s o) (hQ : ∀ a s, Q a s → Q' a s)
    {p : Prog Op Res α} {s : σ} (h : Spec E G Q p s) : Spec E G' Q' p s := by
  induction p generalizing s with
  | done a => exact hQ a s h
  | perform o next ih => exact ⟨hG s o h.1, fun r s' he => ih r (h.2 r s' he)⟩

theorem spec_op {Q : β → σ → Prop} {o : Op} {f : Res o → Prog Op Res β} {s : σ} (hG : G s o)
    (h : ∀ r s', E s o r s' → Spec E G Q (f r) s') : Spec E G Q (op o >>= f) s := ⟨hG, h⟩

theorem spec_bind {Q : β → σ → Prop} {p : Prog Op Res α} {f : α → Prog Op Res β} {s : σ}
    (h : Spec E G (fun a s' => Spec E G Q (f a) s') p s) : Spec E G Q (p >>= f) s := by
  induction p generalizing s with
  | done a => exact h
  | perform o next ih => exact ⟨h.1, fun r s' he => ih r (h.2 r s' he)⟩

/-- A program among operations of another kind does what it does on its own part
of the state, and the rest of the state keeps what the operations keep. -/
theorem spec_lift {Op' τ : Type} {Res' : Op' → Type} {f : Op → Op'} {g : ∀ o, Res' (f o) → Res o}
    {E' : Meaning Op' Res' τ} {part : τ → σ} {F : τ → Prop}
    (hE : ∀ s o r s', F s → E' s (f o) r s' → E (part s) o (g o r) (part s') ∧ F s')
    {p : Prog Op Res α} {s : τ} (h : Spec E G Q p (part s)) (hF : F s) :
    Spec E' (fun s o' => F s ∧ ∃ o, o' = f o ∧ G (part s) o) (fun a s => F s ∧ Q a (part s))
      (p.lift f g) s := by
  induction p generalizing s with
  | done a => exact ⟨hF, h⟩
  | perform o next ih =>
    refine ⟨⟨hF, o, rfl, h.1⟩, fun r s' he => ?_⟩
    obtain ⟨he, hF'⟩ := hE s o r s' hF he
    exact ih (g o r) (h.2 _ _ he) hF'

/-- What holds of a program holds of what a run leaves of it, and every event of
the run was allowed. -/
theorem spec_run {p p' : Prog Op Res α} {s s' : σ} {t : List (Event Op Res)}
    (h : Spec E G Q p s) (hr : Run E p s t p' s') :
    Spec E G Q p' s' ∧ ∀ e ∈ t, ∃ s₁, G s₁ e.op := by
  induction hr with
  | refl => exact ⟨h, by simp⟩
  | step he _ ih =>
    obtain ⟨h₁, h₂⟩ := ih (h.2 _ _ he)
    refine ⟨h₁, fun e hmem => ?_⟩
    cases List.mem_cons.mp hmem with
    | inl he => exact he ▸ ⟨_, h.1⟩
    | inr ht => exact h₂ e ht

/-- Whenever a run performs an operation it is in a state that allows it. -/
theorem spec_event {p p' : Prog Op Res α} {s s' : σ} {t : List (Event Op Res)}
    (h : Spec E G Q p s) (hr : Run E p s t p' s') :
    ∀ t₁ e t₂, t = t₁ ++ e :: t₂ → ∃ q s₁, Run E p s t₁ q s₁ ∧ G s₁ e.op := by
  induction hr with
  | refl =>
    intro t₁ e t₂ ht
    simp at ht
  | step he _ ih =>
    intro t₁ e t₂ ht
    cases t₁ with
    | nil =>
      have hhead := (List.cons.inj ht).1
      subst hhead
      exact ⟨_, _, .refl _ _, h.1⟩
    | cons e₁ t₁ =>
      have hhead := (List.cons.inj ht).1
      subst hhead
      obtain ⟨q, s₁, hq, hG⟩ := ih (h.2 _ _ he) t₁ e t₂ (List.cons.inj ht).2
      exact ⟨q, s₁, .step he hq, hG⟩

/-! ## Histories -/

/-- The state together with all events so far. -/
def traced (E : Meaning Op Res σ) : Meaning Op Res (σ × List (Event Op Res)) :=
  fun s o r s' => E s.1 o r s'.1 ∧ s'.2 = s.2 ++ [⟨o, r⟩]

theorem run_traced {p p' : Prog Op Res α} {s s' : σ} {t : List (Event Op Res)}
    (hr : Run E p s t p' s') (h : List (Event Op Res)) :
    Run (traced E) p (s, h) t p' (s', h ++ t) := by
  induction hr generalizing h with
  | refl =>
    rw [List.append_nil]
    exact .refl _ _
  | @step o next r s s₁ s' t p' he _ ih =>
    have hrest := ih (h ++ [⟨o, r⟩])
    rw [List.append_assoc, List.singleton_append] at hrest
    exact .step ⟨he, rfl⟩ hrest

theorem run_of_traced {p p' : Prog Op Res α} {s s' : σ × List (Event Op Res)}
    {t : List (Event Op Res)} (hr : Run (traced E) p s t p' s') :
    Run E p s.1 t p' s'.1 ∧ s'.2 = s.2 ++ t := by
  induction hr with
  | refl => exact ⟨.refl _ _, (List.append_nil _).symm⟩
  | step he _ ih =>
    refine ⟨.step he.1 ih.1, ?_⟩
    rw [ih.2, he.2, List.append_assoc, List.singleton_append]

/-- What is proved of a program with its history holds of every run: of what is
left, with the trace for a history, and of every event, with those before it. -/
theorem spec_traced {G : σ × List (Event Op Res) → Op → Prop}
    {Q : α → σ × List (Event Op Res) → Prop} {p p' : Prog Op Res α} {s s' : σ}
    {t : List (Event Op Res)} (h : Spec (traced E) G Q p (s, [])) (hr : Run E p s t p' s') :
    Spec (traced E) G Q p' (s', t) ∧
      ∀ t₁ e t₂, t = t₁ ++ e :: t₂ → ∃ q s₁, Run E p s t₁ q s₁ ∧ G (s₁, t₁) e.op := by
  have ht := run_traced hr []
  rw [List.nil_append] at ht
  refine ⟨(spec_run h ht).1, fun t₁ e t₂ he => ?_⟩
  obtain ⟨q, s₁, hq, hG⟩ := spec_event h ht t₁ e t₂ he
  obtain ⟨hrun, hs⟩ := run_of_traced hq
  rw [List.nil_append] at hs
  exact ⟨q, s₁.1, hrun, hs ▸ hG⟩

/-- A run stays in every preorder that its operations stay in. -/
theorem spec_rel {R : σ → σ → Prop} (hrefl : ∀ s, R s s) (htrans : ∀ {a b c}, R a b → R b c → R a c)
    (hG : ∀ s o, G s o → ∀ r s', E s o r s' → R s s') {p p' : Prog Op Res α} {s s' : σ}
    {t : List (Event Op Res)} (h : Spec E G Q p s) (hr : Run E p s t p' s') : R s s' := by
  induction hr with
  | refl => exact hrefl _
  | step he _ ih => exact htrans (hG _ _ h.1 _ _ he) (ih (h.2 _ _ he))

/-- What both the operations and the result require holds in every state. -/
theorem spec_state {I : σ → Prop} (hG : ∀ s o, G s o → I s) (hQ : ∀ a s, Q a s → I s)
    {p : Prog Op Res α} {s : σ} (h : Spec E G Q p s) : I s := by
  cases p with
  | done a => exact hQ a s h
  | perform o next => exact hG s o h.1

/-! ## Two states -/

/-- What is left of a program depends on its events alone. -/
theorem run_residual {τ : Type} {E' : Meaning Op Res τ} {p q q' : Prog Op Res α} {s s' : σ} {u u' : τ}
    {t : List (Event Op Res)} (h : Run E p s t q s') (h' : Run E' p u t q' u') : q = q' := by
  induction h generalizing u with
  | refl =>
    cases h'
    rfl
  | step _ _ ih =>
    cases h' with
    | step _ h' => exact ih h'

/-- Operations that act on two states at once. -/
def both {τ : Type} (E : Meaning Op Res σ) (E' : Meaning Op Res τ) : Meaning Op Res (σ × τ) :=
  fun s o r s' => E s.1 o r s'.1 ∧ E' s.2 o r s'.2

theorem run_both {τ : Type} {E' : Meaning Op Res τ} {p q q' : Prog Op Res α} {s s' : σ} {u u' : τ}
    {t : List (Event Op Res)} (h : Run E p s t q s') (h' : Run E' p u t q' u') :
    Run (both E E') p (s, u) t q (s', u') := by
  induction h generalizing u with
  | refl =>
    cases h'
    exact .refl _ _
  | step he _ ih =>
    cases h' with
    | step he' h' => exact .step ⟨he, he'⟩ (ih h')

theorem spec_both {τ : Type} {E' : Meaning Op Res τ} {G' : τ → Op → Prop} {Q' : α → τ → Prop} {p : Prog Op Res α}
    {s : σ} {u : τ} (h : Spec E G Q p s) (h' : Spec E' G' Q' p u) :
    Spec (both E E') (fun x o => G x.1 o ∧ G' x.2 o) (fun a x => Q a x.1 ∧ Q' a x.2) p (s, u) := by
  induction p generalizing s u with
  | done a => exact ⟨h, h'⟩
  | perform o next ih => exact ⟨⟨h.1, h'.1⟩, fun r x he => ih r (h.2 r _ he.1) (h'.2 r _ he.2)⟩

/-- A state that every event changes in one way. -/
def follows {τ : Type} (step : τ → Event Op Res → τ) : Meaning Op Res τ := fun u o r u' => u' = step u ⟨o, r⟩

theorem run_follows {τ : Type} (step : τ → Event Op Res → τ) {p q : Prog Op Res α} {s s' : σ}
    {t : List (Event Op Res)} (h : Run E p s t q s') (u : τ) : Run (follows step) p u t q (t.foldl step u) := by
  induction h generalizing u with
  | refl => exact .refl _ _
  | step _ _ ih => exact .step rfl (ih _)

/-- A state that every event changes in one way, where only some events can be. -/
def informed {τ : Type} (step : τ → Event Op Res → τ) (told : τ → Event Op Res → Prop) : Meaning Op Res τ :=
  fun u o r u' => u' = step u ⟨o, r⟩ ∧ told u ⟨o, r⟩

end Effects
