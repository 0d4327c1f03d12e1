import LlamaStack.DownloadMarks
import LlamaStack.ModelLocks

/-!
# Downloads one after the other

What the downloads of calls add up to when none of them begins before another ends:
no two overlap, no file is requested again, and what a call has found stays.
-/
namespace SerialDownloads

open Effects Interleaving GoBytes ModelCatalog RouterManager EnsureAvailable ModelLocks DownloaderAtomicity
  DownloadMarks

/-! ## The downloads of a history -/

/-- The operation of the downloader that an event is. -/
def ofEvent : Event Op Op.Res → Option (Event HfDownloader.Op HfDownloader.Op.Res)
  | ⟨.download o, r⟩ => some ⟨o, r⟩
  | _ => none

def asEvent (e : Event HfDownloader.Op HfDownloader.Op.Res) : Event Op Op.Res := ⟨.download e.op, e.res⟩

theorem ofEvent_asEvent (t : List (Event HfDownloader.Op HfDownloader.Op.Res)) :
    (t.map asEvent).filterMap ofEvent = t := by
  rw [List.filterMap_map]
  exact List.filterMap_some

theorem ofEvent_enter (ref : Text) (m : Nat) (t : List (Event Op Op.Res)) :
    List.filterMap ofEvent (⟨.lockFor ref, m⟩ :: ⟨.lock m, ()⟩ :: t) = t.filterMap ofEvent := rfl

theorem ofEvent_leave (m : Nat) (t : List (Event Op Op.Res)) :
    List.filterMap ofEvent (t ++ [⟨.unlock m, ()⟩]) = t.filterMap ofEvent := by
  rw [List.filterMap_append]
  exact List.append_nil _

variable {ι : Type} [DecidableEq ι]

def downloads (H : History ι Op Op.Res) : History ι HfDownloader.Op HfDownloader.Op.Res :=
  H.filterMap fun x => (ofEvent x.2).map fun e => (x.1, e)

variable {H : History ι Op Op.Res}

omit [DecidableEq ι] in
@[simp] theorem downloads_append (H H' : History ι Op Op.Res) : downloads (H ++ H') = downloads H ++ downloads H' :=
  List.filterMap_append

omit [DecidableEq ι] in
theorem downloads_alone (i : ι) (t : List (Event Op Op.Res)) :
    downloads (t.map fun e => (i, e)) = (t.filterMap ofEvent).map fun e => (i, e) := by
  rw [downloads, List.filterMap_map, List.map_filterMap]
  rfl

theorem own_downloads (i : ι) (H : History ι Op Op.Res) : own i (downloads H) = (own i H).filterMap ofEvent := by
  rw [downloads, own, own, List.filterMap_filterMap, List.filterMap_filterMap]
  congr 1
  funext x
  by_cases hx : x.1 = i
  · cases he : ofEvent x.2 <;> simp [hx, he]
  · cases he : ofEvent x.2 <;> simp [hx]

/-! ## The download of one call -/

variable {go : HfDownloader.Library} {cat : Catalog} {cfg : Config} {cm : Model}
  {q : EnsureAvailable.Run (Option Error)} {t : List (Event Op Op.Res)}

theorem run_downloading {α : Type} {p : HfDownloader.Run α} {q : EnsureAvailable.Run α}
    (h : Effects.Run free (downloading p) () t q ()) :
    ∃ td p', t = td.map asEvent ∧ Effects.Run free p () td p' () ∧ q = downloading p' := by
  induction p generalizing t with
  | done a =>
    obtain ⟨rfl, rfl, -⟩ := run_done h
    exact ⟨[], .done a, rfl, .refl _ _, rfl⟩
  | perform o next ih =>
    cases h with
    | refl => exact ⟨[], .perform o next, rfl, .refl _ _, rfl⟩
    | step _ hrest =>
      obtain ⟨td, p', rfl, hp, hq⟩ := ih _ hrest
      exact ⟨⟨o, _⟩ :: td, p', rfl, .step trivial hp, hq⟩

/-- The call is in its download, or has come to what follows. -/
theorem download_of_run (h : Effects.Run free (ensureLocked go cfg cm) () t q ()) :
    ∃ td p, t.filterMap ofEvent = td ∧ Effects.Run free (HfDownloader.ensure go cfg.modelsDir cm) () td p () ∧
      (t = td.map asEvent ∧ q = downloading p >>= checking cm ∨
        ∃ r t', p = .done r ∧ t = td.map asEvent ++ t' ∧ Effects.Run free (checking cm r) () t' q ()) := by
  rw [ensureLocked_eq] at h
  cases run_bind h with
  | inl h =>
    obtain ⟨q', hq, rfl⟩ := h
    obtain ⟨td, p, rfl, hp, rfl⟩ := run_downloading hq
    exact ⟨td, p, ofEvent_asEvent td, hp, .inl ⟨rfl, rfl⟩⟩
  | inr h =>
    obtain ⟨r, t₁, t₂, _, rfl, h₁, h₂⟩ := h
    obtain ⟨td, p, rfl, hp, hq⟩ := run_downloading h₁
    have hdone : p = .done r := by
      cases p with
      | done r' =>
        cases hq
        rfl
      | perform o next => cases hq
    have hquiet : t₂.filterMap ofEvent = [] := by
      rw [List.filterMap_eq_nil_iff]
      intro e he
      obtain ⟨_, ho⟩ := (spec_run (checking_quiet r) h₂).2 e he
      obtain ⟨o, res⟩ := e
      rcases ho with rfl | rfl <;> rfl
    refine ⟨td, p, ?_, hp, .inr ⟨r, t₂, hdone, rfl, h₂⟩⟩
    rw [List.filterMap_append, hquiet, ofEvent_asEvent, List.append_nil]

/-- A call performs the downloader's next operation. -/
theorem download_of_perform {o : HfDownloader.Op} {next : Op.Res (.download o) → EnsureAvailable.Run (Option Error)}
    (h : Effects.Run free (ensureLocked go cfg cm) () t (.perform (.download o) next) ()) :
    ∃ next', Effects.Run free (HfDownloader.ensure go cfg.modelsDir cm) () (t.filterMap ofEvent)
      (.perform o next') () := by
  obtain ⟨td, p, rfl, hp, hcase⟩ := download_of_run h
  cases hcase with
  | inl hcase =>
    obtain ⟨-, hq⟩ := hcase
    cases p with
    | perform o' next' =>
      cases hq
      exact ⟨next', hp⟩
    | done r =>
      have hquiet : Spec free (fun _ o => o = .ctxErr ∨ o = .models) (fun _ _ => True) (checking cm r) () :=
        checking_quiet r
      change Prog.perform (.download o) next = checking cm r at hq
      rw [← hq] at hquiet
      cases hquiet.1 with
      | inl ho => cases ho
      | inr ho => cases ho
  | inr hcase =>
    obtain ⟨r, t', -, -, hrest⟩ := hcase
    cases (spec_run (checking_quiet r) hrest).1.1 with
    | inl ho => cases ho
    | inr ho => cases ho

/-- A call that has come to a result has come to the end of its download. -/
theorem download_of_done {err : Option Error}
    (h : Effects.Run free (ensureLocked go cfg cm) () t (.done err) ()) :
    ∃ r t', Effects.Run free (HfDownloader.ensure go cfg.modelsDir cm) () (t.filterMap ofEvent) (.done r) () ∧
      t = (t.filterMap ofEvent).map asEvent ++ t' ∧ Effects.Run free (checking cm r) () t' (.done err) () := by
  obtain ⟨td, p, rfl, hp, hcase⟩ := download_of_run h
  cases hcase with
  | inl hcase =>
    obtain ⟨ht, hq⟩ := hcase
    cases p with
    | perform o next => cases hq
    | done r =>
      refine ⟨r, [], hp, by rw [List.append_nil]; exact ht, ?_⟩
      change Prog.done err = checking cm r at hq
      rw [← hq]
      exact .refl _ _
  | inr hcase =>
    obtain ⟨r, t', rfl, ht, hrest⟩ := hcase
    exact ⟨r, t', hp, ht, hrest⟩

theorem checks_of_none {r : Except HfDownloader.Error Text}
    (h : Effects.Run free (checking cm r) () t (.done none) ()) :
    ∃ found resp, r = .ok found ∧ t = [⟨.ctxErr, none⟩, ⟨.models, .ok resp⟩] ∧
      modelsResponseHas resp cm.ref = true := by
  cases r with
  | error err => cases h
  | ok found =>
    cases h with
    | @step _ _ err _ _ _ t _ _ h =>
      cases err with
      | some err => cases h
      | none =>
        cases h with
        | @step _ _ resp _ _ _ t _ _ h =>
          cases resp with
          | error err => cases h
          | ok resp =>
            cases hhas : modelsResponseHas resp cm.ref with
            | false =>
              simp only [Prog.bind, pure, hhas] at h
              cases h
            | true =>
              simp only [Prog.bind, pure, hhas] at h
              obtain ⟨rfl, -, -⟩ := run_done h
              exact ⟨found, resp, rfl, rfl, hhas⟩

/-! ## One after the other -/

/-- Downloads that come one after the other, each to its end, of calls that all are different. -/
inductive Serial (go : HfDownloader.Library) (modelsDir : Text) (cm : Model) (w₀ : HfDownloader.World) :
    List ι → History ι HfDownloader.Op HfDownloader.Op.Res → HfDownloader.World → Prop where
  | nil : Serial go modelsDir cm w₀ [] [] w₀
  | call {is : List ι} {D : History ι HfDownloader.Op HfDownloader.Op.Res} {w w' : HfDownloader.World} {i : ι}
      {t : List (Event HfDownloader.Op HfDownloader.Op.Res)} {r : Except HfDownloader.Error Text} :
      Serial go modelsDir cm w₀ is D w → i ∉ is →
      Effects.Run HfDownloader.effect (HfDownloader.ensure go modelsDir cm) w t (.done r) w' →
      Serial go modelsDir cm w₀ (i :: is) (D ++ t.map fun e => (i, e)) w'

/-- The last of the downloads may be under way. -/
inductive Ordered (go : HfDownloader.Library) (modelsDir : Text) (cm : Model) (w₀ : HfDownloader.World) :
    History ι HfDownloader.Op HfDownloader.Op.Res → HfDownloader.World → Prop where
  | idle {is : List ι} {D : History ι HfDownloader.Op HfDownloader.Op.Res} {w : HfDownloader.World} :
      Serial go modelsDir cm w₀ is D w → Ordered go modelsDir cm w₀ D w
  | busy {is : List ι} {D : History ι HfDownloader.Op HfDownloader.Op.Res} {w w' : HfDownloader.World} {i : ι}
      {t : List (Event HfDownloader.Op HfDownloader.Op.Res)} {p : HfDownloader.Run (Except HfDownloader.Error Text)} :
      Serial go modelsDir cm w₀ is D w → i ∉ is →
      Effects.Run HfDownloader.effect (HfDownloader.ensure go modelsDir cm) w t p w' →
      Ordered go modelsDir cm w₀ (D ++ t.map fun e => (i, e)) w'

section Order

variable {modelsDir : Text} {w₀ w w' : HfDownloader.World} {is : List ι}
  {D : History ι HfDownloader.Op HfDownloader.Op.Res} {i j : ι}

theorem Serial.own_nil (h : Serial go modelsDir cm w₀ is D w) (hi : i ∉ is) : own i D = [] := by
  induction h with
  | nil => rfl
  | @call is D w w' k t r _ _ _ ih =>
    rw [List.mem_cons, not_or] at hi
    rw [own_append, ih hi.2, own_alone, if_neg (Ne.symm hi.1)]
    rfl

/-- The download of a call, alone. -/
theorem Serial.run (h : Serial go modelsDir cm w₀ is D w) (hi : i ∈ is) :
    ∃ w₁ r w₂, Effects.Run HfDownloader.effect (HfDownloader.ensure go modelsDir cm) w₁ (own i D) (.done r) w₂ := by
  induction h with
  | nil => cases hi
  | @call is D w w' k t r hserial hk hrun ih =>
    rw [own_append, own_alone]
    by_cases hik : k = i
    · subst hik
      rw [if_pos rfl, hserial.own_nil hk]
      exact ⟨w, r, w', hrun⟩
    · rw [if_neg hik, List.append_nil]
      exact ih ((List.mem_cons.mp hi).resolve_left (Ne.symm hik))

/-- A call that has not downloaded to its end is none of those that have. -/
theorem Serial.not_mem (h : Serial go modelsDir cm w₀ is D w) {o : HfDownloader.Op}
    {next : o.Res → HfDownloader.Run (Except HfDownloader.Error Text)}
    (hj : Effects.Run free (HfDownloader.ensure go modelsDir cm) () (own j D) (.perform o next) ()) : j ∉ is := by
  intro hmem
  obtain ⟨_, r, _, hrun⟩ := h.run hmem
  cases run_residual hj hrun

theorem Serial.start (h : Serial go modelsDir cm w₀ is D w) {o : HfDownloader.Op} {r : o.Res}
    {next : o.Res → HfDownloader.Run (Except HfDownloader.Error Text)}
    (hj : Effects.Run free (HfDownloader.ensure go modelsDir cm) () (own j D) (.perform o next) ())
    (he : HfDownloader.effect w o r w') : Ordered go modelsDir cm w₀ (D ++ [(j, ⟨o, r⟩)]) w' := by
  have hmem : j ∉ is := h.not_mem hj
  rw [h.own_nil hmem] at hj
  have hensure : HfDownloader.ensure go modelsDir cm = .perform o next := (run_nil hj).1.symm
  have hone : Effects.Run HfDownloader.effect (HfDownloader.ensure go modelsDir cm) w [⟨o, r⟩] (next r) w' := by
    rw [hensure]
    exact .step he (.refl _ _)
  exact .busy h hmem hone

/-- The next operation of a download, while no other is under way. -/
theorem Ordered.snoc (h : Ordered go modelsDir cm w₀ D w) {o : HfDownloader.Op} {r : o.Res}
    {next : o.Res → HfDownloader.Run (Except HfDownloader.Error Text)}
    (hj : Effects.Run free (HfDownloader.ensure go modelsDir cm) () (own j D) (.perform o next) ())
    (hothers : ∀ i, i ≠ j → own i D = [] ∨
      ∃ r, Effects.Run free (HfDownloader.ensure go modelsDir cm) () (own i D) (.done r) ())
    (he : HfDownloader.effect w o r w') : Ordered go modelsDir cm w₀ (D ++ [(j, ⟨o, r⟩)]) w' := by
  cases h with
  | idle hserial => exact hserial.start hj he
  | @busy is D w₁ w i t p hserial hi hrun =>
    have hown : own i (D ++ t.map fun e => (i, e)) = t := by
      rw [own_append, own_alone, if_pos rfl, hserial.own_nil hi, List.nil_append]
    by_cases hij : i = j
    · subst hij
      rw [hown] at hj
      obtain rfl : p = .perform o next := run_residual hrun hj
      have hall := Ordered.busy hserial hi (hrun.trans (.step he (.refl _ _)))
      rw [List.map_append, ← List.append_assoc] at hall
      exact hall
    · have hsettled := hothers i hij
      rw [hown] at hsettled
      cases hsettled with
      | inl hnil =>
        subst hnil
        obtain ⟨rfl, rfl⟩ := run_nil hrun
        rw [List.map_nil, List.append_nil] at hj ⊢
        exact hserial.start hj he
      | inr hdone =>
        obtain ⟨r', hdone⟩ := hdone
        obtain rfl : p = .done r' := run_residual hrun hdone
        exact (Serial.call hserial hi hrun).start hj he

/-- The download of a call, alone, as far as it has come. -/
theorem Ordered.run (h : Ordered go modelsDir cm w₀ D w) (i : ι) :
    ∃ w₁ p w₂, Effects.Run HfDownloader.effect (HfDownloader.ensure go modelsDir cm) w₁ (own i D) p w₂ := by
  have hserial : ∀ {is D w}, Serial go modelsDir cm w₀ is D w →
      ∃ w₁ p w₂, Effects.Run HfDownloader.effect (HfDownloader.ensure go modelsDir cm) w₁ (own i D) p w₂ := by
    intro is D w h
    by_cases hi : i ∈ is
    · obtain ⟨w₁, r, w₂, hrun⟩ := h.run hi
      exact ⟨w₁, _, w₂, hrun⟩
    · rw [h.own_nil hi]
      exact ⟨w, _, w, .refl _ _⟩
  cases h with
  | idle h => exact hserial h
  | @busy is D w₁ w k t p h hk hrun =>
    rw [own_append, own_alone]
    by_cases hik : k = i
    · subst hik
      rw [if_pos rfl, h.own_nil hk]
      exact ⟨w₁, p, w, hrun⟩
    · rw [if_neg hik, List.append_nil]
      exact hserial h

/-! ## Spans -/

/-- Between two operations of one call there is none of another. -/
def Apart (D : History ι HfDownloader.Op HfDownloader.Op.Res) : Prop :=
  ∀ i j e e' e'', [(i, e), (j, e'), (i, e'')].Sublist D → i = j

theorem Serial.mem (h : Serial go modelsDir cm w₀ is D w) {x : ι × Event HfDownloader.Op HfDownloader.Op.Res}
    (hx : x ∈ D) : x.1 ∈ is := by
  by_contra hno
  have hmem : x.2 ∈ own x.1 D := mem_own.mpr hx
  rw [h.own_nil hno] at hmem
  cases hmem

omit [DecidableEq ι] in
theorem Apart.append (h : Apart D) {k : ι} {t : List (Event HfDownloader.Op HfDownloader.Op.Res)}
    (hk : ∀ x ∈ D, x.1 ≠ k) : Apart (D ++ t.map fun e => (k, e)) := by
  have hlast : ∀ x ∈ t.map fun e => (k, e), x.1 = k := by
    intro x hx
    obtain ⟨e, -, rfl⟩ := List.mem_map.mp hx
    rfl
  intro i j e e' e'' hsub
  obtain ⟨l₁, l₂, heq, h₁, h₂⟩ := List.sublist_append_iff.mp hsub
  cases l₂ using List.reverseRecOn with
  | nil =>
    rw [List.append_nil] at heq
    exact h i j e e' e'' (heq ▸ h₁)
  | append_singleton l₂ x =>
    rw [← List.append_assoc] at heq
    obtain ⟨hinit, hx⟩ : [(i, e), (j, e')] = l₁ ++ l₂ ∧ [(i, e'')] = [x] := List.append_inj' heq rfl
    obtain rfl : (i, e'') = x := (List.cons.inj hx).1
    have hi : i = k := hlast (i, e'') (h₂.subset (by simp))
    have hmid : (j, e') ∈ l₂ := by
      cases l₁ with
      | nil =>
        rw [List.nil_append] at hinit
        rw [← hinit]
        simp
      | cons y l₁ =>
        rw [List.cons_append] at hinit
        obtain rfl : (i, e) = y := (List.cons.inj hinit).1
        exact absurd hi (hk (i, e) (h₁.subset (by simp)))
    have hj : j = k := hlast (j, e') (h₂.subset (List.mem_append_left _ hmid))
    exact hi.trans hj.symm

theorem Serial.apart (h : Serial go modelsDir cm w₀ is D w) : Apart D := by
  induction h with
  | nil =>
    intro i j e e' e'' hsub
    cases hsub
  | call hserial hi _ ih => exact ih.append fun x hx hk => hi (hk ▸ hserial.mem hx)

theorem Ordered.apart (h : Ordered go modelsDir cm w₀ D w) : Apart D := by
  cases h with
  | idle hserial => exact hserial.apart
  | busy hserial hi _ => exact hserial.apart.append fun x hx hk => hi (hk ▸ hserial.mem hx)

/-! ## Marks -/

/-- The log of a history. -/
def logOf (D : History ι HfDownloader.Op HfDownloader.Op.Res) : Log ι := D.foldl Log.step ⟨fun _ => .main, []⟩

/-- Nothing is requested again, and what was downloaded is there. -/
structure Sound (modelsDir : Text) (cm : Model) (l : Log ι) (w : HfDownloader.World) : Prop where
  once : l.marks.Pairwise After
  there : ∀ a, .downloaded a ∈ l.marks →
    IsStable modelsDir (path modelsDir cm a) ∧ HfDownloader.Present w.files (path modelsDir cm a)

omit [DecidableEq ι] in
theorem Sound.call {l l' : Log ι} (h : Sound modelsDir cm l w) (hcall : Call modelsDir cm w l (w', l')) :
    Sound modelsDir cm l' w' := by
  obtain ⟨d, hd, honce, hmissing, hthere⟩ := hcall.marks
  change l'.marks = l.marks ++ d at hd
  constructor
  · rw [hd, List.pairwise_append]
    refine ⟨h.once, honce, ?_⟩
    rintro x hx y hy a rfl
    have hpresent := (h.there a hx).2
    constructor
    · rintro rfl
      exact (hmissing a (.inl hy)).2 hpresent
    · rintro rfl
      exact (hmissing a (.inr hy)).2 hpresent
  · intro a ha
    rw [hd] at ha
    cases List.mem_append.mp ha with
    | inl ha =>
      obtain ⟨hstable, hpresent⟩ := h.there a ha
      exact ⟨hstable, hcall.lasting _ hstable hpresent⟩
    | inr ha => exact ⟨(hmissing a (.inr ha)).1, hthere a ha⟩

theorem call_of_run (hm : cm.validate = .ok ()) {t : List (Event HfDownloader.Op HfDownloader.Op.Res)}
    {p : HfDownloader.Run (Except HfDownloader.Error Text)}
    (h : Effects.Run HfDownloader.effect (HfDownloader.ensure go modelsDir cm) w t p w') :
    Call modelsDir cm w (logOf D) (w', logOf (D ++ t.map fun e => (i, e))) := by
  have hboth := run_both h (run_follows (fun l e => l.step (i, e)) h (logOf D))
  have hlog : logOf (D ++ t.map fun e => (i, e)) = t.foldl (fun l e => l.step (i, e)) (logOf D) := by
    rw [logOf, List.foldl_append, List.foldl_map]
    rfl
  rw [hlog]
  have hend := (spec_run (ensure_call go hm) hboth).1
  exact spec_state (I := fun s => Call modelsDir cm w (logOf D) s) (fun s _ hs => hs) (fun _ s hs => hs) hend

theorem Serial.sound (hm : cm.validate = .ok ()) (h : Serial go modelsDir cm w₀ is D w) :
    Sound modelsDir cm (logOf D) w := by
  induction h with
  | nil => exact ⟨.nil, by simp [logOf]⟩
  | call _ _ hrun ih => exact ih.call (call_of_run hm hrun)

theorem Ordered.sound (hm : cm.validate = .ok ()) (h : Ordered go modelsDir cm w₀ D w) :
    Sound modelsDir cm (logOf D) w := by
  cases h with
  | idle hserial => exact hserial.sound hm
  | busy hserial _ hrun => exact (hserial.sound hm).call (call_of_run hm hrun)

/-! ## Files that a call has found or made -/

theorem required_of_lasting (hm : cm.validate = .ok ()) (hw : Required modelsDir cm w.files)
    (hlasting : Lasting modelsDir w w') : Required modelsDir cm w'.files :=
  ⟨hlasting _ (isStable_main modelsDir hm) hw.1,
    fun hj => hlasting _ (isStable_mmproj modelsDir hm hj) (hw.2 hj)⟩

theorem required_of_run (hm : cm.validate = .ok ()) {t : List (Event HfDownloader.Op HfDownloader.Op.Res)}
    {found : Text}
    (h : Effects.Run HfDownloader.effect (HfDownloader.ensure go modelsDir cm) w t (.done (.ok found)) w') :
    Required modelsDir cm w'.files := (spec_run (ensure_required go hm w) h).1 ⟨found, rfl⟩

/-- The files of a call whose download has succeeded are there from then on. -/
theorem Serial.required (hm : cm.validate = .ok ()) (h : Serial go modelsDir cm w₀ is D w) {found : Text}
    (hi : Effects.Run free (HfDownloader.ensure go modelsDir cm) () (own i D) (.done (.ok found)) ()) (hmem : i ∈ is) :
    Required modelsDir cm w.files := by
  induction h with
  | nil => cases hmem
  | @call is D w w' k t r hserial hk hrun ih =>
    rw [own_append, own_alone] at hi
    by_cases hik : k = i
    · subst hik
      rw [if_pos rfl, hserial.own_nil hk, List.nil_append] at hi
      cases run_residual hrun hi
      exact required_of_run hm hrun
    · rw [if_neg hik, List.append_nil] at hi
      have hbefore := ih hi ((List.mem_cons.mp hmem).resolve_left (Ne.symm hik))
      exact required_of_lasting hm hbefore (call_of_run (D := D) (i := k) hm hrun).lasting

theorem Ordered.required (hm : cm.validate = .ok ()) (h : Ordered go modelsDir cm w₀ D w) {found : Text}
    (hi : Effects.Run free (HfDownloader.ensure go modelsDir cm) () (own i D) (.done (.ok found)) ()) :
    Required modelsDir cm w.files := by
  have hmem : ∀ {is D w}, Serial go modelsDir cm w₀ is D w →
      Effects.Run free (HfDownloader.ensure go modelsDir cm) () (own i D) (.done (.ok found)) () → i ∈ is := by
    intro is D w hserial hi
    by_contra hno
    rw [hserial.own_nil hno] at hi
    cases (run_nil hi).1
  cases h with
  | idle hserial => exact hserial.required hm hi (hmem hserial hi)
  | @busy is D w₁ w k t p hserial hk hrun =>
    rw [own_append, own_alone] at hi
    by_cases hik : k = i
    · subst hik
      rw [if_pos rfl, hserial.own_nil hk, List.nil_append] at hi
      cases run_residual hrun hi
      exact required_of_run hm hrun
    · rw [if_neg hik, List.append_nil] at hi
      exact required_of_lasting hm (hserial.required hm hi (hmem hserial hi))
        (call_of_run (D := D) (i := k) hm hrun).lasting

end Order

end SerialDownloads
