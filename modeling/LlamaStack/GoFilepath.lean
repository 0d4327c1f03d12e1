import LlamaStack.GoUtf8

/-!
# File paths

`path/filepath` on a Unix system. `Clean` reads a path element by element onto a
stack; the lemmas say what a cleaned path reads as when it is taken apart again.
-/
namespace GoFilepath

open GoBytes GoUtf8

def slash : Char := '/'
def dot : Text := ['.']
def dotdot : Text := ['.', '.']

/-- One more element on a stack of elements, the last one first. -/
def push (rooted : Bool) (stack : List Text) (e : Text) : List Text :=
  if e = [] ∨ e = dot then stack
  else if e = dotdot then
    match stack with
    | [] => if rooted then [] else [dotdot]
    | top :: rest => if top = dotdot then dotdot :: top :: rest else rest
  else e :: stack

/-- The stack after all elements of a path. -/
def walk (rooted : Bool) (stack : List Text) (path : Text) : List Text :=
  (path.splitOn slash).foldl (push rooted) stack

def isRooted (path : Text) : Bool := path.head? = some slash

/-- The elements of a path, the last one first. -/
def stackOf (path : Text) : List Text := walk (isRooted path) [] path

/-- The path that a stack spells. -/
def spell (rooted : Bool) (stack : List Text) : Text :=
  if rooted then slash :: [slash].intercalate stack.reverse
  else if stack = [] then dot
  else [slash].intercalate stack.reverse

/-- `filepath.Clean`. -/
def clean (path : Text) : Text := spell (isRooted path) (stackOf path)

/-- `filepath.Join`. -/
def join (elem : List Text) : Text :=
  match elem.dropWhile (· = []) with
  | [] => []
  | es => clean ([slash].intercalate es)

/-- `filepath.Base`. -/
def base (path : Text) : Text :=
  if path = [] then dot
  else
    match ((path.rdropWhile (· = slash)).splitOn slash).getLast? with
    | some (c :: cs) => c :: cs
    | _ => [slash]

/-- `filepath.Dir`. -/
def dir (path : Text) : Text := clean (path.rdropWhile (· ≠ slash))

/-! ## Elements -/

/-- An element that stays on the stack as it is. -/
structure Plain (e : Text) : Prop where
  ne_nil : e ≠ []
  ne_dot : e ≠ dot
  ne_dotdot : e ≠ dotdot
  no_slash : slash ∉ e

theorem push_plain (rooted : Bool) (stack : List Text) {e : Text} (h : Plain e) :
    push rooted stack e = e :: stack := by
  simp [push, h.ne_nil, h.ne_dot, h.ne_dotdot]

theorem push_skip (rooted : Bool) (stack : List Text) {e : Text} (h : e = [] ∨ e = dot) :
    push rooted stack e = stack := by
  simp only [push, if_pos h]

theorem push_dotdot_cons (rooted : Bool) {top : Text} (rest : List Text) (h : top ≠ dotdot) :
    push rooted (top :: rest) dotdot = rest := by
  have hskip : ¬ (dotdot = [] ∨ dotdot = dot) := by decide
  simp only [push, if_neg hskip, if_true, if_neg h]

theorem push_dotdot_nil : push false [] dotdot = [dotdot] := by decide

/-- A stack that reading a path yields: names above, steps to the parent below
them, and those only in a relative path. -/
structure Normal (rooted : Bool) (stack : List Text) : Prop where
  split : ∃ names ups, stack = names ++ List.replicate ups dotdot ∧ ∀ e ∈ names, Plain e
  rooted_ups : rooted = true → dotdot ∉ stack

theorem normal_nil (rooted : Bool) : Normal rooted [] :=
  ⟨⟨[], 0, rfl, by simp⟩, by simp⟩

theorem normal_push {rooted : Bool} {stack : List Text} {e : Text} (h : Normal rooted stack)
    (he : slash ∉ e) : Normal rooted (push rooted stack e) := by
  by_cases hskip : e = [] ∨ e = dot
  · rwa [push_skip _ _ hskip]
  · obtain ⟨names, ups, rfl, hnames⟩ := h.split
    have hr := h.rooted_ups
    by_cases hdd : e = dotdot
    · subst hdd
      cases names with
      | nil =>
        cases ups with
        | zero =>
          cases rooted with
          | true => exact normal_nil _
          | false => exact ⟨⟨[], 1, rfl, by simp⟩, by simp⟩
        | succ ups =>
          have hpush : push rooted (List.replicate (ups + 1) dotdot) dotdot =
              List.replicate (ups + 2) dotdot := by
            simp [push, List.replicate_succ, dotdot, dot]
          rw [List.nil_append, hpush]
          refine ⟨⟨[], ups + 2, rfl, by simp⟩, fun hroot => ?_⟩
          exact absurd (by simp) (hr hroot)
      | cons top names =>
        rw [List.cons_append, push_dotdot_cons _ _ (hnames top (by simp)).ne_dotdot]
        refine ⟨⟨names, ups, rfl, fun e he => hnames e (by simp [he])⟩, fun hroot hmem => ?_⟩
        exact hr hroot (List.mem_cons_of_mem _ hmem)
    · have hplain : Plain e := ⟨fun h => hskip (.inl h), fun h => hskip (.inr h), hdd, he⟩
      rw [push_plain _ _ hplain]
      refine ⟨⟨e :: names, ups, rfl, ?_⟩, fun hroot hmem => ?_⟩
      · intro x hx
        cases List.mem_cons.mp hx with
        | inl hx => exact hx ▸ hplain
        | inr hx => exact hnames x hx
      · cases List.mem_cons.mp hmem with
        | inl hx => exact hdd hx.symm
        | inr hx => exact hr hroot hx

theorem not_mem_of_mem_splitOn {a : Char} {t e : Text} (h : e ∈ t.splitOn a) : a ∉ e := by
  induction t generalizing e with
  | nil => simp_all
  | cons c t ih =>
    rw [List.splitOn_cons_eq_if_modifyHead] at h
    split at h
    · cases List.mem_cons.mp h with
      | inl h => simp [h]
      | inr h => exact ih h
    · rename_i hc
      cases hs : t.splitOn a with
      | nil => exact absurd hs (List.splitOn_ne_nil a t)
      | cons x xs =>
        rw [hs, List.modifyHead_cons] at h
        cases List.mem_cons.mp h with
        | inl h =>
          have hx : a ∉ x := ih (by rw [hs]; simp)
          have hca : a ≠ c := fun h => hc (by simp [h])
          simp [h, hx, hca]
        | inr h => exact ih (by rw [hs]; simp [h])

theorem normal_walk {rooted : Bool} {stack : List Text} (path : Text) (h : Normal rooted stack) :
    Normal rooted (walk rooted stack path) := by
  have hes : ∀ e ∈ path.splitOn slash, slash ∉ e := fun e he => not_mem_of_mem_splitOn he
  unfold walk
  generalize path.splitOn slash = es at hes
  induction es generalizing stack with
  | nil => exact h
  | cons e es ih =>
    apply ih (normal_push h (hes e (by simp)))
    exact fun x hx => hes x (by simp [hx])

theorem normal_stackOf (path : Text) : Normal (isRooted path) (stackOf path) :=
  normal_walk path (normal_nil _)

theorem walk_append (rooted : Bool) (stack : List Text) (p q : Text) :
    walk rooted stack (p ++ slash :: q) = walk rooted (walk rooted stack p) q := by
  rw [walk, List.splitOn_append_cons_self, List.foldl_append, walk, walk]

theorem walk_single (rooted : Bool) (stack : List Text) {e : Text} (h : slash ∉ e) :
    walk rooted stack e = push rooted stack e := by
  rw [walk, List.splitOn_eq_singleton h]
  rfl

/-! ## Reading a spelled stack -/

theorem Normal.no_slash {rooted : Bool} {stack : List Text} (h : Normal rooted stack) :
    ∀ e ∈ stack, slash ∉ e ∧ e ≠ [] := by
  obtain ⟨names, ups, rfl, hnames⟩ := h.split
  intro e he
  cases List.mem_append.mp he with
  | inl he => exact ⟨(hnames e he).no_slash, (hnames e he).ne_nil⟩
  | inr he =>
    rw [(List.mem_replicate.mp he).2]
    decide

/-- Reading the spelling of a stack pushes its elements. -/
theorem walk_intercalate (rooted : Bool) (stack : List Text) {es : List Text} (hne : es ≠ [])
    (h : ∀ e ∈ es, slash ∉ e) :
    walk rooted stack ([slash].intercalate es) = es.foldl (push rooted) stack := by
  rw [walk, List.splitOn_intercalate slash h hne]

theorem foldl_push_plain (rooted : Bool) (stack : List Text) {es : List Text}
    (h : ∀ e ∈ es, Plain e) : es.reverse.foldl (push rooted) stack = es ++ stack := by
  induction es with
  | nil => rfl
  | cons e es ih =>
    rw [List.reverse_cons, List.foldl_append, ih fun x hx => h x (by simp [hx])]
    exact push_plain _ _ (h e (by simp))

theorem foldl_push_ups (ups : Nat) :
    (List.replicate ups dotdot).foldl (push false) [] = List.replicate ups dotdot := by
  have hstep : ∀ k, push false (List.replicate k dotdot) dotdot = List.replicate (k + 1) dotdot := by
    intro k
    cases k with
    | zero => rfl
    | succ k => simp [push, List.replicate_succ, dotdot, dot]
  induction ups with
  | zero => rfl
  | succ ups ih =>
    rw [List.replicate_succ', List.foldl_append, ih]
    exact (hstep ups).trans (List.replicate_succ' ..)

theorem foldl_push_normal {rooted : Bool} {stack : List Text} (h : Normal rooted stack) :
    stack.reverse.foldl (push rooted) [] = stack := by
  obtain ⟨names, ups, rfl, hnames⟩ := h.split
  rw [List.reverse_append, List.foldl_append, List.reverse_replicate]
  have hups : (List.replicate ups dotdot).foldl (push rooted) [] = List.replicate ups dotdot := by
    cases rooted with
    | false => exact foldl_push_ups ups
    | true =>
      cases ups with
      | zero => rfl
      | succ ups => exact absurd (by simp) (h.rooted_ups rfl)
  rw [hups, foldl_push_plain _ _ hnames]

theorem walk_spell {rooted : Bool} {stack : List Text} (h : Normal rooted stack) :
    walk rooted [] (spell rooted stack) = stack := by
  have hs : ∀ e ∈ stack.reverse, slash ∉ e := fun e he => (h.no_slash e (by simpa using he)).1
  have hnil : push rooted [] [] = [] := push_skip _ _ (.inl rfl)
  by_cases hne : stack = []
  · subst hne
    cases rooted <;> decide
  · have hr : stack.reverse ≠ [] := by simpa using hne
    cases rooted with
    | false =>
      simp only [spell, if_neg hne, Bool.false_eq_true, if_false]
      rw [walk_intercalate _ _ hr hs, foldl_push_normal h]
    | true =>
      simp only [spell, if_true]
      have hw := walk_append true [] [] ([slash].intercalate stack.reverse)
      rw [List.nil_append] at hw
      rw [hw, walk_intercalate _ _ hr hs, walk, List.splitOn_nil, List.foldl_cons, hnil, List.foldl_nil,
        foldl_push_normal h]

theorem isRooted_spell {rooted : Bool} {stack : List Text} (h : Normal rooted stack) :
    isRooted (spell rooted stack) = rooted := by
  cases rooted with
  | true => simp [isRooted, spell]
  | false =>
    by_cases hne : stack = []
    · subst hne
      decide
    · obtain ⟨e, es, hr⟩ : ∃ e es, stack.reverse = e :: es := by
        cases hr : stack.reverse with
        | nil => exact absurd (by simpa using hr) hne
        | cons e es => exact ⟨e, es, rfl⟩
      have he := h.no_slash e (by rw [← List.mem_reverse, hr]; simp)
      obtain ⟨c, cs, rfl⟩ := List.exists_cons_of_ne_nil he.2
      have hc : c ≠ slash := fun hc => he.1 (by simp [hc])
      cases es <;> simp [isRooted, spell, hne, hr, hc, List.intercalate_cons_cons]

theorem isRooted_clean (path : Text) : isRooted (clean path) = isRooted path :=
  isRooted_spell (normal_stackOf path)

theorem stackOf_clean (path : Text) : stackOf (clean path) = stackOf path := by
  rw [stackOf, isRooted_clean, clean, walk_spell (normal_stackOf path)]

/-- Cleaned paths are equal exactly when they have the same elements. -/
theorem clean_eq_iff {p q : Text} (h : isRooted p = isRooted q) :
    clean p = clean q ↔ stackOf p = stackOf q := by
  constructor
  · intro he
    rw [← stackOf_clean p, he, stackOf_clean]
  · intro he
    rw [clean, clean, h, he]

theorem clean_clean (path : Text) : clean (clean path) = clean path :=
  (clean_eq_iff (isRooted_clean path)).mpr (stackOf_clean path)

/-! ## Joining -/

theorem isRooted_append {p : Text} (q : Text) (h : p ≠ []) :
    isRooted (p ++ q) = isRooted p := by
  obtain ⟨c, cs, rfl⟩ := List.exists_cons_of_ne_nil h
  rfl

theorem join_ne_nil {e : Text} (es : List Text) (h : e ≠ []) :
    join (e :: es) = clean ([slash].intercalate (e :: es)) := by
  simp [join, h]

theorem clean_join {es : List Text} (h : join es ≠ []) : clean (join es) = join es := by
  unfold join at h ⊢
  split
  · rename_i hd
    simp [hd] at h
  · exact clean_clean _

/-- A relative path below a directory. -/
theorem join_relative (dir : Text) {rel : Text} (hne : rel ≠ []) (hrel : isRooted rel = false) :
    isRooted (join [dir, rel]) = isRooted dir ∧
      stackOf (join [dir, rel]) = walk (isRooted dir) (stackOf dir) rel := by
  by_cases hd : dir = []
  · subst hd
    have hj : join [[], rel] = clean rel := by simp [join, hne]
    rw [hj, isRooted_clean, stackOf_clean]
    exact ⟨hrel, by rw [stackOf, hrel]; rfl⟩
  · have hj : join [dir, rel] = clean (dir ++ slash :: rel) := by
      rw [join_ne_nil _ hd]
      simp [List.intercalate_cons_cons]
    rw [hj, isRooted_clean, stackOf_clean, isRooted_append _ hd]
    exact ⟨rfl, by rw [stackOf, isRooted_append _ hd, walk_append, stackOf]⟩

theorem walk_spell_plain (rooted : Bool) (stack : List Text) {es : List Text} (hne : es ≠ [])
    (h : ∀ e ∈ es, Plain e) : walk rooted stack (spell false es) = es ++ stack := by
  simp only [spell, if_neg hne, Bool.false_eq_true, if_false]
  rw [walk_intercalate _ _ (by simpa using hne), foldl_push_plain _ _ h]
  exact fun e he => (h e (by simpa using he)).no_slash

/-- A path that begins with one step to the parent. -/
theorem walk_spell_up (rooted : Bool) (stack : List Text) {es : List Text}
    (h : ∀ e ∈ es, Plain e) :
    walk rooted stack (spell false (es ++ [dotdot])) = es ++ push rooted stack dotdot := by
  simp only [spell, List.append_eq_nil_iff, List.cons_ne_nil, and_false, Bool.false_eq_true,
    if_false, List.reverse_append, List.reverse_singleton]
  rw [walk_intercalate _ _ (by simp), List.foldl_append, foldl_push_plain _ _ h]
  · rfl
  · intro e he
    simp only [List.singleton_append, List.mem_cons, List.mem_reverse] at he
    cases he with
    | inl he => rw [he]; decide
    | inr he => exact (h e he).no_slash

/-! ## The last element -/

/-- The part of a path behind its last slash. -/
theorem base_of_not_mem {e : Text} (hne : e ≠ []) (h : slash ∉ e) : base e = e := by
  have hr : e.rdropWhile (· = slash) = e := by
    rw [List.rdropWhile_eq_self_iff]
    intro he hlast
    have hmem := List.getLast_mem he
    rw [of_decide_eq_true hlast] at hmem
    exact h hmem
  rw [base, if_neg hne, hr, List.splitOn_eq_singleton h]
  obtain ⟨c, cs, rfl⟩ := List.exists_cons_of_ne_nil hne
  rfl

theorem base_append (p : Text) {e : Text} (hne : e ≠ []) (h : slash ∉ e) :
    base (p ++ slash :: e) = e := by
  have hr : (p ++ slash :: e).rdropWhile (· = slash) = p ++ slash :: e := by
    rw [List.rdropWhile_eq_self_iff]
    intro he hlast
    rw [List.getLast_append_of_ne_nil _ (by simp), List.getLast_cons hne] at hlast
    have hmem := List.getLast_mem hne
    rw [of_decide_eq_true hlast] at hmem
    exact h hmem
  rw [base, if_neg (by simp), hr, List.splitOn_append_cons_self, List.splitOn_eq_singleton h]
  obtain ⟨c, cs, rfl⟩ := List.exists_cons_of_ne_nil hne
  simp

/-- Every text is its part up to the last slash and the rest. -/
theorem lastSlash_split (t : Text) : slash ∉ t ∨ ∃ p e, t = p ++ slash :: e ∧ slash ∉ e := by
  induction t with
  | nil => exact .inl (by simp)
  | cons c t ih =>
    cases ih with
    | inl ih =>
      by_cases hc : c = slash
      · exact .inr ⟨[], t, by simp [hc], ih⟩
      · exact .inl (by simp [ih, Ne.symm hc])
    | inr ih =>
      obtain ⟨p, e, rfl, he⟩ := ih
      exact .inr ⟨c :: p, e, rfl, he⟩

end GoFilepath
