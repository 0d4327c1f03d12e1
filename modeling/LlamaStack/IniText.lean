import LlamaStack.GoFilepath

/-!
# INI texts

A line-oriented reader: `[s]` opens a section, `k = v` sets a key, and a blank
line means nothing. Any other line is refused. Sections and keys keep their order.
-/
namespace IniText

open GoBytes GoUtf8 GoFilepath

def newline : Char := '\n'

/-- The sign between a key and its value. -/
def equals : Text := " = ".toList

inductive Line where
  | blank
  | opening (name : Text)
  | setting (key value : Text)
  deriving DecidableEq

/-- The text around the first sign. -/
def cutEquals : Text → Option (Text × Text)
  | [] => none
  | c :: cs =>
    if equals <+: c :: cs then some ([], (c :: cs).drop equals.length)
    else (cutEquals cs).map fun p => (c :: p.1, p.2)

def readLine : Text → Option Line
  | [] => some .blank
  | c :: cs =>
    if c = '[' then
      if cs.getLast? = some ']' then some (.opening cs.dropLast) else none
    else (cutEquals (c :: cs)).map fun p => .setting p.1 p.2

abbrev Settings := List (Text × Text)

/-- What a text says: settings before any section, and the sections. -/
structure Ini where
  top : Settings
  sections : List (Text × Settings)
  deriving DecidableEq

def gather : List Line → Ini
  | [] => ⟨[], []⟩
  | .blank :: ls => gather ls
  | .setting k v :: ls => { gather ls with top := (k, v) :: (gather ls).top }
  | .opening s :: ls => ⟨[], (s, (gather ls).top) :: (gather ls).sections⟩

def readIni (text : Text) : Option Ini := ((text.splitOn newline).mapM readLine).map gather

/-! ## Reading what was written line by line -/

def settingLine (k v : Text) : Text := k ++ equals ++ v

def openingLine (name : Text) : Text := '[' :: name ++ [']']

theorem cutEquals_settingLine {k : Text} (hk : ' ' ∉ k) (v : Text) :
    cutEquals (settingLine k v) = some (k, v) := by
  induction k with
  | nil => simp [cutEquals, settingLine, equals]
  | cons c k ih =>
    simp only [List.mem_cons, not_or] at hk
    have hpre : ¬ equals <+: c :: settingLine k v := by
      rintro ⟨t, ht⟩
      rw [equals] at ht
      exact hk.1 (List.cons.inj ht).1
    have hcons : settingLine (c :: k) v = c :: settingLine k v := rfl
    rw [hcons, cutEquals, if_neg hpre, ih hk.2]
    rfl

theorem readLine_settingLine {k : Text} (hne : k ≠ []) (hopen : k.head? ≠ some '[') (hk : ' ' ∉ k)
    (v : Text) : readLine (settingLine k v) = some (.setting k v) := by
  obtain ⟨c, k', rfl⟩ := List.exists_cons_of_ne_nil hne
  have hc : c ≠ '[' := fun hc => hopen (by simp [hc])
  have hcons : settingLine (c :: k') v = c :: settingLine k' v := rfl
  have hcut := cutEquals_settingLine hk v
  rw [hcons] at hcut ⊢
  rw [readLine, if_neg hc, hcut]
  rfl

theorem readLine_openingLine (name : Text) : readLine (openingLine name) = some (.opening name) := by
  simp [readLine, openingLine]

/-- Lines, each with its line feed. -/
def unlines (ls : List Text) : Text := ls.flatMap fun l => l ++ [newline]

theorem splitOn_unlines {ls : List Text} (h : ∀ l ∈ ls, newline ∉ l) :
    (unlines ls).splitOn newline = ls ++ [[]] := by
  induction ls with
  | nil => rfl
  | cons l ls ih =>
    have hcons : unlines (l :: ls) = l ++ newline :: unlines ls := by simp [unlines]
    rw [hcons, List.splitOn_append_cons_self, List.splitOn_eq_singleton (h l (by simp)),
      ih fun x hx => h x (by simp [hx])]
    rfl

theorem gather_append_blank (ls : List Line) : gather (ls ++ [.blank]) = gather ls := by
  induction ls with
  | nil => rfl
  | cons l ls ih => cases l <;> simp [gather, ih]

theorem mapM_readLine_append {ls ks : List Text} {ms ns : List Line}
    (h : ls.mapM readLine = some ms) (h' : ks.mapM readLine = some ns) :
    (ls ++ ks).mapM readLine = some (ms ++ ns) := by
  rw [List.mapM_append, h, h']
  rfl

theorem readIni_unlines {ls : List Text} {ms : List Line} (hls : ∀ l ∈ ls, newline ∉ l)
    (h : ls.mapM readLine = some ms) : readIni (unlines ls) = some (gather ms) := by
  have hblank : [[]].mapM readLine = some [Line.blank] := rfl
  rw [readIni, splitOn_unlines hls, mapM_readLine_append h hblank, Option.map_some,
    gather_append_blank]

/-! ## No line feed is ever read -/

/-- The texts of a line. -/
def Line.texts : Line → List Text
  | .blank => []
  | .opening s => [s]
  | .setting k v => [k, v]

def Settings.texts (s : Settings) : List Text := s.flatMap fun p => [p.1, p.2]

def Ini.texts (i : Ini) : List Text :=
  Settings.texts i.top ++ i.sections.flatMap fun s => s.1 :: Settings.texts s.2

theorem cutEquals_sublist {t : Text} {p : Text × Text} (h : cutEquals t = some p) :
    p.1 ⊆ t ∧ p.2 ⊆ t := by
  induction t generalizing p with
  | nil => simp [cutEquals] at h
  | cons c t ih =>
    rw [cutEquals] at h
    split at h
    · cases h
      exact ⟨by simp, List.drop_subset _ _⟩
    · obtain ⟨q, hq, rfl⟩ := Option.map_eq_some_iff.mp h
      obtain ⟨h₁, h₂⟩ := ih hq
      exact ⟨List.cons_subset_cons _ h₁, List.subset_cons_of_subset _ h₂⟩

theorem readLine_texts {t : Text} {l : Line} (h : readLine t = some l) : ∀ x ∈ l.texts, x ⊆ t := by
  cases t with
  | nil =>
    cases h
    simp [Line.texts]
  | cons c t =>
    rw [readLine] at h
    split at h
    · split at h
      · cases h
        intro x hx
        rw [Line.texts, List.mem_singleton] at hx
        subst hx
        exact List.subset_cons_of_subset _ (List.dropLast_subset t)
      · cases h
    · obtain ⟨p, hp, rfl⟩ := Option.map_eq_some_iff.mp h
      obtain ⟨h₁, h₂⟩ := cutEquals_sublist hp
      intro x hx
      simp only [Line.texts, List.mem_cons, List.not_mem_nil, or_false] at hx
      cases hx with
      | inl hx => exact hx ▸ h₁
      | inr hx => exact hx ▸ h₂

theorem gather_texts (ls : List Line) : ∀ x ∈ (gather ls).texts, x ∈ ls.flatMap Line.texts := by
  induction ls with
  | nil => simp [gather, Ini.texts, Settings.texts]
  | cons l ls ih =>
    intro x hx
    cases l with
    | blank => simpa [gather, Line.texts] using ih x hx
    | opening s =>
      simp only [gather, Ini.texts, Settings.texts, List.flatMap_nil, List.nil_append,
        List.flatMap_cons, List.mem_cons, List.mem_append, Line.texts, List.not_mem_nil,
        or_false] at hx ih ⊢
      have hih := ih x
      tauto
    | setting k v =>
      simp only [gather, Ini.texts, Settings.texts, List.flatMap_cons, List.mem_cons,
        List.mem_append, Line.texts, List.not_mem_nil, or_false] at hx ih ⊢
      have hih := ih x
      tauto

theorem mapM_readLine_texts {ts : List Text} {ls : List Line} (h : ts.mapM readLine = some ls)
    (hfree : ∀ t ∈ ts, newline ∉ t) : ∀ x ∈ ls.flatMap Line.texts, newline ∉ x := by
  induction ts generalizing ls with
  | nil =>
    cases h
    simp
  | cons t ts ih =>
    simp only [List.mapM_cons, Option.pure_def, Option.bind_eq_bind, Option.bind_eq_some_iff,
      Option.some.injEq] at h
    obtain ⟨l, hl, ms, hms, rfl⟩ := h
    intro x hx
    rw [List.flatMap_cons, List.mem_append] at hx
    cases hx with
    | inl hx => exact fun hn => hfree t (by simp) (readLine_texts hl x hx hn)
    | inr hx => exact ih hms (fun u hu => hfree u (by simp [hu])) x hx

/-- A text that was read holds no line feed. -/
theorem newline_not_mem_of_readIni {t : Text} {i : Ini} (h : readIni t = some i) :
    ∀ x ∈ i.texts, newline ∉ x := by
  obtain ⟨ls, hls, rfl⟩ := Option.map_eq_some_iff.mp h
  have hfree : ∀ l ∈ t.splitOn newline, newline ∉ l := fun l hl => not_mem_of_mem_splitOn hl
  exact fun x hx => mapM_readLine_texts hls hfree x (gather_texts ls x hx)

end IniText
