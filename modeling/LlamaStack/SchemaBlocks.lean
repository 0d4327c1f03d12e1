import Mathlib.Data.List.Infix
import LlamaStack.IniText

/-!
# The strictness check

A script of the repository looks into two schema files for components that allow
additional properties. It cuts the text of a component out of the file by searching
for its name and then for the next component.
-/
namespace SchemaBlocks

open GoBytes IniText

/-! ## The script -/

/-- `str.find`: the first place of a substring. -/
def find (sub : Text) : Text → Option Nat
  | [] => if sub = [] then some 0 else none
  | c :: s => if sub <+: c :: s then some 0 else (find sub s).map (· + 1)

/-- `str.find` from a place on. -/
def findFrom (sub s : Text) (start : Nat) : Option Nat := (find sub (s.drop start)).map (start + ·)

/-- The slice between two places. -/
def slice (s : Text) (start stop : Nat) : Text := (s.take stop).drop start

def nameIndent : Text := "    ".toList

/-- `schema_component_block`, or the text of the failed requirement. -/
def schemaComponentBlock (schema name : Text) : Except Text Text :=
  let marker := nameIndent ++ name ++ [':', newline]
  match find marker schema with
  | none => .error ("schema missing component ".toList ++ name)
  | some start =>
    match findFrom (newline :: nameIndent) schema (start + marker.length) with
    | none => .ok (schema.drop start)
    | some next => .ok (slice schema start next)

def additional : Text := "additionalProperties: true".toList

/-- The loop over the components that should be strict. -/
def checkStrict (owner schema : Text) : List Text → Except Text Unit
  | [] => .ok ()
  | name :: names =>
    match schemaComponentBlock schema name with
    | .error e => .error e
    | .ok block =>
      if additional <:+: block then
        .error (owner ++ " ".toList ++ name ++ " should be strict; do not allow extra fields".toList)
      else checkStrict owner schema names

def openaiComponents : List Text :=
  ["ResponseCompletedEvent", "ResponseFunctionCallArgumentsDeltaEvent", "ResponseFunctionCallArgumentsDoneEvent",
    "ResponseOutputItemDoneEvent", "ResponseOutputFunctionCallItem", "ResponseOutputMessageItem",
    "ResponseOutputTextContent", "ResponseRefusalContent", "ResponseOutputReasoningItem",
    "ResponseOutputReasoningContent", "ResponseOutputSummaryTextContent"].map String.toList

def llamacppComponents : List Text :=
  ["ResponseCompletedEvent", "ResponseFunctionCallArgumentsDeltaEvent", "ResponseOutputItemDoneEvent",
    "ResponseOutputFunctionCallItem", "ResponseOutputMessageItem", "ResponseOutputMessageContent",
    "ResponseOutputReasoningItem", "ResponseOutputReasoningContent",
    "ResponseOutputSummaryTextContent"].map String.toList

def checkStrictSchemaComponents (openaiSchema llamacppSchema : Text) : Except Text Unit :=
  match checkStrict "OpenAI".toList openaiSchema openaiComponents with
  | .error e => .error e
  | .ok () => checkStrict "llama.cpp".toList llamacppSchema llamacppComponents

/-! ## Schema texts -/

def bodyIndent : Text := "      ".toList

/-- A component: its name, and the lines below it. -/
structure Component where
  name : Text
  body : List Text

def Component.nameLine (c : Component) : Text := nameIndent ++ c.name ++ [':']

def Component.lines (c : Component) : List Text := c.nameLine :: c.body

/-- A schema file: what comes before the components, which are laid out with their
names at four spaces and their bodies at six or more. -/
structure Layout where
  preamble : List Text
  components : List Component
  preamble_lines : ∀ l ∈ preamble, newline ∉ l ∧ l ≠ []
  names : ∀ c ∈ components, newline ∉ c.name
  bodies : ∀ c ∈ components, ∀ l ∈ c.body, newline ∉ l ∧ bodyIndent <+: l

def Layout.lines (L : Layout) : List Text := L.preamble ++ L.components.flatMap Component.lines

def Layout.text (L : Layout) : Text := unlines L.lines

/-- The text of these lines, with or without the last line feed. -/
def IsTextOf (s : Text) (ls : List Text) : Prop := s = unlines ls ∨ s ++ [newline] = unlines ls

/-- The block that is cut out has all lines of the component and no others. -/
def Sees (schema : Text) (c : Component) : Prop :=
  ∃ block, schemaComponentBlock schema c.name = .ok block ∧ IsTextOf block c.lines

/-- The component allows additional properties somewhere in its body. -/
def Loose (c : Component) : Prop := ∃ l ∈ c.body, additional <:+: l

/-- The check sees every component, and fails for a listed one that is loose. -/
structure ChecksAll (L L' : Layout) : Prop where
  openai : ∀ c ∈ L.components, Sees L.text c
  llamacpp : ∀ c ∈ L'.components, Sees L'.text c
  strict : (∃ c ∈ L.components, c.name ∈ openaiComponents ∧ Loose c) ∨
      (∃ c ∈ L'.components, c.name ∈ llamacppComponents ∧ Loose c) →
    ∃ e, checkStrictSchemaComponents L.text L'.text = .error e

/-- The lines behind the first one that ends in the marker. -/
def behind (marker : Text) : List Text → Option (List Text)
  | [] => none
  | l :: ls => if marker <:+ l then some ls else behind marker ls

/-- The body is a single line, and just this line follows the first line that ends in
the component's name; or there is no body and nothing follows. -/
def SingleLine (L : Layout) (c : Component) : Prop :=
  ∃ rest, behind c.nameLine L.lines = some rest ∧
    ((c.body = [] ∧ rest = []) ∨
      ∃ l rest', c.body = [l] ∧ rest = l :: rest' ∧ ∀ x ∈ rest'.head?, nameIndent <+: x)

/-! ## Searching a text of lines -/

theorem unlines_cons (l : Text) (ls : List Text) : unlines (l :: ls) = l ++ newline :: unlines ls := by
  simp [unlines]

/-- A line stands at the front of a text only as its first line. -/
theorem starts_line {m x t : Text} (hm : newline ∉ m) (hx : newline ∉ x) :
    m ++ [newline] <+: x ++ newline :: t ↔ m = x := by
  constructor
  · rintro ⟨s, hs⟩
    have hsplit := congrArg (List.splitOn newline) hs
    rw [List.append_assoc, List.singleton_append, List.splitOn_append_cons_self, List.splitOn_append_cons_self,
      List.splitOn_eq_singleton hm, List.splitOn_eq_singleton hx] at hsplit
    simp only [List.singleton_append, List.cons.injEq] at hsplit
    exact hsplit.1
  · rintro rfl
    exact ⟨t, by simp⟩

theorem find_line {m x t : Text} (hm : newline ∉ m) (hx : newline ∉ x) :
    find (m ++ [newline]) (x ++ newline :: t) =
      if m <:+ x then some (x.length - m.length)
      else (find (m ++ [newline]) t).map (· + (x.length + 1)) := by
  induction x with
  | nil =>
    rw [List.nil_append, find]
    by_cases h : m = []
    · subst h
      simp
    · have hno : ¬ m ++ [newline] <+: newline :: t := by
        intro hp
        exact h ((starts_line hm (by simp) : m ++ [newline] <+: [] ++ newline :: t ↔ m = []).mp hp)
      have hsuffix : ¬ m <:+ [] := by simpa using h
      rw [if_neg hno, if_neg hsuffix]
      rfl
  | cons c x ih =>
    have hx' : newline ∉ x := fun h => hx (List.mem_cons_of_mem _ h)
    have hstarts := starts_line (t := t) hm hx
    rw [List.cons_append] at hstarts
    have hsuffix : m <:+ c :: x ↔ m = c :: x ∨ m <:+ x := List.suffix_cons_iff
    rw [List.cons_append, find, ih hx']
    by_cases h : m = c :: x
    · rw [if_pos (hstarts.mpr h), if_pos (hsuffix.mpr (.inl h)), h, Nat.sub_self]
    · rw [if_neg fun hp => h (hstarts.mp hp)]
      by_cases hs : m <:+ x
      · rw [if_pos hs, if_pos (hsuffix.mpr (.inr hs)), Option.map_some, List.length_cons]
        have hle := hs.length_le
        congr 1
        omega
      · rw [if_neg hs, if_neg fun hp => (hsuffix.mp hp).elim h hs, Option.map_map]
        congr 1

/-- A marker at the end of a line is found at the first line that ends in it. -/
theorem find_marker {m : Text} (hm : newline ∉ m) {ls : List Text} (hls : ∀ l ∈ ls, newline ∉ l) :
    match behind m ls with
    | none => find (m ++ [newline]) (unlines ls) = none
    | some rest => ∃ i, find (m ++ [newline]) (unlines ls) = some i ∧
        (unlines ls).drop i = m ++ newline :: unlines rest := by
  induction ls with
  | nil => simp [behind, unlines, find]
  | cons l ls ih =>
    have hl := hls l (by simp)
    have ih := ih fun x hx => hls x (by simp [hx])
    rw [unlines_cons, find_line hm hl]
    by_cases h : m <:+ l
    · obtain ⟨p, rfl⟩ := h
      simp only [behind, List.suffix_append, if_true]
      refine ⟨_, rfl, ?_⟩
      have hlen : (p ++ m).length - m.length = p.length := by simp
      rw [hlen, List.append_assoc, List.drop_left]
    · simp only [behind, if_neg h]
      cases hb : behind m ls with
      | none =>
        rw [hb] at ih
        simp only at ih ⊢
        rw [ih]
        rfl
      | some rest =>
        rw [hb] at ih
        obtain ⟨i, hi, hdrop⟩ := ih
        refine ⟨i + (l.length + 1), by rw [hi]; rfl, ?_⟩
        have hcut : (l ++ newline :: unlines ls).drop (i + (l.length + 1)) = (unlines ls).drop i := by
          rw [Nat.add_comm, ← List.drop_drop, List.append_cons]
          congr 1
          have hlen : l.length + 1 = (l ++ [newline]).length := by simp
          rw [hlen, List.drop_left]
        rw [hcut, hdrop]

/-- The text before the first line, from the second on, that is indented like a name. -/
def cut (s : Text) : Text :=
  match find (newline :: nameIndent) s with
  | none => s
  | some k => s.take k

theorem find_indent {x t : Text} (hx : newline ∉ x) :
    find (newline :: nameIndent) (x ++ newline :: t) =
      if nameIndent <+: t then some x.length
      else (find (newline :: nameIndent) t).map (· + (x.length + 1)) := by
  induction x with
  | nil =>
    rw [List.nil_append, find]
    have hcons : newline :: nameIndent <+: newline :: t ↔ nameIndent <+: t := by
      rw [List.cons_prefix_cons, and_iff_right rfl]
    by_cases h : nameIndent <+: t
    · rw [if_pos (hcons.mpr h), if_pos h]
      rfl
    · rw [if_neg fun hp => h (hcons.mp hp), if_neg h]
      rfl
  | cons c x ih =>
    have hc : c ≠ newline := fun h => hx (by simp [h])
    have hno : ¬ newline :: nameIndent <+: c :: (x ++ newline :: t) := by
      rw [List.cons_prefix_cons]
      exact fun h => hc h.1.symm
    rw [List.cons_append, find, if_neg hno, ih fun h => hx (List.mem_cons_of_mem _ h)]
    split
    · rfl
    · rw [Option.map_map]
      congr 1

theorem cut_line {x t : Text} (hx : newline ∉ x) :
    cut (x ++ newline :: t) = if nameIndent <+: t then x else x ++ newline :: cut t := by
  unfold cut
  rw [find_indent hx]
  by_cases h : nameIndent <+: t
  · rw [if_pos h, if_pos h]
    simp
  · rw [if_neg h, if_neg h]
    cases find (newline :: nameIndent) t with
    | none => rfl
    | some k =>
      simp only [Option.map_some]
      have hlen : k + (x.length + 1) = (x ++ [newline]).length + k := by
        simp only [List.length_append, List.length_singleton]
        omega
      rw [List.append_cons, hlen, List.take_length_add_append, List.append_assoc]
      rfl

/-- The block of a component, by the lines behind its marker. -/
theorem schemaComponentBlock_lines {name : Text} (hname : newline ∉ name) {ls : List Text}
    (hls : ∀ l ∈ ls, newline ∉ l) :
    match behind (nameIndent ++ name ++ [':']) ls with
    | none => ∃ e, schemaComponentBlock (unlines ls) name = .error e
    | some rest => schemaComponentBlock (unlines ls) name =
        .ok (nameIndent ++ name ++ [':'] ++ newline :: cut (unlines rest)) := by
  have hm : newline ∉ nameIndent ++ name ++ [':'] := by
    simp only [List.mem_append, not_or]
    exact ⟨⟨by decide, hname⟩, by decide⟩
  have hmarker : nameIndent ++ name ++ [':', newline] = nameIndent ++ name ++ [':'] ++ [newline] := by simp
  have hfind := find_marker hm hls
  unfold schemaComponentBlock
  rw [hmarker]
  cases hb : behind (nameIndent ++ name ++ [':']) ls with
  | none =>
    rw [hb] at hfind
    simp only at hfind ⊢
    rw [hfind]
    exact ⟨_, rfl⟩
  | some rest =>
    rw [hb] at hfind
    obtain ⟨i, hi, hdrop⟩ := hfind
    generalize nameIndent ++ name ++ [':'] = m at *
    rw [List.append_cons] at hdrop
    have hrest : (unlines ls).drop (i + (m ++ [newline]).length) = unlines rest := by
      rw [← List.drop_drop, hdrop, List.drop_left]
    simp only [hi, findFrom, hrest, cut]
    cases find (newline :: nameIndent) (unlines rest) with
    | none => simp only [Option.map_none, hdrop, List.append_assoc, List.singleton_append]
    | some k =>
      simp only [Option.map_some, slice, Except.ok.injEq]
      have hlen : i + (m ++ [newline]).length + k - i = (m ++ [newline]).length + k := by omega
      rw [List.drop_take, hlen, hdrop, List.take_length_add_append, List.append_assoc]
      rfl

/-! ## What is cut out -/

theorem unlines_injective {ls ks : List Text} (hls : ∀ l ∈ ls, newline ∉ l) (hks : ∀ l ∈ ks, newline ∉ l)
    (h : unlines ls = unlines ks) : ls = ks := by
  have hsplit := congrArg (List.splitOn newline) h
  rw [splitOn_unlines hls, splitOn_unlines hks] at hsplit
  exact List.append_cancel_right hsplit

/-- A text has one division into lines that are not empty. -/
theorem isTextOf_unique {s : Text} {ls ks : List Text} (hls : ∀ l ∈ ls, newline ∉ l ∧ l ≠ [])
    (hks : ∀ l ∈ ks, newline ∉ l ∧ l ≠ []) (h : IsTextOf s ls) (h' : IsTextOf s ks) : ls = ks := by
  have hlonger : ∀ {ls ks : List Text}, (∀ l ∈ ls, newline ∉ l ∧ l ≠ []) → (∀ l ∈ ks, newline ∉ l ∧ l ≠ []) →
      unlines ls ++ [newline] ≠ unlines ks := by
    intro ls ks hls hks h
    have hconcat : unlines ls ++ [newline] = unlines (ls ++ [[]]) := by simp [unlines]
    have hno : ∀ l ∈ ls ++ [[]], newline ∉ l := by
      intro l hl
      cases List.mem_append.mp hl with
      | inl hl => exact (hls l hl).1
      | inr hl =>
        rw [List.mem_singleton.mp hl]
        exact List.not_mem_nil
    have heq := unlines_injective hno (fun l hl => (hks l hl).1) (hconcat ▸ h)
    exact (hks [] (heq ▸ by simp)).2 rfl
  have hinj := unlines_injective (fun l hl => (hls l hl).1) fun l hl => (hks l hl).1
  cases h with
  | inl h =>
    cases h' with
    | inl h' => exact hinj (h.symm.trans h')
    | inr h' => exact absurd (h ▸ h') (hlonger hls hks)
  | inr h =>
    cases h' with
    | inl h' => exact absurd (h' ▸ h) (hlonger hks hls)
    | inr h' => exact hinj (h.symm.trans h')

theorem isTextOf_cons {s : Text} {ls : List Text} (h : IsTextOf s ls) (l : Text) :
    IsTextOf (l ++ newline :: s) (l :: ls) := by
  cases h with
  | inl h =>
    left
    rw [unlines_cons, h]
  | inr h =>
    right
    rw [unlines_cons, ← h, List.append_assoc, List.cons_append]

theorem starts_indented (x t : Text) : nameIndent <+: x ++ newline :: t ↔ nameIndent <+: x := by
  constructor
  · rintro ⟨s, hs⟩
    obtain ⟨r, hx, -⟩ | ⟨r, hp, hr⟩ := List.append_eq_append_iff.mp hs
    · exact ⟨r, hx.symm⟩
    · cases r with
      | nil => exact ⟨[], by rw [hp, List.append_nil, List.append_nil]⟩
      | cons c r =>
        rw [List.cons_append, List.cons.injEq] at hr
        have hmem : newline ∈ nameIndent := by simp [hp, hr.1]
        exact absurd hmem (by decide)
  · intro h
    exact h.trans (List.prefix_append _ _)

/-- The first line, and all that follow until one is indented like a name. -/
theorem cut_isTextOf {l : Text} {rest : List Text} (h : ∀ x ∈ l :: rest, newline ∉ x) :
    IsTextOf (cut (unlines (l :: rest))) (l :: rest.takeWhile fun x => ¬ nameIndent <+: x) := by
  induction rest generalizing l with
  | nil =>
    left
    have hno : ¬ nameIndent <+: ([] : Text) := by decide
    have hempty : cut [] = [] := by decide
    rw [unlines_cons, cut_line (h l (by simp)), unlines, List.flatMap_nil, if_neg hno, hempty]
    simp [unlines]
  | cons x rest ih =>
    have hx := ih fun y hy => h y (List.mem_cons_of_mem _ hy)
    have hstarts : nameIndent <+: unlines (x :: rest) ↔ nameIndent <+: x := by
      rw [unlines_cons]
      exact starts_indented _ _
    rw [unlines_cons, cut_line (h l (by simp))]
    by_cases hindent : nameIndent <+: x
    · rw [if_pos (hstarts.mpr hindent), List.takeWhile_cons_of_neg (by simpa using hindent)]
      right
      simp [unlines]
    · rw [if_neg fun hp => hindent (hstarts.mp hp), List.takeWhile_cons_of_pos (by simpa using hindent)]
      exact isTextOf_cons hx l

/-- What follows the marker is the body exactly when that is one line, or nothing. -/
theorem cut_isTextOf_iff {rest body : List Text} (hrest : ∀ l ∈ rest, newline ∉ l ∧ l ≠ [])
    (hbody : ∀ l ∈ body, newline ∉ l ∧ bodyIndent <+: l) :
    IsTextOf (cut (unlines rest)) body ↔ (body = [] ∧ rest = []) ∨
      ∃ l rest', body = [l] ∧ rest = l :: rest' ∧ ∀ x ∈ rest'.head?, nameIndent <+: x := by
  have hbody' : ∀ l ∈ body, newline ∉ l ∧ l ≠ [] := by
    intro l hl
    refine ⟨(hbody l hl).1, ?_⟩
    rintro rfl
    exact absurd (hbody [] hl).2 (by decide)
  cases rest with
  | nil =>
    have hnil : IsTextOf (cut (unlines [])) [] := .inl rfl
    constructor
    · intro h
      exact .inl ⟨isTextOf_unique hbody' (by simp) h hnil, rfl⟩
    · rintro (⟨rfl, -⟩ | ⟨l, rest', -, h, -⟩)
      · exact hnil
      · cases h
  | cons l rest =>
    have hcut := cut_isTextOf fun x hx => (hrest x hx).1
    have htaken : ∀ x ∈ l :: rest.takeWhile fun x => ¬ nameIndent <+: x, newline ∉ x ∧ x ≠ [] := by
      intro x hx
      cases List.mem_cons.mp hx with
      | inl hx => exact hrest x (by simp [hx])
      | inr hx => exact hrest x (List.mem_cons_of_mem _ (List.takeWhile_subset _ hx))
    constructor
    · intro h
      have heq := isTextOf_unique hbody' htaken h hcut
      right
      -- the lines of a body are themselves indented far enough to end the block
      have hempty : (rest.takeWhile fun x => ¬ nameIndent <+: x) = [] := by
        rw [List.eq_nil_iff_forall_not_mem]
        intro x hx
        have hdeep := (hbody x (heq ▸ List.mem_cons_of_mem _ hx)).2
        have hshort : nameIndent <+: bodyIndent := by decide
        have hno := List.mem_takeWhile_imp hx
        simp only [decide_not, Bool.not_eq_true', decide_eq_false_iff_not] at hno
        exact hno (hshort.trans hdeep)
      rw [hempty] at heq
      refine ⟨l, rest, heq, rfl, fun x hx => ?_⟩
      cases rest with
      | nil => simp at hx
      | cons y rest =>
        obtain rfl : y = x := by simpa using hx
        by_contra hno
        rw [List.takeWhile_cons_of_pos (by simpa using hno)] at hempty
        cases hempty
    · rintro (⟨-, h⟩ | ⟨l', rest', rfl, h, hhead⟩)
      · cases h
      · rw [List.cons.injEq] at h
        obtain ⟨rfl, rfl⟩ := h
        have hempty : (rest.takeWhile fun x => ¬ nameIndent <+: x) = [] := by
          cases rest with
          | nil => rfl
          | cons y rest =>
            have hy := hhead y (by simp)
            rw [List.takeWhile_cons_of_neg (by simpa using hy)]
        rwa [hempty] at hcut

/-! ## The check -/

theorem bodyLine_ne_nil {l : Text} (h : bodyIndent <+: l) : l ≠ [] := by
  rintro rfl
  exact absurd h (by decide)

theorem Layout.line_spec (L : Layout) : ∀ l ∈ L.lines, newline ∉ l ∧ l ≠ [] := by
  intro l hl
  cases List.mem_append.mp hl with
  | inl hl => exact L.preamble_lines l hl
  | inr hl =>
    obtain ⟨c, hc, hl⟩ := List.mem_flatMap.mp hl
    cases List.mem_cons.mp hl with
    | inl hl =>
      rw [hl, Component.nameLine]
      simp only [List.mem_append, not_or]
      exact ⟨⟨⟨by decide, L.names c hc⟩, by decide⟩, by simp⟩
    | inr hl =>
      have h := L.bodies c hc l hl
      exact ⟨h.1, bodyLine_ne_nil h.2⟩

theorem behind_of_mem {m : Text} {ls : List Text} (h : m ∈ ls) :
    ∃ rest, behind m ls = some rest ∧ ∀ l ∈ rest, l ∈ ls := by
  induction ls with
  | nil => simp at h
  | cons l ls ih =>
    by_cases hs : m <:+ l
    · exact ⟨ls, by rw [behind, if_pos hs], fun x hx => List.mem_cons_of_mem _ hx⟩
    · have hm : m ∈ ls := by
        cases List.mem_cons.mp h with
        | inl h => exact absurd (h ▸ List.suffix_refl m) hs
        | inr h => exact h
      obtain ⟨rest, hb, hsub⟩ := ih hm
      exact ⟨rest, by rw [behind, if_neg hs, hb], fun x hx => List.mem_cons_of_mem _ (hsub x hx)⟩

/-- A component is seen whole exactly when its body is a single line. -/
theorem sees_iff (L : Layout) {c : Component} (hc : c ∈ L.components) : Sees L.text c ↔ SingleLine L c := by
  have hmem : c.nameLine ∈ L.lines :=
    List.mem_append_right _ (List.mem_flatMap.mpr ⟨c, hc, List.mem_cons_self⟩)
  obtain ⟨rest, hb, hsub⟩ := behind_of_mem hmem
  have hblock := schemaComponentBlock_lines (L.names c hc) fun l hl => (L.line_spec l hl).1
  have hb' : behind (nameIndent ++ c.name ++ [':']) L.lines = some rest := hb
  rw [hb'] at hblock
  have hiff := cut_isTextOf_iff (fun l hl => L.line_spec l (hsub l hl)) (L.bodies c hc)
  have hlines : IsTextOf (nameIndent ++ c.name ++ [':'] ++ newline :: cut (unlines rest)) c.lines ↔
      IsTextOf (cut (unlines rest)) c.body := by
    constructor
    · intro h
      rw [IsTextOf, Component.lines, unlines_cons, Component.nameLine] at h
      cases h with
      | inl h => exact .inl (List.cons.inj (List.append_cancel_left h)).2
      | inr h =>
        rw [List.append_assoc] at h
        exact .inr (List.cons.inj (List.append_cancel_left h)).2
    · intro h
      exact isTextOf_cons h c.nameLine
  constructor
  · rintro ⟨block, hok, htext⟩
    have heq := Except.ok.inj (hok.symm.trans hblock)
    exact ⟨rest, hb, hiff.mp (hlines.mp (heq ▸ htext))⟩
  · rintro ⟨rest', hb'', hsingle⟩
    obtain rfl := Option.some.inj (hb''.symm.trans hb)
    exact ⟨_, hblock, hlines.mpr (hiff.mpr hsingle)⟩

/-- A text without line feeds that stands in a line stands in every text of the lines. -/
theorem infix_of_isTextOf {w s : Text} (hw : newline ∉ w) {ls : List Text} (h : IsTextOf s ls) {l : Text}
    (hl : l ∈ ls) (hin : w <:+: l) : w <:+: s := by
  have hwhole : w <:+: unlines ls := by
    obtain ⟨pre, post, rfl⟩ := List.append_of_mem hl
    have hsplit : unlines (pre ++ l :: post) = unlines pre ++ (l ++ (newline :: unlines post)) := by
      simp [unlines]
    rw [hsplit]
    exact hin.trans (List.infix_append' _ _ _)
  cases h with
  | inl h => exact h ▸ hwhole
  | inr h =>
    rw [← h, infix_append_cons hw] at hwhole
    cases hwhole with
    | inl hwhole => exact hwhole
    | inr hwhole =>
      rw [List.infix_nil] at hwhole
      rw [hwhole]
      exact List.nil_infix

/-- The loop does not get past a listed component whose block has the words. -/
theorem checkStrict_error (owner : Text) {schema name block : Text} {names : List Text} (hname : name ∈ names)
    (hblock : schemaComponentBlock schema name = .ok block) (hin : additional <:+: block) :
    ∃ e, checkStrict owner schema names = .error e := by
  induction names with
  | nil => simp at hname
  | cons first names ih =>
    by_cases hfirst : name = first
    · subst hfirst
      simp only [checkStrict, hblock, if_pos hin]
      exact ⟨_, rfl⟩
    · have hlater : name ∈ names := by simpa [hfirst] using hname
      obtain ⟨e, he⟩ := ih hlater
      simp only [checkStrict]
      cases schemaComponentBlock schema first with
      | error e => exact ⟨e, rfl⟩
      | ok b =>
        by_cases hb : additional <:+: b
        · simp only [if_pos hb]
          exact ⟨_, rfl⟩
        · simp only [if_neg hb]
          exact ⟨e, he⟩

/-- A loose component that is seen whole fails the check. -/
theorem checkStrict_loose (owner : Text) {schema : Text} {names : List Text} {c : Component} (hsees : Sees schema c)
    (hname : c.name ∈ names) (hloose : Loose c) : ∃ e, checkStrict owner schema names = .error e := by
  obtain ⟨block, hblock, htext⟩ := hsees
  obtain ⟨l, hl, hin⟩ := hloose
  have hwords : newline ∉ additional := by decide
  exact checkStrict_error owner hname hblock (infix_of_isTextOf hwords htext (List.mem_cons_of_mem _ hl) hin)

/-- The check does what it is for exactly on schemas where the body of each component is a
single line: the search for the next component also stops at the second line of a body. -/
theorem checksAll_iff (L L' : Layout) :
    ChecksAll L L' ↔ (∀ c ∈ L.components, SingleLine L c) ∧ ∀ c ∈ L'.components, SingleLine L' c := by
  constructor
  · intro h
    exact ⟨fun c hc => (sees_iff L hc).mp (h.openai c hc), fun c hc => (sees_iff L' hc).mp (h.llamacpp c hc)⟩
  · intro h
    have hopenai : ∀ c ∈ L.components, Sees L.text c := fun c hc => (sees_iff L hc).mpr (h.1 c hc)
    have hllamacpp : ∀ c ∈ L'.components, Sees L'.text c := fun c hc => (sees_iff L' hc).mpr (h.2 c hc)
    refine ⟨hopenai, hllamacpp, ?_⟩
    unfold checkStrictSchemaComponents
    rintro (⟨c, hc, hname, hloose⟩ | ⟨c, hc, hname, hloose⟩)
    · obtain ⟨e, he⟩ := checkStrict_loose "OpenAI".toList (hopenai c hc) hname hloose
      exact ⟨e, by rw [he]⟩
    · obtain ⟨e, he⟩ := checkStrict_loose "llama.cpp".toList (hllamacpp c hc) hname hloose
      rw [he]
      cases checkStrict "OpenAI".toList L.text openaiComponents with
      | error e => exact ⟨e, rfl⟩
      | ok _ => exact ⟨_, rfl⟩

/-- Loose components of these names, with the words in the second line of the body. -/
def looseComponents (names : List Text) : List Component :=
  names.map fun name => ⟨name, ["      type: object".toList, "      additionalProperties: true".toList]⟩

def looseLayout (names : List Text) (h : ∀ n ∈ names, newline ∉ n) : Layout where
  preamble := ["components:".toList, "  schemas:".toList]
  components := looseComponents names
  preamble_lines := by decide
  names := by
    intro c hc
    obtain ⟨n, hn, rfl⟩ := List.mem_map.mp hc
    exact h n hn
  bodies := by
    intro c hc
    obtain ⟨n, -, rfl⟩ := List.mem_map.mp hc
    have hlines : ∀ l ∈ ["      type: object".toList, "      additionalProperties: true".toList],
        newline ∉ l ∧ bodyIndent <+: l := by decide
    exact hlines

def looseOpenai : Layout := looseLayout openaiComponents (by decide +kernel)

def looseLlamacpp : Layout := looseLayout llamacppComponents (by decide +kernel)

theorem eq_ok_of_toBool {r : Except Text Unit} (h : r.toBool = true) : r = .ok () := by
  cases r with
  | error e => cases h
  | ok u => rfl

/-- Every listed component allows additional properties, and the check passes. -/
theorem loose_components_pass :
    (∀ c ∈ looseOpenai.components, Loose c) ∧ (∀ c ∈ looseLlamacpp.components, Loose c) ∧
      checkStrictSchemaComponents looseOpenai.text looseLlamacpp.text = .ok () ∧
        ¬ ChecksAll looseOpenai looseLlamacpp := by
  have hwords : additional <:+: "      additionalProperties: true".toList := by decide +kernel
  have hloose : ∀ names, ∀ c ∈ looseComponents names, Loose c := by
    intro names c hc
    obtain ⟨n, -, rfl⟩ := List.mem_map.mp hc
    exact ⟨_, List.mem_cons_of_mem _ List.mem_cons_self, hwords⟩
  have hopenai : (checkStrict "OpenAI".toList looseOpenai.text openaiComponents).toBool = true := by
    decide +kernel
  have hllamacpp : (checkStrict "llama.cpp".toList looseLlamacpp.text llamacppComponents).toBool = true := by
    decide +kernel
  have hpass : checkStrictSchemaComponents looseOpenai.text looseLlamacpp.text = .ok () := by
    rw [checkStrictSchemaComponents, eq_ok_of_toBool hopenai]
    exact eq_ok_of_toBool hllamacpp
  have hfirst : ∃ c, c ∈ looseOpenai.components ∧ c.name ∈ openaiComponents := by
    refine ⟨_, List.mem_map_of_mem List.mem_cons_self, List.mem_cons_self⟩
  refine ⟨hloose _, hloose _, hpass, fun h => ?_⟩
  obtain ⟨c, hc, hname⟩ := hfirst
  obtain ⟨e, he⟩ := h.strict (.inl ⟨c, hc, hname, hloose _ c hc⟩)
  rw [hpass] at he
  cases he

end SchemaBlocks
