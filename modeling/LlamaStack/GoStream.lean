import Mathlib.Data.List.Infix
import LlamaStack.GoBytes

/-!
# Streams

What a copy loop sees of its source, and what it does: the lines that
`bufio.Reader.ReadBytes('\n')` returns, and the trace of its reads, its writes to
the client and its flushes. Client writes succeed.
-/
namespace GoStream

open GoBytes

/-- How a source ends: at its end, or with a read error and its text. -/
inductive ReadEnd where
  | eof
  | failed (message : Bytes)
  deriving DecidableEq

/-- A source: the bytes it delivers and how it ends. -/
structure Source where
  bytes : Bytes
  ending : ReadEnd
  deriving DecidableEq

inductive Op where
  | read
  | write (b : Bytes)
  | flush
  deriving DecidableEq

def Op.bytes : Op → Bytes
  | .write b => b
  | _ => []

/-- The bytes that the client has received. -/
def written (ops : List Op) : Bytes := ops.flatMap Op.bytes

@[simp] theorem written_nil : written [] = [] := rfl
@[simp] theorem written_read (ops : List Op) : written (.read :: ops) = written ops := rfl
@[simp] theorem written_flush (ops : List Op) : written (.flush :: ops) = written ops := rfl
@[simp] theorem written_write (b : Bytes) (ops : List Op) :
    written (.write b :: ops) = b ++ written ops := rfl
@[simp] theorem written_append (a b : List Op) : written (a ++ b) = written a ++ written b := by
  simp [written]

/-! ## Lines -/

/-- The lines of a text, the last one perhaps without a line feed. -/
def splitLines (s : Bytes) : List Bytes :=
  (readLines s).1 ++ (if (readLines s).2 = [] then [] else [(readLines s).2])

@[simp] theorem splitLines_nil : splitLines [] = [] := rfl

/-- A nonempty text without line feed: what a source may end with. -/
def IsRest (l : Bytes) : Prop := l ≠ [] ∧ lf ∉ l

/-- Lines that can be the lines of a text. -/
def IsLines : List Bytes → Prop
  | [] => True
  | [l] => IsLine l ∨ IsRest l
  | l :: ls => IsLine l ∧ IsLines ls

theorem splitLines_flatten (s : Bytes) : (splitLines s).flatten = s := by
  have h := readLines_flatten s
  unfold splitLines
  split
  · rename_i h0
    simpa [h0] using h
  · simpa using h

theorem isLines_of_forall {ls : List Bytes} (h : ∀ l ∈ ls, IsLine l) : IsLines ls := by
  induction ls with
  | nil => trivial
  | cons l ls ih =>
    have hl := h l (by simp)
    have hls := ih fun l' hl' => h l' (by simp [hl'])
    cases ls with
    | nil => exact .inl hl
    | cons l' ls => exact ⟨hl, hls⟩

theorem isLines_append {ls ls' : List Bytes} (h : ∀ l ∈ ls, IsLine l) (h' : IsLines ls') :
    IsLines (ls ++ ls') := by
  induction ls with
  | nil => exact h'
  | cons l ls ih =>
    have hl := h l (by simp)
    have hls := ih fun l' hl' => h l' (by simp [hl'])
    rw [List.cons_append]
    cases hc : ls ++ ls' with
    | nil => exact .inl hl
    | cons a b => exact ⟨hl, hc ▸ hls⟩

theorem splitLines_isLines (s : Bytes) : IsLines (splitLines s) := by
  refine isLines_append (readLines_isLine s) ?_
  split
  · trivial
  · rename_i h
    exact .inr ⟨h, readLines_rest s⟩

/-- The lines of a text are recovered from their concatenation. -/
theorem splitLines_of_isLines {ls : List Bytes} (h : IsLines ls) : splitLines ls.flatten = ls := by
  induction ls with
  | nil => rfl
  | cons l ls ih =>
    have hcons : ∀ {l : Bytes}, IsLine l → ∀ s, splitLines (l ++ s) = l :: splitLines s := by
      intro l hl s
      simp only [splitLines, readLines_line_append hl, List.cons_append]
    cases ls with
    | nil =>
      rcases h with h | h
      · simpa using hcons h []
      · simp [splitLines, readLines_of_not_mem h.2, h.1]
    | cons l' ls => rw [List.flatten_cons, hcons h.1, ih h.2]

/-- A line that a source can deliver, its terminator included if it has one. -/
def OneLine (l : Bytes) : Prop := IsLine l ∨ IsRest l

theorem OneLine.lf_dropLast {l : Bytes} (h : OneLine l) : lf ∉ l.dropLast := by
  rcases h with ⟨c, rfl, hc⟩ | ⟨-, hl⟩
  · simpa using hc
  · exact fun hmem => hl (List.mem_of_mem_dropLast hmem)

theorem oneLine_of_isLines {ls : List Bytes} (h : IsLines ls) : ∀ l ∈ ls, OneLine l := by
  induction ls with
  | nil => simp
  | cons a ls ih =>
    cases ls with
    | nil =>
      intro l hl
      rw [List.mem_singleton.mp hl]
      exact h
    | cons b ls =>
      intro l hl
      rcases List.mem_cons.mp hl with rfl | hl
      · exact .inl h.1
      · exact ih h.2 l hl

/-! ## The text of a line -/

/-- A line without the LF or CRLF that ends it. -/
def lineText (line : Bytes) : Bytes :=
  if hasSuffix line [cr, lf] then line.take (line.length - 2)
  else if hasSuffix line [lf] then line.take (line.length - 1)
  else line

def terminator (line : Bytes) : Bytes := line.drop (lineText line).length

theorem lineText_append_terminator (line : Bytes) : lineText line ++ terminator line = line := by
  have h : ∀ n, line.take n ++ line.drop (line.take n).length = line := by
    intro n
    rw [List.length_take]
    rcases Nat.le_total n line.length with hn | hn
    · rw [Nat.min_eq_left hn, List.take_append_drop]
    · rw [Nat.min_eq_right hn, List.take_of_length_le hn, List.drop_length, List.append_nil]
  unfold terminator lineText
  split
  · exact h _
  · split
    · exact h _
    · simp

theorem terminator_cases (line : Bytes) :
    terminator line = [cr, lf] ∨ terminator line = [lf] ∨ terminator line = [] := by
  unfold terminator lineText
  split
  · rename_i h
    obtain ⟨t, rfl⟩ := (hasSuffix_iff _ _).mp h
    simp
  · split
    · rename_i h
      obtain ⟨t, rfl⟩ := (hasSuffix_iff _ _).mp h
      simp
    · simp

theorem terminator_isLineEnd (line : Bytes) : ∀ b ∈ terminator line, isLineEnd b = true := by
  rcases terminator_cases line with h | h | h <;> rw [h] <;> simp [isLineEnd]

/-- A text without line ends, behind which a terminator stands, is the line's text. -/
theorem lineText_eq {text e : Bytes} (he : e = [cr, lf] ∨ e = [lf] ∨ e = [])
    (hlf : lf ∉ text) (hcr : cr ∉ text) : lineText (text ++ e) = text := by
  have hsuf : ∀ {b : UInt8} {t : Bytes}, text = t ++ [b] → b ≠ lf ∧ b ≠ cr := by
    rintro b t rfl
    exact ⟨fun hb => hlf (by simp [hb]), fun hb => hcr (by simp [hb])⟩
  rcases he with rfl | rfl | rfl
  · rw [lineText, if_pos ((hasSuffix_iff _ _).mpr ⟨text, rfl⟩)]
    simp
  · have h : hasSuffix (text ++ [lf]) [cr, lf] = false := by
      rw [← Bool.not_eq_true, hasSuffix_iff]
      rintro ⟨t, ht⟩
      rw [show [cr, lf] = [cr] ++ [lf] from rfl, ← List.append_assoc] at ht
      exact (hsuf (List.append_inj' ht rfl).1).2 rfl
    rw [lineText, h, if_neg (by simp), if_pos ((hasSuffix_iff _ _).mpr ⟨text, rfl⟩)]
    simp
  · have h : ∀ p, hasSuffix text (p ++ [lf]) = false := by
      intro p
      rw [← Bool.not_eq_true, hasSuffix_iff]
      rintro ⟨t, ht⟩
      rw [← List.append_assoc] at ht
      exact (hsuf ht).1 rfl
    have h₁ := h [cr]
    have h₂ := h []
    simp only [List.cons_append, List.nil_append] at h₁ h₂
    rw [List.append_nil, lineText, h₁, h₂]
    simp

theorem terminator_ne_nil {l : Bytes} (h : IsLine l) : terminator l ≠ [] := by
  obtain ⟨c, rfl, -⟩ := h
  have hs : hasSuffix (c ++ [lf]) [lf] = true := (hasSuffix_iff _ _).mpr ⟨c, rfl⟩
  intro ht
  unfold terminator lineText at ht
  rw [if_pos hs] at ht
  split at ht <;> simp at ht
  omega

theorem terminator_of_rest {l : Bytes} (h : lf ∉ l) : terminator l = [] := by
  rw [← lineText_append_terminator l, List.mem_append, not_or] at h
  rcases terminator_cases l with ht | ht | ht
  · simp [ht] at h
  · simp [ht] at h
  · exact ht

theorem lf_not_mem_lineText {l : Bytes} (h : OneLine l) : lf ∉ lineText l := by
  intro hmem
  have he := lineText_append_terminator l
  rcases terminator_cases l with ht | ht | ht
  · refine h.lf_dropLast ?_
    rw [← he, ht, List.dropLast_append_of_ne_nil (by simp)]
    exact List.mem_append_left _ hmem
  · refine h.lf_dropLast ?_
    rw [← he, ht, List.dropLast_concat]
    exact hmem
  · rcases h with h | h
    · exact terminator_ne_nil h ht
    · rw [ht, List.append_nil] at he
      exact h.2 (he ▸ hmem)

/-! ## Blocks -/

/-- Lines cut after every line that ends a block: the complete blocks, and the
lines behind the last of them. -/
def cutBlocks (isEnd : Bytes → Bool) (block : List Bytes) : List Bytes → List (List Bytes) × List Bytes
  | [] => ([], block)
  | l :: ls =>
    if isEnd l then
      let r := cutBlocks isEnd [] ls
      ((block ++ [l]) :: r.1, r.2)
    else cutBlocks isEnd (block ++ [l]) ls

/-- A complete block: one line ends it, the last. -/
def IsBlock (isEnd : Bytes → Bool) (b : List Bytes) : Prop :=
  ∃ c l, b = c ++ [l] ∧ isEnd l = true ∧ ∀ x ∈ c, isEnd x = false

theorem cutBlocks_flatten (isEnd : Bytes → Bool) (block ls : List Bytes) :
    (cutBlocks isEnd block ls).1.flatten ++ (cutBlocks isEnd block ls).2 = block ++ ls := by
  induction ls generalizing block with
  | nil => simp [cutBlocks]
  | cons l ls ih =>
    simp only [cutBlocks]
    split
    · simp [ih]
    · simp [ih]

theorem open_nil (isEnd : Bytes → Bool) : ∀ x ∈ ([] : List Bytes), isEnd x = false := by simp

theorem cutBlocks_spec (isEnd : Bytes → Bool) {block : List Bytes}
    (hb : ∀ x ∈ block, isEnd x = false) (ls : List Bytes) :
    (∀ b ∈ (cutBlocks isEnd block ls).1, IsBlock isEnd b) ∧
      ∀ x ∈ (cutBlocks isEnd block ls).2, isEnd x = false := by
  induction ls generalizing block with
  | nil => exact ⟨by simp [cutBlocks], by simpa [cutBlocks] using hb⟩
  | cons l ls ih =>
    simp only [cutBlocks]
    split
    · rename_i hl
      obtain ⟨h₁, h₂⟩ := ih (open_nil isEnd)
      refine ⟨fun b hmem => ?_, h₂⟩
      rcases List.mem_cons.mp hmem with rfl | hmem
      · exact ⟨block, l, rfl, hl, hb⟩
      · exact h₁ b hmem
    · rename_i hl
      refine ih fun x hx => ?_
      rcases List.mem_append.mp hx with hx | hx
      · exact hb x hx
      · rw [List.mem_singleton.mp hx]
        exact Bool.not_eq_true _ |>.mp hl

theorem cutBlocks_open (isEnd : Bytes → Bool) (block c ls : List Bytes)
    (hc : ∀ x ∈ c, isEnd x = false) :
    cutBlocks isEnd block (c ++ ls) = cutBlocks isEnd (block ++ c) ls := by
  induction c generalizing block with
  | nil => simp
  | cons x c ih =>
    rw [List.cons_append, cutBlocks, if_neg (by simp [hc x (by simp)]),
      ih _ fun y hy => hc y (by simp [hy])]
    simp

/-- Complete blocks and open lines are recovered from the list of all lines. -/
theorem cutBlocks_of_blocks (isEnd : Bytes → Bool) {bs : List (List Bytes)} {rest : List Bytes}
    (hbs : ∀ b ∈ bs, IsBlock isEnd b) (hrest : ∀ x ∈ rest, isEnd x = false) :
    cutBlocks isEnd [] (bs.flatten ++ rest) = (bs, rest) := by
  induction bs with
  | nil => simpa [cutBlocks] using cutBlocks_open isEnd [] rest [] hrest
  | cons b bs ih =>
    obtain ⟨c, l, rfl, hl, hc⟩ := hbs b (by simp)
    have hih := ih fun b hb => hbs b (by simp [hb])
    rw [List.flatten_cons, List.append_assoc, List.append_assoc, cutBlocks_open isEnd [] c _ hc]
    simp [cutBlocks, hl, hih]

theorem cutBlocks_congr {f g : Bytes → Bool} (block : List Bytes) {ls : List Bytes}
    (h : ∀ l ∈ ls, f l = g l) : cutBlocks f block ls = cutBlocks g block ls := by
  induction ls generalizing block with
  | nil => rfl
  | cons l ls ih =>
    have hls := fun b => ih b fun x hx => h x (by simp [hx])
    rw [cutBlocks, cutBlocks, h l (by simp), hls, hls]

/-! ## Texts as blocks -/

def splitBlocks (isEnd : Bytes → Bool) (s : Bytes) : List (List Bytes) :=
  let c := cutBlocks isEnd [] (splitLines s)
  c.1 ++ (if c.2 = [] then [] else [c.2])

theorem splitBlocks_congr {f g : Bytes → Bool} {s : Bytes} (h : ∀ l ∈ splitLines s, f l = g l) :
    splitBlocks f s = splitBlocks g s := by
  rw [splitBlocks, splitBlocks, cutBlocks_congr [] h]

/-- A block that anything may follow. -/
def Closed (isEnd : Bytes → Bool) (b : List Bytes) : Prop := IsBlock isEnd b ∧ ∀ l ∈ b, IsLine l

/-- What the last block of a text may be: no line needs to end it, and its last
line may be unterminated. -/
def LastBlock (isEnd : Bytes → Bool) (b : List Bytes) : Prop :=
  (IsBlock isEnd b ∨ (b ≠ [] ∧ ∀ x ∈ b, isEnd x = false)) ∧ IsLines b

/-- Blocks that can be the blocks of a text. -/
def StreamBlocks (isEnd : Bytes → Bool) : List (List Bytes) → Prop
  | [] => True
  | [b] => LastBlock isEnd b
  | b :: bs => Closed isEnd b ∧ StreamBlocks isEnd bs

theorem Closed.last {isEnd : Bytes → Bool} {b : List Bytes} (h : Closed isEnd b) :
    LastBlock isEnd b := ⟨.inl h.1, isLines_of_forall h.2⟩

theorem streamBlocks_append {isEnd : Bytes → Bool} {bs cs : List (List Bytes)}
    (hbs : ∀ b ∈ bs, Closed isEnd b) (hcs : StreamBlocks isEnd cs) : StreamBlocks isEnd (bs ++ cs) := by
  induction bs with
  | nil => exact hcs
  | cons b bs ih =>
    have hb := hbs b (by simp)
    have h := ih fun b' hb' => hbs b' (by simp [hb'])
    rw [List.cons_append]
    cases hc : bs ++ cs with
    | nil => exact hb.last
    | cons x xs => exact ⟨hb, hc ▸ h⟩

theorem streamBlocks_of_closed {isEnd : Bytes → Bool} {bs : List (List Bytes)}
    (hbs : ∀ b ∈ bs, Closed isEnd b) : StreamBlocks isEnd bs := by
  have h := streamBlocks_append hbs (show StreamBlocks isEnd [] from trivial)
  rwa [List.append_nil] at h

/-- All blocks of a text but the last are closed. -/
theorem streamBlocks_cases {isEnd : Bytes → Bool} {bs : List (List Bytes)}
    (h : StreamBlocks isEnd bs) :
    bs = [] ∨ ∃ init b, bs = init ++ [b] ∧ (∀ c ∈ init, Closed isEnd c) ∧ LastBlock isEnd b := by
  induction bs with
  | nil => exact .inl rfl
  | cons b bs ih =>
    right
    cases bs with
    | nil => exact ⟨[], b, rfl, by simp, h⟩
    | cons c cs =>
      rcases ih h.2 with h0 | ⟨init, l, he, hi, hl⟩
      · cases h0
      · refine ⟨b :: init, l, by rw [he]; rfl, fun x hx => ?_, hl⟩
        rcases List.mem_cons.mp hx with rfl | hx
        · exact h.1
        · exact hi x hx

theorem isLines_init {ls : List Bytes} {l : Bytes} (h : IsLines (ls ++ [l])) :
    ∀ x ∈ ls, IsLine x := by
  induction ls with
  | nil => simp
  | cons a ls ih =>
    have h' : IsLine a ∧ IsLines (ls ++ [l]) := by
      rw [List.cons_append] at h
      cases hc : ls ++ [l] with
      | nil => simp at hc
      | cons x xs =>
        rw [hc] at h
        exact h
    intro x hx
    rcases List.mem_cons.mp hx with rfl | hx
    · exact h'.1
    · exact ih h'.2 x hx

theorem isLines_suffix {ls ls' : List Bytes} (h : IsLines (ls ++ ls')) : IsLines ls' := by
  induction ls with
  | nil => exact h
  | cons a ls ih =>
    rw [List.cons_append] at h
    cases hc : ls ++ ls' with
    | nil =>
      rw [(List.append_eq_nil_iff.mp hc).2]
      trivial
    | cons x xs =>
      rw [hc] at h
      exact ih (hc ▸ h.2)

theorem isLines_nonlast {ls ls' : List Bytes} (h : IsLines (ls ++ ls')) (hne : ls' ≠ []) :
    ∀ x ∈ ls, IsLine x := by
  obtain ⟨init, l, rfl⟩ := List.eq_nil_or_concat' ls' |>.resolve_left hne
  rw [← List.append_assoc] at h
  exact fun x hx => isLines_init h x (by simp [hx])

theorem isLines_left {ls ls' : List Bytes} (h : IsLines (ls ++ ls')) : IsLines ls := by
  by_cases hne : ls' = []
  · simpa [hne] using h
  · exact isLines_of_forall (isLines_nonlast h hne)

/-- The blocks of a text are recovered from their concatenation. -/
theorem splitBlocks_of_stream {isEnd : Bytes → Bool} {bs : List (List Bytes)}
    (h : StreamBlocks isEnd bs) : splitBlocks isEnd bs.flatten.flatten = bs := by
  rcases streamBlocks_cases h with rfl | ⟨init, b, rfl, hi, hb⟩
  · rfl
  · have hlines : IsLines (init ++ [b]).flatten := by
      rw [List.flatten_append, List.flatten_singleton]
      refine isLines_append (fun l hl => ?_) hb.2
      obtain ⟨c, hc, hlc⟩ := List.mem_flatten.mp hl
      exact (hi c hc).2 l hlc
    rw [splitBlocks, splitLines_of_isLines hlines]
    rcases hb.1 with hblock | ⟨hne, hopen⟩
    · have hall : ∀ c ∈ init ++ [b], IsBlock isEnd c := by
        intro c hc
        rcases List.mem_append.mp hc with hc | hc
        · exact (hi c hc).1
        · exact List.mem_singleton.mp hc ▸ hblock
      have hcut := cutBlocks_of_blocks isEnd hall (open_nil isEnd)
      rw [List.append_nil] at hcut
      simp only [hcut, if_true, List.append_nil]
    · have hcut := cutBlocks_of_blocks isEnd (fun c hc => (hi c hc).1) hopen
      simp only [List.flatten_append, List.flatten_singleton, hcut, hne, if_false]

theorem cutBlocks_closed (isEnd : Bytes → Bool) {ls : List Bytes} (h : IsLines ls) :
    ∀ init b, (cutBlocks isEnd [] ls).1 = init ++ [b] →
      (∀ c ∈ init, Closed isEnd c) ∧ LastBlock isEnd b := by
  intro init b he
  have hf := cutBlocks_flatten isEnd [] ls
  obtain ⟨hb, -⟩ := cutBlocks_spec isEnd (open_nil isEnd) ls
  rw [he] at hf hb
  simp only [List.flatten_append, List.flatten_singleton, List.nil_append, List.append_assoc] at hf
  rw [← hf] at h
  have hbb := hb b (by simp)
  have hne : b ++ (cutBlocks isEnd [] ls).2 ≠ [] := by
    obtain ⟨c, l, rfl, -⟩ := hbb
    simp
  refine ⟨fun c hc => ⟨hb c (by simp [hc]), fun l hl => ?_⟩, .inl hbb, ?_⟩
  · exact isLines_nonlast h hne l (List.mem_flatten.mpr ⟨c, hc, hl⟩)
  · exact isLines_left (isLines_suffix h)

theorem cutBlocks_stream (isEnd : Bytes → Bool) {ls : List Bytes} (h : IsLines ls) :
    StreamBlocks isEnd (cutBlocks isEnd [] ls).1 := by
  rcases List.eq_nil_or_concat' (cutBlocks isEnd [] ls).1 with h0 | ⟨init, b, he⟩
  · rw [h0]
    trivial
  · obtain ⟨hi, hb⟩ := cutBlocks_closed isEnd h init b he
    rw [he]
    exact streamBlocks_append hi hb

theorem splitBlocks_stream (isEnd : Bytes → Bool) (s : Bytes) :
    StreamBlocks isEnd (splitBlocks isEnd s) := by
  have hl := splitLines_isLines s
  simp only [splitBlocks]
  split
  · simpa using cutBlocks_stream isEnd hl
  · rename_i hne
    have hf := cutBlocks_flatten isEnd [] (splitLines s)
    obtain ⟨hb, hr⟩ := cutBlocks_spec isEnd (open_nil isEnd) (splitLines s)
    rw [List.nil_append] at hf
    rw [← hf] at hl
    refine streamBlocks_append (fun c hc => ⟨hb c hc, fun l hlc => ?_⟩)
      (show LastBlock isEnd _ from ⟨.inr ⟨hne, hr⟩, isLines_suffix hl⟩)
    exact isLines_nonlast hl hne l (List.mem_flatten.mpr ⟨c, hc, hlc⟩)

theorem splitBlocks_lines (isEnd : Bytes → Bool) (s : Bytes) :
    (splitBlocks isEnd s).flatten = splitLines s := by
  have hf := cutBlocks_flatten isEnd [] (splitLines s)
  simp only [splitBlocks]
  split
  · rename_i h0
    simpa [h0] using hf
  · simpa using hf

theorem splitBlocks_flatten (isEnd : Bytes → Bool) (s : Bytes) :
    (splitBlocks isEnd s).flatten.flatten = s := by
  rw [splitBlocks_lines, splitLines_flatten]

/-! ## Flushing -/

/-- The bytes that are written and not flushed after a trace, `p` before it. -/
def pendingFrom (p : Bytes) : List Op → Bytes
  | [] => p
  | .read :: ops => pendingFrom p ops
  | .write b :: ops => pendingFrom (p ++ b) ops
  | .flush :: ops => pendingFrom [] ops

/-- Whenever the loop reads, all that it has written is flushed. -/
def Prompt (ops : List Op) : Prop :=
  ∀ pre post, ops = pre ++ .read :: post → pendingFrom [] pre = []

/-- The same for a trace behind which `p` is still pending. -/
def PromptFrom (p : Bytes) : List Op → Prop
  | [] => True
  | .read :: ops => p = [] ∧ PromptFrom p ops
  | .write b :: ops => PromptFrom (p ++ b) ops
  | .flush :: ops => PromptFrom [] ops

theorem promptFrom_iff (p : Bytes) (ops : List Op) :
    PromptFrom p ops ↔ ∀ pre post, ops = pre ++ .read :: post → pendingFrom p pre = [] := by
  induction ops generalizing p with
  | nil => simp [PromptFrom]
  | cons op ops ih =>
    have hcons : (∀ pre post, op :: ops = pre ++ .read :: post → pendingFrom p pre = []) ↔
        (op = .read → p = []) ∧
          ∀ pre post, ops = pre ++ .read :: post → pendingFrom p (op :: pre) = [] := by
      constructor
      · intro h
        refine ⟨fun hop => h [] ops (by rw [hop]; rfl), fun pre post he => ?_⟩
        exact h (op :: pre) post (by rw [he]; rfl)
      · rintro ⟨h₁, h₂⟩ pre post he
        cases pre with
        | nil => exact h₁ (List.cons.inj he).1
        | cons x pre =>
          obtain ⟨hop, hrest⟩ := List.cons.inj he
          exact hop ▸ h₂ pre post hrest
    rw [hcons]
    cases op with
    | read => simp only [PromptFrom, ih, pendingFrom, true_imp_iff]
    | write b => simp only [PromptFrom, ih, pendingFrom, reduceCtorEq, false_imp_iff, true_and]
    | flush => simp only [PromptFrom, ih, pendingFrom, reduceCtorEq, false_imp_iff, true_and]

theorem prompt_iff (ops : List Op) : Prompt ops ↔ PromptFrom [] ops := (promptFrom_iff [] ops).symm

theorem promptFrom_append (p : Bytes) (a b : List Op) :
    PromptFrom p (a ++ b) ↔ PromptFrom p a ∧ PromptFrom (pendingFrom p a) b := by
  induction a generalizing p with
  | nil => simp [PromptFrom, pendingFrom]
  | cons op a ih => cases op <;> simp [PromptFrom, pendingFrom, ih, and_assoc]

theorem pendingFrom_append (p : Bytes) (a b : List Op) :
    pendingFrom p (a ++ b) = pendingFrom (pendingFrom p a) b := by
  induction a generalizing p with
  | nil => rfl
  | cons op a ih => cases op <;> simp [pendingFrom, ih]

/-- A trace of writes only. -/
def OnlyWrites (ops : List Op) : Prop := ∀ op ∈ ops, ∃ b, op = .write b

theorem promptFrom_writes (p : Bytes) {a : List Op} (h : OnlyWrites a) :
    PromptFrom p a ∧ pendingFrom p a = p ++ written a := by
  induction a generalizing p with
  | nil => exact ⟨trivial, by simp [pendingFrom]⟩
  | cons op a ih =>
    obtain ⟨b, rfl⟩ := h op (by simp)
    obtain ⟨h₁, h₂⟩ := ih (p ++ b) fun x hx => h x (by simp [hx])
    exact ⟨h₁, by rw [pendingFrom, h₂, written_write, List.append_assoc]⟩

end GoStream
