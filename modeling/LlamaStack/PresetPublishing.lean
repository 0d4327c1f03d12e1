import LlamaStack.FileReplacement
import LlamaStack.RouterManager
import LlamaStack.SingleDownload

/-!
# Publishing the preset

`Render` with what it does to the files, over any number of starts of the gateway, each of
which may fail or be killed anywhere. The router may read the preset at any time.
-/
namespace PresetPublishing

open Effects GoBytes GoUtf8 GoFilepath ModelCatalog PosixFiles FileReplacement

abbrev Run (α : Type) := FileReplacement.Run Text UInt8 Bytes α

def tmpExt : Text := ".tmp".toList

/-- `Render`. -/
def render (cat : Catalog) (cfg : Preset.Config) : Run (Except Bytes Preset.Rendered) := do
  let rendered := (Preset.render cat cfg).1
  let err ← op (Op.mkdirAll (dir rendered.path))
  match (err : Option Bytes) with
  | some err => return .error err
  | none =>
    let err ← replaceFile (rendered.path ++ tmpExt) rendered.path (encodeText (Preset.render cat cfg).2)
    match (err : Option Bytes) with
    | some err => return .error err
    | none => return .ok rendered

/-- The settings of the manager, as `Render` takes them. -/
def presetConfig (cfg : RouterManager.Config) : Preset.Config :=
  ⟨cfg.modelsDir, cfg.presetPath, cfg.ctxSize, cfg.parallel, cfg.threadsHTTP, cfg.nGPULayers, cfg.extraArgs⟩

/-- `RenderPreset`: the error, and the last render that the manager remembers. -/
def renderPreset (cat : Catalog) (cfg : RouterManager.Config) (lastRender : Preset.Rendered) :
    Run (Option Bytes × Preset.Rendered) := do
  let r ← render cat (presetConfig cfg)
  match r with
  | .error err => return (some err, lastRender)
  | .ok r => return (none, r)

/-! ## One start -/

theorem path_ne_tmp (path : Text) : path ≠ path ++ tmpExt := by
  intro h
  exact absurd (List.self_eq_append_right.mp h) (by decide)

theorem render_spec (cat : Catalog) (cfg : Preset.Config) (fs : Files Text UInt8) :
    Spec effect
      (fun fs' _ => Replaced ((Preset.render cat cfg).1.path ++ tmpExt) (Preset.render cat cfg).1.path
        (encodeText (Preset.render cat cfg).2) fs fs')
      (fun r fs' => Replaced ((Preset.render cat cfg).1.path ++ tmpExt) (Preset.render cat cfg).1.path
          (encodeText (Preset.render cat cfg).2) fs fs' ∧
        (∀ rendered, r = .ok rendered → rendered = (Preset.render cat cfg).1 ∧
          fs'.read (Preset.render cat cfg).1.path = some (encodeText (Preset.render cat cfg).2)) ∧
        ∀ err, r = .error err → fs'.read (Preset.render cat cfg).1.path = fs.read (Preset.render cat cfg).1.path)
      (render cat cfg) fs := by
  have hsame : ∀ {tmp path data}, Replaced tmp path data fs fs := ⟨.inl rfl, fun _ _ _ => rfl⟩
  refine spec_op hsame fun err fs₁ hmkdir => ?_
  obtain rfl : fs₁ = fs := hmkdir
  cases err with
  | some err => exact ⟨hsame, (fun _ h => by cases h), fun _ _ => rfl⟩
  | none =>
    apply spec_bind
    refine spec_mono (fun _ _ h => h) (fun err fs₂ h => ?_) (replaceFile_spec (path_ne_tmp _) _ fs₁)
    obtain ⟨hreplaced, hdone, hfailed⟩ := h
    cases err with
    | some err => exact ⟨hreplaced, (fun _ h => by cases h), fun _ _ => hfailed (by simp)⟩
    | none =>
      refine ⟨hreplaced, fun rendered h => ?_, fun _ h => by cases h⟩
      cases h
      exact ⟨rfl, hdone rfl⟩

/-- Without an error the manager remembers what is at the path; with one, what it has
remembered before. -/
theorem renderPreset_spec (cat : Catalog) (cfg : RouterManager.Config) (lastRender : Preset.Rendered)
    (fs : Files Text UInt8) :
    Spec effect
      (fun fs' _ => Replaced ((RouterManager.renderPreset cat cfg).1.path ++ tmpExt)
        (RouterManager.renderPreset cat cfg).1.path (encodeText (RouterManager.renderPreset cat cfg).2) fs fs')
      (fun r fs' => Replaced ((RouterManager.renderPreset cat cfg).1.path ++ tmpExt)
          (RouterManager.renderPreset cat cfg).1.path (encodeText (RouterManager.renderPreset cat cfg).2) fs fs' ∧
        (r.1 = none → r.2 = (RouterManager.renderPreset cat cfg).1 ∧
          fs'.read r.2.path = some (encodeText (RouterManager.renderPreset cat cfg).2)) ∧
        (r.1 ≠ none → r.2 = lastRender))
      (renderPreset cat cfg lastRender) fs := by
  apply spec_bind
  refine spec_mono (fun _ _ h => h) (fun r fs' h => ?_) (render_spec cat (presetConfig cfg) fs)
  obtain ⟨hreplaced, hok, -⟩ := h
  cases r with
  | error err => exact ⟨hreplaced, (fun h => by cases h), fun _ => rfl⟩
  | ok rendered =>
    obtain ⟨rfl, hread⟩ := hok rendered rfl
    exact ⟨hreplaced, fun _ => ⟨rfl, hread⟩, fun h => absurd rfl h⟩

/-! ## Many starts -/

/-- A start of the gateway: what it renders, and whether `RenderPreset` has returned
without an error. -/
structure Start where
  cat : Catalog
  cfg : RouterManager.Config
  returned : Bool

def Start.path (s : Start) : Text := (RouterManager.renderPreset s.cat s.cfg).1.path

def Start.text (s : Start) : Text := (RouterManager.renderPreset s.cat s.cfg).2

/-- Starts one after the other, the newest first. A start that has not returned has failed,
or was killed after any of its operations. -/
inductive Starts (fs₀ : Files Text UInt8) : List Start → Files Text UInt8 → Prop where
  | none : Starts fs₀ [] fs₀
  | returned {earlier : List Start} {fs fs' : Files Text UInt8} {cat : Catalog} {cfg : RouterManager.Config}
      {t : List (Event (Op Text UInt8) (Op.Res Bytes))} {unset rendered : Preset.Rendered} :
      Starts fs₀ earlier fs → Effects.Run effect (renderPreset cat cfg unset) fs t (.done (none, rendered)) fs' →
      Starts fs₀ (⟨cat, cfg, true⟩ :: earlier) fs'
  | stopped {earlier : List Start} {fs fs' : Files Text UInt8} {cat : Catalog} {cfg : RouterManager.Config}
      {t : List (Event (Op Text UInt8) (Op.Res Bytes))} {unset : Preset.Rendered}
      {p : Run (Option Bytes × Preset.Rendered)} :
      Starts fs₀ earlier fs → Effects.Run effect (renderPreset cat cfg unset) fs t p fs' →
      Starts fs₀ (⟨cat, cfg, false⟩ :: earlier) fs'

/-- The preset is that of the newest start that has published its own, which one that has
returned has; before any it is the old file. -/
def Shows (old : Option Bytes) : List Start → Option Bytes → Prop
  | [], shown => shown = old
  | s :: earlier, shown => shown = some (encodeText s.text) ∨ s.returned = false ∧ Shows old earlier shown

variable {fs₀ fs : Files Text UInt8} {starts : List Start} {path : Text}

theorem replaced_of_run {cat : Catalog} {cfg : RouterManager.Config} {unset : Preset.Rendered} {fs' : Files Text UInt8}
    {t : List (Event (Op Text UInt8) (Op.Res Bytes))} {p : Run (Option Bytes × Preset.Rendered)}
    (h : Effects.Run effect (renderPreset cat cfg unset) fs t p fs') :
    Replaced ((RouterManager.renderPreset cat cfg).1.path ++ tmpExt) (RouterManager.renderPreset cat cfg).1.path
      (encodeText (RouterManager.renderPreset cat cfg).2) fs fs' := by
  refine spec_state ?_ ?_ (spec_run (renderPreset_spec cat cfg unset fs) h).1
  · exact fun _ _ hreplaced => hreplaced
  · exact fun _ _ hend => hend.1

/-- Whenever starts of the gateway are cut off, the preset is whole, and no file but the
preset and its temporary file has changed. -/
theorem starts_whole (h : Starts fs₀ starts fs) (hpath : ∀ s ∈ starts, s.path = path) :
    Shows (fs₀.read path) starts (fs.read path) ∧
      ∀ q, q ≠ path → q ≠ path ++ tmpExt → fs.read q = fs₀.read q := by
  induction h with
  | none => exact ⟨rfl, fun _ _ _ => rfl⟩
  | @returned earlier fs fs' cat cfg t unset rendered _ hrun ih =>
    obtain ⟨-, hothers⟩ := ih fun s hs => hpath s (List.mem_cons_of_mem _ hs)
    obtain rfl : (RouterManager.renderPreset cat cfg).1.path = path := hpath _ List.mem_cons_self
    obtain ⟨-, hnone, -⟩ := (spec_run (renderPreset_spec cat cfg unset fs) hrun).1
    obtain ⟨hrendered, hread⟩ := hnone rfl
    refine ⟨.inl (hrendered ▸ hread), fun q hq hq' => ?_⟩
    rw [(replaced_of_run hrun).others q hq hq', hothers q hq hq']
  | @stopped earlier fs fs' cat cfg t unset p _ hrun ih =>
    obtain ⟨hshows, hothers⟩ := ih fun s hs => hpath s (List.mem_cons_of_mem _ hs)
    obtain rfl : (RouterManager.renderPreset cat cfg).1.path = path := hpath _ List.mem_cons_self
    refine ⟨?_, fun q hq hq' => ?_⟩
    · cases (replaced_of_run hrun).whole with
      | inl hold => exact .inr ⟨rfl, hold ▸ hshows⟩
      | inr hnew => exact .inl hnew
    · rw [(replaced_of_run hrun).others q hq hq', hothers q hq hq']

/-- Once a start has returned, the preset is its own or that of one after it. -/
theorem shown_of_returned {old shown : Option Bytes} (h : Shows old starts shown)
    (hreturned : ∃ s ∈ starts, s.returned = true) :
    ∃ later s earlier, starts = later ++ s :: earlier ∧ (∀ s' ∈ later, s'.returned = false) ∧
      shown = some (encodeText s.text) := by
  induction starts with
  | nil =>
    obtain ⟨s, hs, -⟩ := hreturned
    cases hs
  | cons s earlier ih =>
    cases h with
    | inl h => exact ⟨[], s, earlier, rfl, by simp, h⟩
    | inr h =>
      obtain ⟨hs, h⟩ := h
      have hearlier : ∃ s ∈ earlier, s.returned = true := by
        obtain ⟨s', hs', hr⟩ := hreturned
        cases List.mem_cons.mp hs' with
        | inl heq =>
          rw [heq, hs] at hr
          cases hr
        | inr hmem => exact ⟨s', hmem, hr⟩
      obtain ⟨later, s', rest, rfl, hlater, hshown⟩ := ih h hearlier
      refine ⟨s :: later, s', rest, rfl, fun x hx => ?_, hshown⟩
      cases List.mem_cons.mp hx with
      | inl heq => rw [heq, hs]
      | inr hmem => exact hlater x hmem

/-- Once a start has returned, the preset is always the whole text of that start or of one
after it, whatever is cut off since, and no other file has changed. -/
theorem starts_read (h : Starts fs₀ starts fs) (hpath : ∀ s ∈ starts, s.path = path)
    (hreturned : ∃ s ∈ starts, s.returned = true) :
    (∃ later s earlier, starts = later ++ s :: earlier ∧ (∀ s' ∈ later, s'.returned = false) ∧
      fs.read path = some (encodeText s.text)) ∧
      ∀ q, q ≠ path → q ≠ path ++ tmpExt → fs.read q = fs₀.read q := by
  obtain ⟨hshows, hothers⟩ := starts_whole h hpath
  exact ⟨shown_of_returned hshows hreturned, hothers⟩

/-! ## A start that is killed behind one that returned -/

theorem writeFile_completes (fs : Files Text UInt8) (p : Text) (data : Bytes) :
    ∃ t, Effects.Run effect (writeFile p data : Run (Option Bytes)) fs t (.done none) (fs.put p data) := by
  have hopen : effect fs (.openFile p) (.ok (fs.openTrunc p).1 : Except Bytes Nat) (fs.openTrunc p).2 := ⟨rfl, rfl⟩
  have hwrite : effect (fs.openTrunc p).2 (.write (fs.openTrunc p).1 data) (none : Option Bytes) (fs.put p data) := rfl
  have hclose : effect (fs.put p data) (.close (fs.openTrunc p).1) (none : Option Bytes) (fs.put p data) := rfl
  exact ⟨_, .step hopen (.step hwrite (.step hclose (.refl _ _)))⟩

theorem render_completes (cat : Catalog) (cfg : Preset.Config) (fs : Files Text UInt8) :
    ∃ t fs', Effects.Run effect (render cat cfg) fs t (.done (.ok (Preset.render cat cfg).1)) fs' := by
  obtain ⟨t, hwrite⟩ := writeFile_completes fs ((Preset.render cat cfg).1.path ++ tmpExt)
    (encodeText (Preset.render cat cfg).2)
  have hrename : ∃ fs', Effects.Run effect
      (op (Op.rename ((Preset.render cat cfg).1.path ++ tmpExt) (Preset.render cat cfg).1.path) : Run (Option Bytes))
      (fs.put ((Preset.render cat cfg).1.path ++ tmpExt) (encodeText (Preset.render cat cfg).2))
      [⟨.rename ((Preset.render cat cfg).1.path ++ tmpExt) (Preset.render cat cfg).1.path, none⟩] (.done none) fs' :=
    ⟨_, .step ⟨by simp [put_links], rfl⟩ (.refl _ _)⟩
  obtain ⟨fs', hrename⟩ := hrename
  have hreplace : ∃ t, Effects.Run effect (replaceFile ((Preset.render cat cfg).1.path ++ tmpExt)
      (Preset.render cat cfg).1.path (encodeText (Preset.render cat cfg).2) : Run (Option Bytes))
      fs t (.done none) fs' :=
    ⟨_, hwrite.bind hrename⟩
  obtain ⟨t', hreplace⟩ := hreplace
  exact ⟨_, fs', .step (r := none) rfl (hreplace.bind (.refl _ _))⟩

theorem renderPreset_completes (cat : Catalog) (cfg : RouterManager.Config) (unset : Preset.Rendered)
    (fs : Files Text UInt8) : ∃ t rendered fs',
      Effects.Run effect (renderPreset cat cfg unset) fs t (.done (none, rendered)) fs' := by
  obtain ⟨t, fs', hrun⟩ := render_completes cat (presetConfig cfg) fs
  exact ⟨_, _, _, hrun.bind (.refl _ _)⟩

open CatalogPaths SingleDownload DownloaderAtomicity

def presetPath : Text := "/models/preset.ini".toList

def routerConfig : RouterManager.Config := ⟨modelsRoot, presetPath, 4096, 1, 1, 99, []⟩

def largerConfig : RouterManager.Config := { routerConfig with ctxSize := 8192 }

/-- The newest first: one with a larger context that is killed, and one that has returned. -/
def twoStarts : List Start := [⟨oneEntry, largerConfig, false⟩, ⟨oneEntry, routerConfig, true⟩]

/-- The second start is killed when its temporary file is open. -/
theorem starts_read_killed : ∃ fs, Starts noFiles twoStarts fs ∧
    (∃ later s earlier, twoStarts = later ++ s :: earlier ∧ (∀ s' ∈ later, s'.returned = false) ∧
      fs.read presetPath = some (encodeText s.text)) ∧
      ∀ q, q ≠ presetPath → q ≠ presetPath ++ tmpExt → fs.read q = noFiles.read q := by
  obtain ⟨t, rendered, fs, hrun⟩ := renderPreset_completes oneEntry routerConfig ⟨[], [], 0⟩ noFiles
  have hkilled : ∃ t p, Effects.Run effect (renderPreset oneEntry largerConfig ⟨[], [], 0⟩) fs t p
      (fs.openTrunc (presetPath ++ tmpExt)).2 :=
    ⟨_, _, .step (r := none) rfl (.step (r := .ok (fs.openTrunc (presetPath ++ tmpExt)).1) ⟨rfl, rfl⟩ (.refl _ _))⟩
  obtain ⟨t', p, hkilled⟩ := hkilled
  have hstarts : Starts noFiles twoStarts _ := .stopped (.returned .none hrun) hkilled
  refine ⟨_, hstarts, starts_read hstarts (fun s hs => ?_) ⟨_, .tail _ (.head _), rfl⟩⟩
  simp only [twoStarts, List.mem_cons, List.not_mem_nil, or_false] at hs
  rcases hs with rfl | rfl
  · rfl
  · rfl

end PresetPublishing
