import LlamaStack.IniText
import LlamaStack.RouterManager

/-!
# Reading the preset back

The lines of the preset, and what the reader makes of them. Settings that are
zero are not written, and names are written as they are.
-/
namespace PresetReadback

open GoBytes GoUtf8 GoFilepath IniText ModelCatalog Preset

/-! ## The preset as lines -/

/-- The lines of a setting; none when it is zero. -/
def intLines (k : Text) (val : Int) : List Text :=
  if val = 0 then [] else [settingLine k (formatInt val)]

def modelLines (modelsDir : Text) (m : Model) : List Text :=
  [openingLine m.ref, settingLine "model".toList (m.stablePath modelsDir),
      settingLine "alias".toList m.ref] ++
    (if m.mmproj ≠ [] then [settingLine "mmproj".toList (m.mmprojStablePath modelsDir)] else []) ++
    (if kindOf m = embeddingKind then
      [settingLine "embeddings".toList "true".toList, settingLine "pooling".toList "mean".toList]
    else []) ++
    [[]]

def presetLines (cat : Catalog) (cfg : Config) : List Text :=
  [settingLine "version".toList "1".toList, [], openingLine "*".toList] ++
    intLines "ctx-size".toList cfg.ctxSize ++ intLines "parallel".toList cfg.parallel ++
    intLines "threads-http".toList cfg.threadsHTTP ++
    intLines "n-gpu-layers".toList cfg.nGPULayers ++
    [settingLine "jinja".toList "true".toList, []] ++
    (sortedModels cat).flatMap (modelLines cfg.modelsDir)

theorem unlines_append (ls ks : List Text) : unlines (ls ++ ks) = unlines ls ++ unlines ks := by
  simp [unlines]

theorem unlines_intLines (k : Text) (val : Int) : unlines (intLines k val) = writeInt k val := by
  unfold intLines writeInt
  split
  · rfl
  · simp [unlines, settingLine, equals, newline]

theorem unlines_modelLines (modelsDir : Text) (m : Model) :
    unlines (modelLines modelsDir m) = writeModel modelsDir m := by
  unfold modelLines writeModel
  by_cases hm : m.mmproj = [] <;> by_cases hk : kindOf m = embeddingKind <;>
    simp [hm, hk, unlines, settingLine, openingLine, equals, newline]

theorem unlines_presetLines (cat : Catalog) (cfg : Config) :
    unlines (presetLines cat cfg) = (render cat cfg).2 := by
  have hmodels : ∀ ms : List Model, unlines (ms.flatMap (modelLines cfg.modelsDir)) =
      ms.flatMap (writeModel cfg.modelsDir) := by
    intro ms
    induction ms with
    | nil => rfl
    | cons m ms ih =>
      rw [List.flatMap_cons, unlines_append, ih, unlines_modelLines, List.flatMap_cons]
  have hhead : unlines [settingLine "version".toList "1".toList, [], openingLine "*".toList] =
      "version = 1\n\n".toList ++ "[*]\n".toList := by decide +kernel
  have hjinja : unlines [settingLine "jinja".toList "true".toList, []] =
      "jinja = true\n".toList ++ "\n".toList := by decide +kernel
  simp only [presetLines, render, unlines_append, unlines_intLines, hmodels, hhead, hjinja,
    List.append_assoc]

/-! ## What the reader makes of the lines -/

def intSettings (k : Text) (val : Int) : Settings := if val = 0 then [] else [(k, formatInt val)]

/-- The settings of every model, as they are configured. -/
def starSettings (ctxSize parallel threadsHTTP nGPULayers : Int) : Settings :=
  [("ctx-size".toList, formatInt ctxSize), ("parallel".toList, formatInt parallel),
    ("threads-http".toList, formatInt threadsHTTP), ("n-gpu-layers".toList, formatInt nGPULayers),
    ("jinja".toList, "true".toList)]

/-- The section of an entry. -/
def modelSection (modelsDir : Text) (m : Model) : Text × Settings :=
  (m.ref, [("model".toList, m.stablePath modelsDir), ("alias".toList, m.ref)] ++
    (if m.mmproj ≠ [] then [("mmproj".toList, m.mmprojStablePath modelsDir)] else []) ++
    (if kindOf m = embeddingKind then
      [("embeddings".toList, "true".toList), ("pooling".toList, "mean".toList)]
    else []))

/-- What the preset stands for: the header, and one section for each entry. -/
def expected (cat : Catalog) (cfg : Config) : Ini where
  top := [("version".toList, "1".toList)]
  sections :=
    ("*".toList, starSettings cfg.ctxSize cfg.parallel cfg.threadsHTTP cfg.nGPULayers) ::
      (sortedModels cat).map (modelSection cfg.modelsDir)

/-- What the written settings of every model are. -/
def writtenStar (cfg : Config) : Settings :=
  intSettings "ctx-size".toList cfg.ctxSize ++ intSettings "parallel".toList cfg.parallel ++
    intSettings "threads-http".toList cfg.threadsHTTP ++
    intSettings "n-gpu-layers".toList cfg.nGPULayers ++ [("jinja".toList, "true".toList)]

def intRead (k : Text) (val : Int) : List Line := if val = 0 then [] else [.setting k (formatInt val)]

def modelRead (modelsDir : Text) (m : Model) : List Line :=
  [.opening m.ref, .setting "model".toList (m.stablePath modelsDir), .setting "alias".toList m.ref] ++
    (if m.mmproj ≠ [] then [.setting "mmproj".toList (m.mmprojStablePath modelsDir)] else []) ++
    (if kindOf m = embeddingKind then
      [.setting "embeddings".toList "true".toList, .setting "pooling".toList "mean".toList]
    else []) ++
    [.blank]

def presetRead (cat : Catalog) (cfg : Config) : List Line :=
  [.setting "version".toList "1".toList, .blank, .opening "*".toList] ++
    intRead "ctx-size".toList cfg.ctxSize ++ intRead "parallel".toList cfg.parallel ++
    intRead "threads-http".toList cfg.threadsHTTP ++ intRead "n-gpu-layers".toList cfg.nGPULayers ++
    [.setting "jinja".toList "true".toList, .blank] ++
    (sortedModels cat).flatMap (modelRead cfg.modelsDir)

/-- A key that the reader takes apart from its value. -/
def IsKey (k : Text) : Prop := k ≠ [] ∧ k.head? ≠ some '[' ∧ ' ' ∉ k

instance (k : Text) : Decidable (IsKey k) := inferInstanceAs (Decidable (_ ∧ _ ∧ _))

theorem readLine_key {k : Text} (h : IsKey k) (v : Text) :
    readLine (settingLine k v) = some (.setting k v) := readLine_settingLine h.1 h.2.1 h.2.2 v

theorem mapM_intLines {k : Text} (h : IsKey k) (val : Int) :
    (intLines k val).mapM readLine = some (intRead k val) := by
  unfold intLines intRead
  split
  · rfl
  · simp [readLine_key h]

theorem mapM_modelLines (modelsDir : Text) (m : Model) :
    (modelLines modelsDir m).mapM readLine = some (modelRead modelsDir m) := by
  have hmodel : IsKey "model".toList := by decide
  have halias : IsKey "alias".toList := by decide
  have hmmproj : IsKey "mmproj".toList := by decide
  have hembed : IsKey "embeddings".toList := by decide
  have hpool : IsKey "pooling".toList := by decide
  unfold modelLines modelRead
  apply mapM_readLine_append
  · apply mapM_readLine_append
    · apply mapM_readLine_append
      · simp only [List.mapM_cons, List.mapM_nil, readLine_openingLine, readLine_key hmodel,
          readLine_key halias]
        rfl
      · split
        · simp only [List.mapM_cons, List.mapM_nil, readLine_key hmmproj]
          rfl
        · rfl
    · split
      · simp only [List.mapM_cons, List.mapM_nil, readLine_key hembed, readLine_key hpool]
        rfl
      · rfl
  · rfl

theorem mapM_presetLines (cat : Catalog) (cfg : Config) :
    (presetLines cat cfg).mapM readLine = some (presetRead cat cfg) := by
  have hmodels : ∀ ms : List Model, (ms.flatMap (modelLines cfg.modelsDir)).mapM readLine =
      some (ms.flatMap (modelRead cfg.modelsDir)) := by
    intro ms
    induction ms with
    | nil => rfl
    | cons m ms ih =>
      rw [List.flatMap_cons, List.flatMap_cons]
      exact mapM_readLine_append (mapM_modelLines cfg.modelsDir m) ih
  unfold presetLines presetRead
  apply mapM_readLine_append _ (hmodels _)
  apply mapM_readLine_append
  · apply mapM_readLine_append _ (mapM_intLines (by decide) _)
    apply mapM_readLine_append _ (mapM_intLines (by decide) _)
    apply mapM_readLine_append _ (mapM_intLines (by decide) _)
    apply mapM_readLine_append _ (mapM_intLines (by decide) _)
    decide +kernel
  · decide +kernel

/-! ## Gathering -/

theorem gather_settings (s : Settings) (ls : List Line) :
    gather (s.map (fun p => .setting p.1 p.2) ++ ls) =
      { gather ls with top := s ++ (gather ls).top } := by
  induction s with
  | nil => rfl
  | cons p s ih => rw [List.map_cons, List.cons_append, gather, ih]; rfl

theorem intRead_eq (k : Text) (val : Int) :
    intRead k val = (intSettings k val).map fun p => .setting p.1 p.2 := by
  unfold intRead intSettings
  split <;> rfl

theorem modelRead_eq (modelsDir : Text) (m : Model) :
    modelRead modelsDir m = .opening m.ref ::
      ((modelSection modelsDir m).2.map fun p => .setting p.1 p.2) ++ [.blank] := by
  unfold modelRead modelSection
  by_cases hm : m.mmproj = [] <;> by_cases hk : kindOf m = embeddingKind <;> simp [hm, hk]

theorem gather_models (modelsDir : Text) (ms : List Model) :
    gather (ms.flatMap (modelRead modelsDir)) = ⟨[], ms.map (modelSection modelsDir)⟩ := by
  induction ms with
  | nil => rfl
  | cons m ms ih =>
    rw [List.flatMap_cons, modelRead_eq, List.cons_append, List.cons_append, gather,
      List.append_assoc, gather_settings, List.singleton_append, gather, ih, List.append_nil]
    rfl

theorem gather_presetRead (cat : Catalog) (cfg : Config) : gather (presetRead cat cfg) =
    ⟨[("version".toList, "1".toList)],
      ("*".toList, writtenStar cfg) :: (sortedModels cat).map (modelSection cfg.modelsDir)⟩ := by
  have hsplit : presetRead cat cfg = .setting "version".toList "1".toList :: .blank ::
      .opening "*".toList :: ((writtenStar cfg).map (fun p => .setting p.1 p.2) ++ .blank ::
        (sortedModels cat).flatMap (modelRead cfg.modelsDir)) := by
    simp [presetRead, writtenStar, intRead_eq]
  rw [hsplit, gather, gather, gather, gather_settings, gather, gather_models, List.append_nil]

/-! ## Line feeds -/

theorem newline_not_mem_formatInt (i : Int) : newline ∉ formatInt i := by
  have hdigits : ∀ n : Nat, newline ∉ Nat.toDigits 10 n := by
    intro n hn
    have hd := Nat.isDigit_of_mem_toDigits (by decide) (by decide) hn
    exact absurd hd (by decide)
  unfold formatInt
  split
  · rw [List.mem_cons]
    rintro (h | h)
    · exact absurd h (by decide)
    · exact hdigits _ h
  · exact hdigits _

/-- The settings are written, and no line feed stands in what is written of an entry. -/
structure WrittenPlainly (cat : Catalog) (cfg : Config) : Prop where
  nonzero : cfg.ctxSize ≠ 0 ∧ cfg.parallel ≠ 0 ∧ cfg.threadsHTTP ≠ 0 ∧ cfg.nGPULayers ≠ 0
  oneLine : ∀ m ∈ cat.models, newline ∉ m.ref ∧ newline ∉ m.stablePath cfg.modelsDir ∧
    (m.mmproj ≠ [] → newline ∉ m.mmprojStablePath cfg.modelsDir)

theorem newline_not_mem_settingLine {k v : Text} (hk : newline ∉ k) (hv : newline ∉ v) :
    newline ∉ settingLine k v := by
  have he : newline ∉ equals := by decide
  simp [settingLine, hk, hv, he]

theorem newline_not_mem_openingLine {name : Text} (h : newline ∉ name) :
    newline ∉ openingLine name := by
  have hopen : newline ≠ '[' := by decide
  have hclose : newline ≠ ']' := by decide
  simp [openingLine, h, hopen, hclose]

theorem newline_not_mem_intLines {k : Text} (hk : newline ∉ k) (val : Int) :
    ∀ l ∈ intLines k val, newline ∉ l := by
  intro l hl
  unfold intLines at hl
  split at hl
  · cases hl
  · rw [List.mem_singleton.mp hl]
    exact newline_not_mem_settingLine hk (newline_not_mem_formatInt val)

theorem newline_not_mem_modelLines {modelsDir : Text} {m : Model} (href : newline ∉ m.ref)
    (hpath : newline ∉ m.stablePath modelsDir)
    (hproj : m.mmproj ≠ [] → newline ∉ m.mmprojStablePath modelsDir) :
    ∀ l ∈ modelLines modelsDir m, newline ∉ l := by
  intro l hl
  simp only [modelLines, List.mem_append, List.mem_cons, List.not_mem_nil, or_false] at hl
  rcases hl with (((rfl | rfl | rfl) | hl) | hl) | rfl
  · exact newline_not_mem_openingLine href
  · exact newline_not_mem_settingLine (by decide) hpath
  · exact newline_not_mem_settingLine (by decide) href
  · split at hl
    · rename_i hm
      rw [List.mem_singleton.mp hl]
      exact newline_not_mem_settingLine (by decide) (hproj hm)
    · cases hl
  · split at hl
    · simp only [List.mem_cons, List.not_mem_nil, or_false] at hl
      rcases hl with rfl | rfl <;> decide
    · cases hl
  · simp

theorem newline_not_mem_presetLines {cat : Catalog} {cfg : Config}
    (h : ∀ m ∈ cat.models, newline ∉ m.ref ∧ newline ∉ m.stablePath cfg.modelsDir ∧
      (m.mmproj ≠ [] → newline ∉ m.mmprojStablePath cfg.modelsDir)) :
    ∀ l ∈ presetLines cat cfg, newline ∉ l := by
  intro l hl
  simp only [presetLines, List.mem_append, List.mem_cons, List.not_mem_nil, or_false,
    List.mem_flatMap] at hl
  rcases hl with (((((hl | hl) | hl) | hl) | hl) | hl) | ⟨m, hm, hl⟩
  · rcases hl with rfl | rfl | rfl <;> decide
  · exact newline_not_mem_intLines (by decide) _ l hl
  · exact newline_not_mem_intLines (by decide) _ l hl
  · exact newline_not_mem_intLines (by decide) _ l hl
  · exact newline_not_mem_intLines (by decide) _ l hl
  · rcases hl with rfl | rfl <;> decide
  · obtain ⟨h₁, h₂, h₃⟩ := h m ((sortedModels_perm cat).mem_iff.mp hm)
    exact newline_not_mem_modelLines h₁ h₂ h₃ l hl

/-- Reading a preset without stray line feeds. -/
theorem readIni_render {cat : Catalog} {cfg : Config}
    (h : ∀ m ∈ cat.models, newline ∉ m.ref ∧ newline ∉ m.stablePath cfg.modelsDir ∧
      (m.mmproj ≠ [] → newline ∉ m.mmprojStablePath cfg.modelsDir)) :
    readIni (render cat cfg).2 = some ⟨[("version".toList, "1".toList)],
      ("*".toList, writtenStar cfg) :: (sortedModels cat).map (modelSection cfg.modelsDir)⟩ := by
  rw [← unlines_presetLines, readIni_unlines (newline_not_mem_presetLines h)
    (mapM_presetLines cat cfg), gather_presetRead]

/-- All settings are written exactly when none is zero. -/
theorem writtenStar_eq_iff (cfg : Config) :
    writtenStar cfg = starSettings cfg.ctxSize cfg.parallel cfg.threadsHTTP cfg.nGPULayers ↔
      cfg.ctxSize ≠ 0 ∧ cfg.parallel ≠ 0 ∧ cfg.threadsHTTP ≠ 0 ∧ cfg.nGPULayers ≠ 0 := by
  have hlen : ∀ (k : Text) (val : Int), (intSettings k val).length = if val = 0 then 0 else 1 := by
    intro k val
    unfold intSettings
    split <;> rfl
  constructor
  · intro h
    have hl := congrArg List.length h
    simp only [writtenStar, starSettings, List.length_append, hlen, List.length_cons,
      List.length_nil] at hl
    split_ifs at hl <;> omega
  · rintro ⟨h₁, h₂, h₃, h₄⟩
    simp [writtenStar, starSettings, intSettings, h₁, h₂, h₃, h₄]

theorem oneLine_of_readIni {cat : Catalog} {cfg : Config}
    (h : readIni (render cat cfg).2 = some (expected cat cfg)) :
    ∀ m ∈ cat.models, newline ∉ m.ref ∧ newline ∉ m.stablePath cfg.modelsDir ∧
      (m.mmproj ≠ [] → newline ∉ m.mmprojStablePath cfg.modelsDir) := by
  intro m hm
  have hfree := newline_not_mem_of_readIni h
  have hsec : modelSection cfg.modelsDir m ∈ (expected cat cfg).sections :=
    List.mem_cons_of_mem _ (List.mem_map_of_mem ((sortedModels_perm cat).mem_iff.mpr hm))
  have htexts : ∀ x ∈ (modelSection cfg.modelsDir m).1 ::
      Settings.texts (modelSection cfg.modelsDir m).2, newline ∉ x := fun x hx =>
    hfree x (List.mem_append_right _ (List.mem_flatMap.mpr ⟨_, hsec, hx⟩))
  have hvalue : ∀ {k v : Text}, (k, v) ∈ (modelSection cfg.modelsDir m).2 → newline ∉ v := fun hkv =>
    htexts _ (List.mem_cons_of_mem _ (List.mem_flatMap.mpr ⟨_, hkv, by simp⟩))
  refine ⟨htexts _ List.mem_cons_self, ?_, fun hproj => ?_⟩
  · apply @hvalue "model".toList
    simp only [modelSection, List.mem_append, List.mem_cons, true_or]
  · apply @hvalue "mmproj".toList
    simp only [modelSection, hproj, ne_eq, not_false_eq_true, if_true, List.mem_append,
      List.mem_singleton, true_or, or_true]

theorem readIni_render_iff (cat : Catalog) (cfg : Config) :
    readIni (render cat cfg).2 = some (expected cat cfg) ↔ WrittenPlainly cat cfg := by
  constructor
  · intro h
    have hone := oneLine_of_readIni h
    refine ⟨(writtenStar_eq_iff cfg).mp ?_, hone⟩
    rw [readIni_render hone, Option.some.injEq, expected, Ini.mk.injEq] at h
    exact (Prod.mk.inj (List.cons.inj h.2).1).2
  · rintro ⟨hne, hone⟩
    rw [readIni_render hone, (writtenStar_eq_iff cfg).mpr hne, expected]

/-- The preset reads back as one section of settings, the ones that clients are
told, and one section for each entry, exactly when it is written plainly. -/
theorem renderPreset_reads_back (cat : Catalog) (cfg : RouterManager.Config)
    (fileExists : Text → Bool) (router : Option RouterManager.ModelsResponse) :
    (∃ star, readIni (RouterManager.renderPreset cat cfg).2 = some ⟨[("version".toList, "1".toList)],
        ("*".toList, star) :: (sortedModels cat).map (modelSection cfg.modelsDir)⟩ ∧
      star = starSettings cfg.ctxSize cfg.parallel cfg.threadsHTTP cfg.nGPULayers ∧
      ∀ s ∈ RouterManager.listModels cat cfg fileExists router,
        star = starSettings s.ctxSize s.parallel s.threadsHTTP s.nGPULayers) ↔
      WrittenPlainly cat ⟨cfg.modelsDir, cfg.presetPath, cfg.ctxSize, cfg.parallel,
        cfg.threadsHTTP, cfg.nGPULayers, cfg.extraArgs⟩ := by
  rw [← readIni_render_iff]
  constructor
  · rintro ⟨star, hread, rfl, -⟩
    exact hread
  · intro hread
    refine ⟨_, hread, rfl, fun s hs => ?_⟩
    obtain ⟨cm, -, rfl⟩ := List.mem_map.mp hs
    rfl

/-- A configuration whose offload setting is zero. -/
def cpuOnly : RouterManager.Config :=
  ⟨"/models".toList, [], 8192, -1, -1, 0, []⟩

theorem renderPreset_drops_zero :
    ¬ ∃ star, readIni (RouterManager.renderPreset ⟨[], by simp⟩ cpuOnly).2 =
        some ⟨[("version".toList, "1".toList)],
          ("*".toList, star) :: (sortedModels ⟨[], by simp⟩).map (modelSection cpuOnly.modelsDir)⟩ ∧
      star = starSettings cpuOnly.ctxSize cpuOnly.parallel cpuOnly.threadsHTTP cpuOnly.nGPULayers := by
  rintro ⟨star, hread, rfl⟩
  exact absurd ((readIni_render_iff _ _).mp hread).nonzero (by decide)

end PresetReadback
