import LlamaStack.Preset
import LlamaStack.GoJsonDecode

/-!
# The router manager

What the gateway knows of the router: the answer to `/models`, the preset it
renders for it, and the list of models that it reports to clients.
-/
namespace RouterManager

open GoBytes GoUtf8 GoJson GoMap ModelCatalog

structure Config where
  modelsDir : Text
  presetPath : Text
  ctxSize : Int
  parallel : Int
  threadsHTTP : Int
  nGPULayers : Int
  extraArgs : Text

/-- One record of the router's answer; status and meta are raw messages. -/
structure ModelRecord where
  id : Text := []
  aliases : List Text := []
  object : Text := []
  status : Option Json := none
  metadata : Option Json := none

structure ModelsResponse where
  object : Text
  data : List ModelRecord

structure ModelStatus where
  id : Text
  object : Text
  ownedBy : Text
  downloaded : Bool
  routerStatus : Text
  running : Bool
  coldStart : Bool
  repo : Text
  quant : Text
  kind : Text
  ctxSize : Int
  parallel : Int
  threadsHTTP : Int
  nGPULayers : Int
  routerMeta : Option Json

def kindOf (cm : Model) : Text := if cm.kind = [] then "chat".toList else cm.kind

/-- `RenderPreset`: the preset of the manager's own settings. -/
def renderPreset (cat : Catalog) (cfg : Config) : Preset.Rendered × Text :=
  Preset.render cat ⟨cfg.modelsDir, cfg.presetPath, cfg.ctxSize, cfg.parallel, cfg.threadsHTTP,
    cfg.nGPULayers, cfg.extraArgs⟩

def parseStatusValue (raw : Option Json) : Text :=
  (raw.bind fun j =>
    decodeStruct [⟨"value".toList, decodeString⟩] j ([] : Text)).getD []

/-- The records of the router under their ids and aliases. -/
def routerStatuses (resp : ModelsResponse) : Entries ModelRecord :=
  resp.data.foldl (fun m r => r.aliases.foldl (fun m a => store a r m) (store r.id r m)) []

/-- `ListModels`; the router's answer is missing when it could not be asked. -/
def listModels (cat : Catalog) (cfg : Config) (fileExists : Text → Bool)
    (router : Option ModelsResponse) : List ModelStatus :=
  let statuses := (router.map routerStatuses).getD []
  cat.models.map fun cm =>
    let found := get cm.ref statuses
    let record := found.getD {}
    let status := parseStatusValue record.status
    let down := fileExists (cm.stablePath cfg.modelsDir)
    let running := decide (status = "loaded".toList ∨ status = "loading".toList ∨
      status = "sleeping".toList)
    { id := cm.ref
      object := "model".toList
      ownedBy := "llama.cpp-stack".toList
      downloaded := down
      routerStatus := if found.isNone ∧ down then "downloaded".toList else status
      running := running
      coldStart := !running
      repo := cm.repo
      quant := cm.quant
      kind := kindOf cm
      ctxSize := cfg.ctxSize
      parallel := cfg.parallel
      threadsHTTP := cfg.threadsHTTP
      nGPULayers := cfg.nGPULayers
      routerMeta := record.metadata }

def modelsResponseHas (resp : ModelsResponse) (ref : Text) : Bool :=
  resp.data.any fun r => r.id = ref ∨ r.aliases.any (· = ref)

theorem has_own_ref (cm : Model) : modelsResponseHas ⟨[], [{ id := cm.ref }]⟩ cm.ref = true := by
  simp [modelsResponseHas]

end RouterManager
