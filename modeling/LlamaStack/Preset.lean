import Mathlib.Data.Char
import Mathlib.Data.List.Lex
import LlamaStack.ModelCatalog

/-!
# The router preset

The text that `Render` writes for `--models-preset`: a header, the settings of
every model under `*`, and one section for each entry in the order of the refs.
-/
namespace Preset

open GoBytes GoUtf8 GoFilepath ModelCatalog

structure Config where
  modelsDir : Text
  path : Text
  ctxSize : Int
  parallel : Int
  threadsHTTP : Int
  nGPULayers : Int
  extraArgs : Text

structure Rendered where
  path : Text
  includedRefs : List Text
  includedCount : Nat

/-- The verb `%d`. -/
def formatInt (i : Int) : Text :=
  if i < 0 then '-' :: Nat.toDigits 10 i.natAbs else Nat.toDigits 10 i.natAbs

def writeInt (key : Text) (val : Int) : Text :=
  if val = 0 then [] else key ++ " = ".toList ++ formatInt val ++ "\n".toList

def chatKind : Text := "chat".toList
def embeddingKind : Text := "embedding".toList

def kindOf (m : Model) : Text := if m.kind = [] then chatKind else m.kind

/-- The section of one entry. -/
def writeModel (modelsDir : Text) (m : Model) : Text :=
  "[".toList ++ m.ref ++ "]\n".toList ++
    ("model = ".toList ++ m.stablePath modelsDir ++ "\n".toList) ++
    ("alias = ".toList ++ m.ref ++ "\n".toList) ++
    (if m.mmproj ≠ [] then "mmproj = ".toList ++ m.mmprojStablePath modelsDir ++ "\n".toList
      else []) ++
    (if kindOf m = embeddingKind then "embeddings = true\n".toList ++ "pooling = mean\n".toList
      else []) ++
    "\n".toList

/-- `sort.SliceStable` by ref; comparing texts rune by rune agrees with comparing
their bytes. -/
def sortedModels (cat : Catalog) : List Model :=
  cat.models.mergeSort fun a b => decide (a.ref ≤ b.ref)

/-- `Render`: what it reports, and the text that it publishes at that path. -/
def render (cat : Catalog) (cfg : Config) : Rendered × Text :=
  (⟨if cfg.path = [] then join [cfg.modelsDir, "models-preset.generated.ini".toList] else cfg.path,
      (sortedModels cat).map Model.ref, (sortedModels cat).length⟩,
    "version = 1\n\n".toList ++ "[*]\n".toList ++ writeInt "ctx-size".toList cfg.ctxSize ++
      writeInt "parallel".toList cfg.parallel ++ writeInt "threads-http".toList cfg.threadsHTTP ++
      writeInt "n-gpu-layers".toList cfg.nGPULayers ++ "jinja = true\n".toList ++ "\n".toList ++
      (sortedModels cat).flatMap (writeModel cfg.modelsDir))

theorem sortedModels_perm (cat : Catalog) : (sortedModels cat).Perm cat.models :=
  List.mergeSort_perm _ _

end Preset
