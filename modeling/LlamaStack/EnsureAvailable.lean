import LlamaStack.HfDownloader
import LlamaStack.RouterManager

/-!
# Making a model available

`EnsureAvailable`: the lookup of a request's model in the catalog, the download of
its files under the lock of its ref, and the question whether the router has it.
Locks, the request's context and the router's registry are operations, beside
those of the downloader.
-/
namespace EnsureAvailable

open Effects GoBytes GoUtf8 ModelCatalog RouterManager

variable (go : HfDownloader.Library)

inductive Op where
  | download (o : HfDownloader.Op)
  | lockFor (ref : Text)
  | lock (mutex : Nat)
  | unlock (mutex : Nat)
  | ctxErr
  | models

/-- The mutex of a ref, the error of a context that is done, the router's answer. -/
abbrev Op.Res : Op → Type
  | .download o => o.Res
  | .lockFor _ => Nat
  | .lock _ => Unit
  | .unlock _ => Unit
  | .ctxErr => Option Bytes
  | .models => Except Bytes ModelsResponse

abbrev Run (α : Type) := Prog Op Op.Res α

/-- Why a model is not available. -/
inductive Error where
  | modelNotFound
  | capabilityMismatch (ref kind requiredKind : Text)
  | downloadFailed (err : HfDownloader.Error)
  | contextDone (message : Bytes)
  | registryUnknown (message : Bytes)
  | registryStale (ref : Text)
  deriving DecidableEq

/-- `Error()`. -/
def Error.text : Error → Bytes
  | .modelNotFound => ascii "model not found in catalog"
  | .capabilityMismatch ref kind requiredKind =>
    ascii "model capability mismatch: model " ++ encodeText ref ++ ascii " has kind " ++
      encodeText kind ++ ascii " but endpoint requires " ++ encodeText requiredKind
  | .downloadFailed err =>
    ascii "model download failed: code=" ++ encodeText err.code ++ ascii ": " ++ err.text
  | .contextDone message => message
  | .registryUnknown message => ascii "router registry stale: check router registry: " ++ message
  | .registryStale ref =>
    ascii "router registry stale: model " ++ encodeText ref ++
      ascii " missing from router registry; restart router after preset generation"

def routerHasModel (ref : Text) : Run (Except Bytes Bool) := do
  let resp ← op Op.models
  match (resp : Except Bytes ModelsResponse) with
  | .error err => return .error err
  | .ok resp => return .ok (modelsResponseHas resp ref)

/-- The part under the lock. The download does not see the request's context. -/
def ensureLocked (cfg : Config) (cm : Model) : Run (Option Error) := do
  let downloaded ← (HfDownloader.ensure go cfg.modelsDir cm).lift Op.download fun _ r => r
  match downloaded with
  | .error err => return some (.downloadFailed err)
  | .ok _ =>
    let err ← op Op.ctxErr
    match (err : Option Bytes) with
    | some err => return some (.contextDone err)
    | none =>
      let listed ← routerHasModel cm.ref
      match listed with
      | .error err => return some (.registryUnknown err)
      | .ok false => return some (.registryStale cm.ref)
      | .ok true => return none

/-- The entry that a request may use, or why it may not. -/
def resolve (cat : Catalog) (ref requiredKind : Text) : Except Error Model :=
  match cat.byRef ref with
  | none => .error .modelNotFound
  | some cm =>
    if requiredKind ≠ [] ∧ kindOf cm ≠ requiredKind then
      .error (.capabilityMismatch cm.ref (kindOf cm) requiredKind)
    else .ok cm

theorem mem_of_resolve {cat : Catalog} {cm : Model} {ref requiredKind : Text}
    (hr : resolve cat ref requiredKind = .ok cm) : cm ∈ cat.models := by
  rw [resolve] at hr
  cases hb : cat.byRef ref with
  | none =>
    rw [hb] at hr
    cases hr
  | some cm' =>
    rw [hb] at hr
    simp only at hr
    split at hr
    · cases hr
    · exact Except.ok.inj hr ▸ byRef_mem hb

def ensureAvailable (cat : Catalog) (cfg : Config) (ref requiredKind : Text) : Run (Option Error) :=
  match resolve cat ref requiredKind with
  | .error err => return some err
  | .ok cm => do
    let mutex ← op (Op.lockFor cm.ref)
    let _ ← op (Op.lock mutex)
    let err ← ensureLocked go cfg cm
    let _ ← op (Op.unlock mutex)
    return err

end EnsureAvailable
