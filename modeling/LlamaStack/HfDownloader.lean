import LlamaStack.Effects
import LlamaStack.GoJsonDecode
import LlamaStack.ModelCatalog
import LlamaStack.PosixFiles

/-!
# The downloader

How the files of a catalog entry come to their stable paths: the listing of a
repo, the choice among its files, and the download under a temporary name that is
renamed when the body is complete. What the code asks of the file system and of
the network are operations. Addresses and headers of requests are left out.
-/
namespace HfDownloader

open Effects GoBytes GoJson GoStream GoStrings GoUtf8 GoFilepath ModelCatalog PosixFiles

/-- What the package takes from Go's library: `path.Match`, the verb `%q`, and the
text of the error with which a listing fails to decode. -/
structure Library where
  pathMatch : Text → Text → Bool
  quote : Text → Bytes
  decodeError : Bytes → Bytes

variable (go : Library)

/-! ## Errors -/

/-- An error of the package with its code, or one that is passed on. -/
inductive Error where
  | hferr (code : Text) (message : Bytes) (cause : Option Bytes)
  | passed (message : Bytes)
  deriving DecidableEq

/-- `Error()`. -/
def Error.text : Error → Bytes
  | .hferr _ message none => message
  | .hferr _ message (some cause) => message ++ ascii ": " ++ cause
  | .passed message => message

/-- `Code`. -/
def Error.code : Error → Text
  | .hferr code _ _ => code
  | .passed _ => "hf_error".toList

def codeRepoNotFound : Text := "hf_repo_not_found".toList
def codeUnauthorized : Text := "hf_unauthorized".toList
def codeForbidden : Text := "hf_forbidden".toList
def codeListFailed : Text := "hf_list_failed".toList
def codeNoMatchingFile : Text := "hf_no_matching_file".toList
def codeAmbiguousFiles : Text := "hf_ambiguous_files".toList
def codeSplitGGUF : Text := "hf_split_gguf".toList
def codeDownloadFailed : Text := "hf_download_failed".toList
def codeEmptyDownload : Text := "hf_empty_download".toList
def codeFileNotFound : Text := "hf_file_not_found".toList

def formatNat (n : Nat) : Bytes := encodeText (Nat.toDigits 10 n)

/-! ## The choice of a file -/

/-- A part of a split GGUF, as the code tells one. -/
def isSplit (f : Text) : Bool := containsFold (base f) "-of-"

def splitError (f : Text) : Error :=
  .hferr codeSplitGGUF (ascii "configured file " ++ go.quote f ++
    ascii " appears to be a split GGUF; pin a single-file GGUF repo or exact first shard support later")
    none

def chooseExactFile (files : List Text) (repo configured : Text) : Except Error Text :=
  match files.find? fun f => f = configured ∨ base f = configured with
  | some f => if isSplit f then .error (splitError go f) else .ok f
  | none => .error (.hferr codeFileNotFound
      (ascii "file " ++ go.quote configured ++ ascii " not found in " ++ encodeText repo) none)

def score (f : Text) : Nat :=
  (["mmproj", "imatrix", "vision"].filter fun bad => containsFold (base f) bad).length * 10

/-- The files that the glob of an entry selects. -/
def matching (files : List Text) (m : Model) : List Text :=
  files.filter fun f => isGguf (base f) &&
    (go.pathMatch m.globPattern (base f) || go.pathMatch m.globPattern f)

def sortByScore (files : List Text) : List Text :=
  files.mergeSort fun a b => decide (score a < score b ∨ score a = score b ∧ a ≤ b)

def chooseFile (files : List Text) (m : Model) : Except Error Text :=
  if m.file ≠ [] then chooseExactFile go files m.repo m.file
  else
    match sortByScore (matching go files m) with
    | [] => .error (.hferr codeNoMatchingFile (ascii "no GGUF file matches " ++
        go.quote m.globPattern ++ ascii " in " ++ encodeText m.repo) none)
    | first :: rest =>
      let best := (first :: rest).filter fun f => score f = score first
      if 1 < best.length then
        .error (.hferr codeAmbiguousFiles (ascii "multiple GGUF files match " ++
          go.quote m.globPattern ++ ascii " in " ++ encodeText m.repo ++ ascii ": " ++
          (ascii ", ").intercalate (best.map encodeText) ++
          ascii "; set file or pattern in catalog") none)
      else if isSplit first then
        .error (.hferr codeSplitGGUF (ascii "matched file " ++ go.quote first ++
          ascii " appears to be a split GGUF; use a single-file repo or pin a supported file") none)
      else .ok first

/-! ## Operations -/

/-- The body of a response: the pieces in which it arrives, and how it ends. -/
structure Body where
  chunks : List Bytes
  ending : ReadEnd

def Body.bytes (b : Body) : Bytes := b.chunks.flatten

/-- What a request comes to. An invalid one is not sent. -/
inductive Answer where
  | invalid (message : Bytes)
  | failed (message : Bytes)
  | response (status : Nat) (body : Body)

inductive Op where
  | fileExists (path : Text)
  | mkdirAll (dir : Text)
  | list (repo : Text)
  | get (repo file : Text)
  | remove (path : Text)
  | openFile (path : Text)
  | write (file : Nat) (chunk : Bytes)
  | close (file : Nat)
  | stat (path : Text)
  | rename (old new : Text)

/-- What an operation returns; the text of an error where there may be one. -/
abbrev Op.Res : Op → Type
  | .fileExists _ => Bool
  | .mkdirAll _ => Option Bytes
  | .list _ => Answer
  | .get _ _ => Answer
  | .remove _ => Unit
  | .openFile _ => Except Bytes Nat
  | .write _ _ => Option Bytes
  | .close _ => Option Bytes
  | .stat _ => Except Bytes Nat
  | .rename _ _ => Option Bytes

abbrev Run (α : Type) := Prog Op Op.Res α

/-! ## Listing a repo -/

structure TreeEntry where
  type : Text := []
  path : Text := []
  size : Int64 := 0

def TreeEntry.decode (j : Json) : Option TreeEntry :=
  decodeStruct
    [⟨"type".toList, fun v a => (decodeString v a.type).map fun x => { a with type := x }⟩,
    ⟨"path".toList, fun v a => (decodeString v a.path).map fun x => { a with path := x }⟩,
    ⟨"size".toList, fun v a => (decodeInt v a.size).map fun x => { a with size := x }⟩]
    j {}

/-- `Decode` of a `json.Decoder`: the first value of the stream. An array ends
itself; behind `null` the decoder looks for one more byte. -/
def decodeEntries (body : Body) : Option (List TreeEntry) :=
  match value (2 * body.bytes.length) body.bytes with
  | some (.arr xs, _) => if depth (.arr xs) ≤ maxNestingDepth then xs.mapM TreeEntry.decode else none
  | some (.null, rest) => if rest ≠ [] ∨ body.ending = .eof then some [] else none
  | _ => none

/-- The first bytes of an error response, for the message. -/
def errorExcerpt (body : Body) : Bytes := trimSpace (body.bytes.take 4096)

def listFiles (repo : Text) : Run (Except Error (List Text)) := do
  let answer ← op (Op.list repo)
  match (answer : Answer) with
  | .invalid message => return .error (.passed message)
  | .failed message => return .error (.hferr codeListFailed
      (ascii "huggingface list files request failed") (some message))
  | .response status body =>
    if status = 404 then
      return .error (.hferr codeRepoNotFound
        (ascii "huggingface repo not found: " ++ encodeText repo) none)
    else if status = 401 then
      return .error (.hferr codeUnauthorized
        (ascii "huggingface repo requires authentication or token is invalid") none)
    else if status = 403 then
      return .error (.hferr codeForbidden
        (ascii "huggingface repo is gated/private or token lacks access") none)
    else if 300 ≤ status then
      return .error (.hferr codeListFailed (ascii "huggingface list files failed: status=" ++
        formatNat status ++ ascii " body=" ++ errorExcerpt body) none)
    else
      match decodeEntries body with
      | none => return .error (.hferr codeListFailed
          (ascii "huggingface list files response was not valid JSON")
          (some (go.decodeError body.bytes)))
      | some entries =>
        let files := entries.filter fun e => e.type = "file".toList ∨ e.type = []
        return .ok ((files.map TreeEntry.path).mergeSort fun a b => decide (a ≤ b))

/-! ## Downloading a file -/

def tmpExt : Text := ".tmp".toList

/-- `io.Copy` of a body to an open file. -/
def copyBody (file : Nat) (ending : ReadEnd) : List Bytes → Run (Option Bytes)
  | [] =>
    match ending with
    | .eof => return none
    | .failed message => return some message
  | chunk :: chunks => do
    let err ← op (Op.write file chunk)
    match (err : Option Bytes) with
    | some err => return some err
    | none => copyBody file ending chunks

def removeAndFail (path : Text) (err : Error) : Run (Option Error) := do
  let _ ← op (Op.remove path)
  return some err

/-- The temporary file is checked and takes its final name. -/
def publish (tmp stable : Text) : Run (Option Error) := do
  let info ← op (Op.stat tmp)
  match (info : Except Bytes Nat) with
  | .error err => removeAndFail tmp (.passed err)
  | .ok size =>
    if size = 0 then
      removeAndFail tmp (.hferr codeEmptyDownload (ascii "downloaded file is empty") none)
    else
      let err ← op (Op.rename tmp stable)
      return (err : Option Bytes).map .passed

/-- The body of a response goes to the temporary file. -/
def save (body : Body) (stable : Text) : Run (Option Error) := do
  let tmp := stable ++ tmpExt
  let _ ← op (Op.remove tmp)
  let out ← op (Op.openFile tmp)
  match (out : Except Bytes Nat) with
  | .error err => return some (.passed err)
  | .ok file =>
    let copyErr ← copyBody file body.ending body.chunks
    let closeErr ← op (Op.close file)
    match copyErr with
    | some err =>
      removeAndFail tmp
        (.hferr codeDownloadFailed (ascii "failed while writing downloaded model") (some err))
    | none =>
      match (closeErr : Option Bytes) with
      | some err =>
        removeAndFail tmp
          (.hferr codeDownloadFailed (ascii "failed closing downloaded model file") (some err))
      | none => publish tmp stable

def download (repo file stable : Text) : Run (Option Error) := do
  let answer ← op (Op.get repo file)
  match (answer : Answer) with
  | .invalid message => return some (.passed message)
  | .failed message => return some (.hferr codeDownloadFailed
      (ascii "huggingface download request failed") (some message))
  | .response status body =>
    if status = 401 then
      return some (.hferr codeUnauthorized
        (ascii "huggingface download requires authentication or token is invalid") none)
    else if status = 403 then
      return some (.hferr codeForbidden
        (ascii "huggingface download is gated/private or token lacks access") none)
    else if 300 ≤ status then
      return some (.hferr codeDownloadFailed (ascii "huggingface download failed: status=" ++
        formatNat status ++ ascii " body=" ++ errorExcerpt body) none)
    else save body stable

/-! ## Both files of an entry -/

def ensureMain (files : List Text) (m : Model) (stable : Text) : Run (Option Error) :=
  match chooseFile go files m with
  | .error err => return some err
  | .ok chosen => download m.repo chosen stable

def ensureMMProj (files : List Text) (m : Model) (mmprojStable : Text) : Run (Option Error) :=
  match chooseExactFile go files m.repo m.mmproj with
  | .error err => return some err
  | .ok chosen => do
    let err ← op (Op.mkdirAll (dir mmprojStable))
    match (err : Option Bytes) with
    | some err => return some (.passed err)
    | none => download m.repo chosen mmprojStable

def ifMissing (missing : Bool) (fetch : Run (Option Error)) : Run (Option Error) :=
  if missing then fetch else return none

/-- The files that are missing, the main file first. -/
def ensureMissing (files : List Text) (modelsDir : Text) (m : Model)
    (mainMissing mmprojMissing : Bool) : Run (Except Error Text) := do
  let stable := m.stablePath modelsDir
  let err ← ifMissing mainMissing (ensureMain go files m stable)
  match err with
  | some err => return .error err
  | none =>
    let err ← ifMissing mmprojMissing (ensureMMProj go files m (m.mmprojStablePath modelsDir))
    match err with
    | some err => return .error err
    | none => return .ok stable

/-- The projector is missing: one is configured and there is no file. -/
def missingMMProj (modelsDir : Text) (m : Model) : Run Bool := do
  if m.mmproj ≠ [] then
    let present ← op (Op.fileExists (m.mmprojStablePath modelsDir))
    return !(present : Bool)
  else return false

def ensure (modelsDir : Text) (m : Model) : Run (Except Error Text) := do
  let stable := m.stablePath modelsDir
  let present ← op (Op.fileExists stable)
  let mainMissing := !(present : Bool)
  let mmprojMissing ← missingMMProj modelsDir m
  if !mainMissing && !mmprojMissing then return .ok stable
  else
    let err ← op (Op.mkdirAll (dir stable))
    match (err : Option Bytes) with
    | some err => return .error (.passed err)
    | none =>
      let files ← listFiles go m.repo
      match files with
      | .error err => return .error err
      | .ok files => ensureMissing go files modelsDir m mainMissing mmprojMissing

/-! ## What the operations do -/

/-- The files, and the bodies that the network has delivered whole. -/
structure World where
  files : Files Text UInt8
  bodies : List Bytes

/-- The body of a successful response that arrives whole. -/
def Answer.bodies : Answer → List Bytes
  | .response status body => if status < 300 ∧ body.ending = .eof then [body.bytes] else []
  | _ => []

/-- A file that is not empty. -/
def Present (fs : Files Text UInt8) (p : Text) : Prop := ∃ b, fs.read p = some b ∧ b ≠ []

/-- What an operation may return and do, as its kind fails or succeeds. -/
def effect : Meaning Op Op.Res World
  | w, .fileExists p, r, w' => w' = w ∧ ((r : Bool) = true ↔ Present w.files p)
  | w, .mkdirAll _, _, w' => w' = w
  | w, .list _, _, w' => w' = w
  | w, .get _ _, r, w' => w' = { w with bodies := (r : Answer).bodies ++ w.bodies }
  | w, .remove p, _, w' => w' = w ∨ w' = { w with files := w.files.unlink p }
  | w, .openFile p, r, w' =>
    match (r : Except Bytes Nat) with
    | .error _ => w' = w
    | .ok i => i = (w.files.openTrunc p).1 ∧ w' = { w with files := (w.files.openTrunc p).2 }
  | w, .write i chunk, r, w' =>
    match (r : Option Bytes) with
    | some _ => ∃ written, written <+: chunk ∧ w' = { w with files := w.files.append i written }
    | none => w' = { w with files := w.files.append i chunk }
  | w, .close _, _, w' => w' = w
  | w, .stat p, r, w' => w' = w ∧
    match (r : Except Bytes Nat) with
    | .error _ => True
    | .ok size => ∃ b, w.files.read p = some b ∧ size = b.length
  | w, .rename p q, r, w' =>
    match (r : Option Bytes) with
    | some _ => w' = w
    | none => w.files.links p ≠ none ∧ w' = { w with files := w.files.rename p q }

/-! ## Rules for any meaning of the operations -/

section Rules

variable {σ : Type} {E : Meaning Op Op.Res σ} {G : σ → Op → Prop} {s : σ}

/-- A listing is one operation. -/
theorem listFiles_rule (repo : Text) {Q : Except Error (List Text) → σ → Prop} (hG : G s (.list repo))
    (h : ∀ answer s', E s (.list repo) answer s' → ∀ files, Q files s') : Spec E G Q (listFiles go repo) s := by
  refine spec_op hG fun answer s' he => ?_
  have hall := h answer s' he
  cases answer with
  | invalid message => exact hall _
  | failed message => exact hall _
  | response status body =>
    simp only
    split
    · exact hall _
    · split
      · exact hall _
      · split
        · exact hall _
        · split
          · exact hall _
          · cases decodeEntries body with
            | none => exact hall _
            | some entries => exact hall _

/-- A download asks for the file, and saves the body of a success. -/
theorem download_rule (repo file stable : Text) {Q : Option Error → σ → Prop} (hG : G s (.get repo file))
    (hfailed : ∀ answer s', E s (.get repo file) answer s' → ∀ err, Q (some err) s')
    (hsave : ∀ status body s', E s (.get repo file) (.response status body) s' → status < 300 →
      Spec E G Q (save body stable) s') : Spec E G Q (download repo file stable) s := by
  refine spec_op hG fun answer s' he => ?_
  have herr := hfailed answer s' he
  cases answer with
  | invalid message => exact herr _
  | failed message => exact herr _
  | response status body =>
    simp only
    split
    · exact herr _
    · split
      · exact herr _
      · split
        · exact herr _
        · rename_i hstatus
          exact hsave status body s' he (by omega)

end Rules

end HfDownloader
