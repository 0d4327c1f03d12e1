import Mathlib.Data.List.AList
import LlamaStack.PythonStr

/-!
# Vendored snapshots

The script that writes a manifest of digests for a vendored directory and later checks
the directory against it. A directory tree is the list of its regular files, in any
order; the script sorts them.
-/
namespace VendoredSnapshot

open GoBytes PythonStr

/-! ## Trees -/

def slash : CodePoint := ofChar '/'

def nul : CodePoint := ofChar (Char.ofNat 0)

/-- A name that a directory entry can have. -/
def IsName (c : Str) : Prop := c ≠ [] ∧ c ≠ lit "." ∧ c ≠ lit ".." ∧ slash ∉ c ∧ nul ∉ c

instance (c : Str) : Decidable (IsName c) := by unfold IsName; infer_instance

/-- The parts of a path below the directory. -/
abbrev Path := List Str

structure FileTree where
  files : List (Path × Bytes)
  nodup : (files.map Prod.fst).Nodup
  named : ∀ e ∈ files, e.1 ≠ [] ∧ ∀ c ∈ e.1, IsName c
  apart : ∀ e ∈ files, ∀ e' ∈ files, e.1 <+: e'.1 → e.1 = e'.1

def FileTree.get (T : FileTree) (p : Path) : Option Bytes := T.files.lookup p

/-- Some file lies below the path. -/
def FileTree.isDir (T : FileTree) (p : Path) : Bool := T.files.any fun e => p.isPrefixOf e.1 && p != e.1

/-- Opening a file for writing replaces it. -/
def FileTree.write (T : FileTree) (name : Str) (hname : IsName name) (h : T.isDir [name] = false) (content : Bytes) :
    FileTree where
  files := ([name], content) :: T.files.filter fun e => e.1 ≠ [name]
  nodup := by
    rw [List.map_cons, List.nodup_cons]
    constructor
    · intro hm
      obtain ⟨e, he, hn⟩ := List.mem_map.mp hm
      exact of_decide_eq_true (List.mem_filter.mp he).2 hn
    · exact T.nodup.sublist (List.filter_sublist.map _)
  named := by
    intro e he
    cases List.mem_cons.mp he with
    | inl he => simp [he, hname]
    | inr he => exact T.named e (List.mem_filter.mp he).1
  apart := by
    have hbelow : ∀ e ∈ T.files, [name] <+: e.1 → [name] = e.1 := by
      intro e he hp
      by_contra hne
      have := List.any_eq_false.mp h e he
      simp [hp, hne] at this
    have habove : ∀ e ∈ T.files, e.1 <+: [name] → e.1 = [name] := by
      intro e he hp
      cases List.prefix_cons_iff.mp hp with
      | inl hnil => exact absurd hnil (T.named e he).1
      | inr hcons =>
        obtain ⟨t, ht, hnil⟩ := hcons
        rw [ht, List.prefix_nil.mp hnil]
    intro e he e' he' hp
    cases List.mem_cons.mp he with
    | inl he =>
      subst he
      cases List.mem_cons.mp he' with
      | inl he' => rw [he']
      | inr he' => exact hbelow e' (List.mem_filter.mp he').1 hp
    | inr he =>
      cases List.mem_cons.mp he' with
      | inl he' =>
        subst he'
        exact habove e (List.mem_filter.mp he).1 hp
      | inr he' => exact T.apart e (List.mem_filter.mp he).1 e' (List.mem_filter.mp he').1 hp

/-! ## Digests -/

def hexDigits : Str := lit "0123456789abcdef"

/-- `hashlib.sha256`, taken to be injective. -/
structure Sha256 where
  hexdigest : Bytes → Str
  injective : Function.Injective hexdigest
  hex : ∀ b, hexdigest b ≠ [] ∧ ∀ c ∈ hexdigest b, c ∈ hexDigits

variable (H : Sha256)

def chunkSize : Nat := 1024 * 1024

/-- The loop that reads a file piece by piece; `fed` is what the hash was given so far. -/
def feed (fed rest : Bytes) : Bytes :=
  if rest.take chunkSize = [] then fed else feed (fed ++ rest.take chunkSize) (rest.drop chunkSize)
termination_by rest.length
decreasing_by
  rename_i h
  have hne : rest ≠ [] := fun hnil => h (by rw [hnil, List.take_nil])
  have hpos := List.length_pos_iff.mpr hne
  rw [List.length_drop, chunkSize]
  omega

def sha256 (content : Bytes) : Str := H.hexdigest (feed [] content)

/-! ## The script -/

def MANIFEST : Str := lit "SHA256SUMS"

def SNAPSHOTS : List Str := [lit "openai-openapi", lit "llamacpp-upstream"]

def ignoredParts : List Str := [lit ".git", lit "__pycache__"]

/-- The path below the root of the repository. -/
def rel (root : Str) (p : Path) : Str := [slash].intercalate (root :: p)

/-- A file that the script looks at. The parts are those of the absolute path. -/
def isSnapshotFile (ROOT : List Str) (root : Str) (p : Path) : Bool :=
  p.getLast? ≠ some MANIFEST && !((ROOT ++ root :: p).any fun part => ignoredParts.contains part)

def snapshotFiles (ROOT : List Str) (root : Str) (T : FileTree) : List Path :=
  ((T.files.map Prod.fst).filter fun p => isSnapshotFile ROOT root p).mergeSort fun p q =>
    decide (rel root p ≤ rel root q)

structure Mismatch where
  filePath : Str
  got : Str
  want : Str
  deriving DecidableEq

/-- The exceptions. -/
inductive Failure where
  | isADirectory
  | unicodeEncode
  | unicodeDecode
  | notFound (filePath : Str)
  | missingManifest (path : Str)
  | invalidLine (path : Str) (lineno : Nat)
  | missingFiles (root : Str) (missing : List Str)
  | unmanifestedFiles (root : Str) (extra : List Str)
  | contentDrift (mismatches : List Mismatch)
  deriving DecidableEq

def gap : Str := lit "  "

def entryLine (digest filePath : Str) : Str := digest ++ gap ++ filePath

def manifestText (ROOT : List Str) (root : Str) (T : FileTree) : Str :=
  (snapshotFiles ROOT root T).flatMap fun p => entryLine (sha256 H ((T.get p).getD [])) (rel root p) ++ [newline]

theorem isName_manifest : IsName MANIFEST := by decide

/-- The outcome, and the tree that is left. A text without an encoding leaves an empty
file, which is opened before the text is encoded. -/
def writeManifest (ROOT : List Str) (root : Str) (T : FileTree) : Except Failure Unit × FileTree :=
  if h : T.isDir [MANIFEST] = false then
    match encodeUtf8 (manifestText H ROOT root T) with
    | none => (.error .unicodeEncode, T.write MANIFEST isName_manifest h [])
    | some b => (.ok (), T.write MANIFEST isName_manifest h b)
  else (.error .isADirectory, T)

abbrev Dict := AList fun _ : Str => Str

def readLine (root : Str) (lineno : Nat) (out : Dict) (line : Str) : Except Failure Dict :=
  if strip line = [] ∨ lit "#" <+: line then .ok out
  else
    match splitFirst line with
    | [digest, filePath] => .ok (out.insert (strip filePath) digest)
    | _ => .error (.invalidLine (rel root [MANIFEST]) lineno)

/-- The loop over the lines. -/
def readManifestLines (root : Str) : Nat → Dict → List Str → Except Failure Dict
  | _, out, [] => .ok out
  | lineno, out, line :: lines =>
    match readLine root lineno out line with
    | .error e => .error e
    | .ok out' => readManifestLines root (lineno + 1) out' lines

def readManifest (root : Str) (b : Bytes) : Except Failure Dict :=
  match decodeUtf8 b with
  | none => .error .unicodeDecode
  | some text => readManifestLines root 1 ∅ (splitLines (universalNewlines false text))

/-- The file at a path below the root of the repository, when the directory has it. -/
def openAt (root : Str) (T : FileTree) (filePath : Str) : Option Bytes :=
  match (filePath.splitOn slash).filter fun c => c ≠ [] ∧ c ≠ lit "." with
  | [] => none
  | dir :: p => if dir = root then T.get p else none

/-- The loop over the expected digests. -/
def mismatches (root : Str) (T : FileTree) : List (Str × Str) → Except Failure (List Mismatch)
  | [] => .ok []
  | (filePath, want) :: items =>
    match openAt root T filePath with
    | none => .error (.notFound filePath)
    | some content =>
      match mismatches root T items with
      | .error e => .error e
      | .ok ms => .ok (if sha256 H content ≠ want then ⟨filePath, sha256 H content, want⟩ :: ms else ms)

def items (d : Dict) : List (Str × Str) :=
  (d.entries.map fun e => (e.1, e.2)).mergeSort fun a b => decide (a.1 ≤ b.1)

def sorted (names : List Str) : List Str := names.mergeSort fun a b => decide (a ≤ b)

def checkManifest (ROOT : List Str) (root : Str) (T : FileTree) : Except Failure Unit :=
  match T.get [MANIFEST] with
  | none => .error (if T.isDir [MANIFEST] then .isADirectory else .missingManifest (rel root [MANIFEST]))
  | some b =>
    match readManifest root b with
    | .error e => .error e
    | .ok expected =>
      let actualFiles := (snapshotFiles ROOT root T).map (rel root)
      let missing := sorted (expected.keys.filter fun k => k ∉ actualFiles)
      let extra := sorted (actualFiles.filter fun k => k ∉ expected.keys)
      if missing ≠ [] then .error (.missingFiles root missing)
      else if extra ≠ [] then .error (.unmanifestedFiles root extra)
      else
        match mismatches H root T (items expected) with
        | .error e => .error e
        | .ok [] => .ok ()
        | .ok (m :: ms) => .error (.contentDrift (m :: ms))

end VendoredSnapshot
