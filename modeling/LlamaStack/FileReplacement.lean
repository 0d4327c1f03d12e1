import LlamaStack.Effects
import LlamaStack.PosixFiles

/-!
# Replacing a file

New bytes for a path are written to another name, which is then renamed. Every operation
may fail, a write after any part of its bytes, and the program may stop anywhere. Readers
of the path see the old bytes or all of the new ones.
-/
namespace FileReplacement

open Effects PosixFiles

variable {Path Byte Message : Type}

inductive Op (Path Byte : Type) where
  | mkdirAll (dir : Path)
  | openFile (path : Path)
  | write (file : Nat) (bytes : List Byte)
  | close (file : Nat)
  | rename (old new : Path)

variable (Message) in
/-- What an operation returns; the text of an error where there may be one. -/
abbrev Op.Res : Op Path Byte → Type
  | .openFile _ => Except Message Nat
  | _ => Option Message

variable (Path Byte Message) in
abbrev Run (α : Type) := Prog (Op Path Byte) (Op.Res Message) α

variable [DecidableEq Path]

def effect : Meaning (Op Path Byte) (Op.Res Message) (Files Path Byte)
  | fs, .mkdirAll _, _, fs' => fs' = fs
  | fs, .openFile p, r, fs' =>
    match (r : Except Message Nat) with
    | .error _ => fs' = fs
    | .ok i => i = (fs.openTrunc p).1 ∧ fs' = (fs.openTrunc p).2
  | fs, .write i bytes, r, fs' =>
    match (r : Option Message) with
    | some _ => ∃ written, written <+: bytes ∧ fs' = fs.append i written
    | none => fs' = fs.append i bytes
  | fs, .close _, _, fs' => fs' = fs
  | fs, .rename p q, r, fs' =>
    match (r : Option Message) with
    | some _ => fs' = fs
    | none => fs.links p ≠ none ∧ fs' = fs.rename p q

/-! ## The programs -/

/-- `os.WriteFile`: an error of the write comes before one of closing. -/
def writeFile (name : Path) (data : List Byte) : Run Path Byte Message (Option Message) := do
  let out ← op (Op.openFile name)
  match (out : Except Message Nat) with
  | .error err => return some err
  | .ok file =>
    let err ← op (Op.write file data)
    let err₁ ← op (Op.close file)
    return (err : Option Message).or err₁

/-- The file is written under another name, and renamed. -/
def replaceFile (tmp path : Path) (data : List Byte) : Run Path Byte Message (Option Message) := do
  let err ← writeFile tmp data
  match (err : Option Message) with
  | some err => return some err
  | none => op (Op.rename tmp path)

/-! ## What they do -/

variable {tmp path : Path} {data : List Byte} {fs fs' : Files Path Byte}

/-- All other paths show what they showed. -/
def Elsewhere (p : Path) (fs fs' : Files Path Byte) : Prop := ∀ q, q ≠ p → fs'.read q = fs.read q

omit [DecidableEq Path] in
theorem Elsewhere.refl (p : Path) (fs : Files Path Byte) : Elsewhere p fs fs := fun _ _ => rfl

theorem elsewhere_write (p : Path) (bytes : List Byte) :
    Elsewhere p fs ((fs.openTrunc p).2.append (fs.openTrunc p).1 bytes) := by
  intro q hq
  rw [read_append (openTrunc_links fs p), if_neg hq, read_openTrunc, if_neg hq]

/-- Only the name that is written to changes, and without an error it holds all bytes. -/
theorem writeFile_spec (p : Path) (data : List Byte) (fs : Files Path Byte) :
    Spec (effect : Meaning _ (Op.Res Message) _) (fun fs' _ => Elsewhere p fs fs')
      (fun err fs' => Elsewhere p fs fs' ∧ (err = none → fs'.read p = some data)) (writeFile p data) fs := by
  refine spec_op (.refl p fs) fun out fs₁ hopen => ?_
  cases out with
  | error err =>
    obtain rfl : fs₁ = fs := hopen
    exact ⟨.refl p fs₁, fun h => by cases h⟩
  | ok file =>
    obtain ⟨rfl, rfl⟩ := hopen
    have hemptied : Elsewhere p fs (fs.openTrunc p).2 := by
      intro q hq
      rw [read_openTrunc, if_neg hq]
    refine spec_op hemptied fun err fs₂ hwrite => ?_
    have hwritten : Elsewhere p fs fs₂ ∧ (err = none → fs₂.read p = some data) := by
      cases err with
      | some err =>
        obtain ⟨written, -, rfl⟩ := hwrite
        exact ⟨elsewhere_write p written, fun h => by cases h⟩
      | none =>
        obtain rfl : fs₂ = _ := hwrite
        refine ⟨elsewhere_write p data, fun _ => ?_⟩
        change (fs.put p data).read p = some data
        rw [read_put, if_pos rfl]
    refine spec_op hwritten.1 fun err₁ fs₃ hclose => ?_
    obtain rfl : fs₃ = fs₂ := hclose
    refine ⟨hwritten.1, fun h => hwritten.2 ?_⟩
    cases err with
    | some err => cases h
    | none => rfl

/-- Readers of the path see its old bytes or the new ones; the new ones when there is no
error. Names other than these two are left alone. -/
structure Replaced (tmp path : Path) (data : List Byte) (fs fs' : Files Path Byte) : Prop where
  whole : fs'.read path = fs.read path ∨ fs'.read path = some data
  others : ∀ q, q ≠ path → q ≠ tmp → fs'.read q = fs.read q

omit [DecidableEq Path] in
theorem Elsewhere.replaced (h : Elsewhere tmp fs fs') (hne : path ≠ tmp) : Replaced tmp path data fs fs' :=
  ⟨.inl (h path hne), fun q _ hq => h q hq⟩

theorem replaceFile_spec (hne : path ≠ tmp) (data : List Byte) (fs : Files Path Byte) :
    Spec (effect : Meaning _ (Op.Res Message) _) (fun fs' _ => Replaced tmp path data fs fs')
      (fun err fs' => Replaced tmp path data fs fs' ∧ (err = none → fs'.read path = some data) ∧
        (err ≠ none → fs'.read path = fs.read path))
      (replaceFile tmp path data) fs := by
  apply spec_bind
  refine spec_mono (fun _ _ h => h.replaced hne) (fun err fs₁ h => ?_) (writeFile_spec tmp data fs)
  obtain ⟨helse, hread⟩ := h
  cases err with
  | some err => exact ⟨helse.replaced hne, (fun h => by cases h), fun _ => helse path hne⟩
  | none =>
    refine ⟨helse.replaced hne, fun err fs₂ hrename => ?_⟩
    cases err with
    | some err =>
      obtain rfl : fs₂ = fs₁ := hrename
      exact ⟨helse.replaced hne, (fun h => by cases h), fun _ => helse path hne⟩
    | none =>
      obtain ⟨-, rfl⟩ := hrename
      have hpath : (fs₁.rename tmp path).read path = some data := by
        rw [read_rename, if_pos rfl]
        exact hread rfl
      refine ⟨⟨.inr hpath, fun q hq hq' => ?_⟩, fun _ => hpath, fun h => absurd rfl h⟩
      rw [read_rename, if_neg hq, if_neg hq']
      exact helse q hq'

end FileReplacement
