import Mathlib.Data.List.Basic

/-!
# Files

The regular files below the file system's names, as POSIX has them: a name is
linked to an inode, unlinking removes the name alone, what is written goes to the
inode that was opened, and renaming is one step. No two names share an inode.
Directories are not part of the state: at the name of a directory there is no file.
-/
namespace PosixFiles

structure Files (Path Byte : Type) where
  links : Path → Option Nat
  content : Nat → List Byte
  fresh : Nat
  lt_fresh : ∀ p i, links p = some i → i < fresh
  link_inj : ∀ p q i, links p = some i → links q = some i → p = q

variable {Path Byte : Type}

/-- The bytes of the file at a name. -/
def Files.read (fs : Files Path Byte) (p : Path) : Option (List Byte) := (fs.links p).map fs.content

theorem read_of_links {fs : Files Path Byte} {p : Path} {i : Nat} (h : fs.links p = some i) :
    fs.read p = some (fs.content i) := by
  rw [Files.read, h, Option.map_some]

/-- What is written goes to the open file, whatever its name is by now. -/
def Files.append (fs : Files Path Byte) (i : Nat) (chunk : List Byte) : Files Path Byte :=
  { fs with content := fun j => if j = i then fs.content i ++ chunk else fs.content j }

@[simp] theorem append_links (fs : Files Path Byte) (i : Nat) (chunk : List Byte) :
    (fs.append i chunk).links = fs.links := rfl

variable [DecidableEq Path]

def Files.unlink (fs : Files Path Byte) (p : Path) : Files Path Byte where
  links q := if q = p then none else fs.links q
  content := fs.content
  fresh := fs.fresh
  lt_fresh q i h := by
    split at h
    · cases h
    · exact fs.lt_fresh q i h
  link_inj q q' i h h' := by
    split at h
    · cases h
    · split at h'
      · cases h'
      · exact fs.link_inj q q' i h h'

/-- The file is emptied, or made new. -/
def Files.openTrunc (fs : Files Path Byte) (p : Path) : Nat × Files Path Byte :=
  match h : fs.links p with
  | some i => (i, { fs with content := fun j => if j = i then [] else fs.content j })
  | none => (fs.fresh,
    { links := fun q => if q = p then some fs.fresh else fs.links q
      content := fun j => if j = fs.fresh then [] else fs.content j
      fresh := fs.fresh + 1
      lt_fresh := by
        intro q i hq
        split at hq
        · cases hq
          exact Nat.lt_succ_self _
        · exact Nat.lt_succ_of_lt (fs.lt_fresh q i hq)
      link_inj := by
        intro q q' i hq hq'
        split at hq
        · rename_i hqp
          cases hq
          split at hq'
          · rename_i hqp'
            rw [hqp, hqp']
          · exact absurd (fs.lt_fresh q' _ hq') (Nat.lt_irrefl _)
        · split at hq'
          · cases hq'
            exact absurd (fs.lt_fresh q _ hq) (Nat.lt_irrefl _)
          · exact fs.link_inj q q' i hq hq' })

/-- The file at `p` is at `q` from now on; it stays missing if there is none. -/
def Files.rename (fs : Files Path Byte) (p q : Path) : Files Path Byte where
  links x := if x = q then fs.links p else if x = p then none else fs.links x
  content := fs.content
  fresh := fs.fresh
  lt_fresh x i h := by
    split at h
    · exact fs.lt_fresh p i h
    · split at h
      · cases h
      · exact fs.lt_fresh x i h
  link_inj x y i hx hy := by
    split at hx
    · rename_i hxq
      split at hy
      · rename_i hyq
        rw [hxq, hyq]
      · split at hy
        · cases hy
        · rename_i hyp
          exact absurd (fs.link_inj y p i hy hx) hyp
    · split at hx
      · cases hx
      · rename_i hxp
        split at hy
        · exact absurd (fs.link_inj x p i hx hy) hxp
        · split at hy
          · cases hy
          · exact fs.link_inj x y i hx hy

theorem read_unlink (fs : Files Path Byte) (p q : Path) :
    (fs.unlink p).read q = if q = p then none else fs.read q := by
  unfold Files.read Files.unlink
  split <;> simp [*]

theorem openTrunc_links (fs : Files Path Byte) (p : Path) :
    (fs.openTrunc p).2.links p = some (fs.openTrunc p).1 := by
  unfold Files.openTrunc
  split
  · assumption
  · simp

theorem read_openTrunc (fs : Files Path Byte) (p q : Path) :
    (fs.openTrunc p).2.read q = if q = p then some [] else fs.read q := by
  unfold Files.openTrunc Files.read
  split
  · rename_i i hi
    by_cases hq : q = p
    · simp [hq, hi]
    · simp only [if_neg hq]
      cases hl : fs.links q with
      | none => rfl
      | some j =>
        have hj : j ≠ i := fun h => hq (fs.link_inj q p j hl (h ▸ hi))
        simp [hj]
  · by_cases hq : q = p
    · simp [hq]
    · simp only [if_neg hq]
      cases hl : fs.links q with
      | none => rfl
      | some j =>
        have hj : j ≠ fs.fresh := Nat.ne_of_lt (fs.lt_fresh q j hl)
        simp [hj]

/-- The file that is opened was at the path, or it is new. -/
theorem openTrunc_spec (fs : Files Path Byte) (p : Path) :
    (∀ q, (fs.openTrunc p).2.links q = if q = p then some (fs.openTrunc p).1 else fs.links q) ∧
      (∀ i, (fs.openTrunc p).2.content i = if i = (fs.openTrunc p).1 then [] else fs.content i) ∧
      fs.fresh ≤ (fs.openTrunc p).2.fresh ∧
      (fs.links p = some (fs.openTrunc p).1 ∨ fs.links p = none ∧ (fs.openTrunc p).1 = fs.fresh) := by
  unfold Files.openTrunc
  split
  · rename_i i hi
    refine ⟨fun q => ?_, fun _ => rfl, Nat.le_refl _, .inl hi⟩
    split
    · rename_i hq
      exact hq ▸ hi
    · rfl
  · rename_i hnone
    exact ⟨fun _ => rfl, fun _ => rfl, Nat.le_succ _, .inr ⟨hnone, rfl⟩⟩

omit [DecidableEq Path] in
theorem read_append_other {fs : Files Path Byte} {i : Nat} {q : Path} (h : fs.links q ≠ some i) (chunk : List Byte) :
    (fs.append i chunk).read q = fs.read q := by
  unfold Files.append Files.read
  cases hl : fs.links q with
  | none => rfl
  | some j =>
    have hj : j ≠ i := by
      rintro rfl
      exact h hl
    simp [hj]

theorem read_append {fs : Files Path Byte} {p : Path} {i : Nat} (h : fs.links p = some i)
    (chunk : List Byte) (q : Path) :
    (fs.append i chunk).read q = if q = p then some (fs.content i ++ chunk) else fs.read q := by
  unfold Files.append Files.read
  by_cases hq : q = p
  · simp [hq, h]
  · simp only [if_neg hq]
    cases hl : fs.links q with
    | none => rfl
    | some j =>
      have hj : j ≠ i := fun h' => hq (fs.link_inj q p j hl (h' ▸ h))
      simp [hj]

/-- The path is opened anew, and the bytes are written. -/
def Files.put (fs : Files Path Byte) (p : Path) (bytes : List Byte) : Files Path Byte :=
  (fs.openTrunc p).2.append (fs.openTrunc p).1 bytes

theorem put_links (fs : Files Path Byte) (p : Path) (bytes : List Byte) :
    (fs.put p bytes).links p = some (fs.openTrunc p).1 := openTrunc_links fs p

theorem put_content (fs : Files Path Byte) (p : Path) (bytes : List Byte) :
    (fs.put p bytes).content (fs.openTrunc p).1 = bytes := by
  obtain ⟨-, hcontent, -, -⟩ := openTrunc_spec fs p
  simp only [Files.put, Files.append, if_true]
  rw [hcontent, if_pos rfl]
  rfl

theorem read_put (fs : Files Path Byte) (p : Path) (bytes : List Byte) (q : Path) :
    (fs.put p bytes).read q = if q = p then some bytes else fs.read q := by
  by_cases hq : q = p
  · rw [if_pos hq, hq, read_of_links (put_links fs p bytes), put_content]
  · rw [if_neg hq, Files.put, read_append (openTrunc_links fs p), if_neg hq, read_openTrunc, if_neg hq]

theorem read_rename (fs : Files Path Byte) (p q x : Path) :
    (fs.rename p q).read x =
      if x = q then fs.read p else if x = p then none else fs.read x := by
  unfold Files.read Files.rename
  simp only
  split
  · rfl
  · split <;> rfl

end PosixFiles
