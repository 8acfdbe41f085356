import FuseCompress.Lib.Bytes
import Mathlib.Logic.Function.Basic

/-!
# A plain file system

Files as arrays of bytes, without compression, caches or queues: names refer to files, and descriptors do, too. A file stays with
its descriptors when it loses its name.
-/

namespace FuseCompress

/-- Names, contents and descriptors, with the numbers that are unused. -/
structure PlainFs (Name : Type u) where
  file : Name → Option Nat
  content : Nat → Bytes
  nextFile : Nat
  target : Nat → Nat
  nextDesc : Nat

namespace PlainFs

variable {Name : Type u}

/-- No file and no descriptor. -/
def empty : PlainFs Name := { file := fun _ => none, content := fun _ => [], nextFile := 0, target := fun _ => 0, nextDesc := 0 }

/-- A file has other bytes. -/
def setContent (q : PlainFs Name) (k : Nat) (b : Bytes) : PlainFs Name := { q with content := Function.update q.content k b }

/-- A descriptor of a file, if the name refers to one. -/
def openFile (q : PlainFs Name) (p : Name) : PlainFs Name :=
  match q.file p with
  | none => q
  | some k => { q with target := Function.update q.target q.nextDesc k, nextDesc := q.nextDesc + 1 }

/-- Read from a descriptor: as many bytes as there are, and not more than asked for. -/
def read (q : PlainFs Name) (d size offset : Nat) : Bytes := Bytes.slice (q.content (q.target d)) offset size

/-- Write to a descriptor. -/
def write (q : PlainFs Name) (d : Nat) (buf : Bytes) (offset : Nat) : PlainFs Name :=
  q.setContent (q.target d) (Bytes.overwrite (q.content (q.target d)) offset buf)

/-- Cut a file, or fill it up with zeros. -/
def truncate (q : PlainFs Name) (p : Name) (size : Nat) : PlainFs Name :=
  match q.file p with
  | none => q
  | some k => q.setContent k (Bytes.resize (q.content k) size)

/-- All descriptors are forgotten. -/
def reset (q : PlainFs Name) : PlainFs Name := { q with nextDesc := 0 }

variable [DecidableEq Name]

/-- A new file, if the name is unused. -/
def create (q : PlainFs Name) (p : Name) : PlainFs Name :=
  match q.file p with
  | some _ => q
  | none =>
    { q.setContent q.nextFile [] with file := Function.update q.file p (some q.nextFile), nextFile := q.nextFile + 1 }

/-- What a new file changes. -/
theorem create_of_none {q : PlainFs Name} {p : Name} (h : q.file p = none) :
    (q.create p).file = Function.update q.file p (some q.nextFile) ∧ (q.create p).content = Function.update q.content q.nextFile [] ∧
      (q.create p).nextFile = q.nextFile + 1 ∧ (q.create p).target = q.target ∧ (q.create p).nextDesc = q.nextDesc := by
  unfold create
  rw [h]
  exact ⟨rfl, rfl, rfl, rfl, rfl⟩

/-- Remove a name. -/
def unlink (q : PlainFs Name) (p : Name) : PlainFs Name := { q with file := Function.update q.file p none }

/-- Give a file another name, in place of what that referred to. -/
def rename (q : PlainFs Name) (src dst : Name) : PlainFs Name :=
  match q.file src with
  | none => q
  | some k => { q with file := Function.update (Function.update q.file src none) dst (some k) }

end PlainFs

end FuseCompress
