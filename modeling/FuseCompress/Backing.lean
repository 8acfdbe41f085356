import FuseCompress.File
import FuseCompress.Lib.Assoc
import Mathlib.Logic.Function.Basic

/-!
# The backing directory

The file system below the mount: names, inodes with their contents and attributes, and the system calls `fusecompress` makes on
them. Temporary files (`file_create_temp`, the link name of `hardlink_file`) are inodes without a name until they are renamed
into place: their names start with the internal prefix and no request reaches them.
-/

namespace FuseCompress

/-- What a name refers to: a directory or the inode of a regular file. -/
inductive Node where
  | dir
  | reg (ino : Nat)
  deriving DecidableEq, Repr

/-- The attributes of an inode. Times are in nanoseconds, and the mode is `st_mode`: the type of the file is in the bits above the
lower twelve. -/
structure Attr where
  mode : Nat
  uid : Nat
  gid : Nat
  atime : Nat
  mtime : Nat
  deriving DecidableEq, Repr

/-- A regular file. -/
structure Inode where
  data : Bytes
  attr : Attr
  deriving DecidableEq, Repr

/-- The backing directory: its names, its inodes, the next unused inode number and the time of day. `fsetid` says that the process
whose calls are made on it has the capability `CAP_FSETID`. -/
structure Backing where
  names : Assoc Filename Node
  inodes : Nat → Inode
  next : Nat
  clock : Nat
  fsetid : Bool

/-- An empty backing directory. -/
def Backing.empty : Backing :=
  { names := [], inodes := fun _ => ⟨[], { mode := 0, uid := 0, gid := 0, atime := 0, mtime := 0 }⟩, next := 0, clock := 0,
    fsetid := false }

/-! ## Attributes -/

/-- The owner and group `-1`, which `chown` takes for leaving the owner or the group as it is. -/
def noOwner : Nat := 2 ^ 32 - 1

/-- A mode after `chown` or `write`: the file runs neither as its owner nor, where the group may execute it, as its group. -/
def dropSetId (mode : Nat) : Nat :=
  let mode := if mode.testBit 11 then mode - 0o4000 else mode
  if mode.testBit 10 && mode.testBit 3 then mode - 0o2000 else mode

namespace Attr

/-- `chmod`, which leaves the type of the file alone. -/
def chmod (a : Attr) (mode : Nat) : Attr := { a with mode := a.mode / 4096 * 4096 + mode % 4096 }

/-- `chown`. -/
def chown (a : Attr) (uid gid : Nat) : Attr :=
  { a with
    mode := dropSetId a.mode
    uid := if uid = noOwner then a.uid else uid
    gid := if gid = noOwner then a.gid else gid }

/-- `utimensat`. -/
def utimens (a : Attr) (atime mtime : Nat) : Attr := { a with atime := atime, mtime := mtime }

/-- The attributes of a file whose contents have been changed now. -/
def written (fsetid : Bool) (now : Nat) (a : Attr) : Attr :=
  { a with mode := if fsetid then a.mode else dropSetId a.mode, mtime := now }

end Attr

/-- What a process gives to the files it makes: the mask for their modes, and their owner. -/
structure Creator where
  umask : Nat
  uid : Nat
  gid : Nat

/-- The attributes of a regular file that `open` creates. -/
def Creator.attr (o : Creator) (now mode : Nat) : Attr :=
  { mode := 0o100000 + (mode % 4096 - (mode % 4096 &&& o.umask)), uid := o.uid, gid := o.gid, atime := now, mtime := now }

/-- The time `utime` can set: whole seconds. -/
def wholeSeconds (t : Nat) : Nat := t / 10 ^ 9 * 10 ^ 9

/-- The directory part of a path, when it has one. -/
def dirname (p : Filename) : Option Filename :=
  match p.reverse.dropWhile (· ≠ '/') with
  | [] => none
  | _ :: d => some d.reverse

/-- The part of a path after its last slash. -/
def basename (p : Filename) : Filename := (p.reverse.takeWhile (· ≠ '/')).reverse

/-- The path `p` lies below the directory `d`. -/
def below (d p : Filename) : Bool := (d ++ ['/']).isPrefixOf p

/-- Where a path ends up when the directory `src` is renamed to `dst`. -/
def movePath (src dst p : Filename) : Filename :=
  if p = src then dst else if below src p then dst ++ p.drop src.length else p

/-- The set-id bits in numbers. -/
theorem dropSetId_eq (mode : Nat) : dropSetId mode =
    (if mode / 2048 % 2 = 1 then mode - 2048 else mode) - if mode / 1024 % 2 = 1 ∧ mode / 8 % 2 = 1 then 1024 else 0 := by
  unfold dropSetId
  simp only [Nat.testBit_eq_decide_div_mod_eq, decide_eq_true_eq, Bool.and_eq_true, Nat.reducePow]
  split_ifs <;> omega

theorem dropSetId_type (mode : Nat) : dropSetId mode / 4096 = mode / 4096 := by
  rw [dropSetId_eq]
  split_ifs <;> omega

theorem dropSetId_dropSetId (mode : Nat) : dropSetId (dropSetId mode) = dropSetId mode := by
  rw [dropSetId_eq, dropSetId_eq]
  split_ifs <;> omega

theorem dropSetId_mod (mode : Nat) : dropSetId mode % 4096 = dropSetId (mode % 4096) := by
  rw [dropSetId_eq, dropSetId_eq]
  split_ifs <;> omega

namespace Backing

/-- What a name refers to. -/
def find (b : Backing) (p : Filename) : Option Node := Assoc.find b.names p

/-- The inode of a regular file. -/
def inoOf (b : Backing) (p : Filename) : Option Nat :=
  match b.find p with
  | some (.reg i) => some i
  | _ => none

/-- `st_nlink`. -/
def nlink (b : Backing) (i : Nat) : Nat := Assoc.count b.names (.reg i)

/-- The directory a path is in exists. -/
def hasParent (b : Backing) (p : Filename) : Bool :=
  match dirname p with
  | none => true
  | some d => b.find d = some .dir

/-- Change the contents of an inode, which sets its modification time and may take its set-id bits away. -/
def setData (b : Backing) (i : Nat) (data : Bytes) : Backing :=
  { b with inodes := Function.update b.inodes i ⟨data, (b.inodes i).attr.written b.fsetid b.clock⟩ }

/-- Change the attributes of an inode. -/
def setAttr (b : Backing) (i : Nat) (attr : Attr) : Backing :=
  { b with inodes := Function.update b.inodes i { b.inodes i with attr := attr } }

/-- A new inode. -/
def alloc (b : Backing) (data : Bytes) (attr : Attr) : Backing :=
  { b with inodes := Function.update b.inodes b.next { data := data, attr := attr }, next := b.next + 1 }

/-- Make a name refer to an inode, in place of what it referred to before. -/
def setName (b : Backing) (p : Filename) (i : Nat) : Backing := { b with names := Assoc.insert b.names p (.reg i) }

/-- Remove a name. -/
def dropName (b : Backing) (p : Filename) : Backing := { b with names := Assoc.erase b.names p }

/-- `mknod(2)` of a regular file. -/
def mknod (b : Backing) (p : Filename) (mode uid gid : Nat) : Option Backing :=
  if b.find p = none ∧ b.hasParent p then
    some ((b.alloc [] { mode := mode, uid := uid, gid := gid, atime := b.clock, mtime := b.clock }).setName p b.next)
  else none

/-- `unlink(2)`. -/
def unlink (b : Backing) (p : Filename) : Option Backing :=
  match b.find p with
  | some (.reg _) => some (b.dropName p)
  | _ => none

/-- `mkdir(2)`. -/
def mkdir (b : Backing) (p : Filename) : Option Backing :=
  if b.find p = none ∧ b.hasParent p then some { b with names := Assoc.insert b.names p .dir } else none

/-- `rmdir(2)`. -/
def rmdir (b : Backing) (p : Filename) : Option Backing :=
  if b.find p = some .dir ∧ !b.names.any (fun e => below p e.1) then some (b.dropName p) else none

/-- `link(2)`. -/
def link (b : Backing) (src dst : Filename) : Option Backing :=
  match b.inoOf src with
  | some i => if b.find dst = none ∧ b.hasParent dst then some (b.setName dst i) else none
  | none => none

/-- The names after a directory has been renamed. -/
def moveDir (b : Backing) (src dst : Filename) : Backing :=
  { b with names := (Assoc.erase b.names dst).map (fun e => (movePath src dst e.1, e.2)) }

/-- `rename(2)`. Where both names are links to one inode it does nothing and succeeds. A directory replaces nothing or an empty
directory. -/
def rename (b : Backing) (src dst : Filename) : Option Backing :=
  match b.find src with
  | none => none
  | some (.reg i) =>
    match b.find dst with
    | some .dir => none
    | some (.reg j) => if i = j then some b else some ((b.dropName src).setName dst i)
    | none => if b.hasParent dst then some ((b.dropName src).setName dst i) else none
  | some .dir =>
    if src = dst then some b
    else if below src dst then none
    else
      match b.find dst with
      | some (.reg _) => none
      | some .dir => if b.names.any (fun e => below dst e.1) then none else some (b.moveDir src dst)
      | none => if b.hasParent dst && !b.names.any (fun e => below dst e.1) then some (b.moveDir src dst) else none

/-! ## What each call changes -/

section Simp

variable (b : Backing)

@[simp] theorem find_setData (i : Nat) (d : Bytes) (p : Filename) : (b.setData i d).find p = b.find p := rfl
@[simp] theorem find_setAttr (i : Nat) (a : Attr) (p : Filename) : (b.setAttr i a).find p = b.find p := rfl
@[simp] theorem find_alloc (d : Bytes) (a : Attr) (p : Filename) : (b.alloc d a).find p = b.find p := rfl
@[simp] theorem inoOf_setData (i : Nat) (d : Bytes) (p : Filename) : (b.setData i d).inoOf p = b.inoOf p := rfl
@[simp] theorem inoOf_setAttr (i : Nat) (a : Attr) (p : Filename) : (b.setAttr i a).inoOf p = b.inoOf p := rfl
@[simp] theorem inoOf_alloc (d : Bytes) (a : Attr) (p : Filename) : (b.alloc d a).inoOf p = b.inoOf p := rfl
@[simp] theorem nlink_setData (i j : Nat) (d : Bytes) : (b.setData i d).nlink j = b.nlink j := rfl
@[simp] theorem nlink_setAttr (i j : Nat) (a : Attr) : (b.setAttr i a).nlink j = b.nlink j := rfl
@[simp] theorem fsetid_setData (i : Nat) (d : Bytes) : (b.setData i d).fsetid = b.fsetid := rfl
@[simp] theorem fsetid_setAttr (i : Nat) (a : Attr) : (b.setAttr i a).fsetid = b.fsetid := rfl
@[simp] theorem fsetid_alloc (d : Bytes) (a : Attr) : (b.alloc d a).fsetid = b.fsetid := rfl
@[simp] theorem fsetid_setName (p : Filename) (i : Nat) : (b.setName p i).fsetid = b.fsetid := rfl
@[simp] theorem fsetid_dropName (p : Filename) : (b.dropName p).fsetid = b.fsetid := rfl
@[simp] theorem next_setData (i : Nat) (d : Bytes) : (b.setData i d).next = b.next := rfl
@[simp] theorem next_setAttr (i : Nat) (a : Attr) : (b.setAttr i a).next = b.next := rfl
@[simp] theorem next_alloc (d : Bytes) (a : Attr) : (b.alloc d a).next = b.next + 1 := rfl
@[simp] theorem next_setName (p : Filename) (i : Nat) : (b.setName p i).next = b.next := rfl
@[simp] theorem next_dropName (p : Filename) : (b.dropName p).next = b.next := rfl
@[simp] theorem inodes_setName (p : Filename) (i : Nat) : (b.setName p i).inodes = b.inodes := rfl
@[simp] theorem inodes_dropName (p : Filename) : (b.dropName p).inodes = b.inodes := rfl

theorem find_setName (p : Filename) (i : Nat) (q : Filename) :
    (b.setName p i).find q = if q = p then some (.reg i) else b.find q := Assoc.find_insert _ _ _ _

theorem find_dropName (p q : Filename) : (b.dropName p).find q = if q = p then none else b.find q := Assoc.find_erase _ _ _

theorem inoOf_setName (p : Filename) (i : Nat) (q : Filename) :
    (b.setName p i).inoOf q = if q = p then some i else b.inoOf q := by
  unfold inoOf
  rw [find_setName]
  split_ifs <;> rfl

theorem inoOf_dropName (p q : Filename) : (b.dropName p).inoOf q = if q = p then none else b.inoOf q := by
  unfold inoOf
  rw [find_dropName]
  split_ifs <;> rfl

theorem data_setData (i j : Nat) (d : Bytes) : ((b.setData i d).inodes j).data = if j = i then d else (b.inodes j).data := by
  unfold setData
  by_cases h : j = i
  · subst h; simp
  · simp [h]

@[simp] theorem data_setAttr (i j : Nat) (a : Attr) : ((b.setAttr i a).inodes j).data = (b.inodes j).data := by
  unfold setAttr
  by_cases h : j = i
  · subst h; simp
  · simp [h]

theorem inodes_alloc (d : Bytes) (a : Attr) (j : Nat) :
    (b.alloc d a).inodes j = if j = b.next then { data := d, attr := a } else b.inodes j := by
  unfold alloc
  by_cases h : j = b.next
  · subst h; simp
  · simp [h]

end Simp

theorem inoOf_eq_some {b : Backing} {p : Filename} {i : Nat} : b.inoOf p = some i ↔ b.find p = some (.reg i) := by
  unfold inoOf
  cases h : b.find p with
  | none => simp
  | some n => cases n <;> simp

/-- An inode with fewer than two links has one name at most. -/
theorem eq_of_nlink_lt_two {b : Backing} {i : Nat} {p q : Filename} (hl : b.nlink i < 2) (hp : b.inoOf p = some i)
    (hq : b.inoOf q = some i) : p = q := by
  by_contra hne
  have := Assoc.two_le_count (inoOf_eq_some.mp hp) (inoOf_eq_some.mp hq) hne
  exact absurd hl (by unfold nlink; omega)

end Backing

end FuseCompress
