import FuseCompress.Backing

/-!
# The data of a mounted file system

`structs.h` and the globals of `globals.c`: the entry of a path (`file_t`), open descriptors, the queue of the background
thread, the deduplication table, and the two databases. Pointers are numbers: a `file_t` is `files f`, a descriptor is
`descs d`, and neither number is used again once its object is freed.

A condition variable is the count of broadcasts made on it: a thread that waits remembers the count it saw.
-/

namespace FuseCompress

/-- The field `type` of a `file_t`: unset, `READ` or `WRITE`. -/
inductive Access where
  | unset | read | write
  deriving DecidableEq, Repr

/-- The bits of the field `status` of a `file_t`. -/
structure Status where
  compressing : Bool
  decompressing : Bool
  cancel : Bool
  deduping : Bool
  deriving DecidableEq, Repr

/-- No bit set. -/
def Status.clear : Status := ⟨false, false, false, false⟩

/-- `status & (COMPRESSING | DECOMPRESSING | DEDUPING)`. -/
def Status.busy (st : Status) : Bool := st.compressing || st.decompressing || st.deduping

/-- `status &= ~COMPRESSING`. -/
def Status.endCompressing (st : Status) : Status := { st with compressing := false }

/-- `status &= ~DEDUPING`. -/
def Status.endDeduping (st : Status) : Status := { st with deduping := false }

/-- `file_t`. A size of `-1` is unknown. `head` is the list of its descriptors, `cond` the count of broadcasts on its condition
variable, `locked` says that a thread has its lock between two of its steps, and `leaked` that a handler has returned without giving
it back. -/
structure FileT where
  filename : Filename
  deleted : Bool
  accesses : Int
  size : Int
  compressor : Option Module
  skipped : Nat
  dontcompress : Bool
  type : Access
  status : Status
  deduped : Bool
  cache : Option (List (Option Bytes))
  head : List Nat
  cond : Nat
  locked : Bool
  leaked : Bool
  deriving DecidableEq, Repr

/-- An open file description: the inode and the position. -/
structure Fd where
  ino : Nat
  pos : Nat
  deriving DecidableEq, Repr

/-- The state of a compression module on a descriptor: reading, with the place the stream starts at and the bytes delivered so
far, or writing, with the chunks accepted so far. -/
inductive Handle where
  | reading (start pos : Nat)
  | writing (chunks : List Bytes)
  deriving DecidableEq, Repr

/-- `descriptor_t`. `writable` is what the client asked for, `live` is false once it is freed. -/
structure Desc where
  file : Nat
  fd : Option Fd
  writable : Bool
  handle : Option Handle
  offset : Nat
  live : Bool
  deriving DecidableEq, Repr

/-- `compress_t`: an entry of the queue of the background thread. -/
structure CompressT where
  file : Nat
  isDedup : Bool
  deriving DecidableEq, Repr

/-- `dedup_t`. -/
structure DedupT where
  id : Nat
  filename : Filename
  md5 : List UInt8
  deriving DecidableEq, Repr

/-- The bucket of a file name, `gethash(filename) & DATABASE_HASH_MASK`. -/
def filenameBucket (p : Filename) : Nat := (gethash p).toNat % 65536

/-- `md5_to_hash`. -/
def md5ToHash (md5 : List UInt8) : Nat := (md5.getD 0 0).toNat + 256 * (md5.getD 1 0).toNat

/-- `dedup_hash_t`: the records, hashed by name and by digest. `nextId` is the next unused record pointer. -/
structure DedupHash where
  entries : Int
  headFilename : Nat → List DedupT
  headMd5 : Nat → List DedupT
  nextId : Nat

/-- `dedup_init_db`. -/
def dedupInitDb : DedupHash := { entries := 0, headFilename := fun _ => [], headMd5 := fun _ => [], nextId := 0 }

/-- The whole process: the backing directory, the two databases, the dedup table, the descriptors. `freed f` says that
`direct_open_delete` has been applied to `f`, and `aborted` that the process is gone. -/
structure State where
  fs : Backing
  files : Nat → FileT
  nextFile : Nat
  freed : Nat → Bool
  database : List Nat
  entries : Int
  comp : List CompressT
  compEntries : Int
  dedup : DedupHash
  redup : Bool
  descs : Nat → Desc
  nextDesc : Nat
  decompCacheSize : Int
  aborted : Bool

/-- The system calls and module calls whose outcome a step does not decide. Two calls of one kind that one critical section makes
at different places have a constructor each, and `of d c` is the call `c` of a loop over the descriptors of a file, made for `d`. -/
inductive Call where
  | statvfs | lstat | open | fstat | readHeader | mkstemp | reopen | fchown | fchmod | writeHeader | updateHeader | close | rename
  | utime | closeFstat | closeUtime | unlink | link | mknod | mkdir | rmdir | openTruncate | ftruncate | lseek | pread | pwrite
  | readMagic | read | copy | chmod | chown | lutimes | lstatAttr | openAttr | fchmodAttr | fchownAttr | futimens | unlinkAttr | renameAttr
  | codecOpen | codecRead | codecWrite | codecClose | compress | decompress | errno
  | of (d : Nat) (c : Call)
  deriving DecidableEq, Repr

/-- What the system answers during one step: which calls succeed, and the free space `statvfs` reports, for everybody
(`f_bsize * f_bavail`) and for the superuser (`f_bsize * f_bfree`). `ok .errno` says that `errno` is not 0 where a request looks at it. -/
structure Env where
  ok : Call → Bool
  avail : Nat
  bfree : Nat

/-- What the system answers to the calls that a loop over descriptors makes for one of them. -/
def Env.of (e : Env) (d : Nat) : Env := { e with ok := fun c => e.ok (.of d c) }

/-- Every call succeeds and there is room for every file. -/
def Env.fine : Env := { ok := fun _ => true, avail := 2 ^ 63, bfree := 2 ^ 63 }

/-- No call fails. -/
def Env.AllOk (e : Env) : Prop := ∀ c, e.ok c = true

theorem Env.allOk_fine : Env.fine.AllOk := fun _ => rfl

theorem Env.AllOk.of {e : Env} (h : e.AllOk) (d : Nat) : (e.of d).AllOk := fun c => h (.of d c)

/-- There is room for a file of any size. -/
def Env.Ample (e : Env) : Prop := 2 ^ 63 ≤ e.avail

namespace State

/-- Change an entry. -/
def modFile (s : State) (f : Nat) (g : FileT → FileT) : State :=
  { s with files := Function.update s.files f (g (s.files f)) }

/-- Change a descriptor. -/
def modDesc (s : State) (d : Nat) (g : Desc → Desc) : State :=
  { s with descs := Function.update s.descs d (g (s.descs d)) }

/-- The process is gone. -/
def abort (s : State) : State := { s with aborted := true }

/-- `assert`. -/
def assert (Γ : Config) (s : State) (c : Bool) : State := if Γ.assertions && !c then s.abort else s

/-- The contents of an inode. -/
def data (s : State) (i : Nat) : Bytes := (s.fs.inodes i).data

/-- The file system as `s` has it, changed. -/
def withFs (s : State) (g : Backing → Backing) : State := { s with fs := g s.fs }

section Simp

variable (s : State) (f : Nat) (g : FileT → FileT) (d : Nat) (h : Desc → Desc) (k : Backing → Backing)

@[simp] theorem files_modFile (f' : Nat) : (s.modFile f g).files f' = if f' = f then g (s.files f) else s.files f' := by
  by_cases e : f' = f
  · subst e; simp [modFile]
  · simp [modFile, e]

@[simp] theorem descs_modDesc (d' : Nat) : (s.modDesc d h).descs d' = if d' = d then h (s.descs d) else s.descs d' := by
  by_cases e : d' = d
  · subst e; simp [modDesc]
  · simp [modDesc, e]

@[simp] theorem fs_modFile : (s.modFile f g).fs = s.fs := rfl
@[simp] theorem nextFile_modFile : (s.modFile f g).nextFile = s.nextFile := rfl
@[simp] theorem freed_modFile : (s.modFile f g).freed = s.freed := rfl
@[simp] theorem database_modFile : (s.modFile f g).database = s.database := rfl
@[simp] theorem entries_modFile : (s.modFile f g).entries = s.entries := rfl
@[simp] theorem comp_modFile : (s.modFile f g).comp = s.comp := rfl
@[simp] theorem compEntries_modFile : (s.modFile f g).compEntries = s.compEntries := rfl
@[simp] theorem dedup_modFile : (s.modFile f g).dedup = s.dedup := rfl
@[simp] theorem redup_modFile : (s.modFile f g).redup = s.redup := rfl
@[simp] theorem descs_modFile : (s.modFile f g).descs = s.descs := rfl
@[simp] theorem nextDesc_modFile : (s.modFile f g).nextDesc = s.nextDesc := rfl
@[simp] theorem aborted_modFile : (s.modFile f g).aborted = s.aborted := rfl
@[simp] theorem decompCacheSize_modFile : (s.modFile f g).decompCacheSize = s.decompCacheSize := rfl
@[simp] theorem data_modFile (i : Nat) : (s.modFile f g).data i = s.data i := rfl

@[simp] theorem fs_modDesc : (s.modDesc d h).fs = s.fs := rfl
@[simp] theorem files_modDesc : (s.modDesc d h).files = s.files := rfl
@[simp] theorem nextFile_modDesc : (s.modDesc d h).nextFile = s.nextFile := rfl
@[simp] theorem freed_modDesc : (s.modDesc d h).freed = s.freed := rfl
@[simp] theorem database_modDesc : (s.modDesc d h).database = s.database := rfl
@[simp] theorem entries_modDesc : (s.modDesc d h).entries = s.entries := rfl
@[simp] theorem comp_modDesc : (s.modDesc d h).comp = s.comp := rfl
@[simp] theorem compEntries_modDesc : (s.modDesc d h).compEntries = s.compEntries := rfl
@[simp] theorem dedup_modDesc : (s.modDesc d h).dedup = s.dedup := rfl
@[simp] theorem redup_modDesc : (s.modDesc d h).redup = s.redup := rfl
@[simp] theorem nextDesc_modDesc : (s.modDesc d h).nextDesc = s.nextDesc := rfl
@[simp] theorem aborted_modDesc : (s.modDesc d h).aborted = s.aborted := rfl
@[simp] theorem decompCacheSize_modDesc : (s.modDesc d h).decompCacheSize = s.decompCacheSize := rfl
@[simp] theorem data_modDesc (i : Nat) : (s.modDesc d h).data i = s.data i := rfl

@[simp] theorem fs_withFs : (s.withFs k).fs = k s.fs := rfl
@[simp] theorem files_withFs : (s.withFs k).files = s.files := rfl
@[simp] theorem nextFile_withFs : (s.withFs k).nextFile = s.nextFile := rfl
@[simp] theorem freed_withFs : (s.withFs k).freed = s.freed := rfl
@[simp] theorem database_withFs : (s.withFs k).database = s.database := rfl
@[simp] theorem entries_withFs : (s.withFs k).entries = s.entries := rfl
@[simp] theorem comp_withFs : (s.withFs k).comp = s.comp := rfl
@[simp] theorem compEntries_withFs : (s.withFs k).compEntries = s.compEntries := rfl
@[simp] theorem dedup_withFs : (s.withFs k).dedup = s.dedup := rfl
@[simp] theorem redup_withFs : (s.withFs k).redup = s.redup := rfl
@[simp] theorem descs_withFs : (s.withFs k).descs = s.descs := rfl
@[simp] theorem nextDesc_withFs : (s.withFs k).nextDesc = s.nextDesc := rfl
@[simp] theorem aborted_withFs : (s.withFs k).aborted = s.aborted := rfl
@[simp] theorem decompCacheSize_withFs : (s.withFs k).decompCacheSize = s.decompCacheSize := rfl

end Simp

/-- A change that changes nothing. -/
theorem modFile_eq_self {s : State} {f : Nat} {g : FileT → FileT} (hg : g (s.files f) = s.files f) : s.modFile f g = s := by
  unfold modFile
  rw [hg, Function.update_eq_self]

section Assert

variable (Γ : Config) (s : State) (c : Bool)

theorem assert_eq : s.assert Γ c = s ∨ s.assert Γ c = s.abort := by
  unfold assert
  split
  · exact Or.inr rfl
  · exact Or.inl rfl

@[simp] theorem assert_true : s.assert Γ true = s := by simp [assert]

@[simp] theorem fs_assert : (s.assert Γ c).fs = s.fs := by unfold assert; split <;> rfl
@[simp] theorem files_assert : (s.assert Γ c).files = s.files := by unfold assert; split <;> rfl
@[simp] theorem descs_assert : (s.assert Γ c).descs = s.descs := by unfold assert; split <;> rfl
@[simp] theorem data_assert (i : Nat) : (s.assert Γ c).data i = s.data i := by unfold assert; split <;> rfl

end Assert

end State

end FuseCompress
