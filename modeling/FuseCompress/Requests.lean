import FuseCompress.DirectCompress

/-!
# The requests

`fusecompress.c` and `thread_compress`, cut at the places where a handler takes or gives back the lock of a file. Each function
is what one handler does with an entry between taking its lock and giving it back.

A handler that returns without giving the lock back is recorded in the field `leaked`.
-/

namespace FuseCompress

/-- What `getattr` reports of a regular file. -/
structure Stat where
  size : Int
  nlink : Nat
  attr : Attr
  deriving DecidableEq, Repr

/-- What a request returns. -/
inductive Reply where
  | ok
  | fail
  | stat (st : Stat)
  | opened (d : Nat)
  | read (buf : Bytes)
  | wrote (len : Int)
  deriving DecidableEq, Repr

/-! ## `getattr` -/

/-- The names `getattr` treats as commands. -/
def isMagicFile (full : Filename) : Bool := full.take 3 = "_fc".toList

/-- `getattr` of a magic file. The number of blocks it reports for `_fcstat` is left out. -/
def getattrMagic (s : State) (full : Filename) : State × Reply :=
  if full.drop 3 = "redupon".toList then ({ s with redup := true }, .fail)
  else if full.drop 3 = "redupoff".toList then ({ s with redup := false }, .fail)
  else if full.drop 3 = "stat".toList then
    (s, .stat { size := 0, nlink := s.compEntries.toNat, attr := { mode := 0, uid := 0, gid := 0, atime := 0, mtime := 0 } })
  else (s, .fail)

/-- What `lstat` or `dedup_sys_getattr` finds at a path. -/
inductive Lstat where
  | failed
  | notRegular
  | regular (st : Stat)
  deriving DecidableEq, Repr

/-- `lstat`, or `dedup_sys_getattr`, which prefers the attributes of the attribute file. -/
def sysGetattr (Γ : Config) (env : Env) (b : Backing) (full : Filename) : Lstat :=
  match if env.ok .lstat then b.find full else none with
  | none => .failed
  | some .dir => .notRegular
  | some (.reg i) =>
    let attr :=
      if Γ.dedupEnabled ∧ env.ok .lstatAttr then (b.attrOf (fuseattrName full)).getD (b.inodes i).attr else (b.inodes i).attr
    .regular { size := ((b.inodes i).data.length : Int), nlink := b.nlink i, attr := attr }

/-- `fusecompress_getattr` from the lock on, given what `lstat` found before. -/
def getattrLocked (Γ : Config) (env : Env) (s : State) (f : Nat) (full : Filename) (st : Stat) : State × Reply :=
  let file := s.files f
  let nlink := if Γ.dedupEnabled then 1 else st.nlink
  if file.size = -1 then
    if headerSize ≤ asU64 st.size then
      match if env.ok .open ∧ env.ok .readHeader then s.fs.inoOf full else none with
      | none => (s, .fail)
      | some i =>
        let r := fileReadHeader Γ (s.data i) file.compressor st.size
        let s := s.modFile f (fun file => { file with compressor := r.1 })
        if env.ok .close = false then (s, .fail)
        else (s.modFile f (fun file => { file with size := r.2 }), .stat { st with size := r.2, nlink := nlink })
    else (s.modFile f (fun file => { file with size := st.size }), .stat { st with nlink := nlink })
  else if file.compressor ≠ none then (s, .stat { st with size := file.size, nlink := nlink })
  else (s, .stat { st with nlink := nlink })

/-! ## Requests on a path -/

/-- `fusecompress_mknod`, of a regular file. -/
def mknodLocked (env : Env) (s : State) (full : Filename) (mode uid gid : Nat) : State × Reply :=
  match if env.ok .mknod then s.fs.mknod full mode uid gid else none with
  | none => (s, .fail)
  | some b => ({ s with fs := b }, .ok)

/-- `unlink`, or `dedup_sys_unlink`. -/
def sysUnlink (Γ : Config) (env : Env) (b : Backing) (full : Filename) : Backing × Bool :=
  if Γ.dedupEnabled then dedupSysUnlink env b full
  else
    match if env.ok .unlink then b.unlink full else none with
    | none => (b, false)
    | some b => (b, true)

/-- `rename`, or `dedup_sys_rename`. -/
def sysRename (Γ : Config) (env : Env) (b : Backing) (src dst : Filename) : Backing × Bool :=
  if Γ.dedupEnabled then dedupSysRename env b src dst
  else
    match if env.ok .rename then b.rename src dst else none with
    | none => (b, false)
    | some b => (b, true)

/-- `fusecompress_unlink`. -/
def unlinkLocked (Γ : Config) (env : Env) (s : State) (f : Nat) (full : Filename) : State × Reply :=
  let s := discard Γ s f
  match sysUnlink Γ env s.fs full with
  | (b, true) => (directDelete { s with fs := b } f, .ok)
  | (b, false) => ({ s with fs := b }, .fail)

/-- `fusecompress_rename`, once both entries are locked. -/
def renameLocked (Γ : Config) (env : Env) (s : State) (src dst : Nat) : State × Reply :=
  let s := s.modFile src (fun file => { file with accesses := file.accesses - 1 })
  let s := s.modFile dst (fun file => { file with accesses := file.accesses - 1 })
  match sysRename Γ env s.fs (s.files src).filename (s.files dst).filename with
  | (b, true) =>
    let s : State := { s with fs := b }
    (directRename Γ (if Γ.dedupEnabled then dedupRename s src dst else s) src dst, .ok)
  | (b, false) => ({ s with fs := b }, .fail)

/-- `-errno` behind a function that can fail without a call that fails. `errno` is what the last failing call of the thread has left
in it, and 0 when there was none: the request then returns 0, which means `zero`. -/
def errnoReply (errno : Bool) (zero : Reply) : Reply := if errno then .fail else zero

/-- `if (file->compressor && !do_decompress(file))`: the file is raw afterwards, or false. -/
def ensureRaw (Γ : Config) (env : Env) (s : State) (f : Nat) : State × Bool :=
  if (s.files f).compressor = none then (s, true) else doDecompress Γ env s f

/-- `fusecompress_link` up to the unlock. False when the decompression fails. -/
def linkLocked (Γ : Config) (env : Env) (s : State) (f : Nat) : State × Bool :=
  match ensureRaw Γ env s f with
  | (s, true) => (s.modFile f (fun file => { file with dontcompress := true }), true)
  | (s, false) => (s, false)

/-- `link(2)`, which `fusecompress_link` calls without a lock. -/
def linkCall (env : Env) (s : State) (src dst : Filename) : State × Reply :=
  match if env.ok .link then s.fs.link src dst else none with
  | none => (s, .fail)
  | some b => ({ s with fs := b }, .ok)

/-- The part of `fusecompress_truncate` that closes the streams of a compressed file which is cut to nothing. -/
def truncateClose (Γ : Config) (env : Env) (s : State) (f : Nat) : List Nat → State
  | [] => s
  | d :: ds =>
    let s := directClose Γ (env.of d) s f d
    let s := s.modDesc d (fun desc =>
      { desc with fd := if (env.of d).ok .lseek then desc.fd.map (fun fd => { fd with pos := 0 }) else desc.fd })
    truncateClose Γ env s f ds

/-- The last part of `fusecompress_truncate`: open the file, cut it, and set the size. -/
def truncateFile (env : Env) (s : State) (f : Nat) (full : Filename) (size : Nat) : State × Reply :=
  match if env.ok .openTruncate ∧ env.ok .ftruncate then s.fs.inoOf full else none with
  | none => (s, .fail)
  | some i =>
    let s := s.withFs (fun b => b.setData i (Bytes.resize (b.inodes i).data size))
    (s.modFile f (fun file => { file with size := size }), .ok)

/-- `fusecompress_truncate`. -/
def truncateLocked (Γ : Config) (env : Env) (s : State) (f : Nat) (full : Filename) (size : Nat) : State × Reply :=
  let s := discard Γ s f
  if size > 0 then
    let errno := decompressErrno Γ env s f
    match ensureRaw Γ env s f with
    | (s, true) => truncateFile env s f full size
    | (s, false) => (s, errnoReply errno .ok)
  else if (s.files f).compressor = none then truncateFile env s f full size
  else
    let s := truncateClose Γ env s f (s.files f).head
    truncateFile env (s.modFile f (fun file => { file with compressor := none })) f full size

/-! ## Requests on a descriptor -/

/-- The end of `fusecompress_open`: a new descriptor at the head of the list. -/
def openDescriptor (s : State) (f ino pos : Nat) (writable : Bool) (size : Int) : State × Reply :=
  let d := s.nextDesc
  let desc : Desc := { file := f, fd := some ⟨ino, pos⟩, writable := writable, handle := none, offset := 0, live := true }
  let s := { s with descs := Function.update s.descs d desc, nextDesc := d + 1 }
  (s.modFile f (fun file => { file with accesses := file.accesses + 1, size := size, head := d :: file.head }), .opened d)

/-- `fusecompress_open` finds more than one link. -/
def noteLinks (s : State) (f ino : Nat) : State :=
  s.modFile f (fun file => { file with dontcompress := file.dontcompress || decide (s.fs.nlink ino > 1) })

/-- `fusecompress_open` from the opening of the file on. -/
def openFile (Γ : Config) (env : Env) (s : State) (f : Nat) (full : Filename) (writable : Bool) : State × Reply :=
  match if env.ok .open then s.fs.inoOf full else none with
  | none => (s, .fail)
  | some i =>
    -- the two failures below return with the lock still held
    if env.ok .fstat = false then (s.modFile f (fun file => { file with leaked := true }), .fail)
    else
      let s := noteLinks s f i
      let size := (s.data i).length
      if headerSize ≤ size then
        if env.ok .readHeader = false then (s.modFile f (fun file => { file with leaked := true }), .fail)
        else
          let r := fileReadHeader Γ (s.data i) (s.files f).compressor size
          let s := s.modFile f (fun file => { file with compressor := r.1 })
          openDescriptor s f i headerSize writable r.2
      else
        let s := s.modFile f (fun file => { file with compressor := none })
        openDescriptor s f i 0 writable size

/-- `fusecompress_open` makes a private copy of a deduplicated file that is opened for writing. False is `FAIL`. -/
def openUndedup (Γ : Config) (env : Env) (s : State) (f : Nat) (writable : Bool) : State × Bool :=
  if Γ.dedupEnabled ∧ writable then doUndedup Γ env s f else (s, true)

/-- `fusecompress_open`. -/
def openLocked (Γ : Config) (env : Env) (s : State) (f : Nat) (full : Filename) (writable : Bool) : State × Reply :=
  match openUndedup Γ env s f writable with
  | (s, true) => openFile Γ env s f full writable
  | (s, false) => (s, .fail)

/-- `fusecompress_read` up to the point where it is done or calls `pread` without the lock. -/
def readLocked (Γ : Config) (env : Env) (s : State) (f d size offset : Nat) : State × ReadNext :=
  match (s.files f).compressor with
  | some m => directDecompress Γ env s m f d size offset
  | none => (s, .pread (s.descs d).fd size offset [])

/-- `pread`. -/
def preadFd (env : Env) (s : State) (fd : Option Fd) (size offset : Nat) : Option Bytes :=
  if env.ok .pread then fd.map (fun fd => Bytes.slice (s.data fd.ino) offset size) else none

/-- A read or a write has failed: the size of the file is unknown from now on. -/
def invalidateSize (s : State) (f : Nat) : State := s.modFile f (fun file => { file with size := -1 })

/-- `fusecompress_write`: the file is still empty and nobody else uses it, so a compression module can be chosen. -/
def mayChoose (file : FileT) (offset : Nat) : Bool :=
  !file.dontcompress && decide (file.size = 0) && decide (file.accesses = 1) && decide (offset = 0)

/-- `fusecompress_write` chooses a compression module for a file that is still empty. -/
def writeChoose (Γ : Config) (s : State) (f offset : Nat) : State :=
  let choose := mayChoose (s.files f) offset
  (s.assert Γ (!choose || (s.files f).compressor.isNone)).modFile f (fun file =>
    { file with
      compressor := if choose then chooseCompressor Γ file.filename else file.compressor
      dontcompress := true })

/-- `fusecompress_write` up to the point where it is done or calls `pwrite` without the lock. -/
def writeLocked (Γ : Config) (env : Env) (s : State) (f d : Nat) (buf : Bytes) (offset : Nat) : State × WriteNext :=
  let s := discard Γ s f
  let s := writeChoose Γ s f offset
  match (s.files f).compressor with
  | some m => directCompress Γ env s m f d buf offset
  | none => (s, .pwrite (s.descs d).fd)

/-- `pwrite`. False when it fails. -/
def pwriteFd (env : Env) (s : State) (fd : Option Fd) (buf : Bytes) (offset : Nat) : State × Bool :=
  match if env.ok .pwrite then fd else none with
  | none => (s, false)
  | some fd =>
    (if buf = [] then s else s.withFs (fun b => b.setData fd.ino (Bytes.overwrite (b.inodes fd.ino).data offset buf)), true)

/-- `fusecompress_release` closes the stream of a compressed file. -/
def releaseClose (Γ : Config) (env : Env) (s : State) (f d : Nat) : State :=
  if (s.files f).compressor = none then s else directClose Γ env s f d

/-- `fusecompress_release`. The descriptor leaves the list it is in, and the entry the handler holds loses an access. -/
def releaseLocked (Γ : Config) (env : Env) (s : State) (f d : Nat) : State × Reply :=
  let s := releaseClose Γ env s f d
  let s := s.modFile (s.descs d).file (fun file => { file with head := file.head.erase d })
  let s := s.modFile f (fun file => { file with accesses := file.accesses - 1 })
  (s.modDesc d (fun desc => { desc with fd := none, live := false }), .ok)

/-! ## The background thread -/

/-- `thread_compress` takes the first entry off the queue. -/
def compDequeue (s : State) : Option (State × CompressT) :=
  match s.comp with
  | [] => none
  | entry :: rest => some ({ s with comp := rest, compEntries := s.compEntries - 1 }, entry)

/-- `thread_compress`: the file of a compression entry is to be compressed now. -/
def compressNow (Γ : Config) (file : FileT) : Bool :=
  decide (file.accesses = 1) && !file.deleted && file.compressor.isNone &&
    (Γ.dontCompressBeyond = 2 ^ 64 - 1 || decide (asU64 file.size < Γ.dontCompressBeyond))

/-- `thread_compress`: the file of a deduplication entry is to be deduplicated now. -/
def dedupNow (file : FileT) : Bool := decide (file.accesses = 1) && !file.deleted

/-- `thread_compress` is done with an entry: give back the access that the entry counted for. -/
def compFinish (Γ : Config) (s : State) (f : Nat) (isDedup : Bool) : State :=
  let s := if isDedup then s else discard Γ s f
  s.modFile f (fun file => { file with accesses := file.accesses - 1 })

/-- `do_dedup` up to the point where it gives the lock back. -/
def doDedupBegin (s : State) (f : Nat) : State :=
  s.modFile f (fun file => { file with status := { file.status with deduping := true } })

end FuseCompress
