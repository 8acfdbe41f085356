import FuseCompress.Compress

/-!
# The database of open files, and reading and writing compressed files in place

`direct_compress.c` and `background_compress_dedup`. `directDecompress` and `directCompress` run under the lock of the file. Where
the source gives the lock back to call `pread` or `pwrite` they end with that call still to be made (`ReadNext.pread`,
`WriteNext.pwrite`).

The loops that wait while `DECOMPRESSING` is set have no counterpart: the bit is set and cleared inside one critical section.
-/

namespace FuseCompress

/-- `DC_PAGE_SIZE`. -/
def pageSize : Nat := 4096

/-- `MAX_DATABASE_LEN`. -/
def maxDatabaseLen : Int := 30

/-! ## The database -/

/-- `background_compress_dedup`: put a file on the queue and count the entry as an access. -/
def backgroundCompressDedup (s : State) (f : Nat) (dedup : Bool) : State :=
  let s := s.modFile f (fun file => { file with accesses := file.accesses + 1 })
  { s with comp := s.comp ++ [{ file := f, isDedup := dedup }], compEntries := s.compEntries + 1 }

/-- `_direct_open_purge`: the file should be compressed in the background. -/
def wantsCompress (Γ : Config) (env : Env) (b : Backing) (file : FileT) : Bool :=
  !file.deleted && file.compressor.isNone && (file.size = -1 || decide (file.size > Γ.minFilesizeBackground)) &&
    env.ok .statvfs && (b.find file.filename).isSome && enoughSpace Γ env file.size && !Γ.readOnly && (chooseCompressor Γ file.filename).isSome

/-- `_direct_open_purge`: the file should be deduplicated in the background. -/
def wantsDedup (Γ : Config) (file : FileT) : Bool :=
  Γ.dedupEnabled && !file.deleted && !file.deduped && !isExcluded Γ file.filename

/-- Take an entry out of the database. -/
def detach (s : State) (f : Nat) : State := { s with database := s.database.erase f, entries := s.entries - 1 }

/-- `direct_open_delete`. -/
def directOpenDelete (s : State) (f : Nat) : State :=
  let s := flushFileCache s f
  { s with freed := Function.update s.freed f true }

/-- What `_direct_open_purge` does with one entry of the database. -/
def purgeFile (Γ : Config) (env : Env) (force : Bool) (s : State) (f : Nat) : State :=
  let file := s.files f
  if file.accesses = 0 then
    if wantsCompress Γ env s.fs file then backgroundCompressDedup s f false
    else if wantsDedup Γ file then backgroundCompressDedup s f true
    else directOpenDelete (detach s f) f
  else if force then detach s f
  else s

/-- `_direct_open_purge`: one entry after the other. -/
def directOpenPurge (Γ : Config) (env : Env) (force : Bool) (s : State) : State :=
  s.database.foldl (purgeFile Γ env force) s

/-- `direct_new_file`: the entry a path starts with. -/
def directNewFile (Γ : Config) (s : State) (filename : Filename) : FileT :=
  { filename := filename
    deleted := false
    accesses := 0
    size := -1
    compressor := none
    skipped := 0
    dontcompress := false
    type := .unset
    status := .clear
    -- assume that a file has been deduped until it is modified
    deduped := !(Γ.dedupEnabled && s.redup && !s.dedup.hasFilehash filename)
    cache := none
    head := []
    cond := 0
    locked := false
    leaked := false }

/-- The search of `direct_open` through the database. -/
def findFile (s : State) (filename : Filename) : Option Nat := s.database.find? (fun f => (s.files f).filename = filename)

/-- `direct_open` finds an entry: the file is requested, so it cannot be in deleted state. -/
def directOpenFound (s : State) (f : Nat) : State := s.modFile f (fun file => { file with deleted := false })

/-- `direct_open` makes a new entry and adds it to the database, whose count has been raised before. -/
def directOpenAdd (Γ : Config) (s : State) (filename : Filename) : State :=
  { s with
    files := Function.update s.files s.nextFile (directNewFile Γ s filename)
    nextFile := s.nextFile + 1
    database := s.database ++ [s.nextFile] }

/-- `direct_open` raises the count of entries and purges the database when it has grown too long. -/
def directOpenCount (Γ : Config) (env : Env) (s : State) : State :=
  let entries := s.entries
  let hysteresis := s.compEntries
  let s := { s with entries := s.entries + 1 }
  if entries > maxDatabaseLen + hysteresis then directOpenPurge Γ env false s else s

/-- `direct_open`, when no worker is busy with the file. -/
def directOpen (Γ : Config) (env : Env) (s : State) (filename : Filename) : State × Nat :=
  match findFile s filename with
  | some f => (directOpenFound s f, f)
  | none =>
    let s := directOpenCount Γ env s
    (directOpenAdd Γ s filename, s.nextFile)

/-! ## Reading -/

/-- `bytes_to_skip`. -/
def bytesToSkip (now req : Nat) : Nat := if req ≥ now then req - now else req

/-- How a read goes on: it has ended with a result, or it gives the lock back and calls `pread`. `served` is what the cache has
given already. -/
inductive ReadNext where
  | done (res : Int) (buf : Bytes)
  | pread (fd : Option Fd) (size offset : Nat) (served : Bytes)
  deriving DecidableEq, Repr

/-- The loop that serves whole pages from the cache, `n` pages being asked for from page `i` on. Gives the bytes, the cache
without the pages served, and their number. -/
def servePages (pages : List (Option Bytes)) : Nat → Nat → Bytes × List (Option Bytes) × Nat
  | 0, _ => ([], pages, 0)
  | n + 1, i =>
    match pages.getD i none with
    | none => ([], pages, 0)
    | some page =>
      let r := servePages (pages.set i none) n (i + 1)
      (Bytes.resize page pageSize ++ r.1, r.2.1, r.2.2 + 1)

/-- `compressor->read` on a descriptor: the next bytes of the decoded stream, none on an error. -/
def codecRead (Γ : Config) (env : Env) (s : State) (m : Module) (d n : Nat) : State × Option Bytes :=
  match (s.descs d).handle, (s.descs d).fd with
  | some (.reading start pos), some fd =>
    match if env.ok .codecRead then (Γ.codec m).decode ((s.data fd.ino).drop start) else none with
    | none => (s, none)
    | some content =>
      let buf := Bytes.slice content pos n
      (s.modDesc d (fun desc =>
        { desc with handle := some (.reading start (pos + buf.length)), fd := some { fd with pos := (s.data fd.ino).length } }),
        some buf)
  | _, _ => (s, none)

/-- The cache has room for the page at the offset of a descriptor and does not have it yet. -/
def keepPage (Γ : Config) (s : State) (f d : Nat) (cacheThis : Bool) : Bool :=
  cacheThis && (((s.files f).cache.getD []).getD ((s.descs d).offset / pageSize) none).isNone &&
    decide (s.decompCacheSize < Γ.maxDecompCacheSize)

/-- One turn of the skipping has delivered `buf`: keep it as a page of the cache, or count it as skipped. -/
def skipped (s : State) (f d : Nat) (keep : Bool) (buf : Bytes) : State :=
  let page := (s.descs d).offset / pageSize
  let s := s.modFile f (fun file =>
    { file with
      cache := if keep then file.cache.map (fun pages => pages.set page (some buf)) else file.cache
      skipped := if keep then file.skipped else file.skipped + buf.length })
  s.modDesc d (fun desc => { desc with offset := desc.offset + buf.length })

/-- A page has been allocated for the cache. -/
def countPage (s : State) (keep : Bool) : State :=
  { s with decompCacheSize := s.decompCacheSize + if keep then pageSize else 0 }

/-- The loop that skips to the offset asked for, page by page, keeping the pages when `cacheThis` is set. The first argument bounds
the number of turns. The second result is what the whole read returns when the loop ends it. -/
def skipLoop (Γ : Config) (env : Env) (m : Module) (f d : Nat) (cacheThis : Bool) :
    Nat → Nat → State → State × Option Int
  | 0, _, s => (s, none)
  | n + 1, toread, s =>
    if toread = 0 then (s, none)
    else
      let readsize := min toread pageSize
      let keep := keepPage Γ s f d cacheThis
      match codecRead Γ env (countPage s keep) m d readsize with
      | (s, none) => (s, some (-1))
      | (s, some buf) =>
        let now := (s.descs d).offset
        if buf.length < readsize ∧ ((s.files f).size = -1 ∨ ((now + buf.length : Nat) : Int) < (s.files f).size) then
          (s, some (-1))
        else if buf = [] then (s, some 0)
        else skipLoop Γ env m f d cacheThis n (toread - buf.length) (skipped s f d keep buf)

/-- The length of the last read of `direct_decompress`: what was asked for, cut at the size of the file. -/
def cutSize (file : FileT) (now size : Nat) : Nat :=
  if file.size ≠ -1 ∧ now + size > asU64 file.size then asU64 (file.size - now) else size

/-- The end of `direct_decompress`: the read itself. -/
def decompressRead (Γ : Config) (env : Env) (s : State) (m : Module) (f d size : Nat) (served : Bytes) : State × ReadNext :=
  let size := cutSize (s.files f) (s.descs d).offset size
  match codecRead Γ env s m d size with
  | (s, none) => (s, .done (-1) [])
  | (s, some buf) =>
    if buf.length < size then (s, .done (-1) [])
    else
      (s.modDesc d (fun desc => { desc with offset := desc.offset + buf.length }),
        .done ((buf.length + served.length : Nat) : Int) (served ++ buf))

/-- `cache_size` of a new cache: an `int`. -/
def cachePages (size : Int) : Int := (size.tdiv pageSize + 1).bmod (2 ^ 32)

/-- The cache of a file is allocated. -/
def allocCache (s : State) (f : Nat) (cacheThis : Bool) : State :=
  if cacheThis ∧ (s.files f).cache = none then
    s.modFile f (fun file => { file with cache := some (List.replicate (cachePages file.size).toNat none) })
  else s

/-- `calloc` is asked for a negative number of pages, for which there is no room. -/
def allocFails (file : FileT) (cacheThis : Bool) : Bool := cacheThis && file.cache.isNone && decide (cachePages file.size < 0)

/-- `direct_decompress` from where it opens the module on: skip to the offset, then read. -/
def decompressSkip (Γ : Config) (env : Env) (s : State) (m : Module) (f d size offset : Nat) (cacheThis : Bool)
    (served : Bytes) : State × ReadNext :=
  if offset > (s.descs d).offset then
    let toread := offset - (s.descs d).offset
    let cacheThis := cacheThis && !decide ((toread : Int) > Γ.maxDecompCacheSize - s.decompCacheSize)
    if allocFails (s.files f) cacheThis then (s, .done (-1) [])
    else
      match skipLoop Γ env m f d cacheThis toread toread (allocCache s f cacheThis) with
      | (s, some r) => (s, .done r [])
      | (s, none) => decompressRead Γ env s m f d size served
  else decompressRead Γ env s m f d size served

/-- `direct_decompress` opens the module when it is not open. False when that fails. -/
def openStream (Γ : Config) (env : Env) (s : State) (d : Nat) : State × Bool :=
  match (s.descs d).handle, (s.descs d).fd with
  | some _, _ => (s, true)
  | none, none => (s.assert Γ ((s.descs d).offset = 0), false)
  | none, some fd =>
    let s := s.assert Γ ((s.descs d).offset = 0)
    if env.ok .codecOpen = false then (s, false)
    else (s.modDesc d (fun desc => { desc with handle := some (.reading fd.pos 0) }), true)

/-- `direct_decompress` closes the module to start again. -/
def rewind (Γ : Config) (env : Env) (s : State) (m : Module) (d : Nat) : State :=
  (codecClose Γ env s m d).modDesc d (fun desc => { desc with offset := 0, handle := none })

/-- `lseek` to the place behind the header. -/
def seekHeader (s : State) (d : Nat) : State :=
  s.modDesc d (fun desc => { desc with fd := desc.fd.map (fun fd => { fd with pos := headerSize }) })

/-- `direct_decompress` starts the stream again when it has to go back, and opens it when it is not open. False when one of the
calls fails. -/
def decompressOpen (Γ : Config) (env : Env) (s : State) (m : Module) (d offset : Nat) : State × Bool :=
  if offset < (s.descs d).offset then
    if (s.descs d).handle = none then (s.abort, false)
    else if env.ok .codecClose = false then (s, false)
    else if env.ok .lseek = false ∨ (s.descs d).fd = none then (rewind Γ env s m d, false)
    else openStream Γ env (seekHeader (rewind Γ env s m d) d) d
  else openStream Γ env s d

/-- The test of `direct_decompress` for decompressing the whole file instead: it was written to before, or the reader has jumped
about in a file that is not small. -/
def readFallback (Γ : Config) (file : FileT) (cacheSize : Int) (cacheThis : Bool) (now offset : Nat) : Bool :=
  file.type ≠ .read ||
    ((!cacheThis || decide (cacheSize ≥ Γ.maxDecompCacheSize) ||
        decide ((bytesToSkip now offset : Int) > Γ.maxDecompCacheSize - cacheSize)) &&
      !Γ.readOnly &&
      (decide (((file.skipped + bytesToSkip now offset : Nat) : Int) > file.size) && decide (file.size > 131072) &&
        decide (offset ≠ now)))

/-- `direct_decompress` serves what the cache has. The result is the bytes served and whether there were any pages. -/
def serveCache (s : State) (f : Nat) (cacheThis : Bool) (size offset : Nat) : State × Bytes × Bool :=
  if cacheThis ∧ (s.files f).type = .read then
    let pages := (s.files f).cache.getD []
    if (pages.getD (offset / pageSize) none).isNone then (s, [], false)
    else
      let r := servePages pages (size / pageSize) (offset / pageSize)
      (({ s with decompCacheSize := s.decompCacheSize - pageSize * (r.2.2 : Int) } : State).modFile f
        (fun file => { file with cache := some r.2.1 }), r.1, true)
  else (s, [], false)

/-- `direct_decompress`, for a file whose module is `m`. -/
def directDecompress (Γ : Config) (env : Env) (s : State) (m : Module) (f d size offset : Nat) : State × ReadNext :=
  let s := s.assert Γ (s.descs d).fd.isSome
  let cacheThis := Γ.cacheDecompressedData && offset % pageSize = 0 && size % pageSize = 0
  let s := s.modFile f (fun file => { file with type := if file.type = .unset then .read else file.type })
  match serveCache s f cacheThis size offset with
  | (s, served, any) =>
    let size := size - served.length
    let offset := offset + served.length
    if any ∧ size = 0 then (s, .done served.length served)
    else if readFallback Γ (s.files f) s.decompCacheSize cacheThis (s.descs d).offset offset then
      match doDecompress Γ env s f with
      | (s, false) => (s, .done (-1) [])
      | (s, true) =>
        let s := s.modFile f (fun file => { file with size := -1, skipped := 0 })
        (s, .pread (s.descs d).fd size offset served)
    else
      match decompressOpen Γ env s m d offset with
      | (s, false) => (s, .done (-1) [])
      | (s, true) => decompressSkip Γ env s m f d size offset cacheThis served

/-! ## Writing -/

/-- How a write goes on: it has ended with a result, or it gives the lock back and calls `pwrite`. -/
inductive WriteNext where
  | done (res : Int)
  | pwrite (fd : Option Fd)
  deriving DecidableEq, Repr

/-- The test of `direct_compress` for decompressing the whole file instead: the write is not at the end, or follows a read, or
somebody else uses the file. -/
def writeFallback (file : FileT) (now offset : Nat) : Bool :=
  decide ((now : Int) ≠ file.size) || decide (now ≠ offset) || decide (file.type ≠ .write) || decide (file.accesses > 1)

/-- `lseek` to the start and `file_write_header`. -/
def writeHeaderAt (s : State) (d : Nat) (fd : Fd) (m : Module) (size : Int) : State :=
  writeFd s d { fd with pos := 0 } (header m size)

/-- `lseek` to the end. -/
def seekEnd (s : State) (d : Nat) : State :=
  s.modDesc d (fun desc => { desc with fd := desc.fd.map (fun fd => { fd with pos := (s.data fd.ino).length }) })

/-- `direct_compress` opens the module on an empty file, behind a first header. False when one of the calls fails. -/
def compressOpen (Γ : Config) (env : Env) (s : State) (m : Module) (f d : Nat) (fd : Fd) : State × Bool :=
  let s := (s.assert Γ ((s.files f).size = 0)).assert Γ ((s.descs d).offset = 0)
  if env.ok .lseek = false ∨ env.ok .writeHeader = false then (s, false)
  else
    let s := writeHeaderAt s d fd m (s.files f).size
    if env.ok .codecOpen = false then (s, false)
    else (s.modDesc d (fun desc => { desc with handle := some (.writing []) }), true)

/-- `direct_compress` hands the buffer to the module and brings the header up to date. -/
def compressWrite (Γ : Config) (env : Env) (s : State) (m : Module) (f d : Nat) (buf : Bytes) : State × WriteNext :=
  match (s.descs d).handle, (s.descs d).fd with
  | some (.writing chunks), some fd =>
    if env.ok .codecWrite = false then (s, .done (-1))
    else
      let s := writeFd s d fd ((Γ.codec m).emit chunks buf)
      let s := s.modDesc d (fun desc =>
        { desc with handle := some (.writing (chunks ++ [buf])), offset := desc.offset + buf.length })
      let s := s.modFile f (fun file => { file with size := (s.descs d).offset })
      if env.ok .updateHeader = false then (s, .done (-1))
      else (seekEnd (writeHeaderAt s d fd m (s.files f).size) d, .done buf.length)
  | _, _ => (s, .done (-1))

/-- `direct_compress`, for a file whose module is `m`. -/
def directCompress (Γ : Config) (env : Env) (s : State) (m : Module) (f d : Nat) (buf : Bytes) (offset : Nat) :
    State × WriteNext :=
  let s := s.assert Γ ((s.descs d).fd.isSome && !Γ.readOnly)
  let s := flushFileCache s f
  let s := s.modFile f (fun file => { file with type := if file.type = .unset then .write else file.type })
  if writeFallback (s.files f) (s.descs d).offset offset then
    match doDecompress Γ env s f with
    | (s, false) => (s, .done (-1))
    | (s, true) =>
      let s := s.modFile f (fun file => { file with size := -1 })
      (s, .pwrite (s.descs d).fd)
  else
    match (s.descs d).handle, (s.descs d).fd with
    | none, some fd =>
      match compressOpen Γ env s m f d fd with
      | (s, false) => (s, .done (-1))
      | (s, true) => compressWrite Γ env s m f d buf
    | _, _ => compressWrite Γ env s m f d buf

/-! ## Renaming -/

/-- The descriptors of one file are moved to the head of the list of another. -/
def moveDescs (s : State) (dst : Nat) : List Nat → State
  | [] => s
  | d :: ds => moveDescs (s.modDesc d (fun desc => { desc with file := dst })) dst ds

/-- `direct_rename` hands on what is known of a file. -/
def inheritInfo (s : State) (src dst : Nat) : State :=
  let file := s.files src
  s.modFile dst (fun file' =>
    { file' with
      size := file.size
      compressor := file.compressor
      dontcompress := file.dontcompress
      type := file.type
      status := file.status })

/-- `direct_rename` moves the descriptors of one file to another, with the accesses they count for. -/
def moveHead (s : State) (src dst : Nat) : State :=
  let moved := (s.files src).head
  let s := moveDescs s dst moved
  let s := s.modFile src (fun file => { file with head := [], accesses := file.accesses - moved.length })
  s.modFile dst (fun file => { file with head := moved.reverse ++ file.head, accesses := file.accesses + moved.length })

/-- `direct_rename` moves the queue entries of one file to another, with the accesses they count for. -/
def moveQueue (s : State) (src dst : Nat) : State :=
  let queued := s.comp.countP (fun cp => cp.file = src)
  let s := { s with comp := s.comp.map (fun cp : CompressT => if cp.file = src then { cp with file := dst } else cp) }
  let s := s.modFile src (fun file => { file with accesses := file.accesses - queued })
  s.modFile dst (fun file => { file with accesses := file.accesses + queued })

/-- `direct_rename`: the information, the descriptors and the queue entries of one file go to another. -/
def directRename (Γ : Config) (s : State) (src dst : Nat) : State :=
  let s := moveQueue (moveHead (inheritInfo (flushFileCache s dst) src dst) src dst) src dst
  directDelete (s.assert Γ (decide ((s.files src).accesses ≤ 1))) src

end FuseCompress
