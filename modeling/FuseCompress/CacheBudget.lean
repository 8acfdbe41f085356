import FuseCompress.FailingReads

/-!
# The budget of the cache

The functions that put pages into the caches of the files and take them out, as steps of one process: `direct_decompress`,
`flush_file_cache`, `direct_open_delete`, `direct_rename` and `do_decompress`, on the entries of the database. `direct_decompress` is
the one of `FailingReads`: any decoder, and any of its calls may fail.
-/

namespace FuseCompress

namespace ReadState

variable {D : Decoder}

/-- Every page that the skipping allocates gets some of the file, as much as was asked for or as the header still promises, and its
number is one of the array: it is stored, and does not stay counted without being in the cache. -/
def skipStores (Γ : Config) (faults : Nat → D.Fault) (cacheThis : Bool) : Nat → Nat → ReadState D → Bool
  | 0, _, _ => true
  | n + 1, toread, s =>
    if toread = 0 then true
    else
      let keep := s.keepPage Γ cacheThis
      let fits := decide (s.offset / pageSize < (s.file.cache.getD []).length)
      match (s.countPage keep).codecRead (faults n) (min toread pageSize) with
      | (_, none) => !keep
      | (s, some buf) =>
        if buf.length < min toread pageSize ∧ (s.file.size = -1 ∨ ((s.offset + buf.length : Nat) : Int) < s.file.size) then !keep
        else if buf = [] then !keep
        else (!keep || fits) && skipStores Γ faults cacheThis n (toread - buf.length) (s.skipped keep buf)

/-- The same of `decompressSkip`. -/
def decompressSkipStores (Γ : Config) (s : ReadState D) (c : ReadCall D) (offset : Nat) (cacheThis : Bool) : Bool :=
  if offset > s.offset then
    let toread := offset - s.offset
    let cacheThis := s.keepsSkipped Γ offset cacheThis
    allocFails s.file cacheThis || skipStores Γ c.skipFaults cacheThis toread toread (s.allocCache cacheThis)
  else true

/-- The same of a request. -/
def requestStores (Γ : Config) (s : ReadState D) (c : ReadCall D) : Bool :=
  let cacheThis := Γ.cacheDecompressedData && c.offset % pageSize = 0 && c.size % pageSize = 0
  let s := { s with file := { s.file with type := if s.file.type = Access.unset then .read else s.file.type } }
  match s.serveCache cacheThis c.size c.offset with
  | (s, served, any) =>
    let offset := c.offset + served.length
    if any ∧ c.size - served.length = 0 then true
    else if readFallback Γ s.file s.decompCacheSize cacheThis s.offset offset then true
    else
      match s.decompressOpen c offset with
      | (_, false) => true
      | (s, true) => s.decompressSkipStores Γ c offset cacheThis

end ReadState

/-- A file of the database as one of its descriptors reads it. -/
def State.readState (s : State) (D : Decoder) (f offset : Nat) (handle : Option D.State) (start : D.State) (fd : Bool) (raw : Bytes) :
    ReadState D where
  file := s.files f
  offset := offset
  handle := handle
  start := start
  fd := fd
  decompCacheSize := s.decompCacheSize
  raw := raw

/-- The entry of the file and the counter, as a read has left them. -/
def State.afterRead (s : State) {D : Decoder} (f : Nat) (r : ReadState D) : State :=
  { s with files := Function.update s.files f r.file, decompCacheSize := r.decompCacheSize }

/-- A step: a request on a descriptor wherever it stands, with the results of its calls, or one of the others. -/
inductive CacheStep where
  | directDecompress (f : Nat) (D : Decoder) (offset : Nat) (handle : Option D.State) (start : D.State) (fd : Bool) (raw : Bytes)
      (c : ReadCall D)
  | flushFileCache (f : Nat)
  | directOpenDelete (f : Nat)
  | directRename (src dst : Nat)
  | doDecompress (env : Env) (f : Nat)

/-- The files that a step works on. -/
def CacheStep.targets : CacheStep → List Nat
  | .directDecompress f _ _ _ _ _ _ _ => [f]
  | .flushFileCache f => [f]
  | .directOpenDelete f => [f]
  | .directRename src dst => [src, dst]
  | .doDecompress _ f => [f]

/-- The state after a step. `direct_open_delete` comes after the entry has been taken out of the database. -/
def CacheStep.apply (Γ : Config) (s : State) : CacheStep → State
  | .directDecompress f D offset handle start fd raw c =>
    s.afterRead f ((s.readState D f offset handle start fd raw).directDecompress Γ c).1
  | .flushFileCache f => FuseCompress.flushFileCache s f
  | .directOpenDelete f => FuseCompress.directOpenDelete (detach s f) f
  | .directRename src dst => FuseCompress.directRename Γ s src dst
  | .doDecompress env f => (FuseCompress.doDecompress Γ env s f).1

/-- The steps of the process: on files of the database. -/
def cacheStep (Γ : Config) (s : State) (a : CacheStep) : Option State :=
  if ∀ f ∈ a.targets, f ∈ s.database then some (a.apply Γ s) else none

/-- A step loses none of the pages that it allocates. -/
def CacheStep.stores (Γ : Config) (s : State) : CacheStep → Bool
  | .directDecompress f D offset handle start fd raw c => (s.readState D f offset handle start fd raw).requestStores Γ c
  | _ => true

end FuseCompress
