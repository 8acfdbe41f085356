import FuseCompress.Minilzo
import FuseCompress.Reading

/-!
# Reading with a decoder that may fail

`fusecompress_read` on one descriptor of a compressed file that nobody writes to, in more detail than `directDecompress`: the module
is a decoder with a state of its own, which a call that fails may leave anywhere. The calls of `read` that a module makes can fail,
and so can closing it, and `lseek`. `malloc` succeeds, and `calloc` unless it is asked for a negative number.
-/

namespace FuseCompress

/-! ## Decoders -/

/-- A module on one file: `open` behind the header, and `read`, which gives nothing for `-1`. A fault says which of the calls that
the module makes fail, and how. -/
structure Decoder where
  State : Type
  Fault : Type
  fine : Fault
  opened : State
  read : Fault → Nat → State → State × Option Bytes

/-- Byte number `k` of what a decoder delivers, byte after byte and without a fault. -/
def Decoder.byte (D : Decoder) : Nat → D.State → Option UInt8
  | 0, σ => (D.read D.fine 1 σ).2.bind List.head?
  | k + 1, σ => ((D.read D.fine 1 σ).2.bind List.head?).bind (fun _ => D.byte k (D.read D.fine 1 σ).1)

/-- What a call delivers that does not fail are the next bytes, whatever the faults. When they are as many as were asked for, the
decoder is left behind them. -/
structure Decoder.Exact (D : Decoder) : Prop where
  bytes : ∀ φ n σ σ' buf, D.read φ n σ = (σ', some buf) → buf.length ≤ n ∧ ∀ i, i < buf.length → D.byte i σ = buf[i]?
  full : ∀ φ n σ σ' buf, D.read φ n σ = (σ', some buf) → buf.length = n → ∀ i, D.byte i σ' = D.byte (n + i) σ

/-! ## `null` and `lzo` -/

/-- `read` on a file with the stream `stream`, at a position. A fault makes it return `-1`. -/
def nullRead (stream : Bytes) (fault : Bool) (n pos : Nat) : Nat × Option Bytes :=
  let buf := Bytes.slice stream pos n
  if fault then (pos, none) else (pos + buf.length, some buf)

/-- `null` on that file. -/
def Decoder.null (stream : Bytes) : Decoder where
  State := Nat
  Fault := Bool
  fine := false
  opened := 0
  read := nullRead stream

/-- The `read` of a block that fails: that of the header or that of what follows. -/
inductive LzoFault where
  | head | body
  deriving DecidableEq, Repr

/-- `lzoreadblock` when one of its calls of `read` returns `-1`. False is `-1`. At the end of the file the second is not made. -/
def lzoreadblockFault (file : LzoFile) : LzoFault → LzoFile × Bool
  | .head => (lzoclearblock file, false)
  | .body =>
    let r := file.get lzoHeadSize
    if r.2.length = 0 then (lzoclearblock r.1, true) else (lzoclearblock r.1, false)

/-- `lzoread` with a fault for each block it reads. -/
def lzoreadFaults (lib : Lzo1x) (faults : List (Option LzoFault)) (file : LzoFile) (n : Nat) : LzoFile × Option Bytes :=
  if n = 0 then (file, some [])
  else if file.blockoff < file.block.usize then
    let r := lzoreadFaults lib faults { file with blockoff := file.blockoff + 1 } (n - 1)
    (r.1, r.2.map (fun buf => (file.block.buf.getD []).getD file.blockoff 0 :: buf))
  else
    match faults.headD none with
    | some φ =>
      match lzoreadblockFault { file with blockoff := 0 } φ with
      | (file', false) => (file', none)
      | (file', true) => (file', some [])
    | none =>
      match _h : lzoreadblock lib { file with blockoff := 0 } with
      | (file', false) => (file', none)
      | (file', true) => if file'.block.buf = none then (file', some []) else lzoreadFaults lib faults.tail file' n
termination_by n + (file.data.length - file.pos)
decreasing_by
  · omega
  · rename_i hb
    obtain ⟨hd, hlt, hle⟩ := lzoreadblock_lt _h hb
    dsimp only at hd hlt hle
    rw [hd]
    omega

/-- `lzo` on a file with the stream `stream`. -/
def Decoder.lzo (lib : Lzo1x) (stream : Bytes) : Decoder where
  State := LzoFile
  Fault := List (Option LzoFault)
  fine := []
  opened := lzodopen stream 0 .read
  read := fun faults n file => lzoreadFaults lib faults file n

/-! ## One descriptor -/

variable {D : Decoder}

/-- How `do_decompress` ends when a reader falls back on it: it refuses, it fails before or after it has closed the descriptors, or
the file is raw and holds what the module decodes. -/
inductive Fallback (D : Decoder) where
  | refused
  | failed
  | closed
  | done (content : Bytes) (whole : ∀ k : Nat, content[k]? = D.byte k D.opened)

/-- A request, with the outcomes of the calls it makes: when it has to go back, the closing of the module and `lseek`, then the
opening of the module, its reads while skipping and the last one, the fallback, and `pread`. `closeFails` is what the handle points
at when the module could not be closed, memory that has been freed by then; `elsewhere` is what the module makes of a file whose
descriptor is not behind the header. -/
structure ReadCall (D : Decoder) where
  size : Nat
  offset : Nat
  closeFails : Option D.State
  seeked : Bool
  elsewhere : D.State
  opened : Bool
  skipFaults : Nat → D.Fault
  fault : D.Fault
  fallback : Fallback D
  pread : Bool

/-- The file, the descriptor, and the size of the cache. `start` is what the module makes of the file when it is opened where the
descriptor stands. `fd` is false when the file could not be opened again. `raw` is what the file holds once it has been decompressed. -/
structure ReadState (D : Decoder) where
  file : FileT
  offset : Nat
  handle : Option D.State
  start : D.State
  fd : Bool
  decompCacheSize : Int
  raw : Bytes

namespace ReadState

/-- `compressor->read`. -/
def codecRead (s : ReadState D) (φ : D.Fault) (n : Nat) : ReadState D × Option Bytes :=
  match s.handle with
  | none => (s, none)
  | some σ =>
    let r := D.read φ n σ
    ({ s with handle := some r.1 }, r.2)

/-- `flush_file_cache`. -/
def flushFileCache (s : ReadState D) : ReadState D :=
  match s.file.cache with
  | none => s
  | some pages =>
    { s with
      decompCacheSize := s.decompCacheSize - pageSize * ((pages.filter Option.isSome).length : Int)
      file := { s.file with cache := none } }

/-- The pages that the cache has of a request. -/
def serveCache (s : ReadState D) (cacheThis : Bool) (size offset : Nat) : ReadState D × Bytes × Bool :=
  if cacheThis ∧ s.file.type = .read then
    let pages := s.file.cache.getD []
    if (pages.getD (offset / pageSize) none).isNone then (s, [], false)
    else
      let r := servePages pages (size / pageSize) (offset / pageSize)
      ({ s with decompCacheSize := s.decompCacheSize - pageSize * (r.2.2 : Int), file := { s.file with cache := some r.2.1 } }, r.1, true)
  else (s, [], false)

/-- The cache has room for the page at the offset and does not have it yet. -/
def keepPage (Γ : Config) (s : ReadState D) (cacheThis : Bool) : Bool :=
  cacheThis && ((s.file.cache.getD []).getD (s.offset / pageSize) none).isNone && decide (s.decompCacheSize < Γ.maxDecompCacheSize)

/-- A page has been allocated. -/
def countPage (s : ReadState D) (keep : Bool) : ReadState D :=
  { s with decompCacheSize := s.decompCacheSize + if keep then pageSize else 0 }

/-- One turn of the skipping has delivered `buf`. -/
def skipped (s : ReadState D) (keep : Bool) (buf : Bytes) : ReadState D :=
  { s with
    file := { s.file with
      cache := if keep then s.file.cache.map (fun pages => pages.set (s.offset / pageSize) (some buf)) else s.file.cache
      skipped := if keep then s.file.skipped else s.file.skipped + buf.length }
    offset := s.offset + buf.length }

/-- The loop of `direct_decompress` that skips. The faults of its calls are numbered from the last turn it can make. -/
def skipLoop (Γ : Config) (faults : Nat → D.Fault) (cacheThis : Bool) : Nat → Nat → ReadState D → ReadState D × Option Int
  | 0, _, s => (s, none)
  | n + 1, toread, s =>
    if toread = 0 then (s, none)
    else
      let readsize := min toread pageSize
      let keep := s.keepPage Γ cacheThis
      match (s.countPage keep).codecRead (faults n) readsize with
      | (s, none) => (s, some (-1))
      | (s, some buf) =>
        if buf.length < readsize ∧ (s.file.size = -1 ∨ ((s.offset + buf.length : Nat) : Int) < s.file.size) then (s, some (-1))
        else if buf = [] then (s, some 0)
        else skipLoop Γ faults cacheThis n (toread - buf.length) (s.skipped keep buf)

/-- The end of `direct_decompress`: the read itself. -/
def decompressRead (s : ReadState D) (φ : D.Fault) (size : Nat) (served : Bytes) : ReadState D × Int × Bytes :=
  let size := cutSize s.file s.offset size
  match s.codecRead φ size with
  | (s, none) => (s, -1, [])
  | (s, some buf) =>
    if buf.length < size then (s, -1, [])
    else ({ s with offset := s.offset + buf.length }, ((buf.length + served.length : Nat) : Int), served ++ buf)

/-- The cache of the file is allocated. -/
def allocCache (s : ReadState D) (cacheThis : Bool) : ReadState D :=
  if cacheThis ∧ s.file.cache = none then
    { s with file := { s.file with cache := some (List.replicate (cachePages s.file.size).toNat none) } }
  else s

/-- The request keeps the pages of what it skips. -/
def keepsSkipped (Γ : Config) (s : ReadState D) (offset : Nat) (cacheThis : Bool) : Bool :=
  cacheThis && !decide (((offset - s.offset : Nat) : Int) > Γ.maxDecompCacheSize - s.decompCacheSize)

/-- `direct_decompress` from where the module is open. -/
def decompressSkip (Γ : Config) (s : ReadState D) (c : ReadCall D) (size offset : Nat) (cacheThis : Bool) (served : Bytes) :
    ReadState D × Int × Bytes :=
  if offset > s.offset then
    let toread := offset - s.offset
    let cacheThis := s.keepsSkipped Γ offset cacheThis
    if allocFails s.file cacheThis then (s, -1, [])
    else
      match skipLoop Γ c.skipFaults cacheThis toread toread (s.allocCache cacheThis) with
      | (s, some r) => (s, r, [])
      | (s, none) => s.decompressRead c.fault size served
  else s.decompressRead c.fault size served

/-- `direct_decompress` opens the module when it is not open. False when that fails. -/
def openStream (s : ReadState D) (c : ReadCall D) : ReadState D × Bool :=
  if s.handle.isSome then (s, true)
  else if s.fd = false ∨ c.opened = false then (s, false)
  else ({ s with handle := some s.start }, true)

/-- It starts again when it has to go back. A module that cannot be closed is left where it was, in freed memory. -/
def decompressOpen (s : ReadState D) (c : ReadCall D) (offset : Nat) : ReadState D × Bool :=
  if offset < s.offset then
    match c.closeFails with
    | some σ => ({ s with handle := some σ }, false)
    | none =>
      if c.seeked = false ∨ s.fd = false then ({ s with handle := none, offset := 0, start := c.elsewhere }, false)
      else ({ s with handle := none, offset := 0, start := D.opened } : ReadState D).openStream c
  else s.openStream c

/-- `pread` on the file once it is raw. -/
def preadRaw (s : ReadState D) (c : ReadCall D) (size offset : Nat) (served : Bytes) : ReadState D × Int × Bytes :=
  if c.pread then
    let buf := served ++ Bytes.slice s.raw offset size
    (s, buf.length, buf)
  else (s, -1, [])

/-- `direct_decompress` falls back on `do_decompress`. -/
def decompressFallback (s : ReadState D) (c : ReadCall D) (size offset : Nat) (served : Bytes) : ReadState D × Int × Bytes :=
  match c.fallback with
  | .refused => (s, -1, [])
  | .failed => (s.flushFileCache, -1, [])
  | .closed => ({ s.flushFileCache with handle := none, offset := 0, fd := false }, -1, [])
  | .done content _ =>
    let s := s.flushFileCache
    { s with
      file := { s.file with compressor := none, size := -1, skipped := 0 }
      handle := none
      offset := 0
      raw := content }.preadRaw c size offset served

/-- `direct_decompress`. -/
def directDecompress (Γ : Config) (s : ReadState D) (c : ReadCall D) : ReadState D × Int × Bytes :=
  let cacheThis := Γ.cacheDecompressedData && c.offset % pageSize = 0 && c.size % pageSize = 0
  let s := { s with file := { s.file with type := if s.file.type = Access.unset then .read else s.file.type } }
  match s.serveCache cacheThis c.size c.offset with
  | (s, served, any) =>
    let size := c.size - served.length
    let offset := c.offset + served.length
    if any ∧ size = 0 then (s, served.length, served)
    else if readFallback Γ s.file s.decompCacheSize cacheThis s.offset offset then s.decompressFallback c size offset served
    else
      match s.decompressOpen c offset with
      | (s, false) => (s, -1, [])
      | (s, true) => s.decompressSkip Γ c size offset cacheThis served

/-- `fusecompress_read`: the state after a request, what it returns, and the bytes it has put into the buffer. -/
def read (Γ : Config) (s : ReadState D) (c : ReadCall D) : ReadState D × Int × Bytes :=
  match if s.file.compressor = none then s.preadRaw c c.size c.offset [] else s.directDecompress Γ c with
  | (s, res, buf) => if res = -1 then ({ s with file := { s.file with size := -1 } }, -1, []) else (s, res, buf)

end ReadState

end FuseCompress
