import FuseCompress.Lib.Bytes

/-!
# The block stream of `minilzo/lzo.c`

`lzowrite` collects bytes in a buffer of 512 KiB and writes the buffer as one block whenever it is full and more bytes come, and
once more on close; `lzoread` reads block after block. A block is the two 64-bit sizes of `lzoHead`, uncompressed and stored,
followed by the stored bytes, which are the block itself when compression does not make it smaller.

The two functions of the LZO library are `Lzo1x`. `lzo1x_1_compress` may look at its work memory, which is filled with zeros only
when deduplication is on: `wrkmem` says what each call finds there otherwise. Every `read`, `write`, `malloc` and `lzo1x_1_compress`
succeeds.
-/

namespace FuseCompress

/-- The LZO library: `lzo1x_1_compress`, with what its work memory holds, and `lzo1x_decompress_safe` into a buffer of a given
size. -/
structure Lzo1x where
  Wrkmem : Type
  zeroed : Wrkmem
  compress : Wrkmem → Bytes → Bytes
  decompress : Bytes → Nat → Option Bytes

/-- The size of the buffer `lzowriteblock` allocates for the compressed form of a block of `n` bytes. -/
def outSize (n : Nat) : Nat := n + n / 16 + 64 + 3

/-- What the documentation of the library promises: the compressed form of a block fits its buffer, and decompressing it into a
buffer of the size of the block gives the block back. -/
structure Lzo1x.Correct (lib : Lzo1x) : Prop where
  bound : ∀ w b, (lib.compress w b).length ≤ outSize b.length
  inverse : ∀ w b, lib.decompress (lib.compress w b) b.length = some b

/-- `WRITE_BUFFER_SIZE`. -/
def writeBufferSize : Nat := 512 * 1024

/-- `lzoMode`. -/
inductive LzoMode where
  | read | write
  deriving DecidableEq, Repr

/-- `lzoHead`, a pair of sizes. -/
structure LzoHead where
  usize : Nat
  psize : Nat
  deriving DecidableEq, Repr

/-- `lzoBlock`. When writing, `usize` is the size of the buffer and `psize` the number of bytes in it. -/
structure LzoBlock where
  buf : Option Bytes
  usize : Nat
  psize : Nat
  deriving DecidableEq, Repr

/-- `lzoFile`. The open file is its contents and the position; `calls` counts the calls of the compressor. -/
structure LzoFile where
  data : Bytes
  pos : Nat
  mode : LzoMode
  block : LzoBlock
  blockoff : Nat
  calls : Nat
  deriving DecidableEq, Repr

/-- What one mount brings along: the library, whether deduplication is on, and what each call of the compressor finds in its work
memory. -/
structure LzoEnv where
  lib : Lzo1x
  dedupEnabled : Bool
  wrkmem : Nat → lib.Wrkmem

/-- `sizeof(lzoHead)`. -/
def lzoHeadSize : Nat := 16

/-- The bytes of a `lzoHead` on disk. -/
def LzoHead.bytes (head : LzoHead) : Bytes := Bytes.toLe 8 head.usize ++ Bytes.toLe 8 head.psize

/-- `lzodopen` on an open file. -/
def lzodopen (data : Bytes) (pos : Nat) (mode : LzoMode) : LzoFile :=
  { data := data
    pos := pos
    mode := mode
    block :=
      match mode with
      | .read => { buf := none, usize := 0, psize := 0 }
      | .write => { buf := some (Bytes.zeros writeBufferSize), usize := writeBufferSize, psize := 0 }
    blockoff := 0
    calls := 0 }

namespace LzoFile

/-- `write(fd, buf)`. -/
def put (file : LzoFile) (buf : Bytes) : LzoFile :=
  { file with data := Bytes.overwrite file.data file.pos buf, pos := file.pos + buf.length }

/-- `read(fd, n)`: the bytes and the file with its position moved on. -/
def get (file : LzoFile) (n : Nat) : LzoFile × Bytes :=
  let buf := Bytes.slice file.data file.pos n
  ({ file with pos := file.pos + buf.length }, buf)

end LzoFile

/-! ## Writing -/

/-- `_lzowriteblock`. -/
def lzowriteblock' (file : LzoFile) (block : LzoBlock) : LzoFile :=
  (file.put (LzoHead.bytes { usize := block.usize, psize := block.psize })).put ((block.buf.getD []).take block.psize)

/-- The block `lzowriteblock` writes: as it is when compressing does not make it smaller. Nothing when the compressed form is
longer than the buffer for it. -/
def blockOut (lib : Lzo1x) (w : lib.Wrkmem) (inp : Bytes) : Option LzoBlock :=
  let out := lib.compress w inp
  if out.length > outSize inp.length then none
  else if inp.length ≤ out.length then some { buf := some inp, usize := inp.length, psize := inp.length }
  else some { buf := some out, usize := inp.length, psize := out.length }

/-- `lzowriteblock`. -/
def lzowriteblock (Λ : LzoEnv) (file : LzoFile) : Option LzoFile :=
  let w := if Λ.dedupEnabled then Λ.lib.zeroed else Λ.wrkmem file.calls
  let file := { file with calls := file.calls + 1 }
  (blockOut Λ.lib w ((file.block.buf.getD []).take file.block.psize)).map (lzowriteblock' file)

/-- `lzowrite` puts one byte into the buffer. -/
def lzostore (file : LzoFile) (x : UInt8) : LzoFile :=
  { file with
    block := { file.block with buf := file.block.buf.map (fun buf => buf.set file.blockoff x), psize := file.block.psize + 1 }
    blockoff := file.blockoff + 1 }

/-- `lzowrite` empties its buffer when it is full. -/
def lzoflush (Λ : LzoEnv) (file : LzoFile) : Option LzoFile :=
  if file.blockoff < file.block.usize then some file
  else (lzowriteblock Λ file).map (fun file => { file with blockoff := 0, block := { file.block with psize := 0 } })

/-- `lzowrite`: byte after byte, the buffer being written out before a byte that no longer fits. -/
def lzowrite (Λ : LzoEnv) (file : LzoFile) : Bytes → Option LzoFile
  | [] => some file
  | x :: buf => (lzoflush Λ file).bind (fun file => lzowrite Λ (lzostore file x) buf)

/-- `lzoclose`. The result is the contents of the file. -/
def lzoclose (Λ : LzoEnv) (file : LzoFile) : Option Bytes :=
  match file.mode with
  | .read => some file.data
  | .write => (lzowriteblock Λ file).map LzoFile.data

/-- Several calls of `lzowrite`. -/
def lzowrites (Λ : LzoEnv) (file : LzoFile) : List Bytes → Option LzoFile
  | [] => some file
  | buf :: chunks => (lzowrite Λ file buf).bind (fun file => lzowrites Λ file chunks)

/-- Open a file for writing behind what it holds, write some chunks and close it. -/
def lzoWritten (Λ : LzoEnv) (data : Bytes) (chunks : List Bytes) : Option Bytes :=
  (lzowrites Λ (lzodopen data data.length .write) chunks).bind (lzoclose Λ)

/-! ## Reading -/

/-- `lzoclearblock`. -/
def lzoclearblock (file : LzoFile) : LzoFile := { file with block := { buf := none, usize := 0, psize := 0 } }

/-- `_lzoreadblock` makes room for a block. Nothing when that fails: `realloc` to no size at all gives NULL. -/
def lzorealloc (head : LzoHead) (block : LzoBlock) : Option (Option Bytes) :=
  if block.usize = head.usize then some block.buf
  else if head.usize = 0 then none
  else some (some (Bytes.zeros head.usize))

/-- `_lzoreadblock` decodes the bytes stored for a block. -/
def lzounpack (lib : Lzo1x) (head : LzoHead) (p : Bytes) : Option Bytes :=
  if p.length ≠ head.psize then none
  else if head.usize = head.psize then some p
  else (lib.decompress p head.usize).filter (fun b => b.length = head.usize)

/-- `_lzoreadblock`. False is `-1`. A block of no bytes leaves the buffer as it is. -/
def lzoreadblock' (lib : Lzo1x) (file : LzoFile) (head : LzoHead) : LzoFile × Bool :=
  match lzorealloc head file.block with
  | none => (lzoclearblock file, false)
  | some buf =>
    let r := file.get head.psize
    match lzounpack lib head r.2 with
    | none => (lzoclearblock r.1, false)
    | some b => ({ r.1 with block := { buf := buf.map (fun _ => b), usize := head.usize, psize := head.psize } }, true)

/-- The sizes a header on disk gives. -/
def LzoHead.ofBytes (b : Bytes) : LzoHead :=
  { usize := Bytes.fromLe (b.take 8), psize := Bytes.fromLe (b.drop 8) }

/-- `lzoreadblock`. False is `-1`. At the end of the file the block becomes empty. -/
def lzoreadblock (lib : Lzo1x) (file : LzoFile) : LzoFile × Bool :=
  let r := file.get lzoHeadSize
  if r.2.length = 0 then (lzoclearblock r.1, true)
  else if r.2.length ≠ lzoHeadSize then (lzoclearblock r.1, false)
  else lzoreadblock' lib r.1 (LzoHead.ofBytes r.2)

/-- Reading a block never moves the position back, and leaves the contents of the file alone. -/
theorem lzoreadblock'_pos (lib : Lzo1x) (file : LzoFile) (head : LzoHead) :
    (lzoreadblock' lib file head).1.data = file.data ∧ file.pos ≤ (lzoreadblock' lib file head).1.pos := by
  unfold lzoreadblock'
  cases lzorealloc head file.block with
  | none => exact ⟨rfl, le_refl _⟩
  | some buf =>
    dsimp only
    split
    · exact ⟨rfl, Nat.le_add_right _ _⟩
    · exact ⟨rfl, Nat.le_add_right _ _⟩

/-- A block that has been read into a buffer had a header in front of it. -/
theorem lzoreadblock_lt {lib : Lzo1x} {file file' : LzoFile} (h : lzoreadblock lib file = (file', true))
    (hb : file'.block.buf ≠ none) : file'.data = file.data ∧ file.pos < file'.pos ∧ file.pos < file.data.length := by
  unfold lzoreadblock at h
  have hlen : (file.get lzoHeadSize).2.length = min lzoHeadSize (file.data.length - file.pos) := Bytes.length_slice _ _ _
  have hpos : (file.get lzoHeadSize).1.pos = file.pos + (file.get lzoHeadSize).2.length := rfl
  by_cases h0 : (file.get lzoHeadSize).2.length = 0
  · simp only [h0, if_true] at h
    cases h
    exact absurd rfl hb
  · by_cases h16 : (file.get lzoHeadSize).2.length ≠ lzoHeadSize
    · simp only [if_neg h0, if_pos h16] at h
      cases h
    · simp only [if_neg h0, if_neg h16] at h
      have hp := lzoreadblock'_pos lib (file.get lzoHeadSize).1 (LzoHead.ofBytes (file.get lzoHeadSize).2)
      rw [h] at hp
      have hdata : file'.data = file.data := hp.1
      have hle : (file.get lzoHeadSize).1.pos ≤ file'.pos := hp.2
      have hsize : lzoHeadSize = 16 := rfl
      exact ⟨hdata, by omega, by omega⟩

/-- `lzoread`: byte after byte, the next block being read when the one in the buffer is used up. The result is the bytes, nothing
when a block cannot be read. -/
def lzoread (lib : Lzo1x) (file : LzoFile) (n : Nat) : LzoFile × Option Bytes :=
  if n = 0 then (file, some [])
  else if file.blockoff < file.block.usize then
    let r := lzoread lib { file with blockoff := file.blockoff + 1 } (n - 1)
    (r.1, r.2.map (fun buf => (file.block.buf.getD []).getD file.blockoff 0 :: buf))
  else
    match _h : lzoreadblock lib { file with blockoff := 0 } with
    | (file', false) => (file', none)
    | (file', true) => if file'.block.buf = none then (file', some []) else lzoread lib file' n
termination_by n + (file.data.length - file.pos)
decreasing_by
  · omega
  · rename_i hb
    obtain ⟨hd, hlt, hle⟩ := lzoreadblock_lt _h hb
    dsimp only at hd hlt hle
    rw [hd]
    omega

/-- An unsigned 32-bit number returned as an `int`. -/
def asInt (n : Nat) : Int := Int.bmod n (2 ^ 32)

/-- Several calls of `lzoread`: what each returns and the bytes it delivers. -/
def lzoreads (lib : Lzo1x) (file : LzoFile) : List UInt32 → List (Int × Bytes)
  | [] => []
  | n :: requests =>
    match lzoread lib file n.toNat with
    | (file, none) => (-1, []) :: lzoreads lib file requests
    | (file, some buf) => (asInt buf.length, buf) :: lzoreads lib file requests

/-- Walk over the blocks of a stream: their headers, at most as many as the first argument says. -/
def lzoHeads : Nat → Bytes → List LzoHead
  | 0, _ => []
  | n + 1, b =>
    if b = [] then []
    else
      let head := LzoHead.ofBytes (b.take lzoHeadSize)
      head :: lzoHeads n (b.drop (lzoHeadSize + head.psize))

/-- The sizes of the blocks of a stream of `n` bytes: full blocks and a last one that is shorter or full. -/
def blockSizes (n : Nat) : List Nat :=
  List.replicate ((n - 1) / writeBufferSize) writeBufferSize ++ [n - (n - 1) / writeBufferSize * writeBufferSize]

end FuseCompress
