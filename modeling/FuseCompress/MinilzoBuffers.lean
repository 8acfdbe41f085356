import FuseCompress.File
import FuseCompress.Minilzo

/-!
# The buffers of `lzoread`

The reading half of `minilzo/lzo.c` again, with calls of `read`, `malloc` and `realloc` that may fail and with the memory it works in:
how much room the buffer of a block has, which of its bytes the current block has put there, and whether anything was written past its
end. The stream is any string of bytes.
-/

namespace FuseCompress

/-- A byte of a buffer, none as long as the current block has not filled it. -/
abbrev Cell := Option UInt8

/-- What the calls of one reader do. `read` number `k` fails, or delivers as many bytes at most as it says; an allocation of `n` bytes,
call number `k`, succeeds or fails; `lzo1x_decompress_safe` into a buffer of a given size says whether it succeeded and writes some
bytes, whose number it stores in its last argument. -/
structure LzoCalls where
  read : Nat → Option Nat
  alloc : Nat → Nat → Bool
  decompress : Bytes → Nat → Bool × Bytes

/-- What the documentation of the library promises: it writes no more than there is room for. -/
def LzoCalls.Bounded (Λ : LzoCalls) : Prop := ∀ p n, (Λ.decompress p n).2.length ≤ n

/-- `lzoBlock` of a reader. -/
structure ReadBlock where
  buf : Option (List Cell)
  usize : Nat
  psize : Nat
  deriving DecidableEq, Repr

/-- `lzoFile` of a reader: the stream and the position in it, the number of system calls made, and whether a call has written past the
end of a buffer. -/
structure LzoReader where
  data : Bytes
  pos : Nat
  block : ReadBlock
  blockoff : Nat
  calls : Nat
  overrun : Bool
  deriving DecidableEq, Repr

namespace LzoReader

/-- `lzodopen` for reading. -/
def lzodopen (data : Bytes) : LzoReader :=
  { data := data, pos := 0, block := { buf := none, usize := 0, psize := 0 }, blockoff := 0, calls := 0, overrun := false }

/-- `lzoclearblock`. -/
def lzoclearblock (r : LzoReader) : LzoReader := { r with block := { buf := none, usize := 0, psize := 0 } }

/-- `read(fd, n)`, none where it returns `-1`. -/
def read (Λ : LzoCalls) (r : LzoReader) (n : Nat) : LzoReader × Option Bytes :=
  match Λ.read r.calls with
  | none => ({ r with calls := r.calls + 1 }, none)
  | some most =>
    let buf := Bytes.slice r.data r.pos (min n most)
    ({ r with pos := r.pos + buf.length, calls := r.calls + 1 }, some buf)

/-- `malloc` or `realloc` of `n` bytes. No object is larger than `PTRDIFF_MAX`. -/
def alloc (Λ : LzoCalls) (r : LzoReader) (n : Nat) : LzoReader × Bool :=
  ({ r with calls := r.calls + 1 }, Λ.alloc r.calls n && decide (n < 2 ^ 63))

/-- What `read` has returned, as the `int` that the source keeps it in. -/
def asReadInt : Option Bytes → Int
  | none => -1
  | some buf => asInt buf.length

/-- The bytes of a buffer that a call has written from its start on. -/
def fill (cells : List Cell) (buf : Bytes) : List Cell := ((buf.map some) ++ cells.drop buf.length).take cells.length

/-- A call writes to the buffer of the block. -/
def store (r : LzoReader) (buf : Bytes) : LzoReader :=
  { r with
    block := { r.block with buf := r.block.buf.map (fun cells => fill cells buf) }
    overrun := r.overrun || decide ((r.block.buf.getD []).length < buf.length) }

/-- `_lzoreadblock` makes room for a block of another size. False when there is none. What the buffer holds is of no block now. -/
def makeRoom (Λ : LzoCalls) (r : LzoReader) (usize : Nat) : LzoReader × Bool :=
  if r.block.usize ≠ usize then
    match r.alloc Λ usize with
    | (r, false) => ({ r with block := { r.block with buf := none } }, false)
    | (r, true) => ({ r with block := { r.block with buf := some (List.replicate usize none) } }, true)
  else ({ r with block := { r.block with buf := r.block.buf.map (fun cells => cells.map (fun _ => none)) } }, true)

/-- `_lzoreadblock` reads a block that is stored as it is. -/
def readPlain (Λ : LzoCalls) (r : LzoReader) (head : LzoHead) : LzoReader × Bool :=
  match r.read Λ head.psize with
  | (r, buf) => (r.store (buf.getD []), asU64 (asReadInt buf) = head.psize)

/-- `_lzoreadblock` reads a block that is stored compressed, by way of an auxiliary buffer. -/
def readPacked (Λ : LzoCalls) (r : LzoReader) (head : LzoHead) : LzoReader × Bool :=
  match r.alloc Λ head.psize with
  | (r, false) => (r, false)
  | (r, true) =>
    match r.read Λ head.psize with
    | (r, p) =>
      if asU64 (asReadInt p) ≠ head.psize then (r, false)
      else
        let out := Λ.decompress (p.getD []) head.usize
        (r.store out.2, out.1 && decide (out.2.length = head.usize))

/-- `_lzoreadblock`. False is `-1`. -/
def lzoreadblock' (Λ : LzoCalls) (r : LzoReader) (head : LzoHead) : LzoReader × Bool :=
  match r.makeRoom Λ head.usize with
  | (r, false) => (r.lzoclearblock, false)
  | (r, true) =>
    match if head.usize = head.psize then r.readPlain Λ head else r.readPacked Λ head with
    | (r, false) => (r.lzoclearblock, false)
    | (r, true) => ({ r with block := { r.block with usize := head.usize, psize := head.psize } }, true)

/-- `lzoreadblock`. False is `-1`. -/
def lzoreadblock (Λ : LzoCalls) (r : LzoReader) : LzoReader × Bool :=
  match r.read Λ lzoHeadSize with
  | (r, none) => (r.lzoclearblock, false)
  | (r, some buf) =>
    if buf.length = 0 then (r.lzoclearblock, true)
    else if buf.length ≠ lzoHeadSize then (r.lzoclearblock, false)
    else r.lzoreadblock' Λ (LzoHead.ofBytes buf)

/-! ## Progress in the stream -/

section Progress

variable (Λ : LzoCalls) (r : LzoReader)

/-- The stream is the same and the position has not moved back. -/
def Onward (r r' : LzoReader) : Prop := r'.data = r.data ∧ r.pos ≤ r'.pos

theorem Onward.trans {r r' r'' : LzoReader} (h : r.Onward r') (h' : r'.Onward r'') : r.Onward r'' :=
  ⟨h'.1.trans h.1, Nat.le_trans h.2 h'.2⟩

theorem onward_read (n : Nat) : r.Onward (r.read Λ n).1 := by
  unfold read
  split
  · exact ⟨rfl, Nat.le_refl _⟩
  · exact ⟨rfl, Nat.le_add_right _ _⟩

theorem onward_alloc (n : Nat) : r.Onward (r.alloc Λ n).1 := ⟨rfl, Nat.le_refl _⟩

theorem onward_makeRoom (usize : Nat) : r.Onward (r.makeRoom Λ usize).1 := by
  have halloc := onward_alloc Λ r usize
  unfold makeRoom
  generalize r.alloc Λ usize = room at halloc
  obtain ⟨r₁, ok⟩ := room
  split
  · cases ok with
    | false => exact halloc
    | true => exact halloc
  · exact ⟨rfl, Nat.le_refl _⟩

theorem onward_readPlain (head : LzoHead) : r.Onward (r.readPlain Λ head).1 := onward_read Λ r head.psize

theorem onward_readPacked (head : LzoHead) : r.Onward (r.readPacked Λ head).1 := by
  have halloc := onward_alloc Λ r head.psize
  unfold readPacked
  generalize r.alloc Λ head.psize = room at halloc
  obtain ⟨r₁, ok⟩ := room
  cases ok with
  | false => exact halloc
  | true =>
    have hread := onward_read Λ r₁ head.psize
    dsimp only
    split
    · exact halloc.trans hread
    · exact halloc.trans hread

theorem onward_lzoreadblock' (head : LzoHead) : r.Onward (r.lzoreadblock' Λ head).1 := by
  have hroom := onward_makeRoom Λ r head.usize
  unfold lzoreadblock'
  generalize r.makeRoom Λ head.usize = room at hroom
  obtain ⟨r₁, ok⟩ := room
  cases ok with
  | false => exact hroom
  | true =>
    have hbody : r₁.Onward (if head.usize = head.psize then r₁.readPlain Λ head else r₁.readPacked Λ head).1 := by
      split
      · exact onward_readPlain Λ r₁ head
      · exact onward_readPacked Λ r₁ head
    dsimp only
    generalize (if head.usize = head.psize then r₁.readPlain Λ head else r₁.readPacked Λ head) = body at hbody
    obtain ⟨r₂, ok₂⟩ := body
    cases ok₂ with
    | false => exact hroom.trans hbody
    | true => exact hroom.trans hbody

end Progress

/-- A block that has been read had a header in front of it. -/
theorem lzoreadblock_lt {Λ : LzoCalls} {r r' : LzoReader} (h : r.lzoreadblock Λ = (r', true)) (hb : r'.block.buf ≠ none) :
    r'.data = r.data ∧ r.pos < r'.pos ∧ r.pos < r.data.length := by
  unfold lzoreadblock at h
  have hhead : ∀ r₁ buf, r.read Λ lzoHeadSize = (r₁, some buf) →
      r₁.data = r.data ∧ r₁.pos = r.pos + buf.length ∧ buf.length ≤ r.data.length - r.pos := by
    intro r₁ buf hread
    unfold read at hread
    split at hread
    · cases hread
    · cases hread
      refine ⟨rfl, rfl, ?_⟩
      rw [Bytes.length_slice]
      exact Nat.min_le_right _ _
  generalize r.read Λ lzoHeadSize = got at h hhead
  obtain ⟨r₁, buf⟩ := got
  cases buf with
  | none => cases h
  | some buf =>
    obtain ⟨hdata, hpos, hle⟩ := hhead r₁ buf rfl
    dsimp only at h
    split at h
    · cases h
      exact absurd rfl hb
    · split at h
      · cases h
      · rename_i hlen
        rw [not_not] at hlen
        have honward := onward_lzoreadblock' Λ r₁ (LzoHead.ofBytes buf)
        rw [h] at honward
        obtain ⟨hdata', hpos'⟩ := honward
        dsimp only at hdata' hpos'
        unfold lzoHeadSize at hlen
        exact ⟨hdata'.trans hdata, by omega, by omega⟩

/-- `lzoread`: byte after byte, the next block being read when the one in the buffer is used up. The results are whether it returns
something else than `-1`, and what it has copied to the buffer of the caller. -/
def lzoread (Λ : LzoCalls) (r : LzoReader) (n : Nat) : LzoReader × Bool × List Cell :=
  if n = 0 then (r, true, [])
  else if r.blockoff < r.block.usize then
    let rest := lzoread Λ { r with blockoff := r.blockoff + 1 } (n - 1)
    (rest.1, rest.2.1, (r.block.buf.getD []).getD r.blockoff none :: rest.2.2)
  else
    match _h : lzoreadblock Λ { r with blockoff := 0 } with
    | (r', false) => (r', false, [])
    | (r', true) => if r'.block.buf = none then (r', true, []) else lzoread Λ r' n
termination_by n + (r.data.length - r.pos)
decreasing_by
  · omega
  · rename_i hb
    obtain ⟨hd, hlt, hle⟩ := lzoreadblock_lt _h hb
    dsimp only at hd hlt hle
    rw [hd]
    omega

/-- What a call returns: `-1`, or the number of bytes as an `int`. -/
def result (r : LzoReader × Bool × List Cell) : Int := if r.2.1 then asInt r.2.2.length else -1

/-- Several calls, one after the other. -/
def lzoreads (Λ : LzoCalls) (r : LzoReader) : List UInt32 → LzoReader
  | [] => r
  | n :: requests => lzoreads Λ (lzoread Λ r n.toNat).1 requests

end LzoReader

end FuseCompress
