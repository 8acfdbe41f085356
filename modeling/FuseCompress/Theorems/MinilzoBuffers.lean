import FuseCompress.MinilzoBuffers
import FuseCompress.Theorems.Header

/-!
# Reading an arbitrary stream

Whatever the stream and whichever calls fail, the buffer of a block is either absent and of no size, or holds at least as many bytes as
its size says, all of them put there by the block it belongs to. So no byte that `lzoread` delivers is left over from anything else.
-/

namespace FuseCompress

namespace LzoReader

variable {Λ : LzoCalls} {r r' : LzoReader}

/-- The buffer is absent and of no size, or filled by the current block as far as its size says; and nothing has been written past the
end of a buffer. -/
structure Filled (r : LzoReader) : Prop where
  block : r.block.buf = none ∧ r.block.usize = 0 ∨
    ∃ cells, r.block.buf = some cells ∧ r.block.usize ≤ cells.length ∧ ∀ c ∈ cells.take r.block.usize, c.isSome = true
  small : r.block.usize < 2 ^ 63
  inside : r.overrun = false

/-- There is room for `n` bytes. -/
structure Room (r : LzoReader) (n : Nat) : Prop where
  block : r.block.buf = none ∧ n = 0 ∨ ∃ cells, r.block.buf = some cells ∧ n ≤ cells.length
  small : n < 2 ^ 63
  inside : r.overrun = false

theorem filled_lzodopen (data : Bytes) : (lzodopen data).Filled := ⟨Or.inl ⟨rfl, rfl⟩, Nat.two_pow_pos 63, rfl⟩

theorem filled_lzoclearblock (h : r.overrun = false) : r.lzoclearblock.Filled := ⟨Or.inl ⟨rfl, rfl⟩, Nat.two_pow_pos 63, h⟩

/-! ## What one call does to the memory -/

theorem read_memory (Λ : LzoCalls) (r : LzoReader) (n : Nat) :
    (r.read Λ n).1.block = r.block ∧ (r.read Λ n).1.overrun = r.overrun ∧ ∀ buf, (r.read Λ n).2 = some buf → buf.length ≤ n := by
  unfold read
  split
  · refine ⟨rfl, rfl, fun buf h => ?_⟩
    cases h
  · refine ⟨rfl, rfl, fun buf h => ?_⟩
    cases h
    rw [Bytes.length_slice]
    omega

theorem Room.read {n : Nat} (h : r.Room n) (k : Nat) : (r.read Λ k).1.Room n := by
  obtain ⟨hblock, hinside, -⟩ := read_memory Λ r k
  refine ⟨?_, h.small, hinside.trans h.inside⟩
  rw [hblock]
  exact h.block

/-- `makeRoom` makes room. -/
theorem makeRoom_room (Λ : LzoCalls) (h : r.Filled) (usize : Nat) :
    (r.makeRoom Λ usize).1.overrun = false ∧ ((r.makeRoom Λ usize).2 = true → (r.makeRoom Λ usize).1.Room usize) := by
  unfold makeRoom
  split
  · have halloc : (r.alloc Λ usize).1.overrun = false ∧ ((r.alloc Λ usize).2 = true → usize < 2 ^ 63) := by
      unfold alloc
      refine ⟨h.inside, fun hok => ?_⟩
      rw [Bool.and_eq_true, decide_eq_true_eq] at hok
      exact hok.2
    generalize r.alloc Λ usize = room at halloc
    obtain ⟨r₁, ok⟩ := room
    obtain ⟨hinside, hsmall⟩ := halloc
    cases ok with
    | false => exact ⟨hinside, fun hok => by cases hok⟩
    | true => exact ⟨hinside, fun _ => ⟨Or.inr ⟨_, rfl, by rw [List.length_replicate]⟩, hsmall rfl, hinside⟩⟩
  · rename_i hsame
    rw [not_not] at hsame
    subst hsame
    refine ⟨h.inside, fun _ => ⟨?_, h.small, h.inside⟩⟩
    rcases h.block with ⟨hnone, hzero⟩ | ⟨cells, hcells, hle, -⟩
    · exact Or.inl ⟨by rw [hnone]; rfl, hzero⟩
    · refine Or.inr ⟨cells.map (fun _ => none), by rw [hcells]; rfl, ?_⟩
      rw [List.length_map]
      exact hle

theorem length_fill (cells : List Cell) (buf : Bytes) : (fill cells buf).length = cells.length := by
  unfold fill
  rw [List.length_take, List.length_append, List.length_map, List.length_drop]
  omega

theorem take_fill {cells : List Cell} {buf : Bytes} (h : buf.length ≤ cells.length) : (fill cells buf).take buf.length = buf.map some := by
  unfold fill
  rw [List.take_take, Nat.min_eq_left h]
  exact List.take_left' (List.length_map _)

/-- Writing no more than there is room for stays inside. -/
theorem Room.store {n : Nat} {buf : Bytes} (h : r.Room n) (hle : buf.length ≤ n) : (r.store buf).Room n := by
  unfold LzoReader.store
  refine ⟨?_, h.small, ?_⟩
  · rcases h.block with ⟨hnone, hzero⟩ | ⟨cells, hcells, hroom⟩
    · exact Or.inl ⟨by rw [hnone]; rfl, hzero⟩
    · exact Or.inr ⟨fill cells buf, by rw [hcells]; rfl, by rw [length_fill]; exact hroom⟩
  · dsimp only
    rw [h.inside, Bool.false_or, decide_eq_false_iff_not, Nat.not_lt]
    rcases h.block with ⟨hnone, hzero⟩ | ⟨cells, hcells, hroom⟩
    · rw [hnone, Option.getD_none, List.length_nil, ← hzero]
      exact hle
    · rw [hcells]
      exact Nat.le_trans hle hroom

/-- The block that has been written in full fills its buffer. -/
theorem Room.filled {n psize : Nat} {buf : Bytes} (h : r.Room n) (hlen : buf.length = n) :
    ({ r.store buf with block := { (r.store buf).block with usize := n, psize := psize } } : LzoReader).Filled := by
  have hstore := h.store (Nat.le_of_eq hlen)
  refine ⟨?_, h.small, hstore.inside⟩
  rcases h.block with ⟨hnone, hzero⟩ | ⟨cells, hcells, hroom⟩
  · refine Or.inl ⟨?_, hzero⟩
    unfold LzoReader.store
    dsimp only
    rw [hnone]
    rfl
  · refine Or.inr ⟨fill cells buf, ?_, ?_, fun c hc => ?_⟩
    · unfold LzoReader.store
      dsimp only
      rw [hcells]
      rfl
    · rw [length_fill]
      exact hroom
    · dsimp only at hc
      rw [← hlen, take_fill (by rw [hlen]; exact hroom)] at hc
      obtain ⟨x, -, rfl⟩ := List.mem_map.mp hc
      rfl

/-! ## Reading a block -/

/-- The comparison of an `int` with a 64-bit size is right for sizes that can be allocated. -/
theorem eq_of_asInt {k psize : Nat} (hle : k ≤ psize) (hsmall : psize < 2 ^ 63) (h : asU64 (asInt k) = psize) : k = psize := by
  unfold asU64 asInt at h
  rw [Int.bmod_def] at h
  push_cast at h
  split at h <;> omega

theorem length_of_asReadInt {res : Option Bytes} {psize : Nat} (hle : ∀ buf, res = some buf → buf.length ≤ psize) (hsmall : psize < 2 ^ 63)
    (h : asU64 (asReadInt res) = psize) : ∃ buf, res = some buf ∧ buf.length = psize := by
  cases res with
  | none =>
    unfold asReadInt asU64 at h
    dsimp only at h
    omega
  | some buf => exact ⟨buf, rfl, eq_of_asInt (hle buf rfl) hsmall h⟩

/-- `_lzoreadblock` on a stored block. -/
theorem readPlain_filled {head : LzoHead} (h : r.Room head.usize) (hsame : head.usize = head.psize) (ok : Bool)
    (hr : r.readPlain Λ head = (r', ok)) :
    r'.overrun = false ∧ (ok = true →
      ({ r' with block := { r'.block with usize := head.usize, psize := head.psize } } : LzoReader).Filled) := by
  obtain ⟨-, -, hle⟩ := read_memory Λ r head.psize
  have hroom := h.read (Λ := Λ) head.psize
  unfold readPlain at hr
  generalize r.read Λ head.psize = got at hr hle hroom
  obtain ⟨r₁, buf⟩ := got
  dsimp only at hr hle hroom
  have hshort : (buf.getD []).length ≤ head.usize := by
    cases buf with
    | none => exact Nat.zero_le _
    | some buf =>
      rw [hsame]
      exact hle buf rfl
  cases hr
  refine ⟨(hroom.store hshort).inside, fun hok => ?_⟩
  obtain ⟨buf', rfl, hlen⟩ := length_of_asReadInt hle (hsame ▸ h.small) (of_decide_eq_true hok)
  exact hroom.filled (hlen.trans hsame.symm)

/-- `_lzoreadblock` on a compressed block. -/
theorem readPacked_filled {head : LzoHead} (hΛ : Λ.Bounded) (h : r.Room head.usize) (ok : Bool) (hr : r.readPacked Λ head = (r', ok)) :
    r'.overrun = false ∧ (ok = true →
      ({ r' with block := { r'.block with usize := head.usize, psize := head.psize } } : LzoReader).Filled) := by
  have halloc : (r.alloc Λ head.psize).1.Room head.usize := ⟨h.block, h.small, h.inside⟩
  unfold readPacked at hr
  generalize r.alloc Λ head.psize = room at hr halloc
  obtain ⟨r₁, ok₁⟩ := room
  cases ok₁ with
  | false =>
    cases hr
    exact ⟨halloc.inside, fun hok => by cases hok⟩
  | true =>
    have hread := halloc.read (Λ := Λ) head.psize
    dsimp only at hr hread
    generalize r₁.read Λ head.psize = got at hr hread
    obtain ⟨r₂, p⟩ := got
    dsimp only at hr hread
    split at hr
    · cases hr
      exact ⟨hread.inside, fun hok => by cases hok⟩
    · cases hr
      refine ⟨(hread.store (hΛ _ _)).inside, fun hok => ?_⟩
      rw [Bool.and_eq_true, decide_eq_true_eq] at hok
      exact hread.filled hok.2

theorem lzoreadblock'_filled (hΛ : Λ.Bounded) (h : r.Filled) (head : LzoHead) : (r.lzoreadblock' Λ head).1.Filled := by
  obtain ⟨hinside, hroom⟩ := makeRoom_room Λ h head.usize
  unfold lzoreadblock'
  generalize r.makeRoom Λ head.usize = room at hinside hroom
  obtain ⟨r₁, ok₁⟩ := room
  cases ok₁ with
  | false => exact filled_lzoclearblock hinside
  | true =>
    have hbody : ∀ r₂ ok₂, (if head.usize = head.psize then r₁.readPlain Λ head else r₁.readPacked Λ head) = (r₂, ok₂) →
        r₂.overrun = false ∧ (ok₂ = true →
          ({ r₂ with block := { r₂.block with usize := head.usize, psize := head.psize } } : LzoReader).Filled) := by
      intro r₂ ok₂ hr
      split at hr
      · rename_i hsame
        exact readPlain_filled (hroom rfl) hsame ok₂ hr
      · exact readPacked_filled hΛ (hroom rfl) ok₂ hr
    dsimp only
    generalize (if head.usize = head.psize then r₁.readPlain Λ head else r₁.readPacked Λ head) = body at hbody
    obtain ⟨r₂, ok₂⟩ := body
    obtain ⟨hinside₂, hfilled⟩ := hbody r₂ ok₂ rfl
    cases ok₂ with
    | false => exact filled_lzoclearblock hinside₂
    | true => exact hfilled rfl

/-- Reading a block keeps the buffer in order, whether it succeeds or not. -/
theorem lzoreadblock_filled (hΛ : Λ.Bounded) (h : r.Filled) : (r.lzoreadblock Λ).1.Filled := by
  obtain ⟨hblock, hinside, -⟩ := read_memory Λ r lzoHeadSize
  unfold lzoreadblock
  generalize r.read Λ lzoHeadSize = got at hblock hinside
  obtain ⟨r₁, buf⟩ := got
  have hclear : r₁.lzoclearblock.Filled := filled_lzoclearblock (hinside.trans h.inside)
  cases buf with
  | none => exact hclear
  | some buf =>
    dsimp only
    split
    · exact hclear
    · split
      · exact hclear
      · refine lzoreadblock'_filled hΛ ⟨?_, ?_, hinside.trans h.inside⟩ _
        · rw [hblock]
          exact h.block
        · rw [hblock]
          exact h.small

/-! ## `lzoread` -/

/-- A byte of the block that is still to be delivered. -/
theorem Filled.getD_isSome (h : r.Filled) (hlt : r.blockoff < r.block.usize) :
    ((r.block.buf.getD []).getD r.blockoff none).isSome = true := by
  rcases h.block with ⟨-, hzero⟩ | ⟨cells, hcells, hle, hsome⟩
  · omega
  · rw [hcells, Option.getD_some, List.getD_eq_getElem?_getD]
    have hlen : r.blockoff < cells.length := Nat.lt_of_lt_of_le hlt hle
    rw [List.getElem?_eq_getElem hlen, Option.getD_some]
    refine hsome _ ?_
    rw [List.mem_take_iff_getElem]
    exact ⟨r.blockoff, Nat.lt_min.mpr ⟨hlt, hlen⟩, rfl⟩

/-- One call keeps the buffer in order, and delivers no more bytes than asked for, each from a block that fills its buffer. -/
theorem lzoread_filled (hΛ : Λ.Bounded) (h : r.Filled) (n : Nat) :
    (lzoread Λ r n).1.Filled ∧ (lzoread Λ r n).2.2.length ≤ n ∧ ∀ c ∈ (lzoread Λ r n).2.2, c.isSome = true := by
  fun_induction lzoread Λ r n with
  | case1 => exact ⟨h, Nat.zero_le _, fun c hc => by cases hc⟩
  | case2 r n hn hlt rest ih =>
    obtain ⟨hfilled, hle, hsome⟩ := ih ⟨h.block, h.small, h.inside⟩
    have hrest : rest.2.2.length ≤ n - 1 := hle
    refine ⟨hfilled, ?_, fun c hc => ?_⟩
    · rw [List.length_cons]
      omega
    · rcases List.mem_cons.mp hc with rfl | hc
      · exact h.getD_isSome hlt
      · exact hsome c hc
  | case3 r n hn hlt r' hblock =>
    have hfilled := lzoreadblock_filled (r := { r with blockoff := 0 }) hΛ ⟨h.block, h.small, h.inside⟩
    rw [hblock] at hfilled
    exact ⟨hfilled, Nat.zero_le _, fun c hc => by cases hc⟩
  | case4 r n hn hlt r' hblock hnone =>
    have hfilled := lzoreadblock_filled (r := { r with blockoff := 0 }) hΛ ⟨h.block, h.small, h.inside⟩
    rw [hblock] at hfilled
    exact ⟨hfilled, Nat.zero_le _, fun c hc => by cases hc⟩
  | case5 r n hn hlt r' hblock hsome ih =>
    have hfilled := lzoreadblock_filled (r := { r with blockoff := 0 }) hΛ ⟨h.block, h.small, h.inside⟩
    rw [hblock] at hfilled
    exact ih hfilled

/-- So do several calls. -/
theorem lzoreads_filled (hΛ : Λ.Bounded) (h : r.Filled) (requests : List UInt32) : (lzoreads Λ r requests).Filled := by
  induction requests generalizing r with
  | nil => exact h
  | cons n requests ih => exact ih (lzoread_filled hΛ h n.toNat).1

/-- What one call promises: the buffer is in order afterwards, what it returns is `-1` or no more than was asked for, and every byte
that it has delivered is one of a fully read, or fully decompressed, block. -/
structure Delivers (n : Nat) (res : LzoReader × Bool × List Cell) : Prop where
  filled : res.1.Filled
  result : LzoReader.result res = -1 ∨ 0 ≤ LzoReader.result res ∧ LzoReader.result res ≤ n
  count : LzoReader.result res ≠ -1 → LzoReader.result res = res.2.2.length
  delivered : ∀ c ∈ res.2.2, c.isSome = true

/-- On any stream, after any calls, and whatever fails, a call that asks for fewer than `2 ^ 31` bytes keeps its promises. That it
terminates is part of its definition. -/
theorem lzoread_safe (hΛ : Λ.Bounded) (data : Bytes) (requests : List UInt32) (n : UInt32) (hn : n.toNat < 2 ^ 31) :
    Delivers n.toNat (lzoread Λ (lzoreads Λ (lzodopen data) requests) n.toNat) := by
  obtain ⟨hfilled, hle, hsome⟩ := lzoread_filled hΛ (lzoreads_filled hΛ (filled_lzodopen data) requests) n.toNat
  have hint : ∀ k, k ≤ n.toNat → asInt k = k := by
    intro k hk
    unfold asInt
    exact Int.bmod_eq_of_le (by omega) (by omega)
  have hresult : LzoReader.result (lzoread Λ (lzoreads Λ (lzodopen data) requests) n.toNat) = -1 ∨
      LzoReader.result (lzoread Λ (lzoreads Λ (lzodopen data) requests) n.toNat) =
        (lzoread Λ (lzoreads Λ (lzodopen data) requests) n.toNat).2.2.length := by
    unfold LzoReader.result
    split
    · exact Or.inr (hint _ hle)
    · exact Or.inl rfl
  refine ⟨hfilled, ?_, fun hne => hresult.resolve_left hne, hsome⟩
  rcases hresult with hfail | hcount
  · exact Or.inl hfail
  · rw [hcount]
    exact Or.inr ⟨Int.natCast_nonneg _, Int.ofNat_le.mpr hle⟩

end LzoReader

/-- Calls that all succeed, with a library that unpacks a block to itself twice. -/
def LzoCalls.twice : LzoCalls :=
  { read := fun _ => some (2 ^ 31), alloc := fun _ _ => true, decompress := fun p n => (true, (p ++ p).take n) }

namespace LzoReader

/-- A stream with a compressed block and a stored one: the first two bytes, and then five of both blocks. -/
theorem lzoread_safe_blocks :
    (lzoread .twice (lzoreads .twice (lzodopen (LzoHead.bytes ⟨4, 2⟩ ++ [7, 8] ++ LzoHead.bytes ⟨3, 3⟩ ++ [1, 2, 3])) [2]) 5).2.2 =
        [some 7, some 8, some 1, some 2, some 3] ∧
      Delivers 5 (lzoread .twice
        (lzoreads .twice (lzodopen (LzoHead.bytes ⟨4, 2⟩ ++ [7, 8] ++ LzoHead.bytes ⟨3, 3⟩ ++ [1, 2, 3])) [2]) 5) :=
  ⟨by decide +kernel, lzoread_safe (fun p n => List.length_take_le n (p ++ p)) _ [2] 5 (by decide)⟩

end LzoReader

end FuseCompress
