import FuseCompress.Minilzo
import Mathlib.Tactic.Ring

/-!
# Round trip of the block stream

What a writer leaves on disk is a sequence of blocks whatever the sizes of the `lzowrite` calls (`Writing`), and a reader delivers
the bytes of these blocks whatever the sizes of the `lzoread` calls (`Reading`). `lzo_roundtrip` puts the two together.
-/

namespace FuseCompress

/-! ## Blocks on disk -/

/-- The bytes stored for a block: the block itself when compressing does not make it smaller. -/
def blockPayload (lib : Lzo1x) (w : lib.Wrkmem) (b : Bytes) : Bytes :=
  if b.length ≤ (lib.compress w b).length then b else lib.compress w b

/-- A block on disk. -/
def blockBytes (lib : Lzo1x) (w : lib.Wrkmem) (b : Bytes) : Bytes :=
  LzoHead.bytes { usize := b.length, psize := (blockPayload lib w b).length } ++ blockPayload lib w b

/-- A stream of blocks, each compressed with some work memory. -/
inductive BlockStream (lib : Lzo1x) : List Bytes → Bytes → Prop where
  | nil : BlockStream lib [] []
  | cons (w : lib.Wrkmem) (b : Bytes) {bs : List Bytes} {r : Bytes} :
      BlockStream lib bs r → BlockStream lib (b :: bs) (blockBytes lib w b ++ r)

variable {lib : Lzo1x}

@[simp] theorem LzoHead.length_bytes (head : LzoHead) : head.bytes.length = lzoHeadSize := by
  simp [LzoHead.bytes, lzoHeadSize]

/-- A header reads back as the sizes it was written with. -/
theorem LzoHead.ofBytes_bytes {head : LzoHead} (hu : head.usize < 256 ^ 8) (hp : head.psize < 256 ^ 8) :
    LzoHead.ofBytes head.bytes = head := by
  have hl : (Bytes.toLe 8 head.usize).length = 8 := Bytes.length_toLe _ _
  rw [LzoHead.ofBytes, LzoHead.bytes, List.take_left' hl, List.drop_left' hl, Bytes.fromLe_toLe_of_lt hu,
    Bytes.fromLe_toLe_of_lt hp]

/-- The stored form of a block is never longer than the block. -/
theorem length_blockPayload_le (w : lib.Wrkmem) (b : Bytes) : (blockPayload lib w b).length ≤ b.length := by
  unfold blockPayload
  split
  · exact le_refl _
  · omega

/-- The header of a block with fewer than `256 ^ 8` bytes reads back. -/
theorem ofBytes_block (w : lib.Wrkmem) {b : Bytes} (hb : b.length < 256 ^ 8) (r : Bytes) :
    LzoHead.ofBytes ((blockBytes lib w b ++ r).take lzoHeadSize) =
      { usize := b.length, psize := (blockPayload lib w b).length } := by
  rw [blockBytes, List.append_assoc, List.take_left' (LzoHead.length_bytes _)]
  exact LzoHead.ofBytes_bytes hb (lt_of_le_of_lt (length_blockPayload_le w b) hb)

/-- What is stored for a block decodes to the block. -/
theorem lzounpack_payload (h : lib.Correct) (w : lib.Wrkmem) (b : Bytes) :
    lzounpack lib { usize := b.length, psize := (blockPayload lib w b).length } (blockPayload lib w b) = some b := by
  unfold lzounpack blockPayload
  by_cases hle : b.length ≤ (lib.compress w b).length
  · simp [hle]
  · have hne : b.length ≠ (lib.compress w b).length := by omega
    simp [hle, hne, h.inverse w b, Option.filter]

/-- The block that `lzowriteblock` chooses to write. -/
theorem blockOut_eq (h : lib.Correct) (w : lib.Wrkmem) (b : Bytes) :
    blockOut lib w b =
      some { buf := some (blockPayload lib w b), usize := b.length, psize := (blockPayload lib w b).length } := by
  have hb := h.bound w b
  unfold blockOut blockPayload
  rw [if_neg (by omega)]
  by_cases hle : b.length ≤ (lib.compress w b).length
  · simp [hle]
  · simp [hle]

/-- One more block at the end of a stream. -/
theorem BlockStream.snoc {bs : List Bytes} {r : Bytes} (h : BlockStream lib bs r) (w : lib.Wrkmem) (b : Bytes) :
    BlockStream lib (bs ++ [b]) (r ++ blockBytes lib w b) := by
  induction h with
  | nil => simpa using BlockStream.cons w b .nil
  | cons w' b' _ ih =>
    rw [List.append_assoc]
    exact BlockStream.cons w' b' ih

/-- A stream is at least as long as it has blocks. -/
theorem BlockStream.length_le {bs : List Bytes} {r : Bytes} (h : BlockStream lib bs r) : bs.length ≤ r.length := by
  induction h with
  | nil => exact le_refl _
  | cons w b _ ih =>
    have : lzoHeadSize = 16 := rfl
    simp only [List.length_cons, List.length_append, blockBytes, LzoHead.length_bytes]
    omega

/-- Walking over a stream finds the sizes of its blocks. -/
theorem BlockStream.heads {bs : List Bytes} {r : Bytes} (h : BlockStream lib bs r) (hs : ∀ b ∈ bs, b.length < 256 ^ 8) :
    ∀ n, bs.length ≤ n → (lzoHeads n r).map LzoHead.usize = bs.map List.length := by
  induction h with
  | nil =>
    intro n _
    cases n <;> simp [lzoHeads]
  | @cons w b bs r _ ih =>
    intro n hn
    cases n with
    | zero => simp at hn
    | succ n =>
      have hne : blockBytes lib w b ++ r ≠ [] := by
        intro he
        have := congrArg List.length he
        simp [blockBytes, lzoHeadSize] at this
      have hdrop : (blockBytes lib w b ++ r).drop (lzoHeadSize + (blockPayload lib w b).length) = r :=
        List.drop_left' (by simp [blockBytes])
      rw [lzoHeads, if_neg hne, ofBytes_block w (hs b (by simp)), List.map_cons, List.map_cons, hdrop,
        ih (fun b hb => hs b (List.mem_cons_of_mem _ hb)) n (by simpa using hn)]

/-! ## Writing -/

/-- A file open for writing: behind the old contents there are the full blocks `bs`, and the buffer holds the bytes `pending`. -/
structure Writing (lib : Lzo1x) (old : Bytes) (file : LzoFile) (bs : List Bytes) (pending : Bytes) : Prop where
  mode : file.mode = .write
  usize : file.block.usize = writeBufferSize
  pos : file.pos = file.data.length
  stream : ∃ r, file.data = old ++ r ∧ BlockStream lib bs r
  full : ∀ b ∈ bs, b.length = writeBufferSize
  buf : ∃ buf, file.block.buf = some buf ∧ buf.length = writeBufferSize ∧ buf.take file.block.psize = pending
  psize : file.block.psize = pending.length
  blockoff : file.blockoff = pending.length
  fits : pending.length ≤ writeBufferSize

variable {Λ : LzoEnv} {old : Bytes} {file : LzoFile} {bs : List Bytes} {pending : Bytes}

/-- `_lzowriteblock` at the end of a file appends the block. -/
theorem lzowriteblock'_append {file : LzoFile} (hpos : file.pos = file.data.length) (w : lib.Wrkmem) (b : Bytes) :
    lzowriteblock' file { buf := some (blockPayload lib w b), usize := b.length, psize := (blockPayload lib w b).length } =
      { file with
        data := file.data ++ blockBytes lib w b
        pos := file.data.length + (blockBytes lib w b).length } := by
  simp only [lzowriteblock', LzoFile.put, hpos, Bytes.overwrite_at_end, Option.getD_some, List.take_length]
  rw [Bytes.overwrite_eq_append (by simp)]
  simp [blockBytes, Nat.add_assoc]

/-- Writing out the buffer appends one block. -/
theorem Writing.writeblock (hw : Writing Λ.lib old file bs pending) (h : Λ.lib.Correct) :
    ∃ w, lzowriteblock Λ file = some
      { file with
        data := file.data ++ blockBytes Λ.lib w pending
        pos := file.data.length + (blockBytes Λ.lib w pending).length
        calls := file.calls + 1 } := by
  obtain ⟨buf, hbuf, -, htake⟩ := hw.buf
  have hinp : (file.block.buf.getD []).take file.block.psize = pending := by rw [hbuf]; exact htake
  refine ⟨if Λ.dedupEnabled then Λ.lib.zeroed else Λ.wrkmem file.calls, ?_⟩
  unfold lzowriteblock
  dsimp only
  rw [hinp, blockOut_eq h, Option.map_some]
  exact congrArg some (lzowriteblock'_append (show LzoFile.pos { file with calls := file.calls + 1 } = _ from hw.pos) _ _)

/-- The buffer is written out when it is full. -/
theorem Writing.flush (hw : Writing Λ.lib old file bs pending) (h : Λ.lib.Correct) :
    ∃ file' bs' pending', lzoflush Λ file = some file' ∧ Writing Λ.lib old file' bs' pending' ∧
      bs'.flatten ++ pending' = bs.flatten ++ pending ∧ pending'.length < writeBufferSize := by
  unfold lzoflush
  rw [hw.blockoff, hw.usize]
  by_cases hlt : pending.length < writeBufferSize
  · rw [if_pos hlt]
    exact ⟨file, bs, pending, rfl, hw, rfl, hlt⟩
  · rw [if_neg hlt]
    obtain ⟨w, he⟩ := hw.writeblock h
    obtain ⟨r, hr, hs⟩ := hw.stream
    obtain ⟨buf, hbuf, hlen, -⟩ := hw.buf
    rw [he, Option.map_some]
    refine ⟨_, bs ++ [pending], [], rfl, ?_, by simp, by decide⟩
    exact
      { mode := hw.mode
        usize := hw.usize
        pos := by simp
        stream := ⟨r ++ blockBytes Λ.lib w pending, by simp [hr], hs.snoc w pending⟩
        full := by
          intro b hb
          rcases List.mem_append.mp hb with hb | hb
          · exact hw.full b hb
          · have hfits := hw.fits
            rw [List.mem_singleton.mp hb]
            omega
        buf := ⟨buf, hbuf, hlen, rfl⟩
        psize := rfl
        blockoff := rfl
        fits := Nat.zero_le _ }

/-- A byte goes to the end of the bytes in the buffer. -/
theorem Writing.store (hw : Writing lib old file bs pending) (hlt : pending.length < writeBufferSize) (x : UInt8) :
    Writing lib old (lzostore file x) bs (pending ++ [x]) := by
  obtain ⟨buf, hbuf, hlen, htake⟩ := hw.buf
  have hset : (buf.set file.blockoff x).take (file.block.psize + 1) = pending ++ [x] := by
    rw [hw.blockoff, hw.psize] at *
    rw [List.take_succ_eq_append_getElem (by simpa [hlen] using hlt), List.take_set_of_le (le_refl _), htake]
    simp
  exact
    { mode := hw.mode
      usize := hw.usize
      pos := hw.pos
      stream := hw.stream
      full := hw.full
      buf := ⟨buf.set file.blockoff x, by simp [lzostore, hbuf], by simpa using hlen, hset⟩
      psize := by simp [lzostore, hw.psize]
      blockoff := by simp [lzostore, hw.blockoff]
      fits := by simpa using Nat.succ_le_of_lt hlt }

/-- A call of `lzowrite` appends its bytes to what has been written. No block is written out before a byte follows it, so the
buffer is empty only when nothing has been written at all. -/
theorem Writing.write (h : Λ.lib.Correct) (buf : Bytes) :
    ∀ {file bs pending}, Writing Λ.lib old file bs pending → (pending = [] → bs = []) →
      ∃ file' bs' pending', lzowrite Λ file buf = some file' ∧ Writing Λ.lib old file' bs' pending' ∧
        bs'.flatten ++ pending' = bs.flatten ++ pending ++ buf ∧ (pending' = [] → bs' = []) := by
  induction buf with
  | nil =>
    intro file bs pending hw hd
    exact ⟨file, bs, pending, rfl, hw, by simp, hd⟩
  | cons x buf ih =>
    intro file bs pending hw _
    obtain ⟨file', bs', pending', hflush, hw', hflat, hlt⟩ := hw.flush h
    obtain ⟨file'', bs'', pending'', hwrite, hw'', hflat', hd'⟩ := ih (hw'.store hlt x) (by simp)
    refine ⟨file'', bs'', pending'', by rw [lzowrite, hflush]; exact hwrite, hw'', ?_, hd'⟩
    rw [hflat', ← List.append_assoc, hflat]
    simp

/-- So do several calls. -/
theorem Writing.writes (h : Λ.lib.Correct) (chunks : List Bytes) :
    ∀ {file bs pending}, Writing Λ.lib old file bs pending → (pending = [] → bs = []) →
      ∃ file' bs' pending', lzowrites Λ file chunks = some file' ∧ Writing Λ.lib old file' bs' pending' ∧
        bs'.flatten ++ pending' = bs.flatten ++ pending ++ chunks.flatten ∧ (pending' = [] → bs' = []) := by
  induction chunks with
  | nil =>
    intro file bs pending hw hd
    exact ⟨file, bs, pending, rfl, hw, by simp, hd⟩
  | cons buf chunks ih =>
    intro file bs pending hw hd
    obtain ⟨file', bs', pending', hwrite, hw', hflat, hd'⟩ := hw.write h buf hd
    obtain ⟨file'', bs'', pending'', hwrites, hw'', hflat', hd''⟩ := ih hw' hd'
    refine ⟨file'', bs'', pending'', by rw [lzowrites, hwrite]; exact hwrites, hw'', ?_, hd''⟩
    rw [hflat', hflat]
    simp

/-- A file just opened for writing. -/
theorem writing_lzodopen (lib : Lzo1x) (old : Bytes) : Writing lib old (lzodopen old old.length .write) [] [] where
  mode := rfl
  usize := rfl
  pos := rfl
  stream := ⟨[], by simp [lzodopen], .nil⟩
  full := by simp
  buf := ⟨_, rfl, Bytes.length_zeros _, rfl⟩
  psize := rfl
  blockoff := rfl
  fits := Nat.zero_le _

/-- The sizes of full blocks followed by one that is empty only when it is the first. -/
theorem map_length_blocks (hfull : ∀ b ∈ bs, b.length = writeBufferSize) (hfits : pending.length ≤ writeBufferSize)
    (hd : pending = [] → bs = []) : (bs ++ [pending]).map List.length = blockSizes (bs.flatten ++ pending).length := by
  have hbs : bs.map List.length = List.replicate bs.length writeBufferSize := by
    rw [List.eq_replicate_iff]
    exact ⟨by simp, by simpa using hfull⟩
  have hlen : (bs.flatten ++ pending).length = bs.length * writeBufferSize + pending.length := by
    rw [List.length_append, List.length_flatten, hbs]
    simp
  have hpos : 0 < writeBufferSize := by decide
  have hdiv : (bs.length * writeBufferSize + pending.length - 1) / writeBufferSize = bs.length := by
    rcases Nat.eq_zero_or_pos pending.length with h0 | h0
    · have he : bs = [] := hd (List.eq_nil_of_length_eq_zero h0)
      simp [he, h0]
    · rw [Nat.add_sub_assoc h0, Nat.mul_comm, Nat.mul_add_div hpos, Nat.div_eq_of_lt (by omega), Nat.add_zero]
  rw [blockSizes, hlen, hdiv, List.map_append, hbs]
  simp

/-- The file that a writer leaves: the old contents and a stream of blocks that hold the bytes written. -/
theorem lzoWritten_stream (Λ : LzoEnv) (h : Λ.lib.Correct) (old : Bytes) (chunks : List Bytes) :
    ∃ r bs, lzoWritten Λ old chunks = some (old ++ r) ∧ BlockStream Λ.lib bs r ∧ bs.flatten = chunks.flatten ∧
      bs.map List.length = blockSizes chunks.flatten.length := by
  obtain ⟨file, bs, pending, hwrites, hw, hflat, hd⟩ :=
    (writing_lzodopen Λ.lib old).writes h chunks (fun _ => rfl)
  obtain ⟨w, he⟩ := hw.writeblock h
  obtain ⟨r, hr, hs⟩ := hw.stream
  have hflat' : bs.flatten ++ pending = chunks.flatten := by simpa using hflat
  refine ⟨r ++ blockBytes Λ.lib w pending, bs ++ [pending], ?_, hs.snoc w pending, by simpa using hflat', ?_⟩
  · rw [lzoWritten, hwrites, Option.bind_some, lzoclose, hw.mode]
    dsimp only
    rw [he, Option.map_some, hr, List.append_assoc]
  · rw [map_length_blocks hw.full hw.fits hd, hflat']

/-! ## Reading -/

/-- A file open for reading: `cur` is what is left of the block in the buffer, `bs` are the blocks still on disk. A block of no
bytes is there only when it is the only block. -/
structure Reading (lib : Lzo1x) (file : LzoFile) (cur : Bytes) (bs : List Bytes) : Prop where
  stream : BlockStream lib bs (file.data.drop file.pos)
  small : ∀ b ∈ bs, b.length < 256 ^ 8
  usize : (file.block.buf.getD []).length = file.block.usize
  cur : cur = (file.block.buf.getD []).drop file.blockoff
  blocks : (∀ b ∈ bs, b ≠ []) ∨ bs = [[]] ∧ file.block.buf = none

/-- There is room for the next block: a buffer, unless the block has no bytes. -/
theorem Reading.realloc {cur b : Bytes} (hr : Reading lib file cur (b :: bs)) (psize : Nat) :
    ∃ buf, lzorealloc { usize := b.length, psize := psize } file.block = some buf ∧ (buf = none ↔ b = []) := by
  have husize := hr.usize
  rcases hr.blocks with hne | ⟨hb, hnone⟩
  · have hb : b ≠ [] := hne b (by simp)
    have hpos : b.length ≠ 0 := fun e => hb (List.eq_nil_of_length_eq_zero e)
    unfold lzorealloc
    by_cases heq : file.block.usize = b.length
    · refine ⟨file.block.buf, if_pos heq, ⟨fun hn => ?_, fun e => absurd e hb⟩⟩
      rw [hn, heq] at husize
      exact absurd husize.symm hpos
    · exact ⟨some (Bytes.zeros b.length), by rw [if_neg heq, if_neg hpos], by simp [hb]⟩
  · have hb : b = [] := by
      injection hb
    rw [hnone] at husize
    refine ⟨none, ?_, by simp [hb]⟩
    unfold lzorealloc
    rw [hb, ← husize, hnone]
    rfl

/-- Between two blocks, the next one is read into the buffer. -/
theorem Reading.readblock {b : Bytes} (hr : Reading lib file [] (b :: bs)) (h : lib.Correct) :
    ∃ file', lzoreadblock lib { file with blockoff := 0 } = (file', true) ∧ Reading lib file' b bs ∧
      (file'.block.buf = none ↔ b = []) := by
  obtain ⟨w, r, hdata, hs⟩ : ∃ w r, file.data.drop file.pos = blockBytes lib w b ++ r ∧ BlockStream lib bs r := by
    generalize hq : file.data.drop file.pos = q
    have hstream := hr.stream
    rw [hq] at hstream
    cases hstream with
    | cons w _ hs => exact ⟨w, _, rfl, hs⟩
  obtain ⟨buf, hbuf, hnone⟩ := hr.realloc (blockPayload lib w b).length
  have hhead : Bytes.slice file.data file.pos lzoHeadSize =
      LzoHead.bytes { usize := b.length, psize := (blockPayload lib w b).length } := by
    rw [Bytes.slice, hdata, blockBytes, List.append_assoc]
    exact List.take_left' (LzoHead.length_bytes _)
  have hof : LzoHead.ofBytes (Bytes.slice file.data file.pos lzoHeadSize) =
      { usize := b.length, psize := (blockPayload lib w b).length } := by
    rw [Bytes.slice, hdata]
    exact ofBytes_block w (hr.small b (by simp)) r
  have hlen : (Bytes.slice file.data file.pos lzoHeadSize).length = lzoHeadSize := by rw [hhead]; exact LzoHead.length_bytes _
  have hrest : file.data.drop (file.pos + lzoHeadSize) = blockPayload lib w b ++ r := by
    rw [← List.drop_drop, hdata, blockBytes, List.append_assoc]
    exact List.drop_left' (LzoHead.length_bytes _)
  have hpay : Bytes.slice file.data (file.pos + lzoHeadSize) (blockPayload lib w b).length = blockPayload lib w b := by
    rw [Bytes.slice, hrest]
    exact List.take_left' rfl
  refine ⟨{ file with
      blockoff := 0
      pos := file.pos + lzoHeadSize + (blockPayload lib w b).length
      block := { buf := buf.map (fun _ => b), usize := b.length, psize := (blockPayload lib w b).length } }, ?_, ?_, ?_⟩
  · unfold lzoreadblock
    simp only [LzoFile.get, hlen, show lzoHeadSize ≠ 0 by decide, if_false, ne_eq, not_true_eq_false, hof]
    unfold lzoreadblock'
    dsimp only
    rw [hbuf]
    simp only [LzoFile.get, hpay, lzounpack_payload h w b]
  · have hget : (buf.map (fun _ => b)).getD [] = b := by
      cases buf with
      | none => rw [hnone.mp rfl]; rfl
      | some _ => rfl
    exact
      { stream := by
          rw [show file.data.drop (file.pos + lzoHeadSize + (blockPayload lib w b).length) = r by
            rw [← List.drop_drop, hrest]; exact List.drop_left' rfl]
          exact hs
        small := fun b' hb' => hr.small b' (List.mem_cons_of_mem _ hb')
        usize := congrArg List.length hget
        cur := by rw [hget]; rfl
        blocks := by
          rcases hr.blocks with hne | ⟨hb, -⟩
          · exact Or.inl (fun b' hb' => hne b' (List.mem_cons_of_mem _ hb'))
          · injection hb with _ hbs
            rw [hbs]
            exact Or.inl (by simp) }
  · rw [Option.map_eq_none_iff]
    exact hnone

/-- At the end of the file, the block becomes empty. -/
theorem Reading.readblock_end {cur : Bytes} (hr : Reading lib file cur []) :
    ∃ file', lzoreadblock lib { file with blockoff := 0 } = (file', true) ∧ Reading lib file' [] [] ∧
      file'.block.buf = none := by
  have hend : file.data.drop file.pos = [] := by
    generalize hq : file.data.drop file.pos = q
    have hstream := hr.stream
    rw [hq] at hstream
    cases hstream
    rfl
  have hget : Bytes.slice file.data file.pos lzoHeadSize = [] := by rw [Bytes.slice, hend]; rfl
  refine ⟨lzoclearblock { file with blockoff := 0 }, ?_, ?_, rfl⟩
  · unfold lzoreadblock
    simp [LzoFile.get, hget]
  · exact
      { stream := hr.stream
        small := by simp
        usize := rfl
        cur := rfl
        blocks := Or.inl (by simp) }

/-- When the block in the buffer is used up, nothing is left of it. -/
theorem Reading.cur_eq_nil {cur : Bytes} (hr : Reading lib file cur bs) (hlt : ¬file.blockoff < file.block.usize) :
    cur = [] := by
  rw [hr.cur, List.drop_eq_nil_iff, hr.usize]
  omega

/-- One byte of the block in the buffer is delivered. -/
theorem Reading.next {cur : Bytes} (hr : Reading lib file cur bs) (hlt : file.blockoff < file.block.usize) :
    ∃ cur', cur = (file.block.buf.getD []).getD file.blockoff 0 :: cur' ∧
      Reading lib { file with blockoff := file.blockoff + 1 } cur' bs := by
  have hlen : file.blockoff < (file.block.buf.getD []).length := by
    rw [hr.usize]
    exact hlt
  refine ⟨(file.block.buf.getD []).drop (file.blockoff + 1), ?_, ?_⟩
  · rw [hr.cur, List.drop_eq_getElem_cons hlen]
    simp [hlen]
  · exact { stream := hr.stream, small := hr.small, usize := hr.usize, cur := rfl, blocks := hr.blocks }

/-- A call of `lzoread` delivers the next bytes, as many as it is asked for or as there are. The induction is on the turns of its
loop: a turn delivers a byte of the block in the buffer, or reads a block, or finds the end of the file. -/
theorem Reading.read (h : lib.Correct) (file : LzoFile) (n : Nat) :
    ∀ {cur bs}, Reading lib file cur bs →
      ∃ file' cur' bs', lzoread lib file n = (file', some ((cur ++ bs.flatten).take n)) ∧ Reading lib file' cur' bs' ∧
        cur' ++ bs'.flatten = (cur ++ bs.flatten).drop n := by
  induction file, n using lzoread.induct lib with
  | case1 file =>
    intro cur bs hr
    exact ⟨file, cur, bs, by rw [lzoread]; simp, hr, rfl⟩
  | case2 file n hn hlt ih =>
    intro cur bs hr
    obtain ⟨cur', hcur, hr'⟩ := hr.next hlt
    obtain ⟨file'', cur'', bs'', hread, hr'', hrest⟩ := ih hr'
    obtain ⟨k, rfl⟩ := Nat.exists_eq_succ_of_ne_zero hn
    refine ⟨file'', cur'', bs'', ?_, hr'', ?_⟩
    · rw [lzoread, if_neg hn, if_pos hlt]
      dsimp only
      rw [hread, hcur]
      rfl
    · rw [hrest, hcur]
      rfl
  | case3 file n hn hlt file' hread =>
    intro cur bs hr
    rw [hr.cur_eq_nil hlt] at hr
    cases bs with
    | nil =>
      obtain ⟨file'', hread', -⟩ := hr.readblock_end
      rw [hread'] at hread
      cases hread
    | cons b bs =>
      obtain ⟨file'', hread', -⟩ := hr.readblock h
      rw [hread'] at hread
      cases hread
  | case4 file n hn hlt file' hread hnone =>
    intro cur bs hr
    have hcur := hr.cur_eq_nil hlt
    rw [hcur] at hr ⊢
    have heq : lzoread lib file n = (file', some []) := by
      rw [lzoread, if_neg hn, if_neg hlt, hread]
      simp [hnone]
    cases bs with
    | nil =>
      obtain ⟨file'', hread', hr', -⟩ := hr.readblock_end
      rw [hread'] at hread
      cases hread
      exact ⟨_, [], [], by simpa using heq, hr', by simp⟩
    | cons b bs =>
      obtain ⟨file'', hread', hr', hb⟩ := hr.readblock h
      rw [hread'] at hread
      cases hread
      have hb' : b = [] := hb.mp hnone
      have hbs : bs = [] := by
        rcases hr.blocks with hne | ⟨he, -⟩
        · exact absurd hb' (hne b (by simp))
        · injection he
      subst hb' hbs
      exact ⟨_, [], [], by simpa using heq, hr', by simp⟩
  | case5 file n hn hlt file' hread hnone ih =>
    intro cur bs hr
    have hcur := hr.cur_eq_nil hlt
    rw [hcur] at hr ⊢
    have heq : lzoread lib file n = lzoread lib file' n := by
      rw [lzoread, if_neg hn, if_neg hlt, hread]
      simp [hnone]
    cases bs with
    | nil =>
      obtain ⟨file'', hread', -, hb⟩ := hr.readblock_end
      rw [hread'] at hread
      cases hread
      exact absurd hb hnone
    | cons b bs =>
      obtain ⟨file'', hread', hr', -⟩ := hr.readblock h
      rw [hread'] at hread
      cases hread
      obtain ⟨file₃, cur', bs', hread₃, hr₃, hrest⟩ := ih hr'
      exact ⟨file₃, cur', bs', heq.trans (by simpa using hread₃), hr₃, by simpa using hrest⟩

/-- No block is longer than the buffer, and only an empty stream has a block of no bytes. -/
theorem mem_blockSizes {k n : Nat} (hk : k ∈ blockSizes n) : k ≤ writeBufferSize ∧ (0 < n → 0 < k) := by
  have hpos : 0 < writeBufferSize := by decide
  have hdiv := Nat.div_add_mod (n - 1) writeBufferSize
  have hmod := Nat.mod_lt (n - 1) hpos
  have hcomm := Nat.mul_comm writeBufferSize ((n - 1) / writeBufferSize)
  rcases List.mem_append.mp hk with hk | hk
  · rw [(List.mem_replicate.mp hk).2]
    exact ⟨le_refl _, fun _ => hpos⟩
  · rw [List.mem_singleton.mp hk]
    omega

/-- A file just opened for reading behind its old contents. -/
theorem reading_lzodopen {old r : Bytes} (hs : BlockStream lib bs r) (hlen : bs.map List.length = blockSizes bs.flatten.length) :
    Reading lib (lzodopen (old ++ r) old.length .read) [] bs where
  stream := by simpa [lzodopen] using hs
  small := by
    intro b hb
    have hmem : b.length ∈ blockSizes bs.flatten.length := hlen ▸ List.mem_map_of_mem hb
    exact lt_of_le_of_lt (mem_blockSizes hmem).1 (by decide)
  usize := rfl
  cur := rfl
  blocks := by
    rcases Nat.eq_zero_or_pos bs.flatten.length with h0 | h0
    · right
      refine ⟨?_, rfl⟩
      rw [h0, show blockSizes 0 = [0] by decide, List.map_eq_singleton_iff] at hlen
      obtain ⟨b, rfl, hb⟩ := hlen
      rw [List.eq_nil_of_length_eq_zero hb]
    · left
      intro b hb hnil
      have hmem : b.length ∈ blockSizes bs.flatten.length := hlen ▸ List.mem_map_of_mem hb
      have := (mem_blockSizes hmem).2 h0
      simp [hnil] at this

/-! ## The round trip -/

/-- What the calls of `lzoread` ought to give: each the next bytes of `d`, as many as it asks for or as are left. -/
def readsOf (d : Bytes) : List UInt32 → List (Int × Bytes)
  | [] => []
  | n :: requests => (asInt (min n.toNat d.length), d.take n.toNat) :: readsOf (d.drop n.toNat) requests

/-- How many bytes the first `k` calls ask for. -/
def askedBefore (requests : List UInt32) (k : Nat) : Nat := ((requests.take k).map UInt32.toNat).sum

theorem askedBefore_cons (n : UInt32) (requests : List UInt32) (k : Nat) :
    askedBefore (n :: requests) (k + 1) = n.toNat + askedBefore requests k := by simp [askedBefore]

@[simp] theorem length_readsOf (requests : List UInt32) : ∀ d, (readsOf d requests).length = requests.length := by
  induction requests with
  | nil => exact fun _ => rfl
  | cons n requests ih => exact fun d => by simp [readsOf, ih]

/-- What call `k` ought to give: the bytes behind those the calls before it asked for. -/
theorem getElem?_readsOf (requests : List UInt32) :
    ∀ d k, (readsOf d requests)[k]? = requests[k]?.map (fun n =>
      (asInt (min n.toNat (d.length - askedBefore requests k)), Bytes.slice d (askedBefore requests k) n.toNat)) := by
  induction requests with
  | nil => intro d k; simp [readsOf]
  | cons n requests ih =>
    intro d k
    cases k with
    | zero => simp [readsOf, askedBefore, Bytes.slice]
    | succ k =>
      rw [readsOf, List.getElem?_cons_succ, List.getElem?_cons_succ, ih, askedBefore_cons]
      simp only [Bytes.slice, List.length_drop, List.drop_drop, Nat.sub_sub]

/-- All the calls together ought to give a first part of `d`. -/
theorem flatten_readsOf (requests : List UInt32) :
    ∀ d, ((readsOf d requests).map Prod.snd).flatten = d.take (askedBefore requests requests.length) := by
  induction requests with
  | nil => intro d; simp [readsOf, askedBefore]
  | cons n requests ih =>
    intro d
    rw [readsOf, List.map_cons, List.flatten_cons, ih, List.length_cons, askedBefore_cons, List.take_add]

/-- Several calls of `lzoread` deliver the blocks on from where the file stands. -/
theorem Reading.reads (h : lib.Correct) (requests : List UInt32) :
    ∀ {file cur bs}, Reading lib file cur bs → lzoreads lib file requests = readsOf (cur ++ bs.flatten) requests := by
  induction requests with
  | nil => exact fun _ => rfl
  | cons n requests ih =>
    intro file cur bs hr
    obtain ⟨file', cur', bs', hread, hr', hrest⟩ := Reading.read h file n.toNat hr
    rw [lzoreads, hread]
    dsimp only
    rw [ih hr', hrest, readsOf, List.length_take]

/-- Whatever the sizes of the `lzowrite` calls that wrote the bytes `d` behind the old contents of a file, and whatever the sizes
of the `lzoread` calls that follow: every call delivers as many bytes as it asks for or as are left and returns their number,
together they deliver `d` from its start, and the sizes of the blocks on disk depend on the length of `d` only. -/
theorem lzo_roundtrip (Λ : LzoEnv) (h : Λ.lib.Correct) (old : Bytes) (chunks : List Bytes) :
    ∃ stream, lzoWritten Λ old chunks = some (old ++ stream) ∧
      (lzoHeads stream.length stream).map LzoHead.usize = blockSizes chunks.flatten.length ∧
      ∀ requests : List UInt32,
        let results := lzoreads Λ.lib (lzodopen (old ++ stream) old.length .read) requests
        results.length = requests.length ∧
          (∀ k n res buf, requests[k]? = some n → results[k]? = some (res, buf) →
            buf = Bytes.slice chunks.flatten (askedBefore requests k) n.toNat ∧
              buf.length = min n.toNat (chunks.flatten.length - askedBefore requests k) ∧ res = asInt buf.length) ∧
          (results.map Prod.snd).flatten = chunks.flatten.take (askedBefore requests requests.length) := by
  obtain ⟨stream, bs, hwritten, hs, hflat, hlen⟩ := lzoWritten_stream Λ h old chunks
  have hsmall : ∀ b ∈ bs, b.length < 256 ^ 8 := by
    intro b hb
    have hmem : b.length ∈ blockSizes chunks.flatten.length := hlen ▸ List.mem_map_of_mem hb
    exact lt_of_le_of_lt (mem_blockSizes hmem).1 (by decide)
  refine ⟨stream, hwritten, (hs.heads hsmall _ hs.length_le).trans hlen, ?_⟩
  intro requests results
  have hresults : results = readsOf chunks.flatten requests := by
    rw [← hflat] at hlen ⊢
    exact (reading_lzodopen hs hlen).reads h requests
  rw [hresults]
  refine ⟨length_readsOf requests _, ?_, flatten_readsOf requests _⟩
  intro k n res buf hn hres
  rw [getElem?_readsOf, hn, Option.map_some, Option.some.injEq, Prod.mk.injEq] at hres
  obtain ⟨hres, hbuf⟩ := hres
  have hl : buf.length = min n.toNat (chunks.flatten.length - askedBefore requests k) := by
    rw [← hbuf, Bytes.length_slice]
  exact ⟨hbuf.symm, hl, by rw [hl]; exact hres.symm⟩

/-- The first bytes of a compressed block that is one run of `t` literals. -/
def literalRun (t : Nat) : Bytes :=
  if t = 0 then []
  else if t ≤ 238 then [UInt8.ofNat (17 + t)]
  else 0 :: Bytes.zeros ((t - 19) / 255) ++ [UInt8.ofNat ((t - 19) % 255 + 1)]

/-- A library that makes one run of literals of every block, as the real one does with blocks of up to 20 bytes. -/
def Lzo1x.literal : Lzo1x where
  Wrkmem := Unit
  zeroed := ()
  compress := fun _ b => literalRun b.length ++ b ++ [17, 0, 0]
  decompress := fun p n => if n + 3 ≤ p.length then some (Bytes.slice p (p.length - 3 - n) n) else none

theorem Lzo1x.literal_correct : Lzo1x.literal.Correct where
  bound := by
    intro _ b
    have hrun : (literalRun b.length).length ≤ 2 + b.length / 255 := by
      unfold literalRun
      split_ifs
      · simp
      · simp only [List.length_cons, List.length_nil]
        omega
      · simp only [List.length_append, List.length_cons, Bytes.length_zeros, List.length_nil]
        omega
    simp only [Lzo1x.literal, outSize, List.length_append, List.length_cons, List.length_nil]
    omega
  inverse := by
    intro _ b
    have hskip : (literalRun b.length ++ b ++ [17, 0, 0]).length - 3 - b.length = (literalRun b.length).length := by
      simp only [List.length_append, List.length_cons, List.length_nil]
      omega
    simp only [Lzo1x.literal, Bytes.slice, hskip]
    rw [if_pos (by simp), List.append_assoc, List.drop_left' rfl, List.take_left' rfl]

theorem lzo_roundtrip_abc :
    ∃ stream, lzoWritten ⟨.literal, false, fun _ => ()⟩ [] [[97], [], [98, 99]] = some stream ∧
      (lzoHeads stream.length stream).map LzoHead.usize = [3] ∧
      ((lzoreads .literal (lzodopen stream 0 .read) [2, 5, 1]).map Prod.snd).flatten = [97, 98, 99] := by
  obtain ⟨stream, hwritten, hsizes, hreads⟩ :=
    lzo_roundtrip ⟨.literal, false, fun _ => ()⟩ Lzo1x.literal_correct [] [[97], [], [98, 99]]
  exact ⟨stream, hwritten, hsizes.trans (by decide), (hreads [2, 5, 1]).2.2.trans (by decide)⟩

end FuseCompress
