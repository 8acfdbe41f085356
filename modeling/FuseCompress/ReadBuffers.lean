import FuseCompress.FailingReads

/-!
# The buffers of a read

What `direct_decompress` does with `file->cache`, with the buffer of the caller and with the pages it allocates, in the order in which
it does it. Each function of the read is there a second time, with the list of its uses beside its result.
-/

namespace FuseCompress

/-- An index into `file->cache` with the size of the array, a page copied into a buffer that has room for so many bytes, a call of
`compressor->read` for so many bytes, and a value that `size` takes before it is made unsigned. -/
inductive BufferUse where
  | index (i cacheSize : Nat)
  | page (room : Nat)
  | read (want room : Nat)
  | size (value : Int)
  deriving DecidableEq, Repr

/-- The use stays inside the buffer. -/
def BufferUse.Inside : BufferUse → Prop
  | .index i cacheSize => i < cacheSize
  | .page room => pageSize ≤ room
  | .read want room => want ≤ room
  | .size value => 0 ≤ value

/-- All of them do. -/
def BufferUse.AllInside (uses : List BufferUse) : Prop := ∀ u ∈ uses, u.Inside

/-- The loop of `servePages`. The test at its head reads the next page while there is room for one. -/
def servePagesUses (pages : List (Option Bytes)) : Nat → Nat → List BufferUse
  | 0, _ => []
  | n + 1, i =>
    match pages.getD i none with
    | none => [.index i pages.length]
    | some _ =>
      [.index i pages.length, .page (pageSize * (n + 1)), .size (pageSize * n)] ++ servePagesUses (pages.set i none) n (i + 1)

namespace ReadState

variable {D : Decoder}

/-- `serveCache`. The first test looks at `file->cache_size` before it reads the page. -/
def serveCacheUses (s : ReadState D) (cacheThis : Bool) (size offset : Nat) : List BufferUse :=
  if cacheThis ∧ s.file.type = .read then
    let pages := s.file.cache.getD []
    if offset / pageSize < pages.length then
      .index (offset / pageSize) pages.length ::
        if (pages.getD (offset / pageSize) none).isNone then [] else servePagesUses pages (size / pageSize) (offset / pageSize)
    else []
  else []

/-- One turn of the skipping before it calls `compressor->read`, and that call. -/
def turnUses (Γ : Config) (s : ReadState D) (cacheThis : Bool) (room readsize : Nat) : List BufferUse :=
  (if cacheThis then [.index (s.offset / pageSize) (s.file.cache.getD []).length] else []) ++
    [.read readsize (if s.keepPage Γ cacheThis then pageSize else room)]

/-- One turn stores the page that it has read. -/
def storeUses (s : ReadState D) (keep : Bool) : List BufferUse :=
  if keep then [.index (s.offset / pageSize) (s.file.cache.getD []).length] else []

/-- `skipLoop`. The buffer of the caller has `room` bytes. -/
def skipLoopTraced (Γ : Config) (faults : Nat → D.Fault) (cacheThis : Bool) (room : Nat) :
    Nat → Nat → ReadState D → (ReadState D × Option Int) × List BufferUse
  | 0, _, s => ((s, none), [])
  | n + 1, toread, s =>
    if toread = 0 then ((s, none), [])
    else
      let readsize := min toread pageSize
      let keep := s.keepPage Γ cacheThis
      let uses := s.turnUses Γ cacheThis room readsize
      match (s.countPage keep).codecRead (faults n) readsize with
      | (s, none) => ((s, some (-1)), uses)
      | (s, some buf) =>
        if buf.length < readsize ∧ (s.file.size = -1 ∨ ((s.offset + buf.length : Nat) : Int) < s.file.size) then
          ((s, some (-1)), uses)
        else if buf = [] then ((s, some 0), uses)
        else
          let r := skipLoopTraced Γ faults cacheThis room n (toread - buf.length) (s.skipped keep buf)
          (r.1, uses ++ s.storeUses keep ++ r.2)

/-- `decompressRead`. -/
def decompressReadTraced (s : ReadState D) (φ : D.Fault) (size : Nat) (served : Bytes) :
    (ReadState D × Int × Bytes) × List BufferUse :=
  (s.decompressRead φ size served,
    (if s.file.size ≠ -1 ∧ s.offset + size > asU64 s.file.size then [.size (s.file.size - s.offset)] else []) ++
      [.read (cutSize s.file s.offset size) size])

/-- `decompressSkip`. -/
def decompressSkipTraced (Γ : Config) (s : ReadState D) (c : ReadCall D) (size offset : Nat) (cacheThis : Bool) (served : Bytes) :
    (ReadState D × Int × Bytes) × List BufferUse :=
  if offset > s.offset then
    let toread := offset - s.offset
    let cacheThis := s.keepsSkipped Γ offset cacheThis
    if allocFails s.file cacheThis then ((s, -1, []), [])
    else
      match skipLoopTraced Γ c.skipFaults cacheThis size toread toread (s.allocCache cacheThis) with
      | ((s, some r), uses) => ((s, r, []), uses)
      | ((s, none), uses) =>
        let r := s.decompressReadTraced c.fault size served
        (r.1, uses ++ r.2)
  else s.decompressReadTraced c.fault size served

/-- `directDecompress`. -/
def directDecompressTraced (Γ : Config) (s : ReadState D) (c : ReadCall D) : (ReadState D × Int × Bytes) × List BufferUse :=
  let cacheThis := Γ.cacheDecompressedData && c.offset % pageSize = 0 && c.size % pageSize = 0
  let s := { s with file := { s.file with type := if s.file.type = Access.unset then .read else s.file.type } }
  let uses := s.serveCacheUses cacheThis c.size c.offset
  match s.serveCache cacheThis c.size c.offset with
  | (s, served, any) =>
    let size := c.size - served.length
    let offset := c.offset + served.length
    if any ∧ size = 0 then ((s, served.length, served), uses)
    else if readFallback Γ s.file s.decompCacheSize cacheThis s.offset offset then (s.decompressFallback c size offset served, uses)
    else
      match s.decompressOpen c offset with
      | (s, false) => ((s, -1, []), uses)
      | (s, true) =>
        let r := s.decompressSkipTraced Γ c size offset cacheThis served
        (r.1, uses ++ r.2)

/-! ## The traced functions are the functions -/

variable {Γ : Config} {s : ReadState D}

theorem skipLoopTraced_fst (faults : Nat → D.Fault) (cacheThis : Bool) (room n : Nat) :
    ∀ (toread : Nat) (s : ReadState D), (skipLoopTraced Γ faults cacheThis room n toread s).1 = skipLoop Γ faults cacheThis n toread s := by
  induction n with
  | zero => exact fun _ _ => rfl
  | succ n ih =>
    intro toread s
    rw [skipLoopTraced, skipLoop]
    split
    · rfl
    · dsimp only
      generalize (s.countPage (s.keepPage Γ cacheThis)).codecRead (faults n) (min toread pageSize) = r
      obtain ⟨s₁, buf⟩ := r
      cases buf with
      | none => rfl
      | some buf =>
        dsimp only
        split
        · rfl
        · split
          · rfl
          · exact ih _ _

theorem decompressSkipTraced_fst (c : ReadCall D) (size offset : Nat) (cacheThis : Bool) (served : Bytes) :
    (s.decompressSkipTraced Γ c size offset cacheThis served).1 = s.decompressSkip Γ c size offset cacheThis served := by
  unfold decompressSkipTraced decompressSkip
  split
  · dsimp only
    split
    · rfl
    · rw [← skipLoopTraced_fst _ _ size]
      generalize skipLoopTraced Γ c.skipFaults _ size _ _ _ = r
      obtain ⟨⟨s₁, res⟩, uses⟩ := r
      cases res <;> rfl
  · rfl

/-- Writing down the uses changes nothing of a read. -/
theorem directDecompressTraced_fst (c : ReadCall D) : (s.directDecompressTraced Γ c).1 = s.directDecompress Γ c := by
  unfold directDecompressTraced directDecompress
  dsimp only
  generalize ReadState.serveCache _ _ c.size c.offset = r
  obtain ⟨s₁, served, any⟩ := r
  dsimp only
  split
  · rfl
  · split
    · rfl
    · generalize s₁.decompressOpen c _ = r
      obtain ⟨s₂, ok⟩ := r
      cases ok with
      | false => rfl
      | true => exact decompressSkipTraced_fst c _ _ _ served

end ReadState

end FuseCompress
