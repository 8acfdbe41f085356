import FuseCompress.Interleaving
import FuseCompress.Theorems.Caching
import FuseCompress.Theorems.Header

/-!
# Room for a copy

`do_decompress` and `_direct_open_purge` compare the free space with the size that the entry of a file remembers, in unsigned
arithmetic. A size that is not known is the largest number there: no disk has room for it.
-/

namespace FuseCompress

variable {Γ : Config} {env : Env} {s : State} {f i : Nat}

/-- The space that the process may use. -/
def freeSpace (Γ : Config) (env : Env) : Nat := if Γ.superuser then max env.avail env.bfree else env.avail

/-- The products of the block size and the numbers of free blocks are below `2 ^ 64`. -/
def Env.Counts (env : Env) : Prop := env.avail < 2 ^ 64 ∧ env.bfree < 2 ^ 64

/-- `do_decompress` gives up with `ENOSPC`. -/
def OutOfSpace (Γ : Config) (env : Env) (s : State) (f : Nat) : Prop :=
  env.ok .statvfs = true ∧ s.fs.find (s.files f).filename ≠ none ∧ enoughSpace Γ env (s.files f).size = false

/-- `_direct_open_purge` does not queue a file for compression, and would if there were more space. -/
def SkipsForSpace (Γ : Config) (env : Env) (s : State) (f : Nat) : Prop :=
  wantsCompress Γ env s.fs (s.files f) = false ∧ wantsCompress Γ { env with avail := 2 ^ 64 - 1 } s.fs (s.files f) = true

/-- The tests of `_direct_open_purge` that are not about space. -/
structure Queueable (Γ : Config) (file : FileT) : Prop where
  deleted : file.deleted = false
  compressor : file.compressor = none
  size : file.size = -1 ∨ file.size > (Γ.minFilesizeBackground : Int)
  readOnly : Γ.readOnly = false
  chosen : (chooseCompressor Γ file.filename).isSome = true

/-- `do_decompress` that gives up does nothing. -/
theorem doDecompress_outOfSpace (h : OutOfSpace Γ env s f) : doDecompress Γ env s f = (s, false) := by
  obtain ⟨hstatvfs, hfind, hspace⟩ := h
  unfold doDecompress
  rw [if_neg (by simp [hstatvfs, hfind]), if_pos (by simp [hspace])]

/-- What a test says that fails: neither number is large enough. -/
theorem enoughSpace_eq_false {size : Int} (h : enoughSpace Γ env size = false) : freeSpace Γ env < asU64 size := by
  unfold enoughSpace at h
  unfold freeSpace
  rw [Bool.or_eq_false_iff, decide_eq_false_iff_not] at h
  obtain ⟨havail, hfree⟩ := h
  split
  · rename_i hsuper
    rw [hsuper, Bool.true_and, decide_eq_false_iff_not] at hfree
    omega
  · omega

/-- A disk with as much free space, for everybody, as `n` says, and on which nothing fails. -/
def Env.withSpace (n : Nat) : Env := { ok := fun _ => true, avail := n, bfree := n }

theorem freeSpace_withSpace (Γ : Config) (n : Nat) : freeSpace Γ (Env.withSpace n) = n := by
  unfold freeSpace Env.withSpace
  split
  · exact Nat.max_self n
  · rfl

theorem enoughSpace_withSpace {size : Int} {n : Nat} (h : n < asU64 size) : enoughSpace Γ (Env.withSpace n) size = false := by
  unfold enoughSpace Env.withSpace
  rw [Bool.or_eq_false_iff, decide_eq_false (Nat.not_le.mpr h), Bool.and_false]
  exact ⟨rfl, rfl⟩

/-- The size that is compared is not above the real one exactly when it is known and not above the real one. -/
theorem asU64_le_iff {size : Int} (hsize : IsOff size) {n : Nat} (hn : n < 2 ^ 63) : asU64 size ≤ n ↔ 0 ≤ size ∧ size ≤ n := by
  unfold IsOff at hsize
  unfold asU64
  omega

/-- A file that is not queued for want of space is one that passes the other tests. -/
theorem SkipsForSpace.queueable (h : SkipsForSpace Γ env s f) : Queueable Γ (s.files f) ∧ enoughSpace Γ env (s.files f).size = false := by
  obtain ⟨hnot, hwould⟩ := h
  unfold wantsCompress at hnot hwould
  simp only [Bool.and_eq_true, Bool.or_eq_true, Bool.not_eq_true', decide_eq_true_eq, Option.isNone_iff_eq_none] at hwould
  obtain ⟨⟨⟨⟨⟨⟨⟨hdeleted, hcomp⟩, hsize⟩, hstatvfs⟩, hfind⟩, -⟩, hreadOnly⟩, hchosen⟩ := hwould
  refine ⟨⟨hdeleted, hcomp, hsize, hreadOnly, hchosen⟩, ?_⟩
  have hsize' : ((s.files f).size = -1 || decide ((s.files f).size > (Γ.minFilesizeBackground : Int))) = true := by
    rw [Bool.or_eq_true, decide_eq_true_eq, decide_eq_true_eq]
    exact hsize
  simpa [hdeleted, hcomp, hsize', hstatvfs, hfind, hreadOnly, hchosen] using hnot

/-- A file that passes the other tests is skipped when the space is less than its size. -/
theorem Queueable.skips {n : Nat} (h : Queueable Γ (s.files f)) (hi : s.fs.inoOf (s.files f).filename = some i)
    (hn : n < asU64 (s.files f).size) : SkipsForSpace Γ (Env.withSpace n) s f := by
  have hfind : (s.fs.find (s.files f).filename).isSome = true := by
    rw [Backing.inoOf_eq_some.mp hi]
    rfl
  have hsize : ((s.files f).size = -1 || decide ((s.files f).size > (Γ.minFilesizeBackground : Int))) = true := by
    rw [Bool.or_eq_true, decide_eq_true_eq, decide_eq_true_eq]
    exact h.size
  have hroom : enoughSpace Γ { Env.withSpace n with avail := 2 ^ 64 - 1 } (s.files f).size = true := by
    have hlt : asU64 (s.files f).size ≤ 2 ^ 64 - 1 := by
      unfold asU64
      omega
    unfold enoughSpace
    rw [Bool.or_eq_true, decide_eq_true_eq]
    exact Or.inl hlt
  constructor
  · unfold wantsCompress
    rw [enoughSpace_withSpace hn]
    simp
  · unfold wantsCompress
    rw [h.deleted, h.compressor, hsize, hfind, hroom, h.readOnly, h.chosen]
    rfl

/-- What a guard promises: it refuses only where there is less space than `n` bytes. -/
def RefusesOnly (Γ : Config) (refuses : Env → Prop) (n : Nat) : Prop :=
  ∀ env : Env, env.Counts → refuses env → freeSpace Γ env < n

/-- A guard that refuses where the test fails, and would with any space, keeps its promise exactly when the size that it looks at is
known and not above the real one. -/
theorem refusesOnly_iff {refuses : Env → Prop} {size : Int} {n : Nat} (hsize : IsOff size) (hn : n < 2 ^ 63)
    (htest : ∀ env, refuses env → enoughSpace Γ env size = false) (hall : n < asU64 size → refuses (Env.withSpace n)) :
    RefusesOnly Γ refuses n ↔ 0 ≤ size ∧ size ≤ n := by
  rw [← asU64_le_iff hsize hn]
  constructor
  · intro h
    by_contra hlt
    rw [Nat.not_le] at hlt
    have hless := h (Env.withSpace n) ⟨by unfold Env.withSpace; dsimp only; omega, by unfold Env.withSpace; dsimp only; omega⟩ (hall hlt)
    rw [freeSpace_withSpace] at hless
    exact absurd hless (Nat.lt_irrefl n)
  · intro hle env _ hrefuses
    exact Nat.lt_of_lt_of_le (enoughSpace_eq_false (htest env hrefuses)) hle

/-- `do_decompress` gives up only where the space is less than the uncompressed size, which a file without a header has on the disk, and
the purge skips a file only where it is less than the size on the disk, exactly when the entry remembers a size and not a larger one. -/
theorem spaceGuards_iff (Γ : Config) (s : State) (f i : Nat) (hi : s.fs.inoOf (s.files f).filename = some i)
    (hsize : IsOff (s.files f).size) (hlength : (s.data i).length < 2 ^ 63) :
    (∀ (m : Module) (n : Nat), parse Γ (s.data i) = some (m, (n : Int)) →
      (RefusesOnly Γ (fun env => OutOfSpace Γ env s f) n ↔ 0 ≤ (s.files f).size ∧ (s.files f).size ≤ n)) ∧
    (parse Γ (s.data i) = none →
      (RefusesOnly Γ (fun env => OutOfSpace Γ env s f) (s.data i).length ↔
        0 ≤ (s.files f).size ∧ (s.files f).size ≤ (s.data i).length)) ∧
    (Queueable Γ (s.files f) →
      (RefusesOnly Γ (fun env => SkipsForSpace Γ env s f) (s.data i).length ↔
        0 ≤ (s.files f).size ∧ (s.files f).size ≤ (s.data i).length)) := by
  have hfind : s.fs.find (s.files f).filename ≠ none := by
    rw [Backing.inoOf_eq_some.mp hi]
    exact Option.some_ne_none _
  refine ⟨fun m n hparse => ?_, fun _ => ?_, fun hqueue => ?_⟩
  · have hn : n < 2 ^ 63 := by
      have hlt := parse_lt hparse
      omega
    exact refusesOnly_iff hsize hn (fun _ h => h.2.2) (fun hlt => ⟨rfl, hfind, enoughSpace_withSpace hlt⟩)
  · exact refusesOnly_iff hsize hlength (fun _ h => h.2.2) (fun hlt => ⟨rfl, hfind, enoughSpace_withSpace hlt⟩)
  · exact refusesOnly_iff hsize hlength (fun _ h => h.queueable.2) (fun hlt => hqueue.skips hi hlt)

/-- Files that do not pass the other tests are never skipped for want of space. -/
theorem not_skipsForSpace (h : ¬Queueable Γ (s.files f)) : ¬SkipsForSpace Γ env s f := fun hskips => h hskips.queueable.1

/-- A file that is open and of known size is decompressed wherever there is room. -/
theorem spaceGuards_reading : RefusesOnly .caching (fun env => OutOfSpace .caching env (.reading [1, 2]) 0) 2 :=
  ((spaceGuards_iff .caching (.reading [1, 2]) 0 0 rfl (by unfold IsOff; decide) (by decide +kernel)).1 .null 2 (by decide +kernel)).mpr
    (by decide)

/-! ## A file of unknown size -/

/-- A client opens a compressed file, and a read fails. -/
def failedRead (t : Fin 1) : List (Label (Fin 1)) :=
  [.request t (.open ['x'] true), .client t .fine, .request t (.desc 0 (.read 1 0)),
    .client t { Env.fine with ok := fun c => c ≠ .codecRead }, .client t .fine]

/-- The file is not decompressed any more, however much room there is. -/
theorem failedRead_refuses :
    ¬∀ (Γ : Config) (fs : Backing) (ls : List (Label (Fin 1))) (sys : Sys (Fin 1)),
      Run (Sys.step Γ) (fun _ _ => True) (Sys.mounted fs) ls sys → ∀ (f i : Nat) (m : Module) (n : Nat),
        sys.shared.fs.inoOf (sys.shared.files f).filename = some i → (sys.shared.files f).compressor = some m →
        parse Γ (sys.shared.data i) = some (m, (n : Int)) → RefusesOnly Γ (fun env => OutOfSpace Γ env sys.shared f) n := by
  intro h
  obtain ⟨sys, hrun, hsys⟩ := Run.exists_of_executeIf (show (executeIf (Sys.step .plain) (fun _ _ => True)
    (Sys.mounted (.fileAt ['x'] (header .null 2 ++ [1, 2]))) (failedRead 0)).any (fun sys =>
      decide (sys.shared.fs.inoOf (sys.shared.files 0).filename = some 0 ∧ (sys.shared.files 0).compressor = some .null ∧
        parse .plain (sys.shared.data 0) = some (.null, 2) ∧ sys.shared.fs.find (sys.shared.files 0).filename ≠ none ∧
        enoughSpace .plain .fine (sys.shared.files 0).size = false)) = true by decide +kernel)
  rw [decide_eq_true_eq] at hsys
  obtain ⟨hi, hcomp, hparse, hfind, hspace⟩ := hsys
  have hless := h .plain _ _ sys hrun 0 0 .null 2 hi hcomp hparse .fine (by unfold Env.Counts Env.fine; decide) ⟨rfl, hfind, hspace⟩
  exact absurd hless (by decide)

end FuseCompress
