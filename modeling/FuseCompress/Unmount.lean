import FuseCompress.TableRuns

/-!
# The loop at unmount

`fusecompress_destroy`: as long as there are entries in the database or in the queue, it forces a purge, and waits while the
background thread works on the queue. No client has anything open any more, so `do_compress` and `do_dedup` run without
interruption.
-/

namespace FuseCompress

/-- `do_compress` without interruption. -/
def doCompress (Γ : Config) (env : Env) (s : State) (f : Nat) : State :=
  match doCompressBegin Γ env s f with
  | (s, none) => s
  | (s, some job) => (doCompressEnd Γ env s job (s.data job.ino) true).1

/-- `thread_compress` with one entry of the queue. -/
def threadCompress (Γ : Config) (env : Env) (s : State) : State :=
  match compDequeue s with
  | none => s
  | some (s, entry) =>
    let s := s.assert Γ (decide ((s.files entry.file).accesses > 0))
    if entry.isDedup then
      compFinish Γ (if dedupNow (s.files entry.file) then doDedup Γ env s entry.file else s) entry.file true
    else
      compFinish Γ (if compressNow Γ (s.files entry.file) then doCompress Γ env s entry.file else s) entry.file false

/-- The first entries of the queue, one after the other; each is handled with answers of the system of its own. -/
def drain (Γ : Config) (envs : Nat → Env) (s : State) : Nat → State
  | 0 => s
  | k + 1 => threadCompress Γ (envs k) (drain Γ envs s k)

/-- The part of a round of `fusecompress_destroy` in which it holds `database.lock`. -/
def destroyPurge (Γ : Config) (env : Env) (s : State) : State := if s.entries = 0 then s else directOpenPurge Γ env true s

/-- A round of `fusecompress_destroy`, with all the work that the background thread has after it. -/
def destroyRound (Γ : Config) (envs : Nat → Env) (s : State) : State :=
  let s := destroyPurge Γ (envs 0) s
  drain Γ (fun k => envs (k + 1)) s s.comp.length

/-- The state after some rounds. -/
def destroyRounds (Γ : Config) (envs : Nat → Nat → Env) (s : State) : Nat → State
  | 0 => s
  | n + 1 => destroyRound Γ (envs n) (destroyRounds Γ envs s n)

/-- Names refer to inodes that exist. -/
def Backing.Sound (b : Backing) : Prop := ∀ p i, b.inoOf p = some i → i < b.next

/-- A database and a queue without descriptors: an entry counts the places it has in the queue, and the counters are right. -/
structure State.Unmounting (s : State) : Prop where
  sound : s.fs.Sound
  nodup : s.database.Nodup
  entries : s.entries = s.database.length
  compEntries : s.compEntries = s.comp.length
  accesses : ∀ f ∈ s.database, (s.files f).accesses = (s.comp.countP (fun e => e.file = f) : Nat)

/-- The purge would have the file compressed, if it were raw and there were room: it can be told by its name and its size. -/
def Compressible (Γ : Config) (file : FileT) : Prop :=
  (chooseCompressor Γ file.filename).isSome = true ∧ Γ.readOnly = false ∧
    (file.size = -1 ∨ file.size > (Γ.minFilesizeBackground : Int))

instance (Γ : Config) (file : FileT) : Decidable (Compressible Γ file) :=
  inferInstanceAs (Decidable (_ = true ∧ _ = false ∧ (_ ∨ _)))

/-- What the background thread does with the next entry of the queue settles the file.

A file to be compressed is below the limit of `dont_compress_beyond`, and is on the disk as long as `min_filesize_background`
asks. A file to be deduplicated has no magic bytes without a valid header, and a compressed one that would be compressed again is
not replaced by a link to a raw file. -/
def Settles (Γ : Config) (env : Env) (s : State) : Prop :=
  ∀ entry ∈ s.comp.head?,
    let f := entry.file
    let file := s.files f
    file.accesses = 1 → file.deleted = false →
      if entry.isDedup then
        dedupHashFile Γ env s file.filename ≠ .crash ∧
          (Compressible Γ file → file.compressor ≠ none → ∀ md5 dp j, dedupHashFile Γ env s file.filename = .digest md5 →
            s.dedup.findMd5 md5 = some dp → dp.filename ≠ file.filename → s.fs.inoOf dp.filename = some j →
            parse Γ (s.data j) ≠ none)
      else
        file.compressor = none →
          (Γ.dontCompressBeyond = 2 ^ 64 - 1 ∨ asU64 file.size < Γ.dontCompressBeyond) ∧
            ∀ i, s.fs.inoOf file.filename = some i → Γ.minFilesizeBackground ≤ (s.data i).length

end FuseCompress
