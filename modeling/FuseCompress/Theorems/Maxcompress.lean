import FuseCompress.Lemmas.Linked
import FuseCompress.Lemmas.Unmount
import FuseCompress.Theorems.Compression

/-!
# The limit of `maxcompress`

`thread_compress` tests `dont_compress_beyond` against the size that the entry of the file remembers, and `do_compress` takes the file
as it is on the disk. The limit is kept in every run in which the remembered size is on the same side of it.
-/

namespace FuseCompress

/-- A file of so many bytes may be compressed in the background. -/
def Config.UnderLimit (Γ : Config) (size : Nat) : Prop := Γ.dontCompressBeyond = 2 ^ 64 - 1 ∨ size < Γ.dontCompressBeyond

/-- When the file on the disk is not under the limit, the size that its entry remembers is not either. -/
def State.remembersLimit (Γ : Config) (s : State) (f : Nat) : Bool :=
  match s.fs.inoOf (s.files f).filename with
  | none => true
  | some i => decide ((s.data i).length < Γ.dontCompressBeyond) || decide (Γ.dontCompressBeyond ≤ asU64 (s.files f).size)

section limit

variable {T : Type} {Γ : Config} {sys sys' : Sys T}

/-- The condition on a step: when `thread_compress` has taken an entry off the queue whose file nobody else uses, which is not deleted
and has no module, the entry remembers whether the file is under the limit. -/
def Sys.remembersLimit (Γ : Config) (sys : Sys T) : Label T → Bool
  | .worker _ =>
    match sys.worker with
    | .dequeued f false =>
      !(decide ((sys.shared.files f).accesses = 1) && !(sys.shared.files f).deleted && (sys.shared.files f).compressor.isNone) ||
        Γ.dontCompressBeyond = 2 ^ 64 - 1 || sys.shared.remembersLimit Γ f
    | _ => true
  | _ => true

/-- What the background thread has begun to compress, and what it puts in place, is under the limit. -/
structure Sys.KeepsLimit (Γ : Config) (sys : Sys T) : Prop where
  begun : ∀ job got eof, sys.worker = .compressing job got eof → Γ.UnderLimit job.size
  installed : ∀ job got eof env s', sys.worker = .compressing job got eof →
    doCompressEnd Γ env sys.shared job got eof = (s', true) → Γ.UnderLimit got.length

/-- What is put in place has the length that `do_compress` has sampled. -/
theorem Sys.KeepsLimit.of_begun (h : ∀ job got eof, sys.worker = .compressing job got eof → Γ.UnderLimit job.size) :
    sys.KeepsLimit Γ := by
  refine ⟨h, fun job got eof env s' hw hend => ?_⟩
  have hlength : got.length = job.size := by
    unfold doCompressEnd at hend
    dsimp only at hend
    split at hend
    · cases hend
    · rename_i hdone
      rw [not_or, not_or] at hdone
      exact Decidable.not_not.mp hdone.2.1
  rw [hlength]
  exact h job got eof hw

/-- `do_compress` finds a file that is under the limit when its entry says so and remembers it. -/
theorem doCompressBegin_underLimit {env : Env} {s s' : State} {f : Nat} {job : Job} (hnow : compressNow Γ (s.files f) = true)
    (hknown : Γ.dontCompressBeyond ≠ 2 ^ 64 - 1 → s.remembersLimit Γ f = true)
    (h : doCompressBegin Γ env s f = (s', some job)) : Γ.UnderLimit job.size := by
  obtain ⟨-, hino, hsize, -⟩ := doCompressBegin_job h
  by_cases hlimit : Γ.dontCompressBeyond = 2 ^ 64 - 1
  · exact Or.inl hlimit
  · right
    have hremembers := hknown hlimit
    unfold State.remembersLimit at hremembers
    rw [hino] at hremembers
    unfold compressNow at hnow
    simp only [Bool.and_eq_true, Bool.or_eq_true, decide_eq_true_eq] at hnow hremembers
    rw [hsize]
    rcases hremembers with hlt | hge
    · exact hlt
    · rcases hnow.2 with hnone | hlt
      · exact absurd hnone hlimit
      · omega

/-- A step of the background thread from an entry off the queue. -/
theorem workerProcess_underLimit {env : Env} {s s' : State} {f : Nat} {isDedup : Bool} {job : Job} {got : Bytes} {eof : Bool}
    (hknown : isDedup = false → (s.files f).accesses = 1 → (s.files f).deleted = false → (s.files f).compressor = none →
      Γ.dontCompressBeyond ≠ 2 ^ 64 - 1 → s.remembersLimit Γ f = true)
    (h : workerProcess Γ env s f isDedup = (s', .compressing job got eof)) : Γ.UnderLimit job.size := by
  unfold workerProcess at h
  dsimp only at h
  split at h
  · split at h <;> cases h
  · rename_i hcompress
    split at h
    · rename_i hnow
      rw [State.files_assert] at hnow
      cases hbegin : doCompressBegin Γ env (s.assert Γ (decide ((s.files f).accesses > 0))) f with
      | mk s₁ r =>
        rw [hbegin] at h
        cases r with
        | none => cases h
        | some job' =>
          cases h
          refine doCompressBegin_underLimit (by rw [State.files_assert]; exact hnow) (fun hlimit => ?_) hbegin
          unfold compressNow at hnow
          simp only [Bool.and_eq_true, Bool.not_eq_true', decide_eq_true_eq, Option.isNone_iff_eq_none] at hnow
          have hremembers := hknown (Bool.eq_false_iff.mpr hcompress) hnow.1.1.1 hnow.1.1.2 hnow.1.2 hlimit
          unfold State.remembersLimit at hremembers ⊢
          simpa using hremembers
    · cases h

variable [DecidableEq T]

/-- A step keeps the limit. -/
theorem Sys.KeepsLimit.step (h : sys.KeepsLimit Γ) {l : Label T} (hok : sys.remembersLimit Γ l = true)
    (hs : Sys.step Γ sys l = some sys') : sys'.KeepsLimit Γ := by
  have hsame : sys'.worker = sys.worker → sys'.KeepsLimit Γ := by
    intro hworker
    exact .of_begun (fun job got eof hw => h.begun job got eof (hworker ▸ hw))
  cases l with
  | request t r =>
    rw [Sys.step] at hs
    split at hs
    · split at hs
      · cases hs
      · cases hs
        exact hsame rfl
    · cases hs
  | client t env =>
    rw [Sys.step] at hs
    split at hs
    · cases hs
    · obtain ⟨r, -, rfl⟩ := Option.map_eq_some_iff.mp hs
      exact hsame rfl
  | tick =>
    cases hs
    exact hsame rfl
  | worker env =>
    rw [Sys.step] at hs
    split at hs
    · cases hs
    · obtain ⟨⟨s', pc⟩, hstep, rfl⟩ := Option.map_eq_some_iff.mp hs
      refine .of_begun (fun job got eof hw => ?_)
      have hw : pc = .compressing job got eof := hw
      subst hw
      cases hworker : sys.worker with
      | idle =>
        rw [hworker, workerStep] at hstep
        obtain ⟨r, -, hr⟩ := Option.map_eq_some_iff.mp hstep
        cases hr
      | dequeued f isDedup =>
        rw [hworker, workerStep] at hstep
        split at hstep
        · refine workerProcess_underLimit (fun hcompress hone hdeleted hraw hlimit => ?_) (Option.some.inj hstep)
          unfold Sys.remembersLimit at hok
          subst hcompress
          rw [hworker] at hok
          simp only [hone, hdeleted, hraw, decide_true, Bool.not_false, Option.isNone_none, Bool.and_self, Bool.not_true,
            Bool.false_or, Bool.or_eq_true, decide_eq_true_eq] at hok
          exact hok.resolve_left hlimit
        · cases hstep
      | compressing job' got' eof' =>
        rw [hworker, workerStep] at hstep
        split at hstep
        · cases hstep
          exact h.begun _ _ _ hworker
        · split at hstep <;> cases hstep
      | hashing f pc =>
        have hgo : (if sys.shared.freed f then none
            else let r := hashStep Γ env sys.shared (sys.shared.files f).filename pc; some (r.1, WorkerPc.hashing f r.2)) =
              some (s', .compressing job got eof) → Γ.UnderLimit job.size := by
          intro hgo
          split at hgo <;> cases hgo
        rw [hworker] at hstep
        cases pc with
        | finished hash =>
          rw [workerStep] at hstep
          split at hstep <;> cases hstep
        | start => exact hgo hstep
        | raw ino got => exact hgo hstep
        | packed ino m got => exact hgo hstep

/-- In every run whose entries remember whether their file is under the limit when `thread_compress` comes to them, nothing is
compressed in the background that is not under the limit. -/
theorem maxcompress_respected (Γ : Config) {fs : Backing} {ls : List (Label T)} {sys : Sys T}
    (h : Run (Sys.step Γ) (fun sys l => sys.remembersLimit Γ l = true) (Sys.mounted fs) ls sys) : sys.KeepsLimit Γ := by
  refine h.invariant (I := Sys.KeepsLimit Γ) (fun _ _ _ hk hok hs => hk.step hok hs) (.of_begun (fun job got eof hw => ?_))
  cases hw

end limit

/-! ## What the entry remembers

The remembered size of a raw file is out of date after a write by which the file grows, through whichever of its names that is made,
and after a `getattr` whose `lstat` was made before the file grew. An `open` and a `truncate` through the entry put it right. -/

section Remembers

variable {Γ : Config} {env : Env} {s s' : State} {f i : Nat}

theorem State.remembersLimit_iff (hi : s.fs.inoOf (s.files f).filename = some i) :
    s.remembersLimit Γ f = true ↔ (s.data i).length < Γ.dontCompressBeyond ∨ Γ.dontCompressBeyond ≤ asU64 (s.files f).size := by
  unfold State.remembersLimit
  rw [hi]
  simp only [Bool.or_eq_true, decide_eq_true_eq]

/-- The entry remembers the length of the file. -/
theorem State.remembersLimit_of_size (hi : s.fs.inoOf (s.files f).filename = some i) (hsize : (s.files f).size = (s.data i).length)
    (hlength : (s.data i).length < 2 ^ 64) : s.remembersLimit Γ f = true := by
  rw [State.remembersLimit_iff hi, hsize, asU64_of_nat hlength]
  exact Nat.lt_or_ge _ _

/-- `fusecompress_open` finds out the length of a raw file. -/
theorem remembersLimit_openFile {full : Filename} {writable : Bool} {d : Nat} (hname : (s.files f).filename = full)
    (hi : s.fs.inoOf full = some i) (hraw : parse Γ (s.data i) = none) (hlength : (s.data i).length < 2 ^ 64)
    (hopened : (openFile Γ env s f full writable).2 = .opened d) :
    (openFile Γ env s f full writable).1.remembersLimit Γ f = true := by
  have hdone : ∀ (c : Option Module) (pos : Nat),
      (openDescriptor ((noteLinks s f i).modFile f (fun file => { file with compressor := c })) f i pos writable
        (s.data i).length).1.remembersLimit Γ f = true := by
    intro c pos
    refine State.remembersLimit_of_size (i := i) ?_ ?_ hlength
    · simpa [openDescriptor, noteLinks, hname] using hi
    · simp only [openDescriptor, State.files_modFile, if_true]
      rfl
  unfold openFile at hopened ⊢
  by_cases hopen : env.ok .open = true
  · rw [if_pos hopen, hi] at hopened ⊢
    dsimp only at hopened ⊢
    by_cases hfstat : env.ok .fstat = false
    · rw [if_pos hfstat] at hopened
      cases hopened
    · rw [if_neg hfstat] at hopened ⊢
      have hsize : (noteLinks s f i).data i = s.data i := rfl
      rw [hsize] at hopened ⊢
      split at hopened
      · rename_i hlong
        rw [if_pos hlong]
        by_cases hread : env.ok .readHeader = false
        · rw [if_pos hread] at hopened
          cases hopened
        · rw [if_neg hread, fileReadHeader_of_parse_none hraw]
          exact hdone _ _
      · rename_i hshort
        rw [if_neg hshort]
        exact hdone _ _
  · rw [if_neg hopen] at hopened
    cases hopened

/-- The length is known after `truncate(2)`. -/
theorem remembersLimit_truncateFile {full : Filename} {size : Nat} (hname : (s.files f).filename = full)
    (hi : s.fs.inoOf full = some i) (hsize : size < 2 ^ 64) (hok : (truncateFile env s f full size).2 = .ok) :
    (truncateFile env s f full size).1.remembersLimit Γ f = true := by
  unfold truncateFile at hok ⊢
  split at hok
  · cases hok
  · rename_i i' hi'
    split at hi'
    · rename_i hcalls
      cases hi'.symm.trans hi
      have hlength : ((s.withFs (fun b => b.setData i (Bytes.resize (b.inodes i).data size))).data i).length = size := by
        rw [State.data, State.fs_withFs, Backing.data_setData, if_pos rfl, Bytes.length_resize]
      refine State.remembersLimit_of_size (i := i) ?_ ?_ ?_
      · simpa [hname] using hi
      · rw [State.files_modFile, if_pos rfl, State.data_modFile, hlength]
      · rw [State.data_modFile, hlength]
        exact hsize
    · cases hi'

/-- `fusecompress_getattr` of a raw file whose size is unknown makes its entry remember what `lstat` has found, before the lock. -/
theorem remembersLimit_getattrLocked_iff {full : Filename} {st : Stat} (hname : (s.files f).filename = full)
    (hi : s.fs.inoOf full = some i) (hraw : parse Γ (s.data i) = none) (hsize : (s.files f).size = -1)
    (hok : ∃ st', (getattrLocked Γ env s f full st).2 = .stat st') :
    (getattrLocked Γ env s f full st).1.remembersLimit Γ f = true ↔
      (s.data i).length < Γ.dontCompressBeyond ∨ Γ.dontCompressBeyond ≤ asU64 st.size := by
  have hset : ∀ (s₁ : State), s₁.fs = s.fs → (s₁.files f).filename = (s.files f).filename →
      ((s₁.modFile f (fun file => { file with size := st.size })).remembersLimit Γ f = true ↔
        (s.data i).length < Γ.dontCompressBeyond ∨ Γ.dontCompressBeyond ≤ asU64 st.size) := by
    intro s₁ hfs hfile
    rw [State.remembersLimit_iff (i := i) (by simpa [hfile, hfs, hname] using hi), State.data_modFile, State.files_modFile, if_pos rfl]
    rw [show s₁.data i = s.data i from congrArg (fun b => (Backing.inodes b i).data) hfs]
  obtain ⟨st', hok⟩ := hok
  unfold getattrLocked at hok ⊢
  dsimp only at hok ⊢
  rw [if_pos hsize] at hok ⊢
  by_cases hlong : headerSize ≤ asU64 st.size
  · rw [if_pos hlong] at hok ⊢
    by_cases hcalls : env.ok .open = true ∧ env.ok .readHeader = true
    · rw [if_pos hcalls, hi] at hok ⊢
      dsimp only at hok ⊢
      by_cases hclose : env.ok .close = false
      · rw [if_pos hclose] at hok
        cases hok
      · rw [if_neg hclose, fileReadHeader_of_parse_none hraw]
        exact hset _ rfl (by simp)
    · rw [if_neg hcalls] at hok
      cases hok
  · rw [if_neg hlong]
    exact hset s rfl rfl

/-- A raw write may make the file longer, and no entry takes notice: neither the one written through nor those of other names. -/
theorem remembersLimit_pwriteFd_iff {fd : Fd} {buf : Bytes} {offset : Nat} (hi : s.fs.inoOf (s.files f).filename = some fd.ino)
    (hok : env.ok .pwrite = true) :
    (pwriteFd env s (some fd) buf offset).1.remembersLimit Γ f = true ↔
      (Bytes.overwrite (s.data fd.ino) offset buf).length < Γ.dontCompressBeyond ∨
        Γ.dontCompressBeyond ≤ asU64 (s.files f).size := by
  have hdata : ((pwriteFd env s (some fd) buf offset).1.data fd.ino) = Bytes.overwrite (s.data fd.ino) offset buf := by
    unfold pwriteFd
    rw [if_pos hok]
    dsimp only
    split
    · rename_i hnil
      rw [hnil, Bytes.overwrite, if_pos rfl]
    · rw [State.data, State.fs_withFs, Backing.data_setData, if_pos rfl]
      rfl
  have hsame : (pwriteFd env s (some fd) buf offset).1.files f = s.files f ∧
      (pwriteFd env s (some fd) buf offset).1.fs.inoOf (s.files f).filename = s.fs.inoOf (s.files f).filename := by
    unfold pwriteFd
    rw [if_pos hok]
    dsimp only
    split
    · exact ⟨rfl, rfl⟩
    · exact ⟨rfl, rfl⟩
  rw [State.remembersLimit_iff (i := fd.ino) (by rw [hsame.1, hsame.2]; exact hi), hdata, hsame.1]

/-- What writes nothing leaves a size as it is or makes it unknown, and an unknown size is not under any limit. -/
theorem State.remembersLimit_of_calm {w : Option Nat} (h : s.remembersLimit Γ f = true) (hc : Calm w s s') (hk : s.KeepsAll s')
    (hf : f < s.nextFile) (hlimit : Γ.dontCompressBeyond < 2 ^ 64) : s'.remembersLimit Γ f = true := by
  unfold State.remembersLimit at h ⊢
  have hdata : ∀ i, s'.data i = s.data i := fun i => congrArg (fun b => (Backing.inodes b i).data) hc.fs
  rw [hc.filename f hf, hc.fs]
  split
  · rfl
  · rename_i i hi
    rw [hi] at h
    dsimp only at h
    rw [hdata]
    rcases (hk f).size with hsize | hsize
    · rw [hsize]
      exact h
    · rw [Bool.or_eq_true, decide_eq_true_eq, decide_eq_true_eq, hsize]
      exact Or.inr (Nat.le_of_lt_succ hlimit)

/-- A request that fails makes the size unknown. -/
theorem remembersLimit_invalidateSize (h : s.remembersLimit Γ f = true) (hf : f < s.nextFile) (hlimit : Γ.dontCompressBeyond < 2 ^ 64)
    (g : Nat) : (invalidateSize s g).remembersLimit Γ f = true :=
  State.remembersLimit_of_calm h (calm_invalidateSize (w := none) s g) (keepsAll_invalidateSize s g) hf hlimit

end Remembers

/-! ## A file that grows -/

/-- A mount on which files of two bytes and more are not compressed in the background. -/
def Config.twoBytes : Config := { Config.anySize with dontCompressBeyond := 2 }

theorem maxcompress_respected_compressOne : ∃ sys : Sys (Fin 1),
    Run (Sys.step .twoBytes) (fun sys l => sys.remembersLimit .twoBytes l = true) (Sys.mounted .oneFile) (compressOne 0) sys ∧
      sys.installs .twoBytes .fine = true ∧ sys.KeepsLimit .twoBytes := by
  obtain ⟨sys, h, hend⟩ := Run.exists_of_executeIf (show (executeIf (Sys.step .twoBytes)
    (fun sys l => sys.remembersLimit .twoBytes l = true) (Sys.mounted .oneFile : Sys (Fin 1)) (compressOne 0)).any
      (Sys.installs .twoBytes .fine) = true by decide +kernel)
  exact ⟨sys, h, hend, maxcompress_respected .twoBytes h⟩

/-- A file of one byte is opened and gets two bytes more behind it. Its entry goes on saying that it has one. -/
def growOne {T : Type} (t : T) : List (Label T) :=
  [.request t (.open ['a'] true), .client t .fine,
   .request t (.desc 0 (.write [121, 122] 1)), .client t .fine, .client t .fine, .client t .fine,
   .request t (.desc 0 .release), .client t .fine,
   .request t .purge, .client t .fine, .client t .fine, .client t .fine,
   .worker .fine, .worker .fine, .worker .fine, .worker .fine]

/-- The background thread is about to put a compressed file in place that is not under the limit. -/
def Sys.installsBeyond {T : Type} (Γ : Config) (env : Env) (sys : Sys T) : Bool :=
  match sys.worker with
  | .compressing job got eof => (doCompressEnd Γ env sys.shared job got eof).2 && decide (Γ.dontCompressBeyond ≤ got.length)
  | _ => false

/-- The file is compressed although it has three bytes. -/
theorem growOne_not_keepsLimit :
    ¬∀ (Γ : Config) (fs : Backing) (ls : List (Label (Fin 1))) (sys : Sys (Fin 1)),
      Run (Sys.step Γ) (fun _ _ => True) (Sys.mounted fs) ls sys → sys.KeepsLimit Γ := by
  intro h
  obtain ⟨sys, hrun, hend⟩ := Run.exists_of_executeIf (show (executeIf (Sys.step .twoBytes)
    (fun _ _ => True) (Sys.mounted .oneFile : Sys (Fin 1)) (growOne 0)).any (Sys.installsBeyond .twoBytes .fine) = true by
      decide +kernel)
  have hkeeps := h .twoBytes .oneFile (growOne 0) sys hrun
  unfold Sys.installsBeyond at hend
  split at hend
  · rename_i job got eof hw
    rw [Bool.and_eq_true, decide_eq_true_eq] at hend
    rcases hkeeps.installed job got eof .fine _ hw (Prod.ext rfl hend.1) with hnone | hlt
    · exact absurd hnone (by decide)
    · exact absurd hend.2 (Nat.not_le_of_lt hlt)
  · cases hend

end FuseCompress
