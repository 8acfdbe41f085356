import FuseCompress.Lemmas.Frames

/-!
# The books after each critical section

For every function that runs between taking a lock and giving it back, what it does to the books.
-/

namespace FuseCompress

variable (Γ : Config) (env : Env) (s : State) (f d : Nat)

/-! ## Requests -/

@[simp] theorem books_getattrMagic (full : Filename) : (getattrMagic s full).1.books = s.books := by
  unfold getattrMagic
  split
  · rfl
  split
  · rfl
  split <;> rfl

/-- `fusecompress_getattr` remembers what the header says, which is not in the books. -/
@[simp] theorem books_getattrLocked (full : Filename) (st : Stat) : (getattrLocked Γ env s f full st).1.books = s.books := by
  unfold getattrLocked
  dsimp only
  split
  · split
    · split
      · rfl
      · split <;> simp
    · simp
  · split <;> rfl

@[simp] theorem books_mknodLocked (full : Filename) (mode uid gid : Nat) :
    (mknodLocked env s full mode uid gid).1.books = s.books := by
  unfold mknodLocked
  split <;> rfl

@[simp] theorem books_unlinkLocked (full : Filename) : (unlinkLocked Γ env s f full).1.books = s.books := by
  unfold unlinkLocked
  dsimp only
  split
  · rw [books_directDelete]
    exact books_discard Γ s f
  · exact books_discard Γ s f

/-- The decompression that `fusecompress_link` and `fusecompress_truncate` ask for. -/
theorem acked_ensureRaw : s.books.Acked f (ensureRaw Γ env s f).1.books := by
  unfold ensureRaw
  split
  · exact .same
  · exact acked_doDecompress Γ env s f

theorem acked_linkLocked : s.books.Acked f (linkLocked Γ env s f).1.books := by
  have h := acked_ensureRaw Γ env s f
  unfold linkLocked
  split
  · rename_i s₁ e
    rw [e] at h
    simpa using h
  · rename_i s₁ e
    rw [e] at h
    exact h

@[simp] theorem books_linkCall (src dst : Filename) : (linkCall env s src dst).1.books = s.books := by
  unfold linkCall
  split <;> rfl

@[simp] theorem books_truncateClose (ds : List Nat) : (truncateClose Γ env s f ds).books = s.books := by
  induction ds generalizing s with
  | nil => rfl
  | cons d ds ih => simp [truncateClose, ih]

@[simp] theorem books_truncateFile (full : Filename) (size : Nat) : (truncateFile env s f full size).1.books = s.books := by
  unfold truncateFile
  split <;> simp

/-- `fusecompress_truncate` calls `do_decompress` for a file that is not cut to nothing. -/
theorem acked_truncateLocked (full : Filename) (size : Nat) :
    s.books.Acked f (truncateLocked Γ env s f full size).1.books := by
  unfold truncateLocked
  dsimp only
  split
  · have h := acked_ensureRaw Γ env (discard Γ s f) f
    rw [books_discard] at h
    split
    · rename_i s₁ e
      rw [e] at h
      rw [books_truncateFile]
      exact h
    · rename_i s₁ e
      rw [e] at h
      exact h
  split
  · exact Or.inl (by simp)
  · exact Or.inl (by simp)

/-- `file_open` makes a descriptor or fails. -/
theorem books_openFile (full : Filename) (writable : Bool) :
    ((openFile Γ env s f full writable).1.books = s.books ∧ (openFile Γ env s f full writable).2 = .fail) ∨
      ((openFile Γ env s f full writable).1.books = s.books.openDesc f writable ∧
        (openFile Γ env s f full writable).2 = .opened s.nextDesc) := by
  have hopen : ∀ (s₁ : State) (i pos : Nat) (size : Int), s₁.books = s.books →
      (openDescriptor s₁ f i pos writable size).1.books = s.books.openDesc f writable ∧
        (openDescriptor s₁ f i pos writable size).2 = .opened s.nextDesc := by
    intro s₁ i pos size h
    have hn : s₁.nextDesc = s.nextDesc := congrArg Books.nextDesc h
    refine ⟨?_, by rw [← hn]; rfl⟩
    rw [← h]
    unfold openDescriptor State.books Books.openDesc Books.count State.modFile
    dsimp only
    congr 1 <;> funext x <;> simp only [Function.update_apply] <;> split <;> simp_all
  unfold openFile
  split
  · exact Or.inl ⟨rfl, rfl⟩
  · rename_i i _
    split
    · exact Or.inl ⟨by simp, rfl⟩
    · have h₂ : (noteLinks s f i).books = s.books := by
        unfold noteLinks
        simp
      dsimp only
      split
      · split
        · exact Or.inl ⟨by simpa using h₂, rfl⟩
        · exact Or.inr (hopen _ _ _ _ (by simpa using h₂))
      · exact Or.inr (hopen _ _ _ _ (by simpa using h₂))

@[simp] theorem books_openUndedup (writable : Bool) : (openUndedup Γ env s f writable).1.books = s.books := by
  unfold openUndedup
  split
  · exact books_doUndedup Γ env s f
  · rfl

/-- Opening a file makes a descriptor or fails. -/
theorem books_openLocked (full : Filename) (writable : Bool) :
    ((openLocked Γ env s f full writable).1.books = s.books ∧ (openLocked Γ env s f full writable).2 = .fail) ∨
      ((openLocked Γ env s f full writable).1.books = s.books.openDesc f writable ∧
        (openLocked Γ env s f full writable).2 = .opened s.nextDesc) := by
  have hr := books_openUndedup Γ env s f writable
  unfold openLocked
  split
  · rename_i s₁ e
    rw [e] at hr
    have hbooks : s₁.books = s.books := hr
    have hnext : s₁.nextDesc = s.nextDesc := congrArg Books.nextDesc hr
    have hfile := books_openFile Γ env s₁ f full writable
    rw [hbooks, hnext] at hfile
    exact hfile
  · rename_i s₁ e
    rw [e] at hr
    exact Or.inl ⟨hr, rfl⟩

/-- `fusecompress_read` up to its call of `pread`. -/
theorem acked_readLocked (size offset : Nat) : s.books.Acked f (readLocked Γ env s f d size offset).1.books := by
  unfold readLocked
  split
  · exact acked_directDecompress Γ env s _ f d size offset
  · exact .same

@[simp] theorem books_invalidateSize : (invalidateSize s f).books = s.books := by
  unfold invalidateSize
  simp

@[simp] theorem books_writeChoose (offset : Nat) : (writeChoose Γ s f offset).books = s.books := by
  unfold writeChoose
  simp

/-- `fusecompress_write` up to its call of `pwrite`. -/
theorem acked_writeLocked (buf : Bytes) (offset : Nat) : s.books.Acked f (writeLocked Γ env s f d buf offset).1.books := by
  unfold writeLocked
  dsimp only
  generalize hs : writeChoose Γ _ f offset = s₁
  have h₁ : s₁.books = s.books := by
    rw [← hs, books_writeChoose, books_discard]
  split
  · rename_i m _
    have h₂ := acked_directCompress Γ env s₁ m f d buf offset
    rw [h₁] at h₂
    exact h₂
  · exact Or.inl h₁

@[simp] theorem books_pwriteFd (fd : Option Fd) (buf : Bytes) (offset : Nat) :
    (pwriteFd env s fd buf offset).1.books = s.books := by
  unfold pwriteFd
  split
  · rfl
  · dsimp only
    split <;> rfl

@[simp] theorem books_utimeLocked (full : Filename) (c : AttrChange) : (utimeLocked Γ env s full c).1.books = s.books := rfl

/-- Taking and giving back the lock of an entry. -/
theorem books_setLocked (b : Bool) : (s.modFile f (fun file => { file with locked := b })).books =
    { s.books with locked := Function.update s.books.locked f b } := by
  unfold State.books State.modFile
  dsimp only
  congr 1 <;> funext x <;> simp only [Function.update_apply] <;> split <;> simp_all

@[simp] theorem books_lock : (s.lock f).books = s.books.lock f := books_setLocked s f true

@[simp] theorem books_unlock : (s.unlock f).books = s.books.unlock f := books_setLocked s f false

/-- Taking an access off an entry. -/
theorem books_count (k : Int) :
    (s.modFile f (fun file => { file with accesses := file.accesses + k })).books = s.books.count f k := by
  unfold State.books Books.count State.modFile
  dsimp only
  congr 1 <;> funext x <;> simp only [Function.update_apply] <;> split <;> simp_all

/-- Changing the list of descriptors of an entry. -/
theorem books_setHead (g : List Nat → List Nat) :
    (s.modFile f (fun file => { file with head := g file.head })).books =
      { s.books with head := Function.update s.books.head f (g (s.books.head f)) } := by
  unfold State.books State.modFile
  dsimp only
  congr 1 <;> funext x <;> by_cases e : x = f
  all_goals
    first
    | subst e; simp only [Function.update_self]
    | simp only [Function.update_of_ne e]

/-- Freeing a descriptor. -/
theorem books_freeDesc : (s.modDesc d (fun desc => { desc with fd := none, live := false })).books =
    { s.books with live := Function.update s.books.live d false } := by
  unfold State.books State.modDesc
  dsimp only
  congr 1 <;> funext x <;> by_cases e : x = d
  all_goals
    first
    | subst e; simp only [Function.update_self]
    | simp only [Function.update_of_ne e]

/-- `fusecompress_release` takes the descriptor off the list of its entry. -/
theorem books_releaseLocked : (releaseLocked Γ env s f d).1.books = s.books.release f d := by
  have h₁ : (releaseClose Γ env s f d).books = s.books := by
    unfold releaseClose
    split <;> simp
  have ho : ((releaseClose Γ env s f d).descs d).file = s.books.owner d := congrFun (congrArg Books.owner h₁) d
  unfold releaseLocked
  dsimp only
  rw [books_freeDesc]
  simp only [sub_eq_add_neg]
  rw [books_count, ho, books_setHead _ _ (fun l => l.erase d), h₁]
  rfl

/-! ## Renaming -/

theorem files_moveDescs (dst : Nat) (ds : List Nat) : (moveDescs s dst ds).files = s.files := by
  induction ds generalizing s with
  | nil => rfl
  | cons d ds ih => rw [moveDescs, ih, State.files_modDesc]

/-- The descriptors on the list of the source belong to the target from now on. -/
theorem descs_moveDescs (dst : Nat) (ds : List Nat) (d : Nat) :
    (moveDescs s dst ds).descs d = if d ∈ ds then { s.descs d with file := dst } else s.descs d := by
  induction ds generalizing s with
  | nil => simp [moveDescs]
  | cons d' ds ih =>
    rw [moveDescs, ih, State.descs_modDesc]
    by_cases e : d = d'
    · subst e
      simp
    · simp [e]

/-- The descriptors of a list get another owner. -/
theorem books_moveDescs (dst : Nat) (ds : List Nat) :
    (moveDescs s dst ds).books = { s.books with owner := fun d => if d ∈ ds then dst else s.books.owner d } := by
  have hrest : (moveDescs s dst ds).comp = s.comp ∧ (moveDescs s dst ds).nextFile = s.nextFile ∧
      (moveDescs s dst ds).nextDesc = s.nextDesc ∧ (moveDescs s dst ds).database = s.database ∧
      (moveDescs s dst ds).entries = s.entries ∧ (moveDescs s dst ds).freed = s.freed := by
    induction ds generalizing s with
    | nil => exact ⟨rfl, rfl, rfl, rfl, rfl, rfl⟩
    | cons d ds ih => exact ih (s.modDesc d _)
  obtain ⟨h1, h2, h3, h4, h5, h6⟩ := hrest
  unfold State.books
  simp only [files_moveDescs, descs_moveDescs, h1, h2, h3, h4, h5, h6]
  congr 1 <;> funext d <;> split <;> rfl

/-- Setting the status of an entry, with other fields that are not in the books. -/
theorem books_setStatus (g : FileT → FileT) (st : Status)
    (h : ∀ x, (g x).filename = x.filename ∧ (g x).accesses = x.accesses ∧ (g x).head = x.head ∧ (g x).cond = x.cond ∧
      (g x).locked = x.locked)
    (hst : (g (s.files f)).status = st) : (s.modFile f g).books = s.books.setStatus f st := by
  ext x
  all_goals try rfl
  all_goals
    by_cases e : x = f
    · subst e
      simp [State.books, Books.setStatus, h, hst]
    · simp [State.books, Books.setStatus, e]

theorem books_inheritInfo (src dst : Nat) : (inheritInfo s src dst).books = s.books.setStatus dst (s.books.status src) := by
  unfold inheritInfo
  exact books_setStatus s dst _ _ (by simp) rfl

/-- Changing the list of descriptors and the count of an entry. -/
theorem books_setHeadCount (l : List Nat → List Nat) (k : Int) :
    (s.modFile f (fun file => { file with head := l file.head, accesses := file.accesses + k })).books =
      { s.books.count f k with head := Function.update s.books.head f (l (s.books.head f)) } := by
  have h := books_setHead (s.modFile f (fun file => { file with accesses := file.accesses + k })) f l
  rw [books_count] at h
  have e : (s.modFile f (fun file => { file with accesses := file.accesses + k })).modFile f
      (fun file => { file with head := l file.head }) =
      s.modFile f (fun file => { file with head := l file.head, accesses := file.accesses + k }) := by
    simp [State.modFile]
  rw [e] at h
  exact h

theorem books_moveHead (src dst : Nat) (hne : src ≠ dst) : (moveHead s src dst).books = s.books.moveHead src dst := by
  unfold moveHead
  dsimp only
  simp only [sub_eq_add_neg]
  rw [books_setHeadCount _ _ (fun l => (s.files src).head.reverse ++ l), books_setHeadCount _ _ (fun _ => []),
    books_moveDescs]
  have e : Function.update s.books.head src [] dst = s.books.head dst := Function.update_of_ne (Ne.symm hne) _ _
  unfold Books.moveHead
  rw [← e]
  rfl

theorem books_moveQueue (src dst : Nat) : (moveQueue s src dst).books = s.books.moveQueue src dst := by
  unfold moveQueue
  dsimp only
  simp only [sub_eq_add_neg]
  rw [books_count, books_count]
  rfl

/-- `direct_rename` is one change of the books. -/
theorem books_directRename {src dst : Nat} (hne : src ≠ dst) :
    (directRename Γ s src dst).books = s.books.rename src dst := by
  unfold directRename
  dsimp only
  rw [books_directDelete, books_assert, books_moveQueue, books_moveHead _ _ _ hne, books_inheritInfo, books_flushFileCache]
  rfl

/-- `rename` succeeds when its system call does. -/
theorem renameLocked_ok {src dst : Nat} : (renameLocked Γ env s src dst).2 = .ok ↔
    (sysRename Γ env s.fs (s.files src).filename (s.files dst).filename).2 = true := by
  have hname : ∀ (g : Nat), ((s.modFile src (fun file => { file with accesses := file.accesses - 1 })).modFile dst
      (fun file => { file with accesses := file.accesses - 1 })).files g =
      { s.files g with accesses := (((s.modFile src (fun file => { file with accesses := file.accesses - 1 })).modFile dst
        (fun file => { file with accesses := file.accesses - 1 })).files g).accesses } := by
    intro g
    by_cases e : g = dst <;> by_cases e' : g = src <;> simp [e, e', State.modFile, Function.update_apply] <;> split <;> simp_all
  unfold renameLocked
  dsimp only
  rw [hname src, hname dst]
  split
  · rename_i b e
    rw [State.fs_modFile, State.fs_modFile] at e
    rw [e]
    simp
  · rename_i b e
    rw [State.fs_modFile, State.fs_modFile] at e
    rw [e]
    simp

/-- `rename` gives back its two accesses, and on success the descriptors and queue entries move. -/
theorem books_renameLocked {src dst : Nat} (hne : src ≠ dst) :
    ((renameLocked Γ env s src dst).1.books = (s.books.count src (-1)).count dst (-1) ∧
        (renameLocked Γ env s src dst).2 = .fail) ∨
      ((renameLocked Γ env s src dst).1.books = ((s.books.count src (-1)).count dst (-1)).rename src dst ∧
        (renameLocked Γ env s src dst).2 = .ok) := by
  unfold renameLocked
  dsimp only
  simp only [sub_eq_add_neg]
  generalize hs : (s.modFile src _).modFile dst _ = s₁
  have h₁ : s₁.books = (s.books.count src (-1)).count dst (-1) := by
    rw [← hs, books_count, books_count]
  split
  · rename_i b _
    refine Or.inr ⟨?_, rfl⟩
    rw [books_directRename Γ _ hne]
    have h₂ : (if Γ.dedupEnabled = true then dedupRename { s₁ with fs := b } src dst else { s₁ with fs := b }).books =
        s₁.books := by
      split
      · exact books_dedupRename { s₁ with fs := b } src dst
      · rfl
    rw [h₂, h₁]
  · exact Or.inl ⟨h₁, rfl⟩

/-! ## The background thread -/

theorem compDequeue_spec {s s' : State} {entry : CompressT} (h : compDequeue s = some (s', entry)) :
    s.comp = entry :: s'.comp ∧ s' = { s with comp := s'.comp, compEntries := s.compEntries - 1 } := by
  unfold compDequeue at h
  split at h
  · cases h
  · rename_i e rest hc
    simp only [Option.some.injEq, Prod.mk.injEq] at h
    obtain ⟨rfl, rfl⟩ := h
    exact ⟨hc, rfl⟩

/-- The background thread has done with the entry. -/
theorem books_compFinish (isDedup : Bool) : (compFinish Γ s f isDedup).books = s.books.count f (-1) := by
  unfold compFinish
  dsimp only
  simp only [sub_eq_add_neg]
  rw [books_count]
  congr 1
  split
  · rfl
  · exact books_discard Γ s f

/-- `do_compress` opens its window on the file, or does nothing to the books. -/
theorem books_doCompressBegin :
    ((doCompressBegin Γ env s f).2 = none ∧ (doCompressBegin Γ env s f).1.books = s.books) ∨
      ∃ job, (doCompressBegin Γ env s f).2 = some job ∧ job.file = f ∧
        (doCompressBegin Γ env s f).1.books = s.books.setStatus f { s.books.status f with compressing := true } := by
  unfold doCompressBegin
  split
  · exact Or.inl ⟨rfl, books_directDelete s f⟩
  · rename_i i _
    dsimp only
    split
    · exact Or.inl ⟨rfl, rfl⟩
    · generalize hs : (if headerSize ≤ (s.data i).length ∧ env.ok .readHeader = true then s.modFile f _ else s) = s₁
      have h₁ : s₁.books = s.books := by
        rw [← hs]
        split <;> simp
      split
      · exact Or.inl ⟨rfl, h₁⟩
      split
      · exact Or.inl ⟨rfl, h₁⟩
      split
      · exact Or.inl ⟨rfl, h₁⟩
      · refine Or.inr ⟨_, rfl, rfl, ?_⟩
        rw [← h₁]
        exact books_setStatus s₁ f (fun file => { file with status := { file.status with compressing := true } }) _
          (by simp) rfl

/-- `do_dedup` sets the status bit before it hashes. -/
theorem books_doDedupBegin : (doDedupBegin s f).books = s.books.setStatus f { s.books.status f with deduping := true } :=
  books_setStatus s f _ _ (by simp) rfl

@[simp] theorem books_doCompressInstall (job : Job) (got : Bytes) : (doCompressInstall Γ env s job got).books = s.books := by
  unfold doCompressInstall
  dsimp only
  split <;> simp

/-- A window closed without a cancellation. -/
theorem closeWindow_of_not_cancel {b : Books} {f : Nat} {clear : Status → Status} (h : (b.status f).cancel = false)
    (hc : (clear (b.status f)).cancel = (b.status f).cancel) :
    b.closeWindow f clear = b.setStatus f (clear (b.status f)) := by
  have hst : { clear (b.status f) with cancel := false } = clear (b.status f) := by
    rw [h] at hc
    rw [← hc]
  unfold Books.closeWindow
  rw [hst, h]
  simp [Books.setStatus]

/-- Setting the status of an entry and counting a broadcast. -/
theorem books_setStatusCond (g : FileT → FileT) (st : Status) (n : Nat)
    (h : ∀ x, (g x).filename = x.filename ∧ (g x).accesses = x.accesses ∧ (g x).head = x.head ∧ (g x).locked = x.locked)
    (hst : (g (s.files f)).status = st) (hn : (g (s.files f)).cond = n) :
    (s.modFile f g).books = { s.books.setStatus f st with cond := Function.update s.books.cond f n } := by
  ext x
  all_goals try rfl
  all_goals
    by_cases e : x = f
    · subst e
      simp [State.books, Books.setStatus, h, hst, hn]
    · simp [State.books, Books.setStatus, e]

/-- However `do_compress` ends, its window is closed and a cancellation is acknowledged. -/
theorem books_doCompressEnd (job : Job) (got : Bytes) (eof : Bool) :
    (doCompressEnd Γ env s job got eof).1.books = s.books.closeWindow job.file Status.endCompressing := by
  have hend : (s.modFile job.file (fun file => { file with status := file.status.endCompressing })).books =
      s.books.setStatus job.file (s.books.status job.file).endCompressing := books_setStatus s job.file _ _ (by simp) rfl
  unfold doCompressEnd
  dsimp only
  by_cases hc : (s.files job.file).status.cancel = true
  · rw [if_pos (Or.inr (Or.inr hc))]
    have hack : ∀ x : FileT, x.status.cancel = true → acknowledgeCancel { x with status := x.status.endCompressing } =
        { x with status := { x.status.endCompressing with cancel := false }, cond := x.cond + 1 } := fun x hx => if_pos hx
    have := books_setStatusCond s job.file
      (fun x => acknowledgeCancel { x with status := x.status.endCompressing })
      { (s.files job.file).status.endCompressing with cancel := false } ((s.files job.file).cond + 1)
      (fun x => by unfold acknowledgeCancel; split <;> exact ⟨rfl, rfl, rfl, rfl⟩) (by rw [hack _ hc]) (by rw [hack _ hc])
    have he : (s.modFile job.file (fun file => { file with status := file.status.endCompressing })).modFile job.file
        acknowledgeCancel = s.modFile job.file (fun x => acknowledgeCancel { x with status := x.status.endCompressing }) := by
      simp [State.modFile]
    rw [he, this]
    unfold Books.closeWindow
    have hb : (s.books.status job.file).cancel = true := hc
    rw [hb]
    rfl
  · have hc' : (s.books.status job.file).cancel = false := by simpa [State.books] using hc
    rw [closeWindow_of_not_cancel hc' rfl, ← hend]
    split
    · rw [books_acknowledgeCancel, if_neg]
      simpa [Status.endCompressing] using hc
    split
    · rfl
    split
    · rfl
    · exact books_doCompressInstall Γ env _ job got

@[simp] theorem books_adoptCompressor (target : Option Filename) : (adoptCompressor Γ env s f target).books = s.books := by
  unfold adoptCompressor
  split
  · rfl
  · split <;> simp

/-- `do_dedup` closes its window, unless the digest could not be computed. -/
theorem books_doDedupEnd (hash : Option (List UInt8)) :
    (doDedupEnd Γ env s f hash).books = if hash = none then s.books else s.books.closeWindow f Status.endDeduping := by
  unfold doDedupEnd
  cases hash with
  | none =>
    rw [if_pos rfl]
    simp
  | some md5 =>
    rw [if_neg (by simp)]
    dsimp only
    split
    · rename_i hc
      have hh := books_hardlinkFile Γ env s md5 (s.files f).filename
      generalize hardlinkFile Γ env s md5 (s.files f).filename = r at hh ⊢
      obtain ⟨s₁, target⟩ := r
      dsimp only at hh ⊢
      have ha : (adoptCompressor Γ env s₁ f target).books = s.books := by rw [books_adoptCompressor, hh]
      rw [closeWindow_of_not_cancel hc rfl, ← ha]
      exact books_setStatus _ f (fun file => { file with deduped := true, status := file.status.endDeduping }) _ (by simp) rfl
    · rename_i hc
      have hb : (s.books.status f).cancel = true := by simpa [State.books] using hc
      rw [books_setStatusCond s f _ { (s.files f).status.endDeduping with cancel := false } ((s.files f).cond + 1) (by simp)
        rfl rfl]
      unfold Books.closeWindow
      rw [hb]
      rfl

@[simp] theorem books_hashStep (name : Filename) (pc : HashPc) : (hashStep Γ env s name pc).1.books = s.books := by
  unfold hashStep
  split
  · split
    · rfl
    · split
      · rfl
      · rfl
      · rfl
      · split <;> rfl
  · dsimp only
    split
    · rfl
    · split <;> rfl
  · split
    · rfl
    · dsimp only
      split <;> rfl
  · rfl

/-! ## The database -/

@[simp] theorem books_directOpenFound : (directOpenFound s f).books = s.books := by
  unfold directOpenFound
  simp

/-- `direct_open` makes a new entry and puts it into the database. -/
theorem books_directOpenAdd (p : Filename) : (directOpenAdd Γ s p).books = s.books.newFile p := by
  ext x
  all_goals try rfl
  all_goals
    by_cases e : x = s.nextFile
    · subst e
      simp [State.books, Books.newFile, directOpenAdd, directNewFile]
    · simp [State.books, Books.newFile, directOpenAdd, e]

theorem books_countAccess : (countAccess s f).books = s.books.count f 1 := books_count s f 1

theorem books_backgroundCompressDedup (isDedup : Bool) :
    (backgroundCompressDedup s f isDedup).books = s.books.enqueue f isDedup := by
  have h := books_count s f 1
  unfold backgroundCompressDedup
  dsimp only
  unfold Books.enqueue
  rw [← h]
  rfl

theorem books_directOpenDelete : (directOpenDelete s f).books = s.books.free f := by
  have h := books_flushFileCache s f
  unfold directOpenDelete
  dsimp only
  unfold Books.free
  rw [← h]
  rfl

/-- What a purge does with an entry nobody uses: queue it or free it. -/
theorem books_purgeFile_unused (force : Bool) (h : (s.files f).accesses = 0) :
    ((wantsCompress Γ env s.fs (s.files f) || wantsDedup Γ (s.files f)) = true ∧
        ∃ isDedup, (purgeFile Γ env force s f).books = s.books.enqueue f isDedup) ∨
      ((wantsCompress Γ env s.fs (s.files f) || wantsDedup Γ (s.files f)) = false ∧
        (purgeFile Γ env force s f).books = (s.books.detach f).free f) := by
  unfold purgeFile
  dsimp only
  rw [if_pos h]
  split
  · rename_i hw
    exact Or.inl ⟨by simp [hw], false, books_backgroundCompressDedup s f false⟩
  · split
    · rename_i hw
      exact Or.inl ⟨by simp [hw], true, books_backgroundCompressDedup s f true⟩
    · rename_i hw hw'
      exact Or.inr ⟨by simp [hw, hw'], books_directOpenDelete (detach s f) f⟩

/-- What a purge does with an entry in use: nothing, or take it out of the database all the same. -/
theorem books_purgeFile_used (force : Bool) (h : (s.files f).accesses ≠ 0) :
    (purgeFile Γ env force s f).books = if force then s.books.detach f else s.books := by
  unfold purgeFile
  dsimp only
  rw [if_neg h]
  split <;> rfl

end FuseCompress
