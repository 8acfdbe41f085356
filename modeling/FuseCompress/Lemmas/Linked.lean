import FuseCompress.HardLinks
import FuseCompress.Lemmas.Standing

/-!
# What is left of a linked file

Two names of one inode show the same as long as the contents of the inode and what the entries of the two names remember of them are
in step. Here is what the handlers do to the names (`Replaces`), to an inode that no module writes to (`Spares`), and to what an entry
remembers of its file (`FileT.Keeps`).
-/

namespace FuseCompress

variable {i : Nat} {s s' s'' : State}

/-! ## Functions that leave the names alone -/

section Names

variable (Γ : Config) (env : Env) (s : State)

/-- A write changes the contents of an inode. -/
theorem names_writeFd (d : Nat) (fd : Fd) (buf : Bytes) : (writeFd s d fd buf).fs.names = s.fs.names := by
  unfold writeFd
  dsimp only
  split
  · rfl
  · rfl

theorem names_codecClose (m : Module) (d : Nat) : (codecClose Γ env s m d).fs.names = s.fs.names := by
  unfold codecClose
  split
  · split
    · exact names_writeFd s _ _ _
    · rfl
  · rfl

/-- `direct_close` up to the times: names are only looked up. -/
theorem names_closeHandle (f d : Nat) : (closeHandle Γ env s f d).fs.names = s.fs.names := by
  unfold closeHandle
  split
  · rfl
  · rfl
  · exact names_codecClose Γ env s _ d

theorem names_restoreTimes (f : Nat) (st : Option Attr) : (restoreTimes env s f st).fs.names = s.fs.names := by
  unfold restoreTimes
  split
  · split
    · rfl
    · rfl
  · rfl

theorem names_directClose (f d : Nat) : (directClose Γ env s f d).fs.names = s.fs.names := by
  unfold directClose
  dsimp only
  generalize (if env.ok .closeFstat then (s.descs d).fd.map (fun fd => (s.fs.inodes fd.ino).attr) else none) = st
  have h := (names_restoreTimes env (closeHandle Γ env s f d) f st).trans (names_closeHandle Γ env s f d)
  split
  · exact h
  · exact h

/-- The loop of `do_decompress` that closes all descriptors of the entry. -/
theorem names_closeAll (f : Nat) (ds : List Nat) : (closeAll Γ env s f ds).fs.names = s.fs.names := by
  induction ds generalizing s with
  | nil => rfl
  | cons d ds ih =>
    have hclose : (fileClose Γ (directClose Γ (env.of d) s f d) d).fs = (directClose Γ (env.of d) s f d).fs := by
      unfold fileClose
      rw [State.fs_modDesc, State.fs_assert]
    rw [closeAll, ih, hclose, names_directClose]

end Names

/-! ## The contents of an inode -/

/-- The contents of an inode that no module writes to are left alone, and no module starts to write to it. -/
structure Spares (i : Nat) (s s' : State) : Prop where
  next : s.fs.next ≤ s'.fs.next
  data : ¬s.Written i → s'.data i = s.data i
  written : s'.Written i → s.Written i

theorem Spares.refl (i : Nat) (s : State) : Spares i s s := ⟨Nat.le_refl _, fun _ => rfl, id⟩

theorem Spares.trans (h : Spares i s s') (h' : Spares i s' s'') : Spares i s s'' where
  next := h.next.trans h'.next
  data hw := (h'.data (fun hw' => hw (h.written hw'))).trans (h.data hw)
  written hw := h.written (h'.written hw)

/-- What writes nothing spares every inode. -/
theorem Spares.of_calm (h : Calm none s s') : Spares i s s' where
  next := le_of_eq (congrArg Backing.next h.fs.symm)
  data _ := congrArg (fun b => (Backing.inodes b i).data) h.fs
  written := by
    rintro ⟨d, fd, hfd, hi, hw⟩
    obtain ⟨fd₀, hfd₀, hino⟩ := (h.desc d).fd fd hfd
    rcases (h.desc d).writing hw with hw₀ | hmay
    · exact ⟨d, fd₀, hfd₀, hino.trans hi, hw₀⟩
    · cases hmay

theorem spares_modFile (f : Nat) {g : FileT → FileT} : Spares i s (s.modFile f g) := ⟨Nat.le_refl _, fun _ => rfl, id⟩

theorem spares_assert (Γ : Config) (c : Bool) : Spares i s (s.assert Γ c) := .of_calm (calm_assert Γ c)

/-- A change of the backing directory that keeps the contents of `i`. -/
theorem spares_withFs {k : Backing → Backing} (hnext : s.fs.next ≤ (k s.fs).next)
    (hdata : ((k s.fs).inodes i).data = (s.fs.inodes i).data) : Spares i s (s.withFs k) := ⟨hnext, fun _ => hdata, id⟩

theorem spares_setAttr (j : Nat) (a : Attr) : Spares i s (s.withFs (fun b => b.setAttr j a)) :=
  spares_withFs (Nat.le_refl _) (Backing.data_setAttr _ _ _ _)

theorem spares_setName (p : Filename) (j : Nat) : Spares i s (s.withFs (fun b => b.setName p j)) := spares_withFs (Nat.le_refl _) rfl

/-- A new file is not `i`, which exists. -/
theorem spares_alloc (data : Bytes) (a : Backing → Attr) (hi : i < s.fs.next) : Spares i s (s.withFs (fun b => b.alloc data (a b))) := by
  refine spares_withFs (Nat.le_succ _) ?_
  rw [Backing.inodes_alloc, if_neg (Nat.ne_of_lt hi)]

/-- Bytes are written to another inode, or to one that a module writes to. -/
theorem spares_setData {j : Nat} {data : Bytes} (h : s.Written i ∨ j ≠ i) : Spares i s (s.withFs (fun b => b.setData j data)) := by
  refine ⟨Nat.le_refl _, fun hw => ?_, id⟩
  exact (Backing.data_setData _ _ _ _).trans (if_neg (h.resolve_left hw).symm)

/-- A write through a descriptor whose handle is writing, or which is open on another inode. -/
theorem spares_writeFd {d : Nat} {fd : Fd} (fd' : Fd) (buf : Bytes) (hfd : (s.descs d).fd = some fd) (hino : fd.ino = fd'.ino)
    (hw : (s.descs d).writing ∨ fd.ino ≠ i) : Spares i s (writeFd s d fd' buf) := by
  unfold writeFd
  dsimp only
  split
  · exact .of_calm (calm_seek _ hfd hino)
  · have hwritten : s.Written i ∨ fd'.ino ≠ i := by
      by_cases hi : fd.ino = i
      · exact Or.inl ⟨d, fd, hfd, hi, hw.resolve_right (fun h => h hi)⟩
      · rw [← hino]
        exact Or.inr hi
    have hdata : Spares i s (s.withFs (fun b => b.setData fd'.ino (Bytes.overwrite (b.inodes fd'.ino).data fd'.pos buf))) :=
      spares_setData hwritten
    exact hdata.trans (.of_calm (calm_seek (s := s.withFs _) _ hfd hino))

section Compress

variable (Γ : Config) (env : Env) (s : State)

/-- `compressor->close` writes through a handle that is writing. -/
theorem spares_codecClose (m : Module) (d : Nat) : Spares i s (codecClose Γ env s m d) := by
  unfold codecClose
  split
  · rename_i chunks fd hh hfd
    split
    · exact spares_writeFd _ _ hfd rfl (Or.inl ⟨chunks, hh⟩)
    · exact .refl i s
  · exact .refl i s

theorem spares_closeHandle (f d : Nat) : Spares i s (closeHandle Γ env s f d) := by
  unfold closeHandle
  split
  · exact .refl i s
  · exact .of_calm calm_abort
  · exact (spares_codecClose Γ env s _ d).trans (.of_calm (calm_closeModule d))

theorem spares_restoreTimes (f : Nat) (st : Option Attr) : Spares i s (restoreTimes env s f st) := by
  unfold restoreTimes
  split
  · split
    · exact spares_setAttr _ _
    · exact .refl i s
  · exact .refl i s

/-- `direct_close` of any descriptor. -/
theorem spares_directClose (f d : Nat) : Spares i s (directClose Γ env s f d) := by
  unfold directClose
  dsimp only
  generalize (if env.ok .closeFstat then (s.descs d).fd.map (fun fd => (s.fs.inodes fd.ino).attr) else none) = st
  have h : Spares i s (restoreTimes env (closeHandle Γ env s f d) f st) :=
    (spares_closeHandle Γ env s f d).trans (spares_restoreTimes env _ f st)
  split
  · exact h.trans (spares_modFile f)
  · exact h

theorem spares_closeAll (f : Nat) (ds : List Nat) : Spares i s (closeAll Γ env s f ds) := by
  induction ds generalizing s with
  | nil => exact .refl i s
  | cons d ds ih =>
    have hone : Spares i s (fileClose Γ (directClose Γ (env.of d) s f d) d) :=
      (spares_directClose Γ (env.of d) s f d).trans (.of_calm (calm_fileClose Γ _ d))
    exact hone.trans (ih _)

/-- The descriptors are opened on another file than `i`. -/
theorem spares_reopenAll {temp : Nat} (ht : temp ≠ i) (ds : List Nat) : Spares i s (reopenAll env s temp ds) := by
  induction ds generalizing s with
  | nil => exact .refl i s
  | cons d ds ih =>
    have hone : Spares i s (s.modDesc d (fun desc => { desc with fd := if (env.of d).ok .reopen then some ⟨temp, 0⟩ else none })) := by
      refine ⟨Nat.le_refl _, fun _ => rfl, ?_⟩
      rintro ⟨d', fd, hfd, hi, hw⟩
      rw [State.descs_modDesc] at hfd hw
      split at hfd
      · dsimp only at hfd
        split at hfd
        · cases hfd
          exact absurd hi ht
        · cases hfd
      · rename_i hne
        rw [if_neg hne] at hw
        exact ⟨d', fd, hfd, hi, hw⟩
    exact hone.trans (ih _)

/-- The temporary file takes the name. The file that had it loses the name and not its contents. -/
theorem spares_doDecompressInstall (f : Nat) {temp : Nat} (st : Attr) (size : Nat) (ht : temp ≠ i) :
    Spares i s (doDecompressInstall env s f temp st size).1 := by
  have h : Spares i s ((reopenAll env s temp (s.files f).head).withFs
      (fun b => b.setAttr temp (copyOwnerMode env st (b.inodes temp).attr))) :=
    (spares_reopenAll env s ht _).trans (spares_setAttr _ _)
  unfold doDecompressInstall
  dsimp only
  generalize (reopenAll env s temp (s.files f).head).withFs _ = s₁ at h ⊢
  have hnamed : Spares i s (s₁.withFs (fun b => b.setName (s₁.files f).filename temp)) := h.trans (spares_setName _ _)
  split
  · exact h
  · split
    · exact hnamed
    · dsimp only
      exact (hnamed.trans (spares_setAttr _ _)).trans (spares_modFile f)

/-- `do_decompress` makes a new inode and leaves the old one as it is. -/
theorem spares_doDecompress (f : Nat) (hi : i < s.fs.next) : Spares i s (doDecompress Γ env s f).1 := by
  unfold doDecompress
  dsimp only
  split
  · exact .refl i s
  split
  · exact .refl i s
  have h₁ : Spares i s (flushFileCache s f) := .of_calm (calm_flushFileCache s f)
  generalize flushFileCache s f = s₁ at h₁ ⊢
  split
  · exact h₁
  split
  · exact h₁
  split
  · dsimp only
    exact h₁.trans (spares_modFile f)
  rename_i m size _
  have h₂ := h₁.trans (spares_modFile f (g := fun file => { file with compressor := some (file.compressor.getD m) }))
  generalize s₁.modFile f _ = s₂ at h₂ ⊢
  have h₃ := h₂.trans (spares_assert Γ (((s₂.files f).compressor.getD m) = m))
  generalize (s₂.files f).compressor.getD m = m' at h₃ ⊢
  generalize s₂.assert Γ _ = s₃ at h₃ ⊢
  have h₄ := h₃.trans (spares_closeAll Γ env s₃ f (s₃.files f).head)
  generalize closeAll Γ env s₃ f (s₃.files f).head = s₄ at h₄ ⊢
  split
  · exact h₄
  split
  · exact h₄
  have h₅ := h₄.trans (spares_modFile f (g := acknowledgeCancel))
  generalize s₄.modFile f acknowledgeCancel = s₅ at h₅ ⊢
  split
  · exact h₅
  rename_i content _
  split
  · exact h₅
  · have hlt : i < s₅.fs.next := Nat.lt_of_lt_of_le hi h₅.next
    exact (h₅.trans (spares_alloc content _ hlt)).trans (spares_doDecompressInstall env _ f _ _ (Nat.ne_of_gt hlt))

/-- The decompression that `fusecompress_link` and `fusecompress_truncate` ask for. -/
theorem spares_ensureRaw (f : Nat) (hi : i < s.fs.next) : Spares i s (ensureRaw Γ env s f).1 := by
  unfold ensureRaw
  split
  · exact .refl i s
  · exact spares_doDecompress Γ env s f hi

/-- `do_compress` writes the temporary file, which is new. -/
theorem spares_doCompressEnd (job : Job) (got : Bytes) (eof : Bool) (hi : i < s.fs.next) :
    Spares i s (doCompressEnd Γ env s job got eof).1 := by
  have h₁ : Spares i s (s.modFile job.file (fun file => { file with status := file.status.endCompressing })) := spares_modFile _
  unfold doCompressEnd
  dsimp only
  generalize s.modFile job.file _ = s₁ at h₁ ⊢
  split
  · exact h₁.trans (spares_modFile _)
  split
  · exact h₁
  split
  · exact h₁
  have hlt : i < s₁.fs.next := Nat.lt_of_lt_of_le hi h₁.next
  unfold doCompressInstall
  dsimp only
  have h₂ := h₁.trans (spares_alloc (header job.compressor job.size ++ (Γ.codec job.compressor).pack got)
    (fun b => copyOwnerMode env job.attr (tempAttr Γ b)) hlt)
  generalize s₁.withFs _ = s₂ at h₂ ⊢
  have h₃ := h₂.trans (spares_setName (s₂.files job.file).filename s₁.fs.next)
  generalize s₂.withFs _ = s₃ at h₃ ⊢
  have h₄ := (h₃.trans (spares_modFile job.file (g := fun file =>
    { file with compressor := some job.compressor, size := job.size }))).trans (.of_calm (calm_discard Γ _ job.file))
  split
  · exact h₄.trans (spares_setAttr _ _)
  · exact h₄

end Compress

section Direct

variable (Γ : Config) (env : Env) (s : State)

theorem spares_rewind (m : Module) (d : Nat) : Spares i s (rewind Γ env s m d) :=
  (spares_codecClose Γ env s m d).trans (.of_calm (calm_closeModule d))

theorem spares_decompressOpen (m : Module) (d offset : Nat) : Spares i s (decompressOpen Γ env s m d offset).1 := by
  unfold decompressOpen
  split
  · split
    · exact .of_calm calm_abort
    split
    · exact .refl i s
    split
    · exact spares_rewind Γ env s m d
    · exact (spares_rewind Γ env s m d).trans (.of_calm ((calm_seekHeader _ d).trans (calm_openStream Γ env _ d)))
  · exact .of_calm (calm_openStream Γ env s d)

/-- `direct_decompress` writes at most the temporary file of `do_decompress`. -/
theorem spares_directDecompress (m : Module) (f d size offset : Nat) (hi : i < s.fs.next) :
    Spares i s (directDecompress Γ env s m f d size offset).1 := by
  unfold directDecompress
  dsimp only
  generalize (Γ.cacheDecompressedData && offset % pageSize = 0 && size % pageSize = 0) = cacheThis
  have h₁ : Spares i s ((s.assert Γ (s.descs d).fd.isSome).modFile f
      (fun file => { file with type := if file.type = .unset then .read else file.type })) :=
    (spares_assert Γ _).trans (spares_modFile f)
  generalize (s.assert Γ (s.descs d).fd.isSome).modFile f _ = s₁ at h₁ ⊢
  have h₂ := h₁.trans (.of_calm (calm_serveCache s₁ f cacheThis size offset))
  generalize serveCache s₁ f cacheThis size offset = r at h₂ ⊢
  obtain ⟨s₂, served, any⟩ := r
  dsimp only at h₂ ⊢
  split
  · exact h₂
  split
  · have hdecompress := h₂.trans (spares_doDecompress Γ env s₂ f (Nat.lt_of_lt_of_le hi h₂.next))
    split
    · rename_i s₃ e
      rw [e] at hdecompress
      exact hdecompress
    · rename_i s₃ e
      rw [e] at hdecompress
      dsimp only at hdecompress ⊢
      exact hdecompress.trans (spares_modFile f)
  · have hopen := h₂.trans (spares_decompressOpen Γ env s₂ m d (offset + served.length))
    split
    · rename_i s₃ e
      rw [e] at hopen
      exact hopen
    · rename_i s₃ e
      rw [e] at hopen
      exact hopen.trans (.of_calm (calm_decompressSkip Γ env s₃ m f d _ _ cacheThis served))

/-- A module that starts to write to another inode. -/
theorem spares_compressOpen (m : Module) (f d : Nat) {fd : Fd} (hfd : (s.descs d).fd = some fd) (hd : fd.ino ≠ i) :
    Spares i s (compressOpen Γ env s m f d fd).1 := by
  unfold compressOpen
  dsimp only
  have h₁ : Spares i s ((s.assert Γ ((s.files f).size = 0)).assert Γ ((s.descs d).offset = 0)) :=
    (spares_assert Γ _).trans (spares_assert Γ _)
  have hfd₁ : (((s.assert Γ ((s.files f).size = 0)).assert Γ ((s.descs d).offset = 0)).descs d).fd = some fd := by
    rw [State.descs_assert, State.descs_assert]
    exact hfd
  generalize (s.assert Γ ((s.files f).size = 0)).assert Γ _ = s₁ at h₁ hfd₁ ⊢
  split
  · exact h₁
  · have h₂ : Spares i s (writeHeaderAt s₁ d fd m (s₁.files f).size) := h₁.trans (spares_writeFd _ _ hfd₁ rfl (Or.inr hd))
    have hother : ∀ fd', ((writeHeaderAt s₁ d fd m (s₁.files f).size).descs d).fd = some fd' → fd'.ino ≠ i := by
      intro fd' h
      unfold writeHeaderAt at h
      rw [descs_writeFd] at h
      cases h
      exact hd
    generalize writeHeaderAt s₁ d fd m (s₁.files f).size = s₂ at h₂ hother ⊢
    split
    · exact h₂
    · refine h₂.trans ⟨Nat.le_refl _, fun _ => rfl, ?_⟩
      rintro ⟨d', fd', hfd', hi', hw⟩
      rw [State.descs_modDesc] at hfd' hw
      split at hfd'
      · rename_i e
        exact absurd hi' (hother fd' (e ▸ hfd'))
      · rename_i hne
        rw [if_neg hne] at hw
        exact ⟨d', fd', hfd', hi', hw⟩

/-- A write to the stream of a handle that is writing. -/
theorem spares_compressWrite (m : Module) (f d : Nat) (buf : Bytes) : Spares i s (compressWrite Γ env s m f d buf).1 := by
  unfold compressWrite
  split
  · rename_i chunks fd hh hfd
    split
    · exact .refl i s
    · dsimp only
      have hw : (s.descs d).writing := ⟨chunks, hh⟩
      have h₁ : Spares i s (writeFd s d fd ((Γ.codec m).emit chunks buf)) := spares_writeFd _ _ hfd rfl (Or.inl hw)
      have hdesc : (writeFd s d fd ((Γ.codec m).emit chunks buf)).descs d = _ := descs_writeFd s d fd _
      generalize writeFd s d fd ((Γ.codec m).emit chunks buf) = s₁ at h₁ hdesc ⊢
      have hmore : Calm none s₁ (s₁.modDesc d (fun desc =>
          { desc with handle := some (.writing (chunks ++ [buf])), offset := desc.offset + buf.length })) := by
        refine calm_modDesc d ⟨rfl, rfl, id, fun fd' h => ⟨fd', h, rfl⟩, fun _ => Or.inl ?_⟩
        rw [hdesc]
        exact hw
      have h₂ := h₁.trans (.of_calm hmore)
      have hw₂ : ((s₁.modDesc d (fun desc =>
          { desc with handle := some (.writing (chunks ++ [buf])), offset := desc.offset + buf.length })).descs d).writing := by
        rw [State.descs_modDesc, if_pos rfl]
        exact ⟨_, rfl⟩
      have hfd₂ : ((s₁.modDesc d (fun desc =>
          { desc with handle := some (.writing (chunks ++ [buf])), offset := desc.offset + buf.length })).descs d).fd =
          some { fd with pos := fd.pos + ((Γ.codec m).emit chunks buf).length } := by
        rw [State.descs_modDesc, if_pos rfl, hdesc]
      generalize s₁.modDesc d _ = s₂ at h₂ hw₂ hfd₂ ⊢
      have h₃ := h₂.trans (spares_modFile f (g := fun file => { file with size := (s₂.descs d).offset }))
      split
      · exact h₃
      · have hheader := h₃.trans (spares_writeFd (s := s₂.modFile f (fun file => { file with size := (s₂.descs d).offset }))
          { fd with pos := 0 } (header m ((s₂.modFile f (fun file => { file with size := (s₂.descs d).offset })).files f).size)
          hfd₂ rfl (Or.inl hw₂))
        exact hheader.trans (.of_calm (calm_seekEnd _ d))
  · exact .refl i s

/-- A compressed write through a descriptor that is open on another inode. -/
theorem spares_directCompress (m : Module) (f d : Nat) (buf : Bytes) (offset : Nat) (hi : i < s.fs.next)
    (hd : ∀ fd, (s.descs d).fd = some fd → fd.ino ≠ i) : Spares i s (directCompress Γ env s m f d buf offset).1 := by
  unfold directCompress
  dsimp only
  have h₁ : Spares i s ((flushFileCache (s.assert Γ ((s.descs d).fd.isSome && !Γ.readOnly)) f).modFile f
      (fun file => { file with type := if file.type = .unset then .write else file.type })) :=
    ((spares_assert Γ _).trans (.of_calm (calm_flushFileCache _ f))).trans (spares_modFile f)
  have hdescs : ((flushFileCache (s.assert Γ ((s.descs d).fd.isSome && !Γ.readOnly)) f).modFile f
      (fun file => { file with type := if file.type = .unset then .write else file.type })).descs = s.descs := by
    rw [State.descs_modFile, (flushFileCache_same _ f).2.1, State.descs_assert]
  generalize (flushFileCache (s.assert Γ ((s.descs d).fd.isSome && !Γ.readOnly)) f).modFile f _ = s₁ at h₁ hdescs ⊢
  split
  · have hdecompress := h₁.trans (spares_doDecompress Γ env s₁ f (Nat.lt_of_lt_of_le hi h₁.next))
    split
    · rename_i s₂ e
      rw [e] at hdecompress
      exact hdecompress
    · rename_i s₂ e
      rw [e] at hdecompress
      dsimp only at hdecompress ⊢
      exact hdecompress.trans (spares_modFile f)
  · split
    · rename_i fd _ hfd
      have hopen := h₁.trans (spares_compressOpen Γ env s₁ m f d hfd (hd fd (by rw [← hdescs]; exact hfd)))
      split
      · rename_i s₂ e
        rw [e] at hopen
        exact hopen
      · rename_i s₂ e
        rw [e] at hopen
        exact hopen.trans (spares_compressWrite Γ env s₂ m f d buf)
    · exact h₁.trans (spares_compressWrite Γ env s₁ m f d buf)

end Direct

/-! ## What `do_decompress` does to the names -/

/-- An entry's name, as the books have it. -/
theorem filename_of_books {s s' : State} (h : s'.books = s.books) (f : Nat) : (s'.files f).filename = (s.files f).filename :=
  congrFun (congrArg Books.filename h) f

/-- Where a name leads depends on the names alone. -/
theorem inoOf_of_names {s s' : State} (h : s'.fs.names = s.fs.names) (q : Filename) : s'.fs.inoOf q = s.fs.inoOf q := by
  unfold Backing.inoOf Backing.find
  rw [h]

/-- The names are the same, or `do_decompress` has been called and the name of an entry whose file is compressed has a new inode. -/
def Replaces (Γ : Config) (called : Bool) (s s' : State) (f : Nat) : Prop :=
  s'.fs.names = s.fs.names ∨
    called = true ∧ ∃ i temp, s.fs.inoOf (s.files f).filename = some i ∧ parse Γ (s.data i) ≠ none ∧ s.fs.next ≤ temp ∧
      s'.fs.names = Assoc.insert s.fs.names (s.files f).filename (.reg temp)

section Replaces

variable {Γ : Config} {env : Env} {called : Bool} {f : Nat}

/-- No name changes. -/
theorem Replaces.of_names (h : s'.fs.names = s.fs.names) : Replaces Γ called s s' f := Or.inl h

/-- What follows changes no name. -/
theorem Replaces.after (h : Replaces Γ called s s' f) (h' : s''.fs.names = s'.fs.names) : Replaces Γ called s s'' f := by
  unfold Replaces
  rw [h']
  exact h

/-- What comes before changes neither the backing directory nor the name of the entry. -/
theorem Replaces.before (h : Replaces Γ called s' s'' f) (hfs : s'.fs = s.fs)
    (hname : (s'.files f).filename = (s.files f).filename) : Replaces Γ called s s'' f := by
  unfold Replaces State.data at h
  rw [hfs, hname] at h
  exact h

/-- The temporary file takes the name of the entry, or all names stay as they are. -/
theorem names_doDecompressInstall (env : Env) (s : State) (f temp : Nat) (st : Attr) (size : Nat) :
    (doDecompressInstall env s f temp st size).1.fs.names = s.fs.names ∨
      (doDecompressInstall env s f temp st size).1.fs.names = Assoc.insert s.fs.names (s.files f).filename (.reg temp) := by
  unfold doDecompressInstall
  dsimp only
  split
  · refine Or.inl ?_
    rw [State.fs_withFs, fs_reopenAll]
    rfl
  · have hinstalled : (Backing.setName (((reopenAll env s temp (s.files f).head).withFs
        (fun b => b.setAttr temp (copyOwnerMode env st (b.inodes temp).attr))).fs) (s.files f).filename temp).names =
        Assoc.insert s.fs.names (s.files f).filename (.reg temp) := by
      rw [State.fs_withFs, fs_reopenAll]
      rfl
    refine Or.inr ?_
    split
    · rw [State.fs_withFs, State.files_withFs, files_reopenAll]
      exact hinstalled
    · rw [State.fs_modFile, State.fs_withFs, State.fs_withFs, State.files_withFs, files_reopenAll]
      exact hinstalled

/-- `do_decompress` replaces the inode behind the entry's name, when that is compressed. -/
theorem doDecompress_replaces (Γ : Config) (env : Env) (s : State) (f : Nat) : Replaces Γ true s (doDecompress Γ env s f).1 f := by
  unfold doDecompress
  dsimp only
  split
  · exact .of_names rfl
  split
  · exact .of_names rfl
  have hfs₁ : (flushFileCache s f).fs = s.fs := (calm_flushFileCache (w := none) s f).fs
  have hb₁ : (flushFileCache s f).books = s.books := books_flushFileCache s f
  generalize flushFileCache s f = s₁ at hfs₁ hb₁ ⊢
  refine Replaces.before ?_ hfs₁ (filename_of_books hb₁ f)
  split
  · exact .of_names rfl
  rename_i src hsrc
  split
  · exact .of_names rfl
  split
  · exact .of_names rfl
  rename_i m size hparse
  have hino : s₁.fs.inoOf (s₁.files f).filename = some src := by
    split at hsrc
    · exact hsrc
    · cases hsrc
  have hstream : parse Γ (s₁.data src) ≠ none := by
    rw [hparse]
    exact Option.some_ne_none _
  -- the entry has a module from here on, and every descriptor is closed
  have hb₂ := books_modFile (s := s₁) (g := fun file => { file with compressor := some (file.compressor.getD m) }) f
    (fun _ => ⟨rfl, rfl, rfl, rfl, rfl, rfl⟩)
  have hfs₂ : (s₁.modFile f (fun file => { file with compressor := some (file.compressor.getD m) })).fs = s₁.fs := rfl
  generalize s₁.modFile f (fun file => { file with compressor := some (file.compressor.getD m) }) = s₂ at hb₂ hfs₂ ⊢
  have hb₃ := (books_assert (s := s₂) Γ (((s₂.files f).compressor.getD m) = m)).trans hb₂
  have hfs₃ := (State.fs_assert Γ s₂ (((s₂.files f).compressor.getD m) = m)).trans hfs₂
  generalize (s₂.files f).compressor.getD m = m' at hb₃ hfs₃ ⊢
  generalize s₂.assert Γ _ = s₃ at hb₃ hfs₃ ⊢
  have hb₄ := (books_closeAll Γ env s₃ f (s₃.files f).head).trans hb₃
  have hnames₄ : (closeAll Γ env s₃ f (s₃.files f).head).fs.names = s₁.fs.names := by rw [names_closeAll, hfs₃]
  have hnext₄ : s₁.fs.next ≤ (closeAll Γ env s₃ f (s₃.files f).head).fs.next := by
    rw [← hfs₃]
    exact (spares_closeAll (i := 0) Γ env s₃ f (s₃.files f).head).next
  generalize closeAll Γ env s₃ f (s₃.files f).head = s₄ at hb₄ hnames₄ hnext₄ ⊢
  split
  · exact .of_names hnames₄
  split
  · exact .of_names hnames₄
  have hname₅ : ((s₄.modFile f acknowledgeCancel).files f).filename = (s₁.files f).filename := by
    rw [State.files_modFile, if_pos rfl, ← filename_of_books hb₄ f]
    unfold acknowledgeCancel
    split
    · rfl
    · rfl
  have hnames₅ : (s₄.modFile f acknowledgeCancel).fs.names = s₁.fs.names := hnames₄
  have hnext₅ : s₁.fs.next ≤ (s₄.modFile f acknowledgeCancel).fs.next := hnext₄
  generalize s₄.modFile f acknowledgeCancel = s₅ at hname₅ hnames₅ hnext₅ ⊢
  split
  · exact .of_names hnames₅
  rename_i content _
  split
  · exact .of_names hnames₅
  have hinstall := names_doDecompressInstall env (s₅.withFs (fun b => b.alloc content (tempAttr Γ b))) f s₅.fs.next
    (s₄.fs.inodes src).attr content.length
  rw [State.files_withFs, hname₅] at hinstall
  rcases hinstall with hsame | hnew
  · exact .of_names (hsame.trans hnames₅)
  · refine Or.inr ⟨rfl, src, s₅.fs.next, hino, hstream, hnext₅, hnew.trans ?_⟩
    have halloc : (s₅.withFs (fun b => b.alloc content (tempAttr Γ b))).fs.names = s₁.fs.names := hnames₅
    rw [halloc]

/-! ## The requests on a descriptor -/

theorem names_calm {w : Option Nat} (h : Calm w s s') : s'.fs.names = s.fs.names := by rw [h.fs]

theorem names_rewind (Γ : Config) (env : Env) (s : State) (m : Module) (d : Nat) : (rewind Γ env s m d).fs.names = s.fs.names :=
  names_codecClose Γ env s m d

theorem names_decompressOpen (Γ : Config) (env : Env) (s : State) (m : Module) (d offset : Nat) :
    (decompressOpen Γ env s m d offset).1.fs.names = s.fs.names := by
  unfold decompressOpen
  split
  · split
    · rfl
    split
    · rfl
    split
    · exact names_rewind Γ env s m d
    · have hopen : Calm none (rewind Γ env s m d) (openStream Γ env (seekHeader (rewind Γ env s m d) d) d).1 :=
        (calm_seekHeader _ d).trans (calm_openStream Γ env _ d)
      exact (names_calm hopen).trans (names_rewind Γ env s m d)
  · exact names_calm (w := none) (calm_openStream Γ env s d)

/-- `direct_decompress` replaces an inode only when it calls `do_decompress`. -/
theorem directDecompress_replaces (Γ : Config) (env : Env) (s : State) (m : Module) (f d size offset : Nat) :
    Replaces Γ (readDecompresses Γ s f d size offset) s (directDecompress Γ env s m f d size offset).1 f := by
  unfold readDecompresses directDecompress
  dsimp only
  generalize (Γ.cacheDecompressedData && offset % pageSize = 0 && size % pageSize = 0) = cacheThis
  have hcalm₁ : Calm none s ((s.assert Γ (s.descs d).fd.isSome).modFile f
      (fun file => { file with type := if file.type = .unset then .read else file.type })) :=
    (calm_assert Γ _).trans (calm_modFile f (fun _ => rfl))
  have hb₁ : ((s.assert Γ (s.descs d).fd.isSome).modFile f
      (fun file => { file with type := if file.type = .unset then .read else file.type })).books = s.books := by simp
  generalize (s.assert Γ (s.descs d).fd.isSome).modFile f
    (fun file => { file with type := if file.type = .unset then .read else file.type }) = s₁ at hcalm₁ hb₁ ⊢
  have hcalm₂ := hcalm₁.trans (calm_serveCache s₁ f cacheThis size offset)
  have hb₂ := (books_serveCache s₁ f cacheThis size offset).trans hb₁
  generalize serveCache s₁ f cacheThis size offset = r at hcalm₂ hb₂ ⊢
  obtain ⟨s₂, served, any⟩ := r
  dsimp only at hcalm₂ hb₂ ⊢
  split
  · exact .of_names (names_calm hcalm₂)
  rename_i hserved
  split
  · rename_i hfallback
    have hcalled : (!(any && decide (size - served.length = 0)) &&
        readFallback Γ (s₂.files f) s₂.decompCacheSize cacheThis (s₂.descs d).offset (offset + served.length)) = true := by
      rw [hfallback, Bool.and_true, Bool.not_eq_true', Bool.eq_false_iff]
      exact fun h => hserved (by simpa using h)
    rw [hcalled]
    have hdecompress := (doDecompress_replaces Γ env s₂ f).before hcalm₂.fs (filename_of_books hb₂ f)
    split
    · rename_i s₃ e
      rw [e] at hdecompress
      exact hdecompress
    · rename_i s₃ e
      rw [e] at hdecompress
      exact hdecompress
  · refine .of_names ?_
    have hopen := (names_decompressOpen Γ env s₂ m d (offset + served.length)).trans (names_calm hcalm₂)
    split
    · rename_i s₃ e
      rw [e] at hopen
      exact hopen
    · rename_i s₃ e
      rw [e] at hopen
      exact (names_calm (w := none) (calm_decompressSkip Γ env s₃ m f d _ _ cacheThis served)).trans hopen

theorem names_compressOpen (Γ : Config) (env : Env) (s : State) (m : Module) (f d : Nat) (fd : Fd) :
    (compressOpen Γ env s m f d fd).1.fs.names = s.fs.names := by
  unfold compressOpen
  dsimp only
  generalize hs : (s.assert Γ _).assert Γ _ = s₁
  have hfs : s₁.fs = s.fs := by rw [← hs, State.fs_assert, State.fs_assert]
  split
  · rw [hfs]
  · have hheader : (writeHeaderAt s₁ d fd m (s₁.files f).size).fs.names = s.fs.names := (names_writeFd s₁ d _ _).trans (by rw [hfs])
    split
    · exact hheader
    · exact hheader

theorem names_compressWrite (Γ : Config) (env : Env) (s : State) (m : Module) (f d : Nat) (buf : Bytes) :
    (compressWrite Γ env s m f d buf).1.fs.names = s.fs.names := by
  unfold compressWrite
  split
  · split
    · rfl
    · rename_i chunks fd _ _ _
      dsimp only
      have hwrite := names_writeFd s d fd ((Γ.codec m).emit chunks buf)
      split
      · exact hwrite
      · refine Eq.trans ?_ hwrite
        exact names_writeFd _ d _ _
  · rfl

/-- `direct_compress` replaces an inode only when it calls `do_decompress`. -/
theorem directCompress_replaces (Γ : Config) (env : Env) (s : State) (m : Module) (f d : Nat) (buf : Bytes) (offset : Nat) :
    Replaces Γ (writeDecompresses Γ s f d offset) s (directCompress Γ env s m f d buf offset).1 f := by
  unfold writeDecompresses directCompress
  dsimp only
  have hcalm₁ : Calm none s ((flushFileCache (s.assert Γ ((s.descs d).fd.isSome && !Γ.readOnly)) f).modFile f
      (fun file => { file with type := if file.type = .unset then .write else file.type })) :=
    ((calm_assert Γ _).trans (calm_flushFileCache _ f)).trans (calm_modFile f (fun _ => rfl))
  have hb₁ : ((flushFileCache (s.assert Γ ((s.descs d).fd.isSome && !Γ.readOnly)) f).modFile f
      (fun file => { file with type := if file.type = .unset then .write else file.type })).books = s.books := by simp
  generalize (flushFileCache (s.assert Γ ((s.descs d).fd.isSome && !Γ.readOnly)) f).modFile f
    (fun file => { file with type := if file.type = .unset then .write else file.type }) = s₁ at hcalm₁ hb₁ ⊢
  split
  · rename_i hfallback
    rw [hfallback]
    have hdecompress := (doDecompress_replaces Γ env s₁ f).before hcalm₁.fs (filename_of_books hb₁ f)
    split
    · rename_i s₂ e
      rw [e] at hdecompress
      exact hdecompress
    · rename_i s₂ e
      rw [e] at hdecompress
      exact hdecompress
  · refine .of_names ?_
    split
    · rename_i fd _ _
      have hopen := (names_compressOpen Γ env s₁ m f d fd).trans (names_calm hcalm₁)
      split
      · rename_i s₂ e
        rw [e] at hopen
        exact hopen
      · rename_i s₂ e
        rw [e] at hopen
        exact (names_compressWrite Γ env s₂ m f d buf).trans hopen
    · exact (names_compressWrite Γ env s₁ m f d buf).trans (names_calm hcalm₁)

/-- A request on a descriptor replaces an inode only when it calls `do_decompress`. -/
theorem descLocked_replaces (Γ : Config) (env : Env) (s : State) (d f : Nat) (op : DescOp) :
    Replaces Γ (descDecompresses Γ s d f op) s (descLocked Γ env s d f op).1 f := by
  cases op with
  | read size offset =>
    have hread : Replaces Γ (descDecompresses Γ s d f (.read size offset)) s (readLocked Γ env s f d size offset).1 f := by
      unfold descDecompresses readLocked
      cases hm : (s.files f).compressor with
      | none => exact .of_names rfl
      | some m => exact directDecompress_replaces Γ env s m f d size offset
    generalize descDecompresses Γ s d f (.read size offset) = called at hread
    unfold descLocked
    dsimp only
    split
    · rename_i s₁ res buf e
      rw [e] at hread
      split
      · exact hread
      · exact hread
    · rename_i s₁ fd size' offset' served e
      rw [e] at hread
      exact hread
  | write buf offset =>
    have hwrite : Replaces Γ (descDecompresses Γ s d f (.write buf offset)) s (writeLocked Γ env s f d buf offset).1 f := by
      unfold descDecompresses writeLocked
      dsimp only
      have hcalm : Calm none s (writeChoose Γ (discard Γ s f) f offset) :=
        (calm_discard Γ s f).trans (calm_writeChoose Γ (discard Γ s f) f offset)
      have hb : (writeChoose Γ (discard Γ s f) f offset).books = s.books := by simp
      generalize writeChoose Γ (discard Γ s f) f offset = s₁ at hcalm hb
      cases hm : (s₁.files f).compressor with
      | none => exact .of_names (names_calm hcalm)
      | some m => exact (directCompress_replaces Γ env s₁ m f d buf offset).before hcalm.fs (filename_of_books hb f)
    generalize descDecompresses Γ s d f (.write buf offset) = called at hwrite
    unfold descLocked
    dsimp only
    split
    · rename_i s₁ res e
      rw [e] at hwrite
      split
      · exact hwrite
      · exact hwrite
    · rename_i s₁ fd e
      rw [e] at hwrite
      exact hwrite
  | release =>
    refine .of_names ?_
    change (releaseLocked Γ env s f d).1.fs.names = s.fs.names
    have hclose : (releaseClose Γ env s f d).fs.names = s.fs.names := by
      unfold releaseClose
      split
      · rfl
      · exact names_directClose Γ env s f d
    exact hclose

/-! ## The requests on a path -/

theorem names_truncateClose (Γ : Config) (env : Env) (s : State) (f : Nat) (ds : List Nat) :
    (truncateClose Γ env s f ds).fs.names = s.fs.names := by
  induction ds generalizing s with
  | nil => rfl
  | cons d ds ih =>
    rw [truncateClose, ih]
    exact names_directClose Γ (env.of d) s f d

/-- `truncate(2)` works on an inode. -/
theorem names_truncateFile (env : Env) (s : State) (f : Nat) (full : Filename) (size : Nat) :
    (truncateFile env s f full size).1.fs.names = s.fs.names := by
  unfold truncateFile
  split
  · rfl
  · rfl

/-- `fusecompress_truncate` replaces an inode only when it calls `do_decompress`. -/
theorem truncateLocked_replaces (Γ : Config) (env : Env) (s : State) (f : Nat) (full : Filename) (size : Nat) :
    Replaces Γ (callerDecompresses Γ s f (.truncate full size)) s (truncateLocked Γ env s f full size).1 f := by
  unfold callerDecompresses truncateLocked
  dsimp only
  have hcalm : Calm none s (discard Γ s f) := calm_discard Γ s f
  have hb : (discard Γ s f).books = s.books := books_discard Γ s f
  generalize discard Γ s f = s₁ at hcalm hb
  refine Replaces.before ?_ hcalm.fs (filename_of_books hb f)
  split
  · rename_i hsize
    have hraw : Replaces Γ (decide (size > 0) && (s₁.files f).compressor.isSome) s₁ (ensureRaw Γ env s₁ f).1 f := by
      unfold ensureRaw
      split
      · exact .of_names rfl
      · rename_i hm
        rw [decide_eq_true hsize, Bool.true_and, Option.isSome_iff_ne_none.mpr hm]
        exact doDecompress_replaces Γ env s₁ f
    split
    · rename_i s₂ e
      rw [e] at hraw
      exact hraw.after (names_truncateFile env s₂ f full size)
    · rename_i s₂ e
      rw [e] at hraw
      exact hraw
  · refine .of_names ?_
    split
    · exact names_truncateFile env s₁ f full size
    · exact (names_truncateFile env _ f full size).trans (names_truncateClose Γ env s₁ f (s₁.files f).head)

/-- `file_open` makes no name. -/
theorem names_openFile (Γ : Config) (env : Env) (s : State) (f : Nat) (full : Filename) (writable : Bool) :
    (openFile Γ env s f full writable).1.fs.names = s.fs.names := by
  unfold openFile
  split
  · rfl
  split
  · rfl
  dsimp only
  split
  · split
    · rfl
    · rfl
  · rfl

end Replaces

/-! ## What an entry remembers of its file -/

/-- A later state of an entry that still knows the same of its file, or no longer knows its size. -/
structure FileT.Keeps (x y : FileT) : Prop where
  compressor : y.compressor = x.compressor
  size : y.size = x.size ∨ y.size = -1
  head : x.head = [] → y.head = []

theorem FileT.Keeps.refl (x : FileT) : x.Keeps x := ⟨rfl, Or.inl rfl, id⟩

/-- The module stays, and a size that is unknown stays so. -/
theorem FileT.Keeps.trans {x y z : FileT} (h : x.Keeps y) (h' : y.Keeps z) : x.Keeps z where
  compressor := h'.compressor.trans h.compressor
  size := by
    rcases h'.size with e | e
    · rw [e]
      exact h.size
    · exact Or.inr e
  head hx := h'.head (h.head hx)

/-- An entry that is right about its file stays right while it knows the same. -/
theorem FileT.Current.keeps {Γ : Config} {data : Bytes} {x y : FileT} (h : x.Current Γ data) (hk : x.Keeps y) : y.Current Γ data where
  module := by
    rw [hk.compressor]
    rcases h.module with hm | ⟨hm, hsize, hhead⟩
    · exact Or.inl hm
    · refine Or.inr ⟨hm, ?_, hk.head hhead⟩
      rcases hk.size with e | e
      · rw [e]
        exact hsize
      · exact e
  size := by
    rcases hk.size with e | e
    · rw [e]
      exact h.size
    · exact Or.inl e

/-- Every entry but one knows what it knew. -/
def State.KeepsBut (f : Nat) (s s' : State) : Prop := ∀ g, g ≠ f → (s.files g).Keeps (s'.files g)

/-- Every entry knows what it knew. -/
def State.KeepsAll (s s' : State) : Prop := ∀ g, (s.files g).Keeps (s'.files g)

theorem State.KeepsAll.refl (s : State) : s.KeepsAll s := fun _ => .refl _

theorem State.KeepsAll.trans (h : s.KeepsAll s') (h' : s'.KeepsAll s'') : s.KeepsAll s'' := fun g => (h g).trans (h' g)

/-- What keeps all entries keeps all but one. -/
theorem State.KeepsAll.but (h : s.KeepsAll s') (f : Nat) : s.KeepsBut f s' := fun g _ => h g

theorem State.KeepsBut.trans {f : Nat} (h : s.KeepsBut f s') (h' : s'.KeepsBut f s'') : s.KeepsBut f s'' :=
  fun g hg => (h g hg).trans (h' g hg)

/-- The entries are the same. -/
theorem State.KeepsAll.of_files (h : s'.files = s.files) : s.KeepsAll s' := by
  intro g
  rw [h]
  exact .refl _

/-- A handler for one entry keeps the other entries. -/
theorem State.Apart.keepsBut {f : Nat} {D : Nat → Prop} (h : s.Apart s' f D) : s.KeepsBut f s' := by
  intro g hg
  rw [h.files g hg]
  exact .refl _

/-- One entry is changed and knows what it knew. -/
theorem keepsAll_update {f : Nat} {x : FileT} (hs : s'.files = Function.update s.files f x) (h : (s.files f).Keeps x) : s.KeepsAll s' := by
  intro g
  rw [hs, Function.update_apply]
  split
  · rename_i e
    rw [e]
    exact h
  · exact .refl _

/-- A change of an entry that keeps what it remembers, or forgets the size. -/
theorem keepsAll_modFile {f : Nat} {g : FileT → FileT} (h : (s.files f).Keeps (g (s.files f))) : s.KeepsAll (s.modFile f g) :=
  keepsAll_update rfl h

theorem keepsBut_modFile (f : Nat) (g : FileT → FileT) : s.KeepsBut f (s.modFile f g) := by
  intro g' hg'
  rw [State.files_modFile, if_neg hg']
  exact .refl _

theorem keepsAll_assert (Γ : Config) (c : Bool) : s.KeepsAll (s.assert Γ c) := .of_files (State.files_assert Γ s c)

theorem keepsAll_flushFileCache (s : State) (f : Nat) : s.KeepsAll (flushFileCache s f) := by
  unfold flushFileCache
  split
  · exact .refl s
  · exact keepsAll_update (f := f) rfl ⟨rfl, Or.inl rfl, id⟩

/-- A raw write makes the size unknown. -/
theorem keepsAll_invalidateSize (s : State) (f : Nat) : s.KeepsAll (invalidateSize s f) := keepsAll_modFile ⟨rfl, Or.inr rfl, id⟩

section Read

variable (Γ : Config) (env : Env) (s : State)

/-- `direct_close` forgets how the entry was used, and neither its module nor its size. -/
theorem keepsAll_directClose (f d : Nat) : s.KeepsAll (directClose Γ env s f d) := by
  have hwrite : ∀ (fd : Fd) (buf : Bytes), (writeFd s d fd buf).files = s.files := by
    intro fd buf
    unfold writeFd
    split
    · rfl
    · rfl
  have hcodec : ∀ m, (codecClose Γ env s m d).files = s.files := by
    intro m
    unfold codecClose
    split
    · split
      · exact hwrite _ _
      · rfl
    · rfl
  have hhandle : (closeHandle Γ env s f d).files = s.files := by
    unfold closeHandle
    split
    · rfl
    · rfl
    · exact hcodec _
  unfold directClose
  dsimp only
  generalize (if env.ok .closeFstat then (s.descs d).fd.map (fun fd => (s.fs.inodes fd.ino).attr) else none) = st
  have h : s.KeepsAll (restoreTimes env (closeHandle Γ env s f d) f st) :=
    .of_files ((files_restoreTimes env (closeHandle Γ env s f d) st).1.trans hhandle)
  split
  · exact h.trans (keepsAll_modFile ⟨rfl, Or.inl rfl, id⟩)
  · exact h

theorem keepsAll_serveCache (f : Nat) (cacheThis : Bool) (size offset : Nat) : s.KeepsAll (serveCache s f cacheThis size offset).1 := by
  unfold serveCache
  split
  · dsimp only
    split
    · exact .refl s
    · exact keepsAll_update (f := f) rfl ⟨rfl, Or.inl rfl, id⟩
  · exact .refl s

/-- By induction on the rounds: each one reads from the stream and keeps a page. -/
theorem keepsAll_skipLoop (m : Module) (f d : Nat) (cacheThis : Bool) (n toread : Nat) :
    s.KeepsAll (skipLoop Γ env m f d cacheThis n toread s).1 := by
  induction n generalizing toread s with
  | zero => exact .refl s
  | succ n ih =>
    unfold skipLoop
    split
    · exact .refl s
    · dsimp only
      generalize keepPage Γ s f d cacheThis = keep
      have hread : s.KeepsAll (codecRead Γ env (countPage s keep) m d (min toread pageSize)).1 :=
        .of_files (files_codecRead (s := countPage s keep) env _)
      split
      · rename_i s₁ e
        rw [e] at hread
        exact hread
      · rename_i s₁ buf e
        rw [e] at hread
        split
        · exact hread
        · split
          · exact hread
          · have hskip : s₁.KeepsAll (skipped s₁ f d keep buf) := by
              unfold skipped
              exact keepsAll_update (f := f) rfl ⟨rfl, Or.inl rfl, id⟩
            exact (hread.trans hskip).trans (ih _ _)

/-- The seek forward, and the read after it. -/
theorem keepsAll_decompressSkip (m : Module) (f d size offset : Nat) (cacheThis : Bool) (served : Bytes) :
    s.KeepsAll (decompressSkip Γ env s m f d size offset cacheThis served).1 := by
  have hend : ∀ s : State, s.KeepsAll (decompressRead Γ env s m f d size served).1 := fun s => .of_files (files_decompressRead size served)
  unfold decompressSkip
  split
  · dsimp only
    generalize (cacheThis && !decide (((offset - (s.descs d).offset : Nat) : Int) > Γ.maxDecompCacheSize - s.decompCacheSize)) = keep
    split
    · exact .refl s
    · have halloc : s.KeepsAll (allocCache s f keep) := by
        unfold allocCache
        split
        · exact keepsAll_modFile ⟨rfl, Or.inl rfl, id⟩
        · exact .refl s
      have hloop := halloc.trans (keepsAll_skipLoop Γ env (allocCache s f keep) m f d keep (offset - (s.descs d).offset)
        (offset - (s.descs d).offset))
      split
      · rename_i s₁ r e
        rw [e] at hloop
        exact hloop
      · rename_i s₁ e
        rw [e] at hloop
        exact hloop.trans (hend s₁)
  · exact hend s

/-- Opening the stream, or opening it again to go back. -/
theorem keepsAll_decompressOpen (m : Module) (d offset : Nat) : s.KeepsAll (decompressOpen Γ env s m d offset).1 := by
  have hstream : ∀ s : State, s.KeepsAll (openStream Γ env s d).1 := by
    intro s
    unfold openStream
    split
    · exact .refl s
    · exact keepsAll_assert Γ _
    · dsimp only
      split
      · exact keepsAll_assert Γ _
      · exact keepsAll_assert Γ _
  have hrewind : s.KeepsAll (rewind Γ env s m d) := by
    refine .of_files ?_
    unfold rewind codecClose
    split
    · split
      · unfold writeFd
        split
        · rfl
        · rfl
      · rfl
    · rfl
  unfold decompressOpen
  split
  · split
    · exact .of_files rfl
    split
    · exact .refl s
    split
    · exact hrewind
    · have hseek : (rewind Γ env s m d).KeepsAll (seekHeader (rewind Γ env s m d) d) := .of_files rfl
      exact (hrewind.trans hseek).trans (hstream _)
  · exact hstream s

/-- A read of a compressed file: the entry knows what it knew, unless `do_decompress` is called, and the other entries know what they
knew. -/
theorem directDecompress_keeps (m : Module) (f d size offset : Nat) : s.KeepsBut f (directDecompress Γ env s m f d size offset).1 ∧
    (readDecompresses Γ s f d size offset = false → s.KeepsAll (directDecompress Γ env s m f d size offset).1) := by
  unfold readDecompresses directDecompress
  dsimp only
  generalize (Γ.cacheDecompressedData && offset % pageSize = 0 && size % pageSize = 0) = cacheThis
  have h₁ : s.KeepsAll ((s.assert Γ (s.descs d).fd.isSome).modFile f
      (fun file => { file with type := if file.type = .unset then .read else file.type })) :=
    (keepsAll_assert Γ _).trans (keepsAll_modFile ⟨rfl, Or.inl rfl, id⟩)
  generalize (s.assert Γ (s.descs d).fd.isSome).modFile f _ = s₁ at h₁ ⊢
  have h₂ := h₁.trans (keepsAll_serveCache s₁ f cacheThis size offset)
  generalize serveCache s₁ f cacheThis size offset = r at h₂ ⊢
  obtain ⟨s₂, served, any⟩ := r
  dsimp only at h₂ ⊢
  split
  · exact ⟨h₂.but f, fun _ => h₂⟩
  rename_i hserved
  split
  · rename_i hfallback
    have hcalled : (!(any && decide (size - served.length = 0)) &&
        readFallback Γ (s₂.files f) s₂.decompCacheSize cacheThis (s₂.descs d).offset (offset + served.length)) = true := by
      rw [hfallback, Bool.and_true, Bool.not_eq_true', Bool.eq_false_iff]
      exact fun h => hserved (by simpa using h)
    refine ⟨?_, fun hnot => absurd (hcalled.symm.trans hnot) Bool.noConfusion⟩
    have hapart : s₂.Apart (doDecompress Γ env s₂ f).1 f (fun _ => True) := apart_doDecompress (fun _ _ => trivial)
    have hdecompress := (h₂.but f).trans hapart.keepsBut
    split
    · rename_i s₃ e
      rw [e] at hdecompress
      exact hdecompress
    · rename_i s₃ e
      rw [e] at hdecompress
      dsimp only at hdecompress ⊢
      exact hdecompress.trans (keepsBut_modFile f _)
  · have hopen := h₂.trans (keepsAll_decompressOpen Γ env s₂ m d (offset + served.length))
    cases hr : decompressOpen Γ env s₂ m d (offset + served.length) with
    | mk s₃ ok =>
      rw [hr] at hopen
      cases ok with
      | false => exact ⟨hopen.but f, fun _ => hopen⟩
      | true =>
        have hall := hopen.trans (keepsAll_decompressSkip Γ env s₃ m f d (size - served.length) (offset + served.length) cacheThis served)
        exact ⟨hall.but f, fun _ => hall⟩

end Read

end FuseCompress
