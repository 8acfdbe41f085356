import FuseCompress.Lemmas.Effects

/-!
# What stays of the other files

A handler works on one entry. The other entries and their descriptors stay as they are, no directory is made, and nothing gets into
the cache of the entry, when the pages that a read skips are not kept.
-/

namespace FuseCompress

/-- Nothing but the entry `f`, the descriptors `D` and the backing directory changes. -/
structure State.Apart (s s' : State) (f : Nat) (D : Nat → Prop) : Prop where
  files : ∀ g, g ≠ f → s'.files g = s.files g
  cache : (s.files f).cache = none → (s'.files f).cache = none
  descs : ∀ d, ¬D d → s'.descs d = s.descs d
  dirs : ∀ p, s'.fs.find p = some .dir → s.fs.find p = some .dir

section Basic

variable {s s' s'' : State} {f : Nat} {D : Nat → Prop}

/-- A state is apart from itself for every entry and every set of descriptors. -/
theorem State.Apart.refl (s : State) (f : Nat) (D : Nat → Prop) : s.Apart s f D := ⟨fun _ _ => rfl, id, fun _ _ => rfl, fun _ => id⟩

/-- Two handlers in a row for one entry keep apart what both keep apart. -/
theorem State.Apart.trans (h : s.Apart s' f D) (h' : s'.Apart s'' f D) : s.Apart s'' f D where
  files g hg := (h'.files g hg).trans (h.files g hg)
  cache hc := h'.cache (h.cache hc)
  descs d hd := (h'.descs d hd).trans (h.descs d hd)
  dirs p hp := h.dirs p (h'.dirs p hp)

/-- A change of the entry itself, which keeps the cache or empties it. -/
theorem apart_modFile {g : FileT → FileT} (hc : (g (s.files f)).cache = (s.files f).cache ∨ (g (s.files f)).cache = none) :
    s.Apart (s.modFile f g) f D := by
  refine ⟨fun g' hg' => by rw [State.files_modFile, if_neg hg'], fun hnone => ?_, fun _ _ => rfl, fun _ => id⟩
  rw [State.files_modFile, if_pos rfl]
  rcases hc with hc | hc
  · exact hc.trans hnone
  · exact hc

/-- A change of one of the descriptors `D`. -/
theorem apart_modDesc {d : Nat} {g : Desc → Desc} (hd : D d) : s.Apart (s.modDesc d g) f D := by
  refine ⟨fun _ _ => rfl, id, fun d' hd' => ?_, fun _ => id⟩
  rw [State.descs_modDesc, if_neg]
  rintro rfl
  exact hd' hd

/-- A change of the backing directory that makes no directory. -/
theorem apart_withFs {k : Backing → Backing} (hk : ∀ p, (k s.fs).find p = some .dir → s.fs.find p = some .dir) :
    s.Apart (s.withFs k) f D := ⟨fun _ _ => rfl, id, fun _ _ => rfl, hk⟩

theorem apart_setData (i : Nat) (data : Bytes) : s.Apart (s.withFs (fun b => b.setData i data)) f D := apart_withFs (fun _ => id)

theorem apart_alloc (data : Bytes) (a : Attr) : s.Apart (s.withFs (fun b => b.alloc data a)) f D := apart_withFs (fun _ => id)

theorem apart_setAttr (i : Nat) (a : Attr) : s.Apart (s.withFs (fun b => b.setAttr i a)) f D := apart_withFs (fun _ => id)

/-- `rename(2)` of a file makes no directory. -/
theorem dirs_setName {b : Backing} {p : Filename} {i : Nat} (q : Filename) (h : (b.setName p i).find q = some .dir) :
    b.find q = some .dir := by
  rw [Backing.find_setName] at h
  split at h
  · cases h
  · exact h

/-- `unlink(2)` makes no directory. -/
theorem dirs_dropName {b : Backing} {p : Filename} (q : Filename) (h : (b.dropName p).find q = some .dir) : b.find q = some .dir := by
  rw [Backing.find_dropName] at h
  split at h
  · cases h
  · exact h

theorem apart_setName (p : Filename) (i : Nat) : s.Apart (s.withFs (fun b => b.setName p i)) f D := apart_withFs dirs_setName

theorem apart_abort : s.Apart s.abort f D := ⟨fun _ _ => rfl, id, fun _ _ => rfl, fun _ => id⟩

/-- An assertion changes at most that the daemon has aborted. -/
theorem apart_assert (Γ : Config) (c : Bool) : s.Apart (s.assert Γ c) f D := by
  rcases s.assert_eq Γ c with e | e <;> rw [e]
  · exact .refl _ _ _
  · exact apart_abort

end Basic

section Compress

variable {Γ : Config} {env : Env} {s : State} {f d : Nat} {D : Nat → Prop}

theorem apart_dedupDiscard : s.Apart (dedupDiscard s f) f D := by
  have h : s.Apart (s.modFile f (fun file => { file with deduped := false })) f D := apart_modFile (Or.inl rfl)
  unfold dedupDiscard
  split
  · exact .refl _ _ _
  · dsimp only
    split
    · exact h
    · exact h.trans ⟨fun _ _ => rfl, id, fun _ _ => rfl, fun _ => id⟩

theorem apart_discard : s.Apart (discard Γ s f) f D := by
  unfold discard
  split
  · exact apart_dedupDiscard
  · exact .refl _ _ _

/-- `flush_file_cache` empties the cache of the entry. -/
theorem apart_flushFileCache : s.Apart (flushFileCache s f) f D := by
  unfold flushFileCache
  split
  · exact .refl _ _ _
  · exact ⟨fun g hg => by simp [hg], fun _ => by simp, fun _ _ => rfl, fun _ => id⟩

/-- A write through a descriptor in `D`: the position moves, and the bytes are in the backing directory. -/
theorem apart_writeFd (hd : D d) (fd : Fd) (buf : Bytes) : s.Apart (writeFd s d fd buf) f D := by
  unfold writeFd
  refine State.Apart.trans ?_ (apart_modDesc hd)
  split
  · exact .refl _ _ _
  · exact apart_setData _ _

/-- `compressor->close` of a descriptor in `D`, which may write what the module still holds. -/
theorem apart_codecClose (m : Module) (hd : D d) : s.Apart (codecClose Γ env s m d) f D := by
  unfold codecClose
  split
  · split
    · exact apart_writeFd hd _ _
    · exact .refl _ _ _
  · exact .refl _ _ _

theorem apart_closeHandle (hd : D d) : s.Apart (closeHandle Γ env s f d) f D := by
  unfold closeHandle
  split
  · exact .refl _ _ _
  · exact apart_abort
  · rename_i m _ _
    have hclose : s.Apart (codecClose Γ env s m d) f D := apart_codecClose m hd
    exact hclose.trans (apart_modDesc hd)

theorem apart_restoreTimes (stbuf : Option Attr) : s.Apart (restoreTimes env s f stbuf) f D := by
  unfold restoreTimes
  split
  · split
    · exact apart_withFs (fun _ => id)
    · exact .refl _ _ _
  · exact .refl _ _ _

/-- `direct_close` of a descriptor in `D`. -/
theorem apart_directClose (hd : D d) : s.Apart (directClose Γ env s f d) f D := by
  unfold directClose
  dsimp only
  generalize (if env.ok .closeFstat then (s.descs d).fd.map (fun fd => (s.fs.inodes fd.ino).attr) else none) = st
  have h : s.Apart (restoreTimes env (closeHandle Γ env s f d) f st) f D := (apart_closeHandle hd).trans (apart_restoreTimes st)
  split
  · exact h.trans (apart_modFile (Or.inl rfl))
  · exact h

theorem apart_fileClose (hd : D d) : s.Apart (fileClose Γ s d) f D := by
  unfold fileClose
  exact (apart_assert Γ _).trans (apart_modDesc hd)

/-- The loop of `do_decompress` that closes all descriptors of the entry. -/
theorem apart_closeAll {ds : List Nat} (hd : ∀ d ∈ ds, D d) : s.Apart (closeAll Γ env s f ds) f D := by
  induction ds generalizing s with
  | nil => exact .refl _ _ _
  | cons d ds ih =>
    have hclose : s.Apart (directClose Γ (env.of d) s f d) f D := apart_directClose (hd d (List.mem_cons_self ..))
    have hone := hclose.trans (apart_fileClose (Γ := Γ) (hd d (List.mem_cons_self ..)))
    exact hone.trans (ih (fun d' hd' => hd d' (List.mem_cons_of_mem d hd')))

/-- The loop of `do_decompress` that opens them again, on the temporary file. -/
theorem apart_reopenAll {temp : Nat} {ds : List Nat} (hd : ∀ d ∈ ds, D d) :
    s.Apart (reopenAll env s temp ds) f D := by
  induction ds generalizing s with
  | nil => exact .refl _ _ _
  | cons d ds ih =>
    have hone : s.Apart (s.modDesc d (fun desc =>
        { desc with fd := if (env.of d).ok .reopen then some ⟨temp, 0⟩ else none })) f D :=
      apart_modDesc (hd d (List.mem_cons_self ..))
    exact hone.trans (ih (fun d' hd' => hd d' (List.mem_cons_of_mem d hd')))

/-- The last step of a decompression that was asked to cancel a compression. -/
theorem apart_acknowledgeCancel : s.Apart (s.modFile f acknowledgeCancel) f D := by
  refine apart_modFile (Or.inl ?_)
  unfold acknowledgeCancel
  split <;> rfl

/-- What `do_decompress` does once the temporary file is complete. -/
theorem apart_doDecompressInstall {temp : Nat} (st : Attr) (size : Nat) (hd : ∀ d ∈ (s.files f).head, D d) :
    s.Apart (doDecompressInstall env s f temp st size).1 f D := by
  have h : s.Apart ((reopenAll env s temp (s.files f).head).withFs
      (fun b => b.setAttr temp (copyOwnerMode env st (b.inodes temp).attr))) f D := (apart_reopenAll hd).trans (apart_setAttr _ _)
  unfold doDecompressInstall
  dsimp only
  generalize (reopenAll env s temp (s.files f).head).withFs _ = s₁ at h ⊢
  have h' : s.Apart (s₁.withFs (fun b => b.setName (s₁.files f).filename temp)) f D := h.trans (apart_setName _ _)
  split
  · exact h
  · split
    · exact h'
    · dsimp only
      exact (h'.trans (apart_withFs (fun _ => id))).trans (apart_modFile (Or.inl rfl))

/-- `do_decompress` touches its entry and that entry's descriptors. -/
theorem apart_doDecompress (hd : ∀ d ∈ (s.files f).head, D d) : s.Apart (doDecompress Γ env s f).1 f D := by
  unfold doDecompress
  dsimp only
  split
  · exact .refl _ _ _
  · split
    · exact .refl _ _ _
    · have h₁ : s.Apart (flushFileCache s f) f D := apart_flushFileCache
      have b₁ : (flushFileCache s f).books = s.books := books_flushFileCache s f
      generalize flushFileCache s f = s₁ at h₁ b₁ ⊢
      split
      · exact h₁
      · split
        · exact h₁
        · split
          · dsimp only
            exact h₁.trans (apart_modFile (Or.inl rfl))
          · rename_i src _ _ m size _
            have h₂ : s.Apart (s₁.modFile f (fun file => { file with compressor := some (file.compressor.getD m) })) f D :=
              h₁.trans (apart_modFile (Or.inl rfl))
            have b₂ := (books_modFile (s := s₁) (g := fun file => { file with compressor := some (file.compressor.getD m) }) f
              (fun _ => ⟨rfl, rfl, rfl, rfl, rfl, rfl⟩)).trans b₁
            generalize s₁.modFile f _ = s₂ at h₂ b₂ ⊢
            have h₃ := h₂.trans (apart_assert Γ (((s₂.files f).compressor.getD m) = m))
            have b₃ := (books_assert (s := s₂) Γ (((s₂.files f).compressor.getD m) = m)).trans b₂
            generalize (s₂.files f).compressor.getD m = m' at h₃ b₃ ⊢
            generalize s₂.assert Γ _ = s₃ at h₃ b₃ ⊢
            have hd₃ : ∀ d ∈ (s₃.files f).head, D d := by
              intro d hm
              rw [head_of_books b₃] at hm
              exact hd d hm
            have h₄ : s.Apart (closeAll Γ env s₃ f (s₃.files f).head) f D := h₃.trans (apart_closeAll hd₃)
            have b₄ := (books_closeAll Γ env s₃ f (s₃.files f).head).trans b₃
            generalize closeAll Γ env s₃ f (s₃.files f).head = s₄ at h₄ b₄ ⊢
            split
            · exact h₄
            · split
              · exact h₄
              · have h₅ : s.Apart (s₄.modFile f acknowledgeCancel) f D := h₄.trans apart_acknowledgeCancel
                have hhead₅ : ((s₄.modFile f acknowledgeCancel).files f).head = (s₄.files f).head := by
                  rw [State.files_modFile, if_pos rfl]
                  unfold acknowledgeCancel
                  split <;> rfl
                split
                · exact h₅
                · rename_i content _
                  split
                  · exact h₅
                  · refine (h₅.trans (apart_alloc content _)).trans (apart_doDecompressInstall _ _ ?_)
                    intro d hm
                    rw [State.files_withFs, hhead₅, head_of_books b₄] at hm
                    exact hd d hm

end Compress

section Direct

variable {Γ : Config} {env : Env} {s : State} {f d : Nat} {D : Nat → Prop}

/-- A read from the stream moves the handle of the descriptor. -/
theorem apart_codecRead (env : Env) (m : Module) (n : Nat) (hd : D d) : s.Apart (codecRead Γ env s m d n).1 f D := by
  unfold codecRead
  split
  · split
    · exact .refl _ _ _
    · dsimp only
      exact apart_modDesc hd
  · exact .refl _ _ _

/-- A read that does not keep what it skips. -/
theorem apart_skipLoop (m : Module) (n toread : Nat) (hd : D d) :
    s.Apart (skipLoop Γ env m f d false n toread s).1 f D := by
  induction n generalizing s toread with
  | zero => exact .refl _ _ _
  | succ n ih =>
    unfold skipLoop
    split
    · exact .refl _ _ _
    · have hkeep : keepPage Γ s f d false = false := by simp [keepPage]
      have hcount : s.Apart (countPage s false) f D := ⟨fun _ _ => rfl, id, fun _ _ => rfl, fun _ => id⟩
      have hread := hcount.trans (apart_codecRead (Γ := Γ) env m (min toread pageSize) hd)
      dsimp only
      rw [hkeep]
      split
      · rename_i s₁ hr
        rw [hr] at hread
        exact hread
      · rename_i s₁ buf hr
        rw [hr] at hread
        split
        · exact hread
        · split
          · exact hread
          · have hskip : s₁.Apart (skipped s₁ f d false buf) f D := by
              unfold skipped
              exact (apart_modFile (Or.inl rfl)).trans (apart_modDesc hd)
            exact (hread.trans hskip).trans (ih _)

/-- The read of `direct_decompress` proper, after the seek. -/
theorem apart_decompressRead (m : Module) (size : Nat) (served : Bytes) (hd : D d) :
    s.Apart (decompressRead Γ env s m f d size served).1 f D := by
  unfold decompressRead
  dsimp only
  have hread : s.Apart (codecRead Γ env s m d (cutSize (s.files f) (s.descs d).offset size)).1 f D := apart_codecRead env m _ hd
  split
  · rename_i s₁ hr
    rw [hr] at hread
    exact hread
  · rename_i s₁ buf hr
    rw [hr] at hread
    split
    · exact hread
    · dsimp only
      exact hread.trans (apart_modDesc hd)

theorem apart_decompressSkip (m : Module) (size offset : Nat) (served : Bytes) (hd : D d) :
    s.Apart (decompressSkip Γ env s m f d size offset false served).1 f D := by
  unfold decompressSkip
  split
  · have halloc : allocCache s f false = s := if_neg (fun h => by cases h.1)
    dsimp only
    rw [Bool.false_and, halloc]
    split
    · exact .refl s f D
    have hloop : s.Apart (skipLoop Γ env m f d false (offset - (s.descs d).offset) (offset - (s.descs d).offset) s).1 f D :=
      apart_skipLoop m _ _ hd
    split
    · rename_i s₁ r hr
      rw [hr] at hloop
      exact hloop
    · rename_i s₁ hr
      rw [hr] at hloop
      exact hloop.trans (apart_decompressRead m size served hd)
  · exact apart_decompressRead m size served hd

theorem apart_openStream (hd : D d) : s.Apart (openStream Γ env s d).1 f D := by
  unfold openStream
  split
  · exact .refl _ _ _
  · exact apart_assert Γ _
  · dsimp only
    split
    · exact apart_assert Γ _
    · dsimp only
      exact (apart_assert Γ _).trans (apart_modDesc hd)

theorem apart_rewind (m : Module) (hd : D d) : s.Apart (rewind Γ env s m d) f D := by
  have hclose : s.Apart (codecClose Γ env s m d) f D := apart_codecClose m hd
  exact hclose.trans (apart_modDesc hd)

/-- `direct_decompress` opens the stream, or opens it again to go back. -/
theorem apart_decompressOpen (m : Module) (offset : Nat) (hd : D d) :
    s.Apart (decompressOpen Γ env s m d offset).1 f D := by
  have hrewind : s.Apart (rewind Γ env s m d) f D := apart_rewind m hd
  unfold decompressOpen
  split
  · split
    · exact apart_abort
    · split
      · exact .refl _ _ _
      · split
        · exact hrewind
        · have hseek : (rewind Γ env s m d).Apart (seekHeader (rewind Γ env s m d) d) f D := apart_modDesc hd
          exact (hrewind.trans hseek).trans (apart_openStream hd)
  · exact apart_openStream hd

/-- A read on a mount that does not cache pages. -/
theorem apart_directDecompress (m : Module) (size offset : Nat) (hcaching : Γ.cacheDecompressedData = false)
    (hheads : ∀ d ∈ (s.files f).head, D d) (hd : D d) :
    s.Apart (directDecompress Γ env s m f d size offset).1 f D := by
  unfold directDecompress
  simp only [hcaching, Bool.false_and]
  have h₁ : s.Apart ((s.assert Γ (s.descs d).fd.isSome).modFile f
      (fun file => { file with type := if file.type = .unset then .read else file.type })) f D :=
    (apart_assert Γ _).trans (apart_modFile (Or.inl rfl))
  have b₁ : ((s.assert Γ (s.descs d).fd.isSome).modFile f
      (fun file => { file with type := if file.type = .unset then .read else file.type })).books = s.books := by
    simp
  generalize (s.assert Γ (s.descs d).fd.isSome).modFile f _ = s₁ at h₁ b₁ ⊢
  have hserve : serveCache s₁ f false size offset = (s₁, [], false) := if_neg (fun h => by cases h.1)
  rw [hserve]
  dsimp only
  split
  · exact h₁
  · split
    · have hdec : s₁.Apart (doDecompress Γ env s₁ f).1 f D := by
        refine apart_doDecompress (fun d' hm => ?_)
        rw [head_of_books b₁] at hm
        exact hheads d' hm
      split
      · rename_i s₂ hr
        rw [hr] at hdec
        exact h₁.trans hdec
      · rename_i s₂ hr
        rw [hr] at hdec
        dsimp only at hdec ⊢
        exact (h₁.trans hdec).trans (apart_modFile (Or.inl rfl))
    · have hopen : s₁.Apart (decompressOpen Γ env s₁ m d (offset + ([] : Bytes).length)).1 f D := apart_decompressOpen m _ hd
      split
      · rename_i s₂ hr
        rw [hr] at hopen
        exact h₁.trans hopen
      · rename_i s₂ hr
        rw [hr] at hopen
        exact (h₁.trans hopen).trans (apart_decompressSkip m _ _ [] hd)

/-- `fusecompress_read` up to its call of `pread`, on a mount that does not cache pages. -/
theorem apart_readLocked (size offset : Nat) (hcaching : Γ.cacheDecompressedData = false)
    (hheads : ∀ d ∈ (s.files f).head, D d) (hd : D d) :
    s.Apart (readLocked Γ env s f d size offset).1 f D := by
  unfold readLocked
  split
  · exact apart_directDecompress _ size offset hcaching hheads hd
  · exact .refl _ _ _

theorem apart_seekEnd (hd : D d) : s.Apart (seekEnd s d) f D := by
  unfold seekEnd
  exact apart_modDesc hd

/-- The first compressed write, which puts the header in front. -/
theorem apart_compressOpen (m : Module) (fd : Fd) (hd : D d) : s.Apart (compressOpen Γ env s m f d fd).1 f D := by
  unfold compressOpen
  dsimp only
  have h₁ := (apart_assert (s := s) (f := f) (D := D) Γ ((s.files f).size = 0)).trans
    (apart_assert Γ ((s.descs d).offset = 0))
  generalize (s.assert Γ ((s.files f).size = 0)).assert Γ _ = s₁ at h₁ ⊢
  have h₂ : s₁.Apart (writeHeaderAt s₁ d fd m (s₁.files f).size) f D := apart_writeFd hd _ _
  split
  · exact h₁
  · split
    · exact h₁.trans h₂
    · dsimp only
      exact (h₁.trans h₂).trans (apart_modDesc hd)

theorem apart_compressWrite (m : Module) (buf : Bytes) (hd : D d) :
    s.Apart (compressWrite Γ env s m f d buf).1 f D := by
  unfold compressWrite
  split
  · rename_i chunks fd _ _
    split
    · exact .refl _ _ _
    · dsimp only
      have h₁ : s.Apart (writeFd s d fd ((Γ.codec m).emit chunks buf)) f D := apart_writeFd hd _ _
      have h₂ := h₁.trans (apart_modDesc (g := fun desc =>
        { desc with handle := some (.writing (chunks ++ [buf])), offset := desc.offset + buf.length }) hd)
      generalize (writeFd s d fd ((Γ.codec m).emit chunks buf)).modDesc d _ = s₂ at h₂ ⊢
      have h₃ := h₂.trans (apart_modFile (g := fun file => { file with size := (s₂.descs d).offset }) (Or.inl rfl))
      generalize s₂.modFile f _ = s₃ at h₃ ⊢
      split
      · exact h₃
      · dsimp only
        have h₄ : s₃.Apart (writeHeaderAt s₃ d fd m (s₃.files f).size) f D := apart_writeFd hd _ _
        exact (h₃.trans h₄).trans (apart_seekEnd hd)
  · exact .refl _ _ _

/-- `direct_compress`, with the fallback to `do_decompress` for a write that does not append. -/
theorem apart_directCompress (m : Module) (buf : Bytes) (offset : Nat) (hheads : ∀ d ∈ (s.files f).head, D d)
    (hd : D d) : s.Apart (directCompress Γ env s m f d buf offset).1 f D := by
  unfold directCompress
  dsimp only
  have h₁ : s.Apart (s.assert Γ ((s.descs d).fd.isSome && !Γ.readOnly)) f D := apart_assert Γ _
  have b₁ : (s.assert Γ ((s.descs d).fd.isSome && !Γ.readOnly)).books = s.books := books_assert Γ _
  generalize s.assert Γ ((s.descs d).fd.isSome && !Γ.readOnly) = s₁ at h₁ b₁ ⊢
  have h₂ := (h₁.trans apart_flushFileCache).trans (apart_modFile (s := flushFileCache s₁ f)
    (g := fun file => { file with type := if file.type = .unset then .write else file.type }) (Or.inl rfl))
  have b₂ : ((flushFileCache s₁ f).modFile f
      (fun file => { file with type := if file.type = .unset then .write else file.type })).books = s.books := by
    simp [b₁]
  generalize (flushFileCache s₁ f).modFile f _ = s₂ at h₂ b₂ ⊢
  split
  · have hdec : s₂.Apart (doDecompress Γ env s₂ f).1 f D := by
      refine apart_doDecompress (fun d' hm => ?_)
      rw [head_of_books b₂] at hm
      exact hheads d' hm
    split
    · rename_i s₃ hr
      rw [hr] at hdec
      exact h₂.trans hdec
    · rename_i s₃ hr
      rw [hr] at hdec
      dsimp only at hdec ⊢
      exact (h₂.trans hdec).trans (apart_modFile (Or.inl rfl))
  · split
    · rename_i fd _ _
      have hopen : s₂.Apart (compressOpen Γ env s₂ m f d fd).1 f D := apart_compressOpen m fd hd
      split
      · rename_i s₃ hr
        rw [hr] at hopen
        exact h₂.trans hopen
      · rename_i s₃ hr
        rw [hr] at hopen
        exact (h₂.trans hopen).trans (apart_compressWrite m buf hd)
    · exact h₂.trans (apart_compressWrite m buf hd)

end Direct

section Handlers

variable {Γ : Config} {env : Env} {s : State} {f d : Nat} {D : Nat → Prop}

/-- The decompression that `fusecompress_link` and `fusecompress_truncate` ask for. -/
theorem apart_ensureRaw (env : Env) (hheads : ∀ d ∈ (s.files f).head, D d) : s.Apart (ensureRaw Γ env s f).1 f D := by
  unfold ensureRaw
  split
  · exact .refl _ _ _
  · exact apart_doDecompress hheads

theorem apart_truncateClose {ds : List Nat} (hd : ∀ d ∈ ds, D d) : s.Apart (truncateClose Γ env s f ds) f D := by
  induction ds generalizing s with
  | nil => exact .refl _ _ _
  | cons d ds ih =>
    have hclose : s.Apart (directClose Γ (env.of d) s f d) f D := apart_directClose (hd d (List.mem_cons_self ..))
    have hone := hclose.trans (apart_modDesc (g := fun desc =>
      { desc with fd := if (env.of d).ok .lseek then desc.fd.map (fun fd => { fd with pos := 0 }) else desc.fd })
      (hd d (List.mem_cons_self ..)))
    exact hone.trans (ih (fun d' hd' => hd d' (List.mem_cons_of_mem d hd')))

theorem apart_truncateFile (full : Filename) (size : Nat) : s.Apart (truncateFile env s f full size).1 f D := by
  unfold truncateFile
  split
  · exact .refl _ _ _
  · dsimp only
    exact (apart_setData _ _).trans (apart_modFile (Or.inl rfl))

/-- `fusecompress_truncate` closes and reopens only the descriptors of its entry. -/
theorem apart_truncateLocked (full : Filename) (size : Nat) (hheads : ∀ d ∈ (s.files f).head, D d) :
    s.Apart (truncateLocked Γ env s f full size).1 f D := by
  unfold truncateLocked
  dsimp only
  have h₁ : s.Apart (discard Γ s f) f D := apart_discard
  have b₁ : (discard Γ s f).books = s.books := books_discard Γ s f
  generalize discard Γ s f = s₁ at h₁ b₁ ⊢
  have hheads₁ : ∀ d ∈ (s₁.files f).head, D d := by
    intro d hm
    rw [head_of_books b₁] at hm
    exact hheads d hm
  split
  · have hraw := apart_ensureRaw (Γ := Γ) env hheads₁
    split
    · rename_i s₂ hr
      rw [hr] at hraw
      exact (h₁.trans hraw).trans (apart_truncateFile full size)
    · rename_i s₂ hr
      rw [hr] at hraw
      exact h₁.trans hraw
  · split
    · exact h₁.trans (apart_truncateFile full size)
    · exact ((h₁.trans (apart_truncateClose hheads₁)).trans (apart_modFile (Or.inl rfl))).trans (apart_truncateFile full size)

theorem apart_writeChoose (offset : Nat) : s.Apart (writeChoose Γ s f offset) f D := by
  unfold writeChoose
  exact (apart_assert Γ _).trans (apart_modFile (Or.inl rfl))

/-- `fusecompress_write` up to its call of `pwrite`. -/
theorem apart_writeLocked (buf : Bytes) (offset : Nat) (hheads : ∀ d ∈ (s.files f).head, D d)
    (hd : D d) : s.Apart (writeLocked Γ env s f d buf offset).1 f D := by
  unfold writeLocked
  dsimp only
  have h₁ : s.Apart (writeChoose Γ (discard Γ s f) f offset) f D := apart_discard.trans (apart_writeChoose offset)
  have b₁ : (writeChoose Γ (discard Γ s f) f offset).books = s.books := by simp
  generalize writeChoose Γ (discard Γ s f) f offset = s₁ at h₁ b₁ ⊢
  split
  · refine h₁.trans (apart_directCompress _ buf offset (fun d' hm => ?_) hd)
    rw [head_of_books b₁] at hm
    exact hheads d' hm
  · exact h₁

/-- `fusecompress_release` of a descriptor of the entry. -/
theorem apart_releaseLocked (hd : D d) (howner : (s.descs d).file = f) : s.Apart (releaseLocked Γ env s f d).1 f D := by
  have hclose : s.Apart (releaseClose Γ env s f d) f D := by
    unfold releaseClose
    split
    · exact .refl _ _ _
    · exact apart_directClose hd
  have howner₁ : ((releaseClose Γ env s f d).descs d).file = f := by
    unfold releaseClose
    split
    · exact howner
    · exact (file_of_books (books_directClose ..) d).trans howner
  unfold releaseLocked
  dsimp only
  generalize releaseClose Γ env s f d = s₁ at hclose howner₁ ⊢
  rw [howner₁]
  exact ((hclose.trans (apart_modFile (Or.inl rfl))).trans (apart_modFile (Or.inl rfl))).trans (apart_modDesc hd)

theorem apart_mknodLocked (full : Filename) (mode uid gid : Nat) : s.Apart (mknodLocked env s full mode uid gid).1 f D := by
  unfold mknodLocked
  split
  · exact .refl _ _ _
  · rename_i b hb
    split at hb
    · unfold Backing.mknod at hb
      split at hb
      · cases hb
        exact ⟨fun _ _ => rfl, id, fun _ _ => rfl, fun q hq => dirs_setName q hq⟩
      · cases hb
    · cases hb

/-- `unlink` on a mount without deduplication. -/
theorem apart_unlinkLocked (full : Filename) (hd : Γ.dedupEnabled = false) : s.Apart (unlinkLocked Γ env s f full).1 f D := by
  have hno : discard Γ s f = s := by
    unfold discard
    rw [hd]
    rfl
  unfold unlinkLocked sysUnlink
  simp only [hno, hd, Bool.false_eq_true, if_false]
  split
  · rename_i b hb
    split at hb
    · cases hb
    · rename_i b' hb'
      cases hb
      have hfs : s.Apart ({ s with fs := b } : State) f D := by
        refine ⟨fun _ _ => rfl, id, fun _ _ => rfl, fun q hq => ?_⟩
        split at hb'
        · unfold Backing.unlink at hb'
          split at hb'
          · cases hb'
            exact dirs_dropName q hq
          · cases hb'
        · cases hb'
      dsimp only
      unfold directDelete
      exact hfs.trans (apart_modFile (Or.inl rfl))
  · rename_i b hb
    split at hb
    · cases hb
      exact .refl _ _ _
    · cases hb

/-! ## The background thread -/

/-- `do_compress` puts the compressed file in place: no descriptor is open, so the entry changes alone. -/
theorem apart_doCompressInstall (job : Job) (got : Bytes) : s.Apart (doCompressInstall Γ env s job got) job.file D := by
  unfold doCompressInstall
  dsimp only
  have h : s.Apart (s.withFs (fun b => b.alloc (header job.compressor job.size ++ (Γ.codec job.compressor).pack got)
      (copyOwnerMode env job.attr (tempAttr Γ b)))) job.file D := apart_withFs (fun _ => id)
  have hnamed := h.trans (apart_setName (((s.withFs (fun b => b.alloc (header job.compressor job.size ++
    (Γ.codec job.compressor).pack got) (copyOwnerMode env job.attr (tempAttr Γ b)))).files job.file).filename) s.fs.next)
  have hset := hnamed.trans (apart_modFile (g := fun file => { file with compressor := some job.compressor, size := job.size }) (Or.inl rfl))
  split
  · exact (hset.trans apart_discard).trans (apart_withFs (fun _ => id))
  · exact hset.trans apart_discard

theorem apart_doCompressEnd (job : Job) (got : Bytes) (eof : Bool) :
    s.Apart (doCompressEnd Γ env s job got eof).1 job.file D := by
  have h : s.Apart (s.modFile job.file (fun file => { file with status := file.status.endCompressing })) job.file D :=
    apart_modFile (Or.inl rfl)
  unfold doCompressEnd
  dsimp only
  split
  · exact h.trans apart_acknowledgeCancel
  · split
    · exact h
    · split
      · exact h
      · exact h.trans (apart_doCompressInstall job got)

end Handlers

end FuseCompress
