import FuseCompress.Effects
import FuseCompress.Lemmas.Sections

/-!
# The effects of the handlers

Every handler, and the background thread, is a sequence of effects on behalf of one entry.
-/

namespace FuseCompress

/-! ## `dedup.c` and `compress.c` -/

section Compress

variable {vis : Filename → Prop} {f n : Nat} {w : Option Nat} (Γ : Config) (env : Env) (s : State)

/-- The books tell which entry a descriptor belongs to. -/
theorem file_of_books {s s' : State} (h : s'.books = s.books) (d : Nat) : (s'.descs d).file = (s.descs d).file :=
  congrFun (congrArg Books.owner h) d

/-- The books tell which descriptors an entry has. -/
theorem head_of_books {s s' : State} (h : s'.books = s.books) (g : Nat) : (s'.files g).head = (s.files g).head :=
  congrFun (congrArg Books.head h) g

theorem calm_dedupDiscard (g : Nat) : Calm w s (dedupDiscard s g) := by
  have h : Calm w s (s.modFile g (fun file => { file with deduped := false })) := calm_modFile g (fun _ => rfl)
  unfold dedupDiscard
  split
  · exact .refl _ _
  · dsimp only
    split
    · exact h
    · exact h.trans (.of_eq rfl rfl (fun _ => rfl) rfl)

theorem calm_discard (g : Nat) : Calm w s (discard Γ s g) := by
  unfold discard
  split
  · exact calm_dedupDiscard s g
  · exact .refl _ _

/-- `flush_file_cache` counts the pages off and empties the cache. -/
theorem calm_flushFileCache (g : Nat) : Calm w s (flushFileCache s g) := by
  unfold flushFileCache
  split
  · exact .refl _ _
  · rename_i pages _
    have h : Calm w s { s with decompCacheSize := s.decompCacheSize - 4096 * ((pages.filter Option.isSome).length : Int) } :=
      .of_eq rfl rfl (fun _ => rfl) rfl
    exact h.trans (calm_modFile g (fun _ => rfl))

theorem calm_directDelete (g : Nat) : Calm w s (directDelete s g) := calm_modFile g (fun _ => rfl)

/-- Moving the position of a descriptor is calm. -/
theorem calm_seek {s : State} {d : Nat} {fd : Fd} (fd' : Fd) (hfd : (s.descs d).fd = some fd) (hi : fd.ino = fd'.ino) :
    Calm w s (s.modDesc d (fun desc => { desc with fd := some fd' })) := by
  refine calm_modDesc d ⟨rfl, rfl, id, ?_, Or.inl⟩
  rintro fd'' ⟨⟩
  exact ⟨fd, hfd, hi⟩

/-- A write through a descriptor of `f`, which has a writing handle or is the one that may write. -/
theorem effects_writeFd {s : State} {d : Nat} {fd fd' : Fd} {buf : Bytes} (hf : (s.descs d).file = f)
    (hfd : (s.descs d).fd = some fd) (hi : fd.ino = fd'.ino) (hw : (s.descs d).writing ∨ w = some d) :
    Effects vis f w n s (writeFd s d fd' buf) := by
  unfold writeFd
  dsimp only
  split
  · exact Calm.effects (calm_seek _ hfd hi)
  · have h : Effects vis f w n s (s.withFs (fun b => b.setData fd'.ino (Bytes.overwrite (b.inodes fd'.ino).data fd'.pos buf))) := by
      rw [← hi]
      exact Relation.ReflTransGen.single (.write hf hfd hw)
    exact h.trans (Calm.effects (calm_seek (s := s.withFs _) _ hfd hi))

/-- `compressor->close` writes what the module still holds, through a handle that is writing. -/
theorem effects_codecClose (m : Module) {d : Nat} (hf : (s.descs d).file = f) : Effects vis f w n s (codecClose Γ env s m d) := by
  unfold codecClose
  split
  · rename_i chunks fd hh hfd
    split
    · exact effects_writeFd hf hfd rfl (Or.inl ⟨chunks, hh⟩)
    · exact Relation.ReflTransGen.refl
  · exact Relation.ReflTransGen.refl

/-- Closing the module on a descriptor is calm. -/
theorem calm_closeModule {s : State} (d : Nat) : Calm w s (s.modDesc d (fun desc => { desc with offset := 0, handle := none })) := by
  refine calm_modDesc d ⟨rfl, rfl, id, fun fd h => ⟨fd, h, rfl⟩, ?_⟩
  rintro ⟨_, h⟩
  cases h

theorem effects_closeHandle (g : Nat) {d : Nat} (hf : (s.descs d).file = f) : Effects vis f w n s (closeHandle Γ env s g d) := by
  unfold closeHandle
  split
  · exact Relation.ReflTransGen.refl
  · exact calm_abort.effects
  · exact (effects_codecClose Γ env s _ hf).trans (calm_closeModule d).effects

theorem effects_utime (i : Nat) (st : Attr) : Effects vis f w n s (s.withFs (fun b => b.utime i st)) :=
  Relation.ReflTransGen.single .attr

/-- `utime` of the file that was closed: its contents stay as they are. -/
theorem effects_restoreTimes (g : Nat) (st : Option Attr) : Effects vis f w n s (restoreTimes env s g st) := by
  unfold restoreTimes
  split
  · split
    · exact effects_utime s _ _
    · exact Relation.ReflTransGen.refl
  · exact Relation.ReflTransGen.refl

/-- `direct_close`: the close of the stream, and the times of the file before it. -/
theorem effects_directClose (g : Nat) {d : Nat} (hf : (s.descs d).file = f) : Effects vis f w n s (directClose Γ env s g d) := by
  unfold directClose
  dsimp only
  generalize (if env.ok .closeFstat then (s.descs d).fd.map (fun fd => (s.fs.inodes fd.ino).attr) else none) = st
  have h : Effects vis f w n s (restoreTimes env (closeHandle Γ env s g d) g st) :=
    (effects_closeHandle Γ env s g hf).trans (effects_restoreTimes env _ g st)
  split
  · exact h.trans (Calm.effects (calm_modFile g (fun _ => rfl)))
  · exact h

/-- `file_close` writes nothing. -/
theorem calm_fileClose (d : Nat) : Calm w s (fileClose Γ s d) := by
  unfold fileClose
  refine (calm_assert Γ _).trans (calm_modDesc d ⟨rfl, rfl, id, ?_, Or.inl⟩)
  rintro fd ⟨⟩

/-- The loop of `do_decompress` that closes all descriptors of `f`. -/
theorem effects_closeAll (g : Nat) {ds : List Nat} (hf : ∀ d ∈ ds, (s.descs d).file = f) :
    Effects vis f w n s (closeAll Γ env s g ds) := by
  induction ds generalizing s with
  | nil => exact Relation.ReflTransGen.refl
  | cons d ds ih =>
    have h : Effects vis f w n s (fileClose Γ (directClose Γ (env.of d) s g d) d) :=
      (effects_directClose Γ (env.of d) s g (hf d List.mem_cons_self)).trans (calm_fileClose Γ _ d).effects
    refine h.trans (ih _ (fun d' hd' => ?_))
    rw [file_of_books (s := s) (by rw [books_fileClose, books_directClose])]
    exact hf d' (List.mem_cons_of_mem _ hd')

/-- The descriptors of `f` are opened on a file that did not exist before. -/
theorem effects_reopenAll {temp : Nat} {ds : List Nat} (hf : ∀ d ∈ ds, (s.descs d).file = f) (hn : n ≤ temp)
    (ht : temp < s.fs.next) : Effects vis f w n s (reopenAll env s temp ds) := by
  induction ds generalizing s with
  | nil => exact Relation.ReflTransGen.refl
  | cons d ds ih =>
    have h : Effects vis f w n s (s.modDesc d (fun desc => { desc with fd := if (env.of d).ok .reopen then some ⟨temp, 0⟩ else none })) := by
      cases (env.of d).ok .reopen with
      | true => exact Relation.ReflTransGen.single (.reopen (hf d List.mem_cons_self) hn ht)
      | false =>
        refine (calm_modDesc d ⟨rfl, rfl, id, ?_, Or.inl⟩).effects
        rintro fd ⟨⟩
    refine h.trans (ih _ (fun d' hd' => ?_) ht)
    have hb : (s.modDesc d (fun desc => { desc with fd := if (env.of d).ok .reopen then some ⟨temp, 0⟩ else none })).books = s.books :=
      books_modDesc d (fun _ => ⟨rfl, rfl, rfl⟩)
    exact (file_of_books hb d').trans (hf d' (List.mem_cons_of_mem _ hd'))

/-- The temporary file takes the place of the entry's name. -/
theorem effects_doDecompressInstall {temp : Nat} (st : Attr) (size : Nat) (hf : ∀ d ∈ (s.files f).head, (s.descs d).file = f)
    (hn : n ≤ temp) (ht : temp < s.fs.next) : Effects vis f w n s (doDecompressInstall env s f temp st size).1 := by
  have h1 : Effects vis f w n s (reopenAll env s temp (s.files f).head) := effects_reopenAll env s hf hn ht
  have h2 : Effects vis f w n s ((reopenAll env s temp (s.files f).head).withFs
      (fun b => b.setAttr temp (copyOwnerMode env st (b.inodes temp).attr))) :=
    h1.trans (Relation.ReflTransGen.single .attr)
  have ht' := Nat.lt_of_lt_of_le ht h2.next_le
  unfold doDecompressInstall
  dsimp only
  split
  · exact h2
  · have h3 := h2.trans (Relation.ReflTransGen.single (.install (f := f) hn ht'))
    split
    · exact h3
    · dsimp only
      exact (h3.trans (effects_utime _ temp st)).trans (Calm.effects (calm_modFile f (fun _ => rfl)))

/-- `do_decompress` works on the name, the inodes and the descriptors of its own file. -/
theorem effects_doDecompress (hf : ∀ d ∈ (s.files f).head, (s.descs d).file = f) (hn : n ≤ s.fs.next) :
    Effects vis f w n s (doDecompress Γ env s f).1 := by
  unfold doDecompress
  dsimp only
  split
  · exact Relation.ReflTransGen.refl
  · split
    · exact Relation.ReflTransGen.refl
    · have h1 := calm_flushFileCache (w := w) s f
      have b1 : (flushFileCache s f).books = s.books := books_flushFileCache s f
      generalize flushFileCache s f = s₁ at h1 b1 ⊢
      split
      · exact h1.effects
      · split
        · exact h1.effects
        · split
          · dsimp only
            exact (h1.trans (calm_modFile f (by intro _; rfl))).effects
          · rename_i src _ _ m size _
            -- the entry has a module from here on
            have h2 := h1.trans (calm_modFile f (k := fun file => { file with compressor := some (file.compressor.getD m) }) (fun _ => rfl))
            have b2 := (books_modFile (s := s₁) (g := fun file => { file with compressor := some (file.compressor.getD m) }) f
              (fun _ => ⟨rfl, rfl, rfl, rfl, rfl, rfl⟩)).trans b1
            generalize s₁.modFile f _ = s₂ at h2 b2 ⊢
            have h3 := h2.trans (calm_assert Γ (((s₂.files f).compressor.getD m) = m))
            have b3 := (books_assert (s := s₂) Γ (((s₂.files f).compressor.getD m) = m)).trans b2
            generalize (s₂.files f).compressor.getD m = m' at h3 b3 ⊢
            generalize s₂.assert Γ _ = s₃ at h3 b3 ⊢
            -- every descriptor is closed
            have hf3 : ∀ d ∈ (s₃.files f).head, (s₃.descs d).file = f := by
              intro d hd
              rw [file_of_books b3]
              rw [head_of_books b3] at hd
              exact hf d hd
            have h4 : Effects vis f w n s (closeAll Γ env s₃ f (s₃.files f).head) :=
              h3.effects.trans (effects_closeAll Γ env s₃ f hf3)
            have b4 := (books_closeAll Γ env s₃ f (s₃.files f).head).trans b3
            generalize closeAll Γ env s₃ f (s₃.files f).head = s₄ at h4 b4 ⊢
            split
            · exact h4
            · split
              · exact h4
              · have h5 : Effects vis f w n s (s₄.modFile f acknowledgeCancel) :=
                  h4.trans (Calm.effects (calm_modFile f (fun x => by unfold acknowledgeCancel; split <;> rfl)))
                have hd5 : (s₄.modFile f acknowledgeCancel).descs = s₄.descs := rfl
                have hh5 : ((s₄.modFile f acknowledgeCancel).files f).head = (s₄.files f).head := by
                  rw [State.files_modFile, if_pos rfl]
                  unfold acknowledgeCancel
                  split <;> rfl
                have hf5 : ∀ d ∈ ((s₄.modFile f acknowledgeCancel).files f).head,
                    ((s₄.modFile f acknowledgeCancel).descs d).file = f := by
                  intro d hd
                  rw [hd5, file_of_books b4]
                  rw [hh5, head_of_books b4] at hd
                  exact hf d hd
                generalize s₄.modFile f acknowledgeCancel = s₅ at h5 hf5 ⊢
                split
                · exact h5
                · rename_i content _
                  split
                  · exact h5
                  · have h6 : Effects vis f w n s (s₅.withFs (fun b => b.alloc content (tempAttr Γ b))) :=
                      h5.trans (Relation.ReflTransGen.single .alloc)
                    exact h6.trans (effects_doDecompressInstall env _ _ _ hf5 (hn.trans h5.next_le) (Nat.lt_succ_self _))

/-- The end of the background thread's work on an entry: the count, the status, the signal. -/
theorem calm_compFinish (g : Nat) (isDedup : Bool) : Calm w s (compFinish Γ s g isDedup) := by
  unfold compFinish
  dsimp only
  split
  · exact calm_modFile g (fun _ => rfl)
  · exact (calm_discard Γ s g).trans (calm_modFile g (fun _ => rfl))

/-- `do_compress` up to the start of the copy only looks at the files. -/
theorem calm_doCompressBegin (g : Nat) : Calm w s (doCompressBegin Γ env s g).1 := by
  unfold doCompressBegin
  split
  · exact calm_directDelete s g
  · dsimp only
    split
    · exact .refl _ _
    · generalize hs : (if headerSize ≤ _ ∧ env.ok .readHeader then _ else s) = s₁
      have h1 : Calm w s s₁ := by
        rw [← hs]
        split
        · exact calm_modFile g (fun _ => rfl)
        · exact .refl _ _
      split
      · exact h1
      · split
        · exact h1
        · split
          · exact h1
          · dsimp only
            exact h1.trans (calm_modFile g (fun _ => rfl))

/-- `do_compress` puts a new inode in place of the name of its own file. -/
theorem effects_doCompressInstall (job : Job) (got : Bytes) (hn : n ≤ s.fs.next) :
    Effects vis job.file w n s (doCompressInstall Γ env s job got) := by
  unfold doCompressInstall
  dsimp only
  generalize (header job.compressor job.size ++ (Γ.codec job.compressor).pack got) = data
  have h1 : Effects vis job.file w n s (s.withFs (fun b => b.alloc data (copyOwnerMode env job.attr (tempAttr Γ b)))) :=
    Relation.ReflTransGen.single .alloc
  have hinstall : ∀ s' : State, s'.fs.next = s.fs.next + 1 →
      Effect vis job.file w n s' (s'.withFs (fun b => b.setName (s'.files job.file).filename s.fs.next)) :=
    fun _ hnext => .install hn (hnext ▸ Nat.lt_succ_self _)
  have h2 := h1.trans (Relation.ReflTransGen.single (hinstall _ rfl))
  have h3 := h2.trans (Calm.effects ((calm_modFile job.file
    (k := fun file => { file with compressor := some job.compressor, size := job.size }) (fun _ => rfl)).trans (calm_discard Γ _ job.file)))
  split
  · exact h3.trans (effects_utime _ _ _)
  · exact h3

/-- `do_compress` from the end of the copy on: a new file may take the name of the entry. -/
theorem effects_doCompressEnd (job : Job) (got : Bytes) (eof : Bool) (hn : n ≤ s.fs.next) :
    Effects vis job.file w n s (doCompressEnd Γ env s job got eof).1 := by
  have h1 : Calm w s (s.modFile job.file (fun file => { file with status := file.status.endCompressing })) := calm_modFile job.file (fun _ => rfl)
  unfold doCompressEnd
  dsimp only
  split
  · exact Calm.effects (h1.trans (calm_modFile job.file (fun x => by unfold acknowledgeCancel; split <;> rfl)))
  · split
    · exact h1.effects
    · split
      · exact h1.effects
      · exact h1.effects.trans (effects_doCompressInstall Γ env _ job got hn)

end Compress

/-! ## `direct_compress.c` -/

section Direct

variable {vis : Filename → Prop} {f n : Nat} {w : Option Nat} (Γ : Config) (env : Env) (s : State)

theorem calm_codecRead (m : Module) (d k : Nat) : Calm w s (codecRead Γ env s m d k).1 := by
  unfold codecRead
  split
  · rename_i start pos fd hh hfd
    split
    · exact .refl _ _
    · dsimp only
      refine calm_modDesc d ⟨rfl, rfl, id, ?_, ?_⟩
      · rintro fd' ⟨⟩
        exact ⟨fd, hfd, rfl⟩
      · rintro ⟨_, h⟩
        cases h
  · exact .refl _ _

theorem calm_skipped (g d : Nat) (keep : Bool) (buf : Bytes) : Calm w s (skipped s g d keep buf) := by
  unfold skipped
  dsimp only
  refine (calm_modFile g (by intro _; rfl)).trans (calm_modDesc d ⟨rfl, rfl, id, fun fd h => ⟨fd, h, rfl⟩, ?_⟩)
  rintro ⟨chunks, h⟩
  exact Or.inl ⟨chunks, h⟩

/-- By induction on the rounds: each one reads from the stream and keeps a page. -/
theorem calm_skipLoop (m : Module) (g d : Nat) (cacheThis : Bool) (k toread : Nat) :
    Calm w s (skipLoop Γ env m g d cacheThis k toread s).1 := by
  induction k generalizing toread s with
  | zero => exact .refl _ _
  | succ k ih =>
    unfold skipLoop
    split
    · exact .refl _ _
    · dsimp only
      have h : Calm w s (codecRead Γ env (countPage s (keepPage Γ s g d cacheThis)) m d (min toread pageSize)).1 :=
        (show Calm w s (countPage s (keepPage Γ s g d cacheThis)) from .of_eq rfl rfl (fun _ => rfl) rfl).trans
          (calm_codecRead Γ env _ m d _)
      split
      · rename_i s₁ e
        rw [e] at h
        exact h
      · rename_i s₁ buf e
        rw [e] at h
        split
        · exact h
        · split
          · exact h
          · exact (h.trans (calm_skipped _ g d _ buf)).trans (ih _ _)

theorem calm_decompressRead (m : Module) (g d size : Nat) (served : Bytes) :
    Calm w s (decompressRead Γ env s m g d size served).1 := by
  have h : Calm w s (codecRead Γ env s m d (cutSize (s.files g) (s.descs d).offset size)).1 := calm_codecRead Γ env s m d _
  unfold decompressRead
  dsimp only
  split
  · rename_i s₁ e
    rw [e] at h
    exact h
  · rename_i s₁ buf e
    rw [e] at h
    split
    · exact h
    · dsimp only
      refine h.trans (calm_modDesc d ⟨rfl, rfl, id, fun fd hfd => ⟨fd, hfd, rfl⟩, ?_⟩)
      rintro ⟨chunks, hh⟩
      exact Or.inl ⟨chunks, hh⟩

theorem calm_allocCache (g : Nat) (cacheThis : Bool) : Calm w s (allocCache s g cacheThis) := by
  unfold allocCache
  split
  · exact calm_modFile g (fun _ => rfl)
  · exact .refl _ _

/-- The seek forward, and the read after it. -/
theorem calm_decompressSkip (m : Module) (g d size offset : Nat) (cacheThis : Bool) (served : Bytes) :
    Calm w s (decompressSkip Γ env s m g d size offset cacheThis served).1 := by
  unfold decompressSkip
  split
  · dsimp only
    generalize (cacheThis && _) = c
    split
    · exact .refl _ _
    have h : Calm w s (skipLoop Γ env m g d c (offset - (s.descs d).offset) (offset - (s.descs d).offset) (allocCache s g c)).1 :=
      (calm_allocCache s g c).trans (calm_skipLoop Γ env _ m g d c _ _)
    split
    · rename_i s₁ r e
      rw [e] at h
      exact h
    · rename_i s₁ e
      rw [e] at h
      exact h.trans (calm_decompressRead Γ env s₁ m g d size served)
  · exact calm_decompressRead Γ env s m g d size served

theorem calm_openStream (d : Nat) : Calm w s (openStream Γ env s d).1 := by
  unfold openStream
  split
  · exact .refl _ _
  · exact calm_assert Γ _
  · dsimp only
    split
    · exact calm_assert Γ _
    · dsimp only
      refine (calm_assert Γ _).trans (calm_modDesc d ⟨rfl, rfl, id, fun fd h => ⟨fd, h, rfl⟩, ?_⟩)
      rintro ⟨_, h⟩
      cases h

theorem effects_rewind (m : Module) {d : Nat} (hf : (s.descs d).file = f) : Effects vis f w n s (rewind Γ env s m d) :=
  (effects_codecClose Γ env s m hf).trans (calm_closeModule d).effects

theorem calm_seekHeader (d : Nat) : Calm w s (seekHeader s d) := by
  refine calm_modDesc d ⟨rfl, rfl, id, ?_, ?_⟩
  · intro fd' h
    obtain ⟨fd, hfd, rfl⟩ := Option.map_eq_some_iff.mp h
    exact ⟨fd, hfd, rfl⟩
  · rintro ⟨chunks, h⟩
    exact Or.inl ⟨chunks, h⟩

/-- `direct_decompress` closes the stream when it has to go back, which may write what the stream still holds. -/
theorem effects_decompressOpen (m : Module) {d : Nat} (offset : Nat) (hf : (s.descs d).file = f) :
    Effects vis f w n s (decompressOpen Γ env s m d offset).1 := by
  unfold decompressOpen
  split
  · split
    · exact calm_abort.effects
    · split
      · exact Relation.ReflTransGen.refl
      · split
        · exact effects_rewind Γ env s m hf
        · exact (effects_rewind Γ env s m hf).trans
            (Calm.effects ((calm_seekHeader _ d).trans (calm_openStream Γ env _ d)))
  · exact (calm_openStream Γ env s d).effects

/-- A read that is served from the cache. -/
theorem calm_serveCache (g : Nat) (cacheThis : Bool) (size offset : Nat) : Calm w s (serveCache s g cacheThis size offset).1 := by
  unfold serveCache
  split
  · dsimp only
    split
    · exact .refl _ _
    · generalize (servePages _ _ _) = r
      have h : Calm w s { s with decompCacheSize := s.decompCacheSize - pageSize * (r.2.2 : Int) } :=
        .of_eq rfl rfl (fun _ => rfl) rfl
      dsimp only
      exact h.trans (calm_modFile g (fun _ => rfl))
  · exact .refl _ _

/-- `direct_decompress` reads, or decompresses its own file. -/
theorem effects_directDecompress (m : Module) {d : Nat} (size offset : Nat) (hf : ∀ d ∈ (s.files f).head, (s.descs d).file = f)
    (hd : (s.descs d).file = f) (hn : n ≤ s.fs.next) :
    Effects vis f w n s (directDecompress Γ env s m f d size offset).1 := by
  unfold directDecompress
  dsimp only
  generalize (Γ.cacheDecompressedData && _ && _) = cacheThis
  have h1 : Calm w s ((s.assert Γ (s.descs d).fd.isSome).modFile f
      (fun file => { file with type := if file.type = .unset then .read else file.type })) :=
    (calm_assert Γ _).trans (calm_modFile f (fun _ => rfl))
  have b1 : ((s.assert Γ (s.descs d).fd.isSome).modFile f
      (fun file => { file with type := if file.type = .unset then .read else file.type })).books = s.books := by simp
  generalize (s.assert Γ (s.descs d).fd.isSome).modFile f _ = s₁ at h1 b1 ⊢
  have h2 : Calm w s (serveCache s₁ f cacheThis size offset).1 := h1.trans (calm_serveCache s₁ f cacheThis size offset)
  have b2 : (serveCache s₁ f cacheThis size offset).1.books = s.books := (books_serveCache s₁ f cacheThis size offset).trans b1
  generalize serveCache s₁ f cacheThis size offset = r at h2 b2 ⊢
  obtain ⟨s₂, served, any⟩ := r
  dsimp only at h2 b2 ⊢
  have hf2 : ∀ d ∈ (s₂.files f).head, (s₂.descs d).file = f := by
    intro d hd
    rw [file_of_books b2]
    rw [head_of_books b2] at hd
    exact hf d hd
  have hd2 : (s₂.descs d).file = f := (file_of_books b2 d).trans hd
  have hn2 : n ≤ s₂.fs.next := by rw [h2.fs]; exact hn
  split
  · exact h2.effects
  · split
    · have h3 : Effects vis f w n s (doDecompress Γ env s₂ f).1 := h2.effects.trans (effects_doDecompress Γ env s₂ hf2 hn2)
      split
      · rename_i s₃ e3
        rw [e3] at h3
        exact h3
      · rename_i s₃ e3
        rw [e3] at h3
        dsimp only
        exact h3.trans (Calm.effects (calm_modFile f (fun _ => rfl)))
    · have h3 : Effects vis f w n s (decompressOpen Γ env s₂ m d (offset + served.length)).1 :=
        h2.effects.trans (effects_decompressOpen Γ env s₂ m _ hd2)
      split
      · rename_i s₃ e3
        rw [e3] at h3
        exact h3
      · rename_i s₃ e3
        rw [e3] at h3
        exact h3.trans (calm_decompressSkip Γ env s₃ m f d _ _ cacheThis served).effects

theorem effects_writeHeaderAt {s : State} {d : Nat} {fd : Fd} (m : Module) (size : Int) (hf : (s.descs d).file = f)
    (hfd : (s.descs d).fd = some fd) (hw : (s.descs d).writing ∨ w = some d) :
    Effects vis f w n s (writeHeaderAt s d fd m size) := effects_writeFd hf hfd rfl hw

/-- Seeking to the end is calm. -/
theorem calm_seekEnd (d : Nat) : Calm w s (seekEnd s d) := by
  refine calm_modDesc d ⟨rfl, rfl, id, ?_, ?_⟩
  · intro fd' h
    obtain ⟨fd, hfd, rfl⟩ := Option.map_eq_some_iff.mp h
    exact ⟨fd, hfd, rfl⟩
  · rintro ⟨chunks, h⟩
    exact Or.inl ⟨chunks, h⟩

/-- The first compressed write puts the header in front, through the descriptor that may write. -/
theorem effects_compressOpen (m : Module) {d : Nat} {fd : Fd} (hf : (s.descs d).file = f) (hfd : (s.descs d).fd = some fd) :
    Effects vis f (some d) n s (compressOpen Γ env s m f d fd).1 := by
  unfold compressOpen
  dsimp only
  generalize hs : (s.assert Γ _).assert Γ _ = s₁
  have h1 : Calm (some d) s s₁ := hs ▸ (calm_assert Γ _).trans (calm_assert Γ _)
  have d1 : s₁.descs = s.descs := by rw [← hs, State.descs_assert, State.descs_assert]
  split
  · exact h1.effects
  · have h2 : Effects vis f (some d) n s (writeHeaderAt s₁ d fd m (s₁.files f).size) :=
      h1.effects.trans (effects_writeHeaderAt m _ (by rw [d1]; exact hf) (by rw [d1]; exact hfd) (Or.inr rfl))
    split
    · exact h2
    · dsimp only
      refine h2.trans (Calm.effects (calm_modDesc d ⟨rfl, rfl, id, fun fd h => ⟨fd, h, rfl⟩, fun _ => Or.inr rfl⟩))

/-- The file of a descriptor, and whether there is one, stays through a write. -/
theorem descs_writeFd (s : State) (d : Nat) (fd : Fd) (buf : Bytes) :
    (writeFd s d fd buf).descs d = { s.descs d with fd := some { fd with pos := fd.pos + buf.length } } := by
  unfold writeFd
  dsimp only
  rw [State.descs_modDesc, if_pos rfl]
  split <;> rfl

/-- The write to the stream, and the header again when the module is to keep it in step. -/
theorem effects_compressWrite (m : Module) {d : Nat} (buf : Bytes) (hf : (s.descs d).file = f) :
    Effects vis f (some d) n s (compressWrite Γ env s m f d buf).1 := by
  unfold compressWrite
  split
  · rename_i chunks fd hh hfd
    split
    · exact Relation.ReflTransGen.refl
    · dsimp only
      have h1 : Effects vis f (some d) n s (writeFd s d fd ((Γ.codec m).emit chunks buf)) :=
        effects_writeFd hf hfd rfl (Or.inr rfl)
      have d1 := descs_writeFd s d fd ((Γ.codec m).emit chunks buf)
      generalize writeFd s d fd ((Γ.codec m).emit chunks buf) = s₁ at h1 d1 ⊢
      have h2 : Effects vis f (some d) n s (s₁.modDesc d (fun desc =>
          { desc with handle := some (.writing (chunks ++ [buf])), offset := desc.offset + buf.length })) :=
        h1.trans (Calm.effects (calm_modDesc d ⟨rfl, rfl, id, fun fd h => ⟨fd, h, rfl⟩, fun _ => Or.inr rfl⟩))
      have d2 : ((s₁.modDesc d (fun desc =>
          { desc with handle := some (.writing (chunks ++ [buf])), offset := desc.offset + buf.length })).descs d).file = f ∧
          ((s₁.modDesc d (fun desc =>
            { desc with handle := some (.writing (chunks ++ [buf])), offset := desc.offset + buf.length })).descs d).fd =
              some { fd with pos := fd.pos + ((Γ.codec m).emit chunks buf).length } := by
        rw [State.descs_modDesc, if_pos rfl, d1]
        exact ⟨hf, rfl⟩
      generalize s₁.modDesc d _ = s₂ at h2 d2 ⊢
      have h3 : Effects vis f (some d) n s (s₂.modFile f (fun file => { file with size := (s₂.descs d).offset })) :=
        h2.trans (Calm.effects (calm_modFile f (fun _ => rfl)))
      have d3 : (s₂.modFile f (fun file => { file with size := (s₂.descs d).offset })).descs = s₂.descs := rfl
      generalize s₂.modFile f _ = s₃ at h3 d3 ⊢
      split
      · exact h3
      · dsimp only
        have hfd3 : (s₃.descs d).fd = some { fd with pos := fd.pos + ((Γ.codec m).emit chunks buf).length } := by
          rw [d3]
          exact d2.2
        refine (h3.trans ?_).trans (calm_seekEnd _ d).effects
        exact effects_writeFd (by rw [d3]; exact d2.1) hfd3 rfl (Or.inr rfl)
  · exact Relation.ReflTransGen.refl

/-- `direct_compress` writes through its descriptor, or decompresses its own file. -/
theorem effects_directCompress (m : Module) {d : Nat} (buf : Bytes) (offset : Nat)
    (hf : ∀ d ∈ (s.files f).head, (s.descs d).file = f) (hd : (s.descs d).file = f) (hn : n ≤ s.fs.next) :
    Effects vis f (some d) n s (directCompress Γ env s m f d buf offset).1 := by
  unfold directCompress
  dsimp only
  have h1 : Calm (some d) s ((flushFileCache (s.assert Γ ((s.descs d).fd.isSome && !Γ.readOnly)) f).modFile f
      (fun file => { file with type := if file.type = .unset then .write else file.type })) :=
    ((calm_assert Γ _).trans (calm_flushFileCache _ f)).trans (calm_modFile f (fun _ => rfl))
  have b1 : ((flushFileCache (s.assert Γ ((s.descs d).fd.isSome && !Γ.readOnly)) f).modFile f
      (fun file => { file with type := if file.type = .unset then .write else file.type })).books = s.books := by simp
  generalize (flushFileCache (s.assert Γ ((s.descs d).fd.isSome && !Γ.readOnly)) f).modFile f _ = s₁ at h1 b1 ⊢
  have hf1 : ∀ d ∈ (s₁.files f).head, (s₁.descs d).file = f := by
    intro d hd
    rw [file_of_books b1]
    rw [head_of_books b1] at hd
    exact hf d hd
  have hd1 : (s₁.descs d).file = f := (file_of_books b1 d).trans hd
  have hn1 : n ≤ s₁.fs.next := by rw [h1.fs]; exact hn
  split
  · have h2 : Effects vis f (some d) n s (doDecompress Γ env s₁ f).1 := h1.effects.trans (effects_doDecompress Γ env s₁ hf1 hn1)
    split
    · rename_i s₂ e
      rw [e] at h2
      exact h2
    · rename_i s₂ e
      rw [e] at h2
      dsimp only
      exact h2.trans (Calm.effects (calm_modFile f (fun _ => rfl)))
  · split
    · rename_i fd hh hfd
      have h2 : Effects vis f (some d) n s (compressOpen Γ env s₁ m f d fd).1 :=
        h1.effects.trans (effects_compressOpen Γ env s₁ m hd1 hfd)
      have b2 := books_compressOpen Γ env s₁ m f d fd
      split
      · rename_i s₂ e
        rw [e] at h2
        exact h2
      · rename_i s₂ e
        rw [e] at h2 b2
        exact h2.trans (effects_compressWrite Γ env s₂ m buf ((file_of_books b2 d).trans hd1))
    · exact h1.effects.trans (effects_compressWrite Γ env s₁ m buf hd1)

end Direct

/-! ## The handlers -/

section Handlers

variable {vis : Filename → Prop} {f n : Nat} {w : Option Nat} (Γ : Config) (env : Env) (s : State)

theorem calm_getattrMagic (full : Filename) : Calm w s (getattrMagic s full).1 := by
  unfold getattrMagic
  split
  · exact .of_eq rfl rfl (fun _ => rfl) rfl
  · split
    · exact .of_eq rfl rfl (fun _ => rfl) rfl
    · split <;> exact .refl _ _

/-- `fusecompress_getattr` remembers what the header says. -/
theorem calm_getattrLocked (g : Nat) (full : Filename) (st : Stat) : Calm w s (getattrLocked Γ env s g full st).1 := by
  unfold getattrLocked
  dsimp only
  split
  · split
    · split
      · exact .refl _ _
      · split
        · dsimp only
          exact calm_modFile g (fun _ => rfl)
        · dsimp only
          exact (calm_modFile g (by intro _; rfl)).trans (calm_modFile g (fun _ => rfl))
    · dsimp only
      exact calm_modFile g (fun _ => rfl)
  · split <;> exact .refl _ _

/-- `fusecompress_mknod` makes a file under a name that is free. -/
theorem effects_mknodLocked (full : Filename) (mode uid gid : Nat) (hf : (s.files f).filename = full) (hn : n ≤ s.fs.next) :
    Effects vis f w n s (mknodLocked env s full mode uid gid).1 := by
  unfold mknodLocked
  split
  · exact Relation.ReflTransGen.refl
  · rename_i b e
    split at e
    · unfold Backing.mknod at e
      split at e
      · cases e
        subst hf
        have h : Effects vis f w n s (s.withFs (fun b => b.alloc []
            { mode := mode, uid := uid, gid := gid, atime := s.fs.clock, mtime := s.fs.clock })) :=
          Relation.ReflTransGen.single .alloc
        exact h.trans (Relation.ReflTransGen.single (.install hn (Nat.lt_succ_self _)))
      · cases e
    · cases e

/-- Removing an attribute file leaves the names that count alone. -/
theorem effect_unlinkAttr (full : Filename) (hv : ¬vis (fuseattrName full)) :
    Effect vis f w n s { s with fs := unlinkAttr env s.fs full } := by
  have hdrop : ∀ p, vis p → (s.fs.dropName (fuseattrName full)).inoOf p = s.fs.inoOf p := by
    intro p hp
    rw [Backing.inoOf_dropName, if_neg (fun e : p = fuseattrName full => hv (e ▸ hp))]
  have hold : ∀ p i, (s.fs.dropName (fuseattrName full)).inoOf p = some i → s.fs.inoOf p = some i := by
    intro p i hi
    rw [Backing.inoOf_dropName] at hi
    split at hi
    · cases hi
    · exact hi
  unfold unlinkAttr Backing.unlink
  split
  · split
    · exact .hidden rfl rfl hold hdrop
    · exact .hidden rfl rfl (fun _ _ hi => hi) (fun _ _ => rfl)
  · exact .hidden rfl rfl (fun _ _ hi => hi) (fun _ _ => rfl)

/-- `fusecompress_unlink` takes the name of the entry away, and that of its attribute file. -/
theorem effects_unlinkLocked (full : Filename) (hf : (s.files f).filename = full)
    (hv : Γ.dedupEnabled = true → ¬vis (fuseattrName full)) : Effects vis f w n s (unlinkLocked Γ env s f full).1 := by
  have h1 : Calm w s (discard Γ s f) := calm_discard Γ s f
  have hf1 : ((discard Γ s f).files f).filename = full := (congrFun (congrArg Books.filename (books_discard Γ s f)) f).trans hf
  have hdrop : ∀ {b b' : Backing}, b.unlink full = some b' → b' = b.dropName full := by
    intro b b' e
    unfold Backing.unlink at e
    split at e
    · exact (Option.some.inj e).symm
    · cases e
  unfold unlinkLocked
  dsimp only
  generalize discard Γ s f = s₁ at h1 hf1 ⊢
  have h2 : Effects vis f w n s { s₁ with fs := (sysUnlink Γ env s₁.fs full).1 } := by
    unfold sysUnlink
    split
    · rename_i hd
      have h2 : Effects vis f w n s { s₁ with fs := unlinkAttr env s₁.fs full } :=
        h1.effects.trans (Relation.ReflTransGen.single (effect_unlinkAttr env s₁ full (hv hd)))
      unfold dedupSysUnlink
      dsimp only
      split
      · exact h2
      · rename_i b' e
        split at e
        · have hb := hdrop e
          subst hb
          subst hf1
          exact h2.trans (Relation.ReflTransGen.single .drop)
        · cases e
    · split
      · exact h1.effects
      · rename_i b' e
        split at e
        · have hb := hdrop e
          subst hb
          subst hf1
          exact h1.effects.trans (Relation.ReflTransGen.single .drop)
        · cases e
  split
  · rename_i b e
    rw [e] at h2
    exact h2.trans (calm_directDelete _ f).effects
  · rename_i b e
    rw [e] at h2
    exact h2

/-- The decompression that `fusecompress_link` and `fusecompress_truncate` ask for. -/
theorem effects_ensureRaw (hf : ∀ d ∈ (s.files f).head, (s.descs d).file = f) (hn : n ≤ s.fs.next) :
    Effects vis f w n s (ensureRaw Γ env s f).1 := by
  unfold ensureRaw
  split
  · exact Relation.ReflTransGen.refl
  · exact effects_doDecompress Γ env s hf hn

theorem effects_truncateClose {ds : List Nat} (hf : ∀ d ∈ ds, (s.descs d).file = f) :
    Effects vis f w n s (truncateClose Γ env s f ds) := by
  induction ds generalizing s with
  | nil => exact Relation.ReflTransGen.refl
  | cons d ds ih =>
    have h1 : Effects vis f w n s (directClose Γ (env.of d) s f d) := effects_directClose Γ (env.of d) s f (hf d List.mem_cons_self)
    have b1 := books_directClose Γ (env.of d) s f d
    unfold truncateClose
    dsimp only
    generalize directClose Γ (env.of d) s f d = s₁ at h1 b1 ⊢
    have h2 : Effects vis f w n s (s₁.modDesc d (fun desc =>
        { desc with fd := if (env.of d).ok .lseek then desc.fd.map (fun fd => { fd with pos := 0 }) else desc.fd })) := by
      refine h1.trans (Calm.effects (calm_modDesc d ⟨rfl, rfl, id, ?_, ?_⟩))
      · intro fd' h
        dsimp only at h
        split at h
        · obtain ⟨fd, hfd, rfl⟩ := Option.map_eq_some_iff.mp h
          exact ⟨fd, hfd, rfl⟩
        · exact ⟨fd', h, rfl⟩
      · rintro ⟨chunks, h⟩
        exact Or.inl ⟨chunks, h⟩
    have b2 : (s₁.modDesc d (fun desc =>
        { desc with fd := if (env.of d).ok .lseek then desc.fd.map (fun fd => { fd with pos := 0 }) else desc.fd })).books = s₁.books :=
      books_modDesc d (fun _ => ⟨rfl, rfl, rfl⟩)
    refine h2.trans (ih _ (fun d' hd' => ?_))
    exact (file_of_books (b2.trans b1) d').trans (hf d' (List.mem_cons_of_mem _ hd'))

/-- `truncate(2)` cuts the file of the entry. -/
theorem effects_truncateFile (full : Filename) (size : Nat) (hf : (s.files f).filename = full) :
    Effects vis f none n s (truncateFile env s f full size).1 := by
  unfold truncateFile
  split
  · exact Relation.ReflTransGen.refl
  · rename_i i e
    split at e
    · subst hf
      have h : Effects vis f none n s (s.withFs (fun b => b.setData i (Bytes.resize (b.inodes i).data size))) :=
        Relation.ReflTransGen.single (.cut rfl e)
      dsimp only
      exact h.trans (Calm.effects (calm_modFile f (fun _ => rfl)))
    · cases e

/-- The acknowledgement of a cancellation aside, the books are the same. -/
theorem Books.Acked.head_owner {b b' : Books} {g : Nat} (h : b.Acked g b') :
    b'.head = b.head ∧ b'.owner = b.owner ∧ b'.filename = b.filename := by
  rcases h with rfl | ⟨_, rfl⟩ <;> exact ⟨rfl, rfl, rfl⟩

/-- `fusecompress_truncate`: to zero bytes, by way of `do_decompress`, or as it is. -/
theorem effects_truncateLocked (full : Filename) (size : Nat) (hf : ∀ d ∈ (s.files f).head, (s.descs d).file = f)
    (hfull : (s.files f).filename = full) (hn : n ≤ s.fs.next) : Effects vis f none n s (truncateLocked Γ env s f full size).1 := by
  have h1 : Calm none s (discard Γ s f) := calm_discard Γ s f
  have b1 := books_discard Γ s f
  unfold truncateLocked
  dsimp only
  generalize discard Γ s f = s₁ at h1 b1 ⊢
  have hf1 : ∀ d ∈ (s₁.files f).head, (s₁.descs d).file = f := by
    intro d hd
    rw [file_of_books b1]
    rw [head_of_books b1] at hd
    exact hf d hd
  have hfull1 : (s₁.files f).filename = full := (congrFun (congrArg Books.filename b1) f).trans hfull
  split
  · have h2 : Effects vis f none n s (ensureRaw Γ env s₁ f).1 :=
      h1.effects.trans (effects_ensureRaw Γ env s₁ hf1 (by rw [h1.fs]; exact hn))
    have hfull2 : ((ensureRaw Γ env s₁ f).1.files f).filename = full :=
      (congrFun (acked_ensureRaw Γ env s₁ f).head_owner.2.2 f).trans hfull1
    split
    · rename_i s₂ e
      rw [e] at h2 hfull2
      exact h2.trans (effects_truncateFile env s₂ full size hfull2)
    · rename_i s₂ e
      rw [e] at h2
      exact h2
  · split
    · exact h1.effects.trans (effects_truncateFile env s₁ full size hfull1)
    · have h2 : Effects vis f none n s (truncateClose Γ env s₁ f (s₁.files f).head) :=
        h1.effects.trans (effects_truncateClose Γ env s₁ hf1)
      have b2 := books_truncateClose Γ env s₁ f (s₁.files f).head
      generalize truncateClose Γ env s₁ f (s₁.files f).head = s₂ at h2 b2 ⊢
      have h3 : Effects vis f none n s (s₂.modFile f (fun file => { file with compressor := none })) :=
        h2.trans (Calm.effects (calm_modFile f (fun _ => rfl)))
      refine h3.trans (effects_truncateFile env _ full size ?_)
      rw [State.files_modFile, if_pos rfl]
      exact (congrFun (congrArg Books.filename b2) f).trans hfull1

/-- `do_undedup` puts a new inode in place of the name, or leaves everything alone. -/
theorem effects_doUndedup (hn : n ≤ s.fs.next) (hv : ¬vis (fuseattrName (s.files f).filename)) :
    Effects vis f w n s (doUndedup Γ env s f).1 := by
  unfold doUndedup
  dsimp only
  split
  · exact Relation.ReflTransGen.refl
  · rename_i i _
    split
    · exact Relation.ReflTransGen.refl
    · split
      · exact Relation.ReflTransGen.refl
      · split
        · exact Relation.ReflTransGen.refl
        · have h1 : Calm w s (dedupDiscard s f) := calm_dedupDiscard s f
          have b1 : ((dedupDiscard s f).files f).filename = (s.files f).filename :=
            congrFun (congrArg Books.filename (books_dedupDiscard s f)) f
          generalize (if env.ok .lstatAttr then s.fs.attrOf (fuseattrName (s.files f).filename) else none).getD
            (s.fs.inodes i).attr = st
          generalize dedupDiscard s f = s₁ at h1 b1 ⊢
          split
          · exact h1.effects
          · have hn1 : n ≤ s₁.fs.next := by rw [h1.fs]; exact hn
            have h2 : Effects vis f w n s (s₁.withFs (fun b => b.alloc (b.inodes i).data (copyOwnerMode env st (tempAttr Γ b)))) :=
              h1.effects.trans (Relation.ReflTransGen.single .alloc)
            split
            · exact h2
            · rw [← b1]
              have h3 := h2.trans (Relation.ReflTransGen.single .drop)
              split
              · exact h3
              · have h4 := h3.trans (Relation.ReflTransGen.single (.install (f := f) hn1 (Nat.lt_succ_self _)))
                split
                · exact h4
                · have h5 := h4.trans (effects_utime _ s₁.fs.next st)
                  exact h5.trans (Relation.ReflTransGen.single (effect_unlinkAttr env _ _ (b1 ▸ hv)))

/-- `fusecompress_open` gives a linked file an inode of its own before it is opened for writing. -/
theorem effects_openUndedup (writable : Bool) (hn : n ≤ s.fs.next) (hv : Γ.dedupEnabled = true → ¬vis (fuseattrName (s.files f).filename)) :
    Effects vis f w n s (openUndedup Γ env s f writable).1 := by
  unfold openUndedup
  split
  · rename_i h
    exact effects_doUndedup Γ env s hn (hv h.1)
  · exact Relation.ReflTransGen.refl

/-- A new descriptor, on an inode that no other name reaches when it is opened for writing. -/
theorem effects_openDescriptor {ino pos : Nat} {writable : Bool} {size : Int} (hi : s.fs.inoOf (s.files f).filename = some ino)
    (hp : writable = true → ∀ p, vis p → s.fs.inoOf p = some ino → p = (s.files f).filename) :
    Effects vis f none n s (openDescriptor s f ino pos writable size).1 := by
  unfold openDescriptor
  dsimp only
  exact Relation.ReflTransGen.trans (Relation.ReflTransGen.single (.opened rfl hi hp)) (Calm.effects (calm_modFile f (fun _ => rfl)))

/-- `file_open`: a writable descriptor may be opened when no other visible name shares the file. -/
theorem effects_openFile (full : Filename) (writable : Bool) (hf : (s.files f).filename = full)
    (hp : writable = true → ∀ i, s.fs.inoOf full = some i → ∀ p, vis p → s.fs.inoOf p = some i → p = full) :
    Effects vis f none n s (openFile Γ env s f full writable).1 := by
  unfold openFile
  split
  · exact Relation.ReflTransGen.refl
  · rename_i i e
    split at e
    · split
      · dsimp only
        exact Calm.effects (calm_modFile f (fun _ => rfl))
      · have h1 : Calm none s (noteLinks s f i) := calm_modFile f (fun _ => rfl)
        have hfull1 : ((noteLinks s f i).files f).filename = full := by
          unfold noteLinks
          rw [State.files_modFile, if_pos rfl]
          exact hf
        have hfs1 : (noteLinks s f i).fs = s.fs := rfl
        dsimp only
        generalize noteLinks s f i = s₁ at h1 hfull1 hfs1 ⊢
        have hopen : ∀ (k : FileT → FileT), (∀ x, (k x).filename = x.filename) → ∀ (pos : Nat) (size : Int),
            Effects vis f none n s (openDescriptor (s₁.modFile f k) f i pos writable size).1 := by
          intro k hk pos size
          have h2 : Calm none s (s₁.modFile f k) := h1.trans (calm_modFile f hk)
          have hfull2 : ((s₁.modFile f k).files f).filename = full := by
            rw [State.files_modFile, if_pos rfl, hk]
            exact hfull1
          refine h2.effects.trans (effects_openDescriptor _ ?_ (fun hw p hv hpi => ?_))
          · rw [hfull2, h2.fs]
            exact e
          · rw [h2.fs] at hpi
            rw [hfull2]
            exact hp hw i e p hv hpi
        split
        · split
          · dsimp only
            exact h1.effects.trans (Calm.effects (calm_modFile f (fun _ => rfl)))
          · exact hopen _ (by intro _; rfl) _ _
        · exact hopen _ (by intro _; rfl) _ _
    · cases e

/-- `fusecompress_open`, from the lock of the entry on. -/
theorem effects_openLocked (full : Filename) (writable : Bool) (hf : (s.files f).filename = full) (hn : n ≤ s.fs.next)
    (hv : Γ.dedupEnabled = true → ¬vis (fuseattrName full))
    (hp : writable = true → ∀ s₁, openUndedup Γ env s f writable = (s₁, true) → ∀ i, s₁.fs.inoOf full = some i →
      ∀ p, vis p → s₁.fs.inoOf p = some i → p = full) :
    Effects vis f none n s (openLocked Γ env s f full writable).1 := by
  have h1 : Effects vis f none n s (openUndedup Γ env s f writable).1 := effects_openUndedup Γ env s writable hn (by rw [hf]; exact hv)
  have hf1 : ((openUndedup Γ env s f writable).1.files f).filename = full := by
    exact (congrFun (congrArg Books.filename (books_openUndedup Γ env s f writable)) f).trans hf
  unfold openLocked
  split
  · rename_i s₁ e
    rw [e] at h1 hf1
    exact h1.trans (effects_openFile Γ env s₁ full writable hf1 (fun hw => hp hw s₁ e))
  · rename_i s₁ e
    rw [e] at h1
    exact h1

/-- `fusecompress_read` up to its call of `pread`. -/
theorem effects_readLocked {d : Nat} (size offset : Nat) (hf : ∀ d ∈ (s.files f).head, (s.descs d).file = f)
    (hd : (s.descs d).file = f) (hn : n ≤ s.fs.next) : Effects vis f w n s (readLocked Γ env s f d size offset).1 := by
  unfold readLocked
  split
  · exact effects_directDecompress Γ env s _ size offset hf hd hn
  · exact Relation.ReflTransGen.refl

theorem calm_invalidateSize (g : Nat) : Calm w s (invalidateSize s g) := calm_modFile g (fun _ => rfl)

/-- The choice of a module for a file that has none. -/
theorem calm_writeChoose (g offset : Nat) : Calm w s (writeChoose Γ s g offset) := by
  unfold writeChoose
  dsimp only
  exact (calm_assert Γ _).trans (calm_modFile g (fun _ => rfl))

/-- `fusecompress_write` up to its call of `pwrite`. -/
theorem effects_writeLocked {d : Nat} (buf : Bytes) (offset : Nat) (hf : ∀ d ∈ (s.files f).head, (s.descs d).file = f)
    (hd : (s.descs d).file = f) (hn : n ≤ s.fs.next) : Effects vis f (some d) n s (writeLocked Γ env s f d buf offset).1 := by
  have h1 : Calm (some d) s (writeChoose Γ (discard Γ s f) f offset) := (calm_discard Γ s f).trans (calm_writeChoose Γ _ f offset)
  have b1 : (writeChoose Γ (discard Γ s f) f offset).books = s.books := by simp
  unfold writeLocked
  dsimp only
  generalize writeChoose Γ (discard Γ s f) f offset = s₁ at h1 b1 ⊢
  have hf1 : ∀ d ∈ (s₁.files f).head, (s₁.descs d).file = f := by
    intro d hd
    rw [file_of_books b1]
    rw [head_of_books b1] at hd
    exact hf d hd
  split
  · exact h1.effects.trans (effects_directCompress Γ env s₁ _ buf offset hf1 ((file_of_books b1 d).trans hd) (by rw [h1.fs]; exact hn))
  · exact h1.effects

/-- `fusecompress_release` of a descriptor of `f`. -/
theorem effects_releaseLocked {d : Nat} (hd : (s.descs d).file = f) : Effects vis f w n s (releaseLocked Γ env s f d).1 := by
  have h1 : Effects vis f w n s (releaseClose Γ env s f d) := by
    unfold releaseClose
    split
    · exact Relation.ReflTransGen.refl
    · exact effects_directClose Γ env s f hd
  unfold releaseLocked
  dsimp only
  generalize releaseClose Γ env s f d = s₁ at h1 ⊢
  refine h1.trans (Calm.effects (((calm_modFile _ (by intro _; rfl)).trans (calm_modFile f (by intro _; rfl))).trans (calm_modDesc d ⟨rfl, rfl, ?_, ?_, ?_⟩)))
  · intro h
    cases h
  · intro fd h
    cases h
  · rintro ⟨chunks, h⟩
    exact Or.inl ⟨chunks, h⟩

/-- `direct_open_purge` queues the entry, frees it, or leaves it. -/
theorem calm_purgeFile (force : Bool) (g : Nat) : Calm w s (purgeFile Γ env force s g) := by
  have hq : ∀ dedup, Calm w s (backgroundCompressDedup s g dedup) := by
    intro dedup
    unfold backgroundCompressDedup
    dsimp only
    exact (calm_modFile g (k := fun file => { file with accesses := file.accesses + 1 }) (fun _ => rfl)).trans (.of_eq rfl rfl (fun _ => rfl) rfl)
  have hd : Calm w s (detach s g) := .of_eq rfl rfl (fun _ => rfl) rfl
  unfold purgeFile
  dsimp only
  split
  · split
    · exact hq false
    · split
      · exact hq true
      · unfold directOpenDelete
        dsimp only
        exact (hd.trans (calm_flushFileCache _ g)).trans (.of_eq rfl rfl (fun _ => rfl) rfl)
  · split
    · exact hd
    · exact .refl _ _

theorem calm_directOpenAdd (p : Filename) : Calm w s (directOpenAdd Γ s p) :=
  ⟨rfl, Nat.le_succ _, fun _ hg => congrArg FileT.filename (Function.update_of_ne (Nat.ne_of_lt hg) _ _), fun _ => Desc.Later.refl _ _⟩

end Handlers

end FuseCompress
