import FuseCompress.ReadOnly
import FuseCompress.Lemmas.Background

/-!
# A read-only mount leaves the directory alone

Compressing and decompressing are guarded by `read_only`. Deduplication is not: what a reader opens can be queued for it, and a file
with the digest of a recorded one is replaced by a link. Nor is `file_open`, which changes the bits of a file that it may not open.
-/

namespace FuseCompress

variable {Γ : Config} {env : Env} {s s' s'' : State}

/-! ## What reading keeps -/

/-- What a read-only mount promises of its data: no file has been written to, no module is writing, and the queue holds files to
deduplicate only. -/
structure State.Reading (s : State) : Prop where
  type : ∀ f, (s.files f).type ≠ .write
  writing : ∀ d, ¬(s.descs d).writing
  comp : ∀ entry ∈ s.comp, entry.isDedup = true

/-- The directory is left alone and the promise is kept. -/
def Placid (s s' : State) : Prop := s.Reading → s'.fs = s.fs ∧ s'.Reading

theorem Placid.refl (s : State) : Placid s s := fun h => ⟨rfl, h⟩

theorem Placid.trans (h : Placid s s') (h' : Placid s' s'') : Placid s s'' := by
  intro hs
  obtain ⟨hfs, hs'⟩ := h hs
  obtain ⟨hfs', hs''⟩ := h' hs'
  exact ⟨hfs'.trans hfs, hs''⟩

theorem Placid.of_eq (hfs : s'.fs = s.fs) (hfiles : s'.files = s.files) (hdescs : s'.descs = s.descs) (hcomp : s'.comp = s.comp) :
    Placid s s' := by
  intro hs
  refine ⟨hfs, ?_, ?_, ?_⟩
  · rw [hfiles]
    exact hs.type
  · rw [hdescs]
    exact hs.writing
  · rw [hcomp]
    exact hs.comp

theorem placid_modFile (f : Nat) {g : FileT → FileT} (hg : ∀ x, x.type ≠ .write → (g x).type ≠ .write) : Placid s (s.modFile f g) := by
  intro hs
  refine ⟨rfl, fun f' => ?_, hs.writing, hs.comp⟩
  rw [State.files_modFile]
  split
  · exact hg _ (hs.type f)
  · exact hs.type f'

theorem placid_modDesc (d : Nat) {g : Desc → Desc} (hg : ∀ x, ¬x.writing → ¬(g x).writing) : Placid s (s.modDesc d g) := by
  intro hs
  refine ⟨rfl, hs.type, fun d' => ?_, hs.comp⟩
  rw [State.descs_modDesc]
  split
  · exact hg _ (hs.writing d)
  · exact hs.writing d'

section Functions

variable (Γ : Config) (env : Env) (s : State)

theorem placid_assert (c : Bool) : Placid s (s.assert Γ c) := by
  unfold State.assert
  split
  · exact .of_eq rfl rfl rfl rfl
  · exact .refl s

theorem placid_dedupDiscard (f : Nat) : Placid s (dedupDiscard s f) := by
  unfold dedupDiscard
  split
  · exact .refl s
  have hfile : Placid s (s.modFile f (fun file => { file with deduped := false })) := placid_modFile f (fun _ h => h)
  dsimp only
  split
  · exact hfile
  · exact hfile.trans (.of_eq rfl rfl rfl rfl)

theorem placid_discard (f : Nat) : Placid s (discard Γ s f) := by
  unfold discard
  split
  · exact placid_dedupDiscard s f
  · exact .refl s

theorem placid_flushFileCache (f : Nat) : Placid s (flushFileCache s f) := by
  unfold flushFileCache
  split
  · exact .refl s
  · rename_i pages _
    have hsize : Placid s { s with decompCacheSize := s.decompCacheSize - 4096 * ((pages.filter Option.isSome).length : Int) } :=
      .of_eq rfl rfl rfl rfl
    exact hsize.trans (placid_modFile f (fun _ h => h))

/-- A module that is not writing sends nothing when it is closed. -/
theorem placid_codecClose (m : Module) (d : Nat) : Placid s (codecClose Γ env s m d) := by
  intro hs
  unfold codecClose
  split
  · rename_i chunks _ hhandle _
    exact absurd ⟨chunks, hhandle⟩ (hs.writing d)
  · exact ⟨rfl, hs⟩

theorem placid_closeModule (d : Nat) : Placid s (s.modDesc d (fun desc => { desc with offset := 0, handle := none })) := by
  refine placid_modDesc d (fun x _ hw => ?_)
  obtain ⟨chunks, hchunks⟩ := hw
  cases hchunks

theorem placid_closeHandle (f d : Nat) : Placid s (closeHandle Γ env s f d) := by
  unfold closeHandle
  split
  · exact .refl s
  · exact .of_eq rfl rfl rfl rfl
  · exact (placid_codecClose Γ env s _ d).trans (placid_closeModule _ d)

/-- Only a file that was written to gets its times back. -/
theorem placid_restoreTimes (f : Nat) (st : Option Attr) : Placid s (restoreTimes env s f st) := by
  intro hs
  unfold restoreTimes
  split
  · rw [if_neg (fun h => hs.type f h.1)]
    exact ⟨rfl, hs⟩
  · exact ⟨rfl, hs⟩

theorem placid_directClose (f d : Nat) : Placid s (directClose Γ env s f d) := by
  unfold directClose
  dsimp only
  generalize (if env.ok .closeFstat then (s.descs d).fd.map (fun fd => (s.fs.inodes fd.ino).attr) else none) = stbuf
  have hclose := (placid_closeHandle Γ env s f d).trans (placid_restoreTimes env _ f stbuf)
  split
  · exact hclose.trans (placid_modFile f (fun _ _ => Access.noConfusion))
  · exact hclose

/-! ## Reading a compressed file -/

theorem placid_codecRead (m : Module) (d n : Nat) : Placid s (codecRead Γ env s m d n).1 := by
  unfold codecRead
  split
  · split
    · exact .refl s
    · refine placid_modDesc d (fun x _ hw => ?_)
      obtain ⟨chunks, hchunks⟩ := hw
      cases hchunks
  · exact .refl s

theorem placid_skipped (f d : Nat) (keep : Bool) (buf : Bytes) : Placid s (skipped s f d keep buf) := by
  have hfile : Placid s (s.modFile f (fun file =>
      { file with
        cache := if keep then file.cache.map (fun pages => pages.set ((s.descs d).offset / pageSize) (some buf)) else file.cache
        skipped := if keep then file.skipped else file.skipped + buf.length })) := placid_modFile f (fun _ h => h)
  exact hfile.trans (placid_modDesc d (fun _ h => h))

theorem placid_skipLoop (m : Module) (f d : Nat) (cacheThis : Bool) (n toread : Nat) :
    Placid s (skipLoop Γ env m f d cacheThis n toread s).1 := by
  induction n generalizing toread s with
  | zero => exact .refl s
  | succ n ih =>
    unfold skipLoop
    split
    · exact .refl s
    dsimp only
    have hcount : Placid s (countPage s (keepPage Γ s f d cacheThis)) := .of_eq rfl rfl rfl rfl
    have hread := hcount.trans (placid_codecRead Γ env _ m d (min toread pageSize))
    split
    · rename_i s₁ hcodec
      rw [hcodec] at hread
      exact hread
    · rename_i s₁ buf hcodec
      rw [hcodec] at hread
      split
      · exact hread
      · split
        · exact hread
        · exact (hread.trans (placid_skipped s₁ f d _ buf)).trans (ih _ _)

theorem placid_decompressRead (m : Module) (f d size : Nat) (served : Bytes) :
    Placid s (decompressRead Γ env s m f d size served).1 := by
  unfold decompressRead
  dsimp only
  have hread := placid_codecRead Γ env s m d (cutSize (s.files f) (s.descs d).offset size)
  split
  · rename_i s₁ hcodec
    rw [hcodec] at hread
    exact hread
  · rename_i s₁ buf hcodec
    rw [hcodec] at hread
    split
    · exact hread
    · exact hread.trans (placid_modDesc d (fun _ h => h))

theorem placid_allocCache (f : Nat) (cacheThis : Bool) : Placid s (allocCache s f cacheThis) := by
  unfold allocCache
  split
  · exact placid_modFile f (fun _ h => h)
  · exact .refl s

theorem placid_decompressSkip (m : Module) (f d size offset : Nat) (cacheThis : Bool) (served : Bytes) :
    Placid s (decompressSkip Γ env s m f d size offset cacheThis served).1 := by
  unfold decompressSkip
  split
  · dsimp only
    generalize (cacheThis && !decide (((offset - (s.descs d).offset : Nat) : Int) > Γ.maxDecompCacheSize - s.decompCacheSize)) = keep
    split
    · exact .refl s
    have hloop := (placid_allocCache s f keep).trans (placid_skipLoop Γ env _ m f d keep (offset - (s.descs d).offset)
      (offset - (s.descs d).offset))
    split
    · rename_i s₁ r hskip
      rw [hskip] at hloop
      exact hloop
    · rename_i s₁ hskip
      rw [hskip] at hloop
      exact hloop.trans (placid_decompressRead Γ env s₁ m f d size served)
  · exact placid_decompressRead Γ env s m f d size served

theorem placid_openStream (d : Nat) : Placid s (openStream Γ env s d).1 := by
  unfold openStream
  split
  · exact .refl s
  · exact placid_assert Γ s _
  · dsimp only
    split
    · exact placid_assert Γ s _
    · refine (placid_assert Γ s _).trans (placid_modDesc d (fun x _ hw => ?_))
      obtain ⟨chunks, hchunks⟩ := hw
      cases hchunks

theorem placid_rewind (m : Module) (d : Nat) : Placid s (rewind Γ env s m d) :=
  (placid_codecClose Γ env s m d).trans (placid_closeModule _ d)

theorem placid_decompressOpen (m : Module) (d offset : Nat) : Placid s (decompressOpen Γ env s m d offset).1 := by
  unfold decompressOpen
  split
  · split
    · exact .of_eq rfl rfl rfl rfl
    split
    · exact .refl s
    split
    · exact placid_rewind Γ env s m d
    · have hseek : Placid (rewind Γ env s m d) (seekHeader (rewind Γ env s m d) d) := placid_modDesc d (fun _ h => h)
      exact ((placid_rewind Γ env s m d).trans hseek).trans (placid_openStream Γ env _ d)
  · exact placid_openStream Γ env s d

theorem placid_serveCache (f : Nat) (cacheThis : Bool) (size offset : Nat) : Placid s (serveCache s f cacheThis size offset).1 := by
  unfold serveCache
  split
  · dsimp only
    generalize servePages ((s.files f).cache.getD []) (size / pageSize) (offset / pageSize) = r
    split
    · exact .refl s
    · have hsize : Placid s { s with decompCacheSize := s.decompCacheSize - pageSize * (r.2.2 : Int) } := .of_eq rfl rfl rfl rfl
      exact hsize.trans (placid_modFile f (fun _ h => h))
  · exact .refl s

/-- Serving pages leaves the type of a file alone. -/
theorem type_serveCache (f : Nat) (cacheThis : Bool) (size offset : Nat) :
    ((serveCache s f cacheThis size offset).1.files f).type = (s.files f).type := by
  unfold serveCache
  split
  · dsimp only
    split
    · rfl
    · rw [State.files_modFile, if_pos rfl]
  · rfl

end Functions

/-- A file of a read-only mount is not decompressed as a whole. -/
theorem readFallback_readOnly (hro : Γ.readOnly = true) {file : FileT} (htype : file.type = .read) (cacheSize : Int) (cacheThis : Bool)
    (now offset : Nat) : readFallback Γ file cacheSize cacheThis now offset = false := by
  unfold readFallback
  rw [htype, hro]
  simp

theorem placid_directDecompress (hro : Γ.readOnly = true) (m : Module) (f d size offset : Nat) :
    Placid s (directDecompress Γ env s m f d size offset).1 := by
  intro hs
  unfold directDecompress
  dsimp only
  have htyped : Placid s ((s.assert Γ (s.descs d).fd.isSome).modFile f
      (fun file => { file with type := if file.type = .unset then .read else file.type })) := by
    refine (placid_assert Γ s _).trans (placid_modFile f (fun x hx => ?_))
    dsimp only
    split
    · exact Access.noConfusion
    · exact hx
  have hread : (((s.assert Γ (s.descs d).fd.isSome).modFile f
      (fun file => { file with type := if file.type = .unset then .read else file.type })).files f).type = .read := by
    rw [State.files_modFile, if_pos rfl, State.files_assert]
    have hne := hs.type f
    dsimp only
    cases htype : (s.files f).type with
    | unset => rfl
    | read => rfl
    | write => exact absurd htype hne
  generalize (s.assert Γ (s.descs d).fd.isSome).modFile f
    (fun file => { file with type := if file.type = .unset then .read else file.type }) = s₁ at htyped hread
  generalize (Γ.cacheDecompressedData && offset % pageSize = 0 && size % pageSize = 0) = cacheThis
  have hserve := htyped.trans (placid_serveCache s₁ f cacheThis size offset)
  have htype := (type_serveCache s₁ f cacheThis size offset).trans hread
  generalize serveCache s₁ f cacheThis size offset = r at hserve htype
  obtain ⟨s₂, served, any⟩ := r
  dsimp only at hserve htype ⊢
  split
  · exact hserve hs
  rw [if_neg (by rw [readFallback_readOnly hro htype]; exact Bool.noConfusion)]
  have hopen := hserve.trans (placid_decompressOpen Γ env s₂ m d (offset + served.length))
  split
  · rename_i s₃ hdecompress
    rw [hdecompress] at hopen
    exact hopen hs
  · rename_i s₃ hdecompress
    rw [hdecompress] at hopen
    exact (hopen.trans (placid_decompressSkip Γ env s₃ m f d _ _ cacheThis served)) hs

/-! ## The requests -/

theorem placid_readLocked (env : Env) (s : State) (hro : Γ.readOnly = true) (f d size offset : Nat) : Placid s (readLocked Γ env s f d size offset).1 := by
  unfold readLocked
  split
  · exact placid_directDecompress hro _ f d size offset
  · exact .refl s

theorem placid_invalidateSize (s : State) (f : Nat) : Placid s (invalidateSize s f) := placid_modFile f (fun _ h => h)

theorem placid_releaseLocked (f d : Nat) : Placid s (releaseLocked Γ env s f d).1 := by
  unfold releaseLocked
  dsimp only
  have hclose : Placid s (releaseClose Γ env s f d) := by
    unfold releaseClose
    split
    · exact .refl s
    · exact placid_directClose Γ env s f d
  generalize releaseClose Γ env s f d = s₁ at hclose
  have hhead : Placid s₁ (s₁.modFile (s₁.descs d).file (fun file => { file with head := file.head.erase d })) :=
    placid_modFile _ (fun _ h => h)
  generalize s₁.modFile (s₁.descs d).file (fun file => { file with head := file.head.erase d }) = s₂ at hhead
  have hcount : Placid s₂ (s₂.modFile f (fun file => { file with accesses := file.accesses - 1 })) := placid_modFile f (fun _ h => h)
  exact ((hclose.trans hhead).trans hcount).trans (placid_modDesc d (fun _ h => h))

theorem placid_getattrMagic (s : State) (full : Filename) : Placid s (getattrMagic s full).1 := by
  unfold getattrMagic
  split
  · exact .of_eq rfl rfl rfl rfl
  · split
    · exact .of_eq rfl rfl rfl rfl
    · split
      · exact .refl s
      · exact .refl s

theorem placid_getattrLocked (f : Nat) (full : Filename) (st : Stat) : Placid s (getattrLocked Γ env s f full st).1 := by
  unfold getattrLocked
  dsimp only
  split
  · split
    · split
      · exact .refl s
      · rename_i i _
        have hcompressor : Placid s (s.modFile f (fun file =>
            { file with compressor := (fileReadHeader Γ (s.data i) (s.files f).compressor st.size).1 })) := placid_modFile f (fun _ h => h)
        split
        · exact hcompressor
        · exact hcompressor.trans (placid_modFile f (fun _ h => h))
    · exact placid_modFile f (fun _ h => h)
  · split
    · exact .refl s
    · exact .refl s

theorem placid_openDescriptor (f ino pos : Nat) (writable : Bool) (size : Int) :
    Placid s (openDescriptor s f ino pos writable size).1 := by
  have hdesc : Placid s
      { s with
        descs := Function.update s.descs s.nextDesc
          { file := f, fd := some ⟨ino, pos⟩, writable := writable, handle := none, offset := 0, live := true }
        nextDesc := s.nextDesc + 1 } := by
    intro hs
    refine ⟨rfl, hs.type, fun d => ?_, hs.comp⟩
    by_cases hd : d = s.nextDesc
    · rw [hd]
      intro hw
      obtain ⟨chunks, hchunks⟩ := hw
      dsimp only at hchunks
      rw [Function.update_self] at hchunks
      cases hchunks
    · dsimp only
      rw [Function.update_of_ne hd]
      exact hs.writing d
  exact hdesc.trans (placid_modFile f (fun _ h => h))

theorem placid_openFile (f : Nat) (full : Filename) (writable : Bool) : Placid s (openFile Γ env s f full writable).1 := by
  unfold openFile
  split
  · exact .refl s
  rename_i i _
  split
  · exact placid_modFile f (fun _ h => h)
  have hlinks : Placid s (noteLinks s f i) := placid_modFile f (fun _ h => h)
  generalize noteLinks s f i = s₁ at hlinks
  dsimp only
  split
  · split
    · exact hlinks.trans (placid_modFile f (fun _ h => h))
    · generalize fileReadHeader Γ (s₁.data i) (s₁.files f).compressor (s₁.data i).length = r
      have hcompressor : Placid s₁ (s₁.modFile f (fun file => { file with compressor := r.1 })) := placid_modFile f (fun _ h => h)
      exact (hlinks.trans hcompressor).trans (placid_openDescriptor f i headerSize writable r.2)
  · have hcompressor : Placid s₁ (s₁.modFile f (fun file => { file with compressor := none })) := placid_modFile f (fun _ h => h)
    exact (hlinks.trans hcompressor).trans (placid_openDescriptor f i 0 writable _)

/-- Only a file that is opened for writing gets a private copy. -/
theorem placid_openLocked (f : Nat) (full : Filename) : Placid s (openLocked Γ env s f full false).1 := by
  have hundedup : openUndedup Γ env s f false = (s, true) := if_neg (fun h => Bool.noConfusion h.2)
  unfold openLocked
  rw [hundedup]
  exact placid_openFile f full false

/-! ## The database and the background thread -/

theorem placid_backgroundDedup (f : Nat) : Placid s (backgroundCompressDedup s f true) := by
  intro hs
  obtain ⟨-, hcount⟩ := (placid_modFile f (fun _ h => h) : Placid s
    (s.modFile f (fun file => { file with accesses := file.accesses + 1 }))) hs
  refine ⟨rfl, hcount.type, hcount.writing, fun entry hentry => ?_⟩
  rcases List.mem_append.mp hentry with hold | hnew
  · exact hs.comp entry hold
  · rw [List.mem_singleton.mp hnew]

/-- Nothing of a read-only mount is queued for compression. -/
theorem placid_purgeFile (env : Env) (s : State) (hro : Γ.readOnly = true) (force : Bool) (f : Nat) : Placid s (purgeFile Γ env force s f) := by
  have hdetach : Placid s (detach s f) := .of_eq rfl rfl rfl rfl
  have hcompress : wantsCompress Γ env s.fs (s.files f) = false := by
    unfold wantsCompress
    rw [hro]
    simp
  unfold purgeFile
  dsimp only
  rw [hcompress]
  split
  · rw [if_neg Bool.noConfusion]
    split
    · exact placid_backgroundDedup f
    · exact (hdetach.trans (placid_flushFileCache _ f)).trans (.of_eq rfl rfl rfl rfl)
  · split
    · exact hdetach
    · exact .refl s

theorem placid_directOpenAdd (p : Filename) : Placid s (directOpenAdd Γ s p) := by
  intro hs
  refine ⟨rfl, fun f => ?_, hs.writing, hs.comp⟩
  unfold directOpenAdd
  dsimp only
  by_cases hf : f = s.nextFile
  · rw [hf, Function.update_self]
    exact Access.noConfusion
  · rw [Function.update_of_ne hf]
    exact hs.type f

theorem placid_compFinish (f : Nat) (isDedup : Bool) : Placid s (compFinish Γ s f isDedup) := by
  unfold compFinish
  dsimp only
  split
  · exact placid_modFile f (fun _ h => h)
  · exact (placid_discard Γ s f).trans (placid_modFile f (fun _ h => h))

theorem placid_hashStep (Γ : Config) (env : Env) (s : State) (name : Filename) (pc : HashPc) : Placid s (hashStep Γ env s name pc).1 := by
  cases pc with
  | start =>
    rw [hashStep]
    split
    · exact .refl s
    split
    · exact .refl s
    · exact .refl s
    · exact .of_eq rfl rfl rfl rfl
    · split
      · exact .refl s
      · exact .refl s
  | raw i got =>
    rw [hashStep]
    split
    · exact .refl s
    · split
      · exact .refl s
      · exact .refl s
  | packed i m got =>
    rw [hashStep]
    split
    · exact .refl s
    · dsimp only
      split
      · exact .refl s
      · exact .refl s
  | finished hash => exact .refl s

theorem placid_workerProcess (Γ : Config) (env : Env) (s : State) (f : Nat) : Placid s (workerProcess Γ env s f true).1 := by
  unfold workerProcess
  dsimp only
  have hassert : Placid s (s.assert Γ (decide ((s.files f).accesses > 0))) := placid_assert Γ s _
  rw [if_pos rfl]
  split
  · exact hassert.trans (placid_modFile f (fun _ h => h))
  · exact hassert.trans (placid_compFinish f true)

/-- The background thread has a digest, and a record with it whose file it can link to. -/
def Twin (env : Env) (s : State) (f : Nat) (md5 : List UInt8) : Prop :=
  (s.files f).status.cancel = false ∧
    ∃ dp, s.dedup.findMd5 md5 = some dp ∧ dp.filename ≠ (s.files f).filename ∧ env.ok .link = true ∧ s.fs.inoOf dp.filename ≠ none

theorem hardlinkFile_of_not_twin (Γ : Config) {f : Nat} {md5 : List UInt8} (hcancel : (s.files f).status.cancel = false) (h : ¬Twin env s f md5) :
    ∃ dedup, hardlinkFile Γ env s md5 (s.files f).filename = ({ s with dedup := dedup }, none) := by
  unfold hardlinkFile
  cases hfind : s.dedup.findMd5 md5 with
  | none => exact ⟨_, rfl⟩
  | some dp =>
    dsimp only
    split
    · exact ⟨s.dedup, rfl⟩
    · rename_i hname
      split
      · exact ⟨s.dedup, rfl⟩
      · rename_i j hj
        refine absurd ⟨hcancel, dp, hfind, fun e => hname e.symm, ?_, ?_⟩ h
        · by_contra hlink
          rw [if_neg hlink] at hj
          cases hj
        · intro hnone
          rw [hnone, ite_self] at hj
          cases hj

/-- The end of `do_dedup` changes the directory only by linking. -/
theorem placid_doDedupEnd (Γ : Config) {f : Nat} {hash : Option (List UInt8)} (h : ∀ md5, hash = some md5 → ¬Twin env s f md5) :
    Placid s (doDedupEnd Γ env s f hash) := by
  unfold doDedupEnd
  cases hash with
  | none => exact placid_modFile f (fun _ h => h)
  | some md5 =>
    dsimp only
    split
    · rename_i hcancel
      obtain ⟨dedup, hlink⟩ := hardlinkFile_of_not_twin Γ hcancel (h md5 rfl)
      have hdedup : Placid s { s with dedup := dedup } := .of_eq rfl rfl rfl rfl
      rw [hlink]
      exact hdedup.trans (placid_modFile f (fun _ h => h))
    · exact placid_modFile f (fun _ h => h)

/-! ## The threads -/

/-- The caller reads. -/
def Caller.reads : Caller → Bool
  | .getattr _ _ => true
  | .open _ writable => !writable
  | _ => false

/-- A thread of a read-only mount can be here. -/
def Pc.reads : Pc → Bool
  | .idle _ => true
  | .getattrStat _ => true
  | .purgeStart _ => true
  | .opening k => k.reads
  | .purging _ k _ => k.all Caller.reads
  | .waiting k _ _ => k.reads
  | .fetched _ op _ => !op.isWrite
  | .preading _ _ _ _ _ _ _ => true
  | .preaded _ _ _ _ => true
  | _ => false

/-- The background thread of a read-only mount can be here. -/
def WorkerPc.dedups : WorkerPc → Bool
  | .dequeued _ isDedup => isDedup
  | .compressing _ _ _ => false
  | _ => true

theorem takeRequest_reads {r : Request} (h : r.readOnly = true) : (takeRequest Γ s r).reads = true := by
  cases r with
  | getattr full => rfl
  | «open» full writable => exact h
  | desc d op =>
    cases op with
    | read size offset => rfl
    | release => rfl
    | write buf offset => cases h
  | purge => rfl
  | sigterm => rfl
  | _ => cases h

theorem callerBody_reads (Γ : Config) (env : Env) (s : State) {k : Caller} (hk : k.reads = true) (f : Nat) :
    Placid s (callerBody Γ env s f k).1 ∧ (callerBody Γ env s f k).2.reads = true := by
  cases k with
  | getattr full st => exact ⟨placid_getattrLocked f full st, rfl⟩
  | «open» full writable =>
    cases writable with
    | true => cases hk
    | false =>
      rw [callerBody, openBody_whole (fun h => Bool.false_ne_true h.2)]
      exact ⟨placid_openLocked f full, rfl⟩
  | _ => cases hk

theorem directOpenWait_reads (Γ : Config) (env : Env) (s : State) {k : Caller} (hk : k.reads = true) (f : Nat) :
    Placid s (directOpenWait Γ env s f k).1 ∧ (directOpenWait Γ env s f k).2.reads = true := by
  unfold directOpenWait
  split
  · exact ⟨placid_modFile f (fun _ h => h), hk⟩
  · exact callerBody_reads Γ env s hk f

theorem directOpenNew_reads (Γ : Config) (env : Env) (s : State) {k : Caller} (hk : k.reads = true) :
    Placid s (directOpenNew Γ env s k).1 ∧ (directOpenNew Γ env s k).2.reads = true := by
  obtain ⟨hplacid, hreads⟩ := callerBody_reads Γ env (directOpenAdd Γ s k.filename) hk s.nextFile
  exact ⟨(placid_directOpenAdd k.filename).trans hplacid, hreads⟩

theorem directOpenStart_reads {k : Caller} (hk : k.reads = true) {pc : Pc} (h : directOpenStart Γ env s k = some (s', pc)) :
    Placid s s' ∧ pc.reads = true := by
  unfold directOpenStart at h
  split at h
  · rename_i f _
    split at h
    · have hfound : Placid s (directOpenFound s f) := placid_modFile f (fun _ h => h)
      obtain ⟨hplacid, hreads⟩ := directOpenWait_reads Γ env (directOpenFound s f) hk f
      generalize directOpenWait Γ env (directOpenFound s f) f k = r at h hplacid hreads
      cases h
      exact ⟨hfound.trans hplacid, hreads⟩
    · cases h
  · have hcount : Placid s { s with entries := s.entries + 1 } := .of_eq rfl rfl rfl rfl
    dsimp only at h
    split at h
    · cases h
      exact ⟨hcount, hk⟩
    · obtain ⟨hplacid, hreads⟩ := directOpenNew_reads Γ env { s with entries := s.entries + 1 } hk
      generalize directOpenNew Γ env { s with entries := s.entries + 1 } k = r at h hplacid hreads
      cases h
      exact ⟨hcount.trans hplacid, hreads⟩

theorem descLocked_reads (env : Env) (s : State) (hro : Γ.readOnly = true) (d f : Nat) {op : DescOp} (hop : op.isWrite = false) :
    Placid s (descLocked Γ env s d f op).1 ∧ (descLocked Γ env s d f op).2.reads = true := by
  cases op with
  | read size offset =>
    have hread := placid_readLocked env s hro f d size offset
    unfold descLocked
    dsimp only
    split
    · rename_i s₁ res buf hlocked
      rw [hlocked] at hread
      split
      · exact ⟨hread, rfl⟩
      · exact ⟨hread, rfl⟩
    · rename_i s₁ fd size' offset' served hlocked
      rw [hlocked] at hread
      exact ⟨hread, rfl⟩
  | write buf offset => cases hop
  | release => exact ⟨placid_releaseLocked f d, rfl⟩

/-- A step of a thread that reads. -/
theorem clientStep_reads (hro : Γ.readOnly = true) {free : Bool} {pc pc' : Pc} (hpc : pc.reads = true)
    (h : clientStep Γ env free s pc = some (s', pc')) : Placid s s' ∧ pc'.reads = true := by
  cases pc with
  | idle last => cases h
  | getattrStat full =>
    rw [clientStep] at h
    split at h
    · have hmagic := placid_getattrMagic s full
      generalize getattrMagic s full = r at h hmagic
      cases h
      exact ⟨hmagic, rfl⟩
    · split at h
      · cases h
        exact ⟨.refl s, rfl⟩
      · cases h
        exact ⟨.refl s, rfl⟩
      · cases h
        exact ⟨.refl s, rfl⟩
  | purgeStart force =>
    rw [clientStep] at h
    split at h
    · cases h
      exact ⟨.refl s, rfl⟩
    · cases h
  | opening k =>
    rw [clientStep] at h
    split at h
    · exact directOpenStart_reads hpc h
    · cases h
  | purging todo k force =>
    cases todo with
    | cons f todo =>
      rw [clientStep] at h
      split at h
      · cases h
      split at h
      · cases h
      · have hpurge := placid_purgeFile env s hro force f
        generalize purgeFile Γ env force s f = s₁ at h hpurge
        cases h
        exact ⟨hpurge, hpc⟩
    | nil =>
      cases k with
      | none =>
        cases h
        exact ⟨.refl s, rfl⟩
      | some k =>
        have hk : k.reads = true := hpc
        obtain ⟨hplacid, hreads⟩ := directOpenNew_reads Γ env s hk
        rw [clientStep] at h
        generalize directOpenNew Γ env s k = r at h hplacid hreads
        cases h
        exact ⟨hplacid, hreads⟩
  | waiting k f seen =>
    rw [clientStep] at h
    split at h
    · have hk : k.reads = true := hpc
      obtain ⟨hplacid, hreads⟩ := directOpenWait_reads Γ env s hk f
      generalize directOpenWait Γ env s f k = r at h hplacid hreads
      cases h
      exact ⟨hplacid, hreads⟩
    · cases h
  | fetched d op f =>
    have hop : op.isWrite = false := by
      cases hop : op.isWrite with
      | false => rfl
      | true =>
        rw [Pc.reads, hop] at hpc
        cases hpc
    rw [clientStep] at h
    split at h
    · obtain ⟨hplacid, hreads⟩ := descLocked_reads env s hro d f hop
      generalize descLocked Γ env s d f op = r at h hplacid hreads
      cases h
      exact ⟨hplacid, hreads⟩
    · cases h
  | preading d f fd size offset served relock =>
    cases h
    exact ⟨.refl s, rfl⟩
  | preaded d f res relock =>
    cases res with
    | some buf =>
      rw [clientStep] at h
      split at h
      · cases h
      · cases h
        exact ⟨.refl s, rfl⟩
    | none =>
      rw [clientStep] at h
      split at h
      · cases h
      · cases h
        exact ⟨placid_invalidateSize s f, rfl⟩
  | _ => cases hpc

/-- A step of the background thread that does not find a twin. -/
theorem workerStep_dedups {w w' : WorkerPc} (hs : s.Reading) (hw : w.dedups = true)
    (htwin : ∀ f md5, w = .hashing f (.finished (some md5)) → ¬Twin env s f md5) (h : workerStep Γ env s w = some (s', w')) :
    Placid s s' ∧ w'.dedups = true := by
  cases w with
  | idle =>
    rw [workerStep, Option.map_eq_some_iff] at h
    obtain ⟨⟨s₁, entry⟩, hdequeue, e⟩ := h
    cases e
    obtain ⟨hcomp, hs₁⟩ := compDequeue_spec hdequeue
    have hqueued : ∀ entry' ∈ entry :: s₁.comp, entry'.isDedup = true := by
      rw [← hcomp]
      exact hs.comp
    refine ⟨fun _ => ?_, hqueued entry List.mem_cons_self⟩
    rw [hs₁]
    exact ⟨rfl, hs.type, hs.writing, fun entry' hentry' => hqueued entry' (List.mem_cons_of_mem _ hentry')⟩
  | dequeued f isDedup =>
    cases isDedup with
    | false => cases hw
    | true =>
      rw [workerStep] at h
      split at h
      · have hprocess := placid_workerProcess Γ env s f
        have hdedups : (workerProcess Γ env s f true).2.dedups = true := by
          unfold workerProcess
          dsimp only
          rw [if_pos rfl]
          split
          · rfl
          · rfl
        generalize workerProcess Γ env s f true = r at h hprocess hdedups
        cases h
        exact ⟨hprocess, hdedups⟩
      · cases h
  | compressing job got eof => cases hw
  | hashing f pc =>
    have hgo : (if s.freed f then none else let r := hashStep Γ env s (s.files f).filename pc; some (r.1, WorkerPc.hashing f r.2)) =
        some (s', w') → Placid s s' ∧ w'.dedups = true := by
      intro h
      split at h
      · cases h
      · have hhash := placid_hashStep Γ env s (s.files f).filename pc
        dsimp only at h
        generalize hashStep Γ env s (s.files f).filename pc = r at h hhash
        cases h
        exact ⟨hhash, rfl⟩
    cases pc with
    | finished hash =>
      rw [workerStep] at h
      split at h
      · have hend : Placid s (doDedupEnd Γ env s f hash) := placid_doDedupEnd Γ (fun md5 e => htwin f md5 (by rw [e]))
        cases h
        exact ⟨hend.trans (placid_compFinish f true), rfl⟩
      · cases h
    | start => exact hgo h
    | raw ino got => exact hgo h
    | packed ino m got => exact hgo h

/-! ## The mount -/

section System

variable {T : Type} [DecidableEq T] {sys sys' : Sys T} {turn : Turn T}

/-- What a step may do on a read-only mount: no name, no inode and no permission bit of the directory changes, and nothing is
created. -/
structure Untouched (Γ : Config) (sys : Sys T) (turn : Turn T) (sys' : Sys T) : Prop where
  names : sys'.shared.fs.names = sys.shared.fs.names
  inodes : sys'.shared.fs.inodes = sys.shared.fs.inodes
  next : sys'.shared.fs.next = sys.shared.fs.next
  modes : ∀ p i, sys.opens Γ turn.label = some p → sys.shared.fs.inoOf p = some i →
    ∀ mode ∈ fileOpenModes turn.opening (sys.shared.fs.inodes i).attr.mode, mode = (sys.shared.fs.inodes i).attr.mode

/-- The condition on a step: the background thread does not find another file with the same digest that it can link to, and a file
that is given to `file_open` can be opened, or cannot be forced open, or has all bits already. -/
structure Sys.LeavesAlone (Γ : Config) (sys : Sys T) (turn : Turn T) : Prop where
  twin : ∀ env f md5, turn.label = .worker env → sys.worker = .hashing f (.finished (some md5)) → ¬Twin env sys.shared f md5
  opened : ∀ p i, sys.opens Γ turn.label = some p → sys.shared.fs.inoOf p = some i →
    turn.opening.denied = true → turn.opening.stat = true → turn.opening.chmod = true →
    (sys.shared.fs.inodes i).attr.mode ||| allModes = (sys.shared.fs.inodes i).attr.mode

/-- The invariant. -/
structure Sys.Reading (sys : Sys T) : Prop where
  data : sys.shared.Reading
  clients : ∀ t, (sys.clients t).reads = true
  worker : sys.worker.dedups = true

omit [DecidableEq T] in
theorem Sys.reading_remounted (fs : Backing) (dedup : DedupHash) (redup : Bool) : (Sys.remounted fs dedup redup : Sys T).Reading where
  data := by
    refine ⟨fun _ => Access.noConfusion, fun _ hw => ?_, fun _ hentry => ?_⟩
    · obtain ⟨chunks, hchunks⟩ := hw
      cases hchunks
    · cases hentry
  clients := fun _ => rfl
  worker := rfl

theorem Sys.Reading.advance (h : sys.Reading) {t : T} {s : State} {pc : Pc} (hs : s.Reading) (hpc : pc.reads = true) :
    (sys.advance t s pc).Reading where
  data := hs
  clients t' := by
    unfold Sys.advance
    dsimp only
    by_cases ht : t' = t
    · rw [ht, Function.update_self]
      exact hpc
    · rw [Function.update_of_ne ht]
      exact h.clients t'
  worker := h.worker

/-- A step keeps the invariant and leaves the directory as it is, but for the time of day. -/
theorem Sys.Reading.step (hro : Γ.readOnly = true) (h : sys.Reading) (hdelivered : turn.label.readOnly = true) (hok : sys.LeavesAlone Γ turn)
    (hs : sys.turn Γ turn = some sys') :
    sys'.Reading ∧ ∃ now, sys'.shared.fs = { sys.shared.fs with clock := now } := by
  have hsame : ∀ {s : State}, Placid sys.shared s → s.Reading ∧ ∃ now, s.fs = { sys.shared.fs with clock := now } := by
    intro s hplacid
    obtain ⟨hfs, hreading⟩ := hplacid h.data
    exact ⟨hreading, sys.shared.fs.clock, hfs⟩
  obtain ⟨label, opening⟩ := turn
  unfold Sys.turn at hs
  dsimp only at hs
  cases label with
  | request t r =>
    rw [Sys.step] at hs
    split at hs
    · split at hs
      · cases hs
      · cases hs
        obtain ⟨hreading, hfs⟩ := hsame (.refl _)
        exact ⟨h.advance hreading (takeRequest_reads hdelivered), hfs⟩
    · cases hs
  | client t env =>
    rw [Sys.step] at hs
    split at hs
    · cases hs
    · rw [Option.map_eq_some_iff] at hs
      obtain ⟨⟨s, pc⟩, hclient, e⟩ := hs
      cases e
      obtain ⟨hplacid, hreads⟩ := clientStep_reads hro (h.clients t) hclient
      obtain ⟨hreading, hfs⟩ := hsame hplacid
      exact ⟨h.advance hreading hreads, hfs⟩
  | worker env =>
    rw [Sys.step] at hs
    split at hs
    · cases hs
    · rw [Option.map_eq_some_iff] at hs
      obtain ⟨⟨s, w⟩, hworker, e⟩ := hs
      cases e
      obtain ⟨hplacid, hdedups⟩ := workerStep_dedups h.data h.worker (fun f md5 hw => hok.twin env f md5 rfl hw) hworker
      obtain ⟨hreading, hfs⟩ := hsame hplacid
      exact ⟨⟨hreading, h.clients, hdedups⟩, hfs⟩
  | tick =>
    cases hs
    exact ⟨⟨⟨h.data.type, h.data.writing, h.data.comp⟩, h.clients, h.worker⟩, _, rfl⟩

theorem fileOpenModes_eq {o : Opening} {mode : Nat}
    (h : o.denied = true → o.stat = true → o.chmod = true → mode ||| allModes = mode) : ∀ m ∈ fileOpenModes o mode, m = mode := by
  intro m hm
  unfold fileOpenModes at hm
  split at hm
  · rename_i hforced
    rw [Bool.and_eq_true, Bool.and_eq_true] at hforced
    obtain ⟨⟨hdenied, hstat⟩, hchmod⟩ := hforced
    rcases List.mem_cons.mp hm with hfirst | hrest
    · rw [hfirst, h hdenied hstat hchmod]
    · split at hrest
      · exact List.mem_singleton.mp hrest
      · cases hrest
  · cases hm

/-- A run of harmless steps on a read-only mount touches nothing, with any other options. -/
theorem Sys.readOnly_untouched (Γ : Config) (hro : Γ.readOnly = true) (fs : Backing) (dedup : DedupHash) (redup : Bool)
    (turns : List (Turn T)) (sys sys' : Sys T) (turn : Turn T)
    (hrun : Run (Sys.turn Γ) (fun sys turn => turn.label.readOnly = true ∧ sys.LeavesAlone Γ turn) (.remounted fs dedup redup) turns sys)
    (hdelivered : turn.label.readOnly = true) (hok : sys.LeavesAlone Γ turn) (hs : sys.turn Γ turn = some sys') : Untouched Γ sys turn sys' := by
  have hreading : sys.Reading := by
    refine Run.invariant (I := Sys.Reading) (fun s a t hs ha ht => ?_) hrun (Sys.reading_remounted fs dedup redup)
    exact (hs.step hro ha.1 ha.2 ht).1
  obtain ⟨-, now, hfs⟩ := hreading.step hro hdelivered hok hs
  refine ⟨?_, ?_, ?_, fun p i hopens hino => fileOpenModes_eq (hok.opened p i hopens hino)⟩
  · rw [hfs]
  · rw [hfs]
  · rw [hfs]

end System

/-! ## Two equal files -/

/-- Two empty files. -/
def Backing.twoEmpty : Backing where
  names := [(['a'], .reg 0), (['b'], .reg 1)]
  inodes := fun _ => ⟨[], { mode := 0o100644, uid := 0, gid := 0, atime := 0, mtime := 0 }⟩
  next := 2
  clock := 0
  fsetid := false

/-- A read-only mount with deduplication. -/
def Config.readOnlyDedup : Config := { Config.plain with readOnly := true, dedupEnabled := true }

/-- A step whose `file_open`, if any, goes well. -/
def Turn.fine (label : Label (Fin 1)) : Turn (Fin 1) :=
  { label := label, opening := { denied := false, stat := true, chmod := true, again := true, restore := true } }

/-- Both files are looked at, which queues them when the database is purged, and the background thread has the digest of the second
one. -/
def lookAtBoth (t : Fin 1) : List (Turn (Fin 1)) :=
  [.fine (.request t (.getattr ['a'])), .fine (.client t .fine), .fine (.client t .fine), .fine (.request t (.getattr ['b'])),
    .fine (.client t .fine), .fine (.client t .fine), .fine (.request t .purge), .fine (.client t .fine), .fine (.client t .fine),
    .fine (.client t .fine), .fine (.client t .fine)] ++ List.replicate 9 (.fine (.worker .fine))

/-- The second file is replaced by a link to the first one. -/
theorem Sys.readOnly_links :
    ¬∀ (Γ : Config), Γ.readOnly = true → ∀ (fs : Backing) (dedup : DedupHash) (redup : Bool) (turns : List (Turn (Fin 1)))
      (sys sys' : Sys (Fin 1)) (turn : Turn (Fin 1)),
      Run (Sys.turn Γ) (fun _ turn => turn.label.readOnly = true) (.remounted fs dedup redup) turns sys →
      turn.label.readOnly = true → sys.turn Γ turn = some sys' → Untouched Γ sys turn sys' := by
  intro h
  obtain ⟨sys, hrun, hlinks⟩ := Run.exists_of_executeIf (show (executeIf (Sys.turn .readOnlyDedup)
    (fun _ turn => turn.label.readOnly = true) (.remounted .twoEmpty dedupInitDb true) (lookAtBoth 0)).any
      (fun sys => (sys.turn .readOnlyDedup (.fine (.worker .fine))).any
        (fun sys' => decide (sys'.shared.fs.names ≠ sys.shared.fs.names))) = true by decide +kernel)
  rw [Option.any_eq_true] at hlinks
  obtain ⟨sys', hstep, hne⟩ := hlinks
  have huntouched := h .readOnlyDedup rfl _ _ _ (lookAtBoth 0) sys sys' _ hrun rfl hstep
  exact of_decide_eq_true hne huntouched.names

theorem Sys.harmless_fine (Γ : Config) (sys : Sys (Fin 1)) {label : Label (Fin 1)} (h : ∀ env, label ≠ .worker env) :
    sys.LeavesAlone Γ (.fine label) :=
  ⟨fun env _ _ hlabel => absurd hlabel (h env), (fun _ _ _ _ hdenied => by cases hdenied)⟩

/-- A file is opened. -/
theorem Sys.readOnly_untouched_opened :
    ∃ sys sys' : Sys (Fin 1), Untouched .readOnlyDedup sys (.fine (.client 0 .fine)) sys' ∧ (sys'.shared.descs 0).live = true := by
  have hrequest : (Sys.remounted .twoEmpty dedupInitDb true).LeavesAlone .readOnlyDedup (.fine (.request 0 (.open ['a'] false))) :=
    Sys.harmless_fine _ _ (fun _ h => by cases h)
  exact ⟨_, _, Sys.readOnly_untouched .readOnlyDedup rfl .twoEmpty dedupInitDb true [.fine (.request 0 (.open ['a'] false))] _ _ _
    (.cons ⟨rfl, hrequest⟩ rfl (.nil _)) rfl (Sys.harmless_fine _ _ (fun _ h => by cases h)) rfl, rfl⟩

end FuseCompress
