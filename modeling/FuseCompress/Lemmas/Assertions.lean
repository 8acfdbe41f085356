import FuseCompress.Lemmas.Remounts

/-!
# The assertions

No assertion fails, and no module is called through a NULL pointer, between two operations of which nothing fails: each assertion says
what the way a file stands (`State.Stands`) says already.
-/

namespace FuseCompress

variable {Γ : Config} {env : Env} {s s' : State} {q : PlainFs Filename} {refs : Nat → Nat} {f i d : Nat} {m : Module} {content : Bytes}

/-! ## Functions without assertions -/

/-- An assertion that holds does nothing. -/
theorem aborted_assert {c : Bool} (h : c = true) : (s.assert Γ c).aborted = s.aborted := by
  rw [h, State.assert_true]

@[simp] theorem aborted_flushFileCache (s : State) (f : Nat) : (flushFileCache s f).aborted = s.aborted := by
  unfold flushFileCache
  split <;> rfl

@[simp] theorem aborted_writeFd (s : State) (d : Nat) (fd : Fd) (buf : Bytes) : (writeFd s d fd buf).aborted = s.aborted := by
  unfold writeFd
  dsimp only
  split <;> rfl

/-- `compressor->close` asserts nothing of the entry. -/
@[simp] theorem aborted_codecClose (Γ : Config) (env : Env) (s : State) (m : Module) (d : Nat) :
    (codecClose Γ env s m d).aborted = s.aborted := by
  unfold codecClose
  split
  · split
    · rw [aborted_writeFd]
    · rfl
  · rfl

@[simp] theorem aborted_restoreTimes (env : Env) (s : State) (f : Nat) (stbuf : Option Attr) :
    (restoreTimes env s f stbuf).aborted = s.aborted := by
  unfold restoreTimes
  split
  · split <;> rfl
  · rfl

/-- The loop of `do_decompress` that opens the descriptors again asserts nothing. -/
@[simp] theorem aborted_reopenAll (env : Env) (s : State) (temp : Nat) (ds : List Nat) : (reopenAll env s temp ds).aborted = s.aborted := by
  induction ds generalizing s with
  | nil => rfl
  | cons d ds ih =>
    rw [reopenAll, ih]
    rfl

/-- Nor does what follows it. -/
@[simp] theorem aborted_doDecompressInstall (env : Env) (s : State) (f temp : Nat) (st : Attr) (size : Nat) :
    (doDecompressInstall env s f temp st size).1.aborted = s.aborted := by
  unfold doDecompressInstall
  dsimp only
  repeat' split
  all_goals exact aborted_reopenAll env s temp _

@[simp] theorem aborted_codecRead (Γ : Config) (env : Env) (s : State) (m : Module) (d n : Nat) :
    (codecRead Γ env s m d n).1.aborted = s.aborted := by
  unfold codecRead
  repeat' split
  all_goals rfl

@[simp] theorem aborted_skipped (s : State) (f d : Nat) (keep : Bool) (buf : Bytes) : (skipped s f d keep buf).aborted = s.aborted := rfl

/-- By induction on the rounds: no round asserts anything. -/
theorem aborted_skipLoop (Γ : Config) (env : Env) (m : Module) (f d : Nat) (cacheThis : Bool) (n toread : Nat) (s : State) :
    (skipLoop Γ env m f d cacheThis n toread s).1.aborted = s.aborted := by
  induction n generalizing toread s with
  | zero => rfl
  | succ n ih =>
    rw [skipLoop]
    split
    · rfl
    · dsimp only
      have hread := aborted_codecRead Γ env (countPage s (keepPage Γ s f d cacheThis)) m d (min toread pageSize)
      generalize codecRead Γ env (countPage s (keepPage Γ s f d cacheThis)) m d (min toread pageSize) = r at hread ⊢
      rcases r with ⟨s₁, _ | buf⟩
      · exact hread
      · dsimp only
        split
        · exact hread
        · split
          · exact hread
          · rw [ih]
            exact hread

theorem aborted_decompressRead (Γ : Config) (env : Env) (s : State) (m : Module) (f d size : Nat) (served : Bytes) :
    (decompressRead Γ env s m f d size served).1.aborted = s.aborted := by
  unfold decompressRead
  dsimp only
  have hread := aborted_codecRead Γ env s m d (cutSize (s.files f) (s.descs d).offset size)
  generalize codecRead Γ env s m d (cutSize (s.files f) (s.descs d).offset size) = r at hread ⊢
  rcases r with ⟨s₁, _ | buf⟩
  · exact hread
  · dsimp only
    split <;> exact hread

theorem aborted_decompressSkip (Γ : Config) (env : Env) (s : State) (m : Module) (f d size offset : Nat) (cacheThis : Bool)
    (served : Bytes) : (decompressSkip Γ env s m f d size offset cacheThis served).1.aborted = s.aborted := by
  unfold decompressSkip
  split
  · dsimp only
    generalize (cacheThis && !decide (((offset - (s.descs d).offset : Nat) : Int) > Γ.maxDecompCacheSize - s.decompCacheSize)) = c
    split
    · rfl
    have halloc : (allocCache s f c).aborted = s.aborted := by
      unfold allocCache
      split <;> rfl
    have hskip := aborted_skipLoop Γ env m f d c (offset - (s.descs d).offset) (offset - (s.descs d).offset) (allocCache s f c)
    rw [halloc] at hskip
    generalize skipLoop Γ env m f d c (offset - (s.descs d).offset) (offset - (s.descs d).offset) (allocCache s f c) = r at hskip ⊢
    rcases r with ⟨s₁, _ | r⟩
    · exact (aborted_decompressRead ..).trans hskip
    · exact hskip
  · exact aborted_decompressRead ..

/-! ## Closing -/

/-- `direct_close` of a file that has a module. -/
theorem aborted_directClose (Γ : Config) (env : Env) (hm : (s.files f).compressor = some m) (d : Nat) :
    (directClose Γ env s f d).aborted = s.aborted := by
  have hclose : (closeHandle Γ env s f d).aborted = s.aborted := by
    unfold closeHandle
    rw [hm]
    cases (s.descs d).handle with
    | none => rfl
    | some handle => exact aborted_codecClose ..
  unfold directClose
  dsimp only
  generalize (if env.ok .closeFstat then (s.descs d).fd.map (fun fd => (s.fs.inodes fd.ino).attr) else none) = stbuf
  split <;> exact (aborted_restoreTimes ..).trans hclose

/-- The descriptor keeps its open file. -/
theorem attached_directClose (Γ : Config) (env : Env) (hm : (s.files f).compressor = some m) (d : Nat) :
    ((directClose Γ env s f d).descs d).fd.isSome = (s.descs d).fd.isSome := by
  have hclose : ((closeHandle Γ env s f d).descs d).fd.isSome = (s.descs d).fd.isSome := by
    unfold closeHandle
    rw [hm]
    cases hhandle : (s.descs d).handle with
    | none => rfl
    | some handle =>
      dsimp only
      rw [State.descs_modDesc, if_pos rfl]
      unfold codecClose
      split
      · rename_i hfd
        split
        · unfold writeFd
          dsimp only
          rw [State.descs_modDesc, if_pos rfl, hfd]
          rfl
        · rfl
      · rfl
  have hrestore : ∀ (t : State) stbuf, (restoreTimes env t f stbuf).descs = t.descs := by
    intro t stbuf
    unfold restoreTimes
    repeat' split
    all_goals rfl
  unfold directClose
  dsimp only
  generalize (if env.ok .closeFstat then (s.descs d).fd.map (fun fd => (s.fs.inodes fd.ino).attr) else none) = stbuf
  split
  · rw [State.descs_modFile, hrestore]
    exact hclose
  · rw [hrestore]
    exact hclose

/-- `do_decompress` closes descriptors that have a file open. -/
theorem aborted_closeAll (Γ : Config) (env : Env) {ds : List Nat} (hm : (s.files f).compressor = some m) (hnodup : ds.Nodup)
    (hattached : ∀ d ∈ ds, (s.descs d).fd.isSome = true) : (closeAll Γ env s f ds).aborted = s.aborted := by
  induction ds generalizing s with
  | nil => rfl
  | cons d ds ih =>
    obtain ⟨hnotin, hnodup'⟩ := List.nodup_cons.mp hnodup
    have hpushes := (pushes_directClose Γ (env.of d) hm d).fileClose
    have hone : (fileClose Γ (directClose Γ (env.of d) s f d) d).aborted = s.aborted := by
      unfold fileClose
      rw [State.aborted_modDesc, aborted_assert]
      · exact aborted_directClose Γ (env.of d) hm d
      · rw [attached_directClose Γ (env.of d) hm]
        exact hattached d List.mem_cons_self
    rw [closeAll, ih (hpushes.compressor.trans hm) hnodup', hone]
    intro d' hd'
    have hne : d' ≠ d := fun e => hnotin (e ▸ hd')
    rw [hpushes.others d' hne]
    exact hattached d' (List.mem_cons_of_mem d hd')

/-! ## Decompressing -/

/-- What the assertions are about: the entry has the module of the header of its file, if that has one, and its descriptors are open,
those without a stream at the start. -/
structure State.Coherent (Γ : Config) (s : State) (f : Nat) (m : Module) : Prop where
  compressor : (s.files f).compressor = some m
  nodup : (s.files f).head.Nodup
  attached : ∀ d ∈ (s.files f).head, (s.descs d).fd.isSome = true
  parse : ∀ i m' n, s.fs.inoOf (s.files f).filename = some i → parse Γ (s.data i) = some (m', n) → m' = m
  placed : ∀ d ∈ (s.files f).head, (s.descs d).handle = none → (s.descs d).offset = 0

/-- A change of the entry that is not about its module or its descriptors. -/
theorem State.Coherent.modFile (h : s.Coherent Γ f m) {g : FileT → FileT}
    (hg : ∀ x, (g x).filename = x.filename ∧ (g x).compressor = x.compressor ∧ (g x).head = x.head) : (s.modFile f g).Coherent Γ f m := by
  obtain ⟨hname, hcomp, hhead⟩ := hg (s.files f)
  have hfile : (s.modFile f g).files f = g (s.files f) := by rw [State.files_modFile, if_pos rfl]
  refine ⟨?_, ?_, ?_, ?_, ?_⟩
  · rw [hfile, hcomp]
    exact h.compressor
  · rw [hfile, hhead]
    exact h.nodup
  · rw [hfile, hhead]
    exact h.attached
  · rw [hfile, hname]
    exact h.parse
  · rw [hfile, hhead]
    exact h.placed

theorem State.Stored.coherent (h : s.Stored Γ f i m content) (hlen : content.length < 2 ^ 63) (hnodup : (s.files f).head.Nodup) :
    s.Coherent Γ f m where
  compressor := h.compressor
  nodup := hnodup
  attached d hd := by
    obtain ⟨pos, hfd⟩ := h.attached hd
    rw [hfd]
    rfl
  parse j m' n hj hp := by
    rcases h with h | ⟨w, chunks, h⟩
    · obtain rfl : i = j := Option.some.inj (h.ino.symm.trans hj)
      rw [h.parse] at hp
      cases hp
      rfl
    · obtain rfl : i = j := Option.some.inj (h.ino.symm.trans hj)
      have hheader := h.parse hlen []
      rw [List.append_nil, hp] at hheader
      cases hheader
      rfl
  placed d hd hnone := by
    rcases h with h | ⟨w, chunks, h⟩
    · rcases h.descs d hd with hrest | ⟨-, -, hread, -⟩
      · exact hrest.offset
      · rw [hread] at hnone
        cases hnone
    · by_cases e : d = w
      · rw [e, h.handle] at hnone
        cases hnone
      · exact (h.others d hd e).offset

/-- `do_decompress` of a file whose module is the one of its header. -/
theorem aborted_doDecompress (Γ : Config) (env : Env) (h : s.Coherent Γ f m) : (doDecompress Γ env s f).1.aborted = s.aborted := by
  obtain ⟨hm, hnodup, hattached, hparse, -⟩ := h
  unfold doDecompress
  by_cases hstat : env.ok .statvfs = false ∨ s.fs.find (s.files f).filename = none
  · rw [if_pos hstat]
  rw [if_neg hstat]
  by_cases hspace : (!enoughSpace Γ env (s.files f).size) = true
  · rw [if_pos hspace]
  rw [if_neg hspace]
  dsimp only
  have haborted := aborted_flushFileCache s f
  obtain ⟨hfs, hdescs, hhead, hname, hcomp⟩ := flushFileCache_same s f
  have hdata : (flushFileCache s f).data = s.data := by
    funext i
    unfold State.data
    rw [hfs]
  generalize flushFileCache s f = s₁ at haborted hfs hdescs hhead hname hcomp hdata ⊢
  rw [← haborted]
  cases hsrc : (if env.ok .open then s₁.fs.inoOf (s₁.files f).filename else none) with
  | none => rfl
  | some src =>
    dsimp only
    by_cases hread : env.ok .readHeader = false
    · rw [if_pos hread]
    rw [if_neg hread]
    cases hp : parse Γ (s₁.data src) with
    | none => rfl
    | some r =>
      obtain ⟨m', n⟩ := r
      have hino : s.fs.inoOf (s.files f).filename = some src := by
        rw [hfs, hname] at hsrc
        split at hsrc
        · exact hsrc
        · cases hsrc
      have hsame : m' = m := hparse src m' n hino (by rw [← hdata]; exact hp)
      subst hsame
      dsimp only
      -- the module of the entry is the one of the header
      have hget : ((s₁.modFile f (fun file => { file with compressor := some (file.compressor.getD m') })).files f).compressor = some m' := by
        rw [State.files_modFile, if_pos rfl, hcomp, hm]
        rfl
      rw [hget]
      have hopened : ∀ t : State, t = (s₁.modFile f (fun file => { file with compressor := some (file.compressor.getD m') })).assert Γ
            (decide ((some m').getD m' = m')) →
          t.aborted = s₁.aborted ∧ (closeAll Γ env t f (t.files f).head).aborted = s₁.aborted := by
        rintro t rfl
        have ht : (s₁.modFile f (fun file => { file with compressor := some (file.compressor.getD m') })).assert Γ
            (decide ((some m').getD m' = m')) = s₁.modFile f (fun file => { file with compressor := some (file.compressor.getD m') }) := by
          rw [Option.getD_some, decide_eq_true rfl, State.assert_true]
        have hheads : ((s₁.modFile f (fun file => { file with compressor := some (file.compressor.getD m') })).files f).head = (s.files f).head := by
          rw [State.files_modFile, if_pos rfl]
          exact hhead
        rw [ht]
        refine ⟨rfl, ?_⟩
        rw [aborted_closeAll Γ env hget]
        · rfl
        · rw [hheads]
          exact hnodup
        · rw [hheads, State.descs_modFile, hdescs]
          exact hattached
      obtain ⟨-, hclosed⟩ := hopened _ rfl
      generalize closeAll Γ env _ f _ = s₂ at hclosed ⊢
      rw [← hclosed]
      repeat' split
      all_goals first
        | rfl
        | exact aborted_doDecompressInstall ..

/-! ## Reading -/

/-- A stream is opened at the offset 0, as the assertion wants it. -/
theorem aborted_openStream (Γ : Config) (env : Env) (hplaced : (s.descs d).handle = none → (s.descs d).offset = 0) :
    (openStream Γ env s d).1.aborted = s.aborted := by
  unfold openStream
  split
  · rfl
  · rename_i hhandle hfd
    exact aborted_assert (decide_eq_true (hplaced hhandle))
  · rename_i fd hhandle hfd
    dsimp only
    split
    · exact aborted_assert (decide_eq_true (hplaced hhandle))
    · exact aborted_assert (decide_eq_true (hplaced hhandle))

/-- The offset is 0 again when the stream is opened again to go back. -/
theorem aborted_decompressOpen (Γ : Config) (env : Env) (m : Module) (offset : Nat)
    (hplaced : (s.descs d).handle = none → (s.descs d).offset = 0) : (decompressOpen Γ env s m d offset).1.aborted = s.aborted := by
  have hrewind : (rewind Γ env s m d).aborted = s.aborted := aborted_codecClose ..
  unfold decompressOpen
  split
  · rename_i hback
    split
    · rename_i hnone
      rw [hplaced hnone] at hback
      exact absurd hback (Nat.not_lt_zero _)
    · split
      · rfl
      · split
        · exact hrewind
        · -- the stream starts again at the start
          refine (aborted_openStream Γ env (fun _ => ?_)).trans hrewind
          unfold seekHeader rewind
          rw [State.descs_modDesc, if_pos rfl, State.descs_modDesc, if_pos rfl]
  · exact aborted_openStream Γ env hplaced

/-- A read through an open descriptor of a coherent entry: the descriptor and the module are as `direct_decompress` asserts. -/
theorem aborted_directDecompress (env : Env) (hcaching : Γ.cacheDecompressedData = false) (h : s.Coherent Γ f m)
    (hd : d ∈ (s.files f).head) (size offset : Nat) : (directDecompress Γ env s m f d size offset).1.aborted = s.aborted := by
  obtain ⟨fd, hfd⟩ := Option.isSome_iff_exists.mp (h.attached d hd)
  rw [directDecompress_uncached hcaching hfd rfl]
  have hcoherent : (s.modFile f (fun file => { file with type := if file.type = .unset then .read else file.type })).Coherent Γ f m :=
    h.modFile (fun _ => ⟨rfl, rfl, rfl⟩)
  have hplaced := h.placed d hd
  have haborted : (s.modFile f (fun file => { file with type := if file.type = .unset then .read else file.type })).aborted = s.aborted := rfl
  have hdesc : (s.modFile f (fun file => { file with type := if file.type = .unset then .read else file.type })).descs = s.descs := rfl
  generalize s.modFile f (fun file => { file with type := if file.type = .unset then .read else file.type }) = s₁ at hcoherent haborted hdesc ⊢
  rw [← hdesc] at hplaced
  rw [← haborted]
  split
  · have hdone := aborted_doDecompress Γ env hcoherent
    generalize doDecompress Γ env s₁ f = r at hdone ⊢
    rcases r with ⟨s₂, _ | _⟩
    · exact hdone
    · exact hdone
  · have hopen := aborted_decompressOpen Γ env m offset hplaced
    generalize decompressOpen Γ env s₁ m d offset = r at hopen ⊢
    rcases r with ⟨s₂, _ | _⟩
    · exact hopen
    · exact (aborted_decompressSkip ..).trans hopen

/-! ## Writing -/

theorem aborted_compressWrite (Γ : Config) (env : Env) (s : State) (m : Module) (f d : Nat) (buf : Bytes) :
    (compressWrite Γ env s m f d buf).1.aborted = s.aborted := by
  unfold compressWrite
  split
  · split
    · rfl
    · dsimp only
      split
      · exact aborted_writeFd s d _ _
      · unfold seekEnd writeHeaderAt
        rw [State.aborted_modDesc, aborted_writeFd]
        exact aborted_writeFd s d _ _
  · rfl

/-- The first compressed write finds the size and the offset 0. -/
theorem aborted_compressOpen (Γ : Config) (env : Env) (m : Module) (fd : Fd) (hsize : (s.files f).size = 0)
    (hoffset : (s.descs d).offset = 0) : (compressOpen Γ env s m f d fd).1.aborted = s.aborted := by
  have hassert : (s.assert Γ (decide ((s.files f).size = 0))).assert Γ (decide ((s.descs d).offset = 0)) = s := by
    rw [decide_eq_true hsize, State.assert_true, decide_eq_true hoffset, State.assert_true]
  unfold compressOpen
  dsimp only
  rw [hassert]
  split
  · rfl
  · split
    · exact aborted_writeFd s d _ _
    · exact aborted_writeFd s d _ _

/-- A write through an open descriptor of a coherent entry, on a mount that is not read-only. -/
theorem aborted_directCompress (env : Env) (hwritable : Γ.readOnly = false) (hcache : (s.files f).cache = none) (h : s.Coherent Γ f m)
    (hd : d ∈ (s.files f).head) (buf : Bytes) (offset : Nat) : (directCompress Γ env s m f d buf offset).1.aborted = s.aborted := by
  rw [directCompress_eq env hcache rfl]
  have hassert : s.assert Γ ((s.descs d).fd.isSome && !Γ.readOnly) = s := by
    rw [h.attached d hd, hwritable]
    exact State.assert_true ..
  rw [hassert]
  have hcoherent : (s.modFile f (fun file => { file with type := if file.type = .unset then .write else file.type })).Coherent Γ f m :=
    h.modFile (fun _ => ⟨rfl, rfl, rfl⟩)
  have hplaced := h.placed d hd
  have haborted : (s.modFile f (fun file => { file with type := if file.type = .unset then .write else file.type })).aborted = s.aborted := rfl
  have hdesc : (s.modFile f (fun file => { file with type := if file.type = .unset then .write else file.type })).descs = s.descs := rfl
  generalize s.modFile f (fun file => { file with type := if file.type = .unset then .write else file.type }) = s₁ at hcoherent haborted hdesc ⊢
  rw [← hdesc] at hplaced
  rw [← haborted]
  split
  · have hdone := aborted_doDecompress Γ env hcoherent
    generalize doDecompress Γ env s₁ f = r at hdone ⊢
    rcases r with ⟨s₂, _ | _⟩
    · exact hdone
    · exact hdone
  · rename_i hdirect
    cases hhandle : (s₁.descs d).handle with
    | some handle => exact aborted_compressWrite ..
    | none =>
      cases hfd : (s₁.descs d).fd with
      | none => exact aborted_compressWrite ..
      | some fd =>
        dsimp only
        -- a descriptor without a stream is at the start, and so the file is empty
        have hoffset := hplaced hhandle
        have hsize : (s₁.files f).size = 0 := by
          simp only [writeFallback, Bool.or_eq_true, decide_eq_true_eq, not_or] at hdirect
          have hnow := hdirect.1.1.1
          rw [hoffset] at hnow
          omega
        have hopen := aborted_compressOpen Γ env m fd hsize hoffset
        generalize compressOpen Γ env s₁ m f d fd = r at hopen ⊢
        rcases r with ⟨s₂, _ | _⟩
        · exact hopen
        · exact (aborted_compressWrite ..).trans hopen

/-- A module is chosen for a file that has none. -/
theorem writeChoose_eq {offset : Nat} (hguard : startsOver (s.files f) offset = false) :
    writeChoose Γ s f offset = s.modFile f (fun file =>
      { file with
        compressor := if mayChoose (s.files f) offset then chooseCompressor Γ file.filename else file.compressor
        dontcompress := true }) := by
  have hassert : (!mayChoose (s.files f) offset || (s.files f).compressor.isNone) = true := by
    cases hchoose : mayChoose (s.files f) offset with
    | false => rfl
    | true =>
      cases hcomp : (s.files f).compressor with
      | none => rfl
      | some m =>
        simp only [mayChoose, Bool.and_eq_true, decide_eq_true_eq, Bool.not_eq_true'] at hchoose
        obtain ⟨⟨⟨hdont, hsize⟩, hacc⟩, hzero⟩ := hchoose
        simp [startsOver, hcomp, hdont, hsize, hacc, hzero] at hguard
  unfold writeChoose
  dsimp only
  rw [hassert, State.assert_true]

/-- `fusecompress_write` in a state that stands for its contents. -/
theorem aborted_writeLocked (env : Env) (hdedup : Γ.dedupEnabled = false) (hwritable : Γ.readOnly = false) (h : s.Stands Γ f i content)
    (hcache : (s.files f).cache = none) (hlen : content.length < 2 ^ 63) (hnodup : (s.files f).head.Nodup) (hd : d ∈ (s.files f).head)
    {offset : Nat} (hguard : startsOver (s.files f) offset = false) (buf : Bytes) :
    (writeLocked Γ env s f d buf offset).1.aborted = s.aborted := by
  unfold writeLocked
  dsimp only
  rw [discard_off hdedup, writeChoose_eq hguard]
  cases hcomp : ((s.modFile f (fun file =>
      { file with
        compressor := if mayChoose (s.files f) offset then chooseCompressor Γ file.filename else file.compressor
        dontcompress := true })).files f).compressor with
  | none => rfl
  | some m =>
    have hfile : ((s.modFile f (fun file =>
        { file with
          compressor := if mayChoose (s.files f) offset then chooseCompressor Γ file.filename else file.compressor
          dontcompress := true })).files f) = { s.files f with
            compressor := if mayChoose (s.files f) offset then chooseCompressor Γ (s.files f).filename else (s.files f).compressor
            dontcompress := true } := by
      rw [State.files_modFile, if_pos rfl]
    refine aborted_directCompress (d := d) env hwritable (by rw [hfile]; exact hcache) ?_ (by rw [hfile]; exact hd) buf offset
    rw [hfile] at hcomp
    refine ⟨by rw [hfile]; exact hcomp, by rw [hfile]; exact hnodup, ?_, ?_, ?_⟩
    · rw [hfile]
      intro d' hd'
      rcases h with ⟨hbare, -⟩ | ⟨m', hstored⟩
      · obtain ⟨pos, hrest⟩ := hbare.descs d' hd'
        change (s.descs d').fd.isSome = true
        rw [hrest.fd]
        rfl
      · obtain ⟨pos, hfd⟩ := hstored.attached hd'
        change (s.descs d').fd.isSome = true
        rw [hfd]
        rfl
    · rw [hfile]
      intro j m' n (hj : s.fs.inoOf (s.files f).filename = some j) (hp : parse Γ (s.data j) = some (m', n))
      rcases h with ⟨hbare, hhonest⟩ | ⟨m₀, hstored⟩
      · -- the file was taken for empty, so it has no header
        obtain rfl : i = j := Option.some.inj (hbare.ino.symm.trans hj)
        dsimp only at hcomp
        rw [hbare.compressor] at hcomp
        split at hcomp
        · rename_i hchoose
          simp only [mayChoose, Bool.and_eq_true, decide_eq_true_eq, Bool.not_eq_true'] at hchoose
          obtain rfl : content = [] := hhonest hchoose.1.1.2 hchoose.1.1.1
          rw [hbare.data] at hp
          cases hp
        · cases hcomp
      · have hcoherent := hstored.coherent hlen hnodup
        have hsame := hcoherent.parse j m' n hj hp
        dsimp only at hcomp
        split at hcomp
        · rename_i hchoose
          simp only [mayChoose, Bool.and_eq_true, decide_eq_true_eq, Bool.not_eq_true'] at hchoose
          obtain ⟨⟨⟨hdont, hsize⟩, hacc⟩, hzero⟩ := hchoose
          simp [startsOver, hstored.compressor, hdont, hsize, hacc, hzero] at hguard
        · rw [hstored.compressor] at hcomp
          exact hsame.trans (Option.some.inj hcomp)
    · rw [hfile]
      intro d' hd' (hnone : (s.descs d').handle = none)
      change (s.descs d').offset = 0
      rcases h with ⟨hbare, -⟩ | ⟨m₀, hstored⟩
      · obtain ⟨pos, hrest⟩ := hbare.descs d' hd'
        exact hrest.offset
      · exact (hstored.coherent hlen hnodup).placed d' hd' hnone

theorem aborted_pwriteFd (env : Env) (s : State) (fd : Option Fd) (buf : Bytes) (offset : Nat) :
    (pwriteFd env s fd buf offset).1.aborted = s.aborted := by
  unfold pwriteFd
  split
  · rfl
  · dsimp only
    split <;> rfl

/-! ## Truncating and closing -/

/-- The entry has a module when `fusecompress_truncate` closes compressed descriptors. -/
theorem aborted_truncateClose (Γ : Config) (env : Env) {ds : List Nat} (hm : (s.files f).compressor = some m) :
    (truncateClose Γ env s f ds).aborted = s.aborted := by
  induction ds generalizing s with
  | nil => rfl
  | cons d ds ih =>
    rw [truncateClose]
    have hpushes := pushes_directClose Γ (env.of d) hm d
    rw [ih (s := (directClose Γ (env.of d) s f d).modDesc d (fun desc =>
      { desc with fd := if (env.of d).ok .lseek then desc.fd.map (fun fd => { fd with pos := 0 }) else desc.fd }))
      (hpushes.compressor.trans hm)]
    exact aborted_directClose Γ (env.of d) hm d

theorem aborted_truncateFile (env : Env) (s : State) (f : Nat) (full : Filename) (size : Nat) :
    (truncateFile env s f full size).1.aborted = s.aborted := by
  unfold truncateFile
  split <;> rfl

/-- `fusecompress_truncate` in a state that stands for its contents. -/
theorem aborted_truncateLocked (env : Env) (hdedup : Γ.dedupEnabled = false) (h : s.Stands Γ f i content)
    (hlen : content.length < 2 ^ 63) (hnodup : (s.files f).head.Nodup) (full : Filename) (size : Nat) :
    (truncateLocked Γ env s f full size).1.aborted = s.aborted := by
  unfold truncateLocked
  dsimp only
  rw [discard_off hdedup]
  have hraw : (ensureRaw Γ env s f).1.aborted = s.aborted := by
    unfold ensureRaw
    rcases h with ⟨hbare, -⟩ | ⟨m, hstored⟩
    · rw [if_pos hbare.compressor]
    · rw [if_neg (by rw [hstored.compressor]; exact Option.some_ne_none m)]
      exact aborted_doDecompress Γ env (hstored.coherent hlen hnodup)
  split
  · generalize ensureRaw Γ env s f = r at hraw ⊢
    rcases r with ⟨s₁, _ | _⟩
    · exact hraw
    · exact (aborted_truncateFile ..).trans hraw
  · split
    · exact aborted_truncateFile ..
    · rename_i hsome
      obtain ⟨m, hm⟩ := Option.ne_none_iff_exists'.mp hsome
      exact (aborted_truncateFile ..).trans (aborted_truncateClose Γ env hm)

/-- `fusecompress_release` closes a compressed descriptor only when the entry has a module. -/
theorem aborted_releaseLocked (Γ : Config) (env : Env) (s : State) (f d : Nat) : (releaseLocked Γ env s f d).1.aborted = s.aborted := by
  have hclose : (releaseClose Γ env s f d).aborted = s.aborted := by
    unfold releaseClose
    split
    · rfl
    · rename_i hsome
      obtain ⟨m, hm⟩ := Option.ne_none_iff_exists'.mp hsome
      exact aborted_directClose Γ env hm d
  unfold releaseLocked
  exact hclose

/-! ## The database and the background thread -/

theorem aborted_purgeFile (Γ : Config) (env : Env) (force : Bool) (s : State) (f : Nat) : (purgeFile Γ env force s f).aborted = s.aborted := by
  unfold purgeFile directOpenDelete
  dsimp only
  repeat' split
  all_goals first
    | rfl
    | exact aborted_flushFileCache (detach s f) f

theorem aborted_directOpenPurge (Γ : Config) (env : Env) (force : Bool) (s : State) :
    (directOpenPurge Γ env force s).aborted = s.aborted := by
  have hall : ∀ (todo : List Nat) (t : State), (todo.foldl (purgeFile Γ env force) t).aborted = t.aborted := by
    intro todo
    induction todo with
    | nil => exact fun _ => rfl
    | cons f todo ih => exact fun t => (ih _).trans (aborted_purgeFile ..)
  exact hall s.database s

theorem aborted_directOpen (Γ : Config) (env : Env) (s : State) (p : Filename) : (directOpen Γ env s p).1.aborted = s.aborted := by
  unfold directOpen directOpenCount
  split
  · rfl
  · dsimp only
    split
    · exact aborted_directOpenPurge ..
    · rfl

/-- Without deduplication `do_compress` asserts nothing. -/
theorem aborted_doCompress (hdedup : Γ.dedupEnabled = false) (env : Env) (s : State) (f : Nat) : (doCompress Γ env s f).aborted = s.aborted := by
  have hbegin : (doCompressBegin Γ env s f).1.aborted = s.aborted := by
    unfold doCompressBegin
    split
    · rfl
    · dsimp only
      repeat' split
      all_goals rfl
  have hend : ∀ (t : State) (job : Job) (got : Bytes), (doCompressEnd Γ env t job got true).1.aborted = t.aborted := by
    intro t job got
    unfold doCompressEnd doCompressInstall
    dsimp only
    rw [discard_off hdedup]
    repeat' split
    all_goals rfl
  unfold doCompress
  generalize doCompressBegin Γ env s f = r at hbegin ⊢
  rcases r with ⟨t, _ | job⟩
  · exact hbegin
  · exact (hend t job _).trans hbegin

/-- The count of an entry of the queue is positive when the background thread has taken it off. -/
theorem aborted_threadCompress (hdedup : Γ.dedupEnabled = false) (env : Env) (h : s.Ready refs) :
    (threadCompress Γ env s).aborted = s.aborted := by
  unfold threadCompress
  cases hcomp : s.comp with
  | nil => rw [show compDequeue s = none by unfold compDequeue; rw [hcomp]]
  | cons entry rest =>
    have hdequeue : compDequeue s = some ({ s with comp := rest, compEntries := s.compEntries - 1 }, entry) := by
      unfold compDequeue
      rw [hcomp]
    have hkind : entry.isDedup = false := h.tidy.queue entry (by rw [show s.books.comp = s.comp from rfl, hcomp]; exact List.mem_cons_self)
    have hcount : (s.files entry.file).accesses > 0 := by
      have haccesses := h.tidy.balanced.accesses entry.file
      have hqueued : 0 < s.books.queued entry.file := by
        refine List.countP_pos_iff.mpr ⟨entry, ?_, decide_eq_true rfl⟩
        rw [show s.books.comp = s.comp from rfl, hcomp]
        exact List.mem_cons_self
      change (s.files entry.file).accesses = _ at haccesses
      omega
    rw [hdequeue]
    dsimp only
    rw [decide_eq_true hcount, State.assert_true, hkind, if_neg Bool.false_ne_true]
    unfold compFinish
    rw [if_neg Bool.false_ne_true, discard_off hdedup, State.aborted_modFile]
    split
    · exact aborted_doCompress hdedup env _ _
    · rfl

/-! ## Renaming -/

theorem aborted_moveDescs (s : State) (dst : Nat) (ds : List Nat) : (moveDescs s dst ds).aborted = s.aborted := by
  induction ds generalizing s with
  | nil => rfl
  | cons d ds ih => rw [moveDescs, ih, State.aborted_modDesc]

/-- Nobody relies on the entry that has been renamed away. -/
theorem aborted_directRename (Γ : Config) {x y : Nat} (h : s.books.Tidy refs) (hrefs : refs x = 0) (hne : x ≠ y) (hy : y ∈ s.database) :
    (directRename Γ s x y).aborted = s.aborted := by
  have hbooks := books_directRename (Γ := Γ) (s := s) hne
  unfold directRename at hbooks ⊢
  dsimp only at hbooks ⊢
  rw [books_directDelete, books_assert] at hbooks
  have haborted : (moveQueue (moveHead (inheritInfo (flushFileCache s y) x y) x y) x y).aborted = s.aborted := by
    unfold moveQueue moveHead inheritInfo
    simp only [State.aborted_modFile, aborted_moveDescs, aborted_flushFileCache]
  generalize moveQueue (moveHead (inheritInfo (flushFileCache s y) x y) x y) x y = t at hbooks haborted ⊢
  have hbalanced := h.balanced.rename hne (h.known y hy)
  have hcount := hbalanced.accesses x
  have hhead := Books.Balanced.head_rename_src s.books hne
  have hqueued : (s.books.rename x y).queued x = 0 := by
    change (((s.books.setStatus y (s.books.status x)).moveHead x y).moveQueue x y).queued x = 0
    rw [Books.Balanced.queued_moveQueue _ hne, if_neg hne, if_pos rfl]
  rw [hhead, hqueued, hrefs, ← hbooks] at hcount
  change (t.files x).accesses = _ at hcount
  unfold directDelete
  rw [State.aborted_modFile, aborted_assert, haborted]
  rw [hcount]
  decide

end FuseCompress
