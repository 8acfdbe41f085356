import FuseCompress.Unmount

/-!
# One entry of the queue at unmount

`do_compress` and `do_dedup` change one entry of the database only (`State.Local`). Each brings that entry closer to being trimmed
(`weight`): a raw file that would be compressed is compressed, and then it counts as not deduplicated; a file that would be
deduplicated is marked as deduplicated.
-/

namespace FuseCompress

variable {Γ : Config} {env : Env} {s s' s'' : State} {f : Nat}

/-! ## What one entry does not concern -/

/-- Nothing has changed in the database and the queue but the record of one entry. -/
structure State.Local (s s' : State) (f : Nat) : Prop where
  files : ∀ g, g ≠ f → s'.files g = s.files g
  database : s'.database = s.database
  entries : s'.entries = s.entries
  comp : s'.comp = s.comp
  compEntries : s'.compEntries = s.compEntries

theorem State.Local.refl (s : State) (f : Nat) : s.Local s f := ⟨fun _ _ => rfl, rfl, rfl, rfl, rfl⟩

theorem State.Local.trans (h : s.Local s' f) (h' : s'.Local s'' f) : s.Local s'' f where
  files := fun g hg => (h'.files g hg).trans (h.files g hg)
  database := h'.database.trans h.database
  entries := h'.entries.trans h.entries
  comp := h'.comp.trans h.comp
  compEntries := h'.compEntries.trans h.compEntries

theorem State.Local.modFile (h : s.Local s' f) (g : FileT → FileT) : s.Local (s'.modFile f g) f :=
  h.trans ⟨fun k hk => by rw [State.files_modFile, if_neg hk], rfl, rfl, rfl, rfl⟩

theorem State.Local.withFs (h : s.Local s' f) (k : Backing → Backing) : s.Local (s'.withFs k) f := h.trans ⟨fun _ _ => rfl, rfl, rfl, rfl, rfl⟩

theorem State.Local.abort (h : s.Local s' f) : s.Local s'.abort f := h.trans ⟨fun _ _ => rfl, rfl, rfl, rfl, rfl⟩

theorem State.Local.discard (h : s.Local s' f) : s.Local (discard Γ s' f) f := by
  refine h.trans ?_
  unfold FuseCompress.discard
  split
  · unfold dedupDiscard
    split
    · exact State.Local.refl _ _
    · have hflag := (State.Local.refl s' f).modFile (fun file => { file with deduped := false })
      dsimp only
      split
      · exact hflag
      · exact hflag.trans ⟨fun _ _ => rfl, rfl, rfl, rfl, rfl⟩
  · exact State.Local.refl _ _

/-! ## The record of an entry -/

/-- `dedup_discard` changes a flag. -/
theorem files_discard (s : State) (f : Nat) : ∃ b, (discard Γ s f).files f = { s.files f with deduped := b } := by
  unfold discard
  split
  · unfold dedupDiscard
    split
    · exact ⟨(s.files f).deduped, rfl⟩
    · refine ⟨false, ?_⟩
      dsimp only
      split <;> simp
  · exact ⟨(s.files f).deduped, rfl⟩

theorem fs_discard (s : State) (f : Nat) : (discard Γ s f).fs = s.fs := by
  unfold discard
  split
  · unfold dedupDiscard
    split
    · rfl
    · dsimp only
      split <;> rfl
  · rfl

/-- How far an entry is from being trimmed: a cancellation is to be acknowledged, the file is to be compressed, it is to be
deduplicated. -/
def weight (Γ : Config) (file : FileT) : Nat :=
  if file.deleted then 0
  else (if file.status.cancel then 4 else 0) + (if file.compressor = none ∧ Compressible Γ file then 2 else 0) +
    if wantsDedup Γ file then 1 else 0

theorem weight_le (Γ : Config) (file : FileT) : weight Γ file ≤ 7 := by
  unfold weight
  split_ifs <;> omega

/-! ## Names and inodes -/

theorem Backing.Sound.setName {b : Backing} (h : b.Sound) {p : Filename} {i : Nat} (hi : i < b.next) : (b.setName p i).Sound := by
  intro q j hj
  rw [Backing.inoOf_setName] at hj
  split at hj
  · cases hj
    exact hi
  · exact h q j hj

theorem Backing.Sound.alloc {b : Backing} (h : b.Sound) (data : Bytes) (a : Attr) : (b.alloc data a).Sound := by
  intro q j hj
  exact Nat.lt_succ_of_lt (h q j hj)

theorem Backing.Sound.dropName {b : Backing} (h : b.Sound) (p : Filename) : (b.dropName p).Sound := by
  intro q j hj
  rw [Backing.inoOf_dropName] at hj
  split at hj
  · cases hj
  · exact h q j hj

theorem Backing.Sound.setAttr {b : Backing} (h : b.Sound) (i : Nat) (a : Attr) : (b.setAttr i a).Sound := h

/-- What making or removing an attribute file leaves of the other names: what a name still refers to it referred to before, with
the same contents. -/
structure Backing.Leaves (b b' : Backing) : Prop where
  sound : b.Sound → b'.Sound
  next : b.next ≤ b'.next
  data : ∀ i, i < b.next → (b'.inodes i).data = (b.inodes i).data
  inoOf : ∀ p i, b.inoOf p = some i → ∀ j, b'.inoOf p = some j → j = i

theorem leaves_createAttr (o : Creator) (c : AttrCalls) (b : Backing) (fullAttr : Filename) (st : Attr) :
    b.Leaves (createAttr o c b fullAttr st) := by
  have hopen : ∀ b' i, createOpen o c.openAttr b fullAttr st = some (b', i) → b.Leaves b' := by
    intro b' i hb
    unfold createOpen at hb
    split at hb
    · cases hb
    · cases hfind : b.find fullAttr with
      | none =>
        simp only [hfind, Option.some.injEq, Prod.mk.injEq] at hb
        obtain ⟨rfl, -⟩ := hb
        refine ⟨fun hs => (hs.alloc _ _).setName (Nat.lt_succ_self _), Nat.le_succ _, ?_, ?_⟩
        · intro i hi
          rw [Backing.inodes_setName, Backing.inodes_alloc, if_neg (Nat.ne_of_lt hi)]
        · intro p i hp j hj
          rw [Backing.inoOf_setName] at hj
          split at hj
          · rename_i hpq
            rw [hpq, Backing.inoOf, hfind] at hp
            cases hp
          · rw [Backing.inoOf_alloc, hp] at hj
            exact (Option.some.inj hj).symm
      | some n =>
        cases n with
        | dir =>
          simp only [hfind] at hb
          cases hb
        | reg k =>
          simp only [hfind, Option.some.injEq, Prod.mk.injEq] at hb
          obtain ⟨rfl, -⟩ := hb
          exact ⟨id, Nat.le_refl _, fun _ _ => rfl, fun p i hp j hj => Option.some.inj (hj.symm.trans hp)⟩
  unfold createAttr
  split
  · exact ⟨id, Nat.le_refl _, fun _ _ => rfl, fun p i hp j hj => Option.some.inj (hj.symm.trans hp)⟩
  · rename_i b' i hb
    have h := hopen b' i hb
    exact ⟨h.sound, h.next, fun k hk => (Backing.data_setAttr _ _ _ _).trans (h.data k hk), h.inoOf⟩

theorem leaves_unlinkAttr (b : Backing) (full : Filename) : b.Leaves (unlinkAttr env b full) := by
  have hrefl : b.Leaves b := ⟨id, Nat.le_refl _, fun _ _ => rfl, fun p i hp j hj => Option.some.inj (hj.symm.trans hp)⟩
  unfold unlinkAttr
  split
  · unfold Backing.unlink
    split
    · refine ⟨fun hs => hs.dropName _, Nat.le_refl _, fun _ _ => rfl, ?_⟩
      intro p i hp j hj
      rw [Option.getD_some, Backing.inoOf_dropName] at hj
      split at hj
      · cases hj
      · exact Option.some.inj (hj.symm.trans hp)
    · exact hrefl
  · exact hrefl

/-! ## Deduplication of an entry -/

/-- What `hardlink_file` does: it changes names and records only. When it makes a link, it is to a file with a record of the
digest, and what that name still refers to is what it referred to. -/
structure Hardlinks (s s' : State) (md5 : List UInt8) (p : Filename) (target : Option Filename) : Prop where
  files : s'.files = s.files
  database : s'.database = s.database
  entries : s'.entries = s.entries
  comp : s'.comp = s.comp
  compEntries : s'.compEntries = s.compEntries
  sound : s'.fs.Sound
  target : ∀ t, target = some t → ∃ dp j, s.dedup.findMd5 md5 = some dp ∧ dp.filename = t ∧ t ≠ p ∧ s.fs.inoOf t = some j ∧
    ∀ k, s'.fs.inoOf t = some k → k = j ∧ s'.data j = s.data j

theorem hardlinkFile_spec (Γ : Config) (env : Env) (hs : s.fs.Sound) (md5 : List UInt8) (p : Filename) :
    Hardlinks s (hardlinkFile Γ env s md5 p).1 md5 p (hardlinkFile Γ env s md5 p).2 := by
  have hnone : ∀ t : Filename, (none : Option Filename) = some t → ∃ dp j, s.dedup.findMd5 md5 = some dp ∧ dp.filename = t ∧
      t ≠ p ∧ s.fs.inoOf t = some j ∧ ∀ k, s.fs.inoOf t = some k → k = j ∧ s.data j = s.data j := fun _ hn => by cases hn
  unfold hardlinkFile
  cases hfind : s.dedup.findMd5 md5 with
  | none => exact ⟨rfl, rfl, rfl, rfl, rfl, hs, fun _ hn => by cases hn⟩
  | some dp =>
    simp only
    split
    · exact ⟨rfl, rfl, rfl, rfl, rfl, hs, fun _ hn => by cases hn⟩
    · rename_i hne
      split
      · exact ⟨rfl, rfl, rfl, rfl, rfl, hs, fun _ hn => by cases hn⟩
      · rename_i j hj
        have hino : s.fs.inoOf dp.filename = some j := by
          split at hj
          · exact hj
          · cases hj
        obtain ⟨src, hsrc⟩ : ∃ src, src =
            ((s.fs.attrOf (fuseattrName p)).orElse (fun _ => s.fs.attrOf p)).getD (s.fs.inodes j).attr := ⟨_, rfl⟩
        obtain ⟨k, hk⟩ : ∃ k : Backing → Backing, k = fun b =>
            if src.differs (s.fs.inodes j).attr then createAttr Γ.creator env.attrCalls b (fuseattrName p) src else unlinkAttr env b p := ⟨_, rfl⟩
        have hleaves : s.fs.Leaves (k s.fs) := by
          rw [hk]
          dsimp only
          split
          · exact leaves_createAttr _ _ _ _ _
          · exact leaves_unlinkAttr _ _
        have hlt := hs _ _ hino
        rw [← hsrc, ← hk]
        split
        · exact ⟨rfl, rfl, rfl, rfl, rfl, hleaves.sound hs, fun _ hn => by cases hn⟩
        · refine ⟨rfl, rfl, rfl, rfl, rfl, ?_, ?_⟩
          · exact (hleaves.sound hs).setName (Nat.lt_of_lt_of_le hlt hleaves.next)
          · rintro t ht
            cases ht
            refine ⟨dp, j, hfind, rfl, fun h => hne h.symm, hino, ?_⟩
            intro i hi
            simp only [State.fs_withFs, Backing.inoOf_setName] at hi
            rw [if_neg (fun h => hne h.symm)] at hi
            exact ⟨hleaves.inoOf _ _ hino _ hi, hleaves.data j hlt⟩

/-- `do_dedup` takes over a module only from a file that is there. -/
theorem adoptCompressor_cases (Γ : Config) (env : Env) (s : State) (f : Nat) (target : Option Filename) :
    adoptCompressor Γ env s f target = s ∨ ∃ t j, target = some t ∧ s.fs.inoOf t = some j ∧
      adoptCompressor Γ env s f target =
        s.modFile f (fun file => { file with compressor := (fileReadHeader Γ (s.data j) none 0).1 }) := by
  unfold adoptCompressor
  cases target with
  | none => exact Or.inl rfl
  | some t =>
    dsimp only
    by_cases hok : env.ok .open = true ∧ env.ok .readHeader = true
    · rw [if_pos hok]
      cases hj : s.fs.inoOf t with
      | none => exact Or.inl rfl
      | some j => exact Or.inr ⟨t, j, rfl, hj, rfl⟩
    · rw [if_neg hok]
      exact Or.inl rfl

/-- What `do_dedup` makes of the record of an entry: it acknowledges a cancellation, or marks the file as deduplicated, and then
may take over the module of the file it has linked to. -/
inductive Deduped (Γ : Config) (env : Env) (s : State) (x y : FileT) : Prop
  | cancelled : x.status.cancel = true → y.status.cancel = false → y.compressor = x.compressor → y.deduped = x.deduped →
      Deduped Γ env s x y
  | marked : y.status.cancel = x.status.cancel → y.compressor = x.compressor → y.deduped = true → Deduped Γ env s x y
  | linked {md5 : List UInt8} {dp : DedupT} {j : Nat} : y.status.cancel = x.status.cancel → y.deduped = true →
      dedupHashFile Γ env s x.filename = .digest md5 → s.dedup.findMd5 md5 = some dp → dp.filename ≠ x.filename →
      s.fs.inoOf dp.filename = some j → y.compressor = (fileReadHeader Γ (s.data j) none 0).1 → Deduped Γ env s x y

/-- What is the same after `do_dedup`. -/
structure DedupKeeps (x y : FileT) : Prop where
  filename : y.filename = x.filename
  deleted : y.deleted = x.deleted
  accesses : y.accesses = x.accesses
  size : y.size = x.size

theorem doDedup_spec (hs : s.fs.Sound) (hcrash : dedupHashFile Γ env s (s.files f).filename ≠ .crash) :
    s.Local (doDedup Γ env s f) f ∧ (doDedup Γ env s f).fs.Sound ∧
      DedupKeeps (s.files f) ((doDedup Γ env s f).files f) ∧ Deduped Γ env s (s.files f) ((doDedup Γ env s f).files f) := by
  have hbegin : s.Local (doDedupBegin s f) f := (State.Local.refl s f).modFile _
  have hname : ((doDedupBegin s f).files f).filename = (s.files f).filename := by simp [doDedupBegin]
  have hhash : dedupHashFile Γ env (doDedupBegin s f) (s.files f).filename = dedupHashFile Γ env s (s.files f).filename := rfl
  unfold doDedup
  dsimp only
  rw [hname, hhash]
  cases hres : dedupHashFile Γ env s (s.files f).filename with
  | crash => exact absurd hres hcrash
  | failed =>
    simp only [doDedupEnd]
    refine ⟨hbegin.modFile _, hs, ⟨?_, ?_, ?_, ?_⟩, .marked ?_ ?_ ?_⟩
    all_goals simp [doDedupBegin]
  | digest md5 =>
    simp only [doDedupEnd, hname]
    have hstatus : ((doDedupBegin s f).files f).status.cancel = (s.files f).status.cancel := by simp [doDedupBegin]
    rw [hstatus]
    split
    · rename_i hcancel
      have hlink := hardlinkFile_spec Γ env (s := doDedupBegin s f) hs md5 (s.files f).filename
      generalize hardlinkFile Γ env (doDedupBegin s f) md5 (s.files f).filename = r at hlink
      obtain ⟨s₁, target⟩ := r
      dsimp only at hlink ⊢
      have hlocal : s.Local s₁ f :=
        hbegin.trans ⟨fun g _ => congrFun hlink.files g, hlink.database, hlink.entries, hlink.comp, hlink.compEntries⟩
      have hfile : s₁.files f = { s.files f with status := { (s.files f).status with deduping := true } } := by
        rw [hlink.files]
        simp [doDedupBegin]
      rcases adoptCompressor_cases Γ env s₁ f target with hsame | ⟨t, j, rfl, hj, hadopt⟩
      · rw [hsame]
        refine ⟨hlocal.modFile _, hlink.sound, ⟨?_, ?_, ?_, ?_⟩, .marked ?_ ?_ ?_⟩
        all_goals simp [hfile, Status.endDeduping]
      · rw [hadopt]
        obtain ⟨dp, i, hdp, hdpt, hne, hino, hkeep⟩ := hlink.target t rfl
        obtain ⟨rfl, hdata⟩ := hkeep j hj
        have hheader : (fileReadHeader Γ (s₁.data j) none 0).1 = (fileReadHeader Γ (s.data j) none 0).1 := by
          rw [hdata]
          rfl
        refine ⟨(hlocal.modFile _).modFile _, hlink.sound, ⟨?_, ?_, ?_, ?_⟩, .linked (j := j) ?_ ?_ hres hdp ?_ ?_ ?_⟩
        · simp [hfile]
        · simp [hfile]
        · simp [hfile]
        · simp [hfile]
        · simp [hfile, Status.endDeduping]
        · simp
        · rw [hdpt]
          exact hne
        · rw [hdpt]
          exact hino
        · simp [hheader]
    · rename_i hcancel
      refine ⟨hbegin.modFile _, hs, ⟨?_, ?_, ?_, ?_⟩, .cancelled ?_ ?_ ?_ ?_⟩
      · simp [doDedupBegin]
      · simp [doDedupBegin]
      · simp [doDedupBegin]
      · simp [doDedupBegin]
      · simpa using hcancel
      · simp [Status.endDeduping]
      · simp [doDedupBegin]
      · simp [doDedupBegin]

/-! ## Compression of an entry -/

/-- What `do_compress` makes of the record of an entry: it finds no file, or the file is compressed now, or it acknowledges a
cancellation. -/
inductive Compressed (x y : FileT) : Prop
  | gone : y.deleted = true → Compressed x y
  | packed : y.deleted = x.deleted → y.compressor ≠ none → y.status.cancel = x.status.cancel → Compressed x y
  | cancelled : y.deleted = x.deleted → y.compressor = x.compressor → y.size = x.size → x.status.cancel = true →
      y.status.cancel = false → Compressed x y

/-- The first part of `do_compress`, on a raw file that is to be compressed: it finds no file, or a compressed one, or goes on. -/
theorem doCompressBegin_cases (he : env.AllOk) (hcomp : (s.files f).compressor = none)
    (hchoose : (chooseCompressor Γ (s.files f).filename).isSome = true)
    (hbig : ∀ i, s.fs.inoOf (s.files f).filename = some i → Γ.minFilesizeBackground ≤ (s.data i).length) :
    doCompressBegin Γ env s f = (directDelete s f, none) ∨
      (∃ m n, doCompressBegin Γ env s f = (s.modFile f (fun file => { file with compressor := some m, size := n }), none)) ∨
      ∃ i m, doCompressBegin Γ env s f =
        (s.modFile f (fun file => { file with status := { file.status with compressing := true } }),
          some { file := f, ino := i, compressor := m, size := (s.data i).length, attr := (s.fs.inodes i).attr }) := by
  obtain ⟨m, hm⟩ := Option.isSome_iff_exists.mp hchoose
  unfold doCompressBegin
  simp only [he .open, he .fstat, he .readHeader, he .mkstemp, he .writeHeader, and_self, and_true, true_and, if_true,
    Bool.true_eq_false, or_self, if_false]
  cases hino : s.fs.inoOf (s.files f).filename with
  | none => exact Or.inl rfl
  | some i =>
    right
    dsimp only
    rw [if_neg (Nat.not_lt.mpr (hbig i hino))]
    cases hparse : parse Γ (s.data i) with
    | none =>
      right
      have hsame : (if headerSize ≤ (s.data i).length then
          s.modFile f (fun file => { file with
            compressor := (fileReadHeader Γ (s.data i) (s.files f).compressor (s.files f).size).1
            size := (fileReadHeader Γ (s.data i) (s.files f).compressor (s.files f).size).2 }) else s) = s := by
        split
        · rename_i hlen
          rw [fileReadHeader_of_parse_none hparse, if_neg (by omega)]
          refine State.modFile_eq_self ?_
          rw [← hcomp]
        · rfl
      rw [hsame, if_neg (fun h => h.2 hcomp), hm]
      exact ⟨i, m, rfl⟩
    | some r =>
      left
      have hlen : headerSize ≤ (s.data i).length := by
        by_contra hn
        rw [parse, if_pos (by omega)] at hparse
        cases hparse
      rw [if_pos hlen, fileReadHeader_of_parse hparse]
      rw [if_pos ⟨hlen, by simp⟩]
      exact ⟨r.1, r.2, rfl⟩

/-- The second part of `do_compress`, when the whole file has been read: it acknowledges a cancellation or puts the compressed file
in place. -/
theorem doCompressEnd_eq (he : env.AllOk) {job : Job} (hsize : (s.data job.ino).length = job.size) :
    (doCompressEnd Γ env s job (s.data job.ino) true).1 =
      if (s.files job.file).status.cancel = true then
        (s.modFile job.file (fun file => { file with status := file.status.endCompressing })).modFile job.file acknowledgeCancel
      else
        doCompressInstall Γ env (s.modFile job.file (fun file => { file with status := file.status.endCompressing })) job
          (s.data job.ino) := by
  unfold doCompressEnd
  simp only [he .compress, he .close, he .rename, Bool.and_self, Bool.true_eq_false, false_or, hsize, ne_eq, not_true_eq_false,
    if_false]
  split <;> rfl

/-- What is known of an entry after `do_compress` has put the compressed file in place. -/
theorem doCompressInstall_spec (Γ : Config) (env : Env) (hs : s.fs.Sound) (job : Job) (got : Bytes) :
    s.Local (doCompressInstall Γ env s job got) job.file ∧ (doCompressInstall Γ env s job got).fs.Sound ∧
      ∃ b, (doCompressInstall Γ env s job got).files job.file =
        { s.files job.file with compressor := some job.compressor, size := job.size, deduped := b } := by
  obtain ⟨s₁, hs₁⟩ : ∃ s₁, s₁ = (((s.withFs (fun b => b.alloc
      (header job.compressor job.size ++ (Γ.codec job.compressor).pack got) (copyOwnerMode env job.attr (tempAttr Γ b)))).withFs
        (fun b => b.setName (s.files job.file).filename s.fs.next)).modFile job.file
          (fun file => { file with compressor := some job.compressor, size := job.size })) := ⟨_, rfl⟩
  have hsound : s₁.fs.Sound := by
    rw [hs₁]
    exact (hs.alloc _ _).setName (Nat.lt_succ_self _)
  have hlocal : s.Local s₁ job.file := by
    rw [hs₁]
    exact (((State.Local.refl s job.file).withFs _).withFs _).modFile _
  have hfile : s₁.files job.file = { s.files job.file with compressor := some job.compressor, size := job.size } := by
    rw [hs₁]
    simp
  obtain ⟨b, hb⟩ := files_discard (Γ := Γ) s₁ job.file
  have heq : doCompressInstall Γ env s job got =
      if env.ok .utime then (discard Γ s₁ job.file).withFs (fun b => b.utime s.fs.next job.attr) else discard Γ s₁ job.file := by
    rw [hs₁]
    rfl
  rw [heq]
  split
  · refine ⟨hlocal.discard.withFs _, ?_, b, ?_⟩
    · rw [State.fs_withFs, fs_discard]
      exact hsound
    · rw [State.files_withFs, hb, hfile]
  · refine ⟨hlocal.discard, ?_, b, ?_⟩
    · rw [fs_discard]
      exact hsound
    · rw [hb, hfile]

theorem doCompress_spec (he : env.AllOk) (hs : s.fs.Sound) (hcomp : (s.files f).compressor = none)
    (hchoose : (chooseCompressor Γ (s.files f).filename).isSome = true)
    (hbig : ∀ i, s.fs.inoOf (s.files f).filename = some i → Γ.minFilesizeBackground ≤ (s.data i).length) :
    s.Local (doCompress Γ env s f) f ∧ (doCompress Γ env s f).fs.Sound ∧
      ((doCompress Γ env s f).files f).filename = (s.files f).filename ∧
      ((doCompress Γ env s f).files f).accesses = (s.files f).accesses ∧
      Compressed (s.files f) ((doCompress Γ env s f).files f) := by
  unfold doCompress
  rcases doCompressBegin_cases he hcomp hchoose hbig with hbegin | ⟨m, n, hbegin⟩ | ⟨i, m, hbegin⟩
  · rw [hbegin]
    refine ⟨(State.Local.refl s f).modFile _, hs, ?_, ?_, .gone ?_⟩
    all_goals simp [directDelete]
  · rw [hbegin]
    refine ⟨(State.Local.refl s f).modFile _, hs, ?_, ?_, .packed ?_ ?_ ?_⟩
    all_goals simp
  · rw [hbegin]
    dsimp only
    obtain ⟨s₁, hs₁⟩ : ∃ s₁, s₁ = s.modFile f (fun file => { file with status := { file.status with compressing := true } }) :=
      ⟨_, rfl⟩
    obtain ⟨job, hjob⟩ : ∃ job : Job, job =
        { file := f, ino := i, compressor := m, size := (s.data i).length, attr := (s.fs.inodes i).attr } := ⟨_, rfl⟩
    have hfile : s₁.files f = { s.files f with status := { (s.files f).status with compressing := true } } := by
      rw [hs₁]
      simp
    have hlocal : s.Local s₁ f := by
      rw [hs₁]
      exact (State.Local.refl s f).modFile _
    have hsound : s₁.fs.Sound := by
      rw [hs₁]
      exact hs
    have hsize : (s₁.data job.ino).length = job.size := by rw [hs₁, hjob, State.data_modFile]
    have hjf : job.file = f := by rw [hjob]
    rw [← hs₁, ← hjob, show s₁.data i = s₁.data job.ino by rw [hjob], doCompressEnd_eq he hsize, hjf]
    split
    · rename_i hcancel
      rw [hfile] at hcancel
      replace hcancel : (s.files f).status.cancel = true := hcancel
      refine ⟨(hlocal.modFile _).modFile _, hsound, ?_, ?_, .cancelled ?_ ?_ ?_ hcancel ?_⟩
      all_goals simp [hfile, acknowledgeCancel, Status.endCompressing, hcancel]
    · obtain ⟨hinst, hsound', b, hb⟩ := doCompressInstall_spec Γ env
        (s := s₁.modFile f (fun file => { file with status := file.status.endCompressing })) hsound job (s₁.data job.ino)
      rw [hjf] at hinst hb
      refine ⟨(hlocal.modFile _).trans hinst, hsound', ?_, ?_, .packed ?_ ?_ ?_⟩
      all_goals rw [hb]
      all_goals simp [hfile, Status.endCompressing]

/-! ## One entry of the queue -/

theorem doDedup_local (Γ : Config) (env : Env) (f : Nat) (hs : s.fs.Sound) : s.Local (doDedup Γ env s f) f ∧ (doDedup Γ env s f).fs.Sound := by
  by_cases hcrash : dedupHashFile Γ env s (s.files f).filename = .crash
  · have hbegin : dedupHashFile Γ env (doDedupBegin s f) ((doDedupBegin s f).files f).filename = .crash := by
      rw [show ((doDedupBegin s f).files f).filename = (s.files f).filename by simp [doDedupBegin]]
      exact hcrash
    unfold doDedup
    dsimp only
    rw [hbegin]
    exact ⟨((State.Local.refl s f).modFile _).abort, hs⟩
  · obtain ⟨hlocal, hsound, -⟩ := doDedup_spec hs hcrash
    exact ⟨hlocal, hsound⟩

theorem doCompressBegin_local (Γ : Config) (env : Env) (s : State) (f : Nat) :
    s.Local (doCompressBegin Γ env s f).1 f ∧ (doCompressBegin Γ env s f).1.fs = s.fs ∧
      ∀ job, (doCompressBegin Γ env s f).2 = some job → job.file = f := by
  have hnone : ∀ job, (none : Option Job) = some job → job.file = f := fun _ hn => by cases hn
  have hhere := State.Local.refl s f
  unfold doCompressBegin
  split
  · have hdelete : s.Local (directDelete s f) f := hhere.modFile _
    exact ⟨hdelete, rfl, hnone⟩
  · rename_i i _
    dsimp only
    split
    · exact ⟨hhere, rfl, hnone⟩
    · obtain ⟨s₁, hs₁⟩ : ∃ s₁, s₁ = if headerSize ≤ (s.data i).length ∧ env.ok .readHeader = true then
          s.modFile f (fun file => { file with
            compressor := (fileReadHeader Γ (s.data i) (s.files f).compressor (s.files f).size).1
            size := (fileReadHeader Γ (s.data i) (s.files f).compressor (s.files f).size).2 }) else s := ⟨_, rfl⟩
      have hlocal : s.Local s₁ f ∧ s₁.fs = s.fs := by
        rw [hs₁]
        split
        · exact ⟨hhere.modFile _, rfl⟩
        · exact ⟨hhere, rfl⟩
      rw [← hs₁]
      split
      · exact ⟨hlocal.1, hlocal.2, hnone⟩
      · split
        · exact ⟨hlocal.1, hlocal.2, hnone⟩
        · split
          · exact ⟨hlocal.1, hlocal.2, hnone⟩
          · refine ⟨?_, hlocal.2, ?_⟩
            · dsimp only
              exact hlocal.1.modFile _
            intro job hjob
            cases hjob
            rfl

/-- The job that `do_compress` leaves behind at the unlock: the file of the path, its size and attributes and the module chosen for
it. -/
theorem doCompressBegin_job {job : Job} (h : doCompressBegin Γ env s f = (s', some job)) :
    job.file = f ∧ s.fs.inoOf (s.files f).filename = some job.ino ∧ job.size = (s.data job.ino).length ∧
      job.attr = (s.fs.inodes job.ino).attr ∧ chooseCompressor Γ (s.files f).filename = some job.compressor ∧ s'.fs = s.fs ∧
      (s'.files f).filename = (s.files f).filename := by
  have hfs := (doCompressBegin_local Γ env s f).2.1
  rw [h] at hfs
  unfold doCompressBegin at h
  split at h
  · cases h
  · rename_i i hi
    have hino : s.fs.inoOf (s.files f).filename = some i := by
      split at hi
      · exact hi
      · cases hi
    dsimp only at h
    split at h
    · cases h
    · generalize hs' : (if headerSize ≤ (s.data i).length ∧ env.ok .readHeader = true then _ else s) = s' at h
      have hname : (s'.files f).filename = (s.files f).filename := by
        rw [← hs']
        split
        · rw [State.files_modFile, if_pos rfl]
        · rfl
      have hattr : s'.fs = s.fs := by
        rw [← hs']
        split <;> rfl
      split at h
      · cases h
      · split at h
        · cases h
        · rename_i m hm
          split at h
          · cases h
          · cases h
            refine ⟨rfl, hino, rfl, by rw [hattr], ?_, hfs, ?_⟩
            · rw [← hname]
              exact hm
            · rw [State.files_modFile, if_pos rfl]
              exact hname

theorem doCompressEnd_local (Γ : Config) (env : Env) (hs : s.fs.Sound) (job : Job) (got : Bytes) (eof : Bool) :
    s.Local (doCompressEnd Γ env s job got eof).1 job.file ∧ (doCompressEnd Γ env s job got eof).1.fs.Sound := by
  have hhere := (State.Local.refl s job.file).modFile (fun file => { file with status := file.status.endCompressing })
  unfold doCompressEnd
  dsimp only
  split
  · exact ⟨hhere.modFile _, hs⟩
  · split
    · exact ⟨hhere, hs⟩
    · split
      · exact ⟨hhere, hs⟩
      · obtain ⟨hlocal, hsound, -⟩ := doCompressInstall_spec Γ env
          (s := s.modFile job.file (fun file => { file with status := file.status.endCompressing })) hs job got
        exact ⟨hhere.trans hlocal, hsound⟩

theorem doCompress_local (Γ : Config) (env : Env) (f : Nat) (hs : s.fs.Sound) : s.Local (doCompress Γ env s f) f ∧ (doCompress Γ env s f).fs.Sound := by
  obtain ⟨hbegin, hfs, hjob⟩ := doCompressBegin_local Γ env s f
  unfold doCompress
  generalize doCompressBegin Γ env s f = r at hbegin hfs hjob
  obtain ⟨s₁, res⟩ := r
  have hs₁ : s₁.fs.Sound := by
    rw [hfs]
    exact hs
  cases res with
  | none => exact ⟨hbegin, hs₁⟩
  | some job =>
    obtain rfl := hjob job rfl
    obtain ⟨hend, hsound⟩ := doCompressEnd_local Γ env hs₁ job (s₁.data job.ino) true
    exact ⟨hbegin.trans hend, hsound⟩

theorem directOpenDelete_local (s : State) (f : Nat) :
    s.Local (directOpenDelete s f) f ∧ (directOpenDelete s f).fs = s.fs := by
  have hfreed : ∀ s' : State, s.Local s' f →
      s.Local { s' with freed := Function.update s'.freed f true } f := fun s' h => h.trans ⟨fun _ _ => rfl, rfl, rfl, rfl, rfl⟩
  unfold directOpenDelete flushFileCache
  split
  · exact ⟨hfreed s (State.Local.refl s f), rfl⟩
  · rename_i pages _
    have hcount : s.Local
        { s with decompCacheSize := s.decompCacheSize - pageSize * (pages.filter Option.isSome).length } f :=
      ⟨fun _ _ => rfl, rfl, rfl, rfl, rfl⟩
    exact ⟨hfreed _ (hcount.modFile (fun file => { file with cache := none })), rfl⟩

theorem compFinish_local (s : State) (f : Nat) (isDedup : Bool) :
    s.Local (compFinish Γ s f isDedup) f ∧ (compFinish Γ s f isDedup).fs = s.fs := by
  unfold compFinish
  cases isDedup with
  | true => exact ⟨(State.Local.refl s f).modFile _, rfl⟩
  | false => exact ⟨((State.Local.refl s f).discard).modFile _, fs_discard s f⟩

/-- The state in which `thread_compress` has taken the first entry off the queue. -/
def dequeued (Γ : Config) (s : State) (e : CompressT) (rest : List CompressT) : State :=
  ({ s with comp := rest, compEntries := s.compEntries - 1 } : State).assert Γ (decide ((s.files e.file).accesses > 0))

theorem dequeued_books (Γ : Config) (s : State) (e : CompressT) (rest : List CompressT) :
    (dequeued Γ s e rest).database = s.database ∧ (dequeued Γ s e rest).entries = s.entries ∧
      (dequeued Γ s e rest).comp = rest ∧ (dequeued Γ s e rest).compEntries = s.compEntries - 1 := by
  unfold dequeued
  rcases State.assert_eq Γ ({ s with comp := rest, compEntries := s.compEntries - 1 } : State)
    (decide ((s.files e.file).accesses > 0)) with h | h
  all_goals
    rw [h]
    exact ⟨rfl, rfl, rfl, rfl⟩

theorem threadCompress_eq {e : CompressT} {rest : List CompressT} (hcomp : s.comp = e :: rest) : threadCompress Γ env s =
    if e.isDedup then
      compFinish Γ (if dedupNow ((dequeued Γ s e rest).files e.file) then doDedup Γ env (dequeued Γ s e rest) e.file
        else dequeued Γ s e rest) e.file true
    else
      compFinish Γ (if compressNow Γ ((dequeued Γ s e rest).files e.file) then doCompress Γ env (dequeued Γ s e rest) e.file
        else dequeued Γ s e rest) e.file false := by
  unfold threadCompress compDequeue
  rw [hcomp]
  rfl

theorem threadCompress_of_empty (hcomp : s.comp = []) : threadCompress Γ env s = s := by
  unfold threadCompress compDequeue
  rw [hcomp]

/-- `thread_compress` changes one entry, and takes one place off the queue. -/
theorem threadCompress_local (Γ : Config) (env : Env) (hs : s.fs.Sound) {e : CompressT} {rest : List CompressT} (hcomp : s.comp = e :: rest) :
    (dequeued Γ s e rest).Local (threadCompress Γ env s) e.file ∧ (threadCompress Γ env s).fs.Sound := by
  have hs₁ : (dequeued Γ s e rest).fs.Sound := by
    unfold dequeued
    rw [State.fs_assert]
    exact hs
  rw [threadCompress_eq hcomp]
  split
  · split
    · obtain ⟨h₁, h₁'⟩ := doDedup_local Γ env e.file hs₁
      obtain ⟨h₂, h₂'⟩ := compFinish_local (Γ := Γ) (doDedup Γ env (dequeued Γ s e rest) e.file) e.file true
      exact ⟨h₁.trans h₂, by rw [h₂']; exact h₁'⟩
    · obtain ⟨h₂, h₂'⟩ := compFinish_local (Γ := Γ) (dequeued Γ s e rest) e.file true
      exact ⟨h₂, by rw [h₂']; exact hs₁⟩
  · split
    · obtain ⟨h₁, h₁'⟩ := doCompress_local Γ env e.file hs₁
      obtain ⟨h₂, h₂'⟩ := compFinish_local (Γ := Γ) (doCompress Γ env (dequeued Γ s e rest) e.file) e.file false
      exact ⟨h₁.trans h₂, by rw [h₂']; exact h₁'⟩
    · obtain ⟨h₂, h₂'⟩ := compFinish_local (Γ := Γ) (dequeued Γ s e rest) e.file false
      exact ⟨h₂, by rw [h₂']; exact hs₁⟩

/-- What the purge puts a file on the queue for. -/
def Wants (Γ : Config) (isDedup : Bool) (file : FileT) : Prop :=
  if isDedup then wantsDedup Γ file = true else file.deleted = false ∧ file.compressor = none ∧ Compressible Γ file

theorem compressible_congr {x y : FileT} (hname : y.filename = x.filename) (hsize : y.size = x.size) :
    Compressible Γ y ↔ Compressible Γ x := by
  unfold Compressible
  rw [hname, hsize]

theorem weight_of_not_deleted {x : FileT} (h : x.deleted = false) :
    weight Γ x = (if x.status.cancel then 4 else 0) + (if x.compressor = none ∧ Compressible Γ x then 2 else 0) +
      if wantsDedup Γ x then 1 else 0 := by
  unfold weight
  rw [if_neg (by rw [h]; exact Bool.false_ne_true)]

/-- Deduplication brings an entry closer to being trimmed, provided that no raw file takes the place of a compressed one that would
be compressed again. -/
theorem weight_dedup {x y : FileT} (hkeeps : DedupKeeps x y) (hdedup : Deduped Γ env s x y) (hwants : wantsDedup Γ x = true)
    (hlink : Compressible Γ x → x.compressor ≠ none → ∀ md5 dp j, dedupHashFile Γ env s x.filename = .digest md5 →
      s.dedup.findMd5 md5 = some dp → dp.filename ≠ x.filename → s.fs.inoOf dp.filename = some j → parse Γ (s.data j) ≠ none) :
    weight Γ y < weight Γ x := by
  have hx : x.deleted = false := by
    unfold wantsDedup at hwants
    simp only [Bool.and_eq_true, Bool.not_eq_true'] at hwants
    exact hwants.1.1.2
  have hcongr := compressible_congr (Γ := Γ) hkeeps.filename hkeeps.size
  have hpending : (y.compressor = none ∧ Compressible Γ y → x.compressor = none ∧ Compressible Γ x) →
      (if y.compressor = none ∧ Compressible Γ y then 2 else 0) ≤ if x.compressor = none ∧ Compressible Γ x then 2 else 0 := by
    intro himp
    split
    · rename_i hy
      rw [if_pos (himp hy)]
    · exact Nat.zero_le _
  rw [weight_of_not_deleted hx, weight_of_not_deleted (hkeeps.deleted.trans hx), if_pos hwants]
  cases hdedup with
  | cancelled hc hc' hcomp _ =>
    have hle := hpending (fun h => ⟨hcomp.symm.trans h.1, hcongr.mp h.2⟩)
    rw [hc, hc', if_pos rfl, if_neg Bool.false_ne_true]
    split_ifs at hle ⊢ <;> omega
  | marked hc hcomp hd =>
    have hle := hpending (fun h => ⟨hcomp.symm.trans h.1, hcongr.mp h.2⟩)
    have hnot : wantsDedup Γ y = false := by simp [wantsDedup, hd]
    rw [hc, hnot, if_neg Bool.false_ne_true]
    omega
  | @linked md5 dp j hc hd hhash hfind hne hino hcomp =>
    have hle := hpending (by
      rintro ⟨hy, hcy⟩
      have hcx := hcongr.mp hcy
      refine ⟨?_, hcx⟩
      by_contra hsome
      obtain ⟨r, hr⟩ := Option.ne_none_iff_exists'.mp (hlink hcx hsome md5 dp j hhash hfind hne hino)
      rw [hcomp, fileReadHeader_of_parse hr] at hy
      cases hy)
    have hnot : wantsDedup Γ y = false := by simp [wantsDedup, hd]
    rw [hc, hnot, if_neg Bool.false_ne_true]
    omega

/-- Compression brings an entry closer to being trimmed, although the file may count as not deduplicated afterwards. -/
theorem weight_compress {x y z : FileT} (hpacked : Compressed x y) (hx : x.deleted = false) (hcomp : x.compressor = none)
    (hcompressible : Compressible Γ x) (hzd : z.deleted = y.deleted) (hzc : z.compressor = y.compressor)
    (hzs : z.status = y.status) : weight Γ z < weight Γ x := by
  have hwx : weight Γ x = (if x.status.cancel = true then 4 else 0) + 2 + if wantsDedup Γ x then 1 else 0 := by
    rw [weight_of_not_deleted hx]
    congr 2
    exact if_pos ⟨hcomp, hcompressible⟩
  have hmark : (if wantsDedup Γ z = true then 1 else 0) ≤ 1 := by split <;> omega
  rw [hwx]
  cases hpacked with
  | gone hd =>
    unfold weight
    rw [if_pos (hzd.trans hd)]
    omega
  | packed hd hc hcancel =>
    rw [weight_of_not_deleted (hzd.trans (hd.trans hx)), hzs, hcancel]
    have hzero : (if z.compressor = none ∧ Compressible Γ z then 2 else 0) = 0 := if_neg (fun h => hc (hzc.symm.trans h.1))
    omega
  | cancelled hd hc hsize hcx hcy =>
    have htwo : (if z.compressor = none ∧ Compressible Γ z then 2 else 0) ≤ 2 := by split <;> omega
    rw [weight_of_not_deleted (hzd.trans (hd.trans hx)), hzs, hcx, hcy, if_pos rfl, if_neg Bool.false_ne_true]
    omega

theorem dequeued_same (Γ : Config) (s : State) (e : CompressT) (rest : List CompressT) :
    (dequeued Γ s e rest).files = s.files ∧ (dequeued Γ s e rest).fs = s.fs ∧ (dequeued Γ s e rest).dedup = s.dedup := by
  unfold dequeued
  rcases State.assert_eq Γ ({ s with comp := rest, compEntries := s.compEntries - 1 } : State)
    (decide ((s.files e.file).accesses > 0)) with h | h
  all_goals
    rw [h]
    exact ⟨rfl, rfl, rfl⟩

/-- The background thread handles the only place of an entry on the queue: the entry is unused then, and closer to being
trimmed. -/
theorem threadCompress_weight (he : env.AllOk) (hs : s.fs.Sound) {e : CompressT} {rest : List CompressT} (hcomp : s.comp = e :: rest)
    (hacc : (s.files e.file).accesses = 1) (hwants : Wants Γ e.isDedup (s.files e.file)) (hset : Settles Γ env s) :
    ((threadCompress Γ env s).files e.file).accesses = 0 ∧
      weight Γ ((threadCompress Γ env s).files e.file) < weight Γ (s.files e.file) := by
  obtain ⟨hfiles, hfs, hdedup⟩ := dequeued_same Γ s e rest
  have hs₁ : (dequeued Γ s e rest).fs.Sound := by
    rw [hfs]
    exact hs
  have hnext := hset e (by rw [hcomp]; rfl)
  rw [threadCompress_eq hcomp]
  unfold Wants at hwants
  dsimp only at hnext
  cases hd : e.isDedup with
  | true =>
    rw [hd, if_pos rfl] at hwants hnext
    have hnot : (s.files e.file).deleted = false := by
      unfold wantsDedup at hwants
      simp only [Bool.and_eq_true, Bool.not_eq_true'] at hwants
      exact hwants.1.1.2
    obtain ⟨hcrash, hlink⟩ := hnext hacc hnot
    have hnow : dedupNow ((dequeued Γ s e rest).files e.file) = true := by simp [dedupNow, hfiles, hacc, hnot]
    have hhash : dedupHashFile Γ env (dequeued Γ s e rest) = dedupHashFile Γ env s := by
      funext name
      unfold dedupHashFile State.data
      rw [hfs]
    rw [if_pos rfl, if_pos hnow]
    obtain ⟨-, -, hkeeps, hdeduped⟩ := doDedup_spec (Γ := Γ) hs₁ (by rw [hhash, hfiles]; exact hcrash)
    rw [hfiles] at hkeeps hdeduped
    have hless := weight_dedup hkeeps hdeduped hwants (by
      intro hc hne md5 dp j h₁ h₂ h₃ h₄
      rw [hhash] at h₁
      rw [hdedup] at h₂
      rw [hfs] at h₄
      rw [State.data, hfs]
      exact hlink hc hne md5 dp j h₁ h₂ h₃ h₄)
    simp only [compFinish, if_true, State.files_modFile]
    exact ⟨by rw [hkeeps.accesses, hacc]; rfl, hless⟩
  | false =>
    rw [hd, if_neg Bool.false_ne_true] at hwants hnext
    obtain ⟨hnot, hraw, hcompressible⟩ := hwants
    obtain ⟨hroom, hbig⟩ := hnext hacc hnot hraw
    have hnow : compressNow Γ ((dequeued Γ s e rest).files e.file) = true := by
      simp only [compressNow, hfiles, hacc, hnot, hraw]
      rcases hroom with h | h
      · simp [h]
      · simp [h]
    rw [if_neg Bool.false_ne_true, if_pos hnow]
    obtain ⟨-, -, -, haccesses, hpacked⟩ := doCompress_spec (Γ := Γ) (f := e.file) he hs₁ (by rw [hfiles]; exact hraw)
      (by rw [hfiles]; exact hcompressible.1) (by
        intro i hi
        rw [hfiles, hfs] at hi
        rw [State.data, hfs]
        exact hbig i hi)
    rw [hfiles] at haccesses hpacked
    obtain ⟨b, hb⟩ := files_discard (Γ := Γ) (doCompress Γ env (dequeued Γ s e rest) e.file) e.file
    simp only [compFinish, Bool.false_eq_true, if_false, State.files_modFile, if_true, hb]
    exact ⟨by rw [haccesses, hacc]; rfl, weight_compress hpacked hnot hraw hcompressible rfl rfl rfl⟩

end FuseCompress
