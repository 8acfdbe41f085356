import FuseCompress.Theorems.Metadata

/-!
# Changing the representation of a file

`do_compress`, `do_decompress` and the `direct_close` of a descriptor that was written to give the new bytes the owner, the mode and
the times of the old ones, the times with `utime`. `recode_shows_iff`: what `getattr` reports stays the same exactly when the
modification time is a whole number of seconds and no late write takes a set-id bit from the file, or an attribute file is shown.
-/

namespace FuseCompress

variable {Γ : Config} {env : Env} {b b' : Backing} {p : Filename} {s t : State} {f i : Nat} {k : Option Nat}

/-! ## What is shown -/

/-- The modification time is a whole number of seconds, and there is no set-id bit to lose if one would be; or an attribute file
shows both. -/
def ShowsAttr (Γ : Config) (b : Backing) (p : Filename) (i : Nat) (lowers : Bool) : Prop :=
  wholeSeconds (b.inodes i).attr.mtime = (b.inodes i).attr.mtime ∧
      (lowers = true → dropSetId (b.inodes i).attr.mode = (b.inodes i).attr.mode) ∨
    Γ.dedupEnabled = true ∧ b.find (fuseattrName p) ≠ none

theorem visible_plain (hd : Γ.dedupEnabled = false) (hi : b.inoOf p = some i) : visible Γ b p = some (b.inodes i).attr.shown := by
  unfold visible sysGetattr
  simp [Env.fine, Backing.inoOf_eq_some.mp hi, hd]

/-- An inode whose time is in whole seconds takes the place of one with the same attributes in seconds. -/
theorem visible_recoded_iff {lowers : Bool} (hr : b.Recoded b' p lowers) (hat : b.At p i k)
    (hnew : ∃ i', b'.inoOf p = some i' ∧ wholeSeconds (b'.inodes i').attr.mtime = (b'.inodes i').attr.mtime) :
    visible Γ b' p = visible Γ b p ↔ ShowsAttr Γ b p i lowers := by
  obtain ⟨j, hat', hattr, hattrFile⟩ := hr i k hat
  obtain ⟨j', hj', hwhole⟩ := hnew
  obtain rfl : j = j' := Option.some.inj (hat'.ino.symm.trans hj')
  have hfile : (b'.inodes j).attr.shown = (b.inodes i).attr.shown ↔
      wholeSeconds (b.inodes i).attr.mtime = (b.inodes i).attr.mtime ∧
        (lowers = true → dropSetId (b.inodes i).attr.mode = (b.inodes i).attr.mode) := by
    cases lowers with
    | false =>
      simp only [Attr.lowerIf, cond_false, Attr.inSeconds, Attr.mk.injEq] at hattr
      simp only [Attr.shown, Attr.mk.injEq]
      rw [← hattr.2.2.2.2, hwhole]
      tauto
    | true =>
      simp only [Attr.lowerIf, cond_true, Attr.lowered, Attr.inSeconds, Attr.mk.injEq] at hattr
      simp only [Attr.shown, Attr.mk.injEq]
      rw [← hattr.2.2.2.2, hwhole, hattr.1]
      tauto
  unfold ShowsAttr
  cases hd : Γ.dedupEnabled with
  | false =>
    rw [visible_plain hd hat'.ino, visible_plain hd hat.ino, Option.some.injEq, hfile]
    simp
  | true =>
    rw [visible_eq hd, visible_eq hd, hat'.ino, hat.ino, Option.map_some, Option.map_some, Backing.attrOf, Backing.attrOf, hat'.attr,
      hat.attr, Option.some.injEq]
    cases k with
    | none =>
      rw [Option.map_none, Option.map_none, Option.getD_none, Option.getD_none, hfile, hat.node rfl]
      simp
    | some l =>
      have hnode : b.find (fuseattrName p) ≠ none := by
        rw [Backing.inoOf_eq_some.mp hat.attr]
        simp
      rw [Option.map_some, Option.map_some, Option.getD_some, Option.getD_some, hattrFile l rfl]
      simp [hnode]

/-! ## The three operations -/

/-- A call that changes the bytes of a file and not its content. `do_compress` is cut where it gives the lock back; the module has
read `got` then, and it is later. -/
inductive Recode where
  | compress (env env' : Env) (clock : Nat) (got : Bytes) (eof : Bool)
  | decompress (env : Env)
  | close (env : Env) (d : Nat)

/-- The call, with nothing else going on, when it succeeds. -/
def Recode.run (Γ : Config) (s : State) (f : Nat) : Recode → Option State
  | .compress env env' clock got eof =>
    match doCompressBegin Γ env s f with
    | (_, none) => none
    | (s, some job) =>
      match doCompressEnd Γ env' (s.withFs (fun b => { b with clock := clock })) job got eof with
      | (s, true) => some s
      | (_, false) => none
  | .decompress env =>
    match doDecompress Γ env s f with
    | (s, true) => some s
    | (_, false) => none
  | .close env d => if env.ok .codecClose then some (directClose Γ env s f d) else none

/-- The backing file system supports owners, modes and times: the calls that copy and restore them succeed. What is closed is a
descriptor of the file that has been written to. -/
def Recode.Supported (s : State) (f : Nat) : Recode → Prop
  | .compress _ env' _ _ _ => env'.Copies
  | .decompress env => env.Copies ∧ s.KeepsTimes env f
  | .close env d => env.ok .closeFstat = true ∧ env.ok .closeUtime = true ∧ d ∈ (s.files f).head ∧
      (s.files f).compressor ≠ none ∧ (s.descs d).fd ≠ none ∧ ∃ chunks, (s.descs d).handle = some (.writing chunks)

/-- A file of a mount, whose descriptors are open on it and counted; one that holds data is of a file that is being written to. -/
structure State.Orderly (s : State) (f : Nat) : Prop where
  overlaid : s.fs.Overlaid
  visible : isInternal (s.files f).filename = false
  attached : s.Attached f
  typed : s.Typed f
  counted : ((s.files f).head.length : Int) ≤ (s.files f).accesses

/-- The reported attributes stay: `do_decompress` finds that the file is raw already, or the time can be restored and what is written
late takes no set-id bit away. -/
def Recode.Safe (Γ : Config) (s : State) (f i : Nat) : Recode → Prop
  | .compress _ _ _ _ _ => ShowsAttr Γ s.fs (s.files f).filename i false
  | .decompress env =>
    ∀ m n, parse Γ (s.data i) = some (m, n) →
      ShowsAttr Γ s.fs (s.files f).filename i
        (!s.fs.fsetid && (s.files f).head.any (fun d => (s.descs d).flushes Γ (env.of d) ((s.files f).compressor.getD m)))
  | .close env d =>
    ShowsAttr Γ s.fs (s.files f).filename i
      (!s.fs.fsetid && (s.files f).compressor.any (fun m => (s.descs d).flushes Γ env m))

/-! ## `do_compress` -/

theorem doCompressEnd_success {job : Job} {got : Bytes} {eof : Bool} (h : doCompressEnd Γ env s job got eof = (t, true)) :
    t = doCompressInstall Γ env (s.modFile job.file (fun file => { file with status := file.status.endCompressing })) job got := by
  unfold doCompressEnd at h
  dsimp only at h
  split at h
  · cases h
  · split at h
    · cases h
    · split at h
      · cases h
      · cases h
        rfl

theorem attr_utime (b : Backing) (i : Nat) (st : Attr) : ((b.utime i st).inodes i).attr.mtime = wholeSeconds st.mtime := by
  unfold Backing.utime
  rw [attr_setAttr, if_pos rfl]

/-- `do_compress` without anybody else: the file has the attributes the new one is given. -/
theorem compress_shows_iff (hs : s.Orderly f) (hi : s.fs.inoOf (s.files f).filename = some i) {env env' : Env} (hcopies : env'.Copies)
    {job : Job} (hbegin : doCompressBegin Γ env s f = (t, some job)) {clock : Nat} {got : Bytes} {eof : Bool} {s' : State}
    (hend : doCompressEnd Γ env' (t.withFs (fun b => { b with clock := clock })) job got eof = (s', true)) :
    visible Γ s'.fs (s.files f).filename = visible Γ s.fs (s.files f).filename ↔
      ShowsAttr Γ s.fs (s.files f).filename i false := by
  obtain ⟨rfl, hino, -, hattr, -, hfs, hname⟩ := doCompressBegin_job hbegin
  obtain rfl : job.ino = i := Option.some.inj (hino.symm.trans hi)
  obtain ⟨k, hat⟩ := hs.overlaid.exists_at hs.visible hi
  have hp := ne_fuseattrName hs.visible (s.files job.file).filename
  rw [doCompressEnd_success hend]
  -- the clock has gone on, and the bit of the entry is cleared
  have hlater : s.fs.Replaced ((t.withFs (fun b => { b with clock := clock })).modFile job.file
      (fun file => { file with status := file.status.endCompressing })).fs (s.files job.file).filename := by
    rw [State.fs_modFile, State.fs_withFs, hfs]
    exact replaced_of_same (fun _ => rfl) (Nat.le_refl _) (fun _ _ => rfl)
  have hname' : (((t.withFs (fun b => { b with clock := clock })).modFile job.file
      (fun file => { file with status := file.status.endCompressing })).files job.file).filename = (s.files job.file).filename := by
    rw [State.files_modFile, if_pos rfl]
    exact hname
  have hattr' : ((((t.withFs (fun b => { b with clock := clock })).modFile job.file
      (fun file => { file with status := file.status.endCompressing })).fs.attrOf (s.files job.file).filename).map Attr.inSeconds) =
        some job.attr.inSeconds := by
    rw [State.fs_modFile, State.fs_withFs, hfs, hattr]
    show ((s.fs.inoOf _).map _).map _ = _
    rw [hi]
    rfl
  refine visible_recoded_iff (hlater.then (doCompressInstall_replaced hp hcopies got hname' hattr')) hat ?_
  rw [fs_doCompressInstall hcopies.2.2 got hname']
  refine ⟨s.fs.next, ?_, ?_⟩
  · unfold Backing.utime
    rw [State.fs_modFile, State.fs_withFs, hfs, Backing.inoOf_setAttr, Backing.inoOf_setName, if_pos rfl]
  · rw [State.fs_modFile, State.fs_withFs, hfs]
    rw [attr_utime, wholeSeconds_idem]

/-! ## `direct_close` -/

theorem Env.exists_of (e : Env) (d : Nat) : ∃ env : Env, env.of d = e :=
  ⟨{ e with ok := fun c => e.ok (match c with | .of _ c => c | c => c) }, rfl⟩

/-- `direct_close` sets the times of a file that is being written to. -/
theorem whole_directClose {d : Nat} {fd : Fd} {m : Module} (hi : s.fs.inoOf (s.files f).filename = some i)
    (hcomp : (s.files f).compressor = some m)
    (htype : (s.files f).type = .write) (hfd : (s.descs d).fd = some fd) (hfstat : env.ok .closeFstat = true)
    (hutime : env.ok .closeUtime = true) :
    wholeSeconds ((directClose Γ env s f d).fs.inodes i).attr.mtime = ((directClose Γ env s f d).fs.inodes i).attr.mtime := by
  obtain ⟨desc, -, ⟨hfiles, -⟩, hfs⟩ := closeHandle_cases (Γ := Γ) (d := d) env hcomp
  have hino : (closeHandle Γ env s f d).fs.inoOf ((closeHandle Γ env s f d).files f).filename = some i := by
    rw [hfiles]
    rcases hfs with ⟨hfs, -⟩ | ⟨_, _, _, -, -, hfs, -⟩
    · rw [hfs]
      exact hi
    · rw [hfs, Backing.inoOf_setData]
      exact hi
  have hrestored : (directClose Γ env s f d).fs = (closeHandle Γ env s f d).fs.utime i (s.fs.inodes fd.ino).attr := by
    rw [hfiles] at hino
    unfold directClose restoreTimes
    simp only [hfstat, if_true, hfd, Option.map_some, hfiles, hino, htype, hutime, and_self]
    split <;> rfl
  rw [hrestored, attr_utime, wholeSeconds_idem]

/-- `direct_close` of a descriptor that was written to. -/
theorem close_shows_iff (hs : s.Orderly f) (hi : s.fs.inoOf (s.files f).filename = some i) {d : Nat}
    (hsupported : (Recode.close env d).Supported s f) :
    visible Γ (directClose Γ env s f d).fs (s.files f).filename = visible Γ s.fs (s.files f).filename ↔
      (Recode.close env d).Safe Γ s f i := by
  obtain ⟨hfstat, hutime, hd, hcomp, hopen, chunks, hwriting⟩ := hsupported
  obtain ⟨m, hm⟩ := Option.ne_none_iff_exists'.mp hcomp
  obtain ⟨fd, hfd⟩ := Option.ne_none_iff_exists'.mp hopen
  obtain ⟨env', rfl⟩ := Env.exists_of env d
  obtain ⟨k, hat⟩ := hs.overlaid.exists_at hs.visible hi
  have htype : (s.files f).type = .write := hs.typed ⟨d, hd, chunks, hwriting⟩
  have hclosing : s.Closing env' f i m [d] s.fs false := by
    refine ⟨Backing.Touched.refl _ _, hi, hm, fun d' hd' fd' hfd' => ?_, fun d' hd' _ _ => ?_, ?_⟩
    · rw [List.mem_singleton] at hd'
      subst hd'
      exact (Option.some.inj (hi.symm.trans (hs.attached d' hd fd' hfd'))).symm
    · rw [List.mem_singleton] at hd'
      subst hd'
      exact ⟨htype, hfstat, hutime⟩
    · have hpos := List.length_pos_of_mem hd
      have hcounted := hs.counted
      rw [List.length_singleton]
      omega
  have htouched := touched_directClose (Γ := Γ) hclosing
  have hsafe : (Recode.close (env'.of d) d).Safe Γ s f i ↔ ShowsAttr Γ s.fs (s.files f).filename i
      (false || !s.fs.fsetid && (s.descs d).flushes Γ (env'.of d) m) := by
    rw [Bool.false_or]
    unfold Recode.Safe
    rw [hm]
    exact Iff.rfl
  rw [hsafe]
  refine visible_recoded_iff (htouched.recoded hi) hat ⟨i, ?_, ?_⟩
  · rw [htouched.inoOf]
    exact hi
  · exact whole_directClose hi hm htype hfd hfstat hutime

/-! ## `do_decompress` -/

/-- The file that `do_decompress` leaves has times in whole seconds. -/
theorem doDecompressInstall_success {temp size : Nat} {st : Attr} {s' : State} (hname : (s.files f).filename = p)
    (h : doDecompressInstall env s f temp st size = (s', true)) :
    ∃ i', s'.fs.inoOf p = some i' ∧ wholeSeconds (s'.fs.inodes i').attr.mtime = (s'.fs.inodes i').attr.mtime := by
  unfold doDecompressInstall at h
  dsimp only at h
  split at h
  · cases h
  · split at h
    · cases h
    · cases h
      refine ⟨temp, ?_, ?_⟩
      · simp only [State.fs_modFile, State.fs_withFs, State.files_withFs, files_reopenAll, hname]
        unfold Backing.utime
        rw [Backing.inoOf_setAttr, Backing.inoOf_setName, if_pos rfl]
      · rw [State.fs_modFile, State.fs_withFs, attr_utime, wholeSeconds_idem]

/-- `do_decompress` has found a file that is raw, or has given the file that it leaves times in whole seconds. -/
theorem doDecompress_success (h : doDecompress Γ env s f = (t, true)) :
    ∃ src, s.fs.inoOf (s.files f).filename = some src ∧
      (parse Γ (s.data src) = none ∧ t.fs = s.fs ∨ parse Γ (s.data src) ≠ none ∧
        ∃ i', t.fs.inoOf (s.files f).filename = some i' ∧ wholeSeconds (t.fs.inodes i').attr.mtime = (t.fs.inodes i').attr.mtime) := by
  have h₁ := unmoved_flushFileCache s f
  unfold doDecompress at h
  split at h
  · cases h
  split at h
  · cases h
  dsimp only at h
  generalize flushFileCache s f = s₁ at h h₁
  split at h
  · cases h
  rename_i src hsrc
  have hino : s.fs.inoOf (s.files f).filename = some src := by
    split at hsrc
    · rw [h₁.fs, h₁.filename] at hsrc
      exact hsrc
    · cases hsrc
  have hdata : s₁.data src = s.data src := by
    unfold State.data
    rw [h₁.fs]
  refine ⟨src, hino, ?_⟩
  split at h
  · cases h
  split at h
  · rename_i hparse
    cases h
    rw [hdata] at hparse
    exact Or.inl ⟨hparse, h₁.fs⟩
  · rename_i m size hparse
    rw [hdata] at hparse
    refine Or.inr ⟨by rw [hparse]; exact Option.some_ne_none _, ?_⟩
    generalize hs₂ : State.assert Γ _ _ = s₂ at h
    have hname₂ : (s₂.files f).filename = (s.files f).filename := by
      rw [← hs₂, State.files_assert, State.files_modFile, if_pos rfl]
      exact h₁.filename
    have hname₃ := congrFun (congrArg Books.filename (books_closeAll Γ env s₂ f (s₂.files f).head)) f
    generalize closeAll Γ env s₂ f (s₂.files f).head = s₃ at h hname₃
    split at h
    · cases h
    split at h
    · cases h
    split at h
    · cases h
    split at h
    · cases h
    · refine doDecompressInstall_success ?_ h
      have hack : (acknowledgeCancel (s₃.files f)).filename = (s₃.files f).filename := by
        unfold acknowledgeCancel
        split <;> rfl
      rw [State.files_withFs, State.files_modFile, if_pos rfl, hack]
      exact hname₃.trans hname₂

/-! ## The theorem -/

/-- What `getattr` reports of the owner, the mode and the modification time. -/
theorem recode_shows_iff (hs : s.Orderly f) (hi : s.fs.inoOf (s.files f).filename = some i) (call : Recode)
    (hsupported : call.Supported s f) (hrun : call.run Γ s f = some t) :
    visible Γ t.fs (s.files f).filename = visible Γ s.fs (s.files f).filename ↔ call.Safe Γ s f i := by
  cases call with
  | compress env env' clock got eof =>
    simp only [Recode.run] at hrun
    split at hrun
    · cases hrun
    · rename_i t₁ job hbegin
      split at hrun
      · rename_i s' hend
        cases hrun
        exact compress_shows_iff hs hi hsupported hbegin hend
      · cases hrun
  | decompress env =>
    simp only [Recode.run] at hrun
    split at hrun
    · rename_i s' hend
      cases hrun
      obtain ⟨src, hsrc, hcases⟩ := doDecompress_success hend
      obtain rfl : src = i := Option.some.inj (hsrc.symm.trans hi)
      unfold Recode.Safe
      rcases hcases with ⟨hraw, hfs⟩ | ⟨hpacked, hnew⟩
      · rw [hfs]
        exact iff_of_true rfl (fun m n hparse => by rw [hraw] at hparse; cases hparse)
      · obtain ⟨⟨m, n⟩, hparse⟩ := Option.ne_none_iff_exists'.mp hpacked
        obtain ⟨k, hat⟩ := hs.overlaid.exists_at hs.visible hi
        obtain ⟨l, hrecoded, -, -, hlowers⟩ := doDecompress_recoded (Γ := Γ) (ne_fuseattrName hs.visible _) hsupported.1 rfl
          hs.attached hs.typed hsupported.2 hs.counted
        rw [hend] at hrecoded hlowers
        rw [visible_recoded_iff hrecoded hat hnew, hlowers rfl src m n hi hparse]
        constructor
        · intro h m' n' hparse'
          rw [hparse] at hparse'
          cases hparse'
          exact h
        · exact fun h => h m n hparse
    · cases hrun
  | close env d =>
    simp only [Recode.run] at hrun
    split at hrun
    · cases hrun
      exact close_shows_iff hs hi hsupported
    · cases hrun

/-! ## A file that was changed at half past -/

/-- A backing directory with a file of one byte, last changed one and a half seconds after the epoch. -/
def Backing.halfSecond : Backing := .single [120] { mode := 0o100644, uid := 0, gid := 0, atime := 0, mtime := 1500000000 }

/-- A mount in which the file has an entry and is not open. -/
def State.halfSecond : State := (directOpen .anySize .fine (State.mounted .halfSecond) ['a']).1

theorem orderly_halfSecond : State.halfSecond.Orderly 0 where
  overlaid := overlaid_single _ ⟨by decide, by decide, by decide⟩
  visible := by decide
  attached := by
    intro d hd
    cases hd
  typed := by
    rintro ⟨d, hd, -⟩
    cases hd
  counted := Int.le_refl 0

/-- `do_compress` of the file. -/
def compressByte : Recode := .compress .fine .fine 2000000000 [120] true

theorem recode_shows_iff_halfSecond : ∃ t, compressByte.run .anySize State.halfSecond 0 = some t ∧
    (visible .anySize t.fs ['a'] = visible .anySize State.halfSecond.fs ['a'] ↔ compressByte.Safe .anySize State.halfSecond 0 0) := by
  have hrun : (compressByte.run .anySize State.halfSecond 0).isSome = true := by decide +kernel
  obtain ⟨t, ht⟩ := Option.isSome_iff_exists.mp hrun
  exact ⟨t, ht, recode_shows_iff orderly_halfSecond (by decide) compressByte ⟨rfl, rfl, rfl⟩ ht⟩

/-- The half second is lost. -/
theorem halfSecond_not_kept : ¬∀ (Γ : Config) (s t : State) (f i : Nat) (call : Recode), s.Orderly f →
    s.fs.inoOf (s.files f).filename = some i → call.Supported s f → call.run Γ s f = some t →
      visible Γ t.fs (s.files f).filename = visible Γ s.fs (s.files f).filename := by
  intro h
  have hrun : (compressByte.run .anySize State.halfSecond 0).any (fun t =>
      decide (visible .anySize t.fs ['a'] ≠ visible .anySize State.halfSecond.fs ['a'])) = true := by decide +kernel
  rw [Option.any_eq_true] at hrun
  obtain ⟨t, ht, hne⟩ := hrun
  rw [decide_eq_true_eq] at hne
  exact hne (h .anySize State.halfSecond t 0 0 compressByte orderly_halfSecond (by decide) ⟨rfl, rfl, rfl⟩ ht)

end FuseCompress
