import FuseCompress.Lemmas.Assertions
import FuseCompress.Theorems.Serial

/-!
# No assertion fails

In a run of operations one at a time the process goes on for ever: no assertion fails, also in a program built with them, and no module
is called through a NULL pointer. The one thing to be kept away is a write at the start of an empty file that is stored compressed,
which `assert(file->compressor == NULL)` is about.
-/

namespace FuseCompress

variable {Γ : Config} {env : Env} {s : State} {q : PlainFs Filename} {x y : Serial} {op : Op}

section Steps

variable (hdedup : Γ.dedupEnabled = false) (hcaching : Γ.cacheDecompressedData = false) (hexact : ∀ m, (Γ.codec m).Exact)
  (hdefault : Γ.compressorDefault.Available Γ) (hwritable : Γ.readOnly = false)

include hdedup hcaching hwritable in
/-- An operation does not end the process. -/
theorem aborted_perform (h : s.Ready (fun _ => 0)) (hm : s.Mirrors Γ q) (hq : q.Sound) (hmade : op.Made s)
    (hguard : op.startsOver s = false) (hgoes : s.aborted = false) : (op.perform Γ env s).1.aborted = false := by
  cases op with
  | getattr full =>
    change (fusecompressGetattr Γ env s full).1.aborted = false
    unfold fusecompressGetattr
    split
    · unfold getattrMagic
      repeat' split
      all_goals exact hgoes
    · split
      · exact hgoes
      · exact hgoes
      · dsimp only
        rw [← hgoes, ← aborted_directOpen Γ env s full]
        unfold getattrLocked
        dsimp only
        repeat' split
        all_goals rfl
  | mknod full mode uid gid =>
    change (fusecompressMknod Γ env s full mode uid gid).1.aborted = false
    unfold fusecompressMknod mknodLocked
    rw [← hgoes, ← aborted_directOpen Γ env s full]
    split <;> rfl
  | unlink full =>
    change (fusecompressUnlink Γ env s full).1.aborted = false
    unfold fusecompressUnlink unlinkLocked
    dsimp only
    rw [discard_off hdedup, ← hgoes, ← aborted_directOpen Γ env s full]
    split <;> rfl
  | rename src dst =>
    change (fusecompressRename Γ env s src dst).1.aborted = false
    have hfirst := aborted_directOpen Γ env s src
    unfold fusecompressRename renameLocked
    dsimp only
    generalize ha : directOpen Γ env s src = a at hfirst ⊢
    have hsecond := aborted_directOpen Γ env (countAccess a.1 a.2) dst
    generalize hb : directOpen Γ env (countAccess a.1 a.2) dst = b at hsecond ⊢
    have hpair : (((countAccess b.1 b.2).modFile a.2 (fun file => { file with accesses := file.accesses - 1 })).modFile b.2
        (fun file => { file with accesses := file.accesses - 1 })).aborted = false := (hsecond.trans hfirst).trans hgoes
    generalize ht : ((countAccess b.1 b.2).modFile a.2 (fun file => { file with accesses := file.accesses - 1 })).modFile b.2
      (fun file => { file with accesses := file.accesses - 1 }) = t at hpair ⊢
    obtain ⟨hunseen, -, hy, hxy, -, -⟩ := renamePair_unseen hdedup ha hb ht.symm h hm hmade.1
    split
    · rename_i fs _
      rw [if_neg (by simp [hdedup]), ← hpair]
      have hbooks := hunseen.ready.tidy
      exact aborted_directRename Γ (s := { t with fs := fs }) hbooks rfl hxy hy
    · exact hpair
  | truncate full size =>
    change (fusecompressTruncate Γ env s full size).1.aborted = false
    obtain ⟨t, f, hdirect, hunseen, hf, hname⟩ := directOpen_unseen hm h hdedup env full
    have hopen : t.hasOpen (t.files f).filename := by
      rw [hname]
      exact (hunseen.hasOpen h full).mpr hmade.1
    have hne : (t.files f).head ≠ [] := (hunseen.ready.hasOpen_iff hf).mp hopen
    obtain ⟨d, hd⟩ := List.exists_mem_of_ne_nil _ hne
    obtain ⟨i, -, hholds⟩ := hunseen.mirrors.holds hf (hunseen.mirrors.target f hf d hd)
    have hsame := aborted_directOpen Γ env s full
    unfold fusecompressTruncate
    rw [hdirect] at hsame ⊢
    rw [← hgoes, ← hsame]
    exact aborted_truncateLocked env hdedup (hholds.opened hne) (hq.text _) (hunseen.ready.tidy.balanced.nodup f) full size
  | «open» full writable =>
    change (fusecompressOpen Γ env s full writable).1.aborted = false
    unfold fusecompressOpen openLocked
    dsimp only
    rw [openUndedup_off hdedup]
    dsimp only
    rw [← hgoes, ← aborted_directOpen Γ env s full]
    unfold openFile openDescriptor
    split
    · rfl
    · dsimp only
      repeat' split
      all_goals rfl
  | read d size offset =>
    obtain ⟨-, hd, -, i, hstands, -⟩ := hm.live h hmade
    have hread : (readLocked Γ env s (s.descs d).file d size offset).1.aborted = s.aborted := by
      unfold readLocked
      rcases hstands with ⟨hbare, -⟩ | ⟨m, hstored⟩
      · rw [hbare.compressor]
      · rw [hstored.compressor]
        exact aborted_directDecompress env hcaching (hstored.coherent (hq.text _) (h.tidy.balanced.nodup _)) hd size offset
    change (fusecompressRead Γ env s d size offset).1.aborted = false
    unfold fusecompressRead
    dsimp only
    generalize readLocked Γ env s (s.descs d).file d size offset = r at hread ⊢
    rw [← hgoes, ← hread]
    rcases r with ⟨t, ⟨res, buf⟩ | ⟨fd, n, pos, served⟩⟩
    · dsimp only
      split <;> rfl
    · dsimp only
      split <;> rfl
  | write d buf offset =>
    obtain ⟨-, hd, -, i, hstands, -⟩ := hm.live h hmade.1
    have hwrite := aborted_writeLocked env hdedup hwritable hstands (h.uncached _) (hq.text _) (h.tidy.balanced.nodup _) hd hguard buf
    change (fusecompressWrite Γ env s d buf offset).1.aborted = false
    unfold fusecompressWrite
    dsimp only
    generalize writeLocked Γ env s (s.descs d).file d buf offset = r at hwrite ⊢
    rw [← hgoes, ← hwrite]
    rcases r with ⟨t, res | fd⟩
    · dsimp only
      split <;> rfl
    · have hpwrite := aborted_pwriteFd env t fd buf offset
      dsimp only
      generalize pwriteFd env t fd buf offset = r at hpwrite ⊢
      rcases r with ⟨t', _ | _⟩
      · exact hpwrite
      · exact hpwrite
  | release d => exact (aborted_releaseLocked ..).trans hgoes
  | purge => exact (aborted_directOpenPurge ..).trans hgoes
  | compress => exact (aborted_threadCompress hdedup env h).trans hgoes
  | tick => exact hgoes
  | remount rounds => rfl

include hdedup hcaching hexact hdefault hwritable in
/-- In every run the process goes on: no assertion fails and no module is called through a NULL pointer, in whatever order the
operations come. -/
theorem not_aborted {b : Backing} {as : List (Env × Op)} (hb : b.Shows Γ q) (hnext : q.nextDesc = 0) (hq : q.Sound) (hu : q.Unmarked)
    (hrun : Run (Serial.step Γ) Serial.Allowed (Serial.mounted b q) as x) : x.shared.aborted = false := by
  refine (hrun.invariant (I := fun x => x.Faithful Γ ∧ x.shared.aborted = false) (fun x a y hx ha hstep => ?_)
    ⟨Serial.faithful_mounted hb hnext hq hu, rfl⟩).2
  refine ⟨hx.1.step hdedup hcaching hexact hdefault ha hstep, ?_⟩
  obtain ⟨-, -, hmade, hguard, -⟩ := ha
  unfold Serial.step at hstep
  rw [hx.2, if_neg Bool.false_ne_true] at hstep
  cases hstep
  exact aborted_perform hdedup hcaching hwritable hx.1.ready hx.1.mirrors hx.1.sound hmade hguard hx.2

end Steps

/-- The run with a program that was built with assertions. -/
def Config.asserting : Config := { Config.anySize with assertions := true }

theorem not_aborted_written :
    ∃ x, Run (Serial.step .asserting) Serial.Allowed (Serial.mounted .empty .empty) (writtenAndRenamed.map (fun op => (.fine, op))) x ∧
      x.shared.aborted = false := by
  obtain ⟨x, hrun, -⟩ := Run.exists_of_executeIf (show (executeIf (Serial.fineStep .asserting) (fun x op => x.Sane (.fine, op))
    (Serial.mounted .empty .empty) writtenAndRenamed).any (fun _ => true) = true by decide +kernel)
  exact ⟨x, Serial.run_fine hrun, not_aborted rfl rfl (fun _ => Codec.stored_exact) (Module.available_null _) rfl (Backing.shows_empty _)
    rfl PlainFs.sound_empty PlainFs.unmarked_empty (Serial.run_fine hrun)⟩

/-- A directory with one file, which is empty and compressed, as `fusecompress_offline` leaves it. -/
def Backing.emptyPacked : Backing where
  names := [(['a'], .reg 0)]
  inodes := fun _ => ⟨header .null 0, { mode := 0o100644, uid := 0, gid := 0, atime := 0, mtime := 0 }⟩
  next := 1
  clock := 0
  fsetid := false

/-- The condition on a write is needed: the first write to such a file ends the process. -/
theorem startsOver_aborts : ∃ x, Run (Serial.step .asserting) (fun x a => a.1.AllOk ∧ a.1.Ample ∧ a.2.Made x.shared)
    { shared := .mounted .emptyPacked, plain := .empty } [(.fine, .open ['a'] true), (.fine, .write 0 [1] 0)] x ∧
      x.shared.aborted = true := by
  obtain ⟨x, hrun, hgone⟩ := Run.exists_of_executeIf (show (executeIf (Serial.fineStep .asserting) (fun x op => op.Made x.shared)
    { shared := .mounted .emptyPacked, plain := .empty } [.open ['a'] true, .write 0 [1] 0]).any (fun x => x.shared.aborted) = true
      by decide +kernel)
  exact ⟨x, hrun.map (fun op => (Env.fine, op)) (fun _ _ => rfl) (fun _ _ hmade => ⟨Env.allOk_fine, Nat.le_refl _, hmade⟩), hgone⟩

end FuseCompress
