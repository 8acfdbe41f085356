import FuseCompress.ReadOnly
import FuseCompress.Lemmas.Background
import FuseCompress.Lemmas.Unmount
import FuseCompress.Theorems.Overlay
import FuseCompress.Theorems.Status

/-!
# Writing to a deduplicated file

A file that shares its inode with others is copied when it is opened for writing, and not later. So a write leaves every other name
alone as long as the inode of a file that is open for writing, or about to be, stays its own: `do_dedup` must not link to it
(`Sys.CopiesFirst`).
-/

namespace FuseCompress

variable {Γ : Config} {env : Env} {s s' : State} {f : Nat}

/-! ## The end of `do_dedup` -/

/-- The inode of the recorded file that the end of `do_dedup` links an entry's name to. -/
def dedupTarget (env : Env) (s : State) (f : Nat) (md5 : List UInt8) : Option Nat :=
  match s.dedup.findMd5 md5 with
  | none => none
  | some dp =>
    if (s.files f).status.cancel = false ∧ (s.files f).filename ≠ dp.filename ∧ env.ok .link = true ∧ env.ok .rename = true then
      s.fs.inoOf dp.filename
    else none

theorem inoOf_createAttr_ne {o : Creator} {c : AttrCalls} {b : Backing} {fullAttr q : Filename} (st : Attr) (hq : q ≠ fullAttr) :
    (createAttr o c b fullAttr st).inoOf q = b.inoOf q := by
  unfold createAttr
  split
  · rfl
  · rename_i b' i hopen
    rw [Backing.inoOf_setAttr]
    unfold createOpen at hopen
    split at hopen
    · cases hopen
    · split at hopen
      · cases hopen
        rfl
      · cases hopen
      · cases hopen
        rw [Backing.inoOf_setName, if_neg hq, Backing.inoOf_alloc]

/-- The inode of an attribute file is the one it has had, or a new one. -/
theorem inoOf_createAttr {o : Creator} {c : AttrCalls} {b : Backing} {fullAttr q : Filename} {st : Attr} {i : Nat}
    (h : (createAttr o c b fullAttr st).inoOf q = some i) : b.inoOf q = some i ∨ q = fullAttr ∧ b.next ≤ i := by
  unfold createAttr at h
  split at h
  · exact .inl h
  · rename_i b' k hopen
    rw [Backing.inoOf_setAttr] at h
    unfold createOpen at hopen
    split at hopen
    · cases hopen
    · split at hopen
      · cases hopen
        exact .inl h
      · cases hopen
      · cases hopen
        rw [Backing.inoOf_setName, Backing.inoOf_alloc] at h
        split at h
        · rename_i e
          cases h
          exact .inr ⟨e, Nat.le_refl _⟩
        · exact .inl h

theorem inoOf_unlinkAttr {b : Backing} {full q : Filename} {i : Nat} (h : (unlinkAttr env b full).inoOf q = some i) : b.inoOf q = some i := by
  unfold unlinkAttr Backing.unlink at h
  split at h
  · split at h
    · rw [Option.getD_some, Backing.inoOf_dropName] at h
      split at h
      · cases h
      · exact h
    · exact h
  · exact h

theorem inoOf_unlinkAttr_ne {b : Backing} {full q : Filename} (hq : q ≠ fuseattrName full) : (unlinkAttr env b full).inoOf q = b.inoOf q := by
  unfold unlinkAttr Backing.unlink
  split
  · split
    · rw [Option.getD_some, Backing.inoOf_dropName, if_neg hq]
    · rfl
  · rfl

/-- What the end of `do_dedup` links to has a name. -/
theorem dedupTarget_named {md5 : List UInt8} {j : Nat} (h : dedupTarget env s f md5 = some j) : ∃ q, s.fs.inoOf q = some j := by
  unfold dedupTarget at h
  split at h
  · cases h
  · rename_i dp _
    exact ⟨dp.filename, (Option.ite_none_right_eq_some.mp h).2⟩

/-- What the end of `do_dedup` does to names and descriptors: one visible name may come to refer to another inode, and an internal one to
a new one. -/
structure Relinks (s s' : State) (p : Filename) (target : Option Nat) : Prop where
  descs : s'.descs = s.descs
  nextFile : s'.nextFile = s.nextFile
  filename : ∀ g, (s'.files g).filename = (s.files g).filename
  next : s.fs.next ≤ s'.fs.next
  sound : s.fs.Sound → s'.fs.Sound
  visible : ∀ q, isInternal q = false → s'.fs.inoOf q = s.fs.inoOf q ∨ (q = p ∧ s'.fs.inoOf q = target)
  names : ∀ q i, s'.fs.inoOf q = some i →
    s.fs.inoOf q = some i ∨ (q = p ∧ target = some i) ∨ (isInternal q = true ∧ s.fs.next ≤ i)

theorem Relinks.refl (s : State) (p : Filename) (target : Option Nat) : Relinks s s p target :=
  ⟨rfl, rfl, fun _ => rfl, Nat.le_refl _, id, fun _ _ => Or.inl rfl, fun _ _ => Or.inl⟩

/-- What is not about names comes after. -/
theorem Relinks.trans_same {s'' : State} {p : Filename} {target : Option Nat} (h : Relinks s s' p target) (hfs : s''.fs = s'.fs)
    (hdescs : s''.descs = s'.descs) (hnext : s''.nextFile = s'.nextFile)
    (hname : ∀ g, (s''.files g).filename = (s'.files g).filename) : Relinks s s'' p target := by
  refine ⟨hdescs.trans h.descs, hnext.trans h.nextFile, fun g => (hname g).trans (h.filename g), ?_, ?_, ?_, ?_⟩
  · rw [hfs]
    exact h.next
  · rw [hfs]
    exact h.sound
  · rw [hfs]
    exact h.visible
  · rw [hfs]
    exact h.names

theorem relinks_hardlinkFile {md5 : List UInt8} (hcancel : (s.files f).status.cancel = false) :
    Relinks s (hardlinkFile Γ env s md5 (s.files f).filename).1 (s.files f).filename (dedupTarget env s f md5) := by
  unfold hardlinkFile
  cases hfind : s.dedup.findMd5 md5 with
  | none => exact (Relinks.refl s _ _).trans_same rfl rfl rfl (fun _ => rfl)
  | some dp =>
    dsimp only
    split
    · exact .refl s _ _
    · rename_i hne
      split
      · exact .refl s _ _
      · rename_i j hj
        have hlink : env.ok .link = true ∧ s.fs.inoOf dp.filename = some j := by
          split at hj
          · rename_i hlink
            exact ⟨hlink, hj⟩
          · cases hj
        generalize ((s.fs.attrOf (fuseattrName (s.files f).filename)).orElse (fun _ => s.fs.attrOf (s.files f).filename)).getD
          (s.fs.inodes j).attr = src
        obtain ⟨b, hb⟩ : ∃ b : Backing, b = if src.differs (s.fs.inodes j).attr then
            createAttr Γ.creator env.attrCalls s.fs (fuseattrName (s.files f).filename) src else unlinkAttr env s.fs (s.files f).filename := ⟨_, rfl⟩
        have hleaves : s.fs.Leaves b := by
          rw [hb]
          split
          · exact leaves_createAttr _ _ _ _ _
          · exact leaves_unlinkAttr _ _
        have hsame : ∀ q, isInternal q = false → b.inoOf q = s.fs.inoOf q := by
          intro q hq
          have hattr := ne_fuseattrName hq (s.files f).filename
          rw [hb]
          split
          · exact inoOf_createAttr_ne src hattr
          · exact inoOf_unlinkAttr_ne hattr
        have hnames : ∀ q i, b.inoOf q = some i → s.fs.inoOf q = some i ∨ (isInternal q = true ∧ s.fs.next ≤ i) := by
          intro q i hi
          rw [hb] at hi
          split at hi
          · rcases inoOf_createAttr hi with hold | ⟨rfl, hnew⟩
            · exact .inl hold
            · exact .inr ⟨isInternal_fuseattrName _, hnew⟩
          · exact .inl (inoOf_unlinkAttr hi)
        simp only [State.withFs, ← hb]
        split
        · exact ⟨rfl, rfl, fun _ => rfl, hleaves.next, hleaves.sound, fun q hq => Or.inl (hsame q hq),
            fun q i hi => (hnames q i hi).imp_right Or.inr⟩
        · rename_i hrename
          rw [not_or, Bool.not_eq_false] at hrename
          have htarget : dedupTarget env s f md5 = some j := by
            unfold dedupTarget
            simp only [hfind]
            rw [if_pos ⟨hcancel, hne, hlink.1, hrename.1⟩, hlink.2]
          refine ⟨rfl, rfl, fun _ => rfl, hleaves.next, fun hs => ?_, fun q hq => ?_, fun q i hi => ?_⟩
          · exact (hleaves.sound hs).setName (Nat.lt_of_lt_of_le (hs _ _ hlink.2) hleaves.next)
          · dsimp only
            rw [Backing.inoOf_setName]
            by_cases e : q = (s.files f).filename
            · rw [if_pos e, htarget]
              exact Or.inr ⟨e, rfl⟩
            · rw [if_neg e]
              exact Or.inl (hsame q hq)
          · dsimp only at hi
            rw [Backing.inoOf_setName] at hi
            split at hi
            · rename_i e
              cases hi
              exact .inr (.inl ⟨e, htarget⟩)
            · exact (hnames q i hi).imp_right Or.inr

/-- The end of `do_dedup`. -/
theorem relinks_doDedupEnd (hash : Option (List UInt8)) :
    Relinks s (doDedupEnd Γ env s f hash) (s.files f).filename (hash.bind (dedupTarget env s f)) := by
  have hfile : ∀ {t : State} {k : FileT → FileT} {target : Option Nat}, Relinks s t (s.files f).filename target →
      (∀ x, (k x).filename = x.filename) → Relinks s (t.modFile f k) (s.files f).filename target := by
    intro t k target h hk
    refine h.trans_same rfl rfl rfl (fun g => ?_)
    rw [State.files_modFile]
    split
    · rename_i e
      rw [hk, e]
    · rfl
  unfold doDedupEnd
  cases hash with
  | none => exact hfile (.refl s _ _) (fun _ => rfl)
  | some md5 =>
    dsimp only [Option.bind_some]
    split
    · rename_i hcancel
      have hlink : Relinks s (hardlinkFile Γ env s md5 (s.files f).filename).1 (s.files f).filename (dedupTarget env s f md5) :=
        relinks_hardlinkFile hcancel
      generalize hardlinkFile Γ env s md5 (s.files f).filename = r at hlink
      obtain ⟨s₁, target⟩ := r
      dsimp only at hlink ⊢
      have hadopt : Relinks s (adoptCompressor Γ env s₁ f target) (s.files f).filename (dedupTarget env s f md5) := by
        rcases adoptCompressor_cases Γ env s₁ f target with e | ⟨t, j, -, -, e⟩
        · rw [e]
          exact hlink
        · rw [e]
          exact hfile hlink (fun _ => rfl)
      exact hfile hadopt (fun _ => rfl)
    · exact hfile (.refl s _ _) (fun _ => rfl)

/-- When nothing has the inode linked to open for writing, the descriptors for writing stay where they are. -/
theorem Relinks.homed {p : Filename} {target : Option Nat} (h : Relinks s s' p target) (hs : s.Homed (fun q => isInternal q = false))
    (hfree : ∀ j, target = some j → ∀ d fd, (s.descs d).writable = true → (s.descs d).fd = some fd → fd.ino ≠ j) :
    s'.Homed (fun q => isInternal q = false) := by
  refine ⟨h.sound hs.named, fun d fd hwr hfd => ?_, fun d hd => ?_⟩
  · rw [h.descs] at hwr hfd ⊢
    obtain ⟨h1, h2, h3⟩ := hs.descs d fd hwr hfd
    rw [h.nextFile, h.filename]
    refine ⟨Nat.lt_of_lt_of_le h1 h.next, h2, fun q hq hi => ?_⟩
    rcases h.visible q hq with hsame | ⟨-, htarget⟩
    · exact h3 q hq (hsame.symm.trans hi)
    · exact absurd rfl (hfree fd.ino (htarget.symm.trans hi) d fd hwr hfd)
  · rw [h.descs] at hd ⊢
    exact hs.writing d hd

/-- When nothing that is about to be opened for writing has the inode linked to, it keeps one name. `p` is the name that is linked, and so
not that of an entry somebody has locked. -/
theorem Relinks.sole {p full : Filename} {target : Option Nat} (h : Relinks s s' p target) (hs : s.fs.Sound)
    (hfull : full ≠ p) (htarget : ∀ j, target = some j → (∃ q, s.fs.inoOf q = some j) ∧ s.fs.inoOf full ≠ some j)
    (hsole : s.fs.Sole (fun q => isInternal q = false) full) : s'.fs.Sole (fun q => isInternal q = false) full := by
  intro i hi q hq hqi
  rcases h.names full i hi with hold | ⟨hp, -⟩ | ⟨-, hnew⟩
  · rcases h.names q i hqi with hqold | ⟨-, hj⟩ | ⟨hinternal, -⟩
    · exact hsole i hold q hq hqold
    · exact absurd hold (htarget i hj).2
    · rw [hq] at hinternal
      cases hinternal
  · exact absurd hp hfull
  · rcases h.names q i hqi with hqold | ⟨-, hj⟩ | ⟨hinternal, -⟩
    · exact absurd (hs q i hqold) (Nat.not_lt.mpr hnew)
    · obtain ⟨r, hr⟩ := (htarget i hj).1
      exact absurd (hs r i hr) (Nat.not_lt.mpr hnew)
    · rw [hq] at hinternal
      cases hinternal

/-! ## Opening for writing -/

/-- `do_undedup` leaves the file with one name, unless the link count cannot be read. -/
theorem doUndedup_sole {i : Nat} (hs : s.fs.Sound) (h : doUndedup Γ env s f = (s', true))
    (hlstat : ∀ j, s.fs.inoOf (s.files f).filename = some j → 2 ≤ s.fs.nlink j → env.ok .lstat = true)
    (hi : s'.fs.inoOf (s.files f).filename = some i) {p : Filename} (hp : s'.fs.inoOf p = some i) : p = (s.files f).filename := by
  unfold doUndedup at h
  dsimp only at h
  split at h
  · rename_i hnone
    cases h
    refine Backing.eq_of_nlink_lt_two (Nat.lt_of_not_le fun hle => ?_) hp hi
    rw [if_pos (hlstat i hi hle), hi] at hnone
    cases hnone
  · rename_i j hj
    have hino : s.fs.inoOf (s.files f).filename = some j := by
      split at hj
      · exact hj
      · cases hj
    split at h
    · rename_i hfew
      cases h
      rw [hino] at hi
      cases hi
      exact Backing.eq_of_nlink_lt_two hfew hp hino
    · split at h
      · cases h
      · split at h
        · cases h
        · have hfs : (dedupDiscard s f).fs = s.fs := (calm_dedupDiscard (w := none) s f).fs
          generalize (if env.ok .lstatAttr then s.fs.attrOf (fuseattrName (s.files f).filename) else none).getD
            (s.fs.inodes j).attr = st at h
          generalize dedupDiscard s f = s₁ at h hfs
          split at h
          · cases h
          · split at h
            · cases h
            · split at h
              · cases h
              · split at h
                · cases h
                · cases h
                  -- the copy is a new inode
                  have hold : ∀ q k, s₁.fs.inoOf q = some k → k ≠ s₁.fs.next := by
                    intro q k hk
                    rw [hfs] at hk ⊢
                    exact Nat.ne_of_lt (hs q k hk)
                  have hcases : ∀ q k, ((((s₁.fs.alloc (s₁.fs.inodes j).data (copyOwnerMode env st (tempAttr Γ s₁.fs))).dropName
                      (s.files f).filename).setName (s.files f).filename s₁.fs.next).utime s₁.fs.next st).inoOf q = some k →
                      (q = (s.files f).filename ∧ k = s₁.fs.next) ∨ (q ≠ (s.files f).filename ∧ k ≠ s₁.fs.next) := by
                    intro q k hk
                    rw [Backing.utime, Backing.inoOf_setAttr, Backing.inoOf_setName] at hk
                    by_cases e : q = (s.files f).filename
                    · rw [if_pos e] at hk
                      exact Or.inl ⟨e, (Option.some.inj hk).symm⟩
                    · rw [if_neg e, Backing.inoOf_dropName, if_neg e] at hk
                      exact Or.inr ⟨e, hold q k hk⟩
                  rcases hcases _ _ (inoOf_unlinkAttr hi) with ⟨-, hnew⟩ | ⟨hne, -⟩
                  · rcases hcases _ _ (inoOf_unlinkAttr hp) with ⟨hname, -⟩ | ⟨-, hother⟩
                    · exact hname
                    · exact absurd hnew hother
                  · exact absurd rfl hne

theorem opens_of_lstat {vis : Filename → Prop} {b : Backing} {full : Filename} (hd : Γ.dedupEnabled = true) (hb : b.Sound)
    (hlstat : ∀ i, b.inoOf full = some i → 2 ≤ b.nlink i → env.ok .lstat = true) : Opens Γ env vis b full := by
  intro s f hfs hname s₁ hs₁ i hi p _ hp
  unfold openUndedup at hs₁
  rw [if_pos ⟨hd, rfl⟩] at hs₁
  rw [← hname] at hi ⊢
  refine doUndedup_sole ?_ hs₁ (fun j hj => ?_) hi hp
  · rw [hfs]
    exact hb
  · rw [hfs] at hj ⊢
    exact hlstat j (hname ▸ hj)

/-! ## The system -/

/-- `pwrite` leaves all inodes but the one it writes to alone. -/
theorem pwriteFd_keeps {fd : Option Fd} {buf : Bytes} {offset i : Nat} {ok : Bool} {b : Filename}
    (h : pwriteFd env s fd buf offset = (s', ok)) (hi : s.fs.inoOf b = some i) (hfd : ∀ fd', fd = some fd' → fd'.ino ≠ i) :
    s'.fs.inoOf b = some i ∧ s'.data i = s.data i := by
  unfold pwriteFd at h
  split at h
  · cases h
    exact ⟨hi, rfl⟩
  · rename_i fd' hopen
    have hother : i ≠ fd'.ino := by
      split at hopen
      · exact Ne.symm (hfd fd' hopen)
      · cases hopen
    split at h
    · cases h
      exact ⟨hi, rfl⟩
    · cases h
      exact ⟨hi, (Backing.data_setData _ _ _ _).trans (if_neg hother)⟩

/-- The entry that a thread is writing to. -/
def Pc.writesTo : Pc → Option Nat
  | .fetched _ (.write _ _) f => some f
  | .pwriting _ f _ _ _ => some f
  | .pwrote _ f _ => some f
  | _ => none

section System

variable {T : Type} [Fintype T] [DecidableEq T] {sys sys' : Sys T} {l : Label T}

/-- The condition on a step. A file that shares its inode and is opened for writing can be asked for its link count, so that it is
copied; and `do_dedup` does not link a file to one that is open for writing, that a write is under way to, or that `open` is about to
open for writing, after `do_undedup` has looked at its links. -/
structure Sys.CopiesFirst (sys : Sys T) (l : Label T) : Prop where
  opened : ∀ t env full i, l = .client t env → (sys.clients t).opensWriting = some full → sys.shared.fs.inoOf full = some i →
    2 ≤ sys.shared.fs.nlink i → env.ok .lstat = true
  linked : ∀ env f md5 j, l = .worker env → sys.worker = .hashing f (.finished (some md5)) → dedupTarget env sys.shared f md5 = some j →
    (∀ d fd, (sys.shared.descs d).writable = true → (sys.shared.descs d).fd = some fd → fd.ino ≠ j) ∧
      (∀ t d f fd buf offset, sys.clients t = .pwriting d f (some fd) buf offset → fd.ino ≠ j) ∧
      ∀ t full f, sys.clients t = .undeduped full f → sys.shared.fs.inoOf full ≠ some j

omit [DecidableEq T] in
theorem Sys.orderly_remounted {vis : Filename → Prop} {fs : Backing} (h : fs.Sound) (dedup : DedupHash) (redup : Bool) :
    (Sys.remounted fs dedup redup : Sys T).Orderly vis := by
  have hmounted : (Sys.mounted fs : Sys T).Orderly vis := Sys.orderly_mounted h
  obtain ⟨⟨hcounted, hlocked, hfiled⟩, hunique, hlocking, hhomed⟩ := hmounted
  exact ⟨⟨⟨hcounted.balanced, hcounted.known, hcounted.listed_lt, hcounted.desc, hcounted.excl⟩, hlocked, hfiled⟩, hunique,
    ⟨hlocking.kept, hlocking.sole, hlocking.held⟩,
    ⟨⟨hhomed.shared.named, hhomed.shared.descs, hhomed.shared.writing⟩, hhomed.plain, hhomed.pwrites, hhomed.undeduped, hhomed.requests⟩⟩

omit [DecidableEq T] in
/-- The name that `open` has locked is not that of the file the background thread has locked. -/
theorem Sys.Orderly.undeduped_ne {t : T} {full : Filename} {g : Nat} (h : sys.Orderly (fun q => isInternal q = false))
    (ht : sys.clients t = .undeduped full g) (hlock : sys.shared.lockable f = true) (hf : f ∈ sys.shared.database) :
    full ≠ (sys.shared.files f).filename := by
  obtain ⟨hlt, hname⟩ := (h.knows t).undeduped full g ht
  obtain ⟨hfreed, hlocked⟩ := h.locking.kept t g (by rw [ht]; rfl)
  have hg : g ∈ sys.shared.database := by
    rcases h.unique.complete g hlt with hm | hgone
    · exact hm
    · exact absurd (hfreed.symm.trans hgone) Bool.false_ne_true
  intro e
  obtain rfl : g = f := h.unique.names g hg f hf (hname.trans e)
  exact Bool.false_ne_true ((lockable_books _ hlock).2.symm.trans hlocked)

/-- The end of `do_dedup` keeps the order. -/
theorem Sys.Orderly.dedupEnd {hash : Option (List UInt8)} (h : sys.Orderly (fun q => isInternal q = false)) (hok : sys.Promised (.worker env))
    (hcopies : sys.CopiesFirst (.worker env)) (hw : sys.worker = .hashing f (.finished hash))
    (hs : sys.step Γ (.worker env) = some sys') : sys'.Orderly (fun q => isInternal q = false) := by
  obtain ⟨hforce, hmove⟩ := h.homed.promises Γ (.worker env)
  have hfiled := h.filed.step ⟨hok, hmove⟩ hs
  refine ⟨hfiled, h.filed.step_unique h.unique hforce hs, h.filed.step_locking h.locking hs, ?_⟩
  have hlisted : f ∈ sys.shared.database := by
    refine h.filed.listed h.unique ?_
    have hcount := h.filed.counted.balanced.accesses f
    have hrefs : sys.worker.refs f = 1 := by rw [hw, WorkerPc.refs, if_pos rfl]
    unfold Sys.refs at hcount
    change sys.shared.books.accesses f ≠ 0
    omega
  rw [Sys.step] at hs
  split at hs
  · cases hs
  · rw [hw, workerStep] at hs
    split at hs
    · rename_i hlock
      cases hs
      have hrelinks : Relinks sys.shared (compFinish Γ (doDedupEnd Γ env sys.shared f hash) f true)
          (sys.shared.files f).filename (hash.bind (dedupTarget env sys.shared f)) := by
        refine (relinks_doDedupEnd (Γ := Γ) hash).trans_same rfl rfl rfl (fun g => ?_)
        unfold compFinish
        rw [if_pos rfl, State.files_modFile]
        split
        · rename_i e
          rw [e]
        · rfl
      have hfree : ∀ j, hash.bind (dedupTarget env sys.shared f) = some j →
          (∃ q, sys.shared.fs.inoOf q = some j) ∧
            (∀ d fd, (sys.shared.descs d).writable = true → (sys.shared.descs d).fd = some fd → fd.ino ≠ j) ∧
            (∀ t d f fd buf offset, sys.clients t = .pwriting d f (some fd) buf offset → fd.ino ≠ j) ∧
            ∀ t full f, sys.clients t = .undeduped full f → sys.shared.fs.inoOf full ≠ some j := by
        intro j hj
        obtain ⟨md5, rfl, htarget⟩ := Option.bind_eq_some_iff.mp hj
        exact ⟨dedupTarget_named htarget, hcopies.linked env f md5 j rfl hw htarget⟩
      refine ⟨hrelinks.homed h.homed.shared (fun j hj => (hfree j hj).2.1), h.homed.plain, fun t d g fd buf offset hpc => ?_,
        fun t full g hpc => ?_, fun t d buf offset g hpc => ?_⟩
      · obtain ⟨hlt, honly⟩ := h.homed.pwrites t d g fd buf offset hpc
        dsimp only
        rw [hrelinks.filename g]
        refine ⟨Nat.lt_of_lt_of_le hlt hrelinks.next, fun q hq hi => ?_⟩
        rcases hrelinks.visible q hq with hsame | ⟨-, htarget⟩
        · exact honly q hq (hsame.symm.trans hi)
        · exact absurd rfl ((hfree fd.ino (htarget.symm.trans hi)).2.2.1 t d g fd buf offset hpc)
      · exact hrelinks.sole h.homed.shared.named (h.undeduped_ne hpc hlock hlisted)
          (fun j hj => ⟨(hfree j hj).1, (hfree j hj).2.2.2 t full g hpc⟩) (h.homed.undeduped t full g hpc)
      · dsimp only
        rw [hrelinks.descs]
        exact h.homed.requests t d buf offset g hpc
    · cases hs

/-- Every step keeps the order. -/
theorem Sys.Orderly.step_copies (h : sys.Orderly (fun q => isInternal q = false)) (hd : Γ.dedupEnabled = true)
    (hok : sys.Promised l ∧ l.plain = true ∧ sys.CopiesFirst l) (hs : sys.step Γ l = some sys') :
    sys'.Orderly (fun q => isInternal q = false) := by
  obtain ⟨hpromised, hplain, hcopies⟩ := hok
  have hother : (∀ env f hash, l = .worker env → sys.worker ≠ .hashing f (.finished hash)) →
      sys'.Orderly (fun q => isInternal q = false) := by
    intro hnot
    refine h.step hpromised hplain (fun _ p hp => ?_) (fun t env hl full hfull => ?_) hnot hs
    · rw [isInternal_fuseattrName] at hp
      cases hp
    · exact opens_of_lstat hd h.homed.shared.named (fun i hi hle => hcopies.opened t env full i hl hfull hi hle)
  cases l with
  | worker env =>
    cases hw : sys.worker with
    | hashing f pc =>
      cases pc with
      | finished hash => exact h.dedupEnd hpromised hcopies hw hs
      | _ => exact hother (fun _ _ _ _ e => by rw [hw] at e; cases e)
    | _ => exact hother (fun _ _ _ _ e => by rw [hw] at e; cases e)
  | _ => exact hother (fun _ _ _ e => by cases e)

omit [DecidableEq T] in
/-- What a thread that writes does to the backing directory leaves the other names alone. -/
theorem Sys.Orderly.writes {t : T} {pc : Pc} {f i : Nat} {b : Filename} (h : sys.Orderly (fun q => isInternal q = false))
    (hw : (sys.clients t).writesTo = some f) (hb : isInternal b = false) (hne : b ≠ (sys.shared.files f).filename)
    (hi : sys.shared.fs.inoOf b = some i) {free : Bool} (hs : clientStep Γ env free sys.shared (sys.clients t) = some (s', pc)) :
    s'.fs.inoOf b = some i ∧ s'.data i = sys.shared.data i := by
  cases hpc : sys.clients t with
  | fetched d op g =>
    rw [hpc] at hw hs
    cases op with
    | write buf offset =>
      cases hw
      rw [clientStep] at hs
      split at hs
      · obtain ⟨hlt, -⟩ := h.filed.counted.desc_lt (t := t) (by rw [hpc]; rfl)
        have hwr : ∀ d', some d = some d' → (sys.shared.descs d').writable = true := by
          intro d' e
          cases e
          exact h.homed.requests t d buf offset f hpc
        have hfile := ((h.knows t).desc d f (by rw [hpc]; rfl)).2.1
        have he : Effects (fun q => isInternal q = false) f (some d) sys.shared.fs.next sys.shared
            (writeLocked Γ env sys.shared f d buf offset).1 :=
          effects_writeLocked Γ env sys.shared buf offset ((h.knows t).heads f) hfile (Nat.le_refl _)
        have hafter := he.elsewhere h.homed.shared (h.homed.shared.fresh hlt hwr) hb
          ⟨hne, hi, h.homed.shared.named b i hi, rfl, fun e => by cases e⟩
        have hsame : s'.fs = (writeLocked Γ env sys.shared f d buf offset).1.fs := by
          unfold descLocked at hs
          dsimp only at hs
          generalize writeLocked Γ env sys.shared f d buf offset = r at hs ⊢
          obtain ⟨s₁, next⟩ := r
          cases next with
          | done res =>
            dsimp only at hs
            split at hs
            · cases hs
              rfl
            · cases hs
              rfl
          | pwrite fd =>
            cases hs
            rfl
        unfold State.data
        rw [hsame]
        exact ⟨hafter.ino, hafter.data⟩
      · cases hs
    | read => cases hw
    | release => cases hw
  | pwriting d g fd buf offset =>
    rw [hpc] at hw hs
    cases hw
    have hkept : ∀ {t : State} {ok : Bool}, pwriteFd env sys.shared fd buf offset = (t, ok) →
        t.fs.inoOf b = some i ∧ t.data i = sys.shared.data i := by
      intro t ok hwrite
      refine pwriteFd_keeps hwrite hi (fun fd' hfd e => ?_)
      subst hfd
      exact hne ((h.homed.pwrites _ d f fd' buf offset hpc).names b hb (e ▸ hi))
    rw [clientStep] at hs
    split at hs
    · rename_i hwrite
      cases hs
      exact hkept hwrite
    · rename_i hwrite
      cases hs
      exact hkept hwrite
  | pwrote d g res =>
    rw [hpc] at hs
    cases res with
    | some len =>
      rw [clientStep] at hs
      split at hs
      · cases hs
        exact ⟨hi, rfl⟩
      · cases hs
    | none =>
      rw [clientStep] at hs
      split at hs
      · cases hs
        exact ⟨hi, rfl⟩
      · cases hs
  | _ =>
    rw [hpc] at hw
    cases hw

end System

/-! ## A file that is open for writing -/

/-- Two equal files of one byte. -/
def Backing.twoEqual : Backing where
  names := [(['a'], .reg 0), (['b'], .reg 1)]
  inodes := fun _ => ⟨[1], { mode := 0o100644, uid := 0, gid := 0, atime := 0, mtime := 0 }⟩
  next := 2
  clock := 0
  fsetid := false

theorem Backing.sound_twoEqual : Backing.twoEqual.Sound := by
  intro p i hi
  rw [Backing.inoOf_eq_some] at hi
  simp only [Backing.find, Backing.twoEqual, Assoc.find_cons] at hi
  split at hi
  · cases hi
    decide
  · split at hi
    · cases hi
      decide
    · cases hi

/-- Both files are looked at and queued, the first one is recorded and then opened for writing, and the second one is linked to it.
Then a client is about to write to the first one. -/
def linkUnderWriter (t : Fin 1) : List (Label (Fin 1)) :=
  [.request t (.getattr ['a']), .client t .fine, .client t .fine, .request t (.getattr ['b']), .client t .fine, .client t .fine,
    .request t .purge, .client t .fine, .client t .fine, .client t .fine, .client t .fine] ++ List.replicate 6 (.worker .fine) ++
  [.request t (.open ['a'] true), .client t .fine, .client t .fine] ++ List.replicate 6 (.worker .fine) ++
  [.request t (.desc 0 (.write [2] 0)), .client t .fine]

/-- A step that is not the background thread's, and in which `lstat` succeeds. -/
def Label.lstats (l : Label (Fin 1)) : Bool :=
  match l with
  | .client _ env => env.ok .lstat
  | .worker _ => false
  | _ => true

theorem Sys.copiesFirst_of_lstats (sys : Sys (Fin 1)) {l : Label (Fin 1)} (h : l.lstats = true) : sys.CopiesFirst l where
  opened t env full i hl _ _ _ := by
    subst hl
    exact h
  linked env f md5 j hl := by
    subst hl
    cases h

/-- One file with two names. -/
def Backing.oneShared : Backing where
  names := [(['a'], .reg 0), (['b'], .reg 0)]
  inodes := fun _ => ⟨[1], { mode := 0o100644, uid := 0, gid := 0, atime := 0, mtime := 0 }⟩
  next := 1
  clock := 0
  fsetid := false

theorem Backing.sound_oneShared : Backing.oneShared.Sound := by
  intro p i hi
  rw [Backing.inoOf_eq_some] at hi
  simp only [Backing.find, Backing.oneShared, Assoc.find_cons] at hi
  split at hi
  · cases hi
    decide
  · split at hi
    · cases hi
      decide
    · cases hi

/-- One of two names of a file is opened for writing and written to. -/
def openWrite (t : Fin 1) : List (Label (Fin 1)) :=
  [.request t (.open ['a'] true), .client t .fine, .client t .fine, .request t (.desc 0 (.write [2] 0)), .client t .fine]

end FuseCompress
