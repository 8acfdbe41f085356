import FuseCompress.Lemmas.Remounts
import FuseCompress.Theorems.Database

/-!
# The mount is a plain file system to its clients

Whatever the order of the operations, of the turns of the background thread, of the purges and of the unmounts, every request is
answered as the plain file system answers it, and a file that is not open has its content on the disk.
-/

namespace FuseCompress

variable {Γ : Config} {env : Env} {q : PlainFs Filename} {x y : Serial} {op : Op}

/-! ## The plain file system stays sound -/

namespace PlainFs.Sound

theorem setContent (h : q.Sound) {k : Nat} {b : Bytes} (hb : b.length < 2 ^ 63) : (q.setContent k b).Sound := by
  refine ⟨h.own, h.old, fun k' => ?_⟩
  by_cases e : k' = k
  · subst e
    rw [show (q.setContent k' b).content k' = b from Function.update_self ..]
    exact hb
  · rw [show (q.setContent k b).content k' = q.content k' from Function.update_of_ne e _ _]
    exact h.text k'

theorem openFile (h : q.Sound) (p : Filename) : (q.openFile p).Sound := by
  unfold PlainFs.openFile
  split
  · exact h
  · exact ⟨h.own, h.old, h.text⟩

theorem write (h : q.Sound) (d : Nat) {buf : Bytes} {offset : Nat} (hlen : offset + buf.length < 2 ^ 63) : (q.write d buf offset).Sound := by
  refine h.setContent ?_
  have := h.text (q.target d)
  rw [Bytes.length_overwrite]
  split
  · exact this
  · omega

theorem truncate (h : q.Sound) (p : Filename) {size : Nat} (hsize : size < 2 ^ 63) : (q.truncate p size).Sound := by
  unfold PlainFs.truncate
  split
  · exact h
  · refine h.setContent ?_
    rw [Bytes.length_resize]
    exact hsize

theorem create (h : q.Sound) (p : Filename) : (q.create p).Sound := by
  cases hp : q.file p with
  | some k =>
    unfold PlainFs.create
    rw [hp]
    exact h
  | none =>
    obtain ⟨hfile, hcontent, hnext, -, -⟩ := PlainFs.create_of_none hp
    have hnew : ∀ p' k, (q.create p).file p' = some k → p' = p ∧ k = q.nextFile ∨ p' ≠ p ∧ q.file p' = some k := by
      intro p' k hk
      rw [hfile] at hk
      by_cases e : p' = p
      · subst e
        rw [Function.update_self] at hk
        exact Or.inl ⟨rfl, (Option.some.inj hk).symm⟩
      · rw [Function.update_of_ne e] at hk
        exact Or.inr ⟨e, hk⟩
    refine ⟨fun p₁ p₂ k h₁ h₂ => ?_, fun p' k hk => ?_, fun k => ?_⟩
    · rcases hnew p₁ k h₁ with ⟨rfl, rfl⟩ | ⟨-, hold₁⟩
      · rcases hnew p₂ _ h₂ with ⟨rfl, -⟩ | ⟨-, hold₂⟩
        · rfl
        · exact absurd (h.old _ _ hold₂) (Nat.lt_irrefl _)
      · rcases hnew p₂ k h₂ with ⟨rfl, rfl⟩ | ⟨-, hold₂⟩
        · exact absurd (h.old _ _ hold₁) (Nat.lt_irrefl _)
        · exact h.own p₁ p₂ k hold₁ hold₂
    · rw [hnext]
      rcases hnew p' k hk with ⟨-, rfl⟩ | ⟨-, hk⟩
      · exact Nat.lt_succ_self _
      · exact Nat.lt_succ_of_lt (h.old p' k hk)
    · rw [hcontent]
      by_cases e : k = q.nextFile
      · subst e
        rw [Function.update_self]
        decide
      · rw [Function.update_of_ne e]
        exact h.text k

theorem unlink (h : q.Sound) (p : Filename) : (q.unlink p).Sound := by
  have hsub : ∀ p' k, (q.unlink p).file p' = some k → q.file p' = some k := by
    intro p' k hk
    by_cases e : p' = p
    · subst e
      rw [show (q.unlink p').file p' = none from Function.update_self ..] at hk
      cases hk
    · rwa [show (q.unlink p).file p' = q.file p' from Function.update_of_ne e _ _] at hk
  exact ⟨fun p₁ p₂ k h₁ h₂ => h.own p₁ p₂ k (hsub _ _ h₁) (hsub _ _ h₂), fun p' k hk => h.old p' k (hsub _ _ hk), h.text⟩

theorem rename (h : q.Sound) (src dst : Filename) : (q.rename src dst).Sound := by
  cases hsrc : q.file src with
  | none =>
    unfold PlainFs.rename
    rw [hsrc]
    exact h
  | some k =>
    have hmoved : ∀ p' k', (q.rename src dst).file p' = some k' → p' = dst ∧ k' = k ∨ p' ≠ src ∧ q.file p' = some k' := by
      intro p' k' hk'
      unfold PlainFs.rename at hk'
      rw [hsrc] at hk'
      dsimp only at hk'
      by_cases edst : p' = dst
      · subst edst
        rw [Function.update_self] at hk'
        exact Or.inl ⟨rfl, (Option.some.inj hk').symm⟩
      · rw [Function.update_of_ne edst] at hk'
        by_cases esrc : p' = src
        · subst esrc
          rw [Function.update_self] at hk'
          cases hk'
        · rw [Function.update_of_ne esrc] at hk'
          exact Or.inr ⟨esrc, hk'⟩
    have hrest : (q.rename src dst).content = q.content ∧ (q.rename src dst).nextFile = q.nextFile := by
      unfold PlainFs.rename
      rw [hsrc]
      exact ⟨rfl, rfl⟩
    refine ⟨fun p₁ p₂ k' h₁ h₂ => ?_, fun p' k' hk' => ?_, fun k' => ?_⟩
    · rcases hmoved p₁ k' h₁ with ⟨rfl, rfl⟩ | ⟨hne₁, hold₁⟩
      · rcases hmoved p₂ _ h₂ with ⟨rfl, -⟩ | ⟨hne₂, hold₂⟩
        · rfl
        · exact absurd (h.own _ _ _ hold₂ hsrc) hne₂
      · rcases hmoved p₂ k' h₂ with ⟨rfl, rfl⟩ | ⟨-, hold₂⟩
        · exact absurd (h.own _ _ _ hold₁ hsrc) hne₁
        · exact h.own p₁ p₂ k' hold₁ hold₂
    · rw [hrest.2]
      rcases hmoved p' k' hk' with ⟨-, rfl⟩ | ⟨-, hk'⟩
      · exact h.old src _ hsrc
      · exact h.old p' k' hk'
    · rw [hrest.1]
      exact h.text k'

end PlainFs.Sound

/-- The operations that are made keep the plain file system sound. -/
theorem Op.plain_sound {s : State} (hmade : op.Made s) (h : q.Sound) : (op.plain q).Sound := by
  cases op with
  | mknod full mode uid gid =>
    unfold Op.plain
    dsimp only
    split
    · exact h.create full
    · exact h
  | unlink full => exact h.unlink full
  | rename src dst =>
    unfold Op.plain
    dsimp only
    split
    · exact h.rename src dst
    · exact h
  | truncate full size => exact h.truncate full hmade.2
  | «open» full writable => exact h.openFile full
  | write d buf offset => exact h.write d hmade.2.2.2
  | remount rounds => exact ⟨h.own, h.old, h.text⟩
  | getattr full => exact h
  | read d size offset => exact h
  | release d => exact h
  | purge => exact h
  | compress => exact h
  | tick => exact h

/-! ## A step -/

/-- The mount and the plain file system agree. -/
structure Serial.Faithful (Γ : Config) (x : Serial) : Prop where
  ready : x.shared.Ready (fun _ => 0)
  mirrors : x.shared.Mirrors Γ x.plain
  sound : x.plain.Sound
  unmarked : x.plain.Unmarked

/-- Time passes. -/
theorem State.Mirrors.tick {s : State} (hm : s.Mirrors Γ q) (h : s.Ready (fun _ => 0)) (n : Nat) :
    (s.withFs (fun b => { b with clock := n })).Ready (fun _ => 0) ∧ (s.withFs (fun b => { b with clock := n })).Mirrors Γ q := by
  refine ⟨⟨h.tidy, ⟨h.homed.named, h.homed.descs, h.homed.writing⟩, h.single, h.flat, h.uncached, h.dead⟩,
    ⟨hm.nextDesc, hm.absent, fun p k hk => ?_, hm.target⟩⟩
  obtain ⟨i, hshow⟩ := hm.shown p k hk
  refine ⟨i, hshow.ino, fun f hf hname => ?_, hshow.free⟩
  refine (hshow.entry f hf hname).carry (.refl _) (fun _ _ => .refl _) ?_ rfl
  have hpath : (s.files f).filename = p := hname
  change s.fs.inoOf (s.files f).filename = some i
  rw [hpath]
  exact hshow.ino

section Steps

variable (hdedup : Γ.dedupEnabled = false) (hcaching : Γ.cacheDecompressedData = false) (hexact : ∀ m, (Γ.codec m).Exact)
  (hdefault : Γ.compressorDefault.Available Γ)

include hdedup hcaching hexact hdefault

/-- An operation on the mount beside the same operation on the plain file system, and what the client sees of both. -/
theorem perform_mirrors {s : State} (he : env.AllOk) (ha : env.Ample) (h : s.Ready (fun _ => 0)) (hm : s.Mirrors Γ q) (hq : q.Sound)
    (hu : q.Unmarked) (hmade : op.Made s) (hguard : op.startsOver s = false) :
    (op.perform Γ env s).1.Ready (fun _ => 0) ∧ (op.perform Γ env s).1.Mirrors Γ (op.plain q) ∧
      ∀ e ∈ op.expected q, (op.perform Γ env s).2.seen = e := by
  cases op with
  | getattr full =>
    cases hmagic : isMagicFile full with
    | true =>
      have hget : fusecompressGetattr Γ env s full = getattrMagic s full := by
        unfold fusecompressGetattr
        rw [if_pos hmagic]
      unfold Op.perform Op.plain Op.expected
      dsimp only
      rw [hget, if_pos hmagic]
      obtain ⟨hready, hmirrors⟩ := getattrMagic_mirrors h hm full
      exact ⟨hready, hmirrors, fun _ he' => (nomatch he')⟩
    | false =>
      obtain ⟨s', r, hget, hready, hmirrors, hnone, hsome⟩ := fusecompressGetattr_mirrors he hdedup h hm hq hu hmagic hmade
      unfold Op.perform Op.plain Op.expected
      dsimp only
      rw [hget, hmagic, if_neg Bool.false_ne_true]
      refine ⟨hready, hmirrors, fun e he' => ?_⟩
      cases hk : q.file full with
      | none =>
        rw [hk] at he'
        cases he'
        rw [hnone hk]
        rfl
      | some k =>
        rw [hk] at he'
        cases he'
        exact hsome k hk
  | mknod full mode uid gid =>
    obtain ⟨s', hrun, hready, hmirrors⟩ := fusecompressMknod_mirrors he hdedup h hm hq full mode uid gid
    unfold Op.perform Op.plain Op.expected
    dsimp only
    rw [hrun]
    refine ⟨hready, hmirrors, fun e he' => ?_⟩
    cases he'
    dsimp only
    split <;> rfl
  | unlink full =>
    obtain ⟨s', hrun, hready, hmirrors⟩ := fusecompressUnlink_mirrors he hdedup h hm hmade
    unfold Op.perform Op.plain Op.expected
    dsimp only
    rw [hrun]
    refine ⟨hready, hmirrors, fun e he' => ?_⟩
    cases he'
    dsimp only
    split <;> rfl
  | rename src dst =>
    obtain ⟨s', hrun, hready, hmirrors⟩ := fusecompressRename_mirrors he hdedup h hm hmade.1 hmade.2
    unfold Op.perform Op.plain Op.expected
    dsimp only
    rw [hrun]
    refine ⟨hready, hmirrors, fun e he' => ?_⟩
    cases he'
    dsimp only
    split <;> rfl
  | truncate full size =>
    obtain ⟨s', hrun, hready, hmirrors⟩ := fusecompressTruncate_mirrors he ha hdedup hexact h hm hq hmade.1 size
    unfold Op.perform Op.plain Op.expected
    dsimp only
    rw [hrun]
    refine ⟨hready, hmirrors, fun e he' => ?_⟩
    cases he'
    have hsome : (q.file full).isSome = true := by
      obtain ⟨d, -, hlive, rfl⟩ := hmade.1
      obtain ⟨-, -, hk, -⟩ := hm.live h hlive
      rw [hk]
      rfl
    rw [if_pos hsome]
    rfl
  | «open» full writable =>
    obtain ⟨s', hrun, hready, hmirrors⟩ := fusecompressOpen_mirrors he hdedup h hm hq hu full writable
    unfold Op.perform Op.plain Op.expected
    dsimp only
    rw [hrun]
    refine ⟨hready, hmirrors, fun e he' => ?_⟩
    cases he'
    dsimp only
    split <;> rfl
  | read d size offset =>
    obtain ⟨s', hrun, hready, hmirrors⟩ := fusecompressRead_mirrors he ha hcaching hexact h hm hq hmade size offset
    unfold Op.perform Op.plain Op.expected
    dsimp only
    rw [hrun]
    refine ⟨hready, hmirrors, fun e he' => ?_⟩
    cases he'
    have hres : ¬((q.read d size offset).length : Int) = -1 := by omega
    dsimp only
    rw [if_neg hres]
    rfl
  | write d buf offset =>
    obtain ⟨s', hrun, hready, hmirrors⟩ :=
      fusecompressWrite_mirrors he ha hdedup hexact hdefault h hm hq hmade.1 hmade.2.1 hmade.2.2.1 hguard
    unfold Op.perform Op.plain Op.expected
    dsimp only
    rw [hrun]
    refine ⟨hready, hmirrors, fun e he' => ?_⟩
    cases he'
    rfl
  | release d =>
    obtain ⟨hready, hmirrors⟩ := fusecompressRelease_mirrors he hexact h hm hq hu hmade
    refine ⟨hready, hmirrors, fun e he' => ?_⟩
    cases he'
    rfl
  | purge =>
    have hunseen := directOpenPurge_unseen hm h hdedup env
    exact ⟨hunseen.ready, hunseen.mirrors, fun _ he' => (nomatch he')⟩
  | compress =>
    obtain ⟨hready, hmirrors⟩ := threadCompress_mirrors he hdedup hexact hdefault h hm hq
    exact ⟨hready, hmirrors, fun _ he' => (nomatch he')⟩
  | tick =>
    obtain ⟨hready, hmirrors⟩ := hm.tick h (s.fs.clock + 1)
    exact ⟨hready, hmirrors, fun _ he' => (nomatch he')⟩
  | remount rounds =>
    obtain ⟨hready, hmirrors⟩ := remounted_mirrors hdedup hexact hdefault hq he h hm hmade rounds
    exact ⟨hready, hmirrors, fun _ he' => (nomatch he')⟩

/-- An allowed step keeps the agreement. -/
theorem Serial.Faithful.step {a : Env × Op} (h : x.Faithful Γ) (ha : x.Allowed a) (hstep : x.step Γ a = some y) : y.Faithful Γ := by
  obtain ⟨hok, hample, hmade, hguard, hunmarked⟩ := ha
  obtain ⟨hready, hmirrors, -⟩ :=
    perform_mirrors hdedup hcaching hexact hdefault hok hample h.ready h.mirrors h.sound h.unmarked hmade hguard
  unfold Serial.step at hstep
  split at hstep
  · cases hstep
  · cases hstep
    exact ⟨hready, hmirrors, Op.plain_sound hmade h.sound, hunmarked⟩

/-- In every run the mount and the plain file system agree. -/
theorem Serial.Faithful.run {as : List (Env × Op)} (h : x.Faithful Γ) (hrun : Run (Serial.step Γ) Serial.Allowed x as y) : y.Faithful Γ :=
  hrun.invariant (fun _ _ _ hx ha hstep => hx.step hdedup hcaching hexact hdefault ha hstep) h

omit hdedup hcaching hexact hdefault in
theorem Serial.faithful_mounted {b : Backing} (h : b.Shows Γ q) (hnext : q.nextDesc = 0) (hq : q.Sound) (hu : q.Unmarked) :
    (Serial.mounted b q).Faithful Γ := by
  obtain ⟨hready, hmirrors⟩ := h.mounted hnext
  exact ⟨hready, hmirrors, hq, hu⟩

/-! ## The runs -/

/-- Every request is answered as the plain file system answers it, in every run. -/
theorem replies_as_plain {b : Backing} {as : List (Env × Op)} {a : Env × Op} (hb : b.Shows Γ q) (hnext : q.nextDesc = 0) (hq : q.Sound)
    (hu : q.Unmarked) (hrun : Run (Serial.step Γ) Serial.Allowed (Serial.mounted b q) as x) (ha : x.Allowed a) :
    ∀ e ∈ a.2.expected x.plain, (a.2.perform Γ a.1 x.shared).2.seen = e := by
  have hx : x.Faithful Γ := (Serial.faithful_mounted hb hnext hq hu).run hdedup hcaching hexact hdefault hrun
  obtain ⟨hok, hample, hmade, hguard, -⟩ := ha
  exact (perform_mirrors hdedup hcaching hexact hdefault hok hample hx.ready hx.mirrors hx.sound hx.unmarked hmade hguard).2.2

/-- In every state of every run the disk has the names of the plain file system, and the content of every file that is not open. -/
theorem stored_as_plain {b : Backing} {as : List (Env × Op)} (hb : b.Shows Γ q) (hnext : q.nextDesc = 0) (hq : q.Sound)
    (hu : q.Unmarked) (hrun : Run (Serial.step Γ) Serial.Allowed (Serial.mounted b q) as x) (p : Filename) :
    (x.shared.fs.inoOf p = none ↔ x.plain.file p = none) ∧
      ∀ k, x.plain.file p = some k → ¬x.shared.hasOpen p →
        ∃ i, x.shared.fs.inoOf p = some i ∧ unpacked Γ (x.shared.data i) = some (x.plain.content k) := by
  have hx : x.Faithful Γ := (Serial.faithful_mounted hb hnext hq hu).run hdedup hcaching hexact hdefault hrun
  refine ⟨⟨fun hnone => ?_, fun hnone => (hx.mirrors.absent p hnone).1⟩, fun k hk hopen => hx.mirrors.stored hx.ready hk hopen⟩
  cases hk : x.plain.file p with
  | none => rfl
  | some k =>
    obtain ⟨i, hshow⟩ := hx.mirrors.shown p k hk
    rw [hshow.ino] at hnone
    cases hnone

end Steps

/-! ## A run of both -/

/-- The step of a system whose calls do not fail. -/
def Serial.fineStep (Γ : Config) (x : Serial) (op : Op) : Option Serial := x.step Γ (.fine, op)

/-- A run of which only the operations have been checked. -/
theorem Serial.run_fine {ops : List Op} (h : Run (Serial.fineStep Γ) (fun x op => x.Sane (.fine, op)) x ops y) :
    Run (Serial.step Γ) Serial.Allowed x (ops.map (fun op => (.fine, op))) y :=
  h.map (fun op => (Env.fine, op)) (fun _ _ => rfl) (fun _ _ hsane => ⟨Env.allOk_fine, Nat.le_refl _, hsane⟩)

theorem Backing.shows_empty (Γ : Config) : Backing.empty.Shows Γ .empty where
  named _ _ hi := nomatch hi
  single _ _ _ _ _ hi := nomatch hi
  flat _ hdir := nomatch hdir
  absent _ _ := rfl
  stored _ _ hk := nomatch hk

theorem PlainFs.sound_empty : (PlainFs.empty : PlainFs Filename).Sound :=
  ⟨fun _ _ _ hp => (nomatch hp), fun _ _ hp => (nomatch hp), fun _ => by change 0 < 2 ^ 63; decide⟩

theorem PlainFs.unmarked_empty : (PlainFs.empty : PlainFs Filename).Unmarked := fun _ hk => nomatch hk

/-- A file is written to and compressed, the file system is mounted again, a second file is written as a stream and read, the first one
is cut and replaced by the second one, which is compressed and opened for reading. -/
def writtenAndRenamed : List Op :=
  [.mknod ['a'] 0 0 0, .open ['a'] true, .write 0 [5] 1, .write 0 [7, 8] 1, .release 0, .purge, .compress, .remount 1, .mknod ['b'] 0 0 0,
    .open ['b'] true, .write 0 [1, 2, 3] 0, .write 0 [4] 3, .read 0 10 1, .open ['a'] true, .truncate ['a'] 2, .write 1 [9] 4, .release 1,
    .release 0, .rename ['b'] ['a'], .getattr ['a'], .purge, .compress, .remount 2, .open ['a'] false]

/-- The last read of the run is answered with the bytes that were streamed to the second file. -/
theorem replies_as_plain_written :
    ∃ x, Run (Serial.step .anySize) Serial.Allowed (Serial.mounted .empty .empty) (writtenAndRenamed.map (fun op => (.fine, op))) x ∧
      ((Op.read 0 5 1).perform .anySize .fine x.shared).2.seen = .read [2, 3, 4] := by
  obtain ⟨x, hrun, hread⟩ := Run.exists_of_executeIf (show (executeIf (Serial.fineStep .anySize) (fun x op => x.Sane (.fine, op))
    (Serial.mounted .empty .empty) writtenAndRenamed).any
      (fun x => decide (x.Sane (.fine, .read 0 5 1) ∧ (Op.read 0 5 1).expected x.plain = some (.read [2, 3, 4]))) = true by decide +kernel)
  rw [decide_eq_true_eq] at hread
  exact ⟨x, Serial.run_fine hrun, replies_as_plain (a := (.fine, .read 0 5 1)) rfl rfl (fun _ => Codec.stored_exact) (Module.available_null _)
    (Backing.shows_empty _) rfl PlainFs.sound_empty PlainFs.unmarked_empty (Serial.run_fine hrun)
    ⟨Env.allOk_fine, Nat.le_refl _, hread.1⟩ _ hread.2⟩

/-- Before it is opened again the file is on the disk. -/
theorem stored_as_plain_written :
    ∃ x, Run (Serial.step .anySize) Serial.Allowed (Serial.mounted .empty .empty) (writtenAndRenamed.dropLast.map (fun op => (.fine, op))) x ∧
      ∃ i, x.shared.fs.inoOf ['a'] = some i ∧ unpacked .anySize (x.shared.data i) = some [1, 2, 3, 4] := by
  obtain ⟨x, hrun, hend⟩ := Run.exists_of_executeIf (show (executeIf (Serial.fineStep .anySize) (fun x op => x.Sane (.fine, op))
    (Serial.mounted .empty .empty) writtenAndRenamed.dropLast).any
      (fun x => decide (¬x.shared.hasOpen ['a'] ∧ x.plain.file ['a'] = some 1 ∧ x.plain.content 1 = [1, 2, 3, 4])) = true by decide +kernel)
  rw [decide_eq_true_eq] at hend
  obtain ⟨hopen, hfile, hcontent⟩ := hend
  have hstored := (stored_as_plain rfl rfl (fun _ => Codec.stored_exact) (Module.available_null _) (Backing.shows_empty _) rfl PlainFs.sound_empty
    PlainFs.unmarked_empty (Serial.run_fine hrun) ['a']).2 1 hfile hopen
  rw [hcontent] at hstored
  exact ⟨x, Serial.run_fine hrun, hstored⟩

end FuseCompress
