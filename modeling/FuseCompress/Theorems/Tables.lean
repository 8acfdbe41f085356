import FuseCompress.TableRuns

/-!
# The dedup table over whole runs

Every operation keeps the table valid and keeps the flag `deduped` honest (`State.Tabled`), but for one case: `do_dedup` on a file
whose name has a record with another digest than the file has now. It then adds a second record with the same name. A record is
out of date like that after a mount without deduplication has changed the file.
-/

namespace FuseCompress

/-- The tables are in order: the dedup table is valid, and a file that is not marked as deduplicated has no record. -/
structure State.TablesInOrder (s : State) : Prop where
  valid : s.dedup.Valid
  unlisted : ∀ f ∈ s.database, (s.files f).deduped = false → ∀ dp, s.dedup.Holds dp → dp.filename ≠ (s.files f).filename

/-- The invariant of the runs: the tables are in order, and a path has one entry at most. -/
structure State.Tabled (s : State) : Prop extends s.TablesInOrder where
  bound : ∀ f ∈ s.database, f < s.nextFile
  onePerPath : ∀ f ∈ s.database, ∀ g ∈ s.database, (s.files f).filename = (s.files g).filename → f = g

/-- A record of the file that is to be deduplicated has the digest that the file has now. -/
def TableOp.UpToDate (Γ : Config) (s : State) : TableOp → Prop
  | .dedup env f =>
    ∀ md5 dp, dedupHashFile Γ env s (s.files f).filename = .digest md5 → s.dedup.findName (s.files f).filename = some dp →
      dp.md5 = md5
  | _ => True

/-! ## What leaves the tables alone -/

/-- The tables of two states are the same, but that entries may have left the database. -/
structure State.SameTables (s s' : State) : Prop where
  dedup : s'.dedup = s.dedup
  filename : ∀ f, (s'.files f).filename = (s.files f).filename
  deduped : ∀ f, (s'.files f).deduped = (s.files f).deduped
  database : s'.database ⊆ s.database
  nextFile : s'.nextFile = s.nextFile

theorem State.SameTables.refl (s : State) : s.SameTables s :=
  ⟨rfl, fun _ => rfl, fun _ => rfl, fun _ h => h, rfl⟩

theorem State.SameTables.trans {s s' s'' : State} (h : s.SameTables s') (h' : s'.SameTables s'') : s.SameTables s'' where
  dedup := h'.dedup.trans h.dedup
  filename := fun f => (h'.filename f).trans (h.filename f)
  deduped := fun f => (h'.deduped f).trans (h.deduped f)
  database := fun _ hf => h.database (h'.database hf)
  nextFile := h'.nextFile.trans h.nextFile

theorem State.Tabled.of_same {s s' : State} (h : s.Tabled) (hs : s.SameTables s') : s'.Tabled where
  valid := by
    rw [hs.dedup]
    exact h.valid
  unlisted := by
    intro f hf hd dp hdp
    rw [hs.dedup] at hdp
    rw [hs.deduped] at hd
    rw [hs.filename]
    exact h.unlisted f (hs.database hf) hd dp hdp
  bound := fun f hf => hs.nextFile ▸ h.bound f (hs.database hf)
  onePerPath := by
    intro f hf g hg hfg
    rw [hs.filename, hs.filename] at hfg
    exact h.onePerPath f (hs.database hf) g (hs.database hg) hfg

/-- A change of an entry other than its name and its flag. -/
theorem sameTables_modFile (s : State) (f : Nat) {g : FileT → FileT}
    (hg : ∀ x, (g x).filename = x.filename ∧ (g x).deduped = x.deduped) : s.SameTables (s.modFile f g) where
  dedup := rfl
  filename := by
    intro f'
    rw [State.files_modFile]
    split
    · rename_i e
      rw [e]
      exact (hg _).1
    · rfl
  deduped := by
    intro f'
    rw [State.files_modFile]
    split
    · rename_i e
      rw [e]
      exact (hg _).2
    · rfl
  database := fun _ h => h
  nextFile := rfl

theorem sameTables_flushFileCache (s : State) (f : Nat) : s.SameTables (flushFileCache s f) := by
  unfold flushFileCache
  split
  · exact .refl s
  · have h := sameTables_modFile s f (g := fun file => { file with cache := none }) (fun _ => ⟨rfl, rfl⟩)
    exact ⟨h.dedup, h.filename, h.deduped, h.database, h.nextFile⟩

theorem sameTables_purgeFile (Γ : Config) (env : Env) (force : Bool) (s : State) (f : Nat) :
    s.SameTables (purgeFile Γ env force s f) := by
  have hdetach : s.SameTables (detach s f) :=
    ⟨rfl, fun _ => rfl, fun _ => rfl, fun _ h => List.mem_of_mem_erase h, rfl⟩
  have hqueue : ∀ dedup, s.SameTables (backgroundCompressDedup s f dedup) := by
    intro dedup
    have h := sameTables_modFile s f (g := fun file => { file with accesses := file.accesses + 1 }) (fun _ => ⟨rfl, rfl⟩)
    exact ⟨h.dedup, h.filename, h.deduped, h.database, h.nextFile⟩
  unfold purgeFile
  dsimp only
  split
  · split
    · exact hqueue false
    · split
      · exact hqueue true
      · have h := hdetach.trans (sameTables_flushFileCache (detach s f) f)
        exact ⟨h.dedup, h.filename, h.deduped, h.database, h.nextFile⟩
  · split
    · exact hdetach
    · exact .refl s

theorem sameTables_directOpenPurge (Γ : Config) (env : Env) (force : Bool) (s : State) :
    s.SameTables (directOpenPurge Γ env force s) := by
  unfold directOpenPurge
  generalize s.database = l
  induction l generalizing s with
  | nil => exact .refl s
  | cons f l ih => exact (sameTables_purgeFile Γ env force s f).trans (ih _)

theorem sameTables_directOpenCount (Γ : Config) (env : Env) (s : State) : s.SameTables (directOpenCount Γ env s) := by
  have h : s.SameTables { s with entries := s.entries + 1 } := ⟨rfl, fun _ => rfl, fun _ => rfl, fun _ h => h, rfl⟩
  unfold directOpenCount
  dsimp only
  split
  · exact h.trans (sameTables_directOpenPurge Γ env false _)
  · exact h

/-! ## The operations -/

variable {Γ : Config} {s : State}

/-- A new entry is marked as deduplicated, unless no record has the hash of its name. -/
theorem State.Tabled.directOpenAdd (h : s.Tabled) {p : Filename} (hp : ∀ f ∈ s.database, (s.files f).filename ≠ p) :
    (directOpenAdd Γ s p).Tabled := by
  have hfiles : ∀ f, f ∈ s.database → (FuseCompress.directOpenAdd Γ s p).files f = s.files f := by
    intro f hf
    have hne : f ≠ s.nextFile := (h.bound f hf).ne
    simp [FuseCompress.directOpenAdd, hne]
  have hnew : (FuseCompress.directOpenAdd Γ s p).files s.nextFile = directNewFile Γ s p := by
    simp [FuseCompress.directOpenAdd]
  have hmem : ∀ f, f ∈ (FuseCompress.directOpenAdd Γ s p).database → f ∈ s.database ∨ f = s.nextFile := by
    intro f hf
    rcases List.mem_append.mp hf with hf | hf
    · exact Or.inl hf
    · exact Or.inr (List.mem_singleton.mp hf)
  exact
    { valid := h.valid
      unlisted := by
        intro f hf hd dp hdp
        rcases hmem f hf with hf | rfl
        · rw [hfiles f hf] at hd ⊢
          exact h.unlisted f hf hd dp hdp
        · rw [hnew] at hd ⊢
          have hnone : s.dedup.hasFilehash p = false := by
            simp only [directNewFile, Bool.not_eq_false', Bool.and_eq_true, Bool.not_eq_true'] at hd
            exact hd.2
          exact DedupHash.hasFilehash_false hnone dp hdp
      bound := by
        intro f hf
        rcases hmem f hf with hf | rfl
        · exact Nat.lt_succ_of_lt (h.bound f hf)
        · exact Nat.lt_succ_self _
      onePerPath := by
        intro f hf g hg hfg
        rcases hmem f hf with hf | rfl <;> rcases hmem g hg with hg | rfl
        · rw [hfiles f hf, hfiles g hg] at hfg
          exact h.onePerPath f hf g hg hfg
        · rw [hfiles f hf, hnew] at hfg
          exact absurd hfg (hp f hf)
        · rw [hfiles g hg, hnew] at hfg
          exact absurd hfg.symm (hp g hg)
        · rfl }

theorem State.Tabled.directOpen (h : s.Tabled) (env : Env) (p : Filename) : (directOpen Γ env s p).1.Tabled := by
  unfold FuseCompress.directOpen
  split
  · exact h.of_same (sameTables_modFile s _ (g := fun file => { file with deleted := false }) (fun _ => ⟨rfl, rfl⟩))
  · rename_i hnone
    have hsame := sameTables_directOpenCount Γ env s
    refine (h.of_same hsame).directOpenAdd ?_
    intro f hf
    rw [hsame.filename]
    unfold findFile at hnone
    rw [List.find?_eq_none] at hnone
    simpa using hnone f (hsame.database hf)

/-- An operation that keeps the names and the database, and keeps the table valid and the flags honest. -/
theorem State.Tabled.change (h : s.Tabled) {s' : State} (hname : ∀ f, (s'.files f).filename = (s.files f).filename)
    (hdb : s'.database = s.database) (hnext : s'.nextFile = s.nextFile) (hv : s'.dedup.Valid)
    (hun : ∀ f ∈ s.database, (s'.files f).deduped = false → ∀ dp, s'.dedup.Holds dp → dp.filename ≠ (s.files f).filename) :
    s'.Tabled where
  valid := hv
  unlisted := by
    intro f hf hd dp hdp
    rw [hname]
    rw [hdb] at hf
    exact hun f hf hd dp hdp
  bound := by
    intro f hf
    rw [hdb] at hf
    rw [hnext]
    exact h.bound f hf
  onePerPath := by
    intro f hf g hg hfg
    rw [hdb] at hf hg
    rw [hname, hname] at hfg
    exact h.onePerPath f hf g hg hfg

/-- `dedup_discard` changes the flag of its file and the table, and nothing else of the tables. -/
theorem dedupDiscard_frame (s : State) (f : Nat) :
    (∀ g, ((dedupDiscard s f).files g).filename = (s.files g).filename) ∧
      (∀ g, ((dedupDiscard s f).files g).deduped = if g = f then false else (s.files g).deduped) ∧
      (dedupDiscard s f).database = s.database ∧ (dedupDiscard s f).nextFile = s.nextFile := by
  have hnames : ∀ g, ((s.modFile f fun file => { file with deduped := false }).files g).filename = (s.files g).filename := by
    intro g
    rw [State.files_modFile]
    split
    · rename_i e
      rw [e]
    · rfl
  have hflags : ∀ g, ((s.modFile f fun file => { file with deduped := false }).files g).deduped =
      if g = f then false else (s.files g).deduped := by
    intro g
    rw [State.files_modFile]
    split <;> rfl
  unfold dedupDiscard
  by_cases hd : (s.files f).deduped = false
  · rw [if_pos hd]
    refine ⟨fun _ => rfl, fun g => ?_, rfl, rfl⟩
    split
    · rename_i e
      rw [e, hd]
    · rfl
  · rw [if_neg hd]
    dsimp only
    split
    · exact ⟨hnames, hflags, rfl, rfl⟩
    · exact ⟨hnames, hflags, rfl, rfl⟩

/-- After `dedup_discard` the name has no record. The early return and the removal of the first record found are enough, as the
flag is honest and a name has one record at most. -/
theorem State.Tabled.dedupDiscard (h : s.Tabled) {f : Nat} (hf : f ∈ s.database) :
    (dedupDiscard s f).Tabled ∧ ∀ dp, (dedupDiscard s f).dedup.Holds dp → dp.filename ≠ (s.files f).filename := by
  obtain ⟨hnames, hflags, hdb, hnext⟩ := dedupDiscard_frame s f
  have key : (FuseCompress.dedupDiscard s f).dedup.Valid ∧ ∀ dp, (FuseCompress.dedupDiscard s f).dedup.Holds dp →
      s.dedup.Holds dp ∧ dp.filename ≠ (s.files f).filename := by
    unfold FuseCompress.dedupDiscard
    by_cases hd : (s.files f).deduped = false
    · rw [if_pos hd]
      exact ⟨h.valid, fun dp hdp => ⟨hdp, h.unlisted f hf hd dp hdp⟩⟩
    · rw [if_neg hd]
      dsimp only
      rw [State.files_modFile, if_pos rfl, State.dedup_modFile]
      cases hfind : s.dedup.findName (s.files f).filename with
      | none => exact ⟨h.valid, fun dp hdp => ⟨hdp, DedupHash.findName_none hfind dp hdp⟩⟩
      | some dp =>
        obtain ⟨hdp, hpn⟩ := DedupHash.findName_some hfind
        refine ⟨h.valid.remove hdp, fun dp' hdp' => ?_⟩
        obtain ⟨hh, hne⟩ := (h.valid.holds_remove hdp).mp hdp'
        exact ⟨hh, fun e => hne (h.valid.filename dp' dp hh hdp (e.trans hpn.symm))⟩
  refine ⟨h.change hnames hdb hnext key.1 ?_, fun dp hdp => (key.2 dp hdp).2⟩
  intro g hg hgd dp hdp
  by_cases hgf : g = f
  · rw [hgf]
    exact (key.2 dp hdp).2
  · rw [hflags, if_neg hgf] at hgd
    exact h.unlisted g hg hgd dp (key.2 dp hdp).1

/-- `dedup_rename`: the record of the target goes, and the record of the source gets the name of the target. -/
theorem State.Tabled.dedupRename (h : s.Tabled) {src dst : Nat} (hsrc : src ∈ s.database) (hdst : dst ∈ s.database) :
    (dedupRename s src dst).Tabled := by
  obtain ⟨hnames, hflags, hdb, hnext⟩ := dedupDiscard_frame s dst
  obtain ⟨h₁, hgone⟩ := h.dedupDiscard hdst
  unfold FuseCompress.dedupRename
  generalize FuseCompress.dedupDiscard s dst = s₁ at *
  dsimp only
  have hnames₂ : ∀ g, ((s₁.modFile dst fun file => { file with deduped := (s₁.files src).deduped }).files g).filename =
      (s₁.files g).filename := by
    intro g
    rw [State.files_modFile]
    split
    · rename_i e
      rw [e]
    · rfl
  have hflags₂ : ∀ g, ((s₁.modFile dst fun file => { file with deduped := (s₁.files src).deduped }).files g).deduped =
      if g = dst then (s₁.files src).deduped else (s₁.files g).deduped := by
    intro g
    rw [State.files_modFile]
    split <;> rfl
  rw [hnames₂, hnames₂, State.dedup_modFile, hnames src, hnames dst]
  have hsrc₁ : src ∈ s₁.database := hdb ▸ hsrc
  cases hfind : s₁.dedup.findName (s.files src).filename with
  | none =>
    refine h₁.change hnames₂ rfl rfl h₁.valid ?_
    intro g hg hgd dp hdp
    rw [hflags₂] at hgd
    split at hgd
    · rename_i e
      rw [e, hnames]
      exact hgone dp hdp
    · exact h₁.unlisted g hg hgd dp hdp
  | some dp =>
    obtain ⟨hdp, hpn⟩ := DedupHash.findName_some hfind
    obtain ⟨hv, hholds⟩ := h₁.valid.rename hdp hgone
    refine h₁.change hnames₂ rfl rfl hv ?_
    intro g hg hgd dp' hdp'
    change ((s₁.modFile dst fun file => { file with deduped := (s₁.files src).deduped }).files g).deduped = false at hgd
    rw [hflags₂] at hgd
    split at hgd
    · -- the source has a record, so its flag is set
      exact absurd (hpn.trans (hnames src).symm) (h₁.unlisted src hsrc₁ hgd dp hdp)
    · rename_i hgdst
      rcases (hholds dp').mp hdp' with ⟨hdp'', -⟩ | rfl
      · exact h₁.unlisted g hg hgd dp' hdp''
      · intro e
        have hgd' : (s₁.files g).filename = (s₁.files dst).filename := by rw [hnames dst]; exact e.symm
        exact hgdst (h₁.onePerPath g hg dst (hdb ▸ hdst) hgd')

/-- `hardlink_file` adds a record where no record has the digest, and leaves the table alone otherwise. -/
theorem hardlinkFile_frame (Γ : Config) (env : Env) (s : State) (md5 : List UInt8) (p : Filename) :
    (hardlinkFile Γ env s md5 p).1.dedup = (if s.dedup.findMd5 md5 = none then s.dedup.add md5 p else s.dedup) ∧
      (hardlinkFile Γ env s md5 p).1.files = s.files ∧ (hardlinkFile Γ env s md5 p).1.database = s.database ∧
      (hardlinkFile Γ env s md5 p).1.nextFile = s.nextFile := by
  unfold hardlinkFile
  cases s.dedup.findMd5 md5 with
  | none => exact ⟨rfl, rfl, rfl, rfl⟩
  | some dp =>
    dsimp only
    rw [if_neg (Option.some_ne_none dp)]
    split
    · exact ⟨rfl, rfl, rfl, rfl⟩
    · cases if env.ok .link then s.fs.inoOf dp.filename else none with
      | none => exact ⟨rfl, rfl, rfl, rfl⟩
      | some j =>
        dsimp only
        split <;> split <;> exact ⟨rfl, rfl, rfl, rfl⟩

theorem sameTables_adoptCompressor (Γ : Config) (env : Env) (s : State) (f : Nat) (target : Option Filename) :
    s.SameTables (adoptCompressor Γ env s f target) := by
  unfold adoptCompressor
  split
  · exact .refl s
  · split
    · exact .refl s
    · exact sameTables_modFile s f (fun _ => ⟨rfl, rfl⟩)

theorem adoptCompressor_database (Γ : Config) (env : Env) (s : State) (f : Nat) (target : Option Filename) :
    (adoptCompressor Γ env s f target).database = s.database := by
  unfold adoptCompressor
  split
  · rfl
  · split <;> rfl

/-- Marking a file as deduplicated promises nothing. -/
theorem State.Tabled.markDeduped (h : s.Tabled) (f : Nat) {g : FileT → FileT}
    (hg : ∀ x, (g x).filename = x.filename ∧ (g x).deduped = true) : (s.modFile f g).Tabled := by
  refine h.change ?_ rfl rfl h.valid ?_
  · intro f'
    rw [State.files_modFile]
    split
    · rename_i e
      rw [e]
      exact (hg _).1
    · rfl
  · intro f' hf' hd
    rw [State.files_modFile] at hd
    split at hd
    · rw [(hg _).2] at hd
      cases hd
    · exact h.unlisted f' hf' hd

/-- `do_dedup` adds a record only where its file has none. -/
theorem State.Tabled.doDedup (h : s.Tabled) {env : Env} {f : Nat} (hf : f ∈ s.database)
    (hok : (TableOp.dedup env f).UpToDate Γ s) : (doDedup Γ env s f).Tabled := by
  have hsame : s.SameTables (doDedupBegin s f) := sameTables_modFile s f (fun _ => ⟨rfl, rfl⟩)
  have hhash : dedupHashFile Γ env (doDedupBegin s f) ((doDedupBegin s f).files f).filename =
      dedupHashFile Γ env s (s.files f).filename := by
    rw [hsame.filename]
    rfl
  unfold FuseCompress.doDedup
  dsimp only
  rw [hhash]
  cases hd : dedupHashFile Γ env s (s.files f).filename with
  | failed => exact (h.of_same hsame).markDeduped f (g := fun file => { file with deduped := true }) (fun _ => ⟨rfl, rfl⟩)
  | crash => exact h.of_same (hsame.trans ⟨rfl, fun _ => rfl, fun _ => rfl, fun _ h => h, rfl⟩)
  | digest md5 =>
    dsimp only [doDedupEnd]
    split
    · obtain ⟨hdedup, hfiles, hdb, hnext⟩ := hardlinkFile_frame Γ env (doDedupBegin s f) md5 ((doDedupBegin s f).files f).filename
      generalize hardlinkFile Γ env (doDedupBegin s f) md5 ((doDedupBegin s f).files f).filename = r at *
      obtain ⟨s₂, target⟩ := r
      dsimp only at hdedup hfiles hdb hnext ⊢
      rw [hsame.dedup, hsame.filename] at hdedup
      have hfree : s.dedup.findMd5 md5 = none → ∀ dp, s.dedup.Holds dp → dp.filename ≠ (s.files f).filename := by
        intro hnone dp hdp hname
        cases hfind : s.dedup.findName (s.files f).filename with
        | none => exact DedupHash.findName_none hfind dp hdp hname
        | some dp' =>
          obtain ⟨hdp', hname'⟩ := DedupHash.findName_some hfind
          rw [h.valid.filename dp dp' hdp hdp' (hname.trans hname'.symm)] at hdp
          exact h.valid.findMd5_none hnone dp' hdp (hok md5 dp' hd hfind)
      have hadopt := sameTables_adoptCompressor Γ env s₂ f target
      have hname₂ : ∀ g, (s₂.files g).filename = (s.files g).filename := by
        intro g
        rw [hfiles]
        exact hsame.filename g
      have hflag₂ : ∀ g, (s₂.files g).deduped = (s.files g).deduped := by
        intro g
        rw [hfiles]
        exact hsame.deduped g
      have hdb₃ : (adoptCompressor Γ env s₂ f target).database = s.database := by
        rw [← show s₂.database = s.database from hdb]
        exact adoptCompressor_database Γ env s₂ f target
      have hholds : ∀ dp, (if s.dedup.findMd5 md5 = none then s.dedup.add md5 (s.files f).filename else s.dedup).Holds dp →
          s.dedup.Holds dp ∨ dp.filename = (s.files f).filename := by
        intro dp hdp
        split at hdp
        · rw [DedupHash.add_eq, holds_insert] at hdp
          rcases hdp with hdp | rfl
          · exact Or.inl hdp
          · exact Or.inr rfl
        · exact Or.inl hdp
      refine h.change ?_ hdb₃ (hadopt.nextFile.trans hnext) ?_ ?_
      · intro g
        rw [State.files_modFile]
        split
        · rename_i e
          rw [e]
          exact (hadopt.filename f).trans (hname₂ f)
        · exact (hadopt.filename g).trans (hname₂ g)
      · rw [State.dedup_modFile, hadopt.dedup, hdedup]
        split
        · rename_i hnone
          exact h.valid.add (hfree hnone) (h.valid.findMd5_none hnone)
        · exact h.valid
      · intro g hg hgd dp hdp
        rw [State.files_modFile] at hgd
        split at hgd
        · cases hgd
        · rename_i hgf
          rw [hadopt.deduped, hflag₂] at hgd
          rw [State.dedup_modFile, hadopt.dedup, hdedup] at hdp
          rcases hholds dp hdp with hdp | hdp
          · exact h.unlisted g hg hgd dp hdp
          · rw [hdp]
            exact fun e => hgf (h.onePerPath g hg f hf e.symm)
    · exact (h.of_same hsame).of_same (sameTables_modFile _ f (fun _ => ⟨rfl, rfl⟩))

/-- Every operation keeps the tables in order, when no record is out of date where `do_dedup` looks. -/
theorem State.Tabled.step (h : s.Tabled) {op : TableOp} {s' : State} (hok : op.UpToDate Γ s)
    (hs : tableStep Γ s op = some s') : s'.Tabled := by
  cases op with
  | «open» env p =>
    cases hs
    exact h.directOpen env p
  | purge env force =>
    cases hs
    exact h.of_same (sameTables_directOpenPurge Γ env force s)
  | discard f =>
    simp only [tableStep, Option.ite_none_right_eq_some, Option.some.injEq] at hs
    obtain ⟨hf, rfl⟩ := hs
    exact (h.dedupDiscard hf).1
  | rename src dst =>
    simp only [tableStep, Option.ite_none_right_eq_some, Option.some.injEq] at hs
    obtain ⟨⟨hsrc, hdst, -⟩, rfl⟩ := hs
    exact h.dedupRename hsrc hdst
  | dedup env f =>
    simp only [tableStep, Option.ite_none_right_eq_some, Option.some.injEq] at hs
    obtain ⟨hf, rfl⟩ := hs
    exact h.doDedup hf hok
  | content fs =>
    cases hs
    exact h.of_same ⟨rfl, fun _ => rfl, fun _ => rfl, fun _ h => h, rfl⟩
  | redup on =>
    cases hs
    exact h.of_same ⟨rfl, fun _ => rfl, fun _ => rfl, fun _ h => h, rfl⟩

/-- A process starts with its tables in order. -/
theorem State.Started.tabled (h : s.Started Γ) : s.Tabled := by
  have hv : s.dedup.Valid := by
    rcases h.table with ht | ⟨t, hv, hs, hload⟩
    · rw [ht]
      exact valid_dedupInitDb
    · obtain ⟨t', hload', hv', -⟩ := hv.load_dedupSave Γ (fun dp hdp => (hs dp (hv.mem_records.mp hdp)).1)
        (fun dp hdp => (hs dp (hv.mem_records.mp hdp)).2)
      rw [hload] at hload'
      cases hload'
      exact hv'
  have hnone : ∀ f, f ∉ s.database := by
    rw [h.database]
    simp
  exact
    { valid := hv
      unlisted := fun f hf => absurd hf (hnone f)
      bound := fun f hf => absurd hf (hnone f)
      onePerPath := fun f hf => absurd hf (hnone f) }

/-- In every run of the operations in which `do_dedup` never comes upon an outdated record of its file, the tables are in
order. -/
theorem tables_in_order (Γ : Config) {s₀ s : State} {ops : List TableOp} (hs : s₀.Started Γ)
    (h : Run (tableStep Γ) (TableOp.UpToDate Γ) s₀ ops s) : s.TablesInOrder :=
  (h.invariant (fun _ _ _ hs hok hstep => State.Tabled.step hs hok hstep) hs.tabled).toTablesInOrder

/-! ## A record that is out of date -/

instance (Γ : Config) (s : State) : (op : TableOp) → Decidable (op.UpToDate Γ s)
  | .dedup env f =>
    match hd : dedupHashFile Γ env s (s.files f).filename, hf : s.dedup.findName (s.files f).filename with
    | .digest md5, some dp =>
      decidable_of_iff (dp.md5 = md5) ⟨fun e _ _ hd' hf' => by
        rw [hd, HashResult.digest.injEq] at hd'
        rw [hf, Option.some.injEq] at hf'
        rw [← hd', ← hf', e], fun h => h md5 dp hd hf⟩
    | .digest _, none => isTrue (fun _ _ _ hf' => by rw [hf] at hf'; cases hf')
    | .failed, _ => isTrue (fun _ _ hd' _ => by rw [hd] at hd'; cases hd')
    | .crash, _ => isTrue (fun _ _ hd' _ => by rw [hd] at hd'; cases hd')
  | .open .. | .purge .. | .discard .. | .rename .. | .content .. | .redup .. => isTrue trivial

/-- The digests of the two files `x` and `y` of one byte, and something else for every other file. -/
def md5XY (b : Bytes) : List UInt8 :=
  if b = [120] then [157, 212, 228, 97, 38, 140, 128, 52, 245, 200, 86, 78, 21, 92, 103, 166]
  else if b = [121] then [65, 82, 144, 118, 149, 148, 70, 14, 46, 72, 89, 34, 144, 79, 52, 93]
  else Bytes.zeros 16

/-- A mount with the option `dedup` of files that hold `x` or `y`. -/
def Config.dedupXY : Config := { Config.plain with dedupEnabled := true, md5 := md5XY }

/-- A backing directory with one file. -/
def Backing.fileAt (p : Filename) (data : Bytes) : Backing :=
  { Backing.empty with
    names := [(p, .reg 0)]
    inodes := fun _ => ⟨data, { mode := 0o100644, uid := 0, gid := 0, atime := 0, mtime := 0 }⟩
    next := 1 }

/-- A process that has loaded a table with one record, of the file `b` holding `x`. -/
def State.loadedB (data : Bytes) : State :=
  { State.mounted (.fileAt ['b'] data) with dedup := .single ['b'] (md5XY [120]) }

theorem started_loadedB (data : Bytes) : (State.loadedB data).Started .dedupXY where
  database := rfl
  table := by
    have hs : (⟨0, ['b'], md5XY [120]⟩ : DedupT).Storable := ⟨storable_of_all (by decide), by decide⟩
    have hshort : (⟨0, ['b'], md5XY [120]⟩ : DedupT).Short := by unfold DedupT.Short; decide
    refine Or.inr ⟨.single ['b'] (md5XY [120]), valid_single _ _, ?_, ?_⟩
    · intro dp hdp
      rw [holds_single.mp hdp]
      exact ⟨hs, hshort⟩
    · rw [dedupSave, dedupLoad_header, records_single]
      exact dedupLoadEntries_entries (by simpa using hs) (by simpa using hshort) dedupInitDb

/-- A file `f` is written, the file `b` is renamed over it, and the background thread looks at `f`. -/
def renameOverQueued (data : Bytes) : List TableOp :=
  [.open .fine ['f'], .discard 0, .open .fine ['b'], .content (.fileAt ['f'] data), .rename 1 0, .dedup .fine 0]

theorem tables_in_order_renameOverQueued :
    ∃ s, Run (tableStep .dedupXY) (TableOp.UpToDate .dedupXY) (.loadedB [120]) (renameOverQueued [120]) s ∧
      s.TablesInOrder := by
  obtain ⟨s, hrun, -⟩ := Run.exists_of_executeIf
    (show (executeIf (tableStep .dedupXY) (TableOp.UpToDate .dedupXY) (.loadedB [120]) (renameOverQueued [120])).any
      (fun _ => true) = true by decide +kernel)
  exact ⟨s, hrun, tables_in_order .dedupXY (started_loadedB [120]) hrun⟩

/-- The table has been loaded with a record of `b` holding `x`, while `b` holds `y` by now. The same steps give `f` two
records. -/
theorem renameOverQueued_not_inOrder :
    ∃ s, Run (tableStep .dedupXY) (fun _ _ => True) (.loadedB [121]) (renameOverQueued [121]) s ∧ ¬s.TablesInOrder := by
  obtain ⟨s, hrun, hp⟩ := Run.exists_of_executeIf
    (show (executeIf (tableStep .dedupXY) (fun _ _ => True) (.loadedB [121]) (renameOverQueued [121])).any
      (fun s => decide ((s.dedup.headFilename (filenameBucket ['f'])).map DedupT.filename = [['f'], ['f']])) = true by
        decide +kernel)
  refine ⟨s, hrun, fun hs => ?_⟩
  have hnames := of_decide_eq_true hp
  obtain ⟨a, b, hab, ha, hb⟩ : ∃ a b, s.dedup.headFilename (filenameBucket ['f']) = [a, b] ∧ a.filename = ['f'] ∧
      b.filename = ['f'] := by
    have hlen : (s.dedup.headFilename (filenameBucket ['f'])).length = 2 := by simpa using congrArg List.length hnames
    obtain ⟨a, b, hab⟩ := List.length_eq_two.mp hlen
    rw [hab] at hnames
    exact ⟨a, b, hab, by simpa using hnames⟩
  have hholds : ∀ c ∈ [a, b], s.dedup.Holds c := fun c hc => hs.valid.holds (hab ▸ hc)
  have heq := hs.valid.filename a b (hholds a (by simp)) (hholds b (by simp)) (ha.trans hb.symm)
  have hnodup := hs.valid.onceFilename (filenameBucket ['f'])
  rw [hab, heq] at hnodup
  simp at hnodup

end FuseCompress
