import FuseCompress.Lemmas.Operations

/-!
# The mount beside the plain file system, over an unmount

`fusecompress_destroy` takes the entries that are still used by the queue out of the database, so they are not found any more. What it
does to the files is what it would do with these entries in place (`State.Leaving`): neither the purge nor the background thread looks
for an entry by its path.
-/

namespace FuseCompress

variable {Γ : Config} {env : Env} {s s' : State} {q : PlainFs Filename} {refs refs' : Nat → Nat} {f g i d : Nat} {db : List Nat}

/-! ## The background thread does not look at the database -/

/-- The same state with another database. -/
def State.listing (s : State) (db : List Nat) : State := { s with database := db }

theorem listing_database (s : State) : s.listing s.database = s := rfl

theorem doCompressEnd_listing (hdedup : Γ.dedupEnabled = false) (job : Job) (got : Bytes) (eof : Bool) :
    doCompressEnd Γ env (s.listing db) job got eof =
      ((doCompressEnd Γ env s job got eof).1.listing db, (doCompressEnd Γ env s job got eof).2) := by
  unfold doCompressEnd doCompressInstall
  dsimp only
  rw [discard_off hdedup, discard_off hdedup]
  have hfile : (s.listing db).files = s.files := rfl
  rw [hfile]
  by_cases h₁ : (env.ok .compress && eof) = false ∨ got.length ≠ job.size ∨ (s.files job.file).status.cancel = true
  · rw [if_pos h₁, if_pos h₁]
    rfl
  rw [if_neg h₁, if_neg h₁]
  by_cases h₂ : env.ok .close = false
  · rw [if_pos h₂, if_pos h₂]
    rfl
  rw [if_neg h₂, if_neg h₂]
  by_cases h₃ : env.ok .rename = false
  · rw [if_pos h₃, if_pos h₃]
    rfl
  rw [if_neg h₃, if_neg h₃]
  by_cases h₄ : env.ok .utime
  · rw [if_pos h₄, if_pos h₄]
    rfl
  · rw [if_neg h₄, if_neg h₄]
    rfl

theorem doCompressBegin_listing (f : Nat) :
    doCompressBegin Γ env (s.listing db) f = ((doCompressBegin Γ env s f).1.listing db, (doCompressBegin Γ env s f).2) := by
  unfold doCompressBegin
  have hfile : (s.listing db).files = s.files := rfl
  have hfs : (s.listing db).fs = s.fs := rfl
  have hdata : (s.listing db).data = s.data := rfl
  rw [hfile, hfs, hdata]
  split
  · rfl
  · rename_i i hi
    dsimp only
    by_cases hsmall : (s.data i).length < Γ.minFilesizeBackground
    · rw [if_pos hsmall, if_pos hsmall]
    rw [if_neg hsmall, if_neg hsmall]
    -- the header is read into the entry before anything else is looked at
    have hread : (if headerSize ≤ (s.data i).length ∧ env.ok .readHeader = true then
          (s.listing db).modFile f (fun file => { file with
            compressor := (fileReadHeader Γ (s.data i) (s.files f).compressor (s.files f).size).1
            size := (fileReadHeader Γ (s.data i) (s.files f).compressor (s.files f).size).2 })
        else s.listing db) =
        (if headerSize ≤ (s.data i).length ∧ env.ok .readHeader = true then
          s.modFile f (fun file => { file with
            compressor := (fileReadHeader Γ (s.data i) (s.files f).compressor (s.files f).size).1
            size := (fileReadHeader Γ (s.data i) (s.files f).compressor (s.files f).size).2 })
        else s).listing db := by
      split <;> rfl
    rw [hread]
    generalize (if headerSize ≤ (s.data i).length ∧ env.ok .readHeader = true then
      s.modFile f (fun file => { file with
        compressor := (fileReadHeader Γ (s.data i) (s.files f).compressor (s.files f).size).1
        size := (fileReadHeader Γ (s.data i) (s.files f).compressor (s.files f).size).2 })
      else s) = t
    have htfile : (t.listing db).files = t.files := rfl
    have htfs : (t.listing db).fs = t.fs := rfl
    rw [htfile, htfs]
    split
    · rfl
    · split
      · rfl
      · split <;> rfl

theorem doCompress_listing (hdedup : Γ.dedupEnabled = false) (f : Nat) :
    doCompress Γ env (s.listing db) f = (doCompress Γ env s f).listing db := by
  unfold doCompress
  rw [doCompressBegin_listing]
  rcases doCompressBegin Γ env s f with ⟨t, _ | job⟩
  · rfl
  · have hdata : (t.listing db).data = t.data := rfl
    dsimp only
    rw [hdata, doCompressEnd_listing hdedup]

theorem assert_listing (c : Bool) : (s.listing db).assert Γ c = (s.assert Γ c).listing db := by
  unfold State.assert
  split <;> rfl

/-- The background thread does with the next entry of the queue what it would do with another database. -/
theorem threadCompress_listing (env : Env) (db : List Nat) (hdedup : Γ.dedupEnabled = false) (hqueue : ∀ c ∈ s.comp, c.isDedup = false) :
    threadCompress Γ env (s.listing db) = (threadCompress Γ env s).listing db := by
  unfold threadCompress
  cases hcomp : s.comp with
  | nil =>
    rw [show compDequeue s = none by unfold compDequeue; rw [hcomp]]
    rw [show compDequeue (s.listing db) = none by unfold compDequeue; rw [show (s.listing db).comp = [] from hcomp]]
  | cons entry rest =>
    obtain ⟨t, hdequeue, hdequeue'⟩ : ∃ t : State,
        compDequeue s = some (t, entry) ∧ compDequeue (s.listing db) = some (t.listing db, entry) := by
      refine ⟨{ s with comp := rest, compEntries := s.compEntries - 1 }, ?_, ?_⟩
      · unfold compDequeue
        rw [hcomp]
      · unfold compDequeue
        rw [show (s.listing db).comp = entry :: rest from hcomp]
        rfl
    have hkind : entry.isDedup = false := hqueue entry (by rw [hcomp]; exact List.mem_cons_self)
    rw [hdequeue, hdequeue']
    dsimp only
    rw [hkind, if_neg Bool.false_ne_true, if_neg Bool.false_ne_true]
    have hfile : ∀ t : State, (t.listing db).files = t.files := fun _ => rfl
    rw [hfile, assert_listing, hfile]
    unfold compFinish
    rw [if_neg Bool.false_ne_true, if_neg Bool.false_ne_true, discard_off hdedup, discard_off hdedup]
    split
    · rw [doCompress_listing hdedup]
      rfl
    · rfl

theorem descs_doCompress (hdedup : Γ.dedupEnabled = false) (f : Nat) : (doCompress Γ env s f).descs = s.descs := by
  have hbegin : (doCompressBegin Γ env s f).1.descs = s.descs := by
    unfold doCompressBegin
    split
    · rfl
    · dsimp only
      repeat' split
      all_goals rfl
  have hend : ∀ (t : State) (job : Job) (got : Bytes), (doCompressEnd Γ env t job got true).1.descs = t.descs := by
    intro t job got
    unfold doCompressEnd doCompressInstall
    dsimp only
    rw [discard_off hdedup]
    repeat' split
    all_goals rfl
  unfold doCompress
  rcases hjob : doCompressBegin Γ env s f with ⟨t, _ | job⟩
  · rw [hjob] at hbegin
    exact hbegin
  · rw [hjob] at hbegin
    exact (hend t job _).trans hbegin

theorem descs_threadCompress (hdedup : Γ.dedupEnabled = false) (hqueue : ∀ c ∈ s.comp, c.isDedup = false) :
    (threadCompress Γ env s).descs = s.descs := by
  unfold threadCompress
  cases hcomp : s.comp with
  | nil => rw [show compDequeue s = none by unfold compDequeue; rw [hcomp]]
  | cons entry rest =>
    have hdequeue : compDequeue s = some ({ s with comp := rest, compEntries := s.compEntries - 1 }, entry) := by
      unfold compDequeue
      rw [hcomp]
    have hkind : entry.isDedup = false := hqueue entry (by rw [hcomp]; exact List.mem_cons_self)
    rw [hdequeue]
    dsimp only
    rw [hkind, if_neg Bool.false_ne_true]
    unfold compFinish
    rw [if_neg Bool.false_ne_true, discard_off hdedup]
    change State.descs (if _ then _ else _) = s.descs
    split
    · rw [descs_doCompress hdedup, State.descs_assert]
    · rw [State.descs_assert]

/-! ## The loop at unmount -/

/-- During the unmount, with the entries `db` that have not been freed: nothing is open, and with these entries in the database the
mount would mirror the plain file system. -/
structure State.Leaving (Γ : Config) (s : State) (q : PlainFs Filename) (db : List Nat) : Prop where
  ready : (s.listing db).Ready (fun _ => 0)
  mirrors : (s.listing db).Mirrors Γ q
  idle : ∀ d, (s.descs d).live = false
  sub : ∀ f ∈ s.database, f ∈ db
  nodup : s.database.Nodup

/-- The forced purge frees an entry that nobody uses as the purge of `direct_open` does. -/
theorem purgeFile_listing (hcache : (s.files f).cache = none) (hzero : (s.files f).accesses = 0) :
    purgeFile Γ env false (s.listing db) f = (purgeFile Γ env true s f).listing (purgeFile Γ env false (s.listing db) f).database := by
  have hfile : ((s.listing db).files f) = s.files f := rfl
  have hfs : (s.listing db).fs = s.fs := rfl
  unfold purgeFile
  dsimp only
  rw [hfile, hfs, if_pos hzero, if_pos hzero]
  split
  · rfl
  · split
    · rfl
    · unfold directOpenDelete flushFileCache
      rw [show ((detach s f).files f).cache = none from hcache, show ((detach (s.listing db) f).files f).cache = none from hcache]
      rfl

theorem descs_purgeFile (env : Env) (hcache : (s.files f).cache = none) (force : Bool) : (purgeFile Γ env force s f).descs = s.descs := by
  unfold purgeFile directOpenDelete flushFileCache
  rw [show ((detach s f).files f).cache = none from hcache]
  dsimp only
  repeat' split
  all_goals rfl

/-- What the forced purge does to the database. -/
theorem database_purgeFile_forced (env : Env) (hcache : (s.files f).cache = none) :
    (purgeFile Γ env true s f).database = s.database ∨ (purgeFile Γ env true s f).database = s.database.erase f := by
  unfold purgeFile directOpenDelete flushFileCache
  rw [show ((detach s f).files f).cache = none from hcache]
  dsimp only
  repeat' split
  all_goals first
    | exact Or.inl rfl
    | exact Or.inr rfl

/-- The entry that nobody uses leaves both databases or neither. -/
theorem database_purgeFile_unused (env : Env) (db : List Nat) (hcache : (s.files f).cache = none) (hzero : (s.files f).accesses = 0) :
    (purgeFile Γ env true s f).database = s.database ∧ (purgeFile Γ env false (s.listing db) f).database = db ∨
      (purgeFile Γ env true s f).database = s.database.erase f ∧ (purgeFile Γ env false (s.listing db) f).database = db.erase f := by
  have hfile : ((s.listing db).files f) = s.files f := rfl
  have hfs : (s.listing db).fs = s.fs := rfl
  unfold purgeFile directOpenDelete flushFileCache
  rw [show ((detach s f).files f).cache = none from hcache, show ((detach (s.listing db) f).files f).cache = none from hcache]
  dsimp only
  rw [hfile, hfs, if_pos hzero, if_pos hzero]
  split
  · exact Or.inl ⟨rfl, rfl⟩
  · split
    · exact Or.inl ⟨rfl, rfl⟩
    · exact Or.inr ⟨rfl, rfl⟩

/-- The forced purge looks at an entry. -/
theorem State.Leaving.purgeFile (h : s.Leaving Γ q db) (hf : f ∈ s.database) (hdedup : Γ.dedupEnabled = false) (env : Env) :
    (∃ db', (purgeFile Γ env true s f).Leaving Γ q db') ∧ ∀ g, g ≠ f → g ∈ s.database → g ∈ (FuseCompress.purgeFile Γ env true s f).database := by
  have hcache : (s.files f).cache = none := h.ready.uncached f
  have hdescs := descs_purgeFile (Γ := Γ) env hcache true
  have hsub : ∀ g ∈ (FuseCompress.purgeFile Γ env true s f).database, g ∈ s.database := by
    rcases database_purgeFile_forced (Γ := Γ) env hcache with e | e
    · rw [e]
      exact fun _ hg => hg
    · rw [e]
      exact fun _ hg => List.mem_of_mem_erase hg
  have hnodup : (FuseCompress.purgeFile Γ env true s f).database.Nodup := by
    rcases database_purgeFile_forced (Γ := Γ) env hcache with e | e
    · rw [e]
      exact h.nodup
    · rw [e]
      exact h.nodup.erase f
  have hother : ∀ g, g ≠ f → g ∈ s.database → g ∈ (FuseCompress.purgeFile Γ env true s f).database := by
    intro g hne hg
    rcases database_purgeFile_forced (Γ := Γ) env hcache with e | e
    · rw [e]
      exact hg
    · rw [e]
      exact (List.mem_erase_of_ne hne).mpr hg
  refine ⟨?_, hother⟩
  by_cases hzero : (s.files f).accesses = 0
  · have hunseen := (h.mirrors.purgeFile h.ready (h.sub f hf) hdedup env).1
    rw [purgeFile_listing hcache hzero] at hunseen
    refine ⟨_, hunseen.ready, hunseen.mirrors, fun d => ?_, fun g hg => ?_, hnodup⟩
    · rw [hdescs]
      exact h.idle d
    · rcases database_purgeFile_unused (Γ := Γ) env db hcache hzero with ⟨e, e'⟩ | ⟨e, e'⟩
      · rw [e] at hg
        rw [e']
        exact h.sub g hg
      · rw [e] at hg
        rw [e']
        obtain ⟨hne, hg⟩ := h.nodup.mem_erase_iff.mp hg
        exact (List.mem_erase_of_ne hne).mpr (h.sub g hg)
  · -- the entry is used by the queue: only the database loses it
    have hdetach : FuseCompress.purgeFile Γ env true s f = detach s f := by
      unfold FuseCompress.purgeFile
      dsimp only
      rw [if_neg hzero, if_pos rfl]
    rw [hdetach] at hsub hnodup ⊢
    have hbooks := h.ready.tidy
    have hunseen : (s.listing db).Unseen Γ ((detach s f).listing db) q (fun _ => 0) :=
      h.mirrors.unseen h.ready
        ⟨⟨hbooks.balanced.accesses, hbooks.balanced.mem_head, hbooks.balanced.nodup, hbooks.balanced.live_lt, hbooks.balanced.fresh⟩,
          hbooks.known, hbooks.nodup, hbooks.once, hbooks.used, hbooks.queue⟩
        rfl (fun _ => .refl _) rfl rfl rfl (fun _ hg => hg) (fun _ hg hout => absurd hg hout)
    exact ⟨db, hunseen.ready, hunseen.mirrors, h.idle, fun g hg => h.sub g (hsub g hg), hnodup⟩

theorem State.Leaving.purgeAll (h : s.Leaving Γ q db) (hdedup : Γ.dedupEnabled = false) (env : Env) (todo : List Nat)
    (hnodup : todo.Nodup) (htodo : ∀ f ∈ todo, f ∈ s.database) :
    ∃ db', (todo.foldl (FuseCompress.purgeFile Γ env true) s).Leaving Γ q db' := by
  induction todo generalizing s db with
  | nil => exact ⟨db, h⟩
  | cons f todo ih =>
    obtain ⟨hnotin, hnodup'⟩ := List.nodup_cons.mp hnodup
    obtain ⟨⟨db', hone⟩, hkeeps⟩ := h.purgeFile (htodo f (List.mem_cons_self ..)) hdedup env
    refine ih hone hnodup' (fun g hg => ?_)
    exact hkeeps g (fun e => hnotin (e ▸ hg)) (htodo g (List.mem_cons_of_mem f hg))

theorem State.Leaving.destroyPurge (h : s.Leaving Γ q db) (hdedup : Γ.dedupEnabled = false) (env : Env) :
    ∃ db', (destroyPurge Γ env s).Leaving Γ q db' := by
  unfold FuseCompress.destroyPurge
  split
  · exact ⟨db, h⟩
  · exact h.purgeAll hdedup env s.database h.nodup (fun _ hf => hf)

section Unmounted

variable (hdedup : Γ.dedupEnabled = false) (hexact : ∀ m, (Γ.codec m).Exact) (hdefault : Γ.compressorDefault.Available Γ) (hq : q.Sound)

include hdedup hexact hdefault hq in
/-- The background thread works on the next entry of the queue. -/
theorem State.Leaving.threadCompress (he : env.AllOk) (h : s.Leaving Γ q db) : (threadCompress Γ env s).Leaving Γ q db := by
  have hqueue : ∀ c ∈ s.comp, c.isDedup = false := h.ready.tidy.queue
  have hdone := threadCompress_mirrors he hdedup hexact hdefault h.ready h.mirrors hq
  rw [threadCompress_listing _ _ hdedup hqueue] at hdone
  -- with its own database in place of another one
  have hsame := threadCompress_listing env s.database hdedup hqueue
  rw [listing_database] at hsame
  have hdb : (FuseCompress.threadCompress Γ env s).database = s.database := by
    rw [hsame]
    rfl
  refine ⟨hdone.1, hdone.2, fun d => ?_, ?_, ?_⟩
  · rw [descs_threadCompress hdedup hqueue]
    exact h.idle d
  · rw [hdb]
    exact h.sub
  · rw [hdb]
    exact h.nodup

include hdedup hexact hdefault hq in
theorem State.Leaving.drain {envs : Nat → Env} (he : ∀ k, (envs k).AllOk) (h : s.Leaving Γ q db) (k : Nat) :
    (drain Γ envs s k).Leaving Γ q db := by
  induction k with
  | zero => exact h
  | succ k ih => exact State.Leaving.threadCompress hdedup hexact hdefault hq (he k) ih

include hdedup hexact hdefault hq in
/-- However far the loop at unmount gets, the files are what the plain file system has. -/
theorem State.Leaving.destroyRounds {envs : Nat → Nat → Env} (he : ∀ n k, (envs n k).AllOk) (h : s.Leaving Γ q db) (n : Nat) :
    ∃ db', (destroyRounds Γ envs s n).Leaving Γ q db' := by
  induction n with
  | zero => exact ⟨db, h⟩
  | succ n ih =>
    obtain ⟨db', hrounds⟩ := ih
    obtain ⟨db'', hpurged⟩ := hrounds.destroyPurge hdedup (envs n 0)
    exact ⟨db'', State.Leaving.drain hdedup hexact hdefault hq (fun k => he n (k + 1)) hpurged _⟩

/-! ## Mounted again -/

/-- The books at the mount are empty. -/
theorem tidy_mounted (fs : Backing) : (State.mounted fs).books.Tidy (fun _ => 0) where
  balanced :=
    { accesses := fun _ => rfl
      mem_head := fun _ _ => ⟨fun hd => (nomatch hd), fun ⟨hlive, _⟩ => (nomatch hlive)⟩
      nodup := fun _ => List.nodup_nil
      live_lt := fun _ hlive => (nomatch hlive)
      fresh := fun _ _ => ⟨rfl, rfl, rfl⟩ }
  known _ hf := nomatch hf
  nodup := List.nodup_nil
  once _ hf := nomatch hf
  used _ hne := absurd rfl hne
  queue _ hc := nomatch hc

/-- A backing directory that has the files of the plain file system is mounted. -/
theorem Backing.Shows.mounted {b : Backing} (h : b.Shows Γ q) (hnext : q.nextDesc = 0) :
    (State.mounted b).Ready (fun _ => 0) ∧ (State.mounted b).Mirrors Γ q := by
  have hhomed : (State.mounted b).Homed (fun _ => True) := by
    refine ⟨h.named, fun _ _ hw => (nomatch hw), fun d hw => ?_⟩
    obtain ⟨_, hw⟩ := hw
    cases hw
  refine ⟨⟨tidy_mounted b, hhomed, h.single, h.flat, fun _ => rfl, fun _ _ => rfl⟩,
    ⟨hnext.symm, fun p hp => ⟨h.absent p hp, fun _ hf => (nomatch hf)⟩, fun p k hk => ?_, fun _ hf => (nomatch hf)⟩⟩
  obtain ⟨i, hino, hstored⟩ := h.stored p k hk
  exact ⟨i, hino, fun _ hf => (nomatch hf), fun _ => hstored⟩

/-- A file that is not open has its content on the disk. -/
theorem State.Mirrors.stored (hm : s.Mirrors Γ q) (h : s.Ready refs) {p : Filename} {k : Nat} (hk : q.file p = some k)
    (hopen : ¬s.hasOpen p) : ∃ i, s.fs.inoOf p = some i ∧ unpacked Γ (s.data i) = some (q.content k) := by
  obtain ⟨i, hshow⟩ := hm.shown p k hk
  refine ⟨i, hshow.ino, ?_⟩
  by_cases hany : ∃ f ∈ s.database, (s.files f).filename = p
  · obtain ⟨f, hf, rfl⟩ := hany
    have hnil : (s.files f).head = [] := by
      by_contra hne
      exact hopen ((h.hasOpen_iff hf).mpr hne)
    exact ((hshow.entry f hf rfl).closed hnil).1
  · exact hshow.free (fun f hf hname => hany ⟨f, hf, hname⟩)

/-- What the backing directory has when nothing is open. -/
theorem State.Mirrors.shows (hm : s.Mirrors Γ q) (h : s.Ready refs) (hidle : ∀ d, (s.descs d).live = false) : s.fs.Shows Γ q where
  named := h.homed.named
  single := h.single
  flat := h.flat
  absent p hp := (hm.absent p hp).1
  stored p k hk := hm.stored h hk (fun ⟨d, _, hlive, _⟩ => by
    rw [hidle d] at hlive
    cases hlive)

include hdedup hexact hdefault hq in
/-- The mount after an unmount shows the same files. -/
theorem remounted_mirrors (he : env.AllOk) (h : s.Ready (fun _ => 0)) (hm : s.Mirrors Γ q) (hclosed : s.closed) (rounds : Nat) :
    (remounted Γ env s rounds).Ready (fun _ => 0) ∧ (remounted Γ env s rounds).Mirrors Γ q.reset := by
  have hidle : ∀ d, (s.descs d).live = false := by
    intro d
    by_contra hlive
    have hd : (s.descs d).live = true := by simpa using hlive
    exact hlive (hclosed d (h.tidy.balanced.live_lt d hd))
  have hleaving : s.Leaving Γ q s.database := ⟨h, hm, hidle, fun _ hf => hf, h.tidy.nodup⟩
  obtain ⟨db, hleft⟩ := State.Leaving.destroyRounds hdedup hexact hdefault hq
    (fun n k => (he.of n).of k : ∀ n k, ((env.of n).of k).AllOk) hleaving rounds
  have hshows : ((destroyRounds Γ (fun n k => (env.of n).of k) s rounds).listing db).fs.Shows Γ q := hleft.mirrors.shows hleft.ready hleft.idle
  exact Backing.Shows.mounted (q := q.reset) ⟨hshows.named, hshows.single, hshows.flat, hshows.absent, hshows.stored⟩ rfl

end Unmounted

end FuseCompress
