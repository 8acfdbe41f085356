import FuseCompress.Lemmas.Background
import FuseCompress.Lemmas.Listing

/-!
# Background compression loses nothing

`do_compress` gives the lock of the file back while the module reads it. Whoever changes the file in the meantime asks for a
cancellation first, so a compression that has not been cancelled has read what the file holds (`Job.Read`).
-/

namespace FuseCompress

variable {vis : Filename → Prop} {s s' : State}

/-! ## A step while the module reads the file -/

section Window

variable {b b' : Books} {f : Nat} {k : Caller} {pc pc' : Pc} {w : WorkerPc}

theorem Books.Acked.status_ne {g : Nat} (h : b.Acked g b') (hne : f ≠ g) : b'.status f = b.status f := by
  rcases h with rfl | ⟨_, rfl⟩
  · rfl
  · exact Function.update_of_ne hne _ _

theorem Body.status_ne {g : Nat} (hb : Body b g k b' pc') (hne : k.stabile = true → f ≠ g) : b'.status f = b.status f := by
  cases hb with
  | done _ ha hsame _ =>
    cases hst : k.stabile with
    | true => exact ha.status_ne (hne hst)
    | false => rw [hsame hst]
  | _ => rfl

/-- Nobody acknowledges a cancellation while the background thread works on the file: who comes to it waits. -/
theorem ClientStep.cancelled {free : Bool} {wants : Nat → Prop} (hs : ClientStep free wants b pc b' pc') (hbusy : (b.status f).busy = true)
    (hlt : f < b.nextFile) (hrefs : pc.refs f = 0) (hdesc : ∀ d g, pc.desc = some (d, g) → g ≠ f) (hc : (b.status f).cancel = true) :
    (b'.status f).cancel = true := by
  have henter : ∀ {g : Nat} {k : Caller} {pc₁ : Pc}, Enter b g k b' pc₁ → (b'.status f).cancel = true := by
    intro g k pc₁ he
    cases he with
    | wait =>
      change (Function.update b.status g _ f).cancel = true
      rw [Function.update_apply]
      split
      · rfl
      · exact hc
    | body hidle hb =>
      rw [hb.status_ne (fun hst => ?_)]
      · exact hc
      · rintro rfl
        rw [hidle hst] at hbusy
        cases hbusy
  have hnew : ∀ {c : Books} {k : Caller} {pc₁ : Pc} (p : Filename), c.status = b.status → c.nextFile = b.nextFile →
      Body (c.newFile p) b.nextFile k b' pc₁ → (b'.status f).cancel = true := by
    intro c k pc₁ p h1 h2 hb
    rw [hb.status_ne (fun _ => Nat.ne_of_lt hlt)]
    change (Function.update c.status c.nextFile _ f).cancel = true
    rw [h2, Function.update_of_ne (Nat.ne_of_lt hlt), h1]
    exact hc
  cases hs with
  | found _ _ _ _ he => exact henter he
  | new _ _ hb => exact hnew (c := { b with entries := b.entries + 1 }) _ rfl rfl hb
  | @purgeUsed g todo k force _ _ => cases force <;> exact hc
  | purgeNew hb => exact hnew _ rfl rfl hb
  | wake _ _ he => exact henter he
  | @renamed src dst x y =>
    have hy : f ≠ y := by
      rintro rfl
      simp [Pc.refs] at hrefs
    change (Function.update b.status y _ f).cancel = true
    rw [Function.update_of_ne hy]
    exact hc
  | locked _ _ ha _ =>
    rw [ha.status_ne (Ne.symm (hdesc _ _ rfl))]
    exact hc
  | _ => exact hc

end Window

/-- What `compressor->compress` has read is what the file holds, as far as it has got. -/
structure Job.Read (s : State) (job : Job) (got : Bytes) (eof : Bool) : Prop where
  ino : s.fs.inoOf (s.files job.file).filename = some job.ino
  part : got = (s.data job.ino).take got.length
  whole : eof = true → got = s.data job.ino

/-- The file that is read stays the same. -/
theorem Job.Read.keep {job : Job} {got : Bytes} {eof : Bool} (h : job.Read s got eof)
    (hname : (s'.files job.file).filename = (s.files job.file).filename)
    (hino : s'.fs.inoOf (s.files job.file).filename = s.fs.inoOf (s.files job.file).filename)
    (hdata : s'.data job.ino = s.data job.ino) : job.Read s' got eof where
  ino := by rw [hname, hino, h.ino]
  part := by rw [hdata]; exact h.part
  whole he := by rw [hdata]; exact h.whole he

/-- The next piece of the file is read. -/
theorem Job.Read.next {job : Job} {got : Bytes} (h : job.Read s got false) :
    job.Read s (got ++ Bytes.slice (s.data job.ino) got.length pageSize) (Bytes.slice (s.data job.ino) got.length pageSize = []) := by
  have hgot : got ++ Bytes.slice (s.data job.ino) got.length pageSize = (s.data job.ino).take (got.length + pageSize) := by
    unfold Bytes.slice
    rw [List.take_add, ← h.part]
  refine ⟨h.ino, ?_, fun he => ?_⟩
  · rw [hgot, List.length_take, List.take_eq_take_min]
  · rw [decide_eq_true_eq] at he
    rw [he, List.append_nil]
    unfold Bytes.slice at he
    rw [List.take_eq_nil_iff] at he
    have hlen : (s.data job.ino).length ≤ got.length := by
      rcases he with he | he
      · exact absurd he (by decide)
      · exact List.drop_eq_nil_iff.mp he
    rw [h.part, List.take_of_length_le hlen]

/-- A step of a thread leaves a file alone that is busy and has no descriptor. -/
theorem ClientEffects.file_kept {pc : Pc} {f i : Nat} (he : ClientEffects vis s s' pc) (h : s.Homed vis) (hs : s.fs.Single vis)
    (hvis : ∀ p, vis p) (hf : f ∈ s.database) (hino : s.fs.inoOf (s.files f).filename = some i)
    (hnames : ∀ g ∈ s.database, (s.files g).filename = (s.files f).filename → g = f)
    (hlisted : ∀ g, g < s.nextFile → s.freed g = false → g ∈ s.database) (hbusy : (s.files f).status.busy = true)
    (hlock : (s.files f).locked = false) (hhead : ∀ d, (s.descs d).live = true → (s.descs d).file ≠ f)
    (hw : ∀ d buf offset g, pc = .fetched d (.write buf offset) g → (s.descs d).writable = true)
    (hpwrite : ∀ d g fd buf offset, pc = .pwriting d g (some fd) buf offset → fd.ino ≠ i) :
    s'.fs.inoOf (s.files f).filename = s.fs.inoOf (s.files f).filename ∧ s'.data i = s.data i := by
  cases he with
  | calm hc =>
    unfold State.data
    rw [hc.fs]
    exact ⟨rfl, rfl⟩
  | pwrite hpc e =>
    subst e
    exact ⟨rfl, (Backing.data_setData _ _ _ _).trans (if_neg (Ne.symm (hpwrite _ _ _ _ _ hpc)))⟩
  | @handler s₀ g w hworks he hpc =>
    obtain ⟨h₀, hfresh⟩ := hworks.start h (fun d hd => by
      obtain ⟨buf, offset, hpc⟩ := hpc d hd
      exact hw d buf offset _ hpc)
    -- the handler works on another entry, so under another name
    have hne : (s.files f).filename ≠ (s₀.files g).filename := by
      rcases hworks.entry with ⟨hlt, hfreed, hidle⟩ | ⟨-, hno⟩
      · rw [hworks.calm.filename g hlt]
        intro hn
        have e := hnames g (hlisted g hlt hfreed) hn.symm
        subst e
        rcases hidle with hidle | ⟨d, hlive, hfile⟩ | hlocked
        · rw [hidle] at hbusy
          cases hbusy
        · exact hhead d hlive hfile
        · exact Bool.false_ne_true (hlock.symm.trans hlocked)
      · exact hno f hf
    have hbefore : s₀.Elsewhere g s.fs.next w (s.files f).filename i (s.data i) := by
      refine ⟨hne, ?_, h.named _ i hino, ?_, fun _ hn => ?_⟩
      · rw [hworks.calm.fs]
        exact hino
      · unfold State.data
        rw [hworks.calm.fs]
      · rw [hworks.calm.fs] at hn
        exact hne (hs _ _ i (hvis _) (hvis _) hino hn)
    have hafter := he.elsewhere h₀ hfresh (hvis _) hbefore
    exact ⟨hafter.ino.trans hino.symm, hafter.data⟩

/-! ## Reading -/

/-- `do_compress` starts to read the file that the entry's name refers to. -/
theorem doCompressBegin_read {Γ : Config} {env : Env} {f : Nat} {job : Job} (h : doCompressBegin Γ env s f = (s', some job)) :
    job.file = f ∧ s.fs.inoOf (s.files f).filename = some job.ino := by
  unfold doCompressBegin at h
  split at h
  · cases h
  · rename_i i hi
    dsimp only at h
    split at h
    · cases h
    · generalize (if headerSize ≤ _ ∧ env.ok .readHeader then _ else s) = s₁ at h
      split at h
      · cases h
      · split at h
        · cases h
        · split at h
          · cases h
          · cases h
            refine ⟨rfl, ?_⟩
            split at hi
            · exact hi
            · cases hi

/-- A compression starts with nothing read, and goes on with the next piece. -/
theorem workerStep_read {Γ : Config} {env : Env} {w : WorkerPc} {job : Job} {got : Bytes} {eof : Bool}
    (h : workerStep Γ env s w = some (s', .compressing job got eof)) (hhash : ∀ f pc, w ≠ .hashing f pc)
    (hold : ∀ job got, w = .compressing job got false → (s.files job.file).status.cancel = false → job.Read s got false)
    (hc : (s'.files job.file).status.cancel = false) :
    job.Read s' got eof := by
  cases w with
  | idle =>
    rw [workerStep, Option.map_eq_some_iff] at h
    obtain ⟨r, -, e⟩ := h
    cases e
  | dequeued f isDedup =>
    rw [workerStep] at h
    split at h
    · unfold workerProcess at h
      dsimp only at h
      have hassert : Calm none s (s.assert Γ (decide ((s.files f).accesses > 0))) := calm_assert Γ _
      have hfiles : (s.assert Γ (decide ((s.files f).accesses > 0))).files = s.files := State.files_assert _ _ _
      generalize s.assert Γ (decide ((s.files f).accesses > 0)) = s₁ at h hassert hfiles
      split at h
      · split at h
        · cases h
        · cases h
      · split at h
        · have hcalm : Calm none s₁ (doCompressBegin Γ env s₁ f).1 := calm_doCompressBegin Γ env s₁ f
          have hname : ∀ g, ((doCompressBegin Γ env s₁ f).1.files g).filename = (s₁.files g).filename := by
            intro g
            rcases books_doCompressBegin Γ env s₁ f with ⟨-, hb⟩ | ⟨job, -, -, hb⟩
            · exact congrFun (congrArg Books.filename hb) g
            · exact congrFun (congrArg Books.filename hb) g
          split at h
          · rename_i s₂ job' e
            rw [e] at hcalm hname
            obtain ⟨hfile, hino⟩ := doCompressBegin_read e
            cases h
            refine ⟨?_, rfl, fun he => by cases he⟩
            rw [hname, hcalm.fs, hfile]
            exact hino
          · cases h
        · cases h
    · cases h
  | compressing job' got' eof' =>
    rw [workerStep] at h
    split at h
    · rename_i hgo
      rw [Bool.and_eq_true, Bool.not_eq_true'] at hgo
      cases h
      exact (hold _ _ (by rw [hgo.2]) hc).next
    · split at h
      · cases h
      · cases h
  | hashing f pc => exact absurd rfl (hhash f pc)

section System

variable {T : Type} [Fintype T] [DecidableEq T] {Γ : Config} {sys sys' : Sys T} {l : Label T}

/-- What holds of a mount without deduplication while files have one name each. -/
structure Sys.Background (sys : Sys T) : Prop where
  orderly : sys.Orderly (fun _ => True)
  guarded : sys.Guarded
  single : sys.shared.fs.Single (fun _ => True)
  queue : ∀ c ∈ sys.shared.comp, c.isDedup = false
  worker : (∀ f, sys.worker ≠ .dequeued f true) ∧ ∀ f pc, sys.worker ≠ .hashing f pc
  reads : ∀ job got eof, sys.worker = .compressing job got eof → (sys.shared.files job.file).status.cancel = false →
    job.Read sys.shared got eof

omit [DecidableEq T] in
/-- The file that is being compressed has an entry, is busy, and nobody else uses it. -/
theorem Sys.Background.alone (h : sys.Background) {job : Job} {got : Bytes} {eof : Bool} (hw : sys.worker = .compressing job got eof) :
    job.file ∈ sys.shared.database ∧ (sys.shared.files job.file).status.busy = true ∧
      (∀ d, (sys.shared.descs d).live = true → (sys.shared.descs d).file ≠ job.file) ∧ ∀ t, (sys.clients t).refs job.file = 0 := by
  have hwindow : sys.worker.window = some job.file := by
    rw [hw]
    rfl
  have hone : sys.shared.books.accesses job.file = 1 := h.guarded.windowed.alone _ hwindow
  have hrefs : sys.worker.refs job.file = 1 := WorkerPc.refs_of_window hwindow
  have hcount := h.guarded.counted.balanced.accesses job.file
  rw [hone] at hcount
  unfold Sys.refs at hcount
  have hlen : (sys.shared.books.head job.file).length = 0 := by omega
  have hsum : ∑ t, (sys.clients t).refs job.file = 0 := by omega
  refine ⟨?_, h.guarded.windowed.busy_iff.mpr hwindow, fun d hlive hfile => ?_, fun t => ?_⟩
  · refine h.orderly.filed.listed h.orderly.unique ?_
    change sys.shared.books.accesses job.file ≠ 0
    rw [hone]
    decide
  · have hm : d ∈ sys.shared.books.head job.file := (h.guarded.counted.balanced.mem_head _ d).mpr ⟨hlive, hfile⟩
    rw [List.eq_nil_of_length_eq_zero hlen] at hm
    cases hm
  · exact Finset.sum_eq_zero_iff.mp hsum t (Finset.mem_univ t)

omit [DecidableEq T] in
/-- Nothing is written to the file that is being compressed. -/
theorem Sys.Background.pwrite_ne (h : sys.Background) {job : Job} {got : Bytes} {eof : Bool} (hw : sys.worker = .compressing job got eof)
    (hino : sys.shared.fs.inoOf (sys.shared.files job.file).filename = some job.ino) {t : T} {d g offset : Nat} {fd : Fd} {buf : Bytes}
    (hpc : sys.clients t = .pwriting d g (some fd) buf offset) : fd.ino ≠ job.ino := by
  obtain ⟨hmem, -, hfree, -⟩ := h.alone hw
  intro e
  have hname := (h.orderly.homed.pwrites t d g fd buf offset hpc).names _ trivial (e ▸ hino)
  obtain ⟨hlive, hfile⟩ := h.guarded.counted.desc t d g (by rw [hpc]; rfl)
  have hg : g ∈ sys.shared.database := by
    refine h.orderly.filed.listed h.orderly.unique ?_
    have hm : d ∈ sys.shared.books.head g := (h.guarded.counted.balanced.mem_head g d).mpr ⟨hlive, hfile⟩
    have hpos := List.length_pos_of_mem hm
    have hcount := h.guarded.counted.balanced.accesses g
    change sys.shared.books.accesses g ≠ 0
    omega
  have hsame := h.orderly.unique.names job.file hmem g hg hname
  exact hfree d hlive (hfile.trans hsame.symm)

omit [DecidableEq T] in
theorem Sys.background_mounted {fs : Backing} (h : ∀ p i, fs.inoOf p = some i → i < fs.next) (hs : fs.Single (fun _ => True)) :
    (Sys.mounted fs : Sys T).Background where
  orderly := Sys.orderly_mounted h
  guarded := Sys.guarded_mounted fs
  single := hs
  queue c hc := by cases hc
  worker := ⟨fun f hf => (by cases hf), fun f pc hf => (by cases hf)⟩
  reads job got eof hf := by cases hf

/-- Every step keeps the background thread and the requests apart. -/
theorem Sys.Background.step (h : sys.Background) (hd : Γ.dedupEnabled = false) (hok : sys.Promised l) (hplain : l.plain = true)
    (hs : sys.step Γ l = some sys') : sys'.Background := by
  have hopens : ∀ env full, Opens Γ env (fun _ => True) sys.shared.fs full := by
    intro env full s f hfs hfull s₁ hs₁ i hi p _ hp
    unfold openUndedup at hs₁
    rw [hd, if_neg (by simp)] at hs₁
    cases hs₁
    rw [hfs] at hi hp
    exact h.single p _ i trivial trivial hp hi
  have hnohash : ∀ f pc, sys.worker ≠ .hashing f pc := h.worker.2
  have horderly := h.orderly.step hok hplain (fun hd' => by rw [hd] at hd'; cases hd') (fun t env _ full _ => hopens env full)
    (fun env f hash _ => hnohash f _) hs
  have hguarded : sys'.Guarded := by
    refine h.guarded.step ⟨⟨hok, (h.orderly.homed.promises Γ l).2⟩, ?_⟩ hs
    cases l with
    | worker env =>
      change sys.worker.readable Γ env sys.shared = true
      unfold WorkerPc.readable
      split
      · rename_i f pc hw
        exact absurd hw (hnohash f pc)
      · rfl
    | _ => trivial
  rcases Sys.step_cases hs with ⟨t, r, last, rfl, hidle, rfl⟩ | ⟨t, env, s, pc, rfl, hstep, hc, rfl⟩ |
    ⟨env, s, w, rfl, hstep, hw, rfl⟩ | ⟨rfl, rfl⟩
  · exact ⟨horderly, hguarded, h.single, h.queue, h.worker, h.reads⟩
  · have he := clientStep_effects (h.orderly.knows t) (h.orderly.homed.plain t) (fun hd' => by rw [hd] at hd'; cases hd')
      (fun full _ => hopens env full) (h.orderly.homed.undeduped t) hstep
    refine ⟨horderly, hguarded, he.single h.orderly.homed.shared h.single (h.orderly.homed.requests t), hc.undeduped hd hstep h.queue,
      h.worker, fun job got eof hjob hcancel => ?_⟩
    obtain ⟨hmem, hbusy, hhead, hrefs⟩ := h.alone hjob
    have hlt : job.file < sys.shared.nextFile := h.guarded.counted.listed_lt _ hmem
    have hbefore : (sys.shared.files job.file).status.cancel = false := by
      rw [← Bool.not_eq_true]
      intro htrue
      have hafter := hc.cancelled hbusy hlt (hrefs t) (fun d g hpc e => ?_) htrue
      · have hcancel' : (s.books.status job.file).cancel = false := hcancel
        rw [hcancel'] at hafter
        cases hafter
      · subst e
        obtain ⟨hlive, hfile⟩ := h.guarded.counted.desc t d _ hpc
        exact hhead d hlive hfile
    have hread := h.reads job got eof hjob hbefore
    have hlock : (sys.shared.files job.file).locked = false := h.guarded.windowed.locked _ (congrArg WorkerPc.window hjob)
    obtain ⟨hino, hdata⟩ := he.file_kept h.orderly.homed.shared h.single (fun _ => trivial) hmem hread.ino
      (fun g hg hn => h.orderly.unique.names g hg _ hmem hn)
      (fun g hg hfr => (h.orderly.unique.complete g hg).resolve_right (by
        change ¬sys.shared.freed g = true
        rw [hfr]
        decide))
      hbusy hlock hhead (h.orderly.homed.requests t) (fun d g fd buf offset hpc => h.pwrite_ne hjob hread.ino hpc)
    exact hread.keep (hc.keeps.filename _ hlt) hino hdata
  · obtain ⟨-, -, hsingle⟩ := h.orderly.worker (fun f hash => hnohash f _) hstep hw
    obtain ⟨hqueue, hworker⟩ := hw.undeduped h.queue h.worker
    refine ⟨horderly, hguarded, hsingle h.single, hqueue, hworker, fun job got eof hjob hcancel => ?_⟩
    change w = .compressing job got eof at hjob
    subst hjob
    exact workerStep_read hstep hnohash (fun job got hold hc => h.reads job got false hold hc) hcancel
  · exact ⟨horderly, hguarded, h.single, h.queue, h.worker, fun job got eof hjob hcancel =>
      ⟨(h.reads job got eof hjob hcancel).ino, (h.reads job got eof hjob hcancel).part, (h.reads job got eof hjob hcancel).whole⟩⟩

end System

/-! ## The end of a compression -/

/-- `do_compress` has put the compressed file in place: nobody has asked for a cancellation, the file has been read to its end, and
only its name has changed. -/
theorem doCompressEnd_installed {Γ : Config} {env : Env} {job : Job} {got : Bytes} {eof : Bool}
    (h : doCompressEnd Γ env s job got eof = (s', true)) :
    eof = true ∧ (s.files job.file).status.cancel = false ∧
      s'.fs.inoOf (s.files job.file).filename = some s.fs.next ∧
      s'.data s.fs.next = header job.compressor got.length ++ (Γ.codec job.compressor).pack got ∧
      (∀ q, q ≠ (s.files job.file).filename → s'.fs.inoOf q = s.fs.inoOf q) ∧ ∀ j, j < s.fs.next → s'.data j = s.data j := by
  unfold doCompressEnd at h
  dsimp only at h
  split at h
  · cases h
  · rename_i hgo
    rw [not_or, not_or, not_not, Bool.not_eq_true] at hgo
    obtain ⟨heof, hsize, hcancel⟩ := hgo
    rw [Bool.not_eq_false, Bool.and_eq_true] at heof
    split at h
    · cases h
    · split at h
      · cases h
      · cases h
        refine ⟨heof.2, hcancel, ?_⟩
        unfold doCompressInstall
        dsimp only
        rw [hsize]
        generalize header job.compressor job.size ++ (Γ.codec job.compressor).pack got = data
        generalize hs₁ : discard Γ _ job.file = s₁
        have hname : ((s.modFile job.file (fun file => { file with status := file.status.endCompressing })).files job.file).filename =
            (s.files job.file).filename := by
          rw [State.files_modFile, if_pos rfl]
        have hfs : ∃ a, s₁.fs = (s.fs.alloc data a).setName (s.files job.file).filename s.fs.next := by
          refine ⟨copyOwnerMode env job.attr (tempAttr Γ s.fs), ?_⟩
          rw [← hs₁, (calm_discard (w := none) Γ _ job.file).fs, ← hname]
          rfl
        obtain ⟨a, hfs⟩ := hfs
        have hinode : ∀ j, ((if env.ok .utime then s₁.withFs (fun b => b.utime s.fs.next job.attr) else s₁).data j) = s₁.data j := by
          intro j
          split
          · exact Backing.data_setAttr _ _ _ _
          · rfl
        have hino : ∀ q, (if env.ok .utime then s₁.withFs (fun b => b.utime s.fs.next job.attr) else s₁).fs.inoOf q = s₁.fs.inoOf q := by
          intro q
          split <;> rfl
        refine ⟨?_, ?_, fun q hq => ?_, fun j hj => ?_⟩
        · rw [State.fs_modFile, hino, hfs, Backing.inoOf_setName, if_pos rfl]
        · rw [State.fs_modFile, hinode]
          unfold State.data
          rw [hfs, Backing.inodes_setName, Backing.inodes_alloc, if_pos rfl]
        · rw [State.fs_modFile, hino, hfs, Backing.inoOf_setName, if_neg hq]
          rfl
        · rw [State.fs_modFile, hinode]
          unfold State.data
          rw [hfs, Backing.inodes_setName, Backing.inodes_alloc, if_neg (Nat.ne_of_lt hj)]

/-- In every run of plain requests without deduplication, from a backing directory without hard links: when `do_compress` puts its
file in place, the path refers to a file whose contents are what the module has read, no descriptor is open on it, and the
compressed file of these contents takes its place; every other name refers to what it referred to before. -/
theorem compress_loses_nothing {T : Type} [Fintype T] [DecidableEq T] {Γ : Config} {env : Env} {fs : Backing} {ls : List (Label T)}
    {sys : Sys T} {job : Job} {got : Bytes} {eof : Bool} {s' : State} (hd : Γ.dedupEnabled = false)
    (hfs : ∀ p i, fs.inoOf p = some i → i < fs.next) (hsingle : fs.Single (fun _ => True))
    (h : Run (Sys.step Γ) (fun sys l => sys.Promised l ∧ l.plain = true) (Sys.mounted fs) ls sys)
    (hw : sys.worker = .compressing job got eof) (hend : doCompressEnd Γ env sys.shared job got eof = (s', true)) :
    (∃ i, sys.shared.fs.inoOf (sys.shared.files job.file).filename = some i ∧ sys.shared.data i = got) ∧
      (∀ d, (sys.shared.descs d).live = true →
        (sys.shared.files (sys.shared.descs d).file).filename ≠ (sys.shared.files job.file).filename) ∧
      (∃ j, s'.fs.inoOf (sys.shared.files job.file).filename = some j ∧
        s'.data j = header job.compressor got.length ++ (Γ.codec job.compressor).pack got) ∧
      ∀ q i, q ≠ (sys.shared.files job.file).filename → sys.shared.fs.inoOf q = some i →
        s'.fs.inoOf q = some i ∧ s'.data i = sys.shared.data i := by
  have hinv : sys.Background := h.invariant (I := Sys.Background)
    (fun _ _ _ hb hok hs => hb.step hd hok.1 hok.2 hs) (Sys.background_mounted hfs hsingle)
  obtain ⟨rfl, hcancel, hino, hdata, hother, hold⟩ := doCompressEnd_installed hend
  obtain ⟨hmem, -, hhead, -⟩ := hinv.alone hw
  have hread := hinv.reads job got true hw hcancel
  refine ⟨⟨job.ino, hread.ino, (hread.whole rfl).symm⟩, fun d hlive hname => ?_, ⟨_, hino, hdata⟩, fun q i hq hi => ?_⟩
  · have hone := hinv.orderly.filed.oneEntry hinv.orderly.unique
    exact hhead d hlive (hone.names _ (hone.open_listed d hlive) _ hmem hname)
  · rw [hother q hq]
    exact ⟨hi, hold i (hinv.orderly.homed.shared.named q i hi)⟩

/-- A file is looked at, queued by a purge, and read by the background thread to its end. -/
def compressOne {T : Type} (t : T) : List (Label T) :=
  [.request t (.getattr ['a']), .client t .fine, .client t .fine,
   .request t .purge, .client t .fine, .client t .fine, .client t .fine,
   .worker .fine, .worker .fine, .worker .fine, .worker .fine]

/-- The background thread is about to put a compressed file in place. -/
def Sys.installs {T : Type} (Γ : Config) (env : Env) (sys : Sys T) : Bool :=
  match sys.worker with
  | .compressing job got eof => (doCompressEnd Γ env sys.shared job got eof).2
  | _ => false

theorem Backing.inoOf_oneFile {p : Filename} {i : Nat} (h : Backing.oneFile.inoOf p = some i) : p = ['a'] ∧ i = 0 := by
  rw [Backing.inoOf_eq_some] at h
  unfold Backing.find Backing.oneFile at h
  rw [Assoc.find_cons] at h
  split at h
  · rename_i e
    cases h
    exact ⟨e.symm, rfl⟩
  · cases h

theorem compress_loses_nothing_compressOne : ∃ (sys : Sys (Fin 1)) (job : Job) (got : Bytes) (eof : Bool) (s' : State),
    Run (Sys.step .anySize) (fun sys l => sys.Promised l ∧ l.plain = true) (Sys.mounted .oneFile) (compressOne 0) sys ∧
      sys.worker = .compressing job got eof ∧ doCompressEnd .anySize .fine sys.shared job got eof = (s', true) ∧
      ∃ i, sys.shared.fs.inoOf (sys.shared.files job.file).filename = some i ∧ sys.shared.data i = got := by
  obtain ⟨sys, h, hend⟩ := Run.exists_of_executeIf (show (executeIf (Sys.step .anySize)
    (fun sys l => sys.Promised l ∧ l.plain = true) (Sys.mounted .oneFile : Sys (Fin 1)) (compressOne 0)).any
      (Sys.installs .anySize .fine) = true by decide +kernel)
  unfold Sys.installs at hend
  split at hend
  · rename_i job got eof hw
    have hend' : doCompressEnd .anySize .fine sys.shared job got eof =
        ((doCompressEnd .anySize .fine sys.shared job got eof).1, true) := Prod.ext rfl hend
    refine ⟨sys, job, got, eof, _, h, hw, hend', (compress_loses_nothing rfl ?_ ?_ h hw hend').1⟩
    · intro p i hi
      rw [(Backing.inoOf_oneFile hi).2]
      decide
    · intro p q i _ _ hp hq
      rw [(Backing.inoOf_oneFile hp).1, (Backing.inoOf_oneFile hq).1]
  · cases hend

end FuseCompress
