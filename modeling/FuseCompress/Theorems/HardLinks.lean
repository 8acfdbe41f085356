import FuseCompress.Lemmas.Shown
import FuseCompress.Theorems.Compression

/-!
# Hard links stay hard links

Two names of one inode stay names of one inode as long as nothing is compressed or decompressed through one of them, and they show the
same as long as neither entry remembers what the file was before a change through the other. Nothing checks that: the flag
`dontcompress` is looked at only when a file is written to, and not by the background thread.
-/

namespace FuseCompress

variable {Γ : Config} {env : Env} {s s' : State} {f : Nat} {called : Bool}

/-! ## What a name shows -/

/-- What the bytes of a file show: their number and the bytes themselves, or the size in the header and the stream unpacked. -/
def shownBy (Γ : Config) (data : Bytes) : Int × Option Bytes :=
  match parse Γ data with
  | none => ((data.length : Int), some data)
  | some (m, n) => (n, (Γ.codec m).decode (data.drop headerSize))

/-- A name whose entry is right about the file shows what the file holds. -/
theorem State.Alike.shown {a b p : Filename} {i : Nat} (h : s.Alike Γ a b i) (hp : p = a ∨ p = b) (hino : s.fs.inoOf p = some i) :
    s.shown Γ p = some (shownBy Γ (s.data i)) := by
  have hentry : ∀ f, findFile s p = some f → (s.files f).Current Γ (s.data i) := by
    intro f hf
    refine h.current f ⟨List.mem_of_find?_eq_some hf, ?_⟩
    have hname : (s.files f).filename = p := of_decide_eq_true (List.find?_some (p := fun f => decide ((s.files f).filename = p)) hf)
    rw [hname]
    exact hp
  have hsize : s.reportedSize Γ p i = (shownBy Γ (s.data i)).1 := by
    have hunknown : ((parse Γ (s.data i)).map Prod.snd).getD ((s.data i).length : Int) = (shownBy Γ (s.data i)).1 := by
      unfold shownBy
      cases parse Γ (s.data i) <;> rfl
    unfold State.reportedSize
    split
    · rename_i f hf
      rw [Option.filter_eq_some_iff, decide_eq_true_eq] at hf
      obtain ⟨hf, hknown⟩ := hf
      have hcurrent := hentry f hf
      have hmodule := hcurrent.module.resolve_right (fun h => hknown h.2.1)
      have hread := hcurrent.size.resolve_left hknown
      unfold shownBy
      cases hparse : parse Γ (s.data i) with
      | none =>
        rw [hparse, Option.map_none] at hmodule
        rw [if_pos hmodule]
      | some r =>
        rw [hparse] at hmodule
        rw [if_neg (by rw [hmodule]; exact Option.some_ne_none _)]
        exact hread r.1 r.2 hparse
    · exact hunknown
  have hmodule : s.readModule Γ p i = (parse Γ (s.data i)).map Prod.fst := by
    unfold State.readModule
    split
    · rename_i f hf
      rw [Option.filter_eq_some_iff, decide_eq_true_eq] at hf
      obtain ⟨hf, hopen⟩ := hf
      exact (hentry f hf).module.resolve_right (fun h => hopen h.2.2)
    · rfl
  unfold State.shown
  rw [hino, Option.map_some, hsize, hmodule]
  unfold shownBy
  cases parse Γ (s.data i) <;> rfl

/-- The size that a name shows is the one that `getattr` replies with. -/
theorem getattrLocked_reports {p : Filename} {i : Nat} {st : Stat} (henv : env.AllOk) (hfind : findFile s p = some f)
    (hino : s.fs.inoOf p = some i) (hsize : st.size = (s.data i).length) (hlength : (s.data i).length < 2 ^ 64) :
    (getattrLocked Γ env s f p st).2 =
      .stat { st with size := s.reportedSize Γ p i, nlink := if Γ.dedupEnabled then 1 else st.nlink } := by
  have hunsigned : asU64 st.size = (s.data i).length := by
    rw [hsize]
    unfold asU64
    omega
  unfold getattrLocked State.reportedSize
  dsimp only
  generalize (if Γ.dedupEnabled then 1 else st.nlink) = nlink
  rw [hunsigned]
  by_cases hknown : (s.files f).size = -1
  · have hentry : (findFile s p).filter (fun f => (s.files f).size ≠ -1) = none := by
      rw [hfind]
      simp [hknown]
    rw [if_pos hknown, hentry]
    split
    · rename_i hlong
      rw [if_pos ⟨henv _, henv _⟩, hino]
      dsimp only
      rw [if_neg (by rw [henv]; exact Bool.noConfusion)]
      have hread : (fileReadHeader Γ (s.data i) (s.files f).compressor st.size).2 =
          ((parse Γ (s.data i)).map Prod.snd).getD ((s.data i).length : Int) := by
        unfold fileReadHeader parse
        rw [if_neg (Nat.not_lt.mpr hlong), if_neg (Nat.not_lt.mpr hlong)]
        cases fileCompressor Γ (s.data i) with
        | none => exact hsize
        | some m => rfl
      rw [hread]
    · rename_i hshort
      unfold parse
      rw [if_pos (Nat.lt_of_not_le hshort)]
      dsimp only
      rw [Option.map_none, Option.getD_none, ← hsize]
  · have hentry : (findFile s p).filter (fun f => (s.files f).size ≠ -1) = some f := by
      rw [hfind]
      simp [hknown]
    rw [if_neg hknown, hentry]
    dsimp only
    by_cases hm : (s.files f).compressor = none
    · rw [if_neg (not_not.mpr hm), if_pos hm, ← hsize]
    · rw [if_pos hm, if_neg hm]

/-! ## Requests that leave the names alone -/

theorem takeRequest_inPlace (Γ : Config) (s : State) {r : Request} (h : r.inPlace = true) : (takeRequest Γ s r).inPlace = true := by
  cases r with
  | getattr full => rfl
  | truncate full size => rfl
  | «open» full writable => rfl
  | desc d op => rfl
  | purge => rfl
  | sigterm => rfl
  | _ => cases h

/-- A thread that has just taken a request has not looked at the file. -/
theorem takeRequest_looked (Γ : Config) (s : State) (r : Request) : (takeRequest Γ s r).looked = none := by
  cases r with
  | _ => rfl

theorem callerBody_replaces (hd : Γ.dedupEnabled = false) (env : Env) (s : State) (f : Nat) {k : Caller} (hk : k.inPlace = true) :
    Replaces Γ (callerDecompresses Γ s f k) s (callerBody Γ env s f k).1 f ∧ (callerBody Γ env s f k).2.inPlace = true := by
  cases k with
  | getattr full st => exact ⟨.of_names (names_calm (w := none) (calm_getattrLocked Γ env s f full st)), rfl⟩
  | truncate full size => exact ⟨truncateLocked_replaces Γ env s f full size, rfl⟩
  | «open» full writable =>
    have hundedup : openUndedup Γ env s f writable = (s, true) := by
      unfold openUndedup
      rw [hd]
      exact if_neg (fun h => Bool.noConfusion h.1)
    rw [callerBody, openBody_whole (by rw [hd]; exact fun h => Bool.noConfusion h.1)]
    refine ⟨.of_names ?_, rfl⟩
    change (openLocked Γ env s f full writable).1.fs.names = s.fs.names
    unfold openLocked
    rw [hundedup]
    exact names_openFile Γ env s f full writable
  | _ => cases hk

theorem directOpenWait_replaces (hd : Γ.dedupEnabled = false) (env : Env) (s : State) (f : Nat) {k : Caller} (hk : k.inPlace = true) :
    Replaces Γ (waitDecompresses Γ s f k) s (directOpenWait Γ env s f k).1 f ∧ (directOpenWait Γ env s f k).2.inPlace = true := by
  unfold waitDecompresses directOpenWait
  split
  · exact ⟨.of_names rfl, hk⟩
  · rename_i hready
    rw [Bool.not_eq_true] at hready
    rw [hready]
    exact callerBody_replaces hd env s f hk

/-- A new entry has no module, so its file is not decompressed. -/
theorem directOpenNew_names (hd : Γ.dedupEnabled = false) (env : Env) (s : State) {k : Caller} (hk : k.inPlace = true) :
    (directOpenNew Γ env s k).1.fs.names = s.fs.names ∧ (directOpenNew Γ env s k).2.inPlace = true := by
  obtain ⟨hreplaces, hplace⟩ := callerBody_replaces hd env (directOpenAdd Γ s k.filename) s.nextFile hk
  have hnone : callerDecompresses Γ (directOpenAdd Γ s k.filename) s.nextFile k = false := by
    unfold callerDecompresses discard
    rw [hd]
    cases k with
    | truncate full size =>
      have hm : ((directOpenAdd Γ s full).files s.nextFile).compressor = none := by
        unfold directOpenAdd
        dsimp only
        rw [Function.update_self]
        rfl
      change (decide (size > 0) && ((directOpenAdd Γ s full).files s.nextFile).compressor.isSome) = false
      rw [hm]
      exact Bool.and_false _
    | _ => rfl
  rcases hreplaces with hnames | ⟨hcalled, -⟩
  · exact ⟨hnames, hplace⟩
  · rw [hnone] at hcalled
    cases hcalled

/-! ## A step of a thread -/

/-- What a step of a thread does to the names. -/
def StepReplaces (Γ : Config) (s s' : State) (called : Option Nat) : Prop :=
  s'.fs.names = s.fs.names ∨ ∃ f, called = some f ∧ Replaces Γ true s s' f

theorem Replaces.step (h : Replaces Γ called s s' f) : StepReplaces Γ s s' (if called then some f else none) := by
  rcases h with hnames | ⟨hcalled, hreplaced⟩
  · exact Or.inl hnames
  · exact Or.inr ⟨f, if_pos hcalled, Or.inr ⟨rfl, hreplaced⟩⟩

theorem directOpenStart_replaces (hd : Γ.dedupEnabled = false) {k : Caller} (hk : k.inPlace = true) {pc : Pc}
    (h : directOpenStart Γ env s k = some (s', pc)) :
    StepReplaces Γ s s' ((findFile s k.filename).filter (fun f => waitDecompresses Γ (directOpenFound s f) f k)) ∧ pc.inPlace = true := by
  unfold directOpenStart at h
  cases hfind : findFile s k.filename with
  | some f =>
    rw [hfind] at h
    dsimp only at h
    split at h
    · have hcalm : Calm none s (directOpenFound s f) := calm_modFile f (fun _ => rfl)
      have hname : ((directOpenFound s f).files f).filename = (s.files f).filename := by
        unfold directOpenFound
        rw [State.files_modFile, if_pos rfl]
      obtain ⟨hreplaces, hplace⟩ := directOpenWait_replaces hd env (directOpenFound s f) f hk
      have hstep := (hreplaces.before hcalm.fs hname).step
      generalize directOpenWait Γ env (directOpenFound s f) f k = r at h hstep hplace
      cases h
      exact ⟨hstep, hplace⟩
    · cases h
  | none =>
    rw [hfind] at h
    dsimp only at h
    split at h
    · cases h
      exact ⟨Or.inl rfl, hk⟩
    · obtain ⟨hnames, hplace⟩ := directOpenNew_names hd env { s with entries := s.entries + 1 } hk
      generalize directOpenNew Γ env { s with entries := s.entries + 1 } k = r at h hnames hplace
      cases h
      exact ⟨Or.inl hnames, hplace⟩

/-- A step of a thread replaces an inode only when it calls `do_decompress`. -/
theorem clientStep_replaces (hd : Γ.dedupEnabled = false) {free : Bool} {pc pc' : Pc} (hpc : pc.inPlace = true)
    (h : clientStep Γ env free s pc = some (s', pc')) : StepReplaces Γ s s' (clientDecompresses Γ s pc) ∧ pc'.inPlace = true := by
  cases pc with
  | idle last => cases h
  | getattrStat full =>
    rw [clientStep] at h
    split at h
    · have hmagic := names_calm (w := none) (calm_getattrMagic s full)
      generalize getattrMagic s full = r at h hmagic
      cases h
      exact ⟨Or.inl hmagic, rfl⟩
    · split at h
      · cases h
        exact ⟨Or.inl rfl, rfl⟩
      · cases h
        exact ⟨Or.inl rfl, rfl⟩
      · cases h
        exact ⟨Or.inl rfl, rfl⟩
  | purgeStart force =>
    rw [clientStep] at h
    split at h
    · cases h
      exact ⟨Or.inl rfl, rfl⟩
    · cases h
  | opening k =>
    rw [clientStep] at h
    split at h
    · exact directOpenStart_replaces hd hpc h
    · cases h
  | purging todo k force =>
    cases todo with
    | cons f todo =>
      rw [clientStep] at h
      split at h
      · cases h
      split at h
      · cases h
      · have hpurge := names_calm (w := none) (calm_purgeFile Γ env s force f)
        generalize purgeFile Γ env force s f = s₁ at h hpurge
        cases h
        exact ⟨Or.inl hpurge, hpc⟩
    | nil =>
      cases k with
      | none =>
        cases h
        exact ⟨Or.inl rfl, rfl⟩
      | some k =>
        have hk : k.inPlace = true := hpc
        obtain ⟨hnames, hplace⟩ := directOpenNew_names hd env s hk
        rw [clientStep] at h
        generalize directOpenNew Γ env s k = r at h hnames hplace
        cases h
        exact ⟨Or.inl hnames, hplace⟩
  | waiting k f seen =>
    rw [clientStep] at h
    split at h
    · obtain ⟨hreplaces, hplace⟩ := directOpenWait_replaces hd env s f (k := k) hpc
      have hstep := hreplaces.step
      generalize directOpenWait Γ env s f k = r at h hstep hplace
      cases h
      exact ⟨hstep, hplace⟩
    · cases h
  | fetched d op f =>
    rw [clientStep] at h
    split at h
    · have hstep := (descLocked_replaces Γ env s d f op).step
      have hplace : (descLocked Γ env s d f op).2.inPlace = true := by
        cases op with
        | read size offset =>
          unfold descLocked
          dsimp only
          split
          · split
            · rfl
            · rfl
          · rfl
        | write buf offset =>
          unfold descLocked
          dsimp only
          split
          · split
            · rfl
            · rfl
          · rfl
        | release => rfl
      generalize descLocked Γ env s d f op = r at h hstep hplace
      cases h
      exact ⟨hstep, hplace⟩
    · cases h
  | preading d f fd size offset served relock =>
    cases h
    exact ⟨Or.inl rfl, rfl⟩
  | preaded d f res relock =>
    cases res with
    | some buf =>
      rw [clientStep] at h
      split at h
      · cases h
      · cases h
        exact ⟨Or.inl rfl, rfl⟩
    | none =>
      rw [clientStep] at h
      split at h
      · cases h
      · cases h
        exact ⟨Or.inl rfl, rfl⟩
  | pwriting d f fd buf offset =>
    have hwrite : (pwriteFd env s fd buf offset).1.fs.names = s.fs.names := by
      unfold pwriteFd
      split
      · rfl
      · dsimp only
        split
        · rfl
        · rfl
    rw [clientStep] at h
    split at h
    · rename_i s₁ e
      rw [e] at hwrite
      cases h
      exact ⟨Or.inl hwrite, rfl⟩
    · rename_i s₁ e
      rw [e] at hwrite
      cases h
      exact ⟨Or.inl hwrite, rfl⟩
  | pwrote d f res =>
    cases res with
    | some len =>
      rw [clientStep] at h
      split at h
      · cases h
        exact ⟨Or.inl rfl, rfl⟩
      · cases h
    | none =>
      rw [clientStep] at h
      split at h
      · cases h
        exact ⟨Or.inl rfl, rfl⟩
      · cases h
  | _ => cases hpc

/-! ## A step of the background thread -/

/-- A name other than that of the entry keeps its inode. -/
def State.NameKept (s : State) (f : Nat) (q : Filename) (x : Option Nat) : Prop :=
  f < s.nextFile ∧ q ≠ (s.files f).filename ∧ s.fs.inoOf q = x

theorem Effect.nameKept {vis : Filename → Prop} {w x : Option Nat} {n : Nat} {q : Filename} (hv : vis q) (he : Effect vis f w n s s')
    (h : s.NameKept f q x) : s'.NameKept f q x := by
  obtain ⟨hlt, hne, hino⟩ := h
  cases he with
  | calm hc =>
    refine ⟨Nat.lt_of_lt_of_le hlt hc.nextFile, ?_, ?_⟩
    · rw [hc.filename f hlt]
      exact hne
    · rw [hc.fs]
      exact hino
  | install =>
    refine ⟨hlt, hne, ?_⟩
    rw [State.fs_withFs, Backing.inoOf_setName, if_neg hne]
    exact hino
  | drop =>
    refine ⟨hlt, hne, ?_⟩
    rw [State.fs_withFs, Backing.inoOf_dropName, if_neg hne]
    exact hino
  | hidden _ _ _ hkept => exact ⟨hlt, hne, (hkept q hv).trans hino⟩
  | _ => exact ⟨hlt, hne, hino⟩

/-- The background thread changes the name of the file it has compressed, and without deduplication no other. -/
theorem workerStep_inoOf {w w' : WorkerPc} {q : Filename} (h : workerStep Γ env s w = some (s', w')) (hhash : ∀ f pc, w ≠ .hashing f pc)
    (hlt : ∀ f, w.refs f ≠ 0 → f < s.nextFile)
    (hq : ∀ job got eof, w = .compressing job got eof → (s.files job.file).filename ≠ q) : s'.fs.inoOf q = s.fs.inoOf q := by
  have he : WorkerEffects (fun _ => True) s s' w := workerStep_effects h
  cases he with
  | calm hc => rw [hc.fs]
  | @compressed job got eof hw he =>
    have hbefore : s.NameKept job.file q (s.fs.inoOf q) := by
      refine ⟨hlt _ ?_, (hq _ _ _ hw).symm, rfl⟩
      rw [hw, WorkerPc.refs_of_window (f := job.file) rfl]
      decide
    exact (he.invariant (I := fun s' => s'.NameKept job.file q (s.fs.inoOf q)) (fun _ _ hs he => he.nameKept trivial hs) hbefore).2.2
  | deduped hw => exact absurd hw (hhash _ _)

/-- A file with a valid header has the length of one. -/
theorem headerSize_le_of_parse {data : Bytes} {r : Module × Int} (h : parse Γ data = some r) : headerSize ≤ data.length := by
  by_contra hlt
  unfold parse at h
  rw [if_pos (Nat.lt_of_not_le hlt)] at h
  cases h

/-- `lstat` gives the length of a file. -/
theorem sysGetattr_size {q : Filename} {i : Nat} {st : Stat} (hino : s.fs.inoOf q = some i) (h : sysGetattr Γ env s.fs q = .regular st) :
    st.size = ((s.data i).length : Int) := by
  have hfind := Backing.inoOf_eq_some.mp hino
  unfold sysGetattr at h
  split at h
  · cases h
  · cases h
  · rename_i j hj
    cases h
    split at hj
    · rw [hfind] at hj
      cases hj
      rfl
    · cases hj

/-- `do_compress` starts on a file that is long enough, and that is raw as far as it can tell. -/
theorem doCompressBegin_raw {job : Job} (h : doCompressBegin Γ env s f = (s', some job)) :
    Γ.minFilesizeBackground ≤ (s.data job.ino).length ∧ (parse Γ (s.data job.ino) = none ∨ env.ok .readHeader = false) := by
  unfold doCompressBegin at h
  split at h
  · cases h
  · rename_i i hi
    dsimp only at h
    split at h
    · cases h
    · rename_i hmin
      generalize hs₁ : (if headerSize ≤ (s.data i).length ∧ env.ok .readHeader then _ else s) = s₁ at h
      have hdata : ∀ j, s₁.fs.inodes j = s.fs.inodes j := by
        intro j
        rw [← hs₁]
        split
        · rfl
        · rfl
      split at h
      · cases h
      · rename_i hpacked
        have hraw : parse Γ (s.data i) = none ∨ env.ok .readHeader = false := by
          cases hread : env.ok .readHeader with
          | false => exact Or.inr rfl
          | true =>
            refine Or.inl ?_
            cases hparse : parse Γ (s.data i) with
            | none => rfl
            | some r =>
              have hlen := headerSize_le_of_parse hparse
              rw [if_pos ⟨hlen, hread⟩, fileReadHeader_of_parse hparse] at hs₁
              refine absurd ⟨hlen, hread, ?_⟩ hpacked
              rw [← hs₁, State.files_modFile, if_pos rfl]
              exact Option.some_ne_none _
        split at h
        · cases h
        · split at h
          · cases h
          · cases h
            exact ⟨Nat.le_of_not_lt hmin, hraw⟩

/-- The background thread compresses what it compressed before the step, or starts on a file that `do_compress` has been called for. -/
theorem workerStep_compressing {w : WorkerPc} {job : Job} {got : Bytes} {eof : Bool}
    (h : workerStep Γ env s w = some (s', .compressing job got eof)) (hhash : ∀ f pc, w ≠ .hashing f pc) :
    (∃ got' eof', w = .compressing job got' eof') ∨
      ∃ isDedup, w = .dequeued job.file isDedup ∧ isDedup = false ∧ compressNow Γ (s.files job.file) = true ∧
        s.fs.inoOf (s.files job.file).filename = some job.ino ∧ Γ.minFilesizeBackground ≤ (s.data job.ino).length ∧
        (parse Γ (s.data job.ino) = none ∨ env.ok .readHeader = false) := by
  cases w with
  | idle =>
    rw [workerStep, Option.map_eq_some_iff] at h
    obtain ⟨r, -, e⟩ := h
    cases e
  | dequeued f isDedup =>
    rw [workerStep] at h
    split at h
    · unfold workerProcess at h
      dsimp only at h
      have hfiles : (s.assert Γ (decide ((s.files f).accesses > 0))).files = s.files := State.files_assert _ _ _
      have hfs : (s.assert Γ (decide ((s.files f).accesses > 0))).fs = s.fs := State.fs_assert _ _ _
      generalize s.assert Γ (decide ((s.files f).accesses > 0)) = s₁ at h hfiles hfs
      split at h
      · split at h
        · cases h
        · cases h
      · rename_i hdedup
        split at h
        · rename_i hnow
          split at h
          · rename_i s₂ job' e
            obtain ⟨hfile, hino⟩ := doCompressBegin_read e
            obtain ⟨hmin, hraw⟩ := doCompressBegin_raw e
            cases h
            unfold State.data at hmin hraw
            rw [hfs] at hmin hraw hino
            rw [hfiles] at hnow hino
            rw [← hfile] at hnow hino
            exact Or.inr ⟨isDedup, by rw [hfile], Bool.eq_false_of_not_eq_true hdedup, hnow, hino, hmin, hraw⟩
          · cases h
        · cases h
    · cases h
  | compressing job' got' eof' =>
    rw [workerStep] at h
    split at h
    · cases h
      exact Or.inl ⟨_, _, rfl⟩
    · split at h
      · cases h
      · cases h
  | hashing f pc => exact absurd rfl (hhash f pc)

/-! ## Every run -/

section System

variable {T : Type} [DecidableEq T] {sys sys' : Sys T} {l : Label T} {a b : Filename}

/-- What holds of two names of the inode `i` while nothing is made of one of them alone. Nothing that is under way takes a name away, the
background thread is not compressing the file of either, and their entries, and who has looked at the file, are right about it. -/
structure Sys.Linked (Γ : Config) (a b : Filename) (i : Nat) (sys : Sys T) : Prop where
  listed : sys.Listed
  undeduped : sys.Undeduped
  inPlace : ∀ t, (sys.clients t).inPlace = true
  apart : ∀ job got eof, sys.worker = .compressing job got eof →
    (sys.shared.files job.file).filename ≠ a ∧ (sys.shared.files job.file).filename ≠ b
  names : ∀ p, p = a ∨ p = b → sys.shared.fs.inoOf p = some i
  alike : sys.shared.Alike Γ a b i
  looked : ∀ t q st, (sys.clients t).looked = some (q, st) → q = a ∨ q = b → parse Γ (sys.shared.data i) ≠ none →
    headerSize ≤ asU64 st.size
  length : parse Γ (sys.shared.data i) ≠ none → (sys.shared.data i).length < 2 ^ 64

omit [DecidableEq T] in
/-- The file of two linked names has another link. -/
theorem Sys.Linked.two_le_nlink {i : Nat} (h : sys.Linked Γ a b i) (hne : a ≠ b) : ¬sys.shared.fs.nlink i < 2 :=
  fun hl => hne (Backing.eq_of_nlink_lt_two hl (h.names a (Or.inl rfl)) (h.names b (Or.inr rfl)))

omit [DecidableEq T] in
/-- A step of a thread that meets the condition on a step of the system meets the conditions on the state. -/
theorem Sys.Linked.careful {i : Nat} {t : T} {env : Env} (h : sys.Linked Γ a b i) (hne : a ≠ b)
    (hunlinked : sys.Unlinked Γ a b (.client t env)) : sys.shared.Careful Γ env a b i (sys.clients t) where
  looked := h.looked t
  called f hcalled hf := by
    by_contra hparse
    exact h.two_le_nlink hne (hunlinked.decompress t env f i rfl hcalled hf.2 (h.names _ hf.2) hparse)
  write d buf offset f hpc hf := by
    refine hunlinked.write t env d buf offset f rfl hpc (hf.imp id (fun ⟨fd, hfd, hi⟩ => ⟨fd, hfd, ?_⟩))
    rw [hi]
    exact h.names a (Or.inl rfl)
  pwrite d f fd buf offset hpc hi := by
    refine hunlinked.pwrite t env d f fd buf offset rfl hpc ?_
    rw [hi]
    exact h.names a (Or.inl rfl)
  cut f full size hcuts hino := hunlinked.cut t env f full size i rfl hcuts hino (h.names a (Or.inl rfl))

/-- Every step that meets the condition leaves the two names at the inode, and their entries right about it. -/
theorem Sys.Linked.step {i : Nat} (h : sys.Linked Γ a b i) (hd : Γ.dedupEnabled = false) (hne : a ≠ b) (hok : sys.Promised l)
    (hplace : l.inPlace = true) (hunlinked : sys.Unlinked Γ a b l) (hs : sys.step Γ l = some sys') : sys'.Linked Γ a b i := by
  have hlisted := h.listed.step hok hs
  have hundeduped := h.undeduped.step hd hs
  have hjob : ∀ {job : Job} {got : Bytes} {eof : Bool}, sys.worker = .compressing job got eof → job.file < sys.shared.nextFile := by
    intro job got eof hw
    refine h.listed.held_lt _ ?_
    rw [hw, WorkerPc.refs_of_window (f := job.file) rfl]
    decide
  -- whoever has looked at the file has seen the header it still has
  have hlook : ∀ {s : State}, sys.shared.StaysAlike Γ a b i s → ∀ t q st, (sys.clients t).looked = some (q, st) → q = a ∨ q = b →
      parse Γ (s.data i) ≠ none → headerSize ≤ asU64 st.size := by
    intro s hstays t q st hq hab hparse
    rw [hstays.header hparse] at hparse
    exact h.looked t q st hq hab hparse
  have hlength : ∀ {s : State}, sys.shared.StaysAlike Γ a b i s → parse Γ (s.data i) ≠ none → (s.data i).length < 2 ^ 64 := by
    intro s hstays hparse
    have hdata := hstays.header hparse
    rw [hdata] at hparse ⊢
    exact h.length hparse
  rcases Sys.step_cases hs with ⟨t, r, last, rfl, -, rfl⟩ | ⟨t, env, s, pc, rfl, hstep, hc, rfl⟩ |
    ⟨env, s, w, rfl, hstep, hw, rfl⟩ | ⟨rfl, rfl⟩
  · refine ⟨hlisted, hundeduped, fun u => ?_, h.apart, h.names, h.alike, fun u q st hq => ?_, h.length⟩
    · unfold Sys.advance
      dsimp only
      rw [Function.update_apply]
      split
      · exact takeRequest_inPlace Γ sys.shared hplace
      · exact h.inPlace u
    · unfold Sys.advance at hq
      dsimp only at hq
      rw [Function.update_apply] at hq
      split at hq
      · rw [takeRequest_looked] at hq
        cases hq
      · exact h.looked u q st hq
  · obtain ⟨hreplaces, hpc⟩ := clientStep_replaces hd (h.inPlace t) hstep
    have hcareful := h.careful hne hunlinked
    have hstays : sys.shared.StaysAlike Γ a b i s :=
      clientStep_stays hd h.alike h.names h.listed.listed_lt (h.inPlace t) (h.listed.known t) hcareful hstep
    refine ⟨hlisted, hundeduped, fun u => ?_, fun job got eof hwork => ?_, fun p hp => ?_, hstays.alike, fun u q st hq hab hparse => ?_,
      hlength hstays⟩
    · unfold Sys.advance
      dsimp only
      rw [Function.update_apply]
      split
      · exact hpc
      · exact h.inPlace u
    · have hname : (s.files job.file).filename = (sys.shared.files job.file).filename := hc.keeps.filename _ (hjob hwork)
      change (s.files job.file).filename ≠ a ∧ (s.files job.file).filename ≠ b
      rw [hname]
      exact h.apart job got eof hwork
    · change s.fs.inoOf p = some i
      rcases hreplaces with hnames | ⟨f, hcalled, hnames | ⟨-, j, temp, hj, hparse, -, hnames⟩⟩
      · exact (inoOf_of_names hnames p).trans (h.names p hp)
      · exact (inoOf_of_names hnames p).trans (h.names p hp)
      · have hfile : (sys.shared.files f).filename ≠ p := by
          rintro rfl
          rw [h.names _ hp] at hj
          cases hj
          exact h.two_le_nlink hne (hunlinked.decompress t env f i rfl hcalled hp (h.names _ hp) hparse)
        have hother : s.fs.inoOf p = sys.shared.fs.inoOf p := by
          unfold Backing.inoOf Backing.find
          rw [hnames, Assoc.find_insert, if_neg (Ne.symm hfile)]
        exact hother.trans (h.names p hp)
    · change parse Γ (s.data i) ≠ none at hparse
      unfold Sys.advance at hq
      dsimp only at hq
      rw [Function.update_apply] at hq
      split at hq
      · rcases clientStep_looked hd (h.inPlace t) hstep hq with hold | ⟨-, hstat⟩
        · exact hlook hstays t q st hold hab hparse
        · have hbefore : parse Γ (sys.shared.data i) ≠ none := hstays.header hparse ▸ hparse
          rw [sysGetattr_size (h.names q hab) hstat]
          have hheader : headerSize ≤ (sys.shared.data i).length := by
            obtain ⟨r, hr⟩ := Option.ne_none_iff_exists'.mp hbefore
            exact headerSize_le_of_parse hr
          have hlt := h.length hbefore
          unfold asU64
          omega
      · exact hlook hstays u q st hq hab hparse
  · have hhash : ∀ f pc, sys.worker ≠ .hashing f pc := h.undeduped.worker.2
    have hstays : sys.shared.StaysAlike Γ a b i s := by
      refine workerStep_stays hd h.alike h.names h.undeduped.worker (fun job got eof hwork hjob => ?_) hstep
      rcases hjob.2 with e | e
      · exact (h.apart job got eof hwork).1 e
      · exact (h.apart job got eof hwork).2 e
    refine ⟨hlisted, hundeduped, h.inPlace, fun job got eof hwork => ?_, fun p hp => ?_, hstays.alike, hlook hstays, hlength hstays⟩
    · change w = .compressing job got eof at hwork
      subst hwork
      have hkeep : sys.shared.books.Keeps s.books (fun _ => False) := hw.keeps
      rcases workerStep_compressing hstep hhash with ⟨got', eof', hwork⟩ | ⟨isDedup, hwork, rfl, hnow, hino, hmin, hraw⟩
      · have hname : (s.files job.file).filename = (sys.shared.files job.file).filename := hkeep.filename _ (hjob hwork)
        change (s.files job.file).filename ≠ a ∧ (s.files job.file).filename ≠ b
        rw [hname]
        exact h.apart job got' eof' hwork
      · have hlt : job.file < sys.shared.nextFile := by
          refine h.listed.held_lt _ ?_
          rw [hwork]
          unfold WorkerPc.refs
          dsimp only
          rw [if_pos rfl]
          decide
        have hname : (s.files job.file).filename = (sys.shared.files job.file).filename := hkeep.filename _ hlt
        have hneither : ¬((sys.shared.files job.file).filename = a ∨ (sys.shared.files job.file).filename = b) := by
          intro hab
          have hlinks := hunlinked.compress env job.file job.ino rfl hwork hnow hab hino hmin hraw
          rw [h.names _ hab] at hino
          cases hino
          exact h.two_le_nlink hne hlinks
        change (s.files job.file).filename ≠ a ∧ (s.files job.file).filename ≠ b
        rw [hname]
        exact not_or.mp hneither
    · refine (workerStep_inoOf hstep hhash h.listed.held_lt (fun job got eof hwork => ?_)).trans (h.names p hp)
      rcases hp with rfl | rfl
      · exact (h.apart job got eof hwork).1
      · exact (h.apart job got eof hwork).2
  · exact ⟨hlisted, hundeduped, h.inPlace, h.apart, h.names, ⟨h.alike.old, h.alike.unwritten, h.alike.current⟩, h.looked, h.length⟩

/-- `link(2)` gives the inode of the first name the second, which was no name before. -/
theorem linkCall_same {env : Env} {s : State} (h : linkCall env s a b = (s', .ok)) :
    a ≠ b ∧ ∃ i, s.fs.inoOf a = some i ∧ s.fs.next ≤ s'.fs.next ∧ s'.fs.inoOf a = some i ∧ s'.fs.inoOf b = some i := by
  unfold linkCall at h
  split at h
  · cases h
  · rename_i fs' hlink
    cases h
    split at hlink
    · unfold Backing.link at hlink
      split at hlink
      · rename_i i hi
        split at hlink
        · rename_i hfree
          cases hlink
          have hne : a ≠ b := by
            rintro rfl
            rw [Backing.inoOf_eq_some, hfree.1] at hi
            cases hi
          refine ⟨hne, i, hi, Nat.le_refl _, ?_, ?_⟩
          · rw [Backing.inoOf_setName, if_neg hne]
            exact hi
          · rw [Backing.inoOf_setName, if_pos rfl]
        · cases hlink
      · cases hlink
    · cases hlink

/-- A state that is ready for the link, after the call. -/
theorem Sys.LinkReady.linked {sys₀ sys₁ : Sys T} {t : T} {env : Env} (h : sys₀.LinkReady Γ a b t) (hlisted : sys₁.Listed)
    (hundeduped : sys₁.Undeduped) (hlink : sys₀.step Γ (.client t env) = some sys₁) (hlinked : sys₁.clients t = .idle (some .ok)) :
    a ≠ b ∧ ∃ i, sys₁.Linked Γ a b i := by
  unfold Sys.step at hlink
  dsimp only at hlink
  split at hlink
  · cases hlink
  rw [h.linking, clientStep, Option.map_some] at hlink
  cases hlink
  have hself : Pc.idle (some (linkCall env sys₀.shared a b).2) = .idle (some .ok) := by
    have hself := hlinked
    unfold Sys.advance finished at hself
    dsimp only at hself
    rw [Function.update_self] at hself
    exact hself
  injection hself with hself
  injection hself with hself
  obtain ⟨hne, i, hbefore, hnext, ha, hb⟩ := linkCall_same (a := a) (b := b) (Prod.ext rfl hself)
  have hsame : (linkCall env sys₀.shared a b).1.files = sys₀.shared.files ∧ (linkCall env sys₀.shared a b).1.descs = sys₀.shared.descs ∧
      (linkCall env sys₀.shared a b).1.database = sys₀.shared.database ∧ (linkCall env sys₀.shared a b).1.data i = sys₀.shared.data i := by
    unfold linkCall
    split
    · exact ⟨rfl, rfl, rfl, rfl⟩
    · rename_i fs' hfs
      split at hfs
      · unfold Backing.link at hfs
        split at hfs
        · split at hfs
          · cases hfs
            exact ⟨rfl, rfl, rfl, rfl⟩
          · cases hfs
        · cases hfs
      · cases hfs
  generalize linkCall env sys₀.shared a b = r at hlisted hundeduped hnext ha hb hsame ⊢
  obtain ⟨hfiles, hdescs, hdb, hdata⟩ := hsame
  refine ⟨hne, i, hlisted, hundeduped, fun u => ?_, fun job got eof hw => ?_, ?_, ⟨?_, ?_, fun g hg => ?_⟩, fun u q st hq hab => ?_, ?_⟩
  · unfold Sys.advance
    dsimp only
    rw [Function.update_apply]
    split
    · rfl
    · rename_i hu
      exact h.inPlace u hu
  · change (r.1.files job.file).filename ≠ a ∧ (r.1.files job.file).filename ≠ b
    rw [hfiles]
    exact h.apart job got eof hw
  · rintro p (rfl | rfl)
    · exact ha
    · exact hb
  · exact Nat.lt_of_lt_of_le (h.made i hbefore) hnext
  · rintro ⟨d, fd, hfd, hi, hw⟩
    change (r.1.descs d).fd = some fd at hfd
    change (r.1.descs d).writing at hw
    rw [hdescs] at hfd hw
    exact h.unwritten i hbefore ⟨d, fd, hfd, hi, hw⟩
  · change (r.1.files g).Current Γ (r.1.data i)
    have hg : sys₀.shared.Names a b g := by
      obtain ⟨hmem, hname⟩ := hg
      change g ∈ r.1.database at hmem
      change (r.1.files g).filename = a ∨ (r.1.files g).filename = b at hname
      rw [hdb] at hmem
      rw [hfiles] at hname
      exact ⟨hmem, hname⟩
    rw [hfiles, hdata]
    exact h.current i g hbefore hg
  · change parse Γ (r.1.data i) ≠ none → headerSize ≤ asU64 st.size
    rw [hdata]
    unfold Sys.advance at hq
    dsimp only at hq
    rw [Function.update_apply] at hq
    split at hq
    · cases hq
    · exact h.looked i u q st hbefore hq hab
  · intro _
    change (r.1.data i).length < 2 ^ 64
    rw [hdata]
    exact h.length i hbefore

end System

/-- A file gets a second name, up to the call of `link(2)`. -/
def linkOne (t : Fin 1) : List (Label (Fin 1)) := [.request t (.link ['a'] ['b']), .client t .fine]

/-- The state in which `link(2)` is called. -/
def Sys.linkingOne (t : Fin 1) : Sys (Fin 1) :=
  ((Sys.mounted .oneFile : Sys (Fin 1)).advance t (State.mounted .oneFile) (.opening (.link ['a'] ['b']))).advance t
    (linkLocked .anySize .fine (directOpenAdd .anySize { State.mounted .oneFile with entries := 1 } ['a']) 0).1 (.linking ['a'] ['b'])

theorem Sys.linkingOne_run : Run (Sys.step .anySize) Sys.Promised (Sys.mounted .oneFile) (linkOne 0) (Sys.linkingOne 0) :=
  .cons trivial rfl (.cons trivial rfl (.nil _))

/-- The file is written to through its first name and read through the second one. -/
def writeFirstReadSecond (t : Fin 1) : List (Label (Fin 1)) :=
  [.request t (.open ['a'] true), .client t .fine, .request t (.desc 0 (.write [121] 0)), .client t .fine, .client t .fine, .client t .fine,
    .request t (.open ['b'] false), .client t .fine, .request t (.desc 1 (.read 4 0)), .client t .fine, .client t .fine, .client t .fine]

/-- The first name is looked at, the database is purged, and the background thread compresses what the purge has queued. Then the file is
written to through the second name. -/
def compressFirstWriteSecond (t : Fin 1) : List (Label (Fin 1)) :=
  [.request t (.getattr ['a']), .client t .fine, .client t .fine, .request t .purge, .client t .fine, .client t .fine,
    .client t .fine] ++ List.replicate 5 (.worker .fine) ++
    [.request t (.open ['b'] true), .client t .fine, .request t (.desc 0 (.write [121] 0)), .client t .fine, .client t .fine, .client t .fine]

/-- No step of the run calls `do_decompress` or `do_compress`, cuts a file, or writes anything that is or becomes compressed. -/
def Sys.plain (Γ : Config) (t : Fin 1) (sys : Sys (Fin 1)) : Bool :=
  (clientDecompresses Γ sys.shared (sys.clients t)).isNone && decide (sys.worker = .idle) && (clientCuts sys.shared (sys.clients t)).isNone &&
    match sys.clients t with
    | .fetched _ (.write _ offset) f => writesRaw Γ (sys.shared.files f) offset
    | .pwriting _ _ (some fd) buf offset =>
      (parse Γ (sys.shared.data fd.ino)).isNone && (parse Γ (Bytes.overwrite (sys.shared.data fd.ino) offset buf)).isNone
    | _ => true

theorem Sys.unlinked_of_plain {Γ : Config} {a b : Filename} {t : Fin 1} {sys : Sys (Fin 1)} {l : Label (Fin 1)}
    (h : sys.plain Γ t = true) : sys.Unlinked Γ a b l := by
  unfold Sys.plain at h
  simp only [Bool.and_eq_true, Option.isNone_iff_eq_none, decide_eq_true_eq] at h
  obtain ⟨⟨⟨hcalled, hworker⟩, hcuts⟩, hwrite⟩ := h
  refine ⟨fun u env f i _ hc => ?_, fun env f i _ hw => ?_, fun u env d buf offset f _ hpc _ => ?_,
    fun u env d f fd buf offset _ hpc _ _ _ => ?_, fun u env f full size i _ hc => ?_⟩
  · rw [Subsingleton.elim u t, hcalled] at hc
    cases hc
  · rw [hworker] at hw
    cases hw
  · rw [Subsingleton.elim u t] at hpc
    rw [hpc] at hwrite
    exact hwrite
  · rw [Subsingleton.elim u t] at hpc
    rw [hpc] at hwrite
    simp only [Bool.and_eq_true, Option.isNone_iff_eq_none] at hwrite
    exact hwrite
  · rw [Subsingleton.elim u t, hcuts] at hc
    cases hc

theorem Sys.linkReady_linkingOne : (Sys.linkingOne 0).LinkReady .anySize ['a'] ['b'] 0 where
  linking := rfl
  made i hi := by
    cases (show some 0 = some i from hi)
    decide
  inPlace u hu := absurd (Subsingleton.elim u 0) hu
  apart job got eof hw := by cases hw
  unwritten i _ := by
    rintro ⟨d, fd, hfd, -⟩
    cases hfd
  current i f hi hf := by
    cases (show some 0 = some i from hi)
    cases (show f = 0 from List.mem_singleton.mp hf.1)
    exact .of_raw (by decide) rfl
  looked i u q st _ hq := by
    rw [Subsingleton.elim u 0] at hq
    cases hq
  length i hi := by
    cases (show some 0 = some i from hi)
    decide

end FuseCompress
