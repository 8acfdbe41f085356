import FuseCompress.Lemmas.Metadata
import FuseCompress.Theorems.Caching

/-!
# Decompression in place

`do_decompress` closes every descriptor of the file before it knows whether the module can decode it, and opens them again on the
temporary file before it renames that. A call that fails between the two leaves descriptors without an open file, or with a file
that no name refers to. One that fails before the first or after the last does not.
-/

namespace FuseCompress

variable {Γ : Config} {env : Env} {s s' s'' : State} {f src : Nat} {m : Module} {content : Bytes}

/-- What the module on a descriptor still holds and pushes when it is closed: the bytes of the file afterwards. -/
def pushed (Γ : Config) (env : Env) (m : Module) (desc : Desc) (data : Bytes) : Bytes :=
  match desc.handle, desc.fd with
  | some (.writing chunks), some fd => if env.ok .codecClose then Bytes.overwrite data fd.pos ((Γ.codec m).tail chunks) else data
  | _, _ => data

/-- The bytes of a file once the modules on the descriptors `ds` have been closed one after the other. -/
def settled (Γ : Config) (env : Env) (m : Module) (descs : Nat → Desc) (data : Bytes) : List Nat → Bytes
  | [] => data
  | d :: ds => settled Γ env m descs (pushed Γ (env.of d) m (descs d) data) ds

/-- An entry whose path is a well-formed compressed file, with any number of descriptors. What their modules still hold belongs
to the stream: the file is well formed once they have pushed it. -/
structure State.WellFormed (Γ : Config) (env : Env) (s : State) (f src : Nat) (m : Module) (content : Bytes) : Prop where
  ino : s.fs.inoOf (s.files f).filename = some src
  lt_next : src < s.fs.next
  parse : parse Γ (s.data src) = some (m, (content.length : Int))
  decode : (Γ.codec m).decode ((settled Γ env m s.descs (s.data src) (s.files f).head).drop headerSize) = some content
  compressor : (s.files f).compressor = none ∨ (s.files f).compressor = some m
  nodup : (s.files f).head.Nodup
  attached : ∀ d ∈ (s.files f).head, ∃ pos, (s.descs d).fd = some ⟨src, pos⟩

/-- What `do_decompress` promises with `TRUE`. -/
structure State.Raw (s : State) (f : Nat) (content : Bytes) : Prop where
  compressor : (s.files f).compressor = none
  installed : ∃ i, s.fs.inoOf (s.files f).filename = some i ∧ s.data i = content ∧
    ∀ d ∈ (s.files f).head, ∃ pos, (s.descs d).fd = some ⟨i, pos⟩

/-- What `do_decompress` promises with `FALSE`: the path still has its compressed file, with what the modules have pushed at most,
and the descriptors have it open and are ready to read it from the start. -/
structure State.Kept (Γ : Config) (env : Env) (m : Module) (s s' : State) (f src : Nat) : Prop where
  path : s'.fs.inoOf (s'.files f).filename = some src
  bytes : s'.data src = s.data src ∨ s'.data src = settled Γ env m s.descs (s.data src) (s.files f).head
  compressor : (s.files f).compressor = some m → (s'.files f).compressor = some m
  descs : ∀ d ∈ (s'.files f).head, (s'.descs d).handle = none ∧ (s'.descs d).offset = 0 ∧ ∃ pos, (s'.descs d).fd = some ⟨src, pos⟩

/-- The result of `do_decompress` is one or the other. -/
def AllOrNothing (Γ : Config) (env : Env) (m : Module) (s : State) (f src : Nat) (content : Bytes) (r : State × Bool) : Prop :=
  if r.2 then r.1.Raw f content else s.Kept Γ env m r.1 f src

/-- A call fails before the descriptors are closed. -/
def FailsBefore (Γ : Config) (env : Env) (s : State) (f : Nat) : Prop :=
  env.ok .statvfs = false ∨ enoughSpace Γ env (s.files f).size = false ∨ env.ok .open = false ∨ env.ok .readHeader = false

/-- A call fails while they are closed, or the rename that follows. -/
def FailsBetween (env : Env) : Prop :=
  env.ok .fstat = false ∨ env.ok .mkstemp = false ∨ env.ok .decompress = false ∨ env.ok .rename = false

/-- The condition under which the promises are kept. A call that fails while the descriptors are closed leaves none of them open,
so there is none. After the rename nothing fails. -/
def Harmless (Γ : Config) (env : Env) (s : State) (f : Nat) : Prop :=
  (FailsBefore Γ env s f → ∀ d ∈ (s.files f).head, (s.descs d).handle = none ∧ (s.descs d).offset = 0) ∧
  (¬FailsBefore Γ env s f → FailsBetween env → (s.files f).head = []) ∧
  (¬FailsBefore Γ env s f → ¬FailsBetween env → env.ok .utime = true ∧ ∀ d ∈ (s.files f).head, (env.of d).ok .reopen = true)

/-! ## Closing the descriptors -/

theorem data_writeFd (s : State) (d : Nat) (fd : Fd) (buf : Bytes) :
    (writeFd s d fd buf).data fd.ino = Bytes.overwrite (s.data fd.ino) fd.pos buf := by
  unfold writeFd
  split
  · rename_i hbuf
    rw [State.data_modDesc, hbuf, Bytes.overwrite_empty_buf]
  · rw [State.data_modDesc, State.data, State.fs_withFs, Backing.data_setData, if_pos rfl]
    rfl

theorem inoOf_writeFd (s : State) (d : Nat) (fd : Fd) (buf : Bytes) (p : Filename) :
    (writeFd s d fd buf).fs.inoOf p = s.fs.inoOf p ∧ (writeFd s d fd buf).fs.next = s.fs.next := by
  unfold writeFd
  split <;> exact ⟨rfl, rfl⟩

/-- A descriptor has an inode open. -/
def Desc.onInode (desc : Desc) (i : Nat) : Bool :=
  match desc.fd with
  | some fd => fd.ino = i
  | none => false

/-- One descriptor of an entry has been closed: what its module held is in the inode it has open. No other inode and no other
descriptor has changed, and no name. -/
structure State.Pushes (Γ : Config) (env : Env) (m : Module) (s s' : State) (f d : Nat) : Prop where
  data : ∀ i, s'.data i = if (s.descs d).onInode i then pushed Γ env m (s.descs d) (s.data i) else s.data i
  path : ∀ p, s'.fs.inoOf p = s.fs.inoOf p
  next : s'.fs.next = s.fs.next
  compressor : (s'.files f).compressor = (s.files f).compressor
  head : (s'.files f).head = (s.files f).head
  filename : (s'.files f).filename = (s.files f).filename
  others : ∀ d', d' ≠ d → s'.descs d' = s.descs d'

theorem pushes_of_quiet {d : Nat} (hquiet : ∀ data, pushed Γ env m (s.descs d) data = data) : s.Pushes Γ env m s f d := by
  refine ⟨fun i => ?_, fun _ => rfl, rfl, rfl, rfl, rfl, fun _ _ => rfl⟩
  rw [hquiet, ite_self]

theorem pushes_codecClose (d : Nat) : s.Pushes Γ env m (codecClose Γ env s m d) f d := by
  unfold codecClose
  split
  · rename_i chunks fd hhandle hfd
    split
    · rename_i hok
      have hpushed : ∀ data, pushed Γ env m (s.descs d) data = Bytes.overwrite data fd.pos ((Γ.codec m).tail chunks) := by
        intro data
        rw [pushed, hhandle, hfd]
        exact if_pos hok
      refine ⟨fun i => ?_, fun p => (inoOf_writeFd s d fd _ p).1, (inoOf_writeFd s d fd _ []).2, ?_, ?_, ?_, fun d' hne => ?_⟩
      · rw [hpushed, Desc.onInode, hfd]
        by_cases hi : fd.ino = i
        · subst hi
          simpa using data_writeFd s d fd ((Γ.codec m).tail chunks)
        · simp only [hi, decide_false, Bool.false_eq_true, if_false]
          unfold writeFd
          split
          · rfl
          · rw [State.data_modDesc]
            exact (Backing.data_setData _ _ _ _).trans (if_neg (Ne.symm hi))
      all_goals
        unfold writeFd
        split <;> simp_all
    · rename_i hok
      refine pushes_of_quiet (fun data => ?_)
      rw [pushed, hhandle, hfd]
      exact if_neg hok
  · rename_i hnot
    refine pushes_of_quiet (fun data => ?_)
    unfold pushed
    split
    · rename_i chunks fd hhandle hfd
      exact absurd hfd (hnot chunks fd hhandle)
    · rfl

/-- A later change that is not about inodes, names, the entry's module or other descriptors. -/
theorem State.Pushes.after {d : Nat} (h : s.Pushes Γ env m s' f d) (hdata : ∀ i, s''.data i = s'.data i)
    (hpath : ∀ p, s''.fs.inoOf p = s'.fs.inoOf p) (hnext : s''.fs.next = s'.fs.next)
    (hfile : (s''.files f).compressor = (s'.files f).compressor ∧ (s''.files f).head = (s'.files f).head ∧
      (s''.files f).filename = (s'.files f).filename)
    (hothers : ∀ d', d' ≠ d → s''.descs d' = s'.descs d') : s.Pushes Γ env m s'' f d where
  data i := (hdata i).trans (h.data i)
  path p := (hpath p).trans (h.path p)
  next := hnext.trans h.next
  compressor := hfile.1.trans h.compressor
  head := hfile.2.1.trans h.head
  filename := hfile.2.2.trans h.filename
  others d' hne := (hothers d' hne).trans (h.others d' hne)

theorem State.Pushes.modDesc {d : Nat} (h : s.Pushes Γ env m s' f d) (k : Desc → Desc) : s.Pushes Γ env m (s'.modDesc d k) f d :=
  h.after (fun _ => rfl) (fun _ => rfl) rfl ⟨rfl, rfl, rfl⟩ (fun d' hne => by rw [State.descs_modDesc, if_neg hne])

theorem pushes_closeHandle (Γ : Config) (env : Env) (hm : (s.files f).compressor = some m) (d : Nat) : s.Pushes Γ env m (closeHandle Γ env s f d) f d := by
  unfold closeHandle
  rw [hm]
  cases hhandle : (s.descs d).handle with
  | none => exact pushes_of_quiet (fun data => by rw [pushed, hhandle])
  | some handle => exact (pushes_codecClose d).modDesc _

theorem State.Pushes.restoreTimes {d : Nat} (h : s.Pushes Γ env m s' f d) (stbuf : Option Attr) :
    s.Pushes Γ env m (restoreTimes env s' f stbuf) f d := by
  unfold FuseCompress.restoreTimes
  split
  · split
    · refine h.after (fun i => ?_) (fun _ => rfl) rfl ⟨rfl, rfl, rfl⟩ (fun _ _ => rfl)
      rw [State.data, State.fs_withFs, Backing.utime, Backing.data_setAttr]
      rfl
    · exact h
  · exact h

/-- `direct_close` on one descriptor of a compressed file. -/
theorem pushes_directClose (Γ : Config) (env : Env) (hm : (s.files f).compressor = some m) (d : Nat) : s.Pushes Γ env m (directClose Γ env s f d) f d := by
  unfold directClose
  dsimp only
  generalize (if env.ok .closeFstat then (s.descs d).fd.map (fun fd => (s.fs.inodes fd.ino).attr) else none) = stbuf
  have hrestored := (pushes_closeHandle Γ env hm d).restoreTimes stbuf
  generalize restoreTimes env (closeHandle Γ env s f d) f stbuf = s₁ at hrestored
  split
  · refine hrestored.after (fun _ => rfl) (fun _ => rfl) rfl ?_ (fun _ _ => rfl)
    rw [State.files_modFile, if_pos rfl]
    exact ⟨rfl, rfl, rfl⟩
  · exact hrestored

theorem State.Pushes.fileClose {d : Nat} (h : s.Pushes Γ env m s' f d) : s.Pushes Γ env m (fileClose Γ s' d) f d := by
  unfold FuseCompress.fileClose
  refine State.Pushes.modDesc (h.after (fun i => ?_) (fun p => ?_) ?_ ?_ (fun d' _ => ?_)) _
  · rw [State.data_assert]
  · rw [State.fs_assert]
  · rw [State.fs_assert]
  · rw [State.files_assert]
    exact ⟨rfl, rfl, rfl⟩
  · rw [State.descs_assert]

/-- One descriptor has been closed: what its module held is in the file, and nothing else has happened to the descriptors, the
names and the entry's module. -/
structure State.Closed (Γ : Config) (env : Env) (m : Module) (s s' : State) (f src d : Nat) : Prop where
  data : s'.data src = pushed Γ env m (s.descs d) (s.data src)
  path : ∀ p, s'.fs.inoOf p = s.fs.inoOf p
  next : s'.fs.next = s.fs.next
  compressor : (s'.files f).compressor = (s.files f).compressor
  others : ∀ d', d' ≠ d → s'.descs d' = s.descs d'

/-- `direct_close` and `file_close` on one descriptor of a compressed file. -/
theorem closed_directClose (Γ : Config) (env : Env) {d pos : Nat} (hfd : (s.descs d).fd = some ⟨src, pos⟩) (hm : (s.files f).compressor = some m) :
    s.Closed Γ env m (fileClose Γ (directClose Γ env s f d) d) f src d := by
  have hpushes := (pushes_directClose Γ env hm d).fileClose
  refine ⟨?_, hpushes.path, hpushes.next, hpushes.compressor, hpushes.others⟩
  rw [hpushes.data, Desc.onInode, hfd]
  simp

/-- `file_close` leaves the descriptor without an open file. -/
theorem fd_fileClose (s : State) (d : Nat) : ((fileClose Γ s d).descs d).fd = none := by
  unfold fileClose
  rw [State.descs_modDesc, if_pos rfl]

theorem settled_congr {descs descs' : Nat → Desc} {ds : List Nat} (h : ∀ d ∈ ds, descs' d = descs d) (data : Bytes) :
    settled Γ env m descs' data ds = settled Γ env m descs data ds := by
  induction ds generalizing data with
  | nil => rfl
  | cons d ds ih =>
    rw [settled, settled, h d List.mem_cons_self]
    exact ih (fun d' hd' => h d' (List.mem_cons_of_mem d hd')) _

/-- What is left when all descriptors have been closed. -/
structure State.Shutdown (Γ : Config) (env : Env) (m : Module) (s s' : State) (f src : Nat) (ds : List Nat) : Prop where
  data : s'.data src = settled Γ env m s.descs (s.data src) ds
  path : ∀ p, s'.fs.inoOf p = s.fs.inoOf p
  next : s'.fs.next = s.fs.next
  compressor : (s'.files f).compressor = (s.files f).compressor
  closed : ∀ d ∈ ds, (s'.descs d).fd = none
  others : ∀ d, d ∉ ds → s'.descs d = s.descs d

theorem shutdown_closeAll (Γ : Config) (env : Env) {ds : List Nat} (hnodup : ds.Nodup) (hfd : ∀ d ∈ ds, ∃ pos, (s.descs d).fd = some ⟨src, pos⟩)
    (hm : (s.files f).compressor = some m) : s.Shutdown Γ env m (closeAll Γ env s f ds) f src ds := by
  induction ds generalizing s with
  | nil => exact ⟨rfl, fun _ => rfl, rfl, rfl, fun _ hn => (by cases hn), fun _ _ => rfl⟩
  | cons d ds ih =>
    obtain ⟨hnotin, hnodup'⟩ := List.nodup_cons.mp hnodup
    obtain ⟨pos, hpos⟩ := hfd d List.mem_cons_self
    have hone := closed_directClose Γ (env.of d) hpos hm
    have hnone := fd_fileClose (Γ := Γ) (directClose Γ (env.of d) s f d) d
    rw [closeAll]
    generalize fileClose Γ (directClose Γ (env.of d) s f d) d = s₁ at hone hnone
    have hkept : ∀ d' ∈ ds, s₁.descs d' = s.descs d' := by
      intro d' hd'
      refine hone.others d' ?_
      rintro rfl
      exact hnotin hd'
    have hrest := ih (s := s₁) hnodup' (fun d' hd' => by rw [hkept d' hd']; exact hfd d' (List.mem_cons_of_mem d hd'))
      (hone.compressor.trans hm)
    refine ⟨?_, fun p => (hrest.path p).trans (hone.path p), hrest.next.trans hone.next,
      hrest.compressor.trans hone.compressor, ?_, ?_⟩
    · rw [hrest.data, hone.data, settled_congr hkept, settled]
    · intro d' hd'
      rcases List.mem_cons.mp hd' with rfl | hd'
      · rw [hrest.others d' hnotin]
        exact hnone
      · exact hrest.closed d' hd'
    · intro d' hd'
      rw [List.mem_cons, not_or] at hd'
      rw [hrest.others d' hd'.2, hone.others d' hd'.1]

/-! ## `do_decompress` -/

theorem State.Kept.of_closed {s' : State} (hpath : s'.fs.inoOf (s'.files f).filename = some src)
    (hbytes : s'.data src = settled Γ env m s.descs (s.data src) (s.files f).head) (hcomp : (s'.files f).compressor = some m)
    (hhead : (s'.files f).head = []) : s.Kept Γ env m s' f src where
  path := hpath
  bytes := Or.inr hbytes
  compressor := fun _ => hcomp
  descs := by
    intro d hd
    rw [hhead] at hd
    cases hd

/-- A descriptor of the file that does not have the inode open. -/
theorem State.Kept.head_eq_nil {s' : State} (h : s.Kept Γ env m s' f src)
    (hfd : ∀ d ∈ (s'.files f).head, ∀ pos, (s'.descs d).fd ≠ some ⟨src, pos⟩) : (s'.files f).head = [] := by
  refine List.eq_nil_iff_forall_not_mem.mpr (fun d hd => ?_)
  obtain ⟨-, -, pos, hpos⟩ := h.descs d hd
  exact hfd d hd pos hpos

/-- The entry `do_decompress` has when it has closed the descriptors. -/
structure State.Emptied (Γ : Config) (env : Env) (m : Module) (s s' : State) (f src : Nat) : Prop where
  head : (s'.files f).head = (s.files f).head
  path : s'.fs.inoOf (s'.files f).filename = some src
  data : s'.data src = settled Γ env m s.descs (s.data src) (s.files f).head
  compressor : (s'.files f).compressor = some m
  closed : ∀ d ∈ (s'.files f).head, (s'.descs d).fd = none
  lt_next : src < s'.fs.next

/-- A failure while the descriptors are closed is harmless when there are none. -/
theorem State.Emptied.kept_iff {s' : State} (h : s.Emptied Γ env m s' f src) : s.Kept Γ env m s' f src ↔ (s.files f).head = [] := by
  constructor
  · intro hkept
    rw [← h.head]
    refine hkept.head_eq_nil (fun d hd pos hpos => ?_)
    rw [h.closed d hd] at hpos
    cases hpos
  · intro hnil
    exact State.Kept.of_closed h.path h.data h.compressor (h.head.trans hnil)

theorem State.Emptied.acknowledged {s' : State} (h : s.Emptied Γ env m s' f src) :
    s.Emptied Γ env m (s'.modFile f acknowledgeCancel) f src := by
  have hfields : (acknowledgeCancel (s'.files f)).head = (s'.files f).head ∧
      (acknowledgeCancel (s'.files f)).filename = (s'.files f).filename ∧
      (acknowledgeCancel (s'.files f)).compressor = (s'.files f).compressor := by
    unfold acknowledgeCancel
    split <;> exact ⟨rfl, rfl, rfl⟩
  obtain ⟨hhead, hname, hcomp⟩ := hfields
  refine ⟨?_, ?_, h.data, ?_, ?_, h.lt_next⟩
  · rw [State.files_modFile, if_pos rfl, hhead]
    exact h.head
  · rw [State.files_modFile, if_pos rfl, hname]
    exact h.path
  · rw [State.files_modFile, if_pos rfl, hcomp]
    exact h.compressor
  · intro d hd
    rw [State.files_modFile, if_pos rfl, hhead] at hd
    exact h.closed d hd

/-- The last part of `do_decompress`, when all has gone well before it. -/
theorem doDecompressInstall_all_or_nothing {s' : State} (h : s.Emptied Γ env m s' f src) (a st : Attr) :
    AllOrNothing Γ env m s f src content
        (doDecompressInstall env (s'.withFs (fun b => b.alloc content a)) f s'.fs.next st content.length) ↔
      (env.ok .rename = false → (s.files f).head = []) ∧
      (env.ok .rename = true → env.ok .utime = true ∧ ∀ d ∈ (s.files f).head, (env.of d).ok .reopen = true) := by
  have hne : src ≠ s'.fs.next := Nat.ne_of_lt h.lt_next
  unfold doDecompressInstall AllOrNothing
  dsimp only
  have hreopened : ∀ d ∈ (s.files f).head,
      ((reopenAll env (s'.withFs (fun b => b.alloc content a)) s'.fs.next (s'.files f).head).descs d).fd =
        if (env.of d).ok .reopen then some ⟨s'.fs.next, 0⟩ else none := by
    intro d hd
    rw [descs_reopenAll, h.head, if_pos hd]
  rw [State.files_withFs]
  cases hrename : env.ok .rename with
  | false =>
    simp only [if_true, if_false, Bool.false_eq_true, true_implies, false_implies, and_true]
    constructor
    · intro hkept
      have hnil := hkept.head_eq_nil (fun d hd pos hpos => ?_)
      · rw [← h.head, ← hnil]
        simp
      · have hd' : d ∈ (s.files f).head := by
          rw [← h.head]
          simpa using hd
        rw [State.descs_withFs, hreopened d hd'] at hpos
        split at hpos
        · cases hpos
          exact hne rfl
        · cases hpos
    · intro hnil
      refine State.Kept.of_closed ?_ ?_ ?_ ?_
      · simpa using h.path
      · simpa [State.data, Backing.inodes_alloc, hne] using h.data
      · simpa using h.compressor
      · simpa using h.head.trans hnil
  | true =>
    simp only [Bool.true_eq_false, if_false, false_implies, true_implies, true_and]
    cases hutime : env.ok .utime with
    | false =>
      simp only [if_true, Bool.false_eq_true, if_false, false_and, iff_false]
      intro hkept
      have hpath := hkept.path
      simp only [State.fs_withFs, State.files_withFs, files_reopenAll, Backing.inoOf_setName, if_true, Option.some.injEq] at hpath
      exact hne hpath.symm
    | true =>
      simp only [Bool.true_eq_false, if_false, if_true, true_and]
      constructor
      · rintro ⟨-, i, -, -, hall⟩ d hd
        obtain ⟨pos, hpos⟩ := hall d (by simpa [h.head] using hd)
        simp only [State.descs_modFile, State.descs_withFs, hreopened d hd] at hpos
        by_contra hfails
        rw [if_neg hfails] at hpos
        cases hpos
      · intro hall
        refine ⟨by simp, s'.fs.next, ?_, ?_, fun d hd => ⟨0, ?_⟩⟩
        · simp [Backing.utime, Backing.inoOf_setName]
        · simp [State.data, Backing.utime, Backing.inodes_alloc]
        · have hd' : d ∈ (s.files f).head := by simpa [h.head] using hd
          simp only [State.descs_modFile, State.descs_withFs, hreopened d hd', if_pos (hall d hd')]

/-- A failure before the descriptors are closed leaves everything as it is. -/
theorem kept_iff_of_untouched {s' : State} (h : s.WellFormed Γ env f src m content) (hs' : s' = s ∨ s' = flushFileCache s f) :
    s.Kept Γ env m s' f src ↔ ∀ d ∈ (s.files f).head, (s.descs d).handle = none ∧ (s.descs d).offset = 0 := by
  have hsame : s'.fs = s.fs ∧ s'.descs = s.descs ∧ (s'.files f).head = (s.files f).head ∧
      (s'.files f).filename = (s.files f).filename ∧ (s'.files f).compressor = (s.files f).compressor := by
    rcases hs' with rfl | rfl
    · exact ⟨rfl, rfl, rfl, rfl, rfl⟩
    · exact flushFileCache_same s f
  obtain ⟨hfs, hdescs, hhead, hname, hcomp⟩ := hsame
  constructor
  · intro hkept d hd
    obtain ⟨hnone, hoffset, -⟩ := hkept.descs d (by rw [hhead]; exact hd)
    rw [hdescs] at hnone hoffset
    exact ⟨hnone, hoffset⟩
  · intro hclosed
    refine ⟨?_, Or.inl ?_, fun hm => hcomp.trans hm, fun d hd => ?_⟩
    · rw [hfs, hname]
      exact h.ino
    · rw [State.data, hfs]
      rfl
    · rw [hhead] at hd
      rw [hdescs]
      exact ⟨(hclosed d hd).1, (hclosed d hd).2, h.attached d hd⟩

/-- `do_decompress` when a call fails before the descriptors are closed. -/
theorem doDecompress_before (hfails : FailsBefore Γ env s f) :
    ∃ s', doDecompress Γ env s f = (s', false) ∧ (s' = s ∨ s' = flushFileCache s f) := by
  unfold doDecompress
  split
  · exact ⟨s, rfl, Or.inl rfl⟩
  rename_i hstatvfs
  split
  · exact ⟨s, rfl, Or.inl rfl⟩
  rename_i hspace
  dsimp only
  split
  · exact ⟨_, rfl, Or.inr rfl⟩
  rename_i i hopen
  split
  · exact ⟨_, rfl, Or.inr rfl⟩
  rename_i hread
  rcases hfails with hfails | hfails | hfails | hfails
  · exact absurd (Or.inl hfails) hstatvfs
  · exact absurd (by simp [hfails]) hspace
  · rw [hfails] at hopen
    cases hopen
  · exact absurd hfails hread

/-- `do_decompress` when the header has been read: the descriptors are closed, and the module decodes all of the stream or fails. -/
theorem doDecompress_between (h : s.WellFormed Γ env f src m content) (hfine : ¬FailsBefore Γ env s f) :
    ∃ s', s.Emptied Γ env m s' f src ∧ doDecompress Γ env s f =
      if env.ok .fstat = false ∨ env.ok .mkstemp = false then (s', false)
      else if env.ok .decompress = false then (s'.modFile f acknowledgeCancel, false)
      else doDecompressInstall env ((s'.modFile f acknowledgeCancel).withFs (fun b => b.alloc content (tempAttr Γ b))) f s'.fs.next
        (s'.fs.inodes src).attr content.length := by
  simp only [FailsBefore, not_or, Bool.not_eq_false] at hfine
  obtain ⟨hstatvfs, hspace, hopen, hread⟩ := hfine
  obtain ⟨hfs, hdescs, hhead, hname, hcomp⟩ := flushFileCache_same s f
  have hfind : s.fs.find (s.files f).filename ≠ none := by
    rw [Backing.inoOf_eq_some.mp h.ino]
    exact Option.some_ne_none _
  have hmodule : (s.files f).compressor.getD m = m := by
    rcases h.compressor with hnone | hsome
    · rw [hnone]
      rfl
    · rw [hsome]
      rfl
  unfold doDecompress
  rw [if_neg (by simp [hstatvfs, hfind]), if_neg (by simp [hspace])]
  dsimp only
  generalize flushFileCache s f = s₁ at hfs hdescs hhead hname hcomp ⊢
  have hparse : parse Γ (s₁.data src) = some (m, (content.length : Int)) := by
    rw [State.data, hfs]
    exact h.parse
  rw [if_pos hopen, hfs, hname, h.ino]
  dsimp only
  rw [if_neg (by simp [hread]), hparse]
  dsimp only
  simp only [State.files_modFile, if_true, Option.getD_some, hcomp, hmodule, decide_true, State.assert_true, State.fs_modFile, hhead]
  -- every descriptor is closed
  have hopen₁ : ∀ d ∈ (s.files f).head, ∃ pos,
      ((s₁.modFile f (fun file => { file with compressor := some (file.compressor.getD m) })).descs d).fd = some ⟨src, pos⟩ := by
    intro d hd
    rw [State.descs_modFile, hdescs]
    exact h.attached d hd
  have hclosed := shutdown_closeAll Γ env (f := f) (m := m) h.nodup hopen₁ (by simp [hcomp, hmodule])
  have hbooks := books_closeAll Γ env (s₁.modFile f (fun file => { file with compressor := some (file.compressor.getD m) })) f
    (s.files f).head
  generalize closeAll Γ env (s₁.modFile f (fun file => { file with compressor := some (file.compressor.getD m) })) f
    (s.files f).head = s₂ at hclosed hbooks
  have hhead₂ : (s₂.files f).head = (s.files f).head := by
    have hsame := congrFun (congrArg Books.head hbooks) f
    simp only [State.books, State.files_modFile, if_true] at hsame
    exact hsame.trans hhead
  have hname₂ : (s₂.files f).filename = (s.files f).filename := by
    have hsame := congrFun (congrArg Books.filename hbooks) f
    simp only [State.books, State.files_modFile, if_true] at hsame
    exact hsame.trans hname
  have hdata₂ : s₂.data src = settled Γ env m s.descs (s.data src) (s.files f).head := by
    have hsame := hclosed.data
    rw [State.data_modFile, State.descs_modFile, hdescs] at hsame
    rw [hsame, State.data, hfs]
    rfl
  have hempty : s.Emptied Γ env m s₂ f src := by
    refine ⟨hhead₂, ?_, hdata₂, ?_, fun d hd => ?_, ?_⟩
    · rw [hclosed.path, State.fs_modFile, hfs, hname₂]
      exact h.ino
    · rw [hclosed.compressor]
      simp [hcomp, hmodule]
    · rw [hhead₂] at hd
      exact hclosed.closed d hd
    · rw [hclosed.next, State.fs_modFile, hfs]
      exact h.lt_next
  refine ⟨s₂, hempty, ?_⟩
  have hdecode : (Γ.codec m).decode ((s₂.data src).drop headerSize) = some content := by
    rw [hdata₂]
    exact h.decode
  cases hfstat : env.ok .fstat with
  | false => rfl
  | true =>
    cases hmkstemp : env.ok .mkstemp with
    | false => rfl
    | true =>
      cases hdecompress : env.ok .decompress with
      | false => rfl
      | true => simp [hdecode]

/-- A file that a client reads is a well-formed compressed file. -/
theorem wellFormed_reading (env : Env) (content : Bytes) (hlt : content.length < 2 ^ 63) :
    (State.reading content).WellFormed .caching env 0 0 .null content := by
  have hhead : ((State.reading content).files 0).head = [0] := rfl
  have hdata : (State.reading content).data 0 = header .null content.length ++ content := rfl
  refine ⟨rfl, Nat.one_pos, ?_, ?_, Or.inr (packed_reading content hlt).1.compressor, ?_, ?_⟩
  · rw [hdata]
    exact parse_header (show Module.Available .caching .null from rfl) hlt content
  · have hsettled : settled .caching env .null (State.reading content).descs ((State.reading content).data 0) [0] =
        header .null content.length ++ content := rfl
    rw [hhead, hsettled, ← length_header .null content.length, List.drop_left]
    rfl
  · rw [hhead]
    exact List.nodup_singleton 0
  · intro d hd
    rw [hhead, List.mem_singleton] at hd
    subst hd
    exact ⟨_, rfl⟩

end FuseCompress
