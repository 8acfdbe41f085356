import FuseCompress.Effects
import FuseCompress.Theorems.Decompression

/-!
# Truncation

`fusecompress_truncate` decompresses the file first, or cuts the inode as it is, by what the entry knows of the file. An entry that
nobody has opened or asked for knows nothing, and takes a compressed file for a raw one. The inode that is cut as it is may have other
names: only opening for writing makes a private copy of it.
-/

namespace FuseCompress

variable {Γ : Config} {env : Env} {s s' s'' : State} {f : Nat} {m : Module}

/-! ## The text of a file -/

/-- What an inode holds once the modules on those of the descriptors `ds` that have it open have been closed. -/
def flushed (Γ : Config) (env : Env) (m : Module) (s : State) (ds : List Nat) (i : Nat) : Bytes :=
  settled Γ env m s.descs (s.data i) (ds.filter (fun d => (s.descs d).onInode i))

/-- What the bytes of a file stand for: themselves, or what the module named in the header makes of the stream behind it, when that
has the length the header gives. -/
def unpacked (Γ : Config) (data : Bytes) : Option Bytes :=
  match parse Γ data with
  | none => some data
  | some (m, size) => ((Γ.codec m).decode (data.drop headerSize)).filter (fun text => (text.length : Int) = size)

/-- The bytes of an inode with what the modules on the descriptors of an entry still hold. -/
def State.bytes (Γ : Config) (s : State) (f i : Nat) : Bytes :=
  match (s.files f).compressor with
  | none => s.data i
  | some m => flushed Γ .fine m s (s.files f).head i

/-- The uncompressed content of a path, with what the descriptors of an entry still hold. -/
def State.text (Γ : Config) (s : State) (f : Nat) (p : Filename) : Option Bytes :=
  (s.fs.inoOf p).bind (fun i => unpacked Γ (s.bytes Γ f i))

/-- What `truncate` promises: the path has the old text cut or extended with zeros, and every other path has the text it had. -/
structure Truncated (Γ : Config) (s s' : State) (f : Nat) (p : Filename) (n : Nat) : Prop where
  text : s'.text Γ f p = (s.text Γ f p).map (fun text => Bytes.resize text n)
  others : ∀ q, q ≠ p → s'.text Γ f q = s.text Γ f q

/-- The file is decompressed before it is cut: the entry knows the module that the header names, and what the streams still hold
gets into the file, behind its header. Where the module fails, `errno` is not 0. -/
structure CutsCopy (Γ : Config) (env : Env) (s : State) (f i n : Nat) : Prop where
  positive : 0 < n
  header : ∃ m k, (s.files f).compressor = some m ∧ parse Γ (s.data i) = some (m, k)
  streams : ∀ d ∈ (s.files f).head, ∀ fd, (s.descs d).writing → (s.descs d).fd = some fd →
    (env.of d).ok .codecClose = true ∧ (fd.ino = i → headerSize ≤ fd.pos)
  errno : env.ok .errno = true

/-- The file is cut as it is: it is cut to nothing, or it is raw and nobody writes a stream to it. No other name has the inode, or
the file has the right length already. -/
structure CutsInPlace (Γ : Config) (env : Env) (s : State) (f : Nat) (p : Filename) (i n : Nat) (text : Bytes) : Prop where
  raw : n = 0 ∨ (parse Γ (s.data i) = none ∧ ((s.files f).compressor = none ∨ ∀ d ∈ (s.files f).head, ¬(s.descs d).writing))
  alone : (∀ q, s.fs.inoOf q = some i → q = p) ∨ text.length = n
  streams : n = 0 → (s.files f).compressor ≠ none → ∀ d ∈ (s.files f).head, ∀ fd, (s.descs d).writing → (s.descs d).fd = some fd →
    fd.ino ≠ i → (env.of d).ok .codecClose = true

/-- What is left has the right text, and it is the text of no other file. -/
def CutsWell (Γ : Config) (env : Env) (s : State) (f : Nat) (p : Filename) (i n : Nat) (text : Bytes) : Prop :=
  parse Γ (Bytes.resize text n) = none ∧ (CutsCopy Γ env s f i n ∨ CutsInPlace Γ env s f p i n text)

/-- The length changes, and the file is cut as it is though another name has it, or though it is compressed and the entry does not
know it. In the second case what is left of the text does not start as a header does. -/
def CutsBadly (Γ : Config) (s : State) (f : Nat) (p : Filename) (i n : Nat) (text : Bytes) : Prop :=
  text.length ≠ n ∧
    ((n = 0 ∨ (s.files f).compressor = none ∨ parse Γ (s.data i) = none) ∧ (∃ q, q ≠ p ∧ s.fs.inoOf q = some i) ∨
      (s.files f).compressor = none ∧ parse Γ (s.data i) ≠ none ∧ (Bytes.resize text n).take 3 ≠ magic.take n)

/-! ## Closing the streams -/

/-- Some descriptors of an entry have been closed, one after the other. -/
structure State.PushesAll (Γ : Config) (env : Env) (m : Module) (s s' : State) (f : Nat) (ds : List Nat) : Prop where
  data : ∀ i, s'.data i = flushed Γ env m s ds i
  path : ∀ p, s'.fs.inoOf p = s.fs.inoOf p
  next : s'.fs.next = s.fs.next
  compressor : (s'.files f).compressor = (s.files f).compressor
  head : (s'.files f).head = (s.files f).head
  filename : (s'.files f).filename = (s.files f).filename
  others : ∀ d, d ∉ ds → s'.descs d = s.descs d

theorem pushesAll_nil (s : State) : s.PushesAll Γ env m s f [] :=
  ⟨fun _ => rfl, fun _ => rfl, rfl, rfl, rfl, rfl, fun _ _ => rfl⟩

theorem State.Pushes.cons {d : Nat} {ds : List Nat} (hone : s.Pushes Γ (env.of d) m s' f d) (hall : s'.PushesAll Γ env m s'' f ds)
    (hnotin : d ∉ ds) : s.PushesAll Γ env m s'' f (d :: ds) where
  data i := by
    have hkept : ∀ d' ∈ ds, s'.descs d' = s.descs d' := by
      intro d' hd'
      refine hone.others d' ?_
      rintro rfl
      exact hnotin hd'
    have hfilter : ds.filter (fun d' => (s'.descs d').onInode i) = ds.filter (fun d' => (s.descs d').onInode i) :=
      List.filter_congr (fun d' hd' => by rw [hkept d' hd'])
    have hsettled : ∀ data, settled Γ env m s'.descs data (ds.filter (fun d' => (s.descs d').onInode i)) =
        settled Γ env m s.descs data (ds.filter (fun d' => (s.descs d').onInode i)) :=
      settled_congr (fun d' hd' => hkept d' (List.mem_of_mem_filter hd'))
    rw [hall.data, flushed, hfilter, hsettled, hone.data, flushed, List.filter_cons]
    split
    · rw [settled]
    · rfl
  path p := (hall.path p).trans (hone.path p)
  next := hall.next.trans hone.next
  compressor := hall.compressor.trans hone.compressor
  head := hall.head.trans hone.head
  filename := hall.filename.trans hone.filename
  others d' hd' := by
    rw [List.mem_cons, not_or] at hd'
    rw [hall.others d' hd'.2, hone.others d' hd'.1]

theorem pushesAll_closeAll (Γ : Config) (env : Env) {ds : List Nat} (hm : (s.files f).compressor = some m) (hnodup : ds.Nodup) :
    s.PushesAll Γ env m (closeAll Γ env s f ds) f ds := by
  induction ds generalizing s with
  | nil => exact pushesAll_nil s
  | cons d ds ih =>
    obtain ⟨hnotin, hnodup⟩ := List.nodup_cons.mp hnodup
    have hone := (pushes_directClose Γ (env.of d) hm d).fileClose
    exact hone.cons (ih (hone.compressor.trans hm) hnodup) hnotin

theorem pushesAll_truncateClose (Γ : Config) (env : Env) {ds : List Nat} (hm : (s.files f).compressor = some m) (hnodup : ds.Nodup) :
    s.PushesAll Γ env m (truncateClose Γ env s f ds) f ds := by
  induction ds generalizing s with
  | nil => exact pushesAll_nil s
  | cons d ds ih =>
    obtain ⟨hnotin, hnodup⟩ := List.nodup_cons.mp hnodup
    have hone := (pushes_directClose Γ (env.of d) hm d).modDesc (fun desc =>
      { desc with fd := if (env.of d).ok .lseek then desc.fd.map (fun fd => { fd with pos := 0 }) else desc.fd })
    exact hone.cons (ih (hone.compressor.trans hm) hnodup) hnotin

/-! ## The copy that `do_decompress` makes -/

/-- `do_decompress` has put a new inode with the text of the file in place of the file, and closed its streams. -/
structure State.Swapped (Γ : Config) (env : Env) (m : Module) (s s' : State) (f : Nat) (text : Bytes) : Prop where
  path : ∀ q, s'.fs.inoOf q = if q = (s.files f).filename then some s.fs.next else s.fs.inoOf q
  copy : s'.data s.fs.next = text
  data : ∀ i, i ≠ s.fs.next → s'.data i = flushed Γ env m s (s.files f).head i
  compressor : (s'.files f).compressor = none

theorem State.PushesAll.modFile {ds : List Nat} (h : s.PushesAll Γ env m s' f ds) {k : FileT → FileT}
    (hk : ∀ x, (k x).compressor = x.compressor ∧ (k x).head = x.head ∧ (k x).filename = x.filename) :
    s.PushesAll Γ env m (s'.modFile f k) f ds := by
  refine ⟨h.data, h.path, h.next, ?_, ?_, ?_, h.others⟩
  all_goals rw [State.files_modFile, if_pos rfl]
  · exact (hk _).1.trans h.compressor
  · exact (hk _).2.1.trans h.head
  · exact (hk _).2.2.trans h.filename

theorem doDecompressInstall_swapped {text : Bytes} {st a : Attr} (h : s.PushesAll Γ env m s' f (s.files f).head)
    (hinstall : doDecompressInstall env (s'.withFs (fun b => b.alloc text a)) f s'.fs.next st text.length = (s'', true)) :
    s.Swapped Γ env m s'' f text := by
  unfold doDecompressInstall at hinstall
  dsimp only at hinstall
  split at hinstall
  · cases hinstall
  · split at hinstall
    · cases hinstall
    · cases hinstall
      refine ⟨fun q => ?_, ?_, fun i hi => ?_, ?_⟩
      · simp [Backing.utime, Backing.inoOf_setName, h.path, h.next, h.filename]
      · simp [State.data, Backing.utime, Backing.inodes_alloc, ← h.next]
      · rw [← h.next] at hi
        simpa [State.data, Backing.utime, Backing.inodes_alloc, hi] using h.data i
      · simp

/-- `do_decompress` on a file that has a header. -/
theorem doDecompress_swapped {src : Nat} {k : Int} (hm : (s.files f).compressor = some m) (hnodup : (s.files f).head.Nodup)
    (hsrc : s.fs.inoOf (s.files f).filename = some src) (hparse : parse Γ (s.data src) = some (m, k))
    (h : doDecompress Γ env s f = (s', true)) :
    ∃ text, (Γ.codec m).decode ((flushed Γ env m s (s.files f).head src).drop headerSize) = some text ∧ (text.length : Int) = k ∧
      s.Swapped Γ env m s' f text := by
  obtain ⟨hfs, hdescs, hhead, hname, hcomp⟩ := flushFileCache_same s f
  unfold doDecompress at h
  split at h
  · cases h
  split at h
  · cases h
  dsimp only at h
  generalize flushFileCache s f = s₁ at h hfs hdescs hhead hname hcomp
  split at h
  · cases h
  rename_i i hopen
  have hi : i = src := by
    split at hopen
    · rw [hfs, hname, hsrc] at hopen
      exact (Option.some.inj hopen).symm
    · cases hopen
  subst hi
  split at h
  · cases h
  have hdata : s₁.data i = s.data i := by
    unfold State.data
    rw [hfs]
  rw [hdata, hparse] at h
  dsimp only at h
  have hmodule : (s₁.files f).compressor.getD m = m := by
    rw [hcomp, hm]
    rfl
  simp only [State.files_modFile, if_true, Option.getD_some, hmodule, decide_true, State.assert_true, hhead] at h
  obtain ⟨s₂, hs₂⟩ : ∃ s₂, s₂ = s₁.modFile f (fun file => { file with compressor := some (file.compressor.getD m) }) := ⟨_, rfl⟩
  have hcomp₂ : (s₂.files f).compressor = some m := by
    rw [hs₂, State.files_modFile, if_pos rfl, hmodule]
  have hclosed := pushesAll_closeAll Γ env hcomp₂ hnodup
  have hall : s.PushesAll Γ env m (closeAll Γ env s₂ f (s.files f).head) f (s.files f).head := by
    refine ⟨fun j => ?_, fun q => ?_, ?_, ?_, ?_, ?_, fun d hd => ?_⟩
    · rw [hclosed.data, hs₂]
      unfold flushed State.data
      rw [State.descs_modFile, State.fs_modFile, hdescs, hfs]
    · rw [hclosed.path, hs₂, State.fs_modFile, hfs]
    · rw [hclosed.next, hs₂, State.fs_modFile, hfs]
    · rw [hclosed.compressor, hs₂, State.files_modFile, if_pos rfl, hmodule, hm]
    · rw [hclosed.head, hs₂, State.files_modFile, if_pos rfl]
      exact hhead
    · rw [hclosed.filename, hs₂, State.files_modFile, if_pos rfl]
      exact hname
    · rw [hclosed.others d hd, hs₂, State.descs_modFile, hdescs]
  rw [hs₂] at hall
  generalize closeAll Γ env _ f (s.files f).head = s₃ at h hall
  split at h
  · cases h
  split at h
  · cases h
  split at h
  · cases h
  rename_i text hdecode
  split at h
  · cases h
  rename_i hlength
  refine ⟨text, ?_, not_not.mp hlength, doDecompressInstall_swapped (hall.modFile (fun x => ?_)) h⟩
  · split at hdecode
    · rw [State.data_modFile, hall.data] at hdecode
      exact hdecode
    · cases hdecode
  · unfold acknowledgeCancel
    split <;> exact ⟨rfl, rfl, rfl⟩

/-- `do_decompress` on a file that has no header. -/
theorem doDecompress_raw {src : Nat} (hsrc : s.fs.inoOf (s.files f).filename = some src) (hparse : parse Γ (s.data src) = none)
    (h : doDecompress Γ env s f = (s', true)) : s'.fs = s.fs ∧ s'.descs = s.descs ∧ (s'.files f).compressor = none := by
  obtain ⟨hfs, hdescs, -, hname, -⟩ := flushFileCache_same s f
  unfold doDecompress at h
  split at h
  · cases h
  split at h
  · cases h
  dsimp only at h
  generalize flushFileCache s f = s₁ at h hfs hdescs hname
  split at h
  · cases h
  rename_i i hopen
  have hi : i = src := by
    split at hopen
    · rw [hfs, hname, hsrc] at hopen
      exact (Option.some.inj hopen).symm
    · cases hopen
  subst hi
  split at h
  · cases h
  have hdata : s₁.data i = s.data i := by
    unfold State.data
    rw [hfs]
  rw [hdata, hparse] at h
  cases h
  refine ⟨hfs, hdescs, ?_⟩
  rw [State.files_modFile, if_pos rfl]

/-- Where it fails on a file without a header, a call has failed, or there is no room. -/
theorem errno_of_doDecompress_raw {src : Nat} (hsrc : s.fs.inoOf (s.files f).filename = some src)
    (hparse : parse Γ (s.data src) = none) (h : doDecompress Γ env s f = (s', false)) : decompressErrno Γ env s f = true := by
  obtain ⟨hfs, -, -, hname, -⟩ := flushFileCache_same s f
  by_contra hnone
  simp only [decompressErrno, List.any_cons, List.any_nil, Bool.or_eq_true, Bool.not_eq_true', not_or, Bool.not_eq_false] at hnone
  obtain ⟨⟨⟨-, -⟩, hspace⟩, hstatvfs, hopen, hheader, -⟩ := hnone
  unfold doDecompress at h
  rw [if_neg (by simp [hstatvfs, Backing.inoOf_eq_some.mp hsrc]), if_neg (by simp [hspace])] at h
  dsimp only at h
  generalize flushFileCache s f = s₁ at h hfs hname
  have hdata : s₁.data src = s.data src := by
    unfold State.data
    rw [hfs]
  rw [if_pos hopen, hfs, hname, hsrc] at h
  dsimp only at h
  rw [if_neg (by simp [hheader]), hdata, hparse] at h
  cases h

/-! ## Headers and streams -/

theorem unpacked_of_none {data : Bytes} (h : parse Γ data = none) : unpacked Γ data = some data := by
  unfold unpacked
  rw [h]

theorem unpacked_of_some {data text : Bytes} {k : Int} (h : parse Γ data = some (m, k))
    (hdecode : (Γ.codec m).decode (data.drop headerSize) = some text) (hk : (text.length : Int) = k) : unpacked Γ data = some text := by
  unfold unpacked
  rw [h]
  dsimp only
  rw [hdecode]
  simp [hk]

theorem text_of_raw (hcomp : (s.files f).compressor = none) (q : Filename) :
    s.text Γ f q = (s.fs.inoOf q).bind (fun i => unpacked Γ (s.data i)) := by
  unfold State.text State.bytes
  rw [hcomp]

theorem text_of_packed (hcomp : (s.files f).compressor = some m) (q : Filename) :
    s.text Γ f q = (s.fs.inoOf q).bind (fun i => unpacked Γ (flushed Γ .fine m s (s.files f).head i)) := by
  unfold State.text State.bytes
  rw [hcomp]

/-- A module that is not writing holds nothing back. -/
theorem pushed_of_not_writing {desc : Desc} (h : ¬desc.writing) (data : Bytes) : pushed Γ env m desc data = data := by
  unfold pushed
  split
  · rename_i chunks fd hhandle _
    exact absurd ⟨chunks, hhandle⟩ h
  · rfl

theorem settled_of_not_writing {descs : Nat → Desc} {ds : List Nat} (h : ∀ d ∈ ds, ¬(descs d).writing) (data : Bytes) :
    settled Γ env m descs data ds = data := by
  induction ds generalizing data with
  | nil => rfl
  | cons d ds ih =>
    rw [settled, pushed_of_not_writing (h d List.mem_cons_self)]
    exact ih (fun d' hd' => h d' (List.mem_cons_of_mem d hd')) data

/-- Closing succeeds, so nothing that a module holds is lost. -/
theorem settled_fine {descs : Nat → Desc} {ds : List Nat}
    (h : ∀ d ∈ ds, ∀ fd, (descs d).writing → (descs d).fd = some fd → (env.of d).ok .codecClose = true) (data : Bytes) :
    settled Γ env m descs data ds = settled Γ .fine m descs data ds := by
  induction ds generalizing data with
  | nil => rfl
  | cons d ds ih =>
    have hone : pushed Γ (env.of d) m (descs d) data = pushed Γ (Env.fine.of d) m (descs d) data := by
      unfold pushed
      split
      · rename_i chunks fd hhandle hfd
        rw [if_pos (h d List.mem_cons_self fd ⟨chunks, hhandle⟩ hfd)]
        rfl
      · rfl
    rw [settled, settled, hone]
    exact ih (fun d' hd' => h d' (List.mem_cons_of_mem d hd')) _

theorem flushed_fine {ds : List Nat} {i : Nat} (h : ∀ d ∈ ds, ∀ fd, (s.descs d).writing → (s.descs d).fd = some fd → fd.ino = i →
    (env.of d).ok .codecClose = true) : flushed Γ env m s ds i = flushed Γ .fine m s ds i := by
  refine settled_fine (fun d hd fd hw hfd => ?_) _
  obtain ⟨hmem, hon⟩ := List.mem_filter.mp hd
  unfold Desc.onInode at hon
  rw [hfd] at hon
  exact h d hmem fd hw hfd (of_decide_eq_true hon)

/-- The header is in the first bytes of a file. -/
theorem parse_congr {data data' : Bytes} (hl : headerSize ≤ data.length) (hl' : headerSize ≤ data'.length)
    (h : data'.take headerSize = data.take headerSize) : parse Γ data' = parse Γ data := by
  have hmagic : data'.take 3 = data.take 3 := by
    have := congrArg (List.take 3) h
    rwa [List.take_take, List.take_take] at this
  have htype : (data'.drop 3).headD 0 = (data.drop 3).headD 0 := by
    have := congrArg (fun x => (x.drop 3).headD 0) h
    simpa [List.headD_eq_head?_getD, List.head?_drop, headerSize] using this
  have hsize : Bytes.slice data' 4 8 = Bytes.slice data 4 8 := by
    have := congrArg (List.drop 4) h
    rwa [List.drop_take, List.drop_take] at this
  unfold parse fileCompressor
  rw [if_neg (Nat.not_lt.mpr hl), if_neg (Nat.not_lt.mpr hl'), hmagic, htype, hsize]

/-- Writing behind the header leaves it alone. -/
theorem parse_overwrite {data buf : Bytes} {pos : Nat} (hl : headerSize ≤ data.length) (hp : headerSize ≤ pos) :
    parse Γ (Bytes.overwrite data pos buf) = parse Γ data := by
  refine parse_congr hl ?_ ?_
  · rw [Bytes.length_overwrite]
    split <;> omega
  · unfold Bytes.overwrite
    split
    · rfl
    · have hfront : headerSize ≤ (data.take pos).length := by
        rw [List.length_take]
        omega
      rw [List.append_assoc, List.append_assoc, List.take_append_of_le_length hfront, List.take_take, Nat.min_eq_left hp]

theorem parse_settled {descs : Nat → Desc} {ds : List Nat} (h : ∀ d ∈ ds, ∀ fd, (descs d).writing → (descs d).fd = some fd → headerSize ≤ fd.pos)
    {data : Bytes} (hl : headerSize ≤ data.length) : parse Γ (settled Γ env m descs data ds) = parse Γ data := by
  induction ds generalizing data with
  | nil => rfl
  | cons d ds ih =>
    have hone : parse Γ (pushed Γ (env.of d) m (descs d) data) = parse Γ data ∧
        headerSize ≤ (pushed Γ (env.of d) m (descs d) data).length := by
      unfold pushed
      split
      · rename_i chunks fd hhandle hfd
        split
        · refine ⟨parse_overwrite hl (h d List.mem_cons_self fd ⟨chunks, hhandle⟩ hfd), ?_⟩
          rw [Bytes.length_overwrite]
          split <;> omega
        · exact ⟨rfl, hl⟩
      · exact ⟨rfl, hl⟩
    rw [settled, ih (fun d' hd' => h d' (List.mem_cons_of_mem d hd')) hone.2]
    exact hone.1

/-! ## `truncate` -/

theorem descs_discard (s : State) (f : Nat) : (discard Γ s f).descs = s.descs := by
  unfold discard dedupDiscard
  split
  · split
    · rfl
    · dsimp only
      split <;> rfl
  · rfl

theorem flushed_congr (hfs : s'.fs = s.fs) (hdescs : s'.descs = s.descs) (ds : List Nat) (i : Nat) :
    flushed Γ env m s' ds i = flushed Γ env m s ds i := by
  unfold flushed State.data
  rw [hfs, hdescs]

/-- The file has been opened, cut and closed. -/
theorem truncateFile_ok {t : State} {p : Filename} {n i : Nat} (hi : t.fs.inoOf p = some i) (h : truncateFile env t f p n = (s', .ok)) :
    (∀ q, s'.fs.inoOf q = t.fs.inoOf q) ∧ (∀ j, s'.data j = if j = i then Bytes.resize (t.data i) n else t.data j) ∧
      (s'.files f).compressor = (t.files f).compressor := by
  unfold truncateFile at h
  split at h
  · cases h
  · rename_i i' hopen
    have hsame : i' = i := by
      split at hopen
      · rw [hi] at hopen
        exact (Option.some.inj hopen).symm
      · cases hopen
    subst hsame
    cases h
    refine ⟨fun _ => rfl, fun j => ?_, ?_⟩
    · rw [State.data_modFile]
      exact Backing.data_setData _ _ _ _
    · rw [State.files_modFile, if_pos rfl]
      rfl

/-- A compressed file is decompressed, and the copy is cut. -/
theorem truncateLocked_copy {p : Filename} {n i : Nat} (hs : s.fs.Sound) (hnodup : (s.files f).head.Nodup) (hname : (s.files f).filename = p)
    (hi : s.fs.inoOf p = some i) (hcut : CutsCopy Γ env s f i n)
    (hshape : ∀ text, s.text Γ f p = some text → parse Γ (Bytes.resize text n) = none)
    (h : truncateLocked Γ env s f p n = (s', .ok)) : Truncated Γ s s' f p n := by
  obtain ⟨hpos, ⟨m, k, hm, hparse⟩, hstreams, herrno⟩ := hcut
  obtain ⟨b, hfile⟩ := files_discard (Γ := Γ) s f
  have hfs := fs_discard (Γ := Γ) s f
  have hdescs := descs_discard (Γ := Γ) s f
  unfold truncateLocked at h
  dsimp only at h
  generalize discard Γ s f = s₀ at h hfile hfs hdescs
  have hcomp₀ : (s₀.files f).compressor = some m := by
    rw [hfile]
    exact hm
  have hhead₀ : (s₀.files f).head = (s.files f).head := by rw [hfile]
  have hname₀ : (s₀.files f).filename = p := by
    rw [hfile]
    exact hname
  rw [if_pos hpos] at h
  unfold ensureRaw at h
  rw [if_neg (by rw [hcomp₀]; exact Option.some_ne_none m)] at h
  split at h
  · rename_i t hraw
    obtain ⟨text, hdecode, hlength, hswapped⟩ := doDecompress_swapped hcomp₀ (by rw [hhead₀]; exact hnodup)
      (by rw [hname₀, hfs]; exact hi) (by rw [State.data, hfs]; exact hparse) hraw
    -- nothing that the modules hold is lost
    have hflushed : ∀ j, flushed Γ env m s₀ (s₀.files f).head j = flushed Γ .fine m s (s.files f).head j := by
      intro j
      rw [hhead₀, flushed_congr hfs hdescs]
      exact flushed_fine (fun d hd fd hw hfd _ => (hstreams d hd fd hw hfd).1)
    rw [hflushed] at hdecode
    have hlen : headerSize ≤ (s.data i).length := by
      unfold parse at hparse
      split at hparse
      · cases hparse
      · omega
    have htext : s.text Γ f p = some text := by
      rw [text_of_packed hm, hi]
      refine unpacked_of_some ?_ hdecode hlength
      rw [← hparse]
      refine parse_settled (fun d hd fd hw hfd => ?_) hlen
      obtain ⟨hmem, hon⟩ := List.mem_filter.mp hd
      refine (hstreams d hmem fd hw hfd).2 ?_
      unfold Desc.onInode at hon
      rw [hfd] at hon
      exact of_decide_eq_true hon
    have hcopy : t.fs.inoOf p = some s.fs.next := by
      rw [hswapped.path, hname₀, if_pos rfl, hfs]
    obtain ⟨hpath, hdata, hcomp⟩ := truncateFile_ok hcopy h
    rw [hswapped.compressor] at hcomp
    constructor
    · rw [htext, text_of_raw hcomp, hpath, hcopy, Option.bind_some, hdata, if_pos rfl, ← hfs, hswapped.copy]
      exact unpacked_of_none (hshape text htext)
    · intro q hq
      rw [text_of_raw hcomp, text_of_packed hm, hpath, hswapped.path, hname₀, if_neg hq, hfs]
      cases hj : s.fs.inoOf q with
      | none => rfl
      | some j =>
        have hne : j ≠ s.fs.next := Nat.ne_of_lt (hs q j hj)
        rw [Option.bind_some, Option.bind_some, hdata, if_neg hne, hswapped.data j (by rw [hfs]; exact hne), hflushed]
  · rw [decompressErrno, herrno] at h
    cases h

/-- The file is not decompressed: what is cut is the file as it is, or with what the streams held. -/
theorem truncateLocked_cases {p : Filename} {n i : Nat} (hnodup : (s.files f).head.Nodup) (hname : (s.files f).filename = p)
    (hi : s.fs.inoOf p = some i) (hcut : n = 0 ∨ (s.files f).compressor = none ∨ parse Γ (s.data i) = none)
    (h : truncateLocked Γ env s f p n = (s', .ok)) :
    ∃ t, truncateFile env t f p n = (s', .ok) ∧ (t.files f).compressor = none ∧ (∀ q, t.fs.inoOf q = s.fs.inoOf q) ∧
      ((n ≠ 0 ∨ (s.files f).compressor = none) ∧ (∀ j, t.data j = s.data j) ∨
        ∃ m, n = 0 ∧ (s.files f).compressor = some m ∧ ∀ j, t.data j = flushed Γ env m s (s.files f).head j) := by
  obtain ⟨b, hfile⟩ := files_discard (Γ := Γ) s f
  have hfs := fs_discard (Γ := Γ) s f
  have hdescs := descs_discard (Γ := Γ) s f
  unfold truncateLocked at h
  dsimp only at h
  generalize discard Γ s f = s₀ at h hfile hfs hdescs
  have hcomp₀ : (s₀.files f).compressor = (s.files f).compressor := by rw [hfile]
  have hhead₀ : (s₀.files f).head = (s.files f).head := by rw [hfile]
  have hname₀ : (s₀.files f).filename = p := by
    rw [hfile]
    exact hname
  have hdata₀ : ∀ j, s₀.data j = s.data j := fun j => by rw [State.data, hfs]; rfl
  have hpath₀ : ∀ q, s₀.fs.inoOf q = s.fs.inoOf q := fun q => by rw [hfs]
  cases hcomp : (s.files f).compressor with
  | none =>
    rw [hcomp] at hcomp₀
    refine ⟨s₀, ?_, hcomp₀, hpath₀, Or.inl ⟨Or.inr rfl, hdata₀⟩⟩
    unfold ensureRaw at h
    rw [if_pos hcomp₀, if_pos hcomp₀] at h
    split at h <;> exact h
  | some m =>
    rw [hcomp] at hcomp₀
    split at h
    · rename_i hpos
      have hparse : parse Γ (s.data i) = none := by
        rcases hcut with hzero | hnone | hparse
        · omega
        · rw [hcomp] at hnone
          cases hnone
        · exact hparse
      unfold ensureRaw at h
      rw [if_neg (by rw [hcomp₀]; exact Option.some_ne_none m)] at h
      split at h
      · rename_i t hraw
        obtain ⟨hfs', -, hnone⟩ := doDecompress_raw (by rw [hname₀, hfs]; exact hi) (by rw [hdata₀]; exact hparse) hraw
        refine ⟨t, h, hnone, fun q => by rw [hfs', hpath₀], Or.inl ⟨Or.inl (Nat.ne_of_gt hpos), fun j => ?_⟩⟩
        rw [← hdata₀, State.data, hfs']
        rfl
      · rename_i t hraw
        rw [errno_of_doDecompress_raw (by rw [hname₀, hfs]; exact hi) (by rw [hdata₀]; exact hparse) hraw] at h
        cases h
    · rename_i hzero
      rw [if_neg (by rw [hcomp₀]; exact Option.some_ne_none m)] at h
      have hall := pushesAll_truncateClose Γ env hcomp₀ (hhead₀ ▸ hnodup)
      refine ⟨_, h, ?_, fun q => ?_, Or.inr ⟨m, by omega, rfl, fun j => ?_⟩⟩
      · rw [State.files_modFile, if_pos rfl]
      · rw [State.fs_modFile, hall.path, hpath₀]
      · rw [State.data_modFile, hall.data, hhead₀, flushed_congr hfs hdescs]

/-- A file that is cut as it is, and that nobody else has, has the right text. -/
theorem truncateLocked_inPlace {p : Filename} {n i : Nat} {text : Bytes} (hnodup : (s.files f).head.Nodup) (hname : (s.files f).filename = p)
    (hi : s.fs.inoOf p = some i) (htext : s.text Γ f p = some text) (hcut : CutsInPlace Γ env s f p i n text)
    (hshape : parse Γ (Bytes.resize text n) = none) (h : truncateLocked Γ env s f p n = (s', .ok)) : Truncated Γ s s' f p n := by
  obtain ⟨hraw, halone, hstreams⟩ := hcut
  obtain ⟨t, hfile, hcomp, hpath, hbytes⟩ := truncateLocked_cases hnodup hname hi (hraw.imp_right fun h => Or.inr h.1) h
  obtain ⟨hpath', hdata', hcomp'⟩ := truncateFile_ok ((hpath p).trans hi) hfile
  rw [hcomp] at hcomp'
  -- no stream is lost that belongs to another inode
  have hothers : ∀ j, j ≠ i → t.data j = s.bytes Γ f j := by
    intro j hj
    rcases hbytes with ⟨hnot, hsame⟩ | ⟨m, hzero, hm, hpushed⟩
    · rw [hsame]
      unfold State.bytes
      cases hm : (s.files f).compressor with
      | none => rfl
      | some m =>
        refine (settled_of_not_writing (fun d hd => ?_) _).symm
        rcases hraw with hzero | ⟨-, hnone | hnone⟩
        · rcases hnot with hne | hnone
          · exact absurd hzero hne
          · rw [hm] at hnone
            cases hnone
        · rw [hm] at hnone
          cases hnone
        · exact hnone d (List.mem_of_mem_filter hd)
    · rw [hpushed]
      unfold State.bytes
      rw [hm]
      refine flushed_fine (fun d hd fd hw hfd hino => hstreams hzero ?_ d hd fd hw hfd ?_)
      · rw [hm]
        exact Option.some_ne_none m
      · rw [hino]
        exact hj
  have hown : unpacked Γ (s.bytes Γ f i) = some text := by
    rw [State.text, hi] at htext
    exact htext
  have hcut : Bytes.resize (t.data i) n = Bytes.resize text n := by
    by_cases hzero : n = 0
    · rw [hzero, Bytes.resize_zero, Bytes.resize_zero]
    · rcases hbytes with ⟨-, hsame⟩ | ⟨m, hz, -⟩
      · obtain ⟨hparse, hnone⟩ := hraw.resolve_left hzero
        have hbytes : s.bytes Γ f i = s.data i := by
          unfold State.bytes
          cases hm : (s.files f).compressor with
          | none => rfl
          | some m =>
            refine settled_of_not_writing (fun d hd => ?_) _
            rcases hnone with hnone | hnone
            · rw [hm] at hnone
              cases hnone
            · exact hnone d (List.mem_of_mem_filter hd)
        rw [hbytes, unpacked_of_none hparse] at hown
        rw [hsame, Option.some.inj hown]
      · exact absurd hz hzero
  constructor
  · rw [htext, text_of_raw hcomp', hpath', hpath, hi, Option.bind_some, hdata', if_pos rfl, hcut]
    exact unpacked_of_none hshape
  · intro q hq
    rw [text_of_raw hcomp', hpath', hpath, State.text]
    cases hj : s.fs.inoOf q with
    | none => rfl
    | some j =>
      rw [Option.bind_some, Option.bind_some, hdata']
      split
      · rename_i hji
        subst hji
        rcases halone with halone | hlength
        · exact absurd (halone q hj) hq
        · rw [hcut, unpacked_of_none hshape, hown, ← hlength, Bytes.resize, List.take_length, Nat.sub_self]
          exact congrArg some (List.append_nil text)
      · rename_i hji
        rw [hothers j hji]

/-- A file that is cut as it is, and that another name refers to, loses the text of the other name. -/
theorem truncateLocked_shared {p q : Filename} {n i : Nat} {text : Bytes} (hnodup : (s.files f).head.Nodup) (hname : (s.files f).filename = p)
    (hi : s.fs.inoOf p = some i) (htext : s.text Γ f p = some text)
    (hcut : n = 0 ∨ (s.files f).compressor = none ∨ parse Γ (s.data i) = none) (hq : q ≠ p) (hqi : s.fs.inoOf q = some i)
    (hlength : text.length ≠ n) (h : truncateLocked Γ env s f p n = (s', .ok)) : ¬Truncated Γ s s' f p n := by
  intro htruncated
  obtain ⟨t, hfile, -, hpath, -⟩ := truncateLocked_cases hnodup hname hi hcut h
  obtain ⟨hpath', -, -⟩ := truncateFile_ok ((hpath p).trans hi) hfile
  have hbefore : s.text Γ f q = s.text Γ f p := by
    unfold State.text
    rw [hqi, hi]
  have hafter : s'.text Γ f q = s'.text Γ f p := by
    unfold State.text
    rw [hpath', hpath', hpath, hpath, hqi, hi]
  have hsame : some text = some (Bytes.resize text n) := by
    rw [← htext, ← hbefore, ← htruncated.others q hq, hafter, htruncated.text, htext]
    rfl
  have hlen := congrArg List.length (Option.some.inj hsame)
  rw [Bytes.length_resize] at hlen
  exact hlength hlen

/-- The text of a compressed file has the length that its header gives. -/
theorem length_unpacked {data text : Bytes} {k : Int} (hparse : parse Γ data = some (m, k)) (h : unpacked Γ data = some text) :
    (text.length : Int) = k := by
  unfold unpacked at h
  rw [hparse] at h
  dsimp only at h
  rw [Option.filter_eq_some_iff] at h
  exact of_decide_eq_true h.2

/-- A compressed file that the entry takes for a raw one is cut as it is: its header is cut, or it says the old length. -/
theorem truncateLocked_packed {p : Filename} {n i : Nat} {text : Bytes} (hnodup : (s.files f).head.Nodup) (hname : (s.files f).filename = p)
    (hi : s.fs.inoOf p = some i) (htext : s.text Γ f p = some text) (hcomp : (s.files f).compressor = none)
    (hparse : parse Γ (s.data i) ≠ none) (hshape : (Bytes.resize text n).take 3 ≠ magic.take n) (hlength : text.length ≠ n)
    (h : truncateLocked Γ env s f p n = (s', .ok)) : ¬Truncated Γ s s' f p n := by
  intro htruncated
  obtain ⟨⟨m, k⟩, hsome⟩ := Option.ne_none_iff_exists'.mp hparse
  obtain ⟨hlen, hmagic⟩ : headerSize ≤ (s.data i).length ∧ (s.data i).take 3 = magic := by
    unfold parse at hsome
    split at hsome
    · cases hsome
    · rename_i hlen
      refine ⟨by omega, ?_⟩
      unfold fileCompressor at hsome
      split at hsome
      · cases hsome
      · rename_i hmagic
        exact not_not.mp hmagic
  obtain ⟨t, hfile, hcomp', hpath, hbytes⟩ := truncateLocked_cases hnodup hname hi (Or.inr (Or.inl hcomp)) h
  obtain ⟨hpath', hdata', hcomp''⟩ := truncateFile_ok ((hpath p).trans hi) hfile
  rw [hcomp'] at hcomp''
  have hsame : t.data i = s.data i := by
    rcases hbytes with ⟨-, hsame⟩ | ⟨m', -, hm, -⟩
    · exact hsame i
    · rw [hcomp] at hm
      cases hm
  have hbefore : unpacked Γ (s.data i) = some text := by
    rw [text_of_raw hcomp, hi] at htext
    exact htext
  have hafter : unpacked Γ (Bytes.resize (s.data i) n) = some (Bytes.resize text n) := by
    have htext' := htruncated.text
    rw [htext, text_of_raw hcomp'', hpath', hpath, hi, Option.bind_some, hdata', if_pos rfl, hsame] at htext'
    exact htext'
  by_cases hn : n < headerSize
  · have hshort : parse Γ (Bytes.resize (s.data i) n) = none := by
      unfold parse
      rw [Bytes.length_resize, if_pos hn]
    rw [unpacked_of_none hshort, Option.some.injEq] at hafter
    refine hshape ?_
    rw [← hafter, Bytes.resize, Nat.sub_eq_zero_of_le (Nat.le_of_lt (Nat.lt_of_lt_of_le hn hlen)), Bytes.zeros_zero, List.append_nil,
      List.take_take, Nat.min_comm, ← List.take_take, hmagic]
  · rw [Nat.not_lt] at hn
    have hkept : parse Γ (Bytes.resize (s.data i) n) = some (m, k) := by
      rw [← hsome]
      refine parse_congr hlen (by rw [Bytes.length_resize]; exact hn) ?_
      rw [Bytes.resize, List.take_append_of_le_length (by rw [List.length_take]; omega), List.take_take, Nat.min_eq_left hn]
    have hold := length_unpacked hsome hbefore
    have hnew := length_unpacked hkept hafter
    rw [Bytes.length_resize] at hnew
    omega

theorem Backing.sound_fileAt (p : Filename) (data : Bytes) : (Backing.fileAt p data).Sound := by
  intro q i hq
  rw [Backing.inoOf_eq_some] at hq
  simp only [Backing.find, Backing.fileAt, Assoc.find_cons] at hq
  split at hq
  · cases hq
    exact Nat.one_pos
  · cases hq

/-- A process in which nobody has looked at a compressed file yet. -/
def State.unseen (text : Bytes) : State :=
  (directOpen .caching .fine (State.mounted (.fileAt ['x'] (header .null text.length ++ text))) ['x']).1

end FuseCompress
