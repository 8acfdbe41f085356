import FuseCompress.Lemmas.Apart
import FuseCompress.Lemmas.Handles
import FuseCompress.Lemmas.Metadata
import FuseCompress.Lemmas.Reading
import FuseCompress.Serial
import FuseCompress.Theorems.Truncation

/-!
# How a file stands

The three ways in which the file of an entry holds its content while it has descriptors, when nothing fails and nobody comes between:
raw, compressed and complete, or with a stream that a descriptor is still writing. Each function that works on the file takes one of
them to one of them.
-/

namespace FuseCompress

/-- A descriptor without a handle. -/
structure Desc.Rests (desc : Desc) (i pos : Nat) : Prop where
  handle : desc.handle = none
  offset : desc.offset = 0
  fd : desc.fd = some ⟨i, pos⟩

/-- The file of an entry is raw. -/
structure State.Bare (s : State) (f i : Nat) (content : Bytes) : Prop where
  ino : s.fs.inoOf (s.files f).filename = some i
  data : s.data i = content
  compressor : (s.files f).compressor = none
  descs : ∀ d ∈ (s.files f).head, ∃ pos, (s.descs d).Rests i pos

/-- The file of an entry is compressed with the module `m`. Only a file that has been read has open streams. -/
structure State.Sealed (Γ : Config) (s : State) (f i : Nat) (m : Module) (content : Bytes) : Prop where
  ino : s.fs.inoOf (s.files f).filename = some i
  parse : parse Γ (s.data i) = some (m, (content.length : Int))
  decode : (Γ.codec m).decode ((s.data i).drop headerSize) = some content
  compressor : (s.files f).compressor = some m
  size : (s.files f).size = (content.length : Int)
  descs : ∀ d ∈ (s.files f).head, (s.descs d).Rests i headerSize ∨
    ((s.files f).type = .read ∧ (∃ pos, (s.descs d).fd = some ⟨i, pos⟩) ∧
      (s.descs d).handle = some (.reading headerSize (s.descs d).offset) ∧ (s.descs d).offset ≤ content.length)

/-- The descriptor `w` is writing the stream of the file; it has written `chunks`. -/
structure State.Streaming (Γ : Config) (s : State) (f i : Nat) (m : Module) (content : Bytes) (w : Nat) (chunks : List Bytes) :
    Prop where
  ino : s.fs.inoOf (s.files f).filename = some i
  data : s.data i = header m (content.length : Int) ++ (Γ.codec m).emitted chunks
  text : chunks.flatten = content
  available : m.Available Γ
  compressor : (s.files f).compressor = some m
  size : (s.files f).size = (content.length : Int)
  type : (s.files f).type = .write
  nonempty : content ≠ []
  mem : w ∈ (s.files f).head
  handle : (s.descs w).handle = some (.writing chunks)
  offset : (s.descs w).offset = content.length
  fd : (s.descs w).fd = some ⟨i, (s.data i).length⟩
  others : ∀ d ∈ (s.files f).head, d ≠ w → (s.descs d).Rests i headerSize

/-- A file that is taken for empty is empty. -/
def FileT.Honest (file : FileT) (content : Bytes) : Prop := file.size = 0 → file.dontcompress = false → content = []

/-- The file of an entry is compressed, complete or not. -/
def State.Stored (Γ : Config) (s : State) (f i : Nat) (m : Module) (content : Bytes) : Prop :=
  s.Sealed Γ f i m content ∨ ∃ w chunks, s.Streaming Γ f i m content w chunks

/-- The file of an entry holds its content in one of the three ways. -/
def State.Stands (Γ : Config) (s : State) (f i : Nat) (content : Bytes) : Prop :=
  s.Bare f i content ∧ (s.files f).Honest content ∨ ∃ m, s.Stored Γ f i m content

variable {Γ : Config} {env : Env} {s s' : State} {f i d w : Nat} {m : Module} {content : Bytes} {chunks : List Bytes}

/-! ## Decompressing -/

/-- One descriptor writes: closing all of them appends what its module still holds. -/
theorem settled_writer {descs : Nat → Desc} {ds : List Nat} {fd : Fd} (hnodup : ds.Nodup) (hw : w ∈ ds)
    (hhandle : (descs w).handle = some (.writing chunks)) (hfd : (descs w).fd = some fd) (hok : (env.of w).ok .codecClose = true)
    (hothers : ∀ d ∈ ds, d ≠ w → ¬(descs d).writing) (data : Bytes) :
    settled Γ env m descs data ds = Bytes.overwrite data fd.pos ((Γ.codec m).tail chunks) := by
  induction ds generalizing data with
  | nil => cases hw
  | cons d ds ih =>
    rw [settled]
    obtain ⟨hnotin, hnodup'⟩ := List.nodup_cons.mp hnodup
    by_cases e : d = w
    · subst e
      have hrest : ∀ d' ∈ ds, ¬(descs d').writing := by
        intro d' hd'
        refine hothers d' (List.mem_cons_of_mem d hd') ?_
        rintro rfl
        exact hnotin hd'
      rw [settled_of_not_writing hrest, pushed, hhandle, hfd]
      exact if_pos hok
    · have hmem : w ∈ ds := (List.mem_cons.mp hw).resolve_left (fun e' => e e'.symm)
      rw [pushed_of_not_writing (hothers d (List.mem_cons_self ..) e)]
      exact ih hnodup' hmem (fun d' hd' => hothers d' (List.mem_cons_of_mem d hd')) data

theorem Desc.Rests.not_writing {desc : Desc} {pos : Nat} (h : desc.Rests i pos) : ¬desc.writing := by
  rintro ⟨chunks, hw⟩
  rw [h.handle] at hw
  cases hw

theorem State.Sealed.not_writing (h : s.Sealed Γ f i m content) (hd : d ∈ (s.files f).head) : ¬(s.descs d).writing := by
  rintro ⟨chunks, hw⟩
  rcases h.descs d hd with hrest | ⟨-, -, hread, -⟩
  · exact hrest.not_writing ⟨chunks, hw⟩
  · rw [hread] at hw
    cases hw

theorem State.Sealed.attached (h : s.Sealed Γ f i m content) (hd : d ∈ (s.files f).head) : ∃ pos, (s.descs d).fd = some ⟨i, pos⟩ := by
  rcases h.descs d hd with hrest | ⟨-, hfd, -, -⟩
  · exact ⟨_, hrest.fd⟩
  · exact hfd

theorem State.Streaming.attached (h : s.Streaming Γ f i m content w chunks) (hd : d ∈ (s.files f).head) :
    ∃ pos, (s.descs d).fd = some ⟨i, pos⟩ := by
  by_cases e : d = w
  · subst e
    exact ⟨_, h.fd⟩
  · exact ⟨_, (h.others d hd e).fd⟩

/-- The bytes of a stream, with the header of its length in front, read back. -/
theorem State.Streaming.decode (h : s.Streaming Γ f i m content w chunks) (hexact : (Γ.codec m).Exact) :
    (Γ.codec m).decode ((s.data i ++ (Γ.codec m).tail chunks).drop headerSize) = some content := by
  have hdrop : (s.data i ++ (Γ.codec m).tail chunks).drop headerSize = (Γ.codec m).emitted chunks ++ (Γ.codec m).tail chunks := by
    rw [h.data, List.append_assoc]
    exact List.drop_left' (length_header m _)
  rw [hdrop, hexact.stream, h.text]

theorem State.Streaming.parse (h : s.Streaming Γ f i m content w chunks) (hlt : content.length < 2 ^ 63) (rest : Bytes) :
    parse Γ (s.data i ++ rest) = some (m, (content.length : Int)) := by
  rw [h.data, List.append_assoc]
  exact parse_header h.available hlt _

/-- A compressed file whose descriptors can all be closed. -/
theorem State.Sealed.wellFormed (h : s.Sealed Γ f i m content) (hlt : i < s.fs.next) (hnodup : (s.files f).head.Nodup) :
    s.WellFormed Γ env f i m content where
  ino := h.ino
  lt_next := hlt
  parse := h.parse
  decode := by
    rw [settled_of_not_writing (fun d hd => h.not_writing hd)]
    exact h.decode
  compressor := Or.inr h.compressor
  nodup := hnodup
  attached d hd := h.attached hd

theorem State.Streaming.wellFormed (h : s.Streaming Γ f i m content w chunks) (he : env.AllOk) (hexact : (Γ.codec m).Exact)
    (hlen : content.length < 2 ^ 63) (hlt : i < s.fs.next) (hnodup : (s.files f).head.Nodup) : s.WellFormed Γ env f i m content where
  ino := h.ino
  lt_next := hlt
  parse := by simpa using h.parse hlen []
  decode := by
    rw [settled_writer hnodup h.mem h.handle h.fd (he.of w _) (fun d hd hne => (h.others d hd hne).not_writing),
      Bytes.overwrite_at_end]
    exact h.decode hexact
  compressor := Or.inr h.compressor
  nodup := hnodup
  attached d hd := h.attached hd

theorem misplaced_closeAll (k : Streams) (ds : List Nat) : (k.closeAll ds).misplaced = k.misplaced := by
  induction ds generalizing k with
  | nil => rfl
  | cons d ds ih => exact ih (k.close d)

/-- Nothing keeps `do_decompress` from the header of the file. -/
theorem doDecompressOpens_wellFormed (he : env.AllOk) (ha : env.Ample) (h : s.WellFormed Γ env f i m content)
    (hlen : content.length < 2 ^ 63) (hsize : (s.files f).size = (content.length : Int)) :
    ¬FailsBefore Γ env s f ∧ doDecompressOpens Γ env s f = some i := by
  have hspace : enoughSpace Γ env (s.files f).size = true := by
    have hle : asU64 (content.length : Int) ≤ env.avail := by
      rw [asU64_of_nat (by omega)]
      exact Nat.le_of_lt (Nat.lt_of_lt_of_le hlen ha)
    simp [enoughSpace, hsize, hle]
  have hfind : s.fs.find (s.files f).filename ≠ none := by
    rw [Backing.inoOf_eq_some.mp h.ino]
    exact Option.some_ne_none _
  constructor
  · simp [FailsBefore, hspace, he .statvfs, he .open, he .readHeader]
  · rw [doDecompressOpens, if_neg (by simp [he .statvfs, hfind]), if_neg (by simp [hspace]),
      if_pos (by rw [he .open, he .readHeader]; rfl)]
    exact h.ino

/-- `do_decompress` leaves no handle on the descriptors of a compressed file. -/
theorem doDecompress_rests {k : Int} (hopens : doDecompressOpens Γ env s f = some i) (hparse : parse Γ (s.data i) = some (m, k))
    (hplaced : ∀ d ∈ (s.files f).head, (s.descs d).handle = none → (s.descs d).offset = 0) (hd : d ∈ (s.files f).head) :
    ((doDecompress Γ env s f).1.descs d).handle = none ∧ ((doDecompress Γ env s f).1.descs d).offset = 0 := by
  have hunpacking : (s.unpacking Γ f m).streams = s.streams.setModule f true := streams_unpacking m
  have hhead : ((s.unpacking Γ f m).files f).head = (s.files f).head := congrFun (congrArg Streams.head hunpacking) f
  have hmodule : (s.unpacking Γ f m).streams.hasModule f = true := by
    rw [hunpacking]
    exact Function.update_self ..
  obtain ⟨-, hclosed⟩ := uses_closeAll Γ env (f := f) (s.files f).head hmodule
  rw [hunpacking] at hclosed
  -- the module of the entry is the only thing the rest changes
  have hstreams : (doDecompress Γ env s f).1.streams.isOpen d = ((s.streams.setModule f true).closeAll (s.files f).head).isOpen d ∧
      (doDecompress Γ env s f).1.streams.misplaced d = s.streams.misplaced d := by
    have hplaces := congrFun (misplaced_closeAll (s.streams.setModule f true) (s.files f).head) d
    rcases (streams_doDecompress_some hopens).2 m k hparse with e | e
    · rw [e, hhead, hclosed]
      exact ⟨rfl, hplaces⟩
    · rw [e, hhead, hclosed]
      exact ⟨rfl, hplaces⟩
  have hhandle : ((doDecompress Γ env s f).1.descs d).handle = none := by
    have hnot : (doDecompress Γ env s f).1.streams.isOpen d = false := by
      rw [hstreams.1]
      by_contra hopen
      exact (Streams.isOpen_closeAll (Bool.not_eq_false _ ▸ hopen)).2.1 hd
    simpa using hnot
  refine ⟨hhandle, ?_⟩
  have hwas : s.streams.misplaced d = false := by
    cases hh : (s.descs d).handle with
    | none => simp [State.streams, hh, hplaced d hd hh]
    | some _ => simp [State.streams, hh]
  have hnow := hstreams.2.trans hwas
  simpa [State.streams, hhandle] using hnow

/-- `do_decompress` on a compressed file leaves a raw one. -/
theorem doDecompress_bare (he : env.AllOk) (ha : env.Ample) (h : s.WellFormed Γ env f i m content) (hlen : content.length < 2 ^ 63)
    (hsize : (s.files f).size = (content.length : Int))
    (hplaced : ∀ d ∈ (s.files f).head, (s.descs d).handle = none → (s.descs d).offset = 0) :
    ∃ s' j, doDecompress Γ env s f = (s', true) ∧ s'.Bare f j content := by
  obtain ⟨hfine, hopens⟩ := doDecompressOpens_wellFormed he ha h hlen hsize
  obtain ⟨s₁, hempty, heq⟩ := doDecompress_between h hfine
  have hrests := fun d hd => doDecompress_rests (d := d) hopens h.parse hplaced hd
  rw [if_neg (by simp [he .fstat, he .mkstemp]), if_neg (by simp [he .decompress])] at heq
  rw [heq] at hrests ⊢
  have hhead : ((s₁.modFile f acknowledgeCancel).files f).head = (s.files f).head := hempty.acknowledged.head
  have hnext : (s₁.modFile f acknowledgeCancel).fs.next = s₁.fs.next := rfl
  generalize s₁.modFile f acknowledgeCancel = s₂ at hhead hnext hrests ⊢
  unfold doDecompressInstall at hrests ⊢
  simp only [he .rename, he .utime, Bool.true_eq_false, if_false] at hrests ⊢
  refine ⟨_, s₁.fs.next, rfl, ?_, ?_, ?_, ?_⟩
  · simp [Backing.utime, Backing.inoOf_setName]
  · simp [State.data, Backing.utime, Backing.inodes_alloc, hnext]
  · simp
  · intro d hd
    replace hd : d ∈ (s₂.files f).head := by simpa using hd
    obtain ⟨hhandle, hoffset⟩ := hrests d (hhead ▸ hd)
    refine ⟨0, hhandle, hoffset, ?_⟩
    simp [descs_reopenAll, hd, he.of d .reopen]

theorem State.Sealed.of_same (h : s.Sealed Γ f i m content) (hfs : s'.fs = s.fs) (hdescs : s'.descs = s.descs)
    (hname : (s'.files f).filename = (s.files f).filename) (hcomp : (s'.files f).compressor = (s.files f).compressor)
    (hsize : (s'.files f).size = (s.files f).size) (hhead : (s'.files f).head = (s.files f).head)
    (htype : (s.files f).type = .read → (s'.files f).type = .read) : s'.Sealed Γ f i m content where
  ino := by
    rw [hfs, hname]
    exact h.ino
  parse := by
    rw [State.data, hfs]
    exact h.parse
  decode := by
    rw [State.data, hfs]
    exact h.decode
  compressor := hcomp.trans h.compressor
  size := hsize.trans h.size
  descs d hd := by
    rw [hdescs]
    rcases h.descs d (hhead ▸ hd) with hrest | ⟨hread, hopen⟩
    · exact Or.inl hrest
    · exact Or.inr ⟨htype hread, hopen⟩

theorem State.Streaming.of_same (h : s.Streaming Γ f i m content w chunks) (hfs : s'.fs = s.fs) (hdescs : s'.descs = s.descs)
    (hname : (s'.files f).filename = (s.files f).filename) (hcomp : (s'.files f).compressor = (s.files f).compressor)
    (hsize : (s'.files f).size = (s.files f).size) (hhead : (s'.files f).head = (s.files f).head)
    (htype : (s'.files f).type = (s.files f).type) : s'.Streaming Γ f i m content w chunks where
  ino := by
    rw [hfs, hname]
    exact h.ino
  data := by
    rw [State.data, hfs]
    exact h.data
  text := h.text
  available := h.available
  compressor := hcomp.trans h.compressor
  size := hsize.trans h.size
  type := htype.trans h.type
  nonempty := h.nonempty
  mem := by
    rw [hhead]
    exact h.mem
  handle := by
    rw [hdescs]
    exact h.handle
  offset := by
    rw [hdescs]
    exact h.offset
  fd := by
    rw [hdescs, State.data, hfs]
    exact h.fd
  others d hd hne := by
    rw [hdescs]
    exact h.others d (hhead ▸ hd) hne

/-- The access type of an entry that nobody has read or written is set. -/
theorem State.Stored.setType (h : s.Stored Γ f i m content) {g : FileT → FileT} (access : Access)
    (hg : ∀ x, (g x).filename = x.filename ∧ (g x).compressor = x.compressor ∧ (g x).size = x.size ∧ (g x).head = x.head ∧
      (g x).type = if x.type = .unset then access else x.type) : (s.modFile f g).Stored Γ f i m content := by
  obtain ⟨hname, hcomp, hsize, hhead, htype⟩ := hg (s.files f)
  rcases h with h | ⟨w, chunks, h⟩
  · refine Or.inl (h.of_same rfl rfl ?_ ?_ ?_ ?_ ?_)
    all_goals simp only [State.files_modFile, if_true]
    · exact hname
    · exact hcomp
    · exact hsize
    · exact hhead
    · intro hread
      rw [htype, hread]
      rfl
  · refine Or.inr ⟨w, chunks, h.of_same rfl rfl ?_ ?_ ?_ ?_ ?_⟩
    all_goals simp only [State.files_modFile, if_true]
    · exact hname
    · exact hcomp
    · exact hsize
    · exact hhead
    · rw [htype, h.type]
      rfl

theorem State.Stored.compressor (h : s.Stored Γ f i m content) : (s.files f).compressor = some m := by
  rcases h with h | ⟨w, chunks, h⟩
  · exact h.compressor
  · exact h.compressor

theorem State.Stored.attached (h : s.Stored Γ f i m content) (hd : d ∈ (s.files f).head) : ∃ pos, (s.descs d).fd = some ⟨i, pos⟩ := by
  rcases h with h | ⟨w, chunks, h⟩
  · exact h.attached hd
  · exact h.attached hd

/-- A stored file becomes a raw one. -/
theorem State.Stored.decompress (h : s.Stored Γ f i m content) (he : env.AllOk) (ha : env.Ample) (hexact : (Γ.codec m).Exact)
    (hlen : content.length < 2 ^ 63) (hlt : i < s.fs.next) (hnodup : (s.files f).head.Nodup) :
    ∃ s' j, doDecompress Γ env s f = (s', true) ∧ s'.Bare f j content := by
  rcases h with h | ⟨w, chunks, h⟩
  · refine doDecompress_bare he ha (h.wellFormed hlt hnodup) hlen h.size (fun d hd hnone => ?_)
    rcases h.descs d hd with hrest | ⟨-, -, hread, -⟩
    · exact hrest.offset
    · rw [hread] at hnone
      cases hnone
  · refine doDecompress_bare he ha (h.wellFormed he hexact hlen hlt hnodup) hlen h.size (fun d hd hnone => ?_)
    by_cases e : d = w
    · rw [e, h.handle] at hnone
      cases hnone
    · exact (h.others d hd e).offset

/-! ## Reading -/

/-- A compressed file that is not being written can be read. -/
theorem State.Sealed.packed (h : s.Sealed Γ f i m content) (hlen : content.length < 2 ^ 63) (htype : (s.files f).type ≠ .write)
    (hfile : ∀ d ∈ (s.files f).head, (s.descs d).file = f) : s.Packed Γ f i m content (s.files f).head where
  ino := h.ino
  parse := h.parse
  decode := h.decode
  length_lt := hlen
  compressor := h.compressor
  size := h.size
  type := htype
  head := rfl
  descs d hd := by
    rcases h.descs d hd with hrest | ⟨-, ⟨pos, hfd⟩, hread, hle⟩
    · exact ⟨hfile d hd, ⟨_, hrest.fd, fun _ => rfl⟩, Or.inl ⟨hrest.handle, hrest.offset⟩, by rw [hrest.offset]; exact Nat.zero_le _⟩
    · refine ⟨hfile d hd, ⟨pos, hfd, fun hnone => ?_⟩, Or.inr hread, hle⟩
      rw [hread] at hnone
      cases hnone

/-- What has been read stays a compressed file. -/
theorem State.Packed.sealed {ds : List Nat} (h : s.Packed Γ f i m content ds) (htype : (s.files f).type = .read) :
    s.Sealed Γ f i m content where
  ino := h.ino
  parse := h.parse
  decode := h.decode
  compressor := h.compressor
  size := h.size
  descs d hd := by
    have hreads := h.descs d (h.head ▸ hd)
    obtain ⟨pos, hfd, hpos⟩ := hreads.fd
    rcases hreads.handle with ⟨hnone, hzero⟩ | hread
    · rw [hpos hnone] at hfd
      exact Or.inl ⟨hnone, hzero, hfd⟩
    · exact Or.inr ⟨htype, ⟨pos, hfd⟩, hread, hreads.offset_le⟩

theorem files_codecRead (env : Env) (n : Nat) : (codecRead Γ env s m d n).1.files = s.files := by
  unfold codecRead
  split
  · split <;> rfl
  · rfl

/-- Skipping leaves the access type of the entry alone. -/
theorem type_skipLoop (env : Env) (cacheThis : Bool) (n toread : Nat) :
    ((skipLoop Γ env m f d cacheThis n toread s).1.files f).type = (s.files f).type := by
  induction n generalizing s toread with
  | zero => rfl
  | succ n ih =>
    unfold skipLoop
    split
    · rfl
    · have hread := files_codecRead (Γ := Γ) (s := countPage s (keepPage Γ s f d cacheThis)) (m := m) (d := d) env
        (min toread pageSize)
      dsimp only
      split
      · rename_i s₁ hr
        rw [hr] at hread
        rw [hread]
        rfl
      · rename_i s₁ buf hr
        rw [hr] at hread
        split
        · rw [hread]
          rfl
        · split
          · rw [hread]
            rfl
          · rw [ih, skipped, State.files_modDesc, State.files_modFile, if_pos rfl, hread]
            rfl

theorem files_decompressRead (size : Nat) (served : Bytes) : (decompressRead Γ env s m f d size served).1.files = s.files := by
  unfold decompressRead
  have hread := files_codecRead (Γ := Γ) (s := s) (m := m) (d := d) env (cutSize (s.files f) (s.descs d).offset size)
  dsimp only
  split
  · rename_i s₁ hr
    rw [hr] at hread
    exact hread
  · rename_i s₁ buf hr
    rw [hr] at hread
    split
    · exact hread
    · exact hread

theorem type_decompressSkip (env : Env) (size offset : Nat) (served : Bytes) :
    ((decompressSkip Γ env s m f d size offset false served).1.files f).type = (s.files f).type := by
  unfold decompressSkip
  split
  · have hskip := type_skipLoop (Γ := Γ) (s := s) (f := f) (d := d) (m := m) env false (offset - (s.descs d).offset)
      (offset - (s.descs d).offset)
    simp only [Bool.false_and, allocFails, allocCache, Bool.false_eq_true, false_and, if_false]
    split
    · rename_i s₁ r hs
      rw [hs] at hskip
      exact hskip
    · rename_i s₁ hs
      rw [hs] at hskip
      rw [files_decompressRead]
      exact hskip
  · rw [files_decompressRead]

/-- Without a cache `direct_decompress` either decompresses the whole file, or goes to the offset and reads on. -/
theorem directDecompress_uncached (hcaching : Γ.cacheDecompressedData = false) {size offset : Nat} {fd : Fd} {s₁ : State}
    (hfd : (s.descs d).fd = some fd)
    (hs₁ : s₁ = s.modFile f (fun file => { file with type := if file.type = .unset then .read else file.type })) :
    directDecompress Γ env s m f d size offset =
      if readFallback Γ (s₁.files f) s₁.decompCacheSize false (s₁.descs d).offset offset then
        match doDecompress Γ env s₁ f with
        | (s, false) => (s, .done (-1) [])
        | (s, true) =>
          let s := s.modFile f (fun file => { file with size := -1, skipped := 0 })
          (s, .pread (s.descs d).fd size offset [])
      else
        match decompressOpen Γ env s₁ m d offset with
        | (s, false) => (s, .done (-1) [])
        | (s, true) => decompressSkip Γ env s m f d size offset false [] := by
  have hserve : serveCache s₁ f false size offset = (s₁, [], false) := by simp [serveCache]
  have hcache : false = (Γ.cacheDecompressedData && decide (offset % pageSize = 0) && decide (size % pageSize = 0)) := by
    rw [hcaching]
    rfl
  rw [directDecompress_served env hfd hcache hs₁ hserve, if_neg (by simp)]
  rfl

/-- What a read gives the buffer, or the `pread` that it still makes. -/
structure State.Answers (Γ : Config) (s : State) (next : ReadNext) (f : Nat) (content : Bytes) (size offset : Nat) : Prop where
  stands : ∃ i, s.Stands Γ f i content
  reply : next = .done (Bytes.slice content offset size).length (Bytes.slice content offset size) ∨
    ∃ fd, next = .pread (some fd) size offset [] ∧ s.data fd.ino = content

theorem State.Bare.sizeUnknown (h : s.Bare f i content) {g : FileT → FileT}
    (hg : ∀ x, (g x).filename = x.filename ∧ (g x).compressor = x.compressor ∧ (g x).head = x.head ∧ (g x).size = -1) :
    (s.modFile f g).Bare f i content ∧ ((s.modFile f g).files f).Honest content := by
  obtain ⟨hname, hcomp, hhead, hsize⟩ := hg (s.files f)
  refine ⟨⟨?_, h.data, ?_, ?_⟩, ?_⟩
  · simpa [hname] using h.ino
  · simpa [hcomp] using h.compressor
  · simpa [hhead] using h.descs
  · intro hzero
    simp [hsize] at hzero

/-- A read of a compressed file. -/
theorem directDecompress_stands (he : env.AllOk) (ha : env.Ample) (hcaching : Γ.cacheDecompressedData = false)
    (hexact : (Γ.codec m).Exact) (h : s.Stored Γ f i m content) (hcache : (s.files f).cache = none) (hlen : content.length < 2 ^ 63)
    (hlt : i < s.fs.next) (hnodup : (s.files f).head.Nodup) (hfile : ∀ d ∈ (s.files f).head, (s.descs d).file = f)
    (hd : d ∈ (s.files f).head) (size offset : Nat) :
    (directDecompress Γ env s m f d size offset).1.Answers Γ (directDecompress Γ env s m f d size offset).2 f content size offset := by
  obtain ⟨pos, hfd⟩ := h.attached hd
  obtain ⟨s₁, hs₁⟩ : ∃ s₁, s₁ = s.modFile f (fun file => { file with type := if file.type = .unset then .read else file.type }) :=
    ⟨_, rfl⟩
  have h₁ : s₁.Stored Γ f i m content := by
    rw [hs₁]
    exact h.setType .read (fun _ => ⟨rfl, rfl, rfl, rfl, rfl⟩)
  have hhead₁ : (s₁.files f).head = (s.files f).head := by
    rw [hs₁]
    simp
  have hdescs₁ : s₁.descs = s.descs := by rw [hs₁]; rfl
  rw [directDecompress_uncached hcaching hfd hs₁]
  split
  · -- the whole file is decompressed first
    obtain ⟨s₂, j, hdec, hbare⟩ := h₁.decompress he ha hexact hlen (by rw [hs₁]; exact hlt) (by rw [hhead₁]; exact hnodup)
    rw [hdec]
    have hhead₂ : (s₂.files f).head = (s.files f).head := by
      have hacked := acked_doDecompress Γ env s₁ f
      rw [hdec] at hacked
      exact (congrFun hacked.head_owner.1 f).trans hhead₁
    obtain ⟨p, hrest⟩ := hbare.descs d (by rw [hhead₂]; exact hd)
    refine ⟨⟨j, Or.inl (hbare.sizeUnknown (g := fun file => { file with size := -1, skipped := 0 })
      (fun _ => ⟨rfl, rfl, rfl, rfl⟩))⟩, Or.inr ⟨⟨j, p⟩, ?_, hbare.data⟩⟩
    simp [hrest.fd]
  · rename_i hfallback
    have htype₁ : (s₁.files f).type = .read := by
      simp only [readFallback, Bool.or_eq_true, decide_eq_true_eq, not_or, not_not] at hfallback
      exact hfallback.1
    rcases h₁ with h₁ | ⟨w, chunks, h₁⟩
    · have hpacked := h₁.packed hlen (by rw [htype₁]; exact Access.noConfusion) (by rw [hhead₁, hdescs₁]; exact hfile)
      have hd₁ : d ∈ (s₁.files f).head := by
        rw [hhead₁]
        exact hd
      obtain ⟨s₂, hopen, hpacked₂, hfiles₂, -, hopened, hstart⟩ := decompressOpen_packed he hpacked hd₁ offset
      rw [hopen]
      dsimp only
      have hpages : s₂.CachesPages f content := by
        intro pages hpages
        rw [hfiles₂, hs₁] at hpages
        simp [hcache] at hpages
      have hle : (s₂.descs d).offset ≤ offset := by
        rw [hstart, skipStart]
        split
        · exact Nat.zero_le _
        · omega
      obtain ⟨s₃, hskip, hpacked₃, -⟩ :=
        (decompressSkip_packed he hpacked₂ hpages hd₁ hopened hle (Or.inl rfl) (fun hfalse => by cases hfalse) :
          ∃ s₃, decompressSkip Γ env s₂ m f d size offset false [] = _ ∧ _)
      have htype₃ := type_decompressSkip (Γ := Γ) (s := s₂) (m := m) (f := f) (d := d) env size offset []
      rw [hskip, hfiles₂, htype₁] at htype₃
      rw [hskip]
      exact ⟨⟨i, Or.inr ⟨m, Or.inl (hpacked₃.sealed htype₃)⟩⟩, Or.inl (by simp)⟩
    · rw [h₁.type] at htype₁
      cases htype₁

/-- A read, wherever the file stands. -/
theorem readLocked_stands (he : env.AllOk) (ha : env.Ample) (hcaching : Γ.cacheDecompressedData = false)
    (hexact : ∀ m, (Γ.codec m).Exact) (h : s.Stands Γ f i content) (hcache : (s.files f).cache = none)
    (hlen : content.length < 2 ^ 63) (hlt : i < s.fs.next) (hnodup : (s.files f).head.Nodup)
    (hfile : ∀ d ∈ (s.files f).head, (s.descs d).file = f) (hd : d ∈ (s.files f).head) (size offset : Nat) :
    (readLocked Γ env s f d size offset).1.Answers Γ (readLocked Γ env s f d size offset).2 f content size offset := by
  unfold readLocked
  rcases h with ⟨hbare, hhonest⟩ | ⟨m, hstored⟩
  · obtain ⟨pos, hrest⟩ := hbare.descs d hd
    rw [hbare.compressor]
    exact ⟨⟨i, Or.inl ⟨hbare, hhonest⟩⟩, Or.inr ⟨⟨i, pos⟩, by rw [hrest.fd], hbare.data⟩⟩
  · rw [hstored.compressor]
    exact directDecompress_stands he ha hcaching (hexact m) hstored hcache hlen hlt hnodup hfile hd size offset

/-! ## Writing -/

/-- What a write has done, or the `pwrite` that it still makes. -/
structure State.Accepts (Γ : Config) (s : State) (next : WriteNext) (f : Nat) (content buf : Bytes) (offset : Nat) : Prop where
  stands : (∃ i, next = .done buf.length ∧ s.Stands Γ f i (Bytes.overwrite content offset buf)) ∨
    ∃ i pos, next = .pwrite (some ⟨i, pos⟩) ∧ s.Bare f i content ∧
      ((s.files f).size = 0 → (s.files f).dontcompress = true)

@[simp] theorem files_writeFd (fd : Fd) (buf : Bytes) : (writeFd s d fd buf).files = s.files := by
  unfold writeFd
  dsimp only
  split <;> rfl

/-- The module gets some more bytes, and the header is brought up to date. -/
theorem compressWrite_streaming (he : env.AllOk) (chunks : List Bytes) (content buf : Bytes) {k : Int} (hino : s.fs.inoOf (s.files f).filename = some i)
    (hdata : s.data i = header m k ++ (Γ.codec m).emitted chunks) (htext : chunks.flatten = content) (havail : m.Available Γ)
    (hcomp : (s.files f).compressor = some m) (htype : (s.files f).type = .write) (hhead : (s.files f).head = [d])
    (hhandle : (s.descs d).handle = some (.writing chunks)) (hoffset : (s.descs d).offset = content.length)
    (hfd : (s.descs d).fd = some ⟨i, (s.data i).length⟩) (hbuf : buf ≠ []) :
    ∃ s', compressWrite Γ env s m f d buf = (s', .done buf.length) ∧
      s'.Streaming Γ f i m (content ++ buf) d (chunks ++ [buf]) := by
  have hemitted : (Γ.codec m).emitted (chunks ++ [buf]) = (Γ.codec m).emitted chunks ++ (Γ.codec m).emit chunks buf := by
    simp [Codec.emitted, Codec.emittedFrom_append, Codec.emittedFrom]
  unfold compressWrite
  rw [hhandle, hfd]
  dsimp only
  rw [if_neg (by simp [he .codecWrite]), if_neg (by simp [he .updateHeader])]
  refine ⟨_, rfl, ?_⟩
  -- the bytes of the module go to the end
  obtain ⟨s₁, hs₁⟩ : ∃ s₁, s₁ = writeFd s d ⟨i, (s.data i).length⟩ ((Γ.codec m).emit chunks buf) := ⟨_, rfl⟩
  have hdata₁ : s₁.data i = header m k ++ (Γ.codec m).emitted (chunks ++ [buf]) := by
    rw [hs₁, data_writeFd s d ⟨i, (s.data i).length⟩, Bytes.overwrite_at_end, hdata, hemitted, List.append_assoc]
  have hino₁ : ∀ p, s₁.fs.inoOf p = s.fs.inoOf p := by
    intro p
    rw [hs₁]
    exact (inoOf_writeFd s d _ _ p).1
  have hfiles₁ : s₁.files = s.files := by rw [hs₁, files_writeFd]
  have hoffset₁ : (s₁.descs d).offset = content.length := by
    rw [hs₁, descs_writeFd]
    exact hoffset
  rw [← hs₁]
  -- the header says how long the file is now
  obtain ⟨s₃, hs₃⟩ : ∃ s₃, s₃ = (s₁.modDesc d (fun desc =>
      { desc with handle := some (.writing (chunks ++ [buf])), offset := desc.offset + buf.length })).modFile f
        (fun file => { file with size := (((s₁.modDesc d (fun desc =>
          { desc with handle := some (.writing (chunks ++ [buf])), offset := desc.offset + buf.length })).descs d).offset : Int) }) :=
    ⟨_, rfl⟩
  rw [← hs₃]
  have hsize₃ : (s₃.files f).size = ((content ++ buf).length : Int) := by
    rw [hs₃]
    simp [hoffset₁]
  have hdata₃ : s₃.data i = header m k ++ (Γ.codec m).emitted (chunks ++ [buf]) := by
    rw [hs₃]
    exact hdata₁
  have hdesc₃ : (s₃.descs d).handle = some (.writing (chunks ++ [buf])) ∧ (s₃.descs d).offset = (content ++ buf).length := by
    rw [hs₃]
    simp [hoffset₁]
  have hfile₃ : (s₃.files f).filename = (s.files f).filename ∧ (s₃.files f).compressor = (s.files f).compressor ∧
      (s₃.files f).type = (s.files f).type ∧ (s₃.files f).head = (s.files f).head := by
    rw [hs₃]
    simp [hfiles₁]
  have hino₃ : ∀ p, s₃.fs.inoOf p = s.fs.inoOf p := by
    rw [hs₃]
    exact hino₁
  obtain ⟨s₄, hs₄⟩ : ∃ s₄, s₄ = writeHeaderAt s₃ d ⟨i, (s.data i).length⟩ m (s₃.files f).size := ⟨_, rfl⟩
  rw [← hs₄]
  have hdata₄ : s₄.data i = header m ((content ++ buf).length : Int) ++ (Γ.codec m).emitted (chunks ++ [buf]) := by
    rw [hs₄, writeHeaderAt, data_writeFd s₃ d ⟨i, 0⟩, hdata₃, hsize₃]
    exact Bytes.overwrite_front _ (by rw [length_header, length_header])
  have hdesc₄ : s₄.descs d = { s₃.descs d with fd := some ⟨i, headerSize⟩ } := by
    rw [hs₄, writeHeaderAt, descs_writeFd, length_header, Nat.zero_add]
  have hfiles₄ : s₄.files = s₃.files := by rw [hs₄, writeHeaderAt, files_writeFd]
  have hino₄ : ∀ p, s₄.fs.inoOf p = s.fs.inoOf p := by
    intro p
    rw [hs₄, writeHeaderAt, (inoOf_writeFd s₃ d _ _ p).1]
    exact hino₃ p
  have hfile₅ : ((seekEnd s₄ d).files f) = s₃.files f := congrFun hfiles₄ f
  refine
    { ino := ?_, data := hdata₄, text := by simp [htext], available := havail, compressor := ?_, size := ?_, type := ?_
      nonempty := by simp [hbuf], mem := ?_, handle := ?_, offset := ?_, fd := ?_, others := ?_ }
  · rw [hfile₅, hfile₃.1]
    exact (hino₄ _).trans hino
  · rw [hfile₅, hfile₃.2.1]
    exact hcomp
  · rw [hfile₅]
    exact hsize₃
  · rw [hfile₅, hfile₃.2.2.1]
    exact htype
  · rw [hfile₅, hfile₃.2.2.2, hhead]
    exact List.mem_singleton_self d
  · simp [seekEnd, hdesc₄, hdesc₃.1]
  · rw [← hdesc₃.2]
    simp [seekEnd, hdesc₄]
  · simp [seekEnd, hdesc₄]
  · intro d' hd' hne
    rw [hfile₅, hfile₃.2.2.2, hhead, List.mem_singleton] at hd'
    exact absurd hd' hne

theorem assert_same (Γ : Config) (s : State) (c : Bool) :
    (s.assert Γ c).fs = s.fs ∧ (s.assert Γ c).files = s.files ∧ (s.assert Γ c).descs = s.descs :=
  ⟨s.fs_assert Γ c, s.files_assert Γ c, s.descs_assert Γ c⟩

/-- The module is opened on an empty file, behind a first header. -/
theorem compressOpen_empty (he : env.AllOk) (hdata : s.data i = []) (hsize : (s.files f).size = 0) (pos : Nat) :
    ∃ s', compressOpen Γ env s m f d ⟨i, pos⟩ = (s', true) ∧ s'.data i = header m 0 ∧ s'.files = s.files ∧
      (∀ p, s'.fs.inoOf p = s.fs.inoOf p) ∧
      s'.descs d = { s.descs d with handle := some (.writing []), fd := some ⟨i, headerSize⟩ } := by
  obtain ⟨s₁, hs₁⟩ : ∃ s₁, s₁ = (s.assert Γ ((s.files f).size = 0)).assert Γ ((s.descs d).offset = 0) := ⟨_, rfl⟩
  have hsame : s₁.fs = s.fs ∧ s₁.files = s.files ∧ s₁.descs = s.descs := by
    rw [hs₁]
    obtain ⟨h1, h2, h3⟩ := assert_same Γ s ((s.files f).size = 0)
    obtain ⟨h1', h2', h3'⟩ := assert_same Γ (s.assert Γ ((s.files f).size = 0)) ((s.descs d).offset = 0)
    exact ⟨h1'.trans h1, h2'.trans h2, h3'.trans h3⟩
  obtain ⟨hfs, hfiles, hdescs⟩ := hsame
  unfold compressOpen
  dsimp only
  rw [if_neg (by simp [he .lseek, he .writeHeader]), if_neg (by simp [he .codecOpen]), ← hs₁, hfiles, hsize]
  refine ⟨_, rfl, ?_, ?_, ?_, ?_⟩
  · rw [State.data_modDesc, writeHeaderAt, data_writeFd s₁ d ⟨i, 0⟩, State.data, hfs, ← State.data, hdata, Bytes.overwrite_nil_zero]
  · rw [State.files_modDesc, writeHeaderAt, files_writeFd, hfiles]
  · intro p
    rw [State.fs_modDesc, writeHeaderAt, (inoOf_writeFd s₁ d _ _ p).1, hfs]
  · rw [State.descs_modDesc, if_pos rfl, writeHeaderAt, descs_writeFd, hdescs, length_header, Nat.zero_add]

/-- What `do_decompress` does to a file that has no header. -/
theorem doDecompress_headless (he : env.AllOk) (hino : s.fs.inoOf (s.files f).filename = some i) (hparse : parse Γ (s.data i) = none)
    (hcache : (s.files f).cache = none) (hspace : enoughSpace Γ env (s.files f).size = true) :
    doDecompress Γ env s f = (s.modFile f (fun file => { file with compressor := none, size := -1 }), true) := by
  have hflush : flushFileCache s f = s := by
    unfold flushFileCache
    rw [hcache]
  have hfind : s.fs.find (s.files f).filename ≠ none := by
    rw [Backing.inoOf_eq_some.mp hino]
    exact Option.some_ne_none _
  unfold doDecompress
  rw [if_neg (by simp [he .statvfs, hfind]), if_neg (by simp [hspace])]
  dsimp only
  rw [hflush, if_pos (he .open), hino]
  dsimp only
  rw [if_neg (by simp [he .readHeader]), hparse]

/-- `direct_compress` up to the choice between the two ways to go on. -/
theorem directCompress_eq (env : Env) {buf : Bytes} {offset : Nat} {s₁ : State} (hcache : (s.files f).cache = none)
    (hs₁ : s₁ = (s.assert Γ ((s.descs d).fd.isSome && !Γ.readOnly)).modFile f
      (fun file => { file with type := if file.type = .unset then .write else file.type })) :
    directCompress Γ env s m f d buf offset =
      if writeFallback (s₁.files f) (s₁.descs d).offset offset then
        match doDecompress Γ env s₁ f with
        | (s, false) => (s, .done (-1))
        | (s, true) =>
          let s := s.modFile f (fun file => { file with size := -1 })
          (s, .pwrite (s.descs d).fd)
      else
        match (s₁.descs d).handle, (s₁.descs d).fd with
        | none, some fd =>
          match compressOpen Γ env s₁ m f d fd with
          | (s, false) => (s, .done (-1))
          | (s, true) => compressWrite Γ env s m f d buf
        | _, _ => compressWrite Γ env s₁ m f d buf := by
  have hflush : flushFileCache (s.assert Γ ((s.descs d).fd.isSome && !Γ.readOnly)) f =
      s.assert Γ ((s.descs d).fd.isSome && !Γ.readOnly) := by
    unfold flushFileCache
    rw [State.files_assert, hcache]
  rw [hs₁, ← hflush]
  rfl

/-- The first write to an empty file for which a module has been chosen. -/
theorem directCompress_fresh (he : env.AllOk) {buf : Bytes} {pos : Nat}
    (hino : s.fs.inoOf (s.files f).filename = some i) (hdata : s.data i = []) (hcomp : (s.files f).compressor = some m)
    (havail : m.Available Γ) (hcache : (s.files f).cache = none) (hsize : (s.files f).size = 0)
    (hhead : (s.files f).head = [d]) (hrest : (s.descs d).Rests i pos) (hbuf : buf ≠ []) :
    (directCompress Γ env s m f d buf 0).1.Accepts Γ (directCompress Γ env s m f d buf 0).2 f [] buf 0 := by
  obtain ⟨s₁, hs₁⟩ : ∃ s₁, s₁ = (s.assert Γ ((s.descs d).fd.isSome && !Γ.readOnly)).modFile f
      (fun file => { file with type := if file.type = .unset then .write else file.type }) := ⟨_, rfl⟩
  have hfs₁ : s₁.fs = s.fs := by
    rw [hs₁, State.fs_modFile, State.fs_assert]
  have hdescs₁ : s₁.descs = s.descs := by
    rw [hs₁, State.descs_modFile, State.descs_assert]
  have hfile₁ : s₁.files f = { s.files f with type := if (s.files f).type = .unset then .write else (s.files f).type } := by
    rw [hs₁, State.files_modFile, if_pos rfl, State.files_assert]
  have hdata₁ : s₁.data i = [] := by
    rw [State.data, hfs₁]
    exact hdata
  have hino₁ : s₁.fs.inoOf (s₁.files f).filename = some i := by
    rw [hfs₁, hfile₁]
    exact hino
  rw [directCompress_eq env hcache hs₁]
  split
  · -- the entry is marked as read
    have hspace : enoughSpace Γ env (s₁.files f).size = true := by
      simp [hfile₁, hsize, enoughSpace, asU64]
    rw [doDecompress_headless he hino₁ (by rw [hdata₁]; rfl) (by rw [hfile₁]; exact hcache) hspace]
    refine ⟨Or.inr ⟨i, pos, ?_, ⟨?_, hdata₁, by simp, ?_⟩, by simp⟩⟩
    · simp [hdescs₁, hrest.fd]
    · simpa using hino₁
    · intro d' hd'
      have hd₁ : d' = d := by simpa [hfile₁, hhead] using hd'
      subst hd₁
      refine ⟨pos, ?_⟩
      simpa [hdescs₁] using hrest
  · rename_i hfallback
    have htype₁ : (s₁.files f).type = .write := by
      simp only [writeFallback, Bool.or_eq_true, decide_eq_true_eq, not_or, not_not] at hfallback
      exact hfallback.1.2
    rw [hdescs₁, hrest.handle, hrest.fd]
    dsimp only
    obtain ⟨s₂, hopen, hdata₂, hfiles₂, hino₂, hdesc₂⟩ := compressOpen_empty (Γ := Γ) (m := m) (d := d) he hdata₁
      (by rw [hfile₁]; exact hsize) pos
    rw [hopen]
    dsimp only
    have hfile₂ : s₂.files f = s₁.files f := congrFun hfiles₂ f
    obtain ⟨s₃, hwrite, hstream⟩ := compressWrite_streaming (Γ := Γ) (s := s₂) (f := f) (d := d) (k := 0) he [] [] buf
      (by rw [hfile₂]; exact (hino₂ _).trans hino₁) (by rw [hdata₂, Codec.emitted_nil, List.append_nil])
      rfl havail (by rw [hfile₂, hfile₁]; exact hcomp) (by rw [hfile₂]; exact htype₁) (by rw [hfile₂, hfile₁]; exact hhead)
      (by rw [hdesc₂]) (by rw [hdesc₂, hdescs₁]; exact hrest.offset) (by rw [hdesc₂, hdata₂, length_header]) hbuf
    rw [hwrite]
    refine ⟨Or.inl ⟨i, rfl, Or.inr ⟨m, Or.inr ⟨d, [] ++ [buf], ?_⟩⟩⟩⟩
    rw [Bytes.overwrite_nil_zero]
    exact hstream

/-- A write to a file that is stored compressed. -/
theorem directCompress_stored (he : env.AllOk) (ha : env.Ample) (hexact : (Γ.codec m).Exact) {buf : Bytes} {offset : Nat}
    (h : s.Stored Γ f i m content) (hcache : (s.files f).cache = none) (hlen : content.length < 2 ^ 63) (hlt : i < s.fs.next)
    (hnodup : (s.files f).head.Nodup) (hcount : ((s.files f).head.length : Int) ≤ (s.files f).accesses) (hd : d ∈ (s.files f).head)
    (hguard : (s.files f).size = 0 → (s.files f).accesses = 1 → offset = 0 → (s.files f).type = .read) (hbuf : buf ≠ []) :
    (directCompress Γ env s m f d buf offset).1.Accepts Γ (directCompress Γ env s m f d buf offset).2 f content buf offset := by
  obtain ⟨s₁, hs₁⟩ : ∃ s₁, s₁ = (s.assert Γ ((s.descs d).fd.isSome && !Γ.readOnly)).modFile f
      (fun file => { file with type := if file.type = .unset then .write else file.type }) := ⟨_, rfl⟩
  have hfs₁ : s₁.fs = s.fs := by
    rw [hs₁, State.fs_modFile, State.fs_assert]
  have hdescs₁ : s₁.descs = s.descs := by
    rw [hs₁, State.descs_modFile, State.descs_assert]
  have hfile₁ : s₁.files f = { s.files f with type := if (s.files f).type = .unset then .write else (s.files f).type } := by
    rw [hs₁, State.files_modFile, if_pos rfl, State.files_assert]
  have h₁ : s₁.Stored Γ f i m content := by
    rw [hs₁]
    refine State.Stored.setType ?_ .write (fun _ => ⟨rfl, rfl, rfl, rfl, rfl⟩)
    obtain ⟨h1, h2, h3⟩ := assert_same Γ s ((s.descs d).fd.isSome && !Γ.readOnly)
    rcases h with h | ⟨w, chunks, h⟩
    · exact Or.inl (h.of_same h1 h3 (by rw [h2]) (by rw [h2]) (by rw [h2]) (by rw [h2]) (by rw [h2]; exact id))
    · exact Or.inr ⟨w, chunks, h.of_same h1 h3 (by rw [h2]) (by rw [h2]) (by rw [h2]) (by rw [h2]) (by rw [h2])⟩
  have hhead₁ : (s₁.files f).head = (s.files f).head := by rw [hfile₁]
  rw [directCompress_eq env hcache hs₁]
  split
  · -- the whole file is decompressed first
    obtain ⟨s₂, j, hdec, hbare⟩ := h₁.decompress he ha hexact hlen (by rw [hfs₁]; exact hlt) (by rw [hhead₁]; exact hnodup)
    rw [hdec]
    have hhead₂ : (s₂.files f).head = (s.files f).head := by
      have hacked := acked_doDecompress Γ env s₁ f
      rw [hdec] at hacked
      exact (congrFun hacked.head_owner.1 f).trans hhead₁
    obtain ⟨p, hrest⟩ := hbare.descs d (by rw [hhead₂]; exact hd)
    have hunknown := hbare.sizeUnknown (g := fun file => { file with size := -1 }) (fun _ => ⟨rfl, rfl, rfl, rfl⟩)
    refine ⟨Or.inr ⟨j, p, ?_, hunknown.1, by simp⟩⟩
    simp [hrest.fd]
  · rename_i hfallback
    simp only [writeFallback, Bool.or_eq_true, decide_eq_true_eq, not_or, not_not, not_lt] at hfallback
    obtain ⟨⟨⟨hnow, hoffset⟩, htype₁⟩, hacc₁⟩ := hfallback
    have hle : (s.files f).accesses ≤ 1 := by
      rw [hfile₁] at hacc₁
      exact hacc₁
    have hone : (s.files f).head = [d] := by
      have hlength : (s.files f).head.length ≤ 1 := by omega
      match hhead : (s.files f).head with
      | [] =>
        rw [hhead] at hd
        cases hd
      | [d'] =>
        rw [hhead, List.mem_singleton] at hd
        rw [hd]
      | _ :: _ :: _ =>
        rw [hhead] at hlength
        simp at hlength
    have hacc : (s.files f).accesses = 1 := by
      rw [hone] at hcount
      exact Int.le_antisymm hle hcount
    have hd₁ : d ∈ (s₁.files f).head := by
      rw [hhead₁]
      exact hd
    rcases h₁ with h₁ | ⟨w, chunks, h₁⟩
    · -- the file has not been written to, so the write is at the start of an empty file
      exfalso
      have hrest : (s₁.descs d).Rests i headerSize := by
        rcases h₁.descs d hd₁ with hrest | ⟨hread, -⟩
        · exact hrest
        · rw [hread] at htype₁
          cases htype₁
      have hsize : (s.files f).size = 0 := by
        rw [hrest.offset, hfile₁] at hnow
        exact hnow.symm
      have hread := hguard hsize hacc (by rw [← hoffset, hrest.offset])
      rw [hfile₁, hread] at htype₁
      cases htype₁
    · obtain rfl : w = d := by
        have hmem := h₁.mem
        rw [hhead₁, hone, List.mem_singleton] at hmem
        exact hmem
      rw [h₁.handle]
      dsimp only
      obtain ⟨s₂, hwrite, hstream⟩ := compressWrite_streaming (Γ := Γ) he _ _ buf h₁.ino h₁.data h₁.text h₁.available
        h₁.compressor h₁.type (hhead₁.trans hone) h₁.handle h₁.offset h₁.fd hbuf
      rw [hwrite]
      refine ⟨Or.inl ⟨i, rfl, Or.inr ⟨m, Or.inr ⟨w, chunks ++ [buf], ?_⟩⟩⟩⟩
      rw [Bytes.overwrite_eq_append (hoffset.symm.trans h₁.offset)]
      exact hstream

/-- The only descriptor of an entry that is counted once. -/
theorem head_eq_singleton (hcount : ((s.files f).head.length : Int) ≤ (s.files f).accesses) (hacc : (s.files f).accesses = 1)
    (hd : d ∈ (s.files f).head) : (s.files f).head = [d] := by
  have hlength : (s.files f).head.length = 1 := by
    have hpos := List.length_pos_of_mem hd
    omega
  obtain ⟨d', hd'⟩ := List.length_eq_one_iff.mp hlength
  rw [hd', List.mem_singleton] at hd
  rw [hd', hd]

/-- What `fusecompress_write` makes of the entry before it writes. -/
theorem writeChoose_same (Γ : Config) (s : State) (f offset : Nat) :
    (writeChoose Γ s f offset).fs = s.fs ∧ (writeChoose Γ s f offset).descs = s.descs ∧
      (writeChoose Γ s f offset).files f =
        { s.files f with
          compressor := if mayChoose (s.files f) offset then chooseCompressor Γ (s.files f).filename else (s.files f).compressor
          dontcompress := true } := by
  unfold writeChoose
  obtain ⟨h1, h2, h3⟩ := assert_same Γ s (!mayChoose (s.files f) offset || (s.files f).compressor.isNone)
  refine ⟨h1, h3, ?_⟩
  simp only [State.files_modFile, if_true, h2]

theorem discard_off (hdedup : Γ.dedupEnabled = false) (s : State) (f : Nat) : discard Γ s f = s := by
  unfold discard
  rw [hdedup]
  rfl

/-- A write, wherever the file stands. -/
theorem writeLocked_stands (he : env.AllOk) (ha : env.Ample) (hdedup : Γ.dedupEnabled = false) (hexact : ∀ m, (Γ.codec m).Exact)
    (hdefault : Γ.compressorDefault.Available Γ) {buf : Bytes} {offset : Nat} (h : s.Stands Γ f i content)
    (hcache : (s.files f).cache = none) (hlen : content.length < 2 ^ 63) (hlt : i < s.fs.next) (hnodup : (s.files f).head.Nodup)
    (hcount : ((s.files f).head.length : Int) ≤ (s.files f).accesses) (hd : d ∈ (s.files f).head)
    (hguard : startsOver (s.files f) offset = false) (hbuf : buf ≠ []) :
    (writeLocked Γ env s f d buf offset).1.Accepts Γ (writeLocked Γ env s f d buf offset).2 f content buf offset := by
  unfold writeLocked
  dsimp only
  rw [discard_off hdedup]
  obtain ⟨hfs, hdescs, hfile⟩ := writeChoose_same Γ s f offset
  generalize writeChoose Γ s f offset = t at hfs hdescs hfile ⊢
  rcases h with ⟨hbare, hhonest⟩ | ⟨m, hstored⟩
  · obtain ⟨pos, hrest⟩ := hbare.descs d hd
    cases hcomp : (t.files f).compressor with
    | none =>
      dsimp only
      refine ⟨Or.inr ⟨i, pos, by rw [hdescs, hrest.fd], ⟨?_, ?_, hcomp, ?_⟩, by simp [hfile]⟩⟩
      · rw [hfs, hfile]
        exact hbare.ino
      · rw [State.data, hfs]
        exact hbare.data
      · rw [hfile, hdescs]
        exact hbare.descs
    | some m =>
      -- the entry was that of an empty file, so it is one
      dsimp only
      rw [hfile] at hcomp
      dsimp only at hcomp
      rw [hbare.compressor] at hcomp
      split at hcomp
      · rename_i hchoose
        simp only [mayChoose, Bool.and_eq_true, decide_eq_true_eq, Bool.not_eq_true'] at hchoose
        obtain ⟨⟨⟨hdont, hsize⟩, hacc⟩, rfl⟩ := hchoose
        obtain rfl : content = [] := hhonest hsize hdont
        refine directCompress_fresh he (i := i) ?_ ?_ (by rw [hfile]; simpa [mayChoose, hdont, hsize, hacc] using hcomp) ?_
          (by rw [hfile]; exact hcache) (by rw [hfile]; exact hsize)
          (by rw [hfile]; exact head_eq_singleton hcount hacc hd) (by rw [hdescs]; exact hrest) hbuf
        · rw [hfs, hfile]
          exact hbare.ino
        · rw [State.data, hfs]
          exact hbare.data
        · rw [chooseCompressor_eq hcomp]
          exact hdefault
      · cases hcomp
  · have hsome := hstored.compressor
    -- a module is not chosen for a file that has one
    have hchoose : mayChoose (s.files f) offset = false := by
      by_contra hchoose
      simp only [mayChoose, Bool.not_eq_false, Bool.and_eq_true, decide_eq_true_eq, Bool.not_eq_true'] at hchoose
      obtain ⟨⟨⟨hdont, hsize⟩, hacc⟩, hzero⟩ := hchoose
      simp [startsOver, hsome, hdont, hsize, hacc, hzero] at hguard
    rw [hchoose] at hfile
    simp only [Bool.false_eq_true, if_false] at hfile
    rw [hfile, hsome]
    dsimp only
    have hsame : t.Stored Γ f i m content := by
      rcases hstored with h | ⟨w, chunks, h⟩
      · exact Or.inl (h.of_same hfs hdescs (by rw [hfile]) (by rw [hfile]) (by rw [hfile]) (by rw [hfile]) (by rw [hfile]; exact id))
      · exact Or.inr ⟨w, chunks, h.of_same hfs hdescs (by rw [hfile]) (by rw [hfile]) (by rw [hfile]) (by rw [hfile]) (by rw [hfile])⟩
    refine directCompress_stored he ha (hexact m) hsame (by rw [hfile]; exact hcache) hlen (by rw [hfs]; exact hlt)
      (by rw [hfile]; exact hnodup) (by rw [hfile]; exact hcount) (by rw [hfile]; exact hd) ?_ hbuf
    rw [hfile]
    intro (hsize : (s.files f).size = 0) (hacc : (s.files f).accesses = 1) hzero
    simp [startsOver, hsome, hsize, hacc, hzero] at hguard
    exact hguard.2

/-! ## Closing -/

/-- A descriptor of a compressed file whose stream has been closed. -/
theorem directClose_rests (Γ : Config) (env : Env) {pos : Nat} (hm : (s.files f).compressor = some m)
    (hfd : (s.descs d).fd = some ⟨i, pos⟩) (hplaced : (s.descs d).handle = none → (s.descs d).offset = 0) :
    ∃ pos', ((directClose Γ env s f d).descs d).Rests i pos' := by
  have hclosed : ∃ pos', ((closeHandle Γ env s f d).descs d).Rests i pos' := by
    unfold closeHandle
    rw [hm]
    split
    · rename_i hnone
      exact ⟨pos, hnone, hplaced hnone, hfd⟩
    · rename_i hsome
      cases hsome
    · rename_i hsome
      cases hsome
      have hkept : ∃ pos', ((codecClose Γ env s m d).descs d).fd = some ⟨i, pos'⟩ := by
        unfold codecClose
        rw [hfd]
        split
        · rename_i hopen
          cases hopen
          split
          · rw [descs_writeFd]
            exact ⟨_, rfl⟩
          · exact ⟨pos, hfd⟩
        · exact ⟨pos, hfd⟩
      obtain ⟨pos', hfd'⟩ := hkept
      exact ⟨pos', by simp, by simp, by simpa using hfd'⟩
  obtain ⟨pos', hrest⟩ := hclosed
  refine ⟨pos', ?_⟩
  unfold directClose
  dsimp only
  generalize (if env.ok .closeFstat then (s.descs d).fd.map (fun fd => (s.fs.inodes fd.ino).attr) else none) = stbuf
  rw [← (files_restoreTimes env (closeHandle Γ env s f d) stbuf).2] at hrest
  split
  · exact hrest
  · exact hrest

/-- The descriptors of a compressed file whose streams `fusecompress_truncate` has closed. -/
theorem truncateClose_rests (he : env.AllOk) {ds : List Nat} (hm : (s.files f).compressor = some m) (hnodup : ds.Nodup)
    (hfd : ∀ d ∈ ds, ∃ pos, (s.descs d).fd = some ⟨i, pos⟩)
    (hplaced : ∀ d ∈ ds, (s.descs d).handle = none → (s.descs d).offset = 0) :
    ∀ d ∈ ds, ((truncateClose Γ env s f ds).descs d).Rests i 0 := by
  induction ds generalizing s with
  | nil =>
    intro d hd
    cases hd
  | cons d ds ih =>
    obtain ⟨hnotin, hnodup'⟩ := List.nodup_cons.mp hnodup
    obtain ⟨pos, hfd₀⟩ := hfd d (List.mem_cons_self ..)
    obtain ⟨pos', hrest⟩ := directClose_rests Γ (env.of d) hm hfd₀ (hplaced d (List.mem_cons_self ..))
    have hone := (pushes_directClose Γ (env.of d) hm d).modDesc (fun desc =>
      { desc with fd := if (env.of d).ok .lseek then desc.fd.map (fun fd => { fd with pos := 0 }) else desc.fd })
    have hd₀ : (((directClose Γ (env.of d) s f d).modDesc d (fun desc =>
        { desc with fd := if (env.of d).ok .lseek then desc.fd.map (fun fd => { fd with pos := 0 }) else desc.fd })).descs d).Rests i 0 := by
      rw [State.descs_modDesc, if_pos rfl]
      exact ⟨hrest.handle, hrest.offset, by simp [he.of d .lseek, hrest.fd]⟩
    unfold truncateClose
    dsimp only
    generalize (directClose Γ (env.of d) s f d).modDesc d (fun desc =>
      { desc with fd := if (env.of d).ok .lseek then desc.fd.map (fun fd => { fd with pos := 0 }) else desc.fd }) = s₁ at hone hd₀ ⊢
    have hne : ∀ d' ∈ ds, s₁.descs d' = s.descs d' := by
      intro d' hd'
      refine hone.others d' ?_
      rintro rfl
      exact hnotin hd'
    intro d' hd'
    rcases List.mem_cons.mp hd' with rfl | hd'
    · rw [(pushesAll_truncateClose Γ env (hone.compressor.trans hm) hnodup').others d' hnotin]
      exact hd₀
    · refine ih (hone.compressor.trans hm) hnodup' ?_ ?_ d' hd'
      · intro d'' hd''
        rw [hne d'' hd'']
        exact hfd d'' (List.mem_cons_of_mem _ hd'')
      · intro d'' hd''
        rw [hne d'' hd'']
        exact hplaced d'' (List.mem_cons_of_mem _ hd'')

/-! ## Truncating -/

/-- The file of an entry is cut or filled up. -/
theorem truncateFile_stands (he : env.AllOk) {n : Nat} (h : s.Bare f i content) :
    ∃ s', truncateFile env s f (s.files f).filename n = (s', .ok) ∧ s'.Stands Γ f i (Bytes.resize content n) := by
  unfold truncateFile
  rw [if_pos ⟨he .openTruncate, he .ftruncate⟩, h.ino]
  refine ⟨_, rfl, Or.inl ⟨⟨?_, ?_, ?_, ?_⟩, ?_⟩⟩
  · simpa using h.ino
  · simp only [State.data, State.fs_modFile, State.fs_withFs, Backing.data_setData, if_true]
    exact congrArg (fun data => Bytes.resize data n) h.data
  · simpa using h.compressor
  · simpa using h.descs
  · intro hsize _
    have hn : n = 0 := by simpa using hsize
    rw [hn, Bytes.resize_zero]

/-- Truncating a path, wherever its file stands. -/
theorem truncateLocked_stands (he : env.AllOk) (ha : env.Ample) (hdedup : Γ.dedupEnabled = false) (hexact : ∀ m, (Γ.codec m).Exact)
    (h : s.Stands Γ f i content) (hlen : content.length < 2 ^ 63) (hlt : i < s.fs.next) (hnodup : (s.files f).head.Nodup) (n : Nat) :
    ∃ s' j, truncateLocked Γ env s f (s.files f).filename n = (s', .ok) ∧ s'.Stands Γ f j (Bytes.resize content n) := by
  unfold truncateLocked
  dsimp only
  rw [discard_off hdedup]
  rcases h with ⟨hbare, -⟩ | ⟨m, hstored⟩
  · obtain ⟨s', hfile, hstands⟩ := truncateFile_stands he (n := n) hbare
    refine ⟨s', i, ?_, hstands⟩
    rw [ensureRaw, if_pos hbare.compressor, if_pos hbare.compressor]
    split
    · exact hfile
    · exact hfile
  · have hsome := hstored.compressor
    split
    · -- the whole file is decompressed first
      obtain ⟨s₁, j, hdec, hbare⟩ := hstored.decompress he ha (hexact m) hlen hlt hnodup
      have hname : (s₁.files f).filename = (s.files f).filename := by
        have hacked := acked_doDecompress Γ env s f
        rw [hdec] at hacked
        exact congrFun hacked.head_owner.2.2 f
      obtain ⟨s', hfile, hstands⟩ := truncateFile_stands he (n := n) hbare
      rw [hname] at hfile
      refine ⟨s', j, ?_, hstands⟩
      rw [ensureRaw, if_neg (by simp [hsome]), hdec]
      exact hfile
    · -- the streams are closed, and what they have written is cut off
      rename_i hn
      obtain rfl : n = 0 := by omega
      rw [if_neg (by simp [hsome])]
      have hplaced : ∀ d ∈ (s.files f).head, (s.descs d).handle = none → (s.descs d).offset = 0 := by
        intro d hd hnone
        rcases hstored with h | ⟨w, chunks, h⟩
        · rcases h.descs d hd with hrest | ⟨-, -, hread, -⟩
          · exact hrest.offset
          · rw [hread] at hnone
            cases hnone
        · by_cases e : d = w
          · rw [e, h.handle] at hnone
            cases hnone
          · exact (h.others d hd e).offset
      have hrests := truncateClose_rests (Γ := Γ) he hsome hnodup (fun d hd => hstored.attached hd) hplaced
      have hpushes := pushesAll_truncateClose Γ env hsome hnodup
      have hino : s.fs.inoOf (s.files f).filename = some i := by
        rcases hstored with h | ⟨w, chunks, h⟩
        · exact h.ino
        · exact h.ino
      generalize truncateClose Γ env s f (s.files f).head = s₁ at hrests hpushes ⊢
      have hbare : (s₁.modFile f (fun file => { file with compressor := none })).Bare f i (s₁.data i) := by
        refine ⟨?_, rfl, by simp, ?_⟩
        · simp only [State.fs_modFile, State.files_modFile, if_true]
          rw [hpushes.path, hpushes.filename]
          exact hino
        · simp only [State.files_modFile, if_true, State.descs_modFile]
          rw [hpushes.head]
          exact fun d hd => ⟨0, hrests d hd⟩
      obtain ⟨s', hfile, hstands⟩ := truncateFile_stands he (n := 0) hbare
      rw [Bytes.resize_zero] at hstands ⊢
      refine ⟨s', i, ?_, hstands⟩
      simp only [State.files_modFile, if_true] at hfile
      rw [hpushes.filename] at hfile
      exact hfile

/-! ## Releasing -/

theorem unpacked_of_not_magic {data : Bytes} (h : data.take 3 ≠ magic) : unpacked Γ data = some data :=
  unpacked_of_none (parse_of_not_magic h)

theorem State.Sealed.unpacked (h : s.Sealed Γ f i m content) : unpacked Γ (s.data i) = some content :=
  unpacked_of_some h.parse h.decode rfl

/-- The end of `fusecompress_release`, after the stream has been closed. -/
theorem releaseLocked_same (Γ : Config) (env : Env) (howner : (s.descs d).file = f) :
    (releaseLocked Γ env s f d).1.fs = (releaseClose Γ env s f d).fs ∧
      (∀ d', d' ≠ d → (releaseLocked Γ env s f d).1.descs d' = (releaseClose Γ env s f d).descs d') ∧
      (releaseLocked Γ env s f d).1.files f =
        { (releaseClose Γ env s f d).files f with
          head := ((releaseClose Γ env s f d).files f).head.erase d
          accesses := ((releaseClose Γ env s f d).files f).accesses - 1 } := by
  have howner₁ : ((releaseClose Γ env s f d).descs d).file = f := by
    unfold releaseClose
    split
    · exact howner
    · exact (file_of_books (books_directClose ..) d).trans howner
  unfold releaseLocked
  dsimp only
  generalize releaseClose Γ env s f d = s₁ at howner₁ ⊢
  refine ⟨rfl, fun d' hd' => ?_, ?_⟩
  · simp [hd']
  · simp [howner₁]

/-- The stream that is written is closed: the file is complete. -/
theorem State.Streaming.closed (h : s.Streaming Γ f i m content w chunks) (he : env.AllOk) (hexact : (Γ.codec m).Exact)
    (hlen : content.length < 2 ^ 63) (hpushes : s.Pushes Γ env m s' f w) :
    FuseCompress.parse Γ (s'.data i) = some (m, (content.length : Int)) ∧
      (Γ.codec m).decode ((s'.data i).drop headerSize) = some content := by
  have hdata : s'.data i = s.data i ++ (Γ.codec m).tail chunks := by
    have hon : (s.descs w).onInode i = true := by simp [Desc.onInode, h.fd]
    rw [hpushes.data, if_pos hon, pushed, h.handle, h.fd]
    simp [he .codecClose]
  rw [hdata]
  exact ⟨h.parse hlen _, h.decode hexact⟩

/-- A descriptor of a compressed file is closed, and perhaps the access type of the file is unset. -/
theorem directClose_type (Γ : Config) (env : Env) (hm : (s.files f).compressor = some m) (d : Nat) (hacc : (s.files f).accesses ≠ 1) :
    ((directClose Γ env s f d).files f).type = (s.files f).type ∧ ((directClose Γ env s f d).files f).size = (s.files f).size := by
  obtain ⟨-, -, ⟨hfiles, -⟩, -⟩ := closeHandle_cases (Γ := Γ) (d := d) env (f := f) (s := s) hm
  unfold directClose
  dsimp only
  generalize (if env.ok .closeFstat then (s.descs d).fd.map (fun fd => (s.fs.inodes fd.ino).attr) else none) = stbuf
  have hsame : (restoreTimes env (closeHandle Γ env s f d) f stbuf).files = s.files := (files_restoreTimes env _ stbuf).1.trans hfiles
  rw [if_neg (by rw [hsame]; exact hacc), hsame]
  exact ⟨rfl, rfl⟩

/-- Releasing a descriptor: what others have open stands, and a file that nobody has open any more is complete. -/
theorem releaseLocked_stands (he : env.AllOk) (hexact : ∀ m, (Γ.codec m).Exact) (h : s.Stands Γ f i content)
    (htext : content.take 3 ≠ magic) (hlen : content.length < 2 ^ 63) (hnodup : (s.files f).head.Nodup)
    (hcount : ((s.files f).head.length : Int) ≤ (s.files f).accesses) (hd : d ∈ (s.files f).head) (howner : (s.descs d).file = f) :
    (releaseLocked Γ env s f d).1.fs.inoOf (s.files f).filename = some i ∧
      ((s.files f).head.erase d = [] → unpacked Γ ((releaseLocked Γ env s f d).1.data i) = some content) ∧
      ((s.files f).head.erase d ≠ [] → (releaseLocked Γ env s f d).1.Stands Γ f i content) := by
  obtain ⟨hfs, hdescs, hfile⟩ := releaseLocked_same Γ env howner
  have hne : ∀ d' ∈ (s.files f).head.erase d, d' ∈ (s.files f).head ∧ d' ≠ d := by
    intro d' hd'
    refine ⟨List.mem_of_mem_erase hd', ?_⟩
    rintro rfl
    exact hnodup.not_mem_erase hd'
  -- nobody else has the file open when it is counted once
  have hmany : (s.files f).head.erase d ≠ [] → (s.files f).accesses ≠ 1 := by
    intro hrest hacc
    rw [head_eq_singleton hcount hacc hd] at hrest
    simp at hrest
  generalize (releaseLocked Γ env s f d).1 = t at hfs hdescs hfile ⊢
  rcases h with ⟨hbare, hhonest⟩ | ⟨m, hstored⟩
  · have hclose : releaseClose Γ env s f d = s := by
      unfold releaseClose
      rw [if_pos hbare.compressor]
    rw [hclose] at hfs hdescs hfile
    refine ⟨by rw [hfs]; exact hbare.ino, fun _ => ?_, fun _ => Or.inl ⟨⟨?_, ?_, ?_, ?_⟩, ?_⟩⟩
    · rw [State.data, hfs, ← State.data, hbare.data]
      exact unpacked_of_not_magic htext
    · rw [hfs, hfile]
      exact hbare.ino
    · rw [State.data, hfs]
      exact hbare.data
    · rw [hfile]
      exact hbare.compressor
    · rw [hfile]
      intro d' hd'
      obtain ⟨hmem, hd''⟩ := hne d' hd'
      rw [hdescs d' hd'']
      exact hbare.descs d' hmem
    · rw [hfile]
      exact hhonest
  · have hsome := hstored.compressor
    have hclose : releaseClose Γ env s f d = directClose Γ env s f d := by
      unfold releaseClose
      rw [if_neg (by simp [hsome])]
    rw [hclose] at hfs hdescs hfile
    have hpushes := pushes_directClose Γ env hsome d
    have htype := directClose_type Γ env hsome d
    generalize directClose Γ env s f d = s₁ at hfs hdescs hfile hpushes htype
    have hdata : t.data i = s₁.data i := by rw [State.data, hfs, State.data]
    have hdescs' : ∀ d' ∈ (s.files f).head.erase d, t.descs d' = s.descs d' := by
      intro d' hd'
      obtain ⟨-, hd''⟩ := hne d' hd'
      rw [hdescs d' hd'', hpushes.others d' hd'']
    have hpath : t.fs.inoOf (s.files f).filename = s.fs.inoOf (s.files f).filename := by rw [hfs, hpushes.path]
    -- unless it is the one that writes, the bytes of the file stay
    have hquiet : ¬(s.descs d).writing → t.data i = s.data i := by
      intro hnot
      rw [hdata, hpushes.data]
      split
      · exact pushed_of_not_writing hnot _
      · rfl
    -- a complete file stays one
    have hsealed : parse Γ (t.data i) = some (m, (content.length : Int)) →
        (Γ.codec m).decode ((t.data i).drop headerSize) = some content → s.fs.inoOf (s.files f).filename = some i →
        (s.files f).size = (content.length : Int) →
        (∀ d' ∈ (s.files f).head.erase d, (s.descs d').Rests i headerSize ∨
          ((s.files f).type = .read ∧ (∃ pos, (s.descs d').fd = some ⟨i, pos⟩) ∧
            (s.descs d').handle = some (.reading headerSize (s.descs d').offset) ∧ (s.descs d').offset ≤ content.length)) →
        t.fs.inoOf (s.files f).filename = some i ∧
          ((s.files f).head.erase d = [] → unpacked Γ (t.data i) = some content) ∧
          ((s.files f).head.erase d ≠ [] → t.Stands Γ f i content) := by
      intro hparse hdecode hino hsize hrests
      refine ⟨hpath.trans hino, fun _ => unpacked_of_some hparse hdecode rfl, fun hrest => Or.inr ⟨m, Or.inl ?_⟩⟩
      obtain ⟨htype₁, hsize₁⟩ := htype (hmany hrest)
      refine ⟨?_, hparse, hdecode, ?_, ?_, ?_⟩
      · rw [hfile]
        dsimp only
        rw [hpushes.filename]
        exact hpath.trans hino
      · rw [hfile]
        exact hpushes.compressor.trans hsome
      · rw [hfile]
        exact hsize₁.trans hsize
      · rw [hfile]
        dsimp only
        rw [hpushes.head, htype₁]
        intro d' hd'
        rw [hdescs' d' hd']
        exact hrests d' hd'
    rcases hstored with h | ⟨w, chunks, h⟩
    · have hstay := hquiet (h.not_writing hd)
      exact hsealed (by rw [hstay]; exact h.parse) (by rw [hstay]; exact h.decode) h.ino h.size (fun d' hd' => h.descs d' (hne d' hd').1)
    · by_cases e : d = w
      · subst e
        obtain ⟨hparse, hdecode⟩ := h.closed he (hexact m) hlen hpushes
        rw [← hdata] at hparse hdecode
        exact hsealed hparse hdecode h.ino h.size (fun d' hd' => Or.inl (h.others d' (hne d' hd').1 (hne d' hd').2))
      · have hstay := hquiet (h.others d hd e).not_writing
        have hw : w ∈ (s.files f).head.erase d := (List.mem_erase_of_ne (Ne.symm e)).mpr h.mem
        have hrest : (s.files f).head.erase d ≠ [] := List.ne_nil_of_mem hw
        obtain ⟨htype₁, hsize₁⟩ := htype (hmany hrest)
        refine ⟨hpath.trans h.ino, fun hnil => absurd hnil hrest, fun _ => Or.inr ⟨m, Or.inr ⟨w, chunks, ?_⟩⟩⟩
        refine
          { ino := ?_, data := hstay.trans h.data, text := h.text, available := h.available, compressor := ?_, size := ?_, type := ?_
            nonempty := h.nonempty, mem := ?_, handle := ?_, offset := ?_, fd := ?_, others := ?_ }
        · rw [hfile]
          dsimp only
          rw [hpushes.filename]
          exact hpath.trans h.ino
        · rw [hfile]
          exact hpushes.compressor.trans hsome
        · rw [hfile]
          exact hsize₁.trans h.size
        · rw [hfile]
          exact htype₁.trans h.type
        · rw [hfile]
          dsimp only
          rw [hpushes.head]
          exact hw
        · rw [hdescs' w hw]
          exact h.handle
        · rw [hdescs' w hw]
          exact h.offset
        · rw [hdescs' w hw, hstay]
          exact h.fd
        · rw [hfile]
          dsimp only
          rw [hpushes.head]
          intro d' hd' hne'
          rw [hdescs' d' hd']
          exact h.others d' (hne d' hd').1 hne'

/-! ## Opening -/

theorem openDescriptor_same (s : State) (f ino pos : Nat) (writable : Bool) (size : Int) :
    (openDescriptor s f ino pos writable size).2 = .opened s.nextDesc ∧ (openDescriptor s f ino pos writable size).1.fs = s.fs ∧
      (openDescriptor s f ino pos writable size).1.files f =
        { s.files f with accesses := (s.files f).accesses + 1, size := size, head := s.nextDesc :: (s.files f).head } ∧
      ((openDescriptor s f ino pos writable size).1.descs s.nextDesc).Rests ino pos ∧
      ∀ d, d ≠ s.nextDesc → (openDescriptor s f ino pos writable size).1.descs d = s.descs d := by
  unfold openDescriptor
  refine ⟨rfl, rfl, by simp, ⟨by simp, by simp, by simp⟩, fun d hd => ?_⟩
  simp [hd]

/-- What `fusecompress_open` makes of an entry when nothing fails: the module and the size are those the file says. -/
theorem openLocked_found (he : env.AllOk) (hdedup : Γ.dedupEnabled = false) (hino : s.fs.inoOf (s.files f).filename = some i)
    (writable : Bool) :
    ∃ b c pos size, openLocked Γ env s f (s.files f).filename writable =
        openDescriptor (s.modFile f (fun file => { file with dontcompress := b, compressor := c })) f i pos writable size ∧
      (parse Γ (s.data i) = none → c = none ∧ size = ((s.data i).length : Int)) ∧
      ∀ m n, parse Γ (s.data i) = some (m, n) → c = some m ∧ size = n ∧ pos = headerSize := by
  have hundedup : openUndedup Γ env s f writable = (s, true) := by
    unfold openUndedup
    rw [if_neg (by simp [hdedup])]
  unfold openLocked openFile
  rw [hundedup]
  dsimp only
  rw [if_pos (he .open), hino]
  dsimp only
  rw [if_neg (by simp [he .fstat])]
  have hdata : (noteLinks s f i).data i = s.data i := rfl
  have hmod : ∀ c, (noteLinks s f i).modFile f (fun file => { file with compressor := c }) =
      s.modFile f (fun file =>
        { file with dontcompress := (s.files f).dontcompress || decide (s.fs.nlink i > 1), compressor := c }) := by
    intro c
    simp [noteLinks, State.modFile]
  rw [hdata]
  split
  · rename_i hl
    rw [if_neg (by simp [he .readHeader]), hmod]
    refine ⟨_, _, _, _, rfl, fun hnone => ?_, fun m n hsome => ?_⟩
    · rw [fileReadHeader_of_parse_none hnone, if_neg (by omega)]
      exact ⟨rfl, rfl⟩
    · rw [fileReadHeader_of_parse hsome]
      exact ⟨rfl, rfl, rfl⟩
  · rename_i hl
    rw [hmod]
    refine ⟨_, _, _, _, rfl, fun _ => ⟨rfl, rfl⟩, fun m n hsome => ?_⟩
    unfold parse at hsome
    rw [if_pos (by omega)] at hsome
    cases hsome

/-- Opening a file that nobody has open, or that stands. -/
theorem openLocked_stands (he : env.AllOk) (hdedup : Γ.dedupEnabled = false) (hino : s.fs.inoOf (s.files f).filename = some i)
    (h : (s.files f).head = [] ∧ unpacked Γ (s.data i) = some content ∨ s.Stands Γ f i content) (htext : content.take 3 ≠ magic)
    (hlen : content.length < 2 ^ 63) (hfresh : s.nextDesc ∉ (s.files f).head) (writable : Bool) :
    ∃ s', openLocked Γ env s f (s.files f).filename writable = (s', .opened s.nextDesc) ∧ s'.Stands Γ f i content := by
  obtain ⟨b, c, pos, size, hopen, hraw, hpacked⟩ := openLocked_found he hdedup hino writable
  obtain ⟨hreply, hfs, hfile, hnew, hold⟩ := openDescriptor_same
    (s.modFile f (fun file => { file with dontcompress := b, compressor := c })) f i pos writable size
  rw [hopen]
  refine ⟨(openDescriptor (s.modFile f (fun file => { file with dontcompress := b, compressor := c })) f i pos writable size).1,
    Prod.ext rfl hreply, ?_⟩
  generalize (openDescriptor (s.modFile f (fun file => { file with dontcompress := b, compressor := c })) f i pos writable size).1 = t
    at hfs hfile hnew hold ⊢
  simp only [State.files_modFile, if_true, State.fs_modFile, State.descs_modFile, State.nextDesc_modFile] at hfs hfile hnew hold
  have hino' : t.fs.inoOf (t.files f).filename = some i := by
    rw [hfs, hfile]
    exact hino
  have hdata : t.data i = s.data i := by rw [State.data, hfs, State.data]
  replace hold : ∀ d ∈ (s.files f).head, t.descs d = s.descs d := by
    intro d hd
    refine hold d ?_
    rintro rfl
    exact hfresh hd
  clear hopen hreply
  cases hparse : parse Γ (s.data i) with
  | none =>
    obtain ⟨rfl, rfl⟩ := hraw hparse
    have hbare : s.data i = content ∧ ∀ d ∈ (s.files f).head, ∃ pos, (s.descs d).Rests i pos := by
      rcases h with ⟨hnil, hunpacked⟩ | ⟨hbare, -⟩ | ⟨m, h | ⟨w, chunks, h⟩⟩
      · rw [unpacked_of_none hparse] at hunpacked
        refine ⟨Option.some.inj hunpacked, ?_⟩
        rw [hnil]
        intro d hd
        cases hd
      · exact ⟨hbare.data, hbare.descs⟩
      · rw [h.parse] at hparse
        cases hparse
      · have hsome := h.parse hlen []
        rw [List.append_nil, hparse] at hsome
        cases hsome
    refine Or.inl ⟨⟨hino', hdata.trans hbare.1, by rw [hfile], ?_⟩, ?_⟩
    · rw [hfile]
      intro d hd
      rcases List.mem_cons.mp hd with rfl | hd
      · exact ⟨pos, hnew⟩
      · rw [hold d hd]
        exact hbare.2 d hd
    · rw [hfile]
      intro hsize _
      refine List.eq_nil_of_length_eq_zero ?_
      rw [← hbare.1]
      exact Int.ofNat_eq_zero.mp hsize
  | some header =>
    obtain ⟨m, n⟩ := header
    obtain ⟨rfl, rfl, rfl⟩ := hpacked m n hparse
    rcases h with ⟨hnil, hunpacked⟩ | ⟨hbare, -⟩ | ⟨m', h | ⟨w, chunks, h⟩⟩
    · have hlength := length_unpacked hparse hunpacked
      unfold unpacked at hunpacked
      rw [hparse] at hunpacked
      refine Or.inr ⟨m, Or.inl ⟨hino', ?_, ?_, by rw [hfile], by rw [hfile]; exact hlength.symm, ?_⟩⟩
      · rw [hdata, hparse, hlength]
      · rw [hdata]
        exact Option.eq_some_of_filter_eq_some hunpacked
      · rw [hfile, hnil]
        intro d hd
        rw [List.mem_singleton.mp hd]
        exact Or.inl hnew
    · rw [hbare.data, parse_of_not_magic htext] at hparse
      cases hparse
    · rw [h.parse] at hparse
      cases hparse
      refine Or.inr ⟨m, Or.inl ⟨hino', by rw [hdata]; exact h.parse, by rw [hdata]; exact h.decode, by rw [hfile], by rw [hfile], ?_⟩⟩
      rw [hfile]
      intro d hd
      rcases List.mem_cons.mp hd with rfl | hd
      · exact Or.inl hnew
      · rw [hold d hd]
        exact h.descs d hd
    · have hsome := h.parse hlen []
      rw [List.append_nil, hparse] at hsome
      cases hsome
      refine Or.inr ⟨m, Or.inr ⟨w, chunks, ?_⟩⟩
      refine
        { ino := hino', data := hdata.trans h.data, text := h.text, available := h.available, compressor := by rw [hfile]
          size := by rw [hfile], type := by rw [hfile]; exact h.type, nonempty := h.nonempty
          mem := by rw [hfile]; exact List.mem_cons_of_mem _ h.mem, handle := by rw [hold w h.mem]; exact h.handle
          offset := by rw [hold w h.mem]; exact h.offset, fd := by rw [hold w h.mem, hdata]; exact h.fd, others := ?_ }
      rw [hfile]
      intro d hd hne
      rcases List.mem_cons.mp hd with rfl | hd
      · exact hnew
      · rw [hold d hd]
        exact h.others d hd hne

end FuseCompress
