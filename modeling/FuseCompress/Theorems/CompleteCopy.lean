import FuseCompress.Lemmas.Unmount
import FuseCompress.Theorems.HashFile
import FuseCompress.Theorems.Modules

/-!
# What compression puts in place of a file

`do_compress` trusts the number that the module returns, which counts what it has read. A copy from which something is missing
takes the place of the file when a write was lost and the module has not noticed.
-/

namespace FuseCompress

variable {Γ : Config} {libs : Libraries} {env env' : Env} {oc : Outcomes} {s : State} {f : Nat}

/-- Each module decodes what it has written of a file, when it returns the size of the file and has lost nothing unnoticed. -/
theorem compress_decodes {content : Bytes} {src : Chunks content} (hlibs : libs.Correct) (m : Module)
    (hl : Lossless libs oc src m) (hsize : (m.compress libs oc src).1 = content.length) :
    m.Decodes libs (m.compress libs oc src).2 content := by
  cases m with
  | null =>
    have hdata := nullCompress_decodes hl hsize
    exact ⟨0, congrArg (fun data => some (Reader.mk data true)) hdata⟩
  | bz2 => exact ⟨0, congrArg some (streamCompress_decodes hlibs.bz2 hl.1 hl.2 hsize)⟩
  | gzip => exact ⟨0, congrArg some (streamCompress_decodes hlibs.gz hl.1 hl.2 hsize)⟩
  | lzo => exact lzoCompress_decodes hlibs.lzo hl hsize
  | lzma => exact ⟨0, congrArg some (lzmaCompress_decodes hlibs.lzma hl hsize)⟩

/-- What `do_compress` promises: the path holds a file from which the module gets the old contents, or all is as before. -/
structure CompleteCopy (Γ : Config) (libs : Libraries) (s : State) (f : Nat) (r : State × Bool) : Prop where
  installed : r.2 = true → ∃ i i' m, s.fs.inoOf (s.files f).filename = some i ∧ r.1.fs.inoOf (s.files f).filename = some i' ∧
    parse Γ (r.1.data i') = some (m, ((s.data i).length : Int)) ∧
    m.Decodes libs ((r.1.data i').drop headerSize) (s.data i)
  unchanged : r.2 = false → r.1.fs = s.fs

/-- The file that `do_compress` installs. -/
theorem doCompressReplace_file (Γ : Config) (env : Env) (s : State) (job : Job) (stream : Bytes) :
    (doCompressReplace Γ env s job stream).fs.inoOf (s.files job.file).filename = some s.fs.next ∧
      (doCompressReplace Γ env s job stream).data s.fs.next = header job.compressor job.size ++ stream := by
  unfold doCompressReplace
  dsimp only
  split
  · constructor
    · simp [fs_discard, Backing.utime, Backing.inoOf_setName]
    · simp [State.data, fs_discard, Backing.utime, Backing.inodes_alloc]
  · constructor
    · simp [fs_discard, Backing.inoOf_setName]
    · simp [State.data, fs_discard, Backing.inodes_alloc]

/-- The last part of `do_compress` changes nothing or installs what the module has written, whose number is then the size. -/
theorem doCompressFinish_cases (Γ : Config) (env : Env) (s : State) (job : Job) (r : Int × Bytes) :
    (doCompressFinish Γ env s job r).2 = false ∧ (doCompressFinish Γ env s job r).1.fs = s.fs ∨
      r.1 = job.size ∧ (doCompressFinish Γ env s job r).2 = true ∧
        ∃ i, (doCompressFinish Γ env s job r).1.fs.inoOf (s.files job.file).filename = some i ∧
          (doCompressFinish Γ env s job r).1.data i = header job.compressor job.size ++ r.2 := by
  unfold doCompressFinish
  dsimp only
  split
  · exact Or.inl ⟨rfl, rfl⟩
  · rename_i hgoes
    rw [not_or, not_or] at hgoes
    split
    · exact Or.inl ⟨rfl, rfl⟩
    · split
      · exact Or.inl ⟨rfl, rfl⟩
      · right
        obtain ⟨hino, hdata⟩ := doCompressReplace_file Γ env
          (s.modFile job.file (fun file => { file with status := file.status.endCompressing })) job r.2
        rw [State.files_modFile, if_pos rfl] at hino
        exact ⟨not_not.mp hgoes.2.1, rfl, _, hino, hdata⟩

/-- What `do_compress` does when the module has nothing to do or does not finish, and when it does. -/
theorem doCompressOn_cases (Γ : Config) (libs : Libraries) (env env' : Env) (oc : Outcomes)
    (reads : (content : Bytes) → Chunks content) (s : State) (f : Nat) :
    (doCompressOn Γ libs env env' oc reads s f).2 = false ∧ (doCompressOn Γ libs env env' oc reads s f).1.fs = s.fs ∨
      ∃ i m, s.fs.inoOf (s.files f).filename = some i ∧ chooseCompressor Γ (s.files f).filename = some m ∧
        (m.compress libs oc (reads (s.data i))).1 = (s.data i).length ∧
        (doCompressOn Γ libs env env' oc reads s f).2 = true ∧
        ∃ i', (doCompressOn Γ libs env env' oc reads s f).1.fs.inoOf (s.files f).filename = some i' ∧
          (doCompressOn Γ libs env env' oc reads s f).1.data i' =
            header m (s.data i).length ++ (m.compress libs oc (reads (s.data i))).2 := by
  have hfsBegin := (doCompressBegin_local Γ env s f).2.1
  unfold doCompressOn
  cases hbegin : doCompressBegin Γ env s f with
  | mk s₁ job =>
    rw [hbegin] at hfsBegin
    cases job with
    | none => exact Or.inl ⟨rfl, hfsBegin⟩
    | some job =>
      obtain ⟨rfl, hino, hsize, -, hchoose, hfs, hname⟩ := doCompressBegin_job hbegin
      have hdata : s₁.data job.ino = s.data job.ino := by
        rw [State.data, hfs]
        rfl
      dsimp only
      rw [hdata]
      rcases doCompressFinish_cases Γ env' s₁ job (job.compressor.compress libs oc (reads (s.data job.ino))) with
        ⟨hfalse, hsame⟩ | ⟨hr, htrue, i', hino', hdata'⟩
      · exact Or.inl ⟨hfalse, hsame.trans hfs⟩
      · refine Or.inr ⟨job.ino, job.compressor, hino, hchoose, ?_, htrue, i', ?_, ?_⟩
        · rw [hr, hsize]
        · rw [← hname]
          exact hino'
        · rw [hdata', hsize]

/-- What has been installed decodes to the file exactly when the module decodes what it has written. -/
theorem completeCopy_iff {reads : (content : Bytes) → Chunks content} (havailable : Γ.compressorDefault.Available Γ)
    (hlt : ∀ i, s.fs.inoOf (s.files f).filename = some i → (s.data i).length < 2 ^ 63)
    (htrue : (doCompressOn Γ libs env env' oc reads s f).2 = true) :
    ∃ i, s.fs.inoOf (s.files f).filename = some i ∧
      (Γ.compressorDefault.compress libs oc (reads (s.data i))).1 = (s.data i).length ∧
      (CompleteCopy Γ libs s f (doCompressOn Γ libs env env' oc reads s f) ↔
        Γ.compressorDefault.Decodes libs (Γ.compressorDefault.compress libs oc (reads (s.data i))).2 (s.data i)) := by
  rcases doCompressOn_cases Γ libs env env' oc reads s f with ⟨hfalse, -⟩ | ⟨i, m, hino, hchoose, hsize, -, i', hino', hdata'⟩
  · rw [hfalse] at htrue
    cases htrue
  obtain rfl := chooseCompressor_eq hchoose
  have hparse : parse Γ ((doCompressOn Γ libs env env' oc reads s f).1.data i') =
      some (Γ.compressorDefault, ((s.data i).length : Int)) := by
    rw [hdata']
    exact parse_header havailable (hlt i hino) _
  have hstream : ((doCompressOn Γ libs env env' oc reads s f).1.data i').drop headerSize =
      (Γ.compressorDefault.compress libs oc (reads (s.data i))).2 := by
    rw [hdata', ← length_header Γ.compressorDefault (s.data i).length, List.drop_left]
  refine ⟨i, hino, hsize, ?_⟩
  constructor
  · intro hcopy
    obtain ⟨j, j', m, hj, hj', hparse', hdecodes⟩ := hcopy.installed htrue
    rw [hino] at hj
    cases hj
    rw [hino'] at hj'
    cases hj'
    rw [hparse] at hparse'
    cases hparse'
    rw [hstream] at hdecodes
    exact hdecodes
  · intro hdecodes
    refine ⟨fun _ => ⟨i, i', Γ.compressorDefault, hino, hino', hparse, ?_⟩, fun hfalse => ?_⟩
    · rw [hstream]
      exact hdecodes
    · rw [htrue] at hfalse
      cases hfalse

/-- A copy made by `null` is complete exactly when every write was full. -/
theorem completeCopy_null_iff {reads : (content : Bytes) → Chunks content} (havailable : Γ.compressorDefault.Available Γ)
    (hlt : ∀ i, s.fs.inoOf (s.files f).filename = some i → (s.data i).length < 2 ^ 63)
    (hnull : Γ.compressorDefault = .null) (htrue : (doCompressOn Γ libs env env' oc reads s f).2 = true) :
    CompleteCopy Γ libs s f (doCompressOn Γ libs env env' oc reads s f) ↔
      ∀ i, s.fs.inoOf (s.files f).filename = some i →
        ∀ k, k < (reads (s.data i)).chunks.length → oc.writes k = .full := by
  obtain ⟨i, hino, hsize, hcomplete⟩ := completeCopy_iff havailable hlt htrue
  rw [hcomplete]
  rw [hnull] at hsize ⊢
  have hdecodes : Module.Decodes libs (nullCompress oc (reads (s.data i))).2 (s.data i) .null ↔
      (nullCompress oc (reads (s.data i))).2 = s.data i := by
    constructor
    · rintro ⟨_, hdeliver⟩
      exact congrArg Reader.rest (Option.some.inj hdeliver)
    · intro hdata
      exact ⟨0, congrArg (fun data => some (Reader.mk data true)) hdata⟩
  refine (hdecodes.trans (nullCompress_complete_iff hsize)).trans ⟨fun h j hj => ?_, fun h => h i hino⟩
  rw [hino] at hj
  cases hj
  exact h

/-- A file that `do_compress` has not installed is as before, and one that it has decodes when the module has lost nothing without
noticing. Of `null` it is known exactly when that is. -/
theorem doCompress_complete (Γ : Config) (libs : Libraries) (env env' : Env) (oc : Outcomes)
    (reads : (content : Bytes) → Chunks content) (s : State) (f : Nat) (hlibs : libs.Correct)
    (havailable : Γ.compressorDefault.Available Γ)
    (hlt : ∀ i, s.fs.inoOf (s.files f).filename = some i → (s.data i).length < 2 ^ 63) :
    ((∀ i, s.fs.inoOf (s.files f).filename = some i → Lossless libs oc (reads (s.data i)) Γ.compressorDefault) →
        CompleteCopy Γ libs s f (doCompressOn Γ libs env env' oc reads s f)) ∧
      (Γ.compressorDefault = .null → (doCompressOn Γ libs env env' oc reads s f).2 = true →
        (CompleteCopy Γ libs s f (doCompressOn Γ libs env env' oc reads s f) ↔
          ∀ i, s.fs.inoOf (s.files f).filename = some i →
            ∀ k, k < (reads (s.data i)).chunks.length → oc.writes k = .full)) := by
  refine ⟨fun hl => ?_, completeCopy_null_iff havailable hlt⟩
  cases htrue : (doCompressOn Γ libs env env' oc reads s f).2 with
  | true =>
    obtain ⟨i, hino, hsize, hcomplete⟩ := completeCopy_iff havailable hlt htrue
    exact hcomplete.mpr (compress_decodes hlibs Γ.compressorDefault (hl i hino) hsize)
  | false =>
    rcases doCompressOn_cases Γ libs env env' oc reads s f with ⟨-, hsame⟩ | ⟨_, _, _, _, _, htrue', -⟩
    · refine ⟨fun htrue' => ?_, fun _ => hsame⟩
      rw [htrue] at htrue'
      cases htrue'
    · rw [htrue] at htrue'
      cases htrue'

/-! ## A full disk -/

/-- A library that stores what it is given. -/
def StreamLib.stored : StreamLib where
  Stream := Bytes
  opened := []
  write := fun s c => (s ++ c, c.length)
  close := fun s => (s, true)
  deliver := fun stream => ⟨stream, true⟩

theorem StreamLib.writes_stored (s : Bytes) (chunks : List Bytes) : StreamLib.stored.writes s chunks = s ++ chunks.flatten := by
  induction chunks generalizing s with
  | nil => exact (List.append_nil s).symm
  | cons c cs ih =>
    change StreamLib.stored.writes (s ++ c) cs = _
    rw [ih (s ++ c), List.flatten_cons, List.append_assoc]

theorem StreamLib.stored_correct : StreamLib.stored.Correct := by
  intro chunks _ _
  exact congrArg (fun data => Reader.mk data true) (StreamLib.writes_stored [] chunks)

/-- An encoder that passes on what it is given. -/
def LzmaLib.stored : LzmaLib where
  Stream := Unit
  opened := ()
  code := fun _ c => some ((), [c])
  finish := fun _ => some []
  deliver := fun stream => ⟨stream, true⟩

theorem LzmaLib.codes_stored (chunks : List Bytes) : LzmaLib.stored.codes () chunks = some ((), chunks) := by
  induction chunks with
  | nil => rfl
  | cons c cs ih =>
    change (LzmaLib.stored.codes () cs).map (fun r => (r.1, [c] ++ r.2)) = _
    rw [ih]
    rfl

theorem LzmaLib.stored_correct : LzmaLib.stored.Correct := by
  intro chunks s outs tail hcodes hfinish
  have houts := (LzmaLib.codes_stored chunks).symm.trans hcodes
  cases houts
  cases hfinish
  exact congrArg (fun data => Reader.mk data true) (List.append_nil _)

/-- A build with libraries that store what they are given. -/
def Libraries.stored : Libraries := ⟨⟨.literal, false, fun _ => ()⟩, .stored, .stored, .stored⟩

theorem Libraries.stored_correct : Libraries.stored.Correct :=
  ⟨Lzo1x.literal_correct, StreamLib.stored_correct, StreamLib.stored_correct, LzmaLib.stored_correct⟩

/-- A file that is read in one piece; a longer one cannot be read. -/
def Chunks.atOnce (content : Bytes) : Chunks content where
  chunks := if content = [] ∨ moduleBufSize < content.length then [] else [content]
  failed := decide (moduleBufSize < content.length)
  chunk := by
    intro c hc
    split at hc
    · cases hc
    · rename_i hfits
      rw [List.mem_singleton.mp hc]
      rw [not_or, not_lt] at hfits
      exact hfits
  start := by
    split
    · exact List.nil_prefix
    · exact ⟨[], by simp⟩
  all := by
    intro hfits
    rw [decide_eq_false_iff_not] at hfits
    split
    · rename_i hempty
      rw [hempty.resolve_right hfits]
      rfl
    · exact List.append_nil content

/-- Every call succeeds but the writes, of which the first has the outcome `w`. -/
def Outcomes.firstWrite (w : Written) : Outcomes where
  writes := fun i => if i = 0 then w else .full
  dup := true
  opened := true
  cancels := fun _ => false

theorem data_holding (content : Bytes) : (State.holding content).data 0 = content := rfl

theorem length_holding {content : Bytes} (hlt : content.length < 2 ^ 63) (i : Nat)
    (hi : (State.holding content).fs.inoOf ((State.holding content).files 0).filename = some i) :
    ((State.holding content).data i).length < 2 ^ 63 := by
  have hino : (State.holding content).fs.inoOf ((State.holding content).files 0).filename = some 0 := rfl
  obtain rfl := Option.some.inj (hino.symm.trans hi)
  rw [data_holding]
  exact hlt

/-- The contents of a file of one page. -/
def onePage : Bytes := List.replicate 4096 7

theorem length_onePage : onePage.length < 2 ^ 63 := by
  rw [onePage, List.length_replicate]
  decide

/-- A file of one page is compressed on a disk with room. -/
theorem doCompress_complete_onePage :
    CompleteCopy .plain .stored (.holding onePage) 0
      (doCompressOn .plain .stored .fine .fine (.firstWrite .full) Chunks.atOnce (.holding onePage) 0) := by
  refine (doCompress_complete .plain .stored .fine .fine (.firstWrite .full) Chunks.atOnce (.holding onePage) 0
    Libraries.stored_correct rfl (length_holding length_onePage)).1 (fun i _ k _ => ?_)
  left
  unfold Outcomes.firstWrite
  dsimp only
  split <;> rfl

/-- The disk is full when the page is written: `nullCompress` takes `-1` for the number of bytes written, and nothing is left of
the page. -/
theorem fullDisk_not_completeCopy :
    ¬∀ (Γ : Config) (libs : Libraries) (env env' : Env) (oc : Outcomes) (reads : (content : Bytes) → Chunks content) (s : State)
      (f : Nat), libs.Correct → Γ.compressorDefault.Available Γ →
      (∀ i, s.fs.inoOf (s.files f).filename = some i → (s.data i).length < 2 ^ 63) →
      CompleteCopy Γ libs s f (doCompressOn Γ libs env env' oc reads s f) := by
  intro h
  have hlt := length_holding length_onePage
  have hcopy := h .plain .stored .fine .fine (.firstWrite .fail) Chunks.atOnce (.holding onePage) 0 Libraries.stored_correct rfl hlt
  have hinstalled : (doCompressOn .plain .stored .fine .fine (.firstWrite .fail) Chunks.atOnce (.holding onePage) 0).2 = true := by
    decide +kernel
  have hchunks : 0 < (Chunks.atOnce onePage).chunks.length := by decide +kernel
  have hfull := (completeCopy_null_iff (Γ := .plain) rfl hlt rfl hinstalled).mp hcopy 0 rfl 0 hchunks
  cases hfull

end FuseCompress
