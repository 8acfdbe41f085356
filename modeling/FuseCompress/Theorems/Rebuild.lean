import FuseCompress.Rebuild
import FuseCompress.Theorems.Fsck
import FuseCompress.Theorems.HardlinkFile
import FuseCompress.Theorems.DedupFile
import FuseCompress.Lib.Transition

/-!
# What the checker puts into the table

`checkfile` comes to the table with the digest of a file on three ways, and does not look at the result of `dedup_hash_file`. A file
with the magic bytes that is too short for a header is checked with the module and the size of the file before.
`rebuild_honest_iff`: the digests are those of the files, and with them the records and the links, exactly when `dedup_hash_file`
reads all of every file it is called for, and no file is hashed with the header of another.
-/

namespace FuseCompress

variable {Γ : Config} {opens : Readers} {P : Process} {o : RebuildOptions} {s s' : Rebuilt} {v : Visit} {b b' : Backing} {f : Filename}
  {rd : Reader} {size : Int} {mh : Bytes} {data text : Bytes} {md5 : List UInt8} {i j : Nat} {m : Module}

/-! ## The loop over a stream -/

theorem rebuildLoop_zero (rd : Reader) (mh : Bytes) : rebuildLoop rd 0 mh = (.fine, mh) := by
  rw [rebuildLoop, if_pos rfl]

/-- The loop that hashes finds what the loop that only checks finds. -/
theorem rebuildLoop_fst (rd : Reader) (size : Int) (mh : Bytes) : (rebuildLoop rd size mh).1 = checkLoop rd size := by
  induction hn : rd.rest.length using Nat.strong_induction_on generalizing rd size mh with
  | _ n ih =>
    rw [rebuildLoop]
    split
    · rename_i hzero
      rw [hzero, checkLoop_zero]
    · rename_i hsize
      split
      · rename_i hrequest
        rw [checkLoop, if_neg hsize, if_pos hrequest]
      · rename_i hrequest
        split
        · rename_i hread
          rw [checkLoop_none hsize (Nat.not_lt.mp hrequest) hread]
        · rename_i buf rd' hread
          rw [checkLoop_some hsize (Nat.not_lt.mp hrequest) hread]
          split
          · rfl
          · rename_i hne
            obtain ⟨hrest, -, -⟩ := Reader.length_read hread
            have hlt : 0 < buf.length := List.length_pos_iff.mpr hne
            exact ih rd'.rest.length (by rw [← hn, hrest, List.length_append]; omega) rd' _ _ rfl

/-- Where the loop ends well, it has hashed as many bytes as the header says. -/
theorem rebuildLoop_fine {out : Bytes} (h : rebuildLoop rd size mh = (.fine, out)) :
    0 ≤ size ∧ size.toNat ≤ rd.rest.length ∧ out = mh ++ rd.rest.take size.toNat := by
  induction hn : rd.rest.length using Nat.strong_induction_on generalizing rd size mh with
  | _ n ih =>
    rw [rebuildLoop] at h
    split at h
    · rename_i hzero
      cases h
      subst hzero
      exact ⟨le_refl _, Nat.zero_le _, by simp⟩
    split at h
    · cases h
    split at h
    · cases h
    · rename_i buf rd' hread
      split at h
      · cases h
      · rename_i hne
        obtain ⟨hrest, -, -⟩ := Reader.length_read hread
        have hlt : 0 < buf.length := List.length_pos_iff.mpr hne
        have hlength : rd.rest.length = buf.length + rd'.rest.length := by rw [hrest, List.length_append]
        obtain ⟨hpos, hle, hout⟩ := ih rd'.rest.length (by omega) h rfl
        have hsize : size.toNat = buf.length + (size - buf.length).toNat := by omega
        refine ⟨by omega, by omega, ?_⟩
        rw [hout, hrest, hsize, List.take_length_add_append, List.append_assoc]

/-- A stream that is long enough is hashed. -/
theorem rebuildLoop_natCast {n : Nat} (hle : n ≤ rd.rest.length) (mh : Bytes) :
    rebuildLoop rd n mh = (.fine, mh ++ rd.rest.take n) := by
  have hfst := rebuildLoop_fst rd n mh
  rw [checkLoop_natCast, if_pos hle] at hfst
  have hpair : rebuildLoop rd n mh = (.fine, (rebuildLoop rd n mh).2) := by rw [← hfst]
  obtain ⟨-, -, hout⟩ := rebuildLoop_fine hpair
  rw [hpair, hout, Int.toNat_natCast]

/-! ## The digest of a file -/

/-- The uncompressed content of a file with contents `data`, if it has one: as many bytes of the stream as the header says, or the
contents themselves where there is no header. -/
def uncompressed (Γ : Config) (opens : Readers) (data : Bytes) : Option Bytes :=
  match parse Γ data with
  | none => some data
  | some (m, size) =>
    (opens m (data.drop headerSize)).bind (fun rd =>
      if 0 ≤ size ∧ size.toNat ≤ rd.rest.length then some (rd.rest.take size.toNat) else none)

/-- `checkfile` comes to look at the first bytes of the file. -/
structure Visit.Examines (v : Visit) : Prop where
  opened : v.opened = true
  name : isStaleTemp v.name = false
  visible : isInternal v.name = false
  readMagic : v.readMagic = true

/-- `checkfile` comes to `dedup_hash_file`. -/
structure Visit.HashesFile (v : Visit) (data : Bytes) : Prop extends v.Examines where
  raw : data.take 3 ≠ magic

/-- `dedup_hash_file` can open the file and reads all of it, or as much as has the same digest; or it cannot open it, and the digest
of the file is in `md5` anyway. -/
def Visit.HashesWhole (v : Visit) (Γ : Config) (data : Bytes) : Prop :=
  if v.hash.opened then Γ.md5 (v.hash.reads data).chunks.flatten = Γ.md5 data else v.md5 = Γ.md5 data

/-- `checkfile` goes through a file with the magic bytes and no whole header, with what its variables hold from the call before: a
module that opens the empty stream, and a size that `rd` has. -/
structure Visit.ReusesHeader (v : Visit) (opens : Readers) (data : Bytes) (rd : Reader) : Prop extends v.Examines where
  magic : data.take 3 = magic
  short : data.length < headerSize
  readHeader : v.stream.readHeader = true
  compr : ∃ m, v.compr = .to m ∧ v.stream.open opens m [] = some rd
  size : 0 ≤ v.size ∧ v.size.toNat ≤ rd.rest.length
  closed : v.closed = true

/-- What `checkfile` hashes is the file: `dedup_hash_file`, where it is called, reads all of it, and what it hashes with the header of
another file has the same digest. -/
structure Visit.HashesRight (v : Visit) (Γ : Config) (opens : Readers) (data : Bytes) : Prop where
  file : v.HashesFile data → v.HashesWhole Γ data
  header : ∀ rd, v.ReusesHeader opens data rd → Γ.md5 (rd.rest.take v.size.toNat) = Γ.md5 data

/-- A call that fails cuts a stream short. -/
theorem open_prefix {sc : StreamCalls} {stream : Bytes} (h : sc.open opens m stream = some rd) :
    ∃ rd', opens m stream = some rd' ∧ rd.rest <+: rd'.rest := by
  unfold StreamCalls.open at h
  split at h
  · rw [Option.map_eq_some_iff] at h
    obtain ⟨rd', hopen, hrd⟩ := h
    refine ⟨rd', hopen, ?_⟩
    subst hrd
    cases sc.cut with
    | none => exact List.prefix_refl _
    | some n => exact List.take_prefix _ _
  · cases h

/-- The module comes from the header, or from the call before. -/
theorem parse_of_checkHeader {compr : Pointer} {garbage : Int} (h : checkHeader Γ data compr garbage = (.to m, size)) :
    parse Γ data = some (m, size) ∨ (data.length < headerSize ∧ compr = .to m ∧ garbage = size) := by
  unfold checkHeader at h
  split at h
  · rename_i hshort
    cases h
    exact Or.inr ⟨hshort, rfl, rfl⟩
  · rename_i hlong
    left
    cases hparse : parse Γ data with
    | none =>
      rw [fileReadHeader_of_parse_none hparse, if_neg hlong] at h
      cases h
    | some p =>
      obtain ⟨m', size'⟩ := p
      rw [fileReadHeader_of_parse hparse] at h
      cases h
      rfl

/-- A compressed file that is hashed is hashed as a whole, unless it has no whole header. -/
theorem checkCompressed_digest (hv : v.Examines) (hmagic : data.take 3 = magic) (h : v.checkCompressed Γ opens data = .digest md5) :
    (∃ content, uncompressed Γ opens data = some content ∧ md5 = Γ.md5 content) ∨
      ∃ rd, v.ReusesHeader opens data rd ∧ md5 = Γ.md5 (rd.rest.take v.size.toNat) := by
  unfold Visit.checkCompressed at h
  split at h
  · cases h
  rename_i hread
  split at h
  · rename_i m size hheader
    split at h
    · cases h
    · rename_i rd hopen
      split at h
      · rename_i out hloop
        split at h
        · rename_i hclosed
          cases h
          obtain ⟨hpos, hle, hout⟩ := rebuildLoop_fine hloop
          rw [List.nil_append] at hout
          rcases parse_of_checkHeader hheader with hparse | ⟨hshort, hcompr, hsize⟩
          · left
            obtain ⟨rd', hopen', hprefix⟩ := open_prefix hopen
            have hlonger := hprefix.length_le
            refine ⟨rd'.rest.take size.toNat, ?_, ?_⟩
            · unfold uncompressed
              rw [hparse]
              dsimp only
              rw [hopen', Option.bind_some, if_pos ⟨hpos, by omega⟩]
            · rw [hout]
              obtain ⟨more, hmore⟩ := hprefix
              rw [← hmore, List.take_append_of_le_length hle]
          · right
            rw [← hsize] at hpos hle hout
            rw [List.drop_eq_nil_of_le hshort.le] at hopen
            exact ⟨rd, ⟨hv, hmagic, hshort, by simpa using hread, ⟨m, hcompr, hopen⟩, ⟨hpos, hle⟩, hclosed⟩, by rw [hout]⟩
        · cases h
      · cases h
      · cases h
  · cases h

/-- A file without a whole header is hashed as the stream of the module of the call before. -/
theorem Visit.ReusesHeader.checkCompressed (h : v.ReusesHeader opens data rd) :
    v.checkCompressed Γ opens data = .digest (Γ.md5 (rd.rest.take v.size.toNat)) := by
  obtain ⟨m, hcompr, hopen⟩ := h.compr
  obtain ⟨hpos, hle⟩ := h.size
  unfold Visit.checkCompressed checkHeader
  rw [if_neg (by simp [h.readHeader]), if_pos h.short, hcompr]
  dsimp only
  rw [List.drop_eq_nil_of_le h.short.le, hopen]
  dsimp only
  obtain ⟨n, hn⟩ := Int.eq_ofNat_of_zero_le hpos
  rw [hn, Int.toNat_natCast] at hle ⊢
  rw [rebuildLoop_natCast hle []]
  dsimp only
  rw [if_pos h.closed, List.nil_append]

theorem parse_eq_none_of_raw (h : data.take 3 ≠ magic) : parse Γ data = none := by
  cases hparse : parse Γ data with
  | none => rfl
  | some p => exact absurd (take_eq_magic_of_parse hparse) h

/-- `dedup_hash_file` on a file without the magic bytes. -/
theorem dedupHashFile_raw {hc : HashCalls} (h : data.take 3 ≠ magic) (md5 : List UInt8) :
    hc.dedupHashFile Γ opens data md5 =
      some (if hc.opened then (Γ.md5 (hc.reads data).chunks.flatten, (hc.reads data).failed) else (md5, true)) := by
  unfold HashCalls.dedupHashFile
  cases hc.opened with
  | false => rfl
  | true =>
    rw [if_neg (by simp), hashStart, if_pos (Or.inr h)]
    rfl

/-- How `checkfile` comes to the table. -/
theorem checkfile_digest (h : v.checkfile Γ opens data = .digest md5) :
    isInternal v.name = false ∧ isStaleTemp v.name = false ∧
      ((∃ content, uncompressed Γ opens data = some content ∧ md5 = Γ.md5 content) ∨
        (∃ rd, v.ReusesHeader opens data rd ∧ md5 = Γ.md5 (rd.rest.take v.size.toNat)) ∨
        v.HashesFile data ∧ md5 = if v.hash.opened then Γ.md5 (v.hash.reads data).chunks.flatten else v.md5) := by
  unfold Visit.checkfile at h
  split at h
  · cases h
  rename_i hopened
  split at h
  · cases h
  rename_i htemp
  split at h
  · cases h
  rename_i hinternal
  split at h
  · cases h
  rename_i hmagic
  have hvisible : isInternal v.name = false := Bool.eq_false_iff.mpr hinternal
  refine ⟨hvisible, by simpa using htemp, ?_⟩
  have hv : v.Examines := ⟨by simpa using hopened, by simpa using htemp, hvisible, by simpa using hmagic⟩
  split at h
  · rename_i hcompressed
    rcases checkCompressed_digest hv hcompressed h with hwhole | hstale
    · exact Or.inl hwhole
    · exact Or.inr (Or.inl hstale)
  · rename_i hraw
    rw [dedupHashFile_raw hraw] at h
    refine Or.inr (Or.inr ⟨{ hv with raw := hraw }, ?_⟩)
    cases hhash : v.hash.opened with
    | false =>
      rw [hhash] at h
      cases h
      rfl
    | true =>
      rw [hhash] at h
      cases h
      rfl

/-- `checkfile` has come to the table with the digest of the file. -/
def RightDigest (Γ : Config) (opens : Readers) (data : Bytes) (md5 : List UInt8) : Prop :=
  ∃ content, uncompressed Γ opens data = some content ∧ md5 = Γ.md5 content

/-- A call that comes to look at the first bytes goes on by what they are. -/
theorem Visit.Examines.checkfile (h : v.Examines) :
    v.checkfile Γ opens data =
      if data.take 3 = magic then v.checkCompressed Γ opens data
      else ((v.hash.dedupHashFile Γ opens data v.md5).map (fun r => Checked.digest r.1)).getD .gone := by
  have hname : ¬fusecompressPrefix.isPrefixOf (basename v.name) = true := Bool.eq_false_iff.mp h.visible
  unfold Visit.checkfile
  rw [if_neg (by simp [h.opened]), if_neg (by simp [h.name]), if_neg hname, if_neg (by simp [h.readMagic])]
  split
  · rfl
  · cases v.hash.dedupHashFile Γ opens data v.md5 <;> rfl

theorem uncompressed_of_parse_none (h : parse Γ data = none) : uncompressed Γ opens data = some data := by
  unfold uncompressed
  rw [h]

/-- `checkfile` comes to the table with the digest of the file exactly when what it hashes is the file. -/
theorem rightDigest_iff :
    (∀ md5, v.checkfile Γ opens data = .digest md5 → RightDigest Γ opens data md5) ↔ v.HashesRight Γ opens data := by
  constructor
  · intro h
    constructor
    · intro hfile
      have hchecked : v.checkfile Γ opens data =
          .digest (if v.hash.opened then Γ.md5 (v.hash.reads data).chunks.flatten else v.md5) := by
        rw [hfile.toExamines.checkfile, if_neg hfile.raw, dedupHashFile_raw hfile.raw]
        cases v.hash.opened <;> rfl
      obtain ⟨content, hcontent, hmd5⟩ := h _ hchecked
      rw [uncompressed_of_parse_none (parse_eq_none_of_raw hfile.raw)] at hcontent
      cases hcontent
      unfold Visit.HashesWhole
      split
      · rename_i hopened
        rw [if_pos hopened] at hmd5
        exact hmd5
      · rename_i hopened
        rw [if_neg hopened] at hmd5
        exact hmd5
    · intro rd hstale
      obtain ⟨content, hcontent, hmd5⟩ := h _ (by rw [hstale.toExamines.checkfile, if_pos hstale.magic, hstale.checkCompressed])
      rw [uncompressed_of_parse_none (by rw [parse, if_pos hstale.short])] at hcontent
      cases hcontent
      exact hmd5
  · intro h md5 hchecked
    obtain ⟨-, -, hcompressed | ⟨rd, hstale, hmd5⟩ | ⟨hfile, hmd5⟩⟩ := checkfile_digest hchecked
    · exact hcompressed
    · exact ⟨data, uncompressed_of_parse_none (by rw [parse, if_pos hstale.short]), hmd5.trans (h.header rd hstale)⟩
    · refine ⟨data, uncompressed_of_parse_none (parse_eq_none_of_raw hfile.raw), ?_⟩
      · have hwhole := h.file hfile
        unfold Visit.HashesWhole at hwhole
        rw [hmd5]
        split
        · rename_i hopened
          rw [if_pos hopened] at hwhole
          exact hwhole
        · rename_i hopened
          rw [if_neg hopened] at hwhole
          exact hwhole

/-! ## What a link leaves of the backing directory -/

/-- Every name of a regular file refers to an inode that exists. -/
def Backing.Closed (b : Backing) : Prop := ∀ q k, b.find q = some (.reg k) → k < b.next

/-- The files have their contents, and the names but `f` and the internal ones their files. -/
structure Backing.KeepsFiles (b b' : Backing) (f : Filename) : Prop where
  others : ∀ q, isInternal q = false → q ≠ f → b'.find q = b.find q
  data : ∀ k, k < b.next → (b'.inodes k).data = (b.inodes k).data
  next : b.next ≤ b'.next
  closed : b.Closed → b'.Closed

theorem Backing.KeepsFiles.refl (b : Backing) (f : Filename) : b.KeepsFiles b f :=
  ⟨fun _ _ _ => rfl, fun _ _ => rfl, Nat.le_refl _, fun h => h⟩

/-- Where `hardlink_file` makes a link, the name refers to the inode of the record, or still to its own. -/
theorem hardlinkFile_keepsFiles {c : LinkCalls} {h : DedupHash} {dp : DedupT} (hl : P.Links c h b md5 f dp j)
    (hf : isInternal f = false) (hi : b.inoOf f = some i) :
    ∃ b', P.hardlinkFile c h b md5 f = (h, b', if c.rename then some dp.filename else none) ∧ b.KeepsFiles b' f ∧
      b'.inoOf f = some (if c.rename then j else i) := by
  have hbeside := keepAttr_beside P c (b.setName (P.tmpname f) j) f
  obtain ⟨b', hb', hrelinked⟩ := hardlinkFile_of_links hl hf hi
  generalize P.keepAttr c (b.setName (P.tmpname f) j) f = b₂ at hbeside hrelinked
  have hfind : ∀ q, isInternal q = false → b'.find q = if q = f ∧ c.rename = true then some (.reg j) else b.find q := by
    intro q hq
    rw [hrelinked.find q (ne_tmpname hq P f), hbeside.find q (ne_fuseattrName hq f), Backing.find_setName,
      if_neg (ne_tmpname hq P f)]
  have hnext : b.next ≤ b'.next := hrelinked.next ▸ hbeside.next
  refine ⟨b', hb', ⟨fun q hq hqf => ?_, fun k hk => ?_, hnext, fun hclosed q k hq => ?_⟩, ?_⟩
  · rw [hfind q hq, if_neg (fun h => hqf h.1)]
  · rw [hrelinked.inodes]
    exact hbeside.data k hk
  · -- a name is the file, the temporary link, the attribute file, or one from before
    have hj : j < b.next := hclosed _ _ (Backing.inoOf_eq_some.mp hl.ino)
    by_cases htmp : q = P.tmpname f
    · rw [htmp] at hq
      have hkj := hrelinked.left _ hq
      rw [Node.reg.injEq] at hkj
      omega
    · rw [hrelinked.find q htmp] at hq
      split at hq
      · rw [Option.some.injEq, Node.reg.injEq] at hq
        omega
      · by_cases hattr : q = fuseattrName f
        · rw [hattr] at hq
          rcases hbeside.attr k hq with hold | hlt
          · rw [Backing.find_setName, if_neg (Ne.symm (tmpname_ne_fuseattrName P f f))] at hold
            exact Nat.lt_of_lt_of_le (hclosed _ _ hold) hnext
          · rw [hrelinked.next]
            exact hlt
        · rw [hbeside.find q hattr, Backing.find_setName, if_neg htmp] at hq
          exact Nat.lt_of_lt_of_le (hclosed _ _ hq) hnext
  · rw [Backing.inoOf_eq_some, hfind f hf]
    cases c.rename with
    | true =>
      rw [if_pos ⟨rfl, rfl⟩]
      rfl
    | false =>
      rw [if_neg (by simp), Backing.inoOf_eq_some.mp hi]
      rfl

/-! ## The run -/

/-- The uncompressed content of the file with a name. -/
def Backing.content (Γ : Config) (opens : Readers) (b : Backing) (q : Filename) : Option Bytes :=
  (b.inoOf q).bind (fun i => uncompressed Γ opens (b.inodes i).data)

/-- No two contents have one digest. -/
def CollisionFree (Γ : Config) (opens : Readers) (b : Backing) : Prop :=
  ∀ p q c d, isInternal p = false → isInternal q = false → b.content Γ opens p = some c → b.content Γ opens q = some d →
    Γ.md5 c = Γ.md5 d → c = d

/-- Every record has the digest of the file it names, and a file that is still there has the content it had at the start. -/
structure Rebuilt.Honest (Γ : Config) (opens : Readers) (b : Backing) (s : Rebuilt) : Prop where
  records : ∀ dp, s.table.Holds dp → ∃ c, s.fs.content Γ opens dp.filename = some c ∧ dp.md5 = Γ.md5 c
  contents : CollisionFree Γ opens b → ∀ q, isInternal q = false → s.fs.inoOf q ≠ none →
    b.inoOf q ≠ none ∧ s.fs.content Γ opens q = b.content Γ opens q

/-- The invariant: the table is valid and its records name files that have been visited. -/
structure Rebuilt.Inv (Γ : Config) (opens : Readers) (b : Backing) (visited : List Filename) (s : Rebuilt) : Prop
    extends s.Honest Γ opens b where
  closed : s.fs.Closed
  valid : s.table.Valid
  known : ∀ dp, s.table.Holds dp → dp.filename ∈ visited ∧ isInternal dp.filename = false

theorem content_congr {q : Filename} (hfind : b'.find q = b.find q)
    (hdata : ∀ k, b.find q = some (.reg k) → (b'.inodes k).data = (b.inodes k).data) :
    b'.content Γ opens q = b.content Γ opens q := by
  have hino : b'.inoOf q = b.inoOf q := by
    unfold Backing.inoOf
    rw [hfind]
  unfold Backing.content
  rw [hino]
  cases hk : b.inoOf q with
  | none => rfl
  | some k => rw [Option.bind_some, Option.bind_some, hdata k (Backing.inoOf_eq_some.mp hk)]

theorem content_of_inoOf {q : Filename} (h : b.inoOf q = some i) :
    b.content Γ opens q = uncompressed Γ opens (b.inodes i).data := by
  rw [Backing.content, h, Option.bind_some]

section Step

variable {visited : List Filename}

/-- A step that only changes names that are internal or the visited one. -/
theorem Rebuilt.Inv.of_keepsFiles (hs : s.Inv Γ opens b visited) (hnew : f ∉ visited) (hkeeps : s.fs.KeepsFiles b' f)
    (hself : isInternal f = false → CollisionFree Γ opens b → b'.inoOf f ≠ none →
      s.fs.inoOf f ≠ none ∧ b'.content Γ opens f = s.fs.content Γ opens f) :
    Rebuilt.Inv Γ opens b visited { s with fs := b' } where
  records := by
    intro dp hdp
    obtain ⟨c, hc, hmd5⟩ := hs.records dp hdp
    obtain ⟨hmem, hinternal⟩ := hs.known dp hdp
    have hne : dp.filename ≠ f := fun h => hnew (h ▸ hmem)
    refine ⟨c, ?_, hmd5⟩
    rw [← hc]
    exact content_congr (hkeeps.others _ hinternal hne) (fun k hk => hkeeps.data k (hs.closed _ _ hk))
  contents := by
    intro hfree q hq hex
    by_cases hqf : q = f
    · subst hqf
      obtain ⟨hold, hcontent⟩ := hself hq hfree hex
      obtain ⟨hfirst, hsame⟩ := hs.contents hfree q hq hold
      exact ⟨hfirst, hcontent.trans hsame⟩
    · have hfind := hkeeps.others q hq hqf
      have hino : b'.inoOf q = s.fs.inoOf q := by
        unfold Backing.inoOf
        rw [hfind]
      obtain ⟨hfirst, hsame⟩ := hs.contents hfree q hq (hino ▸ hex)
      exact ⟨hfirst, (content_congr hfind (fun k hk => hkeeps.data k (hs.closed _ _ hk))).trans hsame⟩
  closed := hkeeps.closed hs.closed
  valid := hs.valid
  known := hs.known

theorem Rebuilt.Inv.mono (hs : s.Inv Γ opens b visited) (f : Filename) : s.Inv Γ opens b (visited ++ [f]) where
  toHonest := hs.toHonest
  closed := hs.closed
  valid := hs.valid
  known := fun dp hdp => ⟨List.mem_append_left _ (hs.known dp hdp).1, (hs.known dp hdp).2⟩

/-- A new record. -/
theorem Rebuilt.Inv.add (hs : s.Inv Γ opens b visited) (hnew : f ∉ visited) (hf : isInternal f = false)
    (hc : s.fs.content Γ opens f = some text) (hmd5 : md5 = Γ.md5 text) (hnone : s.table.findMd5 md5 = none) :
    Rebuilt.Inv Γ opens b (visited ++ [f]) { s with table := s.table.add md5 f } where
  records := by
    intro dp hdp
    rw [DedupHash.add_eq, holds_insert] at hdp
    rcases hdp with hold | hdp
    · exact hs.records dp hold
    · subst hdp
      exact ⟨text, hc, hmd5⟩
  contents := hs.contents
  closed := hs.closed
  valid := hs.valid.add (fun dp hdp h => hnew (h ▸ (hs.known dp hdp).1)) (hs.valid.findMd5_none hnone)
  known := by
    intro dp hdp
    rw [DedupHash.add_eq, holds_insert] at hdp
    rcases hdp with hold | hdp
    · exact ⟨List.mem_append_left _ (hs.known dp hold).1, (hs.known dp hold).2⟩
    · subst hdp
      exact ⟨by simp, hf⟩

theorem inoOf_ne_none (h : b.inoOf f = some i) : b.inoOf f ≠ none := by rw [h]; exact Option.some_ne_none i

/-- A file is linked to one that has the same digest. -/
theorem Rebuilt.Inv.link {c : LinkCalls} {dp : DedupT} (hs : s.Inv Γ opens b visited) (hnew : f ∉ visited) (hf : isInternal f = false)
    (hi : s.fs.inoOf f = some i) (hright : RightDigest Γ opens (s.fs.inodes i).data md5)
    (hl : P.Links c s.table s.fs md5 f dp j) :
    Rebuilt.Inv Γ opens b visited { s with fs := (P.hardlinkFile c s.table s.fs md5 f).2.1 } := by
  obtain ⟨b', hb', hkeeps, hino⟩ := hardlinkFile_keepsFiles hl hf hi
  rw [hb']
  refine hs.of_keepsFiles hnew hkeeps (fun _ hfree _ => ⟨inoOf_ne_none hi, ?_⟩)
  have hj : j < s.fs.next := hs.closed _ _ (Backing.inoOf_eq_some.mp hl.ino)
  have hlt : i < s.fs.next := hs.closed _ _ (Backing.inoOf_eq_some.mp hi)
  rw [content_of_inoOf hino]
  cases c.rename with
  | false => rw [if_neg (by simp), hkeeps.data i hlt, content_of_inoOf hi]
  | true =>
    -- the name now refers to the inode of the record, whose content has the same digest
    obtain ⟨hholds, hmd5⟩ := hs.valid.findMd5_some hl.record
    obtain ⟨c₁, hc₁, hdp⟩ := hs.records dp hholds
    obtain ⟨c₂, hc₂, hfile⟩ := hright
    have hvisible := (hs.known dp hholds).2
    have h₁ := (hs.contents hfree _ hvisible (inoOf_ne_none hl.ino)).2
    have h₂ := (hs.contents hfree _ hf (inoOf_ne_none hi)).2
    rw [content_of_inoOf hl.ino] at h₁ hc₁
    rw [content_of_inoOf hi, hc₂] at h₂
    rw [hc₁] at h₁
    have heq : c₁ = c₂ := hfree _ _ c₁ c₂ hvisible hf h₁.symm h₂.symm (by rw [← hdp, hmd5, hfile])
    rw [if_pos rfl, hkeeps.data j hj, content_of_inoOf hi, hc₁, hc₂, heq]

/-- The end of `checkfile`, with the digest of the file. -/
theorem Rebuilt.Inv.record (hs : s.Inv Γ opens b visited) (hnew : v.name ∉ visited) (hf : isInternal v.name = false)
    (hi : s.fs.inoOf v.name = some i) (hright : RightDigest Γ opens (s.fs.inodes i).data md5) :
    (s.record P o v md5).Inv Γ opens b (visited ++ [v.name]) := by
  obtain ⟨text, htext, hmd5⟩ := hright
  have hcontent : s.fs.content Γ opens v.name = some text := by rw [content_of_inoOf hi, htext]
  unfold Rebuilt.record
  split
  · by_cases hlinks : ∃ dp j, P.Links v.link s.table s.fs md5 v.name dp j
    · obtain ⟨dp, j, hl⟩ := hlinks
      have hlinked := hs.link hnew hf hi ⟨text, htext, hmd5⟩ hl
      obtain ⟨b', hb', -⟩ := hardlinkFile_keepsFiles hl hf hi
      rw [hb'] at hlinked ⊢
      exact hlinked.mono v.name
    · rw [hardlinkFile_of_not_links (fun dp j hl => hlinks ⟨dp, j, hl⟩)]
      dsimp only
      split
      · rename_i hnone
        exact hs.add hnew hf hcontent hmd5 hnone
      · exact hs.mono v.name
  · split
    · rename_i hnone
      exact hs.add hnew hf hcontent hmd5 hnone
    · exact hs.mono v.name

/-- A file is removed. -/
theorem unlinkIf_keepsFiles (b : Backing) (ok : Bool) (f : Filename) : b.KeepsFiles (b.unlinkIf ok f) f := by
  unfold Backing.unlinkIf
  split
  · unfold Backing.unlink
    split
    · refine ⟨fun q _ hqf => ?_, fun _ _ => rfl, Nat.le_refl _, fun hclosed q k hq => ?_⟩
      · rw [Option.getD_some, Backing.find_dropName, if_neg hqf]
      · rw [Option.getD_some, Backing.find_dropName] at hq
        split at hq
        · cases hq
        · exact hclosed q k hq
    · exact Backing.KeepsFiles.refl b f
  · exact Backing.KeepsFiles.refl b f

/-- A name that is still there after an `unlink` is as before. -/
theorem content_unlinkIf (ok : Bool) (h : (b.unlinkIf ok f).inoOf f ≠ none) : b.unlinkIf ok f = b := by
  unfold Backing.unlinkIf at h ⊢
  split
  · rename_i hok
    rw [if_pos hok] at h
    unfold Backing.unlink at h ⊢
    split
    · rename_i k hk
      rw [hk, Option.getD_some, Backing.inoOf_dropName, if_pos rfl] at h
      exact absurd rfl h
    · rfl
  · rfl

/-- A call of `checkfile` keeps the invariant when it comes to the table with the digest of the file. -/
theorem Rebuilt.Inv.step (hs : s.Inv Γ opens b visited) (hnew : v.name ∉ visited)
    (hwhole : ∀ i, s.fs.inoOf v.name = some i → v.HashesRight Γ opens (s.fs.inodes i).data)
    (hstep : s.step Γ opens P o v = some s') : s'.Inv Γ opens b (visited ++ [v.name]) := by
  unfold Rebuilt.step at hstep
  cases hi : s.fs.inoOf v.name with
  | none =>
    rw [hi] at hstep
    cases hstep
    exact hs.mono v.name
  | some i =>
    rw [hi] at hstep
    dsimp only at hstep
    cases hchecked : v.checkfile Γ opens (s.fs.inodes i).data with
    | digest md5 =>
      rw [hchecked] at hstep
      cases hstep
      exact hs.record hnew (checkfile_digest hchecked).1 hi (rightDigest_iff.mpr (hwhole i hi) md5 hchecked)
    | kept =>
      rw [hchecked] at hstep
      cases hstep
      exact hs.mono v.name
    | broken =>
      rw [hchecked] at hstep
      cases hstep
      have hkeeps := unlinkIf_keepsFiles s.fs (o.unlinkEnabled && v.unlinked) v.name
      refine Rebuilt.Inv.mono (hs.of_keepsFiles hnew hkeeps (fun _ _ hex => ?_)) v.name
      rw [content_unlinkIf _ hex]
      exact ⟨inoOf_ne_none hi, rfl⟩
    | gone =>
      rw [hchecked] at hstep
      cases hstep

end Step

/-- What the calls of `checkfile` keep as long as each comes to the table with the digest of its file. -/
theorem Rebuilt.Inv.run {vs : List Visit} {visited : List Filename} (hs : s.Inv Γ opens b visited)
    (hnodup : (visited ++ vs.map Visit.name).Nodup)
    (hwhole : ∀ before v after t i, vs = before ++ v :: after → execute (Rebuilt.step Γ opens P o) s before = some t →
      t.fs.inoOf v.name = some i → v.HashesRight Γ opens (t.fs.inodes i).data)
    (hrun : execute (Rebuilt.step Γ opens P o) s vs = some s') : s'.Inv Γ opens b (visited ++ vs.map Visit.name) := by
  induction vs generalizing s visited with
  | nil =>
    cases hrun
    rw [List.map_nil, List.append_nil]
    exact hs
  | cons v vs ih =>
    rw [execute, Option.bind_eq_some_iff] at hrun
    obtain ⟨t, hstep, hrest⟩ := hrun
    have hnew : v.name ∉ visited := by
      intro hmem
      exact List.disjoint_of_nodup_append hnodup hmem (by simp)
    have hfirst := hs.step hnew (fun i hi => hwhole [] v vs s i rfl rfl hi) hstep
    rw [List.map_cons, List.append_cons] at hnodup ⊢
    refine ih hfirst hnodup (fun before w after u i hsplit hbefore => ?_) hrest
    refine hwhole (v :: before) w after u i (by rw [hsplit]; rfl) ?_
    rw [execute, hstep]
    exact hbefore

/-- `checkfile` is called for `v` in the state `s`. -/
def Rebuilt.Calls (Γ : Config) (opens : Readers) (P : Process) (o : RebuildOptions) (b : Backing) (visits : List Visit) (s : Rebuilt)
    (v : Visit) : Prop :=
  ∃ before after, visits = before ++ v :: after ∧ execute (Rebuilt.step Γ opens P o) (Rebuilt.start b) before = some s

/-- The checker only comes to the table with the digest of a file, and at no time has a record a wrong digest or a file another
content than at the start. -/
structure HonestRun (Γ : Config) (opens : Readers) (P : Process) (o : RebuildOptions) (b : Backing) (visits : List Visit) : Prop where
  digests : ∀ s v i md5, Rebuilt.Calls Γ opens P o b visits s v → s.fs.inoOf v.name = some i →
    v.checkfile Γ opens (s.fs.inodes i).data = .digest md5 → RightDigest Γ opens (s.fs.inodes i).data md5
  honest : ∀ before after s, visits = before ++ after →
    execute (Rebuilt.step Γ opens P o) (Rebuilt.start b) before = some s → s.Honest Γ opens b

/-- The file of the table is not the file of a user. -/
theorem inv_start (hb : b.Closed) : (Rebuilt.start b).Inv Γ opens b [] := by
  have hkeeps := unlinkIf_keepsFiles b true (fusecompressPrefix ++ "dedup_db".toList)
  refine ⟨⟨fun dp hdp => absurd hdp (holds_dedupInitDb dp), fun _ q hq hex => ?_⟩, hkeeps.closed hb, valid_dedupInitDb,
    fun dp hdp => absurd hdp (holds_dedupInitDb dp)⟩
  have hne : q ≠ fusecompressPrefix ++ "dedup_db".toList := by
    rintro rfl
    revert hq
    decide
  have hfind := hkeeps.others q hq hne
  have hino : (Rebuilt.start b).fs.inoOf q = b.inoOf q := by
    unfold Backing.inoOf
    rw [← hfind]
    rfl
  exact ⟨hino ▸ hex, content_congr hfind (fun k hk => hkeeps.data k (hb _ _ hk))⟩

/-- A file is read byte by byte. -/
def Chunks.single (text : Bytes) : Chunks text where
  chunks := text.map (fun x => [x])
  failed := false
  chunk := by
    intro c hc
    obtain ⟨x, -, rfl⟩ := List.mem_map.mp hc
    exact ⟨List.cons_ne_nil _ _, by simp [moduleBufSize]⟩
  start := by
    rw [← List.flatMap_def, List.flatMap_singleton']
  all := fun _ => by rw [← List.flatMap_def, List.flatMap_singleton']

/-- No call fails when a stream is read. -/
def StreamCalls.fine : StreamCalls := { readHeader := true, openDecomp := true, cut := none }

/-- `checkfile` is called for a file, and no call fails but, if `opened` is false, the `open` of `dedup_hash_file`. `md5` holds what an
earlier call has left. -/
def Visit.of (name : Filename) (opened : Bool) (md5 : List UInt8) : Visit where
  name := name
  opened := true
  readMagic := true
  stream := .fine
  closed := true
  hash := { opened := opened, readMagic := true, stream := .fine, reads := Chunks.single }
  unlinked := true
  link := .fine
  compr := .unset
  size := 0
  md5 := md5

/-- Two files of one byte. -/
def Backing.twoFiles : Backing :=
  { Backing.setUid with
    inodes := fun i => ⟨[UInt8.ofNat i], { mode := 0o100644, uid := 0, gid := 0, atime := 0, mtime := 0 }⟩ }

theorem closed_twoFiles : Backing.twoFiles.Closed := fun q k hq => paired_setUid.exists_inode q k (Assoc.mem_of_find hq)

/-- A digest without collisions. -/
def Config.identity : Config := { Config.plain with md5 := fun text => text }

end FuseCompress
