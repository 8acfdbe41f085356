import FuseCompress.Theorems.Rebuild

/-!
# Deduplication by the checker

`fsck.fusecompress -r -l` on a tree of sound files, where no call fails. `offlineDedup_complete`: in the end two files are one inode
exactly when they have the same content, no name has another content than at the start, and the table has one record for each
content, of the file that was visited first.
-/

namespace FuseCompress

variable {Γ : Config} {opens : Readers} {P : Process} {s s' : Rebuilt} {v : Visit} {b b' : Backing} {f p q : Filename}
  {data text : Bytes} {md5 : List UInt8} {i j : Nat} {m : Module} {names : List Filename}

/-! ## What is deduplicated -/

/-- No call fails while `checkfile` runs. -/
structure Visit.AllOk (v : Visit) : Prop where
  opened : v.opened = true
  readMagic : v.readMagic = true
  stream : v.stream = { readHeader := true, openDecomp := true, cut := none }
  closed : v.closed = true
  hash : v.hash.opened = true
  reads : ∀ text, (v.hash.reads text).failed = false
  link : v.link.AllOk

/-- A sound file: raw, or with a header and a stream of as many bytes as the header says. -/
def Healthy (Γ : Config) (opens : Readers) (data : Bytes) : Prop :=
  data.take 3 = magic → ∃ m n rd, parse Γ data = some (m, ((n : Nat) : Int)) ∧ opens m (data.drop headerSize) = some rd ∧
    rd.sound = true ∧ rd.rest.length = n

/-- The name of a file of a user, and not of a temporary file. -/
structure Ordinary (p : Filename) : Prop where
  visible : isInternal p = false
  lasting : isStaleTemp p = false

/-- Of the files visited, the first with its content. -/
def FirstVisited (Γ : Config) (opens : Readers) (b : Backing) (names : List Filename) (p : Filename) : Prop :=
  ∃ before after, names = before ++ p :: after ∧ Ordinary p ∧
    ∀ q ∈ before, Ordinary q → b.content Γ opens q ≠ b.content Γ opens p

/-- A tree of sound files, none of which is visited yet. -/
structure Tree (Γ : Config) (opens : Readers) (P : Process) (b : Backing) (names : List Filename) : Prop where
  closed : b.Closed
  collisionFree : CollisionFree Γ opens b
  once : names.Nodup
  files : ∀ p ∈ names, Ordinary p → ∃ i, b.inoOf p = some i ∧ Healthy Γ opens (b.inodes i).data
  parents : ∀ p ∈ names, b.hasParent p = true
  noLinks : ∀ p, b.find (P.tmpname p) = none

/-- The files visited are deduplicated. -/
structure Deduplicated (Γ : Config) (opens : Readers) (b : Backing) (names : List Filename) (s : Rebuilt) : Prop where
  inodes : ∀ p ∈ names, ∀ q ∈ names, Ordinary p → Ordinary q →
    (s.fs.inoOf p = s.fs.inoOf q ↔ b.content Γ opens p = b.content Γ opens q)
  contents : ∀ q, isInternal q = false → s.fs.content Γ opens q = b.content Γ opens q
  valid : s.table.Valid
  records : ∀ dp, s.table.Holds dp → FirstVisited Γ opens b names dp.filename ∧
    ∃ c, b.content Γ opens dp.filename = some c ∧ dp.md5 = Γ.md5 c
  recorded : ∀ p, FirstVisited Γ opens b names p → ∃ dp, s.table.Holds dp ∧ dp.filename = p

/-! ## The digest of a sound file -/

theorem uncompressed_of_raw (h : data.take 3 ≠ magic) : uncompressed Γ opens data = some data := by
  unfold uncompressed
  rw [parse_eq_none_of_raw h]

/-- `checkfile` comes to the table with a sound file. -/
theorem Healthy.checkfile (h : Healthy Γ opens data) (hok : v.AllOk) (hv : Ordinary v.name) :
    ∃ c, uncompressed Γ opens data = some c ∧ v.checkfile Γ opens data = .digest (Γ.md5 c) := by
  have hname : ¬fusecompressPrefix.isPrefixOf (basename v.name) = true := Bool.eq_false_iff.mp hv.visible
  unfold Visit.checkfile
  rw [if_neg (by simp [hok.opened]), if_neg (by simp [hv.lasting]), if_neg hname, if_neg (by simp [hok.readMagic])]
  by_cases hmagic : data.take 3 = magic
  · obtain ⟨m, n, rd, hparse, hopen, hsound, hlength⟩ := h hmagic
    have hlong : ¬data.length < headerSize := by
      intro hshort
      rw [parse, if_pos hshort] at hparse
      cases hparse
    have hheader : checkHeader Γ data v.compr v.size = (.to m, (n : Int)) := by
      unfold checkHeader
      rw [if_neg hlong, fileReadHeader_of_parse hparse]
    have hstream : v.stream.open opens m (data.drop headerSize) = some rd := by
      rw [hok.stream, StreamCalls.open, if_pos rfl, hopen]
      rfl
    have hle : n ≤ rd.rest.length := by omega
    have hloop := rebuildLoop_natCast hle []
    refine ⟨rd.rest.take n, ?_, ?_⟩
    · unfold uncompressed
      rw [hparse]
      dsimp only
      rw [hopen, Option.bind_some, if_pos ⟨Int.natCast_nonneg n, by rw [Int.toNat_natCast, hlength]⟩, Int.toNat_natCast]
    · rw [if_pos hmagic]
      unfold Visit.checkCompressed
      rw [hok.stream] at hstream ⊢
      rw [if_neg (by simp), hheader]
      dsimp only
      rw [hstream]
      dsimp only
      rw [hloop]
      dsimp only
      rw [if_pos hok.closed, List.nil_append]
  · refine ⟨data, uncompressed_of_raw hmagic, ?_⟩
    rw [if_neg hmagic, dedupHashFile_raw hmagic, hok.hash, if_pos rfl, (v.hash.reads data).all (hok.reads data)]

/-! ## The first file with a content -/

theorem firstVisited_snoc :
    FirstVisited Γ opens b (names ++ [f]) p ↔
      FirstVisited Γ opens b names p ∨
        p = f ∧ Ordinary f ∧ ∀ q ∈ names, Ordinary q → b.content Γ opens q ≠ b.content Γ opens f := by
  constructor
  · rintro ⟨before, after, hsplit, hp, hfirst⟩
    rcases List.eq_nil_or_concat after with rfl | ⟨after', g, rfl⟩
    · obtain ⟨rfl, hpf⟩ := List.append_inj' hsplit rfl
      cases hpf
      exact Or.inr ⟨rfl, hp, hfirst⟩
    · left
      rw [List.concat_eq_append, ← List.cons_append, ← List.append_assoc] at hsplit
      obtain ⟨rfl, -⟩ := List.append_inj' hsplit rfl
      exact ⟨before, after', rfl, hp, hfirst⟩
  · rintro (⟨before, after, rfl, hp, hfirst⟩ | ⟨rfl, hp, hfirst⟩)
    · exact ⟨before, after ++ [f], by simp, hp, hfirst⟩
    · exact ⟨names, [], rfl, hp, hfirst⟩

theorem FirstVisited.mem (h : FirstVisited Γ opens b names p) : p ∈ names := by
  obtain ⟨before, after, rfl, -⟩ := h
  simp

theorem FirstVisited.ordinary (h : FirstVisited Γ opens b names p) : Ordinary p := by
  obtain ⟨before, after, -, hp, -⟩ := h
  exact hp

/-! ## The names while links are made -/

/-- No directory is gone, and no temporary link is left. -/
structure Backing.KeepsTree (P : Process) (b b' : Backing) : Prop where
  dirs : ∀ d, b.find d = some .dir → b'.find d = some .dir
  noLinks : (∀ p, b.find (P.tmpname p) = none) → ∀ p, b'.find (P.tmpname p) = none

/-- `hardlink_file` links a file to the file of a record, and leaves no temporary link. -/
theorem hardlinkFile_keepsTree {c : LinkCalls} {h : DedupHash} {dp : DedupT} (hl : P.Links c h b md5 f dp j)
    (hok : c.unlinkTmp = true) (hf : isInternal f = false) (hi : b.inoOf f = some i) :
    b.KeepsTree P (P.hardlinkFile c h b md5 f).2.1 := by
  have hbeside := keepAttr_beside P c (b.setName (P.tmpname f) j) f
  obtain ⟨b', hb', hrelinked⟩ := hardlinkFile_of_links hl hf hi
  rw [hb']
  generalize P.keepAttr c (b.setName (P.tmpname f) j) f = b₂ at hbeside hrelinked
  constructor
  · intro d hd
    have htmp : d ≠ P.tmpname f := by
      rintro rfl
      rw [hl.free] at hd
      cases hd
    have hdf : d ≠ f := by
      rintro rfl
      rw [Backing.inoOf_eq_some.mp hi] at hd
      cases hd
    rw [hrelinked.find d htmp, if_neg (fun h => hdf h.1)]
    by_cases hattr : d = fuseattrName f
    · subst hattr
      apply hbeside.dir
      rw [Backing.find_setName, if_neg htmp, hd]
    · rw [hbeside.find d hattr, Backing.find_setName, if_neg htmp, hd]
  · intro hnone p
    by_cases htmp : P.tmpname p = P.tmpname f
    · rw [htmp]
      exact hrelinked.gone hok
    · have hpf : P.tmpname p ≠ f := Ne.symm (ne_tmpname hf P p)
      rw [hrelinked.find _ htmp, if_neg (fun h => hpf h.1), hbeside.find _ (tmpname_ne_fuseattrName P p f), Backing.find_setName,
        if_neg htmp]
      exact hnone p

/-! ## The run -/

/-- The invariant, when the files in `visited` have been visited. -/
structure Rebuilt.Linked (Γ : Config) (opens : Readers) (P : Process) (b : Backing) (visited : List Filename) (s : Rebuilt) : Prop
    extends s.Inv Γ opens b visited where
  untouched : ∀ q, isInternal q = false → q ∉ visited → s.fs.find q = b.find q
  data : ∀ k, k < b.next → (s.fs.inodes k).data = (b.inodes k).data
  next : b.next ≤ s.fs.next
  exist : ∀ q, isInternal q = false → b.inoOf q ≠ none → s.fs.inoOf q ≠ none
  dirs : ∀ d, b.find d = some .dir → s.fs.find d = some .dir
  noLinks : ∀ p, s.fs.find (P.tmpname p) = none
  joined : ∀ p ∈ visited, Ordinary p →
    ∃ dp, s.table.Holds dp ∧ s.fs.inoOf p = s.fs.inoOf dp.filename ∧ b.content Γ opens dp.filename = b.content Γ opens p
  first : ∀ dp, s.table.Holds dp → FirstVisited Γ opens b visited dp.filename
  recorded : ∀ p, FirstVisited Γ opens b visited p → ∃ dp, s.table.Holds dp ∧ dp.filename = p

section Step

variable {visited : List Filename}

/-- A file that is passed over. -/
theorem Rebuilt.Linked.skip (hs : s.Linked Γ opens P b visited) (hf : ¬Ordinary f) : s.Linked Γ opens P b (visited ++ [f]) where
  toInv := hs.toInv.mono f
  untouched := fun q hq hnew => hs.untouched q hq (fun h => hnew (List.mem_append_left _ h))
  data := hs.data
  next := hs.next
  exist := hs.exist
  dirs := hs.dirs
  noLinks := hs.noLinks
  joined := by
    intro p hp hord
    rcases List.mem_append.mp hp with hp | hp
    · exact hs.joined p hp hord
    · rw [List.mem_singleton] at hp
      subst hp
      exact absurd hord hf
  first := fun dp hdp => firstVisited_snoc.mpr (Or.inl (hs.first dp hdp))
  recorded := by
    intro p hp
    rcases firstVisited_snoc.mp hp with hp | ⟨-, hord, -⟩
    · exact hs.recorded p hp
    · exact absurd hord hf

/-- A file that was not visited has the content it had at the start. -/
theorem Rebuilt.Linked.content (hs : s.Linked Γ opens P b visited) (hb : b.Closed) (hf : isInternal f = false) (hnew : f ∉ visited) :
    s.fs.content Γ opens f = b.content Γ opens f :=
  content_congr (hs.untouched f hf hnew) (fun k hk => hs.data k (hb _ _ hk))

theorem inoOf_ne_none_of_content (h : b.content Γ opens q = some text) : b.inoOf q ≠ none := by
  intro hnone
  rw [Backing.content, hnone] at h
  cases h

/-- A record has the digest of the content that its file had at the start. -/
theorem Rebuilt.Inv.record_content (hs : s.Inv Γ opens b visited) (hfree : CollisionFree Γ opens b) {dp : DedupT}
    (hdp : s.table.Holds dp) : ∃ c, b.content Γ opens dp.filename = some c ∧ dp.md5 = Γ.md5 c := by
  obtain ⟨c, hcontent, hmd5⟩ := hs.records dp hdp
  have hsame := (hs.contents hfree dp.filename (hs.known dp hdp).2 (inoOf_ne_none_of_content hcontent)).2
  exact ⟨c, hsame.symm.trans hcontent, hmd5⟩

/-- The first file with its content gets a record. -/
theorem Rebuilt.Linked.add (hs : s.Linked Γ opens P b visited) (hb : b.Closed) (hfree : CollisionFree Γ opens b)
    (hnew : f ∉ visited) (hf : Ordinary f)
    (hc : b.content Γ opens f = some text) (hnone : s.table.findMd5 (Γ.md5 text) = none) :
    Rebuilt.Linked Γ opens P b (visited ++ [f]) { s with table := s.table.add (Γ.md5 text) f } where
  toInv := hs.toInv.add hnew hf.visible ((hs.content hb hf.visible hnew).trans hc) rfl hnone
  untouched := fun q hq hnot => hs.untouched q hq (fun h => hnot (List.mem_append_left _ h))
  data := hs.data
  next := hs.next
  exist := hs.exist
  dirs := hs.dirs
  noLinks := hs.noLinks
  joined := by
    intro p hp hord
    rcases List.mem_append.mp hp with hp | hp
    · obtain ⟨dp, hdp, hrest⟩ := hs.joined p hp hord
      exact ⟨dp, holds_insert.mpr (Or.inl hdp), hrest⟩
    · rw [List.mem_singleton] at hp
      subst hp
      exact ⟨_, holds_insert.mpr (Or.inr rfl), rfl, rfl⟩
  first := by
    intro dp hdp
    rw [DedupHash.add_eq, holds_insert] at hdp
    rcases hdp with hdp | rfl
    · exact firstVisited_snoc.mpr (Or.inl (hs.first dp hdp))
    · refine firstVisited_snoc.mpr (Or.inr ⟨rfl, hf, fun q hq hord heq => ?_⟩)
      -- a file visited before with the same content would have a record with the digest
      obtain ⟨dp, hdp, -, hsame⟩ := hs.joined q hq hord
      obtain ⟨c, hcontent, hmd5⟩ := hs.record_content hfree hdp
      rw [hsame, heq, hc] at hcontent
      cases hcontent
      exact hs.valid.findMd5_none hnone dp hdp hmd5
  recorded := by
    intro p hp
    rcases firstVisited_snoc.mp hp with hp | ⟨rfl, -, -⟩
    · obtain ⟨dp, hdp, hname⟩ := hs.recorded p hp
      exact ⟨dp, holds_insert.mpr (Or.inl hdp), hname⟩
    · exact ⟨_, holds_insert.mpr (Or.inr rfl), rfl⟩

/-- The directory of a temporary link is the one of the file. -/
theorem hasParent_tmpname (hparent : b.hasParent f = true) (hdirs : ∀ d, b.find d = some .dir → b'.find d = some .dir) :
    b'.hasParent (P.tmpname f) = true := by
  unfold Backing.hasParent at hparent ⊢
  rw [dirname_tmpname]
  cases hd : dirname f with
  | none => rfl
  | some d =>
    rw [hd] at hparent
    dsimp only at hparent ⊢
    rw [decide_eq_true_eq] at hparent ⊢
    exact hdirs d hparent

/-- A file with the content of a record is linked to the file of the record. -/
theorem Rebuilt.Linked.link {c : LinkCalls} {dp : DedupT} (hs : s.Linked Γ opens P b visited) (hb : b.Closed)
    (hfree : CollisionFree Γ opens b) (hnew : f ∉ visited) (hf : Ordinary f) (hc : b.content Γ opens f = some text)
    (hok : c.AllOk) (hparent : b.hasParent f = true) (hrecord : s.table.findMd5 (Γ.md5 text) = some dp) :
    ∃ b', (P.hardlinkFile c s.table s.fs (Γ.md5 text) f) = (s.table, b', some dp.filename) ∧
      Rebuilt.Linked Γ opens P b (visited ++ [f]) { s with fs := b' } := by
  obtain ⟨hholds, hmd5⟩ := hs.valid.findMd5_some hrecord
  obtain ⟨hmem, hvisible⟩ := hs.known dp hholds
  obtain ⟨cdp, hcdp, hdigest⟩ := hs.record_content hfree hholds
  have hsame : b.content Γ opens dp.filename = b.content Γ opens f := by
    rw [hcdp, hc, hfree _ _ cdp text hvisible hf.visible hcdp hc (hdigest.symm.trans hmd5)]
  obtain ⟨j, hj⟩ := Option.ne_none_iff_exists'.mp (hs.exist _ hvisible (inoOf_ne_none_of_content hcdp))
  obtain ⟨i, hi⟩ := Option.ne_none_iff_exists'.mp (hs.exist f hf.visible (inoOf_ne_none_of_content hc))
  have hne : f ≠ dp.filename := fun h => hnew (h ▸ hmem)
  have hl : P.Links c s.table s.fs (Γ.md5 text) f dp j :=
    ⟨hrecord, hne, hok.link, hj, hs.noLinks f, hasParent_tmpname hparent hs.dirs⟩
  have hright : RightDigest Γ opens (s.fs.inodes i).data (Γ.md5 text) := by
    refine ⟨text, ?_, rfl⟩
    rw [← content_of_inoOf hi, hs.content hb hf.visible hnew, hc]
  have hinv := hs.toInv.link hnew hf.visible hi hright hl
  have htree := hardlinkFile_keepsTree hl hok.unlinkTmp hf.visible hi
  obtain ⟨b', hb', hkeeps, hino⟩ := hardlinkFile_keepsFiles hl hf.visible hi
  rw [hok.rename, if_pos rfl] at hb'
  rw [hok.rename, if_pos rfl] at hino
  rw [hb'] at hinv htree
  have hothers : ∀ q, isInternal q = false → q ≠ f → b'.inoOf q = s.fs.inoOf q := by
    intro q hq hqf
    unfold Backing.inoOf
    rw [hkeeps.others q hq hqf]
  refine ⟨b', hb', hinv.mono f, ?_, ?_, hs.next.trans hkeeps.next, ?_, ?_, htree.noLinks hs.noLinks, ?_, ?_, ?_⟩
  · intro q hq hnot
    have hqf : q ≠ f := fun h => hnot (by simp [h])
    rw [hkeeps.others q hq hqf]
    exact hs.untouched q hq (fun h => hnot (List.mem_append_left _ h))
  · intro k hk
    rw [hkeeps.data k (Nat.lt_of_lt_of_le hk hs.next)]
    exact hs.data k hk
  · intro q hq hex
    by_cases hqf : q = f
    · rw [hqf]
      exact inoOf_ne_none hino
    · rw [hothers q hq hqf]
      exact hs.exist q hq hex
  · intro d hd
    exact htree.dirs d (hs.dirs d hd)
  · intro p hp hord
    rcases List.mem_append.mp hp with hp | hp
    · obtain ⟨dp', hdp', hlinked, hrest⟩ := hs.joined p hp hord
      obtain ⟨hmem', hvisible'⟩ := hs.known dp' hdp'
      refine ⟨dp', hdp', ?_, hrest⟩
      rw [hothers p hord.visible (fun h => hnew (h ▸ hp)), hothers _ hvisible' (fun h => hnew (h ▸ hmem'))]
      exact hlinked
    · rw [List.mem_singleton] at hp
      subst hp
      exact ⟨dp, hholds, by rw [hino, hothers _ hvisible (Ne.symm hne), hj], hsame⟩
  · intro dp' hdp'
    exact firstVisited_snoc.mpr (Or.inl (hs.first dp' hdp'))
  · intro p hp
    rcases firstVisited_snoc.mp hp with hp | ⟨-, -, hfirst⟩
    · exact hs.recorded p hp
    · exact absurd hsame (hfirst _ hmem (hs.first dp hholds).ordinary)

/-- `checkfile` is called for one file of the tree. -/
theorem Rebuilt.Linked.step {o : RebuildOptions} (ho : o = ⟨false, true⟩) (hs : s.Linked Γ opens P b visited) (hb : b.Closed)
    (hfree : CollisionFree Γ opens b) (hnew : v.name ∉ visited) (hok : v.AllOk) (hparent : b.hasParent v.name = true)
    (hfile : Ordinary v.name → ∃ i, b.inoOf v.name = some i ∧ Healthy Γ opens (b.inodes i).data) :
    ∃ s', s.step Γ opens P o v = some s' ∧ s'.Linked Γ opens P b (visited ++ [v.name]) := by
  subst ho
  unfold Rebuilt.step
  by_cases hord : Ordinary v.name
  · obtain ⟨i, hi, hhealthy⟩ := hfile hord
    have hfind := hs.untouched v.name hord.visible hnew
    have hi' : s.fs.inoOf v.name = some i := by
      rw [Backing.inoOf_eq_some, hfind, Backing.inoOf_eq_some.mp hi]
    have hdata := hs.data i (hb _ _ (Backing.inoOf_eq_some.mp hi))
    obtain ⟨text, htext, hchecked⟩ := hhealthy.checkfile hok hord
    have hc : b.content Γ opens v.name = some text := by rw [content_of_inoOf hi, htext]
    rw [hi']
    dsimp only
    rw [hdata, hchecked]
    refine ⟨_, rfl, ?_⟩
    unfold Rebuilt.record
    rw [if_pos rfl]
    cases hrecord : s.table.findMd5 (Γ.md5 text) with
    | none =>
      have hno : ∀ dp j, ¬P.Links v.link s.table s.fs (Γ.md5 text) v.name dp j := by
        intro dp j hl
        have hsome := hl.record
        rw [hrecord] at hsome
        cases hsome
      rw [hardlinkFile_of_not_links hno, if_pos hrecord]
      exact hs.add hb hfree hnew hord hc hrecord
    | some dp =>
      obtain ⟨b', hb', hlinked⟩ := hs.link hb hfree hnew hord hc hok.link hparent hrecord
      rw [hb']
      exact hlinked
  · -- `checkfile` returns before it comes to the table
    have hskip := hs.skip hord
    cases hi : s.fs.inoOf v.name with
    | none => exact ⟨s, rfl, hskip⟩
    | some i =>
      dsimp only
      have hchecked : v.checkfile Γ opens (s.fs.inodes i).data = .broken ∨ v.checkfile Γ opens (s.fs.inodes i).data = .kept := by
        unfold Visit.checkfile
        rw [if_neg (by simp [hok.opened])]
        cases htemp : isStaleTemp v.name with
        | true => exact Or.inl (if_pos rfl)
        | false =>
          right
          rw [if_neg (by simp)]
          have hinternal : fusecompressPrefix.isPrefixOf (basename v.name) = true := by
            by_contra hvisible
            exact hord ⟨Bool.eq_false_iff.mpr hvisible, htemp⟩
          rw [if_pos hinternal]
      rcases hchecked with hchecked | hchecked
      · rw [hchecked]
        exact ⟨s, rfl, hskip⟩
      · rw [hchecked]
        exact ⟨s, rfl, hskip⟩

end Step

/-- What the calls of `checkfile` keep while they go through the tree. -/
theorem Rebuilt.Linked.run {visits : List Visit} {visited : List Filename} (hs : s.Linked Γ opens P b visited)
    (hb : b.Closed) (hfree : CollisionFree Γ opens b) (hnodup : (visited ++ visits.map Visit.name).Nodup)
    (hok : ∀ v ∈ visits, v.AllOk) (hparents : ∀ v ∈ visits, b.hasParent v.name = true)
    (hfiles : ∀ v ∈ visits, Ordinary v.name → ∃ i, b.inoOf v.name = some i ∧ Healthy Γ opens (b.inodes i).data) :
    ∃ s', execute (Rebuilt.step Γ opens P ⟨false, true⟩) s visits = some s' ∧
      s'.Linked Γ opens P b (visited ++ visits.map Visit.name) := by
  induction visits generalizing s visited with
  | nil =>
    refine ⟨s, rfl, ?_⟩
    rw [List.map_nil, List.append_nil]
    exact hs
  | cons v visits ih =>
    have hnew : v.name ∉ visited := by
      intro hmem
      exact List.disjoint_of_nodup_append hnodup hmem (by simp)
    obtain ⟨t, hstep, ht⟩ := hs.step rfl hb hfree hnew (hok v List.mem_cons_self) (hparents v List.mem_cons_self)
      (hfiles v List.mem_cons_self)
    rw [List.map_cons, List.append_cons] at hnodup ⊢
    obtain ⟨s', hrest, hs'⟩ := ih ht hnodup (fun w hw => hok w (List.mem_cons_of_mem _ hw))
      (fun w hw => hparents w (List.mem_cons_of_mem _ hw)) (fun w hw => hfiles w (List.mem_cons_of_mem _ hw))
    refine ⟨s', ?_, hs'⟩
    rw [execute, hstep]
    exact hrest

/-- The file of the table is the only name that is removed at the start. -/
theorem find_start (b : Backing) (q : Filename) :
    (Rebuilt.start b).fs.find q = b.find q ∨ (Rebuilt.start b).fs.find q = none ∧ ∃ k, b.find q = some (.reg k) := by
  unfold Rebuilt.start Backing.unlinkIf
  rw [if_pos rfl]
  unfold Backing.unlink
  split
  · rename_i k hk
    rw [Option.getD_some, Backing.find_dropName]
    split
    · rename_i hq
      exact Or.inr ⟨rfl, k, hq ▸ hk⟩
    · exact Or.inl rfl
  · exact Or.inl rfl

theorem linked_start (hb : b.Closed) (hno : ∀ p, b.find (P.tmpname p) = none) :
    (Rebuilt.start b).Linked Γ opens P b [] := by
  have hkeeps := unlinkIf_keepsFiles b true (fusecompressPrefix ++ "dedup_db".toList)
  have huntouched : ∀ q, isInternal q = false → (Rebuilt.start b).fs.find q = b.find q := by
    intro q hq
    refine hkeeps.others q hq ?_
    rintro rfl
    revert hq
    decide
  refine ⟨inv_start hb, fun q hq _ => huntouched q hq, hkeeps.data, hkeeps.next, fun q hq hex => ?_, fun d hd => ?_,
    fun p => ?_, (fun _ hp => by cases hp), fun dp hdp => absurd hdp (holds_dedupInitDb dp), fun p hp => ?_⟩
  · unfold Backing.inoOf at hex ⊢
    rw [huntouched q hq]
    exact hex
  · rcases find_start b d with hsame | ⟨-, k, hk⟩
    · rw [hsame, hd]
    · rw [hd] at hk
      cases hk
  · rcases find_start b (P.tmpname p) with hsame | ⟨hnone, -⟩
    · rw [hsame, hno]
    · exact hnone
  · exact absurd hp.mem List.not_mem_nil

/-- Once all files have been visited, they are deduplicated. -/
theorem Rebuilt.Linked.deduplicated (hs : s.Linked Γ opens P b names) (hfree : CollisionFree Γ opens b)
    (hfiles : ∀ p ∈ names, Ordinary p → ∃ i, b.inoOf p = some i ∧ Healthy Γ opens (b.inodes i).data) :
    Deduplicated Γ opens b names s where
  inodes := by
    intro p hp q hq hpo hqo
    constructor
    · intro hino
      obtain ⟨i, hi, -⟩ := hfiles p hp hpo
      obtain ⟨k, hk, -⟩ := hfiles q hq hqo
      have hsp := (hs.contents hfree p hpo.visible (hs.exist p hpo.visible (inoOf_ne_none hi))).2
      have hsq := (hs.contents hfree q hqo.visible (hs.exist q hqo.visible (inoOf_ne_none hk))).2
      rw [← hsp, ← hsq, Backing.content, Backing.content, hino]
    · intro hcontent
      obtain ⟨dp, hdp, hp', hsame⟩ := hs.joined p hp hpo
      obtain ⟨dq, hdq, hq', hsame'⟩ := hs.joined q hq hqo
      obtain ⟨c, hc, hmd5⟩ := hs.record_content hfree hdp
      obtain ⟨c', hc', hmd5'⟩ := hs.record_content hfree hdq
      rw [hsame, hcontent, ← hsame', hc'] at hc
      cases hc
      rw [hp', hq', hs.valid.md5 dp dq hdp hdq (hmd5.trans hmd5'.symm)]
  contents := by
    intro q hq
    by_cases hex : b.inoOf q = none
    · by_cases hex' : s.fs.inoOf q = none
      · rw [Backing.content, Backing.content, hex, hex']
        rfl
      · exact (hs.contents hfree q hq hex').2
    · exact (hs.contents hfree q hq (hs.exist q hq hex)).2
  valid := hs.valid
  records := fun dp hdp => ⟨hs.first dp hdp, hs.record_content hfree hdp⟩
  recorded := hs.recorded

/-- The checker deduplicates a tree of sound files. -/
theorem offlineDedup_complete {visits : List Visit} (ht : Tree Γ opens P b (visits.map Visit.name)) (hok : ∀ v ∈ visits, v.AllOk) :
    ∃ s, execute (Rebuilt.step Γ opens P ⟨false, true⟩) (Rebuilt.start b) visits = some s ∧
      Deduplicated Γ opens b (visits.map Visit.name) s := by
  have hstart : (Rebuilt.start b).Linked Γ opens P b [] := linked_start ht.closed ht.noLinks
  obtain ⟨s, hrun, hs⟩ := hstart.run ht.closed ht.collisionFree ht.once hok
    (fun v hv => ht.parents _ (List.mem_map_of_mem hv)) (fun v hv => ht.files _ (List.mem_map_of_mem hv))
  rw [List.nil_append] at hs
  exact ⟨s, hrun, hs.deduplicated ht.collisionFree ht.files⟩

/-! ## Four names -/

theorem linkCalls_fine_allOk : LinkCalls.fine.AllOk := ⟨rfl, rfl, rfl, rfl, rfl, rfl, rfl, rfl, rfl, rfl, rfl⟩

theorem visit_of_allOk (name : Filename) (md5 : List UInt8) : (Visit.of name true md5).AllOk :=
  ⟨rfl, rfl, rfl, rfl, rfl, fun _ => rfl, linkCalls_fine_allOk⟩

/-- `a` is raw. `b` has the same content compressed by `null`, and `c` is a second name of its file. `d` is another file. -/
def Backing.fourNames : Backing :=
  { Backing.empty with
    names := [(['a'], .reg 0), (['b'], .reg 1), (['c'], .reg 1), (['d'], .reg 2)]
    inodes := fun i => ⟨[[7], header .null 1 ++ [7], [9]].getD i [], { mode := 0o100644, uid := 0, gid := 0, atime := 0, mtime := 0 }⟩
    next := 3 }

/-- The stream of `null` is the content. -/
def nullStreams : Readers := fun m stream => if m = .null then some { rest := stream, sound := true } else none

theorem closed_fourNames : Backing.fourNames.Closed := by
  intro q k hq
  have hmem := Assoc.mem_of_find hq
  simp only [Backing.fourNames, List.mem_cons, Prod.mk.injEq, Node.reg.injEq, List.not_mem_nil, or_false] at hmem
  obtain ⟨-, rfl⟩ | ⟨-, rfl⟩ | ⟨-, rfl⟩ | ⟨-, rfl⟩ := hmem <;> decide

theorem tree_fourNames : Tree .identity nullStreams .root .fourNames [['a'], ['b'], ['c'], ['d']] where
  closed := closed_fourNames
  collisionFree := fun _ _ _ _ _ _ _ _ h => h
  once := by decide
  files := by
    intro p hp _
    have hsound : Healthy .identity nullStreams (header .null 1 ++ [7]) :=
      fun _ => ⟨.null, 1, { rest := [7], sound := true }, by decide, by decide, rfl, rfl⟩
    simp only [List.mem_cons, List.not_mem_nil, or_false] at hp
    rcases hp with rfl | rfl | rfl | rfl
    · exact ⟨0, by decide, fun h => absurd h (by decide)⟩
    · exact ⟨1, by decide, hsound⟩
    · exact ⟨1, by decide, hsound⟩
    · exact ⟨2, by decide, fun h => absurd h (by decide)⟩
  parents := by decide
  noLinks := by
    intro p
    have ha : ['a'] ≠ Process.root.tmpname p := ne_tmpname (by decide) _ p
    have hb : ['b'] ≠ Process.root.tmpname p := ne_tmpname (by decide) _ p
    have hc : ['c'] ≠ Process.root.tmpname p := ne_tmpname (by decide) _ p
    have hd : ['d'] ≠ Process.root.tmpname p := ne_tmpname (by decide) _ p
    simp [Backing.find, Backing.fourNames, Assoc.find_cons, ha, hb, hc, hd]

/-- The raw file and the two names of the compressed one are one file in the end. -/
theorem offlineDedup_complete_fourNames :
    ∃ s, execute (Rebuilt.step .identity nullStreams .root ⟨false, true⟩) (Rebuilt.start .fourNames)
        ([['a'], ['b'], ['c'], ['d']].map (fun p => Visit.of p true [])) = some s ∧
      Deduplicated .identity nullStreams .fourNames [['a'], ['b'], ['c'], ['d']] s ∧
      s.fs.inoOf ['a'] = s.fs.inoOf ['b'] ∧ s.fs.inoOf ['b'] = s.fs.inoOf ['c'] ∧ s.fs.inoOf ['a'] ≠ s.fs.inoOf ['d'] := by
  obtain ⟨s, hrun, hs⟩ : ∃ s, execute (Rebuilt.step .identity nullStreams .root ⟨false, true⟩) (Rebuilt.start .fourNames)
      ([['a'], ['b'], ['c'], ['d']].map (fun p => Visit.of p true [])) = some s ∧
        Deduplicated .identity nullStreams .fourNames [['a'], ['b'], ['c'], ['d']] s :=
    offlineDedup_complete tree_fourNames (by
      intro v hv
      obtain ⟨p, -, rfl⟩ := List.mem_map.mp hv
      exact visit_of_allOk p [])
  refine ⟨s, hrun, hs, ?_, ?_, ?_⟩
  · exact (hs.inodes _ (by decide) _ (by decide) ⟨rfl, rfl⟩ ⟨rfl, rfl⟩).mpr (by decide +kernel)
  · exact (hs.inodes _ (by decide) _ (by decide) ⟨rfl, rfl⟩ ⟨rfl, rfl⟩).mpr (by decide +kernel)
  · exact (hs.inodes _ (by decide) _ (by decide) ⟨rfl, rfl⟩ ⟨rfl, rfl⟩).not.mpr (by decide +kernel)
end FuseCompress
