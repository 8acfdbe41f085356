import FuseCompress.HardlinkFile
import FuseCompress.Theorems.Undedup

/-!
# Linking a file leaves its attributes alone

`hardlink_file` replaces a file by a link to another inode, and keeps what the other inode has not got in an attribute file. It
decides about that file before it renames the link, and looks at no result. `hardlinkFile_unnoticed_iff`: whatever the calls come to,
the attributes of the names are those from before exactly when `KeepsAttr` holds of the file.
-/

namespace FuseCompress

variable {Γ : Config} {P : Process} {c : LinkCalls} {h : DedupHash} {b b' : Backing} {md5 : List UInt8} {f q : Filename} {i j : Nat}

/-! ## The temporary link -/

theorem slash_notMem_tmp (P : Process) (f : Filename) :
    '/' ∉ fusecompressPrefix ++ "t_".toList ++ basename f ++ ['.'] ++ P.pid := by
  intro h
  rcases List.mem_append.mp h with h | h
  · rcases List.mem_append.mp h with h | h
    · rcases List.mem_append.mp h with h | h
      · exact absurd h (by decide)
      · exact slash_notMem_basename f h
    · exact absurd h (by decide)
  · exact P.digits h

theorem basename_tmpname (P : Process) (f : Filename) :
    basename (P.tmpname f) = fusecompressPrefix ++ "t_".toList ++ basename f ++ ['.'] ++ P.pid := by
  unfold Process.tmpname
  cases dirname f with
  | none => exact basename_of_notMem (slash_notMem_tmp P f)
  | some d =>
    dsimp only
    rw [List.append_assoc d, List.singleton_append]
    exact basename_append (slash_notMem_tmp P f)

theorem dirname_tmpname (P : Process) (f : Filename) : dirname (P.tmpname f) = dirname f := by
  unfold Process.tmpname
  cases dirname f with
  | none => exact dirname_of_notMem (slash_notMem_tmp P f)
  | some d =>
    dsimp only
    rw [List.append_assoc d, List.singleton_append]
    exact dirname_append (slash_notMem_tmp P f)

/-- The name of the temporary link is internal. -/
theorem isInternal_tmpname (P : Process) (f : Filename) : isInternal (P.tmpname f) = true := by
  rw [isInternal, basename_tmpname, List.isPrefixOf_iff_prefix, List.append_assoc, List.append_assoc, List.append_assoc]
  exact List.prefix_append _ _

/-- It is not the name of an attribute file. -/
theorem tmpname_ne_fuseattrName (P : Process) (f q : Filename) : P.tmpname f ≠ fuseattrName q := by
  intro h
  have hb := congrArg basename h
  rw [basename_tmpname, basename_fuseattrName, List.append_assoc, List.append_assoc, List.append_assoc, List.append_assoc,
    List.append_cancel_left_eq] at hb
  simp at hb

theorem ne_tmpname (hq : isInternal q = false) (P : Process) (f : Filename) : q ≠ P.tmpname f := by
  rintro rfl
  rw [isInternal_tmpname] at hq
  cases hq

/-! ## The attribute file -/

/-- Nothing has changed but the attribute file of `f`, and no contents. -/
structure Backing.BesideAttr (b b' : Backing) (f : Filename) : Prop where
  find : ∀ q, q ≠ fuseattrName f → b'.find q = b.find q
  inodes : ∀ k, k < b.next → b.inoOf (fuseattrName f) ≠ some k → b'.inodes k = b.inodes k
  data : ∀ k, k < b.next → (b'.inodes k).data = (b.inodes k).data
  next : b.next ≤ b'.next
  attr : ∀ k, b'.find (fuseattrName f) = some (.reg k) → b.find (fuseattrName f) = some (.reg k) ∨ k < b'.next
  dir : b.find (fuseattrName f) = some .dir → b'.find (fuseattrName f) = some .dir

theorem Backing.BesideAttr.refl (b : Backing) (f : Filename) : b.BesideAttr b f :=
  ⟨fun _ _ => rfl, fun _ _ _ => rfl, fun _ _ => rfl, Nat.le_refl _, fun _ h => Or.inl h, fun h => h⟩

theorem unlinkIf_beside (b : Backing) (ok : Bool) (f : Filename) : b.BesideAttr (b.unlinkIf ok (fuseattrName f)) f := by
  unfold Backing.unlinkIf
  split
  · unfold Backing.unlink
    split
    · rename_i k hk
      refine ⟨fun q hq => ?_, fun _ _ _ => rfl, fun _ _ => rfl, Nat.le_refl _, fun l hl => ?_, fun hdir => ?_⟩
      · rw [Option.getD_some, Backing.find_dropName, if_neg hq]
      · rw [Option.getD_some, Backing.find_dropName, if_pos rfl] at hl
        cases hl
      · rw [hk] at hdir
        cases hdir
    · exact Backing.BesideAttr.refl b f
  · exact Backing.BesideAttr.refl b f

/-- `create_attr`, by what there is of the name before. -/
theorem createAttr_eq (o : Creator) (c : AttrCalls) (b : Backing) (full : Filename) (st : Attr) :
    createAttr o c b full st =
      if c.openAttr = false then b
      else
        match b.find full with
        | some .dir => b
        | some (.reg i) => b.setAttr i (c.given st (b.inodes i).attr)
        | none => (b.alloc [] (c.given st (o.attr b.clock st.mode))).setName full b.next := by
  unfold createAttr createOpen
  split_ifs
  · rfl
  · cases b.find full with
    | none => simp [Backing.setAttr, Backing.alloc, Backing.setName]
    | some n => cases n <;> rfl

theorem createAttr_beside (o : Creator) (c : AttrCalls) (b : Backing) (f : Filename) (st : Attr) :
    b.BesideAttr (createAttr o c b (fuseattrName f) st) f := by
  rw [createAttr_eq]
  split
  · exact Backing.BesideAttr.refl b f
  · split
    · exact Backing.BesideAttr.refl b f
    · rename_i k hk
      refine ⟨fun _ _ => rfl, fun l _ hl => ?_, fun l _ => Backing.data_setAttr b k l _, Nat.le_refl _, fun _ h => Or.inl h,
        fun h => h⟩
      have hne : l ≠ k := by
        rintro rfl
        exact hl (Backing.inoOf_eq_some.mpr hk)
      exact Function.update_of_ne hne _ _
    · rename_i hnone
      refine ⟨fun q hq => ?_, fun l hl _ => ?_, fun l hl => ?_, Nat.le_succ _, fun k hk => ?_, fun hdir => ?_⟩
      · rw [Backing.find_setName, if_neg hq]
        rfl
      · rw [Backing.inodes_setName, Backing.inodes_alloc, if_neg (Nat.ne_of_lt hl)]
      · rw [Backing.inodes_setName, Backing.inodes_alloc, if_neg (Nat.ne_of_lt hl)]
      · rw [Backing.find_setName, if_pos rfl, Option.some.injEq, Node.reg.injEq] at hk
        rw [← hk]
        exact Or.inr (Nat.lt_succ_self _)
      · rw [hnone] at hdir
        cases hdir

theorem keepAttr_beside (P : Process) (c : LinkCalls) (b : Backing) (f : Filename) : b.BesideAttr (P.keepAttr c b f) f := by
  unfold Process.keepAttr
  dsimp only
  split
  · exact createAttr_beside P.toCreator c.toAttrCalls b f _
  · exact unlinkIf_beside b _ f

/-- The attributes in the attribute file afterwards, if there is one. -/
def Process.keptAttr (P : Process) (c : LinkCalls) (b : Backing) (f : Filename) (src target : Attr) : Option Attr :=
  if src.differs target then
    if c.openAttr then some (c.given src ((b.attrOf (fuseattrName f)).getD (P.attr b.clock src.mode)))
    else b.attrOf (fuseattrName f)
  else if c.unlinkAttr then none else b.attrOf (fuseattrName f)

theorem attrOf_setAttr {p : Filename} {a : Attr} (hp : b.inoOf p = some i) : (b.setAttr i a).attrOf p = some a := by
  rw [Backing.attrOf, Backing.inoOf_setAttr, hp, Option.map_some, attr_setAttr, if_pos rfl]

theorem attrOf_keepAttr (hdir : b.find (fuseattrName f) ≠ some .dir) :
    (P.keepAttr c b f).attrOf (fuseattrName f) = P.keptAttr c b f (c.src b f) (c.target b (P.tmpname f)) := by
  unfold Process.keepAttr Process.keptAttr
  dsimp only
  split
  · rw [createAttr_eq]
    cases hopen : c.openAttr with
    | false => rfl
    | true =>
      rw [if_neg (by simp), if_pos rfl]
      split
      · rename_i h
        exact absurd h hdir
      · rename_i k hk
        have hino := Backing.inoOf_eq_some.mpr hk
        rw [attrOf_setAttr hino, Backing.attrOf, hino]
        rfl
      · rename_i hnone
        have hattr : b.attrOf (fuseattrName f) = none := by simp [Backing.attrOf, Backing.inoOf, hnone]
        rw [hattr, Backing.attrOf, Backing.inoOf_setName, if_pos rfl, Option.map_some, Backing.inodes_setName,
          Backing.inodes_alloc, if_pos rfl]
        rfl
  · unfold Backing.unlinkIf
    cases c.unlinkAttr with
    | false => rfl
    | true =>
      unfold Backing.unlink
      cases hfind : b.find (fuseattrName f) with
      | none => simp [Backing.attrOf, Backing.inoOf, hfind]
      | some n =>
        cases n with
        | dir => exact absurd hfind hdir
        | reg k => simp [Backing.attrOf, Backing.inoOf_dropName]

/-- Where there is no attribute file in the end, none has been written to. -/
theorem inodes_keepAttr (hnone : (P.keepAttr c b f).attrOf (fuseattrName f) = none) (hdir : b.find (fuseattrName f) ≠ some .dir) :
    (P.keepAttr c b f).inodes = b.inodes := by
  rw [attrOf_keepAttr hdir] at hnone
  unfold Process.keepAttr
  unfold Process.keptAttr at hnone
  dsimp only
  split
  · rename_i hdiffers
    rw [if_pos hdiffers] at hnone
    cases hopen : c.openAttr with
    | true =>
      rw [hopen, if_pos rfl] at hnone
      cases hnone
    | false =>
      rw [createAttr_eq, if_pos hopen]
  · unfold Backing.unlinkIf Backing.unlink
    split
    · split <;> rfl
    · rfl

/-! ## The links -/

/-- The temporary link has gone over the file, or has not, and nothing else has changed. -/
structure Backing.Relinked (b b' : Backing) (tmp f : Filename) (j : Nat) (renamed unlinked : Bool) : Prop where
  find : ∀ q, q ≠ tmp → b'.find q = if q = f ∧ renamed = true then some (.reg j) else b.find q
  gone : unlinked = true → b'.find tmp = none
  inodes : b'.inodes = b.inodes
  next : b'.next = b.next
  left : ∀ n, b'.find tmp = some n → n = .reg j

theorem Backing.unlinkIf_reg {tmp : Filename} (hb : b.find tmp ≠ some .dir) (ok : Bool) :
    (∀ q, q ≠ tmp → (b.unlinkIf ok tmp).find q = b.find q) ∧ (ok = true → (b.unlinkIf ok tmp).find tmp = none) ∧
      (b.unlinkIf ok tmp).inodes = b.inodes ∧ (b.unlinkIf ok tmp).next = b.next ∧
        ∀ n, (b.unlinkIf ok tmp).find tmp = some n → b.find tmp = some n := by
  unfold Backing.unlinkIf
  cases ok with
  | false => exact ⟨fun _ _ => rfl, (fun h => by cases h), rfl, rfl, fun _ h => h⟩
  | true =>
    rw [if_pos rfl]
    unfold Backing.unlink
    cases hfind : b.find tmp with
    | none => exact ⟨fun _ _ => rfl, fun _ => hfind, rfl, rfl, fun n hn => hfind.symm.trans hn⟩
    | some n =>
      cases n with
      | dir => exact absurd hfind hb
      | reg k =>
        refine ⟨fun q hq => ?_, fun _ => ?_, rfl, rfl, fun n hn => ?_⟩
        · rw [Option.getD_some, Backing.find_dropName, if_neg hq]
        · rw [Option.getD_some, Backing.find_dropName, if_pos rfl]
        · rw [Option.getD_some, Backing.find_dropName, if_pos rfl] at hn
          cases hn

/-- `hardlink_file` comes to make a link to the inode `j`, the file of a record. -/
structure Process.Links (P : Process) (c : LinkCalls) (h : DedupHash) (b : Backing) (md5 : List UInt8) (f : Filename) (dp : DedupT)
    (j : Nat) : Prop where
  record : h.findMd5 md5 = some dp
  other : f ≠ dp.filename
  call : c.link = true
  ino : b.inoOf dp.filename = some j
  free : b.find (P.tmpname f) = none
  parent : b.hasParent (P.tmpname f) = true

/-- `hardlink_file` where it makes no link. -/
theorem hardlinkFile_of_not_links (hno : ∀ dp j, ¬P.Links c h b md5 f dp j) :
    P.hardlinkFile c h b md5 f = (if h.findMd5 md5 = none then h.add md5 f else h, b, none) := by
  unfold Process.hardlinkFile
  cases hrec : h.findMd5 md5 with
  | none => rw [if_pos rfl]
  | some dp =>
    rw [if_neg (by simp)]
    dsimp only
    split
    · rfl
    · rename_i hother
      have hlink : (if c.link = true then b.link dp.filename (P.tmpname f) else none) = none := by
        cases hcall : c.link with
        | false => rfl
        | true =>
          rw [if_pos rfl]
          unfold Backing.link
          cases hino : b.inoOf dp.filename with
          | none => rfl
          | some j =>
            dsimp only
            rw [if_neg]
            rintro ⟨hfree, hparent⟩
            exact hno dp j ⟨hrec, hother, hcall, hino, hfree, hparent⟩
      rw [hlink]

/-- `rename` of the temporary link. -/
theorem rename_tmpname {tmp : Filename} (hne : f ≠ tmp) (htmp : b.find tmp = some (.reg j)) (hf : b.find f = some (.reg i)) :
    ∃ b', b.rename tmp f = some b' ∧ (∀ q, q ≠ tmp → b'.find q = if q = f then some (.reg j) else b.find q) ∧
      (∀ n, b'.find tmp = some n → n = .reg j) ∧ b'.inodes = b.inodes ∧ b'.next = b.next := by
  unfold Backing.rename
  rw [htmp]
  dsimp only
  rw [hf]
  dsimp only
  by_cases hij : j = i
  · -- both names are links to one inode, and `rename` leaves both
    rw [if_pos hij]
    refine ⟨b, rfl, fun q hq => ?_, fun n hn => ?_, rfl, rfl⟩
    · split
      · rename_i hqf
        rw [hqf, hf, hij]
      · rfl
    · rw [htmp, Option.some.injEq] at hn
      exact hn.symm
  · rw [if_neg hij]
    refine ⟨_, rfl, fun q hq => ?_, fun n hn => ?_, rfl, rfl⟩
    · rw [Backing.find_setName, Backing.find_dropName, if_neg hq]
    · rw [Backing.find_setName, if_neg (Ne.symm hne), Backing.find_dropName, if_pos rfl] at hn
      cases hn

/-- The link goes over the file if `rename` succeeds, and it is always removed. -/
theorem relinked_rename {tmp : Filename} (hne : f ≠ tmp) (htmp : b.find tmp = some (.reg j)) (hf : b.find f = some (.reg i))
    (renamed unlinked : Bool) :
    ∃ b', (if renamed = true then b.rename tmp f else none).getD b = b' ∧
      ((if renamed = true then b.rename tmp f else none) = none ↔ renamed = false) ∧
        b.Relinked (b'.unlinkIf unlinked tmp) tmp f j renamed unlinked := by
  obtain ⟨b₁, hb₁, hnone, hfind₁, hleft₁, hinodes₁, hnext₁⟩ : ∃ b₁, (if renamed = true then b.rename tmp f else none).getD b = b₁ ∧
      ((if renamed = true then b.rename tmp f else none) = none ↔ renamed = false) ∧
      (∀ q, q ≠ tmp → b₁.find q = if q = f ∧ renamed = true then some (.reg j) else b.find q) ∧
      (∀ n, b₁.find tmp = some n → n = .reg j) ∧ b₁.inodes = b.inodes ∧ b₁.next = b.next := by
    cases renamed with
    | false =>
      refine ⟨b, rfl, by simp, fun q _ => by simp, fun n hn => ?_, rfl, rfl⟩
      rw [htmp, Option.some.injEq] at hn
      exact hn.symm
    | true =>
      obtain ⟨b₁, hrename, hfind, hrest⟩ := rename_tmpname hne htmp hf
      refine ⟨b₁, by rw [if_pos rfl, hrename]; rfl, by rw [if_pos rfl, hrename]; simp, fun q hq => ?_, hrest⟩
      rw [hfind q hq]
      simp
  have hreg : b₁.find tmp ≠ some .dir := by
    intro hdir
    cases hleft₁ _ hdir
  obtain ⟨hfind, hgone, hinodes, hnext, hleft⟩ := Backing.unlinkIf_reg hreg unlinked
  exact ⟨b₁, hb₁, hnone, fun q hq => (hfind q hq).trans (hfind₁ q hq), hgone, hinodes.trans hinodes₁, hnext.trans hnext₁,
    fun n hn => hleft₁ n (hleft n hn)⟩

/-- `hardlink_file` where it makes a link. -/
theorem hardlinkFile_of_links {dp : DedupT} (hl : P.Links c h b md5 f dp j) (hf : isInternal f = false) (hi : b.inoOf f = some i) :
    ∃ b', P.hardlinkFile c h b md5 f = (h, b', if c.rename then some dp.filename else none) ∧
      (P.keepAttr c (b.setName (P.tmpname f) j) f).Relinked b' (P.tmpname f) f j c.rename c.unlinkTmp := by
  have hbeside := keepAttr_beside P c (b.setName (P.tmpname f) j) f
  have hne := ne_tmpname hf P f
  have htmp : (P.keepAttr c (b.setName (P.tmpname f) j) f).find (P.tmpname f) = some (.reg j) := by
    rw [hbeside.find _ (tmpname_ne_fuseattrName P f f), Backing.find_setName, if_pos rfl]
  have hfile : (P.keepAttr c (b.setName (P.tmpname f) j) f).find f = some (.reg i) := by
    rw [hbeside.find _ (ne_fuseattrName hf f), Backing.find_setName, if_neg hne, Backing.inoOf_eq_some.mp hi]
  obtain ⟨b', hb', hnone, hrelinked⟩ := relinked_rename hne htmp hfile c.rename c.unlinkTmp
  refine ⟨_, ?_, hrelinked⟩
  have hlink : (if c.link = true then b.link dp.filename (P.tmpname f) else none) = some (b.setName (P.tmpname f) j) := by
    rw [if_pos hl.call, Backing.link, hl.ino]
    dsimp only
    rw [if_pos ⟨hl.free, hl.parent⟩]
  unfold Process.hardlinkFile
  rw [hl.record]
  dsimp only
  rw [if_neg hl.other, hlink]
  dsimp only
  generalize P.keepAttr c (b.setName (P.tmpname f) j) f = b₂ at hb' hnone ⊢
  cases hrename : (if c.rename = true then b₂.rename (P.tmpname f) f else none) with
  | none =>
    rw [hrename] at hb'
    have hfalse := hnone.mp hrename
    rw [← hb', hfalse]
    rfl
  | some b₃ =>
    rw [hrename] at hb'
    have htrue : c.rename = true := by
      cases hc : c.rename with
      | true => rfl
      | false =>
        rw [hnone.mpr hc] at hrename
        cases hrename
    rw [← hb', htrue]
    rfl

/-! ## What is shown -/

/-- Nobody sees in the attributes that `hardlink_file` has run, and the temporary link is gone unless it could not be removed. -/
structure Unnoticed (Γ : Config) (b b' : Backing) (tmp : Filename) (unlinked : Bool) : Prop where
  attributes : ∀ q, isInternal q = false → visible Γ b' q = visible Γ b q
  temporary : unlinked = true → b'.find tmp = b.find tmp

/-- `create_attr` writes `st` into a file that had the attributes `a`, and what is in it then is `shown`. The mode loses what the
change of the owner takes from it. -/
structure Carries (c : AttrCalls) (st a shown : Attr) : Prop where
  owner : (if c.fchown then (if st.uid = noOwner then a.uid else st.uid, if st.gid = noOwner then a.gid else st.gid)
    else (a.uid, a.gid)) = (shown.uid, shown.gid)
  mode : (if c.fchown then dropSetId (if c.fchmod then a.mode / 4096 * 4096 + st.mode % 4096 else a.mode)
    else if c.fchmod then a.mode / 4096 * 4096 + st.mode % 4096 else a.mode) = shown.mode
  mtime : (if c.futimens then st.mtime else a.mtime) = shown.mtime

/-- The file `f`, an inode `i`, keeps its attributes when it is linked to the inode `j`. Either it is found to differ from `j`, and
its attributes are carried into the attribute file, or that file, which cannot be opened, is there already; or it is not found to
differ, and the attribute file stays because it cannot be removed; or else the inode that the name has in the end has the attributes
that were shown. -/
def KeepsAttr (P : Process) (c : LinkCalls) (b : Backing) (f : Filename) (i j : Nat) : Prop :=
  let src := c.src b f
  let inode := (b.inodes (if c.rename then j else i)).attr
  if src.differs (if c.lstatTmp then (b.inodes j).attr else c.stTarget) then
    if c.openAttr then
      Carries c.toAttrCalls src ((b.attrOf (fuseattrName f)).getD (P.attr b.clock src.mode)) (shownAttr b f i)
    else b.find (fuseattrName f) ≠ none ∨ inode.shown = (shownAttr b f i).shown
  else (b.find (fuseattrName f) ≠ none ∧ c.unlinkAttr = false) ∨ inode.shown = (shownAttr b f i).shown

theorem carries_iff (c : AttrCalls) (st a shown : Attr) : (c.given st a).shown = shown.shown ↔ Carries c st a shown := by
  have howner : ((c.given st a).uid, (c.given st a).gid) =
      if c.fchown then (if st.uid = noOwner then a.uid else st.uid, if st.gid = noOwner then a.gid else st.gid)
      else (a.uid, a.gid) := by
    unfold AttrCalls.given
    cases c.fchmod <;> cases c.fchown <;> cases c.futimens <;> rfl
  have hmode : (c.given st a).mode =
      if c.fchown then dropSetId (if c.fchmod then a.mode / 4096 * 4096 + st.mode % 4096 else a.mode)
      else if c.fchmod then a.mode / 4096 * 4096 + st.mode % 4096 else a.mode := by
    unfold AttrCalls.given
    cases c.fchmod <;> cases c.fchown <;> cases c.futimens <;> rfl
  have hmtime : (c.given st a).mtime = if c.futimens then st.mtime else a.mtime := by
    unfold AttrCalls.given
    cases c.fchmod <;> cases c.fchown <;> cases c.futimens <;> rfl
  rw [shown_eq_iff, howner, hmode, hmtime]
  exact ⟨fun h => ⟨h.1, h.2.1, h.2.2⟩, fun h => ⟨h.owner, h.mode, h.mtime⟩⟩

theorem attrOf_setName_ne {p : Filename} (hq : q ≠ p) (k : Nat) : (b.setName p k).attrOf q = b.attrOf q := by
  rw [Backing.attrOf, Backing.inoOf_setName, if_neg hq]
  rfl

/-- The temporary link changes nothing of what `hardlink_file` finds. -/
theorem keptAttr_setName (hf : isInternal f = false) (k : Nat) :
    P.keptAttr c (b.setName (P.tmpname f) k) f (c.src (b.setName (P.tmpname f) k) f)
        (c.target (b.setName (P.tmpname f) k) (P.tmpname f)) =
      P.keptAttr c b f (c.src b f) (if c.lstatTmp then (b.inodes k).attr else c.stTarget) := by
  have hattr : (b.setName (P.tmpname f) k).attrOf (fuseattrName f) = b.attrOf (fuseattrName f) :=
    attrOf_setName_ne (Ne.symm (tmpname_ne_fuseattrName P f f)) k
  have hfile : (b.setName (P.tmpname f) k).attrOf f = b.attrOf f := attrOf_setName_ne (ne_tmpname hf P f) k
  have hsrc : c.src (b.setName (P.tmpname f) k) f = c.src b f := by
    unfold LinkCalls.src
    rw [hattr, hfile]
  have htarget : c.target (b.setName (P.tmpname f) k) (P.tmpname f) =
      if c.lstatTmp then (b.inodes k).attr else c.stTarget := by
    unfold LinkCalls.target
    rw [Backing.attrOf, Backing.inoOf_setName, if_pos rfl]
    cases c.lstatTmp <;> rfl
  rw [hsrc, htarget]
  unfold Process.keptAttr
  rw [hattr]
  rfl

/-- What is shown of `f` in the end. -/
theorem keptAttr_iff (hb : b.Paired) :
    ((P.keptAttr c b f (c.src b f) (if c.lstatTmp then (b.inodes j).attr else c.stTarget)).getD
        (b.inodes (if c.rename then j else i)).attr).shown = (shownAttr b f i).shown ↔ KeepsAttr P c b f i j := by
  unfold Process.keptAttr KeepsAttr
  dsimp only
  have hstays : (((b.attrOf (fuseattrName f)).getD (b.inodes (if c.rename then j else i)).attr).shown = (shownAttr b f i).shown) ↔
      b.find (fuseattrName f) ≠ none ∨ (b.inodes (if c.rename then j else i)).attr.shown = (shownAttr b f i).shown := by
    rcases hb.attr_cases f with hnone | ⟨k, hk, -⟩
    · have hattr : b.attrOf (fuseattrName f) = none := by simp [Backing.attrOf, Backing.inoOf, hnone]
      simp [hattr, hnone]
    · have hattr : b.attrOf (fuseattrName f) = some (b.inodes k).attr := by simp [Backing.attrOf, Backing.inoOf, hk]
      simp [shownAttr, hattr, hk]
  generalize (if c.lstatTmp = true then (b.inodes j).attr else c.stTarget) = target
  split
  · cases c.openAttr with
    | false => exact hstays
    | true => exact carries_iff c.toAttrCalls _ _ _
  · cases c.unlinkAttr with
    | false =>
      rw [if_neg (by simp), hstays]
      simp
    | true => simp

/-- The links and the attribute file leave what is shown of other names alone. -/
theorem visible_relinked_other (hd : Γ.dedupEnabled = true) (hb : b.Paired) (hf : isInternal f = false) {k : Nat} {renamed unlinked : Bool}
    (hrelinked : (P.keepAttr c (b.setName (P.tmpname f) k) f).Relinked b' (P.tmpname f) f j renamed unlinked)
    (hq : isInternal q = false) (hqf : q ≠ f) : visible Γ b' q = visible Γ b q := by
  have hbeside := keepAttr_beside P c (b.setName (P.tmpname f) k) f
  generalize P.keepAttr c (b.setName (P.tmpname f) k) f = b₂ at hrelinked hbeside
  have hattr : fuseattrName q ≠ fuseattrName f := fun h => hqf (fuseattrName_inj h)
  have hinternal : ∀ p, isInternal p = true → p ≠ f := by
    rintro p hp rfl
    rw [hf] at hp
    cases hp
  have hsame : ∀ p, p ≠ P.tmpname f → p ≠ f → p ≠ fuseattrName f → b'.inoOf p = b.inoOf p := by
    intro p htmp hpf hpa
    unfold Backing.inoOf
    rw [hrelinked.find p htmp, if_neg (fun h => hpf h.1), hbeside.find p hpa, Backing.find_setName, if_neg htmp]
  refine visible_congr hd (hsame q (ne_tmpname hq P f) hqf (ne_fuseattrName hq f))
    (hsame _ (Ne.symm (tmpname_ne_fuseattrName P f q)) (hinternal _ (isInternal_fuseattrName q)) hattr) ?_
  intro l hl
  have hlt : l < b.next := by
    rcases hl with hl | hl
    · exact hb.lt hl
    · exact hb.lt hl
  have hne : b.inoOf (fuseattrName f) ≠ some l := by
    intro hfl
    -- the attribute file of `f` has one name only
    obtain hnone | ⟨m, hm, hlink⟩ := hb.attr_cases f
    · rw [Backing.inoOf_eq_some, hnone] at hfl
      cases hfl
    · have hml : m = l := Option.some.inj ((Backing.inoOf_eq_some.mpr hm).symm.trans hfl)
      subst hml
      rcases hl with hl | hl
      · exact ne_fuseattrName hq f (Backing.eq_of_nlink_lt_two hlink hl hfl)
      · exact hattr (Backing.eq_of_nlink_lt_two hlink hl hfl)
  have hino : (b.setName (P.tmpname f) k).inoOf (fuseattrName f) ≠ some l := by
    rw [Backing.inoOf_setName, if_neg (Ne.symm (tmpname_ne_fuseattrName P f f))]
    exact hne
  rw [hrelinked.inodes, hbeside.inodes l hlt hino, Backing.inodes_setName]

/-- What is shown of `f` once it may have been linked. -/
theorem visible_relinked_self (hd : Γ.dedupEnabled = true) (hb : b.Paired) (hf : isInternal f = false) (hi : b.inoOf f = some i)
    (hrelinked : (P.keepAttr c (b.setName (P.tmpname f) j) f).Relinked b' (P.tmpname f) f j c.rename c.unlinkTmp) :
    visible Γ b' f = visible Γ b f ↔ KeepsAttr P c b f i j := by
  have hbeside := keepAttr_beside P c (b.setName (P.tmpname f) j) f
  have htmp := Ne.symm (tmpname_ne_fuseattrName P f f)
  have hdir : (b.setName (P.tmpname f) j).find (fuseattrName f) ≠ some .dir := by
    rw [Backing.find_setName, if_neg htmp]
    obtain hnone | ⟨m, hm, -⟩ := hb.attr_cases f
    · rw [hnone]
      simp
    · rw [hm]
      simp
  have hkept := attrOf_keepAttr (P := P) (c := c) hdir
  rw [keptAttr_setName hf] at hkept
  -- the inode of the name in the end, whose attributes are those from before where there is no attribute file
  have hino : b'.inoOf f = some (if c.rename then j else i) := by
    rw [Backing.inoOf_eq_some, hrelinked.find f (ne_tmpname hf P f)]
    cases c.rename with
    | true =>
      rw [if_pos ⟨rfl, rfl⟩]
      rfl
    | false =>
      rw [if_neg (by simp), hbeside.find f (ne_fuseattrName hf f), Backing.find_setName, if_neg (ne_tmpname hf P f),
        Backing.inoOf_eq_some.mp hi]
      rfl
  have hattr : b'.attrOf (fuseattrName f) = (P.keepAttr c (b.setName (P.tmpname f) j) f).attrOf (fuseattrName f) := by
    unfold Backing.attrOf Backing.inoOf
    rw [hrelinked.find _ htmp, if_neg (fun h => fuseattrName_ne f h.1), hrelinked.inodes]
  rw [visible_eq hd, hino, Option.map_some, hattr, hkept, hrelinked.inodes, visible_before hd hi, Option.some.injEq,
    ← keptAttr_iff hb]
  have hnone : (P.keptAttr c b f (c.src b f) (if c.lstatTmp then (b.inodes j).attr else c.stTarget)) = none →
      ((P.keepAttr c (b.setName (P.tmpname f) j) f).inodes (if c.rename then j else i)).attr =
        (b.inodes (if c.rename then j else i)).attr := by
    intro hnone
    rw [inodes_keepAttr (hkept.trans hnone) hdir]
    rfl
  cases hkeeps : P.keptAttr c b f (c.src b f) (if c.lstatTmp then (b.inodes j).attr else c.stTarget) with
  | none => rw [Option.getD_none, Option.getD_none, hnone hkeeps]
  | some a => rfl

/-- `hardlink_file` goes unnoticed exactly when it makes no link, or the file keeps its attributes. -/
theorem hardlinkFile_unnoticed_iff (hd : Γ.dedupEnabled = true) (hb : b.Paired) (hf : isInternal f = false) (hi : b.inoOf f = some i) :
    Unnoticed Γ b (P.hardlinkFile c h b md5 f).2.1 (P.tmpname f) c.unlinkTmp ↔
      ∀ dp j, P.Links c h b md5 f dp j → KeepsAttr P c b f i j := by
  by_cases hlinks : ∃ dp j, P.Links c h b md5 f dp j
  · obtain ⟨dp, j, hl⟩ := hlinks
    obtain ⟨b', hb', hrelinked⟩ := hardlinkFile_of_links hl hf hi
    have hself := visible_relinked_self hd hb hf hi hrelinked
    rw [hb']
    constructor
    · intro hu dp' j' hl'
      have hdp : dp = dp' := Option.some.inj (hl.record.symm.trans hl'.record)
      subst hdp
      have hj : j = j' := Option.some.inj (hl.ino.symm.trans hl'.ino)
      subst hj
      exact hself.mp (hu.attributes f hf)
    · intro hkeeps
      refine ⟨fun q hq => ?_, fun hunlink => ?_⟩
      · by_cases hqf : q = f
        · rw [hqf]
          exact hself.mpr (hkeeps dp j hl)
        · exact visible_relinked_other hd hb hf hrelinked hq hqf
      · rw [hrelinked.gone hunlink, hl.free]
  · have hno : ∀ dp j, ¬P.Links c h b md5 f dp j := fun dp j hl => hlinks ⟨dp, j, hl⟩
    rw [hardlinkFile_of_not_links hno]
    exact ⟨fun _ dp j hl => absurd hl (hno dp j), fun _ => ⟨fun _ _ => rfl, fun _ => rfl⟩⟩

/-! ## A set-user-ID file -/

/-- Two empty files; `b` runs as its owner. -/
def Backing.setUid : Backing :=
  { Backing.empty with
    names := [(['a'], .reg 0), (['b'], .reg 1)]
    inodes := fun i => ⟨[], { mode := if i = 1 then 0o104755 else 0o100644, uid := 0, gid := 0, atime := 0, mtime := 0 }⟩
    next := 2 }

theorem paired_setUid : Backing.setUid.Paired where
  exists_inode := by
    intro p i hp
    simp only [Backing.setUid, List.mem_cons, Prod.mk.injEq, Node.reg.injEq, List.not_mem_nil, or_false] at hp
    obtain ⟨-, rfl⟩ | ⟨-, rfl⟩ := hp
    · exact Nat.zero_lt_two
    · exact Nat.one_lt_two
  attrFile := by
    intro p n hn
    have ha : ['a'] ≠ fuseattrName p := ne_fuseattrName (by decide) p
    have hb : ['b'] ≠ fuseattrName p := ne_fuseattrName (by decide) p
    simp [Backing.find, Backing.setUid, Assoc.find_cons, ha, hb] at hn

/-- A process of the superuser. -/
def Process.root : Process := { pid := ['1'], umask := 0o022, uid := 0, gid := 0, digits := by decide }

/-- No call fails. -/
def LinkCalls.fine : LinkCalls where
  link := true
  lstatAttr := true
  lstat := true
  lstatTmp := true
  openAttr := true
  fchmod := true
  fchown := true
  futimens := true
  unlinkAttr := true
  rename := true
  unlinkTmp := true
  stSrc := { mode := 0, uid := 0, gid := 0, atime := 0, mtime := 0 }
  stTarget := { mode := 0, uid := 0, gid := 0, atime := 0, mtime := 0 }

theorem hardlinkFile_unnoticed_iff_setUid :
    Unnoticed { Config.plain with dedupEnabled := true } .setUid
        (Process.root.hardlinkFile .fine (dedupInitDb.add [] ['a']) .setUid [] ['b']).2.1 (Process.root.tmpname ['b']) true ↔
      ∀ dp j, Process.root.Links .fine (dedupInitDb.add [] ['a']) .setUid [] ['b'] dp j →
        KeepsAttr .root .fine .setUid ['b'] 1 j :=
  hardlinkFile_unnoticed_iff (c := .fine) rfl paired_setUid (by decide) (by decide)

/-- `create_attr` changes the owner after the mode, and that takes the set-user-ID bit away. -/
theorem setUid_noticed : ¬∀ (Γ : Config) (P : Process) (c : LinkCalls) (h : DedupHash) (b : Backing) (md5 : List UInt8) (f : Filename)
    (i : Nat), Γ.dedupEnabled = true → b.Paired → isInternal f = false → b.inoOf f = some i →
      Unnoticed Γ b (P.hardlinkFile c h b md5 f).2.1 (P.tmpname f) c.unlinkTmp := by
  intro h
  have hu := h { Config.plain with dedupEnabled := true } .root .fine (dedupInitDb.add [] ['a']) .setUid [] ['b'] 1 rfl paired_setUid
    (by decide) (by decide)
  exact absurd (hu.attributes ['b'] (by decide)) (by decide +kernel)

end FuseCompress
