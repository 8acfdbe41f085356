import FuseCompress.Attributes
import FuseCompress.Lib.Transition
import Mathlib.Data.List.TakeWhile

/-!
# Every name has attributes of its own

With deduplication, names that share an inode still have owner, group, mode and modification time of their own: what differs from
the inode is in an attribute file next to the name. `overlay_visible_iff`: a request that changes attributes changes those of the
name it is about as the system call would, and those of no other name, exactly when no set-id bit is lost on the way
(`KeepsSetId`).
-/

namespace FuseCompress

/-! ## Names of attribute files -/

/-- A name that is not a file of the mount but one of the files it keeps beside them. -/
def isInternal (p : Filename) : Bool := fusecompressPrefix.isPrefixOf (basename p)

theorem slash_notMem_basename (p : Filename) : '/' ∉ basename p := by
  unfold basename
  intro h
  rw [List.mem_reverse] at h
  simpa using List.mem_takeWhile_imp h

/-- A path is its directory part, if it has one, and its last part. -/
theorem eq_dirname_basename (p : Filename) :
    p = match dirname p with
      | none => basename p
      | some d => d ++ '/' :: basename p := by
  have hsplit := List.takeWhile_append_dropWhile (p := fun c => decide (c ≠ '/')) (l := p.reverse)
  unfold dirname basename
  cases hd : p.reverse.dropWhile (fun c => decide (c ≠ '/')) with
  | nil =>
    rw [hd, List.append_nil] at hsplit
    rw [hsplit]
    simp
  | cons c d =>
    have hc : c = '/' := by
      have hne : p.reverse.dropWhile (fun c => decide (c ≠ '/')) ≠ [] := by rw [hd]; simp
      have hhead := List.head_dropWhile_not (fun c => decide (c ≠ '/')) hne
      simp only [hd, List.head_cons, decide_eq_false_iff_not, not_not] at hhead
      exact hhead
    rw [hd, hc] at hsplit
    have hrev := congrArg List.reverse hsplit
    simpa using hrev.symm

theorem dirname_append {d r : Filename} (hr : '/' ∉ r) : dirname (d ++ '/' :: r) = some d := by
  have hdrop : (d ++ '/' :: r).reverse.dropWhile (fun c => decide (c ≠ '/')) = '/' :: d.reverse := by
    rw [List.reverse_append, List.reverse_cons, List.append_assoc, List.dropWhile_append_of_pos]
    · simp
    · intro c hc
      have hne : c ≠ '/' := by
        rintro rfl
        exact hr (List.mem_reverse.mp hc)
      simpa using hne
  unfold dirname
  rw [hdrop]
  simp

theorem basename_append {d r : Filename} (hr : '/' ∉ r) : basename (d ++ '/' :: r) = r := by
  have hd := dirname_append (d := d) hr
  have h := eq_dirname_basename (d ++ '/' :: r)
  rw [hd] at h
  simpa using h.symm

theorem dirname_of_notMem {r : Filename} (hr : '/' ∉ r) : dirname r = none := by
  unfold dirname
  have hdrop : r.reverse.dropWhile (fun c => decide (c ≠ '/')) = [] := by
    rw [List.dropWhile_eq_nil_iff]
    intro c hc
    have hne : c ≠ '/' := by
      rintro rfl
      exact hr (List.mem_reverse.mp hc)
    simpa using hne
  rw [hdrop]

theorem basename_of_notMem {r : Filename} (hr : '/' ∉ r) : basename r = r := by
  have h := eq_dirname_basename r
  rw [dirname_of_notMem hr] at h
  exact h.symm

/-- The last part of the name of an attribute file. -/
theorem slash_notMem_attr (p : Filename) : '/' ∉ fusecompressPrefix ++ "at_".toList ++ basename p := by
  intro h
  rcases List.mem_append.mp h with h | h
  · exact absurd h (by decide)
  · exact slash_notMem_basename p h

theorem basename_fuseattrName (p : Filename) : basename (fuseattrName p) = fusecompressPrefix ++ "at_".toList ++ basename p := by
  unfold fuseattrName
  cases dirname p with
  | none => exact basename_of_notMem (slash_notMem_attr p)
  | some d =>
    dsimp only
    rw [List.append_assoc, List.singleton_append]
    exact basename_append (slash_notMem_attr p)

theorem dirname_fuseattrName (p : Filename) : dirname (fuseattrName p) = dirname p := by
  unfold fuseattrName
  cases hd : dirname p with
  | none => exact dirname_of_notMem (slash_notMem_attr p)
  | some d =>
    dsimp only
    rw [List.append_assoc, List.singleton_append]
    exact dirname_append (slash_notMem_attr p)

/-- Two names never have one attribute file. -/
theorem fuseattrName_inj {p q : Filename} (h : fuseattrName p = fuseattrName q) : p = q := by
  have hb := congrArg basename h
  have hd := congrArg dirname h
  rw [basename_fuseattrName, basename_fuseattrName] at hb
  rw [dirname_fuseattrName, dirname_fuseattrName] at hd
  rw [eq_dirname_basename p, eq_dirname_basename q, hd, List.append_cancel_left hb]

/-- The name of an attribute file is internal. -/
theorem isInternal_fuseattrName (p : Filename) : isInternal (fuseattrName p) = true := by
  rw [isInternal, basename_fuseattrName, List.isPrefixOf_iff_prefix, List.append_assoc]
  exact List.prefix_append _ _

/-! ## What a request does -/

/-- The attributes that `getattr` shows of a file, but for the access time. -/
def Attr.shown (a : Attr) : Attr := { a with atime := 0 }

/-- `dedup_sys_getattr`: what it shows of a regular file. -/
def visible (Γ : Config) (b : Backing) (p : Filename) : Option Attr :=
  match sysGetattr Γ .fine b p with
  | .regular st => some st.attr.shown
  | _ => none

/-- `dedup_sys_chown`, `dedup_sys_chmod` or `dedup_sys_utime`, all of whose system calls succeed, when it succeeds. -/
def attrCall (Γ : Config) (b : Backing) (call : Filename × AttrChange) : Option Backing :=
  match attrRun Γ .fine call.1 call.2 8 b (attrStart Γ) with
  | (b, true) => some b
  | (_, false) => none

/-- The attributes of a regular file: its mode says that it is one (`S_ISREG`), and nobody is the owner `-1`. -/
structure Attr.Regular (a : Attr) : Prop where
  mode : a.mode / 4096 = 8
  uid : a.uid ≠ noOwner
  gid : a.gid ≠ noOwner

/-- A backing directory: no name refers to an inode that does not exist, an attribute file is a regular file with no other name,
and the inodes are those of regular files. -/
structure Backing.Overlaid (b : Backing) : Prop where
  exists_inode : ∀ p i, (p, Node.reg i) ∈ b.names → i < b.next
  attrFile : ∀ p n, b.find (fuseattrName p) = some n → ∃ j, n = .reg j ∧ b.nlink j < 2
  regular : ∀ i, i < b.next → (b.inodes i).attr.Regular

/-- The backing directory with a new attribute file. -/
def Backing.makeAttr (b : Backing) (p : Filename) (a : Attr) : Backing := (b.alloc [] a).setName (fuseattrName p) b.next

/-- Attributes whose mode has lost the set-id bits, as `fchown` leaves them. -/
def Attr.lowered (a : Attr) : Attr := { a with mode := dropSetId a.mode }

/-- What a request leaves of the backing directory, when the name `p` refers to the inode `i`: the attribute file is changed or
superfluous, or is made, or is not needed. -/
def overlay (b : Backing) (p : Filename) (i : Nat) (c : AttrChange) : Backing :=
  match b.inoOf (fuseattrName p) with
  | some j =>
    if (b.inodes i).attr.differs (c.asked (b.inodes j).attr) then b.setAttr j (c.apply (b.inodes j).attr)
    else b.dropName (fuseattrName p)
  | none =>
    if b.nlink i > 1 ∧ (b.inodes i).attr.differs (c.asked (b.inodes i).attr) then
      b.makeAttr p (c.apply (b.inodes i).attr.lowered)
    else b.setAttr i (c.apply (b.inodes i).attr)

/-- The name `p`, an inode `i`, is shown with the set-id bits that the system call leaves: `create_attr` does not take them from a
file that gets new times, and no attribute file is superfluous where `lchown` would clear them. -/
def KeepsOwnSetId (b : Backing) (p : Filename) (i : Nat) : AttrChange → Prop
  | .mode _ => True
  | .times atime mtime =>
    b.inoOf (fuseattrName p) = none → b.nlink i > 1 →
      (b.inodes i).attr.differs ((AttrChange.times atime mtime).asked (b.inodes i).attr) = true →
        dropSetId (b.inodes i).attr.mode = (b.inodes i).attr.mode
  | .owner uid gid =>
    ∀ j, b.inoOf (fuseattrName p) = some j →
      (b.inodes i).attr.differs ((AttrChange.owner uid gid).asked (b.inodes j).attr) = false →
        dropSetId (b.inodes j).attr.mode = (b.inodes j).attr.mode

/-- Other names keep the set-id bits: `lchown` is not called on an inode with such a bit that another name is shown with. -/
def KeepsOtherSetId (b : Backing) (p : Filename) (i : Nat) : AttrChange → Prop
  | .owner uid gid =>
    b.inoOf (fuseattrName p) = none → (b.inodes i).attr.differs ((AttrChange.owner uid gid).asked (b.inodes i).attr) = false →
      dropSetId (b.inodes i).attr.mode = (b.inodes i).attr.mode ∨
        ∀ q, q ≠ p → isInternal q = false → b.inoOf q = some i → b.inoOf (fuseattrName q) ≠ none
  | _ => True

/-- The request loses no set-id bit and keeps none that it should not. -/
def KeepsSetId (b : Backing) (p : Filename) (c : AttrChange) : Prop :=
  ∀ i, b.inoOf p = some i → KeepsOwnSetId b p i c ∧ KeepsOtherSetId b p i c

variable {Γ : Config} {b b' : Backing} {p : Filename} {i : Nat} {c : AttrChange}

/-- A request goes on with its next call. -/
theorem attrRun_inl {env : Env} {n : Nat} {pc pc' : AttrPc} (h : attrStep Γ env b p c pc = (b', .inl pc')) :
    attrRun Γ env p c (n + 1) b pc = attrRun Γ env p c n b' pc' := by
  rw [attrRun, h]

/-- A request is done with its last call. -/
theorem attrRun_inr {env : Env} {n : Nat} {pc : AttrPc} {res : Bool} (h : attrStep Γ env b p c pc = (b', .inr res)) :
    attrRun Γ env p c (n + 1) b pc = (b', res) := by
  rw [attrRun, h]

theorem change_fine (hi : b.find p = some (.reg i)) : b.change .fine p c = (b.setAttr i (c.apply (b.inodes i).attr), true) := by
  simp [Backing.change, Env.fine, hi]

theorem attr_setAttr (b : Backing) (i : Nat) (a : Attr) (j : Nat) :
    ((b.setAttr i a).inodes j).attr = if j = i then a else (b.inodes j).attr := by
  by_cases h : j = i
  · subst h
    simp [Backing.setAttr]
  · simp [Backing.setAttr, h]

theorem attr_makeAttr (b : Backing) (p : Filename) (a : Attr) (j : Nat) :
    ((b.makeAttr p a).inodes j).attr = if j = b.next then a else (b.inodes j).attr := by
  rw [Backing.makeAttr, Backing.inodes_setName, Backing.inodes_alloc]
  split <;> rfl

theorem find_makeAttr (b : Backing) (p : Filename) (a : Attr) (q : Filename) :
    (b.makeAttr p a).find q = if q = fuseattrName p then some (.reg b.next) else b.find q := by
  rw [Backing.makeAttr, Backing.find_setName, Backing.find_alloc]

theorem setAttr_makeAttr (b : Backing) (p : Filename) (a a' : Attr) :
    (b.makeAttr p a).setAttr b.next a' = b.makeAttr p a' := by
  simp [Backing.makeAttr, Backing.setAttr, Backing.alloc, Backing.setName]

/-- What the calls of `create_attr` make of the attributes of a file that it has just created. -/
theorem created_lowered {a st : Attr} (hst : st.Regular) (ha : a.mode / 4096 = 8) :
    ((a.chmod st.mode).chown st.uid st.gid).utimens st.atime st.mtime = st.lowered := by
  have hmode : a.mode / 4096 * 4096 + st.mode % 4096 = st.mode := by
    have := hst.mode
    omega
  simp only [Attr.chmod, Attr.chown, Attr.utimens, Attr.lowered, hmode, if_neg hst.uid, if_neg hst.gid]

theorem Creator.attr_type (o : Creator) (now mode : Nat) : (o.attr now mode).mode / 4096 = 8 := by
  have hle : mode % 4096 - (mode % 4096 &&& o.umask) < 4096 := by omega
  simp only [Creator.attr]
  omega

/-- The calls of a request that makes an attribute file. -/
theorem attrRun_create {n : Nat} (hnone : b.find (fuseattrName p) = none) {st : Attr} (hst : st.Regular) :
    attrRun Γ .fine p c (n + 5) b (.createOpen st) = (b.makeAttr p (c.apply st.lowered), true) := by
  have hattr : ∀ a, ((b.makeAttr p a).inodes b.next).attr = a := fun a => by rw [attr_makeAttr, if_pos rfl]
  have hopen : attrStep Γ .fine b p c (.createOpen st) =
      (b.makeAttr p (Γ.creator.attr b.clock st.mode), .inl (.createMode b.next st)) := by
    simp [attrStep, createOpen, Env.fine, hnone, Backing.makeAttr]
  have hmode : ∀ a, attrStep Γ .fine (b.makeAttr p a) p c (.createMode b.next st) =
      (b.makeAttr p (a.chmod st.mode), .inl (.createOwner b.next st)) := by
    intro a
    simp [attrStep, Env.fine, hattr, setAttr_makeAttr]
  have howner : ∀ a, attrStep Γ .fine (b.makeAttr p a) p c (.createOwner b.next st) =
      (b.makeAttr p (a.chown st.uid st.gid), .inl (.createTimes b.next st)) := by
    intro a
    simp [attrStep, Env.fine, hattr, setAttr_makeAttr]
  have htimes : ∀ a, attrStep Γ .fine (b.makeAttr p a) p c (.createTimes b.next st) =
      (b.makeAttr p (a.utimens st.atime st.mtime), .inl .onAttr) := by
    intro a
    simp [attrStep, Env.fine, hattr, setAttr_makeAttr]
  have hlast : ∀ a, attrStep Γ .fine (b.makeAttr p a) p c .onAttr = (b.makeAttr p (c.apply a), .inr true) := by
    intro a
    have hfind : (b.makeAttr p a).find (fuseattrName p) = some (.reg b.next) := by rw [find_makeAttr, if_pos rfl]
    simp [attrStep, change_fine hfind, hattr, setAttr_makeAttr]
  rw [attrRun_inl hopen, attrRun_inl (hmode _), attrRun_inl (howner _), attrRun_inl (htimes _), attrRun_inr (hlast _),
    created_lowered hst (Γ.creator.attr_type _ _)]

/-- A name that has an inode has one that exists. -/
theorem Backing.Overlaid.lt_next (hb : b.Overlaid) (hi : b.inoOf p = some i) : i < b.next :=
  hb.exists_inode p i (Assoc.mem_of_find (Backing.inoOf_eq_some.mp hi))

/-- The calls of a request, one after the other, come to `overlay`. -/
theorem attrCall_reg (hd : Γ.dedupEnabled = true) (hb : b.Overlaid) (hi : b.inoOf p = some i) :
    attrCall Γ b (p, c) = some (overlay b p i c) := by
  have hfind : b.find p = some (.reg i) := Backing.inoOf_eq_some.mp hi
  have hstat : attrStep Γ .fine b p c .stat = (b, .inl (.statAttr (b.inodes i).attr (b.nlink i))) := by
    simp [attrStep, Env.fine, hfind]
  have hstatAttr : attrStep Γ .fine b p c (.statAttr (b.inodes i).attr (b.nlink i)) =
      (b, .inl (attrDecide c (b.inodes i).attr (b.nlink i) (b.attrOf (fuseattrName p)))) := by
    simp [attrStep, Env.fine]
  unfold attrCall overlay
  simp only [attrStart, hd, if_true]
  rw [attrRun_inl hstat, attrRun_inl hstatAttr, Backing.attrOf]
  cases hj : b.inoOf (fuseattrName p) with
  | some j =>
    have hfind' : b.find (fuseattrName p) = some (.reg j) := Backing.inoOf_eq_some.mp hj
    dsimp only [Option.map_some, attrDecide]
    by_cases hdiff : (b.inodes i).attr.differs (c.asked (b.inodes j).attr) = true
    · rw [if_pos hdiff, if_pos hdiff, attrRun_inr (show attrStep Γ .fine b p c .onAttr =
        (b.setAttr j (c.apply (b.inodes j).attr), .inr true) by simp [attrStep, change_fine hfind'])]
    · rw [if_neg hdiff, if_neg hdiff, attrRun_inr (show attrStep Γ .fine b p c .unlinkAttr =
        (b.dropName (fuseattrName p), .inr true) by simp [attrStep, unlinkAttr, Env.fine, Backing.unlink, hfind'])]
  | none =>
    have hfind' : b.find (fuseattrName p) = none := by
      cases hn : b.find (fuseattrName p) with
      | none => rfl
      | some n =>
        obtain ⟨j, rfl, -⟩ := hb.attrFile p n hn
        rw [Backing.inoOf_eq_some.mpr hn] at hj
        cases hj
    dsimp only [Option.map_none, attrDecide]
    by_cases hdiff : b.nlink i > 1 ∧ (b.inodes i).attr.differs (c.asked (b.inodes i).attr) = true
    · rw [if_pos hdiff, if_pos hdiff, attrRun_create hfind' (hb.regular i (hb.lt_next hi))]
    · rw [if_neg hdiff, if_neg hdiff, attrRun_inr (show attrStep Γ .fine b p c .onFile =
        (b.setAttr i (c.apply (b.inodes i).attr), .inr true) by simp [attrStep, change_fine hfind])]

/-! ## What everybody sees of it -/

/-- What is shown of a regular file is in its attribute file, or in its inode. -/
theorem visible_eq (hd : Γ.dedupEnabled = true) (b : Backing) (p : Filename) :
    visible Γ b p = (b.inoOf p).map (fun i => ((b.attrOf (fuseattrName p)).getD (b.inodes i).attr).shown) := by
  unfold visible sysGetattr Backing.inoOf
  simp only [Env.fine, hd, if_true, and_self]
  cases b.find p with
  | none => rfl
  | some n => cases n <;> rfl

/-- What is shown depends on the inodes of the name and of its attribute file only. -/
theorem visible_congr (hd : Γ.dedupEnabled = true) (hp : b'.inoOf p = b.inoOf p)
    (hattr : b'.inoOf (fuseattrName p) = b.inoOf (fuseattrName p))
    (hshown : ∀ k, b.inoOf p = some k ∨ b.inoOf (fuseattrName p) = some k →
      (b'.inodes k).attr.shown = (b.inodes k).attr.shown) : visible Γ b' p = visible Γ b p := by
  rw [visible_eq hd, visible_eq hd, hp, Backing.attrOf, Backing.attrOf, hattr]
  cases hi : b.inoOf p with
  | none => rfl
  | some i =>
    cases hj : b.inoOf (fuseattrName p) with
    | none => exact congrArg some (hshown i (Or.inl hi))
    | some j => exact congrArg some (hshown j (Or.inr hj))

/-- Attributes that do not differ are shown alike. -/
theorem shown_eq_of_not_differs {a a' : Attr} (h : a.differs a' = false) : a.shown = a'.shown := by
  simp only [Attr.differs, Bool.or_eq_false_iff, decide_eq_false_iff_not, not_not] at h
  obtain ⟨⟨⟨hu, hg⟩, hm⟩, ht⟩ := h
  simp only [Attr.shown, hu, hg, hm, ht]

/-- What is left of attributes by a change that finds what it asks for there already: only `chown` clears the set-id bits. -/
def AttrChange.repeated : AttrChange → Attr → Attr
  | .owner _ _, a => a.lowered
  | _, a => a

/-- Where the inode has what is asked for already, the attributes after the change are shown like those of the inode: the owner
`-1` is nobody's, and the type of both files is the same. -/
theorem shown_apply {a a' : Attr} (ha : a.Regular) (ha' : a'.Regular) (h : a.differs (c.asked a') = false) :
    (c.apply a').shown = (c.repeated a).shown := by
  have hs := shown_eq_of_not_differs h
  cases c with
  | mode bits =>
    simp only [Attr.shown, AttrChange.asked, Attr.mk.injEq] at hs
    have hm := ha.mode
    have hm' := ha'.mode
    have hbits : a'.mode / 4096 * 4096 + bits % 4096 = a.mode := by omega
    simp only [Attr.shown, AttrChange.apply, Attr.chmod, AttrChange.repeated, hbits, hs]
  | owner uid gid =>
    simp only [Attr.shown, AttrChange.asked, Attr.mk.injEq] at hs
    have hu : uid ≠ noOwner := fun e => ha.uid (hs.2.1.trans e)
    have hg : gid ≠ noOwner := fun e => ha.gid (hs.2.2.1.trans e)
    simp only [Attr.shown, AttrChange.apply, Attr.chown, AttrChange.repeated, Attr.lowered, if_neg hu, if_neg hg, hs]
  | times atime mtime =>
    simp only [Attr.shown, AttrChange.asked, Attr.mk.injEq] at hs
    simp only [Attr.shown, AttrChange.apply, Attr.utimens, AttrChange.repeated, hs]

theorem Attr.Regular.lowered {a : Attr} (ha : a.Regular) : a.lowered.Regular :=
  ⟨(dropSetId_type a.mode).trans ha.mode, ha.uid, ha.gid⟩

theorem Attr.Regular.apply {a : Attr} (ha : a.Regular) (c : AttrChange) : (c.apply a).Regular := by
  cases c with
  | mode bits =>
    have hm := ha.mode
    exact ⟨by simp only [AttrChange.apply, Attr.chmod]; omega, ha.uid, ha.gid⟩
  | owner uid gid =>
    refine ⟨ha.lowered.mode, ?_, ?_⟩
    · simp only [AttrChange.apply, Attr.chown]
      split
      · exact ha.uid
      · assumption
    · simp only [AttrChange.apply, Attr.chown]
      split
      · exact ha.gid
      · assumption
  | times atime mtime => exact ⟨ha.mode, ha.uid, ha.gid⟩

/-- The inode of an attribute file has no other name. -/
theorem Backing.Overlaid.eq_attr (hb : b.Overlaid) {j : Nat} {q : Filename} (hj : b.inoOf (fuseattrName p) = some j)
    (hq : b.inoOf q = some j) : q = fuseattrName p := by
  obtain ⟨j', hj', hlt⟩ := hb.attrFile p _ (Backing.inoOf_eq_some.mp hj)
  cases hj'
  exact Backing.eq_of_nlink_lt_two hlt hq hj

/-- A name of the mount is not the name of an attribute file. -/
theorem ne_fuseattrName {q : Filename} (hq : isInternal q = false) (p : Filename) : q ≠ fuseattrName p := by
  rintro rfl
  rw [isInternal_fuseattrName] at hq
  cases hq

/-- The attributes that the name the request is about is shown with afterwards. -/
def overlayAttr (b : Backing) (p : Filename) (i : Nat) (c : AttrChange) : Attr :=
  match b.inoOf (fuseattrName p) with
  | some j => if (b.inodes i).attr.differs (c.asked (b.inodes j).attr) then c.apply (b.inodes j).attr else (b.inodes i).attr
  | none =>
    if b.nlink i > 1 ∧ (b.inodes i).attr.differs (c.asked (b.inodes i).attr) then c.apply (b.inodes i).attr.lowered
    else c.apply (b.inodes i).attr

theorem visible_overlay_self (hd : Γ.dedupEnabled = true) (hp : isInternal p = false) (hi : b.inoOf p = some i) :
    visible Γ (overlay b p i c) p = some (overlayAttr b p i c).shown := by
  have hne := ne_fuseattrName hp p
  rw [visible_eq hd]
  unfold overlay overlayAttr Backing.attrOf
  cases hj : b.inoOf (fuseattrName p) with
  | some j =>
    dsimp only
    by_cases hdiff : (b.inodes i).attr.differs (c.asked (b.inodes j).attr) = true
    · rw [if_pos hdiff, if_pos hdiff, Backing.inoOf_setAttr, Backing.inoOf_setAttr, hi, hj]
      simp [attr_setAttr]
    · rw [if_neg hdiff, if_neg hdiff, Backing.inoOf_dropName, Backing.inoOf_dropName, if_neg hne, if_pos rfl, hi]
      rfl
  | none =>
    dsimp only
    by_cases hdiff : b.nlink i > 1 ∧ (b.inodes i).attr.differs (c.asked (b.inodes i).attr) = true
    · have hp' : (b.makeAttr p (c.apply (b.inodes i).attr.lowered)).inoOf p = some i := by
        rw [Backing.inoOf_eq_some, find_makeAttr, if_neg hne, Backing.inoOf_eq_some.mp hi]
      have hattr : (b.makeAttr p (c.apply (b.inodes i).attr.lowered)).inoOf (fuseattrName p) = some b.next := by
        rw [Backing.inoOf_eq_some, find_makeAttr, if_pos rfl]
      rw [if_pos hdiff, if_pos hdiff, hp', hattr]
      simp [attr_makeAttr]
    · rw [if_neg hdiff, if_neg hdiff, Backing.inoOf_setAttr, Backing.inoOf_setAttr, hi, hj]
      simp [attr_setAttr]

theorem lowered_shown_iff {a : Attr} : a.lowered.shown = a.shown ↔ dropSetId a.mode = a.mode := by
  simp [Attr.lowered, Attr.shown]

/-- The name the request is about is shown with the change it asks for exactly when it is shown with the right set-id bits. -/
theorem overlayAttr_iff (hb : b.Overlaid) (hi : b.inoOf p = some i) :
    (overlayAttr b p i c).shown = (c.apply ((b.attrOf (fuseattrName p)).getD (b.inodes i).attr)).shown ↔
      KeepsOwnSetId b p i c := by
  have hreg := hb.regular i (hb.lt_next hi)
  unfold overlayAttr Backing.attrOf
  cases hj : b.inoOf (fuseattrName p) with
  | some j =>
    have hregj := hb.regular j (hb.lt_next hj)
    dsimp only [Option.map_some, Option.getD_some]
    cases hdiff : (b.inodes i).attr.differs (c.asked (b.inodes j).attr) with
    | true =>
      rw [if_pos rfl, eq_self_iff_true, true_iff]
      cases c with
      | mode bits => trivial
      | times atime mtime => exact fun hnone => by rw [hj] at hnone; cases hnone
      | owner uid gid =>
        intro k hk hno
        cases hj.symm.trans hk
        rw [hdiff] at hno
        cases hno
    | false =>
      rw [if_neg (by simp), shown_apply hreg hregj hdiff]
      cases c with
      | mode bits => exact iff_of_true rfl trivial
      | times atime mtime => exact iff_of_true rfl (fun hnone => by rw [hj] at hnone; cases hnone)
      | owner uid gid =>
        have hmode : (b.inodes i).attr.mode = (b.inodes j).attr.mode := (congrArg Attr.mode (shown_eq_of_not_differs hdiff) :)
        rw [eq_comm, show (AttrChange.owner uid gid).repeated (b.inodes i).attr = (b.inodes i).attr.lowered from rfl,
          lowered_shown_iff, hmode]
        constructor
        · intro h k hk _
          cases hj.symm.trans hk
          exact h
        · exact fun h => h j hj hdiff
  | none =>
    dsimp only [Option.map_none, Option.getD_none]
    by_cases hdiff : b.nlink i > 1 ∧ (b.inodes i).attr.differs (c.asked (b.inodes i).attr) = true
    · rw [if_pos hdiff]
      cases c with
      | mode bits =>
        refine iff_of_true ?_ trivial
        simp only [AttrChange.apply, Attr.chmod, Attr.lowered, dropSetId_type]
      | owner uid gid =>
        refine iff_of_true ?_ (fun k hk => by rw [hj] at hk; cases hk)
        simp only [AttrChange.apply, Attr.chown, Attr.lowered, dropSetId_dropSetId]
      | times atime mtime =>
        have hiff : ((AttrChange.times atime mtime).apply (b.inodes i).attr.lowered).shown =
            ((AttrChange.times atime mtime).apply (b.inodes i).attr).shown ↔
              dropSetId (b.inodes i).attr.mode = (b.inodes i).attr.mode := by
          simp [AttrChange.apply, Attr.utimens, Attr.lowered, Attr.shown]
        rw [hiff]
        exact ⟨fun h _ _ _ => h, fun h => h hj hdiff.1 hdiff.2⟩
    · rw [if_neg hdiff, eq_self_iff_true, true_iff]
      cases c with
      | mode bits => trivial
      | owner uid gid => exact fun k hk => by rw [hj] at hk; cases hk
      | times atime mtime => exact fun _ hl hd => absurd ⟨hl, hd⟩ hdiff

/-- A name that has an attribute file is shown as before where this has not changed. -/
theorem visible_congr_attr (hd : Γ.dedupEnabled = true) {j : Nat} (hp : b'.inoOf p = b.inoOf p)
    (hattr : b'.inoOf (fuseattrName p) = b.inoOf (fuseattrName p)) (hj : b.inoOf (fuseattrName p) = some j)
    (hshown : (b'.inodes j).attr = (b.inodes j).attr) : visible Γ b' p = visible Γ b p := by
  rw [visible_eq hd, visible_eq hd, hp, Backing.attrOf, Backing.attrOf, hattr, hj]
  simp [hshown]

/-- Every other name is shown as before, when `lchown` takes no set-id bit from it. -/
theorem visible_overlay_ne (hd : Γ.dedupEnabled = true) (hb : b.Overlaid) (hp : isInternal p = false)
    (hi : b.inoOf p = some i) (hkeeps : KeepsOtherSetId b p i c) {q : Filename} (hqp : q ≠ p) (hq : isInternal q = false) :
    visible Γ (overlay b p i c) q = visible Γ b q := by
  have hattr : fuseattrName q ≠ fuseattrName p := fun e => hqp (fuseattrName_inj e)
  have hne := ne_fuseattrName hq p
  have hreg := hb.regular i (hb.lt_next hi)
  unfold overlay
  cases hj : b.inoOf (fuseattrName p) with
  | some j =>
    dsimp only
    split
    · refine visible_congr hd rfl rfl ?_
      intro k hk
      have hkj : k ≠ j := by
        rintro rfl
        rcases hk with hk | hk
        · exact hne (hb.eq_attr hj hk)
        · exact hattr (hb.eq_attr hj hk)
      rw [attr_setAttr, if_neg hkj]
    · refine visible_congr hd ?_ ?_ (fun _ _ => rfl)
      · rw [Backing.inoOf_dropName, if_neg hne]
      · rw [Backing.inoOf_dropName, if_neg hattr]
  | none =>
    dsimp only
    by_cases hdiff : b.nlink i > 1 ∧ (b.inodes i).attr.differs (c.asked (b.inodes i).attr) = true
    · rw [if_pos hdiff]
      refine visible_congr hd ?_ ?_ ?_
      · unfold Backing.inoOf
        rw [find_makeAttr, if_neg hne]
      · unfold Backing.inoOf
        rw [find_makeAttr, if_neg hattr]
      · intro k hk
        have hlt : k < b.next := hk.elim hb.lt_next hb.lt_next
        rw [attr_makeAttr, if_neg hlt.ne]
    · rw [if_neg hdiff]
      by_cases hqi : b.inoOf q = some i
      · -- the inode is shared only when nothing that is shown changes but the set-id bits
        have hl : ¬b.nlink i < 2 := fun hl => hqp (Backing.eq_of_nlink_lt_two hl hqi hi)
        have hsame : (b.inodes i).attr.differs (c.asked (b.inodes i).attr) = false := by
          simpa using fun h => hdiff ⟨by omega, h⟩
        have hshown := shown_apply hreg hreg hsame
        have hattrNe : b.inoOf (fuseattrName q) ≠ some i := fun h => ne_fuseattrName hp q (hb.eq_attr h hi)
        by_cases hmode : (c.repeated (b.inodes i).attr).shown = (b.inodes i).attr.shown
        · refine visible_congr hd rfl rfl ?_
          intro k _
          rw [attr_setAttr]
          split
          · rename_i hki
            rw [hki, hshown, hmode]
          · rfl
        · cases c with
          | mode bits => exact absurd rfl hmode
          | times atime mtime => exact absurd rfl hmode
          | owner uid gid =>
            rcases hkeeps hj hsame with hdrop | hfiles
            · exact absurd (lowered_shown_iff.mpr hdrop) hmode
            · obtain ⟨j, hjq⟩ := Option.ne_none_iff_exists'.mp (hfiles q hqp hq hqi)
              refine visible_congr_attr hd rfl rfl hjq ?_
              rw [attr_setAttr, if_neg]
              rintro rfl
              exact hattrNe hjq
      · refine visible_congr hd rfl rfl ?_
        intro k hk
        rw [attr_setAttr, if_neg]
        rintro rfl
        rcases hk with hk | hk
        · exact hqi hk
        · exact ne_fuseattrName hp q (hb.eq_attr hk hi)

/-- Where `lchown` is called on an inode with a set-id bit, the other names that are shown with its attributes change. -/
theorem keepsOther_of_visible (hd : Γ.dedupEnabled = true) (hb : b.Overlaid) (hi : b.inoOf p = some i)
    (hvis : ∀ q, q ≠ p → isInternal q = false → visible Γ (overlay b p i c) q = visible Γ b q) : KeepsOtherSetId b p i c := by
  have hreg := hb.regular i (hb.lt_next hi)
  cases c with
  | mode bits => trivial
  | times atime mtime => trivial
  | owner uid gid =>
    intro hj hsame
    by_contra hlost
    rw [not_or] at hlost
    obtain ⟨hdrop, hother⟩ := hlost
    push Not at hother
    obtain ⟨q, hqp, hq, hqi, hjq⟩ := hother
    have hno : ¬(b.nlink i > 1 ∧
        (b.inodes i).attr.differs ((AttrChange.owner uid gid).asked (b.inodes i).attr) = true) := fun h => by
      rw [hsame] at h
      cases h.2
    have h := hvis q hqp hq
    unfold overlay at h
    rw [hj] at h
    dsimp only at h
    rw [if_neg hno, visible_eq hd, visible_eq hd, Backing.inoOf_setAttr, Backing.attrOf, Backing.attrOf, Backing.inoOf_setAttr,
      hqi, hjq, Option.map_some, Option.map_some, Option.some.injEq, Option.map_none, Option.getD_none, Option.map_none,
      Option.getD_none, attr_setAttr, if_pos rfl, shown_apply hreg hreg hsame] at h
    exact hdrop (lowered_shown_iff.mp h)

/-! ## Whole runs -/

theorem nlink_dropName_le (b : Backing) (q : Filename) (j : Nat) : (b.dropName q).nlink j ≤ b.nlink j :=
  (List.filter_sublist.filter _).length_le

theorem nlink_makeAttr_le (b : Backing) (p : Filename) (a : Attr) (j : Nat) :
    (b.makeAttr p a).nlink j ≤ (if j = b.next then 1 else 0) + b.nlink j := by
  have h := nlink_dropName_le b (fuseattrName p) j
  have heq : (b.makeAttr p a).nlink j = (if j = b.next then 1 else 0) + (b.dropName (fuseattrName p)).nlink j := by
    unfold Backing.nlink Assoc.count
    rw [show (b.makeAttr p a).names = (fuseattrName p, .reg b.next) :: (b.dropName (fuseattrName p)).names from rfl,
      List.filter_cons]
    by_cases hj : j = b.next
    · simp [hj, Nat.add_comm]
    · have hj' : ¬b.next = j := fun e => hj e.symm
      simp [hj, hj']
  omega

/-- An inode that does not exist has no link. -/
theorem Backing.Overlaid.nlink_next (hb : b.Overlaid) : b.nlink b.next = 0 := by
  unfold Backing.nlink Assoc.count
  rw [List.length_eq_zero_iff, List.filter_eq_nil_iff]
  rintro ⟨q, n⟩ hq hn
  have hn' : n = .reg b.next := by simpa using hn
  subst hn'
  exact absurd (hb.exists_inode q b.next hq) (Nat.lt_irrefl _)

theorem Backing.Overlaid.setAttr (hb : b.Overlaid) {a : Attr} (ha : a.Regular) : (b.setAttr i a).Overlaid where
  exists_inode := hb.exists_inode
  attrFile := hb.attrFile
  regular := by
    intro k hk
    rw [attr_setAttr]
    split
    · exact ha
    · exact hb.regular k hk

theorem Backing.Overlaid.dropName (hb : b.Overlaid) (q : Filename) : (b.dropName q).Overlaid where
  exists_inode := fun p i hp => hb.exists_inode p i (List.mem_filter.mp hp).1
  attrFile := by
    intro p n hn
    rw [Backing.find_dropName] at hn
    split at hn
    · cases hn
    · obtain ⟨j, hj, hlt⟩ := hb.attrFile p n hn
      exact ⟨j, hj, lt_of_le_of_lt (nlink_dropName_le b q j) hlt⟩
  regular := hb.regular

theorem Backing.Overlaid.makeAttr (hb : b.Overlaid) {a : Attr} (ha : a.Regular) : (b.makeAttr p a).Overlaid where
  exists_inode := by
    intro q k hq
    change k < b.next + 1
    rcases List.mem_cons.mp hq with he | hq
    · injection he with _ he
      injection he with he
      omega
    · exact Nat.lt_succ_of_lt (hb.exists_inode q k (List.mem_filter.mp hq).1)
  attrFile := by
    intro q n hn
    rw [find_makeAttr] at hn
    split at hn
    · cases hn
      have hle := nlink_makeAttr_le b p a b.next
      rw [if_pos rfl, hb.nlink_next] at hle
      exact ⟨b.next, rfl, by omega⟩
    · obtain ⟨j, rfl, hlt⟩ := hb.attrFile q n hn
      have hjn : j < b.next := hb.exists_inode _ j (Assoc.mem_of_find hn)
      have hle := nlink_makeAttr_le b p a j
      rw [if_neg hjn.ne] at hle
      exact ⟨j, rfl, by omega⟩
  regular := by
    intro k hk
    rw [attr_makeAttr]
    split
    · exact ha
    · rename_i hkn
      have hk' : k < b.next + 1 := hk
      exact hb.regular k (by omega)

theorem Backing.Overlaid.overlay (hb : b.Overlaid) (hi : b.inoOf p = some i) (c : AttrChange) :
    (overlay b p i c).Overlaid := by
  have hreg := (hb.regular i (hb.lt_next hi)).apply c
  unfold FuseCompress.overlay
  cases hj : b.inoOf (fuseattrName p) with
  | some j =>
    dsimp only
    split
    · exact hb.setAttr ((hb.regular j (hb.lt_next hj)).apply c)
    · exact hb.dropName _
  | none =>
    dsimp only
    split
    · exact hb.makeAttr ((hb.regular i (hb.lt_next hi)).lowered.apply c)
    · exact hb.setAttr hreg

/-- A request that succeeds is about a directory, which it leaves as it is, or about a regular file. -/
theorem attrCall_cases (hd : Γ.dedupEnabled = true) (hb : b.Overlaid) (h : attrCall Γ b (p, c) = some b') :
    (b' = b ∧ b.inoOf p = none) ∨ ∃ i, b.inoOf p = some i ∧ b' = overlay b p i c := by
  cases hi : b.inoOf p with
  | some i =>
    rw [attrCall_reg hd hb hi, Option.some.injEq] at h
    exact Or.inr ⟨i, rfl, h.symm⟩
  | none =>
    refine Or.inl ⟨?_, rfl⟩
    unfold attrCall at h
    simp only [attrStart, hd, if_true] at h
    cases hn : b.find p with
    | none =>
      rw [attrRun_inr (show attrStep Γ .fine b p c .stat = (b, .inr false) by simp [attrStep, Env.fine, hn])] at h
      cases h
    | some n =>
      cases n with
      | reg i =>
        rw [Backing.inoOf_eq_some.mpr hn] at hi
        cases hi
      | dir =>
        rw [attrRun_inl (show attrStep Γ .fine b p c .stat = (b, .inl .onFile) by simp [attrStep, Env.fine, hn]),
          attrRun_inr (show attrStep Γ .fine b p c .onFile = (b, .inr true) by
            simp [attrStep, Backing.change, Env.fine, hn])] at h
        exact (Option.some.inj h).symm

theorem attrCall_overlaid (hd : Γ.dedupEnabled = true) (hb : b.Overlaid) (h : attrCall Γ b (p, c) = some b') : b'.Overlaid := by
  rcases attrCall_cases hd hb h with ⟨rfl, -⟩ | ⟨i, hi, rfl⟩
  · exact hb
  · exact hb.overlay hi c

/-- A change shows alike in attributes that are shown alike. -/
theorem shown_apply_shown (c : AttrChange) (a : Attr) : (c.apply a.shown).shown = (c.apply a).shown := by
  cases c <;> rfl

/-- After every request of a run that succeeds, the name it is about is shown with the change it asks for, as the system call makes
it, and every other name of the mount is shown as before, whether or not it shares the inode: exactly when the request does no harm
to set-id bits. -/
theorem overlay_visible_iff (Γ : Config) (hd : Γ.dedupEnabled = true) {b₀ b b' : Backing} (hb : b₀.Overlaid)
    {calls : List (Filename × AttrChange)} (h : Run (attrCall Γ) (fun _ call => isInternal call.1 = false) b₀ calls b)
    {p : Filename} {c : AttrChange} (hp : isInternal p = false) (hc : attrCall Γ b (p, c) = some b') :
    (visible Γ b' p = (visible Γ b p).map (fun a => (c.apply a).shown) ∧
      ∀ q, q ≠ p → isInternal q = false → visible Γ b' q = visible Γ b q) ↔ KeepsSetId b p c := by
  have hb' : b.Overlaid := h.invariant (fun _ _ _ hs _ hstep => attrCall_overlaid hd hs hstep) hb
  unfold KeepsSetId
  rcases attrCall_cases hd hb' hc with ⟨rfl, hnone⟩ | ⟨i, hi, rfl⟩
  · refine iff_of_true ⟨?_, fun _ _ _ => rfl⟩ (fun i hi => by rw [hnone] at hi; cases hi)
    rw [visible_eq hd, hnone]
    rfl
  · have hself : visible Γ (overlay b p i c) p = (visible Γ b p).map (fun a => (c.apply a).shown) ↔ KeepsOwnSetId b p i c := by
      rw [visible_overlay_self hd hp hi, visible_eq hd b p, hi, Option.map_some, Option.map_some, shown_apply_shown,
        Option.some.injEq, overlayAttr_iff hb' hi]
    rw [hself]
    constructor
    · rintro ⟨hown, hothers⟩ j hj
      cases hi.symm.trans hj
      exact ⟨hown, keepsOther_of_visible hd hb' hi hothers⟩
    · intro hkeeps
      exact ⟨(hkeeps i hi).1, fun q hqp hq => visible_overlay_ne hd hb' hp hi (hkeeps i hi).2 hqp hq⟩

/-- A backing directory where `a` and `b` are links to one file. -/
def Backing.linked (mode : Nat) : Backing :=
  { Backing.empty with
    names := [(['a'], .reg 0), (['b'], .reg 0)]
    inodes := fun _ => ⟨[], { mode := mode, uid := 0, gid := 0, atime := 0, mtime := 0 }⟩
    next := 1 }

theorem overlaid_linked (mode : Nat) (hmode : mode / 4096 = 8) : (Backing.linked mode).Overlaid where
  exists_inode := by
    intro p i hp
    simp only [Backing.linked, List.mem_cons, Prod.mk.injEq, Node.reg.injEq, List.not_mem_nil, or_false] at hp
    rcases hp with ⟨-, rfl⟩ | ⟨-, rfl⟩
    · exact Nat.zero_lt_one
    · exact Nat.zero_lt_one
  attrFile := by
    intro p n hn
    have ha : ['a'] ≠ fuseattrName p := ne_fuseattrName (by decide) p
    have hb : ['b'] ≠ fuseattrName p := ne_fuseattrName (by decide) p
    simp [Backing.find, Backing.linked, Assoc.find_cons, ha, hb] at hn
  regular := by
    intro i _
    refine ⟨hmode, ?_, ?_⟩
    · show 0 ≠ noOwner
      decide
    · show 0 ≠ noOwner
      decide

/-- Two links to a file that is not executable. -/
def Backing.twoLinks : Backing := .linked 0o100644

theorem overlaid_twoLinks : Backing.twoLinks.Overlaid := overlaid_linked _ (by decide)

theorem overlay_visible_iff_twoLinks :
    ∃ b b', Run (attrCall { Config.plain with dedupEnabled := true }) (fun _ call => isInternal call.1 = false)
        .twoLinks [(['a'], .mode 0o100600)] b ∧
      attrCall { Config.plain with dedupEnabled := true } b (['b'], .owner 5 noOwner) = some b' ∧
      ((visible { Config.plain with dedupEnabled := true } b' ['b'] =
          (visible { Config.plain with dedupEnabled := true } b ['b']).map
            (fun a => ((AttrChange.owner 5 noOwner).apply a).shown) ∧
        ∀ q, q ≠ ['b'] → isInternal q = false →
          visible { Config.plain with dedupEnabled := true } b' q = visible { Config.plain with dedupEnabled := true } b q) ↔
        KeepsSetId b ['b'] (.owner 5 noOwner)) := by
  obtain ⟨b, hrun, hp⟩ := Run.exists_of_executeIf
    (show (executeIf (attrCall { Config.plain with dedupEnabled := true }) (fun _ call => isInternal call.1 = false)
      .twoLinks [(['a'], .mode 0o100600)]).any
        (fun b => (attrCall { Config.plain with dedupEnabled := true } b (['b'], .owner 5 noOwner)).isSome) = true by
          decide +kernel)
  obtain ⟨b', hb'⟩ := Option.isSome_iff_exists.mp hp
  exact ⟨b, b', hrun, hb', overlay_visible_iff _ rfl overlaid_twoLinks hrun (by decide) hb'⟩

/-- The set-user-ID bit of a name is lost when the name gets new times, and with them an attribute file. -/
theorem setUidLink_not_visible : ¬∀ (Γ : Config) (b₀ b b' : Backing) (calls : List (Filename × AttrChange)) (p : Filename)
    (c : AttrChange), Γ.dedupEnabled = true → b₀.Overlaid →
      Run (attrCall Γ) (fun _ call => isInternal call.1 = false) b₀ calls b → isInternal p = false →
        attrCall Γ b (p, c) = some b' → visible Γ b' p = (visible Γ b p).map (fun a => (c.apply a).shown) := by
  intro h
  obtain ⟨b', hb', hp⟩ : ∃ b', attrCall { Config.plain with dedupEnabled := true } (.linked 0o104755) (['a'], .times 0 5) =
      some b' ∧ visible { Config.plain with dedupEnabled := true } b' ['a'] ≠
        (visible { Config.plain with dedupEnabled := true } (.linked 0o104755) ['a']).map
          (fun a => ((AttrChange.times 0 5).apply a).shown) := by
    have hcall : ((attrCall { Config.plain with dedupEnabled := true } (.linked 0o104755) (['a'], .times 0 5)).any (fun b' =>
        decide (visible { Config.plain with dedupEnabled := true } b' ['a'] ≠
          (visible { Config.plain with dedupEnabled := true } (.linked 0o104755) ['a']).map
            (fun a => ((AttrChange.times 0 5).apply a).shown)))) = true := by
      decide +kernel
    obtain ⟨b', hb', hp⟩ := (Option.any_eq_true _ _).mp hcall
    exact ⟨b', hb', by simpa using hp⟩
  exact hp (h _ _ _ b' [] ['a'] (.times 0 5) rfl (overlaid_linked 0o104755 (by decide)) (.nil _) (by decide) hb')

end FuseCompress
