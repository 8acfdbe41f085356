import FuseCompress.Metadata
import FuseCompress.Lemmas.Sections
import FuseCompress.Lemmas.Unmount
import FuseCompress.Lemmas.Reading

/-!
# What each step does to the attributes of the path

The attributes the path shows are in its attribute file, if deduplication is on and it has one, and else in its inode. `Holds` says
what each place in a request relies on; a system call of the request takes one to the next (`attrStep_holds`), and replacing the
inode by one with the same attributes does not matter to any of them (`Holds.replaced`).
-/

namespace FuseCompress

variable {Γ : Config} {env : Env} {b b' : Backing} {p : Filename} {i : Nat} {k : Option Nat} {a e : Attr} {c : AttrChange}

/-! ## Attributes -/

theorem wholeSeconds_idem (t : Nat) : wholeSeconds (wholeSeconds t) = wholeSeconds t := by
  unfold wholeSeconds
  rw [Nat.mul_div_cancel _ (by norm_num)]

theorem inSeconds_of_shown {a a' : Attr} (h : a.shown = a'.shown) : a.inSeconds = a'.inSeconds := by
  simp only [Attr.shown, Attr.mk.injEq] at h
  simp only [Attr.inSeconds, Attr.mk.injEq]
  exact ⟨h.1, h.2.1, h.2.2.1, trivial, congrArg wholeSeconds h.2.2.2.2⟩

/-- A change makes attributes that agree in seconds agree again. -/
theorem inSeconds_apply {a a' : Attr} (c : AttrChange) (h : a.inSeconds = a'.inSeconds) :
    (c.apply a).inSeconds = (c.apply a').inSeconds := by
  simp only [Attr.inSeconds, Attr.mk.injEq] at h
  obtain ⟨hmode, huid, hgid, -, hmtime⟩ := h
  cases c with
  | mode bits => simp only [AttrChange.apply, Attr.chmod, Attr.inSeconds, hmode, huid, hgid, hmtime]
  | owner uid gid => simp only [AttrChange.apply, Attr.chown, Attr.inSeconds, hmode, huid, hgid, hmtime]
  | times atime mtime => simp only [AttrChange.apply, Attr.utimens, Attr.inSeconds, hmode, huid, hgid]

theorem field_of_inSeconds {a a' : Attr} (h : a.inSeconds = a'.inSeconds) (field : Field) : a.field field = a'.field field := by
  simp only [Attr.inSeconds, Attr.mk.injEq] at h
  obtain ⟨hmode, huid, hgid, -, hmtime⟩ := h
  cases field with
  | mode => exact congrArg (· % 4096) hmode
  | uid => exact huid
  | gid => exact hgid
  | mtime => exact hmtime

/-- What a request that succeeds may make of attributes: what the system call makes of them, but a `chown` that only removes a
superfluous attribute file leaves the set-id bits. -/
inductive AttrChange.Yields (c : AttrChange) (e : Attr) : Attr → Prop
  | applied : c.Yields e (c.apply e)
  | removed (uid gid : Nat) (hc : c = .owner uid gid) : c.Yields e { c.apply e with mode := e.mode }

/-- A request gives an attribute the value it asks for. -/
theorem AttrChange.Yields.field_some {e e' : Attr} (h : c.Yields e e') {field : Field} {v : Nat} (hv : c.value field = some v) :
    e'.field field = v := by
  have happly : (c.apply e).field field = v := by
    cases c with
    | mode bits =>
      cases field with
      | mode =>
        simp only [AttrChange.value, Option.some.injEq] at hv
        simp only [AttrChange.apply, Attr.chmod, Attr.field]
        omega
      | _ => cases hv
    | owner uid gid =>
      cases field with
      | uid =>
        simp only [AttrChange.value] at hv
        simp only [AttrChange.apply, Attr.chown, Attr.field]
        split at hv
        · cases hv
        · rename_i hno
          rw [if_neg hno]
          exact Option.some.inj hv
      | gid =>
        simp only [AttrChange.value] at hv
        simp only [AttrChange.apply, Attr.chown, Attr.field]
        split at hv
        · cases hv
        · rename_i hno
          rw [if_neg hno]
          exact Option.some.inj hv
      | _ => cases hv
    | times atime mtime =>
      cases field with
      | mtime => exact Option.some.inj hv
      | _ => cases hv
  cases h with
  | applied => exact happly
  | removed uid gid hc =>
    subst hc
    cases field with
    | mode => cases hv
    | _ => exact happly

/-- A request leaves an attribute alone that it does not change. -/
theorem AttrChange.Yields.field_of_not_changes {e e' : Attr} (h : c.Yields e e') {field : Field} {v : Nat} (he : e.field field = v)
    (hc : ¬c.Changes field v) : e'.field field = v := by
  have happly : (c.apply e).field field = v := by
    cases c with
    | mode bits =>
      cases field with
      | mode => exact absurd (Option.some_ne_none _) hc
      | _ => exact he
    | owner uid gid =>
      cases field with
      | mode =>
        have hdrop : dropSetId v = v := not_not.mp hc
        change dropSetId e.mode % 4096 = v
        rw [dropSetId_mod, show e.mode % 4096 = v from he, hdrop]
      | uid =>
        simp only [AttrChange.Changes, AttrChange.value, ne_eq, not_not] at hc
        split at hc
        · rename_i hno
          simpa only [AttrChange.apply, Attr.chown, Attr.field, hno, if_true] using he
        · cases hc
      | gid =>
        simp only [AttrChange.Changes, AttrChange.value, ne_eq, not_not] at hc
        split at hc
        · rename_i hno
          simpa only [AttrChange.apply, Attr.chown, Attr.field, hno, if_true] using he
        · cases hc
      | mtime => exact he
    | times atime mtime =>
      cases field with
      | mtime => exact absurd (Option.some_ne_none _) hc
      | _ => exact he
  cases h with
  | applied => exact happly
  | removed uid gid _ =>
    cases field with
    | mode => exact he
    | _ => exact happly

/-- What several requests may make of attributes, one after the other. -/
inductive Reached (a : Attr) : List AttrChange → Attr → Prop
  | nil : Reached a [] a
  | snoc {cs : List AttrChange} {c : AttrChange} {e e' : Attr} : Reached a cs e → c.Yields e e' → Reached a (cs ++ [c]) e'

theorem Reached.last {cs : List AttrChange} (h : Reached a (cs ++ [c]) e) : ∃ e₀, Reached a cs e₀ ∧ c.Yields e₀ e := by
  generalize hl : cs ++ [c] = l at h
  cases h with
  | nil => exact absurd hl (by simp)
  | snoc hcs hc =>
    obtain ⟨rfl, hcc⟩ := List.append_inj' hl rfl
    cases hcc
    exact ⟨_, hcs, hc⟩

/-- The last request that changes an attribute determines it. -/
theorem Reached.field {before after : List AttrChange} {field : Field} {v : Nat} (hv : c.value field = some v)
    (h : Reached a (before ++ c :: after) e) (hafter : ∀ c' ∈ after, ¬c'.Changes field v) : e.field field = v := by
  induction after using List.reverseRecOn generalizing e with
  | nil =>
    obtain ⟨e₀, -, hyields⟩ := h.last
    exact hyields.field_some hv
  | append_singleton after c' ih =>
    rw [← List.cons_append, ← List.append_assoc] at h
    obtain ⟨e₀, hreached, hyields⟩ := h.last
    exact hyields.field_of_not_changes (ih hreached (fun c'' hc => hafter c'' (List.mem_append_left _ hc)))
      (hafter c' (by simp))

/-! ## The path and its attribute file -/

/-- The path refers to the inode `i`, and its attribute file, if it has one, is the inode `k`. -/
structure Backing.At (b : Backing) (p : Filename) (i : Nat) (k : Option Nat) : Prop where
  ino : b.inoOf p = some i
  attr : b.inoOf (fuseattrName p) = k
  node : k = none → b.find (fuseattrName p) = none
  lt : i < b.next
  attr_lt : ∀ j, k = some j → j < b.next ∧ j ≠ i
  regular : (b.inodes i).attr.Regular

theorem Backing.Overlaid.exists_at (h : b.Overlaid) (hp : isInternal p = false) (hi : b.inoOf p = some i) : ∃ k, b.At p i k := by
  have hne := ne_fuseattrName hp p
  have hregular := h.regular i (h.lt_next hi)
  cases hk : b.inoOf (fuseattrName p) with
  | none =>
    have hnode : b.find (fuseattrName p) = none := by
      cases hfind : b.find (fuseattrName p) with
      | none => rfl
      | some n =>
        obtain ⟨j, rfl, -⟩ := h.attrFile p n hfind
        rw [Backing.inoOf_eq_some.mpr hfind] at hk
        cases hk
    exact ⟨none, hi, hk, fun _ => hnode, h.lt_next hi, (fun _ hn => by cases hn), hregular⟩
  | some j =>
    refine ⟨some j, hi, hk, (fun hn => by cases hn), h.lt_next hi, ?_, hregular⟩
    rintro j' ⟨⟩
    refine ⟨h.lt_next hk, ?_⟩
    rintro rfl
    exact hne (h.eq_attr hk hi)

/-- The attributes of the path are those expected: with deduplication those of its attribute file, if it has one. -/
def Backing.Agrees (Γ : Config) (b : Backing) (e : Attr) (i : Nat) : Option Nat → Prop
  | none => (b.inodes i).attr.inSeconds = e.inSeconds
  | some j =>
    if Γ.dedupEnabled then (b.inodes j).attr.inSeconds = e.inSeconds ∧ (b.inodes j).attr.Regular
    else (b.inodes i).attr.inSeconds = e.inSeconds

/-- No request is between its calls, and the path has the attributes expected. -/
def Settled (Γ : Config) (b : Backing) (p : Filename) (e : Attr) : Prop := ∃ i k, b.At p i k ∧ b.Agrees Γ e i k

theorem Settled.visible (h : Settled Γ b p e) : ∃ a, visible Γ b p = some a ∧ a.inSeconds = e.inSeconds := by
  obtain ⟨i, k, hat, hagrees⟩ := h
  have hshown : ∀ a : Attr, a.shown.inSeconds = a.inSeconds := fun _ => rfl
  cases hd : Γ.dedupEnabled with
  | true =>
    rw [visible_eq hd, hat.ino, Backing.attrOf, hat.attr]
    cases k with
    | none => exact ⟨_, rfl, (hshown _).trans hagrees⟩
    | some j =>
      simp only [Backing.Agrees, hd, if_true] at hagrees
      exact ⟨_, rfl, (hshown _).trans hagrees.1⟩
  | false =>
    have hfind := Backing.inoOf_eq_some.mp hat.ino
    refine ⟨(b.inodes i).attr.shown, ?_, ?_⟩
    · unfold FuseCompress.visible sysGetattr
      simp only [Env.fine, if_true, hfind, hd, Bool.false_eq_true, false_and, if_false]
    · rw [hshown]
      cases k with
      | none => exact hagrees
      | some j =>
        simp only [Backing.Agrees, hd, Bool.false_eq_true, if_false] at hagrees
        exact hagrees

/-- The attributes of the inode are changed. -/
theorem Backing.At.setAttr (h : b.At p i k) (ha : a.Regular) : (b.setAttr i a).At p i k where
  ino := h.ino
  attr := h.attr
  node := h.node
  lt := h.lt
  attr_lt := h.attr_lt
  regular := by
    rw [attr_setAttr, if_pos rfl]
    exact ha

/-- The attributes of the attribute file are changed. -/
theorem Backing.At.setAttrFile {j : Nat} (h : b.At p i (some j)) (a : Attr) : (b.setAttr j a).At p i (some j) where
  ino := h.ino
  attr := h.attr
  node := h.node
  lt := h.lt
  attr_lt := h.attr_lt
  regular := by
    rw [attr_setAttr, if_neg (fun hij => (h.attr_lt j rfl).2 hij.symm)]
    exact h.regular

/-- The attribute file is removed. -/
theorem Backing.At.dropAttr (h : b.At p i k) (hp : p ≠ fuseattrName p) : (b.dropName (fuseattrName p)).At p i none where
  ino := by
    rw [Backing.inoOf_dropName, if_neg hp]
    exact h.ino
  attr := by rw [Backing.inoOf_dropName, if_pos rfl]
  node := fun _ => by rw [Backing.find_dropName, if_pos rfl]
  lt := h.lt
  attr_lt := fun _ hn => by cases hn
  regular := h.regular

/-- An attribute file is made. -/
theorem Backing.At.makeAttr (h : b.At p i none) (hp : p ≠ fuseattrName p) (a : Attr) :
    ((b.alloc [] a).setName (fuseattrName p) b.next).At p i (some b.next) where
  ino := by
    rw [Backing.inoOf_setName, if_neg hp]
    exact h.ino
  attr := by rw [Backing.inoOf_setName, if_pos rfl]
  node := fun hn => by cases hn
  lt := Nat.lt_succ_of_lt h.lt
  attr_lt := by
    rintro j ⟨⟩
    exact ⟨Nat.lt_succ_self _, fun hn => Nat.lt_irrefl _ (hn ▸ h.lt)⟩
  regular := by
    rw [Backing.inodes_setName, Backing.inodes_alloc, if_neg (Nat.ne_of_lt h.lt)]
    exact h.regular

/-! ## What a request relies on between its calls -/

/-- `create_attr` is done: the attribute file has the attributes of the inode, without the set-id bits. -/
def Backing.Copied (b : Backing) (e : Attr) (i j : Nat) : Prop :=
  (b.inodes i).attr.inSeconds = e.inSeconds ∧ (b.inodes j).attr.inSeconds = e.lowered.inSeconds ∧ (b.inodes j).attr.Regular

/-- What a request that asks for `c` relies on before each of its calls. -/
def Holds (Γ : Config) (b : Backing) (p : Filename) (e : Attr) (c : AttrChange) : AttrPc → Prop
  | .stat => Settled Γ b p e
  | .statAttr st _ => ∃ i k, b.At p i k ∧ b.Agrees Γ e i k ∧ st.inSeconds = (b.inodes i).attr.inSeconds ∧ st.Regular
  | .unlinkAttr => ∃ i j, b.At p i (some j) ∧ b.Agrees Γ e i (some j) ∧
      ∃ e', c.Yields e e' ∧ e'.inSeconds = (b.inodes i).attr.inSeconds
  | .onAttr => ∃ i j, b.At p i (some j) ∧ (b.Agrees Γ e i (some j) ∨ b.Copied e i j)
  | .onFile => if Γ.dedupEnabled then ∃ i, b.At p i none ∧ b.Agrees Γ e i none else Settled Γ b p e
  | .createOpen st => ∃ i, b.At p i none ∧ b.Agrees Γ e i none ∧ st.inSeconds = e.inSeconds ∧ st.Regular
  | .createMode j st => ∃ i, b.At p i (some j) ∧ (b.inodes i).attr.inSeconds = e.inSeconds ∧ st.inSeconds = e.inSeconds ∧
      st.Regular ∧ (b.inodes j).attr.mode / 4096 = 8
  | .createOwner j st => ∃ i, b.At p i (some j) ∧ (b.inodes i).attr.inSeconds = e.inSeconds ∧ st.inSeconds = e.inSeconds ∧
      st.Regular ∧ (b.inodes j).attr.mode = st.mode
  | .createTimes j st => ∃ i, b.At p i (some j) ∧ (b.inodes i).attr.inSeconds = e.inSeconds ∧ st.inSeconds = e.inSeconds ∧
      st.Regular ∧ (b.inodes j).attr.mode = dropSetId st.mode ∧ (b.inodes j).attr.uid = st.uid ∧ (b.inodes j).attr.gid = st.gid

/-- The number of calls a request has left at most. -/
def AttrPc.left : AttrPc → Nat
  | .stat => 7
  | .statAttr _ _ => 6
  | .createOpen _ => 5
  | .createMode _ _ => 4
  | .createOwner _ _ => 3
  | .createTimes _ _ => 2
  | _ => 1

/-- What the last call of a request leaves behind. -/
def after (c : AttrChange) (e : Attr) (res : Bool) : Attr := if res then c.apply e else e

/-- A request that is over has done what it may do, or has failed and done nothing. -/
def AttrChange.Leaves (c : AttrChange) (e : Attr) (res : Bool) (e' : Attr) : Prop := if res then c.Yields e e' else e' = e

theorem leaves_after (c : AttrChange) (e : Attr) (res : Bool) : c.Leaves e res (after c e res) := by
  unfold AttrChange.Leaves after
  split
  · exact .applied
  · rfl

/-- What a call of a request comes to: the request goes on with another call, or it is over. -/
def Continues (Γ : Config) (p : Filename) (e : Attr) (c : AttrChange) (pc : AttrPc) : Backing × (AttrPc ⊕ Bool) → Prop
  | (b, .inl pc') => Holds Γ b p e c pc' ∧ pc'.left < pc.left
  | (b, .inr res) => ∃ e', c.Leaves e res e' ∧ Settled Γ b p e'

/-! ## The calls of a request -/

/-- The attributes of the inode count, since there is no attribute file or nobody looks at it. -/
def Backing.Bare (Γ : Config) (b : Backing) (p : Filename) (e : Attr) : Prop :=
  ∃ i k, b.At p i k ∧ (b.inodes i).attr.inSeconds = e.inSeconds ∧ (k = none ∨ Γ.dedupEnabled = false)

theorem Backing.Bare.settled (h : b.Bare Γ p e) : Settled Γ b p e := by
  obtain ⟨i, k, hat, hfile, hk⟩ := h
  refine ⟨i, k, hat, ?_⟩
  cases k with
  | none => exact hfile
  | some j =>
    rcases hk with hk | hd
    · cases hk
    · simp only [Backing.Agrees, hd, Bool.false_eq_true, if_false]
      exact hfile

theorem Settled.bare (h : Settled Γ b p e) (hd : Γ.dedupEnabled = false) : b.Bare Γ p e := by
  obtain ⟨i, k, hat, hagrees⟩ := h
  refine ⟨i, k, hat, ?_, Or.inr hd⟩
  cases k with
  | none => exact hagrees
  | some j =>
    simp only [Backing.Agrees, hd, Bool.false_eq_true, if_false] at hagrees
    exact hagrees

/-- The last call of a request, on the file. -/
theorem settled_change_file (h : b.Bare Γ p e) (env : Env) :
    Settled Γ (b.change env p c).1 p (after c e (b.change env p c).2) := by
  have hsettled := h.settled
  obtain ⟨i, k, hat, hfile, hk⟩ := h
  unfold Backing.change
  split
  · exact hsettled
  · rename_i hdir
    split at hdir
    · rw [Backing.inoOf_eq_some.mp hat.ino] at hdir
      cases hdir
    · cases hdir
  · rename_i j hreg
    split at hreg
    · rw [Backing.inoOf_eq_some.mp hat.ino] at hreg
      cases hreg
      refine Backing.Bare.settled ⟨i, k, hat.setAttr (hat.regular.apply c), ?_, hk⟩
      rw [attr_setAttr, if_pos rfl]
      exact inSeconds_apply c hfile
    · cases hreg

/-- A request that sets the mode does not mind that set-id bits are lost. -/
theorem apply_lowered (hc : c.setsMode = true) (a : Attr) : c.apply a.lowered = c.apply a := by
  cases c with
  | mode bits => simp only [AttrChange.apply, Attr.chmod, Attr.lowered, dropSetId_type]
  | owner uid gid => simp only [AttrChange.apply, Attr.chown, Attr.lowered, dropSetId_dropSetId]
  | times atime mtime => cases hc

/-- The last call of a request, on the attribute file. -/
theorem settled_change_attr {j : Nat} (hd : Γ.dedupEnabled = true) (hat : b.At p i (some j))
    (hagrees : b.Agrees Γ e i (some j) ∨ b.Copied e i j ∧ c.setsMode = true ∧ env.ok c.call = true) :
    Settled Γ (b.change env (fuseattrName p) c).1 p (after c e (b.change env (fuseattrName p) c).2) := by
  have hino := Backing.inoOf_eq_some.mp hat.attr
  have hnew : ((c.apply (b.inodes j).attr).inSeconds = (c.apply e).inSeconds ∧ (c.apply (b.inodes j).attr).Regular) ∧
      (b.Agrees Γ e i (some j) ∨ env.ok c.call = true) := by
    rcases hagrees with hagrees | ⟨⟨-, hfile, hreg⟩, hsets, hok⟩
    · have hfile := hagrees
      simp only [Backing.Agrees, hd, if_true] at hfile
      exact ⟨⟨inSeconds_apply c hfile.1, hfile.2.apply c⟩, Or.inl hagrees⟩
    · refine ⟨⟨?_, hreg.apply c⟩, Or.inr hok⟩
      rw [inSeconds_apply c hfile, apply_lowered hsets]
  unfold Backing.change
  split
  · rename_i hfails
    rcases hnew.2 with hagrees | hok
    · exact ⟨i, some j, hat, hagrees⟩
    · rw [if_pos hok, hino] at hfails
      cases hfails
  · rename_i hdir
    split at hdir
    · rw [hino] at hdir
      cases hdir
    · cases hdir
  · rename_i l hreg
    split at hreg
    · rw [hino] at hreg
      cases hreg
      refine ⟨i, some j, hat.setAttrFile _, ?_⟩
      simp only [Backing.Agrees, hd, if_true]
      rw [attr_setAttr, if_pos rfl]
      exact hnew.1
    · cases hreg

/-- Where the inode has what is asked for, a request that removes the attribute file yields what the inode has. -/
theorem asked_yields {a a' : Attr} (ha : a.Regular) (ha' : a'.Regular) (h : a.differs (c.asked a') = false) :
    ∃ e', c.Yields a' e' ∧ e'.shown = a.shown := by
  have hshown := shown_apply ha ha' h
  cases c with
  | mode bits => exact ⟨_, .applied, hshown⟩
  | times atime mtime => exact ⟨_, .applied, hshown⟩
  | owner uid gid =>
    have hmode : a.mode = a'.mode := (congrArg Attr.mode (shown_eq_of_not_differs h) :)
    refine ⟨_, .removed uid gid rfl, ?_⟩
    simp only [Attr.shown, AttrChange.repeated, Attr.lowered, Attr.mk.injEq] at hshown
    simp only [Attr.shown, Attr.mk.injEq]
    exact ⟨hmode.symm, hshown.2⟩

/-- Attributes that agree in seconds yield attributes that do. -/
theorem AttrChange.Yields.of_inSeconds {a a' e' : Attr} (h : c.Yields a e') (ha : a.inSeconds = a'.inSeconds) :
    ∃ e'', c.Yields a' e'' ∧ e''.inSeconds = e'.inSeconds := by
  have happly := inSeconds_apply c ha
  cases h with
  | applied => exact ⟨_, .applied, happly.symm⟩
  | removed uid gid hc =>
    refine ⟨_, .removed uid gid hc, ?_⟩
    simp only [Attr.inSeconds, Attr.mk.injEq] at happly ha ⊢
    exact ⟨ha.1.symm, happly.2.1.symm, happly.2.2.1.symm, trivial, happly.2.2.2.2.symm⟩

/-- What a request decides when it has looked at the file and at the attribute file. -/
theorem holds_attrDecide {st : Attr} (nlink : Nat) (hd : Γ.dedupEnabled = true) (hat : b.At p i k) (hagrees : b.Agrees Γ e i k)
    (hst : st.inSeconds = (b.inodes i).attr.inSeconds) (hreg : st.Regular) :
    Holds Γ b p e c (attrDecide c st nlink (b.attrOf (fuseattrName p))) ∧
      (attrDecide c st nlink (b.attrOf (fuseattrName p))).left < 6 := by
  rw [Backing.attrOf, hat.attr]
  cases k with
  | none =>
    simp only [Option.map_none, attrDecide]
    split
    · exact ⟨⟨i, hat, hagrees, hst.trans hagrees, hreg⟩, by simp [AttrPc.left]⟩
    · refine ⟨?_, by simp [AttrPc.left]⟩
      simp only [Holds, hd, if_true]
      exact ⟨i, hat, hagrees⟩
  | some j =>
    simp only [Option.map_some, attrDecide]
    split
    · exact ⟨⟨i, j, hat, Or.inl hagrees⟩, by simp [AttrPc.left]⟩
    · rename_i hdiff
      rw [Bool.not_eq_true] at hdiff
      have hfile := hagrees
      simp only [Backing.Agrees, hd, if_true] at hfile
      obtain ⟨e₁, hyields, hshown⟩ := asked_yields hreg hfile.2 hdiff
      obtain ⟨e₂, hyields', he₂⟩ := hyields.of_inSeconds hfile.1
      exact ⟨⟨i, j, hat, hagrees, e₂, hyields', he₂.trans ((inSeconds_of_shown hshown).trans hst)⟩, by simp [AttrPc.left]⟩

/-- A call of a request takes what it relies on before it to what it relies on afterwards. -/
theorem attrStep_continues (hp : p ≠ fuseattrName p) (henv : Γ.dedupEnabled = true → env.AttrFile) {pc : AttrPc}
    (hpc : Γ.dedupEnabled = false → pc = .onFile)
    (hlast : pc = .onAttr → Settled Γ b p e ∨ c.setsMode = true ∧ env.ok c.call = true) (h : Holds Γ b p e c pc) :
    Continues Γ p e c pc (attrStep Γ env b p c pc) := by
  cases hd : Γ.dedupEnabled with
  | false =>
    obtain rfl := hpc hd
    simp only [Holds, hd, Bool.false_eq_true, if_false] at h
    exact ⟨_, leaves_after _ _ _, settled_change_file (h.bare hd) env⟩
  | true =>
    obtain ⟨hlstat, hunlink, hchmod, hchown, htimes⟩ := henv hd
    cases pc with
    | stat =>
      obtain ⟨i, k, hat, hagrees⟩ := h
      simp only [attrStep, Backing.inoOf_eq_some.mp hat.ino]
      by_cases hok : env.ok .lstat = true
      · rw [if_pos hok]
        exact ⟨⟨i, k, hat, hagrees, rfl, hat.regular⟩, by simp [AttrPc.left]⟩
      · rw [if_neg hok]
        exact ⟨e, rfl, i, k, hat, hagrees⟩
    | statAttr st nlink =>
      obtain ⟨i, k, hat, hagrees, hst, hreg⟩ := h
      simp only [attrStep, hlstat, if_true]
      exact holds_attrDecide _ hd hat hagrees hst hreg
    | unlinkAttr =>
      obtain ⟨i, j, hat, hagrees, e', hyields, he'⟩ := h
      simp only [attrStep, FuseCompress.unlinkAttr, hunlink, if_true, Backing.unlink, Backing.inoOf_eq_some.mp hat.attr,
        Option.getD_some]
      exact ⟨e', hyields, i, none, hat.dropAttr hp, he'.symm⟩
    | onAttr =>
      obtain ⟨i, j, hat, hfile⟩ := h
      refine ⟨_, leaves_after _ _ _, settled_change_attr (i := i) hd hat ?_⟩
      rcases hlast rfl with ⟨i', k, hat', hagrees⟩ | hcall
      · obtain rfl : i' = i := Option.some.inj (hat'.ino.symm.trans hat.ino)
        obtain rfl : k = some j := hat'.attr.symm.trans hat.attr
        exact Or.inl hagrees
      · exact hfile.imp id (fun hcopied => ⟨hcopied, hcall⟩)
    | onFile =>
      simp only [Holds, hd, if_true] at h
      obtain ⟨i, hat, hagrees⟩ := h
      exact ⟨_, leaves_after _ _ _, settled_change_file ⟨i, none, hat, hagrees, Or.inl rfl⟩ env⟩
    | createOpen st =>
      obtain ⟨i, hat, hagrees, hst, hreg⟩ := h
      simp only [attrStep, createOpen, hat.node rfl]
      split
      · rename_i hnone
        exact ⟨e, rfl, i, none, hat, hagrees⟩
      · rename_i hsome
        split at hsome
        · cases hsome
        · cases hsome
          refine ⟨⟨i, hat.makeAttr hp _, ?_, hst, hreg, ?_⟩, by simp [AttrPc.left]⟩
          · rw [Backing.inodes_setName, Backing.inodes_alloc, if_neg (Nat.ne_of_lt hat.lt)]
            exact hagrees
          · rw [Backing.inodes_setName, Backing.inodes_alloc, if_pos rfl]
            exact Γ.creator.attr_type _ _
    | createMode j st =>
      obtain ⟨i, hat, hfile, hst, hreg, htype⟩ := h
      simp only [attrStep, hchmod, if_true]
      refine ⟨⟨i, hat.setAttrFile _, ?_, hst, hreg, ?_⟩, by simp [AttrPc.left]⟩
      · rw [attr_setAttr, if_neg (Ne.symm (hat.attr_lt j rfl).2)]
        exact hfile
      · rw [attr_setAttr, if_pos rfl]
        have hmode := hreg.mode
        simp only [Attr.chmod]
        omega
    | createOwner j st =>
      obtain ⟨i, hat, hfile, hst, hreg, hmode⟩ := h
      simp only [attrStep, hchown, if_true]
      refine ⟨⟨i, hat.setAttrFile _, ?_, hst, hreg, ?_⟩, by simp [AttrPc.left]⟩
      · rw [attr_setAttr, if_neg (Ne.symm (hat.attr_lt j rfl).2)]
        exact hfile
      · rw [attr_setAttr, if_pos rfl]
        simp only [Attr.chown, hmode, if_neg hreg.uid, if_neg hreg.gid, and_self]
    | createTimes j st =>
      obtain ⟨i, hat, hfile, hst, hreg, hmode, huid, hgid⟩ := h
      simp only [attrStep, htimes, if_true]
      refine ⟨⟨i, j, hat.setAttrFile _, Or.inr ⟨?_, ?_⟩⟩, by simp [AttrPc.left]⟩
      · rw [attr_setAttr, if_neg (Ne.symm (hat.attr_lt j rfl).2)]
        exact hfile
      · have hsame : (b.inodes j).attr.utimens st.atime st.mtime = st.lowered := by
          simp only [Attr.utimens, Attr.lowered, hmode, huid, hgid]
        rw [attr_setAttr, if_pos rfl, hsame]
        simp only [Attr.inSeconds, Attr.mk.injEq] at hst
        refine ⟨?_, hreg.lowered⟩
        simp only [Attr.inSeconds, Attr.lowered, hst]

/-- Where no set-id bit is lost, the path has the attributes expected when `create_attr` is done. -/
theorem Holds.settled_onAttr (hd : Γ.dedupEnabled = true) (h : Holds Γ b p e c .onAttr) (hmode : dropSetId e.mode = e.mode) :
    Settled Γ b p e := by
  obtain ⟨i, j, hat, hagrees | hcopied⟩ := h
  · exact ⟨i, some j, hat, hagrees⟩
  · refine ⟨i, some j, hat, ?_⟩
    obtain ⟨-, hfile, hreg⟩ := hcopied
    simp only [Backing.Agrees, hd, if_true]
    refine ⟨?_, hreg⟩
    rw [hfile, Attr.lowered, hmode]

/-- Before the last call on the attribute file the path has the attributes expected, or the call sets the mode. -/
theorem Holds.settled_or (hd : Γ.dedupEnabled = true) (h : Holds Γ b p e c .onAttr)
    (hkeeps : (MetaPc.attr c .onAttr).KeepsSetId env b p) : Settled Γ b p e ∨ c.setsMode = true ∧ env.ok c.call = true := by
  have hholds := h
  obtain ⟨i, j, hat, hagrees | ⟨hfile, hattr, -⟩⟩ := h
  · exact Or.inl ⟨i, some j, hat, hagrees⟩
  · have hmode : (b.inodes i).attr.mode = e.mode := (congrArg Attr.mode hfile :)
    have hmode' : (b.inodes j).attr.mode = dropSetId e.mode := (congrArg Attr.mode hattr :)
    by_cases hdrop : dropSetId e.mode = e.mode
    · exact Or.inl (hholds.settled_onAttr hd hdrop)
    · refine Or.inr (hkeeps (b.inodes i).attr ?_ (b.inodes j).attr ?_ ?_ ?_)
      · rw [Backing.attrOf, hat.ino]
        rfl
      · rw [Backing.attrOf, hat.attr]
        rfl
      · rw [hmode, hmode']
      · rw [hmode, hmode']
        exact hdrop

/-- All the calls of a request in a row, where it makes no attribute file or no set-id bit is lost to it. -/
theorem attrRun_settled (hp : p ≠ fuseattrName p) (henv : Γ.dedupEnabled = true → env.AttrFile) (n : Nat) {pc : AttrPc}
    (hn : pc.left ≤ n) (hpc : Γ.dedupEnabled = false → pc = .onFile) (h : Holds Γ b p e c pc)
    (hsafe : dropSetId e.mode = e.mode ∨ pc.left = 1 ∧ (pc = .onAttr → Settled Γ b p e) ∨
      ∃ st, pc = .createOpen st ∧ env.ok .openAttr = false) :
    ∃ e', c.Leaves e (attrRun Γ env p c n b pc).2 e' ∧ Settled Γ (attrRun Γ env p c n b pc).1 p e' := by
  induction n generalizing b pc with
  | zero => cases pc <;> simp [AttrPc.left] at hn
  | succ n ih =>
    have hlast : pc = .onAttr → Settled Γ b p e ∨ c.setsMode = true ∧ env.ok c.call = true := by
      intro honAttr
      subst honAttr
      have hd : Γ.dedupEnabled = true := by
        cases hd : Γ.dedupEnabled with
        | true => rfl
        | false => cases hpc hd
      rcases hsafe with hmode | ⟨-, hsettled⟩ | ⟨st, hst, -⟩
      · exact Or.inl (h.settled_onAttr hd hmode)
      · exact Or.inl (hsettled rfl)
      · cases hst
    have hstep := attrStep_continues hp henv hpc hlast h
    have hoff : Γ.dedupEnabled = false → ∃ r : Backing × Bool, attrStep Γ env b p c pc = (r.1, .inr r.2) := by
      intro hd
      rw [hpc hd]
      exact ⟨b.change env p c, rfl⟩
    have hfails : (∃ st, pc = .createOpen st ∧ env.ok .openAttr = false) → attrStep Γ env b p c pc = (b, .inr false) := by
      rintro ⟨st, rfl, hopen⟩
      simp [attrStep, createOpen, hopen]
    rw [attrRun]
    generalize attrStep Γ env b p c pc = r at hstep hoff hfails
    obtain ⟨b', pc' | res⟩ := r
    · obtain ⟨hnext, hless⟩ := hstep
      refine ih (by omega) (fun hd => ?_) hnext ?_
      · obtain ⟨r, hr⟩ := hoff hd
        cases hr
      · rcases hsafe with hmode | ⟨hone, -⟩ | hopen
        · exact Or.inl hmode
        · exfalso
          rw [hone] at hless
          cases pc' <;> simp [AttrPc.left] at hless
        · cases hfails hopen
    · exact hstep

/-- All the calls of a request in a row, from the first one on. -/
theorem attrRun_start_settled (hp : p ≠ fuseattrName p) (henv : Γ.dedupEnabled = true → env.AttrFile)
    (hkeeps : Γ.dedupEnabled = true → (MetaPc.utimeLock c).KeepsSetId env b p) (h : Settled Γ b p e) :
    ∃ e', c.Leaves e (attrRun Γ env p c 8 b (attrStart Γ)).2 e' ∧ Settled Γ (attrRun Γ env p c 8 b (attrStart Γ)).1 p e' := by
  cases hd : Γ.dedupEnabled with
  | false =>
    have hstart : attrStart Γ = .onFile := by rw [attrStart, hd]; rfl
    rw [hstart]
    refine attrRun_settled hp henv 8 (by simp [AttrPc.left]) (fun _ => rfl) ?_
      (Or.inr (Or.inl ⟨rfl, fun hn => by cases hn⟩))
    simpa only [Holds, hd, Bool.false_eq_true, if_false] using h
  | true =>
    have hstart : attrStart Γ = .stat := by rw [attrStart, hd]; rfl
    rw [hstart]
    have hsettled := h
    obtain ⟨i, k, hat, hagrees⟩ := h
    by_cases hok : env.ok .lstat = true
    · have hstat : attrStep Γ env b p c .stat = (b, .inl (.statAttr (b.inodes i).attr (b.nlink i))) := by
        simp only [attrStep, if_pos hok, Backing.inoOf_eq_some.mp hat.ino]
      have hdecide : attrStep Γ env b p c (.statAttr (b.inodes i).attr (b.nlink i)) =
          (b, .inl (attrDecide c (b.inodes i).attr (b.nlink i) (b.attrOf (fuseattrName p)))) := by
        simp only [attrStep, (henv hd).1, if_true]
      rw [attrRun_inl hstat, attrRun_inl hdecide]
      obtain ⟨hholds, hleft⟩ := holds_attrDecide (c := c) (b.nlink i) hd hat hagrees rfl hat.regular
      have hquiet := hkeeps hd hok i hat.ino
      generalize hpc : attrDecide c (b.inodes i).attr (b.nlink i) (b.attrOf (fuseattrName p)) = pc at hholds hleft hquiet ⊢
      refine attrRun_settled hp henv 6 (by omega) (fun hoff => by rw [hd] at hoff; cases hoff) hholds ?_
      cases pc with
      | createOpen st =>
        cases hopen : env.ok .openAttr with
        | false => exact Or.inr (Or.inr ⟨st, rfl, rfl⟩)
        | true =>
          obtain ⟨-, -, -, hst, -⟩ := hholds
          have hmode : st.mode = e.mode := (congrArg Attr.mode hst :)
          refine Or.inl ?_
          rw [← hmode]
          exact hquiet hopen
      | unlinkAttr => exact Or.inr (Or.inl ⟨rfl, fun _ => hsettled⟩)
      | onAttr => exact Or.inr (Or.inl ⟨rfl, fun _ => hsettled⟩)
      | onFile => exact Or.inr (Or.inl ⟨rfl, fun _ => hsettled⟩)
      | _ =>
        unfold attrDecide at hpc
        split at hpc
        · split at hpc <;> cases hpc
        · split at hpc <;> cases hpc
    · have hstat : attrStep Γ env b p c .stat = (b, .inr false) := by simp only [attrStep, if_neg hok]
      rw [attrRun_inr hstat]
      exact ⟨e, rfl, hsettled⟩

/-! ## Another inode with the same attributes -/

/-- Attributes that may have lost the set-id bits. -/
def Attr.lowerIf (lowers : Bool) (a : Attr) : Attr := bif lowers then a.lowered else a

theorem lowerIf_lowerIf (l l' : Bool) (a : Attr) : (a.lowerIf l).lowerIf l' = a.lowerIf (l || l') := by
  cases l with
  | false => rfl
  | true => cases l' <;> simp [Attr.lowerIf, Attr.lowered, dropSetId_dropSetId]

theorem inSeconds_lowerIf {a a' : Attr} (l : Bool) (h : a.inSeconds = a'.inSeconds) :
    (a.lowerIf l).inSeconds = (a'.lowerIf l).inSeconds := by
  cases l with
  | false => exact h
  | true =>
    simp only [Attr.inSeconds, Attr.mk.injEq] at h
    simp only [Attr.lowerIf, cond_true, Attr.lowered, Attr.inSeconds, h.1, h.2.1, h.2.2.1, h.2.2.2.2]

theorem Attr.Regular.lowerIf (h : a.Regular) (l : Bool) : (a.lowerIf l).Regular := by
  cases l with
  | false => exact h
  | true => exact h.lowered

/-- The path refers to an inode with the attributes it had before, but for set-id bits, and its attribute file is the same. -/
def Backing.Recoded (b b' : Backing) (p : Filename) (lowers : Bool) : Prop :=
  ∀ i k, b.At p i k → ∃ i', b'.At p i' k ∧ (b'.inodes i').attr.inSeconds = ((b.inodes i).attr.lowerIf lowers).inSeconds ∧
    ∀ j, k = some j → (b'.inodes j).attr = (b.inodes j).attr

/-- The path refers to an inode with the attributes it had before, and its attribute file is the same. -/
def Backing.Replaced (b b' : Backing) (p : Filename) : Prop := b.Recoded b' p false

theorem Backing.Replaced.refl (b : Backing) (p : Filename) : b.Replaced b p := fun i _ hat => ⟨i, hat, rfl, fun _ _ => rfl⟩

theorem Backing.Recoded.trans {b₁ b₂ b₃ : Backing} {l l' : Bool} (h : b₁.Recoded b₂ p l) (h' : b₂.Recoded b₃ p l') :
    b₁.Recoded b₃ p (l || l') := by
  intro i k hat
  obtain ⟨i₂, hat₂, hfile₂, hattr₂⟩ := h i k hat
  obtain ⟨i₃, hat₃, hfile₃, hattr₃⟩ := h' i₂ k hat₂
  refine ⟨i₃, hat₃, ?_, fun j hj => (hattr₃ j hj).trans (hattr₂ j hj)⟩
  rw [hfile₃, inSeconds_lowerIf l' hfile₂, lowerIf_lowerIf]

theorem Backing.Recoded.then {b₁ b₂ b₃ : Backing} {l : Bool} (h : b₁.Recoded b₂ p l) (h' : b₂.Replaced b₃ p) : b₁.Recoded b₃ p l := by
  have htrans := h.trans h'
  rwa [Bool.or_false] at htrans

/-- The set-id bits are not lost where there are none. -/
theorem Backing.Recoded.replaced {lowers : Bool} (h : b.Recoded b' p lowers)
    (hmode : lowers = true → ∀ a ∈ b.attrOf p, dropSetId a.mode = a.mode) : b.Replaced b' p := by
  intro i k hat
  obtain ⟨i', hat', hfile, hattr⟩ := h i k hat
  refine ⟨i', hat', hfile.trans ?_, hattr⟩
  cases lowers with
  | false => rfl
  | true =>
    have hkept := hmode rfl (b.inodes i).attr (by rw [Backing.attrOf, hat.ino]; rfl)
    simp only [Attr.lowerIf, cond_true, cond_false, Attr.lowered, hkept]

theorem Backing.Replaced.agrees (hr : b.Replaced b' p) (hat : b.At p i k) (hagrees : b.Agrees Γ e i k) :
    ∃ i', b'.At p i' k ∧ b'.Agrees Γ e i' k ∧ (b'.inodes i').attr.inSeconds = (b.inodes i).attr.inSeconds := by
  obtain ⟨i', hat', hfile, hattr⟩ := hr i k hat
  refine ⟨i', hat', ?_, hfile⟩
  cases k with
  | none => exact hfile.trans hagrees
  | some j =>
    unfold Backing.Agrees at hagrees ⊢
    dsimp only at hagrees ⊢
    split
    · rename_i hd
      rw [if_pos hd] at hagrees
      rw [hattr j rfl]
      exact hagrees
    · rename_i hd
      rw [if_neg hd] at hagrees
      exact hfile.trans hagrees

theorem Settled.replaced (h : Settled Γ b p e) (hr : b.Replaced b' p) : Settled Γ b' p e := by
  obtain ⟨i, k, hat, hagrees⟩ := h
  obtain ⟨i', hat', hagrees', -⟩ := hr.agrees hat hagrees
  exact ⟨i', k, hat', hagrees'⟩

/-- A request does not mind that the inode is replaced between its calls. -/
theorem Holds.replaced {pc : AttrPc} (h : Holds Γ b p e c pc) (hr : b.Replaced b' p) : Holds Γ b' p e c pc := by
  have hcreate : ∀ {i j}, b.At p i (some j) → ∃ i', b'.At p i' (some j) ∧ (b'.inodes j).attr = (b.inodes j).attr ∧
      (b'.inodes i').attr.inSeconds = (b.inodes i).attr.inSeconds := by
    intro i j hat
    obtain ⟨i', hat', hfile, hattr⟩ := hr i (some j) hat
    exact ⟨i', hat', hattr j rfl, hfile⟩
  cases pc with
  | stat => exact Settled.replaced h hr
  | statAttr st nlink =>
    obtain ⟨i, k, hat, hagrees, hst, hreg⟩ := h
    obtain ⟨i', hat', hagrees', hfile⟩ := hr.agrees hat hagrees
    exact ⟨i', k, hat', hagrees', hst.trans hfile.symm, hreg⟩
  | unlinkAttr =>
    obtain ⟨i, j, hat, hagrees, e', hyields, he'⟩ := h
    obtain ⟨i', hat', hagrees', hfile⟩ := hr.agrees hat hagrees
    exact ⟨i', j, hat', hagrees', e', hyields, he'.trans hfile.symm⟩
  | onAttr =>
    obtain ⟨i, j, hat, hagrees | ⟨hfile, hattr, hreg⟩⟩ := h
    · obtain ⟨i', hat', hagrees', -⟩ := hr.agrees hat hagrees
      exact ⟨i', j, hat', Or.inl hagrees'⟩
    · obtain ⟨i', hat', hsame, hfile'⟩ := hcreate hat
      exact ⟨i', j, hat', Or.inr ⟨hfile'.trans hfile, by rw [hsame]; exact hattr, by rw [hsame]; exact hreg⟩⟩
  | onFile =>
    unfold Holds at h ⊢
    dsimp only at h ⊢
    split
    · rename_i hd
      rw [if_pos hd] at h
      obtain ⟨i, hat, hagrees⟩ := h
      obtain ⟨i', hat', hagrees', -⟩ := hr.agrees hat hagrees
      exact ⟨i', hat', hagrees'⟩
    · rename_i hd
      rw [if_neg hd] at h
      exact h.replaced hr
  | createOpen st =>
    obtain ⟨i, hat, hagrees, hst, hreg⟩ := h
    obtain ⟨i', hat', hagrees', -⟩ := hr.agrees hat hagrees
    exact ⟨i', hat', hagrees', hst, hreg⟩
  | createMode j st =>
    obtain ⟨i, hat, hfile, hst, hreg, htype⟩ := h
    obtain ⟨i', hat', hattr, hfile'⟩ := hcreate hat
    exact ⟨i', hat', hfile'.trans hfile, hst, hreg, by rw [hattr]; exact htype⟩
  | createOwner j st =>
    obtain ⟨i, hat, hfile, hst, hreg, hmode⟩ := h
    obtain ⟨i', hat', hattr, hfile'⟩ := hcreate hat
    exact ⟨i', hat', hfile'.trans hfile, hst, hreg, by rw [hattr]; exact hmode⟩
  | createTimes j st =>
    obtain ⟨i, hat, hfile, hst, hreg, hmode, huid, hgid⟩ := h
    obtain ⟨i', hat', hattr, hfile'⟩ := hcreate hat
    exact ⟨i', hat', hfile'.trans hfile, hst, hreg, by rw [hattr]; exact ⟨hmode, huid, hgid⟩⟩

/-- Attributes that agree in seconds are those of a regular file, or not, together. -/
theorem Attr.Regular.of_inSeconds {a a' : Attr} (h : a.Regular) (hs : a'.inSeconds = a.inSeconds) : a'.Regular := by
  simp only [Attr.inSeconds, Attr.mk.injEq] at hs
  obtain ⟨hmode, huid, hgid, -⟩ := hs
  exact ⟨by rw [hmode]; exact h.mode, by rw [huid]; exact h.uid, by rw [hgid]; exact h.gid⟩

/-- Nothing but the contents, the access time and perhaps the set-id bits of one inode is changed. -/
structure Backing.Touched (b b' : Backing) (i : Nat) (lowers : Bool) : Prop where
  names : b'.names = b.names
  next : b'.next = b.next
  others : ∀ j, j ≠ i → b'.inodes j = b.inodes j
  attr : (b'.inodes i).attr.inSeconds = ((b.inodes i).attr.lowerIf lowers).inSeconds
  fsetid : b'.fsetid = b.fsetid

variable {lowers : Bool}

theorem Backing.Touched.refl (b : Backing) (i : Nat) : b.Touched b i false := ⟨rfl, rfl, fun _ _ => rfl, rfl, rfl⟩

theorem Backing.Touched.trans {b₁ b₂ b₃ : Backing} {l l' : Bool} (h : b₁.Touched b₂ i l) (h' : b₂.Touched b₃ i l') :
    b₁.Touched b₃ i (l || l') where
  names := h'.names.trans h.names
  next := h'.next.trans h.next
  others := fun j hj => (h'.others j hj).trans (h.others j hj)
  attr := by rw [h'.attr, inSeconds_lowerIf l' h.attr, lowerIf_lowerIf]
  fsetid := h'.fsetid.trans h.fsetid

theorem Backing.Touched.inoOf (h : b.Touched b' i lowers) (q : Filename) : b'.inoOf q = b.inoOf q := by
  unfold Backing.inoOf Backing.find
  rw [h.names]

theorem Backing.Touched.recoded (h : b.Touched b' i lowers) (hi : b.inoOf p = some i) : b.Recoded b' p lowers := by
  intro i' k hat
  obtain rfl : i = i' := Option.some.inj (hi.symm.trans hat.ino)
  refine ⟨i, ⟨?_, ?_, ?_, ?_, ?_, (hat.regular.lowerIf lowers).of_inSeconds h.attr⟩, h.attr, fun j hj => ?_⟩
  · rw [h.inoOf]
    exact hi
  · rw [h.inoOf]
    exact hat.attr
  · intro hk
    unfold Backing.find
    rw [h.names]
    exact hat.node hk
  · rw [h.next]
    exact hat.lt
  · rw [h.next]
    exact hat.attr_lt
  · rw [h.others j (hat.attr_lt j hj).2]

/-- The names are the same, and so are the attributes of the inodes there were. -/
theorem replaced_of_same (hfind : ∀ q, b'.find q = b.find q) (hnext : b.next ≤ b'.next)
    (hold : ∀ j, j < b.next → (b'.inodes j).attr = (b.inodes j).attr) : b.Replaced b' p := by
  have hino : ∀ q, b'.inoOf q = b.inoOf q := by
    intro q
    unfold Backing.inoOf
    rw [hfind]
  intro i k hat
  refine ⟨i, ⟨?_, ?_, ?_, Nat.lt_of_lt_of_le hat.lt hnext, ?_, ?_⟩, ?_, fun j hj => hold j (hat.attr_lt j hj).1⟩
  · rw [hino]
    exact hat.ino
  · rw [hino]
    exact hat.attr
  · intro hk
    rw [hfind]
    exact hat.node hk
  · exact fun j hj => ⟨Nat.lt_of_lt_of_le (hat.attr_lt j hj).1 hnext, (hat.attr_lt j hj).2⟩
  · rw [hold i hat.lt]
    exact hat.regular
  · rw [hold i hat.lt]
    rfl

/-- A new inode with the old attributes takes the place of the path's. -/
theorem replaced_install (hp : p ≠ fuseattrName p) (hfind : ∀ q, b'.find q = if q = p then some (.reg b.next) else b.find q)
    (hnext : b.next < b'.next) (hold : ∀ j, j < b.next → (b'.inodes j).attr = (b.inodes j).attr)
    (ha : ∀ i, b.inoOf p = some i → (b'.inodes b.next).attr.inSeconds = (b.inodes i).attr.inSeconds) : b.Replaced b' p := by
  intro i k hat
  refine ⟨b.next, ⟨?_, ?_, ?_, hnext, ?_, ?_⟩, ha i hat.ino, fun j hj => hold j (hat.attr_lt j hj).1⟩
  · rw [Backing.inoOf_eq_some, hfind, if_pos rfl]
  · unfold Backing.inoOf
    rw [hfind, if_neg hp.symm]
    exact hat.attr
  · intro hk
    rw [hfind, if_neg hp.symm]
    exact hat.node hk
  · intro j hj
    exact ⟨Nat.lt_trans (hat.attr_lt j hj).1 hnext, Nat.ne_of_lt (hat.attr_lt j hj).1⟩
  · exact hat.regular.of_inSeconds (ha i hat.ino)

/-! ## Closing the descriptors -/

section Close

variable {s : State} {f d : Nat} {m : Module} {ds : List Nat} {b₀ : Backing}

theorem touched_setData (b : Backing) (i : Nat) (data : Bytes) (st : Attr) (hst : st.inSeconds = (b.inodes i).attr.inSeconds) :
    b.Touched ((b.setData i data).utime i st) i (!b.fsetid) where
  names := rfl
  next := rfl
  fsetid := rfl
  others := by
    intro j hj
    simp [Backing.utime, Backing.setAttr, Backing.setData, hj]
  attr := by
    simp only [Attr.inSeconds, Attr.mk.injEq] at hst
    simp only [Backing.utime, Backing.setAttr, Backing.setData, Function.update_self, Attr.inSeconds, Attr.written, wholeSeconds_idem,
      hst.2.2.2.2]
    cases b.fsetid <;> rfl

theorem touched_utime (b : Backing) (i : Nat) (st : Attr) (hst : st.inSeconds = (b.inodes i).attr.inSeconds) :
    b.Touched (b.utime i st) i false where
  names := rfl
  next := rfl
  fsetid := rfl
  others := by
    intro j hj
    simp [Backing.utime, Backing.setAttr, hj]
  attr := by
    simp only [Attr.inSeconds, Attr.mk.injEq] at hst
    simp only [Backing.utime, Backing.setAttr, Function.update_self, Attr.inSeconds, wholeSeconds_idem, hst.2.2.2.2, Attr.lowerIf,
      cond_false]

/-- The close of the module `m` on a descriptor writes bytes to its file. -/
def Desc.flushes (Γ : Config) (env : Env) (m : Module) (desc : Desc) : Bool :=
  match desc.handle, desc.fd with
  | some (.writing chunks), some _ => env.ok .codecClose && !((Γ.codec m).tail chunks).isEmpty
  | _, _ => false

/-- What `do_decompress` relies on when it closes the descriptors `ds` of a file with the module `m`. `b₀` is what the backing
directory was before, and `lowers` says that a write since then has taken the set-id bits of the file. -/
structure State.Closing (env : Env) (s : State) (f i : Nat) (m : Module) (ds : List Nat) (b₀ : Backing) (lowers : Bool) : Prop where
  touched : b₀.Touched s.fs i lowers
  ino : s.fs.inoOf (s.files f).filename = some i
  compressor : (s.files f).compressor = some m
  attached : ∀ d ∈ ds, ∀ fd, (s.descs d).fd = some fd → fd.ino = i
  writing : ∀ d ∈ ds, ∀ chunks, (s.descs d).handle = some (.writing chunks) →
    (s.files f).type = .write ∧ (env.of d).ok .closeFstat = true ∧ (env.of d).ok .closeUtime = true
  counted : (ds.length : Int) ≤ (s.files f).accesses

/-- What is left when the module of a descriptor has been closed: at most some bytes have been written through it. -/
theorem closeHandle_cases {m : Module} (env : Env) (hm : (s.files f).compressor = some m) : ∃ desc : Desc, desc.handle = none ∧
    ((closeHandle Γ env s f d).files = s.files ∧
      (closeHandle Γ env s f d).descs = Function.update s.descs d desc) ∧
    ((closeHandle Γ env s f d).fs = s.fs ∧ (s.descs d).flushes Γ env m = false ∨ ∃ fd chunks data, (s.descs d).fd = some fd ∧
      (s.descs d).handle = some (.writing chunks) ∧ (closeHandle Γ env s f d).fs = s.fs.setData fd.ino data ∧
        (s.descs d).flushes Γ env m = true) := by
  unfold closeHandle Desc.flushes
  cases hhandle : (s.descs d).handle with
  | none => exact ⟨s.descs d, hhandle, ⟨rfl, (Function.update_eq_self _ _).symm⟩, Or.inl ⟨rfl, rfl⟩⟩
  | some handle =>
    simp only [hm]
    unfold codecClose
    rw [hhandle]
    cases handle with
    | reading start pos => exact ⟨_, rfl, ⟨rfl, rfl⟩, Or.inl ⟨rfl, rfl⟩⟩
    | writing chunks =>
      cases hfd : (s.descs d).fd with
      | none => exact ⟨_, rfl, ⟨rfl, rfl⟩, Or.inl ⟨rfl, rfl⟩⟩
      | some fd =>
        dsimp only
        split
        · rename_i hok
          refine ⟨{ s.descs d with
            fd := some { fd with pos := fd.pos + ((Γ.codec m).tail chunks).length }, offset := 0, handle := none }, rfl, ?_⟩
          unfold writeFd
          dsimp only
          split
          · rename_i hnil
            refine ⟨⟨rfl, ?_⟩, Or.inl ⟨rfl, by simp [hnil]⟩⟩
            simp [State.modDesc]
          · rename_i hsome
            refine ⟨⟨rfl, ?_⟩, Or.inr ⟨fd, chunks, _, rfl, rfl, rfl, by simp [hok, hsome]⟩⟩
            simp [State.modDesc]
        · rename_i hfails
          exact ⟨_, rfl, ⟨rfl, rfl⟩, Or.inl ⟨rfl, by simp [hfails]⟩⟩

theorem files_restoreTimes (env : Env) (s : State) (st : Option Attr) : (restoreTimes env s f st).files = s.files ∧
    (restoreTimes env s f st).descs = s.descs := by
  unfold restoreTimes
  split
  · split <;> exact ⟨rfl, rfl⟩
  · exact ⟨rfl, rfl⟩

/-- The times around the close of a module are those before: a write through it is followed by `utime`. -/
theorem touched_directClose (h : s.Closing env f i m (d :: ds) b₀ lowers) :
    b₀.Touched (directClose Γ (env.of d) s f d).fs i (lowers || !b₀.fsetid && (s.descs d).flushes Γ (env.of d) m) := by
  obtain ⟨desc, -, ⟨hfiles, -⟩, hfs⟩ := closeHandle_cases (Γ := Γ) (d := d) (env.of d) h.compressor
  have htouched : b₀.Touched (restoreTimes (env.of d) (closeHandle Γ (env.of d) s f d) f
      (if (env.of d).ok .closeFstat then (s.descs d).fd.map (fun fd => (s.fs.inodes fd.ino).attr) else none)).fs i
        (lowers || !b₀.fsetid && (s.descs d).flushes Γ (env.of d) m) := by
    generalize closeHandle Γ (env.of d) s f d = s₁ at hfiles hfs
    have hino : s₁.fs.inoOf (s₁.files f).filename = some i := by
      rw [hfiles]
      rcases hfs with ⟨hfs, -⟩ | ⟨fd, chunks, data, -, -, hfs, -⟩
      · rw [hfs]
        exact h.ino
      · rw [hfs, Backing.inoOf_setData]
        exact h.ino
    rcases hfs with ⟨hfs, hquiet⟩ | ⟨fd, chunks, data, hfd, hwriting, hfs, hflushes⟩
    · rw [hquiet, Bool.and_false]
      unfold restoreTimes
      rw [hino]
      split
      · rename_i st i' hst hi'
        cases hi'
        split
        · split at hst
          · obtain ⟨fd, hfd, rfl⟩ := Option.map_eq_some_iff.mp hst
            rw [State.fs_withFs, hfs]
            refine h.touched.trans (touched_utime _ _ _ ?_)
            rw [h.attached d List.mem_cons_self fd hfd]
          · cases hst
        · rw [hfs, Bool.or_false]
          exact h.touched
      · rw [hfs, Bool.or_false]
        exact h.touched
    · obtain ⟨htype, hfstat, hutime⟩ := h.writing d List.mem_cons_self chunks hwriting
      have hfdi := h.attached d List.mem_cons_self fd hfd
      rw [if_pos hfstat, hfd, Option.map_some, hfdi]
      unfold restoreTimes
      rw [hino]
      dsimp only
      rw [hfiles, if_pos ⟨htype, hutime⟩, State.fs_withFs, hfs, hfdi, hflushes, Bool.and_true, ← h.touched.fsetid]
      exact h.touched.trans (touched_setData _ _ _ _ rfl)
  unfold directClose
  dsimp only
  generalize restoreTimes (env.of d) (closeHandle Γ (env.of d) s f d) f _ = t at htouched
  split
  · exact htouched
  · exact htouched

/-- Closing one descriptor: the module of no descriptor is open that was not, and its own is closed. -/
theorem State.Closing.step (h : s.Closing env f i m (d :: ds) b₀ lowers) :
    (fileClose Γ (directClose Γ (env.of d) s f d) d).Closing env f i m ds b₀
        (lowers || !b₀.fsetid && (s.descs d).flushes Γ (env.of d) m) ∧
      (((fileClose Γ (directClose Γ (env.of d) s f d) d).descs d).handle = none ∧
        ∀ d', d' ≠ d → (fileClose Γ (directClose Γ (env.of d) s f d) d).descs d' = s.descs d') := by
  have htouched := touched_directClose (Γ := Γ) h
  have hbooks := books_directClose Γ (env.of d) s f d
  obtain ⟨desc, hnone, ⟨hfiles, hdescs⟩, -⟩ := closeHandle_cases (Γ := Γ) (d := d) (env.of d) h.compressor
  have hname : ((directClose Γ (env.of d) s f d).files f).filename = (s.files f).filename := congrFun (congrArg Books.filename hbooks) f
  have haccesses : ((directClose Γ (env.of d) s f d).files f).accesses = (s.files f).accesses := congrFun (congrArg Books.accesses hbooks) f
  have hrest : ((directClose Γ (env.of d) s f d).files f).compressor = (s.files f).compressor ∧
      ((s.files f).accesses ≠ 1 → ((directClose Γ (env.of d) s f d).files f).type = (s.files f).type) ∧
      (directClose Γ (env.of d) s f d).descs = Function.update s.descs d desc := by
    unfold directClose
    dsimp only
    obtain ⟨hfiles', hdescs'⟩ := files_restoreTimes (f := f) (env.of d) (closeHandle Γ (env.of d) s f d)
      (if (env.of d).ok .closeFstat then (s.descs d).fd.map (fun fd => (s.fs.inodes fd.ino).attr) else none)
    rw [hfiles'.trans hfiles]
    split
    · rename_i hone
      refine ⟨?_, fun hn => absurd hone hn, hdescs'.trans hdescs⟩
      rw [State.files_modFile, if_pos rfl, hfiles'.trans hfiles]
    · exact ⟨by rw [hfiles'.trans hfiles], fun _ => by rw [hfiles'.trans hfiles], hdescs'.trans hdescs⟩
  generalize directClose Γ (env.of d) s f d = s₁ at htouched hname haccesses hrest
  obtain ⟨hcomp, htype, hdescs₁⟩ := hrest
  have hself : ((fileClose Γ s₁ d).descs d).handle = none := by
    simp only [fileClose, State.descs_modDesc, State.descs_assert, hdescs₁, if_pos, Function.update_self]
    exact hnone
  have hother : ∀ d', d' ≠ d → (fileClose Γ s₁ d).descs d' = s.descs d' := by
    intro d' e
    simp only [fileClose, State.descs_modDesc, State.descs_assert, hdescs₁, if_neg e, Function.update_of_ne e]
  have hfd : ∀ d' fd, ((fileClose Γ s₁ d).descs d').fd = some fd → (s.descs d').fd = some fd := by
    intro d' fd hfd
    by_cases e : d' = d
    · subst e
      simp [fileClose] at hfd
    · rwa [hother d' e] at hfd
  have hfsame : (fileClose Γ s₁ d).fs = s₁.fs := by simp [fileClose]
  have hfilesame : (fileClose Γ s₁ d).files = s₁.files := by simp [fileClose]
  have hcounted := h.counted
  rw [List.length_cons] at hcounted
  refine ⟨⟨?_, ?_, ?_, ?_, ?_, ?_⟩, hself, hother⟩
  · rw [hfsame]
    exact htouched
  · rw [hfsame, hfilesame, hname, htouched.inoOf, ← h.touched.inoOf]
    exact h.ino
  · rw [hfilesame, hcomp]
    exact h.compressor
  · intro d' hd' fd hsome
    exact h.attached d' (List.mem_cons_of_mem d hd') fd (hfd d' fd hsome)
  · intro d' hd' chunks hwriting
    by_cases e : d' = d
    · rw [e, hself] at hwriting
      cases hwriting
    · rw [hother d' e] at hwriting
      have hmany : (s.files f).accesses ≠ 1 := by
        have hpos := List.length_pos_of_mem hd'
        omega
      rw [hfilesame, htype hmany]
      exact h.writing d' (List.mem_cons_of_mem d hd') chunks hwriting
  · rw [hfilesame, haccesses]
    omega

/-- A module that is not open has nothing to write. -/
theorem flushes_of_handle_none {desc : Desc} (hnone : desc.handle = none) : desc.flushes Γ env m = false := by
  unfold Desc.flushes
  rw [hnone]

/-- Closing them all. -/
theorem State.Closing.all (ds : List Nat) {s : State} {lowers : Bool} (h : s.Closing env f i m ds b₀ lowers) :
    b₀.Touched (closeAll Γ env s f ds).fs i (lowers || !b₀.fsetid && ds.any (fun d => (s.descs d).flushes Γ (env.of d) m)) ∧
      ∀ d, ((closeAll Γ env s f ds).descs d).handle = if d ∈ ds then none else (s.descs d).handle := by
  induction ds generalizing s lowers with
  | nil =>
    refine ⟨?_, fun _ => by simp [closeAll]⟩
    rw [List.any_nil, Bool.and_false, Bool.or_false]
    exact h.touched
  | cons d ds ih =>
    obtain ⟨hnext, hself, hother⟩ := h.step (Γ := Γ)
    obtain ⟨htouched, hall⟩ := ih hnext
    refine ⟨?_, fun d' => ?_⟩
    · -- a descriptor that is in the list once more has nothing left to write
      have hany : ((s.descs d).flushes Γ (env.of d) m ||
          ds.any (fun d' => ((fileClose Γ (directClose Γ (env.of d) s f d) d).descs d').flushes Γ (env.of d') m)) =
            (d :: ds).any (fun d' => (s.descs d').flushes Γ (env.of d') m) := by
        rw [List.any_cons]
        cases hflushes : (s.descs d).flushes Γ (env.of d) m with
        | true => rfl
        | false =>
          refine congrArg₂ (· || ·) rfl (congrArg ds.any (funext fun d' => ?_))
          by_cases e : d' = d
          · rw [e, hflushes, flushes_of_handle_none hself]
          · rw [hother d' e]
      rw [closeAll, ← hany, Bool.and_or_distrib_left, ← Bool.or_assoc]
      exact htouched
    · rw [closeAll, hall]
      by_cases e : d' = d
      · rw [e, hself, ite_self, if_pos List.mem_cons_self]
      · rw [hother d' e]
        simp [e]

end Close

/-! ## `do_decompress` -/

section Decompress

variable {s t : State} {f : Nat}

theorem handle_reopenAll (temp : Nat) (ds : List Nat) (s : State) (d : Nat) :
    ((reopenAll env s temp ds).descs d).handle = (s.descs d).handle := by
  rw [descs_reopenAll]
  split <;> rfl

/-- No descriptor of the file has its module open. -/
def State.Shut (s : State) (f : Nat) : Prop := ∀ d ∈ (s.files f).head, (s.descs d).handle = none

theorem State.Shut.not_unwritten (h : s.Shut f) : ¬s.Unwritten f := by
  rintro ⟨d, hd, chunks, hwriting⟩
  rw [h d hd] at hwriting
  cases hwriting

theorem copyOwnerMode_eq (hcopies : env.Copies) (st a : Attr) :
    copyOwnerMode env st a = { a with uid := st.uid, gid := st.gid, mode := st.mode } := by
  unfold copyOwnerMode
  simp only [hcopies.1, hcopies.2.1, if_true]

/-- The temporary file takes the place of the path, or stays beside it. -/
theorem doDecompressInstall_replaced (hp : p ≠ fuseattrName p) (hcopies : env.Copies) {content : Bytes} {a : Attr} (st : Attr) (size : Nat)
    (hname : (t.files f).filename = p) (hfs : t.fs = b.alloc content a)
    (hst : ∀ i, b.inoOf p = some i → st.inSeconds = (b.inodes i).attr.inSeconds) (hshut : t.Shut f) :
    b.Replaced (doDecompressInstall env t f b.next st size).1.fs p ∧ (doDecompressInstall env t f b.next st size).1.Shut f := by
  have hhandle : ∀ d, ((reopenAll env t b.next (t.files f).head).descs d).handle = (t.descs d).handle :=
    handle_reopenAll b.next (t.files f).head t
  have hshut' : ∀ u : State, (u.files f).head = (t.files f).head →
      u.descs = (reopenAll env t b.next (t.files f).head).descs → u.Shut f := by
    intro u hhead hdescs d hd
    rw [hdescs, hhandle]
    exact hshut d (hhead ▸ hd)
  unfold doDecompressInstall
  simp only [hcopies.2.2, Bool.true_eq_false, if_false]
  split
  · refine ⟨?_, hshut' _ ?_ rfl⟩
    · rw [State.fs_withFs, fs_reopenAll, hfs]
      refine replaced_of_same (fun _ => rfl) (Nat.le_succ _) (fun j hj => ?_)
      rw [attr_setAttr, if_neg (Nat.ne_of_lt hj), Backing.inodes_alloc, if_neg (Nat.ne_of_lt hj)]
    · rw [State.files_withFs, files_reopenAll]
  · refine ⟨?_, hshut' _ ?_ rfl⟩
    · simp only [State.fs_modFile, State.fs_withFs, State.files_withFs, files_reopenAll, fs_reopenAll, hfs, hname]
      refine replaced_install hp (fun q => ?_) (Nat.lt_succ_self _) (fun j hj => ?_) (fun i hi => ?_)
      · unfold Backing.utime
        rw [Backing.find_setAttr, Backing.find_setName]
        rfl
      · unfold Backing.utime
        rw [attr_setAttr, if_neg (Nat.ne_of_lt hj), Backing.inodes_setName, attr_setAttr, if_neg (Nat.ne_of_lt hj),
          Backing.inodes_alloc, if_neg (Nat.ne_of_lt hj)]
      · unfold Backing.utime
        rw [attr_setAttr, if_pos rfl, Backing.inodes_setName, attr_setAttr, if_pos rfl, copyOwnerMode_eq hcopies, ← hst i hi]
        simp only [Attr.inSeconds, wholeSeconds_idem]
    · simp [files_reopenAll]

/-- Nothing has changed that the attributes depend on. -/
structure State.Unmoved (s t : State) (f : Nat) : Prop where
  fs : t.fs = s.fs
  descs : t.descs = s.descs
  head : (t.files f).head = (s.files f).head
  filename : (t.files f).filename = (s.files f).filename
  accesses : (t.files f).accesses = (s.files f).accesses
  type : (t.files f).type = (s.files f).type

theorem unmoved_flushFileCache (s : State) (f : Nat) : s.Unmoved (flushFileCache s f) f := by
  unfold flushFileCache
  split
  · exact ⟨rfl, rfl, rfl, rfl, rfl, rfl⟩
  · exact ⟨rfl, rfl, by simp, by simp, by simp, by simp⟩

theorem State.Unmoved.modFile {g : FileT → FileT} (h : s.Unmoved t f) (hhead : (g (t.files f)).head = (t.files f).head)
    (hname : (g (t.files f)).filename = (t.files f).filename) (haccesses : (g (t.files f)).accesses = (t.files f).accesses)
    (htype : (g (t.files f)).type = (t.files f).type) : s.Unmoved (t.modFile f g) f where
  fs := h.fs
  descs := h.descs
  head := by
    rw [State.files_modFile, if_pos rfl, hhead]
    exact h.head
  filename := by
    rw [State.files_modFile, if_pos rfl, hname]
    exact h.filename
  accesses := by
    rw [State.files_modFile, if_pos rfl, haccesses]
    exact h.accesses
  type := by
    rw [State.files_modFile, if_pos rfl, htype]
    exact h.type

theorem State.Unmoved.assert (h : s.Unmoved t f) (Γ : Config) (c : Bool) : s.Unmoved (t.assert Γ c) f := by
  obtain ⟨hfs, hdescs, hhead, hname, haccesses, htype⟩ := h
  refine ⟨?_, ?_, ?_, ?_, ?_, ?_⟩
  · rw [State.fs_assert, hfs]
  · rw [State.descs_assert, hdescs]
  · rw [State.files_assert, hhead]
  · rw [State.files_assert, hname]
  · rw [State.files_assert, haccesses]
  · rw [State.files_assert, htype]

/-- A file with a descriptor that holds data is a file that is being written to. -/
def State.Typed (s : State) (f : Nat) : Prop := s.Unwritten f → (s.files f).type = .write

theorem State.Unmoved.typed (h : s.Unmoved t f) (hs : s.Typed f) : t.Typed f := by
  rintro ⟨d, hd, chunks, hwriting⟩
  rw [h.type]
  rw [h.head] at hd
  rw [h.descs] at hwriting
  exact hs ⟨d, hd, chunks, hwriting⟩

/-- What `do_decompress` relies on to close all descriptors. -/
theorem State.Unmoved.closing {i : Nat} (h : s.Unmoved t f) (hino : s.fs.inoOf (s.files f).filename = some i)
    {m : Module} (hcomp : (t.files f).compressor = some m) (hattached : s.Attached f) (htyped : s.Typed f)
    (hwriting : s.KeepsTimes env f) (hcounted : ((s.files f).head.length : Int) ≤ (s.files f).accesses) :
    t.Closing env f i m (t.files f).head s.fs false where
  touched := by
    rw [h.fs]
    exact Backing.Touched.refl _ _
  ino := by
    rw [h.fs, h.filename]
    exact hino
  compressor := hcomp
  attached := by
    intro d hd fd hfd
    rw [h.head] at hd
    rw [h.descs] at hfd
    exact (Option.some.inj (hino.symm.trans (hattached d hd fd hfd))).symm
  writing := by
    intro d hd chunks hw
    rw [h.head] at hd
    rw [h.descs] at hw
    have hunwritten : s.Unwritten f := ⟨d, hd, chunks, hw⟩
    rw [h.type]
    exact ⟨htyped hunwritten, hwriting d hd (pending_iff.mpr ⟨chunks, hw⟩)⟩
  counted := by
    rw [h.head, h.accesses]
    exact hcounted

theorem compressor_flushFileCache (s : State) (f : Nat) : ((flushFileCache s f).files f).compressor = (s.files f).compressor := by
  unfold flushFileCache
  split
  · rfl
  · simp

/-- A descriptor that has something to write holds unwritten data. -/
theorem unwritten_of_flushes {m : Module} (h : (s.files f).head.any (fun d => (s.descs d).flushes Γ (env.of d) m) = true) :
    s.Unwritten f := by
  obtain ⟨d, hd, hflushes⟩ := List.any_eq_true.mp h
  unfold Desc.flushes at hflushes
  split at hflushes
  · rename_i chunks _ hhandle _
    exact ⟨d, hd, chunks, hhandle⟩
  · cases hflushes

/-- `do_decompress` leaves the path an inode with the attributes it had, but for the set-id bits when a descriptor has something to
write. -/
theorem doDecompress_recoded (hp : p ≠ fuseattrName p) (hcopies : env.Copies) (hname : (s.files f).filename = p)
    (hattached : s.Attached f) (htyped : s.Typed f) (hwriting : s.KeepsTimes env f)
    (hcounted : ((s.files f).head.length : Int) ≤ (s.files f).accesses) :
    ∃ l, s.fs.Recoded (doDecompress Γ env s f).1.fs p l ∧ (doDecompress Γ env s f).1.Typed f ∧
      (l = true → s.fs.fsetid = false ∧ s.Unwritten f) ∧
      ((doDecompress Γ env s f).2 = true → ∀ src m n, s.fs.inoOf p = some src → parse Γ (s.data src) = some (m, n) →
        l = (!s.fs.fsetid && (s.files f).head.any (fun d => (s.descs d).flushes Γ (env.of d) ((s.files f).compressor.getD m)))) := by
  have hstay : ∀ {t} {res : Bool}, s.Unmoved t f →
      (res = true → ∀ src m n, s.fs.inoOf p = some src → parse Γ (s.data src) ≠ some (m, n)) →
        ∃ l, s.fs.Recoded t.fs p l ∧ t.Typed f ∧ (l = true → s.fs.fsetid = false ∧ s.Unwritten f) ∧
          (res = true → ∀ src m n, s.fs.inoOf p = some src → parse Γ (s.data src) = some (m, n) →
            l = (!s.fs.fsetid &&
              (s.files f).head.any (fun d => (s.descs d).flushes Γ (env.of d) ((s.files f).compressor.getD m)))) := by
    intro t res h hraw
    rw [h.fs]
    exact ⟨false, Backing.Replaced.refl _ _, h.typed htyped, (fun hl => by cases hl),
      fun hres src m n hsrc hparse => absurd hparse (hraw hres src m n hsrc)⟩
  unfold doDecompress
  split
  · exact hstay ⟨rfl, rfl, rfl, rfl, rfl, rfl⟩ (fun hn => by cases hn)
  split
  · exact hstay ⟨rfl, rfl, rfl, rfl, rfl, rfl⟩ (fun hn => by cases hn)
  dsimp only
  have h₁ := unmoved_flushFileCache s f
  have hcomp₁ := compressor_flushFileCache s f
  generalize flushFileCache s f = s₁ at h₁ hcomp₁ ⊢
  split
  · exact hstay h₁ (fun hn => by cases hn)
  · rename_i src hsrc
    have hino : s.fs.inoOf (s.files f).filename = some src := by
      split at hsrc
      · rw [h₁.fs, h₁.filename] at hsrc
        exact hsrc
      · cases hsrc
    have hinop : s.fs.inoOf p = some src := hname ▸ hino
    have hdata : s₁.data src = s.data src := by
      unfold State.data
      rw [h₁.fs]
    split
    · exact hstay h₁ (fun hn => by cases hn)
    split
    · rename_i hnone
      have h₂ : s.Unmoved (s₁.modFile f (fun file => { file with compressor := none, size := -1 })) f :=
        h₁.modFile rfl rfl rfl rfl
      refine hstay h₂ (fun _ src' m n hsrc' hparse => ?_)
      cases hinop.symm.trans hsrc'
      rw [hdata] at hnone
      rw [hnone] at hparse
      cases hparse
    · rename_i m size hparse
      rw [hdata] at hparse
      -- the module is noted, and then every descriptor is closed
      have h₂ : s.Unmoved ((s₁.modFile f (fun file => { file with compressor := some (file.compressor.getD m) })).assert Γ
          (decide (((s₁.modFile f (fun file => { file with compressor := some (file.compressor.getD m) })).files f).compressor.getD m
            = m))) f := (h₁.modFile rfl rfl rfl rfl).assert Γ _
      have hcomp : (((s₁.modFile f (fun file => { file with compressor := some (file.compressor.getD m) })).assert Γ
          (decide (((s₁.modFile f (fun file => { file with compressor := some (file.compressor.getD m) })).files f).compressor.getD m
            = m))).files f).compressor = some ((s.files f).compressor.getD m) := by
        rw [State.files_assert, State.files_modFile, if_pos rfl, hcomp₁]
      generalize State.assert Γ _ _ = s₂ at h₂ hcomp ⊢
      obtain ⟨htouched, hhandle⟩ := (h₂.closing hino hcomp hattached htyped hwriting hcounted).all (Γ := Γ)
      rw [Bool.false_or, h₂.descs] at htouched
      have hlowers : (!s.fs.fsetid &&
          (s.files f).head.any (fun d => (s.descs d).flushes Γ (env.of d) ((s.files f).compressor.getD m))) = true →
            s.fs.fsetid = false ∧ s.Unwritten f := by
        intro hl
        rw [Bool.and_eq_true, Bool.not_eq_true'] at hl
        exact ⟨hl.1, unwritten_of_flushes hl.2⟩
      have hbooks := books_closeAll Γ env s₂ f (s₂.files f).head
      have hhead : ((closeAll Γ env s₂ f (s₂.files f).head).files f).head = (s₂.files f).head :=
        congrFun (congrArg Books.head hbooks) f
      have hshut : (closeAll Γ env s₂ f (s₂.files f).head).Shut f := by
        intro d hd
        rw [hhead] at hd
        rw [hhandle, if_pos hd]
      have hname' : ((closeAll Γ env s₂ f (s₂.files f).head).files f).filename = p :=
        (congrFun (congrArg Books.filename hbooks) f).trans (h₂.filename.trans hname)
      generalize closeAll Γ env s₂ f (s₂.files f).head = s₃ at htouched hshut hname' ⊢
      rw [h₂.head] at htouched
      have hrecoded := htouched.recoded hinop
      have hdone : ∀ {t : State} {res : Bool}, s₃.fs.Replaced t.fs p → t.Shut f →
          ∃ l, s.fs.Recoded t.fs p l ∧ t.Typed f ∧ (l = true → s.fs.fsetid = false ∧ s.Unwritten f) ∧
            (res = true → ∀ src m n, s.fs.inoOf p = some src → parse Γ (s.data src) = some (m, n) →
              l = (!s.fs.fsetid &&
                (s.files f).head.any (fun d => (s.descs d).flushes Γ (env.of d) ((s.files f).compressor.getD m)))) := by
        intro t res hreplaced hshut'
        refine ⟨_, hrecoded.then hreplaced, fun hu => absurd hu hshut'.not_unwritten, hlowers, fun _ src' m' n hsrc' hparse' => ?_⟩
        cases hinop.symm.trans hsrc'
        rw [hparse] at hparse'
        cases hparse'
        rfl
      split
      · exact hdone (Backing.Replaced.refl _ _) hshut
      split
      · exact hdone (Backing.Replaced.refl _ _) hshut
      have hack : (s₃.modFile f acknowledgeCancel).Shut f ∧ ((s₃.modFile f acknowledgeCancel).files f).filename = p := by
        have hfields : (acknowledgeCancel (s₃.files f)).head = (s₃.files f).head ∧
            (acknowledgeCancel (s₃.files f)).filename = (s₃.files f).filename := by
          unfold acknowledgeCancel
          split <;> exact ⟨rfl, rfl⟩
        refine ⟨fun d hd => ?_, ?_⟩
        · rw [State.files_modFile, if_pos rfl, hfields.1] at hd
          exact hshut d hd
        · rw [State.files_modFile, if_pos rfl, hfields.2]
          exact hname'
      split
      · exact hdone (Backing.Replaced.refl _ _) hack.1
      split
      · exact hdone (Backing.Replaced.refl _ _) hack.1
      · rename_i content _ _
        obtain ⟨hinstall, hshut'⟩ := doDecompressInstall_replaced hp hcopies (b := s₃.fs)
          (t := (s₃.modFile f acknowledgeCancel).withFs (fun b => b.alloc content (tempAttr Γ b)))
          (s₃.fs.inodes src).attr content.length hack.2 rfl (fun i hi => by
            rw [htouched.inoOf, hinop] at hi
            cases hi
            rfl) hack.1
        exact hdone hinstall hshut'

/-- Where no set-id bit is at stake, `do_decompress` leaves the path an inode with the attributes it had. -/
theorem doDecompress_replaced (hp : p ≠ fuseattrName p) (hcopies : env.Copies) (hname : (s.files f).filename = p)
    (hattached : s.Attached f) (htyped : s.Typed f) (hwriting : s.KeepsTimes env f) (hmode : s.KeepsMode f)
    (hcounted : ((s.files f).head.length : Int) ≤ (s.files f).accesses) :
    s.fs.Replaced (doDecompress Γ env s f).1.fs p ∧ (doDecompress Γ env s f).1.Typed f := by
  obtain ⟨l, hrecoded, htyped', hlowers, -⟩ := doDecompress_recoded (Γ := Γ) hp hcopies hname hattached htyped hwriting hcounted
  refine ⟨hrecoded.replaced (fun hl => ?_), htyped'⟩
  obtain ⟨hno, hunwritten⟩ := hlowers hl
  rcases hmode hunwritten with hset | hkept
  · rw [hno] at hset
    cases hset
  · rw [hname] at hkept
    exact hkept

end Decompress

/-! ## `do_compress` -/

section Compress

variable {s : State} {job : Job}

/-- The compressed file has the name, with the attributes that `do_compress` found when it started. -/
theorem fs_doCompressInstall (hutime : env.ok .utime = true) (got : Bytes) (hname : (s.files job.file).filename = p) :
    (doCompressInstall Γ env s job got).fs =
      ((s.fs.alloc (header job.compressor job.size ++ (Γ.codec job.compressor).pack got)
        (copyOwnerMode env job.attr (tempAttr Γ s.fs))).setName p s.fs.next).utime s.fs.next job.attr := by
  unfold doCompressInstall
  simp only [hutime, if_true, State.fs_withFs, fs_discard, State.fs_modFile, State.files_withFs, hname]

/-- The compressed file takes the place of the path, whose attributes are still those `do_compress` found when it started. -/
theorem doCompressInstall_replaced (hp : p ≠ fuseattrName p) (hcopies : env.Copies) (got : Bytes)
    (hname : (s.files job.file).filename = p)
    (hattr : (s.fs.attrOf p).map Attr.inSeconds = some job.attr.inSeconds) :
    s.fs.Replaced (doCompressInstall Γ env s job got).fs p := by
  rw [fs_doCompressInstall hcopies.2.2 got hname]
  unfold Backing.utime
  refine replaced_install hp (fun q => ?_) (Nat.lt_succ_self _) (fun j hj => ?_) (fun i hi => ?_)
  · rw [Backing.find_setAttr, Backing.find_setName]
    rfl
  · rw [attr_setAttr, if_neg (Nat.ne_of_lt hj), Backing.inodes_setName, Backing.inodes_alloc, if_neg (Nat.ne_of_lt hj)]
  · rw [Backing.attrOf, hi, Option.map_some, Option.map_some, Option.some.injEq] at hattr
    rw [attr_setAttr, if_pos rfl, Backing.inodes_setName, Backing.inodes_alloc, if_pos rfl, copyOwnerMode_eq hcopies, hattr]
    simp only [Attr.inSeconds, wholeSeconds_idem]

/-- The second part of `do_compress` leaves the path alone unless it puts its file in place. -/
theorem doCompressEnd_replaced (hp : p ≠ fuseattrName p) (hname : (s.files job.file).filename = p)
    (hcareful : Installs env s job →
      env.Copies ∧ (s.fs.attrOf p).map Attr.inSeconds = some job.attr.inSeconds) :
    s.fs.Replaced (doCompressEnd Γ env s job (s.data job.ino) true).1.fs p := by
  unfold doCompressEnd
  dsimp only
  split
  · exact Backing.Replaced.refl _ _
  · rename_i hgoes
    split
    · exact Backing.Replaced.refl _ _
    · rename_i hclose
      split
      · exact Backing.Replaced.refl _ _
      · rename_i hrename
        rw [not_or, not_or, Bool.and_true] at hgoes
        obtain ⟨hcompress, hsize, hcancel⟩ := hgoes
        obtain ⟨hcopies, hattr⟩ := hcareful ⟨by simpa using hcompress, by simpa using hclose, by simpa using hrename,
          not_not.mp hsize, by simpa using hcancel⟩
        exact doCompressInstall_replaced (s := s.modFile job.file (fun file => { file with status := file.status.endCompressing }))
          hp hcopies (s.data job.ino) (by rw [State.files_modFile, if_pos rfl]; exact hname) hattr

end Compress

end FuseCompress
