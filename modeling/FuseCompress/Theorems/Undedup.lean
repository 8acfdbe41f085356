import FuseCompress.Lemmas.Frames
import FuseCompress.Theorems.Overlay

/-!
# Undeduplication

`do_undedup` gives a name a private copy of the file. `doUndedup_cases` says once where it can stop and what it leaves of the backing
directory then. `undedup_atomic_iff`: the name keeps its content and its attributes, and the other names theirs, exactly when no call
fails from the removal of the name on, and the modification time is a whole number of seconds.
-/

namespace FuseCompress

variable {Γ : Config} {env : Env} {s : State} {b : Backing} {p : Filename} {f i : Nat}

/-! ## Where it can stop -/

/-- `do_undedup` gives up before it removes the name. -/
def undedupRefuses (Γ : Config) (env : Env) (size : Nat) : Bool :=
  !env.ok .statvfs || !enoughSpace Γ env (size : Int) || !env.ok .mkstemp || !env.ok .copy || !env.ok .unlink

/-- The attributes `do_undedup` gives to the copy. -/
def undedupAttr (env : Env) (b : Backing) (p : Filename) (i : Nat) : Attr :=
  (if env.ok .lstatAttr then b.attrOf (fuseattrName p) else none).getD (b.inodes i).attr

/-- The backing directory with the copy. -/
def undedupCopied (Γ : Config) (env : Env) (b : Backing) (p : Filename) (i : Nat) : Backing :=
  b.alloc (b.inodes i).data (copyOwnerMode env (undedupAttr env b p i) (tempAttr Γ b))

/-- The copy has the name. -/
def undedupReplaced (Γ : Config) (env : Env) (b : Backing) (p : Filename) (i : Nat) : Backing :=
  ((undedupCopied Γ env b p i).dropName p).setName p b.next

/-- Where a call of `do_undedup` ends, and what it leaves of the backing directory. -/
inductive UndedupEnd (Γ : Config) (env : Env) (b : Backing) (p : Filename) (i : Nat) : Backing → Bool → Prop where
  /-- Before the name is removed. -/
  | kept (h : undedupRefuses Γ env (b.inodes i).data.length = true) : UndedupEnd Γ env b p i b false
  | copied (h : undedupRefuses Γ env (b.inodes i).data.length = true) :
      UndedupEnd Γ env b p i (undedupCopied Γ env b p i) false
  /-- The copy cannot be renamed. -/
  | lost (h : undedupRefuses Γ env (b.inodes i).data.length = false) (hrename : env.ok .rename = false) :
      UndedupEnd Γ env b p i ((undedupCopied Γ env b p i).dropName p) false
  /-- The times cannot be set. -/
  | untimed (h : undedupRefuses Γ env (b.inodes i).data.length = false) (hrename : env.ok .rename = true)
      (hutime : env.ok .utime = false) : UndedupEnd Γ env b p i (undedupReplaced Γ env b p i) false
  | done (h : undedupRefuses Γ env (b.inodes i).data.length = false) (hrename : env.ok .rename = true)
      (hutime : env.ok .utime = true) :
      UndedupEnd Γ env b p i (unlinkAttr env ((undedupReplaced Γ env b p i).utime b.next (undedupAttr env b p i)) p) true

theorem fs_dedupDiscard (s : State) (f : Nat) : (dedupDiscard s f).fs = s.fs := by
  unfold dedupDiscard
  split
  · rfl
  · dsimp only
    split <;> rfl

theorem doUndedup_cases (hlstat : env.ok .lstat = true) (hi : s.fs.inoOf (s.files f).filename = some i)
    (hlinks : 2 ≤ s.fs.nlink i) :
    UndedupEnd Γ env s.fs (s.files f).filename i (doUndedup Γ env s f).1.fs (doUndedup Γ env s f).2 := by
  have hlinks' : ¬s.fs.nlink i < 2 := by omega
  have hfs := fs_dedupDiscard s f
  unfold doUndedup
  simp only [hlstat, if_true, hi, hlinks', if_false]
  generalize dedupDiscard s f = s₁ at hfs ⊢
  have hcopied : (s₁.withFs (fun b => b.alloc (b.inodes i).data
      (copyOwnerMode env (undedupAttr env s.fs (s.files f).filename i) (tempAttr Γ b)))).fs =
        undedupCopied Γ env s.fs (s.files f).filename i := by
    simp only [State.withFs, hfs, undedupCopied]
  simp only [undedupAttr, hfs] at hcopied ⊢
  generalize hs₂ : s₁.withFs (fun b => b.alloc (b.inodes i).data (copyOwnerMode env
    ((if env.ok .lstatAttr then s.fs.attrOf (fuseattrName (s.files f).filename) else none).getD (s.fs.inodes i).attr)
      (tempAttr Γ b))) = s₂ at hcopied ⊢
  split
  · rename_i hstatvfs
    exact .kept (by simp [undedupRefuses, hstatvfs])
  · split
    · rename_i hspace
      exact .kept (by unfold State.data at hspace; simp [undedupRefuses, hspace])
    · split
      · rename_i hcopy
        have hrefuses : undedupRefuses Γ env (s.fs.inodes i).data.length = true := by
          rcases hcopy with h | h <;> simp [undedupRefuses, h]
        rw [show s₁.fs = s.fs from hfs]
        exact .kept hrefuses
      · rename_i hstatvfs hspace hcopy
        rw [not_or, Bool.not_eq_false, Bool.not_eq_false] at hcopy
        rw [Bool.not_eq_true, Bool.not_eq_false'] at hspace
        split
        · rename_i hunlink
          rw [hcopied]
          exact .copied (by simp [undedupRefuses, hunlink])
        · rename_i hunlink
          have hrefuses : undedupRefuses Γ env (s.fs.inodes i).data.length = false := by
            unfold State.data at hspace
            simp only [Bool.not_eq_false] at hstatvfs hunlink
            simp [undedupRefuses, hstatvfs, hspace, hcopy, hunlink]
          -- the name is gone from here on
          simp only [State.withFs, hcopied]
          split
          · rename_i hrename
            exact .lost hrefuses hrename
          · rename_i hrename
            rw [Bool.not_eq_false] at hrename
            split
            · rename_i hutime
              exact .untimed hrefuses hrename hutime
            · rename_i hutime
              rw [Bool.not_eq_false] at hutime
              exact .done hrefuses hrename hutime

/-! ## What it leaves -/

/-- The name has the content it had, and the attributes; when the call has succeeded it shares them with nobody and needs no
attribute file. The other names of the inode are as before. -/
structure Undeduped (Γ : Config) (b b' : Backing) (p : Filename) (i : Nat) (ok : Bool) : Prop where
  content : ∃ j, b'.inoOf p = some j ∧ (b'.inodes j).data = (b.inodes i).data ∧ (ok = true → b'.nlink j = 1)
  attributes : visible Γ b' p = visible Γ b p
  attrFile : ok = true → b'.find (fuseattrName p) = none
  others : ∀ q, q ≠ p → b.find q = some (.reg i) → b'.find q = some (.reg i) ∧ b'.inodes i = b.inodes i

/-- The names of a backing directory refer to inodes that exist, and an attribute file is a regular file with no other name. -/
structure Backing.Paired (b : Backing) : Prop where
  exists_inode : ∀ p i, (p, Node.reg i) ∈ b.names → i < b.next
  attrFile : ∀ p n, b.find (fuseattrName p) = some n → ∃ j, n = .reg j ∧ b.nlink j < 2

/-- The attributes that are shown of the name. -/
def shownAttr (b : Backing) (p : Filename) (i : Nat) : Attr := (b.attrOf (fuseattrName p)).getD (b.inodes i).attr

/-- The copy has the owner, the group and the mode that were shown, and the given time is the time that was shown. Where `fchown` or
`fchmod` fails, those of a temporary file must be the right ones. -/
structure CopyCarries (Γ : Config) (env : Env) (b : Backing) (p : Filename) (i mtime : Nat) : Prop where
  owner : (if env.ok .fchown then ((undedupAttr env b p i).uid, (undedupAttr env b p i).gid) else (Γ.uid, Γ.gid)) =
    ((shownAttr b p i).uid, (shownAttr b p i).gid)
  mode : (if env.ok .fchmod then (undedupAttr env b p i).mode else 0o100600) = (shownAttr b p i).mode
  mtime : mtime = (shownAttr b p i).mtime

/-- The calls on which the name depends: either the copy is not made, or it can be renamed, and carries the attributes; `utime`,
which knows whole seconds only, sets the time, or an attribute file goes on to show it. -/
def UndedupSafe (Γ : Config) (env : Env) (b : Backing) (p : Filename) (i : Nat) : Prop :=
  env.ok .lstat = true ∧
    (undedupRefuses Γ env (b.inodes i).data.length = true ∨
      env.ok .rename = true ∧
        if env.ok .utime then
          CopyCarries Γ env b p i (wholeSeconds (undedupAttr env b p i).mtime) ∧
            (env.ok .unlinkAttr = true ∨ b.find (fuseattrName p) = none)
        else b.find (fuseattrName p) ≠ none ∨ CopyCarries Γ env b p i b.clock)

theorem Backing.Paired.lt (hb : b.Paired) (h : b.inoOf p = some i) : i < b.next :=
  hb.exists_inode p i (Assoc.mem_of_find (Backing.inoOf_eq_some.mp h))

/-- There is no attribute file, or it is a regular file. -/
theorem Backing.Paired.attr_cases (hb : b.Paired) (p : Filename) :
    b.find (fuseattrName p) = none ∨ ∃ j, b.find (fuseattrName p) = some (.reg j) ∧ b.nlink j < 2 := by
  cases h : b.find (fuseattrName p) with
  | none => exact Or.inl rfl
  | some n =>
    obtain ⟨j, rfl, hj⟩ := hb.attrFile p n h
    exact Or.inr ⟨j, rfl, hj⟩

theorem shown_eq_iff {a a' : Attr} : a.shown = a'.shown ↔ (a.uid, a.gid) = (a'.uid, a'.gid) ∧ a.mode = a'.mode ∧ a.mtime = a'.mtime := by
  simp only [Attr.shown, Attr.mk.injEq, Prod.mk.injEq]
  tauto

/-- Where nobody else has the inode, the name is its only one. -/
theorem nlink_eq_one {j : Nat} {l : Assoc Filename Node} (hnames : b.names = (p, .reg j) :: l)
    (hl : ∀ q, (q, Node.reg j) ∉ l) : b.nlink j = 1 := by
  have hfilter : l.filter (fun e => e.2 = Node.reg j) = [] := by
    rw [List.filter_eq_nil_iff]
    rintro ⟨q, n⟩ he hn
    rw [decide_eq_true_eq] at hn
    exact hl q (hn ▸ he)
  unfold Backing.nlink Assoc.count
  rw [hnames, List.filter_cons_of_pos (by simp), hfilter]
  rfl

/-- The attributes that are shown once the copy has the name. -/
theorem visible_replaced (hd : Γ.dedupEnabled = true) (hb : b.Paired) {b' : Backing} {a : Attr}
    (hp : b'.inoOf p = some b.next) (ha : (b'.inodes b.next).attr = a) (hattr : b'.find (fuseattrName p) = b.find (fuseattrName p))
    (hother : ∀ j, j ≠ b.next → b'.inodes j = b.inodes j) :
    visible Γ b' p = some ((b.attrOf (fuseattrName p)).getD a).shown := by
  have hattrOf : b'.attrOf (fuseattrName p) = b.attrOf (fuseattrName p) := by
    have hino : b'.inoOf (fuseattrName p) = b.inoOf (fuseattrName p) := by unfold Backing.inoOf; rw [hattr]
    unfold Backing.attrOf
    rw [hino]
    cases hj : b.inoOf (fuseattrName p) with
    | none => rfl
    | some j => rw [Option.map_some, Option.map_some, hother j (Nat.ne_of_lt (hb.lt hj))]
  rw [visible_eq hd, hp, hattrOf, Option.map_some, ha]

theorem visible_before (hd : Γ.dedupEnabled = true) (hi : b.inoOf p = some i) : visible Γ b p = some (shownAttr b p i).shown := by
  rw [visible_eq hd, hi]
  rfl

/-- What the copy carries. -/
theorem copyCarries_iff (mtime : Nat) (a : Attr)
    (hu : a.uid = (copyOwnerMode env (undedupAttr env b p i) (tempAttr Γ b)).uid)
    (hg : a.gid = (copyOwnerMode env (undedupAttr env b p i) (tempAttr Γ b)).gid)
    (hm : a.mode = (copyOwnerMode env (undedupAttr env b p i) (tempAttr Γ b)).mode) (ht : a.mtime = mtime) :
    a.shown = (shownAttr b p i).shown ↔ CopyCarries Γ env b p i mtime := by
  have howner : (a.uid, a.gid) =
      if env.ok .fchown then ((undedupAttr env b p i).uid, (undedupAttr env b p i).gid) else (Γ.uid, Γ.gid) := by
    rw [hu, hg]
    unfold copyOwnerMode tempAttr
    split <;> split <;> rfl
  have hmode : a.mode = if env.ok .fchmod then (undedupAttr env b p i).mode else 0o100600 := by
    rw [hm]
    unfold copyOwnerMode tempAttr
    split <;> split <;> rfl
  rw [shown_eq_iff, howner, hmode, ht]
  exact ⟨fun h => ⟨h.1, h.2.1, h.2.2⟩, fun h => ⟨h.owner, h.mode, h.mtime⟩⟩

theorem find_undedupReplaced (Γ : Config) (env : Env) (b : Backing) (p : Filename) (i : Nat) (q : Filename) :
    (undedupReplaced Γ env b p i).find q = if q = p then some (.reg b.next) else b.find q := by
  unfold undedupReplaced undedupCopied
  rw [Backing.find_setName, Backing.find_dropName]
  split
  · rfl
  · rfl

theorem inodes_undedupReplaced (Γ : Config) (env : Env) (b : Backing) (p : Filename) (i j : Nat) :
    (undedupReplaced Γ env b p i).inodes j =
      if j = b.next then ⟨(b.inodes i).data, copyOwnerMode env (undedupAttr env b p i) (tempAttr Γ b)⟩ else b.inodes j :=
  Backing.inodes_alloc b _ _ j

theorem undeduped_kept (hd : Γ.dedupEnabled = true) (hb : b.Paired) (hi : b.inoOf p = some i) {b' : Backing}
    (hfind : ∀ q, b'.find q = b.find q) (hinodes : ∀ j, j < b.next → b'.inodes j = b.inodes j) :
    Undeduped Γ b b' p i false := by
  have hino : ∀ q, b'.inoOf q = b.inoOf q := by
    intro q
    unfold Backing.inoOf
    rw [hfind]
  refine ⟨⟨i, (hino p).trans hi, by rw [hinodes i (hb.lt hi)], (fun h => by cases h)⟩, ?_, (fun h => by cases h), ?_⟩
  · apply visible_congr hd (hino p) (hino _)
    rintro k (hk | hk)
    · rw [hinodes k (hb.lt hk)]
    · rw [hinodes k (hb.lt hk)]
  · intro q _ hq
    exact ⟨(hfind q).trans hq, hinodes i (hb.lt hi)⟩

/-- The copy has taken the name, with nothing but its attributes changed since. -/
structure Backing.TakenOver (Γ : Config) (env : Env) (b : Backing) (p : Filename) (i : Nat) (a : Attr) (b' : Backing) : Prop where
  names : b'.names = (undedupReplaced Γ env b p i).names
  copy : b'.inodes b.next = ⟨(b.inodes i).data, a⟩
  others : ∀ j, j ≠ b.next → b'.inodes j = b.inodes j

theorem takenOver_replaced (Γ : Config) (env : Env) (b : Backing) (p : Filename) (i : Nat) :
    b.TakenOver Γ env p i (copyOwnerMode env (undedupAttr env b p i) (tempAttr Γ b)) (undedupReplaced Γ env b p i) :=
  ⟨rfl, by rw [inodes_undedupReplaced, if_pos rfl], fun j hj => by rw [inodes_undedupReplaced, if_neg hj]⟩

section TakenOver

variable {b' : Backing} {a : Attr}

theorem Backing.TakenOver.find (h : b.TakenOver Γ env p i a b') (q : Filename) :
    b'.find q = if q = p then some (.reg b.next) else b.find q := by
  rw [← find_undedupReplaced Γ env b p i q]
  unfold Backing.find
  rw [h.names]

theorem Backing.TakenOver.inoOf (h : b.TakenOver Γ env p i a b') : b'.inoOf p = some b.next := by
  rw [Backing.inoOf_eq_some, h.find, if_pos rfl]

/-- The other names. -/
theorem Backing.TakenOver.kept (hb : b.Paired) (hi : b.inoOf p = some i) (h : b.TakenOver Γ env p i a b') {q : Filename}
    (hq : q ≠ p) (hqi : b.find q = some (.reg i)) : b'.find q = some (.reg i) ∧ b'.inodes i = b.inodes i := by
  rw [h.find, if_neg hq]
  exact ⟨hqi, h.others i (Nat.ne_of_lt (hb.lt hi))⟩

/-- Nobody else has the inode, whether another name is dropped or not. -/
theorem Backing.TakenOver.nlink (hb : b.Paired) (h : b.TakenOver Γ env p i a b') : b'.nlink b.next = 1 := by
  have hnames : b'.names = (p, .reg b.next) :: Assoc.erase (Assoc.erase b.names p) p := h.names
  apply nlink_eq_one hnames
  intro q hq
  exact absurd (hb.exists_inode q _ (List.mem_of_mem_filter (List.mem_of_mem_filter hq))) (Nat.lt_irrefl _)

theorem Backing.TakenOver.nlink_dropName (hb : b.Paired) (h : b.TakenOver Γ env p i a b') {q : Filename} (hq : q ≠ p) :
    (b'.dropName q).nlink b.next = 1 := by
  have hnames : (b'.dropName q).names = (p, .reg b.next) :: Assoc.erase (Assoc.erase (Assoc.erase b.names p) p) q := by
    show Assoc.erase b'.names q = _
    rw [show b'.names = (p, .reg b.next) :: Assoc.erase (Assoc.erase b.names p) p from h.names]
    unfold Assoc.erase
    rw [List.filter_cons_of_pos (by simpa using Ne.symm hq)]
  apply nlink_eq_one hnames
  intro r hr
  exact absurd (hb.exists_inode r _ (List.mem_of_mem_filter (List.mem_of_mem_filter (List.mem_of_mem_filter hr))))
    (Nat.lt_irrefl _)

theorem fuseattrName_ne (p : Filename) : fuseattrName p ≠ p := by
  intro h
  have hlength := congrArg List.length (congrArg basename h)
  rw [basename_fuseattrName, List.length_append, List.length_append] at hlength
  have hpos : 0 < fusecompressPrefix.length := by decide
  omega

/-- What is shown of the name: the attributes of the copy, unless there is an attribute file. -/
theorem Backing.TakenOver.visible (hd : Γ.dedupEnabled = true) (hb : b.Paired) (h : b.TakenOver Γ env p i a b') :
    visible Γ b' p = some ((b.attrOf (fuseattrName p)).getD a).shown :=
  visible_replaced hd hb h.inoOf (by rw [h.copy]) (by rw [h.find, if_neg (fuseattrName_ne p)]) h.others

end TakenOver

theorem undeduped_untimed (hd : Γ.dedupEnabled = true) (hb : b.Paired) (hi : b.inoOf p = some i) :
    Undeduped Γ b (undedupReplaced Γ env b p i) p i false ↔
      b.find (fuseattrName p) ≠ none ∨ CopyCarries Γ env b p i b.clock := by
  have htaken := takenOver_replaced Γ env b p i
  have hcontent : ∃ j, (undedupReplaced Γ env b p i).inoOf p = some j ∧
      ((undedupReplaced Γ env b p i).inodes j).data = (b.inodes i).data ∧
        (false = true → (undedupReplaced Γ env b p i).nlink j = 1) :=
    ⟨b.next, htaken.inoOf, by rw [htaken.copy], fun h => by cases h⟩
  have hvisible := htaken.visible hd hb
  have hcarries := copyCarries_iff (Γ := Γ) (b := b) (p := p) (i := i) b.clock
    (copyOwnerMode env (undedupAttr env b p i) (tempAttr Γ b)) rfl rfl rfl
    (by unfold copyOwnerMode tempAttr; split <;> split <;> rfl)
  rcases hb.attr_cases p with hnone | ⟨j, hj, -⟩
  · have hattrOf : b.attrOf (fuseattrName p) = none := by simp [Backing.attrOf, Backing.inoOf, hnone]
    rw [hattrOf, Option.getD_none] at hvisible
    refine ⟨fun h => Or.inr (hcarries.mp ?_), fun h => ⟨hcontent, ?_, (fun h => by cases h), fun q hq hqi => htaken.kept hb hi hq hqi⟩⟩
    · have heq := h.attributes
      rw [hvisible, visible_before hd hi] at heq
      exact Option.some.inj heq
    · rcases h with h | h
      · exact absurd hnone h
      · rw [hvisible, visible_before hd hi, hcarries.mpr h]
  · have hattrOf : b.attrOf (fuseattrName p) = some (b.inodes j).attr := by
      simp [Backing.attrOf, Backing.inoOf, hj]
    rw [hattrOf, Option.getD_some] at hvisible
    refine ⟨fun _ => Or.inl (by rw [hj]; simp), fun _ => ⟨hcontent, ?_, (fun h => by cases h), fun q hq hqi => htaken.kept hb hi hq hqi⟩⟩
    rw [hvisible, visible_before hd hi, shownAttr, hattrOf]
    rfl

/-- The attributes of the copy after `utime`. -/
def copyTimed (Γ : Config) (env : Env) (b : Backing) (p : Filename) (i : Nat) : Attr :=
  { copyOwnerMode env (undedupAttr env b p i) (tempAttr Γ b) with
    atime := wholeSeconds (undedupAttr env b p i).atime
    mtime := wholeSeconds (undedupAttr env b p i).mtime }

theorem takenOver_utime (Γ : Config) (env : Env) (b : Backing) (p : Filename) (i : Nat) :
    b.TakenOver Γ env p i (copyTimed Γ env b p i) ((undedupReplaced Γ env b p i).utime b.next (undedupAttr env b p i)) := by
  have h := takenOver_replaced Γ env b p i
  refine ⟨rfl, ?_, ?_⟩
  · simp only [Backing.utime, Backing.setAttr, Function.update_self, h.copy]
    rfl
  · intro j hj
    simp only [Backing.utime, Backing.setAttr, Function.update_of_ne hj]
    exact h.others j hj

theorem undeduped_done (hd : Γ.dedupEnabled = true) (hb : b.Paired) (hi : b.inoOf p = some i) (hlinks : 2 ≤ b.nlink i) :
    Undeduped Γ b (unlinkAttr env ((undedupReplaced Γ env b p i).utime b.next (undedupAttr env b p i)) p) p i true ↔
      CopyCarries Γ env b p i (wholeSeconds (undedupAttr env b p i).mtime) ∧
        (env.ok .unlinkAttr = true ∨ b.find (fuseattrName p) = none) := by
  have htaken := takenOver_utime Γ env b p i
  have hcarries : (copyTimed Γ env b p i).shown = (shownAttr b p i).shown ↔
      CopyCarries Γ env b p i (wholeSeconds (undedupAttr env b p i).mtime) :=
    copyCarries_iff _ (copyTimed Γ env b p i) rfl rfl rfl rfl
  generalize (undedupReplaced Γ env b p i).utime b.next (undedupAttr env b p i) = b' at htaken ⊢
  have hne := fuseattrName_ne p
  have hfind : b'.find (fuseattrName p) = b.find (fuseattrName p) := by rw [htaken.find, if_neg hne]
  have hvisible := htaken.visible hd hb
  rcases hb.attr_cases p with hnone | ⟨j, hj, hlink⟩
  · have hsame : unlinkAttr env b' p = b' := by simp [unlinkAttr, Backing.unlink, hfind, hnone]
    have hattrOf : b.attrOf (fuseattrName p) = none := by simp [Backing.attrOf, Backing.inoOf, hnone]
    rw [hattrOf, Option.getD_none] at hvisible
    rw [hsame]
    refine ⟨fun h => ⟨hcarries.mp ?_, Or.inr hnone⟩, fun h => ⟨⟨b.next, htaken.inoOf, by rw [htaken.copy], fun _ => htaken.nlink hb⟩,
      ?_, fun _ => hfind.trans hnone, fun q hq hqi => htaken.kept hb hi hq hqi⟩⟩
    · have heq := h.attributes
      rw [hvisible, visible_before hd hi] at heq
      exact Option.some.inj heq
    · rw [hvisible, visible_before hd hi, hcarries.mpr h.1]
  · cases hunlink : env.ok .unlinkAttr with
    | false =>
      have hsame : unlinkAttr env b' p = b' := by simp [unlinkAttr, hunlink]
      rw [hsame]
      refine ⟨fun h => ?_, fun h => ?_⟩
      · have hnone := hfind.symm.trans (h.attrFile rfl)
        rw [hj] at hnone
        cases hnone
      · rcases h.2 with h | h
        · cases h
        · rw [hj] at h
          cases h
    | true =>
      have hdrop : unlinkAttr env b' p = b'.dropName (fuseattrName p) := by
        simp [unlinkAttr, hunlink, Backing.unlink, hfind, hj]
      have hino : (b'.dropName (fuseattrName p)).inoOf p = some b.next := by
        rw [Backing.inoOf_dropName, if_neg (Ne.symm hne), htaken.inoOf]
      have hshown : visible Γ (b'.dropName (fuseattrName p)) p = some (copyTimed Γ env b p i).shown := by
        have hattrOf : (b'.dropName (fuseattrName p)).attrOf (fuseattrName p) = none := by
          rw [Backing.attrOf, Backing.inoOf_dropName, if_pos rfl]
          rfl
        rw [visible_eq hd, hino, hattrOf, Option.map_some, Option.getD_none, Backing.inodes_dropName, htaken.copy]
      rw [hdrop]
      refine ⟨fun h => ⟨hcarries.mp ?_, Or.inl rfl⟩, fun h => ⟨⟨b.next, hino, ?_, fun _ => htaken.nlink_dropName hb hne⟩, ?_, fun _ => ?_,
        fun q hq hqi => ?_⟩⟩
      · have heq := h.attributes
        rw [hshown, visible_before hd hi] at heq
        exact Option.some.inj heq
      · rw [Backing.inodes_dropName, htaken.copy]
      · rw [hshown, visible_before hd hi, hcarries.mpr h.1]
      · rw [Backing.find_dropName, if_pos rfl]
      · -- the attribute file has no other name, so it is not the inode of the file
        have hqa : q ≠ fuseattrName p := by
          rintro rfl
          rw [hj, Option.some.injEq, Node.reg.injEq] at hqi
          rw [hqi] at hlink
          omega
        rw [Backing.find_dropName, if_neg hqa, Backing.inodes_dropName]
        exact htaken.kept hb hi hq hqi

/-- `do_undedup` is atomic exactly when the calls that the name depends on succeed. -/
theorem undedup_atomic_iff (hd : Γ.dedupEnabled = true) (hb : s.fs.Paired) (hi : s.fs.inoOf (s.files f).filename = some i)
    (hlinks : 2 ≤ s.fs.nlink i) :
    Undeduped Γ s.fs (doUndedup Γ env s f).1.fs (s.files f).filename i (doUndedup Γ env s f).2 ↔
      UndedupSafe Γ env s.fs (s.files f).filename i := by
  unfold UndedupSafe
  cases hlstat : env.ok .lstat with
  | false =>
    have hr : doUndedup Γ env s f = (s, true) := by
      unfold doUndedup
      simp [hlstat]
    rw [hr]
    refine ⟨fun h => ?_, fun h => by cases h.1⟩
    obtain ⟨j, hj, -, hone⟩ := h.content
    have hij : j = i := Option.some.inj (hj.symm.trans hi)
    have hlink : s.fs.nlink j = 1 := hone rfl
    rw [hij] at hlink
    omega
  | true =>
    have hend := doUndedup_cases hlstat hi hlinks (Γ := Γ)
    generalize doUndedup Γ env s f = r at hend ⊢
    obtain ⟨s', ok⟩ := r
    generalize s'.fs = b' at hend ⊢
    cases hend with
    | kept h => exact ⟨fun _ => ⟨rfl, Or.inl h⟩, fun _ => undeduped_kept hd hb hi (fun _ => rfl) (fun _ _ => rfl)⟩
    | copied h =>
      refine ⟨fun _ => ⟨rfl, Or.inl h⟩, fun _ => undeduped_kept hd hb hi (fun _ => rfl) (fun j hj => ?_)⟩
      rw [undedupCopied, Backing.inodes_alloc, if_neg (Nat.ne_of_lt hj)]
    | lost h hrename =>
      refine ⟨fun hu => ?_, fun hsafe => ?_⟩
      · obtain ⟨j, hj, -⟩ := hu.content
        rw [Backing.inoOf_dropName, if_pos rfl] at hj
        cases hj
      · simp [h, hrename] at hsafe
    | untimed h hrename hutime =>
      rw [undeduped_untimed hd hb hi]
      simp [h, hrename, hutime]
    | done h hrename hutime =>
      rw [undeduped_done hd hb hi hlinks]
      simp [h, hrename, hutime]

/-! ## One file with two names -/

theorem Backing.Overlaid.paired (hb : b.Overlaid) : b.Paired := ⟨hb.exists_inode, hb.attrFile⟩

/-- `a`, a name of a file with two, has an entry. -/
def State.twoLinks (Γ : Config) : State := directOpenAdd Γ (State.mounted .twoLinks) ['a']

/-- `rename(2)` fails. -/
def Env.noRename : Env := { Env.fine with ok := fun c => c ≠ .rename }

theorem undedup_atomic_iff_twoLinks :
    Undeduped { Config.plain with dedupEnabled := true } .twoLinks
        (doUndedup { Config.plain with dedupEnabled := true } .fine (State.twoLinks { Config.plain with dedupEnabled := true }) 0).1.fs
        ['a'] 0
        (doUndedup { Config.plain with dedupEnabled := true } .fine (State.twoLinks { Config.plain with dedupEnabled := true }) 0).2 ↔
      UndedupSafe { Config.plain with dedupEnabled := true } .fine .twoLinks ['a'] 0 :=
  undedup_atomic_iff (s := State.twoLinks { Config.plain with dedupEnabled := true }) (f := 0) rfl overlaid_twoLinks.paired
    (by decide) (by decide)

/-- The name is removed before the copy is renamed, and the copy cannot be. -/
theorem noRename_not_undeduped : ¬∀ (Γ : Config) (env : Env) (s : State) (f i : Nat), Γ.dedupEnabled = true → s.fs.Paired →
    s.fs.inoOf (s.files f).filename = some i → 2 ≤ s.fs.nlink i →
      Undeduped Γ s.fs (doUndedup Γ env s f).1.fs (s.files f).filename i (doUndedup Γ env s f).2 := by
  intro h
  obtain ⟨j, hj, -⟩ := (h { Config.plain with dedupEnabled := true } .noRename
    (State.twoLinks { Config.plain with dedupEnabled := true }) 0 0 rfl overlaid_twoLinks.paired (by decide) (by decide)).content
  have hgone : (doUndedup { Config.plain with dedupEnabled := true } .noRename
      (State.twoLinks { Config.plain with dedupEnabled := true }) 0).1.fs.inoOf ['a'] = none := by decide
  exact absurd (hgone.symm.trans hj) (by simp)

end FuseCompress
