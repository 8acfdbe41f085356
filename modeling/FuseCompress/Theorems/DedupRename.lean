import FuseCompress.Theorems.Undedup

/-!
# Renaming with deduplication

`dedup_sys_rename` moves a name and then its attribute file. `rename_carries_iff`: the name takes content and attributes along, unless
it has no attribute file and the target has one, which stays and is shown from then on.
-/

namespace FuseCompress

variable {Γ : Config} {env : Env} {b b' : Backing} {src dst : Filename} {i : Nat}

/-- The target has the content and the attributes the source had, the source and its attribute file are gone, and every other name is
as before. -/
structure Carried (Γ : Config) (b b' : Backing) (src dst : Filename) : Prop where
  content : ∃ i j, b.inoOf src = some i ∧ b'.inoOf dst = some j ∧ (b'.inodes j).data = (b.inodes i).data
  attributes : visible Γ b' dst = visible Γ b src
  gone : b'.find src = none
  attrGone : b'.find (fuseattrName src) = none
  others : ∀ q, q ≠ src → q ≠ dst → q ≠ fuseattrName src → q ≠ fuseattrName dst →
    (b'.inoOf q).map (fun k => (b'.inodes k).data) = (b.inoOf q).map (fun k => (b.inodes k).data) ∧ visible Γ b' q = visible Γ b q

/-- The attributes that are shown of the source are shown of the target: the source has an attribute file, or the target has none, or
the one the target has shows what the inode of the source does. -/
def RenameSafe (b : Backing) (src dst : Filename) (i : Nat) : Prop :=
  src ≠ dst ∧ (b.find (fuseattrName src) ≠ none ∨ b.find (fuseattrName dst) = none ∨
    (shownAttr b dst i).shown = (b.inodes i).attr.shown)

/-! ## The names afterwards -/

/-- A name refers to what another one referred to, which is gone. -/
def Backing.Moved (b : Backing) (src dst : Filename) (i : Nat) (b' : Backing) : Prop :=
  b'.inodes = b.inodes ∧ ∀ q, b'.find q = if q = dst then some (.reg i) else if q = src then none else b.find q

theorem moved_setName (b : Backing) (src dst : Filename) (i : Nat) : b.Moved src dst i ((b.dropName src).setName dst i) := by
  refine ⟨rfl, fun q => ?_⟩
  rw [Backing.find_setName, Backing.find_dropName]

/-- `rename(2)` of a regular file that is not the one the target is. -/
theorem rename_reg (hi : b.find src = some (.reg i)) (hdst : b.find dst ≠ some (.reg i)) (h : b.rename src dst = some b') :
    b' = (b.dropName src).setName dst i := by
  unfold Backing.rename at h
  rw [hi] at h
  dsimp only at h
  split at h
  · cases h
  · rename_i j hj
    split at h
    · rename_i hij
      rw [hij] at hdst
      exact absurd hj hdst
    · exact (Option.some.inj h).symm
  · split at h
    · exact (Option.some.inj h).symm
    · cases h

/-- `dedup_sys_rename` moves the name and then the attribute file. -/
theorem dedupSysRename_moved (he : env.AllOk) (hne : src ≠ dst) (hi : b.inoOf src = some i)
    (hok : (dedupSysRename env b src dst).2 = true) :
    ∃ b₁, b.Moved src dst i b₁ ∧ dedupSysRename env b src dst = (renameAttr env b₁ src dst, true) := by
  have hfind := Backing.inoOf_eq_some.mp hi
  unfold dedupSysRename at hok ⊢
  simp only [he .lstat, he .rename, he .unlink, if_true, hfind] at hok ⊢
  by_cases hshared : b.nlink i > 1 ∧ b.inoOf dst = some i
  · rw [if_pos hshared] at hok ⊢
    have hunlink : b.unlink src = some (b.dropName src) := by simp [Backing.unlink, hfind]
    refine ⟨b.dropName src, ⟨rfl, fun q => ?_⟩, by rw [hunlink]⟩
    rw [Backing.find_dropName]
    by_cases hq : q = dst
    · rw [if_pos hq, if_neg (fun h => hne (h.symm.trans hq)), hq, Backing.inoOf_eq_some.mp hshared.2]
    · rw [if_neg hq]
  · rw [if_neg hshared] at hok ⊢
    have hdst : b.find dst ≠ some (.reg i) := by
      intro hdst
      apply hshared
      refine ⟨?_, Backing.inoOf_eq_some.mpr hdst⟩
      by_contra hlinks
      exact hne (Backing.eq_of_nlink_lt_two (by omega) hi (Backing.inoOf_eq_some.mpr hdst))
    cases hrename : b.rename src dst with
    | none => simp [hrename] at hok
    | some b₁ =>
      rw [rename_reg hfind hdst hrename]
      exact ⟨_, moved_setName b src dst i, rfl⟩

/-- The attribute file follows. -/
theorem renameAttr_moved (he : env.AllOk) {k : Nat} (hk : b.find (fuseattrName src) = some (.reg k))
    (hdst : b.find (fuseattrName dst) = none ∨ ∃ l, b.find (fuseattrName dst) = some (.reg l) ∧ l ≠ k)
    (hparent : b.hasParent (fuseattrName dst) = true) :
    b.Moved (fuseattrName src) (fuseattrName dst) k (renameAttr env b src dst) := by
  have hrename : b.rename (fuseattrName src) (fuseattrName dst) =
      some ((b.dropName (fuseattrName src)).setName (fuseattrName dst) k) := by
    unfold Backing.rename
    rw [hk]
    rcases hdst with hnone | ⟨l, hl, hlk⟩
    · simp [hnone, hparent]
    · simp [hl, Ne.symm hlk]
  unfold renameAttr
  rw [if_pos (he .renameAttr), hrename]
  exact moved_setName b _ _ k

theorem renameAttr_none (h : b.find (fuseattrName src) = none) : renameAttr env b src dst = b := by
  unfold renameAttr Backing.rename
  rw [h]
  split <;> rfl

/-- The attribute file of the target has its directory, where the target has. -/
theorem hasParent_attr (hi : b.find src = some (.reg i)) (hparent : b.hasParent dst = true) (h : b.Moved src dst i b') :
    b'.hasParent (fuseattrName dst) = true := by
  unfold Backing.hasParent at hparent ⊢
  rw [dirname_fuseattrName]
  cases hd : dirname dst with
  | none => rfl
  | some d =>
    rw [hd] at hparent
    dsimp only at hparent ⊢
    rw [decide_eq_true_eq] at hparent ⊢
    have hsrc : d ≠ src := by
      rintro rfl
      rw [hi] at hparent
      cases hparent
    have hdst : d ≠ dst := by
      intro hdd
      have hsplit := eq_dirname_basename dst
      rw [hd] at hsplit
      have hlength := congrArg List.length hsplit
      simp only [List.length_append, List.length_cons, hdd] at hlength
      omega
    rw [h.2, if_neg hdst, if_neg hsrc]
    exact hparent

/-! ## The theorem -/

/-- Where a name and its attribute file stay, its content and what is shown of it stay. -/
theorem visible_of_find (hd : Γ.dedupEnabled = true) {q : Filename} (hinodes : b'.inodes = b.inodes) (hq : b'.find q = b.find q)
    (hattr : b'.find (fuseattrName q) = b.find (fuseattrName q)) :
    (b'.inoOf q).map (fun k => (b'.inodes k).data) = (b.inoOf q).map (fun k => (b.inodes k).data) ∧ visible Γ b' q = visible Γ b q := by
  have hino : b'.inoOf q = b.inoOf q := by unfold Backing.inoOf; rw [hq]
  have hinoAttr : b'.inoOf (fuseattrName q) = b.inoOf (fuseattrName q) := by unfold Backing.inoOf; rw [hattr]
  refine ⟨by rw [hino, hinodes], visible_congr hd hino hinoAttr (fun k _ => by rw [hinodes])⟩

section Carried

variable {b₁ : Backing}

/-- The source has an attribute file, which shows what it showed under its new name. -/
theorem carried_attr (hd : Γ.dedupEnabled = true) (hsrc : isInternal src = false) (hdst : isInternal dst = false) (hne : src ≠ dst)
    (hi : b.inoOf src = some i) {k : Nat} (hk : b.find (fuseattrName src) = some (.reg k)) (hmoved : b.Moved src dst i b₁)
    (hattr : b₁.Moved (fuseattrName src) (fuseattrName dst) k b') : Carried Γ b b' src dst := by
  have hinodes : b'.inodes = b.inodes := hattr.1.trans hmoved.1
  have hfind : ∀ q, b'.find q = if q = fuseattrName dst then some (.reg k) else if q = fuseattrName src then none
      else if q = dst then some (.reg i) else if q = src then none else b.find q := by
    intro q
    rw [hattr.2, hmoved.2]
  have hattrNe : fuseattrName src ≠ fuseattrName dst := fun h => hne (fuseattrName_inj h)
  have hnewIno : b'.inoOf dst = some i := by
    rw [Backing.inoOf_eq_some, hfind, if_neg (ne_fuseattrName hdst dst), if_neg (ne_fuseattrName hdst src), if_pos rfl]
  have hnewAttr : b'.inoOf (fuseattrName dst) = some k := by rw [Backing.inoOf_eq_some, hfind, if_pos rfl]
  refine ⟨⟨i, i, hi, hnewIno, by rw [hinodes]⟩, ?_, ?_, ?_, ?_⟩
  · rw [visible_eq hd, visible_eq hd, hnewIno, hi, Backing.attrOf, Backing.attrOf, hnewAttr, Backing.inoOf_eq_some.mpr hk, hinodes]
  · rw [hfind, if_neg (ne_fuseattrName hsrc dst), if_neg (ne_fuseattrName hsrc src), if_neg hne, if_pos rfl]
  · rw [hfind, if_neg hattrNe, if_pos rfl]
  · intro q hqsrc hqdst hqattr hqattr'
    apply visible_of_find hd hinodes
    · rw [hfind, if_neg hqattr', if_neg hqattr, if_neg hqdst, if_neg hqsrc]
    · rw [hfind, if_neg (fun h => hqdst (fuseattrName_inj h)), if_neg (fun h => hqsrc (fuseattrName_inj h)),
        if_neg (Ne.symm (ne_fuseattrName hdst q)), if_neg (Ne.symm (ne_fuseattrName hsrc q))]

/-- The source has no attribute file: its inode is shown, where the target has none either. -/
theorem carried_noAttr_iff (hd : Γ.dedupEnabled = true) (hsrc : isInternal src = false) (hdst : isInternal dst = false)
    (hne : src ≠ dst) (hi : b.inoOf src = some i) (hnone : b.find (fuseattrName src) = none) (hmoved : b.Moved src dst i b₁) :
    Carried Γ b b₁ src dst ↔ (shownAttr b dst i).shown = (b.inodes i).attr.shown := by
  have hnewIno : b₁.inoOf dst = some i := by rw [Backing.inoOf_eq_some, hmoved.2, if_pos rfl]
  have hfindAttr : ∀ q, b₁.find (fuseattrName q) = b.find (fuseattrName q) := by
    intro q
    rw [hmoved.2, if_neg (Ne.symm (ne_fuseattrName hdst q)), if_neg (Ne.symm (ne_fuseattrName hsrc q))]
  have hattrIno : ∀ q, b₁.inoOf (fuseattrName q) = b.inoOf (fuseattrName q) := by
    intro q
    unfold Backing.inoOf
    rw [hfindAttr]
  have hafter : visible Γ b₁ dst = some (shownAttr b dst i).shown := by
    rw [visible_eq hd, hnewIno, Backing.attrOf, hattrIno, hmoved.1]
    rfl
  have hbefore : visible Γ b src = some (b.inodes i).attr.shown := by
    rw [visible_eq hd, hi, Backing.attrOf, Backing.inoOf, hnone]
    rfl
  refine ⟨fun h => ?_, fun h => ⟨⟨i, i, hi, hnewIno, by rw [hmoved.1]⟩, ?_, ?_, ?_, ?_⟩⟩
  · have heq := h.attributes
    rw [hafter, hbefore] at heq
    exact Option.some.inj heq
  · rw [hafter, hbefore, h]
  · rw [hmoved.2, if_neg hne, if_pos rfl]
  · rw [hfindAttr, hnone]
  · intro q hqsrc hqdst _ _
    apply visible_of_find hd hmoved.1
    · rw [hmoved.2, if_neg hqdst, if_neg hqsrc]
    · exact hfindAttr q

end Carried

/-- Both names are files of the mount. Everything but the attributes of the target is as it should be. -/
theorem rename_carries_iff (hd : Γ.dedupEnabled = true) (he : env.AllOk) (hb : b.Paired) (hi : b.inoOf src = some i)
    (hsrc : isInternal src = false) (hdst : isInternal dst = false) (hparent : b.hasParent dst = true)
    (hok : (dedupSysRename env b src dst).2 = true) :
    Carried Γ b (dedupSysRename env b src dst).1 src dst ↔ RenameSafe b src dst i := by
  by_cases hne : src = dst
  · subst hne
    refine ⟨fun h => ?_, fun h => absurd rfl h.1⟩
    obtain ⟨_, j, _, hj, _⟩ := h.content
    have hgone := h.gone
    rw [Backing.inoOf_eq_some.mp hj] at hgone
    cases hgone
  · obtain ⟨b₁, hmoved, hr⟩ := dedupSysRename_moved he hne hi hok
    rw [hr]
    have hfindAttr : ∀ q, b₁.find (fuseattrName q) = b.find (fuseattrName q) := by
      intro q
      rw [hmoved.2, if_neg (Ne.symm (ne_fuseattrName hdst q)), if_neg (Ne.symm (ne_fuseattrName hsrc q))]
    rcases hb.attr_cases src with hnone | ⟨k, hk, hlink⟩
    · rw [renameAttr_none ((hfindAttr src).trans hnone), carried_noAttr_iff hd hsrc hdst hne hi hnone hmoved]
      refine ⟨fun h => ⟨hne, Or.inr (Or.inr h)⟩, fun h => ?_⟩
      rcases h.2 with h | h | h
      · exact absurd hnone h
      · rw [shownAttr, Backing.attrOf, Backing.inoOf, h]
        rfl
      · exact h
    · have htarget : b₁.find (fuseattrName dst) = none ∨ ∃ l, b₁.find (fuseattrName dst) = some (.reg l) ∧ l ≠ k := by
        rw [hfindAttr]
        rcases hb.attr_cases dst with hnone | ⟨l, hl, -⟩
        · exact Or.inl hnone
        · refine Or.inr ⟨l, hl, ?_⟩
          rintro rfl
          exact hne (fuseattrName_inj (Backing.eq_of_nlink_lt_two hlink (Backing.inoOf_eq_some.mpr hk) (Backing.inoOf_eq_some.mpr hl)))
      have hattr := renameAttr_moved he ((hfindAttr src).trans hk) htarget
        (hasParent_attr (Backing.inoOf_eq_some.mp hi) hparent hmoved)
      exact ⟨fun _ => ⟨hne, Or.inl (by rw [hk]; simp)⟩, fun _ => carried_attr hd hsrc hdst hne hi hk hmoved hattr⟩

/-! ## A stale attribute file -/

/-- The names `a` and `b` of two files; `b` has an attribute file with another mode. -/
def Backing.staleAttr : Backing :=
  { Backing.empty with
    names := [(['a'], .reg 0), (['b'], .reg 1), (fuseattrName ['b'], .reg 2)]
    inodes := fun i => ⟨[], { mode := if i = 2 then 0o100600 else 0o100644, uid := 0, gid := 0, atime := 0, mtime := 0 }⟩
    next := 3 }

theorem paired_staleAttr : Backing.staleAttr.Paired where
  exists_inode := by
    intro p i hp
    simp only [Backing.staleAttr, List.mem_cons, Prod.mk.injEq, Node.reg.injEq, List.not_mem_nil, or_false] at hp ⊢
    omega
  attrFile := by
    intro p n hn
    have ha : ['a'] ≠ fuseattrName p := ne_fuseattrName (by decide) p
    have hb : ['b'] ≠ fuseattrName p := ne_fuseattrName (by decide) p
    simp only [Backing.find, Backing.staleAttr, Assoc.find_cons, ha, hb, if_false, Assoc.find_nil] at hn
    split at hn
    · exact ⟨2, (Option.some.inj hn).symm, by decide⟩
    · cases hn

theorem rename_carries_iff_staleAttr :
    Carried { Config.plain with dedupEnabled := true } .staleAttr (dedupSysRename .fine .staleAttr ['a'] ['b']).1 ['a'] ['b'] ↔
      RenameSafe .staleAttr ['a'] ['b'] 0 :=
  rename_carries_iff rfl Env.allOk_fine paired_staleAttr (by decide) (by decide) (by decide) (by decide) (by decide)

/-- The target keeps its attribute file, which is shown instead of the attributes of the file that has come there. -/
theorem staleAttr_not_carried : ¬∀ (Γ : Config) (env : Env) (b : Backing) (src dst : Filename), Γ.dedupEnabled = true →
    env.AllOk → b.Paired → src ≠ dst → (∃ i, b.inoOf src = some i) → isInternal src = false → isInternal dst = false →
      b.hasParent dst = true → (dedupSysRename env b src dst).2 = true → Carried Γ b (dedupSysRename env b src dst).1 src dst := by
  intro h
  have hcarried := h { Config.plain with dedupEnabled := true } .fine .staleAttr ['a'] ['b'] rfl Env.allOk_fine paired_staleAttr
    (by decide) ⟨0, by decide⟩ (by decide) (by decide) (by decide) (by decide)
  exact absurd hcarried.attributes (by decide)

end FuseCompress
