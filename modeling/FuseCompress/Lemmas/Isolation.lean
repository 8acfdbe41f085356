import FuseCompress.Lemmas.Effects
import FuseCompress.Lemmas.Windows
import FuseCompress.Theorems.Database

/-!
# Which inodes a handler can write to

A descriptor for writing has an inode open that no other name reaches (`State.Homed`). A handler works on one entry; it writes
through descriptors of that entry, and the inodes it makes get no other name than that of the entry (`State.Fresh`). So what the
other names refer to, and the contents of it, stay what they are (`Effects.elsewhere`).
-/

namespace FuseCompress

variable {vis : Filename → Prop} {f n : Nat} {w : Option Nat} {s s' : State}

/-! ## One effect -/

/-- A descriptor for writing has an inode open that no name but that of its entry reaches. -/
structure State.Homed (vis : Filename → Prop) (s : State) : Prop where
  named : ∀ p i, s.fs.inoOf p = some i → i < s.fs.next
  descs : ∀ d fd, (s.descs d).writable = true → (s.descs d).fd = some fd →
    fd.ino < s.fs.next ∧ (s.descs d).file < s.nextFile ∧ ∀ p, vis p → s.fs.inoOf p = some fd.ino → p = (s.files (s.descs d).file).filename
  writing : ∀ d, (s.descs d).writing → (s.descs d).writable = true

/-- The inodes from `n` on belong to the entry `f`; so does the descriptor a write request is made on. -/
structure State.Fresh (vis : Filename → Prop) (f n : Nat) (w : Option Nat) (s : State) : Prop where
  le : n ≤ s.fs.next
  lt : f < s.nextFile
  names : ∀ p i, s.fs.inoOf p = some i → n ≤ i → p = (s.files f).filename
  descs : ∀ d fd, (s.descs d).writable = true → (s.descs d).fd = some fd → n ≤ fd.ino → (s.descs d).file = f
  writes : ∀ d, w = some d → (s.descs d).writable = true

/-- No inode has two names. -/
def Backing.Single (vis : Filename → Prop) (b : Backing) : Prop :=
  ∀ p q i, vis p → vis q → b.inoOf p = some i → b.inoOf q = some i → p = q

/-- When a handler starts, nothing is from `n` on. -/
theorem State.Homed.fresh (h : s.Homed vis) (hlt : f < s.nextFile) (hw : ∀ d, w = some d → (s.descs d).writable = true) :
    s.Fresh vis f s.fs.next w where
  le := Nat.le_refl _
  lt := hlt
  names p i hi hn := absurd (h.named p i hi) (Nat.not_lt.mpr hn)
  descs d fd hwr hfd hn := absurd (h.descs d fd hwr hfd).1 (Nat.not_lt.mpr hn)
  writes := hw

theorem Calm.homed (hc : Calm w s s') (h : s.Homed vis) (hw : ∀ d, w = some d → (s.descs d).writable = true) : s'.Homed vis := by
  obtain ⟨hfs, hnext, hname, hdesc⟩ := hc
  refine ⟨?_, fun d fd hwr hfd => ?_, fun d hd => ?_⟩
  · rw [hfs]
    exact h.named
  · obtain ⟨fd₀, hfd₀, hino⟩ := (hdesc d).fd fd hfd
    rw [(hdesc d).writable] at hwr
    obtain ⟨h1, h2, h3⟩ := h.descs d fd₀ hwr hfd₀
    rw [hfs, (hdesc d).file, hname _ h2, ← hino]
    exact ⟨h1, Nat.lt_of_lt_of_le h2 hnext, h3⟩
  · rw [(hdesc d).writable]
    rcases (hdesc d).writing hd with hold | hmay
    · exact h.writing d hold
    · exact hw d hmay

theorem Calm.fresh (hc : Calm w s s') (hf : s.Fresh vis f n w) : s'.Fresh vis f n w := by
  obtain ⟨hfs, hnext, hname, hdesc⟩ := hc
  refine ⟨?_, Nat.lt_of_lt_of_le hf.lt hnext, ?_, fun d fd hwr hfd hn => ?_, fun d hd => ?_⟩
  · rw [hfs]
    exact hf.le
  · rw [hfs, hname f hf.lt]
    exact hf.names
  · obtain ⟨fd₀, hfd₀, hino⟩ := (hdesc d).fd fd hfd
    rw [(hdesc d).writable] at hwr
    rw [(hdesc d).file]
    exact hf.descs d fd₀ hwr hfd₀ (by rw [hino]; exact hn)
  · rw [(hdesc d).writable]
    exact hf.writes d hd

/-- No name gets an inode, and the descriptors are the same. -/
theorem State.Homed.with_fs {b : Backing} (h : s.Homed vis) (hino : ∀ p i, b.inoOf p = some i → s.fs.inoOf p = some i)
    (hnext : s.fs.next ≤ b.next) : ({ s with fs := b } : State).Homed vis := by
  refine ⟨fun p i hi => Nat.lt_of_lt_of_le (h.named p i (hino p i hi)) hnext, fun d fd hwr hfd => ?_, h.writing⟩
  obtain ⟨h1, h2, h3⟩ := h.descs d fd hwr hfd
  exact ⟨Nat.lt_of_lt_of_le h1 hnext, h2, fun p hv hi => h3 p hv (hino p _ hi)⟩

theorem State.Homed.of_inodes {b : Backing} (h : s.Homed vis) (hf : s.Fresh vis f n w)
    (hino : ∀ p i, b.inoOf p = some i → s.fs.inoOf p = some i) (hnext : s.fs.next ≤ b.next) :
    ({ s with fs := b } : State).Homed vis ∧ ({ s with fs := b } : State).Fresh vis f n w :=
  ⟨h.with_fs hino hnext,
    hf.le.trans hnext, hf.lt, fun p i hi hn => hf.names p i (hino p i hi) hn, hf.descs, hf.writes⟩

/-- An effect keeps the descriptors for writing where they are. -/
theorem Effect.homed (he : Effect vis f w n s s') (h : s.Homed vis) (hf : s.Fresh vis f n w) :
    s'.Homed vis ∧ s'.Fresh vis f n w := by
  cases he with
  | calm hc => exact ⟨hc.homed h hf.writes, hc.fresh hf⟩
  | write => exact h.of_inodes hf (fun _ _ hi => hi) (Nat.le_refl _)
  | cut => exact h.of_inodes hf (fun _ _ hi => hi) (Nat.le_refl _)
  | attr => exact h.of_inodes hf (fun _ _ hi => hi) (Nat.le_refl _)
  | alloc => exact h.of_inodes hf (fun _ _ hi => hi) (Nat.le_succ _)
  | hidden _ hnext hino _ => exact h.of_inodes hf hino (le_of_eq hnext.symm)
  | @reopen d temp hd hn ht =>
    refine ⟨⟨h.named, fun d' fd hwr hfd => ?_, fun d' hd' => ?_⟩, ⟨hf.le, hf.lt, hf.names, fun d' fd hwr hfd hge => ?_, fun d' hd' => ?_⟩⟩
    · rw [State.descs_modDesc] at hwr hfd ⊢
      by_cases e : d' = d
      · subst e
        rw [if_pos rfl] at hfd ⊢
        cases hfd
        dsimp only
        rw [hd]
        exact ⟨ht, hf.lt, fun p _ hi => hf.names p temp hi hn⟩
      · rw [if_neg e] at hwr hfd ⊢
        exact h.descs d' fd hwr hfd
    · rw [State.descs_modDesc] at hd' ⊢
      by_cases e : d' = d
      · subst e
        rw [if_pos rfl] at hd' ⊢
        exact h.writing d' hd'
      · rw [if_neg e] at hd' ⊢
        exact h.writing d' hd'
    · rw [State.descs_modDesc] at hwr hfd ⊢
      by_cases e : d' = d
      · subst e
        rw [if_pos rfl]
        exact hd
      · rw [if_neg e] at hwr hfd ⊢
        exact hf.descs d' fd hwr hfd hge
    · rw [State.descs_modDesc]
      by_cases e : d' = d
      · subst e
        rw [if_pos rfl]
        exact hf.writes d' hd'
      · rw [if_neg e]
        exact hf.writes d' hd'
  | @install temp hn ht =>
    have hino : ∀ p i, (s.fs.setName (s.files f).filename temp).inoOf p = some i →
        (p = (s.files f).filename ∧ i = temp) ∨ s.fs.inoOf p = some i := by
      intro p i hi
      rw [Backing.inoOf_setName] at hi
      by_cases e : p = (s.files f).filename
      · rw [if_pos e] at hi
        exact Or.inl ⟨e, (Option.some.inj hi).symm⟩
      · rw [if_neg e] at hi
        exact Or.inr hi
    refine ⟨⟨fun p i hi => ?_, fun d fd hwr hfd => ?_, h.writing⟩, ⟨hf.le, hf.lt, fun p i hi hge => ?_, hf.descs, hf.writes⟩⟩
    · rcases hino p i hi with ⟨-, rfl⟩ | hold
      · exact ht
      · exact h.named p i hold
    · obtain ⟨h1, h2, h3⟩ := h.descs d fd hwr hfd
      refine ⟨h1, h2, fun p hv hi => ?_⟩
      rcases hino p fd.ino hi with ⟨rfl, hi'⟩ | hold
      · exact congrArg (fun g => (s.files g).filename) (hf.descs d fd hwr hfd (by rw [hi']; exact hn)).symm
      · exact h3 p hv hold
    · rcases hino p i hi with ⟨rfl, -⟩ | hold
      · rfl
      · exact hf.names p i hold hge
  | drop =>
    refine h.of_inodes hf (fun p i hi => ?_) (Nat.le_refl _)
    rw [Backing.inoOf_dropName] at hi
    split at hi
    · cases hi
    · exact hi
  | @opened ino pos writable hw hino hp =>
    subst hw
    have hcases : ∀ d, d = s.nextDesc ∨ Function.update s.descs s.nextDesc
        ⟨f, some ⟨ino, pos⟩, writable, none, 0, true⟩ d = s.descs d := by
      intro d
      by_cases e : d = s.nextDesc
      · exact Or.inl e
      · exact Or.inr (Function.update_of_ne e _ _)
    refine ⟨⟨h.named, fun d fd hwr hfd => ?_, fun d hd => ?_⟩, ⟨hf.le, hf.lt, hf.names, fun d fd hwr hfd hge => ?_, fun _ hd => by cases hd⟩⟩
    · dsimp only at hwr hfd ⊢
      rcases hcases d with rfl | e
      · rw [Function.update_self] at hwr hfd ⊢
        cases hfd
        exact ⟨h.named _ _ hino, hf.lt, fun p hv hi => hp hwr p hv hi⟩
      · rw [e] at hwr hfd ⊢
        exact h.descs d fd hwr hfd
    · dsimp only at hd ⊢
      rcases hcases d with rfl | e
      · rw [Function.update_self] at hd
        obtain ⟨chunks, hn⟩ := hd
        cases hn
      · rw [e] at hd ⊢
        exact h.writing d hd
    · dsimp only at hwr hfd ⊢
      rcases hcases d with rfl | e
      · rw [Function.update_self]
      · rw [e] at hwr hfd ⊢
        exact hf.descs d fd hwr hfd hge

theorem Effects.homed (he : Effects vis f w n s s') (h : s.Homed vis) (hf : s.Fresh vis f n w) :
    s'.Homed vis ∧ s'.Fresh vis f n w :=
  he.invariant (I := fun s => s.Homed vis ∧ s.Fresh vis f n w) (fun _ _ hs he => he.homed hs.1 hs.2) ⟨h, hf⟩

/-! ## What the other names refer to -/

/-- A name other than that of the entry refers to an inode with some contents, which no other name reaches as far as requests that
do not write through a descriptor are concerned. -/
structure State.Elsewhere (f n : Nat) (w : Option Nat) (p : Filename) (i : Nat) (data : Bytes) (s : State) : Prop where
  ne : p ≠ (s.files f).filename
  ino : s.fs.inoOf p = some i
  old : i < n
  data : s.data i = data
  apart : w = none → s.fs.inoOf (s.files f).filename ≠ some i

/-- An effect leaves what another name refers to alone. -/
theorem Effect.elsewhere {p : Filename} {i : Nat} {data : Bytes} (he : Effect vis f w n s s') (h : s.Homed vis)
    (hf : s.Fresh vis f n w) (hv : vis p) (hp : s.Elsewhere f n w p i data) : s'.Elsewhere f n w p i data := by
  obtain ⟨hne, hino, hold, hdata, hapart⟩ := hp
  cases he with
  | calm hc =>
    have hname := hc.filename f hf.lt
    refine ⟨?_, ?_, hold, ?_, ?_⟩
    · rw [hname]
      exact hne
    · rw [hc.fs]
      exact hino
    · unfold State.data
      rw [hc.fs]
      exact hdata
    · rw [hname, hc.fs]
      exact hapart
  | @write d fd data' hd hfd hwriting =>
    refine ⟨hne, hino, hold, ?_, hapart⟩
    have hwritable : (s.descs d).writable = true := hwriting.elim (h.writing d) (hf.writes d)
    have hother : i ≠ fd.ino := by
      rintro rfl
      have := (h.descs d fd hwritable hfd).2.2 p hv hino
      rw [hd] at this
      exact hne this
    exact (Backing.data_setData _ _ _ _).trans ((if_neg hother).trans hdata)
  | @cut j data' hw hj =>
    refine ⟨hne, hino, hold, ?_, hapart⟩
    have hother : i ≠ j := by
      rintro rfl
      exact hapart hw hj
    exact (Backing.data_setData _ _ _ _).trans ((if_neg hother).trans hdata)
  | attr => exact ⟨hne, hino, hold, (Backing.data_setAttr _ _ _ _).trans hdata, hapart⟩
  | alloc =>
    refine ⟨hne, hino, hold, ?_, hapart⟩
    have hother : i ≠ s.fs.next := Nat.ne_of_lt (Nat.lt_of_lt_of_le hold hf.le)
    unfold State.data
    rw [State.fs_withFs, Backing.inodes_alloc, if_neg hother]
    exact hdata
  | reopen => exact ⟨hne, hino, hold, hdata, hapart⟩
  | @install temp hn ht =>
    refine ⟨hne, ?_, hold, hdata, fun _ => ?_⟩
    · rw [State.fs_withFs, Backing.inoOf_setName, if_neg hne]
      exact hino
    · rw [State.fs_withFs, State.files_withFs, Backing.inoOf_setName, if_pos rfl]
      rintro ⟨⟩
      exact absurd hold (Nat.not_lt.mpr hn)
  | drop =>
    refine ⟨hne, ?_, hold, hdata, fun _ => ?_⟩
    · rw [State.fs_withFs, Backing.inoOf_dropName, if_neg hne]
      exact hino
    · rw [State.fs_withFs, State.files_withFs, Backing.inoOf_dropName, if_pos rfl]
      exact Option.some_ne_none i ∘ Eq.symm
  | hidden hinodes hnext hlost hsame =>
    refine ⟨hne, (hsame p hv).trans hino, hold, ?_, fun hw hn => hapart hw (hlost _ _ hn)⟩
    unfold State.data
    rw [hinodes]
    exact hdata
  | opened => exact ⟨hne, hino, hold, hdata, hapart⟩

theorem Effects.elsewhere {p : Filename} {i : Nat} {data : Bytes} (he : Effects vis f w n s s') (h : s.Homed vis)
    (hf : s.Fresh vis f n w) (hv : vis p) (hp : s.Elsewhere f n w p i data) : s'.Elsewhere f n w p i data := by
  have hall := he.invariant (I := fun s => (s.Homed vis ∧ s.Fresh vis f n w) ∧ s.Elsewhere f n w p i data)
    (fun _ _ hs he => ⟨he.homed hs.1.1 hs.1.2, he.elsewhere hs.1.1 hs.1.2 hv hs.2⟩) ⟨⟨h, hf⟩, hp⟩
  exact hall.2

/-! ## Names of an inode -/

/-- No name that counts but `p` reaches the inode `i`. -/
structure Backing.Only (vis : Filename → Prop) (b : Backing) (p : Filename) (i : Nat) : Prop where
  lt : i < b.next
  names : ∀ q, vis q → b.inoOf q = some i → q = p

/-- An inode from before gets no name. -/
theorem Effect.named {q : Filename} {i : Nat} (he : Effect vis f w n s s') (hi : i < n) (hq : s'.fs.inoOf q = some i) :
    s.fs.inoOf q = some i := by
  cases he with
  | calm hc => rwa [hc.fs] at hq
  | @install temp hn ht =>
    rw [State.fs_withFs, Backing.inoOf_setName] at hq
    split at hq
    · cases hq
      exact absurd hi (Nat.not_lt.mpr hn)
    · exact hq
  | drop =>
    rw [State.fs_withFs, Backing.inoOf_dropName] at hq
    split at hq
    · cases hq
    · exact hq
  | hidden _ _ hlost _ => exact hlost q i hq
  | _ => exact hq

theorem Effects.named {q : Filename} {i : Nat} (he : Effects vis f w n s s') (hi : i < n) (hq : s'.fs.inoOf q = some i) :
    s.fs.inoOf q = some i :=
  he.invariant (I := fun s' => s'.fs.inoOf q = some i → s.fs.inoOf q = some i) (fun _ _ hs he hq => hs (he.named hi hq)) id hq

/-- What only `p` reaches nothing else reaches later. -/
theorem Effects.only {p : Filename} {i : Nat} (he : Effects vis f w n s s') (hi : i < n) (h : s.fs.Only vis p i) :
    s'.fs.Only vis p i where
  lt := Nat.lt_of_lt_of_le h.lt he.next_le
  names q hv hq := h.names q hv (he.named hi hq)

/-- An effect gives no inode a second name. -/
theorem Effect.single (he : Effect vis f w n s s') (hf : s.Fresh vis f n w) (h : s.fs.Single vis) : s'.fs.Single vis := by
  intro p q i hvp hvq hp hq
  by_cases hi : i < n
  · exact h p q i hvp hvq (he.named hi hp) (he.named hi hq)
  · have hn := Nat.le_of_not_lt hi
    cases he with
    | calm hc =>
      rw [hc.fs] at hp hq
      exact h p q i hvp hvq hp hq
    | @install temp _ _ =>
      have hname : ∀ r, (s.fs.setName (s.files f).filename temp).inoOf r = some i → r = (s.files f).filename := by
        intro r hr
        rw [Backing.inoOf_setName] at hr
        split at hr
        · assumption
        · exact hf.names r i hr hn
      exact (hname p hp).trans (hname q hq).symm
    | drop =>
      rw [State.fs_withFs, Backing.inoOf_dropName] at hp hq
      split at hp
      · cases hp
      · split at hq
        · cases hq
        · exact h p q i hvp hvq hp hq
    | hidden _ _ hlost _ => exact h p q i hvp hvq (hlost p i hp) (hlost q i hq)
    | _ => exact h p q i hvp hvq hp hq

theorem Effects.single (he : Effects vis f w n s s') (h : s.Homed vis) (hf : s.Fresh vis f n w) (hs : s.fs.Single vis) :
    s'.fs.Single vis := by
  have hall := he.invariant (I := fun s => (s.Homed vis ∧ s.Fresh vis f n w) ∧ s.fs.Single vis)
    (fun _ _ hs he => ⟨he.homed hs.1.1 hs.1.2, he.single hs.1.2 hs.2⟩) ⟨⟨h, hf⟩, hs⟩
  exact hall.2

/-! ## A step of a thread -/

/-- The caller asks for a file to be made, opened, looked at, cut or removed. -/
def Caller.plain : Caller → Bool
  | .getattr _ _ => true
  | .mknod _ _ _ _ => true
  | .unlink _ => true
  | .truncate _ _ => true
  | .open _ _ => true
  | _ => false

/-- A place in the requests that make, open, look at, read, write, cut, close and remove files, or in a purge that forces nothing
out. -/
def Pc.plain : Pc → Bool
  | .idle _ => true
  | .getattrStat _ => true
  | .purgeStart force => !force
  | .opening k => k.plain
  | .purging _ k force => !force && k.all Caller.plain
  | .waiting k _ _ => k.plain
  | .undeduped _ _ => true
  | .fetched _ _ _ => true
  | .preading _ _ _ _ _ _ _ => true
  | .preaded _ _ _ _ => true
  | .pwriting _ _ _ _ _ => true
  | .pwrote _ _ _ => true
  | _ => false

/-- The name of the file that the caller opens for writing. -/
def Caller.opensWriting : Caller → Option Filename
  | .open full writable => if writable then some full else none
  | _ => none

/-- The name of the file that a thread may open for writing in its next step. -/
def Pc.opensWriting : Pc → Option Filename
  | .opening k => k.opensWriting
  | .waiting k _ _ => k.opensWriting
  | .purging [] (some k) _ => k.opensWriting
  | _ => none

/-- The file has no other name that counts. -/
def Backing.Sole (vis : Filename → Prop) (b : Backing) (full : Filename) : Prop :=
  ∀ i, b.inoOf full = some i → ∀ p, vis p → b.inoOf p = some i → p = full

/-- A file that is opened for writing has no other name when `fusecompress_open` has made its copy. -/
def Opens (Γ : Config) (env : Env) (vis : Filename → Prop) (b : Backing) (full : Filename) : Prop :=
  ∀ (s : State) (f : Nat), s.fs = b → (s.files f).filename = full → ∀ s₁, openUndedup Γ env s f true = (s₁, true) →
    s₁.fs.Sole vis full

section Handlers

variable {Γ : Config} {env : Env} {k : Caller}

theorem calm_lock (s : State) (f : Nat) : Calm w s (s.lock f) := calm_modFile f (fun _ => rfl)

theorem calm_unlock (s : State) (f : Nat) : Calm w s (s.unlock f) := calm_modFile f (fun _ => rfl)

theorem effects_openBody (full : Filename) (writable : Bool) (hf : (s.files f).filename = full) (hn : n ≤ s.fs.next)
    (hv : Γ.dedupEnabled = true → ¬vis (fuseattrName full))
    (hp : writable = true → ∀ s₁, openUndedup Γ env s f writable = (s₁, true) → s₁.fs.Sole vis full) :
    Effects vis f none n s (openBody Γ env s f full writable).1 := by
  have h1 : Effects vis f none n s (openUndedup Γ env s f writable).1 := effects_openUndedup Γ env s writable hn (by rw [hf]; exact hv)
  have hf1 : ((openUndedup Γ env s f writable).1.files f).filename = full :=
    (congrFun (congrArg Books.filename (books_openUndedup Γ env s f writable)) f).trans hf
  unfold openBody
  split
  · rename_i s₁ e
    rw [e] at h1 hf1
    split
    · exact h1.trans (calm_lock s₁ f).effects
    · exact h1.trans (effects_openFile Γ env s₁ full writable hf1 (fun hw => hp hw s₁ e))
  · rename_i s₁ e
    rw [e] at h1
    exact h1

/-- What the caller of `direct_open` does with an entry. -/
theorem effects_callerBody (hk : k.plain = true) (hname : (s.files f).filename = k.filename)
    (hheads : ∀ d ∈ (s.files f).head, (s.descs d).file = f) (hn : n ≤ s.fs.next)
    (hv : Γ.dedupEnabled = true → ∀ p, ¬vis (fuseattrName p))
    (hopens : ∀ full, k.opensWriting = some full → Opens Γ env vis s.fs full) :
    Effects vis f none n s (callerBody Γ env s f k).1 := by
  cases k with
  | getattr full st => exact (calm_getattrLocked Γ env s f full st).effects
  | mknod full mode uid gid => exact effects_mknodLocked env s full mode uid gid hname hn
  | unlink full => exact effects_unlinkLocked Γ env s full hname (fun hd => hv hd full)
  | truncate full size => exact effects_truncateLocked Γ env s full size hheads hname hn
  | «open» full writable =>
    refine effects_openBody full writable hname hn (fun hd => hv hd full) (fun hw s₁ hs₁ => ?_)
    subst hw
    exact hopens full rfl s f rfl hname s₁ hs₁
  | _ => cases hk

/-- The loop of `direct_open`: nothing but the status changes, or the file is not busy and the caller goes on. -/
theorem directOpenWait_effects (hk : k.plain = true) (hname : (s.files f).filename = k.filename)
    (hheads : ∀ d ∈ (s.files f).head, (s.descs d).file = f) (hn : n ≤ s.fs.next)
    (hv : Γ.dedupEnabled = true → ∀ p, ¬vis (fuseattrName p))
    (hopens : ∀ full, k.opensWriting = some full → Opens Γ env vis s.fs full) :
    Calm none s (directOpenWait Γ env s f k).1 ∨
      ((s.files f).status.busy = false ∧ Effects vis f none n s (directOpenWait Γ env s f k).1) := by
  have hbody := effects_callerBody hk hname hheads hn hv hopens
  unfold directOpenWait
  split
  · have hcancel : Calm none s (s.modFile f (fun file => { file with status := { file.status with cancel := true } })) :=
      calm_modFile f (fun _ => rfl)
    exact Or.inl hcancel
  · rename_i hbusy
    cases hstabile : k.stabile with
    | true =>
      rw [hstabile, Bool.true_and, Bool.not_eq_true] at hbusy
      exact Or.inr ⟨hbusy, hbody⟩
    | false =>
      left
      cases k with
      | getattr full st => exact calm_getattrLocked Γ env s f full st
      | utime => cases hk
      | _ => cases hstabile

/-- The entry a handler works on, in the state `s₀` it starts in: one that is not busy, has a descriptor or is locked already, or a new
one for a name that no entry has. -/
structure Works (s s₀ : State) (f : Nat) : Prop where
  calm : Calm none s s₀
  lt : f < s₀.nextFile
  entry : (f < s.nextFile ∧ s.freed f = false ∧
      ((s.files f).status.busy = false ∨ (∃ d, (s.descs d).live = true ∧ (s.descs d).file = f) ∨ (s.files f).locked = true)) ∨
    (f = s.nextFile ∧ ∀ g ∈ s.database, (s.files g).filename ≠ (s₀.files f).filename)

/-- What a step of a thread does to the backing directory: nothing, a `pwrite`, or the effects of a handler on one entry, which
writes through a descriptor only when it is asked to. -/
inductive ClientEffects (vis : Filename → Prop) (s s' : State) (pc : Pc) : Prop
  | calm : Calm none s s' → ClientEffects vis s s' pc
  | pwrite {d f : Nat} {fd : Fd} {buf data : Bytes} {offset : Nat} : pc = .pwriting d f (some fd) buf offset →
      s' = s.withFs (fun b => b.setData fd.ino data) → ClientEffects vis s s' pc
  | handler {s₀ : State} {f : Nat} {w : Option Nat} : Works s s₀ f → Effects vis f w s.fs.next s₀ s' →
      (∀ d, w = some d → ∃ buf offset, pc = .fetched d (.write buf offset) f) → ClientEffects vis s s' pc

/-- A caller with a new entry. -/
theorem directOpenNew_effects {pc : Pc} {t : State} (ht : Calm none s t) (hfs : t.fs = s.fs) (hnext : t.nextFile = s.nextFile)
    (hk : k.plain = true) (hnone : ∀ g ∈ s.database, (s.files g).filename ≠ k.filename)
    (hv : Γ.dedupEnabled = true → ∀ p, ¬vis (fuseattrName p))
    (hopens : ∀ full, k.opensWriting = some full → Opens Γ env vis s.fs full) :
    ClientEffects vis s (directOpenNew Γ env t k).1 pc := by
  have hfile : (directOpenAdd Γ t k.filename).files t.nextFile = directNewFile Γ t k.filename := Function.update_self _ _ _
  have hname : ((directOpenAdd Γ t k.filename).files t.nextFile).filename = k.filename := by
    rw [hfile]
    rfl
  have hworks : Works s (directOpenAdd Γ t k.filename) t.nextFile := by
    refine ⟨ht.trans (calm_directOpenAdd Γ t k.filename), Nat.lt_succ_self _, Or.inr ⟨hnext, fun g hg => ?_⟩⟩
    rw [hname]
    exact hnone g hg
  refine .handler hworks (w := none) ?_ (fun d hd => by cases hd)
  unfold directOpenNew
  refine effects_callerBody hk hname (fun d hd => ?_) (le_of_eq (congrArg Backing.next hfs).symm) hv ?_
  · rw [hfile] at hd
    cases hd
  · have hsame : (directOpenAdd Γ t k.filename).fs = s.fs := hfs
    rw [hsame]
    exact hopens

/-- A request on a descriptor. -/
theorem descLocked_effects (Γ : Config) (env : Env) (vis : Filename → Prop) {d : Nat} (op : DescOp)
    (hheads : ∀ d ∈ (s.files f).head, (s.descs d).file = f) (hd : (s.descs d).file = f) : ∃ w, Effects vis f w s.fs.next s (descLocked Γ env s d f op).1 ∧
      ∀ d', w = some d' → ∃ buf offset, Pc.fetched d op f = .fetched d' (.write buf offset) f := by
  cases op with
  | read size offset =>
    refine ⟨none, ?_, fun d' hd' => by cases hd'⟩
    have h : Effects vis f none s.fs.next s (readLocked Γ env s f d size offset).1 :=
      effects_readLocked Γ env s size offset hheads hd (Nat.le_refl _)
    unfold descLocked
    dsimp only
    generalize readLocked Γ env s f d size offset = r at h
    obtain ⟨s₁, next⟩ := r
    cases next with
    | done res buf =>
      dsimp only
      split <;> exact h
    | pread => exact h
  | write buf offset =>
    refine ⟨some d, ?_, fun d' hd' => by cases hd'; exact ⟨buf, offset, rfl⟩⟩
    have h : Effects vis f (some d) s.fs.next s (writeLocked Γ env s f d buf offset).1 :=
      effects_writeLocked Γ env s buf offset hheads hd (Nat.le_refl _)
    unfold descLocked
    dsimp only
    generalize writeLocked Γ env s f d buf offset = r at h
    obtain ⟨s₁, next⟩ := r
    cases next with
    | done res =>
      dsimp only
      split
      · exact h.trans (calm_invalidateSize s₁ f).effects
      · exact h
    | pwrite => exact h
  | release => exact ⟨none, effects_releaseLocked Γ env s hd, fun d' hd' => by cases hd'⟩

/-- What is known of a state that a thread makes a step in. -/
structure Knows (s : State) (pc : Pc) : Prop where
  heads : ∀ f, ∀ d ∈ (s.files f).head, (s.descs d).file = f
  listed : ∀ f ∈ s.database, f < s.nextFile
  waiting : ∀ k f seen, pc = .waiting k f seen → f < s.nextFile ∧ (s.files f).filename = k.filename
  undeduped : ∀ full f, pc = .undeduped full f → f < s.nextFile ∧ (s.files f).filename = full
  desc : ∀ d f, pc.desc = some (d, f) → (s.descs d).live = true ∧ (s.descs d).file = f ∧ f < s.nextFile
  missing : ∀ todo k force, pc = .purging todo (some k) force → ∀ f ∈ s.database, (s.files f).filename ≠ k.filename

/-- The step of a thread in a plain request. -/
theorem clientStep_effects {free : Bool} {pc pc' : Pc} (hk : Knows s pc) (hpc : pc.plain = true)
    (hv : Γ.dedupEnabled = true → ∀ p, ¬vis (fuseattrName p))
    (hopens : ∀ full, pc.opensWriting = some full → Opens Γ env vis s.fs full)
    (hsole : ∀ full f, pc = .undeduped full f → s.fs.Sole vis full)
    (h : clientStep Γ env free s pc = some (s', pc')) : ClientEffects vis s s' pc := by
  have hstep : ∀ {r : State × Pc}, some r = some (s', pc') → ClientEffects vis s r.1 pc → ClientEffects vis s s' pc := by
    intro r hr he
    cases hr
    exact he
  have hsame : ∀ {pc₁ : Pc}, some (s, pc₁) = some (s', pc') → ClientEffects vis s s' pc := by
    intro pc₁ hr
    exact hstep hr (.calm (Calm.refl none s))
  -- an entry that can be locked, on behalf of a caller
  have hwait : ∀ {k : Caller} {f : Nat} {t : State}, Calm none s t → t.fs = s.fs → (t.files f).status = (s.files f).status →
      (∀ d ∈ (t.files f).head, (t.descs d).file = f) → (t.files f).filename = k.filename → k.plain = true → f < s.nextFile →
      (∀ full, k.opensWriting = some full → Opens Γ env vis s.fs full) → s.lockable f = true →
      ClientEffects vis s (directOpenWait Γ env t f k).1 pc := by
    intro k f t hcalm hfs hstatus hheads hname hplain hlt hopens hlock
    obtain ⟨hfreed, -⟩ := lockable_books s hlock
    rcases directOpenWait_effects hplain hname hheads (le_of_eq (congrArg Backing.next hfs).symm) hv (hfs ▸ hopens) with
      hc | ⟨hbusy, he⟩
    · exact .calm (hcalm.trans hc)
    · rw [hstatus] at hbusy
      exact .handler ⟨hcalm, Nat.lt_of_lt_of_le hlt hcalm.nextFile, Or.inl ⟨hlt, hfreed, Or.inl hbusy⟩⟩ (w := none) he
        (fun d hd => by cases hd)
  cases pc with
  | idle => cases h
  | getattrStat full =>
    rw [clientStep] at h
    split at h
    · cases h
      exact .calm (calm_getattrMagic s full)
    · split at h
      · cases h
        exact .calm (Calm.refl none s)
      · cases h
        exact .calm (Calm.refl none s)
      · exact hsame h
  | purgeStart force =>
    rw [clientStep] at h
    split at h
    · exact hsame h
    · cases h
  | opening k =>
    rw [clientStep] at h
    split at h
    · unfold directOpenStart at h
      split at h
      · rename_i f hfind
        have hmem := List.mem_of_find?_eq_some hfind
        have hname := List.find?_some hfind
        rw [decide_eq_true_eq] at hname
        split at h
        · rename_i hlock
          have hcalm : Calm none s (directOpenFound s f) := calm_modFile f (fun _ => rfl)
          refine hstep h (hwait hcalm rfl ?_ ?_ ?_ hpc (hk.listed f hmem) hopens hlock)
          · unfold directOpenFound
            rw [State.files_modFile, if_pos rfl]
          · unfold directOpenFound
            rw [State.files_modFile, if_pos rfl]
            exact hk.heads f
          · unfold directOpenFound
            rw [State.files_modFile, if_pos rfl]
            exact hname
        · cases h
      · rename_i hfind
        have hnone : ∀ g ∈ s.database, (s.files g).filename ≠ k.filename := by
          intro g hg
          have hno := List.find?_eq_none.mp hfind g hg
          rw [decide_eq_true_eq] at hno
          exact hno
        have hcount : Calm none s ({ s with entries := s.entries + 1 } : State) := .of_eq rfl rfl (fun _ => rfl) rfl
        dsimp only at h
        split at h
        · cases h
          exact .calm hcount
        · exact hstep h (directOpenNew_effects hcount rfl rfl hpc hnone hv hopens)
    · cases h
  | purging todo k force =>
    cases todo with
    | nil =>
      cases k with
      | none => exact hsame h
      | some k =>
        rw [clientStep] at h
        have hplain : k.plain = true := by
          simp only [Pc.plain, Option.all_some, Bool.and_eq_true] at hpc
          exact hpc.2
        exact hstep h (directOpenNew_effects (Calm.refl none s) rfl rfl hplain (hk.missing _ k force rfl) hv hopens)
    | cons f todo =>
      rw [clientStep] at h
      split at h
      · cases h
      · split at h
        · cases h
        · cases h
          exact .calm (calm_purgeFile Γ env s force f)
  | waiting k f seen =>
    obtain ⟨hlt, hname⟩ := hk.waiting k f seen rfl
    rw [clientStep] at h
    split at h
    · rename_i hready
      exact hstep h (hwait (Calm.refl none s) rfl rfl (hk.heads f) hname hpc hlt hopens hready.2)
    · cases h
  | undeduped full f =>
    obtain ⟨hlt, hname⟩ := hk.undeduped full f rfl
    rw [clientStep] at h
    split at h
    · rename_i hkept
      obtain ⟨hfreed, hlocked⟩ := kept_books s hkept
      have he : Effects vis f none s.fs.next (s.unlock f) (openFile Γ env (s.unlock f) f full true).1 :=
        effects_openFile Γ env (s.unlock f) full true (by simpa using hname) (fun _ => hsole full f rfl)
      exact hstep h (.handler ⟨calm_unlock s f, hlt, Or.inl ⟨hlt, hfreed, Or.inr (Or.inr hlocked)⟩⟩ (w := none) he
        (fun d hd => by cases hd))
    · cases h
  | fetched d op f =>
    obtain ⟨hlive, hfile, hlt⟩ := hk.desc d f rfl
    rw [clientStep] at h
    split at h
    · rename_i hlock
      obtain ⟨hfreed, -⟩ := lockable_books s hlock
      obtain ⟨w, he, hw⟩ := descLocked_effects Γ env vis op (hk.heads f) hfile
      exact hstep h (.handler ⟨Calm.refl none s, hlt, Or.inl ⟨hlt, hfreed, Or.inr (Or.inl ⟨d, hlive, hfile⟩)⟩⟩ he hw)
    · cases h
  | preading d f fd size offset served relock =>
    cases h
    exact .calm (Calm.refl none s)
  | preaded d f res relock =>
    cases res with
    | some buf =>
      rw [clientStep] at h
      split at h
      · cases h
      · exact hsame h
    | none =>
      rw [clientStep] at h
      split at h
      · cases h
      · exact hstep h (.calm (calm_invalidateSize s f))
  | pwriting d f fd buf offset =>
    rw [clientStep] at h
    have hwrites : ClientEffects vis s (pwriteFd env s fd buf offset).1 (.pwriting d f fd buf offset) := by
      unfold pwriteFd
      split
      · exact .calm (Calm.refl none s)
      · rename_i fd' hfd
        split at hfd
        · subst hfd
          dsimp only
          split
          · exact .calm (Calm.refl none s)
          · exact .pwrite rfl rfl
        · cases hfd
    generalize pwriteFd env s fd buf offset = r at h hwrites
    obtain ⟨s₁, ok⟩ := r
    cases ok with
    | true => exact hstep h hwrites
    | false => exact hstep h hwrites
  | pwrote d f res =>
    cases res with
    | some len =>
      rw [clientStep] at h
      split at h
      · exact hsame h
      · cases h
    | none =>
      rw [clientStep] at h
      split at h
      · exact hstep h (.calm (calm_invalidateSize s f))
      · cases h
  | _ => cases hpc

end Handlers

/-! ## Where a thread gets to -/

section Places

variable {Γ : Config} {env : Env} {free : Bool} {k : Caller} {pc pc' : Pc}

theorem callerBody_plain (Γ : Config) (env : Env) (s : State) (f : Nat) (hk : k.plain = true) :
    (∃ r, (callerBody Γ env s f k).2 = .idle r) ∨ ∃ full, k.opensWriting = some full ∧ (callerBody Γ env s f k).2 = .undeduped full f ∧
      ∃ s₁, openUndedup Γ env s f true = (s₁, true) ∧ (callerBody Γ env s f k).1 = s₁.lock f := by
  cases k with
  | getattr => exact .inl ⟨_, rfl⟩
  | mknod => exact .inl ⟨_, rfl⟩
  | unlink => exact .inl ⟨_, rfl⟩
  | truncate => exact .inl ⟨_, rfl⟩
  | «open» full writable =>
    rw [callerBody, openBody]
    split
    · rename_i s₁ e
      split
      · rename_i hw
        obtain rfl : writable = true := hw.2
        exact .inr ⟨full, rfl, rfl, s₁, e, rfl⟩
      · exact .inl ⟨_, rfl⟩
    · exact .inl ⟨_, rfl⟩
  | _ => cases hk

theorem callerBody_stays_plain (Γ : Config) (env : Env) (s : State) (f : Nat) (hk : k.plain = true) :
    (callerBody Γ env s f k).2.plain = true := by
  rcases callerBody_plain Γ env s f hk with ⟨r, hr⟩ | ⟨full, -, hr, -⟩
  · rw [hr]
    rfl
  · rw [hr]
    rfl

theorem directOpenWait_plain (hk : k.plain = true) : (directOpenWait Γ env s f k).2.plain = true := by
  unfold directOpenWait
  split
  · exact hk
  · exact callerBody_stays_plain Γ env s f hk

theorem directOpenNew_plain (hk : k.plain = true) : (directOpenNew Γ env s k).2.plain = true :=
  callerBody_stays_plain Γ env (directOpenAdd Γ s k.filename) s.nextFile hk

theorem descLocked_plain (d : Nat) (op : DescOp) : (descLocked Γ env s d f op).2.plain = true := by
  cases op with
  | read size offset =>
    unfold descLocked
    dsimp only
    split
    · split <;> rfl
    · rfl
  | write buf offset =>
    unfold descLocked
    dsimp only
    split
    · split <;> rfl
    · rfl
  | release => rfl

/-- A thread in a plain request stays in one. -/
theorem clientStep_plain (hpc : pc.plain = true) (h : clientStep Γ env free s pc = some (s', pc')) : pc'.plain = true := by
  have hstep : ∀ {r : State × Pc}, some r = some (s', pc') → r.2.plain = true → pc'.plain = true := by
    intro r hr he
    cases hr
    exact he
  cases pc with
  | idle => cases h
  | getattrStat full =>
    rw [clientStep] at h
    split at h
    · exact hstep h rfl
    · split at h
      · exact hstep h rfl
      · exact hstep h rfl
      · exact hstep h rfl
  | purgeStart force =>
    rw [clientStep] at h
    split at h
    · refine hstep h ?_
      simp only [Pc.plain, Option.all_none, Bool.and_true]
      exact hpc
    · cases h
  | opening k =>
    rw [clientStep] at h
    split at h
    · unfold directOpenStart at h
      split at h
      · split at h
        · exact hstep h (directOpenWait_plain hpc)
        · cases h
      · dsimp only at h
        split at h
        · exact hstep h hpc
        · exact hstep h (directOpenNew_plain hpc)
    · cases h
  | purging todo k force =>
    cases todo with
    | nil =>
      cases k with
      | none => exact hstep h rfl
      | some k =>
        simp only [Pc.plain, Option.all_some, Bool.and_eq_true] at hpc
        exact hstep h (directOpenNew_plain hpc.2)
    | cons f todo =>
      rw [clientStep] at h
      split at h
      · cases h
      · split at h
        · cases h
        · exact hstep h hpc
  | waiting k f seen =>
    rw [clientStep] at h
    split at h
    · exact hstep h (directOpenWait_plain hpc)
    · cases h
  | undeduped full f =>
    rw [clientStep] at h
    split at h
    · exact hstep h rfl
    · cases h
  | fetched d op f =>
    rw [clientStep] at h
    split at h
    · exact hstep h (descLocked_plain d op)
    · cases h
  | preading => exact hstep h rfl
  | preaded d f res relock =>
    cases res with
    | some buf =>
      rw [clientStep] at h
      split at h
      · cases h
      · exact hstep h rfl
    | none =>
      rw [clientStep] at h
      split at h
      · cases h
      · exact hstep h rfl
  | pwriting d f fd buf offset =>
    rw [clientStep] at h
    split at h
    · exact hstep h rfl
    · exact hstep h rfl
  | pwrote d f res =>
    cases res with
    | some len =>
      rw [clientStep] at h
      split at h
      · exact hstep h rfl
      · cases h
    | none =>
      rw [clientStep] at h
      split at h
      · exact hstep h rfl
      · cases h
  | _ => cases hpc

/-- A caller leaves `direct_open` for the place between `do_undedup` and `file_open` when the file is its own. -/
theorem callerBody_sole {full : Filename} {g : Nat} {t : State} (hk : k.plain = true) (hname : (t.files f).filename = k.filename)
    (hopens : ∀ full, k.opensWriting = some full → Opens Γ env vis t.fs full) (h : callerBody Γ env t f k = (s', .undeduped full g)) :
    s'.fs.Sole vis full := by
  rcases callerBody_plain Γ env t f hk with ⟨r, hr⟩ | ⟨full', hw, hr, s₁, hu, hs⟩
  · rw [h] at hr
    cases hr
  · rw [h] at hr hs
    cases hr
    obtain rfl : s' = s₁.lock f := hs
    cases k with
    | «open» full' writable =>
      have hfull : full' = full := (Option.ite_none_right_eq_some.mp hw).2 |> Option.some.inj
      subst hfull
      exact hopens full' hw t f rfl hname s₁ hu
    | _ => cases hw

/-- A thread comes to the place between `do_undedup` and `file_open` out of `direct_open`. -/
theorem ClientStep.of_undeduped {wants : Nat → Prop} {b b' : Books} {full : Filename} {g : Nat}
    (hs : ClientStep free wants b pc b' (.undeduped full g)) :
    (∃ k, pc = .opening k) ∨ (∃ k force, pc = .purging [] (some k) force) ∨ ∃ k f seen, pc = .waiting k f seen := by
  cases hs with
  | quiet _ hpc => exact hpc.elim
  | found => exact .inl ⟨_, rfl⟩
  | new => exact .inl ⟨_, rfl⟩
  | purgeNew => exact .inr (.inl ⟨_, _, rfl⟩)
  | wake => exact .inr (.inr ⟨_, _, _, rfl⟩)
  | locked _ _ _ hpc => rcases hpc with hpc | ⟨hpc, _⟩ <;> cases hpc
  | unlocked _ _ hpc => rcases hpc with hpc | ⟨hpc, _⟩ <;> cases hpc

/-- When it comes there, the file is its own. -/
theorem clientStep_sole {full : Filename} {g : Nat} (hk : Knows s pc) (hpc : pc.plain = true)
    (hopens : ∀ full, pc.opensWriting = some full → Opens Γ env vis s.fs full)
    (h : clientStep Γ env free s pc = some (s', .undeduped full g)) : s'.fs.Sole vis full := by
  have hnew : ∀ {k : Caller} {t : State}, t.fs = s.fs → k.plain = true →
      (∀ full, k.opensWriting = some full → Opens Γ env vis s.fs full) → some (directOpenNew Γ env t k) = some (s', .undeduped full g) →
      s'.fs.Sole vis full := by
    intro k t hfs hplain hopens hr
    have hfile : (directOpenAdd Γ t k.filename).files t.nextFile = directNewFile Γ t k.filename := Function.update_self _ _ _
    refine callerBody_sole hplain (by rw [hfile]; rfl) ?_ (Option.some.inj hr)
    have hsame : (directOpenAdd Γ t k.filename).fs = s.fs := hfs
    rw [hsame]
    exact hopens
  have hwait : ∀ {k : Caller} {f : Nat} {t : State}, t.fs = s.fs → (t.files f).filename = k.filename → k.plain = true →
      (∀ full, k.opensWriting = some full → Opens Γ env vis s.fs full) → some (directOpenWait Γ env t f k) = some (s', .undeduped full g) →
      s'.fs.Sole vis full := by
    intro k f t hfs hname hplain hopens hr
    unfold directOpenWait at hr
    split at hr
    · cases hr
    · exact callerBody_sole hplain hname (hfs ▸ hopens) (Option.some.inj hr)
  rcases (clientStep_refines Γ env s h).of_undeduped with ⟨k, rfl⟩ | ⟨k, force, rfl⟩ | ⟨k, f, seen, rfl⟩
  · rw [clientStep] at h
    split at h
    · unfold directOpenStart at h
      split at h
      · rename_i f hfind
        have hname := List.find?_some hfind
        rw [decide_eq_true_eq] at hname
        split at h
        · refine hwait (t := directOpenFound s f) rfl ?_ hpc hopens h
          unfold directOpenFound
          rw [State.files_modFile, if_pos rfl]
          exact hname
        · cases h
      · dsimp only at h
        split at h
        · cases h
        · exact hnew (t := { s with entries := s.entries + 1 }) rfl hpc hopens h
    · cases h
  · rw [clientStep] at h
    simp only [Pc.plain, Option.all_some, Bool.and_eq_true] at hpc
    exact hnew rfl hpc.2 hopens h
  · rw [clientStep] at h
    split at h
    · exact hwait rfl (hk.waiting k f seen rfl).2 hpc hopens h
    · cases h

/-- A `pwrite` is made on what the descriptor has open. -/
theorem writeLocked_pwrite {d : Nat} {buf : Bytes} {offset : Nat} {fd : Option Fd}
    (h : writeLocked Γ env s f d buf offset = (s', .pwrite fd)) : fd = (s'.descs d).fd := by
  unfold writeLocked at h
  dsimp only at h
  split at h
  · -- `direct_compress` only after it has decompressed the file
    unfold directCompress at h
    dsimp only at h
    have hnone : ∀ {m : Module} {t : State}, compressWrite Γ env t m f d buf ≠ (s', .pwrite fd) := by
      intro m t
      unfold compressWrite
      split
      · split
        · exact fun hn => by cases hn
        · dsimp only
          split
          · exact fun hn => by cases hn
          · exact fun hn => by cases hn
      · exact fun hn => by cases hn
    split at h
    · split at h
      · cases h
      · cases h
        rfl
    · split at h
      · split at h
        · cases h
        · exact absurd h hnone
      · exact absurd h hnone
  · cases h
    rfl

/-- A thread comes to a `pwrite` when it is asked to write. -/
theorem clientStep_pwriting {d : Nat} {fd : Option Fd} {buf : Bytes} {offset : Nat} {op : Nat × Nat} (hdesc : pc.desc = some op)
    (h : clientStep Γ env free s pc = some (s', .pwriting d f fd buf offset)) :
    pc = .fetched d (.write buf offset) f ∧ fd = (s'.descs d).fd := by
  cases pc with
  | fetched d' op f' =>
    rw [clientStep] at h
    split at h
    · cases op with
      | read size offset' =>
        unfold descLocked at h
        dsimp only at h
        split at h
        · split at h
          · cases h
          · cases h
        · cases h
      | write buf' offset' =>
        unfold descLocked at h
        dsimp only at h
        split at h
        · split at h
          · cases h
          · cases h
        · rename_i hwrite
          cases h
          exact ⟨rfl, writeLocked_pwrite hwrite⟩
      | release => cases h
    · cases h
  | preading => cases h
  | preaded d' f' res relock =>
    cases res with
    | some buf =>
      rw [clientStep] at h
      split at h
      · cases h
      · cases h
    | none =>
      rw [clientStep] at h
      split at h
      · cases h
      · cases h
  | pwriting =>
    rw [clientStep] at h
    split at h
    · cases h
    · cases h
  | pwrote d' f' res =>
    cases res with
    | some len =>
      rw [clientStep] at h
      split at h
      · cases h
      · cases h
    | none =>
      rw [clientStep] at h
      split at h
      · cases h
      · cases h
  | _ => cases hdesc

/-- A thread gets a request on a descriptor from the kernel only. -/
theorem clientStep_fetched {d : Nat} {op : DescOp} {r : Nat × Nat} (hdesc : pc.desc = some r) :
    clientStep Γ env free s pc ≠ some (s', .fetched d op f) := by
  intro h
  cases pc with
  | fetched d' op f' =>
    rw [clientStep] at h
    split at h
    · cases op with
      | read size offset' =>
        unfold descLocked at h
        dsimp only at h
        split at h
        · split at h
          · cases h
          · cases h
        · cases h
      | write buf' offset' =>
        unfold descLocked at h
        dsimp only at h
        split at h
        · split at h
          · cases h
          · cases h
        · cases h
      | release => cases h
    · cases h
  | preading => cases h
  | preaded d' f' res relock =>
    cases res with
    | some buf =>
      rw [clientStep] at h
      split at h
      · cases h
      · cases h
    | none =>
      rw [clientStep] at h
      split at h
      · cases h
      · cases h
  | pwriting =>
    rw [clientStep] at h
    split at h
    · cases h
    · cases h
  | pwrote d' f' res =>
    cases res with
    | some len =>
      rw [clientStep] at h
      split at h
      · cases h
      · cases h
    | none =>
      rw [clientStep] at h
      split at h
      · cases h
      · cases h
  | _ => cases hdesc

end Places

end FuseCompress
