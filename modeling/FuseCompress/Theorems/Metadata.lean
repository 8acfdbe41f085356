import FuseCompress.Lemmas.Metadata
import FuseCompress.Theorems.Database

/-!
# Attribute requests are not lost

Between requests the path has attributes that the requests that have succeeded may leave (`Reached`, `Settled`). At most one request is
between its calls, and then what it relies on holds (`Holds`). `do_compress` and `do_decompress` replace the inode by one with the
same attributes, which is of no consequence to either.
-/

namespace FuseCompress

variable {T : Type} {Γ : Config} {f : Nat} {p : Filename} {a : Attr} {sys sys' : MetaSys T}

/-! ## The invariant -/

/-- Nobody is between the calls of a request and the path has the attributes expected; or one request is between its calls. -/
def MetaSys.OneAtATime (Γ : Config) (p : Filename) (e : Attr) (sys : MetaSys T) : Prop :=
  (Settled Γ sys.shared.fs p e ∧ ∀ t, ¬(sys.clients t).Underway Γ) ∨
    ∃ t c pc, sys.clients t = .attr c pc ∧ Γ.dedupEnabled = true ∧ Holds Γ sys.shared.fs p e c pc ∧
      ∀ u, u ≠ t → ¬(sys.clients u).Underway Γ

/-- What every step keeps. `a` are the attributes at the start. -/
structure MetaSys.Invariant (Γ : Config) (f : Nat) (p : Filename) (a : Attr) (sys : MetaSys T) : Prop where
  filename : (sys.shared.files f).filename = p
  requests : ∃ e, Reached a sys.succeeded e ∧ sys.OneAtATime Γ p e
  typed : sys.shared.Typed f
  counted : ((sys.shared.files f).head.length : Int) ≤ (sys.shared.files f).accesses
  job : ∀ job, sys.worker = some job → job.file = f ∧ (sys.shared.files f).head = []

/-- Whatever a request relies on, the path is a regular file. -/
theorem Holds.at {b : Backing} {e : Attr} {c : AttrChange} {pc : AttrPc} (hd : Γ.dedupEnabled = true) (h : Holds Γ b p e c pc) :
    ∃ i, b.inoOf p = some i := by
  cases pc with
  | stat =>
    obtain ⟨i, k, hat, -⟩ := h
    exact ⟨i, hat.ino⟩
  | statAttr st nlink =>
    obtain ⟨i, k, hat, -⟩ := h
    exact ⟨i, hat.ino⟩
  | unlinkAttr =>
    obtain ⟨i, j, hat, -⟩ := h
    exact ⟨i, hat.ino⟩
  | createOpen st =>
    obtain ⟨i, hat, -⟩ := h
    exact ⟨i, hat.ino⟩
  | createMode j st =>
    obtain ⟨i, hat, -⟩ := h
    exact ⟨i, hat.ino⟩
  | createOwner j st =>
    obtain ⟨i, hat, -⟩ := h
    exact ⟨i, hat.ino⟩
  | createTimes j st =>
    obtain ⟨i, hat, -⟩ := h
    exact ⟨i, hat.ino⟩
  | onAttr =>
    obtain ⟨i, j, hat, -⟩ := h
    exact ⟨i, hat.ino⟩
  | onFile =>
    simp only [Holds, hd, if_true] at h
    obtain ⟨i, hat, -⟩ := h
    exact ⟨i, hat.ino⟩

theorem MetaSys.OneAtATime.regular {e : Attr} (h : sys.OneAtATime Γ p e) : ∃ i, sys.shared.fs.inoOf p = some i := by
  rcases h with ⟨⟨i, k, hat, -⟩, -⟩ | ⟨t, c, pc, -, hd, hholds, -⟩
  · exact ⟨i, hat.ino⟩
  · exact hholds.at hd

/-- The inode may be replaced at any time. -/
theorem MetaSys.OneAtATime.replaced {e : Attr} {s : State} (h : sys.OneAtATime Γ p e) (hr : sys.shared.fs.Replaced s.fs p) :
    ({ sys with shared := s } : MetaSys T).OneAtATime Γ p e := by
  rcases h with ⟨hsettled, hidle⟩ | ⟨t, c, pc, hpc, hd, hholds, hidle⟩
  · exact Or.inl ⟨hsettled.replaced hr, hidle⟩
  · exact Or.inr ⟨t, c, pc, hpc, hd, hholds.replaced hr, hidle⟩

/-- When nobody is between the calls of a request, the path has the attributes expected. -/
theorem MetaSys.OneAtATime.settled {e : Attr} (h : sys.OneAtATime Γ p e) (hidle : ∀ t, ¬(sys.clients t).Underway Γ) :
    Settled Γ sys.shared.fs p e := by
  rcases h with ⟨hsettled, -⟩ | ⟨t, c, pc, hpc, hd, hholds, -⟩
  · exact hsettled
  · have hstart : pc = attrStart Γ := by
      by_contra hn
      exact hidle t (by rw [hpc]; exact hn)
    rw [hstart, attrStart, if_pos hd] at hholds
    exact hholds

theorem holds_attrStart {b : Backing} {e : Attr} {c : AttrChange} (h : Settled Γ b p e) : Holds Γ b p e c (attrStart Γ) := by
  unfold attrStart
  split
  · exact h
  · rename_i hd
    simp only [Holds, hd]
    exact h

theorem attrStart_of_not_dedup (hd : Γ.dedupEnabled = false) : attrStart Γ = .onFile := by
  rw [attrStart, hd]
  rfl

/-- When no other request is between its calls, what a request relies on before its next call holds. -/
theorem MetaSys.OneAtATime.holds {e : Attr} {t : T} {c : AttrChange} {pc : AttrPc} (h : sys.OneAtATime Γ p e)
    (hpc : sys.clients t = .attr c pc) (halone : Γ.dedupEnabled = true → ∀ u, u ≠ t → ¬(sys.clients u).Underway Γ) :
    Holds Γ sys.shared.fs p e c pc ∧ (Γ.dedupEnabled = false → pc = .onFile) ∧ ∀ u, u ≠ t → ¬(sys.clients u).Underway Γ := by
  by_cases hstart : pc = attrStart Γ
  · -- its first call: then nobody is between calls
    have hself : ¬(sys.clients t).Underway Γ := by
      rw [hpc]
      exact fun hn => hn hstart
    have hothers : ∀ u, u ≠ t → ¬(sys.clients u).Underway Γ := by
      rcases h with ⟨-, hidle⟩ | ⟨-, -, -, -, hd, -⟩
      · exact fun u _ => hidle u
      · exact halone hd
    have hidle : ∀ u, ¬(sys.clients u).Underway Γ := by
      intro u
      by_cases hu : u = t
      · rw [hu]
        exact hself
      · exact hothers u hu
    subst hstart
    exact ⟨holds_attrStart (h.settled hidle), attrStart_of_not_dedup, hothers⟩
  · have hself : (sys.clients t).Underway Γ := by
      rw [hpc]
      exact hstart
    rcases h with ⟨-, hidle⟩ | ⟨t', c', pc', hpc', hd, hholds, hidle⟩
    · exact absurd hself (hidle t)
    · have ht : t = t' := by
        by_contra hn
        exact hidle t hn hself
      subst ht
      rw [hpc, MetaPc.attr.injEq] at hpc'
      obtain ⟨rfl, rfl⟩ := hpc'
      refine ⟨hholds, fun hoff => ?_, hidle⟩
      rw [hd] at hoff
      cases hoff

/-! ## The background thread and `do_decompress` -/

section Background

variable {env : Env}

/-- The first part of `do_compress`. -/
theorem MetaSys.Invariant.compressBegin (h : sys.Invariant Γ f p a) (env : Env) (hhead : (sys.shared.files f).head = []) :
    ({ sys with shared := (doCompressBegin Γ env sys.shared f).1, worker := (doCompressBegin Γ env sys.shared f).2 } :
      MetaSys T).Invariant Γ f p a := by
  obtain ⟨-, hfs, hjob⟩ := doCompressBegin_local Γ env sys.shared f
  have hsame : ((doCompressBegin Γ env sys.shared f).1.files f).filename = (sys.shared.files f).filename ∧
      ((doCompressBegin Γ env sys.shared f).1.files f).head = (sys.shared.files f).head ∧
      ((doCompressBegin Γ env sys.shared f).1.files f).accesses = (sys.shared.files f).accesses := by
    rcases books_doCompressBegin Γ env sys.shared f with ⟨-, hbooks⟩ | ⟨_, -, -, hbooks⟩
    · exact ⟨congrFun (congrArg Books.filename hbooks) f, congrFun (congrArg Books.head hbooks) f,
        congrFun (congrArg Books.accesses hbooks) f⟩
    · exact ⟨congrFun (congrArg Books.filename hbooks) f, congrFun (congrArg Books.head hbooks) f,
        congrFun (congrArg Books.accesses hbooks) f⟩
  obtain ⟨hname, hhead', haccesses⟩ := hsame
  have hempty : ((doCompressBegin Γ env sys.shared f).1.files f).head = [] := hhead'.trans hhead
  obtain ⟨e, hreached, hrequests⟩ := h.requests
  refine ⟨hname.trans h.filename, ⟨e, hreached, hrequests.replaced ?_⟩, ?_, ?_, fun job hsome => ⟨hjob job hsome, hempty⟩⟩
  · rw [hfs]
    exact Backing.Replaced.refl _ _
  · rintro ⟨d, hd, -⟩
    rw [hempty] at hd
    cases hd
  · rw [hhead', haccesses]
    exact h.counted

/-- The second part of `do_compress`. -/
theorem MetaSys.Invariant.compressEnd (hp : p ≠ fuseattrName p) (h : sys.Invariant Γ f p a) {job : Job} (hjob : sys.worker = some job)
    (hcareful : Installs env sys.shared job →
      env.Copies ∧ (sys.shared.fs.attrOf p).map Attr.inSeconds = some job.attr.inSeconds) :
    ({ sys with shared := (doCompressEnd Γ env sys.shared job (sys.shared.data job.ino) true).1, worker := none } :
      MetaSys T).Invariant Γ f p a := by
  obtain ⟨rfl, hhead⟩ := h.job job hjob
  have hbooks := books_doCompressEnd Γ env sys.shared job (sys.shared.data job.ino) true
  have hname := congrFun (congrArg Books.filename hbooks) job.file
  have hhead' := congrFun (congrArg Books.head hbooks) job.file
  have haccesses := congrFun (congrArg Books.accesses hbooks) job.file
  have hempty : ((doCompressEnd Γ env sys.shared job (sys.shared.data job.ino) true).1.files job.file).head = [] :=
    hhead'.trans hhead
  obtain ⟨e, hreached, hrequests⟩ := h.requests
  refine ⟨hname.trans h.filename, ⟨e, hreached, hrequests.replaced (doCompressEnd_replaced hp h.filename hcareful)⟩, ?_, ?_,
    fun _ hn => by cases hn⟩
  · rintro ⟨d, hd, -⟩
    rw [hempty] at hd
    cases hd
  · exact (congrArg (fun l => (List.length l : Int)) hhead').trans_le (h.counted.trans_eq haccesses.symm)

/-- `do_decompress`. -/
theorem MetaSys.Invariant.decompress (hp : p ≠ fuseattrName p) (h : sys.Invariant Γ f p a) (hworker : sys.worker = none)
    (hcopies : env.Copies) (hattached : sys.shared.Attached f)
    (hwriting : sys.shared.KeepsTimes env f) (hmode : sys.shared.KeepsMode f) :
    ({ sys with shared := (doDecompress Γ env sys.shared f).1 } : MetaSys T).Invariant Γ f p a := by
  obtain ⟨hreplaced, htyped⟩ := doDecompress_replaced (Γ := Γ) hp hcopies h.filename hattached h.typed hwriting hmode h.counted
  have hsame : ((doDecompress Γ env sys.shared f).1.files f).filename = (sys.shared.files f).filename ∧
      ((doDecompress Γ env sys.shared f).1.files f).head = (sys.shared.files f).head ∧
      ((doDecompress Γ env sys.shared f).1.files f).accesses = (sys.shared.files f).accesses := by
    rcases acked_doDecompress Γ env sys.shared f with hbooks | ⟨-, hbooks⟩
    · exact ⟨congrFun (congrArg Books.filename hbooks) f, congrFun (congrArg Books.head hbooks) f,
        congrFun (congrArg Books.accesses hbooks) f⟩
    · exact ⟨congrFun (congrArg Books.filename hbooks) f, congrFun (congrArg Books.head hbooks) f,
        congrFun (congrArg Books.accesses hbooks) f⟩
  obtain ⟨hname, hhead, haccesses⟩ := hsame
  obtain ⟨e, hreached, hrequests⟩ := h.requests
  refine ⟨hname.trans h.filename, ⟨e, hreached, hrequests.replaced hreplaced⟩, htyped, ?_, fun job hn => ?_⟩
  · rw [hhead, haccesses]
    exact h.counted
  · rw [hworker] at hn
    cases hn

end Background

/-! ## The requests -/

section Requests

variable {env : Env} {t : T}

/-- Only the backing directory and the requests change. -/
theorem MetaSys.Invariant.requested (h : sys.Invariant Γ f p a) {b : Backing} {clients : T → MetaPc} {succeeded : List AttrChange}
    {e : Attr} (hreached : Reached a succeeded e)
    (hrequests : ({ sys with shared := { sys.shared with fs := b }, clients := clients, succeeded := succeeded } :
      MetaSys T).OneAtATime Γ p e) :
    ({ sys with shared := { sys.shared with fs := b }, clients := clients, succeeded := succeeded } : MetaSys T).Invariant
      Γ f p a where
  filename := h.filename
  requests := ⟨e, hreached, hrequests⟩
  typed := h.typed
  counted := h.counted
  job := h.job

variable [DecidableEq T]

theorem not_underway_idle : ¬MetaPc.idle.Underway Γ := id

theorem not_underway_metaStart (c : AttrChange) : ¬(metaStart Γ c).Underway Γ := by
  cases c with
  | mode bits => exact fun hn => hn rfl
  | owner uid gid => exact fun hn => hn rfl
  | times atime mtime => exact id

/-- A thread is at a place between requests, and the others are where they were. -/
theorem not_underway_update {pc : MetaPc} {clients : T → MetaPc} (hpc : ¬pc.Underway Γ)
    (hothers : ∀ u, u ≠ t → ¬(clients u).Underway Γ) (u : T) : ¬(Function.update clients t pc u).Underway Γ := by
  by_cases hu : u = t
  · subst hu
    rw [Function.update_self]
    exact hpc
  · rw [Function.update_of_ne hu]
    exact hothers u hu

/-- A thread moves between places outside the calls of a request. -/
theorem MetaSys.OneAtATime.move {e : Attr} {pc : MetaPc} (h : sys.OneAtATime Γ p e)
    (hnow : ∀ c pc, sys.clients t ≠ .attr c pc) (hpc : ¬pc.Underway Γ) :
    ({ sys with clients := Function.update sys.clients t pc } : MetaSys T).OneAtATime Γ p e := by
  rcases h with ⟨hsettled, hidle⟩ | ⟨t', c', pc', hpc', hd, hholds, hidle⟩
  · exact Or.inl ⟨hsettled, not_underway_update hpc (fun u _ => hidle u)⟩
  · have hne : t' ≠ t := by
      rintro rfl
      exact hnow _ _ hpc'
    refine Or.inr ⟨t', c', pc', ?_, hd, hholds, fun u hu => ?_⟩
    · exact (Function.update_of_ne hne _ _).trans hpc'
    · by_cases hut : u = t
      · subst hut
        change ¬(Function.update sys.clients u pc u).Underway Γ
        rw [Function.update_self]
        exact hpc
      · change ¬(Function.update sys.clients t pc u).Underway Γ
        rw [Function.update_of_ne hut]
        exact hidle u hu

/-- A request that has just succeeded is the last one that has. -/
theorem Reached.leaves {cs : List AttrChange} {c : AttrChange} {e e' : Attr} {res : Bool} (h : Reached a cs e)
    (hleaves : c.Leaves e res e') : Reached a (cs ++ (if res then some c else none).toList) e' := by
  cases res with
  | false =>
    have he : e' = e := hleaves
    rw [he]
    simpa using h
  | true => exact h.snoc hleaves

/-- A system call of `chmod` or `chown`. -/
theorem MetaSys.Invariant.attr {c : AttrChange} {pc : AttrPc} (hp : p ≠ fuseattrName p) (h : sys.Invariant Γ f p a)
    (hpc : sys.clients t = .attr c pc)
    (hcareful : Γ.dedupEnabled = true → env.AttrFile ∧ (∀ u, u ≠ t → ¬(sys.clients u).Underway Γ) ∧
      (sys.clients t).KeepsSetId env sys.shared.fs p)
    {r : State × MetaPc × Option AttrChange} (hr : metaClient Γ env sys.shared p (.attr c pc) = some r) :
    ({ sys with
      shared := r.1
      clients := Function.update sys.clients t r.2.1
      succeeded := sys.succeeded ++ r.2.2.toList } : MetaSys T).Invariant Γ f p a := by
  obtain ⟨e, hreached, hrequests⟩ := h.requests
  obtain ⟨hholds, hoff, hothers⟩ := hrequests.holds hpc (fun hd => (hcareful hd).2.1)
  have hlast : pc = .onAttr → Settled Γ sys.shared.fs p e ∨ c.setsMode = true ∧ env.ok c.call = true := by
    rintro rfl
    have hd : Γ.dedupEnabled = true := by
      cases hd : Γ.dedupEnabled with
      | true => rfl
      | false => cases hoff hd
    obtain ⟨-, -, hkeeps⟩ := hcareful hd
    rw [hpc] at hkeeps
    exact hholds.settled_or hd hkeeps
  have hstep := attrStep_continues hp (fun hd => (hcareful hd).1) hoff hlast hholds
  have hfinal : Γ.dedupEnabled = false → ∃ res : Backing × Bool, attrStep Γ env sys.shared.fs p c pc = (res.1, .inr res.2) := by
    intro hd
    rw [hoff hd]
    exact ⟨sys.shared.fs.change env p c, rfl⟩
  simp only [metaClient] at hr
  split at hr
  · rename_i b pc' heq
    cases hr
    rw [heq] at hstep hfinal
    obtain ⟨hnext, -⟩ := hstep
    have hd : Γ.dedupEnabled = true := by
      by_contra hn
      obtain ⟨res, hres⟩ := hfinal (by simpa using hn)
      cases hres
    refine h.requested (by simpa using hreached) (Or.inr ⟨t, c, pc', Function.update_self _ _ _, hd, hnext, fun u hu => ?_⟩)
    change ¬(Function.update sys.clients t _ u).Underway Γ
    rw [Function.update_of_ne hu]
    exact hothers u hu
  · rename_i b res heq
    cases hr
    rw [heq] at hstep
    obtain ⟨e', hleaves, hsettled⟩ := hstep
    exact h.requested (hreached.leaves hleaves) (Or.inl ⟨hsettled, not_underway_update not_underway_idle hothers⟩)

/-- The part of `utime` under the lock. -/
theorem MetaSys.Invariant.utimeLock {c : AttrChange} (hp : p ≠ fuseattrName p) (h : sys.Invariant Γ f p a)
    (hpc : sys.clients t = .utimeLock c)
    (hcareful : Γ.dedupEnabled = true → env.AttrFile ∧ (∀ u, u ≠ t → ¬(sys.clients u).Underway Γ) ∧
      (sys.clients t).KeepsSetId env sys.shared.fs p) :
    ({ sys with
      shared := (utimeLocked Γ env sys.shared p c).1
      clients := Function.update sys.clients t .idle
      succeeded := sys.succeeded ++ (if (utimeLocked Γ env sys.shared p c).2 = .ok then some c else none).toList } :
        MetaSys T).Invariant Γ f p a := by
  obtain ⟨e, hreached, hrequests⟩ := h.requests
  have hself : ¬(sys.clients t).Underway Γ := by
    rw [hpc]
    exact id
  have hothers : ∀ u, u ≠ t → ¬(sys.clients u).Underway Γ := by
    rcases hrequests with ⟨-, hidle⟩ | ⟨-, -, -, -, hd, -⟩
    · exact fun u _ => hidle u
    · exact (hcareful hd).2.1
  have hidle : ∀ u, ¬(sys.clients u).Underway Γ := by
    intro u
    by_cases hu : u = t
    · rw [hu]
      exact hself
    · exact hothers u hu
  obtain ⟨e', hleaves, hsettled⟩ := attrRun_start_settled (c := c) hp (fun hd => (hcareful hd).1)
    (fun hd => hpc ▸ (hcareful hd).2.2) (hrequests.settled hidle)
  have hreply : (if (utimeLocked Γ env sys.shared p c).2 = .ok then some c else none) =
      if (attrRun Γ env p c 8 sys.shared.fs (attrStart Γ)).2 then some c else none := by
    unfold utimeLocked
    dsimp only
    split <;> rfl
  rw [hreply]
  exact h.requested (hreached.leaves hleaves) (Or.inl ⟨hsettled, not_underway_update not_underway_idle hothers⟩)

/-- A thread goes on with its request. -/
theorem MetaSys.Invariant.client (hp : p ≠ fuseattrName p) (h : sys.Invariant Γ f p a)
    (hcareful : Γ.dedupEnabled = true → env.AttrFile ∧ (∀ u, u ≠ t → ¬(sys.clients u).Underway Γ) ∧
      (sys.clients t).KeepsSetId env sys.shared.fs p)
    {r : State × MetaPc × Option AttrChange} (hr : metaClient Γ env sys.shared p (sys.clients t) = some r) :
    ({ sys with
      shared := r.1
      clients := Function.update sys.clients t r.2.1
      succeeded := sys.succeeded ++ r.2.2.toList } : MetaSys T).Invariant Γ f p a := by
  cases hpc : sys.clients t with
  | idle =>
    rw [hpc] at hr
    cases hr
  | utimeStat c =>
    rw [hpc] at hr
    obtain ⟨e, hreached, hrequests⟩ := h.requests
    obtain ⟨i, hi⟩ := hrequests.regular
    have hregular : sysGetattr Γ env sys.shared.fs p ≠ .notRegular := by
      unfold sysGetattr
      rw [Backing.inoOf_eq_some.mp hi]
      split
      · exact Lstat.noConfusion
      · rename_i hdir
        split at hdir
        · cases hdir
        · cases hdir
      · exact Lstat.noConfusion
    simp only [metaClient] at hr
    cases hr
    exact h.requested (b := sys.shared.fs) (by simpa using hreached)
      (hrequests.move (fun c pc hn => by rw [hpc] at hn; cases hn) id)
  | utimeLock c =>
    rw [hpc] at hr
    cases hr
    exact h.utimeLock hp hpc hcareful
  | attr c pc =>
    rw [hpc] at hr
    exact h.attr hp hpc hcareful hr

/-- Every step keeps the invariant. -/
theorem MetaSys.Invariant.step (hp : p ≠ fuseattrName p) {label : MetaLabel T} (h : sys.Invariant Γ f p a)
    (hcareful : sys.Careful Γ f label) (hstep : sys.step Γ f label = some sys') : sys'.Invariant Γ f p a := by
  cases label with
  | request t c =>
    simp only [MetaSys.step] at hstep
    split at hstep
    · rename_i hidle
      cases hstep
      obtain ⟨e, hreached, hrequests⟩ := h.requests
      exact h.requested (b := sys.shared.fs) hreached
        (hrequests.move (fun c pc hn => by rw [hidle] at hn; cases hn) (not_underway_metaStart c))
    · cases hstep
  | client t env =>
    simp only [MetaSys.step, Option.map_eq_some_iff, h.filename] at hstep
    obtain ⟨r, hr, rfl⟩ := hstep
    exact h.client hp (h.filename ▸ hcareful) hr
  | compressBegin env =>
    simp only [MetaSys.step] at hstep
    split at hstep
    · rename_i hready
      cases hstep
      exact h.compressBegin env hready.2
    · cases hstep
  | compressEnd env =>
    simp only [MetaSys.step, Option.map_eq_some_iff] at hstep
    obtain ⟨job, hjob, rfl⟩ := hstep
    refine h.compressEnd hp hjob (fun hinstalls => ?_)
    rw [← h.filename]
    exact hcareful job hjob hinstalls
  | decompress env =>
    simp only [MetaSys.step] at hstep
    split at hstep
    · rename_i hworker
      cases hstep
      exact h.decompress hp hworker hcareful.1 hcareful.2.1 hcareful.2.2.1 hcareful.2.2.2
    · cases hstep

end Requests

/-! ## Runs -/

section Runs

/-- At the start the path shows the attributes of its attribute file or of its inode. -/
theorem MetaSys.Start.settled (h : sys.Start f) : ∃ a, Settled Γ sys.shared.fs (sys.shared.files f).filename a := by
  obtain ⟨i, hi⟩ := Option.ne_none_iff_exists'.mp h.regular
  obtain ⟨k, hat⟩ := h.overlaid.exists_at h.visible hi
  cases k with
  | none => exact ⟨(sys.shared.fs.inodes i).attr, i, none, hat, rfl⟩
  | some j =>
    cases hd : Γ.dedupEnabled with
    | true =>
      refine ⟨(sys.shared.fs.inodes j).attr, i, some j, hat, ?_⟩
      unfold Backing.Agrees
      dsimp only
      rw [if_pos hd]
      exact ⟨rfl, h.overlaid.regular j (hat.attr_lt j rfl).1⟩
    | false =>
      refine ⟨(sys.shared.fs.inodes i).attr, i, some j, hat, ?_⟩
      simp only [Backing.Agrees, hd, Bool.false_eq_true, if_false]

theorem MetaSys.Start.invariant (h : sys.Start f) : ∃ a, sys.Invariant Γ f (sys.shared.files f).filename a := by
  obtain ⟨a, ha⟩ := h.settled (Γ := Γ)
  refine ⟨a, rfl, ⟨a, ?_, Or.inl ⟨ha, fun t => ?_⟩⟩, h.writing, h.counted, fun job hjob => ?_⟩
  · rw [h.succeeded]
    exact .nil
  · rw [h.clients t]
    exact not_underway_idle
  · rw [h.worker] at hjob
    cases hjob

/-- The last request that changed an attribute has left its value there. -/
theorem MetaSys.Invariant.kept (h : sys.Invariant Γ f p a) (hidle : ∀ t, ¬(sys.clients t).Underway Γ) : sys.Kept Γ f := by
  intro before c after field v hsucceeded hv hafter
  obtain ⟨e, hreached, hrequests⟩ := h.requests
  obtain ⟨shown, hshown, hseconds⟩ := (hrequests.settled hidle).visible
  refine ⟨shown, ?_, ?_⟩
  · rw [h.filename]
    exact hshown
  · rw [field_of_inSeconds hseconds]
    rw [hsucceeded] at hreached
    exact hreached.field hv hafter

variable [DecidableEq T]

/-- In every run in which nobody changes the attributes while `do_compress` is under way, the calls that copy attributes succeed and
no set-id bit gets lost, no attribute request that has succeeded is lost. -/
theorem metadata_kept {sys₀ : MetaSys T} {labels : List (MetaLabel T)} (hstart : sys₀.Start f)
    (h : Run (MetaSys.step Γ f) (MetaSys.Careful Γ f) sys₀ labels sys) (hdone : ∀ t, ¬(sys.clients t).Underway Γ) :
    sys.Kept Γ f := by
  obtain ⟨a, hinvariant⟩ := hstart.invariant (Γ := Γ)
  have hp := ne_fuseattrName hstart.visible (sys₀.shared.files f).filename
  exact (h.invariant (fun _ _ _ hs hcareful hstep => hs.step hp hcareful hstep) hinvariant).kept hdone

end Runs

/-- A backing directory with one file, `a`. -/
def Backing.single (data : Bytes) (a : Attr) : Backing :=
  { Backing.twoLinks with
    names := [(['a'], .reg 0)]
    inodes := fun _ => ⟨data, a⟩ }

theorem overlaid_single (data : Bytes) {a : Attr} (h : a.Regular) : (Backing.single data a).Overlaid where
  exists_inode := by
    intro p i hp
    cases hp with
    | head => exact Nat.zero_lt_one
    | tail _ hp => cases hp
  attrFile := by
    intro p n hn
    have ha : ['a'] ≠ fuseattrName p := ne_fuseattrName (by decide) p
    change (Assoc.find [(['a'], Node.reg 0)] (fuseattrName p)) = some n at hn
    simp [Assoc.find_cons, ha] at hn
  regular _ _ := h

/-- A backing directory with a file of one byte. -/
def Backing.oneByte : Backing :=
  { Backing.twoLinks with
    names := [(['a'], .reg 0)]
    inodes := fun _ => ⟨[120], { mode := 0o100644, uid := 0, gid := 0, atime := 0, mtime := 0 }⟩ }

theorem start_oneByte (Γ : Config) (T : Type) : (MetaSys.mounted Γ .oneByte ['a'] : MetaSys T).Start 0 where
  overlaid := overlaid_single [120] (a := { mode := 0o100644, uid := 0, gid := 0, atime := 0, mtime := 0 })
    ⟨by decide, by decide, by decide⟩
  regular := Option.some_ne_none 0
  visible := by
    show isInternal ['a'] = false
    decide
  clients _ := rfl
  worker := rfl
  succeeded := rfl
  writing := by
    rintro ⟨d, hd, -⟩
    cases hd
  counted := Int.le_refl 0

/-- A request that is over before `do_compress` starts, and one that sets the times after it has ended. -/
def chmodBeforeCompress {T : Type} (t : T) : List (MetaLabel T) :=
  [.request t (.mode 0o100600), .client t .fine, .compressBegin .fine, .request t (.times 0 5), .client t .fine, .compressEnd .fine,
    .client t .fine]

theorem metadata_kept_chmodBeforeCompress : ∃ sys : MetaSys (Fin 1),
    Run (MetaSys.step .anySize 0) (MetaSys.Careful .anySize 0) (MetaSys.mounted .anySize .oneByte ['a']) (chmodBeforeCompress 0) sys ∧
      sys.Kept .anySize 0 := by
  obtain ⟨sys, hrun, hidle⟩ := Run.exists_of_executeIf (show (executeIf (MetaSys.step .anySize 0) (MetaSys.Careful .anySize 0)
    (MetaSys.mounted .anySize .oneByte ['a'] : MetaSys (Fin 1)) (chmodBeforeCompress 0)).any
      (fun sys => decide (∀ t, ¬(sys.clients t).Underway .anySize)) = true by decide +kernel)
  rw [decide_eq_true_eq] at hidle
  exact ⟨sys, hrun, metadata_kept (start_oneByte _ _) hrun hidle⟩

/-- A request while `do_compress` is under way, which then puts its file in place. -/
def chmodDuringCompress {T : Type} (t : T) : List (MetaLabel T) :=
  [.compressBegin .fine, .request t (.mode 0o100600), .client t .fine, .compressEnd .fine]

/-- The file gets the mode back that it had when `do_compress` started. -/
theorem chmodDuringCompress_not_kept : ¬∀ (labels : List (MetaLabel (Fin 1))) (sys : MetaSys (Fin 1)),
    Run (MetaSys.step .anySize 0) (fun _ _ => True) (MetaSys.mounted .anySize .oneByte ['a']) labels sys →
      (∀ t, ¬(sys.clients t).Underway .anySize) → sys.Kept .anySize 0 := by
  intro h
  obtain ⟨sys, hrun, hbad⟩ := Run.exists_of_executeIf (show (executeIf (MetaSys.step .anySize 0) (fun _ _ => True)
    (MetaSys.mounted .anySize .oneByte ['a'] : MetaSys (Fin 1)) (chmodDuringCompress 0)).any
      (fun sys => decide ((∀ t, ¬(sys.clients t).Underway .anySize) ∧ sys.succeeded = [.mode 0o100600] ∧
        (visible .anySize sys.shared.fs (sys.shared.files 0).filename).map (·.field .mode) = some 0o644)) = true by decide +kernel)
  rw [decide_eq_true_eq] at hbad
  obtain ⟨hidle, hsucceeded, hmode⟩ := hbad
  obtain ⟨a, ha, hv⟩ := h _ sys hrun hidle [] (.mode 0o100600) [] .mode 0o600 hsucceeded rfl (fun _ hn => by cases hn)
  rw [ha, Option.map_some, hv] at hmode
  exact absurd hmode (by decide)

end FuseCompress
