import FuseCompress.Lemmas.Mirrors

/-!
# The operations beside the plain file system

Each operation on the mount, beside what it does to the plain file system. What a client cannot see comes first: the search for the
entry of a path, the purge of the database and the count of accesses leave everything that is shown (`State.Unseen`).
-/

namespace FuseCompress

variable {Γ : Config} {env : Env} {s s' s'' : State} {q q' : PlainFs Filename} {refs refs' : Nat → Nat} {f g i d : Nat} {p : Filename}
  {content : Bytes}

/-! ## What no client sees -/

/-- The mount shows the same files through the same descriptors. -/
structure State.Unseen (Γ : Config) (s s' : State) (q : PlainFs Filename) (refs : Nat → Nat) : Prop where
  ready : s'.Ready refs
  mirrors : s'.Mirrors Γ q
  fs : s'.fs = s.fs
  descs : s'.descs = s.descs
  nextDesc : s'.nextDesc = s.nextDesc
  nextFile : s.nextFile ≤ s'.nextFile
  filename : ∀ g, g < s.nextFile → (s'.files g).filename = (s.files g).filename

theorem State.Unseen.trans (h : s.Unseen Γ s' q refs) (h' : s'.Unseen Γ s'' q refs') : s.Unseen Γ s'' q refs' where
  ready := h'.ready
  mirrors := h'.mirrors
  fs := h'.fs.trans h.fs
  descs := h'.descs.trans h.descs
  nextDesc := h'.nextDesc.trans h.nextDesc
  nextFile := Nat.le_trans h.nextFile h'.nextFile
  filename g hg := (h'.filename g (Nat.lt_of_lt_of_le hg h.nextFile)).trans (h.filename g hg)

/-- The same paths are open. -/
theorem State.Unseen.hasOpen (h : s.Unseen Γ s' q refs') (hready : s.Ready refs) (p : Filename) : s'.hasOpen p ↔ s.hasOpen p := by
  unfold State.hasOpen
  rw [h.descs, h.nextDesc]
  refine exists_congr (fun d => and_congr_right (fun _ => and_congr_right (fun hlive => ?_)))
  have hmem : d ∈ (s.files (s.descs d).file).head := (hready.tidy.balanced.mem_head _ d).mpr ⟨hlive, rfl⟩
  rw [h.filename _ (hready.lt (hready.tidy.listed hmem))]

/-- An entry of a path is in use when a descriptor of the path is open. -/
theorem State.Ready.hasOpen_iff (h : s.Ready refs) (hf : f ∈ s.database) :
    s.hasOpen (s.files f).filename ↔ (s.files f).head ≠ [] := by
  constructor
  · rintro ⟨d, -, hlive, hname⟩ hnil
    have hmem : d ∈ (s.files (s.descs d).file).head := (h.tidy.balanced.mem_head _ d).mpr ⟨hlive, rfl⟩
    have hsame : (s.descs d).file = f := h.tidy.once _ (h.tidy.listed hmem) f hf hname
    rw [hsame, hnil] at hmem
    cases hmem
  · intro hne
    obtain ⟨d, hd⟩ := List.exists_mem_of_ne_nil _ hne
    obtain ⟨hlive, howner⟩ := h.head_owner hd
    exact ⟨d, h.tidy.balanced.live_lt d hlive, hlive, by rw [howner]⟩

/-- What an entry holds, when the mount mirrors the plain file system. -/
theorem State.Mirrors.holds (hm : s.Mirrors Γ q) (hf : f ∈ s.database) {k : Nat} (hk : q.file (s.files f).filename = some k) :
    ∃ i, s.fs.inoOf (s.files f).filename = some i ∧ s.Holds Γ f i (q.content k) := by
  obtain ⟨i, hshow⟩ := hm.shown _ k hk
  exact ⟨i, hshow.ino, hshow.entry f hf rfl⟩

/-- A change of an entry that does not show. -/
structure FileT.Same (x y : FileT) : Prop where
  alike : x.Alike y
  filename : y.filename = x.filename
  cache : y.cache = x.cache

theorem FileT.Same.refl (x : FileT) : x.Same x := ⟨.refl x, rfl, rfl⟩

/-- Nothing of what is shown changes, and the entries that leave the database have no descriptors. -/
theorem State.Mirrors.unseen (hm : s.Mirrors Γ q) (h : s.Ready refs) (htidy : s'.books.Tidy refs') (hfs : s'.fs = s.fs)
    (hfiles : ∀ g, (s.files g).Same (s'.files g)) (hdescs : s'.descs = s.descs) (hnext : s'.nextDesc = s.nextDesc)
    (hnextFile : s'.nextFile = s.nextFile) (hsub : ∀ g ∈ s'.database, g ∈ s.database)
    (hgone : ∀ g ∈ s.database, g ∉ s'.database → (s.files g).head = []) : s.Unseen Γ s' q refs' := by
  have hdata : ∀ i, s'.data i = s.data i := by
    intro i
    unfold State.data
    rw [hfs]
  refine ⟨⟨htidy, ?_, ?_, ?_, ?_, ?_⟩, ⟨hnext.trans hm.nextDesc, fun p hp => ?_, fun p k hp => ?_, fun g hg d hd => ?_⟩, hfs, hdescs, hnext,
    le_of_eq hnextFile.symm, fun g _ => (hfiles g).filename⟩
  · have hcalm : Calm none s s' := .of_eq hfs hnextFile (fun g => (hfiles g).filename) hdescs
    exact hcalm.homed h.homed (fun _ hd => nomatch hd)
  · rw [hfs]
    exact h.single
  · rw [hfs]
    exact h.flat
  · exact fun g => (hfiles g).cache.trans (h.uncached g)
  · rw [hdescs]
    exact h.dead
  · obtain ⟨hino, hsize⟩ := hm.absent p hp
    refine ⟨by rw [hfs]; exact hino, fun g hg hname => ?_⟩
    rw [(hfiles g).filename] at hname
    rw [(hfiles g).alike.size]
    exact hsize g (hsub g hg) hname
  · obtain ⟨i, hshow⟩ := hm.shown p k hp
    refine ⟨i, by rw [hfs]; exact hshow.ino, fun g hg hname => ?_, fun hfree => ?_⟩
    · rw [(hfiles g).filename] at hname
      refine (hshow.entry g (hsub g hg) hname).carry (hfiles g).alike (fun d _ => ?_) ?_ (hdata i)
      · rw [hdescs]
        exact .refl _
      · rw [(hfiles g).filename, hname, hfs]
        exact hshow.ino
    · rw [hdata]
      by_cases hany : ∃ g ∈ s.database, (s.files g).filename = p
      · obtain ⟨g, hg, hname⟩ := hany
        have hout : g ∉ s'.database := fun hin => hfree g hin ((hfiles g).filename.trans hname)
        exact ((hshow.entry g hg hname).closed (hgone g hg hout)).1
      · exact hshow.free (fun g hg hname => hany ⟨g, hg, hname⟩)
  · rw [(hfiles g).filename]
    exact hm.target g (hsub g hg) d (((hfiles g).alike.head d).mp hd)

/-- A change of one entry that does not show. -/
theorem State.Mirrors.modFile (hm : s.Mirrors Γ q) (h : s.Ready refs) {k : FileT → FileT}
    (hsame : FileT.Same (s.files f) (k (s.files f))) (htidy : (s.modFile f k).books.Tidy refs') : s.Unseen Γ (s.modFile f k) q refs' := by
  refine hm.unseen h htidy rfl (fun g => ?_) rfl rfl rfl (fun _ hg => hg) (fun _ hg hout => absurd hg hout)
  rw [State.files_modFile]
  split
  · rename_i e
    rw [e]
    exact hsame
  · exact .refl _

/-! ## The database -/

/-- The purge looks at an entry that is in the database. -/
theorem State.Mirrors.purgeFile (hm : s.Mirrors Γ q) (h : s.Ready refs) (hf : f ∈ s.database) (hdedup : Γ.dedupEnabled = false)
    (env : Env) :
    s.Unseen Γ (purgeFile Γ env false s f) q refs ∧
      ∀ g, g ≠ f → g ∈ s.database → g ∈ (FuseCompress.purgeFile Γ env false s f).database := by
  unfold FuseCompress.purgeFile
  dsimp only
  by_cases hzero : (s.files f).accesses = 0
  · rw [if_pos hzero]
    have hno : wantsDedup Γ (s.files f) = false := by
      unfold wantsDedup
      rw [hdedup]
      rfl
    rw [hno, if_neg Bool.false_ne_true]
    split
    · refine ⟨hm.unseen h ?_ rfl (fun g => ?_) rfl rfl rfl (fun _ hg => hg) (fun _ hg hout => absurd hg hout), fun _ _ hg => hg⟩
      · rw [books_backgroundCompressDedup]
        exact h.tidy.enqueue hf
      · change (s.files g).Same ((s.modFile f (fun file => { file with accesses := file.accesses + 1 })).files g)
        rw [State.files_modFile]
        split
        · rename_i e
          rw [e]
          exact ⟨⟨rfl, rfl, rfl, rfl, fun _ => Iff.rfl⟩, rfl, rfl⟩
        · exact .refl _
    · have hflush : flushFileCache (detach s f) f = detach s f := by
        unfold flushFileCache
        rw [show ((detach s f).files f).cache = none from h.uncached f]
      unfold directOpenDelete
      rw [hflush]
      refine ⟨hm.unseen h (h.tidy.drop hzero) rfl (fun g => .refl _) rfl rfl rfl (fun g hg => List.mem_of_mem_erase hg)
        (fun g hg hout => ?_), fun g hne hg => (List.mem_erase_of_ne hne).mpr hg⟩
      by_cases e : g = f
      · rw [e]
        exact (h.tidy.balanced.unused (le_of_eq hzero)).1
      · exact absurd ((List.mem_erase_of_ne e).mpr hg) hout
  · rw [if_neg hzero, if_neg Bool.false_ne_true]
    exact ⟨⟨h, hm, rfl, rfl, rfl, Nat.le_refl _, fun _ _ => rfl⟩, fun _ _ hg => hg⟩

/-- The purge looks at some of the entries, one after the other. -/
theorem State.Mirrors.purgeAll (hm : s.Mirrors Γ q) (h : s.Ready refs) (hdedup : Γ.dedupEnabled = false) (env : Env) (todo : List Nat)
    (hnodup : todo.Nodup) (htodo : ∀ f ∈ todo, f ∈ s.database) : s.Unseen Γ (todo.foldl (FuseCompress.purgeFile Γ env false) s) q refs := by
  induction todo generalizing s with
  | nil => exact ⟨h, hm, rfl, rfl, rfl, Nat.le_refl _, fun _ _ => rfl⟩
  | cons f todo ih =>
    obtain ⟨hnotin, hnodup'⟩ := List.nodup_cons.mp hnodup
    obtain ⟨hone, hkeeps⟩ := hm.purgeFile h (htodo f (List.mem_cons_self ..)) hdedup env
    refine hone.trans (ih hone.mirrors hone.ready hnodup' (fun g hg => ?_))
    exact hkeeps g (fun e => hnotin (e ▸ hg)) (htodo g (List.mem_cons_of_mem f hg))

theorem directOpenPurge_unseen (hm : s.Mirrors Γ q) (h : s.Ready refs) (hdedup : Γ.dedupEnabled = false) (env : Env) :
    s.Unseen Γ (directOpenPurge Γ env false s) q refs :=
  hm.purgeAll h hdedup env s.database h.tidy.nodup (fun _ hf => hf)

/-- A purge only takes entries out of the database. -/
theorem database_purgeFile (env : Env) (s : State) (f : Nat) : ∀ g ∈ (FuseCompress.purgeFile Γ env false s f).database, g ∈ s.database := by
  intro g hg
  unfold FuseCompress.purgeFile at hg
  dsimp only at hg
  split at hg
  · split at hg
    · exact hg
    · split at hg
      · exact hg
      · unfold directOpenDelete at hg
        dsimp only at hg
        have hflush : (flushFileCache (detach s f) f).database = (detach s f).database :=
          congrArg Books.database (books_flushFileCache (detach s f) f)
        rw [hflush] at hg
        exact List.mem_of_mem_erase hg
  · exact hg

theorem database_purgeAll (env : Env) (s : State) (todo : List Nat) :
    ∀ g ∈ (todo.foldl (FuseCompress.purgeFile Γ env false) s).database, g ∈ s.database := by
  induction todo generalizing s with
  | nil => exact fun _ hg => hg
  | cons f todo ih => exact fun g hg => database_purgeFile env s f g (ih _ g hg)

/-- A new entry for a path that has none. -/
theorem directOpenAdd_unseen (hm : s.Mirrors Γ q) (h : s.Ready refs) (hfree : ∀ g ∈ s.database, (s.files g).filename ≠ p) :
    s.Unseen Γ (directOpenAdd Γ s p) q refs ∧ ((directOpenAdd Γ s p).files s.nextFile).filename = p := by
  have hnew : (directOpenAdd Γ s p).files s.nextFile = directNewFile Γ s p := Function.update_self ..
  have hold : ∀ g ∈ s.database, (directOpenAdd Γ s p).files g = s.files g :=
    fun g hg => Function.update_of_ne (Nat.ne_of_lt (h.lt hg)) _ _
  have hmem : ∀ g ∈ (directOpenAdd Γ s p).database, g ∈ s.database ∨ g = s.nextFile := by
    intro g hg
    rcases List.mem_append.mp hg with hg | hg
    · exact Or.inl hg
    · exact Or.inr (List.mem_singleton.mp hg)
  have hcalm : Calm none s (directOpenAdd Γ s p) := calm_directOpenAdd Γ s p
  refine ⟨⟨⟨?_, hcalm.homed h.homed (fun _ hd => nomatch hd), h.single, h.flat, fun g => ?_, h.dead⟩,
    ⟨hm.nextDesc, fun p' hp' => ?_, fun p' k hk => ?_, fun g hg d hd => ?_⟩, rfl, rfl, rfl, Nat.le_succ _, hcalm.filename⟩, ?_⟩
  · rw [books_directOpenAdd]
    exact h.tidy.newFile hfree
  · by_cases e : g = s.nextFile
    · rw [e, hnew]
      rfl
    · rw [show (directOpenAdd Γ s p).files g = s.files g from Function.update_of_ne e _ _]
      exact h.uncached g
  · obtain ⟨hino, hsize⟩ := hm.absent p' hp'
    refine ⟨hino, fun g hg hname => ?_⟩
    rcases hmem g hg with hg | rfl
    · rw [hold g hg] at hname ⊢
      exact hsize g hg hname
    · rw [hnew]
      rfl
  · obtain ⟨i, hshow⟩ := hm.shown p' k hk
    refine ⟨i, hshow.ino, fun g hg hname => ?_, fun hno => ?_⟩
    · rcases hmem g hg with hg | rfl
      · have hsame := hold g hg
        rw [hsame] at hname
        refine (hshow.entry g hg hname).carry (by rw [hsame]; exact .refl _) (fun _ _ => .refl _) ?_ rfl
        rw [hsame, hname]
        exact hshow.ino
      · rw [hnew] at hname
        have hpath : p = p' := hname
        subst hpath
        refine ⟨fun _ => ⟨hshow.free hfree, fun hsize => ?_⟩, fun hne => ?_⟩
        · rw [hnew] at hsize
          exact absurd rfl hsize
        · rw [hnew] at hne
          exact absurd rfl hne
    · refine hshow.free (fun g hg hname => hno g (List.mem_append_left _ hg) ?_)
      rw [hold g hg]
      exact hname
  · rcases hmem g hg with hg | rfl
    · rw [hold g hg] at hd ⊢
      exact hm.target g hg d hd
    · rw [hnew] at hd
      cases hd
  · rw [hnew]
    rfl

/-- `direct_open` finds or makes the entry of a path. -/
theorem directOpen_unseen (hm : s.Mirrors Γ q) (h : s.Ready refs) (hdedup : Γ.dedupEnabled = false) (env : Env) (p : Filename) :
    ∃ s' f, directOpen Γ env s p = (s', f) ∧ s.Unseen Γ s' q refs ∧ f ∈ s'.database ∧ (s'.files f).filename = p := by
  unfold directOpen
  split
  · rename_i f hfind
    have hf : f ∈ s.database := List.mem_of_find?_eq_some hfind
    have hdecide : decide ((s.files f).filename = p) = true := List.find?_some (p := fun f => decide ((s.files f).filename = p)) hfind
    have hname : (s.files f).filename = p := of_decide_eq_true hdecide
    have hbooks : (directOpenFound s f).books = s.books := books_directOpenFound s f
    have hunseen : s.Unseen Γ (directOpenFound s f) q refs :=
      hm.modFile h ⟨⟨rfl, rfl, rfl, rfl, fun _ => Iff.rfl⟩, rfl, rfl⟩ (hbooks ▸ h.tidy)
    exact ⟨_, f, rfl, hunseen, hf, (hunseen.filename f (h.lt hf)).trans hname⟩
  · rename_i hfind
    have hfree : ∀ g ∈ s.database, (s.files g).filename ≠ p := by
      intro g hg
      have := List.find?_eq_none.mp hfind g hg
      rwa [decide_eq_true_eq] at this
    have hcount : s.Unseen Γ ({ s with entries := s.entries + 1 } : State) q refs :=
      hm.unseen h (h.tidy.setEntries (s.entries + 1)) rfl (fun _ => .refl _) rfl rfl rfl (fun _ hg => hg)
        (fun _ hg hout => absurd hg hout)
    obtain ⟨hpurged, hsub⟩ : s.Unseen Γ (directOpenCount Γ env s) q refs ∧
        ∀ g ∈ (directOpenCount Γ env s).database, g ∈ s.database := by
      unfold directOpenCount
      dsimp only
      split
      · exact ⟨hcount.trans (directOpenPurge_unseen hcount.mirrors hcount.ready hdedup env), database_purgeAll env _ _⟩
      · exact ⟨hcount, fun _ hg => hg⟩
    obtain ⟨hadd, hname⟩ := directOpenAdd_unseen (Γ := Γ) (p := p) hpurged.mirrors hpurged.ready (fun g hg => by
      rw [hpurged.filename g (h.lt (hsub g hg))]
      exact hfree g (hsub g hg))
    exact ⟨_, _, rfl, hpurged.trans hadd, List.mem_append_right _ (List.mem_singleton.mpr rfl), hname⟩

/-! ## Requests on a file that is open -/

/-- A change that comes from one entry and is in the books as a change of the status at most. -/
structure State.StepsOn (s s' : State) (f : Nat) : Prop where
  apart : s.Apart s' f (fun d => d ∈ (s.files f).head)
  effects : ∃ w, (∀ d, w = some d → (s.descs d).writable = true) ∧ Effects (fun _ => True) f w s.fs.next s s'
  books : s'.books = { s.books with status := s'.books.status, cond := s'.books.cond }

theorem Books.Acked.status_only {b b' : Books} (h : b.Acked f b') : b' = { b with status := b'.status, cond := b'.cond } := by
  rcases h with rfl | ⟨-, rfl⟩
  · rfl
  · rfl

theorem State.StepsOn.worksOn (hs : s.StepsOn s' f) : s.WorksOn s' f where
  apart := ⟨hs.apart.files, hs.apart.cache, fun d hd => hs.apart.descs d (fun hmem => hd (Or.inl hmem)), hs.apart.dirs⟩
  effects := hs.effects
  database := congrArg Books.database hs.books
  filename := congrFun (congrArg Books.filename hs.books) f

/-- Which descriptors there are, and of what. -/
theorem State.StepsOn.descriptors (hs : s.StepsOn s' f) :
    s'.nextDesc = s.nextDesc ∧ (s'.files f).head = (s.files f).head ∧ ∀ d, (s'.descs d).live = (s.descs d).live :=
  ⟨congrArg Books.nextDesc hs.books, congrFun (congrArg Books.head hs.books) f, fun d => congrFun (congrArg Books.live hs.books) d⟩

theorem State.StepsOn.tidy (hs : s.StepsOn s' f) (h : s.books.Tidy refs) : s'.books.Tidy refs := by
  rw [hs.books]
  exact h.of_sameDb ⟨h.balanced.accesses, h.balanced.mem_head, h.balanced.nodup, h.balanced.live_lt, h.balanced.fresh⟩ rfl rfl rfl
    (fun _ _ => rfl) h.queue

theorem State.StepsOn.ready (hs : s.StepsOn s' f) (h : s.Ready refs) (hf : f ∈ s.database) : s'.Ready refs := by
  refine h.update hf hs.worksOn (hs.tidy h.tidy) (fun d hd hlive => ?_)
  by_cases hmem : d ∈ (s.files f).head
  · rw [hs.descriptors.2.2 d, (h.head_owner hmem).1] at hlive
    cases hlive
  · rw [hs.apart.descs d hmem] at hlive ⊢
    exact h.dead d hlive

/-- The file of the entry has another content afterwards. -/
theorem State.StepsOn.mirrors (hs : s.StepsOn s' f) (h : s.Ready refs) (hm : s.Mirrors Γ q) (hq : q.Sound) (hf : f ∈ s.database)
    {k : Nat} (hk : q.file (s.files f).filename = some k)
    (hholds : ∃ i, s'.fs.inoOf (s.files f).filename = some i ∧ s'.Holds Γ f i content) : s'.Mirrors Γ (q.setContent k content) := by
  obtain ⟨hnext, hhead, -⟩ := hs.descriptors
  refine hm.update h hf hs.worksOn (hnext.trans hm.nextDesc) (fun _ _ => rfl) (fun p k' hp hk' => ?_) (fun _ _ => rfl)
    (fun hnone => ?_) (fun k' hk' => ?_) (fun d hd => ?_)
  · refine Function.update_of_ne ?_ _ _
    rintro rfl
    exact hp (hq.own _ _ _ hk' hk)
  · change q.file _ = none at hnone
    rw [hk] at hnone
    cases hnone
  · change q.file _ = some k' at hk'
    rw [hk] at hk'
    cases hk'
    obtain ⟨i, hino, hheld⟩ := hholds
    refine ⟨i, hino, ?_⟩
    rw [show (q.setContent k content).content k = content from Function.update_self ..]
    exact hheld
  · rw [hhead] at hd
    exact hm.target f hf d hd

theorem PlainFs.setContent_self (q : PlainFs Filename) (k : Nat) : q.setContent k (q.content k) = q := by
  unfold PlainFs.setContent
  rw [Function.update_eq_self]

theorem State.Stands.ino (h : s.Stands Γ f i content) : s.fs.inoOf (s.files f).filename = some i := by
  rcases h with ⟨hbare, -⟩ | ⟨m, hsealed | ⟨w, chunks, hstream⟩⟩
  · exact hbare.ino
  · exact hsealed.ino
  · exact hstream.ino

theorem State.Stands.holds (h : s.Stands Γ f i content) (hne : (s.files f).head ≠ []) : s.Holds Γ f i content :=
  ⟨fun hnil => absurd hnil hne, fun _ => h⟩

/-- The entry of a live descriptor, with the file of the plain file system. -/
theorem State.Mirrors.live (hm : s.Mirrors Γ q) (h : s.Ready refs) (hlive : (s.descs d).live = true) :
    (s.descs d).file ∈ s.database ∧ d ∈ (s.files (s.descs d).file).head ∧
      q.file (s.files (s.descs d).file).filename = some (q.target d) ∧
        ∃ i, s.Stands Γ (s.descs d).file i (q.content (q.target d)) ∧ i < s.fs.next := by
  have hd : d ∈ (s.files (s.descs d).file).head := (h.tidy.balanced.mem_head _ d).mpr ⟨hlive, rfl⟩
  have hf := h.tidy.listed hd
  have hk := hm.target _ hf d hd
  obtain ⟨i, hino, hholds⟩ := hm.holds hf hk
  exact ⟨hf, hd, hk, i, hholds.opened (List.ne_nil_of_mem hd), h.homed.named _ i hino⟩

/-- What a count of accesses says of the descriptors of an entry. -/
theorem State.Ready.count_le (h : s.Ready refs) (f : Nat) : ((s.files f).head.length : Int) ≤ (s.files f).accesses := by
  have hcount := h.tidy.balanced.accesses f
  change (s.files f).accesses = (((s.files f).head.length + s.books.queued f + refs f : Nat) : Int) at hcount
  omega

section Requests

variable (he : env.AllOk) (ha : env.Ample) (hdedup : Γ.dedupEnabled = false) (hcaching : Γ.cacheDecompressedData = false)
  (hexact : ∀ m, (Γ.codec m).Exact) (hdefault : Γ.compressorDefault.Available Γ)

include he ha hcaching hexact in
theorem fusecompressRead_mirrors (h : s.Ready refs) (hm : s.Mirrors Γ q) (hq : q.Sound) (hlive : (s.descs d).live = true)
    (size offset : Nat) :
    ∃ s', fusecompressRead Γ env s d size offset = (s', ((q.read d size offset).length : Int), q.read d size offset) ∧
      s'.Ready refs ∧ s'.Mirrors Γ q := by
  obtain ⟨hf, hd, hk, i, hstands, hlt⟩ := hm.live h hlive
  have hheads : ∀ d' ∈ (s.files (s.descs d).file).head, (s.descs d').file = (s.descs d).file := fun d' hd' => (h.head_owner hd').2
  have hanswer := readLocked_stands he ha hcaching hexact hstands (h.uncached _) (hq.text _) hlt (h.tidy.balanced.nodup _) hheads hd
    size offset
  have hsteps : s.StepsOn (readLocked Γ env s (s.descs d).file d size offset).1 (s.descs d).file :=
    ⟨apart_readLocked size offset hcaching (fun _ hd' => hd') hd,
      ⟨none, (fun _ hw => nomatch hw), effects_readLocked Γ env s size offset hheads rfl (Nat.le_refl _)⟩,
      (acked_readLocked Γ env s _ d size offset).status_only⟩
  generalize hr : readLocked Γ env s (s.descs d).file d size offset = r at hanswer hsteps
  obtain ⟨s', next⟩ := r
  obtain ⟨⟨j, hstands'⟩, hreply⟩ := hanswer
  have hne : (s'.files (s.descs d).file).head ≠ [] := by
    rw [hsteps.descriptors.2.1]
    exact List.ne_nil_of_mem hd
  have hmirrors := hsteps.mirrors h hm hq hf hk ⟨j, by rw [← hsteps.worksOn.filename]; exact hstands'.ino, hstands'.holds hne⟩
  rw [PlainFs.setContent_self] at hmirrors
  refine ⟨s', ?_, hsteps.ready h hf, hmirrors⟩
  unfold fusecompressRead
  dsimp only
  rw [hr]
  rcases hreply with hdone | ⟨fd, hpread, hdata⟩
  · dsimp only at hdone
    subst hdone
    have hres : ((Bytes.slice (q.content (q.target d)) offset size).length : Int) ≠ -1 := by omega
    dsimp only
    rw [if_neg hres]
    rfl
  · dsimp only at hpread hdata
    subst hpread
    dsimp only
    unfold preadFd
    rw [if_pos (he _), Option.map_some, hdata]
    rfl

theorem State.StepsOn.trans_effects (hs : s.StepsOn s' f) (hpar : s'.Apart s'' f (fun d => d ∈ (s.files f).head)) {w : Option Nat}
    (hw : ∀ d, w = some d → (s.descs d).writable = true) (heffects : Effects (fun _ => True) f w s.fs.next s s'')
    (hbooks : s''.books = s'.books) : s.StepsOn s'' f where
  apart := hs.apart.trans hpar
  effects := ⟨w, hw, heffects⟩
  books := by
    rw [hbooks]
    exact hs.books

/-- The `pwrite` of a write on a raw file. -/
theorem State.Bare.overwrite (hbare : s.Bare f i content) (hsize : (s.files f).size = 0 → (s.files f).dontcompress = true)
    (buf : Bytes) (offset : Nat) :
    (s.withFs (fun b => b.setData i (Bytes.overwrite (b.inodes i).data offset buf))).Stands Γ f i
      (Bytes.overwrite content offset buf) := by
  refine Or.inl ⟨⟨hbare.ino, ?_, hbare.compressor, hbare.descs⟩, fun hzero hdont => ?_⟩
  · change ((s.fs.setData i _).inodes i).data = _
    rw [Backing.data_setData, if_pos rfl]
    exact congrArg (fun x => Bytes.overwrite x offset buf) hbare.data
  · exact absurd ((hsize hzero).symm.trans hdont) Bool.true_eq_false.mp

include he ha hdedup hexact hdefault in
theorem fusecompressWrite_mirrors (h : s.Ready refs) (hm : s.Mirrors Γ q) (hq : q.Sound) (hlive : (s.descs d).live = true)
    (hwritable : (s.descs d).writable = true) {buf : Bytes} {offset : Nat} (hbuf : buf ≠ [])
    (hguard : startsOver (s.files (s.descs d).file) offset = false) :
    ∃ s', fusecompressWrite Γ env s d buf offset = (s', .wrote buf.length) ∧
      s'.Ready refs ∧ s'.Mirrors Γ (q.write d buf offset) := by
  obtain ⟨hf, hd, hk, i, hstands, hlt⟩ := hm.live h hlive
  have hheads : ∀ d' ∈ (s.files (s.descs d).file).head, (s.descs d').file = (s.descs d).file := fun d' hd' => (h.head_owner hd').2
  have haccepts := writeLocked_stands he ha hdedup hexact hdefault hstands (h.uncached _) (hq.text _) hlt (h.tidy.balanced.nodup _)
    (h.count_le _) hd hguard hbuf
  have heffects : Effects (fun _ => True) (s.descs d).file (some d) s.fs.next s (writeLocked Γ env s (s.descs d).file d buf offset).1 :=
    effects_writeLocked Γ env s buf offset hheads rfl (Nat.le_refl _)
  have hw : ∀ d', some d = some d' → (s.descs d').writable = true := by
    rintro d' ⟨⟩
    exact hwritable
  have hsteps : s.StepsOn (writeLocked Γ env s (s.descs d).file d buf offset).1 (s.descs d).file :=
    ⟨apart_writeLocked buf offset (fun _ hd' => hd') hd, ⟨some d, hw, heffects⟩, (acked_writeLocked Γ env s _ d buf offset).status_only⟩
  have hpwrite : ∀ t fd, writeLocked Γ env s (s.descs d).file d buf offset = (t, .pwrite fd) → fd = (t.descs d).fd :=
    fun t fd => writeLocked_pwrite
  unfold fusecompressWrite
  dsimp only
  generalize writeLocked Γ env s (s.descs d).file d buf offset = r at haccepts hsteps heffects hpwrite ⊢
  obtain ⟨s', next⟩ := r
  have hne : (s'.files (s.descs d).file).head ≠ [] := by
    rw [hsteps.descriptors.2.1]
    exact List.ne_nil_of_mem hd
  rcases haccepts.stands with ⟨j, hnext, hstands'⟩ | ⟨j, pos, hnext, hbare, hsize⟩
  · dsimp only at hnext hstands' heffects hsteps
    subst hnext
    have hres : ¬((buf.length : Nat) : Int) = -1 := by omega
    refine ⟨s', if_neg hres, hsteps.ready h hf, ?_⟩
    exact hsteps.mirrors h hm hq hf hk ⟨j, by rw [← hsteps.worksOn.filename]; exact hstands'.ino, hstands'.holds hne⟩
  · dsimp only at hnext hbare hsize heffects hsteps
    subst hnext
    have hfd : (s'.descs d).fd = some ⟨j, pos⟩ := (hpwrite s' _ rfl).symm
    have howner : (s'.descs d).file = (s.descs d).file := congrFun (congrArg Books.owner hsteps.books) d
    have hsteps' := hsteps.trans_effects (apart_setData j (Bytes.overwrite (s'.fs.inodes j).data offset buf)) hw
      (heffects.trans (Relation.ReflTransGen.single (.write howner hfd (Or.inr rfl)))) rfl
    have hstands' := hbare.overwrite (Γ := Γ) hsize buf offset
    refine ⟨s'.withFs (fun b => b.setData j (Bytes.overwrite (b.inodes j).data offset buf)), ?_, hsteps'.ready h hf, ?_⟩
    · dsimp only
      unfold pwriteFd
      rw [if_pos (he _)]
      dsimp only
      rw [if_neg hbuf]
    · exact hsteps'.mirrors h hm hq hf hk ⟨j, by rw [← hsteps.worksOn.filename]; exact hstands'.ino, hstands'.holds hne⟩

include he ha hdedup hexact in
theorem fusecompressTruncate_mirrors (h : s.Ready refs) (hm : s.Mirrors Γ q) (hq : q.Sound) (hopen : s.hasOpen p) (size : Nat) :
    ∃ s', fusecompressTruncate Γ env s p size = (s', .ok) ∧ s'.Ready refs ∧ s'.Mirrors Γ (q.truncate p size) := by
  obtain ⟨s₁, f, hdirect, hunseen, hf, hname⟩ := directOpen_unseen hm h hdedup env p
  have hopen₁ : s₁.hasOpen (s₁.files f).filename := by
    rw [hname]
    exact (hunseen.hasOpen h p).mpr hopen
  have hne : (s₁.files f).head ≠ [] := (hunseen.ready.hasOpen_iff hf).mp hopen₁
  obtain ⟨d, hd⟩ := List.exists_mem_of_ne_nil _ hne
  have hk := hunseen.mirrors.target f hf d hd
  obtain ⟨i, hino, hholds⟩ := hunseen.mirrors.holds hf hk
  have hheads : ∀ d' ∈ (s₁.files f).head, (s₁.descs d').file = f := fun d' hd' => (hunseen.ready.head_owner hd').2
  obtain ⟨s₂, j, heq, hstands⟩ := truncateLocked_stands he ha hdedup hexact (hholds.opened hne) (hq.text _)
    (hunseen.ready.homed.named _ i hino) (hunseen.ready.tidy.balanced.nodup f) size
  have hsteps : s₁.StepsOn (truncateLocked Γ env s₁ f (s₁.files f).filename size).1 f :=
    ⟨apart_truncateLocked _ size (fun _ hd' => hd'),
      ⟨none, (fun _ hw => nomatch hw), effects_truncateLocked Γ env s₁ _ size hheads rfl (Nat.le_refl _)⟩,
      (acked_truncateLocked Γ env s₁ f _ size).status_only⟩
  rw [heq] at hsteps
  have hne₂ : (s₂.files f).head ≠ [] := by
    rw [hsteps.descriptors.2.1]
    exact hne
  have hmirrors := hsteps.mirrors hunseen.ready hunseen.mirrors hq hf hk
    ⟨j, by rw [← hsteps.worksOn.filename]; exact hstands.ino, hstands.holds hne₂⟩
  refine ⟨s₂, ?_, hsteps.ready hunseen.ready hf, ?_⟩
  · unfold fusecompressTruncate
    rw [hdirect, ← hname]
    exact heq
  · unfold PlainFs.truncate
    rw [← hname, hk]
    exact hmirrors

theorem directClose_size (Γ : Config) (env : Env) {m : Module} (hm : (s.files f).compressor = some m) (d : Nat) :
    ((directClose Γ env s f d).files f).size = (s.files f).size := by
  obtain ⟨-, -, ⟨hfiles, -⟩, -⟩ := closeHandle_cases (Γ := Γ) (d := d) env (f := f) (s := s) hm
  unfold directClose
  dsimp only
  generalize (if env.ok .closeFstat then (s.descs d).fd.map (fun fd => (s.fs.inodes fd.ino).attr) else none) = stbuf
  have hsame : (restoreTimes env (closeHandle Γ env s f d) f stbuf).files = s.files := (files_restoreTimes env _ stbuf).1.trans hfiles
  split
  · rw [State.files_modFile, if_pos rfl, hsame]
  · rw [hsame]

/-- What is known of a file when a descriptor of it has been released. -/
theorem releaseLocked_sized (Γ : Config) (env : Env) (h : s.Stands Γ f i content) (htext : content.take 3 ≠ magic)
    (howner : (s.descs d).file = f) : (releaseLocked Γ env s f d).1.Sized Γ f i content := by
  obtain ⟨hfs, -, hfile⟩ := releaseLocked_same Γ env howner
  generalize (releaseLocked Γ env s f d).1 = t at hfs hfile ⊢
  have hcomp : (t.files f).compressor = ((releaseClose Γ env s f d).files f).compressor := by rw [hfile]
  have hsize : (t.files f).size = ((releaseClose Γ env s f d).files f).size := by rw [hfile]
  intro _
  rcases h with ⟨hbare, -⟩ | ⟨m, hstored⟩
  · have hclose : releaseClose Γ env s f d = s := by
      unfold releaseClose
      rw [if_pos hbare.compressor]
    rw [hclose] at hfs hcomp
    rw [if_pos (hcomp.trans hbare.compressor), State.data, hfs, ← State.data, hbare.data]
    exact parse_of_not_magic htext
  · have hsome := hstored.compressor
    have hclose : releaseClose Γ env s f d = directClose Γ env s f d := by
      unfold releaseClose
      rw [if_neg (by simp [hsome])]
    rw [hclose] at hcomp hsize
    have hpushes := pushes_directClose Γ env hsome d
    rw [if_neg (by rw [hcomp, hpushes.compressor, hsome]; exact Option.some_ne_none m), hsize, directClose_size Γ env hsome d]
    rcases hstored with hsealed | ⟨w, chunks, hstream⟩
    · exact hsealed.size
    · exact hstream.size

theorem books_releaseClose (Γ : Config) (env : Env) (s : State) (f d : Nat) : (releaseClose Γ env s f d).books = s.books := by
  unfold releaseClose
  split
  · rfl
  · exact books_directClose Γ env s f d

include he hexact in
theorem fusecompressRelease_mirrors (h : s.Ready refs) (hm : s.Mirrors Γ q) (hq : q.Sound) (hu : q.Unmarked)
    (hlive : (s.descs d).live = true) :
    (fusecompressRelease Γ env s d).1.Ready refs ∧ (fusecompressRelease Γ env s d).1.Mirrors Γ q := by
  obtain ⟨hf, hd, hk, i, hstands, -⟩ := hm.live h hlive
  have htext : (q.content (q.target d)).take 3 ≠ magic := hu _ (hq.old _ _ hk)
  have hheads : ∀ d' ∈ (s.files (s.descs d).file).head, (s.descs d').file = (s.descs d).file := fun d' hd' => (h.head_owner hd').2
  obtain ⟨hino, hclosed, hopened⟩ := releaseLocked_stands he hexact hstands htext (hq.text _) (h.tidy.balanced.nodup _)
    (h.count_le _) hd rfl
  have hsized := releaseLocked_sized Γ env (d := d) hstands htext rfl
  have hapart : s.Apart (releaseLocked Γ env s (s.descs d).file d).1 (s.descs d).file (fun d' => d' ∈ (s.files (s.descs d).file).head) :=
    apart_releaseLocked hd rfl
  have heffects : Effects (fun _ => True) (s.descs d).file none s.fs.next s (releaseLocked Γ env s (s.descs d).file d).1 :=
    effects_releaseLocked Γ env s rfl
  have hbooks := books_releaseLocked Γ env s (s.descs d).file d
  have hgone : ((releaseLocked Γ env s (s.descs d).file d).1.descs d).fd = none := by
    unfold releaseLocked
    rw [State.descs_modDesc, if_pos rfl]
  have hhead : ((releaseLocked Γ env s (s.descs d).file d).1.files (s.descs d).file).head =
      ((s.files (s.descs d).file).head).erase d := by
    rw [(releaseLocked_same Γ env (d := d) (s := s) rfl).2.2]
    dsimp only
    rw [show ((releaseClose Γ env s (s.descs d).file d).files (s.descs d).file).head = (s.files (s.descs d).file).head from
      head_of_books (books_releaseClose Γ env s (s.descs d).file d) _]
  unfold fusecompressRelease
  generalize (releaseLocked Γ env s (s.descs d).file d).1 = t at hino hclosed hopened hsized hapart heffects hbooks hgone hhead ⊢
  have hname : (t.files (s.descs d).file).filename = (s.files (s.descs d).file).filename :=
    congrFun (congrArg Books.filename hbooks) _
  have hlives : ∀ d', d' ≠ d → (t.descs d').live = (s.descs d').live := by
    intro d' hne
    exact (congrFun (congrArg Books.live hbooks) d').trans (Function.update_of_ne hne _ _)
  have hworks : s.WorksOn t (s.descs d).file :=
    ⟨⟨hapart.files, hapart.cache, fun d' hd' => hapart.descs d' (fun hmem => hd' (Or.inl hmem)), hapart.dirs⟩,
      ⟨none, (fun _ hw => nomatch hw), heffects⟩, congrArg Books.database hbooks, hname⟩
  constructor
  · refine h.update hf hworks ?_ (fun d' _ hdead => ?_)
    · rw [hbooks]
      exact h.tidy.release (b := s.books) (d := d) hlive
    · by_cases e : d' = d
      · rw [e]
        exact hgone
      · rw [hlives d' e] at hdead
        have hout : d' ∉ (s.files (s.descs d).file).head := by
          intro hmem
          rw [(h.head_owner hmem).1] at hdead
          cases hdead
        rw [hapart.descs d' hout]
        exact h.dead d' hdead
  · refine hm.update h hf hworks ((congrArg Books.nextDesc hbooks).trans hm.nextDesc) (fun _ _ => rfl) (fun _ _ _ _ => rfl) (fun _ _ => rfl)
      (fun hnone => ?_) (fun k hk' => ?_) (fun d' hd' => ?_)
    · rw [hk] at hnone
      cases hnone
    · rw [hk] at hk'
      cases hk'
      refine ⟨i, hino, fun hnil => ⟨hclosed (hhead.symm.trans hnil), hsized⟩, fun hne => hopened ?_⟩
      rw [← hhead]
      exact hne
    · rw [hhead] at hd'
      exact hm.target _ hf d' (List.mem_of_mem_erase hd')

theorem apart_openDescriptor (s : State) (f ino pos : Nat) (writable : Bool) (size : Int) :
    s.Apart (openDescriptor s f ino pos writable size).1 f (fun d => d = s.nextDesc) := by
  refine ⟨fun g hg => by simp [openDescriptor, hg], fun hc => by simpa [openDescriptor] using hc, fun d hd => ?_, fun _ => id⟩
  simp [openDescriptor, hd]

include hdedup in
theorem openUndedup_off (s : State) (f : Nat) (writable : Bool) : openUndedup Γ env s f writable = (s, true) := by
  unfold openUndedup
  rw [if_neg (by simp [hdedup])]

include he hdedup in
/-- The entry of a path is opened. -/
theorem openLocked_mirrors (h : s.Ready refs) (hm : s.Mirrors Γ q) (hq : q.Sound) (hu : q.Unmarked) (hf : f ∈ s.database) {k : Nat}
    (hk : q.file (s.files f).filename = some k) (writable : Bool) :
    ∃ s', openLocked Γ env s f (s.files f).filename writable = (s', .opened q.nextDesc) ∧ s'.Ready refs ∧
      s'.Mirrors Γ { q with target := Function.update q.target q.nextDesc k, nextDesc := q.nextDesc + 1 } := by
  obtain ⟨i, hino, hholds⟩ := hm.holds hf hk
  have hfresh : s.nextDesc ∉ (s.files f).head := fun hmem => absurd (h.tidy.balanced.live_lt _ (h.head_owner hmem).1) (Nat.lt_irrefl _)
  have hstood : (s.files f).head = [] ∧ unpacked Γ (s.data i) = some (q.content k) ∨ s.Stands Γ f i (q.content k) := by
    by_cases hnil : (s.files f).head = []
    · exact Or.inl ⟨hnil, (hholds.closed hnil).1⟩
    · exact Or.inr (hholds.opened hnil)
  obtain ⟨s', heq, hstands⟩ := openLocked_stands he hdedup hino hstood (hu _ (hq.old _ _ hk)) (hq.text k) hfresh writable
  have heffects : Effects (fun _ => True) f none s.fs.next s (openLocked Γ env s f (s.files f).filename writable).1 := by
    refine effects_openLocked Γ env s _ writable rfl (Nat.le_refl _) (fun hd => absurd hd (by simp [hdedup])) ?_
    intro _ s₁ hs₁ j hj p _ hp
    rw [openUndedup_off hdedup] at hs₁
    cases hs₁
    exact h.single p _ j trivial trivial hp hj
  have hapart : s.Apart (openLocked Γ env s f (s.files f).filename writable).1 f (fun d => d = s.nextDesc) := by
    obtain ⟨b, c, pos, size, hopen, -⟩ := openLocked_found he hdedup hino writable
    rw [hopen]
    exact (apart_modFile (Or.inl rfl)).trans (apart_openDescriptor _ f i pos writable size)
  have hbooks : (openLocked Γ env s f (s.files f).filename writable).1.books = s.books.openDesc f writable := by
    rcases books_openLocked Γ env s f (s.files f).filename writable with ⟨-, hfail⟩ | ⟨hb, -⟩
    · rw [heq] at hfail
      cases hfail
    · exact hb
  rw [heq] at heffects hapart hbooks
  dsimp only at heffects hapart hbooks
  have hworks : s.WorksOn s' f :=
    ⟨⟨hapart.files, hapart.cache, fun d hd => hapart.descs d (fun e => hd (Or.inr (le_of_eq e.symm))), hapart.dirs⟩,
      ⟨none, (fun _ hw => nomatch hw), heffects⟩, congrArg Books.database hbooks, congrFun (congrArg Books.filename hbooks) f⟩
  have hnext : s'.nextDesc = s.nextDesc + 1 := congrArg Books.nextDesc hbooks
  have hhead : (s'.files f).head = s.nextDesc :: (s.files f).head :=
    (congrFun (congrArg Books.head hbooks) f).trans (Function.update_self ..)
  have hborn : (s'.descs s.nextDesc).live = true := (congrFun (congrArg Books.live hbooks) _).trans (Function.update_self ..)
  refine ⟨s', ?_, ?_, ?_⟩
  · rw [← hm.nextDesc]
    exact heq
  · refine h.update hf hworks ?_ (fun d hd hdead => ?_)
    · rw [hbooks]
      exact h.tidy.openDesc hf writable
    · by_cases e : d = s.nextDesc
      · rw [e, hborn] at hdead
        cases hdead
      · rw [hapart.descs d e] at hdead ⊢
        exact h.dead d hdead
  · refine hm.update h hf hworks ?_ (fun _ _ => rfl) (fun _ _ _ _ => rfl) (fun d hd => ?_) (fun hnone => ?_) (fun k' hk' => ?_)
      (fun d hd => ?_)
    · rw [hnext, hm.nextDesc]
    · refine Function.update_of_ne ?_ _ _
      rw [← hm.nextDesc]
      exact Nat.ne_of_lt hd
    · rw [hk] at hnone
      cases hnone
    · rw [hk] at hk'
      cases hk'
      refine ⟨i, by rw [← hworks.filename]; exact hstands.ino, hstands.holds ?_⟩
      rw [hhead]
      exact List.cons_ne_nil _ _
    · rw [hhead] at hd
      change q.file _ = some (Function.update q.target q.nextDesc k d)
      rw [← hm.nextDesc]
      rcases List.mem_cons.mp hd with rfl | hd
      · rw [Function.update_self]
        exact hk
      · rw [Function.update_of_ne (ne_of_mem_of_not_mem hd hfresh)]
        exact hm.target f hf d hd

include he hdedup in
theorem fusecompressOpen_mirrors (h : s.Ready refs) (hm : s.Mirrors Γ q) (hq : q.Sound) (hu : q.Unmarked) (p : Filename)
    (writable : Bool) :
    ∃ s', fusecompressOpen Γ env s p writable = (s', if (q.file p).isSome then .opened q.nextDesc else .fail) ∧
      s'.Ready refs ∧ s'.Mirrors Γ (q.openFile p) := by
  obtain ⟨s₁, f, hdirect, hunseen, hf, hname⟩ := directOpen_unseen hm h hdedup env p
  unfold fusecompressOpen PlainFs.openFile
  rw [hdirect, ← hname]
  cases hk : q.file (s₁.files f).filename with
  | some k => exact openLocked_mirrors he hdedup hunseen.ready hunseen.mirrors hq hu hf hk writable
  | none =>
    refine ⟨s₁, ?_, hunseen.ready, hunseen.mirrors⟩
    have hno := (hunseen.mirrors.absent _ hk).1
    dsimp only
    unfold openLocked openFile
    rw [openUndedup_off hdedup]
    dsimp only
    rw [hno]
    simp

/-! ## `getattr` -/

/-- What an entry knows of its file, and what it finds out by reading the header. -/
structure State.Knows (Γ : Config) (s : State) (f i : Nat) (content : Bytes) : Prop where
  unknown : (s.files f).size = -1 → unpacked Γ (s.data i) = some content
  raw : (s.files f).size ≠ -1 → (s.files f).compressor = none → s.data i = content
  packed : (s.files f).size ≠ -1 → (s.files f).compressor ≠ none → (s.files f).size = (content.length : Int)

theorem State.Holds.knows (h : s.Holds Γ f i content) (htext : content.take 3 ≠ magic) : s.Knows Γ f i content := by
  by_cases hnil : (s.files f).head = []
  · obtain ⟨hunpacked, hsized⟩ := h.closed hnil
    refine ⟨fun _ => hunpacked, fun hsize hcomp => ?_, fun hsize hcomp => ?_⟩
    · have hparse := hsized hsize
      rw [if_pos hcomp] at hparse
      rw [unpacked_of_none hparse] at hunpacked
      exact Option.some.inj hunpacked
    · have hlen := hsized hsize
      rwa [if_neg hcomp] at hlen
  · rcases h.opened hnil with ⟨hbare, -⟩ | ⟨m, hstored⟩
    · refine ⟨fun _ => ?_, fun _ _ => hbare.data, fun _ hcomp => absurd hbare.compressor hcomp⟩
      rw [hbare.data]
      exact unpacked_of_not_magic htext
    · have hsize : (s.files f).size = (content.length : Int) := by
        rcases hstored with hsealed | ⟨w, chunks, hstream⟩
        · exact hsealed.size
        · exact hstream.size
      refine ⟨fun hneg => ?_, fun _ hcomp => ?_, fun _ _ => hsize⟩
      · rw [hneg] at hsize
        omega
      · rw [hstored.compressor] at hcomp
        cases hcomp

/-- A file that is taken for what its header says. -/
theorem unpacked_cases {data : Bytes} (h : unpacked Γ data = some content) :
    parse Γ data = none ∧ data = content ∨ ∃ m, parse Γ data = some (m, (content.length : Int)) := by
  unfold unpacked at h
  cases hparse : parse Γ data with
  | none =>
    rw [hparse] at h
    exact Or.inl ⟨rfl, Option.some.inj h⟩
  | some r =>
    obtain ⟨m, n⟩ := r
    rw [hparse] at h
    dsimp only at h
    rw [Option.filter_eq_some_iff] at h
    exact Or.inr ⟨m, by rw [of_decide_eq_true h.2]⟩

/-- The entry holds the content with another size and another module, when these say the same of it. -/
theorem State.Holds.setSize (h : s.Holds Γ f i content) {c : Option Module} {n : Int}
    (hclosed : (s.files f).head = [] → n ≠ -1 → if c = none then parse Γ (s.data i) = none else n = (content.length : Int))
    (hopened : (s.files f).head ≠ [] → c = none ∧ n = (content.length : Int) ∧ (s.files f).size = -1) :
    (s.modFile f (fun file => { file with compressor := c, size := n })).Holds Γ f i content := by
  have hfile : (s.modFile f (fun file => { file with compressor := c, size := n })).files f =
      { s.files f with compressor := c, size := n } := by
    rw [State.files_modFile, if_pos rfl]
  refine ⟨fun hnil => ?_, fun hne => ?_⟩
  · rw [hfile] at hnil
    refine ⟨(h.closed hnil).1, fun hsize => ?_⟩
    rw [hfile] at hsize ⊢
    exact hclosed hnil hsize
  · rw [hfile] at hne
    obtain ⟨hc, hn, hneg⟩ := hopened hne
    rcases h.opened hne with ⟨hbare, hhonest⟩ | ⟨m, hstored⟩
    · refine Or.inl ⟨⟨?_, hbare.data, ?_, ?_⟩, fun hzero _ => ?_⟩
      · rw [hfile]
        exact hbare.ino
      · rw [hfile]
        exact hc
      · rw [hfile]
        exact hbare.descs
      · rw [hfile] at hzero
        have hlen : (content.length : Int) = 0 := hn.symm.trans hzero
        exact List.eq_nil_of_length_eq_zero (by omega)
    · have hsize : (s.files f).size = (content.length : Int) := by
        rcases hstored with hsealed | ⟨w, chunks, hstream⟩
        · exact hsealed.size
        · exact hstream.size
      rw [hneg] at hsize
      omega

theorem modFile_modFile (s : State) (f : Nat) (c : Option Module) (n : Int) :
    (s.modFile f (fun file => { file with compressor := c })).modFile f (fun file => { file with size := n }) =
      s.modFile f (fun file => { file with compressor := c, size := n }) := by
  simp [State.modFile]

include he in
/-- `getattr` reports the length of the content, whether the entry knows it or not. -/
theorem getattrLocked_mirrors (h : s.Ready refs) (hm : s.Mirrors Γ q) (hq : q.Sound) (hu : q.Unmarked) (hf : f ∈ s.database) {k : Nat}
    (hk : q.file (s.files f).filename = some k) {st : Stat} (hino : s.fs.inoOf (s.files f).filename = some i)
    (hst : st.size = ((s.data i).length : Int)) (hlen : (s.data i).length < 2 ^ 63) :
    ∃ s' st', getattrLocked Γ env s f (s.files f).filename st = (s', .stat st') ∧ st'.size = ((q.content k).length : Int) ∧
      s'.Ready refs ∧ s'.Mirrors Γ q := by
  obtain ⟨i', hino', hholds⟩ := hm.holds hf hk
  rw [hino] at hino'
  cases hino'
  have hknows := hholds.knows (hu _ (hq.old _ _ hk))
  -- a change of the module and the size that keeps what the entry holds
  have hset : ∀ (c : Option Module) (n : Int),
      (s.modFile f (fun file => { file with compressor := c, size := n })).Holds Γ f i (q.content k) →
        (s.modFile f (fun file => { file with compressor := c, size := n })).Ready refs ∧
          (s.modFile f (fun file => { file with compressor := c, size := n })).Mirrors Γ q := by
    intro c n hheld
    have hcalm : Calm none s (s.modFile f (fun file => { file with compressor := c, size := n })) := calm_modFile f (fun _ => rfl)
    have hbooks : (s.modFile f (fun file => { file with compressor := c, size := n })).books = s.books :=
      books_modFile f (fun _ => ⟨rfl, rfl, rfl, rfl, rfl, rfl⟩)
    have hsteps : s.StepsOn (s.modFile f (fun file => { file with compressor := c, size := n })) f :=
      ⟨apart_modFile (Or.inl rfl), ⟨none, (fun _ hw => nomatch hw), hcalm.effects⟩, Books.Acked.status_only (f := f) (Or.inl hbooks)⟩
    refine ⟨hsteps.ready h hf, ?_⟩
    have hmirrors := hsteps.mirrors h hm hq hf hk ⟨i, hino, hheld⟩
    rwa [PlainFs.setContent_self] at hmirrors
  have hu64 : asU64 st.size = (s.data i).length := by
    rw [hst]
    exact asU64_of_nat (by omega)
  unfold getattrLocked
  dsimp only
  by_cases hneg : (s.files f).size = -1
  · rw [if_pos hneg, hu64]
    have hopen : (s.files f).head ≠ [] → (s.files f).compressor = none ∧ parse Γ (s.data i) = none ∧ s.data i = q.content k := by
      intro hne
      rcases hholds.opened hne with ⟨hbare, -⟩ | ⟨m, hstored⟩
      · refine ⟨hbare.compressor, ?_, hbare.data⟩
        rw [hbare.data]
        exact parse_of_not_magic (hu _ (hq.old _ _ hk))
      · have hsize : (s.files f).size = ((q.content k).length : Int) := by
          rcases hstored with hsealed | ⟨w, chunks, hstream⟩
          · exact hsealed.size
          · exact hstream.size
        omega
    split
    · rename_i hheader
      rw [if_pos ⟨he .open, he .readHeader⟩, hino]
      dsimp only
      rw [if_neg (by simp [he .close]), modFile_modFile]
      rcases unpacked_cases (hknows.unknown hneg) with ⟨hparse, hdata⟩ | ⟨m, hparse⟩
      · rw [fileReadHeader_of_parse_none hparse, if_neg (Nat.not_lt.mpr hheader)]
        refine ⟨_, _, rfl, hst.trans (by rw [hdata]), hset _ _ (hholds.setSize (fun _ _ => ?_) (fun _ => ⟨rfl, ?_, hneg⟩))⟩
        · rw [if_pos rfl]
          exact hparse
        · rw [hst, hdata]
      · rw [fileReadHeader_of_parse hparse]
        refine ⟨_, _, rfl, rfl, hset _ _ (hholds.setSize (fun _ _ => ?_) (fun hne => ?_))⟩
        · rw [if_neg (Option.some_ne_none m)]
        · rw [(hopen hne).2.1] at hparse
          cases hparse
    · rename_i hshort
      have hparse : parse Γ (s.data i) = none := by
        unfold parse
        rw [if_pos (Nat.lt_of_not_le hshort)]
      have hdata : s.data i = q.content k := by
        have hunpacked := hknows.unknown hneg
        rw [unpacked_of_none hparse] at hunpacked
        exact Option.some.inj hunpacked
      have hsame : s.modFile f (fun file => { file with size := st.size }) =
          s.modFile f (fun file => { file with compressor := (s.files f).compressor, size := st.size }) := rfl
      rw [hsame]
      refine ⟨_, _, rfl, hst.trans (by rw [hdata]), hset _ _ (hholds.setSize (fun _ _ => ?_) (fun hne => ⟨(hopen hne).1, ?_, hneg⟩))⟩
      · split
        · exact hparse
        · rw [hst, hdata]
      · rw [hst, hdata]
  · rw [if_neg hneg]
    split
    · rename_i hcomp
      exact ⟨s, _, rfl, hknows.packed hneg hcomp, h, hm⟩
    · rename_i hcomp
      refine ⟨s, _, rfl, ?_, h, hm⟩
      rw [hst, hknows.raw hneg (not_not.mp hcomp)]

/-- `getattr` of a name that is a command. -/
theorem getattrMagic_mirrors (h : s.Ready refs) (hm : s.Mirrors Γ q) (p : Filename) :
    (getattrMagic s p).1.Ready refs ∧ (getattrMagic s p).1.Mirrors Γ q := by
  have hredup : ∀ b, s.Unseen Γ ({ s with redup := b } : State) q refs :=
    fun b => hm.unseen h h.tidy rfl (fun _ => .refl _) rfl rfl rfl (fun _ hg => hg) (fun _ hg hout => absurd hg hout)
  unfold getattrMagic
  split
  · exact ⟨(hredup true).ready, (hredup true).mirrors⟩
  · split
    · exact ⟨(hredup false).ready, (hredup false).mirrors⟩
    · split
      · exact ⟨h, hm⟩
      · exact ⟨h, hm⟩

/-- A path that the plain file system does not have. -/
theorem State.Mirrors.find_none (hm : s.Mirrors Γ q) (h : s.Ready refs) (hk : q.file p = none) : s.fs.find p = none := by
  have hno := (hm.absent p hk).1
  cases hnode : s.fs.find p with
  | none => rfl
  | some node =>
    cases node with
    | dir => exact absurd hnode (h.flat p)
    | reg i =>
      rw [Backing.inoOf_eq_some.mpr hnode] at hno
      cases hno

include he hdedup in
theorem fusecompressGetattr_mirrors (h : s.Ready refs) (hm : s.Mirrors Γ q) (hq : q.Sound) (hu : q.Unmarked)
    (hmagic : isMagicFile p = false) (hlen : ∀ i ∈ s.fs.inoOf p, (s.data i).length < 2 ^ 63) :
    ∃ s' r, fusecompressGetattr Γ env s p = (s', r) ∧ s'.Ready refs ∧ s'.Mirrors Γ q ∧
      (q.file p = none → r = .fail) ∧ ∀ k, q.file p = some k → r.seen = .size (q.content k).length := by
  unfold fusecompressGetattr
  rw [if_neg (by simp [hmagic])]
  cases hk : q.file p with
  | none =>
    have hstat : sysGetattr Γ env s.fs p = .failed := by
      unfold sysGetattr
      rw [if_pos (he .lstat), hm.find_none h hk]
    rw [hstat]
    exact ⟨s, _, rfl, h, hm, fun _ => rfl, fun k hk => nomatch hk⟩
  | some k =>
    obtain ⟨i, hshow⟩ := hm.shown p k hk
    obtain ⟨st, hstat, hsize⟩ : ∃ st, sysGetattr Γ env s.fs p = .regular st ∧ st.size = ((s.data i).length : Int) := by
      unfold sysGetattr
      rw [if_pos (he .lstat), Backing.inoOf_eq_some.mp hshow.ino]
      exact ⟨_, rfl, rfl⟩
    rw [hstat]
    obtain ⟨s₁, f, hdirect, hunseen, hf, hname⟩ := directOpen_unseen hm h hdedup env p
    rw [hdirect]
    dsimp only
    have hino : s₁.fs.inoOf (s₁.files f).filename = some i := by
      rw [hname, hunseen.fs]
      exact hshow.ino
    have hdata : s₁.data i = s.data i := by
      unfold State.data
      rw [hunseen.fs]
    have hk₁ : q.file (s₁.files f).filename = some k := by
      rw [hname]
      exact hk
    obtain ⟨s₂, st', heq, hsize', hready, hmirrors⟩ := getattrLocked_mirrors he hunseen.ready hunseen.mirrors hq hu hf hk₁ hino
      (hsize.trans (by rw [hdata])) (by rw [hdata]; exact hlen i hshow.ino)
    rw [hname] at heq
    refine ⟨s₂, _, heq, hready, hmirrors, (fun hk => nomatch hk), fun k' hk' => ?_⟩
    cases hk'
    exact congrArg Seen.size hsize'

/-! ## Names -/

/-- Nobody has a path open that the plain file system does not have. -/
theorem State.Mirrors.closed (hm : s.Mirrors Γ q) (hf : f ∈ s.database) (hk : q.file (s.files f).filename = none) :
    (s.files f).head = [] := by
  by_contra hne
  obtain ⟨d, hd⟩ := List.exists_mem_of_ne_nil _ hne
  have hsome := hm.target f hf d hd
  rw [hk] at hsome
  cases hsome

theorem State.Ready.hasParent (h : s.Ready refs) (p : Filename) : s.fs.hasParent p = decide (dirname p = none) := by
  unfold Backing.hasParent
  split
  · rename_i hd
    rw [hd]
    rfl
  · rename_i d hd
    rw [hd, decide_eq_false (h.flat d)]
    rfl

include he hdedup in
theorem fusecompressMknod_mirrors (h : s.Ready refs) (hm : s.Mirrors Γ q) (hq : q.Sound) (p : Filename) (mode uid gid : Nat) :
    ∃ s', fusecompressMknod Γ env s p mode uid gid = (s', if q.file p = none ∧ dirname p = none then .ok else .fail) ∧
      s'.Ready refs ∧ s'.Mirrors Γ (if dirname p = none then q.create p else q) := by
  obtain ⟨s₁, f, hdirect, hunseen, hf, rfl⟩ := directOpen_unseen hm h hdedup env p
  obtain ⟨hready, hmirrors, -⟩ := hunseen
  have hparent := hready.hasParent (s₁.files f).filename
  unfold fusecompressMknod
  rw [hdirect]
  dsimp only
  by_cases hmade : q.file (s₁.files f).filename = none ∧ dirname (s₁.files f).filename = none
  · obtain ⟨hk, hdir⟩ := hmade
    have hsteps : s₁.StepsOn (mknodLocked env s₁ (s₁.files f).filename mode uid gid).1 f :=
      ⟨apart_mknodLocked _ mode uid gid,
        ⟨none, (fun _ hw => nomatch hw), effects_mknodLocked env s₁ _ mode uid gid rfl (Nat.le_refl _)⟩,
        Books.Acked.status_only (f := f) (Or.inl (books_mknodLocked env s₁ _ mode uid gid))⟩
    have heq : mknodLocked env s₁ (s₁.files f).filename mode uid gid =
        (s₁.withFs (fun b => (b.alloc [] { mode := mode, uid := uid, gid := gid, atime := b.clock, mtime := b.clock }).setName
          (s₁.files f).filename b.next), .ok) := by
      unfold mknodLocked Backing.mknod
      rw [if_pos (he .mknod), if_pos ⟨hmirrors.find_none hready hk, by rw [hparent, hdir]; rfl⟩]
      rfl
    rw [heq] at hsteps ⊢
    obtain ⟨hfile, hcontent, -, htarget, hnext⟩ := PlainFs.create_of_none hk
    rw [if_pos ⟨hk, hdir⟩, if_pos hdir]
    have hnil := hmirrors.closed hf hk
    refine ⟨_, rfl, hsteps.ready hready hf, ?_⟩
    refine hmirrors.update hready hf hsteps.worksOn (hmirrors.nextDesc.trans hnext.symm)
      (fun p' hp' => by rw [hfile, Function.update_of_ne hp'])
      (fun p' k' _ hk' => by rw [hcontent, Function.update_of_ne (Nat.ne_of_lt (hq.old p' k' hk'))]) (fun _ _ => by rw [htarget])
      (fun hnone => ?_) (fun k' hk' => ?_) (fun d hd => ?_)
    · rw [hfile, Function.update_self] at hnone
      cases hnone
    · rw [hfile, Function.update_self] at hk'
      cases hk'
      refine ⟨s₁.fs.next, ?_, fun _ => ⟨?_, fun hsize => ?_⟩, fun hne => absurd hnil hne⟩
      · rw [State.fs_withFs, Backing.inoOf_setName, if_pos rfl]
      · rw [hcontent, Function.update_self]
        have hdata : (s₁.withFs (fun b => (b.alloc [] { mode := mode, uid := uid, gid := gid, atime := b.clock, mtime := b.clock }).setName
            (s₁.files f).filename b.next)).data s₁.fs.next = [] := by
          change ((s₁.fs.alloc [] _).inodes s₁.fs.next).data = []
          rw [Backing.inodes_alloc, if_pos rfl]
        rw [hdata]
        exact unpacked_of_not_magic (by decide)
      · exact absurd ((hmirrors.absent _ hk).2 f hf rfl) hsize
    · have hd' : d ∈ (s₁.files f).head := hd
      rw [hnil] at hd'
      cases hd'
  · have heq : mknodLocked env s₁ (s₁.files f).filename mode uid gid = (s₁, .fail) := by
      have hno : ¬(s₁.fs.find (s₁.files f).filename = none ∧ s₁.fs.hasParent (s₁.files f).filename = true) := by
        rintro ⟨hfind, hpar⟩
        rw [hparent] at hpar
        refine hmade ⟨?_, of_decide_eq_true hpar⟩
        cases hk : q.file (s₁.files f).filename with
        | none => rfl
        | some k =>
          obtain ⟨i, hshow⟩ := hmirrors.shown _ k hk
          rw [Backing.inoOf_eq_some.mp hshow.ino] at hfind
          cases hfind
      unfold mknodLocked Backing.mknod
      rw [if_pos (he .mknod), if_neg hno]
    rw [heq, if_neg hmade]
    refine ⟨s₁, rfl, hready, ?_⟩
    split
    · rename_i hdir
      unfold PlainFs.create
      cases hk : q.file (s₁.files f).filename with
      | none => exact absurd ⟨hk, hdir⟩ hmade
      | some k => exact hmirrors
    · exact hmirrors

include he hdedup in
theorem fusecompressUnlink_mirrors (h : s.Ready refs) (hm : s.Mirrors Γ q) (hopen : ¬s.hasOpen p) :
    ∃ s', fusecompressUnlink Γ env s p = (s', if (q.file p).isSome then .ok else .fail) ∧ s'.Ready refs ∧ s'.Mirrors Γ (q.unlink p) := by
  obtain ⟨s₁, f, hdirect, hunseen, hf, hname⟩ := directOpen_unseen hm h hdedup env p
  have hnil : (s₁.files f).head = [] := by
    by_contra hne
    refine hopen ((hunseen.hasOpen h p).mp ?_)
    rw [← hname]
    exact (hunseen.ready.hasOpen_iff hf).mpr hne
  subst hname
  obtain ⟨hready, hmirrors, -⟩ := hunseen
  unfold fusecompressUnlink
  rw [hdirect]
  dsimp only
  have hsteps : s₁.StepsOn (unlinkLocked Γ env s₁ f (s₁.files f).filename).1 f :=
    ⟨apart_unlinkLocked _ hdedup,
      ⟨none, (fun _ hw => nomatch hw), effects_unlinkLocked Γ env s₁ _ rfl (fun hd => absurd hd (by simp [hdedup]))⟩,
      Books.Acked.status_only (f := f) (Or.inl (books_unlinkLocked Γ env s₁ f _))⟩
  cases hk : q.file (s₁.files f).filename with
  | some k =>
    obtain ⟨i, hshow⟩ := hmirrors.shown _ k hk
    have heq : unlinkLocked Γ env s₁ f (s₁.files f).filename =
        (directDelete (s₁.withFs (fun b => b.dropName (s₁.files f).filename)) f, .ok) := by
      unfold unlinkLocked sysUnlink Backing.unlink
      rw [discard_off hdedup]
      dsimp only
      rw [if_neg (by simp [hdedup]), if_pos (he .unlink), Backing.inoOf_eq_some.mp hshow.ino]
      rfl
    rw [heq] at hsteps ⊢
    refine ⟨_, rfl, hsteps.ready hready hf, ?_⟩
    have hgone : (q.unlink (s₁.files f).filename).file (s₁.files f).filename = none := Function.update_self ..
    refine hmirrors.update hready hf hsteps.worksOn hmirrors.nextDesc (fun p' hp' => Function.update_of_ne hp' _ _) (fun _ _ _ _ => rfl)
      (fun _ _ => rfl) (fun _ => ⟨?_, ?_⟩) (fun k' hk' => ?_) (fun d hd => ?_)
    · change (s₁.fs.dropName _).inoOf _ = none
      rw [Backing.inoOf_dropName, if_pos rfl]
    · unfold directDelete
      rw [State.files_modFile, if_pos rfl]
    · rw [hgone] at hk'
      cases hk'
    · rw [hsteps.descriptors.2.1, hnil] at hd
      cases hd
  | none =>
    have hfind := hmirrors.find_none hready hk
    have heq : unlinkLocked Γ env s₁ f (s₁.files f).filename = (s₁, .fail) := by
      unfold unlinkLocked sysUnlink Backing.unlink
      rw [discard_off hdedup]
      dsimp only
      rw [if_neg (by simp [hdedup]), if_pos (he .unlink), hfind]
    have hself : q.unlink (s₁.files f).filename = q := by
      unfold PlainFs.unlink
      rw [Function.update_eq_self_iff.mpr hk.symm]
    rw [heq, hself]
    exact ⟨s₁, rfl, hready, hmirrors⟩

/-- What `direct_rename` makes of the two entries and of their descriptors. -/
structure State.Moved (s t : State) (x y : Nat) : Prop where
  fs : t.fs = s.fs
  cache : ∀ g, (t.files g).cache = (s.files g).cache
  size : (t.files x).size = -1
  info : (t.files y).compressor = (s.files x).compressor ∧ (t.files y).size = (s.files x).size ∧
    (t.files y).type = (s.files x).type ∧ (t.files y).dontcompress = (s.files x).dontcompress
  files : ∀ g, g ≠ x → g ≠ y → t.files g = s.files g
  descs : ∀ d, t.descs d = if d ∈ (s.files x).head then { s.descs d with file := y } else s.descs d
  books : t.books = s.books.rename x y

theorem fs_moveDescs (s : State) (dst : Nat) (ds : List Nat) : (moveDescs s dst ds).fs = s.fs := by
  induction ds generalizing s with
  | nil => rfl
  | cons d ds ih => rw [moveDescs, ih, State.fs_modDesc]

theorem directRename_moved (Γ : Config) {x y : Nat} (hne : x ≠ y) (hcache : (s.files y).cache = none) : s.Moved (directRename Γ s x y) x y := by
  have hbooks := books_directRename (Γ := Γ) (s := s) hne
  unfold directRename at hbooks ⊢
  have hflush : flushFileCache s y = s := by
    unfold flushFileCache
    rw [hcache]
  rw [hflush] at hbooks ⊢
  unfold directDelete moveQueue moveHead inheritInfo at hbooks ⊢
  have hne' := hne.symm
  refine ⟨?_, fun g => ?_, ?_, ?_, fun g hx hy => ?_, fun d => ?_, hbooks⟩
  · simp [fs_moveDescs]
  · by_cases hx : g = x
    · simp [hx, hne, files_moveDescs]
    · by_cases hy : g = y
      · simp [hy, hne', files_moveDescs]
      · simp [hx, hy, files_moveDescs]
  · simp
  · simp [hne', files_moveDescs]
  · simp [hx, hy, files_moveDescs]
  · simp [hne, descs_moveDescs]

/-- The backing directory after a rename. -/
theorem inoOf_renamed (b : Backing) (src dst : Filename) (i : Nat) (p : Filename) :
    ((b.dropName src).setName dst i).inoOf p = if p = dst then some i else if p = src then none else b.inoOf p := by
  rw [Backing.inoOf_setName, Backing.inoOf_dropName]

section Renamed

variable {t : State} {x y : Nat} (h : s.Ready refs) (hm : s.Mirrors Γ q) (hx : x ∈ s.database) (hy : y ∈ s.database) (hne : x ≠ y)
  (hi : s.fs.inoOf (s.files x).filename = some i)
  (hmoved : State.Moved { s with fs := (s.fs.dropName (s.files x).filename).setName (s.files y).filename i } t x y)

include h hx hy hne hi hmoved in
theorem renamed_ready : t.Ready refs := by
  have hfs : t.fs = (s.fs.dropName (s.files x).filename).setName (s.files y).filename i := hmoved.fs
  have hbooks : t.books = s.books.rename x y := hmoved.books
  have hname : ∀ g, (t.files g).filename = (s.files g).filename := fun g => congrFun (congrArg Books.filename hbooks) g
  have hnextFile : t.nextFile = s.nextFile := congrArg Books.nextFile hbooks
  have hdescs : ∀ d, t.descs d = if d ∈ (s.files x).head then { s.descs d with file := y } else s.descs d := hmoved.descs
  have hdst := h.other_name hx hy hne.symm
  -- the fields of a descriptor other than its owner stay
  have hsame : ∀ d, (t.descs d).fd = (s.descs d).fd ∧ (t.descs d).writable = (s.descs d).writable ∧
      (t.descs d).handle = (s.descs d).handle ∧ (t.descs d).live = (s.descs d).live := by
    intro d
    rw [hdescs]
    split
    · exact ⟨rfl, rfl, rfl, rfl⟩
    · exact ⟨rfl, rfl, rfl, rfl⟩
  refine ⟨?_, ⟨fun p j hj => ?_, fun d fd hw hfd => ?_, fun d hd => ?_⟩, fun p p' j _ _ hp hp' => ?_, fun p hp => ?_, fun g => ?_,
    fun d hd => ?_⟩
  · rw [hbooks]
    exact h.tidy.rename hne hx hy
  · rw [hfs, inoOf_renamed] at hj
    rw [hfs]
    change j < s.fs.next
    split at hj
    · cases hj
      exact h.homed.named _ _ hi
    · split at hj
      · cases hj
      · exact h.homed.named p j hj
  · rw [(hsame d).1] at hfd
    rw [(hsame d).2.1] at hw
    obtain ⟨hlt, hfile, honly⟩ := h.homed.descs d fd hw hfd
    have hlive : (s.descs d).live = true := by
      cases hl : (s.descs d).live with
      | true => rfl
      | false =>
        rw [h.dead d hl] at hfd
        cases hfd
    have hmem : d ∈ (s.files (s.descs d).file).head := (h.tidy.balanced.mem_head _ d).mpr ⟨hlive, rfl⟩
    have hlisted := h.tidy.listed hmem
    refine ⟨by rw [hfs]; exact hlt, ?_, fun p _ hp => ?_⟩
    · rw [hnextFile, hdescs]
      split
      · exact h.lt hy
      · exact hfile
    · rw [hfs, inoOf_renamed] at hp
      rw [hname, hdescs]
      by_cases hdx : d ∈ (s.files x).head
      · rw [if_pos hdx]
        split at hp
        · rename_i e
          exact e
        · split at hp
          · cases hp
          · rename_i _ hsrc
            rw [(h.head_owner hdx).2] at honly
            exact absurd (honly p trivial hp) hsrc
      · rw [if_neg hdx]
        have hgx : (s.descs d).file ≠ x := fun e => hdx (e ▸ hmem)
        split at hp
        · rename_i e
          cases hp
          have hown := honly _ trivial hi
          exact absurd (h.tidy.once _ hlisted x hx hown.symm) hgx
        · split at hp
          · cases hp
          · exact honly p trivial hp
  · obtain ⟨chunks, hhandle⟩ := hd
    rw [(hsame d).2.2.1] at hhandle
    rw [(hsame d).2.1]
    exact h.homed.writing d ⟨chunks, hhandle⟩
  · rw [hfs, inoOf_renamed] at hp hp'
    have hold : ∀ p', p' ≠ (s.files x).filename → s.fs.inoOf p' ≠ some i :=
      fun p' hsrc hp' => hsrc (h.single p' _ i trivial trivial hp' hi)
    split at hp
    · rename_i e
      cases hp
      split at hp'
      · rename_i e'
        exact e.trans e'.symm
      · split at hp'
        · cases hp'
        · rename_i _ hsrc
          exact absurd hp' (hold p' hsrc)
    · split at hp
      · cases hp
      · rename_i _ hsrc
        split at hp'
        · cases hp'
          exact absurd hp (hold p hsrc)
        · split at hp'
          · cases hp'
          · exact h.single p p' j trivial trivial hp hp'
  · rw [hfs] at hp
    exact h.flat p (dirs_dropName p (dirs_setName p hp))
  · exact (hmoved.cache g).trans (h.uncached g)
  · rw [(hsame d).2.2.2] at hd
    rw [(hsame d).1]
    exact h.dead d hd

include h hm hx hy hne hi hmoved in
theorem renamed_mirrors {k : Nat} (hk : q.file (s.files x).filename = some k) (hnil : (s.files y).head = []) :
    t.Mirrors Γ (q.rename (s.files x).filename (s.files y).filename) := by
  have hfs : t.fs = (s.fs.dropName (s.files x).filename).setName (s.files y).filename i := hmoved.fs
  have hbooks : t.books = s.books.rename x y := hmoved.books
  have hname : ∀ g, (t.files g).filename = (s.files g).filename := fun g => congrFun (congrArg Books.filename hbooks) g
  have hdb : t.database = s.database := congrArg Books.database hbooks
  have hhead : ∀ g, (t.files g).head = if g = y then (s.files x).head.reverse ++ (s.files y).head else if g = x then [] else (s.files g).head := by
    intro g
    exact (congrFun (congrArg Books.head hbooks) g).trans (Books.Balanced.head_moveHead _ x y g)
  have hdescs : ∀ d, t.descs d = if d ∈ (s.files x).head then { s.descs d with file := y } else s.descs d := hmoved.descs
  have hdst := h.other_name hx hy hne.symm
  have hdata : ∀ j, t.data j = s.data j := by
    intro j
    unfold State.data
    rw [hfs]
    rfl
  have hplain : q.rename (s.files x).filename (s.files y).filename =
      { q with file := Function.update (Function.update q.file (s.files x).filename none) (s.files y).filename (some k) } := by
    unfold PlainFs.rename
    rw [hk]
  rw [hplain]
  have hother : ∀ g ∈ s.database, (s.files g).filename ≠ (s.files x).filename → (s.files g).filename ≠ (s.files y).filename →
      t.files g = s.files g ∧ ∀ d ∈ (s.files g).head, t.descs d = s.descs d := by
    intro g hg hgx hgy
    have hx' : g ≠ x := fun e => hgx (by rw [e])
    have hy' : g ≠ y := fun e => hgy (by rw [e])
    refine ⟨hmoved.files g hx' hy', fun d hd => ?_⟩
    rw [hdescs, if_neg]
    intro hdx
    exact hx' ((h.head_owner hd).2.symm.trans (h.head_owner hdx).2)
  refine ⟨(congrArg Books.nextDesc hbooks).trans hm.nextDesc, fun p hp => ?_, fun p k' hp => ?_, fun g hg d hd => ?_⟩
  · dsimp only at hp
    rw [Function.update_apply] at hp
    split at hp
    · cases hp
    · rename_i hpy
      rw [hfs, inoOf_renamed, if_neg hpy, hdb]
      by_cases hpx : p = (s.files x).filename
      · rw [if_pos hpx]
        refine ⟨rfl, fun g hg hgp => ?_⟩
        rw [hname] at hgp
        rw [h.tidy.once g hg x hx (hgp.trans hpx)]
        exact hmoved.size
      · rw [Function.update_of_ne hpx] at hp
        rw [if_neg hpx]
        obtain ⟨hino, hsize⟩ := hm.absent p hp
        refine ⟨hino, fun g hg hgp => ?_⟩
        rw [hname] at hgp
        rw [(hother g hg (fun e => hpx (hgp.symm.trans e)) (fun e => hpy (hgp.symm.trans e))).1]
        exact hsize g hg hgp
  · dsimp only at hp ⊢
    rw [Function.update_apply] at hp
    split at hp
    · rename_i hpy
      cases hp
      subst hpy
      obtain ⟨j, hj, hholds⟩ := hm.holds hx hk
      rw [hi] at hj
      cases hj
      refine ⟨i, by rw [hfs, inoOf_renamed, if_pos rfl], fun g hg hgp => ?_, fun hfree => ?_⟩
      · rw [hdb] at hg
        rw [hname] at hgp
        rw [h.tidy.once g hg y hy hgp]
        refine hholds.carry ⟨hmoved.info.1, hmoved.info.2.1, hmoved.info.2.2.1, hmoved.info.2.2.2, fun d => ?_⟩ (fun d hd => ?_) ?_ (hdata i)
        · rw [hhead, if_pos rfl, hnil, List.append_nil, List.mem_reverse]
        · rw [hdescs, if_pos hd]
          exact ⟨rfl, rfl, rfl⟩
        · rw [hname, hfs, inoOf_renamed, if_pos rfl]
      · refine absurd (hname y) (hfree y ?_)
        rw [hdb]
        exact hy
    · rename_i hpy
      have hpx : p ≠ (s.files x).filename := by
        rintro rfl
        rw [Function.update_self] at hp
        cases hp
      rw [Function.update_of_ne hpx] at hp
      obtain ⟨j, hshow⟩ := hm.shown p k' hp
      have hino : t.fs.inoOf p = some j := by
        rw [hfs, inoOf_renamed, if_neg hpy, if_neg hpx]
        exact hshow.ino
      refine ⟨j, hino, fun g hg hgp => ?_, fun hfree => ?_⟩
      · rw [hdb] at hg
        have hgp' := hgp
        rw [hname] at hgp
        obtain ⟨hsame, hds⟩ := hother g hg (fun e => hpx (hgp.symm.trans e)) (fun e => hpy (hgp.symm.trans e))
        refine (hshow.entry g hg hgp).carry (by rw [hsame]; exact .refl _) (fun d hd => ?_) ?_ (hdata j)
        · rw [hds d hd]
          exact .refl _
        · rw [hgp']
          exact hino
      · rw [hdata]
        refine hshow.free (fun g hg hgp => hfree g (by rw [hdb]; exact hg) ?_)
        rw [hname]
        exact hgp
  · rw [hdb] at hg
    dsimp only
    rw [hname]
    rw [hhead] at hd
    split at hd
    · rename_i e
      rw [hnil, List.append_nil, List.mem_reverse] at hd
      rw [e, Function.update_self]
      have htarget := hm.target x hx d hd
      rw [hk] at htarget
      exact htarget
    · rename_i hgy
      split at hd
      · cases hd
      · rename_i hgx
        rw [Function.update_of_ne (h.other_name hy hg hgy), Function.update_of_ne (h.other_name hx hg hgx)]
        exact hm.target g hg d hd

end Renamed

/-- An access is counted, or given back. -/
theorem State.Mirrors.count (hm : s.Mirrors Γ q) (h : s.Ready refs) (hf : f ∈ s.database) {n : Int}
    (hr : (refs' f : Int) = refs f + n) (hne : ∀ g, g ≠ f → refs' g = refs g) :
    s.Unseen Γ (s.modFile f (fun file => { file with accesses := file.accesses + n })) q refs' := by
  refine hm.modFile h ⟨⟨rfl, rfl, rfl, rfl, fun _ => Iff.rfl⟩, rfl, rfl⟩ ?_
  rw [books_count]
  exact h.tidy.count hf hr hne

/-- One more access of an entry. -/
def withRef (refs : Nat → Nat) (x : Nat) (g : Nat) : Nat := refs g + if g = x then 1 else 0

theorem withRef_self (refs : Nat → Nat) (x : Nat) : withRef refs x x = refs x + 1 := by simp [withRef]

theorem withRef_of_ne (refs : Nat → Nat) {x g : Nat} (hne : g ≠ x) : withRef refs x g = refs g := by simp [withRef, hne]

theorem State.Ready.mem_of_ref (h : s.Ready (withRef refs f)) : f ∈ s.database := by
  refine h.tidy.used f (fun hzero => ?_)
  have hcount := (h.tidy.balanced.unused (le_of_eq hzero)).2.2
  rw [withRef_self] at hcount
  omega

/-- An access is given back. -/
theorem State.Mirrors.uncount (hm : s.Mirrors Γ q) (h : s.Ready (withRef refs f)) :
    s.Unseen Γ (s.modFile f (fun file => { file with accesses := file.accesses - 1 })) q refs :=
  hm.count (n := -1) h h.mem_of_ref (by rw [withRef_self]; omega) (fun _ hg => (withRef_of_ne refs hg).symm)

theorem State.Mirrors.countAccess (hm : s.Mirrors Γ q) (h : s.Ready refs) (hf : f ∈ s.database) :
    s.Unseen Γ (countAccess s f) q (withRef refs f) :=
  hm.count (n := 1) h hf (by rw [withRef_self]; omega) (fun _ hg => withRef_of_ne refs hg)

include he hdedup in
/-- The system call of a rename, and what it makes of the entries. -/
theorem sysRename_mirrors {x y : Nat} (h : s.Ready refs) (hm : s.Mirrors Γ q) (hx : x ∈ s.database) (hy : y ∈ s.database)
    (hne : x ≠ y) (hopen : ¬s.hasOpen (s.files y).filename) :
    ∃ s', (match sysRename Γ env s.fs (s.files x).filename (s.files y).filename with
        | (b, true) =>
          let s : State := { s with fs := b }
          (directRename Γ (if Γ.dedupEnabled then dedupRename s x y else s) x y, Reply.ok)
        | (b, false) => ({ s with fs := b }, Reply.fail)) =
        (s', if (q.file (s.files x).filename).isSome ∧ ((q.file (s.files y).filename).isSome ∨ dirname (s.files y).filename = none) then
          .ok else .fail) ∧ s'.Ready refs ∧
      s'.Mirrors Γ (if (q.file (s.files y).filename).isSome ∨ dirname (s.files y).filename = none then
        q.rename (s.files x).filename (s.files y).filename else q) := by
  have hnil : (s.files y).head = [] := by
    by_contra hno
    exact hopen ((h.hasOpen_iff hy).mpr hno)
  have hfail : s.fs.rename (s.files x).filename (s.files y).filename = none →
      sysRename Γ env s.fs (s.files x).filename (s.files y).filename = (s.fs, false) := by
    intro hnone
    unfold sysRename
    rw [if_neg (by simp [hdedup]), if_pos (he .rename), hnone]
  have hparent := h.hasParent (s.files y).filename
  cases hk : q.file (s.files x).filename with
  | none =>
    have hself : q.rename (s.files x).filename (s.files y).filename = q := by
      unfold PlainFs.rename
      rw [hk]
    have hnone : s.fs.rename (s.files x).filename (s.files y).filename = none := by
      unfold Backing.rename
      rw [hm.find_none h hk]
    rw [hfail hnone, hself, ite_self, if_neg (by simp)]
    exact ⟨s, rfl, h, hm⟩
  | some k =>
    obtain ⟨i, hshow⟩ := hm.shown _ k hk
    have hino := hshow.ino
    by_cases hto : (q.file (s.files y).filename).isSome ∨ dirname (s.files y).filename = none
    · have hrename : s.fs.rename (s.files x).filename (s.files y).filename =
          some ((s.fs.dropName (s.files x).filename).setName (s.files y).filename i) := by
        unfold Backing.rename
        rw [Backing.inoOf_eq_some.mp hino]
        dsimp only
        cases hk' : q.file (s.files y).filename with
        | none =>
          have hdir : dirname (s.files y).filename = none := by
            rw [hk'] at hto
            exact hto.resolve_left (by simp)
          rw [hm.find_none h hk', hparent, decide_eq_true hdir]
          rfl
        | some k' =>
          obtain ⟨j, hshow'⟩ := hm.shown _ k' hk'
          rw [Backing.inoOf_eq_some.mp hshow'.ino]
          dsimp only
          rw [if_neg]
          rintro rfl
          exact h.other_name hy hx hne (h.single _ _ i trivial trivial hino hshow'.ino)
      have hsys : sysRename Γ env s.fs (s.files x).filename (s.files y).filename =
          ((s.fs.dropName (s.files x).filename).setName (s.files y).filename i, true) := by
        unfold sysRename
        rw [if_neg (by simp [hdedup]), if_pos (he .rename), hrename]
      rw [hsys, if_pos ⟨rfl, hto⟩, if_pos hto]
      dsimp only
      rw [if_neg (by simp [hdedup])]
      have hmoved := directRename_moved Γ
        (s := { s with fs := (s.fs.dropName (s.files x).filename).setName (s.files y).filename i }) hne (h.uncached y)
      exact ⟨_, rfl, renamed_ready h hx hy hne hino hmoved, renamed_mirrors h hm hx hy hne hino hmoved hk hnil⟩
    · have hnone : s.fs.rename (s.files x).filename (s.files y).filename = none := by
        have hk' : q.file (s.files y).filename = none := by
          cases hk' : q.file (s.files y).filename with
          | none => rfl
          | some k' => exact absurd (Or.inl (by rw [hk']; rfl)) hto
        have hdir : ¬dirname (s.files y).filename = none := fun hdir => hto (Or.inr hdir)
        unfold Backing.rename
        rw [Backing.inoOf_eq_some.mp hino]
        dsimp only
        rw [hm.find_none h hk', hparent, decide_eq_false hdir]
        rfl
      rw [hfail hnone, if_neg hto, if_neg (fun hboth => hto hboth.2)]
      exact ⟨s, rfl, h, hm⟩

include hdedup in
/-- `rename` finds the two entries. When it has locked them it gives back the accesses that it has counted, and no client has seen
anything of it. -/
theorem renamePair_unseen {src dst : Filename} {a b : State × Nat} {t : State} (ha : directOpen Γ env s src = a)
    (hb : directOpen Γ env (countAccess a.1 a.2) dst = b)
    (ht : t = ((countAccess b.1 b.2).modFile a.2 (fun file => { file with accesses := file.accesses - 1 })).modFile b.2
      (fun file => { file with accesses := file.accesses - 1 }))
    (h : s.Ready refs) (hm : s.Mirrors Γ q) (hne : src ≠ dst) :
    s.Unseen Γ t q refs ∧ a.2 ∈ t.database ∧ b.2 ∈ t.database ∧ a.2 ≠ b.2 ∧ (t.files a.2).filename = src ∧
      (t.files b.2).filename = dst := by
  obtain ⟨s₁, x, hdirect₁, hunseen₁, hx₁, hsrc⟩ := directOpen_unseen hm h hdedup env src
  obtain rfl := ha.symm.trans hdirect₁
  have hcounted₁ := hunseen₁.mirrors.countAccess hunseen₁.ready hx₁
  obtain ⟨s₃, y, hdirect₃, hunseen₃, hy₃, hdst⟩ := directOpen_unseen hcounted₁.mirrors hcounted₁.ready hdedup env dst
  obtain rfl := hb.symm.trans hdirect₃
  have hx₃ : x ∈ s₃.database := hunseen₃.ready.mem_of_ref
  have hname₃ : (s₃.files x).filename = src := by
    rw [hunseen₃.filename x (hcounted₁.ready.lt hx₁), hcounted₁.filename x (hunseen₁.ready.lt hx₁)]
    exact hsrc
  have hxy : x ≠ y := by
    rintro rfl
    exact hne (hname₃.symm.trans hdst)
  -- both accesses are given back before anything else happens
  have hcounted₃ := hunseen₃.mirrors.countAccess hunseen₃.ready hy₃
  have hswap : withRef (withRef refs x) y = withRef (withRef refs y) x := funext (fun _ => Nat.add_right_comm _ _ _)
  have hready₃ : (countAccess s₃ y).Ready (withRef (withRef refs y) x) := hswap ▸ hcounted₃.ready
  have hback₁ := hcounted₃.mirrors.uncount hready₃
  have hback₂ := hback₁.mirrors.uncount hback₁.ready
  have hback := hcounted₃.trans (hback₁.trans hback₂)
  rw [ht]
  exact ⟨hunseen₁.trans (hcounted₁.trans (hunseen₃.trans hback)), hx₃, hy₃, hxy,
    (hback.filename x (hunseen₃.ready.lt hx₃)).trans hname₃, (hback.filename y (hunseen₃.ready.lt hy₃)).trans hdst⟩

include he hdedup in
theorem fusecompressRename_mirrors {src dst : Filename} (h : s.Ready refs) (hm : s.Mirrors Γ q) (hne : src ≠ dst) (hopen : ¬s.hasOpen dst) :
    ∃ s', fusecompressRename Γ env s src dst =
        (s', if (q.file src).isSome ∧ ((q.file dst).isSome ∨ dirname dst = none) then .ok else .fail) ∧
      s'.Ready refs ∧ s'.Mirrors Γ (if (q.file dst).isSome ∨ dirname dst = none then q.rename src dst else q) := by
  unfold fusecompressRename renameLocked
  dsimp only
  generalize ha : directOpen Γ env s src = a
  generalize hb : directOpen Γ env (countAccess a.1 a.2) dst = b
  generalize ht : ((countAccess b.1 b.2).modFile a.2 (fun file => { file with accesses := file.accesses - 1 })).modFile b.2
    (fun file => { file with accesses := file.accesses - 1 }) = t
  obtain ⟨hunseen, hx, hy, hxy, hsrc, hdst⟩ := renamePair_unseen hdedup ha hb ht.symm h hm hne
  have hclosed : ¬t.hasOpen (t.files b.2).filename := by
    rw [hdst, hunseen.hasOpen h dst]
    exact hopen
  have hdone := sysRename_mirrors he hdedup hunseen.ready hunseen.mirrors hx hy hxy hclosed
  rw [hsrc, hdst] at hdone ⊢
  exact hdone

/-! ## The background thread -/

/-- A change that comes from one entry, and after which its path holds what it held. -/
theorem State.StepsOn.unchanged (hs : s.StepsOn s' f) (h : s.Ready refs) (hm : s.Mirrors Γ q) (hf : f ∈ s.database)
    (habsent : q.file (s.files f).filename = none → s'.fs.inoOf (s.files f).filename = none ∧ (s'.files f).size = -1)
    (hshown : ∀ k, q.file (s.files f).filename = some k →
      ∃ i, s'.fs.inoOf (s.files f).filename = some i ∧ s'.Holds Γ f i (q.content k)) : s'.Ready refs ∧ s'.Mirrors Γ q := by
  obtain ⟨hnext, hhead, -⟩ := hs.descriptors
  refine ⟨hs.ready h hf, hm.update h hf hs.worksOn (hnext.trans hm.nextDesc) (fun _ _ => rfl) (fun _ _ _ _ => rfl) (fun _ _ => rfl)
    habsent hshown (fun d hd => ?_)⟩
  rw [hhead] at hd
  exact hm.target f hf d hd

theorem stepsOn_modFile {k : FileT → FileT} (hname : ∀ x, (k x).filename = x.filename) (hcache : (k (s.files f)).cache = (s.files f).cache)
    (hbooks : (s.modFile f k).books = { s.books with status := (s.modFile f k).books.status, cond := (s.modFile f k).books.cond }) :
    s.StepsOn (s.modFile f k) f := by
  have hcalm : Calm none s (s.modFile f k) := calm_modFile f hname
  exact ⟨apart_modFile (Or.inl hcache), ⟨none, (fun _ hw => nomatch hw), hcalm.effects⟩, hbooks⟩

/-- The compressed file, when it has been put in place. -/
theorem doCompressInstall_holds (env : Env) (job : Job) (content : Bytes) (hdedup : Γ.dedupEnabled = false) (hexact : (Γ.codec job.compressor).Exact)
    (havail : job.compressor.Available Γ) (hsize : job.size = content.length) (hlen : content.length < 2 ^ 63)
    (hnil : (s.files job.file).head = []) :
    (doCompressInstall Γ env s job content).fs.inoOf (s.files job.file).filename = some s.fs.next ∧
      (doCompressInstall Γ env s job content).Holds Γ job.file s.fs.next content := by
  obtain ⟨t, ht⟩ : ∃ t, t = ((s.withFs (fun b => b.alloc (header job.compressor job.size ++ (Γ.codec job.compressor).pack content)
      (copyOwnerMode env job.attr (tempAttr Γ b)))).withFs (fun b => b.setName (s.files job.file).filename s.fs.next)).modFile job.file
        (fun file => { file with compressor := some job.compressor, size := job.size }) := ⟨_, rfl⟩
  have hino : t.fs.inoOf (s.files job.file).filename = some s.fs.next := by
    rw [ht]
    change ((s.fs.alloc _ _).setName _ _).inoOf _ = _
    rw [Backing.inoOf_setName, if_pos rfl]
  have hdata : t.data s.fs.next = header job.compressor job.size ++ (Γ.codec job.compressor).pack content := by
    rw [ht]
    change ((s.fs.alloc _ _).inodes s.fs.next).data = _
    rw [Backing.inodes_alloc, if_pos rfl]
  have hfile : t.files job.file = { s.files job.file with compressor := some job.compressor, size := job.size } := by
    rw [ht, State.files_modFile, if_pos rfl]
    rfl
  have hholds : t.Holds Γ job.file s.fs.next content := by
    refine ⟨fun _ => ⟨?_, fun _ => ?_⟩, fun hne => absurd ?_ hne⟩
    · rw [hdata, hsize]
      refine unpacked_of_some (parse_header havail hlen _) ?_ rfl
      rw [List.drop_left' (length_header _ _)]
      exact hexact.packed content
    · rw [hfile]
      dsimp only
      rw [if_neg (Option.some_ne_none _), hsize]
    · rw [hfile]
      exact hnil
  have hutime : ∀ a, (t.withFs (fun b => b.utime s.fs.next a)).fs.inoOf (s.files job.file).filename = some s.fs.next ∧
      (t.withFs (fun b => b.utime s.fs.next a)).Holds Γ job.file s.fs.next content := by
    intro a
    refine ⟨hino, hholds.carry (.refl _) (fun _ _ => .refl _) ?_ ?_⟩
    · change t.fs.inoOf (t.files job.file).filename = _
      rw [hfile]
      exact hino
    · exact Backing.data_setAttr _ _ _ _
  have heq : doCompressInstall Γ env s job content = if env.ok .utime then
      (discard Γ t job.file).withFs (fun b => b.utime s.fs.next job.attr) else discard Γ t job.file := by
    rw [ht]
    rfl
  rw [heq, discard_off hdedup]
  split
  · exact hutime job.attr
  · exact ⟨hino, hholds⟩

theorem alike_acknowledgeCancel (file : FileT) : file.Alike (acknowledgeCancel file) := by
  unfold acknowledgeCancel
  split
  · exact ⟨rfl, rfl, rfl, rfl, fun _ => Iff.rfl⟩
  · exact .refl _

theorem filename_acknowledgeCancel (file : FileT) : (acknowledgeCancel file).filename = file.filename := by
  unfold acknowledgeCancel
  split <;> rfl

include he hdedup in
/-- The second part of `do_compress`, when nobody has come between. -/
theorem doCompressEnd_mirrors (job : Job) (hexact : (Γ.codec job.compressor).Exact) (havail : job.compressor.Available Γ)
    (h : s.Ready refs) (hm : s.Mirrors Γ q) (hq : q.Sound) (hf : job.file ∈ s.database) (hnil : (s.files job.file).head = []) {k : Nat}
    (hk : q.file (s.files job.file).filename = some k) (hino : s.fs.inoOf (s.files job.file).filename = some job.ino)
    (hsize : job.size = (s.data job.ino).length) (hdata : s.data job.ino = q.content k) (hholds : s.Holds Γ job.file job.ino (q.content k))
    {s₁ : State} (hs₁ : s₁ = s.modFile job.file (fun file => { file with status := { file.status with compressing := true } })) :
    (doCompressEnd Γ env s₁ job (s₁.data job.ino) true).1.Ready refs ∧ (doCompressEnd Γ env s₁ job (s₁.data job.ino) true).1.Mirrors Γ q := by
  have hcalm : Calm none s s₁ := hs₁ ▸ calm_modFile job.file (fun _ => rfl)
  have hbooks : s₁.books = s.books.setStatus job.file { s.books.status job.file with compressing := true } := by
    rw [hs₁]
    exact books_setStatus s job.file _ _ (fun _ => ⟨rfl, rfl, rfl, rfl, rfl⟩) rfl
  have hapart₁ : s.Apart s₁ job.file (fun d => d ∈ (s.files job.file).head) := hs₁ ▸ apart_modFile (Or.inl rfl)
  have hfs : s₁.fs = s.fs := by
    rw [hs₁]
    rfl
  have hdata₁ : s₁.data job.ino = s.data job.ino := by
    rw [hs₁]
    rfl
  have hsteps : s.StepsOn (doCompressEnd Γ env s₁ job (s₁.data job.ino) true).1 job.file := by
    refine ⟨hapart₁.trans (apart_doCompressEnd _ _ _), ⟨none, (fun _ hw => nomatch hw), hcalm.effects.trans ?_⟩, ?_⟩
    · exact effects_doCompressEnd Γ env s₁ job _ true (le_of_eq (by rw [hfs]))
    · rw [books_doCompressEnd, hbooks]
      rfl
  refine hsteps.unchanged h hm hf (fun hno => ?_) (fun k' hk' => ?_)
  · rw [hk] at hno
    cases hno
  · rw [hk] at hk'
    cases hk'
    rw [doCompressEnd_eq he (by rw [hdata₁, hsize])]
    obtain ⟨s₂, hs₂⟩ : ∃ s₂, s₂ = s₁.modFile job.file (fun file => { file with status := file.status.endCompressing }) := ⟨_, rfl⟩
    have hfile : s₂.files job.file = { s.files job.file with status := (s₂.files job.file).status } := by
      rw [hs₂, hs₁]
      simp
    have hname : (s₂.files job.file).filename = (s.files job.file).filename := by rw [hfile]
    have hino₂ : s₂.fs.inoOf (s₂.files job.file).filename = some job.ino := by
      rw [hname, show s₂.fs = s.fs by rw [hs₂, ← hfs]; rfl]
      exact hino
    rw [← hs₂]
    split
    · refine ⟨job.ino, hname ▸ hino₂, hholds.carry ?_ (fun d _ => ?_) ?_ ?_⟩
      · rw [State.files_modFile, if_pos rfl]
        have halike := alike_acknowledgeCancel (s₂.files job.file)
        rw [hfile] at halike ⊢
        exact ⟨halike.compressor, halike.size, halike.type, halike.dontcompress, halike.head⟩
      · rw [hs₂, hs₁]
        exact .refl _
      · rw [State.files_modFile, if_pos rfl, filename_acknowledgeCancel]
        exact hino₂
      · rw [hs₂, hs₁]
        rfl
    · have hinstalled := doCompressInstall_holds (Γ := Γ) (s := s₂) env job (q.content k) hdedup hexact havail
        (by rw [hsize, hdata]) (hq.text k) (by rw [hfile]; exact hnil)
      rw [hname] at hinstalled
      rw [hdata₁, hdata]
      exact ⟨_, hinstalled⟩

include he hdedup hexact hdefault in
/-- `do_compress` of a raw file that nobody has open. -/
theorem doCompress_mirrors (h : s.Ready refs) (hm : s.Mirrors Γ q) (hq : q.Sound) (hf : f ∈ s.database) (hnil : (s.files f).head = [])
    (hcomp : (s.files f).compressor = none) : (doCompress Γ env s f).Ready refs ∧ (doCompress Γ env s f).Mirrors Γ q := by
  unfold doCompress
  unfold doCompressBegin
  simp only [he .open, he .fstat, he .readHeader, he .mkstemp, he .writeHeader, and_self, and_true, true_and, if_true,
    Bool.true_eq_false, or_self, if_false]
  cases hino : s.fs.inoOf (s.files f).filename with
  | none =>
    dsimp only
    have hno : q.file (s.files f).filename = none := by
      cases hk : q.file (s.files f).filename with
      | none => rfl
      | some k =>
        obtain ⟨i, hshow⟩ := hm.shown _ k hk
        rw [hshow.ino] at hino
        cases hino
    have hbooks : (directDelete s f).books = s.books := books_directDelete s f
    have hsteps : s.StepsOn (directDelete s f) f := stepsOn_modFile (fun _ => rfl) rfl (Books.Acked.status_only (f := f) (Or.inl hbooks))
    refine hsteps.unchanged h hm hf (fun _ => ⟨hino, ?_⟩) (fun k hk => ?_)
    · unfold directDelete
      rw [State.files_modFile, if_pos rfl]
    · rw [hno] at hk
      cases hk
  | some i =>
    dsimp only
    obtain ⟨k, hk⟩ : ∃ k, q.file (s.files f).filename = some k := by
      cases hk : q.file (s.files f).filename with
      | none =>
        rw [(hm.absent _ hk).1] at hino
        cases hino
      | some k => exact ⟨k, rfl⟩
    obtain ⟨i', hino', hholds⟩ := hm.holds hf hk
    rw [hino] at hino'
    cases hino'
    by_cases hsmall : (s.data i).length < Γ.minFilesizeBackground
    · rw [if_pos hsmall]
      exact ⟨h, hm⟩
    · rw [if_neg hsmall]
      rcases unpacked_cases (hholds.closed hnil).1 with ⟨hparse, hdata⟩ | ⟨m, hparse⟩
      · have hsame : (if headerSize ≤ (s.data i).length then
            s.modFile f (fun file => { file with
              compressor := (fileReadHeader Γ (s.data i) (s.files f).compressor (s.files f).size).1
              size := (fileReadHeader Γ (s.data i) (s.files f).compressor (s.files f).size).2 }) else s) = s := by
          split
          · refine State.modFile_eq_self ?_
            rw [fileReadHeader_of_parse_none hparse, hcomp, ite_self, ← hcomp]
          · rfl
        rw [hsame, if_neg (fun hboth => hboth.2 hcomp)]
        cases hchoose : chooseCompressor Γ (s.files f).filename with
        | none => exact ⟨h, hm⟩
        | some m =>
          dsimp only
          have havail : m.Available Γ := chooseCompressor_eq hchoose ▸ hdefault
          exact doCompressEnd_mirrors he hdedup
            { file := f, ino := i, compressor := m, size := (s.data i).length, attr := (s.fs.inodes i).attr }
            (hexact m) havail h hm hq hf hnil hk hino rfl hdata hholds rfl
      · have hlong : headerSize ≤ (s.data i).length := by
          by_contra hshort
          unfold parse at hparse
          rw [if_pos (Nat.lt_of_not_le hshort)] at hparse
          cases hparse
        rw [if_pos hlong, fileReadHeader_of_parse hparse]
        have hfile : (s.modFile f (fun file => { file with compressor := some m, size := ((q.content k).length : Int) })).files f =
            { s.files f with compressor := some m, size := ((q.content k).length : Int) } := by
          rw [State.files_modFile, if_pos rfl]
        rw [if_pos ⟨hlong, by rw [hfile]; exact Option.some_ne_none m⟩]
        dsimp only
        have hbooks : (s.modFile f (fun file => { file with compressor := some m, size := ((q.content k).length : Int) })).books = s.books :=
          books_modFile f (fun _ => ⟨rfl, rfl, rfl, rfl, rfl, rfl⟩)
        have hsteps : s.StepsOn (s.modFile f (fun file => { file with compressor := some m, size := ((q.content k).length : Int) })) f :=
          stepsOn_modFile (fun _ => rfl) rfl (Books.Acked.status_only (f := f) (Or.inl hbooks))
        refine hsteps.unchanged h hm hf (fun hno => ?_) (fun k' hk' => ?_)
        · rw [hk] at hno
          cases hno
        · rw [hk] at hk'
          cases hk'
          refine ⟨i, hino, hholds.setSize (fun _ _ => ?_) (fun hne => absurd hnil hne)⟩
          rw [if_neg (Option.some_ne_none m)]

theorem State.Mirrors.assert (hm : s.Mirrors Γ q) (h : s.Ready refs) (c : Bool) : s.Unseen Γ (s.assert Γ c) q refs := by
  rcases s.assert_eq Γ c with e | e
  · rw [e]
    exact ⟨h, hm, rfl, rfl, rfl, Nat.le_refl _, fun _ _ => rfl⟩
  · rw [e]
    exact hm.unseen h h.tidy rfl (fun _ => .refl _) rfl rfl rfl (fun _ hg => hg) (fun _ hg hout => absurd hg hout)

include he hdedup hexact hdefault in
/-- The background thread works on the next entry of the queue. -/
theorem threadCompress_mirrors (h : s.Ready refs) (hm : s.Mirrors Γ q) (hq : q.Sound) :
    (threadCompress Γ env s).Ready refs ∧ (threadCompress Γ env s).Mirrors Γ q := by
  unfold threadCompress
  cases hcomp : s.comp with
  | nil =>
    rw [show compDequeue s = none by unfold compDequeue; rw [hcomp]]
    exact ⟨h, hm⟩
  | cons entry rest =>
    have hdequeue : compDequeue s = some ({ s with comp := rest, compEntries := s.compEntries - 1 }, entry) := by
      unfold compDequeue
      rw [hcomp]
    rw [hdequeue]
    dsimp only
    have hf : entry.file ∈ s.database := h.tidy.queued_mem (b := s.books) hcomp
    have hkind : entry.isDedup = false := h.tidy.queue entry (by rw [show s.books.comp = s.comp from rfl, hcomp]; exact List.mem_cons_self)
    have htaken : s.Unseen Γ ({ s with comp := rest, compEntries := s.compEntries - 1 } : State) q (withRef refs entry.file) :=
      hm.unseen h (h.tidy.dequeue (b := s.books) hcomp (withRef_self refs _) (fun g hg => withRef_of_ne refs hg)) rfl (fun _ => .refl _)
        rfl rfl rfl (fun _ hg => hg) (fun _ hg hout => absurd hg hout)
    rw [hkind, if_neg Bool.false_ne_true]
    generalize hs₁ : ({ s with comp := rest, compEntries := s.compEntries - 1 } : State).assert Γ _ = s₁
    have hchecked : s.Unseen Γ s₁ q (withRef refs entry.file) := by
      rw [← hs₁]
      exact htaken.trans (htaken.mirrors.assert htaken.ready _)
    have hf₁ : entry.file ∈ s₁.database := hchecked.ready.mem_of_ref
    have hdone : (if compressNow Γ (s₁.files entry.file) then doCompress Γ env s₁ entry.file else s₁).Ready (withRef refs entry.file) ∧
        (if compressNow Γ (s₁.files entry.file) then doCompress Γ env s₁ entry.file else s₁).Mirrors Γ q := by
      split
      · rename_i hnow
        unfold compressNow at hnow
        simp only [Bool.and_eq_true, decide_eq_true_eq, Option.isNone_iff_eq_none] at hnow
        obtain ⟨⟨⟨hacc, -⟩, hraw⟩, -⟩ := hnow
        have hnil : (s₁.files entry.file).head = [] :=
          hchecked.ready.tidy.balanced.head_eq_nil hacc (by rw [withRef_self]; omega)
        exact doCompress_mirrors he hdedup hexact hdefault hchecked.ready hchecked.mirrors hq hf₁ hnil hraw
      · exact ⟨hchecked.ready, hchecked.mirrors⟩
    unfold compFinish
    rw [if_neg Bool.false_ne_true, discard_off hdedup]
    have hback := hdone.2.uncount hdone.1
    exact ⟨hback.ready, hback.mirrors⟩

end Requests

end FuseCompress
