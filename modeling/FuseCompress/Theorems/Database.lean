import FuseCompress.Lemmas.EntryLocks

/-!
# One entry for each path, and no entry freed in use

Two users of a path meet at one entry as long as no purge forces out an entry in use; the handler of SIGTERM forces out every
entry. An entry that a thread waits for is not freed as long as a purge that finds it unused queues it again; the thread is not
counted, so a purge between the end of the background pass and its waking frees the entry when it is deleted by then, or when the
disk is full.
-/

namespace FuseCompress

/-- There is one entry for each path: no name is listed twice, the count of entries is right but while a thread that holds
`database.lock` is about to add one, and an entry with a descriptor or a pending background pass is the one `direct_open` finds
under its name. -/
structure Sys.OneEntry {T : Type} (sys : Sys T) : Prop where
  nodup : sys.shared.database.Nodup
  names : ∀ f ∈ sys.shared.database, ∀ g ∈ sys.shared.database,
    (sys.shared.files f).filename = (sys.shared.files g).filename → f = g
  entries : (∀ t todo k force, sys.clients t ≠ .purging todo (some k) force) → sys.shared.entries = sys.shared.database.length
  open_listed : ∀ d, (sys.shared.descs d).live = true → (sys.shared.descs d).file ∈ sys.shared.database
  queued_listed : ∀ c ∈ sys.shared.comp, c.file ∈ sys.shared.database
  pending_listed : ∀ f, sys.worker.refs f ≠ 0 → f ∈ sys.shared.database
  found : ∀ f ∈ sys.shared.database, findFile sys.shared (sys.shared.files f).filename = some f

section OneEntry

variable {T : Type} [Fintype T]

/-- An entry with a count is listed. -/
theorem Sys.Filed.listed {sys : Sys T} (h : sys.Filed) (hu : sys.shared.books.Unique sys.purge) {f : Nat}
    (hf : (sys.shared.files f).accesses ≠ 0) : f ∈ sys.shared.database := by
  have hlt : f < sys.shared.nextFile := by
    by_contra hn
    obtain ⟨h1, h2, h3⟩ := h.counted.balanced.fresh f (Nat.le_of_not_lt hn)
    have e := h.counted.balanced.accesses f
    rw [h1, h2, h3] at e
    exact hf e
  rcases hu.complete f hlt with hm | hfr
  · exact hm
  · exact absurd (h.filed.freed f hfr).2 hf

/-- Names that are apart are found. -/
theorem Sys.Filed.oneEntry {sys : Sys T} (h : sys.Filed) (hu : sys.shared.books.Unique sys.purge) : sys.OneEntry := by
  have hacc := h.counted.balanced.accesses
  have hpos : ∀ f, 0 < ((sys.shared.books.head f).length + sys.shared.books.queued f + sys.refs f : Nat) →
      f ∈ sys.shared.database := by
    intro f hf
    refine h.listed hu ?_
    change sys.shared.books.accesses f ≠ 0
    rw [hacc f]
    omega
  refine ⟨h.filed.nodup, hu.names, fun hno => ?_, fun d hd => ?_, fun c hc => ?_, fun f hf => ?_, fun f hf => ?_⟩
  · have hnone : sys.purge.bind Purge.caller = none := by
      cases hp : sys.purge with
      | none => rfl
      | some p =>
        unfold Sys.purge at hp
        rw [Option.bind_eq_some_iff] at hp
        obtain ⟨t, _, hp⟩ := hp
        have hpc := Pc.purge_eq_some hp
        cases hk : p.caller with
        | none => exact hk
        | some k =>
          rw [hk] at hpc
          exact absurd hpc (hno t _ _ _)
    have e := hu.entries
    rw [hnone] at e
    exact e.trans (add_zero _)
  · refine hpos _ ?_
    have hm : d ∈ sys.shared.books.head (sys.shared.descs d).file := (h.counted.balanced.mem_head _ d).mpr ⟨hd, rfl⟩
    have := List.length_pos_of_mem hm
    omega
  · refine hpos _ ?_
    have hq : 0 < sys.shared.books.queued c.file := List.countP_pos_iff.mpr ⟨c, hc, decide_eq_true rfl⟩
    omega
  · refine hpos f ?_
    unfold Sys.refs
    omega
  · cases hfind : findFile sys.shared (sys.shared.files f).filename with
    | none =>
      have hno := List.find?_eq_none.mp hfind f hf
      exact absurd (decide_eq_true rfl) hno
    | some g =>
      have hname : (sys.shared.files g).filename = (sys.shared.files f).filename := by
        simpa using List.find?_some hfind
      rw [hu.names g (List.mem_of_find?_eq_some hfind) f hf hname]

end OneEntry

/-- In every state of a run in which no purge forces out an entry in use, and no rename moves a descriptor under a request, there
is one entry for each path. -/
theorem one_entry_per_path {T : Type} [Fintype T] [DecidableEq T] {Γ : Config} {fs : Backing} {ls : List (Label T)} {sys : Sys T}
    (h : Run (Sys.step Γ) (fun sys l => (sys.Promised l ∧ sys.Unmoved Γ l) ∧ sys.Unforced l) (Sys.mounted fs) ls sys) :
    sys.OneEntry := by
  have hinv : sys.Filed ∧ sys.shared.books.Unique sys.purge := by
    refine h.invariant (I := fun sys => sys.Filed ∧ sys.shared.books.Unique sys.purge) ?_ ⟨Sys.filed_mounted fs, ?_⟩
    · rintro sys l sys' ⟨hf, hu⟩ ⟨hok, hforce⟩ hs
      exact ⟨hf.step hok hs, hf.step_unique hu hforce hs⟩
    · exact ⟨fun f hf => (by cases hf), fun f hf => absurd hf (Nat.not_lt_zero f), rfl, fun k hk => (by cases hk)⟩
  exact hinv.1.oneEntry hinv.2

/-- A file is made, opened and closed, and SIGTERM comes after that. -/
def sigtermIdle : List (Label (Fin 1)) :=
  [.request 0 (.mknod ['a'] 0o100644 0 0), .client 0 .fine, .request 0 (.open ['a'] true), .client 0 .fine,
   .request 0 (.desc 0 .release), .client 0 .fine, .request 0 .sigterm, .client 0 .fine, .client 0 .fine, .client 0 .fine]

theorem one_entry_per_path_sigtermIdle : ∃ sys : Sys (Fin 1),
    Run (Sys.step .plain) (fun sys l => (sys.Promised l ∧ sys.Unmoved .plain l) ∧ sys.Unforced l) (Sys.mounted .empty) sigtermIdle
      sys ∧ sys.OneEntry := by
  obtain ⟨sys, h, _⟩ := Run.exists_of_executeIf (show (executeIf (Sys.step .plain)
    (fun sys l => (sys.Promised l ∧ sys.Unmoved .plain l) ∧ sys.Unforced l) (Sys.mounted .empty) sigtermIdle).any
      (fun _ => true) = true by decide +kernel)
  exact ⟨sys, h, one_entry_per_path h⟩

/-- SIGTERM comes while a file is open. -/
def sigtermOpen : List (Label (Fin 1)) :=
  [.request 0 (.mknod ['a'] 0o100644 0 0), .client 0 .fine, .request 0 (.open ['a'] true), .client 0 .fine,
   .request 0 .sigterm, .client 0 .fine, .client 0 .fine, .client 0 .fine]

/-- The entry of the open descriptor is no longer listed. -/
theorem sigtermOpen_not_oneEntry : ¬∀ (ls : List (Label (Fin 1))) (sys : Sys (Fin 1)),
    Run (Sys.step .plain) Sys.Promised (Sys.mounted .empty) ls sys → sys.OneEntry := by
  intro h
  obtain ⟨sys, hrun, hbad⟩ := Run.exists_of_executeIf (show (executeIf (Sys.step .plain) Sys.Promised
    (Sys.mounted .empty : Sys (Fin 1)) sigtermOpen).any
      (fun sys => (sys.shared.descs 0).live && decide ((sys.shared.descs 0).file ∉ sys.shared.database)) = true by decide +kernel)
  rw [Bool.and_eq_true, decide_eq_true_eq] at hbad
  exact hbad.2 ((h _ sys hrun).open_listed 0 hbad.1)

/-! ## Freeing -/

/-- Nobody relies on an entry that has been freed: it is not listed, no thread waits for it, works on a descriptor of it, has counted it
or keeps its lock, and it has no descriptor and no pending background pass. -/
def Sys.FreedUnused {T : Type} (sys : Sys T) : Prop :=
  ∀ f, sys.shared.freed f = true → f ∉ sys.shared.database ∧
    (∀ t, (sys.clients t).waitsFor ≠ some f ∧ (sys.clients t).onFile ≠ some f ∧ (sys.clients t).refs f = 0 ∧
      (sys.clients t).holds ≠ some f) ∧
    (sys.shared.files f).head = [] ∧ (∀ c ∈ sys.shared.comp, c.file ≠ f) ∧ sys.worker.refs f = 0

theorem Sys.Filed.freedUnused {T : Type} [Fintype T] {sys : Sys T} (h : sys.Filed) (hw : sys.Waitable) (hl : sys.Locking) :
    sys.FreedUnused := by
  intro f hf
  have hcount : sys.shared.books.accesses f ≤ 0 := le_of_eq (h.filed.freed f hf).2
  obtain ⟨hhead, hqueued, hrefs⟩ := h.counted.balanced.unused hcount
  unfold Sys.refs at hrefs
  have hclients : ∀ t, (sys.clients t).refs f = 0 := by
    intro t
    refine Finset.sum_eq_zero_iff.mp (Nat.eq_zero_of_add_eq_zero_left hrefs) t (Finset.mem_univ t)
  refine ⟨fun hm => ?_, fun t => ⟨fun e => ?_, fun e => ?_, hclients t, fun e => ?_⟩, hhead, fun c hc e => ?_,
    Nat.eq_zero_of_add_eq_zero_right hrefs⟩
  · have hal := h.filed.alive f hm
    have hf' : sys.shared.books.freed f = true := hf
    rw [hf'] at hal
    cases hal
  · rw [hw t f e] at hf
    cases hf
  · obtain ⟨⟨d, g⟩, hd, rfl⟩ := Option.map_eq_some_iff.mp e
    have hm := (h.counted.balanced.mem_head g d).mpr (h.counted.desc t d g hd)
    rw [hhead] at hm
    cases hm
  · have hal := (hl.kept t f e).1
    have hf' : sys.shared.books.freed f = true := hf
    rw [hf'] at hal
    cases hal
  · have hpos : 0 < sys.shared.books.queued f := List.countP_pos_iff.mpr ⟨c, hc, decide_eq_true e⟩
    omega

/-- In every state of a run in which a purge queues again what it finds unused and waited for, and no rename moves a descriptor
under a request, nobody relies on an entry that has been freed. -/
theorem freed_unused {T : Type} [Fintype T] [DecidableEq T] {Γ : Config} {fs : Backing} {ls : List (Label T)} {sys : Sys T}
    (h : Run (Sys.step Γ) (fun sys l => (sys.Promised l ∧ sys.Unmoved Γ l) ∧ sys.Requeues Γ l) (Sys.mounted fs) ls sys) :
    sys.FreedUnused := by
  have hinv : sys.Filed ∧ sys.Waitable ∧ sys.Locking := by
    refine h.invariant (I := fun sys => sys.Filed ∧ sys.Waitable ∧ sys.Locking) ?_
      ⟨Sys.filed_mounted fs, fun t f hf => (by cases hf), Sys.locking_mounted fs⟩
    rintro sys l sys' ⟨hf, hw, hl⟩ ⟨hok, hreq⟩ hs
    exact ⟨hf.step hok hs, hf.step_waitable hw hreq hs, hf.step_locking hl hs⟩
  exact hinv.1.freedUnused hinv.2.1 hinv.2.2

/-- A backing directory with one file of one byte. -/
def Backing.oneFile : Backing :=
  { Backing.empty with
    names := [(['a'], .reg 0)]
    inodes := fun _ => ⟨[120], { mode := 0o100644, uid := 0, gid := 0, atime := 0, mtime := 0 }⟩
    next := 1 }

/-- The same mount on a disk where every file is compressed, however small. -/
def Config.anySize : Config := { Config.plain with minFilesizeBackground := 0 }

/-- The disk is full. -/
def Env.full : Env := { Env.fine with avail := 0, bfree := 0 }

/-- A file is queued for compression, and removed while it is being compressed: the remover waits, the compression is cancelled,
and a purge comes before the remover wakes. `env` is what `statvfs` tells the purge. -/
def purgeBeforeWake {T : Type} (t u : T) (env : Env) : List (Label T) :=
  [.request t (.getattr ['a']), .client t .fine, .client t .fine,
   .request t .purge, .client t .fine, .client t .fine, .client t .fine,
   .worker .fine, .worker .fine, .request u (.unlink ['a']), .client u .fine,
   .worker .fine, .worker .fine, .worker .fine,
   .request t .purge, .client t .fine, .client t env, .client t .fine]

theorem freed_unused_purgeBeforeWake : ∃ sys : Sys (Fin 2),
    Run (Sys.step .anySize) (fun sys l => (sys.Promised l ∧ sys.Unmoved .anySize l) ∧ sys.Requeues .anySize l)
      (Sys.mounted .oneFile) (purgeBeforeWake 0 1 .fine) sys ∧ sys.FreedUnused := by
  obtain ⟨sys, h, _⟩ := Run.exists_of_executeIf (show (executeIf (Sys.step .anySize)
    (fun sys l => (sys.Promised l ∧ sys.Unmoved .anySize l) ∧ sys.Requeues .anySize l) (Sys.mounted .oneFile : Sys (Fin 2))
      (purgeBeforeWake 0 1 .fine)).any (fun _ => true) = true by decide +kernel)
  exact ⟨sys, h, freed_unused h⟩

/-- With the disk full the entry is not queued again but freed, and the remover goes on to take its lock. -/
theorem purgeBeforeWake_not_freedUnused : ¬∀ (ls : List (Label (Fin 2))) (sys : Sys (Fin 2)),
    Run (Sys.step .anySize) Sys.Promised (Sys.mounted .oneFile) ls sys → sys.FreedUnused := by
  intro h
  obtain ⟨sys, hrun, hbad⟩ := Run.exists_of_executeIf (show (executeIf (Sys.step .anySize) Sys.Promised
    (Sys.mounted .oneFile : Sys (Fin 2)) (purgeBeforeWake 0 1 .full)).any
      (fun sys => sys.shared.freed 0 && decide ((sys.clients 1).waitsFor = some 0)) = true by decide +kernel)
  rw [Bool.and_eq_true, decide_eq_true_eq] at hbad
  exact ((h _ sys hrun 0 hbad.1).2.1 1).1 hbad.2

end FuseCompress
