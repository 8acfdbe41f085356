import FuseCompress.Lemmas.Database

/-!
# The locks that are kept between two steps

`open` keeps the lock of its entry between `do_undedup` and `file_open`, and `rename` that of its first entry while it waits for the
second. Each such lock has one thread that keeps it, and the entry is there until the lock is given back.
-/

namespace FuseCompress

/-! ## One step in the books -/

section Step

variable {b b' : Books} {f : Nat} {k : Caller} {pc pc' : Pc} {free : Bool} {wants : Nat → Prop}

/-- What a step of a thread does to the locks that are kept: it gives back its own, and takes at most one, which nobody has. An entry
whose lock is kept is not freed. -/
structure Relocks (b : Books) (pc : Pc) (b' : Books) (pc' : Pc) : Prop where
  locked : ∀ g, b'.locked g = true ↔ (b.locked g = true ∧ pc.holds ≠ some g) ∨ pc'.holds = some g
  taken : ∀ g, pc'.holds = some g → b.locked g = false ∧ b'.freed g = false
  freed : ∀ g, b.locked g = true → b'.freed g = b.freed g

theorem Pc.Free.holds (h : pc.Free) : pc.holds = none := by
  cases pc <;> first | rfl | exact h.elim

theorem Pc.holds_of_desc {r : Nat × Nat} (h : pc.desc = some r) : pc.holds = none := by
  cases pc <;> first | rfl | cases h

/-- A step that neither takes nor gives back a lock that is kept. -/
theorem Relocks.same (hpc : pc.holds = none) (hpc' : pc'.holds = none) (hl : b'.locked = b.locked)
    (hf : ∀ g, b.locked g = true → b'.freed g = b.freed g) : Relocks b pc b' pc' where
  locked g := by
    rw [hl, hpc, hpc']
    simp
  taken g hg := by
    rw [hpc'] at hg
    cases hg
  freed := hf

/-- A step that takes the lock of an entry and keeps it. -/
theorem Relocks.lock (hpc : pc.holds = none) (hpc' : pc'.holds = some f) (hf : b.Lockable f) : Relocks b pc (b.lock f) pc' where
  locked g := by
    change Function.update b.locked f true g = true ↔ _
    rw [hpc, hpc', Function.update_apply]
    by_cases e : g = f
    · simp [e]
    · simp [e, Ne.symm e]
  taken g hg := by
    rw [hpc'] at hg
    cases hg
    exact ⟨hf.2, hf.1⟩
  freed _ _ := rfl

/-- A step that gives back the lock it has kept. -/
theorem Relocks.unlock (hpc : pc.holds = some f) (hpc' : pc'.holds = none) (hl : b'.locked = (b.unlock f).locked)
    (hf : b'.freed = b.freed) : Relocks b pc b' pc' where
  locked g := by
    rw [hl, hpc, hpc']
    change Function.update b.locked f false g = true ↔ _
    rw [Function.update_apply]
    by_cases e : g = f
    · simp [e]
    · simp [e, Ne.symm e]
  taken g hg := by
    rw [hpc'] at hg
    cases hg
  freed g _ := congrFun hf g

theorem Books.Acked.locked (h : b.Acked f b') : b'.locked = b.locked ∧ b'.freed = b.freed := by
  rcases h with rfl | ⟨_, rfl⟩ <;> exact ⟨rfl, rfl⟩

/-- The caller of `direct_open`, with an entry whose lock it has got. -/
theorem Body.relocks (hb : Body b f k b' pc') (hpc : pc.holds = none) (hf : b.Lockable f) : Relocks b pc b' pc' := by
  cases hb with
  | done _ ha _ hpc' => exact .same hpc hpc'.holds ha.locked.1 (fun g _ => congrFun ha.locked.2 g)
  | failed => exact .same hpc rfl rfl (fun _ _ => rfl)
  | opened => exact .same hpc rfl rfl (fun _ _ => rfl)
  | undeduped => exact .lock hpc rfl hf
  | renameFrom => exact .same hpc rfl rfl (fun _ _ => rfl)
  | renameTo => exact .same hpc rfl rfl (fun _ _ => rfl)

theorem Enter.relocks (he : Enter b f k b' pc') (hpc : pc.holds = none) (hf : b.Lockable f) : Relocks b pc b' pc' := by
  cases he with
  | wait => exact .same hpc rfl rfl (fun _ _ => rfl)
  | body _ hb => exact hb.relocks hpc hf

/-- A caller with a new entry. Nothing is known of the lock of an entry that has not been made. -/
theorem Body.relocks_new {c : Books} (hb : Body (c.newFile k.filename) c.nextFile k b' pc') (hpc : pc.holds = none)
    (hc : c.locked = b.locked ∧ c.freed = b.freed ∧ c.nextFile = b.nextFile) (hl : b.locked b.nextFile = false)
    (hf : b.freed b.nextFile = false) : Relocks b pc b' pc' := by
  obtain ⟨h1, h2, h3⟩ := hc
  have hlocked : (c.newFile k.filename).locked = b.locked := by
    change Function.update c.locked c.nextFile false = b.locked
    rw [h1, h3, ← hl, Function.update_eq_self]
  have hfreed : (c.newFile k.filename).freed = b.freed := h2
  have hlockable : (c.newFile k.filename).Lockable c.nextFile := by
    unfold Books.Lockable
    rw [hlocked, hfreed, h3]
    exact ⟨hf, hl⟩
  have h : Relocks (c.newFile k.filename) pc b' pc' := hb.relocks hpc hlockable
  refine ⟨fun g => ?_, fun g hg => ?_, fun g hg => ?_⟩
  · rw [← hlocked]
    exact h.locked g
  · rw [← hlocked]
    exact h.taken g hg
  · rw [← hfreed]
    exact h.freed g (hlocked ▸ hg)

/-- Every step of a thread is one of these. -/
theorem ClientStep.relocks (hs : ClientStep free wants b pc b' pc') (hl : b.locked b.nextFile = false)
    (hf : b.freed b.nextFile = false) : Relocks b pc b' pc' := by
  cases hs with
  | quiet hpc hpc' => exact .same hpc.holds hpc'.holds rfl (fun _ _ => rfl)
  | purgeStart => exact .same rfl rfl rfl (fun _ _ => rfl)
  | found _ _ _ hlock he => exact he.relocks rfl hlock
  | overfull => exact .same rfl rfl rfl (fun _ _ => rfl)
  | new _ _ hb => exact hb.relocks_new (c := { b with entries := b.entries + 1 }) rfl ⟨rfl, rfl, rfl⟩ hl hf
  | @purgeUsed f todo k force _ _ => cases force <;> exact .same rfl rfl rfl (fun _ _ => rfl)
  | purgeQueue => exact .same rfl rfl rfl (fun _ _ => rfl)
  | @purgeFree f todo k force hlock _ _ =>
    refine .same rfl rfl rfl (fun g hg => Function.update_of_ne ?_ _ _)
    rintro rfl
    exact Bool.false_ne_true (hlock.2.symm.trans hg)
  | purgeEnd => exact .same rfl rfl rfl (fun _ _ => rfl)
  | purgeNew hb => exact hb.relocks_new rfl ⟨rfl, rfl, rfl⟩ hl hf
  | wake _ hlock he => exact he.relocks rfl hlock
  | openFailed => exact .unlock rfl rfl rfl rfl
  | opened => exact .unlock rfl rfl rfl rfl
  | renameLock hlock => exact .lock rfl rfl hlock
  | renameFailed => exact .unlock rfl rfl rfl rfl
  | @renamed src dst x y _ _ _ =>
    have hdb := Books.sameDb_rename (((b.unlock x).count x (-1)).count y (-1)) x y
    exact .unlock rfl rfl rfl hdb.2.2.1
  | locked _ _ ha hpc =>
    refine .same rfl ?_ ha.locked.1 (fun g _ => congrFun ha.locked.2 g)
    rcases hpc with hpc | ⟨hpc, _⟩
    · exact hpc.holds
    · exact Pc.holds_of_desc hpc
  | released => exact .same rfl rfl rfl (fun _ _ => rfl)
  | unlocked hd _ hpc =>
    refine .same (Pc.holds_of_desc hd) ?_ rfl (fun _ _ => rfl)
    rcases hpc with hpc | ⟨hpc, _⟩
    · exact hpc.holds
    · exact Pc.holds_of_desc hpc

theorem WorkerStep.locked {w w' : WorkerPc} (hs : WorkerStep b w b' w') : b'.locked = b.locked ∧ b'.freed = b.freed := by
  cases hs <;> exact ⟨rfl, rfl⟩

end Step

/-! ## The whole system -/

section System

variable {T : Type} {Γ : Config} {sys sys' : Sys T} {l : Label T}

/-- Every lock that is kept has one thread that keeps it, and its entry has not been freed. -/
structure Sys.Locking (sys : Sys T) : Prop where
  kept : ∀ t f, (sys.clients t).holds = some f → sys.shared.books.Kept f
  sole : ∀ t u f, (sys.clients t).holds = some f → (sys.clients u).holds = some f → t = u
  held : ∀ f, (sys.shared.files f).locked = true → ∃ t, (sys.clients t).holds = some f

/-- The thread is in `rename`, with the lock of its first entry. -/
def Pc.inRename : Pc → Bool
  | .renameSecond _ _ _ _ => true
  | _ => false

/-- At most one request to rename has locked its first entry. -/
def Sys.OneRename (sys : Sys T) : Prop := ∀ t u, (sys.clients t).inRename = true → (sys.clients u).inRename = true → t = u

instance [Fintype T] [DecidableEq T] (sys : Sys T) : Decidable sys.OneRename :=
  inferInstanceAs (Decidable (∀ t u, (sys.clients t).inRename = true → (sys.clients u).inRename = true → t = u))

theorem Sys.locking_mounted (fs : Backing) : (Sys.mounted fs : Sys T).Locking where
  kept t f hf := by cases hf
  sole t u f hf := by cases hf
  held f hf := by cases hf

theorem takeRequest_holds (Γ : Config) (s : State) (r : Request) : (takeRequest Γ s r).holds = none := by
  cases r <;> rfl

/-- Who keeps the lock of an entry knows the entry. -/
theorem Pc.Known.holds_lt {b : Books} {pc : Pc} {f : Nat} (h : pc.Known b) (hf : pc.holds = some f) : f < b.nextFile := by
  cases pc with
  | undeduped full g =>
    cases hf
    exact h.1
  | renameSecond src dst x y =>
    cases hf
    exact h.2.1.1
  | _ => cases hf

/-- The lock of an entry that has not been made is not kept. -/
theorem Sys.Locking.locked_fresh (h : sys.Locking) (hknown : ∀ t, (sys.clients t).Known sys.shared.books) :
    sys.shared.books.locked sys.shared.books.nextFile = false := by
  by_contra hn
  obtain ⟨t, ht⟩ := h.held _ (Bool.not_eq_false _ ▸ hn)
  exact Nat.lt_irrefl _ ((hknown t).holds_lt ht)

/-- A step of a thread keeps every lock with one thread. -/
theorem Sys.Locking.client [DecidableEq T] {t : T} {s : State} {pc : Pc} (h : sys.Locking)
    (hs : Relocks sys.shared.books (sys.clients t) s.books pc) : (sys.advance t s pc).Locking := by
  have hself : (sys.advance t s pc).clients t = pc := Function.update_self _ _ _
  have hother : ∀ u, u ≠ t → (sys.advance t s pc).clients u = sys.clients u := fun u e => Function.update_of_ne e _ _
  have hkept : ∀ u f, u ≠ t → (sys.clients u).holds = some f → s.books.Kept f ∧ pc.holds ≠ some f := by
    intro u f hu hf
    obtain ⟨hfreed, hlocked⟩ := h.kept u f hf
    refine ⟨⟨(hs.freed f hlocked).trans hfreed, (hs.locked f).mpr (.inl ⟨hlocked, fun ht => hu (h.sole u t f hf ht)⟩)⟩, fun hpc => ?_⟩
    exact Bool.false_ne_true ((hs.taken f hpc).1.symm.trans hlocked)
  refine ⟨fun u f hf => ?_, fun u v f hu hv => ?_, fun f hf => ?_⟩
  · by_cases e : u = t
    · subst e
      rw [hself] at hf
      exact ⟨(hs.taken f hf).2, (hs.locked f).mpr (.inr hf)⟩
    · rw [hother u e] at hf
      exact (hkept u f e hf).1
  · by_cases e : u = t
    · subst e
      by_cases e' : v = u
      · exact e'.symm
      · rw [hself] at hu
        rw [hother v e'] at hv
        exact absurd hu (hkept v f e' hv).2
    · rw [hother u e] at hu
      by_cases e' : v = t
      · subst e'
        rw [hself] at hv
        exact absurd hv (hkept u f e hu).2
      · rw [hother v e'] at hv
        exact h.sole u v f hu hv
  · rcases (hs.locked f).mp hf with ⟨hlocked, hne⟩ | hpc
    · obtain ⟨u, hu⟩ := h.held f hlocked
      have e : u ≠ t := by
        rintro rfl
        exact hne hu
      exact ⟨u, (congrArg Pc.holds (hother u e)).trans hu⟩
    · exact ⟨t, (congrArg Pc.holds hself).trans hpc⟩

/-- Every step keeps every lock with one thread. -/
theorem Sys.Filed.step_locking [Fintype T] [DecidableEq T] (h : sys.Filed) (hl : sys.Locking) (hs : sys.step Γ l = some sys') :
    sys'.Locking := by
  rcases Sys.step_cases hs with ⟨t, r, last, rfl, hidle, rfl⟩ | ⟨t, env, s, pc, rfl, -, hc, rfl⟩ | ⟨env, s, w, rfl, -, hw, rfl⟩ |
    ⟨rfl, rfl⟩
  · exact hl.client (.same (by rw [hidle]; rfl) (takeRequest_holds Γ sys.shared r) rfl (fun _ _ => rfl))
  · have hfreed : sys.shared.books.freed sys.shared.books.nextFile = false := by
      by_contra hn
      exact Nat.lt_irrefl _ (h.filed.freed _ (Bool.not_eq_false _ ▸ hn)).1
    exact hl.client (hc.relocks (hl.locked_fresh h.counted.known) hfreed)
  · obtain ⟨hlocked, hfreed⟩ := hw.locked
    refine ⟨fun t f hf => ?_, hl.sole, fun f hf => hl.held f ((congrFun hlocked f).symm.trans hf)⟩
    obtain ⟨h1, h2⟩ := hl.kept t f hf
    exact ⟨(congrFun hfreed f).trans h1, (congrFun hlocked f).trans h2⟩
  · exact ⟨hl.kept, hl.sole, hl.held⟩

end System

end FuseCompress
