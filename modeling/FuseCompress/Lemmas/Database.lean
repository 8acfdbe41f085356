import FuseCompress.Lemmas.Accounting

/-!
# The database and the entries that have been freed

What a step does to the list of entries, as a small transition system of its own (`DbStep`): look an entry up, add one, or purge
one entry after the other while `database.lock` is held. Two invariants follow: what has been freed is used by nobody who is
counted (`Sys.Filed`), and there is one entry for each name (`Sys.Unique`).
-/

namespace FuseCompress

/-! ## Steps of the database -/

/-- A purge under way: the entries to go, who waits for its end, and whether it forces entries out. -/
structure Purge where
  todo : List Nat
  caller : Option Caller
  force : Bool

/-- The purge a thread is in. -/
def Pc.purge : Pc → Option Purge
  | .purging todo k force => some ⟨todo, k, force⟩
  | _ => none

/-- The entry a purge has come to. -/
def Pc.examines : Pc → Option Nat
  | .purging (f :: _) _ _ => some f
  | _ => none

/-- The entry that a purge has come to and is told to force out. -/
def Pc.forcesOut : Pc → Option Nat
  | .purging (f :: _) _ true => some f
  | _ => none

theorem Pc.locksDb_eq (pc : Pc) : pc.locksDb = pc.purge.isSome := by
  cases pc <;> rfl

theorem Pc.purge_eq_some {pc : Pc} {p : Purge} (h : pc.purge = some p) : pc = .purging p.todo p.caller p.force := by
  cases pc <;> cases h
  rfl

theorem Pc.Free.purge {pc : Pc} (h : pc.Free) : pc.purge = none := by
  cases pc <;> first | rfl | exact h.elim

theorem Pc.purge_of_desc {pc : Pc} {r : Nat × Nat} (h : pc.desc = some r) : pc.purge = none := by
  cases pc <;> first | rfl | cases h

theorem Pc.Free.waitsFor {pc : Pc} (h : pc.Free) : pc.waitsFor = none := by
  cases pc <;> first | rfl | exact h.elim

theorem Pc.waitsFor_of_desc {pc : Pc} {r : Nat × Nat} (h : pc.desc = some r) : pc.waitsFor = none := by
  cases pc <;> first | rfl | cases h

/-- A step of the database. `free` says that no other thread holds its lock, `wants` which entries a purge queues again. -/
inductive DbStep (free : Bool) (wants : Nat → Prop) (b : Books) : Option Purge → Books → Option Purge → Prop
  | keep {b' : Books} : b.SameDb b' → DbStep free wants b none b' none
  | start {force : Bool} : free = true → DbStep free wants b none b (some ⟨b.database, none, force⟩)
  | overfull {k : Caller} : free = true → (∀ f ∈ b.database, b.filename f ≠ k.filename) →
      DbStep free wants b none { b with entries := b.entries + 1 } (some ⟨b.database, some k, false⟩)
  | spare {b' : Books} {f : Nat} {todo : List Nat} {k : Option Caller} {force : Bool} : b.SameDb b' →
      DbStep free wants b (some ⟨f :: todo, k, force⟩) b' (some ⟨todo, k, force⟩)
  | detach {f : Nat} {todo : List Nat} {k : Option Caller} : b.accesses f ≠ 0 →
      DbStep free wants b (some ⟨f :: todo, k, true⟩) (b.detach f) (some ⟨todo, k, true⟩)
  | free {f : Nat} {todo : List Nat} {k : Option Caller} {force : Bool} : b.accesses f = 0 → ¬wants f →
      DbStep free wants b (some ⟨f :: todo, k, force⟩) ((b.detach f).free f) (some ⟨todo, k, force⟩)
  | finish {force : Bool} : DbStep free wants b (some ⟨[], none, force⟩) b none
  | add {b' : Books} {k : Caller} {p : Option Purge} : (p = none ∧ free = true ∧ (∀ f ∈ b.database, b.filename f ≠ k.filename) ∧
        (({ b with entries := b.entries + 1 } : Books).newFile k.filename).SameDb b') ∨
      ((∃ force, p = some ⟨[], some k, force⟩) ∧ (b.newFile k.filename).SameDb b') → DbStep free wants b p b' none

section Step

variable {free : Bool} {wants : Nat → Prop} {b b' : Books} {f : Nat} {k : Caller} {pc pc' : Pc}

theorem Body.purge (hb : Body b f k b' pc') : pc'.purge = none := by
  cases hb with
  | done _ _ _ hpc => exact hpc.purge
  | _ => rfl

theorem Enter.purge (he : Enter b f k b' pc') : pc'.purge = none := by
  cases he with
  | wait => rfl
  | body _ hb => exact hb.purge

/-- A step of a thread is a step of the database. -/
theorem ClientStep.db (hs : ClientStep free wants b pc b' pc') : DbStep free wants b pc.purge b' pc'.purge := by
  have keep : ∀ {b' : Books} {pc pc' : Pc}, pc.purge = none → pc'.purge = none → b.SameDb b' →
      DbStep free wants b pc.purge b' pc'.purge := by
    intro b' pc pc' h h' hb
    rw [h, h']
    exact .keep hb
  cases hs with
  | quiet hpc hpc' => exact keep hpc.purge hpc'.purge (.refl b)
  | purgeStart hf => exact .start hf
  | found _ _ _ _ he => exact keep rfl he.purge he.sameDb
  | overfull hf hno => exact .overfull hf hno
  | new hf hno hb =>
    rw [hb.purge]
    exact .add (Or.inl ⟨rfl, hf, hno, hb.sameDb⟩)
  | @purgeUsed f todo k force _ ha =>
    cases force with
    | true => exact .detach ha
    | false => exact .spare (.refl b)
  | purgeQueue => exact .spare ⟨rfl, rfl, rfl, rfl, rfl⟩
  | purgeFree _ ha hw => exact .free ha hw
  | purgeEnd => exact .finish
  | @purgeNew k force _ _ hb =>
    rw [hb.purge]
    exact .add (Or.inr ⟨⟨force, rfl⟩, hb.sameDb⟩)
  | wake _ _ he => exact keep rfl he.purge he.sameDb
  | openFailed => exact keep rfl rfl ⟨rfl, rfl, rfl, rfl, rfl⟩
  | opened => exact keep rfl rfl ⟨rfl, rfl, rfl, rfl, rfl⟩
  | renameLock => exact keep rfl rfl ⟨rfl, rfl, rfl, rfl, rfl⟩
  | renameFailed => exact keep rfl rfl ⟨rfl, rfl, rfl, rfl, rfl⟩
  | @renamed _ _ x y =>
    have hcounts : b.SameDb (((b.unlock x).count x (-1)).count y (-1)) := ⟨rfl, rfl, rfl, rfl, rfl⟩
    exact keep rfl rfl (hcounts.trans (Books.sameDb_rename _ x y))
  | locked _ _ ha hpc =>
    refine keep rfl ?_ ha.sameDb
    rcases hpc with hpc | ⟨hpc, _⟩
    · exact hpc.purge
    · exact Pc.purge_of_desc hpc
  | released => exact keep rfl rfl ⟨rfl, rfl, rfl, rfl, rfl⟩
  | unlocked hd _ hpc =>
    refine keep (Pc.purge_of_desc hd) ?_ (.refl b)
    rcases hpc with hpc | ⟨hpc, _⟩
    · exact hpc.purge
    · exact Pc.purge_of_desc hpc

/-- Whoever is in no purge and does not get the lock leaves the database alone. -/
theorem DbStep.sameDb {p' : Option Purge} (h : DbStep false wants b none b' p') : p' = none ∧ b.SameDb b' := by
  cases h with
  | keep hb => exact ⟨rfl, hb⟩
  | start h => cases h
  | overfull h => cases h
  | add h =>
    rcases h with ⟨_, h, _⟩ | ⟨⟨_, h⟩, _⟩ <;> cases h

/-! ## Entries that have been freed -/

/-- The caller leaves the counts of the other entries alone. -/
theorem Body.accesses (hb : Body b f k b' pc') {g : Nat} (hg : g ≠ f) : b'.accesses g = b.accesses g := by
  cases hb with
  | done _ ha _ _ => rcases ha with rfl | ⟨_, rfl⟩ <;> rfl
  | failed => rfl
  | opened => exact Function.update_of_ne hg _ _
  | undeduped => rfl
  | renameFrom => exact Function.update_of_ne hg _ _
  | renameTo => exact Function.update_of_ne hg _ _

theorem Enter.accesses (he : Enter b f k b' pc') {g : Nat} (hg : g ≠ f) : b'.accesses g = b.accesses g := by
  cases he with
  | wait => rfl
  | body _ hb => exact hb.accesses hg

/-- No step counts on an entry that has been freed. -/
theorem ClientStep.frozen (hs : ClientStep free wants b pc b' pc') {g : Nat} (hg : b.freed g = true) (hlt : g < b.nextFile) :
    b'.accesses g = b.accesses g := by
  have hne : ∀ {f : Nat}, b.freed f = false → g ≠ f := by
    rintro f hf rfl
    rw [hg] at hf
    cases hf
  have hnew : ∀ {c : Books} {k : Caller} {p : Filename}, c.nextFile = b.nextFile → c.accesses = b.accesses →
      Body (c.newFile p) b.nextFile k b' pc' → b'.accesses g = b.accesses g := by
    intro c k p h1 h2 hb
    rw [hb.accesses (Nat.ne_of_lt hlt)]
    change Function.update c.accesses c.nextFile 0 g = _
    rw [Function.update_of_ne (by omega), h2]
  cases hs with
  | found _ _ _ hf he => exact he.accesses (hne hf.1)
  | new _ _ hb => exact hnew (c := { b with entries := b.entries + 1 }) rfl rfl hb
  | @purgeUsed f todo k force _ _ => cases force <;> rfl
  | purgeQueue hf => exact Function.update_of_ne (hne hf.1) _ _
  | purgeNew hb => exact hnew rfl rfl hb
  | wake _ hf he => exact he.accesses (hne hf.1)
  | opened hf => exact Function.update_of_ne (hne hf.1) _ _
  | @renameFailed src dst x y hx hy _ =>
    change Function.update (Function.update b.accesses x _) y _ g = _
    rw [Function.update_of_ne (hne hy.1), Function.update_of_ne (hne hx.1)]
  | @renamed src dst x y hx hy hxy =>
    rw [Books.accesses_rename _ hxy (hne hx.1) (hne hy.1)]
    change Function.update (Function.update b.accesses x _) y _ g = _
    rw [Function.update_of_ne (hne hy.1), Function.update_of_ne (hne hx.1)]
  | locked _ _ ha _ => rcases ha with rfl | ⟨_, rfl⟩ <;> rfl
  | released hf => exact Function.update_of_ne (hne hf.1) _ _
  | _ => rfl

theorem WorkerStep.frozen {w w' : WorkerPc} (hs : WorkerStep b w b' w') {g : Nat} (hg : b.freed g = true) :
    b'.accesses g = b.accesses g := by
  have hne : ∀ {f : Nat}, b.freed f = false → g ≠ f := by
    rintro f hf rfl
    rw [hg] at hf
    cases hf
  cases hs with
  | skip hf => exact Function.update_of_ne (hne hf.1) _ _
  | compressEnd hf => exact Function.update_of_ne (hne hf.1) _ _
  | dedupEnd hf => exact Function.update_of_ne (hne hf.1) _ _
  | dedupFailed hf => exact Function.update_of_ne (hne hf.1) _ _
  | _ => rfl

/-- Who waits after a step waits for an entry that is there. -/
theorem ClientStep.waits (hs : ClientStep free wants b pc b' pc') {g : Nat} (h : pc'.waitsFor = some g) :
    b.freed g = false ∧ b'.freed = b.freed := by
  have hfree : ∀ {pc : Pc}, pc.Free → pc.waitsFor ≠ some g := by
    intro pc hpc e
    rw [hpc.waitsFor] at e
    cases e
  have hdesc : ∀ {pc : Pc} {r : Nat × Nat}, pc.desc = some r → pc.waitsFor ≠ some g := by
    intro pc r hd e
    rw [Pc.waitsFor_of_desc hd] at e
    cases e
  have hbody : ∀ {c c' : Books} {f : Nat} {k : Caller} {pc : Pc}, Body c f k c' pc → pc.waitsFor ≠ some g := by
    intro c c' f k pc hb e
    cases hb with
    | done _ _ _ hpc => exact hfree hpc e
    | _ => cases e
  have henter : ∀ {f : Nat} {k : Caller}, b.freed f = false → Enter b f k b' pc' → b.freed g = false ∧ b'.freed = b.freed := by
    intro f k hf he
    cases he with
    | wait =>
      cases h
      exact ⟨hf, rfl⟩
    | body _ hb => exact absurd h (hbody hb)
  cases hs with
  | quiet _ hpc => exact absurd h (hfree hpc)
  | found _ _ _ hf he => exact henter hf.1 he
  | new _ _ hb => exact absurd h (hbody hb)
  | purgeNew hb => exact absurd h (hbody hb)
  | wake _ hf he => exact henter hf.1 he
  | locked _ _ _ hpc =>
    rcases hpc with hpc | ⟨hpc, _⟩
    · exact absurd h (hfree hpc)
    · exact absurd h (hdesc hpc)
  | unlocked _ _ hpc =>
    rcases hpc with hpc | ⟨hpc, _⟩
    · exact absurd h (hfree hpc)
    · exact absurd h (hdesc hpc)
  | _ => cases h

end Step

/-! ## What has been freed is used by nobody -/

/-- The database lists entries that have not been freed, the purge under way has entries of the database to go, and nobody counts
on an entry that has been freed. -/
structure Books.Filed (b : Books) (p : Option Purge) : Prop where
  nodup : b.database.Nodup
  alive : ∀ f ∈ b.database, b.freed f = false
  freed : ∀ f, b.freed f = true → f < b.nextFile ∧ b.accesses f = 0
  todo : ∀ q, p = some q → q.todo.Nodup ∧ ∀ f ∈ q.todo, f ∈ b.database

/-- There is one entry for each name, none is lost, and the count of entries is right but for a new one that is announced. -/
structure Books.Unique (b : Books) (p : Option Purge) : Prop where
  names : ∀ f ∈ b.database, ∀ g ∈ b.database, b.filename f = b.filename g → f = g
  complete : ∀ f, f < b.nextFile → f ∈ b.database ∨ b.freed f = true
  entries : b.entries = b.database.length + if (p.bind Purge.caller).isSome then 1 else 0
  missing : ∀ k, p.bind Purge.caller = some k → ∀ f ∈ b.database, b.filename f ≠ k.filename

section Invariants

variable {free : Bool} {wants : Nat → Prop} {b b' : Books} {p p' : Option Purge}

theorem Books.Filed.sameDb (h : b.Filed p) (hb : b.SameDb b')
    (ha : ∀ f, b.freed f = true → f < b.nextFile → b'.accesses f = b.accesses f) : b'.Filed p := by
  obtain ⟨h1, -, h3, h4, -⟩ := hb
  refine ⟨h1 ▸ h.nodup, fun f hf => ?_, fun f hf => ?_, fun q hq => ?_⟩
  · rw [h3]
    exact h.alive f (h1 ▸ hf)
  · rw [h3] at hf
    obtain ⟨hlt, h0⟩ := h.freed f hf
    exact ⟨h4 ▸ hlt, (ha f hf hlt).trans h0⟩
  · rw [h1]
    exact h.todo q hq

/-- A step of the database that leaves alone the counts of what has been freed. -/
theorem DbStep.filed (hs : DbStep free wants b p b' p') (h : b.Filed p) (hlt : ∀ f ∈ b.database, f < b.nextFile)
    (ha : ∀ f, b.freed f = true → f < b.nextFile → b'.accesses f = b.accesses f) : b'.Filed p' := by
  cases hs with
  | keep hb => exact h.sameDb hb ha
  | start =>
    refine ⟨h.nodup, h.alive, h.freed, ?_⟩
    rintro q ⟨⟩
    exact ⟨h.nodup, fun f hf => hf⟩
  | overfull =>
    refine ⟨h.nodup, h.alive, h.freed, ?_⟩
    rintro q ⟨⟩
    exact ⟨h.nodup, fun f hf => hf⟩
  | @spare _ f todo k force hb =>
    obtain ⟨hn, hm⟩ := h.todo _ rfl
    obtain ⟨g1, g2, g3, g4⟩ := h.sameDb hb ha
    refine ⟨g1, g2, g3, ?_⟩
    rintro q ⟨⟩
    exact ⟨(List.nodup_cons.mp hn).2, fun g hg => (g4 _ rfl).2 g (List.mem_cons_of_mem _ hg)⟩
  | @detach f todo k =>
    obtain ⟨hn, hm⟩ := h.todo _ rfl
    obtain ⟨hf, hn⟩ := List.nodup_cons.mp hn
    refine ⟨h.nodup.erase f, fun g hg => h.alive g (List.mem_of_mem_erase hg), h.freed, ?_⟩
    rintro q ⟨⟩
    refine ⟨hn, fun g hg => (List.mem_erase_of_ne ?_).mpr (hm g (List.mem_cons_of_mem _ hg))⟩
    rintro rfl
    exact hf hg
  | @free f todo k force h0 =>
    obtain ⟨hn, hm⟩ := h.todo _ rfl
    obtain ⟨hf, hn⟩ := List.nodup_cons.mp hn
    refine ⟨h.nodup.erase f, fun g hg => ?_, fun g hg => ?_, ?_⟩
    · obtain ⟨hne, hg⟩ := h.nodup.mem_erase_iff.mp hg
      exact (Function.update_of_ne hne _ _).trans (h.alive g hg)
    · change Function.update b.freed f true g = true at hg
      by_cases e : g = f
      · subst e
        exact ⟨hlt g (hm g List.mem_cons_self), h0⟩
      · rw [Function.update_of_ne e] at hg
        exact h.freed g hg
    · rintro q ⟨⟩
      refine ⟨hn, fun g hg => (List.mem_erase_of_ne ?_).mpr (hm g (List.mem_cons_of_mem _ hg))⟩
      rintro rfl
      exact hf hg
  | finish =>
    refine ⟨h.nodup, h.alive, h.freed, ?_⟩
    rintro q ⟨⟩
  | @add _ k _ hadd =>
    have hnew : ∃ c : Books, c.database = b.database ∧ c.freed = b.freed ∧ c.nextFile = b.nextFile ∧
        (c.newFile k.filename).SameDb b' := by
      rcases hadd with ⟨_, _, _, hb⟩ | ⟨_, hb⟩
      · exact ⟨{ b with entries := b.entries + 1 }, rfl, rfl, rfl, hb⟩
      · exact ⟨b, rfl, rfl, rfl, hb⟩
    obtain ⟨c, hdb, hfr, hnx, h1, -, h3, h4, -⟩ := hnew
    have hdb' : b'.database = b.database ++ [b.nextFile] := by
      rw [h1, ← hdb, ← hnx]
      rfl
    have hfr' : b'.freed = b.freed := h3.trans hfr
    have hnx' : b'.nextFile = b.nextFile + 1 := h4.trans (congrArg (· + 1) hnx)
    refine ⟨?_, fun f hf => ?_, fun f hf => ?_, ?_⟩
    · rw [hdb']
      refine h.nodup.append (List.nodup_singleton _) ?_
      intro f hf hf'
      rw [List.mem_singleton] at hf'
      exact absurd (hlt f hf) (by omega)
    · rw [hdb', List.mem_append, List.mem_singleton] at hf
      rw [hfr']
      rcases hf with hf | rfl
      · exact h.alive f hf
      · by_contra hn
        exact absurd (h.freed _ (by simpa using hn)).1 (Nat.lt_irrefl _)
    · rw [hfr'] at hf
      obtain ⟨hl, h0⟩ := h.freed f hf
      exact ⟨by omega, (ha f hf hl).trans h0⟩
    · rintro q ⟨⟩

theorem Books.Unique.sameDb {q : Option Purge} (hu : b.Unique p) (hc : b.SameDb b')
    (hq : q.bind Purge.caller = p.bind Purge.caller) : b'.Unique q := by
  obtain ⟨h1, h2, h3, h4, h5⟩ := hc
  refine ⟨fun f hf g hg => ?_, fun f hf => ?_, ?_, fun k hk f hf => ?_⟩
  · rw [h5]
    exact hu.names f (h1 ▸ hf) g (h1 ▸ hg)
  · rw [h1, h3]
    exact hu.complete f (h4 ▸ hf)
  · rw [h2, h1, hq]
    exact hu.entries
  · rw [h5]
    exact hu.missing k (hq ▸ hk) f (h1 ▸ hf)

/-- A step of the database that forces out no entry in use keeps the names apart. -/
theorem DbStep.unique (hs : DbStep free wants b p b' p') (h : b.Filed p) (hu : b.Unique p) (hlt : ∀ f ∈ b.database, f < b.nextFile)
    (hforce : ∀ f todo k, p = some ⟨f :: todo, k, true⟩ → b.accesses f = 0) : b'.Unique p' := by
  cases hs with
  | keep hb => exact hu.sameDb hb rfl
  | start => exact hu.sameDb (.refl b) rfl
  | @overfull k _ hno =>
    refine ⟨hu.names, hu.complete, ?_, ?_⟩
    · change b.entries + 1 = _
      rw [hu.entries]
      simp
    · rintro k' ⟨⟩
      exact hno
  | spare hb => exact hu.sameDb hb rfl
  | detach ha => exact absurd (hforce _ _ _ rfl) ha
  | @free f todo k force =>
    have hf : f ∈ b.database := (h.todo _ rfl).2 f List.mem_cons_self
    refine ⟨fun g hg g' hg' => ?_, fun g hg => ?_, ?_, fun k' hk g hg => ?_⟩
    · exact hu.names g (List.mem_of_mem_erase hg) g' (List.mem_of_mem_erase hg')
    · change g ∈ b.database.erase f ∨ Function.update b.freed f true g = true
      by_cases e : g = f
      · subst e
        exact Or.inr (Function.update_self _ _ _)
      · rw [Function.update_of_ne e, List.mem_erase_of_ne e]
        exact hu.complete g hg
    · change b.entries - 1 = ((b.database.erase f).length : Int) + _
      have hpos : 0 < b.database.length := List.length_pos_of_mem hf
      rw [List.length_erase_of_mem hf, hu.entries]
      change _ = _ + if (k : Option Caller).isSome then (1 : Int) else 0
      change (b.database.length : Int) + (if k.isSome then (1 : Int) else 0) - 1 = _
      omega
    · exact hu.missing k' hk g (List.mem_of_mem_erase hg)
  | finish => exact hu.sameDb (.refl b) rfl
  | @add _ k _ hadd =>
    have hnew : ∃ c : Books, c.database = b.database ∧ c.freed = b.freed ∧ c.nextFile = b.nextFile ∧ c.filename = b.filename ∧
        c.entries = b.database.length + 1 ∧ (∀ f ∈ b.database, b.filename f ≠ k.filename) ∧ (c.newFile k.filename).SameDb b' := by
      rcases hadd with ⟨rfl, _, hno, hb⟩ | ⟨⟨force, rfl⟩, hb⟩
      · exact ⟨{ b with entries := b.entries + 1 }, rfl, rfl, rfl, rfl, congrArg (· + 1) (hu.entries.trans (add_zero _)), hno, hb⟩
      · exact ⟨b, rfl, rfl, rfl, rfl, hu.entries, hu.missing k rfl, hb⟩
    obtain ⟨c, hdb, hfr, hnx, hnm, hen, hno, h1, h2, h3, h4, h5⟩ := hnew
    have hdb' : b'.database = b.database ++ [b.nextFile] := by
      rw [h1, ← hdb, ← hnx]
      rfl
    have hself : b'.filename b.nextFile = k.filename := by
      rw [h5, ← hnx]
      exact Function.update_self _ _ _
    have hold : ∀ f ∈ b.database, b'.filename f = b.filename f := by
      intro f hf
      rw [h5, ← hnm]
      exact Function.update_of_ne (by rw [hnx]; exact Nat.ne_of_lt (hlt f hf)) _ _
    have hfresh : ∀ f ∈ b.database, b'.filename f ≠ b'.filename b.nextFile := by
      intro f hf
      rw [hold f hf, hself]
      exact hno f hf
    refine ⟨fun f hf g hg e => ?_, fun f hf => ?_, ?_, ?_⟩
    · rw [hdb', List.mem_append, List.mem_singleton] at hf hg
      rcases hf with hf | rfl
      · rcases hg with hg | rfl
        · exact hu.names f hf g hg (by rw [← hold f hf, ← hold g hg, e])
        · exact absurd e (hfresh f hf)
      · rcases hg with hg | rfl
        · exact absurd e.symm (hfresh g hg)
        · rfl
    · rw [h4] at hf
      have hf' : f < b.nextFile + 1 := hnx ▸ hf
      rw [hdb', List.mem_append, List.mem_singleton, show b'.freed = b.freed from h3.trans hfr]
      rcases Nat.lt_succ_iff_lt_or_eq.mp hf' with hlt' | rfl
      · exact (hu.complete f hlt').imp Or.inl id
      · exact Or.inl (Or.inr rfl)
    · rw [hdb', h2, List.length_append]
      change c.entries = _
      rw [hen]
      simp
    · rintro k' ⟨⟩

end Invariants

/-! ## The whole system -/

section System

variable {T : Type} [DecidableEq T]

/-- The purge of the thread that holds `database.lock`. -/
def Sys.purge (sys : Sys T) : Option Purge := sys.dbLock.bind (fun t => (sys.clients t).purge)

/-- The threads in a purge are the one that holds `database.lock`. -/
def Sys.Locked (sys : Sys T) : Prop := ∀ t, (sys.clients t).purge.isSome = true ↔ sys.dbLock = some t

omit [DecidableEq T] in
/-- The purge of a thread is that of the one that holds the lock. -/
theorem Sys.purge_of_clients {sys : Sys T} {t : T} {p : Purge} (h : sys.Locked) (hp : (sys.clients t).purge = some p) :
    sys.purge = some p := by
  have ht : sys.dbLock = some t := (h t).mp (by rw [hp]; rfl)
  unfold Sys.purge
  rw [ht]
  exact hp

/-- A step of a thread moves the lock with its purge. -/
theorem Sys.Locked.client {sys : Sys T} {t : T} {s : State} {pc : Pc} {wants : Nat → Prop} {b b' : Books} (h : sys.Locked)
    (hs : DbStep (sys.dbLock = none) wants b (sys.clients t).purge b' pc.purge) : (sys.advance t s pc).Locked := by
  intro t'
  unfold Sys.advance
  dsimp only
  rw [Pc.locksDb_eq, Pc.locksDb_eq]
  by_cases e : t' = t
  · subst e
    rw [Function.update_self]
    cases hp : pc.purge with
    | some p => simp
    | none =>
      have hlock := h t'
      cases hq : (sys.clients t').purge with
      | some q => simp
      | none =>
        rw [hq] at hlock
        simpa using hlock
  · rw [Function.update_of_ne e, h t']
    have hne : ∀ q, (sys.clients t).purge = some q → sys.dbLock ≠ some t' := by
      intro q hq hd
      have ht : sys.dbLock = some t := (h t).mp (by rw [hq]; rfl)
      rw [ht] at hd
      exact e (Option.some.inj hd).symm
    cases hq : (sys.clients t).purge with
    | some q =>
      refine ⟨fun hd => absurd hd (hne q hq), fun hd => ?_⟩
      cases hp : pc.purge with
      | some p =>
        rw [hp] at hd
        simp only [Option.isSome_some, if_true, Option.some.injEq] at hd
        exact absurd hd.symm e
      | none =>
        rw [hp] at hd
        simp at hd
    | none =>
      cases hp : pc.purge with
      | none => simp
      | some p =>
        -- the thread has got the lock, so nobody held it
        rw [hq, hp] at hs
        have hfree : sys.dbLock = none := by
          cases hs with
          | start hf => exact of_decide_eq_true hf
          | overfull hf => exact of_decide_eq_true hf
        rw [hfree]
        refine ⟨fun hd => (by cases hd), fun hd => ?_⟩
        rw [Option.isSome_some, if_pos rfl] at hd
        exact absurd (Option.some.inj hd).symm e

/-- A thread that is in no purge before and after its step leaves the purge under way alone. -/
theorem Sys.Locked.purge_advance {sys : Sys T} {t : T} (h : sys.Locked) (s : State) {pc : Pc} (hq : (sys.clients t).purge = none)
    (hp : pc.purge = none) : (sys.advance t s pc).purge = sys.purge := by
  unfold Sys.purge Sys.advance
  dsimp only
  rw [Pc.locksDb_eq, Pc.locksDb_eq, hp, hq]
  cases hd : sys.dbLock with
  | none => rfl
  | some t' =>
    have e : t' ≠ t := by
      rintro rfl
      have hsome := (h t').mpr hd
      rw [hq] at hsome
      cases hsome
    change ((Function.update sys.clients t pc) t').purge = _
    rw [Function.update_of_ne e]
    rfl

/-- A step of a thread is a step of the database by the thread that holds its lock, or leaves the database alone. -/
theorem Sys.Locked.db_cases {sys : Sys T} {t : T} {s : State} {pc : Pc} {wants : Nat → Prop} {b b' : Books} (h : sys.Locked)
    (hs : DbStep (sys.dbLock = none) wants b (sys.clients t).purge b' pc.purge) :
    ((sys.advance t s pc).purge = sys.purge ∧ b.SameDb b') ∨
      (sys.purge = (sys.clients t).purge ∧ DbStep (sys.dbLock = none) wants b sys.purge b' (sys.advance t s pc).purge) := by
  have hlocked := h.client (s := s) hs
  have hsome : ∀ p, pc.purge = some p → (sys.advance t s pc).purge = some p := by
    intro p hp
    exact Sys.purge_of_clients hlocked ((congrArg Pc.purge (Function.update_self _ _ _)).trans hp)
  cases hq : (sys.clients t).purge with
  | some q =>
    have hpurge := Sys.purge_of_clients h hq
    have hpurge' : (sys.advance t s pc).purge = pc.purge := by
      cases hp : pc.purge with
      | some p => exact hsome p hp
      | none =>
        unfold Sys.purge Sys.advance
        dsimp only
        rw [Pc.locksDb_eq, Pc.locksDb_eq, hp, hq]
        rfl
    rw [hpurge, hpurge']
    rw [hq] at hs
    exact Or.inr ⟨rfl, hs⟩
  | none =>
    cases hd : sys.dbLock with
    | some t' =>
      rw [hq, hd] at hs
      obtain ⟨hp, hsame⟩ := DbStep.sameDb (show DbStep false wants b none b' pc.purge from hs)
      exact Or.inl ⟨h.purge_advance s hq hp, hsame⟩
    | none =>
      have hpurge : sys.purge = none := by
        unfold Sys.purge
        rw [hd]
        rfl
      have hpurge' : (sys.advance t s pc).purge = pc.purge := by
        cases hp : pc.purge with
        | some p => exact hsome p hp
        | none => exact (h.purge_advance s hq hp).trans hpurge
      rw [hq, hd] at hs
      rw [hpurge, hpurge']
      exact Or.inr ⟨rfl, hs⟩

theorem takeRequest_purge (Γ : Config) (s : State) (r : Request) : (takeRequest Γ s r).purge = none := by
  cases r <;> rfl

variable [Fintype T]

/-- The invariant of the database: right counts, one holder of its lock, and nobody counts on what has been freed. -/
structure Sys.Filed (sys : Sys T) : Prop where
  counted : sys.Counted
  locked : sys.Locked
  filed : sys.shared.books.Filed sys.purge

omit [DecidableEq T] in
theorem Sys.filed_mounted (fs : Backing) : (Sys.mounted fs : Sys T).Filed where
  counted := Sys.counted_mounted fs
  locked t := by simp [Sys.mounted, Pc.purge]
  filed := ⟨List.nodup_nil, fun f hf => (by cases hf), fun f hf => (by cases hf), fun q hq => (by cases hq)⟩

/-- What a step of the system is for the database: it is left alone, or a thread makes a step of the database. -/
inductive Sys.DbCases (Γ : Config) (sys sys' : Sys T) (l : Label T) : Prop
  | same : sys'.purge = sys.purge → sys.shared.books.SameDb sys'.shared.books → Sys.DbCases Γ sys sys' l
  | db (t : T) (env : Env) : l = .client t env → sys.purge = (sys.clients t).purge →
      DbStep (sys.dbLock = none) (wanted Γ env sys.shared) sys.shared.books sys.purge sys'.shared.books sys'.purge →
      Sys.DbCases Γ sys sys' l

/-- Every step is one of these, keeps the lock with its holder, and counts on nothing that has been freed. -/
theorem Sys.Filed.db_cases {Γ : Config} {sys sys' : Sys T} {l : Label T} (h : sys.Filed) (hs : sys.step Γ l = some sys') :
    sys'.Locked ∧ Sys.DbCases Γ sys sys' l ∧ ∀ f, sys.shared.freed f = true → f < sys.shared.nextFile →
      (sys'.shared.files f).accesses = (sys.shared.files f).accesses := by
  rcases Sys.step_cases hs with ⟨t, r, last, rfl, hidle, rfl⟩ | ⟨t, env, s, pc, rfl, _, hc, rfl⟩ | ⟨env, s, w, rfl, _, hw, rfl⟩ |
    ⟨rfl, rfl⟩
  · have hpurge := takeRequest_purge Γ sys.shared r
    have hidle' : (sys.clients t).purge = none := by
      rw [hidle]
      rfl
    have hstep : DbStep (sys.dbLock = none) (fun _ => False) sys.shared.books (sys.clients t).purge sys.shared.books
        (takeRequest Γ sys.shared r).purge := by
      rw [hidle', hpurge]
      exact .keep (.refl _)
    exact ⟨h.locked.client hstep, .same (h.locked.purge_advance _ hidle' hpurge) (.refl _), fun _ _ _ => rfl⟩
  · refine ⟨h.locked.client hc.db, ?_, fun f hf hlt => hc.frozen hf hlt⟩
    rcases h.locked.db_cases (s := s) hc.db with ⟨hp, hb⟩ | ⟨hp, hb⟩
    · exact .same hp hb
    · exact .db t env rfl hp hb
  · exact ⟨h.locked, .same rfl hw.sameDb, fun f hf _ => hw.frozen hf⟩
  · exact ⟨h.locked, .same rfl (.refl _), fun _ _ _ => rfl⟩

/-- Every step keeps the invariant of the database. -/
theorem Sys.Filed.step {Γ : Config} {sys sys' : Sys T} {l : Label T} (h : sys.Filed) (hok : sys.Promised l ∧ sys.Unmoved Γ l)
    (hs : sys.step Γ l = some sys') : sys'.Filed := by
  obtain ⟨hlocked, hcases, hfrozen⟩ := h.db_cases hs
  refine ⟨h.counted.step hok hs, hlocked, ?_⟩
  cases hcases with
  | same hp hb =>
    rw [hp]
    exact h.filed.sameDb hb hfrozen
  | db t env _ _ hd => exact hd.filed h.filed h.counted.listed_lt hfrozen

/-- A purge forces out nobody: where it is told to, it finds every entry unused. -/
def Sys.Unforced (sys : Sys T) : Label T → Prop
  | .client t _ => ∀ f ∈ (sys.clients t).forcesOut, (sys.shared.files f).accesses = 0
  | _ => True

instance (sys : Sys T) (l : Label T) : Decidable (sys.Unforced l) :=
  match l with
  | .client t _ => inferInstanceAs (Decidable (∀ f ∈ (sys.clients t).forcesOut, (sys.shared.files f).accesses = 0))
  | .request _ _ => isTrue trivial
  | .worker _ => isTrue trivial
  | .tick => isTrue trivial

/-- Every step that forces out no entry in use keeps the names apart. -/
theorem Sys.Filed.step_unique {Γ : Config} {sys sys' : Sys T} {l : Label T} (h : sys.Filed)
    (hu : sys.shared.books.Unique sys.purge) (hok : sys.Unforced l) (hs : sys.step Γ l = some sys') :
    sys'.shared.books.Unique sys'.purge := by
  obtain ⟨_, hcases, _⟩ := h.db_cases hs
  cases hcases with
  | same hp hb =>
    rw [hp]
    exact hu.sameDb hb rfl
  | db t env hl hp hd =>
    subst hl
    refine hd.unique h.filed hu h.counted.listed_lt (fun f todo k e => ?_)
    have hpc := Pc.purge_eq_some (hp.symm.trans e)
    refine hok f ?_
    rw [hpc]
    rfl

/-- When a purge comes to an unused entry that a thread waits for, it queues the entry again. -/
def Sys.Requeues (Γ : Config) (sys : Sys T) : Label T → Prop
  | .client t env =>
    ∀ f ∈ (sys.clients t).examines, (sys.shared.files f).accesses = 0 → (∃ t', (sys.clients t').waitsFor = some f) →
      wanted Γ env sys.shared f
  | _ => True

instance (Γ : Config) (sys : Sys T) (l : Label T) : Decidable (sys.Requeues Γ l) :=
  match l with
  | .client t env =>
    inferInstanceAs (Decidable (∀ f ∈ (sys.clients t).examines, (sys.shared.files f).accesses = 0 →
      (∃ t', (sys.clients t').waitsFor = some f) → wanted Γ env sys.shared f))
  | .request _ _ => isTrue trivial
  | .worker _ => isTrue trivial
  | .tick => isTrue trivial

/-- The entries that threads wait for are there. -/
def Sys.Waitable (sys : Sys T) : Prop := ∀ t f, (sys.clients t).waitsFor = some f → sys.shared.freed f = false

/-- A step that requeues what threads wait for frees none of it. -/
theorem DbStep.freed_eq {free : Bool} {wants : Nat → Prop} {b b' : Books} {p p' : Option Purge} (hs : DbStep free wants b p b' p')
    {f : Nat} (hw : ∀ todo k force, p = some ⟨f :: todo, k, force⟩ → b.accesses f = 0 → wants f) : b'.freed f = b.freed f := by
  cases hs with
  | keep hb => rw [hb.2.2.1]
  | spare hb => rw [hb.2.2.1]
  | @free g todo k force h0 hn =>
    refine Function.update_of_ne ?_ _ _
    rintro rfl
    exact hn (hw todo k force rfl h0)
  | add hadd =>
    rcases hadd with ⟨_, _, _, hb⟩ | ⟨_, hb⟩ <;>
    · rw [hb.2.2.1]
      rfl
  | _ => rfl

theorem Sys.Filed.step_waitable {Γ : Config} {sys sys' : Sys T} {l : Label T} (h : sys.Filed) (hw : sys.Waitable)
    (hok : sys.Requeues Γ l) (hs : sys.step Γ l = some sys') : sys'.Waitable := by
  have hold : ∀ t f, (sys.clients t).waitsFor = some f → sys'.shared.freed f = false := by
    intro t f hf
    obtain ⟨_, hcases, _⟩ := h.db_cases hs
    cases hcases with
    | same _ hb => exact (congrFun hb.2.2.1 f).trans (hw t f hf)
    | db t' env hl hp hd =>
      subst hl
      refine (hd.freed_eq (fun todo k force e h0 => ?_)).trans (hw t f hf)
      have hpc := Pc.purge_eq_some (hp.symm.trans e)
      refine hok f ?_ h0 ⟨t, hf⟩
      rw [hpc]
      rfl
  rcases Sys.step_cases hs with ⟨t, r, last, rfl, _, rfl⟩ | ⟨t, env, s, pc, rfl, _, hc, rfl⟩ | ⟨env, s, w, rfl, _, _, rfl⟩ |
    ⟨rfl, rfl⟩
  · intro t' f hf
    by_cases e : t' = t
    · subst e
      rw [show (sys.advance t' sys.shared (takeRequest Γ sys.shared r)).clients t' = takeRequest Γ sys.shared r from
        Function.update_self _ _ _] at hf
      cases r <;> cases hf
    · exact hold t' f ((congrArg Pc.waitsFor (Function.update_of_ne e _ _)).symm.trans hf)
  · intro t' f hf
    by_cases e : t' = t
    · subst e
      rw [show (sys.advance t' s pc).clients t' = pc from Function.update_self _ _ _] at hf
      obtain ⟨hf, hb⟩ := hc.waits hf
      exact (congrFun hb f).trans hf
    · exact hold t' f ((congrArg Pc.waitsFor (Function.update_of_ne e _ _)).symm.trans hf)
  · exact hold
  · exact hold

end System

end FuseCompress
