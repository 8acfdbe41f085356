import FuseCompress.Lemmas.Accounting

/-!
# Entries are made before they are used

What holds of every run in which the kernel renames nothing to itself, however requests on descriptors and renames overlap: the
database, the queue and the threads know only entries that have been made, and an entry keeps its name. Without deduplication nothing
is queued for it.
-/

namespace FuseCompress

/-! ## The queue -/

section Queue

variable {b b' : Books} {f : Nat} {k : Caller} {pc pc' : Pc} {free : Bool} {wants : Nat → Prop}

theorem Body.comp (hb : Body b f k b' pc') : b'.comp = b.comp := by
  cases hb with
  | done _ ha _ _ => rcases ha with rfl | ⟨_, rfl⟩ <;> rfl
  | _ => rfl

theorem Enter.comp (he : Enter b f k b' pc') : b'.comp = b.comp := by
  cases he with
  | wait => rfl
  | body _ hb => exact hb.comp

/-- The queue changes in a purge and when a file is renamed. -/
theorem ClientStep.comp (hs : ClientStep free wants b pc b' pc') :
    b'.comp = b.comp ∨ (∃ f todo k force, pc = .purging (f :: todo) k force) ∨
      ∃ src dst x y, pc = .renameSecond src dst x y ∧
        b'.comp = b.comp.map (fun c : CompressT => if c.file = x then { c with file := y } else c) := by
  cases hs with
  | found _ _ _ _ he => exact Or.inl he.comp
  | new _ _ hb => exact Or.inl hb.comp
  | purgeUsed => exact Or.inr (Or.inl ⟨_, _, _, _, rfl⟩)
  | purgeQueue => exact Or.inr (Or.inl ⟨_, _, _, _, rfl⟩)
  | purgeFree => exact Or.inr (Or.inl ⟨_, _, _, _, rfl⟩)
  | purgeNew hb => exact Or.inl hb.comp
  | wake _ _ he => exact Or.inl he.comp
  | renamed => exact Or.inr (Or.inr ⟨_, _, _, _, rfl, rfl⟩)
  | locked _ _ ha _ => rcases ha with rfl | ⟨_, rfl⟩ <;> exact Or.inl rfl
  | _ => exact Or.inl rfl

/-- A step of a thread queues only what it knows. -/
theorem ClientStep.queued_lt (hk : pc.Known b) (hq : ∀ c ∈ b.comp, c.file < b.nextFile) (hs : ClientStep free wants b pc b' pc') :
    ∀ c ∈ b'.comp, c.file < b'.nextFile := by
  intro c hc
  have hle : b.nextFile ≤ b'.nextFile := hs.keeps.nextFile
  rcases hs.comp with hcomp | ⟨f, todo, k, force, rfl⟩ | ⟨src, dst, x, y, rfl, hcomp⟩
  · rw [hcomp] at hc
    exact Nat.lt_of_lt_of_le (hq c hc) hle
  · cases hs with
    | quiet hpc => exact hpc.elim
    | purgeUsed =>
      cases force with
      | true => exact Nat.lt_of_lt_of_le (hq c hc) hle
      | false => exact Nat.lt_of_lt_of_le (hq c hc) hle
    | purgeQueue =>
      rcases List.mem_append.mp hc with hold | hnew
      · exact Nat.lt_of_lt_of_le (hq c hold) hle
      · rw [List.mem_singleton.mp hnew]
        exact Nat.lt_of_lt_of_le (hk.1 f List.mem_cons_self) hle
    | purgeFree => exact Nat.lt_of_lt_of_le (hq c hc) hle
    | unlocked hdesc => cases hdesc
  · rw [hcomp] at hc
    obtain ⟨c₀, hc₀, rfl⟩ := List.mem_map.mp hc
    refine Nat.lt_of_lt_of_le ?_ hle
    split
    · exact hk.2.2.1
    · exact hq c₀ hc₀

/-- A purge queues nothing for deduplication. -/
theorem purgeFile_comp {Γ : Config} {s : State} (hd : Γ.dedupEnabled = false) (env : Env) (force : Bool) (f : Nat) :
    ∀ c ∈ (purgeFile Γ env force s f).comp, c ∈ s.comp ∨ c.isDedup = false := by
  intro c hc
  unfold purgeFile at hc
  dsimp only at hc
  split at hc
  · split at hc
    · unfold backgroundCompressDedup at hc
      dsimp only at hc
      rw [List.mem_append, List.mem_singleton] at hc
      rcases hc with hc | rfl
      · exact Or.inl hc
      · exact Or.inr rfl
    · split at hc
      · rename_i hwants
        unfold wantsDedup at hwants
        rw [hd] at hwants
        cases hwants
      · refine Or.inl ?_
        have hcomp : (directOpenDelete (detach s f) f).comp = s.comp :=
          congrArg Books.comp (books_directOpenDelete (detach s f) f)
        rwa [hcomp] at hc
  · split at hc
    · exact Or.inl hc
    · exact Or.inl hc

/-- The background thread comes to a deduplication only from the queue. -/
theorem WorkerStep.undeduped {w w' : WorkerPc} (hs : WorkerStep b w b' w') (hq : ∀ c ∈ b.comp, c.isDedup = false)
    (hw : (∀ f, w ≠ .dequeued f true) ∧ ∀ f pc, w ≠ .hashing f pc) :
    (∀ c ∈ b'.comp, c.isDedup = false) ∧ (∀ f, w' ≠ .dequeued f true) ∧ ∀ f pc, w' ≠ .hashing f pc := by
  cases hs with
  | @dequeue entry rest hcomp =>
    have hentry : entry.isDedup = false := hq entry (by rw [hcomp]; exact List.mem_cons_self)
    refine ⟨fun c hc => hq c (by rw [hcomp]; exact List.mem_cons_of_mem _ hc), fun f hf => ?_, fun f pc hf => by cases hf⟩
    rw [hentry] at hf
    cases hf
  | dedupBegin => exact absurd rfl (hw.1 _)
  | hash => exact absurd rfl (hw.2 _ _)
  | dedupEnd => exact absurd rfl (hw.2 _ _)
  | dedupFailed => exact absurd rfl (hw.2 _ _)
  | _ => exact ⟨hq, ⟨fun f hf => (by cases hf), fun f pc hf => (by cases hf)⟩⟩

end Queue

/-! ## Every step -/

section System

variable {T : Type} [DecidableEq T] {Γ : Config} {sys sys' : Sys T} {l : Label T}

/-- The database, the queue and the threads know only entries that have been made. -/
structure Sys.Listed (sys : Sys T) : Prop where
  known : ∀ t, (sys.clients t).Known sys.shared.books
  listed_lt : ∀ f ∈ sys.shared.database, f < sys.shared.nextFile
  queued_lt : ∀ c ∈ sys.shared.comp, c.file < sys.shared.nextFile
  held_lt : ∀ f, sys.worker.refs f ≠ 0 → f < sys.shared.nextFile

omit [DecidableEq T] in
theorem Sys.listed_mounted (fs : Backing) : (Sys.mounted fs : Sys T).Listed where
  known _ := trivial
  listed_lt f hf := by cases hf
  queued_lt c hc := by cases hc
  held_lt f hf := absurd rfl hf

/-- The background thread holds what it held, or what was queued. -/
theorem WorkerStep.held {b b' : Books} {w w' : WorkerPc} {f : Nat} (hs : WorkerStep b w b' w') (hf : w'.refs f ≠ 0) :
    w.refs f ≠ 0 ∨ ∃ c ∈ b.comp, c.file = f := by
  cases hs with
  | @dequeue entry rest hcomp =>
    refine Or.inr ⟨entry, by rw [hcomp]; exact List.mem_cons_self, ?_⟩
    by_contra hne
    exact hf (if_neg hne)
  | skip => exact absurd rfl hf
  | compressEnd => exact absurd rfl hf
  | dedupEnd => exact absurd rfl hf
  | dedupFailed => exact absurd rfl hf
  | _ => exact Or.inl hf

theorem WorkerStep.comp {b b' : Books} {w w' : WorkerPc} (hs : WorkerStep b w b' w') : ∀ c ∈ b'.comp, c ∈ b.comp := by
  cases hs with
  | dequeue hcomp =>
    intro c hc
    rw [hcomp]
    exact List.mem_cons_of_mem _ hc
  | _ => exact fun c hc => hc

/-- Every step keeps to the entries that have been made. -/
theorem Sys.Listed.step (h : sys.Listed) (hok : sys.Promised l) (hs : sys.step Γ l = some sys') : sys'.Listed := by
  rcases Sys.step_cases hs with ⟨t, r, last, rfl, -, rfl⟩ | ⟨t, env, s, pc, rfl, -, hc, rfl⟩ |
    ⟨env, s, w, rfl, -, hw, rfl⟩ | ⟨rfl, rfl⟩
  · refine ⟨fun u => ?_, h.listed_lt, h.queued_lt, h.held_lt⟩
    unfold Sys.advance
    dsimp only
    rw [Function.update_apply]
    split
    · exact takeRequest_known Γ sys hok
    · exact h.known u
  · have hkeep := hc.keeps
    refine ⟨fun u => ?_, fun f hf => ?_, hc.queued_lt (h.known t) h.queued_lt, fun f hf => ?_⟩
    · unfold Sys.advance
      dsimp only
      rw [Function.update_apply]
      split
      · exact hc.known (h.known t) h.listed_lt
      · exact (h.known u).keeps hkeep
    · rcases hc.listed hf with hf | ⟨rfl, hn⟩
      · exact Nat.lt_of_lt_of_le (h.listed_lt f hf) hkeep.nextFile
      · exact Nat.lt_of_lt_of_eq (Nat.lt_succ_self _) hn.symm
    · exact Nat.lt_of_lt_of_le (h.held_lt f hf) hkeep.nextFile
  · have hkeep : sys.shared.books.Keeps s.books (fun _ => False) := hw.keeps
    obtain ⟨hdatabase, -, -, hnext, -⟩ := hw.sameDb
    refine ⟨fun u => (h.known u).keeps hkeep, fun f hf => ?_, fun c hc => ?_, fun f hf => ?_⟩
    · have hf' : f ∈ sys.shared.books.database := hdatabase ▸ hf
      exact Nat.lt_of_lt_of_eq (h.listed_lt f hf') hnext.symm
    · exact Nat.lt_of_lt_of_eq (h.queued_lt c (hw.comp c hc)) hnext.symm
    · rcases hw.held hf with hheld | ⟨c, hc, rfl⟩
      · exact Nat.lt_of_lt_of_eq (h.held_lt f hheld) hnext.symm
      · exact Nat.lt_of_lt_of_eq (h.queued_lt c hc) hnext.symm
  · exact ⟨h.known, h.listed_lt, h.queued_lt, h.held_lt⟩

/-- Nothing is queued for deduplication and the background thread is not at one. -/
structure Sys.Undeduped (sys : Sys T) : Prop where
  queue : ∀ c ∈ sys.shared.comp, c.isDedup = false
  worker : (∀ f, sys.worker ≠ .dequeued f true) ∧ ∀ f pc, sys.worker ≠ .hashing f pc

omit [DecidableEq T] in
theorem Sys.undeduped_mounted (fs : Backing) : (Sys.mounted fs : Sys T).Undeduped where
  queue c hc := by cases hc
  worker := ⟨fun f hf => (by cases hf), fun f pc hf => (by cases hf)⟩

/-- A thread queues nothing for deduplication. -/
theorem ClientStep.undeduped {free : Bool} {wants : Nat → Prop} {env : Env} {s s' : State} {pc pc' : Pc} (hd : Γ.dedupEnabled = false)
    (hc : ClientStep free wants s.books pc s'.books pc') (h : clientStep Γ env free s pc = some (s', pc'))
    (hq : ∀ c ∈ s.comp, c.isDedup = false) : ∀ c ∈ s'.comp, c.isDedup = false := by
  intro c hm
  rcases hc.comp with hcomp | ⟨f, todo, k, force, rfl⟩ | ⟨src, dst, x, y, -, hcomp⟩
  · have hcomp' : s'.comp = s.comp := hcomp
    exact hq c (hcomp' ▸ hm)
  · rw [clientStep] at h
    split at h
    · cases h
    · split at h
      · cases h
      · cases h
        rcases purgeFile_comp hd env force f c hm with hold | hnew
        · exact hq c hold
        · exact hnew
  · have hcomp' : s'.comp = s.comp.map (fun c : CompressT => if c.file = x then { c with file := y } else c) := hcomp
    rw [hcomp'] at hm
    obtain ⟨c₀, hc₀, rfl⟩ := List.mem_map.mp hm
    split
    · exact hq c₀ hc₀
    · exact hq c₀ hc₀

/-- Without deduplication, none is ever queued. -/
theorem Sys.Undeduped.step (h : sys.Undeduped) (hd : Γ.dedupEnabled = false) (hs : sys.step Γ l = some sys') : sys'.Undeduped := by
  rcases Sys.step_cases hs with ⟨t, r, last, rfl, -, rfl⟩ | ⟨t, env, s, pc, rfl, hstep, hc, rfl⟩ |
    ⟨env, s, w, rfl, -, hw, rfl⟩ | ⟨rfl, rfl⟩
  · exact ⟨h.queue, h.worker⟩
  · exact ⟨hc.undeduped hd hstep h.queue, h.worker⟩
  · obtain ⟨hqueue, hworker⟩ := hw.undeduped h.queue h.worker
    exact ⟨hqueue, hworker⟩
  · exact ⟨h.queue, h.worker⟩

end System

end FuseCompress
