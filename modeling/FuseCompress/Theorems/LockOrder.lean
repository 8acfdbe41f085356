import FuseCompress.Lib.LockOrder
import FuseCompress.Theorems.Progress

/-!
# No circular wait

Inside of a step a thread takes one lock after the other: `database.lock` before the lock of an entry, and that before the locks of
the queue and of the table of duplicates. Only `rename` holds the locks of two entries. So as long as one request to rename at a time
has locked its first entry, threads that are stopped in the middle of their steps do not wait for each other in a circle.
-/

namespace FuseCompress

variable {Γ : Config} {env : Env} {s : State}

/-- The place of a lock in the order. -/
def Lock.rank : Lock → Nat
  | .database => 0
  | .file _ => 1
  | .compDatabase => 2
  | .dedupDatabase => 2

/-- Every lock is taken while what is held allows it. -/
def Held.Takes (P : List Lock → Lock → Prop) (h : Held) : List LockOp → Prop
  | [] => True
  | .lock l :: ops => P h.locks l ∧ (h.apply (.lock l)).Takes P ops
  | .unlock l :: ops => (h.apply (.unlock l)).Takes P ops

/-- The lock is above those that are held. -/
def Lock.above (held : List Lock) (l : Lock) : Prop := ∀ m ∈ held, m.rank < l.rank

/-- The lock is not below those that are held, and not one of them. -/
def Lock.beside (held : List Lock) (l : Lock) : Prop := ∀ m ∈ held, m.rank ≤ l.rank ∧ m ≠ l

section Takes

variable {P : List Lock → Lock → Prop} {h : Held}

theorem Held.takes_append (ops ops' : List LockOp) : h.Takes P (ops ++ ops') ↔ h.Takes P ops ∧ (h.run ops).Takes P ops' := by
  induction ops generalizing h with
  | nil => simp [Held.Takes]
  | cons op ops ih =>
    cases op with
    | lock l => simp only [List.cons_append, Held.Takes, Held.run_cons, ih, and_assoc]
    | unlock l => simp only [List.cons_append, Held.Takes, Held.run_cons, ih]

/-- What a thread holds when it takes one of the locks. -/
theorem Held.Takes.at {ops before after : List LockOp} {l : Lock} (ht : h.Takes P ops) (hops : ops = before ++ .lock l :: after) :
    P (h.run before).locks l := by
  rw [hops, Held.takes_append] at ht
  exact ht.2.1

theorem Held.takes_brief {l : Lock} (hl : P h.locks l) : h.Takes P (brief l) := ⟨hl, trivial⟩

theorem Held.takes_flatMap_brief (fs : List Nat) (hfs : ∀ f, Lock.file f ∉ h.locks) (hP : ∀ f, P h.locks (.file f)) :
    h.Takes P (fs.flatMap (fun f => brief (.file f))) := by
  induction fs with
  | nil => trivial
  | cons f fs ih =>
    rw [List.flatMap_cons, Held.takes_append, Held.run_brief (hfs f)]
    exact ⟨Held.takes_brief (hP f), ih⟩

end Takes

/-! ## The handlers -/

theorem takes_openFileLocks (P : List Lock → Lock → Prop) (h : Held) (f : Nat) (full : Filename) :
    h.Takes P (openFileLocks env s f full) := by
  unfold openFileLocks
  repeat' split
  all_goals trivial

theorem takes_callerLocks (P : List Lock → Lock → Prop) (h : Held) (f : Nat) (k : Caller) :
    h.Takes P (callerLocks Γ env s f k) := by
  cases k with
  | «open» full writable =>
    simp only [callerLocks]
    split
    · split
      · trivial
      · exact takes_openFileLocks ..
    · trivial
  | _ => trivial

theorem takes_directOpenWaitLocks (P : List Lock → Lock → Prop) (h : Held) (f : Nat) (k : Caller) :
    h.Takes P (directOpenWaitLocks Γ env s f k) := by
  unfold directOpenWaitLocks
  split
  · trivial
  · exact takes_callerLocks P h f k

theorem above_database (f : Nat) : Lock.above [.database] (.file f) := by simp [Lock.above, Lock.rank]

theorem takes_directOpenNewLocks (k : Caller) : (⟨[.database], false⟩ : Held).Takes Lock.above (directOpenNewLocks Γ env s k) := by
  unfold directOpenNewLocks
  rw [Held.takes_append]
  exact ⟨⟨above_database _, trivial⟩, takes_callerLocks ..⟩

theorem takes_directOpenLocks (k : Caller) : Held.none.Takes Lock.above (directOpenLocks Γ env s k) := by
  unfold directOpenLocks
  rw [List.cons_append]
  refine ⟨by simp [Lock.above, Held.none], ?_⟩
  rw [Held.takes_append]
  refine ⟨Held.takes_flatMap_brief _ (by simp [Held.none, Held.apply]) above_database, ?_⟩
  rw [Held.run_flatMap_brief _ (by simp [Held.none, Held.apply])]
  unfold directOpenEndLocks
  split
  · rw [Held.takes_append]
    exact ⟨⟨above_database _, trivial⟩, takes_directOpenWaitLocks ..⟩
  · split
    · trivial
    · exact takes_directOpenNewLocks k

theorem takes_purgeLocks (force : Bool) (f : Nat) : (⟨[.database], false⟩ : Held).Takes Lock.above (purgeLocks Γ env force s f) := by
  unfold purgeLocks
  dsimp only
  split
  · rw [List.cons_append]
    refine ⟨above_database f, ?_⟩
    rw [Held.takes_append]
    refine ⟨?_, trivial⟩
    split
    · exact Held.takes_brief (by simp [Lock.above, Lock.rank, Held.apply])
    · trivial
  · split
    · exact Held.takes_brief (above_database f)
    · trivial

/-- `rename` takes the lock of the second entry beside that of the first. -/
theorem takes_renameLocks {a b : Nat} (hne : a ≠ b) : (⟨[.file a], false⟩ : Held).Takes Lock.beside (renameLocks Γ env s a b) := by
  have htables : ∀ l : Lock, l.rank = 2 → Lock.beside [.file b, .file a] l := by
    intro l hl m hm
    rcases List.mem_pair.mp hm with rfl | rfl
    · exact ⟨by rw [hl]; exact Nat.le_succ 1, by rintro rfl; cases hl⟩
    · exact ⟨by rw [hl]; exact Nat.le_succ 1, by rintro rfl; cases hl⟩
  have hlock : (⟨[.file a], false⟩ : Held).run [.lock (.file b)] = ⟨[.file b, .file a], false⟩ := by
    simp [Held.run, Held.apply, Ne.symm hne]
  unfold renameLocks
  rw [Held.takes_append, Held.takes_append, hlock]
  refine ⟨⟨⟨by simp [Lock.beside, Lock.rank, hne], trivial⟩, ?_⟩, trivial⟩
  split
  · rw [Held.takes_append]
    constructor
    · split
      · exact Held.takes_brief (htables _ rfl)
      · trivial
    · rw [show (⟨[.file b, .file a], false⟩ : Held).run (if Γ.dedupEnabled then brief .dedupDatabase else []) =
        ⟨[.file b, .file a], false⟩ from by split <;> rfl]
      exact Held.takes_brief (htables _ rfl)
  · trivial

/-- A step of a thread takes its locks in the order, but for the end of `rename`. -/
theorem takes_clientLocks {pc : Pc} (hpc : pc.inRename = false) :
    (Held.between pc).Takes Lock.above (clientLocks Γ env s pc) := by
  have hnone : ∀ l, Lock.above [] l := by simp [Lock.above]
  cases pc with
  | purgeStart force => exact ⟨hnone _, trivial⟩
  | opening k => exact takes_directOpenLocks k
  | purging todo k force =>
    cases todo with
    | cons f todo => exact takes_purgeLocks force f
    | nil =>
      cases k with
      | none => trivial
      | some k => exact takes_directOpenNewLocks k
  | waiting k f seen => exact ⟨hnone _, takes_directOpenWaitLocks ..⟩
  | undeduped full f => exact takes_openFileLocks ..
  | renamePair src dst a b => exact ⟨hnone _, trivial⟩
  | renameSecond src dst a b => cases hpc
  | fetched d op f => exact Held.takes_brief (hnone _)
  | preaded d f res relock =>
    rw [clientLocks]
    split
    · exact Held.takes_brief (hnone _)
    · trivial
  | pwrote d f res => exact Held.takes_brief (hnone _)
  | _ => trivial

/-- A step of the background thread takes its locks in the order. -/
theorem takes_workerLocks (w : WorkerPc) : Held.none.Takes Lock.above (workerLocks s w) := by
  have hnone : ∀ l, Lock.above [] l := by simp [Lock.above]
  cases w with
  | idle => exact Held.takes_brief (hnone _)
  | dequeued f isDedup => exact Held.takes_brief (hnone _)
  | compressing job got eof => exact Held.takes_brief (hnone _)
  | hashing f pc =>
    cases pc with
    | finished hash =>
      rw [workerLocks, List.cons_append]
      refine ⟨hnone _, ?_⟩
      rw [Held.takes_append]
      refine ⟨?_, trivial⟩
      split
      · exact Held.takes_brief (by simp [Lock.above, Lock.rank, Held.apply, Held.none])
      · trivial
    | _ => trivial

/-! ## The system -/

section System

variable {T : Type}

/-- The thread, or the background thread, is in the middle of its next step and waits for the lock `l` with the locks `held`, whatever
it has seen of the state on its way. -/
def LockSys.Wants (Γ : Config) (L : LockSys T) (l : Lock) (held : List Lock) : Option T → Prop
  | some t => ∃ env s before after, clientLocks Γ env s (L.sys.clients t) = before ++ .lock l :: after ∧
      held = ((L.held t).run before).locks
  | none => ∃ s before after, workerLocks s L.sys.worker = before ++ .lock l :: after ∧ held = (Held.none.run before).locks

/-- The step forgets no lock. -/
def LockSys.Remembers (Γ : Config) (L : LockSys T) : Label T → Prop
  | .client t env => clientForgets Γ env L.sys.shared (L.sys.clients t) = false
  | _ => True

instance (Γ : Config) (L : LockSys T) (l : Label T) : Decidable (L.Remembers Γ l) :=
  match l with
  | .client t env => inferInstanceAs (Decidable (clientForgets Γ env L.sys.shared (L.sys.clients t) = false))
  | .request _ _ => isTrue trivial
  | .worker _ => isTrue trivial
  | .tick => isTrue trivial

/-- No lock has been forgotten, and every thread holds what it should between two steps. -/
def LockSys.Between (L : LockSys T) : Prop := ∀ t, L.forgot t = false ∧ L.held t = Held.between (L.sys.clients t)

theorem LockSys.Between.step [DecidableEq T] {L L' : LockSys T} {l : Label T} (h : L.Between) (hl : L.Remembers Γ l) (hs : L.step Γ l = some L') :
    L'.Between := by
  intro t
  have hforgot : L'.forgot t = false := by
    simp only [LockSys.step, Option.map_eq_some_iff] at hs
    obtain ⟨sys', -, rfl⟩ := hs
    cases l with
    | request u r =>
      by_cases hu : t = u
      · exact hu ▸ Function.update_self ..
      · exact (Function.update_of_ne hu ..).trans (h t).1
    | client u env =>
      by_cases hu : t = u
      · subst hu
        refine (Function.update_self ..).trans ?_
        rw [(h t).1, show clientForgets Γ env L.sys.shared (L.sys.clients t) = false from hl]
        rfl
      · exact (Function.update_of_ne hu ..).trans (h t).1
    | worker env => exact (h t).1
    | tick => exact (h t).1
  rcases LockSys.kept_step (.inl (h t)) hs with hkept | hforgets
  · exact hkept
  · rw [hforgot] at hforgets
    cases hforgets.1

theorem LockSys.step_sys [DecidableEq T] {L L' : LockSys T} {l : Label T} (hs : L.step Γ l = some L') : L.sys.step Γ l = some L'.sys := by
  unfold LockSys.step at hs
  rw [Option.map_eq_some_iff] at hs
  obtain ⟨sys', hstep, rfl⟩ := hs
  rw [hstep]
  cases l <;> rfl

/-- A thread that is not at the end of `rename` waits for a lock above those it holds. -/
theorem LockSys.Wants.above {L : LockSys T} (h : L.Between) {l : Lock} {held : List Lock} {t : Option T} (hw : L.Wants Γ l held t)
    (ht : ∀ u, t = some u → (L.sys.clients u).inRename = false) : Lock.above held l := by
  cases t with
  | none =>
    obtain ⟨s, before, after, hops, rfl⟩ := hw
    exact (takes_workerLocks L.sys.worker).at hops
  | some t =>
    obtain ⟨env, s, before, after, hops, rfl⟩ := hw
    rw [(h t).2]
    exact (takes_clientLocks (ht t rfl)).at hops

/-- A thread at the end of `rename` waits for a lock beside those it holds. -/
theorem LockSys.Wants.beside {L : LockSys T} (h : L.Between) (hc : L.sys.Informed) {l : Lock} {held : List Lock} {t : T}
    (hw : L.Wants Γ l held (some t)) (ht : (L.sys.clients t).inRename = true) : Lock.beside held l := by
  obtain ⟨env, s, before, after, hops, rfl⟩ := hw
  rw [(h t).2]
  cases hpc : L.sys.clients t with
  | renameSecond src dst a b =>
    have hknown := hc.known t
    rw [hpc] at hops hknown
    have hne : a ≠ b := by
      rintro rfl
      exact hknown.1 (hknown.2.1.2.symm.trans hknown.2.2.2)
    exact (takes_renameLocks hne).at hops
  | _ =>
    rw [hpc] at ht
    cases ht

/-- In every state of a run that forgets no lock, in which at most one request to rename has locked its first entry: wherever the threads
are stopped in the middle of their steps, one of those that wait for a lock waits for none of the others. -/
theorem no_circular_wait [DecidableEq T] {fs : Backing} {ls : List (Label T)} {L : LockSys T}
    (h : Run (LockSys.step Γ) (fun L l => L.sys.Promised l ∧ L.Remembers Γ l) (LockSys.mounted fs) ls L)
    (hrename : L.sys.OneRename) {W : Finset (Option T)} (hne : W.Nonempty) {want : Option T → Lock} {held : Option T → List Lock}
    (hw : ∀ t ∈ W, L.Wants Γ (want t) (held t) t) : ∃ t ∈ W, ∀ u ∈ W, want t ∉ held u := by
  obtain ⟨hc, hb⟩ := h.invariant (I := fun L => L.sys.Informed ∧ L.Between)
    (fun L l L' hinv hok hs => ⟨hinv.1.step hok.1 (LockSys.step_sys hs), hinv.2.step hok.2 hs⟩)
    ⟨⟨fun _ => trivial, fun f hf => (by cases hf)⟩, fun _ => ⟨rfl, rfl⟩⟩
  -- the thread that renames, if there is one that waits
  by_cases hr : ∃ r, some r ∈ W ∧ (L.sys.clients r).inRename = true
  · obtain ⟨r, hr, hpc⟩ := hr
    refine exists_unblocked Lock.rank hne want held (some r) (fun t ht htr => ?_) ((hw _ hr).beside hb hc hpc)
    refine (hw t ht).above hb ?_
    rintro u rfl
    exact Bool.eq_false_iff.mpr (fun hu => htr (congrArg some (hrename u r hu hpc)))
  · obtain ⟨r, hrW⟩ := hne
    have habove : ∀ t ∈ W, Lock.above (held t) (want t) := by
      intro t ht
      refine (hw t ht).above hb ?_
      rintro u rfl
      exact Bool.eq_false_iff.mpr (fun hu => hr ⟨u, ht, hu⟩)
    refine exists_unblocked Lock.rank ⟨r, hrW⟩ want held r (fun t ht _ => habove t ht) (fun m hm => ?_)
    have hlt := habove r hrW m hm
    exact ⟨hlt.le, by rintro rfl; exact Nat.lt_irrefl _ hlt⟩

end System

/-- Two threads are asked for a file each. -/
def twoRequests {T : Type} (t u : T) : List (Label T) := [.request t (.open ['a'] true), .request u (.open ['b'] true)]

/-- One of the threads has locked the database and is about to lock an entry, the other waits for the database. -/
theorem no_circular_wait_twoRequests : ∃ L : LockSys (Fin 2),
    Run (LockSys.step .plain) (fun L l => L.sys.Promised l ∧ L.Remembers .plain l) (LockSys.mounted .empty) (twoRequests 0 1) L ∧ ∃ t ∈ ({some 0, some 1} : Finset (Option (Fin 2))), ∀ u ∈ ({some 0, some 1} : Finset (Option (Fin 2))),
        (if t = some 0 then Lock.file 0 else .database) ∉ (if u = some 0 then [Lock.database] else []) := by
  obtain ⟨L, h, hpc⟩ := Run.exists_of_executeIf (show (executeIf (LockSys.step .plain)
    (fun L l => L.sys.Promised l ∧ L.Remembers .plain l) (LockSys.mounted .empty : LockSys (Fin 2)) (twoRequests 0 1)).any (fun L => decide ((L.sys.clients 0 = .opening (.open ['a'] true) ∧ L.held 0 = Held.none) ∧
        L.sys.clients 1 = .opening (.open ['b'] true) ∧ L.held 1 = Held.none)) = true by decide +kernel)
  obtain ⟨⟨hpc0, hheld0⟩, hpc1, hheld1⟩ := of_decide_eq_true hpc
  refine ⟨L, h, no_circular_wait h ?_ ⟨some 0, by simp⟩ (fun t ht => ?_)⟩
  · intro t u ht
    match t, ht with
    | 0, ht =>
      rw [hpc0] at ht
      cases ht
    | 1, ht =>
      rw [hpc1] at ht
      cases ht
  · rcases Finset.mem_insert.mp ht with rfl | ht
    · exact ⟨.fine, .mounted .empty, [.lock .database], _, by rw [hpc0]; rfl, by rw [hheld0]; rfl⟩
    · rw [Finset.mem_singleton] at ht
      subst ht
      exact ⟨.fine, .mounted .empty, [], _, by rw [hpc1]; rfl, by rw [hheld1]; rfl⟩

/-- The condition on renames is needed: each of the two threads has locked one entry and waits for that of the other. -/
theorem crossedRenames_circular : ∃ L : LockSys (Fin 2),
    Run (LockSys.step .plain) (fun L l => L.sys.Promised l ∧ L.Remembers .plain l) (LockSys.mounted .empty) (crossedRenames 0 1) L ∧
      L.Wants .plain (.file 1) [.file 0] (some 0) ∧ L.Wants .plain (.file 0) [.file 1] (some 1) := by
  obtain ⟨L, h, hpc⟩ := Run.exists_of_executeIf (show (executeIf (LockSys.step .plain)
    (fun L l => L.sys.Promised l ∧ L.Remembers .plain l) (LockSys.mounted .empty : LockSys (Fin 2)) (crossedRenames 0 1)).any
      (fun L => decide ((L.sys.clients 0 = .renameSecond ['a'] ['b'] 0 1 ∧ L.held 0 = ⟨[.file 0], false⟩) ∧
        L.sys.clients 1 = .renameSecond ['b'] ['a'] 1 0 ∧ L.held 1 = ⟨[.file 1], false⟩)) = true by decide +kernel)
  obtain ⟨⟨hpc0, hheld0⟩, hpc1, hheld1⟩ := of_decide_eq_true hpc
  exact ⟨L, h, ⟨.fine, L.sys.shared, [], _, by rw [hpc0]; rfl, by rw [hheld0]; rfl⟩,
    ⟨.fine, L.sys.shared, [], _, by rw [hpc1]; rfl, by rw [hheld1]; rfl⟩⟩

end FuseCompress
