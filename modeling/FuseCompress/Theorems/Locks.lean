import FuseCompress.Bookkeeping
import FuseCompress.Locks

/-!
# Every request gives back its locks

Between two steps a thread holds `database.lock` while it purges, the lock of one entry between two sections of `open` or of `rename`, and
no other lock (`Held.between`). One step keeps that, but for the two exits of `open` that forget the lock of the file.
-/

namespace FuseCompress

variable {Γ : Config} {env : Env} {s s' : State}

/-! ## Sequences of lock operations -/

theorem Held.run_append (h : Held) (ops ops' : List LockOp) : h.run (ops ++ ops') = (h.run ops).run ops' := by
  unfold Held.run
  rw [List.foldl_append]

theorem Held.run_cons (h : Held) (op : LockOp) (ops : List LockOp) : h.run (op :: ops) = (h.apply op).run ops := rfl

@[simp] theorem Held.run_nil (h : Held) : h.run [] = h := rfl

/-- Taking a lock and giving it back leaves nothing behind. -/
theorem Held.run_brief {h : Held} {l : Lock} (hl : l ∉ h.locks) : h.run (brief l) = h := by
  unfold brief Held.run
  simp [Held.apply, hl]

theorem Held.run_flatMap_brief {h : Held} (fs : List Nat) (hfs : ∀ f, Lock.file f ∉ h.locks) :
    h.run (fs.flatMap (fun f => brief (.file f))) = h := by
  induction fs with
  | nil => rfl
  | cons f fs ih =>
    rw [List.flatMap_cons, Held.run_append, Held.run_brief (hfs f)]
    exact ih

/-- What a thread holds between two steps. -/
def Held.between (pc : Pc) : Held := ⟨if pc.locksDb then [.database] else pc.holds.toList.map Lock.file, false⟩

/-- What a thread holds that had the lock of an entry and has given it back or not. -/
def Held.left (f : Nat) (forgot : Bool) : Held := ⟨if forgot then [.file f] else [], false⟩

theorem Held.left_ne (f : Nat) : Held.left f true ≠ Held.none := by
  intro h
  cases h

/-- One lock is taken under another, which is then given back. -/
theorem Held.run_handover (f : Nat) (ops : List LockOp) :
    (⟨[.database], false⟩ : Held).run ([.lock (.file f), .unlock .database] ++ ops) = (⟨[.file f], false⟩ : Held).run ops := by
  rw [Held.run_append]
  rfl

/-! ## The caller of `direct_open` -/

theorem run_unlock (f : Nat) : (⟨[.file f], false⟩ : Held).run [.unlock (.file f)] = Held.none := by
  simp [Held.run, Held.apply, Held.none]

theorem run_openFileLocks (env : Env) (s : State) (f : Nat) (full : Filename) :
    (⟨[.file f], false⟩ : Held).run (openFileLocks env s f full) = Held.left f (openForgets env s full) := by
  unfold openFileLocks openForgets
  cases (if env.ok .open then s.fs.inoOf full else none) with
  | none => exact run_unlock f
  | some i =>
    cases hfstat : env.ok .fstat with
    | false => rfl
    | true =>
      by_cases hsize : headerSize ≤ (s.data i).length
      · cases hread : env.ok .readHeader with
        | false => simp [hsize, Held.left]
        | true => simp [hsize, run_unlock, Held.left, Held.none]
      · simp [hsize, run_unlock, Held.left, Held.none]

/-- What a thread holds when it returns or goes on to the next section: the lock of the entry when it has forgotten it, and else what it
should. -/
def Held.leaves (pc : Pc) (f : Nat) (forgot : Bool) : Held := if forgot then Held.left f true else Held.between pc

/-- A request that is over with the section. -/
theorem Held.leaves_idle (last : Option Reply) (f : Nat) (forgot : Bool) : Held.leaves (.idle last) f forgot = Held.left f forgot := by
  cases forgot <;> rfl

theorem run_openBodyLocks (Γ : Config) (env : Env) (s : State) (f : Nat) (full : Filename) (writable : Bool) :
    (⟨[.file f], false⟩ : Held).run (callerLocks Γ env s f (.open full writable)) =
      Held.leaves (openBody Γ env s f full writable).2 f (callerForgets Γ env s f (.open full writable)) := by
  cases hr : openUndedup Γ env s f writable with
  | mk s' ok =>
    simp only [callerLocks, callerForgets, openBody, hr]
    cases ok with
    | false => exact run_unlock f
    | true =>
      by_cases hwhole : Γ.dedupEnabled = true ∧ writable = true
      · simp only [hwhole, and_self, if_true, Bool.and_self, Bool.not_true, Bool.false_and]
        rfl
      · have hshut : (Γ.dedupEnabled && writable) = false := by
          rw [Bool.eq_false_iff, ne_eq, Bool.and_eq_true]
          exact hwhole
        simp only [hwhole, if_false, hshut, Bool.not_false, Bool.true_and]
        rw [run_openFileLocks]
        exact (Held.leaves_idle _ f _).symm

theorem run_callerLocks (Γ : Config) (env : Env) (s : State) (f : Nat) (k : Caller) :
    (⟨[.file f], false⟩ : Held).run (callerLocks Γ env s f k) =
      Held.leaves (callerBody Γ env s f k).2 f (callerForgets Γ env s f k) := by
  cases k with
  | «open» full writable => exact run_openBodyLocks Γ env s f full writable
  | link src dst =>
    refine (run_unlock f).trans ?_
    unfold callerBody
    cases linkLocked Γ env s f with
    | mk s' ok => cases ok <;> rfl
  | _ => exact run_unlock f

theorem run_directOpenNewLocks (Γ : Config) (env : Env) (s : State) (k : Caller) :
    (⟨[.database], false⟩ : Held).run (directOpenNewLocks Γ env s k) =
      Held.leaves (directOpenNew Γ env s k).2 s.nextFile (callerForgets Γ env (directOpenAdd Γ s k.filename) s.nextFile k) := by
  unfold directOpenNewLocks
  rw [Held.run_handover]
  exact run_callerLocks Γ env _ _ k

/-- Only `open` forgets a lock, and then it returns. -/
theorem callerForgets_idle {f : Nat} {k : Caller} (h : callerForgets Γ env s f k = true) :
    ∃ last, (callerBody Γ env s f k).2 = .idle last := by
  cases k with
  | «open» full writable =>
    cases hr : openUndedup Γ env s f writable with
    | mk s' ok =>
      simp only [callerForgets, hr] at h
      simp only [callerBody, openBody, hr]
      cases ok with
      | false => cases h
      | true =>
        simp only [Bool.and_eq_true, Bool.not_eq_true', Bool.eq_false_iff, ne_eq] at h
        simp only [if_neg h.1]
        exact ⟨_, rfl⟩
  | _ => cases h

theorem run_directOpenWaitLocks {f : Nat} {k : Caller} (h : (k.stabile && (s.files f).status.busy) = false) :
    (⟨[.file f], false⟩ : Held).run (directOpenWaitLocks Γ env s f k) =
      Held.leaves (callerBody Γ env s f k).2 f (callerForgets Γ env s f k) := by
  unfold directOpenWaitLocks
  rw [h]
  exact run_callerLocks Γ env s f k

theorem run_directOpenWaitLocks_busy {f : Nat} {k : Caller} (h : (k.stabile && (s.files f).status.busy) = true) :
    (⟨[.file f], false⟩ : Held).run (directOpenWaitLocks Γ env s f k) = Held.none := by
  unfold directOpenWaitLocks
  rw [h]
  exact run_unlock f

/-- The search of the database leaves `database.lock` alone. -/
theorem run_directOpenLocks (Γ : Config) (env : Env) (s : State) (k : Caller) :
    Held.none.run (directOpenLocks Γ env s k) = (⟨[.database], false⟩ : Held).run (directOpenEndLocks Γ env s k) := by
  unfold directOpenLocks
  rw [List.cons_append, Held.run_cons, Held.run_append]
  rw [show Held.none.apply (.lock .database) = ⟨[.database], false⟩ from rfl]
  rw [Held.run_flatMap_brief _ (by simp)]

/-! ## One step -/

theorem run_purgeLocks (Γ : Config) (env : Env) (force : Bool) (s : State) (f : Nat) :
    (⟨[.database], false⟩ : Held).run (purgeLocks Γ env force s f) = ⟨[.database], false⟩ := by
  unfold purgeLocks
  dsimp only
  split
  · split <;> simp [brief, Held.run, Held.apply]
  · split
    · exact Held.run_brief (by simp)
    · rfl

/-- `rename` gives back both locks. -/
theorem run_renameLocks (Γ : Config) (env : Env) (s : State) {a b : Nat} (h : a ≠ b) :
    (⟨[.file a], false⟩ : Held).run (renameLocks Γ env s a b) = Held.none := by
  have hlock : (⟨[.file a], false⟩ : Held).run [.lock (.file b)] = ⟨[.file b, .file a], false⟩ := by
    simp [Held.run, Held.apply, Ne.symm h]
  have hunlock : (⟨[.file b, .file a], false⟩ : Held).run [.unlock (.file b), .unlock (.file a)] = Held.none := by
    simp [Held.run, Held.apply, Held.none]
  unfold renameLocks
  rw [Held.run_append, Held.run_append, hlock]
  split
  · rw [Held.run_append]
    rw [show (⟨[.file b, .file a], false⟩ : Held).run (if Γ.dedupEnabled then brief .dedupDatabase else []) =
      ⟨[.file b, .file a], false⟩ from by split <;> rfl]
    rw [Held.run_brief (by simp)]
    exact hunlock
  · exact hunlock

/-- A request on a descriptor keeps no lock. -/
theorem descLocked_between (Γ : Config) (env : Env) (s : State) (d f : Nat) (op : DescOp) :
    Held.between (descLocked Γ env s d f op).2 = Held.none := by
  unfold descLocked
  (repeat' split) <;> rfl

theorem directOpenFound_busy (s : State) (f : Nat) (k : Caller) :
    (k.stabile && ((directOpenFound s f).files f).status.busy) = (k.stabile && (s.files f).status.busy) := by
  simp [directOpenFound]

/-- A step that leaves `direct_open` is what the caller does with the lock of the entry, from the unlock of the database on. -/
theorem clientLocks_leaves {free : Bool} {pc pc' : Pc} {r : State × Nat × Caller}
    (h : clientStep Γ env free s pc = some (s', pc')) (hl : leavesDirectOpen Γ s pc = some r) :
    (s', pc') = callerBody Γ env r.1 r.2.1 r.2.2 ∧
      (Held.between pc).run (clientLocks Γ env s pc) =
        Held.leaves (callerBody Γ env r.1 r.2.1 r.2.2).2 r.2.1 (callerForgets Γ env r.1 r.2.1 r.2.2) := by
  cases pc with
  | opening k =>
    simp only [leavesDirectOpen] at hl
    simp only [clientStep, directOpenStart] at h
    have hrun := run_directOpenLocks Γ env s k
    unfold directOpenEndLocks at hrun
    cases hfind : findFile s k.filename with
    | some f =>
      simp only [hfind] at hl h hrun
      cases hbusy : (k.stabile && (s.files f).status.busy) with
      | true => simp [hbusy] at hl
      | false =>
        simp only [hbusy, Bool.false_eq_true, if_false, Option.some.injEq] at hl
        subst hl
        have hbusy' := (directOpenFound_busy s f k).trans hbusy
        refine ⟨?_, ?_⟩
        · simp only [directOpenWait, hbusy', Bool.false_eq_true, if_false, Option.ite_none_right_eq_some,
            Option.some.injEq] at h
          exact h.2.2.symm
        · rw [Held.run_handover, run_directOpenWaitLocks hbusy'] at hrun
          exact hrun
    | none =>
      simp only [hfind] at hl h hrun
      by_cases hlong : s.entries > maxDatabaseLen + s.compEntries
      · simp [hlong] at hl
      · simp only [hlong, if_false, Option.some.injEq] at hl h hrun
        subst hl
        rw [run_directOpenNewLocks] at hrun
        simp only [Option.ite_none_right_eq_some, Option.some.injEq] at h
        exact ⟨h.2.symm, hrun⟩
  | purging todo k force =>
    cases todo with
    | cons f todo => cases hl
    | nil =>
      cases k with
      | none => cases hl
      | some k =>
        cases hl
        rw [clientStep] at h
        exact ⟨(Option.some.inj h).symm, run_directOpenNewLocks Γ env s k⟩
  | waiting k f seen =>
    simp only [leavesDirectOpen] at hl
    rw [clientStep] at h
    cases hbusy : (k.stabile && (s.files f).status.busy) with
    | true => simp [hbusy] at hl
    | false =>
      simp only [hbusy, Bool.false_eq_true, if_false, Option.some.injEq] at hl
      subst hl
      simp only [directOpenWait, hbusy, Bool.false_eq_true, if_false, Option.ite_none_right_eq_some, Option.some.injEq] at h
      exact ⟨h.2.symm, run_directOpenWaitLocks hbusy⟩
  | _ => cases hl

/-- A step that does not leave `direct_open`, and is not the end of `open`. -/
theorem clientLocks_stays {free : Bool} {pc pc' : Pc} (h : clientStep Γ env free s pc = some (s', pc'))
    (hl : leavesDirectOpen Γ s pc = none) (hne : ∀ full f, pc ≠ .undeduped full f) :
    (Held.between pc).run (clientLocks Γ env s pc) = Held.between pc' := by
  cases pc with
  | opening k =>
    simp only [leavesDirectOpen] at hl
    simp only [clientStep, directOpenStart] at h
    have hrun := run_directOpenLocks Γ env s k
    unfold directOpenEndLocks at hrun
    cases hfind : findFile s k.filename with
    | some f =>
      simp only [hfind] at hl h hrun
      cases hbusy : (k.stabile && (s.files f).status.busy) with
      | false => simp [hbusy] at hl
      | true =>
        have hbusy' := (directOpenFound_busy s f k).trans hbusy
        simp only [directOpenWait, hbusy', if_true, Option.ite_none_right_eq_some, Option.some.injEq] at h
        rw [Held.run_handover, run_directOpenWaitLocks_busy hbusy'] at hrun
        cases h.2.2
        exact hrun
    | none =>
      simp only [hfind] at hl h hrun
      by_cases hlong : s.entries > maxDatabaseLen + s.compEntries
      · simp only [hlong, if_true, Option.ite_none_right_eq_some, Option.some.injEq] at h hrun
        cases h.2
        exact hrun
      · simp [hlong] at hl
  | purging todo k force =>
    cases todo with
    | cons f todo =>
      simp only [clientStep, Option.ite_none_left_eq_some, Option.some.injEq] at h
      cases h.2.2
      exact run_purgeLocks Γ env force s f
    | nil =>
      cases k with
      | none =>
        rw [clientStep] at h
        cases h
        rfl
      | some k => cases hl
  | waiting k f seen =>
    simp only [leavesDirectOpen] at hl
    rw [clientStep] at h
    cases hbusy : (k.stabile && (s.files f).status.busy) with
    | false => simp [hbusy] at hl
    | true =>
      simp only [directOpenWait, hbusy, if_true, Option.ite_none_right_eq_some, Option.some.injEq] at h
      cases h.2
      exact run_directOpenWaitLocks_busy hbusy
  | undeduped full f => exact absurd rfl (hne full f)
  | renamePair src dst a b =>
    rw [clientStep] at h
    split at h
    · cases h
      simp [Held.between, Held.run, Held.apply, clientLocks, Pc.locksDb, Pc.holds]
    · cases h
  | renameSecond src dst a b =>
    rw [clientStep] at h
    split at h
    · rename_i hlock
      cases h
      -- the lock of the first entry is kept and that of the second is free, so these are two
      refine run_renameLocks Γ env s (fun hab => ?_)
      subst hab
      exact Bool.false_ne_true ((lockable_books s hlock.2).2.symm.trans (kept_books s hlock.1).2)
    · cases h
  | fetched d op f =>
    simp only [clientStep, Option.ite_none_right_eq_some, Option.some.injEq] at h
    have hpc : pc' = (descLocked Γ env s d f op).2 := (congrArg Prod.snd h.2).symm
    rw [hpc, descLocked_between]
    exact Held.run_brief (List.not_mem_nil)
  | preaded d f res relock =>
    have hrun : Held.none.run (if relock then brief (.file f) else []) = Held.none := by
      split
      · exact Held.run_brief (by simp [Held.none])
      · rfl
    cases res with
    | some buf =>
      simp only [clientStep, Option.ite_none_left_eq_some, Option.some.injEq] at h
      cases h.2
      exact hrun
    | none =>
      simp only [clientStep, Option.ite_none_left_eq_some, Option.some.injEq] at h
      cases h.2
      exact hrun
  | pwrote d f res =>
    have hrun : Held.none.run (brief (.file f)) = Held.none := Held.run_brief (by simp [Held.none])
    cases res with
    | some len =>
      simp only [clientStep, Option.ite_none_right_eq_some, Option.some.injEq] at h
      cases h.2
      exact hrun
    | none =>
      simp only [clientStep, Option.ite_none_right_eq_some, Option.some.injEq] at h
      cases h.2
      exact hrun
  | _ =>
    simp only [clientStep] at h
    (repeat' split at h) <;> cases h <;> rfl

/-- The end of `open` after `do_undedup`. -/
theorem clientLocks_undeduped {free : Bool} {full : Filename} {f : Nat} {pc' : Pc}
    (h : clientStep Γ env free s (.undeduped full f) = some (s', pc')) :
    (Held.between (.undeduped full f)).run (clientLocks Γ env s (.undeduped full f)) = Held.left f (openForgets env s full) ∧
      ∃ last, pc' = .idle last := by
  refine ⟨run_openFileLocks env s f full, ?_⟩
  rw [clientStep] at h
  split at h
  · cases h
    exact ⟨_, rfl⟩
  · cases h

/-- A step that forgets no lock. -/
theorem clientLocks_kept {free : Bool} {pc pc' : Pc} (h : clientStep Γ env free s pc = some (s', pc'))
    (hf : clientForgets Γ env s pc = false) : (Held.between pc).run (clientLocks Γ env s pc) = Held.between pc' := by
  cases hl : leavesDirectOpen Γ s pc with
  | some r =>
    obtain ⟨hbody, hrun⟩ := clientLocks_leaves h hl
    simp only [clientForgets, hl] at hf
    have hpc : pc' = (callerBody Γ env r.1 r.2.1 r.2.2).2 := congrArg Prod.snd hbody
    rw [hrun, hf, hpc]
    rfl
  | none =>
    by_cases hpc : ∃ full f, pc = .undeduped full f
    · obtain ⟨full, f, rfl⟩ := hpc
      obtain ⟨hrun, last, rfl⟩ := clientLocks_undeduped h
      rw [hrun, show openForgets env s full = false from hf]
      rfl
    · exact clientLocks_stays h hl (fun full f e => hpc ⟨full, f, e⟩)

/-- A step that forgets a lock is the end of the request. -/
theorem clientLocks_forgotten {free : Bool} {pc pc' : Pc} (h : clientStep Γ env free s pc = some (s', pc'))
    (hf : clientForgets Γ env s pc = true) :
    (∃ last, pc' = .idle last) ∧ (Held.between pc).run (clientLocks Γ env s pc) ≠ Held.none := by
  cases hl : leavesDirectOpen Γ s pc with
  | some r =>
    obtain ⟨hbody, hrun⟩ := clientLocks_leaves h hl
    simp only [clientForgets, hl] at hf
    have hpc : pc' = (callerBody Γ env r.1 r.2.1 r.2.2).2 := congrArg Prod.snd hbody
    rw [hrun, hf, hpc]
    exact ⟨callerForgets_idle hf, Held.left_ne _⟩
  | none =>
    cases pc with
    | undeduped full f =>
      obtain ⟨hrun, hidle⟩ := clientLocks_undeduped h
      rw [hrun, show openForgets env s full = true from hf]
      exact ⟨hidle, Held.left_ne _⟩
    | _ => simp [clientForgets, hl] at hf

/-! ## Runs -/

section System

variable {T : Type} [DecidableEq T]

/-- What a thread holds: what it should between two steps, as long as the request has forgotten no lock; a request that has is
over. -/
def LockSys.Kept (L : LockSys T) (t : T) : Prop :=
  (L.forgot t = false ∧ L.held t = Held.between (L.sys.clients t)) ∨
    (L.forgot t = true ∧ L.held t ≠ Held.none ∧ ∃ last, L.sys.clients t = .idle last)

/-- A step of a thread is its critical section. -/
theorem step_client_eq {sys sys' : Sys T} {t : T} (h : sys.step Γ (.client t env) = some sys') :
    ∃ s pc, clientStep Γ env (sys.dbLock = none) sys.shared (sys.clients t) = some (s, pc) ∧ sys' = sys.advance t s pc := by
  simp only [Sys.step, Option.ite_none_left_eq_some, Option.map_eq_some_iff] at h
  obtain ⟨-, ⟨s, pc⟩, hr, rfl⟩ := h
  exact ⟨s, pc, hr, rfl⟩

/-- A thread takes a request. -/
theorem step_request_eq {sys sys' : Sys T} {t : T} {r : Request} (h : sys.step Γ (.request t r) = some sys') :
    sys' = sys.advance t sys.shared (takeRequest Γ sys.shared r) := by
  simp only [Sys.step] at h
  split at h
  · simp only [Option.ite_none_left_eq_some, Option.some.injEq] at h
    exact h.2.symm
  · cases h

/-- The background thread and the clock leave the threads that serve requests where they are. -/
theorem step_clients {sys sys' : Sys T} {l : Label T} (hl : (∃ env, l = .worker env) ∨ l = .tick)
    (h : sys.step Γ l = some sys') : sys'.clients = sys.clients := by
  rcases hl with ⟨env, rfl⟩ | rfl
  · simp only [Sys.step, Option.ite_none_left_eq_some, Option.map_eq_some_iff] at h
    obtain ⟨-, r, -, rfl⟩ := h
    rfl
  · cases h
    rfl

theorem advance_other {sys : Sys T} {t u : T} {s : State} {pc : Pc} (h : u ≠ t) : (sys.advance t s pc).clients u = sys.clients u :=
  Function.update_of_ne h _ _

theorem advance_self {sys : Sys T} {t : T} {s : State} {pc : Pc} : (sys.advance t s pc).clients t = pc :=
  Function.update_self t _ _

/-- A request begins without a lock. -/
theorem LockSys.kept_request {L L' : LockSys T} {t : T} {r : Request} (h : L.step Γ (.request t r) = some L') : L'.Kept t := by
  simp only [LockSys.step, Option.map_eq_some_iff] at h
  obtain ⟨sys', hstep, rfl⟩ := h
  rw [step_request_eq hstep]
  refine Or.inl ⟨Function.update_self t _ _, ?_⟩
  simp only [Function.update_self, advance_self]
  cases r <;> rfl

/-- A step of the thread itself. -/
theorem LockSys.kept_client {L L' : LockSys T} {t : T} (hL : L.Kept t) (h : L.step Γ (.client t env) = some L') :
    L'.Kept t := by
  simp only [LockSys.step, Option.map_eq_some_iff] at h
  obtain ⟨sys', hstep, rfl⟩ := h
  obtain ⟨s, pc, hclient, rfl⟩ := step_client_eq hstep
  rcases hL with ⟨hforgot, hheld⟩ | ⟨-, -, last, hidle⟩
  · unfold LockSys.Kept
    simp only [Function.update_self, advance_self, hforgot, hheld, Bool.false_or]
    cases hf : clientForgets Γ env L.sys.shared (L.sys.clients t) with
    | false => exact Or.inl ⟨rfl, clientLocks_kept hclient hf⟩
    | true =>
      obtain ⟨hlast, hne⟩ := clientLocks_forgotten hclient hf
      exact Or.inr ⟨rfl, hne, hlast⟩
  · rw [hidle] at hclient
    cases hclient

/-- No step of another thread takes or gives back a lock of the thread. -/
theorem LockSys.kept_step {L L' : LockSys T} {t : T} {l : Label T} (hL : L.Kept t) (h : L.step Γ l = some L') : L'.Kept t := by
  cases l with
  | request u r =>
    by_cases hu : t = u
    · subst hu
      exact LockSys.kept_request h
    · simp only [LockSys.step, Option.map_eq_some_iff] at h
      obtain ⟨sys', hstep, rfl⟩ := h
      rw [step_request_eq hstep]
      simpa only [LockSys.Kept, Function.update_of_ne hu, advance_other hu] using hL
  | client u env =>
    by_cases hu : t = u
    · subst hu
      exact LockSys.kept_client hL h
    · simp only [LockSys.step, Option.map_eq_some_iff] at h
      obtain ⟨sys', hstep, rfl⟩ := h
      obtain ⟨s, pc, -, rfl⟩ := step_client_eq hstep
      simpa only [LockSys.Kept, Function.update_of_ne hu, advance_other hu] using hL
  | worker env =>
    simp only [LockSys.step, Option.map_eq_some_iff] at h
    obtain ⟨sys', hstep, rfl⟩ := h
    simpa only [LockSys.Kept, step_clients (.inl ⟨env, rfl⟩) hstep] using hL
  | tick =>
    simp only [LockSys.step, Option.map_eq_some_iff] at h
    obtain ⟨sys', hstep, rfl⟩ := h
    simpa only [LockSys.Kept, step_clients (.inr rfl) hstep] using hL

/-- A request that is over has given back every lock it has taken, and no lock that it did not hold, exactly when it has not met one
of the steps that forget a lock. -/
theorem request_gives_back_locks {L L' : LockSys T} {t : T} {r : Request} {ls : List (Label T)} {last : Option Reply}
    (h : Run (LockSys.step Γ) (fun _ _ => True) L (.request t r :: ls) L') (hidle : L'.sys.clients t = .idle last) :
    L'.held t = Held.none ↔ L'.forgot t = false := by
  cases h with
  | @cons _ L₁ _ _ _ _ hreq hrun =>
    have hstart : L₁.Kept t := LockSys.kept_request hreq
    have hkept : L'.Kept t :=
      hrun.invariant (I := fun L => L.Kept t) (fun _ _ _ hL _ hs => LockSys.kept_step hL hs) hstart
    rcases hkept with ⟨hforgot, hheld⟩ | ⟨hforgot, hheld, -⟩
    · rw [hidle] at hheld
      exact ⟨fun _ => hforgot, fun _ => hheld⟩
    · rw [hforgot]
      exact ⟨fun hnone => absurd hnone hheld, fun hfalse => by cases hfalse⟩

end System

/-- A file is made, opened and read. -/
def openAndRead (t : Fin 1) : List (Label (Fin 1)) :=
  [.client t .fine, .request t (.open ['a'] false), .client t .fine, .request t (.desc 0 (.read 4096 0)), .client t .fine,
    .client t .fine, .client t .fine]

theorem request_gives_back_locks_openAndRead : ∃ L : LockSys (Fin 1),
    Run (LockSys.step .plain) (fun _ _ => True) (LockSys.mounted .empty) (.request 0 (.mknod ['a'] 0o100644 0 0) :: openAndRead 0) L ∧
      (L.held 0 = Held.none ↔ L.forgot 0 = false) := by
  obtain ⟨L, hrun, hidle⟩ := Run.exists_of_executeIf (show (executeIf (LockSys.step .plain) (fun _ _ => True)
    (LockSys.mounted .empty : LockSys (Fin 1)) (.request 0 (.mknod ['a'] 0o100644 0 0) :: openAndRead 0)).any
      (fun L => decide (L.sys.clients 0 = .idle (some (.read [])))) = true by decide +kernel)
  rw [decide_eq_true_eq] at hidle
  exact ⟨L, hrun, request_gives_back_locks hrun hidle⟩

/-- `open` returns with the lock of the file when `fstat` fails. -/
theorem openFstatFails_holds_lock : ¬∀ (r : Request) (ls : List (Label (Fin 1))) (L : LockSys (Fin 1)) (last : Option Reply),
    Run (LockSys.step .plain) (fun _ _ => True) (LockSys.mounted .empty) (.request 0 r :: ls) L →
      L.sys.clients 0 = .idle last → L.held 0 = Held.none := by
  intro h
  obtain ⟨L, hrun, hbad⟩ := Run.exists_of_executeIf (show (executeIf (LockSys.step .plain) (fun _ _ => True)
    (LockSys.mounted .empty : LockSys (Fin 1))
      [.request 0 (.mknod ['a'] 0o100644 0 0), .client 0 .fine, .request 0 (.open ['a'] false),
        .client 0 { Env.fine with ok := fun c => c ≠ .fstat }]).any
      (fun L => decide (L.sys.clients 0 = .idle (some .fail) ∧ (L.held 0).locks = [.file 0])) = true by decide +kernel)
  rw [decide_eq_true_eq] at hbad
  have hheld := h _ _ L _ hrun hbad.1
  rw [hheld] at hbad
  exact absurd hbad.2 (by decide)

end FuseCompress
