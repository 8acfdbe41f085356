import FuseCompress.Lemmas.EntryLocks
import FuseCompress.Lemmas.Progress

/-!
# No deadlock, and every request is answered

A thread that cannot go on waits for `database.lock`, for the lock of an entry or for the background thread, and at the end of such a
chain there is one that can go on. Every step leaves less to do. So without new requests the steps come to an end, and the end is where
every request has been answered and the queue is empty. Two things are left out: a lock that a handler has forgotten, and two requests
to rename that have each locked their first entry; `crossedRenames_stuck` shows what comes of the second.
-/

namespace FuseCompress

section Progress

variable {Γ : Config} {T : Type} [Fintype T] [DecidableEq T] {sys : Sys T}

/-- A thread, or the background thread, has something to do. -/
def Sys.Busy (sys : Sys T) : Option T → Prop
  | some t => ∀ last, sys.clients t ≠ .idle last
  | none => sys.worker ≠ .idle ∨ sys.shared.comp ≠ []

/-- It can go on, whatever the system answers. -/
def Sys.Goes (Γ : Config) (sys : Sys T) : Option T → Prop
  | some t => ∀ env, (sys.step Γ (.client t env)).isSome = true
  | none => ∀ env, (sys.step Γ (.worker env)).isSome = true

/-- The next thing the thread does is to lock the database. -/
def Pc.wantsDb : Pc → Bool
  | .purgeStart _ => true
  | .opening _ => true
  | _ => false

/-- The entry whose lock the next step takes. -/
def Pc.needs (s : State) : Pc → Option Nat
  | .opening k => findFile s k.filename
  | .purging (f :: _) _ force => if (s.files f).accesses = 0 ∨ force then some f else none
  | .waiting _ f _ => some f
  | .renamePair _ _ a _ => some a
  | .renameSecond _ _ _ b => some b
  | .fetched _ _ f => some f
  | .preaded _ f _ relock => if relock then some f else none
  | .pwrote _ f _ => some f
  | _ => none

/-- The entry whose lock the next step of the background thread takes. -/
def WorkerPc.needs : WorkerPc → Option Nat
  | .dequeued f _ => some f
  | .compressing job _ _ => some job.file
  | .hashing f (.finished _) => some f
  | _ => none

/-- The entry whose lock the next step takes. -/
def Sys.needs (sys : Sys T) : Option T → Option Nat
  | some t => (sys.clients t).needs sys.shared
  | none => sys.worker.needs

/-- One waits for the other: for `database.lock`, for the lock of an entry, or, in `direct_open`, for the background thread, which has
been told to stop and has not woken it yet. -/
inductive Sys.WaitsOn (sys : Sys T) : Option T → Option T → Prop
  | database {t u : T} : (sys.clients t).wantsDb = true → sys.dbLock = some u → u ≠ t → WaitsOn sys (some t) (some u)
  | entry {a : Option T} {u : T} {f : Nat} : sys.needs a = some f → (sys.clients u).holds = some f → WaitsOn sys a (some u)
  | background {t : T} {k : Caller} {f seen : Nat} : sys.clients t = .waiting k f seen → (sys.shared.files f).cond = seen →
      sys.worker.window = some f → (sys.shared.files f).status.cancel = true → WaitsOn sys (some t) none

/-- No handler has returned with the lock of an entry. -/
def State.Unleaked (s : State) : Prop := ∀ f, f < s.nextFile → (s.files f).leaked = false

instance (s : State) : Decidable s.Unleaked := inferInstanceAs (Decidable (∀ f, f < s.nextFile → _))

/-- It can go on, or waits for one that can, or for one that waits for one that can, and so on. -/
def Sys.Advances (Γ : Config) (sys : Sys T) (a : Option T) : Prop := ∃ b, Relation.ReflTransGen sys.WaitsOn a b ∧ sys.Goes Γ b

/-- Nobody waits for nothing. -/
def Sys.Progresses (Γ : Config) (sys : Sys T) : Prop := ∀ a, sys.Busy a → sys.Advances Γ a

omit [Fintype T] in
theorem Sys.Goes.advances {a : Option T} (h : sys.Goes Γ a) : sys.Advances Γ a := ⟨a, .refl, h⟩

omit [Fintype T] in
theorem Sys.Advances.of_waits {a b : Option T} (h : sys.Advances Γ b) (hw : sys.WaitsOn a b) : sys.Advances Γ a := by
  obtain ⟨c, hchain, hgoes⟩ := h
  exact ⟨c, .head hw hchain, hgoes⟩

/-- The entry is listed, or a thread relies on it. -/
def Sys.InUse (sys : Sys T) (f : Nat) : Prop :=
  f ∈ sys.shared.database ∨ sys.worker.refs f ≠ 0 ∨
    ∃ t, (sys.clients t).waitsFor = some f ∨ (sys.clients t).onFile = some f ∨ (sys.clients t).refs f ≠ 0

omit [Fintype T] [DecidableEq T] in
/-- An entry in use has not been freed. -/
theorem Sys.InUse.alive {f : Nat} (h : sys.InUse f) (hu : sys.FreedUnused) : sys.shared.freed f = false := by
  by_contra hn
  obtain ⟨hlisted, hclients, -, -, hworker⟩ := hu f (Bool.not_eq_false _ ▸ hn)
  rcases h with h | h | ⟨t, h | h | h⟩
  · exact hlisted h
  · exact h hworker
  · exact (hclients t).1 h
  · exact (hclients t).2.1 h
  · exact h (hclients t).2.2.1

omit [DecidableEq T] in
/-- An entry in use has been made. -/
theorem Sys.InUse.lt {f : Nat} (h : sys.InUse f) (hc : sys.Counted) : f < sys.shared.nextFile := by
  have hfresh := hc.balanced.fresh f
  by_contra hn
  obtain ⟨hhead, -, hrefs⟩ := hfresh (Nat.le_of_not_lt hn)
  unfold Sys.refs at hrefs
  rcases h with h | h | ⟨t, h | h | h⟩
  · exact hn (hc.listed_lt f h)
  · exact h (Nat.eq_zero_of_add_eq_zero_right hrefs)
  · cases hpc : sys.clients t with
    | waiting k g seen =>
      have hknown := hc.known t
      rw [hpc] at h hknown
      cases h
      exact hn hknown.2.1
    | _ =>
      rw [hpc] at h
      cases h
  · obtain ⟨⟨d, g⟩, hd, rfl⟩ := Option.map_eq_some_iff.mp h
    have hm := (hc.balanced.mem_head g d).mpr (hc.desc t d g hd)
    rw [hhead] at hm
    cases hm
  · exact h (Finset.sum_eq_zero_iff.mp (Nat.eq_zero_of_add_eq_zero_left hrefs) t (Finset.mem_univ t))

/-- A state in which nobody waits for nothing: the books are right, the bits of the status are right, nothing in use is freed, every lock
that is kept has its thread, the process has not aborted, no lock has been forgotten and one request to rename at a time has locked its
first entry. -/
structure Sys.Live (sys : Sys T) : Prop where
  filed : sys.Filed
  guarded : sys.Guarded
  unused : sys.FreedUnused
  locking : sys.Locking
  goes : sys.shared.aborted = false
  unleaked : sys.shared.Unleaked
  oneRename : sys.OneRename

omit [DecidableEq T] in
/-- The lock of an entry in use can be taken, or there is a thread that keeps it. -/
theorem Sys.Live.lockable (h : sys.Live) {f : Nat} (hf : sys.InUse f) :
    sys.shared.lockable f = true ∨ ∃ u, (sys.clients u).holds = some f := by
  cases hlocked : (sys.shared.files f).locked with
  | true => exact .inr (h.locking.held f hlocked)
  | false =>
    left
    unfold State.lockable
    rw [hf.alive h.unused, hlocked, h.unleaked f (hf.lt h.filed.counted)]
    rfl

omit [Fintype T] in
theorem Sys.goes_of {t : T} (hgoes : sys.shared.aborted = false)
    (h : ∀ env, (clientStep Γ env (sys.dbLock = none) sys.shared (sys.clients t)).isSome = true) : sys.Goes Γ (some t) := by
  intro env
  rw [Sys.step, hgoes, if_neg Bool.false_ne_true, Option.isSome_map]
  exact h env

omit [DecidableEq T] in
/-- The lock that a thread keeps is there. -/
theorem Sys.Live.kept (h : sys.Live) {t : T} {f : Nat} (ht : (sys.clients t).holds = some f) : sys.shared.kept f = true := by
  obtain ⟨hfreed, hlocked⟩ := h.locking.kept t f ht
  have hfreed : sys.shared.freed f = false := hfreed
  have hlocked : (sys.shared.files f).locked = true := hlocked
  unfold State.kept
  rw [hfreed, hlocked]
  rfl

/-- `open` goes on from `do_undedup`. -/
theorem Sys.Live.undedupedGoes (h : sys.Live) {t : T} {full : Filename} {f : Nat} (ht : sys.clients t = .undeduped full f) :
    sys.Goes Γ (some t) := by
  refine Sys.goes_of h.goes (fun env => ?_)
  rw [ht, clientStep, if_pos (h.kept (t := t) (by rw [ht]; rfl))]
  rfl

/-- A thread that keeps the lock of an entry: `rename` waits at most for a thread in `open`, which goes on. -/
theorem Sys.Live.holder (h : sys.Live) {t : T} {f : Nat} (ht : (sys.clients t).holds = some f) : sys.Advances Γ (some t) := by
  cases hpc : sys.clients t with
  | undeduped full g => exact (h.undedupedGoes hpc).advances
  | renameSecond src dst a b =>
    have ha := h.kept (t := t) (f := a) (by rw [hpc]; rfl)
    have hb : sys.InUse b := .inr (.inr ⟨t, .inr (.inr (by rw [hpc, Pc.refs, if_pos rfl]; omega))⟩)
    rcases h.lockable hb with hlock | ⟨u, hu⟩
    · refine (Sys.goes_of h.goes (fun env => ?_)).advances
      rw [hpc, clientStep, if_pos ⟨ha, hlock⟩]
      rfl
    · refine Sys.Advances.of_waits ?_ (.entry (by rw [Sys.needs, hpc]; rfl) hu)
      cases hupc : sys.clients u with
      | undeduped full g => exact (h.undedupedGoes hupc).advances
      | renameSecond src' dst' a' b' =>
        -- the thread itself, which has found two entries
        obtain rfl := h.oneRename u t (by rw [hupc]; rfl) (by rw [hpc]; rfl)
        have hknown := h.filed.counted.known u
        rw [hpc] at hknown hu
        cases hu
        exact absurd (hknown.2.1.2.symm.trans hknown.2.2.2) hknown.1
      | _ =>
        rw [hupc] at hu
        cases hu
  | _ =>
    rw [hpc] at ht
    cases ht

/-- One that goes on when it gets the lock of an entry in use. -/
theorem Sys.Live.takes (h : sys.Live) {a : Option T} {f : Nat} (hneeds : sys.needs a = some f) (hf : sys.InUse f)
    (hgoes : sys.shared.lockable f = true → sys.Goes Γ a) : sys.Advances Γ a := by
  rcases h.lockable hf with hlock | ⟨u, hu⟩
  · exact (hgoes hlock).advances
  · exact (h.holder hu).of_waits (.entry hneeds hu)

/-- The background thread, at work or with an entry to take. -/
theorem Sys.Live.worker (h : sys.Live) (hw : sys.Busy none) : sys.Advances Γ none := by
  have huse : ∀ f, sys.worker.refs f = 1 → sys.InUse f := fun f hf => .inr (.inl (by rw [hf]; exact Nat.one_ne_zero))
  have hgoes : (∀ env, (workerStep Γ env sys.shared sys.worker).isSome = true) → sys.Goes Γ none := by
    intro hstep env
    rw [Sys.step, h.goes, if_neg Bool.false_ne_true, Option.isSome_map]
    exact hstep env
  cases hpc : sys.worker with
  | idle =>
    refine (hgoes (fun env => ?_)).advances
    rw [hpc, workerStep, Option.isSome_map]
    unfold compDequeue
    rcases hw with hw | hw
    · exact absurd hpc hw
    · split
      · rename_i hnil
        exact absurd hnil hw
      · rfl
  | dequeued f isDedup =>
    refine h.takes (f := f) (by rw [Sys.needs, hpc]; rfl) (huse f (by rw [hpc, WorkerPc.refs, if_pos rfl])) (fun hlock => hgoes (fun env => ?_))
    rw [hpc, workerStep, if_pos hlock]
    rfl
  | compressing job got eof =>
    refine h.takes (f := job.file) (by rw [Sys.needs, hpc]; rfl) (huse job.file (by rw [hpc, WorkerPc.refs, if_pos rfl]))
      (fun hlock => hgoes (fun env => ?_))
    rw [hpc, workerStep, if_pos hlock]
    split <;> rfl
  | hashing f pc =>
    have hf := huse f (by rw [hpc, WorkerPc.refs, if_pos rfl])
    by_cases hend : ∀ hash, pc ≠ .finished hash
    · refine (hgoes (fun env => ?_)).advances
      rw [hpc, workerStep_of_not_finished _ _ _ _ hend, hf.alive h.unused, if_neg Bool.false_ne_true]
      rfl
    · simp only [not_forall, not_not] at hend
      obtain ⟨hash, rfl⟩ := hend
      refine h.takes (f := f) (by rw [Sys.needs, hpc]; rfl) hf (fun hlock => hgoes (fun env => ?_))
      rw [hpc, workerStep, if_pos hlock]
      rfl

/-- The thread that holds `database.lock` waits at most for the lock of an entry. -/
theorem Sys.Live.purger (h : sys.Live) {t : T} (ht : sys.dbLock = some t) : sys.Advances Γ (some t) := by
  obtain ⟨p, hp⟩ := Option.isSome_iff_exists.mp ((h.filed.locked t).mpr ht)
  have htodo := (h.filed.filed.todo p (Sys.purge_of_clients h.filed.locked hp)).2
  have hpc := Pc.purge_eq_some hp
  obtain ⟨todo, k, force⟩ := p
  dsimp only at htodo hpc
  cases todo with
  | nil =>
    refine (Sys.goes_of h.goes (fun env => ?_)).advances
    rw [hpc]
    cases k <;> rfl
  | cons f todo =>
    have hf : sys.InUse f := .inl (htodo f List.mem_cons_self)
    by_cases hlocks : (sys.shared.files f).accesses = 0 ∨ force = true
    · refine h.takes (by rw [Sys.needs, hpc]; exact if_pos hlocks) hf (fun hlock => Sys.goes_of h.goes (fun env => ?_))
      rw [hpc, clientStep, hf.alive h.unused, if_neg Bool.false_ne_true, hlock, if_neg (by simp)]
      rfl
    · refine (Sys.goes_of h.goes (fun env => ?_)).advances
      rw [not_or, Bool.not_eq_true] at hlocks
      rw [hpc, clientStep, hf.alive h.unused, if_neg Bool.false_ne_true, if_neg (by simp [hlocks])]
      rfl

/-- A thread that wants `database.lock`: one has it, or the thread takes it and needs at most the lock of an entry. -/
theorem Sys.Live.wantsDb (h : sys.Live) {t : T} (hdb : (sys.clients t).wantsDb = true) : sys.Advances Γ (some t) := by
  cases hlock : sys.dbLock with
  | some u =>
    refine (h.purger hlock).of_waits (.database hdb hlock ?_)
    rintro rfl
    obtain ⟨p, hp⟩ := Option.isSome_iff_exists.mp ((h.filed.locked u).mpr hlock)
    rw [Pc.purge_eq_some hp] at hdb
    cases hdb
  | none =>
    have hfree : decide (sys.dbLock = none) = true := decide_eq_true hlock
    cases hpc : sys.clients t with
    | purgeStart force =>
      refine (Sys.goes_of h.goes (fun env => ?_)).advances
      rw [hpc, hfree]
      rfl
    | opening k =>
      cases hfind : findFile sys.shared k.filename with
      | some f =>
        refine h.takes (f := f) (by rw [Sys.needs, hpc]; exact hfind) (.inl (List.mem_of_find?_eq_some hfind))
          (fun hlock => Sys.goes_of h.goes (fun env => ?_))
        rw [hpc, hfree, clientStep, if_pos rfl]
        unfold directOpenStart
        rw [hfind]
        dsimp only
        rw [if_pos hlock]
        rfl
      | none =>
        refine (Sys.goes_of h.goes (fun env => ?_)).advances
        rw [hpc, hfree, clientStep, if_pos rfl]
        unfold directOpenStart
        rw [hfind]
        dsimp only
        split <;> rfl
    | _ =>
      rw [hpc] at hdb
      cases hdb

/-- A thread that neither holds `database.lock` nor wants it. -/
theorem Sys.Live.client (h : sys.Live) {t : T} (hpurge : (sys.clients t).purge = none) (hdb : (sys.clients t).wantsDb = false)
    (hidle : ∀ last, sys.clients t ≠ .idle last) : sys.Advances Γ (some t) := by
  have hserved : ∀ f, (sys.clients t).onFile = some f → sys.InUse f := fun f hf => .inr (.inr ⟨t, .inr (.inl hf)⟩)
  have hcounted : ∀ f, (sys.clients t).refs f ≠ 0 → sys.InUse f := fun f hf => .inr (.inr ⟨t, .inr (.inr hf)⟩)
  have hgoes : (∀ env, (clientStep Γ env (sys.dbLock = none) sys.shared (sys.clients t)).isSome = true) → sys.Goes Γ (some t) :=
    Sys.goes_of h.goes
  cases hpc : sys.clients t with
  | idle last => exact absurd hpc (hidle last)
  | purgeStart force =>
    rw [hpc] at hdb
    cases hdb
  | opening k =>
    rw [hpc] at hdb
    cases hdb
  | purging todo k force =>
    rw [hpc] at hpurge
    cases hpurge
  | getattrStat full =>
    refine (hgoes (fun env => ?_)).advances
    rw [hpc, clientStep]
    split
    · rfl
    · split <;> rfl
  | utimeStat full c =>
    refine (hgoes (fun env => ?_)).advances
    rw [hpc, clientStep]
    split <;> rfl
  | mkdir full =>
    refine (hgoes (fun env => ?_)).advances
    rw [hpc, clientStep]
    split <;> rfl
  | rmdir full =>
    refine (hgoes (fun env => ?_)).advances
    rw [hpc, clientStep]
    split <;> rfl
  | waiting k f seen =>
    by_cases hseen : (sys.shared.files f).cond = seen
    · have hcancel := (h.guarded.waits t k f seen hpc).2 hseen.symm
      have hwindow := h.guarded.windowed.cancel f hcancel
      refine (h.worker (.inl fun hw => ?_)).of_waits (.background hpc hseen hwindow hcancel)
      rw [hw] at hwindow
      cases hwindow
    · refine h.takes (f := f) (by rw [Sys.needs, hpc]; rfl) (.inr (.inr ⟨t, .inl (by rw [hpc]; rfl)⟩)) (fun hlock => hgoes (fun env => ?_))
      rw [hpc, clientStep, if_pos ⟨hseen, hlock⟩]
      rfl
  | undeduped full f => exact (h.undedupedGoes hpc).advances
  | renamePair src dst a b =>
    refine h.takes (f := a) (by rw [Sys.needs, hpc]; rfl) (hcounted a (by rw [hpc, Pc.refs, if_pos rfl]; omega))
      (fun hlock => hgoes (fun env => ?_))
    rw [hpc, clientStep, if_pos hlock]
    rfl
  | renameSecond src dst a b => exact h.holder (f := a) (by rw [hpc]; rfl)
  | linking src dst =>
    refine (hgoes (fun env => ?_)).advances
    rw [hpc]
    rfl
  | fetched d op f =>
    refine h.takes (f := f) (by rw [Sys.needs, hpc]; rfl) (hserved f (by rw [hpc]; rfl)) (fun hlock => hgoes (fun env => ?_))
    rw [hpc, clientStep, if_pos hlock]
    rfl
  | preading d f fd size offset served relock =>
    refine (hgoes (fun env => ?_)).advances
    rw [hpc]
    rfl
  | preaded d f res relock =>
    have hf := hserved f (by rw [hpc]; rfl)
    have hstep : relock = false ∨ sys.shared.lockable f = true → sys.Goes Γ (some t) := by
      intro hlock
      refine hgoes (fun env => ?_)
      cases res with
      | some buf =>
        rw [hpc, clientStep, if_neg (by rcases hlock with hlock | hlock <;> simp [hlock])]
        rfl
      | none =>
        rw [hpc, clientStep, hf.alive h.unused, if_neg (by rcases hlock with hlock | hlock <;> simp [hlock])]
        rfl
    cases relock with
    | false => exact (hstep (.inl rfl)).advances
    | true => exact h.takes (f := f) (by rw [Sys.needs, hpc]; rfl) hf (fun hlock => hstep (.inr hlock))
  | pwriting d f fd buf offset =>
    refine (hgoes (fun env => ?_)).advances
    rw [hpc, clientStep]
    split <;> rfl
  | pwrote d f res =>
    refine h.takes (f := f) (by rw [Sys.needs, hpc]; rfl) (hserved f (by rw [hpc]; rfl)) (fun hlock => hgoes (fun env => ?_))
    cases res with
    | some len =>
      rw [hpc, clientStep, if_pos hlock]
      rfl
    | none =>
      rw [hpc, clientStep, if_pos hlock]
      rfl
  | attr full c pc =>
    refine (hgoes (fun env => ?_)).advances
    rw [hpc, clientStep]
    split <;> rfl

/-- In a live state nobody waits for nothing. -/
theorem Sys.Live.progresses (h : sys.Live) : sys.Progresses Γ := by
  intro a ha
  cases a with
  | none => exact h.worker ha
  | some t =>
    by_cases hdb : (sys.clients t).wantsDb = true
    · exact h.wantsDb hdb
    · rw [Bool.not_eq_true] at hdb
      cases hp : (sys.clients t).purge with
      | some p => exact h.purger ((h.filed.locked t).mp (by rw [hp]; rfl))
      | none => exact h.client hp hdb ha

/-- In every state of a run that frees nothing a thread waits for, hashes what can be read and moves no descriptor under a request. -/
theorem Sys.live_of_run {fs : Backing} {ls : List (Label T)}
    (h : Run (Sys.step Γ) (fun sys l => ((sys.Promised l ∧ sys.Unmoved Γ l) ∧ sys.Hashes Γ l) ∧ sys.Requeues Γ l) (Sys.mounted fs)
      ls sys) (hgoes : sys.shared.aborted = false) (hlocks : sys.shared.Unleaked) (hrename : sys.OneRename) : sys.Live := by
  obtain ⟨hf, hg, hw, hl⟩ := h.invariant (I := fun sys => sys.Filed ∧ sys.Guarded ∧ sys.Waitable ∧ sys.Locking)
    (fun sys l sys' hinv hok hs => ⟨hinv.1.step hok.1.1 hs, hinv.2.1.step hok.1 hs, hinv.1.step_waitable hinv.2.2.1 hok.2 hs,
      hinv.1.step_locking hinv.2.2.2 hs⟩)
    ⟨Sys.filed_mounted fs, Sys.guarded_mounted fs, fun t f hf => (by cases hf), Sys.locking_mounted fs⟩
  exact ⟨hf, hg, hf.freedUnused hw hl, hl, hgoes, hlocks, hrename⟩

/-- In every state of a run that frees nothing a thread waits for, hashes what can be read and moves no descriptor under a request,
there is no deadlock, unless the process has aborted, a handler has forgotten a lock, or two requests to rename have each locked their
first entry. -/
theorem no_deadlock {fs : Backing} {ls : List (Label T)}
    (h : Run (Sys.step Γ) (fun sys l => ((sys.Promised l ∧ sys.Unmoved Γ l) ∧ sys.Hashes Γ l) ∧ sys.Requeues Γ l) (Sys.mounted fs)
      ls sys) (hgoes : sys.shared.aborted = false) (hlocks : sys.shared.Unleaked) (hrename : sys.OneRename) : sys.Progresses Γ :=
  (Sys.live_of_run h hgoes hlocks hrename).progresses

/-- Every request has been answered, and there is nothing left for the background thread. -/
def Sys.Quiet (sys : Sys T) : Prop := ∀ a, ¬sys.Busy a

omit [Fintype T] in
theorem Sys.not_goes_of_stuck {a : Option T} (h : Stuck (Sys.step Γ) (fun _ l => l.isWork = true) sys) : ¬sys.Goes Γ a := by
  intro hgoes
  cases a with
  | none =>
    have hstep := hgoes Env.fine
    rw [h (.worker .fine) rfl] at hstep
    cases hstep
  | some t =>
    have hstep := hgoes Env.fine
    rw [h (.client t .fine) rfl] at hstep
    cases hstep

omit [Fintype T] in
/-- Where no step is possible, every request has been answered. -/
theorem Sys.Progresses.quiet (h : sys.Progresses Γ) (hstuck : Stuck (Sys.step Γ) (fun _ l => l.isWork = true) sys) : sys.Quiet := by
  intro a ha
  obtain ⟨b, -, hgoes⟩ := h a ha
  exact Sys.not_goes_of_stuck hstuck hgoes

/-- Without new requests the steps come to an end, in whatever order the threads take them; and where they have, every request has
been answered and the queue is empty, unless the process has aborted, a handler has forgotten a lock, or two requests to rename have
each locked their first entry. -/
theorem requests_answered {fs : Backing} {ls : List (Label T)}
    (h : Run (Sys.step Γ) (fun sys l => ((sys.Promised l ∧ sys.Unmoved Γ l) ∧ sys.Hashes Γ l) ∧ sys.Requeues Γ l) (Sys.mounted fs)
      ls sys) :
    (¬∃ r : Nat → Sys T, r 0 = sys ∧ Endless (Sys.step Γ) (fun _ l => l.isWork = true) r) ∧
      ∀ (ls' : List (Label T)) (sys' : Sys T), Run (Sys.step Γ) (fun sys l => l.isWork = true ∧
          ((sys.Promised l ∧ sys.Unmoved Γ l) ∧ sys.Hashes Γ l) ∧ sys.Requeues Γ l) sys ls' sys' →
        Stuck (Sys.step Γ) (fun _ l => l.isWork = true) sys' → sys'.shared.aborted = false → sys'.shared.Unleaked → sys'.OneRename →
          sys'.Quiet := by
  constructor
  · rintro ⟨r, -, hr⟩
    exact not_endless (Sys.measure Γ) (fun _ _ _ hl hs => Sys.measure_step hl hs) r hr
  · intro ls' sys' hrun hstuck hgoes hlocks hrename
    have hinv := h.append (hrun.mono (fun _ _ hok => hok.2))
    exact (Sys.live_of_run hinv hgoes hlocks hrename).progresses.quiet hstuck

end Progress

/-- The thread that removes the file has not woken yet. -/
theorem no_deadlock_purgeBeforeWake : ∃ sys : Sys (Fin 2),
    Run (Sys.step .anySize) (fun sys l => ((sys.Promised l ∧ sys.Unmoved .anySize l) ∧ sys.Hashes .anySize l) ∧ sys.Requeues .anySize l)
      (Sys.mounted .oneFile) (purgeBeforeWake 0 1 .fine) sys ∧ sys.Progresses .anySize := by
  obtain ⟨sys, h, hend⟩ := Run.exists_of_executeIf (show (executeIf (Sys.step .anySize)
    (fun sys l => ((sys.Promised l ∧ sys.Unmoved .anySize l) ∧ sys.Hashes .anySize l) ∧ sys.Requeues .anySize l)
      (Sys.mounted .oneFile : Sys (Fin 2)) (purgeBeforeWake 0 1 .fine)).any
        (fun sys => decide ((sys.shared.aborted = false ∧ sys.shared.Unleaked) ∧ sys.OneRename)) = true by decide +kernel)
  rw [decide_eq_true_eq] at hend
  exact ⟨sys, h, no_deadlock h hend.1.1 hend.1.2 hend.2⟩

theorem Sys.stuck_of_quiet {Γ : Config} {T : Type} [DecidableEq T] {sys : Sys T} (h : sys.Quiet) :
    Stuck (Sys.step Γ) (fun _ l => l.isWork = true) sys := by
  intro l hl
  cases l with
  | client t env =>
    have hidle : ¬∀ last, sys.clients t ≠ .idle last := h (some t)
    simp only [not_forall, not_not] at hidle
    obtain ⟨last, hidle⟩ := hidle
    rw [Sys.step, hidle]
    split <;> rfl
  | worker env =>
    have hidle := h none
    rw [Sys.Busy, not_or, not_not, not_not] at hidle
    rw [Sys.step, hidle.1, workerStep, compDequeue, hidle.2]
    split <;> rfl
  | request t r => cases hl
  | tick => cases hl

/-- The same, and then the thread wakes and the background thread comes to the end of the queue. -/
def purgeAndWake {T : Type} (t u : T) : List (Label T) := purgeBeforeWake t u .fine ++ [.client u .fine, .worker .fine, .worker .fine]

theorem requests_answered_purgeAndWake : ∃ sys : Sys (Fin 2),
    Run (Sys.step .anySize) (fun sys l => ((sys.Promised l ∧ sys.Unmoved .anySize l) ∧ sys.Hashes .anySize l) ∧ sys.Requeues .anySize l)
      (Sys.mounted .oneFile) (purgeAndWake 0 1) sys ∧
        (¬∃ r : Nat → Sys (Fin 2), r 0 = sys ∧ Endless (Sys.step .anySize) (fun _ l => l.isWork = true) r) ∧ sys.Quiet := by
  obtain ⟨sys, h, hend⟩ := Run.exists_of_executeIf (show (executeIf (Sys.step .anySize)
    (fun sys l => ((sys.Promised l ∧ sys.Unmoved .anySize l) ∧ sys.Hashes .anySize l) ∧ sys.Requeues .anySize l)
      (Sys.mounted .oneFile : Sys (Fin 2)) (purgeAndWake 0 1)).any
        (fun sys => decide ((sys.shared.aborted = false ∧ sys.shared.Unleaked ∧ sys.OneRename) ∧
          (∀ t, sys.clients t = .idle (some .ok)) ∧ sys.worker = .idle ∧ sys.shared.comp = [])) = true by decide +kernel)
  obtain ⟨⟨hgoes, hlocks, hrename⟩, hidle, hworker, hcomp⟩ := of_decide_eq_true hend
  have hquiet : sys.Quiet := by
    rintro (_ | t) hbusy
    · exact hbusy.elim (fun hw => hw hworker) (fun hc => hc hcomp)
    · exact hbusy _ (hidle t)
  have hanswered := requests_answered h
  exact ⟨sys, h, hanswered.1, hanswered.2 [] sys (.nil _) (Sys.stuck_of_quiet hquiet) hgoes hlocks hrename⟩

/-- Two files are renamed to each other's names at once, and both requests lock their first entry. -/
def crossedRenames {T : Type} (t u : T) : List (Label T) :=
  [.request t (.mknod ['a'] 0o100644 0 0), .client t .fine, .request t (.mknod ['b'] 0o100644 0 0), .client t .fine,
   .request t (.rename ['a'] ['b']), .client t .fine, .client t .fine,
   .request u (.rename ['b'] ['a']), .client u .fine, .client u .fine, .client t .fine, .client u .fine]

/-- The condition on renames is needed: no step is left, and neither request has been answered. -/
theorem crossedRenames_stuck : ∃ sys : Sys (Fin 2),
    Run (Sys.step .plain) (fun sys l => ((sys.Promised l ∧ sys.Unmoved .plain l) ∧ sys.Hashes .plain l) ∧ sys.Requeues .plain l)
      (Sys.mounted .empty) (crossedRenames 0 1) sys ∧ (sys.shared.aborted = false ∧ sys.shared.Unleaked) ∧
        Stuck (Sys.step .plain) (fun _ l => l.isWork = true) sys ∧ ∀ t, sys.Busy (some t) := by
  obtain ⟨sys, h, hend⟩ := Run.exists_of_executeIf (show (executeIf (Sys.step .plain)
    (fun sys l => ((sys.Promised l ∧ sys.Unmoved .plain l) ∧ sys.Hashes .plain l) ∧ sys.Requeues .plain l)
      (Sys.mounted .empty : Sys (Fin 2)) (crossedRenames 0 1)).any
        (fun sys => decide ((sys.shared.aborted = false ∧ sys.shared.Unleaked) ∧
          (sys.clients 0 = .renameSecond ['a'] ['b'] 0 1 ∧ sys.clients 1 = .renameSecond ['b'] ['a'] 1 0) ∧
          (sys.shared.lockable 0 = false ∧ sys.shared.lockable 1 = false) ∧ sys.worker = .idle ∧ sys.shared.comp = [])) = true by
      decide +kernel)
  obtain ⟨halive, ⟨h0, h1⟩, ⟨hlock0, hlock1⟩, hworker, hcomp⟩ := of_decide_eq_true hend
  have hblocked : ∀ t env, clientStep .plain env (sys.dbLock = none) sys.shared (sys.clients t) = none :=
    Fin.forall_fin_two.mpr ⟨fun env => by rw [h0, clientStep, hlock1, if_neg (by simp)],
      fun env => by rw [h1, clientStep, hlock0, if_neg (by simp)]⟩
  refine ⟨sys, h, halive, fun l hl => ?_, Fin.forall_fin_two.mpr ⟨fun last hlast => ?_, fun last hlast => ?_⟩⟩
  · cases l with
    | client t env =>
      rw [Sys.step, halive.1, if_neg Bool.false_ne_true, Option.map_eq_none_iff]
      exact hblocked t env
    | worker env =>
      rw [Sys.step, hworker, workerStep, compDequeue, hcomp]
      split <;> rfl
    | request t r => cases hl
    | tick => cases hl
  · cases h0.symm.trans hlast
  · cases h1.symm.trans hlast

end FuseCompress
