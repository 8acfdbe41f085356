import FuseCompress.Lemmas.EntryLocks
import FuseCompress.Lemmas.Isolation

/-!
# Plain requests and the background thread

The whole program when files are only made, opened, looked at, read, written, cut, closed and removed, while the database is purged
and the background thread works. What a step of a thread does to the backing directory (`ClientEffects`, `WorkerEffects`) keeps the
descriptors for writing where they are (`Sys.Homed`).
-/

namespace FuseCompress

variable {vis : Filename → Prop} {s s' : State}

/-- The request makes, opens, looks at, cuts or removes a file, is made on a descriptor, or purges the database. -/
def Request.plain : Request → Bool
  | .getattr _ => true
  | .mknod _ _ _ _ => true
  | .unlink _ => true
  | .truncate _ _ => true
  | .open _ _ => true
  | .desc _ _ => true
  | .purge => true
  | _ => false

/-- Whatever the kernel asks for is plain. -/
def Label.plain {T : Type} : Label T → Bool
  | .request _ r => r.plain
  | _ => true

theorem takeRequest_plain (Γ : Config) (s : State) {r : Request} (h : r.plain = true) : (takeRequest Γ s r).plain = true := by
  cases r <;> first | rfl | cases h

/-! ## What a step keeps -/

section Books

variable {b b' : Books} {f : Nat} {k : Caller} {pc pc' : Pc} {free : Bool} {wants : Nat → Prop}

theorem Body.writable (hb : Body b f k b' pc') {d : Nat} (hd : d < b.nextDesc) : b'.writable d = b.writable d := by
  cases hb with
  | done _ ha _ _ => rcases ha with rfl | ⟨_, rfl⟩ <;> rfl
  | opened => exact Function.update_of_ne (Nat.ne_of_lt hd) _ _
  | _ => rfl

theorem Enter.writable (he : Enter b f k b' pc') {d : Nat} (hd : d < b.nextDesc) : b'.writable d = b.writable d := by
  cases he with
  | wait => rfl
  | body _ hb => exact hb.writable hd

/-- A descriptor stays open for what it has been opened for. -/
theorem ClientStep.writable (hs : ClientStep free wants b pc b' pc') {d : Nat} (hd : d < b.nextDesc) : b'.writable d = b.writable d := by
  cases hs with
  | found _ _ _ _ he => exact he.writable hd
  | new _ _ hb => exact hb.writable hd
  | @purgeUsed f todo k force _ _ => cases force <;> rfl
  | purgeNew hb => exact hb.writable hd
  | wake _ _ he => exact he.writable hd
  | locked _ _ ha _ => rcases ha with rfl | ⟨_, rfl⟩ <;> rfl
  | opened => exact Function.update_of_ne (Nat.ne_of_lt hd) _ _
  | _ => rfl

theorem WorkerStep.writable {w w' : WorkerPc} (hs : WorkerStep b w b' w') : b'.writable = b.writable := by
  cases hs <;> rfl

end Books

/-- What a later state keeps: the inodes from before get no name and a new one gets one, entries keep their names, and descriptors stay
open for what they have been opened for. -/
structure State.Evolves (s s' : State) : Prop where
  next : s.fs.next ≤ s'.fs.next
  named : ∀ q i, i < s.fs.next → s'.fs.inoOf q = some i → s.fs.inoOf q = some i
  fresh : ∀ p q i, s.fs.next ≤ i → s'.fs.inoOf p = some i → s'.fs.inoOf q = some i → p = q
  filename : ∀ g, g < s.nextFile → (s'.files g).filename = (s.files g).filename
  writable : ∀ d, d < s.nextDesc → (s'.descs d).writable = (s.descs d).writable

/-- What only one name reaches no other name reaches later. -/
theorem State.Evolves.only (h : s.Evolves s') {p : Filename} {i : Nat} (ho : s.fs.Only vis p i) : s'.fs.Only vis p i :=
  ⟨Nat.lt_of_lt_of_le ho.lt h.next, fun q hv hq => ho.names q hv (h.named q i ho.lt hq)⟩

/-- A file that has one name keeps one. -/
theorem State.Evolves.sole (h : s.Evolves s') {full : Filename} (ho : s.fs.Sole vis full) : s'.fs.Sole vis full := by
  intro i hi p hv hp
  by_cases hlt : i < s.fs.next
  · exact ho i (h.named full i hlt hi) p hv (h.named p i hlt hp)
  · exact h.fresh p full i (Nat.le_of_not_lt hlt) hp hi

/-- Nothing happens to the names. -/
theorem State.Homed.unnamed (h : s.Homed vis) {b : Backing} (hb : ∀ p, b.inoOf p = s.fs.inoOf p) {p q : Filename} {i : Nat}
    (hi : s.fs.next ≤ i) (hp : b.inoOf p = some i) : p = q :=
  absurd (h.named p i ((hb p).symm.trans hp)) (Nat.not_lt.mpr hi)

section Client

variable {pc pc' : Pc}

/-- The state a handler starts in. -/
theorem Works.start {s₀ : State} {f : Nat} {w : Option Nat} (hs : Works s s₀ f) (h : s.Homed vis)
    (hw : ∀ d, w = some d → (s.descs d).writable = true) : s₀.Homed vis ∧ s₀.Fresh vis f s.fs.next w := by
  have h₀ : s₀.Homed vis := hs.calm.homed h (fun d hd => by cases hd)
  refine ⟨h₀, ?_⟩
  rw [← hs.calm.fs]
  refine h₀.fresh hs.lt (fun d hd => ?_)
  rw [(hs.calm.desc d).writable]
  exact hw d hd

theorem ClientEffects.homed (he : ClientEffects vis s s' pc) (h : s.Homed vis)
    (hw : ∀ d buf offset f, pc = .fetched d (.write buf offset) f → (s.descs d).writable = true) : s'.Homed vis := by
  cases he with
  | calm hc => exact hc.homed h (fun d hd => by cases hd)
  | pwrite _ hs =>
    subst hs
    exact h.with_fs (fun _ _ hi => hi) (Nat.le_refl _)
  | handler hs he hpc =>
    obtain ⟨h₀, hf⟩ := hs.start h (fun d hd => by
      obtain ⟨buf, offset, hpc⟩ := hpc d hd
      exact hw d buf offset _ hpc)
    exact (he.homed h₀ hf).1

/-- No inode gets a second name. -/
theorem ClientEffects.single (he : ClientEffects vis s s' pc) (h : s.Homed vis) (hs : s.fs.Single vis)
    (hw : ∀ d buf offset f, pc = .fetched d (.write buf offset) f → (s.descs d).writable = true) : s'.fs.Single vis := by
  cases he with
  | calm hc =>
    rw [hc.fs]
    exact hs
  | pwrite _ e =>
    subst e
    exact hs
  | handler hworks he hpc =>
    obtain ⟨h₀, hf⟩ := hworks.start h (fun d hd => by
      obtain ⟨buf, offset, hpc⟩ := hpc d hd
      exact hw d buf offset _ hpc)
    refine he.single h₀ hf ?_
    rw [hworks.calm.fs]
    exact hs

theorem ClientEffects.evolves {free : Bool} {wants : Nat → Prop} (he : ClientEffects vis s s' pc) (h : s.Homed vis)
    (hw : ∀ d buf offset f, pc = .fetched d (.write buf offset) f → (s.descs d).writable = true)
    (hs : ClientStep free wants s.books pc s'.books pc') : s.Evolves s' := by
  refine ⟨?_, fun q i hi hq => ?_, fun p q i hi hp hq => ?_, fun g hg => hs.keeps.filename g hg, fun d hd => hs.writable hd⟩
  · cases he with
    | calm hc => exact le_of_eq (congrArg Backing.next hc.fs).symm
    | pwrite _ e =>
      subst e
      exact Nat.le_refl _
    | handler hworks he _ =>
      rw [← hworks.calm.fs]
      exact he.next_le
  · cases he with
    | calm hc => rwa [hc.fs] at hq
    | pwrite _ e =>
      subst e
      exact hq
    | handler hworks he _ =>
      rw [← hworks.calm.fs]
      exact he.named hi hq
  · cases he with
    | calm hc => exact h.unnamed (fun p => by rw [hc.fs]) hi hp
    | pwrite _ e =>
      subst e
      exact h.unnamed (fun _ => rfl) hi hp
    | handler hworks he hpc =>
      obtain ⟨h₀, hf⟩ := hworks.start h (fun d hd => by
        obtain ⟨buf, offset, hpc⟩ := hpc d hd
        exact hw d buf offset _ hpc)
      have hnames := (he.homed h₀ hf).2.names
      exact (hnames p i hp hi).trans (hnames q i hq hi).symm

end Client

/-! ## The background thread -/

/-- What a step of the background thread does to the backing directory: nothing, the end of `do_compress`, or the end of
`do_dedup`. -/
inductive WorkerEffects (vis : Filename → Prop) (s s' : State) (w : WorkerPc) : Prop
  | calm : Calm none s s' → WorkerEffects vis s s' w
  | compressed {job : Job} {got : Bytes} {eof : Bool} : w = .compressing job got eof →
      Effects vis job.file none s.fs.next s s' → WorkerEffects vis s s' w
  | deduped {f : Nat} {hash : Option (List UInt8)} : w = .hashing f (.finished hash) → WorkerEffects vis s s' w

theorem calm_hashStep (Γ : Config) (env : Env) (name : Filename) (pc : HashPc) : Calm none s (hashStep Γ env s name pc).1 := by
  cases pc with
  | start =>
    rw [hashStep]
    split
    · exact .refl _ _
    · split
      · exact .refl _ _
      · exact .refl _ _
      · exact calm_abort
      · split <;> exact .refl _ _
  | raw i got =>
    rw [hashStep]
    split
    · exact .refl _ _
    · split <;> exact .refl _ _
  | packed i m got =>
    rw [hashStep]
    split
    · exact .refl _ _
    · dsimp only
      split <;> exact .refl _ _
  | finished hash => exact .refl _ _

theorem calm_workerProcess (Γ : Config) (env : Env) (f : Nat) (isDedup : Bool) : Calm none s (workerProcess Γ env s f isDedup).1 := by
  unfold workerProcess
  dsimp only
  have h1 : Calm none s (s.assert Γ (decide ((s.files f).accesses > 0))) := calm_assert Γ _
  refine h1.trans ?_
  generalize s.assert Γ (decide ((s.files f).accesses > 0)) = s₁
  split
  · split
    · have hbegin : Calm none s₁ (doDedupBegin s₁ f) := calm_modFile f (fun _ => rfl)
      exact hbegin
    · exact calm_compFinish Γ s₁ f true
  · split
    · have h2 : Calm none s₁ (doCompressBegin Γ env s₁ f).1 := calm_doCompressBegin Γ env s₁ f
      generalize doCompressBegin Γ env s₁ f = r at h2
      obtain ⟨s₂, job⟩ := r
      cases job with
      | some job => exact h2
      | none => exact h2.trans (calm_compFinish Γ s₂ f false)
    · exact calm_compFinish Γ s₁ f false

theorem workerStep_effects {Γ : Config} {env : Env} {w w' : WorkerPc} (h : workerStep Γ env s w = some (s', w')) :
    WorkerEffects vis s s' w := by
  cases w with
  | idle =>
    rw [workerStep, Option.map_eq_some_iff] at h
    obtain ⟨⟨s₁, entry⟩, hd, e⟩ := h
    cases e
    obtain ⟨_, hs⟩ := compDequeue_spec hd
    have hcalm : Calm none s s₁ := by
      rw [hs]
      exact .of_eq rfl rfl (fun _ => rfl) rfl
    exact .calm hcalm
  | dequeued f isDedup =>
    rw [workerStep] at h
    split at h
    · have hcalm : Calm none s (workerProcess Γ env s f isDedup).1 := calm_workerProcess Γ env f isDedup
      generalize workerProcess Γ env s f isDedup = r at h hcalm
      cases h
      exact .calm hcalm
    · cases h
  | compressing job got eof =>
    rw [workerStep] at h
    split at h
    · cases h
      exact .calm (.refl _ _)
    · split at h
      · have he : Effects vis job.file none s.fs.next s (doCompressEnd Γ env s job got eof).1 :=
          effects_doCompressEnd Γ env s job got eof (Nat.le_refl _)
        cases h
        exact .compressed rfl (he.trans (calm_compFinish Γ _ job.file false).effects)
      · cases h
  | hashing f pc =>
    have hgo : (if s.freed f then none else let r := hashStep Γ env s (s.files f).filename pc; some (r.1, WorkerPc.hashing f r.2)) =
        some (s', w') → WorkerEffects vis s s' (.hashing f pc) := by
      intro h
      split at h
      · cases h
      · have hcalm : Calm none s (hashStep Γ env s (s.files f).filename pc).1 := calm_hashStep Γ env (s.files f).filename pc
        dsimp only at h
        generalize hashStep Γ env s (s.files f).filename pc = r at h hcalm
        cases h
        exact .calm hcalm
    cases pc with
    | finished hash => exact .deduped rfl
    | start => exact hgo h
    | raw ino got => exact hgo h
    | packed ino m got => exact hgo h

/-! ## The system -/

section System

variable {T : Type} [Fintype T] [DecidableEq T] {Γ : Config} {sys sys' : Sys T} {l : Label T}

/-- Nothing but plain requests is under way, the descriptors for writing have inodes open that no name but theirs reaches, and so
have every write that is under way without a lock and every file that is about to be opened for writing. -/
structure Sys.Homed (vis : Filename → Prop) (sys : Sys T) : Prop where
  shared : sys.shared.Homed vis
  plain : ∀ t, (sys.clients t).plain = true
  pwrites : ∀ t d f fd buf offset, sys.clients t = .pwriting d f (some fd) buf offset →
    sys.shared.fs.Only vis (sys.shared.files f).filename fd.ino
  undeduped : ∀ t full f, sys.clients t = .undeduped full f → sys.shared.fs.Sole vis full
  requests : ∀ t d buf offset f, sys.clients t = .fetched d (.write buf offset) f → (sys.shared.descs d).writable = true

/-- The accounts are right, every name has one entry, every lock that is kept one thread, and the descriptors for writing are where
they belong. -/
structure Sys.Orderly (vis : Filename → Prop) (sys : Sys T) : Prop where
  filed : sys.Filed
  unique : sys.shared.books.Unique sys.purge
  locking : sys.Locking
  homed : sys.Homed vis

omit [DecidableEq T] in
theorem Sys.orderly_mounted {fs : Backing} (h : ∀ p i, fs.inoOf p = some i → i < fs.next) : (Sys.mounted fs : Sys T).Orderly vis where
  filed := Sys.filed_mounted fs
  unique := ⟨fun f hf => (by cases hf), fun f hf => absurd hf (Nat.not_lt_zero f), rfl, fun k hk => (by cases hk)⟩
  locking := Sys.locking_mounted fs
  homed := ⟨⟨h, fun d fd hd => (by cases hd), fun d hd => (by obtain ⟨_, hd⟩ := hd; cases hd)⟩, fun _ => rfl,
    fun t d f fd buf offset hd => (by cases hd), fun t full f hd => (by cases hd), fun t d buf offset f hd => (by cases hd)⟩

omit [DecidableEq T] in
/-- The entry of a descriptor that is open. -/
theorem Sys.Counted.owner_lt (h : sys.Counted) {d f : Nat} (hd : sys.shared.books.live d = true) (hf : sys.shared.books.owner d = f) :
    f < sys.shared.nextFile := by
  by_contra hn
  have hm := (h.balanced.mem_head f d).mpr ⟨hd, hf⟩
  rw [(h.balanced.fresh f (Nat.le_of_not_lt hn)).1] at hm
  cases hm

omit [DecidableEq T] in
/-- What a thread knows. -/
theorem Sys.Orderly.knows (h : sys.Orderly vis) (t : T) : Knows sys.shared (sys.clients t) where
  heads f d hd := ((h.filed.counted.balanced.mem_head f d).mp hd).2
  listed := h.filed.counted.listed_lt
  waiting k f seen hpc := by
    have hk := h.filed.counted.known t
    rw [hpc] at hk
    exact hk.2
  undeduped full f hpc := by
    have hk := h.filed.counted.known t
    rw [hpc] at hk
    exact hk
  desc d f hpc := by
    obtain ⟨hlive, hown⟩ := h.filed.counted.desc t d f hpc
    exact ⟨hlive, hown, h.filed.counted.owner_lt hlive hown⟩
  missing todo k force hpc := by
    have hp : sys.purge = some ⟨todo, some k, force⟩ := Sys.purge_of_clients h.filed.locked (congrArg Pc.purge hpc)
    refine h.unique.missing k ?_
    rw [hp]
    rfl

omit [Fintype T] [DecidableEq T] in
/-- A plain thread forces nothing out and renames nothing. -/
theorem Sys.Homed.promises (h : sys.Homed vis) (Γ : Config) (l : Label T) : sys.Unforced l ∧ sys.Unmoved Γ l := by
  cases l with
  | client t env =>
    have ht := h.plain t
    refine ⟨fun f hf => ?_, Or.inl ?_⟩
    · cases hpc : sys.clients t with
      | purging todo k force =>
        rw [hpc] at ht hf
        simp only [Pc.plain, Bool.and_eq_true, Bool.not_eq_true'] at ht
        rw [ht.1] at hf
        cases todo <;> cases hf
      | _ =>
        rw [hpc] at hf
        cases hf
    · unfold Sys.moves
      cases hpc : sys.clients t with
      | renameSecond =>
        rw [hpc] at ht
        cases ht
      | _ => rfl
  | _ => exact ⟨trivial, trivial⟩

omit [Fintype T] [DecidableEq T] in
/-- The threads that do not step, and writes that are under way. -/
theorem Sys.Homed.others {s : State} (h : sys.Homed vis) (hev : sys.shared.Evolves s)
    (hlt : ∀ t d f, (sys.clients t).desc = some (d, f) → f < sys.shared.nextFile ∧ d < sys.shared.nextDesc) (t : T) :
    (∀ d f fd buf offset, sys.clients t = .pwriting d f (some fd) buf offset → s.fs.Only vis (s.files f).filename fd.ino) ∧
      (∀ full f, sys.clients t = .undeduped full f → s.fs.Sole vis full) ∧
      ∀ d buf offset f, sys.clients t = .fetched d (.write buf offset) f → (s.descs d).writable = true := by
  refine ⟨fun d f fd buf offset hpc => ?_, fun full f hpc => hev.sole (h.undeduped t full f hpc), fun d buf offset f hpc => ?_⟩
  · rw [hev.filename f (hlt t d f (by rw [hpc]; rfl)).1]
    exact hev.only (h.pwrites t d f fd buf offset hpc)
  · rw [hev.writable d (hlt t d f (by rw [hpc]; rfl)).2]
    exact h.requests t d buf offset f hpc

omit [DecidableEq T] in
theorem Sys.Counted.desc_lt (h : sys.Counted) {t : T} {d f : Nat} (hpc : (sys.clients t).desc = some (d, f)) :
    f < sys.shared.nextFile ∧ d < sys.shared.nextDesc := by
  obtain ⟨hlive, hown⟩ := h.desc t d f hpc
  exact ⟨h.owner_lt hlive hown, h.balanced.live_lt d hlive⟩

/-- A step of a thread. -/
theorem Sys.Orderly.client {t : T} {env : Env} {s : State} {pc : Pc} (h : sys.Orderly vis) (hcounted : (sys.advance t s pc).Counted)
    (hv : Γ.dedupEnabled = true → ∀ p, ¬vis (fuseattrName p))
    (hopens : ∀ full, (sys.clients t).opensWriting = some full → Opens Γ env vis sys.shared.fs full)
    (hstep : clientStep Γ env (sys.dbLock = none) sys.shared (sys.clients t) = some (s, pc))
    (hs : ClientStep (sys.dbLock = none) (wanted Γ env sys.shared) sys.shared.books (sys.clients t) s.books pc) :
    (sys.advance t s pc).Homed vis := by
  have he := clientStep_effects (h.knows t) (h.homed.plain t) hv hopens (h.homed.undeduped t) hstep
  have hev := he.evolves h.homed.shared (h.homed.requests t) hs
  have hhomed : s.Homed vis := he.homed h.homed.shared (h.homed.requests t)
  have hother := h.homed.others hev (fun t d f hd => h.filed.counted.desc_lt hd)
  have hself : (sys.advance t s pc).clients t = pc := Function.update_self _ _ _
  refine ⟨hhomed, fun t' => ?_, fun t' d f fd buf offset hpc => ?_, fun t' full f hpc => ?_, fun t' d buf offset f hpc => ?_⟩
  · by_cases e : t' = t
    · subst e
      rw [hself]
      exact clientStep_plain (h.homed.plain t') hstep
    · rw [show (sys.advance t s pc).clients t' = sys.clients t' from Function.update_of_ne e _ _]
      exact h.homed.plain t'
  · by_cases e : t' = t
    · subst e
      rw [hself] at hpc
      subst hpc
      obtain ⟨hold, -, -⟩ := hs.desc rfl
      obtain ⟨hpc, hfd⟩ := clientStep_pwriting hold hstep
      have hown : (s.descs d).file = f := (hcounted.desc t' d f (by rw [hself]; rfl)).2
      have hwr : (s.descs d).writable = true := by
        rw [hev.writable d (h.filed.counted.desc_lt hold).2]
        exact h.homed.requests t' d buf offset f hpc
      obtain ⟨h1, -, h3⟩ := hhomed.descs d fd hwr hfd.symm
      rw [hown] at h3
      exact ⟨h1, h3⟩
    · exact (hother t').1 d f fd buf offset ((Function.update_of_ne e _ _).symm.trans hpc)
  · by_cases e : t' = t
    · subst e
      rw [hself] at hpc
      subst hpc
      exact clientStep_sole (h.knows t') (h.homed.plain t') hopens hstep
    · exact (hother t').2.1 full f ((Function.update_of_ne e _ _).symm.trans hpc)
  · by_cases e : t' = t
    · subst e
      rw [hself] at hpc
      subst hpc
      obtain ⟨hold, -, -⟩ := hs.desc rfl
      exact absurd hstep (clientStep_fetched hold)
    · exact (hother t').2.2 d buf offset f ((Function.update_of_ne e _ _).symm.trans hpc)

omit [DecidableEq T] in
/-- The file the background thread compresses has an entry. -/
theorem Sys.Counted.job_lt (h : sys.Counted) {job : Job} {got : Bytes} {eof : Bool} (hw : sys.worker = .compressing job got eof) :
    job.file < sys.shared.nextFile := by
  by_contra hn
  have hrefs := (h.balanced.fresh job.file (Nat.le_of_not_lt hn)).2.2
  unfold Sys.refs at hrefs
  rw [hw, WorkerPc.refs, if_pos rfl] at hrefs
  omega

omit [DecidableEq T] in
/-- A step of the background thread other than the end of `do_dedup`. -/
theorem Sys.Orderly.worker {env : Env} {s : State} {w : WorkerPc} (h : sys.Orderly vis)
    (hdedup : ∀ f hash, sys.worker ≠ .hashing f (.finished hash))
    (hstep : workerStep Γ env sys.shared sys.worker = some (s, w)) (hs : WorkerStep sys.shared.books sys.worker s.books w) :
    sys.shared.Evolves s ∧ s.Homed vis ∧ (sys.shared.fs.Single vis → s.fs.Single vis) := by
  have hkeeps : sys.shared.books.Keeps s.books (fun _ => False) := hs.keeps
  have hkeep : ∀ g, g < sys.shared.nextFile → (s.files g).filename = (sys.shared.files g).filename := hkeeps.filename
  have hwr : ∀ d, (s.descs d).writable = (sys.shared.descs d).writable := congrFun hs.writable
  have heffects : WorkerEffects vis sys.shared s sys.worker := workerStep_effects hstep
  cases heffects with
  | calm hc =>
    refine ⟨⟨le_of_eq (congrArg Backing.next hc.fs).symm, fun q i hi hq => ?_, fun p q i hi hp hq => ?_, hkeep, fun d _ => hwr d⟩, ?_,
      fun hsingle => ?_⟩
    · rwa [hc.fs] at hq
    · exact h.homed.shared.unnamed (fun p => by rw [hc.fs]) hi hp
    · exact hc.homed h.homed.shared (fun d hd => by cases hd)
    · rw [hc.fs]
      exact hsingle
  | compressed hw he =>
    have hf := h.homed.shared.fresh (h.filed.counted.job_lt hw) (w := none) (fun d hd => by cases hd)
    obtain ⟨hhomed, hfresh⟩ := he.homed h.homed.shared hf
    exact ⟨⟨he.next_le, fun q i hi hq => he.named hi hq,
      fun p q i hi hp hq => (hfresh.names p i hp hi).trans (hfresh.names q i hq hi).symm, hkeep, fun d _ => hwr d⟩, hhomed,
      he.single h.homed.shared hf⟩
  | deduped hw => exact absurd hw (hdedup _ _)

/-- Every step but the end of `do_dedup` keeps the order. A client that opens a file for writing makes sure that it has no other
name. -/
theorem Sys.Orderly.step (h : sys.Orderly vis) (hok : sys.Promised l) (hplain : l.plain = true)
    (hv : Γ.dedupEnabled = true → ∀ p, ¬vis (fuseattrName p))
    (hopens : ∀ t env, l = .client t env → ∀ full, (sys.clients t).opensWriting = some full → Opens Γ env vis sys.shared.fs full)
    (hdedup : ∀ env f hash, l = .worker env → sys.worker ≠ .hashing f (.finished hash)) (hs : sys.step Γ l = some sys') :
    sys'.Orderly vis := by
  obtain ⟨hforce, hmove⟩ := h.homed.promises Γ l
  have hfiled := h.filed.step ⟨hok, hmove⟩ hs
  refine ⟨hfiled, h.filed.step_unique h.unique hforce hs, h.filed.step_locking h.locking hs, ?_⟩
  rcases Sys.step_cases hs with ⟨t, r, last, rfl, hidle, rfl⟩ | ⟨t, env, s, pc, rfl, hstep, hc, rfl⟩ |
    ⟨env, s, w, rfl, hstep, hw, rfl⟩ | ⟨rfl, rfl⟩
  · have hself : (sys.advance t sys.shared (takeRequest Γ sys.shared r)).clients t = takeRequest Γ sys.shared r := Function.update_self _ _ _
    refine ⟨h.homed.shared, fun t' => ?_, fun t' d f fd buf offset hpc => ?_, fun t' full f hpc => ?_, fun t' d buf offset f hpc => ?_⟩
    · by_cases e : t' = t
      · subst e
        rw [hself]
        exact takeRequest_plain Γ sys.shared hplain
      · exact (congrArg Pc.plain (Function.update_of_ne e _ _)).trans (h.homed.plain t')
    · by_cases e : t' = t
      · subst e
        rw [hself] at hpc
        cases r <;> cases hpc
      · exact h.homed.pwrites t' d f fd buf offset ((Function.update_of_ne e _ _).symm.trans hpc)
    · by_cases e : t' = t
      · subst e
        rw [hself] at hpc
        cases r <;> cases hpc
      · exact h.homed.undeduped t' full f ((Function.update_of_ne e _ _).symm.trans hpc)
    · by_cases e : t' = t
      · subst e
        rw [hself] at hpc
        cases r with
        | desc d' op =>
          cases hpc
          exact hok.2.2.2 rfl
        | _ => cases hpc
      · exact h.homed.requests t' d buf offset f ((Function.update_of_ne e _ _).symm.trans hpc)
  · exact h.client hfiled.counted hv (hopens t env rfl) hstep hc
  · obtain ⟨hev, hhomed, -⟩ := h.worker (fun f hash => hdedup env f hash rfl) hstep hw
    have hother := h.homed.others hev (fun t d f hd => h.filed.counted.desc_lt hd)
    exact ⟨hhomed, h.homed.plain, fun t => (hother t).1, fun t => (hother t).2.1, fun t => (hother t).2.2⟩
  · refine ⟨⟨h.homed.shared.named, h.homed.shared.descs, h.homed.shared.writing⟩, h.homed.plain, fun t d f fd buf offset hpc => ?_,
      h.homed.undeduped, h.homed.requests⟩
    obtain ⟨h1, h2⟩ := h.homed.pwrites t d f fd buf offset hpc
    exact ⟨h1, h2⟩

end System

end FuseCompress
