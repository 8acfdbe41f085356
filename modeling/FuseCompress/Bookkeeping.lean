import FuseCompress.Lemmas.Sections

/-!
# The steps of the threads, as entries in the books

What a step of a thread can do to the books, one constructor for each kind of step: an abstract transition system without
contents. Every step of the program is one of these (`clientStep_refines`, `workerStep_refines`), so whatever they preserve, the
program preserves.
-/

namespace FuseCompress

/-! ## What a thread holds -/

/-- The access that `rename` has counted on its first entry while it opens its second. -/
def Caller.refs : Caller → Nat → Nat
  | .renameTo _ _ a, f => if a = f then 1 else 0
  | _, _ => 0

/-- The accesses a thread has counted for itself. -/
def Pc.refs : Pc → Nat → Nat
  | .opening k, f => k.refs f
  | .purging _ k _, f => k.elim 0 (fun k => k.refs f)
  | .waiting k _ _, f => k.refs f
  | .renamePair _ _ a b, f => (if a = f then 1 else 0) + if b = f then 1 else 0
  | .renameSecond _ _ a b, f => (if a = f then 1 else 0) + if b = f then 1 else 0
  | _, _ => 0

/-- The entry whose lock a thread keeps until its next step. -/
def Pc.holds : Pc → Option Nat
  | .undeduped _ f => some f
  | .renameSecond _ _ a _ => some a
  | _ => none

/-- The descriptor a thread serves a request on, with the entry it has fetched from it. -/
def Pc.desc : Pc → Option (Nat × Nat)
  | .fetched d _ f => some (d, f)
  | .preading d f _ _ _ _ _ => some (d, f)
  | .preaded d f _ _ => some (d, f)
  | .pwriting d f _ _ _ => some (d, f)
  | .pwrote d f _ => some (d, f)
  | _ => none

/-- The descriptor a thread is about to release. -/
def Pc.releases : Pc → Option Nat
  | .fetched d .release _ => some d
  | _ => none

/-- The descriptor a request is under way on. -/
def Pc.onDesc (pc : Pc) : Option Nat := pc.desc.map Prod.fst

/-- The entry that a request on a descriptor works on. -/
def Pc.onFile (pc : Pc) : Option Nat := pc.desc.map Prod.snd

/-- The entry a thread waits for. -/
def Pc.waitsFor : Pc → Option Nat
  | .waiting _ f _ => some f
  | _ => none

/-- The access that the background thread has taken over from a queue entry. -/
def WorkerPc.refs : WorkerPc → Nat → Nat
  | .idle, _ => 0
  | .dequeued f' _, f => if f' = f then 1 else 0
  | .compressing job _ _, f => if job.file = f then 1 else 0
  | .hashing f' _, f => if f' = f then 1 else 0

/-- The caller is `open` or one of the two calls of `rename`. -/
def Caller.counts : Caller → Bool
  | .open _ _ => true
  | .renameFrom _ _ => true
  | .renameTo _ _ _ => true
  | _ => false

/-- A place where a thread holds nothing: no access, no descriptor, no entry, no lock. -/
def Pc.Free : Pc → Prop
  | .idle _ => True
  | .getattrStat _ => True
  | .utimeStat _ _ => True
  | .mkdir _ => True
  | .rmdir _ => True
  | .linking _ _ => True
  | .attr _ _ _ => True
  | .opening k => k.counts = false
  | _ => False

/-! ## Steps -/

/-- The entry is there and nobody has its lock. -/
def Books.Lockable (b : Books) (f : Nat) : Prop := b.freed f = false ∧ b.locked f = false

/-- The entry is there and somebody has its lock. -/
def Books.Kept (b : Books) (f : Nat) : Prop := b.freed f = false ∧ b.locked f = true

/-- What the caller of `direct_open` does to the books with the locked entry. -/
inductive Body (b : Books) (f : Nat) : Caller → Books → Pc → Prop
  | done {k : Caller} {b' : Books} {pc' : Pc} : k.counts = false → b.Acked f b' → (k.stabile = false → b' = b) → pc'.Free →
      Body b f k b' pc'
  | failed {full : Filename} {w : Bool} : Body b f (.open full w) b (.idle (some .fail))
  | opened {full : Filename} {w : Bool} : Body b f (.open full w) (b.openDesc f w) (.idle (some (.opened b.nextDesc)))
  | undeduped {full : Filename} : Body b f (.open full true) (b.lock f) (.undeduped full f)
  | renameFrom {src dst : Filename} : Body b f (.renameFrom src dst) (b.count f 1) (.opening (.renameTo src dst f))
  | renameTo {src dst : Filename} {a : Nat} : Body b f (.renameTo src dst a) (b.count f 1) (.renamePair src dst a f)

/-- What the loop of `direct_open` does: wait, or let the caller go on. -/
inductive Enter (b : Books) (f : Nat) (k : Caller) : Books → Pc → Prop
  | wait : k.stabile = true → (b.status f).busy = true →
      Enter b f k (b.setStatus f { b.status f with cancel := true }) (.waiting k f (b.cond f))
  | body {b' : Books} {pc' : Pc} : (k.stabile = true → (b.status f).busy = false) → Body b f k b' pc' → Enter b f k b' pc'

/-- A step of a thread that serves requests. `free` says that no other thread holds `database.lock`, `wants` which entries a
purge queues again. -/
inductive ClientStep (free : Bool) (wants : Nat → Prop) (b : Books) : Pc → Books → Pc → Prop
  | quiet {pc pc' : Pc} : pc.Free → pc'.Free → ClientStep free wants b pc b pc'
  | purgeStart {force : Bool} : free = true → ClientStep free wants b (.purgeStart force) b (.purging b.database none force)
  | found {k : Caller} {f : Nat} {b' : Books} {pc' : Pc} : free = true → f ∈ b.database → b.filename f = k.filename →
      b.Lockable f → Enter b f k b' pc' → ClientStep free wants b (.opening k) b' pc'
  | overfull {k : Caller} : free = true → (∀ f ∈ b.database, b.filename f ≠ k.filename) →
      ClientStep free wants b (.opening k) { b with entries := b.entries + 1 } (.purging b.database (some k) false)
  | new {k : Caller} {b' : Books} {pc' : Pc} : free = true → (∀ f ∈ b.database, b.filename f ≠ k.filename) →
      Body (({ b with entries := b.entries + 1 } : Books).newFile k.filename) b.nextFile k b' pc' →
      ClientStep free wants b (.opening k) b' pc'
  | purgeUsed {f : Nat} {todo : List Nat} {k : Option Caller} {force : Bool} : (force = true → b.Lockable f) → b.accesses f ≠ 0 →
      ClientStep free wants b (.purging (f :: todo) k force) (if force then b.detach f else b) (.purging todo k force)
  | purgeQueue {f : Nat} {todo : List Nat} {k : Option Caller} {force isDedup : Bool} : b.Lockable f →
      b.accesses f = 0 → wants f →
      ClientStep free wants b (.purging (f :: todo) k force) (b.enqueue f isDedup) (.purging todo k force)
  | purgeFree {f : Nat} {todo : List Nat} {k : Option Caller} {force : Bool} : b.Lockable f → b.accesses f = 0 →
      ¬wants f →
      ClientStep free wants b (.purging (f :: todo) k force) ((b.detach f).free f) (.purging todo k force)
  | purgeEnd {force : Bool} : ClientStep free wants b (.purging [] none force) b (.idle (some .ok))
  | purgeNew {k : Caller} {force : Bool} {b' : Books} {pc' : Pc} : Body (b.newFile k.filename) b.nextFile k b' pc' →
      ClientStep free wants b (.purging [] (some k) force) b' pc'
  | wake {k : Caller} {f seen : Nat} {b' : Books} {pc' : Pc} : b.cond f ≠ seen → b.Lockable f → Enter b f k b' pc' →
      ClientStep free wants b (.waiting k f seen) b' pc'
  | openFailed {full : Filename} {f : Nat} : b.Kept f →
      ClientStep free wants b (.undeduped full f) (b.unlock f) (.idle (some .fail))
  | opened {full : Filename} {f : Nat} : b.Kept f →
      ClientStep free wants b (.undeduped full f) ((b.unlock f).openDesc f true) (.idle (some (.opened b.nextDesc)))
  | renameLock {src dst : Filename} {x y : Nat} : b.Lockable x →
      ClientStep free wants b (.renamePair src dst x y) (b.lock x) (.renameSecond src dst x y)
  | renameFailed {src dst : Filename} {x y : Nat} : b.Kept x → b.Lockable y → x ≠ y →
      ClientStep free wants b (.renameSecond src dst x y) (((b.unlock x).count x (-1)).count y (-1)) (.idle (some .fail))
  | renamed {src dst : Filename} {x y : Nat} : b.Kept x → b.Lockable y → x ≠ y →
      ClientStep free wants b (.renameSecond src dst x y) ((((b.unlock x).count x (-1)).count y (-1)).rename x y) (.idle (some .ok))
  | locked {d f : Nat} {op : DescOp} {b' : Books} {pc' : Pc} : op ≠ .release → b.Lockable f → b.Acked f b' →
      (pc'.Free ∨ pc'.desc = some (d, f) ∧ pc'.releases = none) →
      ClientStep free wants b (.fetched d op f) b' pc'
  | released {d f : Nat} : b.Lockable f →
      ClientStep free wants b (.fetched d .release f) (b.release f d) (.idle (some .ok))
  | unlocked {pc pc' : Pc} {d f : Nat} : pc.desc = some (d, f) → pc.releases = none →
      (pc'.Free ∨ pc'.desc = some (d, f) ∧ pc'.releases = none) → ClientStep free wants b pc b pc'

/-- A step of the background thread. -/
inductive WorkerStep (b : Books) : WorkerPc → Books → WorkerPc → Prop
  | dequeue {entry : CompressT} {rest : List CompressT} : b.comp = entry :: rest →
      WorkerStep b .idle { b with comp := rest } (.dequeued entry.file entry.isDedup)
  | skip {f : Nat} {isDedup : Bool} : b.Lockable f → WorkerStep b (.dequeued f isDedup) (b.count f (-1)) .idle
  | compressBegin {job : Job} : b.Lockable job.file → b.accesses job.file = 1 →
      WorkerStep b (.dequeued job.file false) (b.setStatus job.file { b.status job.file with compressing := true })
        (.compressing job [] false)
  | dedupBegin {f : Nat} : b.Lockable f → b.accesses f = 1 →
      WorkerStep b (.dequeued f true) (b.setStatus f { b.status f with deduping := true }) (.hashing f .start)
  | compressRead {job : Job} {got got' : Bytes} {eof eof' : Bool} :
      WorkerStep b (.compressing job got eof) b (.compressing job got' eof')
  | hash {f : Nat} {pc pc' : HashPc} : (∀ h, pc ≠ .finished h) → WorkerStep b (.hashing f pc) b (.hashing f pc')
  | compressEnd {job : Job} {got : Bytes} {eof : Bool} : b.Lockable job.file →
      WorkerStep b (.compressing job got eof) ((b.closeWindow job.file Status.endCompressing).count job.file (-1)) .idle
  | dedupEnd {f : Nat} {md5 : List UInt8} : b.Lockable f →
      WorkerStep b (.hashing f (.finished (some md5))) ((b.closeWindow f Status.endDeduping).count f (-1)) .idle
  | dedupFailed {f : Nat} : b.Lockable f → WorkerStep b (.hashing f (.finished none)) (b.count f (-1)) .idle

/-! ## The program takes these steps -/

section Refinement

variable (Γ : Config) (env : Env) (s : State)

theorem Pc.free_idle (r : Option Reply) : (Pc.idle r).Free := trivial

/-- A request that is over without a trace in the books. -/
theorem body_finished {s' : State} {f : Nat} {k : Caller} {r : Reply} (hk : k.counts = false) (h : s'.books = s.books) :
    Body s.books f k (finished (s', r)).1.books (finished (s', r)).2 :=
  .done hk (Or.inl h) (fun _ => h) (Pc.free_idle _)

theorem body_acked {s' : State} {f : Nat} {k : Caller} {pc : Pc} (hk : k.counts = false) (hst : k.stabile = true)
    (h : s.books.Acked f s'.books) (hpc : pc.Free) : Body s.books f k s'.books pc :=
  .done hk h (fun hf => by rw [hst] at hf; cases hf) hpc

theorem callerBody_refines (f : Nat) (k : Caller) :
    Body s.books f k (callerBody Γ env s f k).1.books (callerBody Γ env s f k).2 := by
  cases k with
  | getattr full st => exact body_finished s rfl (books_getattrLocked Γ env s f full st)
  | mknod full mode uid gid => exact body_finished s rfl (books_mknodLocked env s full mode uid gid)
  | unlink full => exact body_finished s rfl (books_unlinkLocked Γ env s f full)
  | utime full c => exact body_finished s rfl (books_utimeLocked Γ env s full c)
  | truncate full size => exact body_acked s rfl rfl (acked_truncateLocked Γ env s f full size) (Pc.free_idle _)
  | link src dst =>
    have h := acked_linkLocked Γ env s f
    rw [callerBody]
    split
    · rename_i s' e
      rw [e] at h
      exact body_acked s rfl rfl h trivial
    · rename_i s' e
      rw [e] at h
      exact body_acked s rfl rfl h (Pc.free_idle _)
  | renameFrom src dst =>
    change Body _ _ _ (countAccess s f).books _
    rw [books_countAccess]
    exact .renameFrom
  | renameTo src dst a =>
    change Body _ _ _ (countAccess s f).books _
    rw [books_countAccess]
    exact .renameTo
  | «open» full w =>
    have hu := books_openUndedup Γ env s f w
    rw [callerBody, openBody]
    split
    · rename_i s₁ e
      rw [e] at hu
      have hbooks : s₁.books = s.books := hu
      split
      · rename_i hw
        obtain rfl : w = true := hw.2
        dsimp only
        rw [books_lock, hbooks]
        exact .undeduped
      · change Body _ _ _ (openFile Γ env s₁ f full w).1.books (.idle (some (openFile Γ env s₁ f full w).2))
        rcases books_openFile Γ env s₁ f full w with ⟨hb, hr⟩ | ⟨hb, hr⟩
        · rw [hb, hr, hbooks]
          exact .failed
        · rw [hb, hr, hbooks, show s₁.nextDesc = s.books.nextDesc from congrArg Books.nextDesc hbooks]
          exact .opened
    · rename_i s₁ e
      rw [e] at hu
      change Body _ _ _ s₁.books _
      rw [show s₁.books = s.books from hu]
      exact .failed

theorem directOpenWait_refines (f : Nat) (k : Caller) :
    Enter s.books f k (directOpenWait Γ env s f k).1.books (directOpenWait Γ env s f k).2 := by
  unfold directOpenWait
  split
  · rename_i h
    rw [Bool.and_eq_true] at h
    rw [show (s.modFile f (fun file => { file with status := { file.status with cancel := true } })).books =
      s.books.setStatus f { s.books.status f with cancel := true } from books_setStatus s f _ _ (by simp) rfl]
    exact .wait h.1 h.2
  · rename_i h
    refine .body (fun hst => ?_) (callerBody_refines Γ env s f k)
    rw [hst, Bool.true_and, Bool.not_eq_true] at h
    exact h

theorem directOpenNew_refines (k : Caller) :
    Body (s.books.newFile k.filename) s.nextFile k (directOpenNew Γ env s k).1.books (directOpenNew Γ env s k).2 := by
  have h := callerBody_refines Γ env (directOpenAdd Γ s k.filename) s.nextFile k
  rw [books_directOpenAdd] at h
  exact h

theorem lockable_books {f : Nat} (h : s.lockable f = true) : s.books.Lockable f := by
  unfold State.lockable at h
  simp only [Bool.and_eq_true, Bool.not_eq_true'] at h
  exact h.1

theorem kept_books {f : Nat} (h : s.kept f = true) : s.books.Kept f := by
  unfold State.kept at h
  simp only [Bool.and_eq_true, Bool.not_eq_true'] at h
  exact h

/-- The entries a purge queues again. -/
def wanted (Γ : Config) (env : Env) (s : State) (f : Nat) : Prop :=
  (wantsCompress Γ env s.fs (s.files f) || wantsDedup Γ (s.files f)) = true

instance (f : Nat) : Decidable (wanted Γ env s f) :=
  inferInstanceAs (Decidable ((wantsCompress Γ env s.fs (s.files f) || wantsDedup Γ (s.files f)) = true))

theorem directOpenStart_refines {k : Caller} {r : State × Pc} (h : directOpenStart Γ env s k = some r) :
    ClientStep true (wanted Γ env s) s.books (.opening k) r.1.books r.2 := by
  unfold directOpenStart at h
  split at h
  · rename_i f hf
    have hmem := List.mem_of_find?_eq_some hf
    have hname := List.find?_some hf
    split at h
    · rename_i hl
      simp only [Option.some.injEq] at h
      subst h
      have he := directOpenWait_refines Γ env (directOpenFound s f) f k
      rw [books_directOpenFound] at he
      exact .found rfl hmem (of_decide_eq_true hname) (lockable_books s hl) he
    · cases h
  · rename_i hf
    have hno : ∀ f ∈ s.books.database, s.books.filename f ≠ k.filename := by
      intro f hm
      have h := List.find?_eq_none.mp hf f hm
      rw [decide_eq_true_eq] at h
      exact h
    dsimp only at h
    split at h
    · simp only [Option.some.injEq] at h
      subst h
      exact .overfull rfl hno
    · simp only [Option.some.injEq] at h
      subst h
      exact .new rfl hno (directOpenNew_refines Γ env { s with entries := s.entries + 1 } k)

/-- A request on a descriptor, other than its release, keeps the descriptor or is over. -/
theorem descLocked_refines (free : Bool) (wants : Nat → Prop) (d f : Nat) (op : DescOp) (hl : s.books.Lockable f) :
    ClientStep free wants s.books (.fetched d op f) (descLocked Γ env s d f op).1.books (descLocked Γ env s d f op).2 := by
  cases op with
  | read size offset =>
    have h := acked_readLocked Γ env s f d size offset
    rw [descLocked]
    split
    · rename_i s' res buf e
      rw [e] at h
      split
      · exact .locked (by simp) hl h (Or.inr ⟨rfl, rfl⟩)
      · exact .locked (by simp) hl h (Or.inl (Pc.free_idle _))
    · rename_i s' fd size offset served e
      rw [e] at h
      exact .locked (by simp) hl h (Or.inr ⟨rfl, rfl⟩)
  | write buf offset =>
    have h := acked_writeLocked Γ env s f d buf offset
    rw [descLocked]
    split
    · rename_i s' res e
      rw [e] at h
      split
      · refine .locked (by simp) hl ?_ (Or.inl (Pc.free_idle _))
        change s.books.Acked f (invalidateSize s' f).books
        rw [books_invalidateSize]
        exact h
      · exact .locked (by simp) hl h (Or.inl (Pc.free_idle _))
    · rename_i s' fd e
      rw [e] at h
      exact .locked (by simp) hl h (Or.inr ⟨rfl, rfl⟩)
  | release =>
    change ClientStep _ _ _ _ (releaseLocked Γ env s f d).1.books _
    rw [books_releaseLocked]
    exact .released hl

/-- Every step of a thread is a step in the books. -/
theorem clientStep_refines {free : Bool} {pc : Pc} {r : State × Pc} (h : clientStep Γ env free s pc = some r) :
    ClientStep free (wanted Γ env s) s.books pc r.1.books r.2 := by
  have quiet : ∀ {pc : Pc} {s' : State} {pc' : Pc}, pc.Free → pc'.Free → some (s', pc') = some r → s'.books = s.books →
      ClientStep free (wanted Γ env s) s.books pc r.1.books r.2 := by
    intro pc s' pc' hf hf' e hb
    simp only [Option.some.injEq] at e
    subst e
    rw [show s'.books = s.books from hb]
    exact .quiet hf hf'
  have hfree := Pc.free_idle
  cases pc with
  | idle last => simp [clientStep] at h
  | getattrStat full =>
    rw [clientStep] at h
    split at h
    · exact quiet (by trivial) (by trivial) h (books_getattrMagic s full)
    · split at h
      · exact quiet (by trivial) (by trivial) h rfl
      · exact quiet (by trivial) (by trivial) h rfl
      · exact quiet (by trivial) (by trivial) h rfl
  | utimeStat full c =>
    rw [clientStep] at h
    split at h
    · exact quiet (by trivial) (by trivial) h rfl
    · exact quiet (by trivial) (by trivial) h rfl
  | mkdir full =>
    rw [clientStep] at h
    split at h
    · exact quiet (by trivial) (by trivial) h rfl
    · exact quiet (by trivial) (by trivial) h rfl
  | rmdir full =>
    rw [clientStep] at h
    split at h
    · exact quiet (by trivial) (by trivial) h rfl
    · exact quiet (by trivial) (by trivial) h rfl
  | purgeStart force =>
    rw [clientStep] at h
    split at h
    · rename_i hf
      simp only [Option.some.injEq] at h
      subst h
      exact .purgeStart hf
    · cases h
  | opening k =>
    rw [clientStep] at h
    split at h
    · rename_i hf
      subst hf
      exact directOpenStart_refines Γ env s h
    · cases h
  | purging todo k force =>
    cases todo with
    | nil =>
      cases k with
      | none =>
        simp only [clientStep, Option.some.injEq] at h
        subst h
        exact .purgeEnd
      | some k =>
        simp only [clientStep, Option.some.injEq] at h
        subst h
        exact .purgeNew (directOpenNew_refines Γ env s k)
    | cons f todo =>
      rw [clientStep] at h
      split at h
      · cases h
      · rename_i hfr
        split at h
        · cases h
        · simp only [Option.some.injEq] at h
          subst h
          rename_i hlock
          rw [Bool.not_eq_true, Bool.and_eq_false_iff, Bool.not_eq_false', Bool.or_eq_false_iff, decide_eq_false_iff_not] at hlock
          by_cases ha : (s.files f).accesses = 0
          · have hl := lockable_books s (hlock.resolve_right (fun hn => hn.1 ha))
            rcases books_purgeFile_unused Γ env s f force ha with ⟨hw, isDedup, hb⟩ | ⟨hw, hb⟩
            · change ClientStep _ _ _ _ (purgeFile Γ env force s f).books _
              rw [hb]
              exact .purgeQueue hl ha hw
            · change ClientStep _ _ _ _ (purgeFile Γ env force s f).books _
              rw [hb]
              exact .purgeFree hl ha (by unfold wanted; rw [hw]; simp)
          · change ClientStep _ _ _ _ (purgeFile Γ env force s f).books _
            rw [books_purgeFile_used Γ env s f force ha]
            refine .purgeUsed (fun hforce => lockable_books s (hlock.resolve_right (fun hn => ?_))) ha
            rw [hforce] at hn
            cases hn.2
  | waiting k f seen =>
    rw [clientStep] at h
    split at h
    · rename_i hc
      simp only [Option.some.injEq] at h
      subst h
      exact .wake hc.1 (lockable_books s hc.2) (directOpenWait_refines Γ env s f k)
    · cases h
  | undeduped full f =>
    rw [clientStep] at h
    split at h
    · rename_i hl
      simp only [Option.some.injEq] at h
      subst h
      change ClientStep _ _ _ _ (openFile Γ env (s.unlock f) f full true).1.books
        (.idle (some (openFile Γ env (s.unlock f) f full true).2))
      rcases books_openFile Γ env (s.unlock f) f full true with ⟨hb, hr⟩ | ⟨hb, hr⟩
      · rw [hb, hr, books_unlock]
        exact .openFailed (kept_books s hl)
      · rw [hb, hr, books_unlock]
        exact .opened (kept_books s hl)
    · cases h
  | renamePair src dst x y =>
    rw [clientStep] at h
    split at h
    · rename_i hl
      simp only [Option.some.injEq] at h
      subst h
      change ClientStep _ _ _ _ (s.lock x).books _
      rw [books_lock]
      exact .renameLock (lockable_books s hl)
    · cases h
  | renameSecond src dst x y =>
    rw [clientStep] at h
    split at h
    · rename_i hl
      simp only [Option.some.injEq] at h
      subst h
      have hx := kept_books s hl.1
      have hy := lockable_books s hl.2
      have hxy : x ≠ y := by
        rintro rfl
        exact Bool.false_ne_true (hy.2.symm.trans hx.2)
      change ClientStep _ _ _ _ (renameLocked Γ env (s.unlock x) x y).1.books (.idle (some (renameLocked Γ env (s.unlock x) x y).2))
      rcases books_renameLocked Γ env (s.unlock x) hxy with ⟨hb, hr⟩ | ⟨hb, hr⟩
      · rw [hb, hr, books_unlock]
        exact .renameFailed hx hy hxy
      · rw [hb, hr, books_unlock]
        exact .renamed hx hy hxy
    · cases h
  | linking src dst =>
    rw [clientStep] at h
    exact quiet (by trivial) (by trivial) h (books_linkCall env s src dst)
  | fetched d op f =>
    rw [clientStep] at h
    split at h
    · rename_i hl
      simp only [Option.some.injEq] at h
      subst h
      exact descLocked_refines Γ env s free _ d f op (lockable_books s hl)
    · cases h
  | preading d f fd size offset served relock =>
    simp only [clientStep, Option.some.injEq] at h
    subst h
    exact .unlocked rfl rfl (Or.inr ⟨rfl, rfl⟩)
  | preaded d f res relock =>
    cases res with
    | some buf =>
      rw [clientStep] at h
      split at h
      · cases h
      · simp only [Option.some.injEq] at h
        subst h
        exact .unlocked rfl rfl (Or.inl (hfree _))
    | none =>
      rw [clientStep] at h
      split at h
      · cases h
      · simp only [Option.some.injEq] at h
        subst h
        change ClientStep _ _ _ _ (invalidateSize s f).books _
        rw [books_invalidateSize]
        exact .unlocked rfl rfl (Or.inl (hfree _))
  | pwriting d f fd buf offset =>
    have hb := books_pwriteFd env s fd buf offset
    rw [clientStep] at h
    split at h
    · rename_i s' e
      rw [e] at hb
      simp only [Option.some.injEq] at h
      subst h
      rw [show s'.books = s.books from hb]
      exact .unlocked rfl rfl (Or.inr ⟨rfl, rfl⟩)
    · rename_i s' e
      rw [e] at hb
      simp only [Option.some.injEq] at h
      subst h
      rw [show s'.books = s.books from hb]
      exact .unlocked rfl rfl (Or.inr ⟨rfl, rfl⟩)
  | pwrote d f res =>
    cases res with
    | some len =>
      rw [clientStep] at h
      split at h
      · simp only [Option.some.injEq] at h
        subst h
        exact .unlocked rfl rfl (Or.inl (hfree _))
      · cases h
    | none =>
      rw [clientStep] at h
      split at h
      · simp only [Option.some.injEq] at h
        subst h
        change ClientStep _ _ _ _ (invalidateSize s f).books _
        rw [books_invalidateSize]
        exact .unlocked rfl rfl (Or.inl (hfree _))
      · cases h
  | attr full c pc =>
    rw [clientStep] at h
    split at h
    · exact quiet (by trivial) (by trivial) h rfl
    · exact quiet (by trivial) (by trivial) h rfl

/-- Every step of the background thread is a step in the books. -/
theorem workerStep_refines {w : WorkerPc} {r : State × WorkerPc} (h : workerStep Γ env s w = some r) :
    WorkerStep s.books w r.1.books r.2 := by
  cases w with
  | idle =>
    rw [workerStep] at h
    rw [Option.map_eq_some_iff] at h
    obtain ⟨⟨s', entry⟩, hd, rfl⟩ := h
    obtain ⟨hc, hs⟩ := compDequeue_spec hd
    have hb : s'.books = { s.books with comp := s'.comp } := by
      rw [hs]
      rfl
    rw [hb]
    exact .dequeue hc
  | dequeued f isDedup =>
    rw [workerStep] at h
    split at h
    · rename_i hl
      have hfr := lockable_books s hl
      simp only [Option.some.injEq] at h
      subst h
      have hskip : ∀ s' : State, s'.books = s.books → WorkerStep s.books (.dequeued f isDedup)
          (compFinish Γ s' f isDedup).books .idle := by
        intro s' hb
        rw [books_compFinish, hb]
        exact .skip hfr
      unfold workerProcess
      dsimp only
      generalize hs : State.assert Γ s _ = s₁
      have h₁ : s₁.books = s.books := by rw [← hs, books_assert]
      have hfiles : s₁.files = s.files := by rw [← hs, State.files_assert]
      split
      · rename_i hd
        subst hd
        split
        · rename_i hn
          rw [books_doDedupBegin, h₁]
          unfold dedupNow at hn
          rw [hfiles, Bool.and_eq_true, decide_eq_true_eq] at hn
          exact .dedupBegin hfr hn.1
        · exact hskip s₁ h₁
      · rename_i hd
        rw [Bool.not_eq_true] at hd
        subst hd
        split
        · rename_i hn
          unfold compressNow at hn
          rw [hfiles] at hn
          simp only [Bool.and_eq_true, decide_eq_true_eq] at hn
          rcases books_doCompressBegin Γ env s₁ f with ⟨hj, hb⟩ | ⟨job, hj, rfl, hb⟩
          · split
            · rename_i e
              rw [e] at hj
              cases hj
            · rename_i s' e
              rw [e] at hb
              exact hskip s' (hb.trans h₁)
          · split
            · rename_i s' job' e
              rw [e] at hj hb
              cases hj
              change WorkerStep _ _ s'.books _
              rw [show s'.books = _ from hb, h₁]
              exact .compressBegin hfr hn.1.1.1
            · rename_i e
              rw [e] at hj
              cases hj
        · exact hskip s₁ h₁
    · cases h
  | compressing job got eof =>
    rw [workerStep] at h
    split at h
    · simp only [Option.some.injEq] at h
      subst h
      exact .compressRead
    · split at h
      · rename_i hl
        simp only [Option.some.injEq] at h
        subst h
        change WorkerStep _ _ (compFinish Γ (doCompressEnd Γ env s job got eof).1 job.file false).books _
        rw [books_compFinish, books_doCompressEnd]
        exact .compressEnd (lockable_books s hl)
      · cases h
  | hashing f pc =>
    have hgo : (∀ hash, pc ≠ .finished hash) →
        (if s.freed f then none else let r := hashStep Γ env s (s.files f).filename pc; some (r.1, .hashing f r.2)) = some r →
        WorkerStep s.books (.hashing f pc) r.1.books r.2 := by
      intro hn h
      split at h
      · cases h
      · simp only [Option.some.injEq] at h
        subst h
        change WorkerStep _ _ (hashStep Γ env s (s.files f).filename pc).1.books _
        rw [books_hashStep]
        exact .hash hn
    cases pc with
    | finished hash =>
      rw [workerStep] at h
      split at h
      · rename_i hl
        have hfr := lockable_books s hl
        simp only [Option.some.injEq] at h
        subst h
        change WorkerStep _ _ (compFinish Γ (doDedupEnd Γ env s f hash) f true).books _
        rw [books_compFinish, books_doDedupEnd]
        cases hash with
        | none =>
          rw [if_pos rfl]
          exact .dedupFailed hfr
        | some md5 =>
          rw [if_neg (by simp)]
          exact .dedupEnd hfr
      · cases h
    | start => exact hgo (by simp) h
    | raw ino got => exact hgo (by simp) h
    | packed ino m got => exact hgo (by simp) h

end Refinement

end FuseCompress
