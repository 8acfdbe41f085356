import Mathlib.Algebra.Order.BigOperators.Group.Finset
import Mathlib.Data.Prod.Lex
import FuseCompress.Theorems.Locks
import FuseCompress.Theorems.Status

/-!
# What is left to do

A measure that every step but those of the kernel makes smaller: what is left of the requests, of the purges, of the queue, of the
wakings and of the file that the background thread reads.
-/

namespace FuseCompress

variable {Γ : Config} {env : Env} {s s' : State}

/-! ## The requests -/

/-- The calls that are left of a change of attributes. -/
def AttrPc.rank : AttrPc → Nat
  | .stat => 6
  | .statAttr _ _ => 5
  | .createOpen _ => 4
  | .createMode _ _ => 3
  | .createOwner _ _ => 2
  | .createTimes _ _ => 1
  | _ => 0

/-- What is left of a request once `direct_open` has given the entry to its caller. -/
def Caller.rest : Caller → Nat
  | .renameFrom _ _ => 5
  | .renameTo _ _ _ => 2
  | .link _ _ => 1
  | .open _ _ => 1
  | _ => 0

/-- What is left of a request, the steps of a purge and repeated waiting apart. -/
def Pc.rank : Pc → Nat
  | .idle _ => 0
  | .getattrStat _ => 4
  | .utimeStat _ _ => 4
  | .mkdir _ => 1
  | .rmdir _ => 1
  | .purgeStart _ => 2
  | .opening k => k.rest + 3
  | .purging _ k _ => k.elim 1 (fun k => k.rest + 2)
  | .waiting k _ _ => k.rest + 1
  | .undeduped _ _ => 1
  | .renamePair _ _ _ _ => 2
  | .renameSecond _ _ _ _ => 1
  | .linking _ _ => 1
  | .fetched _ _ _ => 3
  | .preading _ _ _ _ _ _ _ => 2
  | .preaded _ _ _ _ => 1
  | .pwriting _ _ _ _ _ => 2
  | .pwrote _ _ _ => 1
  | .attr _ _ pc => pc.rank + 1

/-- The entries that a purge has still to look at. -/
def Pc.todo : Pc → Nat
  | .purging todo _ _ => todo.length
  | _ => 0

/-- The thread waits, and the condition variable has been broadcast since. -/
def Pc.woken (s : State) : Pc → Nat
  | .waiting _ f seen => if (s.files f).cond = seen then 0 else 1
  | _ => 0

theorem attrStep_rank {b b' : Backing} {full : Filename} {c : AttrChange} {pc pc' : AttrPc}
    (h : attrStep Γ env b full c pc = (b', .inl pc')) : pc'.rank < pc.rank := by
  cases pc with
  | stat =>
    rw [attrStep] at h
    split at h
    · cases h
    · cases h
      exact Nat.zero_lt_succ _
    · cases h
      exact Nat.lt_succ_self _
  | statAttr st nlink =>
    cases h
    unfold attrDecide
    split
    · split <;> exact Nat.zero_lt_succ _
    · split
      · exact Nat.lt_succ_self _
      · exact Nat.zero_lt_succ _
  | createOpen st =>
    rw [attrStep] at h
    split at h
    · cases h
    · cases h
      exact Nat.lt_succ_self _
  | createMode i st =>
    cases h
    exact Nat.lt_succ_self _
  | createOwner i st =>
    cases h
    exact Nat.lt_succ_self _
  | createTimes i st =>
    cases h
    exact Nat.lt_succ_self _
  | _ => cases h

theorem callerBody_rank (Γ : Config) (env : Env) (s : State) (f : Nat) (k : Caller) : (callerBody Γ env s f k).2.rank ≤ k.rest := by
  cases k with
  | link src dst =>
    unfold callerBody
    dsimp only
    split
    · exact Nat.le_refl _
    · exact Nat.zero_le _
  | «open» full writable =>
    unfold callerBody openBody
    dsimp only
    split
    · split
      · exact Nat.le_refl _
      · exact Nat.zero_le _
    · exact Nat.zero_le _
  | _ => exact Nat.le_refl _

theorem descLocked_rank (Γ : Config) (env : Env) (s : State) (d f : Nat) (op : DescOp) :
    (descLocked Γ env s d f op).2.rank ≤ 2 := by
  cases op with
  | read size offset =>
    unfold descLocked
    dsimp only
    split
    · split
      · exact Nat.le_succ _
      · exact Nat.zero_le _
    · exact Nat.le_refl _
  | write buf offset =>
    unfold descLocked
    dsimp only
    split
    · split <;> exact Nat.zero_le _
    · exact Nat.le_refl _
  | release => exact Nat.zero_le _

/-- `direct_open` waits again, or less is left of the request. -/
theorem directOpenWait_rank (Γ : Config) (env : Env) (s : State) (f : Nat) (k : Caller) :
    (directOpenWait Γ env s f k).2.rank ≤ k.rest ∨
      directOpenWait Γ env s f k =
        (s.modFile f (fun file => { file with status := { file.status with cancel := true } }), .waiting k f (s.files f).cond) := by
  unfold directOpenWait
  split
  · exact .inr rfl
  · exact .inl (callerBody_rank ..)

/-- A step of a thread: less is left of the request, or the purge has passed an entry, or a thread that was woken waits again. -/
theorem clientStep_rank {free : Bool} {pc pc' : Pc} (h : clientStep Γ env free s pc = some (s', pc')) :
    pc'.rank < pc.rank ∨ (pc'.rank = pc.rank ∧ pc'.todo < pc.todo) ∨
      ∃ k f seen, pc = .waiting k f seen ∧ (s.files f).cond ≠ seen ∧ pc' = .waiting k f (s.files f).cond ∧
        s' = s.modFile f (fun file => { file with status := { file.status with cancel := true } }) := by
  cases pc with
  | idle last => cases h
  | getattrStat full =>
    rw [clientStep] at h
    split at h
    · cases h
      exact .inl (Nat.zero_lt_succ _)
    · split at h
      all_goals
        cases h
        exact .inl (by simp [Pc.rank, Caller.rest])
  | utimeStat full c =>
    rw [clientStep] at h
    split at h
    all_goals
      cases h
      exact .inl (by simp [Pc.rank, Caller.rest])
  | mkdir full =>
    rw [clientStep] at h
    split at h
    all_goals
      cases h
      exact .inl (Nat.zero_lt_succ _)
  | rmdir full =>
    rw [clientStep] at h
    split at h
    all_goals
      cases h
      exact .inl (Nat.zero_lt_succ _)
  | purgeStart force =>
    rw [clientStep] at h
    split at h
    · cases h
      exact .inl (Nat.lt_succ_self _)
    · cases h
  | opening k =>
    rw [clientStep] at h
    split at h
    · unfold directOpenStart at h
      split at h
      · split at h
        · rename_i f _ _
          rw [Option.some.injEq] at h
          rcases directOpenWait_rank Γ env (directOpenFound s f) f k with hrank | hwait
          · rw [h] at hrank
            exact .inl (Nat.lt_of_le_of_lt hrank (Nat.lt_add_of_pos_right (by decide)))
          · rw [hwait, Prod.mk.injEq] at h
            rw [← h.2]
            exact .inl (Nat.add_lt_add_left (by decide) _)
        · cases h
      · dsimp only at h
        split at h
        · cases h
          exact .inl (Nat.lt_succ_self _)
        · rw [Option.some.injEq] at h
          have hrank := callerBody_rank Γ env (directOpenAdd Γ { s with entries := s.entries + 1 } k.filename) s.nextFile k
          unfold directOpenNew at h
          rw [h] at hrank
          exact .inl (Nat.lt_of_le_of_lt hrank (Nat.lt_add_of_pos_right (by decide)))
    · cases h
  | purging todo k force =>
    cases todo with
    | nil =>
      cases k with
      | none =>
        cases h
        exact .inl (Nat.zero_lt_succ _)
      | some k =>
        rw [clientStep, Option.some.injEq] at h
        have hrank := callerBody_rank Γ env (directOpenAdd Γ s k.filename) s.nextFile k
        unfold directOpenNew at h
        rw [h] at hrank
        exact .inl (Nat.lt_of_le_of_lt hrank (Nat.lt_add_of_pos_right (by decide)))
    | cons f todo =>
      rw [clientStep] at h
      split at h
      · cases h
      · split at h
        · cases h
        · cases h
          exact .inr (.inl ⟨rfl, Nat.lt_succ_self _⟩)
  | waiting k f seen =>
    rw [clientStep] at h
    split at h
    · rename_i hwoken
      rw [Option.some.injEq] at h
      rcases directOpenWait_rank Γ env s f k with hrank | hwait
      · rw [h] at hrank
        exact .inl (Nat.lt_of_le_of_lt hrank (Nat.lt_add_of_pos_right (by decide)))
      · rw [hwait, Prod.mk.injEq] at h
        exact .inr (.inr ⟨k, f, seen, rfl, hwoken.1, h.2.symm, h.1.symm⟩)
    · cases h
  | undeduped full f =>
    rw [clientStep] at h
    split at h
    · cases h
      exact .inl (Nat.zero_lt_succ _)
    · cases h
  | renamePair src dst a b =>
    rw [clientStep] at h
    split at h
    · cases h
      exact .inl (Nat.lt_succ_self _)
    · cases h
  | renameSecond src dst a b =>
    rw [clientStep] at h
    split at h
    · cases h
      exact .inl (Nat.zero_lt_succ _)
    · cases h
  | linking src dst =>
    cases h
    exact .inl (Nat.zero_lt_succ _)
  | fetched d op f =>
    rw [clientStep] at h
    split at h
    · rw [Option.some.injEq] at h
      have hrank := descLocked_rank Γ env s d f op
      rw [h] at hrank
      exact .inl (Nat.lt_succ_of_le hrank)
    · cases h
  | preading d f fd size offset served relock =>
    cases h
    exact .inl (Nat.lt_succ_self _)
  | preaded d f res relock =>
    cases res
    all_goals
      rw [clientStep] at h
      split at h
      · cases h
      · cases h
        exact .inl (Nat.zero_lt_succ _)
  | pwriting d f fd buf offset =>
    rw [clientStep] at h
    split at h
    all_goals
      cases h
      exact .inl (Nat.lt_succ_self _)
  | pwrote d f res =>
    cases res
    all_goals
      rw [clientStep] at h
      split at h
      · cases h
        exact .inl (Nat.zero_lt_succ _)
      · cases h
  | attr full c pc =>
    rw [clientStep] at h
    split at h
    · rename_i hstep
      cases h
      exact .inl (Nat.succ_lt_succ (attrStep_rank hstep))
    · cases h
      exact .inl (Nat.zero_lt_succ _)

/-! ## The background thread -/

/-- How far `dedup_hash_file` is from its end, its reading apart. -/
def HashPc.stage : HashPc → Nat
  | .start => 2
  | _ => 1

/-- What `dedup_hash_file` has still to read. -/
def HashPc.left (Γ : Config) (s : State) : HashPc → Nat
  | .raw i got => (s.data i).length - got.length + 1
  | .packed i m got => (((Γ.codec m).decode ((s.data i).drop headerSize)).elim 0 List.length) - got.length + 1
  | _ => 0

/-- How far the background thread is from the next entry of the queue, its reading apart. -/
def WorkerPc.stage : WorkerPc → Nat
  | .idle => 0
  | .dequeued _ _ => 3
  | .compressing _ _ _ => 1
  | .hashing _ pc => pc.stage

/-- What the background thread has still to read. -/
def WorkerPc.left (Γ : Config) (s : State) : WorkerPc → Nat
  | .compressing job got eof => if eof then 0 else (s.data job.ino).length - got.length + 1
  | .hashing _ pc => pc.left Γ s
  | _ => 0

/-- A chunk that is not empty brings the end nearer. -/
theorem left_append_slice {data got : Bytes} (h : Bytes.slice data got.length pageSize ≠ []) :
    data.length - (got ++ Bytes.slice data got.length pageSize).length < data.length - got.length := by
  have hpos := List.length_pos_of_ne_nil h
  rw [Bytes.length_slice] at hpos
  rw [List.length_append, Bytes.length_slice]
  omega

/-- A step of `dedup_hash_file` that is not at its end. -/
theorem hashStep_left (env : Env) (name : Filename) {pc : HashPc} (h : ∀ hash, pc ≠ .finished hash) :
    (hashStep Γ env s name pc).1.files = s.files ∧ (hashStep Γ env s name pc).1.comp = s.comp ∧
      ((hashStep Γ env s name pc).2.stage < pc.stage ∨ ((hashStep Γ env s name pc).2.stage = pc.stage ∧
        (hashStep Γ env s name pc).2.left Γ (hashStep Γ env s name pc).1 < pc.left Γ s)) := by
  cases pc with
  | start =>
    unfold hashStep
    dsimp only
    repeat' split
    all_goals exact ⟨rfl, rfl, .inl (Nat.lt_succ_self _)⟩
  | raw i got =>
    unfold hashStep
    dsimp only
    split
    · exact ⟨rfl, rfl, .inr ⟨rfl, Nat.zero_lt_succ _⟩⟩
    · split
      · exact ⟨rfl, rfl, .inr ⟨rfl, Nat.zero_lt_succ _⟩⟩
      · rename_i hchunk
        exact ⟨rfl, rfl, .inr ⟨rfl, Nat.succ_lt_succ (left_append_slice hchunk)⟩⟩
  | packed i m got =>
    unfold hashStep
    dsimp only
    split
    · exact ⟨rfl, rfl, .inr ⟨rfl, Nat.zero_lt_succ _⟩⟩
    · rename_i d hd
      have hd := (Option.ite_none_right_eq_some.mp hd).2
      split
      · exact ⟨rfl, rfl, .inr ⟨rfl, Nat.zero_lt_succ _⟩⟩
      · rename_i hchunk
        refine ⟨rfl, rfl, .inr ⟨rfl, ?_⟩⟩
        rw [HashPc.left, HashPc.left, hd]
        exact Nat.succ_lt_succ (left_append_slice hchunk)
  | finished hash => exact absurd rfl (h hash)

/-- A step of `dedup_hash_file` is one of the background thread. -/
theorem workerStep_of_not_finished (Γ : Config) (env : Env) (s : State) (f : Nat) {pc : HashPc} (h : ∀ hash, pc ≠ .finished hash) :
    workerStep Γ env s (.hashing f pc) = if s.freed f then none else
      some ((hashStep Γ env s (s.files f).filename pc).1, .hashing f (hashStep Γ env s (s.files f).filename pc).2) := by
  cases pc with
  | finished hash => exact absurd rfl (h hash)
  | _ => rfl

/-- A step of the background thread: it is nearer to the next entry of the queue, or has less to read. -/
theorem workerStep_left {w w' : WorkerPc} (h : workerStep Γ env s w = some (s', w')) :
    4 * s'.comp.length + w'.stage < 4 * s.comp.length + w.stage ∨
      (s'.comp = s.comp ∧ w'.stage = w.stage ∧ s'.files = s.files ∧ w'.left Γ s' < w.left Γ s) := by
  have hbooks := workerStep_refines Γ env s h
  cases w with
  | idle =>
    refine .inl ?_
    change 4 * s'.books.comp.length + w'.stage < 4 * s.books.comp.length + _
    generalize s'.books = b at hbooks ⊢
    cases hbooks with
    | dequeue hcomp =>
      rw [hcomp, List.length_cons]
      exact Nat.lt_of_lt_of_le (Nat.add_lt_add_left (Nat.lt_succ_self 3) _) (by dsimp only; omega)
  | dequeued f isDedup =>
    refine .inl ?_
    change 4 * s'.books.comp.length + w'.stage < 4 * s.books.comp.length + _
    generalize s'.books = b at hbooks ⊢
    cases hbooks with
    | skip => exact Nat.add_lt_add_left (Nat.zero_lt_succ _) _
    | compressBegin => exact Nat.add_lt_add_left (show 1 < 3 by decide) _
    | dedupBegin => exact Nat.add_lt_add_left (show 2 < 3 by decide) _
  | compressing job got eof =>
    rw [workerStep] at h
    split at h
    · rename_i hgoes
      rw [Bool.and_eq_true, Bool.not_eq_true'] at hgoes
      rw [Option.some.injEq, Prod.mk.injEq] at h
      obtain ⟨rfl, rfl⟩ := h
      refine .inr ⟨rfl, rfl, rfl, ?_⟩
      rw [WorkerPc.left, WorkerPc.left, hgoes.2, if_neg Bool.false_ne_true]
      by_cases hchunk : Bytes.slice (s.data job.ino) got.length pageSize = []
      · rw [if_pos (decide_eq_true hchunk)]
        exact Nat.zero_lt_succ _
      · rw [decide_eq_false hchunk, if_neg Bool.false_ne_true]
        exact Nat.succ_lt_succ (left_append_slice hchunk)
    · split at h
      · rw [Option.some.injEq, Prod.mk.injEq] at h
        obtain ⟨-, rfl⟩ := h
        refine .inl ?_
        change 4 * s'.books.comp.length + _ < 4 * s.books.comp.length + _
        generalize s'.books = b at hbooks ⊢
        cases hbooks with
        | compressEnd => exact Nat.lt_succ_self _
      · cases h
  | hashing f pc =>
    by_cases hend : ∀ hash, pc ≠ .finished hash
    · rw [workerStep_of_not_finished Γ env s f hend] at h
      split at h
      · cases h
      · rw [Option.some.injEq, Prod.mk.injEq] at h
        obtain ⟨rfl, rfl⟩ := h
        obtain ⟨hfiles, hcomp, hstage | hleft⟩ := hashStep_left env (s.files f).filename hend
        · refine .inl ?_
          rw [hcomp]
          exact Nat.add_lt_add_left hstage _
        · exact .inr ⟨hcomp, hleft.1, hfiles, hleft.2⟩
    · rw [not_forall] at hend
      obtain ⟨hash, hend⟩ := hend
      rw [not_not] at hend
      subst hend
      refine .inl ?_
      change 4 * s'.books.comp.length + w'.stage < 4 * s.books.comp.length + _
      generalize s'.books = b at hbooks ⊢
      cases hbooks with
      | hash hnot => exact absurd rfl (hnot hash)
      | dedupEnd => exact Nat.lt_succ_self _
      | dedupFailed => exact Nat.lt_succ_self _

/-! ## The system -/

section System

variable {T : Type} [Fintype T] [DecidableEq T] {sys sys' : Sys T}

/-- The step is one of the program: no request comes, and it is not the time that passes. -/
def Label.isWork : Label T → Bool
  | .client _ _ => true
  | .worker _ => true
  | _ => false

/-- What is left to do in the system. -/
def Sys.measure (Γ : Config) (sys : Sys T) : ℕ ×ₗ ℕ ×ₗ ℕ ×ₗ ℕ ×ₗ ℕ :=
  toLex (∑ t, (sys.clients t).rank, toLex (∑ t, (sys.clients t).todo, toLex (4 * sys.shared.comp.length + sys.worker.stage,
    toLex (∑ t, (sys.clients t).woken sys.shared, sys.worker.left Γ sys.shared))))

theorem sum_advance_lt (g : Pc → Nat) {t : T} {s : State} {pc : Pc} (h : g pc < g (sys.clients t)) :
    ∑ u, g ((sys.advance t s pc).clients u) < ∑ u, g (sys.clients u) := by
  refine Finset.sum_lt_sum (fun u _ => ?_) ⟨t, Finset.mem_univ t, ?_⟩
  · by_cases hu : u = t
    · subst hu
      exact le_of_eq_of_le (congrArg g (Function.update_self ..)) h.le
    · exact le_of_eq (congrArg g (Function.update_of_ne hu ..))
  · exact lt_of_eq_of_lt (congrArg g (Function.update_self ..)) h

theorem sum_advance_eq (g : Pc → Nat) {t : T} {s : State} {pc : Pc} (h : g pc = g (sys.clients t)) :
    ∑ u, g ((sys.advance t s pc).clients u) = ∑ u, g (sys.clients u) := by
  refine Finset.sum_congr rfl (fun u _ => ?_)
  by_cases hu : u = t
  · subst hu
    exact (congrArg g (Function.update_self ..)).trans h
  · exact congrArg g (Function.update_of_ne hu ..)

/-- A thread that was woken and waits again is no longer woken, and the others are as they were. -/
theorem sum_woken_lt {t : T} {k : Caller} {f seen : Nat} (hpc : sys.clients t = .waiting k f seen)
    (hwoken : (sys.shared.files f).cond ≠ seen)
    (hcond : ∀ g, (s.files g).cond = (sys.shared.files g).cond) :
    ∑ u, ((sys.advance t s (.waiting k f (sys.shared.files f).cond)).clients u).woken s < ∑ u, (sys.clients u).woken sys.shared := by
  have hsame : ∀ pc : Pc, pc.woken s = pc.woken sys.shared := by
    intro pc
    cases pc with
    | waiting k g seen => rw [Pc.woken, Pc.woken, hcond]
    | _ => rfl
  rw [Finset.sum_congr rfl (fun u _ => hsame _)]
  refine sum_advance_lt (Pc.woken sys.shared) ?_
  rw [hpc, Pc.woken, Pc.woken, if_pos rfl, if_neg hwoken]
  exact Nat.zero_lt_one

/-- Every step of the program leaves less to do. -/
theorem Sys.measure_step {l : Label T} (hl : l.isWork = true) (hs : sys.step Γ l = some sys') :
    sys'.measure Γ < sys.measure Γ := by
  unfold Sys.measure
  rw [Prod.Lex.toLex_lt_toLex]
  cases l with
  | request t r => cases hl
  | tick => cases hl
  | client t env =>
    obtain ⟨s, pc, hstep, rfl⟩ := step_client_eq hs
    rcases clientStep_rank hstep with hrank | ⟨hrank, htodo⟩ | ⟨k, f, seen, hpc, hwoken, rfl, hs'⟩
    · exact .inl (sum_advance_lt Pc.rank hrank)
    · refine .inr ⟨sum_advance_eq Pc.rank hrank, ?_⟩
      rw [Prod.Lex.toLex_lt_toLex]
      exact .inl (sum_advance_lt Pc.todo htodo)
    · have hcond : ∀ g, (s.files g).cond = (sys.shared.files g).cond := by
        intro g
        rw [hs', State.files_modFile]
        split
        · rename_i hg
          rw [hg]
        · rfl
      have hcomp : s.comp = sys.shared.comp := by rw [hs', State.comp_modFile]
      refine .inr ⟨sum_advance_eq Pc.rank (by rw [hpc]; rfl), ?_⟩
      rw [Prod.Lex.toLex_lt_toLex]
      refine .inr ⟨sum_advance_eq Pc.todo (by rw [hpc]; rfl), ?_⟩
      rw [Prod.Lex.toLex_lt_toLex]
      refine .inr ⟨congrArg (fun comp => 4 * comp.length + sys.worker.stage) hcomp, ?_⟩
      rw [Prod.Lex.toLex_lt_toLex]
      exact .inl (sum_woken_lt hpc hwoken hcond)
  | worker env =>
    simp only [Sys.step, Option.ite_none_left_eq_some, Option.map_eq_some_iff] at hs
    obtain ⟨-, ⟨s, w⟩, hstep, rfl⟩ := hs
    refine .inr ⟨rfl, ?_⟩
    rw [Prod.Lex.toLex_lt_toLex]
    refine .inr ⟨rfl, ?_⟩
    rw [Prod.Lex.toLex_lt_toLex]
    rcases workerStep_left hstep with hpending | ⟨hcomp, hstage, hfiles, hleft⟩
    · exact .inl hpending
    · refine .inr ⟨by rw [hcomp, hstage], ?_⟩
      rw [Prod.Lex.toLex_lt_toLex]
      refine .inr ⟨Finset.sum_congr rfl (fun t _ => ?_), hleft⟩
      cases sys.clients t with
      | waiting k f seen => rw [Pc.woken, Pc.woken, hfiles]
      | _ => rfl

end System

end FuseCompress
