import FuseCompress.Lemmas.Unmount
import FuseCompress.Theorems.Tables

/-!
# The loop at unmount comes to an end

Every round either trims an entry or brings it closer to being trimmed (`weight`), as long as the background thread settles what
it is given (`Settles`). A file that `do_compress` refuses and the purge queues again makes the loop run forever.
-/

namespace FuseCompress

variable {Γ : Config} {env : Env} {s : State}

/-! ## The books while the background thread works -/

/-- The number of places that an entry has in the queue. -/
def State.places (s : State) (f : Nat) : Nat := s.comp.countP (fun e => e.file = f)

theorem places_cons {e : CompressT} {rest : List CompressT} (hcomp : s.comp = e :: rest) (f : Nat) :
    s.places f = rest.countP (fun e => e.file = f) + if e.file = f then 1 else 0 := by
  unfold State.places
  rw [hcomp, List.countP_cons]
  simp

/-- An entry of the database has one place in the queue at most. One with a place is there for a reason, and is `K` steps from being
trimmed; one without has a step less to go. -/
structure State.Draining (Γ : Config) (K : Nat) (s : State) : Prop where
  books : s.Unmounting
  wants : ∀ e ∈ s.comp, e.file ∈ s.database → Wants Γ e.isDedup (s.files e.file)
  bound : ∀ f ∈ s.database, s.places f ≤ 1 ∧ weight Γ (s.files f) + (1 - s.places f) ≤ K

/-- One entry of the queue is handled. -/
theorem draining_threadCompress {K : Nat} (he : env.AllOk) (h : s.Draining Γ K) (hset : Settles Γ env s) :
    (threadCompress Γ env s).Draining Γ K ∧ (threadCompress Γ env s).comp.length = s.comp.length - 1 := by
  cases hcomp : s.comp with
  | nil =>
    rw [threadCompress_of_empty hcomp]
    exact ⟨h, by rw [hcomp]; rfl⟩
  | cons e rest =>
    obtain ⟨hlocal, hsound⟩ := threadCompress_local Γ env h.books.sound hcomp
    obtain ⟨hdb, hentries, hqueue, hcount⟩ := dequeued_books Γ s e rest
    have hfiles := (dequeued_same Γ s e rest).1
    have hcomp' := hlocal.comp.trans hqueue
    have hdb' := hlocal.database.trans hdb
    have hother : ∀ f, f ≠ e.file → (threadCompress Γ env s).files f = s.files f := by
      intro f hf
      rw [hlocal.files f hf, hfiles]
    have hplaces : ∀ f, s.places f = (threadCompress Γ env s).places f + if e.file = f then 1 else 0 := by
      intro f
      rw [places_cons hcomp, State.places, hcomp']
    -- the entry at the head, if it is still in the database, has no other place in the queue
    have hhead : e.file ∈ s.database → (threadCompress Γ env s).places e.file = 0 ∧
        ((threadCompress Γ env s).files e.file).accesses = 0 ∧
          weight Γ ((threadCompress Γ env s).files e.file) < weight Γ (s.files e.file) := by
      intro hmem
      have hone := (h.bound e.file hmem).1
      have hp := hplaces e.file
      rw [if_pos rfl] at hp
      have hacc : (s.files e.file).accesses = 1 := by
        rw [h.books.accesses e.file hmem]
        change ((s.places e.file : Nat) : Int) = 1
        omega
      exact ⟨by omega, threadCompress_weight he h.books.sound hcomp hacc (h.wants e (by rw [hcomp]; exact List.mem_cons_self) hmem) hset⟩
    refine ⟨⟨⟨hsound, ?_, ?_, ?_, ?_⟩, ?_, ?_⟩, by rw [hcomp']; rfl⟩
    · rw [hdb']
      exact h.books.nodup
    · rw [hlocal.entries, hentries, hdb']
      exact h.books.entries
    · rw [hlocal.compEntries, hcount, h.books.compEntries, hcomp', hcomp]
      simp
    · intro f hf
      rw [hdb'] at hf
      change _ = (((threadCompress Γ env s).places f : Nat) : Int)
      by_cases hfe : f = e.file
      · subst hfe
        obtain ⟨hp, hacc, -⟩ := hhead hf
        rw [hacc, hp]
        rfl
      · have hp := hplaces f
        rw [if_neg (fun h => hfe h.symm), Nat.add_zero] at hp
        rw [hother f hfe, h.books.accesses f hf, ← hp]
        rfl
    · intro e' he' hmem
      rw [hcomp'] at he'
      rw [hdb'] at hmem
      have hne : e'.file ≠ e.file := by
        intro heq
        have hzero := (hhead (heq ▸ hmem)).1
        rw [State.places, hcomp', List.countP_eq_zero] at hzero
        exact hzero e' he' (decide_eq_true heq)
      rw [hother _ hne]
      exact h.wants e' (by rw [hcomp]; exact List.mem_cons_of_mem _ he') hmem
    · intro f hf
      rw [hdb'] at hf
      obtain ⟨hone, hle⟩ := h.bound f hf
      by_cases hfe : f = e.file
      · subst hfe
        obtain ⟨hp, -, hless⟩ := hhead hf
        have hp' := hplaces e.file
        rw [if_pos rfl] at hp'
        rw [hp]
        omega
      · have hp := hplaces f
        rw [if_neg (fun h => hfe h.symm), Nat.add_zero] at hp
        rw [hother f hfe, ← hp]
        exact ⟨hone, hle⟩

/-- Some entries of the queue are handled. -/
theorem draining_drain {K : Nat} {envs : Nat → Env} (he : ∀ k, (envs k).AllOk) (h : s.Draining Γ K)
    (hset : ∀ k, Settles Γ (envs k) (drain Γ envs s k)) (k : Nat) :
    (drain Γ envs s k).Draining Γ K ∧ (drain Γ envs s k).comp.length = s.comp.length - k := by
  induction k with
  | zero => exact ⟨h, rfl⟩
  | succ k ih =>
    obtain ⟨hk, hlen⟩ := ih
    obtain ⟨hnext, hlen'⟩ := draining_threadCompress (he k) hk (hset k)
    refine ⟨hnext, ?_⟩
    rw [drain, hlen', hlen]
    omega

/-! ## The forced purge -/

/-- While the purge goes through the entries of `todo`: the others that are still in the database have just been queued. -/
structure State.Purging (Γ : Config) (K : Nat) (todo : List Nat) (s : State) : Prop where
  books : s.Unmounting
  distinct : todo.Nodup
  subset : ∀ f ∈ todo, f ∈ s.database
  bound : ∀ f ∈ s.database, weight Γ (s.files f) ≤ K
  queued : ∀ f ∈ s.database, f ∉ todo → s.places f = 1
  wants : ∀ e ∈ s.comp, e.file ∈ s.database → e.file ∉ todo → Wants Γ e.isDedup (s.files e.file)

/-- The purge takes an entry out of the database. -/
theorem purging_detach {K : Nat} {f : Nat} {todo : List Nat} (h : s.Purging Γ K (f :: todo)) : (detach s f).Purging Γ K todo := by
  have hmem := h.subset f List.mem_cons_self
  obtain ⟨hnot, hnodup⟩ := List.nodup_cons.mp h.distinct
  have hsub : ∀ g ∈ (detach s f).database, g ∈ s.database ∧ g ≠ f := fun g hg => ((h.books.nodup.mem_erase_iff).mp hg).symm
  refine ⟨⟨h.books.sound, h.books.nodup.erase f, ?_, h.books.compEntries, ?_⟩, hnodup, ?_, ?_, ?_, ?_⟩
  · change s.entries - 1 = ((s.database.erase f).length : Nat)
    rw [List.length_erase_of_mem hmem, h.books.entries]
    have := List.length_pos_of_mem hmem
    omega
  · exact fun g hg => h.books.accesses g (hsub g hg).1
  · intro g hg
    refine (h.books.nodup.mem_erase_iff).mpr ⟨?_, h.subset g (List.mem_cons_of_mem _ hg)⟩
    rintro rfl
    exact hnot hg
  · exact fun g hg => h.bound g (hsub g hg).1
  · intro g hg hgt
    exact h.queued g (hsub g hg).1 (by simp [(hsub g hg).2, hgt])
  · intro e he hg hgt
    exact h.wants e he (hsub _ hg).1 (by simp [(hsub _ hg).2, hgt])

/-- An entry that is no longer in the database does not matter. -/
theorem purging_local {K f : Nat} {todo : List Nat} {s' : State} (h : s.Purging Γ K todo) (hlocal : s.Local s' f)
    (hs : s'.fs.Sound) (hf : f ∉ s.database) : s'.Purging Γ K todo := by
  have hfiles : ∀ g ∈ s.database, s'.files g = s.files g := by
    intro g hg
    refine hlocal.files g ?_
    rintro rfl
    exact hf hg
  have hplaces : ∀ g, s'.places g = s.places g := by
    intro g
    rw [State.places, State.places, hlocal.comp]
  refine ⟨⟨hs, ?_, ?_, ?_, ?_⟩, h.distinct, ?_, ?_, ?_, ?_⟩
  · rw [hlocal.database]
    exact h.books.nodup
  · rw [hlocal.database, hlocal.entries]
    exact h.books.entries
  · rw [hlocal.compEntries, hlocal.comp]
    exact h.books.compEntries
  · intro g hg
    rw [hlocal.database] at hg
    rw [hfiles g hg, hlocal.comp]
    exact h.books.accesses g hg
  · rw [hlocal.database]
    exact h.subset
  · intro g hg
    rw [hlocal.database] at hg
    rw [hfiles g hg]
    exact h.bound g hg
  · intro g hg hgt
    rw [hlocal.database] at hg
    rw [hplaces]
    exact h.queued g hg hgt
  · intro e he hg hgt
    rw [hlocal.comp] at he
    rw [hlocal.database] at hg
    rw [hfiles _ hg]
    exact h.wants e he hg hgt

/-- The purge puts an unused entry on the queue. -/
theorem purging_queue {K : Nat} {f : Nat} {todo : List Nat} {isDedup : Bool} (h : s.Purging Γ K (f :: todo))
    (hacc : (s.files f).accesses = 0) (hwants : Wants Γ isDedup (s.files f)) :
    (backgroundCompressDedup s f isDedup).Purging Γ K todo := by
  have hmem := h.subset f List.mem_cons_self
  obtain ⟨hnot, hnodup⟩ := List.nodup_cons.mp h.distinct
  have hother : ∀ g, g ≠ f → (backgroundCompressDedup s f isDedup).files g = s.files g := by
    intro g hg
    simp [backgroundCompressDedup, hg]
  have hself : (backgroundCompressDedup s f isDedup).files f = { s.files f with accesses := (s.files f).accesses + 1 } := by
    simp [backgroundCompressDedup]
  have hplaces : ∀ g, (backgroundCompressDedup s f isDedup).places g = s.places g + if f = g then 1 else 0 := by
    intro g
    simp [State.places, backgroundCompressDedup, List.countP_cons]
  have hzero : s.places f = 0 := by
    have := h.books.accesses f hmem
    rw [hacc] at this
    exact (Int.natCast_eq_zero.mp this.symm)
  refine ⟨⟨h.books.sound, h.books.nodup, h.books.entries, ?_, ?_⟩, hnodup, ?_, ?_, ?_, ?_⟩
  · change s.compEntries + 1 = ((s.comp ++ [_]).length : Nat)
    rw [h.books.compEntries]
    simp
  · intro g hg
    change _ = (((backgroundCompressDedup s f isDedup).places g : Nat) : Int)
    rw [hplaces]
    by_cases hgf : g = f
    · subst hgf
      rw [hself, hzero, if_pos rfl]
      simp [hacc]
    · rw [hother g hgf, if_neg (fun h => hgf h.symm), h.books.accesses g hg]
      rfl
  · exact fun g hg => h.subset g (List.mem_cons_of_mem _ hg)
  · intro g hg
    by_cases hgf : g = f
    · subst hgf
      rw [hself]
      exact h.bound g hg
    · rw [hother g hgf]
      exact h.bound g hg
  · intro g hg hgt
    rw [hplaces]
    by_cases hgf : g = f
    · subst hgf
      rw [hzero, if_pos rfl]
    · rw [if_neg (fun h => hgf h.symm)]
      exact h.queued g hg (by simp [hgf, hgt])
  · intro e he hg hgt
    by_cases hef : e.file = f
    · have hin : e ∈ s.comp ++ [{ file := f, isDedup := isDedup }] := he
      rcases List.mem_append.mp hin with hold | hnew
      · have hpos : 0 < s.places f := List.countP_pos_iff.mpr ⟨e, hold, decide_eq_true hef⟩
        omega
      · rw [List.mem_singleton] at hnew
        subst hnew
        rw [hself]
        exact hwants
    · have hin : e ∈ s.comp ++ [{ file := f, isDedup := isDedup }] := he
      rcases List.mem_append.mp hin with hold | hnew
      · rw [hother _ hef]
        exact h.wants e hold hg (by simp [hef, hgt])
      · rw [List.mem_singleton] at hnew
        rw [hnew] at hef
        exact absurd rfl hef

/-- The purge goes on by one entry. -/
theorem purging_purgeFile {K : Nat} {f : Nat} {todo : List Nat} (h : s.Purging Γ K (f :: todo)) :
    (purgeFile Γ env true s f).Purging Γ K todo := by
  have hgone : f ∉ (detach s f).database := fun hf => ((h.books.nodup.mem_erase_iff).mp hf).1 rfl
  unfold purgeFile
  dsimp only
  split
  · rename_i hacc
    split
    · rename_i hwants
      refine purging_queue h hacc ?_
      unfold wantsCompress at hwants
      simp only [Bool.and_eq_true, Bool.not_eq_true', Option.isNone_iff_eq_none, Bool.or_eq_true, decide_eq_true_eq] at hwants
      obtain ⟨⟨⟨⟨⟨⟨⟨hdeleted, hcomp⟩, hsize⟩, -⟩, -⟩, -⟩, hrw⟩, hchoose⟩ := hwants
      exact ⟨hdeleted, hcomp, hchoose, hrw, hsize⟩
    · split
      · rename_i hwants
        exact purging_queue h hacc hwants
      · obtain ⟨hlocal, hfs⟩ := directOpenDelete_local (detach s f) f
        refine purging_local (purging_detach h) hlocal ?_ hgone
        rw [hfs]
        exact h.books.sound
  · exact purging_detach h

theorem purging_foldl {K : Nat} (todo : List Nat) (h : s.Purging Γ K todo) :
    (todo.foldl (purgeFile Γ env true) s).Purging Γ K [] := by
  induction todo generalizing s with
  | nil => exact h
  | cons f todo ih => exact ih (purging_purgeFile h)

/-! ## A round -/

/-- After the purge the entries of the database are on the queue. -/
theorem draining_destroyPurge {K : Nat} (env : Env) (h : s.Unmounting) (hw : ∀ f ∈ s.database, weight Γ (s.files f) ≤ K) :
    (destroyPurge Γ env s).Draining Γ K := by
  unfold destroyPurge
  split
  · rename_i hzero
    have hempty : s.database = [] := by
      have := h.entries
      rw [hzero] at this
      exact List.eq_nil_of_length_eq_zero (Int.natCast_eq_zero.mp this.symm)
    refine ⟨h, ?_, ?_⟩
    · intro e _ hmem
      rw [hempty] at hmem
      exact absurd hmem List.not_mem_nil
    · intro f hf
      rw [hempty] at hf
      exact absurd hf List.not_mem_nil
  · have hstart : s.Purging Γ K s.database :=
      ⟨h, h.nodup, fun f hf => hf, hw, fun f hf hn => absurd hf hn, fun e _ hf hn => absurd hf hn⟩
    have hend : (directOpenPurge Γ env true s).Purging Γ K [] := purging_foldl s.database hstart
    refine ⟨hend.books, fun e he hf => hend.wants e he hf List.not_mem_nil, fun f hf => ?_⟩
    have hone := hend.queued f hf List.not_mem_nil
    have hle := hend.bound f hf
    omega

/-- A round empties the queue, and leaves in the database only entries that are closer to being trimmed. -/
theorem destroyRound_spec {K : Nat} {envs : Nat → Env} (he : ∀ k, (envs k).AllOk) (h : s.Unmounting)
    (hw : ∀ f ∈ s.database, weight Γ (s.files f) ≤ K)
    (hset : ∀ k, Settles Γ (envs (k + 1)) (drain Γ (fun k => envs (k + 1)) (destroyPurge Γ (envs 0) s) k)) :
    (destroyRound Γ envs s).Unmounting ∧ (destroyRound Γ envs s).comp = [] ∧
      ∀ f ∈ (destroyRound Γ envs s).database, weight Γ ((destroyRound Γ envs s).files f) < K := by
  have hpurge := draining_destroyPurge (envs 0) h hw
  obtain ⟨hdrain, hlen⟩ := draining_drain (fun k => he (k + 1)) hpurge hset (destroyPurge Γ (envs 0) s).comp.length
  rw [Nat.sub_self] at hlen
  have hcomp : (destroyRound Γ envs s).comp = [] := List.eq_nil_of_length_eq_zero hlen
  refine ⟨hdrain.books, hcomp, fun f hf => ?_⟩
  have hzero : (destroyRound Γ envs s).places f = 0 := by
    rw [State.places, hcomp]
    rfl
  have hle := (hdrain.bound f hf).2
  change weight Γ ((destroyRound Γ envs s).files f) + (1 - (destroyRound Γ envs s).places f) ≤ K at hle
  rw [hzero] at hle
  omega

theorem destroyRounds_spec {envs : Nat → Nat → Env} (he : ∀ n k, (envs n k).AllOk) (h : s.Unmounting)
    (hset : ∀ n k, Settles Γ (envs n (k + 1))
      (drain Γ (fun k => envs n (k + 1)) (destroyPurge Γ (envs n 0) (destroyRounds Γ envs s n)) k)) (n : Nat) :
    (destroyRounds Γ envs s n).Unmounting ∧ (n ≠ 0 → (destroyRounds Γ envs s n).comp = []) ∧
      ∀ f ∈ (destroyRounds Γ envs s n).database, weight Γ ((destroyRounds Γ envs s n).files f) + n ≤ 7 := by
  induction n with
  | zero => exact ⟨h, fun hn => absurd rfl hn, fun f _ => weight_le Γ _⟩
  | succ n ih =>
    obtain ⟨hbooks, -, hw⟩ := ih
    obtain ⟨hbooks', hcomp, hw'⟩ := destroyRound_spec (K := 7 - n) (he n) hbooks
      (fun f hf => by have := hw f hf; omega) (hset n)
    refine ⟨hbooks', fun _ => hcomp, fun f hf => ?_⟩
    have hless := hw' f hf
    change weight Γ ((destroyRound Γ (envs n) (destroyRounds Γ envs s n)).files f) + (n + 1) ≤ 7
    omega

/-- After eight rounds at most there is nothing left in the database and in the queue, if the background thread settles every file
that it is given. -/
theorem unmount_terminates (Γ : Config) (envs : Nat → Nat → Env) (s : State) (he : ∀ n k, (envs n k).AllOk) (h : s.Unmounting)
    (hset : ∀ n k, Settles Γ (envs n (k + 1))
      (drain Γ (fun k => envs n (k + 1)) (destroyPurge Γ (envs n 0) (destroyRounds Γ envs s n)) k)) :
    ∃ n, (destroyRounds Γ envs s n).entries = 0 ∧ (destroyRounds Γ envs s n).compEntries = 0 := by
  refine ⟨8, ?_⟩
  obtain ⟨hbooks, hcomp, hw⟩ := destroyRounds_spec he h hset 8
  have hempty : (destroyRounds Γ envs s 8).database = [] := by
    refine List.eq_nil_iff_forall_not_mem.mpr (fun f hf => ?_)
    have := hw f hf
    omega
  rw [hbooks.entries, hbooks.compEntries, hempty, hcomp (by decide)]
  exact ⟨rfl, rfl⟩

/-! ## Mounted on a file system for small files -/

/-- No file is on the queue to be deduplicated. -/
structure State.Undeduped (s : State) : Prop where
  sound : s.fs.Sound
  comp : ∀ e ∈ s.comp, e.isDedup = false

theorem undeduped_purgeFile (hdedup : Γ.dedupEnabled = false) (h : s.Undeduped) (f : Nat) :
    (purgeFile Γ env true s f).Undeduped := by
  unfold purgeFile
  dsimp only
  split
  · split
    · refine ⟨h.sound, fun e he => ?_⟩
      change e ∈ s.comp ++ [_] at he
      rcases List.mem_append.mp he with hold | hnew
      · exact h.comp e hold
      · rw [List.mem_singleton] at hnew
        rw [hnew]
    · split
      · rename_i hwants
        simp [wantsDedup, hdedup] at hwants
      · obtain ⟨hlocal, hfs⟩ := directOpenDelete_local (detach s f) f
        refine ⟨?_, fun e he => ?_⟩
        · rw [hfs]
          exact h.sound
        · rw [hlocal.comp] at he
          exact h.comp e he
  · exact ⟨h.sound, h.comp⟩

theorem undeduped_destroyPurge (hdedup : Γ.dedupEnabled = false) (h : s.Undeduped) : (destroyPurge Γ env s).Undeduped := by
  have hfold : ∀ (todo : List Nat) (s : State), s.Undeduped → (todo.foldl (purgeFile Γ env true) s).Undeduped := by
    intro todo
    induction todo with
    | nil => exact fun _ h => h
    | cons f todo ih => exact fun s h => ih _ (undeduped_purgeFile hdedup h f)
  unfold destroyPurge
  split
  · exact h
  · exact hfold _ _ h

theorem undeduped_drain {envs : Nat → Env} (h : s.Undeduped) (k : Nat) : (drain Γ envs s k).Undeduped := by
  induction k with
  | zero => exact h
  | succ k ih =>
    rw [drain]
    generalize drain Γ envs s k = t at ih
    cases hcomp : t.comp with
    | nil =>
      rw [threadCompress_of_empty hcomp]
      exact ih
    | cons e rest =>
      obtain ⟨hlocal, hsound⟩ := threadCompress_local Γ (envs k) ih.sound hcomp
      refine ⟨hsound, fun e' he' => ?_⟩
      rw [hlocal.comp, (dequeued_books Γ t e rest).2.2.1] at he'
      exact ih.comp e' (by rw [hcomp]; exact List.mem_cons_of_mem _ he')

theorem undeduped_destroyRounds (hdedup : Γ.dedupEnabled = false) {envs : Nat → Nat → Env} (h : s.Undeduped) (n : Nat) :
    (destroyRounds Γ envs s n).Undeduped := by
  induction n with
  | zero => exact h
  | succ n ih => exact undeduped_drain (undeduped_destroyPurge hdedup ih) _

/-- On a file system for small files, without deduplication and without `maxcompress`, the background thread settles every file. -/
theorem settles_of_undeduped (hmax : Γ.dontCompressBeyond = 2 ^ 64 - 1) (hmin : Γ.minFilesizeBackground = 0) (h : s.Undeduped) :
    Settles Γ env s := by
  intro entry hentry
  dsimp only
  rw [h.comp entry (List.mem_of_mem_head? hentry), if_neg Bool.false_ne_true]
  intro _ _ _
  refine ⟨Or.inl hmax, fun i _ => ?_⟩
  rw [hmin]
  exact Nat.zero_le _

/-- A mounted file system whose only file `a` has been read by a client: the database holds an entry with its size. -/
def State.readOnce (content : Bytes) : State :=
  { State.mounted (.fileAt ['a'] content) with
    files := fun _ =>
      { filename := ['a'], deleted := false, accesses := 0, size := content.length, compressor := none, skipped := 0,
        dontcompress := false, type := .unset, status := .clear, deduped := true, cache := none, head := [], cond := 0,
        locked := false, leaked := false }
    nextFile := 1
    database := [0]
    entries := 1 }

theorem unmounting_readOnce (content : Bytes) : (State.readOnce content).Unmounting where
  sound := by
    intro p i h
    have hfind := Backing.inoOf_eq_some.mp h
    change Assoc.find [(['a'], Node.reg 0)] p = some (.reg i) at hfind
    rw [Assoc.find_cons] at hfind
    split at hfind
    · cases hfind
      exact Nat.zero_lt_one
    · cases hfind
  nodup := List.nodup_singleton 0
  entries := rfl
  compEntries := rfl
  accesses := fun _ _ => rfl

/-- `unmount_terminates` on a file system for small files, with a raw file of four bytes. -/
theorem unmount_terminates_reiserfs : ∃ n,
    (destroyRounds { Config.plain with minFilesizeBackground := 0 } (fun _ _ => .fine) (.readOnce [1, 2, 3, 4]) n).entries = 0 ∧
      (destroyRounds { Config.plain with minFilesizeBackground := 0 } (fun _ _ => .fine) (.readOnce [1, 2, 3, 4]) n).compEntries = 0 :=
  unmount_terminates _ _ _ (fun _ _ _ => rfl) (unmounting_readOnce _) (fun n k =>
    settles_of_undeduped rfl rfl (undeduped_drain (undeduped_destroyPurge rfl
      (undeduped_destroyRounds rfl ⟨(unmounting_readOnce _).sound, fun _ he => absurd he List.not_mem_nil⟩ n)) k))

/-! ## The failing run -/

/-- The configuration of a mount with `maxcompress=1`. -/
def Config.maxcompress : Config := { Config.plain with dontCompressBeyond := 1024 * 1024 }

/-- 16 MiB. -/
def bigContent : Bytes := List.replicate (16 * 1024 * 1024) 49

/-- The purge puts a file beyond the limit on the queue, and the background thread takes it off again as it was. -/
theorem destroyRound_maxcompress (content : Bytes) (hlen : content.length = 16 * 1024 * 1024) :
    destroyRound .maxcompress (fun _ => .fine) (.readOnce content) = .readOnce content := by
  have hsize : asU64 (content.length : Int) = 16 * 1024 * 1024 := by
    rw [hlen]
    rfl
  have hwants : wantsCompress .maxcompress .fine (State.readOnce content).fs ((State.readOnce content).files 0) = true := by
    have hspace : enoughSpace .maxcompress .fine (content.length : Int) = true := by
      unfold enoughSpace
      rw [hsize]
      decide
    have hbig : decide ((content.length : Int) > ((Config.maxcompress.minFilesizeBackground : Nat) : Int)) = true := by
      rw [hlen]
      decide
    have hchoose : (chooseCompressor .maxcompress ['a']).isSome = true := by decide
    change (true && true && (decide ((content.length : Int) = -1) || decide ((content.length : Int) > _)) && true && true &&
      enoughSpace .maxcompress .fine (content.length : Int) && true && (chooseCompressor .maxcompress ['a']).isSome) = true
    rw [hspace, hbig, hchoose, Bool.or_true]
    rfl
  have hpurge : destroyPurge .maxcompress .fine (.readOnce content) = backgroundCompressDedup (.readOnce content) 0 false := by
    change purgeFile .maxcompress .fine true (.readOnce content) 0 = _
    unfold purgeFile
    dsimp only
    rw [if_pos (show ((State.readOnce content).files 0).accesses = 0 from rfl), if_pos hwants]
  have hnow : compressNow .maxcompress ((backgroundCompressDedup (.readOnce content) 0 false).files 0) = false := by
    change (true && true && true && (false || decide (asU64 (content.length : Int) < 1024 * 1024))) = false
    rw [hsize]
    decide
  have hthread : threadCompress .maxcompress .fine (backgroundCompressDedup (.readOnce content) 0 false) = .readOnce content := by
    have hqueue : dequeued .maxcompress (backgroundCompressDedup (.readOnce content) 0 false) { file := 0, isDedup := false } [] =
        { backgroundCompressDedup (.readOnce content) 0 false with comp := [], compEntries := 0 } := rfl
    rw [threadCompress_eq (show _ = ({ file := 0, isDedup := false } : CompressT) :: [] from rfl), if_neg Bool.false_ne_true, hqueue, hnow,
      if_neg Bool.false_ne_true]
    have hfiles : Function.update (Function.update (State.readOnce content).files 0
        { (State.readOnce content).files 0 with accesses := 1 }) 0 ((State.readOnce content).files 0) = (State.readOnce content).files := by
      rw [Function.update_idem, Function.update_eq_self]
    exact congrArg (fun files => { State.readOnce content with files := files }) hfiles
  change drain _ _ (destroyPurge .maxcompress .fine (.readOnce content)) (destroyPurge .maxcompress .fine (.readOnce content)).comp.length = _
  rw [hpurge]
  exact hthread

/-- Mounted with `maxcompress=1`, a file of 16 MiB is put on the queue in every round. -/
theorem maxcompress_not_terminates : ∃ (Γ : Config) (envs : Nat → Nat → Env) (s : State), (∀ n k, (envs n k).AllOk) ∧
    s.Unmounting ∧ ∀ n, ¬((destroyRounds Γ envs s n).entries = 0 ∧ (destroyRounds Γ envs s n).compEntries = 0) := by
  refine ⟨.maxcompress, fun _ _ => .fine, .readOnce bigContent, fun _ _ _ => rfl, unmounting_readOnce _, fun n h => ?_⟩
  have hsame : ∀ n, destroyRounds .maxcompress (fun _ _ => .fine) (.readOnce bigContent) n = .readOnce bigContent := by
    intro n
    induction n with
    | zero => rfl
    | succ n ih =>
      rw [destroyRounds, ih]
      exact destroyRound_maxcompress bigContent List.length_replicate
  rw [hsame n] at h
  exact absurd h.1 (by decide)

end FuseCompress
