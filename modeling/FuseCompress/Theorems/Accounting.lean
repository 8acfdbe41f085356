import FuseCompress.Lemmas.Accounting

/-!
# Reference accounting

The field `accesses` of an entry is the number of those who rely on it, in every state of every run in which no `rename` moves a
descriptor while a request on it is under way. Where one does, the request goes on with the entry it has fetched before, and
counts on the wrong one.
-/

namespace FuseCompress

open scoped BigOperators

section Accounted

variable {T : Type} [Fintype T]

/-- How many entries of the queue are for an entry of the database. -/
def State.queuedFor (s : State) (f : Nat) : Nat := s.comp.countP (fun c => c.file = f)

/-- Every count is right: it is the number of the descriptors, queue entries and threads that rely on the entry, every descriptor
is listed at its own entry, and every request on a descriptor works on the entry that lists it. -/
structure Sys.Accounted (sys : Sys T) : Prop where
  accesses : ∀ f, (sys.shared.files f).accesses = (sys.shared.files f).head.length + sys.shared.queuedFor f +
    sys.worker.refs f + ∑ t, (sys.clients t).refs f
  listed : ∀ d, (sys.shared.descs d).live = true → d ∈ (sys.shared.files (sys.shared.descs d).file).head
  served : ∀ t d f, (sys.clients t).desc = some (d, f) → d ∈ (sys.shared.files f).head
  nonneg : ∀ f, 0 ≤ (sys.shared.files f).accesses
  drained : ∀ f, (∀ d, (sys.shared.descs d).live = true → (sys.shared.descs d).file ≠ f) →
    (∀ c ∈ sys.shared.comp, c.file ≠ f) → sys.worker.refs f = 0 → (∀ t, (sys.clients t).refs f = 0) →
    (sys.shared.files f).accesses = 0

/-- Balanced books are right counts. -/
theorem Sys.Counted.accounted {sys : Sys T} (h : sys.Counted) : sys.Accounted := by
  have hacc : ∀ f, (sys.shared.files f).accesses = (sys.shared.files f).head.length + sys.shared.queuedFor f +
      sys.worker.refs f + ∑ t, (sys.clients t).refs f := by
    intro f
    have e := h.balanced.accesses f
    unfold Sys.refs at e
    change (sys.shared.files f).accesses = (((sys.shared.files f).head.length + sys.shared.queuedFor f + _ : Nat) : Int) at e
    rw [e]
    push_cast
    ring
  refine ⟨hacc, fun d hd => ?_, fun t d f hd => ?_, fun f => ?_, fun f hhead hqueue hworker hclients => ?_⟩
  · exact (h.balanced.mem_head _ d).mpr ⟨hd, rfl⟩
  · exact (h.balanced.mem_head f d).mpr (h.desc t d f hd)
  · rw [hacc f]
    omega
  · have hnil : (sys.shared.files f).head = [] := by
      refine List.eq_nil_iff_forall_not_mem.mpr (fun d hd => ?_)
      obtain ⟨hl, ho⟩ := (h.balanced.mem_head f d).mp hd
      exact hhead d hl ho
    have hnone : sys.shared.queuedFor f = 0 := by
      refine List.countP_eq_zero.mpr (fun c hc => ?_)
      rw [decide_eq_true_eq]
      exact hqueue c hc
    rw [hacc f, hnil, hnone, hworker, Finset.sum_eq_zero (fun t _ => hclients t)]
    rfl

end Accounted

/-- In every state of a run in which no rename moves a descriptor under a request, every count is right. -/
theorem accesses_accounted {T : Type} [Fintype T] [DecidableEq T] {Γ : Config} {fs : Backing} {ls : List (Label T)} {sys : Sys T}
    (h : Run (Sys.step Γ) (fun sys l => sys.Promised l ∧ sys.Unmoved Γ l) (Sys.mounted fs) ls sys) : sys.Accounted :=
  (h.invariant (fun _ _ _ hc hok hs => Sys.Counted.step hc hok hs) (Sys.counted_mounted fs)).accounted

/-- A rename that moves a descriptor under a request leaves the request with an entry that does not list its descriptor. -/
theorem Sys.Counted.not_accounted_of_moved {T : Type} [Fintype T] [DecidableEq T] {Γ : Config} {sys sys' : Sys T} {l : Label T}
    (h : sys.Counted) (hm : ¬sys.Unmoved Γ l) (hs : sys.step Γ l = some sys') : ¬sys'.Accounted := by
  intro hacc
  rcases Sys.step_cases hs with ⟨t, r, last, rfl, _⟩ | ⟨t, env, s, pc, rfl, he, _, rfl⟩ | ⟨env, s, w, rfl, _⟩ | ⟨rfl, _⟩
  · exact hm trivial
  · have hm' : sys.moves Γ t env ≠ none ∧ ∃ t', (sys.clients t').onFile = sys.moves Γ t env := by
      simpa only [Sys.Unmoved, not_or, not_forall, not_not] using hm
    obtain ⟨hsome, t', ht'⟩ := hm'
    cases hpc : sys.clients t with
    | renameSecond src dst x y =>
      have hne : x ≠ y := by
        have hk := h.known t
        rw [hpc] at hk
        obtain ⟨hne, ⟨_, hx⟩, _, hy⟩ := hk
        exact fun e => hne (by rw [← hx, ← hy, e])
      unfold Sys.moves at hsome ht'
      rw [hpc] at hsome ht'
      dsimp only at hsome ht'
      split at ht'
      · rename_i hren
        rw [hpc, clientStep] at he
        split at he
        · cases he
          -- the descriptors of `x` are `y`'s now
          have hhead : (renameLocked Γ env (sys.shared.unlock x) x y).1.books.head x = [] := by
            rcases books_renameLocked Γ env (sys.shared.unlock x) hne with ⟨_, hfail⟩ | ⟨hb, _⟩
            · rw [(renameLocked_ok Γ env (sys.shared.unlock x)).mpr (by simpa using hren)] at hfail
              cases hfail
            · rw [hb]
              exact Books.Balanced.head_rename_src _ hne
          obtain ⟨⟨d, f⟩, hd, rfl⟩ := Option.map_eq_some_iff.mp ht'
          have ht : t' ≠ t := by
            rintro rfl
            rw [hpc] at hd
            cases hd
          have hserved := hacc.served t' d f ((congrArg Pc.desc (Function.update_of_ne ht _ _)).trans hd)
          change d ∈ (renameLocked Γ env (sys.shared.unlock f) f y).1.books.head f at hserved
          rw [hhead] at hserved
          cases hserved
        · cases he
      · rename_i hren
        rw [if_neg hren] at hsome
        exact hsome rfl
    | _ =>
      unfold Sys.moves at hsome
      rw [hpc] at hsome
      exact hsome rfl
  · exact hm trivial
  · exact hm trivial

/-- One thread makes and opens a file, another renames it, and the first releases it afterwards. -/
def openRenameRelease : List (Label (Fin 2)) :=
  [.request 0 (.mknod ['a'] 0o100644 0 0), .client 0 .fine, .request 0 (.open ['a'] true), .client 0 .fine,
   .request 1 (.rename ['a'] ['b']), .client 1 .fine, .client 1 .fine, .client 1 .fine, .client 1 .fine,
   .request 0 (.desc 0 .release), .client 0 .fine]

theorem accesses_accounted_openRenameRelease : ∃ sys : Sys (Fin 2),
    Run (Sys.step .plain) (fun sys l => sys.Promised l ∧ sys.Unmoved .plain l) (Sys.mounted .empty) openRenameRelease sys ∧
      sys.Accounted := by
  obtain ⟨sys, h, _⟩ := Run.exists_of_executeIf (show (executeIf (Sys.step .plain)
    (fun sys l => sys.Promised l ∧ sys.Unmoved .plain l) (Sys.mounted .empty) openRenameRelease).any (fun _ => true) = true by
      decide +kernel)
  exact ⟨sys, h, accesses_accounted h⟩

/-- The same, but the first thread has fetched the entry from the descriptor before the rename. -/
def renameUnderRelease : List (Label (Fin 2)) :=
  [.request 0 (.mknod ['a'] 0o100644 0 0), .client 0 .fine, .request 0 (.open ['a'] true), .client 0 .fine,
   .request 0 (.desc 0 .release),
   .request 1 (.rename ['a'] ['b']), .client 1 .fine, .client 1 .fine, .client 1 .fine, .client 1 .fine,
   .client 0 .fine]

/-- The release takes an access from the entry of the old name, which has none left. -/
theorem renameUnderRelease_not_accounted : ¬∀ (ls : List (Label (Fin 2))) (sys : Sys (Fin 2)),
    Run (Sys.step .plain) Sys.Promised (Sys.mounted .empty) ls sys → sys.Accounted := by
  intro h
  obtain ⟨sys, hrun, hneg⟩ := Run.exists_of_executeIf (show (executeIf (Sys.step .plain) Sys.Promised
    (Sys.mounted .empty : Sys (Fin 2)) renameUnderRelease).any (fun sys => (sys.shared.files 0).accesses = -1) = true by
      decide +kernel)
  have hnonneg := (h _ sys hrun).nonneg 0
  rw [decide_eq_true_eq] at hneg
  omega

end FuseCompress
