import FuseCompress.Lemmas.Standing

/-!
# The books between two operations

When no operation is under way, the books count what descriptors and the queue hold and nothing else, and every entry that is in use
is in the database, once for each path. An operation that is under way may hold accesses of its own (`refs`).
-/

namespace FuseCompress

/-- The books are balanced, an entry that is in use is found by its path, and nothing is queued for deduplication. -/
structure Books.Tidy (b : Books) (refs : Nat → Nat) : Prop where
  balanced : b.Balanced refs
  known : ∀ f ∈ b.database, f < b.nextFile
  nodup : b.database.Nodup
  once : ∀ f ∈ b.database, ∀ g ∈ b.database, b.filename f = b.filename g → f = g
  used : ∀ f, b.accesses f ≠ 0 → f ∈ b.database
  queue : ∀ c ∈ b.comp, c.isDedup = false

namespace Books.Tidy

variable {b b' : Books} {refs refs' : Nat → Nat} {f d : Nat}

theorem listed (h : b.Tidy refs) (hd : d ∈ b.head f) : f ∈ b.database := by
  refine h.used f (fun hzero => ?_)
  have hnil := (h.balanced.unused (le_of_eq hzero)).1
  rw [hnil] at hd
  cases hd

/-- A step that keeps the database, and only touches the count of an entry that is in it. -/
theorem of_sameDb (h : b.Tidy refs) (hbalanced : b'.Balanced refs') (hdb : b'.database = b.database) (hnext : b'.nextFile = b.nextFile)
    (hname : b'.filename = b.filename) (hacc : ∀ g, g ∉ b.database → b'.accesses g = b.accesses g)
    (hqueue : ∀ c ∈ b'.comp, c.isDedup = false) : b'.Tidy refs' where
  balanced := hbalanced
  known := by
    rw [hdb, hnext]
    exact h.known
  nodup := by
    rw [hdb]
    exact h.nodup
  once := by
    rw [hdb, hname]
    exact h.once
  used g hg := by
    rw [hdb]
    by_contra hno
    rw [hacc g hno] at hg
    exact hno (h.used g hg)
  queue := hqueue

theorem acked (h : b.Tidy refs) (hacked : b.Acked f b') : b'.Tidy refs := by
  rcases hacked with rfl | ⟨-, rfl⟩
  · exact h
  · exact h.of_sameDb (h.balanced.ack f) rfl rfl rfl (fun _ _ => rfl) h.queue

theorem setStatus (h : b.Tidy refs) (f : Nat) (st : Status) : (b.setStatus f st).Tidy refs :=
  h.of_sameDb (h.balanced.setStatus f st) rfl rfl rfl (fun _ _ => rfl) h.queue

theorem closeWindow (h : b.Tidy refs) (f : Nat) (clear : Status → Status) : (b.closeWindow f clear).Tidy refs :=
  h.of_sameDb (h.balanced.closeWindow f clear) rfl rfl rfl (fun _ _ => rfl) h.queue

theorem count {k : Int} (h : b.Tidy refs) (hf : f ∈ b.database) (hr : (refs' f : Int) = refs f + k)
    (hne : ∀ g, g ≠ f → refs' g = refs g) : (b.count f k).Tidy refs' :=
  h.of_sameDb (h.balanced.count (h.known f hf) hr hne) rfl rfl rfl
    (fun _ hg => Function.update_of_ne (ne_of_mem_of_not_mem hf hg).symm _ _) h.queue

theorem openDesc (h : b.Tidy refs) (hf : f ∈ b.database) (writable : Bool) : (b.openDesc f writable).Tidy refs :=
  h.of_sameDb (h.balanced.openDesc (h.known f hf) writable) rfl rfl rfl
    (fun _ hg => Function.update_of_ne (ne_of_mem_of_not_mem hf hg).symm _ _) h.queue

theorem release (h : b.Tidy refs) (hd : b.live d = true) : (b.release (b.owner d) d).Tidy refs := by
  have hf : b.owner d ∈ b.database := h.listed ((h.balanced.mem_head _ d).mpr ⟨hd, rfl⟩)
  exact h.of_sameDb (h.balanced.release hd) rfl rfl rfl
    (fun _ hg => Function.update_of_ne (ne_of_mem_of_not_mem hf hg).symm _ _) h.queue

theorem enqueue (h : b.Tidy refs) (hf : f ∈ b.database) : (b.enqueue f false).Tidy refs := by
  refine h.of_sameDb (h.balanced.enqueue (h.known f hf) false) rfl rfl rfl
    (fun _ hg => Function.update_of_ne (ne_of_mem_of_not_mem hf hg).symm _ _) (fun c hc => ?_)
  rcases List.mem_append.mp hc with hc | hc
  · exact h.queue c hc
  · rw [List.mem_singleton.mp hc]

/-- The background thread takes over the access that a queue entry counts for. -/
theorem dequeue {entry : CompressT} {rest : List CompressT} (h : b.Tidy refs) (hc : b.comp = entry :: rest)
    (hr : refs' entry.file = refs entry.file + 1) (hne : ∀ g, g ≠ entry.file → refs' g = refs g) :
    ({ b with comp := rest } : Books).Tidy refs' :=
  h.of_sameDb (h.balanced.dequeue hc hr hne) rfl rfl rfl (fun _ _ => rfl)
    (fun c hmem => h.queue c (by rw [hc]; exact List.mem_cons_of_mem _ hmem))

theorem queued_mem {entry : CompressT} {rest : List CompressT} (h : b.Tidy refs) (hc : b.comp = entry :: rest) :
    entry.file ∈ b.database := by
  refine h.used _ (fun hzero => ?_)
  have hq := (h.balanced.unused (le_of_eq hzero)).2.1
  rw [Books.queued, hc, List.countP_cons] at hq
  simp at hq

theorem rename {dst : Nat} (h : b.Tidy refs) (hne : f ≠ dst) (hf : f ∈ b.database) (hdst : dst ∈ b.database) :
    (b.rename f dst).Tidy refs := by
  refine h.of_sameDb (h.balanced.rename hne (h.known dst hdst)) rfl rfl rfl
    (fun _ hg => accesses_rename b hne (ne_of_mem_of_not_mem hf hg).symm (ne_of_mem_of_not_mem hdst hg).symm) (fun c hc => ?_)
  obtain ⟨c₀, hc₀, rfl⟩ := List.mem_map.mp hc
  have hold := h.queue c₀ hc₀
  split
  · exact hold
  · exact hold

/-- An entry that nobody uses leaves the database. -/
theorem drop (h : b.Tidy refs) (hzero : b.accesses f = 0) : ((b.detach f).free f).Tidy refs where
  balanced := (h.balanced.detach f).free f
  known _ hg := h.known _ (List.mem_of_mem_erase hg)
  nodup := h.nodup.erase f
  once g hg g' hg' := h.once g (List.mem_of_mem_erase hg) g' (List.mem_of_mem_erase hg')
  used g hg := by
    have hne : g ≠ f := by
      rintro rfl
      exact hg hzero
    exact (List.mem_erase_of_ne hne).mpr (h.used g hg)
  queue := h.queue

/-- The count of entries is not what finds them. -/
theorem setEntries (h : b.Tidy refs) (k : Int) : ({ b with entries := k } : Books).Tidy refs :=
  h.of_sameDb ⟨h.balanced.accesses, h.balanced.mem_head, h.balanced.nodup, h.balanced.live_lt, h.balanced.fresh⟩ rfl rfl rfl
    (fun _ _ => rfl) h.queue

/-- A new entry, for a path that has none. -/
theorem newFile {p : Filename} (h : b.Tidy refs) (hp : ∀ f ∈ b.database, b.filename f ≠ p) : (b.newFile p).Tidy refs where
  balanced := h.balanced.newFile p
  known f hf := by
    change f ∈ b.database ++ [b.nextFile] at hf
    change f < b.nextFile + 1
    rw [List.mem_append, List.mem_singleton] at hf
    rcases hf with hf | rfl
    · exact Nat.lt_succ_of_lt (h.known f hf)
    · exact Nat.lt_succ_self _
  nodup := by
    change (b.database ++ [b.nextFile]).Nodup
    rw [List.nodup_append]
    refine ⟨h.nodup, List.nodup_singleton _, fun f hf g hg => ?_⟩
    rw [List.mem_singleton] at hg
    exact hg ▸ Nat.ne_of_lt (h.known f hf)
  once f hf g hg e := by
    change f ∈ b.database ++ [b.nextFile] at hf
    change g ∈ b.database ++ [b.nextFile] at hg
    change Function.update b.filename b.nextFile p f = Function.update b.filename b.nextFile p g at e
    have hold : ∀ f ∈ b.database, Function.update b.filename b.nextFile p f = b.filename f :=
      fun f hf => Function.update_of_ne (Nat.ne_of_lt (h.known f hf)) _ _
    rw [List.mem_append, List.mem_singleton] at hf hg
    rcases hf with hf | rfl
    · rcases hg with hg | rfl
      · rw [hold f hf, hold g hg] at e
        exact h.once f hf g hg e
      · rw [hold f hf, Function.update_self] at e
        exact absurd e (hp f hf)
    · rcases hg with hg | rfl
      · rw [hold g hg, Function.update_self] at e
        exact absurd e.symm (hp g hg)
      · rfl
  used f hf := by
    change Function.update b.accesses b.nextFile 0 f ≠ 0 at hf
    change f ∈ b.database ++ [b.nextFile]
    have hne : f ≠ b.nextFile := by
      rintro rfl
      exact hf (Function.update_self ..)
    rw [Function.update_of_ne hne] at hf
    exact List.mem_append_left _ (h.used f hf)
  queue := h.queue

end Books.Tidy

end FuseCompress
