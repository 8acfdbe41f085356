import Mathlib.Data.Finset.Max

/-!
# Locks that are taken in an order

Threads that each hold some locks and wait for one more. When a lock is taken only above the locks that are held already, a thread
that waits for a lock of the highest rank waits for nobody that waits. One of the threads may take a second lock of the same rank.
-/

namespace FuseCompress

/-- Among threads that wait, each for a lock above those it holds, but for one that may hold others of the same rank, there is one
that waits for none of the others. -/
theorem exists_unblocked {ι L : Type*} (rank : L → Nat) {W : Finset ι} (hne : W.Nonempty) (want : ι → L) (held : ι → List L) (r : ι)
    (horder : ∀ t ∈ W, t ≠ r → ∀ m ∈ held t, rank m < rank (want t))
    (hother : ∀ m ∈ held r, rank m ≤ rank (want r) ∧ m ≠ want r) : ∃ t ∈ W, ∀ u ∈ W, want t ∉ held u := by
  obtain ⟨t, ht, hmax⟩ := W.exists_max_image (fun t => rank (want t)) hne
  by_cases hfree : ∀ u ∈ W, want t ∉ held u
  · exact ⟨t, ht, hfree⟩
  -- whoever holds it is the one that may take a second lock of that rank
  simp only [not_forall, not_not] at hfree
  obtain ⟨u, hu, hm⟩ := hfree
  have hur : u = r := by
    by_contra hne
    have hlt := horder u hu hne _ hm
    exact Nat.not_lt_of_le (hmax u hu) hlt
  subst hur
  have hle := (hother _ hm).1
  refine ⟨u, hu, fun v hv hm' => ?_⟩
  by_cases hvu : v = u
  · subst hvu
    exact (hother _ hm').2 rfl
  · have hlt := horder v hv hvu _ hm'
    have hmax' := hmax v hv
    omega

end FuseCompress
