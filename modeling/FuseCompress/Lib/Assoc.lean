import Mathlib.Data.List.Basic

/-!
# Association lists

A finite map as a list of pairs, the first pair with a key counting. Used where entries must be counted as well as looked up.
-/

namespace FuseCompress

universe u v

/-- A finite map from `K` to `V`. -/
abbrev Assoc (K : Type u) (V : Type v) := List (K × V)

namespace Assoc

variable {K : Type u} {V : Type v} [DecidableEq K]

/-- The value at a key. -/
def find : Assoc K V → K → Option V
  | [], _ => none
  | (k', v) :: l, k => if k' = k then some v else find l k

/-- Drop a key. -/
def erase (l : Assoc K V) (k : K) : Assoc K V := l.filter (fun e => e.1 ≠ k)

/-- Set the value at a key. -/
def insert (l : Assoc K V) (k : K) (v : V) : Assoc K V := (k, v) :: l.erase k

@[simp] theorem find_nil (k : K) : find ([] : Assoc K V) k = none := rfl

theorem find_cons (k' : K) (v : V) (l : Assoc K V) (k : K) :
    find ((k', v) :: l) k = if k' = k then some v else find l k := rfl

theorem find_erase (l : Assoc K V) (k k' : K) : find (erase l k) k' = if k' = k then none else find l k' := by
  induction l with
  | nil => simp [erase]
  | cons e l ih =>
    obtain ⟨a, v⟩ := e
    by_cases ha : a = k
    · have he : erase ((a, v) :: l) k = erase l k := by simp [erase, ha]
      rw [he, ih, find_cons]
      by_cases hk : k' = k
      · rw [if_pos hk, if_pos hk]
      · rw [if_neg hk, if_neg hk, if_neg (fun h => hk (h.symm.trans ha))]
    · have he : erase ((a, v) :: l) k = (a, v) :: erase l k := by simp [erase, ha]
      rw [he, find_cons, find_cons, ih]
      by_cases hk : a = k'
      · subst hk
        simp [ha]
      · rw [if_neg hk, if_neg hk]

@[simp] theorem find_erase_self (l : Assoc K V) (k : K) : (l.erase k).find k = none := by simp [find_erase]

theorem find_insert (l : Assoc K V) (k : K) (v : V) (k' : K) :
    (l.insert k v).find k' = if k' = k then some v else l.find k' := by
  unfold insert
  rw [find_cons, find_erase]
  by_cases h : k' = k
  · simp [h]
  · rw [if_neg (fun e => h e.symm), if_neg h, if_neg h]

@[simp] theorem find_insert_self (l : Assoc K V) (k : K) (v : V) : (l.insert k v).find k = some v := by
  simp [find_insert]

/-- A value found is the value of a pair of the list. -/
theorem mem_of_find {l : Assoc K V} {k : K} {v : V} (h : l.find k = some v) : (k, v) ∈ l := by
  induction l with
  | nil => simp at h
  | cons e l ih =>
    obtain ⟨a, w⟩ := e
    rw [find_cons] at h
    split at h
    · rename_i ha
      subst ha
      simp only [Option.some.injEq] at h
      simp [h]
    · exact List.mem_cons_of_mem _ (ih h)

/-- How many entries have value `v`. -/
def count [DecidableEq V] (l : Assoc K V) (v : V) : Nat := (l.filter (fun e => e.2 = v)).length

/-- Two keys with the same value are two entries. -/
theorem two_le_count [DecidableEq V] {l : Assoc K V} {k k' : K} {v : V} (h : l.find k = some v) (h' : l.find k' = some v)
    (hne : k ≠ k') : 2 ≤ l.count v := by
  have hm : (k, v) ∈ l.filter (fun e => e.2 = v) := List.mem_filter.mpr ⟨mem_of_find h, by simp⟩
  have hm' : (k', v) ∈ l.filter (fun e => e.2 = v) := List.mem_filter.mpr ⟨mem_of_find h', by simp⟩
  have hpair : (k, v) ≠ (k', v) := fun e => hne (congrArg Prod.fst e)
  unfold count
  match hl : l.filter (fun e => e.2 = v) with
  | [] => rw [hl] at hm; simp at hm
  | [e] =>
    rw [hl, List.mem_singleton] at hm hm'
    exact absurd (hm.trans hm'.symm) hpair
  | _ :: _ :: _ => simp [hl]

end Assoc

end FuseCompress
