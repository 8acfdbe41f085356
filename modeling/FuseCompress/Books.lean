import FuseCompress.Structs
import Mathlib.Data.List.Nodup

/-!
# The books: who counts on an entry

An abstract model of the database, without contents. The count of accesses of an entry stands for those who rely on it: its
descriptors, the queue entries that name it, and the threads that hold it for a while. The books are *balanced* when it does, and
every operation on them keeps them so, given what the threads hold before and after it.
-/

namespace FuseCompress

/-- The part of a state that the accounting is about. -/
@[ext]
structure Books where
  filename : Nat → Filename
  accesses : Nat → Int
  head : Nat → List Nat
  status : Nat → Status
  cond : Nat → Nat
  locked : Nat → Bool
  comp : List CompressT
  owner : Nat → Nat
  live : Nat → Bool
  writable : Nat → Bool
  nextFile : Nat
  nextDesc : Nat
  database : List Nat
  entries : Int
  freed : Nat → Bool

/-- The books of a state, read off its entries and descriptors. -/
def State.books (s : State) : Books where
  filename f := (s.files f).filename
  accesses f := (s.files f).accesses
  head f := (s.files f).head
  status f := (s.files f).status
  cond f := (s.files f).cond
  locked f := (s.files f).locked
  comp := s.comp
  owner d := (s.descs d).file
  live d := (s.descs d).live
  writable d := (s.descs d).writable
  nextFile := s.nextFile
  nextDesc := s.nextDesc
  database := s.database
  entries := s.entries
  freed := s.freed

namespace Books

/-! ## Operations -/

/-- Change the count of an entry. -/
def count (b : Books) (f : Nat) (k : Int) : Books := { b with accesses := Function.update b.accesses f (b.accesses f + k) }

/-- Take the lock of an entry. -/
def lock (b : Books) (f : Nat) : Books := { b with locked := Function.update b.locked f true }

/-- Give back the lock of an entry. -/
def unlock (b : Books) (f : Nat) : Books := { b with locked := Function.update b.locked f false }

/-- Set the status of an entry. -/
def setStatus (b : Books) (f : Nat) (st : Status) : Books := { b with status := Function.update b.status f st }

/-- Acknowledge a cancellation. -/
def ack (b : Books) (f : Nat) : Books :=
  { b.setStatus f { b.status f with cancel := false } with cond := Function.update b.cond f (b.cond f + 1) }

/-- The background thread is done with an entry: it clears its bit, and acknowledges a cancellation. -/
def closeWindow (b : Books) (f : Nat) (clear : Status → Status) : Books :=
  { b.setStatus f { clear (b.status f) with cancel := false } with
    cond := Function.update b.cond f (b.cond f + if (b.status f).cancel then 1 else 0) }

/-- A new descriptor at the head of the list of an entry. -/
def openDesc (b : Books) (f : Nat) (writable : Bool) : Books :=
  { b.count f 1 with
    head := Function.update b.head f (b.nextDesc :: b.head f)
    owner := Function.update b.owner b.nextDesc f
    live := Function.update b.live b.nextDesc true
    writable := Function.update b.writable b.nextDesc writable
    nextDesc := b.nextDesc + 1 }

/-- A descriptor leaves its list and `f` loses an access. -/
def release (b : Books) (f d : Nat) : Books :=
  { b.count f (-1) with
    head := Function.update b.head (b.owner d) ((b.head (b.owner d)).erase d)
    live := Function.update b.live d false }

/-- A queue entry. -/
def enqueue (b : Books) (f : Nat) (isDedup : Bool) : Books :=
  { b.count f 1 with comp := b.comp ++ [{ file := f, isDedup := isDedup }] }

/-- An entry leaves the database. -/
def detach (b : Books) (f : Nat) : Books := { b with database := b.database.erase f, entries := b.entries - 1 }

/-- An entry is freed. -/
def free (b : Books) (f : Nat) : Books := { b with freed := Function.update b.freed f true }

/-- A new entry in the database. -/
def newFile (b : Books) (filename : Filename) : Books :=
  { b with
    filename := Function.update b.filename b.nextFile filename
    accesses := Function.update b.accesses b.nextFile 0
    head := Function.update b.head b.nextFile []
    status := Function.update b.status b.nextFile .clear
    cond := Function.update b.cond b.nextFile 0
    locked := Function.update b.locked b.nextFile false
    nextFile := b.nextFile + 1
    database := b.database ++ [b.nextFile] }

/-- How many queue entries name an entry. -/
def queued (b : Books) (f : Nat) : Nat := b.comp.countP (fun c => c.file = f)

/-- The descriptors of one entry go to another. -/
def moveHead (b : Books) (src dst : Nat) : Books :=
  { (b.count src (-(b.head src).length)).count dst (b.head src).length with
    head := Function.update (Function.update b.head src []) dst ((b.head src).reverse ++ b.head dst)
    owner := fun d => if d ∈ b.head src then dst else b.owner d }

/-- The queue entries of one entry go to another. -/
def moveQueue (b : Books) (src dst : Nat) : Books :=
  { (b.count src (-b.queued src)).count dst (b.queued src) with
    comp := b.comp.map (fun c => if c.file = src then { c with file := dst } else c) }

/-- The status, the descriptors and the queue entries of one entry go to another. -/
def rename (b : Books) (src dst : Nat) : Books := ((b.setStatus dst (b.status src)).moveHead src dst).moveQueue src dst

/-! ## Balance -/

/-- Every count is the number of those who rely on the entry: descriptors, queue entries, and `refs`, what the threads hold. The
lists of descriptors are those of the live descriptors of each entry. -/
structure Balanced (b : Books) (refs : Nat → Nat) : Prop where
  accesses : ∀ f, b.accesses f = ((b.head f).length + b.queued f + refs f : Nat)
  mem_head : ∀ f d, d ∈ b.head f ↔ b.live d = true ∧ b.owner d = f
  nodup : ∀ f, (b.head f).Nodup
  live_lt : ∀ d, b.live d = true → d < b.nextDesc
  fresh : ∀ f, b.nextFile ≤ f → b.head f = [] ∧ b.queued f = 0 ∧ refs f = 0

namespace Balanced

variable {b : Books} {refs : Nat → Nat}

/-- A count that is not positive says that nobody relies on the entry. -/
theorem unused {f : Nat} (h : b.Balanced refs) (hf : b.accesses f ≤ 0) : b.head f = [] ∧ b.queued f = 0 ∧ refs f = 0 := by
  have := h.accesses f
  have hl : (b.head f).length = 0 := by omega
  exact ⟨List.eq_nil_of_length_eq_zero hl, by omega, by omega⟩

/-- A count of one that the queue accounts for leaves no descriptor. -/
theorem head_eq_nil {f : Nat} (h : b.Balanced refs) (hf : b.accesses f = 1) (hr : 1 ≤ refs f) : b.head f = [] := by
  have := h.accesses f
  have hl : (b.head f).length = 0 := by omega
  exact List.eq_nil_of_length_eq_zero hl

theorem lock (h : b.Balanced refs) (f : Nat) : (b.lock f).Balanced refs :=
  ⟨h.accesses, h.mem_head, h.nodup, h.live_lt, h.fresh⟩

theorem unlock (h : b.Balanced refs) (f : Nat) : (b.unlock f).Balanced refs :=
  ⟨h.accesses, h.mem_head, h.nodup, h.live_lt, h.fresh⟩

theorem setStatus (h : b.Balanced refs) (f : Nat) (st : Status) : (b.setStatus f st).Balanced refs :=
  ⟨h.accesses, h.mem_head, h.nodup, h.live_lt, h.fresh⟩

theorem ack (h : b.Balanced refs) (f : Nat) : (b.ack f).Balanced refs :=
  ⟨h.accesses, h.mem_head, h.nodup, h.live_lt, h.fresh⟩

theorem closeWindow (h : b.Balanced refs) (f : Nat) (clear : Status → Status) : (b.closeWindow f clear).Balanced refs :=
  ⟨h.accesses, h.mem_head, h.nodup, h.live_lt, h.fresh⟩

theorem detach (h : b.Balanced refs) (f : Nat) : (b.detach f).Balanced refs :=
  ⟨h.accesses, h.mem_head, h.nodup, h.live_lt, h.fresh⟩

theorem free (h : b.Balanced refs) (f : Nat) : (b.free f).Balanced refs :=
  ⟨h.accesses, h.mem_head, h.nodup, h.live_lt, h.fresh⟩

/-- The count of an entry changes with what the threads hold. -/
theorem count {refs' : Nat → Nat} {f : Nat} {k : Int} (h : b.Balanced refs) (hf : f < b.nextFile)
    (hr : (refs' f : Int) = refs f + k) (hne : ∀ g, g ≠ f → refs' g = refs g) : (b.count f k).Balanced refs' where
  accesses g := by
    have := h.accesses g
    change Function.update b.accesses f (b.accesses f + k) g = ((b.head g).length + b.queued g + refs' g : Nat)
    by_cases e : g = f
    · subst e
      rw [Function.update_self]
      omega
    · rw [Function.update_of_ne e, hne g e, this]
  mem_head := h.mem_head
  nodup := h.nodup
  live_lt := h.live_lt
  fresh g hg := by
    obtain ⟨h1, h2, h3⟩ := h.fresh g hg
    have hg' : b.nextFile ≤ g := hg
    exact ⟨h1, h2, by rw [hne g (by omega)]; exact h3⟩

theorem openDesc {f : Nat} (h : b.Balanced refs) (hf : f < b.nextFile) (w : Bool) : (b.openDesc f w).Balanced refs where
  accesses g := by
    have := h.accesses g
    change Function.update b.accesses f (b.accesses f + 1) g =
      ((Function.update b.head f (b.nextDesc :: b.head f) g).length + b.queued g + refs g : Nat)
    by_cases e : g = f
    · subst e
      rw [Function.update_self, Function.update_self, List.length_cons]
      omega
    · rw [Function.update_of_ne e, Function.update_of_ne e, this]
  mem_head g d := by
    change d ∈ Function.update b.head f (b.nextDesc :: b.head f) g ↔
      Function.update b.live b.nextDesc true d = true ∧ Function.update b.owner b.nextDesc f d = g
    have hnew : ∀ g', b.nextDesc ∉ b.head g' := fun g' hm =>
      Nat.lt_irrefl _ (h.live_lt _ ((h.mem_head g' _).mp hm).1)
    by_cases hd : d = b.nextDesc
    · subst hd
      rw [Function.update_self, Function.update_self]
      by_cases e : g = f
      · subst e
        simp
      · rw [Function.update_of_ne e]
        simp [hnew g, Ne.symm e]
    · rw [Function.update_of_ne hd, Function.update_of_ne hd, ← h.mem_head]
      by_cases e : g = f
      · subst e
        simp [hd]
      · rw [Function.update_of_ne e]
  nodup g := by
    change (Function.update b.head f (b.nextDesc :: b.head f) g).Nodup
    by_cases e : g = f
    · subst e
      rw [Function.update_self]
      exact List.nodup_cons.mpr ⟨fun hm => Nat.lt_irrefl _ (h.live_lt _ ((h.mem_head g _).mp hm).1), h.nodup g⟩
    · rw [Function.update_of_ne e]
      exact h.nodup g
  live_lt d hd := by
    change Function.update b.live b.nextDesc true d = true at hd
    change d < b.nextDesc + 1
    by_cases e : d = b.nextDesc
    · omega
    · rw [Function.update_of_ne e] at hd
      have := h.live_lt d hd
      omega
  fresh g hg := by
    have hg' : b.nextFile ≤ g := hg
    obtain ⟨h1, h2, h3⟩ := h.fresh g hg'
    refine ⟨?_, h2, h3⟩
    change Function.update b.head f (b.nextDesc :: b.head f) g = []
    rw [Function.update_of_ne (by omega), h1]

/-- Releasing a descriptor, when the access is taken off the entry that has it. -/
theorem release {d : Nat} (h : b.Balanced refs) (hd : b.live d = true) : (b.release (b.owner d) d).Balanced refs where
  accesses g := by
    have := h.accesses g
    change Function.update b.accesses (b.owner d) (b.accesses (b.owner d) + (-1)) g =
      ((Function.update b.head (b.owner d) ((b.head (b.owner d)).erase d) g).length + b.queued g + refs g : Nat)
    by_cases e : g = b.owner d
    · subst e
      have hm : d ∈ b.head (b.owner d) := (h.mem_head _ d).mpr ⟨hd, rfl⟩
      have hl := List.length_erase_of_mem hm
      have hp := List.length_pos_of_mem hm
      rw [Function.update_self, Function.update_self]
      omega
    · rw [Function.update_of_ne e, Function.update_of_ne e, this]
  mem_head g d' := by
    change d' ∈ Function.update b.head (b.owner d) ((b.head (b.owner d)).erase d) g ↔
      Function.update b.live d false d' = true ∧ b.owner d' = g
    by_cases hd' : d' = d
    · subst hd'
      rw [Function.update_self]
      by_cases e : g = b.owner d'
      · subst e
        rw [Function.update_self]
        simp [(h.nodup _).not_mem_erase]
      · rw [Function.update_of_ne e, h.mem_head]
        simp [Ne.symm e]
    · rw [Function.update_of_ne hd', ← h.mem_head]
      by_cases e : g = b.owner d
      · subst e
        rw [Function.update_self, List.mem_erase_of_ne hd']
      · rw [Function.update_of_ne e]
  nodup g := by
    change (Function.update b.head (b.owner d) ((b.head (b.owner d)).erase d) g).Nodup
    by_cases e : g = b.owner d
    · subst e
      rw [Function.update_self]
      exact (h.nodup _).erase d
    · rw [Function.update_of_ne e]
      exact h.nodup g
  live_lt d' hd' := by
    change Function.update b.live d false d' = true at hd'
    by_cases e : d' = d
    · rw [e]
      exact h.live_lt d hd
    · rw [Function.update_of_ne e] at hd'
      exact h.live_lt d' hd'
  fresh g hg := by
    obtain ⟨h1, h2, h3⟩ := h.fresh g hg
    have hm : d ∈ b.head (b.owner d) := (h.mem_head _ d).mpr ⟨hd, rfl⟩
    refine ⟨?_, h2, h3⟩
    change Function.update b.head (b.owner d) ((b.head (b.owner d)).erase d) g = []
    by_cases e : g = b.owner d
    · rw [← e, h1] at hm
      cases hm
    · rw [Function.update_of_ne e, h1]

theorem queued_enqueue (b : Books) (f : Nat) (isDedup : Bool) (g : Nat) :
    (b.enqueue f isDedup).queued g = b.queued g + if f = g then 1 else 0 := by
  unfold queued
  change (b.comp ++ [({ file := f, isDedup := isDedup } : CompressT)]).countP (fun c => c.file = g) = _
  rw [List.countP_append, List.countP_cons]
  simp

theorem enqueue {f : Nat} (h : b.Balanced refs) (hf : f < b.nextFile) (isDedup : Bool) :
    (b.enqueue f isDedup).Balanced refs where
  accesses g := by
    have := h.accesses g
    rw [queued_enqueue]
    change Function.update b.accesses f (b.accesses f + 1) g = ((b.head g).length + _ + refs g : Nat)
    by_cases e : g = f
    · subst e
      rw [Function.update_self, if_pos rfl]
      omega
    · rw [Function.update_of_ne e, if_neg (Ne.symm e)]
      exact this
  mem_head := h.mem_head
  nodup := h.nodup
  live_lt := h.live_lt
  fresh g hg := by
    have hg' : b.nextFile ≤ g := hg
    obtain ⟨h1, h2, h3⟩ := h.fresh g hg'
    refine ⟨h1, ?_, h3⟩
    rw [queued_enqueue, h2, if_neg (by omega)]

/-- The background thread takes the first queue entry and holds its file from now on. -/
theorem dequeue {refs' : Nat → Nat} {entry : CompressT} {rest : List CompressT} (h : b.Balanced refs)
    (hc : b.comp = entry :: rest) (hr : refs' entry.file = refs entry.file + 1)
    (hne : ∀ g, g ≠ entry.file → refs' g = refs g) : ({ b with comp := rest } : Books).Balanced refs' := by
  have hq : ∀ g, b.queued g = rest.countP (fun c => c.file = g) + if entry.file = g then 1 else 0 := by
    intro g
    unfold queued
    rw [hc, List.countP_cons]
    simp
  refine ⟨fun g => ?_, h.mem_head, h.nodup, h.live_lt, fun g hg => ?_⟩
  · have := h.accesses g
    change b.accesses g = ((b.head g).length + rest.countP (fun c => c.file = g) + refs' g : Nat)
    rw [hq g] at this
    by_cases e : g = entry.file
    · subst e
      rw [if_pos rfl] at this
      rw [this, hr]
      congr 1
      omega
    · rw [if_neg (Ne.symm e)] at this
      rw [this, hne g e]
      rfl
  · obtain ⟨h1, h2, h3⟩ := h.fresh g hg
    rw [hq g] at h2
    have e : entry.file ≠ g := by
      intro e
      rw [if_pos e] at h2
      omega
    rw [if_neg e] at h2
    exact ⟨h1, h2, by rw [hne g (Ne.symm e)]; exact h3⟩

theorem newFile (h : b.Balanced refs) (p : Filename) : (b.newFile p).Balanced refs where
  accesses g := by
    have := h.accesses g
    change Function.update b.accesses b.nextFile 0 g =
      ((Function.update b.head b.nextFile [] g).length + b.queued g + refs g : Nat)
    by_cases e : g = b.nextFile
    · obtain ⟨_, h2, h3⟩ := h.fresh g (by omega)
      subst e
      rw [Function.update_self, Function.update_self, h2, h3]
      rfl
    · rw [Function.update_of_ne e, Function.update_of_ne e, this]
  mem_head g d := by
    change d ∈ Function.update b.head b.nextFile [] g ↔ b.live d = true ∧ b.owner d = g
    by_cases e : g = b.nextFile
    · rw [← h.mem_head, (h.fresh g (by omega)).1]
      subst e
      rw [Function.update_self]
    · rw [Function.update_of_ne e, h.mem_head]
  nodup g := by
    change (Function.update b.head b.nextFile [] g).Nodup
    by_cases e : g = b.nextFile
    · subst e
      rw [Function.update_self]
      exact List.nodup_nil
    · rw [Function.update_of_ne e]
      exact h.nodup g
  live_lt := h.live_lt
  fresh g hg := by
    have hg' : b.nextFile + 1 ≤ g := hg
    obtain ⟨h1, h2, h3⟩ := h.fresh g (by omega)
    refine ⟨?_, h2, h3⟩
    change Function.update b.head b.nextFile [] g = []
    rw [Function.update_of_ne (by omega), h1]

/-- Two counts change by opposite amounts. -/
theorem accesses_transfer (b : Books) {src dst : Nat} (hne : src ≠ dst) (k : Int) (g : Nat) :
    ((b.count src (-k)).count dst k).accesses g =
      b.accesses g + if g = dst then k else if g = src then -k else 0 := by
  change Function.update (Function.update b.accesses src (b.accesses src + -k)) dst
    (Function.update b.accesses src (b.accesses src + -k) dst + k) g = _
  by_cases e : g = dst
  · subst e
    rw [Function.update_self, Function.update_of_ne (Ne.symm hne), if_pos rfl]
  · rw [Function.update_of_ne e, if_neg e]
    by_cases e' : g = src
    · subst e'
      rw [Function.update_self, if_pos rfl]
    · rw [Function.update_of_ne e', if_neg e', add_zero]

/-- The descriptors of `src` become descriptors of `dst`. -/
theorem head_moveHead (b : Books) (src dst g : Nat) : (b.moveHead src dst).head g =
    if g = dst then (b.head src).reverse ++ b.head dst else if g = src then [] else b.head g := by
  change Function.update (Function.update b.head src []) dst ((b.head src).reverse ++ b.head dst) g = _
  rw [Function.update_apply, Function.update_apply]

theorem moveHead {src dst : Nat} (h : b.Balanced refs) (hne : src ≠ dst) (hdst : dst < b.nextFile) :
    (b.moveHead src dst).Balanced refs where
  accesses g := by
    have hs := h.accesses src
    have hd := h.accesses dst
    have hg := h.accesses g
    rw [head_moveHead]
    change ((b.count src (-(b.head src).length)).count dst (b.head src).length).accesses g = (_ + b.queued g + refs g : Nat)
    rw [accesses_transfer b hne]
    by_cases e : g = dst
    · subst e
      rw [if_pos rfl, if_pos rfl, List.length_append, List.length_reverse]
      omega
    · rw [if_neg e, if_neg e]
      by_cases e' : g = src
      · subst e'
        rw [if_pos rfl, if_pos rfl, List.length_nil]
        omega
      · rw [if_neg e', if_neg e', hg, add_zero]
  mem_head g d := by
    rw [head_moveHead]
    change _ ↔ b.live d = true ∧ (if d ∈ b.head src then dst else b.owner d) = g
    by_cases hm : d ∈ b.head src
    · have hl := (h.mem_head src d).mp hm
      rw [if_pos hm]
      by_cases e : g = dst
      · subst e
        simp [hm, hl.1]
      · rw [if_neg e]
        by_cases e' : g = src
        · subst e'
          simp [Ne.symm hne]
        · rw [if_neg e', h.mem_head]
          simp [hl.1, hl.2, Ne.symm e', Ne.symm e]
    · rw [if_neg hm]
      by_cases e : g = dst
      · subst e
        rw [if_pos rfl]
        simp only [List.mem_append, List.mem_reverse, hm, false_or, h.mem_head]
      · rw [if_neg e]
        by_cases e' : g = src
        · subst e'
          rw [if_pos rfl, ← h.mem_head]
          simp [hm]
        · rw [if_neg e', h.mem_head]
  nodup g := by
    rw [head_moveHead]
    by_cases e : g = dst
    · subst e
      rw [if_pos rfl]
      refine List.nodup_append.mpr ⟨(List.reverse_perm _).nodup_iff.mpr (h.nodup src), h.nodup g, ?_⟩
      intro d hd d' hd' e
      rw [List.mem_reverse, h.mem_head] at hd
      rw [← e, h.mem_head] at hd'
      exact hne (hd.2.symm.trans hd'.2)
    · rw [if_neg e]
      by_cases e' : g = src
      · rw [if_pos e']
        exact List.nodup_nil
      · rw [if_neg e']
        exact h.nodup g
  live_lt := h.live_lt
  fresh g hg := by
    have hg' : b.nextFile ≤ g := hg
    obtain ⟨h1, h2, h3⟩ := h.fresh g hg'
    refine ⟨?_, h2, h3⟩
    rw [head_moveHead, if_neg (by omega), h1]
    split <;> rfl

/-- After `rename` the old name has no descriptor. -/
theorem head_rename_src (b : Books) {src dst : Nat} (hne : src ≠ dst) : (b.rename src dst).head src = [] := by
  change ((b.setStatus dst (b.status src)).moveHead src dst).head src = []
  rw [head_moveHead, if_neg hne, if_pos rfl]

/-- The queue entries of `src` become queue entries of `dst`. -/
theorem queued_moveQueue (b : Books) {src dst : Nat} (hne : src ≠ dst) (g : Nat) :
    (b.moveQueue src dst).queued g =
      if g = dst then b.queued dst + b.queued src else if g = src then 0 else b.queued g := by
  unfold queued
  change (b.comp.map (fun c => if c.file = src then { c with file := dst } else c)).countP (fun c => c.file = g) = _
  rw [List.countP_map]
  induction b.comp with
  | nil => simp
  | cons c l ih =>
    simp only [List.countP_cons, ih, Function.comp_apply]
    by_cases hc : c.file = src
    · have : c.file ≠ dst := fun e => hne (hc.symm.trans e)
      by_cases hg' : g = dst
      · subst hg'
        simp [hc, hne]
        omega
      · by_cases hg : g = src
        · subst hg
          simp [hc, hg', Ne.symm hne]
        · simp [hc, hg, hg', Ne.symm hg, Ne.symm hg']
    · by_cases hg' : g = dst
      · subst hg'
        simp [hc]
        omega
      · by_cases hg : g = src
        · subst hg
          simp [hc, hg']
        · simp [hc, hg, hg']

theorem moveQueue {src dst : Nat} (h : b.Balanced refs) (hne : src ≠ dst) (hdst : dst < b.nextFile) :
    (b.moveQueue src dst).Balanced refs where
  accesses g := by
    have hs := h.accesses src
    have hd := h.accesses dst
    have hg := h.accesses g
    rw [queued_moveQueue b hne]
    change ((b.count src (-b.queued src)).count dst (b.queued src)).accesses g = ((b.head g).length + _ + refs g : Nat)
    rw [accesses_transfer b hne]
    by_cases e : g = dst
    · subst e
      rw [if_pos rfl, if_pos rfl]
      omega
    · rw [if_neg e, if_neg e]
      by_cases e' : g = src
      · subst e'
        rw [if_pos rfl, if_pos rfl]
        omega
      · rw [if_neg e', if_neg e', hg, add_zero]
  mem_head := h.mem_head
  nodup := h.nodup
  live_lt := h.live_lt
  fresh g hg := by
    have hg' : b.nextFile ≤ g := hg
    obtain ⟨h1, h2, h3⟩ := h.fresh g hg'
    refine ⟨h1, ?_, h3⟩
    rw [queued_moveQueue b hne, if_neg (by omega), h2]
    split <;> rfl

theorem rename {src dst : Nat} (h : b.Balanced refs) (hne : src ≠ dst) (hdst : dst < b.nextFile) :
    (b.rename src dst).Balanced refs :=
  ((h.setStatus dst (b.status src)).moveHead hne hdst).moveQueue hne hdst

end Balanced

/-- The count of an entry that a rename does not touch. -/
theorem accesses_rename (b : Books) {x y g : Nat} (hne : x ≠ y) (hx : g ≠ x) (hy : g ≠ y) :
    (b.rename x y).accesses g = b.accesses g := by
  change (((b.setStatus y (b.status x)).moveHead x y).moveQueue x y).accesses g = _
  change ((((b.setStatus y (b.status x)).moveHead x y).count x (-(_ : Int))).count y _).accesses g = _
  rw [Balanced.accesses_transfer _ hne, if_neg hy, if_neg hx, add_zero]
  change (((b.setStatus y (b.status x)).count x (-(_ : Int))).count y _).accesses g = _
  rw [Balanced.accesses_transfer _ hne, if_neg hy, if_neg hx, add_zero]
  rfl

end Books

end FuseCompress
