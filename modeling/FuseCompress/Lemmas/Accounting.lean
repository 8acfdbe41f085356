import FuseCompress.Bookkeeping
import Mathlib.Algebra.BigOperators.Group.Finset.Basic
import Mathlib.Algebra.BigOperators.Ring.Finset

/-!
# The count of accesses

The invariant behind the field `accesses`: in every state the books are balanced with what the threads hold, and every request
on a descriptor works on the entry that has it. It is kept by every step of a program whose kernel keeps its promises, as long as
no `rename` moves a descriptor while a request on it is under way.
-/

namespace FuseCompress

open scoped BigOperators

/-! ## One step in the books -/

namespace Books

/-- What later books keep: the names of entries, and the descriptors but for those in `gone`. -/
structure Keeps (b b' : Books) (gone : Nat → Prop) : Prop where
  nextFile : b.nextFile ≤ b'.nextFile
  filename : ∀ f, f < b.nextFile → b'.filename f = b.filename f
  desc : ∀ d, b.live d = true → d < b.nextDesc → ¬gone d → b'.live d = true ∧ b'.owner d = b.owner d

variable {b b' : Books} {gone : Nat → Prop}

theorem Keeps.refl (b : Books) (gone : Nat → Prop) : b.Keeps b gone := ⟨Nat.le_refl _, fun _ _ => rfl, fun _ h _ _ => ⟨h, rfl⟩⟩

theorem Keeps.lock (b : Books) (f : Nat) : b.Keeps (b.lock f) gone := ⟨Nat.le_refl _, fun _ _ => rfl, fun _ h _ _ => ⟨h, rfl⟩⟩

theorem Keeps.unlock (b : Books) (f : Nat) : b.Keeps (b.unlock f) gone := ⟨Nat.le_refl _, fun _ _ => rfl, fun _ h _ _ => ⟨h, rfl⟩⟩

theorem Keeps.acked {f : Nat} (h : b.Acked f b') : b.Keeps b' gone := by
  rcases h with rfl | ⟨_, rfl⟩
  · exact Keeps.refl _ _
  · exact ⟨Nat.le_refl _, fun _ _ => rfl, fun _ h _ _ => ⟨h, rfl⟩⟩

theorem Keeps.newFile (b : Books) (p : Filename) : b.Keeps (b.newFile p) gone where
  nextFile := Nat.le_succ _
  filename _ hf := Function.update_of_ne (Nat.ne_of_lt hf) _ _
  desc _ h _ _ := ⟨h, rfl⟩

/-- A new entry, with the count of entries raised before. -/
theorem Keeps.newFile' (b : Books) (p : Filename) : b.Keeps (({ b with entries := b.entries + 1 } : Books).newFile p) gone where
  nextFile := Nat.le_succ _
  filename _ hf := Function.update_of_ne (Nat.ne_of_lt hf) _ _
  desc _ h _ _ := ⟨h, rfl⟩

theorem Keeps.openDesc (b : Books) (f : Nat) (w : Bool) : b.Keeps (b.openDesc f w) gone where
  nextFile := Nat.le_refl _
  filename _ _ := rfl
  desc d h hd _ := by
    have e : d ≠ b.nextDesc := Nat.ne_of_lt hd
    refine ⟨?_, Function.update_of_ne e _ _⟩
    change Function.update b.live b.nextDesc true d = true
    rw [Function.update_of_ne e]
    exact h

theorem Keeps.release (b : Books) (f d : Nat) : b.Keeps (b.release f d) (· = d) where
  nextFile := Nat.le_refl _
  filename _ _ := rfl
  desc d' h _ hd := by
    refine ⟨?_, rfl⟩
    change Function.update b.live d false d' = true
    rw [Function.update_of_ne hd]
    exact h

theorem Keeps.rename (b : Books) (x y : Nat) : b.Keeps (b.rename x y) (· ∈ b.head x) where
  nextFile := Nat.le_refl _
  filename _ _ := rfl
  desc _ h _ hd := ⟨h, if_neg hd⟩

/-- Books that differ in nothing that is kept. -/
theorem Keeps.of_eq (h1 : b'.nextFile = b.nextFile) (h2 : b'.filename = b.filename) (h3 : b'.live = b.live)
    (h4 : b'.owner = b.owner) : b.Keeps b' gone :=
  ⟨Nat.le_of_eq h1.symm, fun f _ => by rw [h2], fun d hl _ _ => ⟨by rw [h3]; exact hl, by rw [h4]⟩⟩

theorem Keeps.trans {b'' : Books} (h : b.Keeps b' gone) (h' : b'.Keeps b'' gone) (hd : b.nextDesc ≤ b'.nextDesc) :
    b.Keeps b'' gone where
  nextFile := Nat.le_trans h.nextFile h'.nextFile
  filename f hf := (h'.filename f (Nat.lt_of_lt_of_le hf h.nextFile)).trans (h.filename f hf)
  desc d hl hlt hg := by
    obtain ⟨h1, h2⟩ := h.desc d hl hlt hg
    obtain ⟨h3, h4⟩ := h'.desc d h1 (Nat.lt_of_lt_of_le hlt hd) hg
    exact ⟨h3, h4.trans h2⟩

/-- The balance does not depend on how the sum of what the threads hold is written. -/
theorem Balanced.congr {refs refs' : Nat → Nat} (h : b.Balanced refs) (e : ∀ f, refs f = refs' f) : b.Balanced refs' :=
  (funext e : refs = refs') ▸ h

theorem Balanced.acked {refs : Nat → Nat} {f : Nat} (h : b.Balanced refs) (ha : b.Acked f b') : b'.Balanced refs := by
  rcases ha with rfl | ⟨_, rfl⟩
  · exact h
  · exact h.ack f

end Books

section Step

variable {b b' : Books} {f : Nat} {k : Caller} {pc pc' : Pc}

theorem Caller.refs_of_not_counts (h : k.counts = false) (g : Nat) : k.refs g = 0 := by
  cases k <;> first | rfl | cases h

/-- An entry found or made for a caller is one of the entries there are, and its name is the caller's. -/
def Caller.Owns (b : Books) (k : Caller) (f : Nat) : Prop := f < b.nextFile ∧ b.filename f = k.filename

/-- What a caller of `direct_open` knows: the two names of `rename` differ, and its first entry has the first. -/
def Caller.Known (b : Books) : Caller → Prop
  | .renameFrom src dst => src ≠ dst
  | .renameTo src dst a => src ≠ dst ∧ a < b.nextFile ∧ b.filename a = src
  | _ => True

/-- What a thread knows about the entries it is about to use. -/
def Pc.Known (b : Books) : Pc → Prop
  | .opening k => k.Known b
  | .purging todo k _ => (∀ f ∈ todo, f < b.nextFile) ∧ ∀ k', k = some k' → k'.Known b
  | .waiting k f _ => k.Known b ∧ k.Owns b f
  | .undeduped full f => f < b.nextFile ∧ b.filename f = full
  | .renamePair src dst x y =>
    src ≠ dst ∧ (x < b.nextFile ∧ b.filename x = src) ∧ y < b.nextFile ∧ b.filename y = dst
  | .renameSecond src dst x y =>
    src ≠ dst ∧ (x < b.nextFile ∧ b.filename x = src) ∧ y < b.nextFile ∧ b.filename y = dst
  | _ => True

theorem Caller.Known.keeps {gone : Nat → Prop} (h : k.Known b) (hk : b.Keeps b' gone) : k.Known b' := by
  cases k with
  | renameFrom src dst => exact h
  | renameTo src dst a => exact ⟨h.1, Nat.lt_of_lt_of_le h.2.1 hk.nextFile, (hk.filename a h.2.1).trans h.2.2⟩
  | _ => trivial

theorem Pc.Known.keeps {gone : Nat → Prop} (h : pc.Known b) (hk : b.Keeps b' gone) : pc.Known b' := by
  cases pc with
  | opening k => exact Caller.Known.keeps h hk
  | purging todo k force =>
    exact ⟨fun f hf => Nat.lt_of_lt_of_le (h.1 f hf) hk.nextFile, fun k' e => Caller.Known.keeps (h.2 k' e) hk⟩
  | waiting k f seen =>
    exact ⟨Caller.Known.keeps h.1 hk, Nat.lt_of_lt_of_le h.2.1 hk.nextFile, (hk.filename f h.2.1).trans h.2.2⟩
  | undeduped full f => exact ⟨Nat.lt_of_lt_of_le h.1 hk.nextFile, (hk.filename f h.1).trans h.2⟩
  | renamePair src dst x y =>
    obtain ⟨hne, ⟨hx, hxn⟩, hy, hyn⟩ := h
    exact ⟨hne, ⟨Nat.lt_of_lt_of_le hx hk.nextFile, (hk.filename x hx).trans hxn⟩,
      Nat.lt_of_lt_of_le hy hk.nextFile, (hk.filename y hy).trans hyn⟩
  | renameSecond src dst x y =>
    obtain ⟨hne, ⟨hx, hxn⟩, hy, hyn⟩ := h
    exact ⟨hne, ⟨Nat.lt_of_lt_of_le hx hk.nextFile, (hk.filename x hx).trans hxn⟩,
      Nat.lt_of_lt_of_le hy hk.nextFile, (hk.filename y hy).trans hyn⟩
  | _ => trivial

theorem Caller.known_of_not_counts (h : k.counts = false) : k.Known b := by
  cases k with
  | renameFrom => cases h
  | renameTo => cases h
  | _ => trivial

theorem Pc.Free.known (h : pc.Free) : pc.Known b := by
  cases pc with
  | opening k => exact Caller.known_of_not_counts h
  | purging => exact h.elim
  | waiting => exact h.elim
  | undeduped => exact h.elim
  | renamePair => exact h.elim
  | renameSecond => exact h.elim
  | _ => trivial

theorem Pc.Free.refs (h : pc.Free) (g : Nat) : pc.refs g = 0 := by
  cases pc with
  | opening k => exact Caller.refs_of_not_counts h g
  | purging => exact h.elim
  | waiting => exact h.elim
  | renamePair => exact h.elim
  | renameSecond => exact h.elim
  | _ => rfl

theorem Pc.Free.desc (h : pc.Free) : pc.desc = none := by
  cases pc <;> first | rfl | exact h.elim

theorem Pc.refs_of_desc {r : Nat × Nat} (h : pc.desc = some r) (g : Nat) : pc.refs g = 0 := by
  cases pc <;> first | rfl | simp [Pc.desc] at h

theorem Pc.known_of_desc {r : Nat × Nat} (h : pc.desc = some r) : pc.Known b := by
  cases pc <;> trivial

/-- What a caller knows of its entries, it knows afterwards. -/
theorem Body.known (hk : k.Known b) (hf : k.Owns b f) (hb : Body b f k b' pc') : pc'.Known b' := by
  cases hb with
  | done _ _ _ hpc => exact hpc.known
  | failed => trivial
  | opened => trivial
  | undeduped => exact hf
  | renameFrom => exact ⟨hk, hf⟩
  | renameTo => exact ⟨hk.1, hk.2, hf⟩

theorem Enter.known (hk : k.Known b) (hf : k.Owns b f) (he : Enter b f k b' pc') : pc'.Known b' := by
  cases he with
  | wait => exact ⟨hk, hf⟩
  | body _ hb => exact hb.known hk hf

variable {rest : Nat → Nat}

/-- The balance and what the thread knows, after a step of it. -/
def Good (b' : Books) (rest : Nat → Nat) (pc' : Pc) : Prop := b'.Balanced (fun g => rest g + pc'.refs g) ∧ pc'.Known b'

theorem Body.good (h : b.Balanced (fun g => rest g + k.refs g)) (hk : k.Known b) (hf : k.Owns b f)
    (hb : Body b f k b' pc') : Good b' rest pc' := by
  refine ⟨?_, hb.known hk hf⟩
  cases hb with
  | done hc ha _ hpc =>
    refine (h.acked ha).congr (fun g => ?_)
    rw [Caller.refs_of_not_counts hc, hpc.refs]
  | failed => exact h
  | opened => exact h.openDesc hf.1 _
  | undeduped => exact h.lock f
  | renameFrom =>
    refine h.count hf.1 ?_ (fun g hg => ?_)
    · simp [Pc.refs, Caller.refs]
    · simp [Pc.refs, Caller.refs, Ne.symm hg]
  | renameTo =>
    refine h.count hf.1 ?_ (fun g hg => ?_)
    · simp [Pc.refs, Caller.refs]
      ring
    · simp [Pc.refs, Caller.refs, Ne.symm hg]

theorem Body.keeps {gone : Nat → Prop} (hb : Body b f k b' pc') : b.Keeps b' gone := by
  cases hb with
  | done _ ha _ _ => exact .acked ha
  | failed => exact .refl _ _
  | opened => exact .openDesc b f _
  | undeduped => exact .lock b f
  | renameFrom => exact ⟨Nat.le_refl _, fun _ _ => rfl, fun _ h _ _ => ⟨h, rfl⟩⟩
  | renameTo => exact ⟨Nat.le_refl _, fun _ _ => rfl, fun _ h _ _ => ⟨h, rfl⟩⟩

theorem Body.desc (hb : Body b f k b' pc') : pc'.desc = none := by
  cases hb with
  | done _ _ _ hpc => exact hpc.desc
  | _ => rfl

theorem Enter.good (h : b.Balanced (fun g => rest g + k.refs g)) (hk : k.Known b) (hf : k.Owns b f)
    (he : Enter b f k b' pc') : Good b' rest pc' := by
  cases he with
  | wait => exact ⟨h.setStatus f _, hk, hf⟩
  | body _ hb => exact hb.good h hk hf

theorem Enter.keeps {gone : Nat → Prop} (he : Enter b f k b' pc') : b.Keeps b' gone := by
  cases he with
  | wait => exact ⟨Nat.le_refl _, fun _ _ => rfl, fun _ h _ _ => ⟨h, rfl⟩⟩
  | body _ hb => exact hb.keeps

theorem Enter.desc (he : Enter b f k b' pc') : pc'.desc = none := by
  cases he with
  | wait => rfl
  | body _ hb => exact hb.desc

/-- A new entry is found by its number and its name. -/
theorem Caller.owns_newFile (b : Books) (k : Caller) : k.Owns (b.newFile k.filename) b.nextFile :=
  ⟨Nat.lt_succ_self _, Function.update_self _ _ _⟩

/-- `rename` gives back its two accesses. -/
theorem Books.Balanced.uncount {src dst : Filename} {x y : Nat}
    (h : b.Balanced (fun g => rest g + (Pc.renameSecond src dst x y).refs g)) (hne : x ≠ y) (hx : x < b.nextFile)
    (hy : y < b.nextFile) : ((b.count x (-1)).count y (-1)).Balanced rest := by
  have h₁ : (b.count x (-1)).Balanced (fun g => rest g + if y = g then 1 else 0) := by
    refine h.count hx ?_ (fun g hg => ?_)
    · simp [Pc.refs, Ne.symm hne]
    · simp [Pc.refs, Ne.symm hg]
  refine h₁.count hy ?_ (fun g hg => ?_)
  · simp
  · simp [Ne.symm hg]

/-- What a thread knows of its entries, it knows after a step. -/
theorem ClientStep.known {free : Bool} {wants : Nat → Prop} (hk : pc.Known b) (hdb : ∀ f ∈ b.database, f < b.nextFile)
    (hs : ClientStep free wants b pc b' pc') : pc'.Known b' := by
  cases hs with
  | quiet _ hpc' => exact hpc'.known
  | purgeStart => exact ⟨hdb, fun k' e => by cases e⟩
  | found _ hm hn _ he => exact he.known hk ⟨hdb _ hm, hn⟩
  | overfull => exact ⟨hdb, fun k' e => by cases e; exact hk⟩
  | @new k _ _ _ _ hb =>
    have hg : b.Keeps (({ b with entries := b.entries + 1 } : Books).newFile k.filename) (fun _ => False) := .newFile' b _
    exact hb.known (Caller.Known.keeps hk hg) (Caller.owns_newFile { b with entries := b.entries + 1 } k)
  | @purgeUsed f todo k force _ _ =>
    have hk' : (Pc.purging todo k force).Known b := ⟨fun g hg => hk.1 g (List.mem_cons_of_mem _ hg), hk.2⟩
    cases force with
    | true => exact hk'
    | false => exact hk'
  | purgeQueue => exact ⟨fun g hg => hk.1 g (List.mem_cons_of_mem _ hg), hk.2⟩
  | purgeFree => exact ⟨fun g hg => hk.1 g (List.mem_cons_of_mem _ hg), hk.2⟩
  | purgeEnd => trivial
  | @purgeNew k force _ _ hb =>
    have hg : b.Keeps (b.newFile k.filename) (fun _ => False) := .newFile b _
    exact hb.known (Caller.Known.keeps (hk.2 k rfl) hg) (Caller.owns_newFile b k)
  | wake _ _ he => exact he.known hk.1 hk.2
  | openFailed => trivial
  | opened => trivial
  | renameLock => exact hk
  | renameFailed => trivial
  | renamed => trivial
  | locked _ _ _ hpc =>
    rcases hpc with hpc | ⟨hpc, _⟩
    · exact hpc.known
    · exact Pc.known_of_desc hpc
  | released => trivial
  | unlocked _ _ hpc =>
    rcases hpc with hpc | ⟨hpc, _⟩
    · exact hpc.known
    · exact Pc.known_of_desc hpc

/-- A step of a thread keeps the balance. -/
theorem ClientStep.good {free : Bool} {wants : Nat → Prop} (h : b.Balanced (fun g => rest g + pc.refs g)) (hk : pc.Known b)
    (hdb : ∀ f ∈ b.database, f < b.nextFile) (hd : ∀ d f, pc.desc = some (d, f) → b.live d = true ∧ b.owner d = f)
    (hs : ClientStep free wants b pc b' pc') : Good b' rest pc' := by
  refine ⟨?_, hs.known hk hdb⟩
  cases hs with
  | quiet hpc hpc' =>
    refine h.congr (fun g => ?_)
    rw [hpc.refs, hpc'.refs]
  | purgeStart => exact h
  | found _ hm hn _ he => exact (he.good h hk ⟨hdb _ hm, hn⟩).1
  | overfull => exact ⟨h.accesses, h.mem_head, h.nodup, h.live_lt, h.fresh⟩
  | @new k _ _ _ _ hb =>
    have h' : (({ b with entries := b.entries + 1 } : Books).newFile k.filename).Balanced (fun g => rest g + k.refs g) :=
      Books.Balanced.newFile (b := { b with entries := b.entries + 1 })
        ⟨h.accesses, h.mem_head, h.nodup, h.live_lt, h.fresh⟩ k.filename
    have hg : b.Keeps (({ b with entries := b.entries + 1 } : Books).newFile k.filename) (fun _ => False) := .newFile' b _
    exact (hb.good h' (Caller.Known.keeps hk hg) (Caller.owns_newFile { b with entries := b.entries + 1 } k)).1
  | @purgeUsed f todo k force _ _ =>
    cases force with
    | true => exact h.detach f
    | false => exact h
  | @purgeQueue f todo k force isDedup _ _ _ => exact h.enqueue (hk.1 f List.mem_cons_self) isDedup
  | @purgeFree f todo k force _ _ _ => exact (h.detach f).free f
  | purgeEnd => exact h
  | @purgeNew k force _ _ hb =>
    have hg : b.Keeps (b.newFile k.filename) (fun _ => False) := .newFile b _
    exact (hb.good (h.newFile k.filename) (Caller.Known.keeps (hk.2 k rfl) hg) (Caller.owns_newFile b k)).1
  | wake _ _ he => exact (he.good h hk.1 hk.2).1
  | openFailed => exact h.unlock _
  | opened => exact (h.unlock _).openDesc hk.1 _
  | renameLock => exact h.lock _
  | @renameFailed src dst x y _ _ hne => exact (h.unlock x).uncount hne hk.2.1.1 hk.2.2.1
  | @renamed src dst x y _ _ hne => exact ((h.unlock x).uncount hne hk.2.1.1 hk.2.2.1).rename hne hk.2.2.1
  | locked _ _ ha hpc =>
    rcases hpc with hpc | ⟨hpc, _⟩
    · exact (h.acked ha).congr (fun g => by rw [hpc.refs]; rfl)
    · exact (h.acked ha).congr (fun g => by rw [Pc.refs_of_desc hpc]; rfl)
  | @released d f _ =>
    obtain ⟨hl, ho⟩ := hd d f rfl
    subst ho
    exact h.release hl
  | unlocked hdesc _ hpc =>
    rcases hpc with hpc | ⟨hpc, _⟩
    · exact h.congr (fun g => by rw [hpc.refs, Pc.refs_of_desc hdesc])
    · exact h.congr (fun g => by rw [Pc.refs_of_desc hpc, Pc.refs_of_desc hdesc])

/-- The descriptors a step of a thread, from one place to another, takes away from the entries that had them. -/
def Pc.takes (b : Books) : Pc → Pc → Nat → Prop
  | .fetched d .release _, _ => (· = d)
  | .renameSecond _ _ x _, pc' => fun d => pc' = .idle (some .ok) ∧ d ∈ b.head x
  | _, _ => fun _ => False

/-- A step of a thread keeps the other descriptors. -/
theorem ClientStep.keeps {free : Bool} {wants : Nat → Prop} (hs : ClientStep free wants b pc b' pc') :
    b.Keeps b' (pc.takes b pc') := by
  cases hs with
  | quiet => exact .refl _ _
  | purgeStart => exact .refl _ _
  | found _ _ _ _ he => exact he.keeps
  | overfull => exact .of_eq rfl rfl rfl rfl
  | new _ _ hb =>
    exact (Books.Keeps.newFile' b _).trans hb.keeps (Nat.le_refl _)
  | @purgeUsed f todo k force _ _ => cases force <;> exact .of_eq rfl rfl rfl rfl
  | purgeQueue => exact .of_eq rfl rfl rfl rfl
  | purgeFree => exact .of_eq rfl rfl rfl rfl
  | purgeEnd => exact .refl _ _
  | purgeNew hb => exact (Books.Keeps.newFile b _).trans hb.keeps (Nat.le_refl _)
  | wake _ _ he => exact he.keeps
  | openFailed => exact .unlock b _
  | @opened full f _ => exact (Books.Keeps.unlock b f).trans (Books.Keeps.openDesc (b.unlock f) f true) (Nat.le_refl _)
  | renameLock => exact .lock b _
  | renameFailed => exact .of_eq rfl rfl rfl rfl
  | @renamed src dst x y _ _ _ =>
    have h := Books.Keeps.rename (((b.unlock x).count x (-1)).count y (-1)) x y
    exact ⟨h.nextFile, h.filename, fun d hl hd hg => h.desc d hl hd (fun hm => hg ⟨rfl, hm⟩)⟩
  | locked _ _ ha _ => exact .acked ha
  | @released d f _ => exact .release b f d
  | unlocked => exact .refl _ _

/-- Where a step leaves a request on a descriptor, it is the request that was there before. -/
theorem ClientStep.desc {free : Bool} {wants : Nat → Prop} {r : Nat × Nat} (hs : ClientStep free wants b pc b' pc')
    (h : pc'.desc = some r) : pc.desc = some r ∧ pc.releases = none ∧ pc'.releases = none := by
  cases hs with
  | quiet _ hpc' => rw [hpc'.desc] at h; cases h
  | found _ _ _ _ he => rw [he.desc] at h; cases h
  | new _ _ hb => rw [hb.desc] at h; cases h
  | purgeNew hb => rw [hb.desc] at h; cases h
  | wake _ _ he => rw [he.desc] at h; cases h
  | @locked d f op _ _ hop _ _ hpc =>
    rcases hpc with hpc | ⟨hpc, hr⟩
    · rw [hpc.desc] at h; cases h
    · rw [hpc] at h
      refine ⟨h, ?_, hr⟩
      cases op <;> first | rfl | exact absurd rfl hop
  | unlocked hd hr hpc =>
    rcases hpc with hpc | ⟨hpc, hr'⟩
    · rw [hpc.desc] at h; cases h
    · rw [hpc] at h
      exact ⟨hd.trans h, hr, hr'⟩
  | _ => cases h

/-! ### What a step leaves of the database -/

/-- The parts of the books that only the database operations change. -/
def Books.SameDb (b b' : Books) : Prop :=
  b'.database = b.database ∧ b'.entries = b.entries ∧ b'.freed = b.freed ∧ b'.nextFile = b.nextFile ∧ b'.filename = b.filename

theorem Books.SameDb.refl (b : Books) : b.SameDb b := ⟨rfl, rfl, rfl, rfl, rfl⟩

theorem Books.SameDb.trans {b₁ b₂ b₃ : Books} (h : b₁.SameDb b₂) (h' : b₂.SameDb b₃) : b₁.SameDb b₃ :=
  ⟨h'.1.trans h.1, h'.2.1.trans h.2.1, h'.2.2.1.trans h.2.2.1, h'.2.2.2.1.trans h.2.2.2.1, h'.2.2.2.2.trans h.2.2.2.2⟩

theorem Books.sameDb_moveHead (b : Books) (src dst : Nat) : b.SameDb (b.moveHead src dst) := ⟨rfl, rfl, rfl, rfl, rfl⟩

theorem Books.sameDb_moveQueue (b : Books) (src dst : Nat) : b.SameDb (b.moveQueue src dst) := ⟨rfl, rfl, rfl, rfl, rfl⟩

theorem Books.sameDb_rename (b : Books) (src dst : Nat) : b.SameDb (b.rename src dst) := by
  have hstatus : b.SameDb (b.setStatus dst (b.status src)) := ⟨rfl, rfl, rfl, rfl, rfl⟩
  exact (hstatus.trans (sameDb_moveHead _ src dst)).trans (sameDb_moveQueue _ src dst)

theorem Books.Acked.sameDb (h : b.Acked f b') : b.SameDb b' := by
  rcases h with rfl | ⟨_, rfl⟩ <;> exact ⟨rfl, rfl, rfl, rfl, rfl⟩

theorem Body.sameDb (hb : Body b f k b' pc') : b.SameDb b' := by
  cases hb with
  | done _ ha _ _ => exact ha.sameDb
  | _ => exact ⟨rfl, rfl, rfl, rfl, rfl⟩

theorem Enter.sameDb (he : Enter b f k b' pc') : b.SameDb b' := by
  cases he with
  | wait => exact ⟨rfl, rfl, rfl, rfl, rfl⟩
  | body _ hb => exact hb.sameDb

/-- An entry of the database was there before or is new. -/
theorem ClientStep.listed {free : Bool} {wants : Nat → Prop} (hs : ClientStep free wants b pc b' pc') {g : Nat}
    (hg : g ∈ b'.database) : g ∈ b.database ∨ (g = b.nextFile ∧ b'.nextFile = b.nextFile + 1) := by
  have hnew : ∀ {c c' : Books} {k : Caller} {n : Nat} {pc₁ : Pc}, c.database = b.database ++ [b.nextFile] →
      c.nextFile = b.nextFile + 1 → Body c n k c' pc₁ → g ∈ c'.database →
      g ∈ b.database ∨ (g = b.nextFile ∧ c'.nextFile = b.nextFile + 1) := by
    intro c c' k n pc₁ h1 h2 hb hm
    rw [hb.sameDb.1, h1, List.mem_append, List.mem_singleton] at hm
    rcases hm with hm | hm
    · exact Or.inl hm
    · exact Or.inr ⟨hm, hb.sameDb.2.2.2.1.trans h2⟩
  cases hs with
  | found _ _ _ _ he => exact Or.inl (he.sameDb.1 ▸ hg)
  | new _ _ hb => exact hnew rfl rfl hb hg
  | @purgeUsed f todo k force _ _ =>
    cases force with
    | true => exact Or.inl (List.mem_of_mem_erase hg)
    | false => exact Or.inl hg
  | purgeFree => exact Or.inl (List.mem_of_mem_erase hg)
  | purgeNew hb => exact hnew rfl rfl hb hg
  | wake _ _ he => exact Or.inl (he.sameDb.1 ▸ hg)
  | locked _ _ ha _ => exact Or.inl (ha.sameDb.1 ▸ hg)
  | _ => exact Or.inl hg

/-- A step of the background thread keeps the balance. -/
theorem WorkerStep.good {w w' : WorkerPc} (h : b.Balanced (fun g => rest g + w.refs g)) (hs : WorkerStep b w b' w') :
    b'.Balanced (fun g => rest g + w'.refs g) := by
  -- the entry the thread holds is one of those there are
  have hlt : ∀ f, w.refs f = 1 → f < b.nextFile := by
    intro f hf
    by_contra hn
    have := (h.fresh f (by omega)).2.2
    omega
  have drop : ∀ (c : Books) (f : Nat), c.Balanced (fun g => rest g + if f = g then 1 else 0) → f < c.nextFile →
      (c.count f (-1)).Balanced (fun g => rest g + WorkerPc.idle.refs g) := by
    intro c f hc hf
    refine hc.count hf ?_ (fun g hg => ?_)
    · simp [WorkerPc.refs]
    · simp [WorkerPc.refs, Ne.symm hg]
  cases hs with
  | @dequeue entry rest' hc =>
    refine h.dequeue hc ?_ (fun g hg => ?_)
    · simp [WorkerPc.refs]
    · simp [WorkerPc.refs, Ne.symm hg]
  | @skip f _ _ => exact drop b f h (hlt f (if_pos rfl))
  | compressBegin => exact h.setStatus _ _
  | dedupBegin => exact h.setStatus _ _
  | compressRead => exact h
  | hash => exact h
  | @compressEnd job _ _ _ => exact drop _ job.file (h.closeWindow job.file _) (hlt job.file (if_pos rfl))
  | @dedupEnd f _ _ => exact drop _ f (h.closeWindow f _) (hlt f (if_pos rfl))
  | @dedupFailed f _ => exact drop b f h (hlt f (if_pos rfl))

theorem WorkerStep.keeps {w w' : WorkerPc} {gone : Nat → Prop} (hs : WorkerStep b w b' w') : b.Keeps b' gone := by
  cases hs <;> exact .of_eq rfl rfl rfl rfl

theorem WorkerStep.sameDb {w w' : WorkerPc} (hs : WorkerStep b w b' w') : b.SameDb b' := by
  cases hs <;> exact ⟨rfl, rfl, rfl, rfl, rfl⟩

end Step

/-! ## The whole system -/

section System

variable {T : Type} [Fintype T] [DecidableEq T]

/-- What the threads hold of an entry. -/
def Sys.refs (sys : Sys T) (f : Nat) : Nat := sys.worker.refs f + ∑ t, (sys.clients t).refs f

/-- What the threads other than `t` hold of an entry. -/
def Sys.others (sys : Sys T) (t : T) (f : Nat) : Nat :=
  sys.worker.refs f + ∑ t' ∈ Finset.univ.erase t, (sys.clients t').refs f

theorem Sys.refs_eq (sys : Sys T) (t : T) (f : Nat) : sys.refs f = sys.others t f + (sys.clients t).refs f := by
  unfold Sys.refs Sys.others
  rw [← Finset.sum_erase_add Finset.univ _ (Finset.mem_univ t), Nat.add_assoc]

theorem Sys.refs_advance (sys : Sys T) (t : T) (s : State) (pc : Pc) (f : Nat) :
    (sys.advance t s pc).refs f = sys.others t f + pc.refs f := by
  have h : ∑ t' ∈ Finset.univ.erase t, (Function.update sys.clients t pc t').refs f =
      ∑ t' ∈ Finset.univ.erase t, (sys.clients t').refs f := by
    refine Finset.sum_congr rfl (fun t' ht' => ?_)
    rw [Function.update_of_ne (Finset.ne_of_mem_erase ht')]
  rw [Sys.refs_eq _ t]
  unfold Sys.others Sys.advance
  dsimp only
  rw [h, Function.update_self]

/-- What the kernel promises of the requests it makes: it uses a descriptor only while it is open, it releases it once and when
nothing else is under way on it, it writes only through descriptors opened for writing, and it renames nothing to itself. -/
def Sys.Promised (sys : Sys T) : Label T → Prop
  | .request _ (.desc d op) =>
    sys.shared.books.live d = true ∧ (∀ t, (sys.clients t).releases ≠ some d) ∧
      (op = .release → ∀ t, (sys.clients t).onDesc ≠ some d) ∧ (op.isWrite = true → sys.shared.books.writable d = true)
  | .request _ (.rename src dst) => src ≠ dst
  | _ => True

instance (sys : Sys T) (l : Label T) : Decidable (sys.Promised l) :=
  match l with
  | .request _ r =>
    match r with
    | .desc d op =>
      inferInstanceAs (Decidable (sys.shared.books.live d = true ∧ (∀ t, (sys.clients t).releases ≠ some d) ∧
        (op = .release → ∀ t, (sys.clients t).onDesc ≠ some d) ∧
        (op.isWrite = true → sys.shared.books.writable d = true)))
    | .rename src dst => inferInstanceAs (Decidable (src ≠ dst))
    | .getattr _ => isTrue trivial
    | .mknod _ _ _ _ => isTrue trivial
    | .mkdir _ => isTrue trivial
    | .rmdir _ => isTrue trivial
    | .unlink _ => isTrue trivial
    | .link _ _ => isTrue trivial
    | .truncate _ _ => isTrue trivial
    | .chmod _ _ => isTrue trivial
    | .chown _ _ _ => isTrue trivial
    | .utime _ _ _ => isTrue trivial
    | .open _ _ => isTrue trivial
    | .purge => isTrue trivial
    | .sigterm => isTrue trivial
  | .client _ _ => isTrue trivial
  | .worker _ => isTrue trivial
  | .tick => isTrue trivial

/-- The entry whose descriptors a step of a thread moves: the first entry of a rename whose system call succeeds. -/
def Sys.moves (Γ : Config) (sys : Sys T) (t : T) (env : Env) : Option Nat :=
  match sys.clients t with
  | .renameSecond _ _ x y =>
    if (sysRename Γ env sys.shared.fs (sys.shared.files x).filename (sys.shared.files y).filename).2 then some x else none
  | _ => none

/-- No rename moves a descriptor while a request on it is under way: no thread works on the entry that loses its descriptors. -/
def Sys.Unmoved (Γ : Config) (sys : Sys T) : Label T → Prop
  | .client t env => sys.moves Γ t env = none ∨ ∀ t', (sys.clients t').onFile ≠ sys.moves Γ t env
  | _ => True

instance (Γ : Config) (sys : Sys T) (l : Label T) : Decidable (sys.Unmoved Γ l) :=
  match l with
  | .client t env =>
    inferInstanceAs (Decidable (sys.moves Γ t env = none ∨ ∀ t', (sys.clients t').onFile ≠ sys.moves Γ t env))
  | .request _ _ => isTrue trivial
  | .worker _ => isTrue trivial
  | .tick => isTrue trivial

/-- The invariant of the accounting. -/
structure Sys.Counted (sys : Sys T) : Prop where
  balanced : sys.shared.books.Balanced sys.refs
  known : ∀ t, (sys.clients t).Known sys.shared.books
  listed_lt : ∀ f ∈ sys.shared.database, f < sys.shared.nextFile
  desc : ∀ t d f, (sys.clients t).desc = some (d, f) → sys.shared.books.live d = true ∧ sys.shared.books.owner d = f
  excl : ∀ t t' d f, t ≠ t' → (sys.clients t).releases = some d → (sys.clients t').desc ≠ some (d, f)

theorem Pc.desc_of_releases {pc : Pc} {d : Nat} (h : pc.releases = some d) : ∃ f, pc = .fetched d .release f := by
  unfold Pc.releases at h
  split at h
  · cases h
    exact ⟨_, rfl⟩
  · cases h

omit [DecidableEq T] in
/-- At the mount nobody relies on anything. -/
theorem Sys.counted_mounted (fs : Backing) : (Sys.mounted fs : Sys T).Counted where
  balanced :=
    { accesses := fun f => by
        have h : (Sys.mounted fs : Sys T).refs f = 0 := by simp [Sys.refs, Sys.mounted, WorkerPc.refs, Pc.refs]
        rw [h]
        rfl
      mem_head := fun f d => by simp [State.books, Sys.mounted, State.mounted]
      nodup := fun f => List.nodup_nil
      live_lt := fun d h => by cases h
      fresh := fun f _ => ⟨rfl, rfl, by simp [Sys.refs, Sys.mounted, WorkerPc.refs, Pc.refs]⟩ }
  known _ := trivial
  listed_lt f hf := by cases hf
  desc t d f h := by cases h
  excl t t' d f _ h := by cases h

theorem takeRequest_refs (Γ : Config) (s : State) (r : Request) (f : Nat) : (takeRequest Γ s r).refs f = 0 := by
  cases r <;> rfl

omit [Fintype T] [DecidableEq T] in
theorem takeRequest_known (Γ : Config) (sys : Sys T) {t : T} {r : Request} (hp : sys.Promised (.request t r)) :
    (takeRequest Γ sys.shared r).Known sys.shared.books := by
  cases r with
  | rename src dst => exact hp
  | _ => trivial

/-- What the threads know of the entries they are about to use, and the database of the entries it lists. A rename that moves a descriptor
under a request does not change that. -/
structure Sys.Informed (sys : Sys T) : Prop where
  known : ∀ t, (sys.clients t).Known sys.shared.books
  listed_lt : ∀ f ∈ sys.shared.database, f < sys.shared.nextFile

omit [Fintype T] in
theorem Sys.Informed.request {Γ : Config} {sys : Sys T} {t : T} {r : Request} (h : sys.Informed) (hp : sys.Promised (.request t r)) :
    (sys.advance t sys.shared (takeRequest Γ sys.shared r)).Informed := by
  refine ⟨fun t' => ?_, h.listed_lt⟩
  by_cases e : t' = t
  · subst e
    rw [show (sys.advance t' sys.shared (takeRequest Γ sys.shared r)).clients t' = takeRequest Γ sys.shared r from
      Function.update_self _ _ _]
    exact takeRequest_known Γ sys hp
  · rw [show (sys.advance t sys.shared (takeRequest Γ sys.shared r)).clients t' = sys.clients t' from Function.update_of_ne e _ _]
    exact h.known t'

omit [Fintype T] in
theorem Sys.Informed.client {free : Bool} {wants : Nat → Prop} {sys : Sys T} {t : T} {s : State} {pc : Pc} (h : sys.Informed)
    (hs : ClientStep free wants sys.shared.books (sys.clients t) s.books pc) : (sys.advance t s pc).Informed := by
  refine ⟨fun t' => ?_, fun g hg => ?_⟩
  · by_cases e : t' = t
    · subst e
      rw [show (sys.advance t' s pc).clients t' = pc from Function.update_self _ _ _]
      exact hs.known (h.known t') h.listed_lt
    · rw [show (sys.advance t s pc).clients t' = sys.clients t' from Function.update_of_ne e _ _]
      exact (h.known t').keeps hs.keeps
  · rcases hs.listed hg with hg | ⟨rfl, hn⟩
    · exact Nat.lt_of_lt_of_le (h.listed_lt g hg) hs.keeps.nextFile
    · exact Nat.lt_of_lt_of_eq (Nat.lt_succ_self _) hn.symm

omit [Fintype T] [DecidableEq T] in
theorem Sys.Informed.worker {sys : Sys T} {s : State} {w : WorkerPc} (h : sys.Informed)
    (hs : WorkerStep sys.shared.books sys.worker s.books w) : ({ sys with shared := s, worker := w } : Sys T).Informed := by
  have hk : sys.shared.books.Keeps s.books (fun _ => False) := hs.keeps
  refine ⟨fun t => (h.known t).keeps hk, fun f hf => ?_⟩
  obtain ⟨hd, _, _, hn, _⟩ := hs.sameDb
  have hd' : s.database = sys.shared.database := hd
  have hn' : s.nextFile = sys.shared.nextFile := hn
  change f < s.nextFile
  rw [hn']
  exact h.listed_lt f (hd' ▸ hf)

omit [DecidableEq T] in
theorem Sys.Counted.informed {sys : Sys T} (h : sys.Counted) : sys.Informed := ⟨h.known, h.listed_lt⟩

/-- Taking a request keeps the accounting. -/
theorem Sys.Counted.request {Γ : Config} {sys : Sys T} {t : T} {r : Request} {last : Option Reply} (h : sys.Counted)
    (hp : sys.Promised (.request t r)) (hidle : sys.clients t = .idle last) :
    (sys.advance t sys.shared (takeRequest Γ sys.shared r)).Counted := by
  have hself : (sys.advance t sys.shared (takeRequest Γ sys.shared r)).clients t = takeRequest Γ sys.shared r :=
    Function.update_self _ _ _
  have hother : ∀ t', t' ≠ t → (sys.advance t sys.shared (takeRequest Γ sys.shared r)).clients t' = sys.clients t' :=
    fun t' e => Function.update_of_ne e _ _
  have hdesc : ∀ d f, (takeRequest Γ sys.shared r).desc = some (d, f) →
      ∃ op, r = .desc d op ∧ f = sys.shared.books.owner d := by
    intro d f e
    cases r with
    | desc d' op =>
      cases e
      exact ⟨op, rfl, rfl⟩
    | _ => cases e
  refine ⟨?_, (h.informed.request hp).known, h.listed_lt, fun t' d f e => ?_, fun t₁ t₂ d f hne e => ?_⟩
  · refine h.balanced.congr (fun f => ?_)
    rw [Sys.refs_advance, Sys.refs_eq sys t, hidle, takeRequest_refs]
    rfl
  · by_cases e' : t' = t
    · subst e'
      rw [hself] at e
      obtain ⟨op, rfl, rfl⟩ := hdesc d f e
      exact ⟨hp.1, rfl⟩
    · rw [hother t' e'] at e
      exact h.desc t' d f e
  · intro e₂
    by_cases e' : t₁ = t
    · subst e'
      rw [hself] at e
      rw [hother t₂ (Ne.symm hne)] at e₂
      obtain ⟨f', hf'⟩ := Pc.desc_of_releases e
      cases r with
      | desc d' op =>
        cases hf'
        exact hp.2.2.1 rfl t₂ (congrArg (Option.map Prod.fst) e₂)
      | _ => cases hf'
    · rw [hother t₁ e'] at e
      by_cases e'' : t₂ = t
      · subst e''
        rw [hself] at e₂
        obtain ⟨op, rfl, rfl⟩ := hdesc d f e₂
        exact hp.2.1 t₁ e
      · rw [hother t₂ e''] at e₂
        exact h.excl t₁ t₂ d f hne e e₂

/-- A step of a thread keeps the accounting. -/
theorem Sys.Counted.client {free : Bool} {wants : Nat → Prop} {sys : Sys T} {t : T} {s : State} {pc : Pc} (h : sys.Counted)
    (hu : ∀ src dst x y, sys.clients t = .renameSecond src dst x y → pc = .idle (some .ok) →
      ∀ t', (sys.clients t').onFile ≠ some x)
    (hs : ClientStep free wants sys.shared.books (sys.clients t) s.books pc) : (sys.advance t s pc).Counted := by
  have hself : (sys.advance t s pc).clients t = pc := Function.update_self _ _ _
  have hother : ∀ t', t' ≠ t → (sys.advance t s pc).clients t' = sys.clients t' := fun t' e => Function.update_of_ne e _ _
  have hb : sys.shared.books.Balanced (fun g => sys.others t g + (sys.clients t).refs g) :=
    h.balanced.congr (fun f => Sys.refs_eq sys t f)
  obtain ⟨hgood, -⟩ := hs.good hb (h.known t) h.listed_lt (h.desc t)
  obtain ⟨hknown, hlisted⟩ := h.informed.client hs
  -- what another thread is doing with a descriptor goes on
  have hkeep : ∀ t' d f, t' ≠ t → (sys.clients t').desc = some (d, f) → s.books.live d = true ∧ s.books.owner d = f := by
    intro t' d f hne e
    obtain ⟨hl, ho⟩ := h.desc t' d f e
    have hgone : ¬(sys.clients t).takes sys.shared.books pc d := by
      intro hg
      cases hpc : sys.clients t with
      | fetched d' op f' =>
        rw [hpc] at hg
        cases op with
        | release =>
          have hd : d = d' := hg
          subst hd
          exact h.excl t t' d f (Ne.symm hne) (by rw [hpc]; rfl) e
        | _ => exact hg
      | renameSecond src dst x y =>
        rw [hpc] at hg
        have hx : sys.shared.books.owner d = x := ((h.balanced.mem_head x d).mp hg.2).2
        refine hu src dst x y hpc hg.1 t' ?_
        unfold Pc.onFile
        rw [e, Option.map_some, ← hx, ho]
      | _ =>
        rw [hpc] at hg
        exact hg
    obtain ⟨h1, h2⟩ := hs.keeps.desc d hl (h.balanced.live_lt d hl) hgone
    exact ⟨h1, h2.trans ho⟩
  refine ⟨?_, hknown, hlisted, fun t' d f e => ?_, fun t₁ t₂ d f hne e e₂ => ?_⟩
  · exact hgood.congr (fun f => (Sys.refs_advance sys t s pc f).symm)
  · by_cases e' : t' = t
    · subst e'
      rw [hself] at e
      obtain ⟨hd, hr, _⟩ := hs.desc e
      obtain ⟨hl, ho⟩ := h.desc t' d f hd
      have hgone : ¬(sys.clients t').takes sys.shared.books pc d := by
        intro hg
        cases hpc : sys.clients t' with
        | fetched d' op f' =>
          rw [hpc] at hg hr
          cases op with
          | release => cases hr
          | _ => exact hg
        | renameSecond src dst x y =>
          rw [hpc] at hd
          cases hd
        | _ =>
          rw [hpc] at hg
          exact hg
      obtain ⟨h1, h2⟩ := hs.keeps.desc d hl (h.balanced.live_lt d hl) hgone
      exact ⟨h1, h2.trans ho⟩
    · rw [hother t' e'] at e
      exact hkeep t' d f e' e
  · by_cases e' : t₁ = t
    · subst e'
      rw [hself] at e
      obtain ⟨f', rfl⟩ := Pc.desc_of_releases e
      have hr : (Pc.fetched d .release f').desc = some (d, f') := rfl
      obtain ⟨_, _, hn⟩ := hs.desc hr
      cases hn
    · rw [hother t₁ e'] at e
      by_cases e'' : t₂ = t
      · subst e''
        rw [hself] at e₂
        exact h.excl t₁ t₂ d f hne e (hs.desc e₂).1
      · rw [hother t₂ e''] at e₂
        exact h.excl t₁ t₂ d f hne e e₂

omit [DecidableEq T] in
/-- A step of the background thread keeps the accounting. -/
theorem Sys.Counted.worker {sys : Sys T} {s : State} {w : WorkerPc} (h : sys.Counted)
    (hs : WorkerStep sys.shared.books sys.worker s.books w) : ({ sys with shared := s, worker := w } : Sys T).Counted := by
  have hb : sys.shared.books.Balanced (fun g => (∑ t, (sys.clients t).refs g) + sys.worker.refs g) :=
    h.balanced.congr (fun f => Nat.add_comm _ _)
  have hk : sys.shared.books.Keeps s.books (fun _ => False) := hs.keeps
  obtain ⟨hknown, hlisted⟩ := h.informed.worker hs
  refine ⟨(hs.good hb).congr (fun f => Nat.add_comm _ _), hknown, hlisted, fun t d f e => ?_, h.excl⟩
  obtain ⟨hl, ho⟩ := h.desc t d f e
  obtain ⟨h1, h2⟩ := hk.desc d hl (h.balanced.live_lt d hl) (fun hf => hf)
  exact ⟨h1, h2.trans ho⟩

omit [Fintype T] in
/-- What a step of the system is, in the books. -/
theorem Sys.step_cases {Γ : Config} {sys sys' : Sys T} {l : Label T} (hs : sys.step Γ l = some sys') :
    (∃ t r last, l = .request t r ∧ sys.clients t = .idle last ∧
        sys' = sys.advance t sys.shared (takeRequest Γ sys.shared r)) ∨
      (∃ t env s pc, l = .client t env ∧ clientStep Γ env (sys.dbLock = none) sys.shared (sys.clients t) = some (s, pc) ∧
        ClientStep (sys.dbLock = none) (wanted Γ env sys.shared) sys.shared.books (sys.clients t) s.books pc ∧
        sys' = sys.advance t s pc) ∨
      (∃ env s w, l = .worker env ∧ workerStep Γ env sys.shared sys.worker = some (s, w) ∧
        WorkerStep sys.shared.books sys.worker s.books w ∧ sys' = { sys with shared := s, worker := w }) ∨
      (l = .tick ∧ sys' = { sys with shared := sys.shared.withFs (fun b => { b with clock := b.clock + 1 }) }) := by
  unfold Sys.step at hs
  split at hs
  · rename_i t r
    split at hs
    · rename_i last hidle
      split at hs
      · cases hs
      · cases hs
        exact Or.inl ⟨t, r, last, rfl, hidle, rfl⟩
    · cases hs
  · rename_i t env
    split at hs
    · cases hs
    · rw [Option.map_eq_some_iff] at hs
      obtain ⟨⟨s, pc⟩, hc, rfl⟩ := hs
      exact Or.inr (Or.inl ⟨t, env, s, pc, rfl, hc, clientStep_refines Γ env sys.shared hc, rfl⟩)
  · rename_i env
    split at hs
    · cases hs
    · rw [Option.map_eq_some_iff] at hs
      obtain ⟨⟨s, w⟩, hw, rfl⟩ := hs
      exact Or.inr (Or.inr (Or.inl ⟨env, s, w, rfl, hw, workerStep_refines Γ env sys.shared hw, rfl⟩))
  · cases hs
    exact Or.inr (Or.inr (Or.inr ⟨rfl, rfl⟩))

omit [Fintype T] in
/-- Every step keeps what the threads know. -/
theorem Sys.Informed.step {Γ : Config} {sys sys' : Sys T} {l : Label T} (h : sys.Informed) (hp : sys.Promised l)
    (hs : sys.step Γ l = some sys') : sys'.Informed := by
  rcases Sys.step_cases hs with ⟨t, r, last, rfl, -, rfl⟩ | ⟨t, env, s, pc, rfl, -, hc, rfl⟩ | ⟨env, s, w, rfl, -, hw, rfl⟩ | ⟨rfl, rfl⟩
  · exact h.request hp
  · exact h.client hc
  · exact h.worker hw
  · exact ⟨h.known, h.listed_lt⟩

/-- Every step keeps the accounting. -/
theorem Sys.Counted.step {Γ : Config} {sys sys' : Sys T} {l : Label T} (h : sys.Counted)
    (hok : sys.Promised l ∧ sys.Unmoved Γ l) (hs : sys.step Γ l = some sys') : sys'.Counted := by
  rcases Sys.step_cases hs with ⟨t, r, last, rfl, hidle, rfl⟩ | ⟨t, env, s, pc, rfl, he, hc, rfl⟩ | ⟨env, s, w, rfl, _, hw, rfl⟩ |
    ⟨rfl, rfl⟩
  · exact h.request hok.1 hidle
  · refine h.client (fun src dst x y hpc hdone t' => ?_) hc
    -- the rename has succeeded, so it moves the descriptors of `x`
    rw [hpc, clientStep] at he
    split at he
    · cases he
      have hren := (renameLocked_ok Γ env (sys.shared.unlock x)).mp (by simpa using hdone)
      rw [State.fs_unlock, State.filename_unlock, State.filename_unlock] at hren
      have hm : sys.moves Γ t env = some x := by
        unfold Sys.moves
        rw [hpc]
        exact if_pos hren
      rcases hok.2 with hn | hn
      · rw [hm] at hn
        cases hn
      · rw [← hm]
        exact hn t'
    · cases he
  · exact h.worker hw
  · exact ⟨h.balanced, h.known, h.listed_lt, h.desc, h.excl⟩

end System

end FuseCompress
