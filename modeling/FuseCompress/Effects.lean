import FuseCompress.Lemmas.Frames
import Mathlib.Logic.Relation

/-!
# What a critical section does to the backing directory

Everything a handler does to the names and the inodes below the mount on behalf of one entry is a sequence of a few elementary
effects: bytes written through a descriptor of the entry, a new inode put in place of its name, the name removed. An invariant of
the names and inodes is proved for each effect once (`Effects.invariant`) and holds of every handler.

The effects are relative to an entry `f`, to the descriptor `w` that a write request is made on (none for other requests), to the
names `vis` that count (the attribute files may be left out) and to `n`, the first inode number that was unused before.
-/

namespace FuseCompress

/-- The module on a descriptor is writing. -/
def Desc.writing (x : Desc) : Prop := ∃ chunks, x.handle = some (.writing chunks)

/-- A later state of a descriptor: the same inode or none, and the module is writing only if it was or may start to. -/
structure Desc.Later (may : Prop) (x y : Desc) : Prop where
  file : y.file = x.file
  writable : y.writable = x.writable
  live : y.live = true → x.live = true
  fd : ∀ fd', y.fd = some fd' → ∃ fd, x.fd = some fd ∧ fd.ino = fd'.ino
  writing : y.writing → x.writing ∨ may

theorem Desc.Later.refl (may : Prop) (x : Desc) : Desc.Later may x x :=
  ⟨rfl, rfl, id, fun fd h => ⟨fd, h, rfl⟩, Or.inl⟩

theorem Desc.Later.trans {may : Prop} {x y z : Desc} (h : Desc.Later may x y) (h' : Desc.Later may y z) : Desc.Later may x z where
  file := h'.file.trans h.file
  writable := h'.writable.trans h.writable
  live := fun hl => h.live (h'.live hl)
  fd fd' hz := by
    obtain ⟨fd₁, hy, e₁⟩ := h'.fd fd' hz
    obtain ⟨fd₂, hx, e₂⟩ := h.fd fd₁ hy
    exact ⟨fd₂, hx, e₂.trans e₁⟩
  writing hz := by
    rcases h'.writing hz with hy | hm
    · exact h.writing hy
    · exact Or.inr hm

/-- The backing directory is left alone, and so are the names of the entries. -/
structure Calm (w : Option Nat) (s s' : State) : Prop where
  fs : s'.fs = s.fs
  nextFile : s.nextFile ≤ s'.nextFile
  filename : ∀ g, g < s.nextFile → (s'.files g).filename = (s.files g).filename
  desc : ∀ d, Desc.Later (w = some d) (s.descs d) (s'.descs d)

/-- An elementary effect on the backing directory. -/
inductive Effect (vis : Filename → Prop) (f : Nat) (w : Option Nat) (n : Nat) (s : State) : State → Prop
  | calm {s' : State} : Calm w s s' → Effect vis f w n s s'
  | write {d : Nat} {fd : Fd} {data : Bytes} : (s.descs d).file = f → (s.descs d).fd = some fd →
      (s.descs d).writing ∨ w = some d → Effect vis f w n s (s.withFs (fun b => b.setData fd.ino data))
  | cut {i : Nat} {data : Bytes} : w = none → s.fs.inoOf (s.files f).filename = some i →
      Effect vis f w n s (s.withFs (fun b => b.setData i data))
  | attr {i : Nat} {a : Attr} : Effect vis f w n s (s.withFs (fun b => b.setAttr i a))
  | alloc {data : Bytes} {a : Attr} : Effect vis f w n s (s.withFs (fun b => b.alloc data a))
  | reopen {d temp : Nat} : (s.descs d).file = f → n ≤ temp → temp < s.fs.next →
      Effect vis f w n s (s.modDesc d (fun desc => { desc with fd := some ⟨temp, 0⟩ }))
  | install {temp : Nat} : n ≤ temp → temp < s.fs.next → Effect vis f w n s (s.withFs (fun b => b.setName (s.files f).filename temp))
  | drop : Effect vis f w n s (s.withFs (fun b => b.dropName (s.files f).filename))
  | hidden {b : Backing} : b.inodes = s.fs.inodes → b.next = s.fs.next → (∀ p i, b.inoOf p = some i → s.fs.inoOf p = some i) →
      (∀ p, vis p → b.inoOf p = s.fs.inoOf p) → Effect vis f w n s { s with fs := b }
  | opened {ino pos : Nat} {writable : Bool} : w = none → s.fs.inoOf (s.files f).filename = some ino →
      (writable = true → ∀ p, vis p → s.fs.inoOf p = some ino → p = (s.files f).filename) →
      Effect vis f w n s
        { s with
          descs := Function.update s.descs s.nextDesc
            { file := f, fd := some ⟨ino, pos⟩, writable := writable, handle := none, offset := 0, live := true }
          nextDesc := s.nextDesc + 1 }

/-- A sequence of effects. -/
abbrev Effects (vis : Filename → Prop) (f : Nat) (w : Option Nat) (n : Nat) : State → State → Prop :=
  Relation.ReflTransGen (Effect vis f w n)

section Basic

variable {vis : Filename → Prop} {f n : Nat} {w : Option Nat} {s s' s'' : State}

/-- What every effect keeps, every sequence of effects keeps. -/
theorem Effects.invariant {I : State → Prop} (hI : ∀ s s', I s → Effect vis f w n s s' → I s') (h : Effects vis f w n s s') :
    I s → I s' := by
  induction h with
  | refl => exact id
  | tail _ he ih => exact fun hs => hI _ _ (ih hs) he

theorem Calm.refl (w : Option Nat) (s : State) : Calm w s s :=
  ⟨rfl, Nat.le_refl _, fun _ _ => rfl, fun _ => Desc.Later.refl _ _⟩

theorem Calm.trans (h : Calm w s s') (h' : Calm w s' s'') : Calm w s s'' where
  fs := h'.fs.trans h.fs
  nextFile := h.nextFile.trans h'.nextFile
  filename g hg := (h'.filename g (Nat.lt_of_lt_of_le hg h.nextFile)).trans (h.filename g hg)
  desc d := (h.desc d).trans (h'.desc d)

theorem Calm.effects (h : Calm w s s') : Effects vis f w n s s' := Relation.ReflTransGen.single (.calm h)

/-- Inode numbers are used up. -/
theorem Effects.next_le (h : Effects vis f w n s s') : s.fs.next ≤ s'.fs.next := by
  refine h.invariant (I := fun s' => s.fs.next ≤ s'.fs.next) (fun s₁ s₂ h₁ he => h₁.trans ?_) (Nat.le_refl _)
  cases he with
  | calm h => rw [h.fs]
  | alloc => exact Nat.le_succ _
  | hidden _ h => exact le_of_eq h.symm
  | _ => exact Nat.le_refl _

/-- States with the same backing directory, entries' names and descriptors. -/
theorem Calm.of_eq (h1 : s'.fs = s.fs) (h2 : s'.nextFile = s.nextFile) (h3 : ∀ g, (s'.files g).filename = (s.files g).filename)
    (h4 : s'.descs = s.descs) : Calm w s s' :=
  ⟨h1, le_of_eq h2.symm, fun g _ => h3 g, fun d => by rw [h4]; exact Desc.Later.refl _ _⟩

theorem calm_modFile (g : Nat) {k : FileT → FileT} (h : ∀ x, (k x).filename = x.filename) : Calm w s (s.modFile g k) := by
  refine .of_eq rfl rfl (fun g' => ?_) rfl
  rw [State.files_modFile]
  split
  · rename_i e
    rw [h, e]
  · rfl

theorem calm_modDesc (d : Nat) {k : Desc → Desc} (h : Desc.Later (w = some d) (s.descs d) (k (s.descs d))) :
    Calm w s (s.modDesc d k) := by
  refine ⟨rfl, Nat.le_refl _, fun _ _ => rfl, fun d' => ?_⟩
  rw [State.descs_modDesc]
  split
  · rename_i e
    rw [e]
    exact h
  · exact Desc.Later.refl _ _

theorem calm_abort : Calm w s s.abort := .of_eq rfl rfl (fun _ => rfl) rfl

theorem calm_assert (Γ : Config) (c : Bool) : Calm w s (s.assert Γ c) := by
  rcases s.assert_eq Γ c with e | e <;> rw [e]
  · exact .refl _ _
  · exact calm_abort

end Basic

end FuseCompress
