import FuseCompress.Interleaving
import FuseCompress.Theorems.Overlay
import Mathlib.Data.Fintype.Basic

/-!
# Attribute requests beside compression and decompression

`fusecompress_chmod`, `fusecompress_chown` and `fusecompress_utime` on one path, in any number of threads, with `do_compress` and
`do_decompress` of that path. `chmod` and `chown` take no lock, so each of their system calls is a step; so is the `lstat` of
`utime`, whose other calls are made under the lock of the file. `do_compress` is two steps, since it gives the lock back between
them; `do_decompress` is one.

Whoever calls `do_decompress` has waited for `do_compress` to be over, and `do_compress` only starts on a file without descriptors
(`thread_compress` looks at the count of accesses).
-/

namespace FuseCompress

/-- Where a thread is that serves attribute requests on the path. -/
inductive MetaPc where
  | idle
  /-- `utime`, before its `lstat`. -/
  | utimeStat (c : AttrChange)
  /-- `utime`, before it takes the lock. -/
  | utimeLock (c : AttrChange)
  /-- Before a system call of `chmod` or `chown`. -/
  | attr (c : AttrChange) (pc : AttrPc)
  deriving DecidableEq, Repr

/-- The data, what `do_compress` keeps while it does not have the lock, the threads, and what the requests that have succeeded so
far have asked for. -/
structure MetaSys (T : Type) where
  shared : State
  worker : Option Job
  clients : T → MetaPc
  succeeded : List AttrChange

/-- A step: a thread gets a request, or goes on with it; a critical section of `do_compress`, or `do_decompress`. -/
inductive MetaLabel (T : Type) where
  | request (t : T) (c : AttrChange)
  | client (t : T) (env : Env)
  | compressBegin (env : Env)
  | compressEnd (env : Env)
  | decompress (env : Env)

/-- Where a request begins. -/
def metaStart (Γ : Config) : AttrChange → MetaPc
  | .mode bits => .attr (.mode bits) (attrStart Γ)
  | .owner uid gid => .attr (.owner uid gid) (attrStart Γ)
  | .times atime mtime => .utimeStat (.times atime mtime)

/-- A thread goes on with its request. The last result is what it has asked for, when it has just succeeded. -/
def metaClient (Γ : Config) (env : Env) (s : State) (p : Filename) : MetaPc → Option (State × MetaPc × Option AttrChange)
  | .idle => none
  | .utimeStat c =>
    match sysGetattr Γ env s.fs p with
    | .notRegular => some (s, .idle, if env.ok .lutimes then some c else none)
    | _ => some (s, .utimeLock c, none)
  | .utimeLock c =>
    let r := utimeLocked Γ env s p c
    some (r.1, .idle, if r.2 = .ok then some c else none)
  | .attr c pc =>
    match attrStep Γ env s.fs p c pc with
    | (b, .inl pc) => some ({ s with fs := b }, .attr c pc, none)
    | (b, .inr res) => some ({ s with fs := b }, .idle, if res then some c else none)

section Step

variable {T : Type} [DecidableEq T]

/-- One step, on the path of the entry `f`. -/
def MetaSys.step (Γ : Config) (f : Nat) (sys : MetaSys T) : MetaLabel T → Option (MetaSys T)
  | .request t c =>
    if sys.clients t = .idle then some { sys with clients := Function.update sys.clients t (metaStart Γ c) } else none
  | .client t env =>
    (metaClient Γ env sys.shared (sys.shared.files f).filename (sys.clients t)).map (fun r =>
      { sys with
        shared := r.1
        clients := Function.update sys.clients t r.2.1
        succeeded := sys.succeeded ++ r.2.2.toList })
  | .compressBegin env =>
    if sys.worker = none ∧ (sys.shared.files f).head = [] then
      some { sys with shared := (doCompressBegin Γ env sys.shared f).1, worker := (doCompressBegin Γ env sys.shared f).2 }
    else none
  | .compressEnd env =>
    sys.worker.map (fun job =>
      { sys with shared := (doCompressEnd Γ env sys.shared job (sys.shared.data job.ino) true).1, worker := none })
  | .decompress env => if sys.worker = none then some { sys with shared := (doDecompress Γ env sys.shared f).1 } else none

/-! ## What a request sets -/

/-- An attribute that requests set. -/
inductive Field where
  | mode
  | uid
  | gid
  | mtime
  deriving DecidableEq, Repr

/-- Attributes with the modification time in whole seconds, and without the access time. -/
def Attr.inSeconds (a : Attr) : Attr := { a with atime := 0, mtime := wholeSeconds a.mtime }

/-- The value of an attribute: of the mode the lower twelve bits, of the time the whole seconds. -/
def Attr.field (a : Attr) : Field → Nat
  | .mode => a.mode % 4096
  | .uid => a.uid
  | .gid => a.gid
  | .mtime => wholeSeconds a.mtime

/-- The value a request gives to an attribute, if it gives it one. -/
def AttrChange.value : AttrChange → Field → Option Nat
  | .mode bits, .mode => some (bits % 4096)
  | .owner uid _, .uid => if uid = noOwner then none else some uid
  | .owner _ gid, .gid => if gid = noOwner then none else some gid
  | .times _ mtime, .mtime => some (wholeSeconds mtime)
  | _, _ => none

/-- A request changes an attribute that has the value `v`: it gives it a value, or it is a `chown`, which takes the set-id bits out of
the mode. -/
def AttrChange.Changes : AttrChange → Field → Nat → Prop
  | .owner _ _, .mode, v => dropSetId v ≠ v
  | c, field, _ => c.value field ≠ none

/-- No request that has succeeded is lost: as long as no later one changes the same attribute, the path has the value it asked
for. -/
def MetaSys.Kept (Γ : Config) (f : Nat) (sys : MetaSys T) : Prop :=
  ∀ before c after field v, sys.succeeded = before ++ c :: after → c.value field = some v →
    (∀ c' ∈ after, ¬c'.Changes field v) →
      ∃ a, visible Γ sys.shared.fs (sys.shared.files f).filename = some a ∧ a.field field = v

/-! ## The condition -/

/-- A request is between its first call and its last. -/
def MetaPc.Underway (Γ : Config) : MetaPc → Prop
  | .attr _ pc => pc ≠ attrStart Γ
  | _ => False

instance (Γ : Config) (pc : MetaPc) : Decidable (pc.Underway Γ) := by
  cases pc <;> unfold MetaPc.Underway <;> infer_instance

/-- The calls on an attribute file whose results nobody looks at, and the one that looks for it, succeed. -/
def Env.AttrFile (env : Env) : Prop :=
  env.ok .lstatAttr = true ∧ env.ok .unlinkAttr = true ∧ env.ok .fchmodAttr = true ∧ env.ok .fchownAttr = true ∧
    env.ok .futimens = true

instance (env : Env) : Decidable env.AttrFile := inferInstanceAs (Decidable (_ ∧ _))

/-- The calls that give a new file the owner, the mode and the times of the old one succeed. -/
def Env.Copies (env : Env) : Prop := env.ok .fchown = true ∧ env.ok .fchmod = true ∧ env.ok .utime = true

instance (env : Env) : Decidable env.Copies := inferInstanceAs (Decidable (_ ∧ _))

/-- `do_compress` will put its file in place of the path. -/
def Installs (env : Env) (s : State) (job : Job) : Prop :=
  env.ok .compress = true ∧ env.ok .close = true ∧ env.ok .rename = true ∧ (s.data job.ino).length = job.size ∧
    (s.files job.file).status.cancel = false

instance (env : Env) (s : State) (job : Job) : Decidable (Installs env s job) := inferInstanceAs (Decidable (_ ∧ _))

/-- A descriptor holds data that has not been written yet. -/
def State.Unwritten (s : State) (f : Nat) : Prop := ∃ d ∈ (s.files f).head, ∃ chunks, (s.descs d).handle = some (.writing chunks)

/-- A module on a descriptor accepts writes. -/
def pending : Option Handle → Bool
  | some (.writing _) => true
  | _ => false

theorem pending_iff {handle : Option Handle} : pending handle = true ↔ ∃ chunks, handle = some (.writing chunks) := by
  unfold pending
  split
  · exact ⟨fun _ => ⟨_, rfl⟩, fun _ => rfl⟩
  · rename_i hn
    exact ⟨(fun h => by cases h), fun ⟨chunks, h⟩ => absurd h (hn chunks)⟩

theorem State.unwritten_iff {s : State} {f : Nat} :
    (∃ d ∈ (s.files f).head, pending (s.descs d).handle = true) ↔ s.Unwritten f := by
  unfold State.Unwritten
  simp only [pending_iff]

instance (s : State) (f : Nat) : Decidable (s.Unwritten f) := decidable_of_iff _ State.unwritten_iff

/-- When `do_decompress` closes the descriptors that hold data, the calls that save and restore the times around the last write
succeed. -/
def State.KeepsTimes (s : State) (env : Env) (f : Nat) : Prop :=
  ∀ d ∈ (s.files f).head, pending (s.descs d).handle = true →
    (env.of d).ok .closeFstat = true ∧ (env.of d).ok .closeUtime = true

instance (s : State) (env : Env) (f : Nat) : Decidable (s.KeepsTimes env f) :=
  inferInstanceAs (Decidable (∀ d ∈ (s.files f).head, _ → _))

/-- The descriptors of the file have the path's inode open. They lose it when `do_decompress` opens them again on its file and
then cannot rename it. -/
def State.Attached (s : State) (f : Nat) : Prop :=
  ∀ d ∈ (s.files f).head, ∀ fd, (s.descs d).fd = some fd → s.fs.inoOf (s.files f).filename = some fd.ino

instance (s : State) (f : Nat) : Decidable (s.Attached f) :=
  inferInstanceAs (Decidable (∀ d ∈ (s.files f).head, ∀ fd ∈ (s.descs d).fd, s.fs.inoOf (s.files f).filename = some fd.ino))

/-- When a descriptor holds unwritten data, the write takes no set-id bit from the file. -/
def State.KeepsMode (s : State) (f : Nat) : Prop :=
  s.Unwritten f → s.fs.fsetid = true ∨ ∀ a ∈ s.fs.attrOf (s.files f).filename, dropSetId a.mode = a.mode

instance (s : State) (f : Nat) : Decidable (s.KeepsMode f) :=
  inferInstanceAs (Decidable (_ → _ ∨ ∀ a ∈ s.fs.attrOf (s.files f).filename, _))

/-- The request sets the mode, or clears its set-id bits. -/
def AttrChange.setsMode : AttrChange → Bool
  | .times _ _ => false
  | _ => true

/-- What is asked of a request where it decides to make an attribute file: that file has lost the set-id bits. -/
def AttrPc.Unprivileged (env : Env) : AttrPc → Prop
  | .createOpen st => env.ok .openAttr = true → dropSetId st.mode = st.mode
  | _ => True

instance (env : Env) (pc : AttrPc) : Decidable (pc.Unprivileged env) := by
  cases pc <;> unfold AttrPc.Unprivileged <;> infer_instance

/-- No set-id bit is lost to `create_attr`. `utime` makes no attribute file for a file that has such a bit. `chmod` and `chown` put
the mode right with their last call, which succeeds where the attribute file has lost a bit. -/
def MetaPc.KeepsSetId (env : Env) (b : Backing) (p : Filename) : MetaPc → Prop
  | .utimeLock c =>
    env.ok .lstat = true → ∀ i ∈ b.inoOf p,
      (attrDecide c (b.inodes i).attr (b.nlink i) (b.attrOf (fuseattrName p))).Unprivileged env
  | .attr c .onAttr =>
    ∀ a ∈ b.attrOf p, ∀ a' ∈ b.attrOf (fuseattrName p), a'.mode = dropSetId a.mode → a'.mode ≠ a.mode →
      c.setsMode = true ∧ env.ok c.call = true
  | _ => True

instance (env : Env) (b : Backing) (p : Filename) (pc : MetaPc) : Decidable (pc.KeepsSetId env b p) := by
  cases pc with
  | utimeLock c => exact inferInstanceAs (Decidable (_ → ∀ i ∈ b.inoOf p, _))
  | attr c pc =>
    cases pc with
    | onAttr =>
      exact inferInstanceAs (Decidable (∀ a ∈ b.attrOf p, ∀ a' ∈ b.attrOf (fuseattrName p), _ → _ → _ ∧ _))
    | _ => exact inferInstanceAs (Decidable True)
  | _ => exact inferInstanceAs (Decidable True)

/-- The condition on a step.

When `do_compress` puts its file in place, the attributes of the file are those it had found when it started: nobody has changed
them meanwhile. It and `do_decompress` can give the new file the attributes of the old one. When `do_decompress` closes
descriptors, they have the path's inode open, the calls that save and restore the times around the last write succeed, and that
write takes no set-id bit away.

With deduplication a request makes several calls: no other request makes one between its first and its last, the calls on the
attribute file succeed, and `create_attr` loses no set-id bit. -/
def MetaSys.Careful (Γ : Config) (f : Nat) (sys : MetaSys T) : MetaLabel T → Prop
  | .request _ _ => True
  | .client t env =>
    Γ.dedupEnabled = true →
      env.AttrFile ∧ (∀ u, u ≠ t → ¬(sys.clients u).Underway Γ) ∧
        (sys.clients t).KeepsSetId env sys.shared.fs (sys.shared.files f).filename
  | .compressBegin _ => True
  | .compressEnd env =>
    ∀ job, sys.worker = some job → Installs env sys.shared job →
      env.Copies ∧ (sys.shared.fs.attrOf (sys.shared.files f).filename).map Attr.inSeconds = some job.attr.inSeconds
  | .decompress env =>
    env.Copies ∧ sys.shared.Attached f ∧ sys.shared.KeepsTimes env f ∧ sys.shared.KeepsMode f

instance [Fintype T] (Γ : Config) (f : Nat) (sys : MetaSys T) (label : MetaLabel T) : Decidable (sys.Careful Γ f label) := by
  cases label with
  | compressEnd env =>
    exact inferInstanceAs (Decidable (∀ job ∈ sys.worker, Installs env sys.shared job →
      env.Copies ∧ (sys.shared.fs.attrOf (sys.shared.files f).filename).map Attr.inSeconds = some job.attr.inSeconds))
  | _ => unfold MetaSys.Careful; infer_instance

/-- The state at the start: the path has a regular file, and nobody is at work; a descriptor that holds data is of a file that is
being written to, and the descriptors are counted. -/
structure MetaSys.Start (f : Nat) (sys : MetaSys T) : Prop where
  overlaid : sys.shared.fs.Overlaid
  regular : sys.shared.fs.inoOf (sys.shared.files f).filename ≠ none
  visible : isInternal (sys.shared.files f).filename = false
  clients : ∀ t, sys.clients t = .idle
  worker : sys.worker = none
  succeeded : sys.succeeded = []
  writing : sys.shared.Unwritten f → (sys.shared.files f).type = .write
  counted : ((sys.shared.files f).head.length : Int) ≤ (sys.shared.files f).accesses

/-- A mount whose database has an entry for a path, with nobody at work. -/
def MetaSys.mounted (Γ : Config) (fs : Backing) (p : Filename) : MetaSys T :=
  { shared := (directOpen Γ .fine (State.mounted fs) p).1, worker := none, clients := fun _ => .idle, succeeded := [] }

end Step

end FuseCompress
