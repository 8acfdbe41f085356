import FuseCompress.Interleaving

/-!
# A read-only mount

What the kernel asks of a mount made with `-o ro`, and `file_open`, which changes the permission bits of a file that it may not open.
The other modules know of `file_open` only whether it succeeds; here are the bits it sets on the way, and the steps that call it.
-/

namespace FuseCompress

/-- A request that the kernel passes on to a read-only mount. `readlink`, `readdir` and `statfs` are left out: each makes system
calls that read, and looks at nothing of the process. -/
def Request.readOnly : Request → Bool
  | .getattr _ => true
  | .open _ writable => !writable
  | .desc _ (.read _ _) => true
  | .desc _ .release => true
  | .purge => true
  | .sigterm => true
  | _ => false

/-! ## `file_open` -/

/-- `ALLMODES`. -/
def allModes : Nat := 0o666

/-- What the calls of `file_open` come to: `open` is denied with `EACCES` or `EPERM`, and `stat`, `chmod`, `open` again and the
`chmod` that restores the bits succeed. -/
structure Opening where
  denied : Bool
  stat : Bool
  chmod : Bool
  again : Bool
  restore : Bool
  deriving DecidableEq, Repr

/-- The modes that `file_open` gives a file, one after the other. -/
def fileOpenModes (o : Opening) (mode : Nat) : List Nat :=
  if o.denied && o.stat && o.chmod then (mode ||| allModes) :: (if o.again && o.restore then [mode] else []) else []

/-- The file that a reading caller of `direct_open` gives to `file_open` once it has the locked entry: `getattr` for the header of a
file whose size is not known, `open` always. -/
def callerOpens (s : State) (f : Nat) : Caller → Option Filename
  | .getattr full st => if (s.files f).size = -1 ∧ headerSize ≤ asU64 st.size then some full else none
  | .open full _ => some full
  | _ => none

/-- The file that a step of a thread which reads gives to `file_open`. -/
def clientOpens (Γ : Config) (s : State) : Pc → Option Filename
  | .opening k =>
    match findFile s k.filename with
    | some f => if k.stabile && (s.files f).status.busy then none else callerOpens s f k
    | none =>
      if s.entries > maxDatabaseLen + s.compEntries then none else callerOpens (directOpenAdd Γ s k.filename) s.nextFile k
  | .purging [] (some k) _ => callerOpens (directOpenAdd Γ s k.filename) s.nextFile k
  | .waiting k f _ => if k.stabile && (s.files f).status.busy then none else callerOpens s f k
  | _ => none

/-- The file that the end of `do_dedup` gives to `file_open`, to read the header of what it has linked to. -/
def workerOpens (Γ : Config) (env : Env) (s : State) : WorkerPc → Option Filename
  | .hashing f (.finished (some md5)) =>
    if (s.files f).status.cancel then none else (hardlinkFile Γ env s md5 (s.files f).filename).2
  | _ => none

/-! ## The mount -/

/-- A step, with what `file_open` meets if the step calls it. -/
structure Turn (T : Type) where
  label : Label T
  opening : Opening

section System

variable {T : Type} [DecidableEq T]

/-- The kernel passes on only requests that read. -/
def Label.readOnly : Label T → Bool
  | .request _ r => r.readOnly
  | _ => true

/-- The file that a step gives to `file_open`. -/
def Sys.opens (Γ : Config) (sys : Sys T) : Label T → Option Filename
  | .client t _ => clientOpens Γ sys.shared (sys.clients t)
  | .worker env => workerOpens Γ env sys.shared sys.worker
  | _ => none

/-- A step of the mount. -/
def Sys.turn (Γ : Config) (sys : Sys T) (turn : Turn T) : Option (Sys T) := sys.step Γ turn.label

/-- The system just after the mount, with the deduplication table of the mount before and `-o redup` or not. -/
def Sys.remounted (fs : Backing) (dedup : DedupHash) (redup : Bool) : Sys T :=
  { shared := { State.mounted fs with dedup := dedup, redup := redup }, worker := .idle, clients := fun _ => .idle none,
    dbLock := none }

end System

end FuseCompress
