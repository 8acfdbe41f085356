import FuseCompress.Lib.PlainFs
import FuseCompress.Lib.Transition
import FuseCompress.Reading
import FuseCompress.Unmount

/-!
# Operations one at a time

The handlers of the requests and one turn of the background thread from beginning to end, with nobody between: the parts that
`Requests` cuts at the locks, put together again. Beside the mount runs a plain file system (`Lib.PlainFs`) that is given the same
operations: what the clients of the mount are to see.
-/

namespace FuseCompress

/-! ## The handlers -/

/-- `fusecompress_getattr`. -/
def fusecompressGetattr (Γ : Config) (env : Env) (s : State) (full : Filename) : State × Reply :=
  if isMagicFile full then getattrMagic s full
  else
    match sysGetattr Γ env s.fs full with
    | .failed => (s, .fail)
    | .notRegular => (s, .ok)
    | .regular st =>
      let r := directOpen Γ env s full
      getattrLocked Γ env r.1 r.2 full st

/-- `fusecompress_mknod`, of a regular file. -/
def fusecompressMknod (Γ : Config) (env : Env) (s : State) (full : Filename) (mode uid gid : Nat) : State × Reply :=
  mknodLocked env (directOpen Γ env s full).1 full mode uid gid

/-- `fusecompress_unlink`. -/
def fusecompressUnlink (Γ : Config) (env : Env) (s : State) (full : Filename) : State × Reply :=
  let r := directOpen Γ env s full
  unlinkLocked Γ env r.1 r.2 full

/-- `fusecompress_rename`. -/
def fusecompressRename (Γ : Config) (env : Env) (s : State) (src dst : Filename) : State × Reply :=
  let a := directOpen Γ env s src
  let b := directOpen Γ env (countAccess a.1 a.2) dst
  renameLocked Γ env (countAccess b.1 b.2) a.2 b.2

/-- `fusecompress_truncate`. -/
def fusecompressTruncate (Γ : Config) (env : Env) (s : State) (full : Filename) (size : Nat) : State × Reply :=
  let r := directOpen Γ env s full
  truncateLocked Γ env r.1 r.2 full size

/-- `fusecompress_open`. -/
def fusecompressOpen (Γ : Config) (env : Env) (s : State) (full : Filename) (writable : Bool) : State × Reply :=
  let r := directOpen Γ env s full
  openLocked Γ env r.1 r.2 full writable

/-- `fusecompress_write`. -/
def fusecompressWrite (Γ : Config) (env : Env) (s : State) (d : Nat) (buf : Bytes) (offset : Nat) : State × Reply :=
  let f := (s.descs d).file
  match writeLocked Γ env s f d buf offset with
  | (s, .done res) => if res = -1 then (invalidateSize s f, errnoReply (env.ok .errno) (.wrote 0)) else (s, .wrote res)
  | (s, .pwrite fd) =>
    match pwriteFd env s fd buf offset with
    | (s, true) => (s, .wrote buf.length)
    | (s, false) => (invalidateSize s f, .fail)

/-- `fusecompress_release`. -/
def fusecompressRelease (Γ : Config) (env : Env) (s : State) (d : Nat) : State × Reply :=
  releaseLocked Γ env s (s.descs d).file d

/-- The file system is unmounted and mounted again. `fusecompress_destroy` gets through that many rounds of its loop before the process
ends. -/
def remounted (Γ : Config) (env : Env) (s : State) (rounds : Nat) : State :=
  .mounted (destroyRounds Γ (fun n k => (env.of n).of k) s rounds).fs

/-! ## The mount and the plain file system -/

/-- An operation. `purge` is `_direct_open_purge`, `compress` is `thread_compress` with the next entry of the queue. -/
inductive Op where
  | getattr (full : Filename)
  | mknod (full : Filename) (mode uid gid : Nat)
  | unlink (full : Filename)
  | rename (src dst : Filename)
  | truncate (full : Filename) (size : Nat)
  | open (full : Filename) (writable : Bool)
  | read (d size offset : Nat)
  | write (d : Nat) (buf : Bytes) (offset : Nat)
  | release (d : Nat)
  | purge
  | compress
  | tick
  | remount (rounds : Nat)
  deriving DecidableEq, Repr

/-- What the mount does. -/
def Op.perform (Γ : Config) (env : Env) (s : State) : Op → State × Reply
  | .getattr full => fusecompressGetattr Γ env s full
  | .mknod full mode uid gid => fusecompressMknod Γ env s full mode uid gid
  | .unlink full => fusecompressUnlink Γ env s full
  | .rename src dst => fusecompressRename Γ env s src dst
  | .truncate full size => fusecompressTruncate Γ env s full size
  | .open full writable => fusecompressOpen Γ env s full writable
  | .read d size offset =>
    match fusecompressRead Γ env s d size offset with
    | (s, res, buf) => (s, if res = -1 then .fail else .read buf)
  | .write d buf offset => fusecompressWrite Γ env s d buf offset
  | .release d => fusecompressRelease Γ env s d
  | .purge => (directOpenPurge Γ env false s, .ok)
  | .compress => (threadCompress Γ env s, .ok)
  | .tick => (s.withFs (fun b => { b with clock := b.clock + 1 }), .ok)
  | .remount rounds => (remounted Γ env s rounds, .ok)

/-- What the plain file system does. There are no directories: a name with a directory part cannot be made. -/
def Op.plain (q : PlainFs Filename) : Op → PlainFs Filename
  | .mknod full _ _ _ => if dirname full = none then q.create full else q
  | .unlink full => q.unlink full
  | .rename src dst => if (q.file dst).isSome ∨ dirname dst = none then q.rename src dst else q
  | .truncate full size => q.truncate full size
  | .open full _ => q.openFile full
  | .write d buf offset => q.write d buf offset
  | .remount _ => q.reset
  | _ => q

/-- What a client is compared by: of the attributes of a file their size. -/
inductive Seen where
  | ok
  | fail
  | size (n : Int)
  | opened (d : Nat)
  | read (buf : Bytes)
  | wrote (len : Int)
  deriving DecidableEq, Repr

/-- What a client sees of a reply. -/
def Reply.seen : Reply → Seen
  | .ok => .ok
  | .fail => .fail
  | .stat st => .size st.size
  | .opened d => .opened d
  | .read buf => .read buf
  | .wrote len => .wrote len

/-- What a client of the plain file system sees. The commands of `getattr` and the work in the background are not requests to it. -/
def Op.expected (q : PlainFs Filename) : Op → Option Seen
  | .getattr full =>
    if isMagicFile full then none
    else
      match q.file full with
      | none => some .fail
      | some k => some (.size (q.content k).length)
  | .mknod full _ _ _ => some (if q.file full = none ∧ dirname full = none then .ok else .fail)
  | .unlink full => some (if (q.file full).isSome then .ok else .fail)
  | .rename src dst => some (if (q.file src).isSome ∧ ((q.file dst).isSome ∨ dirname dst = none) then .ok else .fail)
  | .truncate full _ => some (if (q.file full).isSome then .ok else .fail)
  | .open full _ => some (if (q.file full).isSome then .opened q.nextDesc else .fail)
  | .read d size offset => some (.read (q.read d size offset))
  | .write _ buf _ => some (.wrote buf.length)
  | .release _ => some .ok
  | .purge => none
  | .compress => none
  | .tick => none
  | .remount _ => none

/-- The mount, and the plain file system beside it. -/
structure Serial where
  shared : State
  plain : PlainFs Filename

/-- Both at the start: a backing directory has just been mounted. -/
def Serial.mounted (b : Backing) (q : PlainFs Filename) : Serial := { shared := .mounted b, plain := q }

/-- Both do an operation, unless the process is gone. -/
def Serial.step (Γ : Config) (x : Serial) (a : Env × Op) : Option Serial :=
  if x.shared.aborted then none
  else some { shared := (a.2.perform Γ a.1 x.shared).1, plain := a.2.plain x.plain }

/-! ## Which operations -/

/-- A descriptor of the path is open. -/
def State.hasOpen (s : State) (full : Filename) : Prop :=
  ∃ d, d < s.nextDesc ∧ (s.descs d).live = true ∧ (s.files (s.descs d).file).filename = full

instance (s : State) (full : Filename) : Decidable (s.hasOpen full) := Nat.decidableExistsLT _

/-- No descriptor is open. -/
def State.closed (s : State) : Prop := ∀ d, d < s.nextDesc → (s.descs d).live = false

instance (s : State) : Decidable s.closed := Nat.decidableBallLT _ _

/-- What the kernel promises of a request, and which of them are made: offsets and lengths are those of an `off_t`, a path is truncated
through a descriptor, what is removed or replaced is not open, and a file system that is in use is not unmounted. -/
def Op.Made (s : State) : Op → Prop
  | .getattr full => ∀ i ∈ s.fs.inoOf full, (s.data i).length < 2 ^ 63
  | .unlink full => ¬s.hasOpen full
  | .rename src dst => src ≠ dst ∧ ¬s.hasOpen dst
  | .truncate full size => s.hasOpen full ∧ size < 2 ^ 63
  | .read d _ _ => (s.descs d).live = true
  | .write d buf offset => (s.descs d).live = true ∧ (s.descs d).writable = true ∧ buf ≠ [] ∧ offset + buf.length < 2 ^ 63
  | .release d => (s.descs d).live = true
  | .remount _ => s.closed
  | _ => True

instance (s : State) (op : Op) : Decidable (op.Made s) := by
  cases op <;> unfold Op.Made <;> infer_instance

/-- The only user of a file that is empty but stored compressed writes at its start. The entry is taken for that of a new file then,
or the stream is written over the one on the disk. -/
def startsOver (file : FileT) (offset : Nat) : Bool :=
  file.compressor.isSome && decide (file.size = 0) && decide (file.accesses = 1) && decide (offset = 0) &&
    !(file.dontcompress && decide (file.type = .read))

/-- The operation is such a write. -/
def Op.startsOver (s : State) : Op → Bool
  | .write d _ offset => FuseCompress.startsOver (s.files (s.descs d).file) offset
  | _ => false

/-- No file starts with the bytes that mark a compressed file. -/
def PlainFs.Unmarked (q : PlainFs Filename) : Prop := ∀ k, k < q.nextFile → (q.content k).take 3 ≠ magic

instance (q : PlainFs Filename) : Decidable q.Unmarked := Nat.decidableBallLT _ _

/-- The part of the condition on a step that is about the operation. -/
def Serial.Sane (x : Serial) (a : Env × Op) : Prop :=
  a.2.Made x.shared ∧ a.2.startsOver x.shared = false ∧ (a.2.plain x.plain).Unmarked

instance (x : Serial) (a : Env × Op) : Decidable (x.Sane a) := inferInstanceAs (Decidable (_ ∧ _ ∧ _))

/-- The condition on a step: no call fails, there is room, and the operation is one of those. -/
def Serial.Allowed (x : Serial) (a : Env × Op) : Prop := a.1.AllOk ∧ a.1.Ample ∧ x.Sane a

end FuseCompress
