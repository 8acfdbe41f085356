import FuseCompress.Interleaving

/-!
# The locks the handlers take and give back

What each step of a thread does to the mutexes, in the order of the source, and the system with a record of the locks that every
thread has taken and not given back since its request began. `pthread_cond_wait` gives back a lock and takes it again.
-/

namespace FuseCompress

/-- A mutex. -/
inductive Lock where
  | database
  | compDatabase
  | dedupDatabase
  | file (f : Nat)
  deriving DecidableEq, Repr

/-- `LOCK` and `UNLOCK`. -/
inductive LockOp where
  | lock (l : Lock)
  | unlock (l : Lock)
  deriving DecidableEq, Repr

/-- What a thread holds, the last lock taken first. `fault` says that it has taken a lock it held already, or given back one that
it did not hold. -/
structure Held where
  locks : List Lock
  fault : Bool
  deriving DecidableEq, Repr

/-- No lock, and no fault. -/
def Held.none : Held := ⟨[], false⟩

/-- One operation. -/
def Held.apply (h : Held) : LockOp → Held
  | .lock l => ⟨l :: h.locks, h.fault || decide (l ∈ h.locks)⟩
  | .unlock l => ⟨h.locks.erase l, h.fault || decide (l ∉ h.locks)⟩

/-- Several operations. -/
def Held.run (h : Held) (ops : List LockOp) : Held := ops.foldl Held.apply h

/-- `LOCK`, and `UNLOCK` of the same. -/
def brief (l : Lock) : List LockOp := [.lock l, .unlock l]

/-! ## The handlers -/

/-- `fusecompress_open` from the opening of the file on. -/
def openFileLocks (env : Env) (s : State) (f : Nat) (full : Filename) : List LockOp :=
  match if env.ok .open then s.fs.inoOf full else none with
  | none => [.unlock (.file f)]
  | some i =>
    if env.ok .fstat = false then []
    else if headerSize ≤ (s.data i).length ∧ env.ok .readHeader = false then []
    else [.unlock (.file f)]

/-- What the caller of `direct_open` does, with the lock of the entry. `open` still has it after `do_undedup`. -/
def callerLocks (Γ : Config) (env : Env) (s : State) (f : Nat) : Caller → List LockOp
  | .open full writable =>
    match openUndedup Γ env s f writable with
    | (s, true) => if Γ.dedupEnabled ∧ writable then [] else openFileLocks env s f full
    | (_, false) => [.unlock (.file f)]
  | _ => [.unlock (.file f)]

/-- The loop of `direct_open`, from the test on. -/
def directOpenWaitLocks (Γ : Config) (env : Env) (s : State) (f : Nat) (k : Caller) : List LockOp :=
  if k.stabile && (s.files f).status.busy then [.unlock (.file f)] else callerLocks Γ env s f k

/-- `direct_open` locks the new entry before it gives back `database.lock`. -/
def directOpenNewLocks (Γ : Config) (env : Env) (s : State) (k : Caller) : List LockOp :=
  [.lock (.file s.nextFile), .unlock .database] ++ callerLocks Γ env (directOpenAdd Γ s k.filename) s.nextFile k

/-- The entries of the database that `direct_open` locks before it finds the name: other names with the same hash. -/
def sameHash (s : State) (filename : Filename) : List Nat :=
  (s.database.takeWhile (fun f => (s.files f).filename ≠ filename)).filter
    (fun f => gethash (s.files f).filename = gethash filename)

/-- `direct_open` from the end of its search on. -/
def directOpenEndLocks (Γ : Config) (env : Env) (s : State) (k : Caller) : List LockOp :=
  match findFile s k.filename with
  | some f => [.lock (.file f), .unlock .database] ++ directOpenWaitLocks Γ env (directOpenFound s f) f k
  | none =>
    if s.entries > maxDatabaseLen + s.compEntries then []
    else directOpenNewLocks Γ env { s with entries := s.entries + 1 } k

/-- `direct_open`. -/
def directOpenLocks (Γ : Config) (env : Env) (s : State) (k : Caller) : List LockOp :=
  .lock .database :: (sameHash s k.filename).flatMap (fun f => brief (.file f)) ++ directOpenEndLocks Γ env s k

/-- `_direct_open_purge`, for one entry. -/
def purgeLocks (Γ : Config) (env : Env) (force : Bool) (s : State) (f : Nat) : List LockOp :=
  let file := s.files f
  if file.accesses = 0 then
    .lock (.file f) ::
      (if wantsCompress Γ env s.fs file || wantsDedup Γ file then brief .compDatabase else []) ++ [.unlock (.file f)]
  else if force then brief (.file f)
  else []

/-- `fusecompress_rename`, with both entries counted and the lock of the first. -/
def renameLocks (Γ : Config) (env : Env) (s : State) (src dst : Nat) : List LockOp :=
  [.lock (.file dst)] ++
    (match sysRename Γ env s.fs (s.files src).filename (s.files dst).filename with
    | (_, true) => (if Γ.dedupEnabled then brief .dedupDatabase else []) ++ brief .compDatabase
    | (_, false) => []) ++ [.unlock (.file dst), .unlock (.file src)]

/-- A step of a thread. -/
def clientLocks (Γ : Config) (env : Env) (s : State) : Pc → List LockOp
  | .purgeStart _ => [.lock .database]
  | .opening k => directOpenLocks Γ env s k
  | .purging (f :: _) _ force => purgeLocks Γ env force s f
  | .purging [] none _ => [.unlock .database]
  | .purging [] (some k) _ => directOpenNewLocks Γ env s k
  | .waiting k f _ => .lock (.file f) :: directOpenWaitLocks Γ env s f k
  | .undeduped full f => openFileLocks env s f full
  | .renamePair _ _ a _ => [.lock (.file a)]
  | .renameSecond _ _ a b => renameLocks Γ env s a b
  | .fetched _ _ f => brief (.file f)
  | .preaded _ f _ relock => if relock then brief (.file f) else []
  | .pwrote _ f _ => brief (.file f)
  | _ => []

/-- A step of the background thread, the wait for an entry of the queue apart. `compress_testcancel` takes the lock of the file for
every chunk that is read. -/
def workerLocks (s : State) : WorkerPc → List LockOp
  | .idle => brief .compDatabase
  | .dequeued f _ => brief (.file f)
  | .compressing job _ _ => brief (.file job.file)
  | .hashing f (.finished hash) =>
    .lock (.file f) :: (if hash.isSome && !(s.files f).status.cancel then brief .dedupDatabase else []) ++ [.unlock (.file f)]
  | .hashing _ _ => []

/-! ## Where a lock is forgotten -/

/-- The caller with which a step leaves `direct_open`, and the entry it has then. -/
def leavesDirectOpen (Γ : Config) (s : State) : Pc → Option (State × Nat × Caller)
  | .opening k =>
    match findFile s k.filename with
    | some f => if k.stabile && (s.files f).status.busy then none else some (directOpenFound s f, f, k)
    | none =>
      if s.entries > maxDatabaseLen + s.compEntries then none
      else some (directOpenAdd Γ { s with entries := s.entries + 1 } k.filename, s.nextFile, k)
  | .purging [] (some k) _ => some (directOpenAdd Γ s k.filename, s.nextFile, k)
  | .waiting k f _ => if k.stabile && (s.files f).status.busy then none else some (s, f, k)
  | _ => none

/-- `open` finds the file, and then `fstat` fails, or the reading of the header of a file that is long enough for one. -/
def openForgets (env : Env) (s : State) (full : Filename) : Bool :=
  match if env.ok .open then s.fs.inoOf full else none with
  | none => false
  | some i => !env.ok .fstat || (decide (headerSize ≤ (s.data i).length) && !env.ok .readHeader)

/-- The caller of `direct_open` forgets the lock: it is `open`, there is no `do_undedup`, and one of the two calls fails. -/
def callerForgets (Γ : Config) (env : Env) (s : State) (f : Nat) : Caller → Bool
  | .open full writable =>
    match openUndedup Γ env s f writable with
    | (s, true) => !(Γ.dedupEnabled && writable) && openForgets env s full
    | (_, false) => false
  | _ => false

/-- A step in which `open` forgets the lock. -/
def clientForgets (Γ : Config) (env : Env) (s : State) (pc : Pc) : Bool :=
  match leavesDirectOpen Γ s pc, pc with
  | some (s, f, k), _ => callerForgets Γ env s f k
  | none, .undeduped full _ => openForgets env s full
  | none, _ => false

/-! ## The system -/

section System

variable {T : Type} [DecidableEq T]

/-- The system with the locks of every thread. `forgot` says that the request has met a step that forgets a lock. -/
structure LockSys (T : Type) where
  sys : Sys T
  held : T → Held
  forgot : T → Bool

/-- One step. The record of a thread starts anew with every request. -/
def LockSys.step (Γ : Config) (L : LockSys T) (l : Label T) : Option (LockSys T) :=
  (L.sys.step Γ l).map fun sys =>
    match l with
    | .request t _ => ⟨sys, Function.update L.held t Held.none, Function.update L.forgot t false⟩
    | .client t env =>
      ⟨sys, Function.update L.held t ((L.held t).run (clientLocks Γ env L.sys.shared (L.sys.clients t))),
        Function.update L.forgot t (L.forgot t || clientForgets Γ env L.sys.shared (L.sys.clients t))⟩
    | .worker _ => { L with sys := sys }
    | .tick => { L with sys := sys }

/-- The system just after the mount. -/
def LockSys.mounted (fs : Backing) : LockSys T := ⟨Sys.mounted fs, fun _ => Held.none, fun _ => false⟩

end System

end FuseCompress
