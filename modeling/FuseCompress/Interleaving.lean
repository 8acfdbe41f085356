import FuseCompress.Attributes
import FuseCompress.Lib.Transition

/-!
# The threads

The whole program as a labelled transition system: any number of threads that serve requests, and the background thread. One
step is what a thread does in one critical section, or one system call made without a lock; steps of different threads come in any
order. A thread that would block does not step.

The use of an entry after it has been freed has no meaning in C, so no step does it: a thread that would is stuck.
-/

namespace FuseCompress

/-! ## Where a thread can be -/

/-- A thread that has called `direct_open`: who called it, and so what is done with the entry. -/
inductive Caller where
  | getattr (full : Filename) (st : Stat)
  | mknod (full : Filename) (mode uid gid : Nat)
  | unlink (full : Filename)
  | renameFrom (src dst : Filename)
  | renameTo (src dst : Filename) (file : Nat)
  | link (src dst : Filename)
  | truncate (full : Filename) (size : Nat)
  | utime (full : Filename) (c : AttrChange)
  | open (full : Filename) (writable : Bool)
  deriving DecidableEq, Repr

/-- The file name given to `direct_open`. -/
def Caller.filename : Caller → Filename
  | .getattr full _ => full
  | .mknod full _ _ _ => full
  | .unlink full => full
  | .renameFrom src _ => src
  | .renameTo _ dst _ => dst
  | .link src _ => src
  | .truncate full _ => full
  | .utime full _ => full
  | .open full _ => full

/-- The flag `stabile` given to `direct_open`. -/
def Caller.stabile : Caller → Bool
  | .getattr _ _ => false
  | .utime _ _ => false
  | _ => true

/-- What is asked of a descriptor. -/
inductive DescOp where
  | read (size offset : Nat)
  | write (buf : Bytes) (offset : Nat)
  | release
  deriving DecidableEq, Repr

/-- The request is a write. -/
def DescOp.isWrite : DescOp → Bool
  | .write _ _ => true
  | _ => false

/-- A request of the kernel. `purge` stands for any other name being opened when the database is too long, `sigterm` for the
signal. -/
inductive Request where
  | getattr (full : Filename)
  | mknod (full : Filename) (mode uid gid : Nat)
  | mkdir (full : Filename)
  | rmdir (full : Filename)
  | unlink (full : Filename)
  | rename (src dst : Filename)
  | link (src dst : Filename)
  | truncate (full : Filename) (size : Nat)
  | chmod (full : Filename) (mode : Nat)
  | chown (full : Filename) (uid gid : Nat)
  | utime (full : Filename) (actime modtime : Nat)
  | open (full : Filename) (writable : Bool)
  | desc (d : Nat) (op : DescOp)
  | purge
  | sigterm
  deriving DecidableEq, Repr

/-- Where a thread that serves requests is. -/
inductive Pc where
  /-- It waits for a request; the reply to the last one. -/
  | idle (last : Option Reply)
  /-- `getattr`, before its `lstat`. -/
  | getattrStat (full : Filename)
  /-- `utime`, before its `lstat`. -/
  | utimeStat (full : Filename) (c : AttrChange)
  /-- Before `mkdir(2)`. -/
  | mkdir (full : Filename)
  /-- Before `rmdir(2)`. -/
  | rmdir (full : Filename)
  /-- Before `_direct_open_purge`. -/
  | purgeStart (force : Bool)
  /-- At the start of `direct_open`. -/
  | opening (k : Caller)
  /-- In `_direct_open_purge`, holding `database.lock`, with these entries to go. -/
  | purging (todo : List Nat) (k : Option Caller) (force : Bool)
  /-- In `pthread_cond_wait`, since the condition variable had been broadcast `seen` times. -/
  | waiting (k : Caller) (f seen : Nat)
  /-- `open` for writing, with the lock of the entry, between `do_undedup` and `file_open`. -/
  | undeduped (full : Filename) (f : Nat)
  /-- `rename`, with both entries counted, before it locks them. -/
  | renamePair (src dst : Filename) (a b : Nat)
  /-- `rename`, with the lock of the first entry. -/
  | renameSecond (src dst : Filename) (a b : Nat)
  /-- `link`, after the unlock. -/
  | linking (src dst : Filename)
  /-- A request on a descriptor, with the entry fetched from it, before the lock. -/
  | fetched (d : Nat) (op : DescOp) (f : Nat)
  /-- Before `pread`. `relock` says that the lock is taken again afterwards. -/
  | preading (d f : Nat) (fd : Option Fd) (size offset : Nat) (served : Bytes) (relock : Bool)
  /-- After `pread`, or after a failed read under the lock. -/
  | preaded (d f : Nat) (res : Option Bytes) (relock : Bool)
  /-- Before `pwrite`. -/
  | pwriting (d f : Nat) (fd : Option Fd) (buf : Bytes) (offset : Nat)
  /-- After `pwrite`. -/
  | pwrote (d f : Nat) (res : Option Nat)
  /-- Before a system call of `chmod` or `chown`. -/
  | attr (full : Filename) (c : AttrChange) (pc : AttrPc)
  deriving DecidableEq, Repr

/-- How far `dedup_hash_file` has got: before it opens the file, reading a raw file, reading a stream, at its end. -/
inductive HashPc where
  | start
  | raw (ino : Nat) (got : Bytes)
  | packed (ino : Nat) (m : Module) (got : Bytes)
  | finished (hash : Option (List UInt8))
  deriving DecidableEq, Repr

/-- Where the background thread is. -/
inductive WorkerPc where
  | idle
  /-- It has taken an entry off the queue and has not locked its file. -/
  | dequeued (f : Nat) (isDedup : Bool)
  /-- In the module's `compress`, without the lock; `got` is what it has read. -/
  | compressing (job : Job) (got : Bytes) (eof : Bool)
  /-- In `dedup_hash_file`, without the lock. -/
  | hashing (f : Nat) (pc : HashPc)
  deriving DecidableEq, Repr

/-- The program: the data, the background thread, the threads `T`, and who holds `database.lock` from one step to the next. -/
structure Sys (T : Type) where
  shared : State
  worker : WorkerPc
  clients : T → Pc
  dbLock : Option T

/-- What a step is about. -/
inductive Label (T : Type) where
  /-- The kernel gives a request to a thread. -/
  | request (t : T) (r : Request)
  /-- A thread goes on. -/
  | client (t : T) (env : Env)
  /-- The background thread goes on. -/
  | worker (env : Env)
  /-- Time passes. -/
  | tick

/-! ## The threads that serve requests -/

/-- The lock of an entry can be taken. -/
def State.lockable (s : State) (f : Nat) : Bool := !s.freed f && !(s.files f).locked && !(s.files f).leaked

/-- A thread takes the lock of an entry and keeps it when its step is over. -/
def State.lock (s : State) (f : Nat) : State := s.modFile f (fun file => { file with locked := true })

/-- A thread gives back the lock it has kept. -/
def State.unlock (s : State) (f : Nat) : State := s.modFile f (fun file => { file with locked := false })

/-- The lock of an entry has been kept and can be given back. -/
def State.kept (s : State) (f : Nat) : Bool := !s.freed f && (s.files f).locked

section Lock

variable (s : State) (f : Nat)

@[simp] theorem State.fs_lock : (s.lock f).fs = s.fs := rfl
@[simp] theorem State.fs_unlock : (s.unlock f).fs = s.fs := rfl
@[simp] theorem State.descs_lock : (s.lock f).descs = s.descs := rfl
@[simp] theorem State.descs_unlock : (s.unlock f).descs = s.descs := rfl
@[simp] theorem State.database_lock : (s.lock f).database = s.database := rfl
@[simp] theorem State.database_unlock : (s.unlock f).database = s.database := rfl
@[simp] theorem State.nextFile_lock : (s.lock f).nextFile = s.nextFile := rfl
@[simp] theorem State.nextFile_unlock : (s.unlock f).nextFile = s.nextFile := rfl

theorem State.files_lock (g : Nat) : (s.lock f).files g = { s.files g with locked := if g = f then true else (s.files g).locked } := by
  rw [State.lock, State.files_modFile]
  split
  · rename_i e
    rw [e]
  · rfl

theorem State.files_unlock (g : Nat) :
    (s.unlock f).files g = { s.files g with locked := if g = f then false else (s.files g).locked } := by
  rw [State.unlock, State.files_modFile]
  split
  · rename_i e
    rw [e]
  · rfl

@[simp] theorem State.filename_lock (g : Nat) : ((s.lock f).files g).filename = (s.files g).filename := by rw [State.files_lock]

@[simp] theorem State.filename_unlock (g : Nat) : ((s.unlock f).files g).filename = (s.files g).filename := by
  rw [State.files_unlock]

end Lock

/-- A thread takes a request. `descriptor->file` is fetched at once. -/
def takeRequest (Γ : Config) (s : State) : Request → Pc
  | .getattr full => .getattrStat full
  | .mknod full mode uid gid => .opening (.mknod full mode uid gid)
  | .mkdir full => .mkdir full
  | .rmdir full => .rmdir full
  | .unlink full => .opening (.unlink full)
  | .rename src dst => .opening (.renameFrom src dst)
  | .link src dst => .opening (.link src dst)
  | .truncate full size => .opening (.truncate full size)
  | .chmod full mode => .attr full (.mode mode) (attrStart Γ)
  | .chown full uid gid => .attr full (.owner uid gid) (attrStart Γ)
  | .utime full actime modtime => .utimeStat full (.times (actime * 10 ^ 9) (modtime * 10 ^ 9))
  | .open full writable => .opening (.open full writable)
  | .desc d op => .fetched d op (s.descs d).file
  | .purge => .purgeStart false
  | .sigterm => .purgeStart true

/-- A request is over. -/
def finished (r : State × Reply) : State × Pc := (r.1, .idle (some r.2))

/-- A thread raises the count of accesses of an entry that `rename` has found. -/
def countAccess (s : State) (f : Nat) : State := s.modFile f (fun file => { file with accesses := file.accesses + 1 })

/-- What `fusecompress_open` does with the locked entry. The background thread can link another file to this one between `do_undedup` and
`file_open`. -/
def openBody (Γ : Config) (env : Env) (s : State) (f : Nat) (full : Filename) (writable : Bool) : State × Pc :=
  match openUndedup Γ env s f writable with
  | (s, true) => if Γ.dedupEnabled ∧ writable then (s.lock f, .undeduped full f) else finished (openFile Γ env s f full writable)
  | (s, false) => finished (s, .fail)

/-- Where there is no `do_undedup`, `fusecompress_open` is one critical section. -/
theorem openBody_whole {Γ : Config} {writable : Bool} (h : ¬(Γ.dedupEnabled = true ∧ writable = true)) (env : Env) (s : State) (f : Nat)
    (full : Filename) : openBody Γ env s f full writable = finished (openLocked Γ env s f full writable) := by
  unfold openBody openLocked
  rcases openUndedup Γ env s f writable with ⟨s₁, _ | _⟩
  · rfl
  · exact if_neg h

/-- What the caller of `direct_open` does with the locked entry. -/
def callerBody (Γ : Config) (env : Env) (s : State) (f : Nat) : Caller → State × Pc
  | .getattr full st => finished (getattrLocked Γ env s f full st)
  | .mknod full mode uid gid => finished (mknodLocked env s full mode uid gid)
  | .unlink full => finished (unlinkLocked Γ env s f full)
  | .renameFrom src dst => (countAccess s f, .opening (.renameTo src dst f))
  | .renameTo src dst a => (countAccess s f, .renamePair src dst a f)
  | .link src dst =>
    let errno := decompressErrno Γ env s f
    match linkLocked Γ env s f with
    | (s, true) => (s, .linking src dst)
    | (s, false) => finished (s, errnoReply errno .ok)
  | .truncate full size => finished (truncateLocked Γ env s f full size)
  | .utime full c => finished (utimeLocked Γ env s full c)
  | .open full writable => openBody Γ env s f full writable

/-- The loop of `direct_open`: cancel the background thread and wait while it is busy with the file. -/
def directOpenWait (Γ : Config) (env : Env) (s : State) (f : Nat) (k : Caller) : State × Pc :=
  if k.stabile && (s.files f).status.busy then
    (s.modFile f (fun file => { file with status := { file.status with cancel := true } }), .waiting k f (s.files f).cond)
  else callerBody Γ env s f k

/-- `direct_open` adds a new entry, which no worker is busy with. -/
def directOpenNew (Γ : Config) (env : Env) (s : State) (k : Caller) : State × Pc :=
  callerBody Γ env (directOpenAdd Γ s k.filename) s.nextFile k

/-- `direct_open` up to the point where it waits, starts a purge, or has the entry. -/
def directOpenStart (Γ : Config) (env : Env) (s : State) (k : Caller) : Option (State × Pc) :=
  match findFile s k.filename with
  | some f => if s.lockable f then some (directOpenWait Γ env (directOpenFound s f) f k) else none
  | none =>
    let s' := { s with entries := s.entries + 1 }
    if s.entries > maxDatabaseLen + s.compEntries then some (s', .purging s.database (some k) false)
    else some (directOpenNew Γ env s' k)

/-- A request on a descriptor, from the lock of the fetched entry on. -/
def descLocked (Γ : Config) (env : Env) (s : State) (d f : Nat) : DescOp → State × Pc
  | .read size offset =>
    let relock := (s.files f).compressor.isSome
    match readLocked Γ env s f d size offset with
    | (s, .done res buf) => if res = -1 then (s, .preaded d f none false) else finished (s, .read buf)
    | (s, .pread fd size offset served) => (s, .preading d f fd size offset served relock)
  | .write buf offset =>
    match writeLocked Γ env s f d buf offset with
    | (s, .done res) => if res = -1 then finished (invalidateSize s f, errnoReply (env.ok .errno) (.wrote 0)) else finished (s, .wrote res)
    | (s, .pwrite fd) => (s, .pwriting d f fd buf offset)
  | .release => finished (releaseLocked Γ env s f d)

/-- A step of a thread. `free` says that no other thread holds `database.lock`. -/
def clientStep (Γ : Config) (env : Env) (free : Bool) (s : State) : Pc → Option (State × Pc)
  | .idle _ => none
  | .getattrStat full =>
    if isMagicFile full then some (finished (getattrMagic s full))
    else
      match sysGetattr Γ env s.fs full with
      | .failed => some (finished (s, .fail))
      | .notRegular => some (finished (s, .ok))
      | .regular st => some (s, .opening (.getattr full st))
  | .utimeStat full c =>
    match sysGetattr Γ env s.fs full with
    | .notRegular => some (finished (s, if env.ok .lutimes then .ok else .fail))
    | _ => some (s, .opening (.utime full c))
  | .mkdir full =>
    match if env.ok .mkdir then s.fs.mkdir full else none with
    | none => some (finished (s, .fail))
    | some b => some (finished ({ s with fs := b }, .ok))
  | .rmdir full =>
    match if env.ok .rmdir then s.fs.rmdir full else none with
    | none => some (finished (s, .fail))
    | some b => some (finished ({ s with fs := b }, .ok))
  | .purgeStart force => if free then some (s, .purging s.database none force) else none
  | .opening k => if free then directOpenStart Γ env s k else none
  | .purging (f :: todo) k force =>
    -- the lock of an entry in use is taken only to force it out
    if s.freed f then none
    else if !s.lockable f && ((s.files f).accesses = 0 || force) then none
    else some (purgeFile Γ env force s f, .purging todo k force)
  | .purging [] none _ => some (finished (s, .ok))
  | .purging [] (some k) _ => some (directOpenNew Γ env s k)
  | .waiting k f seen =>
    if (s.files f).cond ≠ seen ∧ s.lockable f then some (directOpenWait Γ env s f k) else none
  | .undeduped full f => if s.kept f then some (finished (openFile Γ env (s.unlock f) f full true)) else none
  | .renamePair src dst a b => if s.lockable a then some (s.lock a, .renameSecond src dst a b) else none
  | .renameSecond _ _ a b => if s.kept a ∧ s.lockable b then some (finished (renameLocked Γ env (s.unlock a) a b)) else none
  | .linking src dst => some (finished (linkCall env s src dst))
  | .fetched d op f => if s.lockable f then some (descLocked Γ env s d f op) else none
  | .preading d f fd size offset served relock =>
    some (s, .preaded d f ((preadFd env s fd size offset).map (served ++ ·)) relock)
  | .preaded _ f res relock =>
    match res with
    | some buf => if relock && !s.lockable f then none else some (finished (s, .read buf))
    | none => if s.freed f || (relock && !s.lockable f) then none else some (finished (invalidateSize s f, errnoReply (env.ok .errno) (.read [])))
  | .pwriting d f fd buf offset =>
    match pwriteFd env s fd buf offset with
    | (s, true) => some (s, .pwrote d f (some buf.length))
    | (s, false) => some (s, .pwrote d f none)
  | .pwrote _ f res =>
    if s.lockable f then
      match res with
      | some len => some (finished (s, .wrote len))
      | none => some (finished (invalidateSize s f, .fail))
    else none
  | .attr full c pc =>
    match attrStep Γ env s.fs full c pc with
    | (b, .inl pc) => some ({ s with fs := b }, .attr full c pc)
    | (b, .inr res) => some (finished ({ s with fs := b }, if res then .ok else .fail))

/-! ## The background thread -/

/-- A step of `dedup_hash_file`. -/
def hashStep (Γ : Config) (env : Env) (s : State) (name : Filename) : HashPc → State × HashPc
  | .start =>
    match if env.ok .open then s.fs.inoOf name else none with
    | none => (s, .finished none)
    | some i =>
      match hashStart Γ (env.ok .readMagic) (env.ok .readHeader) (s.data i) with
      | .raw => (s, .raw i [])
      | .failed => (s, .finished none)
      | .crash => (s.abort, .finished none)
      | .packed m => if env.ok .codecOpen then (s, .packed i m []) else (s, .finished none)
  | .raw i got =>
    let chunk := Bytes.slice (s.data i) got.length pageSize
    if env.ok .read = false then (s, .finished none)
    else if chunk = [] then (s, .finished (some (Γ.md5 got)))
    else (s, .raw i (got ++ chunk))
  | .packed i m got =>
    match if env.ok .codecRead then (Γ.codec m).decode ((s.data i).drop headerSize) else none with
    | none => (s, .finished none)
    | some d =>
      let chunk := Bytes.slice d got.length pageSize
      if chunk = [] then (s, .finished (some (Γ.md5 got))) else (s, .packed i m (got ++ chunk))
  | .finished hash => (s, .finished hash)

/-- `thread_compress` with the lock of the file of the entry it has dequeued. -/
def workerProcess (Γ : Config) (env : Env) (s : State) (f : Nat) (isDedup : Bool) : State × WorkerPc :=
  let s := s.assert Γ (decide ((s.files f).accesses > 0))
  if isDedup then
    if dedupNow (s.files f) then (doDedupBegin s f, .hashing f .start) else (compFinish Γ s f true, .idle)
  else if compressNow Γ (s.files f) then
    match doCompressBegin Γ env s f with
    | (s, some job) => (s, .compressing job [] false)
    | (s, none) => (compFinish Γ s f false, .idle)
  else (compFinish Γ s f false, .idle)

/-- A step of `thread_compress`. -/
def workerStep (Γ : Config) (env : Env) (s : State) : WorkerPc → Option (State × WorkerPc)
  | .idle => (compDequeue s).map (fun r => (r.1, .dequeued r.2.file r.2.isDedup))
  | .dequeued f isDedup => if s.lockable f then some (workerProcess Γ env s f isDedup) else none
  | .compressing job got eof =>
    if env.ok .compress && !eof then
      let chunk := Bytes.slice (s.data job.ino) got.length pageSize
      some (s, .compressing job (got ++ chunk) (chunk = []))
    else if s.lockable job.file then
      some (compFinish Γ (doCompressEnd Γ env s job got eof).1 job.file false, .idle)
    else none
  | .hashing f (.finished hash) =>
    if s.lockable f then some (compFinish Γ (doDedupEnd Γ env s f hash) f true, .idle) else none
  | .hashing f pc =>
    if s.freed f then none
    else let r := hashStep Γ env s (s.files f).filename pc; some (r.1, .hashing f r.2)

/-! ## The whole system -/

section System

variable {T : Type} [DecidableEq T]

/-- The thread holds `database.lock` when its step is over. -/
def Pc.locksDb : Pc → Bool
  | .purging _ _ _ => true
  | _ => false

/-- A thread goes on from one place to the next. -/
def Sys.advance (sys : Sys T) (t : T) (s : State) (pc : Pc) : Sys T :=
  { sys with
    shared := s
    clients := Function.update sys.clients t pc
    dbLock := if pc.locksDb then some t else if (sys.clients t).locksDb then none else sys.dbLock }

/-- One step of the system. -/
def Sys.step (Γ : Config) (sys : Sys T) : Label T → Option (Sys T)
  | .request t r =>
    match sys.clients t with
    | .idle _ =>
      if sys.shared.aborted then none else some (sys.advance t sys.shared (takeRequest Γ sys.shared r))
    | _ => none
  | .client t env =>
    if sys.shared.aborted then none
    else
      (clientStep Γ env (sys.dbLock = none) sys.shared (sys.clients t)).map (fun r => sys.advance t r.1 r.2)
  | .worker env =>
    if sys.shared.aborted then none
    else (workerStep Γ env sys.shared sys.worker).map (fun r => { sys with shared := r.1, worker := r.2 })
  | .tick => some { sys with shared := sys.shared.withFs (fun b => { b with clock := b.clock + 1 }) }

/-- A process that has just mounted a backing directory. -/
def State.mounted (fs : Backing) : State :=
  { fs := fs
    files := fun _ =>
      { filename := [], deleted := false, accesses := 0, size := -1, compressor := none, skipped := 0, dontcompress := false,
        type := .unset, status := .clear, deduped := true, cache := none, head := [], cond := 0, locked := false, leaked := false }
    nextFile := 0
    freed := fun _ => false
    database := []
    entries := 0
    comp := []
    compEntries := 0
    dedup := dedupInitDb
    redup := false
    descs := fun _ => { file := 0, fd := none, writable := false, handle := none, offset := 0, live := false }
    nextDesc := 0
    decompCacheSize := 0
    aborted := false }

/-- The system just after the mount. -/
def Sys.mounted (fs : Backing) : Sys T :=
  { shared := State.mounted fs, worker := .idle, clients := fun _ => .idle none, dbLock := none }

end System

end FuseCompress
