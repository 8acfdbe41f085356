import FuseCompress.Interleaving

/-!
# The handles of the compression modules

Which handles the requests on descriptors open, use and close, in the order of the calls. Next to each function that works on handles
stands the list of what it does with them. `direct_decompress` and `direct_compress` are there a second time, for calls of
`compressor->read` and `compressor->write` that return anything.

A descriptor has one handle at a time, so a handle is named by its descriptor.
-/

namespace FuseCompress

/-- What is done with a handle: `compressor->open` returns it, `read` or `write` gets it, `close` gets it, and its descriptor is
freed. -/
inductive HandleEvent where
  | opened (d : Nat)
  | used (d : Nat)
  | closed (d : Nat)
  | released (d : Nat)
  deriving DecidableEq, Repr

/-- The descriptors that have an open handle after an event. A handle that is used or closed when it is not open is misused, and one
that is replaced or whose descriptor is freed while it is open is lost: there is no next state. -/
def HandleEvent.next (isOpen : Nat → Bool) : HandleEvent → Option (Nat → Bool)
  | .opened d => if isOpen d then none else some (Function.update isOpen d true)
  | .used d => if isOpen d then some isOpen else none
  | .closed d => if isOpen d then some (Function.update isOpen d false) else none
  | .released d => if isOpen d then none else some isOpen

/-- Every handle is used only between its `open` and its `close`, and is closed exactly once before its descriptor is freed. -/
def HandleEvent.Linear (events : List HandleEvent) : Prop :=
  (execute HandleEvent.next (fun _ => false) events).isSome = true

instance (events : List HandleEvent) : Decidable (HandleEvent.Linear events) := inferInstanceAs (Decidable (_ = true))

/-! ## Closing -/

/-- `direct_close`. -/
def closeEvents (s : State) (f d : Nat) : List HandleEvent :=
  if (s.descs d).handle.isSome && (s.files f).compressor.isSome then [.closed d] else []

/-- `closeAll`. -/
def closeAllEvents (Γ : Config) (env : Env) (s : State) (f : Nat) : List Nat → List HandleEvent
  | [] => []
  | d :: ds => closeEvents s f d ++ closeAllEvents Γ env (fileClose Γ (directClose Γ (env.of d) s f d) d) f ds

/-- `do_decompress` up to the header of the file: the inode it has opened. -/
def doDecompressOpens (Γ : Config) (env : Env) (s : State) (f : Nat) : Option Nat :=
  if env.ok .statvfs = false ∨ s.fs.find (s.files f).filename = none then none
  else if !enoughSpace Γ env (s.files f).size then none
  else if env.ok .open && env.ok .readHeader then s.fs.inoOf (s.files f).filename
  else none

/-- `do_decompress`. -/
def doDecompressEvents (Γ : Config) (env : Env) (s : State) (f : Nat) : List HandleEvent :=
  match doDecompressOpens Γ env s f with
  | none => []
  | some src =>
    let s := flushFileCache s f
    match parse Γ (s.data src) with
    | none => []
    | some (m, _) =>
      let s := s.modFile f (fun file => { file with compressor := some (file.compressor.getD m) })
      let s := s.assert Γ ((s.files f).compressor.getD m = m)
      closeAllEvents Γ env s f (s.files f).head

/-- `truncateClose`. -/
def truncateCloseEvents (Γ : Config) (env : Env) (s : State) (f : Nat) : List Nat → List HandleEvent
  | [] => []
  | d :: ds =>
    let s' := directClose Γ (env.of d) s f d
    let s' := s'.modDesc d (fun desc =>
      { desc with fd := if (env.of d).ok .lseek then desc.fd.map (fun fd => { fd with pos := 0 }) else desc.fd })
    closeEvents s f d ++ truncateCloseEvents Γ env s' f ds

/-- `fusecompress_truncate`. -/
def truncateEvents (Γ : Config) (env : Env) (s : State) (f size : Nat) : List HandleEvent :=
  let s := discard Γ s f
  if (s.files f).compressor = none then []
  else if size > 0 then doDecompressEvents Γ env s f
  else truncateCloseEvents Γ env s f (s.files f).head

/-- `fusecompress_release`. -/
def releaseEvents (s : State) (f d : Nat) : List HandleEvent := closeEvents s f d ++ [.released d]

/-! ## The calls of a module -/

/-- A descriptor after a call of its module: the stream, if there is one, and the position of the file descriptor have moved. -/
def Desc.afterCall (handle : Handle) (pos : Nat) (desc : Desc) : Desc :=
  { desc with handle := desc.handle.map (fun _ => handle), fd := desc.fd.map (fun fd => { fd with pos := pos }) }

/-- A call of `compressor->read` on a descriptor leaves everything alone but the stream and the position of the file descriptor. -/
def ReadsStream (d : Nat) (s t : State) : Prop := ∃ (handle : Handle) (pos : Nat), t = s.modDesc d (Desc.afterCall handle pos)

/-- A call of `compressor->write` sends some bytes to the file, too. -/
def WritesStream (d : Nat) (s t : State) : Prop :=
  ∃ out : Bytes, ReadsStream d ((s.descs d).fd.elim s (fun fd => writeFd s d fd out)) t

/-- The calls of `compressor->read` and `compressor->write` that a request makes on a descriptor: none for `-1`, or as many bytes as
were asked for at most. The reads of a request are numbered, the last one with 0. -/
structure ModuleCalls (d : Nat) where
  read : Nat → State → Nat → State × Option Bytes
  write : State → Bytes → State × Option Nat
  read_stream : ∀ i s n, ReadsStream d s (read i s n).1
  read_le : ∀ i s n buf, (read i s n).2 = some buf → buf.length ≤ n
  write_stream : ∀ s buf, WritesStream d s (write s buf).1
  write_le : ∀ s buf len, (write s buf).2 = some len → len ≤ buf.length

/-- `compressor->write` on a descriptor, by what a module emits. -/
def codecWrite (Γ : Config) (env : Env) (s : State) (m : Module) (d : Nat) (buf : Bytes) : State × Option Nat :=
  match (s.descs d).handle, (s.descs d).fd with
  | some (.writing chunks), some fd =>
    if env.ok .codecWrite = false then (s, none)
    else
      let s := writeFd s d fd ((Γ.codec m).emit chunks buf)
      (s.modDesc d (fun desc => { desc with handle := some (.writing (chunks ++ [buf])) }), some buf.length)
  | _, _ => (s, none)

section codec

variable {s : State} {d : Nat}

theorem readsStream_refl : ReadsStream d s s := by
  have hsame : ∃ (handle : Handle) (pos : Nat), (s.descs d).afterCall handle pos = s.descs d := by
    unfold Desc.afterCall
    cases s.descs d with
    | mk file fd writable handle offset live =>
      refine ⟨handle.getD (.writing []), fd.elim 0 Fd.pos, ?_⟩
      cases handle <;> cases fd <;> rfl
  obtain ⟨handle, pos, hdesc⟩ := hsame
  refine ⟨handle, pos, ?_⟩
  unfold State.modDesc
  rw [hdesc, Function.update_eq_self]

theorem writesStream_refl : WritesStream d s s := by
  refine ⟨[], ?_⟩
  cases hfd : (s.descs d).fd with
  | none => exact readsStream_refl
  | some fd =>
    have hsame : writeFd s d fd [] = s := by
      unfold writeFd State.modDesc
      rw [if_pos rfl, List.length_nil, Nat.add_zero, ← hfd]
      exact congrArg (fun descs => { s with descs := descs }) (Function.update_eq_self d s.descs)
    rw [Option.elim_some, hsame]
    exact readsStream_refl

theorem codecRead_stream (Γ : Config) (env : Env) (s : State) (m : Module) (d n : Nat) :
    ReadsStream d s (codecRead Γ env s m d n).1 := by
  unfold codecRead
  split
  · rename_i start pos fd hhandle hfd
    split
    · exact readsStream_refl
    · rename_i content _
      refine ⟨.reading start (pos + (Bytes.slice content pos n).length), (s.data fd.ino).length, ?_⟩
      unfold State.modDesc Desc.afterCall
      rw [hhandle, hfd]
      rfl
  · exact readsStream_refl

theorem codecRead_le {Γ : Config} {env : Env} {s : State} {m : Module} {d n : Nat} {buf : Bytes}
    (h : (codecRead Γ env s m d n).2 = some buf) : buf.length ≤ n := by
  unfold codecRead at h
  split at h
  · split at h
    · cases h
    · cases h
      rw [Bytes.length_slice]
      exact Nat.min_le_left _ _
  · cases h

theorem codecWrite_stream (Γ : Config) (env : Env) (s : State) (m : Module) (d : Nat) (buf : Bytes) :
    WritesStream d s (codecWrite Γ env s m d buf).1 := by
  unfold codecWrite
  split
  · rename_i chunks fd hhandle hfd
    split
    · exact writesStream_refl
    · refine ⟨(Γ.codec m).emit chunks buf, .writing (chunks ++ [buf]), fd.pos + ((Γ.codec m).emit chunks buf).length, ?_⟩
      rw [hfd, Option.elim_some]
      unfold writeFd
      split
      · unfold State.modDesc Desc.afterCall
        simp [hhandle]
      · unfold State.modDesc Desc.afterCall
        simp [hhandle]
  · exact writesStream_refl

theorem codecWrite_le {Γ : Config} {env : Env} {s : State} {m : Module} {d len : Nat} {buf : Bytes}
    (h : (codecWrite Γ env s m d buf).2 = some len) : len ≤ buf.length := by
  unfold codecWrite at h
  split at h
  · split at h
    · cases h
    · cases h
      exact Nat.le_refl _
  · cases h

end codec

/-- The calls of a module that emits and decodes what the model says, and fails where the system does. -/
def ModuleCalls.codec (Γ : Config) (env : Env) (m : Module) (d : Nat) : ModuleCalls d where
  read _ s n := codecRead Γ env s m d n
  write s buf := codecWrite Γ env s m d buf
  read_stream _ s n := codecRead_stream Γ env s m d n
  read_le _ _ _ _ h := codecRead_le h
  write_stream s buf := codecWrite_stream Γ env s m d buf
  write_le _ _ _ h := codecWrite_le h

/-! ## Reading -/

section calls

variable {d : Nat}

/-- `skipLoop`. -/
def skipLoopWith (Γ : Config) (calls : ModuleCalls d) (f : Nat) (cacheThis : Bool) :
    Nat → Nat → State → (State × Option Int) × List HandleEvent
  | 0, _, s => ((s, none), [])
  | n + 1, toread, s =>
    if toread = 0 then ((s, none), [])
    else
      let readsize := min toread pageSize
      let keep := keepPage Γ s f d cacheThis
      match calls.read (n + 1) (countPage s keep) readsize with
      | (s, none) => ((s, some (-1)), [.used d])
      | (s, some buf) =>
        let now := (s.descs d).offset
        if buf.length < readsize ∧ ((s.files f).size = -1 ∨ ((now + buf.length : Nat) : Int) < (s.files f).size) then
          ((s, some (-1)), [.used d])
        else if buf = [] then ((s, some 0), [.used d])
        else
          let r := skipLoopWith Γ calls f cacheThis n (toread - buf.length) (skipped s f d keep buf)
          (r.1, .used d :: r.2)

/-- `decompressRead`. -/
def decompressReadWith (calls : ModuleCalls d) (s : State) (f size : Nat) (served : Bytes) :
    (State × ReadNext) × List HandleEvent :=
  let size := cutSize (s.files f) (s.descs d).offset size
  match calls.read 0 s size with
  | (s, none) => ((s, .done (-1) []), [.used d])
  | (s, some buf) =>
    if buf.length < size then ((s, .done (-1) []), [.used d])
    else
      ((s.modDesc d (fun desc => { desc with offset := desc.offset + buf.length }),
        .done ((buf.length + served.length : Nat) : Int) (served ++ buf)), [.used d])

/-- `decompressSkip`. -/
def decompressSkipWith (Γ : Config) (calls : ModuleCalls d) (s : State) (f size offset : Nat) (cacheThis : Bool) (served : Bytes) :
    (State × ReadNext) × List HandleEvent :=
  if offset > (s.descs d).offset then
    let toread := offset - (s.descs d).offset
    let cacheThis := cacheThis && !decide ((toread : Int) > Γ.maxDecompCacheSize - s.decompCacheSize)
    if allocFails (s.files f) cacheThis then ((s, .done (-1) []), [])
    else
      match skipLoopWith Γ calls f cacheThis toread toread (allocCache s f cacheThis) with
      | ((s, some r), events) => ((s, .done r []), events)
      | ((s, none), events) =>
        let r := decompressReadWith calls s f size served
        (r.1, events ++ r.2)
  else decompressReadWith calls s f size served

/-- `openStream`. -/
def openStreamEvents (Γ : Config) (env : Env) (s : State) (d : Nat) : List HandleEvent :=
  if (s.descs d).handle = none ∧ (openStream Γ env s d).2 = true then [.opened d] else []

/-- `decompressOpen`. -/
def decompressOpenEvents (Γ : Config) (env : Env) (s : State) (m : Module) (d offset : Nat) : List HandleEvent :=
  if offset < (s.descs d).offset then
    if (s.descs d).handle = none then []
    else if env.ok .codecClose = false then [.closed d]
    else if env.ok .lseek = false ∨ (s.descs d).fd = none then [.closed d]
    else .closed d :: openStreamEvents Γ env (seekHeader (rewind Γ env s m d) d) d
  else openStreamEvents Γ env s d

/-- `directDecompress`. -/
def directDecompressWith (Γ : Config) (env : Env) (calls : ModuleCalls d) (s : State) (m : Module) (f size offset : Nat) :
    (State × ReadNext) × List HandleEvent :=
  let s := s.assert Γ (s.descs d).fd.isSome
  let cacheThis := Γ.cacheDecompressedData && offset % pageSize = 0 && size % pageSize = 0
  let s := s.modFile f (fun file => { file with type := if file.type = .unset then .read else file.type })
  match serveCache s f cacheThis size offset with
  | (s, served, any) =>
    let size := size - served.length
    let offset := offset + served.length
    if any ∧ size = 0 then ((s, .done served.length served), [])
    else if readFallback Γ (s.files f) s.decompCacheSize cacheThis (s.descs d).offset offset then
      let events := doDecompressEvents Γ env s f
      match doDecompress Γ env s f with
      | (s, false) => ((s, .done (-1) []), events)
      | (s, true) =>
        let s := s.modFile f (fun file => { file with size := -1, skipped := 0 })
        ((s, .pread (s.descs d).fd size offset served), events)
    else
      let events := decompressOpenEvents Γ env s m d offset
      match decompressOpen Γ env s m d offset with
      | (s, false) => ((s, .done (-1) []), events)
      | (s, true) =>
        let r := decompressSkipWith Γ calls s f size offset cacheThis served
        (r.1, events ++ r.2)

/-- `readLocked`. -/
def readLockedWith (Γ : Config) (env : Env) (calls : ModuleCalls d) (s : State) (f size offset : Nat) :
    (State × ReadNext) × List HandleEvent :=
  match (s.files f).compressor with
  | some m => directDecompressWith Γ env calls s m f size offset
  | none => ((s, .pread (s.descs d).fd size offset []), [])

/-! ## Writing -/

/-- `compressWrite`. -/
def compressWriteWith (env : Env) (calls : ModuleCalls d) (s : State) (m : Module) (f : Nat) (buf : Bytes) :
    (State × WriteNext) × List HandleEvent :=
  match (s.descs d).handle, (s.descs d).fd with
  | some _, some fd =>
    match calls.write s buf with
    | (s, none) => ((s, .done (-1)), [.used d])
    | (s, some len) =>
      let s := s.modDesc d (fun desc => { desc with offset := desc.offset + len })
      let s := s.modFile f (fun file => { file with size := (s.descs d).offset })
      if env.ok .updateHeader = false then ((s, .done (-1)), [.used d])
      else ((seekEnd (writeHeaderAt s d fd m (s.files f).size) d, .done len), [.used d])
  | _, _ => ((s, .done (-1)), [])

/-- `directCompress`. -/
def directCompressWith (Γ : Config) (env : Env) (calls : ModuleCalls d) (s : State) (m : Module) (f : Nat) (buf : Bytes)
    (offset : Nat) : (State × WriteNext) × List HandleEvent :=
  let s := s.assert Γ ((s.descs d).fd.isSome && !Γ.readOnly)
  let s := flushFileCache s f
  let s := s.modFile f (fun file => { file with type := if file.type = .unset then .write else file.type })
  if writeFallback (s.files f) (s.descs d).offset offset then
    let events := doDecompressEvents Γ env s f
    match doDecompress Γ env s f with
    | (s, false) => ((s, .done (-1)), events)
    | (s, true) =>
      let s := s.modFile f (fun file => { file with size := -1 })
      ((s, .pwrite (s.descs d).fd), events)
  else
    match (s.descs d).handle, (s.descs d).fd with
    | none, some fd =>
      match compressOpen Γ env s m f d fd with
      | (s, false) => ((s, .done (-1)), [])
      | (s, true) =>
        let r := compressWriteWith env calls s m f buf
        (r.1, .opened d :: r.2)
    | _, _ => compressWriteWith env calls s m f buf

/-- `writeLocked`. -/
def writeLockedWith (Γ : Config) (env : Env) (calls : ModuleCalls d) (s : State) (f : Nat) (buf : Bytes) (offset : Nat) :
    (State × WriteNext) × List HandleEvent :=
  let s := discard Γ s f
  let s := writeChoose Γ s f offset
  match (s.files f).compressor with
  | some m => directCompressWith Γ env calls s m f buf offset
  | none => ((s, .pwrite (s.descs d).fd), [])

end calls

/-! ## Sequences of requests -/

/-- What a request still has to do without the lock, or when it has taken the lock again: call `pread` or `pwrite`, or invalidate the
size of the file. -/
inductive PendingCall where
  | pread (f : Nat) (fd : Option Fd) (size offset : Nat)
  | pwrite (f : Nat) (fd : Option Fd) (buf : Bytes) (offset : Nat)
  | failed (f : Nat)
  deriving DecidableEq, Repr

/-- What a read still has to do. -/
def ReadNext.pending (f : Nat) : ReadNext → List PendingCall
  | .done res _ => if res = -1 then [.failed f] else []
  | .pread fd size offset _ => [.pread f fd size offset]

/-- The process, what its requests still have to do, and what has been done with handles. -/
structure HandleRun where
  shared : State
  pending : List PendingCall
  events : List HandleEvent

/-- The process after a critical section that leaves something to do. -/
def HandleRun.after (k : HandleRun) (s : State) (pending : List PendingCall) (events : List HandleEvent) : HandleRun where
  shared := s
  pending := k.pending ++ pending
  events := k.events ++ events

/-- A critical section of a request, with the results of its calls, or what a request does after it. -/
inductive HandleStep where
  | open (env : Env) (full : Filename) (writable : Bool)
  | read (env : Env) (d : Nat) (calls : ModuleCalls d) (size offset : Nat)
  | write (env : Env) (d : Nat) (calls : ModuleCalls d) (buf : Bytes) (offset : Nat)
  | truncate (env : Env) (full : Filename) (size : Nat)
  | release (env : Env) (d : Nat)
  | finish (env : Env) (i : Nat)

/-- The descriptor is in use and the lock of its entry can be taken. -/
def State.usable (s : State) (d : Nat) : Bool := (s.descs d).live && s.lockable (s.descs d).file

/-- The end of a request. -/
def finishCall (env : Env) (s : State) : PendingCall → State
  | .pread f fd size offset => if (preadFd env s fd size offset).isNone then invalidateSize s f else s
  | .pwrite f fd buf offset =>
    match pwriteFd env s fd buf offset with
    | (s, true) => s
    | (s, false) => invalidateSize s f
  | .failed f => invalidateSize s f

/-- A step, of a process that is not gone. -/
def HandleRun.step (Γ : Config) (k : HandleRun) : HandleStep → Option HandleRun
  | .open env full writable =>
    let r := directOpen Γ env k.shared full
    if r.1.lockable r.2 then some (k.after (openLocked Γ env r.1 r.2 full writable).1 [] []) else none
  | .read env d calls size offset =>
    let f := (k.shared.descs d).file
    if k.shared.usable d then
      let r := readLockedWith Γ env calls k.shared f size offset
      some (k.after r.1.1 (r.1.2.pending f) r.2)
    else none
  | .write env d calls buf offset =>
    let f := (k.shared.descs d).file
    if k.shared.usable d then
      match writeLockedWith Γ env calls k.shared f buf offset with
      | ((s, .done res), events) => some (k.after (if res = -1 then invalidateSize s f else s) [] events)
      | ((s, .pwrite fd), events) => some (k.after s [.pwrite f fd buf offset] events)
    else none
  | .truncate env full size =>
    let r := directOpen Γ env k.shared full
    if r.1.lockable r.2 then
      some (k.after (truncateLocked Γ env r.1 r.2 full size).1 [] (truncateEvents Γ env r.1 r.2 size))
    else none
  | .release env d =>
    let f := (k.shared.descs d).file
    if k.shared.usable d then some (k.after (releaseLocked Γ env k.shared f d).1 [] (releaseEvents k.shared f d)) else none
  | .finish env i =>
    match k.pending[i]? with
    | none => none
    | some c => some { k with shared := finishCall env k.shared c, pending := k.pending.eraseIdx i }

/-- The steps of the process. -/
def handleStep (Γ : Config) (k : HandleRun) (a : HandleStep) : Option HandleRun :=
  if k.shared.aborted then none else k.step Γ a

/-- The process after `mount`. -/
def HandleRun.mounted (fs : Backing) : HandleRun := { shared := .mounted fs, pending := [], events := [] }

/-! ## Which steps keep track of the handles -/

/-- A descriptor of the entry has a handle. -/
def State.hasStream (s : State) (f : Nat) : Bool := (s.files f).head.any (fun d => (s.descs d).handle.isSome)

/-- `do_decompress` finds a header in the file, or the entry has no descriptor with a handle. -/
def doDecompressKeeps (Γ : Config) (env : Env) (s : State) (f : Nat) : Bool :=
  match doDecompressOpens Γ env s f with
  | none => true
  | some src => (parse Γ (s.data src)).isSome || !s.hasStream f

/-- The same of `fusecompress_open`. -/
def openKeeps (Γ : Config) (env : Env) (s : State) (f : Nat) (full : Filename) (writable : Bool) : Bool :=
  match openUndedup Γ env s f writable with
  | (_, false) => true
  | (s, true) =>
    match if env.ok .open && env.ok .fstat then s.fs.inoOf full else none with
    | none => true
    | some i =>
      (parse Γ (s.data i)).isSome || !s.hasStream f || (decide (headerSize ≤ (s.data i).length) && !env.ok .readHeader)

/-- `direct_decompress` does not fail to close the handle when it goes back, and keeps what `do_decompress` has to keep. -/
def directDecompressKeeps (Γ : Config) (env : Env) (s : State) (f d size offset : Nat) : Bool :=
  let s := s.assert Γ (s.descs d).fd.isSome
  let cacheThis := Γ.cacheDecompressedData && offset % pageSize = 0 && size % pageSize = 0
  let s := s.modFile f (fun file => { file with type := if file.type = .unset then .read else file.type })
  match serveCache s f cacheThis size offset with
  | (s, served, any) =>
    if any ∧ size - served.length = 0 then true
    else if readFallback Γ (s.files f) s.decompCacheSize cacheThis (s.descs d).offset (offset + served.length) then
      doDecompressKeeps Γ env s f
    else env.ok .codecClose || decide ((s.descs d).offset ≤ offset + served.length)

/-- `direct_compress` keeps what `do_decompress` has to keep. -/
def directCompressKeeps (Γ : Config) (env : Env) (s : State) (f d offset : Nat) : Bool :=
  let s := s.assert Γ ((s.descs d).fd.isSome && !Γ.readOnly)
  let s := flushFileCache s f
  let s := s.modFile f (fun file => { file with type := if file.type = .unset then .write else file.type })
  !writeFallback (s.files f) (s.descs d).offset offset || doDecompressKeeps Γ env s f

/-- `fusecompress_write` finds a module when it chooses one, or the entry has no descriptor with a handle. -/
def writeChooseKeeps (Γ : Config) (s : State) (f offset : Nat) : Bool :=
  !mayChoose (s.files f) offset || (chooseCompressor Γ (s.files f).filename).isSome || !s.hasStream f

/-- The condition on a step. -/
def HandleStep.keeps (Γ : Config) (s : State) : HandleStep → Bool
  | .open env full writable =>
    let r := directOpen Γ env s full
    openKeeps Γ env r.1 r.2 full writable
  | .read env d _ size offset =>
    let f := (s.descs d).file
    (s.files f).compressor.isNone || directDecompressKeeps Γ env s f d size offset
  | .write env d _ _ offset =>
    let f := (s.descs d).file
    let s := discard Γ s f
    let t := writeChoose Γ s f offset
    writeChooseKeeps Γ s f offset && ((t.files f).compressor.isNone || directCompressKeeps Γ env t f d offset)
  | .truncate env full size =>
    let r := directOpen Γ env s full
    let s := discard Γ r.1 r.2
    (s.files r.2).compressor.isNone || size = 0 || doDecompressKeeps Γ env s r.2
  | .release _ _ => true
  | .finish _ _ => true

end FuseCompress
