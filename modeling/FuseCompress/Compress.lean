import FuseCompress.Dedup

/-!
# Compressing and decompressing a whole file

`compress.c`, with `direct_close`, `direct_delete` and `flush_file_cache` of `direct_compress.c`, which it calls. `do_decompress`
runs under the lock of the file from beginning to end and is one function here. `do_compress` gives the lock back while the
module compresses, so it is two: `doCompressBegin` up to the unlock and `doCompressEnd` from the lock on.

A process built with assertions is gone when one fails (`State.assert`). Calling through a NULL module pointer ends the process
in every build (`State.abort`).
-/

namespace FuseCompress

/-- `flush_file_cache`. -/
def flushFileCache (s : State) (f : Nat) : State :=
  match (s.files f).cache with
  | none => s
  | some pages =>
    let s := { s with decompCacheSize := s.decompCacheSize - 4096 * ((pages.filter Option.isSome).length : Int) }
    s.modFile f (fun file => { file with cache := none })

/-- `direct_delete`. -/
def directDelete (s : State) (f : Nat) : State := s.modFile f (fun file => { file with deleted := true, size := -1 })

/-- Write at the position of an open file and move the position on. -/
def writeFd (s : State) (d : Nat) (fd : Fd) (buf : Bytes) : State :=
  let s := if buf = [] then s else s.withFs (fun b => b.setData fd.ino (Bytes.overwrite (b.inodes fd.ino).data fd.pos buf))
  s.modDesc d (fun desc => { desc with fd := some { fd with pos := fd.pos + buf.length } })

/-- `compressor->close` on a descriptor: a writing module pushes what it still holds. -/
def codecClose (Γ : Config) (env : Env) (s : State) (m : Module) (d : Nat) : State :=
  match (s.descs d).handle, (s.descs d).fd with
  | some (.writing chunks), some fd => if env.ok .codecClose then writeFd s d fd ((Γ.codec m).tail chunks) else s
  | _, _ => s

/-- `direct_close` closes the module on the descriptor when it is open. -/
def closeHandle (Γ : Config) (env : Env) (s : State) (f d : Nat) : State :=
  match (s.descs d).handle, (s.files f).compressor with
  | none, _ => s
  | some _, none => s.abort
  | some _, some m => (codecClose Γ env s m d).modDesc d (fun desc => { desc with offset := 0, handle := none })

/-- `direct_close` gives a file that was written to the times it had before. -/
def restoreTimes (env : Env) (s : State) (f : Nat) (stbuf : Option Attr) : State :=
  match stbuf, s.fs.inoOf (s.files f).filename with
  | some st, some i => if (s.files f).type = .write ∧ env.ok .closeUtime then s.withFs (fun b => b.utime i st) else s
  | _, _ => s

/-- `direct_close`. -/
def directClose (Γ : Config) (env : Env) (s : State) (f d : Nat) : State :=
  let stbuf := if env.ok .closeFstat then (s.descs d).fd.map (fun fd => (s.fs.inodes fd.ino).attr) else none
  let s := restoreTimes env (closeHandle Γ env s f d) f stbuf
  if (s.files f).accesses = 1 then s.modFile f (fun file => { file with type := .unset, dontcompress := false }) else s

/-- `file_close` on the file descriptor of a descriptor. -/
def fileClose (Γ : Config) (s : State) (d : Nat) : State :=
  (s.assert Γ (s.descs d).fd.isSome).modDesc d (fun desc => { desc with fd := none })

/-- `do_decompress` closes every descriptor of the file. -/
def closeAll (Γ : Config) (env : Env) (s : State) (f : Nat) : List Nat → State
  | [] => s
  | d :: ds => closeAll Γ env (fileClose Γ (directClose Γ (env.of d) s f d) d) f ds

/-- `do_decompress` opens every descriptor of the file again, on the temporary file. -/
def reopenAll (env : Env) (s : State) (temp : Nat) : List Nat → State
  | [] => s
  | d :: ds =>
    reopenAll env (s.modDesc d (fun desc => { desc with fd := if (env.of d).ok .reopen then some ⟨temp, 0⟩ else none })) temp ds

/-- Acknowledge a cancellation: clear the bit and wake whoever waits. -/
def acknowledgeCancel (file : FileT) : FileT :=
  if file.status.cancel then { file with status := { file.status with cancel := false }, cond := file.cond + 1 } else file

/-- The last part of `do_decompress`: the temporary file, now complete, takes the place of the file. -/
def doDecompressInstall (env : Env) (s : State) (f temp : Nat) (st : Attr) (size : Nat) : State × Bool :=
  let s := reopenAll env s temp (s.files f).head
  let s := s.withFs (fun b => b.setAttr temp (copyOwnerMode env st (b.inodes temp).attr))
  if env.ok .rename = false then (s, false)
  else
    let s := s.withFs (fun b => b.setName (s.files f).filename temp)
    if env.ok .utime = false then (s, false)
    else
      let s := s.withFs (fun b => b.utime temp st)
      (s.modFile f (fun file => { file with compressor := none, size := size }), true)

/-- `do_decompress`: replace a compressed file by a raw one. False is `FALSE`. -/
def doDecompress (Γ : Config) (env : Env) (s : State) (f : Nat) : State × Bool :=
  if env.ok .statvfs = false ∨ s.fs.find (s.files f).filename = none then (s, false)
  else if !enoughSpace Γ env (s.files f).size then (s, false)
  else
    let s := flushFileCache s f
    match if env.ok .open then s.fs.inoOf (s.files f).filename else none with
    | none => (s, false)
    | some src =>
      if env.ok .readHeader = false then (s, false)
      else
        match parse Γ (s.data src) with
        | none =>
          -- not a compressed file, most likely an empty one
          (s.modFile f (fun file => { file with compressor := none, size := -1 }), true)
        | some (m, size) =>
          let s := s.modFile f (fun file => { file with compressor := some (file.compressor.getD m) })
          let m' := (s.files f).compressor.getD m
          let s := s.assert Γ (m' = m)
          let s := closeAll Γ env s f (s.files f).head
          if env.ok .fstat = false then (s, false)
          else
            let st := (s.fs.inodes src).attr
            if env.ok .mkstemp = false then (s, false)
            else
              let s := s.modFile f acknowledgeCancel
              match if env.ok .decompress then (Γ.codec m').decode ((s.data src).drop headerSize) else none with
              | none => (s, false)
              | some content =>
                if (content.length : Int) ≠ size then (s, false)
                else
                  let temp := s.fs.next
                  let s := s.withFs (fun b => b.alloc content (tempAttr Γ b))
                  doDecompressInstall env s f temp st content.length

/-- `errno` is not 0 after `do_decompress` has failed: a call that fails sets it, and so does the test of the free space. A module that
fails need not, nor does the comparison of the sizes; `errno` is then what it was. -/
def decompressErrno (Γ : Config) (env : Env) (s : State) (f : Nat) : Bool :=
  env.ok .errno || (s.fs.inoOf (s.files f).filename).isNone || !enoughSpace Γ env (s.files f).size ||
    [Call.statvfs, .open, .readHeader, .fstat, .mkstemp, .rename, .utime].any (fun c => !env.ok c)

/-- What `do_compress` keeps while the module compresses: the file, the inode it reads, the module, and the size and attributes
it sampled before. -/
structure Job where
  file : Nat
  ino : Nat
  compressor : Module
  size : Nat
  attr : Attr
  deriving DecidableEq, Repr

/-- `do_compress` up to the point where it gives the lock back, or to its end when there is nothing to compress. -/
def doCompressBegin (Γ : Config) (env : Env) (s : State) (f : Nat) : State × Option Job :=
  match if env.ok .open ∧ env.ok .fstat then s.fs.inoOf (s.files f).filename else none with
  | none => (directDelete s f, none)
  | some i =>
    let size := (s.data i).length
    if size < Γ.minFilesizeBackground then (s, none)
    else
      let s :=
        if headerSize ≤ size ∧ env.ok .readHeader then
          let r := fileReadHeader Γ (s.data i) (s.files f).compressor (s.files f).size
          s.modFile f (fun file => { file with compressor := r.1, size := r.2 })
        else s
      if headerSize ≤ size ∧ env.ok .readHeader ∧ (s.files f).compressor ≠ none then (s, none)
      else
        match chooseCompressor Γ (s.files f).filename with
        | none => (s, none)
        | some m =>
          if env.ok .mkstemp = false ∨ env.ok .writeHeader = false then (s, none)
          else
            (s.modFile f (fun file => { file with status := { file.status with compressing := true } }),
              some { file := f, ino := i, compressor := m, size := size, attr := (s.fs.inodes i).attr })

/-- `do_compress` puts the compressed file in place of the file. -/
def doCompressInstall (Γ : Config) (env : Env) (s : State) (job : Job) (got : Bytes) : State :=
  let temp := s.fs.next
  let s := s.withFs (fun b =>
    b.alloc (header job.compressor job.size ++ (Γ.codec job.compressor).pack got) (copyOwnerMode env job.attr (tempAttr Γ b)))
  let s := s.withFs (fun b => b.setName (s.files job.file).filename temp)
  let s := s.modFile job.file (fun file => { file with compressor := some job.compressor, size := job.size })
  let s := discard Γ s job.file
  if env.ok .utime then s.withFs (fun b => b.utime temp job.attr) else s

/-- `do_compress` after the lock has been taken again. `got` is what the module has read of the file, `eof` says that it has seen
its end. The second result says that the compressed file was renamed over the path. -/
def doCompressEnd (Γ : Config) (env : Env) (s : State) (job : Job) (got : Bytes) (eof : Bool) : State × Bool :=
  let f := job.file
  let cancelled := (s.files f).status.cancel
  let s := s.modFile f (fun file => { file with status := file.status.endCompressing })
  if (env.ok .compress && eof) = false ∨ got.length ≠ job.size ∨ cancelled = true then (s.modFile f acknowledgeCancel, false)
  else if env.ok .close = false then (s, false)
  else if env.ok .rename = false then (s, false)
  else (doCompressInstall Γ env s job got, true)

end FuseCompress
