import FuseCompress.Minilzo
import FuseCompress.Compress

/-!
# The compression modules on a disk that may fail

The functions `compress` of `compress_null.c`, `compress_lzo.c`, `compress_gz.c`, `compress_bz2.c` and `compress_lzma.c`, with the
part of `minilzo/lzo.c` that writes. Every `read` and `write` they make can be full, short or fail. All five read the source in
chunks and differ in what they do with a chunk, in which results they look at, and in what they do at the end.

The libraries zlib, bzip2 and liblzma are parameters. The first two make their own `write` calls: what they report is the result
of each call and, on close, whether what they still held has been written.
-/

namespace FuseCompress

/-! ## System calls -/

/-- What one `write` does: it writes all, fewer bytes than it was given, or nothing with the result `-1`. -/
inductive Written where
  | full
  | short (n : Nat)
  | fail
  deriving DecidableEq, Repr

/-- The number of bytes that reach the file, of `len`. -/
def Written.count : Written → Nat → Nat
  | .full, len => len
  | .short n, len => min n (len - 1)
  | .fail, _ => 0

/-- What `write` returns. -/
def Written.result : Written → Nat → Int
  | .fail, _ => -1
  | w, len => w.count len

/-- A file that is being written behind its header: the bytes so far and the number of calls made. -/
structure Sink where
  data : Bytes
  calls : Nat
  deriving DecidableEq, Repr

/-- `write`. -/
def Sink.write (ws : Nat → Written) (sink : Sink) (buf : Bytes) : Sink × Int :=
  ({ data := sink.data ++ buf.take ((ws sink.calls).count buf.length), calls := sink.calls + 1 },
    (ws sink.calls).result buf.length)

/-- `BUF_SIZE` of the modules. -/
def moduleBufSize : Nat := 4096

/-- What the `read` calls of one loop deliver of a file: chunk after chunk until the end of the file or a call that fails. -/
structure Chunks (content : Bytes) where
  chunks : List Bytes
  failed : Bool
  chunk : ∀ c ∈ chunks, c ≠ [] ∧ c.length ≤ moduleBufSize
  start : chunks.flatten <+: content
  all : failed = false → chunks.flatten = content

/-- The outcome of everything one `compress` does not decide: its `write` calls, `dup`, the opening of the stream, and whether the
compression is cancelled after a chunk (`compress_testcancel`). -/
structure Outcomes where
  writes : Nat → Written
  dup : Bool
  opened : Bool
  cancels : Nat → Bool

/-- A stream opened for reading: the bytes that are still to come, and whether the end of the stream is behind them. A request that
goes past the bytes of a damaged stream fails. A stream cut short either ends early or is damaged there, as the module has it. -/
structure Reader where
  rest : Bytes
  sound : Bool
  deriving DecidableEq, Repr

/-! ## The loop -/

/-- The loop of `compress`. `feed` is what a module does with a chunk; false makes it return `FAIL`. The second result is the
number of bytes read. -/
def compressLoop {σ : Type} (feed : σ → Bytes → σ × Bool) (cancels : Nat → Bool) (failed : Bool) :
    Nat → Nat → σ → List Bytes → σ × Option Nat
  | _, size, s, [] => (s, if failed then none else some size)
  | n, size, s, c :: cs =>
    match feed s c with
    | (s, false) => (s, none)
    | (s, true) =>
      if cancels n then (s, some (size + c.length)) else compressLoop feed cancels failed (n + 1) (size + c.length) s cs

/-- An `off_t`: `FAIL` is `-1`. -/
def offT : Option Nat → Int
  | none => -1
  | some n => n

/-! ## `null` -/

/-- `nullCompress` looks at the result of `write` as an unsigned number. -/
def nullFeed (ws : Nat → Written) (sink : Sink) (c : Bytes) : Sink × Bool :=
  let r := sink.write ws c
  (r.1, decide (r.2 ≠ 0))

/-- `nullCompress`: what it returns and the bytes it has written. -/
def nullCompress (oc : Outcomes) {content : Bytes} (src : Chunks content) : Int × Bytes :=
  let r := compressLoop (nullFeed oc.writes) oc.cancels src.failed 0 0 ⟨[], 0⟩ src.chunks
  (offT r.2, r.1.data)

/-! ## `lzo` -/

/-- An `lzoFile` and the number of `write` calls made on it. -/
structure LzoSink where
  file : LzoFile
  calls : Nat
  deriving DecidableEq, Repr

/-- `write`. False is a result other than the length. -/
def LzoSink.put (ws : Nat → Written) (sink : LzoSink) (buf : Bytes) : LzoSink × Bool :=
  ({ file := sink.file.put (buf.take ((ws sink.calls).count buf.length)), calls := sink.calls + 1 },
    decide ((ws sink.calls).result buf.length = buf.length))

/-- `_lzowriteblock`. False is `-1`. -/
def lzowriteblockOn' (ws : Nat → Written) (sink : LzoSink) (block : LzoBlock) : LzoSink × Bool :=
  match sink.put ws (LzoHead.bytes { usize := block.usize, psize := block.psize }) with
  | (sink, false) => (sink, false)
  | (sink, true) => sink.put ws ((block.buf.getD []).take block.psize)

/-- `lzowriteblock`. -/
def lzowriteblockOn (Λ : LzoEnv) (ws : Nat → Written) (sink : LzoSink) : LzoSink × Bool :=
  let w := if Λ.dedupEnabled then Λ.lib.zeroed else Λ.wrkmem sink.file.calls
  let sink := { sink with file := { sink.file with calls := sink.file.calls + 1 } }
  match blockOut Λ.lib w ((sink.file.block.buf.getD []).take sink.file.block.psize) with
  | none => (sink, false)
  | some block => lzowriteblockOn' ws sink block

/-- `lzowrite` empties its buffer when it is full. A block that could not be written stays in the buffer. -/
def lzoflushOn (Λ : LzoEnv) (ws : Nat → Written) (sink : LzoSink) : LzoSink × Bool :=
  if sink.file.blockoff < sink.file.block.usize then (sink, true)
  else
    match lzowriteblockOn Λ ws sink with
    | (sink, false) => (sink, false)
    | (sink, true) =>
      ({ sink with file := { sink.file with blockoff := 0, block := { sink.file.block with psize := 0 } } }, true)

/-- `lzowrite`. False is `-1`: the bytes that are left are gone. -/
def lzowriteOn (Λ : LzoEnv) (ws : Nat → Written) (sink : LzoSink) : Bytes → LzoSink × Bool
  | [] => (sink, true)
  | x :: buf =>
    match lzoflushOn Λ ws sink with
    | (sink, false) => (sink, false)
    | (sink, true) => lzowriteOn Λ ws { sink with file := lzostore sink.file x } buf

/-- `lzoCompress` looks at the result of `lzowrite` as an unsigned number, and a chunk is not empty: it never sees an error. -/
def lzoFeed (Λ : LzoEnv) (ws : Nat → Written) (sink : LzoSink) (c : Bytes) : LzoSink × Bool :=
  let r := lzowriteOn Λ ws sink c
  let wr : Int := if r.2 then c.length else -1
  (r.1, decide (wr ≠ 0))

/-- `lzoCompress` up to `lzoClose`. -/
def lzoRun (Λ : LzoEnv) (oc : Outcomes) {content : Bytes} (src : Chunks content) : LzoSink × Option Nat :=
  compressLoop (lzoFeed Λ oc.writes) oc.cancels src.failed 0 0 ⟨lzodopen [] 0 .write, 0⟩ src.chunks

/-- `lzoClose` at the end of `lzoCompress`, which does not look at its result. -/
def lzoFinish (Λ : LzoEnv) (oc : Outcomes) {content : Bytes} (src : Chunks content) : LzoSink :=
  (lzowriteblockOn Λ oc.writes (lzoRun Λ oc src).1).1

/-- `lzoCompress`. -/
def lzoCompress (Λ : LzoEnv) (oc : Outcomes) {content : Bytes} (src : Chunks content) : Int × Bytes :=
  if !oc.dup || !oc.opened then (-1, []) else (offT (lzoRun Λ oc src).2, (lzoFinish Λ oc src).file.data)

/-- What `lzoread` delivers to the loop of `lzoDecompress`, in at most so many turns. -/
def lzoDeliver (lib : Lzo1x) : Nat → LzoFile → Option Reader
  | 0, _ => none
  | turns + 1, file =>
    match lzoread lib file moduleBufSize with
    | (_, none) => some ⟨[], false⟩
    | (file, some buf) =>
      if buf = [] then some ⟨[], true⟩ else (lzoDeliver lib turns file).map (fun rd => { rd with rest := buf ++ rd.rest })

/-! ## `gz` and `bz2` -/

/-- A library that writes a stream on its own: `write` with its result, and `close`, with the bytes that are in the file then and
whether all that was still held has been written. `deliver` is what it reads of a stream. -/
structure StreamLib where
  Stream : Type
  opened : Stream
  write : Stream → Bytes → Stream × Int
  close : Stream → Bytes × Bool
  deliver : Bytes → Reader

/-- Every one of some writes takes all it is given. -/
def StreamLib.Accepts (lib : StreamLib) : lib.Stream → List Bytes → Prop
  | _, [] => True
  | s, c :: cs => (lib.write s c).2 = c.length ∧ lib.Accepts (lib.write s c).1 cs

/-- The stream after some writes. -/
def StreamLib.writes (lib : StreamLib) : lib.Stream → List Bytes → lib.Stream
  | s, [] => s
  | s, c :: cs => lib.writes (lib.write s c).1 cs

/-- What the documentation of the library promises: a stream all of whose writes were taken, and which was closed without an
error, decodes to what was written. -/
def StreamLib.Correct (lib : StreamLib) : Prop :=
  ∀ chunks, lib.Accepts lib.opened chunks → (lib.close (lib.writes lib.opened chunks)).2 = true →
    lib.deliver (lib.close (lib.writes lib.opened chunks)).1 = ⟨chunks.flatten, true⟩

/-- `gzCompress` and `bz2Compress` only test whether the result is `-1`. -/
def streamFeed (lib : StreamLib) (s : lib.Stream) (c : Bytes) : lib.Stream × Bool :=
  let r := lib.write s c
  (r.1, decide (r.2 ≠ -1))

/-- The body of `gzCompress` and `bz2Compress`. -/
def streamCompress (lib : StreamLib) (oc : Outcomes) {content : Bytes} (src : Chunks content) : Int × Bytes :=
  if !oc.dup || !oc.opened then (-1, [])
  else
    let r := compressLoop (streamFeed lib) oc.cancels src.failed 0 0 lib.opened src.chunks
    (offT r.2, (lib.close r.1).1)

/-- `gzCompress`. The error `gzwrite` documents is `0`. `gzClose` reports what `gzclose` does, and nobody looks at it. -/
def gzCompress (lib : StreamLib) (oc : Outcomes) {content : Bytes} (src : Chunks content) : Int × Bytes :=
  streamCompress lib oc src

/-- `bz2Compress`. `BZ2_bzclose` reports nothing. -/
def bz2Compress (lib : StreamLib) (oc : Outcomes) {content : Bytes} (src : Chunks content) : Int × Bytes :=
  streamCompress lib oc src

/-! ## `lzma` -/

/-- liblzma: the encoder turns a chunk into buffers of output, and has some left in the end. -/
structure LzmaLib where
  Stream : Type
  opened : Stream
  code : Stream → Bytes → Option (Stream × List Bytes)
  finish : Stream → Option (List Bytes)
  deliver : Bytes → Reader

/-- The encoder on several chunks. -/
def LzmaLib.codes (lib : LzmaLib) : lib.Stream → List Bytes → Option (lib.Stream × List Bytes)
  | s, [] => some (s, [])
  | s, c :: cs => (lib.code s c).bind (fun r => (lib.codes r.1 cs).map (fun r' => (r'.1, r.2 ++ r'.2)))

/-- What the documentation promises: all output together decodes to what went in. -/
def LzmaLib.Correct (lib : LzmaLib) : Prop :=
  ∀ chunks s outs tail, lib.codes lib.opened chunks = some (s, outs) → lib.finish s = some tail →
    lib.deliver (outs.flatten ++ tail.flatten) = ⟨chunks.flatten, true⟩

/-- `lzmaCompress` writes the output for a chunk and compares the results as unsigned numbers. -/
def lzmaWrites (ws : Nat → Written) (sink : Sink) : List Bytes → Sink × Bool
  | [] => (sink, true)
  | b :: bs =>
    let r := sink.write ws b
    if r.2 = -1 ∨ (b.length : Int) ≤ r.2 then lzmaWrites ws r.1 bs else (r.1, false)

/-- `lzmaCompress` on a chunk. -/
def lzmaFeed (lib : LzmaLib) (ws : Nat → Written) (s : lib.Stream × Sink) (c : Bytes) : (lib.Stream × Sink) × Bool :=
  match lib.code s.1 c with
  | none => (s, false)
  | some (stream, bufs) =>
    let r := lzmaWrites ws s.2 bufs
    ((stream, r.1), r.2)

/-- `lzmaCompress` writes the rest. When that fails it returns what `lzma_code` has returned: `LZMA_OK`, or `LZMA_STREAM_END` at
the last buffer. -/
def lzmaTail (ws : Nat → Written) (sink : Sink) : List Bytes → Sink × Option Int
  | [] => (sink, none)
  | b :: bs =>
    let r := sink.write ws b
    if r.2 < 0 then (r.1, some (if bs = [] then 1 else 0)) else lzmaTail ws r.1 bs

/-- `lzmaCompress`. -/
def lzmaCompress (lib : LzmaLib) (oc : Outcomes) {content : Bytes} (src : Chunks content) : Int × Bytes :=
  if !oc.dup || !oc.opened then (-1, [])
  else
    match compressLoop (lzmaFeed lib oc.writes) oc.cancels src.failed 0 0 (lib.opened, ⟨[], 0⟩) src.chunks with
    | (s, none) => (-1, s.2.data)
    | (s, some size) =>
      match lib.finish s.1 with
      | none => (-1, s.2.data)
      | some bufs =>
        let r := lzmaTail oc.writes s.2 bufs
        (r.2.getD size, r.1.data)

/-! ## The table of the modules -/

/-- The libraries of a build. -/
structure Libraries where
  lzo : LzoEnv
  gz : StreamLib
  bz2 : StreamLib
  lzma : LzmaLib

/-- They do what they document. -/
structure Libraries.Correct (libs : Libraries) : Prop where
  lzo : libs.lzo.lib.Correct
  gz : libs.gz.Correct
  bz2 : libs.bz2.Correct
  lzma : libs.lzma.Correct

/-- `compressor->compress`. -/
def Module.compress (libs : Libraries) (oc : Outcomes) {content : Bytes} (src : Chunks content) : Module → Int × Bytes
  | .null => nullCompress oc src
  | .bz2 => bz2Compress libs.bz2 oc src
  | .gzip => gzCompress libs.gz oc src
  | .lzo => lzoCompress libs.lzo oc src
  | .lzma => lzmaCompress libs.lzma oc src

/-- What a module reads of a stream. For `lzo`, `turns` bounds the calls. -/
def Module.deliver (libs : Libraries) (turns : Nat) (stream : Bytes) : Module → Option Reader
  | .null => some ⟨stream, true⟩
  | .bz2 => some (libs.bz2.deliver stream)
  | .gzip => some (libs.gz.deliver stream)
  | .lzo => lzoDeliver libs.lzo.lib turns (lzodopen stream 0 .read)
  | .lzma => some (libs.lzma.deliver stream)

/-- A module reads some bytes of a stream and then its end. -/
def Module.Decodes (libs : Libraries) (stream content : Bytes) (m : Module) : Prop :=
  ∃ turns, m.deliver libs turns stream = some ⟨content, true⟩

/-! ## `do_compress` -/

/-- `do_compress` renames its temporary file over the path. `stream` is what the module has written behind the header. -/
def doCompressReplace (Γ : Config) (env : Env) (s : State) (job : Job) (stream : Bytes) : State :=
  let temp := s.fs.next
  let s := s.withFs (fun b =>
    b.alloc (header job.compressor job.size ++ stream) (copyOwnerMode env job.attr (tempAttr Γ b)))
  let s := s.withFs (fun b => b.setName (s.files job.file).filename temp)
  let s := s.modFile job.file (fun file => { file with compressor := some job.compressor, size := job.size })
  let s := discard Γ s job.file
  if env.ok .utime then s.withFs (fun b => b.utime temp job.attr) else s

/-- `do_compress` after the lock has been taken again, with what `compress` has returned and written. -/
def doCompressFinish (Γ : Config) (env : Env) (s : State) (job : Job) (r : Int × Bytes) : State × Bool :=
  let f := job.file
  let cancelled := (s.files f).status.cancel
  let s := s.modFile f (fun file => { file with status := file.status.endCompressing })
  if r.1 = -1 ∨ r.1 ≠ job.size ∨ cancelled = true then (s.modFile f acknowledgeCancel, false)
  else if env.ok .close = false then (s, false)
  else if env.ok .rename = false then (s, false)
  else (doCompressReplace Γ env s job r.2, true)

/-- Where every call of the module succeeds, this is `doCompressEnd`. -/
theorem doCompressEnd_eq_finish (Γ : Config) (env : Env) (s : State) (job : Job) (got : Bytes) (eof : Bool) :
    doCompressEnd Γ env s job got eof =
      doCompressFinish Γ env s job
        (if env.ok .compress && eof then (got.length : Int) else -1, (Γ.codec job.compressor).pack got) := by
  unfold doCompressEnd doCompressFinish
  dsimp only
  cases env.ok .compress && eof with
  | false => simp
  | true =>
    have hne : ((got.length : Int) = -1) = False := by
      rw [eq_iff_iff, iff_false]
      omega
    simp only [Bool.true_eq_false, false_or, if_true, hne, Nat.cast_inj, ne_eq]
    rfl

/-- `do_compress` when nothing happens between the unlock and the lock. `reads` is what the `read` calls of the module deliver of
the file, `env` answers the calls before and `env'` those after the compression. The second result says that the temporary file was
renamed over the path. -/
def doCompressOn (Γ : Config) (libs : Libraries) (env env' : Env) (oc : Outcomes) (reads : (content : Bytes) → Chunks content)
    (s : State) (f : Nat) : State × Bool :=
  match doCompressBegin Γ env s f with
  | (s, none) => (s, false)
  | (s, some job) => doCompressFinish Γ env' s job (job.compressor.compress libs oc (reads (s.data job.ino)))

end FuseCompress
