import FuseCompress.Modules

/-!
# Writing with an encoder that may fail

`fusecompress_write` at the end of a fresh compressed file, on the only descriptor, and the closing of the descriptor, in more detail
than `directCompress`: the module is an encoder with a state of its own, and the descriptor and the module write at one and the same
position of the file, since the module has a duplicate of the descriptor. Every call can fail, and every `write` can be short. Only
the closing meets no failure.
-/

namespace FuseCompress

/-- A module that writes a stream: `write` with what it sends to the file and what it returns, and `close` with what it sends then. A
fault says which of the writes that the module makes fail, and how. `Decodes` is what the module reads of a stream. -/
structure Encoder where
  State : Type
  Fault : Type
  fine : Fault
  opened : State
  write : Fault → Bytes → State → State × Bytes × Int
  close : State → Bytes
  Decodes : Bytes → Bytes → Prop

/-- Several writes without a fault, with all that they send. -/
def Encoder.writes (E : Encoder) : List Bytes → E.State → E.State × Bytes
  | [], σ => (σ, [])
  | buf :: chunks, σ =>
    let r := E.write E.fine buf σ
    let r' := E.writes chunks r.1
    (r'.1, r.2.1 ++ r'.2)

/-- What is written without a fault and closed is what is read. -/
def Encoder.Exact (E : Encoder) : Prop :=
  ∀ chunks, E.Decodes ((E.writes chunks E.opened).2 ++ E.close (E.writes chunks E.opened).1) chunks.flatten

/-! ## `null` and `lzo` -/

/-- `null`. -/
def Encoder.null : Encoder where
  State := Unit
  Fault := Written
  fine := .full
  opened := ()
  write := fun w buf _ => ((), buf.take (w.count buf.length), w.result buf.length)
  close := fun _ => []
  Decodes := fun stream content => stream = content

/-- `lzowrite`. The file is the stream alone, as it would be if nobody else wrote; what is sent is what is new in it. -/
def lzoWriteOn (Λ : LzoEnv) (ws : Nat → Written) (buf : Bytes) (file : LzoFile) : LzoFile × Bytes × Int :=
  let r := lzowriteOn Λ ws ⟨file, 0⟩ buf
  (r.1.file, r.1.file.data.drop file.data.length, if r.2 then buf.length else -1)

/-- `lzoclose`. -/
def lzoCloseOn (Λ : LzoEnv) (file : LzoFile) : Bytes :=
  (lzowriteblockOn Λ (fun _ => .full) ⟨file, 0⟩).1.file.data.drop file.data.length

/-- `lzo`. -/
def Encoder.lzo (Λ : LzoEnv) : Encoder where
  State := LzoFile
  Fault := Nat → Written
  fine := fun _ => .full
  opened := lzodopen [] 0 .write
  write := lzoWriteOn Λ
  close := lzoCloseOn Λ
  Decodes := fun stream content => ∃ turns, lzoDeliver Λ.lib turns (lzodopen stream 0 .read) = some ⟨content, true⟩

/-! ## One descriptor -/

/-- An open file and its position. -/
structure OpenFile where
  data : Bytes
  pos : Nat
  deriving DecidableEq, Repr

/-- What a `write` does to it. -/
def OpenFile.put (file : OpenFile) (buf : Bytes) : OpenFile :=
  { data := Bytes.overwrite file.data file.pos buf, pos := file.pos + buf.length }

/-- `lseek` to the start and `file_write_header`. -/
def OpenFile.putHeader (file : OpenFile) (w : Written) (m : Module) (size : Int) : OpenFile :=
  { file with pos := 0 }.put ((header m size).take (w.count headerSize))

/-- `lseek` to the end. -/
def OpenFile.seekEnd (file : OpenFile) : OpenFile := { file with pos := file.data.length }

variable {E : Encoder}

/-- A request that appends, with the outcomes of the calls it makes: `lseek`, the first header and the opening of the module, its
write, `lseek`, the header, and `lseek`. -/
structure WriteCall (E : Encoder) where
  buf : Bytes
  seekStart : Bool
  writeHeader : Written
  opened : Bool
  fault : E.Fault
  seekHeader : Bool
  updateHeader : Written
  seekEnd : Bool

/-- The file, the descriptor and `file->size`. `acked` are the bytes that have been acknowledged. -/
structure WriteState (E : Encoder) where
  file : OpenFile
  handle : Option E.State
  offset : Int
  size : Int
  acked : Bytes

namespace WriteState

/-- A fresh file that has just been opened. -/
def fresh (E : Encoder) : WriteState E := { file := ⟨[], 0⟩, handle := none, offset := 0, size := 0, acked := [] }

/-- `direct_compress` opens the module behind a first header. False when one of the calls fails. -/
def openStream (m : Module) (s : WriteState E) (c : WriteCall E) : WriteState E × Bool :=
  if s.handle.isSome then (s, true)
  else if c.seekStart = false then (s, false)
  else
    let s := { s with file := s.file.putHeader c.writeHeader m s.size }
    if c.writeHeader = .fail then (s, false)
    else if c.opened = false then (s, false)
    else ({ s with handle := some E.opened }, true)

/-- `direct_compress` brings the header up to date. The result is that of the request. -/
def updateHeader (m : Module) (s : WriteState E) (c : WriteCall E) (len : Int) : WriteState E × Int :=
  if c.seekHeader = false then (s, -1)
  else
    let s := { s with file := s.file.putHeader c.updateHeader m s.size }
    if c.updateHeader = .fail then (s, -1)
    else if c.seekEnd = false then (s, -1)
    else ({ s with file := s.file.seekEnd }, len)

/-- `direct_compress` hands the buffer to the module. -/
def compressWrite (m : Module) (s : WriteState E) (c : WriteCall E) : WriteState E × Int :=
  match s.handle with
  | none => (s, -1)
  | some σ =>
    let r := E.write c.fault c.buf σ
    let s := { s with handle := some r.1, file := s.file.put r.2.1 }
    if r.2.2 = -1 then (s, -1)
    else updateHeader m { s with offset := s.offset + r.2.2, size := s.offset + r.2.2 } c r.2.2

/-- `direct_compress`, for a file whose module is `m`. Nothing when it falls back on `do_decompress`. -/
def directCompress (m : Module) (s : WriteState E) (c : WriteCall E) (offset : Int) : Option (WriteState E × Int) :=
  if s.offset ≠ s.size ∨ s.offset ≠ offset then none
  else
    match s.openStream m c with
    | (s, false) => some (s, -1)
    | (s, true) => some (s.compressWrite m c)

/-- `fusecompress_write` at the end of the file. -/
def append (m : Module) (s : WriteState E) (c : WriteCall E) : Option (WriteState E) :=
  (s.directCompress m c s.acked.length).map (fun r =>
    if r.2 = -1 then { r.1 with size := -1 } else { r.1 with acked := s.acked ++ c.buf.take r.2.toNat })

/-- `direct_close`: what the file holds then. -/
def close (s : WriteState E) : Bytes :=
  match s.handle with
  | none => s.file.data
  | some σ => (s.file.put (E.close σ)).data

end WriteState

end FuseCompress
