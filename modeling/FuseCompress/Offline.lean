import FuseCompress.Modules

/-!
# The offline converter

`transform` of `tools/offline.c` on a regular file. It decompresses every file, or compresses every one with a module; with `-r` it
decompresses the files of one module before it compresses them. Every call it makes can fail, every `write` can be short, and
`compress_testcancel` never cancels.

What a path holds in the end is a list of bytes, nothing when `transform` does not return: `decomp` is NULL for a header that names
no module, and was never set for one that is cut short.
-/

namespace FuseCompress

/-! ## Decompressing -/

/-- What the calls of one loop get out of a stream. A damaged one ends with a call that fails. -/
structure Delivery (rd : Reader) extends Chunks rd.rest where
  damaged : rd.sound = false → failed = true

/-- The loop of `decompress`, the same in all modules. -/
def decompressInto (ws : Nat → Written) (failed : Bool) (size : Int) (sink : Sink) : List Bytes → Int × Bytes
  | [] => (if failed then -1 else size, sink.data)
  | c :: cs =>
    let r := sink.write ws c
    if r.2 = -1 then (-1, r.1.data) else decompressInto ws failed (size + r.2) r.1 cs

/-- `decompressor->decompress`: what it returns and the bytes it has written. -/
def Module.decompress (libs : Libraries) (turns : Nat) (oc : Outcomes) (delivers : (rd : Reader) → Delivery rd) (stream : Bytes)
    (m : Module) : Option (Int × Bytes) :=
  if m ≠ .null ∧ (oc.dup = false ∨ oc.opened = false) then some (-1, [])
  else (m.deliver libs turns stream).map (fun rd =>
    decompressInto oc.writes (delivers rd).failed 0 ⟨[], 0⟩ (delivers rd).chunks)

/-! ## `transform` -/

/-- The outcome of everything one call of `transform` does not decide. `check` is about `is_compressed`, which opens the file and
reads from it; `fstat` is about opening it once more as well. -/
structure Pass where
  check : Bool
  fstat : Bool
  temp : Bool
  seekHeader : Bool
  seekStart : Bool
  readHeader : Bool
  writeHeader : Written
  rename : Bool
  outcomes : Outcomes
  reads : (content : Bytes) → Chunks content
  delivers : (rd : Reader) → Delivery rd

/-- `compress_testcancel`. -/
def compressTestcancel : Nat → Bool := fun _ => false

/-- What the module's calls do. -/
def Pass.calls (p : Pass) : Outcomes := { p.outcomes with cancels := compressTestcancel }

/-- `is_compressed`. The type is a `char`, which has a sign. -/
def isCompressed (check : Bool) (b : Bytes) : Int :=
  if check = false then -2
  else if b.take 3 = magic then
    let type := ((b.drop 3).headD 0).toNat
    if type < 128 then type else (type : Int) - 256
  else -1

/-- The end of `transform`: the temporary file takes the place of the file unless the module has failed. -/
def Pass.replace (p : Pass) (b : Bytes) (size : Int) (temp : Bytes) : Bytes :=
  if size = -1 ∨ p.rename = false then b else temp

/-- The branch of `transform` that compresses. -/
def compressFile (libs : Libraries) (m : Module) (p : Pass) (b : Bytes) : Bytes :=
  if p.fstat = false ∨ p.temp = false ∨ p.seekHeader = false then b
  else
    let r := m.compress libs p.calls (p.reads b)
    let temp := Bytes.overwrite [] headerSize r.2
    if p.seekStart = false ∨ p.writeHeader.result headerSize < 0 then b
    else p.replace b r.1 (Bytes.overwrite temp 0 ((header m b.length).take (p.writeHeader.count headerSize)))

/-- The branch of `transform` that decompresses. -/
def decompressFile (Γ : Config) (libs : Libraries) (turns : Nat) (p : Pass) (b : Bytes) : Option Bytes :=
  if p.fstat = false ∨ p.temp = false ∨ p.readHeader = false then some b
  else (parse Γ b).bind (fun h =>
    (h.1.decompress libs turns p.calls p.delivers (b.drop headerSize)).map (fun r => p.replace b r.1 r.2))

/-- `transform` while `comp` is NULL. -/
def decompressAll (Γ : Config) (libs : Libraries) (turns : Nat) (p : Pass) (b : Bytes) : Option Bytes :=
  if isCompressed p.check b < 0 then some b else decompressFile Γ libs turns p b

/-- `transform` while `comp` is a module. `recomp` is NULL unless `-r` was given. `inner` is about the call that `transform` makes of
itself, whose result it does not look at. -/
def compressAll (Γ : Config) (libs : Libraries) (turns : Nat) (m : Module) (recomp : Option Module) (inner p : Pass)
    (name : Filename) (b : Bytes) : Option Bytes :=
  let type := isCompressed p.check b
  if isCompressible Γ name = false then some b
  else if type < -1 then some b
  else if recomp.map (fun r => (r.type : Int)) = some type then
    (decompressAll Γ libs turns inner b).map (compressFile libs m p)
  else if 0 ≤ type then some b
  else some (compressFile libs m p b)

/-- `transform`: what the path holds when it returns. -/
def transform (Γ : Config) (libs : Libraries) (turns : Nat) (comp recomp : Option Module) (inner p : Pass) (name : Filename)
    (b : Bytes) : Option Bytes :=
  if fusecompressPrefix.isPrefixOf name then some b
  else
    match comp with
    | none => decompressAll Γ libs turns p b
    | some m => compressAll Γ libs turns m recomp inner p name b

end FuseCompress
