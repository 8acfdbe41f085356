import FuseCompress.Effects

/-!
# What works on a file through one of its names

`do_compress` and `do_decompress` put a new inode in place of one name, whatever other names the old inode has, and each name has an
entry of its own, which remembers the module and the size of the file. Here is what a name shows, the requests that leave all names
alone but for those two functions, and the steps that call one of them or change the contents of a file.
-/

namespace FuseCompress

/-- A module is writing to an inode. -/
def State.Written (s : State) (i : Nat) : Prop := ∃ d fd, (s.descs d).fd = some fd ∧ fd.ino = i ∧ (s.descs d).writing

/-- What an entry remembers of a file with these contents is right: its module is that of the header, unless nothing is known of the
file and it is not open, and its size is that of the header, as far as it is known. -/
structure FileT.Current (Γ : Config) (data : Bytes) (file : FileT) : Prop where
  module : file.compressor = (parse Γ data).map Prod.fst ∨ file.compressor = none ∧ file.size = -1 ∧ file.head = []
  size : file.size = -1 ∨ ∀ m n, parse Γ data = some (m, n) → file.size = n

/-! ## What a name shows -/

/-- The size that `getattr` reports of a name of the inode `i`. -/
def State.reportedSize (Γ : Config) (s : State) (p : Filename) (i : Nat) : Int :=
  match (findFile s p).filter (fun f => (s.files f).size ≠ -1) with
  | some f => if (s.files f).compressor = none then ((s.data i).length : Int) else (s.files f).size
  | none => ((parse Γ (s.data i)).map Prod.snd).getD ((s.data i).length : Int)

/-- The module that a name of the inode `i` is read with: that of its entry while it is open, and otherwise that of the header, which
`fusecompress_open` reads. -/
def State.readModule (Γ : Config) (s : State) (p : Filename) (i : Nat) : Option Module :=
  match (findFile s p).filter (fun f => (s.files f).head ≠ []) with
  | some f => (s.files f).compressor
  | none => (parse Γ (s.data i)).map Prod.fst

/-- What a name shows: the size that is reported of it and the bytes that it is read as. -/
def State.shown (Γ : Config) (s : State) (p : Filename) : Option (Int × Option Bytes) :=
  (s.fs.inoOf p).map (fun i => (s.reportedSize Γ p i,
    match s.readModule Γ p i with
    | none => some (s.data i)
    | some m => (Γ.codec m).decode ((s.data i).drop headerSize)))

/-! ## Requests that leave the names alone -/

/-- A request that reads, writes, cuts, opens or closes a file, or purges the database. -/
def Request.inPlace : Request → Bool
  | .getattr _ => true
  | .truncate _ _ => true
  | .open _ _ => true
  | .desc _ _ => true
  | .purge => true
  | .sigterm => true
  | _ => false

/-- The caller leaves the names alone but for `do_decompress`. -/
def Caller.inPlace : Caller → Bool
  | .getattr _ _ => true
  | .truncate _ _ => true
  | .open _ _ => true
  | _ => false

/-- A place in a request that leaves the names alone but for `do_decompress`. -/
def Pc.inPlace : Pc → Bool
  | .idle _ => true
  | .getattrStat _ => true
  | .purgeStart _ => true
  | .opening k => k.inPlace
  | .purging _ k _ => k.all Caller.inPlace
  | .waiting k _ _ => k.inPlace
  | .fetched _ _ _ => true
  | .preading _ _ _ _ _ _ _ => true
  | .preaded _ _ _ _ => true
  | .pwriting _ _ _ _ _ => true
  | .pwrote _ _ _ => true
  | _ => false

/-- What `getattr` has found at a path. -/
def Caller.looked : Caller → Option (Filename × Stat)
  | .getattr full st => some (full, st)
  | _ => none

/-- What a thread in `getattr` has found at the path, before it comes to the entry. -/
def Pc.looked : Pc → Option (Filename × Stat)
  | .opening k => k.looked
  | .purging _ (some k) _ => k.looked
  | .waiting k _ _ => k.looked
  | _ => none

/-! ## Steps that call `do_decompress` -/

/-- `direct_decompress` calls `do_decompress`. -/
def readDecompresses (Γ : Config) (s : State) (f d size offset : Nat) : Bool :=
  let s := s.assert Γ (s.descs d).fd.isSome
  let cacheThis := Γ.cacheDecompressedData && offset % pageSize = 0 && size % pageSize = 0
  let s := s.modFile f (fun file => { file with type := if file.type = .unset then .read else file.type })
  let r := serveCache s f cacheThis size offset
  !(r.2.2 && size - r.2.1.length = 0) &&
    readFallback Γ (r.1.files f) r.1.decompCacheSize cacheThis (r.1.descs d).offset (offset + r.2.1.length)

/-- `direct_compress` calls `do_decompress`. -/
def writeDecompresses (Γ : Config) (s : State) (f d offset : Nat) : Bool :=
  let s := s.assert Γ ((s.descs d).fd.isSome && !Γ.readOnly)
  let s := flushFileCache s f
  let s := s.modFile f (fun file => { file with type := if file.type = .unset then .write else file.type })
  writeFallback (s.files f) (s.descs d).offset offset

/-- A request on a descriptor calls `do_decompress`. -/
def descDecompresses (Γ : Config) (s : State) (d f : Nat) : DescOp → Bool
  | .read size offset => (s.files f).compressor.isSome && readDecompresses Γ s f d size offset
  | .write _ offset =>
    let s := writeChoose Γ (discard Γ s f) f offset
    (s.files f).compressor.isSome && writeDecompresses Γ s f d offset
  | .release => false

/-- `fusecompress_truncate` calls `do_decompress`. -/
def callerDecompresses (Γ : Config) (s : State) (f : Nat) : Caller → Bool
  | .truncate _ size => decide (size > 0) && ((discard Γ s f).files f).compressor.isSome
  | _ => false

/-- `direct_open` does not wait, and the caller calls `do_decompress`. -/
def waitDecompresses (Γ : Config) (s : State) (f : Nat) (k : Caller) : Bool :=
  !(k.stabile && (s.files f).status.busy) && callerDecompresses Γ s f k

/-- The entry that a step of a thread gives to `do_decompress`. An entry that is new has no module. -/
def clientDecompresses (Γ : Config) (s : State) : Pc → Option Nat
  | .opening k => (findFile s k.filename).filter (fun f => waitDecompresses Γ (directOpenFound s f) f k)
  | .waiting k f _ => if waitDecompresses Γ s f k then some f else none
  | .fetched d op f => if descDecompresses Γ s d f op then some f else none
  | _ => none

/-! ## Steps that change the contents of a file -/

/-- A file without a header has none afterwards. -/
def StaysRaw (Γ : Config) (data data' : Bytes) : Prop := parse Γ data = none ∧ parse Γ data' = none

/-- `fusecompress_write` leaves the entry without a module. -/
def writesRaw (Γ : Config) (file : FileT) (offset : Nat) : Bool :=
  file.compressor.isNone && (!mayChoose file offset || (chooseCompressor Γ file.filename).isNone)

/-- What the caller cuts, and to how many bytes. -/
def Caller.cut : Caller → Option (Filename × Nat)
  | .truncate full size => some (full, size)
  | _ => none

/-- The entry with which a step of a thread comes to `fusecompress_truncate`, the file and its new size. -/
def clientCuts (s : State) : Pc → Option (Nat × Filename × Nat)
  | .opening k =>
    match findFile s k.filename with
    | some f => if k.stabile && (s.files f).status.busy then none else k.cut.map (fun c => (f, c))
    | none => if s.entries > maxDatabaseLen + s.compEntries then none else k.cut.map (fun c => (s.nextFile, c))
  | .purging [] (some k) _ => k.cut.map (fun c => (s.nextFile, c))
  | .waiting k f _ => if k.stabile && (s.files f).status.busy then none else k.cut.map (fun c => (f, c))
  | _ => none

section System

variable {T : Type} [DecidableEq T]

/-- The kernel asks only for what leaves the names alone. -/
def Label.inPlace : Label T → Bool
  | .request _ r => r.inPlace
  | _ => true

/-- The entry is in the database and has one of two names. -/
def State.Names (a b : Filename) (s : State) (f : Nat) : Prop :=
  f ∈ s.database ∧ ((s.files f).filename = a ∨ (s.files f).filename = b)

/-- What holds when a thread is about to call `link(2)`. The file is one that there is. Nothing that is under way takes a name away, the
background thread is not compressing the file of either name, no module is writing to the file, and what the entries of the two names
remember, and what a `getattr` has found, is right. -/
structure Sys.LinkReady (Γ : Config) (a b : Filename) (t : T) (sys : Sys T) : Prop where
  linking : sys.clients t = .linking a b
  made : ∀ i, sys.shared.fs.inoOf a = some i → i < sys.shared.fs.next
  inPlace : ∀ u, u ≠ t → (sys.clients u).inPlace = true
  apart : ∀ job got eof, sys.worker = .compressing job got eof →
    (sys.shared.files job.file).filename ≠ a ∧ (sys.shared.files job.file).filename ≠ b
  unwritten : ∀ i, sys.shared.fs.inoOf a = some i → ¬sys.shared.Written i
  current : ∀ i f, sys.shared.fs.inoOf a = some i → sys.shared.Names a b f → (sys.shared.files f).Current Γ (sys.shared.data i)
  looked : ∀ i u q st, sys.shared.fs.inoOf a = some i → (sys.clients u).looked = some (q, st) → q = a ∨ q = b →
    parse Γ (sys.shared.data i) ≠ none → headerSize ≤ asU64 st.size
  length : ∀ i, sys.shared.fs.inoOf a = some i → (sys.shared.data i).length < 2 ^ 64

/-- The condition on a step, for two linked names `a` and `b`: while their inode has another link, `do_decompress` is not called
through one of them for a compressed file, and neither does the background thread call `do_compress` for one that is raw, or whose
header cannot be read. A write through an entry of one of the names, or to their inode, chooses and uses no module, and one to their
inode leaves a file without a header without one. So does a truncation, unless it cuts the file to nothing while no other entry of
the two names has a module. -/
structure Sys.Unlinked (Γ : Config) (a b : Filename) (sys : Sys T) (l : Label T) : Prop where
  decompress : ∀ t env f i, l = .client t env → clientDecompresses Γ sys.shared (sys.clients t) = some f →
    (sys.shared.files f).filename = a ∨ (sys.shared.files f).filename = b →
    sys.shared.fs.inoOf (sys.shared.files f).filename = some i → parse Γ (sys.shared.data i) ≠ none → sys.shared.fs.nlink i < 2
  compress : ∀ env f i, l = .worker env → sys.worker = .dequeued f false → compressNow Γ (sys.shared.files f) = true →
    (sys.shared.files f).filename = a ∨ (sys.shared.files f).filename = b →
    sys.shared.fs.inoOf (sys.shared.files f).filename = some i → Γ.minFilesizeBackground ≤ (sys.shared.data i).length →
    parse Γ (sys.shared.data i) = none ∨ env.ok .readHeader = false → sys.shared.fs.nlink i < 2
  write : ∀ t env d buf offset f, l = .client t env → sys.clients t = .fetched d (.write buf offset) f →
    sys.shared.Names a b f ∨ (∃ fd, (sys.shared.descs d).fd = some fd ∧ sys.shared.fs.inoOf a = some fd.ino) →
    writesRaw Γ (sys.shared.files f) offset = true
  pwrite : ∀ t env d f fd buf offset, l = .client t env → sys.clients t = .pwriting d f (some fd) buf offset →
    sys.shared.fs.inoOf a = some fd.ino → env.ok .pwrite = true → buf ≠ [] →
    StaysRaw Γ (sys.shared.data fd.ino) (Bytes.overwrite (sys.shared.data fd.ino) offset buf)
  cut : ∀ t env f full size i, l = .client t env → clientCuts sys.shared (sys.clients t) = some (f, full, size) →
    sys.shared.fs.inoOf full = some i → sys.shared.fs.inoOf a = some i →
    StaysRaw Γ (sys.shared.data i) (Bytes.resize (sys.shared.data i) size) ∨
      size = 0 ∧ env.ok .openTruncate = true ∧ env.ok .ftruncate = true ∧
        ∀ g, g ≠ f → sys.shared.Names a b g → (sys.shared.files g).compressor = none

end System

end FuseCompress
