import FuseCompress.Fsck
import FuseCompress.HardlinkFile

/-!
# The checker when it rebuilds the dedup table

`fsck.fusecompress -r`: `checkfile` called for one file after the other, with the hashing. It gets the digest of a file on three ways:
a compressed file is hashed while it is checked, any other by `dedup_hash_file`, and where this gives up early `md5` holds what was
on the stack. With the digest it calls `hardlink_file` (`-l`) or `dedup_add`. With `-d` it removes what it cannot read.

The streams of the modules are the parameter `opens`, what they deliver when nothing fails; a call that fails cuts them short. That
`file_open` changes the mode of a file it may not open, and changes it back, is left out.
-/

namespace FuseCompress

/-- The options: `-d` and `-l`. `-r` is given. -/
structure RebuildOptions where
  unlinkEnabled : Bool
  dedupNow : Bool
  deriving DecidableEq, Repr

/-- The outcome of the calls that read a compressed file: the reading of its header, the opening of the module, and where a `read`
fails, if one does. -/
structure StreamCalls where
  readHeader : Bool
  openDecomp : Bool
  cut : Option Nat
  deriving DecidableEq, Repr

/-- The outcome of the calls of one `dedup_hash_file`. -/
structure HashCalls where
  opened : Bool
  readMagic : Bool
  stream : StreamCalls
  reads : (content : Bytes) → Chunks content

/-- A file `checkfile` is called for, and the outcome of everything that one call does not decide. `compr`, `size` and `md5` are what
its variables hold at the start, which is what the call before has left on the stack. -/
structure Visit where
  name : Filename
  opened : Bool
  readMagic : Bool
  stream : StreamCalls
  closed : Bool
  hash : HashCalls
  unlinked : Bool
  link : LinkCalls
  compr : Pointer
  size : Int
  md5 : List UInt8

/-- `compressor->open`. -/
def StreamCalls.open (sc : StreamCalls) (opens : Readers) (m : Module) (stream : Bytes) : Option Reader :=
  if sc.openDecomp then
    (opens m stream).map (fun rd =>
      match sc.cut with
      | none => rd
      | some n => { rest := rd.rest.take n, sound := false })
  else none

/-! ## `dedup_hash_file` -/

/-- The loop of `dedup_hash_file` over a stream: what it has hashed, and whether it has failed. -/
def hashLoop (rd : Reader) (mh : Bytes) : Bytes × Bool :=
  match _h : rd.read pageSize with
  | none => (mh, true)
  | some (buf, rd') => if buf = [] then (mh, false) else hashLoop rd' (mh ++ buf)
termination_by rd.rest.length
decreasing_by
  obtain ⟨hrest, -, -⟩ := Reader.length_read _h
  rename_i hbuf
  have := List.length_pos_iff.mpr hbuf
  rw [hrest, List.length_append]
  omega

/-- `dedup_hash_file` on a file with contents `b`: what `md5` holds afterwards, and whether it has failed. Nothing is a call through a
pointer that is NULL or was never set. -/
def HashCalls.dedupHashFile (hc : HashCalls) (Γ : Config) (opens : Readers) (b : Bytes) (md5 : List UInt8) :
    Option (List UInt8 × Bool) :=
  if hc.opened = false then some (md5, true)
  else
    match hashStart Γ hc.readMagic hc.stream.readHeader b with
    | .raw => some (Γ.md5 (hc.reads b).chunks.flatten, (hc.reads b).failed)
    | .failed => some (md5, true)
    | .crash => none
    | .packed m =>
      match hc.stream.open opens m (b.drop headerSize) with
      | none => some (md5, true)
      | some rd => let r := hashLoop rd []; some (Γ.md5 r.1, r.2)

/-! ## `checkfile` -/

/-- The loop of `checkfile`, and what has been hashed at its end. -/
def rebuildLoop (rd : Reader) (size : Int) (mh : Bytes) : Verdict × Bytes :=
  if size = 0 then (.fine, mh)
  else if checkRequest size > bufsize then (.overrun (checkRequest size), mh)
  else
    match _h : rd.read (checkRequest size) with
    | none => (.error .failReadDecomp, mh)
    | some (buf, rd') => if buf = [] then (.error .shortReadDecomp, mh) else rebuildLoop rd' (size - buf.length) (mh ++ buf)
termination_by rd.rest.length
decreasing_by
  obtain ⟨hrest, -, -⟩ := Reader.length_read _h
  rename_i hbuf
  have := List.length_pos_iff.mpr hbuf
  rw [hrest, List.length_append]
  omega

/-- How far a call of `checkfile` gets: it comes to the table with what `md5` holds, returns before that, returns from a `fix` that
calls `do_unlink`, or brings the process down. -/
inductive Checked where
  | digest (md5 : List UInt8)
  | kept
  | broken
  | gone
  deriving DecidableEq, Repr

/-- The names of temporary files. -/
def isStaleTemp (p : Filename) : Bool := tempName.isPrefixOf (basename p) || fuseHidden.isPrefixOf (basename p)

/-- The part of `checkfile` for a file with the magic bytes. A file too short for a header is taken for one of the module and the size
of the file before. -/
def Visit.checkCompressed (v : Visit) (Γ : Config) (opens : Readers) (b : Bytes) : Checked :=
  if v.stream.readHeader = false then .broken
  else
    match checkHeader Γ b v.compr v.size with
    | (.to m, size) =>
      match v.stream.open opens m (b.drop headerSize) with
      | none => .kept
      | some rd =>
        match rebuildLoop rd size [] with
        | (.fine, mh) => if v.closed then .digest (Γ.md5 mh) else .kept
        | (.error _, _) => .broken
        | _ => .gone
    | _ => .gone

/-- `checkfile` on a regular file with contents `b`, up to the table. The result of `dedup_hash_file` is not looked at. -/
def Visit.checkfile (v : Visit) (Γ : Config) (opens : Readers) (b : Bytes) : Checked :=
  if v.opened = false then .kept
  else if isStaleTemp v.name then .broken
  else if fusecompressPrefix.isPrefixOf (basename v.name) then .kept
  else if v.readMagic = false then .kept
  else if b.take 3 = magic then v.checkCompressed Γ opens b
  else
    match v.hash.dedupHashFile Γ opens b v.md5 with
    | none => .gone
    | some (md5, _) => .digest md5

/-! ## The whole directory -/

/-- The dedup table and the backing directory. -/
structure Rebuilt where
  table : DedupHash
  fs : Backing

/-- The end of `checkfile`: the file goes into the table, or is linked to a file that is there. -/
def Rebuilt.record (P : Process) (o : RebuildOptions) (s : Rebuilt) (v : Visit) (md5 : List UInt8) : Rebuilt :=
  if o.dedupNow then
    let r := P.hardlinkFile v.link s.table s.fs md5 v.name
    { table := r.1, fs := r.2.1 }
  else if s.table.findMd5 md5 = none then { s with table := s.table.add md5 v.name }
  else s

/-- `checkfile` is called for one file. Nothing is the end of the process. -/
def Rebuilt.step (Γ : Config) (opens : Readers) (P : Process) (o : RebuildOptions) (s : Rebuilt) (v : Visit) : Option Rebuilt :=
  match s.fs.inoOf v.name with
  | none => some s
  | some i =>
    match v.checkfile Γ opens (s.fs.inodes i).data with
    | .digest md5 => some (s.record P o v md5)
    | .kept => some s
    | .broken => some { s with fs := s.fs.unlinkIf (o.unlinkEnabled && v.unlinked) v.name }
    | .gone => none

/-- The start: `dedup_init_db` on a backing directory whose file of the table has been removed. -/
def Rebuilt.start (b : Backing) : Rebuilt := { table := dedupInitDb, fs := b.unlinkIf true (fusecompressPrefix ++ "dedup_db".toList) }

end FuseCompress
