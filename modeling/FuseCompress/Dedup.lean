import FuseCompress.Structs

/-!
# Deduplication

`dedup.c`: the table of records, replacing a file by a hard link to a file of the same digest, the private copy made when a
deduplicated file is opened for writing, and the attribute files that keep the attributes of a linked name apart from those of
the inode it shares.
-/

namespace FuseCompress

/-! ## The table -/

namespace DedupHash

/-- `list_del` of a record from both of its lists. -/
def del (h : DedupHash) (dp : DedupT) : DedupHash :=
  { h with
    headFilename := fun k => (h.headFilename k).filter (fun e => e.id ≠ dp.id)
    headMd5 := fun k => (h.headMd5 k).filter (fun e => e.id ≠ dp.id) }

/-- `list_add_tail` of a record to both of its lists. -/
def addTail (h : DedupHash) (dp : DedupT) : DedupHash :=
  { h with
    headFilename := Function.update h.headFilename (filenameBucket dp.filename)
      (h.headFilename (filenameBucket dp.filename) ++ [dp])
    headMd5 := Function.update h.headMd5 (md5ToHash dp.md5) (h.headMd5 (md5ToHash dp.md5) ++ [dp]) }

/-- `dedup_add`. -/
def add (h : DedupHash) (md5 : List UInt8) (filename : Filename) : DedupHash :=
  { h.addTail { id := h.nextId, filename := filename, md5 := md5 } with entries := h.entries + 1, nextId := h.nextId + 1 }

/-- The first record with a digest, as `hardlink_file` searches for it. -/
def findMd5 (h : DedupHash) (md5 : List UInt8) : Option DedupT := (h.headMd5 (md5ToHash md5)).find? (fun dp => dp.md5 = md5)

/-- The first record with a file name. -/
def findName (h : DedupHash) (p : Filename) : Option DedupT :=
  (h.headFilename (filenameBucket p)).find? (fun dp => gethash dp.filename = gethash p ∧ dp.filename = p)

/-- `dedup_db_has_filehash`. -/
def hasFilehash (h : DedupHash) (p : Filename) : Bool :=
  (h.headFilename (filenameBucket p)).any (fun dp => gethash dp.filename = gethash p)

end DedupHash

/-- `dedup_discard`. -/
def dedupDiscard (s : State) (f : Nat) : State :=
  if (s.files f).deduped = false then s
  else
    let s := s.modFile f (fun file => { file with deduped := false })
    match s.dedup.findName (s.files f).filename with
    | none => s
    | some dp => { s with dedup := { s.dedup.del dp with entries := s.dedup.entries - 1 } }

/-- `dedup_discard`, which is called when deduplication is on. -/
def discard (Γ : Config) (s : State) (f : Nat) : State := if Γ.dedupEnabled then dedupDiscard s f else s

/-- `dedup_rename`, of two entries. -/
def dedupRename (s : State) (src dst : Nat) : State :=
  let s := dedupDiscard s dst
  let s := s.modFile dst (fun file => { file with deduped := (s.files src).deduped })
  match s.dedup.findName (s.files src).filename with
  | none => s
  | some dp => { s with dedup := (s.dedup.del dp).addTail { dp with filename := (s.files dst).filename } }

/-! ## Attribute files -/

/-- `fuseattr_name`: the name of the attribute file of a path, next to it. -/
def fuseattrName (full : Filename) : Filename :=
  let attr := fusecompressPrefix ++ "at_".toList ++ basename full
  match dirname full with
  | none => attr
  | some d => d ++ ['/'] ++ attr

/-- The outcome of each system call of one `create_attr`. -/
structure AttrCalls where
  openAttr : Bool
  fchmod : Bool
  fchown : Bool
  futimens : Bool

/-- The outcomes of the calls of a `create_attr` that one step makes as a whole. -/
def Env.attrCalls (env : Env) : AttrCalls :=
  { openAttr := env.ok .openAttr, fchmod := env.ok .fchmodAttr, fchown := env.ok .fchownAttr, futimens := env.ok .futimens }

/-- The files that the daemon makes. -/
def Config.creator (Γ : Config) : Creator := { umask := Γ.umask, uid := Γ.uid, gid := Γ.gid }

/-- `create_attr` opens the attribute file, which it creates when it is not there. -/
def createOpen (o : Creator) (ok : Bool) (b : Backing) (fullAttr : Filename) (st : Attr) : Option (Backing × Nat) :=
  if ok = false then none
  else
    match b.find fullAttr with
    | some (.reg i) => some (b, i)
    | some .dir => none
    | none => some ((b.alloc [] (o.attr b.clock st.mode)).setName fullAttr b.next, b.next)

/-- What `create_attr` makes of the attributes of the file it has opened. It changes the mode before the owner. -/
def AttrCalls.given (c : AttrCalls) (st a : Attr) : Attr :=
  let a := if c.fchmod then a.chmod st.mode else a
  let a := if c.fchown then a.chown st.uid st.gid else a
  if c.futimens then a.utimens st.atime st.mtime else a

/-- `create_attr`: open or create an attribute file and give it some attributes. -/
def createAttr (o : Creator) (c : AttrCalls) (b : Backing) (fullAttr : Filename) (st : Attr) : Backing :=
  match createOpen o c.openAttr b fullAttr st with
  | none => b
  | some (b, i) => b.setAttr i (c.given st (b.inodes i).attr)

/-- The attributes of the inode a name refers to. -/
def Backing.attrOf (b : Backing) (p : Filename) : Option Attr := (b.inoOf p).map (fun i => (b.inodes i).attr)

/-- `unlink` of an attribute file, whose result nobody looks at. -/
def unlinkAttr (env : Env) (b : Backing) (full : Filename) : Backing :=
  if env.ok .unlinkAttr then (b.unlink (fuseattrName full)).getD b else b

/-- `rename` of an attribute file, whose result nobody looks at. -/
def renameAttr (env : Env) (b : Backing) (src dst : Filename) : Backing :=
  if env.ok .renameAttr then (b.rename (fuseattrName src) (fuseattrName dst)).getD b else b

/-- `dedup_sys_unlink`. -/
def dedupSysUnlink (env : Env) (b : Backing) (full : Filename) : Backing × Bool :=
  let b := unlinkAttr env b full
  match if env.ok .unlink then b.unlink full else none with
  | none => (b, false)
  | some b => (b, true)

/-- `dedup_sys_rename`: two links to one inode are merged by removing the source, everything else goes through `rename`; a
regular file takes its attribute file along. -/
def dedupSysRename (env : Env) (b : Backing) (src dst : Filename) : Backing × Bool :=
  let plain : Backing × Bool :=
    match if env.ok .rename then b.rename src dst else none with
    | none => (b, false)
    | some b => (renameAttr env b src dst, true)
  match if env.ok .lstat then b.find src else none with
  | some .dir =>
    match if env.ok .rename then b.rename src dst else none with
    | none => (b, false)
    | some b => (b, true)
  | some (.reg i) =>
    if b.nlink i > 1 ∧ b.inoOf dst = some i then
      match if env.ok .unlink then b.unlink src else none with
      | none => (b, false)
      | some b => (renameAttr env b src dst, true)
    else plain
  | none => plain

/-! ## Linking and unlinking -/

/-- The attributes that differ so that a linked name needs an attribute file of its own. -/
def Attr.differs (a b : Attr) : Bool := a.uid ≠ b.uid || a.gid ≠ b.gid || a.mode ≠ b.mode || a.mtime ≠ b.mtime

/-- `hardlink_file`: look for a record with the digest and replace the file by a link to the recorded one, or record the file.
The second result is the name of the file linked to. -/
def hardlinkFile (Γ : Config) (env : Env) (s : State) (md5 : List UInt8) (filename : Filename) : State × Option Filename :=
  match s.dedup.findMd5 md5 with
  | none => ({ s with dedup := s.dedup.add md5 filename }, none)
  | some dp =>
    if filename = dp.filename then (s, none)
    else
      match if env.ok .link then s.fs.inoOf dp.filename else none with
      | none => (s, none)
      | some j =>
        let fullAttr := fuseattrName filename
        let target := (s.fs.inodes j).attr
        let src := ((s.fs.attrOf fullAttr).orElse (fun _ => s.fs.attrOf filename)).getD target
        let s := s.withFs (fun b => if src.differs target then createAttr Γ.creator env.attrCalls b fullAttr src else unlinkAttr env b filename)
        if env.ok .rename = false ∨ s.fs.find filename = some .dir then (s, none)
        else (s.withFs (fun b => b.setName filename j), some dp.filename)

/-- How `dedup_hash_file` goes on behind the header of an open file: it hashes the bytes of the file, returns with an error, opens
the stream of a module, or calls through a module pointer that is NULL or was never set. -/
inductive HashStart where
  | raw
  | failed
  | packed (m : Module)
  | crash
  deriving DecidableEq, Repr

/-- `dedup_hash_file` looks for the magic bytes in an open file, whose contents are `data`, and reads the header. When the first
`read` fails or is short, the file counts as one without the magic bytes. -/
def hashStart (Γ : Config) (readMagic readHeader : Bool) (data : Bytes) : HashStart :=
  if readMagic = false ∨ data.take 3 ≠ magic then .raw
  else if readHeader = false then .failed
  else
    match parse Γ data with
    | none => .crash
    | some (m, _) => .packed m

/-- What `dedup_hash_file` comes to: it fails, it gives a digest, or it calls through a module pointer that is NULL or was never
set. -/
inductive HashResult where
  | failed
  | digest (md5 : List UInt8)
  | crash
  deriving DecidableEq, Repr

/-- `dedup_hash_file`: the digest of the whole stream of a compressed file, or of the bytes of a raw one. -/
def dedupHashFile (Γ : Config) (env : Env) (s : State) (name : Filename) : HashResult :=
  match if env.ok .open then s.fs.inoOf name else none with
  | none => .failed
  | some i =>
    let data := s.data i
    match hashStart Γ (env.ok .readMagic) (env.ok .readHeader) data with
    | .raw => if env.ok .read then .digest (Γ.md5 data) else .failed
    | .failed => .failed
    | .crash => .crash
    | .packed m =>
      if env.ok .codecOpen = false ∨ env.ok .codecRead = false then .failed
      else
        match (Γ.codec m).decode (data.drop headerSize) with
        | none => .failed
        | some d => .digest (Γ.md5 d)

/-- `do_dedup` takes over the module of the file it has linked to, which may be a different one. -/
def adoptCompressor (Γ : Config) (env : Env) (s : State) (f : Nat) (target : Option Filename) : State :=
  match target with
  | none => s
  | some t =>
    match if env.ok .open ∧ env.ok .readHeader then s.fs.inoOf t else none with
    | none => s
    | some j => s.modFile f (fun file => { file with compressor := (fileReadHeader Γ (s.data j) none 0).1 })

/-- The part of `do_dedup` after the digest has been computed and the lock taken again. -/
def doDedupEnd (Γ : Config) (env : Env) (s : State) (f : Nat) (hash : Option (List UInt8)) : State :=
  match hash with
  | none => s.modFile f (fun file => { file with deduped := true })
  | some md5 =>
    if (s.files f).status.cancel = false then
      match hardlinkFile Γ env s md5 (s.files f).filename with
      | (s, target) =>
        (adoptCompressor Γ env s f target).modFile f
          (fun file => { file with deduped := true, status := file.status.endDeduping })
    else
      s.modFile f (fun file =>
        { file with status := ({ file.status with cancel := false } : Status).endDeduping, cond := file.cond + 1 })

/-- The attributes of a file that `mkstemp` creates. -/
def tempAttr (Γ : Config) (b : Backing) : Attr :=
  { mode := 0o100600, uid := Γ.uid, gid := Γ.gid, atime := b.clock, mtime := b.clock }

/-- The free-space test made before a copy of `size` bytes, in unsigned arithmetic. -/
def enoughSpace (Γ : Config) (env : Env) (size : Int) : Bool :=
  asU64 size ≤ env.avail || (Γ.superuser && asU64 size ≤ env.bfree)

/-- Give a copy the owner and the mode of the file it copies. -/
def copyOwnerMode (env : Env) (st a : Attr) : Attr :=
  let a := if env.ok .fchown then { a with uid := st.uid, gid := st.gid } else a
  if env.ok .fchmod then { a with mode := st.mode } else a

/-- Set the times of an inode with `utime`, in whole seconds. -/
def Backing.utime (b : Backing) (i : Nat) (st : Attr) : Backing :=
  b.setAttr i { (b.inodes i).attr with atime := wholeSeconds st.atime, mtime := wholeSeconds st.mtime }

/-- `do_undedup`: when the name shares its inode, replace it by a private copy. False is `FAIL`. -/
def doUndedup (Γ : Config) (env : Env) (s : State) (f : Nat) : State × Bool :=
  let p := (s.files f).filename
  match if env.ok .lstat then s.fs.inoOf p else none with
  | none => (s, true)
  | some i =>
    if s.fs.nlink i < 2 then (s, true)
    else
      let st := (s.fs.inodes i).attr
      let attrSt := (if env.ok .lstatAttr then s.fs.attrOf (fuseattrName p) else none).getD st
      if env.ok .statvfs = false then (s, false)
      else if !enoughSpace Γ env ((s.data i).length : Int) then (s, false)
      else
        let s := dedupDiscard s f
        if env.ok .mkstemp = false ∨ env.ok .copy = false then (s, false)
        else
          let temp := s.fs.next
          let s := s.withFs (fun b => b.alloc (b.inodes i).data (copyOwnerMode env attrSt (tempAttr Γ b)))
          if env.ok .unlink = false then (s, false)
          else
            let s := s.withFs (fun b => b.dropName p)
            if env.ok .rename = false then (s, false)
            else
              let s := s.withFs (fun b => b.setName p temp)
              if env.ok .utime = false then (s, false)
              else (s.withFs (fun b => unlinkAttr env (b.utime temp attrSt) p), true)

end FuseCompress
