import FuseCompress.Attributes

/-!
# Linking a file to its duplicate, call by call

`hardlink_file` with every system call it makes, and the temporary link as a name of its own. It is the same function for the
daemon and for the checker, so it is about the table and the backing directory only; what a process is known by is a `Process`.

The model of the daemon has this function as one step (`hardlinkFile` beside the other functions of `dedup.c`), in which the temporary
link has no name.
-/

namespace FuseCompress

/-- The process that makes the links: `getpid` in digits, and what it gives to new files. -/
structure Process extends Creator where
  pid : Filename
  digits : '/' ∉ pid

/-- The outcome of each system call of one `hardlink_file`, and what its variables `st_src` and `st_target` hold before they are
set. -/
structure LinkCalls extends AttrCalls where
  link : Bool
  lstatAttr : Bool
  lstat : Bool
  lstatTmp : Bool
  unlinkAttr : Bool
  rename : Bool
  unlinkTmp : Bool
  stSrc : Attr
  stTarget : Attr

/-- No system call fails. -/
structure LinkCalls.AllOk (c : LinkCalls) : Prop where
  link : c.link = true
  lstatAttr : c.lstatAttr = true
  lstat : c.lstat = true
  lstatTmp : c.lstatTmp = true
  openAttr : c.openAttr = true
  fchmod : c.fchmod = true
  fchown : c.fchown = true
  futimens : c.futimens = true
  unlinkAttr : c.unlinkAttr = true
  rename : c.rename = true
  unlinkTmp : c.unlinkTmp = true

/-- `tmpname`: the name of the temporary link, next to the file. -/
def Process.tmpname (P : Process) (filename : Filename) : Filename :=
  let tmp := fusecompressPrefix ++ "t_".toList ++ basename filename ++ ['.'] ++ P.pid
  match dirname filename with
  | none => tmp
  | some d => d ++ ['/'] ++ tmp

/-- `unlink`, whose result nobody looks at. -/
def Backing.unlinkIf (b : Backing) (ok : Bool) (p : Filename) : Backing := if ok then (b.unlink p).getD b else b

/-- What `st_src` holds once `hardlink_file` has looked at the attribute file of `filename`, and else at `filename`. -/
def LinkCalls.src (c : LinkCalls) (b : Backing) (filename : Filename) : Attr :=
  ((if c.lstatAttr then b.attrOf (fuseattrName filename) else none).orElse
    (fun _ => if c.lstat then b.attrOf filename else none)).getD c.stSrc

/-- What `st_target` holds once `hardlink_file` has looked at the temporary link. -/
def LinkCalls.target (c : LinkCalls) (b : Backing) (tmpname : Filename) : Attr :=
  (if c.lstatTmp then b.attrOf tmpname else none).getD c.stTarget

/-- What `hardlink_file` does about the attribute file of `filename`, once the temporary link is there. -/
def Process.keepAttr (P : Process) (c : LinkCalls) (b : Backing) (filename : Filename) : Backing :=
  let stSrc := c.src b filename
  if stSrc.differs (c.target b (P.tmpname filename)) then createAttr P.toCreator c.toAttrCalls b (fuseattrName filename) stSrc
  else b.unlinkIf c.unlinkAttr (fuseattrName filename)

/-- `hardlink_file`. The last result is the name of the file linked to. -/
def Process.hardlinkFile (P : Process) (c : LinkCalls) (h : DedupHash) (b : Backing) (md5 : List UInt8) (filename : Filename) :
    DedupHash × Backing × Option Filename :=
  match h.findMd5 md5 with
  | none => (h.add md5 filename, b, none)
  | some dp =>
    if filename = dp.filename then (h, b, none)
    else
      match if c.link then b.link dp.filename (P.tmpname filename) else none with
      | none => (h, b, none)
      | some b =>
        let b := P.keepAttr c b filename
        match if c.rename then b.rename (P.tmpname filename) filename else none with
        | none => (h, b.unlinkIf c.unlinkTmp (P.tmpname filename), none)
        | some b => (h, b.unlinkIf c.unlinkTmp (P.tmpname filename), some dp.filename)

end FuseCompress
