import FuseCompress.Requests

/-!
# Requests that change attributes

`fusecompress_chmod`, `fusecompress_chown` and `fusecompress_utime`. Without deduplication each is one system call. With it, each
goes through `dedup_sys_chmod`, `dedup_sys_chown` or `dedup_sys_utime`, which differ only in the attribute they set: all three
look at the file and at its attribute file and then change one of the two, in several system calls. `chmod` and `chown` take no
lock, so every call is a step of its own.
-/

namespace FuseCompress

/-- What a request sets. Times are in nanoseconds. -/
inductive AttrChange where
  | mode (bits : Nat)
  | owner (uid gid : Nat)
  | times (atime mtime : Nat)
  deriving DecidableEq, Repr

/-- The attributes with the values that are asked for put in, as the requests compare them. -/
def AttrChange.asked : AttrChange → Attr → Attr
  | .mode bits, a => { a with mode := bits }
  | .owner uid gid, a => { a with uid := uid, gid := gid }
  | .times atime mtime, a => { a with atime := atime, mtime := mtime }

/-- The attributes after the system call. -/
def AttrChange.apply : AttrChange → Attr → Attr
  | .mode bits, a => a.chmod bits
  | .owner uid gid, a => a.chown uid gid
  | .times atime mtime, a => a.utimens atime mtime

/-- The system call that makes the change. -/
def AttrChange.call : AttrChange → Call
  | .mode _ => .chmod
  | .owner _ _ => .chown
  | .times _ _ => .lutimes

/-- `chmod`, `lchown` or `lutimes` on a path. -/
def Backing.change (env : Env) (b : Backing) (full : Filename) (c : AttrChange) : Backing × Bool :=
  match if env.ok c.call then b.find full else none with
  | none => (b, false)
  | some .dir => (b, true)
  | some (.reg i) => (b.setAttr i (c.apply (b.inodes i).attr), true)

/-- Where a request that changes attributes has got to: the next system call, with what the ones before it have found. -/
inductive AttrPc where
  | stat
  | statAttr (st : Attr) (nlink : Nat)
  | unlinkAttr
  | createOpen (st : Attr)
  | createMode (ino : Nat) (st : Attr)
  | createOwner (ino : Nat) (st : Attr)
  | createTimes (ino : Nat) (st : Attr)
  | onAttr
  | onFile
  deriving DecidableEq, Repr

/-- The first call of a request. -/
def attrStart (Γ : Config) : AttrPc := if Γ.dedupEnabled then .stat else .onFile

/-- What `dedup_sys_chmod`, `dedup_sys_chown` and `dedup_sys_utime` decide once they have looked at the file, which has
attributes `st`, and at its attribute file: that file is superfluous, or gets the change, or has to be made, or is not needed. -/
def attrDecide (c : AttrChange) (st : Attr) (nlink : Nat) (attrFile : Option Attr) : AttrPc :=
  match attrFile with
  | some stAttr => if st.differs (c.asked stAttr) then .onAttr else .unlinkAttr
  | none => if nlink > 1 ∧ st.differs (c.asked st) then .createOpen st else .onFile

/-- One system call of a request. The result is the next call or what the request returns. -/
def attrStep (Γ : Config) (env : Env) (b : Backing) (full : Filename) (c : AttrChange) : AttrPc → Backing × (AttrPc ⊕ Bool)
  | .stat =>
    match if env.ok .lstat then b.find full else none with
    | none => (b, .inr false)
    | some .dir => (b, .inl .onFile)
    | some (.reg i) => (b, .inl (.statAttr (b.inodes i).attr (b.nlink i)))
  | .statAttr st nlink =>
    (b, .inl (attrDecide c st nlink (if env.ok .lstatAttr then b.attrOf (fuseattrName full) else none)))
  | .unlinkAttr => (unlinkAttr env b full, .inr true)
  | .createOpen st =>
    match createOpen Γ.creator (env.ok .openAttr) b (fuseattrName full) st with
    | none => (b, .inr false)
    | some (b, i) => (b, .inl (.createMode i st))
  | .createMode i st =>
    (if env.ok .fchmodAttr then b.setAttr i ((b.inodes i).attr.chmod st.mode) else b, .inl (.createOwner i st))
  | .createOwner i st =>
    (if env.ok .fchownAttr then b.setAttr i ((b.inodes i).attr.chown st.uid st.gid) else b, .inl (.createTimes i st))
  | .createTimes i st =>
    (if env.ok .futimens then b.setAttr i ((b.inodes i).attr.utimens st.atime st.mtime) else b, .inl .onAttr)
  | .onAttr => let r := b.change env (fuseattrName full) c; (r.1, .inr r.2)
  | .onFile => let r := b.change env full c; (r.1, .inr r.2)

/-- Several system calls of a request in a row, at most as many as the first argument says. -/
def attrRun (Γ : Config) (env : Env) (full : Filename) (c : AttrChange) : Nat → Backing → AttrPc → Backing × Bool
  | 0, b, _ => (b, false)
  | n + 1, b, pc =>
    match attrStep Γ env b full c pc with
    | (b, .inl pc) => attrRun Γ env full c n b pc
    | (b, .inr res) => (b, res)

/-- `fusecompress_utime` from the lock on: all its calls are made under the lock of the file. -/
def utimeLocked (Γ : Config) (env : Env) (s : State) (full : Filename) (c : AttrChange) : State × Reply :=
  let r := attrRun Γ env full c 8 s.fs (attrStart Γ)
  ({ s with fs := r.1 }, if r.2 then .ok else .fail)

end FuseCompress
