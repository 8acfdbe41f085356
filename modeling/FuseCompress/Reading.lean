import FuseCompress.Requests

/-!
# Reading from beginning to end

`fusecompress_read` as one step: no other thread comes between the lock and the `pread` that may follow it. And which requests
keep pages of what they skip in the cache of the file.
-/

namespace FuseCompress

/-- `fusecompress_read`: what it returns, and the bytes it has put into the buffer. A read that fails returns `-1` here,
whatever the `errno`, unless this is 0. -/
def fusecompressRead (Γ : Config) (env : Env) (s : State) (d size offset : Nat) : State × Int × Bytes :=
  let f := (s.descs d).file
  match readLocked Γ env s f d size offset with
  | (s, .done res buf) => if res = -1 then (invalidateSize s f, if env.ok .errno then -1 else 0, []) else (s, res, buf)
  | (s, .pread fd size offset served) =>
    match preadFd env s fd size offset with
    | none => (invalidateSize s f, -1, [])
    | some buf => (s, ((served ++ buf).length : Int), served ++ buf)

/-- A request to read: the answers of the system, the descriptor, the size of the buffer and the offset. -/
structure ReadRequest where
  env : Env
  desc : Nat
  size : Nat
  offset : Nat

/-- The state after a request. -/
def readStep (Γ : Config) (s : State) (r : ReadRequest) : Option State :=
  some (fusecompressRead Γ r.env s r.desc r.size r.offset).1

/-- What requests that are made one after the other return, and the bytes they get. -/
def replies (Γ : Config) : State → List ReadRequest → List (Int × Bytes)
  | _, [] => []
  | s, r :: rs =>
    let res := fusecompressRead Γ r.env s r.desc r.size r.offset
    res.2 :: replies Γ res.1 rs

/-! ## Which requests keep pages -/

/-- The number of pages that the cache has of a request. -/
def servedPages (s : State) (f size offset : Nat) : Nat :=
  (servePages ((s.files f).cache.getD []) (size / pageSize) (offset / pageSize)).2.2

/-- Where the decoder of a descriptor stands when it begins to skip to `target`: at the start, when it has to go back. -/
def skipStart (desc : Desc) (target : Nat) : Nat := if target < desc.offset then 0 else desc.offset

/-- Where a request reads on, when the cache has served what it has. -/
def readTarget (s : State) (f size offset : Nat) : Nat := offset + pageSize * servedPages s f size offset

/-- The request skips a part of the file and keeps the pages of it: it is page aligned, the file is compressed, and the part fits
into what is left of the cache. -/
def KeepsSkipped (Γ : Config) (s : State) (r : ReadRequest) : Prop :=
  let f := (s.descs r.desc).file
  let served := pageSize * servedPages s f r.size r.offset
  let target := readTarget s f r.size r.offset
  let start := skipStart (s.descs r.desc) target
  Γ.cacheDecompressedData = true ∧ r.offset % pageSize = 0 ∧ r.size % pageSize = 0 ∧ (s.files f).compressor ≠ none ∧
    (served = r.size → served = 0) ∧ start < target ∧
    (target : Int) - start ≤ Γ.maxDecompCacheSize - (s.decompCacheSize - served)

/-- A request that keeps what it skips starts to skip at a page boundary, does not run over the end of a file whose last page is not
full, and reads a file whose pages can be counted in an `int`. -/
def SkipsWholePages (Γ : Config) (s : State) (r : ReadRequest) : Prop :=
  KeepsSkipped Γ s r →
    let f := (s.descs r.desc).file
    let target := readTarget s f r.size r.offset
    pageSize ∣ skipStart (s.descs r.desc) target ∧
      ((target : Int) ≤ (s.files f).size ∨ (pageSize : Int) ∣ (s.files f).size) ∧ (s.files f).size + pageSize < 2 ^ 43

end FuseCompress
