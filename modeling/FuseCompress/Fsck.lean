import FuseCompress.Modules

/-!
# The file system checker

`checkfile` of `tools/fsck.c` on a regular file without an internal name, which can be opened and read, and the loop by which the
modules decompress a whole file. What a module finds in a stream is a `Reader`: the bytes it delivers one after the other, and
whether the stream ends behind them or is damaged there.

The deduplication database is not rebuilt.
-/

namespace FuseCompress

/-- The modules as the checker uses them: `compressor->open` on what follows the header. Nothing is a NULL handle. -/
abbrev Readers := Module → Bytes → Option Reader

/-- `compressor->read`. Nothing is `-1`. -/
def Reader.read (rd : Reader) (n : Nat) : Option (Bytes × Reader) :=
  if n ≤ rd.rest.length then some (rd.rest.take n, { rd with rest := rd.rest.drop n })
  else if rd.sound then some (rd.rest, { rd with rest := [] })
  else none

/-- A request that delivers something uses up some of the stream. -/
theorem Reader.length_read {rd rd' : Reader} {n : Nat} {buf : Bytes} (h : rd.read n = some (buf, rd')) :
    rd.rest = buf ++ rd'.rest ∧ rd'.sound = rd.sound ∧ buf.length ≤ n := by
  unfold Reader.read at h
  split at h
  · cases h
    refine ⟨(List.take_append_drop n rd.rest).symm, rfl, ?_⟩
    rw [List.length_take]
    exact Nat.min_le_left _ _
  · rename_i hn
    split at h
    · cases h
      exact ⟨(List.append_nil _).symm, rfl, by omega⟩
    · cases h

/-! ## `do_decompress` -/

/-- The loop of a module's `decompress`: the number of bytes it has written, nothing when a read fails. -/
def decompressLoop (rd : Reader) : Option Nat :=
  match _h : rd.read moduleBufSize with
  | none => none
  | some (buf, rd') => if buf = [] then some 0 else (decompressLoop rd').map (fun size => buf.length + size)
termination_by rd.rest.length
decreasing_by
  obtain ⟨hrest, -, -⟩ := Reader.length_read _h
  rename_i hbuf
  have := List.length_pos_iff.mpr hbuf
  rw [hrest, List.length_append]
  omega

/-- `do_decompress` finds a module and as many bytes as the header says. -/
def Decompresses (Γ : Config) (opens : Readers) (b : Bytes) : Prop :=
  ∃ m size rd n, parse Γ b = some (m, size) ∧ opens m (b.drop headerSize) = some rd ∧ decompressLoop rd = some n ∧ (n : Int) = size

/-! ## `checkfile` -/

/-- `BUFSIZE` of the checker. -/
def bufsize : Nat := 131072

/-- The error codes `checkfile` passes to `fix`. -/
inductive FixCode where
  | brokenHeader | failRead | failOpenDecomp | failReadDecomp | shortReadDecomp | failCloseDecomp
  deriving DecidableEq, Repr

/-- How `checkfile` ends: without an error, with one that it reports, in a call through a pointer that is NULL or was never set,
or in a request for more bytes than its buffer holds. -/
inductive Verdict where
  | fine
  | error (code : FixCode)
  | badCall
  | overrun (n : Nat)
  deriving DecidableEq, Repr

/-- The variable `compr` of `checkfile`. -/
inductive Pointer where
  | unset
  | null
  | to (m : Module)
  deriving DecidableEq, Repr

/-- What `file_read_header_fd` leaves in the variables of `checkfile`, in which `compr` and `size` were before. A file that is too
short for a header leaves them alone. -/
def checkHeader (Γ : Config) (b : Bytes) (compr : Pointer) (size : Int) : Pointer × Int :=
  if b.length < headerSize then (compr, size)
  else
    match fileReadHeader Γ b none size with
    | (none, size) => (.null, size)
    | (some m, size) => (.to m, size)

/-- A signed number passed as an `unsigned int`. -/
def asU32 (x : Int) : Nat := (x % 2 ^ 32).toNat

/-- The number of bytes `checkfile` asks for when `size` bytes are left. -/
def checkRequest (size : Int) : Nat := if size > bufsize then bufsize else asU32 size

/-- The loop of `checkfile`. -/
def checkLoop (rd : Reader) (size : Int) : Verdict :=
  if size = 0 then .fine
  else if checkRequest size > bufsize then .overrun (checkRequest size)
  else
    match _h : rd.read (checkRequest size) with
    | none => .error .failReadDecomp
    | some (buf, rd') => if buf = [] then .error .shortReadDecomp else checkLoop rd' (size - buf.length)
termination_by rd.rest.length
decreasing_by
  obtain ⟨hrest, -, -⟩ := Reader.length_read _h
  rename_i hbuf
  have := List.length_pos_iff.mpr hbuf
  rw [hrest, List.length_append]
  omega

/-- `checkfile` closes the stream when its loop has found no error. -/
def Verdict.close (closed : Bool) : Verdict → Verdict
  | .fine => if closed then .fine else .error .failCloseDecomp
  | v => v

/-- `checkfile`, with what its variable `size` holds at the start, and whether `compressor->close` succeeds. Its variable `compr` is
not set at the start. -/
def checkfile (Γ : Config) (opens : Readers) (garbage : Int) (closed : Bool) (b : Bytes) : Verdict :=
  if b.take 3 ≠ magic then .fine
  else
    match checkHeader Γ b .unset garbage with
    | (.to m, size) =>
      match opens m (b.drop headerSize) with
      | none => .error .failOpenDecomp
      | some rd => (checkLoop rd size).close closed
    | _ => .badCall

end FuseCompress
