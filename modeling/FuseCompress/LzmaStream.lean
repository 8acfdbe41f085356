import FuseCompress.FailingReads
import FuseCompress.FailingWrites

/-!
# The streams of `lzma`

`lzmaOpen`, `lzmaWrite`, `lzmaClose` and `lzmaRead` of `compress_lzma.c`. They drive liblzma by hand: a call of `lzma_code` takes a part of
the input and fills a part of the room for output, and the loops see to the rest. The library is a parameter. Lengths are
`unsigned int`, and results `int`.
-/

namespace FuseCompress

universe u

/-! ## liblzma -/

/-- `lzma_action`. -/
inductive LzmaAction where
  | run | finish
  deriving DecidableEq, Repr

/-- What `lzma_code` returns: `LZMA_OK`, `LZMA_STREAM_END`, or something else. -/
inductive LzmaRet where
  | ok | streamEnd | error
  deriving DecidableEq, Repr

/-- What a call of `lzma_code` does: the stream after it, how much of the input it has taken, what it has put out, and its result. -/
structure LzmaCall (σ : Type u) where
  stream : σ
  used : Nat
  out : Bytes
  ret : LzmaRet

/-- The library. `encoder` is `lzma_easy_encoder` with a level, and `code` is `lzma_code` with input and with room for output. A call
that returns `LZMA_OK` makes progress: it takes input, or leaves less to do inside of the library (`pending` counts what waits for room,
and whether the last call has been idle, since only the second such call is told that there is nothing to do). -/
structure Liblzma where
  Stream : Type
  encoder : Int → Option Stream
  decoder : Option Stream
  code : Stream → LzmaAction → Bytes → Nat → LzmaCall Stream
  pending : Stream → Nat
  used_le : ∀ σ a inp room, (code σ a inp room).used ≤ inp.length
  out_le : ∀ σ a inp room, (code σ a inp room).out.length ≤ room
  progress : ∀ σ a inp room, 0 < room → (code σ a inp room).ret = .ok →
    0 < (code σ a inp room).used ∨ pending (code σ a inp room).stream < pending σ

/-- What is documented of the streams that the library writes and reads. `Decodes` relates a stream to its content. An encoder has been
given the first bytes and has put out the second (`Encoding`, and `Finishing` when it is given no more); a decoder waits for the rest of
a stream, and has the rest of its content to put out (`Decoding`). The end of a stream comes after all of its content. -/
structure LzmaFormat (lib : Liblzma) where
  Decodes : Bytes → Bytes → Prop
  Encoding : lib.Stream → Bytes → Bytes → Prop
  Finishing : lib.Stream → Bytes → Bytes → Prop
  Decoding : lib.Stream → Bytes → Bytes → Prop
  encoder : ∀ level σ, lib.encoder level = some σ → Encoding σ [] []
  run : ∀ σ given sent inp room, Encoding σ given sent → inp ≠ [] → 0 < room →
    (lib.code σ .run inp room).ret = .ok ∧
      Encoding (lib.code σ .run inp room).stream (given ++ inp.take (lib.code σ .run inp room).used)
        (sent ++ (lib.code σ .run inp room).out)
  closing : ∀ σ given sent, Encoding σ given sent → Finishing σ given sent
  finish : ∀ σ given sent room, Finishing σ given sent → 0 < room →
    (lib.code σ .finish [] room).ret = .ok ∧
        Finishing (lib.code σ .finish [] room).stream given (sent ++ (lib.code σ .finish [] room).out) ∨
      (lib.code σ .finish [] room).ret = .streamEnd ∧ Decodes (sent ++ (lib.code σ .finish [] room).out) given
  decoder : ∀ σ stream content, lib.decoder = some σ → Decodes stream content → Decoding σ stream content
  decode : ∀ σ inp more text room, Decoding σ (inp ++ more) text → inp ≠ [] → 0 < room →
    ∃ rest, text = (lib.code σ .run inp room).out ++ rest ∧
      Decoding (lib.code σ .run inp room).stream (inp.drop (lib.code σ .run inp room).used ++ more) rest ∧
      ((lib.code σ .run inp room).ret = .streamEnd ∧ inp.drop (lib.code σ .run inp room).used ++ more = [] ∨
        (lib.code σ .run inp room).ret = .ok)
  ended : ∀ σ text, Decoding σ [] text → text = []

variable {lib : Liblzma}

/-- What is read at a position, and what comes after it. -/
theorem Bytes.slice_append_drop (b : Bytes) (off n : Nat) :
    slice b off n ++ b.drop (off + (slice b off n).length) = b.drop off := by
  unfold slice
  rw [← List.drop_drop, List.length_take]
  rcases Nat.le_total n (b.drop off).length with hle | hle
  · rw [Nat.min_eq_left hle, List.take_append_drop]
  · rw [Nat.min_eq_right hle, List.take_of_length_le hle, List.drop_length, List.append_nil]

/-! ## The file -/

/-- `BUF_SIZE`. -/
def lzmaBufSize : Nat := 4096

/-- `struct lzmafile`. `next` is the input that is left, `next_in` and `avail_in` of the stream; when reading it is what is left of
`rdbuf`. -/
structure LzmaFile (lib : Liblzma) where
  str : lib.Stream
  next : Bytes
  fd : OpenFile
  mode : Char

/-- `lzmaOpen`, with the result of `malloc`. -/
def lzmaOpen (lib : Liblzma) (malloc : Bool) (fd : OpenFile) (mode : List Char) : Option (LzmaFile lib) :=
  if malloc = false then none
  else
    let str := if mode.headD '\x00' = 'r' then lib.decoder else lib.encoder ((mode.getD 2 '\x00').toNat - '0'.toNat : Int)
    str.map (fun str => { str := str, next := [], fd := fd, mode := mode.headD '\x00' })

/-- The file after a call of `lzma_code` on its input. -/
def LzmaFile.after (file : LzmaFile lib) (r : LzmaCall lib.Stream) : LzmaFile lib :=
  { file with str := r.stream, next := file.next.drop r.used }

/-- Part of a buffer is written to the file. -/
def LzmaFile.put (file : LzmaFile lib) (w : Written) (out : Bytes) : LzmaFile lib :=
  { file with fd := file.fd.put (out.take (w.count out.length)) }

/-- What the loops get smaller: the input to come, or else what waits inside of the library. -/
def LzmaFile.left (file : LzmaFile lib) (input : Nat) : Nat × Nat := (input, lib.pending file.str)

/-- A call of `lzma_code` that returns `LZMA_OK` leaves less. -/
theorem LzmaFile.after_lt (file : LzmaFile lib) (a : LzmaAction) {room : Nat} (extra : Nat) (hroom : 0 < room)
    (hok : (lib.code file.str a file.next room).ret = .ok) :
    Prod.Lex (· < ·) (· < ·)
      ((file.after (lib.code file.str a file.next room)).left (extra + (file.after (lib.code file.str a file.next room)).next.length))
      (file.left (extra + file.next.length)) := by
  have hle := lib.used_le file.str a file.next room
  have hlength : (file.after (lib.code file.str a file.next room)).next.length =
      file.next.length - (lib.code file.str a file.next room).used := List.length_drop
  rw [hlength]
  rcases Nat.eq_zero_or_pos (lib.code file.str a file.next room).used with hzero | hpos
  · rw [hzero, Nat.sub_zero]
    refine Prod.Lex.right _ ?_
    rcases lib.progress file.str a file.next room hroom hok with hused | hpending
    · omega
    · exact hpending
  · exact Prod.Lex.left _ _ (by omega)

/-! ## Writing -/

/-- The loop of `lzmaWrite`, with a buffer of `len` bytes for the output. The outcomes of its calls of `write` are numbered; their
results are kept in an `int`. -/
def lzmaWriteLoop (len : Nat) (hlen : 0 < len) (ws : Nat → Written) (k : Nat) (file : LzmaFile lib) : LzmaFile lib × Bool :=
  if file.next = [] then (file, true)
  else
    let r := lib.code file.str .run file.next len
    if hret : r.ret ≠ .ok then (file.after r, false)
    else
      let file' := (file.after r).put (ws k) r.out
      if ((ws k).result r.out.length).bmod (2 ^ 32) ≠ r.out.length then (file', false) else lzmaWriteLoop len hlen ws (k + 1) file'
termination_by file.left (0 + file.next.length)
decreasing_by exact file.after_lt .run 0 hlen (not_not.mp hret)

/-- `lzmaWrite`. -/
def lzmaWrite (ws : Nat → Written) (file : LzmaFile lib) (buf : Bytes) (len : UInt32) : LzmaFile lib × Int :=
  if file.mode ≠ 'w' then (file, -1)
  else if hlen : 0 < len.toNat then
    match lzmaWriteLoop len.toNat hlen ws 0 { file with next := buf.take len.toNat } with
    | (file, true) => (file, asInt len.toNat)
    | (file, false) => (file, -1)
  else ({ file with next := [] }, 0)

/-- The loop of `lzmaClose`. -/
def lzmaFinishLoop (ws : Nat → Written) (k : Nat) (file : LzmaFile lib) : LzmaFile lib × Bool :=
  let r := lib.code file.str .finish file.next lzmaBufSize
  if hret : r.ret = .error then (file.after r, false)
  else
    let file' := (file.after r).put (ws k) r.out
    if (ws k).result r.out.length ≠ r.out.length then (file', false)
    else if hend : r.ret = .streamEnd then (file', true)
    else lzmaFinishLoop ws (k + 1) file'
termination_by file.left (0 + file.next.length)
decreasing_by
  refine file.after_lt .finish 0 (by decide) ?_
  cases hcode : (lib.code file.str .finish file.next lzmaBufSize).ret with
  | ok => rfl
  | streamEnd => exact absurd hcode hend
  | error => exact absurd hcode hret

/-- `lzmaClose`, with the result of `close`: what the file holds then, and what is returned. -/
def lzmaClose (ws : Nat → Written) (closed : Bool) (file : LzmaFile lib) : OpenFile × Int :=
  if file.mode = 'w' then
    match lzmaFinishLoop ws 0 file with
    | (file, true) => (file.fd, if closed then 0 else -1)
    | (file, false) => (file.fd, -1)
  else (file.fd, if closed then 0 else -1)

/-! ## Reading -/

/-- `read` into `rdbuf`. -/
def LzmaFile.refill (file : LzmaFile lib) : LzmaFile lib :=
  { file with
    next := Bytes.slice file.fd.data file.fd.pos lzmaBufSize
    fd := { file.fd with pos := file.fd.pos + (Bytes.slice file.fd.data file.fd.pos lzmaBufSize).length } }

/-- `lzmaRead` fills its buffer when it is empty. `faults` says which calls of `read` fail. Nothing when one does. -/
def LzmaFile.fill (faults : List Bool) (file : LzmaFile lib) : Option (LzmaFile lib × List Bool) :=
  if file.next ≠ [] then some (file, faults)
  else if faults.headD false then none
  else some (file.refill, faults.tail)

/-- The bytes that liblzma has not been given yet. -/
def LzmaFile.unread (file : LzmaFile lib) : Bytes := file.next ++ file.fd.data.drop file.fd.pos

theorem LzmaFile.fill_some {file file' : LzmaFile lib} {faults faults' : List Bool} (h : file.fill faults = some (file', faults')) :
    file'.str = file.str ∧ file'.mode = file.mode ∧ file'.unread = file.unread ∧ (file'.next = [] → file.unread = []) := by
  unfold fill at h
  split at h
  · rename_i hnext
    cases h
    exact ⟨rfl, rfl, rfl, fun hnil => absurd hnil hnext⟩
  rename_i hnext
  have hnext : file.next = [] := not_not.mp hnext
  split at h
  · cases h
  · cases h
    have hunread : file.unread = file.fd.data.drop file.fd.pos := by
      unfold unread
      rw [hnext, List.nil_append]
    refine ⟨rfl, rfl, ?_, fun hnil => ?_⟩
    · rw [hunread]
      exact Bytes.slice_append_drop file.fd.data file.fd.pos lzmaBufSize
    · rw [hunread]
      have hslice : (file.fd.data.drop file.fd.pos).take lzmaBufSize = [] := hnil
      rw [List.take_eq_nil_iff] at hslice
      exact hslice.resolve_left (by decide)

/-- The loop of `lzmaRead` for `room` bytes more. -/
def lzmaReadLoop (faults : List Bool) (file : LzmaFile lib) (room : Nat) : LzmaFile lib × Option Bytes :=
  if room = 0 then (file, some [])
  else
    match _h : file.fill faults with
    | none => (file, none)
    | some (file', faults) =>
      if file'.next = [] then (file', some [])
      else
        let r := lib.code file'.str .run file'.next room
        if r.ret = .error then (file'.after r, none)
        else if r.ret = .streamEnd then (file'.after r, some r.out)
        else
          let rest := lzmaReadLoop faults (file'.after r) (room - r.out.length)
          (rest.1, rest.2.map (r.out ++ ·))
termination_by file.left file.unread.length
decreasing_by
  rename_i hroom _ herror hend
  obtain ⟨hstr, -, hunread, -⟩ := LzmaFile.fill_some _h
  have hok : (lib.code file'.str .run file'.next room).ret = .ok := by
    cases hcode : (lib.code file'.str .run file'.next room).ret with
    | ok => rfl
    | streamEnd => exact absurd hcode hend
    | error => exact absurd hcode herror
  have hless := file'.after_lt .run (file'.fd.data.drop file'.fd.pos).length (Nat.pos_of_ne_zero hroom) hok
  rw [← hunread]
  unfold LzmaFile.left at hless ⊢
  unfold LzmaFile.unread
  rw [← hstr, List.length_append, List.length_append, Nat.add_comm, Nat.add_comm file'.next.length]
  exact hless

/-- `lzmaRead`: what it returns, and the bytes it has delivered. -/
def lzmaRead (faults : List Bool) (file : LzmaFile lib) (len : UInt32) : LzmaFile lib × Int × Bytes :=
  if file.mode ≠ 'r' then (file, -1, [])
  else
    match lzmaReadLoop faults file len.toNat with
    | (file, none) => (file, -1, [])
    | (file, some buf) => (file, asInt buf.length, buf)

/-! ## Several calls -/

/-- `lzmaWrite` on one buffer after the other, without a failing `write`: the results. -/
def LzmaFile.writes (file : LzmaFile lib) : List Bytes → LzmaFile lib × List Int
  | [] => (file, [])
  | buf :: chunks =>
    let r := lzmaWrite (fun _ => .full) file buf (.ofNat buf.length)
    let r' := LzmaFile.writes r.1 chunks
    (r'.1, r.2 :: r'.2)

/-- `lzmaRead` with one size after the other, without a failing `read`: the results. -/
def LzmaFile.reads (file : LzmaFile lib) : List UInt32 → List (Int × Bytes)
  | [] => []
  | len :: sizes => (lzmaRead [] file len).2 :: LzmaFile.reads (lzmaRead [] file len).1 sizes

/-- Consecutive pieces of a content. -/
def pieces (content : Bytes) : List Nat → List Bytes
  | [] => []
  | len :: sizes => content.take len :: pieces (content.drop len) sizes

end FuseCompress
