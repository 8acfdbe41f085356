import Mathlib.Data.List.Basic
import Mathlib.Tactic.Ring

/-!
# Byte strings with positions

The contents of a file as a list of bytes, with the three operations every file system offers on it: reading a slice, writing
at a position, and setting the length. A write or a resize past the end fills the gap with zero bytes. Also the little-endian
encoding of a number in a fixed count of bytes.
-/

namespace FuseCompress

/-- The contents of a file. -/
abbrev Bytes := List UInt8

namespace Bytes

/-- A run of zero bytes. -/
def zeros (n : Nat) : Bytes := List.replicate n 0

/-- The bytes from `off` on, at most `n` of them. -/
def slice (b : Bytes) (off n : Nat) : Bytes := (b.drop off).take n

/-- Write `buf` at position `off`; an empty write changes nothing. -/
def overwrite (b : Bytes) (off : Nat) (buf : Bytes) : Bytes :=
  if buf = [] then b else b.take off ++ zeros (off - b.length) ++ buf ++ b.drop (off + buf.length)

/-- Cut or extend with zeros to length `n`. -/
def resize (b : Bytes) (n : Nat) : Bytes := b.take n ++ zeros (n - b.length)

@[simp] theorem length_zeros (n : Nat) : (zeros n).length = n := List.length_replicate

@[simp] theorem zeros_zero : zeros 0 = [] := rfl

@[simp] theorem overwrite_empty_buf (b : Bytes) (off : Nat) : overwrite b off [] = b := if_pos rfl

/-- Writing at the end appends. -/
@[simp] theorem overwrite_at_end (b buf : Bytes) : overwrite b b.length buf = b ++ buf := by
  unfold overwrite
  split
  · rename_i h; simp [h]
  · simp

/-- Writing at the end, the position given by an equation. -/
theorem overwrite_eq_append {b buf : Bytes} {off : Nat} (h : off = b.length) : overwrite b off buf = b ++ buf := by
  subst h
  exact overwrite_at_end b buf

/-- Writing into an empty file at its start. -/
@[simp] theorem overwrite_nil_zero (buf : Bytes) : overwrite [] 0 buf = buf := by
  simpa using overwrite_at_end [] buf

/-- Writing at the start over a first part of the same length replaces that part. -/
theorem overwrite_front {h h' : Bytes} (r : Bytes) (hl : h'.length = h.length) : overwrite (h ++ r) 0 h' = h' ++ r := by
  unfold overwrite
  split
  · rename_i e
    subst e
    have : h = [] := List.eq_nil_of_length_eq_zero hl.symm
    simp [this]
  · simp [hl]

theorem length_overwrite (b : Bytes) (off : Nat) (buf : Bytes) :
    (overwrite b off buf).length = if buf = [] then b.length else max b.length (off + buf.length) := by
  unfold overwrite
  split
  · rfl
  · simp only [List.length_append, List.length_take, length_zeros, List.length_drop]
    omega

@[simp] theorem length_resize (b : Bytes) (n : Nat) : (resize b n).length = n := by
  simp only [resize, List.length_append, List.length_take, length_zeros]
  omega

@[simp] theorem resize_zero (b : Bytes) : resize b 0 = [] := by simp [resize]

@[simp] theorem slice_nil (off n : Nat) : slice [] off n = [] := by simp [slice]

theorem length_slice (b : Bytes) (off n : Nat) : (slice b off n).length = min n (b.length - off) := by
  simp [slice]

/-- A slice that starts at or past the end is empty. -/
theorem slice_of_length_le {b : Bytes} {off : Nat} (h : b.length ≤ off) (n : Nat) : slice b off n = [] := by
  simp [slice, List.drop_eq_nil_of_le h]

/-- Asking for more than there is gives what there is. -/
theorem slice_min (b : Bytes) (off n : Nat) : slice b off (min n (b.length - off)) = slice b off n := by
  have h : b.length - off = (b.drop off).length := by simp
  rw [slice, slice, h, Nat.min_comm, List.take_eq_take_iff]
  omega

/-- The first bytes of a prefix, read on to the next ones, are a longer prefix. -/
theorem take_append_slice (b : Bytes) (k n : Nat) : b.take k ++ slice b k n = b.take (k + n) := by
  rw [slice, List.take_add]

/-! ## Little-endian numbers -/

/-- The number as `w` bytes, least significant first (`__cpu_to_le64` at `w = 8`). -/
def toLe : Nat → Nat → Bytes
  | 0, _ => []
  | w + 1, n => UInt8.ofNat (n % 256) :: toLe w (n / 256)

/-- The number whose bytes these are, least significant first. -/
def fromLe : Bytes → Nat
  | [] => 0
  | x :: r => x.toNat + 256 * fromLe r

@[simp] theorem length_toLe (w n : Nat) : (toLe w n).length = w := by
  induction w generalizing n with
  | zero => rfl
  | succ w ih => simp [toLe, ih]

/-- Encoding in `w` bytes keeps the number modulo `256 ^ w`. -/
theorem fromLe_toLe (w n : Nat) : fromLe (toLe w n) = n % 256 ^ w := by
  induction w generalizing n with
  | zero => simp [toLe, fromLe, Nat.mod_one]
  | succ w ih =>
    have hx : (UInt8.ofNat (n % 256)).toNat = n % 256 := by simp
    rw [toLe, fromLe, ih, hx, Nat.pow_succ', Nat.mod_mul]

/-- The number is below the bound that its count of bytes sets. -/
theorem fromLe_lt (b : Bytes) : fromLe b < 256 ^ b.length := by
  induction b with
  | nil => simp [fromLe]
  | cons x r ih =>
    have hx := x.toNat_lt
    rw [fromLe, List.length_cons, Nat.pow_succ']
    omega

/-- Decoding loses nothing: the number has the same bytes again. -/
theorem toLe_fromLe (b : Bytes) : toLe b.length (fromLe b) = b := by
  induction b with
  | nil => rfl
  | cons x r ih =>
    have hx := x.toNat_lt
    have hlow : (x.toNat + 256 * fromLe r) % 256 = x.toNat := by omega
    have hrest : (x.toNat + 256 * fromLe r) / 256 = fromLe r := by omega
    rw [fromLe, List.length_cons, toLe, hlow, hrest, ih, UInt8.ofNat_toNat]

theorem fromLe_toLe_of_lt {w n : Nat} (h : n < 256 ^ w) : fromLe (toLe w n) = n := by
  rw [fromLe_toLe, Nat.mod_eq_of_lt h]

end Bytes

end FuseCompress
