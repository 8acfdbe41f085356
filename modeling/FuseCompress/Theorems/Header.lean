import FuseCompress.File
import Mathlib.Tactic.IntervalCases

/-!
# The header

`file_read_header_fd` against `file_write_header`. It takes what the other one writes, and nothing else, but for three corners: of a
file that is too short it leaves the module as it was instead of setting it to NULL, the type 5 lies one place behind the table of
modules, and the size -1 is taken although it is never written.
-/

namespace FuseCompress

variable {Γ : Config} {data : Bytes} {m : Module} {n : Int}

/-- The numbers an `off_t` holds. -/
def IsOff (n : Int) : Prop := -2 ^ 63 ≤ n ∧ n < 2 ^ 63

/-- `file_write_header`: the bytes it writes. A program with assertions does not get so far with the size -1. -/
def fileWriteHeader (Γ : Config) (m : Module) (size : Int) : Option Bytes :=
  if Γ.assertions ∧ size = -1 then none else some (header m size)

/-- The first bytes of a file are those of a header of a module that is compiled in. -/
def Encodes (Γ : Config) (data : Bytes) (m : Module) (n : Int) : Prop :=
  m.Available Γ ∧ IsOff n ∧ fileWriteHeader Γ m n = some (data.take headerSize)

/-- The `type` byte of a header. -/
def headerType (data : Bytes) : Nat := ((data.drop 3).headD 0).toNat

/-- The place of the table `compressors` that `find_compressor` looks at when a header is read. -/
def headerIndex (data : Bytes) : Option Nat :=
  if data.length < headerSize ∨ data.take 3 ≠ magic ∨ headerType data > 5 then none else some (headerType data)

/-- What the comment of `file_read_header_fd` says of its outputs, which were `c` and `s` before and are `r` now, and that
`find_compressor` stays within the table. -/
structure HeaderDecoded (Γ : Config) (data : Bytes) (c : Option Module) (s : Int) (r : Option Module × Int) : Prop where
  valid : ∀ m n, Encodes Γ data m n → r = (some m, n)
  invalid : (¬∃ m n, Encodes Γ data m n) → r = (none, s)
  index : ∀ i, headerIndex data = some i → i < 5

/-! ## The numbers in a header -/

theorem asS64_asU64 (h : IsOff n) : asS64 (asU64 n) = n := by
  obtain ⟨hlo, hhi⟩ := h
  unfold asS64 asU64
  split
  · omega
  · omega

theorem asU64_asS64 {k : Nat} (h : k < 2 ^ 64) : asU64 (asS64 k) = k := by
  unfold asS64 asU64
  split
  · omega
  · omega

theorem asS64_isOff {k : Nat} (h : k < 2 ^ 64) : IsOff (asS64 k) := by
  unfold IsOff asS64
  split
  · omega
  · omega

theorem asU64_lt (n : Int) : asU64 n < 2 ^ 64 := by
  unfold asU64
  omega

/-! ## What is read -/

/-- The table has a module at its own place, as far as the table goes. -/
theorem type_of_compressors {i : Nat} (hi : i < 5) (h : compressors Γ i = some m) : m.type = i ∧ m.Available Γ := by
  have hoptional : ∀ {b : Bool} {m' : Module}, (if b then some m' else none) = some m → m = m' := by
    intro b m' hm
    split at hm
    · exact (Option.some.inj hm).symm
    · cases hm
  have htype : m.type = i := by
    interval_cases i
    · cases h
      rfl
    · rw [hoptional h]
      rfl
    · rw [hoptional h]
      rfl
    · rw [hoptional h]
      rfl
    · rw [hoptional h]
      rfl
  refine ⟨htype, ?_⟩
  unfold Module.Available
  rw [htype]
  exact h

/-- The module that a header names is the one that `find_compressor` finds at its place. -/
theorem parse_eq_of_headerIndex {i : Nat} (h : headerIndex data = some i) :
    parse Γ data = (compressors Γ i).map (fun m => (m, asS64 (Bytes.fromLe (Bytes.slice data 4 8)))) := by
  unfold headerIndex at h
  split at h
  · cases h
  · rename_i hheader
    rw [not_or, not_or] at hheader
    obtain ⟨hlen, hmagic, htype⟩ := hheader
    cases h
    unfold parse fileCompressor findCompressor
    rw [if_neg hlen, if_neg hmagic]
    unfold headerType at htype ⊢
    rw [if_neg htype]

theorem parse_eq_none_of_headerIndex (h : headerIndex data = none) : parse Γ data = none := by
  unfold headerIndex at h
  split at h
  · rename_i hheader
    unfold headerType at hheader
    unfold parse fileCompressor findCompressor
    split
    · rfl
    · rename_i hlen
      split
      · rfl
      · rename_i hmagic
        rw [if_pos ((hheader.resolve_left hlen).resolve_left hmagic)]
        rfl
  · cases h

/-- A header is its four parts. -/
theorem take_eq_header (hlen : headerSize ≤ data.length) (hmagic : data.take 3 = magic) (htype : m.type = headerType data)
    (hn : asU64 n = Bytes.fromLe (Bytes.slice data 4 8)) : data.take headerSize = header m n := by
  have hslice : (Bytes.slice data 4 8).length = 8 := by
    rw [Bytes.length_slice]
    unfold headerSize at hlen
    omega
  have hsize : Bytes.toLe 8 (asU64 n) = Bytes.slice data 4 8 := by
    have h := Bytes.toLe_fromLe (Bytes.slice data 4 8)
    rw [hslice] at h
    rw [hn, h]
  have hbyte : [UInt8.ofNat m.type] = (data.drop 3).take 1 := by
    rw [htype]
    unfold headerType
    cases hdrop : data.drop 3 with
    | nil =>
      have hshort := List.drop_eq_nil_iff.mp hdrop
      unfold headerSize at hlen
      omega
    | cons x rest => simp
  unfold header
  rw [hsize, hbyte, ← hmagic]
  unfold Bytes.slice headerSize
  rw [show (12 : Nat) = 3 + (1 + 8) by rfl, List.take_add, List.take_add, List.drop_drop, List.append_assoc]

/-- The parts of a file that starts with a header. -/
theorem parts_of_take (h : data.take headerSize = header m n) :
    headerSize ≤ data.length ∧ data.take 3 = magic ∧ headerType data = m.type ∧
      Bytes.fromLe (Bytes.slice data 4 8) = asU64 n := by
  have hdata : data = header m n ++ data.drop headerSize := by
    rw [← h, List.take_append_drop]
  have htype : (UInt8.ofNat m.type).toNat = m.type := by cases m <;> rfl
  have hlen : headerSize ≤ data.length := by
    have hl := congrArg List.length h
    rw [length_header, List.length_take] at hl
    omega
  refine ⟨hlen, ?_, ?_, ?_⟩
  · rw [hdata]
    rfl
  · rw [hdata]
    exact htype
  · rw [hdata]
    have hslice : Bytes.slice (header m n ++ data.drop headerSize) 4 8 = Bytes.toLe 8 (asU64 n) := by
      simp [Bytes.slice, header, magic]
    rw [hslice, Bytes.fromLe_toLe_of_lt (asU64_lt n)]

/-- A header of a module that is compiled in reads as that module and the size it was written with. -/
theorem parse_of_encodes (h : Encodes Γ data m n) : parse Γ data = some (m, n) := by
  obtain ⟨hm, hoff, hwrite⟩ := h
  unfold fileWriteHeader at hwrite
  split at hwrite
  · cases hwrite
  · obtain ⟨hlen, hmagic, htype, hsize⟩ := parts_of_take (Option.some.inj hwrite).symm
    have hindex : headerIndex data = some m.type := by
      unfold headerIndex
      rw [htype, if_neg]
      rw [not_or, not_or, not_not]
      refine ⟨Nat.not_lt.mpr hlen, hmagic, ?_⟩
      cases m <;> decide
    have hm' : compressors Γ m.type = some m := hm
    rw [parse_eq_of_headerIndex hindex, hm', hsize, asS64_asU64 hoff]
    rfl

/-- What reads as a header is one, unless its type lies behind the table, or its size is -1 and the program has assertions. -/
theorem encodes_of_parse (h : parse Γ data = some (m, n)) (hindex : ∀ i, headerIndex data = some i → i < 5)
    (hsize : ¬(Γ.assertions = true ∧ n = -1)) : Encodes Γ data m n := by
  cases hi : headerIndex data with
  | none =>
    rw [parse_eq_none_of_headerIndex hi] at h
    cases h
  | some i =>
    rw [parse_eq_of_headerIndex hi, Option.map_eq_some_iff] at h
    obtain ⟨m', hm, e⟩ := h
    cases e
    obtain ⟨htype, havailable⟩ := type_of_compressors (hindex i hi) hm
    unfold headerIndex at hi
    split at hi
    · cases hi
    · rename_i hheader
      rw [not_or, not_or, not_not, Nat.not_lt] at hheader
      have hlt : Bytes.fromLe (Bytes.slice data 4 8) < 2 ^ 64 := by
        have hlt := Bytes.fromLe_lt (Bytes.slice data 4 8)
        have hlen : (Bytes.slice data 4 8).length ≤ 8 := by
          rw [Bytes.length_slice]
          omega
        have hpow : 256 ^ (Bytes.slice data 4 8).length ≤ 256 ^ 8 := Nat.pow_le_pow_right (by decide) hlen
        omega
      refine ⟨havailable, asS64_isOff hlt, ?_⟩
      unfold fileWriteHeader
      rw [if_neg hsize]
      exact congrArg some (take_eq_header hheader.1 hheader.2.1 (htype.trans (Option.some.inj hi).symm) (asU64_asS64 hlt)).symm

/-- The outputs are what the comment says exactly when the module was NULL before if the file is too short for a header, the type is
not the one behind the table, and in a program with assertions the size is not -1. What is written for a size from 0 on is always
read back. -/
theorem fileReadHeader_decoded_iff (Γ : Config) (data : Bytes) (c : Option Module) (s : Int) :
    (HeaderDecoded Γ data c s (fileReadHeader Γ data c s) ↔
      (data.length < headerSize → c = none) ∧ headerIndex data ≠ some 5 ∧
        ∀ m, parse Γ data = some (m, -1) → Γ.assertions = false) ∧
      ∀ (m : Module) (n : Nat) (rest : Bytes), m.Available Γ → n < 2 ^ 63 →
        fileReadHeader Γ (header m n ++ rest) c s = (some m, (n : Int)) := by
  refine ⟨?_, fun m n rest hm hn => fileReadHeader_of_parse (parse_header hm hn rest) c s⟩
  have hbound : ∀ i, headerIndex data = some i → i ≤ 5 := by
    intro i hi
    unfold headerIndex at hi
    split at hi
    · cases hi
    · rename_i hheader
      rw [not_or, not_or] at hheader
      cases hi
      exact Nat.le_of_not_lt hheader.2.2
  constructor
  · intro h
    refine ⟨fun hshort => ?_, fun hfive => ?_, fun m hparse => ?_⟩
    · have hnone : parse Γ data = none := by
        unfold parse
        rw [if_pos hshort]
      have hr := h.invalid (fun ⟨m, n, hencodes⟩ => by
        rw [parse_of_encodes hencodes] at hnone
        cases hnone)
      rw [fileReadHeader_of_parse_none hnone, if_pos hshort] at hr
      exact congrArg Prod.fst hr
    · exact absurd (h.index 5 hfive) (by decide)
    · rw [← Bool.not_eq_true]
      intro hassertions
      have hr := h.invalid (fun ⟨m', n, hencodes⟩ => by
        have heq := (parse_of_encodes hencodes).symm.trans hparse
        cases heq
        obtain ⟨-, -, hwrite⟩ := hencodes
        unfold fileWriteHeader at hwrite
        rw [if_pos ⟨hassertions, rfl⟩] at hwrite
        cases hwrite)
      rw [fileReadHeader_of_parse hparse] at hr
      cases hr
  · rintro ⟨hshort, hfive, hminus⟩
    have hindex : ∀ i, headerIndex data = some i → i < 5 := by
      intro i hi
      refine Nat.lt_of_le_of_ne (hbound i hi) ?_
      rintro rfl
      exact hfive hi
    refine ⟨fun m n hencodes => fileReadHeader_of_parse (parse_of_encodes hencodes) c s, fun hno => ?_, hindex⟩
    cases hparse : parse Γ data with
    | none =>
      rw [fileReadHeader_of_parse_none hparse]
      split
      · rename_i hlen
        rw [hshort hlen]
      · rfl
    | some r =>
      obtain ⟨m, n⟩ := r
      refine absurd ⟨m, n, encodes_of_parse hparse hindex ?_⟩ hno
      rintro ⟨hassertions, rfl⟩
      rw [hminus m hparse] at hassertions
      cases hassertions

/-- An empty file leaves the module that was there. -/
theorem emptyFile_not_decoded : ¬∀ (Γ : Config) (data : Bytes) (c : Option Module) (s : Int),
    HeaderDecoded Γ data c s (fileReadHeader Γ data c s) := by
  intro h
  have hr := (h .plain [] (some .null) 0).invalid (fun ⟨m, n, hencodes⟩ => by
    have hparse : parse .plain [] = some (m, n) := parse_of_encodes hencodes
    cases hparse)
  cases hr

end FuseCompress
