import FuseCompress.Fsck
import FuseCompress.Theorems.Decompression

/-!
# What the checker accepts

`checkfile` and `do_decompress` agree on a compressed file unless its header is damaged or its stream is longer than the header
says. The checker stops when it has seen as many bytes as the header says and does not look behind them; it looks at the result of
closing the stream, which `do_decompress` does not.
-/

namespace FuseCompress

variable {Γ : Config} {opens : Readers} {garbage size : Int} {closed : Bool} {b : Bytes} {m : Module} {rd rd' : Reader}

/-! ## The two loops -/

theorem Reader.read_full {n : Nat} (h : n ≤ rd.rest.length) :
    rd.read n = some (rd.rest.take n, { rd with rest := rd.rest.drop n }) := if_pos h

theorem Reader.read_short (rd : Reader) {n : Nat} (h : rd.rest.length < n) :
    rd.read n = if rd.sound then some (rd.rest, { rd with rest := [] }) else none := if_neg (Nat.not_le.mpr h)

theorem decompressLoop_none (h : rd.read moduleBufSize = none) : decompressLoop rd = none := by
  rw [decompressLoop]
  split
  · rfl
  · rename_i hread
    rw [h] at hread
    cases hread

theorem decompressLoop_some {buf : Bytes} (h : rd.read moduleBufSize = some (buf, rd')) :
    decompressLoop rd = if buf = [] then some 0 else (decompressLoop rd').map (fun size => buf.length + size) := by
  rw [decompressLoop]
  split
  · rename_i hread
    rw [h] at hread
    cases hread
  · rename_i hread
    rw [h] at hread
    cases hread
    rfl

/-- The loop of a module delivers the whole stream unless it is damaged. -/
theorem decompressLoop_eq (rd : Reader) : decompressLoop rd = if rd.sound then some rd.rest.length else none := by
  induction hn : rd.rest.length using Nat.strong_induction_on generalizing rd with
  | _ n ih =>
    by_cases hfull : moduleBufSize ≤ rd.rest.length
    · have hpos : 0 < moduleBufSize := by decide
      have hlength : (rd.rest.take moduleBufSize).length = moduleBufSize := by rw [List.length_take, min_eq_left hfull]
      have hbuf : rd.rest.take moduleBufSize ≠ [] := by
        intro hnil
        rw [hnil, List.length_nil] at hlength
        omega
      have hrest := ih (rd.rest.drop moduleBufSize).length (by rw [List.length_drop]; omega)
        { rd with rest := rd.rest.drop moduleBufSize } rfl
      rw [decompressLoop_some (Reader.read_full hfull), if_neg hbuf, hrest, List.length_drop, hlength]
      cases rd.sound with
      | false => rfl
      | true =>
        simp only [if_true, Option.map_some, Option.some.injEq]
        omega
    · have hread := Reader.read_short rd (Nat.lt_of_not_le hfull)
      cases hsound : rd.sound with
      | false =>
        rw [hsound, if_neg Bool.false_ne_true] at hread
        exact decompressLoop_none hread
      | true =>
        rw [hsound, if_pos rfl] at hread
        rw [decompressLoop_some hread]
        split
        · rename_i hnil
          rw [if_pos rfl, ← hn, hnil, List.length_nil]
        · rename_i hne
          have hlt : 0 < rd.rest.length := List.length_pos_iff.mpr hne
          have hempty := ih 0 (by omega) { rd with rest := [], sound := true } rfl
          rw [hempty, if_pos rfl, if_pos rfl, Option.map_some, Nat.add_zero, hn]

theorem checkLoop_zero (rd : Reader) : checkLoop rd 0 = .fine := by
  rw [checkLoop, if_pos rfl]

theorem checkLoop_none (h0 : size ≠ 0) (hn : checkRequest size ≤ bufsize) (h : rd.read (checkRequest size) = none) :
    checkLoop rd size = .error .failReadDecomp := by
  rw [checkLoop, if_neg h0, if_neg (Nat.not_lt.mpr hn)]
  split
  · rfl
  · rename_i hread
    rw [h] at hread
    cases hread

theorem checkLoop_some {buf : Bytes} (h0 : size ≠ 0) (hn : checkRequest size ≤ bufsize)
    (h : rd.read (checkRequest size) = some (buf, rd')) :
    checkLoop rd size = if buf = [] then .error .shortReadDecomp else checkLoop rd' (size - buf.length) := by
  rw [checkLoop, if_neg h0, if_neg (Nat.not_lt.mpr hn)]
  split
  · rename_i hread
    rw [h] at hread
    cases hread
  · rename_i hread
    rw [h] at hread
    cases hread
    rfl

/-- As long as the size is not negative, the checker asks for bytes it has room for. -/
theorem checkRequest_natCast (n : Nat) : checkRequest n = min n bufsize := by
  unfold checkRequest asU32
  have hbufsize : bufsize = 131072 := rfl
  split <;> omega

/-- The loop of the checker finds no error exactly when there are enough bytes, whatever is behind them. -/
theorem checkLoop_natCast (rd : Reader) (n : Nat) :
    checkLoop rd n =
      if n ≤ rd.rest.length then .fine else if rd.sound then .error .shortReadDecomp else .error .failReadDecomp := by
  have hbufsize : bufsize = 131072 := rfl
  induction n using Nat.strong_induction_on generalizing rd with
  | _ n ih =>
    rcases Nat.eq_zero_or_pos n with rfl | hpos
    · rw [if_pos (Nat.zero_le _)]
      exact checkLoop_zero rd
    have h0 : (n : Int) ≠ 0 := by omega
    have hrequest := checkRequest_natCast n
    have hroom : checkRequest n ≤ bufsize := hrequest ▸ Nat.min_le_right _ _
    by_cases hfull : checkRequest n ≤ rd.rest.length
    · -- a full buffer, or the last one
      have hlength : (rd.rest.take (checkRequest n)).length = checkRequest n := by rw [List.length_take, min_eq_left hfull]
      have hbuf : rd.rest.take (checkRequest n) ≠ [] := by
        intro hnil
        rw [hnil, List.length_nil] at hlength
        omega
      rw [checkLoop_some h0 hroom (Reader.read_full hfull), if_neg hbuf, hlength]
      have hcast : (n : Int) - (checkRequest n : Nat) = (n - checkRequest n : Nat) := by omega
      rw [hcast, ih (n - checkRequest n) (by omega), List.length_drop]
      have hiff : n - checkRequest n ≤ rd.rest.length - checkRequest n ↔ n ≤ rd.rest.length := by omega
      rw [if_congr hiff rfl rfl]
    · have hread := Reader.read_short rd (Nat.lt_of_not_le hfull)
      have hshort : ¬n ≤ rd.rest.length := by omega
      rw [if_neg hshort]
      cases hsound : rd.sound with
      | false =>
        rw [hsound, if_neg Bool.false_ne_true] at hread
        rw [checkLoop_none h0 hroom hread, if_neg Bool.false_ne_true]
      | true =>
        rw [hsound, if_pos rfl] at hread
        rw [checkLoop_some h0 hroom hread, if_pos rfl]
        split
        · rfl
        · rename_i hne
          have hlt : 0 < rd.rest.length := List.length_pos_iff.mpr hne
          have hcast : (n : Int) - (rd.rest.length : Nat) = (n - rd.rest.length : Nat) := by omega
          rw [hcast, ih (n - rd.rest.length) (by omega), if_neg (by rw [List.length_nil]; omega), if_pos rfl]

/-- The loop never blames the header. -/
theorem checkLoop_ne_brokenHeader (rd : Reader) (size : Int) : checkLoop rd size ≠ .error .brokenHeader := by
  induction hn : rd.rest.length using Nat.strong_induction_on generalizing rd size with
  | _ n ih =>
    rw [checkLoop]
    split
    · exact (fun h => by cases h)
    split
    · exact (fun h => by cases h)
    split
    · exact (fun h => by cases h)
    · rename_i buf rd' hread
      split
      · exact (fun h => by cases h)
      · rename_i hne
        obtain ⟨hrest, -, -⟩ := Reader.length_read hread
        have hlt : 0 < buf.length := List.length_pos_iff.mpr hne
        exact ih rd'.rest.length (by rw [← hn, hrest, List.length_append]; omega) rd' _ rfl

/-! ## `do_decompress` -/

/-- `do_decompress` accepts a sound stream that is as long as the header says. -/
theorem decompresses_iff (hparse : parse Γ b = some (m, size)) (hopen : opens m (b.drop headerSize) = some rd) :
    Decompresses Γ opens b ↔ rd.sound = true ∧ (rd.rest.length : Int) = size := by
  constructor
  · rintro ⟨m', size', rd', n, hparse', hopen', hloop, hn⟩
    rw [hparse] at hparse'
    cases hparse'
    rw [hopen] at hopen'
    cases hopen'
    rw [decompressLoop_eq] at hloop
    split at hloop
    · rename_i hsound
      cases hloop
      exact ⟨hsound, hn⟩
    · cases hloop
  · rintro ⟨hsound, hlength⟩
    exact ⟨m, size, rd, rd.rest.length, hparse, hopen, by rw [decompressLoop_eq, if_pos hsound], hlength⟩

/-- A module decodes what its `Reader` delivers. -/
def Readers.Agree (opens : Readers) (Γ : Config) : Prop :=
  ∀ m stream, (Γ.codec m).decode stream = (opens m stream).bind (fun rd => if rd.sound then some rd.rest else none)

/-- It is the size check of `do_decompress` that the checker repeats. -/
theorem doDecompress_iff_decompresses {s : State} {env : Env} {f i : Nat} (hagree : opens.Agree Γ) (he : env.AllOk)
    (hino : s.fs.inoOf (s.files f).filename = some i) (hspace : enoughSpace Γ env (s.files f).size = true)
    (hhead : (s.files f).head = []) (hparse : parse Γ (s.data i) = some (m, size))
    (hcomp : (s.files f).compressor = none ∨ (s.files f).compressor = some m) :
    (doDecompress Γ env s f).2 = true ↔ Decompresses Γ opens (s.data i) := by
  obtain ⟨hfs, -, hhead', hname, hcomp'⟩ := flushFileCache_same s f
  have hfind : s.fs.find (s.files f).filename ≠ none := by
    rw [Backing.inoOf_eq_some.mp hino]
    exact Option.some_ne_none _
  have hmodule : (s.files f).compressor.getD m = m := by
    rcases hcomp with hnone | hsome
    · rw [hnone]
      rfl
    · rw [hsome]
      rfl
  unfold doDecompress
  rw [if_neg (by simp [he .statvfs, hfind]), if_neg (by simp [hspace])]
  dsimp only
  generalize flushFileCache s f = s₁ at hfs hhead' hname hcomp' ⊢
  have hdata : s₁.data i = s.data i := by
    rw [State.data, hfs]
    rfl
  rw [if_pos (he .open), hfs, hname, hino]
  dsimp only
  rw [if_neg (by simp [he .readHeader]), hdata, hparse]
  dsimp only
  simp only [State.files_modFile, if_true, Option.getD_some, hcomp', hmodule, decide_true, State.assert_true, hhead', hhead,
    closeAll, he .fstat, he .mkstemp, he .decompress, Bool.true_eq_false, if_false, State.data_modFile, hdata, hagree m]
  cases hopen : opens m ((s.data i).drop headerSize) with
  | none =>
    simp only [Option.bind_none, Bool.false_eq_true, false_iff]
    rintro ⟨m', size', rd, n, hparse', hopen', -⟩
    rw [hparse] at hparse'
    cases hparse'
    rw [hopen] at hopen'
    cases hopen'
  | some rd =>
    rw [decompresses_iff hparse hopen, Option.bind_some]
    cases rd.sound with
    | false => simp
    | true =>
      simp only [if_true, true_and]
      split
      · rename_i hne
        exact ⟨fun h => (by cases h), fun h => absurd h hne⟩
      · rename_i heq
        unfold doDecompressInstall
        simp [he .rename, he .utime, not_not.mp heq]

/-! ## `checkfile` -/

/-- What the checker promises about a file with contents `b`. -/
structure Faithful (Γ : Config) (opens : Readers) (b : Bytes) (v : Verdict) : Prop where
  calls : v ≠ .badCall
  requests : ∀ n, v ≠ .overrun n
  raw : b.take 3 ≠ magic → v = .fine
  header : b.take 3 = magic → (∀ m size, parse Γ b = some (m, size) → size < 0) → v = .error .brokenHeader
  stream : ∀ m size, parse Γ b = some (m, size) → 0 ≤ size → (v = .fine ↔ Decompresses Γ opens b)

/-- The condition: a header that is complete, names a module and a size that is not negative, and a stream that, if it is as long
as that, can be closed exactly when it ends there. -/
def EndsInTime (Γ : Config) (opens : Readers) (closed : Bool) (b : Bytes) : Prop :=
  b.take 3 = magic → ∃ m size, parse Γ b = some (m, size) ∧ 0 ≤ size ∧
    ∀ rd, opens m (b.drop headerSize) = some rd → size ≤ rd.rest.length →
      (closed = true ↔ (rd.rest.length : Int) = size ∧ rd.sound = true)

theorem take_eq_magic_of_parse (h : parse Γ b = some (m, size)) : b.take 3 = magic := by
  unfold parse fileCompressor at h
  split at h
  · cases h
  · split at h
    · cases h
    · rename_i hmagic
      exact not_not.mp hmagic

/-- The checker on a file whose header names no module. -/
theorem checkfile_of_parse_none (hmagic : b.take 3 = magic) (h : parse Γ b = none) :
    checkfile Γ opens garbage closed b = .badCall := by
  have hheader : checkHeader Γ b .unset garbage = (.unset, garbage) ∨ checkHeader Γ b .unset garbage = (.null, garbage) := by
    unfold checkHeader
    by_cases hshort : b.length < headerSize
    · left
      exact if_pos hshort
    · right
      rw [parse, if_neg hshort, Option.map_eq_none_iff] at h
      rw [if_neg hshort, fileReadHeader, if_neg hshort, h]
  unfold checkfile
  rw [if_neg (not_not.mpr hmagic)]
  rcases hheader with hheader | hheader
  · rw [hheader]
  · rw [hheader]

/-- The checker on a file whose header names a module. -/
theorem checkfile_of_parse (h : parse Γ b = some (m, size)) :
    checkfile Γ opens garbage closed b =
      ((opens m (b.drop headerSize)).map (fun rd => (checkLoop rd size).close closed)).getD (.error .failOpenDecomp) := by
  have hlong : ¬b.length < headerSize := by
    intro hshort
    rw [parse, if_pos hshort] at h
    cases h
  unfold checkfile
  rw [if_neg (not_not.mpr (take_eq_magic_of_parse h))]
  unfold checkHeader
  rw [if_neg hlong, fileReadHeader_of_parse h]
  dsimp only
  cases opens m (b.drop headerSize) <;> rfl

/-- A stream that is closed behind its last byte passes when closing it succeeds. -/
theorem Verdict.close_fine_iff (closed : Bool) : Verdict.close closed .fine = .fine ↔ closed = true := by
  cases closed with
  | false => exact ⟨fun h => (by cases h), fun h => (by cases h)⟩
  | true => exact ⟨fun _ => rfl, fun _ => rfl⟩

theorem Verdict.close_ite {p : Prop} [Decidable p] (closed : Bool) (v w : Verdict) :
    (if p then v else w).close closed = if p then v.close closed else w.close closed := apply_ite (Verdict.close closed) p v w

/-- Closing blames no header. -/
theorem Verdict.close_ne_brokenHeader {v : Verdict} (h : v ≠ .error .brokenHeader) (closed : Bool) :
    v.close closed ≠ .error .brokenHeader := by
  cases v with
  | fine =>
    cases closed with
    | false => exact (fun h => by cases h)
    | true => exact (fun h => by cases h)
  | _ => exact h

/-- The promises about a file with a size that is not negative. -/
theorem faithful_iff_of_natCast {n : Nat} (hparse : parse Γ b = some (m, (n : Int))) :
    Faithful Γ opens b (checkfile Γ opens garbage closed b) ↔
      ∀ rd, opens m (b.drop headerSize) = some rd → n ≤ rd.rest.length →
        (closed = true ↔ rd.rest.length = n ∧ rd.sound = true) := by
  have hmagic := take_eq_magic_of_parse hparse
  have hheader : ¬∀ m size, parse Γ b = some (m, size) → size < 0 := by
    intro h
    have := h m n hparse
    omega
  rw [checkfile_of_parse hparse]
  cases hopen : opens m (b.drop headerSize) with
  | none =>
    simp only [Option.map_none, Option.getD_none, reduceCtorEq, false_implies, implies_true, iff_true]
    refine ⟨(fun h => by cases h), (fun _ h => by cases h), fun h => absurd hmagic h, fun _ h => absurd h hheader, ?_⟩
    intro m' size hparse' _
    rw [hparse] at hparse'
    cases hparse'
    constructor
    · intro h
      cases h
    · rintro ⟨m', size', rd, n', hparse', hopen', -⟩
      rw [hparse] at hparse'
      cases hparse'
      rw [hopen] at hopen'
      cases hopen'
  | some rd =>
    simp only [Option.map_some, Option.getD_some, Option.some.injEq, forall_eq']
    rw [checkLoop_natCast, Verdict.close_ite, Verdict.close_ite]
    have haccepts : Decompresses Γ opens b ↔ rd.rest.length = n ∧ rd.sound = true := by
      rw [decompresses_iff hparse hopen, Int.natCast_inj, and_comm]
    constructor
    · intro h hle
      rw [← haccepts, ← h.stream m n hparse (Int.natCast_nonneg n), if_pos hle]
      exact (Verdict.close_fine_iff closed).symm
    · intro h
      refine ⟨?_, ?_, fun hraw => absurd hmagic hraw, fun _ h => absurd h hheader, ?_⟩
      · cases closed <;> split_ifs <;> exact (fun h => by cases h)
      · intro k
        cases closed <;> split_ifs <;> exact (fun h => by cases h)
      · intro m' size hparse' _
        rw [hparse] at hparse'
        cases hparse'
        rw [haccepts]
        by_cases hle : n ≤ rd.rest.length
        · rw [if_pos hle, Verdict.close_fine_iff, h hle]
        · rw [if_neg hle]
          constructor
          · intro hfine
            split_ifs at hfine <;> cases hfine
          · rintro ⟨hlength, -⟩
            omega

/-- The module `null`, whose stream is what follows the header. -/
def Readers.stored : Readers := fun _ stream => some ⟨stream, true⟩

end FuseCompress
