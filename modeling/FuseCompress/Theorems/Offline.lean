import FuseCompress.Offline
import FuseCompress.Theorems.CompleteCopy
import Mathlib.Data.Prod.Lex

/-!
# What the offline converter does to the contents of a file

A file contains what it holds or, with a header, what the module of the header decodes. `transform` keeps that when the temporary
file is complete; it finds out about failures, but not about short writes, a stream of another length than the header says, and a
file that it was to recompress and could not decompress.
-/

namespace FuseCompress

variable {Γ : Config} {libs : Libraries} {turns : Nat} {comp recomp : Option Module} {inner p : Pass} {name : Filename}
  {b b' : Bytes} {m : Module} {n : Int} {rd : Reader}

/-! ## Streams -/

/-- A module gets so much out of a stream. -/
def Module.Delivers (libs : Libraries) (stream : Bytes) (rd : Reader) (m : Module) : Prop :=
  ∃ turns, m.deliver libs turns stream = some rd

theorem lzoDeliver_succ {lib : Lzo1x} {file : LzoFile} (h : lzoDeliver lib turns file = some rd) :
    lzoDeliver lib (turns + 1) file = some rd := by
  induction turns generalizing file rd with
  | zero => cases h
  | succ turns ih =>
    rw [lzoDeliver] at h ⊢
    split at h
    · exact h
    · split at h
      · rename_i hnil
        rw [if_pos hnil]
        exact h
      · rename_i hne
        rw [if_neg hne]
        obtain ⟨rest, hrest, hrd⟩ := Option.map_eq_some_iff.mp h
        rw [ih hrest, Option.map_some, hrd]

theorem lzoDeliver_le {lib : Lzo1x} {file : LzoFile} {turns' : Nat} (h : lzoDeliver lib turns file = some rd) (hle : turns ≤ turns') :
    lzoDeliver lib turns' file = some rd := by
  induction hle with
  | refl => exact h
  | step _ ih => exact lzoDeliver_succ ih

theorem Module.deliver_le {turns' : Nat} {stream : Bytes} (h : m.deliver libs turns stream = some rd) (hle : turns ≤ turns') :
    m.deliver libs turns' stream = some rd := by
  cases m with
  | lzo => exact lzoDeliver_le h hle
  | null => exact h
  | bz2 => exact h
  | gzip => exact h
  | lzma => exact h

/-- A module gets the same out of a stream however often it is asked. -/
theorem Module.Delivers.unique {stream : Bytes} {rd' : Reader} (h : m.Delivers libs stream rd) (h' : m.Delivers libs stream rd') :
    rd = rd' := by
  obtain ⟨turns, h⟩ := h
  obtain ⟨turns', h'⟩ := h'
  have hmax := Module.deliver_le h (Nat.le_max_left turns turns')
  rw [Module.deliver_le h' (Nat.le_max_right turns turns')] at hmax
  exact (Option.some.inj hmax).symm

theorem Module.Decodes.eq_rest {stream d : Bytes} (h : m.Decodes libs stream d) (hd : m.Delivers libs stream rd) : d = rd.rest := by
  have hread : (⟨d, true⟩ : Reader) = rd := Module.Delivers.unique h hd
  rw [← hread]

/-- What an open `lzo` file still has in front of it: bytes of the file, and in front of these bytes of the block. -/
def LzoFile.left (file : LzoFile) : Nat ×ₗ Nat := toLex (file.data.length - file.pos, file.block.usize - file.blockoff)

/-- A block has been read, or the file was at its end. -/
theorem lzoreadblock_pos {lib : Lzo1x} {file file' : LzoFile} (h : lzoreadblock lib file = (file', true)) :
    file'.data = file.data ∧
      (file.pos < file'.pos ∧ file.pos < file.data.length ∨ file'.pos = file.pos ∧ file'.block.usize = 0) := by
  have hlen : (file.get lzoHeadSize).2.length = min lzoHeadSize (file.data.length - file.pos) := Bytes.length_slice _ _ _
  have hpos : (file.get lzoHeadSize).1.pos = file.pos + (file.get lzoHeadSize).2.length := rfl
  unfold lzoreadblock at h
  dsimp only at h
  split at h
  · rename_i hend
    cases h
    exact ⟨rfl, Or.inr ⟨by rw [lzoclearblock, hpos, hend, Nat.add_zero], rfl⟩⟩
  · split at h
    · cases h
    · obtain ⟨hdata, hle⟩ := lzoreadblock'_pos lib (file.get lzoHeadSize).1 (LzoHead.ofBytes (file.get lzoHeadSize).2)
      rw [h] at hdata hle
      exact ⟨hdata, Or.inl ⟨by dsimp only at hle; omega, by omega⟩⟩

theorem lzoreadblock_left {lib : Lzo1x} {file file' : LzoFile} (h : lzoreadblock lib { file with blockoff := 0 } = (file', true)) :
    file'.left ≤ file.left := by
  obtain ⟨hdata, hpos⟩ := lzoreadblock_pos h
  dsimp only at hdata hpos
  unfold LzoFile.left
  rw [Prod.Lex.toLex_le_toLex, hdata]
  dsimp only
  rcases hpos with ⟨hlt, hle⟩ | ⟨heq, hzero⟩
  · left
    omega
  · right
    rw [heq, hzero]
    exact ⟨rfl, by omega⟩

theorem lzoread_left {lib : Lzo1x} {file file' : LzoFile} {n : Nat} {buf : Bytes} (h : lzoread lib file n = (file', some buf)) :
    file'.left ≤ file.left ∧ (buf ≠ [] → file'.left < file.left) := by
  induction file, n using lzoread.induct lib generalizing file' buf with
  | case1 file =>
    rw [lzoread, if_pos rfl] at h
    cases h
    exact ⟨le_refl _, fun hne => absurd rfl hne⟩
  | case2 file n hn hroom ih =>
    rw [lzoread, if_neg hn, if_pos hroom] at h
    dsimp only at h
    obtain ⟨hfile, hbuf⟩ := Prod.mk.inj h
    obtain ⟨rest, hrest, -⟩ := Option.map_eq_some_iff.mp hbuf
    have hle := (ih (Prod.ext hfile hrest)).1
    have hlt : ({ file with blockoff := file.blockoff + 1 } : LzoFile).left < file.left := by
      unfold LzoFile.left
      rw [Prod.Lex.toLex_lt_toLex]
      right
      exact ⟨rfl, by dsimp only; omega⟩
    exact ⟨hle.trans hlt.le, fun _ => hle.trans_lt hlt⟩
  | case3 file n hn hroom file₁ hblock =>
    rw [lzoread, if_neg hn, if_neg hroom, hblock] at h
    cases h
  | case4 file n hn hroom file₁ hblock hnone =>
    rw [lzoread, if_neg hn, if_neg hroom, hblock] at h
    dsimp only at h
    rw [if_pos hnone] at h
    cases h
    exact ⟨lzoreadblock_left hblock, fun hne => absurd rfl hne⟩
  | case5 file n hn hroom file₁ hblock hsome ih =>
    rw [lzoread, if_neg hn, if_neg hroom, hblock] at h
    dsimp only at h
    rw [if_neg hsome] at h
    obtain ⟨hdata, hpos, hlt⟩ := lzoreadblock_lt hblock hsome
    have hleft : file₁.left < file.left := by
      unfold LzoFile.left
      rw [Prod.Lex.toLex_lt_toLex]
      left
      dsimp only at hdata hpos hlt ⊢
      rw [hdata]
      omega
    have hle := (ih h).1
    exact ⟨hle.trans hleft.le, fun _ => hle.trans_lt hleft⟩

/-- `lzoDecompress` comes to an end on every file. -/
theorem lzoDeliver_terminates (lib : Lzo1x) (file : LzoFile) : ∃ turns rd, lzoDeliver lib turns file = some rd := by
  induction hleft : file.left using WellFoundedLT.induction generalizing file with
  | _ left ih =>
    cases hread : lzoread lib file moduleBufSize with
    | mk file' r =>
      cases r with
      | none =>
        refine ⟨1, ⟨[], false⟩, ?_⟩
        rw [lzoDeliver, hread]
      | some buf =>
        by_cases hnil : buf = []
        · refine ⟨1, ⟨[], true⟩, ?_⟩
          rw [lzoDeliver, hread]
          exact if_pos hnil
        · obtain ⟨turns, rd, hrd⟩ := ih file'.left (hleft ▸ (lzoread_left hread).2 hnil) file' rfl
          refine ⟨turns + 1, { rd with rest := buf ++ rd.rest }, ?_⟩
          rw [lzoDeliver, hread]
          dsimp only
          rw [if_neg hnil, hrd, Option.map_some]

theorem Module.delivers_exists (libs : Libraries) (stream : Bytes) (m : Module) : ∃ rd, m.Delivers libs stream rd := by
  cases m with
  | lzo =>
    obtain ⟨turns, rd, hrd⟩ := lzoDeliver_terminates libs.lzo.lib (lzodopen stream 0 .read)
    exact ⟨rd, turns, hrd⟩
  | null => exact ⟨_, 0, rfl⟩
  | bz2 => exact ⟨_, 0, rfl⟩
  | gzip => exact ⟨_, 0, rfl⟩
  | lzma => exact ⟨_, 0, rfl⟩

/-! ## Contents -/

/-- What a file contains: the bytes that the module of its header decodes, as many as the header says, or its own. A damaged file
contains nothing. -/
def Contains (Γ : Config) (libs : Libraries) (b d : Bytes) : Prop :=
  match parse Γ b with
  | none => d = b
  | some (m, n) => m.Decodes libs (b.drop headerSize) d ∧ (d.length : Int) = n

/-- Two files contain the same, or both are damaged. -/
structure SameContent (Γ : Config) (libs : Libraries) (b b' : Bytes) : Prop where
  contains : ∀ d, Contains Γ libs b d ↔ Contains Γ libs b' d

theorem SameContent.refl (b : Bytes) : SameContent Γ libs b b := ⟨fun _ => Iff.rfl⟩

theorem SameContent.trans {b'' : Bytes} (h : SameContent Γ libs b b') (h' : SameContent Γ libs b' b'') : SameContent Γ libs b b'' :=
  ⟨fun d => (h.contains d).trans (h'.contains d)⟩

theorem contains_of_parse_none {d : Bytes} (h : parse Γ b = none) : Contains Γ libs b d ↔ d = b := by
  unfold Contains
  rw [h]

theorem contains_of_parse {d : Bytes} (h : parse Γ b = some (m, n)) :
    Contains Γ libs b d ↔ m.Decodes libs (b.drop headerSize) d ∧ (d.length : Int) = n := by
  unfold Contains
  rw [h]

/-- A stream that is sound and as long as the header says. -/
theorem sameContent_unpacked (hparse : parse Γ b = some (m, n)) (hd : m.Delivers libs (b.drop headerSize) rd) (hsound : rd.sound = true)
    (hlength : (rd.rest.length : Int) = n) (hraw : parse Γ rd.rest = none) : SameContent Γ libs b rd.rest := by
  refine ⟨fun d => ?_⟩
  rw [contains_of_parse hparse, contains_of_parse_none hraw]
  constructor
  · rintro ⟨hdecodes, -⟩
    exact hdecodes.eq_rest hd
  · rintro rfl
    refine ⟨?_, hlength⟩
    obtain ⟨turns, hturns⟩ := hd
    refine ⟨turns, ?_⟩
    rw [hturns, ← hsound]

/-- A file and what a module has made of it. -/
theorem sameContent_packed {stream : Bytes} (havailable : m.Available Γ) (hlt : b.length < 2 ^ 63) (hraw : parse Γ b = none)
    (hd : m.Decodes libs stream b) : SameContent Γ libs b (header m b.length ++ stream) := by
  refine ⟨fun d => ?_⟩
  rw [contains_of_parse_none hraw, contains_of_parse (parse_header havailable hlt stream), ← length_header m b.length, List.drop_left]
  constructor
  · rintro rfl
    exact ⟨hd, rfl⟩
  · rintro ⟨hdecodes, -⟩
    have hdelivers : m.Delivers libs stream ⟨b, true⟩ := hd
    exact hdecodes.eq_rest hdelivers

/-! ## Decompressing -/

/-- A loop that does not fail has seen all of the stream, and no write that failed. -/
theorem decompressInto_goes {ws : Nat → Written} {failed : Bool} {size : Int} {sink : Sink} {cs : List Bytes}
    (h : (decompressInto ws failed size sink cs).1 ≠ -1) :
    failed = false ∧ ∀ i, i < cs.length → ws (sink.calls + i) ≠ .fail := by
  induction cs generalizing size sink with
  | nil =>
    rw [decompressInto] at h
    cases failed with
    | false => exact ⟨rfl, fun i hi => absurd hi (Nat.not_lt_zero i)⟩
    | true => exact absurd rfl h
  | cons c cs ih =>
    rw [decompressInto] at h
    split at h
    · exact absurd rfl h
    · rename_i hgoes
      obtain ⟨hfailed, hwrites⟩ := ih h
      refine ⟨hfailed, fun i hi => ?_⟩
      cases i with
      | zero =>
        intro hfail
        rw [Nat.add_zero] at hfail
        apply hgoes
        simp only [Sink.write, hfail, Written.result]
      | succ i =>
        have hi' := hwrites i (Nat.lt_of_succ_lt_succ hi)
        rwa [Sink.write, Nat.add_assoc, Nat.add_comm 1 i] at hi'

/-- A loop all of whose writes are full. -/
theorem decompressInto_full {ws : Nat → Written} {size : Int} {sink : Sink} {cs : List Bytes}
    (h : ∀ i, i < cs.length → ws (sink.calls + i) = .full) :
    decompressInto ws false size sink cs = (size + cs.flatten.length, sink.data ++ cs.flatten) := by
  induction cs generalizing size sink with
  | nil => simp [decompressInto]
  | cons c cs ih =>
    have hnow : ws sink.calls = .full := h 0 (Nat.zero_lt_succ _)
    have hne : ¬((c.length : Int) = -1) := by omega
    rw [decompressInto, Sink.write_full hnow]
    dsimp only
    rw [if_neg hne, ih (fun i hi => ?_), List.flatten_cons, List.append_assoc, List.length_append, Nat.cast_add, Int.add_assoc]
    have hi' := h (i + 1) (Nat.succ_lt_succ hi)
    rwa [Nat.add_comm i 1, ← Nat.add_assoc] at hi'

/-- Without a failure the result is a number of bytes. -/
theorem decompressInto_nonneg {ws : Nat → Written} {size : Int} {sink : Sink} {cs : List Bytes} (hsize : 0 ≤ size)
    (h : ∀ i, i < cs.length → ws (sink.calls + i) ≠ .fail) : 0 ≤ (decompressInto ws false size sink cs).1 := by
  induction cs generalizing size sink with
  | nil => exact hsize
  | cons c cs ih =>
    have hnow : 0 ≤ (sink.write ws c).2 := by
      have hne := h 0 (Nat.zero_lt_succ _)
      rw [Nat.add_zero] at hne
      unfold Sink.write Written.result
      cases hw : ws sink.calls with
      | fail => exact absurd hw hne
      | full => exact Int.natCast_nonneg _
      | short k => exact Int.natCast_nonneg _
    rw [decompressInto]
    rw [if_neg (by omega)]
    refine ih (Int.add_nonneg hsize hnow) (fun i hi => ?_)
    have hi' := h (i + 1) (Nat.succ_lt_succ hi)
    rwa [Nat.add_comm i 1, ← Nat.add_assoc] at hi'

theorem length_decompressInto (ws : Nat → Written) (failed : Bool) (size : Int) (sink : Sink) (cs : List Bytes) :
    (decompressInto ws failed size sink cs).2.length ≤ sink.data.length + cs.flatten.length := by
  induction cs generalizing size sink with
  | nil => exact Nat.le_add_right _ _
  | cons c cs ih =>
    have hstep := length_data_write ws sink c
    rw [decompressInto, List.flatten_cons, List.length_append]
    split
    · dsimp only
      omega
    · have hrest := ih (size + (sink.write ws c).2) (sink.write ws c).1
      omega

/-- Nothing is missing only if every write has been full. -/
theorem decompressInto_full_of_length {ws : Nat → Written} {failed : Bool} {size : Int} {sink : Sink} {cs : List Bytes}
    (hcs : ∀ c ∈ cs, c ≠ [])
    (h : (decompressInto ws failed size sink cs).2.length = sink.data.length + cs.flatten.length) :
    ∀ i, i < cs.length → ws (sink.calls + i) = .full := by
  induction cs generalizing size sink with
  | nil =>
    intro i hi
    exact absurd hi (Nat.not_lt_zero i)
  | cons c cs ih =>
    have hle := length_decompressInto ws failed (size + (sink.write ws c).2) (sink.write ws c).1 cs
    rw [decompressInto, List.flatten_cons, List.length_append] at h
    have hnow : ws sink.calls = .full := by
      by_contra hshort
      have hlt := length_data_write_lt (hcs c List.mem_cons_self) hshort
      split at h
      · dsimp only at h
        omega
      · omega
    have hwrite : sink.write ws c = (⟨sink.data ++ c, sink.calls + 1⟩, (c.length : Int)) := Sink.write_full hnow
    have hresult : ¬(sink.write ws c).2 = -1 := by
      rw [hwrite]
      dsimp only
      omega
    rw [if_neg hresult] at h
    intro i hi
    cases i with
    | zero => exact hnow
    | succ i =>
      have hlength : (sink.write ws c).1.data.length = sink.data.length + c.length := by rw [hwrite, List.length_append]
      have hrest := ih (fun c' hc' => hcs c' (List.mem_cons_of_mem c hc')) (by rw [h, hlength, Nat.add_assoc]) i
        (Nat.lt_of_succ_lt_succ hi)
      rwa [hwrite, Nat.add_assoc, Nat.add_comm 1 i] at hrest

/-- The pass over a compressed file meets no failure. -/
structure Pass.Unpacks (p : Pass) (m : Module) (rd : Reader) : Prop where
  check : p.check = true
  fstat : p.fstat = true
  temp : p.temp = true
  readHeader : p.readHeader = true
  rename : p.rename = true
  opened : m = .null ∨ p.outcomes.dup = true ∧ p.outcomes.opened = true
  reads : (p.delivers rd).failed = false
  writes : ∀ i, i < (p.delivers rd).chunks.length → p.outcomes.writes i ≠ .fail

/-- If a pass gets to the end of a compressed file, the stream is as long as the header says, no write was short, and what comes out
does not look like a compressed file. -/
def Pass.SafeToUnpack (Γ : Config) (libs : Libraries) (p : Pass) (b : Bytes) : Prop :=
  ∀ m n rd, parse Γ b = some (m, n) → m.Delivers libs (b.drop headerSize) rd → p.Unpacks m rd →
    (rd.rest.length : Int) = n ∧ parse Γ rd.rest = none ∧ ∀ i, i < (p.delivers rd).chunks.length → p.outcomes.writes i = .full

/-- A module that has not failed. -/
theorem Module.decompress_goes {stream temp : Bytes} {size : Int} (hd : m.Delivers libs stream rd)
    (h : m.decompress libs turns p.calls p.delivers stream = some (size, temp)) (hsize : size ≠ -1) :
    (m = .null ∨ p.outcomes.dup = true ∧ p.outcomes.opened = true) ∧ (p.delivers rd).failed = false ∧
      ∀ i, i < (p.delivers rd).chunks.length → p.outcomes.writes i ≠ .fail := by
  unfold Module.decompress at h
  split at h
  · cases h
    exact absurd rfl hsize
  · rename_i hopened
    obtain ⟨rd', hrd', hinto⟩ := Option.map_eq_some_iff.mp h
    obtain rfl := Module.Delivers.unique hd ⟨turns, hrd'⟩
    have hgoes : (decompressInto p.calls.writes (p.delivers rd).failed 0 ⟨[], 0⟩ (p.delivers rd).chunks).1 ≠ -1 := by
      rw [hinto]
      exact hsize
    obtain ⟨hfailed, hwrites⟩ := decompressInto_goes hgoes
    refine ⟨?_, hfailed, fun i hi => ?_⟩
    · rw [not_and_or, not_not, not_or, Bool.not_eq_false, Bool.not_eq_false] at hopened
      exact hopened
    · have hi' := hwrites i hi
      rwa [Nat.zero_add] at hi'

/-- A pass that has changed something has met no failure. -/
theorem decompressAll_unpacks (hparse : parse Γ b = some (m, n)) (hd : m.Delivers libs (b.drop headerSize) rd)
    (h : decompressAll Γ libs turns p b = some b') : b' = b ∨ p.Unpacks m rd := by
  unfold decompressAll at h
  split at h
  · exact Or.inl (Option.some.inj h).symm
  · rename_i hcheck
    unfold decompressFile at h
    split at h
    · exact Or.inl (Option.some.inj h).symm
    · rename_i hcalls
      rw [hparse, Option.bind_some] at h
      obtain ⟨⟨size, temp⟩, hdecompress, hb'⟩ := Option.map_eq_some_iff.mp h
      unfold Pass.replace at hb'
      split at hb'
      · exact Or.inl hb'.symm
      · rename_i hgoes
        obtain ⟨hsize, hrename⟩ := not_or.mp hgoes
        obtain ⟨hopened, hfailed, hwrites⟩ := Module.decompress_goes hd hdecompress hsize
        simp only [not_or, Bool.not_eq_false] at hcalls
        refine Or.inr ⟨?_, hcalls.1, hcalls.2.1, hcalls.2.2, Bool.eq_true_of_not_eq_false hrename, hopened, hfailed, hwrites⟩
        refine Bool.eq_true_of_not_eq_false (fun hfalse => hcheck ?_)
        rw [hfalse, isCompressed, if_pos rfl]
        decide

/-- A file with a header is compressed. -/
theorem isCompressed_of_parse (h : parse Γ b = some (m, n)) : 0 ≤ isCompressed true b := by
  unfold parse fileCompressor findCompressor at h
  split at h
  · cases h
  · split at h
    · cases h
    · rename_i hmagic
      split at h
      · cases h
      · rename_i htype
        unfold isCompressed
        rw [if_neg (by decide), if_pos (not_not.mp hmagic)]
        dsimp only
        rw [if_pos (by omega)]
        exact Int.natCast_nonneg _

/-- A pass that meets no failure leaves what the module has written. -/
theorem decompressAll_of_unpacks (hparse : parse Γ b = some (m, n)) (hd : m.Delivers libs (b.drop headerSize) rd)
    (hu : p.Unpacks m rd) (h : decompressAll Γ libs turns p b = some b') :
    b' = (decompressInto p.outcomes.writes false 0 ⟨[], 0⟩ (p.delivers rd).chunks).2 := by
  have hcheck : ¬isCompressed p.check b < 0 := by
    rw [hu.check]
    exact not_lt.mpr (isCompressed_of_parse hparse)
  have hopened : ¬(m ≠ .null ∧ (p.calls.dup = false ∨ p.calls.opened = false)) := by
    rintro ⟨hne, hcalls⟩
    obtain ⟨hdup, hopen⟩ := hu.opened.resolve_left hne
    simp [Pass.calls, hdup, hopen] at hcalls
  unfold decompressAll decompressFile at h
  rw [if_neg hcheck, if_neg (by simp [hu.fstat, hu.temp, hu.readHeader]), hparse, Option.bind_some] at h
  obtain ⟨⟨size, temp⟩, hdecompress, hb'⟩ := Option.map_eq_some_iff.mp h
  dsimp only at hdecompress
  rw [Module.decompress, if_neg hopened] at hdecompress
  obtain ⟨rd', hrd', hinto⟩ := Option.map_eq_some_iff.mp hdecompress
  obtain rfl := Module.Delivers.unique hd ⟨turns, hrd'⟩
  have hnonneg : 0 ≤ (decompressInto p.outcomes.writes false 0 ⟨[], 0⟩ (p.delivers rd).chunks).1 :=
    decompressInto_nonneg (le_refl 0) (fun i hi => by rw [Nat.zero_add]; exact hu.writes i hi)
  rw [hu.reads] at hinto
  have hsize : size ≠ -1 := by
    intro hfail
    have hresult := congrArg Prod.fst hinto
    dsimp only [Pass.calls] at hresult
    omega
  rw [← hb', Pass.replace, if_neg (by simp [hu.rename, hsize])]
  exact congrArg Prod.snd hinto.symm

/-- Without a short write that is what the module has delivered. -/
theorem decompressAll_full (hparse : parse Γ b = some (m, n)) (hd : m.Delivers libs (b.drop headerSize) rd) (hu : p.Unpacks m rd)
    (hfull : ∀ i, i < (p.delivers rd).chunks.length → p.outcomes.writes i = .full)
    (h : decompressAll Γ libs turns p b = some b') : b' = rd.rest := by
  rw [decompressAll_of_unpacks hparse hd hu h,
    decompressInto_full (fun i hi => by rw [Nat.zero_add]; exact hfull i hi), (p.delivers rd).all hu.reads]
  rfl

/-- A stream that could be read to its end is sound. -/
theorem Pass.Unpacks.sound (hu : p.Unpacks m rd) : rd.sound = true := by
  refine Bool.eq_true_of_not_eq_false (fun hdamaged => ?_)
  have hfailed := (p.delivers rd).damaged hdamaged
  rw [hu.reads] at hfailed
  cases hfailed

/-- When what comes out does not look like a compressed file, it is the contents of the file exactly when the stream is as long as
the header says and no write was short. -/
theorem decompressAll_sameContent_iff (hparse : parse Γ b = some (m, n)) (hd : m.Delivers libs (b.drop headerSize) rd)
    (hu : p.Unpacks m rd) (h : decompressAll Γ libs turns p b = some b') (hraw : parse Γ b' = none) :
    SameContent Γ libs b b' ↔
      (rd.rest.length : Int) = n ∧ ∀ i, i < (p.delivers rd).chunks.length → p.outcomes.writes i = .full := by
  constructor
  · intro hsame
    obtain ⟨hdecodes, hlength⟩ := (contains_of_parse hparse).mp ((hsame.contains b').mpr ((contains_of_parse_none hraw).mpr rfl))
    have hrest : b' = rd.rest := hdecodes.eq_rest hd
    refine ⟨by rw [← hrest, hlength], fun i hi => ?_⟩
    have hwritten := decompressAll_of_unpacks hparse hd hu h
    have hwhole : (decompressInto p.outcomes.writes false 0 ⟨[], 0⟩ (p.delivers rd).chunks).2.length =
        (⟨[], 0⟩ : Sink).data.length + (p.delivers rd).chunks.flatten.length := by
      rw [← hwritten, (p.delivers rd).all hu.reads, hrest, List.length_nil, Nat.zero_add]
    have hfull := decompressInto_full_of_length (fun c hc => ((p.delivers rd).chunk c hc).1) hwhole i hi
    rwa [Nat.zero_add] at hfull
  · rintro ⟨hlength, hfull⟩
    have hrest := decompressAll_full hparse hd hu hfull h
    subst hrest
    exact sameContent_unpacked hparse hd hu.sound hlength hraw

/-- What `transform` without a module does to a file that is safe to decompress. -/
theorem decompressAll_sameContent (hsafe : p.SafeToUnpack Γ libs b) (h : decompressAll Γ libs turns p b = some b') :
    SameContent Γ libs b b' := by
  cases hparse : parse Γ b with
  | none =>
    unfold decompressAll decompressFile at h
    rw [hparse, Option.bind_none] at h
    split_ifs at h
    · cases h
      exact .refl b
    · cases h
      exact .refl b
  | some head =>
    obtain ⟨m, n⟩ := head
    obtain ⟨rd, hd⟩ := Module.delivers_exists libs (b.drop headerSize) m
    rcases decompressAll_unpacks hparse hd h with rfl | hu
    · exact .refl b'
    · obtain ⟨hlength, hraw, hfull⟩ := hsafe m n rd hparse hd hu
      rw [decompressAll_full hparse hd hu hfull h]
      exact sameContent_unpacked hparse hd hu.sound hlength hraw

/-! ## Compressing -/

/-- A file of which the check says that it is not compressed has no header. -/
theorem parse_of_isCompressed (h : isCompressed p.check b = -1) : parse Γ b = none := by
  cases hcheck : p.check with
  | false =>
    rw [hcheck, isCompressed, if_pos rfl] at h
    cases h
  | true =>
    cases hparse : parse Γ b with
    | none => rfl
    | some head =>
      have hnonneg := isCompressed_of_parse hparse
      rw [hcheck] at h
      omega

/-- A loop that is not cancelled reads the whole file or fails. -/
theorem compressLoop_testcancel {σ : Type} {feed : σ → Bytes → σ × Bool} {failed : Bool} {k size : Nat} {s t : σ} {cs : List Bytes}
    {r : Option Nat} (h : compressLoop feed compressTestcancel failed k size s cs = (t, r)) :
    r = none ∨ failed = false ∧ r = some (size + cs.flatten.length) := by
  induction cs generalizing k size s with
  | nil =>
    rw [compressLoop] at h
    cases failed with
    | false => exact Or.inr ⟨rfl, (Prod.mk.inj h).2.symm⟩
    | true => exact Or.inl (Prod.mk.inj h).2.symm
  | cons c cs ih =>
    rw [compressLoop] at h
    split at h
    · exact Or.inl (Prod.mk.inj h).2.symm
    · rw [compressTestcancel, if_neg Bool.false_ne_true] at h
      rw [List.flatten_cons, List.length_append, ← Nat.add_assoc]
      exact ih h

/-- The number that a module returns which has not failed, `lzma` apart, and what it has read. -/
theorem compressLoop_size {σ : Type} {feed : σ → Bytes → σ × Bool} {s t : σ} {r : Option Nat} (src : Chunks b)
    (h : compressLoop feed compressTestcancel src.failed 0 0 s src.chunks = (t, r)) (hr : r ≠ none) :
    src.failed = false ∧ r = some b.length := by
  obtain ⟨hfailed, hsize⟩ := (compressLoop_testcancel h).resolve_left hr
  exact ⟨hfailed, by rw [hsize, Nat.zero_add, src.all hfailed]⟩

theorem offT_ne {r : Option Nat} (h : offT r ≠ -1) : r ≠ none := by
  rintro rfl
  exact h rfl

theorem nullCompress_goes (src : Chunks b) (h : (nullCompress p.calls src).1 ≠ -1) :
    src.failed = false ∧ (nullCompress p.calls src).1 = b.length := by
  unfold nullCompress at h ⊢
  generalize hr : compressLoop (nullFeed p.calls.writes) p.calls.cancels src.failed 0 0 ⟨[], 0⟩ src.chunks = r at h ⊢
  dsimp only at h ⊢
  obtain ⟨hfailed, hsize⟩ := compressLoop_size src hr (offT_ne h)
  exact ⟨hfailed, by rw [hsize, offT]⟩

theorem lzoCompress_goes {Λ : LzoEnv} (src : Chunks b) (h : (lzoCompress Λ p.calls src).1 ≠ -1) :
    (p.outcomes.dup = true ∧ p.outcomes.opened = true) ∧ src.failed = false ∧ (lzoCompress Λ p.calls src).1 = b.length := by
  unfold lzoCompress at h ⊢
  split at h
  · exact absurd rfl h
  · rename_i hopened
    rw [if_neg hopened]
    dsimp only at h ⊢
    unfold lzoRun at h ⊢
    generalize hr : compressLoop (lzoFeed Λ p.calls.writes) p.calls.cancels src.failed 0 0 _ src.chunks = r at h ⊢
    obtain ⟨hfailed, hsize⟩ := compressLoop_size src hr (offT_ne h)
    exact ⟨by simpa [Pass.calls] using hopened, hfailed, by rw [hsize, offT]⟩

theorem streamCompress_goes {lib : StreamLib} (src : Chunks b) (h : (streamCompress lib p.calls src).1 ≠ -1) :
    (p.outcomes.dup = true ∧ p.outcomes.opened = true) ∧ src.failed = false ∧ (streamCompress lib p.calls src).1 = b.length := by
  unfold streamCompress at h ⊢
  split at h
  · exact absurd rfl h
  · rename_i hopened
    rw [if_neg hopened]
    dsimp only at h ⊢
    generalize hr : compressLoop (streamFeed lib) p.calls.cancels src.failed 0 0 lib.opened src.chunks = r at h ⊢
    obtain ⟨hfailed, hsize⟩ := compressLoop_size src hr (offT_ne h)
    exact ⟨by simpa [Pass.calls] using hopened, hfailed, by rw [hsize, offT]⟩

/-- `lzmaCompress` has read the whole file when it does not fail. What it returns is the size only if the rest could be written. -/
theorem lzmaCompress_goes {lib : LzmaLib} (src : Chunks b) (h : (lzmaCompress lib p.calls src).1 ≠ -1) :
    (p.outcomes.dup = true ∧ p.outcomes.opened = true) ∧ src.failed = false ∧ ∃ s tail,
      Fed (lzmaFeed lib p.outcomes.writes) (lib.opened, ⟨[], 0⟩) src.chunks s ∧ lib.finish s.1 = some tail ∧
        (lzmaCompress lib p.calls src).1 = (lzmaTail p.outcomes.writes s.2 tail).2.getD b.length := by
  unfold lzmaCompress at h ⊢
  split at h
  · exact absurd rfl h
  · rename_i hopened
    rw [if_neg hopened]
    cases hr : compressLoop (lzmaFeed lib p.calls.writes) p.calls.cancels src.failed 0 0 (lib.opened, ⟨[], 0⟩) src.chunks with
    | mk s r =>
      rw [hr] at h
      cases r with
      | none => exact absurd rfl h
      | some size =>
        obtain ⟨hfailed, hsize⟩ := compressLoop_size src hr (Option.some_ne_none _)
        cases hsize
        cases hfinish : lib.finish s.1 with
        | none =>
          dsimp only at h
          rw [hfinish] at h
          exact absurd rfl h
        | some tail =>
          obtain ⟨hfed, -⟩ := fed_of_size src hr rfl
          refine ⟨by simpa [Pass.calls] using hopened, hfailed, s, tail, hfed, hfinish, ?_⟩
          dsimp only
          rw [hfinish]
          rfl

/-- Every write of the rest of an `lzma` stream has a result that is not `-1`. -/
def TailWritten (libs : Libraries) (oc : Outcomes) (src : Chunks b) : Module → Prop
  | .lzma => ∀ s outs tail, libs.lzma.codes libs.lzma.opened src.chunks = some (s, outs) → libs.lzma.finish s = some tail →
      ∀ i, i < tail.length → oc.writes (outs.length + i) ≠ .fail
  | _ => True

/-- A pass over a file meets no failure that it would find out about. -/
structure Pass.Packs (p : Pass) (m : Module) (b : Bytes) : Prop where
  fstat : p.fstat = true
  temp : p.temp = true
  seekHeader : p.seekHeader = true
  seekStart : p.seekStart = true
  writeHeader : p.writeHeader ≠ .fail
  rename : p.rename = true
  opened : m = .null ∨ p.outcomes.dup = true ∧ p.outcomes.opened = true
  reads : (p.reads b).failed = false

/-- If a pass gets to the end of a file, the module has lost nothing unnoticed, and the header is all there. -/
def Pass.SafeToPack (libs : Libraries) (p : Pass) (m : Module) (b : Bytes) : Prop :=
  p.Packs m b → Lossless libs p.calls (p.reads b) m ∧ TailWritten libs p.calls (p.reads b) m ∧ p.writeHeader = .full

/-- A module that has not failed has read the whole file. -/
theorem Module.compress_goes (h : (m.compress libs p.calls (p.reads b)).1 ≠ -1) :
    (m = .null ∨ p.outcomes.dup = true ∧ p.outcomes.opened = true) ∧ (p.reads b).failed = false := by
  cases m with
  | null => exact ⟨Or.inl rfl, (nullCompress_goes _ h).1⟩
  | bz2 =>
    obtain ⟨hopened, hfailed, -⟩ := streamCompress_goes _ h
    exact ⟨Or.inr hopened, hfailed⟩
  | gzip =>
    obtain ⟨hopened, hfailed, -⟩ := streamCompress_goes _ h
    exact ⟨Or.inr hopened, hfailed⟩
  | lzo =>
    obtain ⟨hopened, hfailed, -⟩ := lzoCompress_goes _ h
    exact ⟨Or.inr hopened, hfailed⟩
  | lzma =>
    obtain ⟨hopened, hfailed, -⟩ := lzmaCompress_goes _ h
    exact ⟨Or.inr hopened, hfailed⟩

/-- The number it returns is the size of the file then. -/
theorem Module.compress_size (hl : Lossless libs p.calls (p.reads b) m) (htail : TailWritten libs p.calls (p.reads b) m)
    (h : (m.compress libs p.calls (p.reads b)).1 ≠ -1) : (m.compress libs p.calls (p.reads b)).1 = b.length := by
  cases m with
  | null => exact (nullCompress_goes _ h).2
  | bz2 => exact (streamCompress_goes _ h).2.2
  | gzip => exact (streamCompress_goes _ h).2.2
  | lzo => exact (lzoCompress_goes _ h).2.2
  | lzma =>
    obtain ⟨-, -, s, tail, hfed, hfinish, hsize⟩ := lzmaCompress_goes _ h
    refine hsize.trans ?_
    obtain ⟨outs, hcodes, houts⟩ := hfed.lzma
    have hsink := houts (fun i _ hlt => (hl s.1 outs tail hcodes hfinish).1 i (by dsimp only at hlt; omega))
    rw [Nat.zero_add] at hsink
    cases hret : (lzmaTail p.outcomes.writes s.2 tail).2 with
    | none => rfl
    | some ret =>
      obtain ⟨-, i, hi, hfail⟩ := lzmaTail_result hret
      rw [hsink] at hfail
      exact absurd hfail (htail s.1 outs tail hcodes hfinish i hi)

/-- The module writes behind a hole into which the header goes. -/
theorem Bytes.overwrite_hole (h s : Bytes) : overwrite (overwrite [] h.length s) 0 h = h ++ s := by
  by_cases hs : s = []
  · rw [hs, overwrite_empty_buf, overwrite_nil_zero, List.append_nil]
  · have hhole : overwrite [] h.length s = zeros h.length ++ s := by
      unfold overwrite
      rw [if_neg hs]
      simp
    rw [hhole]
    exact overwrite_front s (length_zeros _).symm

/-- A pass that has changed something has met no failure. -/
theorem compressFile_packs (libs : Libraries) (m : Module) (p : Pass) (b : Bytes) : compressFile libs m p b = b ∨ p.Packs m b := by
  unfold compressFile
  split
  · exact Or.inl rfl
  · rename_i hcalls
    dsimp only
    split
    · exact Or.inl rfl
    · rename_i hseek
      unfold Pass.replace
      split
      · exact Or.inl rfl
      · rename_i hgoes
        obtain ⟨hsize, hrename⟩ := not_or.mp hgoes
        obtain ⟨hopened, hfailed⟩ := Module.compress_goes hsize
        simp only [not_or, Bool.not_eq_false] at hcalls hseek hrename
        refine Or.inr ⟨hcalls.1, hcalls.2.1, hcalls.2.2, hseek.1, ?_, hrename, hopened, hfailed⟩
        intro hfail
        rw [hfail, Written.result] at hseek
        exact hseek.2 (by decide)

/-- What a pass leaves that is safe. -/
theorem compressFile_sameContent (hlibs : libs.Correct) (havailable : m.Available Γ) (hlt : b.length < 2 ^ 63)
    (hraw : parse Γ b = none) (hsafe : p.SafeToPack libs m b) : SameContent Γ libs b (compressFile libs m p b) := by
  rcases compressFile_packs libs m p b with hsame | hpacks
  · rw [hsame]
    exact .refl b
  obtain ⟨hl, htail, hheader⟩ := hsafe hpacks
  unfold compressFile
  rw [if_neg (by simp [hpacks.fstat, hpacks.temp, hpacks.seekHeader])]
  dsimp only
  rw [hheader]
  simp only [hpacks.seekStart, Written.result, Written.count]
  rw [if_neg (by simp), Pass.replace]
  split
  · exact .refl b
  · rename_i hgoes
    have hsize := Module.compress_size hl htail (not_or.mp hgoes).1
    rw [← length_header m b.length, List.take_length, Bytes.overwrite_hole]
    exact sameContent_packed havailable hlt hraw (compress_decodes hlibs m hl hsize)

/-! ## `transform` -/

/-- The files that `transform` does not look at. -/
def Skipped (Γ : Config) (comp : Option Module) (name : Filename) : Prop :=
  fusecompressPrefix.isPrefixOf name = true ∨ comp ≠ none ∧ isCompressible Γ name = false

/-- The condition. Either pass is safe if it gets to its end, and a file that is to be recompressed is not compressed without having
been decompressed. -/
structure SafeToTransform (Γ : Config) (libs : Libraries) (comp recomp : Option Module) (inner p : Pass) (b : Bytes) : Prop where
  unpack : comp = none → p.SafeToUnpack Γ libs b
  pack : ∀ m, comp = some m → isCompressed p.check b = -1 → p.SafeToPack libs m b
  repack : ∀ m r, comp = some m → recomp = some r → isCompressed p.check b = r.type →
    inner.SafeToUnpack Γ libs b ∧ (parse Γ b = none → p.SafeToPack libs m b) ∧
      ∀ m' n rd, parse Γ b = some (m', n) → m'.Delivers libs (b.drop headerSize) rd →
        (inner.Unpacks m' rd → p.SafeToPack libs m rd.rest) ∧ (p.Packs m b → inner.Unpacks m' rd)

/-- `transform` with a module, of a file that is to be decompressed first. -/
theorem repack_sameContent {b₁ : Bytes} (hlibs : libs.Correct) (havailable : m.Available Γ) (hlt : b.length < 2 ^ 63)
    (hinner : inner.SafeToUnpack Γ libs b) (hraw : parse Γ b = none → p.SafeToPack libs m b)
    (hrepack : ∀ m' n rd, parse Γ b = some (m', n) → m'.Delivers libs (b.drop headerSize) rd →
      (inner.Unpacks m' rd → p.SafeToPack libs m rd.rest) ∧ (p.Packs m b → inner.Unpacks m' rd))
    (h : decompressAll Γ libs turns inner b = some b₁) : SameContent Γ libs b (compressFile libs m p b₁) := by
  have hsame := decompressAll_sameContent hinner h
  cases hparse : parse Γ b with
  | none =>
    have hb₁ : b₁ = b := by
      unfold decompressAll decompressFile at h
      rw [hparse, Option.bind_none] at h
      split_ifs at h <;> exact (Option.some.inj h).symm
    rw [hb₁]
    exact compressFile_sameContent hlibs havailable hlt hparse (hraw hparse)
  | some head =>
    obtain ⟨m', n⟩ := head
    obtain ⟨rd, hd⟩ := Module.delivers_exists libs (b.drop headerSize) m'
    obtain ⟨hsafe, hneeds⟩ := hrepack m' n rd hparse hd
    by_cases hu : inner.Unpacks m' rd
    · obtain ⟨hlength, hplain, hfull⟩ := hinner m' n rd hparse hd hu
      have hb₁ := decompressAll_full hparse hd hu hfull h
      subst hb₁
      refine hsame.trans (compressFile_sameContent hlibs havailable ?_ hplain (hsafe hu))
      have := parse_lt hparse
      omega
    · have hb₁ := (decompressAll_unpacks hparse hd h).resolve_right hu
      rw [hb₁]
      rcases compressFile_packs libs m p b with hkept | hpacks
      · rw [hkept]
        exact .refl b
      · exact absurd (hneeds hpacks) hu

/-- `transform` keeps what a file contains under the condition. -/
theorem sameContent_of_safe (hlibs : libs.Correct) (havailable : ∀ m, comp = some m → m.Available Γ) (hlt : b.length < 2 ^ 63)
    (hsafe : ¬Skipped Γ comp name → SafeToTransform Γ libs comp recomp inner p b)
    (h : transform Γ libs turns comp recomp inner p name b = some b') : SameContent Γ libs b b' := by
  unfold transform at h
  split at h
  · cases h
    exact .refl b
  rename_i hprefix
  cases comp with
  | none => exact decompressAll_sameContent ((hsafe (by simp [Skipped, hprefix])).unpack rfl) h
  | some m =>
    dsimp only at h
    unfold compressAll at h
    dsimp only at h
    split at h
    · cases h
      exact .refl b
    rename_i hcompressible
    have hsafe := hsafe (by simp [Skipped, hprefix, hcompressible])
    split at h
    · cases h
      exact .refl b
    rename_i hcheck
    split at h
    · rename_i hrecomp
      obtain ⟨r, hr, htype⟩ := Option.map_eq_some_iff.mp hrecomp
      obtain ⟨b₁, hb₁, hb'⟩ := Option.map_eq_some_iff.mp h
      obtain ⟨hinner, hraw, hrepack⟩ := hsafe.repack m r rfl hr htype.symm
      rw [← hb']
      exact repack_sameContent hlibs (havailable m rfl) hlt hinner hraw hrepack hb₁
    · split at h
      · cases h
        exact .refl b
      · rename_i hnot
        cases h
        have hcheck : isCompressed p.check b = -1 := by omega
        exact compressFile_sameContent hlibs (havailable m rfl) hlt (parse_of_isCompressed hcheck) (hsafe.pack m rfl hcheck)

/-- A decompression comes to an end, unless it goes through a pointer that is NULL or was never set. -/
theorem decompressAll_returns (Γ : Config) (libs : Libraries) (p : Pass) (b : Bytes)
    (hheader : 0 ≤ isCompressed true b → parse Γ b ≠ none) : ∃ turns b', decompressAll Γ libs turns p b = some b' := by
  unfold decompressAll decompressFile
  by_cases hcheck : isCompressed p.check b < 0
  · exact ⟨0, b, if_pos hcheck⟩
  by_cases hcalls : p.fstat = false ∨ p.temp = false ∨ p.readHeader = false
  · exact ⟨0, b, by rw [if_neg hcheck, if_pos hcalls]⟩
  have hopened : p.check = true := by
    refine Bool.eq_true_of_not_eq_false (fun hfalse => hcheck ?_)
    rw [hfalse, isCompressed, if_pos rfl]
    decide
  rw [hopened, not_lt] at hcheck
  obtain ⟨⟨m, n⟩, hparse⟩ := Option.ne_none_iff_exists'.mp (hheader hcheck)
  obtain ⟨rd, turns, hrd⟩ := Module.delivers_exists libs (b.drop headerSize) m
  have hdecompress : ∃ r, m.decompress libs turns p.calls p.delivers (b.drop headerSize) = some r := by
    unfold Module.decompress
    split
    · exact ⟨_, rfl⟩
    · exact ⟨_, by rw [hrd, Option.map_some]⟩
  obtain ⟨r, hr⟩ := hdecompress
  refine ⟨turns, p.replace b r.1 r.2, ?_⟩
  rw [hopened, if_neg (not_lt.mpr hcheck), if_neg hcalls, hparse, Option.bind_some, hr, Option.map_some]

/-- So does `transform`. -/
theorem transform_returns (Γ : Config) (libs : Libraries) (comp recomp : Option Module) (inner p : Pass) (name : Filename) (b : Bytes)
    (hheader : 0 ≤ isCompressed true b → parse Γ b ≠ none) :
    ∃ turns b', transform Γ libs turns comp recomp inner p name b = some b' := by
  unfold transform
  split
  · exact ⟨0, b, rfl⟩
  cases comp with
  | none => exact decompressAll_returns Γ libs p b hheader
  | some m =>
    obtain ⟨turns, b₁, hb₁⟩ := decompressAll_returns Γ libs inner b hheader
    refine ⟨turns, ?_⟩
    dsimp only [compressAll]
    split
    · exact ⟨b, rfl⟩
    split
    · exact ⟨b, rfl⟩
    split
    · exact ⟨_, by rw [hb₁, Option.map_some]⟩
    split
    · exact ⟨b, rfl⟩
    · exact ⟨_, rfl⟩

/-! ## A file that cannot be decompressed -/

/-- All of a sound stream at once; a longer one cannot be read. -/
def Delivery.atOnce (rd : Reader) : Delivery rd where
  chunks := if rd.sound then (Chunks.atOnce rd.rest).chunks else []
  failed := !rd.sound || (Chunks.atOnce rd.rest).failed
  chunk := by
    intro c hc
    split at hc
    · exact (Chunks.atOnce rd.rest).chunk c hc
    · cases hc
  start := by
    split
    · exact (Chunks.atOnce rd.rest).start
    · exact List.nil_prefix
  all := by
    intro h
    rw [Bool.or_eq_false_iff, Bool.not_eq_false'] at h
    rw [if_pos h.1]
    exact (Chunks.atOnce rd.rest).all h.2
  damaged := by
    intro h
    rw [h]
    rfl

/-- A pass that meets no failure, but for the creation of the temporary file. -/
def Pass.fine (temp : Bool) : Pass where
  check := true
  fstat := true
  temp := temp
  seekHeader := true
  seekStart := true
  readHeader := true
  writeHeader := .full
  rename := true
  outcomes := .firstWrite .full
  reads := Chunks.atOnce
  delivers := .atOnce

theorem Pass.writes_fine (temp : Bool) (i : Nat) : (Pass.fine temp).outcomes.writes i = .full := by
  change (if i = 0 then Written.full else Written.full) = Written.full
  split <;> rfl

/-- A file of one byte, compressed with `null`. -/
def oneByte : Bytes := header .null 1 ++ [7]

theorem parse_oneByte : parse .plain oneByte = some (.null, (1 : Int)) := parse_header (Module.available_null _) (by decide) [7]

end FuseCompress
