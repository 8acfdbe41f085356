import FuseCompress.FailingWrites
import FuseCompress.Lib.Transition
import FuseCompress.Theorems.Modules

/-!
# A failed write

`direct_compress` sends the data first and brings the header up to date then. When the module has taken data that the request does not
acknowledge in the end, the header and the stream no longer agree, and `do_decompress` rejects the file.
-/

namespace FuseCompress

variable {E : Encoder} {Γ : Config} {m : Module}

/-! ## The encoders of `null` and `lzo` -/

theorem Encoder.writes_append (E : Encoder) (chunks chunks' : List Bytes) (σ : E.State) :
    E.writes (chunks ++ chunks') σ =
      ((E.writes chunks' (E.writes chunks σ).1).1, (E.writes chunks σ).2 ++ (E.writes chunks' (E.writes chunks σ).1).2) := by
  induction chunks generalizing σ with
  | nil => rfl
  | cons buf chunks ih => rw [List.cons_append, Encoder.writes, Encoder.writes, ih, List.append_assoc]

theorem Encoder.writes_null (chunks : List Bytes) : Encoder.null.writes chunks () = ((), chunks.flatten) := by
  induction chunks with
  | nil => rfl
  | cons buf chunks ih =>
    have hsent : buf.take (Written.full.count buf.length) = buf := List.take_length
    change ((Encoder.null.writes chunks ()).1, buf.take (Written.full.count buf.length) ++ (Encoder.null.writes chunks ()).2) = _
    rw [ih, hsent, List.flatten_cons]
    rfl

theorem Encoder.null_exact : Encoder.null.Exact := by
  intro chunks
  have hwrites := Encoder.writes_null chunks
  change (Encoder.null.writes chunks ()).2 ++ [] = chunks.flatten
  rw [hwrites, List.append_nil]

/-- Whatever it holds so far, a file that is being written can be taken for the start of what comes. -/
theorem Writing.restart {lib : Lzo1x} {old : Bytes} {file : LzoFile} {bs : List Bytes} {pending : Bytes}
    (hw : Writing lib old file bs pending) : Writing lib file.data file [] pending where
  mode := hw.mode
  usize := hw.usize
  pos := hw.pos
  stream := ⟨[], (List.append_nil _).symm, .nil⟩
  full := fun b hb => by cases hb
  buf := hw.buf
  psize := hw.psize
  blockoff := hw.blockoff
  fits := hw.fits

/-- What `lzowrite` sends is what is new in the file. -/
theorem lzoWriteOn_fine {Λ : LzoEnv} {file : LzoFile} {bs : List Bytes} {pending : Bytes} (hlib : Λ.lib.Correct)
    (hw : Writing Λ.lib [] file bs pending) (hd : pending = [] → bs = []) (buf : Bytes) :
    ∃ file', lzowrite Λ file buf = some file' ∧
      lzoWriteOn Λ (fun _ => .full) buf file = (file', file'.data.drop file.data.length, (buf.length : Int)) ∧
      file.data <+: file'.data ∧ ∃ bs' pending', Writing Λ.lib [] file' bs' pending' ∧ (pending' = [] → bs' = []) := by
  have hfull : ∃ file' calls, lzowrite Λ file buf = some file' ∧
      lzowriteOn Λ (fun _ => .full) ⟨file, 0⟩ buf = (⟨file', calls⟩, true) := lzowriteOn_full hlib ⟨file, 0⟩ buf (fun i _ _ => rfl)
  obtain ⟨file', calls, hwrite, hwriteOn⟩ := hfull
  obtain ⟨file₁, bs₁, pending₁, hwrite₁, hw₁, -, hd₁⟩ := Writing.write hlib buf hw hd
  obtain ⟨file₂, bs₂, pending₂, hwrite₂, hw₂, -, -⟩ := Writing.write hlib buf hw.restart (fun _ => rfl)
  rw [hwrite] at hwrite₁ hwrite₂
  cases hwrite₁
  cases hwrite₂
  obtain ⟨r, hdata, -⟩ := hw₂.stream
  refine ⟨file', hwrite, ?_, ⟨r, hdata.symm⟩, bs₁, pending₁, hw₁, hd₁⟩
  unfold lzoWriteOn
  rw [hwriteOn]
  rfl

/-- Several writes give the file that `lzowrites` gives, and send what is new in it. -/
theorem Encoder.writes_lzo {Λ : LzoEnv} (hlib : Λ.lib.Correct) (chunks : List Bytes) {file : LzoFile} {bs : List Bytes}
    {pending : Bytes} (hw : Writing Λ.lib [] file bs pending) (hd : pending = [] → bs = []) :
    ∃ file', lzowrites Λ file chunks = some file' ∧ (Encoder.lzo Λ).writes chunks file = (file', file'.data.drop file.data.length) ∧
      file.data <+: file'.data := by
  induction chunks generalizing file bs pending with
  | nil =>
    refine ⟨file, rfl, ?_, ⟨[], List.append_nil _⟩⟩
    rw [List.drop_length]
    rfl
  | cons buf chunks ih =>
    obtain ⟨file₁, hwrite, hwriteOn, ⟨r₁, hr₁⟩, bs₁, pending₁, hw₁, hd₁⟩ := lzoWriteOn_fine hlib hw hd buf
    obtain ⟨file₂, hwrites, hwritesOn, ⟨r₂, hr₂⟩⟩ := ih hw₁ hd₁
    refine ⟨file₂, ?_, ?_, ⟨r₁ ++ r₂, ?_⟩⟩
    · rw [lzowrites, hwrite, Option.bind_some, hwrites]
    · have hfirst : file₁.data.drop file.data.length = r₁ := by rw [← hr₁, List.drop_left]
      have hrest : file₂.data.drop file₁.data.length = r₂ := by rw [← hr₂, List.drop_left]
      have hall : file₂.data.drop file.data.length = r₁ ++ r₂ := by rw [← hr₂, ← hr₁, List.append_assoc, List.drop_left]
      change (((Encoder.lzo Λ).writes chunks (lzoWriteOn Λ (fun _ => .full) buf file).1).1,
        (lzoWriteOn Λ (fun _ => .full) buf file).2.1 ++
          ((Encoder.lzo Λ).writes chunks (lzoWriteOn Λ (fun _ => .full) buf file).1).2) = _
      rw [hall, hwriteOn, hwritesOn]
      exact Prod.ext rfl (congrArg₂ (fun r r' => r ++ r') hfirst hrest)
    · rw [← hr₂, ← hr₁, List.append_assoc]

theorem Encoder.lzo_exact {Λ : LzoEnv} (hlib : Λ.lib.Correct) : (Encoder.lzo Λ).Exact := by
  intro chunks
  obtain ⟨file, hwrites, hwritesOn, -⟩ := Encoder.writes_lzo hlib chunks (writing_lzodopen Λ.lib []) (fun _ => rfl)
  obtain ⟨bs, pending, hw⟩ : ∃ bs pending, Writing Λ.lib [] file bs pending := by
    obtain ⟨file', bs, pending, hwrites', hw, -, -⟩ := Writing.writes hlib chunks (writing_lzodopen Λ.lib []) (fun _ => rfl)
    rw [hwrites] at hwrites'
    cases hwrites'
    exact ⟨bs, pending, hw⟩
  have hfull : ∃ file' calls, lzowriteblock Λ file = some file' ∧
      lzowriteblockOn Λ (fun _ => .full) ⟨file, 0⟩ = (⟨file', calls⟩, true) := lzowriteblockOn_full hlib ⟨file, 0⟩ (fun i _ _ => rfl)
  obtain ⟨file', calls, hblock, hblockOn⟩ := hfull
  obtain ⟨w, hblock'⟩ := hw.writeblock hlib
  have hdata : file.data ++ blockBytes Λ.lib w pending = file'.data := by
    rw [hblock] at hblock'
    rw [Option.some.inj hblock']
  have hstream : file.data ++ lzoCloseOn Λ file = file'.data := by
    rw [lzoCloseOn, hblockOn, ← hdata, List.drop_left]
  change ∃ turns, lzoDeliver Λ.lib turns (lzodopen (((Encoder.lzo Λ).writes chunks (lzodopen [] 0 .write)).2 ++
    lzoCloseOn Λ ((Encoder.lzo Λ).writes chunks (lzodopen [] 0 .write)).1) 0 .read) = some ⟨chunks.flatten, true⟩
  have hsent : (lzodopen [] 0 .write).data.length = 0 := rfl
  rw [List.length_nil] at hwritesOn hwrites
  rw [hwritesOn, hsent, List.drop_zero, hstream]
  exact lzoDeliver_of_writes hlib hwrites hblock

/-! ## One descriptor -/

theorem OpenFile.put_end {file : OpenFile} (h : file.pos = file.data.length) (buf : Bytes) :
    file.put buf = { data := file.data ++ buf, pos := (file.data ++ buf).length } := by
  rw [OpenFile.put, Bytes.overwrite_eq_append h, h, List.length_append]

/-- A whole header takes the place of the one before. -/
theorem OpenFile.putHeader_full {file : OpenFile} {n size : Int} {rest : Bytes} (h : file.data = header m n ++ rest) :
    (file.putHeader .full m size).data = header m size ++ rest := by
  have hwhole : (header m size).take (Written.full.count headerSize) = header m size := by
    rw [Written.count, ← length_header m size, List.take_length]
  rw [OpenFile.putHeader, OpenFile.put, hwhole, h]
  exact Bytes.overwrite_front rest ((length_header m size).trans (length_header m n).symm)

namespace WriteState

variable {s s' : WriteState E} {c : WriteCall E}

/-- What a file promises of the bytes that have been acknowledged: it is empty when there are none, or it has a header with their
number and a stream that decodes to them. -/
inductive Usable (Γ : Config) (m : Module) (E : Encoder) : Bytes → Bytes → Prop where
  | empty : Usable Γ m E [] []
  | compressed {b acked : Bytes} : parse Γ b = some (m, (acked.length : Int)) → E.Decodes (b.drop headerSize) acked →
      Usable Γ m E b acked

/-- The number of bytes that a write acknowledges. -/
def ackedCount (len : Int) : Nat := if len = -1 then 0 else len.toNat

/-- The condition on a request. A first header that is not refused is complete, and an empty stream behind it decodes to nothing when
the module cannot be opened. The module takes the bytes that it says it has taken and no others. When it has not failed, nothing
fails after it, and the header is complete. -/
structure Careful (m : Module) (s : WriteState E) (c : WriteCall E) : Prop where
  header : s.handle = none → c.seekStart = true → c.writeHeader ≠ .fail → c.writeHeader = .full
  empty : s.handle = none → c.seekStart = true → c.writeHeader ≠ .fail → c.opened = false → E.Decodes [] []
  takes : (s.openStream m c).2 = true →
    ((E.write c.fault c.buf (s.handle.getD E.opened)).1, (E.write c.fault c.buf (s.handle.getD E.opened)).2.1) =
      E.writes [c.buf.take (ackedCount (E.write c.fault c.buf (s.handle.getD E.opened)).2.2)] (s.handle.getD E.opened)
  length : (s.openStream m c).2 = true → (E.write c.fault c.buf (s.handle.getD E.opened)).2.2 ≠ -1 →
    0 ≤ (E.write c.fault c.buf (s.handle.getD E.opened)).2.2 ∧ (E.write c.fault c.buf (s.handle.getD E.opened)).2.2 ≤ c.buf.length
  update : (s.openStream m c).2 = true → (E.write c.fault c.buf (s.handle.getD E.opened)).2.2 ≠ -1 →
    c.seekHeader = true ∧ c.updateHeader = .full ∧ c.seekEnd = true

/-- The module is open behind a header with the number of acknowledged bytes, and has been given these bytes. -/
structure Open (m : Module) (s : WriteState E) (σ : E.State) : Prop where
  given : ∃ chunks, σ = (E.writes chunks E.opened).1 ∧ chunks.flatten = s.acked ∧
    s.file.data = FuseCompress.header m s.acked.length ++ (E.writes chunks E.opened).2
  pos : s.file.pos = s.file.data.length

/-- The invariant. -/
structure Sound (m : Module) (s : WriteState E) : Prop where
  opened : ∀ σ, s.handle = some σ → s.Open m σ
  closed : s.handle = none → s.acked = [] ∧ (s.file.data = [] ∨ s.file.data = FuseCompress.header m 0 ∧ E.Decodes [] [])
  offset : s.offset = s.acked.length

theorem sound_fresh (m : Module) (E : Encoder) : (fresh E).Sound m :=
  ⟨(fun σ hσ => by cases hσ), fun _ => ⟨rfl, Or.inl rfl⟩, rfl⟩

theorem Open.sound {σ : E.State} (h : s.Open m σ) (hhandle : s.handle = some σ) (hoffset : s.offset = s.acked.length) : s.Sound m := by
  refine ⟨fun σ' hσ' => ?_, fun hnone => ?_, hoffset⟩
  · rw [hhandle] at hσ'
    cases hσ'
    exact h
  · rw [hhandle] at hnone
    cases hnone

/-- What a file holds when the first header is written. -/
theorem putHeader_first (size : Int) (h : s.file.data = [] ∨ s.file.data = FuseCompress.header m 0 ∧ E.Decodes [] []) :
    (s.file.putHeader .full m size).data = FuseCompress.header m size ∧ (s.file.putHeader .full m size).pos = headerSize := by
  have hwhole : (FuseCompress.header m size).take (Written.full.count headerSize) = FuseCompress.header m size := by
    rw [Written.count, ← length_header m size, List.take_length]
  refine ⟨?_, ?_⟩
  · rcases h with hnil | ⟨hheader, -⟩
    · change Bytes.overwrite s.file.data 0 ((FuseCompress.header m size).take (Written.full.count headerSize)) = FuseCompress.header m size
      rw [hnil, hwhole, Bytes.overwrite_nil_zero]
    · rw [← List.append_nil (FuseCompress.header m 0)] at hheader
      rw [OpenFile.putHeader_full hheader, List.append_nil]
  · rw [OpenFile.putHeader, OpenFile.put, hwhole, length_header, Nat.zero_add]

/-! ## One request -/

/-- `direct_compress` opens the module. -/
theorem openStream_sound {ok : Bool} (hs : s.Sound m) (hsize : s.offset = s.size) (hc : s.Careful m c)
    (h : s.openStream m c = (s', ok)) :
    s'.Sound m ∧ s'.acked = s.acked ∧ (ok = true → s'.handle = some (s.handle.getD E.opened)) := by
  unfold openStream at h
  split at h
  · rename_i hopen
    cases h
    refine ⟨hs, rfl, fun _ => ?_⟩
    obtain ⟨σ, hσ⟩ := Option.isSome_iff_exists.mp hopen
    rw [hσ]
    rfl
  rename_i hclosed
  have hnone : s.handle = none := Option.not_isSome_iff_eq_none.mp hclosed
  obtain ⟨hacked, hdata⟩ := hs.closed hnone
  have hzero : s.size = 0 := by
    rw [← hsize, hs.offset, hacked]
    rfl
  split at h
  · cases h
    exact ⟨hs, rfl, (fun hok => by cases hok)⟩
  rename_i hseek
  have hseek : c.seekStart = true := Bool.eq_true_of_not_eq_false hseek
  dsimp only at h
  split at h
  · rename_i hfail
    cases h
    refine ⟨⟨fun σ hσ => ?_, fun _ => ⟨hacked, ?_⟩, hs.offset⟩, rfl, (fun hok => by cases hok)⟩
    · rw [hnone] at hσ
      cases hσ
    · rw [hfail]
      exact hdata
  rename_i hfail
  obtain ⟨hput, hpos⟩ := putHeader_first s.size hdata
  rw [hc.header hnone hseek hfail, hzero] at h
  rw [hzero] at hput hpos
  split at h
  · rename_i hopened
    cases h
    refine ⟨⟨fun σ hσ => ?_, fun _ => ⟨hacked, Or.inr ⟨hput, hc.empty hnone hseek hfail hopened⟩⟩, hs.offset⟩, rfl,
      (fun hok => by cases hok)⟩
    rw [hnone] at hσ
    cases hσ
  · cases h
    refine ⟨⟨fun σ hσ => ?_, (fun hn => by cases hn), hs.offset⟩, rfl, fun _ => by rw [hnone]; rfl⟩
    cases hσ
    refine ⟨⟨[], rfl, hacked.symm, ?_⟩, ?_⟩
    · dsimp only
      rw [hput, hacked]
      exact (List.append_nil _).symm
    · dsimp only
      rw [hput, hpos, length_header]

/-- The module is given another chunk: the stream behind the header is that of all chunks so far. -/
theorem Open.put {σ σ' : E.State} {chunk sent : Bytes} (h : s.Open m σ) (hwrites : (σ', sent) = E.writes [chunk] σ) :
    ∃ chunks, σ' = (E.writes chunks E.opened).1 ∧ chunks.flatten = s.acked ++ chunk ∧
      s.file.put sent = { data := FuseCompress.header m s.acked.length ++ (E.writes chunks E.opened).2
                          pos := (FuseCompress.header m s.acked.length ++ (E.writes chunks E.opened).2).length } := by
  obtain ⟨chunks, hσ, hchunks, hdata⟩ := h.given
  have hall : E.writes (chunks ++ [chunk]) E.opened = (σ', (E.writes chunks E.opened).2 ++ sent) := by
    rw [Encoder.writes_append, ← hσ, ← hwrites]
  refine ⟨chunks ++ [chunk], ?_, ?_, ?_⟩
  · rw [hall]
  · rw [List.flatten_append, hchunks, List.flatten_singleton]
  · rw [OpenFile.put_end h.pos, hdata, List.append_assoc, hall]

/-- `direct_compress` hands the buffer to the module, which is open. What the result acknowledges has been written. -/
theorem compressWrite_sound {σ : E.State} {res : Int} (hopen : s.Open m σ) (hhandle : s.handle = some σ)
    (hoffset : s.offset = s.acked.length)
    (htakes : ((E.write c.fault c.buf σ).1, (E.write c.fault c.buf σ).2.1) =
      E.writes [c.buf.take (ackedCount (E.write c.fault c.buf σ).2.2)] σ)
    (hlength : (E.write c.fault c.buf σ).2.2 ≠ -1 →
      0 ≤ (E.write c.fault c.buf σ).2.2 ∧ (E.write c.fault c.buf σ).2.2 ≤ c.buf.length)
    (hupdate : (E.write c.fault c.buf σ).2.2 ≠ -1 → c.seekHeader = true ∧ c.updateHeader = .full ∧ c.seekEnd = true)
    (h : s.compressWrite m c = (s', res)) :
    s'.acked = s.acked ∧ ({ s' with acked := s.acked ++ c.buf.take (ackedCount res) } : WriteState E).Sound m := by
  unfold compressWrite at h
  rw [hhandle] at h
  dsimp only at h
  generalize E.write c.fault c.buf σ = r at h htakes hlength hupdate
  obtain ⟨σ', sent, len⟩ := r
  dsimp only at h htakes hlength hupdate
  obtain ⟨chunks, hσ', hchunks, hput⟩ := hopen.put htakes
  split at h
  · -- The module refuses: it has been given nothing, and no header is written.
    rename_i hlen
    cases h
    have hnone : c.buf.take (ackedCount (-1)) = [] := List.take_zero
    rw [hlen, hnone, List.append_nil] at hchunks
    refine ⟨rfl, Open.sound ⟨⟨chunks, hσ', ?_, ?_⟩, ?_⟩ rfl ?_⟩
    · rw [hchunks, hnone, List.append_nil]
    · rw [hnone, List.append_nil]
      exact congrArg OpenFile.data hput
    · rw [hput]
    · rw [hnone, List.append_nil]
      exact hoffset
  · rename_i hlen
    obtain ⟨hnonneg, hle⟩ := hlength hlen
    obtain ⟨hseek, hfull, hend⟩ := hupdate hlen
    rw [updateHeader, if_neg (by rw [hseek]; exact Bool.noConfusion), hfull, if_neg (by decide),
      if_neg (by rw [hend]; exact Bool.noConfusion)] at h
    cases h
    rw [ackedCount, if_neg hlen] at hchunks ⊢
    have htaken : ((s.acked ++ c.buf.take res.toNat).length : Int) = s.offset + res := by
      rw [List.length_append, List.length_take, hoffset]
      omega
    have hdata : (s.file.put sent).data = FuseCompress.header m s.acked.length ++ (E.writes chunks E.opened).2 :=
      congrArg OpenFile.data hput
    refine ⟨rfl, Open.sound ⟨⟨chunks, hσ', hchunks, ?_⟩, rfl⟩ rfl htaken.symm⟩
    rw [htaken]
    exact OpenFile.putHeader_full hdata

/-- `direct_compress` keeps the invariant, with what its result acknowledges. -/
theorem directCompress_sound {offset : Int} {res : Int} (hs : s.Sound m) (hc : s.Careful m c)
    (h : s.directCompress m c offset = some (s', res)) :
    s'.acked = s.acked ∧ ({ s' with acked := s.acked ++ c.buf.take (ackedCount res) } : WriteState E).Sound m := by
  unfold directCompress at h
  split at h
  · cases h
  rename_i hdirect
  have hsize : s.offset = s.size := by
    by_contra hne
    exact hdirect (Or.inl hne)
  split at h
  · rename_i s₁ hopen
    cases h
    obtain ⟨hsound, hacked, -⟩ := openStream_sound hs hsize hc hopen
    have hnone : c.buf.take (ackedCount (-1)) = [] := List.take_zero
    rw [hnone, List.append_nil, ← hacked]
    exact ⟨rfl, hsound⟩
  · rename_i s₁ hopen
    obtain ⟨hsound, hacked, hhandle⟩ := openStream_sound hs hsize hc hopen
    have hopened : (s.openStream m c).2 = true := by rw [hopen]
    rw [← hacked]
    exact compressWrite_sound (hsound.opened _ (hhandle rfl)) (hhandle rfl) hsound.offset (hc.takes hopened) (hc.length hopened)
      (hc.update hopened) (Option.some.inj h)

/-- A request keeps the invariant. -/
theorem append_sound (hs : s.Sound m) (hc : s.Careful m c) (h : s.append m c = some s') : s'.Sound m := by
  unfold append at h
  rw [Option.map_eq_some_iff] at h
  obtain ⟨⟨s₁, res⟩, hdirect, rfl⟩ := h
  obtain ⟨hacked, hsound⟩ := directCompress_sound hs hc hdirect
  dsimp only
  split
  · rename_i hres
    have hnone : c.buf.take (ackedCount res) = [] := by
      rw [ackedCount, if_pos hres, List.take_zero]
    rw [hnone, List.append_nil, ← hacked] at hsound
    exact ⟨fun σ hσ => ⟨(hsound.opened σ hσ).given, (hsound.opened σ hσ).pos⟩, hsound.closed, hsound.offset⟩
  · rename_i hres
    rw [ackedCount, if_neg hres] at hsound
    exact hsound

/-! ## Runs -/

/-- What a sound file holds after the descriptor has been closed. -/
theorem Sound.usable (hexact : E.Exact) (hm : m.Available Γ) (hs : s.Sound m) (hfits : s.acked.length < 2 ^ 63) :
    Usable Γ m E s.close s.acked := by
  unfold close
  cases hhandle : s.handle with
  | none =>
    obtain ⟨hacked, hdata⟩ := hs.closed hhandle
    dsimp only
    rw [hacked]
    cases hdata with
    | inl hnil =>
      rw [hnil]
      exact .empty
    | inr hheader =>
      obtain ⟨hheader, hdecodes⟩ := hheader
      rw [← List.append_nil (FuseCompress.header m 0)] at hheader
      rw [hheader]
      refine .compressed (parse_header hm (by decide) []) ?_
      rw [List.append_nil, ← length_header m 0, List.drop_length]
      exact hdecodes
  | some σ =>
    obtain ⟨⟨chunks, hσ, hchunks, hdata⟩, hpos⟩ := hs.opened σ hhandle
    dsimp only
    rw [OpenFile.put_end hpos, hdata, List.append_assoc]
    refine .compressed (parse_header hm hfits _) ?_
    rw [← length_header m s.acked.length, List.drop_left, hσ, ← hchunks]
    exact hexact chunks

/-- In a run whose requests are careful, what has been acknowledged is what the file holds after the descriptor has been closed. -/
theorem close_usable (Γ : Config) (m : Module) (E : Encoder) (hexact : E.Exact) (hm : m.Available Γ) (s : WriteState E)
    (cs : List (WriteCall E)) (h : Run (append m) (Careful m) (fresh E) cs s) (hfits : s.acked.length < 2 ^ 63) :
    Usable Γ m E s.close s.acked := by
  have hsound : s.Sound m := by
    refine Run.invariant (I := Sound m) (fun s c t hs hc ht => ?_) h (sound_fresh m E)
    exact append_sound hs hc ht
  exact hsound.usable hexact hm hfits

/-! ## A header that cannot be brought up to date -/

/-- A request to a file of `null`, the module's write and the update of the header with these outcomes. -/
def request (buf : Bytes) (fault updated : Written) : WriteCall .null where
  buf := buf
  seekStart := true
  writeHeader := .full
  opened := true
  fault := fault
  seekHeader := true
  updateHeader := updated
  seekEnd := true

/-- A byte has been written. -/
def oneWritten : WriteState .null where
  file := ⟨FuseCompress.header .null 1 ++ [1], 13⟩
  handle := some ()
  offset := 1
  size := 1
  acked := [1]

/-- The next write fails. -/
theorem close_usable_oneWritten :
    Usable .plain .null .null ({ oneWritten with size := -1 } : WriteState .null).close [1] := by
  have hfirst : (fresh .null).Careful .null (request [1] .full .full) :=
    ⟨fun _ _ _ => rfl, (fun _ _ _ hopened => by cases hopened), fun _ => rfl, fun _ _ => by decide, fun _ _ => ⟨rfl, rfl, rfl⟩⟩
  have hsecond : oneWritten.Careful .null (request [2] .fail .full) :=
    ⟨(fun hnone => by cases hnone), (fun hnone => by cases hnone), fun _ => rfl, fun _ hres => absurd rfl hres,
      fun _ hres => absurd rfl hres⟩
  exact close_usable .plain .null .null Encoder.null_exact (Module.available_null _) { oneWritten with size := -1 }
    [request [1] .full .full, request [2] .fail .full] (.cons hfirst rfl (.cons hsecond rfl (.nil _))) (by decide)

/-- The first byte is written but the header cannot be brought up to date: the file says that it is empty, and its stream is not. -/
theorem failedHeader_not_usable :
    ¬∀ (Γ : Config) (m : Module) (E : Encoder), E.Exact → m.Available Γ → ∀ (s : WriteState E) (cs : List (WriteCall E)),
      Run (append m) (fun _ _ => True) (fresh E) cs s → s.acked.length < 2 ^ 63 → Usable Γ m E s.close s.acked := by
  intro h
  have hrun : Run (append .null) (fun _ _ => True) (fresh .null) [request [1] .full .fail]
      { file := ⟨FuseCompress.header .null 0 ++ [1], 0⟩, handle := some (), offset := 1, size := -1, acked := [] } :=
    .cons trivial rfl (.nil _)
  have husable : Usable .plain .null .null (FuseCompress.header .null 0 ++ [1]) [] :=
    h .plain .null .null Encoder.null_exact (Module.available_null _) _ _ hrun (by decide)
  cases husable with
  | compressed _ hdecodes =>
    have hstream : (FuseCompress.header .null 0 ++ [1]).drop headerSize = [] := hdecodes
    rw [← length_header .null 0, List.drop_left] at hstream
    cases hstream

end WriteState

end FuseCompress
