import FuseCompress.LzmaStream
import FuseCompress.Theorems.FailingReads
import FuseCompress.Theorems.FailingWrites

/-!
# What `lzma` writes is what it reads

The loops of `compress_lzma.c` come to an end. Whatever the sizes of the buffers, what has been written and closed without an error is
read back in order, every read delivering as many bytes as it is asked for while there are so many.
-/

namespace FuseCompress

variable {lib : Liblzma} {file file' : LzmaFile lib}

/-! ## Writing -/

/-- Behind `base` the file has what the encoder has put out for the bytes it has been given. -/
structure LzmaFile.Writing (F : LzmaFormat lib) (file : LzmaFile lib) (base given : Bytes) : Prop where
  mode : file.mode = 'w'
  pos : file.fd.pos = file.fd.data.length
  sent : ∃ sent, file.fd.data = base ++ sent ∧ F.Encoding file.str given sent

section Writing

variable {F : LzmaFormat lib} {base given : Bytes}

/-- A buffer of output goes to the end of the file. -/
theorem LzmaFile.put_full (hpos : file.fd.pos = file.fd.data.length) (r : LzmaCall lib.Stream) :
    ((file.after r).put .full r.out).fd.data = file.fd.data ++ r.out ∧
      ((file.after r).put .full r.out).fd.pos = ((file.after r).put .full r.out).fd.data.length := by
  have hput : ((file.after r).put .full r.out).fd = file.fd.put r.out := by
    unfold LzmaFile.put LzmaFile.after Written.count
    dsimp only
    rw [List.take_length]
  rw [hput, OpenFile.put_end hpos]
  exact ⟨rfl, rfl⟩

/-- The loop of `lzmaWrite` gives the encoder all of its input. -/
theorem lzmaWriteLoop_fine (len : Nat) (hlen : 0 < len) (hint : len < 2 ^ 31) (k : Nat) (hw : file.Writing F base given) :
    ∃ file', lzmaWriteLoop len hlen (fun _ => .full) k file = (file', true) ∧ file'.next = [] ∧
      file'.Writing F base (given ++ file.next) := by
  induction k, file using lzmaWriteLoop.induct len hlen (fun _ => .full) generalizing given with
  | case1 k file hnext =>
    rw [lzmaWriteLoop, if_pos hnext]
    refine ⟨file, rfl, hnext, ?_⟩
    rwa [hnext, List.append_nil]
  | case2 k file hnext r =>
    rename_i hret
    obtain ⟨sent, -, hencoding⟩ := hw.sent
    exact absurd (F.run file.str given sent file.next len hencoding hnext hlen).1 hret
  | case3 k file hnext r hret =>
    rename_i hshort
    have hle : r.out.length ≤ len := lib.out_le file.str .run file.next len
    have hresult : ((r.out.length : Nat) : Int).bmod (2 ^ 32) = r.out.length := Int.bmod_eq_of_le (by omega) (by omega)
    exact absurd hresult hshort
  | case4 k file hnext r hret file₁ hfull =>
    rename_i ih
    obtain ⟨sent, hdata, hencoding⟩ := hw.sent
    obtain ⟨-, hencoding'⟩ := F.run file.str given sent file.next len hencoding hnext hlen
    obtain ⟨hput, hpos⟩ := LzmaFile.put_full hw.pos r
    have hw' : file₁.Writing F base (given ++ file.next.take r.used) :=
      ⟨hw.mode, hpos, sent ++ r.out, by rw [hput, hdata, List.append_assoc], hencoding'⟩
    obtain ⟨file', hloop, hnil, hwritten⟩ := ih hw'
    refine ⟨file', ?_, hnil, ?_⟩
    · rw [lzmaWriteLoop, if_neg hnext]
      dsimp only
      rw [dif_neg hret, if_neg hfull]
      exact hloop
    · have hsplit : given ++ file.next.take r.used ++ file₁.next = given ++ file.next := by
        rw [List.append_assoc]
        exact congrArg _ (List.take_append_drop _ _)
      rwa [hsplit] at hwritten

/-- `lzmaWrite` writes all of its buffer. -/
theorem lzmaWrite_fine {buf : Bytes} (hint : buf.length < 2 ^ 31) (hw : file.Writing F base given) :
    ∃ file' : LzmaFile lib, lzmaWrite (fun _ => .full) file buf (.ofNat buf.length) = (file', (buf.length : Int)) ∧ file'.next = [] ∧
      file'.Writing F base (given ++ buf) := by
  have hmode : ¬file.mode ≠ 'w' := not_not.mpr hw.mode
  have hlen : (UInt32.ofNat buf.length).toNat = buf.length := Nat.mod_eq_of_lt (by omega)
  have hresult : asInt buf.length = buf.length := Int.bmod_eq_of_le (by omega) (by omega)
  unfold lzmaWrite
  rw [if_neg hmode]
  simp only [hlen, List.take_length, hresult]
  split
  · rename_i hbuf
    have hw' : ({ file with next := buf } : LzmaFile lib).Writing F base given := ⟨hw.mode, hw.pos, hw.sent⟩
    obtain ⟨file', hloop, hnil, hwritten⟩ := lzmaWriteLoop_fine buf.length hbuf hint 0 hw'
    rw [hloop]
    exact ⟨file', rfl, hnil, hwritten⟩
  · rename_i hbuf
    have hnil : buf = [] := List.eq_nil_of_length_eq_zero (Nat.eq_zero_of_not_pos hbuf)
    subst hnil
    rw [List.append_nil]
    exact ⟨_, rfl, rfl, hw.mode, hw.pos, hw.sent⟩

theorem LzmaFile.writes_fine {chunks : List Bytes} (hints : ∀ buf ∈ chunks, buf.length < 2 ^ 31) (hnext : file.next = [])
    (hw : file.Writing F base given) :
    ∃ file', file.writes chunks = (file', chunks.map (fun buf => (buf.length : Int))) ∧ file'.next = [] ∧
      file'.Writing F base (given ++ chunks.flatten) := by
  induction chunks generalizing file given with
  | nil =>
    refine ⟨file, rfl, hnext, ?_⟩
    rwa [List.flatten_nil, List.append_nil]
  | cons buf chunks ih =>
    obtain ⟨hint, hints⟩ := List.forall_mem_cons.mp hints
    obtain ⟨file₁, hwrite, hnext₁, hw₁⟩ := lzmaWrite_fine hint hw
    obtain ⟨file₂, hwrites, hnext₂, hw₂⟩ := ih hints hnext₁ hw₁
    refine ⟨file₂, ?_, hnext₂, ?_⟩
    · rw [LzmaFile.writes, hwrite]
      dsimp only
      rw [hwrites]
      rfl
    · rwa [List.flatten_cons, ← List.append_assoc]

/-- The loop of `lzmaClose` brings the stream to its end. -/
theorem lzmaFinishLoop_fine (k : Nat) (hnext : file.next = []) (hpos : file.fd.pos = file.fd.data.length) {sent : Bytes}
    (hdata : file.fd.data = base ++ sent) (hfinishing : F.Finishing file.str given sent) :
    ∃ file' stream, lzmaFinishLoop (fun _ => .full) k file = (file', true) ∧ file'.fd.data = base ++ stream ∧
      F.Decodes stream given := by
  induction k, file using lzmaFinishLoop.induct (fun _ => .full) generalizing sent with
  | case1 k file r =>
    rename_i hret
    have hfinish := F.finish file.str given sent lzmaBufSize hfinishing (by decide)
    rw [← hnext] at hfinish
    rcases hfinish with ⟨hok, -⟩ | ⟨hend, -⟩
    · rw [hret] at hok
      cases hok
    · rw [hret] at hend
      cases hend
  | case2 k file r hret =>
    rename_i hshort
    exact absurd rfl hshort
  | case3 k file r hret hfull =>
    rename_i hend
    have hfinish := F.finish file.str given sent lzmaBufSize hfinishing (by decide)
    rw [← hnext] at hfinish
    rcases hfinish with ⟨hok, -⟩ | ⟨-, hdecodes⟩
    · rw [hend] at hok
      cases hok
    · have hput := (LzmaFile.put_full hpos r).1
      refine ⟨(file.after r).put .full r.out, sent ++ r.out, ?_, ?_, hdecodes⟩
      · rw [lzmaFinishLoop]
        dsimp only
        rw [dif_neg hret, if_neg hfull, dif_pos hend]
      · rw [hput, hdata, List.append_assoc]
  | case4 k file r hret file₁ hfull hend =>
    rename_i ih
    obtain ⟨hput, hpos₁⟩ := LzmaFile.put_full hpos r
    have hfinish := F.finish file.str given sent lzmaBufSize hfinishing (by decide)
    rw [← hnext] at hfinish
    rcases hfinish with ⟨-, hfinishing'⟩ | ⟨hend', -⟩
    · have hnext' : file₁.next = [] := by
        change file.next.drop r.used = []
        rw [hnext, List.drop_nil]
      have hdata' : file₁.fd.data = base ++ (sent ++ r.out) := by rw [hput, hdata, List.append_assoc]
      obtain ⟨file', stream, hloop, hstream, hdecodes⟩ := ih hnext' hpos₁ hdata' hfinishing'
      refine ⟨file', stream, ?_, hstream, hdecodes⟩
      rw [lzmaFinishLoop]
      dsimp only
      rw [dif_neg hret, if_neg hfull, dif_neg hend]
      exact hloop
    · exact absurd hend' hend

/-- What `lzmaClose` leaves decodes to all that has been written. -/
theorem lzmaClose_fine (hnext : file.next = []) (hw : file.Writing F base given) :
    ∃ fd stream, lzmaClose (fun _ => .full) true file = (fd, 0) ∧ fd.data = base ++ stream ∧
      F.Decodes stream given := by
  obtain ⟨sent, hdata, hencoding⟩ := hw.sent
  obtain ⟨file', stream, hloop, hstream, hdecodes⟩ :=
    lzmaFinishLoop_fine 0 hnext hw.pos hdata (F.closing _ _ _ hencoding)
  refine ⟨file'.fd, stream, ?_, hstream, hdecodes⟩
  unfold lzmaClose
  rw [if_pos hw.mode, hloop]
  rfl

end Writing

/-! ## Reading -/

/-- The rest of a stream is still to be read, and the rest of its content to be delivered. -/
structure LzmaFile.Reading (F : LzmaFormat lib) (file : LzmaFile lib) (text : Bytes) : Prop where
  mode : file.mode = 'r'
  decoding : F.Decoding file.str file.unread text

section Reading

variable {F : LzmaFormat lib} {text : Bytes}

/-- There are no more failing reads than before. -/
theorem LzmaFile.fill_nil {faults₁ : List Bool} (hfill : file.fill [] = some (file', faults₁)) : faults₁ = [] := by
  unfold LzmaFile.fill at hfill
  split at hfill
  · cases hfill
    rfl
  · cases hfill
    rfl

/-- A call of `lzma_code` on what there is to read delivers the next bytes. -/
theorem LzmaFile.Reading.code {file₁ : LzmaFile lib} {faults faults₁ : List Bool} {room : Nat} (hr : file.Reading F text)
    (hfill : file.fill faults = some (file₁, faults₁)) (hnext : file₁.next ≠ []) (hroom : room ≠ 0) :
    ∃ rest, text = (lib.code file₁.str .run file₁.next room).out ++ rest ∧
      (file₁.after (lib.code file₁.str .run file₁.next room)).Reading F rest ∧
      ((lib.code file₁.str .run file₁.next room).ret = .streamEnd ∧ rest = [] ∨ (lib.code file₁.str .run file₁.next room).ret = .ok) := by
  obtain ⟨hstr, hmode, hunread, -⟩ := LzmaFile.fill_some hfill
  have hdecoding := hr.decoding
  rw [← hstr, ← hunread] at hdecoding
  obtain ⟨rest, hrest, hdecoding', hret⟩ := F.decode _ _ _ _ room hdecoding hnext (Nat.pos_of_ne_zero hroom)
  refine ⟨rest, hrest, ⟨hmode.trans hr.mode, hdecoding'⟩, ?_⟩
  rcases hret with ⟨hend, hnil⟩ | hok
  · rw [hnil] at hdecoding'
    exact Or.inl ⟨hend, F.ended _ _ hdecoding'⟩
  · exact Or.inr hok

/-- A call that does not fail delivers the next bytes, and all of them while there is room; one that fails has met a failing `read`. -/
theorem lzmaReadLoop_reads (faults : List Bool) (room : Nat) (hr : file.Reading F text) :
    (∃ file', lzmaReadLoop faults file room = (file', some (text.take room)) ∧ file'.Reading F (text.drop room)) ∨
      faults ≠ [] ∧ ∃ file' text', lzmaReadLoop faults file room = (file', none) ∧ file'.Reading F text' := by
  induction faults, file, room using lzmaReadLoop.induct generalizing text with
  | case1 faults file =>
    rw [lzmaReadLoop, if_pos rfl]
    exact Or.inl ⟨file, rfl, hr⟩
  | case2 faults file room hroom hfill =>
    rw [lzmaReadLoop, if_neg hroom, hfill]
    refine Or.inr ⟨?_, file, text, rfl, hr⟩
    rintro rfl
    unfold LzmaFile.fill at hfill
    split at hfill <;> cases hfill
  | case3 faults file room hroom file₁ faults₁ hfill hnext =>
    obtain ⟨hstr, hmode, hunread, hend⟩ := LzmaFile.fill_some hfill
    have hdecoding := hr.decoding
    rw [hend hnext] at hdecoding
    have hnil := F.ended _ _ hdecoding
    subst hnil
    rw [lzmaReadLoop, if_neg hroom, hfill]
    dsimp only
    rw [if_pos hnext, List.take_nil, List.drop_nil]
    refine Or.inl ⟨file₁, rfl, hmode.trans hr.mode, ?_⟩
    rw [hstr, hunread]
    exact hr.decoding
  | case4 faults file room hroom file₁ faults₁ hfill hnext r =>
    rename_i herror
    obtain ⟨rest, -, -, ⟨hend, -⟩ | hok⟩ := hr.code hfill hnext hroom
    · exact absurd (herror.symm.trans hend) (by decide)
    · exact absurd (herror.symm.trans hok) (by decide)
  | case5 faults file room hroom file₁ faults₁ hfill hnext r herror =>
    rename_i hend
    obtain ⟨rest, hrest, hr', ⟨-, hnil⟩ | hok⟩ := hr.code hfill hnext hroom
    · rw [hnil, List.append_nil] at hrest
      have hle : text.length ≤ room := hrest ▸ lib.out_le file₁.str .run file₁.next room
      rw [lzmaReadLoop, if_neg hroom, hfill]
      dsimp only
      rw [if_neg hnext, if_neg herror, if_pos hend, List.take_of_length_le hle, List.drop_of_length_le hle, ← hnil]
      exact Or.inl ⟨_, by rw [← hrest], hr'⟩
    · exact absurd (hend.symm.trans hok) (by decide)
  | case6 faults file room hroom file₁ faults₁ hfill hnext r herror hend =>
    rename_i ih
    obtain ⟨rest, hrest, hr', ⟨hend', -⟩ | -⟩ := hr.code hfill hnext hroom
    · exact absurd hend' hend
    have hle : r.out.length ≤ room := lib.out_le file₁.str .run file₁.next room
    rw [lzmaReadLoop, if_neg hroom, hfill]
    dsimp only
    rw [if_neg hnext, if_neg herror, if_neg hend]
    rcases ih hr' with ⟨file', hloop, hreading⟩ | ⟨hfaults, file', text', hloop, hreading⟩
    · refine Or.inl ⟨file', ?_, ?_⟩
      · rw [hloop, Option.map_some, hrest, List.take_append, List.take_of_length_le hle]
      · rwa [hrest, List.drop_append, List.drop_of_length_le hle, List.nil_append]
    · refine Or.inr ⟨?_, file', text', by rw [hloop]; rfl, hreading⟩
      rintro rfl
      exact hfaults (LzmaFile.fill_nil hfill)

/-- `lzmaRead` delivers the next bytes, and all of them while there are so many, unless a `read` fails. -/
theorem lzmaRead_reads (faults : List Bool) (len : UInt32) (hr : file.Reading F text) :
    (∃ file', lzmaRead faults file len = (file', asInt (text.take len.toNat).length, text.take len.toNat) ∧
      file'.Reading F (text.drop len.toNat)) ∨
      faults ≠ [] ∧ ∃ file' text', lzmaRead faults file len = (file', -1, []) ∧ file'.Reading F text' := by
  have hmode : ¬file.mode ≠ 'r' := not_not.mpr hr.mode
  unfold lzmaRead
  rw [if_neg hmode]
  rcases lzmaReadLoop_reads faults len.toNat hr with ⟨file', hloop, hr'⟩ | ⟨hfaults, file', text', hloop, hr'⟩
  · exact Or.inl ⟨file', by rw [hloop], hr'⟩
  · exact Or.inr ⟨hfaults, file', text', by rw [hloop], hr'⟩

theorem LzmaFile.reads_fine {sizes : List UInt32} (hints : ∀ len ∈ sizes, len.toNat < 2 ^ 31) (hr : file.Reading F text) :
    file.reads sizes = (pieces text (sizes.map UInt32.toNat)).map (fun buf => ((buf.length : Int), buf)) := by
  induction sizes generalizing file text with
  | nil => rfl
  | cons len sizes ih =>
    obtain ⟨hint, hints⟩ := List.forall_mem_cons.mp hints
    rcases lzmaRead_reads [] len hr with ⟨file', hread, hr'⟩ | ⟨hfaults, -⟩
    · have hle : (text.take len.toNat).length ≤ len.toNat := List.length_take_le _ _
      have hresult : asInt (text.take len.toNat).length = (text.take len.toNat).length := Int.bmod_eq_of_le (by omega) (by omega)
      rw [LzmaFile.reads, hread, hresult, List.map_cons, pieces, List.map_cons, ih hints hr']
    · exact absurd rfl hfaults

/-- A state in which there is something to read stays one. -/
theorem lzmaRead_reading (faults : List Bool) (len : UInt32) (hr : ∃ text, file.Reading F text) :
    ∃ text, (lzmaRead faults file len).1.Reading F text := by
  obtain ⟨text, hr⟩ := hr
  rcases lzmaRead_reads faults len hr with ⟨file', hread, hr'⟩ | ⟨-, file', text', hread, hr'⟩
  · rw [hread]
    exact ⟨_, hr'⟩
  · rw [hread]
    exact ⟨text', hr'⟩

/-- `lzma` as a decoder of a stream. A negative result is a failure to who has asked. -/
def Decoder.lzma (F : LzmaFormat lib) (opened : lib.Stream) {stream content : Bytes} (h : F.Decoding opened stream content) : Decoder where
  State := { file : LzmaFile lib // ∃ text, file.Reading F text }
  Fault := List Bool
  fine := []
  opened := ⟨{ str := opened, next := [], fd := ⟨stream, 0⟩, mode := 'r' }, content, rfl, h⟩
  read := fun faults n file =>
    let r := (lzmaRead faults file.1 (.ofNat n)).2
    (⟨(lzmaRead faults file.1 (.ofNat n)).1, lzmaRead_reading faults _ file.2⟩, if r.1 < 0 then none else some r.2)

/-- What such a call delivers are the next bytes. -/
theorem Decoder.lzma_read {opened : lib.Stream} {stream content : Bytes} (h : F.Decoding opened stream content) {faults : List Bool}
    {n : Nat} (hr : file.Reading F text) {σ : (Decoder.lzma F opened h).State} {buf : Bytes}
    (hcall : (Decoder.lzma F opened h).read faults n ⟨file, text, hr⟩ = (σ, some buf)) :
    buf = text.take (n % 2 ^ 32) ∧ σ.1.Reading F (text.drop (n % 2 ^ 32)) := by
  have hlen : (UInt32.ofNat n).toNat = n % 2 ^ 32 := UInt32.toNat_ofNat'
  obtain ⟨hσ, hbuf⟩ := Prod.mk.inj hcall
  have hfile : (lzmaRead faults file (.ofNat n)).1 = σ.1 := congrArg Subtype.val hσ
  rw [← hlen, ← hfile]
  rcases lzmaRead_reads faults (.ofNat n) hr with ⟨file₁, hread, hr₁⟩ | ⟨-, file₁, text₁, hread, -⟩
  · rw [hread] at hbuf ⊢
    dsimp only at hbuf
    split at hbuf
    · cases hbuf
    · cases hbuf
      exact ⟨rfl, hr₁⟩
  · rw [hread] at hbuf
    cases hbuf

/-- A single byte is delivered, unless the content is at its end. -/
theorem Decoder.lzma_read_one {opened : lib.Stream} {stream content : Bytes} (h : F.Decoding opened stream content)
    (hr : file.Reading F text) :
    ∃ σ, (Decoder.lzma F opened h).read [] 1 ⟨file, text, hr⟩ = (σ, some (text.take 1)) := by
  rcases lzmaRead_reads [] 1 hr with ⟨file₁, hread, -⟩ | ⟨hfaults, -⟩
  · refine ⟨((Decoder.lzma F opened h).read [] 1 ⟨file, text, hr⟩).1, Prod.ext rfl ?_⟩
    change (if (lzmaRead [] file 1).2.1 < 0 then none else some (lzmaRead [] file 1).2.2) = some (text.take 1)
    rw [hread]
    have hle : (text.take (UInt32.toNat 1)).length ≤ 1 := List.length_take_le _ _
    have hresult : asInt (text.take (UInt32.toNat 1)).length = (text.take (UInt32.toNat 1)).length :=
      Int.bmod_eq_of_le (by omega) (by omega)
    rw [hresult]
    exact if_neg (Int.not_lt.mpr (Int.natCast_nonneg _))
  · exact absurd rfl hfaults

theorem Decoder.byte_lzma {opened : lib.Stream} {stream content : Bytes} (h : F.Decoding opened stream content) (k : Nat)
    (hr : file.Reading F text) : (Decoder.lzma F opened h).byte k ⟨file, text, hr⟩ = text[k]? := by
  obtain ⟨σ, hone⟩ := Decoder.lzma_read_one h hr
  induction k generalizing file text σ with
  | zero =>
    change ((Decoder.lzma F opened h).read [] 1 ⟨file, text, hr⟩).2.bind List.head? = text[0]?
    rw [hone]
    cases text <;> rfl
  | succ k ih =>
    change (((Decoder.lzma F opened h).read [] 1 ⟨file, text, hr⟩).2.bind List.head?).bind
      (fun _ => (Decoder.lzma F opened h).byte k ((Decoder.lzma F opened h).read [] 1 ⟨file, text, hr⟩).1) = text[k + 1]?
    have hr' : σ.1.Reading F (text.drop 1) := (Decoder.lzma_read h hr hone).2
    obtain ⟨σ', hone'⟩ := Decoder.lzma_read_one h hr'
    rw [hone]
    have hrest : (Decoder.lzma F opened h).byte k σ = (text.drop 1)[k]? := ih hr' σ' hone'
    rw [hrest]
    cases text <;> rfl

/-- `lzma` meets what is assumed of a decoder. -/
theorem Decoder.lzma_exact {opened : lib.Stream} {stream content : Bytes} (h : F.Decoding opened stream content) :
    (Decoder.lzma F opened h).Exact := by
  refine ⟨fun faults n σ σ' buf hcall => ?_, fun faults n σ σ' buf hcall hlength i => ?_⟩
  · obtain ⟨file, text, hr⟩ := σ
    obtain ⟨rfl, -⟩ := Decoder.lzma_read h hr hcall
    refine ⟨(List.length_take_le _ _).trans (Nat.mod_le _ _), fun i hi => ?_⟩
    rw [Decoder.byte_lzma h i hr, List.getElem?_take_of_lt (lt_of_lt_of_le hi (List.length_take_le _ _))]
  · obtain ⟨file, text, hr⟩ := σ
    obtain ⟨rfl, hr'⟩ := Decoder.lzma_read h hr hcall
    -- as many bytes as were asked for: the length has not been cut
    have hle : (text.take (n % 2 ^ 32)).length ≤ n % 2 ^ 32 := List.length_take_le _ _
    have hn : n % 2 ^ 32 = n := Nat.le_antisymm (Nat.mod_le _ _) (hlength.symm.trans_le hle)
    rw [hn] at hr'
    rw [Decoder.byte_lzma h _ hr, ← List.getElem?_drop]
    exact Decoder.byte_lzma h i hr'

end Reading

/-! ## A library -/

/-- The headers of a stream and of its block, as level 6 has them. -/
def xzHeaders : Bytes :=
  [253, 55, 122, 88, 90, 0, 0, 1, 105, 34, 222, 54, 2, 0, 33, 1, 22, 0, 0, 0, 116, 47, 229, 163]

/-- What follows the headers: a block with the letter `a`, its index and its footer. A zero, which is not what the real library puts
there, is before any other content. -/
def xzRest (content : Bytes) : Bytes :=
  if content = [97] then
    [1, 0, 0, 97, 0, 0, 0, 0, 67, 190, 183, 232, 0, 1, 21, 1, 169, 99, 52, 96, 144, 66, 153, 13, 1, 0, 0, 0, 0, 1, 89, 90]
  else 0 :: content

/-- The streams of the library: an encoder with the rest of the headers and what it has been given, one that has been told to finish,
a decoder before as many bytes of the headers, one that copies, and one that is in a block with the letter `a`. -/
inductive XzStream where
  | enc (head given : Bytes)
  | out (rest : Bytes)
  | headers (left : Nat)
  | copy
  | block (left : Nat)

/-- What is put out before the end of the stream. -/
def XzStream.rest : XzStream → Bytes
  | .enc head given => head ++ xzRest given
  | .out rest => rest
  | _ => []

/-- Input is taken, one byte at most. -/
def XzStream.step (σ : XzStream) (inp : Bytes) : LzmaCall XzStream :=
  ⟨σ, min 1 inp.length, [], if inp = [] then .error else .ok⟩

/-- `lzma_code` for `LZMA_RUN`. -/
def XzStream.run : XzStream → Bytes → Nat → LzmaCall XzStream
  | .enc [] given, inp, _ => ⟨.enc [] (given ++ inp), inp.length, [], if inp = [] then .error else .ok⟩
  | .enc (b :: head) given, _, room => ⟨.enc ((b :: head).drop room) given, 0, (b :: head).take room, .ok⟩
  | .out rest, _, _ => ⟨.out rest, 0, [], .error⟩
  | .headers (left + 1), inp, _ => XzStream.step (.headers left) inp
  | .headers 0, inp, _ => XzStream.step (if inp.headD 0 = 0 then .copy else .block 30) inp
  | .copy, inp, room => ⟨.copy, min room inp.length, inp.take room, if inp = [] then .error else .ok⟩
  | .block (left + 1), inp, _ => XzStream.step (.block left) inp
  | .block 0, inp, room => ⟨.copy, min 1 inp.length, [97].take room, if inp = [] then .error else .streamEnd⟩

/-- `lzma_code` for `LZMA_FINISH`. -/
def XzStream.finish (σ : XzStream) (room : Nat) : LzmaCall XzStream :=
  ⟨.out (σ.rest.drop room), 0, σ.rest.take room, if σ.rest.length ≤ room then .streamEnd else .ok⟩

def XzStream.code (σ : XzStream) : LzmaAction → Bytes → Nat → LzmaCall XzStream
  | .run, inp, room => σ.run inp room
  | .finish, _, room => σ.finish room

theorem XzStream.used_le (σ : XzStream) (a : LzmaAction) (inp : Bytes) (room : Nat) : (σ.code a inp room).used ≤ inp.length := by
  cases a with
  | finish => exact Nat.zero_le _
  | run =>
    unfold code
    fun_cases run σ inp room
    all_goals first | exact Nat.le_refl _ | exact Nat.zero_le _ | exact Nat.min_le_right _ _

theorem XzStream.out_le (σ : XzStream) (a : LzmaAction) (inp : Bytes) (room : Nat) : (σ.code a inp room).out.length ≤ room := by
  cases a with
  | finish => exact List.length_take_le _ _
  | run =>
    unfold code
    fun_cases run σ inp room
    all_goals first | exact Nat.zero_le _ | exact List.length_take_le _ _

/-- A step with input takes some. -/
theorem XzStream.step_used {σ : XzStream} {inp : Bytes} (hok : (σ.step inp).ret = .ok) : 0 < (σ.step inp).used := by
  unfold step at hok ⊢
  cases inp with
  | nil => cases hok
  | cons b inp => simp

/-- A call takes a part of its input, or puts out a part of what is left. -/
theorem XzStream.progress (σ : XzStream) (a : LzmaAction) (inp : Bytes) (room : Nat) (hroom : 0 < room)
    (hok : (σ.code a inp room).ret = .ok) :
    0 < (σ.code a inp room).used ∨ (σ.code a inp room).stream.rest.length < σ.rest.length := by
  cases a with
  | finish =>
    right
    change (if σ.rest.length ≤ room then LzmaRet.streamEnd else .ok) = .ok at hok
    change (σ.rest.drop room).length < σ.rest.length
    split at hok
    · cases hok
    · rw [List.length_drop]
      omega
  | run =>
    change (σ.run inp room).ret = .ok at hok
    change 0 < (σ.run inp room).used ∨ (σ.run inp room).stream.rest.length < σ.rest.length
    cases σ with
    | out rest => cases hok
    | enc head given =>
      cases head with
      | nil =>
        left
        cases inp with
        | nil => cases hok
        | cons c inp => exact Nat.succ_pos _
      | cons b head =>
        right
        change ((b :: head).drop room ++ xzRest given).length < ((b :: head) ++ xzRest given).length
        rw [List.length_append, List.length_append, List.length_drop, List.length_cons]
        omega
    | headers left => cases left <;> exact Or.inl (step_used hok)
    | copy =>
      left
      cases inp with
      | nil => cases hok
      | cons c inp => exact Nat.lt_min.mpr ⟨hroom, Nat.succ_pos _⟩
    | block left =>
      cases left with
      | zero => cases inp <;> cases hok
      | succ left => exact Or.inl (step_used hok)

/-- A library that makes of the letter `a` the stream that the real one makes of it with level 6. -/
def Liblzma.sample : Liblzma where
  Stream := XzStream
  encoder := fun level => if level = 6 then some (.enc xzHeaders []) else none
  decoder := some (.headers xzHeaders.length)
  code := XzStream.code
  pending := fun σ => σ.rest.length
  used_le := XzStream.used_le
  out_le := XzStream.out_le
  progress := XzStream.progress

/-- The encoder has been given the content, and has put out a part of the headers. -/
def XzStream.Encoding (σ : XzStream) (given sent : Bytes) : Prop :=
  ∃ head, σ = .enc head given ∧ sent ++ head = xzHeaders

/-- What has been put out, with what is left, is all of the stream. -/
def XzStream.Finishing (σ : XzStream) (given sent : Bytes) : Prop := sent ++ σ.rest = xzHeaders ++ xzRest given

/-- What a decoder makes of the rest of a stream. -/
def XzStream.Decoding : XzStream → Bytes → Bytes → Prop
  | .headers left, inp, text => ∃ head, head.length = left ∧ inp = head ++ xzRest text
  | .copy, inp, text => inp = text
  | .block left, inp, text => inp.length = left + 1 ∧ text = [97]
  | _, _, _ => False

theorem XzStream.run_encoding (σ : XzStream) (given sent inp : Bytes) (room : Nat) (hencoding : σ.Encoding given sent) (hinp : inp ≠ []) :
    (σ.run inp room).ret = .ok ∧
      (σ.run inp room).stream.Encoding (given ++ inp.take (σ.run inp room).used) (sent ++ (σ.run inp room).out) := by
  obtain ⟨head, rfl, hhead⟩ := hencoding
  cases head with
  | nil =>
    change (if inp = [] then LzmaRet.error else .ok) = .ok ∧
      XzStream.Encoding (.enc [] (given ++ inp)) (given ++ inp.take inp.length) (sent ++ [])
    rw [if_neg hinp, List.take_length, List.append_nil]
    exact ⟨rfl, [], rfl, hhead⟩
  | cons b head =>
    refine ⟨rfl, (b :: head).drop room, ?_, ?_⟩
    · change XzStream.enc _ given = .enc _ (given ++ [])
      rw [List.append_nil]
    · change sent ++ (b :: head).take room ++ (b :: head).drop room = xzHeaders
      rw [List.append_assoc, List.take_append_drop, hhead]

theorem XzStream.finish_finishing (σ : XzStream) (given sent : Bytes) (room : Nat) (hfinishing : σ.Finishing given sent) :
    (σ.finish room).ret = .ok ∧ (σ.finish room).stream.Finishing given (sent ++ (σ.finish room).out) ∨
      (σ.finish room).ret = .streamEnd ∧ sent ++ (σ.finish room).out = xzHeaders ++ xzRest given := by
  unfold Finishing at hfinishing ⊢
  unfold finish
  dsimp only
  split
  · rename_i hle
    right
    rw [List.take_of_length_le hle]
    exact ⟨rfl, hfinishing⟩
  · left
    refine ⟨rfl, ?_⟩
    change sent ++ σ.rest.take room ++ σ.rest.drop room = _
    rw [List.append_assoc, List.take_append_drop, hfinishing]

/-- The byte behind the headers tells what follows. -/
theorem XzStream.block_decoding {c : UInt8} {inp text : Bytes} (h : c :: inp = xzRest text) :
    (if c = 0 then XzStream.copy else .block 30).Decoding inp text := by
  unfold xzRest at h
  split at h
  · rename_i htext
    obtain ⟨rfl, rfl⟩ := List.cons.inj h
    exact ⟨rfl, htext⟩
  · obtain ⟨rfl, rfl⟩ := List.cons.inj h
    exact rfl

/-- A step of the decoder, by one byte of what there is. -/
theorem XzStream.step_decoding {σ : XzStream} {c : UInt8} {inp more text : Bytes} (hdecoding : σ.Decoding (inp ++ more) text) :
    ∃ rest, text = (σ.step (c :: inp)).out ++ rest ∧
      (σ.step (c :: inp)).stream.Decoding ((c :: inp).drop (σ.step (c :: inp)).used ++ more) rest ∧
      ((σ.step (c :: inp)).ret = .streamEnd ∧ (c :: inp).drop (σ.step (c :: inp)).used ++ more = [] ∨
        (σ.step (c :: inp)).ret = .ok) := by
  have hused : (σ.step (c :: inp)).used = 1 := Nat.min_eq_left (Nat.succ_pos _)
  rw [hused]
  exact ⟨text, rfl, hdecoding, Or.inr rfl⟩

theorem XzStream.run_decoding (σ : XzStream) (inp more text : Bytes) (room : Nat) (hdecoding : σ.Decoding (inp ++ more) text)
    (hinp : inp ≠ []) (hroom : 0 < room) :
    ∃ rest, text = (σ.run inp room).out ++ rest ∧ (σ.run inp room).stream.Decoding (inp.drop (σ.run inp room).used ++ more) rest ∧
      ((σ.run inp room).ret = .streamEnd ∧ inp.drop (σ.run inp room).used ++ more = [] ∨ (σ.run inp room).ret = .ok) := by
  obtain ⟨c, inp, rfl⟩ := List.exists_cons_of_ne_nil hinp
  cases σ with
  | enc head given => exact hdecoding.elim
  | out rest => exact hdecoding.elim
  | headers left =>
    obtain ⟨head, hlength, hhead⟩ := hdecoding
    cases left with
    | zero =>
      rw [List.eq_nil_of_length_eq_zero hlength] at hhead
      exact step_decoding (block_decoding hhead)
    | succ left =>
      obtain ⟨b, head, rfl⟩ := List.exists_cons_of_length_eq_add_one hlength
      have htail : inp ++ more = head ++ xzRest text := (List.cons.inj hhead).2
      exact step_decoding ⟨head, Nat.succ.inj hlength, htail⟩
  | copy =>
    have htext : c :: inp ++ more = text := hdecoding
    refine ⟨(c :: inp).drop room ++ more, ?_, ?_, Or.inr rfl⟩
    · change text = (c :: inp).take room ++ _
      rw [← htext, ← List.append_assoc, List.take_append_drop]
    · change (c :: inp).drop (min room (c :: inp).length) ++ more = (c :: inp).drop room ++ more
      rcases Nat.le_total room (c :: inp).length with hle | hle
      · rw [Nat.min_eq_left hle]
      · rw [Nat.min_eq_right hle, List.drop_length, List.drop_of_length_le hle]
  | block left =>
    obtain ⟨hlength, htext⟩ := hdecoding
    have hlength : (inp ++ more).length = left := Nat.succ.inj hlength
    cases left with
    | zero =>
      have hnil : inp ++ more = [] := List.eq_nil_of_length_eq_zero hlength
      have hout : [97].take room = ([97] : Bytes) := List.take_of_length_le hroom
      have hused : min 1 (c :: inp).length = 1 := Nat.min_eq_left (Nat.succ_pos _)
      refine ⟨[], ?_, ?_, Or.inl ⟨rfl, ?_⟩⟩
      · change text = [97].take room ++ []
        rw [hout, htext, List.append_nil]
      · change (c :: inp).drop (min 1 (c :: inp).length) ++ more = []
        rw [hused]
        exact hnil
      · change (c :: inp).drop (min 1 (c :: inp).length) ++ more = []
        rw [hused]
        exact hnil
    | succ left => exact step_decoding ⟨hlength, htext⟩

/-- It keeps what is documented. -/
def LzmaFormat.sample : LzmaFormat .sample where
  Decodes := fun stream content => stream = xzHeaders ++ xzRest content
  Encoding := XzStream.Encoding
  Finishing := XzStream.Finishing
  Decoding := XzStream.Decoding
  encoder := by
    intro level σ hencoder
    change (if level = 6 then some (XzStream.enc xzHeaders []) else none) = some σ at hencoder
    split at hencoder
    · cases hencoder
      exact ⟨xzHeaders, rfl, rfl⟩
    · cases hencoder
  run := fun σ given sent inp room hencoding hinp _ => XzStream.run_encoding σ given sent inp room hencoding hinp
  closing := by
    rintro σ given sent ⟨head, rfl, hhead⟩
    change sent ++ (head ++ xzRest given) = xzHeaders ++ xzRest given
    rw [← List.append_assoc, hhead]
  finish := fun σ given sent room hfinishing _ => XzStream.finish_finishing σ given sent room hfinishing
  decoder := by
    intro σ stream content hdecoder hdecodes
    cases hdecoder
    exact ⟨xzHeaders, rfl, hdecodes⟩
  decode := XzStream.run_decoding
  ended := by
    intro σ text hdecoding
    cases σ with
    | enc head given => exact hdecoding.elim
    | out rest => exact hdecoding.elim
    | headers left =>
      obtain ⟨head, -, hhead⟩ := hdecoding
      unfold xzRest at hhead
      split at hhead <;> cases head <;> cases hhead
    | copy => exact hdecoding.symm
    | block left => cases hdecoding.1

/-! ## Round trip -/

theorem lzmaOpen_write (lib : Liblzma) (fd : OpenFile) (c : Char) : lzmaOpen lib true fd ['w', 'b', c] =
    (lib.encoder (c.toNat - '0'.toNat : Int)).map (fun str => { str := str, next := [], fd := fd, mode := 'w' }) := rfl

theorem lzmaOpen_read (lib : Liblzma) (fd : OpenFile) :
    lzmaOpen lib true fd ['r', 'b'] = lib.decoder.map (fun str => { str := str, next := [], fd := fd, mode := 'r' }) := rfl

/-- What is written in pieces of any sizes and closed, is read back in pieces of any sizes, as far as an `int` holds them. -/
theorem lzma_roundtrip (F : LzmaFormat lib) {fd : OpenFile} (hend : fd.pos = fd.data.length) (c : Char) {chunks : List Bytes}
    (hchunks : ∀ buf ∈ chunks, buf.length < 2 ^ 31) {w r : LzmaFile lib} (hwrite : lzmaOpen lib true fd ['w', 'b', c] = some w)
    (hread : lzmaOpen lib true { fd with data := (lzmaClose (fun _ => .full) true (w.writes chunks).1).1.data } ['r', 'b'] = some r)
    {sizes : List UInt32} (hsizes : ∀ len ∈ sizes, len.toNat < 2 ^ 31) :
    (w.writes chunks).2 = chunks.map (fun buf => (buf.length : Int)) ∧
      (lzmaClose (fun _ => .full) true (w.writes chunks).1).2 = 0 ∧
        r.reads sizes = (pieces chunks.flatten (sizes.map UInt32.toNat)).map (fun buf => ((buf.length : Int), buf)) := by
  rw [lzmaOpen_write, Option.map_eq_some_iff] at hwrite
  obtain ⟨σ, hσ, rfl⟩ := hwrite
  have hfresh : (⟨σ, [], fd, 'w'⟩ : LzmaFile lib).Writing F fd.data [] :=
    ⟨rfl, hend, [], (List.append_nil fd.data).symm, F.encoder _ _ hσ⟩
  obtain ⟨w, hwrites, hnext, hw⟩ := LzmaFile.writes_fine hchunks rfl hfresh
  obtain ⟨fd', stream, hclose, hdata, hdecodes⟩ := lzmaClose_fine hnext hw
  rw [hwrites, hclose, lzmaOpen_read, Option.map_eq_some_iff] at hread
  obtain ⟨σ', hσ', rfl⟩ := hread
  refine ⟨by rw [hwrites], by rw [hwrites, hclose], LzmaFile.reads_fine (F := F) hsizes ⟨rfl, ?_⟩⟩
  have hunread : (⟨σ', [], { fd with data := fd'.data }, 'r'⟩ : LzmaFile lib).unread = stream := by
    unfold LzmaFile.unread
    dsimp only
    rw [List.nil_append, hdata, hend, List.drop_left]
  rw [hunread]
  exact F.decoder σ' stream chunks.flatten hσ' hdecodes

/-- The letter `a`, and then nothing, written to an empty file. -/
theorem lzma_roundtrip_letter :
    ∃ w r : LzmaFile .sample, lzmaOpen .sample true ⟨[], 0⟩ ['w', 'b', '6'] = some w ∧
      lzmaOpen .sample true ⟨(lzmaClose (fun _ => .full) true (w.writes [[97], []]).1).1.data, 0⟩ ['r', 'b'] = some r ∧
      (w.writes [[97], []]).2 = [1, 0] ∧ (lzmaClose (fun _ => .full) true (w.writes [[97], []]).1).2 = 0 ∧
      r.reads [1, 4096] = [(1, [97]), (0, [])] := by
  have hchunks : ∀ buf ∈ ([[97], []] : List Bytes), buf.length < 2 ^ 31 := by simp
  have hsizes : ∀ len ∈ ([1, 4096] : List UInt32), len.toNat < 2 ^ 31 := by simp
  exact ⟨_, _, rfl, rfl, lzma_roundtrip .sample rfl '6' hchunks rfl rfl hsizes⟩

end FuseCompress
