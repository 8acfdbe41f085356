import FuseCompress.FailingReads
import FuseCompress.Lib.Transition
import FuseCompress.Theorems.Minilzo

/-!
# A failed read

`direct_decompress` keeps the position of the decoder in `descriptor->offset`. A request that fails leaves the offset alone and the
handle open. The decoder may have moved by then, and the next request gets bytes from another place.
-/

namespace FuseCompress

variable {D : Decoder} {Γ : Config}

/-! ## The decoders of `null` and `lzo` -/

theorem nullRead_one (stream : Bytes) (pos : Nat) :
    nullRead stream false 1 pos = (pos + (stream[pos]?.toList).length, some stream[pos]?.toList) := by
  have hslice : Bytes.slice stream pos 1 = stream[pos]?.toList := by
    unfold Bytes.slice
    rw [List.take_one, List.head?_drop]
  rw [← hslice]
  rfl

theorem Decoder.byte_null_zero (stream : Bytes) (pos : Nat) :
    (Decoder.null stream).byte 0 pos = (nullRead stream false 1 pos).2.bind List.head? := rfl

theorem Decoder.byte_null_succ (stream : Bytes) (k pos : Nat) :
    (Decoder.null stream).byte (k + 1) pos =
      ((nullRead stream false 1 pos).2.bind List.head?).bind
        (fun _ => (Decoder.null stream).byte k (nullRead stream false 1 pos).1) := rfl

theorem Decoder.byte_null (stream : Bytes) (k pos : Nat) : (Decoder.null stream).byte k pos = stream[pos + k]? := by
  induction k generalizing pos with
  | zero =>
    rw [Decoder.byte_null_zero, nullRead_one]
    cases stream[pos]? <;> rfl
  | succ k ih =>
    rw [Decoder.byte_null_succ, nullRead_one]
    cases hbyte : stream[pos]? with
    | none =>
      have hend := List.getElem?_eq_none_iff.mp hbyte
      exact (List.getElem?_eq_none_iff.mpr (by omega)).symm
    | some b =>
      refine (ih (pos + 1)).trans ?_
      rw [Nat.add_right_comm, Nat.add_assoc]

theorem nullRead_some {stream buf : Bytes} {fault : Bool} {n pos pos' : Nat} (h : nullRead stream fault n pos = (pos', some buf)) :
    buf = Bytes.slice stream pos n ∧ pos' = pos + buf.length := by
  unfold nullRead at h
  dsimp only at h
  split at h
  · cases h
  · cases h
    exact ⟨rfl, rfl⟩

/-- `read` delivers what it would deliver byte after byte. -/
theorem nullRead_bytes {stream buf : Bytes} {fault : Bool} {n pos pos' : Nat} (h : nullRead stream fault n pos = (pos', some buf)) :
    buf.length ≤ n ∧ (∀ i, i < buf.length → (Decoder.null stream).byte i pos = buf[i]?) ∧
      (buf.length = n → ∀ i, (Decoder.null stream).byte i pos' = (Decoder.null stream).byte (n + i) pos) := by
  obtain ⟨hbuf, hpos⟩ := nullRead_some h
  have hle : buf.length ≤ n := by
    rw [hbuf, Bytes.length_slice]
    exact Nat.min_le_left _ _
  refine ⟨hle, fun i hi => ?_, fun hlength i => ?_⟩
  · rw [Decoder.byte_null, hbuf, Bytes.slice, List.getElem?_take_of_lt (by omega), List.getElem?_drop]
  · rw [Decoder.byte_null, Decoder.byte_null, hpos, hlength, Nat.add_assoc]

theorem Decoder.null_exact (stream : Bytes) : (Decoder.null stream).Exact where
  bytes := by
    intro fault n pos pos' buf h
    obtain ⟨hle, hbytes, -⟩ := nullRead_bytes h
    exact ⟨hle, hbytes⟩
  full := by
    intro fault n pos pos' buf h
    exact (nullRead_bytes h).2.2

theorem lzoread_succ (lib : Lzo1x) (file : LzoFile) (n : Nat) :
    lzoread lib file (n + 1) =
      match lzoread lib file 1 with
      | (file', none) => (file', none)
      | (file', some []) => (file', some [])
      | (file', some (b :: _)) => ((lzoread lib file' n).1, (lzoread lib file' n).2.map (fun buf => b :: buf)) := by
  obtain ⟨m, hm⟩ : ∃ m, m = n + 1 := ⟨_, rfl⟩
  rw [← hm]
  induction file, m using lzoread.induct lib generalizing n with
  | case1 file => cases hm
  | case2 file m hn hroom ih =>
    subst hm
    have hzero : lzoread lib { file with blockoff := file.blockoff + 1 } 0 = ({ file with blockoff := file.blockoff + 1 }, some []) := by
      rw [lzoread, if_pos rfl]
    have hone : lzoread lib file 1 =
        ({ file with blockoff := file.blockoff + 1 }, some [(file.block.buf.getD []).getD file.blockoff 0]) := by
      rw [lzoread, if_neg Nat.one_ne_zero, if_pos hroom, hzero]
      rfl
    rw [hone, lzoread, if_neg hn, if_pos hroom, Nat.add_sub_cancel]
  | case3 file m hn hroom file₁ hblock =>
    subst hm
    rw [lzoread, if_neg hn, if_neg hroom, hblock, lzoread, if_neg Nat.one_ne_zero, if_neg hroom, hblock]
  | case4 file m hn hroom file₁ hblock hnone =>
    subst hm
    rw [lzoread, if_neg hn, if_neg hroom, hblock, lzoread, if_neg Nat.one_ne_zero, if_neg hroom, hblock]
    dsimp only
    rw [if_pos hnone, if_pos hnone]
  | case5 file m hn hroom file₁ hblock hsome ih =>
    subst hm
    have hone : lzoread lib file 1 = lzoread lib file₁ 1 := by
      rw [lzoread, if_neg Nat.one_ne_zero, if_neg hroom, hblock]
      exact if_neg hsome
    rw [hone, ← ih n rfl, lzoread, if_neg hn, if_neg hroom, hblock]
    exact if_neg hsome

theorem lzoreadFaults_nil (lib : Lzo1x) (file : LzoFile) (n : Nat) : lzoreadFaults lib [] file n = lzoread lib file n := by
  induction file, n using lzoread.induct lib with
  | case1 file => rw [lzoreadFaults, lzoread, if_pos rfl, if_pos rfl]
  | case2 file n hn hroom ih =>
    rw [lzoreadFaults, lzoread, if_neg hn, if_neg hn, if_pos hroom, if_pos hroom, ih]
  | case3 file n hn hroom file₁ hblock =>
    rw [lzoreadFaults, lzoread, if_neg hn, if_neg hn, if_neg hroom, if_neg hroom, hblock]
    rfl
  | case4 file n hn hroom file₁ hblock hnone =>
    rw [lzoreadFaults, lzoread, if_neg hn, if_neg hn, if_neg hroom, if_neg hroom, hblock]
    dsimp only [List.headD_nil]
    rw [if_pos hnone, if_pos hnone]
  | case5 file n hn hroom file₁ hblock hsome ih =>
    rw [lzoreadFaults, lzoread, if_neg hn, if_neg hn, if_neg hroom, if_neg hroom, hblock]
    dsimp only [List.headD_nil, List.tail_nil]
    rw [if_neg hsome, if_neg hsome, ih]

/-- A block whose reading has not failed was at the end of the file. -/
theorem lzoreadblock_of_fault {lib : Lzo1x} {file file' : LzoFile} {φ : LzoFault} (h : lzoreadblockFault file φ = (file', true)) :
    lzoreadblock lib file = (file', true) ∧ file'.block.buf = none := by
  cases φ with
  | head => cases h
  | body =>
    unfold lzoreadblockFault at h
    unfold lzoreadblock
    dsimp only at h ⊢
    split at h
    · rename_i hend
      cases h
      rw [if_pos hend]
      exact ⟨rfl, rfl⟩
    · cases h

/-- A call that does not fail has met no fault. -/
theorem lzoread_of_faults {lib : Lzo1x} {faults : List (Option LzoFault)} {file file' : LzoFile} {n : Nat} {buf : Bytes}
    (h : lzoreadFaults lib faults file n = (file', some buf)) : lzoread lib file n = (file', some buf) := by
  induction file, n using lzoread.induct lib generalizing faults file' buf with
  | case1 file =>
    rw [lzoreadFaults, if_pos rfl] at h
    rw [lzoread, if_pos rfl, h]
  | case2 file n hn hroom ih =>
    rw [lzoreadFaults, if_neg hn, if_pos hroom] at h
    obtain ⟨hfile, hbuf⟩ := Prod.mk.inj h
    obtain ⟨rest, hrest, hcons⟩ := Option.map_eq_some_iff.mp hbuf
    rw [lzoread, if_neg hn, if_pos hroom, ih (Prod.ext hfile hrest), ← hcons]
    rfl
  | case3 file n hn hroom file₁ hblock =>
    rw [lzoreadFaults, if_neg hn, if_neg hroom, hblock] at h
    cases hfault : faults.headD none with
    | none =>
      rw [hfault] at h
      cases h
    | some φ =>
      rw [hfault] at h
      dsimp only at h
      split at h
      · cases h
      · rename_i file₂ hgoes
        rw [(lzoreadblock_of_fault hgoes).1] at hblock
        cases hblock
  | case4 file n hn hroom file₁ hblock hnone =>
    rw [lzoreadFaults, if_neg hn, if_neg hroom, hblock] at h
    have hend : lzoread lib file n = (file₁, some []) := by
      rw [lzoread, if_neg hn, if_neg hroom, hblock]
      exact if_pos hnone
    cases hfault : faults.headD none with
    | none =>
      rw [hfault] at h
      dsimp only at h
      rw [if_pos hnone] at h
      rw [hend, h]
    | some φ =>
      rw [hfault] at h
      dsimp only at h
      split at h
      · cases h
      · rename_i file₂ hgoes
        rw [(lzoreadblock_of_fault hgoes).1] at hblock
        cases hblock
        rw [hend, h]
  | case5 file n hn hroom file₁ hblock hsome ih =>
    rw [lzoreadFaults, if_neg hn, if_neg hroom, hblock] at h
    cases hfault : faults.headD none with
    | none =>
      rw [hfault] at h
      dsimp only at h
      rw [if_neg hsome] at h
      rw [lzoread, if_neg hn, if_neg hroom, hblock]
      dsimp only
      rw [if_neg hsome]
      exact ih h
    | some φ =>
      rw [hfault] at h
      dsimp only at h
      split at h
      · cases h
      · rename_i file₂ hgoes
        obtain ⟨hblock', hnone⟩ := lzoreadblock_of_fault hgoes
        rw [hblock'] at hblock
        cases hblock
        exact absurd hnone hsome

theorem Decoder.byte_lzo_zero (lib : Lzo1x) (stream : Bytes) (file : LzoFile) :
    (Decoder.lzo lib stream).byte 0 file = (lzoread lib file 1).2.bind List.head? := by
  rw [← lzoreadFaults_nil]
  rfl

theorem Decoder.byte_lzo_succ (lib : Lzo1x) (stream : Bytes) (file : LzoFile) (k : Nat) :
    (Decoder.lzo lib stream).byte (k + 1) file =
      ((lzoread lib file 1).2.bind List.head?).bind (fun _ => (Decoder.lzo lib stream).byte k (lzoread lib file 1).1) := by
  rw [← lzoreadFaults_nil]
  rfl

/-- `lzoread` delivers what it would deliver byte after byte. -/
theorem lzoread_bytes {lib : Lzo1x} (stream : Bytes) {file file' : LzoFile} {n : Nat} {buf : Bytes}
    (h : lzoread lib file n = (file', some buf)) :
    buf.length ≤ n ∧ (∀ i, i < buf.length → (Decoder.lzo lib stream).byte i file = buf[i]?) ∧
      (buf.length = n → ∀ i, (Decoder.lzo lib stream).byte i file' = (Decoder.lzo lib stream).byte (n + i) file) := by
  induction n generalizing file buf with
  | zero =>
    rw [lzoread, if_pos rfl] at h
    cases h
    exact ⟨Nat.le_refl 0, fun i hi => absurd hi (Nat.not_lt_zero i), fun _ i => by rw [Nat.zero_add]⟩
  | succ n ih =>
    rw [lzoread_succ] at h
    split at h
    · cases h
    · cases h
      refine ⟨Nat.zero_le _, fun i hi => absurd hi (Nat.not_lt_zero i), fun hlength => ?_⟩
      cases hlength
    · rename_i file₁ b rest hone
      obtain ⟨hfile, hbuf⟩ := Prod.mk.inj h
      obtain ⟨tail, htail, hcons⟩ := Option.map_eq_some_iff.mp hbuf
      obtain ⟨hle, hbytes, hfull⟩ := ih (Prod.ext hfile htail)
      rw [← hcons, List.length_cons]
      refine ⟨Nat.succ_le_succ hle, fun i hi => ?_, fun hlength i => ?_⟩
      · cases i with
        | zero =>
          rw [Decoder.byte_lzo_zero, hone]
          rfl
        | succ i =>
          rw [Decoder.byte_lzo_succ, hone, List.getElem?_cons_succ]
          exact hbytes i (Nat.lt_of_succ_lt_succ hi)
      · rw [Nat.add_right_comm, Decoder.byte_lzo_succ, hone]
        exact hfull (Nat.succ_injective hlength) i

theorem Decoder.lzo_exact (lib : Lzo1x) (stream : Bytes) : (Decoder.lzo lib stream).Exact where
  bytes := by
    intro faults n file file' buf h
    obtain ⟨hle, hbytes, -⟩ := lzoread_bytes stream (lzoread_of_faults h)
    exact ⟨hle, hbytes⟩
  full := by
    intro faults n file file' buf h
    exact (lzoread_bytes stream (lzoread_of_faults h)).2.2

/-! ## Keeping step -/

/-- These bytes are those of the decoded stream from `offset` on. -/
def Decoder.Right (D : Decoder) (offset : Nat) (buf : Bytes) : Prop :=
  ∀ i, i < buf.length → D.byte (offset + i) D.opened = buf[i]?

theorem Decoder.Right.nil (offset : Nat) : D.Right offset [] := fun i hi => absurd hi (Nat.not_lt_zero i)

theorem Decoder.Right.append {offset : Nat} {buf buf' : Bytes} (h : D.Right offset buf) (h' : D.Right (offset + buf.length) buf') :
    D.Right offset (buf ++ buf') := by
  intro i hi
  rw [List.length_append] at hi
  by_cases hlt : i < buf.length
  · rw [List.getElem?_append_left hlt]
    exact h i hlt
  · rw [List.getElem?_append_right (by omega)]
    have hi' := h' (i - buf.length) (by omega)
    rwa [Nat.add_assoc, Nat.add_sub_cancel' (by omega)] at hi'

/-- Every page is a whole page of the decoded stream. -/
def Decoder.Pages (D : Decoder) (pages : List (Option Bytes)) : Prop :=
  ∀ k page, pages.getD k none = some page → page.length = pageSize ∧ D.Right (pageSize * k) page

theorem Decoder.Pages.set {pages : List (Option Bytes)} (h : D.Pages pages) (k : Nat) (page : Option Bytes)
    (hpage : ∀ p, page = some p → p.length = pageSize ∧ D.Right (pageSize * k) p) : D.Pages (pages.set k page) := by
  intro j p hp
  rw [List.getD_eq_getElem?_getD, List.getElem?_set] at hp
  split at hp
  · rename_i heq
    subst heq
    split at hp
    · exact hpage p hp
    · cases hp
  · rw [← List.getD_eq_getElem?_getD] at hp
    exact h j p hp

theorem Decoder.Pages.replicate (n : Nat) : D.Pages (List.replicate n none) := by
  intro k page hpage
  rw [List.getD_eq_getElem?_getD, List.getElem?_replicate] at hpage
  split at hpage
  · cases hpage
  · cases hpage

/-- What is served are the bytes of the pages, which are then gone. -/
theorem Decoder.Pages.serve (n : Nat) {pages : List (Option Bytes)} (h : D.Pages pages) (k : Nat) :
    D.Right (pageSize * k) (servePages pages n k).1 ∧
      (servePages pages n k).1.length = pageSize * (servePages pages n k).2.2 ∧ D.Pages (servePages pages n k).2.1 := by
  induction n generalizing pages k with
  | zero => exact ⟨.nil _, rfl, h⟩
  | succ n ih =>
    rw [servePages]
    split
    · exact ⟨.nil _, rfl, h⟩
    · rename_i page hpage
      obtain ⟨hlength, hright⟩ := h k page hpage
      have hresize : Bytes.resize page pageSize = page := by
        rw [Bytes.resize, hlength, Nat.sub_self, Bytes.zeros_zero, List.append_nil, ← hlength, List.take_length]
      obtain ⟨hrest, hcount, hpages⟩ := ih (h.set k none (fun p hp => by cases hp)) (k + 1)
      dsimp only
      rw [hresize]
      refine ⟨hright.append ?_, ?_, hpages⟩
      · rw [hlength]
        exact hrest
      · rw [List.length_append, hlength, hcount, Nat.mul_add, Nat.mul_one, Nat.add_comm]

namespace ReadState

variable {s s' : ReadState D}

/-- The next byte that the decoder delivers is the one at the offset, and so on. -/
def InStep (s : ReadState D) : Prop := ∀ σ, s.handle = some σ → ∀ i, D.byte i σ = D.byte (s.offset + i) D.opened

/-- What holds as well while the decoder keeps step. -/
structure Sound (s : ReadState D) : Prop where
  inStep : s.InStep
  closed : s.handle = none → s.offset = 0 ∧ (s.file.compressor ≠ none → s.fd = true → s.start = D.opened)
  raw : s.file.compressor = none → ∀ k : Nat, s.raw[k]? = D.byte k D.opened
  pages : D.Pages (s.file.cache.getD [])

/-- A call of `compressor->read` that gives less than it was asked for leaves the decoder so many bytes further on. -/
def Tracks (s : ReadState D) (φ : D.Fault) (n delivered : Nat) : Prop :=
  ∀ σ, s.handle = some σ → ∀ i, D.byte i (D.read φ n σ).1 = D.byte (delivered + i) σ

theorem codecRead_some {φ : D.Fault} {n : Nat} {buf : Bytes} (hexact : D.Exact) (hs : s.InStep)
    (h : s.codecRead φ n = (s', some buf)) :
    (∃ σ, s' = { s with handle := some σ }) ∧ buf.length ≤ n ∧ D.Right s.offset buf ∧
      (buf.length = n ∨ s.Tracks φ n buf.length → ∀ σ, s'.handle = some σ →
        ∀ i, D.byte i σ = D.byte (s.offset + buf.length + i) D.opened) := by
  unfold codecRead at h
  split at h
  · cases h
  · rename_i σ hσ
    dsimp only at h
    obtain ⟨hs', hbuf⟩ := Prod.mk.inj h
    obtain ⟨hle, hbytes⟩ := hexact.bytes φ n σ _ buf (Prod.ext rfl hbuf)
    have hfull := hexact.full φ n σ _ buf (Prod.ext rfl hbuf)
    refine ⟨⟨_, hs'.symm⟩, hle, fun i hi => ?_, fun htracks σ' hσ' i => ?_⟩
    · rw [← hs σ hσ i]
      exact hbytes i hi
    · rw [← hs'] at hσ'
      cases hσ'
      rw [Nat.add_assoc, ← hs σ hσ]
      rcases htracks with hlength | htracks
      · rw [hlength]
        exact hfull hlength i
      · exact htracks σ hσ i

theorem codecRead_tracks {φ : D.Fault} {n : Nat} {r : Option Bytes} (hs : s.InStep) (htracks : s.Tracks φ n 0)
    (h : s.codecRead φ n = (s', r)) : s'.InStep ∧ ∃ handle, s' = { s with handle := handle } ∧ (handle = none ↔ s.handle = none) := by
  unfold codecRead at h
  split at h
  · cases h
    exact ⟨hs, s.handle, rfl, Iff.rfl⟩
  · rename_i σ hσ
    cases h
    refine ⟨fun σ' hσ' i => ?_, some (D.read φ n σ).1, rfl, by simp [hσ]⟩
    cases hσ'
    rw [htracks σ hσ i, Nat.zero_add]
    exact hs σ hσ i

/-- The condition on the last read of a request: when it fails, the decoder has not moved. -/
def LastTracks (s : ReadState D) (φ : D.Fault) (size : Nat) : Prop :=
  match s.codecRead φ (cutSize s.file s.offset size) with
  | (_, none) => s.Tracks φ (cutSize s.file s.offset size) 0
  | (_, some buf) => buf.length < cutSize s.file s.offset size → s.Tracks φ (cutSize s.file s.offset size) 0

/-- The condition on the reads of a request that skips: one that fails has not moved the decoder, one that meets the end of the file
has moved it there, and a page that goes into the cache is a whole page of the file. `last` is about what follows. -/
def SkipTracks (Γ : Config) (faults : Nat → D.Fault) (cacheThis : Bool) (last : ReadState D → Prop) :
    Nat → Nat → ReadState D → Prop
  | 0, _, s => last s
  | n + 1, toread, s =>
    if toread = 0 then last s
    else
      let readsize := min toread pageSize
      let keep := s.keepPage Γ cacheThis
      match (s.countPage keep).codecRead (faults n) readsize with
      | (_, none) => s.Tracks (faults n) readsize 0
      | (s', some buf) =>
        if buf.length < readsize ∧ (s'.file.size = -1 ∨ ((s'.offset + buf.length : Nat) : Int) < s'.file.size) then
          s.Tracks (faults n) readsize 0
        else if buf = [] then s.Tracks (faults n) readsize 0
        else
          (buf.length = readsize ∨ s.Tracks (faults n) readsize buf.length) ∧
            (keep = true → pageSize ∣ s.offset ∧ buf.length = pageSize) ∧
            SkipTracks Γ faults cacheThis last n (toread - buf.length) (s'.skipped keep buf)

theorem Sound.countPage (hs : s.Sound) (keep : Bool) : (s.countPage keep).Sound := ⟨hs.inStep, hs.closed, hs.raw, hs.pages⟩

/-- A state that differs in the decoder, which keeps step. -/
theorem Sound.tracked {handle : Option D.State} (hs : s.Sound) (hstep : s'.InStep) (hs' : s' = { s with handle := handle })
    (hopen : handle = none ↔ s.handle = none) : s'.Sound := by
  subst hs'
  exact ⟨hstep, fun h => hs.closed (hopen.mp h), hs.raw, hs.pages⟩

/-- One turn of the loop that skips. -/
theorem Sound.skipped {keep : Bool} {buf : Bytes} {σ : D.State} (hs : s.Sound) (hσ : s' = { s with handle := some σ })
    (hright : D.Right s.offset buf)
    (hstep : ∀ σ, s'.handle = some σ → ∀ i, D.byte i σ = D.byte (s.offset + buf.length + i) D.opened)
    (hkeep : keep = true → pageSize ∣ s.offset ∧ buf.length = pageSize) : (s'.skipped keep buf).Sound := by
  subst hσ
  refine ⟨hstep, ?_, hs.raw, ?_⟩
  · intro hnone
    cases hnone
  · cases keep with
    | false => exact hs.pages
    | true =>
      obtain ⟨hdvd, hlength⟩ := hkeep rfl
      change D.Pages ((s.file.cache.map (fun pages => pages.set (s.offset / pageSize) (some buf))).getD [])
      cases hcache : s.file.cache with
      | none =>
        have hpages := hs.pages
        rw [hcache] at hpages
        exact hpages
      | some pages =>
        have hpages := hs.pages
        rw [hcache] at hpages
        refine hpages.set _ (some buf) (fun p hp => ?_)
        cases hp
        rw [Nat.mul_div_cancel' hdvd]
        exact ⟨hlength, hright⟩

theorem skipLoop_sound {faults : Nat → D.Fault} {cacheThis : Bool} {last : ReadState D → Prop} {n toread : Nat} {res : Option Int}
    (hexact : D.Exact) (hfuel : toread ≤ n) (hs : s.Sound) (hopen : s.handle ≠ none)
    (ht : SkipTracks Γ faults cacheThis last n toread s) (h : skipLoop Γ faults cacheThis n toread s = (s', res)) :
    s'.Sound ∧ (res = none → s'.handle ≠ none ∧ s'.offset = s.offset + toread ∧ last s') := by
  induction n generalizing s toread with
  | zero =>
    cases h
    obtain rfl := Nat.le_zero.mp hfuel
    exact ⟨hs, fun _ => ⟨hopen, rfl, ht⟩⟩
  | succ n ih =>
    unfold skipLoop at h
    unfold SkipTracks at ht
    by_cases hzero : toread = 0
    · rw [if_pos hzero] at h ht
      cases h
      exact ⟨hs, fun _ => ⟨hopen, by rw [hzero, Nat.add_zero], ht⟩⟩
    rw [if_neg hzero] at h ht
    dsimp only at h ht
    cases hread : (s.countPage (s.keepPage Γ cacheThis)).codecRead (faults n) (min toread pageSize) with
    | mk s₁ r =>
      rw [hread] at h ht
      have hcount := hs.countPage (s.keepPage Γ cacheThis)
      have hfails : s.Tracks (faults n) (min toread pageSize) 0 → s₁.Sound := by
        intro htracks
        obtain ⟨hstep, handle, hs', hopen'⟩ := codecRead_tracks hcount.inStep htracks hread
        exact hcount.tracked hstep hs' hopen'
      cases r with
      | none =>
        cases h
        exact ⟨hfails ht, fun hnone => by cases hnone⟩
      | some buf =>
        dsimp only at h ht
        split at h
        · rename_i hshort
          rw [if_pos hshort] at ht
          cases h
          exact ⟨hfails ht, fun hnone => by cases hnone⟩
        rename_i hshort
        rw [if_neg hshort] at ht
        split at h
        · rename_i hnil
          rw [if_pos hnil] at ht
          cases h
          exact ⟨hfails ht, fun hnone => by cases hnone⟩
        rename_i hnil
        rw [if_neg hnil] at ht
        obtain ⟨hgoes, hkeep, ht⟩ := ht
        obtain ⟨⟨σ, hσ⟩, hle, hright, hstep⟩ := codecRead_some hexact hcount.inStep hread
        have hsound := hcount.skipped hσ hright (hstep hgoes) hkeep
        have hpos := List.length_pos_iff.mpr hnil
        have hle' : buf.length ≤ toread := hle.trans (Nat.min_le_left _ _)
        have hopen' : (s₁.skipped (s.keepPage Γ cacheThis) buf).handle ≠ none := by
          rw [hσ]
          exact Option.some_ne_none _
        obtain ⟨hsound', hrest⟩ := ih (by omega) hsound hopen' ht h
        refine ⟨hsound', fun hnone => ?_⟩
        obtain ⟨hopen'', hoffset, hlast⟩ := hrest hnone
        refine ⟨hopen'', ?_, hlast⟩
        have hstart : (s₁.skipped (s.keepPage Γ cacheThis) buf).offset = s.offset + buf.length := by
          rw [hσ]
          rfl
        rw [hoffset, hstart]
        omega

/-- The last read of a request. -/
theorem decompressRead_sound {φ : D.Fault} {size offset : Nat} {served : Bytes} {res : Int} {buf : Bytes} (hexact : D.Exact)
    (hs : s.Sound) (ht : s.LastTracks φ size) (hserved : D.Right offset served) (hoffset : s.offset = offset + served.length)
    (h : s.decompressRead φ size served = (s', res, buf)) : s'.Sound ∧ D.Right offset buf := by
  unfold decompressRead at h
  unfold LastTracks at ht
  dsimp only at h
  cases hread : s.codecRead φ (cutSize s.file s.offset size) with
  | mk s₁ r =>
    rw [hread] at h ht
    have hfails : s.Tracks φ (cutSize s.file s.offset size) 0 → s₁.Sound := by
      intro htracks
      obtain ⟨hstep, handle, hs', hopen⟩ := codecRead_tracks hs.inStep htracks hread
      exact hs.tracked hstep hs' hopen
    cases r with
    | none =>
      cases h
      exact ⟨hfails ht, .nil _⟩
    | some got =>
      dsimp only at h ht
      split at h
      · rename_i hshort
        cases h
        exact ⟨hfails (ht hshort), .nil _⟩
      · rename_i hall
        cases h
        obtain ⟨⟨σ, hσ⟩, hle, hright, hstep⟩ := codecRead_some hexact hs.inStep hread
        have hfull : got.length = cutSize s.file s.offset size := by omega
        refine ⟨?_, hserved.append (hoffset ▸ hright)⟩
        subst hσ
        refine ⟨hstep (Or.inl hfull), fun hnone => ?_, hs.raw, hs.pages⟩
        cases hnone

/-- The condition on a request from where the module is open. -/
def SkipReadTracks (Γ : Config) (s : ReadState D) (c : ReadCall D) (size offset : Nat) (cacheThis : Bool) : Prop :=
  if offset > s.offset then
    SkipTracks Γ c.skipFaults (s.keepsSkipped Γ offset cacheThis) (fun s => s.LastTracks c.fault size) (offset - s.offset)
      (offset - s.offset) (s.allocCache (s.keepsSkipped Γ offset cacheThis))
  else s.LastTracks c.fault size

/-- The condition on a request: when it has to go back, the module is closed and started again, and no call of `compressor->read` moves
the decoder without `descriptor->offset`. -/
def RequestTracks (Γ : Config) (s : ReadState D) (c : ReadCall D) : Prop :=
  s.file.compressor ≠ none →
    let cacheThis := Γ.cacheDecompressedData && c.offset % pageSize = 0 && c.size % pageSize = 0
    let s := { s with file := { s.file with type := if s.file.type = Access.unset then .read else s.file.type } }
    match s.serveCache cacheThis c.size c.offset with
    | (s, served, any) =>
      let size := c.size - served.length
      let offset := c.offset + served.length
      ¬(any ∧ size = 0) → readFallback Γ s.file s.decompCacheSize cacheThis s.offset offset = false →
        (offset < s.offset → c.closeFails = none ∧ c.seeked = true) ∧
          match s.decompressOpen c offset with
          | (_, false) => True
          | (s, true) => s.SkipReadTracks Γ c size offset cacheThis

theorem Sound.allocCache (hs : s.Sound) (cacheThis : Bool) : (s.allocCache cacheThis).Sound := by
  unfold ReadState.allocCache
  split
  · exact ⟨hs.inStep, hs.closed, hs.raw, .replicate _⟩
  · exact hs

theorem offset_allocCache (s : ReadState D) (cacheThis : Bool) :
    (s.allocCache cacheThis).offset = s.offset ∧ (s.allocCache cacheThis).handle = s.handle := by
  unfold ReadState.allocCache
  split <;> exact ⟨rfl, rfl⟩

theorem Sound.flushFileCache (hs : s.Sound) : s.flushFileCache.Sound := by
  unfold ReadState.flushFileCache
  split
  · exact hs
  · refine ⟨hs.inStep, hs.closed, hs.raw, fun k page hpage => ?_⟩
    cases k <;> cases hpage

/-- The loop and the read behind it. -/
theorem decompressSkip_sound {c : ReadCall D} {size offset : Nat} {cacheThis : Bool} {served : Bytes} {start : Nat} {res : Int}
    {buf : Bytes} (hexact : D.Exact) (hs : s.Sound) (hopen : s.handle ≠ none) (hle : s.offset ≤ offset)
    (ht : s.SkipReadTracks Γ c size offset cacheThis) (hserved : D.Right start served) (hoffset : offset = start + served.length)
    (h : s.decompressSkip Γ c size offset cacheThis served = (s', res, buf)) : s'.Sound ∧ D.Right start buf := by
  unfold decompressSkip at h
  unfold SkipReadTracks at ht
  split at h
  · rename_i hlt
    rw [if_pos hlt] at ht
    dsimp only at h
    split at h
    · cases h
      exact ⟨hs, .nil _⟩
    obtain ⟨hsame, hhandle⟩ := s.offset_allocCache (s.keepsSkipped Γ offset cacheThis)
    cases hskip : skipLoop Γ c.skipFaults (s.keepsSkipped Γ offset cacheThis) (offset - s.offset) (offset - s.offset)
        (s.allocCache (s.keepsSkipped Γ offset cacheThis)) with
    | mk s₁ r =>
      rw [hskip] at h
      obtain ⟨hsound, hrest⟩ := skipLoop_sound hexact (Nat.le_refl _) (hs.allocCache _) (hhandle ▸ hopen) ht hskip
      cases r with
      | some r =>
        cases h
        exact ⟨hsound, .nil _⟩
      | none =>
        obtain ⟨-, hnow, hlast⟩ := hrest rfl
        refine decompressRead_sound hexact hsound hlast hserved ?_ h
        rw [hnow, hsame, ← hoffset]
        omega
  · rename_i hlt
    rw [if_neg hlt] at ht
    exact decompressRead_sound hexact hs ht hserved (by omega) h

theorem openStream_sound {c : ReadCall D} {ok : Bool} (hs : s.Sound) (hcompressed : s.file.compressor ≠ none)
    (h : s.openStream c = (s', ok)) : s'.Sound ∧ s'.offset = s.offset ∧ (ok = true → s'.handle ≠ none) := by
  unfold openStream at h
  split at h
  · rename_i hopen
    cases h
    exact ⟨hs, rfl, fun _ => Option.isSome_iff_ne_none.mp hopen⟩
  · rename_i hclosed
    split at h
    · cases h
      exact ⟨hs, rfl, fun hok => by cases hok⟩
    · rename_i hopens
      cases h
      obtain ⟨hzero, hstart⟩ := hs.closed (Option.not_isSome_iff_eq_none.mp hclosed)
      have hfd : s.fd = true := Bool.not_eq_false _ ▸ fun h => hopens (Or.inl h)
      refine ⟨⟨fun σ hσ i => ?_, fun _ => ⟨hzero, hstart⟩, hs.raw, hs.pages⟩, rfl, fun _ => Option.some_ne_none _⟩
      cases hσ
      change D.byte i s.start = D.byte (s.offset + i) D.opened
      rw [hzero, hstart hcompressed hfd, Nat.zero_add]

/-- Going back is sound when the module can be closed and the descriptor put behind the header again. -/
theorem decompressOpen_sound {c : ReadCall D} {offset : Nat} {ok : Bool} (hs : s.Sound) (hcompressed : s.file.compressor ≠ none)
    (hback : offset < s.offset → c.closeFails = none ∧ c.seeked = true) (h : s.decompressOpen c offset = (s', ok)) :
    s'.Sound ∧ s'.offset ≤ offset ∧ (ok = true → s'.handle ≠ none) := by
  unfold decompressOpen at h
  split at h
  · rename_i hlt
    obtain ⟨hcloses, hseeks⟩ := hback hlt
    rw [hcloses] at h
    dsimp only at h
    split at h
    · rename_i hfails
      have hfd : s.fd = false := hfails.resolve_left (by rw [hseeks]; exact Bool.noConfusion)
      cases h
      refine ⟨⟨fun σ hσ => ?_, fun _ => ⟨rfl, fun _ hopen => ?_⟩, hs.raw, hs.pages⟩, Nat.zero_le _, fun hok => by cases hok⟩
      · cases hσ
      · cases hfd.symm.trans hopen
    · have hclosed : ({ s with handle := none, offset := 0, start := D.opened } : ReadState D).Sound := by
        refine ⟨fun σ hσ => ?_, fun _ => ⟨rfl, fun _ _ => rfl⟩, hs.raw, hs.pages⟩
        cases hσ
      obtain ⟨hsound, hoffset, hopen⟩ := openStream_sound hclosed hcompressed h
      exact ⟨hsound, by rw [hoffset]; exact Nat.zero_le _, hopen⟩
  · rename_i hlt
    obtain ⟨hsound, hoffset, hopen⟩ := openStream_sound hs hcompressed h
    exact ⟨hsound, by omega, hopen⟩

/-- What `pread` gets once the file is raw. -/
theorem preadRaw_sound {c : ReadCall D} {size offset start : Nat} {served buf : Bytes} {res : Int} (hs : s.Sound)
    (hraw : s.file.compressor = none) (hserved : D.Right start served) (hoffset : offset = start + served.length)
    (h : s.preadRaw c size offset served = (s', res, buf)) : s'.Sound ∧ D.Right start buf := by
  unfold preadRaw at h
  split at h
  · cases h
    refine ⟨hs, hserved.append (fun i hi => ?_)⟩
    rw [Bytes.length_slice] at hi
    rw [← hoffset, ← hs.raw hraw, Bytes.slice, List.getElem?_take_of_lt (by omega), List.getElem?_drop]
  · cases h
    exact ⟨hs, .nil _⟩

theorem decompressFallback_sound {c : ReadCall D} {size offset start : Nat} {served buf : Bytes} {res : Int} (hs : s.Sound)
    (hserved : D.Right start served) (hoffset : offset = start + served.length)
    (h : s.decompressFallback c size offset served = (s', res, buf)) : s'.Sound ∧ D.Right start buf := by
  have hflush := hs.flushFileCache
  unfold decompressFallback at h
  split at h
  · cases h
    exact ⟨hs, .nil _⟩
  · cases h
    exact ⟨hflush, .nil _⟩
  · cases h
    refine ⟨⟨fun σ hσ => ?_, fun _ => ⟨rfl, fun _ hfd => ?_⟩, hflush.raw, hflush.pages⟩, .nil _⟩
    · cases hσ
    · cases hfd
  · rename_i content whole _
    refine preadRaw_sound ?_ rfl hserved hoffset h
    refine ⟨fun σ hσ => ?_, fun _ => ⟨rfl, fun hcompressed => ?_⟩, fun _ => whole, hflush.pages⟩
    · cases hσ
    · exact absurd rfl hcompressed

/-- The pages that the cache has of a request. -/
theorem serveCache_sound {cacheThis any : Bool} {size offset : Nat} {served : Bytes} (hs : s.Sound)
    (halign : cacheThis = true → offset % pageSize = 0) (h : s.serveCache cacheThis size offset = (s', served, any)) :
    s'.Sound ∧ D.Right offset served := by
  unfold serveCache at h
  split at h
  · rename_i hcache
    obtain ⟨hright, -, hpages⟩ := hs.pages.serve (size / pageSize) (offset / pageSize)
    rw [Nat.mul_div_cancel' (Nat.dvd_of_mod_eq_zero (halign hcache.1))] at hright
    dsimp only at h
    split at h
    · cases h
      exact ⟨hs, .nil _⟩
    · cases h
      exact ⟨⟨hs.inStep, hs.closed, hs.raw, hpages⟩, hright⟩
  · cases h
    exact ⟨hs, .nil _⟩

theorem compressor_serveCache {cacheThis any : Bool} {size offset : Nat} {served : Bytes}
    (h : s.serveCache cacheThis size offset = (s', served, any)) : s'.file.compressor = s.file.compressor := by
  unfold serveCache at h
  split at h
  · dsimp only at h
    split at h
    · cases h
      rfl
    · cases h
      rfl
  · cases h
    rfl

theorem directDecompress_sound {c : ReadCall D} {res : Int} {buf : Bytes} (hexact : D.Exact) (hs : s.Sound)
    (hcompressed : s.file.compressor ≠ none) (ht : RequestTracks Γ s c) (h : s.directDecompress Γ c = (s', res, buf)) :
    s'.Sound ∧ D.Right c.offset buf := by
  have ht := ht hcompressed
  unfold directDecompress at h
  dsimp only at h ht
  generalize hcache : (Γ.cacheDecompressedData && decide (c.offset % pageSize = 0) && decide (c.size % pageSize = 0)) = cacheThis at h ht
  have halign : cacheThis = true → c.offset % pageSize = 0 := by
    intro htrue
    rw [← hcache, Bool.and_eq_true, Bool.and_eq_true, decide_eq_true_eq, decide_eq_true_eq] at htrue
    exact htrue.1.2
  have htype : ({ s with file := { s.file with type := if s.file.type = Access.unset then .read else s.file.type } } :
      ReadState D).Sound := ⟨hs.inStep, hs.closed, hs.raw, hs.pages⟩
  replace hcompressed : ({ s with file := { s.file with type := if s.file.type = Access.unset then .read else s.file.type } } :
      ReadState D).file.compressor ≠ none := hcompressed
  generalize ({ s with file := { s.file with type := if s.file.type = Access.unset then .read else s.file.type } } :
      ReadState D) = s₀ at h ht htype hcompressed
  cases hserve : s₀.serveCache cacheThis c.size c.offset with
  | mk s₁ r =>
    obtain ⟨served, any⟩ := r
    rw [hserve] at h ht
    obtain ⟨hsound, hserved⟩ := serveCache_sound htype halign hserve
    dsimp only at h ht
    split at h
    · cases h
      exact ⟨hsound, hserved⟩
    rename_i hmore
    have ht := ht hmore
    split at h
    · exact decompressFallback_sound hsound hserved rfl h
    rename_i hfallback
    have ht := ht (Bool.eq_false_iff.mpr hfallback)
    cases hopened : s₁.decompressOpen c (c.offset + served.length) with
    | mk s₂ ok =>
      rw [hopened] at h ht
      obtain ⟨hback, ht⟩ := ht
      have hcompressed := (compressor_serveCache hserve).trans_ne hcompressed
      obtain ⟨hsound', hle, hopen⟩ := decompressOpen_sound hsound hcompressed hback hopened
      cases ok with
      | false =>
        cases h
        exact ⟨hsound', .nil _⟩
      | true => exact decompressSkip_sound hexact hsound' (hopen rfl) hle ht hserved rfl h

/-- `fusecompress_read` keeps the decoder in step and returns the bytes of the decoded stream. -/
theorem read_sound {c : ReadCall D} (hexact : D.Exact) (hs : s.Sound) (ht : RequestTracks Γ s c) :
    (s.read Γ c).1.Sound ∧ D.Right c.offset (s.read Γ c).2.2 := by
  have hbody : ∀ s' res buf, (if s.file.compressor = none then s.preadRaw c c.size c.offset [] else s.directDecompress Γ c) =
      (s', res, buf) → s'.Sound ∧ D.Right c.offset buf := by
    intro s' res buf h
    split at h
    · rename_i hraw
      exact preadRaw_sound hs hraw (.nil _) rfl h
    · rename_i hcompressed
      exact directDecompress_sound hexact hs hcompressed ht h
  unfold read
  generalize (if s.file.compressor = none then s.preadRaw c c.size c.offset [] else s.directDecompress Γ c) = r at hbody
  obtain ⟨s', res, buf⟩ := r
  obtain ⟨hsound, hright⟩ := hbody s' res buf rfl
  dsimp only
  split
  · exact ⟨⟨hsound.inStep, hsound.closed, hsound.raw, hsound.pages⟩, .nil _⟩
  · exact ⟨hsound, hright⟩

/-! ## Runs -/

/-- The state after a request. -/
def step (Γ : Config) (s : ReadState D) (c : ReadCall D) : Option (ReadState D) := some (s.read Γ c).1

/-- A compressed file that has just been opened for the first time. -/
structure Fresh (s : ReadState D) : Prop where
  compressed : s.file.compressor ≠ none
  handle : s.handle = none
  offset : s.offset = 0
  start : s.start = D.opened
  cache : s.file.cache = none

theorem Fresh.sound (h : s.Fresh) : s.Sound := by
  refine ⟨fun σ hσ => ?_, fun _ => ⟨h.offset, fun _ _ => h.start⟩, fun hraw => absurd hraw h.compressed, fun k page hpage => ?_⟩
  · rw [h.handle] at hσ
    cases hσ
  · rw [h.cache] at hpage
    cases k <;> cases hpage

/-- What reading promises: the decoder is where the offset says, and the bytes returned are those of the decoded stream. -/
structure ReadsRight (Γ : Config) (s : ReadState D) (ok : ReadCall D → Prop) : Prop where
  inStep : s.InStep
  right : ∀ c, ok c → D.Right c.offset (s.read Γ c).2.2

/-- A descriptor on a compressed file with so many bytes. -/
def onFile (D : Decoder) (m : Module) (size : Nat) : ReadState D where
  file :=
    { filename := [], deleted := false, accesses := 1, size := size, compressor := some m, skipped := 0, dontcompress := false
      type := .unset, status := .clear, deduped := false, cache := none, head := [0], cond := 0, locked := false,
      leaked := false }
  offset := 0
  handle := none
  start := D.opened
  fd := true
  decompCacheSize := 0
  raw := []

theorem fresh_onFile (D : Decoder) (m : Module) (size : Nat) : (onFile D m size).Fresh :=
  ⟨Option.some_ne_none m, rfl, rfl, rfl, rfl⟩

/-- A request all of whose calls succeed but its last read, which has a fault. -/
def request (size offset : Nat) (fault : D.Fault) : ReadCall D where
  size := size
  offset := offset
  closeFails := none
  seeked := true
  elsewhere := D.opened
  opened := true
  skipFaults := fun _ => D.fine
  fault := fault
  fallback := .refused
  pread := true

/-- Two bytes have been read from a file of `null`. -/
def twoRead : ReadState (.null [1, 2, 3]) := ((onFile (.null [1, 2, 3]) .null 3).read .plain (request 2 0 false)).1

/-- An `lzo` stream of three blocks of a byte each. -/
def threeBlocks : Bytes :=
  LzoHead.bytes { usize := 1, psize := 1 } ++ [1] ++ (LzoHead.bytes { usize := 1, psize := 1 } ++ [2]) ++
    (LzoHead.bytes { usize := 1, psize := 1 } ++ [3])

end ReadState

end FuseCompress
