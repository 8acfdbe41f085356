import FuseCompress.Reading
import FuseCompress.Lemmas.Frames

/-!
# Reading a compressed file

`State.Packed` says how an entry stands whose file is compressed and only read: every descriptor has its module closed, or open
with the first bytes delivered. A request keeps it so, or turns the file into a raw one (`State.Unpacked`), and in both cases it
gets the bytes asked for, provided that the pages in the cache are whole pages of the file (`State.CachesPages`).
-/

namespace FuseCompress

/-- What is read at one place and at the place behind it is read at once. -/
theorem Bytes.slice_append_slice (b : Bytes) (off k n : Nat) :
    Bytes.slice b off k ++ Bytes.slice b (off + k) n = Bytes.slice b off (k + n) := by
  rw [slice, slice, slice, List.take_add, List.drop_drop]

/-- A descriptor of the entry `f` that reads the inode `i`, which is compressed and has `content`. -/
structure Desc.Reads (desc : Desc) (f i : Nat) (content : Bytes) : Prop where
  file : desc.file = f
  fd : ∃ pos, desc.fd = some ⟨i, pos⟩ ∧ (desc.handle = none → pos = headerSize)
  handle : desc.handle = none ∧ desc.offset = 0 ∨ desc.handle = some (.reading headerSize desc.offset)
  offset_le : desc.offset ≤ content.length

/-- The file of the entry `f` is the inode `i`, compressed with the module `m`, and reads as `content`; the descriptors `ds` of
the entry read it. -/
structure State.Packed (Γ : Config) (s : State) (f i : Nat) (m : Module) (content : Bytes) (ds : List Nat) : Prop where
  ino : s.fs.inoOf (s.files f).filename = some i
  parse : parse Γ (s.data i) = some (m, (content.length : Int))
  decode : (Γ.codec m).decode ((s.data i).drop headerSize) = some content
  length_lt : content.length < 2 ^ 63
  compressor : (s.files f).compressor = some m
  size : (s.files f).size = (content.length : Int)
  type : (s.files f).type ≠ .write
  head : (s.files f).head = ds
  descs : ∀ d ∈ ds, (s.descs d).Reads f i content

/-- The file of the entry `f` is raw, and its descriptors `ds` read `content`. -/
structure State.Unpacked (s : State) (f : Nat) (content : Bytes) (ds : List Nat) : Prop where
  compressor : (s.files f).compressor = none
  descs : ∀ d ∈ ds, (s.descs d).file = f ∧ ∃ j pos, (s.descs d).fd = some ⟨j, pos⟩ ∧ s.data j = content

/-- Every page in the cache of an entry is a whole page of `content`. -/
def State.CachesPages (s : State) (f : Nat) (content : Bytes) : Prop :=
  ∀ pages, (s.files f).cache = some pages → ∀ k page, pages.getD k none = some page →
    page = Bytes.slice content (pageSize * k) pageSize ∧ pageSize * (k + 1) ≤ content.length

variable {Γ : Config} {env : Env} {s s' : State} {f i d : Nat} {m : Module} {content : Bytes} {ds : List Nat}

/-- What is known of an entry stays known as long as its file, its record and the way its descriptors stand do. -/
theorem State.Packed.of_same (h : s.Packed Γ f i m content ds) (hfs : s'.fs = s.fs)
    (hname : (s'.files f).filename = (s.files f).filename) (hcomp : (s'.files f).compressor = (s.files f).compressor)
    (hsize : (s'.files f).size = (s.files f).size) (htype : (s'.files f).type ≠ .write)
    (hhead : (s'.files f).head = (s.files f).head) (hdescs : ∀ d ∈ ds, (s'.descs d).Reads f i content) :
    s'.Packed Γ f i m content ds where
  ino := by rw [hfs, hname]; exact h.ino
  parse := by unfold State.data; rw [hfs]; exact h.parse
  decode := by unfold State.data; rw [hfs]; exact h.decode
  length_lt := h.length_lt
  compressor := hcomp.trans h.compressor
  size := hsize.trans h.size
  type := htype
  head := hhead.trans h.head
  descs := hdescs

/-- A descriptor changes, and reads as before. -/
theorem State.Packed.modDesc (h : s.Packed Γ f i m content ds) {g : Desc → Desc} (hg : (g (s.descs d)).Reads f i content) :
    (s.modDesc d g).Packed Γ f i m content ds := by
  refine h.of_same rfl rfl rfl rfl h.type rfl ?_
  intro d' hd'
  rw [State.descs_modDesc]
  split
  · exact hg
  · exact h.descs d' hd'

/-- The record of the entry changes in what does not matter here. -/
theorem State.Packed.modFile (h : s.Packed Γ f i m content ds) {g : FileT → FileT}
    (hname : (g (s.files f)).filename = (s.files f).filename) (hcomp : (g (s.files f)).compressor = (s.files f).compressor)
    (hsize : (g (s.files f)).size = (s.files f).size) (htype : (g (s.files f)).type ≠ .write)
    (hhead : (g (s.files f)).head = (s.files f).head) : (s.modFile f g).Packed Γ f i m content ds := by
  have hf : (s.modFile f g).files f = g (s.files f) := by rw [State.files_modFile, if_pos rfl]
  exact h.of_same rfl (by rw [hf, hname]) (by rw [hf, hcomp]) (by rw [hf, hsize]) (by rw [hf]; exact htype)
    (by rw [hf, hhead]) h.descs

theorem State.Packed.counted (h : s.Packed Γ f i m content ds) (keep : Bool) :
    (countPage s keep).Packed Γ f i m content ds := h.of_same rfl rfl rfl rfl h.type rfl h.descs

/-- The module has delivered `buf` on a descriptor, whose own count of bytes is not up to date yet. -/
def delivered (s : State) (d i : Nat) (buf : Bytes) : State :=
  s.modDesc d (fun desc =>
    { desc with handle := some (.reading headerSize (desc.offset + buf.length)), fd := some ⟨i, (s.data i).length⟩ })

/-- One read of an open module delivers the next bytes. -/
theorem codecRead_packed (he : env.AllOk) (h : s.Packed Γ f i m content ds) (hd : d ∈ ds) (hopen : (s.descs d).handle ≠ none)
    (n : Nat) :
    codecRead Γ env s m d n =
      (delivered s d i (Bytes.slice content (s.descs d).offset n), some (Bytes.slice content (s.descs d).offset n)) := by
  obtain ⟨pos, hfd, -⟩ := (h.descs d hd).fd
  have hhandle : (s.descs d).handle = some (.reading headerSize (s.descs d).offset) := by
    rcases (h.descs d hd).handle with ⟨hnone, -⟩ | hsome
    · exact absurd hnone hopen
    · exact hsome
  unfold codecRead
  rw [hhandle, hfd]
  simp only [he .codecRead, if_true, h.decode]
  rfl

/-- The descriptor moves over the bytes delivered. -/
theorem Desc.Reads.advance {desc : Desc} (h : desc.Reads f i content) {k : Nat} (hk : desc.offset + k ≤ content.length)
    (pos : Nat) :
    ({ desc with handle := some (.reading headerSize (desc.offset + k)), fd := some ⟨i, pos⟩, offset := desc.offset + k } :
      Desc).Reads f i content where
  file := h.file
  fd := ⟨pos, rfl, fun hnone => by cases hnone⟩
  handle := Or.inr rfl
  offset_le := hk

/-! ## Skipping -/

/-- A page that the loop keeps is a whole page of the file. -/
theorem State.CachesPages.set (h : s.CachesPages f content) {g : FileT → FileT} {k : Nat} {page : Bytes}
    (hg : (g (s.files f)).cache = (s.files f).cache.map (fun pages => pages.set k (some page)))
    (hpage : page = Bytes.slice content (pageSize * k) pageSize) (hk : pageSize * (k + 1) ≤ content.length) :
    (s.modFile f g).CachesPages f content := by
  intro pages hpages j p hp
  rw [State.files_modFile, if_pos rfl, hg] at hpages
  rw [Option.map_eq_some_iff] at hpages
  obtain ⟨pages₀, hpages₀, rfl⟩ := hpages
  by_cases hj : k = j
  · subst hj
    by_cases hlt : k < pages₀.length
    · simp [List.getD_eq_getElem?_getD, hlt] at hp
      exact ⟨hp ▸ hpage, hk⟩
    · simp [List.getD_eq_getElem?_getD, hlt] at hp
  · refine h pages₀ hpages₀ j p ?_
    simpa [List.getD_eq_getElem?_getD, List.getElem?_set_ne hj] using hp

/-- What the cache holds does not change with the rest of the state. -/
theorem State.CachesPages.of_cache (h : s.CachesPages f content) (hc : (s'.files f).cache = (s.files f).cache) :
    s'.CachesPages f content := by
  unfold State.CachesPages
  rw [hc]
  exact h

/-- The state after one turn of the loop that skips. -/
def turned (s : State) (f d i : Nat) (keep : Bool) (buf : Bytes) : State :=
  skipped (delivered (countPage s keep) d i buf) f d keep buf

@[simp] theorem descs_turned (keep : Bool) (buf : Bytes) (d' : Nat) :
    (turned s f d i keep buf).descs d' =
      if d' = d then
        { s.descs d with
          handle := some (.reading headerSize ((s.descs d).offset + buf.length)), fd := some ⟨i, (s.data i).length⟩
          offset := (s.descs d).offset + buf.length }
      else s.descs d' := by
  by_cases e : d' = d
  · subst e
    simp [turned, skipped, delivered, countPage, State.data]
  · simp [turned, skipped, delivered, countPage, e]

/-- One turn moves the descriptor. -/
theorem State.Packed.turned (h : s.Packed Γ f i m content ds) (keep : Bool) (buf : Bytes)
    (hbuf : (s.descs d).offset + buf.length ≤ content.length) : (turned s f d i keep buf).Packed Γ f i m content ds := by
  refine h.of_same rfl ?_ ?_ ?_ ?_ ?_ ?_
  · simp [FuseCompress.turned, skipped, delivered, countPage]
  · simp [FuseCompress.turned, skipped, delivered, countPage]
  · simp [FuseCompress.turned, skipped, delivered, countPage]
  · simpa [FuseCompress.turned, skipped, delivered, countPage] using h.type
  · simp [FuseCompress.turned, skipped, delivered, countPage]
  · intro d' hd'
    rw [descs_turned]
    by_cases e : d' = d
    · subst e
      rw [if_pos rfl]
      exact (h.descs d' hd').advance hbuf _
    · rw [if_neg e]
      exact h.descs d' hd'

/-- A turn that keeps its page keeps a whole page. -/
theorem State.CachesPages.turned (hc : s.CachesPages f content) {keep : Bool} {buf : Bytes}
    (hkeep : keep = true → pageSize ∣ (s.descs d).offset ∧ (s.descs d).offset + pageSize ≤ content.length ∧
      buf = Bytes.slice content (s.descs d).offset pageSize) : (turned s f d i keep buf).CachesPages f content := by
  cases keep with
  | false => exact hc.of_cache (by simp [FuseCompress.turned, skipped, delivered, countPage])
  | true =>
    obtain ⟨⟨k, hk⟩, hle, rfl⟩ := hkeep rfl
    have hdiv : (s.descs d).offset / pageSize = k := by
      rw [hk]
      exact Nat.mul_div_cancel_left k (by decide)
    have hset : (s.modFile f (fun file => { file with
        cache := file.cache.map (fun pages => pages.set k (some (Bytes.slice content (s.descs d).offset pageSize))) })).CachesPages
          f content := by
      refine hc.set rfl (by rw [hk]) ?_
      rw [Nat.mul_add, Nat.mul_one, ← hk]
      exact hle
    exact hset.of_cache (by simp [FuseCompress.turned, skipped, delivered, countPage, hdiv])

/-- One turn of the loop, on a file that is in order: at the end of the file it stops, and else it goes on with what is left. -/
theorem skipLoop_turn (he : env.AllOk) (h : s.Packed Γ f i m content ds) (hd : d ∈ ds) (hopen : (s.descs d).handle ≠ none)
    (cacheThis : Bool) {n toread : Nat} (hpos : 0 < toread) {buf : Bytes}
    (hbuf : buf = Bytes.slice content (s.descs d).offset (min toread pageSize)) :
    skipLoop Γ env m f d cacheThis (n + 1) toread s =
      if buf = [] then (delivered (countPage s (keepPage Γ s f d cacheThis)) d i buf, some 0)
      else skipLoop Γ env m f d cacheThis n (toread - buf.length) (turned s f d i (keepPage Γ s f d cacheThis) buf) := by
  have hle := (h.descs d hd).offset_le
  have hlen : buf.length = min (min toread pageSize) (content.length - (s.descs d).offset) := by
    rw [hbuf]
    exact Bytes.length_slice _ _ _
  have hfull : ¬(buf.length < min toread pageSize ∧ ((s.files f).size = -1 ∨
      (((s.descs d).offset + buf.length : Nat) : Int) < (s.files f).size)) := by
    rw [h.size]
    omega
  rw [skipLoop, if_neg (by omega)]
  simp only [codecRead_packed he (h.counted (keepPage Γ s f d cacheThis)) hd hopen (min toread pageSize)]
  rw [show ((countPage s (keepPage Γ s f d cacheThis)).descs d).offset = (s.descs d).offset from rfl, ← hbuf]
  rw [if_neg (by simpa [delivered, countPage] using hfull)]
  rfl

/-- What the loop that skips by `toread` bytes leaves behind: the decoder stands at its target, or at the end of the file. -/
structure State.Skipped (Γ : Config) (s s' : State) (f i : Nat) (m : Module) (content : Bytes) (ds : List Nat) (d toread : Nat)
    (res : Option Int) : Prop where
  packed : s'.Packed Γ f i m content ds
  pages : s'.CachesPages f content
  opened : (s'.descs d).handle ≠ none
  res : res = if (s.descs d).offset + toread ≤ content.length then none else some 0
  offset : (s.descs d).offset + toread ≤ content.length → (s'.descs d).offset = (s.descs d).offset + toread

/-- A turn of the loop that keeps its page has a whole page of the file before it. -/
theorem whole_page {now toread n : Nat} (hnow : pageSize ∣ now) (hto : pageSize ∣ toread) (hpos : 0 < toread) (hlt : now < n)
    (hend : now + toread ≤ n ∨ pageSize ∣ n) : min toread pageSize = pageSize ∧ now + pageSize ≤ n := by
  have hle : pageSize ≤ toread := Nat.le_of_dvd hpos hto
  refine ⟨Nat.min_eq_right hle, ?_⟩
  rcases hend with hend | hend
  · omega
  · have hdvd : pageSize ∣ n - now := Nat.dvd_sub hend hnow
    have := Nat.le_of_dvd (by omega) hdvd
    omega

/-- The loop that skips comes to its target, or to the end of the file. -/
theorem skipLoop_packed (he : env.AllOk) {cacheThis : Bool} (n toread : Nat) (hfuel : toread ≤ n)
    (h : s.Packed Γ f i m content ds) (hc : s.CachesPages f content) (hd : d ∈ ds) (hopen : (s.descs d).handle ≠ none)
    (hkeep : cacheThis = true → pageSize ∣ (s.descs d).offset ∧ pageSize ∣ toread ∧
      ((s.descs d).offset + toread ≤ content.length ∨ pageSize ∣ content.length)) :
    ∃ s' res, skipLoop Γ env m f d cacheThis n toread s = (s', res) ∧ s.Skipped Γ s' f i m content ds d toread res := by
  induction n generalizing s toread with
  | zero =>
    have hle := (h.descs d hd).offset_le
    obtain rfl : toread = 0 := by omega
    exact ⟨s, none, rfl, h, hc, hopen, by rw [if_pos (by omega)], fun _ => rfl⟩
  | succ n ih =>
    have hle := (h.descs d hd).offset_le
    rcases Nat.eq_zero_or_pos toread with rfl | hpos
    · exact ⟨s, none, by rw [skipLoop, if_pos rfl], h, hc, hopen, by rw [if_pos (by omega)], fun _ => rfl⟩
    · obtain ⟨buf, hbuf⟩ : ∃ buf, buf = Bytes.slice content (s.descs d).offset (min toread pageSize) := ⟨_, rfl⟩
      have hpage : 0 < pageSize := by decide
      have hlen : buf.length = min (min toread pageSize) (content.length - (s.descs d).offset) := by
        rw [hbuf]
        exact Bytes.length_slice _ _ _
      rw [skipLoop_turn he h hd hopen cacheThis hpos hbuf]
      rcases Nat.eq_or_lt_of_le hle with hend | hlt
      · -- nothing is left of the file
        have hempty : buf = [] := List.eq_nil_of_length_eq_zero (by omega)
        rw [if_pos hempty]
        refine ⟨_, some 0, rfl, (h.counted _).modDesc ?_, hc.of_cache rfl, by simp [delivered], by rw [if_neg (by omega)],
          fun _ => by omega⟩
        rw [hempty]
        exact (h.descs d hd).advance (k := 0) hle _
      · have hne : buf ≠ [] := by
          intro hempty
          rw [hempty, List.length_nil] at hlen
          omega
        rw [if_neg hne]
        have hwhole : cacheThis = true → min toread pageSize = pageSize ∧ (s.descs d).offset + pageSize ≤ content.length := by
          intro hct
          obtain ⟨hnow, hto, hfit⟩ := hkeep hct
          exact whole_page hnow hto hpos hlt hfit
        have hcacheThis : keepPage Γ s f d cacheThis = true → cacheThis = true := by
          intro hk
          unfold keepPage at hk
          rw [Bool.and_eq_true, Bool.and_eq_true] at hk
          exact hk.1.1
        have hp := h.turned (d := d) (keepPage Γ s f d cacheThis) buf (by omega)
        have hcp : (turned s f d i (keepPage Γ s f d cacheThis) buf).CachesPages f content := by
          refine hc.turned ?_
          intro hk
          have hct := hcacheThis hk
          refine ⟨(hkeep hct).1, (hwhole hct).2, ?_⟩
          rw [hbuf, (hwhole hct).1]
        have hoff : ((turned s f d i (keepPage Γ s f d cacheThis) buf).descs d).offset = (s.descs d).offset + buf.length := by simp
        obtain ⟨s', res, hloop, hs'⟩ := ih (toread - buf.length) (by omega) hp hcp (by simp) (by
          intro hct
          obtain ⟨hnow, hto, hfit⟩ := hkeep hct
          obtain ⟨hmin, hroom⟩ := hwhole hct
          have hl : buf.length = pageSize := by omega
          rw [hoff, hl]
          refine ⟨Nat.dvd_add hnow (dvd_refl _), Nat.dvd_sub hto (dvd_refl _), ?_⟩
          rcases hfit with hfit | hfit
          · left
            omega
          · right
            exact hfit)
        have hsum : (s.descs d).offset + buf.length + (toread - buf.length) = (s.descs d).offset + toread := by omega
        refine ⟨s', res, hloop, hs'.packed, hs'.pages, hs'.opened, ?_, ?_⟩
        · rw [hs'.res, hoff, hsum]
        · intro hfit
          rw [hs'.offset (by rw [hoff, hsum]; exact hfit), hoff, hsum]

/-! ## The cache -/

/-- A table of pages holds whole pages of a file only. -/
def WholePages (pages : List (Option Bytes)) (content : Bytes) : Prop :=
  ∀ k page, pages.getD k none = some page →
    page = Bytes.slice content (pageSize * k) pageSize ∧ pageSize * (k + 1) ≤ content.length

theorem State.CachesPages.wholePages (h : s.CachesPages f content) : WholePages ((s.files f).cache.getD []) content := by
  cases hc : (s.files f).cache with
  | none =>
    intro k page hp
    simp at hp
  | some pages => exact h pages hc

/-- A table without one of its pages. -/
theorem WholePages.set_none {pages : List (Option Bytes)} (h : WholePages pages content) (k : Nat) :
    WholePages (pages.set k none) content := by
  intro j page hp
  by_cases hj : k = j
  · subst hj
    by_cases hlt : k < pages.length
    · simp [List.getD_eq_getElem?_getD, hlt] at hp
    · simp [List.getD_eq_getElem?_getD, hlt] at hp
  · refine h j page ?_
    simpa [List.getD_eq_getElem?_getD, List.getElem?_set_ne hj] using hp

/-- A page of full size is served as it is. -/
theorem resize_slice_page {k : Nat} (hk : pageSize * (k + 1) ≤ content.length) :
    Bytes.resize (Bytes.slice content (pageSize * k) pageSize) pageSize = Bytes.slice content (pageSize * k) pageSize := by
  have hlen : (Bytes.slice content (pageSize * k) pageSize).length = pageSize := by
    rw [Bytes.length_slice]
    rw [Nat.mul_add] at hk
    omega
  rw [Bytes.resize, hlen, Nat.sub_self, List.take_of_length_le (Nat.le_of_eq hlen), Bytes.zeros_zero, List.append_nil]

/-- What the cache serves is a part of the file, and what it keeps is still whole pages. -/
theorem servePages_whole (n : Nat) {pages : List (Option Bytes)} (h : WholePages pages content) (k : Nat) :
    (servePages pages n k).1 = Bytes.slice content (pageSize * k) (pageSize * (servePages pages n k).2.2) ∧
      (servePages pages n k).1.length = pageSize * (servePages pages n k).2.2 ∧
      (servePages pages n k).2.2 ≤ n ∧ WholePages (servePages pages n k).2.1 content := by
  induction n generalizing pages k with
  | zero =>
    refine ⟨?_, rfl, Nat.le_refl 0, h⟩
    simp [servePages, Bytes.slice]
  | succ n ih =>
    cases hp : pages.getD k none with
    | none =>
      rw [servePages, hp]
      refine ⟨?_, rfl, Nat.zero_le _, h⟩
      simp [Bytes.slice]
    | some page =>
      obtain ⟨rfl, hle⟩ := h k page hp
      obtain ⟨hbytes, hlen, hn, hwhole⟩ := ih (h.set_none k) (k + 1)
      rw [servePages, hp]
      simp only
      refine ⟨?_, ?_, by omega, hwhole⟩
      · rw [resize_slice_page hle, hbytes, show pageSize * (k + 1) = pageSize * k + pageSize from Nat.mul_succ _ _,
          show pageSize * ((servePages (pages.set k none) n (k + 1)).2.2 + 1) =
            pageSize + pageSize * (servePages (pages.set k none) n (k + 1)).2.2 by rw [Nat.mul_succ, Nat.add_comm],
          Bytes.slice_append_slice]
      · rw [List.length_append, Bytes.length_resize, hlen, Nat.mul_add, Nat.mul_one, Nat.add_comm]

/-- A page that is not there ends the serving. -/
theorem servePages_of_none (n : Nat) {pages : List (Option Bytes)} {k : Nat} (h : pages.getD k none = none) :
    (servePages pages n k).2.2 = 0 := by
  cases n with
  | zero => rfl
  | succ n => rw [servePages, h]

/-- A table without pages. -/
theorem wholePages_replicate (n : Nat) : WholePages (List.replicate n none) content := by
  intro k page hp
  simp only [List.getD_eq_getElem?_getD, List.getElem?_replicate] at hp
  split at hp
  · cases hp
  · cases hp

/-- An entry whose table of pages is exchanged. -/
theorem State.CachesPages.of_wholePages {g : FileT → FileT} {pages : List (Option Bytes)}
    (hg : (g (s.files f)).cache = some pages) (h : WholePages pages content) : (s.modFile f g).CachesPages f content := by
  intro pages' hp
  rw [State.files_modFile, if_pos rfl, hg] at hp
  cases hp
  exact h

theorem State.Packed.allocCache (h : s.Packed Γ f i m content ds) (cacheThis : Bool) :
    (allocCache s f cacheThis).Packed Γ f i m content ds := by
  unfold FuseCompress.allocCache
  split
  · exact h.modFile rfl rfl rfl h.type rfl
  · exact h

theorem State.CachesPages.allocCache (h : s.CachesPages f content) (cacheThis : Bool) :
    (allocCache s f cacheThis).CachesPages f content := by
  unfold FuseCompress.allocCache
  split
  · exact State.CachesPages.of_wholePages rfl (wholePages_replicate _)
  · exact h

/-- There is room for the pages of a file that is not too large. -/
theorem allocFails_eq_false {file : FileT} {cacheThis : Bool}
    (h : cacheThis = true → 0 ≤ file.size ∧ file.size + pageSize < 2 ^ 43) : allocFails file cacheThis = false := by
  unfold allocFails
  cases cacheThis with
  | false => rfl
  | true =>
    obtain ⟨hpos, hlt⟩ := h rfl
    have hpages : 0 ≤ cachePages file.size := by
      obtain ⟨n, hn⟩ := Int.eq_ofNat_of_zero_le hpos
      rw [hn, pageSize] at hlt
      rw [cachePages, hn, pageSize, ← Int.ofNat_tdiv, Int.bmod_def]
      omega
    rw [decide_eq_false (Int.not_lt.mpr hpages), Bool.and_false]

@[simp] theorem descs_allocCache (cacheThis : Bool) : (allocCache s f cacheThis).descs = s.descs := by
  unfold allocCache
  split <;> rfl

/-! ## Opening the module -/

/-- A module that is not open is opened at the start of the stream. -/
theorem openStream_packed (he : env.AllOk) (h : s.Packed Γ f i m content ds) (hd : d ∈ ds) :
    ∃ s', openStream Γ env s d = (s', true) ∧ s'.Packed Γ f i m content ds ∧ s'.files = s.files ∧
      s'.decompCacheSize = s.decompCacheSize ∧ (s'.descs d).handle ≠ none ∧ (s'.descs d).offset = (s.descs d).offset := by
  obtain ⟨pos, hfd, hpos⟩ := (h.descs d hd).fd
  rcases (h.descs d hd).handle with ⟨hnone, hzero⟩ | hsome
  · refine ⟨s.modDesc d (fun desc => { desc with handle := some (.reading headerSize 0) }), ?_, ?_, rfl, rfl, by simp, by simp⟩
    · unfold openStream
      rw [hnone, hfd, hpos hnone]
      simp [hzero, he .codecOpen]
    · refine h.modDesc ⟨(h.descs d hd).file, ⟨pos, hfd, fun hn => by cases hn⟩, Or.inr ?_, (h.descs d hd).offset_le⟩
      change some (Handle.reading headerSize 0) = some (.reading headerSize (s.descs d).offset)
      rw [hzero]
  · refine ⟨s, ?_, h, rfl, rfl, by rw [hsome]; exact Option.some_ne_none _, rfl⟩
    unfold openStream
    rw [hsome]

/-- The decoder is brought to a place from which the target can be reached. -/
theorem decompressOpen_packed (he : env.AllOk) (h : s.Packed Γ f i m content ds) (hd : d ∈ ds) (target : Nat) :
    ∃ s', decompressOpen Γ env s m d target = (s', true) ∧ s'.Packed Γ f i m content ds ∧ s'.files = s.files ∧
      s'.decompCacheSize = s.decompCacheSize ∧ (s'.descs d).handle ≠ none ∧
      (s'.descs d).offset = skipStart (s.descs d) target := by
  obtain ⟨pos, hfd, hpos⟩ := (h.descs d hd).fd
  by_cases hback : target < (s.descs d).offset
  · have hopen : (s.descs d).handle ≠ none := by
      intro hnone
      rcases (h.descs d hd).handle with ⟨-, hzero⟩ | hsome
      · omega
      · rw [hsome] at hnone
        cases hnone
    have hhandle : (s.descs d).handle = some (.reading headerSize (s.descs d).offset) := by
      rcases (h.descs d hd).handle with ⟨hnone, -⟩ | hsome
      · exact absurd hnone hopen
      · exact hsome
    have hclose : codecClose Γ env s m d = s := by
      unfold codecClose
      rw [hhandle]
    have hdescs : ∀ d', (seekHeader (rewind Γ env s m d) d).descs d' =
        if d' = d then { s.descs d with fd := some ⟨i, headerSize⟩, handle := none, offset := 0 } else s.descs d' := by
      intro d'
      by_cases e : d' = d
      · subst e
        simp [seekHeader, rewind, hclose, hfd]
      · simp [seekHeader, rewind, hclose, e]
    have hp : (seekHeader (rewind Γ env s m d) d).Packed Γ f i m content ds := by
      refine h.of_same ?_ ?_ ?_ ?_ ?_ ?_ ?_
      · simp [seekHeader, rewind, hclose]
      · simp [seekHeader, rewind, hclose]
      · simp [seekHeader, rewind, hclose]
      · simp [seekHeader, rewind, hclose]
      · simpa [seekHeader, rewind, hclose] using h.type
      · simp [seekHeader, rewind, hclose]
      · intro d' hd'
        rw [hdescs]
        by_cases e : d' = d
        · subst e
          rw [if_pos rfl]
          exact ⟨(h.descs d' hd).file, ⟨headerSize, rfl, fun _ => rfl⟩, Or.inl ⟨rfl, rfl⟩, Nat.zero_le _⟩
        · rw [if_neg e]
          exact h.descs d' hd'
    obtain ⟨s', hs', hpacked, hfiles, hsize, hopened, hoff⟩ := openStream_packed he hp hd
    refine ⟨s', ?_, hpacked, ?_, ?_, hopened, ?_⟩
    · unfold decompressOpen
      rw [if_pos hback, if_neg hopen, if_neg (by simp [he .codecClose]), if_neg (by simp [he .lseek, hfd])]
      exact hs'
    · rw [hfiles]
      simp [seekHeader, rewind, hclose]
    · rw [hsize]
      simp [seekHeader, rewind, hclose]
    · rw [hoff, skipStart, if_pos hback]
      simp [seekHeader, rewind, hclose]
  · obtain ⟨s', hs', hpacked, hfiles, hsize, hopened, hoff⟩ := openStream_packed he h hd
    refine ⟨s', ?_, hpacked, hfiles, hsize, hopened, ?_⟩
    · unfold decompressOpen
      rw [if_neg hback]
      exact hs'
    · rw [hoff, skipStart, if_neg hback]

/-! ## The read itself -/

/-- A request is cut at the end of the file. -/
theorem cutSize_packed (h : s.Packed Γ f i m content ds) {off : Nat} (hle : off ≤ content.length) (size : Nat) :
    cutSize (s.files f) off size = min size (content.length - off) := by
  have hlt := h.length_lt
  unfold cutSize
  rw [h.size, asU64_of_nat (by omega)]
  split
  · rename_i hcut
    rw [show (content.length : Int) - (off : Int) = ((content.length - off : Nat) : Int) by omega, asU64_of_nat (by omega)]
    omega
  · rename_i hcut
    omega

/-- The read at the end of `direct_decompress` gets the bytes asked for. -/
theorem decompressRead_packed (he : env.AllOk) (h : s.Packed Γ f i m content ds) (hc : s.CachesPages f content) (hd : d ∈ ds)
    (hopen : (s.descs d).handle ≠ none) (size : Nat) (served : Bytes) :
    ∃ s', decompressRead Γ env s m f d size served =
        (s', .done ((served ++ Bytes.slice content (s.descs d).offset size).length : Nat)
          (served ++ Bytes.slice content (s.descs d).offset size)) ∧
      s'.Packed Γ f i m content ds ∧ s'.CachesPages f content := by
  have hle := (h.descs d hd).offset_le
  obtain ⟨buf, hbuf⟩ : ∃ buf, buf = Bytes.slice content (s.descs d).offset size := ⟨_, rfl⟩
  have hcut : Bytes.slice content (s.descs d).offset (min size (content.length - (s.descs d).offset)) = buf := by
    rw [Bytes.slice_min, hbuf]
  have hlen : buf.length = min size (content.length - (s.descs d).offset) := by
    rw [hbuf]
    exact Bytes.length_slice _ _ _
  have hread := codecRead_packed he h hd hopen (min size (content.length - (s.descs d).offset))
  rw [hcut] at hread
  rw [← hbuf]
  refine ⟨(delivered s d i buf).modDesc d (fun desc => { desc with offset := desc.offset + buf.length }), ?_, ?_, hc.of_cache rfl⟩
  · unfold decompressRead
    rw [cutSize_packed h hle]
    simp only [hread]
    rw [if_neg (by omega), List.length_append, Nat.add_comm]
  · refine h.of_same rfl rfl rfl rfl h.type rfl ?_
    intro d' hd'
    by_cases e : d' = d
    · subst e
      simpa [delivered] using (h.descs d' hd).advance (k := buf.length) (by omega) _
    · simpa [delivered, e] using h.descs d' hd'

/-- Skipping starts behind the place that is asked for. -/
theorem decompressSkip_of_lt {size offset : Nat} {cacheThis : Bool} {served : Bytes} (hlt : (s.descs d).offset < offset)
    (hroom : allocFails (s.files f)
      (cacheThis && !decide (((offset - (s.descs d).offset : Nat) : Int) > Γ.maxDecompCacheSize - s.decompCacheSize)) = false) :
    decompressSkip Γ env s m f d size offset cacheThis served =
      match skipLoop Γ env m f d
          (cacheThis && !decide (((offset - (s.descs d).offset : Nat) : Int) > Γ.maxDecompCacheSize - s.decompCacheSize))
          (offset - (s.descs d).offset) (offset - (s.descs d).offset)
          (allocCache s f
            (cacheThis && !decide (((offset - (s.descs d).offset : Nat) : Int) > Γ.maxDecompCacheSize - s.decompCacheSize))) with
      | (s, some r) => (s, .done r [])
      | (s, none) => decompressRead Γ env s m f d size served := by
  unfold decompressSkip
  rw [if_pos hlt]
  dsimp only
  rw [hroom]
  rfl

/-- From where the module is open on, `direct_decompress` gets the bytes asked for. -/
theorem decompressSkip_packed (he : env.AllOk) (h : s.Packed Γ f i m content ds) (hc : s.CachesPages f content) (hd : d ∈ ds)
    (hopen : (s.descs d).handle ≠ none) {cacheThis : Bool} {size offset : Nat} {served : Bytes}
    (hle : (s.descs d).offset ≤ offset) (hserved : served = [] ∨ offset ≤ content.length)
    (hkeep : cacheThis = true → (s.descs d).offset < offset →
      ((offset - (s.descs d).offset : Nat) : Int) ≤ Γ.maxDecompCacheSize - s.decompCacheSize →
      pageSize ∣ (s.descs d).offset ∧ pageSize ∣ offset ∧ (offset ≤ content.length ∨ pageSize ∣ content.length) ∧
        (content.length : Int) + pageSize < 2 ^ 43) :
    ∃ s', decompressSkip Γ env s m f d size offset cacheThis served =
        (s', .done ((served ++ Bytes.slice content offset size).length : Nat) (served ++ Bytes.slice content offset size)) ∧
      s'.Packed Γ f i m content ds ∧ s'.CachesPages f content := by
  have hpos := (h.descs d hd).offset_le
  rcases Nat.eq_or_lt_of_le hle with heq | hlt
  · obtain ⟨s', hs', hrest⟩ := decompressRead_packed he h hc hd hopen size served
    rw [heq] at hs'
    refine ⟨s', ?_, hrest⟩
    unfold decompressSkip
    rw [if_neg (by omega)]
    exact hs'
  · obtain ⟨keeps, hkeeps⟩ : ∃ keeps : Bool, keeps = (cacheThis && !decide (((offset - (s.descs d).offset : Nat) : Int) >
        Γ.maxDecompCacheSize - s.decompCacheSize)) := ⟨_, rfl⟩
    have hroom : allocFails (s.files f) keeps = false := by
      refine allocFails_eq_false (fun hk => ?_)
      rw [hkeeps, Bool.and_eq_true, Bool.not_eq_true', decide_eq_false_iff_not] at hk
      obtain ⟨-, -, -, hsmall⟩ := hkeep hk.1 hlt (by omega)
      rw [h.size]
      exact ⟨Int.natCast_nonneg _, hsmall⟩
    have haligned : keeps = true → pageSize ∣ (s.descs d).offset ∧ pageSize ∣ offset - (s.descs d).offset ∧
        ((s.descs d).offset + (offset - (s.descs d).offset) ≤ content.length ∨ pageSize ∣ content.length) := by
      intro hk
      rw [hkeeps, Bool.and_eq_true, Bool.not_eq_true', decide_eq_false_iff_not] at hk
      obtain ⟨hnow, hoff, hfit, -⟩ := hkeep hk.1 hlt (by omega)
      refine ⟨hnow, Nat.dvd_sub hoff hnow, ?_⟩
      rcases hfit with hfit | hfit
      · left
        omega
      · right
        exact hfit
    obtain ⟨s₁, res, hloop, hs₁⟩ := skipLoop_packed (d := d) he (offset - (s.descs d).offset) (offset - (s.descs d).offset)
      (Nat.le_refl _) (h.allocCache keeps) (hc.allocCache keeps) hd (by rw [descs_allocCache]; exact hopen)
      (by rw [descs_allocCache]; exact haligned)
    have hto : (s.descs d).offset + (offset - (s.descs d).offset) = offset := by omega
    have hres := hs₁.res
    have hoff := hs₁.offset
    rw [descs_allocCache, hto] at hres hoff
    rw [decompressSkip_of_lt hlt (by rw [← hkeeps]; exact hroom), ← hkeeps, hloop, hres]
    by_cases hfit : offset ≤ content.length
    · rw [if_pos hfit]
      obtain ⟨s', hs', hrest⟩ := decompressRead_packed he hs₁.packed hs₁.pages hd hs₁.opened size served
      rw [hoff hfit] at hs'
      exact ⟨s', hs', hrest⟩
    · -- beyond the end of the file
      rw [if_neg hfit]
      rcases hserved with rfl | hin
      · refine ⟨s₁, ?_, hs₁.packed, hs₁.pages⟩
        rw [Bytes.slice_of_length_le (by omega)]
        rfl
      · exact absurd hin hfit

/-! ## Falling back to a raw file -/

theorem State.Packed.flushFileCache (h : s.Packed Γ f i m content ds) : (flushFileCache s f).Packed Γ f i m content ds := by
  unfold FuseCompress.flushFileCache
  split
  · exact h
  · rename_i pages hp
    have h' : ({ s with decompCacheSize := s.decompCacheSize - 4096 * ((pages.filter Option.isSome).length : Int) } :
        State).Packed Γ f i m content ds := h.of_same rfl rfl rfl rfl h.type rfl h.descs
    exact h'.modFile rfl rfl rfl h.type rfl

/-- What `do_decompress` relies on when it closes the descriptors of a file that is only read. -/
structure State.Closable (s : State) (f : Nat) (m : Module) (ds : List Nat) : Prop where
  compressor : (s.files f).compressor = some m
  type : (s.files f).type ≠ .write
  descs : ∀ d ∈ ds, (s.descs d).handle = none ∨ ∃ start pos, (s.descs d).handle = some (.reading start pos)

theorem State.Packed.closable (h : s.Packed Γ f i m content ds) : s.Closable f m ds where
  compressor := h.compressor
  type := h.type
  descs := by
    intro d hd
    rcases (h.descs d hd).handle with ⟨hnone, -⟩ | hsome
    · exact Or.inl hnone
    · exact Or.inr ⟨_, _, hsome⟩

/-- Closing the module of a descriptor that reads writes nothing. -/
theorem closeHandle_closable (Γ : Config) (env : Env) (h : s.Closable f m ds) (hd : d ∈ ds) :
    ∃ g : Desc → Desc, closeHandle Γ env s f d = s.modDesc d g ∧ (g (s.descs d)).handle = none := by
  unfold closeHandle
  rcases h.descs d hd with hnone | ⟨start, pos, hsome⟩
  · refine ⟨id, ?_, hnone⟩
    rw [hnone]
    simp [State.modDesc]
  · refine ⟨fun desc => { desc with offset := 0, handle := none }, ?_, rfl⟩
    rw [hsome, h.compressor]
    simp only [codecClose, hsome]

/-- Closing one descriptor of a file that is only read leaves everything else as it was. -/
theorem close_closable (Γ : Config) (env : Env) (h : s.Closable f m ds) (hd : d ∈ ds) :
    (fileClose Γ (directClose Γ env s f d) d).Closable f m ds ∧
      (fileClose Γ (directClose Γ env s f d) d).fs = s.fs := by
  obtain ⟨g, hg, hnone⟩ := closeHandle_closable Γ env h hd
  have hclose : ∀ st, restoreTimes env (s.modDesc d g) f st = s.modDesc d g := by
    intro st
    unfold restoreTimes
    split
    · rw [if_neg (fun hw => h.type hw.1)]
    · rfl
  have hdirect : ∃ k : FileT → FileT, directClose Γ env s f d = (s.modDesc d g).modFile f k ∧
      (k (s.files f)).compressor = some m ∧ (k (s.files f)).type ≠ .write := by
    unfold directClose
    simp only [hg, hclose]
    split
    · exact ⟨_, rfl, h.compressor, by simp⟩
    · refine ⟨id, ?_, h.compressor, h.type⟩
      rw [State.modFile, id, Function.update_eq_self]
  obtain ⟨k, hk, hcomp, htype⟩ := hdirect
  rw [hk]
  refine ⟨⟨?_, ?_, ?_⟩, ?_⟩
  · simpa [fileClose] using hcomp
  · simpa [fileClose] using htype
  · intro d' hd'
    by_cases e : d' = d
    · subst e
      left
      simpa [fileClose] using hnone
    · simpa [fileClose, e] using h.descs d' hd'
  · simp [fileClose]

theorem closeAll_closable (Γ : Config) (env : Env) (ds' : List Nat) (h : s.Closable f m ds) (hsub : ∀ d ∈ ds', d ∈ ds) :
    (closeAll Γ env s f ds').Closable f m ds ∧ (closeAll Γ env s f ds').fs = s.fs := by
  induction ds' generalizing s with
  | nil => exact ⟨h, rfl⟩
  | cons d ds' ih =>
    obtain ⟨hone, hfs⟩ := close_closable Γ (env.of d) h (hsub d (List.mem_cons_self ..))
    obtain ⟨hall, hfs'⟩ := ih hone (fun d' hd' => hsub d' (List.mem_cons_of_mem d hd'))
    rw [closeAll]
    exact ⟨hall, hfs'.trans hfs⟩

/-- The descriptors that `do_decompress` opens again. -/
theorem descs_reopenAll (env : Env) (temp : Nat) (ds : List Nat) (d : Nat) :
    (reopenAll env s temp ds).descs d =
      if d ∈ ds then { s.descs d with fd := if (env.of d).ok .reopen then some ⟨temp, 0⟩ else none } else s.descs d := by
  induction ds generalizing s with
  | nil => rfl
  | cons d' ds ih =>
    rw [reopenAll, ih]
    by_cases e : d = d'
    · subst e
      simp
    · simp [e]

@[simp] theorem files_reopenAll (temp : Nat) (ds : List Nat) : (reopenAll env s temp ds).files = s.files := by
  induction ds generalizing s with
  | nil => rfl
  | cons d ds ih => rw [reopenAll, ih]; rfl

@[simp] theorem fs_reopenAll (temp : Nat) (ds : List Nat) : (reopenAll env s temp ds).fs = s.fs := by
  induction ds generalizing s with
  | nil => rfl
  | cons d ds ih => rw [reopenAll, ih]; rfl

/-- The temporary file, once complete, is what all descriptors read. -/
theorem doDecompressInstall_unpacked (he : env.AllOk) (hhead : (s.files f).head = ds) (hfile : ∀ d ∈ ds, (s.descs d).file = f)
    (temp : Nat) (hdata : s.data temp = content) (st : Attr) (size : Nat) :
    ∃ s', doDecompressInstall env s f temp st size = (s', true) ∧ s'.Unpacked f content ds := by
  unfold doDecompressInstall
  simp only [he .rename, he .utime, Bool.true_eq_false, if_false]
  refine ⟨_, rfl, ?_, ?_⟩
  · simp
  · intro d hd
    have hreopen : (reopenAll env s temp ds).descs d = { s.descs d with fd := some ⟨temp, 0⟩ } := by
      rw [descs_reopenAll, if_pos hd, if_pos (he.of d .reopen)]
    refine ⟨?_, temp, 0, ?_, ?_⟩
    · simpa [hhead, hreopen] using hfile d hd
    · simp [hhead, hreopen]
    · simpa [State.data, Backing.utime] using hdata

/-- The module of the header is the module of the entry already. -/
theorem State.Packed.modFile_compressor (h : s.Packed Γ f i m content ds) :
    s.modFile f (fun file => { file with compressor := some (file.compressor.getD m) }) = s := by
  refine State.modFile_eq_self ?_
  have hc := h.compressor
  cases hfile : s.files f with
  | mk =>
    rw [hfile] at hc
    simp only at hc
    subst hc
    rfl

/-- Without a failing call and with room for the file, a compressed file that is only read becomes a raw one. -/
theorem doDecompress_packed (he : env.AllOk) (ha : env.Ample) (h : s.Packed Γ f i m content ds) :
    ∃ s', doDecompress Γ env s f = (s', true) ∧ s'.Unpacked f content ds := by
  have hflush := h.flushFileCache
  have hlt := h.length_lt
  have hfind : s.fs.find (s.files f).filename ≠ none := by
    rw [Backing.inoOf_eq_some.mp h.ino]
    exact Option.some_ne_none _
  have hspace : enoughSpace Γ env (s.files f).size = true := by
    unfold Env.Ample at ha
    rw [enoughSpace, h.size, asU64_of_nat (by omega), Bool.or_eq_true, decide_eq_true_iff]
    left
    omega
  unfold doDecompress
  rw [if_neg (by simp [he .statvfs, hfind]), if_neg (by simp [hspace])]
  simp only [he .open, he .readHeader, he .fstat, he .mkstemp, he .decompress, if_true, hflush.ino, hflush.parse,
    Bool.true_eq_false, if_false]
  generalize flushFileCache s f = s₀ at hflush
  rw [hflush.modFile_compressor]
  simp only [hflush.compressor, Option.getD_some, decide_true, State.assert_true, hflush.head]
  obtain ⟨hclosed, hfs⟩ := closeAll_closable Γ env ds hflush.closable (fun d hd => hd)
  have hbooks := books_closeAll Γ env s₀ f ds
  generalize closeAll Γ env s₀ f ds = s₁ at hclosed hfs hbooks ⊢
  have hhead : (s₁.files f).head = ds := (congrFun (congrArg Books.head hbooks) f).trans hflush.head
  have howner : ∀ d, (s₁.descs d).file = (s₀.descs d).file := congrFun (congrArg Books.owner hbooks)
  have hdata : (s₁.modFile f acknowledgeCancel).data i = s₀.data i := by
    rw [State.data_modFile, State.data, State.data, hfs]
  rw [hdata, hflush.decode]
  simp only [ne_eq, not_true_eq_false, if_false]
  refine doDecompressInstall_unpacked he ?_ ?_ _ ?_ _ _
  · have : (acknowledgeCancel (s₁.files f)).head = (s₁.files f).head := by
      unfold acknowledgeCancel
      split <;> rfl
    simpa [this] using hhead
  · intro d hd
    exact (howner d).trans (hflush.descs d hd).file
  · simp [State.data, Backing.inodes_alloc]

/-! ## A request -/

/-- What serving a request from the cache does: the bytes served are the first of those asked for. -/
structure State.Served (Γ : Config) (s s' : State) (f i : Nat) (m : Module) (content : Bytes) (ds : List Nat) (cacheThis : Bool)
    (size offset : Nat) (served : Bytes) (any : Bool) : Prop where
  packed : s'.Packed Γ f i m content ds
  pages : s'.CachesPages f content
  type : (s'.files f).type = .read
  descs : s'.descs = s.descs
  cacheSize : s'.decompCacheSize = s.decompCacheSize - (served.length : Int)
  bytes : served = Bytes.slice content offset served.length
  length : served.length = if cacheThis then pageSize * servedPages s f size offset else 0
  length_le : served.length ≤ size
  served_eq : any = false → served = []

theorem serveCache_packed (size : Nat) (h : s.Packed Γ f i m content ds) (hc : s.CachesPages f content) (htype : (s.files f).type = .read)
    {cacheThis : Bool} {offset : Nat} (halign : cacheThis = true → offset % pageSize = 0) :
    ∃ s' served any, serveCache s f cacheThis size offset = (s', served, any) ∧
      s.Served Γ s' f i m content ds cacheThis size offset served any := by
  have hkept : ∀ c : Bool, (c = true → servedPages s f size offset = 0) →
      s.Served Γ s f i m content ds c size offset [] false := by
    intro c hzero
    refine ⟨h, hc, htype, rfl, by simp, by simp [Bytes.slice], ?_, Nat.zero_le _, fun _ => rfl⟩
    cases c with
    | false => rfl
    | true => simp [hzero rfl]
  cases cacheThis with
  | false =>
    refine ⟨s, [], false, ?_, hkept false (fun hn => (by cases hn))⟩
    unfold serveCache
    rw [if_neg (fun hn => by cases hn.1)]
  | true =>
    have hoff : pageSize * (offset / pageSize) = offset := Nat.mul_div_cancel' (Nat.dvd_of_mod_eq_zero (halign rfl))
    obtain ⟨hbytes, hlen, hle, hwhole⟩ := servePages_whole (size / pageSize) hc.wholePages (offset / pageSize)
    have hserve : serveCache s f true size offset =
        if (((s.files f).cache.getD []).getD (offset / pageSize) none).isNone then (s, [], false)
        else
          (({ s with decompCacheSize := s.decompCacheSize - pageSize * (servedPages s f size offset : Int) } : State).modFile f
            (fun file => { file with
              cache := some (servePages ((s.files f).cache.getD []) (size / pageSize) (offset / pageSize)).2.1 }),
            (servePages ((s.files f).cache.getD []) (size / pageSize) (offset / pageSize)).1, true) := by
      unfold serveCache
      rw [if_pos ⟨rfl, htype⟩]
      rfl
    rw [hoff, ← hlen] at hbytes
    have hsize : pageSize * servedPages s f size offset ≤ size :=
      Nat.le_trans (Nat.mul_le_mul_left _ hle) (Nat.mul_div_le size pageSize)
    rw [hserve]
    by_cases hnone : (((s.files f).cache.getD []).getD (offset / pageSize) none).isNone
    · rw [if_pos hnone]
      exact ⟨s, [], false, rfl, hkept true (fun _ => servePages_of_none _ (Option.isNone_iff_eq_none.mp hnone))⟩
    · rw [if_neg hnone]
      refine ⟨_, _, true, rfl, ?_, ?_, ?_, rfl, ?_, hbytes, hlen, ?_, fun hn => (by cases hn)⟩
      · have h' : ({ s with decompCacheSize := s.decompCacheSize - pageSize * (servedPages s f size offset : Int) } : State).Packed Γ
            f i m content ds := h.of_same rfl rfl rfl rfl h.type rfl h.descs
        exact h'.modFile rfl rfl rfl h.type rfl
      · exact State.CachesPages.of_wholePages rfl hwhole
      · simpa using htype
      · rw [hlen]
        simp [servedPages]
      · rw [hlen]
        exact hsize

/-- How a read goes on after what the cache has of it. -/
theorem directDecompress_served (env : Env) {size offset : Nat} {fd : Fd} {cacheThis any : Bool} {served : Bytes} {s₁ s₂ : State}
    (hfd : (s.descs d).fd = some fd)
    (hcache : cacheThis = (Γ.cacheDecompressedData && decide (offset % pageSize = 0) && decide (size % pageSize = 0)))
    (hs₁ : s₁ = s.modFile f (fun file => { file with type := if file.type = .unset then .read else file.type }))
    (hserve : serveCache s₁ f cacheThis size offset = (s₂, served, any)) :
    directDecompress Γ env s m f d size offset =
      if any ∧ size - served.length = 0 then (s₂, .done served.length served)
      else if readFallback Γ (s₂.files f) s₂.decompCacheSize cacheThis (s₂.descs d).offset (offset + served.length) then
        match doDecompress Γ env s₂ f with
        | (s, false) => (s, .done (-1) [])
        | (s, true) =>
          let s := s.modFile f (fun file => { file with size := -1, skipped := 0 })
          (s, .pread (s.descs d).fd (size - served.length) (offset + served.length) served)
      else
        match decompressOpen Γ env s₂ m d (offset + served.length) with
        | (s, false) => (s, .done (-1) [])
        | (s, true) => decompressSkip Γ env s m f d (size - served.length) (offset + served.length) cacheThis served := by
  obtain ⟨r, hr⟩ : ∃ r, directDecompress Γ env s m f d size offset = r := ⟨_, rfl⟩
  rw [hr]
  unfold directDecompress at hr
  rw [hfd] at hr
  simp only [Option.isSome_some, State.assert_true, ← hcache, ← hs₁, hserve] at hr
  exact hr.symm

/-- A request gets the bytes asked for, whether they come from the cache, from the decoder or from the file made raw. -/
theorem directDecompress_packed (he : env.AllOk) (ha : env.Ample) (h : s.Packed Γ f i m content ds)
    (hc : s.CachesPages f content) (hd : d ∈ ds) {size offset : Nat} (hskip : SkipsWholePages Γ s ⟨env, d, size, offset⟩) :
    (∃ s', directDecompress Γ env s m f d size offset =
        (s', .done (Bytes.slice content offset size).length (Bytes.slice content offset size)) ∧
      s'.Packed Γ f i m content ds ∧ s'.CachesPages f content) ∨
    (∃ s' fd size' offset' served, directDecompress Γ env s m f d size offset = (s', .pread (some fd) size' offset' served) ∧
      s'.Unpacked f content ds ∧ served ++ Bytes.slice (s'.data fd.ino) offset' size' = Bytes.slice content offset size) := by
  obtain ⟨pos, hfd, -⟩ := (h.descs d hd).fd
  obtain ⟨cacheThis, hcache⟩ : ∃ c : Bool, c = (Γ.cacheDecompressedData && decide (offset % pageSize = 0) &&
    decide (size % pageSize = 0)) := ⟨_, rfl⟩
  have hct : cacheThis = true → Γ.cacheDecompressedData = true ∧ offset % pageSize = 0 ∧ size % pageSize = 0 := by
    intro hct
    rw [hct] at hcache
    simpa [and_assoc] using hcache.symm
  obtain ⟨s₁, hs₁⟩ : ∃ s₁, s₁ = s.modFile f (fun file => { file with type := if file.type = .unset then .read else file.type }) :=
    ⟨_, rfl⟩
  have htype : (if (s.files f).type = .unset then Access.read else (s.files f).type) = .read := by
    have := h.type
    cases ht : (s.files f).type with
    | unset => rfl
    | read => rfl
    | write => exact absurd ht this
  have h₁ : s₁.Packed Γ f i m content ds := by
    rw [hs₁]
    refine h.modFile rfl rfl rfl ?_ rfl
    change (if (s.files f).type = .unset then Access.read else (s.files f).type) ≠ .write
    rw [htype]
    exact Access.noConfusion
  have hc₁ : s₁.CachesPages f content := hc.of_cache (by rw [hs₁]; simp)
  have htype₁ : (s₁.files f).type = .read := by
    rw [hs₁]
    simpa using htype
  have hdescs₁ : s₁.descs = s.descs := by rw [hs₁]; rfl
  have hpages₁ : servedPages s₁ f size offset = servedPages s f size offset := by
    unfold servedPages
    rw [hs₁]
    simp
  obtain ⟨s₂, served, any, hserve, hs₂⟩ := serveCache_packed size h₁ hc₁ htype₁ (fun hct' => (hct hct').2.1)
  have hstart := directDecompress_served env (m := m) hfd hcache hs₁ hserve
  have hlen : served.length = if cacheThis then pageSize * servedPages s f size offset else 0 := by
    rw [hs₂.length, hpages₁]
  have hparts : served ++ Bytes.slice content (offset + served.length) (size - served.length) = Bytes.slice content offset size := by
    have hsum : served.length + (size - served.length) = size := by
      have := hs₂.length_le
      omega
    calc served ++ Bytes.slice content (offset + served.length) (size - served.length)
        = Bytes.slice content offset served.length ++ Bytes.slice content (offset + served.length) (size - served.length) :=
          congrArg (· ++ _) hs₂.bytes
      _ = Bytes.slice content offset size := by rw [Bytes.slice_append_slice, hsum]
  have hfile : (s.descs d).file = f := (h.descs d hd).file
  rw [hstart]
  split
  · rename_i hall
    left
    refine ⟨s₂, ?_, hs₂.packed, hs₂.pages⟩
    rw [hall.2] at hparts
    rw [← hparts]
    simp [Bytes.slice]
  · rename_i hrest
    split
    · -- the whole file is decompressed first
      right
      obtain ⟨s₃, hdec, hraw⟩ := doDecompress_packed he ha hs₂.packed
      obtain ⟨hfile₃, j, p, hfd₃, hdata⟩ := hraw.descs d hd
      refine ⟨s₃.modFile f (fun file => { file with size := -1, skipped := 0 }), ⟨j, p⟩, size - served.length,
        offset + served.length, served, ?_, ⟨?_, ?_⟩, ?_⟩
      · rw [hdec, ← hfd₃]
        rfl
      · simpa using hraw.compressor
      · intro d' hd'
        simpa using hraw.descs d' hd'
      · simpa [hdata] using hparts
    · left
      obtain ⟨s₃, hopen, hp₃, hfiles₃, hsize₃, hopened, hoff₃⟩ := decompressOpen_packed he hs₂.packed hd (offset + served.length)
      rw [hopen]
      have hc₃ : s₃.CachesPages f content := hs₂.pages.of_cache (by rw [hfiles₃])
      have hstart₃ : (s₃.descs d).offset = skipStart (s.descs d) (offset + served.length) := by
        rw [hoff₃, hs₂.descs, hdescs₁]
      have hreach : (s₃.descs d).offset ≤ offset + served.length := by
        rw [hstart₃, skipStart]
        split
        · exact Nat.zero_le _
        · omega
      have hinside : served = [] ∨ offset + served.length ≤ content.length := by
        by_cases hnil : served = []
        · exact Or.inl hnil
        · right
          have hpos := List.length_pos_iff.mpr hnil
          have hslice := congrArg List.length hs₂.bytes
          rw [Bytes.length_slice] at hslice
          omega
      have hkeep : cacheThis = true → (s₃.descs d).offset < offset + served.length →
          ((offset + served.length - (s₃.descs d).offset : Nat) : Int) ≤ Γ.maxDecompCacheSize - s₃.decompCacheSize →
          pageSize ∣ (s₃.descs d).offset ∧ pageSize ∣ offset + served.length ∧
            (offset + served.length ≤ content.length ∨ pageSize ∣ content.length) ∧ (content.length : Int) + pageSize < 2 ^ 43 := by
        intro hct' hlt hfit
        obtain ⟨hcaching, hoff, hsz⟩ := hct hct'
        rw [hct', if_pos rfl] at hlen
        have htarget : offset + served.length = readTarget s f size offset := by rw [readTarget, hlen]
        rw [hstart₃, htarget] at hlt hfit
        rw [hstart₃, htarget]
        have hkeeps : KeepsSkipped Γ s ⟨env, d, size, offset⟩ := by
          unfold KeepsSkipped
          simp only [hfile, ← hlen]
          refine ⟨hcaching, hoff, hsz, by rw [h.compressor]; exact Option.some_ne_none m, ?_, hlt, ?_⟩
          · intro hall
            by_contra hne
            refine hrest ⟨?_, by omega⟩
            by_contra hany
            rw [hs₂.served_eq (Bool.not_eq_true _ ▸ hany)] at hne
            exact hne rfl
          · rw [hsize₃, hs₂.cacheSize, hs₁] at hfit
            rw [State.decompCacheSize_modFile] at hfit
            rw [Int.ofNat_sub (by omega)] at hfit
            exact hfit
        obtain ⟨hnow, hend, hsmall⟩ := hskip hkeeps
        simp only [hfile, h.size] at hnow hend hsmall
        refine ⟨hnow, ?_, ?_, hsmall⟩
        · rw [readTarget]
          exact Nat.dvd_add (Nat.dvd_of_mod_eq_zero hoff) (Nat.dvd_mul_right _ _)
        · rcases hend with hend | hend
          · exact Or.inl (by omega)
          · exact Or.inr (Int.natCast_dvd_natCast.mp hend)
      obtain ⟨s', hs', hrest'⟩ := decompressSkip_packed he hp₃ hc₃ hd hopened hreach hinside hkeep
      rw [hparts] at hs'
      exact ⟨s', hs', hrest'⟩

/-- The file of an entry can be read: it is compressed, and the cache has whole pages of it, or it is raw. -/
def State.Readable (Γ : Config) (s : State) (f i : Nat) (m : Module) (content : Bytes) (ds : List Nat) : Prop :=
  s.Packed Γ f i m content ds ∧ s.CachesPages f content ∨ s.Unpacked f content ds

/-- A request on a raw file. -/
theorem fusecompressRead_unpacked (he : env.AllOk) (h : s.Unpacked f content ds) (hd : d ∈ ds) (size offset : Nat) :
    fusecompressRead Γ env s d size offset = (s, ((Bytes.slice content offset size).length : Int), Bytes.slice content offset size) := by
  obtain ⟨hfile, j, pos, hfd, hdata⟩ := h.descs d hd
  have hread : readLocked Γ env s f d size offset = (s, .pread (some ⟨j, pos⟩) size offset []) := by
    rw [readLocked, h.compressor, hfd]
  unfold fusecompressRead
  rw [hfile]
  simp only [hread, preadFd, he .pread, if_true, Option.map_some, hdata, List.nil_append]

/-- A request returns the bytes asked for and leaves the file readable, provided that it skips whole pages when it keeps them. -/
theorem fusecompressRead_readable (he : env.AllOk) (ha : env.Ample) (h : s.Readable Γ f i m content ds) (hd : d ∈ ds)
    (size offset : Nat) (hskip : SkipsWholePages Γ s ⟨env, d, size, offset⟩) :
    (fusecompressRead Γ env s d size offset).2 =
        (((Bytes.slice content offset size).length : Int), Bytes.slice content offset size) ∧
      (fusecompressRead Γ env s d size offset).1.Readable Γ f i m content ds := by
  rcases h with ⟨hp, hc⟩ | hraw
  · have hfile := (hp.descs d hd).file
    have hread : readLocked Γ env s f d size offset = directDecompress Γ env s m f d size offset := by
      rw [readLocked, hp.compressor]
    rcases directDecompress_packed he ha hp hc hd hskip with ⟨s', hs', hrest⟩ | ⟨s', fd, size', offset', served, hs', hraw, hbytes⟩
    · have hstep : fusecompressRead Γ env s d size offset =
          (s', ((Bytes.slice content offset size).length : Int), Bytes.slice content offset size) := by
        unfold fusecompressRead
        rw [hfile]
        simp only [hread, hs']
        rw [if_neg (by omega)]
      rw [hstep]
      exact ⟨rfl, Or.inl hrest⟩
    · have hstep : fusecompressRead Γ env s d size offset =
          (s', ((Bytes.slice content offset size).length : Int), Bytes.slice content offset size) := by
        unfold fusecompressRead
        rw [hfile]
        simp only [hread, hs', preadFd, he .pread, if_true, Option.map_some, hbytes]
      rw [hstep]
      exact ⟨rfl, Or.inr hraw⟩
  · rw [fusecompressRead_unpacked he hraw hd]
    exact ⟨rfl, Or.inr hraw⟩

/-! ## Opening a file -/

/-- Opening for reading, without a failing call. -/
theorem openLocked_eq (he : env.AllOk) {full : Filename} (hino : s.fs.inoOf full = some i) :
    openLocked Γ env s f full false =
      if headerSize ≤ (s.data i).length then
        openDescriptor ((noteLinks s f i).modFile f (fun file =>
          { file with compressor := (fileReadHeader Γ (s.data i) (s.files f).compressor (s.data i).length).1 }))
          f i headerSize false (fileReadHeader Γ (s.data i) (s.files f).compressor (s.data i).length).2
      else
        openDescriptor ((noteLinks s f i).modFile f (fun file => { file with compressor := none })) f i 0 false
          (s.data i).length := by
  unfold openLocked openUndedup
  rw [if_neg (fun hn => by cases hn.2)]
  unfold openFile
  simp only [he .open, he .fstat, he .readHeader, hino, if_true, Bool.true_eq_false, if_false]
  have hcomp : ((noteLinks s f i).files f).compressor = (s.files f).compressor := by simp [noteLinks]
  rw [hcomp]
  rfl

/-- A compressed file that is opened by the first reader can be read. -/
theorem openLocked_packed (he : env.AllOk) (hino : s.fs.inoOf (s.files f).filename = some i)
    (hparse : parse Γ (s.data i) = some (m, (content.length : Int)))
    (hdecode : (Γ.codec m).decode ((s.data i).drop headerSize) = some content) (hlt : content.length < 2 ^ 63)
    (htype : (s.files f).type ≠ .write) (hhead : (s.files f).head = []) :
    ∃ s', openLocked Γ env s f (s.files f).filename false = (s', .opened s.nextDesc) ∧
      s'.Packed Γ f i m content [s.nextDesc] ∧ (s'.files f).cache = (s.files f).cache := by
  have hlen : headerSize ≤ (s.data i).length := by
    by_contra hn
    rw [parse, if_pos (by omega)] at hparse
    cases hparse
  rw [openLocked_eq he hino, if_pos hlen, fileReadHeader_of_parse hparse]
  refine ⟨_, rfl, ⟨?_, hparse, hdecode, hlt, ?_, ?_, ?_, ?_, ?_⟩, ?_⟩
  · simpa [noteLinks] using hino
  · simp [noteLinks]
  · simp [noteLinks]
  · simpa [noteLinks] using htype
  · simp [noteLinks, hhead]
  · intro d hd
    obtain rfl := List.mem_singleton.mp hd
    refine ⟨?_, ⟨headerSize, ?_, fun _ => rfl⟩, Or.inl ⟨?_, ?_⟩, ?_⟩
    all_goals simp [noteLinks]
  · simp [noteLinks]

/-- A file without a header that is opened by the first reader can be read. -/
theorem openLocked_unpacked (he : env.AllOk) (hino : s.fs.inoOf (s.files f).filename = some i)
    (hparse : parse Γ (s.data i) = none) :
    ∃ s', openLocked Γ env s f (s.files f).filename false = (s', .opened s.nextDesc) ∧
      s'.Unpacked f (s.data i) [s.nextDesc] ∧ (s'.files f).size = ((s.data i).length : Int) := by
  rw [openLocked_eq he hino, fileReadHeader_of_parse_none hparse]
  split
  · rename_i hlen
    rw [if_neg (by omega)]
    refine ⟨_, rfl, ⟨?_, ?_⟩, ?_⟩
    · simp [noteLinks]
    · intro d hd
      obtain rfl := List.mem_singleton.mp hd
      refine ⟨?_, i, headerSize, ?_, ?_⟩
      all_goals simp [noteLinks, State.data]
    · simp [noteLinks]
  · refine ⟨_, rfl, ⟨?_, ?_⟩, ?_⟩
    · simp [noteLinks]
    · intro d hd
      obtain rfl := List.mem_singleton.mp hd
      refine ⟨?_, i, 0, ?_, ?_⟩
      all_goals simp [noteLinks, State.data]
    · simp [noteLinks]

end FuseCompress
