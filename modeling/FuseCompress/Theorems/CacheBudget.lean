import FuseCompress.CacheBudget
import FuseCompress.Theorems.Caching
import FuseCompress.Theorems.FailingReads
import Mathlib.Algebra.BigOperators.Group.List.Basic
import Mathlib.Data.List.GetD

/-!
# The counter of the cache

`decomp_cache_size` is the size of the pages in the caches of the database and stays within the limit, in every run whose reads lose
none of the pages they allocate.
-/

namespace FuseCompress

/-- The number of pages in a cache. -/
def pageCount (pages : List (Option Bytes)) : Nat := pages.countP Option.isSome

theorem pageCount_set_none {pages : List (Option Bytes)} {k : Nat} {page : Bytes} (h : pages.getD k none = some page) :
    pageCount (pages.set k none) + 1 = pageCount pages := by
  rw [List.getD_eq_getElem?_getD] at h
  cases hk : pages[k]? with
  | none =>
    rw [hk] at h
    cases h
  | some page' =>
    rw [hk] at h
    obtain ⟨hlt, hget⟩ := List.getElem?_eq_some_iff.mp hk
    unfold pageCount
    rw [List.countP_set hlt, hget]
    cases h
    have hpos : 0 < pages.countP Option.isSome := List.countP_pos_iff.mpr ⟨_, List.getElem_mem hlt, by rw [hget]; rfl⟩
    simp
    omega

theorem pageCount_set_some {pages : List (Option Bytes)} {k : Nat} (page : Bytes) (hlt : k < pages.length)
    (h : pages.getD k none = none) : pageCount (pages.set k (some page)) = pageCount pages + 1 := by
  rw [List.getD_eq_getElem?_getD, List.getElem?_eq_getElem hlt] at h
  have hget : pages[k] = none := h
  unfold pageCount
  rw [List.countP_set hlt, hget]
  simp

/-- Serving takes the pages that it serves out of the cache. -/
theorem pageCount_servePages (n : Nat) : ∀ (pages : List (Option Bytes)) (k : Nat),
    pageCount (servePages pages n k).2.1 + (servePages pages n k).2.2 = pageCount pages := by
  induction n with
  | zero => exact fun _ _ => rfl
  | succ n ih =>
    intro pages k
    rw [servePages]
    cases hpage : pages.getD k none with
    | none => rfl
    | some page =>
      have hrest := ih (pages.set k none) (k + 1)
      have hone := pageCount_set_none hpage
      dsimp only
      omega

namespace ReadState

variable {D : Decoder} {Γ : Config} {s s' : ReadState D}

/-- What is counted beyond the pages in the cache of the file. -/
def surplus (s : ReadState D) : Int := s.decompCacheSize - pageSize * (pageCount (s.file.cache.getD []) : Int)

theorem surplus_flushFileCache (s : ReadState D) : s.flushFileCache.surplus = s.surplus := by
  unfold flushFileCache surplus
  cases hcache : s.file.cache with
  | none => simp [hcache]
  | some pages => simp [pageCount, List.countP_eq_length_filter]

theorem surplus_serveCache {cacheThis any : Bool} {size offset : Nat} {served : Bytes}
    (h : s.serveCache cacheThis size offset = (s', served, any)) : s'.surplus = s.surplus := by
  unfold serveCache at h
  split at h
  · dsimp only at h
    split at h
    · cases h
      rfl
    · cases h
      have hcount := pageCount_servePages (size / pageSize) (s.file.cache.getD []) (offset / pageSize)
      unfold surplus
      dsimp only [Option.getD_some]
      rw [← hcount]
      push_cast
      ring
  · cases h
    rfl

theorem surplus_allocCache (s : ReadState D) (cacheThis : Bool) : (s.allocCache cacheThis).surplus = s.surplus := by
  unfold allocCache surplus
  split
  · rename_i halloc
    rw [halloc.2]
    simp [pageCount, List.countP_replicate]
  · rfl

/-- `compressor->read` changes the decoder only. -/
theorem codecRead_same {φ : D.Fault} {n : Nat} {r : Option Bytes} (h : s.codecRead φ n = (s', r)) :
    s'.file = s.file ∧ s'.offset = s.offset ∧ s'.decompCacheSize = s.decompCacheSize := by
  unfold codecRead at h
  split at h <;> cases h <;> exact ⟨rfl, rfl, rfl⟩

/-- The counter is a number of whole pages and within the limit. -/
def Within (Γ : Config) (s : ReadState D) : Prop :=
  (pageSize : Int) ∣ s.decompCacheSize ∧ s.decompCacheSize ≤ Γ.maxDecompCacheSize

/-- A page is allocated only where the limit leaves room for it. -/
theorem Within.countPage (hmax : (pageSize : Int) ∣ Γ.maxDecompCacheSize) (h : s.Within Γ) (keeps : Bool) :
    (s.countPage (s.keepPage Γ keeps)).Within Γ := by
  obtain ⟨hdvd, hle⟩ := h
  cases hkeep : s.keepPage Γ keeps with
  | false => exact ⟨by simpa [ReadState.countPage] using hdvd, by simpa [ReadState.countPage] using hle⟩
  | true =>
    have hlt : s.decompCacheSize < Γ.maxDecompCacheSize := by
      unfold keepPage at hkeep
      simp only [Bool.and_eq_true, decide_eq_true_eq] at hkeep
      exact hkeep.2
    unfold Within ReadState.countPage pageSize at *
    dsimp only
    rw [if_pos rfl]
    omega

theorem surplus_countPage (s : ReadState D) (keep : Bool) :
    (s.countPage keep).surplus = s.surplus + if keep then pageSize else 0 := by
  unfold surplus countPage
  dsimp only
  ring

/-- A page that is stored is in the cache from then on. One with a number behind the array is lost. -/
theorem surplus_skipped (s : ReadState D) (keep : Bool) (buf : Bytes)
    (hnone : keep = true → (s.file.cache.getD []).getD (s.offset / pageSize) none = none) :
    (s.skipped keep buf).surplus =
      s.surplus - if keep = true ∧ s.offset / pageSize < (s.file.cache.getD []).length then (pageSize : Int) else 0 := by
  unfold surplus skipped
  dsimp only
  cases keep with
  | false => simp
  | true =>
    cases hcache : s.file.cache with
    | none => simp
    | some pages =>
      rw [hcache] at hnone
      simp only [if_true, Option.map_some, Option.getD_some, true_and]
      split
      · rename_i hlt
        rw [pageCount_set_some buf hlt (hnone rfl)]
        push_cast
        ring
      · rename_i hge
        rw [List.set_eq_of_length_le (by omega)]
        ring

theorem page_of_keepPage {keeps : Bool} (h : s.keepPage Γ keeps = true) :
    (s.file.cache.getD []).getD (s.offset / pageSize) none = none := by
  unfold keepPage at h
  simp only [Bool.and_eq_true, Option.isNone_iff_eq_none] at h
  exact h.1.2

/-- The skipping never counts less than it stores, and loses nothing if and only if every page it allocates is stored. -/
theorem skipLoop_surplus (hmax : (pageSize : Int) ∣ Γ.maxDecompCacheSize) (faults : Nat → D.Fault) (keeps : Bool) (n : Nat) :
    ∀ {toread : Nat} {s s' : ReadState D} {res : Option Int}, s.Within Γ → skipLoop Γ faults keeps n toread s = (s', res) →
      s'.Within Γ ∧ ∃ lost : Nat, s'.surplus = s.surplus + pageSize * (lost : Int) ∧
        (lost = 0 ↔ skipStores Γ faults keeps n toread s = true) := by
  induction n with
  | zero =>
    intro toread s s' res hwithin h
    cases h
    exact ⟨hwithin, 0, by simp, iff_of_true rfl rfl⟩
  | succ n ih =>
    intro toread s s' res hwithin h
    rw [skipLoop] at h
    rw [skipStores]
    split at h
    · rename_i hto
      cases h
      exact ⟨hwithin, 0, by simp, iff_of_true rfl (by rw [if_pos hto])⟩
    rename_i hto
    rw [if_neg hto]
    dsimp only at h ⊢
    have hcounted := hwithin.countPage hmax keeps
    have hsurplus := s.surplus_countPage (s.keepPage Γ keeps)
    cases hread : (s.countPage (s.keepPage Γ keeps)).codecRead (faults n) (min toread pageSize) with
    | mk s₁ r =>
      obtain ⟨hfile, hoffset, hsize⟩ := codecRead_same hread
      have hfile : s₁.file = s.file := hfile
      have hoffset : s₁.offset = s.offset := hoffset
      have hwithin₁ : s₁.Within Γ := by
        unfold Within at hcounted ⊢
        rwa [hsize]
      have hsurplus₁ : s₁.surplus = s.surplus + pageSize * ((if s.keepPage Γ keeps then 1 else 0 : Nat) : Int) := by
        have hsame : s₁.surplus = (s.countPage (s.keepPage Γ keeps)).surplus := by
          unfold surplus
          rw [hsize, hfile]
          rfl
        rw [hsame, hsurplus]
        cases s.keepPage Γ keeps <;> simp
      have hstop : s₁.Within Γ ∧ ∃ lost : Nat, s₁.surplus = s.surplus + pageSize * (lost : Int) ∧
          (lost = 0 ↔ (!s.keepPage Γ keeps) = true) := by
        refine ⟨hwithin₁, _, hsurplus₁, ?_⟩
        cases s.keepPage Γ keeps <;> simp
      rw [hread] at h
      cases r with
      | none =>
        cases h
        exact hstop
      | some buf =>
        dsimp only at h ⊢
        split at h
        · rename_i hshort
          cases h
          rw [if_pos hshort]
          exact hstop
        rename_i hlong
        rw [if_neg hlong]
        split at h
        · rename_i hempty
          cases h
          rw [if_pos hempty]
          exact hstop
        rename_i hsome
        rw [if_neg hsome]
        have hnext : (s₁.skipped (s.keepPage Γ keeps) buf).Within Γ := hwithin₁
        obtain ⟨hwithin', lost, heq, hiff⟩ := ih hnext h
        have hone := s₁.surplus_skipped (s.keepPage Γ keeps) buf
          (fun hkeep => by rw [hfile, hoffset]; exact page_of_keepPage hkeep)
        rw [hfile, hoffset, hsurplus₁] at hone
        rw [hone] at heq
        refine ⟨hwithin', lost + if s.keepPage Γ keeps = true ∧ ¬s.offset / pageSize < (s.file.cache.getD []).length then 1 else 0,
          ?_, ?_⟩
        · rw [heq]
          cases s.keepPage Γ keeps with
          | false => simp
          | true =>
            by_cases hfits : s.offset / pageSize < (s.file.cache.getD []).length <;> simp [hfits]
            ring
        · rw [Bool.and_eq_true, ← hiff]
          cases s.keepPage Γ keeps with
          | false => simp
          | true =>
            by_cases hfits : s.offset / pageSize < (s.file.cache.getD []).length <;> simp [hfits]

/-- A part of a read counts no less than it stores, and loses nothing if and only if `stores`. -/
structure Counts (Γ : Config) (s s' : ReadState D) (stores : Bool) : Prop where
  within : s.Within Γ → s'.Within Γ
  lost : s.Within Γ → ∃ lost : Nat, s'.surplus = s.surplus + pageSize * (lost : Int) ∧ (lost = 0 ↔ stores = true)

/-- A part that does not touch the counter beyond what it does to the cache. -/
theorem Counts.of_surplus (hwithin : s.Within Γ → s'.Within Γ) (h : s'.surplus = s.surplus) : s.Counts Γ s' true :=
  ⟨hwithin, fun _ => ⟨0, by simp [h], iff_of_true rfl rfl⟩⟩

theorem Counts.trans {s'' : ReadState D} {stores : Bool} (h : s.Counts Γ s' true) (h' : s'.Counts Γ s'' stores) :
    s.Counts Γ s'' stores := by
  refine ⟨fun hw => h'.within (h.within hw), fun hw => ?_⟩
  obtain ⟨lost, heq, hiff⟩ := h.lost hw
  obtain ⟨lost', heq', hiff'⟩ := h'.lost (h.within hw)
  rw [hiff.mpr rfl] at heq
  exact ⟨lost', by rw [heq', heq]; simp, hiff'⟩

theorem Counts.trans_surplus {s'' : ReadState D} {stores : Bool} (h : s.Counts Γ s' stores) (hwithin : s'.Within Γ → s''.Within Γ)
    (heq : s''.surplus = s'.surplus) : s.Counts Γ s'' stores :=
  ⟨fun hw => hwithin (h.within hw), fun hw => by rw [heq]; exact h.lost hw⟩

theorem within_of_cacheSize (h : s'.decompCacheSize = s.decompCacheSize) : s.Within Γ → s'.Within Γ := by
  unfold Within
  rw [h]
  exact id

theorem surplus_of_same (hfile : s'.file.cache = s.file.cache) (hsize : s'.decompCacheSize = s.decompCacheSize) :
    s'.surplus = s.surplus := by
  unfold surplus
  rw [hfile, hsize]

theorem decompressRead_same (s : ReadState D) (φ : D.Fault) (size : Nat) (served : Bytes) :
    (s.decompressRead φ size served).1.file = s.file ∧
      (s.decompressRead φ size served).1.decompCacheSize = s.decompCacheSize := by
  unfold decompressRead
  dsimp only
  cases hread : s.codecRead φ (cutSize s.file s.offset size) with
  | mk s₁ r =>
    obtain ⟨hfile, -, hsize⟩ := codecRead_same hread
    cases r with
    | none => exact ⟨hfile, hsize⟩
    | some buf =>
      dsimp only
      split <;> exact ⟨hfile, hsize⟩

theorem decompressSkip_counts (s : ReadState D) (hmax : (pageSize : Int) ∣ Γ.maxDecompCacheSize) (c : ReadCall D) (size offset : Nat) (cacheThis : Bool)
    (served : Bytes) :
    s.Counts Γ (s.decompressSkip Γ c size offset cacheThis served).1 (s.decompressSkipStores Γ c offset cacheThis) := by
  unfold decompressSkip decompressSkipStores
  split
  · dsimp only
    generalize s.keepsSkipped Γ offset cacheThis = keeps
    cases hfails : allocFails s.file keeps with
    | true => exact .of_surplus id rfl
    | false =>
      rw [if_neg Bool.false_ne_true, Bool.false_or]
      have halloc : s.Counts Γ (s.allocCache keeps) true := by
        refine .of_surplus (within_of_cacheSize ?_) (s.surplus_allocCache keeps)
        unfold allocCache
        split <;> rfl
      refine halloc.trans ?_
      cases hloop : skipLoop Γ c.skipFaults keeps (offset - s.offset) (offset - s.offset) (s.allocCache keeps) with
      | mk s₁ res =>
        have hcounts : (s.allocCache keeps).Counts Γ s₁
            (skipStores Γ c.skipFaults keeps (offset - s.offset) (offset - s.offset) (s.allocCache keeps)) :=
          ⟨fun hw => (skipLoop_surplus hmax c.skipFaults keeps _ hw hloop).1,
            fun hw => (skipLoop_surplus hmax c.skipFaults keeps _ hw hloop).2⟩
        cases res with
        | some res => exact hcounts
        | none =>
          obtain ⟨hfile, hsize⟩ := s₁.decompressRead_same c.fault size served
          exact hcounts.trans_surplus (within_of_cacheSize hsize) (surplus_of_same (congrArg FileT.cache hfile) hsize)
  · obtain ⟨hfile, hsize⟩ := s.decompressRead_same c.fault size served
    exact .of_surplus (within_of_cacheSize hsize) (surplus_of_same (congrArg FileT.cache hfile) hsize)

/-- Giving pages back leaves the counter within the limit. -/
theorem Within.lower (h : s.Within Γ) (k : Nat) (hsize : s'.decompCacheSize = s.decompCacheSize - pageSize * (k : Int)) :
    s'.Within Γ := by
  obtain ⟨hdvd, hle⟩ := h
  unfold Within
  rw [hsize]
  unfold pageSize at *
  omega

theorem flushFileCache_counts (s : ReadState D) : s.Counts Γ s.flushFileCache true := by
  refine .of_surplus (fun hw => ?_) s.surplus_flushFileCache
  unfold flushFileCache
  split
  · exact hw
  · exact hw.lower _ rfl

theorem decompressFallback_counts (s : ReadState D) (c : ReadCall D) (size offset : Nat) (served : Bytes) :
    s.Counts Γ (s.decompressFallback c size offset served).1 true := by
  have hraw : ∀ s : ReadState D, (s.preadRaw c size offset served).1 = s := by
    intro s
    unfold preadRaw
    split <;> rfl
  unfold decompressFallback
  split
  · exact .of_surplus id rfl
  · exact s.flushFileCache_counts
  · exact s.flushFileCache_counts.trans_surplus id rfl
  · dsimp only
    rw [hraw]
    exact s.flushFileCache_counts.trans_surplus id rfl

theorem serveCache_counts {cacheThis any : Bool} {size offset : Nat} {served : Bytes}
    (h : s.serveCache cacheThis size offset = (s', served, any)) : s.Counts Γ s' true := by
  refine .of_surplus (fun hw => ?_) (surplus_serveCache h)
  unfold serveCache at h
  split at h
  · dsimp only at h
    split at h
    · cases h
      exact hw
    · cases h
      exact hw.lower _ rfl
  · cases h
    exact hw

theorem decompressOpen_same {c : ReadCall D} {offset : Nat} {ok : Bool} (h : s.decompressOpen c offset = (s', ok)) :
    s'.file = s.file ∧ s'.decompCacheSize = s.decompCacheSize := by
  unfold decompressOpen openStream at h
  split at h
  · split at h
    · cases h
      exact ⟨rfl, rfl⟩
    split at h
    · cases h
      exact ⟨rfl, rfl⟩
    split at h
    · cases h
      exact ⟨rfl, rfl⟩
    · split at h <;> cases h <;> exact ⟨rfl, rfl⟩
  · split at h
    · cases h
      exact ⟨rfl, rfl⟩
    · split at h <;> cases h <;> exact ⟨rfl, rfl⟩

/-- A request counts the pages that it puts into the cache, and those only if it loses none. -/
theorem directDecompress_counts (hmax : (pageSize : Int) ∣ Γ.maxDecompCacheSize) (s : ReadState D) (c : ReadCall D) :
    s.Counts Γ (s.directDecompress Γ c).1 (s.requestStores Γ c) := by
  unfold directDecompress requestStores
  dsimp only
  generalize (Γ.cacheDecompressedData && decide (c.offset % pageSize = 0) && decide (c.size % pageSize = 0)) = cacheThis
  have htyped : s.Counts Γ { s with file := { s.file with type := if s.file.type = Access.unset then .read else s.file.type } } true :=
    .of_surplus id rfl
  refine htyped.trans ?_
  generalize ({ s with file := { s.file with type := if s.file.type = Access.unset then .read else s.file.type } } :
      ReadState D) = s₀
  cases hserve : s₀.serveCache cacheThis c.size c.offset with
  | mk s₁ r =>
    obtain ⟨served, any⟩ := r
    refine (serveCache_counts hserve).trans ?_
    dsimp only
    split
    · exact .of_surplus id rfl
    split
    · exact s₁.decompressFallback_counts c _ _ served
    cases hopen : s₁.decompressOpen c (c.offset + served.length) with
    | mk s₂ ok =>
      obtain ⟨hfile, hsize⟩ := decompressOpen_same hopen
      have hopened : s₁.Counts Γ s₂ true :=
        .of_surplus (within_of_cacheSize hsize) (surplus_of_same (congrArg FileT.cache hfile) hsize)
      cases ok with
      | false => exact hopened
      | true => exact hopened.trans (s₂.decompressSkip_counts hmax c _ _ cacheThis served)

end ReadState

/-! ## The caches of the database -/

/-- The caches of all files, the database, and the counter. -/
structure Caches where
  pages : Nat → Option (List (Option Bytes))
  database : List Nat
  cacheSize : Int

/-- The caches of a process. -/
def State.caches (s : State) : Caches := ⟨fun f => (s.files f).cache, s.database, s.decompCacheSize⟩

/-- One of the caches and the counter change. -/
def Caches.put (k : Caches) (f : Nat) (pages : Option (List (Option Bytes))) (cacheSize : Int) : Caches :=
  { k with pages := Function.update k.pages f pages, cacheSize := cacheSize }

/-- The caches without that of one file. -/
def Caches.flush (k : Caches) (f : Nat) : Caches :=
  k.put f none (k.cacheSize - pageSize * (pageCount ((k.pages f).getD []) : Int))

section frames

variable {Γ : Config} {env : Env} {s : State} {f d : Nat}

/-- A change of an entry that keeps its cache. -/
theorem caches_modFile {g : FileT → FileT} (hg : (g (s.files f)).cache = (s.files f).cache) : (s.modFile f g).caches = s.caches := by
  unfold State.caches
  congr 1
  funext f'
  rw [State.files_modFile]
  split
  · rename_i heq
    rw [hg, heq]
  · rfl

@[simp] theorem caches_modDesc (g : Desc → Desc) : (s.modDesc d g).caches = s.caches := rfl

@[simp] theorem caches_withFs (k : Backing → Backing) : (s.withFs k).caches = s.caches := rfl

@[simp] theorem caches_abort : s.abort.caches = s.caches := rfl

@[simp] theorem caches_assert (c : Bool) : (s.assert Γ c).caches = s.caches := by
  unfold State.assert
  split <;> rfl

theorem caches_flushFileCache (s : State) (f : Nat) : (flushFileCache s f).caches = s.caches.flush f := by
  unfold flushFileCache Caches.flush Caches.put State.caches
  cases hcache : (s.files f).cache with
  | none =>
    have hsame : Function.update (fun f' => (s.files f').cache) f none = fun f' => (s.files f').cache := by
      rw [← hcache]
      exact Function.update_eq_self f _
    simp [hcache, hsame, pageCount]
  | some pages =>
    have hupdate : (fun f' => ((({ s with decompCacheSize := s.decompCacheSize - 4096 * ((pages.filter Option.isSome).length : Int) } :
        State).modFile f (fun file => { file with cache := none })).files f').cache) =
          Function.update (fun f' => (s.files f').cache) f none := by
      funext f'
      rw [State.files_modFile]
      by_cases heq : f' = f
      · rw [if_pos heq, heq, Function.update_self]
      · rw [if_neg heq, Function.update_of_ne heq]
    simp only [hupdate, hcache, Option.getD_some, pageCount, List.countP_eq_length_filter]
    rfl

@[simp] theorem caches_writeFd (fd : Fd) (buf : Bytes) : (writeFd s d fd buf).caches = s.caches := by
  unfold writeFd
  split <;> rfl

@[simp] theorem caches_codecClose (m : Module) : (codecClose Γ env s m d).caches = s.caches := by
  unfold codecClose
  split
  · split
    · exact caches_writeFd _ _
    · rfl
  · rfl

@[simp] theorem caches_closeHandle : (closeHandle Γ env s f d).caches = s.caches := by
  unfold closeHandle
  split
  · rfl
  · rfl
  · rw [caches_modDesc, caches_codecClose]

@[simp] theorem caches_restoreTimes (stbuf : Option Attr) : (restoreTimes env s f stbuf).caches = s.caches := by
  unfold restoreTimes
  split
  · split <;> rfl
  · rfl

@[simp] theorem caches_directClose : (directClose Γ env s f d).caches = s.caches := by
  unfold directClose
  generalize (if env.ok .closeFstat = true then _ else none) = stbuf
  dsimp only
  split
  · rw [caches_modFile rfl, caches_restoreTimes, caches_closeHandle]
  · rw [caches_restoreTimes, caches_closeHandle]

@[simp] theorem caches_fileClose : (fileClose Γ s d).caches = s.caches := by
  unfold fileClose
  rw [caches_modDesc, caches_assert]

@[simp] theorem caches_closeAll (ds : List Nat) : (closeAll Γ env s f ds).caches = s.caches := by
  induction ds generalizing s with
  | nil => rfl
  | cons d ds ih => rw [closeAll, ih, caches_fileClose, caches_directClose]

@[simp] theorem caches_reopenAll (temp : Nat) (ds : List Nat) : (reopenAll env s temp ds).caches = s.caches := by
  induction ds generalizing s with
  | nil => rfl
  | cons d ds ih => rw [reopenAll, ih, caches_modDesc]

@[simp] theorem caches_doDecompressInstall (temp : Nat) (st : Attr) (size : Nat) :
    (doDecompressInstall env s f temp st size).1.caches = s.caches := by
  unfold doDecompressInstall
  dsimp only
  split
  · rw [caches_withFs, caches_reopenAll]
  · split
    · rw [caches_withFs, caches_withFs, caches_reopenAll]
    · rw [caches_modFile rfl, caches_withFs, caches_withFs, caches_withFs, caches_reopenAll]

theorem cache_acknowledgeCancel (file : FileT) : (acknowledgeCancel file).cache = file.cache := by
  unfold acknowledgeCancel
  split <;> rfl

/-- `do_decompress` gives back the pages of its file, or does nothing. -/
theorem caches_doDecompress (Γ : Config) (env : Env) (s : State) (f : Nat) :
    (doDecompress Γ env s f).1.caches = s.caches ∨ (doDecompress Γ env s f).1.caches = s.caches.flush f := by
  unfold doDecompress
  split
  · exact Or.inl rfl
  split
  · exact Or.inl rfl
  right
  rw [← caches_flushFileCache]
  generalize flushFileCache s f = s₁
  dsimp only
  split
  · rfl
  split
  · rfl
  split
  · dsimp only
    exact caches_modFile rfl
  · generalize hs : closeAll Γ env _ f _ = s₂
    have hclosed : s₂.caches = s₁.caches := by rw [← hs, caches_closeAll, caches_assert, caches_modFile rfl]
    have hack : (s₂.modFile f acknowledgeCancel).caches = s₁.caches := by
      rw [caches_modFile (cache_acknowledgeCancel _), hclosed]
    split
    · exact hclosed
    split
    · exact hclosed
    split
    · exact hack
    · split
      · exact hack
      · rw [caches_doDecompressInstall, caches_withFs, hack]

@[simp] theorem caches_moveDescs (dst : Nat) (ds : List Nat) : (moveDescs s dst ds).caches = s.caches := by
  induction ds generalizing s with
  | nil => rfl
  | cons d ds ih => rw [moveDescs, ih, caches_modDesc]

/-- `direct_rename` gives back the pages of the file that is replaced. -/
theorem caches_directRename (Γ : Config) (s : State) (src dst : Nat) : (directRename Γ s src dst).caches = s.caches.flush dst := by
  unfold directRename
  dsimp only [directDelete]
  rw [caches_modFile rfl, caches_assert]
  unfold moveQueue
  rw [caches_modFile rfl, caches_modFile rfl]
  have hqueue : ∀ (s : State) (comp : List CompressT), ({ s with comp := comp } : State).caches = s.caches := fun _ _ => rfl
  rw [hqueue]
  unfold moveHead
  rw [caches_modFile rfl, caches_modFile rfl, caches_moveDescs]
  unfold inheritInfo
  rw [caches_modFile rfl, caches_flushFileCache]

theorem caches_directOpenDelete (s : State) (f : Nat) :
    (directOpenDelete (detach s f) f).caches = { s.caches.flush f with database := s.database.erase f } := by
  have hfreed : ∀ (s : State) (freed : Nat → Bool), ({ s with freed := freed } : State).caches = s.caches := fun _ _ => rfl
  unfold directOpenDelete
  rw [hfreed, caches_flushFileCache]
  rfl

end frames

/-! ## Runs -/

/-- The number of pages in the caches of the database. -/
def Caches.total (k : Caches) : Nat := (k.database.map (fun f => pageCount ((k.pages f).getD []))).sum

/-- The counter is the size of the pages in the caches of the database, and within the limit. -/
structure Caches.InBudget (k : Caches) (limit : Int) : Prop where
  size : k.cacheSize = pageSize * (k.total : Int)
  nonneg : 0 ≤ k.cacheSize
  le : k.cacheSize ≤ limit

/-- One cache of the database changes. -/
theorem total_put {k : Caches} (hnodup : k.database.Nodup) {f : Nat} (hf : f ∈ k.database) (pages : Option (List (Option Bytes)))
    (cacheSize : Int) :
    (k.put f pages cacheSize).total + pageCount ((k.pages f).getD []) =
      k.total + pageCount (pages.getD []) := by
  unfold Caches.total Caches.put
  dsimp only
  have hbefore := List.sum_map_erase (fun g => pageCount ((k.pages g).getD [])) hf
  have hafter := List.sum_map_erase (fun g => pageCount ((Function.update k.pages f pages g).getD [])) hf
  have hothers : (k.database.erase f).map (fun g => pageCount ((Function.update k.pages f pages g).getD [])) =
      (k.database.erase f).map (fun g => pageCount ((k.pages g).getD [])) := by
    refine List.map_congr_left (fun g hg => ?_)
    rw [Function.update_of_ne ((hnodup.mem_erase_iff.mp hg).1)]
  rw [hothers] at hafter
  simp only [Function.update_self] at hafter
  omega

/-- A file gives back its pages. -/
theorem Caches.InBudget.flush {k : Caches} {limit : Int} (h : k.InBudget limit) (hnodup : k.database.Nodup) {f : Nat}
    (hf : f ∈ k.database) : (k.flush f).InBudget limit := by
  have htotal : (k.flush f).total + pageCount ((k.pages f).getD []) = k.total := by
    simpa [Caches.flush, pageCount] using total_put hnodup hf none _
  have hsize : (k.flush f).cacheSize = k.cacheSize - pageSize * (pageCount ((k.pages f).getD []) : Int) := rfl
  obtain ⟨hcount, hnonneg, hle⟩ := h
  refine ⟨?_, ?_, ?_⟩ <;> unfold pageSize at * <;> omega

/-- A file leaves the database when it has given back its pages. -/
theorem Caches.InBudget.erase {k : Caches} {limit : Int} (h : (k.flush f).InBudget limit) (hf : f ∈ k.database) :
    ({ k.flush f with database := k.database.erase f } : Caches).InBudget limit := by
  have hsum := List.sum_map_erase (fun g => pageCount (((k.flush f).pages g).getD [])) hf
  have hnone : pageCount (((k.flush f).pages f).getD []) = 0 := by simp [Caches.flush, Caches.put, pageCount]
  have htotal : ({ k.flush f with database := k.database.erase f } : Caches).total = (k.flush f).total := by
    unfold Caches.total
    dsimp only
    have hsame : (k.flush f).database = k.database := rfl
    rw [hsame]
    omega
  exact ⟨by rw [htotal]; exact h.size, h.nonneg, h.le⟩

/-- A read counts the pages that it has put into the cache of its file, if it loses none. -/
theorem inBudget_afterRead {Γ : Config} {s : State} (hmax : (pageSize : Int) ∣ Γ.maxDecompCacheSize)
    (h : s.caches.InBudget Γ.maxDecompCacheSize) (hnodup : s.database.Nodup) {f : Nat} (hf : f ∈ s.database) {D : Decoder}
    (offset : Nat) (handle : Option D.State) (start : D.State) (fd : Bool) (raw : Bytes) (c : ReadCall D) :
    (s.afterRead f ((s.readState D f offset handle start fd raw).directDecompress Γ c).1).caches.InBudget Γ.maxDecompCacheSize ↔
      (s.readState D f offset handle start fd raw).requestStores Γ c = true := by
  have hcounts := (s.readState D f offset handle start fd raw).directDecompress_counts hmax c
  generalize ((s.readState D f offset handle start fd raw).directDecompress Γ c).1 = r at hcounts
  obtain ⟨hsize, hnonneg, hle⟩ := h
  have hwithin : (s.readState D f offset handle start fd raw).Within Γ := ⟨⟨_, hsize⟩, hle⟩
  obtain ⟨hdvd', hle'⟩ := hcounts.within hwithin
  obtain ⟨lost, hlost, hiff⟩ := hcounts.lost hwithin
  have htotal := total_put (k := s.caches) hnodup hf r.file.cache r.decompCacheSize
  have hcaches : (s.afterRead f r).caches = s.caches.put f r.file.cache r.decompCacheSize := by
    unfold State.afterRead State.caches Caches.put
    congr 1
    funext g
    dsimp only
    by_cases heq : g = f
    · rw [heq, Function.update_self, Function.update_self]
    · rw [Function.update_of_ne heq, Function.update_of_ne heq]
  have hsurplus : r.decompCacheSize - pageSize * (pageCount (r.file.cache.getD []) : Int) =
      s.caches.cacheSize - pageSize * (pageCount ((s.caches.pages f).getD []) : Int) + pageSize * (lost : Int) := hlost
  rw [hcaches, ← hiff]
  constructor
  · intro h'
    have hsize' : r.decompCacheSize = pageSize * ((s.caches.put f r.file.cache r.decompCacheSize).total : Int) := h'.size
    unfold pageSize at *
    omega
  · intro hnone
    subst hnone
    have hsame : (s.caches.put f r.file.cache r.decompCacheSize).cacheSize = r.decompCacheSize := rfl
    refine ⟨?_, ?_, hle'⟩ <;> rw [hsame] <;> unfold pageSize at * <;> omega

/-- A step keeps the budget if and only if it loses no page. -/
theorem inBudget_step {Γ : Config} {s t : State} (hmax : (pageSize : Int) ∣ Γ.maxDecompCacheSize)
    (h : s.caches.InBudget Γ.maxDecompCacheSize) (hnodup : s.database.Nodup) {a : CacheStep} (hstep : cacheStep Γ s a = some t) :
    t.database.Nodup ∧ (t.caches.InBudget Γ.maxDecompCacheSize ↔ a.stores Γ s = true) := by
  unfold cacheStep at hstep
  split at hstep
  · rename_i htargets
    cases hstep
    have hflush : ∀ f ∈ s.database, (s.caches.flush f).InBudget Γ.maxDecompCacheSize := fun f hf => h.flush hnodup hf
    have hkept : ∀ k : Caches, (a.apply Γ s).caches = k → k.database.Nodup → k.InBudget Γ.maxDecompCacheSize → a.stores Γ s = true →
        (a.apply Γ s).database.Nodup ∧ ((a.apply Γ s).caches.InBudget Γ.maxDecompCacheSize ↔ a.stores Γ s = true) := by
      rintro k rfl hnodup' hk hstores
      exact ⟨hnodup', iff_of_true hk hstores⟩
    cases a with
    | directDecompress f D offset handle start fd raw c =>
      exact ⟨hnodup, inBudget_afterRead hmax h hnodup (htargets f (List.mem_singleton_self f)) offset handle start fd raw c⟩
    | flushFileCache f =>
      exact hkept _ (caches_flushFileCache s f) hnodup (hflush f (htargets f (List.mem_singleton_self f))) rfl
    | directOpenDelete f =>
      have hf := htargets f (List.mem_singleton_self f)
      exact hkept _ (caches_directOpenDelete s f) (hnodup.erase f) ((hflush f hf).erase hf) rfl
    | directRename src dst =>
      exact hkept _ (caches_directRename Γ s src dst) hnodup (hflush dst (htargets dst (by simp [CacheStep.targets]))) rfl
    | doDecompress env f =>
      rcases caches_doDecompress Γ env s f with hcaches | hcaches
      · exact hkept _ hcaches hnodup h rfl
      · exact hkept _ hcaches hnodup (hflush f (htargets f (List.mem_singleton_self f))) rfl
  · cases hstep

/-- In every run whose reads lose none of the pages they allocate, the counter is the size of the pages in the caches of the database
and stays within the limit. -/
theorem cacheRuns_inBudget (Γ : Config) (hmax : (pageSize : Int) ∣ Γ.maxDecompCacheSize) {s t : State} {as : List CacheStep}
    (hnodup : s.database.Nodup) (h : s.caches.InBudget Γ.maxDecompCacheSize)
    (hrun : Run (cacheStep Γ) (fun s a => a.stores Γ s = true) s as t) : t.caches.InBudget Γ.maxDecompCacheSize := by
  have hinv : t.database.Nodup ∧ t.caches.InBudget Γ.maxDecompCacheSize := by
    refine Run.invariant (I := fun s => s.database.Nodup ∧ s.caches.InBudget Γ.maxDecompCacheSize) ?_ hrun ⟨hnodup, h⟩
    rintro s a t ⟨hnodup, h⟩ hstores hstep
    obtain ⟨hnodup', hiff⟩ := inBudget_step hmax h hnodup hstep
    exact ⟨hnodup', hiff.mpr hstores⟩
  exact hinv.2

/-- A process with one compressed file of so many bytes in its database. -/
def State.withFile (size : Nat) : State :=
  { State.mounted (.fileAt ['x'] []) with files := fun _ => (ReadState.onFile (.null []) .null size).file, database := [0] }

theorem inBudget_withFile (size : Nat) : (State.withFile size).caches.InBudget Config.caching.maxDecompCacheSize :=
  ⟨rfl, Int.le_refl 0, show (0 : Int) ≤ 100 * 1024 * 1024 by decide⟩

/-- The second page of a file is read. The first one is kept, and then given back. -/
theorem cacheRuns_inBudget_flushed :
    (flushFileCache ((State.withFile 8192).afterRead 0 (((State.withFile 8192).readState (.null (List.replicate 8192 7)) 0 0 none (0 : Nat) true
      []).directDecompress .caching (ReadState.request 4096 4096 false)).1) 0).caches.InBudget Config.caching.maxDecompCacheSize := by
  have hread : CacheStep.stores .caching (.withFile 8192) (.directDecompress 0 (.null (List.replicate 8192 7)) 0 none (0 : Nat) true []
      (ReadState.request 4096 4096 false)) = true := by decide +kernel
  have hfirst : cacheStep .caching (.withFile 8192) (.directDecompress 0 (.null (List.replicate 8192 7)) 0 none (0 : Nat) true []
      (ReadState.request 4096 4096 false)) = some _ := if_pos (fun f hf => hf)
  have hsecond : ∀ s : State, 0 ∈ s.database → cacheStep .caching s (.flushFileCache 0) = some (flushFileCache s 0) :=
    fun s hs => if_pos (fun f hf => List.mem_singleton.mp hf ▸ hs)
  exact cacheRuns_inBudget .caching (by decide) (by decide) (inBudget_withFile 8192)
    (.cons hread hfirst (.single rfl (hsecond _ (List.mem_singleton_self 0))))

/-- A read behind the end of an empty file. The page that is allocated to skip to it gets nothing and stays counted. -/
theorem pastEnd_not_inBudget :
    ¬∀ (Γ : Config) (s t : State) (as : List CacheStep), (pageSize : Int) ∣ Γ.maxDecompCacheSize → s.database.Nodup →
      s.caches.InBudget Γ.maxDecompCacheSize → Run (cacheStep Γ) (fun _ _ => True) s as t →
        t.caches.InBudget Γ.maxDecompCacheSize := by
  intro h
  have hread := h .caching (.withFile 0) _ [.directDecompress 0 (.null []) 0 none (0 : Nat) true [] (ReadState.request 4096 4096 false)]
    (by decide) (by decide) (inBudget_withFile 0) (.single trivial (if_pos (by decide)))
  exact absurd hread.size (by decide +kernel)

end FuseCompress
