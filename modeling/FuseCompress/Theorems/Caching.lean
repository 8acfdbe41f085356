import FuseCompress.Lemmas.Reading
import FuseCompress.Lib.Transition
import FuseCompress.Theorems.Tables

/-!
# Caching what is skipped

Requests to one compressed file that nobody changes return the same with the cache as without, provided that every request that
keeps pages of what it skips starts to skip at a page boundary and stays within the file. A request of an odd size leaves the
decoder between two pages; the next one that skips then keeps bytes under the number of the wrong page.
-/

namespace FuseCompress

/-- The same mount without the cache. -/
def Config.uncached (Γ : Config) : Config := { Γ with cacheDecompressedData := false }

/-- A request that meets no failing call and has room for the decompressed file, on one of the descriptors `ds`. -/
structure ReadRequest.Fine (r : ReadRequest) (ds : List Nat) : Prop where
  ok : r.env.AllOk
  ample : r.env.Ample
  desc : r.desc ∈ ds

variable {Γ : Config} {s t : State} {f i : Nat} {m : Module} {content : Bytes} {ds : List Nat}

/-- Without the cache no request keeps what it skips. -/
theorem skipsWholePages_uncached (s : State) (r : ReadRequest) : SkipsWholePages Γ.uncached s r := by
  intro hkeeps
  cases hkeeps.1

theorem State.Packed.uncached (h : s.Packed Γ f i m content ds) : s.Packed Γ.uncached f i m content ds :=
  ⟨h.ino, h.parse, h.decode, h.length_lt, h.compressor, h.size, h.type, h.head, h.descs⟩

/-- The requests of a run all get the bytes that they ask for. -/
theorem replies_eq {rs : List ReadRequest} (hrun : Run (readStep Γ) (fun s r => r.Fine ds ∧ SkipsWholePages Γ s r) s rs t)
    (h : s.Readable Γ f i m content ds) :
    replies Γ s rs =
      rs.map (fun r => (((Bytes.slice content r.offset r.size).length : Int), Bytes.slice content r.offset r.size)) := by
  induction hrun with
  | nil => rfl
  | cons ha hs _ ih =>
    obtain ⟨hbytes, hreadable⟩ := fusecompressRead_readable ha.1.ok ha.1.ample h ha.1.desc _ _ ha.2
    cases hs
    rw [replies, List.map_cons, hbytes, ih hreadable]

/-- The requests of a run can be made without the cache as well. -/
theorem run_uncached {rs : List ReadRequest} (hrun : Run (readStep Γ) (fun s r => r.Fine ds ∧ SkipsWholePages Γ s r) s rs t)
    (s' : State) :
    ∃ t', Run (readStep Γ.uncached) (fun s r => r.Fine ds ∧ SkipsWholePages Γ.uncached s r) s' rs t' := by
  induction hrun generalizing s' with
  | nil => exact ⟨s', Run.nil s'⟩
  | cons ha _ _ ih =>
    obtain ⟨t', ht'⟩ := ih (fusecompressRead Γ.uncached _ s' _ _ _).1
    exact ⟨t', Run.cons ⟨ha.1, skipsWholePages_uncached s' _⟩ rfl ht'⟩

/-- Every sequence of requests returns the same with the cache as without, as long as the requests that keep pages skip whole
pages. -/
theorem replies_cached (Γ : Config) {s t : State} {f i : Nat} {m : Module} {content : Bytes} {ds : List Nat}
    (h : s.Packed Γ f i m content ds) (hcache : (s.files f).cache = none) {rs : List ReadRequest}
    (hrun : Run (readStep Γ) (fun s r => r.Fine ds ∧ SkipsWholePages Γ s r) s rs t) :
    replies Γ s rs = replies Γ.uncached s rs := by
  have hpages : s.CachesPages f content := by
    intro pages hp
    rw [hcache] at hp
    cases hp
  obtain ⟨t', hrun'⟩ := run_uncached hrun s
  rw [replies_eq hrun (Or.inl ⟨h, hpages⟩), replies_eq hrun' (Or.inl ⟨h.uncached, hpages⟩)]

/-! ## A reader who starts between two pages -/

/-- A mount with the option `cache`. -/
def Config.caching : Config := { Config.plain with cacheDecompressedData := true }

/-- A process that has a file `x` with some contents open, stored by the module `null`. -/
def State.reading (content : Bytes) : State :=
  let s := State.mounted (.fileAt ['x'] (header .null content.length ++ content))
  (openLocked .caching .fine (directOpen .caching .fine s ['x']).1 0 ['x'] false).1

theorem packed_reading (content : Bytes) (hlt : content.length < 2 ^ 63) :
    (State.reading content).Packed .caching 0 0 .null content [0] ∧ ((State.reading content).files 0).cache = none := by
  have hdata : ((directOpen .caching .fine (State.mounted (.fileAt ['x'] (header .null content.length ++ content))) ['x']).1.data 0) =
      header .null content.length ++ content := rfl
  obtain ⟨s', hs', hpacked, hcache⟩ := openLocked_packed (Γ := .caching) (m := .null)
    (s := (directOpen .caching .fine (State.mounted (.fileAt ['x'] (header .null content.length ++ content))) ['x']).1) (f := 0) (i := 0)
    Env.allOk_fine rfl (by rw [hdata]; exact parse_header (show Module.Available .caching .null from rfl) hlt content)
    (by rw [hdata, ← length_header .null content.length, List.drop_left]; rfl) hlt (fun hn => by cases hn) rfl
  have hs : State.reading content = s' := congrArg Prod.fst hs'
  rw [hs]
  exact ⟨hpacked, hcache⟩

instance (Γ : Config) (s : State) (r : ReadRequest) : Decidable (KeepsSkipped Γ s r) := by
  delta KeepsSkipped
  infer_instance

instance (Γ : Config) (s : State) (r : ReadRequest) : Decidable (SkipsWholePages Γ s r) := by
  delta SkipsWholePages
  infer_instance

/-- A request on the first descriptor, answered by a system on which nothing fails. -/
def ReadRequest.plain (size offset : Nat) : ReadRequest := ⟨.fine, 0, size, offset⟩

theorem fine_plain (size offset : Nat) : (ReadRequest.plain size offset).Fine [0] :=
  ⟨fun _ => rfl, Nat.le_refl _, List.mem_singleton.mpr rfl⟩

/-- The second page of a file is read, and then the first, which comes from the cache. -/
theorem replies_cached_backwards :
    replies .caching (.reading (List.replicate 5000 7)) [.plain 4096 4096, .plain 4096 0] =
      replies Config.caching.uncached (.reading (List.replicate 5000 7)) [.plain 4096 4096, .plain 4096 0] := by
  obtain ⟨hpacked, hcache⟩ := packed_reading (List.replicate 5000 7) (by rw [List.length_replicate]; decide)
  refine replies_cached .caching hpacked hcache (Run.cons ⟨fine_plain _ _, ?_⟩ rfl (Run.cons ⟨fine_plain _ _, ?_⟩ rfl (Run.nil _)))
  · decide +kernel
  · decide +kernel

/-- One byte is read first. The second page is read next, and what is skipped before it is kept as the first page; it lacks the
first byte of the file. -/
theorem oddRead_not_transparent :
    ¬∀ (Γ : Config) (s : State) (f i : Nat) (m : Module) (content : Bytes) (ds : List Nat) (rs : List ReadRequest),
      s.Packed Γ f i m content ds → (s.files f).cache = none → (∀ r ∈ rs, r.Fine ds) →
        replies Γ s rs = replies Γ.uncached s rs := by
  intro h
  obtain ⟨hpacked, hcache⟩ := packed_reading (0 :: List.replicate 4096 1)
    (by rw [List.length_cons, List.length_replicate]; decide)
  have hall : ∀ r ∈ [ReadRequest.plain 1 0, .plain 4096 4096, .plain 4096 0], r.Fine [0] := by
    intro r hr
    simp only [List.mem_cons, List.not_mem_nil, or_false] at hr
    rcases hr with rfl | rfl | rfl
    all_goals exact fine_plain _ _
  have hreplies := congrArg (List.map (fun r : Int × Bytes => r.2.headD 9)) (h .caching _ 0 0 .null _ [0] _ hpacked hcache hall)
  exact absurd hreplies (by decide +kernel)

end FuseCompress
