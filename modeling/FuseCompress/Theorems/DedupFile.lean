import FuseCompress.Lemmas.Tables
import Mathlib.Data.List.Nodup
import Mathlib.Data.List.TakeWhile

/-!
# The file of the dedup table round-trips

What `dedup_load` makes of the bytes `dedup_save` has written, whole or cut anywhere: `load_save` gives the same pairs of file name
and digest less the excluded ones, and a cut file gives some of them. The length of a name is stored in 32 bits, so this holds of
names shorter than `2 ^ 32 - 1` bytes, and fails beyond: `longName_not_loaded`. The empty name has no bucket of its own and is left
out.
-/

namespace FuseCompress

/-- The table has a pair of file name and digest. -/
def DedupHash.Has (h : DedupHash) (p : Filename) (m : List UInt8) : Prop := ∃ dp, h.Holds dp ∧ dp.filename = p ∧ dp.md5 = m

/-- The fields of a record are a C string and an array of 16 bytes. -/
structure DedupT.Storable (dp : DedupT) : Prop where
  filename : ∀ c ∈ dp.filename, c.toNat ≠ 0 ∧ c.toNat < 256
  md5 : dp.md5.length = 16

theorem storable_of_all {p : Filename} (h : p.all (fun c => decide (c.toNat ≠ 0 ∧ c.toNat < 256)) = true) :
    ∀ c ∈ p, c.toNat ≠ 0 ∧ c.toNat < 256 := fun c hc => of_decide_eq_true (List.all_eq_true.mp h c hc)

/-- The name of a record is short enough for the 32 bits of its length and the buffer it is read into. -/
def DedupT.Short (dp : DedupT) : Prop := dp.filename.length + 1 < 2 ^ 32

/-- The bytes of a record in the file. -/
def DedupT.entry (dp : DedupT) : Bytes := dedupDbWriteEntry dp.filename dp.md5

/-- What loading a record does to the table. -/
def DedupHash.load (Γ : Config) (h : DedupHash) (dp : DedupT) : DedupHash :=
  if isExcluded Γ dp.filename then h else h.add dp.md5 dp.filename

variable {Γ : Config} {h : DedupHash} {dp : DedupT}

/-! ## One entry -/

/-- The bytes of a C string have no terminator among them, and are its characters. -/
theorem Filename.ofBytes_bytes {p : Filename} (hp : ∀ c ∈ p, c.toNat ≠ 0 ∧ c.toNat < 256) : Filename.ofBytes p.bytes = p := by
  have hchar : ∀ c ∈ p, Char.ofNat (UInt8.ofNat c.toNat).toNat = c := by
    intro c hc
    rw [UInt8.toNat_ofNat', Nat.mod_eq_of_lt (hp c hc).2, Char.ofNat_toNat]
  have hzero : ∀ x ∈ p.bytes, decide (x ≠ 0) = true := by
    intro x hx
    obtain ⟨c, hc, rfl⟩ := List.mem_map.mp hx
    have h0 := hp c hc
    simp only [decide_eq_true_eq]
    intro e
    have := congrArg UInt8.toNat e
    rw [UInt8.toNat_ofNat', Nat.mod_eq_of_lt h0.2] at this
    exact h0.1 this
  unfold ofBytes
  rw [List.takeWhile_eq_self_iff.mpr hzero, bytes, List.map_map]
  conv_rhs => rw [← List.map_id p]
  exact List.map_congr_left hchar

@[simp] theorem Filename.length_bytes (p : Filename) : p.bytes.length = p.length := List.length_map _

theorem DedupT.Storable.length_entry (hs : dp.Storable) : dp.entry.length = 4 + dp.filename.length + 16 := by
  simp [entry, dedupDbWriteEntry, hs.md5, Nat.add_assoc]

/-- A whole entry is loaded. -/
theorem dedupLoadEntries_entry (hs : dp.Storable) (hshort : dp.Short) (h : DedupHash) (rest : Bytes) :
    dedupLoadEntries Γ h (dp.entry ++ rest) = dedupLoadEntries Γ (h.load Γ dp) rest := by
  have hlt : dp.filename.length + 1 < 2 ^ 32 := hshort
  have hlen := hs.length_entry
  have hform : dp.entry ++ rest = Bytes.toLe 4 dp.filename.length ++ (dp.filename.bytes ++ (dp.md5 ++ rest)) := by
    simp [DedupT.entry, dedupDbWriteEntry, List.append_assoc]
  have hdrop : (dp.entry ++ rest).drop 4 = dp.filename.bytes ++ (dp.md5 ++ rest) := by
    rw [hform]
    exact List.drop_left' (Bytes.length_toLe _ _)
  have hnum : Bytes.fromLe ((dp.entry ++ rest).take 4) = dp.filename.length := by
    rw [hform, List.take_left' (Bytes.length_toLe _ _)]
    exact Bytes.fromLe_toLe_of_lt (by omega)
  have hname : (dp.filename.bytes ++ (dp.md5 ++ rest)).take dp.filename.length = dp.filename.bytes :=
    List.take_left' (Filename.length_bytes _)
  have hnameDrop : (dp.filename.bytes ++ (dp.md5 ++ rest)).drop dp.filename.length = dp.md5 ++ rest :=
    List.drop_left' (Filename.length_bytes _)
  rw [dedupLoadEntries, if_neg (by simp only [List.length_append]; omega)]
  dsimp only
  rw [hnum, hdrop, if_neg (by omega), if_neg (by simp), hname, hnameDrop, Filename.ofBytes_bytes hs.filename,
    if_neg (by simp [hs.md5]), List.take_left' hs.md5, List.drop_left' hs.md5]
  rfl

/-- An entry that is cut short is not loaded, and ends the loop. -/
theorem dedupLoadEntries_cut (hs : dp.Storable) (hshort : dp.Short) (h : DedupHash) {n : Nat} (hn : n < dp.entry.length) :
    dedupLoadEntries Γ h (dp.entry.take n) = some h := by
  have hlt : dp.filename.length + 1 < 2 ^ 32 := hshort
  have hlen := hs.length_entry
  rw [dedupLoadEntries]
  by_cases h4 : (dp.entry.take n).length < 4
  · rw [if_pos h4]
  · rw [if_neg h4]
    rw [List.length_take] at h4
    have hnum : Bytes.fromLe ((dp.entry.take n).take 4) = dp.filename.length := by
      rw [List.take_take, Nat.min_eq_left (by omega)]
      rw [DedupT.entry, dedupDbWriteEntry, List.append_assoc, List.take_left' (Bytes.length_toLe _ _)]
      exact Bytes.fromLe_toLe_of_lt (by omega)
    dsimp only
    rw [hnum, if_neg (by omega)]
    split
    · rfl
    · rw [if_pos (by simp only [List.length_drop, List.length_take]; omega)]

/-! ## The whole file -/

/-- Whole entries are loaded one after the other. -/
theorem dedupLoadEntries_entries {l : List DedupT} (hs : ∀ dp ∈ l, dp.Storable) (hshort : ∀ dp ∈ l, dp.Short) (h : DedupHash) :
    dedupLoadEntries Γ h (l.flatMap DedupT.entry) = some (l.foldl (DedupHash.load Γ) h) := by
  induction l generalizing h with
  | nil => rw [dedupLoadEntries]; rfl
  | cons dp l ih =>
    rw [List.flatMap_cons, dedupLoadEntries_entry (hs dp (by simp)) (hshort dp (by simp)),
      ih (fun a ha => hs a (List.mem_cons_of_mem _ ha)) (fun a ha => hshort a (List.mem_cons_of_mem _ ha))]
    rfl

/-- Of entries that are cut short anywhere, the whole ones in front of the cut are loaded. -/
theorem dedupLoadEntries_take (Γ : Config) {l : List DedupT} (hs : ∀ dp ∈ l, dp.Storable) (hshort : ∀ dp ∈ l, dp.Short) (h : DedupHash)
    (n : Nat) : ∃ k, dedupLoadEntries Γ h ((l.flatMap DedupT.entry).take n) = some ((l.take k).foldl (DedupHash.load Γ) h) := by
  induction l generalizing h n with
  | nil => exact ⟨0, by simp [dedupLoadEntries]⟩
  | cons dp l ih =>
    have hdp := hs dp (by simp)
    have hdp' := hshort dp (by simp)
    by_cases hn : n < dp.entry.length
    · refine ⟨0, ?_⟩
      rw [List.flatMap_cons, List.take_append_of_le_length hn.le]
      exact dedupLoadEntries_cut hdp hdp' h hn
    · obtain ⟨k, hk⟩ := ih (fun a ha => hs a (List.mem_cons_of_mem _ ha)) (fun a ha => hshort a (List.mem_cons_of_mem _ ha))
        (h.load Γ dp) (n - dp.entry.length)
      refine ⟨k + 1, ?_⟩
      rw [List.flatMap_cons, List.take_append, List.take_of_length_le (by omega), dedupLoadEntries_entry hdp hdp', hk]
      rfl

/-- Loading records with names and digests of their own keeps the table valid and adds those that are not excluded. -/
theorem foldl_load (Γ : Config) {l : List DedupT} (hl : l.Pairwise (fun a b => a.filename ≠ b.filename ∧ a.md5 ≠ b.md5)) (hv : h.Valid)
    (hnew : ∀ a ∈ l, ∀ b, h.Holds b → b.filename ≠ a.filename ∧ b.md5 ≠ a.md5) :
    (l.foldl (DedupHash.load Γ) h).Valid ∧
      ∀ p m, (l.foldl (DedupHash.load Γ) h).Has p m ↔
        h.Has p m ∨ ∃ a ∈ l, isExcluded Γ a.filename = false ∧ a.filename = p ∧ a.md5 = m := by
  induction l generalizing h with
  | nil => exact ⟨hv, fun p m => by simp⟩
  | cons dp l ih =>
    rw [List.pairwise_cons] at hl
    rw [List.foldl_cons]
    by_cases hex : isExcluded Γ dp.filename = true
    · have hload : h.load Γ dp = h := by simp [DedupHash.load, hex]
      rw [hload]
      obtain ⟨hv', hhas⟩ := ih hl.2 hv (fun a ha => hnew a (List.mem_cons_of_mem _ ha))
      refine ⟨hv', fun p m => ?_⟩
      rw [hhas]
      simp [hex]
    · have hex' : isExcluded Γ dp.filename = false := by simpa using hex
      have hload : h.load Γ dp = h.add dp.md5 dp.filename := by simp [DedupHash.load, hex']
      have hholds : ∀ b, (h.add dp.md5 dp.filename).Holds b ↔ h.Holds b ∨ b = ⟨h.nextId, dp.filename, dp.md5⟩ := by
        intro b
        rw [DedupHash.add_eq, holds_insert]
      have hv₁ : (h.add dp.md5 dp.filename).Valid :=
        hv.add (fun b hb => (hnew dp (by simp) b hb).1) (fun b hb => (hnew dp (by simp) b hb).2)
      rw [hload]
      obtain ⟨hv', hhas⟩ := ih hl.2 hv₁ (by
        intro a ha b hb
        rcases (hholds b).mp hb with hb | rfl
        · exact hnew a (List.mem_cons_of_mem _ ha) b hb
        · exact hl.1 a ha)
      refine ⟨hv', fun p m => ?_⟩
      rw [hhas]
      constructor
      · rintro (⟨b, hb, hp, hm⟩ | ⟨a, ha, hrest⟩)
        · rcases (hholds b).mp hb with hb | rfl
          · exact Or.inl ⟨b, hb, hp, hm⟩
          · exact Or.inr ⟨dp, by simp, hex', hp, hm⟩
        · exact Or.inr ⟨a, List.mem_cons_of_mem _ ha, hrest⟩
      · rintro (⟨b, hb, hp, hm⟩ | ⟨a, ha, hexa, hp, hm⟩)
        · exact Or.inl ⟨b, (hholds b).mpr (Or.inl hb), hp, hm⟩
        · rcases List.mem_cons.mp ha with rfl | ha
          · exact Or.inl ⟨_, (hholds _).mpr (Or.inr rfl), hp, hm⟩
          · exact Or.inr ⟨a, ha, hexa, hp, hm⟩

/-- No two records of a table have a name or a digest in common. -/
theorem DedupHash.Valid.pairwise_records (hv : h.Valid) :
    h.records.Pairwise (fun a b => a.filename ≠ b.filename ∧ a.md5 ≠ b.md5) := by
  have hnodup : h.records.Nodup := by
    unfold records
    rw [List.nodup_flatMap]
    refine ⟨fun k _ => hv.onceFilename k, ?_⟩
    refine List.Pairwise.imp ?_ List.nodup_range
    intro i j hij dp hi hj
    exact hij ((hv.filenameBucket i dp hi).symm.trans (hv.filenameBucket j dp hj))
  refine List.Pairwise.imp_of_mem ?_ hnodup
  intro a b ha hb hab
  have ha' := hv.mem_records.mp ha
  have hb' := hv.mem_records.mp hb
  exact ⟨fun e => hab (hv.filename a b ha' hb' e), fun e => hab (hv.md5 a b ha' hb' e)⟩

/-- Behind the header, the entries are loaded. -/
theorem dedupLoad_header (b : Bytes) : dedupLoad Γ (dedupDbWriteHeader ++ b) = dedupLoadEntries Γ dedupInitDb b := by
  unfold dedupLoad
  rw [if_neg (by simp [dedupDbWriteHeader, dedupMagic])]
  dsimp only
  rw [if_neg (by simp [dedupDbWriteHeader, dedupMagic, Bytes.toLe, Bytes.fromLe, dedupVersion])]
  rfl

/-- A file that ends inside the header gives an empty table. -/
theorem dedupLoad_cut {n : Nat} (hn : n < dedupDbWriteHeader.length) :
    dedupLoad Γ (dedupDbWriteHeader.take n) = some dedupInitDb := by
  have hlen : dedupDbWriteHeader.length = 7 := by decide
  unfold dedupLoad
  by_cases h5 : (dedupDbWriteHeader.take n).length < 5
  · rw [if_pos (Or.inl h5)]
  · have hle : ¬n < 5 := by
      rw [List.length_take] at h5
      omega
    split
    · rfl
    · dsimp only
      rw [if_pos (Or.inl (by simp only [List.length_drop, List.length_take]; omega))]

/-- Every first part of the records is loaded into a valid table that has some of their pairs. -/
theorem DedupHash.Valid.load_take (hv : h.Valid) (Γ : Config) (k : Nat) :
    ((h.records.take k).foldl (DedupHash.load Γ) dedupInitDb).Valid ∧
      ∀ p m, ((h.records.take k).foldl (DedupHash.load Γ) dedupInitDb).Has p m ↔
        ∃ a ∈ h.records.take k, isExcluded Γ a.filename = false ∧ a.filename = p ∧ a.md5 = m := by
  obtain ⟨hv', hhas⟩ := foldl_load Γ (hv.pairwise_records.sublist (List.take_sublist k _)) valid_dedupInitDb
    (fun _ _ b hb => absurd hb (holds_dedupInitDb b))
  refine ⟨hv', fun p m => ?_⟩
  rw [hhas]
  constructor
  · rintro (⟨b, hb, -⟩ | ha)
    · exact absurd hb (holds_dedupInitDb b)
    · exact ha
  · exact Or.inr

/-- A saved table is loaded as a valid one that has its pairs, less the excluded ones. -/
theorem DedupHash.Valid.load_dedupSave (hv : h.Valid) (Γ : Config) (hs : ∀ dp ∈ h.records, dp.Storable)
    (hshort : ∀ dp ∈ h.records, dp.Short) :
    ∃ h', dedupLoad Γ (dedupSave h) = some h' ∧ h'.Valid ∧ ∀ p m, h'.Has p m ↔ h.Has p m ∧ isExcluded Γ p = false := by
  obtain ⟨hv', hhas⟩ := hv.load_take Γ h.records.length
  rw [List.take_length] at hv' hhas
  refine ⟨_, ?_, hv', ?_⟩
  · rw [dedupSave, dedupLoad_header]
    exact dedupLoadEntries_entries hs hshort dedupInitDb
  · intro p m
    rw [hhas]
    constructor
    · rintro ⟨a, ha, hex, rfl, rfl⟩
      exact ⟨⟨a, hv.mem_records.mp ha, rfl, rfl⟩, hex⟩
    · rintro ⟨⟨a, ha, rfl, rfl⟩, hex⟩
      exact ⟨a, hv.mem_records.mpr ha, hex, rfl, rfl⟩

/-- Saving a table and loading it gives the pairs of the table less the excluded ones; loading only a first part of the file gives
some of them. -/
theorem load_save (Γ : Config) (h : DedupHash) (hv : h.Valid) (hs : ∀ dp, h.Holds dp → dp.filename ≠ [] ∧ dp.Storable)
    (hshort : ∀ dp, h.Holds dp → dp.Short) :
    (∃ h', dedupLoad Γ (dedupSave h) = some h' ∧ h'.Valid ∧
        ∀ p m, h'.Has p m ↔ h.Has p m ∧ isExcluded Γ p = false) ∧
      ∀ b, b <+: dedupSave h → ∃ h', dedupLoad Γ b = some h' ∧ h'.Valid ∧ ∀ p m, h'.Has p m → h.Has p m := by
  have hs' : ∀ dp ∈ h.records, dp.Storable := fun dp hdp => (hs dp (hv.mem_records.mp hdp)).2
  have hshort' : ∀ dp ∈ h.records, dp.Short := fun dp hdp => hshort dp (hv.mem_records.mp hdp)
  constructor
  · exact hv.load_dedupSave Γ hs' hshort'
  · intro b hb
    obtain ⟨n, rfl⟩ : ∃ n, b = (dedupSave h).take n := ⟨b.length, List.prefix_iff_eq_take.mp hb⟩
    by_cases hn : n < dedupDbWriteHeader.length
    · refine ⟨dedupInitDb, ?_, valid_dedupInitDb, ?_⟩
      · rw [dedupSave, List.take_append_of_le_length hn.le, dedupLoad_cut hn]
      · rintro p m ⟨dp, hdp, -⟩
        exact absurd hdp (holds_dedupInitDb dp)
    · obtain ⟨k, hk⟩ := dedupLoadEntries_take Γ hs' hshort' dedupInitDb (n - dedupDbWriteHeader.length)
      obtain ⟨hv', hhas⟩ := hv.load_take Γ k
      refine ⟨_, ?_, hv', ?_⟩
      · rw [dedupSave, List.take_append, List.take_of_length_le (by omega), dedupLoad_header]
        exact hk
      · intro p m hp
        obtain ⟨a, ha, -, rfl, rfl⟩ := (hhas p m).mp hp
        exact ⟨a, hv.mem_records.mp (List.mem_of_mem_take ha), rfl, rfl⟩

/-- A record of one file, as a table holds it that has nothing else. -/
def DedupHash.single (p : Filename) (m : List UInt8) : DedupHash := dedupInitDb.add m p

theorem holds_single {p : Filename} {m : List UInt8} {dp : DedupT} :
    (DedupHash.single p m).Holds dp ↔ dp = { id := 0, filename := p, md5 := m } := by
  rw [DedupHash.single, DedupHash.add_eq, holds_insert]
  exact ⟨fun hdp => hdp.resolve_left (holds_dedupInitDb dp), Or.inr⟩

theorem valid_single (p : Filename) (m : List UInt8) : (DedupHash.single p m).Valid :=
  valid_dedupInitDb.add (fun dp hdp => absurd hdp (holds_dedupInitDb dp)) (fun dp hdp => absurd hdp (holds_dedupInitDb dp))

theorem load_save_readme :
    ∃ h', dedupLoad .plain (dedupSave (.single "README".toList (Bytes.zeros 16))) = some h' ∧
      h'.Has "README".toList (Bytes.zeros 16) := by
  have hholds : ∀ dp, (DedupHash.single "README".toList (Bytes.zeros 16)).Holds dp →
      dp = { id := 0, filename := "README".toList, md5 := Bytes.zeros 16 } := fun dp => holds_single.mp
  obtain ⟨⟨h', hload, -, hhas⟩, -⟩ := load_save .plain (.single "README".toList (Bytes.zeros 16)) (valid_single _ _)
    (by
      intro dp hdp
      rw [hholds dp hdp]
      exact ⟨by decide, storable_of_all (by decide), by decide⟩)
    (by
      intro dp hdp
      rw [hholds dp hdp]
      unfold DedupT.Short
      decide)
  exact ⟨h', hload, (hhas _ _).mpr ⟨⟨_, holds_single.mpr rfl, rfl, rfl⟩, by decide⟩⟩

/-! ## Names of `2 ^ 32` bytes and more -/

/-- Loading more entries forgets nothing. -/
theorem has_of_dedupLoadEntries {p : Filename} {m : List UInt8} (b : Bytes) :
    ∀ {h h' : DedupHash}, dedupLoadEntries Γ h b = some h' → h.Has p m → h'.Has p m := by
  induction hn : b.length using Nat.strong_induction_on generalizing b with
  | _ n ih =>
    intro h h' hload hhas
    rw [dedupLoadEntries] at hload
    split at hload
    · cases hload
      exact hhas
    · dsimp only at hload
      split at hload
      · cases hload
      · split at hload
        · cases hload
          exact hhas
        · split at hload
          · cases hload
            exact hhas
          · refine ih _ ?_ _ rfl hload ?_
            · simp only [List.length_drop]
              omega
            · split
              · exact hhas
              · obtain ⟨dp, hdp, hrest⟩ := hhas
                exact ⟨dp, holds_insert.mpr (Or.inl hdp), hrest⟩

/-- The table of a single record walks over that record. -/
theorem records_single (p : Filename) (m : List UInt8) :
    (DedupHash.single p m).records = [{ id := 0, filename := p, md5 := m }] := by
  have hv := valid_single p m
  have hlen : (DedupHash.single p m).records.length = 1 := by
    have hcount := hv.count
    have hentries : (DedupHash.single p m).entries = 1 := rfl
    omega
  obtain ⟨dp, hdp⟩ := List.length_eq_one_iff.mp hlen
  have hmem : dp ∈ (DedupHash.single p m).records := by rw [hdp]; simp
  rw [hdp, holds_single.mp (hv.mem_records.mp hmem)]

/-- A name of `2 ^ 32 + 1` bytes is stored with the length 1, and its next bytes are read as a digest. -/
theorem dedupLoad_single_long {n : Nat} (hn : n % 2 ^ 32 = 1) (hlong : 17 ≤ n) {h' : DedupHash}
    (hload : dedupLoad .plain (dedupSave (.single (List.replicate n 'a') (Bytes.zeros 16))) = some h') :
    h'.Has ['a'] (List.replicate 16 97) := by
  obtain ⟨k, rfl⟩ := Nat.exists_eq_add_of_le hlong
  have hbytes : Filename.bytes (List.replicate (17 + k) 'a') = 97 :: (List.replicate 16 97 ++ List.replicate k 97) := by
    have hmap : Filename.bytes (List.replicate (17 + k) 'a') = List.replicate (17 + k) 97 := List.map_replicate
    rw [hmap, List.replicate_add]
    rfl
  have hlen : Bytes.toLe 4 (17 + k) = [1, 0, 0, 0] := by
    have h0 : (17 + k) % 256 = 1 := by omega
    have h1 : (17 + k) / 256 % 256 = 0 := by omega
    have h2 : (17 + k) / 256 / 256 % 256 = 0 := by omega
    have h3 : (17 + k) / 256 / 256 / 256 % 256 = 0 := by omega
    simp only [Bytes.toLe, h0, h1, h2, h3]
    rfl
  have hfile : dedupSave (.single (List.replicate (17 + k) 'a') (Bytes.zeros 16)) =
      dedupDbWriteHeader ++ ([1, 0, 0, 0, 97] ++ (List.replicate 16 97 ++ (List.replicate k 97 ++ Bytes.zeros 16))) := by
    rw [dedupSave, records_single, List.flatMap_singleton, dedupDbWriteEntry, hbytes, List.length_replicate, hlen]
    simp
  have hnum : Bytes.fromLe [1, 0, 0, 0] = 1 := by decide
  rw [hfile, dedupLoad_header, dedupLoadEntries, if_neg (by simp)] at hload
  simp only [List.cons_append, List.nil_append, List.take_succ_cons, List.take_zero, List.drop_succ_cons, List.drop_zero,
    hnum] at hload
  rw [if_neg (by decide), if_neg (by simp), if_neg (by simp), List.take_left' List.length_replicate] at hload
  refine has_of_dedupLoadEntries _ hload ?_
  rw [if_neg (by simp [isExcluded, Config.plain])]
  exact ⟨_, holds_single.mpr rfl, rfl, rfl⟩

/-- A name of `2 ^ 32 + 1` bytes. -/
def longName : Filename := List.replicate (2 ^ 32 + 1) 'a'

/-- A table with one record, of a file with a name of `2 ^ 32 + 1` bytes, does not come back. -/
theorem longName_not_loaded :
    (DedupHash.single longName (Bytes.zeros 16)).Valid ∧
      (∀ dp, (DedupHash.single longName (Bytes.zeros 16)).Holds dp → dp.filename ≠ [] ∧ dp.Storable) ∧
      ¬∃ h', dedupLoad .plain (dedupSave (.single longName (Bytes.zeros 16))) = some h' ∧
        ∀ p m, h'.Has p m ↔ (DedupHash.single longName (Bytes.zeros 16)).Has p m ∧ isExcluded .plain p = false := by
  refine ⟨valid_single _ _, ?_, ?_⟩
  · intro dp hdp
    rw [holds_single.mp hdp]
    refine ⟨fun hn => absurd (congrArg List.length hn) (by rw [longName, List.length_replicate]; decide), ?_, Bytes.length_zeros 16⟩
    intro c hc
    rw [List.eq_of_mem_replicate hc]
    decide
  · rintro ⟨h', hload, hhas⟩
    have hmod : (2 ^ 32 + 1) % 2 ^ 32 = 1 := by decide
    have hpair : h'.Has ['a'] (List.replicate 16 97) := dedupLoad_single_long hmod (by decide) hload
    obtain ⟨⟨dp, hdp, hname, -⟩, -⟩ := (hhas _ _).mp hpair
    rw [holds_single.mp hdp] at hname
    have hlen := congrArg List.length hname
    rw [longName, List.length_replicate] at hlen
    exact absurd hlen (by decide)

end FuseCompress
