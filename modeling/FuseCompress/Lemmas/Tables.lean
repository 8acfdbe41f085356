import FuseCompress.DedupFile

/-!
# The two indexes of the dedup table

`DedupHash.Valid` is what the operations of `dedup.c` rely on: both indexes hold the same records, each in its own bucket, and no
two records have one file name or one digest. Every operation on the table is an insertion or a removal of one record
(`Valid.insert`, `Valid.remove`).
-/

namespace FuseCompress

/-- The table holds a record. -/
def DedupHash.Holds (h : DedupHash) (dp : DedupT) : Prop := dp ∈ h.headFilename (filenameBucket dp.filename)

/-- The representation invariant of the table. -/
structure DedupHash.Valid (h : DedupHash) : Prop where
  filenameBucket : ∀ k, ∀ dp ∈ h.headFilename k, filenameBucket dp.filename = k
  md5Bucket : ∀ k, ∀ dp ∈ h.headMd5 k, md5ToHash dp.md5 = k
  same : ∀ dp, h.Holds dp ↔ dp ∈ h.headMd5 (md5ToHash dp.md5)
  onceFilename : ∀ k, (h.headFilename k).Nodup
  onceMd5 : ∀ k, (h.headMd5 k).Nodup
  count : h.entries = h.records.length
  filename : ∀ dp dp', h.Holds dp → h.Holds dp' → dp.filename = dp'.filename → dp = dp'
  md5 : ∀ dp dp', h.Holds dp → h.Holds dp' → dp.md5 = dp'.md5 → dp = dp'
  id : ∀ dp dp', h.Holds dp → h.Holds dp' → dp.id = dp'.id → dp = dp'
  fresh : ∀ dp, h.Holds dp → dp.id < h.nextId

variable {h : DedupHash}

theorem filenameBucket_lt (p : Filename) : filenameBucket p < databaseHashSize := Nat.mod_lt _ (by decide)

/-- A record in any bucket is a record of the table. -/
theorem DedupHash.Valid.holds (hv : h.Valid) {k : Nat} {dp : DedupT} (hdp : dp ∈ h.headFilename k) : h.Holds dp := by
  have hk := hv.filenameBucket k dp hdp
  rw [← hk] at hdp
  exact hdp

/-- The walk meets every record of the table, and no other. -/
theorem DedupHash.Valid.mem_records (hv : h.Valid) {dp : DedupT} : dp ∈ h.records ↔ h.Holds dp := by
  unfold records
  rw [List.mem_flatMap]
  constructor
  · rintro ⟨k, -, hdp⟩
    exact hv.holds hdp
  · intro hdp
    exact ⟨_, List.mem_range.mpr (filenameBucket_lt dp.filename), hdp⟩

/-! ## The empty table -/

@[simp] theorem holds_dedupInitDb (dp : DedupT) : ¬dedupInitDb.Holds dp := by simp [DedupHash.Holds, dedupInitDb]

theorem valid_dedupInitDb : dedupInitDb.Valid where
  filenameBucket := by simp [dedupInitDb]
  md5Bucket := by simp [dedupInitDb]
  same := by simp [dedupInitDb, DedupHash.Holds]
  onceFilename := by simp [dedupInitDb]
  onceMd5 := by simp [dedupInitDb]
  count := by simp [dedupInitDb, DedupHash.records]
  filename := fun _ _ hdp => absurd hdp (holds_dedupInitDb _)
  md5 := fun _ _ hdp => absurd hdp (holds_dedupInitDb _)
  id := fun _ _ hdp => absurd hdp (holds_dedupInitDb _)
  fresh := fun _ hdp => absurd hdp (holds_dedupInitDb _)

/-! ## Searching -/

/-- A record found by name is in the table under that name. -/
theorem DedupHash.findName_some {p : Filename} {dp : DedupT} (hf : h.findName p = some dp) :
    h.Holds dp ∧ dp.filename = p := by
  have hm := List.mem_of_find?_eq_some hf
  have hp := List.find?_some hf
  simp only [decide_eq_true_eq] at hp
  refine ⟨?_, hp.2⟩
  unfold DedupHash.Holds
  rw [hp.2]
  exact hm

/-- A search by name that finds nothing says that no record has the name. -/
theorem DedupHash.findName_none {p : Filename} (hf : h.findName p = none) : ∀ dp, h.Holds dp → dp.filename ≠ p := by
  intro dp hdp hp
  unfold DedupHash.findName at hf
  rw [List.find?_eq_none] at hf
  unfold DedupHash.Holds at hdp
  rw [hp] at hdp
  exact hf dp hdp (by simp [hp])

/-- A record found by digest is in the table with that digest. -/
theorem DedupHash.Valid.findMd5_some (hv : h.Valid) {m : List UInt8} {dp : DedupT} (hf : h.findMd5 m = some dp) :
    h.Holds dp ∧ dp.md5 = m := by
  have hm := List.mem_of_find?_eq_some hf
  have hp := List.find?_some hf
  simp only [decide_eq_true_eq] at hp
  refine ⟨(hv.same dp).mpr ?_, hp⟩
  rw [hp]
  exact hm

/-- A search by digest that finds nothing says that no record has the digest. -/
theorem DedupHash.Valid.findMd5_none (hv : h.Valid) {m : List UInt8} (hf : h.findMd5 m = none) :
    ∀ dp, h.Holds dp → dp.md5 ≠ m := by
  intro dp hdp hm
  have hmem := (hv.same dp).mp hdp
  unfold DedupHash.findMd5 at hf
  rw [List.find?_eq_none] at hf
  rw [hm] at hmem
  exact hf dp hmem (by simp [hm])

/-- Where no record has the hash of a name, no record has the name. -/
theorem DedupHash.hasFilehash_false {p : Filename} (hf : h.hasFilehash p = false) : ∀ dp, h.Holds dp → dp.filename ≠ p := by
  intro dp hdp hp
  unfold DedupHash.hasFilehash at hf
  rw [List.any_eq_false] at hf
  unfold DedupHash.Holds at hdp
  rw [hp] at hdp
  exact hf dp hdp (by simp [hp])

/-! ## Inserting a record -/

/-- `addTail`, with the record counted. -/
def DedupHash.insert (h : DedupHash) (dp : DedupT) (nextId : Nat) : DedupHash :=
  { h.addTail dp with entries := h.entries + 1, nextId := nextId }

theorem mem_headFilename_insert {dp dp' : DedupT} {n k : Nat} :
    dp' ∈ (h.insert dp n).headFilename k ↔ dp' ∈ h.headFilename k ∨ dp' = dp ∧ k = filenameBucket dp.filename := by
  by_cases hk : k = filenameBucket dp.filename
  · subst hk
    simp [DedupHash.insert, DedupHash.addTail]
  · simp [DedupHash.insert, DedupHash.addTail, hk]

theorem mem_headMd5_insert {dp dp' : DedupT} {n k : Nat} :
    dp' ∈ (h.insert dp n).headMd5 k ↔ dp' ∈ h.headMd5 k ∨ dp' = dp ∧ k = md5ToHash dp.md5 := by
  by_cases hk : k = md5ToHash dp.md5
  · subst hk
    simp [DedupHash.insert, DedupHash.addTail]
  · simp [DedupHash.insert, DedupHash.addTail, hk]

theorem holds_insert {dp dp' : DedupT} {n : Nat} : (h.insert dp n).Holds dp' ↔ h.Holds dp' ∨ dp' = dp := by
  unfold DedupHash.Holds
  rw [mem_headFilename_insert]
  constructor
  · rintro (hdp | ⟨rfl, -⟩)
    · exact Or.inl hdp
    · exact Or.inr rfl
  · rintro (hdp | rfl)
    · exact Or.inl hdp
    · exact Or.inr ⟨rfl, rfl⟩

/-- A sum over `n` places, one of which grows. -/
theorem sum_update (g : Nat → Nat) {n k : Nat} (hk : k < n) (v : Nat) :
    ((List.range n).map (Function.update g k v)).sum + g k = ((List.range n).map g).sum + v := by
  induction n with
  | zero => omega
  | succ n ih =>
    rw [List.range_succ, List.map_append, List.map_append, List.sum_append, List.sum_append]
    simp only [List.map_cons, List.map_nil, List.sum_cons, List.sum_nil]
    by_cases hkn : k = n
    · subst hkn
      have hrest : (List.range k).map (Function.update g k v) = (List.range k).map g := by
        apply List.map_congr_left
        intro i hi
        have := List.mem_range.mp hi
        rw [Function.update_of_ne (by omega)]
      rw [hrest, Function.update_self]
      omega
    · have := ih (by omega)
      rw [Function.update_of_ne (fun e => hkn e.symm)]
      omega

/-- The number of records, when one bucket changes. -/
theorem length_records_update (h h' : DedupHash) {k : Nat} (hk : k < databaseHashSize)
    (hne : ∀ i, i ≠ k → h'.headFilename i = h.headFilename i) :
    h'.records.length + (h.headFilename k).length = h.records.length + (h'.headFilename k).length := by
  have hmap : (fun i => (h'.headFilename i).length) =
      Function.update (fun i => (h.headFilename i).length) k (h'.headFilename k).length := by
    funext i
    by_cases hi : i = k
    · subst hi; simp
    · simp [hi, hne i hi]
  unfold DedupHash.records
  rw [List.length_flatMap, List.length_flatMap, hmap]
  exact sum_update (fun i => (h.headFilename i).length) hk _

/-- A new element at the end of a list without repetitions. -/
theorem nodup_snoc {l : List DedupT} (hl : l.Nodup) {dp : DedupT} (hdp : dp ∉ l) : (l ++ [dp]).Nodup := by
  rw [List.nodup_append]
  refine ⟨hl, by simp, ?_⟩
  intro a ha b hb hab
  rw [List.mem_singleton.mp hb] at hab
  exact hdp (hab ▸ ha)

/-- A record with a new name, a new digest and a new pointer can be added. -/
theorem DedupHash.Valid.insert (hv : h.Valid) {dp : DedupT} {n : Nat} (hname : ∀ dp', h.Holds dp' → dp'.filename ≠ dp.filename)
    (hmd5 : ∀ dp', h.Holds dp' → dp'.md5 ≠ dp.md5) (hid : ∀ dp', h.Holds dp' → dp'.id ≠ dp.id) (hn : h.nextId ≤ n)
    (hlt : dp.id < n) : (h.insert dp n).Valid where
  filenameBucket := by
    intro k dp' hdp
    rcases mem_headFilename_insert.mp hdp with hdp | ⟨rfl, rfl⟩
    · exact hv.filenameBucket k dp' hdp
    · rfl
  md5Bucket := by
    intro k dp' hdp
    rcases mem_headMd5_insert.mp hdp with hdp | ⟨rfl, rfl⟩
    · exact hv.md5Bucket k dp' hdp
    · rfl
  same := by
    intro dp'
    rw [holds_insert, mem_headMd5_insert, hv.same dp']
    constructor
    · rintro (hdp | rfl)
      · exact Or.inl hdp
      · exact Or.inr ⟨rfl, rfl⟩
    · rintro (hdp | ⟨rfl, -⟩)
      · exact Or.inl hdp
      · exact Or.inr rfl
  onceFilename := by
    intro k
    have hnew : dp ∉ h.headFilename k := fun hm => hname dp (hv.holds hm) rfl
    by_cases hk : k = FuseCompress.filenameBucket dp.filename
    · subst hk
      simp only [DedupHash.insert, addTail, Function.update_self]
      exact nodup_snoc (hv.onceFilename _) hnew
    · simp only [DedupHash.insert, addTail, Function.update_of_ne hk]
      exact hv.onceFilename k
  onceMd5 := by
    intro k
    have hnew : dp ∉ h.headMd5 k := by
      intro hm
      have hk := hv.md5Bucket k dp hm
      rw [← hk] at hm
      exact hname dp ((hv.same dp).mpr hm) rfl
    by_cases hk : k = md5ToHash dp.md5
    · subst hk
      simp only [DedupHash.insert, addTail, Function.update_self]
      exact nodup_snoc (hv.onceMd5 _) hnew
    · simp only [DedupHash.insert, addTail, Function.update_of_ne hk]
      exact hv.onceMd5 k
  count := by
    have hlen := length_records_update h (h.insert dp n) (filenameBucket_lt dp.filename)
      (fun i hi => by simp [DedupHash.insert, addTail, hi])
    have hbucket : ((h.insert dp n).headFilename (FuseCompress.filenameBucket dp.filename)).length =
        (h.headFilename (FuseCompress.filenameBucket dp.filename)).length + 1 := by
      simp [DedupHash.insert, addTail]
    have hcount := hv.count
    change h.entries + 1 = _
    omega
  filename := by
    intro a b ha hb hab
    rcases holds_insert.mp ha with ha' | rfl <;> rcases holds_insert.mp hb with hb' | rfl
    · exact hv.filename a b ha' hb' hab
    · exact absurd hab (hname a ha')
    · exact absurd hab.symm (hname b hb')
    · rfl
  md5 := by
    intro a b ha hb hab
    rcases holds_insert.mp ha with ha' | rfl <;> rcases holds_insert.mp hb with hb' | rfl
    · exact hv.md5 a b ha' hb' hab
    · exact absurd hab (hmd5 a ha')
    · exact absurd hab.symm (hmd5 b hb')
    · rfl
  id := by
    intro a b ha hb hab
    rcases holds_insert.mp ha with ha' | rfl <;> rcases holds_insert.mp hb with hb' | rfl
    · exact hv.id a b ha' hb' hab
    · exact absurd hab (hid a ha')
    · exact absurd hab.symm (hid b hb')
    · rfl
  fresh := by
    intro a ha
    rcases holds_insert.mp ha with ha | rfl
    · exact lt_of_lt_of_le (hv.fresh a ha) hn
    · exact hlt

/-- `dedup_add` inserts a record. -/
theorem DedupHash.add_eq (h : DedupHash) (m : List UInt8) (p : Filename) :
    h.add m p = h.insert { id := h.nextId, filename := p, md5 := m } (h.nextId + 1) := rfl

/-- `dedup_add` keeps the table valid when neither the name nor the digest is there. -/
theorem DedupHash.Valid.add (hv : h.Valid) {m : List UInt8} {p : Filename} (hname : ∀ dp, h.Holds dp → dp.filename ≠ p)
    (hmd5 : ∀ dp, h.Holds dp → dp.md5 ≠ m) : (h.add m p).Valid := by
  rw [add_eq]
  exact hv.insert hname hmd5 (fun dp hdp => (hv.fresh dp hdp).ne) (Nat.le_succ _) (Nat.lt_succ_self _)

/-! ## Removing a record -/

/-- `list_del` from both lists, with the record no longer counted. -/
def DedupHash.remove (h : DedupHash) (dp : DedupT) : DedupHash := { h.del dp with entries := h.entries - 1 }

/-- Exactly the removed record is gone. -/
theorem DedupHash.Valid.holds_remove (hv : h.Valid) {dp : DedupT} (hdp : h.Holds dp) {dp' : DedupT} :
    (h.remove dp).Holds dp' ↔ h.Holds dp' ∧ dp' ≠ dp := by
  simp only [DedupHash.Holds, DedupHash.remove, DedupHash.del, List.mem_filter, decide_eq_true_eq, ne_eq]
  constructor
  · rintro ⟨hm, hne⟩
    exact ⟨hm, fun e => hne (by rw [e])⟩
  · rintro ⟨hm, hne⟩
    exact ⟨hm, fun e => hne (hv.id dp' dp hm hdp e)⟩

/-- A bucket loses one record when it holds it. -/
theorem length_filter_id {l : List DedupT} (hl : l.Nodup) {dp : DedupT} (hdp : dp ∈ l)
    (hid : ∀ a ∈ l, a.id = dp.id → a = dp) : (l.filter (fun a => a.id ≠ dp.id)).length + 1 = l.length := by
  have heq : l.filter (fun a => a.id ≠ dp.id) = l.erase dp := by
    rw [hl.erase_eq_filter]
    apply List.filter_congr
    intro a ha
    by_cases he : a = dp
    · simp [he]
    · have hne : a.id ≠ dp.id := fun e => he (hid a ha e)
      simp [he, hne]
  have hpos := List.length_pos_of_mem hdp
  rw [heq, List.length_erase_of_mem hdp]
  omega

/-- A record of the table can be removed. -/
theorem DedupHash.Valid.remove (hv : h.Valid) {dp : DedupT} (hdp : h.Holds dp) : (h.remove dp).Valid where
  filenameBucket := fun k a ha => hv.filenameBucket k a (List.mem_filter.mp ha).1
  md5Bucket := fun k a ha => hv.md5Bucket k a (List.mem_filter.mp ha).1
  same := by
    intro a
    have hs := hv.same a
    simp only [DedupHash.Holds, DedupHash.remove, DedupHash.del, List.mem_filter] at hs ⊢
    rw [hs]
  onceFilename := fun k => (hv.onceFilename k).filter _
  onceMd5 := fun k => (hv.onceMd5 k).filter _
  count := by
    have hid : ∀ k, ∀ a ∈ h.headFilename k, a.id = dp.id → a = dp := fun k a ha e => hv.id a dp (hv.holds ha) hdp e
    have hlen := length_records_update h (h.remove dp) (filenameBucket_lt dp.filename) (by
      intro i hi
      simp only [DedupHash.remove, del]
      rw [List.filter_eq_self]
      intro a ha
      have hne : a.id ≠ dp.id := by
        intro e
        have := hid i a ha e
        subst this
        exact hi (hv.filenameBucket i a ha).symm
      simpa using hne)
    have hbucket := length_filter_id (hv.onceFilename (FuseCompress.filenameBucket dp.filename)) hdp (hid _)
    have hhead : (h.remove dp).headFilename (FuseCompress.filenameBucket dp.filename) =
        (h.headFilename (FuseCompress.filenameBucket dp.filename)).filter (fun a => a.id ≠ dp.id) := rfl
    have hcount := hv.count
    rw [hhead] at hlen
    change h.entries - 1 = _
    omega
  filename := fun a b ha hb => hv.filename a b ((hv.holds_remove hdp).mp ha).1 ((hv.holds_remove hdp).mp hb).1
  md5 := fun a b ha hb => hv.md5 a b ((hv.holds_remove hdp).mp ha).1 ((hv.holds_remove hdp).mp hb).1
  id := fun a b ha hb => hv.id a b ((hv.holds_remove hdp).mp ha).1 ((hv.holds_remove hdp).mp hb).1
  fresh := fun a ha => hv.fresh a ((hv.holds_remove hdp).mp ha).1

/-- A record of the table gets a new name, as `dedup_rename` gives it one. -/
theorem DedupHash.Valid.rename (hv : h.Valid) {dp : DedupT} (hdp : h.Holds dp) {q : Filename}
    (hname : ∀ dp', h.Holds dp' → dp'.filename ≠ q) :
    ((h.del dp).addTail { dp with filename := q }).Valid ∧
      ∀ dp', ((h.del dp).addTail { dp with filename := q }).Holds dp' ↔
        h.Holds dp' ∧ dp' ≠ dp ∨ dp' = { dp with filename := q } := by
  have heq : (h.del dp).addTail { dp with filename := q } = (h.remove dp).insert { dp with filename := q } h.nextId := by
    simp only [DedupHash.insert, DedupHash.remove, addTail, del, Int.sub_add_cancel]
  have hother : ∀ dp', (h.remove dp).Holds dp' → h.Holds dp' ∧ dp' ≠ dp := fun dp' => (hv.holds_remove hdp).mp
  rw [heq]
  constructor
  · refine (hv.remove hdp).insert ?_ ?_ ?_ (le_refl _) (hv.fresh dp hdp)
    · exact fun dp' hdp' => hname dp' (hother dp' hdp').1
    · exact fun dp' hdp' e => (hother dp' hdp').2 (hv.md5 dp' dp (hother dp' hdp').1 hdp e)
    · exact fun dp' hdp' e => (hother dp' hdp').2 (hv.id dp' dp (hother dp' hdp').1 hdp e)
  · intro dp'
    rw [holds_insert, hv.holds_remove hdp]

end FuseCompress
