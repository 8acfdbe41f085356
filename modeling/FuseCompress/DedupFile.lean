import FuseCompress.Dedup

/-!
# The file of the dedup table

`dedup_save` and `dedup_load`: the table as the bytes of the file `DEDUP_DB_FILE`, written at unmount and read at mount. Every call
that reads or writes the file succeeds; the file ends where its bytes end.

A file name is a C string: the list of its bytes, each as the character with that code.
-/

namespace FuseCompress

/-- The bytes of a C string, without the terminator. -/
def Filename.bytes (p : Filename) : Bytes := p.map (fun c => UInt8.ofNat c.toNat)

/-- The C string in a buffer: its bytes up to the first terminator. -/
def Filename.ofBytes (b : Bytes) : Filename := (b.takeWhile (· ≠ 0)).map (fun x => Char.ofNat x.toNat)

/-- `DATABASE_HASH_SIZE`. -/
def databaseHashSize : Nat := 65536

/-- `DEDUP_MAGIC`. -/
def dedupMagic : Bytes := [68, 69, 68, 85, 80]

/-- `DEDUP_VERSION`. -/
def dedupVersion : Nat := 2

/-- `dedup_db_write_header`. -/
def dedupDbWriteHeader : Bytes := dedupMagic ++ Bytes.toLe 2 dedupVersion

/-- `dedup_db_write_entry`. The length of the name goes through a `uint32_t`. -/
def dedupDbWriteEntry (filename : Filename) (md5 : List UInt8) : Bytes :=
  Bytes.toLe 4 filename.length ++ filename.bytes ++ md5

/-- The records in the order in which `dedup_save` walks over them, bucket after bucket. -/
def DedupHash.records (h : DedupHash) : List DedupT := (List.range databaseHashSize).flatMap h.headFilename

/-- `dedup_save`: the bytes it writes. -/
def dedupSave (h : DedupHash) : Bytes :=
  dedupDbWriteHeader ++ h.records.flatMap (fun dp => dedupDbWriteEntry dp.filename dp.md5)

/-- The loop of `dedup_load`: one entry after the other until the file ends, between two entries or inside one. The buffer for the
name has `filename_length + 1` bytes in 32-bit arithmetic, so there is no room at all for the longest name: nothing then. -/
def dedupLoadEntries (Γ : Config) (h : DedupHash) (b : Bytes) : Option DedupHash :=
  if b.length < 4 then some h
  else
    let filenameLength := Bytes.fromLe (b.take 4)
    let r := b.drop 4
    if filenameLength + 1 = 2 ^ 32 then none
    else if r.length < filenameLength then some h
    else
      let filename := Filename.ofBytes (r.take filenameLength)
      let r := r.drop filenameLength
      if r.length < 16 then some h
      else dedupLoadEntries Γ (if isExcluded Γ filename then h else h.add (r.take 16) filename) (r.drop 16)
termination_by b.length
decreasing_by
  simp only [List.length_drop]
  omega

/-- `dedup_load`, of a file with contents `b`, in a process that has just started. -/
def dedupLoad (Γ : Config) (b : Bytes) : Option DedupHash :=
  if b.length < 5 ∨ b.take 5 ≠ dedupMagic then some dedupInitDb
  else
    let r := b.drop 5
    if r.length < 2 ∨ Bytes.fromLe (r.take 2) ≠ dedupVersion then some dedupInitDb
    else dedupLoadEntries Γ dedupInitDb (r.drop 2)

end FuseCompress
