import FuseCompress.Lib.Bytes

/-!
# Headers, compression modules and the choice of a module

What `file.c`, `globals.c`, `utils.h` and `choose_compressor` of `compress.c` compute: the 12-byte header in front of a
compressed file, the table of modules, and which file names are left uncompressed.

A compression module is a library outside this repository (zlib, bzip2, liblzma, lzo) behind five function pointers; `Codec` is
what those pointers do to the bytes of a file. Nothing is assumed of a codec except where a theorem names `Codec.Exact`.
-/

namespace FuseCompress

/-- A path relative to the root of the backing directory, as `fusecompress_getpath` gives it. -/
abbrev Filename := List Char

/-- The compression modules, in the order of their `type` byte. -/
inductive Module where
  | null | bz2 | gzip | lzo | lzma
  deriving DecidableEq, Repr

/-- The `type` field of a module. -/
def Module.type : Module → Nat
  | .null => 0
  | .bz2 => 1
  | .gzip => 2
  | .lzo => 3
  | .lzma => 4

/-- What a module does. `emit` is what one `write` call pushes to the file, given the chunks written before it; `tail` is what
`close` still pushes; `pack` is the stream `compress` writes for a whole file; `decode` is what the stream reads back as, none
when the module reports an error. -/
structure Codec where
  emit : List Bytes → Bytes → Bytes
  tail : List Bytes → Bytes
  pack : Bytes → Bytes
  decode : Bytes → Option Bytes

/-- The bytes pushed to the file by the writes of some chunks, after those of others. -/
def Codec.emittedFrom (c : Codec) : List Bytes → List Bytes → Bytes
  | _, [] => []
  | done, x :: xs => c.emit done x ++ c.emittedFrom (done ++ [x]) xs

/-- The bytes pushed to the file by writing some chunks one after the other. -/
def Codec.emitted (c : Codec) (xs : List Bytes) : Bytes := c.emittedFrom [] xs

/-- The module reads back exactly the bytes written before close, by `write` calls or by `compress`. -/
structure Codec.Exact (c : Codec) : Prop where
  stream : ∀ xs, c.decode (c.emitted xs ++ c.tail xs) = some xs.flatten
  packed : ∀ d, c.decode (c.pack d) = some d

theorem Codec.emittedFrom_append (c : Codec) (done xs ys : List Bytes) :
    c.emittedFrom done (xs ++ ys) = c.emittedFrom done xs ++ c.emittedFrom (done ++ xs) ys := by
  induction xs generalizing done with
  | nil => simp [emittedFrom]
  | cons x xs ih => simp [emittedFrom, ih, List.append_assoc]

@[simp] theorem Codec.emitted_nil (c : Codec) : c.emitted [] = [] := rfl

/-- The module `null` stores the bytes as they are. -/
def Codec.stored : Codec := { emit := fun _ x => x, tail := fun _ => [], pack := id, decode := some }

theorem Codec.emittedFrom_stored (done xs : List Bytes) : Codec.stored.emittedFrom done xs = xs.flatten := by
  induction xs generalizing done with
  | nil => rfl
  | cons x xs ih => rw [emittedFrom, ih]; rfl

theorem Codec.stored_exact : Codec.stored.Exact where
  stream xs := by
    change some (Codec.stored.emittedFrom [] xs ++ []) = _
    rw [emittedFrom_stored, List.append_nil]
  packed _ := rfl

/-- The mount options and the environment of a mount. `beyond` is whatever `find_compressor` finds one place behind the table of
modules, `md5` the digest function of the mhash library, `uid`, `gid` and `umask` are those of the process, `superuser` is
`geteuid() == 0`, and `assertions` says that the program was built without `NDEBUG`. -/
structure Config where
  minFilesizeBackground : Nat
  rootFs : Bool
  readOnly : Bool
  cacheDecompressedData : Bool
  maxDecompCacheSize : Int
  dontCompressBeyond : Nat
  dedupEnabled : Bool
  compressorDefault : Module
  available : Module → Bool
  beyond : Option Module
  userIncompressible : List Filename
  userExcludePaths : List Filename
  uid : Nat
  gid : Nat
  umask : Nat
  superuser : Bool
  assertions : Bool
  codec : Module → Codec
  md5 : Bytes → List UInt8

/-- A mount with the option `null` and no other, on a disk with blocks of 4096 bytes, of a program that has no other module. -/
def Config.plain : Config where
  minFilesizeBackground := 4096
  rootFs := false
  readOnly := false
  cacheDecompressedData := false
  maxDecompCacheSize := 100 * 1024 * 1024
  dontCompressBeyond := 2 ^ 64 - 1
  dedupEnabled := false
  compressorDefault := .null
  available := fun _ => false
  beyond := none
  userIncompressible := []
  userExcludePaths := []
  uid := 0
  gid := 0
  umask := 0o022
  superuser := false
  assertions := false
  codec := fun _ => .stored
  md5 := fun _ => []

/-! ## Numbers -/

/-- A signed 64-bit number converted to an unsigned one, as C does when an `off_t` meets a `size_t`. -/
def asU64 (x : Int) : Nat := (x % 2 ^ 64).toNat

/-- An unsigned 64-bit number read as a signed one. -/
def asS64 (n : Nat) : Int := if n < 2 ^ 63 then n else (n : Int) - 2 ^ 64

theorem asU64_of_nat {n : Nat} (h : n < 2 ^ 64) : asU64 n = n := by
  unfold asU64
  omega

theorem asS64_of_lt {n : Nat} (h : n < 2 ^ 63) : asS64 n = n := if_pos h

/-! ## The header -/

/-- `sizeof(header_t)`. -/
def headerSize : Nat := 12

/-- The three bytes that mark the FuseCompress format. -/
def magic : Bytes := [31, 93, 137]

/-- `file_write_header`: the bytes it writes. -/
def header (m : Module) (size : Int) : Bytes := magic ++ [UInt8.ofNat m.type] ++ Bytes.toLe 8 (asU64 size)

/-- The table `compressors`, with what lies one place behind it. -/
def compressors (Γ : Config) (i : Nat) : Option Module :=
  match i with
  | 0 => some .null
  | 1 => if Γ.available .bz2 then some .bz2 else none
  | 2 => if Γ.available .gzip then some .gzip else none
  | 3 => if Γ.available .lzo then some .lzo else none
  | 4 => if Γ.available .lzma then some .lzma else none
  | _ => Γ.beyond

/-- `find_compressor`. The bound it tests against is the length of the table, not the last index. -/
def findCompressor (Γ : Config) (type : Nat) : Option Module := if type > 5 then none else compressors Γ type

/-- `file_compressor`, of the first bytes of a file. -/
def fileCompressor (Γ : Config) (fh : Bytes) : Option Module :=
  if fh.take 3 ≠ magic then none else findCompressor Γ ((fh.drop 3).headD 0).toNat

/-- `file_read_header_fd` on a file with contents `data`, given the values the two outputs point to. A file shorter than a header
leaves both as they were. -/
def fileReadHeader (Γ : Config) (data : Bytes) (compressor : Option Module) (size : Int) : Option Module × Int :=
  if data.length < headerSize then (compressor, size)
  else
    match fileCompressor Γ data with
    | none => (none, size)
    | some m => (some m, asS64 (Bytes.fromLe (Bytes.slice data 4 8)))

/-- The module and the size that the header of a file names, when the file has a valid header. -/
def parse (Γ : Config) (data : Bytes) : Option (Module × Int) :=
  if data.length < headerSize then none
  else (fileCompressor Γ data).map (fun m => (m, asS64 (Bytes.fromLe (Bytes.slice data 4 8))))

/-- A module is compiled in when the table has it at its own place. -/
def Module.Available (Γ : Config) (m : Module) : Prop := compressors Γ m.type = some m

theorem Module.available_null (Γ : Config) : Module.null.Available Γ := rfl

/-- What `file_read_header_fd` gives, by what the file's header says. -/
theorem fileReadHeader_of_parse {Γ : Config} {data : Bytes} {m : Module} {n : Int} (h : parse Γ data = some (m, n))
    (c : Option Module) (size : Int) : fileReadHeader Γ data c size = (some m, n) := by
  unfold parse at h
  unfold fileReadHeader
  split at h
  · cases h
  · rename_i hl
    rw [if_neg hl]
    cases hc : fileCompressor Γ data with
    | none => simp [hc] at h
    | some m' =>
      simp only [hc, Option.map_some, Option.some.injEq, Prod.mk.injEq] at h
      simp [h]

/-- On a file without a header the size is left alone, and the module becomes NULL unless the file is too short. -/
theorem fileReadHeader_of_parse_none {Γ : Config} {data : Bytes} (h : parse Γ data = none) (c : Option Module) (size : Int) :
    fileReadHeader Γ data c size = (if data.length < headerSize then c else none, size) := by
  unfold parse at h
  unfold fileReadHeader
  split at h
  · rename_i hl
    simp [hl]
  · rename_i hl
    rw [if_neg hl, if_neg hl]
    cases hc : fileCompressor Γ data with
    | none => rfl
    | some m => simp [hc] at h

@[simp] theorem length_header (m : Module) (size : Int) : (header m size).length = headerSize := by
  simp [header, magic, headerSize]

/-- A written header reads back as the module and the size it was written with. -/
theorem parse_header {Γ : Config} {m : Module} (hm : m.Available Γ) {n : Nat} (hn : n < 2 ^ 63) (rest : Bytes) :
    parse Γ (header m n ++ rest) = some (m, (n : Int)) := by
  have htype : (UInt8.ofNat m.type).toNat = m.type := by cases m <;> rfl
  have hle : m.type ≤ 5 := by cases m <;> decide
  have hc : fileCompressor Γ (header m n ++ rest) = some m := by
    have hm' : compressors Γ m.type = some m := hm
    simp only [fileCompressor, header, magic, findCompressor, List.cons_append, List.take_succ_cons, List.take_zero,
      ne_eq, not_true_eq_false, if_false, List.drop_succ_cons, List.drop_zero, List.nil_append, List.headD_cons, htype,
      show ¬m.type > 5 by omega, hm']
  have hs : Bytes.slice (header m n ++ rest) 4 8 = Bytes.toLe 8 n := by
    rw [header, asU64_of_nat (by omega)]
    simp [Bytes.slice, magic]
  have hlt : n < 256 ^ 8 := by omega
  unfold parse
  rw [if_neg (by simp [headerSize]), hc, hs, Bytes.fromLe_toLe_of_lt hlt, asS64_of_lt hn]
  rfl

/-- The size in a header is a signed 64-bit number. -/
theorem parse_lt {Γ : Config} {data : Bytes} {m : Module} {n : Int} (h : parse Γ data = some (m, n)) : n < 2 ^ 63 := by
  unfold parse at h
  split at h
  · cases h
  · rw [Option.map_eq_some_iff] at h
    obtain ⟨m', -, hn⟩ := h
    have hlt := Bytes.fromLe_lt (Bytes.slice data 4 8)
    have hlen : (Bytes.slice data 4 8).length ≤ 8 := by
      rw [Bytes.length_slice]
      omega
    have hpow : 256 ^ (Bytes.slice data 4 8).length ≤ 256 ^ 8 := Nat.pow_le_pow_right (by decide) hlen
    rw [← (Prod.mk.inj hn).2, asS64]
    split
    · omega
    · omega

/-- A file that does not start with the magic bytes has no header. -/
theorem parse_of_not_magic {Γ : Config} {data : Bytes} (h : data.take 3 ≠ magic) : parse Γ data = none := by
  unfold parse fileCompressor
  simp [h]

/-! ## Which files are compressed -/

/-- `strstr(haystack, needle)` finds something. -/
def strstr : Filename → Filename → Bool
  | [], needle => needle.isEmpty
  | c :: haystack, needle => needle.isPrefixOf (c :: haystack) || strstr haystack needle

/-- `strcasestr(haystack, needle)` finds something. -/
def strcasestr (haystack needle : Filename) : Bool := strstr (haystack.map Char.toLower) (needle.map Char.toLower)

/-- The table `incompressible`. -/
def incompressible : List Filename :=
  [".mp3", ".ogg", ".wma", ".m4a", ".mp2",
   ".avi", ".mov", ".mpg", ".mpeg", ".mp4", ".m4v", ".mkv", ".asf", ".flv", ".3gp", ".vob", ".swf", ".ogm",
   ".gz", ".bz2", ".zip", ".tgz", ".lzo", ".lzma", ".rar", ".ace", ".7z", ".lha", ".lzh", ".chm", ".lrz", ".xz", ".odt",
   ".epub", ".xpi", ".lzx",
   ".jpg", ".png", ".djvu", ".cbr", ".cbz",
   ".rpm", ".deb", ".cab",
   ".cdz", ".cso",
   ".torrent",
   ".pack", ".wmv"].map String.toList

/-- The table `mmapped_dirs`. -/
def mmappedDirs : List Filename := ["bin/", "sbin/", "usr/bin/", "usr/sbin/"].map String.toList

/-- `FUSECOMPRESS_PREFIX`. -/
def fusecompressPrefix : Filename := "._fC".toList

/-- `TEMP`. -/
def tempName : Filename := fusecompressPrefix ++ "tmp".toList

/-- `FUSE`. -/
def fuseHidden : Filename := ".fuse_hidden".toList

/-- `is_compressible`. -/
def isCompressible (Γ : Config) (filename : Filename) : Bool :=
  !incompressible.any (strcasestr filename) && !Γ.userIncompressible.any (strcasestr filename)

/-- `is_excluded`. -/
def isExcluded (Γ : Config) (filename : Filename) : Bool := Γ.userExcludePaths.any (fun dir => dir.isPrefixOf filename)

/-- `rindex(name, '.')`: the part of a name from its last dot on. -/
def rindexDot : Filename → Option Filename
  | [] => none
  | c :: cs => (rindexDot cs).orElse (fun _ => if c = '.' then some (c :: cs) else none)

/-- The names left alone when mounted at `/` or `/usr`: binaries and shared objects. -/
def isMmapped (filename : Filename) : Bool :=
  mmappedDirs.any (fun dir => dir.isPrefixOf filename) ||
    match rindexDot filename with
    | none => false
    | some r => r = ".so".toList || strstr filename ".so.".toList

/-- `choose_compressor`, which looks at the name of the file only. -/
def chooseCompressor (Γ : Config) (filename : Filename) : Option Module :=
  if !isCompressible Γ filename then none
  else if strstr filename tempName then none
  else if strstr filename fuseHidden then none
  else if isExcluded Γ filename then none
  else if Γ.rootFs && isMmapped filename then none
  else some Γ.compressorDefault

/-- The only module ever chosen is the default one. -/
theorem chooseCompressor_eq {Γ : Config} {filename : Filename} {m : Module} (h : chooseCompressor Γ filename = some m) :
    m = Γ.compressorDefault := by
  unfold chooseCompressor at h
  split_ifs at h
  exact (Option.some.inj h).symm

/-- A `char`, which is signed, as it takes part in the arithmetic of an `unsigned int`. -/
def charToUnsigned (c : Char) : UInt32 := (UInt8.ofNat c.toNat).toInt8.toInt32.toUInt32

/-- `gethash`, in 32-bit arithmetic, of a name that is not empty. On the empty name its loop runs over the terminator. -/
def gethash (filename : Filename) : UInt32 := filename.foldl (fun h c => 31 * h + charToUnsigned c) 0

end FuseCompress
