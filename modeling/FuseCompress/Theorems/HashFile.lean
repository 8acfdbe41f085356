import FuseCompress.Lemmas.Reading
import FuseCompress.Theorems.Tables

/-!
# What `dedup_hash_file` hashes

`dedup_hash_file` takes a file for compressed when it can read its first three bytes and they are the magic ones, and then hashes all
that the module delivers. The reader asks for a whole valid header, and for as many bytes as it names. The two agree on a file exactly
when it has no magic bytes, or a valid header and a stream that breaks or is as long as the header says. On a file with the magic
bytes and no valid header `dedup_hash_file` calls through a pointer that was never set. When the magic bytes cannot be read, the
bytes of the file are hashed, whatever they are.
-/

namespace FuseCompress

/-- How far `dedup_hash_file` has got after a number of steps, on a file that nobody changes. -/
def hashRun (Γ : Config) (envs : Nat → Env) (s : State) (name : Filename) : Nat → State × HashPc
  | 0 => (s, .start)
  | n + 1 => hashStep Γ (envs n) (hashRun Γ envs s name n).1 name (hashRun Γ envs s name n).2

/-- The file of an entry is opened and read at once from beginning to end, and gives `content`. -/
def ReadsWhole (Γ : Config) (s : State) (f : Nat) (content : Bytes) : Prop :=
  ∃ s' d, openLocked Γ .fine s f (s.files f).filename false = (s', .opened d) ∧
    (s'.files f).size = (content.length : Int) ∧
    (fusecompressRead Γ .fine s' d content.length 0).2 = ((content.length : Int), content)

/-- `dedup_hash_file` ends without bringing down the process, and when it gives a digest, the file can be read and the digest is that
of the bytes so read. -/
def HashAgrees (Γ : Config) (s : State) (f : Nat) (envs : Nat → Env) : Prop :=
  ∃ n hash, hashRun Γ envs s (s.files f).filename n = (s, .finished hash) ∧
    ∀ md5, hash = some md5 → ∃ content, ReadsWhole Γ s f content ∧ md5 = Γ.md5 content

/-- A file that `dedup_hash_file` can be given. When its magic bytes can be read, they are not there, or the file has a valid header,
and if its stream can be decoded, as many bytes as the header says. When they cannot be read, it has no valid header, or the
bytes that its header promises are those of the file itself. -/
def Hashable (Γ : Config) (data : Bytes) (readMagic : Bool) : Prop :=
  if readMagic then
    data.take 3 = magic → ∃ m n, parse Γ data = some (m, n) ∧
      ∀ d, (Γ.codec m).decode (data.drop headerSize) = some d → (d.length : Int) = n
  else
    ∀ m n, parse Γ data = some (m, n) → (data.length : Int) = n ∧
      ∃ d, (Γ.codec m).decode (data.drop headerSize) = some d ∧ d.take data.length = data

/-- The calls that the loop of `dedup_hash_file` makes succeed. -/
def Env.Reads (env : Env) : Prop := env.ok .read = true ∧ env.ok .codecRead = true

variable {Γ : Config} {envs : Nat → Env} {s : State} {name : Filename} {f i d : Nat} {m : Module}

/-! ## The loop -/

/-- `dedup_hash_file` stays at its end. -/
theorem hashRun_finished {n k : Nat} {s' : State} {hash : Option (List UInt8)}
    (h : hashRun Γ envs s name n = (s', .finished hash)) (hle : n ≤ k) : hashRun Γ envs s name k = (s', .finished hash) := by
  induction k, hle using Nat.le_induction with
  | base => exact h
  | succ k _ ih => rw [hashRun, ih]; rfl

/-- It ends in one way only. -/
theorem hashRun_unique {n k : Nat} {s₁ s₂ : State} {h₁ h₂ : Option (List UInt8)}
    (hn : hashRun Γ envs s name n = (s₁, .finished h₁)) (hk : hashRun Γ envs s name k = (s₂, .finished h₂)) :
    s₁ = s₂ ∧ h₁ = h₂ := by
  have hn' := hashRun_finished hn (Nat.le_max_left n k)
  rw [hashRun_finished hk (Nat.le_max_right n k)] at hn'
  cases hn'
  exact ⟨rfl, rfl⟩

/-- At the places `pc` the loop reads `d`, part by part: a step takes the next part, or comes to the end, or meets a failing
call. -/
def LoopReads (Γ : Config) (s : State) (name : Filename) (pc : Bytes → HashPc) (d : Bytes) : Prop :=
  ∀ env got, (¬env.Reads ∧ hashStep Γ env s name (pc got) = (s, .finished none)) ∨
    hashStep Γ env s name (pc got) =
      (s, if Bytes.slice d got.length pageSize = [] then .finished (some (Γ.md5 got))
        else pc (got ++ Bytes.slice d got.length pageSize))

/-- How `dedup_hash_file` ends when it reads `d`: it fails, or gives the digest of `d`, and does give it when nothing fails. -/
def EndsWith (Γ : Config) (envs : Nat → Env) (s : State) (name : Filename) (d : Bytes) : Prop :=
  ∃ n hash, hashRun Γ envs s name n = (s, .finished hash) ∧ (hash = none ∨ hash = some (Γ.md5 d)) ∧
    ((∀ n, (envs n).Reads) → hash = some (Γ.md5 d))

/-- One step of the loop brings it to its end, or further into the file. -/
theorem LoopReads.advance {pc : Bytes → HashPc} {d : Bytes} (h : LoopReads Γ s name pc d) {got : Bytes}
    (hgot : got = d.take got.length) {pos : Nat} (hpos : hashRun Γ envs s name pos = (s, pc got)) :
    EndsWith Γ envs s name d ∨
      ∃ got', got' = d.take got'.length ∧ got.length < got'.length ∧ hashRun Γ envs s name (pos + 1) = (s, pc got') := by
  have hstep : hashRun Γ envs s name (pos + 1) = hashStep Γ (envs pos) s name (pc got) := by rw [hashRun, hpos]
  rcases h (envs pos) got with ⟨hfail, hnone⟩ | hnext
  · exact Or.inl ⟨pos + 1, none, hstep.trans hnone, Or.inl rfl, fun hok => absurd (hok pos) hfail⟩
  · rw [hnext] at hstep
    have hlen : (Bytes.slice d got.length pageSize).length = min pageSize (d.length - got.length) := Bytes.length_slice _ _ _
    have hpage : 0 < pageSize := by decide
    by_cases hend : Bytes.slice d got.length pageSize = []
    · rw [if_pos hend] at hstep
      have hall : got = d := by
        rw [hend, List.length_nil] at hlen
        rw [hgot]
        exact List.take_of_length_le (by omega)
      rw [hall] at hstep
      exact Or.inl ⟨pos + 1, _, hstep, Or.inr rfl, fun _ => rfl⟩
    · rw [if_neg hend] at hstep
      have hpart : got ++ Bytes.slice d got.length pageSize = d.take (got.length + pageSize) := by
        calc got ++ Bytes.slice d got.length pageSize
            = d.take got.length ++ Bytes.slice d got.length pageSize := congrArg (· ++ _) hgot
          _ = d.take (got.length + pageSize) := Bytes.take_append_slice _ _ _
      have hmore : 0 < (Bytes.slice d got.length pageSize).length := List.length_pos_iff.mpr hend
      refine Or.inr ⟨_, ?_, ?_, hstep⟩
      · rw [hpart, List.length_take, List.take_eq_take_iff]
        omega
      · rw [List.length_append]
        omega

/-- The loop comes to its end from wherever it has got to. -/
theorem LoopReads.ends {pc : Bytes → HashPc} {d : Bytes} (h : LoopReads Γ s name pc d) (k : Nat) {got : Bytes}
    (hgot : got = d.take got.length) (hk : d.length < got.length + k) {pos : Nat}
    (hpos : hashRun Γ envs s name pos = (s, pc got)) : EndsWith Γ envs s name d := by
  induction k generalizing got pos with
  | zero =>
    rw [hgot, List.length_take] at hk
    omega
  | succ k ih =>
    rcases h.advance hgot hpos with hend | ⟨got', hgot', hlt, hpos'⟩
    · exact hend
    · exact ih hgot' (by omega) hpos'

/-- From its start on, the loop reads everything. -/
theorem LoopReads.ends_nil {pc : Bytes → HashPc} {d : Bytes} (h : LoopReads Γ s name pc d) {pos : Nat}
    (hpos : hashRun Γ envs s name pos = (s, pc [])) : EndsWith Γ envs s name d :=
  h.ends (d.length + 1) rfl (by simp) hpos

theorem loopReads_raw : LoopReads Γ s name (.raw i) (s.data i) := by
  intro env got
  by_cases hok : env.ok .read = true
  · right
    rw [hashStep, if_neg (by simp [hok])]
    split <;> rfl
  · left
    refine ⟨fun hall => hok hall.1, ?_⟩
    rw [hashStep, if_pos (by simpa using hok)]

theorem loopReads_packed {d : Bytes} (hdecode : (Γ.codec m).decode ((s.data i).drop headerSize) = some d) :
    LoopReads Γ s name (.packed i m) d := by
  intro env got
  by_cases hok : env.ok .codecRead = true
  · right
    rw [hashStep, if_pos hok, hdecode]
    simp only
    split <;> rfl
  · left
    refine ⟨fun hall => hok hall.2, ?_⟩
    rw [hashStep, if_neg hok]

/-! ## The file as the reader sees it -/

/-- The first request to a file that has just been opened, for all of it: the module delivers the whole stream, or less than the size
says, or fails. -/
theorem directDecompress_first {n : Nat} (hlt : n < 2 ^ 63)
    (hdesc : s.descs d = { file := f, fd := some ⟨i, headerSize⟩, writable := false, handle := none, offset := 0, live := true })
    (htype : (s.files f).type ≠ .write) (hcache : (s.files f).cache = none) (hsize : (s.files f).size = (n : Int)) :
    (directDecompress Γ .fine s m f d n 0).2 =
      match (Γ.codec m).decode ((s.data i).drop headerSize) with
      | none => .done (-1) []
      | some b => if (b.take n).length < n then .done (-1) [] else .done (n : Int) (b.take n) := by
  obtain ⟨c, hc⟩ : ∃ c : Bool, c = (Γ.cacheDecompressedData && decide (0 % pageSize = 0) && decide (n % pageSize = 0)) := ⟨_, rfl⟩
  obtain ⟨s₁, hs₁⟩ : ∃ s₁, s₁ = s.modFile f (fun file => { file with type := if file.type = .unset then .read else file.type }) :=
    ⟨_, rfl⟩
  have htype₁ : (s₁.files f).type = .read := by
    rw [hs₁, State.files_modFile, if_pos rfl]
    cases ht : (s.files f).type with
    | unset => rfl
    | read => rfl
    | write => exact absurd ht htype
  have hdesc₁ : s₁.descs d = s.descs d := by rw [hs₁]; rfl
  have hserve : serveCache s₁ f c n 0 = (s₁, [], false) := by
    unfold serveCache
    split
    · rw [hs₁, State.files_modFile, if_pos rfl, hcache]
      rfl
    · rfl
  have hstay : readFallback Γ (s₁.files f) s₁.decompCacheSize c (s₁.descs d).offset 0 = false := by
    unfold readFallback
    rw [htype₁, hdesc₁, hdesc]
    simp
  have hopened : decompressOpen Γ .fine s₁ m d 0 =
      (s₁.modDesc d (fun desc => { desc with handle := some (.reading headerSize 0) }), true) := by
    unfold decompressOpen openStream
    rw [hdesc₁, hdesc, if_neg (Nat.lt_irrefl 0)]
    dsimp only
    rw [decide_eq_true rfl, State.assert_true]
    rfl
  rw [directDecompress_served .fine (by rw [hdesc]) hc hs₁ hserve, if_neg (fun hn => by cases hn.1), List.length_nil, Nat.add_zero,
    hstay, if_neg Bool.false_ne_true, hopened, Nat.sub_zero]
  obtain ⟨s₂, hs₂⟩ : ∃ s₂, s₂ = s₁.modDesc d (fun desc => { desc with handle := some (.reading headerSize 0) }) := ⟨_, rfl⟩
  have hdesc₂ : s₂.descs d =
      { file := f, fd := some ⟨i, headerSize⟩, writable := false, handle := some (.reading headerSize 0), offset := 0, live := true } := by
    rw [hs₂, State.descs_modDesc, if_pos rfl, hdesc₁, hdesc]
  have hdata₂ : s₂.data i = s.data i := by rw [hs₂, hs₁]; rfl
  have hcut : cutSize (s₂.files f) (s₂.descs d).offset n = n := by
    have hsize₂ : (s₂.files f).size = (n : Int) := by
      rw [hs₂, State.files_modDesc, hs₁, State.files_modFile, if_pos rfl]
      exact hsize
    unfold cutSize
    have hn : asU64 (n : Int) = n := by
      unfold asU64
      omega
    rw [hsize₂, hdesc₂]
    dsimp only
    rw [hn, if_neg (by omega)]
  rw [← hs₂]
  dsimp only
  unfold decompressSkip
  rw [hdesc₂, if_neg (Nat.lt_irrefl 0)]
  unfold decompressRead
  dsimp only
  rw [hcut]
  unfold codecRead
  rw [hdesc₂]
  dsimp only
  rw [hdata₂, if_pos (show Env.fine.ok .codecRead = true from rfl)]
  cases (Γ.codec m).decode ((s.data i).drop headerSize) with
  | none => rfl
  | some b =>
    dsimp only
    rw [Bytes.slice, List.drop_zero]
    split
    · rfl
    · rename_i hlen
      have hlen' : (b.take n).length = n := by
        rw [List.length_take] at hlen ⊢
        omega
      rw [List.length_nil, Nat.add_zero, List.nil_append, hlen']

/-- A compressed file is read whole when its size is the number of bytes read, and its stream has as many. -/
theorem readsWhole_packed_iff {content : Bytes} {n : Int} (hino : s.fs.inoOf (s.files f).filename = some i)
    (hparse : parse Γ (s.data i) = some (m, n)) (htype : (s.files f).type ≠ .write) (hcache : (s.files f).cache = none) :
    ReadsWhole Γ s f content ↔ (content.length : Int) = n ∧
      ∃ b, (Γ.codec m).decode ((s.data i).drop headerSize) = some b ∧ b.take content.length = content := by
  have hlen : headerSize ≤ (s.data i).length := by
    by_contra hn
    rw [parse, if_pos (by omega)] at hparse
    cases hparse
  obtain ⟨s', hs'⟩ : ∃ s', s' = (openLocked Γ .fine s f (s.files f).filename false).1 := ⟨_, rfl⟩
  have hopen : openLocked Γ .fine s f (s.files f).filename false = (s', .opened s.nextDesc) := by
    rw [hs', openLocked_eq (fun _ => rfl) hino, if_pos hlen]
    rfl
  rw [openLocked_eq (fun _ => rfl) hino, if_pos hlen, fileReadHeader_of_parse hparse] at hs'
  have hsize : (s'.files f).size = n := by rw [hs']; simp [openDescriptor, noteLinks]
  have hread : ∀ k : Nat, (k : Int) = n → (fusecompressRead Γ .fine s' s.nextDesc k 0).2 =
      match (Γ.codec m).decode ((s.data i).drop headerSize) with
      | none => (-1, [])
      | some b => if (b.take k).length < k then (-1, []) else ((k : Int), b.take k) := by
    rintro k rfl
    have hdesc : s'.descs s.nextDesc =
        { file := f, fd := some ⟨i, headerSize⟩, writable := false, handle := none, offset := 0, live := true } := by
      rw [hs']
      simp [openDescriptor, noteLinks]
    have hdata : s'.data i = s.data i := by rw [hs']; rfl
    have hfirst := directDecompress_first (Γ := Γ) (m := m) (Int.ofNat_lt.mp (parse_lt hparse)) hdesc (by rw [hs']; simpa [openDescriptor, noteLinks] using htype)
      (by rw [hs']; simpa [openDescriptor, noteLinks] using hcache) hsize
    rw [hdata] at hfirst
    have hcomp : (s'.files f).compressor = some m := by rw [hs']; simp [openDescriptor, noteLinks]
    unfold fusecompressRead readLocked
    rw [hdesc]
    dsimp only
    rw [hcomp]
    dsimp only
    generalize directDecompress Γ .fine s' m f s.nextDesc k 0 = r at hfirst ⊢
    obtain ⟨s₂, next⟩ := r
    dsimp only at hfirst
    rw [hfirst]
    cases (Γ.codec m).decode ((s.data i).drop headerSize) with
    | none => rfl
    | some b =>
      dsimp only
      by_cases hshort : (b.take k).length < k
      · rw [if_pos hshort, if_pos hshort]
        rfl
      · rw [if_neg hshort, if_neg hshort]
        dsimp only
        rw [if_neg (by omega)]
  constructor
  · rintro ⟨s'', d, hopen', hsize', hread'⟩
    rw [hopen] at hopen'
    cases hopen'
    have hn := hsize'.symm.trans hsize
    refine ⟨hn, ?_⟩
    rw [hread _ hn] at hread'
    cases hdecode : (Γ.codec m).decode ((s.data i).drop headerSize) with
    | none =>
      rw [hdecode] at hread'
      have := congrArg Prod.fst hread'
      simp only at this
      omega
    | some b =>
      rw [hdecode] at hread'
      dsimp only at hread'
      refine ⟨b, rfl, ?_⟩
      split at hread'
      · have := congrArg Prod.fst hread'
        simp only at this
        omega
      · exact congrArg Prod.snd hread'
  · rintro ⟨hn, b, hdecode, htake⟩
    refine ⟨s', s.nextDesc, hopen, hsize.trans hn.symm, ?_⟩
    rw [hread _ hn, hdecode]
    dsimp only
    rw [htake, if_neg (Nat.lt_irrefl _)]

/-- A raw file is read as it is. -/
theorem readsWhole_raw (hino : s.fs.inoOf (s.files f).filename = some i) (hparse : parse Γ (s.data i) = none) :
    ReadsWhole Γ s f (s.data i) := by
  obtain ⟨s', hopen, hraw, hsize⟩ := openLocked_unpacked Env.allOk_fine hino hparse
  refine ⟨s', s.nextDesc, hopen, hsize, ?_⟩
  rw [fusecompressRead_unpacked (fun _ => rfl) hraw (List.mem_singleton.mpr rfl), Bytes.slice, List.drop_zero, List.take_length]

/-! ## The start -/

/-- The first step goes to the end, or to the loop over a raw or a compressed file, or brings down the process. -/
theorem hashRun_one (envs : Nat → Env) (hino : s.fs.inoOf name = some i) :
    hashRun Γ envs s name 1 = (s, .finished none) ∨
      (((envs 0).ok .readMagic = false ∨ (s.data i).take 3 ≠ magic) ∧ hashRun Γ envs s name 1 = (s, .raw i [])) ∨
      ((envs 0).ok .readMagic = true ∧ (s.data i).take 3 = magic ∧
        ((∃ m n, parse Γ (s.data i) = some (m, n) ∧ hashRun Γ envs s name 1 = (s, .packed i m [])) ∨
          (parse Γ (s.data i) = none ∧ hashRun Γ envs s name 1 = (s.abort, .finished none)))) := by
  have hone : hashRun Γ envs s name 1 = hashStep Γ (envs 0) s name .start := rfl
  rw [hone, hashStep]
  by_cases hopen : (envs 0).ok .open = true
  · rw [if_pos hopen, hino]
    dsimp only
    unfold hashStart
    by_cases hraw : (envs 0).ok .readMagic = false ∨ (s.data i).take 3 ≠ magic
    · rw [if_pos hraw]
      exact Or.inr (Or.inl ⟨hraw, rfl⟩)
    · rw [if_neg hraw]
      obtain ⟨hfirst, hmagic⟩ := not_or.mp hraw
      by_cases hread : (envs 0).ok .readHeader = false
      · rw [if_pos hread]
        exact Or.inl rfl
      · rw [if_neg hread]
        cases hparse : parse Γ (s.data i) with
        | none => exact Or.inr (Or.inr ⟨by simpa using hfirst, not_not.mp hmagic, Or.inr ⟨rfl, rfl⟩⟩)
        | some r =>
          obtain ⟨m, n⟩ := r
          dsimp only
          by_cases hcodec : (envs 0).ok .codecOpen = true
          · rw [if_pos hcodec]
            exact Or.inr (Or.inr ⟨by simpa using hfirst, not_not.mp hmagic, Or.inl ⟨m, n, rfl, rfl⟩⟩)
          · rw [if_neg hcodec]
            exact Or.inl rfl
  · rw [if_neg hopen]
    exact Or.inl rfl

/-! ## The digest and the reader -/

/-- On a file that can be hashed, `dedup_hash_file` and the reader agree. -/
theorem hashAgrees_of_hashable (hino : s.fs.inoOf (s.files f).filename = some i) (htype : (s.files f).type ≠ .write)
    (hcache : (s.files f).cache = none) (h : Hashable Γ (s.data i) ((envs 0).ok .readMagic)) : HashAgrees Γ s f envs := by
  have hdigest : ∀ d, EndsWith Γ envs s (s.files f).filename d → ReadsWhole Γ s f d → HashAgrees Γ s f envs := by
    rintro d ⟨n, hash, hrun, hhash, -⟩ hwhole
    refine ⟨n, hash, hrun, ?_⟩
    rintro md5 rfl
    rcases hhash with hnone | hsome
    · cases hnone
    · exact ⟨d, hwhole, Option.some.inj hsome⟩
  have hfailed : ∀ n, hashRun Γ envs s (s.files f).filename n = (s, .finished none) → HashAgrees Γ s f envs :=
    fun n hrun => ⟨n, none, hrun, fun _ hn => (by cases hn)⟩
  unfold Hashable at h
  rcases hashRun_one envs hino with hone | ⟨hraw, hone⟩ | ⟨hfirst, hmagic, hpacked⟩
  · exact hfailed 1 hone
  · refine hdigest _ (loopReads_raw.ends_nil hone) ?_
    cases hparse : parse Γ (s.data i) with
    | none => exact readsWhole_raw hino hparse
    | some r =>
      -- a file with a valid header whose magic bytes could not be read
      obtain ⟨m, n⟩ := r
      have hfirst : (envs 0).ok .readMagic = false :=
        hraw.resolve_right (fun hn => by rw [parse_of_not_magic hn] at hparse; cases hparse)
      rw [hfirst, if_neg Bool.false_ne_true] at h
      exact (readsWhole_packed_iff hino hparse htype hcache).mpr (h m n hparse)
  · rw [hfirst, if_pos rfl] at h
    obtain ⟨m, n, hparse, hlen⟩ := h hmagic
    rcases hpacked with ⟨m', n', hparse', hone⟩ | ⟨hparse', -⟩
    · rw [hparse] at hparse'
      cases hparse'
      cases hdecode : (Γ.codec m).decode ((s.data i).drop headerSize) with
      | none =>
        -- the stream is broken
        refine hfailed 2 ?_
        rw [hashRun, hone, hashStep, hdecode]
        split
        · rfl
        · rename_i hn
          split at hn <;> cases hn
      | some d =>
        exact hdigest d ((loopReads_packed hdecode).ends_nil hone)
          ((readsWhole_packed_iff hino hparse htype hcache).mpr ⟨hlen d hdecode, d, hdecode, List.take_length⟩)
    · rw [hparse] at hparse'
      cases hparse'

/-- Nothing fails, except for the `read` of the magic bytes. -/
def Env.first (readMagic : Bool) : Env := { Env.fine with ok := fun c => readMagic || decide (c ≠ .readMagic) }

theorem Env.first_reads (r : Bool) : (Env.first r).Reads := by cases r <;> exact ⟨rfl, rfl⟩

/-- The first step of hashing a file when nothing fails but the `read` of the magic bytes. -/
theorem hashRun_first (hino : s.fs.inoOf name = some i) (r : Bool) :
    hashRun { Γ with md5 := id } (fun _ => .first r) s name 1 =
      if r = false ∨ (s.data i).take 3 ≠ magic then (s, .raw i [])
      else
        match parse Γ (s.data i) with
        | none => (s.abort, .finished none)
        | some (m, _) => (s, .packed i m []) := by
  have hok : (Env.first r).ok .readMagic = r := by cases r <;> rfl
  have hother : ∀ c, c ≠ .readMagic → (Env.first r).ok c = true := fun c hc => by simp [Env.first, hc]
  change hashStep { Γ with md5 := id } (.first r) s name .start = _
  rw [hashStep, hother .open Call.noConfusion, if_pos rfl, hino, hok, hother .readHeader Call.noConfusion]
  dsimp only
  unfold hashStart
  by_cases hraw : r = false ∨ (s.data i).take 3 ≠ magic
  · rw [if_pos hraw, if_pos hraw]
  · rw [if_neg hraw, if_neg hraw, if_neg (fun hn => by cases hn)]
    rw [show parse { Γ with md5 := id } (s.data i) = parse Γ (s.data i) from rfl]
    cases parse Γ (s.data i) with
    | none => rfl
    | some p => exact if_pos (hother .codecOpen Call.noConfusion)

/-- Where `dedup_hash_file` and the reader agree, whatever the digest function, the file can be hashed. -/
theorem hashable_of_hashAgrees (hino : s.fs.inoOf (s.files f).filename = some i) (htype : (s.files f).type ≠ .write)
    (hcache : (s.files f).cache = none) (hrunning : s.aborted = false) {r : Bool}
    (h : HashAgrees { Γ with md5 := id } s f (fun _ => .first r)) : Hashable Γ (s.data i) r := by
  obtain ⟨n, hash, hrun, hcontent⟩ := h
  have hone := hashRun_first (Γ := Γ) hino r
  have hwhole : ∀ {d}, EndsWith { Γ with md5 := id } (fun _ => .first r) s (s.files f).filename d →
      ReadsWhole { Γ with md5 := id } s f d := by
    rintro d ⟨n', hash', hrun', -, hdigest⟩
    obtain ⟨content, hwhole, hd⟩ :=
      hcontent d ((hashRun_unique hrun hrun').2.trans (hdigest (fun _ => Env.first_reads r)))
    rw [show d = content from hd]
    exact hwhole
  unfold Hashable
  cases r with
  | true =>
    rw [if_pos rfl]
    intro hmagic
    rw [if_neg (by simp [hmagic])] at hone
    cases hparse : parse Γ (s.data i) with
    | none =>
      rw [hparse] at hone
      have habort := congrArg State.aborted (hashRun_unique hrun hone).1
      rw [hrunning] at habort
      cases habort
    | some p =>
      obtain ⟨m, k⟩ := p
      rw [hparse] at hone
      refine ⟨m, k, rfl, ?_⟩
      intro d hdecode
      have hends := (loopReads_packed (Γ := { Γ with md5 := id }) (s := s) (i := i) (m := m) hdecode).ends_nil hone
      exact ((readsWhole_packed_iff (Γ := { Γ with md5 := id }) hino hparse htype hcache).mp (hwhole hends)).1
  | false =>
    rw [if_neg Bool.false_ne_true]
    intro m k hparse
    rw [if_pos (Or.inl rfl)] at hone
    have hends := (loopReads_raw (Γ := { Γ with md5 := id }) (s := s) (i := i)).ends_nil hone
    exact (readsWhole_packed_iff (Γ := { Γ with md5 := id }) hino hparse htype hcache).mp (hwhole hends)

/-- A process that has found the file `x` with some contents, and has nothing open. -/
def State.holding (content : Bytes) : State := (directOpen .plain .fine (State.mounted (.fileAt ['x'] content)) ['x']).1

end FuseCompress
