import FuseCompress.Books
import FuseCompress.Interleaving

/-!
# What the data paths leave alone

The books of a state are what the accounting rests on: names, counts, lists of descriptors, status bits, the queue, the database.
Reading, writing, closing and decompressing leave the books as they are, but for one thing: `do_decompress` acknowledges a
cancellation of its own file.
-/

namespace FuseCompress

/-- The books are the same, but that a cancellation of one file may have been acknowledged. -/
def Books.Acked (b : Books) (f : Nat) (b' : Books) : Prop := b' = b ∨ ((b.status f).cancel = true ∧ b' = b.ack f)

/-- No cancellation was acknowledged. -/
theorem Books.Acked.same {b : Books} {f : Nat} : b.Acked f b := Or.inl (Eq.refl b)

section Basic

variable {s : State}

/-- A change of an entry that is not in the books. -/
@[simp] theorem books_modFile {g : FileT → FileT} (f : Nat)
    (h : ∀ x, (g x).filename = x.filename ∧ (g x).accesses = x.accesses ∧ (g x).head = x.head ∧ (g x).status = x.status ∧
      (g x).cond = x.cond ∧ (g x).locked = x.locked) : (s.modFile f g).books = s.books := by
  have key : ∀ f', (s.modFile f g).files f' = s.files f' ∨ (f' = f ∧ (s.modFile f g).files f' = g (s.files f)) := by
    intro f'
    by_cases e : f' = f
    · exact Or.inr ⟨e, by simp [e]⟩
    · exact Or.inl (by simp [e])
  have each : ∀ {β : Type} (π : FileT → β), (∀ x, π (g x) = π x) →
      (fun f' => π ((s.modFile f g).files f')) = fun f' => π (s.files f') := by
    intro β π hπ
    funext f'
    rcases key f' with e | ⟨rfl, e⟩
    · rw [e]
    · rw [e, hπ]
  unfold State.books
  rw [each (·.filename) (fun x => (h x).1), each (·.accesses) (fun x => (h x).2.1), each (·.head) (fun x => (h x).2.2.1),
    each (·.status) (fun x => (h x).2.2.2.1), each (·.cond) (fun x => (h x).2.2.2.2.1),
    each (·.locked) (fun x => (h x).2.2.2.2.2)]
  rfl

/-- A change of a descriptor that is not in the books. -/
@[simp] theorem books_modDesc {g : Desc → Desc} (d : Nat)
    (h : ∀ x, (g x).file = x.file ∧ (g x).live = x.live ∧ (g x).writable = x.writable) :
    (s.modDesc d g).books = s.books := by
  have key : ∀ d', (s.modDesc d g).descs d' = s.descs d' ∨ (d' = d ∧ (s.modDesc d g).descs d' = g (s.descs d)) := by
    intro d'
    by_cases e : d' = d
    · exact Or.inr ⟨e, by simp [e]⟩
    · exact Or.inl (by simp [e])
  have each : ∀ {β : Type} (π : Desc → β), (∀ x, π (g x) = π x) →
      (fun d' => π ((s.modDesc d g).descs d')) = fun d' => π (s.descs d') := by
    intro β π hπ
    funext d'
    rcases key d' with e | ⟨rfl, e⟩
    · rw [e]
    · rw [e, hπ]
  unfold State.books
  rw [each (·.file) (fun x => (h x).1), each (·.live) (fun x => (h x).2.1), each (·.writable) (fun x => (h x).2.2)]
  rfl

@[simp] theorem books_withFs (k : Backing → Backing) : (s.withFs k).books = s.books := rfl

@[simp] theorem books_abort : s.abort.books = s.books := rfl

/-- An assertion that fails aborts, and the books stay as they are. -/
@[simp] theorem books_assert (Γ : Config) (c : Bool) : (s.assert Γ c).books = s.books := by
  unfold State.assert
  split <;> rfl

end Basic

/-! ## `dedup.c` -/

section Dedup

variable (Γ : Config) (env : Env) (s : State) (f : Nat)

/-- `dedup_discard` takes a record out of the table of hashes, which is not in the books. -/
@[simp] theorem books_dedupDiscard : (dedupDiscard s f).books = s.books := by
  have h : (s.modFile f (fun file => { file with deduped := false })).books = s.books :=
    books_modFile f (fun _ => ⟨rfl, rfl, rfl, rfl, rfl, rfl⟩)
  unfold dedupDiscard
  split
  · rfl
  · dsimp only
    split <;> exact h

@[simp] theorem books_discard : (discard Γ s f).books = s.books := by
  unfold discard
  split
  · exact books_dedupDiscard s f
  · rfl

@[simp] theorem books_dedupRename (dst : Nat) : (dedupRename s f dst).books = s.books := by
  have h : ((dedupDiscard s dst).modFile dst
      (fun file => { file with deduped := ((dedupDiscard s dst).files f).deduped })).books = s.books := by
    simp
  unfold dedupRename
  dsimp only
  split <;> exact h

/-- `hardlink_file` works on names of the backing directory and not on those of the entries. -/
@[simp] theorem books_hardlinkFile (md5 : List UInt8) (p : Filename) : (hardlinkFile Γ env s md5 p).1.books = s.books := by
  unfold hardlinkFile
  split
  · rfl
  · split
    · rfl
    · split
      · rfl
      · dsimp only
        split <;> split <;> rfl

/-- `do_undedup` gives the entry an inode of its own under the same name. -/
@[simp] theorem books_doUndedup : (doUndedup Γ env s f).1.books = s.books := by
  unfold doUndedup
  dsimp only
  split
  · rfl
  · split
    · rfl
    · split
      · rfl
      · split
        · rfl
        · have h := books_dedupDiscard s f
          split
          · exact h
          · split
            · exact h
            · split
              · exact h
              · split <;> exact h

end Dedup

/-! ## `compress.c` -/

theorem flushFileCache_same (s : State) (f : Nat) : (flushFileCache s f).fs = s.fs ∧ (flushFileCache s f).descs = s.descs ∧
    ((flushFileCache s f).files f).head = (s.files f).head ∧
    ((flushFileCache s f).files f).filename = (s.files f).filename ∧
    ((flushFileCache s f).files f).compressor = (s.files f).compressor := by
  unfold flushFileCache
  split
  · exact ⟨rfl, rfl, rfl, rfl, rfl⟩
  · simp [State.modFile]

section Compress

variable (Γ : Config) (env : Env) (s : State) (f d : Nat)

/-- The cached pages are not in the books. -/
@[simp] theorem books_flushFileCache : (flushFileCache s f).books = s.books := by
  unfold flushFileCache
  split
  · rfl
  · exact books_modFile f (fun _ => ⟨rfl, rfl, rfl, rfl, rfl, rfl⟩)

@[simp] theorem books_directDelete : (directDelete s f).books = s.books := books_modFile f (fun _ => ⟨rfl, rfl, rfl, rfl, rfl, rfl⟩)

/-- Positions and contents are not in the books. -/
@[simp] theorem books_writeFd (fd : Fd) (buf : Bytes) : (writeFd s d fd buf).books = s.books := by
  unfold writeFd
  split <;> simp

@[simp] theorem books_codecClose (m : Module) : (codecClose Γ env s m d).books = s.books := by
  unfold codecClose
  split
  · split
    · exact books_writeFd _ _ _ _
    · rfl
  · rfl

@[simp] theorem books_closeHandle : (closeHandle Γ env s f d).books = s.books := by
  unfold closeHandle
  split <;> simp

@[simp] theorem books_restoreTimes (stbuf : Option Attr) : (restoreTimes env s f stbuf).books = s.books := by
  unfold restoreTimes
  split
  · split <;> rfl
  · rfl

/-- `direct_close` closes the handle, but takes no descriptor off the list. -/
@[simp] theorem books_directClose : (directClose Γ env s f d).books = s.books := by
  unfold directClose
  generalize (if env.ok .closeFstat = true then _ else none) = stbuf
  dsimp only
  split <;> simp

/-- `file_close` closes the descriptor of the backing file; the entry counts it until it is released. -/
@[simp] theorem books_fileClose : (fileClose Γ s d).books = s.books := by
  unfold fileClose
  simp [books_assert]

/-- `do_decompress` closes the descriptors, but keeps them on the list. -/
@[simp] theorem books_closeAll (ds : List Nat) : (closeAll Γ env s f ds).books = s.books := by
  induction ds generalizing s with
  | nil => rfl
  | cons d ds ih => rw [closeAll, ih, books_fileClose, books_directClose]

/-- The descriptors that are opened again are those that were closed. -/
@[simp] theorem books_reopenAll (temp : Nat) (ds : List Nat) : (reopenAll env s temp ds).books = s.books := by
  induction ds generalizing s with
  | nil => rfl
  | cons d ds ih => simp [reopenAll, ih]

/-- The temporary file takes the name of the old one. -/
@[simp] theorem books_doDecompressInstall (temp : Nat) (st : Attr) (size : Nat) :
    (doDecompressInstall env s f temp st size).1.books = s.books := by
  unfold doDecompressInstall
  dsimp only
  split
  · rw [books_withFs, books_reopenAll]
  · split
    · rw [books_withFs, books_withFs, books_reopenAll]
    · simp [books_withFs, books_withFs, books_withFs, books_reopenAll]

/-- The books after an acknowledgement. -/
theorem books_acknowledgeCancel : (s.modFile f acknowledgeCancel).books =
    if (s.files f).status.cancel then s.books.ack f else s.books := by
  have hne : ∀ f', f' ≠ f → (s.modFile f acknowledgeCancel).files f' = s.files f' := fun f' e => by simp [e]
  have heq : (s.modFile f acknowledgeCancel).files f = acknowledgeCancel (s.files f) := by simp
  by_cases h : (s.files f).status.cancel = true
  · rw [if_pos h]
    have ha : acknowledgeCancel (s.files f) =
        { s.files f with status := { (s.files f).status with cancel := false }, cond := (s.files f).cond + 1 } := if_pos h
    have each : ∀ {β : Type} (π : FileT → β), π (acknowledgeCancel (s.files f)) = π (s.files f) →
        (fun f' => π ((s.modFile f acknowledgeCancel).files f')) = fun f' => π (s.files f') := by
      intro β π hπ
      funext f'
      by_cases e : f' = f
      · rw [e, heq, hπ]
      · rw [hne f' e]
    have upd : ∀ {β : Type} (π : FileT → β), (fun f' => π ((s.modFile f acknowledgeCancel).files f')) =
        Function.update (fun f' => π (s.files f')) f (π (acknowledgeCancel (s.files f))) := by
      intro β π
      funext f'
      by_cases e : f' = f
      · rw [e, heq, Function.update_self]
      · rw [hne f' e, Function.update_of_ne e]
    unfold State.books Books.ack
    rw [each (·.filename) (by rw [ha]), each (·.accesses) (by rw [ha]), each (·.head) (by rw [ha]), each (·.locked) (by rw [ha]),
      upd (·.status), upd (·.cond), ha]
    rfl
  · rw [if_neg h]
    have ha : acknowledgeCancel (s.files f) = s.files f := if_neg h
    have : (s.modFile f acknowledgeCancel) = s := by
      unfold State.modFile
      rw [ha, Function.update_eq_self]
    rw [this]

/-- `do_decompress` leaves the books alone or acknowledges a cancellation of its file. -/
theorem acked_doDecompress : s.books.Acked f (doDecompress Γ env s f).1.books := by
  unfold doDecompress
  split
  · exact Or.inl rfl
  split
  · exact Or.inl rfl
  dsimp only
  split
  · exact Or.inl (books_flushFileCache s f)
  split
  · exact Or.inl (books_flushFileCache s f)
  split
  · exact Or.inl (by simp [books_flushFileCache])
  · rename_i src _ m size _
    -- everything up to the acknowledgement leaves the books alone
    generalize hs : closeAll Γ env _ f _ = s'
    have h' : s'.books = s.books := by
      simp [← hs]
    have hc : (s'.files f).status = (s.files f).status := congrFun (congrArg Books.status h') f
    split
    · exact Or.inl h'
    split
    · exact Or.inl h'
    have hack := books_acknowledgeCancel s' f
    generalize s'.modFile f acknowledgeCancel = s'' at hack ⊢
    rw [hc, h'] at hack
    have done : ∀ t : State, t.books = s''.books → s.books.Acked f t.books := by
      intro t ht
      rw [ht, hack]
      by_cases e : (s.files f).status.cancel = true
      · exact Or.inr ⟨e, if_pos e⟩
      · exact Or.inl (if_neg e)
    split
    · exact done _ rfl
    split
    · exact done _ rfl
    · exact done _ (by rw [books_doDecompressInstall, books_withFs])

end Compress

/-! ## `direct_compress.c` -/

section DirectCompress

variable (Γ : Config) (env : Env) (s : State) (m : Module) (f d : Nat)

/-- A read from the stream moves a handle, which is not in the books. -/
@[simp] theorem books_codecRead (n : Nat) : (codecRead Γ env s m d n).1.books = s.books := by
  unfold codecRead
  split
  · split
    · rfl
    · dsimp only
      simp
  · rfl

@[simp] theorem books_skipped (keep : Bool) (buf : Bytes) : (skipped s f d keep buf).books = s.books := by
  unfold skipped
  simp

/-- By induction on the rounds: each one counts, reads, and keeps a page. -/
@[simp] theorem books_skipLoop (cacheThis : Bool) (n toread : Nat) :
    (skipLoop Γ env m f d cacheThis n toread s).1.books = s.books := by
  induction n generalizing toread s with
  | zero => rfl
  | succ n ih =>
    unfold skipLoop
    split
    · rfl
    · dsimp only
      have h := books_codecRead Γ env (countPage s (keepPage Γ s f d cacheThis)) m d (min toread pageSize)
      split
      · rename_i s₁ e
        rw [e] at h
        exact h
      · rename_i s₁ buf e
        rw [e] at h
        replace h : s₁.books = s.books := h
        split
        · exact h
        · split
          · exact h
          · rw [ih, books_skipped, h]

/-- The read of `direct_decompress` proper, after the seek. -/
@[simp] theorem books_decompressRead (size : Nat) (served : Bytes) :
    (decompressRead Γ env s m f d size served).1.books = s.books := by
  unfold decompressRead
  dsimp only
  have h := books_codecRead Γ env s m d (cutSize (s.files f) (s.descs d).offset size)
  split
  · rename_i s₁ e
    rw [e] at h
    exact h
  · rename_i s₁ buf e
    rw [e] at h
    split
    · exact h
    · simpa using h

@[simp] theorem books_allocCache (cacheThis : Bool) : (allocCache s f cacheThis).books = s.books := by
  unfold allocCache
  split <;> simp

/-- The seek forward, and the read after it. -/
@[simp] theorem books_decompressSkip (size offset : Nat) (cacheThis : Bool) (served : Bytes) :
    (decompressSkip Γ env s m f d size offset cacheThis served).1.books = s.books := by
  unfold decompressSkip
  split
  · dsimp only
    generalize (cacheThis && _) = c
    split
    · rfl
    have h := books_skipLoop Γ env (allocCache s f c) m f d c (offset - (s.descs d).offset) (offset - (s.descs d).offset)
    rw [books_allocCache] at h
    split
    · rename_i s₁ r e
      rw [e] at h
      exact h
    · rename_i s₁ e
      rw [e] at h
      rw [books_decompressRead]
      exact h
  · exact books_decompressRead Γ env s m f d size served

@[simp] theorem books_openStream : (openStream Γ env s d).1.books = s.books := by
  unfold openStream
  split
  · rfl
  · exact books_assert Γ _
  · dsimp only
    split <;> simp

@[simp] theorem books_rewind : (rewind Γ env s m d).books = s.books := by
  unfold rewind
  simp

@[simp] theorem books_seekHeader : (seekHeader s d).books = s.books := by
  unfold seekHeader
  simp

/-- Opening the stream, or opening it again to go back. -/
@[simp] theorem books_decompressOpen (offset : Nat) : (decompressOpen Γ env s m d offset).1.books = s.books := by
  unfold decompressOpen
  split
  · split
    · rfl
    split
    · rfl
    split <;> simp
  · simp

/-- A read that is served from the cache. -/
@[simp] theorem books_serveCache (cacheThis : Bool) (size offset : Nat) :
    (serveCache s f cacheThis size offset).1.books = s.books := by
  unfold serveCache
  split
  · dsimp only
    split
    · rfl
    · rw [books_modFile]
      · rfl
      · simp
  · rfl

/-- `direct_decompress` gives up by `do_decompress`, which may acknowledge a cancellation. -/
theorem acked_directDecompress (size offset : Nat) : s.books.Acked f (directDecompress Γ env s m f d size offset).1.books := by
  unfold directDecompress
  dsimp only
  generalize (Γ.cacheDecompressedData && _ && _) = c
  generalize hs : (State.assert Γ s _).modFile f _ = s₁
  have h₁ : s₁.books = s.books := by
    rw [← hs]
    simp
  have h₂ := books_serveCache s₁ f c size offset
  rw [h₁] at h₂
  generalize serveCache s₁ f c size offset = r at h₂ ⊢
  obtain ⟨s₂, served, any⟩ := r
  dsimp only at h₂ ⊢
  split
  · exact Or.inl h₂
  split
  · have h₃ := acked_doDecompress Γ env s₂ f
    rw [h₂] at h₃
    split
    · rename_i s₃ e
      rw [e] at h₃
      exact h₃
    · rename_i s₃ e
      rw [e] at h₃
      simpa using h₃
  · have h₃ := books_decompressOpen Γ env s₂ m d (offset + served.length)
    rw [h₂] at h₃
    split
    · rename_i s₃ e
      rw [e] at h₃
      exact Or.inl h₃
    · rename_i s₃ e
      rw [e] at h₃
      rw [books_decompressSkip]
      exact Or.inl h₃

@[simp] theorem books_writeHeaderAt (fd : Fd) (size : Int) : (writeHeaderAt s d fd m size).books = s.books := by
  unfold writeHeaderAt
  simp

@[simp] theorem books_seekEnd : (seekEnd s d).books = s.books := by
  unfold seekEnd
  simp

/-- The first compressed write sets the module and the size, and writes the header. -/
@[simp] theorem books_compressOpen (fd : Fd) : (compressOpen Γ env s m f d fd).1.books = s.books := by
  unfold compressOpen
  dsimp only
  split
  · simp
  · split <;> simp

/-- The write to the stream, and the header again when the module is to keep it in step. -/
@[simp] theorem books_compressWrite (buf : Bytes) : (compressWrite Γ env s m f d buf).1.books = s.books := by
  unfold compressWrite
  split
  · split
    · rfl
    · dsimp only
      split <;> simp
  · rfl

/-- `direct_compress` gives up by `do_decompress`, which may acknowledge a cancellation. -/
theorem acked_directCompress (buf : Bytes) (offset : Nat) :
    s.books.Acked f (directCompress Γ env s m f d buf offset).1.books := by
  unfold directCompress
  dsimp only
  generalize hs : (flushFileCache _ f).modFile f _ = s₁
  have h₁ : s₁.books = s.books := by
    rw [← hs]
    simp
  split
  · have h₂ := acked_doDecompress Γ env s₁ f
    rw [h₁] at h₂
    split
    · rename_i s₂ e
      rw [e] at h₂
      exact h₂
    · rename_i s₂ e
      rw [e] at h₂
      simpa using h₂
  · split
    · rename_i fd _ _
      have h₂ := books_compressOpen Γ env s₁ m f d fd
      split
      · rename_i s₂ e
        rw [e] at h₂
        exact Or.inl (h₂.trans h₁)
      · rename_i s₂ e
        rw [e] at h₂
        rw [books_compressWrite]
        exact Or.inl (h₂.trans h₁)
    · rw [books_compressWrite]
      exact Or.inl h₁

end DirectCompress

end FuseCompress
