import FuseCompress.Lemmas.Streams

/-!
# What the requests do with handles

One lemma for each function that works on descriptors: it keeps the streams sound, and its list of events takes the open handles before
it to those after it.
-/

namespace FuseCompress

/-! ## Closing -/

section closing

variable {Γ : Config} {env : Env} {s t : State} {f d : Nat}

/-- `direct_close` closes the handle of a descriptor, whatever `close` returns. -/
theorem streams_directClose (hmodule : s.streams.hasModule f = true) : (directClose Γ env s f d).streams = s.streams.close d := by
  have hclose : (closeHandle Γ env s f d).streams = s.streams.close d := by
    unfold closeHandle
    split
    · rename_i hnone
      have hclosed : s.streams.isOpen d = false := by
        rw [isOpen_streams, hnone]
        rfl
      unfold Streams.close
      rw [← hclosed, Function.update_eq_self]
    · rename_i hnone
      rw [hasModule_streams, hnone] at hmodule
      cases hmodule
    · rename_i handle m hhandle _
      have hcodec : (codecClose Γ env s m d).streams = s.streams := streams_codecClose m
      rw [streams_closeDesc, hcodec]
      rw [hcodec]
      unfold State.streams
      dsimp only
      rw [hhandle]
      rfl
  unfold directClose
  generalize (if env.ok .closeFstat = true then _ else none) = stbuf
  dsimp only
  split
  · rw [streams_modFile_same rfl rfl, streams_restoreTimes, hclose]
  · rw [streams_restoreTimes, hclose]

theorem closeEvents_eq (hmodule : s.streams.hasModule f = true) :
    closeEvents s f d = if s.streams.isOpen d then [.closed d] else [] := by
  unfold closeEvents
  rw [hasModule_streams] at hmodule
  rw [hmodule, Bool.and_true, isOpen_streams]

theorem uses_directClose (hmodule : s.streams.hasModule f = true) : s.Uses (closeEvents s f d) (directClose Γ env s f d) := by
  intro hs
  rw [streams_directClose hmodule, closeEvents_eq hmodule]
  exact ⟨hs.close d, execute_closed s.streams d⟩

/-- `do_decompress` closes the handles of the descriptors of its file. -/
theorem uses_closeAll (Γ : Config) (env : Env) (ds : List Nat) (hmodule : s.streams.hasModule f = true) :
    s.Uses (closeAllEvents Γ env s f ds) (closeAll Γ env s f ds) ∧
      (closeAll Γ env s f ds).streams = s.streams.closeAll ds := by
  induction ds generalizing s with
  | nil => exact ⟨.same rfl, rfl⟩
  | cons d ds ih =>
    rw [closeAll, closeAllEvents]
    have hclose : (fileClose Γ (directClose Γ (env.of d) s f d) d).streams = s.streams.close d := by
      rw [streams_fileClose, streams_directClose hmodule]
    obtain ⟨huses, hstreams⟩ := ih (s := fileClose Γ (directClose Γ (env.of d) s f d) d) (by rw [hclose]; exact hmodule)
    refine ⟨((uses_directClose hmodule).then_same streams_fileClose).trans huses, ?_⟩
    rw [hstreams, hclose]
    rfl

/-- `fusecompress_truncate` does the same. -/
theorem uses_truncateClose (Γ : Config) (env : Env) (ds : List Nat) (hmodule : s.streams.hasModule f = true) :
    s.Uses (truncateCloseEvents Γ env s f ds) (truncateClose Γ env s f ds) ∧
      (truncateClose Γ env s f ds).streams = s.streams.closeAll ds := by
  induction ds generalizing s with
  | nil => exact ⟨.same rfl, rfl⟩
  | cons d ds ih =>
    rw [truncateClose, truncateCloseEvents]
    generalize ht : (directClose Γ (env.of d) s f d).modDesc d _ = t
    have hseek : t.streams = (directClose Γ (env.of d) s f d).streams := by
      rw [← ht]
      exact streams_modDesc_same rfl rfl rfl rfl
    have hclose : t.streams = s.streams.close d := by rw [hseek, streams_directClose hmodule]
    obtain ⟨huses, hstreams⟩ := ih (s := t) (by rw [hclose]; exact hmodule)
    refine ⟨((uses_directClose hmodule).then_same hseek).trans huses, ?_⟩
    rw [hstreams, hclose]
    rfl

theorem streams_doDecompressInstall {temp : Nat} {st : Attr} {size : Nat} :
    (doDecompressInstall env s f temp st size).1.streams = s.streams ∨
      (doDecompressInstall env s f temp st size).1.streams = s.streams.setModule f false := by
  have hreopen : (reopenAll env s temp (s.files f).head).streams = s.streams := streams_reopenAll temp _
  unfold doDecompressInstall
  dsimp only
  split
  · exact Or.inl hreopen
  split
  · exact Or.inl hreopen
  · right
    rw [streams_modFile rfl]
    exact congrArg (fun k : Streams => k.setModule f false) hreopen

/-- The descriptors of an entry have no handle, if none in its list has. -/
theorem closed_of_hasStream (hs : s.streams.Sound) (h : s.hasStream f = false) : s.streams.Closed f := by
  refine hs.closed (fun d hd => ?_)
  unfold State.hasStream at h
  rw [List.any_eq_false] at h
  exact Bool.eq_false_iff.mpr (h d hd)

/-- `do_decompress` fails before it comes to the header of the file. -/
theorem streams_doDecompress_none (h : doDecompressOpens Γ env s f = none) : (doDecompress Γ env s f).1.streams = s.streams := by
  unfold doDecompressOpens at h
  unfold doDecompress
  split
  · rfl
  rename_i hstat
  rw [if_neg hstat] at h
  split
  · rfl
  rename_i hspace
  rw [if_neg hspace] at h
  dsimp only
  rw [(flushFileCache_same s f).1, (flushFileCache_same s f).2.2.2.1]
  cases hopen : env.ok .open with
  | false => exact streams_flushFileCache
  | true =>
    rw [if_pos rfl]
    cases hino : s.fs.inoOf (s.files f).filename with
    | none => exact streams_flushFileCache
    | some src =>
      dsimp only
      cases hread : env.ok .readHeader with
      | false => exact streams_flushFileCache
      | true =>
        rw [hopen, hread, hino] at h
        cases h

/-- `do_decompress` has found a header and has set the module of the entry. -/
def State.unpacking (Γ : Config) (s : State) (f : Nat) (m : Module) : State :=
  let s := (flushFileCache s f).modFile f (fun file => { file with compressor := some (file.compressor.getD m) })
  s.assert Γ ((s.files f).compressor.getD m = m)

theorem streams_unpacking (m : Module) : (s.unpacking Γ f m).streams = s.streams.setModule f true := by
  unfold State.unpacking
  rw [streams_assert, streams_modFile rfl, streams_flushFileCache]
  rfl

/-- `do_decompress` comes to the header of the file. Without one the file loses its module at once, and otherwise when everything has
gone well after the descriptors have been closed. -/
theorem streams_doDecompress_some {src : Nat} (h : doDecompressOpens Γ env s f = some src) :
    (parse Γ (s.data src) = none → (doDecompress Γ env s f).1.streams = s.streams.setModule f false) ∧
      ∀ m size, parse Γ (s.data src) = some (m, size) →
        (doDecompress Γ env s f).1.streams =
            (closeAll Γ env (s.unpacking Γ f m) f ((s.unpacking Γ f m).files f).head).streams ∨
          (doDecompress Γ env s f).1.streams =
            (closeAll Γ env (s.unpacking Γ f m) f ((s.unpacking Γ f m).files f).head).streams.setModule f false := by
  unfold doDecompressOpens at h
  unfold doDecompress
  split at h
  · cases h
  rename_i hstat
  rw [if_neg hstat]
  split at h
  · cases h
  rename_i hspace
  rw [if_neg hspace]
  dsimp only
  rw [(flushFileCache_same s f).1, (flushFileCache_same s f).2.2.2.1]
  split at h
  · rename_i hcalls
    rw [Bool.and_eq_true] at hcalls
    have hdata : (flushFileCache s f).data src = s.data src := by
      unfold State.data
      rw [(flushFileCache_same s f).1]
    rw [if_pos hcalls.1, h]
    dsimp only
    rw [hcalls.2, if_neg Bool.true_eq_false_eq_False, hdata]
    constructor
    · intro hparse
      rw [hparse]
      dsimp only
      rw [streams_modFile rfl, streams_flushFileCache]
      rfl
    · intro m size hparse
      rw [hparse]
      unfold State.unpacking
      dsimp only
      generalize closeAll Γ env _ f _ = u
      have hack : (u.modFile f acknowledgeCancel).streams = u.streams := streams_acknowledgeCancel
      split
      · exact Or.inl rfl
      split
      · exact Or.inl rfl
      split
      · exact Or.inl hack
      split
      · exact Or.inl hack
      · rw [← hack]
        exact streams_doDecompressInstall
  · cases h

/-- `do_decompress` takes the module from the entry only when no descriptor of it has a handle. -/
theorem uses_doDecompress (hkeeps : doDecompressKeeps Γ env s f = true) :
    s.Uses (doDecompressEvents Γ env s f) (doDecompress Γ env s f).1 := by
  unfold doDecompressKeeps at hkeeps
  unfold doDecompressEvents
  cases hopens : doDecompressOpens Γ env s f with
  | none => exact .same (streams_doDecompress_none hopens)
  | some src =>
    rw [hopens] at hkeeps
    obtain ⟨hraw, hpacked⟩ := streams_doDecompress_some hopens
    have hdata : (flushFileCache s f).data src = s.data src := by
      unfold State.data
      rw [(flushFileCache_same s f).1]
    dsimp only at hkeeps ⊢
    rw [hdata]
    cases hparse : parse Γ (s.data src) with
    | none =>
      rw [hparse] at hkeeps
      exact .setModule (hraw hparse) (fun hs _ => closed_of_hasStream hs (by simpa using hkeeps))
    | some r =>
      obtain ⟨m, size⟩ := r
      have hstreams := streams_unpacking (Γ := Γ) (s := s) (f := f) m
      have hmodule : (s.unpacking Γ f m).streams.hasModule f = true := by
        rw [hstreams]
        exact Function.update_self _ _ _
      obtain ⟨huses, hclosed⟩ := uses_closeAll Γ env ((s.unpacking Γ f m).files f).head hmodule
      have hset : s.Uses [] (s.unpacking Γ f m) := .setModule hstreams (fun _ h => nomatch h)
      have hall := hset.trans huses
      rcases hpacked m size hparse with h | h
      · exact hall.then_same h
      · intro hs
        obtain ⟨hsound, hevents⟩ := hall hs
        have hnone := (hset hs).1.closed_closeAll f
        rw [head_streams, ← hclosed] at hnone
        rw [h]
        exact ⟨hsound.setModule (fun _ => hnone), hevents⟩

end closing

/-! ## Reading -/

section reading

variable {Γ : Config} {env : Env} {s t : State} {f d : Nat}

theorem streams_of_reads (h : ReadsStream d s t) : t.streams = s.streams := by
  obtain ⟨handle, pos, rfl⟩ := h
  exact streams_modDesc_same rfl rfl (by cases hd : (s.descs d).handle <;> simp [Desc.afterCall, hd]) rfl

theorem streams_of_writes (h : WritesStream d s t) : t.streams = s.streams := by
  obtain ⟨out, h⟩ := h
  rw [streams_of_reads h]
  cases (s.descs d).fd with
  | none => rfl
  | some fd => exact streams_writeFd fd out

/-- A handle is used while it is open. -/
theorem execute_used {isOpen : Nat → Bool} (hopen : isOpen d = true) (es : List HandleEvent) :
    execute HandleEvent.next isOpen (.used d :: es) = execute HandleEvent.next isOpen es := by
  rw [execute, HandleEvent.next, if_pos hopen]
  rfl

@[simp] theorem streams_countPage (keep : Bool) : (countPage s keep).streams = s.streams := rfl

@[simp] theorem streams_allocCache (cacheThis : Bool) : (allocCache s f cacheThis).streams = s.streams := by
  unfold allocCache
  split
  · exact streams_modFile_same rfl rfl
  · rfl

theorem streams_skipped (keep : Bool) (buf : Bytes) (hopen : s.streams.isOpen d = true) :
    (skipped s f d keep buf).streams = s.streams := by
  unfold skipped
  dsimp only
  generalize hs : s.modFile f _ = s₁
  have hfile : s₁.streams = s.streams := by
    rw [← hs]
    exact streams_modFile_same rfl rfl
  rw [streams_modDesc_offset _ (by rw [hfile]; exact hopen), hfile]

/-- The skipping uses the handle, which stays open. -/
theorem streams_skipLoopWith (calls : ModuleCalls d) (cacheThis : Bool) (n toread : Nat) (hopen : s.streams.isOpen d = true) :
    (skipLoopWith Γ calls f cacheThis n toread s).1.1.streams = s.streams ∧
      execute HandleEvent.next s.streams.isOpen (skipLoopWith Γ calls f cacheThis n toread s).2 = some s.streams.isOpen := by
  induction n generalizing s toread with
  | zero => exact ⟨rfl, rfl⟩
  | succ n ih =>
    rw [skipLoopWith]
    split
    · exact ⟨rfl, rfl⟩
    dsimp only
    have hread := streams_of_reads (calls.read_stream (n + 1) (countPage s (keepPage Γ s f d cacheThis)) (min toread pageSize))
    rw [streams_countPage] at hread
    have hstop := execute_used hopen []
    split
    · rename_i s₁ hcall
      rw [hcall] at hread
      exact ⟨hread, hstop⟩
    · rename_i s₁ buf hcall
      rw [hcall] at hread
      split
      · exact ⟨hread, hstop⟩
      split
      · exact ⟨hread, hstop⟩
      · have hskip : (skipped s₁ f d (keepPage Γ s f d cacheThis) buf).streams = s.streams := by
          rw [streams_skipped _ _ (by rw [hread]; exact hopen), hread]
        obtain ⟨hstreams, hevents⟩ := ih (s := skipped s₁ f d (keepPage Γ s f d cacheThis) buf) (toread - buf.length)
          (by rw [hskip]; exact hopen)
        rw [hskip] at hstreams hevents
        exact ⟨hstreams, by rw [execute_used hopen]; exact hevents⟩

theorem uses_decompressReadWith (calls : ModuleCalls d) (size : Nat) (served : Bytes) (hopen : s.streams.isOpen d = true) :
    s.Uses (decompressReadWith calls s f size served).2 (decompressReadWith calls s f size served).1.1 := by
  intro hs
  have hread := streams_of_reads (calls.read_stream 0 s (cutSize (s.files f) (s.descs d).offset size))
  have hstop := execute_used hopen []
  unfold decompressReadWith
  dsimp only
  split
  · rename_i s₁ hcall
    rw [hcall] at hread
    rw [hread]
    exact ⟨hs, hstop⟩
  · rename_i s₁ buf hcall
    rw [hcall] at hread
    split
    · rw [hread]
      exact ⟨hs, hstop⟩
    · rw [streams_modDesc_offset _ (by rw [hread]; exact hopen), hread]
      exact ⟨hs, hstop⟩

theorem uses_decompressSkipWith (calls : ModuleCalls d) (size offset : Nat) (cacheThis : Bool) (served : Bytes)
    (hopen : s.streams.isOpen d = true) :
    s.Uses (decompressSkipWith Γ calls s f size offset cacheThis served).2
      (decompressSkipWith Γ calls s f size offset cacheThis served).1.1 := by
  unfold decompressSkipWith
  split
  · dsimp only
    generalize (cacheThis && _) = keeps
    split
    · exact fun hs => ⟨hs, rfl⟩
    have halloc : (allocCache s f keeps).streams = s.streams := streams_allocCache keeps
    obtain ⟨hstreams, hevents⟩ := streams_skipLoopWith (Γ := Γ) (f := f) calls keeps (offset - (s.descs d).offset)
      (offset - (s.descs d).offset) (s := allocCache s f keeps) (by rw [halloc]; exact hopen)
    rw [halloc] at hstreams hevents
    have hskip : s.Uses (skipLoopWith Γ calls f keeps (offset - (s.descs d).offset) (offset - (s.descs d).offset)
        (allocCache s f keeps)).2 (skipLoopWith Γ calls f keeps (offset - (s.descs d).offset) (offset - (s.descs d).offset)
          (allocCache s f keeps)).1.1 := by
      intro hs
      rw [hstreams]
      exact ⟨hs, hevents⟩
    split
    · rename_i s₁ r events hloop
      rw [hloop] at hskip
      exact hskip
    · rename_i s₁ events hloop
      rw [hloop] at hskip hstreams
      exact hskip.trans (uses_decompressReadWith calls size served (by rw [hstreams]; exact hopen))
  · exact uses_decompressReadWith calls size served hopen

/-- A descriptor without a handle gets one. -/
theorem uses_openDesc {handle : Handle} (husable : s.streams.Usable d) (hnone : (s.descs d).handle = none) :
    s.Uses [.opened d] (s.modDesc d (fun desc => { desc with handle := some handle })) := by
  intro hs
  have hclosed : s.streams.isOpen d = false := by
    rw [isOpen_streams, hnone]
    rfl
  rw [streams_openDesc handle (hs.placed d)]
  refine ⟨hs.openAt husable, ?_⟩
  rw [execute, HandleEvent.next, hclosed]
  rfl

theorem uses_openStream (Γ : Config) (env : Env) (husable : s.streams.Usable d) :
    s.Uses (openStreamEvents Γ env s d) (openStream Γ env s d).1 ∧
      ((openStream Γ env s d).2 = true → (openStream Γ env s d).1.streams.isOpen d = true) := by
  have hfails : ∀ t : State, openStream Γ env s d = (t, false) → t.streams = s.streams →
      s.Uses (openStreamEvents Γ env s d) (openStream Γ env s d).1 ∧
        ((openStream Γ env s d).2 = true → (openStream Γ env s d).1.streams.isOpen d = true) := by
    intro t ht hstreams
    unfold openStreamEvents
    rw [ht, if_neg (fun h => nomatch h.2)]
    exact ⟨.same hstreams, fun h => nomatch h⟩
  cases hhandle : (s.descs d).handle with
  | some handle =>
    have hstays : openStream Γ env s d = (s, true) := by
      unfold openStream
      rw [hhandle]
    unfold openStreamEvents
    rw [hstays, hhandle, if_neg (fun h => nomatch h.1)]
    exact ⟨.same rfl, fun _ => by rw [isOpen_streams, hhandle]; rfl⟩
  | none =>
    cases hfd : (s.descs d).fd with
    | none =>
      refine hfails (s.assert Γ ((s.descs d).offset = 0)) ?_ (streams_assert _)
      unfold openStream
      rw [hhandle, hfd]
    | some fd =>
      cases hcall : env.ok .codecOpen with
      | false =>
        refine hfails (s.assert Γ ((s.descs d).offset = 0)) ?_ (streams_assert _)
        unfold openStream
        rw [hhandle, hfd]
        exact if_pos hcall
      | true =>
        have hopened : openStream Γ env s d = ((s.assert Γ ((s.descs d).offset = 0)).modDesc d
            (fun desc => { desc with handle := some (.reading fd.pos 0) }), true) := by
          unfold openStream
          rw [hhandle, hfd]
          exact if_neg (by rw [hcall]; nofun)
        unfold openStreamEvents
        rw [hopened, if_pos ⟨hhandle, rfl⟩]
        have hassert : (s.assert Γ ((s.descs d).offset = 0)).streams = s.streams := streams_assert _
        refine ⟨.after_same hassert (uses_openDesc (by rw [hassert]; exact husable) (by rw [State.descs_assert]; exact hhandle)),
          fun _ => ?_⟩
        rw [isOpen_streams, State.descs_modDesc, if_pos rfl]
        rfl

theorem streams_rewind (Γ : Config) (env : Env) (m : Module) (handle : (s.descs d).handle ≠ none) :
    (rewind Γ env s m d).streams = s.streams.close d := by
  have hcodec : (codecClose Γ env s m d).streams = s.streams := streams_codecClose m
  unfold rewind
  rw [streams_closeDesc, hcodec]
  rw [hcodec]
  unfold State.streams
  dsimp only
  cases hhandle : (s.descs d).handle with
  | none => exact absurd hhandle handle
  | some handle => rfl

/-- `direct_decompress` opens the stream, or goes back in it, unless it fails to close it. -/
theorem uses_decompressOpen (m : Module) {offset : Nat} (husable : s.streams.Usable d)
    (hkeeps : env.ok .codecClose = true ∨ (s.descs d).offset ≤ offset) :
    s.Uses (decompressOpenEvents Γ env s m d offset) (decompressOpen Γ env s m d offset).1 ∧
      ((decompressOpen Γ env s m d offset).2 = true → (decompressOpen Γ env s m d offset).1.streams.isOpen d = true) := by
  unfold decompressOpenEvents decompressOpen
  split
  · rename_i hback
    split
    · exact ⟨.same streams_abort, fun h => nomatch h⟩
    rename_i hhandle
    have hclose : env.ok .codecClose = true := by
      rcases hkeeps with hclose | hle
      · exact hclose
      · omega
    have hcloses : ¬env.ok .codecClose = false := by
      rw [hclose]
      nofun
    rw [if_neg hcloses, if_neg hcloses]
    have hrewind := streams_rewind Γ env m hhandle
    have hclosed : s.Uses [.closed d] (rewind Γ env s m d) := by
      intro hs
      rw [hrewind]
      refine ⟨hs.close d, ?_⟩
      have hisOpen : s.streams.isOpen d = true := by
        rw [isOpen_streams]
        exact Option.isSome_iff_ne_none.mpr hhandle
      have hevents := execute_closed s.streams d
      rw [if_pos hisOpen] at hevents
      exact hevents
    split
    · exact ⟨hclosed, fun h => nomatch h⟩
    · have hseek : (seekHeader (rewind Γ env s m d) d).streams = (rewind Γ env s m d).streams :=
        streams_modDesc_same rfl rfl rfl rfl
      obtain ⟨huses, hopen⟩ := uses_openStream (s := seekHeader (rewind Γ env s m d) d) Γ env
        (by rw [hseek, hrewind]; exact husable)
      exact ⟨(hclosed.then_same hseek).trans huses, hopen⟩
  · exact uses_openStream Γ env husable

@[simp] theorem streams_serveCache (cacheThis : Bool) (size offset : Nat) :
    (serveCache s f cacheThis size offset).1.streams = s.streams := by
  unfold serveCache
  split
  · dsimp only
    split
    · rfl
    · dsimp only
      rw [streams_modFile_same rfl rfl]
      rfl
  · rfl

/-- The start of `direct_decompress` and `direct_compress`. -/
theorem streams_setType (c : Bool) (access : Access) :
    ((s.assert Γ c).modFile f (fun file => { file with type := if file.type = .unset then access else file.type })).streams =
      s.streams := by
  rw [streams_modFile_same, streams_assert] <;> rfl

theorem uses_directDecompressWith (calls : ModuleCalls d) (m : Module) {size offset : Nat} (husable : s.streams.Usable d)
    (hkeeps : directDecompressKeeps Γ env s f d size offset = true) :
    s.Uses (directDecompressWith Γ env calls s m f size offset).2 (directDecompressWith Γ env calls s m f size offset).1.1 := by
  unfold directDecompressKeeps at hkeeps
  unfold directDecompressWith
  dsimp only at hkeeps ⊢
  generalize hcache : (Γ.cacheDecompressedData && _ && _) = cacheThis at hkeeps ⊢
  generalize hs₁ : (s.assert Γ (s.descs d).fd.isSome).modFile f _ = s₁ at hkeeps ⊢
  have hstart : s₁.streams = s.streams := by
    rw [← hs₁]
    exact streams_setType _ _
  have hserve := streams_serveCache (s := s₁) (f := f) cacheThis size offset
  generalize serveCache s₁ f cacheThis size offset = r at hserve hkeeps ⊢
  obtain ⟨s₂, served, any⟩ := r
  have hserved : s₂.streams = s.streams := hserve.trans hstart
  dsimp only at hkeeps ⊢
  split
  · exact .same hserved
  rename_i hmore
  rw [if_neg hmore] at hkeeps
  split
  · rename_i hfall
    rw [if_pos hfall] at hkeeps
    have huses : s.Uses _ _ := .after_same hserved (uses_doDecompress hkeeps)
    split
    · rename_i s₃ hcall
      rw [hcall] at huses
      exact huses
    · rename_i s₃ hcall
      rw [hcall] at huses
      dsimp only
      exact huses.then_same (streams_modFile_same rfl rfl)
  · rename_i hfall
    rw [if_neg hfall, Bool.or_eq_true, decide_eq_true_eq] at hkeeps
    obtain ⟨huses, hopen⟩ := uses_decompressOpen m (by rw [hserved]; exact husable) hkeeps
    have huses : s.Uses _ _ := .after_same hserved huses
    split
    · rename_i s₃ hcall
      rw [hcall] at huses
      exact huses
    · rename_i s₃ hcall
      rw [hcall] at huses hopen
      exact huses.trans (uses_decompressSkipWith calls _ _ _ _ (hopen rfl))

/-- `fusecompress_read` under the lock of the file. -/
theorem uses_readLockedWith (calls : ModuleCalls d) {size offset : Nat} (hlive : (s.descs d).live = true)
    (hkeeps : (s.files (s.descs d).file).compressor = none ∨
      directDecompressKeeps Γ env s (s.descs d).file d size offset = true) :
    s.Uses (readLockedWith Γ env calls s (s.descs d).file size offset).2
      (readLockedWith Γ env calls s (s.descs d).file size offset).1.1 := by
  unfold readLockedWith
  cases hmodule : (s.files (s.descs d).file).compressor with
  | none => exact .same rfl
  | some m =>
    refine uses_directDecompressWith calls m ⟨hlive, ?_⟩ (hkeeps.resolve_left (by rw [hmodule]; nofun))
    rw [owner_streams, hasModule_streams, hmodule]
    rfl

end reading

/-! ## Writing -/

section writing

variable {Γ : Config} {env : Env} {s t : State} {f d : Nat}

theorem uses_compressWriteWith (calls : ModuleCalls d) (m : Module) (buf : Bytes) :
    s.Uses (compressWriteWith env calls s m f buf).2 (compressWriteWith env calls s m f buf).1.1 := by
  intro hs
  unfold compressWriteWith
  split
  · rename_i handle fd hhandle hfd
    have hopen : s.streams.isOpen d = true := by
      rw [isOpen_streams, hhandle]
      rfl
    have hwrite := streams_of_writes (calls.write_stream s buf)
    have hstop := execute_used hopen []
    split
    · rename_i s₁ hcall
      rw [hcall] at hwrite
      rw [hwrite]
      exact ⟨hs, hstop⟩
    · rename_i s₁ len hcall
      rw [hcall] at hwrite
      dsimp only
      have hmoved : (s₁.modDesc d (fun desc => { desc with offset := desc.offset + len })).streams = s.streams := by
        rw [streams_modDesc_offset _ (by rw [hwrite]; exact hopen), hwrite]
      generalize s₁.modDesc d _ = s₂ at hmoved
      have hsize : (s₂.modFile f (fun file => { file with size := ((s₂.descs d).offset : Int) })).streams = s.streams := by
        rw [streams_modFile_same rfl rfl, hmoved]
      generalize s₂.modFile f _ = s₃ at hsize
      split
      · rw [hsize]
        exact ⟨hs, hstop⟩
      · have hheader : (seekEnd (writeHeaderAt s₃ d fd m (s₃.files f).size) d).streams = s.streams := by
          unfold seekEnd writeHeaderAt
          rw [streams_modDesc_same rfl rfl rfl rfl, streams_writeFd, hsize]
        rw [hheader]
        exact ⟨hs, hstop⟩
  · exact ⟨hs, rfl⟩

/-- `direct_compress` opens the stream, or leaves everything as it is. -/
theorem uses_compressOpen (Γ : Config) (env : Env) (f : Nat) (m : Module) (fd : Fd) (husable : s.streams.Usable d)
    (hnone : (s.descs d).handle = none) :
    ((compressOpen Γ env s m f d fd).2 = false → (compressOpen Γ env s m f d fd).1.streams = s.streams) ∧
      ((compressOpen Γ env s m f d fd).2 = true → s.Uses [.opened d] (compressOpen Γ env s m f d fd).1) := by
  unfold compressOpen
  dsimp only
  generalize hs₁ : (s.assert Γ _).assert Γ _ = s₁
  have hassert : s₁.streams = s.streams := by rw [← hs₁, streams_assert, streams_assert]
  have hdescs : s₁.descs = s.descs := by rw [← hs₁, State.descs_assert, State.descs_assert]
  split
  · exact ⟨fun _ => hassert, fun h => nomatch h⟩
  have hheader : (writeHeaderAt s₁ d fd m (s₁.files f).size).streams = s.streams := by
    unfold writeHeaderAt
    rw [streams_writeFd, hassert]
  have hhandle : ((writeHeaderAt s₁ d fd m (s₁.files f).size).descs d).handle = none := by
    have hopen : (writeHeaderAt s₁ d fd m (s₁.files f).size).streams.isOpen d = s.streams.isOpen d := by rw [hheader]
    rw [isOpen_streams, isOpen_streams, hnone] at hopen
    exact Option.isSome_eq_false_iff.mp hopen |> Option.isNone_iff_eq_none.mp
  split
  · exact ⟨fun _ => hheader, fun h => nomatch h⟩
  · exact ⟨fun h => (nomatch h), fun _ => .after_same hheader (uses_openDesc (by rw [hheader]; exact husable) hhandle)⟩

theorem uses_directCompressWith (calls : ModuleCalls d) (m : Module) (buf : Bytes) {offset : Nat} (husable : s.streams.Usable d)
    (hkeeps : directCompressKeeps Γ env s f d offset = true) :
    s.Uses (directCompressWith Γ env calls s m f buf offset).2 (directCompressWith Γ env calls s m f buf offset).1.1 := by
  unfold directCompressKeeps at hkeeps
  unfold directCompressWith
  dsimp only at hkeeps ⊢
  generalize hs₁ : (flushFileCache (s.assert Γ _) f).modFile f _ = s₁ at hkeeps ⊢
  have hstart : s₁.streams = s.streams := by
    rw [← hs₁, streams_modFile_same rfl rfl, streams_flushFileCache, streams_assert]
  split
  · rename_i hfall
    rw [hfall, Bool.not_true, Bool.false_or] at hkeeps
    have huses : s.Uses _ _ := .after_same hstart (uses_doDecompress hkeeps)
    split
    · rename_i s₂ hcall
      rw [hcall] at huses
      exact huses
    · rename_i s₂ hcall
      rw [hcall] at huses
      dsimp only
      exact huses.then_same (streams_modFile_same rfl rfl)
  · have hwrite : s.Uses (compressWriteWith env calls s₁ m f buf).2 (compressWriteWith env calls s₁ m f buf).1.1 :=
      .after_same hstart (uses_compressWriteWith calls m buf)
    split
    · rename_i fd hhandle hfd
      obtain ⟨hfails, hopens⟩ := uses_compressOpen Γ env f m fd (by rw [hstart]; exact husable) hhandle
      split
      · rename_i s₂ hcall
        rw [hcall] at hfails
        exact .same ((hfails rfl).trans hstart)
      · rename_i s₂ hcall
        rw [hcall] at hopens
        exact .after_same hstart ((hopens rfl).trans (uses_compressWriteWith calls m buf))
    · exact hwrite

/-- `fusecompress_write` chooses a module, and does not take one from an entry with a handle. -/
theorem uses_writeChoose {offset : Nat} (hkeeps : writeChooseKeeps Γ s f offset = true) : s.Uses [] (writeChoose Γ s f offset) := by
  unfold writeChooseKeeps at hkeeps
  unfold writeChoose
  dsimp only
  cases hmay : mayChoose (s.files f) offset with
  | false => exact .same (by rw [streams_modFile_same, streams_assert] <;> rfl)
  | true =>
    rw [hmay, Bool.not_true, Bool.false_or, Bool.or_eq_true] at hkeeps
    have hchosen : ∀ c : Bool, ((s.assert Γ c).modFile f (fun file => { file with
        compressor := if true then chooseCompressor Γ file.filename else file.compressor
        dontcompress := true })).streams = s.streams.setModule f (chooseCompressor Γ (s.files f).filename).isSome := by
      intro c
      rw [streams_modFile rfl, streams_assert, State.files_assert]
      rfl
    refine .setModule (hchosen _) (fun hs hnone => closed_of_hasStream hs ?_)
    rw [hnone] at hkeeps
    simpa using hkeeps

/-- `fusecompress_write` under the lock of the file. -/
theorem uses_writeLockedWith (calls : ModuleCalls d) (buf : Bytes) {offset : Nat} (hlive : (s.descs d).live = true)
    (hchoose : writeChooseKeeps Γ (discard Γ s (s.descs d).file) (s.descs d).file offset = true)
    (hkeeps : ((writeChoose Γ (discard Γ s (s.descs d).file) (s.descs d).file offset).files (s.descs d).file).compressor = none ∨
      directCompressKeeps Γ env (writeChoose Γ (discard Γ s (s.descs d).file) (s.descs d).file offset) (s.descs d).file d offset =
        true) :
    s.Uses (writeLockedWith Γ env calls s (s.descs d).file buf offset).2
      (writeLockedWith Γ env calls s (s.descs d).file buf offset).1.1 := by
  have hchosen : s.Uses [] (writeChoose Γ (discard Γ s (s.descs d).file) (s.descs d).file offset) :=
    .after_same streams_discard (uses_writeChoose hchoose)
  have hsame : (writeChoose Γ (discard Γ s (s.descs d).file) (s.descs d).file offset).streams.live d = true ∧
      (writeChoose Γ (discard Γ s (s.descs d).file) (s.descs d).file offset).streams.owner d = (s.descs d).file := by
    have hdescs : (writeChoose Γ (discard Γ s (s.descs d).file) (s.descs d).file offset).descs =
        (discard Γ s (s.descs d).file).descs := State.descs_assert _ _ _
    have hdiscard : (discard Γ s (s.descs d).file).streams = s.streams := streams_discard
    rw [live_streams, owner_streams, hdescs]
    exact ⟨(congrFun (congrArg Streams.live hdiscard) d).trans hlive, congrFun (congrArg Streams.owner hdiscard) d⟩
  unfold writeLockedWith
  dsimp only
  generalize writeChoose Γ _ _ offset = s₁ at hchosen hsame hkeeps ⊢
  cases hmodule : (s₁.files (s.descs d).file).compressor with
  | none => exact hchosen
  | some m =>
    refine hchosen.trans (uses_directCompressWith calls m buf ⟨hsame.1, ?_⟩ (hkeeps.resolve_left (by rw [hmodule]; nofun)))
    rw [hsame.2, hasModule_streams, hmodule]
    rfl

end writing

/-! ## The other requests -/

section requests

variable {Γ : Config} {env : Env} {s t : State} {f d : Nat}

theorem streams_truncateFile (full : Filename) (size : Nat) : (truncateFile env s f full size).1.streams = s.streams := by
  unfold truncateFile
  split
  · rfl
  · dsimp only
    rw [streams_modFile_same rfl rfl]
    rfl

/-- `fusecompress_truncate` takes the module from the entry when it has closed its handles. -/
theorem uses_truncateLocked (full : Filename) (size : Nat)
    (hkeeps : ((discard Γ s f).files f).compressor = none ∨ size = 0 ∨ doDecompressKeeps Γ env (discard Γ s f) f = true) :
    s.Uses (truncateEvents Γ env s f size) (truncateLocked Γ env s f full size).1 := by
  unfold truncateEvents truncateLocked
  dsimp only
  have hdiscard : (discard Γ s f).streams = s.streams := streams_discard
  generalize discard Γ s f = s₁ at hkeeps hdiscard ⊢
  refine .after_same hdiscard ?_
  by_cases hnone : (s₁.files f).compressor = none
  · rw [if_pos hnone]
    unfold ensureRaw
    rw [if_pos hnone]
    split
    · exact .same (streams_truncateFile full size)
    · exact .same (streams_truncateFile full size)
  · rw [if_neg hnone]
    by_cases hsize : size > 0
    · rw [if_pos hsize, if_pos hsize]
      unfold ensureRaw
      rw [if_neg hnone]
      have huses := uses_doDecompress ((hkeeps.resolve_left hnone).resolve_left (by omega))
      cases hcall : doDecompress Γ env s₁ f with
      | mk s₂ ok =>
        rw [hcall] at huses
        cases ok with
        | true => exact huses.then_same (streams_truncateFile full size)
        | false => exact huses
    · rw [if_neg hsize, if_neg hsize, if_neg hnone]
      have hmodule : s₁.streams.hasModule f = true := Option.isSome_iff_ne_none.mpr hnone
      obtain ⟨huses, hclosed⟩ := uses_truncateClose Γ env (s₁.files f).head hmodule
      generalize truncateClose Γ env s₁ f (s₁.files f).head = s₂ at huses hclosed ⊢
      refine State.Uses.then_same ?_ (streams_truncateFile full size)
      intro hs
      obtain ⟨hsound, hevents⟩ := huses hs
      have hall := hs.closed_closeAll f
      rw [head_streams, ← hclosed] at hall
      rw [streams_modFile rfl]
      exact ⟨hsound.setModule (fun _ => hall), hevents⟩

/-- `fusecompress_release` closes the handle of the descriptor that it frees. -/
theorem uses_releaseLocked :
    s.Uses (releaseEvents s (s.descs d).file d) (releaseLocked Γ env s (s.descs d).file d).1 := by
  intro hs
  unfold releaseEvents releaseLocked
  dsimp only
  have hclose : s.Uses (closeEvents s (s.descs d).file d) (releaseClose Γ env s (s.descs d).file d) ∧
      (releaseClose Γ env s (s.descs d).file d).streams.isOpen d = false ∧
        (releaseClose Γ env s (s.descs d).file d).streams.owner = s.streams.owner := by
    unfold releaseClose
    split
    · rename_i hnone
      have hclosed : s.streams.isOpen d = false := by
        cases hopen : s.streams.isOpen d with
        | false => rfl
        | true =>
          have hmodule := (hs.used d hopen).2
          rw [owner_streams, hasModule_streams, hnone] at hmodule
          cases hmodule
      refine ⟨?_, hclosed, rfl⟩
      unfold closeEvents
      rw [hnone, Option.isSome_none, Bool.and_false, if_neg Bool.false_ne_true]
      exact .same rfl
    · rename_i hsome
      have hmodule : s.streams.hasModule (s.descs d).file = true := Option.isSome_iff_ne_none.mpr hsome
      refine ⟨uses_directClose hmodule, ?_, ?_⟩
      · rw [streams_directClose hmodule]
        exact Function.update_self _ _ _
      · rw [streams_directClose hmodule]
        rfl
  obtain ⟨huses, hclosed, howner⟩ := hclose
  generalize releaseClose Γ env s (s.descs d).file d = s₁ at huses hclosed howner ⊢
  obtain ⟨hsound, hevents⟩ := huses hs
  have hrelease : (((s₁.modFile (s₁.descs d).file (fun file => { file with head := file.head.erase d })).modFile (s.descs d).file
      (fun file => { file with accesses := file.accesses - 1 })).modDesc d
        (fun desc => { desc with fd := none, live := false })).streams = s₁.streams.release d := by
    rw [streams_freeDesc, streams_modFile_same rfl rfl, streams_modFile_head rfl]
    rfl
  rw [hrelease, execute_append, hevents]
  refine ⟨hsound.release hclosed, ?_⟩
  rw [Option.bind_some, execute, HandleEvent.next, hclosed]
  rfl

/-- `fusecompress_open` adds a descriptor without a handle. -/
theorem uses_openDescriptor (ino pos : Nat) (writable : Bool) (size : Int) (hf : f < s.nextFile) :
    s.Uses [] (openDescriptor s f ino pos writable size).1 := by
  intro hs
  have hopened : (openDescriptor s f ino pos writable size).1.streams = s.streams.openDesc f := by
    unfold openDescriptor
    dsimp only
    rw [streams_modFile_head rfl]
    have hdesc := streams_modDesc_eq (s := s) (d := s.nextDesc)
      (fun _ => { file := f, fd := some ⟨ino, pos⟩, writable := writable, handle := none, offset := 0, live := true })
    exact congrArg (fun k : Streams => ({ k with
      head := Function.update k.head f (s.nextDesc :: (s.files f).head), nextDesc := s.nextDesc + 1 } : Streams)) hdesc
  rw [hopened]
  refine ⟨hs.openDesc hf, ?_⟩
  have hnone := hs.isOpen_nextDesc
  change some s.streams.isOpen = some (Function.update s.streams.isOpen s.streams.nextDesc false)
  rw [← hnone, Function.update_eq_self]

/-- The module that `fusecompress_open` reads from the header. -/
theorem fileReadHeader_isSome {data : Bytes} (hlen : headerSize ≤ data.length) (c : Option Module) (size : Int) :
    (fileReadHeader Γ data c size).1.isSome = (parse Γ data).isSome := by
  cases hparse : parse Γ data with
  | none =>
    rw [fileReadHeader_of_parse_none hparse, if_neg (by omega)]
    rfl
  | some r =>
    obtain ⟨m, n⟩ := r
    rw [fileReadHeader_of_parse hparse]
    rfl

/-- `fusecompress_open` takes the module from the entry only when no descriptor of it has a handle. -/
theorem uses_openLocked (full : Filename) (writable : Bool) (hf : f < s.nextFile)
    (hkeeps : openKeeps Γ env s f full writable = true) : s.Uses [] (openLocked Γ env s f full writable).1 := by
  unfold openKeeps at hkeeps
  unfold openLocked
  have hundedup : (openUndedup Γ env s f writable).1.streams = s.streams := by
    unfold openUndedup
    split
    · exact streams_doUndedup
    · rfl
  generalize openUndedup Γ env s f writable = r at hkeeps hundedup ⊢
  obtain ⟨s₁, ok⟩ := r
  cases ok with
  | false => exact .same hundedup
  | true =>
    refine .after_same hundedup ?_
    have hnext : s₁.nextFile = s.nextFile := congrArg Streams.nextFile hundedup
    rw [← hnext] at hf
    dsimp only at hkeeps ⊢
    unfold openFile
    split
    · exact .same rfl
    rename_i i hino
    split
    · dsimp only
      exact .same (streams_modFile_same rfl rfl)
    rename_i hfstat
    have hlinks : (noteLinks s₁ f i).streams = s₁.streams := streams_modFile_same rfl rfl
    have hopens : (if env.ok .open && env.ok .fstat then s₁.fs.inoOf full else none) = some i := by
      cases hopen : env.ok .open with
      | false =>
        rw [hopen] at hino
        cases hino
      | true =>
        rw [hopen] at hino
        rw [Bool.eq_true_of_not_eq_false hfstat]
        exact hino
    rw [hopens] at hkeeps
    dsimp only at hkeeps ⊢
    have hdata : (noteLinks s₁ f i).data i = s₁.data i := rfl
    have hset : ∀ c : Option Module, (c = none → s₁.hasStream f = false) →
        s₁.Uses [] ((noteLinks s₁ f i).modFile f (fun file => { file with compressor := c })) := by
      intro c hnone
      refine .setModule (b := c.isSome) ?_ (fun hs hc => closed_of_hasStream hs (hnone ?_))
      · rw [streams_modFile rfl, hlinks]
      · exact Option.isNone_iff_eq_none.mp (Option.isSome_eq_false_iff.mp hc)
    rw [hdata]
    split
    · rename_i hlen
      split
      · refine .same ?_
        rw [streams_modFile_same rfl rfl, hlinks]
      · rename_i hread
        refine (hset _ (fun hnone => ?_)).trans (uses_openDescriptor _ _ _ _ hf)
        have hparse := fileReadHeader_isSome (Γ := Γ) hlen ((noteLinks s₁ f i).files f).compressor ((s₁.data i).length : Int)
        rw [hnone, Option.isSome_none] at hparse
        rw [← hparse] at hkeeps
        simpa [hread] using hkeeps
    · rename_i hlen
      refine (hset none (fun _ => ?_)).trans (uses_openDescriptor _ _ _ _ hf)
      have hparse : parse Γ (s₁.data i) = none := by
        unfold parse
        rw [if_pos (by omega)]
      rw [hparse] at hkeeps
      simpa [hlen] using hkeeps

/-- `_direct_open_purge` takes entries out of the database. -/
theorem uses_purgeFile (force : Bool) (g : Nat) : s.Uses [] (purgeFile Γ env force s g) := by
  have hqueue : ∀ isDedup, s.Uses [] (backgroundCompressDedup s g isDedup) := by
    intro isDedup
    have hcount : (s.modFile g (fun file => { file with accesses := file.accesses + 1 })).streams = s.streams :=
      streams_modFile_same rfl rfl
    exact .same hcount
  have hdetach : s.Uses [] (detach s g) := fun hs => ⟨hs.detach g, rfl⟩
  unfold purgeFile
  dsimp only
  split
  · split
    · exact hqueue false
    split
    · exact hqueue true
    · exact hdetach.then_same (streams_flushFileCache (s := detach s g) (f := g))
  · split
    · exact hdetach
    · exact .same rfl

theorem uses_directOpenCount (Γ : Config) (env : Env) (s : State) : s.Uses [] (directOpenCount Γ env s) := by
  have hpurge : ∀ (ds : List Nat) (s : State), s.Uses [] (ds.foldl (purgeFile Γ env false) s) := by
    intro ds
    induction ds with
    | nil => exact fun s => .same rfl
    | cons d ds ih => exact fun s => (uses_purgeFile false d).trans (ih _)
  unfold directOpenCount
  dsimp only
  split
  · exact .after_same (t := { s with entries := s.entries + 1 }) rfl (hpurge _ _)
  · exact .same rfl

/-- `direct_open` gives an entry of the database. -/
theorem uses_directOpen (Γ : Config) (env : Env) (s : State) (full : Filename) :
    s.Uses [] (directOpen Γ env s full).1 ∧
      (s.streams.Sound → (directOpen Γ env s full).2 < (directOpen Γ env s full).1.nextFile) := by
  unfold directOpen
  cases hfind : findFile s full with
  | some f =>
    have hfound : (directOpenFound s f).streams = s.streams := streams_modFile_same rfl rfl
    exact ⟨.same hfound, fun hs => hs.known f (List.mem_of_find?_eq_some hfind)⟩
  | none =>
    dsimp only
    have hcount := uses_directOpenCount Γ env s
    generalize directOpenCount Γ env s = s₁ at hcount ⊢
    have hadd : (directOpenAdd Γ s₁ full).streams = s₁.streams.newFile :=
      congrArg (fun k : Streams => ({ k with database := s₁.database ++ [s₁.nextFile], nextFile := s₁.nextFile + 1 } : Streams))
        (streams_modFile_eq (s := s₁) (f := s₁.nextFile) (fun _ => directNewFile Γ s₁ full))
    refine ⟨hcount.trans (fun hs => ?_), fun _ => Nat.lt_succ_self _⟩
    rw [hadd]
    exact ⟨hs.newFile, rfl⟩

end requests

end FuseCompress
