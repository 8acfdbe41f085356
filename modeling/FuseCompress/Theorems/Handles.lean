import FuseCompress.Lemmas.Handles
import FuseCompress.Theorems.Tables

/-!
# Handles are closed once

Every handle that `compressor->open` returns is closed exactly once before its descriptor is freed, and not used after that, in every
run in which going back in a stream does not fail to close it and no entry loses its module while one of its handles is open.
-/

namespace FuseCompress

/-! ## The calls of the model -/

section erasure

variable {Γ : Config} {env : Env} {s : State} {m : Module} {f d : Nat}

theorem skipLoopWith_codec (cacheThis : Bool) (n toread : Nat) (s : State) :
    (skipLoopWith Γ (.codec Γ env m d) f cacheThis n toread s).1 = skipLoop Γ env m f d cacheThis n toread s := by
  induction n generalizing toread s with
  | zero => rfl
  | succ n ih =>
    rw [skipLoopWith, skipLoop]
    split
    · rfl
    · have hcall : (ModuleCalls.codec Γ env m d).read (n + 1) (countPage s (keepPage Γ s f d cacheThis)) (min toread pageSize) =
          codecRead Γ env (countPage s (keepPage Γ s f d cacheThis)) m d (min toread pageSize) := rfl
      dsimp only
      rw [hcall]
      generalize codecRead Γ env _ m d _ = r
      obtain ⟨s₁, buf⟩ := r
      cases buf with
      | none => rfl
      | some buf =>
        dsimp only
        rw [apply_ite Prod.fst, apply_ite Prod.fst, ih]

theorem decompressReadWith_codec (size : Nat) (served : Bytes) :
    (decompressReadWith (.codec Γ env m d) s f size served).1 = decompressRead Γ env s m f d size served := by
  have hcall : (ModuleCalls.codec Γ env m d).read 0 s (cutSize (s.files f) (s.descs d).offset size) =
      codecRead Γ env s m d (cutSize (s.files f) (s.descs d).offset size) := rfl
  unfold decompressReadWith decompressRead
  dsimp only
  rw [hcall]
  generalize codecRead Γ env s m d _ = r
  obtain ⟨s₁, buf⟩ := r
  cases buf with
  | none => rfl
  | some buf =>
    dsimp only
    rw [apply_ite Prod.fst]

theorem decompressSkipWith_codec (size offset : Nat) (cacheThis : Bool) (served : Bytes) :
    (decompressSkipWith Γ (.codec Γ env m d) s f size offset cacheThis served).1 =
      decompressSkip Γ env s m f d size offset cacheThis served := by
  unfold decompressSkipWith decompressSkip
  split
  · dsimp only
    split
    · rfl
    rw [← skipLoopWith_codec]
    generalize skipLoopWith Γ (.codec Γ env m d) f _ _ _ _ = r
    obtain ⟨⟨s₁, r⟩, events⟩ := r
    cases r with
    | none => exact decompressReadWith_codec size served
    | some r => rfl
  · exact decompressReadWith_codec size served

theorem directDecompressWith_codec (size offset : Nat) :
    (directDecompressWith Γ env (.codec Γ env m d) s m f size offset).1 = directDecompress Γ env s m f d size offset := by
  unfold directDecompressWith directDecompress
  dsimp only
  generalize serveCache _ f _ size offset = r
  obtain ⟨s₁, served, any⟩ := r
  dsimp only
  rw [apply_ite Prod.fst, apply_ite Prod.fst]
  generalize doDecompress Γ env s₁ f = r
  generalize decompressOpen Γ env s₁ m d _ = o
  obtain ⟨s₂, ok⟩ := r
  obtain ⟨s₃, opened⟩ := o
  cases ok <;> cases opened <;> dsimp only <;> rw [decompressSkipWith_codec]

/-- With the calls that the module makes of what it emits and decodes, a read is that of the model. -/
theorem readLockedWith_codec (size offset : Nat) (hm : (s.files f).compressor = some m) :
    (readLockedWith Γ env (.codec Γ env m d) s f size offset).1 = readLocked Γ env s f d size offset := by
  unfold readLockedWith readLocked
  rw [hm]
  exact directDecompressWith_codec size offset

theorem compressWriteWith_codec (buf : Bytes) :
    (compressWriteWith env (.codec Γ env m d) s m f buf).1 = compressWrite Γ env s m f d buf := by
  have hcall : (ModuleCalls.codec Γ env m d).write s buf = codecWrite Γ env s m d buf := rfl
  unfold compressWriteWith compressWrite
  rw [hcall]
  unfold codecWrite
  cases hhandle : (s.descs d).handle with
  | none => rfl
  | some handle =>
    cases hfd : (s.descs d).fd with
    | none => cases handle <;> rfl
    | some fd =>
      cases handle with
      | reading start pos => rfl
      | writing chunks =>
        dsimp only
        cases hwrite : env.ok .codecWrite with
        | false => rfl
        | true =>
          have hmoved : ((writeFd s d fd ((Γ.codec m).emit chunks buf)).modDesc d
              (fun desc => { desc with handle := some (.writing (chunks ++ [buf])) })).modDesc d
                (fun desc => { desc with offset := desc.offset + buf.length }) =
              (writeFd s d fd ((Γ.codec m).emit chunks buf)).modDesc d
                (fun desc => { desc with handle := some (.writing (chunks ++ [buf])), offset := desc.offset + buf.length }) := by
            unfold State.modDesc
            simp
          rw [← hmoved]
          exact apply_ite Prod.fst _ _ _

theorem directCompressWith_codec (buf : Bytes) (offset : Nat) :
    (directCompressWith Γ env (.codec Γ env m d) s m f buf offset).1 = directCompress Γ env s m f d buf offset := by
  unfold directCompressWith directCompress
  dsimp only
  generalize (flushFileCache (s.assert Γ _) f).modFile f _ = s₁
  rw [apply_ite Prod.fst]
  refine if_congr Iff.rfl ?_ ?_
  · generalize doDecompress Γ env s₁ f = r
    obtain ⟨s₂, ok⟩ := r
    cases ok <;> rfl
  · cases (s₁.descs d).handle with
    | some handle => exact compressWriteWith_codec buf
    | none =>
      cases (s₁.descs d).fd with
      | none => exact compressWriteWith_codec buf
      | some fd =>
        dsimp only
        generalize compressOpen Γ env s₁ m f d fd = r
        obtain ⟨s₂, ok⟩ := r
        cases ok with
        | false => rfl
        | true => exact compressWriteWith_codec buf

/-- The same of a write. -/
theorem writeLockedWith_codec (buf : Bytes) (offset : Nat)
    (hm : ((writeChoose Γ (discard Γ s f) f offset).files f).compressor = some m) :
    (writeLockedWith Γ env (.codec Γ env m d) s f buf offset).1 = writeLocked Γ env s f d buf offset := by
  unfold writeLockedWith writeLocked
  dsimp only
  rw [hm]
  exact directCompressWith_codec buf offset

end erasure

/-! ## Runs -/

section runs

variable {Γ : Config}

/-- The streams are sound, and the events say which descriptors have a handle. -/
structure HandleRun.Sound (k : HandleRun) : Prop where
  streams : k.shared.streams.Sound
  events : execute HandleEvent.next (fun _ => false) k.events = some k.shared.streams.isOpen

theorem HandleRun.sound_mounted (fs : Backing) : (HandleRun.mounted fs).Sound where
  streams := by
    exact ⟨fun _ => rfl, fun _ h => (nomatch h), fun _ h => (nomatch h), fun _ _ => rfl, fun _ h => (nomatch h)⟩
  events := rfl

theorem HandleRun.Sound.after {k : HandleRun} (h : k.Sound) {s : State} {events : List HandleEvent}
    (huses : k.shared.Uses events s) (pending : List PendingCall) : (k.after s pending events).Sound := by
  obtain ⟨hs, hevents⟩ := huses h.streams
  refine ⟨hs, ?_⟩
  unfold HandleRun.after
  rw [execute_append, h.events]
  exact hevents

theorem streams_finishCall (env : Env) (s : State) (c : PendingCall) : (finishCall env s c).streams = s.streams := by
  cases c with
  | failed f => exact streams_invalidateSize
  | pread f fd size offset =>
    rw [finishCall]
    split
    · exact streams_invalidateSize
    · rfl
  | pwrite f fd buf offset =>
    rw [finishCall, pwriteFd]
    cases (if env.ok .pwrite then fd else none) with
    | none => exact streams_invalidateSize
    | some fd =>
      dsimp only
      split <;> rfl

theorem uses_openRequest {env : Env} {s : State} {full : Filename} {writable : Bool}
    (hkeeps : openKeeps Γ env (directOpen Γ env s full).1 (directOpen Γ env s full).2 full writable = true) :
    s.Uses [] (openLocked Γ env (directOpen Γ env s full).1 (directOpen Γ env s full).2 full writable).1 := by
  intro hs
  obtain ⟨huses, hf⟩ := uses_directOpen Γ env s full
  exact huses.trans (uses_openLocked full writable (hf hs) hkeeps) hs

/-- A step that meets the condition keeps the handles. -/
theorem HandleRun.Sound.step {k k' : HandleRun} (h : k.Sound) {a : HandleStep} (hok : a.keeps Γ k.shared = true)
    (hs : handleStep Γ k a = some k') : k'.Sound := by
  unfold handleStep at hs
  split at hs
  · cases hs
  cases a with
  | «open» env full writable =>
    rw [HandleRun.step] at hs
    split at hs
    · cases hs
      exact h.after (uses_openRequest hok) []
    · cases hs
  | read env d calls size offset =>
    rw [HandleRun.step] at hs
    split at hs
    · rename_i husable
      cases hs
      exact h.after (uses_readLockedWith calls (Bool.and_eq_true_iff.mp husable).1 (by simpa [HandleStep.keeps] using hok)) _
    · cases hs
  | write env d calls buf offset =>
    rw [HandleRun.step] at hs
    split at hs
    · rename_i husable
      rw [HandleStep.keeps, Bool.and_eq_true, Bool.or_eq_true, Option.isNone_iff_eq_none] at hok
      have huses := uses_writeLockedWith calls buf (Bool.and_eq_true_iff.mp husable).1 hok.1 hok.2
      generalize writeLockedWith Γ env calls k.shared (k.shared.descs d).file buf offset = r at huses hs
      obtain ⟨⟨s, next⟩, events⟩ := r
      cases next with
      | done res =>
        cases hs
        refine h.after (huses.then_same ?_) []
        split
        · exact streams_invalidateSize
        · rfl
      | pwrite fd =>
        cases hs
        exact h.after huses _
    · cases hs
  | truncate env full size =>
    rw [HandleRun.step] at hs
    split at hs
    · cases hs
      obtain ⟨hopen, -⟩ := uses_directOpen Γ env k.shared full
      rw [HandleStep.keeps, Bool.or_eq_true, Bool.or_eq_true, Option.isNone_iff_eq_none, decide_eq_true_eq, or_assoc] at hok
      exact h.after (hopen.trans (uses_truncateLocked full size hok)) []
    · cases hs
  | release env d =>
    rw [HandleRun.step] at hs
    split at hs
    · cases hs
      exact h.after uses_releaseLocked []
    · cases hs
  | finish env i =>
    rw [HandleRun.step] at hs
    split at hs
    · cases hs
    · rename_i c _
      cases hs
      have hsame := streams_finishCall env k.shared c
      exact ⟨hsame ▸ h.streams, hsame ▸ h.events⟩

/-- The handles are used linearly, and a descriptor without one is at the start. -/
structure HandleRun.Linear (k : HandleRun) : Prop where
  events : HandleEvent.Linear k.events
  start : ∀ d, (k.shared.descs d).handle = none → (k.shared.descs d).offset = 0

theorem HandleRun.Sound.linear {k : HandleRun} (h : k.Sound) : k.Linear where
  events := by
    unfold HandleEvent.Linear
    rw [h.events]
    rfl
  start d hnone := by
    have hplaced := h.streams.placed d
    unfold State.streams at hplaced
    simpa [hnone] using hplaced

/-- In every run that does not fail to close a handle when it goes back, and takes no module from an entry while one of its handles is
open, every handle is closed exactly once before its descriptor is freed and is not used after that, and a descriptor without a handle
is at the start. -/
theorem handles_linear (Γ : Config) {fs : Backing} {as : List HandleStep} {k : HandleRun}
    (h : Run (handleStep Γ) (fun k a => a.keeps Γ k.shared = true) (HandleRun.mounted fs) as k) : k.Linear := by
  have hsound : k.Sound := h.invariant (fun _ _ _ hk hok hs => hk.step hok hs) (HandleRun.sound_mounted fs)
  exact hsound.linear

end runs

/-! ## A file that is read twice -/

/-- The first byte of a file is read twice, and the descriptor is released. `again` says whether the handle can be closed in
between. -/
def readTwice (again : Bool) : List HandleStep :=
  let env : Env := { Env.fine with ok := fun c => again || decide (c ≠ .codecClose) }
  [.open .fine ['x'] false, .read .fine 0 (.codec .plain .fine .null 0) 1 0, .read env 0 (.codec .plain env .null 0) 1 0,
    .release .fine 0]

/-- A compressed file of two bytes. -/
def Backing.twoPacked : Backing := .fileAt ['x'] (header .null 2 ++ [7, 8])

theorem handles_linear_readTwice : ∃ k : HandleRun,
    Run (handleStep .plain) (fun k a => a.keeps .plain k.shared = true) (HandleRun.mounted .twoPacked) (readTwice true) k ∧
      k.events = [.opened 0, .used 0, .closed 0, .opened 0, .used 0, .closed 0, .released 0] ∧ k.Linear := by
  obtain ⟨k, h, hend⟩ := Run.exists_of_executeIf (show (executeIf (handleStep .plain)
    (fun k a => a.keeps .plain k.shared = true) (HandleRun.mounted .twoPacked) (readTwice true)).any (fun k => decide (k.events =
      [.opened 0, .used 0, .closed 0, .opened 0, .used 0, .closed 0, .released 0])) = true by decide +kernel)
  exact ⟨k, h, of_decide_eq_true hend, handles_linear .plain h⟩

/-- The second read fails to close the handle and leaves it in the descriptor, whose release closes it again. -/
theorem readTwice_not_linear :
    ¬∀ (Γ : Config) (fs : Backing) (as : List HandleStep) (k : HandleRun),
      Run (handleStep Γ) (fun _ _ => True) (HandleRun.mounted fs) as k → k.Linear := by
  intro h
  obtain ⟨k, hrun, hend⟩ := Run.exists_of_executeIf (show (executeIf (handleStep .plain) (fun _ _ => True)
    (HandleRun.mounted .twoPacked) (readTwice false)).any (fun k => decide (k.events =
      [.opened 0, .used 0, .closed 0, .closed 0, .released 0])) = true by decide +kernel)
  have hlinear := (h .plain .twoPacked (readTwice false) k hrun).events
  rw [of_decide_eq_true hend] at hlinear
  exact absurd hlinear (by decide)

end FuseCompress
