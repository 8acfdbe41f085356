import FuseCompress.Handles
import FuseCompress.Lemmas.Frames

/-!
# Where the handles are

The part of a state that decides what may be done with a handle, as a model of its own with the few operations that change it, and the
functions that leave it alone.
-/

namespace FuseCompress

/-- The part of a state that decides what may be done with a handle. A descriptor is misplaced when it has no handle and is not at the
start. -/
@[ext]
structure Streams where
  isOpen : Nat → Bool
  misplaced : Nat → Bool
  owner : Nat → Nat
  live : Nat → Bool
  hasModule : Nat → Bool
  head : Nat → List Nat
  database : List Nat
  nextFile : Nat
  nextDesc : Nat

/-- The streams of a state, read off its entries and descriptors. -/
def State.streams (s : State) : Streams where
  isOpen d := (s.descs d).handle.isSome
  misplaced d := (s.descs d).handle.isNone && decide ((s.descs d).offset ≠ 0)
  owner d := (s.descs d).file
  live d := (s.descs d).live
  hasModule f := (s.files f).compressor.isSome
  head f := (s.files f).head
  database := s.database
  nextFile := s.nextFile
  nextDesc := s.nextDesc

@[simp] theorem isOpen_streams (s : State) (d : Nat) : s.streams.isOpen d = (s.descs d).handle.isSome := rfl

@[simp] theorem owner_streams (s : State) (d : Nat) : s.streams.owner d = (s.descs d).file := rfl

@[simp] theorem live_streams (s : State) (d : Nat) : s.streams.live d = (s.descs d).live := rfl

@[simp] theorem hasModule_streams (s : State) (f : Nat) : s.streams.hasModule f = (s.files f).compressor.isSome := rfl

@[simp] theorem head_streams (s : State) (f : Nat) : s.streams.head f = (s.files f).head := rfl

namespace Streams

/-- The descriptor gets a handle. -/
def openAt (k : Streams) (d : Nat) : Streams := { k with isOpen := Function.update k.isOpen d true }

/-- The descriptor has no handle any more. -/
def close (k : Streams) (d : Nat) : Streams := { k with isOpen := Function.update k.isOpen d false }

/-- Some descriptors have no handle any more. -/
def closeAll (k : Streams) (ds : List Nat) : Streams := ds.foldl Streams.close k

/-- The entry has a module or not. -/
def setModule (k : Streams) (f : Nat) (b : Bool) : Streams := { k with hasModule := Function.update k.hasModule f b }

/-- A new descriptor at the head of the list of an entry. -/
def openDesc (k : Streams) (f : Nat) : Streams :=
  { k with
    isOpen := Function.update k.isOpen k.nextDesc false
    misplaced := Function.update k.misplaced k.nextDesc false
    owner := Function.update k.owner k.nextDesc f
    live := Function.update k.live k.nextDesc true
    head := Function.update k.head f (k.nextDesc :: k.head f)
    nextDesc := k.nextDesc + 1 }

/-- A descriptor is freed. -/
def release (k : Streams) (d : Nat) : Streams :=
  { k with
    live := Function.update k.live d false
    head := Function.update k.head (k.owner d) ((k.head (k.owner d)).erase d) }

/-- A new entry in the database. -/
def newFile (k : Streams) : Streams :=
  { k with
    hasModule := Function.update k.hasModule k.nextFile false
    head := Function.update k.head k.nextFile []
    database := k.database ++ [k.nextFile]
    nextFile := k.nextFile + 1 }

/-- A handle belongs to a descriptor in use whose entry has a module, and a descriptor without one is at the start. -/
structure Sound (k : Streams) : Prop where
  placed : ∀ d, k.misplaced d = false
  used : ∀ d, k.isOpen d = true → k.live d = true ∧ k.hasModule (k.owner d) = true
  listed : ∀ d, k.live d = true → d ∈ k.head (k.owner d) ∧ d < k.nextDesc
  fresh : ∀ f, k.nextFile ≤ f → k.head f = []
  known : ∀ f ∈ k.database, f < k.nextFile

/-- No descriptor of the entry has a handle. -/
def Closed (k : Streams) (f : Nat) : Prop := ∀ d, k.isOpen d = true → k.owner d ≠ f

/-- The descriptor may have a handle. -/
def Usable (k : Streams) (d : Nat) : Prop := k.live d = true ∧ k.hasModule (k.owner d) = true

variable {k : Streams}

theorem setModule_self (k : Streams) (f : Nat) : k.setModule f (k.hasModule f) = k := by
  unfold setModule
  rw [Function.update_eq_self]

theorem Sound.openAt (h : k.Sound) {d : Nat} (husable : k.Usable d) : (k.openAt d).Sound where
  placed := h.placed
  used d' hd' := by
    by_cases heq : d' = d
    · rw [heq]
      exact husable
    · change Function.update k.isOpen d true d' = true at hd'
      rw [Function.update_of_ne heq] at hd'
      exact h.used d' hd'
  listed := h.listed
  fresh := h.fresh
  known := h.known

theorem Sound.close (h : k.Sound) (d : Nat) : (k.close d).Sound where
  placed := h.placed
  used d' hd' := by
    change Function.update k.isOpen d false d' = true at hd'
    by_cases heq : d' = d
    · rw [heq, Function.update_self] at hd'
      cases hd'
    · rw [Function.update_of_ne heq] at hd'
      exact h.used d' hd'
  listed := h.listed
  fresh := h.fresh
  known := h.known

/-- An entry loses its module only when none of its descriptors has a handle. -/
theorem Sound.setModule (h : k.Sound) {f : Nat} {b : Bool} (hclosed : b = false → k.Closed f) : (k.setModule f b).Sound where
  placed := h.placed
  used d hd := by
    obtain ⟨hlive, hmodule⟩ := h.used d hd
    refine ⟨hlive, ?_⟩
    change Function.update k.hasModule f b (k.owner d) = true
    by_cases heq : k.owner d = f
    · rw [heq, Function.update_self]
      cases b with
      | false => exact absurd heq (hclosed rfl d hd)
      | true => rfl
    · rw [Function.update_of_ne heq]
      exact hmodule
  listed := h.listed
  fresh := h.fresh
  known := h.known

/-- What the list of an entry says of its descriptors. -/
theorem Sound.closed (h : k.Sound) {f : Nat} (hnone : ∀ d ∈ k.head f, k.isOpen d = false) : k.Closed f := by
  intro d hd heq
  have hmem := (h.listed d (h.used d hd).1).1
  rw [heq] at hmem
  rw [hnone d hmem] at hd
  cases hd

/-- A handle is never that of a descriptor that is still to come. -/
theorem Sound.isOpen_nextDesc (h : k.Sound) : k.isOpen k.nextDesc = false := by
  cases hopen : k.isOpen k.nextDesc with
  | false => rfl
  | true => exact absurd (h.listed _ (h.used _ hopen).1).2 (Nat.lt_irrefl _)

theorem Sound.openDesc (h : k.Sound) {f : Nat} (hf : f < k.nextFile) : (k.openDesc f).Sound where
  placed d := by
    change Function.update k.misplaced k.nextDesc false d = false
    by_cases heq : d = k.nextDesc
    · rw [heq, Function.update_self]
    · rw [Function.update_of_ne heq]
      exact h.placed d
  used d hd := by
    change Function.update k.isOpen k.nextDesc false d = true at hd
    change Function.update k.live k.nextDesc true d = true ∧ k.hasModule (Function.update k.owner k.nextDesc f d) = true
    by_cases heq : d = k.nextDesc
    · rw [heq, Function.update_self] at hd
      cases hd
    · rw [Function.update_of_ne heq] at hd
      rw [Function.update_of_ne heq, Function.update_of_ne heq]
      exact h.used d hd
  listed d hd := by
    change Function.update k.live k.nextDesc true d = true at hd
    change d ∈ Function.update k.head f (k.nextDesc :: k.head f) (Function.update k.owner k.nextDesc f d) ∧ d < k.nextDesc + 1
    by_cases heq : d = k.nextDesc
    · rw [heq, Function.update_self, Function.update_self]
      exact ⟨List.mem_cons_self, Nat.lt_succ_self _⟩
    · rw [Function.update_of_ne heq] at hd
      obtain ⟨hmem, hlt⟩ := h.listed d hd
      rw [Function.update_of_ne heq]
      refine ⟨?_, Nat.lt_succ_of_lt hlt⟩
      by_cases hown : k.owner d = f
      · rw [hown] at hmem
        rw [hown, Function.update_self]
        exact List.mem_cons_of_mem _ hmem
      · rw [Function.update_of_ne hown]
        exact hmem
  fresh g hg := by
    have hg : k.nextFile ≤ g := hg
    change Function.update k.head f (k.nextDesc :: k.head f) g = []
    rw [Function.update_of_ne (by omega)]
    exact h.fresh g hg
  known := h.known

theorem Sound.release (h : k.Sound) {d : Nat} (hclosed : k.isOpen d = false) : (k.release d).Sound where
  placed := h.placed
  used d' hd' := by
    obtain ⟨hlive, hmodule⟩ := h.used d' hd'
    have hne : d' ≠ d := by
      rintro rfl
      have hd' : k.isOpen d' = true := hd'
      rw [hclosed] at hd'
      cases hd'
    refine ⟨?_, hmodule⟩
    change Function.update k.live d false d' = true
    rw [Function.update_of_ne hne]
    exact hlive
  listed d' hd' := by
    change Function.update k.live d false d' = true at hd'
    change d' ∈ Function.update k.head (k.owner d) ((k.head (k.owner d)).erase d) (k.owner d') ∧ d' < k.nextDesc
    by_cases heq : d' = d
    · rw [heq, Function.update_self] at hd'
      cases hd'
    · rw [Function.update_of_ne heq] at hd'
      obtain ⟨hmem, hlt⟩ := h.listed d' hd'
      refine ⟨?_, hlt⟩
      by_cases hown : k.owner d' = k.owner d
      · rw [hown] at hmem
        rw [hown, Function.update_self]
        exact (List.mem_erase_of_ne heq).mpr hmem
      · rw [Function.update_of_ne hown]
        exact hmem
  fresh g hg := by
    change Function.update k.head (k.owner d) ((k.head (k.owner d)).erase d) g = []
    by_cases heq : g = k.owner d
    · have hnil := h.fresh g hg
      rw [heq] at hnil
      rw [heq, Function.update_self, hnil]
      rfl
    · rw [Function.update_of_ne heq]
      exact h.fresh g hg
  known := h.known

/-- No descriptor belongs to an entry that is still to come. -/
theorem Sound.owner_ne (h : k.Sound) {d : Nat} (hlive : k.live d = true) : k.owner d ≠ k.nextFile := by
  intro heq
  have hmem := (h.listed d hlive).1
  rw [heq, h.fresh _ (Nat.le_refl _)] at hmem
  cases hmem

theorem Sound.newFile (h : k.Sound) : k.newFile.Sound where
  placed := h.placed
  used d hd := by
    obtain ⟨hlive, hmodule⟩ := h.used d hd
    refine ⟨hlive, ?_⟩
    change Function.update k.hasModule k.nextFile false (k.owner d) = true
    rw [Function.update_of_ne (h.owner_ne hlive)]
    exact hmodule
  listed d hd := by
    obtain ⟨hmem, hlt⟩ := h.listed d hd
    refine ⟨?_, hlt⟩
    change d ∈ Function.update k.head k.nextFile [] (k.owner d)
    rw [Function.update_of_ne (h.owner_ne hd)]
    exact hmem
  fresh g hg := by
    have hg : k.nextFile + 1 ≤ g := hg
    change Function.update k.head k.nextFile [] g = []
    rw [Function.update_of_ne (by omega)]
    exact h.fresh g (by omega)
  known g hg := by
    change g < k.nextFile + 1
    rcases List.mem_append.mp hg with hg | hg
    · exact Nat.lt_succ_of_lt (h.known g hg)
    · rw [List.mem_singleton.mp hg]
      exact Nat.lt_succ_self _

/-- An entry leaves the database. -/
theorem Sound.detach (h : k.Sound) (f : Nat) : ({ k with database := k.database.erase f } : Streams).Sound where
  placed := h.placed
  used := h.used
  listed := h.listed
  fresh := h.fresh
  known g hg := h.known g (List.mem_of_mem_erase hg)

theorem isOpen_closeAll {ds : List Nat} {d : Nat} (h : (k.closeAll ds).isOpen d = true) :
    k.isOpen d = true ∧ d ∉ ds ∧ (k.closeAll ds).owner d = k.owner d := by
  induction ds generalizing k with
  | nil => exact ⟨h, List.not_mem_nil, rfl⟩
  | cons d' ds ih =>
    obtain ⟨hopen, hnot, howner⟩ := ih h
    change Function.update k.isOpen d' false d = true at hopen
    by_cases heq : d = d'
    · rw [heq, Function.update_self] at hopen
      cases hopen
    · rw [Function.update_of_ne heq] at hopen
      exact ⟨hopen, List.not_mem_cons_of_ne_of_not_mem heq hnot, howner⟩

/-- An entry whose descriptors have all given up their handles. -/
theorem Sound.closed_closeAll (h : k.Sound) (f : Nat) : (k.closeAll (k.head f)).Closed f := by
  intro d hd heq
  obtain ⟨hopen, hnot, howner⟩ := isOpen_closeAll hd
  have hmem := (h.listed d (h.used d hopen).1).1
  rw [howner] at heq
  rw [heq] at hmem
  exact hnot hmem

end Streams

/-- A part of a request keeps the streams sound, and `events` is what it does with handles. -/
def State.Uses (s : State) (events : List HandleEvent) (t : State) : Prop :=
  s.streams.Sound → t.streams.Sound ∧ execute HandleEvent.next s.streams.isOpen events = some t.streams.isOpen

section uses

variable {s t u : State} {es es' : List HandleEvent} {d : Nat}

theorem State.Uses.trans (h : s.Uses es t) (h' : t.Uses es' u) : s.Uses (es ++ es') u := by
  intro hs
  obtain ⟨ht, hes⟩ := h hs
  obtain ⟨hu, hes'⟩ := h' ht
  refine ⟨hu, ?_⟩
  rw [execute_append, hes]
  exact hes'

/-- What changes nothing of the streams does nothing with handles. -/
theorem State.Uses.same (h : t.streams = s.streams) : s.Uses [] t := by
  intro hs
  rw [h]
  exact ⟨hs, rfl⟩

theorem State.Uses.then_same (h : s.Uses es t) (h' : u.streams = t.streams) : s.Uses es u := by
  unfold State.Uses at h ⊢
  rwa [h']

theorem State.Uses.after_same (h : t.streams = s.streams) (h' : t.Uses es u) : s.Uses es u := by
  unfold State.Uses at h' ⊢
  rwa [← h]

/-- An entry gets a module, or loses it while none of its descriptors has a handle. -/
theorem State.Uses.setModule {f : Nat} {b : Bool} (h : t.streams = s.streams.setModule f b)
    (hclosed : s.streams.Sound → b = false → s.streams.Closed f) : s.Uses [] t := by
  intro hs
  rw [h]
  exact ⟨hs.setModule (hclosed hs), rfl⟩

theorem execute_closed (k : Streams) (d : Nat) :
    execute HandleEvent.next k.isOpen (if k.isOpen d then [.closed d] else []) = some (k.close d).isOpen := by
  unfold Streams.close
  cases hd : k.isOpen d with
  | true =>
    rw [if_pos rfl, execute, HandleEvent.next, hd]
    rfl
  | false =>
    rw [if_neg Bool.false_ne_true, execute, ← hd, Function.update_eq_self]

end uses

/-! ## What leaves the streams alone -/

section frames

variable {Γ : Config} {env : Env} {s : State} {f d : Nat}

theorem streams_modFile_eq (g : FileT → FileT) :
    (s.modFile f g).streams =
      { s.streams with
        hasModule := Function.update s.streams.hasModule f (g (s.files f)).compressor.isSome
        head := Function.update s.streams.head f (g (s.files f)).head } := by
  have hfile : ∀ f', (s.modFile f g).streams.hasModule f' =
        Function.update s.streams.hasModule f (g (s.files f)).compressor.isSome f' ∧
      (s.modFile f g).streams.head f' = Function.update s.streams.head f (g (s.files f)).head f' := by
    intro f'
    unfold State.streams
    dsimp only
    rw [State.files_modFile]
    by_cases heq : f' = f
    · rw [if_pos heq, heq, Function.update_self, Function.update_self]
      exact ⟨rfl, rfl⟩
    · rw [if_neg heq, Function.update_of_ne heq, Function.update_of_ne heq]
      exact ⟨rfl, rfl⟩
  exact Streams.ext rfl rfl rfl rfl (funext fun f' => (hfile f').1) (funext fun f' => (hfile f').2) rfl rfl rfl

/-- A change of an entry that keeps its descriptors. -/
theorem streams_modFile {g : FileT → FileT} (h : (g (s.files f)).head = (s.files f).head) :
    (s.modFile f g).streams = s.streams.setModule f (g (s.files f)).compressor.isSome := by
  rw [streams_modFile_eq, h]
  unfold Streams.setModule
  exact congrArg (fun head => { s.streams with
    hasModule := Function.update s.streams.hasModule f (g (s.files f)).compressor.isSome, head := head })
      (Function.update_eq_self f s.streams.head)

/-- A change of an entry that keeps its module, and changes the list of its descriptors. -/
theorem streams_modFile_head {g : FileT → FileT} (hmodule : (g (s.files f)).compressor.isSome = (s.files f).compressor.isSome) :
    (s.modFile f g).streams = { s.streams with head := Function.update s.streams.head f (g (s.files f)).head } := by
  rw [streams_modFile_eq, hmodule]
  exact congrArg (fun hasModule => { s.streams with
    hasModule := hasModule, head := Function.update s.streams.head f (g (s.files f)).head })
      (Function.update_eq_self f s.streams.hasModule)

/-- A change of an entry that keeps its module. -/
theorem streams_modFile_same {g : FileT → FileT} (h : (g (s.files f)).head = (s.files f).head)
    (hmodule : (g (s.files f)).compressor.isSome = (s.files f).compressor.isSome) : (s.modFile f g).streams = s.streams := by
  rw [streams_modFile h, hmodule]
  exact s.streams.setModule_self f

theorem streams_modDesc_eq (h : Desc → Desc) :
    (s.modDesc d h).streams =
      { s.streams with
        isOpen := Function.update s.streams.isOpen d (h (s.descs d)).handle.isSome
        misplaced := Function.update s.streams.misplaced d
          ((h (s.descs d)).handle.isNone && decide ((h (s.descs d)).offset ≠ 0))
        owner := Function.update s.streams.owner d (h (s.descs d)).file
        live := Function.update s.streams.live d (h (s.descs d)).live } := by
  have hdesc : ∀ d', (s.modDesc d h).streams.isOpen d' = Function.update s.streams.isOpen d (h (s.descs d)).handle.isSome d' ∧
      (s.modDesc d h).streams.misplaced d' = Function.update s.streams.misplaced d
        ((h (s.descs d)).handle.isNone && decide ((h (s.descs d)).offset ≠ 0)) d' ∧
      (s.modDesc d h).streams.owner d' = Function.update s.streams.owner d (h (s.descs d)).file d' ∧
      (s.modDesc d h).streams.live d' = Function.update s.streams.live d (h (s.descs d)).live d' := by
    intro d'
    unfold State.streams
    dsimp only
    rw [State.descs_modDesc]
    by_cases heq : d' = d
    · rw [if_pos heq, heq, Function.update_self, Function.update_self, Function.update_self, Function.update_self]
      exact ⟨rfl, rfl, rfl, rfl⟩
    · rw [if_neg heq, Function.update_of_ne heq, Function.update_of_ne heq, Function.update_of_ne heq, Function.update_of_ne heq]
      exact ⟨rfl, rfl, rfl, rfl⟩
  exact Streams.ext (funext fun d' => (hdesc d').1) (funext fun d' => (hdesc d').2.1) (funext fun d' => (hdesc d').2.2.1)
    (funext fun d' => (hdesc d').2.2.2) rfl rfl rfl rfl rfl

/-- A change of a descriptor that does not misplace it. -/
theorem streams_modDesc {h : Desc → Desc} (hfile : (h (s.descs d)).file = (s.descs d).file)
    (hlive : (h (s.descs d)).live = (s.descs d).live)
    (hplaced : ((h (s.descs d)).handle.isNone && decide ((h (s.descs d)).offset ≠ 0)) = s.streams.misplaced d) :
    (s.modDesc d h).streams =
      { s.streams with isOpen := Function.update s.streams.isOpen d (h (s.descs d)).handle.isSome } := by
  have howner : Function.update s.streams.owner d (h (s.descs d)).file = s.streams.owner := by
    rw [hfile]
    exact Function.update_eq_self d s.streams.owner
  have hused : Function.update s.streams.live d (h (s.descs d)).live = s.streams.live := by
    rw [hlive]
    exact Function.update_eq_self d s.streams.live
  rw [streams_modDesc_eq, howner, hused, hplaced, Function.update_eq_self]

/-- A descriptor is freed. -/
theorem streams_freeDesc : (s.modDesc d (fun desc => { desc with fd := none, live := false })).streams =
    { s.streams with live := Function.update s.streams.live d false } := by
  rw [streams_modDesc_eq]
  have hopen := Function.update_eq_self d s.streams.isOpen
  have hmisplaced := Function.update_eq_self d s.streams.misplaced
  have howner := Function.update_eq_self d s.streams.owner
  exact Streams.ext hopen hmisplaced howner rfl rfl rfl rfl rfl rfl

/-- A change of a descriptor that keeps its handle and its offset. -/
theorem streams_modDesc_same {h : Desc → Desc} (hfile : (h (s.descs d)).file = (s.descs d).file)
    (hlive : (h (s.descs d)).live = (s.descs d).live) (hopen : (h (s.descs d)).handle.isSome = (s.descs d).handle.isSome)
    (hoffset : (h (s.descs d)).offset = (s.descs d).offset) : (s.modDesc d h).streams = s.streams := by
  rw [streams_modDesc hfile hlive, hopen]
  · exact congrArg (fun isOpen => { s.streams with isOpen := isOpen }) (Function.update_eq_self d s.streams.isOpen)
  · rw [← Option.not_isSome, hopen, hoffset, Option.not_isSome]
    rfl

/-- A descriptor with a handle is moved. -/
theorem streams_modDesc_offset (n : Nat) (hopen : s.streams.isOpen d = true) :
    (s.modDesc d (fun desc => { desc with offset := desc.offset + n })).streams = s.streams := by
  have hnone : (s.descs d).handle.isNone = false := by
    rw [← Option.not_isSome, ← isOpen_streams, hopen]
    rfl
  rw [streams_modDesc rfl rfl]
  · exact congrArg (fun isOpen => { s.streams with isOpen := isOpen }) (Function.update_eq_self d s.streams.isOpen)
  · unfold State.streams
    dsimp only
    rw [hnone]
    rfl

/-- A descriptor gives up its handle and goes back to the start. -/
theorem streams_closeDesc (hplaced : s.streams.misplaced d = false) :
    (s.modDesc d (fun desc => { desc with offset := 0, handle := none })).streams = s.streams.close d :=
  streams_modDesc rfl rfl hplaced.symm

/-- A descriptor gets a handle. -/
theorem streams_openDesc (handle : Handle) (hplaced : s.streams.misplaced d = false) :
    (s.modDesc d (fun desc => { desc with handle := some handle })).streams = s.streams.openAt d :=
  streams_modDesc rfl rfl hplaced.symm

@[simp] theorem streams_withFs (k : Backing → Backing) : (s.withFs k).streams = s.streams := rfl

@[simp] theorem streams_abort : s.abort.streams = s.streams := rfl

@[simp] theorem streams_assert (c : Bool) : (s.assert Γ c).streams = s.streams := by
  rcases State.assert_eq Γ s c with h | h <;> rw [h]
  exact streams_abort

@[simp] theorem streams_flushFileCache : (flushFileCache s f).streams = s.streams := by
  unfold flushFileCache
  split
  · rfl
  · exact streams_modFile_same rfl rfl

@[simp] theorem streams_dedupDiscard : (dedupDiscard s f).streams = s.streams := by
  have h : (s.modFile f (fun file => { file with deduped := false })).streams = s.streams := streams_modFile_same rfl rfl
  unfold dedupDiscard
  split
  · rfl
  · dsimp only
    split <;> exact h

@[simp] theorem streams_discard : (discard Γ s f).streams = s.streams := by
  unfold discard
  split
  · exact streams_dedupDiscard
  · rfl

@[simp] theorem streams_doUndedup : (doUndedup Γ env s f).1.streams = s.streams := by
  have h : (dedupDiscard s f).streams = s.streams := streams_dedupDiscard
  unfold doUndedup
  dsimp only
  split
  · rfl
  split
  · rfl
  split
  · rfl
  split
  · rfl
  split
  · exact h
  split
  · exact h
  split
  · exact h
  · split <;> exact h

@[simp] theorem streams_writeFd (fd : Fd) (buf : Bytes) : (writeFd s d fd buf).streams = s.streams := by
  unfold writeFd
  dsimp only
  split
  · exact streams_modDesc_same rfl rfl rfl rfl
  · exact streams_modDesc_same rfl rfl rfl rfl

@[simp] theorem streams_codecClose (m : Module) : (codecClose Γ env s m d).streams = s.streams := by
  unfold codecClose
  split
  · split
    · exact streams_writeFd _ _
    · rfl
  · rfl

@[simp] theorem streams_restoreTimes (stbuf : Option Attr) : (restoreTimes env s f stbuf).streams = s.streams := by
  unfold restoreTimes
  split
  · split <;> rfl
  · rfl

@[simp] theorem streams_fileClose : (fileClose Γ s d).streams = s.streams := by
  unfold fileClose
  rw [streams_modDesc_same rfl rfl rfl rfl, streams_assert]

@[simp] theorem streams_reopenAll (temp : Nat) (ds : List Nat) : (reopenAll env s temp ds).streams = s.streams := by
  induction ds generalizing s with
  | nil => rfl
  | cons d ds ih => rw [reopenAll, ih, streams_modDesc_same rfl rfl rfl rfl]

@[simp] theorem streams_invalidateSize : (invalidateSize s f).streams = s.streams := streams_modFile_same rfl rfl

@[simp] theorem streams_acknowledgeCancel : (s.modFile f acknowledgeCancel).streams = s.streams := by
  refine streams_modFile_same ?_ ?_ <;> unfold acknowledgeCancel <;> split <;> rfl

end frames

end FuseCompress
