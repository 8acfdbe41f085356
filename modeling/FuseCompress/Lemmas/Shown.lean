import FuseCompress.Lemmas.Linked
import FuseCompress.Lemmas.Listing

/-!
# What the entries of two linked names remember

The two names of an inode have an entry each. While no module writes to the inode and both entries are right about its contents
(`State.Alike`), the names show the same. One lemma for each handler says that it keeps them so (`State.Serves`).
-/

namespace FuseCompress

variable {Γ : Config} {env : Env} {a b : Filename} {i f : Nat} {s s' s'' : State}

/-! ## An entry that is right about its file -/

/-- The entry of a raw file has no module. -/
theorem FileT.Current.raw {data : Bytes} {file : FileT} (h : file.Current Γ data) (hraw : parse Γ data = none) :
    file.compressor = none := by
  rcases h.module with e | ⟨e, -⟩
  · rw [e, hraw]
    rfl
  · exact e

theorem FileT.Current.of_raw {data : Bytes} {file : FileT} (hraw : parse Γ data = none) (hm : file.compressor = none) :
    file.Current Γ data := by
  refine ⟨Or.inl ?_, Or.inr (fun m n e => ?_)⟩
  · rw [hm, hraw]
    rfl
  · rw [hraw] at e
    cases e

/-- What `file_read_header` gives an entry that is right about its file. -/
theorem FileT.Current.readHeader {data : Bytes} {file : FileT} (h : file.Current Γ data) (size : Int) :
    (fileReadHeader Γ data file.compressor size).1 = (parse Γ data).map Prod.fst ∧
      ∀ m n, parse Γ data = some (m, n) → (fileReadHeader Γ data file.compressor size).2 = n := by
  cases hp : parse Γ data with
  | some r =>
    obtain ⟨m, n⟩ := r
    rw [fileReadHeader_of_parse hp]
    refine ⟨rfl, fun m' n' e => ?_⟩
    cases e
    rfl
  | none =>
    refine ⟨?_, fun m n e => by cases e⟩
    rw [h.raw hp]
    unfold fileReadHeader
    unfold parse at hp
    split
    · rfl
    · rename_i hlen
      rw [if_neg hlen, Option.map_eq_none_iff] at hp
      rw [hp]
      rfl

/-! ## The state -/

/-- The entries of two names are right about an inode, which no module writes to. -/
structure State.Alike (Γ : Config) (a b : Filename) (i : Nat) (s : State) : Prop where
  old : i < s.fs.next
  unwritten : ¬s.Written i
  current : ∀ g, s.Names a b g → (s.files g).Current Γ (s.data i)

/-- A handler leaves the entries of two names right about an inode, which no module writes to afterwards. A header that the inode has
afterwards was there before, with the same stream behind it. -/
structure State.Serves (Γ : Config) (a b : Filename) (i : Nat) (s s' : State) : Prop where
  next : s.fs.next ≤ s'.fs.next
  unwritten : ¬s'.Written i
  header : parse Γ (s'.data i) ≠ none → s'.data i = s.data i
  current : ∀ g, s.Names a b g → (s'.files g).Current Γ (s'.data i)

theorem State.Alike.serves (h : s.Alike Γ a b i) (hs : Spares i s s')
    (hcurrent : ∀ g, s.Names a b g → (s'.files g).Current Γ (s.data i)) : s.Serves Γ a b i s' where
  next := hs.next
  unwritten hw := h.unwritten (hs.written hw)
  header _ := hs.data h.unwritten
  current g hg := by
    rw [hs.data h.unwritten]
    exact hcurrent g hg

/-- Nothing that matters happens. -/
theorem State.Alike.serves_all (h : s.Alike Γ a b i) (hs : Spares i s s') (hk : s.KeepsAll s') : s.Serves Γ a b i s' :=
  h.serves hs (fun g hg => (h.current g hg).keeps (hk g))

/-- One entry changes, and is right afterwards when it is one of those that count. -/
theorem State.Alike.serves_but (h : s.Alike Γ a b i) (hs : Spares i s s') (hk : s.KeepsBut f s')
    (hown : s.Names a b f → (s'.files f).Current Γ (s.data i)) : s.Serves Γ a b i s' := by
  refine h.serves hs (fun g hg => ?_)
  by_cases e : g = f
  · subst e
    exact hown hg
  · exact (h.current g hg).keeps (hk g e)

theorem State.Alike.refl (h : s.Alike Γ a b i) : s.Serves Γ a b i s := h.serves_all (.refl i s) (.refl s)

theorem names_of_books {g : Nat} (hb : s'.books = s.books) : s'.Names a b g ↔ s.Names a b g := by
  have hdb : s'.database = s.database := congrArg Books.database hb
  unfold State.Names
  rw [hdb, filename_of_books hb]

/-- What is changed before the handler proper does not matter. -/
theorem State.Alike.keep (h : s.Alike Γ a b i) (hs : Spares i s s') (hk : s.KeepsAll s')
    (hnames : ∀ g, s'.Names a b g → s.Names a b g) : s'.Alike Γ a b i := by
  have hserves := h.serves_all hs hk
  exact ⟨Nat.lt_of_lt_of_le h.old hs.next, hserves.unwritten, fun g hg => hserves.current g (hnames g hg)⟩

theorem State.Serves.before (h : s'.Serves Γ a b i s'') (hu : ¬s.Written i) (hs : Spares i s s')
    (hnames : ∀ g, s.Names a b g → s'.Names a b g) : s.Serves Γ a b i s'' where
  next := hs.next.trans h.next
  unwritten := h.unwritten
  header hp := (h.header hp).trans (hs.data hu)
  current g hg := h.current g (hnames g hg)

/-! ## `getattr` and `open` -/

theorem getattrLocked_serves (h : s.Alike Γ a b i) {full : Filename} {st : Stat} (hname : (s.files f).filename = full)
    (hino : full = a ∨ full = b → s.fs.inoOf full = some i)
    (hlook : full = a ∨ full = b → parse Γ (s.data i) ≠ none → headerSize ≤ asU64 st.size) :
    s.Serves Γ a b i (getattrLocked Γ env s f full st).1 := by
  refine h.serves_but (f := f) (.of_calm (calm_getattrLocked Γ env s f full st)) ?_ (fun hf => ?_)
  · unfold getattrLocked
    dsimp only
    split
    · split
      · split
        · exact (State.KeepsAll.refl s).but f
        · split
          · dsimp only
            exact keepsBut_modFile f _
          · dsimp only
            exact (keepsBut_modFile f _).trans (keepsBut_modFile f _)
      · dsimp only
        exact keepsBut_modFile f _
    · split
      · exact (State.KeepsAll.refl s).but f
      · exact (State.KeepsAll.refl s).but f
  · have hcurrent := h.current f hf
    have hfull : full = a ∨ full = b := hname ▸ hf.2
    unfold getattrLocked
    dsimp only
    split
    · rename_i hsize
      split
      · split
        · exact hcurrent
        · rename_i j hj
          have e : j = i := by
            split at hj
            · exact Option.some.inj (hj.symm.trans (hino hfull))
            · cases hj
          subst e
          obtain ⟨hmodule, hread⟩ := hcurrent.readHeader st.size
          split
          · dsimp only
            rw [State.files_modFile, if_pos rfl]
            exact ⟨Or.inl hmodule, Or.inl hsize⟩
          · dsimp only
            rw [State.files_modFile, if_pos rfl, State.files_modFile, if_pos rfl]
            exact ⟨Or.inl hmodule, Or.inr hread⟩
      · rename_i hshort
        have hraw : parse Γ (s.data i) = none := by
          by_contra hp
          exact hshort (hlook hfull hp)
        dsimp only
        rw [State.files_modFile, if_pos rfl]
        exact .of_raw hraw (hcurrent.raw hraw)
    · split
      · exact hcurrent
      · exact hcurrent

/-- A new descriptor has no module. -/
theorem spares_openDescriptor (s : State) (f ino pos : Nat) (writable : Bool) (size : Int) :
    Spares i s (openDescriptor s f ino pos writable size).1 := by
  refine ⟨Nat.le_refl _, fun _ => rfl, ?_⟩
  rintro ⟨d, fd, hfd, hi, hw⟩
  change (Function.update s.descs s.nextDesc _ d).fd = some fd at hfd
  change (Function.update s.descs s.nextDesc _ d).writing at hw
  rw [Function.update_apply] at hfd hw
  split at hw
  · obtain ⟨chunks, hh⟩ := hw
    cases hh
  · rename_i hne
    rw [if_neg hne] at hfd
    exact ⟨d, fd, hfd, hi, hw⟩

theorem keepsBut_openDescriptor (s : State) (f ino pos : Nat) (writable : Bool) (size : Int) :
    s.KeepsBut f (openDescriptor s f ino pos writable size).1 := by
  intro g hg
  change (s.files g).Keeps (Function.update s.files f _ g)
  rw [Function.update_of_ne hg]
  exact .refl _

theorem openFile_serves (h : s.Alike Γ a b i) {full : Filename} {writable : Bool} (hname : (s.files f).filename = full)
    (hino : full = a ∨ full = b → s.fs.inoOf full = some i) : s.Serves Γ a b i (openFile Γ env s f full writable).1 := by
  unfold openFile
  split
  · exact h.refl
  rename_i j hj
  split
  · dsimp only
    exact h.serves_all (spares_modFile f) (keepsAll_modFile ⟨rfl, Or.inl rfl, id⟩)
  dsimp only
  have hnote : s.KeepsAll (noteLinks s f j) := keepsAll_modFile ⟨rfl, Or.inl rfl, id⟩
  have hfs : (noteLinks s f j).fs = s.fs := rfl
  have hspare : Spares i s (noteLinks s f j) := spares_modFile f
  generalize noteLinks s f j = s₁ at hnote hfs hspare ⊢
  have hown : s.Names a b f → j = i ∧ (s₁.files f).Current Γ (s.data i) := by
    intro hf
    refine ⟨?_, (h.current f hf).keeps (hnote f)⟩
    split at hj
    · exact Option.some.inj (hj.symm.trans (hino (hname ▸ hf.2)))
    · cases hj
  have hdata : s₁.data j = s.data j := congrArg (fun b => (Backing.inodes b j).data) hfs
  split
  · split
    · dsimp only
      exact h.serves_all (hspare.trans (spares_modFile f)) (hnote.trans (keepsAll_modFile ⟨rfl, Or.inl rfl, id⟩))
    · refine h.serves_but (f := f) ((hspare.trans (spares_modFile f)).trans (spares_openDescriptor _ f j headerSize writable _))
        (((hnote.but f).trans (keepsBut_modFile f _)).trans (keepsBut_openDescriptor _ f j headerSize writable _)) (fun hf => ?_)
      obtain ⟨rfl, hcurrent⟩ := hown hf
      obtain ⟨hmodule, hread⟩ := hcurrent.readHeader ((s.data j).length : Int)
      unfold openDescriptor
      rw [State.files_modFile, if_pos rfl]
      dsimp only
      rw [State.files_modFile, if_pos rfl, hdata]
      exact ⟨Or.inl hmodule, Or.inr hread⟩
  · rename_i hshort
    refine h.serves_but (f := f) ((hspare.trans (spares_modFile f)).trans (spares_openDescriptor _ f j 0 writable _))
      (((hnote.but f).trans (keepsBut_modFile f _)).trans (keepsBut_openDescriptor _ f j 0 writable _)) (fun hf => ?_)
    obtain ⟨rfl, -⟩ := hown hf
    have hraw : parse Γ (s.data j) = none := by
      unfold parse
      rw [if_pos (Nat.lt_of_not_le (hdata ▸ hshort))]
    refine .of_raw hraw ?_
    unfold openDescriptor
    rw [State.files_modFile, if_pos rfl]
    dsimp only
    rw [State.files_modFile, if_pos rfl]

/-! ## `truncate` -/

theorem inoOf_ensureRaw {q : Filename} (hi : i < s.fs.next) (h : (ensureRaw Γ env s f).1.fs.inoOf q = some i) :
    s.fs.inoOf q = some i := by
  unfold ensureRaw at h
  split at h
  · exact h
  · rcases doDecompress_replaces Γ env s f with hnames | ⟨-, -, temp, -, -, htemp, hnames⟩
    · rw [← inoOf_of_names hnames]
      exact h
    · rw [Backing.inoOf_eq_some] at h ⊢
      unfold Backing.find at h ⊢
      rw [hnames, Assoc.find_insert] at h
      split at h
      · cases h
        exact absurd hi (Nat.not_lt.mpr htemp)
      · exact h

/-- The last part of `fusecompress_truncate` fails and changes nothing, or cuts the file. -/
theorem truncateFile_cases (env : Env) (s : State) (f : Nat) (full : Filename) (size : Nat) :
    ((truncateFile env s f full size).1 = s ∧ (env.ok .openTruncate = true → env.ok .ftruncate = true → s.fs.inoOf full = none)) ∨
      ∃ j, s.fs.inoOf full = some j ∧ (truncateFile env s f full size).1 =
        (s.withFs (fun b => b.setData j (Bytes.resize (b.inodes j).data size))).modFile f (fun file => { file with size := size }) := by
  unfold truncateFile
  split
  · rename_i hj
    refine Or.inl ⟨rfl, fun hopen hcut => ?_⟩
    rw [if_pos ⟨hopen, hcut⟩] at hj
    exact hj
  · rename_i j hj
    refine Or.inr ⟨j, ?_, rfl⟩
    split at hj
    · exact hj
    · cases hj

/-- The condition on a truncation of the inode `i` through the entry `f`. -/
def State.CutsRaw (Γ : Config) (env : Env) (a b : Filename) (i f size : Nat) (s : State) : Prop :=
  StaysRaw Γ (s.data i) (Bytes.resize (s.data i) size) ∨
    size = 0 ∧ env.ok .openTruncate = true ∧ env.ok .ftruncate = true ∧ ∀ g, g ≠ f → s.Names a b g → (s.files g).compressor = none

/-- A file that is cut as the condition asks has no header afterwards, and the other entries have no module. -/
theorem State.CutsRaw.raw {size : Nat} (hcut : s.CutsRaw Γ env a b i f size) (h : s.Alike Γ a b i) :
    parse Γ (Bytes.resize (s.data i) size) = none ∧ ∀ g, g ≠ f → s.Names a b g → (s.files g).compressor = none := by
  rcases hcut with ⟨hraw, hafter⟩ | ⟨rfl, -, -, hothers⟩
  · exact ⟨hafter, fun g _ hg => (h.current g hg).raw hraw⟩
  · refine ⟨?_, hothers⟩
    unfold parse
    rw [if_pos]
    rw [Bytes.length_resize]
    decide

/-- The file is cut after some work on its entry, which has left it without a module if it is one that counts. -/
theorem truncateFile_serves (h : s.Alike Γ a b i) {full : Filename} {size : Nat} (hino : s.Names a b f → s.fs.inoOf full = some i)
    (hcut : s.fs.inoOf full = some i → s.CutsRaw Γ env a b i f size) (hs : Spares i s s') (hk : s.KeepsBut f s')
    (hold : s'.fs.inoOf full = some i → s.fs.inoOf full = some i)
    (hown : s.Names a b f → s'.fs.inoOf full = s.fs.inoOf full ∧ (s'.files f).compressor = none)
    (hfails : s.Names a b f → (env.ok .openTruncate = true → env.ok .ftruncate = true → s'.fs.inoOf full = none) →
      (s'.files f).Current Γ (s.data i)) : s.Serves Γ a b i (truncateFile env s' f full size).1 := by
  rcases truncateFile_cases env s' f full size with ⟨e, hfailed⟩ | ⟨j, hj, e⟩
  · rw [e]
    exact h.serves_but hs hk (fun hf => hfails hf hfailed)
  rw [e]
  by_cases hji : j = i
  · subst hji
    obtain ⟨hraw, hothers⟩ := (hcut (hold hj)).raw h
    have hdata : ((s'.withFs (fun b => b.setData j (Bytes.resize (b.inodes j).data size))).modFile f
        (fun file => { file with size := size })).data j = Bytes.resize (s.data j) size := by
      rw [State.data_modFile, ← hs.data h.unwritten]
      exact (Backing.data_setData _ _ _ _).trans (if_pos rfl)
    refine ⟨hs.next, fun hw => h.unwritten (hs.written hw), fun hp => ?_, fun g hg => ?_⟩
    · rw [hdata] at hp
      exact absurd hraw hp
    · rw [hdata, State.files_modFile]
      split
      · rename_i e
        subst e
        exact .of_raw hraw (hown hg).2
      · rename_i hne
        exact .of_raw hraw ((hk g hne).compressor.trans (hothers g hne hg))
  · have hcuts : s'.KeepsBut f ((s'.withFs (fun b => b.setData j (Bytes.resize (b.inodes j).data size))).modFile f
        (fun file => { file with size := size })) := by
      intro g hg
      rw [State.files_modFile, if_neg hg]
      exact .refl _
    refine h.serves_but ((hs.trans (spares_setData (Or.inr hji))).trans (spares_modFile f)) (hk.trans hcuts) (fun hf => ?_)
    have hsame := (hown hf).1
    rw [hj, hino hf] at hsame
    exact absurd (Option.some.inj hsame) hji

theorem keepsAll_truncateClose (Γ : Config) (env : Env) (s : State) (f : Nat) (ds : List Nat) :
    s.KeepsAll (truncateClose Γ env s f ds) := by
  induction ds generalizing s with
  | nil => exact .refl s
  | cons d ds ih =>
    have hclose : s.KeepsAll ((directClose Γ (env.of d) s f d).modDesc d (fun desc =>
        { desc with fd := if (env.of d).ok .lseek then desc.fd.map (fun fd => { fd with pos := 0 }) else desc.fd })) :=
      keepsAll_directClose Γ (env.of d) s f d
    exact hclose.trans (ih _)

theorem spares_truncateClose (Γ : Config) (env : Env) (s : State) (f : Nat) (ds : List Nat) :
    Spares i s (truncateClose Γ env s f ds) := by
  induction ds generalizing s with
  | nil => exact .refl i s
  | cons d ds ih =>
    have hclose : Spares i s (directClose Γ (env.of d) s f d) := spares_directClose Γ (env.of d) s f d
    refine (hclose.trans (.of_calm (calm_modDesc d ⟨rfl, rfl, id, fun fd' h => ?_, Or.inl⟩))).trans (ih _)
    dsimp only at h
    split at h
    · obtain ⟨fd, hfd, rfl⟩ := Option.map_eq_some_iff.mp h
      exact ⟨fd, hfd, rfl⟩
    · exact ⟨fd', h, rfl⟩

theorem truncateLocked_serves (hd : Γ.dedupEnabled = false) (h : s.Alike Γ a b i) {full : Filename} {size : Nat}
    (hino : s.Names a b f → s.fs.inoOf full = some i) (hcut : s.fs.inoOf full = some i → s.CutsRaw Γ env a b i f size) :
    s.Serves Γ a b i (truncateLocked Γ env s f full size).1 := by
  unfold truncateLocked
  dsimp only
  rw [discard_off hd]
  split
  · rename_i hsize
    -- an entry that counts has no module, so there is nothing to decompress
    have hown : s.Names a b f → ensureRaw Γ env s f = (s, true) := by
      intro hf
      rcases hcut (hino hf) with ⟨hraw, -⟩ | ⟨hzero, -⟩
      · exact if_pos ((h.current f hf).raw hraw)
      · exact absurd hzero (Nat.ne_of_gt hsize)
    have hs : Spares i s (ensureRaw Γ env s f).1 := spares_ensureRaw Γ env s f h.old
    have hk : s.KeepsBut f (ensureRaw Γ env s f).1 :=
      (apart_ensureRaw (D := fun _ => True) env (fun _ _ => trivial)).keepsBut
    have hold : (ensureRaw Γ env s f).1.fs.inoOf full = some i → s.fs.inoOf full = some i := inoOf_ensureRaw h.old
    split
    · rename_i s₁ e
      rw [e] at hs hk hold hown
      have hsame : s.Names a b f → s₁ = s := fun hf => congrArg Prod.fst (hown hf)
      refine truncateFile_serves h hino hcut hs hk hold (fun hf => ?_) (fun hf _ => ?_)
      · rw [hsame hf]
        rcases hcut (hino hf) with ⟨hraw, -⟩ | ⟨hzero, -⟩
        · exact ⟨rfl, (h.current f hf).raw hraw⟩
        · exact absurd hzero (Nat.ne_of_gt hsize)
      · rw [hsame hf]
        exact h.current f hf
    · rename_i s₁ e
      rw [e] at hs hk hown
      refine h.serves_but hs hk (fun hf => ?_)
      cases hown hf
  · split
    · rename_i hm
      exact truncateFile_serves h hino hcut (.refl i s) ((State.KeepsAll.refl s).but f) id (fun _ => ⟨rfl, hm⟩)
        (fun hf _ => h.current f hf)
    · rename_i hm
      have hs : Spares i s (truncateClose Γ env s f (s.files f).head) := spares_truncateClose Γ env s f _
      have hk := keepsAll_truncateClose Γ env s f (s.files f).head
      have hnames := names_truncateClose Γ env s f (s.files f).head
      generalize truncateClose Γ env s f (s.files f).head = s₁ at hs hk hnames ⊢
      have hsame : (s₁.modFile f (fun file => { file with compressor := none })).fs.inoOf full = s.fs.inoOf full := inoOf_of_names hnames full
      refine truncateFile_serves h hino hcut (hs.trans (spares_modFile f)) ((hk.but f).trans (keepsBut_modFile f _))
        (fun hj => hsame.symm.trans hj) (fun hf => ⟨hsame, ?_⟩) (fun hf hfails => ?_)
      · rw [State.files_modFile, if_pos rfl]
      · rcases hcut (hino hf) with ⟨hraw, -⟩ | ⟨-, hopen, hftruncate, -⟩
        · exact absurd ((h.current f hf).raw hraw) hm
        · rw [hsame, hino hf] at hfails
          cases hfails hopen hftruncate

/-! ## Requests on a descriptor -/

theorem readLocked_serves (h : s.Alike Γ a b i) {d size offset : Nat}
    (hcalled : descDecompresses Γ s d f (.read size offset) = true → s.Names a b f → parse Γ (s.data i) = none) :
    s.Serves Γ a b i (readLocked Γ env s f d size offset).1 := by
  have hcalled : ((s.files f).compressor.isSome && readDecompresses Γ s f d size offset) = true → s.Names a b f →
      parse Γ (s.data i) = none := hcalled
  unfold readLocked
  cases hm : (s.files f).compressor with
  | none => exact h.refl
  | some m =>
    obtain ⟨hbut, hall⟩ := directDecompress_keeps Γ env s m f d size offset
    refine h.serves_but (spares_directDecompress Γ env s m f d size offset h.old) hbut (fun hf => ?_)
    cases hc : readDecompresses Γ s f d size offset with
    | false => exact (h.current f hf).keeps (hall hc f)
    | true =>
      rw [hm, hc] at hcalled
      rw [(h.current f hf).raw (hcalled rfl hf)] at hm
      cases hm

theorem writeLocked_serves (hd : Γ.dedupEnabled = false) (h : s.Alike Γ a b i) {d offset : Nat} {buf : Bytes}
    (hraw : s.Names a b f ∨ (∃ fd, (s.descs d).fd = some fd ∧ fd.ino = i) → writesRaw Γ (s.files f) offset = true) :
    s.Serves Γ a b i (writeLocked Γ env s f d buf offset).1 := by
  unfold writeLocked
  dsimp only
  rw [discard_off hd]
  have hs : Spares i s (writeChoose Γ s f offset) := .of_calm (calm_writeChoose Γ s f offset)
  have hk : s.KeepsBut f (writeChoose Γ s f offset) := (apart_writeChoose (D := fun _ => True) offset).keepsBut
  have hdescs : (writeChoose Γ s f offset).descs = s.descs := by
    unfold writeChoose
    rw [State.descs_modFile, State.descs_assert]
  have hown : writesRaw Γ (s.files f) offset = true → ((writeChoose Γ s f offset).files f).compressor = none ∧
      (s.files f).Keeps ((writeChoose Γ s f offset).files f) := by
    intro hwrites
    unfold writesRaw at hwrites
    rw [Bool.and_eq_true, Bool.or_eq_true, Bool.not_eq_true', Option.isNone_iff_eq_none, Option.isNone_iff_eq_none] at hwrites
    obtain ⟨hnone, hchoose⟩ := hwrites
    unfold writeChoose
    rw [State.files_modFile, if_pos rfl, State.files_assert]
    have hmodule : (if mayChoose (s.files f) offset then chooseCompressor Γ (s.files f).filename else (s.files f).compressor) = none := by
      rcases hchoose with e | e
      · rw [e]
        exact hnone
      · rw [e, hnone, ite_self]
    exact ⟨hmodule, ⟨hmodule.trans hnone.symm, Or.inl rfl, id⟩⟩
  generalize writeChoose Γ s f offset = s₁ at hs hk hdescs hown ⊢
  by_cases hwrites : writesRaw Γ (s.files f) offset = true
  · obtain ⟨hnone, hkeeps⟩ := hown hwrites
    rw [hnone]
    exact h.serves_but hs hk (fun hf => (h.current f hf).keeps hkeeps)
  · have hnot : ¬s.Names a b f := fun hf => hwrites (hraw (Or.inl hf))
    have hother : ∀ fd, (s₁.descs d).fd = some fd → fd.ino ≠ i := by
      intro fd hfd hi
      rw [hdescs] at hfd
      exact hwrites (hraw (Or.inr ⟨fd, hfd, hi⟩))
    cases hm : (s₁.files f).compressor with
    | none => exact h.serves_but hs hk (fun hf => absurd hf hnot)
    | some m =>
      have hapart : s₁.Apart (directCompress Γ env s₁ m f d buf offset).1 f (fun _ => True) :=
        apart_directCompress m buf offset (fun _ _ => trivial) trivial
      exact h.serves_but (hs.trans (spares_directCompress Γ env s₁ m f d buf offset (Nat.lt_of_lt_of_le h.old hs.next) hother))
        (hk.trans hapart.keepsBut) (fun hf => absurd hf hnot)

theorem releaseLocked_serves (h : s.Alike Γ a b i) {d : Nat} : s.Serves Γ a b i (releaseLocked Γ env s f d).1 := by
  have hclose : Spares i s (releaseClose Γ env s f d) ∧ s.KeepsAll (releaseClose Γ env s f d) := by
    unfold releaseClose
    split
    · exact ⟨.refl i s, .refl s⟩
    · exact ⟨spares_directClose Γ env s f d, keepsAll_directClose Γ env s f d⟩
  unfold releaseLocked
  dsimp only
  generalize releaseClose Γ env s f d = s₁ at hclose ⊢
  have herase : s₁.KeepsAll (s₁.modFile (s₁.descs d).file (fun file => { file with head := file.head.erase d })) := by
    refine keepsAll_modFile ⟨rfl, Or.inl rfl, fun e => ?_⟩
    dsimp only
    rw [e]
    rfl
  have hs₂ := (hclose.1.trans (spares_modFile (s₁.descs d).file (g := fun file => { file with head := file.head.erase d })))
  have hk₂ := hclose.2.trans herase
  generalize s₁.modFile (s₁.descs d).file _ = s₂ at hs₂ hk₂ ⊢
  have hcount : s₂.KeepsAll (s₂.modFile f (fun file => { file with accesses := file.accesses - 1 })) :=
    keepsAll_modFile ⟨rfl, Or.inl rfl, id⟩
  refine h.serves_all ((hs₂.trans (spares_modFile f)).trans (.of_calm (calm_modDesc d ⟨rfl, rfl, ?_, ?_, Or.inl⟩)))
    ((hk₂.trans hcount).trans (.of_files rfl))
  · exact fun e => by cases e
  · exact fun fd e => by cases e

theorem descLocked_serves (hd : Γ.dedupEnabled = false) (h : s.Alike Γ a b i) {d : Nat} {op : DescOp}
    (hcalled : descDecompresses Γ s d f op = true → s.Names a b f → parse Γ (s.data i) = none)
    (hraw : ∀ buf offset, op = .write buf offset → s.Names a b f ∨ (∃ fd, (s.descs d).fd = some fd ∧ fd.ino = i) →
      writesRaw Γ (s.files f) offset = true) : s.Serves Γ a b i (descLocked Γ env s d f op).1 := by
  cases op with
  | read size offset =>
    have hread : s.Serves Γ a b i (readLocked Γ env s f d size offset).1 := readLocked_serves h hcalled
    unfold descLocked
    dsimp only
    split
    · rename_i s₁ res buf e
      rw [e] at hread
      split
      · exact hread
      · exact hread
    · rename_i s₁ fd size' offset' served e
      rw [e] at hread
      exact hread
  | write buf offset =>
    have hwrite : s.Serves Γ a b i (writeLocked Γ env s f d buf offset).1 := writeLocked_serves hd h (hraw buf offset rfl)
    unfold descLocked
    dsimp only
    split
    · rename_i s₁ res e
      rw [e] at hwrite
      split
      · refine ⟨hwrite.next, hwrite.unwritten, hwrite.header, fun g hg => ?_⟩
        exact (hwrite.current g hg).keeps (keepsAll_invalidateSize s₁ f g)
      · exact hwrite
    · rename_i s₁ fd e
      rw [e] at hwrite
      exact hwrite
  | release => exact releaseLocked_serves h

/-- Bytes are written to a raw file, which stays raw. -/
theorem pwriteFd_serves (h : s.Alike Γ a b i) {fd : Option Fd} {buf : Bytes} {offset : Nat}
    (hraw : ∀ x, fd = some x → x.ino = i → env.ok .pwrite = true → buf ≠ [] →
      StaysRaw Γ (s.data x.ino) (Bytes.overwrite (s.data x.ino) offset buf)) :
    s.Serves Γ a b i (pwriteFd env s fd buf offset).1 := by
  unfold pwriteFd
  split
  · exact h.refl
  rename_i x hx
  dsimp only
  split
  · exact h.refl
  rename_i hbuf
  have hok : env.ok .pwrite = true ∧ fd = some x := by
    split at hx
    · rename_i hok
      exact ⟨hok, hx⟩
    · cases hx
  by_cases hi : x.ino = i
  · obtain ⟨hbefore, hafter⟩ := hraw x hok.2 hi hok.1 hbuf
    rw [hi] at hbefore hafter ⊢
    have hdata : (s.withFs (fun b => b.setData i (Bytes.overwrite (b.inodes i).data offset buf))).data i =
        Bytes.overwrite (s.data i) offset buf := (Backing.data_setData _ _ _ _).trans (if_pos rfl)
    refine ⟨Nat.le_refl _, h.unwritten, fun hp => ?_, fun g hg => ?_⟩
    · rw [hdata] at hp
      exact absurd hafter hp
    · rw [hdata]
      exact .of_raw hafter ((h.current g hg).raw hbefore)
  · exact h.serves_all (spares_setData (Or.inr hi)) (.of_files rfl)

/-! ## Purges and the background thread -/

theorem purgeFile_serves (h : s.Alike Γ a b i) {force : Bool} : s.Serves Γ a b i (purgeFile Γ env force s f) := by
  have hqueue : ∀ dedup, s.KeepsAll (backgroundCompressDedup s f dedup) := fun _ => keepsAll_update (f := f) rfl ⟨rfl, Or.inl rfl, id⟩
  refine h.serves_all (.of_calm (calm_purgeFile Γ env s force f)) ?_
  unfold purgeFile
  dsimp only
  split
  · split
    · exact hqueue false
    split
    · exact hqueue true
    · exact keepsAll_flushFileCache (detach s f) f
  · split
    · exact .of_files rfl
    · exact .refl s

theorem purgeFile_listed {force : Bool} {g : Nat} (hg : g ∈ (purgeFile Γ env force s f).database) : g ∈ s.database := by
  unfold purgeFile at hg
  dsimp only at hg
  split at hg
  · split at hg
    · exact hg
    split at hg
    · exact hg
    · have hdb : (flushFileCache (detach s f) f).database = s.database.erase f :=
        congrArg Books.database (books_flushFileCache (detach s f) f)
      unfold directOpenDelete at hg
      dsimp only at hg
      rw [hdb] at hg
      exact List.mem_of_mem_erase hg
  · split at hg
    · exact List.mem_of_mem_erase hg
    · exact hg

theorem keepsAll_compFinish (hd : Γ.dedupEnabled = false) (s : State) (f : Nat) (isDedup : Bool) :
    s.KeepsAll (compFinish Γ s f isDedup) := by
  unfold compFinish
  dsimp only
  rw [discard_off hd, ite_self]
  exact keepsAll_modFile ⟨rfl, Or.inl rfl, id⟩

theorem doCompressBegin_serves (h : s.Alike Γ a b i) (hino : s.Names a b f → s.fs.inoOf (s.files f).filename = some i) :
    s.Serves Γ a b i (doCompressBegin Γ env s f).1 := by
  have hapart : s.KeepsBut f (doCompressBegin Γ env s f).1 ∧
      (s.Names a b f → ((doCompressBegin Γ env s f).1.files f).Current Γ (s.data i)) := by
    unfold doCompressBegin
    split
    · have hdelete : s.KeepsAll (directDelete s f) := keepsAll_modFile ⟨rfl, Or.inr rfl, id⟩
      exact ⟨hdelete.but f, fun hf => (h.current f hf).keeps (hdelete f)⟩
    rename_i j hj
    dsimp only
    split
    · exact ⟨(State.KeepsAll.refl s).but f, h.current f⟩
    have hread : s.KeepsBut f (if headerSize ≤ (s.data j).length ∧ env.ok .readHeader then
          s.modFile f (fun file => { file with
            compressor := (fileReadHeader Γ (s.data j) (s.files f).compressor (s.files f).size).1
            size := (fileReadHeader Γ (s.data j) (s.files f).compressor (s.files f).size).2 }) else s) ∧
        (s.Names a b f → ((if headerSize ≤ (s.data j).length ∧ env.ok .readHeader then
          s.modFile f (fun file => { file with
            compressor := (fileReadHeader Γ (s.data j) (s.files f).compressor (s.files f).size).1
            size := (fileReadHeader Γ (s.data j) (s.files f).compressor (s.files f).size).2 }) else s).files f).Current Γ (s.data i)) := by
      split
      · refine ⟨keepsBut_modFile f _, fun hf => ?_⟩
        have e : j = i := by
          split at hj
          · exact Option.some.inj (hj.symm.trans (hino hf))
          · cases hj
        subst e
        obtain ⟨hmodule, hsize⟩ := (h.current f hf).readHeader (s.files f).size
        rw [State.files_modFile, if_pos rfl]
        exact ⟨Or.inl hmodule, Or.inr hsize⟩
      · exact ⟨(State.KeepsAll.refl s).but f, h.current f⟩
    generalize (if headerSize ≤ (s.data j).length ∧ env.ok .readHeader then _ else s) = s₁ at hread ⊢
    split
    · exact hread
    · split
      · exact hread
      · split
        · exact hread
        · dsimp only
          have hbegin : s₁.KeepsAll (s₁.modFile f (fun file => { file with status := { file.status with compressing := true } })) :=
            keepsAll_modFile ⟨rfl, Or.inl rfl, id⟩
          exact ⟨hread.1.trans (hbegin.but f), fun hf => (hread.2 hf).keeps (hbegin f)⟩
  exact h.serves_but (.of_calm (calm_doCompressBegin Γ env s f)) hapart.1 hapart.2

theorem doCompressEnd_serves (h : s.Alike Γ a b i) {job : Job} {got : Bytes} {eof : Bool} (hjob : ¬s.Names a b job.file) :
    s.Serves Γ a b i (doCompressEnd Γ env s job got eof).1 :=
  h.serves_but (spares_doCompressEnd Γ env s job got eof h.old)
    (apart_doCompressEnd (D := fun _ => True) job got eof).keepsBut (fun hf => absurd hf hjob)

/-! ## A step of a thread -/

/-- A step leaves the entries of two names right about an inode, and a header that the inode has afterwards was there before. -/
structure State.StaysAlike (Γ : Config) (a b : Filename) (i : Nat) (s s' : State) : Prop where
  alike : s'.Alike Γ a b i
  header : parse Γ (s'.data i) ≠ none → s'.data i = s.data i

theorem State.Alike.stays (h : s.Alike Γ a b i) : s.StaysAlike Γ a b i s := ⟨h, fun _ => rfl⟩

theorem State.Serves.stays (h : s.Serves Γ a b i s') (hold : i < s.fs.next) (hnames : ∀ g, s'.Names a b g → s.Names a b g) :
    s.StaysAlike Γ a b i s' :=
  ⟨⟨Nat.lt_of_lt_of_le hold h.next, h.unwritten, fun g hg => h.current g (hnames g hg)⟩, h.header⟩

theorem State.StaysAlike.before (h : s'.StaysAlike Γ a b i s'') (hdata : s'.data i = s.data i) : s.StaysAlike Γ a b i s'' :=
  ⟨h.alike, fun hp => (h.header hp).trans hdata⟩

/-- The database and the names of its entries are those of before. -/
theorem Books.SameDb.names (h : s.books.SameDb s'.books) (g : Nat) : s'.Names a b g ↔ s.Names a b g := by
  obtain ⟨hdb, -, -, -, hname⟩ := h
  have hdb : s'.database = s.database := hdb
  have hname : (s'.files g).filename = (s.files g).filename := congrFun hname g
  unfold State.Names
  rw [hdb, hname]

theorem State.CutsRaw.of_same {size : Nat} (h : s.CutsRaw Γ env a b i f size) (hdata : s'.data i = s.data i)
    (hsame : ∀ g, g ≠ f → s'.Names a b g → s.Names a b g ∧ (s'.files g).compressor = (s.files g).compressor) :
    s'.CutsRaw Γ env a b i f size := by
  unfold State.CutsRaw at h ⊢
  rw [hdata]
  refine h.imp id (fun ⟨hzero, hopen, hcut, hothers⟩ => ⟨hzero, hopen, hcut, fun g hne hg => ?_⟩)
  obtain ⟨hg', hm⟩ := hsame g hne hg
  exact hm.trans (hothers g hne hg')

section Caller

variable (hd : Γ.dedupEnabled = false) (hnames : ∀ p, p = a ∨ p = b → s.fs.inoOf p = some i) {k : Caller} (hk : k.inPlace = true)
  (hlook : ∀ q st, k.looked = some (q, st) → q = a ∨ q = b → parse Γ (s.data i) ≠ none → headerSize ≤ asU64 st.size)

include hd hnames hk hlook

theorem callerBody_stays (h : s.Alike Γ a b i) (hown : k.Owns s.books f)
    (hcut : ∀ full size, k.cut = some (full, size) → s.fs.inoOf full = some i → s.CutsRaw Γ env a b i f size) :
    s.StaysAlike Γ a b i (callerBody Γ env s f k).1 := by
  have hname : (s.files f).filename = k.filename := hown.2
  have hserves : s.Serves Γ a b i (callerBody Γ env s f k).1 := by
    cases k with
    | getattr full st => exact getattrLocked_serves h hname (hnames full) (hlook full st rfl)
    | truncate full size =>
      refine truncateLocked_serves hd h (fun hf => hnames full ?_) (hcut full size rfl)
      rw [← show (s.files f).filename = full from hname]
      exact hf.2
    | «open» full writable =>
      have hundedup : openUndedup Γ env s f writable = (s, true) := by
        unfold openUndedup
        rw [hd]
        exact if_neg (fun h => Bool.noConfusion h.1)
      have hserves : s.Serves Γ a b i (openFile Γ env s f full writable).1 := openFile_serves h hname (hnames full)
      rw [callerBody, openBody_whole (by rw [hd]; exact fun h => Bool.noConfusion h.1)]
      unfold openLocked
      rw [hundedup]
      exact hserves
    | _ => cases hk
  exact hserves.stays h.old (fun g => ((callerBody_refines Γ env s f k).sameDb.names g).mp)

theorem directOpenWait_stays (h : s.Alike Γ a b i) (hown : k.Owns s.books f)
    (hcut : (k.stabile && (s.files f).status.busy) = false → ∀ full size, k.cut = some (full, size) → s.fs.inoOf full = some i →
      s.CutsRaw Γ env a b i f size) : s.StaysAlike Γ a b i (directOpenWait Γ env s f k).1 := by
  unfold directOpenWait
  split
  · have hkeeps : s.KeepsAll (s.modFile f (fun file => { file with status := { file.status with cancel := true } })) :=
      keepsAll_modFile ⟨rfl, Or.inl rfl, id⟩
    refine (h.serves_all (spares_modFile f) hkeeps).stays h.old (fun g hg => ?_)
    obtain ⟨hdb, hname⟩ := hg
    rw [State.files_modFile] at hname
    split at hname
    · rename_i e
      exact ⟨hdb, by rw [e]; exact hname⟩
    · exact ⟨hdb, hname⟩
  · rename_i hready
    exact callerBody_stays hd hnames hk hlook h hown (hcut (Bool.eq_false_of_not_eq_true hready))

/-- A new entry knows nothing of its file. -/
theorem directOpenNew_stays (h : s.Alike Γ a b i) (hdb : ∀ g ∈ s.database, g < s.nextFile)
    (hcut : ∀ full size, k.cut = some (full, size) → s.fs.inoOf full = some i → s.CutsRaw Γ env a b i s.nextFile size) :
    s.StaysAlike Γ a b i (directOpenNew Γ env s k).1 := by
  have hold : ∀ g, g ∈ s.database → (directOpenAdd Γ s k.filename).files g = s.files g := by
    intro g hg
    unfold directOpenAdd
    exact Function.update_of_ne (Nat.ne_of_lt (hdb g hg)) _ _
  have hnew : (directOpenAdd Γ s k.filename).files s.nextFile = directNewFile Γ s k.filename := by
    unfold directOpenAdd
    exact Function.update_self _ _ _
  have hlisted : ∀ g, (directOpenAdd Γ s k.filename).Names a b g → g ≠ s.nextFile → s.Names a b g := by
    intro g hg hne
    have hmem : g ∈ s.database := by
      have := hg.1
      unfold directOpenAdd at this
      rw [List.mem_append, List.mem_singleton] at this
      exact this.resolve_right hne
    refine ⟨hmem, ?_⟩
    rw [← hold g hmem]
    exact hg.2
  have halike : (directOpenAdd Γ s k.filename).Alike Γ a b i := by
    refine ⟨h.old, h.unwritten, fun g hg => ?_⟩
    by_cases e : g = s.nextFile
    · rw [e, hnew]
      exact ⟨Or.inr ⟨rfl, rfl, rfl⟩, Or.inl rfl⟩
    · have hg' := hlisted g hg e
      rw [hold g hg'.1]
      exact h.current g hg'
  have hstays : (directOpenAdd Γ s k.filename).StaysAlike Γ a b i
      (callerBody Γ env (directOpenAdd Γ s k.filename) s.nextFile k).1 :=
    callerBody_stays (s := directOpenAdd Γ s k.filename) hd hnames hk hlook halike
      ⟨Nat.lt_succ_self _, congrArg FileT.filename hnew⟩
      (fun full size hk hino => (hcut full size hk hino).of_same rfl (fun g hne hg => by
        have hg' := hlisted g hg hne
        rw [hold g hg'.1]
        exact ⟨hg', rfl⟩))
  exact hstays.before rfl

end Caller

/-- The conditions on a step of a thread at `pc`, with the two names at the inode `i`. -/
structure State.Careful (Γ : Config) (env : Env) (a b : Filename) (i : Nat) (s : State) (pc : Pc) : Prop where
  looked : ∀ q st, pc.looked = some (q, st) → q = a ∨ q = b → parse Γ (s.data i) ≠ none → headerSize ≤ asU64 st.size
  called : ∀ f, clientDecompresses Γ s pc = some f → s.Names a b f → parse Γ (s.data i) = none
  write : ∀ d buf offset f, pc = .fetched d (.write buf offset) f →
    s.Names a b f ∨ (∃ fd, (s.descs d).fd = some fd ∧ fd.ino = i) → writesRaw Γ (s.files f) offset = true
  pwrite : ∀ d f fd buf offset, pc = .pwriting d f (some fd) buf offset → fd.ino = i → env.ok .pwrite = true → buf ≠ [] →
    StaysRaw Γ (s.data fd.ino) (Bytes.overwrite (s.data fd.ino) offset buf)
  cut : ∀ f full size, clientCuts s pc = some (f, full, size) → s.fs.inoOf full = some i → s.CutsRaw Γ env a b i f size

theorem directOpenStart_stays (hd : Γ.dedupEnabled = false) (h : s.Alike Γ a b i) (hnames : ∀ p, p = a ∨ p = b → s.fs.inoOf p = some i)
    (hdb : ∀ g ∈ s.database, g < s.nextFile) {k : Caller} (hk : k.inPlace = true) (hcareful : s.Careful Γ env a b i (.opening k)) {pc : Pc}
    (hs : directOpenStart Γ env s k = some (s', pc)) : s.StaysAlike Γ a b i s' := by
  have hcuts := hcareful.cut
  unfold clientCuts at hcuts
  dsimp only at hcuts
  unfold directOpenStart at hs
  cases hfind : findFile s k.filename with
  | some f =>
    rw [hfind] at hs hcuts
    dsimp only at hs hcuts
    split at hs
    · have hmem : f ∈ s.database := List.mem_of_find?_eq_some hfind
      have hname : (s.files f).filename = k.filename :=
        of_decide_eq_true (List.find?_some (p := fun f => decide ((s.files f).filename = k.filename)) hfind)
      have hfound : s.KeepsAll (directOpenFound s f) := keepsAll_modFile ⟨rfl, Or.inl rfl, id⟩
      have hfile : (directOpenFound s f).files f = { s.files f with deleted := false } := by
        unfold directOpenFound
        rw [State.files_modFile, if_pos rfl]
      have hlisted : ∀ g, (directOpenFound s f).Names a b g → s.Names a b g := by
        intro g hg
        refine ⟨hg.1, ?_⟩
        have hg₂ := hg.2
        unfold directOpenFound at hg₂
        rw [State.files_modFile] at hg₂
        split at hg₂
        · rename_i e
          rw [e]
          exact hg₂
        · exact hg₂
      have hstays : (directOpenFound s f).StaysAlike Γ a b i (directOpenWait Γ env (directOpenFound s f) f k).1 :=
        directOpenWait_stays hd (s := directOpenFound s f) hnames hk hcareful.looked
          (h.keep (spares_modFile f) hfound hlisted) ⟨hdb f hmem, (congrArg FileT.filename hfile).trans hname⟩
          (fun hready full size hc hino => by
            rw [hfile] at hready
            dsimp only at hready
            rw [hready] at hcuts
            refine (hcuts f full size ?_ hino).of_same rfl (fun g _ hg => ⟨hlisted g hg, (hfound g).compressor⟩)
            rw [if_neg Bool.noConfusion, hc]
            rfl)
      generalize directOpenWait Γ env (directOpenFound s f) f k = r at hs hstays
      cases hs
      exact hstays.before rfl
    · cases hs
  | none =>
    rw [hfind] at hs hcuts
    dsimp only at hs hcuts
    split at hs
    · cases hs
      exact ⟨⟨h.old, h.unwritten, h.current⟩, fun _ => rfl⟩
    · rename_i hfew
      rw [if_neg hfew] at hcuts
      have hstays : State.StaysAlike Γ a b i _ (directOpenNew Γ env { s with entries := s.entries + 1 } k).1 :=
        directOpenNew_stays (s := { s with entries := s.entries + 1 }) hd hnames hk hcareful.looked
          ⟨h.old, h.unwritten, h.current⟩ hdb (fun full size hc hino => by
            refine (hcuts s.nextFile full size ?_ hino).of_same rfl (fun g _ hg => ⟨hg, rfl⟩)
            rw [hc]
            rfl)
      generalize directOpenNew Γ env { s with entries := s.entries + 1 } k = r at hs hstays
      cases hs
      exact hstays.before rfl

/-- A step of a thread that meets the conditions. -/
theorem clientStep_stays (hd : Γ.dedupEnabled = false) (h : s.Alike Γ a b i) (hnames : ∀ p, p = a ∨ p = b → s.fs.inoOf p = some i)
    (hdb : ∀ g ∈ s.database, g < s.nextFile) {free : Bool} {pc pc' : Pc} (hpc : pc.inPlace = true) (hknown : pc.Known s.books)
    (hcareful : s.Careful Γ env a b i pc) (hs : clientStep Γ env free s pc = some (s', pc')) : s.StaysAlike Γ a b i s' := by
  cases pc with
  | idle last => cases hs
  | getattrStat full =>
    rw [clientStep] at hs
    split at hs
    · have hmagic : (getattrMagic s full).1 = s ∨ ∃ redup, (getattrMagic s full).1 = { s with redup := redup } := by
        unfold getattrMagic
        split
        · exact Or.inr ⟨true, rfl⟩
        split
        · exact Or.inr ⟨false, rfl⟩
        split
        · exact Or.inl rfl
        · exact Or.inl rfl
      generalize getattrMagic s full = r at hs hmagic
      cases hs
      rcases hmagic with e | ⟨redup, e⟩
      · rw [e]
        exact h.stays
      · rw [e]
        exact ⟨⟨h.old, h.unwritten, h.current⟩, fun _ => rfl⟩
    · split at hs
      · cases hs
        exact h.stays
      · cases hs
        exact h.stays
      · cases hs
        exact h.stays
  | purgeStart force =>
    rw [clientStep] at hs
    split at hs
    · cases hs
      exact h.stays
    · cases hs
  | opening k =>
    rw [clientStep] at hs
    split at hs
    · exact directOpenStart_stays hd h hnames hdb hpc hcareful hs
    · cases hs
  | purging todo k force =>
    cases todo with
    | cons f todo =>
      rw [clientStep] at hs
      split at hs
      · cases hs
      split at hs
      · cases hs
      · have hpurge : s.Serves Γ a b i (purgeFile Γ env force s f) := purgeFile_serves h
        have hcalm : Calm none s (purgeFile Γ env force s f) := calm_purgeFile Γ env s force f
        have hlisted : ∀ g, g ∈ (purgeFile Γ env force s f).database → g ∈ s.database := fun g => purgeFile_listed
        generalize purgeFile Γ env force s f = s₁ at hs hpurge hcalm hlisted
        cases hs
        refine hpurge.stays h.old (fun g hg => ?_)
        have hmem := hlisted g hg.1
        exact ⟨hmem, hcalm.filename g (hdb g hmem) ▸ hg.2⟩
    | nil =>
      cases k with
      | none =>
        cases hs
        exact h.stays
      | some k =>
        have hstays : s.StaysAlike Γ a b i (directOpenNew Γ env s k).1 :=
          directOpenNew_stays hd hnames (k := k) hpc hcareful.looked h hdb (fun full size hc hino => by
            refine hcareful.cut s.nextFile full size ?_ hino
            unfold clientCuts
            dsimp only
            rw [hc]
            rfl)
        rw [clientStep] at hs
        generalize directOpenNew Γ env s k = r at hs hstays
        cases hs
        exact hstays
  | waiting k f seen =>
    rw [clientStep] at hs
    split at hs
    · have hstays : s.StaysAlike Γ a b i (directOpenWait Γ env s f k).1 :=
        directOpenWait_stays hd hnames (k := k) hpc hcareful.looked h hknown.2
          (fun hready full size hc hino => by
            refine hcareful.cut f full size ?_ hino
            unfold clientCuts
            dsimp only
            rw [hready, if_neg Bool.noConfusion, hc]
            rfl)
      generalize directOpenWait Γ env s f k = r at hs hstays
      cases hs
      exact hstays
    · cases hs
  | fetched d op f =>
    have hrefines : ClientStep free (wanted Γ env s) s.books (.fetched d op f) s'.books pc' := clientStep_refines Γ env s hs
    rw [clientStep] at hs
    split at hs
    · have hserves : s.Serves Γ a b i (descLocked Γ env s d f op).1 := descLocked_serves hd h
        (fun hc hf => hcareful.called f (if_pos hc) hf) (fun buf offset e => hcareful.write d buf offset f (by rw [e]))
      generalize descLocked Γ env s d f op = r at hs hserves
      cases hs
      have hsame : s.books.SameDb s'.books := by
        generalize s'.books = b' at hrefines
        cases hrefines with
        | quiet hfree => cases hfree
        | locked _ _ ha _ => exact ha.sameDb
        | released => exact ⟨rfl, rfl, rfl, rfl, rfl⟩
        | unlocked _ hr _ => exact ⟨rfl, rfl, rfl, rfl, rfl⟩
      exact hserves.stays h.old (fun g => (hsame.names g).mp)
    · cases hs
  | preading d f fd size offset served relock =>
    cases hs
    exact h.stays
  | preaded d f res relock =>
    cases res with
    | some buf =>
      rw [clientStep] at hs
      split at hs
      · cases hs
      · cases hs
        exact h.stays
    | none =>
      rw [clientStep] at hs
      split at hs
      · cases hs
      · cases hs
        exact (h.serves_all (spares_modFile f) (keepsAll_invalidateSize s f)).stays h.old
          (fun g => (names_of_books (books_invalidateSize s f)).mp)
  | pwriting d f fd buf offset =>
    have hserves : s.Serves Γ a b i (pwriteFd env s fd buf offset).1 := pwriteFd_serves h
      (fun x hx => hcareful.pwrite d f x buf offset (by rw [hx]))
    have hbooks : (pwriteFd env s fd buf offset).1.books = s.books := by
      unfold pwriteFd
      split
      · rfl
      · dsimp only
        split
        · rfl
        · rfl
    rw [clientStep] at hs
    generalize pwriteFd env s fd buf offset = r at hs hserves hbooks
    obtain ⟨s₁, ok⟩ := r
    cases ok with
    | true =>
      cases hs
      exact hserves.stays h.old (fun g => (names_of_books hbooks).mp)
    | false =>
      cases hs
      exact hserves.stays h.old (fun g => (names_of_books hbooks).mp)
  | pwrote d f res =>
    cases res with
    | some len =>
      rw [clientStep] at hs
      split at hs
      · cases hs
        exact h.stays
      · cases hs
    | none =>
      rw [clientStep] at hs
      split at hs
      · cases hs
        exact (h.serves_all (spares_modFile f) (keepsAll_invalidateSize s f)).stays h.old
          (fun g => (names_of_books (books_invalidateSize s f)).mp)
      · cases hs
  | _ => cases hpc

theorem descLocked_looked (Γ : Config) (env : Env) (s : State) (d f : Nat) (op : DescOp) : (descLocked Γ env s d f op).2.looked = none := by
  cases op with
  | read size offset =>
    unfold descLocked
    dsimp only
    split
    · split
      · rfl
      · rfl
    · rfl
  | write buf offset =>
    unfold descLocked
    dsimp only
    split
    · split
      · rfl
      · rfl
    · rfl
  | release => rfl

/-- What a thread has found at a path it has found in an earlier step, or at the path of its `lstat`. -/
theorem clientStep_looked (hd : Γ.dedupEnabled = false) {free : Bool} {pc pc' : Pc} (hpc : pc.inPlace = true)
    (hs : clientStep Γ env free s pc = some (s', pc')) {q : Filename} {st : Stat} (hlook : pc'.looked = some (q, st)) :
    pc.looked = some (q, st) ∨ pc = .getattrStat q ∧ sysGetattr Γ env s.fs q = .regular st := by
  have hbody : ∀ (s : State) (f : Nat) {k : Caller}, k.inPlace = true → (callerBody Γ env s f k).2.looked = none := by
    intro s f k hk
    cases k with
    | getattr full st => rfl
    | truncate full size => rfl
    | «open» full writable =>
      rw [callerBody, openBody_whole (by rw [hd]; exact fun h => Bool.noConfusion h.1)]
      rfl
    | _ => cases hk
  have hwait : ∀ (s : State) (f : Nat) {k : Caller}, k.inPlace = true → (directOpenWait Γ env s f k).2.looked = some (q, st) →
      k.looked = some (q, st) := by
    intro s f k hk h
    unfold directOpenWait at h
    split at h
    · exact h
    · rw [hbody s f hk] at h
      cases h
  cases pc with
  | idle last => cases hs
  | getattrStat full =>
    rw [clientStep] at hs
    split at hs
    · generalize getattrMagic s full = r at hs
      cases hs
      cases hlook
    · split at hs
      · cases hs
        cases hlook
      · cases hs
        cases hlook
      · rename_i st' hstat
        cases hs
        cases hlook
        exact Or.inr ⟨rfl, hstat⟩
  | purgeStart force =>
    rw [clientStep] at hs
    split at hs
    · cases hs
      cases hlook
    · cases hs
  | opening k =>
    refine Or.inl ?_
    rw [clientStep] at hs
    split at hs
    · unfold directOpenStart at hs
      split at hs
      · rename_i f _
        split at hs
        · have hstart := hwait (directOpenFound s f) f (k := k) hpc
          generalize directOpenWait Γ env (directOpenFound s f) f k = r at hs hstart
          cases hs
          exact hstart hlook
        · cases hs
      · dsimp only at hs
        split at hs
        · cases hs
          exact hlook
        · have hnew := hbody (directOpenAdd Γ { s with entries := s.entries + 1 } k.filename) s.nextFile (k := k) hpc
          unfold directOpenNew at hs
          dsimp only at hs
          generalize callerBody Γ env (directOpenAdd Γ { s with entries := s.entries + 1 } k.filename) s.nextFile k = r at hs hnew
          cases hs
          rw [hnew] at hlook
          cases hlook
    · cases hs
  | purging todo k force =>
    refine Or.inl ?_
    cases todo with
    | cons f todo =>
      rw [clientStep] at hs
      split at hs
      · cases hs
      split at hs
      · cases hs
      · cases hs
        cases k with
        | none => cases hlook
        | some k => exact hlook
    | nil =>
      cases k with
      | none =>
        cases hs
        cases hlook
      | some k =>
        have hnew := hbody (directOpenAdd Γ s k.filename) s.nextFile (k := k) hpc
        rw [clientStep] at hs
        unfold directOpenNew at hs
        generalize callerBody Γ env (directOpenAdd Γ s k.filename) s.nextFile k = r at hs hnew
        cases hs
        rw [hnew] at hlook
        cases hlook
  | waiting k f seen =>
    refine Or.inl ?_
    rw [clientStep] at hs
    split at hs
    · have hstart := hwait s f (k := k) hpc
      generalize directOpenWait Γ env s f k = r at hs hstart
      cases hs
      exact hstart hlook
    · cases hs
  | fetched d op f =>
    have hnone := descLocked_looked Γ env s d f op
    rw [clientStep] at hs
    split at hs
    · generalize descLocked Γ env s d f op = r at hs hnone
      cases hs
      rw [hnone] at hlook
      cases hlook
    · cases hs
  | preading d f fd size offset served relock =>
    cases hs
    cases hlook
  | preaded d f res relock =>
    cases res with
    | some buf =>
      rw [clientStep] at hs
      split at hs
      · cases hs
      · cases hs
        cases hlook
    | none =>
      rw [clientStep] at hs
      split at hs
      · cases hs
      · cases hs
        cases hlook
  | pwriting d f fd buf offset =>
    rw [clientStep] at hs
    split at hs
    · cases hs
      cases hlook
    · cases hs
      cases hlook
  | pwrote d f res =>
    cases res with
    | some len =>
      rw [clientStep] at hs
      split at hs
      · cases hs
        cases hlook
      · cases hs
    | none =>
      rw [clientStep] at hs
      split at hs
      · cases hs
        cases hlook
      · cases hs
  | _ => cases hpc

/-! ## A step of the background thread -/

theorem workerStep_stays (hd : Γ.dedupEnabled = false) (h : s.Alike Γ a b i) (hnames : ∀ p, p = a ∨ p = b → s.fs.inoOf p = some i)
    {w w' : WorkerPc} (hdedup : (∀ f, w ≠ .dequeued f true) ∧ ∀ f pc, w ≠ .hashing f pc)
    (hjob : ∀ job got eof, w = .compressing job got eof → ¬s.Names a b job.file) (hs : workerStep Γ env s w = some (s', w')) :
    s.StaysAlike Γ a b i s' := by
  have hsame : s.books.SameDb s'.books := (workerStep_refines Γ env s hs).sameDb
  have hstays : s.Serves Γ a b i s' → s.StaysAlike Γ a b i s' := fun hserves => hserves.stays h.old (fun g => (hsame.names g).mp)
  have hfinish : ∀ {s₁ : State} (f : Nat), s.Serves Γ a b i s₁ → s.Serves Γ a b i (compFinish Γ s₁ f false) := by
    intro s₁ f h₁
    have hs : Spares i s₁ (compFinish Γ s₁ f false) := .of_calm (calm_compFinish Γ s₁ f false)
    have hdata := hs.data h₁.unwritten
    refine ⟨h₁.next.trans hs.next, fun hw => h₁.unwritten (hs.written hw), ?_, fun g hg => ?_⟩
    · rw [hdata]
      exact h₁.header
    · rw [hdata]
      exact (h₁.current g hg).keeps (keepsAll_compFinish hd s₁ f false g)
  cases w with
  | idle =>
    rw [workerStep, Option.map_eq_some_iff] at hs
    obtain ⟨r, hr, e⟩ := hs
    unfold compDequeue at hr
    split at hr
    · cases hr
    · cases hr
      cases e
      exact ⟨⟨h.old, h.unwritten, h.current⟩, fun _ => rfl⟩
  | dequeued f isDedup =>
    cases isDedup with
    | true => exact absurd rfl (hdedup.1 f)
    | false =>
      rw [workerStep] at hs
      split at hs
      · refine hstays ?_
        unfold workerProcess at hs
        dsimp only at hs
        have halike : (s.assert Γ (decide ((s.files f).accesses > 0))).Alike Γ a b i :=
          h.keep (spares_assert Γ _) (keepsAll_assert Γ _) (fun g => (names_of_books (books_assert Γ _)).mp)
        have hfs : (s.assert Γ (decide ((s.files f).accesses > 0))).fs = s.fs := State.fs_assert _ _ _
        have hbooks : (s.assert Γ (decide ((s.files f).accesses > 0))).books = s.books := books_assert Γ _
        have hspare : Spares i s (s.assert Γ (decide ((s.files f).accesses > 0))) := spares_assert Γ _
        generalize s.assert Γ (decide ((s.files f).accesses > 0)) = s₁ at hs halike hfs hbooks hspare
        have hlift : ∀ {s₂ : State}, s₁.Serves Γ a b i s₂ → s.Serves Γ a b i s₂ :=
          fun h₂ => h₂.before h.unwritten hspare (fun g => (names_of_books hbooks).mpr)
        rw [if_neg Bool.noConfusion] at hs
        split at hs
        · have hbegin : s₁.Serves Γ a b i (doCompressBegin Γ env s₁ f).1 := doCompressBegin_serves halike (fun hf => by
            rw [hfs]
            exact hnames _ hf.2)
          split at hs
          · rename_i s₂ job e
            rw [e] at hbegin
            cases hs
            exact hlift hbegin
          · rename_i s₂ e
            rw [e] at hbegin
            cases hs
            exact hfinish f (hlift hbegin)
        · cases hs
          exact hfinish f (hlift halike.refl)
      · cases hs
  | compressing job got eof =>
    rw [workerStep] at hs
    split at hs
    · cases hs
      exact h.stays
    · split at hs
      · have hend : s.Serves Γ a b i (doCompressEnd Γ env s job got eof).1 := doCompressEnd_serves h (hjob job got eof rfl)
        cases hs
        exact hstays (hfinish job.file hend)
      · cases hs
  | hashing f pc => exact absurd rfl (hdedup.2 f pc)

end FuseCompress
