import FuseCompress.Lemmas.Background
import FuseCompress.Lemmas.Tidy

/-!
# The mount beside the plain file system

How the state of the mount and a plain file system agree between two operations (`State.Mirrors`): they have the same names, and the
file of a name holds the content of it. A handler works on one entry and leaves the other entries, their descriptors and what the other
names refer to (`State.WorksOn`), so only what it does to its own entry is left to show (`State.Mirrors.update`).
-/

namespace FuseCompress

/-! ## What agrees -/

/-- What `getattr` reports of a file without looking at its header. -/
def State.Sized (Γ : Config) (s : State) (f i : Nat) (content : Bytes) : Prop :=
  (s.files f).size ≠ -1 →
    if (s.files f).compressor = none then parse Γ (s.data i) = none else (s.files f).size = (content.length : Int)

/-- The inode `i` holds the content, as the entry `f` is used. -/
structure State.Holds (Γ : Config) (s : State) (f i : Nat) (content : Bytes) : Prop where
  closed : (s.files f).head = [] → unpacked Γ (s.data i) = some content ∧ s.Sized Γ f i content
  opened : (s.files f).head ≠ [] → s.Stands Γ f i content

/-- The path `p` has the inode `i`, and that holds the content. -/
structure State.Shown (Γ : Config) (s : State) (p : Filename) (i : Nat) (content : Bytes) : Prop where
  ino : s.fs.inoOf p = some i
  entry : ∀ f ∈ s.database, (s.files f).filename = p → s.Holds Γ f i content
  free : (∀ f ∈ s.database, (s.files f).filename ≠ p) → unpacked Γ (s.data i) = some content

/-- The mount between two operations, apart from the contents. -/
structure State.Ready (s : State) (refs : Nat → Nat) : Prop where
  tidy : s.books.Tidy refs
  homed : s.Homed (fun _ => True)
  single : s.fs.Single (fun _ => True)
  flat : ∀ p, s.fs.find p ≠ some .dir
  uncached : ∀ f, (s.files f).cache = none
  dead : ∀ d, (s.descs d).live = false → (s.descs d).fd = none

/-- A file has one name at most, and every content can be stored. -/
structure PlainFs.Sound (q : PlainFs Filename) : Prop where
  own : ∀ p p' k, q.file p = some k → q.file p' = some k → p = p'
  old : ∀ p k, q.file p = some k → k < q.nextFile
  text : ∀ k, (q.content k).length < 2 ^ 63

/-- The mount shows the names and the contents of the plain file system, and so do its descriptors. -/
structure State.Mirrors (Γ : Config) (s : State) (q : PlainFs Filename) : Prop where
  nextDesc : s.nextDesc = q.nextDesc
  absent : ∀ p, q.file p = none → s.fs.inoOf p = none ∧ ∀ f ∈ s.database, (s.files f).filename = p → (s.files f).size = -1
  shown : ∀ p k, q.file p = some k → ∃ i, s.Shown Γ p i (q.content k)
  target : ∀ f ∈ s.database, ∀ d ∈ (s.files f).head, q.file (s.files f).filename = some (q.target d)

/-- A backing directory without subdirectories and links has the files of the plain file system, each as it is or compressed. -/
structure Backing.Shows (Γ : Config) (b : Backing) (q : PlainFs Filename) : Prop where
  named : ∀ p i, b.inoOf p = some i → i < b.next
  single : b.Single (fun _ => True)
  flat : ∀ p, b.find p ≠ some .dir
  absent : ∀ p, q.file p = none → b.inoOf p = none
  stored : ∀ p k, q.file p = some k → ∃ i, b.inoOf p = some i ∧ unpacked Γ (b.inodes i).data = some (q.content k)

/-- A change that comes from the entry `f`. -/
structure State.WorksOn (s s' : State) (f : Nat) : Prop where
  apart : s.Apart s' f (fun d => d ∈ (s.files f).head ∨ s.nextDesc ≤ d)
  effects : ∃ w, (∀ d, w = some d → (s.descs d).writable = true) ∧ Effects (fun _ => True) f w s.fs.next s s'
  database : s'.database = s.database
  filename : (s'.files f).filename = (s.files f).filename

variable {Γ : Config} {s s' : State} {q q' : PlainFs Filename} {refs refs' : Nat → Nat} {f g i d : Nat} {content : Bytes}

/-! ## What stays -/

/-- The fields of an entry that the content of its file depends on. -/
structure FileT.Alike (x y : FileT) : Prop where
  compressor : y.compressor = x.compressor
  size : y.size = x.size
  type : y.type = x.type
  dontcompress : y.dontcompress = x.dontcompress
  head : ∀ d, d ∈ y.head ↔ d ∈ x.head

/-- The fields of a descriptor that the content of its file depends on. -/
structure Desc.Alike (x y : Desc) : Prop where
  handle : y.handle = x.handle
  offset : y.offset = x.offset
  fd : y.fd = x.fd

theorem FileT.Alike.refl (x : FileT) : x.Alike x := ⟨rfl, rfl, rfl, rfl, fun _ => Iff.rfl⟩

theorem Desc.Alike.refl (x : Desc) : x.Alike x := ⟨rfl, rfl, rfl⟩

theorem Desc.Rests.carry {desc desc' : Desc} {pos : Nat} (h : desc.Rests i pos) (hdesc : desc.Alike desc') : desc'.Rests i pos :=
  ⟨hdesc.handle.trans h.handle, hdesc.offset.trans h.offset, hdesc.fd.trans h.fd⟩

/-- A file stands for the entry `g` as it stood for the entry `f`, when what its content depends on is the same. -/
theorem State.Stands.carry (h : s.Stands Γ f i content) (hfile : (s.files f).Alike (s'.files g))
    (hdescs : ∀ d ∈ (s.files f).head, (s.descs d).Alike (s'.descs d)) (hino : s'.fs.inoOf (s'.files g).filename = some i)
    (hdata : s'.data i = s.data i) : s'.Stands Γ g i content := by
  have hmem : ∀ d ∈ (s'.files g).head, d ∈ (s.files f).head := fun d => (hfile.head d).mp
  rcases h with ⟨hbare, hhonest⟩ | ⟨m, hsealed | ⟨w, chunks, hstream⟩⟩
  · refine Or.inl ⟨⟨hino, hdata.trans hbare.data, hfile.compressor.trans hbare.compressor, fun d hd => ?_⟩, fun hsize hdont => ?_⟩
    · obtain ⟨pos, hrests⟩ := hbare.descs d (hmem d hd)
      exact ⟨pos, hrests.carry (hdescs d (hmem d hd))⟩
    · exact hhonest (hfile.size.symm.trans hsize) (hfile.dontcompress.symm.trans hdont)
  · refine Or.inr ⟨m, Or.inl ⟨hino, ?_, ?_, hfile.compressor.trans hsealed.compressor, hfile.size.trans hsealed.size, fun d hd => ?_⟩⟩
    · rw [hdata]
      exact hsealed.parse
    · rw [hdata]
      exact hsealed.decode
    · have hdesc := hdescs d (hmem d hd)
      rcases hsealed.descs d (hmem d hd) with hrests | ⟨htype, ⟨pos, hfd⟩, hhandle, hle⟩
      · exact Or.inl (hrests.carry hdesc)
      · refine Or.inr ⟨hfile.type.trans htype, ⟨pos, hdesc.fd.trans hfd⟩, ?_, ?_⟩
        · rw [hdesc.handle, hdesc.offset]
          exact hhandle
        · rw [hdesc.offset]
          exact hle
  · refine Or.inr ⟨m, Or.inr ⟨w, chunks, ?_⟩⟩
    have hw := hdescs w hstream.mem
    exact
      { ino := hino
        data := hdata.trans hstream.data
        text := hstream.text
        available := hstream.available
        compressor := hfile.compressor.trans hstream.compressor
        size := hfile.size.trans hstream.size
        type := hfile.type.trans hstream.type
        nonempty := hstream.nonempty
        mem := (hfile.head w).mpr hstream.mem
        handle := hw.handle.trans hstream.handle
        offset := hw.offset.trans hstream.offset
        fd := by
          rw [hw.fd, hdata]
          exact hstream.fd
        others := fun d hd hne => (hstream.others d (hmem d hd) hne).carry (hdescs d (hmem d hd)) }

theorem State.Holds.carry (h : s.Holds Γ f i content) (hfile : (s.files f).Alike (s'.files g))
    (hdescs : ∀ d ∈ (s.files f).head, (s.descs d).Alike (s'.descs d)) (hino : s'.fs.inoOf (s'.files g).filename = some i)
    (hdata : s'.data i = s.data i) : s'.Holds Γ g i content := by
  refine ⟨fun hnil => ?_, fun hne => ?_⟩
  · have hnil' : (s.files f).head = [] := by
      refine List.eq_nil_iff_forall_not_mem.mpr (fun d hd => ?_)
      have hmem := (hfile.head d).mpr hd
      rw [hnil] at hmem
      cases hmem
    obtain ⟨hunpacked, hsized⟩ := h.closed hnil'
    refine ⟨hdata ▸ hunpacked, fun hsize => ?_⟩
    rw [hfile.size] at hsize ⊢
    rw [hfile.compressor, hdata]
    exact hsized hsize
  · have hne' : (s.files f).head ≠ [] := by
      intro hnil
      obtain ⟨d, hd⟩ := List.exists_mem_of_ne_nil _ hne
      have hmem := (hfile.head d).mp hd
      rw [hnil] at hmem
      cases hmem
    exact (h.opened hne').carry hfile hdescs hino hdata

/-! ## A change that comes from one entry -/

theorem State.Ready.lt (h : s.Ready refs) (hf : f ∈ s.database) : f < s.nextFile := h.tidy.known f hf

theorem State.Ready.head_owner (h : s.Ready refs) (hd : d ∈ (s.files f).head) : (s.descs d).live = true ∧ (s.descs d).file = f :=
  (h.tidy.balanced.mem_head f d).mp hd

/-- The descriptors of another entry are not among those that the change is about. -/
theorem State.Ready.other_desc (h : s.Ready refs) (hg : g ≠ f) (hd : d ∈ (s.files g).head) : ¬(d ∈ (s.files f).head ∨ s.nextDesc ≤ d) := by
  have hown := (h.tidy.balanced.mem_head g d).mp hd
  rintro (hmem | hlt)
  · exact hg (hown.2.symm.trans ((h.tidy.balanced.mem_head f d).mp hmem).2)
  · exact absurd (h.tidy.balanced.live_lt d hown.1) (Nat.not_lt.mpr hlt)

theorem State.Ready.update (h : s.Ready refs) (hf : f ∈ s.database) (hw : s.WorksOn s' f) (htidy : s'.books.Tidy refs')
    (hdead : ∀ d, (d ∈ (s.files f).head ∨ s.nextDesc ≤ d) → (s'.descs d).live = false → (s'.descs d).fd = none) : s'.Ready refs' := by
  obtain ⟨w, hwritable, heffects⟩ := hw.effects
  have hfresh := h.homed.fresh (h.lt hf) hwritable
  refine ⟨htidy, (heffects.homed h.homed hfresh).1, heffects.single h.homed hfresh h.single,
    fun p hp => h.flat p (hw.apart.dirs p hp), fun g => ?_, fun d hlive => ?_⟩
  · by_cases e : g = f
    · rw [e]
      exact hw.apart.cache (h.uncached f)
    · rw [hw.apart.files g e]
      exact h.uncached g
  · by_cases hd : d ∈ (s.files f).head ∨ s.nextDesc ≤ d
    · exact hdead d hd hlive
    · rw [hw.apart.descs d hd] at hlive ⊢
      exact h.dead d hlive

/-- What another path refers to stays, with its bytes. -/
theorem State.WorksOn.other (hw : s.WorksOn s' f) (h : s.Ready refs) (hf : f ∈ s.database) {p : Filename} (hp : p ≠ (s.files f).filename) :
    s'.fs.inoOf p = s.fs.inoOf p ∧ ∀ i, s.fs.inoOf p = some i → s'.data i = s.data i := by
  obtain ⟨w, hwritable, heffects⟩ := hw.effects
  have hfresh := h.homed.fresh (h.lt hf) hwritable
  have hkeep : ∀ i, s.fs.inoOf p = some i → s'.fs.inoOf p = some i ∧ s'.data i = s.data i := by
    intro i hi
    have helse : s.Elsewhere f s.fs.next w p i (s.data i) :=
      ⟨hp, hi, h.homed.named p i hi, rfl, fun _ hi' => hp (h.single p _ i trivial trivial hi hi')⟩
    have hafter := heffects.elsewhere h.homed hfresh trivial helse
    exact ⟨hafter.ino, hafter.data⟩
  refine ⟨?_, fun i hi => (hkeep i hi).2⟩
  cases hnew : s'.fs.inoOf p with
  | some i =>
    by_cases hlt : i < s.fs.next
    · exact (heffects.named hlt hnew).symm
    · have hname := (heffects.homed h.homed hfresh).2.names p i hnew (Nat.le_of_not_lt hlt)
      exact absurd (hname.trans hw.filename) hp
  | none =>
    cases hold : s.fs.inoOf p with
    | none => rfl
    | some i =>
      rw [(hkeep i hold).1] at hnew
      cases hnew

theorem State.Ready.other_name (h : s.Ready refs) (hf : f ∈ s.database) (hg : g ∈ s.database) (hne : g ≠ f) : (s.files g).filename ≠ (s.files f).filename :=
  fun e => hne (h.tidy.once g hg f hf e)

/-- The mount agrees with the plain file system after a change that comes from one entry, when the path of the entry does. -/
theorem State.Mirrors.update (hm : s.Mirrors Γ q) (h : s.Ready refs) (hf : f ∈ s.database) (hw : s.WorksOn s' f)
    (hnext : s'.nextDesc = q'.nextDesc)
    (hfile : ∀ p, p ≠ (s.files f).filename → q'.file p = q.file p)
    (hcontent : ∀ p k, p ≠ (s.files f).filename → q.file p = some k → q'.content k = q.content k)
    (htarget : ∀ d, d < s.nextDesc → q'.target d = q.target d)
    (habsent : q'.file (s.files f).filename = none → s'.fs.inoOf (s.files f).filename = none ∧ (s'.files f).size = -1)
    (hshown : ∀ k, q'.file (s.files f).filename = some k →
      ∃ i, s'.fs.inoOf (s.files f).filename = some i ∧ s'.Holds Γ f i (q'.content k))
    (hheads : ∀ d ∈ (s'.files f).head, q'.file (s.files f).filename = some (q'.target d)) : s'.Mirrors Γ q' := by
  refine ⟨hnext, fun p hp => ?_, fun p k hp => ?_, fun g hg d hd => ?_⟩
  · by_cases e : p = (s.files f).filename
    · subst e
      refine ⟨(habsent hp).1, fun g hg hname => ?_⟩
      rw [hw.database] at hg
      by_cases hgf : g = f
      · rw [hgf]
        exact (habsent hp).2
      · rw [hw.apart.files g hgf] at hname
        exact absurd hname (h.other_name hf hg hgf)
    · rw [hfile p e] at hp
      refine ⟨(hw.other h hf e).1.trans (hm.absent p hp).1, fun g hg hname => ?_⟩
      rw [hw.database] at hg
      have hgf : g ≠ f := by
        rintro rfl
        exact e (hname.symm.trans hw.filename)
      rw [hw.apart.files g hgf] at hname ⊢
      exact (hm.absent p hp).2 g hg hname
  · by_cases e : p = (s.files f).filename
    · subst e
      obtain ⟨i, hino, hholds⟩ := hshown k hp
      refine ⟨i, hino, fun g hg hname => ?_, fun hfree => ?_⟩
      · rw [hw.database] at hg
        by_cases hgf : g = f
        · rw [hgf]
          exact hholds
        · rw [hw.apart.files g hgf] at hname
          exact absurd hname (h.other_name hf hg hgf)
      · rw [hw.database] at hfree
        exact absurd hw.filename (hfree f hf)
    · rw [hfile p e] at hp
      obtain ⟨i, hshow⟩ := hm.shown p k hp
      obtain ⟨hino, hdata⟩ := hw.other h hf e
      have hd := hdata i hshow.ino
      rw [hcontent p k e hp]
      have hother : ∀ g ∈ s'.database, (s'.files g).filename = p → g ∈ s.database ∧ g ≠ f := by
        intro g hg hname
        rw [hw.database] at hg
        refine ⟨hg, ?_⟩
        rintro rfl
        exact e (hname.symm.trans hw.filename)
      refine ⟨i, hino.trans hshow.ino, fun g hg hname => ?_, fun hfree => ?_⟩
      · obtain ⟨hg', hgf⟩ := hother g hg hname
        have hfiles := hw.apart.files g hgf
        rw [hfiles] at hname
        refine (hshow.entry g hg' hname).carry (by rw [hfiles]; exact .refl _) (fun d hd => ?_) ?_ hd
        · rw [hw.apart.descs d (h.other_desc hgf hd)]
          exact .refl _
        · rw [hfiles, hname, hino]
          exact hshow.ino
      · rw [hd]
        refine hshow.free (fun g hg hname => ?_)
        have hgf : g ≠ f := by
          rintro rfl
          exact e hname.symm
        refine hfree g (by rw [hw.database]; exact hg) ?_
        rw [hw.apart.files g hgf]
        exact hname
  · rw [hw.database] at hg
    by_cases hgf : g = f
    · subst hgf
      rw [hw.filename]
      exact hheads d hd
    · have hfiles := hw.apart.files g hgf
      rw [hfiles] at hd ⊢
      have hlive := h.head_owner hd
      rw [hfile _ (h.other_name hf hg hgf), htarget d (h.tidy.balanced.live_lt d hlive.1)]
      exact hm.target g hg d hd

end FuseCompress
