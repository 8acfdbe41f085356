import FuseCompress.Lemmas.Accounting

/-!
# The window of the background thread

While the background thread compresses or hashes a file without its lock, the status of the entry says so and the access of the
thread is the only one: `direct_open` cancels and waits, and whoever is already there keeps the thread from starting. Outside of
the window the status is clear, and who waits has been woken.
-/

namespace FuseCompress

/-- The entry that the background thread works on without its lock. -/
def WorkerPc.window : WorkerPc → Option Nat
  | .compressing job _ _ => some job.file
  | .hashing f _ => some f
  | _ => none

/-- The status that the background thread has given to an entry. -/
def WorkerPc.bits : WorkerPc → Nat → Status
  | .compressing job _ _, f => if job.file = f then { Status.clear with compressing := true } else .clear
  | .hashing f' _, f => if f' = f then { Status.clear with deduping := true } else .clear
  | _, _ => .clear

theorem WorkerPc.refs_of_window {w : WorkerPc} {f : Nat} (h : w.window = some f) : w.refs f = 1 := by
  cases w <;> cases h <;> exact if_pos rfl

theorem WorkerPc.bits_of_not_window {w : WorkerPc} {f : Nat} (h : w.window ≠ some f) : w.bits f = .clear := by
  cases w with
  | compressing job got eof => exact if_neg (fun e => h (congrArg some e))
  | hashing f' pc => exact if_neg (fun e => h (congrArg some e))
  | _ => rfl

theorem WorkerPc.busy_of_window {w : WorkerPc} {f : Nat} (h : w.window = some f) (c : Bool) :
    ({ w.bits f with cancel := c } : Status).busy = true := by
  cases w with
  | compressing job got eof =>
    cases h
    unfold WorkerPc.bits
    dsimp only
    rw [if_pos rfl]
    rfl
  | hashing f' pc =>
    cases h
    unfold WorkerPc.bits
    dsimp only
    rw [if_pos rfl]
    rfl
  | _ => cases h

/-- Every status is what the background thread has made it, except that a cancellation may have been asked for in its window, where
the access of the thread is the only one and no thread keeps the lock. -/
structure Books.Windowed (b : Books) (w : WorkerPc) : Prop where
  bits : ∀ f, b.status f = { w.bits f with cancel := (b.status f).cancel }
  cancel : ∀ f, (b.status f).cancel = true → w.window = some f
  alone : ∀ f, w.window = some f → b.accesses f = 1
  locked : ∀ f, w.window = some f → b.locked f = false

namespace Books.Windowed

variable {b b' : Books} {w : WorkerPc} {f : Nat}

/-- Outside of the window the status is clear. -/
theorem clear (h : b.Windowed w) (hf : w.window ≠ some f) : b.status f = .clear := by
  have hc : (b.status f).cancel = false := by
    by_contra hn
    exact hf (h.cancel f (by simpa using hn))
  rw [h.bits f, hc, WorkerPc.bits_of_not_window hf]
  rfl

/-- A file is busy in the window and nowhere else. -/
theorem busy_iff (h : b.Windowed w) : (b.status f).busy = true ↔ w.window = some f := by
  refine ⟨fun hb => ?_, fun hw => ?_⟩
  · by_contra hf
    rw [h.clear hf] at hb
    cases hb
  · rw [h.bits f]
    exact WorkerPc.busy_of_window hw _

end Books.Windowed

/-! ## Steps of the threads that serve requests -/

/-- What a step keeps of the windows: their state, and that a cancellation goes on until it is broadcast. -/
structure Books.Guards (b b' : Books) (w : WorkerPc) : Prop where
  windowed : b'.Windowed w
  cond : ∀ f, f < b.nextFile → b.cond f ≤ b'.cond f
  cancel : ∀ f, f < b.nextFile → b'.cond f = b.cond f → (b.status f).cancel = true → (b'.status f).cancel = true

section Client

variable {b b' : Books} {w : WorkerPc} {f : Nat} {k : Caller} {pc pc' : Pc}

/-- Books with the same status, and the same count and no lock in the window. -/
theorem Books.Windowed.same (h : b.Windowed w) (hs : b'.status = b.status) (hc : b'.cond = b.cond)
    (ha : ∀ f, w.window = some f → b'.accesses f = b.accesses f) (hl : ∀ f, w.window = some f → b.locked f = false → b'.locked f = false) :
    b.Guards b' w where
  windowed := ⟨fun f => by rw [hs]; exact h.bits f, fun f => by rw [hs]; exact h.cancel f, fun f hf => (ha f hf).trans (h.alone f hf),
    fun f hf => hl f hf (h.locked f hf)⟩
  cond f _ := by rw [hc]
  cancel f _ _ hf := by rw [hs]; exact hf

theorem Books.Windowed.acked (h : b.Windowed w) (ha : b.Acked f b') : b.Guards b' w := by
  rcases ha with rfl | ⟨_, rfl⟩
  · exact h.same rfl rfl (fun _ _ => rfl) (fun _ _ => id)
  · have hst : ∀ g, (b.ack f).status g = if g = f then { b.status f with cancel := false } else b.status g := by
      intro g
      exact Function.update_apply _ _ _ _
    have hco : ∀ g, (b.ack f).cond g = if g = f then b.cond f + 1 else b.cond g := by
      intro g
      exact Function.update_apply _ _ _ _
    refine ⟨⟨fun g => ?_, fun g hg => ?_, h.alone, h.locked⟩, fun g _ => ?_, fun g _ hc hg => ?_⟩
    · rw [hst]
      split
      · rename_i e
        subst e
        rw [h.bits g]
      · exact h.bits g
    · rw [hst] at hg
      split at hg
      · cases hg
      · exact h.cancel g hg
    · rw [hco]
      split
      · rename_i e
        subst e
        exact Nat.le_succ _
      · exact Nat.le_refl _
    · rw [hco] at hc
      rw [hst]
      split at hc
      · rename_i e
        subst e
        omega
      · rename_i e
        rw [if_neg e]
        exact hg

theorem Books.Guards.trans {c : Books} (h : b.Guards c w) (h' : c.Guards b' w) (hn : b.nextFile ≤ c.nextFile) : b.Guards b' w where
  windowed := h'.windowed
  cond f hf := (h.cond f hf).trans (h'.cond f (Nat.lt_of_lt_of_le hf hn))
  cancel f hf hc hb := by
    have hf' := Nat.lt_of_lt_of_le hf hn
    have h1 := h.cond f hf
    have h2 := h'.cond f hf'
    exact h'.cancel f hf' (by omega) (h.cancel f hf (by omega) hb)

/-- A new entry is in no window. -/
theorem Books.Windowed.newFile (h : b.Windowed w) (hlt : ∀ f, w.window = some f → f < b.nextFile) (p : Filename) :
    b.Guards (b.newFile p) w := by
  have hne : ∀ g, w.window = some g → g ≠ b.nextFile := fun g hg => Nat.ne_of_lt (hlt g hg)
  have hst : ∀ g, (b.newFile p).status g = if g = b.nextFile then .clear else b.status g := fun g =>
    Function.update_apply _ _ _ _
  refine ⟨⟨fun g => ?_, fun g hg => ?_, fun g hg => ?_, fun g hg => ?_⟩, fun g hg => ?_, fun g hg _ hc => ?_⟩
  · rw [hst]
    split
    · rename_i e
      rw [WorkerPc.bits_of_not_window (fun hw => hne g hw e)]
    · exact h.bits g
  · rw [hst] at hg
    split at hg
    · cases hg
    · exact h.cancel g hg
  · exact (Function.update_of_ne (hne g hg) _ _).trans (h.alone g hg)
  · exact (Function.update_of_ne (hne g hg) _ _).trans (h.locked g hg)
  · exact le_of_eq (Function.update_of_ne (Nat.ne_of_lt hg) _ _).symm
  · rw [hst, if_neg (Nat.ne_of_lt hg)]
    exact hc

theorem Caller.stabile_of_counts (h : k.counts = true) : k.stabile = true := by
  cases k <;> first | rfl | cases h

/-- A lock is kept where no window is open. -/
theorem Books.Windowed.lock (h : b.Windowed w) (hf : w.window ≠ some f) : b.Guards (b.lock f) w := by
  refine h.same rfl rfl (fun _ _ => rfl) (fun g hg hl => ?_)
  have hne : g ≠ f := by
    rintro rfl
    exact hf hg
  exact (Function.update_of_ne hne _ _).trans hl

theorem Books.Windowed.unlock (h : b.Windowed w) (f : Nat) : b.Guards (b.unlock f) w := by
  refine h.same rfl rfl (fun _ _ => rfl) (fun g hg hl => ?_)
  change Function.update b.locked f false g = false
  rw [Function.update_apply, hl, ite_self]

/-- The caller counts an access where no window is open. -/
theorem Body.guards (hb : Body b f k b' pc') (h : b.Windowed w) (hf : k.counts = true → w.window ≠ some f) : b.Guards b' w := by
  have hne : k.counts = true → ∀ g, w.window = some g → g ≠ f := by
    rintro hk g hg rfl
    exact hf hk hg
  cases hb with
  | done _ ha _ _ => exact h.acked ha
  | failed => exact h.same rfl rfl (fun _ _ => rfl) (fun _ _ => id)
  | opened => exact h.same rfl rfl (fun g hg => Function.update_of_ne (hne rfl g hg) _ _) (fun _ _ => id)
  | undeduped => exact h.lock (hf rfl)
  | renameFrom => exact h.same rfl rfl (fun g hg => Function.update_of_ne (hne rfl g hg) _ _) (fun _ _ => id)
  | renameTo => exact h.same rfl rfl (fun g hg => Function.update_of_ne (hne rfl g hg) _ _) (fun _ _ => id)

/-- Who comes to a file with its window open asks for the cancellation and waits. -/
theorem Enter.guards (he : Enter b f k b' pc') (h : b.Windowed w) : b.Guards b' w := by
  cases he with
  | wait _ hbusy =>
    have hst : ∀ g, (b.setStatus f { b.status f with cancel := true }).status g =
        if g = f then { b.status f with cancel := true } else b.status g := fun g => Function.update_apply _ _ _ _
    refine ⟨⟨fun g => ?_, fun g hg => ?_, h.alone, h.locked⟩, fun g _ => Nat.le_refl _, fun g _ _ hc => ?_⟩
    · rw [hst]
      split
      · rename_i e
        subst e
        rw [h.bits g]
      · exact h.bits g
    · rw [hst] at hg
      split at hg
      · rename_i e
        subst e
        exact h.busy_iff.mp hbusy
      · exact h.cancel g hg
    · rw [hst]
      split
      · rfl
      · exact hc
  | body hbusy hb =>
    refine hb.guards h (fun hk hw => ?_)
    have hidle := hbusy (Caller.stabile_of_counts hk)
    rw [h.busy_iff.mpr hw] at hidle
    cases hidle

/-- A step of a thread keeps the windows. `rest` is what the others hold, the background thread among them. -/
theorem ClientStep.guards {free : Bool} {wants : Nat → Prop} {rest : Nat → Nat} (hs : ClientStep free wants b pc b' pc')
    (h : b.Windowed w) (hb : b.Balanced (fun g => rest g + pc.refs g)) (hrest : ∀ f, w.window = some f → 1 ≤ rest f)
    (hdesc : ∀ d f, pc.desc = some (d, f) → b.live d = true ∧ b.owner d = f) : b.Guards b' w := by
  -- in the window nobody else is counted
  have halone : ∀ f, w.window = some f → b.head f = [] ∧ pc.refs f = 0 ∧ f < b.nextFile := by
    intro f hf
    have h1 := h.alone f hf
    have h2 := hb.accesses f
    have h3 := hrest f hf
    have hlen : (b.head f).length = 0 := by omega
    refine ⟨List.eq_nil_of_length_eq_zero hlen, by omega, ?_⟩
    by_contra hn
    have h4 := (hb.fresh f (Nat.le_of_not_lt hn)).2.2
    omega
  have hlt : ∀ f, w.window = some f → f < b.nextFile := fun f hf => (halone f hf).2.2
  cases hs with
  | found _ _ _ _ he => exact he.guards h
  | @new k _ _ _ _ hbody =>
    have hcount : b.Guards { b with entries := b.entries + 1 } w := h.same rfl rfl (fun _ _ => rfl) (fun _ _ => id)
    have hnew := hcount.trans (hcount.windowed.newFile hlt k.filename) (Nat.le_refl _)
    exact hnew.trans (hbody.guards hnew.windowed (fun _ hw => Nat.lt_irrefl _ (hlt _ hw))) (Nat.le_succ _)
  | @purgeUsed f todo k force _ _ =>
    cases force <;> exact h.same rfl rfl (fun _ _ => rfl) (fun _ _ => id)
  | @purgeQueue f todo k force isDedup _ h0 _ =>
    refine h.same rfl rfl (fun g hg => Function.update_of_ne ?_ _ _) (fun _ _ => id)
    rintro rfl
    have h1 := h.alone g hg
    omega
  | @purgeNew k force _ _ hbody =>
    have hnew := h.newFile hlt k.filename
    exact hnew.trans (hbody.guards hnew.windowed (fun _ hw => Nat.lt_irrefl _ (hlt _ hw))) (Nat.le_succ _)
  | wake _ _ he => exact he.guards h
  | openFailed => exact h.unlock _
  | @opened full f hk =>
    refine (h.unlock f).trans ((h.unlock f).windowed.same rfl rfl (fun g hg => Function.update_of_ne ?_ _ _) (fun _ _ => id))
      (Nat.le_refl _)
    -- there is no window where the lock is kept
    rintro rfl
    exact Bool.false_ne_true ((h.locked g hg).symm.trans hk.2)
  | @renameLock src dst x y _ =>
    refine h.lock (fun hw => ?_)
    obtain ⟨_, hr, _⟩ := halone x hw
    simp [Pc.refs] at hr
  | @renameFailed src dst x y _ _ hxy =>
    refine (h.unlock x).trans ((h.unlock x).windowed.same rfl rfl (fun g hg => ?_) (fun _ _ => id)) (Nat.le_refl _)
    obtain ⟨_, hr, _⟩ := halone g hg
    have hx : g ≠ x := by rintro rfl; simp [Pc.refs] at hr
    have hy : g ≠ y := by rintro rfl; simp [Pc.refs] at hr
    change Function.update (Function.update b.accesses x _) y _ g = _
    rw [Function.update_of_ne hy, Function.update_of_ne hx]
    rfl
  | @renamed src dst x y _ _ hxy =>
    have hnot : ∀ g, g = x ∨ g = y → w.window ≠ some g := by
      intro g hg hw
      obtain ⟨_, hr, _⟩ := halone g hw
      rcases hg with rfl | rfl <;> simp [Pc.refs] at hr
    have hst : ((((b.unlock x).count x (-1)).count y (-1)).rename x y).status = b.status := by
      funext g
      change Function.update b.status y (b.status x) g = b.status g
      rw [Function.update_apply]
      split
      · rename_i e
        subst e
        rw [h.clear (hnot x (Or.inl rfl)), h.clear (hnot g (Or.inr rfl))]
      · rfl
    refine (h.unlock x).trans ((h.unlock x).windowed.same hst rfl (fun g hg => ?_) (fun _ _ => id)) (Nat.le_refl _)
    have hx : g ≠ x := fun e => hnot g (Or.inl e) hg
    have hy : g ≠ y := fun e => hnot g (Or.inr e) hg
    rw [Books.accesses_rename _ hxy hx hy]
    change Function.update (Function.update b.accesses x _) y _ g = _
    rw [Function.update_of_ne hy, Function.update_of_ne hx]
    rfl
  | locked _ _ ha _ => exact h.acked ha
  | @released d f _ =>
    obtain ⟨hl, ho⟩ := hdesc d f rfl
    refine h.same rfl rfl (fun g hg => Function.update_of_ne ?_ _ _) (fun _ _ => id)
    rintro rfl
    have hm := (hb.mem_head g d).mpr ⟨hl, ho⟩
    rw [(halone g hg).1] at hm
    cases hm
  | _ => exact h.same rfl rfl (fun _ _ => rfl) (fun _ _ => id)

/-- Who waits after a step has asked for a cancellation that has not been broadcast, or was waiting before. -/
theorem ClientStep.waiting {free : Bool} {wants : Nat → Prop} {seen : Nat} (hs : ClientStep free wants b pc b' (.waiting k f seen)) :
    seen = b'.cond f ∧ (b'.status f).cancel = true := by
  have henter : ∀ {c c' : Books} {g : Nat} {k' : Caller}, Enter c g k' c' (.waiting k f seen) →
      seen = c'.cond f ∧ (c'.status f).cancel = true := by
    intro c c' g k' he
    cases he with
    | wait =>
      refine ⟨rfl, ?_⟩
      change (Function.update c.status f _ f).cancel = true
      rw [Function.update_self]
    | body _ hb =>
      cases hb with
      | done _ _ _ hpc => exact hpc.elim
  have hbody : ∀ {c c' : Books} {g : Nat} {k' : Caller}, ¬Body c g k' c' (.waiting k f seen) := by
    intro c c' g k' hb
    cases hb with
    | done _ _ _ hpc => exact hpc
  cases hs with
  | quiet _ hpc => exact hpc.elim
  | found _ _ _ _ he => exact henter he
  | new _ _ hb => exact absurd hb hbody
  | purgeNew hb => exact absurd hb hbody
  | wake _ _ he => exact henter he
  | locked _ _ _ hpc => rcases hpc with hpc | ⟨hpc, _⟩ <;> cases hpc
  | unlocked _ _ hpc => rcases hpc with hpc | ⟨hpc, _⟩ <;> cases hpc

end Client

/-! ## Steps of the background thread -/

section Worker

variable {b b' : Books} {w w' : WorkerPc} {f : Nat}

/-- Nothing is open and nothing gets opened. -/
theorem Books.Windowed.idle (h : b.Windowed w) (hw : w.window = none) (hw' : w'.window = none) (hs : b'.status = b.status)
    (hc : b'.cond = b.cond) : b.Guards b' w' := by
  have hnone : ∀ g, w.window ≠ some g := fun g hg => by rw [hw] at hg; cases hg
  have hnone' : ∀ g, w'.window ≠ some g := fun g hg => by rw [hw'] at hg; cases hg
  refine ⟨⟨fun g => ?_, fun g hg => ?_, fun g hg => absurd hg (hnone' g), fun g hg => absurd hg (hnone' g)⟩, fun g _ => le_of_eq (congrFun hc g).symm, fun g _ _ hg => ?_⟩
  · rw [hs, WorkerPc.bits_of_not_window (hnone' g), h.clear (hnone g)]
  · rw [hs] at hg
    exact absurd (h.cancel g hg) (hnone g)
  · rw [hs]
    exact hg

/-- The window is opened on an entry that nobody else counts on. -/
theorem Books.Windowed.start {st : Status} (h : b.Windowed w) (hw : w.window = none) (hw' : w'.window = some f)
    (hst : w'.bits f = st) (hcancel : st.cancel = false) (h1 : b.accesses f = 1) (hl : b.locked f = false) :
    b.Guards (b.setStatus f st) w' := by
  have hnone : ∀ g, w.window ≠ some g := fun g hg => by rw [hw] at hg; cases hg
  have hs : ∀ g, (b.setStatus f st).status g = if g = f then st else b.status g := fun g => Function.update_apply _ _ _ _
  refine ⟨⟨fun g => ?_, fun g hg => ?_, fun g hg => ?_, fun g hg => ?_⟩, fun g _ => Nat.le_refl _, fun g _ _ hg => ?_⟩
  · rw [hs]
    by_cases e : g = f
    · subst e
      rw [if_pos rfl, hst]
    · rw [if_neg e, h.clear (hnone g), WorkerPc.bits_of_not_window (fun hg => e (Option.some.inj (hg.symm.trans hw')))]
  · rw [hs] at hg
    split at hg
    · rw [hcancel] at hg
      cases hg
    · exact absurd (h.cancel g hg) (hnone g)
  · rw [hw'] at hg
    cases hg
    exact h1
  · rw [hw'] at hg
    cases hg
    exact hl
  · exact absurd (h.cancel g hg) (hnone g)

/-- The window is closed: the bit is cleared, and a cancellation is acknowledged. -/
theorem Books.Windowed.finish (h : b.Windowed w) (clear : Status → Status) (hw : w.window = some f) (hw' : w'.window = none)
    (hclear : ({ clear { w.bits f with cancel := (b.status f).cancel } with cancel := false } : Status) = .clear) :
    b.Guards ((b.closeWindow f clear).count f (-1)) w' ∧
      ((b.status f).cancel = true → ((b.closeWindow f clear).count f (-1)).cond f = b.cond f + 1) := by
  have hnone' : ∀ g, w'.window ≠ some g := fun g hg => by rw [hw'] at hg; cases hg
  have hs : ∀ g, ((b.closeWindow f clear).count f (-1)).status g = if g = f then .clear else b.status g := by
    intro g
    change Function.update b.status f _ g = _
    rw [Function.update_apply]
    split
    · rename_i e
      subst e
      rw [h.bits g]
      exact hclear
    · rfl
  have hc : ∀ g, ((b.closeWindow f clear).count f (-1)).cond g =
      if g = f then b.cond f + (if (b.status f).cancel then 1 else 0) else b.cond g := fun g => Function.update_apply _ _ _ _
  have hother : ∀ g, g ≠ f → w.window ≠ some g := fun g e hg => e (Option.some.inj (hg.symm.trans hw))
  refine ⟨⟨⟨fun g => ?_, fun g hg => ?_, fun g hg => absurd hg (hnone' g), fun g hg => absurd hg (hnone' g)⟩, fun g _ => ?_,
    fun g _ e hg => ?_⟩, fun hcancel => ?_⟩
  · rw [hs, WorkerPc.bits_of_not_window (hnone' g)]
    split
    · rfl
    · rename_i e
      rw [h.clear (hother g e)]
  · rw [hs] at hg
    split at hg
    · cases hg
    · rename_i e
      exact absurd (h.cancel g hg) (hother g e)
  · rw [hc]
    split
    · rename_i e
      subst e
      exact Nat.le_add_right _ _
    · exact Nat.le_refl _
  · have hgf := Option.some.inj ((h.cancel g hg).symm.trans hw)
    subst hgf
    rw [hc, if_pos rfl, hg] at e
    simp at e
  · rw [hc, if_pos rfl, hcancel, if_pos rfl]

/-- A step of the background thread keeps the windows, as long as the file it hashes can be read, and broadcasts when it closes a
window where a cancellation has been asked for. -/
theorem WorkerStep.guards (hs : WorkerStep b w b' w') (h : b.Windowed w) (hhash : ∀ f, w ≠ .hashing f (.finished none)) :
    b.Guards b' w' ∧ ∀ f, w.window = some f → w'.window ≠ some f → (b.status f).cancel = true → b'.cond f = b.cond f + 1 := by
  have hnone : ∀ {w : WorkerPc} {c : Books}, w.window = none →
      ∀ f, w.window = some f → w'.window ≠ some f → (b.status f).cancel = true → c.cond f = b.cond f + 1 := by
    intro w c hw f hf
    rw [hw] at hf
    cases hf
  have hsame : ∀ {w : WorkerPc} {c : Books}, w.window = w'.window →
      ∀ f, w.window = some f → w'.window ≠ some f → (b.status f).cancel = true → c.cond f = b.cond f + 1 := by
    intro w c hw f hf hf'
    exact absurd (hw ▸ hf) hf'
  cases hs with
  | dequeue => exact ⟨h.idle rfl rfl rfl rfl, hnone rfl⟩
  | skip => exact ⟨h.idle rfl rfl rfl rfl, hnone rfl⟩
  | @compressBegin job hl h1 =>
    have hclear := h.clear (f := job.file) (by rintro ⟨⟩)
    refine ⟨h.start rfl rfl ?_ ?_ h1 hl.2, hnone rfl⟩
    · rw [hclear]
      exact if_pos rfl
    · rw [hclear]
      rfl
  | @dedupBegin f hl h1 =>
    have hclear := h.clear (f := f) (by rintro ⟨⟩)
    refine ⟨h.start rfl rfl ?_ ?_ h1 hl.2, hnone rfl⟩
    · rw [hclear]
      exact if_pos rfl
    · rw [hclear]
      rfl
  | compressRead => exact ⟨⟨⟨h.bits, h.cancel, h.alone, h.locked⟩, fun _ _ => Nat.le_refl _, fun _ _ _ hg => hg⟩, hsame rfl⟩
  | hash => exact ⟨⟨⟨h.bits, h.cancel, h.alone, h.locked⟩, fun _ _ => Nat.le_refl _, fun _ _ _ hg => hg⟩, hsame rfl⟩
  | @compressEnd job got eof _ =>
    obtain ⟨hg, hc⟩ := h.finish Status.endCompressing rfl (rfl : WorkerPc.idle.window = none) (by
      unfold WorkerPc.bits
      dsimp only
      rw [if_pos rfl]
      rfl)
    refine ⟨hg, ?_⟩
    rintro f ⟨⟩ _
    exact hc
  | @dedupEnd f md5 _ =>
    obtain ⟨hg, hc⟩ := h.finish Status.endDeduping rfl (rfl : WorkerPc.idle.window = none) (by
      unfold WorkerPc.bits
      dsimp only
      rw [if_pos rfl]
      rfl)
    refine ⟨hg, ?_⟩
    rintro f ⟨⟩ _
    exact hc
  | @dedupFailed f _ => exact absurd rfl (hhash f)

end Worker

/-! ## Hashing -/

/-- The file that the background thread is about to hash next can be read: it is there and opens, and its header, the stream of
its module or its bytes can be read. -/
def HashPc.readable (Γ : Config) (env : Env) (s : State) (name : Filename) : HashPc → Bool
  | .start =>
    env.ok .open &&
      match s.fs.inoOf name with
      | none => false
      | some i =>
        match hashStart Γ (env.ok .readMagic) (env.ok .readHeader) (s.data i) with
        | .raw | .crash => true
        | .failed => false
        | .packed _ => env.ok .codecOpen
  | .raw _ _ => env.ok .read
  | .packed i m _ => env.ok .codecRead && ((Γ.codec m).decode ((s.data i).drop headerSize)).isSome
  | .finished _ => true

/-- What the background thread is about to hash next can be read. -/
def WorkerPc.readable (Γ : Config) (env : Env) (s : State) : WorkerPc → Bool
  | .hashing f pc => pc.readable Γ env s (s.files f).filename
  | _ => true

/-- Where the file can be read the hash is computed, or the process is gone. -/
theorem hashStep_readable {Γ : Config} {env : Env} {s : State} {name : Filename} {pc : HashPc}
    (h : pc.readable Γ env s name = true) (hpc : pc ≠ .finished none) (hf : (hashStep Γ env s name pc).2 = .finished none) :
    (hashStep Γ env s name pc).1.aborted = true := by
  cases pc with
  | start =>
    rw [HashPc.readable] at h
    rw [hashStep] at hf ⊢
    rw [Bool.and_eq_true] at h
    obtain ⟨hopen, h⟩ := h
    rw [hopen, if_pos rfl] at hf ⊢
    cases hi : s.fs.inoOf name with
    | none =>
      rw [hi] at h
      cases h
    | some i =>
      rw [hi] at h hf
      dsimp only at h hf ⊢
      cases hstart : hashStart Γ (env.ok .readMagic) (env.ok .readHeader) (s.data i) with
      | raw =>
        rw [hstart] at hf
        cases hf
      | failed =>
        rw [hstart] at h
        cases h
      | crash => rfl
      | packed m =>
        rw [hstart] at h hf
        dsimp only at h hf
        rw [if_pos h] at hf
        cases hf
  | raw i got =>
    rw [HashPc.readable] at h
    rw [hashStep] at hf
    rw [if_neg (by rw [h]; simp)] at hf
    split at hf <;> cases hf
  | packed i m got =>
    rw [HashPc.readable] at h
    rw [hashStep] at hf
    rw [Bool.and_eq_true] at h
    rw [if_pos h.1] at hf
    cases hd : (Γ.codec m).decode ((s.data i).drop headerSize) with
    | none =>
      rw [hd] at h
      cases h.2
    | some d =>
      rw [hd] at hf
      dsimp only at hf
      split at hf <;> cases hf
  | finished hash =>
    cases hf
    exact absurd rfl hpc

/-- Who has come to the end of hashing was hashing before. -/
theorem WorkerStep.of_finished {b b' : Books} {w : WorkerPc} {f : Nat} {hash : Option (List UInt8)}
    (hs : WorkerStep b w b' (.hashing f (.finished hash))) : ∃ pc, w = .hashing f pc := by
  cases hs with
  | hash => exact ⟨_, rfl⟩

/-- A step that goes on hashing is one of `dedup_hash_file`. -/
theorem workerStep_hashing {Γ : Config} {env : Env} {s s' : State} {f f' : Nat} {pc pc' : HashPc}
    (h : workerStep Γ env s (.hashing f pc) = some (s', .hashing f' pc')) :
    pc ≠ .finished none ∧ hashStep Γ env s (s.files f).filename pc = (s', pc') := by
  have hgo : (if s.freed f then none else let r := hashStep Γ env s (s.files f).filename pc; some (r.1, WorkerPc.hashing f r.2)) =
      some (s', .hashing f' pc') → hashStep Γ env s (s.files f).filename pc = (s', pc') := by
    intro h
    split at h
    · cases h
    · cases h
      rfl
  cases pc with
  | finished hash =>
    rw [workerStep] at h
    split at h <;> cases h
  | start => exact ⟨by simp, hgo h⟩
  | raw ino got => exact ⟨by simp, hgo h⟩
  | packed ino m got => exact ⟨by simp, hgo h⟩

/-! ## The whole system -/

section System

variable {T : Type} [Fintype T] [DecidableEq T]

/-- No call that `dedup_hash_file` makes fails. -/
def Sys.Hashes (Γ : Config) (sys : Sys T) : Label T → Prop
  | .worker env => sys.worker.readable Γ env sys.shared = true
  | _ => True

instance (Γ : Config) (sys : Sys T) (l : Label T) : Decidable (sys.Hashes Γ l) :=
  match l with
  | .worker env => inferInstanceAs (Decidable (sys.worker.readable Γ env sys.shared = true))
  | .request _ _ => isTrue trivial
  | .client _ _ => isTrue trivial
  | .tick => isTrue trivial

/-- The invariant of the windows. -/
structure Sys.Guarded (sys : Sys T) : Prop where
  counted : sys.Counted
  windowed : sys.shared.books.Windowed sys.worker
  hashed : ∀ f, sys.worker = .hashing f (.finished none) → sys.shared.aborted = true
  waits : ∀ t k f seen, sys.clients t = .waiting k f seen → seen ≤ (sys.shared.files f).cond ∧
    (seen = (sys.shared.files f).cond → (sys.shared.files f).status.cancel = true)

omit [DecidableEq T] in
theorem Sys.guarded_mounted (fs : Backing) : (Sys.mounted fs : Sys T).Guarded where
  counted := Sys.counted_mounted fs
  windowed := ⟨fun f => rfl, fun f hf => (by cases hf), fun f hf => (by cases hf), fun f hf => (by cases hf)⟩
  hashed f hf := by cases hf
  waits t k f seen hf := by cases hf

/-- Every step keeps the windows, and broadcasts when it closes one where a cancellation has been asked for. -/
theorem Sys.Guarded.step_guards {Γ : Config} {sys sys' : Sys T} {l : Label T} (h : sys.Guarded) (hs : sys.step Γ l = some sys') :
    sys.shared.books.Guards sys'.shared.books sys'.worker ∧
      ∀ f, sys.worker.window = some f → sys'.worker.window ≠ some f → (sys.shared.files f).status.cancel = true →
        (sys'.shared.files f).cond = (sys.shared.files f).cond + 1 := by
  rcases Sys.step_cases hs with ⟨t, r, last, rfl, hidle, rfl⟩ | ⟨t, env, s, pc, rfl, _, hc, rfl⟩ | ⟨env, s, w, rfl, hstep, hw, rfl⟩ |
    ⟨rfl, rfl⟩
  · exact ⟨h.windowed.same rfl rfl (fun _ _ => rfl) (fun _ _ => id), fun f hf hf' => absurd hf hf'⟩
  · have hb : sys.shared.books.Balanced (fun g => sys.others t g + (sys.clients t).refs g) :=
      h.counted.balanced.congr (fun f => Sys.refs_eq sys t f)
    refine ⟨hc.guards h.windowed hb (fun f hf => ?_) (h.counted.desc t), fun f hf hf' => absurd hf hf'⟩
    have hw : sys.worker.refs f = 1 := WorkerPc.refs_of_window hf
    unfold Sys.others
    omega
  · refine hw.guards h.windowed (fun f hf => ?_)
    -- the process is gone when a file could be read and was not hashed
    have hab := h.hashed f hf
    unfold Sys.step at hs
    dsimp only at hs
    rw [if_pos hab] at hs
    cases hs
  · exact ⟨h.windowed.same rfl rfl (fun _ _ => rfl) (fun _ _ => id), fun f hf hf' => absurd hf hf'⟩

/-- Every step keeps the invariant of the windows, as long as what is hashed can be read. -/
theorem Sys.Guarded.step {Γ : Config} {sys sys' : Sys T} {l : Label T} (h : sys.Guarded)
    (hok : (sys.Promised l ∧ sys.Unmoved Γ l) ∧ sys.Hashes Γ l) (hs : sys.step Γ l = some sys') : sys'.Guarded := by
  obtain ⟨hg, _⟩ := h.step_guards hs
  have hcounted := h.counted.step hok.1 hs
  -- who was waiting before goes on waiting for a cancellation, or has been woken
  have hold : ∀ t k f seen, sys.clients t = .waiting k f seen → seen ≤ (sys'.shared.files f).cond ∧
      (seen = (sys'.shared.files f).cond → (sys'.shared.files f).status.cancel = true) := by
    intro t k f seen hpc
    have hlt : f < sys.shared.nextFile := by
      have hk := h.counted.known t
      rw [hpc] at hk
      exact hk.2.1
    obtain ⟨h1, h2⟩ := h.waits t k f seen hpc
    have h3 : (sys.shared.files f).cond ≤ (sys'.shared.files f).cond := hg.cond f hlt
    refine ⟨h1.trans h3, fun e => hg.cancel f hlt ?_ (h2 ?_)⟩
    · change (sys'.shared.files f).cond = (sys.shared.files f).cond
      omega
    · omega
  rcases Sys.step_cases hs with ⟨t, r, last, rfl, hidle, rfl⟩ | ⟨t, env, s, pc, rfl, hstep, hc, rfl⟩ | ⟨env, s, w, rfl, hstep, hw, rfl⟩ |
    ⟨rfl, rfl⟩
  · refine ⟨hcounted, hg.windowed, h.hashed, fun t' k f seen hpc => ?_⟩
    by_cases e : t' = t
    · subst e
      rw [show (sys.advance t' sys.shared (takeRequest Γ sys.shared r)).clients t' = takeRequest Γ sys.shared r from
        Function.update_self _ _ _] at hpc
      cases r <;> cases hpc
    · exact hold t' k f seen ((Function.update_of_ne e _ _).symm.trans hpc)
  · refine ⟨hcounted, hg.windowed, fun f hf => ?_, fun t' k f seen hpc => ?_⟩
    · have hab := h.hashed f hf
      unfold Sys.step at hs
      dsimp only at hs
      rw [if_pos hab] at hs
      cases hs
    · by_cases e : t' = t
      · subst e
        rw [show (sys.advance t' s pc).clients t' = pc from Function.update_self _ _ _] at hpc
        rw [hpc] at hc
        obtain ⟨h1, h2⟩ := hc.waiting
        exact ⟨le_of_eq h1, fun _ => h2⟩
      · exact hold t' k f seen ((Function.update_of_ne e _ _).symm.trans hpc)
  · refine ⟨hcounted, hg.windowed, fun f hf => ?_, hold⟩
    change w = .hashing f (.finished none) at hf
    subst hf
    obtain ⟨pc, hpc⟩ := hw.of_finished
    rw [hpc] at hstep
    obtain ⟨hne, hstep⟩ := workerStep_hashing hstep
    have hread : pc.readable Γ env sys.shared (sys.shared.files f).filename = true := by
      have hr : sys.worker.readable Γ env sys.shared = true := hok.2
      rw [hpc] at hr
      exact hr
    have hab := hashStep_readable hread hne (by rw [hstep])
    rw [hstep] at hab
    exact hab
  · exact ⟨hcounted, hg.windowed, h.hashed, hold⟩

end System

end FuseCompress
