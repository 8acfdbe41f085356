import FuseCompress.ReadBuffers
import FuseCompress.Theorems.FailingReads
import Mathlib.Data.List.GetD

/-!
# When a read stays inside its buffers

The condition, on the file, the descriptor and the request, under which `direct_decompress` uses no index behind `file->cache`, asks
no decoder for more than the buffer holds and never makes a negative `size` unsigned.
-/

namespace FuseCompress

/-! ## The stream -/

/-- A decoder with a stream: a call that succeeds delivers what is asked for, or what is left when that is less. Without a fault, all
calls succeed when the stream is `whole`, and else those that stay inside it. -/
structure Decoder.Streams (D : Decoder) (rest : D.State → Nat) (whole : Bool) : Prop where
  length : ∀ φ n σ σ' buf, D.read φ n σ = (σ', some buf) → buf.length = min n (rest σ)
  left : ∀ φ n σ σ' buf, D.read φ n σ = (σ', some buf) → rest σ' = rest σ - buf.length
  reach : ∀ φ n σ σ' buf, D.read φ n σ = (σ', some buf) → n ≤ rest σ ∨ whole = true
  fine : ∀ n σ, n ≤ rest σ ∨ whole = true → ∃ σ' buf, D.read D.fine n σ = (σ', some buf)

/-- `null` has the stream that its file holds. -/
theorem Decoder.null_streams (stream : Bytes) : (Decoder.null stream).Streams (fun pos : Nat => stream.length - pos) true where
  length φ n σ σ' buf h := by
    obtain ⟨hbuf, -⟩ := nullRead_some h
    exact (congrArg List.length hbuf).trans (Bytes.length_slice _ _ _)
  left φ n σ σ' buf h := by
    obtain ⟨-, hpos⟩ := nullRead_some h
    rw [hpos]
    omega
  reach _ _ _ _ _ _ := Or.inr rfl
  fine n pos _ := ⟨_, _, rfl⟩

/-- A skipping from `now` to `target` in a stream that ends at `ends` calls the decoder at `p`: a number of whole pages further on, or
at the end of the stream when the header, which says `size`, promises no more than that. -/
def TurnAt (size : Int) (whole : Bool) (now target ends p : Nat) : Prop :=
  now ≤ p ∧ p < target ∧ p ≤ ends ∧ (pageSize ∣ p - now ∨ p = ends ∧ whole = true ∧ size ≠ -1 ∧ size ≤ ends)

section turns

variable {size : Int} {whole : Bool} {now target ends p n : Nat}

theorem TurnAt.here (hlt : now < target) (hle : now ≤ ends) : TurnAt size whole now target ends now :=
  ⟨Nat.le_refl _, hlt, hle, Or.inl (by simp)⟩

/-- After a turn that has got all it asked for. -/
theorem turnAt_full (hn : n = min (target - now) pageSize) (hlt : now < target) (hle : now + n ≤ ends) :
    TurnAt size whole now target ends p ↔ p = now ∨ TurnAt size whole (now + n) target ends p := by
  unfold TurnAt pageSize at *
  by_cases hbig : target - now ≤ 4096
  · have hnow : now + n = target := by omega
    constructor
    · rintro ⟨h₁, h₂, h₃, h₄ | ⟨h₄, -⟩⟩
      · exact Or.inl (by omega)
      · omega
    · rintro (rfl | ⟨h₁, h₂, -⟩)
      · exact ⟨Nat.le_refl _, hlt, by omega, Or.inl (by simp)⟩
      · omega
  · have hn : n = 4096 := by omega
    subst hn
    constructor
    · rintro ⟨h₁, h₂, h₃, h₄⟩
      by_cases hp : p = now
      · exact Or.inl hp
      · right
        refine ⟨?_, h₂, h₃, h₄.imp_left (fun hdvd => by omega)⟩
        rcases h₄ with hdvd | ⟨rfl, -⟩ <;> omega
    · rintro (rfl | ⟨h₁, h₂, h₃, h₄⟩)
      · exact ⟨Nat.le_refl _, hlt, by omega, Or.inl (by simp)⟩
      · exact ⟨by omega, h₂, h₃, h₄.imp_left (fun hdvd => by omega)⟩

/-- After a turn that has got less, when the header promises no more. -/
theorem turnAt_short (hn : n = min (target - now) pageSize) (hend : ends < now + n) (hle : now < ends) (hwhole : whole = true)
    (hsize : size ≠ -1 ∧ size ≤ ends) :
    TurnAt size whole now target ends p ↔ p = now ∨ TurnAt size whole ends target ends p := by
  unfold TurnAt pageSize at *
  constructor
  · rintro ⟨h₁, h₂, h₃, h₄⟩
    by_cases hp : p = now
    · exact Or.inl hp
    · right
      have hp : p = ends := by
        rcases h₄ with hdvd | ⟨rfl, -⟩ <;> omega
      exact ⟨by omega, h₂, h₃, Or.inr ⟨hp, hwhole, hsize⟩⟩
  · rintro (rfl | ⟨h₁, h₂, h₃, -⟩)
    · exact ⟨Nat.le_refl _, by omega, by omega, Or.inl (by simp)⟩
    · exact ⟨by omega, h₂, h₃, Or.inr ⟨by omega, hwhole, hsize⟩⟩

/-- After a turn that ends the skipping. -/
theorem turnAt_last (hn : n = min (target - now) pageSize) (hend : ends < now + n)
    (hstop : now = ends ∨ whole = false ∨ size = -1 ∨ (ends : Int) < size) (h : TurnAt size whole now target ends p) : p = now := by
  unfold TurnAt pageSize at *
  obtain ⟨h₁, h₂, h₃, h₄⟩ := h
  rcases h₄ with h₄ | ⟨h₄, hw, h₅, h₆⟩
  · omega
  · rcases hstop with hstop | hstop | hstop | hstop
    · omega
    · rw [hw] at hstop
      cases hstop
    · exact absurd hstop h₅
    · omega

end turns

namespace ReadState

variable {D : Decoder} {rest : D.State → Nat} {whole : Bool} {Γ : Config} {s : ReadState D}

/-! ## The condition -/

/-- The skipping from where the descriptor stands has allocated a page for the turn at `p`, if it has for all turns before: the page
is not in the cache, the turn before has not just stored it, and the budget allows it. -/
def KeepsAt (Γ : Config) (s : ReadState D) (p : Nat) : Prop :=
  (s.file.cache.getD []).getD (p / pageSize) none = none ∧
    (s.offset < p → (s.offset + (p - s.offset - 1) / pageSize * pageSize) / pageSize ≠ p / pageSize) ∧
    s.decompCacheSize + ((pageSize * ((p - s.offset + pageSize - 1) / pageSize) : Nat) : Int) < Γ.maxDecompCacheSize

/-- The turn at `p` fits: its page is one of the array, when pages are kept, and what it reads goes into a page of its own or into
the buffer of the caller. -/
def TurnFits (Γ : Config) (s : ReadState D) (keeps : Bool) (room target p : Nat) : Prop :=
  (keeps = true → p / pageSize < (s.file.cache.getD []).length) ∧
    (keeps = true ∧ s.KeepsAt Γ p ∨ min (target - p) pageSize ≤ room)

/-- All turns of the skipping fit. -/
def SkipFits (Γ : Config) (s : ReadState D) (whole keeps : Bool) (room target ends : Nat) : Prop :=
  ∀ p, TurnAt s.file.size whole s.offset target ends p → s.TurnFits Γ keeps room target p

/-! ## One turn -/

/-- A turn has delivered `n` bytes, and the skipping goes on. -/
structure Turned (Γ : Config) (s : ReadState D) (keeps : Bool) (n : Nat) (s' : ReadState D) : Prop where
  offset : s'.offset = s.offset + n
  size : s'.file.size = s.file.size
  cacheSize : s'.decompCacheSize = s.decompCacheSize + if s.keepPage Γ keeps then pageSize else 0
  length : (s'.file.cache.getD []).length = (s.file.cache.getD []).length
  page : s.keepPage Γ keeps = true → s.offset / pageSize < (s.file.cache.getD []).length →
    ∀ k, (s'.file.cache.getD []).getD k none = none ↔ (s.file.cache.getD []).getD k none = none ∧ k ≠ s.offset / pageSize

theorem turned_skipped (Γ : Config) (s : ReadState D) (keeps : Bool) (σ : D.State) (buf : Bytes) :
    s.Turned Γ keeps buf.length
      (({ s.countPage (s.keepPage Γ keeps) with handle := some σ } : ReadState D).skipped (s.keepPage Γ keeps) buf) := by
  refine ⟨rfl, rfl, rfl, ?_, ?_⟩
  · unfold skipped countPage
    cases s.keepPage Γ keeps with
    | false => rfl
    | true =>
      cases s.file.cache with
      | none => rfl
      | some pages => simp
  · intro hkeep hindex k
    rw [hkeep]
    cases hcache : s.file.cache with
    | none =>
      rw [hcache] at hindex
      exact absurd hindex (Nat.not_lt_zero _)
    | some pages =>
      rw [hcache] at hindex
      simp only [skipped, countPage, hcache, if_true, Option.map_some, Option.getD_some, List.getD_eq_getElem?_getD] at hindex ⊢
      by_cases hk : k = s.offset / pageSize
      · subst hk
        simp [List.getElem?_set_self hindex]
      · simp [List.getElem?_set_ne (Ne.symm hk), hk]

/-- A turn uses its buffers as `TurnFits` says. -/
theorem inside_turnUses (keeps : Bool) (room toread : Nat) :
    (∀ u ∈ s.turnUses Γ keeps room (min toread pageSize), u.Inside) ↔ s.TurnFits Γ keeps room (s.offset + toread) s.offset := by
  have hkeep : s.keepPage Γ keeps = true ↔ keeps = true ∧ s.KeepsAt Γ s.offset := by
    simp [keepPage, KeepsAt, pageSize, and_assoc]
  unfold turnUses TurnFits
  rw [← hkeep, Nat.add_sub_cancel_left]
  cases keeps <;> cases s.keepPage Γ _ <;> simp [BufferUse.Inside]

/-- A page allocated in a turn is taken into account by the turns after it. -/
theorem Turned.keepsAt {s' : ReadState D} {n p : Nat} {keeps : Bool} (h : s.Turned Γ keeps n s') (hkeep : s.keepPage Γ keeps = true)
    (hindex : s.offset / pageSize < (s.file.cache.getD []).length) (hpos : 0 < n) (hle : n ≤ pageSize)
    (hp : p = s.offset + n ∨ n = pageSize ∧ s.offset + n ≤ p) : s'.KeepsAt Γ p ↔ s.KeepsAt Γ p := by
  unfold KeepsAt
  rw [h.page hkeep hindex, h.offset, h.cacheSize, if_pos hkeep]
  generalize (s.file.cache.getD []).getD (p / pageSize) none = page
  unfold pageSize at *
  rcases hp with hp | ⟨rfl, hp⟩
  · have hbefore : (p - s.offset - 1) / 4096 = 0 := by omega
    rw [hbefore]
    have hone : (p - s.offset + 4096 - 1) / 4096 = 1 := by omega
    have hzero : (p - (s.offset + n) + 4096 - 1) / 4096 = 0 := by omega
    rw [hone, hzero, and_assoc]
    refine and_congr_right fun _ => and_congr ?_ ?_ <;> constructor <;> intro hnext <;> omega
  · have hturns : (p - s.offset + 4096 - 1) / 4096 = (p - (s.offset + 4096) + 4096 - 1) / 4096 + 1 := by omega
    have hother : p / 4096 ≠ s.offset / 4096 := by omega
    rw [hturns]
    refine and_congr (and_iff_left hother) (and_congr ?_ ?_) <;> constructor <;> intro hnext <;> omega

/-- When a turn fits, a later one fits before it if and only if it fits after it. -/
theorem Turned.turnFits {s' : ReadState D} {n p room target : Nat} {keeps : Bool} (h : s.Turned Γ keeps n s')
    (hfits : s.TurnFits Γ keeps room target s.offset) (hpos : 0 < n) (hle : n ≤ pageSize)
    (hp : p = s.offset + n ∨ n = pageSize ∧ s.offset + n ≤ p) :
    s'.TurnFits Γ keeps room target p ↔ s.TurnFits Γ keeps room target p := by
  obtain ⟨hindex, hroom⟩ := hfits
  unfold TurnFits
  rw [h.length]
  refine and_congr_right fun _ => ?_
  rcases hroom with ⟨hkeeps, hnow⟩ | hroom
  · have hkeep : s.keepPage Γ keeps = true := by simpa [keepPage, KeepsAt, pageSize, hkeeps] using hnow
    rw [h.keepsAt hkeep (hindex hkeeps) hpos hle hp]
  · have hlater : min (target - p) pageSize ≤ room := by omega
    exact iff_of_true (Or.inr hlater) (Or.inr hlater)

/-! ## The skipping -/

theorem codecRead_none {φ : D.Fault} {n : Nat} {σ : D.State} {s' : ReadState D} (hopen : s.handle = some σ)
    (h : s.codecRead φ n = (s', none)) : (D.read φ n σ).2 = none := by
  unfold codecRead at h
  rw [hopen] at h
  exact congrArg Prod.snd h

/-- What a call that succeeds does, for a decoder with a stream. -/
theorem codecRead_streams (hD : D.Streams rest whole) {φ : D.Fault} {n : Nat} {σ : D.State} {buf : Bytes} {s' : ReadState D}
    (hopen : s.handle = some σ) (h : s.codecRead φ n = (s', some buf)) :
    ∃ σ', s' = { s with handle := some σ' } ∧ buf.length = min n (rest σ) ∧ rest σ' = rest σ - buf.length ∧
      (n ≤ rest σ ∨ whole = true) := by
  unfold codecRead at h
  rw [hopen] at h
  dsimp only at h
  cases hread : D.read φ n σ with
  | mk σ' r =>
    rw [hread] at h
    cases h
    exact ⟨σ', rfl, hD.length _ _ _ _ _ hread, hD.left _ _ _ _ _ hread, hD.reach _ _ _ _ _ hread⟩

/-- A call without a fault succeeds inside the stream. -/
theorem codecRead_fine (hD : D.Streams rest whole) {n : Nat} {σ : D.State} (hopen : s.handle = some σ)
    (hn : n ≤ rest σ ∨ whole = true) (s' : ReadState D) : s.codecRead D.fine n ≠ (s', none) := by
  intro h
  obtain ⟨σ', buf, hread⟩ := hD.fine n σ hn
  have hnone := codecRead_none hopen h
  rw [hread] at hnone
  cases hnone

/-- A turn of the skipping: it ends it, or it delivers bytes and the skipping goes on. -/
theorem skipLoopTraced_turn (hD : D.Streams rest whole) (faults : Nat → D.Fault) (keeps : Bool) (room n : Nat) {toread : Nat} {σ : D.State}
    (hopen : s.handle = some σ) (hto : toread ≠ 0) :
    (∃ s' r, skipLoopTraced Γ faults keeps room (n + 1) toread s = ((s', some r), s.turnUses Γ keeps room (min toread pageSize)) ∧
      (faults n = D.fine → s.offset + rest σ < s.offset + min toread pageSize ∧
        (s.offset = s.offset + rest σ ∨ whole = false ∨ s.file.size = -1 ∨ ((s.offset + rest σ : Nat) : Int) < s.file.size))) ∨
    (∃ s' k σ', s.Turned Γ keeps k s' ∧ s'.handle = some σ' ∧ k + rest σ' = rest σ ∧ 0 < k ∧ k ≤ min toread pageSize ∧
      (k = min toread pageSize ∨ rest σ' = 0 ∧ whole = true ∧ s.file.size ≠ -1 ∧ s.file.size ≤ ((s.offset + k : Nat) : Int)) ∧
      skipLoopTraced Γ faults keeps room (n + 1) toread s =
        ((skipLoopTraced Γ faults keeps room n (toread - k) s').1,
          s.turnUses Γ keeps room (min toread pageSize) ++ s.storeUses (s.keepPage Γ keeps) ++
            (skipLoopTraced Γ faults keeps room n (toread - k) s').2)) := by
  rw [skipLoopTraced, if_neg hto]
  dsimp only
  have hopen' : (s.countPage (s.keepPage Γ keeps)).handle = some σ := hopen
  cases hread : (s.countPage (s.keepPage Γ keeps)).codecRead (faults n) (min toread pageSize) with
  | mk s₁ r =>
    cases r with
    | none =>
      refine Or.inl ⟨s₁, -1, rfl, fun hfine => ?_⟩
      rw [hfine] at hread
      have hshort : ¬(min toread pageSize ≤ rest σ ∨ whole = true) := fun hn => codecRead_fine hD hopen' hn s₁ hread
      rw [not_or, Bool.not_eq_true] at hshort
      exact ⟨by omega, Or.inr (Or.inl hshort.2)⟩
    | some buf =>
      obtain ⟨σ', rfl, hlen, hleft, hreach⟩ := codecRead_streams hD hopen' hread
      dsimp only
      have hoffset : (s.countPage (s.keepPage Γ keeps)).offset = s.offset := rfl
      have hfile : (s.countPage (s.keepPage Γ keeps)).file = s.file := rfl
      rw [hoffset, hfile]
      split
      · rename_i hshort
        refine Or.inl ⟨_, -1, rfl, fun _ => ⟨by omega, Or.inr (Or.inr ?_)⟩⟩
        refine hshort.2.imp_right (fun hlt => ?_)
        have : buf.length = rest σ := by omega
        rwa [this] at hlt
      · rename_i hlong
        split
        · rename_i hempty
          rw [hempty, List.length_nil] at hlen
          have hpos : 0 < min toread pageSize := by
            unfold pageSize
            omega
          exact Or.inl ⟨_, 0, rfl, fun _ => ⟨by omega, Or.inl (by omega)⟩⟩
        · rename_i hsome
          have hpos : 0 < buf.length := List.length_pos_iff.mpr hsome
          refine Or.inr ⟨_, buf.length, σ', s.turned_skipped Γ keeps σ' buf, rfl, by omega, hpos, by omega, ?_, rfl⟩
          by_cases hfull : buf.length = min toread pageSize
          · exact Or.inl hfull
          · right
            have hsize : ¬(s.file.size = -1 ∨ ((s.offset + buf.length : Nat) : Int) < s.file.size) :=
              fun hsize => hlong ⟨by omega, hsize⟩
            rw [not_or] at hsize
            exact ⟨by omega, hreach.resolve_left (by omega), hsize.1, by omega⟩

/-- The turns of a skipping are the one it makes now and those of what is left. -/
theorem SkipFits.turn {s' : ReadState D} {σ σ' : D.State} {k room toread : Nat} {keeps : Bool} (h : s.Turned Γ keeps k s')
    (hleft : k + rest σ' = rest σ) (hpos : 0 < k) (hle : k ≤ min toread pageSize)
    (hgo : k = min toread pageSize ∨ rest σ' = 0 ∧ whole = true ∧ s.file.size ≠ -1 ∧ s.file.size ≤ ((s.offset + k : Nat) : Int)) :
    s.SkipFits Γ whole keeps room (s.offset + toread) (s.offset + rest σ) ↔
      s.TurnFits Γ keeps room (s.offset + toread) s.offset ∧
        s'.SkipFits Γ whole keeps room (s'.offset + (toread - k)) (s'.offset + rest σ') := by
  have htarget : s'.offset + (toread - k) = s.offset + toread := by
    rw [h.offset]
    omega
  have hends : s'.offset + rest σ' = s.offset + rest σ := by
    rw [h.offset]
    omega
  have hturns : ∀ p, TurnAt s.file.size whole s.offset (s.offset + toread) (s.offset + rest σ) p ↔
      p = s.offset ∨ TurnAt s.file.size whole (s.offset + k) (s.offset + toread) (s.offset + rest σ) p := by
    intro p
    by_cases hfull : k = min toread pageSize
    · exact turnAt_full (by rw [Nat.add_sub_cancel_left, hfull]) (by omega) (by omega)
    · obtain ⟨hzero, hwhole, hsize⟩ := hgo.resolve_left hfull
      have hk : s.offset + rest σ = s.offset + k := by omega
      rw [hk]
      refine turnAt_short (n := min toread pageSize) (by rw [Nat.add_sub_cancel_left]) ?_ ?_ hwhole hsize <;> omega
  unfold SkipFits
  rw [htarget, hends, h.offset, h.size]
  have hlater : ∀ p, TurnAt s.file.size whole (s.offset + k) (s.offset + toread) (s.offset + rest σ) p →
      p = s.offset + k ∨ k = pageSize ∧ s.offset + k ≤ p := by
    rintro p ⟨h₁, h₂, h₃, -⟩
    omega
  constructor
  · intro hall
    have hnow := hall s.offset ((hturns _).mpr (Or.inl rfl))
    exact ⟨hnow, fun p hp => (h.turnFits hnow hpos (by omega) (hlater p hp)).mpr (hall p ((hturns p).mpr (Or.inr hp)))⟩
  · rintro ⟨hnow, hall⟩ p hp
    rcases (hturns p).mp hp with rfl | hp
    · exact hnow
    · exact (h.turnFits hnow hpos (by omega) (hlater p hp)).mp (hall p hp)

/-- The page that a turn stores goes where it has looked before. -/
theorem inside_storeUses {keeps : Bool} {room target : Nat} (h : s.TurnFits Γ keeps room target s.offset) :
    ∀ u ∈ s.storeUses (s.keepPage Γ keeps), u.Inside := by
  unfold storeUses
  cases hkeep : s.keepPage Γ keeps with
  | false => simp
  | true =>
    have hkeeps : keeps = true := by
      unfold keepPage at hkeep
      simp only [Bool.and_eq_true] at hkeep
      exact hkeep.1.1
    simpa [BufferUse.Inside] using h.1 hkeeps

/-- Where the turns fit, the skipping stays inside its buffers, whatever the calls of the decoder return. -/
theorem skipLoopTraced_inside (hD : D.Streams rest whole) (faults : Nat → D.Fault) (keeps : Bool) (room n : Nat) :
    ∀ (s : ReadState D) (toread : Nat) {σ : D.State}, s.handle = some σ →
      s.SkipFits Γ whole keeps room (s.offset + toread) (s.offset + rest σ) →
      ∀ u ∈ (skipLoopTraced Γ faults keeps room n toread s).2, u.Inside := by
  induction n with
  | zero => exact fun _ _ _ _ _ u hu => absurd hu List.not_mem_nil
  | succ n ih =>
    intro s toread σ hopen hfits
    by_cases hto : toread = 0
    · subst hto
      exact fun u hu => absurd hu List.not_mem_nil
    have hnow : s.TurnFits Γ keeps room (s.offset + toread) s.offset :=
      hfits s.offset (.here (by omega) (Nat.le_add_right _ _))
    have huses := (inside_turnUses keeps room toread).mpr hnow
    rcases skipLoopTraced_turn hD faults keeps room n hopen hto with ⟨s', r, heq, -⟩ | ⟨s', k, σ', hturned, hopen', hleft, hpos, hle, hgo, heq⟩
    · rw [heq]
      exact huses
    · rw [heq]
      have hrest := ih s' (toread - k) hopen' ((SkipFits.turn hturned hleft hpos hle hgo).mp hfits).2
      intro u hu
      rcases List.mem_append.mp hu with hu | hu
      · rcases List.mem_append.mp hu with hu | hu
        · exact huses u hu
        · exact inside_storeUses hnow u hu
      · exact hrest u hu

/-- Without faults, a skipping that stays inside its buffers has turns that fit. -/
theorem skipFits_of_inside (hD : D.Streams rest whole) (keeps : Bool) (room n : Nat) :
    ∀ (s : ReadState D) (toread : Nat) {σ : D.State}, toread ≤ n → s.handle = some σ →
      (∀ u ∈ (skipLoopTraced Γ (fun _ => D.fine) keeps room n toread s).2, u.Inside) →
      s.SkipFits Γ whole keeps room (s.offset + toread) (s.offset + rest σ) := by
  induction n with
  | zero =>
    rintro s toread σ hfuel - - p ⟨h₁, h₂, -⟩
    omega
  | succ n ih =>
    intro s toread σ hfuel hopen hinside
    by_cases hto : toread = 0
    · subst hto
      rintro p ⟨h₁, h₂, -⟩
      omega
    rcases skipLoopTraced_turn hD (fun _ => D.fine) keeps room n hopen hto with ⟨s', r, heq, hstop⟩ | ⟨s', k, σ', hturned, hopen', hleft, hpos, hle, hgo, heq⟩
    · rw [heq] at hinside
      obtain ⟨hend, hlast⟩ := hstop rfl
      intro p hp
      rw [turnAt_last (by rw [Nat.add_sub_cancel_left]) hend hlast hp]
      exact (inside_turnUses keeps room toread).mp hinside
    · rw [heq] at hinside
      have hnow := (inside_turnUses keeps room toread).mp
        (fun u hu => hinside u (List.mem_append_left _ (List.mem_append_left _ hu)))
      refine (SkipFits.turn hturned hleft hpos hle hgo).mpr ⟨hnow, ih s' (toread - k) (by omega) hopen' ?_⟩
      exact fun u hu => hinside u (List.mem_append_right _ hu)

/-- A skipping that goes through ends at its target, inside the stream. -/
theorem skipLoopTraced_end (hD : D.Streams rest whole) (faults : Nat → D.Fault) (keeps : Bool) (room n : Nat) :
    ∀ {s s' : ReadState D} {toread : Nat} {σ : D.State} {uses : List BufferUse}, toread ≤ n → s.handle = some σ →
      skipLoopTraced Γ faults keeps room n toread s = ((s', none), uses) →
      s'.offset = s.offset + toread ∧ s'.file.size = s.file.size ∧ toread ≤ rest σ := by
  induction n with
  | zero =>
    intro s s' toread σ uses hfuel _ h
    cases h
    exact ⟨by omega, rfl, by omega⟩
  | succ n ih =>
    intro s s' toread σ uses hfuel hopen h
    by_cases hto : toread = 0
    · subst hto
      cases h
      exact ⟨rfl, rfl, Nat.zero_le _⟩
    rcases skipLoopTraced_turn hD faults keeps room n hopen hto with ⟨s₁, r, heq, -⟩ | ⟨s₁, k, σ₁, hturned, hopen₁, hleft, hpos, hle, -, heq⟩
    · rw [heq] at h
      cases h
    · rw [heq] at h
      cases hrest : skipLoopTraced Γ faults keeps room n (toread - k) s₁ with
      | mk r uses₁ =>
        rw [hrest] at h
        cases h
        obtain ⟨hoffset, hsize, hreach⟩ := ih (by omega) hopen₁ hrest
        rw [hoffset, hturned.offset, hsize, hturned.size]
        exact ⟨by omega, rfl, by omega⟩

/-- Without faults, a skipping goes through inside the stream. -/
theorem skipLoopTraced_through (hD : D.Streams rest whole) (keeps : Bool) (room n : Nat) :
    ∀ (s : ReadState D) (toread : Nat) {σ : D.State}, s.handle = some σ → toread ≤ rest σ →
      (skipLoopTraced Γ (fun _ => D.fine) keeps room n toread s).1.2 = none := by
  induction n with
  | zero => exact fun _ _ _ _ _ => rfl
  | succ n ih =>
    intro s toread σ hopen hreach
    by_cases hto : toread = 0
    · subst hto
      rfl
    rcases skipLoopTraced_turn hD (fun _ => D.fine) keeps room n hopen hto with ⟨s₁, r, -, hstop⟩ | ⟨s₁, k, σ₁, -, hopen₁, hleft, -, hle, -, heq⟩
    · have := (hstop rfl).1
      omega
    · rw [heq]
      exact ih s₁ (toread - k) hopen₁ (by omega)

/-! ## The read behind it -/

/-- The length of the last read does not fall below zero when it is cut at the end of the file. -/
def EndFits (size : Int) (target room : Nat) : Prop := size = -1 ∨ target + room ≤ asU64 size ∨ (target : Int) ≤ size

theorem inside_decompressRead (hsize : s.file.size < 2 ^ 63) (φ : D.Fault) (room : Nat) (served : Bytes) :
    (∀ u ∈ (s.decompressReadTraced φ room served).2, u.Inside) ↔ EndFits s.file.size s.offset room := by
  unfold decompressReadTraced cutSize EndFits
  by_cases hcut : s.file.size ≠ -1 ∧ s.offset + room > asU64 s.file.size
  · rw [if_pos hcut, if_pos hcut]
    simp only [List.singleton_append, List.forall_mem_cons, List.not_mem_nil, false_implies, implies_true, and_true,
      BufferUse.Inside]
    unfold asU64 at *
    omega
  · rw [if_neg hcut, if_neg hcut]
    simp only [List.nil_append, List.forall_mem_singleton, BufferUse.Inside]
    omega

/-- What `direct_decompress` does from where the module is open fits: the turns of the skipping, and the read behind it when the
stream gets that far. -/
structure SkipReadFits (Γ : Config) (s : ReadState D) (whole cacheThis : Bool) (room target ends : Nat) : Prop where
  skip : s.offset < target → allocFails s.file (s.keepsSkipped Γ target cacheThis) = false →
    (s.allocCache (s.keepsSkipped Γ target cacheThis)).SkipFits Γ whole (s.keepsSkipped Γ target cacheThis) room target ends
  read : (s.offset < target → allocFails s.file (s.keepsSkipped Γ target cacheThis) = false) → target ≤ ends →
    EndFits s.file.size target room

theorem size_allocCache (s : ReadState D) (cacheThis : Bool) : (s.allocCache cacheThis).file.size = s.file.size := by
  unfold allocCache
  split <;> rfl

theorem decompressSkipTraced_inside (hD : D.Streams rest whole) (hsize : s.file.size < 2 ^ 63) {c : ReadCall D} {room target : Nat}
    {cacheThis : Bool} (served : Bytes) {σ : D.State} (hopen : s.handle = some σ) (hle : s.offset ≤ target)
    (h : s.SkipReadFits Γ whole cacheThis room target (s.offset + rest σ)) :
    ∀ u ∈ (s.decompressSkipTraced Γ c room target cacheThis served).2, u.Inside := by
  unfold decompressSkipTraced
  split
  · rename_i hlt
    dsimp only
    split
    · exact fun u hu => absurd hu List.not_mem_nil
    rename_i halloc
    rw [Bool.not_eq_true] at halloc
    have hskip := h.skip hlt halloc
    have hend := h.read (fun _ => halloc)
    generalize s.keepsSkipped Γ target cacheThis = keeps at halloc hskip ⊢
    obtain ⟨hsame, hhandle⟩ := s.offset_allocCache keeps
    have htarget : (s.allocCache keeps).offset + (target - s.offset) = target := by omega
    rw [← hsame] at hskip
    have hinside := skipLoopTraced_inside hD c.skipFaults keeps room (target - s.offset) (s.allocCache keeps) (target - s.offset)
      (hhandle.trans hopen) (by rw [htarget]; exact hskip)
    cases hloop : skipLoopTraced Γ c.skipFaults keeps room (target - s.offset) (target - s.offset) (s.allocCache keeps) with
    | mk r uses =>
      obtain ⟨s₁, res⟩ := r
      rw [hloop] at hinside
      cases res with
      | some res => exact hinside
      | none =>
        obtain ⟨hoffset, hsame', hreach⟩ := skipLoopTraced_end hD c.skipFaults keeps room _ (Nat.le_refl _) (hhandle.trans hopen) hloop
        rw [htarget] at hoffset
        rw [size_allocCache] at hsame'
        have hread := (inside_decompressRead (hsame' ▸ hsize) c.fault room served).mpr
          (by rw [hoffset, hsame']; exact hend (by omega))
        intro u hu
        exact (List.mem_append.mp hu).elim (hinside u) (hread u)
  · rename_i hlt
    have heq : s.offset = target := by omega
    exact (inside_decompressRead hsize c.fault room served).mpr
      (by rw [heq]; exact h.read (fun hlt' => absurd hlt' hlt) (by omega))

theorem skipReadFits_of_inside (hD : D.Streams rest whole) (hsize : s.file.size < 2 ^ 63) {c : ReadCall D} {room target : Nat}
    {cacheThis : Bool} (served : Bytes) {σ : D.State} (hopen : s.handle = some σ) (hle : s.offset ≤ target)
    (hfine : c.skipFaults = fun _ => D.fine)
    (h : ∀ u ∈ (s.decompressSkipTraced Γ c room target cacheThis served).2, u.Inside) :
    s.SkipReadFits Γ whole cacheThis room target (s.offset + rest σ) := by
  unfold decompressSkipTraced at h
  split at h
  · rename_i hlt
    dsimp only at h
    split at h
    · rename_i halloc
      exact ⟨fun _ hnot => absurd halloc (by rw [hnot]; exact Bool.false_ne_true),
        fun hnot => absurd halloc (by rw [hnot hlt]; exact Bool.false_ne_true)⟩
    rw [hfine] at h
    obtain ⟨hsame, hhandle⟩ := s.offset_allocCache (s.keepsSkipped Γ target cacheThis)
    have htarget : (s.allocCache (s.keepsSkipped Γ target cacheThis)).offset + (target - s.offset) = target := by omega
    have hthrough := skipLoopTraced_through (Γ := Γ) hD (s.keepsSkipped Γ target cacheThis) room (target - s.offset) _
      (target - s.offset) (hhandle.trans hopen)
    have hfits := skipFits_of_inside (Γ := Γ) hD (s.keepsSkipped Γ target cacheThis) room (target - s.offset) _ (target - s.offset)
      (Nat.le_refl _) (hhandle.trans hopen)
    rw [htarget, hsame] at hfits
    cases hloop : skipLoopTraced Γ (fun _ => D.fine) (s.keepsSkipped Γ target cacheThis) room (target - s.offset) (target - s.offset)
        (s.allocCache (s.keepsSkipped Γ target cacheThis)) with
    | mk r uses =>
      obtain ⟨s₁, res⟩ := r
      rw [hloop] at h hthrough hfits
      cases res with
      | some res => exact ⟨fun _ _ => hfits h, fun _ hreach => absurd (hthrough (by omega)) (Option.some_ne_none res)⟩
      | none =>
        obtain ⟨hoffset, hsame', -⟩ := skipLoopTraced_end hD _ _ _ _ (Nat.le_refl _) (hhandle.trans hopen) hloop
        rw [htarget] at hoffset
        rw [size_allocCache] at hsame'
        have hread := (inside_decompressRead (hsame' ▸ hsize) c.fault room served).mp (fun u hu => h u (List.mem_append_right _ hu))
        rw [hoffset, hsame'] at hread
        exact ⟨fun _ _ => hfits (fun u hu => h u (List.mem_append_left _ hu)), fun _ _ => hread⟩
  · rename_i hlt
    have heq : s.offset = target := by omega
    have hread := (inside_decompressRead hsize c.fault room served).mp h
    rw [heq] at hread
    exact ⟨fun hlt' => absurd hlt' hlt, fun _ _ => hread⟩

/-! ## Serving from the cache -/

/-- The loop over the cached pages is left at a page that is missing, or when there is no room for another. -/
theorem inside_servePagesUses (n : Nat) : ∀ (pages : List (Option Bytes)) (i : Nat), i ≤ pages.length →
    ((∀ u ∈ servePagesUses pages n i, u.Inside) ↔
      ((∀ k, i ≤ k → k < pages.length → pages.getD k none ≠ none) → i + n ≤ pages.length)) := by
  induction n with
  | zero => exact fun pages i hi => iff_of_true (fun u hu => absurd hu List.not_mem_nil) (fun _ => hi)
  | succ n ih =>
    intro pages i hi
    rw [servePagesUses]
    cases hpage : pages.getD i none with
    | none =>
      simp only [List.forall_mem_singleton, BufferUse.Inside]
      constructor
      · exact fun hlt hall => absurd hpage (hall i (Nat.le_refl _) hlt)
      · intro h
        by_contra hge
        have := h (fun k _ _ => by omega)
        omega
    | some page =>
      have hlt : i < pages.length := by
        by_contra hge
        rw [List.getD_eq_default _ _ (by omega)] at hpage
        cases hpage
      have hsame : ∀ k, i + 1 ≤ k → (pages.set i none).getD k none = pages.getD k none := by
        intro k hk
        simp [List.getD_eq_getElem?_getD, List.getElem?_set_ne (show i ≠ k by omega)]
      have hrest := ih (pages.set i none) (i + 1) (by rw [List.length_set]; omega)
      rw [List.length_set] at hrest
      have hfirst : ∀ u ∈ [BufferUse.index i pages.length, .page (pageSize * (n + 1)), .size (pageSize * n)], u.Inside := by
        simp only [List.forall_mem_cons, List.not_mem_nil, false_implies, implies_true, and_true, BufferUse.Inside, pageSize]
        omega
      simp only [List.forall_mem_append, hrest]
      constructor
      · rintro ⟨-, h⟩ hall
        have := h (fun k hk hk' => by rw [hsame k hk]; exact hall k (by omega) hk')
        omega
      · refine fun h => ⟨hfirst, fun hall => ?_⟩
        have := h (fun k hk hk' => ?_)
        · omega
        · by_cases heq : k = i
          · rw [heq, hpage]
            exact Option.some_ne_none page
          · rw [← hsame k (by omega)]
            exact hall k (by omega) hk'

/-- The run of cached pages that a request begins in ends inside the array, or with the request. -/
def ServeFits (s : ReadState D) (cacheThis : Bool) (size offset : Nat) : Prop :=
  cacheThis = true → s.file.type = .read → (s.file.cache.getD []).getD (offset / pageSize) none ≠ none →
    (∀ k, offset / pageSize ≤ k → k < (s.file.cache.getD []).length → (s.file.cache.getD []).getD k none ≠ none) →
      offset / pageSize + size / pageSize ≤ (s.file.cache.getD []).length

theorem inside_serveCacheUses (s : ReadState D) (cacheThis : Bool) (size offset : Nat) :
    (∀ u ∈ s.serveCacheUses cacheThis size offset, u.Inside) ↔ s.ServeFits cacheThis size offset := by
  unfold serveCacheUses ServeFits
  generalize s.file.cache.getD [] = pages
  dsimp only
  split
  · rename_i hcache
    split
    · rename_i hlt
      cases hpage : pages.getD (offset / pageSize) none with
      | none => simp [BufferUse.Inside, hlt]
      | some page =>
        have hrun := inside_servePagesUses (size / pageSize) pages (offset / pageSize) (by omega)
        rw [if_neg (by simp), List.forall_mem_cons, hrun]
        simp [BufferUse.Inside, hlt, hcache]
    · rename_i hge
      have hnone : pages.getD (offset / pageSize) none = none := List.getD_eq_default _ _ (by omega)
      exact iff_of_true (fun u hu => absurd hu List.not_mem_nil) (fun _ _ hsome => absurd hnone hsome)
  · rename_i hcache
    exact iff_of_true (fun u hu => absurd hu List.not_mem_nil) (fun hc ht => absurd ⟨hc, ht⟩ hcache)

/-! ## A request -/

/-- The descriptor when `direct_decompress` has opened the module and, when it has to go back, started again. -/
def streamAt (s : ReadState D) (target : Nat) : Option (ReadState D) :=
  if target < s.offset then
    if s.fd then some { s with offset := 0, handle := some D.opened, start := D.opened } else none
  else if s.handle.isSome then some s
  else if s.fd then some { s with handle := some s.start }
  else none

theorem streamAt_open {target : Nat} (h : s.streamAt target = some s') :
    s'.offset ≤ target ∧ s'.file.size = s.file.size ∧ ∃ σ, s'.handle = some σ := by
  unfold streamAt at h
  split at h
  · split at h <;> cases h
    exact ⟨Nat.zero_le _, rfl, _, rfl⟩
  · rename_i hback
    split at h
    · rename_i hopen
      cases h
      exact ⟨Nat.le_of_not_lt hback, rfl, Option.isSome_iff_exists.mp hopen⟩
    · split at h <;> cases h
      exact ⟨Nat.le_of_not_lt hback, rfl, _, rfl⟩

theorem streamAt_of_open {c : ReadCall D} {target : Nat} (h : s.decompressOpen c target = (s', true)) :
    s.streamAt target = some s' := by
  unfold decompressOpen openStream at h
  unfold streamAt
  split at h
  · rename_i hback
    rw [if_pos hback]
    split at h
    · cases h
    split at h
    · cases h
    rw [if_neg (by simp)] at h
    split at h
    · cases h
    · rename_i hfd
      rw [not_or, Bool.not_eq_false] at hfd
      cases h
      rw [if_pos hfd.1]
  · rename_i hback
    rw [if_neg hback]
    split at h
    · rename_i hopen
      cases h
      rw [if_pos hopen]
    · rename_i hclosed
      rw [if_neg hclosed]
      split at h
      · cases h
      · rename_i hfd
        rw [not_or, Bool.not_eq_false] at hfd
        cases h
        rw [if_pos hfd.1]

theorem open_of_streamAt {c : ReadCall D} {target : Nat} (hcloses : c.closeFails = none) (hseeks : c.seeked = true)
    (hopened : c.opened = true) (h : s.streamAt target = some s') : s.decompressOpen c target = (s', true) := by
  unfold streamAt at h
  unfold decompressOpen openStream
  split
  · rename_i hback
    rw [if_pos hback] at h
    rw [hcloses]
    dsimp only
    split at h
    · rename_i hfd
      cases h
      rw [if_neg (by simp [hfd, hseeks]), if_neg (by simp), if_neg (by simp [hfd, hopened])]
    · cases h
  · rename_i hback
    rw [if_neg hback] at h
    split at h
    · rename_i hopen
      cases h
      rw [if_pos hopen]
    · rename_i hclosed
      rw [if_neg hclosed]
      split at h
      · rename_i hfd
        cases h
        rw [if_neg (by simp [hfd, hopened])]
      · cases h

/-- The file as `direct_decompress` sees it: whoever comes first decides what the file is used for. -/
def reader (s : ReadState D) : ReadState D :=
  { s with file := { s.file with type := if s.file.type = Access.unset then .read else s.file.type } }

/-- What is left of a request when the cache has served what it has fits: the whole request is served, or the file is decompressed
instead, or the skipping and the read behind it fit. -/
def RestFits (Γ : Config) (rest : D.State → Nat) (whole : Bool) (s : ReadState D) (cacheThis : Bool) (size offset : Nat) : Prop :=
  ∀ s' served any, s.serveCache cacheThis size offset = (s', served, any) →
    ¬(any = true ∧ size - served.length = 0) →
      readFallback Γ s'.file s'.decompCacheSize cacheThis s'.offset (offset + served.length) = false →
        ∀ s₁ σ, s'.streamAt (offset + served.length) = some s₁ → s₁.handle = some σ →
          s₁.SkipReadFits Γ whole cacheThis (size - served.length) (offset + served.length) (s₁.offset + rest σ)

/-- The condition under which a request fits into its buffers, whatever the calls of the module return. -/
structure Fits (Γ : Config) (rest : D.State → Nat) (whole : Bool) (s : ReadState D) (size offset : Nat) : Prop where
  serve : s.reader.ServeFits (Γ.cacheDecompressedData && offset % pageSize = 0 && size % pageSize = 0) size offset
  rest : s.reader.RestFits Γ rest whole (Γ.cacheDecompressedData && offset % pageSize = 0 && size % pageSize = 0) size offset

theorem size_serveCache {cacheThis any : Bool} {size offset : Nat} {served : Bytes} {s' : ReadState D}
    (h : s.serveCache cacheThis size offset = (s', served, any)) : s'.file.size = s.file.size := by
  unfold serveCache at h
  split at h
  · dsimp only at h
    split at h <;> cases h <;> rfl
  · cases h
    rfl

/-- A request all of whose calls succeed. -/
def fineCall (D : Decoder) (size offset : Nat) : ReadCall D where
  size := size
  offset := offset
  closeFails := none
  seeked := true
  elsewhere := D.opened
  opened := true
  skipFaults := fun _ => D.fine
  fault := D.fine
  fallback := .refused
  pread := true

/-- The uses of a request: those of the serving, and those of the rest when there is one. -/
theorem directDecompressTraced_uses {c : ReadCall D} {cacheThis any : Bool} {served : Bytes} {s' : ReadState D}
    (hcache : cacheThis = (Γ.cacheDecompressedData && c.offset % pageSize = 0 && c.size % pageSize = 0))
    (hserve : s.reader.serveCache cacheThis c.size c.offset = (s', served, any)) :
    (s.directDecompressTraced Γ c).2 = s.reader.serveCacheUses cacheThis c.size c.offset ++
      (if (any = true ∧ c.size - served.length = 0) ∨
          readFallback Γ s'.file s'.decompCacheSize cacheThis s'.offset (c.offset + served.length) = true ∨
          (s'.decompressOpen c (c.offset + served.length)).2 = false then []
        else ((s'.decompressOpen c (c.offset + served.length)).1.decompressSkipTraced Γ c (c.size - served.length)
          (c.offset + served.length) cacheThis served).2) := by
  unfold directDecompressTraced
  dsimp only
  rw [← hcache]
  unfold reader at hserve ⊢
  rw [hserve]
  dsimp only
  by_cases hall : any = true ∧ c.size - served.length = 0
  · rw [if_pos hall, if_pos (Or.inl hall), List.append_nil]
  rw [if_neg hall]
  by_cases hback : readFallback Γ s'.file s'.decompCacheSize cacheThis s'.offset (c.offset + served.length) = true
  · rw [if_pos hback, if_pos (Or.inr (Or.inl hback)), List.append_nil]
  rw [if_neg hback]
  cases hopen : s'.decompressOpen c (c.offset + served.length) with
  | mk s₁ ok =>
    cases ok with
    | false => rw [if_pos (Or.inr (Or.inr rfl)), List.append_nil]
    | true =>
      have hgo : ¬((any = true ∧ c.size - served.length = 0) ∨
          readFallback Γ s'.file s'.decompCacheSize cacheThis s'.offset (c.offset + served.length) = true ∨ (s₁, true).2 = false) := by
        rintro (h | h | h)
        exacts [hall h, hback h, Bool.noConfusion h]
      rw [if_neg hgo]

/-- `direct_decompress` stays inside its buffers, whatever the calls of the module return, if and only if the request fits. -/
theorem directDecompress_inside (Γ : Config) {D : Decoder} {rest : D.State → Nat} {whole : Bool} (hD : D.Streams rest whole)
    (s : ReadState D) (hsize : s.file.size < 2 ^ 63) (size offset : Nat) :
    (∀ c : ReadCall D, c.size = size → c.offset = offset → BufferUse.AllInside (s.directDecompressTraced Γ c).2) ↔
      s.Fits Γ rest whole size offset := by
  constructor
  · intro h
    have h : ∀ u ∈ (s.directDecompressTraced Γ (fineCall D size offset)).2, u.Inside := h (fineCall D size offset) rfl rfl
    refine ⟨(inside_serveCacheUses _ _ _ _).mp fun u hu => ?_, fun s' served any hserve hmore hback s₁ σ hopen hσ => ?_⟩
    · cases hserve : s.reader.serveCache (Γ.cacheDecompressedData && offset % pageSize = 0 && size % pageSize = 0) size offset with
      | mk s' r =>
        obtain ⟨served, any⟩ := r
        rw [directDecompressTraced_uses rfl hserve] at h
        exact h u (List.mem_append_left _ hu)
    · rw [directDecompressTraced_uses rfl hserve] at h
      have hopened := open_of_streamAt (c := fineCall D size offset) rfl rfl rfl hopen
      obtain ⟨hle, hfile₁, -⟩ := streamAt_open hopen
      have hfile : s₁.file.size = s.file.size := hfile₁.trans ((size_serveCache hserve).trans rfl)
      refine skipReadFits_of_inside hD (hfile ▸ hsize) (c := fineCall D size offset) served hσ hle rfl
        fun u hu => h u (List.mem_append_right _ ?_)
      rw [if_neg]
      · exact hopened ▸ hu
      · rintro (hall | hfall | hfail)
        · exact hmore hall
        · exact Bool.noConfusion (hfall.symm.trans hback)
        · exact Bool.noConfusion (hfail.symm.trans (congrArg Prod.snd hopened))
  · rintro h c rfl rfl
    cases hserve : s.reader.serveCache (Γ.cacheDecompressedData && c.offset % pageSize = 0 && c.size % pageSize = 0)
        c.size c.offset with
    | mk s' r =>
      obtain ⟨served, any⟩ := r
      unfold BufferUse.AllInside
      rw [directDecompressTraced_uses rfl hserve]
      have hserves := (inside_serveCacheUses _ _ _ _).mpr h.serve
      have hfile : s'.file.size = s.file.size := (size_serveCache hserve).trans rfl
      split
      · rw [List.append_nil]
        exact hserves
      · rename_i hmore
        rw [not_or, not_or, Bool.not_eq_true, Bool.not_eq_false] at hmore
        obtain ⟨hall, hback, hopen⟩ := hmore
        have hopened : s'.decompressOpen c (c.offset + served.length) = ((s'.decompressOpen c (c.offset + served.length)).1, true) :=
          Prod.ext rfl hopen
        have hat := streamAt_of_open hopened
        obtain ⟨hle, hfile₁, σ, hσ⟩ := streamAt_open hat
        have hrest := decompressSkipTraced_inside hD (hfile₁ ▸ hfile ▸ hsize) (c := c) served hσ hle
          (h.rest s' served any hserve hall hback _ σ hat hσ)
        intro u hu
        exact (List.mem_append.mp hu).elim (hserves u) (hrest u)

/-- Two bytes are skipped into the buffer for the two bytes behind them. -/
theorem directDecompress_inside_halves :
    BufferUse.AllInside ((onFile (.null [1, 2, 3, 4]) .null 4).directDecompressTraced .plain (fineCall _ 2 2)).2 := by
  refine (directDecompress_inside .plain (Decoder.null_streams [1, 2, 3, 4]) (onFile (.null [1, 2, 3, 4]) .null 4) (by decide) 2 2).mpr
    ⟨fun hcache => Bool.noConfusion hcache, fun s' served any hserve _ _ s₁ σ hat hσ => ?_⟩ (fineCall _ 2 2) rfl rfl
  cases hserve
  cases hat
  cases hσ
  refine ⟨fun _ _ p hp => ⟨fun hkeeps => Bool.noConfusion hkeeps, Or.inr ?_⟩, fun _ _ => Or.inr (Or.inr (by decide))⟩
  exact Nat.le_trans (Nat.min_le_left _ _) (Nat.sub_le 2 p)

/-- A byte is asked for that has two others before it: both are skipped into the buffer for the one. -/
theorem oneByte_overruns :
    ¬∀ (Γ : Config) (D : Decoder) (rest : D.State → Nat) (whole : Bool) (s : ReadState D) (c : ReadCall D), D.Streams rest whole →
      s.file.size < 2 ^ 63 → BufferUse.AllInside (s.directDecompressTraced Γ c).2 := by
  intro h
  have hread := h .plain (.null [1, 2, 3]) _ true (onFile (.null [1, 2, 3]) .null 3) (fineCall _ 1 2) (Decoder.null_streams _) (by decide)
    (.read 2 1) (by decide +kernel)
  exact absurd (show 2 ≤ 1 from hread) (by decide)

end ReadState

end FuseCompress
