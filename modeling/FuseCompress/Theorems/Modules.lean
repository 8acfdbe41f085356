import FuseCompress.Modules
import FuseCompress.Theorems.Minilzo

/-!
# Complete copies

What the modules write is complete when every write they make is, or is one whose failure they notice. They do not notice much:
`null` takes `-1` for a large number, `lzo` never looks, and nobody looks at what is reported on close.
-/

namespace FuseCompress

variable {content : Bytes} {ws : Nat → Written} {cancels : Nat → Bool} {failed : Bool}

/-! ## The loop -/

section Loop

variable {σ : Type} {feed : σ → Bytes → σ × Bool}

/-- Some chunks have been given to a module one after the other, and it has gone on after each. -/
inductive Fed (feed : σ → Bytes → σ × Bool) : σ → List Bytes → σ → Prop where
  | nil (s : σ) : Fed feed s [] s
  | cons {s t : σ} {c : Bytes} {cs : List Bytes} : (feed s c).2 = true → Fed feed (feed s c).1 cs t → Fed feed s (c :: cs) t

/-- A loop that does not return `FAIL` has given the module the first of the chunks, and returns their length. -/
theorem compressLoop_fed {n size k : Nat} {s t : σ} {cs : List Bytes}
    (h : compressLoop feed cancels failed n size s cs = (t, some k)) :
    ∃ done, done <+: cs ∧ Fed feed s done t ∧ k = size + done.flatten.length ∧ (done = [] → cs = []) := by
  induction cs generalizing n size s with
  | nil =>
    unfold compressLoop at h
    split at h
    · cases h
    · cases h
      exact ⟨[], List.prefix_refl _, .nil _, rfl, fun _ => rfl⟩
  | cons c cs ih =>
    rw [compressLoop] at h
    split at h
    · cases h
    · rename_i s' hfeed
      have hgoes : (feed s c).2 = true := by rw [hfeed]
      have hs' : (feed s c).1 = s' := by rw [hfeed]
      split at h
      · cases h
        refine ⟨[c], ?_, .cons hgoes ?_, by simp, fun hn => absurd hn (List.cons_ne_nil _ _)⟩
        · rw [List.cons_prefix_cons]
          exact ⟨rfl, List.nil_prefix⟩
        · rw [hs']
          exact .nil _
      · obtain ⟨done, hdone, hfed, hk, -⟩ := ih h
        refine ⟨c :: done, ?_, .cons hgoes (hs' ▸ hfed), ?_, fun hn => absurd hn (List.cons_ne_nil _ _)⟩
        · rw [List.cons_prefix_cons]
          exact ⟨rfl, hdone⟩
        · rw [hk, List.flatten_cons, List.length_append]
          omega

end Loop

/-- No chunk is empty: chunks of the length of the file are all of them. -/
theorem Chunks.eq_of_length (src : Chunks content) {done : List Bytes} (hdone : done <+: src.chunks)
    (hlength : done.flatten.length = content.length) : done = src.chunks ∧ src.chunks.flatten = content := by
  obtain ⟨rest, hrest⟩ := hdone
  have hle := src.start.length_le
  rw [← hrest, List.flatten_append, List.length_append] at hle
  have hnil : rest = [] := by
    refine List.eq_nil_iff_forall_not_mem.mpr (fun c hc => ?_)
    have hmem : c ∈ src.chunks := by
      rw [← hrest]
      exact List.mem_append_right _ hc
    have hpos := List.length_pos_iff.mpr (src.chunk c hmem).1
    have hlen := (List.sublist_flatten_of_mem hc).length_le
    omega
  subst hnil
  rw [List.append_nil] at hrest
  refine ⟨hrest, src.start.eq_of_length ?_⟩
  rw [← hrest]
  exact hlength

/-- What a module has been given when the number it returns is the size of the file: all of it. -/
theorem fed_of_size {σ : Type} {feed : σ → Bytes → σ × Bool} {s t : σ} {r : Option Nat} (src : Chunks content)
    (h : compressLoop feed cancels src.failed 0 0 s src.chunks = (t, r)) (hsize : offT r = content.length) :
    Fed feed s src.chunks t ∧ src.chunks.flatten = content := by
  cases r with
  | none =>
    rw [offT] at hsize
    omega
  | some k =>
    obtain ⟨done, hdone, hfed, hk, -⟩ := compressLoop_fed h
    rw [offT] at hsize
    obtain ⟨rfl, hflat⟩ := src.eq_of_length hdone (by omega)
    exact ⟨hfed, hflat⟩

/-! ## `null` -/

theorem Sink.write_full {sink : Sink} {buf : Bytes} (h : ws sink.calls = .full) :
    sink.write ws buf = (⟨sink.data ++ buf, sink.calls + 1⟩, (buf.length : Int)) := by
  unfold Sink.write
  rw [h]
  simp [Written.count, Written.result]

/-- Every write has been full: all is in the file. -/
theorem Fed.null_full {sink t : Sink} {cs : List Bytes} (h : Fed (nullFeed ws) sink cs t)
    (hfull : ∀ i, sink.calls ≤ i → i < sink.calls + cs.length → ws i = .full) : t.data = sink.data ++ cs.flatten := by
  induction h with
  | nil => simp
  | @cons sink t c cs _ _ ih =>
    have hnow : ws sink.calls = .full := hfull _ (Nat.le_refl _) (by rw [List.length_cons]; omega)
    have hstep : (nullFeed ws sink c).1 = ⟨sink.data ++ c, sink.calls + 1⟩ := by rw [nullFeed, Sink.write_full hnow]
    rw [hstep] at ih
    rw [ih (fun i hi hlt => hfull i (by dsimp only at hi; omega) (by rw [List.length_cons]; dsimp only at hlt; omega)),
      List.flatten_cons, List.append_assoc]

/-- No write has returned zero. -/
theorem Fed.null_positive {sink t : Sink} {cs : List Bytes} (h : Fed (nullFeed ws) sink cs t) :
    ∀ i, sink.calls ≤ i → i < sink.calls + cs.length → ws i ≠ .short 0 := by
  induction h with
  | nil =>
    intro i hle hlt
    rw [List.length_nil] at hlt
    omega
  | @cons sink t c cs hgoes _ ih =>
    intro i hle hlt
    rcases Nat.eq_or_lt_of_le hle with rfl | hlt'
    · intro hzero
      simp [nullFeed, Sink.write, hzero, Written.result, Written.count] at hgoes
    · rw [List.length_cons] at hlt
      simp only [nullFeed, Sink.write] at ih
      exact ih i hlt' (by omega)

theorem length_data_write (ws : Nat → Written) (sink : Sink) (buf : Bytes) : (sink.write ws buf).1.data.length ≤ sink.data.length + buf.length := by
  simp only [Sink.write, List.length_append, List.length_take]
  omega

/-- A write that is not full loses something. -/
theorem length_data_write_lt {sink : Sink} {buf : Bytes} (hbuf : buf ≠ []) (h : ws sink.calls ≠ .full) :
    (sink.write ws buf).1.data.length < sink.data.length + buf.length := by
  have hpos := List.length_pos_iff.mpr hbuf
  simp only [Sink.write, List.length_append, List.length_take]
  cases hw : ws sink.calls with
  | full => exact absurd hw h
  | short n =>
    simp only [Written.count]
    omega
  | fail =>
    simp only [Written.count]
    omega

theorem Fed.null_length_le {sink t : Sink} {cs : List Bytes} (h : Fed (nullFeed ws) sink cs t) :
    t.data.length ≤ sink.data.length + cs.flatten.length := by
  induction h with
  | nil => simp
  | @cons sink t c cs _ _ ih =>
    have hstep := length_data_write ws sink c
    rw [List.flatten_cons, List.length_append]
    simp only [nullFeed] at ih
    omega

/-- Nothing is lost only if every write has been full. -/
theorem Fed.null_full_of_length {sink t : Sink} {cs : List Bytes} (h : Fed (nullFeed ws) sink cs t) (hcs : ∀ c ∈ cs, c ≠ [])
    (hlength : t.data.length = sink.data.length + cs.flatten.length) :
    ∀ i, sink.calls ≤ i → i < sink.calls + cs.length → ws i = .full := by
  induction h with
  | nil =>
    intro i hle hlt
    rw [List.length_nil] at hlt
    omega
  | @cons sink t c cs _ hrest ih =>
    have hle := hrest.null_length_le
    simp only [nullFeed] at hle ih
    rw [List.flatten_cons, List.length_append] at hlength
    have hnow : ws sink.calls = .full := by
      by_contra hn
      have := length_data_write_lt (hcs c List.mem_cons_self) hn
      omega
    have hstep : (sink.write ws c).1 = ⟨sink.data ++ c, sink.calls + 1⟩ := by rw [Sink.write_full hnow]
    rw [hstep, List.length_append] at hle
    intro i hle' hlt
    rcases Nat.eq_or_lt_of_le hle' with rfl | hlt'
    · exact hnow
    · rw [hstep, List.length_append] at ih
      rw [List.length_cons] at hlt
      exact ih (fun c' hc' => hcs c' (List.mem_cons_of_mem c hc')) (by omega) i hlt' (by dsimp only; omega)

/-! ## `lzo` -/

section Lzo

variable {Λ : LzoEnv} {sink t : LzoSink}

theorem LzoSink.put_full (sink : LzoSink) {buf : Bytes} (h : ws sink.calls = .full) :
    sink.put ws buf = (⟨sink.file.put buf, sink.calls + 1⟩, true) := by
  unfold LzoSink.put
  rw [h]
  simp [Written.count, Written.result]

theorem calls_lzowriteblockOn' (ws : Nat → Written) (sink : LzoSink) (block : LzoBlock) : sink.calls < (lzowriteblockOn' ws sink block).1.calls := by
  unfold lzowriteblockOn'
  split
  · rename_i h
    have hcalls := congrArg (fun r => r.1.calls) h
    simp only [LzoSink.put] at hcalls
    dsimp only
    omega
  · rename_i h
    have hcalls := congrArg (fun r => r.1.calls) h
    simp only [LzoSink.put] at hcalls ⊢
    omega

theorem calls_lzowriteblockOn (Λ : LzoEnv) (ws : Nat → Written) (sink : LzoSink) : sink.calls ≤ (lzowriteblockOn Λ ws sink).1.calls := by
  unfold lzowriteblockOn
  dsimp only
  split
  · exact Nat.le_refl _
  · exact Nat.le_of_lt (calls_lzowriteblockOn' ws { sink with file := { sink.file with calls := sink.file.calls + 1 } } _)

theorem calls_lzoflushOn (Λ : LzoEnv) (ws : Nat → Written) (sink : LzoSink) : sink.calls ≤ (lzoflushOn Λ ws sink).1.calls := by
  have hblock := calls_lzowriteblockOn Λ ws sink
  unfold lzoflushOn
  split
  · exact Nat.le_refl _
  · split
    · rename_i h
      rw [h] at hblock
      exact hblock
    · rename_i h
      rw [h] at hblock
      exact hblock

theorem calls_lzowriteOn (Λ : LzoEnv) (ws : Nat → Written) (sink : LzoSink) (buf : Bytes) : sink.calls ≤ (lzowriteOn Λ ws sink buf).1.calls := by
  induction buf generalizing sink with
  | nil => exact Nat.le_refl _
  | cons x buf ih =>
    have hflush := calls_lzoflushOn Λ ws sink
    rw [lzowriteOn]
    split
    · rename_i h
      rw [h] at hflush
      exact hflush
    · rename_i sink' h
      rw [h] at hflush
      exact hflush.trans (ih { sink' with file := lzostore sink'.file x })

/-- The two writes of a block are full. -/
theorem lzowriteblockOn'_full (sink : LzoSink) {block : LzoBlock}
    (hfull : ∀ i, sink.calls ≤ i → i < (lzowriteblockOn' ws sink block).1.calls → ws i = .full) :
    lzowriteblockOn' ws sink block = (⟨lzowriteblock' sink.file block, sink.calls + 2⟩, true) := by
  have hhead : ws sink.calls = .full := hfull _ (Nat.le_refl _) (calls_lzowriteblockOn' ws sink block)
  unfold lzowriteblockOn' at hfull ⊢
  rw [LzoSink.put_full sink hhead] at hfull ⊢
  dsimp only at hfull ⊢
  have hbody : ws (sink.calls + 1) = .full := by
    refine hfull _ (Nat.le_succ _) ?_
    simp only [LzoSink.put]
    omega
  rw [LzoSink.put_full ⟨_, sink.calls + 1⟩ hbody]
  rfl

/-- A block whose writes are full is in the file. -/
theorem lzowriteblockOn_full (hlib : Λ.lib.Correct) (sink : LzoSink)
    (hfull : ∀ i, sink.calls ≤ i → i < (lzowriteblockOn Λ ws sink).1.calls → ws i = .full) :
    ∃ file calls, lzowriteblock Λ sink.file = some file ∧ lzowriteblockOn Λ ws sink = (⟨file, calls⟩, true) := by
  unfold lzowriteblock
  unfold lzowriteblockOn at hfull ⊢
  dsimp only at hfull ⊢
  rw [blockOut_eq hlib] at hfull ⊢
  dsimp only at hfull ⊢
  refine ⟨_, sink.calls + 2, rfl, ?_⟩
  exact lzowriteblockOn'_full { sink with file := { sink.file with calls := sink.file.calls + 1 } } hfull

theorem lzoflushOn_full (hlib : Λ.lib.Correct)
    (hfull : ∀ i, sink.calls ≤ i → i < (lzoflushOn Λ ws sink).1.calls → ws i = .full) :
    ∃ file calls, lzoflush Λ sink.file = some file ∧ lzoflushOn Λ ws sink = (⟨file, calls⟩, true) := by
  unfold lzoflush
  unfold lzoflushOn at hfull ⊢
  by_cases hroom : sink.file.blockoff < sink.file.block.usize
  · rw [if_pos hroom, if_pos hroom]
    exact ⟨_, _, rfl, rfl⟩
  · rw [if_neg hroom] at hfull
    rw [if_neg hroom, if_neg hroom]
    obtain ⟨file, calls, hblock, hblockOn⟩ := lzowriteblockOn_full hlib sink (fun i hle hlt => by
      refine hfull i hle (hlt.trans_le ?_)
      split <;> (rename_i h; rw [h]))
    rw [hblock, hblockOn]
    exact ⟨_, _, rfl, rfl⟩

/-- `lzowrite` when every write it makes is full. -/
theorem lzowriteOn_full (hlib : Λ.lib.Correct) (sink : LzoSink) (buf : Bytes)
    (hfull : ∀ i, sink.calls ≤ i → i < (lzowriteOn Λ ws sink buf).1.calls → ws i = .full) :
    ∃ file calls, lzowrite Λ sink.file buf = some file ∧ lzowriteOn Λ ws sink buf = (⟨file, calls⟩, true) := by
  induction buf generalizing sink with
  | nil => exact ⟨_, _, rfl, rfl⟩
  | cons x buf ih =>
    have hflush : ∃ file calls, lzoflush Λ sink.file = some file ∧ lzoflushOn Λ ws sink = (⟨file, calls⟩, true) := by
      refine lzoflushOn_full hlib (fun i hle hlt => hfull i hle (hlt.trans_le ?_))
      rw [lzowriteOn]
      split
      · rename_i h
        rw [h]
      · rename_i sink' h
        rw [h]
        exact calls_lzowriteOn Λ ws { sink' with file := lzostore sink'.file x } buf
    obtain ⟨file, calls, hflush, hflushOn⟩ := hflush
    have hle := calls_lzoflushOn Λ ws sink
    rw [hflushOn] at hle
    rw [lzowriteOn, hflushOn] at hfull
    rw [lzowrite, lzowriteOn, hflush, hflushOn, Option.bind_some]
    exact ih ⟨lzostore file x, calls⟩ (fun i hge hlt => hfull i (le_trans hle hge) hlt)

theorem Fed.lzo_calls {cs : List Bytes} (h : Fed (lzoFeed Λ ws) sink cs t) : sink.calls ≤ t.calls := by
  induction h with
  | nil => exact Nat.le_refl _
  | @cons sink t c cs _ _ ih => exact (calls_lzowriteOn Λ ws sink c).trans ih

/-- Chunks all of whose writes are full. -/
theorem Fed.lzo_full {cs : List Bytes} (hlib : Λ.lib.Correct) (h : Fed (lzoFeed Λ ws) sink cs t)
    (hfull : ∀ i, sink.calls ≤ i → i < t.calls → ws i = .full) : lzowrites Λ sink.file cs = some t.file := by
  induction h with
  | nil => rfl
  | @cons sink t c cs _ hrest ih =>
    have hle := hrest.lzo_calls
    obtain ⟨file, calls, hwrite, hwriteOn⟩ := lzowriteOn_full hlib sink c
      (fun i hge hlt => hfull i hge (hlt.trans_le hle))
    have hge := calls_lzowriteOn Λ ws sink c
    have hstep : (lzoFeed Λ ws sink c).1 = ⟨file, calls⟩ := by rw [lzoFeed, hwriteOn]
    rw [hstep] at ih
    rw [hwriteOn] at hge
    rw [lzowrites, hwrite, Option.bind_some]
    exact ih (fun i hge' hlt => hfull i (le_trans hge hge') hlt)

/-- The loop of `lzoDecompress` reads all of a healthy stream. -/
theorem lzoDeliver_of_reading {lib : Lzo1x} (hlib : lib.Correct) {file : LzoFile} {cur : Bytes} {bs : List Bytes}
    (h : Reading lib file cur bs) : ∃ turns, lzoDeliver lib turns file = some ⟨cur ++ bs.flatten, true⟩ := by
  induction hn : (cur ++ bs.flatten).length using Nat.strong_induction_on generalizing file cur bs with
  | _ n ih =>
    obtain ⟨file', cur', bs', hread, hreading, hrest⟩ := Reading.read hlib file moduleBufSize h
    by_cases hend : (cur ++ bs.flatten).take moduleBufSize = []
    · have hnil : cur ++ bs.flatten = [] := by
        rcases List.take_eq_nil_iff.mp hend with hzero | hnil
        · cases hzero
        · exact hnil
      refine ⟨1, ?_⟩
      rw [lzoDeliver, hread, hnil]
      rfl
    · have hpos := List.length_pos_iff.mpr hend
      have hlt : (cur' ++ bs'.flatten).length < n := by
        rw [hrest, ← hn, List.length_drop]
        rw [List.length_take] at hpos
        omega
      obtain ⟨turns, hturns⟩ := ih _ hlt hreading rfl
      refine ⟨turns + 1, ?_⟩
      rw [lzoDeliver, hread]
      dsimp only
      rw [if_neg hend, hturns, Option.map_some]
      dsimp only
      rw [hrest, List.take_append_drop]

/-- A stream that was opened, written in chunks and closed decodes to the chunks. -/
theorem lzoDeliver_of_writes (hlib : Λ.lib.Correct) {chunks : List Bytes} {file file' : LzoFile}
    (hwrites : lzowrites Λ (lzodopen [] 0 .write) chunks = some file) (hblock : lzowriteblock Λ file = some file') :
    ∃ turns, lzoDeliver Λ.lib turns (lzodopen file'.data 0 .read) = some ⟨chunks.flatten, true⟩ := by
  obtain ⟨r, bs, hwritten, hstream, hflat, hlens⟩ := lzoWritten_stream Λ hlib [] chunks
  obtain ⟨file₁, bs₁, pending, hwrites₁, hwriting, -, -⟩ := (writing_lzodopen Λ.lib []).writes hlib chunks (fun _ => rfl)
  have hfile : file₁ = file := by
    rw [List.length_nil, hwrites] at hwrites₁
    exact (Option.some.inj hwrites₁).symm
  subst hfile
  have hdata : file'.data = r := by
    rw [lzoWritten, List.length_nil, hwrites, Option.bind_some, lzoclose, hwriting.mode] at hwritten
    simp only [hblock, Option.map_some, Option.some.injEq, List.nil_append] at hwritten
    exact hwritten
  rw [← hflat] at hlens
  have hreading : Reading Λ.lib (lzodopen r 0 .read) [] bs := by
    have hopened : Reading Λ.lib (lzodopen ([] ++ r) ([] : Bytes).length .read) [] bs := reading_lzodopen hstream hlens
    exact hopened
  obtain ⟨turns, hturns⟩ := lzoDeliver_of_reading hlib hreading
  rw [List.nil_append, hflat] at hturns
  exact ⟨turns, by rw [hdata, hturns]⟩

end Lzo

/-! ## `gz` and `bz2` -/

/-- Every write of some chunks takes all it is given, or returns `-1`. -/
def StreamLib.Reports (lib : StreamLib) : lib.Stream → List Bytes → Prop
  | _, [] => True
  | s, c :: cs => ((lib.write s c).2 = c.length ∨ (lib.write s c).2 = -1) ∧ lib.Reports (lib.write s c).1 cs

theorem Fed.stream {lib : StreamLib} {s t : lib.Stream} {cs : List Bytes} (h : Fed (streamFeed lib) s cs t)
    (hreports : lib.Reports s cs) : lib.Accepts s cs ∧ t = lib.writes s cs := by
  induction h with
  | nil => exact ⟨trivial, rfl⟩
  | @cons s t c cs hgoes _ ih =>
    obtain ⟨hnow, hrest⟩ := hreports
    have hne : (lib.write s c).2 ≠ -1 := of_decide_eq_true hgoes
    obtain ⟨haccepts, ht⟩ := ih hrest
    exact ⟨⟨hnow.resolve_right hne, haccepts⟩, ht⟩

/-! ## `lzma` -/

theorem lzmaWrites_all {sink : Sink} {bufs : List Bytes} (hgoes : (lzmaWrites ws sink bufs).2 = true)
    (hfails : ∀ i, sink.calls ≤ i → i < sink.calls + bufs.length → ws i ≠ .fail) :
    (lzmaWrites ws sink bufs).1 = ⟨sink.data ++ bufs.flatten, sink.calls + bufs.length⟩ := by
  induction bufs generalizing sink with
  | nil => simp [lzmaWrites]
  | cons b bs ih =>
    have hnow : ws sink.calls ≠ .fail := hfails _ (Nat.le_refl _) (by rw [List.length_cons]; omega)
    have hresult : (sink.write ws b).2 = (ws sink.calls).count b.length := by
      cases hw : ws sink.calls with
      | fail => exact absurd hw hnow
      | full => simp [Sink.write, hw, Written.result]
      | short n => simp [Sink.write, hw, Written.result]
    rw [lzmaWrites] at hgoes ⊢
    by_cases hle : (sink.write ws b).2 = -1 ∨ (b.length : Int) ≤ (sink.write ws b).2
    · rw [if_pos hle] at hgoes ⊢
      have hcount : b.length ≤ (ws sink.calls).count b.length := by
        rw [hresult] at hle
        omega
      have hwrite : (sink.write ws b).1 = ⟨sink.data ++ b, sink.calls + 1⟩ := by
        rw [Sink.write, List.take_of_length_le hcount]
      rw [hwrite] at hgoes ⊢
      rw [ih hgoes (fun i hge hlt => hfails i (by dsimp only at hge; omega) (by rw [List.length_cons]; dsimp only at hlt; omega)),
        List.flatten_cons, List.length_cons, List.append_assoc]
      simp only [Sink.mk.injEq, true_and]
      omega
    · rw [if_neg hle] at hgoes
      cases hgoes

/-- Chunks none of whose writes returns `-1`. -/
theorem Fed.lzma {lib : LzmaLib} {s t : lib.Stream × Sink} {cs : List Bytes} (h : Fed (lzmaFeed lib ws) s cs t) :
    ∃ outs, lib.codes s.1 cs = some (t.1, outs) ∧
      ((∀ i, s.2.calls ≤ i → i < s.2.calls + outs.length → ws i ≠ .fail) →
        t.2 = ⟨s.2.data ++ outs.flatten, s.2.calls + outs.length⟩) := by
  induction h with
  | nil s => exact ⟨[], rfl, fun _ => by simp⟩
  | @cons s t c cs hgoes _ ih =>
    obtain ⟨rest, hcodes, hrest⟩ := ih
    unfold lzmaFeed at hgoes hcodes hrest
    cases hcode : lib.code s.1 c with
    | none =>
      rw [hcode] at hgoes
      cases hgoes
    | some r =>
      obtain ⟨stream, bufs⟩ := r
      rw [hcode] at hgoes hcodes hrest
      dsimp only at hgoes hcodes hrest
      refine ⟨bufs ++ rest, ?_, fun hfails => ?_⟩
      · rw [LzmaLib.codes, hcode, Option.bind_some, hcodes]
        rfl
      · rw [List.length_append] at hfails
        have hwrites := lzmaWrites_all hgoes (fun i hge hlt => hfails i hge (by omega))
        rw [hwrites] at hrest
        rw [hrest (fun i hge hlt => hfails i (by dsimp only at hge; omega) (by dsimp only at hlt; omega)), List.flatten_append,
          List.length_append, List.append_assoc, Nat.add_assoc]

/-- The rest has been written unless the result says otherwise. -/
theorem lzmaTail_all {sink : Sink} {bufs : List Bytes} (hnone : (lzmaTail ws sink bufs).2 = none)
    (hshort : ∀ i, i < bufs.length → ws (sink.calls + i) = .full ∨ ws (sink.calls + i) = .fail) :
    (lzmaTail ws sink bufs).1.data = sink.data ++ bufs.flatten := by
  induction bufs generalizing sink with
  | nil => simp [lzmaTail]
  | cons b bs ih =>
    rw [lzmaTail] at hnone ⊢
    rcases hshort 0 (by simp) with hfull | hfail
    · rw [Nat.add_zero] at hfull
      rw [Sink.write_full hfull] at hnone ⊢
      have hpos : ¬((b.length : Int) < 0) := by omega
      rw [if_neg hpos] at hnone ⊢
      rw [ih hnone (fun i hi => ?_), List.flatten_cons, List.append_assoc]
      have := hshort (i + 1) (by rw [List.length_cons]; omega)
      rw [← Nat.add_assoc, Nat.add_right_comm] at this
      exact this
    · rw [Nat.add_zero] at hfail
      have hneg : (sink.write ws b).2 < 0 := by
        simp only [Sink.write, hfail, Written.result]
        omega
      rw [if_pos hneg] at hnone
      cases hnone

/-- What `lzmaCompress` returns when the rest cannot be written is `0` or `1`. -/
theorem lzmaTail_result {sink : Sink} {bufs : List Bytes} {ret : Int} (h : (lzmaTail ws sink bufs).2 = some ret) :
    (ret = 0 ∨ ret = 1) ∧ ∃ i, i < bufs.length ∧ ws (sink.calls + i) = .fail := by
  induction bufs generalizing sink with
  | nil => cases h
  | cons b bs ih =>
    rw [lzmaTail] at h
    split at h
    · rename_i hneg
      have hret := Option.some.inj h
      refine ⟨?_, 0, by simp, ?_⟩
      · rw [← hret]
        split
        · exact Or.inr rfl
        · exact Or.inl rfl
      · rw [Nat.add_zero]
        cases hw : ws sink.calls with
        | fail => rfl
        | full =>
          simp only [Sink.write, hw, Written.result, Written.count] at hneg
          omega
        | short n =>
          simp only [Sink.write, hw, Written.result, Written.count] at hneg
          omega
    · obtain ⟨hret, i, hi, hfail⟩ := ih h
      refine ⟨hret, i + 1, by rw [List.length_cons]; omega, ?_⟩
      rw [← hfail]
      congr 1
      simp only [Sink.write]
      omega

/-! ## All modules -/

/-- The condition on a module's calls. The writes that are not full are those whose result the module tells from a success: `0` of
`null`, `-1` of zlib and bzip2, a short one of `lzma` before the rest, and one of `lzma` in the rest that fails, which makes the
result `0` or `1`. When zlib and bzip2 have taken all chunks, what they still hold in the end is written when they are closed. -/
def Lossless (libs : Libraries) (oc : Outcomes) (src : Chunks content) : Module → Prop
  | .null => ∀ i, i < src.chunks.length → oc.writes i = .full ∨ oc.writes i = .short 0
  | .lzo => ∀ i, i < (lzoFinish libs.lzo oc src).calls → oc.writes i = .full
  | .gzip => libs.gz.Reports libs.gz.opened src.chunks ∧
      (libs.gz.Accepts libs.gz.opened src.chunks → (libs.gz.close (libs.gz.writes libs.gz.opened src.chunks)).2 = true)
  | .bz2 => libs.bz2.Reports libs.bz2.opened src.chunks ∧
      (libs.bz2.Accepts libs.bz2.opened src.chunks → (libs.bz2.close (libs.bz2.writes libs.bz2.opened src.chunks)).2 = true)
  | .lzma => ∀ s outs tail, libs.lzma.codes libs.lzma.opened src.chunks = some (s, outs) → libs.lzma.finish s = some tail →
      (∀ i, i < outs.length → oc.writes i ≠ .fail) ∧
      ∀ i, i < tail.length →
        oc.writes (outs.length + i) = .full ∨ oc.writes (outs.length + i) = .fail ∧ 1 < content.length

variable {libs : Libraries} {oc : Outcomes} {src : Chunks content}

/-- `nullCompress` has copied the file exactly when every write was full. -/
theorem nullCompress_complete_iff (hsize : (nullCompress oc src).1 = content.length) :
    (nullCompress oc src).2 = content ↔ ∀ i, i < src.chunks.length → oc.writes i = .full := by
  unfold nullCompress at hsize ⊢
  generalize hr : compressLoop (nullFeed oc.writes) oc.cancels src.failed 0 0 ⟨[], 0⟩ src.chunks = r at hsize ⊢
  dsimp only at hsize ⊢
  obtain ⟨hfed, hflat⟩ := fed_of_size src hr hsize
  constructor
  · intro hdata i hi
    refine hfed.null_full_of_length (fun c hc => (src.chunk c hc).1) ?_ i (Nat.zero_le _) (by dsimp only; omega)
    rw [hflat, ← hdata]
    simp
  · intro hfull
    rw [hfed.null_full (fun i _ hlt => hfull i (by dsimp only at hlt; omega)), List.nil_append]
    exact hflat

theorem nullCompress_decodes (hl : Lossless libs oc src .null) (hsize : (nullCompress oc src).1 = content.length) :
    (nullCompress oc src).2 = content := by
  refine (nullCompress_complete_iff hsize).mpr (fun i hi => (hl i hi).resolve_right (fun hzero => ?_))
  unfold nullCompress at hsize
  generalize hr : compressLoop (nullFeed oc.writes) oc.cancels src.failed 0 0 ⟨[], 0⟩ src.chunks = r at hsize
  obtain ⟨hfed, -⟩ := fed_of_size src hr hsize
  have hgoes := hfed.null_positive i (by dsimp only; omega) (by dsimp only; omega)
  exact hgoes hzero

theorem lzoCompress_decodes (hlib : libs.lzo.lib.Correct) (hl : Lossless libs oc src .lzo)
    (hsize : (lzoCompress libs.lzo oc src).1 = content.length) :
    ∃ turns, lzoDeliver libs.lzo.lib turns (lzodopen (lzoCompress libs.lzo oc src).2 0 .read) = some ⟨content, true⟩ := by
  unfold lzoCompress at hsize ⊢
  split at hsize
  · dsimp only at hsize
    omega
  · rename_i hopened
    rw [if_neg hopened]
    dsimp only at hsize ⊢
    have hfull : ∀ i, i < (lzoFinish libs.lzo oc src).calls → oc.writes i = .full := hl
    unfold lzoFinish at hfull ⊢
    generalize hr : lzoRun libs.lzo oc src = r at hsize hfull ⊢
    obtain ⟨hfed, hflat⟩ := fed_of_size src hr hsize
    have hle := calls_lzowriteblockOn libs.lzo oc.writes r.1
    have hwrites := hfed.lzo_full hlib (fun i _ hlt => hfull i (hlt.trans_le hle))
    obtain ⟨file', calls, hblock, hblockOn⟩ := lzowriteblockOn_full hlib r.1
      (fun i _ hlt => hfull i hlt)
    rw [hblockOn, ← hflat]
    exact lzoDeliver_of_writes hlib hwrites hblock

theorem streamCompress_decodes {lib : StreamLib} (hlib : lib.Correct) (hreports : lib.Reports lib.opened src.chunks)
    (hclose : lib.Accepts lib.opened src.chunks → (lib.close (lib.writes lib.opened src.chunks)).2 = true)
    (hsize : (streamCompress lib oc src).1 = content.length) :
    lib.deliver (streamCompress lib oc src).2 = ⟨content, true⟩ := by
  unfold streamCompress at hsize ⊢
  split at hsize
  · dsimp only at hsize
    omega
  · rename_i hopened
    rw [if_neg hopened]
    dsimp only at hsize ⊢
    generalize hr : compressLoop (streamFeed lib) oc.cancels src.failed 0 0 lib.opened src.chunks = r at hsize ⊢
    obtain ⟨hfed, hflat⟩ := fed_of_size src hr hsize
    obtain ⟨haccepts, ht⟩ := hfed.stream hreports
    have hdecode := hlib src.chunks haccepts (hclose haccepts)
    rw [← ht, hflat] at hdecode
    exact hdecode

/-- The encoder has been given all chunks, whatever number `lzmaCompress` returns: a file of one byte is read at once. -/
theorem lzma_fed {lib : LzmaLib} {s : lib.Stream × Sink} {size : Nat} {tail : List Bytes} (src : Chunks content)
    (hr : compressLoop (lzmaFeed lib ws) cancels src.failed 0 0 (lib.opened, ⟨[], 0⟩) src.chunks = (s, some size))
    (hsize : (lzmaTail ws s.2 tail).2.getD (size : Int) = content.length) :
    (size = content.length → src.chunks.flatten = content) ∧ Fed (lzmaFeed lib ws) (lib.opened, ⟨[], 0⟩) src.chunks s := by
  obtain ⟨done, hdone, hfed, hk, hnil⟩ := compressLoop_fed hr
  rw [Nat.zero_add] at hk
  constructor
  · intro hall
    exact (src.eq_of_length hdone (hk.symm.trans hall)).2
  · have hdone' : done = src.chunks := by
      cases htail : (lzmaTail ws s.2 tail).2 with
      | none =>
        rw [htail, Option.getD_none] at hsize
        exact (src.eq_of_length hdone (by omega)).1
      | some ret =>
        obtain ⟨hret, -⟩ := lzmaTail_result htail
        rw [htail, Option.getD_some] at hsize
        by_cases hempty : done = []
        · rw [hempty, hnil hempty]
        · have hle : done.flatten.length ≤ content.length := by
            obtain ⟨rest, hrest⟩ := hdone
            have hstart := src.start.length_le
            rw [← hrest, List.flatten_append, List.length_append] at hstart
            omega
          obtain ⟨c, hc⟩ := List.exists_mem_of_ne_nil done hempty
          have hpos := List.length_pos_iff.mpr (src.chunk c (hdone.subset hc)).1
          have hlen := (List.sublist_flatten_of_mem hc).length_le
          exact (src.eq_of_length hdone (by omega)).1
    rw [← hdone']
    exact hfed

theorem lzmaCompress_decodes (hlib : libs.lzma.Correct) (hl : Lossless libs oc src .lzma)
    (hsize : (lzmaCompress libs.lzma oc src).1 = content.length) :
    libs.lzma.deliver (lzmaCompress libs.lzma oc src).2 = ⟨content, true⟩ := by
  unfold lzmaCompress at hsize ⊢
  split at hsize
  · dsimp only at hsize
    omega
  · rename_i hopened
    rw [if_neg hopened]
    cases hr : compressLoop (lzmaFeed libs.lzma oc.writes) oc.cancels src.failed 0 0 (libs.lzma.opened, ⟨[], 0⟩) src.chunks with
    | mk s r =>
      rw [hr] at hsize
      cases r with
      | none =>
        dsimp only at hsize
        omega
      | some size =>
        dsimp only at hsize ⊢
        cases hfinish : libs.lzma.finish s.1 with
        | none =>
          rw [hfinish] at hsize
          dsimp only at hsize
          omega
        | some tail =>
          rw [hfinish] at hsize
          dsimp only at hsize ⊢
          obtain ⟨hdone, hfed⟩ := lzma_fed src hr hsize
          obtain ⟨outs, hcodes, houts⟩ := hfed.lzma
          obtain ⟨hcoded, hrest⟩ := hl s.1 outs tail hcodes hfinish
          have hsink := houts (fun i _ hlt => hcoded i (by dsimp only at hlt; omega))
          simp only [List.nil_append, Nat.zero_add] at hsink
          rw [hsink] at hsize ⊢
          cases htail : (lzmaTail oc.writes ⟨outs.flatten, outs.length⟩ tail).2 with
          | none =>
            rw [lzmaTail_all htail (fun i hi => (hrest i hi).imp_right And.left)]
            rw [htail, Option.getD_none] at hsize
            have hdecode := hlib src.chunks s.1 outs tail hcodes hfinish
            rw [hdecode, hdone (by omega)]
          | some ret =>
            obtain ⟨hret, i, hi, hfail⟩ := lzmaTail_result htail
            rw [htail, Option.getD_some] at hsize
            rcases hrest i hi with hfull | ⟨-, hlong⟩
            · dsimp only at hfail
              rw [hfull] at hfail
              cases hfail
            · omega

end FuseCompress
