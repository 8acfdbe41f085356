import FuseCompress.Lemmas.Windows
import FuseCompress.Theorems.Database

/-!
# The status bits

The status of an entry is clear outside of the unlocked windows of the background thread, and nobody waits in `direct_open` for a
file that the thread is not working on, as long as every file that `dedup_hash_file` is given can be read. Where it cannot,
`do_dedup` returns without clearing the bit, and every later `direct_open` of the file waits for ever.
-/

namespace FuseCompress

/-- The protocol of the status bits: outside of the windows of the background thread no bit is set, a thread that waits and has not
been woken waits for a file in its window, and a window that closes with a cancellation asked for is closed with a broadcast. -/
structure Sys.StatusProtocol {T : Type} [DecidableEq T] (Γ : Config) (sys : Sys T) : Prop where
  clear : ∀ f, sys.worker.window ≠ some f → (sys.shared.files f).status = .clear
  waits : ∀ t k f seen, sys.clients t = .waiting k f seen → (sys.shared.files f).cond = seen → sys.worker.window = some f
  broadcast : ∀ l sys' f, sys.step Γ l = some sys' → sys.worker.window = some f → sys'.worker.window ≠ some f →
    (sys.shared.files f).status.cancel = true → (sys'.shared.files f).cond = (sys.shared.files f).cond + 1

theorem Sys.Guarded.statusProtocol {T : Type} [Fintype T] [DecidableEq T] {sys : Sys T} (Γ : Config) (h : sys.Guarded) :
    sys.StatusProtocol Γ where
  clear _ hf := h.windowed.clear hf
  waits t k f seen hpc e := h.windowed.cancel f ((h.waits t k f seen hpc).2 e.symm)
  broadcast _ _ f hs := (h.step_guards hs).2 f

/-- In every state of a run in which no call of `dedup_hash_file` fails, and no rename moves a descriptor under a request, the status
bits follow the protocol. -/
theorem status_protocol {T : Type} [Fintype T] [DecidableEq T] {Γ : Config} {fs : Backing} {ls : List (Label T)} {sys : Sys T}
    (h : Run (Sys.step Γ) (fun sys l => (sys.Promised l ∧ sys.Unmoved Γ l) ∧ sys.Hashes Γ l) (Sys.mounted fs) ls sys) :
    sys.StatusProtocol Γ :=
  (h.invariant (fun _ _ _ hg hok hs => Sys.Guarded.step hg hok hs) (Sys.guarded_mounted fs)).statusProtocol Γ

/-- A mount with deduplication. -/
def Config.dedup : Config := { Config.plain with dedupEnabled := true }

/-- No file can be opened. -/
def Env.noOpen : Env := { Env.fine with ok := fun c => c ≠ .open }

/-- A file is queued to be looked at for duplicates, the background thread computes its hash, with the answers `hashing` of the
system, and a request opens the file after that. -/
def openAfterHash {T : Type} (t : T) (hashing : List Env) : List (Label T) :=
  [.request t (.getattr "_fcredupon".toList), .client t .fine, .request t (.getattr ['a']), .client t .fine, .client t .fine,
   .request t .purge, .client t .fine, .client t .fine, .client t .fine, .worker .fine, .worker .fine] ++
  hashing.map .worker ++ [.request t (.open ['a'] false), .client t .fine]

theorem status_protocol_openAfterHash : ∃ sys : Sys (Fin 1),
    Run (Sys.step .dedup) (fun sys l => (sys.Promised l ∧ sys.Unmoved .dedup l) ∧ sys.Hashes .dedup l) (Sys.mounted .oneFile : Sys (Fin 1))
      (openAfterHash 0 [.fine, .fine, .fine, .fine]) sys ∧ sys.StatusProtocol .dedup := by
  obtain ⟨sys, h, _⟩ := Run.exists_of_executeIf (show (executeIf (Sys.step .dedup)
    (fun sys l => (sys.Promised l ∧ sys.Unmoved .dedup l) ∧ sys.Hashes .dedup l) (Sys.mounted .oneFile : Sys (Fin 1))
      (openAfterHash 0 [.fine, .fine, .fine, .fine])).any (fun _ => true) = true by decide +kernel)
  exact ⟨sys, h, status_protocol h⟩

/-- When the file cannot be opened to compute its hash, the request waits for a background thread that is idle. -/
theorem openAfterHash_not_statusProtocol : ¬∀ (ls : List (Label (Fin 1))) (sys : Sys (Fin 1)),
    Run (Sys.step .dedup) Sys.Promised (Sys.mounted .oneFile) ls sys → sys.StatusProtocol .dedup := by
  intro h
  obtain ⟨sys, hrun, hbad⟩ := Run.exists_of_executeIf (show (executeIf (Sys.step .dedup) Sys.Promised
    (Sys.mounted .oneFile : Sys (Fin 1)) (openAfterHash 0 [.noOpen, .fine])).any
      (fun sys => decide (sys.clients 0 = .waiting (.open ['a'] false) 0 (sys.shared.files 0).cond ∧ sys.worker = .idle)) = true by
        decide +kernel)
  rw [decide_eq_true_eq] at hbad
  have hwindow := (h _ sys hrun).waits 0 _ 0 _ hbad.1 rfl
  rw [hbad.2] at hwindow
  cases hwindow

end FuseCompress
