import FuseCompress.Interleaving
import FuseCompress.Theorems.DedupFile

/-!
# Runs of the operations on the dedup table

`do_dedup`, `dedup_discard` and `dedup_rename`, each as one step, together with what else bears on them: entries come and go
(`direct_open`, `_direct_open_purge`), the contents of the backing directory change, and the redup mode is switched.
-/

namespace FuseCompress

/-- `do_dedup` without interruption. -/
def doDedup (Γ : Config) (env : Env) (s : State) (f : Nat) : State :=
  let s := doDedupBegin s f
  match dedupHashFile Γ env s (s.files f).filename with
  | .failed => doDedupEnd Γ env s f none
  | .digest md5 => doDedupEnd Γ env s f (some md5)
  | .crash => s.abort

/-- An operation. -/
inductive TableOp where
  | open (env : Env) (filename : Filename)
  | purge (env : Env) (force : Bool)
  | discard (f : Nat)
  | rename (src dst : Nat)
  | dedup (env : Env) (f : Nat)
  | content (fs : Backing)
  | redup (on : Bool)

/-- One operation, on entries of the database. -/
def tableStep (Γ : Config) (s : State) : TableOp → Option State
  | .open env filename => some (directOpen Γ env s filename).1
  | .purge env force => some (directOpenPurge Γ env force s)
  | .discard f => if f ∈ s.database then some (dedupDiscard s f) else none
  | .rename src dst => if src ∈ s.database ∧ dst ∈ s.database ∧ src ≠ dst then some (dedupRename s src dst) else none
  | .dedup env f => if f ∈ s.database then some (doDedup Γ env s f) else none
  | .content fs => some { s with fs := fs }
  | .redup on => some { s with redup := on }

/-- A process that has just started, with the table that `dedup_init_db` sets up, or with one that `dedup_load` has read from a
file that `dedup_save` wrote. -/
structure State.Started (Γ : Config) (s : State) : Prop where
  database : s.database = []
  table : s.dedup = dedupInitDb ∨ ∃ h : DedupHash, h.Valid ∧ (∀ dp, h.Holds dp → dp.Storable ∧ dp.Short) ∧
    dedupLoad Γ (dedupSave h) = some s.dedup

end FuseCompress
