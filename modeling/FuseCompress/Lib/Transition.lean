import Mathlib.Data.List.Basic
import Mathlib.Order.RelClasses
import Mathlib.Order.WellFounded

/-!
# Labelled transition systems given by a partial step function

A system is a function that takes a state and a label to the next state, or to nothing where the label is not possible. `Run`
is a finite sequence of steps each of which satisfies a side condition on the state before it and its label: what the
environment promises, or what a theorem assumes of every step. An invariant of the steps is an invariant of the runs.
-/

namespace FuseCompress

universe u v

variable {σ : Type u} {α : Type v}

/-- A run from one state to another along a list of labels, every step satisfying `ok`. -/
inductive Run (step : σ → α → Option σ) (ok : σ → α → Prop) : σ → List α → σ → Prop where
  | nil (s : σ) : Run step ok s [] s
  | cons {s t u : σ} {a : α} {as : List α} : ok s a → step s a = some t → Run step ok t as u → Run step ok s (a :: as) u

namespace Run

variable {step : σ → α → Option σ} {ok ok' : σ → α → Prop} {s t u : σ}

/-- A step is a run. -/
theorem single {a : α} (ha : ok s a) (h : step s a = some t) : Run step ok s [a] t := cons ha h (nil t)

/-- Runs compose. -/
theorem append {as bs : List α} (h : Run step ok s as t) (h' : Run step ok t bs u) : Run step ok s (as ++ bs) u := by
  induction h with
  | nil => exact h'
  | cons ha hs _ ih => exact cons ha hs (ih h')

/-- A run one step longer. -/
theorem snoc {as : List α} {a : α} (h : Run step ok s as t) (ha : ok t a) (hs : step t a = some u) :
    Run step ok s (as ++ [a]) u := h.append (single ha hs)

/-- A run whose steps satisfy a condition is a run whose steps satisfy a weaker one. -/
theorem mono (himp : ∀ s a, ok s a → ok' s a) {as : List α} (h : Run step ok s as t) : Run step ok' s as t := by
  induction h with
  | nil => exact nil _
  | cons ha hs _ ih => exact cons (himp _ _ ha) hs ih

/-- A run over labels that stand for labels of another system is a run of that system. -/
theorem map {β : Type*} (φ : β → α) {step' : σ → β → Option σ} {okay : σ → β → Prop} (hstep : ∀ s b, step' s b = step s (φ b))
    (hok : ∀ s b, okay s b → ok s (φ b)) {bs : List β} (h : Run step' okay s bs t) : Run step ok s (bs.map φ) t := by
  induction h with
  | nil => exact nil _
  | cons hb hs _ ih => exact cons (hok _ _ hb) ((hstep _ _).symm.trans hs) ih

/-- What every step preserves, every run preserves. -/
theorem invariant {I : σ → Prop} (hI : ∀ s a t, I s → ok s a → step s a = some t → I t) {as : List α}
    (h : Run step ok s as t) : I s → I t := by
  induction h with
  | nil => exact id
  | cons ha hs _ ih => exact fun hs' => ih (hI _ _ _ hs' ha hs)

end Run

/-- Run the labels one after the other; nothing when one of them is not possible. -/
def execute (step : σ → α → Option σ) : σ → List α → Option σ
  | s, [] => some s
  | s, a :: as => (step s a).bind (fun t => execute step t as)

/-- A list of labels is run part by part. -/
theorem execute_append (step : σ → α → Option σ) (s : σ) (as bs : List α) :
    execute step s (as ++ bs) = (execute step s as).bind (fun t => execute step t bs) := by
  induction as generalizing s with
  | nil => rfl
  | cons a as ih =>
    rw [List.cons_append, execute, execute, Option.bind_assoc]
    exact congrArg _ (funext ih)

/-- Run the labels one after the other as long as each step satisfies a condition that can be checked. -/
def executeIf (step : σ → α → Option σ) (ok : σ → α → Prop) [∀ s a, Decidable (ok s a)] : σ → List α → Option σ
  | s, [] => some s
  | s, a :: as => if ok s a then (step s a).bind (fun t => executeIf step ok t as) else none

/-- A checked execution is a run. -/
theorem Run.of_executeIf {step : σ → α → Option σ} {ok : σ → α → Prop} [∀ s a, Decidable (ok s a)] {as : List α} {s t : σ}
    (h : executeIf step ok s as = some t) : Run step ok s as t := by
  induction as generalizing s with
  | nil =>
    cases h
    exact nil _
  | cons a as ih =>
    unfold executeIf at h
    split at h
    · rename_i ha
      rw [Option.bind_eq_some_iff] at h
      obtain ⟨u, hu, h⟩ := h
      exact cons ha hu (ih h)
    · cases h

/-- A checked execution, with what has been found of its last state. -/
theorem Run.exists_of_executeIf {step : σ → α → Option σ} {ok : σ → α → Prop} [∀ s a, Decidable (ok s a)] {as : List α} {s : σ}
    {p : σ → Bool} (h : (executeIf step ok s as).any p = true) : ∃ t, Run step ok s as t ∧ p t = true := by
  rw [Option.any_eq_true] at h
  obtain ⟨t, ht, hp⟩ := h
  exact ⟨t, of_executeIf ht, hp⟩

/-! ## Termination -/

/-- A sequence of steps that does not end. -/
def Endless (step : σ → α → Option σ) (ok : σ → α → Prop) (r : Nat → σ) : Prop :=
  ∀ n, ∃ a, ok (r n) a ∧ step (r n) a = some (r (n + 1))

/-- No step is possible. -/
def Stuck (step : σ → α → Option σ) (ok : σ → α → Prop) (s : σ) : Prop := ∀ a, ok s a → step s a = none

/-- Steps that each make a measure smaller come to an end. -/
theorem not_endless {step : σ → α → Option σ} {ok : σ → α → Prop} {β : Type*} [LT β] [WellFoundedLT β] (m : σ → β)
    (hm : ∀ s a t, ok s a → step s a = some t → m t < m s) (r : Nat → σ) : ¬Endless step ok r := by
  intro hr
  obtain ⟨n, hn⟩ := WellFounded.not_rel_apply_succ (r := (· < ·)) (fun n => m (r n))
  obtain ⟨a, ha, hstep⟩ := hr n
  exact hn (hm _ _ _ ha hstep)

end FuseCompress
