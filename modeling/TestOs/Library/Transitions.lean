/-
# Library.Transitions -- runs of a labelled transition system

A system is a function `step` from a state and a label to the next state; `none`
says that the label is not possible in the state.  A `Path` records the steps of
a run, so that a property can speak of the run's steps and not only of its end.

Two rules carry every proof about runs: what holds at the start and is kept by
each step taken holds at the end (`Path.invariant`), and each step of a run was
taken at the end of a shorter run (`Path.before`).  `execute` computes a run
from its labels.
-/
import Mathlib

namespace TestOs.Library

set_option autoImplicit false

variable {σ α : Type} {step : σ → α → Option σ}

/-- A run from `s`: the steps taken, latest last, and the state reached. -/
inductive Path (step : σ → α → Option σ) (s : σ) : List (σ × α × σ) → σ → Prop where
  | start : Path step s [] s
  | snoc {steps t label u} : Path step s steps t → step t label = some u →
      Path step s (steps ++ [(t, label, u)]) u

namespace Path

variable {s u : σ} {steps : List (σ × α × σ)}

/-- What holds at the start and is kept by every step taken holds at the end of a run. -/
theorem invariant (holds : σ → Prop) (first : holds s)
    (keeps : ∀ t label v, (t, label, v) ∈ steps → holds t → step t label = some v → holds v)
    (path : Path step s steps u) : holds u := by
  induction path with
  | start => exact first
  | snoc _ next ih =>
      exact keeps _ _ _ (by simp)
        (ih fun t label v taken => keeps t label v (List.mem_append_left _ taken)) next

/-- A step of a run was taken at the end of a shorter run, whose steps are the run's. -/
theorem before (path : Path step s steps u) {t v : σ} {label : α}
    (taken : (t, label, v) ∈ steps) :
    ∃ earlier, Path step s earlier t ∧ step t label = some v ∧ ∀ taken' ∈ earlier, taken' ∈ steps := by
  induction path with
  | start => cases taken
  | snoc path next ih =>
      rcases List.mem_append.1 taken with early | last
      · obtain ⟨earlier, shorter, stepped, within⟩ := ih early
        exact ⟨earlier, shorter, stepped, fun step' member =>
          List.mem_append_left _ (within step' member)⟩
      · cases List.mem_singleton.1 last
        exact ⟨_, path, next, fun step' member => List.mem_append_left _ member⟩

end Path

/-- Take the labels in order, as long as each is possible. -/
def execute (step : σ → α → Option σ) : σ → List α → Option (List (σ × α × σ) × σ)
  | s, [] => some ([], s)
  | s, label :: labels =>
      (step s label).bind fun t =>
        (execute step t labels).map fun (steps, u) => ((s, label, t) :: steps, u)

theorem Path.cons {s t u : σ} {label : α} {steps : List (σ × α × σ)} (first : step s label = some t)
    (path : Path step t steps u) : Path step s ((s, label, t) :: steps) u := by
  induction path with
  | start => exact Path.snoc .start first
  | snoc _ next ih => exact ih.snoc next

theorem execute_path {s u : σ} {labels : List α} {steps : List (σ × α × σ)}
    (executed : execute step s labels = some (steps, u)) : Path step s steps u := by
  induction labels generalizing s steps with
  | nil =>
      cases executed
      exact .start
  | cons label labels ih =>
      obtain ⟨t, first, rest⟩ := Option.bind_eq_some_iff.1 executed
      obtain ⟨⟨later, v⟩, executed', same⟩ := Option.map_eq_some_iff.1 rest
      cases same
      exact (ih executed').cons first

/-- The steps that are taken are those of the labels. -/
theorem execute_labels {s u : σ} {labels : List α} {steps : List (σ × α × σ)}
    (executed : execute step s labels = some (steps, u)) :
    steps.map (fun taken => taken.2.1) = labels := by
  induction labels generalizing s steps with
  | nil =>
      cases executed
      rfl
  | cons label labels ih =>
      obtain ⟨t, first, rest⟩ := Option.bind_eq_some_iff.1 executed
      obtain ⟨⟨later, v⟩, executed', same⟩ := Option.map_eq_some_iff.1 rest
      cases same
      exact congrArg (label :: ·) (ih executed')

/-- All labels can be taken if the first one can, and then the others. -/
theorem execute_cons_isSome {s : σ} {label : α} {labels : List α} :
    (execute step s (label :: labels)).isSome ↔
      ∃ t, step s label = some t ∧ (execute step t labels).isSome := by
  rw [execute]
  cases stepped : step s label with
  | none => simp
  | some t => simp [Option.isSome_map]

end TestOs.Library
