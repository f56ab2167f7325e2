/-
# Library.Simulation -- a program that answers requests like a specification

`runAll` runs a list of requests through a program, and `answers` through a
specification given as a total step function.  If a relation between the two
states is kept by every request, and both give the same answer to it, then the
program ends on every list of requests, with the answers of the specification
and in a related state (`simulation`).
-/
import TestOs.Library.Programs

namespace TestOs.Library

set_option autoImplicit false

variable {σ τ ε ι ω : Type}

/-- The requests one after the other, with their answers. -/
def runAll (run : ι → Prog σ ε ω) : List ι → Prog σ ε (List ω)
  | [] => pure []
  | request :: requests => do
      let answer ← run request
      let rest ← runAll run requests
      pure (answer :: rest)

/-- What a specification answers, and the state it ends in. -/
def answers (step : τ → ι → ω × τ) : τ → List ι → List ω × τ
  | x, [] => ([], x)
  | x, request :: requests =>
      let (answer, x) := step x request
      let (rest, x) := answers step x requests
      (answer :: rest, x)

/-- The state of a specification after a request is determined by the requests
before it. -/
theorem answers_append (step : τ → ι → ω × τ) (x : τ) (first second : List ι) :
    (answers step x (first ++ second)).2 = (answers step (answers step x first).2 second).2 := by
  induction first generalizing x with
  | nil => rfl
  | cons request first ih => exact ih _

/-- A relation that every request keeps, with equal answers, is a simulation. -/
theorem simulation {run : ι → Prog σ ε ω} (step : τ → ι → ω × τ) (related : σ → τ → Prop)
    {allowed : ι → Prop}
    (keeps : ∀ s x request, related s x → allowed request →
      Prog.wp (run request)
        (fun answer t => answer = (step x request).1 ∧ related t (step x request).2)
        (fun _ _ => False) s)
    (requests : List ι) {s : σ} {x : τ} (start : related s x)
    (every : ∀ request ∈ requests, allowed request) :
    Prog.wp (runAll run requests)
      (fun outs t => outs = (answers step x requests).1 ∧ related t (answers step x requests).2)
      (fun _ _ => False) s := by
  induction requests generalizing s x with
  | nil => exact ⟨rfl, start⟩
  | cons request requests ih =>
      simp only [runAll, Prog.wp_bind]
      refine Prog.wp_mono (keeps s x request start (every request (by simp))) ?_
        (fun _ _ never => never)
      rintro answer t ⟨rfl, now⟩
      refine Prog.wp_mono (ih now fun r member => every r (by simp [member])) ?_
        (fun _ _ never => never)
      rintro outs u ⟨rfl, last⟩
      exact ⟨rfl, last⟩

end TestOs.Library
