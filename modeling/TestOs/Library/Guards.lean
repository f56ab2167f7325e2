/-
# Library.Guards -- programs with checks that the original does not make

`Follows p q` says that `q` does what `p` does wherever `p` ends.  So a copy of a
program that stops at an access it should not make, `ensure` before the access,
follows the program, and where the copy ends no such access is made.
-/
import TestOs.Library.Programs

namespace TestOs.Library

set_option autoImplicit false

namespace Prog

variable {σ ε α β : Type} {p q : Prog σ ε α}

/-- Where the guarded `p` ends, `q` ends in the same way. -/
def Follows (p q : Prog σ ε α) : Prop := ∀ s r, p s = some r → q s = some r

theorem Follows.refl (p : Prog σ ε α) : Follows p p := fun _ _ run => run

theorem Follows.bind {f g : α → Prog σ ε β} (first : Follows p q) (rest : ∀ a, Follows (f a) (g a)) :
    Follows (p >>= f) (q >>= g) := by
  intro s r run
  cases ended : p s with
  | none =>
      simp only [Bind.bind, ended] at run
      cases run
  | some result =>
      obtain ⟨e, t⟩ := result
      simp only [Bind.bind, ended, first s _ ended] at run ⊢
      cases e with
      | ok a => exact rest a t r run
      | error e => exact run

/-- A check is left out. -/
theorem Follows.ensure {c : Prop} [Decidable c] (rest : c → Follows p q) :
    Follows (Prog.ensure c >>= fun _ => p) q := by
  intro s r run
  unfold Prog.ensure at run
  by_cases holds : c
  · rw [if_pos holds] at run
    exact rest holds s r run
  · rw [if_neg holds] at run
    cases run

theorem Follows.ite {c : Prop} [Decidable c] {p' q' : Prog σ ε α} (left : Follows p q)
    (right : Follows p' q') : Follows (if c then p else p') (if c then q else q') := by
  by_cases holds : c
  · rwa [if_pos holds, if_pos holds]
  · rwa [if_neg holds, if_neg holds]

end Prog

end TestOs.Library
