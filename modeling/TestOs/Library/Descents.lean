/-
# Library.Descents -- paths into a tree

A path names the steps from a place of a tree to another one.  `Leads` follows it
name by name.  Paths through steps of two kinds that agree where both can be taken
stay together (`Leads.meet`), and a path through steps of one kind is one through
any weaker steps (`Leads.mono`).
-/
import Mathlib

namespace TestOs.Library

set_option autoImplicit false

/-- The path `names` leads from one place to another. -/
inductive Leads {κ ν : Type} (step : κ → ν → κ → Prop) : κ → List ν → κ → Prop
  | here (p : κ) : Leads step p [] p
  | down {p q r : κ} {name : ν} {names : List ν} (first : step p name q)
      (rest : Leads step q names r) : Leads step p (name :: names) r

namespace Leads

variable {κ ν : Type} {step step' both : κ → ν → κ → Prop} {p q r : κ} {name : ν} {names : List ν}

@[simp] theorem nil_iff : Leads step p [] q ↔ p = q := by
  constructor
  · intro leads
    cases leads
    rfl
  · rintro rfl
    exact .here p

@[simp] theorem cons_iff :
    Leads step p (name :: names) r ↔ ∃ q, step p name q ∧ Leads step q names r := by
  constructor
  · intro leads
    cases leads with
    | down first rest => exact ⟨_, first, rest⟩
  · rintro ⟨q, first, rest⟩
    exact .down first rest

/-- Where steps of two kinds agree on a name, they agree on a path. -/
theorem meet (agree : ∀ p name q r, step p name q → step' p name r → both p name q ∧ q = r)
    (leads : Leads step p names q) (leads' : Leads step' p names r) :
    Leads both p names q ∧ q = r := by
  induction leads with
  | here p => exact ⟨.here p, nil_iff.1 leads'⟩
  | down first _ ih =>
      obtain ⟨q', first', rest'⟩ := cons_iff.1 leads'
      obtain ⟨common, rfl⟩ := agree _ _ _ _ first first'
      obtain ⟨rest, same⟩ := ih rest'
      exact ⟨.down common rest, same⟩

theorem mono (weaker : ∀ p name q, step p name q → step' p name q)
    (leads : Leads step p names q) : Leads step' p names q := by
  induction leads with
  | here p => exact .here p
  | down first _ ih => exact .down (weaker _ _ _ first) ih

end Leads

end TestOs.Library
