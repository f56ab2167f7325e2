/-
# Library.RoundRobin -- a list that is served in turns

A scheduler that walks a list has a place in it: `Carousel` is the list cut at the
member whose turn it is.  Between turns members join at the front and leave
anywhere, and the one whose turn it is may leave with its turn.  A round goes
from one return to the front of the list to the next.

Who is served in a round is a matter of where the members stand: those in front
of the place have been served or joined too late, those behind it are still to be
served (`Step.served`).  So a member that stays on the list for a round is served
once in it (`Path.served_once`).
-/
import Mathlib

namespace TestOs.Library

set_option autoImplicit false

/-- A list, at the member whose turn it is. -/
structure Carousel (α : Type) where
  before : List α
  current : α
  after : List α

/-- How a step passes the turn on: not at all, to the next member, or to the front. -/
inductive Turn where
  | stay
  | next
  | front
  deriving DecidableEq

namespace Carousel

variable {α : Type}

def members (r : Carousel α) : List α := r.before ++ r.current :: r.after

/-- What can happen to the list and the turn. -/
inductive Step : Carousel α → Turn → Carousel α → Prop where
  | keep (r : Carousel α) : Step r .stay r
  | join (a : α) (before : List α) (current : α) (after : List α) :
      Step ⟨before, current, after⟩ .stay ⟨a :: before, current, after⟩
  | leaveBefore (before before' : List α) (a current : α) (after : List α) :
      Step ⟨before ++ a :: before', current, after⟩ .stay ⟨before ++ before', current, after⟩
  | leaveAfter (before : List α) (current a : α) (after after' : List α) :
      Step ⟨before, current, after ++ a :: after'⟩ .stay ⟨before, current, after ++ after'⟩
  | next (before : List α) (current a : α) (after : List α) :
      Step ⟨before, current, a :: after⟩ .next ⟨before ++ [current], a, after⟩
  | front {before : List α} {current a : α} {rest : List α}
      (first : before ++ [current] = a :: rest) : Step ⟨before, current, []⟩ .front ⟨[], a, rest⟩
  | leaveNext (before : List α) (current a : α) (after : List α) :
      Step ⟨before, current, a :: after⟩ .next ⟨before, a, after⟩
  | leaveFront (a : α) (before : List α) (current : α) :
      Step ⟨a :: before, current, []⟩ .front ⟨[], a, before⟩

/-- Some steps, latest last, each with the carousel behind it. -/
inductive Path (r : Carousel α) : List (Turn × Carousel α) → Carousel α → Prop where
  | start : Path r [] r
  | step {steps : List (Turn × Carousel α)} {t u : Carousel α} {turn : Turn} (path : Path r steps t)
      (step : Step t turn u) : Path r (steps ++ [(turn, u)]) u

variable [DecidableEq α] {r t u : Carousel α} {turn : Turn} {a : α}

omit [DecidableEq α] in
theorem Step.before_of_front (step : Step r .front t) : t.before = [] := by
  cases step <;> rfl

/-- 1 for a member that is not to be served any more before the front is. -/
def served (r : Carousel α) (a : α) : Nat := if a ∈ r.after then 0 else 1

/-- 1 for a step that passes the turn to `a`. -/
def serves (a : α) (step : Turn × Carousel α) : Nat :=
  if step.1 ≠ .stay ∧ step.2.current = a then 1 else 0

/-- A step that does not return to the front serves a member that was still to be
served, and nobody else. -/
theorem Step.served (step : Step r turn t) (sameRound : turn ≠ .front) (distinct : r.members.Nodup)
    (stays : a ∈ t.members) : t.served a = r.served a + serves a (turn, t) := by
  cases step with
  | keep => simp [serves]
  | join b before current after => simp [serves, Carousel.served]
  | leaveBefore before before' b current after => simp [serves, Carousel.served]
  | leaveAfter before current b after after' =>
      have apart : a ≠ b := by
        rintro rfl
        have split : before ++ current :: (after ++ a :: after') =
            (before ++ current :: after) ++ a :: after' := by simp
        rw [members, split, List.nodup_middle] at distinct
        refine (List.nodup_cons.1 distinct).1 ?_
        simpa [members] using stays
      simp [serves, Carousel.served, apart]
  | next before current b after =>
      have outside : b ∉ after := by
        simp only [members, List.nodup_append, List.nodup_cons] at distinct
        exact distinct.2.1.2.1
      simp only [Carousel.served, serves, List.mem_cons]
      by_cases same : a = b
      · subst same
        simp [outside]
      · simp [same, Ne.symm same]
  | front first => exact absurd rfl sameRound
  | leaveNext before current b after =>
      have outside : b ∉ after := by
        simp only [members, List.nodup_append, List.nodup_cons] at distinct
        exact distinct.2.1.2.1
      simp only [Carousel.served, serves, List.mem_cons]
      by_cases same : a = b
      · subst same
        simp [outside]
      · simp [same, Ne.symm same]
  | leaveFront => exact absurd rfl sameRound

/-- How often a member that stays is served in a part of a round: as often as its
place changes from behind to in front. -/
theorem Path.served {steps : List (Turn × Carousel α)} (path : Path r steps u)
    (sameRound : ∀ step ∈ steps, step.1 ≠ .front)
    (distinct : r.members.Nodup ∧ ∀ step ∈ steps, step.2.members.Nodup)
    (stays : ∀ step ∈ steps, a ∈ step.2.members) :
    u.served a = r.served a + (steps.map (serves a)).sum := by
  induction path with
  | start => simp
  | @step steps t u turn path step ih =>
      have earlier : ∀ x ∈ steps, x ∈ steps ++ [(turn, u)] := fun x => List.mem_append_left _
      have last : (turn, u) ∈ steps ++ [(turn, u)] := by simp
      have distinct' : t.members.Nodup := by
        cases path with
        | start => exact distinct.1
        | @step steps t' t turn' path step' => exact distinct.2 (turn', t) (by simp)
      rw [step.served (sameRound _ last) distinct' (stays _ last),
        ih (fun x member => sameRound x (earlier x member))
          ⟨distinct.1, fun x member => distinct.2 x (earlier x member)⟩
          (fun x member => stays x (earlier x member)), List.map_append, List.sum_append]
      simp [Nat.add_assoc]

/-- **A member that stays on the list from one return to the front to the next is
served once, the first return counted and the second not.** -/
theorem Path.served_once {steps : List (Turn × Carousel α)} (path : Path r steps u)
    (returned : r.before = []) (returns : u.after = [])
    (sameRound : ∀ step ∈ steps, step.1 ≠ .front)
    (distinct : r.members.Nodup ∧ ∀ step ∈ steps, step.2.members.Nodup) (present : a ∈ r.members)
    (stays : ∀ step ∈ steps, a ∈ step.2.members) :
    (if r.current = a then 1 else 0) + (steps.map (serves a)).sum = 1 := by
  have counted := path.served sameRound distinct stays
  have last : u.served a = 1 := by simp [Carousel.served, returns]
  have first : r.served a = if r.current = a then 1 else 0 := by
    have outside : r.current ∉ r.after := by
      have := distinct.1
      simp only [members, returned, List.nil_append, List.nodup_cons] at this
      exact this.1
    simp only [members, returned, List.nil_append, List.mem_cons] at present
    simp only [Carousel.served]
    by_cases same : r.current = a
    · rw [if_pos same, if_neg (same ▸ outside)]
    · rw [if_neg same, if_pos (present.resolve_left (Ne.symm same))]
  omega

end Carousel

end TestOs.Library
