/-
# Library.Programs -- state, errors and non-termination

`Prog σ ε α` is a program over a state `σ`: it ends with a value of `α` or with
an error of `ε`, in either case in the state that it has reached, or it does not
end.  An error does not undo anything: this is C code that returns a negative
status, not a transaction.

`Prog.wp p post fail s` says that `p` ends from `s`, with a value and a state in
`post` or with an error and a state in `fail`.  The rules take a program apart:
`wp_bind` at each semicolon, `wp_attempt` where a status is looked at, `wp_onFst`
where a program runs on a part of the state.  `wp_mono` is the rule of
consequence, by which the specification of a function is used at its calls.
-/
import Mathlib

namespace TestOs.Library

set_option autoImplicit false

/-- A program over `σ` with errors in `ε`; `none` when it does not end. -/
def Prog (σ ε α : Type) : Type := σ → Option (Except ε α × σ)

namespace Prog

variable {σ τ ε α β : Type}

instance : Monad (Prog σ ε) where
  pure a := fun s => some (.ok a, s)
  bind p f := fun s =>
    match p s with
    | none => none
    | some (.ok a, t) => f a t
    | some (.error e, t) => some (.error e, t)

/-- The state. -/
def state : Prog σ ε σ := fun s => some (.ok s, s)

/-- A store to the state. -/
def update (f : σ → σ) : Prog σ ε Unit := fun s => some (.ok (), f s)

/-- End with an error. -/
def fail (e : ε) : Prog σ ε α := fun s => some (.error e, s)

/-- Run `p` and look at how it ended. -/
def attempt (p : Prog σ ε α) : Prog σ ε (Except ε α) := fun s =>
  (p s).map fun (r, t) => (.ok r, t)

/-- Never end. -/
def halt : Prog σ ε α := fun _ => none

/-- Go on only if `c` holds. -/
def ensure (c : Prop) [Decidable c] : Prog σ ε Unit := if c then pure () else halt

/-- Run `p` on the first part of the state. -/
def onFst (p : Prog σ ε α) : Prog (σ × τ) ε α := fun s =>
  (p s.1).map fun (r, t) => (r, (t, s.2))

/-- Run `p` with a second part of the state, which is handed back with its value. -/
def withSnd (x : τ) (p : Prog (σ × τ) ε α) : Prog σ ε (α × τ) := fun s =>
  (p (s, x)).map fun (r, (t, y)) => (r.map fun a => (a, y), t)

/-- `body i`, `body (i + 1)` and so on, `count` times. -/
def forUp (body : Nat → Prog σ ε Unit) : Nat → Nat → Prog σ ε Unit
  | 0, _ => pure ()
  | count + 1, i => do
      body i
      forUp body count (i + 1)

/-! ## Weakest preconditions -/

/-- `p` ends from `s`, in `post` with a value or in `fail` with an error. -/
def wp (p : Prog σ ε α) (post : α → σ → Prop) (fail : ε → σ → Prop) (s : σ) : Prop :=
  match p s with
  | none => False
  | some (.ok a, t) => post a t
  | some (.error e, t) => fail e t

variable {p : Prog σ ε α} {post post' : α → σ → Prop} {onFail onFail' : ε → σ → Prop} {s : σ}

/-- The rule of consequence. -/
theorem wp_mono (holds : wp p post onFail s) (values : ∀ a t, post a t → post' a t)
    (errors : ∀ e t, onFail e t → onFail' e t) : wp p post' onFail' s := by
  unfold wp at *
  split at holds
  · exact holds
  · exact values _ _ holds
  · exact errors _ _ holds

/-- What is proved of all runs apart holds together. -/
theorem wp_and (left : wp p post onFail s) (right : wp p post' onFail' s) :
    wp p (fun a t => post a t ∧ post' a t) (fun e t => onFail e t ∧ onFail' e t) s := by
  unfold wp at *
  split <;> rename_i result <;> rw [result] at left right
  · exact left
  · exact ⟨left, right⟩
  · exact ⟨left, right⟩

theorem wp_iff_run : wp p post onFail s ↔
    (∃ a t, p s = some (.ok a, t) ∧ post a t) ∨ ∃ e t, p s = some (.error e, t) ∧ onFail e t := by
  unfold wp
  split <;> rename_i result <;> simp [result]

/-- A program that never fails ends with a value. -/
theorem wp_run (holds : wp p post (fun _ _ => False) s) : ∃ a t, p s = some (.ok a, t) ∧ post a t := by
  rcases wp_iff_run.1 holds with value | ⟨_, _, _, never⟩
  · exact value
  · exact never.elim

/-- A program that runs like two others runs like them with whatever follows. -/
theorem then_congr_run {γ : Type} {first : Prog σ ε β} {second : Prog σ ε α} {rest : Prog σ ε γ}
    {t : σ} (same : p s = (first >>= fun _ => second) t) :
    (p >>= fun _ => rest) s = (first >>= fun _ => second >>= fun _ => rest) t := by
  simp only [bind] at same ⊢
  rw [same]
  cases first t with
  | none => rfl
  | some result =>
      obtain ⟨r, u⟩ := result
      cases r <;> rfl

theorem bind_ok {f : α → Prog σ ε β} {a : α} {t : σ} (run : p s = some (.ok a, t)) :
    (p >>= f) s = f a t := by
  simp only [bind, run]

theorem ensure_ok {c : Prop} [Decidable c] (holds : c) :
    (ensure c : Prog σ ε Unit) s = some (.ok (), s) := by
  unfold ensure
  rw [if_pos holds]
  rfl

theorem bind_none {f : α → Prog σ ε β} (run : p s = none) : (p >>= f) s = none := by
  simp only [bind, run]

theorem bind_bind_ok {γ : Type} {f : α → Prog σ ε β} {g : β → Prog σ ε γ} {a : α} {t : σ}
    (run : p s = some (.ok a, t)) : ((p >>= f) >>= g) s = (f a >>= g) t := by
  simp only [bind, run]

theorem bind_pure_run : (p >>= pure) s = p s := by
  simp only [bind]
  cases p s with
  | none => rfl
  | some result =>
      obtain ⟨r, t⟩ := result
      cases r <;> rfl

/-- A value that is only wrapped up on its way. -/
theorem bind_wrap {γ : Type} {f : α → β} {g : β → Prog σ ε γ} :
    ((p >>= fun a => pure (f a)) >>= g) s = (p >>= fun a => g (f a)) s := by
  simp only [bind]
  cases p s with
  | none => rfl
  | some result =>
      obtain ⟨r, t⟩ := result
      cases r <;> rfl

@[simp] theorem wp_pure (a : α) : wp (pure a : Prog σ ε α) post onFail s ↔ post a s := Iff.rfl

@[simp] theorem wp_bind (f : α → Prog σ ε β) (post : β → σ → Prop) :
    wp (p >>= f) post onFail s ↔ wp p (fun a t => wp (f a) post onFail t) onFail s := by
  change (match (p >>= f) s with
    | none => False
    | some (.ok a, t) => post a t
    | some (.error e, t) => onFail e t) ↔ _
  unfold wp
  simp only [bind]
  cases p s with
  | none => exact Iff.rfl
  | some result =>
      obtain ⟨r, t⟩ := result
      cases r <;> exact Iff.rfl

@[simp] theorem wp_state (post : σ → σ → Prop) :
    wp (state : Prog σ ε σ) post onFail s ↔ post s s := Iff.rfl

@[simp] theorem wp_update (f : σ → σ) (post : Unit → σ → Prop) :
    wp (update f : Prog σ ε Unit) post onFail s ↔ post () (f s) := Iff.rfl

@[simp] theorem wp_fail (e : ε) : wp (fail e : Prog σ ε α) post onFail s ↔ onFail e s := Iff.rfl

@[simp] theorem wp_halt : wp (halt : Prog σ ε α) post onFail s ↔ False := Iff.rfl

@[simp] theorem wp_attempt (post : Except ε α → σ → Prop) :
    wp (attempt p) post onFail s ↔
      wp p (fun a t => post (.ok a) t) (fun e t => post (.error e) t) s := by
  unfold wp attempt
  cases p s with
  | none => exact Iff.rfl
  | some result =>
      obtain ⟨r, t⟩ := result
      cases r <;> exact Iff.rfl

@[simp] theorem wp_ensure (c : Prop) [Decidable c] (post : Unit → σ → Prop) :
    wp (ensure c : Prog σ ε Unit) post onFail s ↔ c ∧ post () s := by
  unfold ensure
  split <;> rename_i holds <;> simp [holds]

@[simp] theorem wp_onFst {x : τ} (post : α → σ × τ → Prop) (onFail : ε → σ × τ → Prop) :
    wp (onFst p) post onFail (s, x) ↔
      wp p (fun a t => post a (t, x)) (fun e t => onFail e (t, x)) s := by
  unfold wp onFst
  cases p s with
  | none => exact Iff.rfl
  | some result =>
      obtain ⟨r, t⟩ := result
      cases r <;> exact Iff.rfl

@[simp] theorem wp_withSnd {x : τ} {p : Prog (σ × τ) ε α} (post : α × τ → σ → Prop) :
    wp (withSnd x p) post onFail s ↔
      wp p (fun a t => post (a, t.2) t.1) (fun e t => onFail e t.1) (s, x) := by
  unfold wp withSnd
  cases p (s, x) with
  | none => exact Iff.rfl
  | some result =>
      obtain ⟨r, t⟩ := result
      cases r <;> exact Iff.rfl

/-- Both branches of a conditional. -/
theorem wp_ite {c : Prop} [Decidable c] {q : Prog σ ε α} :
    wp (if c then p else q) post onFail s ↔
      (c → wp p post onFail s) ∧ (¬ c → wp q post onFail s) := by
  split <;> rename_i holds <;> simp [holds]

end Prog

end TestOs.Library
