/-
# Library.Invariants -- what a program keeps

`Keeps inv p post` is partial correctness with one invariant: from a state in
`inv`, `p` only ends in a state in `inv`, whether with a value or with an error,
and a value is in `post`.  Nothing is said of a program that does not end.

There is one rule for each construct of `Library.Programs`, and they follow the
text of a program, so a proof that a function keeps an invariant goes along the
function.  What is really proved is at the leaves, the programs that touch the
part of the state that the invariant is about.

`Prog.wlp p post fail s` is the same for one state instead of an invariant: if
`p` ends from `s`, it ends in `post` or `fail`.

`Prog.ends total p post s` is partial and total correctness at once: a value is in
`post`, and under the assumption `total`, there is one.  A function that fails for
want of a resource is proved right once, with `total` saying that there is enough.
-/
import TestOs.Library.Programs

namespace TestOs.Library

set_option autoImplicit false

namespace Prog

variable {σ τ ε α β : Type} {inv : σ → Prop} {inv' : τ → Prop} {p : Prog σ ε α}
  {post post' : α → Prop} {next : β → Prop}

/-- From a state in `inv`, `p` only ends in `inv`, and with a value in `post`. -/
def Keeps (inv : σ → Prop) (p : Prog σ ε α) (post : α → Prop) : Prop :=
  ∀ s r t, inv s → p s = some (r, t) → inv t ∧ ∀ a, r = .ok a → post a

/-- No more is asked of the value. -/
abbrev Preserves (inv : σ → Prop) (p : Prog σ ε α) : Prop := Keeps inv p fun _ => True

theorem Keeps.mono (keeps : Keeps inv p post) (weaker : ∀ a, post a → post' a) :
    Keeps inv p post' := by
  intro s r t start run
  obtain ⟨kept, value⟩ := keeps s r t start run
  exact ⟨kept, fun a same => weaker a (value a same)⟩

theorem Keeps.preserves (keeps : Keeps inv p post) : Preserves inv p :=
  keeps.mono fun _ _ => trivial

/-- A total specification says more. -/
theorem keeps_of_wp (spec : ∀ s, inv s → wp p (fun a t => inv t ∧ post a) (fun _ t => inv t) s) :
    Keeps inv p post := by
  intro s r t start run
  rcases wp_iff_run.1 (spec s start) with ⟨a, u, run', kept, value⟩ | ⟨e, u, run', kept⟩
  · rw [run] at run'
    cases run'
    exact ⟨kept, fun _ same => by cases same; exact value⟩
  · rw [run] at run'
    cases run'
    exact ⟨kept, fun _ same => by cases same⟩

theorem keeps_pure {a : α} (holds : post a) : Keeps inv (pure a : Prog σ ε α) post := by
  rintro s r t start run
  cases run
  exact ⟨start, fun _ same => by cases same; exact holds⟩

theorem Keeps.bind {f : α → Prog σ ε β} (first : Keeps inv p post)
    (rest : ∀ a, post a → Keeps inv (f a) next) : Keeps inv (p >>= f) next := by
  intro s r t start run
  simp only [Bind.bind] at run
  split at run
  · cases run
  · rename_i a u result
    obtain ⟨kept, value⟩ := first s _ u start result
    exact rest a (value a rfl) u r t kept run
  · rename_i e u result
    cases run
    exact ⟨(first s _ t start result).1, fun _ same => by cases same⟩

/-- The rule for a semicolon whose value is not looked at. -/
theorem Keeps.then {q : Prog σ ε β} (first : Keeps inv p post) (rest : Keeps inv q next) :
    Keeps inv (p >>= fun _ => q) next := first.bind fun _ _ => rest

theorem keeps_state : Keeps inv (state : Prog σ ε σ) inv := by
  intro s r t start run
  cases run
  exact ⟨start, fun _ same => by cases same; exact start⟩

theorem keeps_update {f : σ → σ} (step : ∀ s, inv s → inv (f s)) :
    Preserves inv (update f : Prog σ ε Unit) := by
  intro s r t start run
  cases run
  exact ⟨step s start, fun _ _ => trivial⟩

theorem keeps_fail {e : ε} : Keeps inv (fail e : Prog σ ε α) post := by
  intro s r t start run
  cases run
  exact ⟨start, fun _ same => by cases same⟩

theorem keeps_halt : Keeps inv (halt : Prog σ ε α) post := by
  intro s r t start run
  cases run

theorem keeps_ensure {c : Prop} [Decidable c] : Keeps inv (ensure c : Prog σ ε Unit) fun _ => c := by
  unfold ensure
  by_cases holds : c
  · rw [if_pos holds]
    exact keeps_pure holds
  · rw [if_neg holds]
    exact keeps_halt

theorem Keeps.ite {c : Prop} [Decidable c] {q : Prog σ ε α} (left : c → Keeps inv p post)
    (right : ¬ c → Keeps inv q post) : Keeps inv (if c then p else q) post := by
  by_cases holds : c
  · rw [if_pos holds]
    exact left holds
  · rw [if_neg holds]
    exact right holds

theorem Keeps.attempt (keeps : Keeps inv p post) :
    Keeps inv (attempt p) fun r => ∀ a, r = .ok a → post a := by
  intro s r t start run
  unfold Prog.attempt at run
  obtain ⟨⟨r', t'⟩, result, same⟩ := Option.map_eq_some_iff.1 run
  cases same
  obtain ⟨kept, value⟩ := keeps s r' t start result
  exact ⟨kept, fun _ same => by cases same; exact value⟩

theorem forUp_keeps {body : Nat → Prog σ ε Unit} (keeps : ∀ i, Preserves inv (body i))
    (count i : Nat) : Preserves inv (forUp body count i) := by
  induction count generalizing i with
  | zero => exact keeps_pure trivial
  | succ count ih => exact (keeps i).then (ih (i + 1))

/-- A program on the first part of the state leaves the second as it is. -/
theorem Keeps.onFst (keeps : Keeps inv p post) :
    Keeps (fun s : σ × τ => inv s.1 ∧ inv' s.2) (onFst p) post := by
  rintro ⟨s, x⟩ r t ⟨start, second⟩ run
  unfold Prog.onFst at run
  obtain ⟨⟨r', t'⟩, result, same⟩ := Option.map_eq_some_iff.1 run
  cases same
  obtain ⟨kept, value⟩ := keeps s r t' start result
  exact ⟨⟨kept, second⟩, value⟩

theorem Keeps.withSnd {x : τ} {p : Prog (σ × τ) ε α}
    (keeps : Keeps (fun s : σ × τ => inv s.1 ∧ inv' s.2) p post) (second : inv' x) :
    Keeps inv (withSnd x p) fun r => post r.1 ∧ inv' r.2 := by
  intro s r t start run
  unfold Prog.withSnd at run
  obtain ⟨⟨r', t', y⟩, result, same⟩ := Option.map_eq_some_iff.1 run
  cases same
  obtain ⟨⟨kept, second'⟩, value⟩ := keeps (s, x) r' (t, y) ⟨start, second⟩ result
  refine ⟨kept, fun a same => ?_⟩
  cases r' with
  | error e => cases same
  | ok b =>
      cases same
      exact ⟨value b rfl, second'⟩

theorem Keeps.fst (keeps : Keeps inv p post) :
    Keeps (fun s : σ × τ => inv s.1) (Prog.onFst p) post := by
  rintro ⟨s, x⟩ r t start run
  obtain ⟨⟨r', t'⟩, result, same⟩ := Option.map_eq_some_iff.1 run
  cases same
  exact keeps s r t' start result

/-- A program on the first part of the state keeps what is said of the second. -/
theorem onFst_keeps {p : Prog σ ε α} : Preserves (fun s : σ × τ => inv' s.2) (onFst p) := by
  rintro ⟨s, x⟩ r t start run
  obtain ⟨⟨r', t'⟩, result, same⟩ := Option.map_eq_some_iff.1 run
  cases same
  exact ⟨start, fun _ _ => trivial⟩

/-! ## Partial correctness from one state -/

/-- If `p` ends from `s`, then in `post` with a value or in `fail` with an error. -/
def wlp (p : Prog σ ε α) (post : α → σ → Prop) (fail : ε → σ → Prop) (s : σ) : Prop :=
  match p s with
  | none => True
  | some (.ok a, t) => post a t
  | some (.error e, t) => fail e t

section Partial

variable {values values' : α → σ → Prop} {errors errors' : ε → σ → Prop} {s t : σ}

theorem wlp_mono (holds : wlp p values errors s) (valuesTo : ∀ a t, values a t → values' a t)
    (errorsTo : ∀ e t, errors e t → errors' e t) : wlp p values' errors' s := by
  unfold wlp at *
  split at holds
  · exact trivial
  · exact valuesTo _ _ holds
  · exact errorsTo _ _ holds

theorem wlp_of_forall (value : ∀ a t, values a t) (error : ∀ e t, errors e t) :
    wlp p values errors s := by
  unfold wlp
  split
  · exact trivial
  · exact value _ _
  · exact error _ _

/-- It is about the run, not the text. -/
theorem wlp_of_run {q : Prog σ ε α} (holds : wlp q values errors t) (same : p s = q t) :
    wlp p values errors s := by
  unfold wlp at *
  rwa [same]

theorem wlp_ok (holds : wlp p values errors s) {a : α} (run : p s = some (.ok a, t)) :
    values a t := by
  unfold wlp at holds
  rwa [run] at holds

theorem wlp_error (holds : wlp p values errors s) {e : ε} (run : p s = some (.error e, t)) :
    errors e t := by
  unfold wlp at holds
  rwa [run] at holds

theorem Keeps.wlp (keeps : Keeps inv p post) (start : inv s) :
    wlp p (fun a t => inv t ∧ post a) (fun _ t => inv t) s := by
  unfold Prog.wlp
  cases result : p s with
  | none => exact trivial
  | some ended =>
      obtain ⟨r, t⟩ := ended
      obtain ⟨kept, value⟩ := keeps s r t start result
      cases r with
      | ok a => exact ⟨kept, value a rfl⟩
      | error e => exact kept

/-- What ends in one way or the other ends there if it ends. -/
theorem wlp_of_wp (total : wp p values errors s) (valuesTo : ∀ a t, values a t → values' a t)
    (errorsTo : ∀ e t, errors e t → errors' e t) : wlp p values' errors' s := by
  rcases wp_iff_run.1 total with ⟨a, t, run, holds⟩ | ⟨e, t, run, holds⟩
  · unfold wlp
    rw [run]
    exact valuesTo a t holds
  · unfold wlp
    rw [run]
    exact errorsTo e t holds

theorem wlp_pure {a : α} : wlp (pure a : Prog σ ε α) values errors s ↔ values a s := Iff.rfl

theorem wlp_state {values : σ → σ → Prop} :
    wlp (state : Prog σ ε σ) values errors s ↔ values s s := Iff.rfl

theorem wlp_update {f : σ → σ} {values : Unit → σ → Prop} :
    wlp (update f : Prog σ ε Unit) values errors s ↔ values () (f s) := Iff.rfl

theorem wlp_fail {e : ε} : wlp (fail e : Prog σ ε α) values errors s ↔ errors e s := Iff.rfl

theorem wlp_bind {f : α → Prog σ ε β} {values : β → σ → Prop} :
    wlp (p >>= f) values errors s ↔ wlp p (fun a t => wlp (f a) values errors t) errors s := by
  change (match (p >>= f) s with
    | none => True
    | some (.ok a, t) => values a t
    | some (.error e, t) => errors e t) ↔ _
  unfold wlp
  simp only [bind]
  cases p s with
  | none => exact Iff.rfl
  | some result =>
      obtain ⟨r, t⟩ := result
      cases r <;> exact Iff.rfl

theorem wlp_attempt {values : Except ε α → σ → Prop} :
    wlp (attempt p) values errors s ↔
      wlp p (fun a t => values (.ok a) t) (fun e t => values (.error e) t) s := by
  unfold wlp attempt
  cases p s with
  | none => exact Iff.rfl
  | some result =>
      obtain ⟨r, t⟩ := result
      cases r <;> exact Iff.rfl

theorem wlp_ite {c : Prop} [Decidable c] {q : Prog σ ε α} :
    wlp (if c then p else q) values errors s ↔
      (c → wlp p values errors s) ∧ (¬ c → wlp q values errors s) := by
  split <;> rename_i holds <;> simp [holds]

theorem wlp_ensure {c : Prop} [Decidable c] {values : Unit → σ → Prop} :
    wlp (ensure c : Prog σ ε Unit) values errors s ↔ (c → values () s) := by
  unfold ensure
  split <;> rename_i holds
  · simp [holds, wlp_pure]
  · simp only [holds, false_implies, iff_true]
    exact trivial

theorem wlp_onFst {x : τ} {values : α → σ × τ → Prop} {errors : ε → σ × τ → Prop} :
    wlp (onFst p) values errors (s, x) ↔
      wlp p (fun a t => values a (t, x)) (fun e t => errors e (t, x)) s := by
  unfold wlp onFst
  cases p s with
  | none => exact Iff.rfl
  | some result =>
      obtain ⟨r, t⟩ := result
      cases r <;> exact Iff.rfl

theorem wlp_withSnd {x : τ} {p : Prog (σ × τ) ε α} {values : α × τ → σ → Prop} :
    wlp (withSnd x p) values errors s ↔
      wlp p (fun a t => values (a, t.2) t.1) (fun e t => errors e t.1) (s, x) := by
  unfold wlp withSnd
  cases p (s, x) with
  | none => exact Iff.rfl
  | some result =>
      obtain ⟨r, t⟩ := result
      cases r <;> exact Iff.rfl

theorem wlp_halt : wlp (halt : Prog σ ε α) values errors s := trivial

end Partial

/-! ## Correctness that is total under an assumption -/

/-- A value is in `post`, and if `total`, `p` ends with one. -/
def ends (total : Prop) (p : Prog σ ε α) (post : α → σ → Prop) (s : σ) : Prop :=
  (total → wp p post (fun _ _ => False) s) ∧ (¬ total → wlp p post (fun _ _ => True) s)

section Ends

variable {total : Prop} {values values' : α → σ → Prop} {s : σ}

theorem ends_of_wp (holds : wp p values (fun _ _ => False) s)
    (valuesTo : ∀ a t, values a t → values' a t) : ends total p values' s :=
  ⟨fun _ => wp_mono holds valuesTo (fun _ _ never => never),
    fun _ => wlp_of_wp holds valuesTo (fun _ _ _ => trivial)⟩

theorem ends_mono (holds : ends total p values s) (valuesTo : ∀ a t, values a t → values' a t) :
    ends total p values' s :=
  ⟨fun enough => wp_mono (holds.1 enough) valuesTo (fun _ _ never => never),
    fun short => wlp_mono (holds.2 short) valuesTo (fun _ _ _ => trivial)⟩

/-- It is partial correctness in any case. -/
theorem ends.wlp (holds : ends total p values s) : wlp p values (fun _ _ => True) s := by
  by_cases enough : total
  · exact wlp_of_wp (holds.1 enough) (fun _ _ same => same) (fun _ _ _ => trivial)
  · exact holds.2 enough

/-- Under the assumption there is a run. -/
theorem ends.run (holds : ends total p values s) (enough : total) :
    ∃ a t, p s = some (.ok a, t) ∧ values a t := wp_run (holds.1 enough)

theorem ends_pure {a : α} : ends total (pure a : Prog σ ε α) values s ↔ values a s :=
  ⟨fun holds => holds.wlp, fun holds => ⟨fun _ => holds, fun _ => holds⟩⟩

theorem ends_state {values : σ → σ → Prop} :
    ends total (state : Prog σ ε σ) values s ↔ values s s :=
  ⟨fun holds => holds.wlp, fun holds => ⟨fun _ => holds, fun _ => holds⟩⟩

theorem ends_update {f : σ → σ} {values : Unit → σ → Prop} :
    ends total (update f : Prog σ ε Unit) values s ↔ values () (f s) :=
  ⟨fun holds => holds.wlp, fun holds => ⟨fun _ => holds, fun _ => holds⟩⟩

theorem ends_fail {e : ε} : ends total (fail e : Prog σ ε α) values s ↔ ¬ total :=
  ⟨fun holds => holds.1, fun short => ⟨short, fun _ => trivial⟩⟩

theorem ends_halt : ends total (halt : Prog σ ε α) values s ↔ ¬ total :=
  ⟨fun holds => holds.1, fun short => ⟨short, fun _ => trivial⟩⟩

theorem ends_bind {f : α → Prog σ ε β} {values : β → σ → Prop} :
    ends total (p >>= f) values s ↔ ends total p (fun a t => ends total (f a) values t) s := by
  by_cases enough : total
  · simp only [ends, enough, true_implies, not_true, false_implies, and_true, wp_bind]
  · simp only [ends, enough, false_implies, not_false_eq_true, true_implies, true_and, wlp_bind]

theorem ends_onFst {x : τ} {values : α → σ × τ → Prop} :
    ends total (onFst p) values (s, x) ↔ ends total p (fun a t => values a (t, x)) s := by
  unfold ends
  rw [wp_onFst, wlp_onFst]

end Ends

end Prog

end TestOs.Library
