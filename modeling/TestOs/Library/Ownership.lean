/-
# Library.Ownership -- programs that allocate and free

An allocator hands out blocks, and each block may be freed once.  An `Owner` is a
program whose state has, next to the state of the machine, the blocks that are
live, and which stops at a free of anything else (`Stop.badFree`).  The results of
its functions are statuses, because code that frees on its error exits looks at them.

The blocks are there for the frees alone, so such a program does what another one
without them does, until it stops.  `Mirrors p q owned lost` says that `p` does not
stop, ends as `q` does, and what it owns then.  `MirrorsIff sound` says that it does
so exactly under the condition `sound`, and stops at a free otherwise; its rules
follow the text of `p`, so that one derivation gives both directions.
-/
import TestOs.Library.Programs

namespace TestOs.Library

set_option autoImplicit false

/-- The live blocks.  A block that was freed is not handed out again under its number. -/
structure Heap where
  live : Finset Nat
  next : Nat
  fresh : ∀ block ∈ live, block < next

namespace Heap

variable (h : Heap) (block : Nat)

/-- Block `next` has been handed out. -/
def grown : Heap where
  live := insert h.next h.live
  next := h.next + 1
  fresh := by
    intro block inside
    rcases Finset.mem_insert.1 inside with rfl | old
    · exact Nat.lt_succ_self _
    · exact Nat.lt_succ_of_lt (h.fresh block old)

/-- A block has been freed. -/
def without : Heap where
  live := h.live.erase block
  next := h.next
  fresh := fun other inside => h.fresh other (Finset.mem_of_mem_erase inside)

theorem next_not_live : h.next ∉ h.live := fun inside => lt_irrefl _ (h.fresh _ inside)

theorem grown_live : h.next ∈ h.grown.live := Finset.mem_insert_self ..

theorem without_dead : block ∉ (h.without block).live := Finset.notMem_erase block h.live

theorem without_live {h : Heap} {block other : Nat} (live : other ∈ h.live) (apart : other ≠ block) :
    other ∈ (h.without block).live := Finset.mem_erase.2 ⟨apart, live⟩

end Heap

/-- Nothing has been handed out yet. -/
def Heap.empty : Heap where
  live := ∅
  next := 0
  fresh := fun _ inside => (Finset.notMem_empty _ inside).elim

/-- Between `g` and `h` nothing happened to the blocks that `g` had handed out. -/
structure Extends (g h : Heap) : Prop where
  next : g.next ≤ h.next
  live : ∀ block < g.next, block ∈ h.live ↔ block ∈ g.live

namespace Extends

variable {g h k : Heap} {block : Nat}

theorem refl (h : Heap) : Extends h h := ⟨le_rfl, fun _ _ => Iff.rfl⟩

theorem trans (first : Extends g h) (second : Extends h k) : Extends g k := by
  refine ⟨first.next.trans second.next, fun block old => ?_⟩
  exact (second.live block (old.trans_le first.next)).trans (first.live block old)

theorem grown (first : Extends g h) : Extends g h.grown := by
  refine ⟨first.next.trans (Nat.le_succ _), fun block old => ?_⟩
  have apart : block ≠ h.next := (old.trans_le first.next).ne
  rw [← first.live block old]
  exact Finset.mem_insert.trans (or_iff_right apart)

theorem without (first : Extends g h) (new : g.next ≤ block) : Extends g (h.without block) := by
  refine ⟨first.next, fun other old => ?_⟩
  have apart : other ≠ block := (old.trans_le new).ne
  rw [← first.live other old]
  exact Finset.mem_erase.trans (and_iff_right apart)

/-- A live block stays live. -/
theorem keeps (first : Extends g h) (live : block ∈ g.live) : block ∈ h.live :=
  (first.live block (g.fresh block live)).2 live

/-- A block that was freed is not live again. -/
theorem dead (first : Extends g h) (old : block < g.next) (dead : block ∉ g.live) : block ∉ h.live :=
  fun live => dead ((first.live block old).1 live)

end Extends

/-- A block that was handed out after `g` and is live in `h`. -/
structure Owns (g h : Heap) (block : Nat) : Prop where
  new : g.next ≤ block
  live : block ∈ h.live

namespace Owns

variable {g h k : Heap} {block other : Nat}

theorem grown (first : Extends g h) : Owns g h.grown h.next := ⟨first.next, h.grown_live⟩

theorem trans (owns : Owns g h block) (later : Extends h k) : Owns g k block :=
  ⟨owns.new, later.keeps owns.live⟩

/-- The block was handed out even after `f`. -/
theorem since {f : Heap} (owns : Owns g h block) (earlier : Extends f g) : Owns f h block :=
  ⟨earlier.next.trans owns.new, owns.live⟩

/-- It is none of the older blocks. -/
theorem ne (owns : Owns g h block) (old : other < g.next) : other ≠ block := (old.trans_le owns.new).ne

end Owns

/-- Why a program stops for good. -/
inductive Stop where
  | badFree
  deriving DecidableEq

/-- A program over `σ` and the blocks. -/
abbrev Owner (σ : Type) : Type → Type := Prog (σ × Heap) Stop

variable {σ ε α β γ : Type}

namespace Owner

open Prog

/-- A function without a status, which neither allocates nor frees. -/
def call (q : Prog σ ε α) : Owner σ α := fun (s, h) =>
  match q s with
  | some (.ok a, t) => some (.ok a, (t, h))
  | _ => none

/-- The allocator's part of an allocation that succeeds. -/
def newBlock : Owner σ Nat := fun (s, h) => some (.ok h.next, (s, h.grown))

/-- `free`; a NULL is not the address of a block. -/
def free : Option Nat → Owner σ Unit
  | none => fail .badFree
  | some block => fun (s, h) =>
      if block ∈ h.live then some (.ok (), (s, h.without block)) else some (.error .badFree, (s, h))

/-- `if (block != NULL) free(block)`. -/
def freeUnlessNull : Option Nat → Owner σ Unit
  | none => pure ()
  | some block => free (some block)

/-- `p` stops at a free that is none. -/
def FreesBadly (p : Owner σ α) (x : σ × Heap) : Prop := ∃ y, p x = some (.error .badFree, y)

instance (p : Owner σ α) (x : σ × Heap) : Decidable (FreesBadly p x) :=
  match run : p x with
  | some (.error .badFree, y) => isTrue ⟨y, run⟩
  | none => isFalse fun ⟨_, stops⟩ => nomatch run.symm.trans stops
  | some (.ok _, _) => isFalse fun ⟨_, stops⟩ => nomatch run.symm.trans stops

/-- `q` has no status. -/
def NeverFails (q : Prog σ ε α) : Prop := ∀ s e t, q s ≠ some (.error e, t)

/-- From `s` and `h` on, `p` ends as `q` does: with a value and `owned`, or with an error
and `lost`. -/
def Mirrors (p : Owner σ (Except ε β)) (q : Prog σ ε α) (owned : α → β → Heap → Prop)
    (lost : Heap → Prop) (s : σ) (h : Heap) : Prop :=
  match q s with
  | none => p (s, h) = none
  | some (.ok a, t) => ∃ b k, p (s, h) = some (.ok (.ok b), (t, k)) ∧ owned a b k
  | some (.error e, t) => ∃ k, p (s, h) = some (.ok (.error e), (t, k)) ∧ lost k

/-- `p` ends as `q` does if `sound`, and stops at a free that is none if not. -/
structure MirrorsIff (sound : Prop) (p : Owner σ (Except ε β)) (q : Prog σ ε α)
    (owned : α → β → Heap → Prop) (lost : Heap → Prop) (s : σ) (h : Heap) : Prop where
  mirrors : sound → Mirrors p q owned lost s h
  frees : ¬ sound → FreesBadly p (s, h)

/-! ## Programs without a status -/

section NeverFails

variable {q : Prog σ ε α} {g : α → Prog σ ε β}

theorem NeverFails.of_wp {post : α → σ → Prop} (holds : ∀ s, wp q post (fun _ _ => False) s) :
    NeverFails q := by
  intro s e t run
  have never := holds s
  unfold wp at never
  rw [run] at never
  exact never

theorem neverFails_pure (a : α) : NeverFails (pure a : Prog σ ε α) := fun _ _ _ run => nomatch run

theorem neverFails_state : NeverFails (state : Prog σ ε σ) := fun _ _ _ run => nomatch run

theorem neverFails_halt : NeverFails (halt : Prog σ ε α) := fun _ _ _ run => nomatch run

theorem neverFails_ensure (c : Prop) [Decidable c] : NeverFails (ensure c : Prog σ ε Unit) := by
  unfold ensure
  split
  · exact neverFails_pure ()
  · exact neverFails_halt

theorem neverFails_attempt (q : Prog σ ε α) : NeverFails (attempt q) := by
  intro s e t run
  unfold attempt at run
  cases ends : q s with
  | none =>
    rw [ends] at run
    cases run
  | some result =>
    rw [ends] at run
    cases run

theorem NeverFails.bind (first : NeverFails q) (rest : ∀ a, NeverFails (g a)) : NeverFails (q >>= g) := by
  intro s e t run
  simp only [Bind.bind] at run
  split at run
  · cases run
  · exact rest _ _ _ _ run
  · next failed =>
    cases run
    exact first _ _ _ failed

end NeverFails

/-! ## Rules -/

section Rules

variable {s t : σ} {h k : Heap} {p p' : Owner σ (Except ε β)} {q q' : Prog σ ε α}
  {owned owned' : α → β → Heap → Prop} {lost lost' : Heap → Prop} {sound sound' : Prop} {block : Nat}

theorem free_of_live (live : block ∈ h.live) :
    free (some block) (s, h) = some (.ok (), (s, h.without block)) := if_pos live

theorem free_of_dead (dead : block ∉ h.live) : FreesBadly (free (some block)) (s, h) := ⟨_, if_neg dead⟩

theorem free_null : FreesBadly (free none) (s, h) := ⟨_, rfl⟩

theorem call_ok {q : Prog σ ε γ} {c : γ} (run : q s = some (.ok c, t)) :
    call q (s, h) = some (.ok c, (t, h)) := by
  unfold call
  simp only [run]

theorem call_none {q : Prog σ ε γ} (ends : q s = none) : call q (s, h) = none := by
  unfold call
  simp only [ends]

/-- A pointer that is NULL or owned is freed, and no other block with it. -/
theorem freeUnlessNull_run {g : Heap} {pointer : Option Nat} (extends_ : Extends g h)
    (owns : ∀ block, pointer = some block → Owns g h block) :
    ∃ k, freeUnlessNull pointer (s, h) = some (.ok (), (s, k)) ∧ Extends g k ∧
      ∀ other ∈ h.live, pointer ≠ some other → other ∈ k.live := by
  cases pointer with
  | none => exact ⟨h, rfl, extends_, fun _ live _ => live⟩
  | some block =>
    have mine := owns block rfl
    refine ⟨h.without block, free_of_live mine.live, extends_.without mine.new, fun other live apart => ?_⟩
    exact Heap.without_live live fun same => apart (same ▸ rfl)

/-- It stops at the first of two parts. -/
theorem FreesBadly.bind {first : Owner σ γ} {cont : γ → Owner σ β} {x : σ × Heap}
    (stops : FreesBadly first x) : FreesBadly (first >>= cont) x := by
  obtain ⟨y, run⟩ := stops
  exact ⟨y, by simp only [Bind.bind, run]⟩

/-- It stops at the second one. -/
theorem FreesBadly.after {first : Owner σ γ} {cont : γ → Owner σ β} {x y : σ × Heap} {a : γ}
    (step : first x = some (.ok a, y)) (stops : FreesBadly (cont a) y) : FreesBadly (first >>= cont) x := by
  obtain ⟨z, run⟩ := stops
  exact ⟨z, (bind_ok step).trans run⟩

/-- What mirrors a program does not stop. -/
theorem Mirrors.safe (mirrors : Mirrors p q owned lost s h) : ¬ FreesBadly p (s, h) := by
  rintro ⟨y, stops⟩
  unfold Mirrors at mirrors
  split at mirrors
  · rw [stops] at mirrors
    cases mirrors
  · obtain ⟨b, k, run, -⟩ := mirrors
    rw [stops] at run
    cases run
  · obtain ⟨k, run, -⟩ := mirrors
    rw [stops] at run
    cases run

theorem MirrorsIff.safe_iff (holds : MirrorsIff sound p q owned lost s h) :
    ¬ FreesBadly p (s, h) ↔ sound := by
  constructor
  · exact fun safe => Classical.not_not.1 (mt holds.frees safe)
  · exact fun here => (holds.mirrors here).safe

theorem Mirrors.value (mirrors : Mirrors p q owned lost s h) {a : α} (run : q s = some (.ok a, t)) :
    ∃ b k, p (s, h) = some (.ok (.ok b), (t, k)) ∧ owned a b k := by
  unfold Mirrors at mirrors
  rw [run] at mirrors
  exact mirrors

theorem Mirrors.error (mirrors : Mirrors p q owned lost s h) {e : ε} (run : q s = some (.error e, t)) :
    ∃ k, p (s, h) = some (.ok (.error e), (t, k)) ∧ lost k := by
  unfold Mirrors at mirrors
  rw [run] at mirrors
  exact mirrors

theorem MirrorsIff.congr (same : sound' ↔ sound) (holds : MirrorsIff sound p q owned lost s h) :
    MirrorsIff sound' p q owned lost s h :=
  ⟨fun here => holds.mirrors (same.1 here), fun fails => holds.frees (mt same.2 fails)⟩

/-- A program that never stops. -/
theorem Mirrors.always (mirrors : Mirrors p q owned lost s h) : MirrorsIff True p q owned lost s h :=
  ⟨fun _ => mirrors, fun never => (never trivial).elim⟩

/-- A program that stops in any case. -/
theorem FreesBadly.always (stops : FreesBadly p (s, h)) : MirrorsIff False p q owned lost s h :=
  ⟨False.elim, fun _ => stops⟩

theorem mirrors_pure {a : α} {b : β} (holds : owned a b h) :
    Mirrors (pure (.ok b) : Owner σ (Except ε β)) (pure a : Prog σ ε α) owned lost s h :=
  ⟨b, h, rfl, holds⟩

theorem mirrors_fail {e : ε} (holds : lost h) :
    Mirrors (pure (.error e) : Owner σ (Except ε β)) (fail e : Prog σ ε α) owned lost s h :=
  ⟨h, rfl, holds⟩

theorem mirrors_halt :
    Mirrors (halt : Owner σ (Except ε β)) (halt : Prog σ ε α) owned lost s h := rfl

/-- The programs run on as others do from other states. -/
theorem Mirrors.step (left : p (s, h) = p' (t, k)) (right : q s = q' t)
    (rest : Mirrors p' q' owned lost t k) : Mirrors p q owned lost s h := by
  unfold Mirrors at rest ⊢
  rw [left, right]
  exact rest

theorem MirrorsIff.step (left : p (s, h) = p' (t, k)) (right : q s = q' t)
    (rest : MirrorsIff sound p' q' owned lost t k) : MirrorsIff sound p q owned lost s h := by
  refine ⟨fun here => (rest.mirrors here).step left right, fun fails => ?_⟩
  obtain ⟨y, stops⟩ := rest.frees fails
  exact ⟨y, left.trans stops⟩

/-- The rule for a free. -/
theorem Mirrors.free (live : block ∈ h.live) (rest : Mirrors p q owned lost s (h.without block)) :
    Mirrors (Owner.free (some block) >>= fun _ => p) q owned lost s h :=
  rest.step (bind_ok (free_of_live live)) rfl

theorem MirrorsIff.free (live : block ∈ h.live)
    (rest : MirrorsIff sound p q owned lost s (h.without block)) :
    MirrorsIff sound (Owner.free (some block) >>= fun _ => p) q owned lost s h :=
  rest.step (bind_ok (free_of_live live)) rfl

variable {α' β' : Type} {owned'' : α' → β' → Heap → Prop}

/-- The rule for a function without a status. -/
theorem mirrors_call {cont : α → Owner σ (Except ε β')} {g : α → Prog σ ε α'} (never : NeverFails q)
    (rest : ∀ a t, q s = some (.ok a, t) → Mirrors (cont a) (g a) owned'' lost t h) :
    Mirrors (call q >>= cont) (q >>= g) owned'' lost s h := by
  cases run : q s with
  | none =>
    unfold Mirrors call
    simp only [Bind.bind, run]
  | some result =>
    obtain ⟨a | a, t⟩ := result
    · exact (never s a t run).elim
    · exact (rest a t run).step (bind_ok (call_ok run)) (bind_ok run)

/-- The rule for a status that is looked at. -/
theorem Mirrors.next {cont : Except ε β → Owner σ (Except ε β')} {g : α → Prog σ ε α'}
    (first : Mirrors p q owned lost s h)
    (value : ∀ a b t k, q s = some (.ok a, t) → owned a b k →
      Mirrors (cont (.ok b)) (g a) owned'' lost' t k)
    (error : ∀ e t k, lost k → Mirrors (cont (.error e)) (fail e : Prog σ ε α') owned'' lost' t k) :
    Mirrors (p >>= cont) (q >>= g) owned'' lost' s h := by
  unfold Mirrors at first
  split at first
  · next run =>
    unfold Mirrors
    simp only [Bind.bind, run, first]
  · next a t run =>
    obtain ⟨b, k, run', holds⟩ := first
    exact (value a b t k run holds).step (bind_ok run') (bind_ok run)
  · next e t run =>
    obtain ⟨k, run', holds⟩ := first
    refine (error e t k holds).step (bind_ok run') ?_
    simp only [Bind.bind, run]
    rfl

/-- Two parts are sound together. -/
theorem MirrorsIff.next {cont : Except ε β → Owner σ (Except ε β')} {g : α → Prog σ ε α'}
    {later : α → σ → Prop} (first : MirrorsIff sound p q owned lost s h)
    (value : ∀ a b t k, q s = some (.ok a, t) → owned a b k →
      MirrorsIff (later a t) (cont (.ok b)) (g a) owned'' lost' t k)
    (error : ∀ e t k, lost k → Mirrors (cont (.error e)) (fail e : Prog σ ε α') owned'' lost' t k) :
    MirrorsIff (sound ∧ ∀ a t, q s = some (.ok a, t) → later a t) (p >>= cont) (q >>= g)
      owned'' lost' s h := by
  constructor
  · rintro ⟨here, there⟩
    exact (first.mirrors here).next
      (fun a b t k run holds => (value a b t k run holds).mirrors (there a t run)) error
  · intro fails
    by_cases here : sound
    · have there : ∃ a t, q s = some (.ok a, t) ∧ ¬ later a t := by
        by_contra none_
        push Not at none_
        exact fails ⟨here, none_⟩
      obtain ⟨a, t, run, fails⟩ := there
      obtain ⟨b, k, run', holds⟩ := (first.mirrors here).value run
      exact ((value a b t k run holds).frees fails).after run'
    · exact (first.frees here).bind

end Rules

end Owner

end TestOs.Library
