/-
# Threads.LockDiscipline -- who unlocks thread_lock

`pe_unlock` clears the word without a look at who set it.  A thread that moves
itself off RUNNING unlocks before its `thread_yield` and, when it runs again,
unlocks a second time at the end of the function: by then the lock may be
another thread's.  `lock_discipline_iff` says that this is the only way: along
every run, every `pe_unlock` is by the holder exactly when no thread comes back
from that `thread_yield`.
-/
import TestOs.Threads.Preemption

namespace TestOs.Threads

open TestOs.Library

set_option autoImplicit false

/-- The next statement is a `pe_unlock`. -/
def Pc.Unlocks : Pc → Prop
  | .selfUnlock | .comeBack | .unlock | .waitUnlock _ => True
  | _ => False

/-- The same as a value. -/
def Pc.unlocksNext : Pc → Bool
  | .selfUnlock | .comeBack | .unlock | .waitUnlock _ => true
  | _ => false

theorem Pc.unlocksNext_iff (pc : Pc) : pc.unlocksNext = true ↔ pc.Unlocks := by
  cases pc <;> simp [Pc.unlocksNext, Pc.Unlocks]

instance (pc : Pc) : Decidable pc.Unlocks := decidable_of_iff _ pc.unlocksNext_iff

namespace Cpu

/-- The thread that executes its next statement in this step, if it is not the cleaner. -/
def runner (s : Cpu) : Act → Option Ptr
  | .go => s.kernel.currentThread.filter fun c => c ≠ s.cleaner
  | _ => none

/-- A `pe_unlock` in this step is by the thread that took the lock last. -/
def UnlocksOwn (s : Cpu) (act : Act) : Prop :=
  ∀ c ∈ s.runner act, (s.pc c).Unlocks → s.holder = some c

/-- A thread goes on behind the `thread_yield` with which it left RUNNING. -/
def ComesBack (s : Cpu) (act : Act) : Prop :=
  ∃ c ∈ s.runner act, s.pc c = .comeBack

instance (s : Cpu) (act : Act) : Decidable (s.UnlocksOwn act) :=
  inferInstanceAs (Decidable (∀ c ∈ s.runner act, (s.pc c).Unlocks → s.holder = some c))

instance (s : Cpu) (act : Act) : Decidable (s.ComesBack act) :=
  inferInstanceAs (Decidable (∃ c ∈ s.runner act, s.pc c = .comeBack))

/-- At most one thread is between `pe_lock` and `pe_unlock`. -/
def Exclusive (s : Cpu) : Prop :=
  ∀ p q, (s.pc p).Guarded → (s.pc q).Guarded → p = q

/-- The threads between `pe_lock` and `pe_unlock` are the holder of the lock. -/
structure LockHeld (s : Cpu) : Prop where
  holder : ∀ p, (s.pc p).Guarded ↔ s.holder = some p
  lock : s.lock = s.holder.isSome

namespace LockHeld

variable {s t : Cpu} {c : Ptr} {act : Act} {pc : Pc}

theorem exclusive (held : s.LockHeld) : s.Exclusive := fun p q first second =>
  Option.some.inj (((held.holder p).1 first).symm.trans ((held.holder q).1 second))

/-- A statement of the holder within the section. -/
theorem within (held : s.LockHeld) (mine : s.holder = some c) (holders : t.holder = s.holder)
    (locks : t.lock = s.lock) (inside : (t.pc c).Guarded)
    (others : ∀ p, p ≠ c → (t.pc p).Guarded → (s.pc p).Guarded) : t.LockHeld where
  holder p := by
    rw [holders, mine]
    constructor
    · intro guarded
      by_contra other
      have apart : p ≠ c := fun same => other (same ▸ rfl)
      have theirs := (held.holder p).1 (others p apart guarded)
      exact other (mine.symm.trans theirs)
    · intro same
      cases same
      exact inside
  lock := by
    rw [locks, holders]
    exact held.lock

/-- A statement that only moves a thread on, within the section or outside of it. -/
theorem move (held : s.LockHeld) (same : pc.Guarded ↔ (s.pc c).Guarded) {k : Kernel} :
    ((s.store k).goto c pc).LockHeld where
  holder p := by
    simp only [goto, store]
    by_cases self : p = c
    · rw [self, Function.update_self, same]
      exact held.holder c
    · rw [Function.update_of_ne self]
      exact held.holder p
  lock := held.lock

theorem take (held : s.LockHeld) (free : s.lock = false) (inside : pc.Guarded) :
    ({ s with lock := true, holder := some c }.goto c pc).LockHeld where
  holder p := by
    have nobody : s.holder = none := by simpa [free] using held.lock
    simp only [goto]
    by_cases self : p = c
    · rw [self, Function.update_self]
      simp [inside]
    · rw [Function.update_of_ne self, held.holder, nobody]
      simp [Ne.symm self]
  lock := rfl

theorem give (held : s.LockHeld) (outside : ¬ pc.Guarded) (mine : s.holder = some c) :
    (s.release.goto c pc).LockHeld where
  holder p := by
    simp only [goto, release]
    by_cases self : p = c
    · rw [self, Function.update_self]
      simp [outside]
    · rw [Function.update_of_ne self, held.holder, mine]
      simp [Ne.symm self]
  lock := rfl

/-- Only the threads' places and the lock matter. -/
theorem congr (held : s.LockHeld) (places : t.pc = s.pc) (holders : t.holder = s.holder)
    (locks : t.lock = s.lock) : t.LockHeld where
  holder p := by
    rw [places, holders]
    exact held.holder p
  lock := by
    rw [locks, holders]
    exact held.lock

/-- One statement of a thread that does not come back. -/
theorem go (held : s.LockHeld) (next : s.go c = some t) (first : s.pc c ≠ .comeBack) :
    t.LockHeld := by
  have mine : (s.pc c).Guarded → s.holder = some c := (held.holder c).1
  cases place : s.pc c <;> rw [place] at mine first <;> simp only [Cpu.go, place] at next
  case idle => cases next
  case lock call =>
      cases next
      split
      · exact held.congr rfl rfl rfl
      · rename_i free
        refine held.take (by simpa using free) ?_
        cases call <;> trivial
  case pickTid new =>
      split at next <;> cases next
      · exact held.move (by rw [place]; exact Iff.rfl)
      · exact held.move (k := s.kernel) (by rw [place]; exact Iff.rfl)
  case fill new tid =>
      cases next
      refine held.within (mine trivial) rfl rfl ?_ fun p other => ?_
      · simp [goto, Pc.Guarded]
      · simp only [goto, store, Function.update_of_ne other]
        by_cases fresh : p = new.node
        · rw [fresh, Function.update_self]
          exact False.elim
        · rw [Function.update_of_ne fresh]
          exact id
  case search goal tid st =>
      cases next
      exact held.move (k := s.kernel) (by rw [place]; exact Iff.rfl)
  case find goal tid st prev node =>
      have inside : ∀ pc : Pc, pc.Guarded → ((s.store s.kernel).goto c pc).LockHeld :=
        fun pc guarded => held.move (by rw [place]; exact iff_of_true guarded trivial)
      cases node with
      | none =>
          cases next
          refine inside _ ?_
          unfold missed
          split
          · split <;> trivial
          · trivial
      | some node =>
          cases next
          refine inside _ ?_
          split
          · cases goal <;> trivial
          · trivial
  case unlink move tid st prev node =>
      cases next
      refine held.move ?_
      rw [place]
      split <;> exact Iff.rfl
  case fix move tid node =>
      have inside : (fixed move tid node).Guarded := by cases move <;> trivial
      cases next
      split
      · refine held.move ?_
        rw [place]
        split
        · exact Iff.rfl
        · exact iff_of_true inside trivial
      · exact held.move (k := s.kernel) (by rw [place]; exact iff_of_true inside trivial)
  case fixHead move tid node =>
      have inside : (fixed move tid node).Guarded := by cases move <;> trivial
      cases next
      exact held.move (by rw [place]; exact iff_of_true inside trivial)
  case giveRef tid node =>
      cases next
      split
      · exact held.move (by rw [place]; exact Iff.rfl)
      · exact held.move (k := s.kernel) (by rw [place]; exact Iff.rfl)
  case setHead dest self node =>
      cases next
      refine held.within (mine trivial) ?_ ?_ ?_ fun p other => ?_
      · cases dest <;> rfl
      · cases dest <;> rfl
      · simp only [goto, Function.update_self]
        split <;> trivial
      · simp only [goto, Function.update_of_ne other]
        cases dest <;> exact id
  case selfUnlock | unlock =>
      cases next
      exact held.give id (mine trivial)
  case selfYield =>
      cases next
      have moved : ((s.store s.kernel).goto c .comeBack).LockHeld :=
        held.move (by rw [place]; exact Iff.rfl)
      exact moved.congr rfl rfl rfl
  case comeBack => exact (first rfl).elim
  case waitUnlock node =>
      cases next
      have given : (s.release.goto c (.poll node)).LockHeld := held.give id (mine trivial)
      exact given.congr rfl rfl rfl
  case poll node =>
      cases next
      split
      · exact held.congr rfl rfl rfl
      · exact held.move (k := s.kernel) (by rw [place]; exact Iff.rfl)
  all_goals
    cases next
    exact held.move (by rw [place]; exact Iff.rfl)

theorem clean (held : s.LockHeld) : s.clean.LockHeld := by
  unfold Cpu.clean
  split <;> exact held.congr rfl rfl rfl

theorem step (held : s.LockHeld) (next : s.step act = some t) (first : ¬ s.ComesBack act) :
    t.LockHeld := by
  cases act with
  | go =>
      simp only [Cpu.step] at next
      split at next
      · cases next
      · rename_i c current
        split at next
        · cases next
          exact held.clean
        · rename_i other
          refine held.go next fun back => first ⟨c, ?_, back⟩
          simp [runner, current, other]
  | tick =>
      simp only [Cpu.step] at next
      split at next <;> cases next
      exact held.congr rfl rfl rfl
  | create newThread name handler params =>
      obtain rfl | ⟨c, node, caller, rfl, -, rfl⟩ := step_create next
      · exact held
      · exact held.move (by rw [(caller_spec caller).idle]; exact Iff.rfl)
  | call goal tid =>
      obtain ⟨c, caller, rfl⟩ := Option.map_eq_some_iff.1 next
      split
      · exact held
      · exact held.move (k := s.kernel) (by rw [(caller_spec caller).idle]; exact Iff.rfl)
  | cli | sti | yield =>
      obtain ⟨c, caller, rfl⟩ := Option.map_eq_some_iff.1 next
      exact held.congr rfl rfl rfl

/-- A quiet CPU is in nobody's section. -/
theorem of_quiet (quiet : s.Quiet) : s.LockHeld where
  holder p := by
    rw [quiet.pc, quiet.holder]
    simp [Pc.Guarded]
  lock := by rw [quiet.lock, quiet.holder]; rfl

/-- Along a run in which nobody comes back, the section is the holder's. -/
theorem of_path {steps : List (Cpu × Act × Cpu)} {u : Cpu} (held : s.LockHeld)
    (path : Path Cpu.step s steps u) (first : ∀ taken ∈ steps, ¬ taken.1.ComesBack taken.2.1) :
    u.LockHeld :=
  path.invariant LockHeld held fun _ _ _ taken before next => before.step next (first _ taken)

end LockHeld

variable {s u : Cpu} {steps : List (Cpu × Act × Cpu)}

/-- A thread that comes back does not hold the lock. -/
theorem LockHeld.unlocksOwn_iff (held : s.LockHeld) (act : Act) :
    s.UnlocksOwn act ↔ ¬ s.ComesBack act := by
  constructor
  · rintro owns ⟨c, runs, back⟩
    have guarded := (held.holder c).2 (owns c runs (by rw [back]; trivial))
    rw [back] at guarded
    exact guarded
  · intro first c runs unlocks
    refine (held.holder c).1 ?_
    cases place : s.pc c <;> rw [place] at unlocks <;> try exact unlocks.elim
    case comeBack => exact (first ⟨c, runs, place⟩).elim
    all_goals trivial

/-- **The discipline of `thread_lock`.**  Along every run, every `pe_unlock` is
by the thread that took the lock last if and only if no thread goes on behind
the `thread_yield` with which it left RUNNING; and then at most one thread is
inside a section. -/
theorem lock_discipline_iff (quiet : s.Quiet) (path : Path Cpu.step s steps u) :
    ((∀ taken ∈ steps, taken.1.UnlocksOwn taken.2.1) ↔
        ∀ taken ∈ steps, ¬ taken.1.ComesBack taken.2.1) ∧
      ((∀ taken ∈ steps, ¬ taken.1.ComesBack taken.2.1) → u.Exclusive) := by
  have start := LockHeld.of_quiet quiet
  refine ⟨⟨fun owns => ?_, fun first taken member => ?_⟩, fun first =>
    (start.of_path path first).exclusive⟩
  · suffices kept : (∀ taken ∈ steps, ¬ taken.1.ComesBack taken.2.1) ∧ u.LockHeld from kept.1
    induction path with
    | start => exact ⟨fun _ none_ => absurd none_ List.not_mem_nil, start⟩
    | @snoc steps t act v _ next ih =>
        obtain ⟨first, held⟩ := ih fun taken member => owns taken (List.mem_append_left _ member)
        have last := (held.unlocksOwn_iff act).1 (owns (t, act, v) (by simp))
        refine ⟨fun taken member => ?_, held.step next last⟩
        rcases List.mem_append.1 member with early | final
        · exact first taken early
        · cases List.mem_singleton.1 final
          exact last
  · obtain ⟨earlier, shorter, -, within⟩ := path.before member
    have held := start.of_path shorter fun taken' early => first taken' (within taken' early)
    exact (held.unlocksOwn_iff _).2 (first taken member)

/-- `start_thread` with two threads besides the cleaner: tids 1 and 2, tid 2 first on RUNNING. -/
def twoThreads : Option Cpu :=
  (startThread (fun _ => Thread.zero) 0x80001000 [0x80500008, 0x80501008]).map (start · 0x80001000)

/-- Thread 2 looks for a thread that does not exist. -/
def missRun : List Act :=
  List.flatten [[.tick, .call (.move .wake) 9], gos 6]

theorem lock_discipline_miss :
    ∃ s steps u, Path Cpu.step s steps u ∧ steps ≠ [] ∧
      (∀ taken ∈ steps, taken.1.UnlocksOwn taken.2.1) ∧ u.Exclusive := by
  have checked : ((twoThreads.bind fun s => execute Cpu.step s missRun).map fun result =>
      decide (result.1 ≠ [] ∧ ∀ taken ∈ result.1, ¬ taken.1.ComesBack taken.2.1)) = some true := by
    decide +kernel
  obtain ⟨⟨steps, u⟩, executed, facts⟩ := Option.map_eq_some_iff.1 checked
  obtain ⟨s, started, ran⟩ := Option.bind_eq_some_iff.1 executed
  obtain ⟨k, -, rfl⟩ := Option.map_eq_some_iff.1 started
  obtain ⟨some_, first⟩ := of_decide_eq_true facts
  have discipline := lock_discipline_iff (start_quiet k _) (execute_path ran)
  exact ⟨_, steps, u, execute_path ran, some_, discipline.1.2 first, discipline.2 first⟩

/-- Thread 2 suspends itself; thread 1 wakes it, takes the lock to wake someone
else, and is interrupted. -/
def stolenRun : List Act :=
  List.flatten [[.tick, .call (.move .suspend) 2], gos 10, [.call (.move .wake) 2], gos 10,
    [.call (.move .wake) 9, .go, .tick, .tick, .go]]

/-- Thread 2 comes back and unlocks what thread 1 holds. -/
theorem comeBack_unlocks_other :
    ∃ s steps u, s.Quiet ∧ Path Cpu.step s steps u ∧
      ∃ taken ∈ steps, ¬ taken.1.UnlocksOwn taken.2.1 := by
  have checked : ((twoThreads.bind fun s => execute Cpu.step s stolenRun).map fun result =>
      decide (∃ taken ∈ result.1, ¬ taken.1.UnlocksOwn taken.2.1)) = some true := by
    decide +kernel
  obtain ⟨⟨steps, u⟩, executed, facts⟩ := Option.map_eq_some_iff.1 checked
  obtain ⟨s, started, ran⟩ := Option.bind_eq_some_iff.1 executed
  obtain ⟨k, -, rfl⟩ := Option.map_eq_some_iff.1 started
  exact ⟨_, steps, u, start_quiet k _, execute_path ran, of_decide_eq_true facts⟩

end Cpu

end TestOs.Threads
