/-
# Threads.LockHolder -- the holder of thread_lock can always go on

A thread that suspends or exits itself is on no list while it still holds the
lock.  Nothing is lost as long as it stays current: the scheduler would find its
successor, but not the thread itself.  `lock_holder_schedulable` says that the
timer interrupt in that stretch is all that can put the holder out of reach.
-/
import TestOs.Threads.Boundaries

namespace TestOs.Threads

open TestOs.Library Kernel

set_option autoImplicit false

namespace Cpu

/-- The holder of the lock runs, or the scheduler will come to it. -/
def HolderSchedulable (s : Cpu) : Prop :=
  ∀ h, s.holder = some h → s.kernel.currentThread = some h ∨ OnList s.kernel .running h

/-- Between operations every thread that is alive is on some list. -/
def NoneLost (s : Cpu) : Prop :=
  (∀ p, ¬ (s.pc p).Guarded) → ∀ p ∈ s.threads, (s.kernel.mem p).status ≠ .died →
    ∃ st, OnList s.kernel st p

/-- The timer interrupt takes the CPU from a thread that is moving itself off RUNNING. -/
def CutsOff (s : Cpu) (act : Act) : Prop :=
  act = .tick ∧ ∃ c ∈ s.kernel.currentThread, s.Leaving c

instance (s : Cpu) (c : Ptr) : Decidable (s.Leaving c) :=
  inferInstanceAs (Decidable (_ ∨ _))

instance (s : Cpu) (act : Act) : Decidable (s.CutsOff act) :=
  inferInstanceAs (Decidable (_ ∧ ∃ c ∈ s.kernel.currentThread, s.Leaving c))

section Others

variable {s t : Cpu} {c p : Ptr}

/-- A statement moves the thread on that executes it, and makes a new thread. -/
theorem go_pc (next : s.go c = some t) (other : p ≠ c) : t.pc p = s.pc p ∨ t.pc p = .idle := by
  have moved : ∀ (u : Cpu) (pc : Pc), u.pc = s.pc → (u.goto c pc).pc p = s.pc p :=
    fun u pc same => (goto_pc_of_ne u c p pc other).trans (congrFun same p)
  cases place : s.pc c <;> simp only [go, place] at next
  case idle => cases next
  case lock call =>
      split at next <;> cases next
      · exact .inl rfl
      · exact .inl (moved _ _ rfl)
  case pickTid new =>
      split at next <;> cases next <;> exact .inl (moved _ _ rfl)
  case fill new tid =>
      cases next
      rw [goto_pc_of_ne _ _ _ _ other]
      by_cases isNew : p = new.node
      · rw [isNew]
        exact .inr (goto_pc ..)
      · exact .inl (goto_pc_of_ne _ _ _ _ isNew)
  case find goal tid st prev node =>
      cases node <;> cases next <;> exact .inl (moved _ _ rfl)
  case fix move tid node =>
      split at next <;> cases next <;> exact .inl (moved _ _ rfl)
  case giveRef tid node =>
      cases next
      exact .inl (moved _ _ (by split <;> rfl))
  case setHead dest self node =>
      cases next
      exact .inl (moved _ _ (by cases dest <;> rfl))
  case poll node =>
      split at next <;> cases next
      · exact .inl rfl
      · exact .inl (moved _ _ rfl)
  all_goals
    cases next
    exact .inl (moved _ _ rfl)

/-- Within the section a thread does not give the CPU away. -/
theorem go_current (next : s.go c = some t) (inside : (t.pc c).Guarded) :
    t.kernel.currentThread = s.kernel.currentThread := by
  cases place : s.pc c <;> simp only [go, place] at next
  case idle => cases next
  case lock call =>
      split at next <;> cases next
      · simp only [schedule, place, Pc.Guarded] at inside
      · rfl
  case pickTid new => split at next <;> cases next <;> rfl
  case find goal tid st prev node => cases node <;> cases next <;> rfl
  case unlink move tid st prev node =>
      cases next
      exact unlink_current ..
  case fix move tid node => split at next <;> cases next <;> rfl
  case giveRef tid node =>
      cases next
      simp only [goto_kernel]
      split <;> rfl
  case setHead dest self node =>
      cases next
      simp only [goto_kernel]
      cases dest <;> rfl
  case selfYield =>
      cases next
      rw [schedule, goto_pc] at inside
      exact inside.elim
  case poll node =>
      split at next <;> cases next
      · simp only [schedule, place, Pc.Guarded] at inside
      · rfl
  all_goals
    cases next
    rfl

end Others

namespace Sound

variable {s t : Cpu} {lists lists' : ThreadStatus → List Ptr} {c : Ptr}

/-- A thread outside of the section that takes a statement is not the holder. -/
theorem not_holder (sound : s.Sound lists) (outside : ¬ (s.pc c).Guarded) {h : Ptr}
    (holds : s.holder = some h) : h ≠ c := by
  rintro rfl
  exact outside ((sound.holder h).2 holds)

/-- Whoever holds the lock and is not leaving RUNNING is on it. -/
theorem holder_running (sound : s.Sound lists) (current : s.kernel.currentThread = some c)
    (holds : s.holder = some c) (stays : ¬ s.Leaving c) : c ∈ lists .running := by
  obtain ⟨c', current', going⟩ := sound.going
  obtain rfl : c = c' := Option.some.inj (current.symm.trans current')
  have guarded := (sound.holder c).2 holds
  have place := sound.place c holds
  unfold Going at going
  split at going
  · rcases going.2 with compared | unlocking | yielding
    · refine (stays (.inl ?_)).elim
      cases at_ : s.pc c <;> rw [at_] at compared <;> first | exact compared | cases compared
    · exact (stays (.inr unlocking)).elim
    · rw [yielding] at guarded
      exact guarded.elim
  · rcases going with running | ⟨⟨move, tid, fix | fixHead⟩, -⟩
    · exact running
    · rw [fix] at place
      refine (stays (.inl ?_)).elim
      rw [fix]
      simp [Pc.compared, own, place.2.2]
    · rw [fixHead] at place
      refine (stays (.inl ?_)).elim
      rw [fixHead]
      simp [Pc.compared, own, place.2.2.1]

/-- Between operations a thread that is not dead is on the list of its status. -/
theorem noneLost (sound : s.Sound lists) : s.NoneLost := by
  intro outside p member alive
  rcases sound.kept p member with ⟨st, listed⟩ | ⟨h, holds, -⟩ | dead
  · exact ⟨st, lists st, sound.shape.chain st, listed⟩
  · exact (outside h ((sound.holder h).2 holds)).elim
  · exact (alive dead).elim

end Sound

/-- The lists, and a holder within reach of the scheduler. -/
structure Reachable (s : Cpu) (lists : ThreadStatus → List Ptr) : Prop extends s.Sound lists where
  reach : ∀ h, s.holder = some h → s.kernel.currentThread = some h ∨ h ∈ lists .running

namespace Reachable

variable {s t : Cpu} {lists lists' : ThreadStatus → List Ptr} {c : Ptr}

theorem elsewhere (reachable : s.Reachable lists) (current : s.kernel.currentThread = some c) {h : Ptr}
    (holds : s.holder = some h) (other : h ≠ c) : h ∈ lists .running := by
  rcases reachable.reach h holds with isCurrent | running
  · exact (other (Option.some.inj (isCurrent.symm.trans current))).elim
  · exact running

/-- One statement of a thread: it holds the lock itself, or the lists are as before. -/
theorem go (reachable : s.Reachable lists) (current : s.kernel.currentThread = some c)
    (other : c ≠ s.cleaner) (next : s.go c = some t) (alone : s.pc c = .comeBack → s.lock = false) :
    ∃ lists', t.Reachable lists' := by
  obtain ⟨lists', after, changes⟩ := reachable.toSound.go current other next alone
  refine ⟨lists', after, fun h holds => ?_⟩
  have guarded := (after.holder h).2 holds
  by_cases self : h = c
  · subst self
    exact .inl ((go_current next guarded).trans current)
  · have before : s.holder = some h := by
      rcases go_pc next self with same | idle
      · rw [same] at guarded
        exact (reachable.holder h).1 guarded
      · rw [idle] at guarded
        exact guarded.elim
    rcases changes.locked with mine | same
    · exact (self (Option.some.inj (before.symm.trans mine))).elim
    · rw [same]
      exact .inr (reachable.elsewhere current before self)

theorem step (reachable : s.Reachable lists) {act : Act} (next : s.step act = some t)
    (careful : s.Careful act) (spared : ¬ s.CutsOff act) : ∃ lists', t.Reachable lists' := by
  cases act with
  | go =>
      simp only [Cpu.step] at next
      cases current : s.kernel.currentThread with
      | none =>
          rw [current] at next
          cases next
      | some c =>
          rw [current] at next
          by_cases isCleaner : c = s.cleaner
          · simp only [if_pos isCleaner, Option.some.injEq] at next
            subst next
            obtain ⟨lists', after, others⟩ := reachable.cleanerStep (isCleaner ▸ current) careful
            refine ⟨lists', after, fun h holds => .inr ?_⟩
            have same : s.clean.holder = s.holder := by unfold clean; split <;> rfl
            rw [same] at holds
            rw [others _ (by decide)]
            refine reachable.elsewhere current holds (reachable.not_holder ?_ holds)
            rw [isCleaner, reachable.idle]
            exact id
          · simp only [if_neg isCleaner] at next
            exact reachable.go current isCleaner next fun back =>
              careful.alone ⟨c, by simp [runner, current, isCleaner], back⟩
  | tick =>
      simp only [Cpu.step] at next
      split at next <;> cases next
      refine ⟨lists, reachable.scheduled, fun h holds => .inr ?_⟩
      rcases reachable.reach h holds with isCurrent | running
      · exact reachable.holder_running isCurrent holds fun leaving =>
          spared ⟨rfl, h, isCurrent, leaving⟩
      · exact running
  | create newThread name handler params =>
      rcases step_create next with rfl | ⟨c, node, caller, -, free, rfl⟩
      · exact ⟨lists, reachable⟩
      · exact ⟨lists, reachable.called (caller_spec caller) free, reachable.reach⟩
  | call goal tid =>
      obtain ⟨c, caller, isNext⟩ := Option.map_eq_some_iff.1 next
      split at isNext
      · exact ⟨lists, isNext ▸ reachable⟩
      · rename_i spared'
        subst isNext
        exact ⟨lists, reachable.asked (caller_spec caller) fun spares isZero =>
          spared' ⟨isZero, spares⟩, reachable.reach⟩
  | cli =>
      obtain ⟨c, -, rfl⟩ := Option.map_eq_some_iff.1 next
      exact ⟨lists, reachable.flag false, reachable.reach⟩
  | sti =>
      obtain ⟨c, -, rfl⟩ := Option.map_eq_some_iff.1 next
      exact ⟨lists, reachable.flag true, reachable.reach⟩
  | yield =>
      obtain ⟨c, caller, rfl⟩ := Option.map_eq_some_iff.1 next
      obtain ⟨current, other, idle⟩ := caller_spec caller
      refine ⟨lists, reachable.scheduled, fun h holds => .inr ?_⟩
      refine reachable.elsewhere current holds (reachable.not_holder ?_ holds)
      rw [idle]
      exact id

end Reachable

variable {s t : Cpu} {steps : List (Cpu × Act × Cpu)}

/-- **A lock holder is schedulable.**  In every run of careful steps in which the
timer does not take the CPU from a thread that is moving itself off RUNNING, the
holder of the lock is current or on RUNNING at every statement boundary, and
between operations every live thread is on a list. -/
theorem lock_holder_schedulable (booted : s.Booted) (path : Path Cpu.step s steps t)
    (careful : ∀ u act v, (u, act, v) ∈ steps → u.Careful act ∧ ¬ u.CutsOff act) :
    t.HolderSchedulable ∧ t.NoneLost := by
  obtain ⟨lists, reachable⟩ := path.invariant (fun u => ∃ lists, u.Reachable lists)
    (by
      obtain ⟨lists, sound⟩ := Sound.of_booted booted
      refine ⟨lists, sound, fun h holds => ?_⟩
      rw [booted.quiet.holder] at holds
      cases holds)
    fun u act v taken ⟨_, before⟩ next =>
      before.step next (careful u act v taken).1 (careful u act v taken).2
  refine ⟨fun h holds => ?_, reachable.noneLost⟩
  rcases reachable.reach h holds with isCurrent | running
  · exact .inl isCurrent
  · exact .inr ⟨lists .running, reachable.shape.chain .running, running⟩

/-- The cleaner does not unlink a head it has read. -/
def ReapsNoHead (s : Cpu) : Prop :=
  ∀ node, s.cleaning ≠ .reap none node

instance (s : Cpu) : Decidable s.ReapsNoHead :=
  match place : s.cleaning with
  | .reap none node => isFalse fun no => no node place
  | .reap (some _) _ | .scan | .visit _ _ | .advance _ | .free _ _ _ =>
      isTrue fun _ isHead => by rw [place] at isHead; cases isHead

theorem careful_of_calm {act : Act} (first : ¬ s.ComesBack act) (noHead : s.ReapsNoHead) :
    s.Careful act where
  alone back := (first back).elim
  apart reaps := by
    obtain ⟨-, -, node, place⟩ := reaps
    exact (noHead node place).elim

theorem twoThreads_booted (started : twoThreads = some s) : s.Booted := by
  obtain ⟨k, isStart, rfl⟩ := Option.map_eq_some_iff.1 started
  exact startThread_booted (by decide) isStart

/-- Thread 2 suspends thread 1 with the timer running. -/
def suspendOther : List Act :=
  List.flatten [[.tick, .call (.move .suspend) 1], gos 6, [.tick], gos 2, [.tick, .tick], gos 4]

theorem lock_holder_schedulable_suspend :
    ∃ s steps t, Path Cpu.step s steps t ∧ steps ≠ [] ∧ t.HolderSchedulable ∧ t.NoneLost := by
  have checked : ((twoThreads.bind fun s => execute Cpu.step s suspendOther).map fun result =>
      decide (result.1 ≠ [] ∧ ∀ taken ∈ result.1, ¬ taken.1.ComesBack taken.2.1 ∧
        taken.1.ReapsNoHead ∧ ¬ taken.1.CutsOff taken.2.1)) = some true := by
    decide +kernel
  obtain ⟨⟨steps, t⟩, executed, facts⟩ := Option.map_eq_some_iff.1 checked
  obtain ⟨s, started, ran⟩ := Option.bind_eq_some_iff.1 executed
  obtain ⟨some_, calm⟩ := of_decide_eq_true facts
  refine ⟨s, steps, t, execute_path ran, some_, ?_⟩
  refine lock_holder_schedulable (twoThreads_booted started) (execute_path ran)
    fun u act v taken => ?_
  obtain ⟨first, noHead, spared⟩ := calm _ taken
  exact ⟨careful_of_calm first noHead, spared⟩

/-- Thread 2 suspends itself; the timer comes right after the unlinking. -/
def cutOffRun : List Act :=
  List.flatten [[.tick, .call (.move .suspend) 2], gos 4, [.tick]]

/-- The holder of the lock is neither current nor on RUNNING. -/
theorem cutsOff_holder :
    ∃ s steps t, s.Booted ∧ Path Cpu.step s steps t ∧ ¬ t.HolderSchedulable := by
  have checked : ((twoThreads.bind fun s => execute Cpu.step s cutOffRun).map fun result =>
      decide (result.2.holder = some 0x80501008 ∧
        result.2.kernel.currentThread = some 0x80500008 ∧
        Chain result.2.kernel.next (result.2.kernel.threadHead .running)
          [0x80500008, 0x80001000])) = some true := by
    decide +kernel
  obtain ⟨⟨steps, t⟩, executed, facts⟩ := Option.map_eq_some_iff.1 checked
  obtain ⟨s, started, ran⟩ := Option.bind_eq_some_iff.1 executed
  obtain ⟨holds, current, chain⟩ := of_decide_eq_true facts
  refine ⟨s, steps, t, twoThreads_booted started, execute_path ran, fun schedulable => ?_⟩
  rcases schedulable _ holds with isCurrent | ⟨nodes, chain', listed⟩
  · rw [current] at isCurrent
    cases isCurrent
  · rw [chain'.unique chain] at listed
    simp at listed

end Cpu

end TestOs.Threads
