/-
# Threads.Sleepers -- who is woken early

`sleep` stores the time at which its caller is due and `sleeper_polling` compares
it with the clock; both are 32-bit counts of milliseconds, and the sum wraps.
`delay` compares the time that has passed instead.  The two agree except for a
sleeper whose due time has wrapped while the clock has not: it is due at once
(`early_iff_wrapped`).  `nobody_early_iff` says so of every poll of every run.
-/
import TestOs.Threads.Runs

namespace TestOs.Threads

open TestOs.Library Kernel

set_option autoImplicit false

/-- `tick_to_millisecond`, with `KERNEL_TICK_HZ / 10` milliseconds to a tick. -/
def tickToMillisecond (tickVal : BitVec 32) : BitVec 32 := tickVal * 10

/-- The condition on which the loop of `delay` ends. -/
def delayOver (millisecond start now : BitVec 32) : Prop := ¬ now - start < millisecond

/-- A sleeper that is due has slept long enough, unless its due time wrapped and
the clock did not. -/
theorem early_iff_wrapped {millisecond start now : BitVec 32} (due : start + millisecond ≤ now) :
    ¬ delayOver millisecond start now ↔
      2 ^ 32 ≤ start.toNat + millisecond.toNat ∧ start ≤ now := by
  unfold delayOver
  rw [not_not]
  rw [BitVec.le_def, BitVec.toNat_add] at due
  rw [BitVec.lt_def, BitVec.le_def, BitVec.toNat_sub]
  have := start.isLt
  have := millisecond.isLt
  have := now.isLt
  omega

/-! ## The due time stays -/

section Wake

variable {s t : Kernel} {lists : ThreadStatus → List Ptr}

theorem threadWake_wake {tid : Nat} (woken : s.threadWake tid = some t) (p : Ptr) :
    (t.mem p).wakeMillisecond = (s.mem p).wakeMillisecond := by
  unfold Kernel.threadWake at woken
  simp only [Option.bind_eq_bind, Option.bind_eq_some_iff] at woken
  obtain ⟨found, -, woken⟩ := woken
  cases found with
  | some hit =>
      cases woken
      simp
  | none =>
      simp only [Option.bind_eq_some_iff] at woken
      obtain ⟨found, -, woken⟩ := woken
      cases found with
      | some hit =>
          cases woken
          simp
      | none =>
          cases woken
          rfl

theorem pollFrom_wake {clock : Nat → BitVec 32} {fuel visit : Nat} {link : Option Ptr}
    {minWake least : BitVec 32} (polled : pollFrom clock fuel visit link minWake s = some (least, t))
    (p : Ptr) : (t.mem p).wakeMillisecond = (s.mem p).wakeMillisecond := by
  induction fuel generalizing visit link minWake s with
  | zero => cases polled
  | succ fuel ih =>
      cases link with
      | none =>
          cases polled
          rfl
      | some node =>
          have dropped : ((s.dropRef node).mem p).wakeMillisecond = (s.mem p).wakeMillisecond := by
            rw [Kernel.dropRef, modify_mem]
            split <;> rename_i same
            · rw [same]
            · rfl
          simp only [pollFrom] at polled
          split at polled
          · split at polled
            · obtain ⟨u, woken, rest⟩ := Option.bind_eq_some_iff.1 polled
              exact (ih rest).trans ((threadWake_wake woken p).trans dropped)
            · exact (ih polled).trans dropped
          · exact ih polled

theorem sleeperPolling_wake {clock : Nat → BitVec 32} (polled : s.sleeperPolling clock = some t)
    (p : Ptr) : (t.mem p).wakeMillisecond = (s.mem p).wakeMillisecond := by
  obtain ⟨⟨least, u⟩, result, same⟩ := Option.map_eq_some_iff.1 polled
  have kept := pollFrom_wake result p
  simp only at same
  split at same <;> subst same
  · rw [threadSchedule_mem]
    exact kept
  · exact kept

theorem cleanFrom_wake {fuel : Nat} {prev link : Option Ptr}
    (cleaned : cleanFrom fuel prev link s = some t) (p : Ptr) :
    (t.mem p).wakeMillisecond = (s.mem p).wakeMillisecond := by
  induction fuel generalizing prev link s with
  | zero => cases cleaned
  | succ fuel ih =>
      cases link with
      | none =>
          cases cleaned
          rfl
      | some node =>
          simp only [cleanFrom] at cleaned
          split at cleaned
          · exact (ih cleaned).trans (unlink_wake ..)
          · exact ih cleaned

theorem clean_wake (cleaned : s.clean = some t) (p : Ptr) :
    (t.mem p).wakeMillisecond = (s.mem p).wakeMillisecond := by
  obtain ⟨u, result, same⟩ := Option.map_eq_some_iff.1 cleaned
  rw [← same, threadSchedule_mem]
  exact cleanFrom_wake result p

end Wake

namespace System

variable {s t u v : System} {cleaner : Ptr}

/-- No step changes when a thread that is on SUSPEND before and after it is due. -/
theorem step_wake {lists : ThreadStatus → List Ptr} (queues : Queues t.kernel lists) {op : Op}
    (admissible : t.Admissible op) (next : t.step op = some v) {p : Ptr}
    (allocated : p ∈ t.kernel.allocated) (suspended : (t.kernel.mem p).status = .suspend) :
    p ∈ v.kernel.allocated ∧
      (v.kernel.mem p).wakeMillisecond = (t.kernel.mem p).wakeMillisecond := by
  obtain ⟨current, onRunning, isCurrent⟩ := queues.current
  have apart : p ≠ current := by
    rintro rfl
    have running := queues.status _ _ onRunning
    rw [suspended] at running
    cases running
  cases op with
  | create newThread name handler params =>
      obtain ⟨-, mems, allocations⟩ := queues.threadCreate newThread name handler params
        fun q new => admissible.2 q new
      cases next
      refine ⟨?_, congrArg Thread.wakeMillisecond (mems p allocated)⟩
      rcases allocations with same | ⟨q, -, more, -⟩
      · exact same ▸ allocated
      · exact more ▸ Finset.mem_insert_of_mem allocated
  | wake tid =>
      obtain ⟨k, result, -, effect⟩ := queues.threadWake tid
      rw [step, result] at next
      cases next
      rcases effect with ⟨rfl, -⟩ | ⟨node, -, -, -, shifted, -⟩
      · exact ⟨allocated, rfl⟩
      · exact ⟨shifted.allocated ▸ allocated, shifted.wake p⟩
  | suspend tid =>
      obtain ⟨k, result, -, effect⟩ := queues.threadSuspend tid
      rw [step, result] at next
      cases next
      rcases effect with ⟨rfl, -⟩ | ⟨node, -, -, -, -, shifted, -⟩
      · exact ⟨allocated, rfl⟩
      · exact ⟨shifted.allocated ▸ allocated, shifted.wake p⟩
  | exit tid =>
      obtain ⟨k, result, -, effect⟩ := queues.threadExit tid
      rw [step, result] at next
      cases next
      rcases effect with rfl | ⟨node, -, -, -, -, shifted, -⟩
      · exact ⟨allocated, rfl⟩
      · exact ⟨shifted.allocated ▸ allocated, shifted.wake p⟩
  | wait tid =>
      simp only [step, isCurrent] at next
      rcases queues.threadWait tid with result | ⟨node, -, -, -, -, result⟩
      · rw [result] at next
        cases next
        exact ⟨allocated, rfl⟩
      · rw [result] at next
        cases next
        refine ⟨allocated, ?_⟩
        change ((t.kernel.takeRef node).mem p).wakeMillisecond = _
        rw [Kernel.takeRef, modify_mem]
        split <;> rename_i same
        · rw [same]
        · rfl
  | waitTurn =>
      simp only [step, System.waitTurn, isCurrent] at next
      cases waits : t.waiting current with
      | none =>
          rw [waits] at next
          cases next
          exact ⟨allocated, rfl⟩
      | some node =>
          simp only [waits] at next
          by_cases alive : (t.kernel.mem node).status ≠ .died
          · rw [if_pos alive] at next
            cases next
            exact ⟨(threadSchedule_allocated _).symm ▸ allocated,
              congrArg (fun mem => (mem p).wakeMillisecond) (threadSchedule_mem _)⟩
          · rw [if_neg alive] at next
            cases next
            refine ⟨allocated, ?_⟩
            change ((t.kernel.dropRef node).mem p).wakeMillisecond = _
            rw [Kernel.dropRef, modify_mem]
            split <;> rename_i same
            · rw [same]
            · rfl
  | sleep millisecond now =>
      simp only [step, isCurrent] at next
      rcases queues.sleep isCurrent (admissible.2 current isCurrent) millisecond now with
        result | ⟨k, result, -, -, -, allocations, fields⟩
      · rw [result] at next
        cases next
        exact ⟨allocated, rfl⟩
      · rw [result] at next
        cases next
        refine ⟨allocations ▸ allocated, (fields p).2.2.2.trans ?_⟩
        rw [if_neg apart]
  | schedule =>
      cases next
      exact ⟨(threadSchedule_allocated _).symm ▸ allocated,
        congrArg (fun mem => (mem p).wakeMillisecond) (threadSchedule_mem _)⟩
  | poll clock =>
      obtain ⟨k, result, -, -, -, -, allocations⟩ := queues.sleeperPolling clock
      rw [step, result] at next
      cases next
      exact ⟨allocations ▸ allocated, sleeperPolling_wake result p⟩
  | clean =>
      obtain ⟨k, result, -, -, allocations⟩ := queues.clean
      rw [step, result] at next
      cases next
      refine ⟨(allocations p).2 ⟨allocated, fun freed => ?_⟩, clean_wake result p⟩
      have died := queues.status _ _ freed.1
      rw [suspended] at died
      cases died

/-- `p` called `sleep` with this argument at this time, and has not left SUSPEND
since. -/
def AsleepSince (steps : List (System × Op × System)) (p : Ptr) (millisecond start : BitVec 32) :
    Prop :=
  ∃ before t v after, steps = before ++ (t, .sleep millisecond start, v) :: after ∧
    t.kernel.currentThread = some p ∧ (v.kernel.mem p).status = .suspend ∧
    ∀ step ∈ after, (step.2.2.kernel.mem p).status = .suspend

/-- A sleeper is due when `sleep` said. -/
theorem Run.asleep {steps : List (System × Op × System)} (started : s.Started cleaner)
    (run : s.Run steps u) {p : Ptr} {millisecond start : BitVec 32}
    (asleep : AsleepSince steps p millisecond start) :
    p ∈ u.kernel.allocated ∧ (u.kernel.mem p).status = .suspend ∧
      (u.kernel.mem p).wakeMillisecond = start + millisecond := by
  induction run with
  | start =>
      obtain ⟨before, t, v, after, split, -⟩ := asleep
      simp at split
  | @step steps t op v run admissible next ih =>
      obtain ⟨before, t', v', after, split, isCurrent, suspended, stays⟩ := asleep
      obtain ⟨lists, queues⟩ := run.queues started
      rcases List.eq_nil_or_concat after with rfl | ⟨after, last, rfl⟩
      · -- the last step was the call
        obtain ⟨-, same⟩ := List.append_inj' split rfl
        cases same
        simp only [System.step, isCurrent] at next
        rcases queues.sleep isCurrent (admissible.2 p isCurrent) millisecond start with
          result | ⟨k, result, -, allocated, -, allocations, fields⟩
        · rw [result] at next
          cases next
          obtain ⟨current, onRunning, isCurrent'⟩ := queues.current
          cases isCurrent.symm.trans isCurrent'
          have running := queues.status _ _ onRunning
          exact absurd (running.symm.trans suspended) (by decide)
        · rw [result] at next
          cases next
          refine ⟨allocations ▸ allocated, suspended, (fields p).2.2.2.trans ?_⟩
          rw [if_pos rfl]
      · rw [List.concat_eq_append, ← List.cons_append, ← List.append_assoc] at split
        obtain ⟨earlier, same⟩ := List.append_inj' split rfl
        cases same
        have stays' : ∀ step ∈ after, (step.2.2.kernel.mem p).status = .suspend := fun step member =>
          stays step (by simp [member])
        obtain ⟨allocated, before_, due⟩ := ih ⟨before, t', v', after, earlier, isCurrent, suspended, stays'⟩
        obtain ⟨still, kept⟩ := step_wake queues admissible next allocated before_
        exact ⟨still, stays (t, op, v) (by simp), kept.trans due⟩

/-- A poll after `earlier` steps wakes nobody early. -/
def NobodyEarly (earlier : List (System × Op × System)) (t : System) (clock : Nat → BitVec 32)
    (v : System) : Prop :=
  ∀ p millisecond start, AsleepSince earlier p millisecond start →
    ∀ i, t.kernel.suspended[i]? = some p → (v.kernel.mem p).status = .running →
      delayOver millisecond start (clock i)

/-- A poll after `earlier` steps meets no sleeper that is due and whose due time
has wrapped while the clock has not. -/
def NoneWrapped (earlier : List (System × Op × System)) (t : System) (clock : Nat → BitVec 32) :
    Prop :=
  ∀ p millisecond start, AsleepSince earlier p millisecond start →
    ∀ i, t.kernel.suspended[i]? = some p →
      ¬ (2 ^ 32 ≤ start.toNat + millisecond.toNat ∧ start ≤ clock i)

theorem nobodyEarly_iff {earlier : List (System × Op × System)} {clock : Nat → BitVec 32}
    (started : s.Started cleaner) (run : s.Run earlier t) (next : t.step (.poll clock) = some v) :
    NobodyEarly earlier t clock v ↔ NoneWrapped earlier t clock := by
  obtain ⟨lists, queues⟩ := run.queues started
  obtain ⟨k, result, -, visits, -⟩ := queues.sleeperPolling clock
  rw [step, result] at next
  cases next
  refine forall₄_congr fun p millisecond start asleep => forall₂_congr fun i here => ?_
  obtain ⟨-, suspended, wake⟩ := run.asleep started asleep
  have polled := visits i p (queues.suspended_eq ▸ here)
  rw [Queues.Polled, wake] at polled
  constructor
  · rintro inTime ⟨wrapped, passed⟩
    have due : start + millisecond ≤ clock i := by
      rw [BitVec.le_def] at passed ⊢
      rw [BitVec.toNat_add]
      omega
    rw [if_pos due] at polled
    exact (early_iff_wrapped due).2 ⟨wrapped, passed⟩ (inTime polled.1)
  · intro unwrapped woken
    by_cases due : start + millisecond ≤ clock i
    · by_contra early
      exact unwrapped ((early_iff_wrapped due).1 early)
    · rw [if_neg due] at polled
      exact absurd (woken.symm.trans (polled.1.trans suspended)) (by decide)

/-- **Who is woken early.**  Along every run, no poll takes a sleeper off SUSPEND
before `delay` with the same argument would have ended, if and only if no poll
meets a sleeper whose due time has wrapped while the clock has not. -/
theorem nobody_early_iff {steps : List (System × Op × System)} (started : s.Started cleaner)
    (run : s.Run steps u) :
    (∀ earlier t clock v later, steps = earlier ++ (t, .poll clock, v) :: later →
        NobodyEarly earlier t clock v) ↔
      ∀ earlier t clock v later, steps = earlier ++ (t, .poll clock, v) :: later →
        NoneWrapped earlier t clock := by
  refine forall₅_congr fun earlier t clock v later => forall_congr' fun split => ?_
  obtain ⟨before, -, next⟩ := run.front split
  exact nobodyEarly_iff started before next

/-- Two threads run, and the first of them is current. -/
def twoThreads : Option (List (System × Op × System) × System) :=
  (boot (fun _ => Thread.zero) 0x80001000).execute (bootOps ++ [.schedule])

/-- The first sleeps for a second, 296 ms before the clock wraps; the second polls
10 ms later. -/
theorem sleeper_woken_early :
    ∃ steps t v, Run (boot (fun _ => Thread.zero) 0x80001000) steps t ∧
      t.Admissible (.poll fun _ => tickToMillisecond 429496701) ∧
      t.step (.poll fun _ => tickToMillisecond 429496701) = some v ∧
      AsleepSince steps 0x80500008 1000 (tickToMillisecond 429496700) ∧
      t.kernel.suspended[0]? = some 0x80500008 ∧ (v.kernel.mem 0x80500008).status = .running ∧
      ¬ delayOver 1000 (tickToMillisecond 429496700) (tickToMillisecond 429496701) := by
  have checked : (twoThreads.bind fun first =>
      (first.2.step (.sleep 1000 (tickToMillisecond 429496700))).bind fun second =>
        (second.step .schedule).bind fun third =>
          (third.step (.poll fun _ => tickToMillisecond 429496701)).map fun last =>
            decide (first.2.kernel.currentThread = some 0x80500008 ∧
              first.2.Admissible (.sleep 1000 (tickToMillisecond 429496700)) ∧
              (second.kernel.mem 0x80500008).status = .suspend ∧
              (third.kernel.mem 0x80500008).status = .suspend ∧
              third.Admissible (.poll fun _ => tickToMillisecond 429496701) ∧
              third.kernel.suspended[0]? = some 0x80500008 ∧
              (last.kernel.mem 0x80500008).status = .running)) = some true := by
    decide +kernel
  obtain ⟨⟨steps, t⟩, executed, checked⟩ := Option.bind_eq_some_iff.1 checked
  obtain ⟨u, slept, checked⟩ := Option.bind_eq_some_iff.1 checked
  obtain ⟨w, switched, checked⟩ := Option.bind_eq_some_iff.1 checked
  obtain ⟨v, polled, facts⟩ := Option.map_eq_some_iff.1 checked
  obtain ⟨isCurrent, admissible, suspended, still, admissible', visit, woken⟩ :=
    of_decide_eq_true facts
  have asleep := (execute_run executed).step admissible slept
  refine ⟨_, w, v, asleep.step (show u.Admissible .schedule from trivial) switched, admissible',
    polled, ?_, visit, woken, ?_⟩
  · refine ⟨steps, t, u, [(u, .schedule, w)], by simp, isCurrent, suspended, ?_⟩
    rintro step member
    rw [List.mem_singleton.1 member]
    exact still
  · unfold delayOver
    decide

/-- At time 0 it sleeps for a second, and a poll 10 ms later leaves it asleep. -/
theorem nobody_early_boot :
    ∃ steps u, (boot (fun _ => Thread.zero) 0x80001000).execute
        (bootOps ++ [.schedule, .sleep 1000 0, .schedule, .poll fun _ => 10]) = some (steps, u) ∧
      ∀ earlier t clock v later, steps = earlier ++ (t, .poll clock, v) :: later →
        NobodyEarly earlier t clock v := by
  have checked : ((boot (fun _ => Thread.zero) 0x80001000).execute
      (bootOps ++ [.schedule, .sleep 1000 0, .schedule, .poll fun _ => 10])).map
      (fun result => result.1.all fun step =>
        match step.2.1 with
        | .sleep millisecond start => start.toNat + millisecond.toNat < 2 ^ 32
        | _ => true) = some true := by decide +kernel
  obtain ⟨⟨steps, u⟩, executed, short⟩ := Option.map_eq_some_iff.1 checked
  refine ⟨steps, u, executed, (nobody_early_iff (boot_started _ _) (execute_run executed)).2 ?_⟩
  rintro earlier t clock v later split p millisecond start
    ⟨before, t', v', after, split', -⟩ i - ⟨wrapped, -⟩
  have taken : (t', Op.sleep millisecond start, v') ∈ steps := by simp [split, split']
  have below := List.all_eq_true.1 short _ taken
  simp only [decide_eq_true_eq] at below
  omega

end System

end TestOs.Threads
