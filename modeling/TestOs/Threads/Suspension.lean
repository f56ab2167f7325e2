/-
# Threads.Suspension -- whether an explicit suspend holds

Sleepers and threads that `thread_suspend` put aside share the list SUSPEND, and
the poller tells them apart by `wake_millisecond` alone: it wakes whoever is
due.  A thread that never slept has the time 0, and one that slept earlier still
has its old time, so both are due at once.

`suspend_holds_iff` is the exact condition, over every run: the suspensions hold
at every step if and only if no poll meets an explicitly suspended thread that
is due.
-/
import TestOs.Threads.References

namespace TestOs.Threads

open TestOs.Library Kernel

set_option autoImplicit false

namespace System

/-- `p` is on SUSPEND, and did not go there through `sleep`. -/
def ExplicitlySuspended (s : System) (p : Ptr) : Prop :=
  OnList s.kernel .suspend p ∧ s.sleeping p = false

/-- The step leaves every explicitly suspended thread so, unless it is a wake or
an exit of that thread's tid; and a poll does not touch its references. -/
def SuspendKept (s : System) (op : Op) (t : System) : Prop :=
  ∀ p, s.ExplicitlySuspended p →
    op = .wake (s.kernel.mem p).tid ∨ op = .exit (s.kernel.mem p).tid ∨
      (t.ExplicitlySuspended p ∧
        ∀ clock, op = .poll clock → (t.kernel.mem p).ref = (s.kernel.mem p).ref)

/-- The poller meets no explicitly suspended thread that is due. -/
def PollSpares (s : System) : Op → Prop
  | .poll clock => ∀ visit ∈ s.kernel.suspended.zipIdx, s.sleeping visit.1 = false →
      ¬ (s.kernel.mem visit.1).wakeMillisecond ≤ clock visit.2
  | _ => True

instance (s : System) (op : Op) : Decidable (s.PollSpares op) :=
  match op with
  | .poll clock => inferInstanceAs (Decidable (∀ visit ∈ s.kernel.suspended.zipIdx,
      s.sleeping visit.1 = false → ¬ (s.kernel.mem visit.1).wakeMillisecond ≤ clock visit.2))
  | .create .. | .wake _ | .suspend _ | .exit _ | .wait _ | .waitTurn | .sleep .. | .schedule
  | .clean => inferInstanceAs (Decidable True)

variable {s t u : System} {lists : ThreadStatus → List Ptr} {cleaner : Ptr}

theorem explicitlySuspended_iff (queues : Queues s.kernel lists) (p : Ptr) :
    s.ExplicitlySuspended p ↔
      (p ∈ s.kernel.allocated ∧ (s.kernel.mem p).status = .suspend) ∧ s.sleeping p = false := by
  rw [ExplicitlySuspended, queues.onList_iff, queues.mem_iff]

/-- An operation after which `p` is still an allocated node of status SUSPEND. -/
theorem stays_suspended {k : Kernel} {waiting : Ptr → Option Ptr} {sleeping : Ptr → Bool} {p : Ptr}
    (queues : Queues k lists) (member : p ∈ k.allocated) (status : (k.mem p).status = .suspend)
    (awake : sleeping p = false) : (settle k waiting sleeping).ExplicitlySuspended p := by
  rw [explicitlySuspended_iff (s := settle k waiting sleeping) queues]
  exact ⟨⟨member, status⟩, by simp [settle, awake]⟩

/-- One step: every suspension holds over it exactly when its poll spares them. -/
theorem suspendKept_iff {op : Op} (queues : Queues s.kernel lists)
    (admissible : s.Admissible op) (next : s.step op = some t) :
    s.SuspendKept op t ↔ s.PollSpares op := by
  obtain ⟨current, running, isCurrent⟩ := queues.current
  have known : ∀ p, s.ExplicitlySuspended p →
      p ∈ s.kernel.allocated ∧ (s.kernel.mem p).status = .suspend ∧ s.sleeping p = false := by
    intro p suspended
    obtain ⟨⟨member, status⟩, awake⟩ := (explicitlySuspended_iff queues p).1 suspended
    exact ⟨member, status, awake⟩
  -- every operation but the poll
  have stays : (∀ p, s.ExplicitlySuspended p → op = .wake (s.kernel.mem p).tid ∨
      op = .exit (s.kernel.mem p).tid ∨ t.ExplicitlySuspended p) → (∀ clock, op ≠ .poll clock) →
      (s.SuspendKept op t ↔ s.PollSpares op) := by
    intro kept noPoll
    refine ⟨fun _ => ?_, fun _ p suspended => ?_⟩
    · cases op <;> first | trivial | exact absurd rfl (noPoll _)
    · rcases kept p suspended with wakes | exits | still
      · exact .inl wakes
      · exact .inr (.inl exits)
      · exact .inr (.inr ⟨still, fun clock polls => absurd polls (noPoll clock)⟩)
  cases op with
  | create newThread name handler params =>
      obtain ⟨⟨lists', after⟩, mems, allocations⟩ := queues.threadCreate newThread name handler params
        fun p new => admissible.2 p new
      cases next
      refine stays (fun p suspended => .inr (.inr ?_)) (by simp)
      obtain ⟨member, status, awake⟩ := known p suspended
      refine stays_suspended after ?_ (by rw [mems p member, status]) awake
      rcases allocations with same | ⟨q, -, grown, -⟩
      · rwa [same]
      · rw [grown]
        exact Finset.mem_insert_of_mem member
  | wake tid =>
      obtain ⟨k, result, ⟨lists', after⟩, effect⟩ := queues.threadWake tid
      rw [step, result] at next
      cases next
      refine stays (fun p suspended => ?_) (by simp)
      obtain ⟨member, status, awake⟩ := known p suspended
      rcases effect with ⟨rfl, -⟩ | ⟨node, -, same, -, shifted, -⟩
      · exact .inr (.inr (stays_suspended after member status awake))
      · by_cases eq : p = node
        · exact .inl (by rw [eq, same])
        · refine .inr (.inr (stays_suspended after (shifted.allocated ▸ member) ?_ awake))
          rw [shifted.status, if_neg eq, status]
  | suspend tid =>
      obtain ⟨k, result, ⟨lists', after⟩, effect⟩ := queues.threadSuspend tid
      rw [step, result] at next
      cases next
      refine stays (fun p suspended => .inr (.inr ?_)) (by simp)
      obtain ⟨member, status, awake⟩ := known p suspended
      rcases effect with ⟨rfl, -⟩ | ⟨node, -, -, -, -, shifted, -⟩
      · exact stays_suspended after member status awake
      · refine stays_suspended after (shifted.allocated ▸ member) ?_ awake
        rw [shifted.status, status, ite_self]
  | exit tid =>
      obtain ⟨k, result, ⟨lists', after⟩, effect⟩ := queues.threadExit tid
      rw [step, result] at next
      cases next
      refine stays (fun p suspended => .inr ?_) (by simp)
      obtain ⟨member, status, awake⟩ := known p suspended
      rcases effect with rfl | ⟨node, -, same, -, -, shifted, -⟩
      · exact .inr (stays_suspended after member status awake)
      · by_cases eq : p = node
        · exact .inl (by rw [eq, same])
        · refine .inr (stays_suspended after (shifted.allocated ▸ member) ?_ awake)
          rw [shifted.status, if_neg eq, status]
  | wait tid =>
      refine stays (fun p suspended => .inr (.inr ?_)) (by simp)
      obtain ⟨member, status, awake⟩ := known p suspended
      simp only [step, isCurrent] at next
      rcases queues.threadWait tid with result | ⟨node, -, -, -, -, result⟩ <;>
        rw [result] at next <;> cases next
      · exact stays_suspended queues member status awake
      · refine stays_suspended (queues.takeRef node) member ?_ awake
        simp only [takeRef, modify_mem]
        split <;> simp_all
  | waitTurn =>
      refine stays (fun p suspended => .inr (.inr ?_)) (by simp)
      obtain ⟨member, status, awake⟩ := known p suspended
      simp only [step, System.waitTurn, isCurrent] at next
      split at next
      · cases next
        exact suspended
      · split at next <;> cases next
        · exact stays_suspended queues.schedule (by simpa using member) (by simpa using status) awake
        · rename_i node _ _
          refine stays_suspended (queues.dropRef node) member ?_ awake
          simp only [dropRef, modify_mem]
          split <;> simp_all
  | sleep millisecond now =>
      refine stays (fun p suspended => .inr (.inr ?_)) (by simp)
      obtain ⟨member, status, awake⟩ := known p suspended
      simp only [step, isCurrent] at next
      rcases queues.sleep isCurrent (admissible.2 current isCurrent) millisecond now with
        result | ⟨k, result, ⟨lists', after⟩, -, wasRunning, allocations, fields⟩ <;>
        rw [result] at next <;> cases next
      · exact stays_suspended queues member status awake
      · have apart : p ≠ current := by
          rintro rfl
          rw [wasRunning] at status
          cases status
        refine stays_suspended after (allocations ▸ member) ?_ ?_
        · rw [(fields p).1, if_neg apart, status]
        · simpa [apart] using awake
  | schedule =>
      cases next
      refine stays (fun p suspended => .inr (.inr ?_)) (by simp)
      obtain ⟨member, status, awake⟩ := known p suspended
      exact stays_suspended queues.schedule (by simpa using member) (by simpa using status) awake
  | clean =>
      obtain ⟨k, result, ⟨lists', after⟩, fields, allocations⟩ := queues.clean
      rw [step, result] at next
      cases next
      refine stays (fun p suspended => .inr (.inr ?_)) (by simp)
      obtain ⟨member, status, awake⟩ := known p suspended
      refine stays_suspended after ((allocations p).2 ⟨member, fun freed => ?_⟩)
        ((fields p).1.trans status) awake
      have dead := queues.status _ _ freed.1
      rw [status] at dead
      cases dead
  | poll clock =>
      obtain ⟨k, result, ⟨lists', after⟩, visits, -, -, allocations⟩ := queues.sleeperPolling clock
      rw [step, result] at next
      cases next
      rw [SuspendKept, PollSpares, queues.suspended_eq]
      constructor
      · rintro kept ⟨p, i⟩ visit awake due
        have here : (lists .suspend)[i]? = some p := List.mk_mem_zipIdx_iff_getElem?.1 visit
        have onList := List.mem_of_getElem? here
        have polled := visits i p here
        rw [Queues.Polled, if_pos due] at polled
        rcases kept p ⟨(queues.onList_iff _ _).2 onList, awake⟩ with wakes | exits | ⟨still, -⟩
        · cases wakes
        · cases exits
        · have status := ((explicitlySuspended_iff (s := settle k _ _) after p).1 still).1.2
          exact absurd (polled.1.symm.trans status) (by decide)
      · intro spares p suspended
        obtain ⟨member, status, awake⟩ := known p suspended
        obtain ⟨i, here⟩ := List.mem_iff_getElem?.1 ((queues.mem_iff _ _).2 ⟨member, status⟩)
        have polled := visits i p here
        rw [Queues.Polled, if_neg (spares (p, i) (List.mk_mem_zipIdx_iff_getElem?.2 here) awake)]
          at polled
        exact .inr (.inr ⟨stays_suspended after (allocations ▸ member) (polled.1.trans status) awake,
          fun _ _ => polled.2⟩)

/-- **When an explicit suspend holds.**  Along every run: each step keeps every
explicitly suspended thread on SUSPEND, unless it wakes or kills it by tid, and
no poll touches such a thread's references, if and only if no poll meets one
that is due. -/
theorem suspend_holds_iff {steps : List (System × Op × System)} (started : s.Started cleaner)
    (run : s.Run steps u) :
    (∀ step ∈ steps, step.1.SuspendKept step.2.1 step.2.2) ↔
      ∀ step ∈ steps, step.1.PollSpares step.2.1 := by
  refine forall₂_congr fun ⟨t, op, v⟩ taken => ?_
  obtain ⟨earlier, before, admissible, next⟩ := run.before taken
  obtain ⟨lists, queues⟩ := before.queues started
  exact suspendKept_iff queues admissible next

/-- Thread 1 sleeps until 100 ms and is woken early, then suspended; a poll at
50 ms spares it. -/
def suspendOps : List Op :=
  [.create (some 0x80500008) none 1 0, .wake 1, .schedule, .sleep 100 0, .wake 1, .suspend 1,
    .poll fun _ => 50]

theorem suspend_holds_iff_early :
    ∃ steps u, (boot (fun _ => Thread.zero) 0x80001000).execute suspendOps = some (steps, u) ∧
      ∀ step ∈ steps, step.1.SuspendKept step.2.1 step.2.2 := by
  have checked : ((boot (fun _ => Thread.zero) 0x80001000).execute suspendOps).map
      (fun result => decide (∀ step ∈ result.1, step.1.PollSpares step.2.1)) = some true := by
    decide +kernel
  obtain ⟨⟨steps, u⟩, executed, spared⟩ := Option.map_eq_some_iff.1 checked
  exact ⟨steps, u, executed,
    (suspend_holds_iff (boot_started _ _) (execute_run executed)).2 (of_decide_eq_true spared)⟩

/-- Thread 1 is suspended and never slept; a poll at time 0 wakes it, with a
reference less than it had. -/
theorem poll_wakes_suspended :
    ∃ steps t clock u, Run (boot (fun _ => Thread.zero) 0x80001000) steps t ∧
      t.Admissible (.poll clock) ∧ t.step (.poll clock) = some u ∧
      t.ExplicitlySuspended 0x80500008 ∧ ¬ OnList u.kernel .suspend 0x80500008 ∧
      (u.kernel.mem 0x80500008).ref ≠ (t.kernel.mem 0x80500008).ref := by
  have checked : ((boot (fun _ => Thread.zero) 0x80001000).execute
      [.create (some 0x80500008) none 1 0, .wake 1, .suspend 1]).bind
      (fun result => (result.2.step (.poll fun _ => 0)).map fun u =>
        decide (0x80500008 ∈ result.2.kernel.allocated ∧
          (result.2.kernel.mem 0x80500008).status = .suspend ∧
          result.2.sleeping 0x80500008 = false ∧ result.2.Admissible (.poll fun _ => 0) ∧
          (u.kernel.mem 0x80500008).status = .running ∧
          (u.kernel.mem 0x80500008).ref ≠ (result.2.kernel.mem 0x80500008).ref)) =
      some true := by decide +kernel
  obtain ⟨⟨steps, t⟩, executed, polled⟩ := Option.bind_eq_some_iff.1 checked
  obtain ⟨u, next, facts⟩ := Option.map_eq_some_iff.1 polled
  obtain ⟨member, suspended, awake, admissible, woken, changed⟩ := of_decide_eq_true facts
  have run := execute_run executed
  obtain ⟨lists, queues⟩ := run.queues (boot_started _ _)
  obtain ⟨lists', queues'⟩ := (run.step admissible next).queues (boot_started _ _)
  refine ⟨steps, t, _, u, run, admissible, next, ?_, ?_, changed⟩
  · exact (explicitlySuspended_iff queues _).2 ⟨⟨member, suspended⟩, awake⟩
  · rw [queues'.onList_iff, queues'.mem_iff, woken]
    simp

end System

end TestOs.Threads
