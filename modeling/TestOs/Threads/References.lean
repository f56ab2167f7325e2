/-
# Threads.References -- when the reference counts are exact

A thread's `ref` should count the threads that poll it in `thread_wait`, plus one
while it is inside `sleep`.  `Exact` states it.  Four operations miss it, each
in one situation, and `KeepsRefs` names the states in which they do not:

* `thread_wake` on a sleeper does not give back the reference `sleep` took;
* `thread_exit` gives one back to any suspended thread with a non-zero
  `wake_millisecond`, which a thread that slept earlier still has, and to no
  sleeper whose wake time is 0; and it kills a thread inside `thread_wait`
  without the reference that the thread holds;
* `sleeper_polling` takes one from every thread on SUSPEND that is due, asleep
  or not, and a thread that never slept is due at once.

The counts are exact along every run whose steps all meet `KeepsRefs`
(`refs_exact`), and `poll_underflow` is a run without such a step.
-/
import TestOs.Threads.Runs

namespace TestOs.Threads

open TestOs.Library Kernel

set_option autoImplicit false

/-- How many threads poll `p` in `thread_wait`. -/
def waiters (k : Kernel) (waiting : Ptr → Option Ptr) (p : Ptr) : Nat :=
  (k.allocated.filter fun w => waiting w = some p).card

/-- The references that `p` ought to have. -/
def owed (k : Kernel) (waiting : Ptr → Option Ptr) (sleeping : Ptr → Bool) (p : Ptr) : Nat :=
  waiters k waiting p + if sleeping p then 1 else 0

/-- Every count is exact, and only live threads are counted or polled. -/
structure Exact (k : Kernel) (waiting : Ptr → Option Ptr) (sleeping : Ptr → Bool) : Prop where
  count : ∀ p ∈ k.allocated, (k.mem p).ref.toNat = owed k waiting sleeping p
  polled : ∀ w p, waiting w = some p → p ∈ k.allocated
  waiter : ∀ w, waiting w ≠ none → w ∈ k.allocated ∧ (k.mem w).status ≠ .died
  asleep : ∀ p, sleeping p = true → p ∈ k.allocated ∧ (k.mem p).status = .suspend

namespace System

/-- The states in which an operation keeps the counts exact. -/
def KeepsRefs (s : System) : Op → Prop
  | .wake tid => ∀ p ∈ s.kernel.allocated, (s.kernel.mem p).tid = tid → s.sleeping p = false
  | .exit tid => tid ≠ 0 → ∀ p ∈ s.kernel.allocated, (s.kernel.mem p).tid = tid →
      s.waiting p = none ∧
        ((s.kernel.mem p).status = .suspend →
          if s.sleeping p then (s.kernel.mem p).wakeMillisecond ≠ 0
          else (s.kernel.mem p).wakeMillisecond = 0 ∨ (s.kernel.mem p).ref = 0)
  | .poll clock => ∀ visit ∈ s.kernel.suspended.zipIdx,
      (s.kernel.mem visit.1).wakeMillisecond ≤ clock visit.2 → s.sleeping visit.1 = true
  | _ => True

instance (s : System) (op : Op) : Decidable (s.KeepsRefs op) :=
  match op with
  | .wake tid => inferInstanceAs (Decidable (∀ p ∈ s.kernel.allocated,
      (s.kernel.mem p).tid = tid → s.sleeping p = false))
  | .exit tid => inferInstanceAs (Decidable (tid ≠ 0 → ∀ p ∈ s.kernel.allocated,
      (s.kernel.mem p).tid = tid → _ ∧ (_ → if s.sleeping p then _ else _)))
  | .poll clock => inferInstanceAs (Decidable (∀ visit ∈ s.kernel.suspended.zipIdx,
      (s.kernel.mem visit.1).wakeMillisecond ≤ clock visit.2 → s.sleeping visit.1 = true))
  | .create .. | .suspend _ | .wait _ | .waitTurn | .sleep .. | .schedule | .clean =>
      inferInstanceAs (Decidable True)

end System

/-! ## Who is still blocked -/

section Settle

variable {k : Kernel} {waiting : Ptr → Option Ptr} {sleeping : Ptr → Bool}

theorem System.settle_waiting (alive : ∀ w, waiting w ≠ none → (k.mem w).status ≠ .died) :
    (System.settle k waiting sleeping).waiting = waiting := by
  funext w
  simp only [System.settle]
  split
  · rename_i dead
    by_contra polls
    exact alive w (Ne.symm polls) dead
  · rfl

theorem System.settle_sleeping (asleep : ∀ p, sleeping p = true → (k.mem p).status = .suspend) :
    (System.settle k waiting sleeping).sleeping = sleeping := by
  funext p
  by_cases sleeps : sleeping p = true
  · simp [System.settle, sleeps, asleep p sleeps]
  · simp [System.settle, Bool.eq_false_iff.2 sleeps]

/-- One more thread polls `node`. -/
theorem waiters_update {w : Ptr} (member : w ∈ k.allocated) (free : waiting w = none)
    (node p : Ptr) :
    waiters k (Function.update waiting w (some node)) p =
      waiters k waiting p + if p = node then 1 else 0 := by
  have others : ∀ q ∈ k.allocated.erase w,
      (Function.update waiting w (some node) q = some p ↔ waiting q = some p) := by
    intro q inside
    rw [Function.update_of_ne (Finset.ne_of_mem_erase inside)]
  have split : k.allocated = insert w (k.allocated.erase w) := (Finset.insert_erase member).symm
  have outside : w ∉ (k.allocated.erase w).filter fun q => waiting q = some p := by simp
  rw [waiters, waiters, split, Finset.filter_insert, Finset.filter_insert,
    Finset.filter_congr others, Function.update_self, free]
  by_cases same : p = node
  · subst same
    simp [Finset.card_insert_of_notMem outside]
  · simp [same, Ne.symm same]

/-- Fewer than 257 threads can poll one. -/
theorem waiters_le {lists : ThreadStatus → List Ptr} (waiting : Ptr → Option Ptr) (queues : Queues k lists) (p : Ptr) :
    waiters k waiting p ≤ kernelThreadMax :=
  (Finset.card_filter_le k.allocated _).trans queues.toListed.card_le

end Settle

/-! ## One operation -/

namespace System

variable {s t : System} {lists : ThreadStatus → List Ptr}

/-- The counts of a state are exact. -/
def RefsExact (s : System) : Prop := Exact s.kernel s.waiting s.sleeping

namespace RefsExact

theorem sleeper_ref (counts : s.RefsExact) {p : Ptr} (sleeps : s.sleeping p = true) :
    0 < (s.kernel.mem p).ref.toNat := by
  rw [counts.count p (counts.asleep p sleeps).1, owed, if_pos sleeps]
  exact Nat.succ_pos _

theorem awake (counts : s.RefsExact) {p : Ptr} (status : (s.kernel.mem p).status ≠ .suspend) :
    s.sleeping p = false := by
  by_contra sleeps
  exact status (counts.asleep p (by simpa using sleeps)).2

/-- An operation that frees nobody, kills no waiter, and takes one reference
from exactly the sleepers it takes off SUSPEND. -/
theorem plain (counts : s.RefsExact) {k : Kernel} (allocations : k.allocated = s.kernel.allocated)
    (alive : ∀ w, s.waiting w ≠ none → (k.mem w).status ≠ .died)
    (kept : ∀ p ∈ s.kernel.allocated,
      (s.sleeping p = true → (k.mem p).status = .suspend) → (k.mem p).ref = (s.kernel.mem p).ref)
    (woken : ∀ p, s.sleeping p = true → (k.mem p).status ≠ .suspend →
      (k.mem p).ref = (s.kernel.mem p).ref - 1) :
    (settle k s.waiting s.sleeping).RefsExact := by
  rw [RefsExact, settle_waiting alive]
  refine ⟨fun p member => ?_, fun w p polls => ?_, fun w polls => ?_, fun p sleeps => ?_⟩
  · have member' : p ∈ s.kernel.allocated := allocations ▸ member
    have counted := counts.count p member'
    change (k.mem p).ref.toNat = waiters k s.waiting p +
      if (s.sleeping p && decide ((k.mem p).status = .suspend)) = true then 1 else 0
    rw [owed, waiters, ← allocations] at counted
    rw [waiters]
    by_cases sleeps : s.sleeping p = true
    · by_cases still : (k.mem p).status = .suspend
      · rw [kept p member' fun _ => still, counted]
        simp [sleeps, still]
      · have positive := counts.sleeper_ref sleeps
        rw [woken p sleeps still]
        rw [if_pos sleeps] at counted
        simp only [still, decide_false, Bool.and_false, Bool.false_eq_true, if_false]
        bv_omega
    · rw [kept p member' fun yes => absurd yes sleeps, counted]
      simp [sleeps]
  · exact allocations ▸ counts.polled w p polls
  · exact ⟨allocations ▸ (counts.waiter w polls).1, alive w polls⟩
  · simp only [settle, Bool.and_eq_true, decide_eq_true_eq] at sleeps
    exact ⟨allocations ▸ (counts.asleep p sleeps.1).1, sleeps.2⟩

/-- Nothing but the current thread changed. -/
theorem unmoved (counts : s.RefsExact) {k : Kernel} (mems : k.mem = s.kernel.mem)
    (allocations : k.allocated = s.kernel.allocated) :
    (settle k s.waiting s.sleeping).RefsExact := by
  refine counts.plain allocations (fun w polls => ?_) (fun p _ _ => by rw [mems])
    fun p sleeps moved => ?_
  · rw [mems]
    exact (counts.waiter w polls).2
  · rw [mems] at moved
    exact absurd (counts.asleep p sleeps).2 moved

/-- A thread that is not asleep moves to a list of the living. -/
theorem shifted (counts : s.RefsExact) {k : Kernel} {node : Ptr} {st : ThreadStatus}
    (shifted : Shifted s.kernel k node st) (refs : ∀ p, (k.mem p).ref = (s.kernel.mem p).ref)
    (living : st ≠ .died) (awake : s.sleeping node = false) :
    (settle k s.waiting s.sleeping).RefsExact := by
  refine counts.plain shifted.allocated (fun w polls => ?_) (fun p _ _ => refs p)
    fun p sleeps moved => ?_
  · rw [shifted.status]
    split
    · exact living
    · exact (counts.waiter w polls).2
  · have apart : p ≠ node := by
      rintro rfl
      rw [awake] at sleeps
      cases sleeps
    rw [shifted.status, if_neg apart] at moved
    exact absurd (counts.asleep p sleeps).2 moved

/-- A thread that polls nobody dies, and gives back the reference of its sleep. -/
theorem exit (counts : s.RefsExact) {k : Kernel} {node : Ptr}
    (shifted : Shifted s.kernel k node .died)
    (refs : ∀ p, (k.mem p).ref =
      if p = node then Queues.exitRef (s.kernel.mem node) else (s.kernel.mem p).ref)
    (free : s.waiting node = none)
    (told : (s.kernel.mem node).status = .suspend →
      if s.sleeping node then (s.kernel.mem node).wakeMillisecond ≠ 0
      else (s.kernel.mem node).wakeMillisecond = 0 ∨ (s.kernel.mem node).ref = 0) :
    (settle k s.waiting s.sleeping).RefsExact := by
  refine counts.plain shifted.allocated (fun w polls => ?_) (fun p _ stays => ?_)
    fun p sleeps moved => ?_
  · have apart : w ≠ node := fun same => polls (same ▸ free)
    rw [shifted.status, if_neg apart]
    exact (counts.waiter w polls).2
  · rw [refs]
    split
    · rename_i same
      subst same
      -- it is dead now, so it was not asleep
      have awake : s.sleeping p = false := by
        by_contra sleeps
        have status := stays (by simpa using sleeps)
        rw [shifted.status, if_pos rfl] at status
        cases status
      rw [Queues.exitRef, if_neg]
      rintro ⟨suspended, slept, positive⟩
      have unreferenced := told suspended
      rw [awake] at unreferenced
      rcases unreferenced with never | zero
      · exact slept never
      · rw [zero] at positive
        cases positive
    · rfl
  · have suspended := (counts.asleep p sleeps).2
    by_cases same : p = node
    · subst same
      have slept := told suspended
      rw [if_pos sleeps] at slept
      rw [refs, if_pos rfl, Queues.exitRef, if_pos ⟨suspended, slept, counts.sleeper_ref sleeps⟩]
    · rw [shifted.status, if_neg same] at moved
      exact absurd suspended moved

/-- A pass of the poller that wakes sleepers only. -/
theorem poll (counts : s.RefsExact) (queues : Queues s.kernel lists) {k : Kernel}
    {clock : Nat → BitVec 32}
    (visits : ∀ i p, (lists .suspend)[i]? = some p → Queues.Polled s.kernel k (clock i) p)
    (frame : ∀ p ∉ lists .suspend,
      (k.mem p).status = (s.kernel.mem p).status ∧ (k.mem p).ref = (s.kernel.mem p).ref)
    (allocations : k.allocated = s.kernel.allocated)
    (sleepers : ∀ i p, (lists .suspend)[i]? = some p →
      (s.kernel.mem p).wakeMillisecond ≤ clock i → s.sleeping p = true) :
    (settle k s.waiting s.sleeping).RefsExact := by
  refine counts.plain allocations (fun w polls => ?_) (fun p _ stays => ?_)
    fun p sleeps moved => ?_
  · by_cases visited : w ∈ lists .suspend
    · obtain ⟨i, here⟩ := List.mem_iff_getElem?.1 visited
      have polled := visits i w here
      rw [Queues.Polled] at polled
      split at polled
      · simp [polled.1]
      · rw [polled.1]
        exact (counts.waiter w polls).2
    · rw [(frame w visited).1]
      exact (counts.waiter w polls).2
  · by_cases visited : p ∈ lists .suspend
    · obtain ⟨i, here⟩ := List.mem_iff_getElem?.1 visited
      have polled := visits i p here
      rw [Queues.Polled] at polled
      split at polled
      · rename_i due
        have status := stays (sleepers i p here due)
        rw [polled.1] at status
        cases status
      · exact polled.2
    · exact (frame p visited).2
  · have visited : p ∈ lists .suspend := (queues.mem_iff _ _).2 (counts.asleep p sleeps)
    obtain ⟨i, here⟩ := List.mem_iff_getElem?.1 visited
    have polled := visits i p here
    rw [Queues.Polled] at polled
    split at polled
    · exact polled.2
    · rw [polled.1] at moved
      exact absurd (counts.asleep p sleeps).2 moved

theorem create (counts : s.RefsExact) {k : Kernel}
    (mems : ∀ q ∈ s.kernel.allocated, k.mem q = s.kernel.mem q) {p : Ptr}
    (new : p ∉ s.kernel.allocated) (allocations : k.allocated = insert p s.kernel.allocated)
    (unreferenced : (k.mem p).ref = 0) : (settle k s.waiting s.sleeping).RefsExact := by
  have idle : s.waiting p = none := by
    by_contra polls
    exact new (counts.waiter p polls).1
  have awake : s.sleeping p = false := by
    by_contra sleeps
    exact new (counts.asleep p (by simpa using sleeps)).1
  have alive : ∀ w, s.waiting w ≠ none → (k.mem w).status ≠ .died := fun w polls => by
    rw [mems w (counts.waiter w polls).1]
    exact (counts.waiter w polls).2
  have asleep : ∀ q, s.sleeping q = true → (k.mem q).status = .suspend := fun q sleeps => by
    rw [mems q (counts.asleep q sleeps).1]
    exact (counts.asleep q sleeps).2
  have same : ∀ q, waiters k s.waiting q = waiters s.kernel s.waiting q := by
    intro q
    simp only [waiters, allocations, Finset.filter_insert, idle, reduceCtorEq, if_false]
  have grown : ∀ {q}, q ∈ s.kernel.allocated → q ∈ k.allocated := fun member => by
    rw [allocations]
    exact Finset.mem_insert_of_mem member
  rw [RefsExact, settle_waiting alive, settle_sleeping asleep]
  refine ⟨fun q member => ?_, fun w q polls => grown (counts.polled w q polls),
    fun w polls => ⟨grown (counts.waiter w polls).1, alive w polls⟩,
    fun q sleeps => ⟨grown (counts.asleep q sleeps).1, asleep q sleeps⟩⟩
  change (k.mem q).ref.toNat = waiters k s.waiting q + if s.sleeping q = true then 1 else 0
  have member' : q ∈ insert p s.kernel.allocated := allocations ▸ member
  rw [same q]
  rcases Finset.mem_insert.1 member' with rfl | member'
  · have nobody : waiters s.kernel s.waiting q = 0 := by
      simp only [waiters, Finset.card_eq_zero, Finset.filter_eq_empty_iff]
      exact fun w _ polls => new (counts.polled w q polls)
    simp [unreferenced, nobody, awake]
  · rw [mems q member']
    exact counts.count q member'

/-- A thread that was free enters `thread_wait`. -/
theorem wait (counts : s.RefsExact) (queues : Queues s.kernel lists) {current node : Ptr}
    (isCurrent : s.kernel.currentThread = some current) (free : s.waiting current = none)
    (member : node ∈ s.kernel.allocated) :
    (settle (s.kernel.takeRef node) (Function.update s.waiting current (some node))
      s.sleeping).RefsExact := by
  obtain ⟨p, running, isP⟩ := queues.current
  obtain rfl : p = current := Option.some.inj (isP.symm.trans isCurrent)
  have listed := (queues.mem_iff _ _).1 running
  have status : ∀ q, ((s.kernel.takeRef node).mem q).status = (s.kernel.mem q).status := by
    intro q
    simp only [takeRef, modify_mem]
    split <;> simp_all
  have waiter : ∀ w, Function.update s.waiting p (some node) w ≠ none →
      w ∈ s.kernel.allocated ∧ ((s.kernel.takeRef node).mem w).status ≠ .died := by
    intro w polls
    rw [status]
    by_cases same : w = p
    · subst same
      exact ⟨listed.1, by simp [listed.2]⟩
    · rw [Function.update_of_ne same] at polls
      exact counts.waiter w polls
  have asleep : ∀ q, s.sleeping q = true → ((s.kernel.takeRef node).mem q).status = .suspend :=
    fun q sleeps => (status q).trans (counts.asleep q sleeps).2
  rw [RefsExact, settle_waiting fun w polls => (waiter w polls).2, settle_sleeping asleep]
  refine ⟨fun q inside => ?_, fun w q polls => ?_, waiter,
    fun q sleeps => ⟨(counts.asleep q sleeps).1, asleep q sleeps⟩⟩
  · change ((s.kernel.takeRef node).mem q).ref.toNat =
      waiters s.kernel (Function.update s.waiting p (some node)) q +
        if s.sleeping q = true then 1 else 0
    have counted := counts.count q inside
    have few := waiters_le s.waiting queues q
    rw [waiters_update listed.1 free]
    rw [owed] at counted
    simp only [takeRef, modify_mem, kernelThreadMax] at few ⊢
    by_cases same : q = node
    · subst same
      simp only [if_true]
      split at counted <;> simp only [*, if_true, if_false, Bool.false_eq_true] <;> bv_omega
    · simpa [same] using counted
  · by_cases same : w = p
    · subst same
      rw [Function.update_self, Option.some.injEq] at polls
      exact polls ▸ member
    · rw [Function.update_of_ne same] at polls
      exact counts.polled w q polls

/-- A waiter whose thread has died leaves `thread_wait`. -/
theorem waitTurn (counts : s.RefsExact) {current node : Ptr}
    (polls : s.waiting current = some node) :
    (settle (s.kernel.dropRef node) (Function.update s.waiting current none)
      s.sleeping).RefsExact := by
  have known := counts.waiter current (by simp [polls])
  have member := counts.polled current node polls
  have status : ∀ q, ((s.kernel.dropRef node).mem q).status = (s.kernel.mem q).status := by
    intro q
    simp only [dropRef, modify_mem]
    split <;> simp_all
  have others : ∀ w, Function.update s.waiting current none w ≠ none → s.waiting w ≠ none := by
    intro w still
    by_cases same : w = current
    · simp [same] at still
    · rwa [Function.update_of_ne same] at still
  have alive : ∀ w, Function.update s.waiting current none w ≠ none →
      ((s.kernel.dropRef node).mem w).status ≠ .died := by
    intro w still
    rw [status]
    exact (counts.waiter w (others w still)).2
  have asleep : ∀ q, s.sleeping q = true → ((s.kernel.dropRef node).mem q).status = .suspend :=
    fun q sleeps => (status q).trans (counts.asleep q sleeps).2
  rw [RefsExact, settle_waiting alive, settle_sleeping asleep]
  refine ⟨fun q inside => ?_, fun w q still => ?_,
    fun w still => ⟨(counts.waiter w (others w still)).1, alive w still⟩,
    fun q sleeps => ⟨(counts.asleep q sleeps).1, asleep q sleeps⟩⟩
  · change ((s.kernel.dropRef node).mem q).ref.toNat =
      waiters s.kernel (Function.update s.waiting current none) q +
        if s.sleeping q = true then 1 else 0
    -- before the step, the caller was one more waiter
    have free : Function.update s.waiting current none current = none := by simp
    have before := waiters_update known.1 free node q
    rw [Function.update_idem, ← polls, Function.update_eq_self] at before
    have counted := counts.count q inside
    rw [owed, before] at counted
    simp only [dropRef, modify_mem]
    by_cases same : q = node
    · subst same
      simp only [if_true] at counted ⊢
      bv_omega
    · simpa [same] using counted
  · by_cases same : w = current
    · simp [same] at still
    · rw [Function.update_of_ne same] at still
      exact counts.polled w q still

/-- The current thread goes to sleep. -/
theorem sleep (counts : s.RefsExact) (queues : Queues s.kernel lists) {k : Kernel} {current : Ptr}
    (running : (s.kernel.mem current).status = .running) (member : current ∈ s.kernel.allocated)
    (allocations : k.allocated = s.kernel.allocated)
    (statuses : ∀ p, (k.mem p).status =
      if p = current then .suspend else (s.kernel.mem p).status)
    (refs : ∀ p, (k.mem p).ref =
      if p = current then (s.kernel.mem p).ref + 1 else (s.kernel.mem p).ref) :
    (settle k s.waiting (Function.update s.sleeping current true)).RefsExact := by
  have wasAwake : s.sleeping current = false := counts.awake (by simp [running])
  have alive : ∀ w, s.waiting w ≠ none → (k.mem w).status ≠ .died := by
    intro w polls
    rw [statuses]
    split
    · simp
    · exact (counts.waiter w polls).2
  have asleep : ∀ q, Function.update s.sleeping current true q = true →
      q ∈ k.allocated ∧ (k.mem q).status = .suspend := by
    intro q sleeps
    rw [allocations, statuses]
    by_cases same : q = current
    · subst same
      exact ⟨member, if_pos rfl⟩
    · rw [Function.update_of_ne same] at sleeps
      rw [if_neg same]
      exact counts.asleep q sleeps
  rw [RefsExact, settle_waiting alive, settle_sleeping fun q sleeps => (asleep q sleeps).2]
  refine ⟨fun q inside => ?_, fun w q polls => allocations ▸ counts.polled w q polls,
    fun w polls => ⟨allocations ▸ (counts.waiter w polls).1, alive w polls⟩, asleep⟩
  have counted := counts.count q (allocations ▸ inside)
  have few := waiters_le s.waiting queues q
  change (k.mem q).ref.toNat = waiters k s.waiting q +
    if Function.update s.sleeping current true q = true then 1 else 0
  rw [owed, waiters, ← allocations] at counted
  rw [waiters, ← allocations] at few
  rw [refs, waiters]
  simp only [kernelThreadMax] at few
  by_cases same : q = current
  · subst same
    simp only [wasAwake, Bool.false_eq_true, if_false] at counted
    simp only [Function.update_self, if_true]
    bv_omega
  · simpa [same] using counted

/-- The cleaner frees nobody who is polled. -/
theorem clean (counts : s.RefsExact) (queues : Queues s.kernel lists) {k : Kernel}
    (statuses : ∀ p, (k.mem p).status = (s.kernel.mem p).status)
    (refs : ∀ p, (k.mem p).ref = (s.kernel.mem p).ref)
    (allocations : ∀ p, p ∈ k.allocated ↔
      p ∈ s.kernel.allocated ∧ ¬ (p ∈ lists .died ∧ (s.kernel.mem p).ref = 0)) :
    (settle k s.waiting s.sleeping).RefsExact := by
  have alive : ∀ w, s.waiting w ≠ none → w ∈ k.allocated ∧ (k.mem w).status ≠ .died := by
    intro w polls
    have known := counts.waiter w polls
    rw [allocations, statuses]
    exact ⟨⟨known.1, fun freed => known.2 (queues.status _ _ freed.1)⟩, known.2⟩
  have asleep : ∀ q, s.sleeping q = true → q ∈ k.allocated ∧ (k.mem q).status = .suspend := by
    intro q sleeps
    have known := counts.asleep q sleeps
    rw [allocations, statuses]
    refine ⟨⟨known.1, fun freed => ?_⟩, known.2⟩
    have dead := queues.status _ _ freed.1
    rw [known.2] at dead
    cases dead
  have same : ∀ p, waiters k s.waiting p = waiters s.kernel s.waiting p := by
    intro p
    rw [waiters, waiters]
    congr 1
    ext w
    simp only [Finset.mem_filter, allocations]
    refine ⟨fun ⟨left, polls⟩ => ⟨left.1, polls⟩, fun ⟨_, polls⟩ => ⟨?_, polls⟩⟩
    exact (allocations w).1 (alive w (by simp [polls])).1
  rw [RefsExact, settle_waiting fun w polls => (alive w polls).2,
    settle_sleeping fun q sleeps => (asleep q sleeps).2]
  refine ⟨fun q inside => ?_, fun w q polls => ?_, alive, asleep⟩
  · change (k.mem q).ref.toNat = waiters k s.waiting q + if s.sleeping q = true then 1 else 0
    rw [refs, same q]
    exact counts.count q ((allocations q).1 inside).1
  · -- a polled thread has a waiter to its count
    have member := counts.polled w q polls
    refine (allocations q).2 ⟨member, fun freed => ?_⟩
    have counted := counts.count q member
    have positive : 0 < waiters s.kernel s.waiting q :=
      Finset.card_pos.2 ⟨w, by simp [polls, (counts.waiter w (by simp [polls])).1]⟩
    rw [freed.2, owed] at counted
    simp at counted
    omega

end RefsExact

/-! ## Every step, and every run -/

variable {u : System} {cleaner : Ptr}

/-- An admissible operation that `KeepsRefs` allows keeps the counts exact. -/
theorem step_refs {op : Op} (queues : Queues s.kernel lists) (counts : s.RefsExact)
    (admissible : s.Admissible op) (keeps : s.KeepsRefs op) (next : s.step op = some t) :
    t.RefsExact := by
  obtain ⟨current, running, isCurrent⟩ := queues.current
  cases op with
  | create newThread name handler params =>
      obtain ⟨-, mems, allocations⟩ := queues.threadCreate newThread name handler params
        fun p new => admissible.2 p new
      cases next
      rcases allocations with allocations | ⟨p, new, allocations, -, unreferenced⟩
      · refine counts.plain allocations (fun w polls => ?_) (fun p member _ => by rw [mems p member])
          fun p sleeps moved => ?_
        · rw [mems w (counts.waiter w polls).1]
          exact (counts.waiter w polls).2
        · rw [mems p (counts.asleep p sleeps).1] at moved
          exact absurd (counts.asleep p sleeps).2 moved
      · exact counts.create mems (admissible.2 p new) allocations unreferenced
  | wake tid =>
      obtain ⟨k, result, -, effect⟩ := queues.threadWake tid
      rw [step, result] at next
      cases next
      rcases effect with ⟨rfl, -⟩ | ⟨node, member, same, -, shifted, refs⟩
      · exact counts.unmoved rfl rfl
      · exact counts.shifted shifted refs (by decide) (keeps node member same)
  | suspend tid =>
      obtain ⟨k, result, -, effect⟩ := queues.threadSuspend tid
      rw [step, result] at next
      cases next
      rcases effect with ⟨rfl, -⟩ | ⟨node, -, -, -, status, shifted, refs⟩
      · exact counts.unmoved rfl rfl
      · exact counts.shifted shifted refs (by decide) (counts.awake (by simp [status]))
  | exit tid =>
      obtain ⟨k, result, -, effect⟩ := queues.threadExit tid
      rw [step, result] at next
      cases next
      rcases effect with rfl | ⟨node, member, same, other, -, shifted, refs⟩
      · exact counts.unmoved rfl rfl
      · obtain ⟨free, told⟩ := keeps other node member same
        exact counts.exit shifted refs free told
  | wait tid =>
      have free : s.waiting current = none := admissible current isCurrent
      simp only [step, isCurrent] at next
      rcases queues.threadWait tid with result | ⟨node, member, -, -, -, result⟩ <;>
        rw [result] at next <;> cases next
      · have unchanged : Function.update s.waiting current none = s.waiting := by
          rw [← free, Function.update_eq_self]
        change (settle s.kernel (Function.update s.waiting current none) s.sleeping).RefsExact
        rw [unchanged]
        exact counts.unmoved rfl rfl
      · exact counts.wait queues isCurrent free member
  | waitTurn =>
      simp only [step, System.waitTurn, isCurrent] at next
      split at next
      · cases next
        exact counts
      · rename_i node polls
        split at next <;> cases next
        · exact counts.unmoved (by simp) (by simp)
        · exact counts.waitTurn polls
  | sleep millisecond now =>
      simp only [step, isCurrent] at next
      rcases queues.sleep isCurrent (admissible.2 current isCurrent) millisecond now with
        result | ⟨k, result, -, member, status, allocations, fields⟩ <;>
        rw [result] at next <;> cases next
      · exact counts.unmoved rfl rfl
      · exact counts.sleep queues status member allocations (fun p => (fields p).1)
          fun p => (fields p).2.2.1
  | schedule =>
      cases next
      exact counts.unmoved (by simp) (by simp)
  | poll clock =>
      obtain ⟨k, result, -, visits, frame, -, allocations⟩ := queues.sleeperPolling clock
      rw [step, result] at next
      cases next
      refine counts.poll queues visits frame allocations fun i p here due => ?_
      rw [← queues.suspended_eq] at here
      exact keeps (p, i) (List.mk_mem_zipIdx_iff_getElem?.2 here) due
  | clean =>
      obtain ⟨k, result, -, fields, allocations⟩ := queues.clean
      rw [step, result] at next
      cases next
      exact counts.clean queues (fun p => (fields p).1) (fun p => (fields p).2.2) allocations

theorem Started.refs (started : s.Started cleaner) : s.RefsExact where
  count p member := by
    rw [started.allocated, Finset.mem_singleton] at member
    subst member
    simp [owed, waiters, started.ref, started.waiting, started.sleeping]
  polled w p polls := by simp [started.waiting] at polls
  waiter w polls := absurd (started.waiting w) polls
  asleep p sleeps := by simp [started.sleeping] at sleeps

theorem Run.refs {steps : List (System × Op × System)} (started : s.Started cleaner)
    (run : s.Run steps u) (keeps : ∀ step ∈ steps, step.1.KeepsRefs step.2.1) : u.RefsExact := by
  have both : (∃ lists, Queues u.kernel lists) ∧ u.RefsExact := by
    refine run.invariant (fun t => (∃ lists, Queues t.kernel lists) ∧ t.RefsExact)
      ⟨⟨_, started.queues⟩, started.refs⟩ ?_
    intro t op v taken ⟨⟨lists, queues⟩, counts⟩ admissible next
    refine ⟨?_, step_refs queues counts admissible (keeps _ taken) next⟩
    obtain ⟨v', result, after⟩ := step_queues queues admissible
    cases next.symm.trans result
    exact after
  exact both.2

/-- **Exact reference counts.**  Along every run whose steps `KeepsRefs` allows,
each thread's `ref` counts the threads that poll it, plus one while it is
asleep; so a thread that is polled has not been freed, and a dead one that is
not polled is free of references. -/
theorem refs_exact {steps : List (System × Op × System)} (started : s.Started cleaner)
    (run : s.Run steps u) (keeps : ∀ step ∈ steps, step.1.KeepsRefs step.2.1) :
    (∀ p ∈ u.kernel.allocated, (u.kernel.mem p).ref.toNat =
      waiters u.kernel u.waiting p + if u.sleeping p then 1 else 0) ∧
      (∀ w p, u.waiting w = some p → p ∈ u.kernel.allocated) ∧
      ∀ p ∈ u.kernel.allocated, (u.kernel.mem p).status = .died →
        waiters u.kernel u.waiting p = 0 → (u.kernel.mem p).ref = 0 := by
  have counts := run.refs started keeps
  refine ⟨counts.count, counts.polled, fun p member dead nobody => ?_⟩
  have counted := counts.count p member
  rw [owed, nobody, counts.awake (by simp [dead])] at counted
  exact BitVec.eq_of_toNat_eq counted

/-- Thread 1 sleeps for 100 ms, thread 2 waits for it, and a poll at 50 ms
leaves it asleep. -/
def sleepOps : List Op :=
  [.create (some 0x80500008) none 1 0, .wake 1, .create (some 0x80501008) none 2 0, .wake 2,
    .schedule, .schedule, .sleep 100 0, .schedule, .wait 1, .schedule, .poll fun _ => 50]

theorem refs_exact_sleep :
    ∃ steps u, (boot (fun _ => Thread.zero) 0x80001000).execute sleepOps = some (steps, u) ∧
      (∀ step ∈ steps, step.1.KeepsRefs step.2.1) ∧
      (u.kernel.mem 0x80500008).ref.toNat = waiters u.kernel u.waiting 0x80500008 + 1 := by
  have checked : ((boot (fun _ => Thread.zero) 0x80001000).execute sleepOps).map
      (fun result => (decide (∀ step ∈ result.1, step.1.KeepsRefs step.2.1),
        decide (0x80500008 ∈ result.2.kernel.allocated), result.2.sleeping 0x80500008)) =
      some (true, true, true) := by decide +kernel
  obtain ⟨⟨steps, u⟩, executed, facts⟩ := Option.map_eq_some_iff.1 checked
  simp only [Prod.mk.injEq, decide_eq_true_eq] at facts
  obtain ⟨keeps, member, sleeps⟩ := facts
  have counts := refs_exact (boot_started _ _) (execute_run executed) keeps
  exact ⟨steps, u, executed, keeps, by simpa [sleeps] using counts.1 _ member⟩

/-- A thread that was suspended, and never slept, is due at once: the poller
takes a reference from it that it never had. -/
theorem poll_underflow :
    ∃ steps u, Run (boot (fun _ => Thread.zero) 0x80001000) steps u ∧
      0x80500008 ∈ u.kernel.allocated ∧ (u.kernel.mem 0x80500008).ref = 0xffffffff ∧
      waiters u.kernel u.waiting 0x80500008 = 0 ∧ u.sleeping 0x80500008 = false := by
  have checked : ((boot (fun _ => Thread.zero) 0x80001000).execute
      [.create (some 0x80500008) none 1 0, .wake 1, .suspend 1, .poll fun _ => 0]).map
      (fun result => (decide (0x80500008 ∈ result.2.kernel.allocated),
        (result.2.kernel.mem 0x80500008).ref,
        waiters result.2.kernel result.2.waiting 0x80500008, result.2.sleeping 0x80500008)) =
      some (true, 0xffffffff, 0, false) := by decide +kernel
  obtain ⟨⟨steps, u⟩, executed, facts⟩ := Option.map_eq_some_iff.1 checked
  simp only [Prod.mk.injEq, decide_eq_true_eq] at facts
  exact ⟨steps, u, execute_run executed, facts.1, facts.2.1, facts.2.2.1, facts.2.2.2⟩

end System

end TestOs.Threads
