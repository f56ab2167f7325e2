/-
# Threads.Waiting -- thread_wait waits

`thread_wait` searches RUNNING and SUSPEND, so for a READY thread it comes back
at once.  For any other live thread it polls the node and holds a reference on
it; the wait is safe as long as no other reference than one too many is taken
from a node that somebody polls.  The poller and `thread_exit` do not look
whether they are owed the reference they take.

`Covered` is the invariant that carries it: no node has fewer references than
threads that poll it.  `Spares` names the states in which an operation keeps it,
and `wait_holds` is what it is for.
-/
import TestOs.Threads.References

namespace TestOs.Threads

open TestOs.Library Kernel

set_option autoImplicit false

namespace System

/-- Every node that somebody polls is there, with a reference for each of them. -/
structure Covered (s : System) : Prop where
  count : ∀ p ∈ s.kernel.allocated, waiters s.kernel s.waiting p ≤ (s.kernel.mem p).ref.toNat
  polled : ∀ w p, s.waiting w = some p → p ∈ s.kernel.allocated
  waiter : ∀ w, s.waiting w ≠ none → w ∈ s.kernel.allocated ∧ (s.kernel.mem w).status ≠ .died

/-- A reference more than the threads that poll the node. -/
def Spare (s : System) (p : Ptr) : Prop :=
  waiters s.kernel s.waiting p < (s.kernel.mem p).ref.toNat

instance (s : System) (p : Ptr) : Decidable (s.Spare p) := inferInstanceAs (Decidable (_ < _))

/-- The states in which an operation leaves the waiting threads their references:
nobody waits for a READY thread; a due thread of SUSPEND, and a suspended one with
a wake time that exits, has one to spare; and no count runs over. -/
def Spares (s : System) : Op → Prop
  | .wait tid => tid ≠ 0 → ∀ p ∈ s.kernel.allocated, (s.kernel.mem p).tid = tid →
      (s.kernel.mem p).status ≠ .ready ∧
        ((s.kernel.mem p).status ≠ .died → (s.kernel.mem p).ref ≠ 0xffffffff)
  | .exit tid => tid ≠ 0 → ∀ p ∈ s.kernel.allocated, (s.kernel.mem p).tid = tid →
      (s.kernel.mem p).status = .suspend → (s.kernel.mem p).wakeMillisecond ≠ 0 →
        (s.kernel.mem p).ref ≠ 0 → s.Spare p
  | .sleep millisecond _ => sleepThreshold < millisecond.toNat →
      ∀ p ∈ s.kernel.currentThread, (s.kernel.mem p).ref ≠ 0xffffffff
  | .poll clock => ∀ visit ∈ s.kernel.suspended.zipIdx,
      (s.kernel.mem visit.1).wakeMillisecond ≤ clock visit.2 → s.Spare visit.1
  | _ => True

instance (s : System) (op : Op) : Decidable (s.Spares op) :=
  match op with
  | .wait tid => inferInstanceAs (Decidable (tid ≠ 0 → ∀ p ∈ s.kernel.allocated,
      (s.kernel.mem p).tid = tid → _ ∧ (_ → _)))
  | .exit tid => inferInstanceAs (Decidable (tid ≠ 0 → ∀ p ∈ s.kernel.allocated,
      (s.kernel.mem p).tid = tid → _ → _ → _ → s.Spare p))
  | .sleep millisecond _ => inferInstanceAs (Decidable (sleepThreshold < millisecond.toNat →
      ∀ p ∈ s.kernel.currentThread, (s.kernel.mem p).ref ≠ 0xffffffff))
  | .poll clock => inferInstanceAs (Decidable (∀ visit ∈ s.kernel.suspended.zipIdx,
      (s.kernel.mem visit.1).wakeMillisecond ≤ clock visit.2 → s.Spare visit.1))
  | .create .. | .wake _ | .suspend _ | .waitTurn | .schedule | .clean =>
      inferInstanceAs (Decidable True)

/-- The call of `thread_wait` by `c` for the thread at `p` goes on, the node is
there and nobody else has the tid; or it has come back, and the thread was DIED
by then; or `c` itself was killed. -/
def WaitKept (c p : Ptr) (tid : Nat) (later : List (System × Op × System)) (u : System) : Prop :=
  (u.waiting c = some p ∧ p ∈ u.kernel.allocated ∧
      ∀ q ∈ u.kernel.allocated, (u.kernel.mem q).tid = tid ↔ q = p) ∨
    ∃ step ∈ later, step.1.waiting c = some p ∧ step.2.2.waiting c = none ∧
      ((step.1.kernel.mem p).status = .died ∨ (step.2.2.kernel.mem c).status = .died)

instance (c p : Ptr) (tid : Nat) (later : List (System × Op × System)) (u : System) :
    Decidable (WaitKept c p tid later u) := inferInstanceAs (Decidable (_ ∨ _))

variable {s t u : System} {lists : ThreadStatus → List Ptr} {cleaner : Ptr}

/-! ## One operation -/

/-- What a step does to a thread that is in `thread_wait`. -/
def GoesOn (s t : System) : Prop :=
  ∀ c p, s.waiting c = some p → (t.kernel.mem p).tid = (s.kernel.mem p).tid ∧
    (t.waiting c = some p ∨
      t.waiting c = none ∧ ((s.kernel.mem p).status = .died ∨ (t.kernel.mem c).status = .died))

theorem settle_goesOn {k : Kernel} {sleeping : Ptr → Bool}
    (tids : ∀ p ∈ s.kernel.allocated, (k.mem p).tid = (s.kernel.mem p).tid) (covered : s.Covered) :
    GoesOn s (settle k s.waiting sleeping) := by
  intro c p polls
  refine ⟨tids p (covered.polled c p polls), ?_⟩
  by_cases dead : (k.mem c).status = .died
  · exact .inr ⟨if_pos dead, .inr dead⟩
  · exact .inl ((if_neg dead).trans polls)

namespace Covered

/-- An operation that frees nobody and leaves each node enough references. -/
theorem plain (covered : s.Covered) {k : Kernel} {sleeping : Ptr → Bool}
    (allocations : k.allocated = s.kernel.allocated)
    (kept : ∀ p ∈ s.kernel.allocated, waiters s.kernel s.waiting p ≤ (k.mem p).ref.toNat) :
    (settle k s.waiting sleeping).Covered := by
  have still : ∀ w p, (settle k s.waiting sleeping).waiting w = some p → s.waiting w = some p := by
    intro w p polls
    simp only [settle] at polls
    split at polls
    · cases polls
    · exact polls
  refine ⟨fun p member => ?_, fun w p polls => ?_, fun w polls => ?_⟩
  · have member' : p ∈ s.kernel.allocated := allocations ▸ member
    refine le_trans ?_ (kept p member')
    refine Finset.card_le_card fun w inside => ?_
    rw [Finset.mem_filter] at inside ⊢
    exact ⟨allocations ▸ inside.1, still w p inside.2⟩
  · exact allocations ▸ covered.polled w p (still w p polls)
  · obtain ⟨p, polls'⟩ := Option.ne_none_iff_exists'.1 polls
    refine ⟨allocations ▸ (covered.waiter w ?_).1, fun dead => ?_⟩
    · rw [still w p polls']
      exact Option.some_ne_none p
    · rw [settle] at polls
      exact polls (if_pos dead)

/-- The counts stay, at least. -/
theorem unmoved (covered : s.Covered) {k : Kernel} {sleeping : Ptr → Bool}
    (allocations : k.allocated = s.kernel.allocated)
    (refs : ∀ p, (k.mem p).ref = (s.kernel.mem p).ref) : (settle k s.waiting sleeping).Covered :=
  covered.plain allocations fun p member => by
    rw [refs]
    exact covered.count p member

theorem create (covered : s.Covered) {k : Kernel}
    (mems : ∀ q ∈ s.kernel.allocated, k.mem q = s.kernel.mem q) {p : Ptr}
    (new : p ∉ s.kernel.allocated) (allocations : k.allocated = insert p s.kernel.allocated) :
    (settle k s.waiting s.sleeping).Covered := by
  have idle : s.waiting p = none := by
    by_contra polls
    exact new (covered.waiter p polls).1
  have alive : ∀ w, s.waiting w ≠ none → (k.mem w).status ≠ .died := fun w polls => by
    rw [mems w (covered.waiter w polls).1]
    exact (covered.waiter w polls).2
  have same : ∀ q, waiters k s.waiting q = waiters s.kernel s.waiting q := by
    intro q
    simp only [waiters, allocations, Finset.filter_insert, idle, reduceCtorEq, if_false]
  have grown : ∀ {q}, q ∈ s.kernel.allocated → q ∈ k.allocated := fun member => by
    rw [allocations]
    exact Finset.mem_insert_of_mem member
  have blocked := @settle_waiting k s.waiting s.sleeping alive
  refine ⟨fun q member => ?_, fun w q polls => ?_, fun w polls => ?_⟩
  · show waiters k (settle k s.waiting s.sleeping).waiting q ≤ (k.mem q).ref.toNat
    rw [blocked, same q]
    have member' : q ∈ insert p s.kernel.allocated := allocations ▸ member
    rcases Finset.mem_insert.1 member' with rfl | old
    · have nobody : waiters s.kernel s.waiting q = 0 := by
        rw [waiters, Finset.card_eq_zero, Finset.filter_eq_empty_iff]
        exact fun w _ polls => new (covered.polled w q polls)
      rw [nobody]
      exact Nat.zero_le _
    · rw [mems q old]
      exact covered.count q old
  · rw [blocked] at polls
    exact grown (covered.polled w q polls)
  · rw [blocked] at polls
    exact ⟨grown (covered.waiter w polls).1, alive w polls⟩

/-- A thread that was free enters `thread_wait`. -/
theorem wait (covered : s.Covered) (queues : Queues s.kernel lists) {current node : Ptr}
    (isCurrent : s.kernel.currentThread = some current) (free : s.waiting current = none)
    (member : node ∈ s.kernel.allocated) (room : (s.kernel.mem node).ref ≠ 0xffffffff) :
    (settle (s.kernel.takeRef node) (Function.update s.waiting current (some node))
        s.sleeping).Covered ∧
      (settle (s.kernel.takeRef node) (Function.update s.waiting current (some node))
        s.sleeping).waiting = Function.update s.waiting current (some node) := by
  obtain ⟨p, running, isP⟩ := queues.current
  obtain rfl : p = current := Option.some.inj (isP.symm.trans isCurrent)
  have listed := (queues.mem_iff _ _).1 running
  have status : ∀ q, ((s.kernel.takeRef node).mem q).status = (s.kernel.mem q).status := by
    intro q
    simp only [takeRef, modify_mem]
    split <;> simp_all
  have waiter : ∀ w, Function.update s.waiting p (some node) w ≠ none →
      w ∈ s.kernel.allocated ∧ ((s.kernel.takeRef node).mem w).status ≠ .died := by
    intro w polls
    rw [status]
    by_cases same : w = p
    · subst same
      exact ⟨listed.1, by simp [listed.2]⟩
    · rw [Function.update_of_ne same] at polls
      exact covered.waiter w polls
  have blocked := @settle_waiting (s.kernel.takeRef node)
    (Function.update s.waiting p (some node)) s.sleeping fun w polls => (waiter w polls).2
  refine ⟨⟨fun q inside => ?_, fun w q polls => ?_, fun w polls => ?_⟩, blocked⟩
  · show waiters s.kernel (settle (s.kernel.takeRef node)
      (Function.update s.waiting p (some node)) s.sleeping).waiting q ≤
        ((s.kernel.takeRef node).mem q).ref.toNat
    have counted := covered.count q inside
    rw [blocked, waiters_update listed.1 free]
    simp only [takeRef, modify_mem]
    by_cases same : q = node
    · subst same
      have grown : ((s.kernel.mem q).ref + 1).toNat = (s.kernel.mem q).ref.toNat + 1 := by
        bv_omega
      simp only [if_true, grown]
      omega
    · simpa [same] using counted
  · rw [blocked] at polls
    by_cases same : w = p
    · subst same
      rw [Function.update_self, Option.some.injEq] at polls
      exact polls ▸ member
    · rw [Function.update_of_ne same] at polls
      exact covered.polled w q polls
  · rw [blocked] at polls
    exact waiter w polls

/-- A waiter whose thread has died leaves `thread_wait`. -/
theorem waitTurn (covered : s.Covered) {current node : Ptr}
    (polls : s.waiting current = some node) :
    (settle (s.kernel.dropRef node) (Function.update s.waiting current none) s.sleeping).Covered ∧
      (settle (s.kernel.dropRef node) (Function.update s.waiting current none) s.sleeping).waiting =
        Function.update s.waiting current none := by
  have known := covered.waiter current (by simp [polls])
  have status : ∀ q, ((s.kernel.dropRef node).mem q).status = (s.kernel.mem q).status := by
    intro q
    simp only [dropRef, modify_mem]
    split <;> simp_all
  have others : ∀ w, Function.update s.waiting current none w ≠ none → s.waiting w ≠ none := by
    intro w still
    by_cases same : w = current
    · simp [same] at still
    · rwa [Function.update_of_ne same] at still
  have alive : ∀ w, Function.update s.waiting current none w ≠ none →
      ((s.kernel.dropRef node).mem w).status ≠ .died := by
    intro w still
    rw [status]
    exact (covered.waiter w (others w still)).2
  have blocked := @settle_waiting (s.kernel.dropRef node) (Function.update s.waiting current none)
    s.sleeping alive
  refine ⟨⟨fun q inside => ?_, fun w q still => ?_, fun w still => ?_⟩, blocked⟩
  · show waiters s.kernel (settle (s.kernel.dropRef node) (Function.update s.waiting current none)
      s.sleeping).waiting q ≤ ((s.kernel.dropRef node).mem q).ref.toNat
    -- before the step, the caller was one more waiter
    have free : Function.update s.waiting current none current = none := by simp
    have before := waiters_update known.1 free node q
    rw [Function.update_idem, ← polls, Function.update_eq_self] at before
    have counted := covered.count q inside
    rw [before] at counted
    rw [blocked]
    simp only [dropRef, modify_mem]
    by_cases same : q = node
    · subst same
      simp only [if_true] at counted ⊢
      bv_omega
    · simpa [same] using counted
  · rw [blocked] at still
    by_cases same : w = current
    · simp [same] at still
    · rw [Function.update_of_ne same] at still
      exact covered.polled w q still
  · rw [blocked] at still
    exact ⟨(covered.waiter w (others w still)).1, alive w still⟩

/-- The cleaner frees nobody who is polled. -/
theorem clean (covered : s.Covered) (queues : Queues s.kernel lists) {k : Kernel}
    (statuses : ∀ p, (k.mem p).status = (s.kernel.mem p).status)
    (refs : ∀ p, (k.mem p).ref = (s.kernel.mem p).ref)
    (allocations : ∀ p, p ∈ k.allocated ↔
      p ∈ s.kernel.allocated ∧ ¬ (p ∈ lists .died ∧ (s.kernel.mem p).ref = 0)) :
    (settle k s.waiting s.sleeping).Covered := by
  have alive : ∀ w, s.waiting w ≠ none → w ∈ k.allocated ∧ (k.mem w).status ≠ .died := by
    intro w polls
    have known := covered.waiter w polls
    rw [allocations, statuses]
    exact ⟨⟨known.1, fun freed => known.2 (queues.status _ _ freed.1)⟩, known.2⟩
  have same : ∀ p, waiters k s.waiting p = waiters s.kernel s.waiting p := by
    intro p
    rw [waiters, waiters]
    congr 1
    ext w
    simp only [Finset.mem_filter, allocations]
    constructor
    · rintro ⟨left, polls⟩
      exact ⟨left.1, polls⟩
    · rintro ⟨-, polls⟩
      exact ⟨(allocations w).1 (alive w (by simp [polls])).1, polls⟩
  have blocked := @settle_waiting k s.waiting s.sleeping fun w polls => (alive w polls).2
  refine ⟨fun q inside => ?_, fun w q polls => ?_, fun w polls => ?_⟩
  · show waiters k (settle k s.waiting s.sleeping).waiting q ≤ (k.mem q).ref.toNat
    rw [blocked, same q, refs]
    exact covered.count q ((allocations q).1 inside).1
  · -- a polled thread has a waiter to its count
    rw [blocked] at polls
    have member := covered.polled w q polls
    refine (allocations q).2 ⟨member, fun freed => ?_⟩
    have counted := covered.count q member
    have positive : 0 < waiters s.kernel s.waiting q :=
      Finset.card_pos.2 ⟨w, by simp [polls, (covered.waiter w (by simp [polls])).1]⟩
    have none_ : (0 : BitVec 32).toNat = 0 := rfl
    rw [freed.2, none_] at counted
    omega
  · rw [blocked] at polls
    exact alive w polls

end Covered

/-! ## Every step -/

/-- The search finds every RUNNING and every SUSPEND thread. -/
theorem threadWait_finds (queues : Queues s.kernel lists) {p : Ptr} (other : (s.kernel.mem p).tid ≠ 0)
    (member : p ∈ s.kernel.allocated)
    (from_ : (s.kernel.mem p).status = .running ∨ (s.kernel.mem p).status = .suspend) :
    s.kernel.threadWait (s.kernel.mem p).tid = some (some p, s.kernel.takeRef p) := by
  rcases from_ with running | suspended
  · obtain ⟨front, rest, split⟩ := List.append_of_mem ((queues.mem_iff _ p).2 ⟨member, running⟩)
    simp [Kernel.threadWait, other, queues.find_node split]
  · have listed := (queues.mem_iff _ p).2 ⟨member, suspended⟩
    obtain ⟨front, rest, split⟩ := List.append_of_mem listed
    simp [Kernel.threadWait, other, queues.find_node split,
      queues.find_elsewhere listed (by decide : ThreadStatus.running ≠ .suspend)]

/-- An admissible operation that `Spares` allows keeps every waiting thread covered. -/
theorem step_covered {op : Op} (queues : Queues s.kernel lists) (covered : s.Covered)
    (admissible : s.Admissible op) (spares : s.Spares op) (next : s.step op = some t) :
    t.Covered ∧ GoesOn s t := by
  obtain ⟨current, running, isCurrent⟩ := queues.current
  cases op with
  | create newThread name handler params =>
      obtain ⟨-, mems, allocations⟩ := queues.threadCreate newThread name handler params
        fun p new => admissible.2 p new
      cases next
      refine ⟨?_, settle_goesOn (fun p member => by rw [mems p member]) covered⟩
      rcases allocations with allocations | ⟨p, new, allocations, -, -⟩
      · exact covered.plain allocations fun p member => by
          rw [mems p member]
          exact covered.count p member
      · exact covered.create mems (admissible.2 p new) allocations
  | wake tid =>
      obtain ⟨k, result, -, effect⟩ := queues.threadWake tid
      rw [step, result] at next
      cases next
      rcases effect with ⟨rfl, -⟩ | ⟨node, -, -, -, shifted, refs⟩
      · exact ⟨covered.unmoved rfl fun _ => rfl, settle_goesOn (fun _ _ => rfl) covered⟩
      · exact ⟨covered.unmoved shifted.allocated refs,
          settle_goesOn (fun p _ => shifted.tid p) covered⟩
  | suspend tid =>
      obtain ⟨k, result, -, effect⟩ := queues.threadSuspend tid
      rw [step, result] at next
      cases next
      rcases effect with ⟨rfl, -⟩ | ⟨node, -, -, -, -, shifted, refs⟩
      · exact ⟨covered.unmoved rfl fun _ => rfl, settle_goesOn (fun _ _ => rfl) covered⟩
      · exact ⟨covered.unmoved shifted.allocated refs,
          settle_goesOn (fun p _ => shifted.tid p) covered⟩
  | exit tid =>
      obtain ⟨k, result, -, effect⟩ := queues.threadExit tid
      rw [step, result] at next
      cases next
      rcases effect with rfl | ⟨node, member, same, other, -, shifted, refs⟩
      · exact ⟨covered.unmoved rfl fun _ => rfl, settle_goesOn (fun _ _ => rfl) covered⟩
      · refine ⟨covered.plain shifted.allocated fun p inside => ?_,
          settle_goesOn (fun p _ => shifted.tid p) covered⟩
        rw [refs]
        by_cases here : p = node
        · subst here
          rw [if_pos rfl, Queues.exitRef]
          split
          · rename_i sleeper
            have spare := spares other p member same sleeper.1 sleeper.2.1 fun none_ => by
              rw [none_] at sleeper
              exact absurd sleeper.2.2 (by decide)
            rw [Spare] at spare
            have taken : ((s.kernel.mem p).ref - 1).toNat = (s.kernel.mem p).ref.toNat - 1 := by
              bv_omega
            omega
          · exact covered.count p member
        · rw [if_neg here]
          exact covered.count p inside
  | wait tid =>
      have free : s.waiting current = none := admissible current isCurrent
      simp only [step, isCurrent] at next
      rcases queues.threadWait tid with result | ⟨node, member, same, other, alive, result⟩ <;>
        rw [result] at next <;> cases next
      · have unchanged : Function.update s.waiting current none = s.waiting := by
          rw [← free, Function.update_eq_self]
        change (settle s.kernel (Function.update s.waiting current none) s.sleeping).Covered ∧
          GoesOn s (settle s.kernel (Function.update s.waiting current none) s.sleeping)
        rw [unchanged]
        exact ⟨covered.unmoved rfl fun _ => rfl, settle_goesOn (fun _ _ => rfl) covered⟩
      · obtain ⟨after, blocked⟩ := covered.wait queues isCurrent free member
          ((spares other node member same).2 alive)
        refine ⟨after, fun c p polls => ⟨?_, .inl ?_⟩⟩
        · show ((s.kernel.takeRef node).mem p).tid = _
          simp only [takeRef, modify_mem]
          split <;> simp_all
        · have apart : c ≠ current := by
            rintro rfl
            rw [free] at polls
            cases polls
          rw [blocked, Function.update_of_ne apart, polls]
  | waitTurn =>
      simp only [step, System.waitTurn, isCurrent] at next
      split at next
      · cases next
        exact ⟨covered, fun c p polls => ⟨rfl, .inl polls⟩⟩
      · rename_i node polls
        split at next <;> cases next
        · exact ⟨covered.unmoved (by simp) (by simp), settle_goesOn (by simp) covered⟩
        · rename_i dead
          obtain ⟨after, blocked⟩ := covered.waitTurn polls
          refine ⟨after, fun c p polls' => ⟨?_, ?_⟩⟩
          · show ((s.kernel.dropRef node).mem p).tid = _
            simp only [dropRef, modify_mem]
            split <;> simp_all
          · rw [blocked]
            by_cases own : c = current
            · subst own
              cases polls.symm.trans polls'
              exact .inr ⟨Function.update_self .., .inl (not_not.1 dead)⟩
            · exact .inl (by rw [Function.update_of_ne own, polls'])
  | sleep millisecond now =>
      simp only [step, isCurrent] at next
      by_cases long : sleepThreshold < millisecond.toNat
      · rcases queues.sleep isCurrent (admissible.2 current isCurrent) millisecond now with
          result | ⟨k, result, -, -, -, allocations, fields⟩ <;> rw [result] at next <;> cases next
        · exact ⟨covered.unmoved rfl fun _ => rfl, settle_goesOn (fun _ _ => rfl) covered⟩
        · refine ⟨covered.plain allocations fun p member => ?_,
            settle_goesOn (fun p _ => (fields p).2.1) covered⟩
          have counted := covered.count p member
          rw [(fields p).2.2.1]
          split
          · rename_i same
            have room := spares long p (by rw [same]; exact isCurrent)
            have grown : ((s.kernel.mem p).ref + 1).toNat = (s.kernel.mem p).ref.toNat + 1 := by
              bv_omega
            omega
          · exact counted
      · have result : s.kernel.sleep current millisecond now = some (false, s.kernel) := by
          simp [Kernel.sleep, long]
        rw [result] at next
        cases next
        exact ⟨covered.unmoved rfl fun _ => rfl, settle_goesOn (fun _ _ => rfl) covered⟩
  | schedule =>
      cases next
      exact ⟨covered.unmoved (by simp) (by simp), settle_goesOn (by simp) covered⟩
  | poll clock =>
      obtain ⟨k, result, -, visits, frame, tids, allocations⟩ := queues.sleeperPolling clock
      rw [step, result] at next
      cases next
      refine ⟨covered.plain allocations fun p member => ?_, settle_goesOn (fun p _ => tids p) covered⟩
      have counted := covered.count p member
      by_cases visited : p ∈ lists .suspend
      · obtain ⟨i, here⟩ := List.mem_iff_getElem?.1 visited
        have polled := visits i p here
        rw [Queues.Polled] at polled
        split at polled
        · rename_i due
          have spare := spares (p, i)
            (List.mk_mem_zipIdx_iff_getElem?.2 (by rw [queues.suspended_eq]; exact here)) due
          rw [Spare] at spare
          have taken : ((s.kernel.mem p).ref - 1).toNat = (s.kernel.mem p).ref.toNat - 1 := by
            simp only at spare
            bv_omega
          rw [polled.2, taken]
          simp only at spare
          omega
        · rw [polled.2]
          exact counted
      · rw [(frame p visited).2]
        exact counted
  | clean =>
      obtain ⟨k, result, -, fields, allocations⟩ := queues.clean
      rw [step, result] at next
      cases next
      exact ⟨covered.clean queues (fun p => (fields p).1) (fun p => (fields p).2.2) allocations,
        settle_goesOn (fun p _ => (fields p).2.1) covered⟩

/-! ## Every run -/

theorem Started.covered (started : s.Started cleaner) : s.Covered where
  count p member := by
    rw [started.allocated, Finset.mem_singleton] at member
    subst member
    simp [waiters, started.waiting]
  polled w p polls := by simp [started.waiting] at polls
  waiter w polls := absurd (started.waiting w) polls

theorem Run.covered {steps : List (System × Op × System)} (queues : ∃ lists, Queues s.kernel lists)
    (covered : s.Covered) (run : s.Run steps u) (spares : ∀ step ∈ steps, step.1.Spares step.2.1) :
    (∃ lists, Queues u.kernel lists) ∧ u.Covered := by
  refine run.invariant (fun t => (∃ lists, Queues t.kernel lists) ∧ t.Covered) ⟨queues, covered⟩ ?_
  intro t op v taken ⟨⟨lists, queues⟩, covered⟩ admissible next
  refine ⟨?_, (step_covered queues covered admissible (spares _ taken) next).1⟩
  obtain ⟨v', result, after⟩ := step_queues queues admissible
  cases next.symm.trans result
  exact after

/-- The wait of a thread that polls, over the steps that follow. -/
theorem Run.waitKept {later : List (System × Op × System)} {c p : Ptr} {tid : Nat}
    (queues : ∃ lists, Queues s.kernel lists) (covered : s.Covered) (run : s.Run later u)
    (spares : ∀ step ∈ later, step.1.Spares step.2.1) (polls : s.waiting c = some p)
    (isTid : (s.kernel.mem p).tid = tid) : WaitKept c p tid later u := by
  induction run with
  | start =>
      obtain ⟨lists, queues⟩ := queues
      refine .inl ⟨polls, covered.polled c p polls, fun q member => ⟨fun same => ?_, ?_⟩⟩
      · exact queues.tids q member p (covered.polled c p polls) (same.trans isTid.symm)
      · rintro rfl
        exact isTid
  | @step earlier v op w path admissible next ih =>
      have spares' : ∀ step ∈ earlier, step.1.Spares step.2.1 := fun step taken =>
        spares step (List.mem_append_left _ taken)
      obtain ⟨⟨lists, queues'⟩, covered'⟩ := path.covered queues covered spares'
      obtain ⟨after, goesOn⟩ := step_covered queues' covered' admissible (spares (v, op, w) (by simp)) next
      rcases ih spares' with ⟨polls', member, only⟩ | ⟨step, taken, before, ended, dead⟩
      · obtain ⟨sameTid, going | ⟨ended, dead⟩⟩ := goesOn c p polls'
        · have isTid' := sameTid.trans ((only p member).2 rfl)
          obtain ⟨v', result, lists', queues''⟩ := step_queues queues' admissible
          cases next.symm.trans result
          refine .inl ⟨going, after.polled c p going, fun q inside => ⟨fun same => ?_, ?_⟩⟩
          · exact queues''.tids q inside p (after.polled c p going) (same.trans isTid'.symm)
          · rintro rfl
            exact isTid'
        · exact .inr ⟨(v, op, w), by simp, polls', ended, dead⟩
      · exact .inr ⟨step, List.mem_append_left _ taken, before, ended, dead⟩

/-- **thread_wait waits.**  A call for a live thread polls it; and in every run
whose steps `Spares` allows, as long as the call goes on the node is there and its
tid is nobody else's, and it only comes back once that thread is DIED. -/
theorem wait_holds {earlier later : List (System × Op × System)} {v w : System} {tid : Nat}
    {c p : Ptr} (started : s.Started cleaner) (before : s.Run earlier t)
    (admissible : t.Admissible (.wait tid)) (called : t.step (.wait tid) = some v)
    (after : v.Run later w)
    (spares : ∀ step ∈ earlier ++ (t, .wait tid, v) :: later, step.1.Spares step.2.1)
    (other : tid ≠ 0) (caller : t.kernel.currentThread = some c) (member : p ∈ t.kernel.allocated)
    (isTid : (t.kernel.mem p).tid = tid) (alive : (t.kernel.mem p).status ≠ .died) :
    v.waiting c = some p ∧ WaitKept c p tid later w := by
  obtain ⟨⟨lists, queues⟩, covered⟩ := before.covered ⟨_, started.queues⟩ started.covered
    fun step taken => spares step (List.mem_append_left _ taken)
  have spares' : t.Spares (.wait tid) := spares (t, .wait tid, v) (by simp)
  obtain ⟨covered', -⟩ := step_covered queues covered admissible spares' called
  obtain ⟨v', result, queues'⟩ := step_queues queues admissible
  cases called.symm.trans result
  obtain ⟨noReady, room⟩ := spares' other p member isTid
  have found : t.kernel.threadWait tid = some (some p, t.kernel.takeRef p) := by
    rw [← isTid]
    refine threadWait_finds queues (by rwa [isTid]) member ?_
    cases status : (t.kernel.mem p).status with
    | running => exact .inl rfl
    | suspend => exact .inr rfl
    | ready => exact (noReady status).elim
    | died => exact (alive status).elim
  simp only [step, caller, found, Option.map_some, Option.some.injEq] at called
  obtain ⟨-, blocked⟩ := covered.wait queues caller (admissible c caller) member (room alive)
  rw [called] at blocked
  have polls : v.waiting c = some p := by
    rw [blocked, Function.update_self]
  have isTid' : (v.kernel.mem p).tid = tid := by
    rw [← called, ← isTid]
    show ((t.kernel.takeRef p).mem p).tid = _
    simp [takeRef]
  exact ⟨polls, after.waitKept queues' covered' (fun step taken => spares step (by simp [taken]))
    polls isTid'⟩

/-- Thread 2 is about to call `thread_wait`, and thread 1 runs. -/
def callOps : List Op :=
  [.create (some 0x80500008) none 1 0, .wake 1, .create (some 0x80501008) none 2 0, .wake 2, .schedule]

/-- Thread 2 polls, thread 1 exits itself, the cleaner makes a round, thread 2 polls again. -/
def exitOps : List Op := [.waitTurn, .exit 1, .clean, .waitTurn]

theorem wait_holds_exit :
    ∃ v later w, (execute v exitOps) = some (later, w) ∧ v.waiting 0x80501008 = some 0x80500008 ∧
      WaitKept 0x80501008 0x80500008 1 later w ∧ w.waiting 0x80501008 = none := by
  have checked : ((boot (fun _ => Thread.zero) 0x80001000).execute callOps).bind (fun before =>
      (before.2.step (.wait 1)).bind fun v => (v.execute exitOps).map
        fun (after : List (System × Op × System) × System) => decide (before.2.Admissible (.wait 1) ∧
          (∀ step ∈ before.1 ++ (before.2, Op.wait 1, v) :: after.1, step.1.Spares step.2.1) ∧
          before.2.kernel.currentThread = some 0x80501008 ∧
          0x80500008 ∈ before.2.kernel.allocated ∧ (before.2.kernel.mem 0x80500008).tid = 1 ∧
          (before.2.kernel.mem 0x80500008).status ≠ .died ∧ after.2.waiting 0x80501008 = none)) =
      some true := by
    decide +kernel
  obtain ⟨⟨earlier, t⟩, ran, rest⟩ := Option.bind_eq_some_iff.1 checked
  obtain ⟨v, called, rest⟩ := Option.bind_eq_some_iff.1 rest
  obtain ⟨⟨later, w⟩, ran', facts⟩ := Option.map_eq_some_iff.1 rest
  obtain ⟨admissible, spares, caller, member, isTid, alive, ended⟩ := of_decide_eq_true facts
  obtain ⟨polls, kept⟩ := wait_holds (boot_started _ _) (execute_run ran) admissible called
    (execute_run ran') spares (by decide) caller member isTid alive
  exact ⟨v, later, w, ran', polls, kept, ended⟩

/-- Three threads, of which thread 1 is still READY; thread 2 runs. -/
def readyOps : List Op :=
  [.create (some 0x80500008) none 1 0, .create (some 0x80501008) none 2 0, .wake 2,
    .create (some 0x80502008) none 3 0, .wake 3, .schedule, .schedule]

/-- Thread 2 wakes thread 1 and suspends it. -/
def asideOps : List Op := readyOps ++ [.wake 1, .suspend 1]

/-- Thread 2 polls, thread 3 makes a round of the sleeper poller, thread 1 exits
itself, and the cleaner makes a round. -/
def stealOps : List Op :=
  [.waitTurn, .clean, .poll fun _ => 0, .waitTurn, .schedule, .exit 1, .schedule, .schedule, .clean]

/-- For a READY thread `thread_wait` comes back at once; and the poller takes the
reference of a thread that waits for a suspended one, which is then freed. -/
theorem wait_lost :
    (∃ earlier t v, Run (boot (fun _ => Thread.zero) 0x80001000) earlier t ∧
      t.Admissible (.wait 1) ∧ t.step (.wait 1) = some v ∧
      t.kernel.currentThread = some 0x80501008 ∧ 0x80500008 ∈ t.kernel.allocated ∧
      (t.kernel.mem 0x80500008).tid = 1 ∧ (t.kernel.mem 0x80500008).status = .ready ∧
      v.waiting 0x80501008 = none) ∧
    ∃ earlier t v later w, Run (boot (fun _ => Thread.zero) 0x80001000) earlier t ∧
      t.Admissible (.wait 1) ∧ t.step (.wait 1) = some v ∧ v.Run later w ∧
      t.kernel.currentThread = some 0x80501008 ∧ 0x80500008 ∈ t.kernel.allocated ∧
      (t.kernel.mem 0x80500008).tid = 1 ∧ (t.kernel.mem 0x80500008).status = .suspend ∧
      0x80500008 ∉ w.kernel.allocated ∧ w.waiting 0x80501008 = some 0x80500008 ∧
      ¬ WaitKept 0x80501008 0x80500008 1 later w := by
  constructor
  · have checked : ((boot (fun _ => Thread.zero) 0x80001000).execute readyOps).bind (fun before =>
        (before.2.step (.wait 1)).map fun v =>
          decide (before.2.Admissible (.wait 1) ∧ before.2.kernel.currentThread = some 0x80501008 ∧
            0x80500008 ∈ before.2.kernel.allocated ∧ (before.2.kernel.mem 0x80500008).tid = 1 ∧
            (before.2.kernel.mem 0x80500008).status = .ready ∧ v.waiting 0x80501008 = none)) =
        some true := by
      decide +kernel
    obtain ⟨⟨earlier, t⟩, ran, rest⟩ := Option.bind_eq_some_iff.1 checked
    obtain ⟨v, called, facts⟩ := Option.map_eq_some_iff.1 rest
    obtain ⟨admissible, facts⟩ := of_decide_eq_true facts
    exact ⟨earlier, t, v, execute_run ran, admissible, called, facts⟩
  · have checked : ((boot (fun _ => Thread.zero) 0x80001000).execute asideOps).bind (fun before =>
        (before.2.step (.wait 1)).bind fun v => (v.execute stealOps).map fun after =>
          decide (before.2.Admissible (.wait 1) ∧ before.2.kernel.currentThread = some 0x80501008 ∧
            0x80500008 ∈ before.2.kernel.allocated ∧ (before.2.kernel.mem 0x80500008).tid = 1 ∧
            (before.2.kernel.mem 0x80500008).status = .suspend ∧
            0x80500008 ∉ after.2.kernel.allocated ∧ after.2.waiting 0x80501008 = some 0x80500008 ∧
            ¬ WaitKept 0x80501008 0x80500008 1 after.1 after.2)) = some true := by
      decide +kernel
    obtain ⟨⟨earlier, t⟩, ran, rest⟩ := Option.bind_eq_some_iff.1 checked
    obtain ⟨v, called, rest⟩ := Option.bind_eq_some_iff.1 rest
    obtain ⟨⟨later, w⟩, ran', facts⟩ := Option.map_eq_some_iff.1 rest
    obtain ⟨admissible, facts⟩ := of_decide_eq_true facts
    exact ⟨earlier, t, v, later, w, execute_run ran, admissible, called, execute_run ran', facts⟩

end System

end TestOs.Threads
