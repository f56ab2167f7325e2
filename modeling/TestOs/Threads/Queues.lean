/-
# Threads.Queues -- every thread is on exactly one list

`Linked s lists` says that the four heads of `thread_head` start four NULL
terminated lists, and that each node's status names the list it is on.
`Queues s lists` adds what ties the lists to the rest of the kernel: the
allocated nodes are the listed ones, tids are distinct and are exactly the set
bits of `tid_bitmap`, thread 0 and the current thread are on RUNNING, and no
successor is pending in `fix_next_thread`.

The lists are moved about by two primitives, `unlink` and `relink`, and each has
one lemma here (`Linked.unlink`, `Linked.relink`); every operation is their
composition.  Because `Linked` needs each list to be finite, it also bounds the
walks: tids are distinct and below `KERNEL_THREAD_MAX`, so no walk runs out of
steps and every operation returns.
-/
import TestOs.Threads.System

namespace TestOs.Threads

open TestOs.Library

set_option autoImplicit false

namespace Kernel

/-! ## What the primitive stores change -/

section Stores

variable (s : Kernel) (st : ThreadStatus) (prev : Option Ptr) (node p : Ptr)

@[simp] theorem modify_mem (f : Thread → Thread) :
    (s.modify node f).mem p = if p = node then f (s.mem node) else s.mem p := by
  simp [modify, Function.update_apply]

@[simp] theorem modify_head (f : Thread → Thread) :
    (s.modify node f).threadHead = s.threadHead := rfl
@[simp] theorem modify_current (f : Thread → Thread) :
    (s.modify node f).currentThread = s.currentThread := rfl
@[simp] theorem modify_fixNext (f : Thread → Thread) :
    (s.modify node f).fixNextThread = s.fixNextThread := rfl
@[simp] theorem modify_bitmap (f : Thread → Thread) :
    (s.modify node f).tidBitmap = s.tidBitmap := rfl
@[simp] theorem modify_allocated (f : Thread → Thread) :
    (s.modify node f).allocated = s.allocated := rfl

@[simp] theorem setHead_mem (link : Option Ptr) : (s.setHead st link).mem = s.mem := rfl
@[simp] theorem setHead_next (link : Option Ptr) : (s.setHead st link).next = s.next := rfl
@[simp] theorem setHead_current (link : Option Ptr) :
    (s.setHead st link).currentThread = s.currentThread := rfl
@[simp] theorem setHead_fixNext (link : Option Ptr) :
    (s.setHead st link).fixNextThread = s.fixNextThread := rfl
@[simp] theorem setHead_bitmap (link : Option Ptr) :
    (s.setHead st link).tidBitmap = s.tidBitmap := rfl
@[simp] theorem setHead_allocated (link : Option Ptr) :
    (s.setHead st link).allocated = s.allocated := rfl
@[simp] theorem setHead_head (st' : ThreadStatus) (link : Option Ptr) :
    (s.setHead st link).threadHead st' = if st' = st then link else s.threadHead st' := by
  simp [setHead, Function.update_apply]

@[simp] theorem unlink_tid : ((s.unlink st prev node).mem p).tid = (s.mem p).tid := by
  cases prev <;> simp only [unlink, modify_mem, setHead_mem]
  split <;> simp_all
@[simp] theorem unlink_status : ((s.unlink st prev node).mem p).status = (s.mem p).status := by
  cases prev <;> simp only [unlink, modify_mem, setHead_mem]
  split <;> simp_all
@[simp] theorem unlink_ref : ((s.unlink st prev node).mem p).ref = (s.mem p).ref := by
  cases prev <;> simp only [unlink, modify_mem, setHead_mem]
  split <;> simp_all
@[simp] theorem unlink_wake :
    ((s.unlink st prev node).mem p).wakeMillisecond = (s.mem p).wakeMillisecond := by
  cases prev <;> simp only [unlink, modify_mem, setHead_mem]
  split <;> simp_all
@[simp] theorem unlink_current :
    (s.unlink st prev node).currentThread = s.currentThread := by cases prev <;> rfl
@[simp] theorem unlink_fixNext :
    (s.unlink st prev node).fixNextThread = s.fixNextThread := by cases prev <;> rfl
@[simp] theorem unlink_bitmap :
    (s.unlink st prev node).tidBitmap = s.tidBitmap := by cases prev <;> rfl
@[simp] theorem unlink_allocated :
    (s.unlink st prev node).allocated = s.allocated := by cases prev <;> rfl

theorem unlink_next (different : prev ≠ some p) :
    (s.unlink st prev node).next p = s.next p := by
  cases prev with
  | none => rfl
  | some q =>
      have apart : p ≠ q := fun same => different (same ▸ rfl)
      simp [unlink, next, apart]

@[simp] theorem relink_tid : ((s.relink st node).mem p).tid = (s.mem p).tid := by
  simp only [relink, setHead_mem, modify_mem]
  split <;> simp_all
@[simp] theorem relink_status :
    ((s.relink st node).mem p).status = if p = node then st else (s.mem p).status := by
  simp only [relink, setHead_mem, modify_mem]
  split <;> simp_all
@[simp] theorem relink_ref : ((s.relink st node).mem p).ref = (s.mem p).ref := by
  simp only [relink, setHead_mem, modify_mem]
  split <;> simp_all
@[simp] theorem relink_wake :
    ((s.relink st node).mem p).wakeMillisecond = (s.mem p).wakeMillisecond := by
  simp only [relink, setHead_mem, modify_mem]
  split <;> simp_all
@[simp] theorem relink_current : (s.relink st node).currentThread = s.currentThread := rfl
@[simp] theorem relink_fixNext : (s.relink st node).fixNextThread = s.fixNextThread := rfl
@[simp] theorem relink_bitmap : (s.relink st node).tidBitmap = s.tidBitmap := rfl
@[simp] theorem relink_allocated : (s.relink st node).allocated = s.allocated := rfl

@[simp] theorem fixNext_mem : (s.fixNext node).mem = s.mem := rfl
@[simp] theorem fixNext_head : (s.fixNext node).threadHead = s.threadHead := rfl
@[simp] theorem fixNext_current : (s.fixNext node).currentThread = s.currentThread := rfl
@[simp] theorem fixNext_bitmap : (s.fixNext node).tidBitmap = s.tidBitmap := rfl
@[simp] theorem fixNext_allocated : (s.fixNext node).allocated = s.allocated := rfl

end Stores

/-- Scheduling changes which thread is current, and nothing else in memory. -/
theorem threadSchedule_frame (s : Kernel) :
    s.threadSchedule.mem = s.mem ∧ s.threadSchedule.threadHead = s.threadHead ∧
      s.threadSchedule.tidBitmap = s.tidBitmap ∧ s.threadSchedule.allocated = s.allocated := by
  unfold threadSchedule
  split
  · exact ⟨rfl, rfl, rfl, rfl⟩
  · split
    · exact ⟨rfl, rfl, rfl, rfl⟩
    · split <;> exact ⟨rfl, rfl, rfl, rfl⟩

@[simp] theorem threadSchedule_mem (s : Kernel) : s.threadSchedule.mem = s.mem :=
  s.threadSchedule_frame.1
@[simp] theorem threadSchedule_head (s : Kernel) : s.threadSchedule.threadHead = s.threadHead :=
  s.threadSchedule_frame.2.1
@[simp] theorem threadSchedule_bitmap (s : Kernel) : s.threadSchedule.tidBitmap = s.tidBitmap :=
  s.threadSchedule_frame.2.2.1
@[simp] theorem threadSchedule_allocated (s : Kernel) :
    s.threadSchedule.allocated = s.allocated := s.threadSchedule_frame.2.2.2

/-! ## Walks -/

/-- A walk that has more steps than the list has nodes finds the first node with
the tid, and its predecessor, or finds that there is none. -/
theorem findFrom_spec (s : Kernel) (tid : Nat) {fuel : Nat} (prev : Option Ptr)
    {link : Option Ptr} {nodes : List Ptr} (chain : Chain s.next link nodes)
    (short : nodes.length < fuel) :
    (s.findFrom tid fuel prev link = some none ∧ ∀ p ∈ nodes, (s.mem p).tid ≠ tid) ∨
      ∃ front node rest, nodes = front ++ node :: rest ∧ (s.mem node).tid = tid ∧
        s.findFrom tid fuel prev link = some (some (front.getLast?.or prev, node)) := by
  induction nodes generalizing fuel prev link with
  | nil =>
      obtain rfl : link = none := chain
      cases fuel with
      | zero => simp at short
      | succ fuel => exact .inl ⟨rfl, by simp⟩
  | cons a rest ih =>
      obtain ⟨rfl, tail⟩ := chain
      cases fuel with
      | zero => simp at short
      | succ fuel =>
          by_cases hit : (s.mem a).tid = tid
          · exact .inr ⟨[], a, rest, rfl, hit, by simp [findFrom, hit]⟩
          · have unfolded : s.findFrom tid (fuel + 1) prev (some a) =
                s.findFrom tid fuel (some a) (s.next a) := by simp [findFrom, hit, next]
            rcases ih (some a) tail (by simpa using short) with
              ⟨found, others⟩ | ⟨front, node, back, rfl, same, found⟩
            · refine .inl ⟨unfolded.trans found, ?_⟩
              simpa [hit] using others
            · refine .inr ⟨a :: front, node, back, rfl, same, ?_⟩
              rw [unfolded, found]
              cases front using List.reverseRecOn with
              | nil => simp
              | append_singleton front last =>
                  rw [← List.cons_append, List.getLast?_concat, List.getLast?_concat]
                  rfl

end Kernel

/-! ## The lists -/

open Kernel

/-- The four heads start four finite lists, and a node's status names its list. -/
structure Linked (s : Kernel) (lists : ThreadStatus → List Ptr) : Prop where
  chain : ∀ st, Chain s.next (s.threadHead st) (lists st)
  status : ∀ st, ∀ p ∈ lists st, (s.mem p).status = st

namespace Linked

variable {s t : Kernel} {lists : ThreadStatus → List Ptr}

/-- A node is on at most one list. -/
theorem disjoint (linked : Linked s lists) {st st' : ThreadStatus} {p : Ptr} (here : p ∈ lists st)
    (there : p ∈ lists st') : st = st' :=
  (linked.status st p here).symm.trans (linked.status st' p there)

/-- Stores to other fields of the nodes leave the lists alone. -/
theorem congr (linked : Linked s lists) (heads : t.threadHead = s.threadHead)
    (nexts : ∀ p, t.next p = s.next p) (statuses : ∀ p, (t.mem p).status = (s.mem p).status) :
    Linked t lists where
  chain st := by
    rw [heads]
    exact (linked.chain st).congr fun p _ => nexts p
  status st p member := (statuses p).trans (linked.status st p member)

/-- The lists once `node` is taken off the list `st`, where it stood between
`front` and `rest`. -/
theorem unlink (linked : Linked s lists) {st : ThreadStatus} {front rest : List Ptr} {node : Ptr}
    (split : lists st = front ++ node :: rest) :
    Linked (s.unlink st front.getLast? node) (Function.update lists st (front ++ rest)) where
  chain st' := by
    have whole := linked.chain st
    rw [split] at whole
    by_cases same : st' = st
    · subst same
      rw [Function.update_self]
      cases front using List.reverseRecOn with
      | nil =>
          -- the head's own store
          simpa [Kernel.unlink, whole.1, Kernel.next] using
            (whole.unlinkHead : Chain s.next (s.next node) rest)
      | append_singleton front p =>
          have around : Chain s.next (s.threadHead st') (front ++ p :: node :: rest) := by
            simpa using whole
          have bypassed : Chain (s.unlink st' (some p) node).next (s.threadHead st')
              (front ++ p :: rest) := by
            refine around.unlink (fun b apart => s.unlink_next st' _ node b ?_) ?_
            · simpa using Ne.symm apart
            · simp [Kernel.unlink, Kernel.next]
          simpa [Kernel.unlink] using bypassed
    · rw [Function.update_of_ne same]
      -- the predecessor is on another list, so this one is untouched
      have apart : ∀ p ∈ lists st', front.getLast? ≠ some p := by
        intro p member last
        have inFront : p ∈ front := List.mem_of_getLast? last
        exact same (linked.disjoint member (by rw [split]; simp [inFront]))
      have heads : (s.unlink st front.getLast? node).threadHead st' = s.threadHead st' := by
        cases front.getLast? <;> simp [Kernel.unlink, same]
      rw [heads]
      exact (linked.chain st').congr fun p member => s.unlink_next st _ node p (apart p member)
  status st' p member := by
    rw [unlink_status]
    refine linked.status st' p ?_
    by_cases same : st' = st
    · subst same
      rw [Function.update_self] at member
      rw [split]
      simp only [List.mem_append, List.mem_cons] at member ⊢
      tauto
    · rwa [Function.update_of_ne same] at member

/-- The lists once a node that was on none is put in front of `st`. -/
theorem relink (linked : Linked s lists) {node : Ptr} (outside : ∀ st, node ∉ lists st)
    (st : ThreadStatus) :
    Linked (s.relink st node) (Function.update lists st (node :: lists st)) where
  chain st' := by
    have nexts : ∀ p, p ≠ node → (s.relink st node).next p = s.next p := by
      intro p apart
      simp [Kernel.relink, Kernel.next, apart]
    by_cases same : st' = st
    · subst same
      rw [Function.update_self]
      simpa [Kernel.relink] using
        (linked.chain st').push (outside st') nexts (by simp [Kernel.relink, Kernel.next])
    · rw [Function.update_of_ne same]
      have kept := (linked.chain st').congr
        fun p member => nexts p fun eq => outside st' (eq ▸ member)
      simpa [Kernel.relink, same] using kept
  status st' p member := by
    rw [relink_status]
    by_cases same : st' = st
    · subst same
      rw [Function.update_self, List.mem_cons] at member
      rcases member with rfl | member
      · simp
      · have apart : p ≠ node := fun eq => outside st' (eq ▸ member)
        simpa [apart] using linked.status st' p member
    · rw [Function.update_of_ne same] at member
      have apart : p ≠ node := fun eq => outside st' (eq ▸ member)
      simpa [apart] using linked.status st' p member

/-- A node taken off its list is on none. -/
theorem unlinked_outside (linked : Linked s lists) {st : ThreadStatus} {front rest : List Ptr}
    {node : Ptr} (split : lists st = front ++ node :: rest) (st' : ThreadStatus) :
    node ∉ Function.update lists st (front ++ rest) st' := by
  have here : node ∈ lists st := by rw [split]; simp
  by_cases same : st' = st
  · subst same
    rw [Function.update_self]
    have distinct := (linked.chain st').nodup
    rw [split] at distinct
    have := List.nodup_middle.1 distinct
    simpa using (List.nodup_cons.1 this).1
  · rw [Function.update_of_ne same]
    exact fun member => same (linked.disjoint member here)

end Linked

/-- The lists after `node` has moved from `st`, where it stood between `front`
and `rest`, to the front of `dst`. -/
def moved (lists : ThreadStatus → List Ptr) (st dst : ThreadStatus) (front : List Ptr) (node : Ptr)
    (rest : List Ptr) : ThreadStatus → List Ptr :=
  let others := Function.update lists st (front ++ rest)
  Function.update others dst (node :: others dst)

theorem Linked.mem_moved {s : Kernel} {lists : ThreadStatus → List Ptr} (linked : Linked s lists)
    {st dst : ThreadStatus} {front rest : List Ptr} {node : Ptr}
    (split : lists st = front ++ node :: rest) (st' : ThreadStatus) (p : Ptr) :
    p ∈ moved lists st dst front node rest st' ↔
      if p = node then st' = dst else p ∈ lists st' := by
  have outside := linked.unlinked_outside split
  have others : ∀ st', p ≠ node →
      (p ∈ Function.update lists st (front ++ rest) st' ↔ p ∈ lists st') := by
    intro st' apart
    by_cases same : st' = st
    · subst same
      rw [Function.update_self, split]
      simp [apart]
    · rw [Function.update_of_ne same]
  unfold moved
  by_cases same : st' = dst
  · subst same
    rw [Function.update_self, List.mem_cons]
    split
    · simp_all
    · rename_i apart
      simp [apart, others st' apart]
  · rw [Function.update_of_ne same]
    split
    · rename_i eq
      subst eq
      simp [same, outside st']
    · rename_i apart
      exact others st' apart

/-- The lists, the allocated nodes and the tids agree, and thread 0 is on RUNNING. -/
structure Listed (s : Kernel) (lists : ThreadStatus → List Ptr) : Prop extends Linked s lists where
  listed : ∀ p, p ∈ s.allocated ↔ ∃ st, p ∈ lists st
  tids : ∀ p ∈ s.allocated, ∀ q ∈ s.allocated, (s.mem p).tid = (s.mem q).tid → p = q
  bitmap : ∀ tid, s.tidBit tid = true ↔ ∃ p ∈ s.allocated, (s.mem p).tid = tid
  cleaner : ∃ p ∈ lists .running, (s.mem p).tid = 0

/-- The invariant of thread.c between operations. -/
structure Queues (s : Kernel) (lists : ThreadStatus → List Ptr) : Prop extends Listed s lists where
  current : ∃ p ∈ lists .running, s.currentThread = some p
  fixNext : s.fixNextThread = none

namespace Listed

variable {s t : Kernel} {lists : ThreadStatus → List Ptr}

theorem allocated_of_mem (listed : Listed s lists) {st : ThreadStatus} {p : Ptr}
    (member : p ∈ lists st) : p ∈ s.allocated := (listed.listed p).2 ⟨st, member⟩

/-- Tids are distinct and below `KERNEL_THREAD_MAX`. -/
theorem card_le (listed : Listed s lists) : s.allocated.card ≤ kernelThreadMax := by
  have bounded : ∀ p ∈ s.allocated, (s.mem p).tid ∈ Finset.range kernelThreadMax := by
    intro p member
    have bit := (listed.bitmap _).2 ⟨p, member, rfl⟩
    simp only [tidBit, Bool.and_eq_true, decide_eq_true_eq] at bit
    exact Finset.mem_range.2 bit.1
  have few := Finset.card_le_card_of_injOn (fun p => (s.mem p).tid) bounded
    fun p hp q hq => listed.tids p hp q hq
  simpa using few

/-- No list is longer than a walk. -/
theorem short (listed : Listed s lists) (st : ThreadStatus) :
    (lists st).length < walkFuel := by
  have within := (listed.chain st).length_le_card fun p member => listed.allocated_of_mem member
  exact Nat.lt_succ_of_le (within.trans listed.card_le)

/-- Stores that keep links, statuses and tids keep the invariant. -/
theorem congr (listed : Listed s lists) (heads : t.threadHead = s.threadHead)
    (nexts : ∀ p, t.next p = s.next p) (statuses : ∀ p, (t.mem p).status = (s.mem p).status)
    (tids : ∀ p, (t.mem p).tid = (s.mem p).tid) (bitmaps : t.tidBitmap = s.tidBitmap)
    (allocations : t.allocated = s.allocated) : Listed t lists where
  toLinked := listed.toLinked.congr heads nexts statuses
  listed p := by rw [allocations]; exact listed.listed p
  tids p hp q hq := by
    rw [allocations] at hp hq
    rw [tids, tids]
    exact listed.tids p hp q hq
  bitmap tid := by
    have bits : t.tidBit tid = s.tidBit tid := by simp [tidBit, bitmaps]
    rw [bits, allocations, listed.bitmap tid]
    simp only [tids]
  cleaner := by
    obtain ⟨p, member, zero⟩ := listed.cleaner
    exact ⟨p, member, (tids p).trans zero⟩

/-- Moving a node from one list to another keeps the invariant, whatever else
was stored into the nodes between the two halves of the move. -/
theorem move (listed : Listed s lists) {st dst : ThreadStatus} {front rest : List Ptr} {node : Ptr}
    (split : lists st = front ++ node :: rest)
    (heads : t.threadHead = (s.unlink st front.getLast? node).threadHead)
    (nexts : ∀ p, t.next p = (s.unlink st front.getLast? node).next p)
    (statuses : ∀ p, (t.mem p).status = (s.mem p).status)
    (tids : ∀ p, (t.mem p).tid = (s.mem p).tid) (bitmaps : t.tidBitmap = s.tidBitmap)
    (allocations : t.allocated = s.allocated)
    (notCleaner : st = .running → dst ≠ .running → (s.mem node).tid ≠ 0) :
    Listed (t.relink dst node) (moved lists st dst front node rest) where
  toLinked := by
    have linked : Linked t (Function.update lists st (front ++ rest)) :=
      (listed.toLinked.unlink split).congr heads nexts (by simpa using statuses)
    exact linked.relink (listed.toLinked.unlinked_outside split) dst
  listed p := by
    rw [relink_allocated, allocations, listed.listed p]
    simp only [listed.toLinked.mem_moved split]
    by_cases same : p = node
    · subst same
      simp only [if_true, exists_eq, iff_true]
      exact ⟨st, by rw [split]; simp⟩
    · simp [same]
  tids p hp q hq := by
    rw [relink_allocated, allocations] at hp hq
    simpa [tids] using listed.tids p hp q hq
  bitmap tid := by
    have bits : (t.relink dst node).tidBit tid = s.tidBit tid := by simp [tidBit, bitmaps]
    rw [bits, listed.bitmap tid, relink_allocated, allocations]
    simp [tids]
  cleaner := by
    obtain ⟨p, member, zero⟩ := listed.cleaner
    refine ⟨p, ?_, by simp [tids, zero]⟩
    rw [listed.toLinked.mem_moved split]
    split
    · rename_i same
      subst same
      have onRunning : st = .running :=
        (listed.toLinked.disjoint (p := p) (by rw [split]; simp) member)
      by_contra away
      exact notCleaner onRunning (Ne.symm away) zero
    · exact member

/-- A thread that took itself off RUNNING left its successor in
`fix_next_thread`; scheduling makes that thread current. -/
theorem schedule_fixed (listed : Listed s lists) {p : Ptr} (member : p ∈ lists .running)
    (running : s.currentThread ≠ none) (fixed : s.fixNextThread = some p) :
    Queues s.threadSchedule lists where
  toListed := listed.congr (by simp) (by simp [Kernel.next]) (by simp) (by simp) (by simp) (by simp)
  current := by
    obtain ⟨current, isCurrent⟩ := Option.ne_none_iff_exists'.1 running
    exact ⟨p, member, by simp [threadSchedule, isCurrent, fixed]⟩
  fixNext := by
    obtain ⟨current, isCurrent⟩ := Option.ne_none_iff_exists'.1 running
    simp [threadSchedule, isCurrent, fixed]

end Listed

namespace Queues

variable {s t : Kernel} {lists : ThreadStatus → List Ptr}

theorem congr (queues : Queues s lists) (heads : t.threadHead = s.threadHead)
    (nexts : ∀ p, t.next p = s.next p) (statuses : ∀ p, (t.mem p).status = (s.mem p).status)
    (tids : ∀ p, (t.mem p).tid = (s.mem p).tid) (bitmaps : t.tidBitmap = s.tidBitmap)
    (allocations : t.allocated = s.allocated) (currents : t.currentThread = s.currentThread)
    (fixes : t.fixNextThread = s.fixNextThread) : Queues t lists where
  toListed := queues.toListed.congr heads nexts statuses tids bitmaps allocations
  current := by rw [currents]; exact queues.current
  fixNext := by rw [fixes]; exact queues.fixNext

/-- A store to `ref` or `wake_millisecond` is invisible to the lists. -/
theorem modify (queues : Queues s lists) (node : Ptr) (f : Thread → Thread)
    (next : ∀ t, (f t).next = t.next) (status : ∀ t, (f t).status = t.status)
    (tid : ∀ t, (f t).tid = t.tid) : Queues (s.modify node f) lists := by
  refine queues.congr rfl (fun p => ?_) (fun p => ?_) (fun p => ?_) rfl rfl rfl rfl <;>
    simp only [Kernel.next, modify_mem] <;> split <;> simp_all

/-- The scheduler keeps the invariant: the end of RUNNING wraps to its head. -/
theorem schedule (queues : Queues s lists) : Queues s.threadSchedule lists where
  toListed := queues.toListed.congr (by simp) (by simp [Kernel.next]) (by simp) (by simp) (by simp)
    (by simp)
  current := by
    obtain ⟨p, member, isCurrent⟩ := queues.current
    obtain ⟨front, rest, split⟩ := List.append_of_mem member
    have chain := queues.chain .running
    rw [split] at chain
    have tail := chain.suffix.2.head_eq
    cases rest with
    | cons following rest =>
        have successor : (s.mem p).next = some following := by simpa [Kernel.next] using tail
        refine ⟨following, by rw [split]; simp, ?_⟩
        simp [threadSchedule, isCurrent, queues.fixNext, successor]
    | nil =>
        have last : (s.mem p).next = none := by simpa [Kernel.next] using tail
        have head := chain.head_eq
        cases hl : front ++ [p] with
        | nil => simp at hl
        | cons first others =>
            refine ⟨first, by rw [split, hl]; simp, ?_⟩
            rw [hl] at head
            simpa [threadSchedule, isCurrent, queues.fixNext, last] using head
  fixNext := by
    obtain ⟨p, -, isCurrent⟩ := queues.current
    simp only [threadSchedule, isCurrent, queues.fixNext]
    split <;> rfl

theorem current_of_tid (queues : Queues s lists) {node : Ptr} (member : node ∈ s.allocated) :
    s.currentTid = some (s.mem node).tid ↔ s.currentThread = some node := by
  obtain ⟨p, running, isCurrent⟩ := queues.current
  rw [currentTid, isCurrent, Option.map_some, Option.some.injEq, Option.some.injEq]
  exact ⟨queues.tids p (queues.allocated_of_mem running) node member, fun same => by rw [same]⟩

/-- A tid search on one list: the node and its place, or nobody there has it. -/
theorem find (queues : Queues s lists) (tid : Nat) (st : ThreadStatus) :
    (s.threadFindByTid tid st = some none ∧ ∀ p ∈ lists st, (s.mem p).tid ≠ tid) ∨
      ∃ front node rest, lists st = front ++ node :: rest ∧ (s.mem node).tid = tid ∧
        s.threadFindByTid tid st = some (some (front.getLast?, node)) := by
  rcases s.findFrom_spec tid none (queues.chain st) (queues.short st) with
    found | ⟨front, node, rest, split, same, found⟩
  · exact .inl found
  · exact .inr ⟨front, node, rest, split, same, by simpa [threadFindByTid] using found⟩

end Queues

end TestOs.Threads
