/-
# Threads.Operations -- what each operation of thread.c does to the lists

One lemma for each operation.  It says that the operation returns, that the
queues are well formed afterwards, and which node changed its list: `Shifted s t
node st` is the whole effect of a move on the fields that other modules read.
Nothing after this module unfolds an operation of thread.c.
-/
import TestOs.Threads.Queues

namespace TestOs.Threads

open TestOs.Library Kernel

set_option autoImplicit false

/-- The node's status is `st` now; no other status, no tid, no wake time and no
allocation changed. -/
structure Shifted (s t : Kernel) (node : Ptr) (st : ThreadStatus) : Prop where
  status : ∀ p, (t.mem p).status = if p = node then st else (s.mem p).status
  tid : ∀ p, (t.mem p).tid = (s.mem p).tid
  wake : ∀ p, (t.mem p).wakeMillisecond = (s.mem p).wakeMillisecond
  allocated : t.allocated = s.allocated

namespace Queues

variable {s : Kernel} {lists : ThreadStatus → List Ptr}

/-- A node stands at one place of one list. -/
theorem split_unique (queues : Queues s lists) {st : ThreadStatus}
    {front front' rest rest' : List Ptr} {node : Ptr} (split : lists st = front ++ node :: rest)
    (split' : lists st = front' ++ node :: rest') : front' = front ∧ rest' = rest := by
  have distinct := (queues.chain st).nodup
  have same : front ++ node :: rest = front' ++ node :: rest' := split.symm.trans split'
  rw [split] at distinct
  have distinct' := distinct
  rw [same] at distinct'
  have outside : node ∉ front' := fun member => by
    simpa [member] using (List.nodup_cons.1 (List.nodup_middle.1 distinct')).1
  have outside' : node ∉ rest' := fun member => by
    simpa [member] using (List.nodup_cons.1 (List.nodup_middle.1 distinct')).1
  have := (List.append_cons_inj_of_notMem outside outside').1 same.symm
  exact ⟨this.1, this.2.2⟩

/-- A search for the tid of a node on the list finds that node. -/
theorem find_node (queues : Queues s lists) {st : ThreadStatus} {front rest : List Ptr} {node : Ptr}
    (split : lists st = front ++ node :: rest) :
    s.threadFindByTid (s.mem node).tid st = some (some (front.getLast?, node)) := by
  have member : node ∈ lists st := by rw [split]; simp
  rcases queues.find (s.mem node).tid st with ⟨-, others⟩ | ⟨front', node', rest', split', same, found⟩
  · exact absurd rfl (others node member)
  · have member' : node' ∈ lists st := by rw [split']; simp
    have eq : node' = node := queues.tids node' (queues.allocated_of_mem member') node
      (queues.allocated_of_mem member) same
    subst eq
    obtain ⟨rfl, -⟩ := queues.split_unique split split'
    exact found

/-- A search for a tid on a list that does not hold its node finds nobody. -/
theorem find_elsewhere (queues : Queues s lists) {st st' : ThreadStatus} {node : Ptr}
    (member : node ∈ lists st) (apart : st' ≠ st) :
    s.threadFindByTid (s.mem node).tid st' = some none := by
  rcases queues.find (s.mem node).tid st' with ⟨found, -⟩ | ⟨front, node', rest, split, same, -⟩
  · exact found
  · have member' : node' ∈ lists st' := by rw [split]; simp
    have eq : node' = node := queues.tids node' (queues.allocated_of_mem member') node
      (queues.allocated_of_mem member) same
    subst eq
    exact absurd (queues.toLinked.disjoint member' member) apart

/-! ## Wake -/

theorem threadWake_node (queues : Queues s lists) {st : ThreadStatus} {front rest : List Ptr}
    {node : Ptr} (split : lists st = front ++ node :: rest) (from_ : st = .ready ∨ st = .suspend) :
    s.threadWake (s.mem node).tid = some ((s.unlink st front.getLast? node).relink .running node) := by
  have member : node ∈ lists st := by rw [split]; simp
  rcases from_ with rfl | rfl
  · simp [threadWake, queues.find_node split]
  · simp [threadWake, queues.find_node split,
      queues.find_elsewhere member (by decide : ThreadStatus.ready ≠ .suspend)]

theorem wake_moved (queues : Queues s lists) {st : ThreadStatus} {front rest : List Ptr}
    {node : Ptr} (split : lists st = front ++ node :: rest) (from_ : st = .ready ∨ st = .suspend) :
    Queues ((s.unlink st front.getLast? node).relink .running node)
      (moved lists st .running front node rest) where
  toListed := queues.toListed.move split rfl (fun _ => rfl) (by simp) (by simp) (by simp) (by simp)
    (by rcases from_ with rfl | rfl <;> simp)
  current := by
    obtain ⟨p, member, isCurrent⟩ := queues.current
    refine ⟨p, ?_, by simpa using isCurrent⟩
    rw [queues.toLinked.mem_moved split]
    split
    · rfl
    · exact member
  fixNext := by simpa using queues.fixNext

/-- `thread_wake` moves the READY or SUSPEND thread with the tid to RUNNING, if
there is one. -/
theorem threadWake (queues : Queues s lists) (tid : Nat) :
    ∃ t, s.threadWake tid = some t ∧ (∃ lists', Queues t lists') ∧
      ((t = s ∧ ∀ p ∈ s.allocated, (s.mem p).tid = tid →
          (s.mem p).status ≠ .ready ∧ (s.mem p).status ≠ .suspend) ∨
        ∃ node ∈ s.allocated, (s.mem node).tid = tid ∧
          ((s.mem node).status = .ready ∨ (s.mem node).status = .suspend) ∧
          Shifted s t node .running ∧ ∀ p, (t.mem p).ref = (s.mem p).ref) := by
  by_cases hit : ∃ st, (st = ThreadStatus.ready ∨ st = .suspend) ∧
      ∃ node ∈ lists st, (s.mem node).tid = tid
  · obtain ⟨st, from_, node, member, rfl⟩ := hit
    obtain ⟨front, rest, split⟩ := List.append_of_mem member
    refine ⟨_, queues.threadWake_node split from_, ⟨_, queues.wake_moved split from_⟩, .inr ?_⟩
    refine ⟨node, queues.allocated_of_mem member, rfl, ?_, ⟨?_, ?_, ?_, ?_⟩, ?_⟩
    · rwa [queues.status st node member]
    all_goals simp
  · have missing : ∀ st, st = ThreadStatus.ready ∨ st = .suspend →
        s.threadFindByTid tid st = some none := by
      intro st from_
      rcases queues.find tid st with ⟨found, -⟩ | ⟨front, node, rest, split, same, -⟩
      · exact found
      · exact absurd ⟨st, from_, node, by rw [split]; simp, same⟩ hit
    have unchanged : s.threadWake tid = some s := by
      simp [Kernel.threadWake, missing]
    refine ⟨s, unchanged, ⟨lists, queues⟩, .inl ⟨rfl, fun p member same => ?_⟩⟩
    obtain ⟨st, onList⟩ := (queues.listed p).1 member
    have status := queues.status st p onList
    constructor <;> intro stat <;> rw [stat] at status <;> subst status
    · exact hit ⟨.ready, .inl rfl, p, onList, same⟩
    · exact hit ⟨.suspend, .inr rfl, p, onList, same⟩

/-! ## Leaving RUNNING -/

/-- `fixNext` chooses the thread behind the one that leaves RUNNING, or the first
when that was the last. -/
theorem fixNext_eq (queues : Queues s lists) {front rest : List Ptr} {node : Ptr}
    (split : lists .running = front ++ node :: rest) :
    ((s.unlink .running front.getLast? node).fixNext node).fixNextThread = (rest ++ front).head? := by
  have linked := queues.toLinked.unlink split
  have head := (linked.chain .running).head_eq
  rw [Function.update_self] at head
  have outside := queues.toLinked.unlinked_outside split .running
  rw [Function.update_self] at outside
  have whole := queues.chain .running
  rw [split] at whole
  have apart : front.getLast? ≠ some node := fun last =>
    outside (List.mem_append_left _ (List.mem_of_getLast? last))
  have after : ((s.unlink .running front.getLast? node).mem node).next = rest.head? := by
    have := s.unlink_next .running front.getLast? node node apart
    simpa [Kernel.next] using this.trans whole.suffix.2.head_eq
  cases rest with
  | cons p rest => simp [Kernel.fixNext, after]
  | nil => simpa [Kernel.fixNext, after] using head

/-- Thread 0 does not leave, so somebody is left. -/
theorem fixNext_member (queues : Queues s lists) {front rest : List Ptr} {node : Ptr}
    (split : lists .running = front ++ node :: rest) (other : (s.mem node).tid ≠ 0) :
    ∃ p ∈ front ++ rest, p ≠ node ∧ (rest ++ front).head? = some p := by
  have distinct := (queues.chain .running).nodup
  rw [split, List.nodup_middle] at distinct
  obtain ⟨cleaner, onRunning, isZero⟩ := queues.cleaner
  have left : cleaner ∈ rest ++ front := by
    rw [split] at onRunning
    simp only [List.mem_append, List.mem_cons] at onRunning ⊢
    rcases onRunning with member | rfl | member
    · exact .inr member
    · exact absurd isZero other
    · exact .inl member
  obtain ⟨p, following, same⟩ := List.exists_cons_of_ne_nil (List.ne_nil_of_mem left)
  have member : p ∈ front ++ rest := by
    have here : p ∈ rest ++ front := by simp [same]
    simp only [List.mem_append] at here ⊢
    exact here.symm
  exact ⟨p, member, fun eq => (List.nodup_cons.1 distinct).1 (eq ▸ member), by rw [same]; rfl⟩

/-- The common end of `thread_suspend` and `thread_exit`: `t` is the state
between the two halves of the move, and a thread that moves itself schedules. -/
theorem leave (queues : Queues s lists) {t : Kernel} {st dst : ThreadStatus}
    {front rest : List Ptr} {node : Ptr} (split : lists st = front ++ node :: rest)
    (other : (s.mem node).tid ≠ 0)
    (heads : t.threadHead = (s.unlink st front.getLast? node).threadHead)
    (nexts : ∀ p, t.next p = (s.unlink st front.getLast? node).next p)
    (statuses : ∀ p, (t.mem p).status = (s.mem p).status)
    (tids : ∀ p, (t.mem p).tid = (s.mem p).tid) (bitmaps : t.tidBitmap = s.tidBitmap)
    (allocations : t.allocated = s.allocated) (currents : t.currentThread = s.currentThread)
    (fixes : t.fixNextThread =
      if s.currentThread = some node then
        ((s.unlink st front.getLast? node).fixNext node).fixNextThread
      else none) :
    let u := if s.currentThread = some node then (t.relink dst node).threadSchedule
      else t.relink dst node
    Queues u (moved lists st dst front node rest) ∧
      u.currentThread = if s.currentThread = some node then (rest ++ front).head?
        else s.currentThread := by
  have listed : Listed (t.relink dst node) (moved lists st dst front node rest) :=
    queues.toListed.move split heads nexts statuses tids bitmaps allocations fun _ _ => other
  obtain ⟨current, onRunning, isCurrent⟩ := queues.current
  intro u
  by_cases own : s.currentThread = some node
  · simp only [u, if_pos own]
    have eq : current = node := Option.some.inj (isCurrent.symm.trans own)
    subst eq
    have onSt : current ∈ lists st := by rw [split]; simp
    have same : st = .running := queues.toLinked.disjoint onSt onRunning
    subst same
    obtain ⟨p, member, apart, chosen⟩ := queues.fixNext_member split other
    have fixed : (t.relink dst current).fixNextThread = some p := by
      rw [relink_fixNext, fixes, if_pos own, queues.fixNext_eq split, chosen]
    refine ⟨listed.schedule_fixed ?_ ?_ fixed, ?_⟩
    · rw [queues.toLinked.mem_moved split, if_neg apart, split]
      simp only [List.mem_append, List.mem_cons] at member ⊢
      tauto
    · simp [currents, isCurrent]
    · have running : (t.relink dst current).currentThread = some current :=
        currents.trans isCurrent
      simp only [chosen, threadSchedule, running, fixed]
  · simp only [u, if_neg own]
    refine ⟨⟨listed, ⟨current, ?_, by rw [relink_current, currents, isCurrent]⟩, ?_⟩, currents⟩
    · have apart : current ≠ node := fun same => own (same ▸ isCurrent)
      rwa [queues.toLinked.mem_moved split, if_neg apart]
    · rw [relink_fixNext, fixes, if_neg own]

/-- `thread_suspend` on a thread that is on RUNNING moves it to SUSPEND. -/
theorem threadSuspend_node (queues : Queues s lists) {front rest : List Ptr} {node : Ptr}
    (split : lists .running = front ++ node :: rest) (other : (s.mem node).tid ≠ 0) :
    ∃ t, s.threadSuspend (s.mem node).tid = some t ∧
      Queues t (moved lists .running .suspend front node rest) ∧
      t.currentThread = (if s.currentThread = some node then (rest ++ front).head?
        else s.currentThread) ∧
      Shifted s t node .suspend ∧ ∀ p, (t.mem p).ref = (s.mem p).ref := by
  have member : node ∈ lists .running := by rw [split]; simp
  have allocated := queues.allocated_of_mem member
  let u := s.unlink .running front.getLast? node
  let t := if s.currentThread = some node then u.fixNext node else u
  have result : s.threadSuspend (s.mem node).tid =
      some (if s.currentThread = some node then (t.relink .suspend node).threadSchedule
        else t.relink .suspend node) := by
    simp only [Kernel.threadSuspend, other, if_false, queues.find_node split,
      queues.current_of_tid allocated]
    rfl
  have mem : t.mem = u.mem := by simp only [t]; split <;> simp
  have left := @leave _ _ queues t .running .suspend _ _ _ split other
    (by simp only [t]; split <;> simp [u]) (by intro p; simp [Kernel.next, mem, u])
    (by simp [mem, u]) (by simp [mem, u]) (by simp only [t]; split <;> simp [u])
    (by simp only [t]; split <;> simp [u]) (by simp only [t]; split <;> simp [u])
    (by simp only [t]; split <;> simp [u, queues.fixNext])
  refine ⟨_, result, left.1, left.2, ⟨?_, ?_, ?_, ?_⟩, ?_⟩
  · intro p; split_ifs <;> simp_all [u]
  · intro p; split_ifs <;> simp [mem, u]
  · intro p; split_ifs <;> simp [mem, u]
  · split_ifs <;> simp only [threadSchedule_allocated, relink_allocated, t] <;> split <;> simp [u]
  · intro p; split_ifs <;> simp [mem, u]

/-- `thread_suspend` moves the RUNNING thread with the tid to SUSPEND, if there
is one and it is not thread 0. -/
theorem threadSuspend (queues : Queues s lists) (tid : Nat) :
    ∃ t, s.threadSuspend tid = some t ∧ (∃ lists', Queues t lists') ∧
      ((t = s ∧ (tid = 0 ∨ ∀ p ∈ lists .running, (s.mem p).tid ≠ tid)) ∨
        ∃ node ∈ s.allocated, (s.mem node).tid = tid ∧ tid ≠ 0 ∧ (s.mem node).status = .running ∧
          Shifted s t node .suspend ∧ ∀ p, (t.mem p).ref = (s.mem p).ref) := by
  by_cases zero : tid = 0
  · exact ⟨s, by simp [Kernel.threadSuspend, zero], ⟨lists, queues⟩, .inl ⟨rfl, .inl zero⟩⟩
  rcases queues.find tid .running with
    ⟨found, others⟩ | ⟨front, node, rest, split, rfl, found⟩
  · exact ⟨s, by simp [Kernel.threadSuspend, zero, found], ⟨lists, queues⟩,
      .inl ⟨rfl, .inr others⟩⟩
  have member : node ∈ lists .running := by rw [split]; simp
  obtain ⟨t, result, after, -, shifted, refs⟩ := queues.threadSuspend_node split zero
  exact ⟨t, result, ⟨_, after⟩, .inr ⟨node, queues.allocated_of_mem member, rfl, zero,
    queues.status _ _ member, shifted, refs⟩⟩

/-! ## Exit -/

/-- The reference that `thread_exit` takes back from a node it believes asleep. -/
def exitRef (t : Thread) : BitVec 32 :=
  if t.status = .suspend ∧ t.wakeMillisecond ≠ 0 ∧ 0 < t.ref.toNat then t.ref - 1 else t.ref

/-- `thread_exit` on a thread that is on RUNNING or SUSPEND moves it to DIED. -/
theorem threadExit_node (queues : Queues s lists) {st : ThreadStatus} {front rest : List Ptr}
    {node : Ptr} (split : lists st = front ++ node :: rest) (other : (s.mem node).tid ≠ 0)
    (from_ : st = .running ∨ st = .suspend) :
    ∃ t, s.threadExit (s.mem node).tid = some t ∧
      Queues t (moved lists st .died front node rest) ∧
      t.currentThread = (if s.currentThread = some node then (rest ++ front).head?
        else s.currentThread) ∧
      Shifted s t node .died ∧
      ∀ p, (t.mem p).ref = if p = node then exitRef (s.mem node) else (s.mem p).ref := by
  have member : node ∈ lists st := by rw [split]; simp
  have allocated := queues.allocated_of_mem member
  let u := s.unlink st front.getLast? node
  let v := if s.currentThread = some node then u.fixNext node else u
  let t := if (s.mem node).status = .suspend ∧ (s.mem node).wakeMillisecond ≠ 0 ∧
      0 < (s.mem node).ref.toNat then v.modify node fun n => { n with ref := n.ref - 1 } else v
  have mem : v.mem = u.mem := by simp only [v]; split <;> simp
  have result : s.threadExit (s.mem node).tid =
      some (if s.currentThread = some node then (t.relink .died node).threadSchedule
        else t.relink .died node) := by
    have hit : (s.mem node).status = (v.mem node).status ∧
        (s.mem node).wakeMillisecond = (v.mem node).wakeMillisecond ∧
        (s.mem node).ref = (v.mem node).ref := by simp [mem, u]
    rcases from_ with rfl | rfl
    · simp only [Kernel.threadExit, other, if_false, queues.find_node split,
        queues.current_of_tid allocated, t, hit.1, hit.2.1, hit.2.2]
      rfl
    · simp only [Kernel.threadExit, other, if_false, queues.find_node split,
        queues.find_elsewhere member (by decide : ThreadStatus.running ≠ .suspend),
        queues.current_of_tid allocated, t, hit.1, hit.2.1, hit.2.2]
      rfl
  have heads : t.threadHead = u.threadHead := by
    simp only [t, v]; split_ifs <;> simp
  have frame : ∀ p, t.mem p =
      { u.mem p with ref := if p = node then exitRef (s.mem node) else (s.mem p).ref } := by
    intro p
    have own : (u.mem p).ref = (s.mem p).ref := by simp [u]
    by_cases same : p = node
    · subst same
      simp only [t, exitRef, if_true]
      split_ifs <;> simp only [modify_mem, mem, if_true, own]
      simp only [← own]
    · simp only [t, same, if_false, ← own]
      split_ifs <;> simp [mem, same]
  have allocations : t.allocated = s.allocated := by
    simp only [t, v]; split_ifs <;> simp [u]
  have left := @leave _ _ queues t st .died _ _ _ split other heads
    (by intro p; simp [Kernel.next, frame, u]) (by simp [frame, u]) (by simp [frame, u])
    (by simp only [t, v]; split_ifs <;> simp [u]) allocations
    (by simp only [t, v]; split_ifs <;> simp [u])
    (by simp only [t, v]; split_ifs <;> simp [u, queues.fixNext])
  refine ⟨_, result, left.1, left.2, ⟨?_, ?_, ?_, ?_⟩, ?_⟩
  · intro p; split_ifs <;> simp_all [u]
  · intro p; split_ifs <;> simp [frame, u]
  · intro p; split_ifs <;> simp [frame, u]
  · split_ifs <;> simp [allocations]
  · intro p; split_ifs <;> simp_all

/-- `thread_exit` moves the RUNNING or SUSPEND thread with the tid to DIED, if
there is one and it is not thread 0. -/
theorem threadExit (queues : Queues s lists) (tid : Nat) :
    ∃ t, s.threadExit tid = some t ∧ (∃ lists', Queues t lists') ∧
      (t = s ∨
        ∃ node ∈ s.allocated, (s.mem node).tid = tid ∧ tid ≠ 0 ∧
          ((s.mem node).status = .running ∨ (s.mem node).status = .suspend) ∧
          Shifted s t node .died ∧
          ∀ p, (t.mem p).ref = if p = node then exitRef (s.mem node) else (s.mem p).ref) := by
  by_cases zero : tid = 0
  · exact ⟨s, by simp [Kernel.threadExit, zero], ⟨lists, queues⟩, .inl rfl⟩
  by_cases hit : ∃ st, (st = ThreadStatus.running ∨ st = .suspend) ∧
      ∃ node ∈ lists st, (s.mem node).tid = tid
  · obtain ⟨st, from_, node, member, rfl⟩ := hit
    obtain ⟨front, rest, split⟩ := List.append_of_mem member
    obtain ⟨t, result, after, -, shifted, refs⟩ := queues.threadExit_node split zero from_
    refine ⟨t, result, ⟨_, after⟩, .inr ⟨node, queues.allocated_of_mem member, rfl, zero, ?_, shifted, refs⟩⟩
    rwa [queues.status st node member]
  · have missing : ∀ st, st = ThreadStatus.running ∨ st = .suspend →
        s.threadFindByTid tid st = some none := by
      intro st from_
      rcases queues.find tid st with ⟨found, -⟩ | ⟨front, node, rest, split, same, -⟩
      · exact found
      · exact absurd ⟨st, from_, node, by rw [split]; simp, same⟩ hit
    exact ⟨s, by simp [Kernel.threadExit, zero, missing], ⟨lists, queues⟩, .inl rfl⟩

end Queues

end TestOs.Threads
