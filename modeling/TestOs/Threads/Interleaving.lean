/-
# Threads.Interleaving -- the thread lists between two statements

While a move is under way its node is on no list, and every other thread sees
the lists in that state.  `Shape` is what holds of the lists at every statement
boundary, and `Place` what the holder of the lock knows where it is: the loop of
`thread_find_by_tid` stands at some split of a list, and from the unlinking to
the store of the head the node is loose.  `Going` says where the scheduler would
go next: it always finds a thread of RUNNING, also from a thread that has just
left that list.  `At` is the position of the cleaner in DIED, which grows in
front of it.

`Sound` collects these.  It is kept by every step that is `Careful`: nobody
comes back to unlock what another thread holds, and the cleaner does not unlink
the head of DIED while `thread_exit` is between its last two stores.
-/
import TestOs.Threads.LockDiscipline
import TestOs.Threads.Runs

namespace TestOs.Threads

open TestOs.Library Kernel

set_option autoImplicit false

/-! ## The lists at a statement boundary -/

/-- The lists hold threads only, tids are distinct and taken, and thread 0 is on RUNNING. -/
structure Shape (k : Kernel) (threads : Finset Ptr) (cleaner : Ptr)
    (lists : ThreadStatus → List Ptr) : Prop extends Linked k lists where
  members : ∀ st, ∀ p ∈ lists st, p ∈ threads
  allocated : threads ⊆ k.allocated
  tids : ∀ p ∈ threads, ∀ q ∈ threads, (k.mem p).tid = (k.mem q).tid → p = q
  bits : ∀ p ∈ threads, k.tidBit (k.mem p).tid = true
  running : cleaner ∈ lists .running
  cleanerTid : (k.mem cleaner).tid = 0

namespace Shape

variable {k k' : Kernel} {threads : Finset Ptr} {cleaner : Ptr} {lists : ThreadStatus → List Ptr}

/-- Stores to memory that is on no list and is no thread's tid. -/
theorem congr (shape : Shape k threads cleaner lists) (heads : k'.threadHead = k.threadHead)
    (nexts : ∀ p, (∃ st, p ∈ lists st) → k'.next p = k.next p)
    (statuses : ∀ p, (∃ st, p ∈ lists st) → (k'.mem p).status = (k.mem p).status)
    (tids : ∀ p ∈ threads, (k'.mem p).tid = (k.mem p).tid)
    (bits : ∀ p ∈ threads, k.tidBit (k.mem p).tid = true → k'.tidBit (k.mem p).tid = true)
    (allocations : threads ⊆ k'.allocated) : Shape k' threads cleaner lists where
  chain st := by
    rw [heads]
    exact (shape.chain st).congr fun p member => nexts p ⟨st, member⟩
  status st p member := (statuses p ⟨st, member⟩).trans (shape.status st p member)
  members := shape.members
  allocated := allocations
  tids p hp q hq same := by
    rw [tids p hp, tids q hq] at same
    exact shape.tids p hp q hq same
  bits p hp := by
    rw [tids p hp]
    exact bits p hp (shape.bits p hp)
  running := shape.running
  cleanerTid := (tids cleaner (shape.members .running cleaner shape.running)).trans shape.cleanerTid

/-- Fewer nodes on the lists. -/
theorem shrink (shape : Shape k threads cleaner lists) {lists' : ThreadStatus → List Ptr}
    (linked : Linked k' lists') (fewer : ∀ st p, p ∈ lists' st → p ∈ lists st)
    (running : cleaner ∈ lists' .running) (tids : ∀ p, (k'.mem p).tid = (k.mem p).tid)
    (bitmaps : k'.tidBitmap = k.tidBitmap) (allocations : k'.allocated = k.allocated) :
    Shape k' threads cleaner lists' where
  toLinked := linked
  members st p member := shape.members st p (fewer st p member)
  allocated := by
    rw [allocations]
    exact shape.allocated
  tids p hp q hq same := by
    rw [tids, tids] at same
    exact shape.tids p hp q hq same
  bits p hp := by
    have bit := shape.bits p hp
    rw [tids, tidBit, bitmaps]
    exact bit
  running := running
  cleanerTid := (tids cleaner).trans shape.cleanerTid

/-- The lists once a node other than the cleaner's is taken off one. -/
theorem unlink (shape : Shape k threads cleaner lists) {st : ThreadStatus} {front rest : List Ptr}
    {node : Ptr} (split : lists st = front ++ node :: rest) (other : node ≠ cleaner) :
    Shape (k.unlink st front.getLast? node) threads cleaner
      (Function.update lists st (front ++ rest)) := by
  refine shape.shrink (shape.toLinked.unlink split) (fun st' p member => ?_) ?_
    (fun p => unlink_tid ..) (unlink_bitmap ..) (unlink_allocated ..)
  · by_cases same : st' = st
    · subst same
      rw [Function.update_self] at member
      rw [split]
      simp only [List.mem_append, List.mem_cons] at member ⊢
      tauto
    · rwa [Function.update_of_ne same] at member
  · have here := shape.running
    by_cases same : .running = st
    · subst same
      rw [split] at here
      rw [Function.update_self]
      simp only [List.mem_append, List.mem_cons] at here ⊢
      have apart : cleaner ≠ node := Ne.symm other
      tauto
    · rwa [Function.update_of_ne same]

/-- The last store of a move: the head of the list. -/
theorem setHead (shape : Shape k threads cleaner lists) {dest : ThreadStatus} {node : Ptr}
    (member : node ∈ threads) (loose : ∀ st, node ∉ lists st) (status : (k.mem node).status = dest)
    (next : k.next node = k.threadHead dest) :
    Shape (k.setHead dest (some node)) threads cleaner
      (Function.update lists dest (node :: lists dest)) where
  chain st := by
    by_cases same : st = dest
    · subst same
      rw [Function.update_self, setHead_head, if_pos rfl]
      exact (shape.chain st).push (loose st) (fun _ _ => rfl) next
    · rw [Function.update_of_ne same, setHead_head, if_neg same]
      exact shape.chain st
  status st p listed := by
    by_cases same : st = dest
    · subst same
      rw [Function.update_self, List.mem_cons] at listed
      rcases listed with rfl | listed
      · exact status
      · exact shape.status st p listed
    · rw [Function.update_of_ne same] at listed
      exact shape.status st p listed
  members st p listed := by
    by_cases same : st = dest
    · subst same
      rw [Function.update_self, List.mem_cons] at listed
      rcases listed with rfl | listed
      · exact member
      · exact shape.members st p listed
    · rw [Function.update_of_ne same] at listed
      exact shape.members st p listed
  allocated := shape.allocated
  tids := shape.tids
  bits := shape.bits
  running := by
    have here := shape.running
    by_cases same : .running = dest
    · subst same
      rw [Function.update_self]
      exact List.mem_cons_of_mem _ here
    · rwa [Function.update_of_ne same]
  cleanerTid := shape.cleanerTid

/-- A new thread, whose tid nobody has. -/
theorem insert (shape : Shape k threads cleaner lists) {node : Ptr} (memory : node ∈ k.allocated)
    (bit : k.tidBit (k.mem node).tid = true)
    (fresh : ∀ p ∈ threads, (k.mem p).tid ≠ (k.mem node).tid) :
    Shape k (insert node threads) cleaner lists where
  toLinked := shape.toLinked
  members st p member := Finset.mem_insert_of_mem (shape.members st p member)
  allocated := Finset.insert_subset memory shape.allocated
  tids p hp q hq same := by
    rcases Finset.mem_insert.1 hp with isNew | hp'
    · rcases Finset.mem_insert.1 hq with isNew' | hq'
      · rw [isNew, isNew']
      · rw [isNew] at same
        exact (fresh q hq' same.symm).elim
    · rcases Finset.mem_insert.1 hq with isNew' | hq'
      · rw [isNew'] at same
        exact (fresh p hp' same).elim
      · exact shape.tids p hp' q hq' same
  bits p hp := by
    rcases Finset.mem_insert.1 hp with rfl | hp
    · exact bit
    · exact shape.bits p hp
  running := shape.running
  cleanerTid := shape.cleanerTid

/-- The memory of a thread on no list is nobody's any more, and neither is its tid. -/
theorem reap (shape : Shape k threads cleaner lists) {node : Ptr} (member : node ∈ threads)
    (loose : ∀ st, node ∉ lists st) (heads : k'.threadHead = k.threadHead) (mem : k'.mem = k.mem)
    (bits : ∀ tid, k'.tidBit tid = true ↔ k.tidBit tid = true ∧ tid ≠ (k.mem node).tid)
    (allocations : k'.allocated = k.allocated) :
    Shape k' (threads.erase node) cleaner lists where
  chain st := by
    rw [heads]
    exact (shape.chain st).congr fun p _ => by simp only [Kernel.next, mem]
  status st p listed := by
    rw [mem]
    exact shape.status st p listed
  members st p listed := Finset.mem_erase.2 ⟨fun same => loose st (same ▸ listed),
    shape.members st p listed⟩
  allocated := by
    rw [allocations]
    exact (Finset.erase_subset _ _).trans shape.allocated
  tids p hp q hq same := by
    rw [mem] at same
    exact shape.tids p (Finset.mem_of_mem_erase hp) q (Finset.mem_of_mem_erase hq) same
  bits p hp := by
    rw [mem, bits]
    refine ⟨shape.bits p (Finset.mem_of_mem_erase hp), fun same => ?_⟩
    exact (Finset.mem_erase.1 hp).1 (shape.tids p (Finset.mem_of_mem_erase hp) node member same)
  running := shape.running
  cleanerTid := by
    rw [mem]
    exact shape.cleanerTid

end Shape

/-- Behind a node of DIED that is no longer its head: what is in front is cut off. -/
theorem Linked.cut {k : Kernel} {lists : ThreadStatus → List Ptr} (linked : Linked k lists)
    {st : ThreadStatus} {front rest : List Ptr} {node : Ptr}
    (split : lists st = front ++ node :: rest) :
    Linked (k.unlink st none node) (Function.update lists st rest) where
  chain st' := by
    by_cases same : st' = st
    · subst same
      have whole := linked.chain st'
      rw [split] at whole
      rw [Function.update_self]
      simpa [Kernel.unlink, Kernel.next] using
        (whole.suffix.2 : Chain k.next (k.next node) rest)
    · rw [Function.update_of_ne same]
      simpa [Kernel.unlink, same] using linked.chain st'
  status st' p member := by
    rw [unlink_status]
    by_cases same : st' = st
    · subst same
      rw [Function.update_self] at member
      exact linked.status st' p (by rw [split]; simp [member])
    · rw [Function.update_of_ne same] at member
      exact linked.status st' p member

/-! ## Where the threads are -/

/-- The node that `thread_create` has from `malloc` and has not put on READY. -/
def Pc.newNode : Pc → Option Ptr
  | .lock (.create new) | .clear new | .pickTid new | .fill new _ => some new.node
  | .giveBack node | .setNext .ready _ node | .setHead .ready _ node => some node
  | _ => none

/-- The thread that is between two lists. -/
def Pc.hand : Pc → Option Ptr
  | .fix _ _ node | .fixHead _ _ node | .giveRef _ node | .setStatus _ _ node => some node
  | .setNext dest _ node | .setHead dest _ node => if dest = .ready then none else some node
  | _ => none

/-- No function but `thread_wake` looks for tid 0. -/
def Pc.Spares : Pc → Prop
  | .lock (.find goal tid) | .search goal tid _ | .find goal tid _ _ _ => goal.spares → tid ≠ 0
  | .unlink move tid _ _ _ => move ≠ .wake → tid ≠ 0
  | _ => True

/-- The tid that is compared with `current->tid`, once `fix_next_thread` is set. -/
def Pc.behindFix : Pc → Option Nat
  | .giveRef tid _ => some tid
  | .setStatus _ self _ | .setNext _ self _ | .setHead _ self _ => self
  | _ => none

/-- The same, from the unlinking on. -/
def Pc.compared : Pc → Option Nat
  | .fix _ tid _ | .fixHead _ tid _ => some tid
  | pc => pc.behindFix

theorem Pc.behindFix_none {pc : Pc} (plain : pc.compared = none) : pc.behindFix = none := by
  cases pc <;> first | rfl | exact plain

namespace Cpu

/-- The thread is moving itself off RUNNING, and has not reached its `thread_yield`. -/
def Leaving (s : Cpu) (c : Ptr) : Prop :=
  (s.pc c).compared.any (s.own c) ∨ s.pc c = .selfUnlock

/-- A node of a move: a thread on no list. -/
structure Loose (s : Cpu) (lists : ThreadStatus → List Ptr) (node : Ptr) : Prop where
  member : node ∈ s.threads
  loose : ∀ st, node ∉ lists st

/-- A tid that is taken, by none of the threads. -/
structure FreshTid (s : Cpu) (tid : Nat) : Prop where
  bit : s.kernel.tidBit tid = true
  fresh : ∀ p ∈ s.threads, (s.kernel.mem p).tid ≠ tid

/-- The lists that a goal searches. -/
def Searches (goal : Goal) (st : ThreadStatus) : Prop := st = goal.first ∨ goal.second = some st

/-- What the holder `h` of the lock knows where it is. -/
def Place (s : Cpu) (lists : ThreadStatus → List Ptr) (h : Ptr) : Pc → Prop
  | .fill _ tid => s.FreshTid tid
  | .search goal _ st => Searches goal st
  | .find goal _ st prev node => Searches goal st ∧
      ∃ front rest, lists st = front ++ rest ∧ prev = front.getLast? ∧ node = rest.head?
  | .unlink move tid st prev node => Searches (.move move) st ∧ (s.kernel.mem node).tid = tid ∧
      ∃ front rest, lists st = front ++ node :: rest ∧ prev = front.getLast?
  | .fix move tid node =>
      s.Loose lists node ∧ move ≠ .wake ∧ (s.kernel.mem node).tid = tid
  | .fixHead move tid node =>
      s.Loose lists node ∧ move ≠ .wake ∧ (s.kernel.mem node).tid = tid ∧ node = h
  | .giveRef tid node => s.Loose lists node ∧ (s.kernel.mem node).tid = tid
  | .setStatus dest self node =>
      s.Loose lists node ∧ dest ≠ .ready ∧ ∀ tid ∈ self, (s.kernel.mem node).tid = tid
  | .setNext dest self node => (s.kernel.mem node).status = dest ∧
      (if dest = .ready then s.FreshTid (s.kernel.mem node).tid ∧ self = none
        else s.Loose lists node ∧ ∀ tid ∈ self, (s.kernel.mem node).tid = tid)
  | .setHead dest self node => (s.kernel.mem node).status = dest ∧
      s.kernel.next node = s.kernel.threadHead dest ∧
      (if dest = .ready then s.FreshTid (s.kernel.mem node).tid ∧ self = none
        else s.Loose lists node ∧ ∀ tid ∈ self, (s.kernel.mem node).tid = tid)
  | _ => True

/-- The current thread is on RUNNING, or the scheduler goes on from it to a
thread of RUNNING all the same. -/
def Going (s : Cpu) (lists : ThreadStatus → List Ptr) (c : Ptr) : Prop :=
  match s.kernel.fixNextThread with
  | some f => f ∈ lists .running ∧
      ((s.pc c).behindFix.any (s.own c) ∨ s.pc c = .selfUnlock ∨ s.pc c = .selfYield)
  | none => c ∈ lists .running ∨
      (∃ move tid, s.pc c = .fix move tid c ∨ s.pc c = .fixHead move tid c) ∧
        ∀ f, s.kernel.next c = some f → f ∈ lists .running

/-- `prev` and `node` stand side by side in DIED; without `prev`, nodes may have
been pushed in front. -/
def At (lists : ThreadStatus → List Ptr) (prev node : Option Ptr) : Prop :=
  ∃ front rest, lists .died = front ++ rest ∧ node = rest.head? ∧
    (prev = none ∨ prev = front.getLast?)

/-- Where the cleaner is. -/
def Cleans (s : Cpu) (lists : ThreadStatus → List Ptr) : Cleaning → Prop
  | .scan => True
  | .visit prev node => At lists prev node
  | .advance node => node ∈ lists .died
  | .reap prev node => At lists prev (some node)
  | .free prev node next => At lists prev next ∧ node ∈ s.kernel.allocated ∧ node ∉ s.threads ∧
      ∀ p, (s.pc p).newNode ≠ some node

/-- What holds at every statement boundary. -/
structure Sound (s : Cpu) (lists : ThreadStatus → List Ptr) : Prop extends LockHeld s where
  shape : Shape s.kernel s.threads s.cleaner lists
  place : ∀ h, s.holder = some h → s.Place lists h (s.pc h)
  going : ∃ c, s.kernel.currentThread = some c ∧ s.Going lists c
  spares : ∀ p, (s.pc p).Spares
  pending : ∀ p n, (s.pc p).newNode = some n → n ∈ s.kernel.allocated ∧ n ∉ s.threads
  apart : ∀ p q n, (s.pc p).newNode = some n → (s.pc q).newNode = some n → p = q
  cleans : s.Cleans lists s.cleaning
  idle : s.pc s.cleaner = .idle
  kept : ∀ p ∈ s.threads, (∃ st, p ∈ lists st) ∨ (∃ h, s.holder = some h ∧ (s.pc h).hand = some p) ∨
    (s.kernel.mem p).status = .died

/-- How a statement changes the lists: only under the lock, and DIED only by the
last store of a move. -/
structure Changes (s : Cpu) (c : Ptr) (lists lists' : ThreadStatus → List Ptr) : Prop where
  locked : s.holder = some c ∨ lists' = lists
  died : lists' .died = lists .died ∨
    ∃ self node, s.pc c = .setHead .died self node ∧ lists' .died = node :: lists .died

/-- `thread_exit` has read the head of DIED and not yet stored the new one. -/
def Pushing (s : Cpu) : Prop := ∃ p self node, s.pc p = .setHead .died self node

/-- The cleaner unlinks what was the head of DIED when it looked. -/
def ReapsHead (s : Cpu) (act : Act) : Prop :=
  act = .go ∧ s.kernel.currentThread = some s.cleaner ∧ ∃ node, s.cleaning = .reap none node

/-- Nobody comes back to unlock what another thread holds, and the cleaner does
not unlink the head of DIED between the last two stores of a `thread_exit`. -/
structure Careful (s : Cpu) (act : Act) : Prop where
  alone : s.ComesBack act → s.lock = false
  apart : s.ReapsHead act → ¬ s.Pushing

/-- Between operations, with thread 0 in its loop: what `start_thread` leaves. -/
structure Booted (s : Cpu) : Prop where
  quiet : s.Quiet
  queues : ∃ lists, Queues s.kernel lists
  cleaner : s.cleaner ∈ s.kernel.allocated
  cleanerTid : (s.kernel.mem s.cleaner).tid = 0

namespace Sound

variable {s t : Cpu} {lists lists' : ThreadStatus → List Ptr} {c : Ptr}

/-- What a step of the current thread `c` has to show: the rest of `Sound` is
about the other threads, whose places are as before. -/
theorem stepped (sound : s.Sound lists) (other : c ≠ s.cleaner) (held : t.LockHeld)
    (pcs : ∀ p, p ≠ c → t.pc p = s.pc p ∨ t.pc p = .idle) (cleaner : t.cleaner = s.cleaner)
    (shape : Shape t.kernel t.threads s.cleaner lists')
    (place : ∀ h, t.holder = some h → t.Place lists' h (t.pc h))
    (going : ∃ c, t.kernel.currentThread = some c ∧ t.Going lists' c)
    (spares : (t.pc c).Spares)
    (pending : ∀ p n, (s.pc p).newNode = some n → p ≠ c → n ∈ t.kernel.allocated ∧ n ∉ t.threads)
    (mine : ∀ n, (t.pc c).newNode = some n → n ∈ t.kernel.allocated ∧ n ∉ t.threads ∧
      ∀ p, p ≠ c → (s.pc p).newNode ≠ some n)
    (cleans : t.Cleans lists' t.cleaning)
    (kept : ∀ p ∈ t.threads, (∃ st, p ∈ lists' st) ∨
      (∃ h, t.holder = some h ∧ (t.pc h).hand = some p) ∨ (t.kernel.mem p).status = .died) :
    t.Sound lists' where
  toLockHeld := held
  shape := by rwa [cleaner]
  place := place
  going := going
  spares p := by
    by_cases self : p = c
    · rwa [self]
    · rcases pcs p self with same | idle
      · rw [same]
        exact sound.spares p
      · rw [idle]
        trivial
  pending p n new := by
    by_cases self : p = c
    · subst self
      exact ⟨(mine n new).1, (mine n new).2.1⟩
    · rcases pcs p self with same | idle
      · rw [same] at new
        exact pending p n new self
      · rw [idle] at new
        cases new
  apart p q n first second := by
    have others : ∀ r, r ≠ c → (t.pc r).newNode = some n → (s.pc r).newNode = some n := by
      intro r self new
      rcases pcs r self with same | idle
      · rwa [same] at new
      · rw [idle] at new
        cases new
    by_cases self : p = c
    · by_cases self' : q = c
      · rw [self, self']
      · rw [self] at first
        exact ((mine n first).2.2 q self' (others q self' second)).elim
    · by_cases self' : q = c
      · rw [self'] at second
        exact ((mine n second).2.2 p self (others p self first)).elim
      · exact sound.apart p q n (others p self first) (others q self' second)
  cleans := cleans
  idle := by
    rw [cleaner]
    rcases pcs s.cleaner (Ne.symm other) with same | idle
    · rw [same]
      exact sound.idle
    · exact idle
  kept := kept

/-- The place of a thread is not touched by what others do meanwhile. -/
theorem place_congr {h : Ptr} {pc : Pc} (place : s.Place lists h pc)
    (same : ∀ st, st ≠ .died → lists' st = lists st)
    (loose : ∀ p, s.Loose lists p → t.Loose lists' p)
    (fresh : ∀ tid, s.FreshTid tid → t.FreshTid tid)
    (tids : ∀ p, (t.kernel.mem p).tid = (s.kernel.mem p).tid)
    (statuses : ∀ p, (t.kernel.mem p).status = (s.kernel.mem p).status)
    (link : ∀ dest self node, pc = .setHead dest self node →
      s.kernel.next node = s.kernel.threadHead dest →
        t.kernel.next node = t.kernel.threadHead dest) : t.Place lists' h pc := by
  have searched : ∀ goal st, Searches goal st → lists' st = lists st := by
    intro goal st search
    refine same st ?_
    rintro rfl
    rcases search with first | second
    · cases goal with
      | wait => cases first
      | move move => cases move <;> cases first
    · cases goal with
      | wait => cases second
      | move move => cases move <;> cases second
  cases pc <;> try trivial
  case fill new tid => exact fresh tid place
  case find goal tid st prev node =>
      obtain ⟨search, front, rest, split, before, here⟩ := place
      exact ⟨search, front, rest, (searched _ _ search).trans split, before, here⟩
  case unlink move tid st prev node =>
      obtain ⟨search, isTid, front, rest, split, before⟩ := place
      exact ⟨search, (tids node).trans isTid, front, rest, (searched _ _ search).trans split, before⟩
  case fix move tid node =>
      exact ⟨loose node place.1, place.2.1, (tids node).trans place.2.2⟩
  case fixHead move tid node =>
      exact ⟨loose node place.1, place.2.1, (tids node).trans place.2.2.1, place.2.2.2⟩
  case giveRef tid node => exact ⟨loose node place.1, (tids node).trans place.2⟩
  case setStatus dest self node =>
      refine ⟨loose node place.1, place.2.1, fun tid compared => ?_⟩
      rw [tids]
      exact place.2.2 tid compared
  case setNext dest self node =>
      obtain ⟨status, rest⟩ := place
      refine ⟨(statuses node).trans status, ?_⟩
      split
      · rename_i ready
        rw [if_pos ready] at rest
        rw [tids]
        exact ⟨fresh _ rest.1, rest.2⟩
      · rename_i other
        rw [if_neg other] at rest
        refine ⟨loose node rest.1, fun tid compared => ?_⟩
        rw [tids]
        exact rest.2 tid compared
  case setHead dest self node =>
      obtain ⟨status, next, rest⟩ := place
      refine ⟨(statuses node).trans status, link _ _ _ rfl next, ?_⟩
      split
      · rename_i ready
        rw [if_pos ready] at rest
        rw [tids]
        exact ⟨fresh _ rest.1, rest.2⟩
      · rename_i other
        rw [if_neg other] at rest
        refine ⟨loose node rest.1, fun tid compared => ?_⟩
        rw [tids]
        exact rest.2 tid compared

/-- Where the kernel's lists are the same, so are all places in them. -/
theorem place_same {h : Ptr} {pc : Pc} (place : s.Place lists h pc) (threads : t.threads = s.threads)
    (heads : t.kernel.threadHead = s.kernel.threadHead)
    (nexts : ∀ p, t.kernel.next p = s.kernel.next p)
    (tids : ∀ p, (t.kernel.mem p).tid = (s.kernel.mem p).tid)
    (statuses : ∀ p, (t.kernel.mem p).status = (s.kernel.mem p).status)
    (bitmaps : t.kernel.tidBitmap = s.kernel.tidBitmap) : t.Place lists h pc := by
  refine place_congr place (fun _ _ => rfl) (fun p loose => ⟨?_, loose.loose⟩) (fun tid fresh => ?_)
    tids statuses fun dest self node _ next => ?_
  · rw [threads]
    exact loose.member
  · refine ⟨by rw [tidBit, bitmaps]; exact fresh.bit, fun p member => ?_⟩
    rw [tids]
    exact fresh.fresh p (threads ▸ member)
  · rw [nexts, heads]
    exact next

/-- From any statement, the scheduler finds a thread of RUNNING. -/
theorem schedule_current (sound : s.Sound lists) :
    ∃ f ∈ lists .running, s.kernel.threadSchedule.currentThread = some f ∧
      s.kernel.threadSchedule.fixNextThread = none := by
  obtain ⟨c, current, going⟩ := sound.going
  unfold Going at going
  cases fixed : s.kernel.fixNextThread with
  | some f =>
      rw [fixed] at going
      exact ⟨f, going.1, by simp [threadSchedule, current, fixed]⟩
  | none =>
      rw [fixed] at going
      have chain := sound.shape.chain .running
      -- the head of RUNNING, which the cleaner keeps from being empty
      have wraps : s.kernel.next c = none → ∃ f ∈ lists .running,
          s.kernel.threadSchedule.currentThread = some f ∧
            s.kernel.threadSchedule.fixNextThread = none := by
        intro last
        have head := chain.head_eq
        have some_ := sound.shape.running
        cases nodes : lists .running with
        | nil =>
            rw [nodes] at some_
            cases some_
        | cons first rest =>
            rw [nodes] at head
            refine ⟨first, List.mem_cons_self, ?_⟩
            have last' : (s.kernel.mem c).next = none := last
            simp [threadSchedule, current, fixed, last', head]
      cases next : s.kernel.next c with
      | none => exact wraps next
      | some f =>
          have next' : (s.kernel.mem c).next = some f := next
          have picked : s.kernel.threadSchedule.currentThread = some f ∧
              s.kernel.threadSchedule.fixNextThread = none := by
            simp [threadSchedule, current, fixed, next']
          rcases going with running | ⟨-, successor⟩
          · obtain ⟨front, rest, split⟩ := List.append_of_mem running
            rw [split] at chain
            have tail := chain.suffix.2.head_eq
            rw [next] at tail
            refine ⟨f, ?_, picked⟩
            rw [split]
            have inRest := List.mem_of_head? tail.symm
            simp [inRest]
          · exact ⟨f, successor f next, picked⟩

/-- The scheduler keeps everything: whoever it makes current is on RUNNING. -/
theorem scheduled (sound : s.Sound lists) : s.schedule.Sound lists where
  holder := sound.holder
  lock := sound.lock
  shape := sound.shape.congr (by simp [schedule]) (by simp [schedule, Kernel.next])
    (by simp [schedule]) (by simp [schedule]) (by simp [schedule, tidBit])
    (by simpa [schedule] using sound.shape.allocated)
  place h holds := place_same (sound.place h holds) rfl (by simp [schedule])
    (by simp [schedule, Kernel.next]) (by simp [schedule]) (by simp [schedule]) (by simp [schedule])
  going := by
    obtain ⟨f, running, current, fixed⟩ := sound.schedule_current
    refine ⟨f, current, ?_⟩
    simp only [Going, schedule, fixed]
    exact .inl running
  spares := sound.spares
  pending p n new := by simpa [schedule] using sound.pending p n new
  apart := sound.apart
  cleans := by
    have before := sound.cleans
    cases where_ : s.cleaning with
    | scan => simp [Cleans, schedule, where_]
    | _ =>
        rw [where_] at before
        simpa [Cleans, schedule, where_] using before
  idle := sound.idle
  kept := by simpa [schedule] using sound.kept

end Sound

end Cpu

end TestOs.Threads
