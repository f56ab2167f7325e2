/-
# Threads.Preemption -- thread.c statement by statement

`Threads.System` runs each operation of thread.c as one step.  Here a step is
one statement: the timer interrupt may come between any two of them while
interrupts are on, and then another thread goes on where it was.

`Pc` is the place of a thread in the code, with its local variables; the four
functions that look a thread up share the loop of `thread_find_by_tid`, and the
three that move one share the stores of the move.  Statements between `cli` and
`sti` are one step, and so are stores to memory that no other thread has a
pointer to yet.  `thread_lock` is the word `lock`; that of `pe_lock` a step
either takes it or yields.

Four components are not in the source.  `holder` is the thread whose `pe_lock`
took the lock and that no `pe_unlock` has released since; `threads` are the
nodes that `thread_create` has put on READY and the cleaner has not taken down;
`died` are those that were put on DIED, and `freed` those handed to `free`, each
until its node is reused.
-/
import TestOs.Library.Transitions
import TestOs.Threads.System

namespace TestOs.Threads

open TestOs.Library

set_option autoImplicit false

/-! ## Places in the code -/

/-- The functions that move a thread to another list. -/
inductive Move where
  | wake
  | suspend
  | exit
  deriving DecidableEq

/-- What is done with the thread that is looked up. -/
inductive Goal where
  | move (move : Move)
  | wait
  deriving DecidableEq

/-- `new_thread` and the other parameters of `thread_create`. -/
structure NewThread where
  node : Ptr
  name : Option (List Char)
  handler : Nat
  params : Nat
  deriving DecidableEq

/-- An operation and its arguments, at `pe_lock(&thread_lock)`. -/
inductive Call where
  | create (new : NewThread)
  | find (goal : Goal) (tid : Nat)
  deriving DecidableEq

def Move.dest : Move → ThreadStatus
  | .wake => .running
  | .suspend => .suspend
  | .exit => .died

/-- The list that is searched first. -/
def Goal.first : Goal → ThreadStatus
  | .move .wake => .ready
  | _ => .running

/-- The list that is searched when the first has no such thread. -/
def Goal.second : Goal → Option ThreadStatus
  | .move .suspend => none
  | _ => some .suspend

/-- Thread 0 is only ever woken: the other functions return at once. -/
def Goal.spares : Goal → Bool
  | .move .wake => false
  | _ => true

/-- The tid that is compared with `current->tid` behind the move. -/
def Move.self (tid : Nat) : Move → Option Nat
  | .wake => none
  | _ => some tid

/-- The next statement of a thread. -/
inductive Pc where
  /-- Outside of thread.c. -/
  | idle
  /-- In `pe_lock`. -/
  | lock (call : Call)
  -- thread_create
  | clear (new : NewThread)
  | pickTid (new : NewThread)
  | fill (new : NewThread) (tid : Nat)
  | giveBack (node : Ptr)
  -- thread_find_by_tid
  | search (goal : Goal) (tid : Nat) (st : ThreadStatus)
  | find (goal : Goal) (tid : Nat) (st : ThreadStatus) (prev node : Option Ptr)
  -- thread_wake, thread_suspend and thread_exit
  | unlink (move : Move) (tid : Nat) (st : ThreadStatus) (prev : Option Ptr) (node : Ptr)
  /-- `tid == current->tid && (fix_next_thread = node->next) == NULL`. -/
  | fix (move : Move) (tid : Nat) (node : Ptr)
  /-- `fix_next_thread = thread_head[THREAD_RUNNING]`. -/
  | fixHead (move : Move) (tid : Nat) (node : Ptr)
  /-- The test for a sleeper in `thread_exit`. -/
  | giveRef (tid : Nat) (node : Ptr)
  | setStatus (dest : ThreadStatus) (self : Option Nat) (node : Ptr)
  | setNext (dest : ThreadStatus) (self : Option Nat) (node : Ptr)
  | setHead (dest : ThreadStatus) (self : Option Nat) (node : Ptr)
  /-- `pe_unlock` where the thread has moved itself. -/
  | selfUnlock
  /-- The `thread_yield` behind that. -/
  | selfYield
  /-- The `pe_unlock` at the end, after that `thread_yield` has returned. -/
  | comeBack
  /-- The `pe_unlock` at the end. -/
  | unlock
  -- thread_wait
  | takeRef (node : Ptr)
  | waitUnlock (node : Ptr)
  | poll (node : Ptr)
  | dropRef (node : Ptr)
  deriving DecidableEq

/-- Between `pe_lock` and `pe_unlock`. -/
def Pc.Guarded : Pc → Prop
  | .idle | .lock _ | .selfYield | .comeBack | .poll _ | .dropRef _ => False
  | _ => True

instance (pc : Pc) : Decidable pc.Guarded := by
  cases pc <;> first | exact isFalse id | exact isTrue trivial

/-- The next statement of the cleaner loop, with `prev`, `node` and `next`. -/
inductive Cleaning where
  | scan
  | visit (prev node : Option Ptr)
  | advance (node : Ptr)
  /-- The statements between `cli` and `sti`. -/
  | reap (prev : Option Ptr) (node : Ptr)
  | free (prev : Option Ptr) (node : Ptr) (next : Option Ptr)
  deriving DecidableEq

/-- The CPU and the memory of thread.c, and where each thread is. -/
structure Cpu where
  kernel : Kernel
  lock : Bool
  /-- The interrupt flag. -/
  irq : Bool
  pc : Ptr → Pc
  /-- The thread that runs the cleaner loop. -/
  cleaner : Ptr
  cleaning : Cleaning
  holder : Option Ptr
  threads : Finset Ptr
  died : Finset Ptr
  freed : Finset Ptr

namespace Cpu

def goto (s : Cpu) (c : Ptr) (pc : Pc) : Cpu := { s with pc := Function.update s.pc c pc }

def store (s : Cpu) (k : Kernel) : Cpu := { s with kernel := k }

section Updates

variable (s : Cpu) (k : Kernel) (c p : Ptr) (pc : Pc)

@[simp] theorem store_kernel : (s.store k).kernel = k := rfl
@[simp] theorem store_pc : (s.store k).pc = s.pc := rfl
@[simp] theorem goto_kernel : (s.goto c pc).kernel = s.kernel := rfl
@[simp] theorem goto_pc : (s.goto c pc).pc c = pc := Function.update_self ..

theorem goto_pc_of_ne (apart : p ≠ c) : (s.goto c pc).pc p = s.pc p :=
  Function.update_of_ne apart ..

end Updates

/-- `thread_schedule`; whoever runs then has interrupts on. -/
def schedule (s : Cpu) : Cpu := { s with kernel := s.kernel.threadSchedule, irq := true }

/-- `pe_unlock`. -/
def release (s : Cpu) : Cpu := { s with lock := false, holder := none }

/-- The first statement behind `pe_lock`. -/
def locked : Call → Pc
  | .create new => .clear new
  | .find goal tid => .search goal tid goal.first

/-- Behind `thread_find_by_tid` with result 0. -/
def found (goal : Goal) (tid : Nat) (st : ThreadStatus) (prev : Option Ptr) (node : Ptr) : Pc :=
  match goal with
  | .move move => .unlink move tid st prev node
  | .wait => .takeRef node

/-- Behind `thread_find_by_tid` with result -1. -/
def missed (goal : Goal) (tid : Nat) (st : ThreadStatus) : Pc :=
  match goal.second with
  | some second => if st = second then .unlock else .search goal tid second
  | none => .unlock

/-- Behind the stores to `fix_next_thread`. -/
def fixed (move : Move) (tid : Nat) (node : Ptr) : Pc :=
  match move with
  | .exit => .giveRef tid node
  | _ => .setStatus move.dest (move.self tid) node

/-- Whether `tid` is `current->tid`. -/
def own (s : Cpu) (c : Ptr) (tid : Nat) : Bool := (s.kernel.mem c).tid == tid

/-- The current thread executes its next statement. -/
def go (s : Cpu) (c : Ptr) : Option Cpu :=
  match s.pc c with
  | .idle => none
  | .lock call =>
      some (if s.lock then s.schedule
        else { s with lock := true, holder := some c }.goto c (locked call))
  | .clear new => some ((s.store (s.kernel.modify new.node fun _ => Thread.zero)).goto c (.pickTid new))
  | .pickTid new =>
      match s.kernel.findFreeTid with
      | some (mapIdx, bitIdx) =>
          some ((s.store (s.kernel.setTidWord mapIdx
            (s.kernel.tidBitmap mapIdx ||| BitVec.twoPow 32 bitIdx))).goto c
              (.fill new (mapIdx * tidBitNr + bitIdx)))
      | none => some (s.goto c (.giveBack new.node))
  | .fill new tid =>
      some (((s.store (s.kernel.modify new.node fun t =>
        { t with tid := tid, status := .ready, wakeMillisecond := 0, ref := 0,
                 handler := new.handler, params := new.params,
                 esp := new.node + kernelThreadStackSize - 12,
                 name := Kernel.threadName new.name })).goto new.node .idle).goto c
        (.setNext .ready none new.node))
  | .giveBack node =>
      some ((s.store { s.kernel with allocated := s.kernel.allocated.erase node }).goto c .unlock)
  | .search goal tid st => some (s.goto c (.find goal tid st none (s.kernel.threadHead st)))
  | .find goal tid st _ none => some (s.goto c (missed goal tid st))
  | .find goal tid st prev (some node) =>
      some (s.goto c (if (s.kernel.mem node).tid = tid then found goal tid st prev node
        else .find goal tid st (some node) (s.kernel.mem node).next))
  | .unlink move tid st prev node =>
      some ((s.store (s.kernel.unlink st prev node)).goto c
        (if move = .wake then .setStatus .running none node else .fix move tid node))
  | .fix move tid node =>
      some (if s.own c tid then
        (s.store { s.kernel with fixNextThread := (s.kernel.mem node).next }).goto c
          (if (s.kernel.mem node).next = none then .fixHead move tid node else fixed move tid node)
      else s.goto c (fixed move tid node))
  | .fixHead move tid node =>
      some ((s.store { s.kernel with fixNextThread := s.kernel.threadHead .running }).goto c
        (fixed move tid node))
  | .giveRef tid node =>
      let sleeper := (s.kernel.mem node).status = .suspend ∧
        (s.kernel.mem node).wakeMillisecond ≠ 0 ∧ 0 < (s.kernel.mem node).ref.toNat
      some ((if sleeper then s.store (s.kernel.dropRef node) else s).goto c
        (.setStatus .died (some tid) node))
  | .setStatus dest self node =>
      some ((s.store (s.kernel.modify node fun t => { t with status := dest })).goto c
        (.setNext dest self node))
  -- thread_create stores `next` only if READY is not empty; before that it is NULL
  | .setNext dest self node =>
      some ((s.store (s.kernel.modify node fun t => { t with next := s.kernel.threadHead dest })).goto c
        (.setHead dest self node))
  | .setHead dest self node =>
      let t := s.store (s.kernel.setHead dest (some node))
      let t :=
        match dest with
        | .ready => { t with threads := insert node t.threads, died := t.died.erase node,
                             freed := t.freed.erase node }
        | .died => { t with died := insert node t.died }
        | _ => t
      some (t.goto c (if self.any (s.own c) then .selfUnlock else .unlock))
  | .selfUnlock => some (s.release.goto c .selfYield)
  | .selfYield => some ((s.goto c .comeBack).schedule)
  | .comeBack => some (s.release.goto c .idle)
  | .unlock => some (s.release.goto c .idle)
  | .takeRef node => some ((s.store (s.kernel.takeRef node)).goto c (.waitUnlock node))
  | .waitUnlock node => some ({ s.release with irq := true }.goto c (.poll node))
  | .poll node =>
      some (if (s.kernel.mem node).status ≠ .died then s.schedule else s.goto c (.dropRef node))
  | .dropRef node => some ((s.store (s.kernel.dropRef node)).goto c .idle)

/-- The cleaner executes its next statement. -/
def clean (s : Cpu) : Cpu :=
  match s.cleaning with
  | .scan => { s with cleaning := .visit none (s.kernel.threadHead .died) }
  | .visit _ none => { s.schedule with cleaning := .scan }
  | .visit prev (some node) =>
      { s with cleaning := if (s.kernel.mem node).ref = 0 then .reap prev node else .advance node }
  | .advance node => { s with cleaning := .visit (some node) (s.kernel.mem node).next }
  | .reap prev node =>
      let tid := (s.kernel.mem node).tid
      let k := s.kernel.unlink .died prev node
      let k := k.setTidWord (tid / tidBitNr)
        (k.tidBitmap (tid / tidBitNr) &&& ~~~(BitVec.twoPow 32 (tid % tidBitNr)))
      { s with kernel := k, irq := true, threads := s.threads.erase node,
               cleaning := .free prev node (s.kernel.mem node).next }
  | .free prev node next =>
      { s with kernel := { s.kernel with allocated := s.kernel.allocated.erase node }
               freed := insert node s.freed
               cleaning := .visit prev next }

/-! ## Steps -/

/-- What can happen next. -/
inductive Act where
  /-- The current thread executes its next statement. -/
  | go
  /-- The timer interrupt switches threads. -/
  | tick
  /-- The current thread, outside of thread.c, calls `thread_create`; `malloc` returns this. -/
  | create (newThread : Option Ptr) (name : Option (List Char)) (handler params : Nat)
  /-- It calls one of the functions that look a thread up. -/
  | call (goal : Goal) (tid : Nat)
  /-- It switches interrupts off or on, or yields. -/
  | cli
  | sti
  | yield
  deriving DecidableEq

/-- The current thread, if it is outside of thread.c. -/
def caller (s : Cpu) : Option Ptr :=
  s.kernel.currentThread.filter fun c => c ≠ s.cleaner ∧ s.pc c = .idle

/-- The CPU after a step; `none` when the step is not possible. -/
def step (s : Cpu) : Act → Option Cpu
  | .go =>
      match s.kernel.currentThread with
      | none => none
      | some c => if c = s.cleaner then some s.clean else s.go c
  | .tick => if s.irq then some s.schedule else none
  | .create newThread name handler params =>
      match s.caller, newThread with
      | none, _ => none
      | some _, none => some s
      | some c, some node =>
          if node ∈ s.kernel.allocated then none
          else some ((s.store { s.kernel with allocated := insert node s.kernel.allocated }).goto c
            (.lock (.create ⟨node, name, handler, params⟩)))
  | .call goal tid =>
      s.caller.map fun c => if tid = 0 ∧ goal.spares then s else s.goto c (.lock (.find goal tid))
  | .cli => s.caller.map fun _ => { s with irq := false }
  | .sti => s.caller.map fun _ => { s with irq := true }
  | .yield => s.caller.map fun _ => s.schedule

/-- What it means that a thread can call something. -/
structure Calls (s : Cpu) (c : Ptr) : Prop where
  current : s.kernel.currentThread = some c
  other : c ≠ s.cleaner
  idle : s.pc c = .idle

theorem caller_spec {s : Cpu} {c : Ptr} (caller : s.caller = some c) : s.Calls c := by
  obtain ⟨current, facts⟩ := Option.filter_eq_some_iff.1 caller
  obtain ⟨other, idle⟩ := of_decide_eq_true facts
  exact ⟨current, other, idle⟩

/-- A call of `thread_create`: without memory it returns at once. -/
theorem step_create {s t : Cpu} {newThread : Option Ptr} {name : Option (List Char)}
    {handler params : Nat} (next : s.step (.create newThread name handler params) = some t) :
    t = s ∨ ∃ c node, s.caller = some c ∧ newThread = some node ∧ node ∉ s.kernel.allocated ∧
      t = (s.store { s.kernel with allocated := insert node s.kernel.allocated }).goto c
        (.lock (.create ⟨node, name, handler, params⟩)) := by
  simp only [step] at next
  split at next
  · cases next
  · cases next
    exact .inl rfl
  · rename_i c node caller
    split at next
    · cases next
    · rename_i fresh
      cases next
      exact .inr ⟨c, node, caller, rfl, fresh, rfl⟩

/-- So many statements of the current thread. -/
def gos (count : Nat) : List Act := List.replicate count .go

/-- `start_thread` up to its loop: each thread of the list is created and woken. -/
def startThread (mem : Ptr → Thread) (cleaner : Ptr) (nodes : List Ptr) : Option Kernel :=
  nodes.foldlM (fun k node =>
    match k.threadCreate (some node) none 0 0 with
    | (some tid, k) => k.threadWake tid
    | (none, k) => some k) (System.boot mem cleaner).kernel

/-- All threads are outside of thread.c and nobody holds the lock; the cleaner
is about to look at DIED, which is empty. -/
structure Quiet (s : Cpu) : Prop where
  pc : ∀ p, s.pc p = .idle
  lock : s.lock = false
  holder : s.holder = none
  cleaning : s.cleaning = .scan
  threads : s.threads = s.kernel.allocated
  died : s.died = ∅
  freed : s.freed = ∅

/-- The kernel with all threads outside of thread.c. -/
def start (k : Kernel) (cleaner : Ptr) : Cpu where
  kernel := k
  lock := false
  irq := true
  pc _ := .idle
  cleaner := cleaner
  cleaning := .scan
  holder := none
  threads := k.allocated
  died := ∅
  freed := ∅

theorem start_quiet (k : Kernel) (cleaner : Ptr) : (start k cleaner).Quiet :=
  ⟨fun _ => rfl, rfl, rfl, rfl, rfl, rfl, rfl⟩

end Cpu

end TestOs.Threads
