/-
# Threads.Thread -- the thread lists of kernel/thread.c

Threads live in a memory of nodes and hang, by their `next` field, off one of
the four heads of `thread_head`.  This module is the source's data and the
operations that move a node from one list to another, each run atomically
(interrupts off, `thread_lock` held): `threadCreate`, `threadWake`,
`threadSuspend`, `threadExit`, the scheduler `threadSchedule`, and one pass of
the cleaner loop of `start_thread`.

A walk along a list is given `KERNEL_THREAD_MAX + 1` steps and answers `none`
when it has not met NULL by then, which is how the model says that the C loop
does not end.  `Threads.Queues` proves that this never happens.

Memory is total: a freed node keeps its last contents, and `allocated` records
which nodes `malloc` has handed out and `free` has not taken back.
-/
import TestOs.Library.LinkedList

namespace TestOs.Threads

set_option autoImplicit false

/-- The address of a thread's node, which is the bottom of its stack page. -/
abbrev Ptr := Nat

/-- `enum THREAD_STATUS`, which also indexes `thread_head`. -/
inductive ThreadStatus where
  | running
  | ready
  | suspend
  | died
  deriving DecidableEq, Repr

def kernelThreadMax : Nat := 256
def kernelThreadNameLen : Nat := 16
def kernelThreadStackSize : Nat := 4096
/-- `TID_BIT_NR`: tids to a word of `tid_bitmap`. -/
def tidBitNr : Nat := 32

/-- `struct thread`, without the console cache and the saved registers other
than the stack pointer. -/
structure Thread where
  tid : Nat
  status : ThreadStatus
  wakeMillisecond : BitVec 32
  ref : BitVec 32
  name : List Char
  handler : Nat
  params : Nat
  esp : Nat
  next : Option Ptr
  deriving DecidableEq, Repr

/-- A node after `memset(new_thread, 0, ..)`; status 0 is `THREAD_RUNNING`. -/
def Thread.zero : Thread :=
  { tid := 0, status := .running, wakeMillisecond := 0, ref := 0, name := [], handler := 0,
    params := 0, esp := 0, next := none }

/-- The file-scope variables of thread.c and the memory they point into. -/
structure Kernel where
  mem : Ptr → Thread
  threadHead : ThreadStatus → Option Ptr
  currentThread : Option Ptr
  fixNextThread : Option Ptr
  tidBitmap : Nat → BitVec 32
  allocated : Finset Ptr

namespace Kernel

def next (s : Kernel) (p : Ptr) : Option Ptr := (s.mem p).next

/-- A store to the node at `p`. -/
def modify (s : Kernel) (p : Ptr) (f : Thread → Thread) : Kernel :=
  { s with mem := Function.update s.mem p (f (s.mem p)) }

def setHead (s : Kernel) (st : ThreadStatus) (link : Option Ptr) : Kernel :=
  { s with threadHead := Function.update s.threadHead st link }

/-- The bit of `tid_bitmap` that stands for `tid`. -/
def tidBit (s : Kernel) (tid : Nat) : Bool :=
  decide (tid < kernelThreadMax) && (s.tidBitmap (tid / tidBitNr)).getLsbD (tid % tidBitNr)

def setTidWord (s : Kernel) (word : Nat) (value : BitVec 32) : Kernel :=
  { s with tidBitmap := Function.update s.tidBitmap word value }

/-- How many nodes a walk visits before the model gives up on it. -/
def walkFuel : Nat := kernelThreadMax + 1

/-- The loop of `thread_find_by_tid`: `some none` is the result -1. -/
def findFrom (s : Kernel) (tid : Nat) :
    Nat → Option Ptr → Option Ptr → Option (Option (Option Ptr × Ptr))
  | 0, _, _ => none
  | _ + 1, _, none => some none
  | fuel + 1, prev, some node =>
      if (s.mem node).tid = tid then some (some (prev, node))
      else s.findFrom tid fuel (some node) (s.mem node).next

/-- `thread_find_by_tid`: the node with this tid on the list, and its predecessor. -/
def threadFindByTid (s : Kernel) (tid : Nat) (st : ThreadStatus) :
    Option (Option (Option Ptr × Ptr)) :=
  s.findFrom tid walkFuel none (s.threadHead st)

/-- `prev->next = node->next`, or the head's store when there is no predecessor. -/
def unlink (s : Kernel) (st : ThreadStatus) (prev : Option Ptr) (node : Ptr) : Kernel :=
  match prev with
  | some p => s.modify p fun t => { t with next := (s.mem node).next }
  | none => s.setHead st (s.mem node).next

/-- The last three stores of a move: status, `next`, and the new head. -/
def relink (s : Kernel) (st : ThreadStatus) (node : Ptr) : Kernel :=
  (s.modify node fun t => { t with status := st, next := s.threadHead st }).setHead st (some node)

/-- `thread_schedule` (and `thread_yield`). -/
def threadSchedule (s : Kernel) : Kernel :=
  match s.currentThread with
  | none => s
  | some current =>
      match s.fixNextThread with
      | some fixed => { s with currentThread := some fixed, fixNextThread := none }
      | none =>
          match (s.mem current).next with
          | some following => { s with currentThread := some following }
          | none => { s with currentThread := s.threadHead .running }

/-! ## Creation -/

/-- The nested loops over `tid_bitmap`: the first clear bit. -/
def findFreeTid (s : Kernel) : Option (Nat × Nat) :=
  (List.range (kernelThreadMax / tidBitNr)).findSome? fun mapIdx =>
    (List.range tidBitNr).findSome? fun bitIdx =>
      if (s.tidBitmap mapIdx).getLsbD bitIdx = false then some (mapIdx, bitIdx) else none

/-- `strncpy` into the name field, cut to leave the terminator. -/
def threadName (name : Option (List Char)) : List Char :=
  (name.getD "unnamed".toList).take (kernelThreadNameLen - 1)

/-- `thread_create`; `newThread` is what `malloc` returned.  The tid is `none`
when the status is -1. -/
def threadCreate (s : Kernel) (newThread : Option Ptr) (name : Option (List Char))
    (handler params : Nat) : Option Nat × Kernel :=
  match newThread with
  | none => (none, s)
  | some p =>
      let s := { s with allocated := insert p s.allocated }
      let s := s.modify p fun _ => Thread.zero
      match s.findFreeTid with
      | some (mapIdx, bitIdx) =>
          let s := s.setTidWord mapIdx (s.tidBitmap mapIdx ||| BitVec.twoPow 32 bitIdx)
          let tid := mapIdx * tidBitNr + bitIdx
          let s := s.modify p fun t =>
            { t with tid := tid, status := .ready, wakeMillisecond := 0, ref := 0,
                     handler := handler, params := params,
                     esp := p + kernelThreadStackSize - 12, name := threadName name }
          let s :=
            if s.threadHead .ready ≠ none then
              s.modify p fun t => { t with next := s.threadHead .ready }
            else s
          (some tid, s.setHead .ready (some p))
      | none => (none, { s with allocated := s.allocated.erase p })

/-! ## Moves between the lists -/

/-- `thread_wake`: from READY, else from SUSPEND, to the front of RUNNING. -/
def threadWake (s : Kernel) (tid : Nat) : Option Kernel := do
  match ← s.threadFindByTid tid .ready with
  | some (prev, node) => some ((s.unlink .ready prev node).relink .running node)
  | none =>
      match ← s.threadFindByTid tid .suspend with
      | some (prev, node) => some ((s.unlink .suspend prev node).relink .running node)
      | none => some s

/-- The tid `current->tid` that `thread_suspend` and `thread_exit` compare with. -/
def currentTid (s : Kernel) : Option Nat := s.currentThread.map fun p => (s.mem p).tid

/-- The successor that a thread removing itself leaves for the scheduler:
`fix_next_thread = node->next`, or the head of RUNNING when that is NULL. -/
def fixNext (s : Kernel) (node : Ptr) : Kernel :=
  { s with fixNextThread := (s.mem node).next.or (s.threadHead .running) }

/-- `thread_suspend`: from RUNNING to the front of SUSPEND, switching away when
the thread suspends itself. -/
def threadSuspend (s : Kernel) (tid : Nat) : Option Kernel :=
  if tid = 0 then some s
  else do
    match ← s.threadFindByTid tid .running with
    | some (prev, node) =>
        let own := s.currentTid = some tid
        let t := s.unlink .running prev node
        let t := if own then t.fixNext node else t
        let t := t.relink .suspend node
        some (if own then t.threadSchedule else t)
    | none => some s

/-- `thread_exit`: from RUNNING, else from SUSPEND, to the front of DIED.  A
node that looks like a sleeper gives back the reference that `sleep` took. -/
def threadExit (s : Kernel) (tid : Nat) : Option Kernel :=
  if tid = 0 then some s
  else do
    let found ← s.threadFindByTid tid .running
    let (st, found) ←
      match found with
      | some hit => some (ThreadStatus.running, some hit)
      | none => (s.threadFindByTid tid .suspend).map fun hit => (ThreadStatus.suspend, hit)
    match found with
    | some (prev, node) =>
        let own := s.currentTid = some tid
        let t := s.unlink st prev node
        let t := if own then t.fixNext node else t
        let t :=
          if (t.mem node).status = .suspend ∧ (t.mem node).wakeMillisecond ≠ 0 ∧
              0 < (t.mem node).ref.toNat then
            t.modify node fun n => { n with ref := n.ref - 1 }
          else t
        let t := t.relink .died node
        some (if own then t.threadSchedule else t)
    | none => some s

/-! ## The cleaner -/

/-- `tid_bitmap[..] &= ~(1 << ..)` and `free(node)`. -/
def release (s : Kernel) (node : Ptr) : Kernel :=
  let tid := (s.mem node).tid
  let s := s.setTidWord (tid / tidBitNr)
    (s.tidBitmap (tid / tidBitNr) &&& ~~~(BitVec.twoPow 32 (tid % tidBitNr)))
  { s with allocated := s.allocated.erase node }

/-- The inner loop of `thread_cleaner_entry`, from `node` with predecessor `prev`. -/
def cleanFrom : Nat → Option Ptr → Option Ptr → Kernel → Option Kernel
  | 0, _, _, _ => none
  | _ + 1, _, none, s => some s
  | fuel + 1, prev, some node, s =>
      if (s.mem node).ref = 0 then
        cleanFrom fuel prev (s.mem node).next ((s.unlink .died prev node).release node)
      else cleanFrom fuel (some node) (s.mem node).next s

/-- One round of the cleaner's `for (;;)`: the pass over DIED, then `thread_yield`. -/
def clean (s : Kernel) : Option Kernel :=
  (cleanFrom walkFuel none (s.threadHead .died) s).map threadSchedule

end Kernel

end TestOs.Threads
