/-
# Threads.System -- every thread operation, as steps of one system

The kernel's threads act one at a time.  A step is one operation of thread.c or
timer.c, run atomically by whichever thread is current, or a timer interrupt's
`thread_schedule`, or one pass of one of the two service loops (the cleaner of
`start_thread` and `sleeper_polling`).

Two operations block their caller in the middle.  `thread_wait` holds a pointer
to the node it polls, and `sleep` is inside `thread_suspend` until something
takes the caller off SUSPEND.  `System` keeps those two program counters:
`waiting p` is the node that thread `p` polls, and `sleeping p` says that `p`
went to SUSPEND through `sleep` and has not left it since.  Neither is a
variable of the source; `settle` derives how they change from where the
operation left each thread.
-/
import TestOs.Threads.Thread

namespace TestOs.Threads

set_option autoImplicit false

namespace Kernel

/-! ## The rest of thread.c and timer.c -/

/-- `--(node->ref)`. -/
def dropRef (s : Kernel) (node : Ptr) : Kernel :=
  s.modify node fun t => { t with ref := t.ref - 1 }

/-- `++(node->ref)`. -/
def takeRef (s : Kernel) (node : Ptr) : Kernel :=
  s.modify node fun t => { t with ref := t.ref + 1 }

/-- `thread_wait` up to its loop: the node that the caller will poll, if any. -/
def threadWait (s : Kernel) (tid : Nat) : Option (Option Ptr × Kernel) :=
  if tid = 0 then some (none, s)
  else do
    let found ← s.threadFindByTid tid .running
    let found ←
      match found with
      | some hit => some (some hit)
      | none => s.threadFindByTid tid .suspend
    match found with
    | some (_, node) => some (some node, s.takeRef node)
    | none => some (none, s)

/-- `KERNEL_TICK_HZ / 10 * KERNEL_THREAD_STEP`: `sleep` only spins up to here. -/
def sleepThreshold : Nat := 100 / 10 * 2

/-- `sleep`, with `now` the value of `tick_to_millisecond()`.  The flag says
whether the caller went to SUSPEND. -/
def sleep (s : Kernel) (current : Ptr) (millisecond now : BitVec 32) : Option (Bool × Kernel) :=
  if sleepThreshold < millisecond.toNat then
    let s := s.modify current fun t => { t with wakeMillisecond := now + millisecond }
    let s := s.takeRef current
    (s.threadSuspend (s.mem current).tid).map fun s => (true, s)
  else some (false, s)

/-- The inner loop of `sleeper_polling` from `node`, with the least wake time
met so far; `clock k` is the value of `tick_to_millisecond()` at visit `k`. -/
def pollFrom (clock : Nat → BitVec 32) :
    Nat → Nat → Option Ptr → BitVec 32 → Kernel → Option (BitVec 32 × Kernel)
  | 0, _, _, _, _ => none
  | _ + 1, _, none, minWake, s => some (minWake, s)
  | fuel + 1, visit, some node, minWake, s =>
      let following := (s.mem node).next
      let wake := (s.mem node).wakeMillisecond
      if wake ≤ clock visit then
        let s := s.dropRef node
        if (s.mem node).status ≠ .died then
          (s.threadWake (s.mem node).tid).bind
            (pollFrom clock fuel (visit + 1) following minWake)
        else pollFrom clock fuel (visit + 1) following minWake s
      else
        pollFrom clock fuel (visit + 1) following (if wake < minWake then wake else minWake) s

/-- One round of the poller's `for (;;)`: the pass over SUSPEND, then
`thread_yield` when every sleeper is due later. -/
def sleeperPolling (s : Kernel) (clock : Nat → BitVec 32) : Option Kernel :=
  (pollFrom clock walkFuel 0 (s.threadHead .suspend) (BitVec.allOnes 32) s).map
    fun (minWake, s) => if 10 < minWake.toNat then s.threadSchedule else s

end Kernel

/-! ## The system -/

/-- The kernel's variables, and where each thread is blocked. -/
structure System where
  kernel : Kernel
  waiting : Ptr → Option Ptr
  sleeping : Ptr → Bool

/-- One step of a run. -/
inductive Op where
  | create (newThread : Option Ptr) (name : Option (List Char)) (handler params : Nat)
  | wake (tid : Nat)
  | suspend (tid : Nat)
  | exit (tid : Nat)
  /-- The current thread enters `thread_wait`. -/
  | wait (tid : Nat)
  /-- The current thread takes one turn of the loop of `thread_wait`. -/
  | waitTurn
  | sleep (millisecond now : BitVec 32)
  /-- The timer interrupt. -/
  | schedule
  | poll (clock : Nat → BitVec 32)
  | clean

namespace System

/-- The threads that are still blocked once the kernel is in state `k`: a dead
thread polls nothing, and a thread off SUSPEND is not asleep. -/
def settle (k : Kernel) (waiting : Ptr → Option Ptr) (sleeping : Ptr → Bool) : System where
  kernel := k
  waiting p := if (k.mem p).status = .died then none else waiting p
  sleeping p := sleeping p && decide ((k.mem p).status = .suspend)

/-- An operation that blocks nobody. -/
def plain (s : System) (k : Option Kernel) : Option System :=
  k.map fun k => settle k s.waiting s.sleeping

/-- The caller's turn in `thread_wait`: `while (node->status != THREAD_DIED)
thread_yield();` and, once the node has died, `--(node->ref)`. -/
def waitTurn (s : System) : Option System :=
  match s.kernel.currentThread with
  | none => some s
  | some current =>
      match s.waiting current with
      | none => some s
      | some node =>
          if (s.kernel.mem node).status ≠ .died then s.plain (some s.kernel.threadSchedule)
          else
            some (settle (s.kernel.dropRef node) (Function.update s.waiting current none) s.sleeping)

/-- The system after an operation; `none` when the operation never returns. -/
def step (s : System) : Op → Option System
  | .create newThread name handler params =>
      s.plain (some (s.kernel.threadCreate newThread name handler params).2)
  | .wake tid => s.plain (s.kernel.threadWake tid)
  | .suspend tid => s.plain (s.kernel.threadSuspend tid)
  | .exit tid => s.plain (s.kernel.threadExit tid)
  | .wait tid =>
      match s.kernel.currentThread with
      | none => some s
      | some current =>
          (s.kernel.threadWait tid).map fun (node, k) =>
            settle k (Function.update s.waiting current node) s.sleeping
  | .waitTurn => s.waitTurn
  | .sleep millisecond now =>
      match s.kernel.currentThread with
      | none => some s
      | some current =>
          (s.kernel.sleep current millisecond now).map fun (slept, k) =>
            settle k s.waiting
              (if slept then Function.update s.sleeping current true else s.sleeping)
  | .schedule => s.plain (some s.kernel.threadSchedule)
  | .poll clock => s.plain (s.kernel.sleeperPolling clock)
  | .clean => s.plain s.kernel.clean

/-- The current thread is not in the loop of `thread_wait`, so it can call something. -/
def CurrentFree (s : System) : Prop :=
  ∀ current ∈ s.kernel.currentThread, s.waiting current = none

/-- What the program can do in a state: `malloc` returns memory that is not in
use, a thread blocked in `thread_wait` only takes turns of its loop, and thread 0
runs the cleaner loop and nothing else, so it does not call `sleep`. -/
def Admissible (s : System) : Op → Prop
  | .create newThread _ _ _ => s.CurrentFree ∧ ∀ p ∈ newThread, p ∉ s.kernel.allocated
  | .schedule => True
  | .waitTurn => True
  | .sleep _ _ =>
      s.CurrentFree ∧ ∀ p ∈ s.kernel.currentThread, (s.kernel.mem p).tid ≠ 0
  | _ => s.CurrentFree

instance (s : System) : Decidable s.CurrentFree :=
  inferInstanceAs (Decidable (∀ current ∈ s.kernel.currentThread, s.waiting current = none))

instance (s : System) (op : Op) : Decidable (s.Admissible op) :=
  match op with
  | .create newThread _ _ _ =>
      inferInstanceAs (Decidable (s.CurrentFree ∧ ∀ p ∈ newThread, p ∉ s.kernel.allocated))
  | .schedule => inferInstanceAs (Decidable True)
  | .waitTurn => inferInstanceAs (Decidable True)
  | .sleep _ _ =>
      inferInstanceAs (Decidable
        (s.CurrentFree ∧ ∀ p ∈ s.kernel.currentThread, (s.kernel.mem p).tid ≠ 0))
  | .wake _ => inferInstanceAs (Decidable s.CurrentFree)
  | .suspend _ => inferInstanceAs (Decidable s.CurrentFree)
  | .exit _ => inferInstanceAs (Decidable s.CurrentFree)
  | .wait _ => inferInstanceAs (Decidable s.CurrentFree)
  | .poll _ => inferInstanceAs (Decidable s.CurrentFree)
  | .clean => inferInstanceAs (Decidable s.CurrentFree)

/-- Thread 0 alone on RUNNING, as `start_thread` leaves it; the rest of memory
holds anything. -/
structure Started (s : System) (cleaner : Ptr) : Prop where
  tid : (s.kernel.mem cleaner).tid = 0
  status : (s.kernel.mem cleaner).status = .running
  ref : (s.kernel.mem cleaner).ref = 0
  next : (s.kernel.mem cleaner).next = none
  heads : ∀ st, s.kernel.threadHead st = if st = .running then some cleaner else none
  current : s.kernel.currentThread = some cleaner
  fixNext : s.kernel.fixNextThread = none
  bitmap : ∀ tid, s.kernel.tidBit tid = decide (tid = 0)
  allocated : s.kernel.allocated = {cleaner}
  waiting : ∀ p, s.waiting p = none
  sleeping : ∀ p, s.sleeping p = false

/-- The state `start_thread` sets up around the node of thread 0, in a memory
that holds anything else. -/
def boot (mem : Ptr → Thread) (cleaner : Ptr) : System where
  kernel :=
    { mem := Function.update mem cleaner
        { tid := 0, status := .running, wakeMillisecond := 0, ref := 0,
          name := "thread cleaner".toList, handler := 0, params := 0,
          esp := cleaner + kernelThreadStackSize - 12, next := none }
      threadHead := fun st => if st = .running then some cleaner else none
      currentThread := some cleaner
      fixNextThread := none
      tidBitmap := fun word => if word = 0 then 1 else 0
      allocated := {cleaner} }
  waiting _ := none
  sleeping _ := false

/-- A run: the steps taken, latest last. -/
inductive Run (s : System) : List (System × Op × System) → System → Prop where
  | start : Run s [] s
  | step {steps t op u} : Run s steps t → t.Admissible op → t.step op = some u →
      Run s (steps ++ [(t, op, u)]) u

namespace Run

variable {s u : System} {steps : List (System × Op × System)}

/-- What holds at the start and is kept by every step taken holds at the end of a run. -/
theorem invariant (holds : System → Prop) (first : holds s)
    (keeps : ∀ t op v, (t, op, v) ∈ steps → holds t → t.Admissible op → t.step op = some v → holds v)
    (run : Run s steps u) : holds u := by
  induction run with
  | start => exact first
  | step _ admissible next ih =>
      exact keeps _ _ _ (by simp)
        (ih fun t op v taken => keeps t op v (List.mem_append_left _ taken)) admissible next

/-- A step of a run was taken at the end of a shorter run. -/
theorem before (run : Run s steps u) {t v : System} {op : Op} (taken : (t, op, v) ∈ steps) :
    ∃ earlier, Run s earlier t ∧ t.Admissible op ∧ t.step op = some v := by
  induction run with
  | start => cases taken
  | step run admissible next ih =>
      rcases List.mem_append.1 taken with early | last
      · exact ih early
      · cases List.mem_singleton.1 last
        exact ⟨_, run, admissible, next⟩

/-- A part of a run is a run. -/
theorem front {earlier later : List (System × Op × System)} {t v : System} {op : Op}
    (run : s.Run steps u) (split : steps = earlier ++ (t, op, v) :: later) :
    s.Run earlier t ∧ t.Admissible op ∧ t.step op = some v := by
  induction run generalizing later with
  | start => simp at split
  | @step steps t' op' v' run admissible next ih =>
      rcases List.eq_nil_or_concat later with rfl | ⟨later, last, rfl⟩
      · obtain ⟨rfl, same⟩ := List.append_inj' split rfl
        cases same
        exact ⟨run, admissible, next⟩
      · rw [List.concat_eq_append, ← List.cons_append, ← List.append_assoc] at split
        exact ih (List.append_inj' split rfl).1

/-- The steps say where a run ends. -/
theorem unique {t : System} (run : s.Run steps u) (run' : s.Run steps t) : u = t := by
  cases run with
  | start =>
      generalize none_ : ([] : List (System × Op × System)) = steps at run'
      cases run' with
      | start => rfl
      | step => simp at none_
  | @step steps t' op u run admissible next =>
      generalize same : steps ++ [(t', op, u)] = steps' at run'
      cases run' with
      | start => simp at same
      | step =>
          obtain ⟨-, last⟩ := List.append_inj' same rfl
          cases last
          rfl

end Run

/-- Run the operations, as long as each is admissible and returns. -/
def execute (s : System) (ops : List Op) : Option (List (System × Op × System) × System) :=
  ops.foldl
    (fun state op => state.bind fun (steps, t) =>
      if t.Admissible op then (t.step op).map fun u => (steps ++ [(t, op, u)], u) else none)
    (some ([], s))

theorem execute_run {s : System} {ops : List Op} {steps : List (System × Op × System)} {u : System}
    (executed : s.execute ops = some (steps, u)) : Run s steps u := by
  induction ops using List.reverseRecOn generalizing steps u with
  | nil =>
      cases executed
      exact .start
  | append_singleton ops op ih =>
      rw [execute, List.foldl_append] at executed
      obtain ⟨⟨earlier, t⟩, before, last⟩ := Option.bind_eq_some_iff.1 executed
      simp only at last
      split at last
      · rename_i admissible
        obtain ⟨v, next, same⟩ := Option.map_eq_some_iff.1 last
        cases same
        exact (ih before).step admissible next
      · cases last

end System

end TestOs.Threads
