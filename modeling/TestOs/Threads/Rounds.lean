/-
# Threads.Rounds -- scheduling rounds are fair

The current thread stands at one place of RUNNING.  `thread_wake` puts threads in
front of it, `thread_suspend` and `thread_exit` take threads out anywhere, and a
thread that takes itself out hands its place to the one behind it.  `Placed` says
that RUNNING and the current thread are a carousel of `Library.RoundRobin`, and
`step_placed` that the operations are steps of it; so a thread that stays on
RUNNING is made current once in a round (`rounds_fair`).
-/
import TestOs.Threads.Runs
import TestOs.Library.RoundRobin

namespace TestOs.Threads

open TestOs.Library Kernel

set_option autoImplicit false

/-- The operations that rounds are about. -/
def Op.Scheduling : Op → Prop
  | .schedule => True
  | .wake _ => True
  | .suspend _ => True
  | .exit _ => True
  | _ => False

instance (op : Op) : Decidable op.Scheduling :=
  match op with
  | .schedule => inferInstanceAs (Decidable True)
  | .wake _ => inferInstanceAs (Decidable True)
  | .suspend _ => inferInstanceAs (Decidable True)
  | .exit _ => inferInstanceAs (Decidable True)
  | .create _ _ _ _ => inferInstanceAs (Decidable False)
  | .wait _ => inferInstanceAs (Decidable False)
  | .waitTurn => inferInstanceAs (Decidable False)
  | .sleep _ _ => inferInstanceAs (Decidable False)
  | .poll _ => inferInstanceAs (Decidable False)
  | .clean => inferInstanceAs (Decidable False)

namespace System

/-- The operation passes control on: always in `thread_schedule`, and in
`thread_suspend` and `thread_exit` when the current thread takes itself out. -/
def Dispatches (s : System) : Op → Prop
  | .schedule => True
  | .suspend tid => tid ≠ 0 ∧ s.kernel.currentTid = some tid
  | .exit tid => tid ≠ 0 ∧ s.kernel.currentTid = some tid
  | _ => False

/-- The current thread is the last on its list. -/
def AtEnd (s : System) : Prop := ∀ p ∈ s.kernel.currentThread, (s.kernel.mem p).next = none

instance (s : System) (op : Op) : Decidable (s.Dispatches op) :=
  match op with
  | .schedule => inferInstanceAs (Decidable True)
  | .suspend tid => inferInstanceAs (Decidable (tid ≠ 0 ∧ s.kernel.currentTid = some tid))
  | .exit tid => inferInstanceAs (Decidable (tid ≠ 0 ∧ s.kernel.currentTid = some tid))
  | .create _ _ _ _ => inferInstanceAs (Decidable False)
  | .wake _ => inferInstanceAs (Decidable False)
  | .wait _ => inferInstanceAs (Decidable False)
  | .waitTurn => inferInstanceAs (Decidable False)
  | .sleep _ _ => inferInstanceAs (Decidable False)
  | .poll _ => inferInstanceAs (Decidable False)
  | .clean => inferInstanceAs (Decidable False)

instance (s : System) : Decidable s.AtEnd :=
  inferInstanceAs (Decidable (∀ p ∈ s.kernel.currentThread, (s.kernel.mem p).next = none))

/-- The step takes `thread_head[THREAD_RUNNING]` because the list has ended. -/
def TakesHead (step : System × Op × System) : Prop := step.1.Dispatches step.2.1 ∧ step.1.AtEnd

instance (step : System × Op × System) : Decidable (TakesHead step) :=
  inferInstanceAs (Decidable (_ ∧ _))

/-- How often `p` is made current in these steps. -/
def dispatchesTo (p : Ptr) (steps : List (System × Op × System)) : Nat :=
  steps.countP fun step =>
    decide (step.1.Dispatches step.2.1 ∧ step.2.2.kernel.currentThread = some p)

/-! ## RUNNING as a carousel -/

/-- How the operation passes the turn on. -/
def turn (s : System) (op : Op) : Turn :=
  if s.Dispatches op then if s.AtEnd then .front else .next else .stay

/-- RUNNING and the place of the current thread. -/
structure Placed (s : System) (r : Carousel Ptr) : Prop where
  queues : ∃ lists, Queues s.kernel lists ∧ lists .running = r.members
  current : s.kernel.currentThread = some r.current

section Place

variable {s t : System} {r : Carousel Ptr} {lists : ThreadStatus → List Ptr}

theorem exists_placed (queues : Queues s.kernel lists) : ∃ r, s.Placed r := by
  obtain ⟨p, member, isCurrent⟩ := queues.current
  obtain ⟨before, after, split⟩ := List.append_of_mem member
  exact ⟨⟨before, p, after⟩, ⟨lists, queues, split⟩, isCurrent⟩

namespace Placed

theorem nodup (placed : s.Placed r) : r.members.Nodup := by
  obtain ⟨lists, queues, same⟩ := placed.queues
  exact same ▸ (queues.chain .running).nodup

theorem onList_iff (placed : s.Placed r) (p : Ptr) :
    OnList s.kernel .running p ↔ p ∈ r.members := by
  obtain ⟨lists, queues, same⟩ := placed.queues
  rw [queues.onList_iff, same]

theorem next_eq (placed : s.Placed r) : (s.kernel.mem r.current).next = r.after.head? := by
  obtain ⟨lists, queues, same⟩ := placed.queues
  have chain := queues.chain .running
  rw [same, Carousel.members] at chain
  exact chain.suffix.2.head_eq

theorem atEnd_iff (placed : s.Placed r) : s.AtEnd ↔ r.after = [] := by
  unfold AtEnd
  rw [placed.current]
  simp [placed.next_eq]

/-- The first of RUNNING. -/
theorem head_eq (placed : s.Placed r) : s.kernel.threadHead .running = r.members.head? := by
  obtain ⟨lists, queues, same⟩ := placed.queues
  rw [← same]
  exact (queues.chain .running).head_eq

theorem turn_eq (placed : s.Placed r) {op : Op} (dispatches : s.Dispatches op) :
    s.turn op = if r.after = [] then .front else .next := by
  rw [turn, if_pos dispatches]
  by_cases last : r.after = []
  · rw [if_pos (placed.atEnd_iff.2 last), if_pos last]
  · rw [if_neg (mt placed.atEnd_iff.1 last), if_neg last]

/-- `thread_schedule` goes to the next thread, or to the front. -/
theorem schedule (placed : s.Placed r) :
    ∃ r', (settle s.kernel.threadSchedule s.waiting s.sleeping).Placed r' ∧
      Carousel.Step r (s.turn .schedule) r' := by
  obtain ⟨lists, queues, same⟩ := placed.queues
  have turn_eq := placed.turn_eq (show s.Dispatches .schedule from trivial)
  have next := placed.next_eq
  obtain ⟨before, current, after⟩ := r
  cases after with
  | nil =>
      obtain ⟨a, rest, first⟩ := List.exists_cons_of_ne_nil
        (List.append_ne_nil_of_right_ne_nil before (List.cons_ne_nil current []))
      refine ⟨⟨[], a, rest⟩, ⟨⟨lists, queues.schedule, same.trans first⟩, ?_⟩, ?_⟩
      · have head := placed.head_eq
        simp only [Carousel.members, first, List.head?_cons] at head
        simp only [List.head?_nil] at next
        simp only [settle, threadSchedule, placed.current, queues.fixNext, next, head]
      · rw [turn_eq, if_pos rfl]
        exact .front first
  | cons a after =>
      refine ⟨⟨before ++ [current], a, after⟩, ⟨⟨lists, queues.schedule, ?_⟩, ?_⟩, ?_⟩
      · simpa [Carousel.members] using same
      · simp only [List.head?_cons] at next
        simp only [settle, threadSchedule, placed.current, queues.fixNext, next]
      · rw [turn_eq, if_neg (List.cons_ne_nil _ _)]
        exact .next before current a after

/-- A thread is taken out of RUNNING. -/
theorem remove (placed : s.Placed r) {op : Op} {k : Kernel} {lists lists' : ThreadStatus → List Ptr}
    {front rest : List Ptr} {node : Ptr} (queues : Queues s.kernel lists)
    (split : lists .running = front ++ node :: rest) (queues' : Queues k lists')
    (left : lists' .running = front ++ rest)
    (current : k.currentThread = if s.kernel.currentThread = some node then (rest ++ front).head?
      else s.kernel.currentThread)
    (dispatches : s.Dispatches op ↔ s.kernel.currentThread = some node) :
    ∃ r', (settle k s.waiting s.sleeping).Placed r' ∧ Carousel.Step r (s.turn op) r' := by
  have same : r.members = front ++ node :: rest := by
    obtain ⟨lists₀, queues₀, same⟩ := placed.queues
    rw [← same, ← split]
    exact (queues₀.chain .running).unique (queues.chain .running)
  have distinct := placed.nodup
  have isCurrent := placed.current
  by_cases own : s.kernel.currentThread = some node
  · have turn_eq := placed.turn_eq (dispatches.2 own)
    obtain ⟨before, c, after⟩ := r
    obtain rfl : c = node := Option.some.inj (isCurrent.symm.trans own)
    obtain ⟨rfl, rfl⟩ : before = front ∧ after = rest := by
      rw [Carousel.members, List.nodup_middle, List.nodup_cons, List.mem_append, not_or] at distinct
      have := (List.append_cons_inj_of_notMem distinct.1.1 distinct.1.2).1 same
      exact ⟨this.1, this.2.2⟩
    rw [if_pos own] at current
    cases after with
    | cons a after =>
        refine ⟨⟨before, a, after⟩, ⟨⟨lists', queues', left⟩, current⟩, ?_⟩
        rw [turn_eq, if_neg (List.cons_ne_nil _ _)]
        exact .leaveNext before c a after
    | nil =>
        cases before with
        | nil =>
            obtain ⟨p, -, isSome⟩ := queues'.current
            rw [current] at isSome
            cases isSome
        | cons a before =>
            refine ⟨⟨[], a, before⟩, ⟨⟨lists', queues', by simpa [Carousel.members] using left⟩,
              current⟩, ?_⟩
            rw [turn_eq, if_pos rfl]
            exact .leaveFront a before c
  · have turn_eq : s.turn op = .stay := if_neg (mt dispatches.1 own)
    rw [turn_eq]
    rw [if_neg own, isCurrent] at current
    obtain ⟨before, c, after⟩ := r
    have apart : c ≠ node := fun eq => own (isCurrent.trans (congrArg some eq))
    rcases List.append_eq_append_iff.1 same with ⟨middle, rfl, behind⟩ | ⟨middle, rfl, behind⟩
    · -- the node stands behind the place
      cases middle with
      | nil => exact absurd (List.cons.inj behind).1 apart
      | cons d middle =>
          obtain ⟨rfl, rfl⟩ := List.cons.inj behind
          refine ⟨⟨before, c, middle ++ rest⟩, ⟨⟨lists', queues', ?_⟩, current⟩, ?_⟩
          · simpa [Carousel.members] using left
          · exact .leaveAfter before c node middle rest
    · cases middle with
      | nil => exact absurd (List.cons.inj behind).1.symm apart
      | cons d middle =>
          obtain ⟨rfl, rfl⟩ := List.cons.inj behind
          refine ⟨⟨front ++ middle, c, after⟩, ⟨⟨lists', queues', ?_⟩, current⟩, ?_⟩
          · simpa [Carousel.members] using left
          · exact .leaveBefore front middle node c after

/-- What does not concern RUNNING. -/
theorem keep (placed : s.Placed r) {op : Op} {k : Kernel} {lists lists' : ThreadStatus → List Ptr}
    (queues : Queues s.kernel lists) (queues' : Queues k lists')
    (same : lists' .running = lists .running) (current : k.currentThread = s.kernel.currentThread)
    (stays : ¬ s.Dispatches op) :
    ∃ r', (settle k s.waiting s.sleeping).Placed r' ∧ Carousel.Step r (s.turn op) r' := by
  have turn_eq : s.turn op = .stay := if_neg stays
  refine ⟨r, ⟨⟨lists', queues', ?_⟩, current.trans placed.current⟩, turn_eq ▸ .keep r⟩
  obtain ⟨lists₀, queues₀, members⟩ := placed.queues
  rw [same, ← members]
  exact (queues.chain .running).unique (queues₀.chain .running)

end Placed

/-- The operation passes control on when its thread is the current one. -/
theorem currentTid_iff (queues : Queues s.kernel lists) {node : Ptr}
    (allocated : node ∈ s.kernel.allocated) (other : (s.kernel.mem node).tid ≠ 0) :
    ((s.kernel.mem node).tid ≠ 0 ∧ s.kernel.currentTid = some (s.kernel.mem node).tid) ↔
      s.kernel.currentThread = some node := by
  rw [queues.current_of_tid allocated]
  exact and_iff_right other

/-- Every operation is a step of the carousel. -/
theorem step_placed (placed : s.Placed r) {op : Op} (scheduling : op.Scheduling)
    (next : s.step op = some t) : ∃ r', t.Placed r' ∧ Carousel.Step r (s.turn op) r' := by
  obtain ⟨lists, queues, members⟩ := placed.queues
  cases op with
  | schedule =>
      cases next
      exact placed.schedule
  | wake tid =>
      obtain ⟨k, result, -, effect⟩ := queues.threadWake tid
      rw [step, result] at next
      cases next
      rcases effect with ⟨rfl, -⟩ | ⟨node, allocated, rfl, status, -⟩
      · exact placed.keep queues queues rfl rfl id
      · obtain ⟨st, from_, here⟩ : ∃ st, (st = .ready ∨ st = .suspend) ∧ node ∈ lists st := by
          rcases status with ready | suspended
          · exact ⟨.ready, .inl rfl, (queues.mem_iff _ _).2 ⟨allocated, ready⟩⟩
          · exact ⟨.suspend, .inr rfl, (queues.mem_iff _ _).2 ⟨allocated, suspended⟩⟩
        obtain ⟨front, rest, split⟩ := List.append_of_mem here
        rw [queues.threadWake_node split from_] at result
        cases result
        have joined : moved lists st .running front node rest .running = node :: r.members := by
          have apart : ThreadStatus.running ≠ st := by
            rcases from_ with rfl | rfl <;> decide
          simp [moved, apart, members]
        refine ⟨⟨node :: r.before, r.current, r.after⟩,
          ⟨⟨_, queues.wake_moved split from_, joined⟩, ?_⟩, ?_⟩
        · simpa [settle] using placed.current
        · exact .join node r.before r.current r.after
  | suspend tid =>
      obtain ⟨k, result, -, effect⟩ := queues.threadSuspend tid
      rw [step, result] at next
      cases next
      rcases effect with ⟨rfl, nobody⟩ | ⟨node, allocated, rfl, other, status, -⟩
      · refine placed.keep queues queues rfl rfl ?_
        rintro ⟨nonzero, own⟩
        obtain ⟨p, onRunning, isCurrent⟩ := queues.current
        rw [Kernel.currentTid, isCurrent] at own
        exact nobody.elim nonzero fun others => others p onRunning (Option.some.inj own)
      · obtain ⟨front, rest, split⟩ :=
          List.append_of_mem ((queues.mem_iff .running node).2 ⟨allocated, status⟩)
        obtain ⟨k', result', queues', current, -⟩ := queues.threadSuspend_node split other
        rw [result'] at result
        cases result
        exact placed.remove queues split queues' (by simp [moved]) current
          (currentTid_iff queues allocated other)
  | exit tid =>
      obtain ⟨k, result, -, effect⟩ := queues.threadExit tid
      rw [step, result] at next
      cases next
      rcases effect with rfl | ⟨node, allocated, rfl, other, status, -⟩
      · refine placed.keep queues queues rfl rfl ?_
        rintro ⟨nonzero, own⟩
        obtain ⟨p, onRunning, isCurrent⟩ := queues.current
        obtain rfl : (s.kernel.mem p).tid = tid := by
          rw [Kernel.currentTid, isCurrent] at own
          exact Option.some.inj own
        obtain ⟨front, rest, split⟩ := List.append_of_mem onRunning
        obtain ⟨k', result', -, -, shifted, -⟩ := queues.threadExit_node split nonzero (.inl rfl)
        cases result'.symm.trans result
        have died := shifted.status p
        rw [if_pos rfl, queues.status _ _ onRunning] at died
        cases died
      · rcases status with running | suspended
        · obtain ⟨front, rest, split⟩ :=
            List.append_of_mem ((queues.mem_iff .running node).2 ⟨allocated, running⟩)
          obtain ⟨k', result', queues', current, -⟩ := queues.threadExit_node split other (.inl rfl)
          rw [result'] at result
          cases result
          exact placed.remove queues split queues' (by simp [moved]) current
            (currentTid_iff queues allocated other)
        · obtain ⟨front, rest, split⟩ :=
            List.append_of_mem ((queues.mem_iff .suspend node).2 ⟨allocated, suspended⟩)
          obtain ⟨k', result', queues', current, -⟩ := queues.threadExit_node split other (.inr rfl)
          rw [result'] at result
          cases result
          have apart : ¬ s.kernel.currentThread = some node := by
            obtain ⟨p, onRunning, isCurrent⟩ := queues.current
            rw [isCurrent]
            rintro same
            rw [Option.some.inj same] at onRunning
            exact absurd ((queues.status _ _ onRunning).symm.trans suspended) (by decide)
          refine placed.keep queues queues' (by simp [moved]) (current.trans (if_neg apart)) ?_
          exact mt (currentTid_iff queues allocated other).1 apart
  | create newThread name handler params => exact scheduling.elim
  | wait tid => exact scheduling.elim
  | waitTurn => exact scheduling.elim
  | sleep millisecond now => exact scheduling.elim
  | poll clock => exact scheduling.elim
  | clean => exact scheduling.elim

end Place

/-! ## Rounds -/

section Rounds

variable {s t u : System} {cleaner : Ptr} {steps : List (System × Op × System)}

/-- The step and the carousel behind it. -/
def Matches (step : System × Op × System) (x : Turn × Carousel Ptr) : Prop :=
  x.1 = step.1.turn step.2.1 ∧ step.2.2.Placed x.2

theorem matches_of_mem {path : List (Turn × Carousel Ptr)}
    (matched : List.Forall₂ Matches steps path) {x : Turn × Carousel Ptr} (member : x ∈ path) :
    ∃ step ∈ steps, Matches step x := by
  induction matched with
  | nil => cases member
  | @cons step y steps path here _ ih =>
      rcases List.mem_cons.1 member with rfl | behind
      · exact ⟨step, by simp, here⟩
      · obtain ⟨step', there, matched⟩ := ih behind
        exact ⟨step', by simp [there], matched⟩

/-- A part of a run of scheduling operations is a path of the carousel. -/
theorem run_path {before round : List (System × Op × System)} (run : s.Run before t)
    {r : Carousel Ptr} (placed : t.Placed r) (scheduling : ∀ step ∈ round, step.2.1.Scheduling)
    (run' : s.Run (before ++ round) u) :
    ∃ path r', Carousel.Path r path r' ∧ u.Placed r' ∧ List.Forall₂ Matches round path := by
  induction round using List.reverseRecOn generalizing u with
  | nil =>
      rw [List.append_nil] at run'
      cases run.unique run'
      exact ⟨[], r, .start, placed, .nil⟩
  | append_singleton round step ih =>
      obtain ⟨v, op, w⟩ := step
      rw [← List.append_assoc] at run'
      obtain ⟨run'', admissible, next⟩ := run'.front rfl
      cases run'.unique (run''.step admissible next)
      obtain ⟨path, r', path_, placed', matched⟩ :=
        ih (fun step member => scheduling step (by simp [member])) run''
      obtain ⟨r'', placed'', step⟩ :=
        step_placed placed' (scheduling (v, op, u) (by simp)) next
      exact ⟨path ++ [(v.turn op, r'')], r'', path_.step step, placed'',
        List.rel_append matched (.cons ⟨rfl, placed''⟩ .nil)⟩

theorem turn_front_iff {op : Op} : s.turn op = .front ↔ TakesHead (s, op, t) := by
  unfold turn TakesHead
  split
  · split <;> simp_all
  · simp_all

theorem dispatchesTo_eq {p : Ptr} {path : List (Turn × Carousel Ptr)}
    (matched : List.Forall₂ Matches steps path) :
    dispatchesTo p steps = (path.map (Carousel.serves p)).sum := by
  induction matched with
  | nil => rfl
  | @cons step x steps path here _ ih =>
      have same : (step.1.Dispatches step.2.1 ∧ step.2.2.kernel.currentThread = some p) ↔
          (x.1 ≠ .stay ∧ x.2.current = p) := by
        rw [here.1, here.2.current, Option.some.injEq]
        refine and_congr_left fun _ => ?_
        unfold turn
        split
        · rename_i dispatches
          split <;> simp [dispatches]
        · rename_i stays
          simp [stays]
      rw [dispatchesTo, List.countP_cons, List.map_cons, List.sum_cons, ← ih, Nat.add_comm,
        Carousel.serves]
      congr 1
      simp only [decide_eq_true_eq]
      split <;> split <;> simp_all

/-- **Scheduling rounds are fair.**  From one dispatch that takes the head of
RUNNING because the list has ended to the next, every thread that stays on
RUNNING is made current once, the first of the two counted and the second not. -/
theorem rounds_fair {history round later : List (System × Op × System)}
    {first second : System × Op × System} (started : s.Started cleaner) (run : s.Run steps u)
    (split : steps = history ++ first :: (round ++ second :: later))
    (scheduling : ∀ step ∈ round, step.2.1.Scheduling) (takesHead : TakesHead first)
    (takesHead' : TakesHead second) (consecutive : ∀ step ∈ round, ¬ TakesHead step) {p : Ptr}
    (stays : ∀ step ∈ first :: round, OnList step.2.2.kernel .running p) :
    dispatchesTo p (first :: round) = 1 := by
  obtain ⟨v, op, w⟩ := first
  obtain ⟨v', op', w'⟩ := second
  obtain ⟨run₁, admissible, next⟩ := run.front split
  have run₂ := run₁.step admissible next
  have split' : steps = (history ++ (v, op, w) :: round) ++ (v', op', w') :: later := by
    simp [split]
  obtain ⟨run₃, -, -⟩ := run.front split'
  -- the carousel before the first dispatch, behind it, and before the second
  obtain ⟨lists, queues⟩ := run₁.queues started
  obtain ⟨r₀, placed₀⟩ := exists_placed queues
  have firstOp : op.Scheduling := by
    cases op <;> first | trivial | exact takesHead.1.elim
  obtain ⟨r, placed, step⟩ := step_placed placed₀ firstOp next
  rw [turn_front_iff.2 takesHead] at step
  obtain ⟨path, r', path_, placed', matched⟩ :=
    @run_path s w v' (history ++ [(v, op, w)]) round run₂ r placed scheduling (by simpa using run₃)
  have ends : r'.after = [] := placed'.atEnd_iff.1 takesHead'.2
  have once := path_.served_once step.before_of_front ends
    (fun x member => by
      obtain ⟨step, here, matched⟩ := matches_of_mem matched member
      rw [matched.1]
      exact mt turn_front_iff.1 (consecutive step here))
    ⟨placed.nodup, fun x member => by
      obtain ⟨step, -, matched⟩ := matches_of_mem matched member
      exact matched.2.nodup⟩
    ((placed.onList_iff p).1 (stays (v, op, w) (by simp)))
    (fun x member => by
      obtain ⟨step, here, matched⟩ := matches_of_mem matched member
      exact (matched.2.onList_iff p).1 (stays step (by simp [here])))
  have firstMatched : List.Forall₂ Matches ((v, op, w) :: round) ((.front, r) :: path) :=
    .cons ⟨(turn_front_iff.2 takesHead).symm, placed⟩ matched
  rw [dispatchesTo_eq firstMatched, List.map_cons, List.sum_cons, Carousel.serves]
  simpa using once

/-- A thread is on the list its status names after every step of a run. -/
theorem Run.onList_iff (started : s.Started cleaner) (run : s.Run steps u)
    {step : System × Op × System} (taken : step ∈ steps) (st : ThreadStatus) (p : Ptr) :
    OnList step.2.2.kernel st p ↔
      p ∈ step.2.2.kernel.allocated ∧ (step.2.2.kernel.mem p).status = st := by
  obtain ⟨t, op, v⟩ := step
  obtain ⟨earlier, run', admissible, next⟩ := run.before taken
  obtain ⟨lists, queues⟩ := (run'.step admissible next).queues started
  exact (queues.onList_iff st p).trans (queues.mem_iff st p)

/-- A run from boot whose last five steps are a round. -/
theorem bootRound_checked : ((boot (fun _ => Thread.zero) 0x80001000).execute (bootOps ++
    [.schedule, .schedule, .schedule, .schedule, .suspend 1, .wake 1, .schedule])).map
    (fun result =>
      match result.1.drop 7 with
      | [first, a, b, c, second] =>
          decide (TakesHead first ∧ TakesHead second ∧
            (∀ step ∈ [a, b, c], step.2.1.Scheduling ∧ ¬ TakesHead step) ∧
            ∀ step ∈ [first, a, b, c], 0x80001000 ∈ step.2.2.kernel.allocated ∧
              (step.2.2.kernel.mem 0x80001000).status = .running)
      | _ => false) = some true := by decide +kernel

/-- In a round in which thread 1 is suspended and woken, the cleaner runs once. -/
theorem rounds_fair_boot :
    ∃ steps u history first round second,
      (boot (fun _ => Thread.zero) 0x80001000).Run steps u ∧
      steps = history ++ first :: (round ++ [second]) ∧ round.length = 3 ∧
      dispatchesTo 0x80001000 (first :: round) = 1 := by
  obtain ⟨⟨steps, u⟩, executed, facts⟩ := Option.map_eq_some_iff.1 bootRound_checked
  have run := execute_run executed
  have split := (List.take_append_drop 7 steps).symm
  simp only at facts
  split at facts
  · rename_i first a b c second rest
    rw [rest] at split
    obtain ⟨takesHead, takesHead', round, stays⟩ := of_decide_eq_true facts
    have split' : steps = steps.take 7 ++ first :: ([a, b, c] ++ second :: []) := split
    have onRunning : ∀ step ∈ first :: [a, b, c], OnList step.2.2.kernel .running 0x80001000 := by
      intro step member
      refine (run.onList_iff (boot_started _ _) ?_ _ _).2 (stays step member)
      rw [split']
      exact List.mem_append_right _ (List.mem_append_left [second] member)
    exact ⟨steps, u, steps.take 7, first, [a, b, c], second, run, split', rfl,
      rounds_fair (boot_started _ _) run split' (fun step member => (round step member).1)
        takesHead takesHead' (fun step member => (round step member).2) onRunning⟩
  · cases facts

end Rounds

end System

end TestOs.Threads
