/-
# Threads.Runs -- the queues are well formed along every run

`step_queues` collects the operation lemmas into one: an admissible step from a
state with well-formed queues returns, in a state with well-formed queues.
`queues_along_runs` is the invariant from boot on.
-/
import TestOs.Threads.Services

namespace TestOs.Threads

open TestOs.Library Kernel

set_option autoImplicit false

/-- `p` is on the list that starts at `thread_head[st]`. -/
def OnList (s : Kernel) (st : ThreadStatus) (p : Ptr) : Prop :=
  ∃ nodes, Chain s.next (s.threadHead st) nodes ∧ p ∈ nodes

/-- The nodes of SUSPEND, in the order in which the poller visits them. -/
def Kernel.suspended (s : Kernel) : List Ptr := walk s.next walkFuel (s.threadHead .suspend)

namespace Queues

variable {s : Kernel} {lists : ThreadStatus → List Ptr}

theorem suspended_eq (queues : Queues s lists) : s.suspended = lists .suspend :=
  (queues.chain .suspend).walk_eq (queues.short .suspend).le

theorem onList_iff (queues : Queues s lists) (st : ThreadStatus) (p : Ptr) :
    OnList s st p ↔ p ∈ lists st := by
  constructor
  · rintro ⟨nodes, chain, member⟩
    rwa [(queues.chain st).unique chain]
  · exact fun member => ⟨lists st, queues.chain st, member⟩

/-- A node is on the list its status names as long as it is allocated. -/
theorem mem_iff (queues : Queues s lists) (st : ThreadStatus) (p : Ptr) :
    p ∈ lists st ↔ p ∈ s.allocated ∧ (s.mem p).status = st := by
  constructor
  · exact fun member => ⟨queues.allocated_of_mem member, queues.status st p member⟩
  · rintro ⟨allocated, rfl⟩
    obtain ⟨st, member⟩ := (queues.listed p).1 allocated
    rwa [queues.status st p member]

end Queues

namespace System

variable {s u : System} {cleaner : Ptr}

/-- An admissible operation returns and keeps the queues well formed. -/
theorem step_queues {lists : ThreadStatus → List Ptr} (queues : Queues s.kernel lists) {op : Op}
    (admissible : s.Admissible op) :
    ∃ t, s.step op = some t ∧ ∃ lists', Queues t.kernel lists' := by
  have plain : ∀ {k : Option Kernel} {t : Kernel}, k = some t → (∃ lists', Queues t lists') →
      ∃ t, s.plain k = some t ∧ ∃ lists', Queues t.kernel lists' := by
    intro k t result after
    exact ⟨settle t s.waiting s.sleeping, by rw [result]; rfl, after⟩
  obtain ⟨current, -, isCurrent⟩ := queues.current
  cases op with
  | create newThread name handler params =>
      exact plain rfl (queues.threadCreate newThread name handler params
        fun p new => admissible.2 p new).1
  | wake tid =>
      obtain ⟨t, result, after, -⟩ := queues.threadWake tid
      exact plain result after
  | suspend tid =>
      obtain ⟨t, result, after, -⟩ := queues.threadSuspend tid
      exact plain result after
  | exit tid =>
      obtain ⟨t, result, after, -⟩ := queues.threadExit tid
      exact plain result after
  | wait tid =>
      simp only [step, isCurrent]
      rcases queues.threadWait tid with result | ⟨node, -, -, -, -, result⟩
      · rw [result]
        exact ⟨_, rfl, lists, queues⟩
      · rw [result]
        exact ⟨_, rfl, lists, queues.takeRef node⟩
  | waitTurn =>
      simp only [step, System.waitTurn, isCurrent]
      cases s.waiting current with
      | none => exact ⟨s, rfl, lists, queues⟩
      | some node =>
          by_cases alive : (s.kernel.mem node).status ≠ .died
          · simp only [if_pos alive]
            exact plain rfl ⟨lists, queues.schedule⟩
          · simp only [if_neg alive]
            exact ⟨_, rfl, lists, queues.dropRef node⟩
  | sleep millisecond now =>
      simp only [step, isCurrent]
      rcases queues.sleep isCurrent (admissible.2 current isCurrent) millisecond now with
        result | ⟨t, result, after, -⟩
      · rw [result]
        exact ⟨_, rfl, lists, queues⟩
      · rw [result]
        exact ⟨_, rfl, after⟩
  | schedule => exact plain rfl ⟨lists, queues.schedule⟩
  | poll clock =>
      obtain ⟨t, result, after, -⟩ := queues.sleeperPolling clock
      exact plain result after
  | clean =>
      obtain ⟨t, result, after, -⟩ := queues.clean
      exact plain result after

theorem Started.queues (started : s.Started cleaner) :
    Queues s.kernel fun st => if st = .running then [cleaner] else [] where
  chain st := by
    rw [started.heads]
    split
    · exact ⟨rfl, started.next⟩
    · rfl
  status st p member := by
    split at member
    · rename_i running
      obtain rfl := List.mem_singleton.1 member
      rw [running, started.status]
    · cases member
  listed p := by
    rw [started.allocated, Finset.mem_singleton]
    constructor
    · rintro rfl
      exact ⟨.running, by simp⟩
    · rintro ⟨st, member⟩
      split at member
      · exact List.mem_singleton.1 member
      · cases member
  tids p hp q hq _ := by
    rw [started.allocated, Finset.mem_singleton] at hp hq
    rw [hp, hq]
  bitmap tid := by
    rw [started.bitmap, decide_eq_true_eq, started.allocated]
    simp [started.tid, eq_comm]
  cleaner := ⟨cleaner, by simp, started.tid⟩
  current := ⟨cleaner, by simp, started.current⟩
  fixNext := started.fixNext

theorem boot_started (mem : Ptr → Thread) (cleaner : Ptr) : (boot mem cleaner).Started cleaner where
  tid := by simp [boot]
  status := by simp [boot]
  ref := by simp [boot]
  next := by simp [boot]
  heads _ := rfl
  current := rfl
  fixNext := rfl
  bitmap tid := by
    simp only [boot, tidBit, kernelThreadMax, tidBitNr]
    by_cases low : tid < 32
    · interval_cases tid <;> decide
    · have word : tid / 32 ≠ 0 := by omega
      have nonzero : tid ≠ 0 := by omega
      simp [word, nonzero]
  allocated := rfl
  waiting _ := rfl
  sleeping _ := rfl

theorem Run.queues {steps : List (System × Op × System)} (started : s.Started cleaner)
    (run : s.Run steps u) : ∃ lists, Queues u.kernel lists := by
  refine run.invariant (fun t => ∃ lists, Queues t.kernel lists) ⟨_, started.queues⟩ ?_
  intro t op v _ ⟨lists, queues⟩ admissible next
  obtain ⟨v', result, after⟩ := step_queues queues admissible
  cases next.symm.trans result
  exact after

/-- **The queue and tid invariant.**  Along every run from boot, the four lists
are well formed, each thread not yet freed is on exactly one of them exactly
once, and whatever operation comes next returns. -/
theorem queues_along_runs {steps : List (System × Op × System)} (started : s.Started cleaner)
    (run : s.Run steps u) :
    ∃ lists, Queues u.kernel lists ∧ (∀ st, (lists st).Nodup) ∧
      (∀ p ∈ u.kernel.allocated, ∃! st, p ∈ lists st) ∧
      ∀ op, u.Admissible op → ∃ v, u.step op = some v := by
  obtain ⟨lists, queues⟩ := run.queues started
  refine ⟨lists, queues, fun st => (queues.chain st).nodup, fun p member => ?_,
    fun op admissible => ?_⟩
  · obtain ⟨st, here⟩ := (queues.listed p).1 member
    exact ⟨st, here, fun st' there => queues.toLinked.disjoint there here⟩
  · obtain ⟨v, result, -⟩ := step_queues queues admissible
    exact ⟨v, result⟩

/-- The kernel's boot sequence: two threads created and woken, and the cleaner yields. -/
def bootOps : List Op :=
  [.create (some 0x80500008) none 1 0, .wake 1, .create (some 0x80501008) none 2 0, .wake 2, .clean]

theorem queues_along_runs_boot :
    ∃ steps u lists, (boot (fun _ => Thread.zero) 0x80001000).execute bootOps = some (steps, u) ∧
      Queues u.kernel lists ∧ u.kernel.currentThread = some 0x80501008 := by
  have current : ((boot (fun _ => Thread.zero) 0x80001000).execute bootOps).bind
      (fun result => result.2.kernel.currentThread) = some 0x80501008 := by decide +kernel
  obtain ⟨⟨steps, u⟩, executed, isCurrent⟩ := Option.bind_eq_some_iff.1 current
  obtain ⟨lists, queues, -⟩ := queues_along_runs (boot_started _ _) (execute_run executed)
  exact ⟨steps, u, lists, executed, queues, isCurrent⟩

end System

end TestOs.Threads
