/-
# Threads.DeadThreads -- what becomes of the threads on DIED

The cleaner reads the head of DIED and later stores it, and in between
`thread_exit` may push.  `dead_kept` says that nothing is lost as long as the
node that the cleaner unlinks without a predecessor is still the head: then each
thread that was put on DIED is on it, or is being freed, or has been freed.
-/
import TestOs.Threads.LockHolder

namespace TestOs.Threads

open TestOs.Library Kernel

set_option autoImplicit false

namespace Cpu

/-- The cleaner has taken the thread off DIED and is about to hand it to `free`. -/
def BeingFreed (s : Cpu) (p : Ptr) : Prop :=
  ∃ prev next, s.cleaning = .free prev p next

/-- Each thread that was put on DIED is on it, or has been freed. -/
def DeadKept (s : Cpu) : Prop :=
  ∀ p ∈ s.died, OnList s.kernel .died p ∨ s.BeingFreed p ∨ p ∈ s.freed

/-- A thread that leaves DIED is about to be freed, and its tid is free again. -/
def LeavesFreed (s t : Cpu) : Prop :=
  ∀ p, OnList s.kernel .died p → ¬ OnList t.kernel .died p →
    t.BeingFreed p ∧ t.kernel.tidBit (s.kernel.mem p).tid = false

/-- The cleaner unlinks as the head of DIED what is no longer its head. -/
def ReapsBehindHead (s : Cpu) (act : Act) : Prop :=
  act = .go ∧ s.kernel.currentThread = some s.cleaner ∧
    ∃ node, s.cleaning = .reap none node ∧ s.kernel.threadHead .died ≠ some node

section Ghosts

variable {s t : Cpu} {c p : Ptr}

/-- A statement puts nobody on DIED but by the last store of `thread_exit`, and
takes nobody back but by the last store of `thread_create`. -/
theorem go_died (next : s.go c = some t) (dead : p ∈ t.died) :
    t.cleaning = s.cleaning ∧
      ((∃ self, s.pc c = .setHead .died self p) ∨ p ∈ s.died ∧ (p ∈ s.freed → p ∈ t.freed)) := by
  cases place : s.pc c <;> simp only [go, place] at next
  case idle => cases next
  case lock call => split at next <;> cases next <;> exact ⟨rfl, .inr ⟨dead, id⟩⟩
  case pickTid new => split at next <;> cases next <;> exact ⟨rfl, .inr ⟨dead, id⟩⟩
  case find goal tid st prev node => cases node <;> cases next <;> exact ⟨rfl, .inr ⟨dead, id⟩⟩
  case fix move tid node => split at next <;> cases next <;> exact ⟨rfl, .inr ⟨dead, id⟩⟩
  case giveRef tid node =>
      cases next
      revert dead
      split <;> exact fun dead => ⟨rfl, .inr ⟨dead, id⟩⟩
  case setHead dest self node =>
      cases next
      cases dest with
      | ready =>
          have apart : p ≠ node := (Finset.mem_erase.1 dead).1
          exact ⟨rfl, .inr ⟨Finset.mem_of_mem_erase dead, fun freed => Finset.mem_erase.2 ⟨apart, freed⟩⟩⟩
      | died =>
          rcases Finset.mem_insert.1 dead with rfl | dead
          · exact ⟨rfl, .inl ⟨self, rfl⟩⟩
          · exact ⟨rfl, .inr ⟨dead, id⟩⟩
      | running | suspend => exact ⟨rfl, .inr ⟨dead, id⟩⟩
  case poll node => split at next <;> cases next <;> exact ⟨rfl, .inr ⟨dead, id⟩⟩
  all_goals
    cases next
    exact ⟨rfl, .inr ⟨dead, id⟩⟩

theorem clean_died : s.clean.died = s.died := by
  unfold clean
  split <;> rfl

theorem clean_freed (freed : p ∈ s.freed) : p ∈ s.clean.freed := by
  unfold clean
  split <;> first | exact freed | exact Finset.mem_insert_of_mem freed

end Ghosts

/-- The lists, and where the dead threads are. -/
structure Accounted (s : Cpu) (lists : ThreadStatus → List Ptr) : Prop extends s.Sound lists where
  dead : ∀ p ∈ s.died, p ∈ lists .died ∨ s.BeingFreed p ∨ p ∈ s.freed

namespace Accounted

variable {s t : Cpu} {lists lists' : ThreadStatus → List Ptr} {c : Ptr}

theorem onList_iff (sound : s.Sound lists) (st : ThreadStatus) (p : Ptr) :
    OnList s.kernel st p ↔ p ∈ lists st := by
  constructor
  · rintro ⟨nodes, chain, member⟩
    rwa [(sound.shape.chain st).unique chain]
  · exact fun member => ⟨lists st, sound.shape.chain st, member⟩

/-- A step that leaves DIED alone frees nobody. -/
theorem leavesFreed_of_grows (before : s.Sound lists) (after : t.Sound lists')
    (grows : ∀ p ∈ lists .died, p ∈ lists' .died) : s.LeavesFreed t := by
  intro p listed gone
  rw [onList_iff before] at listed
  rw [onList_iff after] at gone
  exact (gone (grows p listed)).elim

/-- One statement of a thread. -/
theorem go (accounted : s.Accounted lists) (current : s.kernel.currentThread = some c)
    (other : c ≠ s.cleaner) (next : s.go c = some t) (alone : s.pc c = .comeBack → s.lock = false) :
    (∃ lists', t.Accounted lists') ∧ s.LeavesFreed t := by
  have sound := accounted.toSound
  obtain ⟨lists', after, grows, pushed⟩ : ∃ lists', t.Sound lists' ∧
      (∀ p ∈ lists .died, p ∈ lists' .died) ∧
      ∀ self p, s.pc c = .setHead .died self p → p ∈ lists' .died := by
    by_cases push : ∃ self p, s.pc c = .setHead .died self p
    · obtain ⟨self, p, place⟩ := push
      obtain ⟨lists', after, died⟩ := sound.linked current other place next
      rw [if_pos rfl] at died
      refine ⟨lists', after, fun q listed => ?_, fun self' p' place' => ?_⟩
      · rw [died]
        exact List.mem_cons_of_mem _ listed
      · cases place.symm.trans place'
        rw [died]
        exact List.mem_cons_self
    · obtain ⟨lists', after, changes⟩ := sound.go current other next alone
      refine ⟨lists', after, fun q listed => ?_, fun self p place => (push ⟨self, p, place⟩).elim⟩
      rcases changes.died with same | ⟨self, node, place, -⟩
      · rwa [same]
      · exact (push ⟨self, node, place⟩).elim
  refine ⟨⟨lists', after, fun p dead => ?_⟩, leavesFreed_of_grows sound after grows⟩
  obtain ⟨cleaning, ⟨self, place⟩ | ⟨dead, freed⟩⟩ := go_died next dead
  · exact .inl (pushed self p place)
  · rcases accounted.dead p dead with listed | ⟨prev, following, freeing⟩ | done
    · exact .inl (grows p listed)
    · exact .inr (.inl ⟨prev, following, cleaning.trans freeing⟩)
    · exact .inr (.inr (freed done))

/-- The cleaner unlinks a node that has a predecessor, or is still the head. -/
theorem reap (accounted : s.Accounted lists) (current : s.kernel.currentThread = some s.cleaner)
    {prev : Option Ptr} {node : Ptr} (place : s.cleaning = .reap prev node)
    (apart : prev = none → ¬ s.Pushing)
    (head : prev = none → s.kernel.threadHead .died = some node) :
    (∃ lists', s.clean.Accounted lists') ∧ s.LeavesFreed s.clean := by
  have sound := accounted.toSound
  obtain ⟨lists', after, -, front, rest, split, died⟩ := sound.reaping current place apart
  -- no node is in front of the head
  have whole : lists' .died = front ++ rest := by
    rw [died]
    split
    · rename_i first
      have isHead := (sound.shape.chain .died).head_eq.symm.trans (head first)
      have distinct := (sound.shape.chain .died).nodup
      rw [split] at isHead distinct
      cases front with
      | nil => rfl
      | cons a front =>
          cases isHead
          simp at distinct
    · rfl
  have freeing : s.clean.BeingFreed node :=
    ⟨prev, (s.kernel.mem node).next, by simp only [clean, place]⟩
  have stays : ∀ p ∈ lists .died, p = node ∨ p ∈ lists' .died := by
    intro p listed
    rw [split] at listed
    rw [whole]
    simp only [List.mem_append, List.mem_cons] at listed ⊢
    tauto
  refine ⟨⟨lists', after, fun p dead => ?_⟩, fun p listed gone => ?_⟩
  · have before : p ∈ s.died := by
      simp only [clean, place] at dead
      exact dead
    rcases accounted.dead p before with listed | ⟨prev', next, freeing'⟩ | done
    · rcases stays p listed with rfl | there
      · exact .inr (.inl freeing)
      · exact .inl there
    · rw [place] at freeing'
      cases freeing'
    · refine .inr (.inr ?_)
      simp only [clean, place]
      exact done
  · rw [onList_iff sound] at listed
    rw [onList_iff after] at gone
    rcases stays p listed with rfl | there
    · refine ⟨freeing, ?_⟩
      simp only [clean, place]
      rw [Bool.eq_false_iff]
      exact fun bit => ((tidBit_clear _ _).1 bit).2 rfl
    · exact (gone there).elim

/-- One statement of the cleaner. -/
theorem clean (accounted : s.Accounted lists) (current : s.kernel.currentThread = some s.cleaner)
    (careful : s.Careful .go) (head : ¬ s.ReapsBehindHead .go) :
    (∃ lists', s.clean.Accounted lists') ∧ s.LeavesFreed s.clean := by
  by_cases reaps : ∃ prev node, s.cleaning = .reap prev node
  · obtain ⟨prev, node, place⟩ := reaps
    refine accounted.reap current place (fun first => ?_) fun first => ?_
    · exact careful.apart ⟨rfl, current, node, first ▸ place⟩
    · by_contra behind
      exact head ⟨rfl, current, node, first ▸ place, behind⟩
  · have after := accounted.toSound.cleansOn fun prev node place => reaps ⟨prev, node, place⟩
    refine ⟨⟨lists, after, fun p dead => ?_⟩,
      leavesFreed_of_grows accounted.toSound after fun _ listed => listed⟩
    rw [clean_died] at dead
    rcases accounted.dead p dead with listed | ⟨prev, next, freeing⟩ | done
    · exact .inl listed
    · refine .inr (.inr ?_)
      simp only [Cpu.clean, freeing]
      exact Finset.mem_insert_self _ _
    · exact .inr (.inr (clean_freed done))

/-- A step that changes neither DIED nor the cleaner's place. -/
theorem calm (accounted : s.Accounted lists) (after : t.Sound lists) (died : t.died = s.died)
    (freed : t.freed = s.freed) (cleaning : t.cleaning = s.cleaning) :
    (∃ lists', t.Accounted lists') ∧ s.LeavesFreed t := by
  refine ⟨⟨lists, after, fun p dead => ?_⟩,
    leavesFreed_of_grows accounted.toSound after fun _ listed => listed⟩
  rw [died] at dead
  rw [freed, BeingFreed, cleaning]
  exact accounted.dead p dead

theorem step (accounted : s.Accounted lists) {act : Act} (next : s.step act = some t)
    (careful : s.Careful act) (head : ¬ s.ReapsBehindHead act) :
    (∃ lists', t.Accounted lists') ∧ s.LeavesFreed t := by
  cases act with
  | go =>
      simp only [Cpu.step] at next
      cases current : s.kernel.currentThread with
      | none =>
          rw [current] at next
          cases next
      | some c =>
          rw [current] at next
          by_cases isCleaner : c = s.cleaner
          · simp only [if_pos isCleaner, Option.some.injEq] at next
            subst next
            exact accounted.clean (isCleaner ▸ current) careful head
          · simp only [if_neg isCleaner] at next
            exact accounted.go current isCleaner next fun back =>
              careful.alone ⟨c, by simp [runner, current, isCleaner], back⟩
  | tick =>
      simp only [Cpu.step] at next
      split at next <;> cases next
      exact accounted.calm accounted.scheduled rfl rfl rfl
  | create newThread name handler params =>
      rcases step_create next with rfl | ⟨c, node, caller, -, free, rfl⟩
      · exact accounted.calm accounted.toSound rfl rfl rfl
      · exact accounted.calm (accounted.called (caller_spec caller) free) rfl rfl rfl
  | call goal tid =>
      obtain ⟨c, caller, isNext⟩ := Option.map_eq_some_iff.1 next
      split at isNext
      · subst isNext
        exact accounted.calm accounted.toSound rfl rfl rfl
      · rename_i spared
        subst isNext
        exact accounted.calm (accounted.asked (caller_spec caller) fun spares isZero =>
          spared ⟨isZero, spares⟩) rfl rfl rfl
  | cli =>
      obtain ⟨c, -, rfl⟩ := Option.map_eq_some_iff.1 next
      exact accounted.calm (accounted.flag false) rfl rfl rfl
  | sti =>
      obtain ⟨c, -, rfl⟩ := Option.map_eq_some_iff.1 next
      exact accounted.calm (accounted.flag true) rfl rfl rfl
  | yield =>
      obtain ⟨c, -, rfl⟩ := Option.map_eq_some_iff.1 next
      exact accounted.calm accounted.scheduled rfl rfl rfl

end Accounted

variable {s t : Cpu} {steps : List (Cpu × Act × Cpu)}

/-- **The cleaner loses no dead thread.**  In every run of careful steps in which
the cleaner unlinks nothing as the head of DIED that is no longer its head, each
thread that was put on DIED is on it or has been freed, at every later statement
boundary, and whoever leaves DIED is freed with its tid. -/
theorem dead_kept (booted : s.Booted) (path : Path Cpu.step s steps t)
    (careful : ∀ u act v, (u, act, v) ∈ steps → u.Careful act ∧ ¬ u.ReapsBehindHead act) :
    t.DeadKept ∧ ∀ u act v, (u, act, v) ∈ steps → u.LeavesFreed v := by
  have first : ∃ lists, s.Accounted lists := by
    obtain ⟨lists, sound⟩ := Sound.of_booted booted
    refine ⟨lists, sound, fun p dead => ?_⟩
    rw [booted.quiet.died] at dead
    exact absurd dead (Finset.notMem_empty p)
  have along : ∀ {earlier : List (Cpu × Act × Cpu)} {u : Cpu}, Path Cpu.step s earlier u →
      (∀ taken ∈ earlier, taken ∈ steps) → ∃ lists, u.Accounted lists := fun path within =>
    path.invariant (fun u => ∃ lists, u.Accounted lists) first fun u act v taken ⟨_, before⟩ next =>
      (before.step next (careful u act v (within _ taken)).1 (careful u act v (within _ taken)).2).1
  refine ⟨fun p dead => ?_, fun u act v taken => ?_⟩
  · obtain ⟨lists, accounted⟩ := along path fun _ member => member
    rw [Accounted.onList_iff accounted.toSound]
    exact accounted.dead p dead
  · obtain ⟨earlier, shorter, next, within⟩ := path.before taken
    obtain ⟨lists, accounted⟩ := along shorter within
    exact (accounted.step next (careful u act v taken).1 (careful u act v taken).2).2

instance (s : Cpu) (act : Act) : Decidable (s.ReapsBehindHead act) :=
  match place : s.cleaning with
  | .reap none node =>
      decidable_of_iff (act = .go ∧ s.kernel.currentThread = some s.cleaner ∧
          s.kernel.threadHead .died ≠ some node) (by simp [ReapsBehindHead, place])
  | .reap (some _) _ | .scan | .visit _ _ | .advance _ | .free _ _ _ =>
      isFalse fun ⟨_, _, _, isHead, _⟩ => by rw [place] at isHead; cases isHead

/-- While nobody holds the lock, no `thread_exit` is under way. -/
theorem careful_of_free {act : Act} (held : s.LockHeld) (first : ¬ s.ComesBack act)
    (free : s.lock = false ∨ s.ReapsNoHead) : s.Careful act where
  alone back := (first back).elim
  apart := by
    rintro ⟨-, -, node, place⟩ ⟨p, self, pushed, exits⟩
    rcases free with unlocked | noHead
    · have holds := (held.holder p).1 (by rw [exits]; trivial)
      rw [held.lock, holds] at unlocked
      cases unlocked
    · exact noHead node place

/-- Thread 2 exits thread 1, which the cleaner then frees. -/
def exitRun : List Act :=
  List.flatten [[.tick, .call (.move .exit) 1], gos 11, [.tick], gos 4]

theorem dead_kept_exit :
    ∃ s steps t, Path Cpu.step s steps t ∧ 0x80500008 ∈ t.freed ∧ t.DeadKept ∧
      ∀ u act v, (u, act, v) ∈ steps → u.LeavesFreed v := by
  have checked : ((twoThreads.bind fun s => execute Cpu.step s exitRun).map fun result =>
      decide (0x80500008 ∈ result.2.freed ∧ ∀ taken ∈ result.1, ¬ taken.1.ComesBack taken.2.1 ∧
        (taken.1.lock = false ∨ taken.1.ReapsNoHead) ∧
        ¬ taken.1.ReapsBehindHead taken.2.1)) = some true := by
    decide +kernel
  obtain ⟨⟨steps, t⟩, executed, facts⟩ := Option.map_eq_some_iff.1 checked
  obtain ⟨s, started, ran⟩ := Option.bind_eq_some_iff.1 executed
  obtain ⟨freed, calm⟩ := of_decide_eq_true facts
  have booted := twoThreads_booted started
  have path := execute_path ran
  refine ⟨s, steps, t, path, freed, ?_⟩
  refine dead_kept booted path fun u act v taken => ?_
  obtain ⟨first, free, head⟩ := calm _ taken
  obtain ⟨earlier, shorter, -, within⟩ := path.before taken
  have held := (LockHeld.of_quiet booted.quiet).of_path shorter fun taken' early =>
    (calm taken' (within taken' early)).1
  exact ⟨careful_of_free held first free, head⟩

/-- Thread 2 exits thread 1; the cleaner finds it at the head of DIED; thread 2
exits itself; the cleaner unlinks thread 1. -/
def lossRun : List Act :=
  List.flatten [[.tick, .call (.move .exit) 1], gos 11, [.tick], gos 2, [.tick,
    .call (.move .exit) 2], gos 11, [.go]]

/-- Thread 2 is dead, not on DIED and not freed. -/
theorem reapsBehindHead_loses : ∃ s steps t, s.Booted ∧ Path Cpu.step s steps t ∧ ¬ t.DeadKept := by
  have checked : ((twoThreads.bind fun s => execute Cpu.step s lossRun).map fun result =>
      decide (0x80501008 ∈ result.2.died ∧ 0x80501008 ∉ result.2.freed ∧
        result.2.cleaning = .free none 0x80500008 none ∧
        result.2.kernel.threadHead .died = none)) = some true := by
    decide +kernel
  obtain ⟨⟨steps, t⟩, executed, facts⟩ := Option.map_eq_some_iff.1 checked
  obtain ⟨s, started, ran⟩ := Option.bind_eq_some_iff.1 executed
  obtain ⟨died, notFreed, place, empty⟩ := of_decide_eq_true facts
  refine ⟨s, steps, t, twoThreads_booted started, execute_path ran, fun kept => ?_⟩
  rcases kept _ died with ⟨nodes, chain, listed⟩ | ⟨prev, next, freeing⟩ | freed
  · rw [empty] at chain
    cases nodes with
    | nil => cases listed
    | cons _ _ => cases chain.1
  · rw [place] at freeing
    cases freeing
  · exact notFreed freed

end Cpu

end TestOs.Threads
