/-
# Threads.Statements -- one statement at a time

Each statement of thread.c keeps `Sound`.  Most of them leave the lists alone
(`calm`, outside of the section or at its end; `privately`, within it); the two
that do not are the one that takes a node off its list (`unlinked`) and the one
that puts it in front of another (`linked`).
-/
import TestOs.Threads.Interleaving

namespace TestOs.Threads

open TestOs.Library Kernel

set_option autoImplicit false

theorem Pc.hand_of_newNode {pc : Pc} {node : Ptr} (isNew : pc.newNode = some node) :
    pc.hand = none := by
  cases pc <;> first | rfl | cases isNew | skip
  case setNext dest self node' | setHead dest self node' =>
      cases dest <;> first | rfl | cases isNew

namespace Cpu

namespace Sound

variable {s t : Cpu} {lists lists' : ThreadStatus → List Ptr} {c : Ptr}

/-! ## Steps that leave the lists alone -/

/-- A thread that is not moving itself is on RUNNING. -/
theorem running (sound : s.Sound lists) (current : s.kernel.currentThread = some c)
    (plain : (s.pc c).compared = none) (inside : s.pc c ≠ .selfUnlock) (behind : s.pc c ≠ .selfYield) :
    s.kernel.fixNextThread = none ∧ c ∈ lists .running := by
  obtain ⟨c', current', going⟩ := sound.going
  obtain rfl : c = c' := Option.some.inj (current.symm.trans current')
  unfold Going at going
  cases fixed : s.kernel.fixNextThread with
  | some f =>
      rw [fixed] at going
      rcases going.2 with compared | unlocking | yielding
      · rw [Pc.behindFix_none plain] at compared
        cases compared
      · exact (inside unlocking).elim
      · exact (behind yielding).elim
  | none =>
      rw [fixed] at going
      rcases going with running | ⟨⟨move, tid, fix | fixHead⟩, -⟩
      · exact ⟨rfl, running⟩
      · rw [fix] at plain
        cases plain
      · rw [fixHead] at plain
        cases plain

theorem going_of_running (fixed : t.kernel.fixNextThread = none) (running : c ∈ lists .running) :
    t.Going lists c := by
  simp only [Going, fixed]
  exact .inl running

/-- Nothing that the lists are made of is different. -/
structure SameLists (k' k : Kernel) : Prop where
  heads : k'.threadHead = k.threadHead
  nexts : ∀ p, k'.next p = k.next p
  tids : ∀ p, (k'.mem p).tid = (k.mem p).tid
  statuses : ∀ p, (k'.mem p).status = (k.mem p).status
  bitmaps : k'.tidBitmap = k.tidBitmap
  allocations : k'.allocated = k.allocated

theorem SameLists.refl (k : Kernel) : SameLists k k :=
  ⟨rfl, fun _ => rfl, fun _ => rfl, fun _ => rfl, rfl, rfl⟩

/-- A store to the other fields of a node. -/
theorem SameLists.modify (k : Kernel) (node : Ptr) (f : Thread → Thread)
    (next : ∀ t, (f t).next = t.next) (tid : ∀ t, (f t).tid = t.tid)
    (status : ∀ t, (f t).status = t.status) : SameLists (k.modify node f) k where
  heads := rfl
  nexts p := by
    simp only [Kernel.next, modify_mem]
    split <;> simp_all
  tids p := by
    simp only [modify_mem]
    split <;> simp_all
  statuses p := by
    simp only [modify_mem]
    split <;> simp_all
  bitmaps := rfl
  allocations := rfl

/-- A statement that changes neither the lists nor what is on them. -/
theorem calm (sound : s.Sound lists) (other : c ≠ s.cleaner) {pc : Pc} (held : t.LockHeld)
    (pcs : t.pc = Function.update s.pc c pc) (cleaner : t.cleaner = s.cleaner)
    (cleaning : t.cleaning = s.cleaning) (threads : t.threads = s.threads)
    (same : SameLists t.kernel s.kernel)
    (holders : ∀ h, h ≠ c → (t.holder = some h ↔ s.holder = some h))
    (place : t.holder = some c → t.Place lists c pc)
    (going : ∃ c, t.kernel.currentThread = some c ∧ t.Going lists c) (spares : pc.Spares)
    (new : pc.newNode = none ∨ pc.newNode = (s.pc c).newNode)
    (hand : (s.pc c).hand = none ∨ t.holder = s.holder ∧ pc.hand = (s.pc c).hand) :
    t.Sound lists := by
  have mine : t.pc c = pc := by rw [pcs, Function.update_self]
  have theirs : ∀ p, p ≠ c → t.pc p = s.pc p := fun p self => by
    rw [pcs, Function.update_of_ne self]
  refine sound.stepped other held (fun p self => .inl (theirs p self)) cleaner ?_ ?_ going
    (by rwa [mine]) ?_ ?_ ?_ ?_
  · rw [threads]
    exact sound.shape.congr same.heads (fun p _ => same.nexts p) (fun p _ => same.statuses p)
      (fun p _ => same.tids p) (fun p _ bit => by rw [tidBit, same.bitmaps]; exact bit)
      (by rw [same.allocations]; exact sound.shape.allocated)
  · intro h holds
    by_cases self : h = c
    · rw [self] at holds ⊢
      rw [mine]
      exact place holds
    · rw [theirs h self]
      exact place_same (sound.place h ((holders h self).1 holds)) threads same.heads same.nexts
        same.tids same.statuses same.bitmaps
  · intro p n pending _
    rw [same.allocations, threads]
    exact sound.pending p n pending
  · intro n isNew
    rw [mine] at isNew
    rcases new with none_ | sameNode
    · rw [none_] at isNew
      cases isNew
    · rw [sameNode] at isNew
      rw [same.allocations, threads]
      refine ⟨(sound.pending c n isNew).1, (sound.pending c n isNew).2, fun p self pending => ?_⟩
      exact self (sound.apart p c n pending isNew)
  · have before := sound.cleans
    rw [cleaning]
    cases where_ : s.cleaning <;> rw [where_] at before <;> try exact before
    case free prev node next =>
        obtain ⟨here, memory, nobody, unclaimed⟩ := before
        refine ⟨here, by rwa [same.allocations], by rwa [threads], fun p pending => ?_⟩
        by_cases self : p = c
        · rw [self, mine] at pending
          rcases new with none_ | sameNode
          · rw [none_] at pending
            cases pending
          · exact unclaimed c (sameNode ▸ pending)
        · rw [theirs p self] at pending
          exact unclaimed p pending
  · intro p member
    rw [threads] at member
    rw [same.statuses]
    rcases sound.kept p member with listed | ⟨h, holds, inHand⟩ | dead
    · exact .inl listed
    · refine .inr (.inl ⟨h, ?_⟩)
      by_cases self : h = c
      · rcases hand with none_ | ⟨holder, kept⟩
        · rw [self, none_] at inHand
          cases inHand
        · rw [self] at holds inHand ⊢
          rw [mine, holder, kept]
          exact ⟨holds, inHand⟩
      · rw [theirs h self]
        exact ⟨(holders h self).2 holds, inHand⟩
    · exact .inr (.inr dead)

/-- A statement of the holder that stores to memory on no list. -/
theorem privately (sound : s.Sound lists) (other : c ≠ s.cleaner) (mine : s.holder = some c)
    {k : Kernel} {pcs : Ptr → Pc} (held : ({ s with kernel := k, pc := pcs } : Cpu).LockHeld)
    (theirs : ∀ p, p ≠ c → pcs p = s.pc p ∨ pcs p = .idle)
    (heads : k.threadHead = s.kernel.threadHead)
    (listed : ∀ p, (∃ st, p ∈ lists st) →
      k.next p = s.kernel.next p ∧ (k.mem p).status = (s.kernel.mem p).status)
    (tids : ∀ p ∈ s.threads, (k.mem p).tid = (s.kernel.mem p).tid)
    (dead : ∀ p ∈ s.threads, (pcs c).hand = some p ∨
      (k.mem p).status = (s.kernel.mem p).status)
    (bits : ∀ tid, s.kernel.tidBit tid = true → k.tidBit tid = true)
    (allocations : ∀ n ∈ s.kernel.allocated, n ∈ k.allocated ∨
      (s.pc c).newNode = some n ∧ (pcs c).newNode = none)
    (place : ({ s with kernel := k, pc := pcs } : Cpu).Place lists c (pcs c))
    (going : ∃ c, k.currentThread = some c ∧ ({ s with kernel := k, pc := pcs } : Cpu).Going lists c)
    (spares : (pcs c).Spares)
    (new : (pcs c).newNode = none ∨ (pcs c).newNode = (s.pc c).newNode)
    (hand : ∀ p, (s.pc c).hand = some p → (pcs c).hand = some p) :
    ({ s with kernel := k, pc := pcs } : Cpu).Sound lists := by
  -- what is given back was never a thread, and nobody else's
  have kept : ∀ n ∈ s.kernel.allocated, (s.pc c).newNode ≠ some n → n ∈ k.allocated := by
    intro n member notMine
    rcases allocations n member with here | ⟨isMine, -⟩
    · exact here
    · exact (notMine isMine).elim
  refine sound.stepped other held theirs rfl ?_ ?_ going spares ?_ ?_ ?_ ?_
  · refine sound.shape.congr heads (fun p here => (listed p here).1) (fun p here => (listed p here).2)
      tids (fun p _ => bits _) fun p member => ?_
    exact kept p (sound.shape.allocated member) fun isMine =>
      (sound.pending c p isMine).2 member
  · intro h holds
    obtain rfl : c = h := Option.some.inj (mine.symm.trans holds)
    exact place
  · intro p n pending self
    exact ⟨kept n (sound.pending p n pending).1 fun isMine => self (sound.apart p c n pending isMine),
      (sound.pending p n pending).2⟩
  · intro n isNew
    rcases new with none_ | same
    · rw [none_] at isNew
      cases isNew
    · have isMine := same ▸ isNew
      refine ⟨?_, (sound.pending c n isMine).2, fun p self pending =>
        self (sound.apart p c n pending isMine)⟩
      rcases allocations n (sound.pending c n isMine).1 with here | ⟨-, gone⟩
      · exact here
      · rw [gone] at isNew
        cases isNew
  · have before := sound.cleans
    cases where_ : s.cleaning <;> rw [where_] at before <;> try exact before
    case free prev node next =>
        obtain ⟨here, member, nobody, unclaimed⟩ := before
        refine ⟨here, kept node member (unclaimed c), nobody, fun p pending => ?_⟩
        by_cases self : p = c
        · rw [self] at pending
          rcases new with none_ | same
          · exact absurd (none_.symm.trans pending) (by simp)
          · exact unclaimed c (same ▸ pending)
        · rcases theirs p self with same | idle
          · exact unclaimed p (same ▸ pending)
          · have impossible : Pc.newNode .idle = some node := idle ▸ pending
            cases impossible
  · intro p member
    rcases sound.kept p member with listed | ⟨h, holds, inHand⟩ | died
    · exact .inl listed
    · obtain rfl : c = h := Option.some.inj (mine.symm.trans holds)
      exact .inr (.inl ⟨c, mine, hand p inHand⟩)
    · rcases dead p member with inHand | same
      · exact .inr (.inl ⟨c, mine, inHand⟩)
      · exact .inr (.inr (same.trans died))

/-- The cleaner's position depends on DIED and on what is nobody's only. -/
theorem cleans_congr (cleans : s.Cleans lists s.cleaning) (cleaning : t.cleaning = s.cleaning)
    (place : ∀ prev node, At lists prev node → At lists' prev node)
    (member : ∀ node ∈ lists .died, node ∈ lists' .died)
    (allocated : ∀ n ∈ s.kernel.allocated, n ∈ t.kernel.allocated)
    (free : ∀ node, node ∉ s.threads → (∀ p, (s.pc p).newNode ≠ some node) →
      node ∉ t.threads ∧ ∀ p, (t.pc p).newNode ≠ some node) : t.Cleans lists' t.cleaning := by
  rw [cleaning]
  cases where_ : s.cleaning <;> rw [where_] at cleans
  case scan => trivial
  case visit prev node => exact place _ _ cleans
  case advance node => exact member _ cleans
  case reap prev node => exact place _ _ cleans
  case free prev node next =>
      obtain ⟨here, memory, nobody, unclaimed⟩ := cleans
      obtain ⟨nobody', unclaimed'⟩ := free node nobody unclaimed
      exact ⟨place _ _ here, allocated _ memory, nobody', unclaimed'⟩

/-- The statement that takes a node off its list. -/
theorem unlinked (sound : s.Sound lists) (current : s.kernel.currentThread = some c)
    (other : c ≠ s.cleaner) {move : Move} {tid : Nat} {st : ThreadStatus} {prev : Option Ptr}
    {node : Ptr} (place : s.pc c = .unlink move tid st prev node) (next : s.go c = some t) :
    ∃ lists', t.Sound lists' ∧ lists' .died = lists .died := by
  have mine : s.holder = some c := (sound.holder c).1 (by rw [place]; trivial)
  have held := sound.toLockHeld.go next (by rw [place]; exact Pc.noConfusion)
  obtain ⟨fixed, isRunning⟩ := sound.running current (by rw [place]; rfl)
    (by rw [place]; exact Pc.noConfusion) (by rw [place]; exact Pc.noConfusion)
  have here := sound.place c mine
  have spared := sound.spares c
  rw [place] at here spared
  obtain ⟨search, isTid, front, rest, split, rfl⟩ := here
  have listed : node ∈ lists st := by rw [split]; simp
  have notWake : st = .running → move ≠ .wake := by
    rintro rfl rfl
    rcases search with first | second
    · cases first
    · cases second
  have notCleaner : node ≠ s.cleaner := by
    rintro rfl
    have onRunning := sound.shape.disjoint sound.shape.running listed
    exact spared (notWake onRunning.symm) (isTid.symm.trans sound.shape.cleanerTid)
  have notDied : st ≠ .died := by
    rintro rfl
    rcases search with first | second
    · cases move <;> cases first
    · cases move <;> cases second
  have loose := sound.shape.unlinked_outside split
  simp only [Cpu.go, place, Option.some.injEq] at next
  have lists'Died : Function.update lists st (front ++ rest) .died = lists .died :=
    Function.update_of_ne (Ne.symm notDied) _ _
  have stays : ∀ st' p, p ≠ node → p ∈ lists st' →
      p ∈ Function.update lists st (front ++ rest) st' := by
    intro st' p apart member
    by_cases same : st' = st
    · subst same
      rw [split] at member
      rw [Function.update_self]
      simp only [List.mem_append, List.mem_cons] at member ⊢
      tauto
    · rwa [Function.update_of_ne same]
  refine ⟨Function.update lists st (front ++ rest), ?_, lists'Died⟩
  have pcs : ∀ p, p ≠ c → t.pc p = s.pc p := by
    intro p self
    rw [← next]
    simp only [goto, store, Function.update_of_ne self]
  have pcC : t.pc c = if move = .wake then .setStatus .running none node else .fix move tid node := by
    rw [← next]
    simp only [goto, Function.update_self]
  have kernel : t.kernel = s.kernel.unlink st front.getLast? node := by
    rw [← next]
    rfl
  have threads : t.threads = s.threads := by rw [← next]; rfl
  have looseT : t.Loose (Function.update lists st (front ++ rest)) node :=
    ⟨by rw [threads]; exact sound.shape.members st node listed, loose⟩
  refine sound.stepped other held (fun p self => .inl (pcs p self)) (by rw [← next]; rfl) ?_ ?_ ?_
    ?_ ?_ ?_ ?_ ?_
  · rw [kernel, threads]
    exact sound.shape.unlink split notCleaner
  · intro h holds
    have stillMine : t.holder = some c := by rw [← next]; exact mine
    obtain rfl : c = h := Option.some.inj (stillMine.symm.trans holds)
    rw [pcC]
    split
    · exact ⟨looseT, by decide, fun _ none_ => by cases none_⟩
    · rename_i notWake'
      exact ⟨looseT, notWake', by rw [kernel, unlink_tid]; exact isTid⟩
  · refine ⟨c, by rw [kernel, unlink_current]; exact current, ?_⟩
    simp only [Going, kernel, unlink_fixNext, fixed]
    by_cases self : node = c
    · subst self
      have onRunning := sound.shape.disjoint listed isRunning
      subst onRunning
      rw [pcC, if_neg (notWake rfl)]
      refine .inr ⟨⟨move, tid, .inl rfl⟩, fun f successor => ?_⟩
      have chain := sound.shape.chain .running
      rw [split] at chain
      have notPrev : front.getLast? ≠ some node := by
        intro last
        have inFront := List.mem_of_getLast? last
        have distinct := chain.nodup
        simp only [List.nodup_append, List.mem_cons] at distinct
        exact distinct.2.2 node inFront node (.inl rfl) rfl
      rw [unlink_next _ _ _ _ _ notPrev] at successor
      have head := chain.suffix.2.head_eq
      rw [successor] at head
      rw [Function.update_self]
      simp [List.mem_of_head? head.symm]
    · exact .inl (stays .running c (Ne.symm self) isRunning)
  · rw [pcC]
    split <;> trivial
  · intro p n pending _
    rw [kernel, unlink_allocated, threads]
    exact sound.pending p n pending
  · intro n isNew
    rw [pcC] at isNew
    split at isNew <;> cases isNew
  · refine cleans_congr sound.cleans (by rw [← next]; rfl) ?_ ?_ ?_ ?_
    · intro prev' node' position
      rwa [At, lists'Died]
    · intro node' member
      rwa [lists'Died]
    · intro n member
      rwa [kernel, unlink_allocated]
    · intro n nobody unclaimed
      refine ⟨by rwa [threads], fun p isNew => ?_⟩
      by_cases self : p = c
      · rw [self, pcC] at isNew
        split at isNew <;> cases isNew
      · exact unclaimed p (pcs p self ▸ isNew)
  · intro p member
    rw [threads] at member
    by_cases same : p = node
    · refine .inr (.inl ⟨c, by rw [← next]; exact mine, ?_⟩)
      rw [pcC, same]
      split <;> rfl
    · rcases sound.kept p member with ⟨st', listed'⟩ | ⟨h, holds, inHand⟩ | died
      · exact .inl ⟨st', stays st' p same listed'⟩
      · obtain rfl : c = h := Option.some.inj (mine.symm.trans holds)
        rw [place] at inHand
        cases inHand
      · exact .inr (.inr (by rw [kernel, unlink_status]; exact died))

/-- A push in front of DIED leaves the cleaner where it is. -/
theorem at_push {node : Ptr} {prev here : Option Ptr} (position : At lists prev here)
    (pushed : lists' .died = node :: lists .died) : At lists' prev here := by
  obtain ⟨front, rest, split, isHere, before⟩ := position
  refine ⟨node :: front, rest, by rw [pushed, split]; rfl, isHere, ?_⟩
  rcases before with none_ | last
  · exact .inl none_
  · cases front with
    | nil => exact .inl last
    | cons first others => exact .inr (by rw [last, List.getLast?_cons_cons])

/-- The statement that puts a node in front of a list. -/
theorem linked (sound : s.Sound lists) (current : s.kernel.currentThread = some c)
    (other : c ≠ s.cleaner) {dest : ThreadStatus} {self : Option Nat} {node : Ptr}
    (place : s.pc c = .setHead dest self node) (next : s.go c = some t) :
    ∃ lists', t.Sound lists' ∧
      lists' .died = if dest = .died then node :: lists .died else lists .died := by
  have mine : s.holder = some c := (sound.holder c).1 (by rw [place]; trivial)
  have held := sound.toLockHeld.go next (by rw [place]; exact Pc.noConfusion)
  have here := sound.place c mine
  rw [place] at here
  obtain ⟨status, link, facts⟩ := here
  simp only [Cpu.go, place, Option.some.injEq] at next
  have pcs : ∀ p, p ≠ c → t.pc p = s.pc p := by
    intro p self
    rw [← next]
    simp only [goto, Function.update_of_ne self]
    cases dest <;> rfl
  have pcC : t.pc c = if self.any (s.own c) then .selfUnlock else .unlock := by
    rw [← next]
    simp only [goto, Function.update_self]
  have kernel : t.kernel = s.kernel.setHead dest (some node) := by
    rw [← next]
    cases dest <;> rfl
  have holder : t.holder = some c := by
    rw [← next, ← mine]
    cases dest <;> rfl
  have cleaner : t.cleaner = s.cleaner := by rw [← next]; cases dest <;> rfl
  have cleaning : t.cleaning = s.cleaning := by rw [← next]; cases dest <;> rfl
  have noNew : (t.pc c).newNode = none := by rw [pcC]; split <;> rfl
  have grows : ∀ st p, p ∈ lists st → p ∈ Function.update lists dest (node :: lists dest) st := by
    intro st p member
    by_cases same : st = dest
    · subst same
      rw [Function.update_self]
      exact List.mem_cons_of_mem _ member
    · rwa [Function.update_of_ne same]
  have first : node ∈ Function.update lists dest (node :: lists dest) dest := by
    rw [Function.update_self]
    exact List.mem_cons_self
  -- the scheduler goes on as before, from the statement behind the move
  have going : ∃ c, t.kernel.currentThread = some c ∧
      t.Going (Function.update lists dest (node :: lists dest)) c := by
    refine ⟨c, by rw [kernel]; exact current, ?_⟩
    obtain ⟨c', current', before⟩ := sound.going
    obtain rfl : c = c' := Option.some.inj (current.symm.trans current')
    unfold Going at before ⊢
    rw [kernel, setHead_fixNext, pcC]
    cases fixed : s.kernel.fixNextThread with
    | some f =>
        rw [fixed, place] at before
        obtain ⟨onRunning, compared | unlocking | yielding⟩ := before
        · refine ⟨grows _ _ onRunning, .inr (.inl ?_)⟩
          rw [if_pos (by simpa [Pc.behindFix] using compared)]
        · cases unlocking
        · cases yielding
    | none =>
        rw [fixed, place] at before
        rcases before with running | ⟨⟨_, _, fix | fixHead⟩, -⟩
        · exact .inl (grows _ _ running)
        · cases fix
        · cases fixHead
  have kept : ∀ p ∈ s.threads, (∃ st, p ∈ Function.update lists dest (node :: lists dest) st) ∨
      (∃ h, t.holder = some h ∧ (t.pc h).hand = some p) ∨ (t.kernel.mem p).status = .died := by
    intro p member
    by_cases same : p = node
    · exact .inl ⟨dest, same ▸ first⟩
    · rcases sound.kept p member with ⟨st', listed'⟩ | ⟨h, holds, inHand⟩ | died
      · exact .inl ⟨st', grows st' p listed'⟩
      · obtain rfl : c = h := Option.some.inj (mine.symm.trans holds)
        rw [place, Pc.hand] at inHand
        split at inHand
        · cases inHand
        · exact (same (Option.some.inj inHand).symm).elim
      · exact .inr (.inr (by rw [kernel]; exact died))
  refine ⟨Function.update lists dest (node :: lists dest), ?_, ?_⟩
  · by_cases ready : dest = .ready
    · subst ready
      rw [if_pos rfl] at facts
      have isNew : (s.pc c).newNode = some node := by rw [place]; rfl
      obtain ⟨memory, fresh⟩ := sound.pending c node isNew
      have threads : t.threads = insert node s.threads := by rw [← next]; rfl
      refine sound.stepped other held (fun p self => .inl (pcs p self)) cleaner ?_ ?_ going ?_ ?_ ?_
        ?_ ?_
      · rw [kernel, threads]
        refine (sound.shape.insert memory facts.1.bit facts.1.fresh).setHead
          (Finset.mem_insert_self _ _) (fun st member => ?_) status link
        exact fresh (sound.shape.members st node member)
      · intro h holds
        obtain rfl : c = h := Option.some.inj (holder.symm.trans holds)
        rw [pcC]
        split <;> trivial
      · rw [pcC]
        split <;> trivial
      · intro p n pending self
        obtain ⟨memory', fresh'⟩ := sound.pending p n pending
        refine ⟨by rw [kernel]; exact memory', ?_⟩
        rw [threads, Finset.mem_insert]
        rintro (rfl | member)
        · exact self (sound.apart p c _ pending isNew)
        · exact fresh' member
      · intro n isNew'
        rw [noNew] at isNew'
        cases isNew'
      · refine cleans_congr sound.cleans cleaning (fun _ _ position => position)
          (fun _ member => member) (fun n member => by rw [kernel]; exact member) ?_
        intro n nobody unclaimed
        refine ⟨?_, fun p isNew' => ?_⟩
        · rw [threads, Finset.mem_insert]
          rintro (rfl | member)
          · exact unclaimed c isNew
          · exact nobody member
        · by_cases self : p = c
          · rw [self, noNew] at isNew'
            cases isNew'
          · exact unclaimed p (pcs p self ▸ isNew')
      · intro p member
        rw [threads, Finset.mem_insert] at member
        rcases member with rfl | member
        · exact .inl ⟨.ready, first⟩
        · exact kept p member
    · rw [if_neg ready] at facts
      have threads : t.threads = s.threads := by
        rw [← next]
        cases dest <;> first | rfl | exact (ready rfl).elim
      refine sound.stepped other held (fun p self => .inl (pcs p self)) cleaner ?_ ?_ going ?_ ?_ ?_
        ?_ ?_
      · rw [kernel, threads]
        exact sound.shape.setHead facts.1.member facts.1.loose status link
      · intro h holds
        obtain rfl : c = h := Option.some.inj (holder.symm.trans holds)
        rw [pcC]
        split <;> trivial
      · rw [pcC]
        split <;> trivial
      · intro p n pending _
        rw [kernel, threads]
        exact sound.pending p n pending
      · intro n isNew'
        rw [noNew] at isNew'
        cases isNew'
      · refine cleans_congr sound.cleans cleaning ?_ (fun p member => grows .died p member)
          (fun n member => by rw [kernel]; exact member) ?_
        · intro prev' node' position
          by_cases died : dest = .died
          · subst died
            exact at_push position (Function.update_self _ _ _)
          · rwa [At, Function.update_of_ne (Ne.symm died)]
        · intro n nobody unclaimed
          refine ⟨by rwa [threads], fun p isNew' => ?_⟩
          by_cases self : p = c
          · rw [self, noNew] at isNew'
            cases isNew'
          · exact unclaimed p (pcs p self ▸ isNew')
      · intro p member
        rw [threads] at member
        exact kept p member
  · by_cases died : dest = .died
    · subst died
      rw [if_pos rfl, Function.update_self]
    · rw [if_neg died, Function.update_of_ne (Ne.symm died)]

theorem own_eq (tid : (t.kernel.mem c).tid = (s.kernel.mem c).tid) : t.own c = s.own c := by
  funext compared
  rw [own, own, tid]

/-- A statement of a move that leaves the scheduler's choice as it is. -/
theorem going_on (sound : s.Sound lists) (current : s.kernel.currentThread = some c)
    (currents : t.kernel.currentThread = s.kernel.currentThread)
    (fixes : t.kernel.fixNextThread = s.kernel.fixNextThread)
    (notFix : ∀ move tid, s.pc c ≠ .fix move tid c ∧ s.pc c ≠ .fixHead move tid c)
    (still : (s.pc c).behindFix.any (s.own c) ∨ s.pc c = .selfUnlock ∨ s.pc c = .selfYield →
      (t.pc c).behindFix.any (t.own c) ∨ t.pc c = .selfUnlock ∨ t.pc c = .selfYield) :
    ∃ c, t.kernel.currentThread = some c ∧ t.Going lists c := by
  refine ⟨c, currents.trans current, ?_⟩
  obtain ⟨c', current', before⟩ := sound.going
  obtain rfl : c = c' := Option.some.inj (current.symm.trans current')
  unfold Going at before ⊢
  rw [fixes]
  cases fixed : s.kernel.fixNextThread with
  | some f =>
      rw [fixed] at before
      exact ⟨before.1, still before.2⟩
  | none =>
      rw [fixed] at before
      rcases before with running | ⟨⟨move, tid, fix | fixHead⟩, -⟩
      · exact .inl running
      · exact ((notFix move tid).1 fix).elim
      · exact ((notFix move tid).2 fixHead).elim

/-- A thread at the comparison with `current->tid` has taken itself off RUNNING
exactly if the tids agree. -/
theorem own_iff (sound : s.Sound lists) (current : s.kernel.currentThread = some c)
    {move : Move} {tid : Nat} {node : Ptr} (place : s.pc c = .fix move tid node)
    (loose : s.Loose lists node) (isTid : (s.kernel.mem node).tid = tid) :
    s.kernel.fixNextThread = none ∧
      (s.own c tid = true ∧ node = c ∧ (∀ f, s.kernel.next c = some f → f ∈ lists .running) ∨
        s.own c tid = false ∧ c ∈ lists .running) := by
  obtain ⟨c', current', before⟩ := sound.going
  obtain rfl : c = c' := Option.some.inj (current.symm.trans current')
  unfold Going at before
  cases fixed : s.kernel.fixNextThread with
  | some f =>
      rw [fixed, place] at before
      rcases before.2 with compared | unlocking | yielding
      · cases compared
      · cases unlocking
      · cases yielding
  | none =>
      rw [fixed, place] at before
      refine ⟨rfl, ?_⟩
      rcases before with running | ⟨⟨_, _, fix | fixHead⟩, successor⟩
      · refine .inr ⟨?_, running⟩
        by_contra isOwn
        have same : (s.kernel.mem c).tid = tid := by simpa [own] using isOwn
        have self := sound.shape.tids c (sound.shape.members _ c running) node loose.member
          (same.trans isTid.symm)
        exact loose.loose .running (self ▸ running)
      · cases fix
        exact .inl ⟨by simp [own, isTid], rfl, successor⟩
      · cases fixHead

/-- A thread that is not moving itself goes on within the section, or outside of it. -/
theorem plain (sound : s.Sound lists) (current : s.kernel.currentThread = some c)
    (other : c ≠ s.cleaner) {pc : Pc} {k : Kernel} (same : SameLists k s.kernel)
    (currents : k.currentThread = s.kernel.currentThread)
    (fixes : k.fixNextThread = s.kernel.fixNextThread) (section_ : pc.Guarded ↔ (s.pc c).Guarded)
    (calls : (s.pc c).compared = none) (inside : s.pc c ≠ .selfUnlock)
    (behind : s.pc c ≠ .selfYield) (hand : (s.pc c).hand = none) (new : pc.newNode = none)
    (spares : pc.Spares) (place : s.holder = some c → s.Place lists c pc) :
    ((s.store k).goto c pc).Sound lists := by
  obtain ⟨fixed, running⟩ := sound.running current calls inside behind
  refine sound.calm other (sound.toLockHeld.move section_) rfl rfl rfl rfl same (fun h _ => Iff.rfl)
    (fun holds => ?_) ⟨c, currents.trans current, going_of_running (fixes.trans fixed) running⟩ spares
    (.inl new) (.inl hand)
  exact place_same (place holds) rfl same.heads same.nexts same.tids same.statuses same.bitmaps

/-- A thread gives the lock back. -/
theorem released (sound : s.Sound lists) (other : c ≠ s.cleaner) {pc : Pc}
    (held : (s.release.goto c pc).LockHeld) (mine : s.holder = some c ∨ s.holder = none)
    (hand : (s.pc c).hand = none) (new : pc.newNode = none) (spares : pc.Spares)
    (current : s.kernel.currentThread = some c) (going : (s.release.goto c pc).Going lists c) :
    (s.release.goto c pc).Sound lists := by
  refine sound.calm other held rfl rfl rfl rfl (SameLists.refl _) (fun h self => ?_)
    (fun holds => by cases holds) ?_ spares (.inl new) (.inl hand)
  · rcases mine with isMine | nobody
    · simp [goto, release, isMine, Ne.symm self]
    · simp [goto, release, nobody]
  · exact ⟨c, current, going⟩

/-! ## Creation -/

/-- The statements of `thread_create` under the lock store to memory of their own. -/
theorem creates (sound : s.Sound lists) (current : s.kernel.currentThread = some c)
    (other : c ≠ s.cleaner) (node : Ptr) (isNew : (s.pc c).newNode = some node)
    (guarded : (s.pc c).Guarded) (calls : (s.pc c).compared = none) {k : Kernel} {pcs : Ptr → Pc}
    (heads : k.threadHead = s.kernel.threadHead) (mems : ∀ p, p ≠ node → k.mem p = s.kernel.mem p)
    (bits : ∀ tid, s.kernel.tidBit tid = true → k.tidBit tid = true)
    (currents : k.currentThread = s.kernel.currentThread)
    (fixes : k.fixNextThread = s.kernel.fixNextThread)
    (next : s.go c = some { s with kernel := k, pc := pcs })
    (theirs : ∀ p, p ≠ c → pcs p = s.pc p ∨ pcs p = .idle)
    (allocations : k.allocated = s.kernel.allocated ∧ (pcs c).newNode = some node ∨
      k.allocated = s.kernel.allocated.erase node ∧ (pcs c).newNode = none)
    (place : ({ s with kernel := k, pc := pcs } : Cpu).Place lists c (pcs c))
    (spares : (pcs c).Spares) : ({ s with kernel := k, pc := pcs } : Cpu).Sound lists := by
  have mine : s.holder = some c := (sound.holder c).1 guarded
  obtain ⟨memory, fresh⟩ := sound.pending c node isNew
  have apart : ∀ p ∈ s.threads, p ≠ node := fun p member same => fresh (same ▸ member)
  obtain ⟨fixed, running⟩ := sound.running current calls
    (fun unlocks => by rw [unlocks] at isNew; cases isNew)
    (fun yields => by rw [yields] at isNew; cases isNew)
  have held := sound.toLockHeld.go next fun back => by rw [back] at isNew; cases isNew
  have noHand := Pc.hand_of_newNode isNew
  refine sound.privately other mine held theirs heads (fun p ⟨st, listed⟩ => ?_) (fun p member => ?_)
    (fun p member => ?_) bits (fun n member => ?_) place
    ⟨c, currents.trans current, going_of_running (fixes.trans fixed) running⟩ spares ?_
    fun p inHand => by rw [noHand] at inHand; cases inHand
  · rw [Kernel.next, Kernel.next, mems p (apart p (sound.shape.members st p listed))]
    exact ⟨rfl, rfl⟩
  · rw [mems p (apart p member)]
  · rw [mems p (apart p member)]
    exact .inr rfl
  · rcases allocations with ⟨same, -⟩ | ⟨less, gone⟩
    · rw [same]
      exact .inl member
    · rw [less, Finset.mem_erase]
      by_cases own : n = node
      · exact .inr ⟨by rw [isNew, own], gone⟩
      · exact .inl ⟨own, member⟩
  · rcases allocations with ⟨-, kept⟩ | ⟨-, gone⟩
    · exact .inr (kept.trans isNew.symm)
    · exact .inl gone

theorem clear (sound : s.Sound lists) (current : s.kernel.currentThread = some c)
    (other : c ≠ s.cleaner) {new : NewThread} (place : s.pc c = .clear new) (next : s.go c = some t) :
    t.Sound lists := by
  have run := next
  simp only [Cpu.go, place, Option.some.injEq] at run
  subst run
  refine sound.creates current other new.node (by rw [place]; rfl) (by rw [place]; trivial)
    (by rw [place]; rfl) rfl (fun p apart => by simp [store, apart]) (fun _ bit => bit) rfl rfl next
    (fun p self => .inl (by simp [store, self])) (.inl ⟨rfl, ?_⟩) ?_ ?_
  · simp [Pc.newNode]
  · simp [Place]
  · simp [Pc.Spares]

theorem pickTid (sound : s.Sound lists) (current : s.kernel.currentThread = some c)
    (other : c ≠ s.cleaner) {new : NewThread} (place : s.pc c = .pickTid new)
    (next : s.go c = some t) : t.Sound lists := by
  have run := next
  simp only [Cpu.go, place] at run
  split at run <;> cases run
  · rename_i mapIdx bitIdx found
    obtain ⟨inMap, inWord, clear⟩ := findFreeTid_spec found
    refine sound.creates current other new.node (by rw [place]; rfl) (by rw [place]; trivial)
      (by rw [place]; rfl) rfl (fun p apart => rfl)
      (fun tid bit => (tidBit_set inMap inWord tid).2 (.inl bit)) rfl rfl next
      (fun p self => .inl (by simp [store, self])) (.inl ⟨rfl, ?_⟩) ?_ ?_
    · simp [Pc.newNode]
    · simp only [Function.update_self, Place]
      refine ⟨(tidBit_set inMap inWord _).2 (.inr rfl), fun p member taken => ?_⟩
      have bit := sound.shape.bits p member
      have tid : (s.kernel.mem p).tid = mapIdx * tidBitNr + bitIdx := taken
      rw [tid, tidBit, Bool.and_eq_true] at bit
      have word : (mapIdx * tidBitNr + bitIdx) / tidBitNr = mapIdx := by
        simp only [tidBitNr]
        omega
      have place : (mapIdx * tidBitNr + bitIdx) % tidBitNr = bitIdx := by
        simp only [tidBitNr]
        omega
      rw [word, place, clear] at bit
      exact absurd bit.2 (by decide)
    · simp [Pc.Spares]
  · refine sound.creates current other new.node (by rw [place]; rfl) (by rw [place]; trivial)
      (by rw [place]; rfl) rfl (fun p apart => rfl) (fun _ bit => bit) rfl rfl next
      (fun p self => .inl (by simp [self])) (.inl ⟨rfl, ?_⟩) ?_ ?_
    · simp [Pc.newNode]
    · simp [Place]
    · simp [Pc.Spares]

theorem fill (sound : s.Sound lists) (current : s.kernel.currentThread = some c)
    (other : c ≠ s.cleaner) {new : NewThread} {tid : Nat} (place : s.pc c = .fill new tid)
    (next : s.go c = some t) : t.Sound lists := by
  have mine : s.holder = some c := (sound.holder c).1 (by rw [place]; trivial)
  have fresh := sound.place c mine
  obtain ⟨-, notThread⟩ := sound.pending c new.node (by rw [place]; rfl)
  rw [place] at fresh
  have run := next
  simp only [Cpu.go, place, Option.some.injEq] at run
  subst run
  refine sound.creates current other new.node (by rw [place]; rfl) (by rw [place]; trivial)
    (by rw [place]; rfl) rfl (fun p apart => by simp [goto, store, apart]) (fun _ bit => bit) rfl rfl next
    (fun p self => ?_) (.inl ⟨rfl, ?_⟩) ?_ ?_
  · rw [Function.update_of_ne self]
    by_cases isNew : p = new.node
    · rw [isNew]
      exact .inr (by simp [goto])
    · exact .inl (by simp [goto, store, isNew])
  · simp [Pc.newNode]
  · simp only [Function.update_self, Place, if_true]
    refine ⟨by simp [goto, store], ⟨?_, fun p member => ?_⟩, trivial⟩
    · simpa [goto, store, tidBit] using fresh.bit
    · have apart : p ≠ new.node := fun same => notThread (same ▸ member)
      simpa [goto, store, apart] using fresh.fresh p member
  · simp [Pc.Spares]

theorem giveBack (sound : s.Sound lists) (current : s.kernel.currentThread = some c)
    (other : c ≠ s.cleaner) {node : Ptr} (place : s.pc c = .giveBack node)
    (next : s.go c = some t) : t.Sound lists := by
  have run := next
  simp only [Cpu.go, place, Option.some.injEq] at run
  subst run
  refine sound.creates current other node (by rw [place]; rfl) (by rw [place]; trivial)
    (by rw [place]; rfl) rfl (fun p apart => rfl) (fun _ bit => bit) rfl rfl next
    (fun p self => .inl (by simp [store, self])) (.inr ⟨rfl, ?_⟩) ?_ ?_
  · simp [Pc.newNode]
  · simp [Place]
  · simp [Pc.Spares]

/-! ## Moves -/

/-- What follows the stores to `fix_next_thread` knows the node. -/
theorem place_fixed {move : Move} {tid : Nat} {node : Ptr} (loose : s.Loose lists node)
    (notWake : move ≠ .wake) (isTid : (s.kernel.mem node).tid = tid) :
    s.Place lists c (fixed move tid node) := by
  cases move with
  | wake => exact (notWake rfl).elim
  | suspend =>
      refine ⟨loose, by decide, fun compared same => ?_⟩
      cases same
      exact isTid
  | exit => exact ⟨loose, isTid⟩

theorem fixed_spec {move : Move} (tid : Nat) (node : Ptr) (notWake : move ≠ .wake) :
    (fixed move tid node).behindFix = some tid ∧ (fixed move tid node).hand = some node ∧
      (fixed move tid node).newNode = none ∧ (fixed move tid node).Spares := by
  cases move with
  | wake => exact (notWake rfl).elim
  | suspend => exact ⟨rfl, rfl, rfl, trivial⟩
  | exit => exact ⟨rfl, rfl, rfl, trivial⟩

/-- A statement of a move that stores nothing to the node. -/
theorem moves (sound : s.Sound lists) (other : c ≠ s.cleaner) {node : Ptr}
    (inHand : (s.pc c).hand = some node) {k : Kernel} {pc : Pc}
    (same : SameLists k s.kernel) (next : s.go c = some ((s.store k).goto c pc))
    (place : s.Place lists c pc)
    (going : ∃ c', k.currentThread = some c' ∧ ((s.store k).goto c pc).Going lists c')
    (spares : pc.Spares) (new : pc.newNode = none) (hand : pc.hand = some node) :
    ((s.store k).goto c pc).Sound lists := by
  have held := sound.toLockHeld.go next fun back => by rw [back] at inHand; cases inHand
  exact sound.calm other held rfl rfl rfl rfl same (fun _ _ => Iff.rfl)
    (fun _ => place_same place rfl same.heads same.nexts same.tids same.statuses same.bitmaps) going
    spares (.inl new) (.inr ⟨rfl, hand.trans inHand.symm⟩)

theorem fix (sound : s.Sound lists) (current : s.kernel.currentThread = some c)
    (other : c ≠ s.cleaner) {move : Move} {tid : Nat} {node : Ptr} (place : s.pc c = .fix move tid node)
    (next : s.go c = some t) : t.Sound lists := by
  have mine : s.holder = some c := (sound.holder c).1 (by rw [place]; trivial)
  have here := sound.place c mine
  rw [place] at here
  obtain ⟨loose, notWake, isTid⟩ := here
  obtain ⟨behind, hand, new, spares⟩ := fixed_spec tid node notWake
  obtain ⟨noFix, isOwn⟩ := sound.own_iff current place loose isTid
  have run := next
  simp only [Cpu.go, place, Option.some.injEq] at run
  rcases isOwn with ⟨own, self, successor⟩ | ⟨notOwn, running⟩
  · rw [if_pos own] at run
    subst self
    have lists' : SameLists { s.kernel with fixNextThread := (s.kernel.mem node).next } s.kernel :=
      ⟨rfl, fun _ => rfl, fun _ => rfl, fun _ => rfl, rfl, rfl⟩
    cases link : (s.kernel.mem node).next with
    | none =>
        rw [if_pos link] at run
        subst run
        refine sound.moves other (by rw [place]; rfl) lists' next
          ⟨loose, notWake, isTid, rfl⟩ ⟨node, current, ?_⟩ trivial rfl rfl
        have fixed : (s.store { s.kernel with fixNextThread := (s.kernel.mem node).next }).kernel.fixNextThread
            = none := link
        unfold Going
        simp only [goto, fixed, Function.update_self]
        exact .inr ⟨⟨move, tid, .inr rfl⟩, successor⟩
    | some f =>
        rw [if_neg (by rw [link]; simp)] at run
        subst run
        refine sound.moves other (by rw [place]; rfl) lists' next
          (place_fixed loose notWake isTid) ⟨node, current, ?_⟩ spares new hand
        have fixed : (s.store { s.kernel with fixNextThread := (s.kernel.mem node).next }).kernel.fixNextThread
            = some f := link
        unfold Going
        simp only [goto, fixed, Function.update_self, behind]
        exact ⟨successor f link, .inl own⟩
  · rw [if_neg (by rw [notOwn]; decide)] at run
    subst run
    exact sound.moves (k := s.kernel) other (by rw [place]; rfl)
      (SameLists.refl _) next (place_fixed loose notWake isTid)
      ⟨c, current, going_of_running noFix running⟩ spares new hand

theorem fixHead (sound : s.Sound lists) (current : s.kernel.currentThread = some c)
    (other : c ≠ s.cleaner) {move : Move} {tid : Nat} {node : Ptr}
    (place : s.pc c = .fixHead move tid node) (next : s.go c = some t) : t.Sound lists := by
  have mine : s.holder = some c := (sound.holder c).1 (by rw [place]; trivial)
  have here := sound.place c mine
  rw [place] at here
  obtain ⟨loose, notWake, isTid, rfl⟩ := here
  obtain ⟨behind, hand, new, spares⟩ := fixed_spec tid node notWake
  have run := next
  simp only [Cpu.go, place, Option.some.injEq] at run
  subst run
  refine sound.moves other (by rw [place]; rfl)
    ⟨rfl, fun _ => rfl, fun _ => rfl, fun _ => rfl, rfl, rfl⟩ next (place_fixed loose notWake isTid)
    ⟨node, current, ?_⟩ spares new hand
  -- the cleaner keeps RUNNING from being empty
  have head := (sound.shape.chain .running).head_eq
  have some_ := sound.shape.running
  cases nodes : lists .running with
  | nil =>
      rw [nodes] at some_
      cases some_
  | cons first rest =>
      rw [nodes] at head
      have fixed : (s.store { s.kernel with fixNextThread := s.kernel.threadHead .running
          }).kernel.fixNextThread = some first := head
      unfold Going
      simp only [goto, fixed, Function.update_self, behind, nodes]
      exact ⟨List.mem_cons_self, .inl (by simp [own, store, isTid])⟩

theorem giveRef (sound : s.Sound lists) (current : s.kernel.currentThread = some c)
    (other : c ≠ s.cleaner) {tid : Nat} {node : Ptr} (place : s.pc c = .giveRef tid node)
    (next : s.go c = some t) : t.Sound lists := by
  have mine : s.holder = some c := (sound.holder c).1 (by rw [place]; trivial)
  have here := sound.place c mine
  rw [place] at here
  obtain ⟨loose, isTid⟩ := here
  have run := next
  simp only [Cpu.go, place, Option.some.injEq] at run
  have dropped : SameLists (s.kernel.dropRef node) s.kernel :=
    SameLists.modify _ _ _ (fun _ => rfl) (fun _ => rfl) fun _ => rfl
  have known : s.Place lists c (.setStatus .died (some tid) node) := by
    refine ⟨loose, by decide, fun compared same => ?_⟩
    cases same
    exact isTid
  have goes : ∀ k : Kernel, SameLists k s.kernel → k.currentThread = s.kernel.currentThread →
      k.fixNextThread = s.kernel.fixNextThread → ∃ c', k.currentThread = some c' ∧
        ((s.store k).goto c (.setStatus .died (some tid) node)).Going lists c' := by
    intro k same currents fixes
    refine sound.going_on (t := (s.store k).goto c (.setStatus .died (some tid) node)) current currents
      fixes (by rw [place]; intros; simp) fun still => ?_
    rw [place] at still
    simpa [goto, store, Pc.behindFix, own, same.tids] using still
  split at run
  · subst run
    exact sound.moves other (by rw [place]; rfl) dropped next known
      (goes _ dropped rfl rfl) trivial rfl rfl
  · subst run
    exact sound.moves (k := s.kernel) other (by rw [place]; rfl)
      (SameLists.refl _) next known (goes s.kernel (SameLists.refl _) rfl rfl) trivial rfl rfl

/-- What the last stores of a move know of the node they are about. -/
theorem outside (sound : s.Sound lists) {dest : ThreadStatus} {self : Option Nat} {node : Ptr}
    (place : s.pc c = .setNext dest self node)
    (facts : if dest = .ready then s.FreshTid (s.kernel.mem node).tid ∧ self = none
      else s.Loose lists node ∧ ∀ tid ∈ self, (s.kernel.mem node).tid = tid) (st : ThreadStatus) :
    node ∉ lists st := by
  by_cases ready : dest = .ready
  · subst ready
    intro member
    exact (sound.pending c node (by rw [place]; rfl)).2 (sound.shape.members st node member)
  · rw [if_neg ready] at facts
    exact facts.1.loose st

theorem setStatus (sound : s.Sound lists) (current : s.kernel.currentThread = some c)
    (other : c ≠ s.cleaner) {dest : ThreadStatus} {self : Option Nat} {node : Ptr}
    (place : s.pc c = .setStatus dest self node) (next : s.go c = some t) : t.Sound lists := by
  have mine : s.holder = some c := (sound.holder c).1 (by rw [place]; trivial)
  have here := sound.place c mine
  rw [place] at here
  obtain ⟨loose, notReady, isTid⟩ := here
  have held := sound.toLockHeld.go next (by rw [place]; exact Pc.noConfusion)
  have run := next
  simp only [Cpu.go, place, Option.some.injEq] at run
  subst run
  have tids : ∀ p, ((s.kernel.modify node fun t => { t with status := dest }).mem p).tid =
      (s.kernel.mem p).tid := by
    intro p
    simp only [modify_mem]
    split <;> simp_all
  have inHand : Pc.hand (.setNext dest self node) = some node := by simp [Pc.hand, notReady]
  refine sound.privately other mine held (fun p apart => .inl (by simp [apart])) rfl
    ?_ (fun p _ => tids p) (fun p _ => ?_) (fun _ bit => bit)
    (fun n member => .inl member) ?_ ?_ (by simp [Pc.Spares]) (.inl ?_) fun p hand => ?_
  · rintro p ⟨st, listed⟩
    have apart : p ≠ node := fun same => loose.loose st (same ▸ listed)
    simp [Kernel.next, apart]
  · by_cases same : p = node
    · exact .inl (by simp [inHand, same])
    · exact .inr (by simp [same])
  · simp only [Function.update_self, Place, if_neg notReady]
    refine ⟨by simp, ⟨loose.member, loose.loose⟩, fun compared same => ?_⟩
    rw [← isTid compared same]
    exact tids node
  · refine sound.going_on (t := (s.store (s.kernel.modify node fun t =>
      { t with status := dest })).goto c (.setNext dest self node)) current rfl rfl
      (by rw [place]; intros; simp) fun still => ?_
    rw [place] at still
    rw [goto_pc, own_eq (by simpa using tids c)]
    simpa [Pc.behindFix] using still
  · simp only [Function.update_self]
    cases dest <;> first | rfl | exact (notReady rfl).elim
  · rw [place] at hand
    simp only [Function.update_self, inHand]
    exact hand

theorem setNext (sound : s.Sound lists) (current : s.kernel.currentThread = some c)
    (other : c ≠ s.cleaner) {dest : ThreadStatus} {self : Option Nat} {node : Ptr}
    (place : s.pc c = .setNext dest self node) (next : s.go c = some t) : t.Sound lists := by
  have mine : s.holder = some c := (sound.holder c).1 (by rw [place]; trivial)
  have here := sound.place c mine
  rw [place] at here
  obtain ⟨status, facts⟩ := here
  have outside := sound.outside place facts
  have held := sound.toLockHeld.go next (by rw [place]; exact Pc.noConfusion)
  have run := next
  simp only [Cpu.go, place, Option.some.injEq] at run
  subst run
  have tids : ∀ p, ((s.kernel.modify node fun t =>
      { t with next := s.kernel.threadHead dest }).mem p).tid = (s.kernel.mem p).tid := by
    intro p
    simp only [modify_mem]
    split <;> simp_all
  have statuses : ∀ p, ((s.kernel.modify node fun t =>
      { t with next := s.kernel.threadHead dest }).mem p).status = (s.kernel.mem p).status := by
    intro p
    simp only [modify_mem]
    split <;> simp_all
  refine sound.privately other mine held (fun p apart => .inl (by simp [apart])) rfl
    ?_ (fun p _ => tids p) (fun p _ => .inr (statuses p))
    (fun _ bit => bit) (fun n member => .inl member) ?_ ?_ (by simp [Pc.Spares]) (.inr ?_)
    fun p hand => ?_
  · rintro p ⟨st, listed⟩
    refine ⟨?_, statuses p⟩
    have apart : p ≠ node := fun same => outside st (same ▸ listed)
    simp [Kernel.next, apart]
  · simp only [Function.update_self, Place]
    refine ⟨(statuses node).trans status, by simp [Kernel.next], ?_⟩
    by_cases ready : dest = .ready
    · rw [if_pos ready] at facts ⊢
      refine ⟨⟨?_, fun p member => ?_⟩, facts.2⟩
      · have bit := facts.1.bit
        rw [← tids node] at bit
        exact bit
      · have fresh := facts.1.fresh p member
        rw [← tids p, ← tids node] at fresh
        exact fresh
    · rw [if_neg ready] at facts ⊢
      refine ⟨⟨facts.1.member, facts.1.loose⟩, fun compared same => ?_⟩
      rw [← facts.2 compared same]
      exact tids node
  · refine sound.going_on (t := (s.store (s.kernel.modify node fun t =>
      { t with next := s.kernel.threadHead dest })).goto c (.setHead dest self node)) current rfl rfl
      (by rw [place]; intros; simp) fun still => ?_
    rw [place] at still
    rw [goto_pc, own_eq (by simpa using tids c)]
    simpa [Pc.behindFix] using still
  · rw [place]
    simp only [Function.update_self]
    cases dest <;> rfl
  · rw [place] at hand
    simp only [Function.update_self]
    exact hand

end Sound

end Cpu

end TestOs.Threads
