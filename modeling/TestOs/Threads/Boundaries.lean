/-
# Threads.Boundaries -- the lists at every statement boundary

`Sound.step` collects the statements of the threads and of the cleaner, and
`Sound.of_path` is the invariant of all careful runs from between operations, as
`startThread_booted` finds them.
-/
import TestOs.Threads.Statements

namespace TestOs.Threads

open TestOs.Library Kernel

set_option autoImplicit false

namespace Cpu

namespace Sound

variable {s t : Cpu} {lists lists' : ThreadStatus → List Ptr} {c : Ptr}

/-! ## All statements -/

/-- The interrupt flag is not about the lists. -/
theorem flag (sound : s.Sound lists) (irq : Bool) : ({ s with irq := irq } : Cpu).Sound lists where
  holder := sound.holder
  lock := sound.lock
  shape := sound.shape
  place h holds := place_same (sound.place h holds) rfl rfl (fun _ => rfl) (fun _ => rfl) (fun _ => rfl) rfl
  going := sound.going
  spares := sound.spares
  pending := sound.pending
  apart := sound.apart
  cleans := cleans_congr sound.cleans rfl (fun _ _ here => here) (fun _ member => member)
    (fun _ member => member) fun _ nobody unclaimed => ⟨nobody, unclaimed⟩
  idle := sound.idle
  kept := sound.kept

/-- A statement that leaves the lists alone. -/
theorem still (sound : s.Sound lists) (current : s.kernel.currentThread = some c)
    (other : c ≠ s.cleaner) (next : s.go c = some t) (alone : s.pc c = .comeBack → s.lock = false)
    (notHead : ∀ dest self node, s.pc c ≠ .setHead dest self node)
    (notUnlink : ∀ move tid st prev node, s.pc c ≠ .unlink move tid st prev node) :
    t.Sound lists := by
  have mine : (s.pc c).Guarded → s.holder = some c := (sound.holder c).1
  have spared := sound.spares c
  have run := next
  cases place : s.pc c <;> simp only [Cpu.go, place] at run <;> rw [place] at mine spared
  case idle => cases run
  case unlink => exact (notUnlink _ _ _ _ _ place).elim
  case setHead => exact (notHead _ _ _ place).elim
  case clear => exact sound.clear current other place next
  case pickTid => exact sound.pickTid current other place next
  case fill => exact sound.fill current other place next
  case giveBack => exact sound.giveBack current other place next
  case fix => exact sound.fix current other place next
  case fixHead => exact sound.fixHead current other place next
  case giveRef => exact sound.giveRef current other place next
  case setStatus => exact sound.setStatus current other place next
  case setNext => exact sound.setNext current other place next
  case lock call =>
      have held := sound.toLockHeld.go next (by rw [place]; exact Pc.noConfusion)
      split at run <;> cases run
      · exact sound.scheduled
      · rename_i free
        obtain ⟨fixed, running⟩ := sound.running current (by rw [place]; rfl)
          (by rw [place]; exact Pc.noConfusion) (by rw [place]; exact Pc.noConfusion)
        have nobody : s.holder = none := by simpa [free] using sound.lock
        refine sound.calm other held rfl rfl rfl rfl (SameLists.refl _) (fun h self => ?_)
          (fun _ => ?_) ⟨c, current, going_of_running fixed running⟩ ?_ ?_ (.inl (by rw [place]; rfl))
        · simp [goto, nobody, Ne.symm self]
        · cases call with
          | create new => trivial
          | find goal tid => exact .inl rfl
        · cases call with
          | create new => trivial
          | find goal tid => exact spared
        · rw [place]
          cases call with
          | create new => exact .inr rfl
          | find goal tid => exact .inl rfl
  case search goal tid st =>
      cases run
      have here := sound.place c (mine trivial)
      rw [place] at here
      exact sound.plain (k := s.kernel) current other (SameLists.refl _) rfl rfl
        (by rw [place]; exact Iff.rfl) (by rw [place]; rfl) (by rw [place]; exact Pc.noConfusion)
        (by rw [place]; exact Pc.noConfusion) (by rw [place]; rfl) rfl spared fun _ =>
        ⟨here, [], lists st, rfl, rfl, (sound.shape.chain st).head_eq⟩
  case find goal tid st prev node =>
      have here := sound.place c (mine trivial)
      rw [place] at here
      obtain ⟨search, front, rest, split, before, isHere⟩ := here
      have goes : ∀ pc : Pc, pc.Guarded → pc.newNode = none → pc.Spares → s.Place lists c pc →
          (s.goto c pc).Sound lists := fun pc guarded new spares known =>
        sound.plain (k := s.kernel) current other (SameLists.refl _) rfl rfl
          (by rw [place]; exact iff_of_true guarded trivial) (by rw [place]; rfl)
          (by rw [place]; exact Pc.noConfusion) (by rw [place]; exact Pc.noConfusion)
          (by rw [place]; rfl) new spares fun _ => known
      cases node with
      | none =>
          cases run
          cases second : goal.second with
          | none =>
              have ends : missed goal tid st = .unlock := by rw [missed, second]
              rw [ends]
              exact goes _ trivial rfl trivial trivial
          | some st' =>
              by_cases last : st = st'
              · have ends : missed goal tid st = .unlock := by
                  rw [missed, second]
                  exact if_pos last
                rw [ends]
                exact goes _ trivial rfl trivial trivial
              · have onward : missed goal tid st = .search goal tid st' := by
                  rw [missed, second]
                  exact if_neg last
                rw [onward]
                exact goes _ trivial rfl spared (.inr second)
      | some node =>
          cases run
          obtain ⟨rest', rfl⟩ : ∃ rest', rest = node :: rest' := by
            cases rest with
            | nil => cases isHere
            | cons first rest' =>
                cases isHere
                exact ⟨rest', rfl⟩
          split
          · rename_i hit
            cases goal with
            | move move =>
                refine goes _ trivial rfl (fun notWake => spared ?_) ⟨search, hit, front, rest', split, before⟩
                cases move <;> first | exact (notWake rfl).elim | rfl
            | wait => exact goes _ trivial rfl trivial trivial
          · have chain := sound.shape.chain st
            rw [split] at chain
            refine goes _ trivial rfl spared ⟨search, front ++ [node], rest', by rw [split]; simp,
              by simp, ?_⟩
            exact chain.suffix.2.head_eq
  case selfUnlock =>
      have held := sound.toLockHeld.go next (by rw [place]; exact Pc.noConfusion)
      cases run
      refine sound.released other held (.inl (mine trivial)) (by rw [place]; rfl) rfl trivial current ?_
      obtain ⟨c', current', going⟩ := sound.going_on (t := s.release.goto c .selfYield) current rfl rfl
        (by rw [place]; intros; simp) fun _ => .inr (.inr (goto_pc ..))
      obtain rfl : c = c' := Option.some.inj (current.symm.trans current')
      exact going
  case selfYield =>
      cases run
      have moved : (s.goto c .comeBack).LockHeld :=
        sound.toLockHeld.move (k := s.kernel) (by rw [place]; exact Iff.rfl)
      obtain ⟨f, running, current', fixed⟩ := sound.schedule_current
      exact sound.scheduled.calm other (moved.congr rfl rfl rfl) rfl rfl rfl rfl (SameLists.refl _)
        (fun _ _ => Iff.rfl) (fun _ => trivial) ⟨f, current', going_of_running fixed running⟩ trivial
        (.inl rfl) (.inl (by simp only [schedule]; rw [place]; rfl))
  case comeBack =>
      cases run
      obtain ⟨fixed, running⟩ := sound.running current (by rw [place]; rfl)
        (by rw [place]; exact Pc.noConfusion) (by rw [place]; exact Pc.noConfusion)
      have nobody : s.holder = none := by simpa [alone place] using sound.lock
      have moved : ((s.store s.kernel).goto c .idle).LockHeld :=
        sound.toLockHeld.move (by rw [place]; exact Iff.rfl)
      exact sound.released other (moved.congr rfl nobody.symm (alone place).symm) (.inr nobody)
        (by rw [place]; rfl) rfl trivial current (going_of_running fixed running)
  case unlock =>
      have held := sound.toLockHeld.go next (by rw [place]; exact Pc.noConfusion)
      cases run
      obtain ⟨fixed, running⟩ := sound.running current (by rw [place]; rfl)
        (by rw [place]; exact Pc.noConfusion) (by rw [place]; exact Pc.noConfusion)
      exact sound.released other held (.inl (mine trivial)) (by rw [place]; rfl) rfl trivial current
        (going_of_running fixed running)
  case takeRef node =>
      cases run
      exact sound.plain current other
        (SameLists.modify _ _ _ (fun _ => rfl) (fun _ => rfl) fun _ => rfl) rfl rfl
        (by rw [place]; exact Iff.rfl) (by rw [place]; rfl) (by rw [place]; exact Pc.noConfusion)
        (by rw [place]; exact Pc.noConfusion) (by rw [place]; rfl) rfl trivial fun _ => trivial
  case waitUnlock node =>
      have held := sound.toLockHeld.go next (by rw [place]; exact Pc.noConfusion)
      cases run
      obtain ⟨fixed, running⟩ := sound.running current (by rw [place]; rfl)
        (by rw [place]; exact Pc.noConfusion) (by rw [place]; exact Pc.noConfusion)
      have released := sound.released other (held.congr rfl rfl rfl)
        (.inl (mine trivial)) (by rw [place]; rfl) rfl trivial current (going_of_running fixed running)
      exact released.flag true
  case poll node =>
      split at run
      · cases run
        exact sound.scheduled
      · cases run
        exact sound.plain (k := s.kernel) current other (SameLists.refl _) rfl rfl
          (by rw [place]; exact Iff.rfl) (by rw [place]; rfl) (by rw [place]; exact Pc.noConfusion)
          (by rw [place]; exact Pc.noConfusion) (by rw [place]; rfl) rfl trivial fun _ => trivial
  case dropRef node =>
      cases run
      exact sound.plain current other
        (SameLists.modify _ _ _ (fun _ => rfl) (fun _ => rfl) fun _ => rfl) rfl rfl
        (by rw [place]; exact Iff.rfl) (by rw [place]; rfl) (by rw [place]; exact Pc.noConfusion)
        (by rw [place]; exact Pc.noConfusion) (by rw [place]; rfl) rfl trivial fun _ => trivial

/-- One statement of a thread. -/
theorem go (sound : s.Sound lists) (current : s.kernel.currentThread = some c)
    (other : c ≠ s.cleaner) (next : s.go c = some t) (alone : s.pc c = .comeBack → s.lock = false) :
    ∃ lists', t.Sound lists' ∧ s.Changes c lists lists' := by
  by_cases unlinks : ∃ move tid st prev node, s.pc c = .unlink move tid st prev node
  · obtain ⟨move, tid, st, prev, node, place⟩ := unlinks
    obtain ⟨lists', after, died⟩ := sound.unlinked current other place next
    exact ⟨lists', after, .inl ((sound.holder c).1 (by rw [place]; trivial)), .inl died⟩
  · by_cases links : ∃ dest self node, s.pc c = .setHead dest self node
    · obtain ⟨dest, self, node, place⟩ := links
      obtain ⟨lists', after, died⟩ := sound.linked current other place next
      refine ⟨lists', after, .inl ((sound.holder c).1 (by rw [place]; trivial)), ?_⟩
      by_cases isDied : dest = .died
      · subst isDied
        rw [if_pos rfl] at died
        exact .inr ⟨self, node, place, died⟩
      · rw [if_neg isDied] at died
        exact .inl died
    · refine ⟨lists, sound.still current other next alone ?_ ?_, .inr rfl, .inl rfl⟩
      · exact fun dest self node place => links ⟨dest, self, node, place⟩
      · exact fun move tid st prev node place => unlinks ⟨move, tid, st, prev, node, place⟩

/-! ## The cleaner -/

/-- The cleaner has moved on. -/
theorem cleaned (sound : s.Sound lists) {cleaning : Cleaning} (cleans : s.Cleans lists cleaning) :
    ({ s with cleaning := cleaning } : Cpu).Sound lists where
  holder := sound.holder
  lock := sound.lock
  shape := sound.shape
  place h holds := place_same (sound.place h holds) rfl rfl (fun _ => rfl) (fun _ => rfl) (fun _ => rfl) rfl
  going := sound.going
  spares := sound.spares
  pending := sound.pending
  apart := sound.apart
  cleans := by
    cases cleaning <;> exact cleans
  idle := sound.idle
  kept := sound.kept

/-- The cleaner gives memory back that is nobody's. -/
theorem freeing (sound : s.Sound lists) {prev here : Option Ptr} {node : Ptr}
    (place : s.cleaning = .free prev node here) : s.clean.Sound lists := by
  have cleans := sound.cleans
  rw [place] at cleans
  obtain ⟨position, memory, nobody, unclaimed⟩ := cleans
  simp only [clean, place]
  exact
    { holder := sound.holder
      lock := sound.lock
      shape := sound.shape.congr rfl (fun _ _ => rfl) (fun _ _ => rfl) (fun _ _ => rfl) (fun _ _ bit => bit)
        fun p member => Finset.mem_erase.2 ⟨fun same => nobody (same ▸ member),
          sound.shape.allocated member⟩
      place := fun h holds => place_same (sound.place h holds) rfl rfl (fun _ => rfl) (fun _ => rfl)
        (fun _ => rfl) rfl
      going := sound.going
      spares := sound.spares
      pending := fun p n new => ⟨Finset.mem_erase.2 ⟨fun same => unclaimed p (same ▸ new),
        (sound.pending p n new).1⟩, (sound.pending p n new).2⟩
      apart := sound.apart
      cleans := position
      idle := sound.idle
      kept := sound.kept }

/-- The cleaner takes a node off DIED, and its tid with it. -/
theorem reaping (sound : s.Sound lists) (current : s.kernel.currentThread = some s.cleaner)
    {prev : Option Ptr} {node : Ptr} (place : s.cleaning = .reap prev node)
    (apart : prev = none → ¬ s.Pushing) :
    ∃ lists', s.clean.Sound lists' ∧ (∀ st, st ≠ .died → lists' st = lists st) ∧
      ∃ front rest, lists .died = front ++ node :: rest ∧
        lists' .died = if prev = none then rest else front ++ rest := by
  have cleans := sound.cleans
  rw [place] at cleans
  obtain ⟨front, rest', split, isHere, before⟩ := cleans
  obtain ⟨rest, rfl⟩ : ∃ rest, rest' = node :: rest := by
    cases rest' with
    | nil => cases isHere
    | cons first rest =>
        cases isHere
        exact ⟨rest, rfl⟩
  have listed : node ∈ lists .died := by rw [split]; simp
  have member := sound.shape.members .died node listed
  obtain ⟨fixed, running⟩ := sound.running current (by rw [sound.idle]; rfl)
    (by rw [sound.idle]; exact Pc.noConfusion) (by rw [sound.idle]; exact Pc.noConfusion)
  have notCleaner : node ≠ s.cleaner := by
    rintro rfl
    exact absurd (sound.shape.disjoint running listed) (by decide)
  obtain ⟨died, isDied⟩ : ∃ died, died = if prev = none then rest else front ++ rest := ⟨_, rfl⟩
  have fewer : ∀ p ∈ died, p ∈ lists .died ∧ p ≠ node := by
    intro p inside
    have distinct := (sound.shape.chain .died).nodup
    rw [split] at distinct ⊢
    have inOthers : p ∈ front ++ rest := by
      rw [isDied] at inside
      split at inside
      · exact List.mem_append_right _ inside
      · exact inside
    have once := List.nodup_cons.1 (List.nodup_middle.1 distinct)
    refine ⟨?_, fun same => once.1 (same ▸ inOthers)⟩
    simp only [List.mem_append, List.mem_cons] at inOthers ⊢
    tauto
  have others : ∀ st, st ≠ .died → Function.update lists .died died st = lists st :=
    fun st apart => Function.update_of_ne apart _ _
  have subset : ∀ st p, p ∈ Function.update lists .died died st → p ∈ lists st ∧ p ≠ node := by
    intro st p inside
    by_cases same : st = .died
    · subst same
      rw [Function.update_self] at inside
      exact fewer p inside
    · rw [others st same] at inside
      refine ⟨inside, fun isNode => same ?_⟩
      exact sound.shape.disjoint (isNode ▸ inside) listed
  have linked : Linked (s.kernel.unlink .died prev node) (Function.update lists .died died) := by
    cases prev with
    | none =>
        rw [isDied, if_pos rfl]
        exact sound.shape.toLinked.cut split
    | some q =>
        rw [isDied, if_neg (by simp)]
        rcases before with none_ | last
        · cases none_
        · rw [last]
          exact sound.shape.toLinked.unlink split
  have unlinked := sound.shape.shrink linked (fun st p inside => (subset st p inside).1)
    (by rw [others _ (by decide)]; exact running) (fun p => unlink_tid ..) (unlink_bitmap ..)
    (unlink_allocated ..)
  have shape : Shape ((s.kernel.unlink .died prev node).setTidWord
      ((s.kernel.mem node).tid / tidBitNr)
      ((s.kernel.unlink .died prev node).tidBitmap ((s.kernel.mem node).tid / tidBitNr) &&&
        ~~~(BitVec.twoPow 32 ((s.kernel.mem node).tid % tidBitNr)))) (s.threads.erase node) s.cleaner
      (Function.update lists .died died) :=
    unlinked.reap member (fun st inside => (subset st node inside).2 rfl) rfl rfl
      (fun tid => by rw [unlink_tid]; exact tidBit_clear _ tid) rfl
  -- nobody else's statement is about the nodes of DIED
  have nexts : ∀ p, (∀ q ∈ prev, q ≠ p) →
      (s.kernel.unlink .died prev node).next p = s.kernel.next p := by
    intro p apart
    refine s.kernel.unlink_next .died prev node p ?_
    rintro rfl
    exact apart p rfl rfl
  have prevDied : ∀ q ∈ prev, q ∈ lists .died := by
    rintro q rfl
    rcases before with none_ | last
    · cases none_
    · rw [split]
      exact List.mem_append_left _ (List.mem_of_getLast? last.symm)
  refine ⟨Function.update lists .died died, ?_, others, front, rest, split, by
    rw [Function.update_self, isDied]⟩
  simp only [clean, place]
  refine
    { holder := sound.holder
      lock := sound.lock
      shape := shape
      place := fun h holds => ?_
      going := ⟨s.cleaner, by simpa [setTidWord] using current, ?_⟩
      spares := sound.spares
      pending := fun p n new => ⟨?_, fun inside => (sound.pending p n new).2
        (Finset.mem_of_mem_erase inside)⟩
      apart := sound.apart
      cleans := ⟨?_, ?_, Finset.notMem_erase _ _, fun p new => (sound.pending p node new).2 member⟩
      idle := sound.idle
      kept := fun p inside => ?_ }
  · refine place_congr (sound.place h holds) others (fun p loose => ⟨?_, fun st inside =>
      loose.loose st (subset st p inside).1⟩) (fun tid fresh => ⟨?_, fun p inside => ?_⟩)
      (fun p => unlink_tid ..) (fun p => unlink_status ..) fun dest self n isHead link => ?_
    · exact Finset.mem_erase.2 ⟨fun same => loose.loose .died (same ▸ listed), loose.member⟩
    · exact (tidBit_clear _ tid).2 ⟨by simpa [tidBit] using fresh.bit,
        fun same => fresh.fresh node member same.symm⟩
    · have other := fresh.fresh p (Finset.mem_of_mem_erase inside)
      simpa [setTidWord] using other
    · have known := sound.place h holds
      rw [isHead] at known
      have loose : n ∉ lists .died := by
        by_cases ready : dest = .ready
        · subst ready
          exact fun inside => (sound.pending h n (by rw [isHead]; rfl)).2
            (sound.shape.members .died n inside)
        · obtain ⟨-, -, facts⟩ := known
          rw [if_neg ready] at facts
          exact facts.1.loose .died
      have head : (s.kernel.unlink .died prev node).threadHead dest = s.kernel.threadHead dest := by
        cases prev with
        | none =>
            have other : dest ≠ .died := by
              rintro rfl
              exact apart rfl ⟨h, self, n, isHead⟩
            simp [Kernel.unlink, other]
        | some q => rfl
      have next := nexts n fun q isPrev same => loose (same ▸ prevDied q isPrev)
      simp only [setTidWord]
      exact next.trans (link.trans head.symm)
  · have noFix : ((s.kernel.unlink .died prev node).setTidWord ((s.kernel.mem node).tid / tidBitNr)
        ((s.kernel.unlink .died prev node).tidBitmap ((s.kernel.mem node).tid / tidBitNr) &&&
          ~~~(BitVec.twoPow 32 ((s.kernel.mem node).tid % tidBitNr)))).fixNextThread = none := by
      simpa [setTidWord] using fixed
    exact going_of_running noFix (by rw [others _ (by decide)]; exact running)
  · simpa [setTidWord] using (sound.pending p n new).1
  · have chain := sound.shape.chain .died
    rw [split] at chain
    refine ⟨if prev = none then [] else front, rest, ?_, chain.suffix.2.head_eq, ?_⟩
    · rw [Function.update_self, isDied]
      split <;> rfl
    · rcases before with none_ | last
      · exact .inl none_
      · by_cases none_ : prev = none
        · exact .inl none_
        · rw [if_neg none_]
          exact .inr last
  · simpa [setTidWord] using sound.shape.allocated member
  · rcases sound.kept p (Finset.mem_of_mem_erase inside) with ⟨st, here⟩ | inHand | dead
    · by_cases same : st = .died
      · subst same
        exact .inr (.inr (by simpa [setTidWord] using sound.shape.status .died p here))
      · exact .inl ⟨st, by rw [others st same]; exact here⟩
    · exact .inr (.inl inHand)
    · exact .inr (.inr (by simpa [setTidWord] using dead))

/-! ## Steps and runs -/

/-- The statements of the cleaner outside of its `cli` block leave the lists alone. -/
theorem cleansOn (sound : s.Sound lists) (outside : ∀ prev node, s.cleaning ≠ .reap prev node) :
    s.clean.Sound lists := by
  have cleans := sound.cleans
  cases place : s.cleaning with
  | scan =>
      rw [show s.clean = { s with cleaning := .visit none (s.kernel.threadHead .died) } by
        simp only [clean, place]]
      refine sound.cleaned ?_
      exact ⟨[], lists .died, rfl, (sound.shape.chain .died).head_eq, .inl rfl⟩
  | visit prev node =>
      rw [place] at cleans
      cases node with
      | none =>
          rw [show s.clean = { s.schedule with cleaning := .scan } by simp only [clean, place]]
          exact sound.scheduled.cleaned trivial
      | some node =>
          have moved : s.clean = { s with cleaning :=
              (if (s.kernel.mem node).ref = 0 then .reap prev node else .advance node) } := by
            simp only [clean, place]
          rw [moved]
          refine sound.cleaned ?_
          split
          · exact cleans
          · obtain ⟨front, rest, split, here, -⟩ := cleans
            have inRest := List.mem_of_head? here.symm
            show node ∈ lists .died
            rw [split]
            exact List.mem_append_right _ inRest
  | advance node =>
      rw [place] at cleans
      rw [show s.clean = { s with cleaning := .visit (some node) (s.kernel.mem node).next } by
        simp only [clean, place]]
      refine sound.cleaned ?_
      obtain ⟨front, rest, split⟩ := List.append_of_mem cleans
      have chain := sound.shape.chain .died
      rw [split] at chain
      exact ⟨front ++ [node], rest, by rw [split]; simp, chain.suffix.2.head_eq, .inr (by simp)⟩
  | reap prev node => exact (outside prev node place).elim
  | free prev node next => exact sound.freeing place

/-- One statement of the cleaner. -/
theorem cleanerStep (sound : s.Sound lists) (current : s.kernel.currentThread = some s.cleaner)
    (careful : s.Careful .go) :
    ∃ lists', s.clean.Sound lists' ∧ ∀ st, st ≠ .died → lists' st = lists st := by
  by_cases reaps : ∃ prev node, s.cleaning = .reap prev node
  · obtain ⟨prev, node, place⟩ := reaps
    obtain ⟨lists', after, others, -⟩ := sound.reaping current place fun head =>
      careful.apart ⟨rfl, current, node, head ▸ place⟩
    exact ⟨lists', after, others⟩
  · exact ⟨lists, sound.cleansOn fun prev node place => reaps ⟨prev, node, place⟩, fun _ _ => rfl⟩

/-- A call of `thread_create`, with memory that was free. -/
theorem called (sound : s.Sound lists) {node : Ptr} {name : Option (List Char)}
    {handler params : Nat} (calls : s.Calls c) (free : node ∉ s.kernel.allocated) :
    ((s.store { s.kernel with allocated := insert node s.kernel.allocated }).goto c
      (.lock (.create ⟨node, name, handler, params⟩))).Sound lists := by
  obtain ⟨fixed, running⟩ := sound.running calls.current (by rw [calls.idle]; rfl)
    (by rw [calls.idle]; exact Pc.noConfusion) (by rw [calls.idle]; exact Pc.noConfusion)
  refine sound.stepped calls.other
    (sound.toLockHeld.move (by rw [calls.idle]; exact Iff.rfl))
    (fun p self => .inl (goto_pc_of_ne _ _ _ _ self)) rfl ?_ (fun h holds => ?_)
    ⟨c, calls.current, going_of_running fixed running⟩ (by rw [goto_pc]; trivial)
    (fun p n pending _ => ⟨Finset.mem_insert_of_mem (sound.pending p n pending).1,
      (sound.pending p n pending).2⟩) (fun n new => ?_) ?_ fun p member => ?_
  · exact sound.shape.congr rfl (fun _ _ => rfl) (fun _ _ => rfl) (fun _ _ => rfl) (fun _ _ bit => bit)
      (sound.shape.allocated.trans (Finset.subset_insert _ _))
  · have apart : h ≠ c := by
      rintro rfl
      have guarded := (sound.holder h).2 holds
      rw [calls.idle] at guarded
      exact guarded
    rw [goto_pc_of_ne _ _ _ _ apart]
    exact place_same (sound.place h holds) rfl rfl (fun _ => rfl) (fun _ => rfl) (fun _ => rfl) rfl
  · rw [goto_pc] at new
    cases new
    refine ⟨Finset.mem_insert_self _ _, fun member => free (sound.shape.allocated member), ?_⟩
    exact fun p _ pending => free (sound.pending p _ pending).1
  · have before := sound.cleans
    show Cleans _ lists s.cleaning
    cases where_ : s.cleaning <;> rw [where_] at before <;> try exact before
    case free prev freed next' =>
        obtain ⟨here, memory, nobody, unclaimed⟩ := before
        refine ⟨here, Finset.mem_insert_of_mem memory, nobody, fun p pending => ?_⟩
        by_cases self : p = c
        · rw [self, goto_pc] at pending
          cases pending
          exact free memory
        · rw [goto_pc_of_ne _ _ _ _ self] at pending
          exact unclaimed p pending
  · rcases sound.kept p member with listed | ⟨h, holds, inHand⟩ | dead
    · exact .inl listed
    · refine .inr (.inl ⟨h, holds, ?_⟩)
      have apart : h ≠ c := by
        rintro rfl
        rw [calls.idle] at inHand
        cases inHand
      rw [goto_pc_of_ne _ _ _ _ apart]
      exact inHand
    · exact .inr (.inr dead)

/-- A call of a function that looks a thread up. -/
theorem asked (sound : s.Sound lists) {goal : Goal} {tid : Nat} (calls : s.Calls c)
    (spared : goal.spares → tid ≠ 0) : (s.goto c (.lock (.find goal tid))).Sound lists := by
  obtain ⟨current, other, idle⟩ := calls
  exact sound.plain (k := s.kernel) current other (SameLists.refl _) rfl rfl
    (by rw [idle]; exact Iff.rfl) (by rw [idle]; rfl) (by rw [idle]; exact Pc.noConfusion)
    (by rw [idle]; exact Pc.noConfusion) (by rw [idle]; rfl) rfl spared fun _ => trivial

/-- Every careful step keeps the lists well formed. -/
theorem step (sound : s.Sound lists) {act : Act} (next : s.step act = some t)
    (careful : s.Careful act) : ∃ lists', t.Sound lists' := by
  cases act with
  | go =>
      simp only [Cpu.step] at next
      cases current : s.kernel.currentThread with
      | none =>
          rw [current] at next
          cases next
      | some c =>
          rw [current] at next
          by_cases isCleaner : c = s.cleaner
          · simp only [if_pos isCleaner, Option.some.injEq] at next
            subst next
            obtain ⟨lists', after, -⟩ := sound.cleanerStep (isCleaner ▸ current) careful
            exact ⟨lists', after⟩
          · simp only [if_neg isCleaner] at next
            obtain ⟨lists', after, -⟩ := sound.go current isCleaner next fun back =>
              careful.alone ⟨c, by simp [runner, current, isCleaner], back⟩
            exact ⟨lists', after⟩
  | tick =>
      simp only [Cpu.step] at next
      split at next <;> cases next
      exact ⟨lists, sound.scheduled⟩
  | create newThread name handler params =>
      rcases step_create next with rfl | ⟨c, node, caller, -, free, rfl⟩
      · exact ⟨lists, sound⟩
      · exact ⟨lists, sound.called (caller_spec caller) free⟩
  | call goal tid =>
      obtain ⟨c, caller, isNext⟩ := Option.map_eq_some_iff.1 next
      split at isNext
      · exact ⟨lists, isNext ▸ sound⟩
      · rename_i spared
        subst isNext
        exact ⟨lists, sound.asked (caller_spec caller) fun spares isZero => spared ⟨isZero, spares⟩⟩
  | cli =>
      obtain ⟨c, -, rfl⟩ := Option.map_eq_some_iff.1 next
      exact ⟨lists, sound.flag false⟩
  | sti =>
      obtain ⟨c, -, rfl⟩ := Option.map_eq_some_iff.1 next
      exact ⟨lists, sound.flag true⟩
  | yield =>
      obtain ⟨c, -, rfl⟩ := Option.map_eq_some_iff.1 next
      exact ⟨lists, sound.scheduled⟩

/-- Between operations the lists are those of `Threads.Queues`. -/
theorem of_booted (booted : s.Booted) : ∃ lists, s.Sound lists := by
  obtain ⟨quiet, ⟨lists, queues⟩, cleaner, cleanerTid⟩ := booted
  obtain ⟨p, running, isZero⟩ := queues.cleaner
  obtain rfl := queues.tids p (queues.allocated_of_mem running) s.cleaner cleaner
    (isZero.trans cleanerTid.symm)
  obtain ⟨c, isRunning, current⟩ := queues.current
  refine ⟨lists,
    { toLockHeld := .of_quiet quiet
      shape := ⟨queues.toLinked, fun st q member => ?_, ?_, ?_, ?_, running, isZero⟩
      place := fun h holds => ?_
      going := ⟨c, current, going_of_running queues.fixNext isRunning⟩
      spares := fun q => ?_
      pending := fun q n new => ?_
      apart := fun q r n new => ?_
      cleans := ?_
      idle := quiet.pc _
      kept := fun q member => .inl ((queues.listed q).1 (quiet.threads ▸ member)) }⟩
  · rw [quiet.threads]
    exact queues.allocated_of_mem member
  · rw [quiet.threads]
  · rw [quiet.threads]
    exact queues.tids
  · intro q member
    exact (queues.bitmap _).2 ⟨q, quiet.threads ▸ member, rfl⟩
  · rw [quiet.holder] at holds
    cases holds
  · rw [quiet.pc]
    trivial
  · rw [quiet.pc] at new
    cases new
  · rw [quiet.pc] at new
    cases new
  · rw [quiet.cleaning]
    trivial

/-- **Statements between operations.**  In every run of careful steps the lists
are well formed at every statement boundary, whoever is current. -/
theorem of_path {steps : List (Cpu × Act × Cpu)} (booted : s.Booted)
    (path : Path Cpu.step s steps t)
    (careful : ∀ u act v, (u, act, v) ∈ steps → u.Careful act) : ∃ lists, t.Sound lists :=
  path.invariant (fun u => ∃ lists, u.Sound lists) (of_booted booted)
    fun u act v taken ⟨_, sound⟩ next => sound.step next (careful u act v taken)

end Sound

/-- One thread of `start_thread`. -/
theorem startThread_node {k k' : Kernel} {lists : ThreadStatus → List Ptr} {node : Ptr}
    (queues : Queues k lists) (free : node ∉ k.allocated)
    (run : (match k.threadCreate (some node) none 0 0 with
      | (some tid, k) => k.threadWake tid
      | (none, k) => some k) = some k') :
    (∃ lists', Queues k' lists') ∧ k.allocated ⊆ k'.allocated ∧
      (∀ p ∈ k'.allocated, p ∈ k.allocated ∨ p = node) ∧
      ∀ p ∈ k.allocated, (k'.mem p).tid = (k.mem p).tid := by
  obtain ⟨created, same, memory⟩ := queues.threadCreate (some node) none 0 0 fun p isNode =>
    Option.some.inj isNode ▸ free
  generalize k.threadCreate (some node) none 0 0 = result at run created same memory
  obtain ⟨made, k₁⟩ := result
  have woken : (∃ lists', Queues k' lists') ∧ k'.allocated = k₁.allocated ∧
      ∀ p, (k'.mem p).tid = (k₁.mem p).tid := by
    cases made with
    | none =>
        cases run
        exact ⟨created, rfl, fun _ => rfl⟩
    | some tid =>
        obtain ⟨lists', queues'⟩ := created
        obtain ⟨k₂, woken, after, effect⟩ := queues'.threadWake tid
        cases run.symm.trans woken
        rcases effect with ⟨rfl, -⟩ | ⟨_, -, -, -, shifted, -⟩
        · exact ⟨after, rfl, fun _ => rfl⟩
        · exact ⟨after, shifted.allocated, shifted.tid⟩
  obtain ⟨after, allocations, tids⟩ := woken
  refine ⟨after, ?_, fun p inside => ?_, fun p member => by rw [tids, same p member]⟩
  · rw [allocations]
    rcases memory with unchanged | ⟨_, -, inserted, -⟩
    · exact unchanged.ge
    · rw [inserted]
      exact Finset.subset_insert _ _
  · rw [allocations] at inside
    rcases memory with unchanged | ⟨_, isNode, inserted, -⟩
    · exact .inl (unchanged ▸ inside)
    · cases isNode
      rw [inserted] at inside
      exact (Finset.mem_insert.1 inside).symm

/-- What `start_thread` leaves, once each of its threads has been created and woken. -/
theorem startThread_booted {mem : Ptr → Thread} {cleaner : Ptr} {nodes : List Ptr} {k : Kernel}
    (fresh : (cleaner :: nodes).Nodup) (started : startThread mem cleaner nodes = some k) :
    (start k cleaner).Booted := by
  obtain ⟨notThere, distinct⟩ := List.nodup_cons.1 fresh
  have first := System.boot_started mem cleaner
  have free : ∀ p ∈ nodes, p ∉ (System.boot mem cleaner).kernel.allocated := by
    intro p inside allocated
    obtain rfl := Finset.mem_singleton.1 allocated
    exact notThere inside
  have member : cleaner ∈ (System.boot mem cleaner).kernel.allocated := Finset.mem_singleton_self _
  obtain ⟨lists, queues⟩ : ∃ lists, Queues (System.boot mem cleaner).kernel lists :=
    ⟨_, first.queues⟩
  have tid := first.tid
  unfold startThread at started
  generalize (System.boot mem cleaner).kernel = k₀ at started free member queues tid
  induction nodes generalizing k₀ lists with
  | nil =>
      cases started
      exact ⟨start_quiet k cleaner, ⟨lists, queues⟩, member, tid⟩
  | cons node nodes ih =>
      rw [List.foldlM_cons] at started
      obtain ⟨k₁, one, rest⟩ := Option.bind_eq_some_iff.1 started
      obtain ⟨⟨lists', queues'⟩, keeps, grows, tids⟩ :=
        startThread_node queues (free node List.mem_cons_self) one
      obtain ⟨notLater, distinct'⟩ := List.nodup_cons.1 distinct
      have notThere' : cleaner ∉ nodes := fun inside => notThere (List.mem_cons_of_mem _ inside)
      refine ih (List.nodup_cons.2 ⟨notThere', distinct'⟩) notThere' distinct' lists' k₁
        rest (fun p inside allocated => ?_) (keeps member) queues' ((tids cleaner member).trans tid)
      rcases grows p allocated with old | isNode
      · exact free p (List.mem_cons_of_mem _ inside) old
      · exact notLater (isNode ▸ inside)

end Cpu

end TestOs.Threads
