/-
# Threads.Services -- creation, the blocking calls and the two service loops

The remaining operations, one lemma each as in `Threads.Operations`.  The loops
walk a list that they change under themselves: the cleaner frees nodes of DIED,
and the poller wakes nodes of SUSPEND through `thread_wake`.  Both inductions go
along the part of the list not yet visited, with the visited part that was left
in place as the front of the split that the next removal uses.
-/
import TestOs.Threads.Operations

namespace TestOs.Threads

open TestOs.Library Kernel

set_option autoImplicit false

variable {s : Kernel} {lists : ThreadStatus → List Ptr}

/-! ## Tid bits -/

theorem findFreeTid_spec {mapIdx bitIdx : Nat} (found : s.findFreeTid = some (mapIdx, bitIdx)) :
    mapIdx < 8 ∧ bitIdx < 32 ∧ (s.tidBitmap mapIdx).getLsbD bitIdx = false := by
  obtain ⟨m, hm, inner⟩ := List.exists_of_findSome?_eq_some found
  obtain ⟨b, hb, clear⟩ := List.exists_of_findSome?_eq_some inner
  split at clear
  · rename_i isClear
    cases clear
    exact ⟨by simpa [kernelThreadMax, tidBitNr] using hm, by simpa [tidBitNr] using hb, isClear⟩
  · cases clear

theorem tidBit_set {mapIdx bitIdx : Nat} (inMap : mapIdx < 8) (inWord : bitIdx < 32) (tid : Nat) :
    (s.setTidWord mapIdx (s.tidBitmap mapIdx ||| BitVec.twoPow 32 bitIdx)).tidBit tid = true ↔
      s.tidBit tid = true ∨ tid = mapIdx * tidBitNr + bitIdx := by
  simp only [tidBit, setTidWord, tidBitNr, kernelThreadMax, Function.update_apply]
  by_cases word : tid / 32 = mapIdx
  · have bit : bitIdx = tid % 32 ↔ tid = mapIdx * 32 + bitIdx := by omega
    have low : tid < 256 := by omega
    simp [word, low, BitVec.getLsbD_twoPow, inWord, bit]
  · have other : tid ≠ mapIdx * 32 + bitIdx := by omega
    simp [word, other]

theorem tidBit_clear (freed tid : Nat) :
    (s.setTidWord (freed / tidBitNr)
        (s.tidBitmap (freed / tidBitNr) &&& ~~~(BitVec.twoPow 32 (freed % tidBitNr)))).tidBit tid =
          true ↔ s.tidBit tid = true ∧ tid ≠ freed := by
  simp only [tidBit, setTidWord, tidBitNr, kernelThreadMax, Function.update_apply]
  by_cases word : tid / 32 = freed / 32
  · have bit : tid % 32 = freed % 32 ↔ tid = freed := by omega
    have inWord : tid % 32 < 32 := Nat.mod_lt _ (by decide)
    simp [word, inWord, bit, and_assoc]
  · have other : tid ≠ freed := by rintro rfl; exact word rfl
    simp [word, other]

/-! ## Creation -/

namespace Queues

/-- Only memory that holds no thread changed. -/
theorem congr_allocated {t : Kernel} (queues : Queues s lists)
    (mems : ∀ q ∈ s.allocated, t.mem q = s.mem q) (heads : t.threadHead = s.threadHead)
    (bitmaps : t.tidBitmap = s.tidBitmap) (allocations : t.allocated = s.allocated)
    (currents : t.currentThread = s.currentThread) (fixes : t.fixNextThread = s.fixNextThread) :
    Queues t lists where
  chain st := by
    rw [heads]
    exact (queues.chain st).congr fun q member => by
      simp only [Kernel.next, mems q (queues.allocated_of_mem member)]
  status st q member := by
    rw [mems q (queues.allocated_of_mem member)]
    exact queues.status st q member
  listed q := by rw [allocations]; exact queues.listed q
  tids q hq r hr := by
    rw [allocations] at hq hr
    rw [mems q hq, mems r hr]
    exact queues.tids q hq r hr
  bitmap tid := by
    have bits : t.tidBit tid = s.tidBit tid := by simp [tidBit, bitmaps]
    rw [bits, allocations, queues.bitmap tid]
    exact exists_congr fun q => and_congr_right fun member => by rw [mems q member]
  cleaner := by
    obtain ⟨q, member, isZero⟩ := queues.cleaner
    exact ⟨q, member, by rwa [mems q (queues.allocated_of_mem member)]⟩
  current := by rw [currents]; exact queues.current
  fixNext := fixes.trans queues.fixNext

theorem mem_insertReady {p q : Ptr} {st : ThreadStatus} :
    q ∈ Function.update lists .ready (p :: lists .ready) st ↔
      (q = p ∧ st = .ready) ∨ q ∈ lists st := by
  by_cases same : st = .ready
  · subst same
    simp
  · simp [same]

/-- A new node with an unused tid goes to the front of READY. -/
theorem insertReady {t : Kernel} {p : Ptr} (queues : Queues s lists) (new : p ∉ s.allocated)
    (unused : s.tidBit (t.mem p).tid = false) (ready : (t.mem p).status = .ready)
    (points : (t.mem p).next = s.threadHead .ready) (mems : ∀ q, q ≠ p → t.mem q = s.mem q)
    (heads : t.threadHead = Function.update s.threadHead .ready (some p))
    (bits : ∀ tid, t.tidBit tid = true ↔ s.tidBit tid = true ∨ tid = (t.mem p).tid)
    (allocations : t.allocated = insert p s.allocated)
    (currents : t.currentThread = s.currentThread) (fixes : t.fixNextThread = s.fixNextThread) :
    Queues t (Function.update lists .ready (p :: lists .ready)) := by
  have outside : ∀ st, p ∉ lists st := fun st member => new (queues.allocated_of_mem member)
  have apart : ∀ q ∈ s.allocated, q ≠ p := fun q member same => new (same ▸ member)
  have kept : ∀ q ∈ s.allocated, t.mem q = s.mem q := fun q member => mems q (apart q member)
  have newTid : ∀ q ∈ s.allocated, (s.mem q).tid ≠ (t.mem p).tid := by
    intro q member same
    have used := (queues.bitmap _).2 ⟨q, member, rfl⟩
    rw [same, unused] at used
    cases used
  refine ⟨⟨⟨fun st => ?_, fun st q member => ?_⟩, fun q => ?_, fun q hq r hr => ?_,
    fun tid => ?_, ?_⟩, ?_, fixes.trans queues.fixNext⟩
  · have others : ∀ q, q ≠ p → t.next q = s.next q := fun q other => by
      simp only [Kernel.next, mems q other]
    rw [heads]
    by_cases same : st = .ready
    · subst same
      rw [Function.update_self, Function.update_self]
      exact (queues.chain .ready).push (outside .ready) others points
    · rw [Function.update_of_ne same, Function.update_of_ne same]
      exact (queues.chain st).congr fun q member => others q fun eq => outside st (eq ▸ member)
  · rcases mem_insertReady.1 member with ⟨rfl, rfl⟩ | member
    · exact ready
    · rw [kept q (queues.allocated_of_mem member)]
      exact queues.status st q member
  · rw [allocations, Finset.mem_insert, queues.listed q]
    simp only [mem_insertReady, exists_or, exists_and_left, exists_eq, and_true]
  · rw [allocations, Finset.mem_insert] at hq hr
    rcases hq with rfl | hq <;> rcases hr with rfl | hr
    · exact fun _ => rfl
    · rw [kept r hr]
      exact fun same => absurd same.symm (newTid r hr)
    · rw [kept q hq]
      exact fun same => absurd same (newTid q hq)
    · rw [kept q hq, kept r hr]
      exact queues.tids q hq r hr
  · have same : (∃ q ∈ s.allocated, (t.mem q).tid = tid) ↔
        ∃ q ∈ s.allocated, (s.mem q).tid = tid :=
      exists_congr fun q => and_congr_right fun member => by rw [kept q member]
    rw [bits, queues.bitmap tid, allocations]
    simp only [Finset.mem_insert, exists_eq_or_imp, same]
    rw [or_comm, eq_comm]
  · obtain ⟨q, member, isZero⟩ := queues.cleaner
    exact ⟨q, mem_insertReady.2 (.inr member), by rwa [kept q (queues.allocated_of_mem member)]⟩
  · obtain ⟨q, member, isCurrent⟩ := queues.current
    exact ⟨q, mem_insertReady.2 (.inr member), currents.trans isCurrent⟩

/-- `thread_create` lists the new node as READY with a tid nobody has, or gives
the node back. -/
theorem threadCreate (queues : Queues s lists) (newThread : Option Ptr)
    (name : Option (List Char)) (handler params : Nat)
    (fresh : ∀ p, newThread = some p → p ∉ s.allocated) :
    let t := (s.threadCreate newThread name handler params).2
    (∃ lists', Queues t lists') ∧ (∀ q ∈ s.allocated, t.mem q = s.mem q) ∧
      (t.allocated = s.allocated ∨ ∃ p, newThread = some p ∧ t.allocated = insert p s.allocated ∧
        (t.mem p).status = .ready ∧ (t.mem p).ref = 0) := by
  cases newThread with
  | none => exact ⟨⟨lists, queues⟩, fun _ _ => rfl, .inl rfl⟩
  | some p =>
      have new : p ∉ s.allocated := fresh p rfl
      have apart : ∀ q ∈ s.allocated, q ≠ p := fun q member same => new (same ▸ member)
      intro t
      -- the search of the bitmap does not see the node that was just zeroed
      cases found : s.findFreeTid with
      | none =>
          have search : (({ s with allocated := insert p s.allocated } : Kernel).modify p
              fun _ => Thread.zero).findFreeTid = none := found
          have result : t = { s.modify p fun _ => Thread.zero with
              allocated := (insert p s.allocated).erase p } := by
            simp only [t, Kernel.threadCreate, search]; rfl
          have mems : ∀ q ∈ s.allocated, t.mem q = s.mem q := fun q member => by
            rw [result]
            change (s.modify p fun _ => Thread.zero).mem q = s.mem q
            rw [modify_mem, if_neg (apart q member)]
          have allocations : t.allocated = s.allocated := by
            rw [result]
            exact Finset.erase_insert new
          refine ⟨⟨lists, queues.congr_allocated mems ?_ ?_ allocations ?_ ?_⟩, mems,
            .inl allocations⟩ <;> rw [result] <;> rfl
      | some place =>
          obtain ⟨mapIdx, bitIdx⟩ := place
          obtain ⟨inMap, inWord, clear⟩ := findFreeTid_spec found
          have search : (({ s with allocated := insert p s.allocated } : Kernel).modify p
              fun _ => Thread.zero).findFreeTid = some (mapIdx, bitIdx) := found
          have node : (t.mem p).tid = mapIdx * tidBitNr + bitIdx ∧ (t.mem p).status = .ready ∧
              (t.mem p).ref = 0 ∧ (t.mem p).next = s.threadHead .ready := by
            simp only [t, Kernel.threadCreate, search]
            split <;> simp_all [setTidWord, Thread.zero]
          have mems : ∀ q, q ≠ p → t.mem q = s.mem q := by
            intro q other
            simp only [t, Kernel.threadCreate, search]
            split <;> simp [setTidWord, other]
          have rest : t.threadHead = Function.update s.threadHead .ready (some p) ∧
              t.tidBitmap =
                (s.setTidWord mapIdx (s.tidBitmap mapIdx ||| BitVec.twoPow 32 bitIdx)).tidBitmap ∧
              t.allocated = insert p s.allocated ∧ t.currentThread = s.currentThread ∧
              t.fixNextThread = s.fixNextThread := by
            simp only [t, Kernel.threadCreate, search]
            split <;> exact ⟨rfl, rfl, rfl, rfl, rfl⟩
          obtain ⟨heads, bitmaps, allocations, currents, fixes⟩ := rest
          have unused : s.tidBit (t.mem p).tid = false := by
            have word : (mapIdx * 32 + bitIdx) / 32 = mapIdx := by omega
            have bit : (mapIdx * 32 + bitIdx) % 32 = bitIdx := by omega
            simp [node.1, tidBit, tidBitNr, word, bit, clear]
          have bits : ∀ tid, t.tidBit tid = true ↔ s.tidBit tid = true ∨ tid = (t.mem p).tid := by
            intro tid
            rw [node.1, ← tidBit_set inMap inWord]
            simp only [tidBit, bitmaps]
          exact ⟨⟨_, queues.insertReady new unused node.2.1 node.2.2.2 mems heads bits allocations
              currents fixes⟩,
            fun q member => mems q (apart q member),
            .inr ⟨p, rfl, allocations, node.2.1, node.2.2.1⟩⟩

/-! ## Waiting and sleeping -/

/-- `thread_wait` takes a reference on the RUNNING or SUSPEND thread with the
tid, if there is one and it is not thread 0. -/
theorem threadWait (queues : Queues s lists) (tid : Nat) :
    s.threadWait tid = some (none, s) ∨
      ∃ node ∈ s.allocated, (s.mem node).tid = tid ∧ tid ≠ 0 ∧ (s.mem node).status ≠ .died ∧
        s.threadWait tid = some (some node, s.takeRef node) := by
  by_cases isZero : tid = 0
  · exact .inl (by simp [Kernel.threadWait, isZero])
  rcases queues.find tid .running with
    ⟨missing, -⟩ | ⟨front, node, rest, split, same, found⟩
  · rcases queues.find tid .suspend with
      ⟨missing', -⟩ | ⟨front, node, rest, split, same, found⟩
    · exact .inl (by simp [Kernel.threadWait, isZero, missing, missing'])
    · have member : node ∈ lists .suspend := by rw [split]; simp
      exact .inr ⟨node, queues.allocated_of_mem member, same, isZero,
        by simp [queues.status _ node member],
        by simp [Kernel.threadWait, isZero, missing, found]⟩
  · have member : node ∈ lists .running := by rw [split]; simp
    exact .inr ⟨node, queues.allocated_of_mem member, same, isZero,
      by simp [queues.status _ node member], by simp [Kernel.threadWait, isZero, found]⟩

theorem takeRef (queues : Queues s lists) (node : Ptr) : Queues (s.takeRef node) lists :=
  queues.modify node _ (fun _ => rfl) (fun _ => rfl) fun _ => rfl

theorem dropRef (queues : Queues s lists) (node : Ptr) : Queues (s.dropRef node) lists :=
  queues.modify node _ (fun _ => rfl) (fun _ => rfl) fun _ => rfl

/-- `sleep` beyond the threshold puts its caller on SUSPEND with a reference
more; below it, it changes nothing. -/
theorem sleep (queues : Queues s lists) {current : Ptr} (isCurrent : s.currentThread = some current)
    (other : (s.mem current).tid ≠ 0) (millisecond now : BitVec 32) :
    s.sleep current millisecond now = some (false, s) ∨
      ∃ t, s.sleep current millisecond now = some (true, t) ∧ (∃ lists', Queues t lists') ∧
        current ∈ s.allocated ∧ (s.mem current).status = .running ∧ t.allocated = s.allocated ∧
        ∀ p, (t.mem p).status = (if p = current then .suspend else (s.mem p).status) ∧
          (t.mem p).tid = (s.mem p).tid ∧
          (t.mem p).ref = (if p = current then (s.mem p).ref + 1 else (s.mem p).ref) ∧
          (t.mem p).wakeMillisecond =
            if p = current then now + millisecond else (s.mem p).wakeMillisecond := by
  by_cases long : sleepThreshold < millisecond.toNat
  · right
    obtain ⟨p, member, isP⟩ := queues.current
    obtain rfl : p = current := Option.some.inj (isP.symm.trans isCurrent)
    let u := (s.modify p fun t => { t with wakeMillisecond := now + millisecond }).takeRef p
    have queues' : Queues u lists :=
      (queues.modify p (fun t => { t with wakeMillisecond := now + millisecond })
        (fun _ => rfl) (fun _ => rfl) fun _ => rfl).takeRef p
    have fields : ∀ q, (u.mem q).status = (s.mem q).status ∧ (u.mem q).tid = (s.mem q).tid ∧
        (u.mem q).ref = (if q = p then (s.mem q).ref + 1 else (s.mem q).ref) ∧
        (u.mem q).wakeMillisecond =
          if q = p then now + millisecond else (s.mem q).wakeMillisecond := by
      intro q
      simp only [u, Kernel.takeRef, modify_mem]
      split <;> simp_all
    obtain ⟨t, result, after, effect⟩ := queues'.threadSuspend (u.mem p).tid
    have otherTid : (u.mem p).tid ≠ 0 := by rw [(fields p).2.1]; exact other
    rcases effect with ⟨-, isZero | nobody⟩ | ⟨node, allocated, same, -, -, shifted, refs⟩
    · exact absurd isZero otherTid
    · exact absurd rfl (nobody p member)
    · obtain rfl : node = p :=
        queues'.tids node allocated p (queues'.allocated_of_mem member) same
      refine ⟨t, ?_, after, queues.allocated_of_mem member, queues.status _ _ member,
        shifted.allocated, fun q => ⟨?_, ?_, ?_, ?_⟩⟩
      · have unfolded : s.sleep node millisecond now =
            (u.threadSuspend (u.mem node).tid).map fun s => (true, s) := by
          simp only [Kernel.sleep, long, if_true, u]
        rw [unfolded, result]
        rfl
      · rw [shifted.status, (fields q).1]
      · rw [shifted.tid, (fields q).2.1]
      · rw [refs, (fields q).2.2.1]
      · rw [shifted.wake, (fields q).2.2.2]
  · exact .inl (by simp [Kernel.sleep, long])

end Queues

/-! ## The cleaner -/

/-- Freeing a node of DIED that stood between `front` and `rest`. -/
theorem Listed.release (listed : Listed s lists) {front rest : List Ptr} {node : Ptr}
    (split : lists .died = front ++ node :: rest) :
    Listed ((s.unlink .died front.getLast? node).release node)
      (Function.update lists .died (front ++ rest)) := by
  have linked := listed.toLinked.unlink split
  have outside := listed.toLinked.unlinked_outside split
  have here : node ∈ lists .died := by rw [split]; simp
  have members : ∀ st p, p ∈ Function.update lists .died (front ++ rest) st ↔
      p ≠ node ∧ p ∈ lists st := by
    intro st p
    by_cases eq : p = node
    · subst eq
      simp [outside st]
    · by_cases same : st = .died
      · subst same
        rw [Function.update_self, split]
        simp [eq]
      · simp [same, eq]
  refine ⟨⟨linked.chain, linked.status⟩, fun p => ?_, fun p hp q hq => ?_, fun tid => ?_, ?_⟩
  · simp only [Kernel.release, Finset.mem_erase, members, exists_and_left, unlink_allocated,
      setTidWord]
    rw [listed.listed p]
  · simp only [Kernel.release, Finset.mem_erase, setTidWord, unlink_allocated] at hp hq
    simpa [Kernel.release, setTidWord] using listed.tids p hp.2 q hq.2
  · have bits : ((s.unlink .died front.getLast? node).release node).tidBit tid = true ↔
        s.tidBit tid = true ∧ tid ≠ (s.mem node).tid := by
      rw [← tidBit_clear]
      simp [Kernel.release, tidBit, setTidWord]
    rw [bits, listed.bitmap tid]
    simp only [Kernel.release, setTidWord, unlink_allocated, Finset.mem_erase, unlink_tid]
    constructor
    · rintro ⟨⟨p, member, rfl⟩, differs⟩
      exact ⟨p, ⟨fun same => differs (same ▸ rfl), member⟩, rfl⟩
    · rintro ⟨p, ⟨apart, member⟩, rfl⟩
      exact ⟨⟨p, member, rfl⟩, fun same =>
        apart (listed.tids p member node (listed.allocated_of_mem here) same)⟩
  · obtain ⟨p, member, isZero⟩ := listed.cleaner
    exact ⟨p, by simpa using member, by simpa [Kernel.release, setTidWord] using isZero⟩

/-- The cleaner's loop from a node on: `front` is what it has left in place. -/
theorem cleanFrom_spec {fuel : Nat} (front : List Ptr) {rest : List Ptr} (listed : Listed s lists)
    (split : lists .died = front ++ rest) (short : rest.length < fuel) :
    ∃ t, cleanFrom fuel front.getLast? rest.head? s = some t ∧
      (∃ lists', Listed t lists' ∧ ∀ st, st ≠ .died → lists' st = lists st) ∧
      (∀ p, (t.mem p).status = (s.mem p).status ∧ (t.mem p).tid = (s.mem p).tid ∧
        (t.mem p).ref = (s.mem p).ref) ∧
      t.currentThread = s.currentThread ∧ t.fixNextThread = s.fixNextThread ∧
      (∀ p, p ∈ t.allocated ↔ p ∈ s.allocated ∧ ¬ (p ∈ rest ∧ (s.mem p).ref = 0)) := by
  induction rest generalizing fuel front s lists with
  | nil =>
      cases fuel with
      | zero => simp at short
      | succ fuel =>
          exact ⟨s, rfl, ⟨lists, listed, fun _ _ => rfl⟩, fun _ => ⟨rfl, rfl, rfl⟩, rfl, rfl,
            fun p => by simp⟩
  | cons node rest ih =>
      cases fuel with
      | zero => simp at short
      | succ fuel =>
          have short' : rest.length < fuel := by simpa using short
          have chain := listed.chain .died
          rw [split] at chain
          have following : (s.mem node).next = rest.head? := chain.suffix.2.head_eq
          have distinct := chain.nodup
          by_cases unreferenced : (s.mem node).ref = 0
          · have unfolded : cleanFrom (fuel + 1) front.getLast? (node :: rest).head? s =
                cleanFrom fuel front.getLast? rest.head?
                  ((s.unlink .died front.getLast? node).release node) := by
              simp [cleanFrom, unreferenced, following]
            obtain ⟨t, result, ⟨lists', listed', others⟩, fields, currents, fixes, allocations⟩ :=
              ih front (listed.release split) (Function.update_self ..) short'
            refine ⟨t, unfolded.trans result, ⟨lists', listed', fun st apart => ?_⟩, fun p => ?_,
              by rw [currents]; simp [Kernel.release, setTidWord],
              by rw [fixes]; simp [Kernel.release, setTidWord], fun p => ?_⟩
            · rw [others st apart, Function.update_of_ne apart]
            · have := fields p
              simpa [Kernel.release, setTidWord] using this
            · rw [allocations p]
              simp only [Kernel.release, setTidWord, Finset.mem_erase, unlink_allocated, unlink_ref,
                List.mem_cons]
              by_cases same : p = node
              · subst same
                simp [unreferenced]
              · simp [same]
          · have unfolded : cleanFrom (fuel + 1) front.getLast? (node :: rest).head? s =
                cleanFrom fuel (front ++ [node]).getLast? rest.head? s := by
              simp only [List.head?_cons, cleanFrom, unreferenced, if_false, following,
                List.getLast?_concat]
            obtain ⟨t, result, after, fields, currents, fixes, allocations⟩ :=
              ih (front ++ [node]) listed (by simpa using split) short'
            refine ⟨t, unfolded.trans result, after, fields, currents, fixes, fun p => ?_⟩
            rw [allocations p, List.mem_cons]
            by_cases same : p = node
            · subst same
              simp only [unreferenced, and_false]
            · simp only [same, false_or]

namespace Queues

/-- One round of the cleaner frees the dead threads without references, and
nobody else. -/
theorem clean (queues : Queues s lists) :
    ∃ t, s.clean = some t ∧ (∃ lists', Queues t lists') ∧
      (∀ p, (t.mem p).status = (s.mem p).status ∧ (t.mem p).tid = (s.mem p).tid ∧
        (t.mem p).ref = (s.mem p).ref) ∧
      ∀ p, p ∈ t.allocated ↔ p ∈ s.allocated ∧ ¬ (p ∈ lists .died ∧ (s.mem p).ref = 0) := by
  obtain ⟨t, result, ⟨lists', listed, others⟩, fields, currents, fixes, allocations⟩ :=
    cleanFrom_spec [] queues.toListed rfl (queues.short .died)
  have after : Queues t lists' := by
    refine ⟨listed, ?_, fixes.trans queues.fixNext⟩
    rw [others .running (by decide), currents]
    exact queues.current
  refine ⟨t.threadSchedule, ?_, ⟨lists', after.schedule⟩, by simpa using fields,
    by simpa using allocations⟩
  have head : s.threadHead .died = (lists .died).head? := (queues.chain .died).head_eq
  rw [Kernel.clean, head]
  have result' : cleanFrom walkFuel none (lists .died).head? s = some t := result
  rw [result']
  rfl

/-! ## The poller -/

/-- What a visit of the poller does to a node: a due one is woken and gives a
reference back, any other is left alone. -/
def Polled (s t : Kernel) (clock : BitVec 32) (p : Ptr) : Prop :=
  if (s.mem p).wakeMillisecond ≤ clock then
    (t.mem p).status = .running ∧ (t.mem p).ref = (s.mem p).ref - 1
  else (t.mem p).status = (s.mem p).status ∧ (t.mem p).ref = (s.mem p).ref

/-- The poller's loop from a node on: `front` is what it has left on SUSPEND. -/
theorem pollFrom_spec {clock : Nat → BitVec 32} {fuel : Nat} (visit : Nat) (front : List Ptr)
    {rest : List Ptr} (minWake : BitVec 32) (queues : Queues s lists) (split : lists .suspend = front ++ rest)
    (short : rest.length < fuel) :
    ∃ least t, pollFrom clock fuel visit rest.head? minWake s = some (least, t) ∧
      (∃ lists', Queues t lists') ∧
      (∀ i p, rest[i]? = some p → Polled s t (clock (visit + i)) p) ∧
      (∀ p ∉ rest, (t.mem p).status = (s.mem p).status ∧ (t.mem p).ref = (s.mem p).ref) ∧
      (∀ p, (t.mem p).tid = (s.mem p).tid) ∧ t.allocated = s.allocated := by
  induction rest generalizing fuel visit front minWake s lists with
  | nil =>
      cases fuel with
      | zero => simp at short
      | succ fuel =>
          exact ⟨minWake, s, rfl, ⟨lists, queues⟩, by simp, fun _ _ => ⟨rfl, rfl⟩, fun _ => rfl, rfl⟩
  | cons node rest ih =>
      cases fuel with
      | zero => simp at short
      | succ fuel =>
          have short' : rest.length < fuel := by simpa using short
          have chain := queues.chain .suspend
          rw [split] at chain
          have following : (s.mem node).next = rest.head? := chain.suffix.2.head_eq
          have notAgain : node ∉ rest :=
            (List.nodup_cons.1 chain.suffix.nodup).1
          have asleep : (s.mem node).status = .suspend := queues.status _ node (by rw [split]; simp)
          by_cases due : (s.mem node).wakeMillisecond ≤ clock visit
          · -- the node is woken; the walk goes on along what followed it
            have dropped := queues.dropRef node
            have woken := dropped.threadWake_node split (.inr rfl)
            have queues' := dropped.wake_moved split (.inr rfl)
            obtain ⟨least, t, result, after, visits, frame, tids, allocations⟩ :=
              ih (visit + 1) front minWake queues' (by simp [moved]) short'
            have fields : ∀ p, ((((s.dropRef node).unlink .suspend front.getLast? node).relink
                  .running node).mem p).status = (if p = node then .running else (s.mem p).status) ∧
                ((((s.dropRef node).unlink .suspend front.getLast? node).relink
                  .running node).mem p).ref =
                    (if p = node then (s.mem p).ref - 1 else (s.mem p).ref) ∧
                ((((s.dropRef node).unlink .suspend front.getLast? node).relink
                  .running node).mem p).tid = (s.mem p).tid ∧
                ((((s.dropRef node).unlink .suspend front.getLast? node).relink
                  .running node).mem p).wakeMillisecond = (s.mem p).wakeMillisecond := by
              intro p
              by_cases same : p = node <;> simp [Kernel.dropRef, same]
            have unfolded : pollFrom clock (fuel + 1) visit (node :: rest).head? minWake s =
                pollFrom clock fuel (visit + 1) rest.head? minWake
                  (((s.dropRef node).unlink .suspend front.getLast? node).relink .running node) := by
              have alive : ((s.dropRef node).mem node).status ≠ .died := by
                simp [Kernel.dropRef, asleep]
              simp only [List.head?_cons, pollFrom, due, if_true, alive, ne_eq, not_false_eq_true,
                woken, following, Option.bind_some]
            refine ⟨least, t, unfolded.trans result, after, fun i p here => ?_, fun p outside => ?_,
              fun p => (tids p).trans (fields p).2.2.1, by simp [allocations, Kernel.dropRef]⟩
            · cases i with
              | zero =>
                  obtain rfl : node = p := by simpa using here
                  have last := frame node notAgain
                  rw [Nat.add_zero, Polled, if_pos due]
                  refine ⟨last.1.trans ?_, last.2.trans ?_⟩
                  · rw [(fields node).1, if_pos rfl]
                  · rw [(fields node).2.1, if_pos rfl]
              | succ i =>
                  have inRest : rest[i]? = some p := by simpa using here
                  have apart : p ≠ node := fun same =>
                    notAgain (same ▸ List.mem_of_getElem? inRest)
                  have polled := visits i p inRest
                  rw [Polled, (fields p).1, (fields p).2.1, (fields p).2.2.2, if_neg apart,
                    if_neg apart] at polled
                  rw [Nat.add_assoc, Nat.add_comm 1 i] at polled
                  exact polled
            · rw [List.mem_cons, not_or] at outside
              have last := frame p outside.2
              rw [(fields p).1, (fields p).2.1, if_neg outside.1, if_neg outside.1] at last
              exact last
          · obtain ⟨least, t, result, after, visits, frame, tids, allocations⟩ :=
              ih (visit + 1) (front ++ [node])
                (if (s.mem node).wakeMillisecond < minWake then
                  (s.mem node).wakeMillisecond else minWake) queues (by simpa using split) short'
            have unfolded : pollFrom clock (fuel + 1) visit (node :: rest).head? minWake s =
                pollFrom clock fuel (visit + 1) rest.head?
                  (if (s.mem node).wakeMillisecond < minWake then
                    (s.mem node).wakeMillisecond else minWake) s := by
              simp only [List.head?_cons, pollFrom, due, if_false, following]
            refine ⟨least, t, unfolded.trans result, after, fun i p here => ?_, fun p outside => ?_,
              tids, allocations⟩
            · cases i with
              | zero =>
                  obtain rfl : node = p := by simpa using here
                  rw [Nat.add_zero, Polled, if_neg due]
                  exact frame node notAgain
              | succ i =>
                  have polled := visits i p (by simpa using here)
                  rw [Nat.add_assoc, Nat.add_comm 1 i] at polled
                  exact polled
            · exact frame p (List.not_mem_of_not_mem_cons outside)

/-- One round of the poller visits SUSPEND once, in order, and wakes the due. -/
theorem sleeperPolling (queues : Queues s lists) (clock : Nat → BitVec 32) :
    ∃ t, s.sleeperPolling clock = some t ∧ (∃ lists', Queues t lists') ∧
      (∀ i p, (lists .suspend)[i]? = some p → Polled s t (clock i) p) ∧
      (∀ p ∉ lists .suspend, (t.mem p).status = (s.mem p).status ∧ (t.mem p).ref = (s.mem p).ref) ∧
      (∀ p, (t.mem p).tid = (s.mem p).tid) ∧ t.allocated = s.allocated := by
  obtain ⟨least, t, result, ⟨lists', after⟩, visits, frame, tids, allocations⟩ :=
    pollFrom_spec 0 [] (BitVec.allOnes 32) queues rfl (queues.short .suspend)
  have head : s.threadHead .suspend = (lists .suspend).head? := (queues.chain .suspend).head_eq
  refine ⟨if 10 < least.toNat then t.threadSchedule else t, ?_, ⟨lists', ?_⟩, fun i p here => ?_,
    fun p outside => ?_, fun p => ?_, ?_⟩
  · rw [Kernel.sleeperPolling, head, result]
    rfl
  · split
    · exact after.schedule
    · exact after
  · have polled := visits i p here
    rw [Nat.zero_add] at polled
    split <;> simpa [Polled] using polled
  · split <;> simpa using frame p outside
  · split <;> simpa using tids p
  · split <;> simpa using allocations

end Queues

end TestOs.Threads
