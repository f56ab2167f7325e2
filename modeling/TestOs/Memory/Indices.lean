/-
# Memory.Indices -- where bitmap_malloc reads and writes the map

`mallocIndices` is the list of the values of `i` with which a call reads
`bitmap.map` in its loops and writes it in the marking loop; `scan_congr_indices`
and `mark_outside_indices` connect it to the search.  A call leaves the map where
the limit of the second pass is negative and nothing stops it inside, or where the
marking loop follows a run that was counted at the end of the heap below 0
(`indices_inside_iff`).  As long as no call does, the cursor stays in the heap,
so that the same is true of every run (`run_inside_iff`).
-/
import TestOs.Memory.Search

namespace TestOs.Memory

open TestOs.Library

set_option autoImplicit false

/-! ## The indices -/

/-- `int i`, where the byte of bit `p` is read. -/
def index (p : Nat) : Int := (BitVec.ofNat 32 (p / 8)).toInt

/-- The indices of `scan`. -/
def scanIndices (used : Nat → Bool) (size : Nat) : (left p found : Nat) → List Int
  | 0, _, _ => []
  | left + 1, p, found =>
      let found := if used p then 0 else found + 1
      index p :: if found = size then [] else scanIndices used size left (p + 1) found

/-- The indices of `mark`. -/
def markIndices (i : BitVec 32) (j : Nat) : Nat → List Int
  | 0 => []
  | size + 1 => i.toInt :: if j = 0 then markIndices (i - 1) 7 size else markIndices i (j - 1) size

namespace Heap

def passIndices (s : Heap) (p len found size : Nat) : List Int :=
  scanIndices s.used size (8 * len - p) p found ++
    match scan s.used size (8 * len - p) p found with
    | (some q, _) => markIndices (BitVec.ofNat 32 (q / 8)) (q % 8) size
    | (none, _) => []

/-- The indices of a call, in both passes. -/
def mallocIndices (s : Heap) (size : BitVec 32) : List Int :=
  let first := s.pass (s.pageOf s.bitsPtr) s.mapSize 0 (pagesFor size)
  s.passIndices (s.pageOf s.bitsPtr) s.mapSize 0 (pagesFor size) ++
    if first.ret = 0 then
      let s := first.heap
      { s with bitsPtr := s.bitsStart }.passIndices first.j s.secondLen first.found first.size
    else []

/-- The index is one of the map. -/
def InMap (s : Heap) (i : Int) : Prop := 0 ≤ i ∧ i < s.mapSize

/-- The searches that stay inside: the first pass ends well, or no run is carried over
the end and the second pass is bounded or ends well.  A search for no pages ends at
a used one. -/
def Stays (s : Heap) (n : Nat) : Prop :=
  if n = 0 then s.secondLen ≤ s.mapSize ∨ ∃ p < 8 * s.mapSize, s.used p = true
  else HasRun s.used s.cursor (8 * s.mapSize) n ∨
    ¬ s.Carries n ∧ (s.secondLen ≤ s.mapSize ∨ HasRun s.used 0 (8 * s.mapSize) n)

end Heap

/-! ## Indices and accesses -/

section Access

variable {used used' : Nat → Bool} {size left p q found : Nat} {mem : Memory} {i x : BitVec 32} {j : Nat}

/-- Only the bytes at the indices are read. -/
theorem scan_congr_indices
    (same : ∀ r, index r ∈ scanIndices used size left p found → used' r = used r) :
    scan used' size left p found = scan used size left p found := by
  induction left generalizing p found with
  | zero => rfl
  | succ left ih =>
      have here := same p List.mem_cons_self
      simp only [scan, here]
      by_cases last : (if used p then 0 else found + 1) = size
      · rw [if_pos last, if_pos last]
      · rw [if_neg last, if_neg last]
        refine ih fun r member => same r (List.mem_cons_of_mem _ ?_)
        rwa [if_neg last]

/-- Only the bytes at the indices are written. -/
theorem mark_outside_indices
    (outside : ∀ k ∈ markIndices i j size, x ≠ heapBottom + BitVec.ofInt 32 k) :
    mark mem i j size x = mem x := by
  induction size generalizing mem i j with
  | zero => rfl
  | succ size ih =>
      have here := outside i.toInt List.mem_cons_self
      rw [BitVec.ofInt_toInt] at here
      rw [mark]
      by_cases last : j = 0
      · rw [if_pos last, ih fun k member => outside k (List.mem_cons_of_mem _ (by rwa [if_pos last]))]
        exact Function.update_of_ne here ..
      · rw [if_neg last, ih fun k member => outside k (List.mem_cons_of_mem _ (by rwa [if_neg last]))]
        exact Function.update_of_ne here ..

end Access

namespace Heap

section Inside

variable {bytesLen size : BitVec 32} {s : Heap} {used : Nat → Bool} {left p q n found count : Nat}

theorem inMap_index_iff (small : s.mapSize ≤ 65406) (p_lt : p < 2 ^ 35) :
    s.InMap (index p) ↔ p < 8 * s.mapSize := by
  have value : (BitVec.ofNat 32 (p / 8)).toNat = p / 8 := by
    rw [BitVec.toNat_ofNat]
    omega
  rw [InMap, index, BitVec.toInt_eq_toNat_cond, value]
  split <;> omega

theorem scanIndices_found (small : s.mapSize ≤ 65406) (row : p + left ≤ 2 ^ 35)
    (result : scan used n left p found = (some q, count)) :
    (∀ i ∈ scanIndices used n left p found, s.InMap i) ↔ q < 8 * s.mapSize := by
  induction left generalizing p found with
  | zero => cases result
  | succ left ih =>
      have from_ : p ≤ q := scan_from result
      simp only [scan] at result
      rw [scanIndices]
      simp only [List.forall_mem_cons]
      rw [inMap_index_iff small (by omega)]
      by_cases last : (if used p then 0 else found + 1) = n
      · rw [if_pos last] at result ⊢
        cases result
        exact and_iff_left fun i member => absurd member List.not_mem_nil
      · rw [if_neg last] at result ⊢
        rw [ih (by omega) result]
        omega

theorem scanIndices_failed (small : s.mapSize ≤ 65406) (row : p + left ≤ 2 ^ 35)
    (result : scan used n left p found = (none, count)) :
    (∀ i ∈ scanIndices used n left p found, s.InMap i) ↔ left = 0 ∨ p + left ≤ 8 * s.mapSize := by
  induction left generalizing p found with
  | zero => exact iff_of_true (fun i member => absurd member List.not_mem_nil) (.inl rfl)
  | succ left ih =>
      simp only [scan] at result
      rw [scanIndices]
      simp only [List.forall_mem_cons]
      rw [inMap_index_iff small (by omega)]
      by_cases last : (if used p then 0 else found + 1) = n
      · rw [if_pos last] at result
        cases result
      · rw [if_neg last] at result ⊢
        rw [ih (by omega) result]
        omega

theorem markIndices_succ (positive : 0 < p) :
    markIndices (BitVec.ofNat 32 (p / 8)) (p % 8) (n + 1) =
      index p :: markIndices (BitVec.ofNat 32 ((p - 1) / 8)) ((p - 1) % 8) n := by
  cases n with
  | zero =>
      simp only [markIndices, ite_self]
      rfl
  | succ n =>
      rw [markIndices, index]
      by_cases first : p % 8 = 0
      · have below : (p - 1) / 8 + 1 = p / 8 := by omega
        have last : (p - 1) % 8 = 7 := by omega
        have back : BitVec.ofNat 32 (p / 8) - 1 = BitVec.ofNat 32 ((p - 1) / 8) := by
          rw [← below, BitVec.ofNat_add]
          exact add_sub_cancel_right _ _
        rw [if_pos first, back, last]
      · have same : (p - 1) / 8 = p / 8 := by omega
        have next : (p - 1) % 8 = p % 8 - 1 := by omega
        rw [if_neg first, same, next]

/-- The marking loop stays in the map where there are so many bits below. -/
theorem markIndices_iff (small : s.mapSize ≤ 65406) (q_lt : q < 2 ^ 35) :
    (∀ i ∈ markIndices (BitVec.ofNat 32 (q / 8)) (q % 8) n, s.InMap i) ↔
      n = 0 ∨ q < 8 * s.mapSize ∧ n ≤ q + 1 := by
  induction n generalizing q with
  | zero => exact iff_of_true (fun i member => absurd member List.not_mem_nil) (.inl rfl)
  | succ n ih =>
      cases q with
      | zero =>
          rw [markIndices, if_pos (Nat.zero_mod 8)]
          simp only [List.forall_mem_cons]
          have first : s.InMap (BitVec.ofNat 32 (0 / 8)).toInt ↔ 0 < 8 * s.mapSize :=
            @inMap_index_iff s 0 small (by omega)
          rw [first]
          cases n with
          | zero =>
              refine ⟨fun inside => .inr ⟨inside.1, le_refl _⟩, fun _ => ?_⟩
              exact ⟨by omega, fun i member => absurd member List.not_mem_nil⟩
          | succ n =>
              refine iff_of_false (fun inside => ?_) (by omega)
              have below := inside.2 _ List.mem_cons_self
              exact absurd below.1 (by decide)
      | succ q =>
          rw [markIndices_succ (Nat.succ_pos q)]
          simp only [List.forall_mem_cons]
          rw [inMap_index_iff small q_lt, Nat.succ_sub_one, ih (by omega)]
          omega

theorem passIndices_found {len : Nat} (small : s.mapSize ≤ 65406) (row : p + (8 * len - p) ≤ 2 ^ 35)
    (result : scan s.used n (8 * len - p) p found = (some q, count)) :
    (∀ i ∈ s.passIndices p len found n, s.InMap i) ↔ q < 8 * s.mapSize ∧ (n = 0 ∨ n ≤ q + 1) := by
  have q_lt : q < 2 ^ 35 := lt_of_lt_of_le (scan_lt result) row
  rw [passIndices, result]
  simp only [List.forall_mem_append]
  rw [scanIndices_found small row result, markIndices_iff small q_lt]
  omega

theorem passIndices_failed {len : Nat} (small : s.mapSize ≤ 65406) (row : p + (8 * len - p) ≤ 2 ^ 35)
    (result : scan s.used n (8 * len - p) p found = (none, count)) :
    (∀ i ∈ s.passIndices p len found n, s.InMap i) ↔
      8 * len - p = 0 ∨ p + (8 * len - p) ≤ 8 * s.mapSize := by
  rw [passIndices, result]
  simp only [List.append_nil]
  exact scanIndices_failed small row result

/-- The first pass ends well. -/
theorem Laid.mallocIndices_first (laid : Laid bytesLen s)
    (result : scan s.used (pagesFor size) (8 * s.mapSize - s.cursor) s.cursor 0 = (some q, count))
    (enough : pagesFor size ≤ q + 1) : ∀ i ∈ s.mallocIndices size, s.InMap i := by
  have small := laid.mapSize_le
  obtain ⟨-, k_le⟩ := laid.bitsPtr
  have q_lt := scan_lt result
  have nonzero : (s.pass s.cursor s.mapSize 0 (pagesFor size)).ret ≠ 0 := by
    rw [pass_found result, take_eq_block enough]
    exact laid.block_ne_zero (by omega)
  have inside := (passIndices_found small (by omega) result).2 ⟨by omega, .inr enough⟩
  have only : s.mallocIndices size = s.passIndices s.cursor s.mapSize 0 (pagesFor size) := by
    refine Eq.trans ?_ (List.append_nil _)
    exact congrArg _ (if_neg nonzero)
  rwa [only]

/-- It does not, and the second decides. -/
theorem Laid.mallocIndices_again (laid : Laid bytesLen s)
    (failed : scan s.used (pagesFor size) (8 * s.mapSize - s.cursor) s.cursor 0 = (none, count)) :
    (∀ i ∈ s.mallocIndices size, s.InMap i) ↔
      ∀ i ∈ s.rewind.passIndices 0 s.secondLen count (pagesFor size), s.InMap i := by
  have small := laid.mapSize_le
  obtain ⟨-, k_le⟩ := laid.bitsPtr
  have start : (if s.cursor / 8 < s.mapSize then 0 else s.cursor % 8) = 0 := by
    split <;> omega
  have both : s.mallocIndices size = s.passIndices s.cursor s.mapSize 0 (pagesFor size) ++
      s.rewind.passIndices 0 s.secondLen count (pagesFor size) := by
    have first := pass_failed failed
    rw [start] at first
    have same : s.pageOf s.bitsPtr = s.cursor := rfl
    rw [mallocIndices, same, first]
    simp only [if_pos]
    rfl
  have inside := (passIndices_failed small (by omega) failed).2 (by omega)
  rw [both]
  simp only [List.forall_mem_append]
  exact and_iff_right inside

theorem secondLen_lt (s : Heap) : s.secondLen < 2 ^ 32 := Nat.mod_lt _ (by decide)

/-- The second pass, from the beginning of the map. -/
theorem Laid.again_found_iff (laid : Laid bytesLen s)
    (result : scan s.used n (8 * s.secondLen) 0 found = (some q, count)) :
    (∀ i ∈ s.rewind.passIndices 0 s.secondLen found n, s.InMap i) ↔
      q < 8 * s.mapSize ∧ (n = 0 ∨ n ≤ q + 1) := by
  have bound := s.secondLen_lt
  exact @passIndices_found s.rewind 0 q n found count s.secondLen laid.mapSize_le (by omega) result

theorem Laid.again_failed_iff (laid : Laid bytesLen s)
    (result : scan s.used n (8 * s.secondLen) 0 found = (none, count)) :
    (∀ i ∈ s.rewind.passIndices 0 s.secondLen found n, s.InMap i) ↔ s.secondLen ≤ s.mapSize := by
  have bound := s.secondLen_lt
  have inside := @passIndices_failed s.rewind 0 n found count s.secondLen laid.mapSize_le (by omega) result
  refine inside.trans ?_
  show 8 * s.secondLen - 0 = 0 ∨ 0 + (8 * s.secondLen - 0) ≤ 8 * s.mapSize ↔ _
  omega

/-- A run that is carried over the end: the search stops with too few bits below. -/
theorem carried_short {f : Nat} (below : found < n) (some_ : 0 < f) (f_le : f ≤ found)
    (lead : FreeRun s.used 0 (n - f)) (result : scan s.used n left 0 found = (some q, count)) :
    q + 1 < n := by
  obtain ⟨q', count', early⟩ := (@scan_finds_iff s.used n (n - found) 0 found below).2
    (.inr ⟨by omega, fun r low high => lead r low (by omega)⟩)
  have q_lt := scan_lt early
  by_contra long
  have from_ := (scan_some below result).2.1
  have more := scan_more (left - (n - found)) early
  rw [show n - found + (left - (n - found)) = left by omega, result] at more
  cases more
  omega

/-- The run that the second pass ends at is in the map and whole. -/
theorem stays_iff_of_found (below : found < n) (trailing : Trailing s.used s.cursor (8 * s.mapSize) found)
    (result : scan s.used n (8 * s.secondLen) 0 found = (some q, count)) :
    q < 8 * s.mapSize ∧ n ≤ q + 1 ↔
      ¬ s.Carries n ∧ (s.secondLen ≤ s.mapSize ∨ HasRun s.used 0 (8 * s.mapSize) n) := by
  obtain ⟨run, q_lt, -⟩ := scan_some below result
  constructor
  · rintro ⟨inside, enough⟩
    refine ⟨fun carries => ?_, .inr ⟨q + 1 - n, Nat.zero_le _, by omega, fun r low high =>
      run.free r (Nat.zero_le r) (by omega) (by omega)⟩⟩
    obtain ⟨f, some_, f_lt, inside, free, lead, -⟩ := carries
    have short := carried_short below some_ (trailing.most f inside free) lead result
    omega
  · rintro ⟨whole, bounded⟩
    refine ⟨?_, ?_⟩
    · rcases bounded with bounded | inMap
      · omega
      · exact again_inside below inMap result
    · by_contra short
      have counted := run.counted (by omega)
      exact whole ⟨found, by omega, below, trailing.inside, trailing.free,
        fun r low high => run.free r low (by omega) (by omega), by omega⟩

/-- **When a call stays in the map**, reading and writing. -/
theorem Laid.indices_inside_iff (laid : Laid bytesLen s) :
    (∀ i ∈ s.mallocIndices size, s.InMap i) ↔ s.Stays (pagesFor size) := by
  have small := laid.mapSize_le
  obtain ⟨-, k_le⟩ := laid.bitsPtr
  have row : s.cursor + (8 * s.mapSize - s.cursor) = 8 * s.mapSize := by
    omega
  rw [Stays]
  by_cases none_ : pagesFor size = 0
  · rw [if_pos none_]
    rcases free_or_first s.used s.cursor (8 * s.mapSize - s.cursor) with
      free | ⟨q, low, high, isUsed, free⟩
    · have failed := @scan_nothing_free s.used (8 * s.mapSize - s.cursor) s.cursor 0 free
      rw [laid.mallocIndices_again (by rw [none_]; exact failed), none_]
      rcases free_or_first s.used 0 (8 * s.secondLen) with all | ⟨q, low, high, isUsed, lead⟩
      · rw [laid.again_failed_iff (scan_nothing_free all)]
        refine ⟨.inl, fun stays => stays.elim id fun ⟨p, p_lt, isUsed⟩ => ?_⟩
        by_contra longer
        rw [all p (by omega) (by omega)] at isUsed
        cases isUsed
      · rw [laid.again_found_iff (scan_nothing_used low high isUsed lead)]
        refine ⟨fun inside => .inr ⟨q, inside.1, isUsed⟩, fun stays => ⟨?_, .inl rfl⟩⟩
        rcases stays with bounded | ⟨p, p_lt, isUsed'⟩
        · omega
        · by_contra behind
          rw [lead p (by omega) (by omega)] at isUsed'
          cases isUsed'
    · have found := @scan_nothing_used s.used (8 * s.mapSize - s.cursor) s.cursor 0 q low high isUsed free
      exact iff_of_true (laid.mallocIndices_first (by rw [none_]; exact found) (by omega))
        (.inr ⟨q, by omega, isUsed⟩)
  · have positive : 0 < pagesFor size := Nat.pos_of_ne_zero none_
    rw [if_neg none_]
    cases result : scan s.used (pagesFor size) (8 * s.mapSize - s.cursor) s.cursor 0 with
    | mk place found =>
        cases place with
        | some q =>
            obtain ⟨enough, first⟩ := scan_first positive result
            rw [row] at first
            exact iff_of_true (laid.mallocIndices_first result enough)
              (.inl ⟨_, first.from_, first.inside, first.free⟩)
        | none =>
            obtain ⟨below, trailing⟩ := scan_trailing positive result
            rw [row] at trailing
            have forward : ¬ HasRun s.used s.cursor (8 * s.mapSize) (pagesFor size) := fun run => by
              obtain ⟨q, count, finds⟩ := (scan_finds_iff positive).2 (.inl (by rwa [← row] at run))
              rw [result] at finds
              cases finds
            have finds := again_finds_iff below trailing
            rw [laid.mallocIndices_again result, or_iff_right forward]
            cases second : scan s.used (pagesFor size) (8 * s.secondLen) 0 found with
            | mk place count =>
                cases place with
                | none =>
                    have nothing : ¬ (HasRun s.used 0 (8 * s.secondLen) (pagesFor size) ∨
                        s.Carries (pagesFor size)) := fun run => by
                      obtain ⟨q, count, some_⟩ := finds.2 run
                      rw [second] at some_
                      cases some_
                    rw [laid.again_failed_iff second]
                    refine ⟨fun bounded => ⟨fun carries => nothing (.inr carries), .inl bounded⟩, ?_⟩
                    rintro ⟨-, bounded | run⟩
                    · exact bounded
                    · by_contra longer
                      exact nothing (.inl (run.mono (le_refl _) (by omega)))
                | some q =>
                    rw [laid.again_found_iff second, or_iff_right none_]
                    exact stays_iff_of_found below trailing second

/-- A call that stays in the map fails, or takes free pages. -/
theorem Laid.malloc_cases (laid : Laid bytesLen s) (stays : s.Stays (pagesFor size)) :
    s.bitmapMalloc size = (0, s.rewind) ∨ ∃ t q, (t = s ∨ t = s.rewind) ∧ q < 8 * s.mapSize ∧
      pagesFor size ≤ q + 1 ∧ FreeRun s.used (q + 1 - pagesFor size) (pagesFor size) ∧
        s.bitmapMalloc size = t.take q (pagesFor size) := by
  obtain ⟨-, k_le⟩ := laid.bitsPtr
  have row : s.cursor + (8 * s.mapSize - s.cursor) = 8 * s.mapSize := by
    omega
  rw [Stays] at stays
  by_cases none_ : pagesFor size = 0
  · rw [if_pos none_] at stays
    rw [none_]
    have empty : ∀ q, FreeRun s.used (q + 1 - 0) 0 := fun q r low high => by
      omega
    rcases free_or_first s.used s.cursor (8 * s.mapSize - s.cursor) with
      free | ⟨q, low, high, isUsed, free⟩
    · obtain ⟨count, again_⟩ := laid.malloc_nothing_free none_ free
      rcases free_or_first s.used 0 (8 * s.secondLen) with all | ⟨q, low, high, isUsed, lead⟩
      · exact .inl (again_.trans (again_failed (scan_nothing_free all)))
      · refine .inr ⟨s.rewind, q, .inr rfl, ?_, Nat.zero_le _, empty q,
          again_.trans (again_found (scan_nothing_used low high isUsed lead))⟩
        rcases stays with bounded | ⟨p, p_lt, isUsed'⟩
        · omega
        · by_contra behind
          rw [lead p (by omega) (by omega)] at isUsed'
          cases isUsed'
    · exact .inr ⟨s, q, .inl rfl, by omega, Nat.zero_le _, empty q,
        laid.malloc_nothing_used none_ low (by omega) isUsed free⟩
  · have positive : 0 < pagesFor size := Nat.pos_of_ne_zero none_
    rw [if_neg none_] at stays
    by_cases forward : HasRun s.used s.cursor (8 * s.mapSize) (pagesFor size)
    · obtain ⟨a, first, taken⟩ := laid.malloc_forward positive forward
      have inside := first.inside
      refine .inr ⟨s, a + pagesFor size - 1, .inl rfl, by omega, by omega, ?_, taken⟩
      rw [show a + pagesFor size - 1 + 1 - pagesFor size = a by omega]
      exact first.free
    · obtain ⟨found, below, trailing, again_⟩ := laid.malloc_backward positive forward
      cases second : scan s.used (pagesFor size) (8 * s.secondLen) 0 found with
      | mk place count =>
          cases place with
          | none => exact .inl (again_.trans (again_failed second))
          | some q =>
              obtain ⟨inside, enough⟩ :=
                (stays_iff_of_found below trailing second).2 (stays.resolve_left forward)
              have run := (scan_some below second).1
              exact .inr ⟨s.rewind, q, .inr rfl, inside, enough, fun r low high =>
                run.free r (Nat.zero_le r) (by omega) (by omega), again_.trans (again_found second)⟩

theorem Laid.of_same {t : Heap} (laid : Laid bytesLen s) (same : t = s ∨ t = s.rewind) :
    Laid bytesLen t := by
  rcases same with rfl | rfl
  · exact laid
  · exact laid.rewind

/-- The cursor stays at a page boundary of the heap. -/
theorem Laid.malloc (laid : Laid bytesLen s) (stays : s.Stays (pagesFor size)) :
    Laid bytesLen (s.bitmapMalloc size).2 := by
  rcases laid.malloc_cases stays with failed | ⟨t, q, same, q_lt, enough, -, taken⟩
  · rw [failed]
    exact laid.rewind
  · have mapSize : t.mapSize = s.mapSize := by
      rcases same with rfl | rfl <;> rfl
    rw [taken]
    exact (laid.of_same same).take (take_eq_block enough) (by omega)

/-- Only `bitmap_malloc` moves the cursor. -/
theorem Laid.withMem (laid : Laid bytesLen s) (mem : Memory) : Laid bytesLen { s with mem := mem } :=
  ⟨laid.enough, laid.bounded, laid.mapSize, laid.bitsStart, laid.bitsEnd, laid.cursor⟩

theorem Laid.free {t : Heap} {addr : BitVec 32} (laid : Laid bytesLen s)
    (freed : s.bitmapFree addr = some t) : Laid bytesLen t := by
  unfold bitmapFree at freed
  simp only [] at freed
  by_cases magic : s.mem.load (addr - 8) ≠ mallocMagic
  · rw [if_pos magic] at freed
    cases freed
  · rw [if_neg magic] at freed
    cases freed
    exact laid.withMem _

end Inside

/-! ## bitmap_realloc -/

/-- The contents of a block are copied to another. -/
def copied (s : Heap) (dst src : BitVec 32) (size : Nat) : Heap :=
  { s with mem := memcpy s.mem dst src size }

/-- What a call of `bitmap_realloc` can come to. -/
inductive Realloc (s : Heap) (addr size : BitVec 32) : BitVec 32 → Heap → Prop where
  | malloc : addr = 0 → Realloc s addr size (s.bitmapMalloc size).1 (s.bitmapMalloc size).2
  | free {t : Heap} : addr ≠ 0 → size = 0 → s.bitmapFree addr = some t → Realloc s addr size 0 t
  | inPlace : addr ≠ 0 → size ≠ 0 →
      size ≤ s.mem.load (addr - 4) * BitVec.ofNat 32 pageSize → Realloc s addr size addr s
  | failed : addr ≠ 0 → size ≠ 0 → s.mem.load (addr - 4) * BitVec.ofNat 32 pageSize < size →
      (s.bitmapMalloc size).1 = 0 → Realloc s addr size 0 (s.bitmapMalloc size).2
  | moved {t : Heap} : addr ≠ 0 → size ≠ 0 → s.mem.load (addr - 4) * BitVec.ofNat 32 pageSize < size →
      (s.bitmapMalloc size).1 ≠ 0 →
      ((s.bitmapMalloc size).2.copied (s.bitmapMalloc size).1 addr
        (s.mem.load (addr - 4) * BitVec.ofNat 32 pageSize).toNat).bitmapFree addr = some t →
      Realloc s addr size (s.bitmapMalloc size).1 t

theorem realloc_cases {s t : Heap} {addr size ret : BitVec 32}
    (result : s.bitmapRealloc addr size = some (ret, t)) : Realloc s addr size ret t := by
  unfold bitmapRealloc at result
  by_cases null : addr = 0
  · rw [if_pos null] at result
    have same := Option.some.inj result
    have ret_ := congrArg Prod.fst same
    have heap_ := congrArg Prod.snd same
    subst ret_ heap_
    exact .malloc null
  rw [if_neg null] at result
  by_cases empty : size = 0
  · rw [if_pos empty] at result
    obtain ⟨u, freed, same⟩ := Option.map_eq_some_iff.1 result
    cases same
    exact .free null empty freed
  rw [if_neg empty] at result
  simp only [] at result
  by_cases larger : s.mem.load (addr - 4) * BitVec.ofNat 32 pageSize < size
  · have old : ¬ size < s.mem.load (addr - 4) * BitVec.ofNat 32 pageSize := by
      bv_omega
    rw [if_pos larger, if_neg old] at result
    by_cases nonzero : (s.bitmapMalloc size).1 ≠ 0
    · rw [if_pos nonzero] at result
      obtain ⟨u, freed, same⟩ := Option.map_eq_some_iff.1 result
      cases same
      exact .moved null empty larger nonzero freed
    · rw [if_neg nonzero] at result
      cases result
      rw [not_not.1 nonzero]
      exact .failed null empty larger (not_not.1 nonzero)
  · rw [if_neg larger] at result
    cases result
    exact .inPlace null empty (BitVec.not_lt.1 larger)

end Heap

/-! ## Runs -/

namespace Arena

variable {bytesLen : BitVec 32} {mem : Memory} {s t u : Arena} {op : HeapOp}
  {steps : List (Arena × HeapOp × Arena)}

/-- The size that a call asks `bitmap_malloc` for. -/
def request (s : Arena) : HeapOp → Option (BitVec 32)
  | .malloc size => some size
  | .realloc addr size =>
      if addr = 0 then some size
      else if size = 0 then none
      else if s.heap.mem.load (addr - 4) * BitVec.ofNat 32 pageSize < size then some size
      else none
  | .free _ => none
  | .write _ _ => none

/-- A call whose search stays in the map. -/
def Within (s : Arena) (op : HeapOp) : Prop :=
  ∀ size, s.request op = some size → s.heap.Stays (pagesFor size)

theorem start_laid (enough : 0x400000 ≤ bytesLen.toNat) (bounded : bytesLen ≤ mapAddrMax) :
    (start mem bytesLen).heap.Laid bytesLen :=
  ⟨enough, bounded, rfl, rfl, rfl, 0, Nat.zero_le _, by
    rw [Nat.zero_mul]
    exact (add_zero _).symm⟩

theorem laid_step (laid : s.heap.Laid bytesLen) (within : s.Within op) (next : s.step op = some t) :
    t.heap.Laid bytesLen := by
  cases op with
  | malloc size =>
      cases next
      exact laid.malloc (within size rfl)
  | free addr =>
      simp only [step] at next
      by_cases member : addr ∈ s.live
      · rw [if_pos member] at next
        obtain ⟨heap, freed, same⟩ := Option.map_eq_some_iff.1 next
        cases same
        exact laid.free freed
      · rw [if_neg member] at next
        cases next
  | write addr byte =>
      simp only [step] at next
      split at next
      · cases next
        exact laid.withMem _
      · cases next
  | realloc addr size =>
      simp only [step] at next
      split at next
      · obtain ⟨⟨ret, heap⟩, result, same⟩ := Option.map_eq_some_iff.1 next
        cases same
        cases Heap.realloc_cases result with
        | malloc null => exact laid.malloc (within size (if_pos null))
        | free _ _ freed => exact laid.free freed
        | inPlace => exact laid
        | failed null empty larger none_ =>
            exact laid.malloc (within size (by rw [request, if_neg null, if_neg empty, if_pos larger]))
        | moved null empty larger some_ freed =>
            have laid' := laid.malloc
              (within size (by rw [request, if_neg null, if_neg empty, if_pos larger]))
            exact (laid'.withMem _).free freed
      · cases next

/-- The calls of a run up to one that does not stay in the map. -/
theorem laid_run (enough : 0x400000 ≤ bytesLen.toNat) (bounded : bytesLen ≤ mapAddrMax)
    (path : Path step (start mem bytesLen) steps s)
    (within : ∀ t op u, (t, op, u) ∈ steps → t.Within op) : s.heap.Laid bytesLen := by
  induction path with
  | start => exact start_laid enough bounded
  | snoc path next ih =>
      refine laid_step (ih fun t op u member => within t op u (List.mem_append_left _ member)) ?_ next
      exact within _ _ _ (List.mem_append_right _ List.mem_cons_self)

/-- **The search stays in the map** as long as every call meets its condition, and
the first call that does not meet it leaves the map. -/
theorem run_inside_iff (enough : 0x400000 ≤ bytesLen.toNat) (bounded : bytesLen ≤ mapAddrMax)
    (path : Path step (start mem bytesLen) steps s)
    (within : ∀ t op u, (t, op, u) ∈ steps → t.Within op) :
    (∀ t op u, (t, op, u) ∈ steps → ∀ size, t.request op = some size →
      ∀ i ∈ t.heap.mallocIndices size, t.heap.InMap i) ∧
    ∀ size, (∀ i ∈ s.heap.mallocIndices size, s.heap.InMap i) ↔ s.heap.Stays (pagesFor size) := by
  refine ⟨?_, fun size => (laid_run enough bounded path within).indices_inside_iff⟩
  induction path with
  | start => exact fun t op u member => absurd member List.not_mem_nil
  | snoc path next ih =>
      have before := fun t op u member => within t op u (List.mem_append_left _ member)
      intro t op u member size asked
      rcases List.mem_append.1 member with earlier | last
      · exact ih before t op u earlier size asked
      · have laid := laid_run enough bounded path before
        have stays := within t op u member size asked
        cases List.mem_singleton.1 last
        exact laid.indices_inside_iff.2 stays

theorem step_malloc (s : Arena) (size : BitVec 32) : s.step (.malloc size) =
    some ⟨(s.heap.bitmapMalloc size).2, hold s.live (s.heap.bitmapMalloc size).1⟩ := rfl

/-- A heap of eight pages. -/
def eightPages : Arena := start (fun _ => 0) 0x408001

/-- One of them is taken. -/
def oneTaken : Arena :=
  ⟨(eightPages.heap.bitmapMalloc 1).2, hold eightPages.live (eightPages.heap.bitmapMalloc 1).1⟩

theorem eightPages_within : eightPages.Within (.malloc 1) := by
  intro size asked
  have same : 1 = size := Option.some.inj asked
  have one : pagesFor 1 = 1 := rfl
  have first : eightPages.heap.cursor = 0 := by
    decide +kernel
  have pages : eightPages.heap.mapSize = 1 := by
    decide +kernel
  rw [← same, Heap.Stays, if_neg (by decide), first, pages, one]
  refine .inl ⟨0, by omega, by omega, fun p _ below => ?_⟩
  have inside : p < 8 * eightPages.heap.mapSize := by
    rw [pages]
    omega
  exact initBitmap_used _ _ inside

theorem run_inside_eight :
    (∀ t op u, (t, op, u) ∈ [(eightPages, HeapOp.malloc 1, oneTaken)] →
      ∀ size, t.request op = some size → ∀ i ∈ t.heap.mallocIndices size, t.heap.InMap i) ∧
    ∀ size, (∀ i ∈ oneTaken.heap.mallocIndices size, oneTaken.heap.InMap i) ↔
      oneTaken.heap.Stays (pagesFor size) :=
  @run_inside_iff 0x408001 (fun _ => 0) oneTaken [(eightPages, .malloc 1, oneTaken)] (by decide) (by decide)
    (Path.start.snoc (step_malloc eightPages 1)) fun t op u member => by
      cases List.mem_singleton.1 member
      exact eightPages_within

/-- Nine pages of eight: the run is carried over the end, and the marking loop is at -1. -/
theorem search_leaves_map :
    ∃ i ∈ eightPages.heap.mallocIndices (8 * 4096), ¬ eightPages.heap.InMap i :=
  ⟨-1, by decide +kernel, fun inside => absurd inside.1 (by decide)⟩

end Arena

end TestOs.Memory
