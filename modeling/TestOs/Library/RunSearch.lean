/-
# Library.RunSearch -- the first run of free places

`scan` goes along a row of places, counts the free ones since the last used one,
and stops where the count reaches `size`.  The count it starts with stands for a
run that ends in front of the first place; it may be one that is not there.
`scan_cases` is its specification: either the run it stops at is free as far as
the row was searched, or there is no run and the count is that of the free
places at the end.
-/
import Mathlib

namespace TestOs.Library

set_option autoImplicit false

/-- The place where the count of free places since the last used one reaches
`size`, and the count; `left` places are searched from `p` on. -/
def scan (used : Nat → Bool) (size : Nat) : (left p found : Nat) → Option Nat × Nat
  | 0, _, found => (none, found)
  | left + 1, p, found =>
      let found := if used p then 0 else found + 1
      if found = size then (some p, found) else scan used size left (p + 1) found

section Scan

variable {used used' : Nat → Bool} {size left p found : Nat}

/-- Free places only. -/
theorem scan_free (below : found < size) (free : ∀ q, p ≤ q → q < p + left → used q = false) :
    scan used size left p found =
      if size ≤ found + left then (some (p + size - found - 1), size) else (none, found + left) := by
  induction left generalizing p found with
  | zero => rw [scan, if_neg (by omega), Nat.add_zero]
  | succ left ih =>
      have here := free p (by omega) (by omega)
      simp only [scan, here, Bool.false_eq_true, if_false]
      by_cases last : found + 1 = size
      · rw [if_pos last, if_pos (by omega)]
        congr 2
        omega
      · rw [if_neg last, ih (by omega) fun q low high => free q (by omega) (by omega)]
        split
        · rw [if_pos (by omega)]
          congr 2
          omega
        · rw [if_neg (by omega)]
          congr 1
          omega

/-- Used places first: the count is 0 behind them. -/
theorem scan_used (skip : Nat) (positive : 0 < size) (full : ∀ q, p ≤ q → q < p + skip → used q = true) :
    scan used size (skip + left) p found =
      scan used size left (p + skip) (if skip = 0 then found else 0) := by
  induction skip generalizing p found with
  | zero => rw [Nat.zero_add, Nat.add_zero, if_pos rfl]
  | succ skip ih =>
      have here := full p (by omega) (by omega)
      rw [show skip + 1 + left = skip + left + 1 by omega]
      simp only [scan, here, if_true]
      rw [if_neg (by omega), ih fun q low high => full q (by omega) (by omega), ite_self,
        if_neg (by omega), show p + 1 + skip = p + (skip + 1) by omega]

theorem scan_full (positive : 0 < size) (full : ∀ q, p ≤ q → q < p + left → used q = true) :
    scan used size left p 0 = (none, 0) := by
  have skipped := @scan_used used size 0 p 0 left positive full
  rw [ite_self] at skipped
  exact skipped

/-- Only the places searched matter. -/
theorem scan_congr (same : ∀ q, p ≤ q → q < p + left → used' q = used q) :
    scan used' size left p found = scan used size left p found := by
  induction left generalizing p found with
  | zero => rfl
  | succ left ih =>
      simp only [scan, same p (by omega) (by omega)]
      rw [ih fun q low high => same q (by omega) (by omega)]

/-- Where the search ends well, more places behind do not matter. -/
theorem scan_more {q count : Nat} (more : Nat)
    (result : scan used size left p found = (some q, count)) :
    scan used size (left + more) p found = (some q, count) := by
  induction left generalizing p found with
  | zero => cases result
  | succ left ih =>
      rw [show left + 1 + more = left + more + 1 by omega]
      simp only [scan] at result ⊢
      by_cases last : (if used p then 0 else found + 1) = size
      · rw [if_pos last] at result ⊢
        exact result
      · rw [if_neg last] at result ⊢
        exact ih result

theorem scan_from {q count : Nat} (result : scan used size left p found = (some q, count)) : p ≤ q := by
  induction left generalizing p found with
  | zero => cases result
  | succ left ih =>
      simp only [scan] at result
      by_cases last : (if used p then 0 else found + 1) = size
      · rw [if_pos last] at result
        cases result
        exact le_refl _
      · rw [if_neg last] at result
        exact Nat.le_of_succ_le (ih result)

theorem scan_lt {q count : Nat} (result : scan used size left p found = (some q, count)) :
    q < p + left := by
  induction left generalizing p found with
  | zero => cases result
  | succ left ih =>
      simp only [scan] at result
      by_cases last : (if used p then 0 else found + 1) = size
      · rw [if_pos last] at result
        cases result
        omega
      · rw [if_neg last] at result
        have inside := ih result
        omega

/-- What the search tells of the row: on success the places of the run from `p`
on are free, and as many more were counted before; otherwise every run of the
row is too short. -/
structure RunAt (used : Nat → Bool) (size p found q : Nat) : Prop where
  from_ : p ≤ q
  free : ∀ r, p ≤ r → q < r + size → r ≤ q → used r = false
  counted : q + 1 < p + size → found + (q + 1 - p) = size

theorem scan_some {q count : Nat} (below : found < size)
    (result : scan used size left p found = (some q, count)) :
    RunAt used size p found q ∧ q < p + left ∧ count = size := by
  induction left generalizing p found with
  | zero => cases result
  | succ left ih =>
      simp only [scan] at result
      by_cases here : used p = true
      · rw [if_pos here] at result
        rw [if_neg (by omega)] at result
        obtain ⟨run, inside, counted⟩ := ih (by omega) result
        refine ⟨⟨by have := run.from_; omega, fun r low near high => ?_, fun short => ?_⟩, by omega,
          counted⟩
        · by_cases first : r = p
          · -- a run of `size` places that starts behind `p` does not reach it
            have few := run.counted
            have from_ := run.from_
            omega
          · exact run.free r (by omega) near high
        · have few := run.counted
          have from_ := run.from_
          omega
      · have free : used p = false := by simpa using here
        rw [if_neg here] at result
        by_cases last : found + 1 = size
        · rw [if_pos last] at result
          cases result
          refine ⟨⟨le_refl _, fun r low _ high => ?_, fun _ => by omega⟩, by omega, last⟩
          have first : r = q := by omega
          rwa [first]
        · rw [if_neg last] at result
          obtain ⟨run, inside, counted⟩ := ih (by omega) result
          refine ⟨⟨by have := run.from_; omega, fun r low near high => ?_, fun short => ?_⟩, by omega,
            counted⟩
          · by_cases first : r = p
            · rwa [first]
            · exact run.free r (by omega) near high
          · have few := run.counted
            have from_ := run.from_
            omega

/-- Where the search fails, the count is that of the free places at the end: all
of them and the ones counted before, or those behind the last used one. -/
structure NoRun (used : Nat → Bool) (size left p found count : Nat) : Prop where
  below : count < size
  lead : size ≤ found + left → ∃ r, p ≤ r ∧ found + r < p + size ∧ used r = true
  short : ∀ q, p ≤ q → q + size ≤ p + left → ∃ r, q ≤ r ∧ r < q + size ∧ used r = true
  tail : count = found + left ∧ (∀ r, p ≤ r → r < p + left → used r = false) ∨
    count < left ∧ used (p + left - count - 1) = true ∧
      ∀ r, p + left - count ≤ r → r < p + left → used r = false

theorem scan_none {count : Nat} (below : found < size)
    (result : scan used size left p found = (none, count)) :
    NoRun used size left p found count := by
  induction left generalizing p found with
  | zero =>
      cases result
      exact ⟨below, fun long => by omega, fun q low high => by omega, .inl ⟨rfl, fun r low high => by omega⟩⟩
  | succ left ih =>
      simp only [scan] at result
      by_cases here : used p = true
      · rw [if_pos here, if_neg (by omega)] at result
        obtain ⟨below', -, short, tail⟩ := ih (by omega) result
        refine ⟨below', fun _ => ⟨p, by omega, by omega, here⟩, fun q low high => ?_, .inr ?_⟩
        · by_cases first : q = p
          · exact ⟨p, by omega, by omega, here⟩
          · exact short q (by omega) (by omega)
        · rcases tail with ⟨all, free⟩ | ⟨few, last, free⟩
          · refine ⟨by omega, ?_, fun r low high => free r (by omega) (by omega)⟩
            rwa [show p + (left + 1) - count - 1 = p by omega]
          · refine ⟨by omega, ?_, fun r low high => free r (by omega) (by omega)⟩
            rwa [show p + (left + 1) - count - 1 = p + 1 + left - count - 1 by omega]
      · have free : used p = false := by simpa using here
        rw [if_neg here] at result
        by_cases last : found + 1 = size
        · rw [if_pos last] at result
          cases result
        · rw [if_neg last] at result
          obtain ⟨below', lead, short, tail⟩ := ih (by omega) result
          have lead' : size ≤ found + (left + 1) → ∃ r, p ≤ r ∧ found + r < p + size ∧ used r = true := by
            intro long
            obtain ⟨r, low, high, isUsed⟩ := lead (by omega)
            exact ⟨r, by omega, by omega, isUsed⟩
          refine ⟨below', lead', fun q low high => ?_, ?_⟩
          · by_cases first : q = p
            · obtain ⟨r, low', high', isUsed⟩ := lead' (by omega)
              exact ⟨r, by omega, by omega, isUsed⟩
            · exact short q (by omega) (by omega)
          · rcases tail with ⟨all, free'⟩ | ⟨few, last', free'⟩
            · refine .inl ⟨by omega, fun r low high => ?_⟩
              by_cases isFirst : r = p
              · rwa [isFirst]
              · exact free' r (by omega) (by omega)
            · refine .inr ⟨by omega, ?_, fun r low high => free' r (by omega) (by omega)⟩
              rwa [show p + (left + 1) - count - 1 = p + 1 + left - count - 1 by omega]

end Scan

/-! ## What the search finds -/

/-- So many free places from `a` on. -/
def FreeRun (used : Nat → Bool) (a size : Nat) : Prop := ∀ p, a ≤ p → p < a + size → used p = false

/-- Such a run between two places. -/
def HasRun (used : Nat → Bool) (low high size : Nat) : Prop :=
  ∃ a, low ≤ a ∧ a + size ≤ high ∧ FreeRun used a size

section Find

variable {used : Nat → Bool} {size left p found : Nat}

theorem HasRun.mono {low high low' high' : Nat} (run : HasRun used low high size) (below : low' ≤ low)
    (above : high ≤ high') : HasRun used low' high' size := by
  obtain ⟨a, from_, upTo, free⟩ := run
  exact ⟨a, by omega, by omega, free⟩

/-- The search succeeds where there is a run, or where the first places complete
the count that it started with. -/
theorem scan_finds_iff (below : found < size) :
    (∃ q count, scan used size left p found = (some q, count)) ↔
      HasRun used p (p + left) size ∨ size ≤ found + left ∧ FreeRun used p (size - found) := by
  constructor
  · rintro ⟨q, count, result⟩
    obtain ⟨run, inside, -⟩ := scan_some below result
    by_cases short : q + 1 < p + size
    · have few := run.counted short
      have from_ := run.from_
      exact .inr ⟨by omega, fun r low high => run.free r low (by omega) (by omega)⟩
    · exact .inl ⟨q + 1 - size, by omega, by omega, fun r low high =>
        run.free r (by omega) (by omega) (by omega)⟩
  · intro run
    cases result : scan used size left p found with
    | mk place count =>
        cases place with
        | some q => exact ⟨q, count, rfl⟩
        | none =>
            have none_ := scan_none below result
            rcases run with ⟨a, from_, upTo, free⟩ | ⟨long, free⟩
            · obtain ⟨r, low, high, isUsed⟩ := none_.short a from_ upTo
              rw [free r low high] at isUsed
              cases isUsed
            · obtain ⟨r, low, high, isUsed⟩ := none_.lead long
              rw [free r low (by omega)] at isUsed
              cases isUsed

/-- The first run between two places. -/
structure FirstRun (used : Nat → Bool) (low high size a : Nat) : Prop where
  from_ : low ≤ a
  inside : a + size ≤ high
  free : FreeRun used a size
  first : ∀ b, low ≤ b → FreeRun used b size → a ≤ b

/-- The free places at the end of a row. -/
structure Trailing (used : Nat → Bool) (low high count : Nat) : Prop where
  inside : low + count ≤ high
  free : FreeRun used (high - count) count
  most : ∀ more, low + more ≤ high → FreeRun used (high - more) more → more ≤ count

/-- With nothing counted before, the search stops at the end of the first run. -/
theorem scan_first {q count : Nat} (positive : 0 < size)
    (result : scan used size left p 0 = (some q, count)) :
    size ≤ q + 1 ∧ FirstRun used p (p + left) size (q + 1 - size) := by
  obtain ⟨run, inside, -⟩ := scan_some positive result
  have long : p + size ≤ q + 1 := by
    by_contra short
    have few := run.counted (by omega)
    have from_ := run.from_
    omega
  refine ⟨by omega, by omega, by omega, fun r low high => run.free r (by omega) (by omega) (by omega),
    fun a from_ free => ?_⟩
  by_contra behind
  -- the search already ends at the run at `a`
  obtain ⟨q', count', earlier⟩ := (@scan_finds_iff used size (a + size - p) p 0 positive).2
    (.inl ⟨a, from_, by omega, free⟩)
  have inside' := (scan_some positive earlier).2.1
  have again := scan_more (left - (a + size - p)) earlier
  rw [show a + size - p + (left - (a + size - p)) = left by omega, result] at again
  cases again
  omega

/-- Where it fails, the count is that of the free places at the end. -/
theorem scan_trailing {count : Nat} (positive : 0 < size)
    (result : scan used size left p 0 = (none, count)) :
    count < size ∧ Trailing used p (p + left) count := by
  have none_ := scan_none positive result
  refine ⟨none_.below, ?_⟩
  rcases none_.tail with ⟨all, free⟩ | ⟨few, last, free⟩
  · exact ⟨by omega, fun r low high => free r (by omega) (by omega), fun more inside _ => by omega⟩
  · refine ⟨by omega, fun r low high => free r (by omega) (by omega), fun more inside free' => ?_⟩
    by_contra longer
    rw [free' _ (by omega) (by omega)] at last
    cases last

/-- Nothing is looked for: the search stops at the first used place. -/
theorem scan_nothing_free (free : FreeRun used p left) :
    scan used 0 left p found = (none, found + left) := by
  induction left generalizing p found with
  | zero => rfl
  | succ left ih =>
      rw [scan, free p (le_refl _) (by omega)]
      simp only [Bool.false_eq_true, if_false]
      rw [if_neg (by omega), ih fun r low high => free r (by omega) (by omega)]
      congr 1
      omega

theorem scan_nothing_used {q : Nat} (low : p ≤ q) (high : q < p + left) (isUsed : used q = true)
    (free : FreeRun used p (q - p)) : scan used 0 left p found = (some q, 0) := by
  induction left generalizing p found with
  | zero => omega
  | succ left ih =>
      rw [scan]
      by_cases here : p = q
      · rw [here, isUsed]
        rfl
      · rw [free p (le_refl _) (by omega)]
        simp only [Bool.false_eq_true, if_false]
        rw [if_neg (by omega)]
        exact ih (by omega) (by omega) fun r low' high' => free r (by omega) (by omega)

/-- Either all places are free or there is a first used one. -/
theorem free_or_first (used : Nat → Bool) (p left : Nat) : FreeRun used p left ∨
    ∃ q, p ≤ q ∧ q < p + left ∧ used q = true ∧ FreeRun used p (q - p) := by
  induction left with
  | zero => exact .inl fun r low high => by omega
  | succ left ih =>
      rcases ih with free | ⟨q, low, high, isUsed, free⟩
      · by_cases last : used (p + left) = true
        · exact .inr ⟨p + left, by omega, by omega, last, by rwa [Nat.add_sub_cancel_left]⟩
        · refine .inl fun r low high => ?_
          by_cases same : r = p + left
          · rw [same]
            simpa using last
          · exact free r low (by omega)
      · exact .inr ⟨q, low, by omega, isUsed, free⟩

end Find

end TestOs.Library
