/-
# Graphics.Lines -- put_line draws a digital line

`put_line` counts the axis along which the end points are further apart upwards,
from the smaller end, and carries a number whose sign says whether the other
coordinate moves.  `lineLoop_eq` gives every pixel: the one at place `i` is the
rounded height of the ideal line there.
-/
import TestOs.Library.SignedWords
import TestOs.Library.Lines
import TestOs.Graphics.Vbe

namespace TestOs.Graphics

open TestOs.Library

set_option autoImplicit false

theorem toInt_succ {u stop : BitVec 32} (below : u.slt stop = true) : (u + 1).toInt = u.toInt + 1 := by
  have less : u.toInt < stop.toInt := BitVec.slt_iff_toInt_lt.1 below
  have one : (1 : BitVec 32).toInt = 1 := rfl
  have low := toInt_signed u
  have high := toInt_signed stop
  rw [toInt_add_signed, one]
  rw [one]
  exact ⟨by linarith [low.1], by linarith [high.2]⟩

/-- One of the two loops of `put_line`: `u` counts up to `stop`, and `v` moves with it.
`p` and `k` are the variables of the source, and `plot` puts the coordinates in order. -/
def lineLoop (plot : BitVec 32 → BitVec 32 → Pixel) (du dv k stop u v p : BitVec 32) : List Pixel :=
  if u.slt stop then
    plot u v ::
      if p.slt 0 then lineLoop plot du dv k stop (u + 1) v (p + (dv <<< 1))
      else
        lineLoop plot du dv k stop (u + 1) (if (0 : BitVec 32).slt k then v + 1 else v - 1)
          (p + ((dv - du) <<< 1))
  else []
termination_by (stop.toInt - u.toInt).toNat
decreasing_by
  all_goals
    have below : u.slt stop = true := by assumption
    have less : u.toInt < stop.toInt := BitVec.slt_iff_toInt_lt.1 below
    rw [toInt_succ below]
    omega

/-- `put_line`: the positions that it draws at, in order. -/
def putLine (x1 y1 x2 y2 : BitVec 32) : List Pixel :=
  let dx := if (x2 - x1).slt 0 then -(x2 - x1) else x2 - x1
  let dy := if (y2 - y1).slt 0 then -(y2 - y1) else y2 - y1
  let k := (x2 - x1) * (y2 - y1)
  if dy.sle dx then
    let p := (dy <<< 1) - dx
    if x1.slt x2 then lineLoop (fun x y => (x, y)) dx dy k x2 x1 y1 p
    else lineLoop (fun x y => (x, y)) dx dy k x1 x2 y2 p
  else
    let p := (dx <<< 1) - dy
    if y1.slt y2 then lineLoop (fun y x => (x, y)) dy dx k y2 y1 x1 p
    else lineLoop (fun y x => (x, y)) dy dx k y1 y2 x2 p

section Loop

variable {plot : BitVec 32 → BitVec 32 → Pixel} {du dv k stop : BitVec 32} {start : Int}

/-- The direction in which `v` moves. -/
def slope (k : BitVec 32) : Int := if (0 : BitVec 32).slt k then 1 else -1

theorem toInt_move {v : BitVec 32} (low : -2 ^ 20 ≤ v.toInt) (high : v.toInt < 2 ^ 20) :
    (if (0 : BitVec 32).slt k then v + 1 else v - 1).toInt = v.toInt + slope k := by
  have one : (1 : BitVec 32).toInt = 1 := rfl
  unfold slope
  split
  · rw [toInt_add_signed, one]
    rw [one]
    constructor <;> omega
  · rw [toInt_sub_signed, one]
    · omega
    · rw [one]
      constructor <;> omega

/-- From place `i` on, with `n` places to go, the loop plots the digital line. -/
theorem lineLoop_eq (long : 0 < du.toInt) (level : 0 ≤ dv.toInt) (flat : dv.toInt ≤ du.toInt)
    (short : du.toInt < 2 ^ 15) (near : -2 ^ 14 < start ∧ start < 2 ^ 14) (n i : Nat)
    {u v p : BitVec 32} (left : du.toInt = i + n) (isStop : stop.toInt = u.toInt + n)
    (isHeight : v.toInt = start + slope k * rise du.toInt dv.toInt i)
    (isLeaning : p.toInt = leaning du.toInt dv.toInt i) :
    lineLoop plot du dv k stop u v p = (List.range n).map fun j : Nat =>
      plot (BitVec.ofInt 32 (u.toInt + j))
        (BitVec.ofInt 32 (start + slope k * rise du.toInt dv.toInt (i + j))) := by
  induction n generalizing i u v p with
  | zero =>
      have stops : ¬ u.slt stop = true := by
        rw [BitVec.slt_iff_toInt_lt]
        omega
      rw [lineLoop, if_neg stops]
      rfl
  | succ n ih =>
      have goes : u.slt stop = true := by
        rw [BitVec.slt_iff_toInt_lt]
        omega
      have place : ((i + 1 : Nat) : Int) = (i : Int) + 1 := by push_cast; rfl
      have isNext := toInt_succ goes
      have bounds := leaning_bounds long level flat i
      have growth := leaning_succ long level flat i
      have height := rise_succ long level flat i
      have here : plot u v = plot (BitVec.ofInt 32 (u.toInt + (0 : Nat)))
          (BitVec.ofInt 32 (start + slope k * rise du.toInt dv.toInt (i + (0 : Nat)))) := by
        simp [← isHeight]
      have later (j : Nat) : plot (BitVec.ofInt 32 ((u + 1).toInt + j))
            (BitVec.ofInt 32 (start + slope k * rise du.toInt dv.toInt ((i + 1 : Nat) + j))) =
          plot (BitVec.ofInt 32 (u.toInt + (j + 1 : Nat)))
            (BitVec.ofInt 32 (start + slope k * rise du.toInt dv.toInt (i + (j + 1 : Nat)))) := by
        have first : (u + 1).toInt + j = u.toInt + (j + 1 : Nat) := by
          rw [isNext]
          push_cast
          ring
        have second : (((i + 1 : Nat) : Int) + j) = (i : Int) + (j + 1 : Nat) := by
          push_cast
          ring
        rw [first, second]
      rw [lineLoop, if_pos goes, List.range_succ_eq_map, List.map_cons, List.map_map, ← here]
      congr 1
      -- the next turn starts at the next place, whichever way the sign goes
      have step {v' p' : BitVec 32}
          (isHeight' : v'.toInt = start + slope k * rise du.toInt dv.toInt (i + 1 : Nat))
          (isLeaning' : p'.toInt = leaning du.toInt dv.toInt (i + 1 : Nat)) :
          lineLoop plot du dv k stop (u + 1) v' p' = (List.range n).map ((fun j : Nat =>
            plot (BitVec.ofInt 32 (u.toInt + j))
              (BitVec.ofInt 32 (start + slope k * rise du.toInt dv.toInt (i + j)))) ∘ Nat.succ) := by
        rw [ih (i + 1) (by omega) (by omega) isHeight' isLeaning']
        apply List.map_congr_left
        intro j _
        exact later j
      have negative : p.slt 0 = true ↔ leaning du.toInt dv.toInt i < 0 := by
        rw [BitVec.slt_iff_toInt_lt, isLeaning]
        rfl
      have doubled : (dv <<< 1).toInt = 2 * dv.toInt := by
        apply toInt_double
        constructor <;> omega
      have difference : (dv - du).toInt = dv.toInt - du.toInt := by
        apply toInt_sub_signed
        constructor <;> omega
      have doubled' : ((dv - du) <<< 1).toInt = 2 * (dv.toInt - du.toInt) := by
        rw [toInt_double, difference]
        rw [difference]
        constructor <;> omega
      split
      · rename_i stays
        rw [negative] at stays
        rw [if_pos stays] at growth height
        apply step
        · rw [isHeight, place, height]
        · rw [place, growth, ← isLeaning, toInt_add_signed, doubled]
          rw [doubled]
          constructor <;> omega
      · rename_i grows
        rw [negative] at grows
        rw [if_neg grows] at growth height
        have inside := rise_bounds long level flat (Int.natCast_nonneg i)
        apply step
        · have range : -2 ^ 20 ≤ v.toInt ∧ v.toInt < 2 ^ 20 := by
            rw [isHeight]
            unfold slope
            split <;> constructor <;> omega
          rw [toInt_move range.1 range.2, isHeight, place, height]
          ring
        · rw [place, growth, ← isLeaning, toInt_add_signed, doubled']
          rw [doubled']
          constructor <;> omega

end Loop

/-! ## The ideal line -/

/-- There is one pixel for each of the `du` places from the start on, in order, and none
is further than half a pixel from the line. -/
structure Follows (pixels : List (Int × Int)) (start : Int × Int) (du dv s : Int) : Prop where
  places : pixels.map Prod.fst = (List.range du.toNat).map fun i : Nat => start.1 + i
  near : ∀ q ∈ pixels, |2 * du * (q.2 - start.2) - 2 * s * dv * (q.1 - start.1)| ≤ du

section Whole

variable {plot : BitVec 32 → BitVec 32 → Pixel} {coords : Pixel → Int × Int}
  {du dv k stop u v p : BitVec 32} {s : Int}

/-- The heights of a digital line, in either direction. -/
theorem rise_follows {du dv : Int} (long : 0 < du) (isSlope : s = slope k ∨ dv = 0) (i : Int) :
    |2 * du * (slope k * rise du dv i) - 2 * s * dv * i| ≤ du := by
  obtain ⟨low, high⟩ := rise_near long dv i
  rw [abs_le]
  rcases isSlope with rfl | rfl
  · unfold slope
    split
    · constructor <;> linarith
    · constructor <;> linarith
  · have flat : rise du 0 i = 0 := by
      rw [rise_eq_iff long]
      constructor <;> omega
    rw [flat]
    constructor <;> linarith

/-- A loop from its start on. -/
theorem lineLoop_follows (isCoords : ∀ u v, coords (plot u v) = (u.toInt, v.toInt))
    (level : 0 ≤ dv.toInt) (flat : dv.toInt ≤ du.toInt) (short : du.toInt < 2 ^ 15)
    (nearU : -2 ^ 14 < u.toInt ∧ u.toInt < 2 ^ 14) (nearV : -2 ^ 14 < v.toInt ∧ v.toInt < 2 ^ 14)
    (isStop : stop.toInt = u.toInt + du.toInt) (isLeaning : p.toInt = 2 * dv.toInt - du.toInt)
    (isSlope : s = slope k ∨ dv.toInt = 0) :
    Follows ((lineLoop plot du dv k stop u v p).map coords) (u.toInt, v.toInt) du.toInt dv.toInt s := by
  by_cases long : 0 < du.toInt
  · have isLength : du.toInt = ((0 : Nat) : Int) + du.toInt.toNat := by omega
    have isHeight : v.toInt = v.toInt + slope k * rise du.toInt dv.toInt (0 : Nat) := by
      rw [Nat.cast_zero, rise_zero long]
      ring
    have atStart : p.toInt = leaning du.toInt dv.toInt (0 : Nat) := by
      rw [Nat.cast_zero, leaning_zero long, isLeaning]
    have pixels : (lineLoop plot du dv k stop u v p).map coords =
        (List.range du.toInt.toNat).map fun j : Nat =>
          (u.toInt + j, v.toInt + slope k * rise du.toInt dv.toInt j) := by
      rw [lineLoop_eq long level flat short nearV du.toInt.toNat 0 isLength (by omega) isHeight atStart,
        List.map_map]
      apply List.map_congr_left
      intro j below
      have within := List.mem_range.1 below
      have inside := rise_bounds long level flat (Int.natCast_nonneg j)
      simp only [Function.comp, isCoords, Nat.cast_zero, zero_add]
      rw [toInt_ofInt_signed, toInt_ofInt_signed]
      · unfold slope
        split <;> constructor <;> omega
      · constructor <;> omega
    rw [pixels]
    constructor
    · rw [List.map_map]
      rfl
    · intro q inLine
      obtain ⟨j, -, rfl⟩ := List.mem_map.1 inLine
      simp only [add_sub_cancel_left]
      exact rise_follows long isSlope j
  · have stops : ¬ u.slt stop = true := by
      rw [BitVec.slt_iff_toInt_lt]
      omega
    have nothing : du.toInt.toNat = 0 := by omega
    rw [lineLoop, if_neg stops]
    constructor
    · rw [nothing]
      rfl
    · intro q inLine
      cases inLine

end Whole

section Ends

variable {x1 y1 x2 y2 : BitVec 32}

/-- A coordinate whose differences, and the products of these, are no overflow. -/
def Near (x : BitVec 32) : Prop := -2 ^ 14 < x.toInt ∧ x.toInt < 2 ^ 14

instance (x : BitVec 32) : Decidable (Near x) := inferInstanceAs (Decidable (_ ∧ _))

theorem toInt_difference (near : Near x1) (near' : Near x2) :
    (x2 - x1).toInt = x2.toInt - x1.toInt := by
  unfold Near at near near'
  apply toInt_sub_signed
  constructor <;> omega

theorem toInt_distance (near : Near x1) (near' : Near x2) :
    (if (x2 - x1).slt 0 then -(x2 - x1) else x2 - x1).toInt = |x2.toInt - x1.toInt| := by
  have difference := toInt_difference near near'
  have negative : (x2 - x1).slt 0 = true ↔ x2.toInt - x1.toInt < 0 := by
    rw [BitVec.slt_iff_toInt_lt, difference]
    rfl
  unfold Near at near near'
  split
  · rename_i below
    rw [negative] at below
    rw [abs_of_neg below, toInt_neg_signed, difference]
    rw [difference]
    constructor <;> omega
  · rename_i above
    rw [negative] at above
    rw [abs_of_nonneg (by omega), difference]

theorem distance_short (near : Near x1) (near' : Near x2) :
    0 ≤ |x2.toInt - x1.toInt| ∧ |x2.toInt - x1.toInt| < 2 ^ 15 := by
  unfold Near at near near'
  refine ⟨abs_nonneg _, abs_lt.2 ⟨?_, ?_⟩⟩ <;> omega

/-- `k` has the sign of the slope, or the line is parallel to an axis. -/
theorem slope_eq (nearX1 : Near x1) (nearX2 : Near x2) (nearY1 : Near y1) (nearY2 : Near y2) :
    ((x2.toInt - x1.toInt) * (y2.toInt - y1.toInt)).sign = slope ((x2 - x1) * (y2 - y1)) ∨
      |x2.toInt - x1.toInt| = 0 ∨ |y2.toInt - y1.toInt| = 0 := by
  have isX := toInt_difference nearX1 nearX2
  have isY := toInt_difference nearY1 nearY2
  unfold Near at nearX1 nearX2 nearY1 nearY2
  have small : |(x2.toInt - x1.toInt) * (y2.toInt - y1.toInt)| ≤ 2 ^ 15 * 2 ^ 15 := by
    rw [abs_mul]
    apply mul_le_mul _ _ (abs_nonneg _) (by norm_num)
    · rw [abs_le]
      constructor <;> omega
    · rw [abs_le]
      constructor <;> omega
  rw [abs_le] at small
  have isK : ((x2 - x1) * (y2 - y1)).toInt = (x2.toInt - x1.toInt) * (y2.toInt - y1.toInt) := by
    rw [← isX, ← isY] at small ⊢
    apply toInt_mul_signed
    constructor <;> omega
  have positive : (0 : BitVec 32).slt ((x2 - x1) * (y2 - y1)) = true ↔
      0 < (x2.toInt - x1.toInt) * (y2.toInt - y1.toInt) := by
    rw [BitVec.slt_iff_toInt_lt, isK]
    rfl
  unfold slope
  rcases lt_trichotomy ((x2.toInt - x1.toInt) * (y2.toInt - y1.toInt)) 0 with below | zero | above
  · left
    rw [if_neg (by rw [positive]; omega), Int.sign_eq_neg_one_of_neg below]
  · right
    rcases mul_eq_zero.1 zero with flat | flat
    · exact .inl (abs_eq_zero.2 flat)
    · exact .inr (abs_eq_zero.2 flat)
  · left
    rw [if_pos (by rw [positive]; omega), Int.sign_eq_one_of_pos above]

theorem toInt_leaning {du dv : BitVec 32} (flat : 0 ≤ dv.toInt ∧ dv.toInt < 2 ^ 15)
    (long : 0 ≤ du.toInt ∧ du.toInt < 2 ^ 15) : ((dv <<< 1) - du).toInt = 2 * dv.toInt - du.toInt := by
  have doubled : (dv <<< 1).toInt = 2 * dv.toInt := by
    apply toInt_double
    constructor <;> omega
  rw [toInt_sub_signed, doubled]
  rw [doubled]
  constructor <;> omega

/-- **`put_line` draws one pixel for each place of the axis along which the end points are
further apart, from the smaller end up to the larger without it, and none is further than
half a pixel from the ideal line.** -/
theorem putLine_ideal (nearX1 : Near x1) (nearY1 : Near y1) (nearX2 : Near x2) (nearY2 : Near y2) :
    let dx := |x2.toInt - x1.toInt|
    let dy := |y2.toInt - y1.toInt|
    let s := ((x2.toInt - x1.toInt) * (y2.toInt - y1.toInt)).sign
    (dy ≤ dx → Follows ((putLine x1 y1 x2 y2).map fun q => (q.1.toInt, q.2.toInt))
      (if x1.toInt < x2.toInt then (x1.toInt, y1.toInt) else (x2.toInt, y2.toInt)) dx dy s) ∧
    (dx < dy → Follows ((putLine x1 y1 x2 y2).map fun q => (q.2.toInt, q.1.toInt))
      (if y1.toInt < y2.toInt then (y1.toInt, x1.toInt) else (y2.toInt, x2.toInt)) dy dx s) := by
  intro dx dy s
  have isDx : _ = dx := toInt_distance nearX1 nearX2
  have isDy : _ = dy := toInt_distance nearY1 nearY2
  have isSlope : s = slope ((x2 - x1) * (y2 - y1)) ∨ dx = 0 ∨ dy = 0 :=
    slope_eq nearX1 nearX2 nearY1 nearY2
  have shortX : 0 ≤ dx ∧ dx < 2 ^ 15 := distance_short nearX1 nearX2
  have shortY : 0 ≤ dy ∧ dy < 2 ^ 15 := distance_short nearY1 nearY2
  have awayX : dx = |x2.toInt - x1.toInt| := rfl
  have awayY : dy = |y2.toInt - y1.toInt| := rfl
  clear_value dx dy s
  unfold putLine
  simp only []
  generalize (if (x2 - x1).slt 0 then -(x2 - x1) else x2 - x1) = du at isDx ⊢
  generalize (if (y2 - y1).slt 0 then -(y2 - y1) else y2 - y1) = dv at isDy ⊢
  subst isDx isDy
  constructor
  · intro flat
    have along : dv.sle du = true := BitVec.sle_iff_toInt_le.2 flat
    have isSlope' : s = slope ((x2 - x1) * (y2 - y1)) ∨ dv.toInt = 0 := by omega
    rw [if_pos along]
    by_cases order : x1.toInt < x2.toInt
    · rw [abs_of_pos (by omega)] at awayX
      rw [if_pos (BitVec.slt_iff_toInt_lt.2 order), if_pos order]
      exact lineLoop_follows (fun _ _ => rfl) shortY.1 flat shortX.2 nearX1 nearY1 (by omega)
        (toInt_leaning shortY shortX) isSlope'
    · rw [abs_of_nonpos (by omega)] at awayX
      rw [if_neg (mt BitVec.slt_iff_toInt_lt.1 order), if_neg order]
      exact lineLoop_follows (fun _ _ => rfl) shortY.1 flat shortX.2 nearX2 nearY2 (by omega)
        (toInt_leaning shortY shortX) isSlope'
  · intro steep
    have across : ¬ dv.sle du = true := by
      rw [BitVec.sle_iff_toInt_le]
      omega
    have isSlope' : s = slope ((x2 - x1) * (y2 - y1)) ∨ du.toInt = 0 := by omega
    rw [if_neg across]
    by_cases order : y1.toInt < y2.toInt
    · rw [abs_of_pos (by omega)] at awayY
      rw [if_pos (BitVec.slt_iff_toInt_lt.2 order), if_pos order]
      exact lineLoop_follows (fun _ _ => rfl) shortX.1 steep.le shortY.2 nearY1 nearX1 (by omega)
        (toInt_leaning shortX shortY) isSlope'
    · rw [abs_of_nonpos (by omega)] at awayY
      rw [if_neg (mt BitVec.slt_iff_toInt_lt.1 order), if_neg order]
      exact lineLoop_follows (fun _ _ => rfl) shortX.1 steep.le shortY.2 nearY2 nearX2 (by omega)
        (toInt_leaning shortX shortY) isSlope'

/-- A line downwards to the right. -/
theorem putLine_ideal_down :
    Follows ((putLine 2 9 12 6).map fun q => (q.1.toInt, q.2.toInt)) (2, 9) 10 3 (-1) := by
  have nearX1 : Near 2 := by decide
  have nearY1 : Near 9 := by decide
  have nearX2 : Near 12 := by decide
  have nearY2 : Near 6 := by decide
  exact (putLine_ideal nearX1 nearY1 nearX2 nearY2).1 (by decide)

end Ends

end TestOs.Graphics
