/-
# Graphics.Circles -- put_circle fills the exact disc

`put_circle` draws the disc in columns from the middle to the right, and each
column in all four quarters.  The height of a column is not computed: it starts
from the height of the column before and is decreased until the end of the column
lies in the disc.  As the columns get lower towards the edge, what is found in
this way is the full height of every column (`height_iff`).
-/
import TestOs.Graphics.Lines

namespace TestOs.Graphics

open TestOs.Library

set_option autoImplicit false

/-! ## The code -/

/-- The first inner loop of `put_circle`, which decreases `range_y`; `d` is `set_x - x`. -/
def lowerColumn (radius d : BitVec 32) : Nat → BitVec 32 → Option (BitVec 32)
  | 0, _ => none
  | fuel + 1, rangeY =>
      if (radius * radius).slt (rangeY * rangeY + d * d) then lowerColumn radius d fuel (rangeY - 1)
      else some rangeY

/-- The second inner loop, which draws one column in the four quarters. -/
def drawColumn (xTmp yTmp setX y : BitVec 32) : Nat → BitVec 32 → Option (List Pixel)
  | 0, _ => none
  | fuel + 1, setY =>
      if y.sle setY then do
        let rest ← drawColumn xTmp yTmp setX y fuel (setY - 1)
        return (xTmp - setX, yTmp - setY) :: (setX, yTmp - setY) ::
          (xTmp - setX, setY) :: (setX, setY) :: rest
      else some []

/-- The outer loop: `range_y` is carried from one column to the next. -/
def circleLoop (x y radius rangeX xTmp yTmp : BitVec 32) (fuel : Nat) :
    Nat → BitVec 32 → BitVec 32 → Option (List Pixel)
  | 0, _, _ => none
  | turns + 1, setX, rangeY =>
      if setX.sle rangeX then do
        let rangeY' ← lowerColumn radius (setX - x) fuel rangeY
        let column ← drawColumn xTmp yTmp setX y fuel (rangeY' + y)
        let rest ← circleLoop x y radius rangeX xTmp yTmp fuel turns (setX + 1) rangeY'
        return column ++ rest
      else some []

/-- `put_circle`: the positions that it draws at, in order, or `none` where a loop takes
`fuel` turns without coming to its end. -/
def putCircle (fuel : Nat) (x y radius : BitVec 32) : Option (List Pixel) :=
  circleLoop x y radius (x + radius - 1) ((x <<< 1) - 1) ((y <<< 1) - 1) fuel fuel x (radius - 1)

/-! ## Heights -/

/-- The point `j` above the middle of column `i` lies in the disc. -/
def InDisc (r i j : Nat) : Prop := i * i + j * j ≤ r * r

instance (r i j : Nat) : Decidable (InDisc r i j) := inferInstanceAs (Decidable (_ ≤ _))

section Heights

variable {r i j b : Nat}

theorem InDisc.lower {k : Nat} (inside : InDisc r i j) (below : k ≤ j) : InDisc r i k := by
  have less : k * k ≤ j * j := Nat.mul_le_mul below below
  unfold InDisc at inside ⊢
  omega

theorem InDisc.nearer (inside : InDisc r (i + 1) j) : InDisc r i j := by
  have less : i * i ≤ (i + 1) * (i + 1) := Nat.mul_le_mul (by omega) (by omega)
  unfold InDisc at inside ⊢
  omega

theorem inDisc_zero (within : i ≤ r) : InDisc r i 0 := by
  have less : i * i ≤ r * r := Nat.mul_le_mul within within
  unfold InDisc
  omega

/-- A search that starts from a bound on the heights finds the height of a column. -/
theorem height_iff (within : i ≤ r) (low : b ≤ r - 1)
    (bounds : ∀ j ≤ r - 1, InDisc r i j → j ≤ b) :
    j ≤ Nat.findGreatest (InDisc r i) b ↔ j ≤ r - 1 ∧ InDisc r i j := by
  have found : InDisc r i (Nat.findGreatest (InDisc r i) b) :=
    Nat.findGreatest_spec (Nat.zero_le b) (inDisc_zero within)
  have least : Nat.findGreatest (InDisc r i) b ≤ b := Nat.findGreatest_le b
  constructor
  · intro below
    constructor
    · omega
    · exact found.lower below
  · rintro ⟨high, inside⟩
    exact Nat.le_findGreatest (bounds j high inside) inside

end Heights

section Loops

variable {x y radius rangeX xTmp yTmp setX : BitVec 32} {r i : Nat}

theorem toInt_pred {u : BitVec 32} (above : -2 ^ 31 < u.toInt) : (u - 1).toInt = u.toInt - 1 := by
  have one : (1 : BitVec 32).toInt = 1 := rfl
  have high := toInt_signed u
  rw [toInt_sub_signed, one]
  rw [one]
  exact ⟨by linarith, by linarith [high.2]⟩

theorem toInt_square {u : BitVec 32} {n : Nat} (isN : u.toInt = n) (small : n ≤ 2 ^ 14) :
    (u * u).toInt = (n * n : Nat) ∧ n * n ≤ 2 ^ 28 := by
  have bound : n * n ≤ 2 ^ 14 * 2 ^ 14 := Nat.mul_le_mul small small
  constructor
  · rw [toInt_mul_signed, isN, Nat.cast_mul]
    rw [isN, ← Nat.cast_mul]
    constructor <;> omega
  · omega

/-- The search ends at the greatest height in the disc that is not above its start. -/
theorem lowerColumn_eq {d rangeY : BitVec 32} {b fuel : Nat} (isRadius : radius.toInt = r)
    (small : r ≤ 2 ^ 14) (isColumn : d.toInt = i) (within : i ≤ r) (isHeight : rangeY.toInt = b)
    (low : b ≤ r) (enough : b < fuel) :
    ∃ found, lowerColumn radius d fuel rangeY = some found ∧
      found.toInt = Nat.findGreatest (InDisc r i) b := by
  obtain ⟨isR, boundR⟩ := toInt_square isRadius small
  obtain ⟨isI, boundI⟩ := toInt_square isColumn (by omega)
  induction b generalizing fuel rangeY with
  | zero =>
      obtain ⟨fuel, rfl⟩ : ∃ n, fuel = n + 1 := ⟨fuel - 1, by omega⟩
      obtain ⟨isB, -⟩ := toInt_square isHeight (by omega)
      have inside : InDisc r i 0 := inDisc_zero within
      have ends : ¬ (radius * radius).slt (rangeY * rangeY + d * d) = true := by
        unfold InDisc at inside
        rw [BitVec.slt_iff_toInt_lt, toInt_add_signed, isR, isI, isB]
        · omega
        · rw [isI, isB]
          constructor <;> omega
      refine ⟨rangeY, ?_, ?_⟩
      · rw [lowerColumn, if_neg ends]
      · rw [isHeight, Nat.findGreatest_zero]
  | succ b ih =>
      obtain ⟨fuel, rfl⟩ : ∃ n, fuel = n + 1 := ⟨fuel - 1, by omega⟩
      obtain ⟨isB, boundB⟩ := toInt_square isHeight (by omega)
      have outside : (radius * radius).slt (rangeY * rangeY + d * d) = true ↔ ¬ InDisc r i (b + 1) := by
        unfold InDisc
        rw [BitVec.slt_iff_toInt_lt, toInt_add_signed, isR, isI, isB]
        · omega
        · rw [isI, isB]
          constructor <;> omega
      rw [lowerColumn]
      by_cases inside : InDisc r i (b + 1)
      · rw [if_neg (by rwa [outside, not_not])]
        refine ⟨rangeY, rfl, ?_⟩
        rw [isHeight, Nat.findGreatest_eq inside]
      · rw [if_pos (outside.2 inside), Nat.findGreatest_of_not inside]
        apply ih _ (by omega) (by omega)
        rw [toInt_pred (by omega), isHeight]
        push_cast
        ring

/-- A point of column `i` at height `j`, in one of the four quarters. -/
def Corner (x y i j : Int) (q : Int × Int) : Prop :=
  q = (x + i, y + j) ∨ q = (x - 1 - i, y + j) ∨ q = (x + i, y - 1 - j) ∨ q = (x - 1 - i, y - 1 - j)

/-- The coordinates as numbers. -/
def coords (q : Pixel) : Int × Int := (q.1.toInt, q.2.toInt)

/-- A place mirrored at the middle. -/
theorem toInt_mirror {middle mirror u : BitVec 32} {n : Nat} (near : Near middle)
    (isMirror : mirror = (middle <<< 1) - 1) (isPlace : u.toInt = middle.toInt + n) (small : n ≤ 2 ^ 14) :
    (mirror - u).toInt = middle.toInt - 1 - n := by
  unfold Near at near
  have doubled : (middle <<< 1).toInt = 2 * middle.toInt := by
    apply toInt_double
    constructor <;> omega
  have isMirror' : mirror.toInt = 2 * middle.toInt - 1 := by
    rw [isMirror, toInt_pred, doubled]
    omega
  rw [toInt_sub_signed, isMirror', isPlace]
  · ring
  · rw [isMirror', isPlace]
    constructor <;> omega

/-- With `n` heights to go, the column is drawn from there down to the middle. -/
theorem drawColumn_mem {setY : BitVec 32} {n fuel : Nat} (nearX : Near x) (nearY : Near y)
    (isXTmp : xTmp = (x <<< 1) - 1) (isYTmp : yTmp = (y <<< 1) - 1) (isColumn : setX.toInt = x.toInt + i)
    (narrow : i ≤ 2 ^ 14) (isHeight : setY.toInt = y.toInt + n - 1) (low : n ≤ 2 ^ 14) (enough : n < fuel) :
    ∃ pixels, drawColumn xTmp yTmp setX y fuel setY = some pixels ∧
      ∀ q, q ∈ pixels.map coords ↔ ∃ j < n, Corner x.toInt y.toInt i j q := by
  induction n generalizing fuel setY with
  | zero =>
      obtain ⟨fuel, rfl⟩ : ∃ n, fuel = n + 1 := ⟨fuel - 1, by omega⟩
      have ends : ¬ y.sle setY = true := by
        rw [BitVec.sle_iff_toInt_le]
        omega
      refine ⟨[], ?_, ?_⟩
      · rw [drawColumn, if_neg ends]
      · simp
  | succ n ih =>
      obtain ⟨fuel, rfl⟩ : ∃ n, fuel = n + 1 := ⟨fuel - 1, by omega⟩
      have goes : y.sle setY = true := by
        rw [BitVec.sle_iff_toInt_le]
        omega
      have isPlace : setY.toInt = y.toInt + n := by
        rw [isHeight]
        push_cast
        ring
      have isBelow : (setY - 1).toInt = y.toInt + n - 1 := by
        unfold Near at nearY
        rw [toInt_pred (by omega), isPlace]
      obtain ⟨rest, drawn, isRest⟩ := ih isBelow (by omega) (by omega : n < fuel)
      have left := toInt_mirror nearX isXTmp isColumn narrow
      have under := toInt_mirror nearY isYTmp isPlace (by omega)
      refine ⟨(xTmp - setX, yTmp - setY) :: (setX, yTmp - setY) :: (xTmp - setX, setY) ::
        (setX, setY) :: rest, ?_, ?_⟩
      · rw [drawColumn, if_pos goes, drawn]
        rfl
      · intro q
        have here : Corner x.toInt y.toInt i n q ↔ q = coords (xTmp - setX, yTmp - setY) ∨
            q = coords (setX, yTmp - setY) ∨ q = coords (xTmp - setX, setY) ∨ q = coords (setX, setY) := by
          unfold Corner coords
          rw [left, under, isColumn, isPlace]
          tauto
        rw [Nat.exists_lt_succ_right, here, ← isRest]
        simp only [List.map_cons, List.mem_cons]
        tauto

/-- From column `i` on, with `n` columns to go, the pixels are the points of these columns. -/
theorem circleLoop_mem {rangeY : BitVec 32} {b n fuel turns : Nat} (nearX : Near x) (nearY : Near y)
    (isXTmp : xTmp = (x <<< 1) - 1) (isYTmp : yTmp = (y <<< 1) - 1) (isRadius : radius.toInt = r)
    (small : r ≤ 2 ^ 14) (isEnd : rangeX.toInt = x.toInt + r - 1) (isColumn : setX.toInt = x.toInt + i)
    (left : i + n = r) (isHeight : rangeY.toInt = b) (low : b ≤ r - 1)
    (bounds : ∀ j ≤ r - 1, InDisc r i j → j ≤ b) (enough : r < fuel) (enoughTurns : n < turns) :
    ∃ pixels, circleLoop x y radius rangeX xTmp yTmp fuel turns setX rangeY = some pixels ∧
      ∀ q, q ∈ pixels.map coords ↔ ∃ k j, (i ≤ k ∧ k < r) ∧ (j ≤ r - 1 ∧ InDisc r k j) ∧
        Corner x.toInt y.toInt k j q := by
  induction n generalizing i turns setX rangeY b with
  | zero =>
      obtain ⟨turns, rfl⟩ : ∃ n, turns = n + 1 := ⟨turns - 1, by omega⟩
      have ends : ¬ setX.sle rangeX = true := by
        rw [BitVec.sle_iff_toInt_le]
        omega
      refine ⟨[], ?_, ?_⟩
      · rw [circleLoop, if_neg ends]
      · intro q
        constructor
        · intro none
          cases none
        · rintro ⟨k, j, ⟨from', to'⟩, -⟩
          omega
  | succ n ih =>
      obtain ⟨turns, rfl⟩ : ∃ n, turns = n + 1 := ⟨turns - 1, by omega⟩
      have goes : setX.sle rangeX = true := by
        rw [BitVec.sle_iff_toInt_le]
        omega
      have isOffset : (setX - x).toInt = i := by
        unfold Near at nearX
        rw [toInt_sub_signed, isColumn]
        · ring
        · rw [isColumn]
          constructor <;> omega
      obtain ⟨found, lowered, isFound⟩ :=
        lowerColumn_eq isRadius small isOffset (by omega) isHeight (by omega) (by omega : b < fuel)
      have height := fun j => height_iff (j := j) (by omega : i ≤ r) low bounds
      have least : Nat.findGreatest (InDisc r i) b ≤ b := Nat.findGreatest_le b
      generalize Nat.findGreatest (InDisc r i) b = h at isFound height least
      have isTop : (found + y).toInt = y.toInt + (h + 1 : Nat) - 1 := by
        unfold Near at nearY
        rw [toInt_add_signed, isFound]
        · push_cast
          ring
        · rw [isFound]
          constructor <;> omega
      obtain ⟨column, drawn, isDrawn⟩ := drawColumn_mem nearX nearY isXTmp isYTmp isColumn
        (by omega) isTop (by omega) (by omega : h + 1 < fuel)
      have isNext : (setX + 1).toInt = x.toInt + (i + 1 : Nat) := by
        have one : (1 : BitVec 32).toInt = 1 := rfl
        unfold Near at nearX
        rw [toInt_add_signed, isColumn, one]
        · push_cast
          ring
        · rw [isColumn, one]
          constructor <;> omega
      -- a point of the next column lies in this one as well
      have bounds' (j : Nat) (high : j ≤ r - 1) (inside : InDisc r (i + 1) j) : j ≤ h :=
        (height j).2 ⟨high, inside.nearer⟩
      obtain ⟨rest, continued, isRest⟩ :=
        ih isNext (by omega) isFound (by omega) bounds' (by omega : n < turns)
      refine ⟨column ++ rest, ?_, ?_⟩
      · rw [circleLoop, if_pos goes, lowered]
        simp only [Option.bind_eq_bind, Option.bind_some, drawn, continued]
        rfl
      · intro q
        rw [List.map_append, List.mem_append, isDrawn, isRest]
        constructor
        · rintro (⟨j, below, corner⟩ | ⟨k, j, ⟨from', to'⟩, inside, corner⟩)
          · exact ⟨i, j, by omega, (height j).1 (by omega), corner⟩
          · exact ⟨k, j, by omega, inside, corner⟩
        · rintro ⟨k, j, ⟨from', to'⟩, inside, corner⟩
          rcases Nat.eq_or_lt_of_le from' with rfl | later
          · have below := (height j).2 inside
            exact .inl ⟨j, by omega, corner⟩
          · exact .inr ⟨k, j, by omega, inside, corner⟩

end Loops

/-- **The pixels of `put_circle` are the points of the disc, in all four quarters.** -/
theorem putCircle_disc {x y radius : BitVec 32} {fuel : Nat} (nearX : Near x) (nearY : Near y)
    (positive : 1 ≤ radius.toInt) (small : radius.toInt ≤ 2 ^ 14) (enough : radius.toInt < fuel) :
    ∃ pixels, putCircle fuel x y radius = some pixels ∧
      ∀ q : Int × Int, (q ∈ pixels.map fun p => (p.1.toInt, p.2.toInt)) ↔
        ∃ i j : Int, (0 ≤ i ∧ i ≤ radius.toInt - 1) ∧ (0 ≤ j ∧ j ≤ radius.toInt - 1) ∧
          i * i + j * j ≤ radius.toInt * radius.toInt ∧
          (q = (x.toInt + i, y.toInt + j) ∨ q = (x.toInt - 1 - i, y.toInt + j) ∨
            q = (x.toInt + i, y.toInt - 1 - j) ∨ q = (x.toInt - 1 - i, y.toInt - 1 - j)) := by
  obtain ⟨r, isRadius⟩ : ∃ r : Nat, radius.toInt = r := ⟨radius.toInt.toNat, by omega⟩
  have isStart : x.toInt = x.toInt + (0 : Nat) := by simp
  have isHeight : (radius - 1).toInt = (r - 1 : Nat) := by
    rw [toInt_pred (by omega), isRadius]
    omega
  have isSum : (x + radius).toInt = x.toInt + r := by
    unfold Near at nearX
    rw [toInt_add_signed, isRadius]
    rw [isRadius]
    constructor <;> omega
  have isEnd : (x + radius - 1).toInt = x.toInt + r - 1 := by
    unfold Near at nearX
    rw [toInt_pred (by omega), isSum]
  obtain ⟨pixels, drawn, isDrawn⟩ := circleLoop_mem (n := r) nearX nearY rfl rfl isRadius (by omega) isEnd
    isStart (by omega) isHeight (by omega) (fun j high _ => high) (by omega : r < fuel) (by omega : r < fuel)
  refine ⟨pixels, drawn, fun q => ?_⟩
  have square (n : Nat) : ((n * n : Nat) : Int) = (n : Int) * n := Nat.cast_mul n n
  rw [isRadius]
  constructor
  · intro isPixel
    obtain ⟨i, j, ⟨-, narrow⟩, ⟨low, inside⟩, corner⟩ := (isDrawn q).1 isPixel
    have inside' : ((i * i + j * j : Nat) : Int) ≤ (r * r : Nat) := Int.ofNat_le.2 inside
    push_cast at inside'
    exact ⟨i, j, by omega, by omega, inside', corner⟩
  · rintro ⟨i, j, ⟨iStart, narrow⟩, ⟨jStart, low⟩, inside, corner⟩
    obtain ⟨i, rfl⟩ := Int.eq_ofNat_of_zero_le iStart
    obtain ⟨j, rfl⟩ := Int.eq_ofNat_of_zero_le jStart
    have inside' : InDisc r i j := by
      unfold InDisc
      zify
      exact inside
    exact (isDrawn q).2 ⟨i, j, by omega, ⟨by omega, inside'⟩, corner⟩

/-- A disc of three columns on each side. -/
theorem putCircle_disc_three : ∃ pixels, putCircle 4 5 5 3 = some pixels ∧
    ∀ q : Int × Int, (q ∈ pixels.map fun p => (p.1.toInt, p.2.toInt)) ↔
      ∃ i j : Int, (0 ≤ i ∧ i ≤ 3 - 1) ∧ (0 ≤ j ∧ j ≤ 3 - 1) ∧ i * i + j * j ≤ 3 * 3 ∧
        (q = (5 + i, 5 + j) ∨ q = (5 - 1 - i, 5 + j) ∨ q = (5 + i, 5 - 1 - j) ∨
          q = (5 - 1 - i, 5 - 1 - j)) := by
  have near : Near 5 := by decide
  exact putCircle_disc near near (by decide) (by decide) (by decide)

end TestOs.Graphics
