/-
# Library.Fields -- the fields of a string

The fields of a string are its maximal non-empty substrings without a delimiter,
each with its place.  `fields` is computed from the pieces between delimiters, and
`mem_fields_iff` says that it has all fields and nothing else, `fields_sorted` that
they are in order.
-/
import Mathlib

namespace TestOs.Library

set_option autoImplicit false

variable {α : Type} {p : α → Bool} {s w rest : List α} {c : α} {k : Nat}

/-- Pieces with one element between each and the next, the first at place `k`. -/
def placed : Nat → List (List α) → List (Nat × List α)
  | _, [] => []
  | k, w :: pieces => (k, w) :: placed (k + w.length + 1) pieces

/-- The fields of a string that begins at place `k`. -/
def fields (p : α → Bool) (k : Nat) (s : List α) : List (Nat × List α) :=
  (placed k (s.splitOnP p)).filter (·.2 ≠ [])

theorem fields_nil : fields p k [] = [] := by
  simp [fields, List.splitOnP_nil, placed]

theorem fields_delimiter (isDelimiter : p c = true) : fields p k (c :: s) = fields p (k + 1) s := by
  simp [fields, List.splitOnP_cons_eq_if_modifyHead, isDelimiter, placed]

theorem fields_skip {before : List α} (delimiters : ∀ c ∈ before, p c = true) :
    fields p k (before ++ s) = fields p (k + before.length) s := by
  induction before generalizing k with
  | nil => rfl
  | cons c before ih =>
    rw [List.cons_append, fields_delimiter (delimiters c List.mem_cons_self),
      ih fun d inside => delimiters d (List.mem_cons_of_mem c inside), List.length_cons]
    congr 1
    omega

/-- The fields of a string that begins elsewhere. -/
theorem fields_shift (p : α → Bool) (k : Nat) (s : List α) :
    fields p k s = (fields p 0 s).map fun field => (k + field.1, field.2) := by
  have pieces (j : Nat) (l : List (List α)) :
      placed (k + j) l = (placed j l).map fun field => (k + field.1, field.2) := by
    induction l generalizing j with
    | nil => rfl
    | cons w l ih => rw [placed, placed, List.map_cons, ← ih, Nat.add_assoc, Nat.add_assoc, Nat.add_assoc]
  have all := pieces 0 (s.splitOnP p)
  rw [Nat.add_zero] at all
  rw [fields, all, List.filter_map]
  rfl

/-- A field at the end. -/
theorem fields_last (some_char : w ≠ []) (noDelimiter : ∀ c ∈ w, p c = false) : fields p k w = [(k, w)] := by
  rw [fields, List.splitOnP_eq_singleton noDelimiter]
  simp [placed, some_char]

/-- A field with a delimiter behind it. -/
theorem fields_field (some_char : w ≠ []) (noDelimiter : ∀ c ∈ w, p c = false) (isDelimiter : p c = true) :
    fields p k (w ++ c :: rest) = (k, w) :: fields p (k + w.length + 1) rest := by
  rw [fields, List.splitOnP_append_cons_of_forall_mem noDelimiter c isDelimiter]
  simp [placed, some_char, fields]

/-- The fields of a string whose first has a delimiter behind it. -/
theorem fields_first {before : List α} (skipped : ∀ c ∈ before, p c = true) (some_char : w ≠ [])
    (kept : ∀ c ∈ w, p c = false) (isDelimiter : p c = true) :
    fields p 0 (before ++ (w ++ c :: rest)) = (before.length, w) ::
      (fields p 0 rest).map fun field => (before.length + w.length + 1 + field.1, field.2) := by
  rw [fields_skip skipped, fields_field some_char kept isDelimiter, Nat.zero_add, fields_shift]

/-- The first field of a string that has one. -/
theorem exists_field (p : α → Bool) (s : List α) :
    (∀ c ∈ s, p c = true) ∨ ∃ before w rest, s = before ++ (w ++ rest) ∧ (∀ c ∈ before, p c = true) ∧
      w ≠ [] ∧ (∀ c ∈ w, p c = false) ∧ ∀ c, rest.head? = some c → p c = true := by
  by_cases more : s.dropWhile p = []
  · exact .inl (List.dropWhile_eq_nil_iff.1 more)
  · right
    have first := List.head?_dropWhile_not p s
    refine ⟨s.takeWhile p, (s.dropWhile p).takeWhile (!p ·), (s.dropWhile p).dropWhile (!p ·), ?_,
      fun c inside => List.mem_takeWhile_imp inside, ?_, fun c inside => ?_, fun c is_ => ?_⟩
    · rw [List.takeWhile_append_dropWhile, List.takeWhile_append_dropWhile]
    · obtain ⟨c, l, is_⟩ := List.exists_cons_of_ne_nil more
      rw [is_] at first ⊢
      simp_all
    · simpa using List.mem_takeWhile_imp inside
    · have last := List.head?_dropWhile_not (!p ·) (s.dropWhile p)
      rw [is_] at last
      simpa using last

/-! ## What the fields are -/

/-- `w` has no delimiter, and at place `k` in `s` it begins and ends where `s` does or next to
a delimiter. -/
structure IsPiece (p : α → Bool) (s : List α) (k : Nat) (w : List α) : Prop where
  noDelimiter : ∀ c ∈ w, p c = false
  maximal : ∃ before behind, s = before ++ (w ++ behind) ∧ before.length = k ∧
    (∀ c, before.getLast? = some c → p c = true) ∧ ∀ c, behind.head? = some c → p c = true

theorem isPiece_nil {k : Nat} {w : List α} : IsPiece p [] k w ↔ k = 0 ∧ w = [] := by
  constructor
  · rintro ⟨-, before, behind, empty, length, -⟩
    have none_ := List.append_eq_nil_iff.1 empty.symm
    exact ⟨by rw [← length, none_.1, List.length_nil], (List.append_eq_nil_iff.1 none_.2).1⟩
  · rintro ⟨rfl, rfl⟩
    exact ⟨fun _ inside => (nomatch inside), [], [], rfl, rfl, fun _ never => (nomatch never),
      fun _ never => nomatch never⟩

theorem isPiece_delimiter (isDelimiter : p c = true) {k : Nat} {w : List α} :
    IsPiece p (c :: s) k w ↔ k = 0 ∧ w = [] ∨ ∃ j, k = j + 1 ∧ IsPiece p s j w := by
  constructor
  · rintro ⟨noDelimiter, before, behind, isString, length, first, last⟩
    cases before with
    | nil =>
      left
      refine ⟨length.symm, ?_⟩
      cases w with
      | nil => rfl
      | cons d w =>
        obtain ⟨rfl, -⟩ := List.cons.inj isString
        have never := noDelimiter c List.mem_cons_self
        rw [isDelimiter] at never
        cases never
    | cons d before =>
      obtain ⟨rfl, isRest⟩ := List.cons.inj isString
      refine .inr ⟨before.length, length.symm, noDelimiter, before, behind, isRest, rfl, fun e is_ => ?_, last⟩
      refine first e ?_
      rw [List.getLast?_cons, is_]
      rfl
  · rintro (⟨rfl, rfl⟩ | ⟨j, rfl, noDelimiter, before, behind, isString, length, first, last⟩)
    · refine ⟨fun _ inside => (nomatch inside), [], c :: s, rfl, rfl, fun _ never => (nomatch never), ?_⟩
      rintro d same
      obtain rfl := Option.some.inj same
      exact isDelimiter
    · refine ⟨noDelimiter, c :: before, behind, by rw [isString]; rfl, by rw [List.length_cons, length],
        fun e is_ => ?_, last⟩
      rw [List.getLast?_cons] at is_
      cases isLast : before.getLast? with
      | none =>
        rw [isLast] at is_
        obtain rfl := Option.some.inj is_
        exact isDelimiter
      | some d =>
        rw [isLast] at is_
        obtain rfl := Option.some.inj is_
        exact first d isLast

theorem isPiece_other (other : p c = false) {k : Nat} {w : List α} :
    IsPiece p (c :: s) k w ↔
      k = 0 ∧ (∃ v, w = c :: v ∧ IsPiece p s 0 v) ∨ ∃ j, k = j + 2 ∧ IsPiece p s (j + 1) w := by
  constructor
  · rintro ⟨noDelimiter, before, behind, isString, length, first, last⟩
    cases before with
    | nil =>
      left
      refine ⟨length.symm, ?_⟩
      cases w with
      | nil =>
        have never := last c (by rw [← show c :: s = behind from isString]; rfl)
        rw [other] at never
        cases never
      | cons d v =>
        obtain ⟨rfl, isRest⟩ := List.cons.inj isString
        exact ⟨v, rfl, fun e inside => noDelimiter e (List.mem_cons_of_mem c inside), [], behind, isRest, rfl,
          fun _ never => (nomatch never), last⟩
    | cons d before =>
      obtain ⟨rfl, isRest⟩ := List.cons.inj isString
      cases before with
      | nil =>
        have never := first c rfl
        rw [other] at never
        cases never
      | cons e before =>
        refine .inr ⟨before.length, length.symm, noDelimiter, e :: before, behind, isRest, rfl, ?_, last⟩
        intro d is_
        refine first d ?_
        rw [List.getLast?_cons, is_]
        rfl
  · rintro (⟨rfl, v, rfl, noDelimiter, before, behind, isString, length, -, last⟩ |
      ⟨j, rfl, noDelimiter, before, behind, isString, length, first, last⟩)
    · obtain rfl := List.eq_nil_of_length_eq_zero length
      refine ⟨fun e inside => ?_, [], behind, by rw [isString]; rfl, rfl, fun _ never => (nomatch never), last⟩
      rcases List.mem_cons.1 inside with rfl | inside
      · exact other
      · exact noDelimiter e inside
    · refine ⟨noDelimiter, c :: before, behind, by rw [isString]; rfl, by rw [List.length_cons, length],
        fun e is_ => ?_, last⟩
      obtain ⟨d, before, rfl⟩ := List.exists_cons_of_length_eq_add_one length
      rw [List.getLast?_cons_cons] at is_
      exact first e is_

/-- All pieces are behind the place where the first begins. -/
theorem placed_ge {pieces : List (List α)} {k j : Nat} {w : List α} (inside : (j, w) ∈ placed k pieces) :
    k ≤ j := by
  induction pieces generalizing k with
  | nil => cases inside
  | cons v pieces ih =>
    rcases List.mem_cons.1 inside with same | later
    · exact (Prod.mk.inj same).1.ge
    · have := ih later
      omega

theorem placed_sorted (k : Nat) (pieces : List (List α)) : (placed k pieces).Pairwise (·.1 < ·.1) := by
  induction pieces generalizing k with
  | nil => exact .nil
  | cons v pieces ih =>
    refine List.pairwise_cons.2 ⟨fun x inside => ?_, ih _⟩
    have := placed_ge inside
    show k < x.1
    omega

/-- The pieces between delimiters. -/
theorem mem_placed_iff {k j : Nat} {w : List α} :
    (k + j, w) ∈ placed k (s.splitOnP p) ↔ IsPiece p s j w := by
  induction s generalizing k j w with
  | nil =>
    rw [List.splitOnP_nil, isPiece_nil]
    simp [placed]
  | cons c s ih =>
    rw [List.splitOnP_cons_eq_if_modifyHead]
    cases kind : p c with
    | true =>
      rw [if_pos rfl, placed, List.mem_cons, Prod.mk.injEq, isPiece_delimiter kind, List.length_nil,
        Nat.add_zero]
      refine or_congr (and_congr_left' (by omega)) ⟨fun later => ?_, ?_⟩
      · have := placed_ge later
        refine ⟨j - 1, by omega, (@ih (k + 1) (j - 1) w).1 ?_⟩
        rwa [show k + 1 + (j - 1) = k + j by omega]
      · rintro ⟨i, rfl, piece⟩
        rw [show k + (i + 1) = k + 1 + i by omega]
        exact ih.2 piece
    | false =>
      rw [if_neg (by simp), isPiece_other kind]
      obtain ⟨v, pieces, split⟩ := List.exists_cons_of_ne_nil (List.splitOnP_ne_nil p s)
      have first := @ih (k + 1) 0
      have later (i : Nat) := @ih (k + 1) (i + 1) w
      rw [split] at first later ⊢
      rw [List.modifyHead_cons, placed, List.mem_cons, Prod.mk.injEq, List.length_cons,
        show k + (v.length + 1) + 1 = k + 1 + v.length + 1 by omega]
      refine or_congr ⟨?_, ?_⟩ ⟨fun inside => ?_, ?_⟩
      · rintro ⟨here, rfl⟩
        exact ⟨by omega, v, rfl, first.1 List.mem_cons_self⟩
      · rintro ⟨rfl, u, rfl, piece⟩
        rcases List.mem_cons.1 (first.2 piece) with same | behind
        · exact ⟨rfl, by rw [(Prod.mk.inj same).2]⟩
        · have := placed_ge behind
          omega
      · have := placed_ge inside
        refine ⟨j - 2, by omega, (later (j - 2)).1 (List.mem_cons_of_mem _ ?_)⟩
        rwa [show k + 1 + (j - 2 + 1) = k + j by omega]
      · rintro ⟨i, rfl, piece⟩
        rcases List.mem_cons.1 ((later i).2 piece) with same | behind
        · have := (Prod.mk.inj same).1
          omega
        · rwa [show k + (i + 2) = k + 1 + (i + 1) by omega]

/-- **The fields of a string are the non-empty ones.** -/
theorem mem_fields_iff {j : Nat} {w : List α} : (j, w) ∈ fields p 0 s ↔ w ≠ [] ∧ IsPiece p s j w := by
  have pieces := @mem_placed_iff α p s 0 j w
  rw [Nat.zero_add] at pieces
  rw [fields, List.mem_filter, pieces, and_comm]
  simp

/-- The fields without their places. -/
theorem fields_snd : (fields p k s).map (·.2) = (s.splitOnP p).filter (· ≠ []) := by
  have pieces (k : Nat) (l : List (List α)) : (placed k l).map (·.2) = l := by
    induction l generalizing k with
    | nil => rfl
    | cons w l ih => rw [placed, List.map_cons, ih]
  conv_rhs => rw [← pieces k (s.splitOnP p)]
  rw [List.filter_map]
  rfl

theorem fields_sorted : (fields p k s).Pairwise (·.1 < ·.1) := (placed_sorted k _).filter _

end TestOs.Library
