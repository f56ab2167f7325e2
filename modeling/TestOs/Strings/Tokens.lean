/-
# Strings.Tokens -- strtok

`strtok` puts a terminator behind each token and keeps the place behind it in a
static pointer, from where the next call goes on.  The terminator of the string
stops the search for the end of a token, but it is no delimiter that is skipped,
so the call that meets it between tokens returns NULL (`strtok_splits`).
-/
import TestOs.Library.Fields
import TestOs.Library.FlatMemory
import TestOs.Fat32.Directories

namespace TestOs.Strings

open TestOs.Library

set_option autoImplicit false

/-- The memory, and what `static char *last` has between calls. -/
structure TokenState where
  memory : Memory
  last : BitVec 32

/-- `for (spanp = delim; (sc = *spanp++) != 0;)`: whether it goes to `cont`. -/
def spans (m : Memory) (c : BitVec 8) : Nat → BitVec 32 → Option Bool
  | 0, _ => none
  | bytes + 1, spanp =>
      let sc := m spanp
      if sc = 0 then some false
      else if c = sc then some true
      else spans m c bytes (spanp + 1)

/-- The loop through `cont`: its last character, and the pointer behind it. -/
def skipDelims (m : Memory) (delim : BitVec 32) : Nat → BitVec 32 → Option (BitVec 8 × BitVec 32)
  | 0, _ => none
  | bytes + 1, str => do
      let c := m str
      if ← spans m c (2 ^ 32) delim then skipDelims m delim bytes (str + 1) else return (c, str + 1)

/-- `do … while (sc != 0)`: whether it finds the character. -/
def stops (m : Memory) (c : BitVec 8) : Nat → BitVec 32 → Option Bool
  | 0, _ => none
  | bytes + 1, spanp =>
      let sc := m spanp
      if sc = c then some true
      else if sc ≠ 0 then stops m c bytes (spanp + 1)
      else some false

/-- `for (;;)`: the character that ends the token, and the pointer behind it. -/
def tokenEnd (m : Memory) (delim : BitVec 32) : Nat → BitVec 32 → Option (BitVec 8 × BitVec 32)
  | 0, _ => none
  | bytes + 1, str => do
      let c := m str
      if ← stops m c (2 ^ 32) delim then return (c, str + 1) else tokenEnd m delim bytes (str + 1)

/-- `strtok`; there is no result where a loop does not end. -/
def strtok (str delim : BitVec 32) (t : TokenState) : Option (BitVec 32 × TokenState) :=
  let str := if str = 0 then t.last else str
  if str = 0 then return (0, t)
  else do
    let (c, str) ← skipDelims t.memory delim (2 ^ 32) str
    if c = 0 then return (0, { t with last := 0 })
    let tok := str - 1
    let (c, str) ← tokenEnd t.memory delim (2 ^ 32) str
    if c = 0 then return (tok, { t with last := 0 })
    return (tok, { memory := Function.update t.memory (str - 1) 0, last := str })

/-- A call with `str`, then calls with NULL until one returns NULL: what they return before. -/
def tokensFrom (delim : BitVec 32) : Nat → BitVec 32 → TokenState → Option (List (BitVec 32) × TokenState)
  | 0, _, _ => none
  | calls + 1, str, t => do
      let (tok, t) ← strtok str delim t
      if tok = 0 then return ([], t)
      let (toks, t) ← tokensFrom delim calls 0 t
      return (tok :: toks, t)

/-! ## Strings in memory -/

/-- At `a` the memory holds the characters of `s` and a terminator, and they are not around the
end of the address space. -/
structure HoldsString (m : Memory) (a : BitVec 32) (s : List (BitVec 8)) : Prop where
  somewhere : a ≠ 0
  inside : a.toNat + s.length < 2 ^ 32
  noZero : ∀ c ∈ s, c ≠ 0
  chars : ∀ i (below : i < s.length), m (a + BitVec.ofNat 32 i) = s[i]
  terminated : m (a + BitVec.ofNat 32 s.length) = 0

section Strings

variable {m m' : Memory} {a delim : BitVec 32} {s d pre w rest : List (BitVec 8)} {c : BitVec 8}

theorem add_add_ofNat (a : BitVec 32) (i j : Nat) :
    a + BitVec.ofNat 32 i + BitVec.ofNat 32 j = a + BitVec.ofNat 32 (i + j) := by
  rw [BitVec.ofNat_add, add_assoc]

theorem one_add_ofNat (a : BitVec 32) (i : Nat) : a + 1 + BitVec.ofNat 32 i = a + BitVec.ofNat 32 (i + 1) := by
  rw [Nat.add_comm i]
  exact add_add_ofNat a 1 i

theorem add_ofNat_injective {i j : Nat} (same : a + BitVec.ofNat 32 i = a + BitVec.ofNat 32 j)
    (i_lt : i < 2 ^ 32) (j_lt : j < 2 ^ 32) : i = j := by
  bv_omega

theorem HoldsString.suffix (holds : HoldsString m a (pre ++ s)) :
    HoldsString m (a + BitVec.ofNat 32 pre.length) s := by
  have inside := holds.inside
  have length : (pre ++ s).length = pre.length + s.length := List.length_append
  rw [length] at inside
  have there : (a + BitVec.ofNat 32 pre.length).toNat = a.toNat + pre.length := by
    bv_omega
  refine ⟨?_, by omega, fun c mem => holds.noZero c (List.mem_append_right pre mem), fun i below => ?_, ?_⟩
  · have := holds.somewhere
    bv_omega
  · rw [add_add_ofNat, holds.chars _ (by omega), List.getElem_append_right (by omega)]
    simp
  · rw [add_add_ofNat, ← length]
    exact holds.terminated

theorem HoldsString.tail (holds : HoldsString m a (c :: s)) : HoldsString m (a + 1) s :=
  HoldsString.suffix (show HoldsString m a ([c] ++ s) from holds)

theorem HoldsString.head (holds : HoldsString m a (c :: s)) : m a = c := by
  have first := holds.chars 0 (Nat.succ_pos _)
  rwa [show a + BitVec.ofNat 32 0 = a from add_zero a] at first

theorem HoldsString.end_ (holds : HoldsString m a []) : m a = 0 := by
  have last := holds.terminated
  rwa [List.length_nil, show a + BitVec.ofNat 32 0 = a from add_zero a] at last

theorem HoldsString.congr (holds : HoldsString m a s)
    (same : ∀ i ≤ s.length, m' (a + BitVec.ofNat 32 i) = m (a + BitVec.ofNat 32 i)) : HoldsString m' a s :=
  ⟨holds.somewhere, holds.inside, holds.noZero,
    fun i below => (same i below.le).trans (holds.chars i below), (same _ le_rfl).trans holds.terminated⟩

/-- The characters of a part of the string. -/
theorem HoldsString.part (holds : HoldsString m a (pre ++ (w ++ rest))) {i : Nat} (below : i < w.length) :
    m (a + BitVec.ofNat 32 (pre.length + i)) = w[i] := by
  have there := holds.suffix.chars i (by rw [List.length_append]; omega)
  rw [add_add_ofNat] at there
  rw [there, List.getElem_append_left below]

/-- What is behind a part: a character of the string, or its terminator. -/
theorem HoldsString.behind (holds : HoldsString m a (pre ++ (w ++ rest))) :
    m (a + BitVec.ofNat 32 (pre.length + w.length)) = rest.head?.getD 0 := by
  have there := holds.suffix.suffix
  rw [add_add_ofNat] at there
  cases rest with
  | nil => exact there.end_
  | cons c rest => exact there.head

/-! ## The loops -/

theorem spans_eq {bytes : Nat} (delims : HoldsString m delim d) (room : d.length < bytes) :
    spans m c bytes delim = some (decide (c ∈ d)) := by
  induction d generalizing delim bytes with
  | nil =>
    obtain ⟨bytes, rfl⟩ := Nat.exists_eq_add_of_lt room
    simp [spans, delims.end_]
  | cons e d ih =>
    obtain ⟨bytes, rfl⟩ : ∃ n, bytes = n + 1 := ⟨bytes - 1, by omega⟩
    have nonzero := delims.noZero e List.mem_cons_self
    rw [spans, delims.head, if_neg nonzero, ih delims.tail (by simpa using room)]
    by_cases same : c = e <;> simp [same]

theorem stops_eq {bytes : Nat} (delims : HoldsString m delim d) (room : d.length < bytes) :
    stops m c bytes delim = some (decide (c ∈ d ∨ c = 0)) := by
  induction d generalizing delim bytes with
  | nil =>
    obtain ⟨bytes, rfl⟩ := Nat.exists_eq_add_of_lt room
    rw [stops, delims.end_, if_neg (not_not.2 rfl)]
    by_cases zero : 0 = c
    · rw [if_pos zero, decide_eq_true (.inr zero.symm)]
    · rw [if_neg zero, decide_eq_false (by simpa using Ne.symm zero)]
  | cons e d ih =>
    obtain ⟨bytes, rfl⟩ : ∃ n, bytes = n + 1 := ⟨bytes - 1, by omega⟩
    have nonzero := delims.noZero e List.mem_cons_self
    rw [stops, delims.head, if_pos nonzero, ih delims.tail (by simpa using room)]
    by_cases same : c = e
    · simp [same]
    · simp [same, Ne.symm same]

theorem skipDelims_eq {bytes k : Nat} (delims : HoldsString m delim d)
    (skips : ∀ i < k, m (a + BitVec.ofNat 32 i) ∈ d) (ends : m (a + BitVec.ofNat 32 k) ∉ d)
    (room : k < bytes) :
    skipDelims m delim bytes a = some (m (a + BitVec.ofNat 32 k), a + BitVec.ofNat 32 (k + 1)) := by
  have inside := delims.inside
  induction k generalizing a bytes with
  | zero =>
    obtain ⟨bytes, rfl⟩ := Nat.exists_eq_add_of_lt room
    rw [show a + BitVec.ofNat 32 0 = a from add_zero a] at ends ⊢
    rw [skipDelims, spans_eq delims (by omega), decide_eq_false ends]
    rfl
  | succ k ih =>
    obtain ⟨bytes, rfl⟩ : ∃ n, bytes = n + 1 := ⟨bytes - 1, by omega⟩
    have here := skips 0 (Nat.succ_pos k)
    rw [show a + BitVec.ofNat 32 0 = a from add_zero a] at here
    rw [skipDelims, spans_eq delims (by omega), decide_eq_true here]
    have later := @ih (a + 1) bytes (fun i below => (one_add_ofNat a i).symm ▸ skips (i + 1) (by omega)) ((one_add_ofNat a k).symm ▸ ends)
      (by omega)
    rw [one_add_ofNat, one_add_ofNat] at later
    exact later

theorem tokenEnd_eq {bytes k : Nat} (delims : HoldsString m delim d)
    (goes : ∀ i < k, ¬ (m (a + BitVec.ofNat 32 i) ∈ d ∨ m (a + BitVec.ofNat 32 i) = 0))
    (ends : m (a + BitVec.ofNat 32 k) ∈ d ∨ m (a + BitVec.ofNat 32 k) = 0) (room : k < bytes) :
    tokenEnd m delim bytes a = some (m (a + BitVec.ofNat 32 k), a + BitVec.ofNat 32 (k + 1)) := by
  have inside := delims.inside
  induction k generalizing a bytes with
  | zero =>
    obtain ⟨bytes, rfl⟩ := Nat.exists_eq_add_of_lt room
    rw [show a + BitVec.ofNat 32 0 = a from add_zero a] at ends ⊢
    rw [tokenEnd, stops_eq delims (by omega), decide_eq_true ends]
    rfl
  | succ k ih =>
    obtain ⟨bytes, rfl⟩ : ∃ n, bytes = n + 1 := ⟨bytes - 1, by omega⟩
    have here := goes 0 (Nat.succ_pos k)
    rw [show a + BitVec.ofNat 32 0 = a from add_zero a] at here
    rw [tokenEnd, stops_eq delims (by omega), decide_eq_false here]
    have later := @ih (a + 1) bytes (fun i below => (one_add_ofNat a i).symm ▸ goes (i + 1) (by omega)) ((one_add_ofNat a k).symm ▸ ends)
      (by omega)
    rw [one_add_ofNat, one_add_ofNat] at later
    exact later

/-! ## One call -/

variable {t : TokenState} {str : BitVec 32}

theorem strtok_null (finished : t.last = 0) : strtok 0 delim t = some (0, t) := by
  rw [strtok, if_pos rfl, finished]
  rfl

theorem strtok_delimiters (begins : (if str = 0 then t.last else str) = a) (holds : HoldsString t.memory a s)
    (delims : HoldsString t.memory delim d) (delimiters : ∀ c ∈ s, c ∈ d) :
    strtok str delim t = some (0, { t with last := 0 }) := by
  have inside := holds.inside
  have skips (i : Nat) (below : i < s.length) : t.memory (a + BitVec.ofNat 32 i) ∈ d := by
    rw [holds.chars i below]
    exact delimiters _ (List.getElem_mem below)
  have ends : t.memory (a + BitVec.ofNat 32 s.length) ∉ d := fun mem => delims.noZero _ mem holds.terminated
  rw [strtok, begins, if_neg holds.somewhere, skipDelims_eq delims skips ends (by omega), holds.terminated]
  rfl

/-- The first token: what follows it, the terminator or a delimiter, decides. -/
theorem strtok_token (begins : (if str = 0 then t.last else str) = a)
    (holds : HoldsString t.memory a (pre ++ (w ++ rest))) (delims : HoldsString t.memory delim d)
    (skipped : ∀ c ∈ pre, c ∈ d) (some_char : w ≠ []) (kept : ∀ c ∈ w, c ∉ d)
    (follows : ∀ c, rest.head? = some c → c ∈ d) :
    strtok str delim t = some (a + BitVec.ofNat 32 pre.length,
      if rest = [] then { t with last := 0 }
      else { memory := Function.update t.memory (a + BitVec.ofNat 32 (pre.length + w.length)) 0
             last := a + BitVec.ofNat 32 (pre.length + w.length + 1) }) := by
  have inside := holds.inside
  rw [List.length_append, List.length_append] at inside
  obtain ⟨e, v, rfl⟩ := List.exists_cons_of_ne_nil some_char
  have noZero (c : BitVec 8) (mem : c ∈ e :: v) : c ≠ 0 :=
    holds.noZero c (List.mem_append_right _ (List.mem_append_left _ mem))
  have skips (i : Nat) (below : i < pre.length) : t.memory (a + BitVec.ofNat 32 i) ∈ d := by
    have char := holds.chars i (by rw [List.length_append]; omega)
    rw [List.getElem_append_left below] at char
    exact char ▸ skipped _ (List.getElem_mem below)
  have first : t.memory (a + BitVec.ofNat 32 pre.length) = e := holds.part (Nat.succ_pos v.length)
  have goes (i : Nat) (below : i < v.length) :
      t.memory (a + BitVec.ofNat 32 (pre.length + 1) + BitVec.ofNat 32 i) = v[i] := by
    have char := holds.part (i := i + 1) (Nat.succ_lt_succ below)
    rw [add_add_ofNat, Nat.add_assoc, Nat.add_comm 1 i, char]
    rfl
  have place : a + BitVec.ofNat 32 (pre.length + 1) + BitVec.ofNat 32 v.length =
      a + BitVec.ofNat 32 (pre.length + (e :: v).length) := by
    rw [add_add_ofNat, List.length_cons, Nat.add_assoc, Nat.add_comm 1]
  have ends : t.memory (a + BitVec.ofNat 32 (pre.length + 1) + BitVec.ofNat 32 v.length) = rest.head?.getD 0 := by
    rw [place]
    exact holds.behind
  have back (b : BitVec 32) (i : Nat) : b + BitVec.ofNat 32 (i + 1) - 1 = b + BitVec.ofNat 32 i := by
    rw [← add_add_ofNat b i 1]
    exact add_sub_cancel_right _ _
  have skip : skipDelims t.memory delim (2 ^ 32) a = _ := skipDelims_eq delims skips (first ▸ kept e List.mem_cons_self) (by omega)
  have stop : rest.head?.getD 0 ∈ d ∨ rest.head?.getD 0 = 0 := by
    cases rest with
    | nil => exact .inr rfl
    | cons c rest => exact .inl (follows c rfl)
  have end_ : tokenEnd t.memory delim (2 ^ 32) (a + BitVec.ofNat 32 (pre.length + 1)) = _ :=
    tokenEnd_eq (k := v.length) delims
    (fun i below => goes i below ▸ not_or.2 ⟨kept _ (List.mem_cons_of_mem e (List.getElem_mem below)),
      noZero _ (List.mem_cons_of_mem e (List.getElem_mem below))⟩)
    (ends.symm ▸ stop) (by rw [List.length_cons] at inside; omega)
  rw [ends, add_add_ofNat] at end_
  rw [strtok, begins, if_neg holds.somewhere, skip, first]
  simp only [Option.bind_eq_bind, Option.bind_some, if_neg (noZero e List.mem_cons_self), end_, back]
  cases rest with
  | nil => rfl
  | cons c rest =>
    have nonzero : c ≠ 0 := holds.noZero c (by simp)
    rw [List.head?_cons, Option.getD_some, if_neg nonzero, if_neg (List.cons_ne_nil c rest), List.length_cons,
      show pre.length + 1 + (v.length + 1) = pre.length + (v.length + 1) + 1 by omega, back]
    rfl

/-! ## A run of calls -/

/-- What the calls leave of the string `s` at `a`: the fields are strings, and nothing has changed
but delimiters. -/
structure Tokenized (d s : List (BitVec 8)) (a : BitVec 32) (m : Memory) (t : TokenState) : Prop where
  last : t.last = 0
  held : ∀ k w, (k, w) ∈ fields (· ∈ d) 0 s → HoldsString t.memory (a + BitVec.ofNat 32 k) w
  cut : ∀ x, t.memory x = m x ∨
    t.memory x = 0 ∧ ∃ i, ∃ c ∈ d, s[i]? = some c ∧ x = a + BitVec.ofNat 32 i

/-- Behind a token that has been cut off, the rest is a string. -/
theorem HoldsString.suffix_of_cut (holds : HoldsString m a (pre ++ (w ++ c :: rest))) :
    HoldsString (Function.update m (a + BitVec.ofNat 32 (pre.length + w.length)) 0)
      (a + BitVec.ofNat 32 (pre.length + w.length + 1)) rest := by
  have inside := holds.inside
  simp only [List.length_append, List.length_cons] at inside
  have there : HoldsString m (a + BitVec.ofNat 32 (pre.length + w.length + 1)) rest := by
    have suffix := holds.suffix.suffix.tail
    rwa [add_add_ofNat, show a + BitVec.ofNat 32 (pre.length + w.length) + 1 = _ from
      add_add_ofNat a (pre.length + w.length) 1] at suffix
  refine there.congr fun i below => Function.update_of_ne (fun same => ?_) ..
  rw [add_add_ofNat] at same
  have := add_ofNat_injective same (by omega) (by omega)
  omega

/-- A token that is cut off before the others are looked for. -/
theorem Tokenized.before (later : Tokenized d rest (a + BitVec.ofNat 32 (pre.length + w.length + 1))
      (Function.update m (a + BitVec.ofNat 32 (pre.length + w.length)) 0) t)
    (holds : HoldsString m a (pre ++ (w ++ c :: rest))) (skipped : ∀ c ∈ pre, decide (c ∈ d) = true)
    (some_char : w ≠ []) (kept : ∀ c ∈ w, decide (c ∈ d) = false) (delimiter : c ∈ d) :
    Tokenized d (pre ++ (w ++ c :: rest)) a m t := by
  have inside := holds.inside
  simp only [List.length_append, List.length_cons] at inside
  have place : (pre ++ (w ++ c :: rest))[pre.length + w.length]? = some c := by
    simp
  have cut (x : BitVec 32) : t.memory x = m x ∨ t.memory x = 0 ∧ ∃ i, pre.length + w.length ≤ i ∧
      ∃ c' ∈ d, (pre ++ (w ++ c :: rest))[i]? = some c' ∧ x = a + BitVec.ofNat 32 i := by
    rcases later.cut x with same | ⟨zero, i, c', mem, char, rfl⟩
    · by_cases here : x = a + BitVec.ofNat 32 (pre.length + w.length)
      · subst here
        rw [Function.update_self] at same
        exact .inr ⟨same, _, le_rfl, c, delimiter, place, rfl⟩
      · rw [Function.update_of_ne here] at same
        exact .inl same
    · refine .inr ⟨zero, pre.length + w.length + 1 + i, by omega, c', mem, ?_, add_add_ofNat ..⟩
      rw [← char]
      rw [List.getElem?_append_right (by omega), List.getElem?_append_right (by omega),
        show pre.length + w.length + 1 + i - pre.length - w.length = i + 1 by omega, List.getElem?_cons_succ]
  refine ⟨later.last, fun k v mem => ?_, fun x => ?_⟩
  · rw [fields_first skipped some_char kept (decide_eq_true delimiter)] at mem
    rcases List.mem_cons.1 mem with first | other
    · obtain ⟨rfl, rfl⟩ := Prod.mk.inj first
      refine ⟨holds.suffix.somewhere, ?_, fun c mem => ?_, fun i below => ?_, ?_⟩
      · have := holds.suffix.inside
        rw [List.length_append] at this
        omega
      · exact holds.noZero c (List.mem_append_right pre (List.mem_append_left _ mem))
      · rw [add_add_ofNat]
        rcases cut (a + BitVec.ofNat 32 (pre.length + i)) with same | ⟨-, j, behind, _, -, isChar, there⟩
        · exact same.trans (holds.part below)
        · have small := (List.getElem?_eq_some_iff.1 isChar).1
          simp only [List.length_append, List.length_cons] at small
          have := add_ofNat_injective there (by omega) (by omega)
          omega
      · rw [add_add_ofNat]
        rcases later.cut (a + BitVec.ofNat 32 (pre.length + v.length)) with same | ⟨zero, -⟩
        · rwa [Function.update_self] at same
        · exact zero
    · obtain ⟨⟨j, u⟩, field, same⟩ := List.mem_map.1 other
      obtain ⟨rfl, rfl⟩ := Prod.mk.inj same
      rw [← add_add_ofNat]
      exact later.held j u field
  · rcases cut x with same | ⟨zero, i, -, found⟩
    · exact .inl same
    · exact .inr ⟨zero, i, found⟩

/-- The calls from a string on. -/
theorem tokensFrom_fields {calls : Nat} (begins : (if str = 0 then t.last else str) = a)
    (holds : HoldsString t.memory a s) (delims : HoldsString t.memory delim d)
    (apart : ∀ i ≤ s.length, ∀ j ≤ d.length, a + BitVec.ofNat 32 i ≠ delim + BitVec.ofNat 32 j)
    (room : s.length < calls) :
    ∃ t', Tokenized d s a t.memory t' ∧ tokensFrom delim calls str t =
      some ((fields (· ∈ d) 0 s).map fun field => a + BitVec.ofNat 32 field.1, t') := by
  induction calls generalizing str t a s with
  | zero => omega
  | succ calls ih =>
    rw [tokensFrom]
    rcases exists_field (fun c => decide (c ∈ d)) s with all | ⟨pre, w, rest, rfl, skipped, some_char, kept, follows⟩
    · have delimiters (c : BitVec 8) (mem : c ∈ s) : c ∈ d := of_decide_eq_true (all c mem)
      have none_ : fields (· ∈ d) 0 s = [] := by
        have skip := fields_skip (k := 0) (s := []) all
        rwa [List.append_nil, fields_nil] at skip
      refine ⟨{ t with last := 0 }, ⟨rfl, fun k w mem => ?_, fun x => .inl rfl⟩, ?_⟩
      · rw [none_] at mem
        cases mem
      · rw [strtok_delimiters begins holds delims delimiters, none_]
        rfl
    · have token := strtok_token begins holds delims (fun c mem => of_decide_eq_true (skipped c mem)) some_char
        (fun c mem => of_decide_eq_false (kept c mem)) (fun c is_ => of_decide_eq_true (follows c is_))
      have nonzero : a + BitVec.ofNat 32 pre.length ≠ 0 := holds.suffix.somewhere
      rw [token]
      simp only [Option.bind_eq_bind, Option.bind_some, if_neg nonzero]
      have lengths := holds.inside
      rw [List.length_append, List.length_append] at lengths room
      have wLength := List.length_pos_iff.2 some_char
      cases rest with
      | nil =>
        obtain ⟨calls, rfl⟩ : ∃ n, calls = n + 1 := ⟨calls - 1, by omega⟩
        have one : fields (· ∈ d) 0 (pre ++ (w ++ [])) = [(pre.length, w)] := by
          rw [fields_skip skipped, List.append_nil, fields_last some_char kept, Nat.zero_add]
        refine ⟨{ t with last := 0 }, ⟨rfl, fun k v mem => ?_, fun x => .inl rfl⟩, ?_⟩
        · rw [one, List.mem_singleton, Prod.mk.injEq] at mem
          obtain ⟨rfl, rfl⟩ := mem
          have held := holds.suffix
          rwa [List.append_nil] at held
        · rw [if_pos rfl, tokensFrom, strtok_null rfl, one]
          rfl
      | cons c rest =>
        rw [if_neg (List.cons_ne_nil c rest)]
        rw [List.length_cons] at lengths room
        have isDelimiter := follows c rfl
        have restHolds := holds.suffix_of_cut
        have delimsHold : HoldsString (Function.update t.memory (a + BitVec.ofNat 32 (pre.length + w.length)) 0)
            delim d := by
          refine delims.congr fun j below => Function.update_of_ne (Ne.symm (apart _ ?_ j below)) ..
          simp only [List.length_append, List.length_cons]
          omega
        have restApart (i : Nat) (below : i ≤ rest.length) (j : Nat) (within : j ≤ d.length) :
            a + BitVec.ofNat 32 (pre.length + w.length + 1) + BitVec.ofNat 32 i ≠ delim + BitVec.ofNat 32 j := by
          rw [add_add_ofNat]
          refine apart _ ?_ j within
          simp only [List.length_append, List.length_cons]
          omega
        obtain ⟨t', later, runs⟩ := ih
          (t := { memory := Function.update t.memory (a + BitVec.ofNat 32 (pre.length + w.length)) 0
                  last := a + BitVec.ofNat 32 (pre.length + w.length + 1) })
          (if_pos (rfl : (0 : BitVec 32) = 0)) restHolds delimsHold restApart (by omega)
        refine ⟨t', later.before holds skipped some_char kept (of_decide_eq_true isDelimiter), ?_⟩
        rw [runs, fields_first skipped some_char kept isDelimiter, List.map_cons, List.map_map]
        simp only [Option.bind_some, Function.comp_def, add_add_ofNat]
        rfl

end Strings

/-- **Calls of `strtok` with a string and then with NULL find the fields of the string in order,
each made a string where it is, and calls after them find nothing.** -/
theorem strtok_splits (t : TokenState) (str delim : BitVec 32) (s d : List (BitVec 8))
    (holds : HoldsString t.memory str s) (delims : HoldsString t.memory delim d)
    (apart : ∀ i ≤ s.length, ∀ j ≤ d.length, str + BitVec.ofNat 32 i ≠ delim + BitVec.ofNat 32 j) :
    ∃ (tokens : List (Nat × List (BitVec 8))) (t' : TokenState),
      tokens.Pairwise (·.1 < ·.1) ∧
      (∀ k w, (k, w) ∈ tokens ↔ w ≠ [] ∧ IsPiece (· ∈ d) s k w) ∧
      tokensFrom delim (2 ^ 32) str t = some (tokens.map fun token => str + BitVec.ofNat 32 token.1, t') ∧
      (∀ k w, (k, w) ∈ tokens → HoldsString t'.memory (str + BitVec.ofNat 32 k) w) ∧
      (∀ x, t'.memory x = t.memory x ∨
        t'.memory x = 0 ∧ ∃ i, ∃ c ∈ d, s[i]? = some c ∧ x = str + BitVec.ofNat 32 i) ∧
      strtok 0 delim t' = some (0, t') := by
  have inside := holds.inside
  obtain ⟨t', tokenized, runs⟩ :=
    tokensFrom_fields (if_neg holds.somewhere) holds delims apart (show s.length < 2 ^ 32 by omega)
  exact ⟨fields (· ∈ d) 0 s, t', fields_sorted, fun k w => mem_fields_iff, runs, tokenized.held,
    tokenized.cut, strtok_null tokenized.last⟩

/-- `a b`, and a space as a string of its own. -/
def twoWords : Memory := fun x =>
  if x = 4 then 0x61 else if x = 5 then 0x20 else if x = 6 then 0x62 else if x = 16 then 0x20 else 0

/-- The two words are found. -/
theorem two_words_split :
    ∃ (tokens : List (Nat × List (BitVec 8))) (t' : TokenState),
      (0, [0x61]) ∈ tokens ∧ (2, [0x62]) ∈ tokens ∧
      tokensFrom 16 (2 ^ 32) 4 { memory := twoWords, last := 0 } =
        some (tokens.map fun token => 4 + BitVec.ofNat 32 token.1, t') := by
  have holds : HoldsString twoWords 4 [0x61, 0x20, 0x62] :=
    ⟨by decide, by decide, by decide, by decide, by decide⟩
  have delims : HoldsString twoWords 16 [0x20] := ⟨by decide, by decide, by decide, by decide, by decide⟩
  obtain ⟨tokens, t', -, exact_, runs, -⟩ :=
    strtok_splits { memory := twoWords, last := 0 } 4 16 _ _ holds delims (by decide)
  refine ⟨tokens, t', (exact_ 0 [0x61]).2 ⟨by decide, by decide, [], [0x20, 0x62], rfl, rfl, by simp, by simp⟩,
    (exact_ 2 [0x62]).2 ⟨by decide, by decide, [0x61, 0x20], [], rfl, rfl, by simp, by simp⟩, runs⟩

/-- The parts of a path that `fat32_dir_open` opens are the tokens between slashes. -/
theorem tokens_eq_fields (path : Fat32.CString) :
    Fat32.tokens path = (fields (· ∈ [0x2f]) 0 path).map (·.2) := by
  have slash : (fun c : BitVec 8 => c == 0x2f) = fun c => decide (c ∈ [0x2f]) := by
    funext c
    rw [Bool.beq_eq_decide_eq, decide_eq_decide, List.mem_singleton]
  rw [fields_snd, Fat32.tokens, List.splitOn, slash]

end TestOs.Strings
