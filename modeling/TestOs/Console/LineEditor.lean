/-
# Console.LineEditor -- the input loop of eval

A line is typed into `cmdline_buffer`, which has 1024 bytes: a printable key goes
to the end and a terminator behind it, code 8 takes the last one away.  A line is
too long for the loop when there are already 1024 characters, so the terminator
of the 1024th goes one behind the buffer.  `faithful_iff` says exactly when the
loop stays inside and leaves what the keys do to a stack.
-/
import TestOs.Console.Printk

namespace TestOs.Console

open TestOs.Library

set_option autoImplicit false

/-- `ARRAY_SIZE(cmdline_buffer)`, which is `EVAL_CHAR_MAX`. -/
def evalCharMax : Nat := 1024

def newline : Byte := 10

def backspace : Byte := 8

def Printable (ch : Byte) : Prop := chr ' ' ≤ ch ∧ ch ≤ chr '~'

instance (ch : Byte) : Decidable (Printable ch) := inferInstanceAs (Decidable (_ ∧ _))

/-- `cmdline_buffer`, with what lies around it, and `i`. -/
structure Editor where
  buffer : Traced Int Byte
  i : Int

/-- What `i` is in a comparison with a `size_t`. -/
def asSize (i : Int) : Int := i % 2 ^ 32

/-- One key that is not 0, and whether the line is finished. -/
def inputKey (ch : Byte) (s : Editor) : Editor × Bool :=
  let printable := decide (Printable ch)
  let tooLong := printable && decide ((evalCharMax : Int) ≤ asSize s.i)
  let ch := if tooLong then newline else ch
  let s := if tooLong then { s with i := -1 } else s
  if printable && !tooLong then
    (⟨(s.buffer.put s.i ch).put (s.i + 1) 0, s.i + 1⟩, false)
  else if ch = newline then (s, true)
  else if ch = backspace ∧ s.i > 0 then (⟨s.buffer.put (s.i - 1) 0, s.i - 1⟩, false)
  else (s, false)

/-- The loop over the keys: the state, and the keys behind the line if it is finished. -/
def inputLoop : List Byte → Editor → Editor × Option (List Byte)
  | [], s => (s, none)
  | ch :: keys, s =>
      -- `get_key` is polled as long as it returns 0
      if ch = 0 then inputLoop keys s
      else
        match inputKey ch s with
        | (s, true) => (s, some keys)
        | (s, false) => inputLoop keys s

/-- A line, typed over what the buffer has. -/
def inputLine (buffer : Int → Byte) (keys : List Byte) : Editor × Option (List Byte) :=
  inputLoop keys ⟨⟨buffer, []⟩, 0⟩

/-! ## The stack of characters -/

/-- What a key does, the top of the stack at the end. -/
def applyKey (stack : List Byte) (ch : Byte) : List Byte :=
  if Printable ch then stack ++ [ch] else if ch = backspace then stack.dropLast else stack

/-- What the keys do to an empty stack. -/
def stack (keys : List Byte) : List Byte := keys.foldl applyKey []

/-- `buffer` holds `text`, with its terminator. -/
structure HoldsText (buffer : Int → Byte) (text : List Byte) : Prop where
  chars : ∀ k (below : k < text.length), buffer k = text[k]
  terminated : buffer text.length = 0

/-- The loop is bounded, and leaves the result of every line that it should take. -/
structure Faithful (buffer : Int → Byte) (keys : List Byte) : Prop where
  bounded : (inputLine buffer keys).1.buffer.Within fun k => 0 ≤ k ∧ k < evalCharMax
  result : ∀ line rest, keys = line ++ newline :: rest → newline ∉ line →
    (stack line).length < evalCharMax →
    (inputLine buffer keys).2 = some rest ∧
      HoldsText (inputLine buffer keys).1.buffer.at_ (stack line)

@[simp] theorem stack_nil : stack [] = [] := rfl

theorem stack_concat (keys : List Byte) (ch : Byte) : stack (keys ++ [ch]) = applyKey (stack keys) ch := by
  unfold stack
  rw [List.foldl_append]
  rfl

theorem newline_not_printable : ¬ Printable newline := by decide

theorem backspace_not_printable : ¬ Printable backspace := by decide

/-! ## One key -/

section Key

variable {buffer : Int → Byte} {typed : List Byte} {ch : Byte} {s : Editor}

/-- The state behind the keys `typed`, as long as no line was too long. -/
structure Typed (buffer : Int → Byte) (typed : List Byte) (s : Editor) : Prop where
  counts : s.i = (stack typed).length
  short : (stack typed).length < evalCharMax
  bounded : s.buffer.Within fun k => 0 ≤ k ∧ k < evalCharMax
  chars : ∀ k (below : k < (stack typed).length), s.buffer.at_ k = (stack typed)[k]
  terminated : (∃ c ∈ typed, Printable c) → s.buffer.at_ s.i = 0
  untouched : (¬ ∃ c ∈ typed, Printable c) → s.buffer.at_ = buffer ∧ stack typed = []

theorem Typed.start (buffer : Int → Byte) : Typed buffer [] ⟨⟨buffer, []⟩, 0⟩ where
  counts := rfl
  short := by decide
  bounded := fun _ inside => absurd inside List.not_mem_nil
  chars := fun k below => absurd below (Nat.not_lt_zero k)
  terminated := fun ⟨_, inside, _⟩ => absurd inside List.not_mem_nil
  untouched := fun _ => ⟨rfl, rfl⟩

theorem Typed.asSize (now : Typed buffer typed s) : asSize s.i = s.i := by
  have short := now.short
  unfold Console.asSize
  rw [now.counts]
  simp only [evalCharMax] at short
  omega

/-- A printable key, in a line that is not too long. -/
theorem inputKey_printable (now : Typed buffer typed s) (printable : Printable ch) :
    inputKey ch s = (⟨(s.buffer.put s.i ch).put (s.i + 1) 0, s.i + 1⟩, false) := by
  have room : ¬ (evalCharMax : Int) ≤ Console.asSize s.i := by
    rw [now.asSize, now.counts]
    have short := now.short
    omega
  simp [inputKey, printable, room]

theorem inputKey_newline (s : Editor) : inputKey newline s = (s, true) := by
  simp [inputKey, newline_not_printable]

theorem inputKey_backspace (s : Editor) :
    inputKey backspace s =
      (if s.i > 0 then ⟨s.buffer.put (s.i - 1) 0, s.i - 1⟩ else s, false) := by
  have other : backspace ≠ newline := by decide
  by_cases some_char : s.i > 0 <;> simp [inputKey, backspace_not_printable, other, some_char]

theorem inputKey_other (s : Editor) (printable : ¬ Printable ch) (notNewline : ch ≠ newline)
    (notBackspace : ch ≠ backspace) : inputKey ch s = (s, false) := by
  simp [inputKey, printable, notNewline, notBackspace]

/-- A printable key in a line with room for it and its terminator. -/
theorem Typed.push (now : Typed buffer typed s) (printable : Printable ch)
    (short : (stack (typed ++ [ch])).length < evalCharMax) :
    Typed buffer (typed ++ [ch]) ⟨(s.buffer.put s.i ch).put (s.i + 1) 0, s.i + 1⟩ := by
  have pushed : stack (typed ++ [ch]) = stack typed ++ [ch] := by
    rw [stack_concat, applyKey, if_pos printable]
  have counts := now.counts
  have length : (stack (typed ++ [ch])).length = (stack typed).length + 1 := by
    rw [pushed, List.length_append, List.length_singleton]
  have typedChar : ∃ c ∈ typed ++ [ch], Printable c :=
    ⟨ch, List.mem_append_right _ List.mem_cons_self, printable⟩
  refine ⟨?_, short, ?_, fun k below => ?_, fun _ => ?_, fun none => absurd typedChar none⟩
  · show s.i + 1 = _
    omega
  · rw [Traced.within_put, Traced.within_put]
    refine ⟨?_, ?_, now.bounded⟩ <;> omega
  · simp only [pushed]
    rw [Traced.put_at_of_ne _ _ _ _ (by omega)]
    by_cases last : k = (stack typed).length
    · subst last
      rw [← counts, Traced.put_at_self, List.getElem_concat_length rfl]
    · have early : k < (stack typed).length := by omega
      rw [Traced.put_at_of_ne _ _ _ _ (by omega), List.getElem_append_left early]
      exact now.chars k early
  · exact Traced.put_at_self _ _ _

/-- Other keys print nothing. -/
theorem printable_concat (typed : List Byte) (other : ¬ Printable ch) :
    (∃ c ∈ typed ++ [ch], Printable c) ↔ ∃ c ∈ typed, Printable c := by
  constructor
  · rintro ⟨c, inside, isPrintable⟩
    rcases List.mem_append.1 inside with old | new
    · exact ⟨c, old, isPrintable⟩
    · obtain rfl := List.mem_singleton.1 new
      exact absurd isPrintable other
  · rintro ⟨c, inside, isPrintable⟩
    exact ⟨c, List.mem_append_left _ inside, isPrintable⟩

/-- Nothing happens to the stack, and nothing to the buffer. -/
theorem Typed.same (now : Typed buffer typed s) (other : ¬ Printable ch)
    (same : stack (typed ++ [ch]) = stack typed) : Typed buffer (typed ++ [ch]) s where
  counts := by
    rw [same]
    exact now.counts
  short := by
    rw [same]
    exact now.short
  bounded := now.bounded
  chars := by
    simp only [same]
    exact now.chars
  terminated := by
    rw [printable_concat typed other]
    exact now.terminated
  untouched := by
    rw [printable_concat typed other, same]
    exact now.untouched

/-- Code 8. -/
theorem Typed.pop (now : Typed buffer typed s) :
    Typed buffer (typed ++ [backspace])
      (if s.i > 0 then ⟨s.buffer.put (s.i - 1) 0, s.i - 1⟩ else s) := by
  have popped : stack (typed ++ [backspace]) = (stack typed).dropLast := by
    rw [stack_concat, applyKey, if_neg backspace_not_printable, if_pos rfl]
  have counts := now.counts
  have short := now.short
  by_cases some_char : s.i > 0
  · rw [if_pos some_char]
    have length : (stack (typed ++ [backspace])).length = (stack typed).length - 1 := by
      rw [popped, List.length_dropLast]
    refine ⟨?_, ?_, ?_, fun k below => ?_, fun _ => ?_, fun none => ?_⟩
    · show s.i - 1 = _
      omega
    · omega
    · rw [Traced.within_put]
      refine ⟨?_, now.bounded⟩
      omega
    · simp only [popped]
      rw [Traced.put_at_of_ne _ _ _ _ (by omega), List.getElem_dropLast]
      exact now.chars k (by omega)
    · exact Traced.put_at_self _ _ _
    · rw [printable_concat typed backspace_not_printable] at none
      obtain ⟨_, empty⟩ := now.untouched none
      rw [empty] at counts
      exact absurd counts (by simp; omega)
  · rw [if_neg some_char]
    apply now.same backspace_not_printable
    have empty : stack typed = [] := List.eq_nil_of_length_eq_zero (by omega)
    rw [popped, empty]
    rfl

/-- **A key of a line keeps the invariant, unless it is the 1024th character.** -/
theorem Typed.key (now : Typed buffer typed s) (notNewline : ch ≠ newline)
    (short : (stack (typed ++ [ch])).length < evalCharMax) :
    ∃ t, inputKey ch s = (t, false) ∧ Typed buffer (typed ++ [ch]) t := by
  by_cases printable : Printable ch
  · exact ⟨_, inputKey_printable now printable, now.push printable short⟩
  · by_cases isBackspace : ch = backspace
    · subst isBackspace
      exact ⟨_, inputKey_backspace s, now.pop⟩
    · refine ⟨s, inputKey_other s printable notNewline isBackspace, now.same printable ?_⟩
      rw [stack_concat, applyKey, if_neg printable, if_neg isBackspace]

/-- The 1024th character has its terminator behind the buffer. -/
theorem Typed.overrun (now : Typed buffer typed s) (long : evalCharMax ≤ (stack (typed ++ [ch])).length) :
    ∃ t, inputKey ch s = (t, false) ∧ (evalCharMax : Int) ∈ t.buffer.written := by
  have short := now.short
  have counts := now.counts
  rw [stack_concat, applyKey] at long
  split at long
  · next printable =>
    rw [List.length_append, List.length_singleton] at long
    refine ⟨_, inputKey_printable now printable, ?_⟩
    apply List.mem_cons.2
    left
    omega
  · exfalso
    split at long
    · rw [List.length_dropLast] at long
      omega
    · omega

/-- What was written stays written. -/
theorem inputKey_written {k : Int} (ch : Byte) (before : k ∈ s.buffer.written) :
    k ∈ (inputKey ch s).1.buffer.written := by
  unfold inputKey
  simp only []
  generalize (decide (Printable ch) && decide ((evalCharMax : Int) ≤ asSize s.i)) = tooLong
  cases tooLong with
  | true =>
    rw [Bool.not_true, Bool.and_false]
    exact before
  | false =>
    simp only [Bool.false_eq_true, if_false]
    split
    · exact List.mem_cons_of_mem _ (List.mem_cons_of_mem _ before)
    · split
      · exact before
      · split
        · exact List.mem_cons_of_mem _ before
        · exact before

end Key

/-! ## One line -/

section Line

variable {buffer : Int → Byte} {typed keys : List Byte} {ch : Byte} {s t : Editor}

/-- The loop goes on. -/
theorem inputLoop_goes (keys : List Byte) (goes : inputKey ch s = (t, false)) :
    inputLoop (ch :: keys) s = inputLoop keys t := by
  by_cases zero : ch = 0
  · subst zero
    rw [inputKey_other s (by decide) (by decide) (by decide)] at goes
    obtain rfl : s = t := congrArg Prod.fst goes
    rw [inputLoop, if_pos rfl]
  · rw [inputLoop, if_neg zero, goes]

theorem inputLoop_ends (keys : List Byte) (s : Editor) :
    inputLoop (newline :: keys) s = (s, some keys) := by
  rw [inputLoop, if_neg (by decide), inputKey_newline]

theorem inputLoop_written {k : Int} (keys : List Byte) (before : k ∈ s.buffer.written) :
    k ∈ (inputLoop keys s).1.buffer.written := by
  induction keys generalizing s with
  | nil => exact before
  | cons ch keys ih =>
    rw [inputLoop]
    split
    · exact ih before
    · have now := inputKey_written ch before
      split
      · next t ends =>
        rw [ends] at now
        exact now
      · next t goes =>
        rw [goes] at now
        exact ih now

/-- The keys of the first line, and those behind it if it is finished. -/
def lineOf (keys : List Byte) : List Byte := keys.takeWhile (· != newline)

def behindLine (keys : List Byte) : Option (List Byte) := (keys.dropWhile (· != newline)).tail?

theorem lineOf_cons (notNewline : ch ≠ newline) (keys : List Byte) :
    lineOf (ch :: keys) = ch :: lineOf keys := by
  unfold lineOf
  rw [List.takeWhile_cons_of_pos (by simpa using notNewline)]

theorem behindLine_cons (notNewline : ch ≠ newline) (keys : List Byte) :
    behindLine (ch :: keys) = behindLine keys := by
  unfold behindLine
  rw [List.dropWhile_cons_of_pos (by simpa using notNewline)]

/-- No line of the stack has more characters than the buffer takes. -/
def NeverLong (typed line : List Byte) : Prop :=
  ∀ p, p <+: line → (stack (typed ++ p)).length < evalCharMax

theorem neverLong_nil : NeverLong typed [] ↔ (stack typed).length < evalCharMax := by
  unfold NeverLong
  simp

theorem neverLong_cons {line : List Byte} :
    NeverLong typed (ch :: line) ↔
      (stack typed).length < evalCharMax ∧ NeverLong (typed ++ [ch]) line := by
  constructor
  · intro never
    refine ⟨?_, fun p inside => ?_⟩
    · simpa using never [] List.nil_prefix
    · simpa using never (ch :: p) (List.cons_prefix_cons.2 ⟨rfl, inside⟩)
  · rintro ⟨now, never⟩ p inside
    rcases List.prefix_cons_iff.1 inside with rfl | ⟨q, rfl, short⟩
    · simpa using now
    · simpa using never q short

/-- **The loop writes behind the buffer, or keeps the invariant up to the newline.** -/
theorem inputLoop_typed (now : Typed buffer typed s) (keys : List Byte) :
    (¬ NeverLong typed (lineOf keys) ∧ (evalCharMax : Int) ∈ (inputLoop keys s).1.buffer.written) ∨
      (NeverLong typed (lineOf keys) ∧ Typed buffer (typed ++ lineOf keys) (inputLoop keys s).1 ∧
        (inputLoop keys s).2 = behindLine keys) := by
  induction keys generalizing typed s with
  | nil =>
    right
    refine ⟨neverLong_nil.2 now.short, ?_, rfl⟩
    rw [lineOf, List.takeWhile_nil, List.append_nil]
    exact now
  | cons ch keys ih =>
    by_cases isNewline : ch = newline
    · subst isNewline
      right
      have none : lineOf (newline :: keys) = [] := rfl
      rw [none, List.append_nil, inputLoop_ends]
      exact ⟨neverLong_nil.2 now.short, now, rfl⟩
    · rw [lineOf_cons isNewline, behindLine_cons isNewline, neverLong_cons]
      by_cases short : (stack (typed ++ [ch])).length < evalCharMax
      · obtain ⟨t, goes, next⟩ := now.key isNewline short
        rw [inputLoop_goes keys goes]
        rcases ih next with ⟨long, overrun⟩ | ⟨never, last, behind⟩
        · exact .inl ⟨fun both => long both.2, overrun⟩
        · refine .inr ⟨⟨now.short, never⟩, ?_, behind⟩
          rw [List.append_assoc] at last
          exact last
      · left
        obtain ⟨t, goes, overrun⟩ := now.overrun (not_lt.1 short)
        rw [inputLoop_goes keys goes]
        refine ⟨fun never => short ?_, inputLoop_written keys overrun⟩
        simpa using never.2 [] List.nil_prefix

theorem line_of_split {line rest : List Byte} (isLine : newline ∉ line) :
    lineOf (line ++ newline :: rest) = line ∧ behindLine (line ++ newline :: rest) = some rest := by
  induction line with
  | nil => exact ⟨rfl, rfl⟩
  | cons ch line ih =>
    have notNewline : ch ≠ newline := fun same => isLine (same ▸ List.mem_cons_self)
    obtain ⟨first, behind⟩ := ih fun inside => isLine (List.mem_cons_of_mem _ inside)
    rw [List.cons_append, lineOf_cons notNewline, behindLine_cons notNewline]
    exact ⟨congrArg _ first, behind⟩

theorem split_of_mem (ends : newline ∈ keys) :
    ∃ rest, keys = lineOf keys ++ newline :: rest ∧ newline ∉ lineOf keys := by
  induction keys with
  | nil => cases ends
  | cons ch keys ih =>
    by_cases isNewline : ch = newline
    · subst isNewline
      exact ⟨keys, rfl, List.not_mem_nil⟩
    · rw [lineOf_cons isNewline]
      obtain ⟨rest, split, isLine⟩ := ih ((List.mem_cons.1 ends).resolve_left (Ne.symm isNewline))
      refine ⟨rest, congrArg _ split, fun inside => ?_⟩
      rcases List.mem_cons.1 inside with same | inside
      · exact isNewline same.symm
      · exact isLine inside

/-- When a line goes well: it never has 1024 characters, and if it is finished without
a printable key, the buffer was empty before. -/
structure Modest (buffer : Int → Byte) (keys : List Byte) : Prop where
  never : ∀ p, p <+: lineOf keys → (stack p).length < evalCharMax
  nothing : newline ∈ keys → (¬ ∃ c ∈ lineOf keys, Printable c) → buffer 0 = 0

/-- **The loop is bounded and faithful exactly when no beginning of the line leaves 1024
characters, and a line without characters finds the buffer empty.** -/
theorem faithful_iff (buffer : Int → Byte) (keys : List Byte) :
    Faithful buffer keys ↔ Modest buffer keys := by
  have run := inputLoop_typed (Typed.start buffer) keys
  constructor
  · intro faithful
    rcases run with ⟨-, overrun⟩ | ⟨never, last, behind⟩
    · exact absurd (faithful.bounded _ overrun).2 (lt_irrefl _)
    · refine ⟨never, fun ends none => ?_⟩
      obtain ⟨rest, split, isLine⟩ := split_of_mem ends
      obtain ⟨-, holds⟩ := faithful.result _ rest split isLine (never _ List.prefix_rfl)
      obtain ⟨same, empty⟩ := last.untouched none
      have terminated := holds.terminated
      rw [List.nil_append] at empty
      rw [empty] at terminated
      rw [← same]
      exact terminated
  · intro modest
    rcases run with ⟨long, -⟩ | ⟨never, last, behind⟩
    · exact absurd modest.never long
    · refine ⟨last.bounded, ?_⟩
      rintro line rest rfl isLine short
      obtain ⟨isLineOf, isBehind⟩ := @line_of_split line rest isLine
      rw [isLineOf, List.nil_append] at last
      refine ⟨behind.trans isBehind, last.chars, ?_⟩
      by_cases typedChar : ∃ c ∈ line, Printable c
      · rw [← last.counts]
        exact last.terminated typedChar
      · obtain ⟨same, empty⟩ := last.untouched typedChar
        rw [empty]
        show (inputLoop _ _).1.buffer.at_ 0 = 0
        rw [same]
        apply modest.nothing
        · exact List.mem_append_right _ List.mem_cons_self
        · rwa [isLineOf]

end Line

/-- Printable keys are the line. -/
theorem stack_printable (keys : List Byte) (printable : ∀ c ∈ keys, Printable c) : stack keys = keys := by
  induction keys using List.reverseRecOn with
  | nil => rfl
  | append_singleton keys ch ih =>
    have last := printable ch (List.mem_append_right _ List.mem_cons_self)
    rw [stack_concat, ih fun c inside => printable c (List.mem_append_left _ inside), applyKey, if_pos last]

/-- A line of letters that fills the buffer is written over its end. -/
theorem full_line_overruns (buffer : Int → Byte) (letters : List Byte) (rest : List Byte)
    (printable : ∀ c ∈ letters, Printable c) (full : evalCharMax ≤ letters.length) :
    (evalCharMax : Int) ∈ (inputLine buffer (letters ++ newline :: rest)).1.buffer.written := by
  have isLine : newline ∉ letters := fun inside => newline_not_printable (printable _ inside)
  obtain ⟨isLineOf, -⟩ := @line_of_split letters rest isLine
  rcases inputLoop_typed (Typed.start buffer) (letters ++ newline :: rest) with
    ⟨-, overrun⟩ | ⟨never, -⟩
  · exact overrun
  · have short := never _ List.prefix_rfl
    rw [isLineOf, List.nil_append, stack_printable _ printable] at short
    omega

/-- The terminator of 1024 letters is behind the buffer. -/
theorem long_line_overruns :
    (evalCharMax : Int) ∈
        (inputLine (fun _ => 0) (List.replicate 1024 (chr 'a') ++ [newline])).1.buffer.written ∧
      ¬ Faithful (fun _ => 0) (List.replicate 1024 (chr 'a') ++ [newline]) := by
  have overrun := full_line_overruns (fun _ => 0) (List.replicate 1024 (chr 'a')) []
    (fun c inside => by
      rw [List.eq_of_mem_replicate inside]
      decide)
    (le_of_eq (List.length_replicate).symm)
  exact ⟨overrun, fun faithful => absurd (faithful.bounded _ overrun).2 (lt_irrefl _)⟩

end TestOs.Console
