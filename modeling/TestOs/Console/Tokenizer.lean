/-
# Console.Tokenizer -- how eval makes arguments of a line

The line is taken apart where it lies: spaces outside quotes and closing quotes
become terminators, and an argument starts at the first character behind one that
is neither a space nor a quote.  Inside quotes that is so too, so a quoted
argument loses its leading spaces, and one of spaces only is no argument at all
(`quoting_round_trips_iff`).
-/
import TestOs.Console.LineEditor

namespace TestOs.Console

open TestOs.Library

set_option autoImplicit false

/-- `ARRAY_SIZE(cmdline_args)`, which is `EVAL_ARGS_MAX`. -/
def evalArgsMax : Nat := 32

def quote : Byte := chr '"'

def backslash : Byte := chr '\\'

/-- `strcmp`, over the characters before the terminators. -/
def strcmp : List Byte → List Byte → Int
  | [], [] => 0
  | [], c :: _ => if (0 : Byte).slt c then -1 else if c.slt 0 then 1 else 0
  | c :: _, [] => if c.slt 0 then -1 else if (0 : Byte).slt c then 1 else 0
  | c :: s, d :: t => if c = d then strcmp s t else if c.slt d then -1 else if d.slt c then 1 else 0

/-- Of strings without a terminator inside, `strcmp` finds the same ones equal. -/
theorem strcmp_eq_zero {s t : List Byte} (sChars : ∀ c ∈ s, c ≠ 0) (tChars : ∀ c ∈ t, c ≠ 0) :
    strcmp s t = 0 ↔ s = t := by
  have differs {c d : Byte} (other : c ≠ d) : (if c.slt d then -1 else if d.slt c then 1 else 0 : Int) ≠ 0 := by
    split
    · decide
    · split
      · decide
      · exact absurd (BitVec.eq_of_toInt_eq (by simp_all [BitVec.slt]; omega)) other
  induction s generalizing t with
  | nil =>
    cases t with
    | nil => simp [strcmp]
    | cons c t => exact iff_of_false (differs (Ne.symm (tChars c List.mem_cons_self))) (List.cons_ne_nil c t).symm
  | cons c s ih =>
    cases t with
    | nil => exact iff_of_false (differs (sChars c List.mem_cons_self)) (List.cons_ne_nil c s)
    | cons d t =>
      rw [strcmp]
      by_cases same : c = d
      · subst same
        rw [if_pos rfl, List.cons.injEq, and_iff_right rfl]
        exact ih (fun d mem => sChars d (List.mem_cons_of_mem c mem))
          fun d mem => tChars d (List.mem_cons_of_mem c mem)
      · rw [if_neg same]
        exact iff_of_false (differs same) fun both => same (List.cons.inj both).1

/-- The variables of the loop over the line; the arguments are places in the buffer. -/
structure Tokenizer where
  buffer : Int → Byte
  args : List Nat
  mark : Nat
  space : Bool

namespace Tokenizer

def cut (s : Tokenizer) (idx : Nat) : Tokenizer :=
  { s with buffer := Function.update s.buffer idx 0, space := true }

/-- `for (; cmdline_buffer[idx] == ' '; ++idx) {}`. -/
def skipSpaces (buffer : Int → Byte) : Nat → Nat → Option Nat
  | 0, _ => none
  | rounds + 1, idx => if buffer idx = chr ' ' then skipSpaces buffer rounds (idx + 1) else some idx

/-- One character that is not 0; nothing when there are too many arguments. -/
def step (idx : Nat) (s : Tokenizer) : Option Tokenizer :=
  if s.buffer idx = chr ' ' then
    if s.mark = 0 then some (s.cut idx) else some s
  else if s.buffer idx = quote ∧ idx > 0 ∧ s.buffer (idx - 1) ≠ backslash then
    if s.mark = 0 then some { s with mark := idx } else some { s.cut idx with mark := 0 }
  else if s.space ∨ s.args = [] then
    if evalArgsMax ≤ s.args.length + 1 then none
    else some { s with args := s.args ++ [idx], space := false }
  else some { s with space := false }

/-- The state where the loop ends, or that it has found too many arguments; nothing where it
does not end. -/
def run : Nat → Nat → Tokenizer → Option (Option Tokenizer)
  | 0, _, _ => none
  | rounds + 1, idx, s =>
      if s.buffer idx = 0 then some (some s)
      else
        match step idx s with
        | none => some none
        | some s => run rounds (idx + 1) s

end Tokenizer

/-- The string at `p`. -/
def textAt (buffer : Int → Byte) : Nat → Nat → List Byte
  | 0, _ => []
  | rounds + 1, p => if buffer p = 0 then [] else buffer p :: textAt buffer rounds (p + 1)

/-- What `eval` does with a line. -/
inductive Evaluation
  | nothing
  | tooManyArguments
  | missingQuote
  | notDefined (command : List Byte)
  /-- The handler of a node is called, with `argc` and the strings in `argv`. -/
  | called (node : Nat) (argc : Nat) (argv : List (List Byte))
deriving DecidableEq

/-- `eval` behind the input of `i` characters; `commands` are the names of the nodes. -/
def evalLine (commands : List (List Byte)) (buffer : Int → Byte) (i : Int) : Option Evaluation :=
  if i > 0 then do
    let start ← Tokenizer.skipSpaces buffer evalCharMax 0
    match ← Tokenizer.run evalCharMax start ⟨buffer, [], 0, false⟩ with
    | none => return .tooManyArguments
    | some s =>
        let argv := s.args.map (textAt s.buffer evalCharMax)
        if s.mark ≠ 0 then return .missingQuote
        match argv with
        | [] => return .nothing
        | name :: _ =>
            match commands.findIdx? (fun command => strcmp command name = 0) with
            | some node => return .called node s.args.length argv
            | none => return .notDefined (textAt s.buffer evalCharMax start)
  else return .nothing

/-- An argument in quotes behind a space. -/
def inQuotes (arg : List Byte) : List Byte := chr ' ' :: quote :: (arg ++ [quote])

/-- The first word, and the other arguments in quotes. -/
def quoted (word : List Byte) (args : List (List Byte)) : List Byte := word ++ args.flatMap inQuotes

/-! ## Text in the buffer -/

/-- `text` and its terminator, from `idx` on. -/
structure LiesAt (buffer : Int → Byte) (idx : Nat) (text : List Byte) : Prop where
  chars : ∀ k (below : k < text.length), buffer (idx + k : Nat) = text[k]
  ends : buffer (idx + text.length : Nat) = 0

/-- An argument whose terminator is before `idx`. -/
structure Finished (buffer : Int → Byte) (idx p : Nat) (w : List Byte) : Prop where
  noZero : ∀ c ∈ w, c ≠ 0
  chars : ∀ k (below : k < w.length), buffer (p + k : Nat) = w[k]
  inside : p + w.length < idx
  terminated : buffer (p + w.length : Nat) = 0

/-- An argument whose terminator will be at `idx`. -/
structure Unfinished (buffer : Int → Byte) (idx p : Nat) (w : List Byte) : Prop where
  noZero : ∀ c ∈ w, c ≠ 0
  chars : ∀ k (below : k < w.length), buffer (p + k : Nat) = w[k]
  reaches : p + w.length = idx

section Text

variable {buffer buffer' : Int → Byte} {idx idx' p : Nat} {text before w : List Byte} {c : Byte}

theorem LiesAt.suffix (lies : LiesAt buffer idx (before ++ text)) : LiesAt buffer (idx + before.length) text := by
  refine ⟨fun k below => ?_, ?_⟩
  · have there := lies.chars (before.length + k) (by rw [List.length_append]; omega)
    rw [List.getElem_append_right (by omega)] at there
    rw [Nat.add_assoc, there]
    simp
  · have there := lies.ends
    rwa [List.length_append, ← Nat.add_assoc] at there

theorem LiesAt.char (lies : LiesAt buffer idx (w ++ text)) {k : Nat} (below : k < w.length) :
    buffer (idx + k : Nat) = w[k] :=
  (lies.chars k (by rw [List.length_append]; omega)).trans (List.getElem_append_left below)

theorem LiesAt.tail (lies : LiesAt buffer idx (c :: text)) : LiesAt buffer (idx + 1) text :=
  LiesAt.suffix (show LiesAt buffer idx ([c] ++ text) from lies)

theorem LiesAt.head (lies : LiesAt buffer idx (c :: text)) : buffer idx = c := lies.chars 0 (Nat.succ_pos _)

theorem LiesAt.end_ (lies : LiesAt buffer idx []) : buffer idx = 0 := lies.ends

theorem LiesAt.congr (lies : LiesAt buffer idx text) (same : ∀ k ≥ idx, buffer' k = buffer k) :
    LiesAt buffer' idx text :=
  ⟨fun k below => (same _ (by omega)).trans (lies.chars k below), (same _ (by omega)).trans lies.ends⟩

theorem LiesAt.cut (lies : LiesAt buffer (idx + 1) text) : LiesAt (Function.update buffer idx 0) (idx + 1) text :=
  lies.congr fun k behind => Function.update_of_ne (by omega) ..

theorem Finished.mono (finished : Finished buffer idx p w) (le : idx ≤ idx')
    (same : ∀ k : Nat, k < idx → buffer' k = buffer k) : Finished buffer' idx' p w where
  noZero := finished.noZero
  chars k below := (same _ (by have := finished.inside; omega)).trans (finished.chars k below)
  inside := finished.inside.trans_le le
  terminated := (same _ finished.inside).trans finished.terminated

theorem Finished.cut (finished : Finished buffer idx p w) :
    Finished (Function.update buffer idx 0) (idx + 1) p w :=
  finished.mono (Nat.le_succ idx) fun k below => Function.update_of_ne (by omega) ..

theorem Unfinished.end_ (unfinished : Unfinished buffer idx p w) (zero : buffer idx = 0) :
    Finished buffer (idx + 1) p w := by
  have reaches := unfinished.reaches
  exact ⟨unfinished.noZero, unfinished.chars, by omega, by rw [reaches]; exact zero⟩

theorem Unfinished.cut (unfinished : Unfinished buffer idx p w) :
    Finished (Function.update buffer idx 0) (idx + 1) p w := by
  have reaches := unfinished.reaches
  refine Unfinished.end_ ⟨unfinished.noZero, fun k below => ?_, reaches⟩ (Function.update_self ..)
  exact (Function.update_of_ne (by omega) ..).trans (unfinished.chars k below)

/-- The string that is read from a finished argument. -/
theorem Finished.textAt {rounds : Nat} (finished : Finished buffer idx p w) (room : w.length < rounds) :
    textAt buffer rounds p = w := by
  induction w generalizing p rounds with
  | nil =>
    obtain ⟨rounds, rfl⟩ := Nat.exists_eq_add_of_lt room
    exact if_pos finished.terminated
  | cons c w ih =>
    obtain ⟨rounds, rfl⟩ : ∃ n, rounds = n + 1 := ⟨rounds - 1, by omega⟩
    have here : buffer p = c := finished.chars 0 (Nat.succ_pos _)
    have nonzero := finished.noZero c List.mem_cons_self
    have inside := finished.inside
    have terminated := finished.terminated
    rw [List.length_cons] at room inside terminated
    have rest : Finished buffer idx (p + 1) w := by
      refine ⟨fun d mem => finished.noZero d (List.mem_cons_of_mem c mem), fun k below => ?_, by omega, ?_⟩
      · have there := finished.chars (k + 1) (Nat.succ_lt_succ below)
        rwa [show p + 1 + k = p + (k + 1) by omega]
      · rwa [Nat.add_comm w.length, ← Nat.add_assoc] at terminated
    rw [Console.textAt, here, if_neg nonzero, ih rest (by omega)]

end Text

/-! ## Characters of a line -/

namespace Tokenizer

variable {s t : Tokenizer} {idx n k : Nat} {text rest a word : List Byte} {c : Byte}

/-- `n` rounds of the loop. -/
def Advances (s : Tokenizer) (idx n : Nat) (t : Tokenizer) : Prop :=
  ∀ rounds, run (rounds + n) idx s = run rounds (idx + n) t

theorem Advances.refl (s : Tokenizer) (idx : Nat) : Advances s idx 0 s := fun _ => rfl

theorem Advances.trans {u : Tokenizer} (first : Advances s idx n t) (second : Advances t (idx + n) k u) :
    Advances s idx (n + k) u := by
  intro rounds
  rw [Nat.add_comm n, ← Nat.add_assoc, first, second, Nat.add_assoc, Nat.add_comm n]

theorem Advances.one (nonzero : s.buffer idx ≠ 0) (steps : step idx s = some t) : Advances s idx 1 t := by
  intro rounds
  rw [run, if_neg nonzero, steps]

/-- A space outside quotes. -/
theorem advances_space (here : s.buffer idx = chr ' ') (outside : s.mark = 0) :
    Advances s idx 1 (s.cut idx) := by
  refine Advances.one (by rw [here]; decide) ?_
  rw [step, if_pos here, if_pos outside]

/-- A quote behind a character that is no backslash. -/
theorem advances_quote (here : s.buffer idx = quote) (later : 0 < idx) (last : s.buffer (idx - 1) ≠ backslash) :
    Advances s idx 1 (if s.mark = 0 then { s with mark := idx } else { s.cut idx with mark := 0 }) := by
  have noSpace : quote ≠ chr ' ' := by decide
  refine Advances.one (by rw [here]; decide) ?_
  rw [step, here, if_neg noSpace, if_pos ⟨rfl, later, last⟩]
  split <;> rfl

/-- The first character of an argument. -/
theorem advances_start (here : s.buffer idx = c) (nonzero : c ≠ 0) (noSpace : c ≠ chr ' ') (noQuote : c ≠ quote)
    (starts : s.space = true ∨ s.args = []) (few : s.args.length + 1 < evalArgsMax) :
    Advances s idx 1 { s with args := s.args ++ [idx], space := false } := by
  refine Advances.one (by rw [here]; exact nonzero) ?_
  rw [step, here, if_neg noSpace, if_neg fun quote_ => noQuote quote_.1, if_pos starts, if_neg (not_le.2 few)]

/-- Characters that change nothing: in an argument, or spaces before one in quotes. -/
theorem advances_same (lies : LiesAt s.buffer idx (text ++ rest))
    (plain : ∀ c ∈ text, c ≠ 0 ∧ c ≠ quote)
    (same : ∀ c ∈ text, c = chr ' ' ∧ s.mark ≠ 0 ∨ c ≠ chr ' ' ∧ s.space = false ∧ s.args ≠ []) :
    Advances s idx text.length s := by
  induction text generalizing idx with
  | nil => exact Advances.refl s idx
  | cons c text ih =>
    have here : s.buffer idx = c := lies.head
    obtain ⟨nonzero, noQuote⟩ := plain c List.mem_cons_self
    have first : Advances s idx 1 s := by
      refine Advances.one (by rw [here]; exact nonzero) ?_
      rw [step, here]
      rcases same c List.mem_cons_self with ⟨isSpace, marked⟩ | ⟨noSpace, started, some_arg⟩
      · rw [if_pos isSpace, if_neg marked]
      · rw [if_neg noSpace, if_neg fun quote_ => noQuote quote_.1, if_neg (by simp [started, some_arg]),
          ← started]
    have later := ih lies.tail (fun d mem => plain d (List.mem_cons_of_mem c mem))
      fun d mem => same d (List.mem_cons_of_mem c mem)
    rw [List.length_cons, Nat.add_comm]
    exact first.trans later

/-! ## Words and quotes -/

/-- Between arguments: the ones before `idx` are `done`, and the last may lack its terminator. -/
structure Between (s : Tokenizer) (idx : Nat) (done : List (List Byte)) : Prop where
  unmarked : s.mark = 0
  args : List.Forall₂ (fun p w => Finished s.buffer idx p w ∨ Unfinished s.buffer idx p w) s.args done

/-- What a quoted argument leaves: its text without leading spaces, if there is any. -/
def kept (a : List Byte) : List (List Byte) :=
  let w := a.dropWhile (· = chr ' ')
  if w = [] then [] else [w]

/-- The first word. -/
theorem advances_word (buffer : Int → Byte) (lies : LiesAt buffer 0 (word ++ rest)) (some_char : word ≠ [])
    (plain : ∀ c ∈ word, c ≠ 0 ∧ c ≠ chr ' ' ∧ c ≠ quote) :
    ∃ t, Advances ⟨buffer, [], 0, false⟩ 0 word.length t ∧ Between t word.length [word] ∧
      LiesAt t.buffer word.length rest := by
  obtain ⟨c, w, rfl⟩ := List.exists_cons_of_ne_nil some_char
  obtain ⟨nonzero, noSpace, noQuote⟩ := plain c List.mem_cons_self
  have first := advances_start (s := ⟨buffer, [], 0, false⟩) lies.head nonzero noSpace noQuote (.inr rfl)
    (by simp [evalArgsMax])
  have others : Advances ⟨buffer, [0], 0, false⟩ 1 w.length ⟨buffer, [0], 0, false⟩ := by
    refine advances_same lies.tail (fun d mem => ?_) fun d mem => .inr ?_
    · have := plain d (List.mem_cons_of_mem c mem)
      exact ⟨this.1, this.2.2⟩
    · exact ⟨(plain d (List.mem_cons_of_mem c mem)).2.1, rfl, by simp⟩
  have arg : Unfinished buffer (c :: w).length 0 (c :: w) :=
    ⟨fun d mem => (plain d mem).1, fun k below => lies.char below, Nat.zero_add _⟩
  refine ⟨⟨buffer, [0], 0, false⟩, ?_, ⟨rfl, .cons (.inr arg) .nil⟩, ?_⟩
  · rw [List.length_cons, Nat.add_comm]
    exact first.trans others
  · have there := lies.suffix
    rwa [Nat.zero_add] at there

/-- A space behind an argument. -/
theorem Between.space {done : List (List Byte)} (now : Between s idx done) :
    List.Forall₂ (Finished (s.cut idx).buffer (idx + 1)) s.args done :=
  now.args.imp fun _ _ either => either.elim Finished.cut Unfinished.cut

/-- The text between quotes. -/
theorem advances_text {done : List (List Byte)} (lies : LiesAt s.buffer idx (a ++ quote :: rest)) (marked : s.mark ≠ 0)
    (ready : s.space = true) (args : List.Forall₂ (Finished s.buffer idx) s.args done)
    (plain : ∀ c ∈ a, c ≠ 0 ∧ c ≠ quote) (few : s.args.length + 1 < evalArgsMax) :
    ∃ t, Advances s idx a.length t ∧ t.buffer = s.buffer ∧ t.mark = s.mark ∧
      List.Forall₂ (fun p w => Finished t.buffer (idx + a.length) p w ∨ Unfinished t.buffer (idx + a.length) p w)
        t.args (done ++ kept a) := by
  have split : a.takeWhile (· = chr ' ') ++ a.dropWhile (· = chr ' ') = a := List.takeWhile_append_dropWhile
  have isSpace (c : Byte) (mem : c ∈ a.takeWhile (· = chr ' ')) : c = chr ' ' := by
    simpa using List.mem_takeWhile_imp mem
  have firstKept := List.head?_dropWhile_not (fun c : Byte => decide (c = chr ' ')) a
  unfold kept
  generalize a.takeWhile (· = chr ' ') = spaces at *
  generalize a.dropWhile (· = chr ' ') = w at *
  subst split
  have skips : Advances s idx spaces.length s := by
    have reads : LiesAt s.buffer idx (spaces ++ (w ++ quote :: rest)) := by rwa [← List.append_assoc]
    refine advances_same reads
      (fun c mem => plain c (List.mem_append_left w mem)) fun c mem => .inl ⟨isSpace c mem, marked⟩
  cases w with
  | nil =>
    rw [List.append_nil, if_pos rfl, List.append_nil]
    exact ⟨s, skips, rfl, rfl, args.imp fun _ _ finished => .inl (finished.mono (Nat.le_add_right ..) fun _ _ => rfl)⟩
  | cons c v =>
    have noSpace : c ≠ chr ' ' := by simpa using firstKept
    have rests : LiesAt s.buffer (idx + spaces.length) (c :: (v ++ quote :: rest)) := by
      rw [List.append_assoc] at lies
      exact lies.suffix
    have plainWord (d : Byte) (mem : d ∈ c :: v) : d ≠ 0 ∧ d ≠ quote := plain d (List.mem_append_right spaces mem)
    obtain ⟨nonzero, noQuote⟩ := plainWord c List.mem_cons_self
    have starts := advances_start rests.head nonzero noSpace noQuote (.inl ready) few
    have others : Advances { s with args := s.args ++ [idx + spaces.length], space := false }
        (idx + spaces.length + 1) v.length { s with args := s.args ++ [idx + spaces.length], space := false } := by
      refine advances_same rests.tail (fun d mem => plainWord d (List.mem_cons_of_mem c mem)) fun d _ => ?_
      by_cases space : d = chr ' '
      · exact .inl ⟨space, marked⟩
      · exact .inr ⟨space, rfl, by simp⟩
    have last : Unfinished s.buffer (idx + (spaces ++ c :: v).length) (idx + spaces.length) (c :: v) := by
      refine ⟨fun d mem => (plainWord d mem).1, fun k below => LiesAt.char rests below, ?_⟩
      rw [List.length_append, Nat.add_assoc]
    have earlier : List.Forall₂ (fun p w => Finished s.buffer (idx + (spaces ++ c :: v).length) p w ∨
        Unfinished s.buffer (idx + (spaces ++ c :: v).length) p w) s.args done :=
      args.imp fun _ _ finished => .inl (finished.mono (Nat.le_add_right ..) fun _ _ => rfl)
    refine ⟨{ s with args := s.args ++ [idx + spaces.length], space := false }, ?_, rfl, rfl, ?_⟩
    swap
    · rw [if_neg (List.cons_ne_nil c v)]
      exact List.rel_append earlier (.cons (.inr last) .nil)
    rw [List.length_append, List.length_cons, Nat.add_comm v.length]
    exact skips.trans (starts.trans others)

/-- **A quoted argument behind a space.** -/
theorem Between.quoted {done : List (List Byte)} (now : Between s idx done)
    (lies : LiesAt s.buffer idx (chr ' ' :: quote :: (a ++ quote :: rest)))
    (plain : ∀ c ∈ a, c ≠ 0 ∧ c ≠ quote ∧ c ≠ backslash) (few : s.args.length + 1 < evalArgsMax) :
    ∃ t, Advances s idx (a.length + 3) t ∧ Between t (idx + (a.length + 3)) (done ++ kept a) ∧
      LiesAt t.buffer (idx + (a.length + 3)) rest := by
  have cut := advances_space lies.head now.unmarked
  have args := now.space
  have opened : LiesAt (s.cut idx).buffer (idx + 1) (quote :: (a ++ quote :: rest)) := lies.tail.cut
  have afterCut : (s.cut idx).buffer ((idx + 1 : Nat) - 1) ≠ backslash := by
    have zero : (s.cut idx).buffer ((idx + 1 : Nat) - 1) = 0 := by
      rw [show ((idx + 1 : Nat) : Int) - 1 = idx by omega]
      exact Function.update_self ..
    rw [zero]
    decide
  have opens := advances_quote opened.head (Nat.succ_pos idx) afterCut
  rw [if_pos (show (s.cut idx).mark = 0 from now.unmarked)] at opens
  obtain ⟨t, reads, sameBuffer, sameMark, argsRead⟩ := advances_text (s := { s.cut idx with mark := idx + 1 })
    opened.tail (Nat.succ_ne_zero idx) rfl
    (args.imp fun _ _ finished => finished.mono (Nat.le_succ _) fun _ _ => rfl)
    (fun c mem => ⟨(plain c mem).1, (plain c mem).2.1⟩) few
  have closing : LiesAt t.buffer (idx + 1 + 1 + a.length) (quote :: rest) := by
    rw [sameBuffer]
    exact opened.tail.suffix
  have noEscape : t.buffer ((idx + 1 + 1 + a.length : Nat) - 1) ≠ backslash := by
    have place : ((idx + 1 + 1 + a.length : Nat) : Int) - 1 = (idx + 1 + a.length : Nat) := by omega
    have below : a.length < (quote :: a).length := Nat.lt_succ_self _
    have there : (s.cut idx).buffer (idx + 1 + a.length : Nat) = (quote :: a)[a.length] := LiesAt.char opened below
    rw [place, sameBuffer]
    intro escape
    rcases List.mem_cons.1 (List.getElem_mem below) with isQuote | inside
    · rw [there, isQuote] at escape
      exact absurd escape (by decide)
    · exact (plain _ inside).2.2 (there.symm.trans escape)
  have closes := advances_quote closing.head (by omega) noEscape
  rw [if_neg (by rw [sameMark]; exact Nat.succ_ne_zero idx)] at closes
  refine ⟨{ t.cut (idx + 1 + 1 + a.length) with mark := 0 }, ?_, ⟨rfl, ?_⟩, ?_⟩
  · have all := cut.trans (opens.trans (reads.trans closes))
    rwa [show 1 + (1 + (a.length + 1)) = a.length + 3 by omega] at all
  · refine argsRead.imp fun _ _ either => .inl ?_
    rw [show idx + (a.length + 3) = idx + 1 + 1 + a.length + 1 by omega]
    exact either.elim Finished.cut Unfinished.cut
  · rw [show idx + (a.length + 3) = idx + 1 + 1 + a.length + 1 by omega]
    exact closing.tail.cut

theorem kept_length_le (a : List Byte) : (kept a).length ≤ 1 := by
  unfold kept
  simp only
  split <;> simp

/-- All quoted arguments of a line. -/
theorem Between.all {done args : List (List Byte)} (now : Between s idx done)
    (lies : LiesAt s.buffer idx (args.flatMap inQuotes))
    (plain : ∀ a ∈ args, ∀ c ∈ a, c ≠ 0 ∧ c ≠ quote ∧ c ≠ backslash)
    (few : s.args.length + args.length < evalArgsMax) :
    ∃ t, Advances s idx (args.flatMap inQuotes).length t ∧
      Between t (idx + (args.flatMap inQuotes).length) (done ++ args.flatMap kept) ∧
      t.buffer (idx + (args.flatMap inQuotes).length : Nat) = 0 := by
  induction args generalizing s idx done with
  | nil => exact ⟨s, Advances.refl s idx, by simpa using now, lies.ends⟩
  | cons a args ih =>
    rw [List.length_cons] at few
    rw [List.flatMap_cons] at lies
    have first : LiesAt s.buffer idx (chr ' ' :: quote :: (a ++ quote :: args.flatMap inQuotes)) := by
      rwa [inQuotes, List.cons_append, List.cons_append, List.append_assoc] at lies
    obtain ⟨t, goes, next, rests⟩ := now.quoted first (plain a List.mem_cons_self) (by omega)
    have counts := next.args.length_eq
    have before := now.args.length_eq
    have one := kept_length_le a
    rw [List.length_append] at counts
    obtain ⟨u, later, last, ends⟩ := ih next rests (fun b mem => plain b (List.mem_cons_of_mem a mem)) (by omega)
    have length : (List.flatMap inQuotes (a :: args)).length = a.length + 3 + (args.flatMap inQuotes).length := by
      simp [inQuotes]
      omega
    rw [length, List.flatMap_cons, ← List.append_assoc, ← Nat.add_assoc]
    exact ⟨u, goes.trans later, last, ends⟩

end Tokenizer

/-! ## The line -/

/-- A line of a word and quoted arguments, for which there is a command. -/
structure QuotedLine (commands : List (List Byte)) (buffer : Int → Byte) (word : List Byte)
    (args : List (List Byte)) (node : Nat) : Prop where
  some_char : word ≠ []
  wordPlain : ∀ c ∈ word, Printable c ∧ c ≠ chr ' ' ∧ c ≠ quote ∧ c ≠ backslash
  plain : ∀ a ∈ args, ∀ c ∈ a, Printable c ∧ c ≠ quote ∧ c ≠ backslash
  few : (word :: args).length ≤ 31
  short : (quoted word args).length ≤ 1023
  holds : HoldsText buffer (quoted word args)
  defined : commands.findIdx? (fun command => strcmp command word = 0) = some node

section Line

variable {commands : List (List Byte)} {buffer : Int → Byte} {word : List Byte} {args : List (List Byte)}
  {node : Nat}

theorem Printable.nonzero {c : Byte} (printable : Printable c) : c ≠ 0 := by
  rintro rfl
  exact absurd printable (by decide)

open Tokenizer

/-- What the handler gets of a quoted line. -/
theorem QuotedLine.evalLine_eq (line : QuotedLine commands buffer word args node) :
    evalLine commands buffer (quoted word args).length =
      some (.called node (word :: args.flatMap kept).length (word :: args.flatMap kept)) := by
  have lies : LiesAt buffer 0 (word ++ args.flatMap inQuotes) := by
    refine ⟨fun k below => ?_, ?_⟩
    · rw [Nat.zero_add]
      exact line.holds.chars k below
    · rw [Nat.zero_add]
      exact line.holds.terminated
  have short := line.short
  have few := line.few
  rw [List.length_cons] at few
  obtain ⟨t, first, one, rests⟩ := advances_word buffer lies line.some_char fun c mem =>
    ⟨(line.wordPlain c mem).1.nonzero, (line.wordPlain c mem).2.1, (line.wordPlain c mem).2.2.1⟩
  have oneArg := one.args.length_eq
  rw [List.length_singleton] at oneArg
  obtain ⟨u, others, last, ends⟩ := one.all rests
    (fun a inside c mem => ⟨(line.plain a inside c mem).1.nonzero, (line.plain a inside c mem).2⟩)
    (by rw [oneArg, evalArgsMax]; omega)
  have starts : skipSpaces buffer evalCharMax 0 = some 0 := by
    obtain ⟨c, w, rfl⟩ := List.exists_cons_of_ne_nil line.some_char
    have here : buffer (0 : Nat) = c := lies.head
    rw [evalCharMax, skipSpaces, here, if_neg (line.wordPlain c List.mem_cons_self).2.1]
  have runs : run evalCharMax 0 ⟨buffer, [], 0, false⟩ = some (some u) := by
    obtain ⟨n, isLength⟩ : ∃ n, evalCharMax = n + 1 + (word.length + (args.flatMap inQuotes).length) := by
      rw [quoted, List.length_append] at short
      exact ⟨1023 - (word.length + (args.flatMap inQuotes).length), by rw [evalCharMax]; omega⟩
    have goes := (first.trans (by rwa [Nat.zero_add])) (n + 1)
    rw [isLength, goes, run, Nat.zero_add, if_pos ends]
  have argv : u.args.map (textAt u.buffer evalCharMax) = word :: args.flatMap kept := by
    refine List.forall₂_eq_eq_eq ▸ List.forall₂_map_left_iff.2 (last.args.imp fun p w either => ?_)
    have finished := either.elim (fun finished => finished.mono (Nat.le_succ _) fun _ _ => rfl) (·.end_ ends)
    have inside := finished.inside
    rw [quoted, List.length_append] at short
    exact finished.textAt (by rw [evalCharMax]; omega)
  have count : u.args.length = (word :: args.flatMap kept).length := by
    rw [← argv, List.length_map]
  have some_key : ((quoted word args).length : Int) > 0 := by
    have := List.length_pos_iff.2 line.some_char
    rw [quoted, List.length_append]
    omega
  rw [evalLine, if_pos some_key, starts]
  simp only [Option.bind_eq_bind, Option.bind_some, runs, argv, count, last.unmarked, line.defined]
  rfl

theorem flatMap_kept_iff : args.flatMap kept = args ↔ ∀ a ∈ args, a ≠ [] ∧ a.head? ≠ some (chr ' ') := by
  constructor
  · intro same a inside
    rw [← same] at inside
    obtain ⟨b, -, isKept⟩ := List.mem_flatMap.1 inside
    have first := List.head?_dropWhile_not (fun c : Byte => decide (c = chr ' ')) b
    simp only [kept] at isKept
    split at isKept
    · cases isKept
    · next some_char =>
      obtain rfl := List.mem_singleton.1 isKept
      refine ⟨some_char, fun isSpace => ?_⟩
      rw [isSpace] at first
      simp at first
  · intro good
    induction args with
    | nil => rfl
    | cons a args ih =>
      obtain ⟨some_char, noSpace⟩ := good a List.mem_cons_self
      have same : kept a = [a] := by
        obtain ⟨c, w, rfl⟩ := List.exists_cons_of_ne_nil some_char
        have other : c ≠ chr ' ' := fun isSpace => noSpace (congrArg some isSpace)
        simp [kept, other]
      rw [List.flatMap_cons, same, ih fun b inside => good b (List.mem_cons_of_mem a inside)]
      rfl

/-- **The handler gets the arguments that were quoted exactly when none is empty and none begins
with a space.** -/
theorem quoting_round_trips_iff (line : QuotedLine commands buffer word args node) :
    evalLine commands buffer (quoted word args).length =
        some (.called node (word :: args).length (word :: args)) ↔
      ∀ a ∈ args, a ≠ [] ∧ a.head? ≠ some (chr ' ') := by
  rw [line.evalLine_eq, ← flatMap_kept_iff]
  constructor
  · intro same
    exact (List.cons.inj (Evaluation.called.inj (Option.some.inj same)).2.2).2
  · intro same
    rw [same]

/-- A buffer that has only this text. -/
def textBuffer (text : List Byte) : Int → Byte := fun k => text.getD k.toNat 0

theorem textBuffer_holds (text : List Byte) : HoldsText (textBuffer text) text where
  chars k below := by
    rw [textBuffer, Int.toNat_natCast]
    exact List.getD_eq_getElem text 0 below
  terminated := by
    rw [textBuffer, Int.toNat_natCast]
    exact List.getD_eq_default text 0 le_rfl

/-- `cd "a b"`. -/
theorem one_directory_quoted :
    evalLine [bytes "help", bytes "cd"] (textBuffer (quoted (bytes "cd") [bytes "a b"]))
        (quoted (bytes "cd") [bytes "a b"]).length =
      some (.called 1 2 [bytes "cd", bytes "a b"]) := by
  have line : QuotedLine [bytes "help", bytes "cd"] (textBuffer (quoted (bytes "cd") [bytes "a b"])) (bytes "cd")
      [bytes "a b"] 1 :=
    ⟨by decide, by decide, by decide, by decide, by decide, textBuffer_holds _, by decide⟩
  exact (quoting_round_trips_iff line).2 (by decide)

/-- `cd ""` calls the handler without an argument, and `cd " a"` with one that is no longer. -/
theorem empty_argument_lost :
    QuotedLine [bytes "cd"] (textBuffer (quoted (bytes "cd") [[]])) (bytes "cd") [[]] 0 ∧
      evalLine [bytes "cd"] (textBuffer (quoted (bytes "cd") [[]])) (quoted (bytes "cd") [[]]).length =
        some (.called 0 1 [bytes "cd"]) ∧
      evalLine [bytes "cd"] (textBuffer (quoted (bytes "cd") [bytes " a"]))
          (quoted (bytes "cd") [bytes " a"]).length = some (.called 0 2 [bytes "cd", bytes "a"]) := by
  refine ⟨⟨by decide, by decide, by decide, by decide, by decide, textBuffer_holds _, by decide⟩, ?_, ?_⟩
  · decide +kernel
  · decide +kernel

end Line

end TestOs.Console
