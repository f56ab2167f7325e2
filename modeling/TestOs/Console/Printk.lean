/-
# Console.Printk -- printk and the cache of the thread that prints

`printk` writes the text of a format to `console_cache` of the calling thread,
which has 512 bytes, and the number converters write there directly.  Nothing
looks at the size.  What is written is the text and a terminator, so it stays in
the cache exactly when the text has fewer than 512 characters
(`printk_in_cache_iff`); the line that `eval` prints for a command it does not
know can have more than a thousand.
-/
import TestOs.Library.Traced

namespace TestOs.Console

open TestOs.Library

set_option autoImplicit false

/-- A `char`. -/
abbrev Byte := BitVec 8

/-- A character constant. -/
def chr (c : Char) : Byte := BitVec.ofNat 8 c.toNat

/-- `KERNEL_THREAD_CONSOLE_SIZE`. -/
def consoleSize : Nat := 512

/-- What `result` points to: the cache, and what follows it in `struct thread`. -/
abbrev Cache := Traced Nat Byte

/-! ## text.c -/

/-- `'0' + digit`, and `hex_char[digit]`. -/
def digitChar (digit : Nat) : Byte := BitVec.ofNat 8 ('0'.toNat + digit)

def hexChar (digit : Nat) : Byte := if digit < 10 then digitChar digit else BitVec.ofNat 8 (87 + digit)

/-- What the converters differ in. -/
structure Radix where
  base : Nat
  digit : Nat → Byte
  /-- 0 has a digit, before or behind the loop over the digits. -/
  zeroBefore : Bool
  zeroBehind : Bool
  terminated : Bool

/-- `if (c) dst[i++] = v;`, with `i` and the cache as the state. -/
def putIf (c : Bool) (v : Byte) (at_ : Nat) (s : Nat × Cache) : Nat × Cache :=
  if c then (s.1 + 1, s.2.put (at_ + s.1) v) else s

/-- A converter that gets `&result[at_]`: the length, and the cache. -/
def numberString (r : Radix) (number : BitVec 32) (sign : Bool) (at_ : Nat) (dst : Cache) : Nat × Cache :=
  let negative := sign && number.msb
  let number := if negative then number &&& 0x7fffffff else number
  let s := putIf negative (chr '-') at_ (0, dst)
  let s := putIf (r.zeroBefore && number == 0) (chr '0') at_ s
  -- `tmp` has the digits from the last one on
  let tmp := (Nat.digits r.base number.toNat).map r.digit
  let s := (s.1 + tmp.length, s.2.putList (at_ + s.1) tmp.reverse)
  let s := putIf (r.zeroBehind && s.1 == 0) (chr '0') at_ s
  (s.1, if r.terminated then s.2.put (at_ + s.1) 0 else s.2)

def decimal : Radix := ⟨10, digitChar, false, true, true⟩
def octal : Radix := ⟨8, digitChar, false, false, false⟩
def hexadecimal : Radix := ⟨16, hexChar, true, false, true⟩
def binary : Radix := ⟨2, digitChar, false, false, true⟩

def base10String := numberString decimal
def base8String := numberString octal
def base16String := numberString hexadecimal
def base2String := numberString binary

/-! ## printk.c -/

/-- An argument: an `int`, or a string up to its terminator. -/
inductive Arg where
  | int (value : BitVec 32)
  | str (text : List Byte)

/-- The cases of the `switch`. -/
inductive Conversion where
  | d | x | s | c | b | u | o | other

def conversion (ch : Byte) : Conversion :=
  if ch = chr 'd' ∨ ch = chr 'D' then .d
  else if ch = chr 'x' ∨ ch = chr 'p' ∨ ch = chr 'X' then .x
  else if ch = chr 's' ∨ ch = chr 'S' then .s
  else if ch = chr 'c' ∨ ch = chr 'C' then .c
  else if ch = chr 'b' ∨ ch = chr 'B' then .b
  else if ch = chr 'u' ∨ ch = chr 'U' then .u
  else if ch = chr 'o' ∨ ch = chr 'O' then .o
  else .other

/-- The character of a `%c`. -/
def printed (value : BitVec 32) : Byte :=
  let ch : Byte := value.setWidth 8
  if ch = 0 then chr ' ' else ch

/-- One conversion, with the arguments that are left: what it adds to
`string_length`, and the cache.  An argument of the wrong type, or a missing one, is
outside the model. -/
def convert (ch : Byte) (args : List Arg) (length : Nat) (result : Cache) :
    Option (Nat × Cache × List Arg) :=
  let number (string : BitVec 32 → Bool → Nat → Cache → Nat × Cache) (sign : Bool) :=
    match args with
    | .int value :: args =>
        let (added, result) := string value sign length result
        some (added, result, args)
    | _ => none
  match conversion ch with
  | .d => number base10String false
  | .x => number base16String false
  | .s =>
      match args with
      | .str text :: args => some (text.length, result.putList length text, args)
      | _ => none
  | .c =>
      match args with
      | .int value :: args => some (1, result.put length (printed value), args)
      | _ => none
  | .b => number base2String false
  | .u => number base10String true
  | .o => number base8String false
  -- `%%` and the default
  | .other => some (1, result.put length ch, args)

/-- The loop over the format.  A `%` at its end makes the loop read on behind it,
which is outside the model. -/
def printkLoop : List Byte → List Arg → Nat → Cache → Option (Nat × Cache)
  | [], _, length, result => some (length, result)
  | [ch], args, length, result =>
      if ch ≠ chr '%' then printkLoop [] args (length + 1) (result.put length ch) else none
  | ch :: next :: fmt, args, length, result =>
      if ch ≠ chr '%' then printkLoop (next :: fmt) args (length + 1) (result.put length ch)
      else
        match convert next args length result with
        | some (added, result, args) => printkLoop fmt args (length + added) result
        | none => none

/-- `printk` of a thread whose `console_cache`, and what follows it, is `cache`. -/
def printk (fmt : List Byte) (args : List Arg) (cache : Nat → Byte) : Option (Nat × Cache) := do
  let (length, result) ← printkLoop fmt args 0 ⟨cache, []⟩
  return (length, result.put length 0)

/-! ## The text of a format -/

/-- What a converter stands for.  A negative number loses its highest bit, and -2^31
has no digit left. -/
def numberText (r : Radix) (number : BitVec 32) (sign : Bool) : List Byte :=
  let negative := sign && number.msb
  let number := if negative then number &&& 0x7fffffff else number
  (if negative then [chr '-'] else []) ++
    if number = 0 then if r.zeroBefore || (r.zeroBehind && !negative) then [chr '0'] else []
    else ((Nat.digits r.base number.toNat).map r.digit).reverse

/-- What a conversion stands for, and the arguments behind it. -/
def conversionText (ch : Byte) (args : List Arg) : Option (List Byte × List Arg) :=
  match conversion ch, args with
  | .d, .int value :: args => some (numberText decimal value false, args)
  | .x, .int value :: args => some (numberText hexadecimal value false, args)
  | .s, .str text :: args => some (text, args)
  | .c, .int value :: args => some ([printed value], args)
  | .b, .int value :: args => some (numberText binary value false, args)
  | .u, .int value :: args => some (numberText decimal value true, args)
  | .o, .int value :: args => some (numberText octal value false, args)
  | .other, args => some ([ch], args)
  | _, _ => none

/-- What a format stands for, if it has the arguments it asks for. -/
def text : List Byte → List Arg → Option (List Byte)
  | [], _ => some []
  | [ch], _ => if ch = chr '%' then none else some [ch]
  | ch :: next :: fmt, args =>
      if ch = chr '%' then do
        let (piece, args) ← conversionText next args
        return piece ++ (← text fmt args)
      else return ch :: (← text (next :: fmt) args)

/-! ## What is written -/

/-- `text` is what was written at `at_`, and `i` counts it. -/
def Wrote (at_ : Nat) (dst : Cache) (s : Nat × Cache) (text : List Byte) : Prop :=
  s.1 = text.length ∧ dst.Text s.2 at_ text

section Numbers

variable {at_ : Nat} {dst : Cache} {s : Nat × Cache} {before : List Byte}

theorem Wrote.put_if (wrote : Wrote at_ dst s before) (c : Bool) (v : Byte) :
    Wrote at_ dst (putIf c v at_ s) (before ++ if c then [v] else []) := by
  obtain ⟨counted, wrote⟩ := wrote
  cases c with
  | false =>
    refine ⟨?_, ?_⟩
    · simpa [putIf] using counted
    · simpa [putIf] using wrote
  | true =>
    refine ⟨?_, ?_⟩
    · simp [putIf, counted]
    · simp only [putIf, if_true]
      rw [counted]
      exact wrote.append (.single _ _ _)

theorem Wrote.put_list (wrote : Wrote at_ dst s before) (piece : List Byte) :
    Wrote at_ dst (s.1 + piece.length, s.2.putList (at_ + s.1) piece) (before ++ piece) := by
  obtain ⟨counted, wrote⟩ := wrote
  refine ⟨?_, ?_⟩
  · simp [counted]
  · rw [counted]
    exact wrote.append (.list _ _ _)

theorem Wrote.terminate (wrote : Wrote at_ dst s before) (c : Bool) :
    Wrote at_ dst (s.1, if c then s.2.put (at_ + s.1) 0 else s.2) before := by
  obtain ⟨counted, wrote⟩ := wrote
  refine ⟨counted, ?_⟩
  cases c with
  | false => exact wrote
  | true =>
    show dst.Text (s.2.put (at_ + s.1) 0) at_ before
    rw [counted]
    exact wrote.put_behind

/-- The end of a converter: a digit if there is nothing, and the terminator. -/
theorem Wrote.finish (wrote : Wrote at_ dst s before) (zero terminated : Bool) :
    Wrote at_ dst
      ((putIf (zero && s.1 == 0) (chr '0') at_ s).1,
        if terminated then
          (putIf (zero && s.1 == 0) (chr '0') at_ s).2.put
            (at_ + (putIf (zero && s.1 == 0) (chr '0') at_ s).1) 0
        else (putIf (zero && s.1 == 0) (chr '0') at_ s).2)
      (before ++ if zero && before.length == 0 then [chr '0'] else []) := by
  rw [← wrote.1]
  exact (wrote.put_if _ _).terminate terminated

/-- A converter writes its text. -/
theorem numberString_wrote (r : Radix) (number : BitVec 32) (sign : Bool) (at_ : Nat) (dst : Cache) :
    Wrote at_ dst (numberString r number sign at_ dst) (numberText r number sign) := by
  have start : Wrote at_ dst (0, dst) [] := ⟨rfl, .refl dst at_⟩
  unfold numberString numberText
  simp only []
  generalize (sign && number.msb) = negative
  generalize (if negative = true then number &&& 0x7fffffff else number) = value
  have leading := (start.put_if negative (chr '-')).put_if (r.zeroBefore && value == 0) (chr '0')
  have digits := leading.put_list (((Nat.digits r.base value.toNat).map r.digit).reverse)
  rw [List.length_reverse] at digits
  convert digits.finish r.zeroBehind r.terminated using 1
  by_cases zero : value = 0
  · subst zero
    cases negative <;> cases r.zeroBefore <;> cases r.zeroBehind <;> simp
  · have some_digit : Nat.digits r.base value.toNat ≠ [] := by
      apply Nat.digits_ne_nil_iff_ne_zero.2
      intro none
      exact zero (BitVec.eq_of_toNat_eq none)
    have not_zero : ¬ value = 0#32 := zero
    simp [not_zero, some_digit]

end Numbers

section Formats

variable {args rest : List Arg} {piece out : List Byte}

/-- A conversion writes what it stands for. -/
theorem convert_wrote {ch : Byte} (length : Nat) (result : Cache)
    (stands : conversionText ch args = some (piece, rest)) :
    ∃ after, convert ch args length result = some (piece.length, after, rest) ∧
      result.Text after length piece := by
  unfold conversionText at stands
  unfold convert
  split at stands <;> cases stands
  all_goals rename_i isConversion
  all_goals rw [isConversion]
  all_goals try exact ⟨_, rfl, .single _ _ _⟩
  case h_3 => exact ⟨_, rfl, .list _ _ _⟩
  all_goals
    obtain ⟨counted, wrote⟩ := numberString_wrote _ _ _ _ _
    exact ⟨_, by rw [← counted]; rfl, wrote⟩

/-- The loop writes what the rest of the format stands for. -/
theorem printkLoop_wrote {fmt : List Byte} (length : Nat) (result : Cache)
    (stands : text fmt args = some out) :
    ∃ after, printkLoop fmt args length result = some (length + out.length, after) ∧
      result.Text after length out := by
  induction fmt, args using text.induct generalizing length result out with
  | case1 args =>
    obtain rfl : [] = out := by simpa [text] using stands
    exact ⟨result, rfl, .refl result length⟩
  | case2 args => simp [text] at stands
  | case3 ch args literal =>
    obtain rfl : [ch] = out := by simpa [text, literal] using stands
    refine ⟨result.put length ch, ?_, .single result length ch⟩
    simp [printkLoop, literal]
  | case4 next fmt args ih =>
    rw [text, if_pos rfl] at stands
    obtain ⟨⟨piece, rest⟩, converts, stands⟩ := Option.bind_eq_some_iff.1 stands
    obtain ⟨behind, follows, isOut⟩ := Option.bind_eq_some_iff.1 stands
    obtain rfl : piece ++ behind = out := Option.some.inj isOut
    obtain ⟨middle, converted, first⟩ := convert_wrote length result converts
    obtain ⟨after, looped, second⟩ := ih rest (length + piece.length) middle follows
    refine ⟨after, ?_, first.append second⟩
    rw [printkLoop, if_neg (not_not.2 rfl), converted, List.length_append, ← Nat.add_assoc]
    exact looped
  | case5 ch next fmt args literal ih =>
    rw [text, if_neg literal] at stands
    obtain ⟨behind, follows, isOut⟩ := Option.bind_eq_some_iff.1 stands
    obtain rfl : ch :: behind = out := Option.some.inj isOut
    obtain ⟨after, looped, second⟩ := ih (length + 1) (result.put length ch) follows
    refine ⟨after, ?_, (Traced.Text.single result length ch).append second⟩
    rw [printkLoop, if_pos literal, looped, List.length_cons, Nat.add_assoc, Nat.add_comm 1]

/-- `printk` writes the text and a terminator. -/
theorem printk_wrote {fmt : List Byte} (cache : Nat → Byte) (stands : text fmt args = some out) :
    ∃ after, printk fmt args cache = some (out.length, after) ∧ out.length ∈ after.written ∧
      Traced.Text ⟨cache, []⟩ after 0 out := by
  obtain ⟨middle, looped, wrote⟩ := printkLoop_wrote 0 ⟨cache, []⟩ stands
  rw [Nat.zero_add] at looped
  refine ⟨middle.put out.length 0, ?_, List.mem_cons_self, ?_⟩
  · unfold printk
    rw [looped]
    rfl
  · have terminated := wrote.put_behind (v := 0)
    rwa [Nat.zero_add] at terminated

/-! ## The size of the cache -/

/-- The handler, the context and the `next` of the thread lie behind the cache. -/
structure InCache (cache : Nat → Byte) (after : Cache) : Prop where
  inside : after.Within (· < consoleSize)
  behind : ∀ k ≥ consoleSize, after.at_ k = cache k

/-- **`printk` stays in the cache, terminator included, exactly when the text has fewer
than 512 characters.** -/
theorem printk_in_cache_iff {fmt : List Byte} (cache : Nat → Byte) (stands : text fmt args = some out) :
    (∃ length after, printk fmt args cache = some (length, after) ∧ InCache cache after) ↔
      out.length < consoleSize := by
  obtain ⟨after, prints, terminated, wrote⟩ := printk_wrote cache stands
  constructor
  · rintro ⟨length, after', prints', inCache⟩
    obtain ⟨rfl, rfl⟩ : out.length = length ∧ after = after' := by
      rw [prints] at prints'
      simpa using prints'
    exact inCache.inside _ terminated
  · intro fits
    refine ⟨out.length, after, prints, fun k written => ?_, fun k behind => ?_⟩
    · rcases wrote.written k written with none | inside
      · cases none
      · show k < consoleSize
        omega
    · exact wrote.elsewhere k (.inr (by omega))

end Formats

/-- The characters of a literal. -/
def bytes (literal : String) : List Byte := literal.toList.map chr

/-- The flags of an exception stay in the cache. -/
theorem flags_in_cache :
    ∃ length after, printk (bytes "eflags = 0x%x\n") [.int 0x202] (fun _ => 0) = some (length, after) ∧
      InCache (fun _ => 0) after := by
  have stands : text (bytes "eflags = 0x%x\n") [.int 0x202] = some (bytes "eflags = 0x202\n") := by
    decide
  exact (printk_in_cache_iff (fun _ => 0) stands).2 (by decide)

/-- What `eval` prints for a command that nobody defined. -/
theorem undefined_text (command : List Byte) :
    text (bytes "`%s' is not defined\n") [.str command] =
      some (bytes "`" ++ (command ++ bytes "' is not defined\n")) := by
  rfl

/-- A line of 1023 letters overwrites the handler of the thread. -/
theorem undefined_command_overruns :
    ∃ after,
      printk (bytes "`%s' is not defined\n") [.str (List.replicate 1023 (chr 'a'))] (fun _ => 0) =
        some (1041, after) ∧
      ¬ after.Within (· < consoleSize) ∧ after.at_ consoleSize = chr 'a' := by
  obtain ⟨after, prints, terminated, wrote⟩ :=
    printk_wrote (fun _ => 0) (undefined_text (List.replicate 1023 (chr 'a')))
  have long : (bytes "`" ++ (List.replicate 1023 (chr 'a') ++ bytes "' is not defined\n")).length =
      1041 := by
    rw [List.length_append, List.length_append, List.length_replicate]
    rfl
  have overwritten := wrote.chars consoleSize (by rw [long]; decide)
  rw [long] at prints terminated
  refine ⟨after, prints, fun within => absurd (within _ terminated) (by decide), ?_⟩
  rw [Nat.zero_add] at overwritten
  rw [overwritten, List.getElem_append_right (by decide),
    List.getElem_append_left (by rw [List.length_replicate]; decide), List.getElem_replicate]

end TestOs.Console
