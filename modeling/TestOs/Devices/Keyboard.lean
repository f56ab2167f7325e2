/-
# Devices.Keyboard -- keyboard.c and keymap.h

`keyboard_isr` decodes a scan code and stores the character, also if it is 0, in
the ring `chars_fifo`; `get_key` reads the ring with a cursor that advances on
every call.  The two cursors have no fixed relation, so the ring is a queue only
as long as the reader meets the oldest character first and the writer meets
empty slots: `queue_iff` says that these are exactly the runs in which no
character is lost, duplicated or reordered.
-/
import TestOs.Library.Cyclic
import TestOs.Library.Transitions

namespace TestOs.Devices

open TestOs.Library

set_option autoImplicit false

/-! ## keymap.h -/

/-- An array of 256 bytes with its first entries in a row and others by index. -/
def table (row : List Nat) (others : List (Nat × Nat)) (code : BitVec 8) : BitVec 8 :=
  BitVec.ofNat 8 ((others.lookup code.toNat).getD (row.getD code.toNat 0))

def codes (chars : String) : List Nat := chars.toList.map Char.toNat

/-- `NO` a number of times. -/
def no (count : Nat) : List Nat := List.replicate count 0

def SHIFT : BitVec 32 := 1
def CTL : BitVec 32 := 2
def ALT : BitVec 32 := 4
def CAPSLOCK : BitVec 32 := 8
def NUMLOCK : BitVec 32 := 16
def SCROLLLOCK : BitVec 32 := 32
def E0ESC : BitVec 32 := 64

def shiftcode : BitVec 8 → BitVec 8 :=
  table [] [(0x1D, CTL.toNat), (0x2A, SHIFT.toNat), (0x36, SHIFT.toNat), (0x38, ALT.toNat),
    (0x9D, CTL.toNat), (0xB8, ALT.toNat)]

def togglecode : BitVec 8 → BitVec 8 :=
  table [] [(0x3A, CAPSLOCK.toNat), (0x45, NUMLOCK.toNat), (0x46, SCROLLLOCK.toNat)]

/-- The cursor keys, which the three maps share: `KEY_UP`, `KEY_DN`, `KEY_PGUP`,
`KEY_PGDN`, `KEY_LF`, `KEY_RT`, `KEY_HOME`, `KEY_END`, `KEY_INS` and `KEY_DEL`. -/
def cursorKeys : List (Nat × Nat) :=
  [(0xc8, 0xe2), (0xd0, 0xe3), (0xc9, 0xe6), (0xd1, 0xe7), (0xcb, 0xe4), (0xcd, 0xe5),
    (0x97, 0xe0), (0xcf, 0xe1), (0xd2, 0xe8), (0xd3, 0xe9)]

def normalmap : BitVec 8 → BitVec 8 :=
  table
    (List.flatten [no 1, [0x1B], codes "1234567890-=", [8], codes "\tqwertyuiop[]\n", no 1,
      codes "asdfghjkl;'`", no 1, codes "\\zxcvbnm,./", no 1, codes "*", no 1, codes " ", no 13,
      codes "789-456+1230."])
    (List.flatten [[(0x9c, 10), (0xb5, 47)], cursorKeys])

def shiftmap : BitVec 8 → BitVec 8 :=
  table
    (List.flatten [no 1, [0x1B], codes "!@#$%^&*()_+", [8], codes "\tQWERTYUIOP\x7b\x7d\n", no 1,
      codes "ASDFGHJKL:\"~", no 1, codes "|ZXCVBNM<>?", no 1, codes "*", no 1, codes " ", no 13,
      codes "789-456+1230."])
    (List.flatten [[(0x9c, 10), (0xb5, 47)], cursorKeys])

/-- `C(x)`. -/
def control (chars : String) : List Nat := (codes chars).map fun c => (c + 256 - 64) % 256

def ctlmap : BitVec 8 → BitVec 8 :=
  table
    (List.flatten [no 16, control "QWERTYUIOP", no 2, [13], no 1, control "ASDFGHJKL", no 4,
      control "\\ZXCVBNM", no 2, control "/"])
    (List.flatten [[(0x9c, 13), (0xb5, 239)], cursorKeys])

/-! ## keyboard.c -/

/-- `KEY_BUF_SIZE`. -/
def keyBufSize : Nat := 32

structure Keyboard where
  charsFifo : Nat → BitVec 8
  cursorIn : Nat
  cursorOut : Nat
  shift : BitVec 32

/-- The variables as they are initialised. -/
def Keyboard.powerOn : Keyboard := ⟨fun _ => 0, 0, 1, 0⟩

/-- `charcode[shift & (CTL | SHIFT)][data]`. -/
def charcode (shift : BitVec 32) (data : BitVec 8) : BitVec 8 :=
  if shift &&& (CTL ||| SHIFT) = 0 then normalmap data
  else if shift &&& (CTL ||| SHIFT) = SHIFT then shiftmap data
  else ctlmap data

/-- `keyboard_isr` up to its store: the new `shift`, and the character if there is one. -/
def decode (shift : BitVec 32) (data : BitVec 8) : BitVec 32 × Option (BitVec 8) :=
  if data = 0xE0 then (shift ||| E0ESC, none)
  else if data &&& 0x80 ≠ 0 then
    let data := if shift &&& E0ESC ≠ 0 then data else data &&& 0x7F
    (shift &&& ~~~((shiftcode data).zeroExtend 32 ||| E0ESC), none)
  else
    let escaped := shift &&& E0ESC ≠ 0
    let data := if escaped then data ||| 0x80 else data
    let shift := if escaped then shift &&& ~~~E0ESC else shift
    let shift := shift ||| (shiftcode data).zeroExtend 32
    let shift := shift ^^^ (togglecode data).zeroExtend 32
    let c := charcode shift data
    let c :=
      if shift &&& CAPSLOCK ≠ 0 then
        if 97 ≤ c ∧ c ≤ 122 then c + (65 - 97)
        else if 65 ≤ c ∧ c ≤ 90 then c + (97 - 65)
        else c
      else c
    (shift, some c)

/-- `chars_fifo[cursor_in++] = c; cursor_in %= KEY_BUF_SIZE`. -/
def Keyboard.put (s : Keyboard) (c : BitVec 8) : Keyboard :=
  { s with charsFifo := Function.update s.charsFifo s.cursorIn c
           cursorIn := (s.cursorIn + 1) % keyBufSize }

/-- What `keyboard_isr` stores, with `st` and `data` the bytes of the two ports. -/
def Keyboard.typed (s : Keyboard) (st data : BitVec 8) : Option (BitVec 8) :=
  if st &&& 1 = 0 then none else (decode s.shift data).2

def Keyboard.keyboardIsr (s : Keyboard) (st data : BitVec 8) : Keyboard :=
  if st &&& 1 = 0 then s
  else
    let (shift, c) := decode s.shift data
    let s := { s with shift := shift }
    match c with
    | some c => s.put c
    | none => s

def Keyboard.getKey (s : Keyboard) : BitVec 8 × Keyboard :=
  let cursorOut := s.cursorOut % keyBufSize
  (s.charsFifo cursorOut,
    { s with charsFifo := Function.update s.charsFifo cursorOut 0, cursorOut := cursorOut + 1 })

/-! ## Runs -/

inductive Event where
  | keyboardIsr (st data : BitVec 8)
  | getKey

/-- The characters other than 0. -/
def nonzero (chars : List (BitVec 8)) : List (BitVec 8) := chars.filter (· ≠ 0)

/-- The keyboard, and the characters stored and returned so far. -/
structure Session where
  keyboard : Keyboard
  enqueued : List (BitVec 8)
  returned : List (BitVec 8)

namespace Session

def powerOn : Session := ⟨.powerOn, [], []⟩

def step (s : Session) : Event → Option Session
  | .keyboardIsr st data =>
      some { s with keyboard := s.keyboard.keyboardIsr st data
                    enqueued := s.enqueued ++ nonzero (s.keyboard.typed st data).toList }
  | .getKey =>
      some { s with keyboard := s.keyboard.getKey.2
                    returned := s.returned ++ nonzero [s.keyboard.getKey.1] }

/-- The characters in the ring, from the slot that will be written next. -/
def unread (s : Session) : List (BitVec 8) :=
  nonzero (window keyBufSize s.keyboard.charsFifo s.keyboard.cursorIn keyBufSize)

/-- None is lost, duplicated or reordered. -/
def Kept (s : Session) : Prop := s.returned ++ s.unread = s.enqueued

instance (s : Session) : Decidable s.Kept :=
  inferInstanceAs (Decidable (s.returned ++ s.unread = s.enqueued))

/-- The slot that `get_key` reads. -/
def slot (s : Session) : Nat := s.keyboard.cursorOut % keyBufSize

/-- The characters between the writer and the slot that `get_key` reads. -/
def older (s : Session) : List (BitVec 8) :=
  nonzero (window keyBufSize s.keyboard.charsFifo s.keyboard.cursorIn
    (offset keyBufSize s.keyboard.cursorIn s.slot))

/-- The writer meets an empty slot, and the reader an empty slot or a character
that no other one comes before. -/
def InOrder (s : Session) : Event → Prop
  | .keyboardIsr st data => s.keyboard.typed st data ≠ none →
      s.keyboard.charsFifo s.keyboard.cursorIn = 0
  | .getKey => s.keyboard.charsFifo s.slot = 0 ∨
      ∀ c ∈ s.older, c = s.keyboard.charsFifo s.slot

instance (s : Session) (event : Event) : Decidable (s.InOrder event) :=
  match event with
  | .keyboardIsr st data => inferInstanceAs (Decidable (s.keyboard.typed st data ≠ none →
      s.keyboard.charsFifo s.keyboard.cursorIn = 0))
  | .getKey => inferInstanceAs (Decidable (s.keyboard.charsFifo s.slot = 0 ∨
      ∀ c ∈ s.older, c = s.keyboard.charsFifo s.slot))

section Steps

variable {s t u : Session} {event : Event}

theorem nonzero_append (a b : List (BitVec 8)) : nonzero (a ++ b) = nonzero a ++ nonzero b :=
  List.filter_append ..

theorem nonzero_cons (c : BitVec 8) (chars : List (BitVec 8)) :
    nonzero (c :: chars) = if c = 0 then nonzero chars else c :: nonzero chars := by
  rw [nonzero, List.filter_cons]
  by_cases zero : c = 0
  · rw [if_pos zero, if_neg (by simpa using zero)]
    rfl
  · rw [if_neg zero, if_pos (by simpa using zero)]
    rfl

/-- The ring after `chars_fifo[cursor_in++] = c`: the oldest slot has become the newest. -/
theorem put_ring (k : Keyboard) (c : BitVec 8) (inside : k.cursorIn < keyBufSize) :
    ∃ rest, window keyBufSize k.charsFifo k.cursorIn keyBufSize = k.charsFifo k.cursorIn :: rest ∧
      window keyBufSize (k.put c).charsFifo (k.put c).cursorIn keyBufSize = rest ++ [c] := by
  have here : offset keyBufSize k.cursorIn k.cursorIn = 0 := by simp [offset]
  refine ⟨window keyBufSize k.charsFifo (k.cursorIn + 1) (keyBufSize - 1), ?_, ?_⟩
  · rw [window_split inside inside, here]
    rfl
  · simp only [Keyboard.put]
    rw [window_mod, window_turn inside, Function.update_self,
      window_update c 1 _ inside inside (by decide) (.inl (by rw [here]; decide))]

/-- A store keeps the queue exactly if it goes to an empty slot. -/
theorem put_kept {k k' : Keyboard} {c : BitVec 8} {enqueued returned : List (BitVec 8)}
    (inside : k.cursorIn < keyBufSize) (fifo : k'.charsFifo = (k.put c).charsFifo)
    (cursor : k'.cursorIn = (k.put c).cursorIn) (kept : Kept ⟨k, enqueued, returned⟩) :
    Kept ⟨k', enqueued ++ nonzero [c], returned⟩ ↔ k.charsFifo k.cursorIn = 0 := by
  obtain ⟨rest, before, after⟩ := put_ring k c inside
  simp only [Kept, unread, before] at kept
  simp only [Kept, unread, fifo, cursor, after, ← kept, nonzero_append, ← List.append_assoc]
  rw [List.append_left_inj, List.append_right_inj]
  rw [nonzero_cons]
  split
  · exact iff_of_true rfl ‹_›
  · refine iff_of_false (fun same => ?_) ‹_›
    have lengths := congrArg List.length same
    simp at lengths

/-- The ring around the slot that `get_key` reads, before and after. -/
theorem getKey_ring (inside : s.keyboard.cursorIn < keyBufSize) :
    ∃ newer, s.unread = s.older ++ nonzero [s.keyboard.charsFifo s.slot] ++ newer ∧
      nonzero (window keyBufSize s.keyboard.getKey.2.charsFifo s.keyboard.getKey.2.cursorIn
        keyBufSize) = s.older ++ newer := by
  have slot_lt : s.slot < keyBufSize := Nat.mod_lt _ (by decide)
  refine ⟨nonzero (window keyBufSize s.keyboard.charsFifo (s.keyboard.cursorIn +
    (offset keyBufSize s.keyboard.cursorIn s.slot + 1))
      (keyBufSize - (offset keyBufSize s.keyboard.cursorIn s.slot + 1))), ?_, ?_⟩
  · rw [unread, window_split inside slot_lt, nonzero_append, List.append_assoc, older]
    congr 1
    exact nonzero_append [_] _
  · show nonzero (window keyBufSize (Function.update s.keyboard.charsFifo s.slot 0)
      s.keyboard.cursorIn keyBufSize) = _
    rw [window_set 0 inside slot_lt, nonzero_append, older]
    rfl

/-- One element moves over a list without a trace exactly if the list repeats it. -/
theorem cons_eq_concat (c : BitVec 8) (front : List (BitVec 8)) :
    c :: front = front ++ [c] ↔ ∀ d ∈ front, d = c := by
  induction front with
  | nil => simp
  | cons d front ih =>
      rw [List.cons_append, List.cons.injEq, List.forall_mem_cons, ← ih]
      constructor
      · rintro ⟨rfl, same⟩
        exact ⟨rfl, same⟩
      · rintro ⟨rfl, same⟩
        exact ⟨rfl, same⟩

theorem getKey_kept (inside : s.keyboard.cursorIn < keyBufSize) (kept : s.Kept)
    (next : s.step .getKey = some t) : t.Kept ↔ s.InOrder .getKey := by
  obtain ⟨newer, before, after⟩ := getKey_ring inside
  simp only [step, Option.some.injEq] at next
  subst next
  rw [Kept, before] at kept
  simp only [Kept, unread, after, ← kept, InOrder]
  have here : s.keyboard.getKey.1 = s.keyboard.charsFifo s.slot := rfl
  rw [here, nonzero_cons]
  split
  · rename_i empty
    rw [nonzero, List.filter_nil, List.append_nil, List.append_nil]
    exact iff_of_true rfl (.inl empty)
  · rename_i full
    rw [or_iff_right full, ← cons_eq_concat, ← List.append_assoc, ← List.append_assoc,
      List.append_left_inj, List.append_assoc, List.append_right_inj]
    rfl

theorem keyboardIsr_kept {st data : BitVec 8} (inside : s.keyboard.cursorIn < keyBufSize)
    (kept : s.Kept) (next : s.step (.keyboardIsr st data) = some t) :
    t.Kept ↔ s.InOrder (.keyboardIsr st data) := by
  simp only [step, Option.some.injEq] at next
  subst next
  simp only [InOrder, Keyboard.keyboardIsr, Keyboard.typed]
  split
  · simpa [Kept, unread, nonzero] using kept
  · cases char : (decode s.keyboard.shift data).2 with
    | none => simpa [Kept, unread, nonzero, char] using kept
    | some c =>
        simp only [ne_eq, reduceCtorEq, not_false_eq_true, true_implies]
        exact put_kept inside rfl rfl kept

/-- A step keeps the queue exactly if it is in order. -/
theorem step_kept (inside : s.keyboard.cursorIn < keyBufSize) (kept : s.Kept)
    (next : s.step event = some t) : t.Kept ↔ s.InOrder event := by
  cases event with
  | keyboardIsr st data => exact keyboardIsr_kept inside kept next
  | getKey => exact getKey_kept inside kept next

theorem step_inside (inside : s.keyboard.cursorIn < keyBufSize) (next : s.step event = some t) :
    t.keyboard.cursorIn < keyBufSize := by
  cases event with
  | keyboardIsr st data =>
      cases next
      simp only [Keyboard.keyboardIsr]
      split
      · exact inside
      · split
        · exact Nat.mod_lt _ (by decide)
        · exact inside
  | getKey =>
      cases next
      exact inside

end Steps

theorem powerOn_kept : powerOn.Kept := by decide

variable {steps : List (Session × Event × Session)} {u : Session}

/-- **The keyboard buffer.**  Along every run the characters returned and those
in the ring are, at every step and in this order, the characters stored, if and
only if every step is in order; and then what has been returned is a prefix of
what has been stored. -/
theorem queue_iff (path : Path step powerOn steps u) :
    ((∀ s event t, (s, event, t) ∈ steps → t.Kept) ↔
        ∀ s event t, (s, event, t) ∈ steps → s.InOrder event) ∧
      ((∀ s event t, (s, event, t) ∈ steps → s.InOrder event) → u.returned <+: u.enqueued) := by
  have inside : ∀ {earlier v}, Path step powerOn earlier v → v.keyboard.cursorIn < keyBufSize :=
    fun path => path.invariant (fun v => v.keyboard.cursorIn < keyBufSize) (by decide)
      fun _ _ _ _ before next => step_inside before next
  have along : ∀ {earlier v}, Path step powerOn earlier v →
      (∀ s event t, (s, event, t) ∈ earlier → s.InOrder event) → v.Kept := by
    intro earlier v path
    induction path with
    | start => exact fun _ => powerOn_kept
    | snoc path next ih =>
        intro inOrder
        have before := ih fun s event t taken => inOrder s event t (List.mem_append_left _ taken)
        exact (step_kept (inside path) before next).2 (inOrder _ _ _ (List.mem_append_right _ (List.mem_singleton_self _)))
  refine ⟨⟨fun kept => ?_, fun inOrder s event t taken => ?_⟩, fun inOrder => ?_⟩
  · suffices ordered : u.Kept ∧ ∀ s event t, (s, event, t) ∈ steps → s.InOrder event from ordered.2
    clear along
    induction path with
    | start => exact ⟨powerOn_kept, fun _ _ _ none_ => absurd none_ List.not_mem_nil⟩
    | snoc path next ih =>
        obtain ⟨before, ordered⟩ := ih fun s event t taken =>
          kept s event t (List.mem_append_left _ taken)
        have after := kept _ _ _ (List.mem_append_right _ (List.mem_singleton_self _))
        refine ⟨after, fun s event t taken => ?_⟩
        rcases List.mem_append.1 taken with early | last
        · exact ordered s event t early
        · cases List.mem_singleton.1 last
          exact (step_kept (inside path) before next).1 after
  · obtain ⟨earlier, shorter, next, within⟩ := path.before taken
    refine (step_kept (inside shorter) (along shorter fun s event t early => ?_) next).2
      (inOrder s event t taken)
    exact inOrder s event t (within _ early)
  · exact ⟨u.unread, along path inOrder⟩

/-- Thirty-one polls of the empty buffer, then an `a` and a poll. -/
def typeThenPoll : List Event :=
  List.flatten [List.replicate 31 .getKey, [.keyboardIsr 1 0x1E, .getKey]]

theorem queue_iff_one :
    ∃ steps u, Path step powerOn steps u ∧ u.returned = [97] ∧ u.returned <+: u.enqueued ∧
      ∀ s event t, (s, event, t) ∈ steps → t.Kept := by
  have checked : (execute step powerOn typeThenPoll).map (fun result =>
      decide (result.2.returned = [97] ∧ ∀ taken ∈ result.1, taken.1.InOrder taken.2.1)) =
        some true := by
    decide +kernel
  obtain ⟨⟨steps, u⟩, executed, facts⟩ := Option.map_eq_some_iff.1 checked
  obtain ⟨isA, inOrder⟩ := of_decide_eq_true facts
  have path := execute_path executed
  obtain ⟨kept, isPrefix⟩ := queue_iff path
  have ordered : ∀ s event t, (s, event, t) ∈ steps → s.InOrder event :=
    fun s event t taken => inOrder (s, event, t) taken
  exact ⟨steps, u, path, isA, isPrefix ordered, kept.2 ordered⟩

/-- Two keys, `a` and `b`, and a poll: it returns the `b`. -/
theorem overtaken :
    ∃ steps u, Path step powerOn steps u ∧
      (∀ s event t, (s, event, t) ∈ steps → t.unread.length ≤ 31) ∧
      ¬ u.returned <+: u.enqueued := by
  have checked : (execute step powerOn [.keyboardIsr 1 0x1E, .keyboardIsr 1 0x30, .getKey]).map
      (fun result => decide (¬ result.2.returned <+: result.2.enqueued ∧
        ∀ taken ∈ result.1, taken.2.2.unread.length ≤ 31)) = some true := by
    decide +kernel
  obtain ⟨⟨steps, u⟩, executed, facts⟩ := Option.map_eq_some_iff.1 checked
  obtain ⟨notPrefix, few⟩ := of_decide_eq_true facts
  exact ⟨steps, u, execute_path executed, fun s event t taken => few (s, event, t) taken, notPrefix⟩

end Session

end TestOs.Devices
