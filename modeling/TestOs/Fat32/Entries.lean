/-
# Fat32.Entries -- directory entries, in memory and on the disk

An entry on the disk is 32 bytes.  `dirEntryToDisk` is what fat32.c stores into
them when it updates the entry of a file, with the encoding of the name as
`string_to_short_fn` and the kernel's own `toupper` have it.
-/
import TestOs.Fat32.Volume

namespace TestOs.Fat32

open TestOs.Library

set_option autoImplicit false

/-- `struct fat32_dir_entry`. -/
structure DirEntry where
  indexInDir : Nat
  dirFirstCluster : BitVec 32
  name : Bytes
  firstCluster : BitVec 32
  attrib : BitVec 8
  size : Nat

def dirEntryReadonly : BitVec 8 := 0x01
def fatAttribVolume : BitVec 8 := 0x08
def fatAttribDir : BitVec 8 := 0x10

/-- `sizeof(struct fat32_disk_dir_entry)`. -/
def diskEntrySize : Nat := 32

/-! ## The fields of an entry on the disk -/

def entryAttrib (b : Bytes) : BitVec 8 := b 11
def entryFirstCluster (b : Bytes) : BitVec 16 := halfword b 26
def entryFileSize (b : Bytes) : BitVec 32 := word b 28

/-! ## Names -/

/-- The kernel's `toupper`: -1 for whatever is not a lower-case letter. -/
def toupper (c : BitVec 8) : BitVec 8 :=
  if 0x61 ≤ c.toNat ∧ c.toNat ≤ 0x7a then c &&& 0x5f else 0xff

/-- The kernel's `tolower`. -/
def tolower (c : BitVec 8) : BitVec 8 :=
  if 0x41 ≤ c.toNat ∧ c.toNat ≤ 0x5a then c ||| 0x20 else 0xff

def isprint (c : BitVec 8) : Bool := 0x20 ≤ c.toNat ∧ c.toNat ≤ 0x7e

/-- The place of `c` in the string at `i`; the string ends within `fuel` bytes. -/
def strchr (b : Bytes) (c : BitVec 8) : Nat → Nat → Option Nat
  | 0, _ => none
  | fuel + 1, i =>
      if b i = c then some i
      else if b i = 0 then none
      else strchr b c fuel (i + 1)

/-- The size of the name fields of the entries in memory. -/
def dirEntryNameSize : Nat := 13

/-- The loop of `string_to_short_fn` over the first eight characters: the name
bytes, and where the extension is looked for. -/
def shortName (buf : Bytes) : Nat → Nat → Bytes → Bytes × Option Nat
  | 0, _, name => (name, strchr buf 0x2e (dirEntryNameSize - 8) 8)
  | left + 1, i, name =>
      if buf i = 0x2e then (splice name i (fun _ => 0x20) (left + 1), some (i + 1))
      else if buf i = 0 then (splice name i (fun _ => 0x20) (left + 1), some i)
      else shortName buf left (i + 1) (Function.update name i (toupper (buf i)))

/-- The loop of `string_to_short_fn` over the extension. -/
def shortExt (buf : Bytes) (p : Nat) : Nat → Nat → Bytes → Bytes
  | 0, _, entry => entry
  | left + 1, i, entry =>
      if buf (p + i) = 0 then splice entry (8 + i) (fun _ => 0x20) (left + 1)
      else shortExt buf p left (i + 1) (Function.update entry (8 + i) (toupper (buf (p + i))))

/-- `string_to_short_fn`: the entry with the name and extension bytes set. -/
def stringToShortFn (entry buf : Bytes) : Bytes :=
  let (entry, p) := shortName buf 8 0 entry
  match p with
  | none => splice entry 8 (fun _ => 0x20) 3
  | some p => if buf p = 0 then splice entry 8 (fun _ => 0x20) 3 else shortExt buf p 3 0 entry

/-- The two bytes of a `uint16_t`. -/
def halfwordBytes (v : BitVec 16) : Bytes := fun i => (v >>> (8 * i)).setWidth 8

/-- `dir_entry_to_disk`: the name, first cluster, size and attribute. -/
def dirEntryToDisk (dirEntry : DirEntry) (size : Nat) (entry : Bytes) : Bytes :=
  let entry := stringToShortFn entry dirEntry.name
  let entry := splice entry 26 (halfwordBytes (dirEntry.firstCluster.setWidth 16)) 2
  let entry := putWord entry 28 (BitVec.ofNat 32 size)
  Function.update entry 11 dirEntry.attrib

end TestOs.Fat32
