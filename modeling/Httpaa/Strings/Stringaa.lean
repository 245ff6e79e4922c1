import Mathlib.Algebra.Order.Ring.Int
import Mathlib.Data.List.Basic

/-!
# Strings and their cursors

A `stringaa` is a pointer into a block of memory with a size, a read position, a write position and
flags. The functions here move the cursors and read characters; none of them writes memory. A load
outside its block has no value, so a run that has one has read only inside the blocks.
-/

namespace Httpaa

/-- A place in memory: the block and the offset in it. -/
structure Ptr where
  block : Nat
  off : Nat
deriving DecidableEq, Repr

def Ptr.add (p : Ptr) (n : Nat) : Ptr := ⟨p.block, p.off + n⟩

@[simp] theorem Ptr.add_add (p : Ptr) (m n : Nat) : (p.add m).add n = p.add (m + n) := by
  simp [add, Nat.add_assoc]

@[simp] theorem Ptr.add_zero (p : Ptr) : p.add 0 = p := rfl

/-- Memory as named blocks. Bytes past the size of a block belong to somebody else. -/
structure Heap where
  bytes : Nat → Nat → UInt8
  size : Nat → Nat
  next : Nat

def Heap.load (h : Heap) (p : Ptr) : Option UInt8 :=
  if p.off < h.size p.block then some (h.bytes p.block p.off) else none

/-- `stringaa`. The flags `is_link` and `is_binary` and the links between strings are left out. -/
structure Stringaa where
  buf : Option Ptr := none
  bufSize : Nat := 0
  readPos : Nat := 0
  writePos : Nat := 0
  isInit : Bool := false
  isAlloc : Bool := false
  isNullTerminated : Bool := false
deriving DecidableEq, Repr

/-- `s->buf[i]`. -/
def Stringaa.charAt (h : Heap) (s : Stringaa) (i : Nat) : Option UInt8 :=
  s.buf.bind fun p => h.load (p.add i)

/-- `s->read_pos = pos`. -/
def Stringaa.seek (s : Stringaa) (pos : Nat) : Stringaa := { s with readPos := pos }

/-- The budget of a loop over the characters of a string: one more than there can be. -/
def Stringaa.budget (s : Stringaa) : Nat := s.writePos + 1

def Heap.ofText (text : List UInt8) : Heap where
  bytes _ i := text.getD i 0
  size block := if block = 0 then text.length else 0
  next := 1

def Stringaa.ofText (readPos writePos : Nat) : Stringaa where
  buf := some ⟨0, 0⟩
  bufSize := writePos
  readPos := readPos
  writePos := writePos
  isInit := true

/-- The character constants of the source. -/
def ch (c : Char) : UInt8 := c.toNat.toUInt8

def stringaaNextReadPos (s : Stringaa) : Bool × Stringaa :=
  if s.readPos + 1 < s.writePos then (true, { s with readPos := s.readPos + 1 })
  else (false, { s with readPos := s.writePos })

def stringaaPrevReadPos (s : Stringaa) : Bool × Stringaa :=
  if 0 < s.readPos ∧ s.readPos ≤ s.writePos then (true, { s with readPos := s.readPos - 1 })
  else (false, { s with readPos := s.writePos })

/-- `stringaa_get_char`: 0 at the end of the text. -/
def stringaaGetChar (h : Heap) (s : Stringaa) : Option UInt8 :=
  if s.readPos < s.writePos then s.charAt h s.readPos else some 0

def stringaaIsChar (h : Heap) (s : Stringaa) (c : UInt8) : Option (Bool × Stringaa) := do
  if c = (← stringaaGetChar h s) then return (true, (stringaaNextReadPos s).2)
  return (false, s)

/-- `stringaa_set_chars_size`. What the string owned before is freed. -/
def stringaaSetCharsSize (s : Stringaa) (buf : Option Ptr) (bufSize : Nat) : Bool × Stringaa :=
  if buf.isSome ∧ 0 < bufSize then
    (true, { buf, bufSize, readPos := 0, writePos := bufSize, isInit := true })
  else (false, s)

/-- The conversion of a `size_t` to `int`. -/
def toInt (n : Nat) : Int := (n : Int).bmod (2 ^ 32)

theorem toInt_eq {n : Nat} (hn : n < 2 ^ 31) : toInt n = n :=
  Int.bmod_eq_of_le_mul_two (by omega) (by omega)

/-- However it wraps around, the conversion keeps no more than the distance of two sizes. -/
theorem toInt_sub_le {m n : Nat} (hmn : m ≤ n) (hm : 0 ≤ toInt m) :
    toInt n - toInt m ≤ n - m := by
  have hmod : ∀ k : Nat, toInt k = if (k : Int) % 4294967296 < 2147483648 then
    (k : Int) % 4294967296
      else (k : Int) % 4294967296 - 4294967296 := fun k => Int.bmod_def _ _
  rw [hmod] at hm ⊢
  rw [hmod]
  split at hm <;> split <;> simp_all <;> omega

/-- `stringaa_set_substring` from `STRINGAA_READ_POS` to `STRINGAA_WRITE_POS`, which the source
carries in `int` variables. -/
def stringaaSetSubstring (s1 s2 : Stringaa) : Stringaa :=
  let pos1 := toInt s2.readPos
  let pos2 := toInt s2.writePos
  if 0 ≤ pos1 ∧ pos1 < pos2 ∧ pos2 ≤ s2.writePos then
    { buf := s2.buf.map fun p => p.add pos1.toNat
      bufSize := (pos2 - pos1).toNat
      readPos := 0
      writePos := (pos2 - pos1).toNat
      isInit := true }
  else s1

end Httpaa
