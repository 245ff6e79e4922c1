import Httpaa.Foundation.Recogniser
import Httpaa.Strings.Stringaa

/-!
# Reading a string through its cursor

A string shows a cursor when the text of the cursor stands in the string from the cursor's position
up to the write position. Then every character read is a character of that text, and the functions
that move the read position move the cursor in the text.
-/

namespace Httpaa

open Recogniser

/-- What `c` has still to read stands in the string from `c.pos` up to the write position. -/
structure Stringaa.Shows (h : Heap) (s : Stringaa) (c : Cursor UInt8) : Prop where
  length : c.pos + c.rest.length = s.writePos
  char : ∀ i < c.rest.length, s.charAt h (c.pos + i) = c.rest[i]?

/-- `stringaa_is_char` on a text. -/
def Text.isChar (x : UInt8) : List UInt8 → Bool × List UInt8
  | [] => (false, [])
  | y :: rest => if x = y then (true, rest) else (false, y :: rest)

theorem Text.isChar_suffix (x : UInt8) (s : List UInt8) : (isChar x s).2 <:+ s := by
  cases s with
  | nil => exact List.suffix_refl []
  | cons y rest =>
      by_cases hx : x = y
      · simp [isChar, hx]
      · simp [isChar, hx]

theorem Text.isChar_eq_self {x : UInt8} {s : List UInt8} (hfail : ¬ (isChar x s).1 = true) :
    (isChar x s).2 = s := by
  cases s with
  | nil => rfl
  | cons y rest =>
      by_cases hx : x = y
      · simp [isChar, hx] at hfail
      · simp [isChar, hx]

namespace Stringaa

variable {h : Heap} {s : Stringaa} {c c' : Cursor UInt8}

@[simp] theorem seek_seek (s : Stringaa) (m n : Nat) : (s.seek m).seek n = s.seek n := rfl

@[simp] theorem seek_readPos (s : Stringaa) (n : Nat) : (s.seek n).readPos = n := rfl

@[simp] theorem seek_writePos (s : Stringaa) (n : Nat) : (s.seek n).writePos = s.writePos := rfl

@[simp] theorem seek_buf (s : Stringaa) (n : Nat) : (s.seek n).buf = s.buf := rfl

@[simp] theorem seek_charAt (h : Heap) (s : Stringaa) (n i : Nat) :
    (s.seek n).charAt h i = s.charAt h i := rfl

@[simp] theorem seek_shows (n : Nat) : (s.seek n).Shows h c ↔ s.Shows h c :=
  ⟨fun hs => ⟨hs.length, hs.char⟩, fun hs => ⟨hs.length, hs.char⟩⟩

theorem Shows.reaches (hs : s.Shows h c) (hreach : c.Reaches c') : s.Shows h c' := by
  have hend := hreach.end_eq
  obtain ⟨front, hrest, hpos⟩ := hreach
  refine ⟨by rw [hend, hs.length], fun i hi => ?_⟩
  have hchar := hs.char (front.length + i) (by rw [hrest, List.length_append]; omega)
  rw [hrest, List.getElem?_append_right (Nat.le_add_right _ _), Nat.add_sub_cancel_left] at hchar
  rw [← hchar, hpos, Nat.add_assoc]

theorem Shows.to (hs : s.Shows h c) {rest : List UInt8} (hsuffix : rest <:+ c.rest) :
    s.Shows h (c.to rest) :=
  hs.reaches (Cursor.reaches_to hsuffix)

theorem Shows.getChar (hs : s.Shows h c) :
    stringaaGetChar h (s.seek c.pos) = some (c.rest.headD 0) := by
  obtain ⟨pos, rest⟩ := c
  have hlength := hs.length
  cases rest with
  | nil =>
      simp only [List.length_nil] at hlength
      simp [stringaaGetChar, ← hlength]
  | cons x rest =>
      have hchar := hs.char 0 (by simp)
      simp only [List.length_cons] at hlength
      rw [stringaaGetChar, if_pos (by simp only [seek_readPos, seek_writePos]; omega)]
      simpa using hchar

theorem Shows.next (hs : s.Shows h c) :
    stringaaNextReadPos (s.seek c.pos) =
      (decide (1 < c.rest.length), s.seek (c.to c.rest.tail).pos) := by
  have hlength := hs.length
  by_cases hmore : 1 < c.rest.length
  · have hpos : c.rest.length - (c.rest.length - 1) = 1 := by omega
    simp [stringaaNextReadPos, Stringaa.seek, Cursor.to, hmore, hpos,
      show c.pos + 1 < s.writePos by omega]
  · have hpos : c.pos + (c.rest.length - (c.rest.length - 1)) = s.writePos := by omega
    simp [stringaaNextReadPos, Stringaa.seek, Cursor.to, hmore, hpos,
      show ¬ c.pos + 1 < s.writePos by omega]

theorem Shows.buf_isSome (hs : s.Shows h c) (hrest : c.rest ≠ []) : s.buf.isSome := by
  have hchar := hs.char 0 (List.length_pos_iff.mpr hrest)
  cases hbuf : s.buf with
  | none => simp [charAt, hbuf, hrest] at hchar
  | some p => rfl

theorem Shows.budget (hs : s.Shows h c) {a : List UInt8} (ha : a <:+ c.rest) (n : Nat) :
    a.length < (s.seek n).budget := by
  have hle := ha.length_le
  have hlength := hs.length
  simp only [Stringaa.budget, seek_writePos]
  omega

theorem prev_seek {s : Stringaa} {n : Nat} (hn : n < s.writePos) :
    stringaaPrevReadPos (s.seek (n + 1)) = (true, s.seek n) := by
  simp [stringaaPrevReadPos, Stringaa.seek, show n + 1 ≤ s.writePos by omega]

/-- The cursor functions that take a string and report success follow a function on texts. -/
def Follows (h : Heap) (f : Stringaa → Option (Bool × Stringaa))
    (g : List UInt8 → Bool × List UInt8) : Prop :=
  ∀ (s : Stringaa) (c : Cursor UInt8), s.Shows h c →
    f (s.seek c.pos) = some ((g c.rest).1, s.seek (c.to (g c.rest).2).pos)

/-- The text of the string from the read position on. -/
def unread (h : Heap) (s : Stringaa) : List UInt8 :=
  (List.range' s.readPos (s.writePos - s.readPos)).map fun i => (s.charAt h i).getD 0

theorem shows_unread {h : Heap} {s : Stringaa} (hread : s.readPos ≤ s.writePos)
    (hmem : ∀ i < s.writePos, (s.charAt h i).isSome) :
    s.Shows h ⟨s.readPos, s.unread h⟩ := by
  refine ⟨by simp only [unread, List.length_map, List.length_range']; omega, fun i hi => ?_⟩
  simp only [unread, List.length_map, List.length_range'] at hi
  obtain ⟨x, hx⟩ := Option.isSome_iff_exists.mp (hmem (s.readPos + i) (by omega))
  simp [unread, hi, hx]

/-! ### The same from further on in the text -/

variable {a : List UInt8}

theorem Shows.getChar_to (hs : s.Shows h c) (ha : a <:+ c.rest) :
    stringaaGetChar h (s.seek (c.to a).pos) = some (a.headD 0) :=
  (hs.to ha).getChar

theorem Shows.next_to (hs : s.Shows h c) (ha : a <:+ c.rest) :
    stringaaNextReadPos (s.seek (c.to a).pos) =
      (decide (1 < a.length), s.seek (c.to a.tail).pos) := by
  have hnext := (hs.to ha).next
  rwa [Cursor.to_rest, Cursor.to_to ha (List.tail_suffix a)] at hnext

theorem Follows.to {f : Stringaa → Option (Bool × Stringaa)} {g : List UInt8 → Bool × List UInt8}
    (hf : Follows h f g) (hg : ∀ l, (g l).2 <:+ l) (hs : s.Shows h c) (ha : a <:+ c.rest) :
    f (s.seek (c.to a).pos) = some ((g a).1, s.seek (c.to (g a).2).pos) := by
  have hfollows := hf s (c.to a) (hs.to ha)
  rwa [Cursor.to_rest, Cursor.to_to ha (hg a)] at hfollows

theorem isChar_follows {x : UInt8} (hx : x ≠ 0) :
    Follows h (fun s => stringaaIsChar h s x) (Text.isChar x) := by
  intro s c hs
  simp only [stringaaIsChar, hs.getChar, hs.next, Option.bind_eq_bind, Option.bind_some]
  obtain ⟨pos, rest⟩ := c
  cases rest with
  | nil => simp [Text.isChar, hx, Cursor.to]
  | cons y rest =>
      by_cases hxy : x = y <;> simp [Text.isChar, hxy, Cursor.to]

end Stringaa

/-- A function of the source does what one on texts does, which leaves an end of the text. -/
structure Tracks (h : Heap) (f : Stringaa → Option (Bool × Stringaa))
    (g : List UInt8 → Bool × List UInt8) : Prop where
  follows : Stringaa.Follows h f g
  suffix : ∀ s, (g s).2 <:+ s

end Httpaa
