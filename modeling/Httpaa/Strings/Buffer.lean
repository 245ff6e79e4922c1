import Mathlib.Data.List.TakeWhile
import Httpaa.Strings.Stringaa

/-!
# Strings that own their characters

Allocation, and the functions of `stringaa.h` that write memory. A text *stands* at a place when the
bytes from there on are its characters; what a write leaves alone and what it moves is said in these
terms. `memmove` is taken as it is, also where the source lets it read behind a block: what it finds
there is whatever the memory holds.
-/

namespace Httpaa

/-- The byte at a place, inside its block or not. -/
def Heap.byte (h : Heap) (p : Ptr) : UInt8 := h.bytes p.block p.off

/-- `*p = c`. -/
def Heap.store (h : Heap) (p : Ptr) (c : UInt8) : Heap :=
  { h with bytes := fun block i => if block = p.block ∧ i = p.off then c else h.bytes block i }

/-- The bytes from `p` on become the characters of the text. -/
def Heap.storeAll (h : Heap) (p : Ptr) (text : List UInt8) : Heap :=
  { h with bytes := fun block i =>
      if block = p.block ∧ p.off ≤ i ∧ i < p.off + text.length then text.getD (i - p.off) 0
      else h.bytes block i }

/-- `memmove(dst, src, n)`. -/
def Heap.memmove (h : Heap) (dst src : Ptr) (n : Nat) : Heap :=
  { h with bytes := fun block i =>
      if block = dst.block ∧ dst.off ≤ i ∧ i < dst.off + n then
        h.bytes src.block (src.off + (i - dst.off))
      else h.bytes block i }

/-- `malloc(n)`, which succeeds, and `memset` of the new block to 0. -/
def Heap.malloc (h : Heap) (n : Nat) : Ptr × Heap :=
  (⟨h.next, 0⟩,
    { bytes := fun block i => if block = h.next ∧ i < n then 0 else h.bytes block i
      size := fun block => if block = h.next then n else h.size block
      next := h.next + 1 })

/-- `free(p)`. -/
def Heap.free (h : Heap) (p : Option Ptr) : Heap :=
  match p with
  | some p => { h with size := fun block => if block = p.block then 0 else h.size block }
  | none => h

/-! ### What stands where -/

/-- The characters of the text are the bytes from `p` on. -/
def Heap.Holds (h : Heap) (p : Ptr) (text : List UInt8) : Prop :=
  ∀ i < text.length, text[i]? = some (h.byte (p.add i))

section Holds

variable {h : Heap} {p dst src : Ptr} {a b text : List UInt8} {x : UInt8} {n : Nat}

@[simp] theorem Heap.holds_nil : h.Holds p [] := by
  intro i hi
  cases hi

theorem Heap.holds_cons : h.Holds p (x :: a) ↔ h.byte p = x ∧ h.Holds (p.add 1) a := by
  constructor
  · intro hp
    refine ⟨by simpa using (hp 0 (by simp)).symm, fun i hi => ?_⟩
    have hchar := hp (i + 1) (by simpa using hi)
    simpa [Nat.add_comm 1 i] using hchar
  · rintro ⟨rfl, hp⟩ i hi
    cases i with
    | zero => simp
    | succ i => simpa [Nat.add_comm 1 i] using hp i (by simpa using hi)

theorem Heap.holds_append :
    h.Holds p (a ++ b) ↔ h.Holds p a ∧ h.Holds (p.add a.length) b := by
  induction a generalizing p with
  | nil => simp
  | cons x a ih =>
      rw [List.cons_append, holds_cons, holds_cons, ih, and_assoc]
      simp [Nat.add_comm 1]

theorem Heap.Holds.byte (hp : h.Holds p (a ++ x :: b)) : h.byte (p.add a.length) = x :=
  (holds_cons.mp (holds_append.mp hp).2).1

/-- A text that stands here can be compared with the one in memory. -/
theorem Heap.Holds.prefix_iff (hp : h.Holds p text) :
    a <+: text ↔ a.length ≤ text.length ∧ h.Holds p a := by
  constructor
  · rintro ⟨b, rfl⟩
    exact ⟨by simp, (holds_append.mp hp).1⟩
  · rintro ⟨hle, ha⟩
    rw [List.prefix_iff_getElem?]
    intro i hi
    rw [hp i (Nat.lt_of_lt_of_le hi hle), ← ha i hi, List.getElem?_eq_getElem hi]

theorem Heap.Holds.eq_iff (hp : h.Holds p text) :
    text = a ↔ text.length = a.length ∧ h.Holds p a := by
  constructor
  · rintro rfl
    exact ⟨rfl, hp⟩
  · rintro ⟨hlength, ha⟩
    exact ((hp.prefix_iff.mpr ⟨Nat.le_of_eq hlength.symm, ha⟩).eq_of_length hlength.symm).symm

/-- Blocks that have not been handed out have no size. -/
def Heap.WellFormed (h : Heap) : Prop := ∀ block, h.next ≤ block → h.size block = 0

theorem Heap.ofText_wellFormed (text : List UInt8) : (Heap.ofText text).WellFormed := by
  intro block hblock
  exact if_neg (Nat.ne_of_gt hblock)

theorem Heap.ofText_holds (text : List UInt8) : (Heap.ofText text).Holds ⟨0, 0⟩ text := by
  intro i hi
  simp [Heap.byte, Heap.ofText, Ptr.add, List.getD, List.getElem?_eq_getElem hi]

theorem Heap.Holds.malloc (hp : h.Holds p a) (hblock : p.block ≠ h.next) (n : Nat) :
    (h.malloc n).2.Holds p a := by
  intro i hi
  rw [hp i hi]
  simp [Heap.byte, Heap.malloc, Ptr.add, hblock]

/-- A text in another block, or in front of what is written, or behind it. -/
def Ptr.Apart (p : Ptr) (size : Nat) (dst : Ptr) (n : Nat) : Prop :=
  p.block ≠ dst.block ∨ p.off + size ≤ dst.off ∨ dst.off + n ≤ p.off

theorem Heap.Holds.memmove_apart (hp : h.Holds p a) (hapart : p.Apart a.length dst n) :
    (h.memmove dst src n).Holds p a := by
  intro i hi
  rw [hp i hi]
  simp only [Heap.byte, Heap.memmove, Ptr.add, Option.some.injEq]
  rw [if_neg]
  rintro ⟨hblock, hle, hlt⟩
  rcases hapart with hne | hbefore | hbehind
  · exact hne hblock
  · omega
  · omega

theorem Heap.Holds.memmove (hsrc : h.Holds src a) (hn : a.length ≤ n) :
    (h.memmove dst src n).Holds dst a := by
  intro i hi
  rw [hsrc i hi]
  simp only [Heap.byte, Heap.memmove, Ptr.add, Option.some.injEq]
  rw [if_pos ⟨trivial, by omega, by omega⟩, Nat.add_sub_cancel_left]

theorem Heap.Holds.closeGap {front gap rest : List UInt8} (hp : h.Holds p (front ++ gap ++ rest))
    (hn : rest.length ≤ n) :
    (h.memmove (p.add front.length) (p.add (front.length + gap.length)) n).Holds p
      (front ++ rest) := by
  obtain ⟨hfront, hrest⟩ := holds_append.mp hp
  rw [List.length_append] at hrest
  refine holds_append.mpr ⟨?_, hrest.memmove hn⟩
  exact (holds_append.mp hfront).1.memmove_apart (.inr (.inl (Nat.le_refl _)))

theorem Heap.Holds.store_apart (hp : h.Holds p a) (hapart : p.Apart a.length dst 1) :
    (h.store dst x).Holds p a := by
  intro i hi
  rw [hp i hi]
  simp only [Heap.byte, Heap.store, Ptr.add, Option.some.injEq]
  rw [if_neg]
  rintro ⟨hblock, heq⟩
  rcases hapart with hne | hbefore | hbehind
  · exact hne hblock
  · omega
  · omega

theorem Heap.storeAll_byte_of_ne (hne : p.block ≠ dst.block) :
    (h.storeAll dst text).byte p = h.byte p := by
  simp [Heap.storeAll, Heap.byte, hne]

theorem Heap.Holds.storeAll_behind (hp : h.Holds p a) :
    (h.storeAll (p.add a.length) b).Holds p (a ++ b) := by
  intro i hi
  rw [List.length_append] at hi
  simp only [Heap.byte, Heap.storeAll, Ptr.add]
  by_cases hfront : i < a.length
  · rw [List.getElem?_append_left hfront, hp i hfront, if_neg (by omega)]
    rfl
  · rw [List.getElem?_append_right (by omega), if_pos ⟨trivial, by omega, by omega⟩,
      show p.off + i - (p.off + a.length) = i - a.length by omega, List.getD,
      List.getElem?_eq_getElem (by omega)]
    rfl

@[simp] theorem Heap.store_byte : (h.store p x).byte p = x := by
  simp [Heap.store, Heap.byte]

@[simp] theorem Heap.memmove_size : (h.memmove dst src n).size = h.size := rfl

@[simp] theorem Heap.store_size : (h.store p x).size = h.size := rfl

end Holds

/-! ### C strings -/

/-- A text as a C string: up to its first NUL. -/
def Text.cString (text : List UInt8) : List UInt8 := text.takeWhile (· ≠ 0)

theorem Text.cString_append {text : List UInt8} (hnul : 0 ∈ text) (rest : List UInt8) :
    cString (text ++ rest) = cString text := by
  induction text with
  | nil => cases hnul
  | cons x text ih =>
      by_cases hx : x = 0
      · simp [cString, hx]
      · have hmem : 0 ∈ text := (List.mem_cons.mp hnul).resolve_left (Ne.symm hx)
        simpa [cString, hx] using ih hmem

theorem Text.cString_eq_self {text : List UInt8} (hnul : 0 ∉ text) : cString text = text :=
  List.takeWhile_eq_self_iff.mpr fun x hx => by simpa using ne_of_mem_of_not_mem hx hnul

/-- The C string at a place: its block up to the first NUL, which must be there. -/
def Heap.cString (h : Heap) (p : Ptr) : Option (List UInt8) :=
  let text := (List.range (h.size p.block - p.off)).map fun i => h.byte (p.add i)
  if 0 ∈ text then some (Text.cString text) else none

/-- A text with a NUL that stands inside its block has the C string of the text. -/
theorem Heap.Holds.cString {h : Heap} {p : Ptr} {text : List UInt8} (hp : h.Holds p text)
    (hsize : p.off + text.length ≤ h.size p.block) (hnul : 0 ∈ text) :
    h.cString p = some (Text.cString text) := by
  obtain ⟨more, hmore⟩ : ∃ more, h.size p.block - p.off = text.length + more :=
    ⟨_, (Nat.add_sub_of_le (by omega)).symm⟩
  have htext : (List.range text.length).map (fun i => h.byte (p.add i)) = text := by
    refine List.ext_getElem? fun i => ?_
    by_cases hi : i < text.length
    · rw [hp i hi, List.getElem?_map, List.getElem?_range hi]
      rfl
    · rw [List.getElem?_eq_none (by simpa using hi), List.getElem?_eq_none (by simpa using hi)]
  rw [Heap.cString, hmore, List.range_add, List.map_append, htext, if_pos (by simp [hnul]),
    Text.cString_append hnul]

/-! ### The functions of `stringaa.h` -/

def stringaaMalloc (h : Heap) (s : Stringaa) (bufSize : Nat) : Bool × Heap × Stringaa :=
  if 0 < bufSize ∧ ((s.isAlloc ∧ s.bufSize < bufSize) ∨ ¬ s.isAlloc) then
    let (buf, h) := h.malloc bufSize
    (true, if s.isAlloc then h.free s.buf else h,
      { buf := some buf, bufSize, isAlloc := true, isNullTerminated := true })
  else (false, h, s)

def stringaaCopyCharsSize (h : Heap) (s : Stringaa) (buf : Option Ptr) (bufSize : Nat) :
    Option (Bool × Heap × Stringaa) :=
  match buf with
  | none => some (false, h, s)
  | some buf => do
    let (_, h, s) :=
      if ¬ s.isAlloc ∨ s.bufSize ≤ bufSize + 1 then stringaaMalloc h s (bufSize + 1)
      else (false, h, s)
    let dst ← s.buf
    let h := h.memmove dst buf bufSize
    return (true, if s.isNullTerminated then h.store (dst.add bufSize) 0 else h,
      { s with writePos := bufSize, readPos := 0, isInit := true })

def stringaaCopy (h : Heap) (s1 s2 : Stringaa) : Option (Bool × Heap × Stringaa) :=
  if s2.buf = none ∨ s2.isInit = false then some (false, h, s1)
  else do
    let (isCopy, h, s1) ←
      stringaaCopyCharsSize h s1 s2.buf (s2.bufSize - s2.isNullTerminated.toNat)
    return (isCopy, h, if isCopy then { s1 with writePos := s2.writePos } else s1)

end Httpaa
