import Httpaa.Strings.Buffer

/-!
# Copies into strings that own their buffer

`stringaa_copy` takes a new block where the old one is too small, and otherwise writes the
characters and a NUL over what the old one holds. The rest of that stays behind the NUL.
-/

namespace Httpaa

open Heap

variable {h h' : Heap} {s dst : Stringaa} {p q : Ptr} {a text kept : List UInt8} {block n : Nat}

/-! ### What is left alone -/

/-- Only the one block is written, and all blocks handed out so far still are. -/
structure Heap.SameBeside (h h' : Heap) (block : Nat) : Prop where
  next : h.next ≤ h'.next
  bytes : ∀ b ≠ block, h'.bytes b = h.bytes b

theorem Heap.SameBeside.refl (h : Heap) (block : Nat) : h.SameBeside h block :=
  ⟨Nat.le_refl _, fun _ _ => rfl⟩

theorem Heap.SameBeside.trans {h₁ h₂ h₃ : Heap} (h₁₂ : h₁.SameBeside h₂ block)
    (h₂₃ : h₂.SameBeside h₃ block) : h₁.SameBeside h₃ block :=
  ⟨h₁₂.next.trans h₂₃.next, fun b hb => (h₂₃.bytes b hb).trans (h₁₂.bytes b hb)⟩

theorem Heap.SameBeside.holds (hsame : h.SameBeside h' block) (hp : h.Holds p a)
    (hblock : p.block ≠ block) : h'.Holds p a := by
  intro i hi
  rw [hp i hi]
  simp only [Heap.byte, Ptr.add, hsame.bytes _ hblock]

theorem Heap.memmove_sameBeside (h : Heap) (dst src : Ptr) (n : Nat) :
    h.SameBeside (h.memmove dst src n) dst.block := by
  refine ⟨Nat.le_refl _, fun b hb => ?_⟩
  simp [Heap.memmove, hb]

theorem Heap.store_sameBeside (h : Heap) (p : Ptr) (x : UInt8) :
    h.SameBeside (h.store p x) p.block := by
  refine ⟨Nat.le_refl _, fun b hb => ?_⟩
  simp [Heap.store, hb]

theorem Heap.malloc_sameBeside (h : Heap) (n : Nat) : h.SameBeside (h.malloc n).2 h.next := by
  refine ⟨Nat.le_succ _, fun b hb => ?_⟩
  simp [Heap.malloc, hb]

private theorem Heap.free_sameBeside (h : Heap) (p : Option Ptr) (block : Nat) :
    h.SameBeside (h.free p) block := by
  cases p <;> exact ⟨Nat.le_refl _, fun _ _ => rfl⟩

/-! ### The copy -/

/-- The characters that a copy takes from `s`. -/
structure Stringaa.Gives (h : Heap) (s : Stringaa) (p : Ptr) (text : List UInt8) : Prop where
  buf : s.buf = some p
  isInit : s.isInit = true
  size : s.bufSize - s.isNullTerminated.toNat = text.length
  holds : h.Holds p text
  known : p.block < h.next

/-- The string has a block for itself. -/
structure Stringaa.Owns (h : Heap) (s : Stringaa) (block : Nat) : Prop where
  buf : s.buf = some ⟨block, 0⟩
  isInit : s.isInit = true
  isAlloc : s.isAlloc = true
  isNullTerminated : s.isNullTerminated = true
  known : block < h.next

private theorem copied_holds (hp : h.Holds p text) (hkept : h.Holds ⟨block, text.length + 1⟩ kept) :
    ((h.memmove ⟨block, 0⟩ p text.length).store (Ptr.add ⟨block, 0⟩ text.length) 0).Holds ⟨block, 0⟩
      (text ++ 0 :: kept) := by
  have hmoved : (h.memmove ⟨block, 0⟩ p text.length).Holds ⟨block, 0⟩ text :=
    hp.memmove (Nat.le_refl _)
  have hbehind : (h.memmove ⟨block, 0⟩ p text.length).Holds ⟨block, text.length + 1⟩ kept :=
    hkept.memmove_apart (.inr (.inr (by simp)))
  refine holds_append.mpr ⟨hmoved.store_apart (.inr (.inl (by simp [Ptr.add]))), ?_⟩
  refine holds_cons.mpr ⟨store_byte, ?_⟩
  have hapart : Ptr.Apart ⟨block, text.length + 1⟩ kept.length
      (Ptr.add ⟨block, 0⟩ text.length) 1 := .inr (.inr (by simp [Ptr.add]))
  simpa [Ptr.add] using hbehind.store_apart (x := 0) hapart

private theorem copied_sameBeside (h : Heap) (p : Ptr) (n m : Nat) :
    h.SameBeside ((h.memmove ⟨block, 0⟩ p n).store (Ptr.add ⟨block, 0⟩ m) 0) block :=
  (h.memmove_sameBeside ⟨block, 0⟩ p n).trans (Heap.store_sameBeside _ _ _)

private theorem stringaaMalloc_renewed (hdst : dst.isAlloc = true → dst.bufSize < n + 1 ∧
      ∃ block, dst.Owns h block) :
    ∃ h', stringaaMalloc h dst (n + 1) = (true, h',
        { buf := some ⟨h.next, 0⟩, bufSize := n + 1, isAlloc := true, isNullTerminated := true }) ∧
      h.SameBeside h' h.next ∧ h'.size h.next = n + 1 ∧ h'.next = h.next + 1 := by
  cases halloc : dst.isAlloc with
  | false =>
      refine ⟨(h.malloc (n + 1)).2, ?_, h.malloc_sameBeside _, by simp [Heap.malloc], rfl⟩
      simp [stringaaMalloc, halloc, Heap.malloc]
  | true =>
      obtain ⟨hsmall, block, howns⟩ := hdst halloc
      have hne : ¬ h.next = block := Nat.ne_of_gt howns.known
      refine ⟨(h.malloc (n + 1)).2.free dst.buf, ?_,
        (h.malloc_sameBeside _).trans (Heap.free_sameBeside _ _ _), ?_, ?_⟩
      · simp [stringaaMalloc, halloc, hsmall, Heap.malloc]
      · simp [howns.buf, Heap.free, Heap.malloc, hne]
      · simp [howns.buf, Heap.free, Heap.malloc]

theorem stringaaCopy_renewed (hs : s.Gives h p text)
    (hdst : dst.isAlloc = true → dst.bufSize < text.length + 1 ∧ ∃ block, dst.Owns h block) :
    ∃ h' name, stringaaCopy h dst s = some (true, h', name) ∧ name.Owns h' h.next ∧
      name.bufSize = text.length + 1 ∧ name.writePos = s.writePos ∧
      h'.Holds ⟨h.next, 0⟩ (text ++ [0]) ∧ h'.size h.next = text.length + 1 ∧
      h.SameBeside h' h.next := by
  obtain ⟨h₁, hmalloc, hsame, hsize, hnext⟩ := stringaaMalloc_renewed hdst
  have hsmall : dst.isAlloc = false ∨ dst.bufSize ≤ text.length + 1 := by
    cases halloc : dst.isAlloc with
    | false => exact .inl rfl
    | true => exact .inr (Nat.le_of_lt (hdst halloc).1)
  have hholds := hsame.holds hs.holds (Nat.ne_of_lt hs.known)
  refine ⟨(h₁.memmove ⟨h.next, 0⟩ p text.length).store (Ptr.add ⟨h.next, 0⟩ text.length) 0,
    { buf := some ⟨h.next, 0⟩, bufSize := text.length + 1, writePos := s.writePos, isInit := true
      isAlloc := true, isNullTerminated := true }, ?_, ⟨rfl, rfl, rfl, rfl, ?_⟩, rfl, rfl,
    copied_holds hholds holds_nil, hsize, hsame.trans (copied_sameBeside h₁ p _ _)⟩
  · simp [stringaaCopy, hs.buf, hs.isInit, stringaaCopyCharsSize, hs.size, hmalloc, hsmall]
  · exact Nat.lt_of_lt_of_eq (Nat.lt_succ_self _) hnext.symm

/-- The copy into a string whose block is taken to be large enough. -/
theorem stringaaCopy_kept (hs : s.Gives h p text) (hdst : dst.Owns h block)
    (hroom : text.length + 1 ≤ dst.bufSize) :
    ∃ h' name, stringaaCopy h dst s = some (true, h', name) ∧ name.Owns h' block ∧
      name.bufSize = dst.bufSize ∧ name.writePos = s.writePos ∧
      (∀ kept, h.Holds ⟨block, text.length + 1⟩ kept → h'.Holds ⟨block, 0⟩ (text ++ 0 :: kept)) ∧
      h'.size = h.size ∧ h.SameBeside h' block := by
  have hmalloc : (if ¬ dst.isAlloc = true ∨ dst.bufSize ≤ text.length + 1 then
      stringaaMalloc h dst (text.length + 1) else (false, h, dst)) = (false, h, dst) := by
    have hsmall : ¬ dst.bufSize < text.length + 1 := by omega
    simp [stringaaMalloc, hdst.isAlloc, hsmall]
  refine ⟨(h.memmove ⟨block, 0⟩ p text.length).store (Ptr.add ⟨block, 0⟩ text.length) 0,
    { dst with writePos := s.writePos, readPos := 0, isInit := true }, ?_,
    ⟨hdst.buf, rfl, hdst.isAlloc, hdst.isNullTerminated, hdst.known⟩, rfl, rfl,
    fun kept hkept => copied_holds hs.holds hkept, rfl, copied_sameBeside h p _ _⟩
  simp only [stringaaCopy, hs.buf, hs.isInit, stringaaCopyCharsSize, hs.size, hmalloc, hdst.buf]
  simp [hdst.isNullTerminated]

end Httpaa
