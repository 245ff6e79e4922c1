import Mathlib.Data.List.GetD
import Httpaa.Strings.Copy
import Httpaa.Strings.Cursors

/-!
# What a string holds

The bytes up to the write position, and what a function that writes into the buffer leaves of them.
-/

namespace Httpaa

open Traced

/-- The bytes `[0, write_pos)`. -/
def Traced.content (m : Memory) (s : Stringaa) : List UInt8 :=
  (List.range s.writePos).map fun i => s.buf.elim 0 fun p => m.heap.byte (p.add i)

variable {m m' : Memory} {s : Stringaa} {p : Ptr} {text : List UInt8}

@[simp] theorem content_length (m : Memory) (s : Stringaa) : (content m s).length = s.writePos := by
  simp [content]

theorem content_eq (hbuf : s.buf = some p) (hlength : s.writePos = text.length)
    (hholds : m.heap.Holds p text) : content m s = text := by
  refine List.ext_getElem? fun i => ?_
  rw [content, hlength, hbuf]
  by_cases hi : i < text.length
  · rw [hholds i hi, List.getElem?_map, List.getElem?_range hi]
    rfl
  · rw [List.getElem?_eq_none (by simpa using hi), List.getElem?_eq_none (by simpa using hi)]

theorem content_holds (m : Memory) (hbuf : s.buf = some p) : m.heap.Holds p (content m s) := by
  intro i hi
  rw [content_length] at hi
  simp [content, hbuf, hi]

theorem content_none (m : Memory) (hbuf : s.buf = none) :
    content m s = List.replicate s.writePos 0 := by
  simp [content, hbuf, List.map_const']

theorem content_congr (hheap : m'.heap = m.heap) : content m' s = content m s := by
  simp only [content, hheap]

theorem stringaaGetChar_content (m : Memory) (s : Stringaa) :
    (Traced.stringaaGetChar m s).1 = (content m s).getD s.readPos 0 ∧
      (Traced.stringaaGetChar m s).2.heap = m.heap := by
  by_cases hlt : s.readPos < s.writePos
  · rw [Traced.stringaaGetChar, if_pos hlt]
    refine ⟨?_, rfl⟩
    simp [content, Memory.load, stringChars, hlt]
  · rw [Traced.stringaaGetChar, if_neg hlt]
    refine ⟨?_, rfl⟩
    simp [Nat.le_of_not_lt hlt]

/-! ### Accesses -/

namespace Traced

variable {m₁ m₂ m₃ : Memory} {chars dst src : Chars} {q : Ptr} {n block : Nat} {c : UInt8}

/-- Since `m₁` only accesses inside their buffers have been made. -/
def Memory.Accesses (m₁ m₂ : Memory) : Prop :=
  ∃ log, m₂.log = log ++ m₁.log ∧ ∀ access ∈ log, access.InBounds

theorem Memory.Accesses.refl (m : Memory) : m.Accesses m := ⟨[], rfl, by simp⟩

theorem Memory.Accesses.trans (h₁₂ : m₁.Accesses m₂) (h₂₃ : m₂.Accesses m₃) :
    m₁.Accesses m₃ := by
  obtain ⟨log, hlog, hbounds⟩ := h₁₂
  obtain ⟨log', hlog', hbounds'⟩ := h₂₃
  refine ⟨log' ++ log, by rw [hlog', hlog, List.append_assoc], fun access hmem => ?_⟩
  rcases List.mem_append.mp hmem with h | h
  · exact hbounds' access h
  · exact hbounds access h

theorem Memory.Accesses.touch (haccesses : m₁.Accesses m₂) {start count size : Nat}
    (hle : start + count ≤ size) (heap : Heap) :
    m₁.Accesses ({ m₂ with heap }.touch start count size) := by
  obtain ⟨log, hlog, hbounds⟩ := haccesses
  refine ⟨⟨start, count, size⟩ :: log, congrArg _ hlog, fun access hmem => ?_⟩
  rcases List.mem_cons.mp hmem with rfl | h
  · exact Access.inBounds_of_le hle
  · exact hbounds access h

/-! ### Writing behind what a string holds -/

private theorem memmove_eq_storeAll {h : Heap} {p q : Ptr} (hholds : h.Holds q text) :
    h.memmove p q text.length = h.storeAll p text := by
  simp only [Heap.memmove, Heap.storeAll, Heap.mk.injEq, and_true]
  funext b i
  split
  · rename_i hin
    have hchar := hholds (i - p.off) (by omega)
    simp only [Heap.byte, Ptr.add] at hchar
    rw [List.getD_eq_getElem?_getD, hchar, Option.getD_some]
  · rfl

private theorem store_eq_storeAll {h : Heap} {p : Ptr} : h.store p c = h.storeAll p [c] := by
  simp only [Heap.store, Heap.storeAll, Heap.mk.injEq, and_true]
  funext b i
  by_cases hi : b = p.block ∧ i = p.off
  · rw [if_pos hi, if_pos ⟨hi.1, by simp [hi.2], by simp [hi.2]⟩, hi.2, Nat.sub_self]
    rfl
  · rw [if_neg hi, if_neg (by simp only [List.length_singleton]; omega)]

theorem storeAll_append {h : Heap} {p : Ptr} {a b : List UInt8} :
    (h.storeAll p a).storeAll (p.add a.length) b = h.storeAll p (a ++ b) := by
  simp only [Heap.storeAll, Ptr.add, Heap.mk.injEq, and_true]
  funext block i
  by_cases hblock : block = p.block
  · simp only [hblock, true_and, List.length_append]
    rcases Nat.lt_trichotomy i (p.off + a.length) with hlt | rfl | hgt
    · rw [if_neg (by omega)]
      by_cases hoff : p.off ≤ i
      · rw [if_pos (by omega), if_pos (by omega), List.getD_append _ _ _ _ (by omega)]
      · rw [if_neg (by omega), if_neg (by omega)]
    · by_cases hb : b = []
      · simp [hb]
      · have hpos := List.length_pos_iff.mpr hb
        rw [if_pos (by omega), if_pos (by omega), List.getD_append_right _ _ _ _ (by omega),
          Nat.add_sub_cancel_left, Nat.sub_self, Nat.sub_self]
    · by_cases hlt : i < p.off + a.length + b.length
      · rw [if_pos (by omega), if_pos (by omega), List.getD_append_right _ _ _ _ (by omega),
          Nat.sub_add_eq]
      · rw [if_neg (by omega), if_neg (by omega), if_neg (by omega)]
  · simp [hblock]

theorem storeAll_nil {h : Heap} {p : Ptr} : h.storeAll p [] = h := by
  simp only [Heap.storeAll, List.length_nil, Nat.add_zero]
  congr 1
  funext block i
  rw [if_neg (by omega)]

theorem storeAll_sameBeside (h : Heap) (p : Ptr) (text : List UInt8) :
    h.SameBeside (h.storeAll p text) p.block := by
  refine ⟨Nat.le_refl _, fun b hb => ?_⟩
  simp [Heap.storeAll, hb]

theorem storeAll_behind {h : Heap} {p : Ptr} {b i : Nat} (hi : p.off + text.length ≤ i) :
    (h.storeAll p text).bytes b i = h.bytes b i := by
  simp only [Heap.storeAll]
  rw [if_neg (by omega)]

/-- The string has a buffer of its own with room for its terminator; only that has been written, and
nothing outside a buffer accessed. -/
structure WritesOwn (m m' : Memory) (t : Stringaa) : Prop where
  isAlloc : t.isAlloc = true
  room : t.writePos + t.isNullTerminated.toNat ≤ t.bufSize
  accesses : m.Accesses m'
  block : ∃ block, t.buf = some ⟨block, 0⟩ ∧ t.bufSize ≤ m'.heap.size block ∧
    m.heap.SameBeside m'.heap block ∧
    ∀ i, t.bufSize ≤ i → m'.heap.bytes block i = m.heap.bytes block i

/-- Where the string is: what it calls its own is an allocation of its size. -/
structure InMemory (h : Heap) (s : Stringaa) : Prop where
  room : s.writePos + s.isNullTerminated.toNat ≤ s.bufSize
  known : ∀ p, s.buf = some p → p.block < h.next
  empty : s.buf = none → s.bufSize = 0
  owns : s.isAlloc = true → ∃ block, s.buf = some ⟨block, 0⟩ ∧ s.bufSize ≤ h.size block

def terminator (s : Stringaa) : List UInt8 := if s.isNullTerminated then [0] else []

theorem terminator_length (s : Stringaa) : (terminator s).length = s.isNullTerminated.toNat := by
  rw [terminator]
  cases s.isNullTerminated <;> rfl

theorem storeAll_terminator {h : Heap} {p : Ptr} (s : Stringaa) :
    (if s.isNullTerminated then (h.storeAll p text).store (p.add text.length) 0
      else h.storeAll p text) = h.storeAll p (text ++ terminator s) := by
  rw [terminator]
  cases s.isNullTerminated with
  | true => rw [if_pos rfl, if_pos rfl, store_eq_storeAll, storeAll_append]
  | false => rw [if_neg (by decide), if_neg (by decide), List.append_nil]

/-- `memcpy` of `n` characters to `pos`, and the terminator behind them if the string has one. -/
def written (m : Memory) (t : Stringaa) (chars : Chars) (pos n : Nat) : Memory :=
  if t.isNullTerminated then
    (m.memcpy (stringChars t pos) chars n).store (stringChars t (pos + n)) 0
  else m.memcpy (stringChars t pos) chars n

theorem written_heap {t : Stringaa} {pos : Nat} (hbuf : t.buf = some ⟨block, 0⟩)
    (hsrc : text ≠ [] → ∃ q, chars.buf = some q ∧ m.heap.Holds (q.add chars.start) text) :
    (written m t chars pos text.length).heap =
      m.heap.storeAll ⟨block, pos⟩ (text ++ terminator t) := by
  have hp : Ptr.add ⟨block, 0⟩ pos = ⟨block, pos⟩ := by simp [Ptr.add]
  have hcopy : (m.memcpy (stringChars t pos) chars text.length).heap =
      m.heap.storeAll ⟨block, pos⟩ text := by
    rw [Memory.memcpy]
    cases hchars : chars.buf with
    | none =>
        have hnil : text = [] := by
          by_contra hne
          obtain ⟨q, hq, -⟩ := hsrc hne
          cases hchars.symm.trans hq
        rw [hnil, storeAll_nil]
        simp [stringChars, hbuf, Memory.touch]
    | some q =>
        have hholds : m.heap.Holds (q.add chars.start) text := by
          by_cases hne : text = []
          · rw [hne]
            exact Heap.holds_nil
          · obtain ⟨q', hq, hholds⟩ := hsrc hne
            cases hchars.symm.trans hq
            exact hholds
        simp only [stringChars, hbuf, Memory.touch, hp]
        exact memmove_eq_storeAll hholds
  rw [← storeAll_terminator, written, ← hcopy]
  cases t.isNullTerminated with
  | false => rfl
  | true =>
      simp only [if_true, Memory.store, stringChars, hbuf, Option.elim_some, Memory.touch]
      rw [← Ptr.add_add, hp]

theorem written_accesses {t : Stringaa} {pos : Nat} (hm : m₁.Accesses m)
    (hroom : pos + n + t.isNullTerminated.toNat ≤ t.bufSize)
    (hchars : chars.start + n ≤ chars.size) : m₁.Accesses (written m t chars pos n) := by
  have hcopy : m₁.Accesses (m.memcpy (stringChars t pos) chars n) := by
    have hdst : (stringChars t pos).start + n ≤ (stringChars t pos).size := by
      simp only [stringChars]
      omega
    rw [Memory.memcpy]
    split
    · exact (hm.touch hchars _).touch hdst _
    · exact (hm.touch hchars _).touch hdst _
  rw [written]
  split
  · rename_i hterm
    rw [hterm, Bool.toNat_true] at hroom
    exact hcopy.touch hroom _
  · exact hcopy

end Traced

end Httpaa
