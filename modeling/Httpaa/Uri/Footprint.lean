import Httpaa.Strings.Cursors
import Httpaa.Uri.Passes

/-!
# What the removal of dot segments touches

The scans over a memory that notes its accesses. A removal moves the rest of the text to the left
and takes one byte too many along: over a buffer that the text fills, that is the byte behind the
buffer. The scans count in an `int`: buffers are shorter than 2^31.
-/

namespace Httpaa.Traced

open Text (NoPointSegment noPointSegment_slash noPointSegment_end)

/-! ### Characters in a condition -/

/-- `buf + i`. -/
def Chars.index (chars : Chars) (i : Nat) : Chars := { chars with start := chars.start + i }

/-- `cond && *chars == c`. -/
def Memory.andChar (m : Memory) (cond : Bool) (chars : Chars) (c : UInt8) : Bool × Memory :=
  if cond then (decide ((m.load chars).1 = c), (m.load chars).2) else (false, m)

/-- `memmove(dst, src, n)`. -/
def Memory.memmove (m : Memory) (dst src : Chars) (n : Nat) : Memory := m.memcpy dst src n

/-! ### The functions of the source -/

/-- The loop of `uriaa_remove_segment_point`, and the test behind it; the size of what is left. -/
def removeSegmentPointLoop (buf : Chars) (m : Memory) (bufSize : Nat) (scan : SegmentScan) :
    Memory × Nat :=
  if scan.i < bufSize then
    match m.andChar true (buf.index scan.i) slash with
    | (true, m) =>
      match m.andChar (scan.i - scan.segment = 1) (buf.index (scan.i - 1)) dot with
      | (true, m) =>
        removeSegmentPointLoop buf
          (m.memmove (buf.index scan.segment) (buf.index (scan.i + 1)) (bufSize - scan.i))
          (bufSize - (scan.i + 1 - scan.segment)) scan.back
      | (false, m) => removeSegmentPointLoop buf m bufSize scan.nextSegment
    | (false, m) => removeSegmentPointLoop buf m bufSize scan.nextChar
  else
    match m.andChar (scan.segment + 1 = bufSize) (buf.index scan.segment) dot with
    | (true, m) => (m.store (buf.index scan.segment) 0, bufSize)
    | (false, m) => (m, bufSize)
termination_by (bufSize, bufSize - scan.i)
decreasing_by
  · have hle := scan.le
    exact Prod.Lex.left _ _ (by omega)
  · exact Prod.Lex.right _ (by simp only [SegmentScan.nextSegment]; omega)
  · exact Prod.Lex.right _ (by simp only [SegmentScan.nextChar]; omega)

def uriaaRemoveSegmentPoint (m : Memory) (s : Stringaa) : Bool × Memory :=
  (true, (removeSegmentPointLoop (stringChars s 0) m s.bufSize .start).1)

/-- `buf[i] == '.' && buf[j] == '.'` behind a condition. -/
def Memory.andParent (m : Memory) (cond : Bool) (buf : Chars) (i j : Nat) : Bool × Memory :=
  match m.andChar cond (buf.index i) dot with
  | (is, m) => m.andChar is (buf.index j) dot

def removeSegmentPointsLoop (buf : Chars) (m : Memory) (bufSize : Nat) (scan : SegmentScan) :
    Memory × Nat :=
  if scan.i < bufSize then
    match m.andChar true (buf.index scan.i) slash with
    | (true, m) =>
      match m.andParent (scan.i - scan.segment = 2) buf (scan.i - 1) (scan.i - 2) with
      | (true, m) => removeSegmentPointsLoop buf m bufSize scan.nextSegment
      | (false, m) =>
        match m.andParent (scan.i + 2 < bufSize) buf (scan.i + 1) (scan.i + 2) with
        | (true, m) =>
          match m.andChar (scan.i + 3 < bufSize) (buf.index (scan.i + 3)) slash with
          | (true, m) =>
            removeSegmentPointsLoop buf
              (m.memmove (buf.index scan.segment) (buf.index (scan.i + 4))
                (bufSize - scan.i - 4 + 1))
              (bufSize - (scan.i + 4 - scan.segment)) .start
          | (false, m) =>
            if scan.i + 3 = bufSize then
              removeSegmentPointsLoop buf
                (m.memmove (buf.index scan.segment) (buf.index (scan.i + 3))
                  (bufSize - scan.i - 3 + 1))
                (bufSize - (scan.i + 3 - scan.segment)) .start
            else removeSegmentPointsLoop buf m bufSize scan.nextChar
        | (false, m) => removeSegmentPointsLoop buf m bufSize scan.nextSegment
    | (false, m) => removeSegmentPointsLoop buf m bufSize scan.nextChar
  else (m, bufSize)
termination_by (bufSize, bufSize - scan.i)
decreasing_by
  · exact Prod.Lex.right _ (by simp only [SegmentScan.nextSegment]; omega)
  · have hle := scan.le
    exact Prod.Lex.left _ _ (by omega)
  · have hle := scan.le
    exact Prod.Lex.left _ _ (by omega)
  · exact Prod.Lex.right _ (by simp only [SegmentScan.nextChar]; omega)
  · exact Prod.Lex.right _ (by simp only [SegmentScan.nextSegment]; omega)
  · exact Prod.Lex.right _ (by simp only [SegmentScan.nextChar]; omega)

/-- The closing loop: whether what is left starts with `..`. -/
def startsWithParent (buf : Chars) (m : Memory) (bufSize i segment : Nat) : Bool × Memory :=
  if i < bufSize then
    match m.andChar true (buf.index i) slash with
    | (true, m) =>
      match m.andParent (i - segment = 2) buf (i - 1) (i - 2) with
      | (true, m) => (true, m)
      | (false, m) =>
        if 0 < i - segment then
          m.andParent (segment + 2 = bufSize) buf segment (segment + 1)
        else startsWithParent buf m bufSize (i + 1) (i + 1)
    | (false, m) => startsWithParent buf m bufSize (i + 1) segment
  else m.andParent (segment + 2 = bufSize) buf segment (segment + 1)
termination_by bufSize - i

/-- `uriaa_remove_segment_points`. The closing loop only chooses between returns of the same
value. -/
def uriaaRemoveSegmentPoints (m : Memory) (s : Stringaa) : Bool × Memory × Stringaa :=
  match removeSegmentPointsLoop (stringChars s 0) m s.bufSize .start with
  | (m, bufSize) =>
    match startsWithParent (stringChars s 0) m bufSize 0 0 with
    | (_, m) => (true, m, { s with bufSize := bufSize + 1 })

section

variable {m m' : Memory} {buf chars dst src : Chars} {c : UInt8} {cond is : Bool}
  {bufSize i j n segment : Nat} {scan : SegmentScan} {s : Stringaa} {p : Ptr} {size : Nat}

/-! ### What a condition does -/

@[simp] theorem load_heap : (m.load chars).2.heap = m.heap := rfl

theorem andChar_spec (heq : m.andChar cond chars c = (is, m')) :
    m'.heap = m.heap ∧ (is = true ↔ cond = true ∧ (m.load chars).1 = c) ∧
      (m'.InBounds ↔ (cond = true → chars.start < chars.size) ∧ m.InBounds) := by
  rw [Memory.andChar] at heq
  by_cases hcond : cond = true
  · rw [if_pos hcond, Prod.mk.injEq] at heq
    obtain ⟨rfl, rfl⟩ := heq
    have hone : (Access.mk chars.start 1 chars.size).InBounds ↔ chars.start < chars.size :=
      ⟨fun h => h 0 Nat.one_pos, fun h => Access.inBounds_of_le h⟩
    refine ⟨rfl, by simp [hcond], ?_⟩
    rw [Memory.load, Memory.inBounds_touch, hone]
    simp [hcond]
  · rw [if_neg hcond, Prod.mk.injEq] at heq
    obtain ⟨rfl, rfl⟩ := heq
    simp [hcond]

theorem andParent_spec (heq : m.andParent cond buf i j = (is, m')) :
    m'.heap = m.heap ∧
      (is = true ↔ cond = true ∧ (m.load (buf.index i)).1 = dot ∧ (m.load (buf.index j)).1 = dot) ∧
      (m'.InBounds → m.InBounds) ∧
      ((cond = true → (buf.index i).start < buf.size ∧ (buf.index j).start < buf.size) →
        m.InBounds → m'.InBounds) := by
  rw [Memory.andParent] at heq
  rcases hfirst : m.andChar cond (buf.index i) dot with ⟨is₁, m₁⟩
  rw [hfirst] at heq
  obtain ⟨hheap₁, his₁, hbounds₁⟩ := andChar_spec hfirst
  obtain ⟨hheap, his, hbounds⟩ := andChar_spec heq
  have hload : (m₁.load (buf.index j)).1 = (m.load (buf.index j)).1 := by
    simp only [Memory.load, hheap₁]
  refine ⟨hheap.trans hheap₁, ?_, fun h => (hbounds₁.mp (hbounds.mp h).2).2, fun hin h => ?_⟩
  · rw [his, his₁, hload, and_assoc]
  · exact hbounds.mpr ⟨fun h₁ => (hin (his₁.mp h₁).1).2, hbounds₁.mpr ⟨fun h₁ => (hin h₁).1, h⟩⟩

private theorem inBounds_memmove : (m.memmove dst src n).InBounds ↔
    (Access.mk dst.start n dst.size).InBounds ∧ (Access.mk src.start n src.size).InBounds ∧
      m.InBounds := by
  rw [Memory.memmove, Memory.memcpy]
  split
  · simp only [Memory.inBounds_touch]
    rfl
  · simp only [Memory.inBounds_touch]

private theorem not_inBounds_memmove (hsize : bufSize = buf.size) (hstart : buf.start = 0)
    (hn : i ≤ bufSize) (hcount : n = bufSize - i + 1) :
    ¬ (m.memmove (buf.index j) (buf.index i) n).InBounds := by
  rw [inBounds_memmove]
  rintro ⟨-, hsrc, -⟩
  have hlast := hsrc (bufSize - i) (show bufSize - i < n by omega)
  simp only [Chars.index, hstart, ← hsize] at hlast
  omega

/-! ### The scans without their notes -/

theorem load_index (m : Memory) (p : Ptr) (size i : Nat) :
    (m.load (Chars.index ⟨some p, 0, size⟩ i)).1 = m.heap.byte (p.add i) := by
  simp [Memory.load, Chars.index]

theorem memmove_heap (m : Memory) (p : Ptr) (size i j n : Nat) :
    (m.memmove (Chars.index ⟨some p, 0, size⟩ i) (Chars.index ⟨some p, 0, size⟩ j) n).heap =
      m.heap.memmove (p.add i) (p.add j) n := by
  simp [Memory.memmove, Memory.memcpy, Memory.touch, Chars.index]

private theorem andChar_slash
    (heq : m.andChar true (Chars.index ⟨some p, 0, size⟩ i) c = (is, m')) :
    m'.heap = m.heap ∧ (is = true ↔ m.heap.byte (p.add i) = c) := by
  obtain ⟨hheap, his, -⟩ := andChar_spec heq
  rw [load_index, and_iff_right rfl] at his
  exact ⟨hheap, his⟩

theorem removeSegmentPointLoop_heap (p : Ptr) (size : Nat) (m : Memory) (bufSize : Nat)
    (scan : SegmentScan) :
    (removeSegmentPointLoop ⟨some p, 0, size⟩ m bufSize scan).1.heap =
      Httpaa.removeSegmentPointLoop p m.heap bufSize scan := by
  fun_induction removeSegmentPointLoop ⟨some p, 0, size⟩ m bufSize scan with
  | case1 m bufSize scan hlt m₁ hslash m₂ hpoint ih =>
      obtain ⟨hheap, his⟩ := andChar_slash hslash
      obtain ⟨hheap', his', -⟩ := andChar_spec hpoint
      rw [load_index, hheap, decide_eq_true_iff] at his'
      rw [Httpaa.removeSegmentPointLoop, if_pos hlt, if_pos (his.mp rfl), if_pos (his'.mp rfl), ih,
        memmove_heap, hheap', hheap]
  | case2 m bufSize scan hlt m₁ hslash m₂ hpoint ih =>
      obtain ⟨hheap, his⟩ := andChar_slash hslash
      obtain ⟨hheap', his', -⟩ := andChar_spec hpoint
      rw [load_index, hheap, decide_eq_true_iff] at his'
      rw [Httpaa.removeSegmentPointLoop, if_pos hlt, if_pos (his.mp rfl),
        if_neg (his'.not.mp Bool.false_ne_true), ih, hheap', hheap]
  | case3 m bufSize scan hlt m₁ hslash ih =>
      obtain ⟨hheap, his⟩ := andChar_slash hslash
      rw [Httpaa.removeSegmentPointLoop, if_pos hlt, if_neg (his.not.mp Bool.false_ne_true), ih,
        hheap]
  | case4 m bufSize scan hlt m₁ hpoint =>
      obtain ⟨hheap, his, -⟩ := andChar_spec hpoint
      rw [load_index, decide_eq_true_iff] at his
      rw [Httpaa.removeSegmentPointLoop, if_neg hlt, if_pos (his.mp rfl), ← hheap]
      simp [Memory.store, Memory.touch, Chars.index]
  | case5 m bufSize scan hlt m₁ hpoint =>
      obtain ⟨hheap, his, -⟩ := andChar_spec hpoint
      rw [load_index, decide_eq_true_iff] at his
      rw [Httpaa.removeSegmentPointLoop, if_neg hlt, if_neg (his.not.mp Bool.false_ne_true), hheap]

theorem removeSegmentPointsLoop_heap (p : Ptr) (size : Nat) (m : Memory) (bufSize : Nat)
    (scan : SegmentScan) :
    ((removeSegmentPointsLoop ⟨some p, 0, size⟩ m bufSize scan).1.heap,
        (removeSegmentPointsLoop ⟨some p, 0, size⟩ m bufSize scan).2) =
      Httpaa.removeSegmentPointsLoop p m.heap bufSize scan := by
  have hparent : ∀ {m m' : Memory} {cond is : Bool} {i j : Nat},
      m.andParent cond ⟨some p, 0, size⟩ i j = (is, m') → m'.heap = m.heap ∧
        (is = true ↔ cond = true ∧ m.heap.byte (p.add i) = dot ∧ m.heap.byte (p.add j) = dot) := by
    intro m m' cond is i j heq
    obtain ⟨hheap, his, -⟩ := andParent_spec heq
    rw [load_index, load_index] at his
    exact ⟨hheap, his⟩
  fun_induction removeSegmentPointsLoop ⟨some p, 0, size⟩ m bufSize scan with
  | case1 m bufSize scan hlt m₁ hslash m₂ hcur ih =>
      obtain ⟨hheap, his⟩ := andChar_slash hslash
      obtain ⟨hheap', his'⟩ := hparent hcur
      rw [hheap, decide_eq_true_iff] at his'
      rw [Httpaa.removeSegmentPointsLoop, if_pos hlt, if_pos (his.mp rfl), if_pos (his'.mp rfl), ih,
        hheap', hheap]
  | case2 m bufSize scan hlt m₁ hslash m₂ hcur m₃ hahead m₄ hbehind ih =>
      obtain ⟨hheap, his⟩ := andChar_slash hslash
      obtain ⟨hheap', his'⟩ := hparent hcur
      obtain ⟨hheap₃, his₃⟩ := hparent hahead
      obtain ⟨hheap₄, his₄, -⟩ := andChar_spec hbehind
      rw [hheap, decide_eq_true_iff] at his'
      rw [hheap', hheap, decide_eq_true_iff] at his₃
      rw [load_index, hheap₃, hheap', hheap, decide_eq_true_iff] at his₄
      rw [Httpaa.removeSegmentPointsLoop, if_pos hlt, if_pos (his.mp rfl),
        if_neg (his'.not.mp Bool.false_ne_true), if_pos (his₃.mp rfl), if_pos (his₄.mp rfl), ih,
        memmove_heap, hheap₄, hheap₃, hheap', hheap]
  | case3 m scan m₁ hslash m₂ hcur m₃ m₄ hlt hahead hbehind ih =>
      obtain ⟨hheap, his⟩ := andChar_slash hslash
      obtain ⟨hheap', his'⟩ := hparent hcur
      obtain ⟨hheap₃, his₃⟩ := hparent hahead
      obtain ⟨hheap₄, his₄, -⟩ := andChar_spec hbehind
      rw [hheap, decide_eq_true_iff] at his'
      rw [hheap', hheap, decide_eq_true_iff] at his₃
      rw [load_index, hheap₃, hheap', hheap, decide_eq_true_iff] at his₄
      rw [Httpaa.removeSegmentPointsLoop, if_pos hlt, if_pos (his.mp rfl),
        if_neg (his'.not.mp Bool.false_ne_true), if_pos (his₃.mp rfl),
        if_neg (his₄.not.mp Bool.false_ne_true), if_pos rfl, ih, memmove_heap, hheap₄, hheap₃,
        hheap', hheap]
  | case4 m bufSize scan hlt m₁ hslash m₂ hcur m₃ hahead m₄ hbehind hend ih =>
      obtain ⟨hheap, his⟩ := andChar_slash hslash
      obtain ⟨hheap', his'⟩ := hparent hcur
      obtain ⟨hheap₃, his₃⟩ := hparent hahead
      obtain ⟨hheap₄, his₄, -⟩ := andChar_spec hbehind
      rw [hheap, decide_eq_true_iff] at his'
      rw [hheap', hheap, decide_eq_true_iff] at his₃
      rw [load_index, hheap₃, hheap', hheap, decide_eq_true_iff] at his₄
      rw [Httpaa.removeSegmentPointsLoop, if_pos hlt, if_pos (his.mp rfl),
        if_neg (his'.not.mp Bool.false_ne_true), if_pos (his₃.mp rfl),
        if_neg (his₄.not.mp Bool.false_ne_true), if_neg hend, ih, hheap₄, hheap₃, hheap', hheap]
  | case5 m bufSize scan hlt m₁ hslash m₂ hcur m₃ hahead ih =>
      obtain ⟨hheap, his⟩ := andChar_slash hslash
      obtain ⟨hheap', his'⟩ := hparent hcur
      obtain ⟨hheap₃, his₃⟩ := hparent hahead
      rw [hheap, decide_eq_true_iff] at his'
      rw [hheap', hheap, decide_eq_true_iff] at his₃
      rw [Httpaa.removeSegmentPointsLoop, if_pos hlt, if_pos (his.mp rfl),
        if_neg (his'.not.mp Bool.false_ne_true), if_neg (his₃.not.mp Bool.false_ne_true), ih,
        hheap₃, hheap', hheap]
  | case6 m bufSize scan hlt m₁ hslash ih =>
      obtain ⟨hheap, his⟩ := andChar_slash hslash
      rw [Httpaa.removeSegmentPointsLoop, if_pos hlt, if_neg (his.not.mp Bool.false_ne_true), ih,
        hheap]
  | case7 m bufSize scan hlt => rw [Httpaa.removeSegmentPointsLoop, if_neg hlt]

/-- Without its notes, `uriaa_remove_segment_point` is that of the plain memory. -/
theorem uriaaRemoveSegmentPoint_heap (m : Memory) (hbuf : s.buf = some p) :
    Httpaa.uriaaRemoveSegmentPoint m.heap s =
      some ((uriaaRemoveSegmentPoint m s).1, (uriaaRemoveSegmentPoint m s).2.heap) := by
  rw [uriaaRemoveSegmentPoint, stringChars, hbuf, removeSegmentPointLoop_heap]
  simp [Httpaa.uriaaRemoveSegmentPoint, hbuf]

theorem startsWithParent_heap {i segment : Nat} :
    (startsWithParent buf m bufSize i segment).2.heap = m.heap := by
  fun_induction startsWithParent buf m bufSize i segment with
  | case1 _ _ _ _ _ hslash _ hparent =>
      exact (andParent_spec hparent).1.trans (andChar_spec hslash).1
  | case2 _ _ _ _ _ hslash _ hparent =>
      exact (andParent_spec rfl).1.trans ((andParent_spec hparent).1.trans (andChar_spec hslash).1)
  | case3 _ _ _ _ _ hslash _ hparent _ ih =>
      exact ih.trans ((andParent_spec hparent).1.trans (andChar_spec hslash).1)
  | case4 _ _ _ _ _ hslash ih => exact ih.trans (andChar_spec hslash).1
  | case5 => exact (andParent_spec rfl).1

theorem uriaaRemoveSegmentPoints_heap (m : Memory) (hbuf : s.buf = some p) :
    Httpaa.uriaaRemoveSegmentPoints m.heap s =
      some ((uriaaRemoveSegmentPoints m s).1, (uriaaRemoveSegmentPoints m s).2.1.heap,
        (uriaaRemoveSegmentPoints m s).2.2) := by
  have hloop := removeSegmentPointsLoop_heap p s.bufSize m s.bufSize .start
  simp [uriaaRemoveSegmentPoints, stringChars, hbuf, startsWithParent_heap,
    Httpaa.uriaaRemoveSegmentPoints, ← hloop]

/-! ### Access out of bounds is not forgotten -/

private theorem removeSegmentPointLoop_mono
    (hin : (removeSegmentPointLoop buf m bufSize scan).1.InBounds) : m.InBounds := by
  fun_induction removeSegmentPointLoop buf m bufSize scan with
  | case1 _ _ _ _ _ hslash _ hpoint ih =>
      exact ((andChar_spec hslash).2.2.mp ((andChar_spec hpoint).2.2.mp
        (inBounds_memmove.mp (ih hin)).2.2).2).2
  | case2 _ _ _ _ _ hslash _ hpoint ih =>
      exact ((andChar_spec hslash).2.2.mp ((andChar_spec hpoint).2.2.mp (ih hin)).2).2
  | case3 _ _ _ _ _ hslash ih => exact ((andChar_spec hslash).2.2.mp (ih hin)).2
  | case4 _ _ _ _ _ hpoint =>
      exact ((andChar_spec hpoint).2.2.mp (Memory.inBounds_touch.mp hin).2).2
  | case5 _ _ _ _ _ hpoint => exact ((andChar_spec hpoint).2.2.mp hin).2

private theorem removeSegmentPointsLoop_mono
    (hin : (removeSegmentPointsLoop buf m bufSize scan).1.InBounds) : m.InBounds := by
  fun_induction removeSegmentPointsLoop buf m bufSize scan with
  | case1 _ _ _ _ _ hslash _ hparent ih =>
      have hm := (andParent_spec hparent).2.2.1 (ih hin)
      exact ((andChar_spec hslash).2.2.mp hm).2
  | case2 _ _ _ _ _ hslash _ hparent _ hahead _ hbehind ih =>
      have hmoved := (inBounds_memmove.mp (ih hin)).2.2
      have hm := (andParent_spec hahead).2.2.1 ((andChar_spec hbehind).2.2.mp hmoved).2
      exact ((andChar_spec hslash).2.2.mp ((andParent_spec hparent).2.2.1 hm)).2
  | case3 =>
      rename_i hslash _ hparent _ _ _ hahead hbehind ih
      have hmoved := (inBounds_memmove.mp (ih hin)).2.2
      have hm := (andParent_spec hahead).2.2.1 ((andChar_spec hbehind).2.2.mp hmoved).2
      exact ((andChar_spec hslash).2.2.mp ((andParent_spec hparent).2.2.1 hm)).2
  | case4 _ _ _ _ _ hslash _ hparent _ hahead _ hbehind _ ih =>
      have hm := (andParent_spec hahead).2.2.1 ((andChar_spec hbehind).2.2.mp (ih hin)).2
      exact ((andChar_spec hslash).2.2.mp ((andParent_spec hparent).2.2.1 hm)).2
  | case5 _ _ _ _ _ hslash _ hparent _ hahead ih =>
      have hm := (andParent_spec hahead).2.2.1 (ih hin)
      exact ((andChar_spec hslash).2.2.mp ((andParent_spec hparent).2.2.1 hm)).2
  | case6 _ _ _ _ _ hslash ih => exact ((andChar_spec hslash).2.2.mp (ih hin)).2
  | case7 => exact hin

private theorem removeSegmentPointsLoop_size (hstart : buf.start = 0) (hsize : bufSize = buf.size)
    (hin : (removeSegmentPointsLoop buf m bufSize scan).1.InBounds) :
    (removeSegmentPointsLoop buf m bufSize scan).2 = bufSize := by
  fun_induction removeSegmentPointsLoop buf m bufSize scan with
  | case2 _ _ _ _ _ _ _ _ _ _ _ hbehind =>
      have hlt := ((andChar_spec hbehind).2.1.mp rfl).1
      simp only [decide_eq_true_eq] at hlt
      exact absurd (removeSegmentPointsLoop_mono hin)
        (not_inBounds_memmove hsize hstart (by omega) (by omega))
  | case3 =>
      exact absurd (removeSegmentPointsLoop_mono hin)
        (not_inBounds_memmove hsize hstart (by omega) (by omega))
  | case7 => rfl
  | _ =>
      rename_i ih
      exact ih hsize hin

private theorem startsWithParent_mono {i segment : Nat}
    (hin : (startsWithParent buf m bufSize i segment).2.InBounds) : m.InBounds := by
  fun_induction startsWithParent buf m bufSize i segment with
  | case1 _ _ _ _ _ hslash _ hparent =>
      exact ((andChar_spec hslash).2.2.mp ((andParent_spec hparent).2.2.1 hin)).2
  | case2 _ _ _ _ _ hslash _ hparent =>
      have hm := (andParent_spec hparent).2.2.1 ((andParent_spec rfl).2.2.1 hin)
      exact ((andChar_spec hslash).2.2.mp hm).2
  | case3 _ _ _ _ _ hslash _ hparent _ ih =>
      exact ((andChar_spec hslash).2.2.mp ((andParent_spec hparent).2.2.1 (ih hin))).2
  | case4 _ _ _ _ _ hslash ih => exact ((andChar_spec hslash).2.2.mp (ih hin)).2
  | case5 => exact (andParent_spec rfl).2.2.1 hin

/-! ### The first scan -/

variable {done cur todo : List UInt8}

theorem andChar_at {x : UInt8} (hin : i < size) (hx : m.heap.byte (p.add i) = x) :
    ∃ m', m.andChar true (Chars.index ⟨some p, 0, size⟩ i) c = (decide (x = c), m') ∧
      m'.heap = m.heap ∧ (m'.InBounds ↔ m.InBounds) := by
  rcases heq : m.andChar true (Chars.index ⟨some p, 0, size⟩ i) c with ⟨is, m'⟩
  obtain ⟨hheap, his, hbounds⟩ := andChar_spec heq
  have hload : (m.load (Chars.index ⟨some p, 0, size⟩ i)).1 = x := by
    simpa [Memory.load, Chars.index] using hx
  refine ⟨m', ?_, hheap, ?_⟩
  · rw [hload] at his
    rw [Prod.mk.injEq]
    refine ⟨Bool.eq_iff_iff.mpr ?_, rfl⟩
    rw [his, decide_eq_true_iff]
    exact and_iff_right rfl
  · rw [hbounds]
    refine and_iff_right fun _ => ?_
    simpa only [Chars.index, Nat.zero_add] using hin

private theorem removeSegmentPointLoop_inBounds (hat : scan.At m.heap p size done cur todo)
    (hcur : slash ∉ cur) :
    (removeSegmentPointLoop ⟨some p, 0, size⟩ m size scan).1.InBounds ↔
      m.InBounds ∧ NoPointSegment (cur ++ todo) := by
  fun_induction Text.removeSegmentPoint done cur todo generalizing m scan with
  | case1 done cur =>
      rw [removeSegmentPointLoop, if_neg hat.ended, List.append_nil]
      refine Iff.trans ?_ (and_iff_left (noPointSegment_end hcur)).symm
      split
      · rename_i m₁ hdot
        have hlast := ((andChar_spec hdot).2.1.mp rfl).1
        simp only [decide_eq_true_eq] at hlast
        rw [Memory.store, Memory.inBounds_touch]
        have hin : (Chars.index ⟨some p, 0, size⟩ scan.segment).start < size := by
          simp only [Chars.index]
          omega
        refine Iff.trans (and_iff_right (Access.inBounds_of_le hin)) ?_
        exact (andChar_spec hdot).2.2.trans (and_iff_right fun _ => hin)
      · rename_i m₁ hdot
        refine (andChar_spec hdot).2.2.trans (and_iff_right fun hlast => ?_)
        simp only [decide_eq_true_eq] at hlast
        simp only [Chars.index]
        omega
  | case2 done todo ih =>
      obtain ⟨m₁, hslash, hheap, -⟩ := @andChar_at m slash scan.i p size _ hat.more hat.byte
      have hdot := hat.dot_iff.mpr rfl
      rcases hpoint : m₁.andChar (scan.i - scan.segment = 1)
        (Chars.index ⟨some p, 0, size⟩ (scan.i - 1)) dot with ⟨is, m₂⟩
      have his : is = true := by
        refine (andChar_spec hpoint).2.1.mpr ⟨decide_eq_true hdot.1, ?_⟩
        simpa [Memory.load, Chars.index, hheap] using hdot.2
      subst his
      rw [removeSegmentPointLoop, if_pos hat.more, hslash]
      simp only [decide_true, hpoint]
      refine iff_of_false (fun hin => ?_) fun h => ?_
      · have hmore := hat.more
        exact not_inBounds_memmove (show size = _ from rfl) rfl (show scan.i + 1 ≤ size by omega)
          (by omega) (removeSegmentPointLoop_mono hin)
      · exact ((noPointSegment_slash hcur).mp h.2).1 rfl
  | case3 done cur todo hne ih =>
      obtain ⟨m₁, hslash, hheap, hbounds⟩ := @andChar_at m slash scan.i p size _ hat.more hat.byte
      have hdot := hat.dot_iff.not.mpr hne
      rcases hpoint : m₁.andChar (scan.i - scan.segment = 1)
        (Chars.index ⟨some p, 0, size⟩ (scan.i - 1)) dot with ⟨is, m₂⟩
      obtain ⟨hheap', his, hbounds'⟩ := andChar_spec hpoint
      have hfalse : is = false := by
        rw [← Bool.not_eq_true, his]
        rintro ⟨hone, hbyte⟩
        refine hdot ⟨of_decide_eq_true hone, ?_⟩
        simpa [Memory.load, Chars.index, hheap] using hbyte
      subst hfalse
      rw [removeSegmentPointLoop, if_pos hat.more, hslash]
      simp only [decide_true, hpoint]
      rw [ih (by rw [hheap', hheap]; exact hat.nextSegment) (by simp), hbounds',
        noPointSegment_slash hcur]
      have hmore := hat.more
      have hin : decide (scan.i - scan.segment = 1) = true →
          (Chars.index ⟨some p, 0, size⟩ (scan.i - 1)).start <
            (Chars.index ⟨some p, 0, size⟩ (scan.i - 1)).size := fun _ => by
        simp only [Chars.index]
        omega
      rw [and_iff_right hin, hbounds, and_iff_right hne, List.nil_append]
  | case4 done cur x todo hx ih =>
      obtain ⟨m₁, hslash, hheap, hbounds⟩ := @andChar_at m slash scan.i p size _ hat.more hat.byte
      rw [removeSegmentPointLoop, if_pos hat.more, hslash]
      simp only [decide_eq_false hx]
      rw [ih (by rw [hheap]; exact hat.nextChar) (by simp [hcur, Ne.symm hx]), hbounds]
      simp

/-! ### The functions on a string that fills its buffer -/

def FillsBlock (h : Heap) (s : Stringaa) : Prop :=
  match s.buf with
  | some p => h.size p.block = p.off + s.bufSize
  | none => s.bufSize = 0

def bufferText (h : Heap) (s : Stringaa) : List UInt8 :=
  (List.range s.bufSize).map fun i => s.buf.elim 0 fun p => h.byte (p.add i)

/-- Every access was inside the buffer of `s`, and the string left fits into that. -/
def KeepsBuffer (s : Stringaa) (m : Memory) (s' : Stringaa) : Prop :=
  m.InBounds ∧ s'.bufSize ≤ s.bufSize ∧ s'.writePos + s'.isNullTerminated.toNat ≤ s'.bufSize

private theorem bufferText_holds (h : Heap) (hbuf : s.buf = some p) :
    h.Holds p (bufferText h s) := by
  intro i hi
  simp only [bufferText, List.length_map, List.length_range] at hi
  simp [bufferText, hbuf, hi]

theorem uriaaRemoveSegmentPoint_inBounds (h : Heap) (hfills : FillsBlock h s) :
    (uriaaRemoveSegmentPoint ⟨h, []⟩ s).2.InBounds ↔ NoPointSegment (bufferText h s) := by
  have hempty : (Memory.mk h []).InBounds := fun access hmem => absurd hmem List.not_mem_nil
  cases hbuf : s.buf with
  | none =>
      have hsize : s.bufSize = 0 := by simpa [FillsBlock, hbuf] using hfills
      have htext : bufferText h s = [] := by simp [bufferText, hsize]
      have hdot : (Memory.mk h []).andChar (decide (SegmentScan.start.segment + 1 = 0))
          ((stringChars s 0).index SegmentScan.start.segment) dot = (false, ⟨h, []⟩) := rfl
      rw [htext, uriaaRemoveSegmentPoint, hsize, removeSegmentPointLoop,
        if_neg (Nat.not_lt_zero _), hdot]
      exact iff_of_true hempty (by decide)
  | some p =>
      have hat := SegmentScan.At.start s.bufSize (bufferText_holds h hbuf) (by simp [bufferText])
      have hrun := removeSegmentPointLoop_inBounds (m := ⟨h, []⟩) hat List.not_mem_nil
      rw [and_iff_right hempty, List.nil_append] at hrun
      rw [uriaaRemoveSegmentPoint, stringChars, hbuf]
      exact hrun

private theorem uriaaRemoveSegmentPoints_outOfBuffer (m : Memory) (s : Stringaa) :
    ¬ KeepsBuffer s (uriaaRemoveSegmentPoints m s).2.1 (uriaaRemoveSegmentPoints m s).2.2 := by
  rintro ⟨hin, hsize, -⟩
  rw [uriaaRemoveSegmentPoints] at hin hsize
  have hloop := startsWithParent_mono hin
  have hkept := removeSegmentPointsLoop_size (show (stringChars s 0).start = 0 from rfl)
    (show s.bufSize = _ from rfl) hloop
  dsimp only at hsize
  omega

/-- On every string that fills its block, the first function stays in the buffer exactly where it
has nothing to remove, and the second never does. -/
theorem uriaaRemoveSegments_keepBuffer (h : Heap) (s : Stringaa) (hfills : FillsBlock h s)
    (hwrite : s.writePos + s.isNullTerminated.toNat ≤ s.bufSize) :
    (KeepsBuffer s (uriaaRemoveSegmentPoint ⟨h, []⟩ s).2 s ↔ NoPointSegment (bufferText h s)) ∧
      ¬ KeepsBuffer s (uriaaRemoveSegmentPoints ⟨h, []⟩ s).2.1
        (uriaaRemoveSegmentPoints ⟨h, []⟩ s).2.2 := by
  refine ⟨?_, uriaaRemoveSegmentPoints_outOfBuffer _ s⟩
  rw [← uriaaRemoveSegmentPoint_inBounds h hfills]
  exact and_iff_left ⟨Nat.le_refl _, hwrite⟩

theorem uriaaRemoveSegments_keepBuffer_dot :
    (KeepsBuffer (.ofText 0 2)
        (uriaaRemoveSegmentPoint ⟨.ofText [dot, slash], []⟩ (.ofText 0 2)).2 (.ofText 0 2) ↔
      NoPointSegment (bufferText (.ofText [dot, slash]) (.ofText 0 2))) ∧
      ¬ KeepsBuffer (.ofText 0 2)
        (uriaaRemoveSegmentPoints ⟨.ofText [dot, slash], []⟩ (.ofText 0 2)).2.1
        (uriaaRemoveSegmentPoints ⟨.ofText [dot, slash], []⟩ (.ofText 0 2)).2.2 :=
  uriaaRemoveSegments_keepBuffer (.ofText [dot, slash]) (.ofText 0 2) rfl (by decide)

/-- The text `a` is left with a buffer size of 2. -/
theorem uriaaRemoveSegments_growsBuffer : ¬ ∀ (h : Heap) (s : Stringaa), FillsBlock h s →
    s.writePos + s.isNullTerminated.toNat ≤ s.bufSize →
      KeepsBuffer s (uriaaRemoveSegmentPoint ⟨h, []⟩ s).2 s ∧
        KeepsBuffer s (uriaaRemoveSegmentPoints ⟨h, []⟩ s).2.1
          (uriaaRemoveSegmentPoints ⟨h, []⟩ s).2.2 := fun hclaim =>
  uriaaRemoveSegmentPoints_outOfBuffer ⟨.ofText [ch 'a'], []⟩ (.ofText 0 1)
    (hclaim (.ofText [ch 'a']) (.ofText 0 1) rfl (by decide)).2

end

end Httpaa.Traced
