import Httpaa.Uri.Authority
import Httpaa.Uri.Footprint

/-!
# What resolving a reference touches

`uriaa_resolve_uri` over a memory that notes its accesses. The merged path has a NUL behind it, in
its own block, so a removal that takes one byte too many along takes that NUL along, and what the
loops print ends there. The resolved reference fits into the block that was sized for it.
-/

namespace Httpaa.Traced

open Rfc2396 (upToLastSlash)

/-! ### The function of the source -/

/-- Reading the C string at `chars`, past the end of the buffer if that has no NUL. -/
def Memory.readString (m : Memory) (chars : Chars) : Memory :=
  m.touch chars.start (((List.range (chars.size - chars.start)).findIdx fun i =>
    (m.load (chars.index i)).1 = 0) + 1) chars.size

/-- `memmove(buf + segment, buf + i, n)`, and the `printf` of `buf` behind it. -/
def Memory.memmovePrinted (m : Memory) (buf : Chars) (segment i n : Nat) : Memory :=
  (m.memmove (buf.index segment) (buf.index i) n).readString buf

/-- The loop that looks for the last slash from `i` down. Below 0 the index of the source wraps
around. -/
def lastSlash (chars : Chars) (m : Memory) : Nat → Option (Nat × Memory)
  | 0 =>
    match m.andChar true (chars.index 0) slash with
    | (true, m) => some (0, m)
    | (false, _) => none
  | i + 1 =>
    match m.andChar true (chars.index (i + 1)) slash with
    | (true, m) => some (i + 1, m)
    | (false, m) => lastSlash chars m i

def basePathCopySize (m : Memory) (s : Stringaa) : Option (Nat × Memory) :=
  if s.isInit ∧ s.buf.isSome ∧ 0 < s.writePos then do
    let i := s.writePos - 1
    let (i, m) ← lastSlash (stringChars s 0) m (if 0 < i ∧ s.isNullTerminated then i - 1 else i)
    return (i + 1, m)
  else some (0, m)

/-- `is_absolute_path`, for a reference without authority. -/
def isAbsolutePath (m : Memory) (u : Uriaa) : Bool × Memory :=
  if (u.part .absPath).isInit ∧ (u.part .relPath).isInit = false then (true, m)
  else m.andChar ((u.part .opaquePart).isInit ∧ (u.part .opaquePart).buf.isSome)
    (stringChars (u.part .opaquePart) 0) slash

/-- The first loop over the merged path and the test behind it, with the size of what is left. -/
def resolvePointLoop (buf : Chars) (m : Memory) (bufSize : Nat) (scan : SegmentScan) :
    Memory × Nat :=
  if scan.i < bufSize then
    match m.andChar true (buf.index scan.i) slash with
    | (true, m) =>
      match m.andChar (scan.i - scan.segment = 1) (buf.index (scan.i - 1)) dot with
      | (true, m) =>
        resolvePointLoop buf (m.memmovePrinted buf scan.segment (scan.i + 1) (bufSize - scan.i))
          (bufSize - (scan.i + 1 - scan.segment)) scan.back
      | (false, m) => resolvePointLoop buf m bufSize scan.nextSegment
    | (false, m) => resolvePointLoop buf m bufSize scan.nextChar
  else
    match m.andChar (scan.segment + 1 = bufSize) (buf.index scan.segment) dot with
    | (true, m) => (m.store (buf.index scan.segment) 0, bufSize)
    | (false, m) => (m, bufSize)
termination_by (bufSize, bufSize - scan.i)
decreasing_by
  · have hle := scan.le
    exact Prod.Lex.left _ _ (by omega)
  · exact Prod.Lex.right _ (by simp only [SegmentScan.nextSegment]; omega)
  · exact Prod.Lex.right _ (by simp only [SegmentScan.nextChar]; omega)

/-- The second loop over the merged path. -/
def resolvePointsLoop (buf : Chars) (m : Memory) (bufSize : Nat) (scan : SegmentScan) :
    Memory × Nat :=
  if scan.i < bufSize then
    match m.andChar true (buf.index scan.i) slash with
    | (true, m) =>
      match m.andParent (scan.i - scan.segment = 2) buf (scan.i - 1) (scan.i - 2) with
      | (true, m) => resolvePointsLoop buf m bufSize scan.nextSegment
      | (false, m) =>
        match m.andParent (scan.i + 2 < bufSize) buf (scan.i + 1) (scan.i + 2) with
        | (true, m) =>
          match m.andChar (scan.i + 3 < bufSize) (buf.index (scan.i + 3)) slash with
          | (true, m) =>
            resolvePointsLoop buf
              (m.memmovePrinted buf scan.segment (scan.i + 4) (bufSize - scan.i - 4 + 1))
              (bufSize - (scan.i + 4 - scan.segment)) .start
          | (false, m) =>
            if scan.i + 3 = bufSize then
              resolvePointsLoop buf
                (m.memmovePrinted buf scan.segment (scan.i + 3) (bufSize - scan.i - 3 + 1))
                (bufSize - (scan.i + 3 - scan.segment)) .start
            else resolvePointsLoop buf m bufSize scan.nextChar
        | (false, m) => resolvePointsLoop buf m bufSize scan.nextSegment
    | (false, m) => resolvePointsLoop buf m bufSize scan.nextChar
  else (m, bufSize)
termination_by (bufSize, bufSize - scan.i)
decreasing_by
  · exact Prod.Lex.right _ (by simp only [SegmentScan.nextSegment]; omega)
  · have hle := scan.le
    exact Prod.Lex.left _ _ (by omega)
  · have hle := scan.le
    exact Prod.Lex.left _ _ (by omega)
  · exact Prod.Lex.right _ (by simp only [SegmentScan.nextChar]; omega)
  · exact Prod.Lex.right _ (by simp only [SegmentScan.nextSegment]; omega)
  · exact Prod.Lex.right _ (by simp only [SegmentScan.nextChar]; omega)

/-- `memcpy` of a path, if there is one and it has characters. -/
def Memory.memcpyPath (m : Memory) (dst : Chars) (s : Stringaa) (n : Nat) : Memory :=
  if s.buf.isSome ∧ 0 < n then m.memcpy dst (stringChars s 0) n else m

/-- The branch that merges the paths; whether it goes on. -/
def uriaaMergePath (m : Memory) (u base : Uriaa) : Option (Bool × Memory × Uriaa) := do
  let (baseSize, m) ← basePathCopySize m (base.part .absPath)
  let relativeSize := relativePathCopySize (u.part .relPath)
  let bufSize := baseSize + relativeSize + 1
  let (p, m) := m.malloc bufSize
  let buf : Chars := ⟨some p, 0, bufSize⟩
  let m := m.memcpyPath buf (base.part .absPath) baseSize
  let m := m.memcpyPath (buf.index baseSize) (u.part .relPath) relativeSize
  let m := m.store (buf.index (bufSize - 1)) 0
  let m := if (u.part .path).isAlloc then { m with heap := m.heap.free (u.part .path).buf } else m
  let (m, size) := resolvePointLoop buf m (bufSize - 1) .start
  let (m, size) := resolvePointsLoop buf m size .start
  let path : Stringaa :=
    { buf := some p, bufSize := size + 1, writePos := size + 1 - 1, isInit := true
      isAlloc := true, isNullTerminated := true }
  let (isAbove, m) := startsWithParent buf m size 0 0
  return (!isAbove, m, u.withPart .path path)

/-- `memcpy` of a component behind what is written so far. -/
def copyString (buf : Chars) (s : Stringaa) (out : Memory × Nat) : Memory × Nat :=
  (out.1.memcpy (buf.index out.2) (stringChars s 0) s.copySize, out.2 + s.copySize)

/-- `memcpy` of characters behind what is written so far. -/
def copyChars (buf : Chars) (text : List UInt8) (out : Memory × Nat) : Memory × Nat :=
  ({ out.1 with heap := buf.buf.elim out.1.heap fun p =>
      out.1.heap.storeAll (p.add (buf.index out.2).start) text }.touch
        (buf.index out.2).start text.length buf.size, out.2 + text.length)

/-- A component, if it is set, with its delimiters. -/
def copyPart (buf : Chars) (front back : List UInt8) (s : Stringaa) (out : Memory × Nat) :
    Memory × Nat :=
  if s.isInit then copyChars buf back (copyString buf s (copyChars buf front out)) else out

/-- The second half: the components one after the other. -/
def uriaaAssemble (m : Memory) (u : Uriaa) (isPathTaken : Bool) :
    ResolveResult × Memory × Uriaa :=
  let bufSize := resolvedSize u isPathTaken
  let (p, m) := m.malloc bufSize
  let buf : Chars := ⟨some p, 0, bufSize⟩
  let out := copyPart buf [] [ch ':'] (u.part .scheme) (m, 0)
  let out := copyPart buf [ch '/', ch '/'] [] (u.part .authority) out
  let out := if isPathTaken then copyString buf (u.part .absPath) out
    else copyPart buf [] [] (u.part .path) out
  let out := copyPart buf [ch '?'] [] (u.part .query) out
  let out := copyPart buf [ch '#'] [] (u.part .fragment) out
  let uri : Stringaa :=
    { buf := some p, bufSize, readPos := out.2, writePos := bufSize - 1, isInit := true
      isAlloc := true, isNullTerminated := true }
  (.resolved, out.1.store (buf.index out.2) 0, { u with uri })

def uriaaResolveUri (m : Memory) (u base : Uriaa) : Option (ResolveResult × Memory × Uriaa) :=
  if u.isCurrentDocument then some (.isCurrentDocument, m, u)
  else if (u.part .scheme).isInit then some (.isAbsoluteUri, m, u)
  else
    let u := u.inherit base .scheme
    if (u.part .authority).isInit then some (uriaaAssemble m u true)
    else
      let u := u.inherit base .authority
      match isAbsolutePath m u with
      | (true, m) => some (uriaaAssemble m u true)
      | (false, m) => do
        let (isMerged, m, u) ← uriaaMergePath m u base
        if isMerged then some (uriaaAssemble m u false) else return (.failed, m, u)

section

variable {m m' : Memory} {dst : Chars} {c : UInt8} {cond is : Bool}
  {bufSize i j n segment size : Nat} {scan : SegmentScan} {s : Stringaa} {p q : Ptr} {h h' : Heap}
  {text piece front back : List UInt8} {found relative : Option (List UInt8)} {u v base r : Uriaa}

/-! ### A text with a NUL behind it -/

/-- What stands in the buffer ends in a NUL inside that, and every access was inside its buffer. -/
structure Ended (p : Ptr) (size : Nat) (m : Memory) (bufSize : Nat) : Prop where
  lt : bufSize < size
  nul : m.heap.byte (p.add bufSize) = 0
  inBounds : m.InBounds

theorem Ended.andChar (hended : Ended p size m bufSize) (hin : cond = true → i < size)
    (heq : m.andChar cond (Chars.index ⟨some p, 0, size⟩ i) c = (is, m')) :
    Ended p size m' bufSize ∧ m'.heap = m.heap ∧
      (is = true ↔ cond = true ∧ m.heap.byte (p.add i) = c) := by
  obtain ⟨hheap, his, hbounds⟩ := andChar_spec heq
  rw [load_index] at his
  refine ⟨⟨hended.lt, hheap ▸ hended.nul, hbounds.mpr ⟨fun hcond => ?_, hended.inBounds⟩⟩,
    hheap, his⟩
  simpa only [Chars.index, Nat.zero_add] using hin hcond

theorem Ended.andParent (hended : Ended p size m bufSize)
    (hin : cond = true → i < size ∧ j < size)
    (heq : m.andParent cond ⟨some p, 0, size⟩ i j = (is, m')) :
    Ended p size m' bufSize ∧ m'.heap = m.heap ∧
      (is = true ↔ cond = true ∧ m.heap.byte (p.add i) = dot ∧ m.heap.byte (p.add j) = dot) := by
  obtain ⟨hheap, his, -, hbounds⟩ := andParent_spec heq
  rw [load_index, load_index] at his
  refine ⟨⟨hended.lt, hheap ▸ hended.nul, hbounds (fun hcond => ?_) hended.inBounds⟩, hheap, his⟩
  simpa only [Chars.index, Nat.zero_add] using hin hcond

private theorem Ended.readString (hended : Ended p size m bufSize) :
    (m.readString ⟨some p, 0, size⟩).InBounds := by
  rw [Memory.readString, Memory.inBounds_touch]
  refine ⟨Access.inBounds_of_le ?_, hended.inBounds⟩
  have hmem : bufSize ∈ List.range (size - 0) := List.mem_range.mpr hended.lt
  have hfound : decide ((m.load (Chars.index ⟨some p, 0, size⟩ bufSize)).1 = 0) = true := by
    rw [load_index, hended.nul]
    rfl
  have hlt : (List.range (size - 0)).findIdx (fun i =>
      (m.load (Chars.index ⟨some p, 0, size⟩ i)).1 = 0) < (List.range (size - 0)).length :=
    List.findIdx_lt_length_of_exists ⟨bufSize, hmem, hfound⟩
  rw [List.length_range] at hlt
  exact (Nat.zero_add _).trans_le hlt

theorem Ended.removed (hended : Ended p size m bufSize) (hji : j ≤ i) (hi : i ≤ bufSize)
    (hn : n = bufSize - i + 1) :
    Ended p size (m.memmovePrinted ⟨some p, 0, size⟩ j i n) (bufSize - (i - j)) ∧
      (m.memmovePrinted ⟨some p, 0, size⟩ j i n).heap = m.heap.memmove (p.add j) (p.add i) n := by
  have hlt := hended.lt
  have hheap := memmove_heap m p size j i n
  have hmoved : Ended p size (m.memmove (Chars.index ⟨some p, 0, size⟩ j)
      (Chars.index ⟨some p, 0, size⟩ i) n) (bufSize - (i - j)) := by
    refine ⟨by omega, ?_, hended.inBounds.memcpy ?_ ?_⟩
    · have hbyte := hended.nul
      rw [hheap]
      simp only [Heap.byte, Heap.memmove, Ptr.add] at hbyte ⊢
      rw [if_pos ⟨trivial, by omega, by omega⟩]
      rwa [show p.off + i + (p.off + (bufSize - (i - j)) - (p.off + j)) = p.off + bufSize by omega]
    · simp only [Chars.index]
      omega
    · simp only [Chars.index]
      omega
  exact ⟨⟨hmoved.lt, hmoved.nul, hmoved.readString⟩, hheap⟩

/-! ### The tests of the loops -/

theorem Ended.test (hended : Ended p size m bufSize) (hi : i < bufSize)
    (heq : m.andChar true (Chars.index ⟨some p, 0, size⟩ i) c = (is, m')) :
    Ended p size m' bufSize ∧ m'.heap = m.heap ∧ (is = true ↔ m.heap.byte (p.add i) = c) := by
  obtain ⟨hended', hheap, his⟩ := hended.andChar (fun _ => hi.trans hended.lt) heq
  rw [and_iff_right rfl] at his
  exact ⟨hended', hheap, his⟩

private theorem Ended.testIf {P : Prop} [Decidable P] (hended : Ended p size m bufSize)
    (hi : P → i < bufSize)
    (heq : m.andChar (decide P) (Chars.index ⟨some p, 0, size⟩ i) c = (is, m')) :
    Ended p size m' bufSize ∧ m'.heap = m.heap ∧
      (is = true ↔ P ∧ m.heap.byte (p.add i) = c) := by
  obtain ⟨hended', hheap, his⟩ :=
    hended.andChar (fun hP => (hi (of_decide_eq_true hP)).trans hended.lt) heq
  rw [decide_eq_true_iff] at his
  exact ⟨hended', hheap, his⟩

private theorem Ended.testParentIf {P : Prop} [Decidable P] (hended : Ended p size m bufSize)
    (hin : P → i < bufSize ∧ j < bufSize)
    (heq : m.andParent (decide P) ⟨some p, 0, size⟩ i j = (is, m')) :
    Ended p size m' bufSize ∧ m'.heap = m.heap ∧
      (is = true ↔ P ∧ m.heap.byte (p.add i) = dot ∧ m.heap.byte (p.add j) = dot) := by
  obtain ⟨hended', hheap, his⟩ := hended.andParent (fun hP =>
    ⟨(hin (of_decide_eq_true hP)).1.trans hended.lt,
      (hin (of_decide_eq_true hP)).2.trans hended.lt⟩) heq
  rw [decide_eq_true_iff] at his
  exact ⟨hended', hheap, his⟩

/-! ### The loops over the merged path -/

private theorem resolvePointLoop_ended (scan : SegmentScan) (hended : Ended p size m bufSize) :
    Httpaa.resolvePointLoop p m.heap bufSize scan =
        ((resolvePointLoop ⟨some p, 0, size⟩ m bufSize scan).1.heap,
          (resolvePointLoop ⟨some p, 0, size⟩ m bufSize scan).2) ∧
      Ended p size (resolvePointLoop ⟨some p, 0, size⟩ m bufSize scan).1
        (resolvePointLoop ⟨some p, 0, size⟩ m bufSize scan).2 := by
  fun_induction resolvePointLoop ⟨some p, 0, size⟩ m bufSize scan with
  | case1 m bufSize scan hlt m₁ hslash m₂ hpoint ih =>
      obtain ⟨hended₁, hheap₁, his₁⟩ := hended.test hlt hslash
      obtain ⟨hended₂, hheap₂, his₂⟩ := hended₁.testIf (fun _ => by omega) hpoint
      have hsegment : scan.segment ≤ scan.i + 1 := Nat.le_succ_of_le scan.le
      obtain ⟨hended₃, hheap₃⟩ := hended₂.removed hsegment hlt
        (show bufSize - scan.i = bufSize - (scan.i + 1) + 1 by omega)
      obtain ⟨hrun, hleft⟩ := ih hended₃
      rw [hheap₃, hheap₂, hheap₁] at hrun
      rw [hheap₁] at his₂
      refine ⟨?_, hleft⟩
      rw [Httpaa.resolvePointLoop, if_pos hlt, if_pos (his₁.mp rfl), if_pos (his₂.mp rfl), hrun]
  | case2 m bufSize scan hlt m₁ hslash m₂ hpoint ih =>
      obtain ⟨hended₁, hheap₁, his₁⟩ := hended.test hlt hslash
      obtain ⟨hended₂, hheap₂, his₂⟩ := hended₁.testIf (fun _ => by omega) hpoint
      obtain ⟨hrun, hleft⟩ := ih hended₂
      rw [hheap₂, hheap₁] at hrun
      rw [hheap₁] at his₂
      refine ⟨?_, hleft⟩
      rw [Httpaa.resolvePointLoop, if_pos hlt, if_pos (his₁.mp rfl),
        if_neg (his₂.not.mp Bool.false_ne_true), hrun]
  | case3 m bufSize scan hlt m₁ hslash ih =>
      obtain ⟨hended₁, hheap₁, his₁⟩ := hended.test hlt hslash
      obtain ⟨hrun, hleft⟩ := ih hended₁
      rw [hheap₁] at hrun
      refine ⟨?_, hleft⟩
      rw [Httpaa.resolvePointLoop, if_pos hlt, if_neg (his₁.not.mp Bool.false_ne_true), hrun]
  | case4 m bufSize scan hlt m₁ hpoint =>
      obtain ⟨hended₁, hheap₁, his₁⟩ := hended.testIf (fun _ => by omega) hpoint
      have hlast := (his₁.mp rfl).1
      have hstored : (m₁.store (Chars.index ⟨some p, 0, size⟩ scan.segment) 0).heap =
          m.heap.store (p.add scan.segment) 0 := by
        simp [Memory.store, Memory.touch, Chars.index, hheap₁]
      refine ⟨?_, hended₁.lt, ?_, hended₁.inBounds.store ?_⟩
      · rw [Httpaa.resolvePointLoop, if_neg hlt, if_pos (his₁.mp rfl), hstored]
      · have hnul := hended.nul
        rw [hstored]
        simp only [Heap.byte, Heap.store, Ptr.add] at hnul ⊢
        split
        · rfl
        · exact hnul
      · have hsize := hended.lt
        simp only [Chars.index]
        omega
  | case5 m bufSize scan hlt m₁ hpoint =>
      obtain ⟨hended₁, hheap₁, his₁⟩ := hended.testIf (fun _ => by omega) hpoint
      refine ⟨?_, hended₁⟩
      rw [Httpaa.resolvePointLoop, if_neg hlt, if_neg (his₁.not.mp Bool.false_ne_true), hheap₁]

private theorem resolvePointsLoop_ended (scan : SegmentScan) (hended : Ended p size m bufSize) :
    Httpaa.removeSegmentPointsLoop p m.heap bufSize scan =
        ((resolvePointsLoop ⟨some p, 0, size⟩ m bufSize scan).1.heap,
          (resolvePointsLoop ⟨some p, 0, size⟩ m bufSize scan).2) ∧
      Ended p size (resolvePointsLoop ⟨some p, 0, size⟩ m bufSize scan).1
        (resolvePointsLoop ⟨some p, 0, size⟩ m bufSize scan).2 := by
  fun_induction resolvePointsLoop ⟨some p, 0, size⟩ m bufSize scan with
  | case1 m bufSize scan hlt m₁ hslash m₂ hcur ih =>
      obtain ⟨hended₁, hheap₁, his₁⟩ := hended.test hlt hslash
      obtain ⟨hended₂, hheap₂, his₂⟩ := hended₁.testParentIf (fun _ => by omega) hcur
      obtain ⟨hrun, hleft⟩ := ih hended₂
      rw [hheap₂, hheap₁] at hrun
      rw [hheap₁] at his₂
      refine ⟨?_, hleft⟩
      rw [Httpaa.removeSegmentPointsLoop, if_pos hlt, if_pos (his₁.mp rfl), if_pos (his₂.mp rfl),
        hrun]
  | case2 m bufSize scan hlt m₁ hslash m₂ hcur m₃ hahead m₄ hbehind ih =>
      obtain ⟨hended₁, hheap₁, his₁⟩ := hended.test hlt hslash
      obtain ⟨hended₂, hheap₂, his₂⟩ := hended₁.testParentIf (fun _ => by omega) hcur
      obtain ⟨hended₃, hheap₃, his₃⟩ := hended₂.testParentIf (fun _ => by omega) hahead
      obtain ⟨hended₄, hheap₄, his₄⟩ := hended₃.testIf id hbehind
      have hmore := (his₄.mp rfl).1
      have hsegment : scan.segment ≤ scan.i + 4 := scan.le.trans (Nat.le_add_right _ _)
      obtain ⟨hended₅, hheap₅⟩ := hended₄.removed hsegment hmore
        (show bufSize - scan.i - 4 + 1 = bufSize - (scan.i + 4) + 1 by omega)
      obtain ⟨hrun, hleft⟩ := ih hended₅
      rw [hheap₅, hheap₄, hheap₃, hheap₂, hheap₁] at hrun
      rw [hheap₁] at his₂
      rw [hheap₂, hheap₁] at his₃
      rw [hheap₃, hheap₂, hheap₁] at his₄
      refine ⟨?_, hleft⟩
      rw [Httpaa.removeSegmentPointsLoop, if_pos hlt, if_pos (his₁.mp rfl),
        if_neg (his₂.not.mp Bool.false_ne_true), if_pos (his₃.mp rfl), if_pos (his₄.mp rfl), hrun]
  | case3 m scan m₁ hslash m₂ hcur m₃ m₄ hlt hahead hbehind ih =>
      obtain ⟨hended₁, hheap₁, his₁⟩ := hended.test hlt hslash
      obtain ⟨hended₂, hheap₂, his₂⟩ := hended₁.testParentIf (fun _ => by omega) hcur
      obtain ⟨hended₃, hheap₃, his₃⟩ := hended₂.testParentIf (fun _ => by omega) hahead
      obtain ⟨hended₄, hheap₄, his₄⟩ := hended₃.testIf id hbehind
      have hsegment : scan.segment ≤ scan.i + 3 := scan.le.trans (Nat.le_add_right _ _)
      obtain ⟨hended₅, hheap₅⟩ := hended₄.removed hsegment (Nat.le_refl _)
        (show scan.i + 3 - scan.i - 3 + 1 = scan.i + 3 - (scan.i + 3) + 1 by omega)
      obtain ⟨hrun, hleft⟩ := ih hended₅
      rw [hheap₅, hheap₄, hheap₃, hheap₂, hheap₁] at hrun
      rw [hheap₁] at his₂
      rw [hheap₂, hheap₁] at his₃
      rw [hheap₃, hheap₂, hheap₁] at his₄
      refine ⟨?_, hleft⟩
      rw [Httpaa.removeSegmentPointsLoop, if_pos hlt, if_pos (his₁.mp rfl),
        if_neg (his₂.not.mp Bool.false_ne_true), if_pos (his₃.mp rfl),
        if_neg (his₄.not.mp Bool.false_ne_true), if_pos rfl, hrun]
  | case4 m bufSize scan hlt m₁ hslash m₂ hcur m₃ hahead m₄ hbehind hend ih =>
      obtain ⟨hended₁, hheap₁, his₁⟩ := hended.test hlt hslash
      obtain ⟨hended₂, hheap₂, his₂⟩ := hended₁.testParentIf (fun _ => by omega) hcur
      obtain ⟨hended₃, hheap₃, his₃⟩ := hended₂.testParentIf (fun _ => by omega) hahead
      obtain ⟨hended₄, hheap₄, his₄⟩ := hended₃.testIf id hbehind
      obtain ⟨hrun, hleft⟩ := ih hended₄
      rw [hheap₄, hheap₃, hheap₂, hheap₁] at hrun
      rw [hheap₁] at his₂
      rw [hheap₂, hheap₁] at his₃
      rw [hheap₃, hheap₂, hheap₁] at his₄
      refine ⟨?_, hleft⟩
      rw [Httpaa.removeSegmentPointsLoop, if_pos hlt, if_pos (his₁.mp rfl),
        if_neg (his₂.not.mp Bool.false_ne_true), if_pos (his₃.mp rfl),
        if_neg (his₄.not.mp Bool.false_ne_true), if_neg hend, hrun]
  | case5 m bufSize scan hlt m₁ hslash m₂ hcur m₃ hahead ih =>
      obtain ⟨hended₁, hheap₁, his₁⟩ := hended.test hlt hslash
      obtain ⟨hended₂, hheap₂, his₂⟩ := hended₁.testParentIf (fun _ => by omega) hcur
      obtain ⟨hended₃, hheap₃, his₃⟩ := hended₂.testParentIf (fun _ => by omega) hahead
      obtain ⟨hrun, hleft⟩ := ih hended₃
      rw [hheap₃, hheap₂, hheap₁] at hrun
      rw [hheap₁] at his₂
      rw [hheap₂, hheap₁] at his₃
      refine ⟨?_, hleft⟩
      rw [Httpaa.removeSegmentPointsLoop, if_pos hlt, if_pos (his₁.mp rfl),
        if_neg (his₂.not.mp Bool.false_ne_true), if_neg (his₃.not.mp Bool.false_ne_true), hrun]
  | case6 m bufSize scan hlt m₁ hslash ih =>
      obtain ⟨hended₁, hheap₁, his₁⟩ := hended.test hlt hslash
      obtain ⟨hrun, hleft⟩ := ih hended₁
      rw [hheap₁] at hrun
      refine ⟨?_, hleft⟩
      rw [Httpaa.removeSegmentPointsLoop, if_pos hlt, if_neg (his₁.not.mp Bool.false_ne_true), hrun]
  | case7 m bufSize scan hlt => exact ⟨by rw [Httpaa.removeSegmentPointsLoop, if_neg hlt], hended⟩

private theorem startsWithParent_ended (hle : segment ≤ i) (hended : Ended p size m bufSize) :
    (startsWithParent ⟨some p, 0, size⟩ m bufSize i segment).1 =
        Httpaa.startsWithParent p m.heap bufSize i segment ∧
      (startsWithParent ⟨some p, 0, size⟩ m bufSize i segment).2.InBounds := by
  have hlast {m : Memory} {segment : Nat} (hended : Ended p size m bufSize) :
      ((m.andParent (segment + 2 = bufSize) ⟨some p, 0, size⟩ segment (segment + 1)).1 =
        decide (segment + 2 = bufSize ∧ m.heap.byte (p.add segment) = dot ∧
          m.heap.byte (p.add (segment + 1)) = dot)) ∧
      (m.andParent (segment + 2 = bufSize) ⟨some p, 0, size⟩ segment (segment + 1)).2.InBounds := by
    rcases heq : m.andParent (segment + 2 = bufSize) ⟨some p, 0, size⟩ segment (segment + 1) with
      ⟨is, m'⟩
    obtain ⟨hended', -, his⟩ := hended.testParentIf (fun _ => by omega) heq
    exact ⟨Bool.eq_iff_iff.mpr (his.trans decide_eq_true_iff.symm), hended'.inBounds⟩
  fun_induction startsWithParent ⟨some p, 0, size⟩ m bufSize i segment with
  | case1 m i segment hlt m₁ hslash m₂ hparent =>
      obtain ⟨hended₁, hheap₁, his₁⟩ := hended.test hlt hslash
      obtain ⟨hended₂, -, his₂⟩ := hended₁.testParentIf (fun _ => by omega) hparent
      rw [hheap₁] at his₂
      rw [Httpaa.startsWithParent, if_pos hlt, if_pos (his₁.mp rfl), if_pos (his₂.mp rfl)]
      exact ⟨rfl, hended₂.inBounds⟩
  | case2 m i segment hlt m₁ hslash m₂ hparent hpos =>
      obtain ⟨hended₁, hheap₁, his₁⟩ := hended.test hlt hslash
      obtain ⟨hended₂, hheap₂, his₂⟩ := hended₁.testParentIf (fun _ => by omega) hparent
      rw [hheap₁] at his₂
      rw [Httpaa.startsWithParent, if_pos hlt, if_pos (his₁.mp rfl),
        if_neg (his₂.not.mp Bool.false_ne_true), if_pos hpos, ← hheap₁, ← hheap₂]
      exact hlast hended₂
  | case3 m i segment hlt m₁ hslash m₂ hparent hpos ih =>
      obtain ⟨hended₁, hheap₁, his₁⟩ := hended.test hlt hslash
      obtain ⟨hended₂, hheap₂, his₂⟩ := hended₁.testParentIf (fun _ => by omega) hparent
      rw [hheap₁] at his₂
      rw [Httpaa.startsWithParent, if_pos hlt, if_pos (his₁.mp rfl),
        if_neg (his₂.not.mp Bool.false_ne_true), if_neg hpos, ← hheap₁, ← hheap₂]
      exact ih (Nat.le_refl _) hended₂
  | case4 m i segment hlt m₁ hslash ih =>
      obtain ⟨hended₁, hheap₁, his₁⟩ := hended.test hlt hslash
      rw [Httpaa.startsWithParent, if_pos hlt, if_neg (his₁.not.mp Bool.false_ne_true), ← hheap₁]
      exact ih (Nat.le_succ_of_le hle) hended₁
  | case5 m i segment hlt =>
      rw [Httpaa.startsWithParent, if_neg hlt]
      exact hlast hended

/-! ### The merged path -/

private theorem memmove_zero (h : Heap) (p q : Ptr) : h.memmove p q 0 = h := by
  have hnone (block off : Nat) : ¬ (block = p.block ∧ p.off ≤ off ∧ off < p.off + 0) := by omega
  simp only [Heap.memmove, hnone, if_false]

private theorem lastSlash_inBounds (hs : s.Spans h text) (hheap : m.heap = h) (hm : m.InBounds)
    {k : Nat} (hi : i < text.length) (hplain : Httpaa.lastSlash h s i = some k) :
    ∃ m', lastSlash (stringChars s 0) m i = some (k, m') ∧ m'.heap = h ∧ m'.InBounds := by
  obtain ⟨p, hbuf, hholds, -⟩ := hs.holds
  have hchars : stringChars s 0 = ⟨some p, 0, text.length⟩ := by
    rw [stringChars, hbuf, hs.bufSize]
  have htest {m : Memory} {i : Nat} (hheap : m.heap = h) (hm : m.InBounds) (hi : i < text.length) :
      ∃ m', m.andChar true (Chars.index ⟨some p, 0, text.length⟩ i) slash =
        (decide (text[i] = slash), m') ∧ m'.heap = h ∧ m'.InBounds := by
    have hheld := hholds i hi
    rw [List.getElem?_eq_getElem hi, Option.some.injEq, ← hheap] at hheld
    obtain ⟨m', htest, hsame, hbounds⟩ :=
      @andChar_at m slash i p text.length _ hi hheld.symm
    exact ⟨m', htest, hsame.trans hheap, hbounds.mpr hm⟩
  rw [hchars]
  induction i generalizing m with
  | zero =>
      obtain ⟨m', hslash, hsame, hm'⟩ := htest hheap hm hi
      rw [Httpaa.lastSlash, hs.char hi, List.getElem?_eq_getElem hi] at hplain
      by_cases hx : text[0] = slash
      · refine ⟨m', ?_, hsame, hm'⟩
        have hk : 0 = k := by simpa [hx] using hplain
        rw [← hk, lastSlash, hslash, decide_eq_true hx]
      · simp [hx] at hplain
  | succ i ih =>
      obtain ⟨m', hslash, hsame, hm'⟩ := htest hheap hm hi
      rw [Httpaa.lastSlash, hs.char hi, List.getElem?_eq_getElem hi] at hplain
      by_cases hx : text[i + 1] = slash
      · refine ⟨m', ?_, hsame, hm'⟩
        have hk : i + 1 = k := by simpa [hx] using hplain
        rw [← hk, lastSlash, hslash, decide_eq_true hx]
      · have hplain' : Httpaa.lastSlash h s i = some k := by simpa [hx] using hplain
        obtain ⟨m'', hrun, hsame', hm''⟩ := ih hsame hm' (Nat.lt_of_succ_lt hi) hplain'
        refine ⟨m'', ?_, hsame', hm''⟩
        rw [lastSlash, hslash, decide_eq_false hx]
        exact hrun

private theorem basePathCopySize_inBounds (hs : s.SpansPart h found) (hheap : m.heap = h)
    (hm : m.InBounds) (hplain : Httpaa.basePathCopySize h s = some n) :
    ∃ m', basePathCopySize m s = some (n, m') ∧ m'.heap = h ∧ m'.InBounds := by
  by_cases hset : s.isInit = true ∧ s.buf.isSome = true ∧ 0 < s.writePos
  · cases found with
    | none => exact absurd hset.1 (by simp [hs.1])
    | some text =>
        have hspans : s.Spans h text := hs
        have hstart : (if 0 < s.writePos - 1 ∧ s.isNullTerminated = true then s.writePos - 1 - 1
            else s.writePos - 1) = s.writePos - 1 := by
          simp [hspans.isNullTerminated]
        have hi : s.writePos - 1 < text.length := by
          have hpos := hset.2.2
          have hlength := hspans.writePos
          omega
        rw [Httpaa.basePathCopySize, if_pos hset, Option.bind_eq_bind, Option.bind_eq_some_iff]
          at hplain
        obtain ⟨k, hlast, hk⟩ := hplain
        rw [hstart] at hlast
        obtain ⟨m', hrun, hsame, hm'⟩ := lastSlash_inBounds hspans hheap hm hi hlast
        refine ⟨m', ?_, hsame, hm'⟩
        have hk' : k + 1 = n := Option.some.inj hk
        rw [basePathCopySize, if_pos hset]
        simp only [hstart, hrun, Option.bind_eq_bind, Option.bind_some, hk']
        rfl
  · rw [Httpaa.basePathCopySize, if_neg hset, Option.some.injEq] at hplain
    exact ⟨m, by rw [basePathCopySize, if_neg hset, hplain], hheap, hm⟩

private theorem memcpyPath_spec (hm : m.InBounds) (hroom : dst.start + n ≤ dst.size)
    (hn : n ≤ s.bufSize) (hdst : dst.buf = some p)
    (hplain : m.heap.memcpy (p.add dst.start) s.buf n = some h') :
    (m.memcpyPath dst s n).heap = h' ∧ (m.memcpyPath dst s n).InBounds := by
  cases hbuf : s.buf with
  | none =>
      have hzero : n = 0 ∧ m.heap = h' := by simpa [Heap.memcpy, hbuf] using hplain
      rw [Memory.memcpyPath, if_neg (by simp [hbuf])]
      exact ⟨hzero.2, hm⟩
  | some q =>
      have hmoved : m.heap.memmove (p.add dst.start) q n = h' := by
        simpa [Heap.memcpy, hbuf] using hplain
      by_cases hpos : 0 < n
      · rw [Memory.memcpyPath, if_pos ⟨by simp [hbuf], hpos⟩]
        refine ⟨?_, hm.memcpy hroom ?_⟩
        · rw [← hmoved]
          simp [Memory.memcpy, Memory.touch, stringChars, hdst, hbuf]
        · simpa only [stringChars, Nat.zero_add] using hn
      · rw [Memory.memcpyPath, if_neg (by simp [hpos])]
        rw [Nat.eq_zero_of_not_pos hpos, memmove_zero] at hmoved
        exact ⟨hmoved, hm⟩

private theorem spansPart_length_le (hs : s.SpansPart h found) :
    (found.getD []).length ≤ s.bufSize := by
  cases found with
  | none => exact Nat.zero_le _
  | some text => exact Nat.le_of_eq (Stringaa.Spans.bufSize hs).symm

/-- Merging the paths stays in them and in the block of the merged path. -/
theorem uriaaMergePath_inBounds {more : Bool} (hbase : (base.part .absPath).SpansPart h found)
    (hslash : ∀ text, found = some text → slash ∈ text)
    (hrelative : (u.part .relPath).SpansPart h relative) (halloc : (u.part .path).isAlloc = false)
    (hheap : m.heap = h) (hm : m.InBounds)
    (hplain : Httpaa.uriaaMergePath h u base = some (more, h', r)) :
    ∃ m', uriaaMergePath m u base = some (more, m', r) ∧ m'.heap = h' ∧ m'.InBounds := by
  have hbaseSize := basePathCopySize_eq hbase hslash
  have hrelativeSize := relativePathCopySize_eq hrelative
  have hbaseFits : (upToLastSlash (found.getD [])).length ≤ (base.part .absPath).bufSize :=
    (upToLastSlash_isPrefix _).length_le.trans (spansPart_length_le hbase)
  have hrelativeFits : (relative.getD []).length ≤ (u.part .relPath).bufSize :=
    spansPart_length_le hrelative
  obtain ⟨m₀, hbaseRun, hheap₀, hm₀⟩ := basePathCopySize_inBounds hbase hheap hm hbaseSize
  generalize hi : (upToLastSlash (found.getD [])).length = i at hbaseSize hbaseFits hbaseRun
  generalize hj : (relative.getD []).length = j at hrelativeSize hrelativeFits
  -- the block of the merged path
  have hblock : h.alloc (i + j + 1) =
      ((m₀.malloc (i + j + 1)).1, (m₀.malloc (i + j + 1)).2.heap) := by
    rw [← hheap₀]
    rfl
  have hm₁ : (m₀.malloc (i + j + 1)).2.InBounds := hm₀
  rcases hmalloc : m₀.malloc (i + j + 1) with ⟨p, m₁⟩
  rw [hmalloc] at hblock hm₁
  simp only [Httpaa.uriaaMergePath, hbaseSize, hrelativeSize, hblock, halloc, Bool.false_eq_true,
    if_false, Option.bind_eq_bind, Option.bind_some, Option.bind_eq_some_iff] at hplain
  obtain ⟨h₂, hcopy₂, h₃, hcopy₃, hplain⟩ := hplain
  -- the copies, and the NUL behind them
  generalize hbuf : (⟨some p, 0, i + j + 1⟩ : Chars) = buf
  have hbufStart : buf.buf = some p ∧ buf.start = 0 ∧ buf.size = i + j + 1 := by
    rw [← hbuf]
    exact ⟨rfl, rfl, rfl⟩
  obtain ⟨hheap₂, hm₂⟩ : (m₁.memcpyPath buf (base.part .absPath) i).heap = h₂ ∧
      (m₁.memcpyPath buf (base.part .absPath) i).InBounds := by
    refine memcpyPath_spec hm₁ (by omega) hbaseFits hbufStart.1 ?_
    rw [hbufStart.2.1]
    exact hcopy₂
  generalize hcopied₂ : m₁.memcpyPath buf (base.part .absPath) i = m₂ at hheap₂ hm₂
  obtain ⟨hheap₃, hm₃⟩ : (m₂.memcpyPath (buf.index i) (u.part .relPath) j).heap = h₃ ∧
      (m₂.memcpyPath (buf.index i) (u.part .relPath) j).InBounds := by
    refine memcpyPath_spec hm₂ ?_ hrelativeFits hbufStart.1 ?_
    · simp only [Chars.index]
      omega
    · simp only [Chars.index, hbufStart.2.1, Nat.zero_add]
      rw [hheap₂]
      exact hcopy₃
  generalize hcopied₃ : m₂.memcpyPath (buf.index i) (u.part .relPath) j = m₃ at hheap₃ hm₃
  have hstored : (m₃.store (buf.index (i + j + 1 - 1)) 0).heap =
      h₃.store (p.add (i + j + 1 - 1)) 0 := by
    simp [Memory.store, Memory.touch, Chars.index, hbufStart, hheap₃]
  have hended : Ended p (i + j + 1) (m₃.store (buf.index (i + j + 1 - 1)) 0) (i + j + 1 - 1) := by
    refine ⟨Nat.lt_succ_self _, by rw [hstored, Heap.store_byte], hm₃.store ?_⟩
    simp only [Chars.index]
    omega
  -- the loops
  obtain ⟨hfirst, hended₄⟩ := resolvePointLoop_ended .start hended
  rw [hstored, hbuf] at hfirst
  rw [hbuf] at hended₄
  obtain ⟨hsecond, hended₅⟩ := resolvePointsLoop_ended .start hended₄
  rw [hbuf] at hsecond hended₅
  obtain ⟨hstarts, hm₆⟩ := startsWithParent_ended (Nat.le_refl 0) hended₅
  rw [hbuf] at hstarts hm₆
  simp only [hfirst, hsecond, ← hstarts] at hplain
  have hresult := Option.some.inj hplain
  simp only [Prod.mk.injEq] at hresult
  refine ⟨_, ?_, startsWithParent_heap.trans hresult.2.1, hm₆⟩
  simp only [uriaaMergePath, hbaseRun, hrelativeSize, hmalloc, hbuf, hcopied₂, hcopied₃, halloc,
    Bool.false_eq_true, if_false, Option.bind_eq_bind, Option.bind_some]
  rw [← hresult.1, ← hresult.2.2]
  rfl

/-! ### The resolved reference -/

/-- The same characters as in the plain memory are written, inside the buffer as long as they
fit. -/
structure Copied (size : Nat) (out : Memory × Nat) (plain : Heap × Nat) : Prop where
  heap : out.1.heap = plain.1
  pos : out.2 = plain.2
  inBounds : out.2 ≤ size → out.1.InBounds

variable {out : Memory × Nat} {plain plain' : Heap × Nat}

theorem Copied.chars (hout : Copied size out plain) (text : List UInt8) :
    Copied size (copyChars ⟨some p, 0, size⟩ text out) (Httpaa.copyChars p text plain) := by
  refine ⟨?_, congrArg (· + text.length) hout.pos, fun hfits => ?_⟩
  · simp [copyChars, Httpaa.copyChars, Memory.touch, Chars.index, hout.heap, hout.pos]
  · have hfits' : out.2 + text.length ≤ size := hfits
    rw [copyChars, Memory.inBounds_touch]
    refine ⟨Access.inBounds_of_le ?_, hout.inBounds (Nat.le_of_add_right_le hfits')⟩
    simpa only [Chars.index, Nat.zero_add] using hfits'

theorem Copied.string (hout : Copied size out plain) (hs : s.copySize ≤ s.bufSize)
    (hplain : Httpaa.copyString p s plain = some plain') :
    Copied size (copyString ⟨some p, 0, size⟩ s out) plain' := by
  rw [Httpaa.copyString, Option.bind_eq_bind, Option.bind_eq_some_iff] at hplain
  obtain ⟨h', hcopy, hplain'⟩ := hplain
  rw [← Option.some.inj hplain']
  refine ⟨?_, congrArg (· + s.copySize) hout.pos, fun hfits => ?_⟩
  · rw [← hout.heap, ← hout.pos] at hcopy
    cases hbuf : s.buf with
    | none =>
        have hsame : s.copySize = 0 ∧ out.1.heap = h' := by
          simpa [Heap.memcpy, hbuf] using hcopy
        rw [← hsame.2]
        simp [copyString, Memory.memcpy, Memory.touch, stringChars, hbuf]
    | some q =>
        have hmoved : out.1.heap.memmove (p.add out.2) q s.copySize = h' := by
          simpa [Heap.memcpy, hbuf] using hcopy
        rw [← hmoved]
        simp [copyString, Memory.memcpy, Memory.touch, Chars.index, stringChars, hbuf]
  · have hfits' : out.2 + s.copySize ≤ size := hfits
    refine (hout.inBounds (Nat.le_of_add_right_le hfits')).memcpy ?_ ?_
    · simpa only [Chars.index, Nat.zero_add] using hfits'
    · simpa only [stringChars, Nat.zero_add] using hs

theorem Copied.part (hout : Copied size out plain) (hs : s.copySize ≤ s.bufSize)
    (hplain : Httpaa.copyPart p front back s plain = some plain') :
    Copied size (copyPart ⟨some p, 0, size⟩ front back s out) plain' := by
  by_cases hset : s.isInit = true
  · rw [Httpaa.copyPart, if_pos hset, Option.bind_eq_bind, Option.bind_eq_some_iff] at hplain
    obtain ⟨plain₁, hcopy, hplain'⟩ := hplain
    rw [← Option.some.inj hplain', copyPart, if_pos hset]
    exact ((hout.chars front).string hs hcopy).chars back
  · rw [Httpaa.copyPart, if_neg hset, Option.some.injEq] at hplain
    rw [← hplain, copyPart, if_neg hset]
    exact hout

/-- If the plain memory ends up with a NUL inside the new block, all accesses were inside, and that
was the last one. -/
theorem uriaaAssemble_inBounds {isPathTaken : Bool} {result : ResolveResult}
    (hfits : ∀ part, (u.part part).copySize ≤ (u.part part).bufSize) (hheap : m.heap = h)
    (hm : m.InBounds) (hplain : Httpaa.uriaaAssemble h u isPathTaken = some (result, h', r))
    (hroom : r.uri.readPos < r.uri.bufSize) :
    ∃ m', uriaaAssemble m u isPathTaken = (result, m', r) ∧ m'.heap = h' ∧ m'.InBounds ∧
      m'.log.head? = some ⟨r.uri.readPos, 1, r.uri.bufSize⟩ := by
  rw [← hheap] at hplain
  generalize hsize : resolvedSize u isPathTaken = size
  generalize hbuf : (m.heap.alloc size).1 = buf at hplain
  have hsteps : ∃ out₁, Httpaa.copyPart buf [] [ch ':'] (u.part .scheme)
        ((m.heap.alloc size).2, 0) = some out₁ ∧
      ∃ out₂, Httpaa.copyPart buf [ch '/', ch '/'] [] (u.part .authority) out₁ = some out₂ ∧
      ∃ out₃, (if isPathTaken then Httpaa.copyString buf (u.part .absPath) out₂
        else Httpaa.copyPart buf [] [] (u.part .path) out₂) = some out₃ ∧
      ∃ out₄, Httpaa.copyPart buf [ch '?'] [] (u.part .query) out₃ = some out₄ ∧
      ∃ out₅, Httpaa.copyPart buf [ch '#'] [] (u.part .fragment) out₄ = some out₅ ∧
        pure (ResolveResult.resolved, out₅.1.store (buf.add out₅.2) 0, { u with uri :=
          { buf := some buf, bufSize := size, readPos := out₅.2, writePos := size - 1
            isInit := true, isAlloc := true, isNullTerminated := true } }) =
              some (result, h', r) := by
    rw [← hbuf]
    cases isPathTaken with
    | true =>
        simpa only [Httpaa.uriaaAssemble, hsize, Option.bind_eq_bind, Option.bind_eq_some_iff,
          if_true] using hplain
    | false =>
        simpa only [Httpaa.uriaaAssemble, hsize, Option.bind_eq_bind, Option.bind_eq_some_iff,
          Bool.false_eq_true, if_false] using hplain
  obtain ⟨out₁, hcopy₁, out₂, hcopy₂, out₃, hcopy₃, out₄, hcopy₄, out₅, hcopy₅, hend⟩ := hsteps
  have hstart : Copied size ((m.malloc size).2, 0) ((m.heap.alloc size).2, 0) :=
    ⟨rfl, rfl, fun _ => hm⟩
  have hcopied₂ := (hstart.part (hfits .scheme) hcopy₁).part (hfits .authority) hcopy₂
  generalize htraced₂ : copyPart ⟨some buf, 0, size⟩ [ch '/', ch '/'] [] (u.part .authority)
    (copyPart ⟨some buf, 0, size⟩ [] [ch ':'] (u.part .scheme) ((m.malloc size).2, 0)) = traced₂
    at hcopied₂
  have hcopied₃ : Copied size (if isPathTaken then
      copyString ⟨some buf, 0, size⟩ (u.part .absPath) traced₂
      else copyPart ⟨some buf, 0, size⟩ [] [] (u.part .path) traced₂) out₃ := by
    cases isPathTaken with
    | true => exact hcopied₂.string (hfits .absPath) hcopy₃
    | false => exact hcopied₂.part (hfits .path) hcopy₃
  have hcopied := (hcopied₃.part (hfits .query) hcopy₄).part (hfits .fragment) hcopy₅
  generalize htraced : copyPart ⟨some buf, 0, size⟩ [ch '#'] [] (u.part .fragment)
    (copyPart ⟨some buf, 0, size⟩ [ch '?'] [] (u.part .query) (if isPathTaken then
      copyString ⟨some buf, 0, size⟩ (u.part .absPath) traced₂
      else copyPart ⟨some buf, 0, size⟩ [] [] (u.part .path) traced₂)) = traced at hcopied
  obtain ⟨rfl, rfl, rfl⟩ : ResolveResult.resolved = result ∧
      out₅.1.store (buf.add out₅.2) 0 = h' ∧ _ = r := by
    simpa only [Option.pure_def, Option.some.injEq, Prod.mk.injEq] using hend
  have hlt : traced.2 < size := hcopied.pos ▸ hroom
  refine ⟨traced.1.store (Chars.index ⟨some buf, 0, size⟩ traced.2) 0, ?_, ?_, ?_, ?_⟩
  · simp only [uriaaAssemble, hsize]
    rw [show (m.malloc size).1 = buf from hbuf, htraced₂, htraced, hcopied.pos]
  · simp [Memory.store, Memory.touch, Chars.index, hcopied.heap, hcopied.pos]
  · refine (hcopied.inBounds (Nat.le_of_lt hlt)).store ?_
    simpa only [Chars.index, Nat.zero_add] using hlt
  · simp [Memory.store, Memory.touch, Chars.index, hcopied.pos]

/-! ### References from the parser -/

/-- Every component is a slice of its form, or not set. -/
def PartsRead (h : Heap) (u : Uriaa) : Prop :=
  ∀ part, ∃ found, (u.part part).SpansPart h found ∧ ∀ piece, found = some piece →
  PartForm part piece

/-- A string that is set lies in its block. -/
def InBlock (h : Heap) (s : Stringaa) : Prop :=
  s.isInit = true → ∃ p, s.buf = some p ∧ p.off + s.bufSize ≤ h.size p.block

/-- The last access ended the resolved reference, inside its block. -/
def EndsInside (m : Memory) (s : Stringaa) : Prop :=
  InBlock m.heap s ∧ s.readPos < s.bufSize ∧ m.log.head? = some ⟨s.readPos, 1, s.bufSize⟩

/-- `uriaa_resolve_uri` comes to an end and does to the memory what the plain one does, with every
access inside its buffer; a resolved reference is ended inside its own. -/
def ResolvesInside (h : Heap) (u base : Uriaa) : Prop :=
  ∃ result m r, uriaaResolveUri ⟨h, []⟩ u base = some (result, m, r) ∧
    Httpaa.uriaaResolveUri h u base = some (result, m.heap, r) ∧ m.InBounds ∧
    (result = .resolved → EndsInside m r.uri)

private theorem readFrom_partsRead {ok : Bool} (hheap : h.WellFormed) (hu : u.ReadFrom h text ok) :
    PartsRead h u := fun part =>
  ⟨_, (hu.spansPart hheap part).1, fun piece hpiece =>
    ((hu.spansPart hheap part).2 piece hpiece).2⟩

theorem PartsRead.inherit (hu : PartsRead h u) (hbase : PartsRead h base) (part : UriPart) :
    PartsRead h (u.inherit base part) := by
  intro other
  by_cases hother : other = part
  · subst hother
    obtain ⟨found, hspans, hform⟩ := hbase other
    exact ⟨found, inherit_spansPart hspans, hform⟩
  · rw [inherit_part_of_ne hother]
    exact hu other

theorem PartsRead.fits (hu : PartsRead h u) (part : UriPart) :
    (u.part part).copySize ≤ (u.part part).bufSize := by
  obtain ⟨found, hspans, -⟩ := hu part
  have hle := (u.part part).copySize_le
  cases found with
  | none =>
      rw [hspans.2.2.2] at hle
      exact hle.trans (Nat.zero_le _)
  | some text =>
      have hs : (u.part part).Spans h text := hspans
      rw [hs.bufSize, ← hs.writePos]
      exact hle

private theorem PartsRead.inBlock (hu : PartsRead h u) (part : UriPart) :
    InBlock h (u.part part) := by
  intro hset
  obtain ⟨found, hspans, -⟩ := hu part
  cases found with
  | none => exact absurd hset (by simp [hspans.1])
  | some text =>
      have hs : (u.part part).Spans h text := hspans
      obtain ⟨src, hbuf, -, -, hsize⟩ := hs.holds
      exact ⟨src, hbuf, hs.bufSize ▸ hsize⟩

private theorem isAbsolutePath_inBounds (hu : PartsRead h u) (hheap : m.heap = h)
    (hm : m.InBounds) :
    ∃ is m', isAbsolutePath m u = (is, m') ∧ u.isAbsolutePath h = some is ∧ m'.heap = h ∧
      m'.InBounds := by
  by_cases hpath : (u.part .absPath).isInit = true ∧ (u.part .relPath).isInit = false
  · exact ⟨true, m, by rw [isAbsolutePath, if_pos hpath],
      by rw [Uriaa.isAbsolutePath, if_pos hpath], hheap, hm⟩
  obtain ⟨found, hspans, hform⟩ := hu .opaquePart
  rw [isAbsolutePath, if_neg hpath, Uriaa.isAbsolutePath, if_neg hpath]
  cases found with
  | none =>
      have hunset : (u.part .opaquePart).isInit = false := hspans.1
      exact ⟨false, m, by simp [hunset, Memory.andChar], by simp [hunset], hheap, hm⟩
  | some text =>
      have hs : (u.part .opaquePart).Spans h text := hspans
      have hpos := List.length_pos_iff.mpr ((hform text rfl).opaquePart rfl)
      obtain ⟨p, hbuf, hholds, -⟩ := hs.holds
      have hheld := hholds 0 hpos
      rw [List.getElem?_eq_getElem hpos, Option.some.injEq, ← hheap] at hheld
      obtain ⟨m', htest, hsame, hbounds⟩ := @andChar_at m slash 0 p text.length _ hpos hheld.symm
      refine ⟨decide (text[0] = slash), m', ?_, ?_, hsame.trans hheap, hbounds.mpr hm⟩
      · rw [stringChars, hbuf, hs.bufSize, hs.isInit]
        exact htest
      · rw [if_pos ⟨hs.isInit, by simp [hbuf]⟩, hs.char hpos, List.getElem?_eq_getElem hpos]
        rfl

private theorem uriaaAssemble_endsInside {scheme authority query fragment : Option (List UInt8)}
    {path : List UInt8} {isPathTaken : Bool}
    (hscheme : (u.part .scheme).OffersPart h scheme)
    (hauthority : (u.part .authority).OffersPart h authority)
    (hpath : if isPathTaken then (u.part .absPath).Offers h path
      else (u.part .path).OffersPart h (some path))
    (hquery : (u.part .query).OffersPart h query)
    (hfragment : (u.part .fragment).OffersPart h fragment)
    (hfits : ∀ part, (u.part part).copySize ≤ (u.part part).bufSize) (hheap : m.heap = h)
    (hm : m.InBounds) :
    ∃ m' r, uriaaAssemble m u isPathTaken = (.resolved, m', r) ∧
      Httpaa.uriaaAssemble h u isPathTaken = some (.resolved, m'.heap, r) ∧ m'.InBounds ∧
      EndsInside m' r.uri := by
  obtain ⟨h', hplain, -, hsize, hroom⟩ :=
    uriaaAssemble_holds hscheme hauthority hpath hquery hfragment
  obtain ⟨m', hrun, hheap', hm', hlast⟩ := uriaaAssemble_inBounds hfits hheap hm hplain hroom
  refine ⟨m', _, hrun, by rw [hheap']; exact hplain, hm', fun _ => ⟨_, rfl, ?_⟩, hroom, hlast⟩
  rw [hheap', hsize]
  exact Nat.le_of_eq (Nat.zero_add _)

private theorem spansPart_offers (hs : s.SpansPart h found) : s.Offers h (found.getD []) := by
  cases found with
  | none =>
      have hle := s.copySize_le
      rw [hs.2.2.2] at hle
      exact ⟨Nat.le_zero.mp hle, fun hne => absurd rfl hne⟩
  | some text => exact (Stringaa.Spans.offers hs (.refl ..))

theorem uriaaAssemble_taken (hv : PartsRead h v) (hheap : m.heap = h) (hm : m.InBounds) :
    ∃ m' r, uriaaAssemble m v true = (.resolved, m', r) ∧
      Httpaa.uriaaAssemble h v true = some (.resolved, m'.heap, r) ∧ m'.InBounds ∧
      EndsInside m' r.uri := by
  have hrefl : h.SameBeside h h.next := .refl ..
  obtain ⟨scheme, hscheme, -⟩ := hv .scheme
  obtain ⟨authority, hauthority, -⟩ := hv .authority
  obtain ⟨path, hpath, -⟩ := hv .absPath
  obtain ⟨query, hquery, -⟩ := hv .query
  obtain ⟨fragment, hfragment, -⟩ := hv .fragment
  have hpathOffers : if true = true then (v.part .absPath).Offers h (path.getD [])
      else (v.part .path).OffersPart h (some (path.getD [])) := spansPart_offers hpath
  exact uriaaAssemble_endsInside (hscheme.offersPart hrefl) (hauthority.offersPart hrefl)
    hpathOffers (hquery.offersPart hrefl) (hfragment.offersPart hrefl) hv.fits hheap hm

private theorem uriaaMergePath_resolves (hbase : PartsRead h base) (hv : PartsRead h v)
    (hheap : m.heap = h) (hm : m.InBounds) :
    ∃ result m' r,
      ((uriaaMergePath m v base).bind fun merged =>
        if merged.1 then some (uriaaAssemble merged.2.1 merged.2.2 false)
        else some (.failed, merged.2.1, merged.2.2)) = some (result, m', r) ∧
      ((Httpaa.uriaaMergePath h v base).bind fun merged =>
        if merged.1 then Httpaa.uriaaAssemble merged.2.1 merged.2.2 false
        else some (.failed, merged.2.1, merged.2.2)) = some (result, m'.heap, r) ∧
      m'.InBounds ∧ (result = .resolved → EndsInside m' r.uri) := by
  obtain ⟨found, hbasePath, hform⟩ := hbase .absPath
  obtain ⟨relative, hrelative, -⟩ := hv .relPath
  have hslash : ∀ text, found = some text → slash ∈ text := fun text htext =>
    List.mem_of_head? ((hform text htext).absPath rfl)
  have halloc : (v.part .path).isAlloc = false := by
    obtain ⟨own, hown, -⟩ := hv .path
    cases own with
    | none => exact hown.2.2.1
    | some text => exact Stringaa.Spans.isAlloc hown
  generalize hleft : Text.inLine (upToLastSlash (found.getD []) ++ relative.getD []) = left
  obtain ⟨h₁, w, hmerge, hmerged, hmergedFits, hkept, hsame⟩ :=
    uriaaMergePath_offers hbasePath hslash hrelative halloc hleft
  obtain ⟨m₁, hrun, hheap₁, hm₁⟩ :=
    uriaaMergePath_inBounds hbasePath hslash hrelative halloc hheap hm hmerge
  rw [hrun, hmerge, Option.bind_some, Option.bind_some]
  cases hgoes : !Text.startsWithParent [] left with
  | false =>
      have hfailed : ResolveResult.failed ≠ .resolved := by decide
      exact ⟨.failed, m₁, _, rfl, by rw [hheap₁]; rfl, hm₁, fun heq => absurd heq hfailed⟩
  | true =>
      have hoffers {part : UriPart} {piece : Option (List UInt8)} (hpart : part ≠ .path)
          (hs : (v.part part).SpansPart h piece) : (w.part part).OffersPart h₁ piece := by
        rw [hkept part hpart]
        exact hs.offersPart hsame
      have hfits (part : UriPart) : (w.part part).copySize ≤ (w.part part).bufSize := by
        by_cases hpart : part = .path
        · rw [hpart]
          exact hmergedFits
        · rw [hkept part hpart]
          exact hv.fits part
      have hpath : if false = true then (w.part .absPath).Offers h₁ left.dropLast
          else (w.part .path).OffersPart h₁ (some left.dropLast) := hmerged
      obtain ⟨scheme, hscheme, -⟩ := hv .scheme
      obtain ⟨authority, hauthority, -⟩ := hv .authority
      obtain ⟨query, hquery, -⟩ := hv .query
      obtain ⟨fragment, hfragment, -⟩ := hv .fragment
      obtain ⟨m', r, htraced, hplain, hm', hends⟩ := uriaaAssemble_endsInside
        (hoffers (by decide) hscheme) (hoffers (by decide) hauthority) hpath
        (hoffers (by decide) hquery) (hoffers (by decide) hfragment) hfits hheap₁ hm₁
      exact ⟨.resolved, m', r, congrArg some htraced, hplain, hm', fun _ => hends⟩

/-- For every base and every reference that the parser has read, whether it has accepted them or
not, resolving comes to an end and every access stays inside its buffer: the slices of the
components, which lie in the blocks they point into, the merged path and the resolved reference. -/
theorem uriaaResolveUri_inside (h : Heap) (u base : Uriaa) (baseText relativeText : List UInt8)
    (isBase isRelative : Bool) (hheap : h.WellFormed) (hbase : base.ReadFrom h baseText isBase)
    (hu : u.ReadFrom h relativeText isRelative) :
    ResolvesInside h u base ∧
      ∀ part, InBlock h (base.part part) ∧ InBlock h (u.part part) := by
  have hbaseParts := readFrom_partsRead hheap hbase
  have huParts := readFrom_partsRead hheap hu
  refine ⟨?_, fun part => ⟨hbaseParts.inBlock part, huParts.inBlock part⟩⟩
  have hm : (Memory.mk h []).InBounds := fun access hmem => absurd hmem List.not_mem_nil
  rw [ResolvesInside]
  rcases hdocument : u.isCurrentDocument with _ | _
  case true => exact ⟨.isCurrentDocument, ⟨h, []⟩, u, by simp [uriaaResolveUri, hdocument],
      by simp [Httpaa.uriaaResolveUri, hdocument], hm, fun heq => absurd heq (by decide)⟩
  rcases hscheme : (u.part .scheme).isInit with _ | _
  case true => exact ⟨.isAbsoluteUri, ⟨h, []⟩, u, by simp [uriaaResolveUri, hdocument, hscheme],
      by simp [Httpaa.uriaaResolveUri, hdocument, hscheme], hm, fun heq => absurd heq (by decide)⟩
  simp only [uriaaResolveUri, Httpaa.uriaaResolveUri, hdocument, hscheme, Bool.false_eq_true,
    if_false]
  have hfirst := huParts.inherit hbaseParts .scheme
  cases hauthority : ((u.inherit base .scheme).part .authority).isInit with
  | true =>
      obtain ⟨m', r, hrun, hplain, hm', hends⟩ := uriaaAssemble_taken hfirst rfl hm
      exact ⟨_, m', r, congrArg some hrun, hplain, hm', fun _ => hends⟩
  | false =>
      have hv := hfirst.inherit hbaseParts .authority
      generalize (u.inherit base .scheme).inherit base .authority = v at hv
      obtain ⟨isAbsolute, m₁, habsolute, hplainAbsolute, hheap₁, hm₁⟩ :=
        isAbsolutePath_inBounds hv rfl hm
      simp only [Bool.false_eq_true, if_false, habsolute, hplainAbsolute, Option.bind_eq_bind,
        Option.bind_some]
      cases isAbsolute with
      | true =>
          obtain ⟨m', r, hrun, hplain, hm', hends⟩ := uriaaAssemble_taken hv hheap₁ hm₁
          exact ⟨_, m', r, congrArg some hrun, hplain, hm', fun _ => hends⟩
      | false => exact uriaaMergePath_resolves hbaseParts hv hheap₁ hm₁

/-- `b/c` against `h://a/b`, both slices of one text. -/
theorem uriaaResolveUri_inside_merged : ∃ u base : Uriaa,
    ResolvesInside (.ofText sampleText) u base ∧ ∀ part,
      InBlock (.ofText sampleText) (base.part part) ∧
      InBlock (.ofText sampleText) (u.part part) := by
  obtain ⟨base, hbase, -⟩ := sampleSlice_parsed 0 7 (by decide)
    (some [ch 'h']) (some [ch 'a']) none (some [ch '/', ch 'b']) (by decide) (by decide)
  obtain ⟨u, hu, -⟩ := sampleSlice_parsed 6 3 (by decide)
    none none (some [ch 'b', ch '/', ch 'c']) (some [ch '/', ch 'c']) (by decide) (by decide)
  exact ⟨u, base, uriaaResolveUri_inside _ u base _ _ true true (Heap.ofText_wellFormed _)
    hbase.readFrom hu.readFrom⟩

end

end Httpaa.Traced
