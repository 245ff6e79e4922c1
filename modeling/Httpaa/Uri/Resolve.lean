import Httpaa.Strings.Buffer

/-!
# Removing dot segments in place

`uriaa_remove_segment_point` and `uriaa_remove_segment_points` scan a buffer for `/` and close the
gap of a removed segment with `memmove`. On the text that stands in the buffer a scan has passed the
segments in front of the marker `segment`, then what it has read of the current one, and has the
rest still to read; the functions on texts below are the loops in these terms.

The counters are natural numbers: a text of 2^31 characters, for which the `int` index of the source
is too small, is outside the model.
-/

namespace Httpaa

def slash : UInt8 := ch '/'

def dot : UInt8 := ch '.'

def parent : List UInt8 := [dot, dot]

/-- The positions of a scan: where the current segment starts and where it reads. -/
structure SegmentScan where
  segment : Nat
  i : Nat
  le : segment ≤ i

namespace SegmentScan

def start : SegmentScan := ⟨0, 0, Nat.le_refl 0⟩

/-- `i_s++`. -/
def nextChar (scan : SegmentScan) : SegmentScan :=
  ⟨scan.segment, scan.i + 1, Nat.le_succ_of_le scan.le⟩

/-- `segment_s = i_s + 1`, `i_s++`. -/
def nextSegment (scan : SegmentScan) : SegmentScan := ⟨scan.i + 1, scan.i + 1, Nat.le_refl _⟩

/-- `i_s = segment_s`. -/
def back (scan : SegmentScan) : SegmentScan := ⟨scan.segment, scan.segment, Nat.le_refl _⟩

end SegmentScan

/-- The loop of `uriaa_remove_segment_point`, and the test behind it. -/
def removeSegmentPointLoop (buf : Ptr) (h : Heap) (bufSize : Nat) (scan : SegmentScan) : Heap :=
  if scan.i < bufSize then
    if h.byte (buf.add scan.i) = slash then
      if scan.i - scan.segment = 1 ∧ h.byte (buf.add (scan.i - 1)) = dot then
        removeSegmentPointLoop buf
          (h.memmove (buf.add scan.segment) (buf.add (scan.i + 1)) (bufSize - scan.i))
          (bufSize - (scan.i + 1 - scan.segment)) scan.back
      else removeSegmentPointLoop buf h bufSize scan.nextSegment
    else removeSegmentPointLoop buf h bufSize scan.nextChar
  else if scan.segment + 1 = bufSize ∧ h.byte (buf.add scan.segment) = dot then
    h.store (buf.add scan.segment) 0
  else h
termination_by (bufSize, bufSize - scan.i)
decreasing_by
  · have hle := scan.le
    exact Prod.Lex.left _ _ (by omega)
  · exact Prod.Lex.right _ (by simp only [SegmentScan.nextSegment]; omega)
  · exact Prod.Lex.right _ (by simp only [SegmentScan.nextChar]; omega)

def uriaaRemoveSegmentPoint (h : Heap) (s : Stringaa) : Option (Bool × Heap) := do
  let buf ← s.buf
  return (true, removeSegmentPointLoop buf h s.bufSize .start)

/-- The loop of `uriaa_remove_segment_points`; the size of what is left. After a removal the scan
starts again. -/
def removeSegmentPointsLoop (buf : Ptr) (h : Heap) (bufSize : Nat) (scan : SegmentScan) :
    Heap × Nat :=
  if scan.i < bufSize then
    if h.byte (buf.add scan.i) = slash then
      -- the segment is `../`
      if scan.i - scan.segment = 2 ∧ h.byte (buf.add (scan.i - 1)) = dot ∧
          h.byte (buf.add (scan.i - 2)) = dot then
        removeSegmentPointsLoop buf h bufSize scan.nextSegment
      else if scan.i + 2 < bufSize ∧ h.byte (buf.add (scan.i + 1)) = dot ∧
          h.byte (buf.add (scan.i + 2)) = dot then
        -- the segment is `<segment>/../`
        if scan.i + 3 < bufSize ∧ h.byte (buf.add (scan.i + 3)) = slash then
          removeSegmentPointsLoop buf
            (h.memmove (buf.add scan.segment) (buf.add (scan.i + 4)) (bufSize - scan.i - 4 + 1))
            (bufSize - (scan.i + 4 - scan.segment)) .start
        -- the segment is `<segment>/..$`
        else if scan.i + 3 = bufSize then
          removeSegmentPointsLoop buf
            (h.memmove (buf.add scan.segment) (buf.add (scan.i + 3)) (bufSize - scan.i - 3 + 1))
            (bufSize - (scan.i + 3 - scan.segment)) .start
        else removeSegmentPointsLoop buf h bufSize scan.nextChar
      else removeSegmentPointsLoop buf h bufSize scan.nextSegment
    else removeSegmentPointsLoop buf h bufSize scan.nextChar
  else (h, bufSize)
termination_by (bufSize, bufSize - scan.i)
decreasing_by
  · exact Prod.Lex.right _ (by simp only [SegmentScan.nextSegment]; omega)
  · have hle := scan.le
    exact Prod.Lex.left _ _ (by omega)
  · have hle := scan.le
    exact Prod.Lex.left _ _ (by omega)
  · exact Prod.Lex.right _ (by simp only [SegmentScan.nextChar]; omega)
  · exact Prod.Lex.right _ (by simp only [SegmentScan.nextSegment]; omega)
  · exact Prod.Lex.right _ (by simp only [SegmentScan.nextChar]; omega)

/-- `uriaa_remove_segment_points`. Its closing loop only chooses between returns of the same
value. -/
def uriaaRemoveSegmentPoints (h : Heap) (s : Stringaa) : Option (Bool × Heap × Stringaa) := do
  let buf ← s.buf
  let (h, bufSize) := removeSegmentPointsLoop buf h s.bufSize .start
  return (true, h, { s with bufSize := bufSize + 1 })

end Httpaa

/-! ### The scans on texts -/

namespace Httpaa.Text

/-- The loop of `uriaa_remove_segment_point`: `done` is what it keeps in front of the current
segment, `cur` what it has read of that, `todo` the rest. -/
def removeSegmentPoint (done cur : List UInt8) : List UInt8 → List UInt8
  | [] => done ++ cur
  | x :: todo =>
    if x = slash then
      if cur = [dot] then removeSegmentPoint done [] todo
      else removeSegmentPoint (done ++ cur ++ [x]) [] todo
    else removeSegmentPoint done (cur ++ [x]) todo

def removeSegmentPoints (done cur : List UInt8) : List UInt8 → List UInt8
  | [] => done ++ cur
  | x :: todo =>
    if x = slash then
      if cur = parent then removeSegmentPoints (done ++ cur ++ [x]) [] todo
      else if parent <+: todo then
        if parent ++ [slash] <+: todo then removeSegmentPoints [] [] (done ++ todo.drop 3)
        else if todo = parent then removeSegmentPoints [] [] done
        else removeSegmentPoints done (cur ++ [x]) todo
      else removeSegmentPoints (done ++ cur ++ [x]) [] todo
    else removeSegmentPoints done (cur ++ [x]) todo
termination_by todo => (done.length + cur.length + todo.length, todo.length)
decreasing_by
  · simp only [List.length_append, List.length_cons, List.length_nil]
    rw [show done.length + cur.length + (0 + 1) + 0 + todo.length =
      done.length + cur.length + (todo.length + 1) by omega]
    exact Prod.Lex.right _ (Nat.lt_succ_self _)
  · refine Prod.Lex.left _ _ ?_
    simp only [List.length_append, List.length_cons, List.length_nil, List.length_drop]
    omega
  · refine Prod.Lex.left _ _ ?_
    simp only [List.length_cons, List.length_nil]
    omega
  · simp only [List.length_append, List.length_cons, List.length_nil]
    rw [show done.length + (cur.length + (0 + 1)) + todo.length =
      done.length + cur.length + (todo.length + 1) by omega]
    exact Prod.Lex.right _ (Nat.lt_succ_self _)
  · simp only [List.length_append, List.length_cons, List.length_nil]
    rw [show done.length + cur.length + (0 + 1) + 0 + todo.length =
      done.length + cur.length + (todo.length + 1) by omega]
    exact Prod.Lex.right _ (Nat.lt_succ_self _)
  · simp only [List.length_append, List.length_cons, List.length_nil]
    rw [show done.length + (cur.length + (0 + 1)) + todo.length =
      done.length + cur.length + (todo.length + 1) by omega]
    exact Prod.Lex.right _ (Nat.lt_succ_self _)

end Httpaa.Text

namespace Httpaa

open Heap

variable {h : Heap} {buf : Ptr} {scan : SegmentScan} {bufSize : Nat} {done cur todo : List UInt8}

/-- The scan has passed `done`, is behind `cur`, and the buffer ends with `todo`. -/
structure SegmentScan.At (scan : SegmentScan) (h : Heap) (buf : Ptr) (bufSize : Nat)
    (done cur todo : List UInt8) : Prop where
  holds : h.Holds buf (done ++ cur ++ todo)
  segment : scan.segment = done.length
  i : scan.i = done.length + cur.length
  bufSize : bufSize = scan.i + todo.length

namespace SegmentScan.At

variable {x : UInt8}

theorem start (bufSize : Nat) (hp : h.Holds buf todo) (hsize : bufSize = todo.length) :
    SegmentScan.start.At h buf bufSize [] [] todo :=
  ⟨hp, rfl, rfl, by simp [SegmentScan.start, hsize]⟩

theorem nextChar (hat : scan.At h buf bufSize done cur (x :: todo)) :
    scan.nextChar.At h buf bufSize done (cur ++ [x]) todo := by
  have hi := hat.i
  have hsize := hat.bufSize
  simp only [List.length_cons] at hsize
  refine ⟨by simpa using hat.holds, hat.segment, ?_, ?_⟩ <;>
    simp only [SegmentScan.nextChar, List.length_append, List.length_cons, List.length_nil] <;>
    omega

theorem nextSegment (hat : scan.At h buf bufSize done cur (x :: todo)) :
    scan.nextSegment.At h buf bufSize (done ++ cur ++ [x]) [] todo := by
  have hi := hat.i
  have hsize := hat.bufSize
  simp only [List.length_cons] at hsize
  refine ⟨by simpa using hat.holds, ?_, ?_, ?_⟩ <;>
    simp only [SegmentScan.nextSegment, List.length_append, List.length_cons, List.length_nil] <;>
    omega

theorem ended (hat : scan.At h buf bufSize done cur []) : ¬ scan.i < bufSize := by
  simp [hat.bufSize]

theorem more (hat : scan.At h buf bufSize done cur (x :: todo)) : scan.i < bufSize := by
  simp [hat.bufSize]

theorem cur_holds (hat : scan.At h buf bufSize done cur todo) :
    h.Holds (buf.add scan.segment) cur := by
  rw [hat.segment]
  exact (holds_append.mp (holds_append.mp hat.holds).1).2

private theorem todo_holds (hat : scan.At h buf bufSize done cur todo) :
    h.Holds (buf.add scan.i) todo := by
  have hholds := (holds_append.mp hat.holds).2
  rwa [List.length_append, ← hat.i] at hholds

theorem byte (hat : scan.At h buf bufSize done cur (x :: todo)) :
    h.byte (buf.add scan.i) = x :=
  (holds_cons.mp hat.todo_holds).1

private theorem rest_holds (hat : scan.At h buf bufSize done cur (x :: todo)) :
    h.Holds (buf.add (scan.i + 1)) todo := by
  simpa using (holds_cons.mp hat.todo_holds).2

theorem parent_iff (hat : scan.At h buf bufSize done cur todo) :
    (scan.i - scan.segment = 2 ∧ h.byte (buf.add (scan.i - 1)) = dot ∧
      h.byte (buf.add (scan.i - 2)) = dot) ↔ cur = parent := by
  have hlength : scan.i - scan.segment = cur.length := by
    rw [hat.i, hat.segment]
    omega
  rw [hat.cur_holds.eq_iff, hlength]
  refine and_congr_right fun htwo => ?_
  have hlast : scan.i - 1 = scan.segment + 1 := by
    have hle := scan.le
    have htwo' : cur.length = 2 := htwo
    omega
  have hfirst : scan.i - 2 = scan.segment := by omega
  simp [parent, holds_cons, hlast, hfirst, and_comm]

theorem parent_prefix_iff (hat : scan.At h buf bufSize done cur (x :: todo)) :
    (scan.i + 2 < bufSize ∧ h.byte (buf.add (scan.i + 1)) = dot ∧
      h.byte (buf.add (scan.i + 2)) = dot) ↔ parent <+: todo := by
  rw [hat.rest_holds.prefix_iff, hat.bufSize, List.length_cons]
  have hlength : scan.i + 2 < scan.i + (todo.length + 1) ↔ parent.length ≤ todo.length := by
    simp only [parent, List.length_cons, List.length_nil]
    omega
  simp [hlength, parent, holds_cons]

theorem parentSlash_prefix_iff (hat : scan.At h buf bufSize done cur (x :: todo))
    (hparent : parent <+: todo) :
    (scan.i + 3 < bufSize ∧ h.byte (buf.add (scan.i + 3)) = slash) ↔
      parent ++ [slash] <+: todo := by
  obtain ⟨hle, hholds⟩ := hat.rest_holds.prefix_iff.mp hparent
  rw [hat.rest_holds.prefix_iff, hat.bufSize, List.length_cons, holds_append]
  have hlength : scan.i + 3 < scan.i + (todo.length + 1) ↔
      (parent ++ [slash]).length ≤ todo.length := by
    simp only [parent, List.length_cons, List.length_nil, List.length_append]
    omega
  simp [hlength, hholds, holds_cons, show parent.length = 2 from rfl]

theorem parent_end_iff (hat : scan.At h buf bufSize done cur (x :: todo))
    (hparent : parent <+: todo) : scan.i + 3 = bufSize ↔ todo = parent := by
  rw [hat.bufSize, List.length_cons]
  constructor
  · intro heq
    have hlength : parent.length = todo.length := by
      simp only [parent, List.length_cons, List.length_nil]
      omega
    exact (hparent.eq_of_length hlength).symm
  · rintro rfl
    simp [parent]

/-- The removal of the current segment, the slash behind it and a gap behind that. -/
theorem removed (gap : List UInt8) {rest : List UInt8}
    (hat : scan.At h buf bufSize done cur (x :: (gap ++ rest))) {n : Nat}
    (hn : n = scan.i + 1 + gap.length) :
    SegmentScan.start.At
      (h.memmove (buf.add scan.segment) (buf.add n) (bufSize - scan.i - (n - scan.i) + 1))
      buf (bufSize - (n - scan.segment)) [] [] (done ++ rest) := by
  have hholds : h.Holds buf (done ++ (cur ++ x :: gap) ++ rest) := by simpa using hat.holds
  have hsrc : done.length + (cur ++ x :: gap).length = n := by
    rw [hn, hat.i, List.length_append, List.length_cons]
    omega
  have hsize := hat.bufSize
  have hi := hat.i
  simp only [List.length_cons, List.length_append] at hsize
  refine start _ ?_ ?_
  · rw [hat.segment, ← hsrc]
    refine hholds.closeGap ?_
    rw [hsrc]
    omega
  · rw [hat.segment, List.length_append]
    omega

end SegmentScan.At

theorem Text.removeSegmentPoints_length_le (done cur todo : List UInt8) :
    (removeSegmentPoints done cur todo).length ≤ done.length + cur.length + todo.length := by
  fun_induction removeSegmentPoints done cur todo with
  | case1 done cur => simp
  | _ =>
      rename_i ih
      refine Nat.le_trans ih ?_
      simp only [List.length_append, List.length_cons, List.length_nil, List.length_drop]
      omega

theorem SegmentScan.At.dot_iff (hat : scan.At h buf bufSize done cur todo) :
    (scan.i - scan.segment = 1 ∧ h.byte (buf.add (scan.i - 1)) = dot) ↔ cur = [dot] := by
  have hlength : scan.i - scan.segment = cur.length := by
    rw [hat.i, hat.segment]
    omega
  rw [hat.cur_holds.eq_iff, hlength]
  refine and_congr_right fun hone => ?_
  have hfirst : scan.i - 1 = scan.segment := by
    have hle := scan.le
    have hone' : cur.length = 1 := hone
    omega
  simp [holds_cons, hfirst]

/-- A tail in which the scans find nothing: it has no two dots in a row. -/
def Quiet (tail : List UInt8) : Prop := ¬ parent <:+: tail

private theorem quiet_cons_zero {tail : List UInt8} (hquiet : Quiet tail) (x : UInt8) :
    Quiet (x :: 0 :: tail) := by
  have hzero : dot ≠ 0 := by decide
  intro hinfix
  simp [parent, List.infix_cons_iff, List.cons_prefix_cons, hzero] at hinfix
  exact hquiet hinfix

/-- Characters with a NUL behind each. -/
def Sparse (tail : List UInt8) : Prop := ∃ xs : List UInt8, tail = xs.flatMap fun x => [x, 0]

theorem Sparse.nil : Sparse [] := ⟨[], rfl⟩

theorem Sparse.cons {tail : List UInt8} (hsparse : Sparse tail) (x : UInt8) :
    Sparse (x :: 0 :: tail) := by
  obtain ⟨xs, rfl⟩ := hsparse
  exact ⟨x :: xs, rfl⟩

theorem Sparse.quiet {tail : List UInt8} (hsparse : Sparse tail) : Quiet tail := by
  obtain ⟨xs, rfl⟩ := hsparse
  induction xs with
  | nil => simp [Quiet, parent]
  | cons x xs ih => exact quiet_cons_zero ih x

private theorem zero_behind_slash (hlast : (cur ++ slash :: todo).getLast? = some 0) :
    ∃ front, todo = front ++ [0] := by
  rcases List.eq_nil_or_concat todo with rfl | ⟨front, x, rfl⟩
  · simp [slash, ch] at hlast
  · rw [List.concat_eq_append, ← List.cons_append, ← List.append_assoc, List.getLast?_concat]
      at hlast
    exact ⟨front, by rw [List.concat_eq_append, Option.some.inj hlast]⟩

/-- The loop of `uriaa_remove_segment_point` does on memory what it does on a text that ends with a
NUL. The buffer keeps its size, so every removal leaves two more bytes behind the text, of which the
second is the old NUL and the first comes from behind the buffer. -/
theorem removeSegmentPointLoop_holds (tail : List UInt8)
    (hat : scan.At h buf bufSize done cur todo) (htail : h.Holds (buf.add bufSize) tail)
    (hlast : (cur ++ todo).getLast? = some 0) (hsparse : Sparse tail) :
    ∃ tail', (removeSegmentPointLoop buf h bufSize scan).Holds buf
        (Text.removeSegmentPoint done cur todo ++ tail') ∧
      Sparse tail' ∧ (removeSegmentPointLoop buf h bufSize scan).size = h.size ∧
      (Text.removeSegmentPoint done cur todo ++ tail').length = bufSize + tail.length := by
  fun_induction Text.removeSegmentPoint done cur todo generalizing h bufSize scan tail with
  | case1 done cur =>
      have hlength : (done ++ cur).length = bufSize := by
        rw [hat.bufSize, hat.i, List.length_append]
        rfl
      have hdot : ¬ (scan.segment + 1 = bufSize ∧ h.byte (buf.add scan.segment) = dot) := by
        rintro ⟨hone, hbyte⟩
        have hcur : cur = [dot] := by
          refine hat.cur_holds.eq_iff.mpr ⟨?_, by simp [holds_cons, hbyte]⟩
          have hsegment := hat.segment
          rw [List.length_append] at hlength
          simp only [List.length_cons, List.length_nil]
          omega
        simp [hcur, dot, ch] at hlast
      rw [removeSegmentPointLoop, if_neg hat.ended, if_neg hdot]
      refine ⟨tail, holds_append.mpr ⟨by simpa using hat.holds, ?_⟩, hsparse, rfl, ?_⟩
      · rw [hlength]
        exact htail
      · rw [List.length_append, hlength]
  | case2 done todo ih =>
      have hsize := hat.bufSize
      have hi := hat.i
      have hsegment := hat.segment
      simp only [List.length_cons, List.length_nil] at hsize hi
      obtain ⟨front, rfl⟩ := zero_behind_slash hlast
      simp only [List.length_append, List.length_cons, List.length_nil] at hsize
      have hcount : bufSize - scan.i = bufSize - scan.i - (scan.i + 1 - scan.i) + 1 := by omega
      rw [removeSegmentPointLoop, if_pos hat.more, if_pos hat.byte, if_pos (hat.dot_iff.mpr rfl)]
      have hremoved : SegmentScan.start.At _ _ _ _ _ _ := hat.removed [] rfl
      simp only [List.length_nil, Nat.add_zero, ← hcount] at hremoved
      generalize hmoved : h.memmove (buf.add scan.segment) (buf.add (scan.i + 1))
        (bufSize - scan.i) =
        h' at hremoved ⊢
      have hback : scan.back.At h' buf (bufSize - (scan.i + 1 - scan.segment)) done []
          (front ++ [0]) := by
        refine ⟨by simpa using hremoved.holds, hsegment, hsegment, ?_⟩
        simp only [SegmentScan.back, List.length_append, List.length_cons, List.length_nil]
        omega
      -- the last byte of the old text and the tail behind it are out of reach of the removal
      have hold : h.Holds (buf.add (bufSize - 1)) (0 :: tail) := by
        have hrest := (holds_append.mp hat.rest_holds).2
        rw [Ptr.add_add, show scan.i + 1 + front.length = bufSize - 1 by omega] at hrest
        refine holds_cons.mpr ⟨(holds_cons.mp hrest).1, ?_⟩
        rw [Ptr.add_add, Nat.sub_add_cancel (by omega)]
        exact htail
      have hnew : h'.Holds (buf.add (bufSize - 1)) (0 :: tail) := by
        rw [← hmoved]
        refine hold.memmove_apart (.inr (.inr ?_))
        simp only [Ptr.add]
        omega
      have htail' : h'.Holds (buf.add (bufSize - (scan.i + 1 - scan.segment)))
          (h'.byte (buf.add (bufSize - (scan.i + 1 - scan.segment))) :: 0 :: tail) := by
        refine holds_cons.mpr ⟨rfl, ?_⟩
        rw [Ptr.add_add, show bufSize - (scan.i + 1 - scan.segment) + 1 = bufSize - 1 by omega]
        exact hnew
      obtain ⟨tail', hholds, hsparse', hsize', hlength⟩ :=
        ih _ hback htail' (by simp) (hsparse.cons _)
      refine ⟨tail', hholds, hsparse', ?_, ?_⟩
      · rw [hsize', ← hmoved, memmove_size]
      · rw [hlength]
        simp only [List.length_cons]
        omega
  | case3 done cur todo hcur ih =>
      rw [removeSegmentPointLoop, if_pos hat.more, if_pos hat.byte,
        if_neg (hat.dot_iff.not.mpr hcur)]
      obtain ⟨front, rfl⟩ := zero_behind_slash hlast
      exact ih _ hat.nextSegment htail (by simp) hsparse
  | case4 done cur x todo hslash ih =>
      have hbyte := hat.byte
      rw [removeSegmentPointLoop, if_pos hat.more,
        if_neg (fun heq => hslash (hbyte.symm.trans heq))]
      exact ih _ hat.nextChar htail (by simpa using hlast) hsparse

/-- The loop of `uriaa_remove_segment_points` does on memory what it does on the text. -/
theorem removeSegmentPointsLoop_holds (hat : scan.At h buf bufSize done cur todo) :
    ∃ h', removeSegmentPointsLoop buf h bufSize scan =
        (h', (Text.removeSegmentPoints done cur todo).length) ∧
      h'.Holds buf (Text.removeSegmentPoints done cur todo) ∧ h'.size = h.size := by
  fun_induction Text.removeSegmentPoints done cur todo generalizing h bufSize scan with
  | case1 done cur =>
      have hlength : bufSize = (done ++ cur).length := by
        rw [hat.bufSize, hat.i, List.length_append]
        rfl
      rw [removeSegmentPointsLoop, if_neg hat.ended, hlength]
      exact ⟨h, rfl, by simpa using hat.holds, rfl⟩
  | case2 done todo ih =>
      rw [removeSegmentPointsLoop, if_pos hat.more, if_pos hat.byte,
        if_pos (hat.parent_iff.mpr rfl)]
      exact ih hat.nextSegment
  | case3 done cur todo hcur hparent hslash' ih =>
      have hbranch := (hat.parentSlash_prefix_iff hparent).mpr hslash'
      rw [removeSegmentPointsLoop, if_pos hat.more, if_pos hat.byte,
        if_neg (hat.parent_iff.not.mpr hcur), if_pos (hat.parent_prefix_iff.mpr hparent),
        if_pos hbranch]
      obtain ⟨rest, rfl⟩ := hslash'
      have hremoved : SegmentScan.start.At _ _ _ _ _ _ := hat.removed _ (n := scan.i + 4) rfl
      rw [show scan.i + 4 - scan.i = 4 by omega] at hremoved
      exact ih hremoved
  | case4 done cur hcur hparent hslash' ih =>
      rw [removeSegmentPointsLoop, if_pos hat.more, if_pos hat.byte,
        if_neg (hat.parent_iff.not.mpr hcur), if_pos (hat.parent_prefix_iff.mpr hparent),
        if_neg ((hat.parentSlash_prefix_iff hparent).not.mpr hslash'),
        if_pos ((hat.parent_end_iff hparent).mpr rfl)]
      have hremoved : SegmentScan.start.At _ _ _ _ _ _ :=
        (show scan.At h buf bufSize done cur (slash :: (parent ++ [])) from hat).removed
          _ (n := scan.i + 3) rfl
      rw [show scan.i + 3 - scan.i = 3 by omega, List.append_nil] at hremoved
      exact ih hremoved
  | case5 done cur todo hcur hparent hslash' hend ih =>
      rw [removeSegmentPointsLoop, if_pos hat.more, if_pos hat.byte,
        if_neg (hat.parent_iff.not.mpr hcur), if_pos (hat.parent_prefix_iff.mpr hparent),
        if_neg ((hat.parentSlash_prefix_iff hparent).not.mpr hslash'),
        if_neg ((hat.parent_end_iff hparent).not.mpr hend)]
      exact ih hat.nextChar
  | case6 done cur todo hcur hparent ih =>
      rw [removeSegmentPointsLoop, if_pos hat.more, if_pos hat.byte,
        if_neg (hat.parent_iff.not.mpr hcur), if_neg (hat.parent_prefix_iff.not.mpr hparent)]
      exact ih hat.nextSegment
  | case7 done cur x todo hslash ih =>
      have hbyte := hat.byte
      rw [removeSegmentPointsLoop, if_pos hat.more,
        if_neg (fun heq => hslash (hbyte.symm.trans heq))]
      exact ih hat.nextChar

end Httpaa
