import Httpaa.Strings.Copy
import Httpaa.Uri.DotSegments

/-!
# Where the passes find nothing

A text whose segments are neither `.` nor `..` is left as it is, in memory too. That is so for what
the passes themselves leave, so they change nothing when they are run again.
-/

namespace Httpaa.Text

variable {done cur top s todo tail rest a b : List UInt8}

/-! ### Nothing to remove -/

/-- No segment in front of the last slash is `.`. -/
def NoPointSegment (text : List UInt8) : Prop := [dot] ∉ (text.splitOn slash).dropLast

instance (text : List UInt8) : Decidable (NoPointSegment text) :=
  inferInstanceAs (Decidable ([dot] ∉ (text.splitOn slash).dropLast))

theorem noPointSegment_slash (hcur : slash ∉ cur) :
    NoPointSegment (cur ++ slash :: todo) ↔ cur ≠ [dot] ∧ NoPointSegment todo := by
  have hne : todo.splitOn slash ≠ [] := List.splitOn_ne_nil _ _
  rw [NoPointSegment, List.splitOn_append_cons_self, List.splitOn_eq_singleton hcur,
    List.singleton_append, List.dropLast_cons_of_ne_nil hne]
  simp [NoPointSegment, eq_comm]

theorem noPointSegment_end (hcur : slash ∉ cur) : NoPointSegment cur := by
  simp [NoPointSegment, List.splitOn_eq_singleton hcur]

/-- No segment behind the first slash is `..`. -/
def NoParentSegment (text : List UInt8) : Prop := parent ∉ (text.splitOn slash).tail

instance (text : List UInt8) : Decidable (NoParentSegment text) :=
  inferInstanceAs (Decidable (parent ∉ (text.splitOn slash).tail))

theorem removeSegmentPoints_eq_self (hparent : NoParentSegment todo) :
    removeSegmentPoints done cur todo = done ++ cur ++ todo := by
  have hbehind : ∀ {todo : List UInt8}, NoParentSegment (slash :: todo) →
      parent ∉ todo.splitOn slash := fun h => by
    simpa [NoParentSegment, List.splitOn_cons_eq_if_modifyHead] using h
  have htail : ∀ {todo : List UInt8}, NoParentSegment (slash :: todo) → NoParentSegment todo :=
    fun h hmem => hbehind h (List.mem_of_mem_tail hmem)
  fun_induction removeSegmentPoints done cur todo with
  | case1 done cur => simp
  | case2 done todo ih =>
      rw [ih (htail hparent)]
      simp
  | case3 done cur todo hcur _ hslash _ =>
      obtain ⟨rest, rfl⟩ := hslash
      rw [List.append_assoc, List.singleton_append] at hparent
      refine absurd ?_ (hbehind hparent)
      rw [List.splitOn_append_cons_self, List.splitOn_eq_singleton slash_notMem_parent]
      simp
  | case4 done cur hcur _ _ _ =>
      refine absurd ?_ (hbehind hparent)
      rw [List.splitOn_eq_singleton slash_notMem_parent]
      simp
  | case5 done cur todo _ _ _ _ ih =>
      rw [ih (htail hparent)]
      simp
  | case6 done cur todo _ _ ih =>
      rw [ih (htail hparent)]
      simp
  | case7 done cur x todo hx ih =>
      rw [ih]
      · simp
      · simpa [NoParentSegment, List.splitOn_cons_eq_if_modifyHead, hx] using hparent

/-! ### The passes over what they leave -/

private theorem removeSegmentPoints_again
    (hscan : removeSegmentPoints [] [] (done ++ cur ++ todo) = removeSegmentPoints done cur todo) :
    removeSegmentPoints [] [] (removeSegmentPoints done cur todo) =
      removeSegmentPoints done cur todo := by
  fun_induction removeSegmentPoints done cur todo with
  | case1 done cur => simpa using hscan
  | case3 done cur todo hcur hparent hslash' ih => exact ih rfl
  | case4 done cur hcur hparent hslash' ih => exact ih rfl
  | _ =>
      rename_i ih
      exact ih (by simpa using hscan)

theorem removeSegmentPoints_getLast (hlast : (done ++ cur ++ todo).getLast? = some 0) :
    (removeSegmentPoints done cur todo).getLast? = some 0 := by
  have hdot : dot ≠ 0 := by decide
  have hslash : slash ≠ 0 := by decide
  fun_induction removeSegmentPoints done cur todo with
  | case1 done cur => simpa using hlast
  | case3 done cur todo hcur hparent hslash' ih =>
      obtain ⟨rest, rfl⟩ := hslash'
      refine ih ?_
      rcases List.eq_nil_or_concat rest with rfl | ⟨front, x, rfl⟩
      · simp [parent, hslash] at hlast
      · have hgroup : done ++ cur ++ slash :: (parent ++ [slash] ++ front.concat x) =
            done ++ cur ++ slash :: (parent ++ [slash] ++ front) ++ [x] := by simp
        rw [hgroup, List.getLast?_concat] at hlast
        have hdrop : (parent ++ [slash] ++ front.concat x).drop 3 = front.concat x := rfl
        rw [hdrop, List.concat_eq_append, ← List.append_assoc, ← List.append_assoc,
          List.getLast?_concat]
        exact hlast
  | case4 done cur hcur hparent hslash' ih => simp [parent, hdot] at hlast
  | _ =>
      rename_i ih
      exact ih (by simpa using hlast)

def NoPoint (text : List UInt8) : Prop := [dot] ∉ text.splitOn slash

instance (text : List UInt8) : Decidable (NoPoint text) :=
  inferInstanceAs (Decidable ([dot] ∉ text.splitOn slash))

theorem noPoint_slash : NoPoint (a ++ slash :: b) ↔ NoPoint a ∧ NoPoint b := by
  simp [NoPoint, List.splitOn_append_cons_self]

theorem splitOn_append (a : List UInt8) : ∃ front last, slash ∉ last ∧
    ∀ b, (a ++ b).splitOn slash = front ++ (last ++ b).splitOn slash := by
  induction a with
  | nil => exact ⟨[], [], by simp, fun _ => rfl⟩
  | cons x a ih =>
      obtain ⟨front, last, hlast, hsplit⟩ := ih
      by_cases hx : x = slash
      · exact ⟨[] :: front, last, hlast, fun b => by
          simp [List.splitOn_cons_eq_if_modifyHead, hsplit, hx]⟩
      · cases front with
        | nil =>
            refine ⟨[], x :: last, by simp [hlast, Ne.symm hx], fun b => ?_⟩
            simp [List.splitOn_cons_eq_if_modifyHead, hsplit, hx]
        | cons s front =>
            refine ⟨(x :: s) :: front, last, hlast, fun b => ?_⟩
            simp [List.splitOn_cons_eq_if_modifyHead, hsplit, hx]

private theorem mem_splitOn_append (hs : slash ∉ s) (hnul : 0 ∈ s) {t : List UInt8} (ht : 0 ∉ t)
    (hmem : t ∈ (a ++ s).splitOn slash) (b : List UInt8) : t ∈ (a ++ b).splitOn slash := by
  obtain ⟨front, last, hlast, hsplit⟩ := splitOn_append a
  have hsegment : slash ∉ last ++ s := by simp [hlast, hs]
  rw [hsplit, List.splitOn_eq_singleton hsegment] at hmem
  rw [hsplit]
  rcases List.mem_append.mp hmem with h | h
  · exact List.mem_append_left _ h
  · rw [List.mem_singleton.mp h] at ht
    exact absurd (List.mem_append_right _ hnul) ht

/-- What goes on with a NUL in the last segment does not make that `.`. -/
theorem NoPoint.append (hpoint : NoPoint a) (hs : slash ∉ s) (hnul : 0 ∈ s) : NoPoint (a ++ s) :=
  fun hmem => hpoint (by simpa using mem_splitOn_append hs hnul (by decide) hmem [])

private theorem NoPoint.append_sparse (hpoint : NoPoint a) (hsparse : Sparse tail) :
    NoPoint (a ++ tail) := by
  obtain ⟨xs, rfl⟩ := hsparse
  induction xs generalizing a with
  | nil => simpa using hpoint
  | cons x xs ih =>
      rw [List.flatMap_cons, ← List.append_assoc]
      refine ih ?_
      have hslash : slash ≠ 0 := by decide
      by_cases hx : x = slash
      · rw [hx]
        exact noPoint_slash.mpr ⟨hpoint, by decide⟩
      · exact hpoint.append (by simp [Ne.symm hx, hslash]) (by simp)

private theorem noPoint_removeSegmentPoint (path : List UInt8) :
    NoPoint (removeSegmentPoint [] [] (path ++ [0])) := by
  obtain ⟨front, s, hsplit, hfront, hs⟩ := splitOn_nul path
  have hkept : ∀ s' ∈ front.filter (· ≠ [dot]) ++ [s ++ [0]], slash ∉ s' := by
    intro s' h
    rcases List.mem_append.mp h with h | h
    · exact hfront s' (List.mem_of_mem_filter h)
    · rwa [List.mem_singleton.mp h]
  have hlast : s ++ [0] ≠ [dot] := by
    intro heq
    have hmem : (0 : UInt8) ∈ [dot] := heq ▸ by simp
    exact absurd hmem (by decide)
  rw [NoPoint, ← @List.intercalate_splitOn _ (path ++ [0]) _ _ slash, hsplit,
    removeSegmentPoint_join front hfront hs, List.nil_append,
    List.splitOn_intercalate _ hkept (by simp)]
  simp [Ne.symm hlast]

theorem NoPoint.removeSegmentPoint {path : List UInt8} (hpoint : NoPoint (path ++ [0])) :
    removeSegmentPoint [] [] (path ++ [0]) = path ++ [0] := by
  obtain ⟨front, s, hsplit, hfront, hs⟩ := splitOn_nul path
  rw [NoPoint, hsplit] at hpoint
  have hkeeps : front.filter (· ≠ [dot]) = front := by
    refine List.filter_eq_self.mpr fun s' h => ?_
    have hne : s' ≠ [dot] := fun heq => hpoint (List.mem_append_left _ (heq ▸ h))
    simpa using hne
  rw [← @List.intercalate_splitOn _ (path ++ [0]) _ _ slash, hsplit,
    removeSegmentPoint_join front hfront hs, hkeeps, List.nil_append]

/-- What a scan has passed ends with a slash. -/
def Passed (done : List UInt8) : Prop := done = [] ∨ ∃ front, done = front ++ [slash]

theorem NoPoint.removeSegmentPoints (hpoint : NoPoint (done ++ cur ++ todo))
    (hdone : Passed done) : NoPoint (removeSegmentPoints done cur todo) := by
  fun_induction Text.removeSegmentPoints done cur todo with
  | case1 done cur => simpa using hpoint
  | case3 done cur todo hcur hparent hslash' ih =>
      obtain ⟨rest, rfl⟩ := hslash'
      refine ih ?_ (.inl rfl)
      have hgroup : done ++ cur ++ slash :: (parent ++ [slash] ++ rest) =
          done ++ (cur ++ slash :: parent) ++ slash :: rest := by simp
      rw [hgroup, noPoint_slash] at hpoint
      rcases hdone with rfl | ⟨front, rfl⟩
      · exact hpoint.2
      · have hfront := hpoint.1
        rw [List.append_assoc, List.singleton_append, noPoint_slash] at hfront
        have hkept := noPoint_slash.mpr ⟨hfront.1, hpoint.2⟩
        have hdrop : (parent ++ [slash] ++ rest).drop 3 = rest := rfl
        rw [hdrop]
        simpa using hkept
  | case4 done cur hcur hparent hslash' ih =>
      refine ih ?_ (.inl rfl)
      rcases hdone with rfl | ⟨front, rfl⟩
      · decide
      · rw [List.append_assoc, List.append_assoc, List.singleton_append, noPoint_slash] at hpoint
        exact noPoint_slash.mpr ⟨hpoint.1, by decide⟩
  | case2 done todo ih => exact ih (by simpa using hpoint) (.inr ⟨_, rfl⟩)
  | case5 done cur todo hcur hparent hslash' hend ih => exact ih (by simpa using hpoint) hdone
  | case6 done cur todo hcur hparent ih => exact ih (by simpa using hpoint) (.inr ⟨_, rfl⟩)
  | case7 done cur x todo hslash ih => exact ih (by simpa using hpoint) hdone

theorem removeSegmentPoint_endsNul (path : List UInt8) :
    ∃ text, removeSegmentPoint [] [] (path ++ [0]) = text ++ [0] := by
  obtain ⟨front, s, hsplit, hfront, hs⟩ := splitOn_nul path
  rw [← @List.intercalate_splitOn _ (path ++ [0]) _ _ slash, hsplit,
    removeSegmentPoint_join front hfront hs, List.nil_append]
  exact intercalate_nul _ _

theorem endsNul_append_sparse (ha : a.getLast? = some 0) (hsparse : Sparse tail) :
    (a ++ tail).getLast? = some 0 := by
  obtain ⟨xs, rfl⟩ := hsparse
  rcases List.eq_nil_or_concat xs with rfl | ⟨front, x, rfl⟩
  · simpa using ha
  · simp

/-- The passes find nothing in what they leave, with the next NUL behind it. -/
theorem passes_again {path : List UInt8} {text : List UInt8} (hsparse : Sparse tail)
    (htext : removeSegmentPoints [] [] (removeSegmentPoint [] [] (path ++ [0]) ++ tail) = text) :
    removeSegmentPoint [] [] (text ++ [0]) = text ++ [0] ∧
      removeSegmentPoints [] [] (text ++ [0]) = text ++ [0] := by
  obtain ⟨first, hfirst⟩ := removeSegmentPoint_endsNul path
  have hlast : text.getLast? = some 0 := by
    rw [← htext]
    have hends : (removeSegmentPoint [] [] (path ++ [0]) ++ tail).getLast? = some 0 :=
      endsNul_append_sparse (by simp [hfirst]) hsparse
    exact removeSegmentPoints_getLast hends
  have hpoint : NoPoint text := by
    rw [← htext]
    exact NoPoint.removeSegmentPoints ((noPoint_removeSegmentPoint path).append_sparse hsparse)
      (.inl rfl)
  have hagain : removeSegmentPoints [] [] text = text := by
    rw [← htext]
    exact removeSegmentPoints_again rfl
  have hquiet : Quiet [0] := by
    rw [Quiet]
    decide
  refine ⟨(hpoint.append (by decide) (by decide)).removeSegmentPoint, ?_⟩
  rw [removeSegmentPoints_tail hquiet (.inr (List.getLast?_eq_some_iff.mp hlast)), hagain]

/-! ### Texts without dot segments -/

def NoDots (text : List UInt8) : Prop :=
  [dot] ∉ text.splitOn slash ∧ parent ∉ text.splitOn slash

instance (text : List UInt8) : Decidable (NoDots text) := inferInstanceAs (Decidable (_ ∧ _))

theorem NoDots.noParentSegment (hdots : NoDots a) : NoParentSegment a :=
  fun hmem => hdots.2 (List.mem_of_mem_tail hmem)

/-- A text has no dot segments in front of its NUL, if it has none with what is in place of that. -/
theorem NoDots.withNul (hdots : NoDots (a ++ b)) : NoDots (a ++ [0]) :=
  ⟨fun h => hdots.1 (mem_splitOn_append (by decide) (by decide) (by decide) h b),
    fun h => hdots.2 (mem_splitOn_append (by decide) (by decide) (by decide) h b)⟩

end Httpaa.Text

namespace Httpaa

variable {h : Heap} {buf : Ptr} {scan : SegmentScan} {bufSize : Nat} {done cur todo : List UInt8}

/-- Where there is nothing to remove, the first scan writes nothing. -/
theorem removeSegmentPointLoop_eq_self (hat : scan.At h buf bufSize done cur todo)
    (hcur : slash ∉ cur) (hpoint : Text.NoPoint (cur ++ todo)) :
    removeSegmentPointLoop buf h bufSize scan = h := by
  fun_induction Text.removeSegmentPoint done cur todo generalizing scan with
  | case1 done cur =>
      have hdot : ¬ (scan.segment + 1 = bufSize ∧ h.byte (buf.add scan.segment) = dot) := by
        rintro ⟨hone, hbyte⟩
        have hsize := hat.bufSize
        have hi := hat.i
        have hsegment := hat.segment
        have hdot : cur = [dot] := by
          refine hat.cur_holds.eq_iff.mpr ⟨?_, by simp [Heap.holds_cons, hbyte]⟩
          simp only [List.length_cons, List.length_nil] at hsize ⊢
          omega
        rw [List.append_nil, Text.NoPoint, List.splitOn_eq_singleton hcur] at hpoint
        exact hpoint (List.mem_singleton.mpr hdot.symm)
      rw [removeSegmentPointLoop, if_neg hat.ended, if_neg hdot]
  | case2 done todo ih =>
      exact absurd (Text.noPoint_slash.mp hpoint).1 (by decide)
  | case3 done cur todo hne ih =>
      rw [removeSegmentPointLoop, if_pos hat.more, if_pos hat.byte,
        if_neg (hat.dot_iff.not.mpr hne)]
      exact ih hat.nextSegment (by simp) (Text.noPoint_slash.mp hpoint).2
  | case4 done cur x todo hx ih =>
      have hbyte := hat.byte
      rw [removeSegmentPointLoop, if_pos hat.more, if_neg fun heq => hx (hbyte.symm.trans heq)]
      exact ih hat.nextChar (by simp [hcur, Ne.symm hx]) (by simpa using hpoint)

/-! ### The rest of the memory -/

theorem removeSegmentPointLoop_sameBeside (buf : Ptr) (h : Heap) (bufSize : Nat)
    (scan : SegmentScan) :
    h.SameBeside (removeSegmentPointLoop buf h bufSize scan) buf.block := by
  fun_induction removeSegmentPointLoop buf h bufSize scan with
  | case1 _ _ _ _ _ _ ih =>
      refine Heap.SameBeside.trans ?_ ih
      exact Heap.memmove_sameBeside ..
  | case4 => exact Heap.store_sameBeside ..
  | case5 => exact .refl ..
  | _ =>
      rename_i ih
      exact ih

theorem removeSegmentPointsLoop_sameBeside (buf : Ptr) (h : Heap) (bufSize : Nat)
    (scan : SegmentScan) :
    h.SameBeside (removeSegmentPointsLoop buf h bufSize scan).1 buf.block := by
  fun_induction removeSegmentPointsLoop buf h bufSize scan with
  | case2 _ _ _ _ _ _ _ _ ih =>
      refine Heap.SameBeside.trans ?_ ih
      exact Heap.memmove_sameBeside ..
  | case3 =>
      rename_i ih
      refine Heap.SameBeside.trans ?_ ih
      exact Heap.memmove_sameBeside ..
  | case7 => exact .refl ..
  | _ =>
      rename_i ih
      exact ih

/-- Both functions over a string whose buffer ends with a NUL. -/
theorem removeSegments_holds {name : Stringaa} {block : Nat} {text : List UInt8}
    (hname : name.Owns h block) (hholds : h.Holds ⟨block, 0⟩ text)
    (hsize : name.bufSize = text.length) (hlast : text.getLast? = some 0) :
    ∃ h₁ h' tail, Sparse tail ∧
      (Text.removeSegmentPoint [] [] text ++ tail).length = text.length ∧
      uriaaRemoveSegmentPoint h name = some (true, h₁) ∧
      uriaaRemoveSegmentPoints h₁ name = some (true, h', { name with
        bufSize := (Text.removeSegmentPoints [] []
          (Text.removeSegmentPoint [] [] text ++ tail)).length + 1 }) ∧
      h'.Holds ⟨block, 0⟩
        (Text.removeSegmentPoints [] [] (Text.removeSegmentPoint [] [] text ++ tail)) ∧
      h'.size = h.size ∧ h.SameBeside h' block := by
  have hat := SegmentScan.At.start name.bufSize hholds hsize
  obtain ⟨tail, hfirst, hsparse, hsize₁, hlength⟩ := removeSegmentPointLoop_holds [] hat
    Heap.holds_nil (by simpa using hlast) .nil
  have hat' := SegmentScan.At.start name.bufSize hfirst hlength.symm
  obtain ⟨h₂, hsecond, hheld, hsize₂⟩ := removeSegmentPointsLoop_holds hat'
  have hsame := removeSegmentPointLoop_sameBeside ⟨block, 0⟩ h name.bufSize .start
  have hsame' := removeSegmentPointsLoop_sameBeside ⟨block, 0⟩
    (removeSegmentPointLoop ⟨block, 0⟩ h name.bufSize .start) name.bufSize .start
  rw [hsecond] at hsame'
  refine ⟨removeSegmentPointLoop ⟨block, 0⟩ h name.bufSize .start, h₂, tail, hsparse, ?_, ?_, ?_,
    hheld, hsize₂.trans hsize₁, hsame.trans hsame'⟩
  · simpa [hsize] using hlength
  · simp [uriaaRemoveSegmentPoint, hname.buf]
  · simp [uriaaRemoveSegmentPoints, hname.buf, hsecond]

end Httpaa
