import Httpaa.Uri.Passes
import Httpaa.Uri.Relative

/-!
# Two copies of the removal

The loops inside `uriaa_resolve_uri` run over a path without its NUL, those of
`uriaa_remove_segment_point` and `uriaa_remove_segment_points` over a path with it. The NUL becomes
part of the last segment, which is then neither `.` nor `..`. The functions count in an `int`: paths
are shorter than 2^31.
-/

namespace Httpaa.Text

variable {done cur todo s top : List UInt8} {stack us : List (List UInt8)}

/-! ### The loops over a path without its NUL -/

/-- The first loop of `uriaa_resolve_uri`, with the test behind it. -/
def resolvePoint (done cur : List UInt8) : List UInt8 → List UInt8
  | [] => done ++ if cur = [dot] then [0] else cur
  | x :: todo =>
    if x = slash then
      if cur = [dot] then resolvePoint done [] todo
      else resolvePoint (done ++ cur ++ [x]) [] todo
    else resolvePoint done (cur ++ [x]) todo

private theorem resolvePoint_walk (done cur todo : List UInt8) (hs : slash ∉ s) :
    resolvePoint done cur (s ++ todo) = resolvePoint done (cur ++ s) todo := by
  induction s generalizing cur with
  | nil => simp
  | cons x s ih =>
      simp only [List.mem_cons, not_or] at hs
      rw [List.cons_append, resolvePoint, if_neg (Ne.symm hs.1), ih _ hs.2]
      simp

private theorem resolvePoint_length_le (done cur todo : List UInt8) :
    (resolvePoint done cur todo).length ≤ done.length + cur.length + todo.length := by
  fun_induction resolvePoint done cur todo with
  | case1 done cur => by_cases hdot : cur = [dot] <;> simp [hdot]
  | _ =>
      rename_i ih
      refine Nat.le_trans ih ?_
      simp only [List.length_append, List.length_cons, List.length_nil]
      omega

/-- What the first loop leaves of the last segment. -/
def lastLeft (s : List UInt8) : List UInt8 := if s = [dot] then [0] else s

private theorem resolvePoint_join (front : List (List UInt8)) (hfront : ∀ s' ∈ front, slash ∉ s')
    (hs : slash ∉ s) :
    resolvePoint done [] ([slash].intercalate (front ++ [s])) =
      done ++ [slash].intercalate (front.filter (· ≠ [dot]) ++ [lastLeft s]) := by
  induction front generalizing done with
  | nil =>
      have hwalk := resolvePoint_walk done [] [] hs
      simpa [resolvePoint, lastLeft] using hwalk
  | cons s' front ih =>
      have hs' := hfront s' (by simp)
      have hrest : ∀ done, resolvePoint done [] _ = done ++ _ := fun _ =>
        ih fun s'' h => hfront s'' (List.mem_cons_of_mem _ h)
      rw [List.cons_append, List.intercalate_cons_of_ne_nil (by simp), List.append_assoc,
        resolvePoint_walk _ _ _ hs', List.nil_append, List.singleton_append, resolvePoint,
        if_pos rfl]
      by_cases hdot : s' = [dot]
      · rw [if_pos hdot, hrest]
        simp [hdot]
      · rw [if_neg hdot, hrest, List.filter_cons_of_pos (by simpa using hdot), List.cons_append,
          List.intercalate_cons_of_ne_nil (by simp)]
        simp only [List.append_assoc]

/-! ### The last segment on the stack -/

/-- How many units a `..` can take away. -/
def depth (stack : List (List UInt8)) : Nat := (stack.takeWhile (· ≠ parent)).length

/-- How a segment moves that number. -/
def depthStep (n : Nat) (s : List UInt8) : Nat :=
  if s = parent then n - 1 else if parent <+: s ∧ 0 < n then n else n + 1

private theorem depth_unitStep (stack : List (List UInt8)) (s : List UInt8) :
    depth (unitStep stack s) = depthStep (depth stack) s := by
  rcases stack with _ | ⟨top, us⟩
  · by_cases hparent : s = parent
    · simp [unitStep, depth, depthStep, hparent]
    · simp [unitStep, depth, depthStep, hparent]
  · by_cases htop : top = parent
    · by_cases hparent : s = parent <;> simp [unitStep, depth, depthStep, htop, hparent]
    · by_cases hparent : s = parent
      · simp [unitStep, depth, depthStep, htop, hparent]
      · by_cases hpre : parent <+: s
        · have hmerged : top ++ slash :: s ≠ parent := fun heq =>
            slash_notMem_parent (heq ▸ by simp)
          simp [unitStep, depth, depthStep, htop, hparent, hpre, hmerged]
        · simp [unitStep, depth, depthStep, htop, hparent, hpre]

private theorem render_unitStep (hs : s ≠ parent ∨ depth stack = 0) :
    render (unitStep stack s) = below stack ++ s := by
  rcases stack with _ | ⟨top, us⟩
  · rfl
  · by_cases htop : top = parent
    · simp [unitStep, htop, render, below]
    · have hparent : s ≠ parent := hs.resolve_right (by simp [depth, htop])
      by_cases hpre : parent <+: s
      · simp [unitStep, htop, hparent, hpre, render, below]
      · simp [unitStep, htop, hparent, hpre, render, below]

theorem resume_keptLast (hs : slash ∉ s) (hkept : s ≠ parent ∨ depth stack = 0) :
    resume stack s = below stack ++ s := by
  rw [← render_unitStep hkept]
  by_cases hparent : s = parent
  · subst hparent
    have hdepth := hkept.resolve_left (not_not.mpr rfl)
    rcases stack with _ | ⟨top, us⟩
    · have hwalk := removeSegmentPoints_walk [] [] [] hs
      simpa [resume, unitStep, render, below, removeSegmentPoints] using hwalk
    · have htop : top = parent := by
        by_contra htop
        simp [depth, htop] at hdepth
      rw [resume, ← List.append_nil parent, removeSegmentPoints_push hs (.inl rfl) (.inl htop),
        removeSegmentPoints, htop]
      simp [unitStep, render, below]
  · exact resume_last hs hparent

private theorem resume_nil (stack : List (List UInt8)) : resume stack [] = below stack := by
  rcases stack with _ | ⟨top, us⟩
  · simp [resume, removeSegmentPoints, below]
  · by_cases htop : top = parent <;> simp [resume, removeSegmentPoints, below, htop, parent]

theorem resume_parent (hcanonical : Canonical (top :: us)) (htop : top ≠ parent) :
    resume (top :: us) parent = below us := by
  have hshort : ¬ parent ++ [slash] <+: parent := fun h => absurd h.length_le (by decide)
  have hscan := hcanonical.2.resume []
  rw [List.append_nil, resume_nil] at hscan
  rw [resume, removeSegmentPoints, if_pos rfl, if_neg htop, if_pos (List.prefix_refl _),
    if_neg hshort, if_pos rfl]
  exact hscan

private theorem removeSegmentPoints_front (front : List (List UInt8))
    (hfront : ∀ s' ∈ front, slash ∉ s') (hcanonical : Canonical stack) :
    resume stack ([slash].intercalate (front ++ [s])) = resume (front.foldl unitStep stack) s ∧
      Canonical (front.foldl unitStep stack) := by
  induction front generalizing stack with
  | nil => simpa using hcanonical
  | cons s' front ih =>
      have hs' := hfront s' (by simp)
      rw [List.cons_append, List.intercalate_cons_of_ne_nil (by simp), List.append_assoc,
        List.singleton_append, resume_segment hcanonical hs', List.foldl_cons]
      exact ih (fun s'' h => hfront s'' (List.mem_cons_of_mem _ h)) (hcanonical.unitStep hs')

/-! ### Where the copies agree -/

/-- The path does not end in `.`, and if it ends in `..`, that takes nothing away. -/
def CopiesAgree (path : List UInt8) : Prop :=
  let segs := path.splitOn slash
  let front := segs.dropLast.filter (· ≠ [dot])
  segs.getLast? ≠ some [dot] ∧ (segs.getLast? = some parent → front.foldl depthStep 0 = 0)

instance (path : List UInt8) : Decidable (CopiesAgree path) :=
  inferInstanceAs (Decidable (_ ∧ (_ → _)))

/-- What the functions on strings leave of a path with its NUL. -/
def inString (path : List UInt8) : List UInt8 :=
  removeSegmentPoints [] [] (removeSegmentPoint [] [] (path ++ [0]))

/-- What the loops of `uriaa_resolve_uri` leave of a path in front of its NUL. -/
def inLine (path : List UInt8) : List UInt8 :=
  removeSegmentPoints [] [] (resolvePoint [] [] path)

private theorem depth_foldl (front stack : List (List UInt8)) :
    depth (front.foldl unitStep stack) = front.foldl depthStep (depth stack) := by
  induction front generalizing stack with
  | nil => rfl
  | cons s front ih => rw [List.foldl_cons, List.foldl_cons, ih, depth_unitStep]

private theorem nul_notMem_unitStep (hstack : ∀ u ∈ stack, 0 ∉ u) (hs : 0 ∉ s) :
    ∀ u ∈ unitStep stack s, 0 ∉ u := by
  have hslash : (0 : UInt8) ≠ slash := by decide
  rcases stack with _ | ⟨top, us⟩
  · simpa [unitStep] using hs
  · have htop := hstack top (by simp)
    have hus : ∀ u ∈ us, 0 ∉ u := fun u h => hstack u (by simp [h])
    rw [unitStep]
    split_ifs
    · simpa [hs, htop] using hus
    · exact hus
    · simpa [hs, htop, hslash] using hus
    · simpa [hs, htop] using hus

theorem nul_notMem_foldl (front : List (List UInt8)) (hfront : ∀ s ∈ front, 0 ∉ s)
    (hstack : ∀ u ∈ stack, 0 ∉ u) : ∀ u ∈ front.foldl unitStep stack, 0 ∉ u := by
  induction front generalizing stack with
  | nil => exact hstack
  | cons s front ih =>
      rw [List.foldl_cons]
      exact ih (fun s h => hfront s (by simp [h])) (nul_notMem_unitStep hstack (hfront s (by simp)))

theorem nul_notMem_below (hstack : ∀ u ∈ stack, 0 ∉ u) : 0 ∉ below stack := by
  have hslash : (0 : UInt8) ≠ slash := by decide
  induction stack with
  | nil => simp [below]
  | cons u us ih =>
      have hus := ih fun u h => hstack u (by simp [h])
      simp [below, hus, hstack u (by simp), hslash]

theorem cString_nul {a : List UInt8} (hnul : 0 ∉ a) (b : List UInt8) :
    cString (a ++ 0 :: b) = a := by
  rw [cString, List.takeWhile_append_of_pos fun x hx => by simpa using ne_of_mem_of_not_mem hx hnul]
  simp

theorem splitOn_last (path : List UInt8) : ∃ front s, path.splitOn slash = front ++ [s] ∧
    (path ++ [0]).splitOn slash = front ++ [s ++ [0]] ∧ (∀ s' ∈ front, slash ∉ s') ∧
      slash ∉ s := by
  obtain ⟨front, s, hsplit, hfront, hs⟩ := splitOn_nul path
  have hs' : slash ∉ s := fun h => hs (List.mem_append_left _ h)
  obtain ⟨front', last, hlast, hsplit'⟩ := splitOn_append path
  have hnul := hsplit' [0]
  have hself := hsplit' []
  have hlast' : slash ∉ last ++ [0] := by simp [hlast, show slash ≠ 0 by decide]
  rw [hsplit, List.splitOn_eq_singleton hlast'] at hnul
  rw [List.append_nil, List.append_nil, List.splitOn_eq_singleton hlast] at hself
  obtain ⟨hfronts, hlasts⟩ := List.append_inj' hnul rfl
  have heq : last = s := List.append_cancel_right (List.singleton_inj.mp hlasts).symm
  rw [← hfronts, heq] at hself
  exact ⟨front, s, hself, hsplit, hfront, hs'⟩

/-- The loops of `uriaa_resolve_uri` work the stack, and come to what the first one leaves of the
last segment. -/
theorem inLine_eq_resume {path : List UInt8} {front : List (List UInt8)}
    (hsplit : path.splitOn slash = front ++ [s]) (hfront : ∀ s' ∈ front, slash ∉ s')
    (hs : slash ∉ s) :
    inLine path = resume ((front.filter (· ≠ [dot])).foldl unitStep []) (lastLeft s) ∧
      Canonical ((front.filter (· ≠ [dot])).foldl unitStep []) := by
  have hkept : ∀ s' ∈ front.filter (· ≠ [dot]), slash ∉ s' :=
    fun s' h => hfront s' (List.mem_of_mem_filter h)
  have hpass : resume [] ([slash].intercalate (_ ++ [lastLeft s])) = _ ∧ Canonical _ :=
    removeSegmentPoints_front _ hkept (show Canonical [] from trivial)
  refine ⟨?_, hpass.2⟩
  rw [inLine, ← hpass.1]
  nth_rewrite 1 [← @List.intercalate_splitOn _ path _ _ slash]
  rw [hsplit, resolvePoint_join front hfront hs, List.nil_append]
  rfl

private theorem copies_agree {path : List UInt8} (hnul : 0 ∉ path) :
    cString (inString path) = cString (inLine path ++ [0]) ↔ CopiesAgree path := by
  obtain ⟨front, s, hsplit, hsplit', hfront, hs⟩ := splitOn_last path
  have hslash : slash ≠ 0 := by decide
  have hsegs : ∀ s' ∈ front ++ [s], 0 ∉ s' := by
    intro s' hmem hzero
    rw [← @List.intercalate_splitOn _ path _ _ slash, hsplit] at hnul
    exact hnul (Rfc2396.join_mem hmem hzero)
  have hkept : ∀ s' ∈ front.filter (· ≠ [dot]), slash ∉ s' :=
    fun s' h => hfront s' (List.mem_of_mem_filter h)
  have hs₀ : slash ∉ s ++ [0] := by simp [hs, hslash]
  have hne₀ : s ++ [0] ≠ parent := fun heq =>
    absurd (heq ▸ by simp : (0 : UInt8) ∈ parent) (by decide)
  -- both passes over the segments in front of the last one
  generalize hstack : (front.filter (· ≠ [dot])).foldl unitStep [] = stack
  have hbelow : 0 ∉ below stack := by
    rw [← hstack]
    refine nul_notMem_below (nul_notMem_foldl _ (fun s' h => ?_) (by simp))
    exact hsegs s' (List.mem_append_left _ (List.mem_of_mem_filter h))
  have hzero : 0 ∉ s := hsegs s (by simp)
  have hString : inString path = below stack ++ (s ++ [0]) := by
    have hpass : resume [] ([slash].intercalate (_ ++ [s ++ [0]])) = _ :=
      (removeSegmentPoints_front _ hkept (show Canonical [] from trivial)).1
    rw [hstack, resume_keptLast hs₀ (.inl hne₀)] at hpass
    rw [inString, ← hpass, ← @List.intercalate_splitOn _ (path ++ [0]) _ _ slash, hsplit',
      removeSegmentPoint_join front hfront hs₀, List.nil_append]
    rfl
  have hLine := inLine_eq_resume hsplit hfront hs
  rw [hstack] at hLine
  have hleft : cString (inString path) = below stack ++ s := by
    rw [hString, ← List.append_assoc]
    exact cString_nul (by simp [hbelow, hzero]) []
  have hdepth : (front.filter (· ≠ [dot])).foldl depthStep 0 = depth stack := by
    rw [← hstack, depth_foldl]
    rfl
  have hagree : CopiesAgree path ↔ s ≠ [dot] ∧ (s = parent → depth stack = 0) := by
    simp [CopiesAgree, hsplit, ← hdepth]
  rw [hleft, hLine.1, hagree]
  by_cases hdot : s = [dot]
  · -- the test behind the first loop has written a NUL over the `.`
    have hnul₀ : slash ∉ [(0 : UInt8)] := by simp [hslash]
    rw [lastLeft, if_pos hdot, resume_keptLast hnul₀ (.inl (by decide)), List.append_assoc]
    refine iff_of_false (fun heq => ?_) fun h => h.1 hdot
    have hcut : cString (below stack ++ ([0] ++ [0])) = below stack := cString_nul hbelow [0]
    rw [hcut, hdot] at heq
    simpa using congrArg List.length heq
  · rw [lastLeft, if_neg hdot]
    by_cases hkeep : s ≠ parent ∨ depth stack = 0
    · rw [resume_keptLast hs hkeep]
      refine iff_of_true ?_ ⟨hdot, fun hparent => hkeep.resolve_left (not_not.mpr hparent)⟩
      exact (cString_nul (by simp [hbelow, hzero]) []).symm
    · -- the last segment has taken a unit away
      rw [not_or, not_not] at hkeep
      obtain ⟨rfl, hunits⟩ := hkeep
      refine iff_of_false (fun heq => ?_) fun h => hunits (h.2 rfl)
      rcases stack with _ | ⟨top, us⟩
      · exact hunits rfl
      · have htop : top ≠ parent := fun htop => hunits (by simp [depth, htop])
        have hus : 0 ∉ below us := fun h => hbelow (by simp [below, h])
        rw [resume_parent hLine.2 htop, cString_nul hus []] at heq
        have hlength := congrArg List.length heq
        simp only [below, List.length_append, List.length_cons] at hlength
        omega

end Httpaa.Text

namespace Httpaa

open Heap

variable {h : Heap} {buf : Ptr} {scan : SegmentScan} {bufSize n : Nat}
  {done cur todo path : List UInt8} {x : UInt8}

/-! ### In memory -/

private theorem SegmentScan.At.removed_behind (gap : List UInt8) {rest : List UInt8}
    (hat : scan.At h buf bufSize done cur (x :: (gap ++ rest)))
    (hn : n = scan.i + 1 + gap.length) :
    (h.memmove (buf.add scan.segment) (buf.add n) (bufSize - scan.i - (n - scan.i) + 1)).byte
      (buf.add (bufSize - (n - scan.segment))) = h.byte (buf.add bufSize) := by
  have hsize := hat.bufSize
  have hle := scan.le
  simp only [List.length_cons, List.length_append] at hsize
  simp only [Heap.byte, Heap.memmove, Ptr.add]
  rw [if_pos ⟨trivial, by omega, by omega⟩]
  congr 1
  omega

/-- The first loop of `uriaa_resolve_uri` on a path with its NUL behind it. -/
theorem resolvePointLoop_holds (hat : scan.At h buf bufSize done cur todo)
    (hnul : h.byte (buf.add bufSize) = 0) :
    ∃ h', resolvePointLoop buf h bufSize scan =
        (h', (Text.resolvePoint done cur todo).length) ∧
      h'.Holds buf (Text.resolvePoint done cur todo ++ [0]) ∧ h'.size = h.size := by
  fun_induction Text.resolvePoint done cur todo generalizing h bufSize scan with
  | case1 done cur =>
      have hlength : bufSize = done.length + cur.length := by
        rw [hat.bufSize, hat.i]
        rfl
      have hholds : h.Holds buf (done ++ cur ++ [0]) := by
        refine holds_append.mpr ⟨by simpa using hat.holds, holds_cons.mpr ⟨?_, holds_nil⟩⟩
        rw [List.length_append, ← hlength]
        exact hnul
      have htest : (scan.segment + 1 = bufSize ∧ h.byte (buf.add scan.segment) = dot) ↔
          cur = [dot] := by
        rw [hat.cur_holds.eq_iff, hat.segment, hlength]
        simp [holds_cons, eq_comm]
      rw [resolvePointLoop, if_neg hat.ended]
      by_cases hdot : cur = [dot]
      · rw [if_pos (htest.mpr hdot), hlength, hdot, if_pos rfl, hat.segment]
        refine ⟨h.store (buf.add done.length) 0, by simp, ?_, rfl⟩
        rw [hdot, List.append_assoc] at hholds
        obtain ⟨hdone, hrest⟩ := holds_append.mp hholds
        have hbehind := (holds_cons.mp hrest).2
        rw [List.append_assoc]
        refine holds_append.mpr ⟨hdone.store_apart (.inr (.inl (Nat.le_refl _))),
          holds_cons.mpr ⟨store_byte, hbehind.store_apart (.inr (.inr (Nat.le_refl _)))⟩⟩
      · rw [if_neg (htest.not.mpr hdot), hlength, if_neg hdot]
        exact ⟨h, by simp, hholds, rfl⟩
  | case2 done todo ih =>
      have hsize := hat.bufSize
      simp only [List.length_cons] at hsize
      have hcount : bufSize - scan.i = bufSize - scan.i - (scan.i + 1 - scan.i) + 1 := by omega
      rw [resolvePointLoop, if_pos hat.more, if_pos hat.byte, if_pos (hat.dot_iff.mpr rfl)]
      have hremoved : SegmentScan.start.At _ _ _ _ _ _ := hat.removed [] rfl
      have hbehind : Heap.byte _ _ = _ := hat.removed_behind [] rfl
      simp only [List.length_nil, Nat.add_zero, ← hcount] at hremoved hbehind
      have hi := hat.i
      have hsegment := hat.segment
      simp only [List.length_cons, List.length_nil] at hi
      have hback : scan.back.At (h.memmove (buf.add scan.segment) (buf.add (scan.i + 1))
          (bufSize - scan.i)) buf (bufSize - (scan.i + 1 - scan.segment)) done [] todo := by
        refine ⟨by simpa using hremoved.holds, hsegment, hsegment, ?_⟩
        simp only [SegmentScan.back]
        omega
      exact ih hback (hbehind.trans hnul)
  | case3 done cur todo hcur ih =>
      rw [resolvePointLoop, if_pos hat.more, if_pos hat.byte, if_neg (hat.dot_iff.not.mpr hcur)]
      exact ih hat.nextSegment hnul
  | case4 done cur x todo hx ih =>
      have hbyte := hat.byte
      rw [resolvePointLoop, if_pos hat.more, if_neg fun heq => hx (hbyte.symm.trans heq)]
      exact ih hat.nextChar hnul

private theorem removeSegmentPointsLoop_behind (hat : scan.At h buf bufSize done cur todo) :
    (removeSegmentPointsLoop buf h bufSize scan).1.byte
      (buf.add (Text.removeSegmentPoints done cur todo).length) = h.byte (buf.add bufSize) := by
  fun_induction Text.removeSegmentPoints done cur todo generalizing h bufSize scan with
  | case1 done cur =>
      have hlength : bufSize = (done ++ cur).length := by
        rw [hat.bufSize, hat.i, List.length_append]
        rfl
      rw [removeSegmentPointsLoop, if_neg hat.ended, hlength]
  | case2 done todo ih =>
      rw [removeSegmentPointsLoop, if_pos hat.more, if_pos hat.byte,
        if_pos (hat.parent_iff.mpr rfl)]
      exact ih hat.nextSegment
  | case3 done cur todo hcur hparent hslash' ih =>
      have hbranch := (hat.parentSlash_prefix_iff hparent).mpr hslash'
      rw [removeSegmentPointsLoop, if_pos hat.more, if_pos hat.byte,
        if_neg (hat.parent_iff.not.mpr hcur), if_pos (hat.parent_prefix_iff.mpr hparent),
        if_pos hbranch]
      obtain ⟨rest, rfl⟩ := hslash'
      have hremoved : SegmentScan.start.At _ _ _ _ _ _ := hat.removed _ (n := scan.i + 4) rfl
      have hbehind : Heap.byte _ _ = _ := hat.removed_behind _ (n := scan.i + 4) rfl
      rw [show scan.i + 4 - scan.i = 4 by omega] at hremoved hbehind
      exact (ih hremoved).trans hbehind
  | case4 done cur hcur hparent hslash' ih =>
      have hat' : scan.At h buf bufSize done cur (slash :: (parent ++ [])) := hat
      rw [removeSegmentPointsLoop, if_pos hat.more, if_pos hat.byte,
        if_neg (hat.parent_iff.not.mpr hcur), if_pos (hat.parent_prefix_iff.mpr hparent),
        if_neg ((hat.parentSlash_prefix_iff hparent).not.mpr hslash'),
        if_pos ((hat.parent_end_iff hparent).mpr rfl)]
      have hremoved : SegmentScan.start.At _ _ _ _ _ _ := hat'.removed _ (n := scan.i + 3) rfl
      have hbehind : Heap.byte _ _ = _ := hat'.removed_behind _ (n := scan.i + 3) rfl
      rw [show scan.i + 3 - scan.i = 3 by omega] at hremoved hbehind
      rw [List.append_nil] at hremoved
      exact (ih hremoved).trans hbehind
  | case5 done cur todo hcur hparent hslash' hend ih =>
      rw [removeSegmentPointsLoop, if_pos hat.more, if_pos hat.byte,
        if_neg (hat.parent_iff.not.mpr hcur), if_pos (hat.parent_prefix_iff.mpr hparent),
        if_neg ((hat.parentSlash_prefix_iff hparent).not.mpr hslash'),
        if_neg ((hat.parent_end_iff hparent).not.mpr hend)]
      exact ih hat.nextChar
  | case6 done cur todo hcur hparent ih =>
      rw [removeSegmentPointsLoop, if_pos hat.more, if_pos hat.byte,
        if_neg (hat.parent_iff.not.mpr hcur), if_neg (hat.parent_prefix_iff.not.mpr hparent)]
      exact ih hat.nextSegment
  | case7 done cur x todo hslash ih =>
      have hbyte := hat.byte
      rw [removeSegmentPointsLoop, if_pos hat.more,
        if_neg (fun heq => hslash (hbyte.symm.trans heq))]
      exact ih hat.nextChar

/-! ### The two copies -/

/-- The C string that the functions on strings leave. -/
def removedInString (h : Heap) (s : Stringaa) : Option (List UInt8) := do
  let (_, h) ← uriaaRemoveSegmentPoint h s
  let (_, h, s) ← uriaaRemoveSegmentPoints h s
  h.cString (← s.buf)

/-- The C string that the loops of `uriaa_resolve_uri` leave of a path of `size` characters. -/
def removedInLine (h : Heap) (buf : Ptr) (size : Nat) : Option (List UInt8) :=
  let (h, size) := resolvePointLoop buf h size .start
  let (h, _) := removeSegmentPointsLoop buf h size .start
  h.cString buf

private theorem removedInString_eq {s : Stringaa} (hbuf : s.buf = some buf)
    (hsize : s.bufSize = path.length + 1) (hholds : h.Holds buf (path ++ [0]))
    (hblock : buf.off + path.length + 1 ≤ h.size buf.block) :
    removedInString h s = some (Text.cString (Text.inString path)) := by
  have hat := SegmentScan.At.start s.bufSize hholds (by simp [hsize])
  obtain ⟨tail, hfirst, hsparse, hsize₁, hlength⟩ := removeSegmentPointLoop_holds [] hat
    holds_nil (by simp) .nil
  have hat' := SegmentScan.At.start s.bufSize hfirst hlength.symm
  obtain ⟨h₂, hsecond, hheld, hsize₂⟩ := removeSegmentPointsLoop_holds hat'
  have hle := Text.removeSegmentPoints_length_le [] []
    (Text.removeSegmentPoint [] [] (path ++ [0]) ++ tail)
  rw [hlength] at hle
  obtain ⟨text, htext⟩ := Text.removeSegmentPoint_endsNul path
  have hnul : 0 ∈ Text.inString path := by
    have hlast : (Text.inString path).getLast? = some 0 :=
      Text.removeSegmentPoints_getLast (by simp [htext])
    exact List.mem_of_getLast? hlast
  rw [Text.removeSegmentPoints_tail hsparse.quiet (.inr ⟨text, htext⟩),
    show Text.removeSegmentPoints [] [] (Text.removeSegmentPoint [] [] (path ++ [0])) =
      Text.inString path from rfl] at hheld hsecond hle
  have hstring : h₂.cString buf = some (Text.cString (Text.inString path)) := by
    rw [hheld.cString ?_ (List.mem_append_left _ hnul), Text.cString_append hnul]
    rw [hsize₂, hsize₁]
    simp only [List.length_nil] at hle
    omega
  simp [removedInString, uriaaRemoveSegmentPoint, hbuf, uriaaRemoveSegmentPoints, hsecond, hstring]

private theorem removedInLine_eq (hholds : h.Holds buf (path ++ [0]))
    (hblock : buf.off + path.length + 1 ≤ h.size buf.block) :
    removedInLine h buf path.length = some (Text.cString (Text.inLine path ++ [0])) := by
  obtain ⟨hpath, hnul⟩ := holds_append.mp hholds
  have hat := SegmentScan.At.start path.length hpath rfl
  obtain ⟨h₁, hfirst, hheld₁, hsize₁⟩ := resolvePointLoop_holds hat (holds_cons.mp hnul).1
  obtain ⟨hheld₁', hnul₁⟩ := holds_append.mp hheld₁
  have hat' := SegmentScan.At.start _ hheld₁' rfl
  obtain ⟨h₂, hsecond, hheld₂, hsize₂⟩ := removeSegmentPointsLoop_holds hat'
  have hbehind := removeSegmentPointsLoop_behind hat'
  rw [hsecond, (holds_cons.mp hnul₁).1] at hbehind
  have hle := Text.removeSegmentPoints_length_le [] [] (Text.resolvePoint [] [] path)
  have hle' := Text.resolvePoint_length_le [] [] path
  have hstring : h₂.cString buf = some (Text.cString (Text.inLine path ++ [0])) := by
    refine Heap.Holds.cString ?_ ?_ (by simp)
    · exact holds_append.mpr ⟨hheld₂, holds_cons.mpr ⟨hbehind, holds_nil⟩⟩
    · rw [hsize₂, hsize₁]
      simp only [List.length_nil] at hle hle'
      simp only [List.length_append, List.length_cons, List.length_nil, Text.inLine]
      omega
  simp [removedInLine, hfirst, hsecond, hstring]

/-- For every path, in whatever memory, the two copies leave the same C string exactly where the
last segment is not `.` and takes nothing away. -/
theorem removeSegments_copiesAgree {s : Stringaa} {h' : Heap} {buf' : Ptr} (hnul : 0 ∉ path)
    (hbuf : s.buf = some buf) (hsize : s.bufSize = path.length + 1)
    (hholds : h.Holds buf (path ++ [0]))
    (hblock : buf.off + path.length + 1 ≤ h.size buf.block) (hholds' : h'.Holds buf' (path ++ [0]))
    (hblock' : buf'.off + path.length + 1 ≤ h'.size buf'.block) :
    ∃ a b, removedInString h s = some a ∧ removedInLine h' buf' path.length = some b ∧
      (a = b ↔ Text.CopiesAgree path) :=
  ⟨_, _, removedInString_eq hbuf hsize hholds hblock, removedInLine_eq hholds' hblock',
    Text.copies_agree hnul⟩

def upAndDown : List UInt8 := [ch 'a', slash, dot, dot, slash, ch 'b']

theorem removeSegments_copiesAgree_up :
    ∃ a b, removedInString (.ofText (upAndDown ++ [0]))
        { Stringaa.ofText 0 6 with bufSize := 7, isNullTerminated := true } = some a ∧
      removedInLine (.ofText (upAndDown ++ [0])) ⟨0, 0⟩ 6 = some b ∧
      (a = b ↔ Text.CopiesAgree upAndDown) :=
  removeSegments_copiesAgree (by decide) rfl rfl (Heap.ofText_holds _) (by decide)
    (Heap.ofText_holds _) (by decide)

/-- Of `a/.` one leaves `a/.`, the other `a/`. -/
theorem removeSegments_copiesDiffer : ¬ ∀ (h h' : Heap) (s : Stringaa) (buf buf' : Ptr)
    (path : List UInt8), 0 ∉ path → s.buf = some buf → s.bufSize = path.length + 1 →
      h.Holds buf (path ++ [0]) → buf.off + path.length + 1 ≤ h.size buf.block →
      h'.Holds buf' (path ++ [0]) → buf'.off + path.length + 1 ≤ h'.size buf'.block →
      removedInString h s = removedInLine h' buf' path.length := by
  intro hclaim
  have hholds := Heap.ofText_holds ([ch 'a', slash, dot] ++ [0])
  have hsame := hclaim _ _
    { Stringaa.ofText 0 3 with bufSize := 4, isNullTerminated := true } ⟨0, 0⟩ ⟨0, 0⟩
    [ch 'a', slash, dot] (by decide) rfl rfl hholds (by decide) hholds (by decide)
  rw [removedInString_eq rfl rfl hholds (by decide), removedInLine_eq hholds (by decide),
    Option.some.injEq, Text.copies_agree (by decide)] at hsame
  exact absurd hsame (by decide)

end Httpaa
