import Httpaa.Uri.NormalForm
import Httpaa.Uri.TwoCopies

/-!
# Paths that the passes bring into their normal form

The units of the second pass are the segments of the normal form, each with the segments behind it
that only begin with `..`. A removal that takes a unit of several segments takes too much; the path
is *straight* if there is none, and no dot segment at its end, where the passes remove none.
-/

namespace Httpaa.Text

variable {path normal root s t tail : List UInt8} {segs us stack stack' : List (List UInt8)}

/-- As `cancel`, but `..` takes no segment along that begins with `..` itself. -/
def cancelPlain (stack : List (List UInt8)) (s : List UInt8) : Option (List (List UInt8)) :=
  if s = parent ∧ parent <+: stack.headD [] then none else cancel stack s

private theorem cancelPlain_cancel (h : cancelPlain stack s = some stack') :
    cancel stack s = some stack' := by
  rw [cancelPlain] at h
  split_ifs at h
  exact h

/-- Every `..` with a slash behind it takes a segment along that does not begin with `..`, and the
last segment is no dot segment. -/
def Straight (path : List UInt8) : Prop :=
  0 ∉ path ∧ ((path.tail.splitOn slash).dropLast.foldlM cancelPlain []).isSome ∧
    (path.tail.splitOn slash).getLast? ≠ some [dot] ∧
    (path.tail.splitOn slash).getLast? ≠ some parent

instance (path : List UInt8) : Decidable (Straight path) :=
  inferInstanceAs (Decidable (_ ∧ _ ∧ _ ∧ _))

/-- `/a/../..b/c` is straight, `/..b/../c` is not. -/
example : Straight [slash, ch 'a', slash, dot, dot, slash, dot, dot, ch 'b', slash, ch 'c'] ∧
    ¬ Straight [slash, dot, dot, ch 'b', slash, dot, dot, slash, ch 'c'] := by decide

/-! ### Units that are the segments of the normal form -/

/-- The units are the root and the segments on the stack, grouped. -/
inductive Aligned : List (List UInt8) → List (List UInt8) → Prop
  | root : Aligned [[]] []
  | push {us stack : List (List UInt8)} {s : List UInt8} (h : Aligned us stack) (hs : slash ∉ s)
      (hparent : ¬ parent <+: s) : Aligned (s :: us) (s :: stack)
  | merge {top s : List UInt8} {us stack : List (List UInt8)} (h : Aligned (top :: us) stack)
      (hs : slash ∉ s) (hparent : parent <+: s) : Aligned ((top ++ slash :: s) :: us) (s :: stack)

private theorem merged_ne_parent (top s : List UInt8) : top ++ slash :: s ≠ parent := by
  intro heq
  exact slash_notMem_parent (heq ▸ by simp)

private theorem Aligned.notMem_parent (h : Aligned us stack) : parent ∉ us := by
  induction h with
  | root => decide
  | @push _ _ s _ _ hparent ih =>
      have hne : parent ≠ s := by
        rintro rfl
        exact hparent (List.prefix_refl parent)
      simp [ih, hne]
  | merge _ _ _ ih =>
      rw [List.mem_cons, not_or] at ih ⊢
      exact ⟨(merged_ne_parent _ _).symm, ih.2⟩

private theorem Aligned.text (h : Aligned us stack) :
    Text.below us = Text.below (stack ++ [[]]) := by
  induction h with
  | root => rfl
  | push _ _ _ ih => simp [Text.below, ih]
  | merge _ _ _ ih => simp [Text.below, ← ih]

private theorem Aligned.count (h : Aligned us stack) :
    (Text.below us).count slash = stack.length + 1 := by
  induction h with
  | root => decide
  | push _ hs _ ih => simp [Text.below, List.count_eq_zero.mpr hs, ih]
  | merge _ hs _ ih =>
      simp only [Text.below, List.count_append, List.count_cons_self, List.count_nil,
        List.count_eq_zero.mpr hs, List.length_cons] at ih ⊢
      omega

private theorem Aligned.step (h : Aligned us stack) (hs : slash ∉ s) (hdot : s ≠ [dot])
    (hcancel : cancelPlain stack s = some stack') : Aligned (unitStep us s) stack' := by
  have hnot := h.notMem_parent
  by_cases hparent : s = parent
  · rw [cancelPlain, cancel, if_neg hdot, if_pos hparent] at hcancel
    cases h with
    | root =>
        rw [if_neg (fun hand => absurd hand.2 (by decide))] at hcancel
        cases hcancel
    | push h _ hplain =>
        rw [if_neg (fun hand => hplain hand.2)] at hcancel
        cases hcancel
        rw [List.mem_cons, not_or] at hnot
        rwa [unitStep, if_neg (Ne.symm hnot.1), if_pos hparent]
    | merge _ _ hbegins =>
        rw [if_pos ⟨hparent, hbegins⟩] at hcancel
        cases hcancel
  · have hcancel' := cancelPlain_cancel hcancel
    rw [cancel, if_neg hdot, if_neg hparent] at hcancel'
    cases hcancel'
    obtain ⟨top, us', rfl⟩ : ∃ top us', us = top :: us' := by
      cases h <;> exact ⟨_, _, rfl⟩
    rw [List.mem_cons, not_or] at hnot
    rw [unitStep, if_neg (Ne.symm hnot.1), if_neg hparent]
    by_cases hbegins : parent <+: s
    · rw [if_pos hbegins]
      exact .merge h hs hbegins
    · rw [if_neg hbegins]
      exact .push h hs hbegins

/-! ### Units that fall short -/

/-- A unit `..` is at the bottom, or there are not as many segments as on a stack of this height. -/
def FallsShort (us : List (List UInt8)) (height : Nat) : Prop :=
  us.getLast? = some parent ∨ parent ∉ us ∧ (below us).count slash ≤ height

private theorem Aligned.falls (h : Aligned us stack) (hcancel : cancel stack s = some stack')
    (hplain : cancelPlain stack s = none) : FallsShort (unitStep us s) stack'.length := by
  rw [cancelPlain] at hplain
  split_ifs at hplain with hbegins
  · obtain ⟨rfl, hbegins⟩ := hbegins
    cases h with
    | root => exact absurd hbegins (by decide)
    | push _ _ hnot => exact absurd hbegins hnot
    | @merge top _ us _ h _ _ =>
        cases hcancel
        have hnot := h.notMem_parent
        have hcount := h.count
        rw [List.mem_cons, not_or] at hnot
        rw [unitStep, if_neg (merged_ne_parent _ _), if_pos rfl]
        refine .inr ⟨hnot.2, ?_⟩
        simp only [Text.below, List.count_append, List.count_cons_self, List.count_nil] at hcount
        omega
  · cases hcancel.symm.trans hplain

private theorem FallsShort.step (h : FallsShort us stack.length) (hs : slash ∉ s)
    (hdot : s ≠ [dot]) (hcancel : cancel stack s = some stack') :
    FallsShort (unitStep us s) stack'.length := by
  rcases h with hbottom | ⟨hnot, hcount⟩
  · exact .inl (unitStep_bottom hbottom)
  have hzero := List.count_eq_zero.mpr hs
  rw [cancel, if_neg hdot] at hcancel
  by_cases hparent : s = parent
  · rw [if_pos hparent] at hcancel
    cases us with
    | nil => exact .inl (by rw [hparent]; rfl)
    | cons top us =>
        rw [List.mem_cons, not_or] at hnot
        rw [unitStep, if_neg (Ne.symm hnot.1), if_pos hparent]
        refine .inr ⟨hnot.2, ?_⟩
        cases stack with
        | nil => cases hcancel
        | cons t stack =>
            cases hcancel
            simp only [Text.below, List.count_append, List.count_cons_self, List.count_nil,
              List.length_cons] at hcount
            omega
  · rw [if_neg hparent] at hcancel
    cases hcancel
    cases us with
    | nil =>
        refine .inr ⟨by simpa [unitStep] using Ne.symm hparent, ?_⟩
        simp [unitStep, Text.below, hzero]
    | cons top us =>
        rw [List.mem_cons, not_or] at hnot
        rw [unitStep, if_neg (Ne.symm hnot.1), if_neg hparent]
        simp only [Text.below, List.count_append, List.count_cons_self, List.count_nil] at hcount
        split_ifs with hbegins
        · refine .inr ⟨?_, ?_⟩
          · rw [List.mem_cons, not_or]
            exact ⟨(merged_ne_parent _ _).symm, hnot.2⟩
          · simp only [Text.below, List.count_append, List.count_cons_self, List.count_nil, hzero,
              List.length_cons]
            omega
        · refine .inr ⟨by simp [Ne.symm hparent, hnot], ?_⟩
          simp only [Text.below, List.count_append, List.count_cons_self, List.count_nil, hzero,
            List.length_cons]
          omega

private theorem FallsShort.foldl (segs : List (List UInt8)) (h : FallsShort us stack.length)
    (hsegs : ∀ s ∈ segs, slash ∉ s) (hcancel : segs.foldlM cancel stack = some stack') :
    FallsShort ((segs.filter (· ≠ [dot])).foldl unitStep us) stack'.length := by
  induction segs generalizing us stack with
  | nil =>
      cases hcancel
      exact h
  | cons s segs ih =>
      obtain ⟨next, hstep, hrest⟩ := Option.bind_eq_some_iff.mp hcancel
      obtain ⟨hs, hsegs⟩ := List.forall_mem_cons.mp hsegs
      by_cases hdot : s = [dot]
      · rw [cancel, if_pos hdot] at hstep
        cases hstep
        rw [List.filter_cons_of_neg (by simpa using hdot)]
        exact ih h hsegs hrest
      · rw [List.filter_cons_of_pos (by simpa using hdot), List.foldl_cons]
        exact ih (h.step hs hdot hstep) hsegs hrest

private theorem Aligned.foldl (segs : List (List UInt8)) (h : Aligned us stack)
    (hsegs : ∀ s ∈ segs, slash ∉ s) (hplain : segs.foldlM cancelPlain stack = some stack') :
    segs.foldlM cancel stack = some stack' ∧
      Aligned ((segs.filter (· ≠ [dot])).foldl unitStep us) stack' := by
  induction segs generalizing us stack with
  | nil =>
      cases hplain
      exact ⟨rfl, h⟩
  | cons s segs ih =>
      obtain ⟨next, hstep, hrest⟩ := Option.bind_eq_some_iff.mp hplain
      obtain ⟨hs, hsegs⟩ := List.forall_mem_cons.mp hsegs
      have hcancel := cancelPlain_cancel hstep
      rw [List.foldlM_cons, hcancel]
      by_cases hdot : s = [dot]
      · rw [cancel, if_pos hdot] at hcancel
        cases hcancel
        rw [List.filter_cons_of_neg (by simpa using hdot)]
        exact ih h hsegs hrest
      · rw [List.filter_cons_of_pos (by simpa using hdot), List.foldl_cons]
        exact ih (h.step hs hdot hstep) hsegs hrest

private theorem Aligned.foldl_falls (segs : List (List UInt8)) (h : Aligned us stack)
    (hsegs : ∀ s ∈ segs, slash ∉ s) (hcancel : segs.foldlM cancel stack = some stack')
    (hplain : segs.foldlM cancelPlain stack = none) :
    FallsShort ((segs.filter (· ≠ [dot])).foldl unitStep us) stack'.length := by
  induction segs generalizing us stack with
  | nil => cases hplain
  | cons s segs ih =>
      obtain ⟨next, hstep, hrest⟩ := Option.bind_eq_some_iff.mp hcancel
      obtain ⟨hs, hsegs⟩ := List.forall_mem_cons.mp hsegs
      rw [List.foldlM_cons] at hplain
      by_cases hdot : s = [dot]
      · have hstay : cancelPlain stack s = some stack := by
          rw [cancelPlain, if_neg (fun hand => absurd (hdot.symm.trans hand.1) (by decide)), cancel,
            if_pos hdot]
        rw [cancel, if_pos hdot] at hstep
        cases hstep
        rw [hstay] at hplain
        rw [List.filter_cons_of_neg (by simpa using hdot)]
        exact ih h hsegs hrest hplain
      · rw [List.filter_cons_of_pos (by simpa using hdot), List.foldl_cons]
        cases hfirst : cancelPlain stack s with
        | none => exact (h.falls hstep hfirst).foldl segs hsegs hrest
        | some next' =>
            cases hstep.symm.trans (cancelPlain_cancel hfirst)
            rw [hfirst] at hplain
            exact ih (h.step hs hdot hfirst) hsegs hrest hplain

/-! ### What the passes leave -/

private theorem render_last (us : List (List UInt8)) (hs : slash ∉ s) (hne : s ≠ parent) :
    render (unitStep us s) = below us ++ s := by
  cases us with
  | nil => rfl
  | cons top us =>
      have hor : s ≠ parent ∨ top = parent := .inl hne
      obtain ⟨top', us', hstep, -, -, htext⟩ := unitStep_passes us hs hor
      rw [hstep, render, ← htext]
      simp [below]

private theorem passes_cString {front : List (List UInt8)} (hnul : 0 ∉ path)
    (hsplit : path.splitOn slash = front ++ [s])
    (hsplit' : (path ++ [0]).splitOn slash = front ++ [s ++ [0]])
    (hfront : ∀ s' ∈ front, slash ∉ s') (hs : slash ∉ s) (hsparse : Sparse tail) :
    cString (removeSegmentPoints [] [] (removeSegmentPoint [] [] (path ++ [0]) ++ tail)) =
      below ((front.filter (· ≠ [dot])).foldl unitStep []) ++ s := by
  have hne : s ++ [0] ≠ parent := fun heq =>
    absurd (heq ▸ by simp : (0 : UInt8) ∈ parent) (by decide)
  have hs₀ : slash ∉ s ++ [0] := by simp [hs, show slash ≠ 0 by decide]
  have hkept : ∀ s' ∈ front.filter (· ≠ [dot]), slash ∉ s' :=
    fun s' h => hfront s' (List.mem_of_mem_filter h)
  have hsegs : ∀ s' ∈ front ++ [s], 0 ∉ s' := by
    intro s' hmem hzero
    rw [← @List.intercalate_splitOn _ path _ _ slash, hsplit] at hnul
    exact hnul (Rfc2396.join_mem hmem hzero)
  have hbelow : 0 ∉ below ((front.filter (· ≠ [dot])).foldl unitStep []) := by
    refine nul_notMem_below (nul_notMem_foldl _ (fun s' h => ?_) (by simp))
    exact hsegs s' (List.mem_append_left _ (List.mem_of_mem_filter h))
  have hfirst : removeSegmentPoint [] [] (path ++ [0]) =
      [slash].intercalate (front.filter (· ≠ [dot]) ++ [s ++ [0]]) := by
    rw [← @List.intercalate_splitOn _ (path ++ [0]) _ _ slash, hsplit',
      removeSegmentPoint_join front hfront hs₀, List.nil_append]
  have hsecond := removeSegmentPoints_join [] _ hkept hs₀ hne trivial
  rw [resume, render_last _ hs₀ hne] at hsecond
  have hname : 0 ∉ below ((front.filter (· ≠ [dot])).foldl unitStep []) ++ s := by
    rw [List.mem_append, not_or]
    exact ⟨hbelow, hsegs s (by simp)⟩
  rw [hfirst, removeSegmentPoints_tail hsparse.quiet (.inr (intercalate_nul _ _)), hsecond,
    ← List.append_assoc, List.append_assoc]
  exact cString_nul hname tail

private theorem intercalate_concat (s : List UInt8) (hne : segs ≠ []) :
    [slash].intercalate (segs ++ [s]) = [slash].intercalate segs ++ slash :: s := by
  induction segs with
  | nil => exact absurd rfl hne
  | cons u segs ih =>
      cases segs with
      | nil => simp
      | cons u' segs =>
          have hrest := ih (by simp)
          rw [List.cons_append] at hrest
          rw [List.cons_append, List.cons_append, List.intercalate_cons_cons, hrest,
            List.intercalate_cons_cons]
          simp

private theorem normal_text (stack : List (List UInt8)) (s : List UInt8) :
    slash :: [slash].intercalate (s :: stack).reverse = below (stack ++ [[]]) ++ s := by
  induction stack generalizing s with
  | nil => simp [below]
  | cons t stack ih =>
      rw [List.reverse_cons, intercalate_concat _ (by simp), ← List.cons_append, ih t]
      simp [below]

private theorem below_root_getLast (stack : List (List UInt8)) :
    (below (stack ++ [[]])).getLast? = some slash := by
  cases stack <;> simp [below]

private theorem below_root_count (stack : List (List UInt8)) :
    stack.length + 1 ≤ (below (stack ++ [[]])).count slash := by
  induction stack with
  | nil => decide
  | cons t stack ih =>
      simp only [List.cons_append, below, List.count_append, List.count_cons_self, List.count_nil,
        List.length_cons]
      omega

private theorem below_prefix (h : us.getLast? = some s) : s ++ [slash] <+: below us := by
  induction us with
  | nil => cases h
  | cons u us ih =>
      cases us with
      | nil =>
          cases h
          exact List.prefix_refl _
      | cons u' us =>
          have hbelow := ih (by simpa using h)
          rw [below, List.append_assoc]
          exact hbelow.trans (List.prefix_append _ _)

/-- A text that begins with `../` begins so before the slash of another. -/
private theorem parent_prefix_of_append (htail : [slash] <+: tail)
    (h : parent ++ [slash] <+: root ++ tail) : parent <+: root := by
  obtain ⟨rest, rfl⟩ := htail
  cases root with
  | nil => simp [parent, slash_ne_dot.symm] at h
  | cons x root =>
      cases root with
      | nil => simp [parent, slash_ne_dot.symm] at h
      | cons y root =>
          simp only [parent, List.cons_append, List.nil_append, List.cons_prefix_cons] at h
          obtain ⟨rfl, rfl, -⟩ := h
          exact List.prefix_append [dot, dot] root

private theorem normalForm_cases {rest : List UInt8} {front : List (List UInt8)}
    (hsplit : rest.splitOn slash = front ++ [s])
    (hnormal : normalForm (slash :: rest) = some normal) :
    ∃ stack, front.foldlM cancel [] = some stack ∧
      (s ≠ [dot] ∧ s ≠ parent ∧ normal = below (stack ++ [[]]) ++ s ∨
        (s = [dot] ∨ s = parent) ∧ normal.getLast? = some slash) := by
  rw [normalForm, List.tail_cons, hsplit] at hnormal
  obtain ⟨stack', hcancel, hnormal⟩ := Option.bind_eq_some_iff.mp hnormal
  rw [List.foldlM_append] at hcancel
  obtain ⟨stack, hfront, hlast⟩ := Option.bind_eq_some_iff.mp hcancel
  obtain ⟨next, hlast, hnext⟩ := Option.bind_eq_some_iff.mp hlast
  cases hnext
  simp only [List.getLast?_concat, Option.some.injEq, Option.pure_def] at hnormal
  refine ⟨stack, hfront, ?_⟩
  by_cases hdots : s = [dot] ∨ s = parent
  · rw [if_pos hdots, normal_text, List.append_nil] at hnormal
    exact .inr ⟨hdots, hnormal ▸ below_root_getLast stack'⟩
  · rw [not_or] at hdots
    rw [cancel, if_neg hdots.1, if_neg hdots.2] at hlast
    cases hlast
    rw [if_neg (not_or.mpr hdots), normal_text] at hnormal
    exact .inl ⟨hdots.1, hdots.2, hnormal.symm⟩

private theorem passes_root {rest : List UInt8} (hnul : 0 ∉ rest) (hsparse : Sparse tail) :
    ∃ front s, rest.splitOn slash = front ++ [s] ∧ (∀ s' ∈ front, slash ∉ s') ∧
      cString (removeSegmentPoints [] []
          (removeSegmentPoint [] [] (slash :: rest ++ [0]) ++ tail)) =
        below ((front.filter (· ≠ [dot])).foldl unitStep [[]]) ++ s := by
  obtain ⟨front, s, hsplit, hsplit', hfront, hs⟩ := splitOn_last rest
  refine ⟨front, s, hsplit, hfront, ?_⟩
  have hpath : (slash :: rest).splitOn slash = ([] :: front) ++ [s] := by
    simp [List.splitOn_cons_eq_if_modifyHead, hsplit]
  have hpath' : (slash :: rest ++ [0]).splitOn slash = ([] :: front) ++ [s ++ [0]] := by
    rw [List.cons_append, List.splitOn_cons_eq_if_modifyHead, hsplit']
    simp
  have hfront' : ∀ s' ∈ [] :: front, slash ∉ s' :=
    List.forall_mem_cons.mpr ⟨List.not_mem_nil, hfront⟩
  have hnul' : 0 ∉ slash :: rest := by simp [hnul, show (0 : UInt8) ≠ slash by decide]
  rw [passes_cString hnul' hpath hpath' hfront' hs hsparse]
  rfl

/-- The passes bring a straight path into its normal form. -/
theorem Straight.passes (hslash : path.head? = some slash) (hstraight : Straight path)
    (hsparse : Sparse tail) : ∃ normal, normalForm path = some normal ∧
      cString (removeSegmentPoints [] [] (removeSegmentPoint [] [] (path ++ [0]) ++ tail)) =
        normal := by
  obtain ⟨rest, rfl⟩ := List.head?_eq_some_iff.mp hslash
  obtain ⟨hnul, hplain, hdot, hparent⟩ := hstraight
  rw [List.tail_cons] at hplain hdot hparent
  obtain ⟨front, s, hsplit, hfront, hname⟩ :=
    passes_root (fun h => hnul (List.mem_cons_of_mem _ h)) hsparse
  rw [hsplit, List.dropLast_concat] at hplain
  rw [hsplit, List.getLast?_concat, ne_eq, Option.some.injEq] at hdot hparent
  obtain ⟨stack, hplain⟩ := Option.isSome_iff_exists.mp hplain
  obtain ⟨hcancel, haligned⟩ := Aligned.root.foldl front hfront hplain
  refine ⟨_, ?_, hname⟩
  rw [haligned.text, ← normal_text, normalForm, List.tail_cons, hsplit, List.foldlM_append,
    hcancel]
  simp [cancel, hdot, hparent]

/-- Where the passes leave a root and the normal form, there is no root and the path is straight. -/
theorem straight_of_passes (hslash : path.head? = some slash) (hnul : 0 ∉ path)
    (hroot : ¬ parent <+: root) (hsparse : Sparse tail) (hnormal : normalForm path = some normal)
    (hname : cString (removeSegmentPoints [] [] (removeSegmentPoint [] [] (path ++ [0]) ++ tail)) =
      root ++ normal) : root = [] ∧ Straight path := by
  obtain ⟨rest, rfl⟩ := List.head?_eq_some_iff.mp hslash
  obtain ⟨front, s, hsplit, hfront, htext⟩ :=
    passes_root (fun h => hnul (List.mem_cons_of_mem _ h)) hsparse
  obtain ⟨stack, hcancel, hcase⟩ := normalForm_cases hsplit hnormal
  rw [htext] at hname
  rcases hcase with ⟨hdot, hparent, rfl⟩ | ⟨hdots, hlast⟩
  · rw [← List.append_assoc] at hname
    have hbelow := List.append_cancel_right hname
    cases hplain : front.foldlM cancelPlain [] with
    | some stack' =>
        obtain ⟨hcancel', haligned⟩ := Aligned.root.foldl front hfront hplain
        cases hcancel.symm.trans hcancel'
        rw [haligned.text] at hbelow
        refine ⟨List.self_eq_append_left.mp hbelow, hnul, ?_, ?_, ?_⟩
        · rw [List.tail_cons, hsplit, List.dropLast_concat, hplain]
          rfl
        · simpa [hsplit] using hdot
        · simpa [hsplit] using hparent
    | none =>
        rcases Aligned.root.foldl_falls front hfront hcancel hplain with hbottom | ⟨-, hcount⟩
        · have hup := below_prefix hbottom
          rw [hbelow] at hup
          have hslash : [] ++ [slash] <+: below (stack ++ [[]]) :=
            below_prefix List.getLast?_concat
          exact absurd (parent_prefix_of_append hslash hup) hroot
        · have hroots := below_root_count stack
          rw [hbelow, List.count_append] at hcount
          omega
  · have hends := congrArg List.getLast? hname
    rw [List.getLast?_append, List.getLast?_append, hlast] at hends
    rcases hdots with rfl | rfl
    · exact absurd hends (by simp [slash_ne_dot.symm])
    · exact absurd hends (by simp [parent, slash_ne_dot.symm])

end Httpaa.Text
