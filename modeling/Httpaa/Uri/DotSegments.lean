import Httpaa.Uri.Resolve

/-!
# What the removal of dot segments leaves

On the segments of a path the two scans are two passes. The first drops the segments `.` that a
slash follows. The second works a stack of units: a segment `..` takes the unit on top away, unless
that is itself `..`, and a segment that only begins with `..` becomes part of the unit on top. The
path *stays inside* when no `..` meets the empty stack and what is left does not end in `..`; then,
and only then, no segment of the result is `..`. The scans count in an `int`: paths are shorter than
2^31.
-/

namespace Httpaa.Text

variable {done cur top s todo tail rest a b : List UInt8} {segs stack us : List (List UInt8)}

/-! ### Dropping `.` -/

/-- The segments without those that are `.`, of which the last is kept. -/
def withoutPoints : List (List UInt8) → List (List UInt8)
  | [] => []
  | [s] => [s]
  | s :: s' :: segs =>
    if s = [dot] then withoutPoints (s' :: segs) else s :: withoutPoints (s' :: segs)

private theorem withoutPoints_concat (front : List (List UInt8)) (s : List UInt8) :
    withoutPoints (front ++ [s]) = front.filter (· ≠ [dot]) ++ [s] := by
  induction front with
  | nil => rfl
  | cons s' front ih =>
      obtain ⟨s'', segs, hsegs⟩ : ∃ s'' segs, front ++ [s] = s'' :: segs := by
        cases front <;> simp
      rw [List.cons_append, hsegs, withoutPoints, ← hsegs, ih]
      by_cases hs : s' = [dot] <;> simp [hs]

private theorem removeSegmentPoint_walk (done cur todo : List UInt8) (hs : slash ∉ s) :
    removeSegmentPoint done cur (s ++ todo) = removeSegmentPoint done (cur ++ s) todo := by
  induction s generalizing cur with
  | nil => simp
  | cons x s ih =>
      simp only [List.mem_cons, not_or] at hs
      rw [List.cons_append, removeSegmentPoint, if_neg (Ne.symm hs.1), ih _ hs.2]
      simp

theorem removeSegmentPoint_join (front : List (List UInt8)) (hfront : ∀ s' ∈ front, slash ∉ s')
    (hs : slash ∉ s) :
    removeSegmentPoint done [] ([slash].intercalate (front ++ [s])) =
      done ++ [slash].intercalate (front.filter (· ≠ [dot]) ++ [s]) := by
  induction front generalizing done with
  | nil =>
      have hwalk := removeSegmentPoint_walk done [] [] hs
      simpa [removeSegmentPoint] using hwalk
  | cons s' front ih =>
      have hs' := hfront s' (by simp)
      have hrest : ∀ done, removeSegmentPoint done [] _ = done ++ _ := fun _ =>
        ih fun s'' h => hfront s'' (List.mem_cons_of_mem _ h)
      rw [List.cons_append, List.intercalate_cons_of_ne_nil (by simp), List.append_assoc,
        removeSegmentPoint_walk _ _ _ hs', List.nil_append, List.singleton_append,
        removeSegmentPoint,
        if_pos rfl]
      by_cases hdot : s' = [dot]
      · rw [if_pos hdot, hrest]
        simp [hdot]
      · rw [if_neg hdot, hrest, List.filter_cons_of_pos (by simpa using hdot), List.cons_append,
          List.intercalate_cons_of_ne_nil (by simp)]
        simp only [List.append_assoc]

/-! ### The units of the second pass -/

/-- The completed units, the last one first, each with the slash behind it. -/
def below : List (List UInt8) → List UInt8
  | [] => []
  | u :: us => below us ++ u ++ [slash]

/-- The text of all units. -/
def render : List (List UInt8) → List UInt8
  | [] => []
  | u :: us => below us ++ u

/-- What a segment does to the units in front of it. -/
def unitStep (stack : List (List UInt8)) (s : List UInt8) : List (List UInt8) :=
  match stack with
  | [] => [s]
  | top :: us =>
    if top = parent then s :: top :: us
    else if s = parent then us
    else if parent <+: s then (top ++ slash :: s) :: us
    else s :: top :: us

/-- A text that starts with a slash, if it starts at all. -/
def Ends (todo : List UInt8) : Prop := todo = [] ∨ ∃ rest, todo = slash :: rest

theorem slash_ne_dot : slash ≠ dot := by decide

theorem slash_notMem_parent : slash ∉ parent := by decide

private theorem parent_prefix_append (htodo : Ends todo) : parent <+: s ++ todo ↔ parent <+: s := by
  have hdot := slash_ne_dot.symm
  rcases htodo with rfl | ⟨rest, rfl⟩
  · rw [List.append_nil]
  · rcases s with _ | ⟨x, _ | ⟨y, s⟩⟩ <;> simp [parent, List.cons_prefix_cons, hdot]

theorem removeSegmentPoints_walk (done cur todo : List UInt8) (hs : slash ∉ s) :
    removeSegmentPoints done cur (s ++ todo) = removeSegmentPoints done (cur ++ s) todo := by
  induction s generalizing cur with
  | nil => simp
  | cons x s ih =>
      simp only [List.mem_cons, not_or] at hs
      rw [List.cons_append, removeSegmentPoints, if_neg (Ne.symm hs.1), ih _ hs.2]
      simp

theorem removeSegmentPoints_push (hs : slash ∉ s) (htodo : Ends todo)
    (hpush : top = parent ∨ ¬ parent <+: s) :
    removeSegmentPoints done top (slash :: (s ++ todo)) =
      removeSegmentPoints (done ++ top ++ [slash]) s todo := by
  have hwalk := removeSegmentPoints_walk (done ++ top ++ [slash]) [] todo hs
  rw [removeSegmentPoints, if_pos rfl]
  by_cases htop : top = parent
  · rw [if_pos htop]
    exact hwalk
  · rw [if_neg htop, if_neg ((parent_prefix_append htodo).not.mpr (hpush.resolve_left htop))]
    exact hwalk

private theorem removeSegmentPoints_merge (hs : slash ∉ s) (htop : top ≠ parent)
    (hparent : parent <+: s) (hne : s ≠ parent) :
    removeSegmentPoints done top (slash :: (s ++ todo)) =
      removeSegmentPoints done (top ++ slash :: s) todo := by
  obtain ⟨more, rfl⟩ := hparent
  obtain ⟨x, more, rfl⟩ : ∃ x more', more = x :: more' := by
    cases more with
    | nil => exact absurd (List.append_nil _) hne
    | cons x more => exact ⟨x, more, rfl⟩
  have hx : slash ≠ x := fun heq => hs (by simp [heq])
  have hwalk := removeSegmentPoints_walk done (top ++ [slash]) todo hs
  rw [removeSegmentPoints, if_pos rfl, if_neg htop,
    if_pos ((List.prefix_append _ _).trans (List.prefix_append _ _)),
    if_neg (by simp [parent, hx]), if_neg (by simp [parent]), hwalk]
  simp

private theorem removeSegmentPoints_pop (htop : top ≠ parent) :
    removeSegmentPoints done top (slash :: (parent ++ slash :: rest)) =
      removeSegmentPoints [] [] (done ++ rest) := by
  rw [removeSegmentPoints, if_pos rfl, if_neg htop, if_pos (List.prefix_append _ _),
    if_pos (by simp)]
  rfl

/-- From the start of the text the scan gets to the top unit, whatever follows. -/
def Settled (us : List (List UInt8)) (top : List UInt8) : Prop :=
  ∀ todo, Ends todo →
    removeSegmentPoints [] [] (below us ++ top ++ todo) = removeSegmentPoints (below us) top todo

def Canonical : List (List UInt8) → Prop
  | [] => True
  | top :: us => Settled us top ∧ Canonical us

/-- The scan behind the units of a stack. -/
def resume (stack : List (List UInt8)) (rest : List UInt8) : List UInt8 :=
  match stack with
  | [] => removeSegmentPoints [] [] rest
  | top :: us => removeSegmentPoints (below us) top (slash :: rest)

theorem Canonical.resume (hcanonical : Canonical stack) (rest : List UInt8) :
    removeSegmentPoints [] [] (below stack ++ rest) = resume stack rest := by
  cases stack with
  | nil => rfl
  | cons top us =>
      have hsettled := hcanonical.1 (slash :: rest) (.inr ⟨rest, rfl⟩)
      simpa [below, Text.resume] using hsettled

/-- A segment that is no `..` to be removed is passed, alone or as part of the top unit. -/
theorem unitStep_passes (us : List (List UInt8)) (hs : slash ∉ s)
    (hne : s ≠ parent ∨ top = parent) :
    ∃ top' us', unitStep (top :: us) s = top' :: us' ∧ (us' = us ∨ us' = top :: us) ∧
      (∀ todo, Ends todo → removeSegmentPoints (below us) top (slash :: (s ++ todo)) =
        removeSegmentPoints (below us') top' todo) ∧
      below us ++ top ++ slash :: s = below us' ++ top' := by
  by_cases htop : top = parent
  · exact ⟨s, top :: us, if_pos htop, .inr rfl,
      fun todo htodo => removeSegmentPoints_push hs htodo (.inl htop), by simp [below]⟩
  · have hs' := hne.resolve_right htop
    by_cases hparent : parent <+: s
    · exact ⟨top ++ slash :: s, us, by simp [unitStep, htop, hs', hparent], .inl rfl,
        fun todo _ => removeSegmentPoints_merge hs htop hparent hs', by simp⟩
    · exact ⟨s, top :: us, by simp [unitStep, htop, hs', hparent], .inr rfl,
        fun todo htodo => removeSegmentPoints_push hs htodo (.inr hparent), by simp [below]⟩

theorem Canonical.unitStep (hcanonical : Canonical stack) (hs : slash ∉ s) :
    Canonical (unitStep stack s) := by
  rcases stack with _ | ⟨top, us⟩
  · exact ⟨fun todo _ => removeSegmentPoints_walk [] [] todo hs, trivial⟩
  · obtain ⟨hsettled, hcanonical'⟩ := hcanonical
    by_cases hpop : s = parent ∧ top ≠ parent
    · simpa [Text.unitStep, hpop.1, hpop.2] using hcanonical'
    · have hne : s ≠ parent ∨ top = parent := by
        rwa [not_and, not_not, imp_iff_not_or] at hpop
      obtain ⟨top', us', hstep, hus, hpass, htext⟩ := unitStep_passes us hs hne
      rw [hstep]
      refine ⟨fun todo htodo => ?_, ?_⟩
      · have hscan := hsettled (slash :: (s ++ todo)) (.inr ⟨_, rfl⟩)
        rw [← htext, List.append_assoc, List.cons_append, hscan, hpass todo htodo]
      · rcases hus with rfl | rfl
        · exact hcanonical'
        · exact ⟨hsettled, hcanonical'⟩

theorem resume_segment (hcanonical : Canonical stack) (hs : slash ∉ s) (rest : List UInt8) :
    resume stack (s ++ slash :: rest) = resume (unitStep stack s) rest := by
  rcases stack with _ | ⟨top, us⟩
  · exact removeSegmentPoints_walk _ _ _ hs
  · by_cases hpop : s = parent ∧ top ≠ parent
    · obtain ⟨rfl, htop⟩ := hpop
      have hunder := hcanonical.2.resume rest
      simpa [resume, unitStep, htop, removeSegmentPoints_pop htop] using hunder
    · have hne : s ≠ parent ∨ top = parent := by
        rwa [not_and, not_not, imp_iff_not_or] at hpop
      obtain ⟨top', us', hstep, -, hpass, -⟩ := unitStep_passes us hs hne
      rw [hstep]
      exact hpass (slash :: rest) (.inr ⟨rest, rfl⟩)

theorem resume_last (hs : slash ∉ s) (hne : s ≠ parent) :
    resume stack s = render (unitStep stack s) := by
  rcases stack with _ | ⟨top, us⟩
  · have hwalk := removeSegmentPoints_walk [] [] [] hs
    simpa [resume, unitStep, render, below, removeSegmentPoints] using hwalk
  · obtain ⟨top', us', hstep, -, hpass, -⟩ := @unitStep_passes top s us hs (.inl hne)
    have hscan := hpass [] (.inl rfl)
    rw [List.append_nil] at hscan
    rw [hstep, resume, hscan, removeSegmentPoints]
    rfl

/-- The second pass works the stack. -/
theorem removeSegmentPoints_join (stack front : List (List UInt8))
    (hfront : ∀ s' ∈ front, slash ∉ s') (hs : slash ∉ s) (hne : s ≠ parent)
    (hcanonical : Canonical stack) :
    resume stack ([slash].intercalate (front ++ [s])) =
      render (unitStep (front.foldl unitStep stack) s) := by
  induction front generalizing stack with
  | nil => simpa using resume_last hs hne
  | cons s' front ih =>
      have hs' := hfront s' (by simp)
      rw [List.cons_append, List.intercalate_cons_of_ne_nil (by simp), List.append_assoc,
        List.singleton_append, resume_segment hcanonical hs', List.foldl_cons]
      exact ih _ (fun s'' h => hfront s'' (List.mem_cons_of_mem _ h)) (hcanonical.unitStep hs')

/-! ### What stands behind the text -/

private theorem quiet_of_cons {x : UInt8} (hquiet : Quiet (x :: tail)) : Quiet tail :=
  fun hpart => hquiet (hpart.trans (List.suffix_cons x tail).isInfix)

private theorem removeSegmentPoints_quiet (hquiet : Quiet tail) :
    removeSegmentPoints done cur tail = done ++ cur ++ tail := by
  induction tail generalizing done cur with
  | nil => simp [removeSegmentPoints]
  | cons x tail ih =>
      have hparent : ¬ parent <+: tail := fun h => quiet_of_cons hquiet h.isInfix
      rw [removeSegmentPoints, if_neg hparent, ih (quiet_of_cons hquiet), ih (quiet_of_cons hquiet)]
      by_cases hx : x = slash <;> by_cases hcur : cur = parent <;> simp [hx, hcur]

private theorem prefix_append_of_nul (hmem : 0 ∈ todo) (ha : 0 ∉ a) :
    a <+: todo ++ tail ↔ a <+: todo := by
  refine ⟨fun h => ?_, fun h => h.trans (List.prefix_append _ _)⟩
  rcases List.prefix_or_prefix_of_prefix h (List.prefix_append todo tail) with h' | h'
  · exact h'
  · exact absurd (h'.subset hmem) ha

private theorem endsNul_of_cons {x : UInt8} (hlast : ∃ front, x :: todo = front ++ [0]) :
    (todo = [] ∧ x = 0) ∨ ∃ front, todo = front ++ [0] := by
  obtain ⟨front, hfront⟩ := hlast
  cases front with
  | nil => exact .inl (by simpa [and_comm] using hfront)
  | cons y front => exact .inr ⟨front, by simpa using (List.cons.inj hfront).2⟩

/-- A quiet tail behind the NUL of a text goes along with the text. -/
theorem removeSegmentPoints_tail (hquiet : Quiet tail)
    (hlast : todo = [] ∨ ∃ front, todo = front ++ [0]) :
    removeSegmentPoints done cur (todo ++ tail) = removeSegmentPoints done cur todo ++ tail := by
  have hnul : 0 ∉ parent := by decide
  have hnul' : 0 ∉ parent ++ [slash] := by decide
  have hbehind : ∀ {todo : List UInt8},
      (slash :: todo = [] ∨ ∃ front, slash :: todo = front ++ [0]) →
        ∃ front, todo = front ++ [0] := fun h =>
    ((endsNul_of_cons (h.resolve_left (by simp))).resolve_left fun h => absurd h.2 (by decide))
  fun_induction removeSegmentPoints done cur todo with
  | case1 done cur => exact removeSegmentPoints_quiet hquiet
  | case2 done todo ih =>
      rw [List.cons_append, removeSegmentPoints, if_pos rfl, if_pos rfl, ih (.inr (hbehind hlast))]
  | case3 done cur todo hcur hparent hslash' ih =>
      obtain ⟨front, hfront⟩ := hbehind hlast
      obtain ⟨rest, rfl⟩ := hslash'
      have hrest : ∃ front, rest = front ++ [0] := by
        rcases List.eq_nil_or_concat rest with rfl | ⟨front', x, rfl⟩
        · have hmem : (0 : UInt8) ∈ parent ++ [slash] ++ [] := hfront ▸ by simp
          exact absurd (by simpa using hmem) hnul'
        · rw [List.concat_eq_append, ← List.append_assoc] at hfront
          exact ⟨front', by rw [List.concat_eq_append, (List.append_inj' hfront rfl).2]⟩
      have hdrop : ∀ rest : List UInt8, (parent ++ [slash] ++ rest).drop 3 = rest := fun _ => rfl
      rw [hdrop] at ih
      have hmore := ih (by obtain ⟨front', rfl⟩ := hrest; exact .inr ⟨done ++ front', by simp⟩)
      rw [List.cons_append, removeSegmentPoints, if_pos rfl, if_neg hcur,
        if_pos (hparent.trans (List.prefix_append _ _)),
        if_pos ((List.prefix_append _ _).trans (List.prefix_append _ _)), List.append_assoc, hdrop,
        ← List.append_assoc, hmore, hdrop]
  | case4 done cur hcur hparent hslash' ih =>
      obtain ⟨front, hfront⟩ := hbehind hlast
      have hmem : (0 : UInt8) ∈ parent := hfront ▸ by simp
      exact absurd hmem hnul
  | case5 done cur todo hcur hparent hslash' hend ih =>
      obtain ⟨front, hfront⟩ := hbehind hlast
      have hmem : 0 ∈ todo := by simp [hfront]
      have hend' : ¬ todo ++ tail = parent := fun h => hnul (h ▸ List.mem_append_left _ hmem)
      rw [List.cons_append, removeSegmentPoints, if_pos rfl, if_neg hcur,
        if_pos (hparent.trans (List.prefix_append _ _)),
        if_neg ((prefix_append_of_nul hmem hnul').not.mpr hslash'), if_neg hend',
        ih (.inr ⟨front, hfront⟩)]
  | case6 done cur todo hcur hparent ih =>
      obtain ⟨front, hfront⟩ := hbehind hlast
      have hmem : 0 ∈ todo := by simp [hfront]
      rw [List.cons_append, removeSegmentPoints, if_pos rfl, if_neg hcur,
        if_neg ((prefix_append_of_nul hmem hnul).not.mpr hparent), ih (.inr ⟨front, hfront⟩)]
  | case7 done cur x todo hslash ih =>
      have hmore := (endsNul_of_cons (hlast.resolve_left (by simp))).imp_left And.left
      rw [List.cons_append, removeSegmentPoints, if_neg hslash, ih hmore]

/-! ### Paths that stay inside -/

/-- Read as a C string, the text has a segment `..`. -/
def NamesParent (text : List UInt8) : Prop := parent ∈ (cString text).splitOn slash

instance (text : List UInt8) : Decidable (NamesParent text) :=
  inferInstanceAs (Decidable (parent ∈ (cString text).splitOn slash))

/-- What is known of a text once its first NUL has come: whether a segment in front of that is
`..`. -/
def verdict (text : List UInt8) : Option Bool :=
  if 0 ∈ text then some (decide (NamesParent text)) else none

/-- How a segment moves the stack of verdicts, one for each unit with all below it. It fails where
`..` meets the empty stack. -/
def climbStep (stack : List (Option Bool)) (s : List UInt8) : Option (List (Option Bool)) :=
  match stack with
  | [] => if s = parent then none else some [verdict s]
  | top :: below =>
    if s = parent then some below
    else if parent <+: s then some (top.or (verdict s) :: below)
    else some (top.or (verdict s) :: top :: below)

/-- The segments of a path with its NUL, without `.`. -/
def keptSegments (path : List UInt8) : List (List UInt8) :=
  withoutPoints ((path ++ [0]).splitOn slash)

/-- No `..` leads out of the path, and it does not end, at its first NUL, with `..`. -/
def StaysInside (path : List UInt8) : Prop :=
  ((keptSegments path).foldlM climbStep []).bind List.head? = some (some false)

instance (path : List UInt8) : Decidable (StaysInside path) :=
  inferInstanceAs (Decidable (_ = some (some false)))

private theorem cString_slash (hnul : 0 ∉ a) : cString (a ++ slash :: b) =
    a ++ slash :: cString b := by
  have hall : ∀ x ∈ a, decide (x ≠ 0) = true := fun x hx => by
    simpa using ne_of_mem_of_not_mem hx hnul
  rw [cString, List.takeWhile_append_of_pos hall]
  rfl

private theorem namesParent_append :
    NamesParent (a ++ slash :: b) ↔ NamesParent a ∨ 0 ∉ a ∧ NamesParent b := by
  by_cases hnul : 0 ∈ a
  · simp [NamesParent, cString_append hnul, hnul]
  · simp [NamesParent, cString_slash hnul, cString_eq_self hnul, hnul,
      List.splitOn_append_cons_self]

private theorem namesParent_segment (hs : slash ∉ s) (hnul : 0 ∉ s) :
    NamesParent s ↔ s = parent := by
  rw [NamesParent, cString_eq_self hnul, List.splitOn_eq_singleton hs, List.mem_singleton]
  exact eq_comm

/-- The verdicts are those of the units, each with all below it, and no unit names the parent in
front of the first NUL. -/
def Judged : List (List UInt8) → List (Option Bool) → Prop
  | [], [] => True
  | u :: us, v :: vs => u ≠ parent ∧ v = verdict (render (u :: us)) ∧
      (0 ∉ render (u :: us) → ¬ NamesParent (render (u :: us))) ∧ Judged us vs
  | _, _ => False

private theorem verdict_append (ha : 0 ∉ a → ¬ NamesParent a) :
    verdict (a ++ slash :: b) = (verdict a).or (verdict b) := by
  have hslash : (0 : UInt8) ≠ slash := by decide
  by_cases hnul : 0 ∈ a
  · simp [verdict, hnul, namesParent_append]
  · by_cases hnul' : 0 ∈ b <;> simp [verdict, hnul, hnul', hslash, namesParent_append, ha hnul]

private theorem render_push : render (s :: top :: us) = render (top :: us) ++ slash :: s := by
  simp [render, below]

private theorem render_merge : render ((top ++ slash :: s) :: us) =
    render (top :: us) ++ slash :: s := by
  simp [render]

theorem Judged.append {vs : List (Option Bool)} {v : Option Bool} {us' : List (List UInt8)}
    (hjudged : Judged (top :: us) (v :: vs)) (hs : slash ∉ s) (hne : s ≠ parent)
    (hrender : render us' = render (top :: us) ++ slash :: s) :
    v.or (verdict s) = verdict (render us') ∧ (0 ∉ render us' → ¬ NamesParent (render us')) := by
  obtain ⟨-, rfl, hnames, -⟩ := hjudged
  rw [hrender, verdict_append hnames]
  refine ⟨rfl, fun hnul => ?_⟩
  simp only [List.mem_append, List.mem_cons, not_or] at hnul
  rw [namesParent_append, namesParent_segment hs hnul.2.2]
  simp [hnames hnul.1, hne]

private theorem climbStep_judged {vs : List (Option Bool)} (hjudged : Judged us vs)
    (hs : slash ∉ s) :
    match climbStep vs s with
    | some vs' => Judged (unitStep us s) vs'
    | none => unitStep us s = [parent] := by
  rcases us with _ | ⟨top, us⟩ <;> rcases vs with _ | ⟨v, vs⟩
  · by_cases hne : s = parent
    · simp [climbStep, unitStep, hne]
    · have hnames : 0 ∉ s → ¬ NamesParent s := fun hnul => by
        rwa [namesParent_segment hs hnul]
      simpa [climbStep, unitStep, hne, Judged, render, below] using hnames
  · exact absurd hjudged id
  · exact absurd hjudged id
  · have htop : top ≠ parent := hjudged.1
    by_cases hne : s = parent
    · simpa [climbStep, unitStep, hne, htop] using hjudged.2.2.2
    · by_cases hparent : parent <+: s
      · have happend := hjudged.append hs hne render_merge
        have hunit : top ++ slash :: s ≠ parent := fun heq =>
          slash_notMem_parent (heq ▸ by simp)
        simpa [climbStep, unitStep, hne, htop, hparent] using
          ⟨hunit, happend.1, happend.2, hjudged.2.2.2⟩
      · have happend := hjudged.append hs hne render_push
        simpa [climbStep, unitStep, hne, htop, hparent] using
          ⟨hne, happend.1, happend.2, hjudged⟩

theorem unitStep_bottom (hbottom : us.getLast? = some parent) :
    (unitStep us s).getLast? = some parent := by
  rcases us with _ | ⟨top, _ | ⟨u, us⟩⟩
  · simp at hbottom
  · have htop : top = parent := by simpa using hbottom
    simp [unitStep, htop]
  · have hbottom' : (u :: us).getLast? = some parent := by simpa using hbottom
    rw [unitStep]
    split_ifs <;> simpa using hbottom'

private theorem namesParent_of_bottom (hbottom : us.getLast? = some parent) :
    NamesParent (render us) := by
  induction us with
  | nil => simp at hbottom
  | cons u us ih =>
      cases us with
      | nil =>
          have hu : u = parent := by simpa using hbottom
          rw [hu]
          decide
      | cons u' us =>
          rw [render_push, namesParent_append]
          exact .inl (ih (by simpa using hbottom))

private theorem foldlM_climbStep {vs : List (Option Bool)} (front us : List (List UInt8))
    (hfront : ∀ s' ∈ front, slash ∉ s') (hjudged : Judged us vs) :
    match front.foldlM climbStep vs with
    | some vs' => Judged (front.foldl unitStep us) vs'
    | none => (front.foldl unitStep us).getLast? = some parent := by
  have hkeeps : ∀ (segs us : List (List UInt8)), us.getLast? = some parent →
      (segs.foldl unitStep us).getLast? = some parent := by
    intro segs
    induction segs with
    | nil => exact fun us h => h
    | cons s segs ih => exact fun us h => ih _ (unitStep_bottom h)
  induction front generalizing us vs with
  | nil => exact hjudged
  | cons s front ih =>
      have hstep := climbStep_judged hjudged (hfront s (by simp))
      have hrest : ∀ s' ∈ front, slash ∉ s' := fun s' h => hfront s' (List.mem_cons_of_mem _ h)
      rw [List.foldlM_cons, List.foldl_cons]
      cases hclimb : climbStep vs s with
      | none =>
          rw [hclimb] at hstep
          simp only at hstep
          rw [hstep]
          exact hkeeps front [parent] rfl
      | some vs' =>
          rw [hclimb] at hstep
          exact ih _ hrest hstep

private theorem nul_mem_unitStep (us : List (List UInt8)) (hnul : 0 ∈ s) (hne : s ≠ parent) :
    ∃ u us', unitStep us s = u :: us' ∧ 0 ∈ u := by
  rcases us with _ | ⟨top, us⟩
  · exact ⟨s, [], rfl, hnul⟩
  · rw [unitStep]
    split_ifs
    · exact ⟨s, _, rfl, hnul⟩
    · exact ⟨_, us, rfl, by simp [hnul]⟩
    · exact ⟨s, _, rfl, hnul⟩

theorem splitOn_nul (path : List UInt8) :
    ∃ front s, (path ++ [0]).splitOn slash = front ++ [s ++ [0]] ∧
      (∀ s' ∈ front, slash ∉ s') ∧ slash ∉ s ++ [0] := by
  induction path with
  | nil => exact ⟨[], [], by decide, by simp, by decide⟩
  | cons x path ih =>
      obtain ⟨front, s, hsplit, hfront, hs⟩ := ih
      rw [List.cons_append, List.splitOn_cons_eq_if_modifyHead, hsplit]
      by_cases hx : x = slash
      · refine ⟨[] :: front, s, by simp [hx], ?_, hs⟩
        rintro s' (_ | ⟨_, hmem⟩)
        · simp
        · exact hfront s' hmem
      · cases front with
        | nil =>
            refine ⟨[], x :: s, by simp [hx], by simp, ?_⟩
            simpa [Ne.symm hx] using hs
        | cons s' front =>
            refine ⟨(x :: s') :: front, s, by simp [hx], ?_, hs⟩
            have hs' := hfront s' (by simp)
            rintro s'' (_ | ⟨_, hmem⟩)
            · simpa [Ne.symm hx] using hs'
            · exact hfront s'' (List.mem_cons_of_mem _ hmem)

theorem intercalate_nul (front : List (List UInt8)) (s : List UInt8) :
    ∃ text, [slash].intercalate (front ++ [s ++ [0]]) = text ++ [0] := by
  induction front with
  | nil => exact ⟨s, by simp⟩
  | cons s' front ih =>
      obtain ⟨text, htext⟩ := ih
      refine ⟨s' ++ [slash] ++ text, ?_⟩
      rw [List.cons_append, List.intercalate_cons_of_ne_nil (by simp), htext]
      simp

private theorem namesParent_units {front : List (List UInt8)} (hfront : ∀ s' ∈ front, slash ∉ s')
    (hs : slash ∉ s) (hnul : 0 ∈ s) (hne : s ≠ parent) :
    NamesParent (render (unitStep (front.foldl unitStep []) s)) ↔
      ¬ ((front ++ [s]).foldlM climbStep []).bind List.head? = some (some false) := by
  have hall : ∀ s' ∈ front ++ [s], slash ∉ s' := by
    intro s' h
    rcases List.mem_append.mp h with h | h
    · exact hfront s' h
    · rwa [List.mem_singleton.mp h]
  have hclimb := @foldlM_climbStep [] (front ++ [s]) [] hall trivial
  rw [List.foldl_append, List.foldl_cons, List.foldl_nil] at hclimb
  obtain ⟨u, us, hunits, hmem⟩ := nul_mem_unitStep (front.foldl unitStep []) hnul hne
  rw [hunits] at hclimb ⊢
  cases hverdicts : (front ++ [s]).foldlM climbStep [] with
  | none =>
      rw [hverdicts] at hclimb
      simpa using namesParent_of_bottom hclimb
  | some vs =>
      rw [hverdicts] at hclimb
      cases vs with
      | nil => exact absurd hclimb id
      | cons v vs =>
          have hrender : 0 ∈ render (u :: us) := List.mem_append_right _ hmem
          have hv : v = verdict (render (u :: us)) := hclimb.2.1
          simp [hv, verdict, hrender]

/-- The path after both passes, its NUL and a quiet tail behind it included. -/
theorem namesParent_iff (path : List UInt8) {tail : List UInt8} (hquiet : Quiet tail) :
    0 ∈ removeSegmentPoints [] [] (removeSegmentPoint [] [] (path ++ [0]) ++ tail) ∧
      (NamesParent (removeSegmentPoints [] [] (removeSegmentPoint [] [] (path ++ [0]) ++ tail)) ↔
        ¬ StaysInside path) := by
  obtain ⟨front, s, hsplit, hfront, hs⟩ := splitOn_nul path
  have hne : s ++ [0] ≠ parent := fun heq =>
    absurd (heq ▸ by simp : (0 : UInt8) ∈ parent) (by decide)
  have hnul : 0 ∈ s ++ [0] := by simp
  have hkept : ∀ s' ∈ front.filter (· ≠ [dot]), slash ∉ s' :=
    fun s' h => hfront s' (List.mem_of_mem_filter h)
  have hfirst : removeSegmentPoint [] [] (path ++ [0]) =
      [slash].intercalate (front.filter (· ≠ [dot]) ++ [s ++ [0]]) := by
    rw [← @List.intercalate_splitOn _ (path ++ [0]) _ _ slash, hsplit,
      removeSegmentPoint_join front hfront hs, List.nil_append]
  have hsecond : removeSegmentPoints [] []
      ([slash].intercalate (front.filter (· ≠ [dot]) ++ [s ++ [0]])) =
      render (unitStep ((front.filter (· ≠ [dot])).foldl unitStep []) (s ++ [0])) :=
    removeSegmentPoints_join [] _ hkept hs hne trivial
  rw [hfirst, removeSegmentPoints_tail hquiet (.inr (intercalate_nul _ _)), hsecond]
  obtain ⟨u, us, hunits, hmem⟩ :=
    nul_mem_unitStep ((front.filter (· ≠ [dot])).foldl unitStep []) hnul hne
  have hrender :
      0 ∈ render (unitStep ((front.filter (· ≠ [dot])).foldl unitStep []) (s ++ [0])) := by
    rw [hunits]
    exact List.mem_append_right _ hmem
  refine ⟨List.mem_append_left _ hrender, ?_⟩
  rw [NamesParent, cString_append hrender, StaysInside, keptSegments, hsplit,
    withoutPoints_concat]
  exact namesParent_units hkept hs hnul hne

end Httpaa.Text
