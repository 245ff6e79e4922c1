import Httpaa.Uri.Merge

/-!
# The authority of a resolved reference

A resolved reference is its components one after the other, and of a merged path the last character
is lost. Behind the authority nothing ends it unless what is left of the path starts with a slash: a
`..` that takes the empty segment in front of the first slash away, or a base without a path, puts
the next segment right behind the authority.
-/

namespace Httpaa.Text

open HierarchicalUri (whenPresent)

variable {stack us : List (List UInt8)} {s top last text authority path scheme : List UInt8}
  {ahead : List UInt8 × Nat} {x : UInt8}

/-! ### The text behind `//` -/

/-- `/`, `?` and `#`, or the NUL behind a string. -/
def endsAuthority (x : UInt8) : Bool := x = 0 || x = ch '/' || x = ch '?' || x = ch '#'

/-- What stands between `//` and the next `/`, `?`, `#` or the end. -/
def authorityText : List UInt8 → List UInt8
  | [] => []
  | x :: rest =>
    if [slash, slash] <+: x :: rest then
      rest.tail.takeWhile fun x => !(x = ch '/' || x = ch '?' || x = ch '#')
    else authorityText rest

/-- `http://h/a` -/
example : authorityText [ch 'h', ch ':', ch '/', ch '/', ch 'x', ch 'y', ch '/', ch 'a'] =
    [ch 'x', ch 'y'] := by decide

/-- No character of the text ends an authority. -/
def NoEnd (text : List UInt8) : Prop := ∀ x ∈ text, endsAuthority x = false

instance (text : List UInt8) : Decidable (NoEnd text) :=
  inferInstanceAs (Decidable (∀ x ∈ text, _))

/-- An authority ends where the text begins, if the text has characters. -/
def StopsAt (text : List UInt8) : Prop := ∀ x ∈ text.head?, endsAuthority x = true

instance (text : List UInt8) : Decidable (StopsAt text) :=
  inferInstanceAs (Decidable (∀ x ∈ text.head?, _))

private theorem authorityText_scheme (hscheme : slash ∉ scheme) (rest : List UInt8) :
    authorityText (scheme ++ ch ':' :: slash :: slash :: rest) =
      rest.takeWhile fun x => !(x = ch '/' || x = ch '?' || x = ch '#') := by
  have hcolon : slash ≠ ch ':' := by decide
  induction scheme with
  | nil => simp [authorityText, hcolon]
  | cons x scheme ih =>
      simp only [List.mem_cons, not_or] at hscheme
      rw [List.cons_append, authorityText, if_neg (by simp [hscheme.1]), ih hscheme.2]

private theorem takeWhile_eq_iff {P : UInt8 → Bool} {a rest : List UInt8} :
    (a ++ rest).takeWhile P = a ↔ (∀ x ∈ a, P x = true) ∧ ∀ x ∈ rest.head?, P x = false := by
  induction a with
  | nil => cases rest <;> simp [List.takeWhile_cons]
  | cons x a ih => by_cases hx : P x = true <;> simp [hx, ih]

private theorem authorityText_iff (hscheme : ∀ x ∈ scheme, schemeChars x = true)
    (rest : List UInt8) :
    authorityText (cString (scheme ++ ch ':' :: slash :: slash :: (authority ++ rest ++ [0]))) =
      authority ↔ NoEnd authority ∧ StopsAt rest := by
  have hslash : slash ∉ scheme := fun hmem => absurd (hscheme _ hmem) (by decide)
  have hnul : 0 ∉ scheme := fun hmem => absurd (hscheme _ hmem) (by decide)
  have hfront : cString (scheme ++ ch ':' :: slash :: slash :: (authority ++ rest ++ [0])) =
      scheme ++ ch ':' :: slash :: slash :: cString (authority ++ rest ++ [0]) := by
    have hcolon : (ch ':' : UInt8) ≠ 0 := by decide
    have hslash' : slash ≠ 0 := by decide
    rw [cString, List.takeWhile_append_of_pos fun x hx =>
      by simpa using ne_of_mem_of_not_mem hx hnul]
    simp [cString, hcolon, hslash']
  have hboth : (fun x : UInt8 => decide ((!(x = ch '/' || x = ch '?' || x = ch '#')) = true ∧
      decide (x ≠ 0) = true)) = fun x => !endsAuthority x := by
    funext x
    by_cases hx : x = 0 <;> simp [endsAuthority, hx]
  have hstop : (∀ x ∈ (rest ++ [0]).head?, (!endsAuthority x) = false) ↔ StopsAt rest := by
    cases rest with
    | nil => simp [StopsAt, endsAuthority]
    | cons x rest => simp [StopsAt]
  rw [hfront, authorityText_scheme hslash, cString, List.takeWhile_takeWhile, hboth,
    List.append_assoc, takeWhile_eq_iff, hstop]
  simp [NoEnd]

/-! ### The first segment that is left -/

/-- The first segment that is left, and how many stand from there on, after a segment more. -/
def leadStep (lead : List UInt8 × Nat) (s : List UInt8) : List UInt8 × Nat :=
  if lead.2 = 0 then (s, 1)
  else if lead.1 = parent then lead
  else if s = parent then (lead.1, lead.2 - 1)
  else if parent <+: s then lead
  else (lead.1, lead.2 + 1)

/-- The lead of the segments in front of the last one, without `.`. -/
def lead (path : List UInt8) : List UInt8 × Nat :=
  ((path.splitOn slash).dropLast.filter (· ≠ [dot])).foldl leadStep ([], 0)

/-- The segments that the scan keeps, and their lead: they start with a `..`, or with the first
segment and name no parent. -/
inductive Led : List (List UInt8) → List UInt8 × Nat → Prop
  | empty (s : List UInt8) : Led [] (s, 0)
  | climbs {stack : List (List UInt8)} {n : Nat} (hbottom : stack.getLast? = some parent)
      (hn : 0 < n) : Led stack (parent, n)
  | stays {stack : List (List UInt8)} {s more : List UInt8} (hs : slash ∉ s) (hmore : Ends more)
      (hbottom : stack.getLast? = some (s ++ more))
      (hnone : ∀ u ∈ stack, parent ∉ u.splitOn slash) :
      Led stack (s, stack.length)

private theorem splitOn_parent : parent.splitOn slash = [parent] :=
  List.splitOn_eq_singleton slash_notMem_parent

private theorem parent_notMem_splitOn (hs : slash ∉ s) (hne : s ≠ parent) :
    parent ∉ s.splitOn slash := by
  rw [List.splitOn_eq_singleton hs, List.mem_singleton]
  exact Ne.symm hne

theorem Led.step (hled : Led stack ahead) (hs : slash ∉ s) :
    Led (unitStep stack s) (leadStep ahead s) := by
  cases hled with
  | empty s' =>
      rw [leadStep, if_pos rfl]
      by_cases hparent : s = parent
      · rw [hparent]
        exact .climbs rfl Nat.one_pos
      · have hbottom : [s].getLast? = some (s ++ []) := by simp
        refine .stays hs (.inl rfl) hbottom ?_
        simpa [unitStep] using parent_notMem_splitOn hs hparent
  | climbs hbottom hn =>
      rw [leadStep, if_neg (Nat.ne_of_gt hn), if_pos rfl]
      exact .climbs (unitStep_bottom hbottom) hn
  | @stays stack first more hfirst hmore hbottom hnone =>
      rcases stack with _ | ⟨top, us⟩
      · simp at hbottom
      have htop : top ≠ parent := by
        rintro rfl
        exact hnone _ (List.mem_cons_self ..) (by simp [splitOn_parent])
      have hlead : first ≠ parent := by
        rintro rfl
        have hmem := List.mem_of_getLast? hbottom
        refine hnone _ hmem ?_
        rcases hmore with rfl | ⟨rest, rfl⟩
        · simp [splitOn_parent]
        · simp [List.splitOn_append_cons_self, splitOn_parent]
      have hus : ∀ u ∈ us, parent ∉ u.splitOn slash := fun u h => hnone u (by simp [h])
      rw [leadStep, if_neg (by simp), if_neg hlead, unitStep, if_neg htop]
      by_cases hparent : s = parent
      · rw [if_pos hparent, if_pos hparent]
        cases us with
        | nil => exact .empty _
        | cons u us => exact .stays hfirst hmore (by simpa using hbottom) hus
      · rw [if_neg hparent, if_neg hparent]
        by_cases hpre : parent <+: s
        · rw [if_pos hpre, if_pos hpre]
          have hmerged : parent ∉ (top ++ slash :: s).splitOn slash := by
            rw [List.splitOn_append_cons_self, List.mem_append, not_or]
            exact ⟨hnone top (by simp), parent_notMem_splitOn hs hparent⟩
          have hnone' : ∀ u ∈ (top ++ slash :: s) :: us, parent ∉ u.splitOn slash := by
            intro u hu
            rcases List.mem_cons.mp hu with rfl | hu
            · exact hmerged
            · exact hus u hu
          cases us with
          | nil =>
              have htop' : top = first ++ more := by simpa using hbottom
              have hbottom' : [top ++ slash :: s].getLast? =
                some (first ++ (more ++ slash :: s)) := by
                simp [htop']
              refine .stays hfirst (.inr ?_) hbottom' hnone'
              rcases hmore with rfl | ⟨rest, rfl⟩
              · exact ⟨s, rfl⟩
              · exact ⟨rest ++ slash :: s, rfl⟩
          | cons u us =>
              have hbottom' : ((top ++ slash :: s) :: u :: us).getLast? = some (first ++ more) := by
                simpa using hbottom
              exact .stays hfirst hmore hbottom' hnone'
        · rw [if_neg hpre, if_neg hpre]
          have hbottom' : (s :: top :: us).getLast? = some (first ++ more) := by
            simpa using hbottom
          refine .stays hfirst hmore hbottom' ?_
          intro u hu
          rcases List.mem_cons.mp hu with rfl | hu
          · exact parent_notMem_splitOn hs hparent
          · exact hnone u hu

theorem Led.run (hled : Led stack ahead) (front : List (List UInt8))
    (hfront : ∀ s ∈ front, slash ∉ s) :
    Led (front.foldl unitStep stack) (front.foldl leadStep ahead) := by
  induction front generalizing stack ahead with
  | nil => exact hled
  | cons s front ih =>
      rw [List.foldl_cons, List.foldl_cons]
      exact ih (hled.step (hfront s (by simp))) fun s' h => hfront s' (by simp [h])

/-! ### What is left of the path -/

/-- A `..` is left in front: the reference climbs above the root. -/
def Climbs (path : List UInt8) : Prop :=
  if (lead path).2 = 0 then (path.splitOn slash).getLast? = some parent else (lead path).1 = parent

/-- What is left of the path without its last character is empty, or its first character ends an
authority. -/
def StaysBehind (path : List UInt8) : Prop :=
  let last := ((path.splitOn slash).getLast?).getD []
  if (lead path).2 = 0 then StopsAt last.dropLast
  else (lead path).2 = 1 ∧ last = parent ∨ StopsAt (lead path).1

instance (path : List UInt8) : Decidable (Climbs path) :=
  inferInstanceAs (Decidable (ite _ _ _))

instance (path : List UInt8) : Decidable (StaysBehind path) :=
  inferInstanceAs (Decidable (ite _ _ _))

private theorem mem_of_startsWithParent {cur todo : List UInt8} (hcur : slash ∉ cur)
    (hstarts : startsWithParent cur todo = true) : parent ∈ (cur ++ todo).splitOn slash := by
  fun_induction startsWithParent cur todo with
  | case1 cur =>
      have heq : cur = parent := by simpa using hstarts
      simp [heq, splitOn_parent]
  | case2 todo => simp [List.splitOn_append_cons_self, splitOn_parent]
  | case3 todo hne ih =>
      rw [List.splitOn_append_cons_self, List.mem_append]
      exact .inr (ih (by simp) hstarts)
  | case4 => cases hstarts
  | case5 cur x todo hx ih =>
      have hmem := ih (by simp [hcur, Ne.symm hx]) hstarts
      simpa using hmem

private theorem startsWithParent_walk {cur : List UInt8} (hs : slash ∉ s) (todo : List UInt8) :
    startsWithParent cur (s ++ todo) = startsWithParent (cur ++ s) todo := by
  induction s generalizing cur with
  | nil => simp
  | cons x s ih =>
      simp only [List.mem_cons, not_or] at hs
      rw [List.cons_append, startsWithParent, if_neg (Ne.symm hs.1), ih hs.2]
      simp

private theorem startsWithParent_parent (todo : List UInt8) (htodo : Ends todo) :
    startsWithParent [] (parent ++ todo) = true := by
  rw [startsWithParent_walk slash_notMem_parent]
  rcases htodo with rfl | ⟨rest, rfl⟩
  · simp [startsWithParent]
  · simp [startsWithParent]

private theorem below_bottom (hbottom : stack.getLast? = some s) :
    ∃ rest, below stack = s ++ slash :: rest := by
  induction stack with
  | nil => simp at hbottom
  | cons u us ih =>
      cases us with
      | nil =>
          have hu : u = s := by simpa using hbottom
          exact ⟨[], by simp [below, hu]⟩
      | cons u' us =>
          obtain ⟨rest, hrest⟩ := ih (by simpa using hbottom)
          rw [below, hrest]
          exact ⟨rest ++ u ++ [slash], by simp⟩

private theorem parent_notMem_below (hnone : ∀ u ∈ stack, parent ∉ u.splitOn slash)
    (hs : parent ∉ s.splitOn slash) : parent ∉ (below stack ++ s).splitOn slash := by
  induction stack generalizing s with
  | nil => exact hs
  | cons u us ih =>
      rw [below, List.append_assoc, List.singleton_append, List.splitOn_append_cons_self,
        List.mem_append, not_or]
      exact ⟨ih (fun u' h => hnone u' (by simp [h])) (hnone u (by simp)), hs⟩

private theorem stopsAt_dropLast {more rest : List UInt8} (hmore : Ends more) :
    StopsAt (s ++ more ++ slash :: rest).dropLast ↔ StopsAt s := by
  have hslash (rest : List UInt8) : StopsAt (slash :: rest).dropLast := by
    cases rest with
    | nil => simp [StopsAt]
    | cons y rest => simp [StopsAt, show endsAuthority slash = true by decide]
  cases s with
  | nil =>
      refine iff_of_true ?_ (by simp [StopsAt])
      rcases hmore with rfl | ⟨more, rfl⟩
      · exact hslash rest
      · exact hslash _
  | cons x s =>
      have hne : s ++ more ++ slash :: rest ≠ [] := by simp
      rw [List.cons_append, List.cons_append, List.dropLast_cons_of_ne_nil hne]
      simp [StopsAt]

private theorem inLine_lead (path : List UInt8) :
    (startsWithParent [] (inLine path) = true ↔ Climbs path) ∧
      (¬ Climbs path → (StopsAt (inLine path).dropLast ↔ StaysBehind path)) := by
  obtain ⟨front, last, hsplit, -, hfront, hlast⟩ := splitOn_last path
  obtain ⟨hline, hcanonical⟩ := inLine_eq_resume hsplit hfront hlast
  have hlead : lead path = (front.filter (· ≠ [dot])).foldl leadStep ([], 0) := by
    rw [lead, hsplit, List.dropLast_concat]
  have hled := (Led.empty []).run (front.filter (· ≠ [dot])) fun s' h =>
    hfront s' (List.mem_of_mem_filter h)
  rw [← hlead] at hled
  have hleftSlash : slash ∉ lastLeft last := by
    rw [lastLeft]
    split
    · decide
    · exact hlast
  have hleftParent : lastLeft last = parent ↔ last = parent := by
    rw [lastLeft]
    split
    · rename_i hdot
      rw [hdot]
      decide
    · rfl
  have hends : (path.splitOn slash).getLast? = some last := by simp [hsplit]
  rw [Climbs, StaysBehind, hends, hline]
  generalize (front.filter (· ≠ [dot])).foldl unitStep [] = stack at hled hcanonical
  generalize lead path = ahead at hled
  cases hled with
  | empty s =>
      -- only the last segment is left
      have hresume : resume [] (lastLeft last) = lastLeft last := by
        have hwalk := removeSegmentPoints_walk [] [] [] hleftSlash
        simpa [resume, removeSegmentPoints] using hwalk
      have hstarts : startsWithParent [] (lastLeft last) = decide (lastLeft last = parent) := by
        rw [← List.append_nil (lastLeft last), startsWithParent_walk hleftSlash, List.nil_append,
          List.append_nil, startsWithParent]
      simp only [if_true, hresume, hstarts, decide_eq_true_iff, hleftParent, Option.some.injEq,
        Option.getD_some, true_and]
      intro _
      by_cases hdot : last = [dot] <;> simp [lastLeft, hdot, StopsAt]
  | climbs hbottom hn =>
      simp only [Nat.ne_of_gt hn, if_false, iff_true, not_true_eq_false, false_implies, and_true]
      obtain ⟨rest, hrest⟩ := below_bottom hbottom
      have hstarts (us : List (List UInt8)) (hus : us.getLast? = some parent) (text : List UInt8) :
          startsWithParent [] (below us ++ text) = true := by
        obtain ⟨rest, hrest⟩ := below_bottom hus
        rw [hrest, List.append_assoc]
        exact startsWithParent_parent _ (.inr ⟨rest ++ text, rfl⟩)
      by_cases hkept : lastLeft last ≠ parent ∨ depth stack = 0
      · rw [resume_keptLast hleftSlash hkept]
        exact hstarts stack hbottom _
      · rw [not_or, not_not] at hkept
        rcases stack with _ | ⟨top, us⟩
        · simp at hbottom
        · have htop : top ≠ parent := fun htop => hkept.2 (by simp [depth, htop])
          rw [hkept.1, resume_parent hcanonical htop, ← List.append_nil (below us)]
          cases us with
          | nil => exact absurd (by simpa using hbottom) htop
          | cons u us => exact hstarts (u :: us) (by simpa using hbottom) []
  | @stays _ s more hs hmore hbottom hnone =>
      have hparent : s ≠ parent := by
        rintro rfl
        refine hnone _ (List.mem_of_getLast? hbottom) ?_
        rcases hmore with rfl | ⟨rest, rfl⟩
        · simp [splitOn_parent]
        · simp [List.splitOn_append_cons_self, splitOn_parent]
      rcases stack with _ | ⟨top, us⟩
      · simp at hbottom
      have htop : top ≠ parent := by
        rintro rfl
        exact hnone _ (List.mem_cons_self ..) (by simp [splitOn_parent])
      simp only [List.length_cons, Nat.add_one_ne_zero, if_false, hparent, iff_false,
        Bool.not_eq_true, not_false_eq_true, true_implies, Option.getD_some]
      by_cases hpop : last = parent
      · have hus : ∀ u ∈ us, parent ∉ u.splitOn slash := fun u h => hnone u (by simp [h])
        rw [hleftParent.mpr hpop, resume_parent hcanonical htop]
        refine ⟨?_, ?_⟩
        · rw [← Bool.not_eq_true]
          intro hstarts
          have hmem := mem_of_startsWithParent (by simp) hstarts
          rw [List.nil_append, ← List.append_nil (below us)] at hmem
          exact parent_notMem_below hus (by decide) hmem
        · cases us with
          | nil => simp [below, StopsAt, hpop]
          | cons u us =>
              have hbottom' : (u :: us).getLast? = some (s ++ more) := by simpa using hbottom
              obtain ⟨rest, hrest⟩ := below_bottom hbottom'
              rw [hrest, stopsAt_dropLast hmore]
              simp
      · have hkept : lastLeft last ≠ parent := hleftParent.not.mpr hpop
        rw [resume_keptLast hleftSlash (.inl hkept)]
        refine ⟨?_, ?_⟩
        · rw [← Bool.not_eq_true]
          intro hstarts
          have hmem := mem_of_startsWithParent (by simp) hstarts
          exact parent_notMem_below hnone (parent_notMem_splitOn hleftSlash hkept) hmem
        · obtain ⟨rest, hrest⟩ := below_bottom hbottom
          rw [hrest, List.append_assoc, List.cons_append, stopsAt_dropLast hmore]
          simp [hpop]

end Httpaa.Text

namespace Httpaa

open Heap Rfc2396

variable {h h₁ : Heap} {s : Stringaa} {u v base : Uriaa} {baseText relativeText text : List UInt8}
  {scheme authority path : List UInt8} {found query fragment : Option (List UInt8)}

/-! ### Components of the base -/

theorem inherit_spansPart {p : UriPart} (hs : (base.part p).SpansPart h found) :
    ((u.inherit base p).part p).SpansPart h found := by
  have hsame : (u.inherit base p).part p = base.part p := by
    have halloc : (base.part p).isAlloc = false := by
      cases found with
      | none => exact hs.2.2.1
      | some text => exact Stringaa.Spans.isAlloc hs
    simp [Uriaa.inherit, Uriaa.withPart, ← halloc]
  rw [hsame]
  exact hs

instance (h : Heap) (u : Uriaa) : Decidable (u.KeepsPath h) :=
  inferInstanceAs (Decidable (_ ∨ _ ∧ _))

/-! ### The resolved reference -/

/-- `uri.buf` as a C string. -/
def Uriaa.uriText (h : Heap) (u : Uriaa) : Option (List UInt8) := do h.cString (← u.uri.buf)

/-- If the reference is resolved, the authority of the result is this one. -/
def Uriaa.ResolvesBehind (h : Heap) (u base : Uriaa) (authority : List UInt8) : Prop :=
  ∀ h' r, uriaaResolveUri h u base = some (.resolved, h', r) →
    ∃ text, r.uriText h' = some text ∧ Text.authorityText text = authority

/-- The reference is not resolved, since it has only a fragment, has a scheme or climbs above the
root; or nothing in the authority ends it, and the path of the reference is taken or what is left of
the merged one leaves the authority alone. -/
def Uriaa.KeepsAuthority (h : Heap) (u base : Uriaa) (authority : List UInt8) : Prop :=
  let merged := upToLastSlash ((base.component h .absPath).getD []) ++
    (u.component h .relPath).getD []
  u.isCurrentDocument = true ∨ (u.component h .scheme).isSome ∨
    ¬ u.KeepsPath h ∧ Text.Climbs merged ∨
    Text.NoEnd authority ∧ (u.KeepsPath h ∨ Text.StaysBehind merged)

open HierarchicalUri (whenPresent) in
private theorem uriaaAssemble_authority {isPathTaken : Bool}
    (hform : ∀ x ∈ scheme, schemeChars x = true)
    (hscheme : (u.part .scheme).OffersPart h (some scheme))
    (hauthority : (u.part .authority).OffersPart h (some authority))
    (hpath : if isPathTaken then (u.part .absPath).Offers h path
      else (u.part .path).OffersPart h (some path))
    (hquery : (u.part .query).OffersPart h query)
    (hfragment : (u.part .fragment).OffersPart h fragment) :
    ∃ h' r, uriaaAssemble h u isPathTaken = some (.resolved, h', r) ∧
      ((∃ text, r.uriText h' = some text ∧ Text.authorityText text = authority) ↔
        Text.NoEnd authority ∧ Text.StopsAt path) := by
  obtain ⟨h', hrun, hholds, hsize, hroom⟩ :=
    uriaaAssemble_holds hscheme hauthority hpath hquery hfragment
  refine ⟨h', _, hrun, ?_⟩
  have hstring := hholds.cString (by
    simp only [hsize, List.length_append, List.length_singleton]
    omega) (by simp)
  generalize hrest : path ++ ((whenPresent query fun text => ch '?' :: text) ++
    whenPresent fragment fun text => ch '#' :: text) = rest
  have hassembled : assembled (some scheme) (some authority) path query fragment ++ [0] =
      scheme ++ ch ':' :: slash :: slash :: (authority ++ rest ++ [0]) := by
    rw [← hrest]
    simp [assembled, whenPresent, slash]
  have hstops : Text.StopsAt rest ↔ Text.StopsAt path := by
    rw [← hrest]
    cases path with
    | nil =>
        have hends : Text.endsAuthority (ch '?') = true ∧ Text.endsAuthority (ch '#') = true := by
          decide
        cases query <;> cases fragment <;> simp [Text.StopsAt, whenPresent, hends]
    | cons x path => simp [Text.StopsAt]
  rw [hassembled] at hstring
  rw [← hstops, ← Text.authorityText_iff hform rest]
  simp [Uriaa.uriText, hstring]

private theorem resolvesBehind_taken (hrun : uriaaResolveUri h u base = uriaaAssemble h v true)
    (hform : ∀ x ∈ scheme, schemeChars x = true)
    (hscheme : (v.part .scheme).SpansPart h (some scheme))
    (hauthority : (v.part .authority).SpansPart h (some authority))
    (hpath : (v.part .absPath).SpansPart h (some path)) (hroot : path.head? = some (ch '/'))
    (hquery : (v.part .query).SpansPart h query)
    (hfragment : (v.part .fragment).SpansPart h fragment) :
    u.ResolvesBehind h base authority ↔ Text.NoEnd authority := by
  have hrefl : h.SameBeside h h.next := .refl ..
  have hpathOffers : if true = true then (v.part .absPath).Offers h path
      else (v.part .path).OffersPart h (some path) := (hpath.offersPart hrefl).2
  obtain ⟨h', r, hassemble, hiff⟩ := uriaaAssemble_authority hform (hscheme.offersPart hrefl)
    (hauthority.offersPart hrefl) hpathOffers (hquery.offersPart hrefl) (hfragment.offersPart hrefl)
  have hstops : Text.StopsAt path := by
    intro x hx
    rw [hroot, Option.mem_some_iff] at hx
    rw [← hx]
    decide
  rw [and_iff_left hstops] at hiff
  rw [← hiff, Uriaa.ResolvesBehind, hrun, hassemble]
  constructor
  · exact fun hall => hall h' r rfl
  · rintro htext h'' r' heq
    simp only [Option.some.injEq, Prod.mk.injEq, true_and] at heq
    obtain ⟨rfl, rfl⟩ := heq
    exact htext

private theorem resolvesBehind_merged {merged : List UInt8} {relative : Option (List UInt8)}
    (hrun : uriaaResolveUri h u base = (uriaaMergePath h v base).bind fun r =>
      if r.1 then uriaaAssemble r.2.1 r.2.2 false else some (.failed, r.2.1, r.2.2))
    (hform : ∀ x ∈ scheme, schemeChars x = true)
    (hscheme : (v.part .scheme).SpansPart h (some scheme))
    (hauthority : (v.part .authority).SpansPart h (some authority))
    (hbase : (base.part .absPath).SpansPart h found)
    (hslash : ∀ text, found = some text → slash ∈ text)
    (hrelative : (v.part .relPath).SpansPart h relative) (halloc : (v.part .path).isAlloc = false)
    (hquery : (v.part .query).SpansPart h query)
    (hfragment : (v.part .fragment).SpansPart h fragment)
    (hmerged : upToLastSlash (found.getD []) ++ relative.getD [] = merged) :
    u.ResolvesBehind h base authority ↔
      Text.Climbs merged ∨ Text.NoEnd authority ∧ Text.StaysBehind merged := by
  obtain ⟨hclimbs, hstays⟩ := Text.inLine_lead merged
  generalize hleft : Text.inLine merged = left at hclimbs hstays
  rw [← hmerged] at hleft
  obtain ⟨h₁, w, hmerge, hpath, -, hkept, hsame⟩ :=
    uriaaMergePath_offers hbase hslash hrelative halloc hleft
  rw [Uriaa.ResolvesBehind, hrun, hmerge, Option.bind_some]
  by_cases hclimb : Text.Climbs merged
  · rw [hclimbs.mpr hclimb]
    exact iff_of_true (fun h' r heq => by simp at heq) (.inl hclimb)
  have hgoes : Text.startsWithParent [] left = false :=
    Bool.eq_false_iff.mpr (hclimbs.not.mpr hclimb)
  simp only [hgoes, Bool.not_false, if_true]
  have hoffers {p : UriPart} {piece : Option (List UInt8)} (hp : p ≠ .path)
      (hs : (v.part p).SpansPart h piece) : (w.part p).OffersPart h₁ piece := by
    rw [hkept p hp]
    exact hs.offersPart hsame
  have hpathOffers : if false = true then (w.part .absPath).Offers h₁ left.dropLast
      else (w.part .path).OffersPart h₁ (some left.dropLast) := hpath
  obtain ⟨h', r, hassemble, hiff⟩ := uriaaAssemble_authority hform
    (hoffers (by decide) hscheme) (hoffers (by decide) hauthority) hpathOffers
    (hoffers (by decide) hquery) (hoffers (by decide) hfragment)
  rw [hassemble, or_iff_right hclimb, ← hstays hclimb, ← hiff]
  constructor
  · exact fun hall => hall h' r rfl
  · rintro htext h'' r' heq
    simp only [Option.some.injEq, Prod.mk.injEq, true_and] at heq
    obtain ⟨rfl, rfl⟩ := heq
    exact htext

private theorem resolvesBehind_iff (hheap : h.WellFormed) (hbase : base.ReadFrom h baseText true)
    (hu : u.ReadFrom h relativeText true) (hscheme : base.component h .scheme = some scheme)
    (hauthority : base.component h .authority = some authority)
    (hnone : u.component h .authority = none) :
    u.ResolvesBehind h base authority ↔ u.KeepsAuthority h base authority := by
  have hbaseScheme := hbase.spansPart hheap .scheme
  have hbaseAuthority := (hbase.spansPart hheap .authority).1
  have hbasePath := hbase.spansPart hheap .absPath
  rw [hscheme] at hbaseScheme
  rw [hauthority] at hbaseAuthority
  have hform : ∀ x ∈ scheme, schemeChars x = true := (hbaseScheme.2 scheme rfl).2.scheme rfl
  rw [Uriaa.KeepsAuthority]
  cases hdocument : u.isCurrentDocument with
  | true =>
      refine iff_of_true (fun h' r hrun => ?_) (.inl rfl)
      simp [uriaaResolveUri, hdocument] at hrun
  | false =>
      cases hset : (u.part .scheme).isInit with
      | true =>
          refine iff_of_true (fun h' r hrun => ?_) (.inr (.inl ?_))
          · simp [uriaaResolveUri, hdocument, hset] at hrun
          · rw [← Uriaa.isInit_iff (h := h)]
            exact hset
      | false =>
          have hnoScheme : u.component h .scheme = none := by
            rw [← Option.not_isSome_iff_eq_none, ← Uriaa.isInit_iff (h := h), hset]
            simp
          have hunset : ((u.inherit base .scheme).part .authority).isInit = false := by
            rw [inherit_part_of_ne (by decide), Uriaa.isInit_iff (h := h), hnone]
            rfl
          generalize hv : (u.inherit base .scheme).inherit base .authority = v
          have hkept (p : UriPart) (hp : p ≠ .scheme ∧ p ≠ .authority) :
              (v.part p).SpansPart h (u.component h p) := by
            rw [← hv, inherit_part_of_ne hp.2, inherit_part_of_ne hp.1]
            exact (hu.spansPart hheap p).1
          have hvScheme : (v.part .scheme).SpansPart h (some scheme) := by
            rw [← hv, inherit_part_of_ne (by decide)]
            exact inherit_spansPart hbaseScheme.1
          have hvAuthority : (v.part .authority).SpansPart h (some authority) := by
            rw [← hv]
            exact inherit_spansPart hbaseAuthority
          have habsolute : v.isAbsolutePath h = some (decide (u.KeepsPath h)) := by
            have hinit (p : UriPart) (hp : p ≠ .scheme ∧ p ≠ .authority) :
                (v.part p).isInit = (u.component h p).isSome := by
              rw [← hv, inherit_part_of_ne hp.2, inherit_part_of_ne hp.1, Uriaa.isInit_iff (h := h)]
            rw [Uriaa.isAbsolutePath, hinit _ (by decide), hinit _ (by decide), hinit _ (by decide),
              hu.opaquePart_none hnoScheme]
            cases habs : u.component h .absPath <;> cases hrel : u.component h .relPath <;>
              simp [Uriaa.KeepsPath, hnone, habs, hrel]
          have hresolve : uriaaResolveUri h u base = if u.KeepsPath h then uriaaAssemble h v true
              else (uriaaMergePath h v base).bind fun r =>
                if r.1 then uriaaAssemble r.2.1 r.2.2 false else some (.failed, r.2.1, r.2.2) := by
            rw [uriaaResolveUri, hdocument, hset]
            simp only [Bool.false_eq_true, if_false, hunset, hv, habsolute, Option.bind_eq_bind,
              Option.bind_some, decide_eq_true_iff]
            rfl
          by_cases hkeeps : u.KeepsPath h
          · have hsome : (u.component h .absPath).isSome :=
              (hkeeps.resolve_left (by simp [hnone])).2
            obtain ⟨path, hpath⟩ := Option.isSome_iff_exists.mp hsome
            have hroot := ((hu.spansPart hheap .absPath).2 path hpath).2.absPath rfl
            rw [if_pos hkeeps] at hresolve
            rw [resolvesBehind_taken hresolve hform hvScheme hvAuthority
              (hpath ▸ hkept .absPath (by decide)) hroot (hkept .query (by decide))
              (hkept .fragment (by decide))]
            simp [hnoScheme, hkeeps]
          · rw [if_neg hkeeps] at hresolve
            have hslash : ∀ text, base.component h .absPath = some text → slash ∈ text :=
              fun text htext => List.mem_of_head? ((hbasePath.2 text htext).2.absPath rfl)
            have halloc : (v.part .path).isAlloc = false := by
              have hpath := hkept .path (by decide)
              cases hown : u.component h .path with
              | none =>
                  rw [hown] at hpath
                  exact hpath.2.2.1
              | some text =>
                  rw [hown] at hpath
                  exact Stringaa.Spans.isAlloc hpath
            rw [resolvesBehind_merged hresolve hform hvScheme hvAuthority hbasePath.1 hslash
              (hkept .relPath (by decide)) halloc (hkept .query (by decide))
              (hkept .fragment (by decide)) rfl]
            simp [hnoScheme, hkeeps]

/-- For every base with scheme and authority and every reference without authority, the resolved
reference has the authority of the base exactly where the path does not go on with that. -/
theorem uriaaResolveUri_keepsAuthority (h : Heap) (u base : Uriaa)
    (baseText relativeText authority : List UInt8) (hheap : h.WellFormed)
    (hbase : base.ReadFrom h baseText true) (hu : u.ReadFrom h relativeText true)
    (hscheme : (base.component h .scheme).isSome)
    (hauthority : base.component h .authority = some authority)
    (hnone : u.component h .authority = none) :
    u.ResolvesBehind h base authority ↔ u.KeepsAuthority h base authority := by
  obtain ⟨scheme, hscheme⟩ := Option.isSome_iff_exists.mp hscheme
  exact resolvesBehind_iff hheap hbase hu hscheme hauthority hnone

/-- `/c` against `h://a/b`. -/
theorem uriaaResolveUri_keepsAuthority_absolute : ∃ u base : Uriaa,
    base.ReadFrom (.ofText sampleText) ((sampleText.drop 0).take 7) true ∧
    u.ReadFrom (.ofText sampleText) ((sampleText.drop 7).take 2) true ∧
    (u.ResolvesBehind (.ofText sampleText) base [ch 'a'] ↔
      u.KeepsAuthority (.ofText sampleText) base [ch 'a']) := by
  obtain ⟨base, hbase, hscheme, hauthority, -⟩ := sampleSlice_parsed 0 7 (by decide)
    (some [ch 'h']) (some [ch 'a']) none (some [ch '/', ch 'b']) (by decide) (by decide)
  obtain ⟨u, hu, -, hnone, -⟩ := sampleSlice_parsed 7 2 (by decide)
    none none none (some [ch '/', ch 'c']) (by decide) (by decide)
  exact ⟨u, base, hbase.readFrom, hu.readFrom, uriaaResolveUri_keepsAuthority _ _ _ _ _ _
    (Heap.ofText_wellFormed _) hbase.readFrom hu.readFrom (by rw [hscheme]; rfl) hauthority hnone⟩

/-- `b/c` against `h://a` is resolved to `h://ab/`. -/
theorem uriaaResolveUri_growsAuthority : ¬ ∀ (h : Heap) (u base : Uriaa)
    (baseText relativeText authority : List UInt8), h.WellFormed → base.ReadFrom h baseText true →
      u.ReadFrom h relativeText true → (base.component h .scheme).isSome →
      base.component h .authority = some authority → u.component h .scheme = none →
      u.component h .authority = none → u.ResolvesBehind h base authority := by
  intro hclaim
  obtain ⟨base, hbase, hscheme, hauthority, -, hpath⟩ := sampleSlice_parsed 0 5 (by decide)
    (some [ch 'h']) (some [ch 'a']) none none (by decide) (by decide)
  obtain ⟨u, hu, hnone, hunset, hrelative, -⟩ := sampleSlice_parsed 6 3 (by decide)
    none none (some [ch 'b', ch '/', ch 'c']) (some [ch '/', ch 'c']) (by decide) (by decide)
  have hheap := Heap.ofText_wellFormed sampleText
  have hresolves := hclaim _ _ _ _ _ _ hheap hbase.readFrom hu.readFrom (by rw [hscheme]; rfl)
    hauthority hnone hunset
  rw [resolvesBehind_iff hheap hbase.readFrom hu.readFrom hscheme hauthority hunset,
    Uriaa.KeepsAuthority, hpath, hrelative, hnone] at hresolves
  have hkeeps : ¬ u.KeepsPath (.ofText sampleText) := by
    simp [Uriaa.KeepsPath, hunset, hrelative]
  have hdocument : u.isCurrentDocument = false := by
    simp [Uriaa.isCurrentDocument, Uriaa.isInit_iff (h := .ofText sampleText), hrelative]
  have hleft : ¬ Text.Climbs (upToLastSlash [] ++ [ch 'b', ch '/', ch 'c']) ∧
      ¬ Text.StaysBehind (upToLastSlash [] ++ [ch 'b', ch '/', ch 'c']) := by decide
  simp [hkeeps, hdocument, hleft] at hresolves

end Httpaa
