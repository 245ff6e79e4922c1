import Httpaa.Uri.Recomposition

/-!
# The characters of a parsed reference

The loops with escapes pass by one character unchecked behind every complete escape triple, and a
`%` that ends the text. A stray is the text at such a character of the way the parser takes, or at
the `#` in front of a fragment. The text that is read is made of URI characters exactly when every
stray starts with something a reference may contain, and only one of them with `#`.
-/

namespace Httpaa

open Recogniser

namespace Text

/-! ### Texts of characters and escape triples -/

def uriText (P : UInt8 → Bool) : List UInt8 → Bool
  | [] => true
  | c :: rest =>
      if c = ch '%' then
        match rest with
        | a :: b :: rest => hexChars a && hexChars b && uriText P rest
        | _ => false
      else P c && uriText P rest

/-- URI characters and complete escape triples, and at most one `#`, with a fragment behind it. -/
def IsUriText (text : List UInt8) : Prop :=
  ∃ front, uriText uricChars front = true ∧ (text = front ∨
    ∃ fragment, uriText uricChars fragment = true ∧ text = front ++ ch '#' :: fragment)

/-- URI characters and `#`. -/
def referenceChars (c : UInt8) : Bool := uricChars c || c == ch '#'

variable {P Q : UInt8 → Bool} {c a b : UInt8} {s t text rest : List UInt8}

theorem uriText_cons (hc : c ≠ ch '%') : uriText P (c :: rest) = (P c && uriText P rest) := by
  rcases rest with _ | ⟨a, _ | ⟨b, rest⟩⟩ <;> simp [uriText, hc]

theorem uriText_triple :
    uriText P (ch '%' :: a :: b :: rest) = (hexChars a && hexChars b && uriText P rest) := by
  rw [uriText, if_pos rfl]

theorem uriText_percent (htext : uriText P (ch '%' :: rest) = true) :
    ∃ a b rest', rest = a :: b :: rest' ∧ hexChars a = true ∧ hexChars b = true := by
  rcases rest with _ | ⟨a, _ | ⟨b, rest⟩⟩
  · simp [uriText] at htext
  · simp [uriText] at htext
  · rw [uriText_triple, Bool.and_eq_true, Bool.and_eq_true] at htext
    exact ⟨a, b, rest, rfl, htext.1⟩

theorem hexChars_uricChars (hc : hexChars c = true) : uricChars c = true := by
  rw [hexChars, Bool.or_eq_true, Bool.or_eq_true] at hc
  simp only [uricChars, unreservedChars, alphanumChars, alphaChars, lowalphaChars, upalphaChars,
    Bool.or_eq_true, Bool.and_eq_true, decide_eq_true_eq] at hc ⊢
  rcases hc with (hdigit | ⟨hlow, hhigh⟩) | ⟨hlow, hhigh⟩
  · exact .inr (.inl (.inr hdigit))
  · exact .inr (.inl (.inl (.inr ⟨hlow, UInt8.le_trans hhigh (by decide)⟩)))
  · exact .inr (.inl (.inl (.inl ⟨hlow, UInt8.le_trans hhigh (by decide)⟩)))

theorem uricChars_ne (hc : uricChars c = true) : c ≠ ch '%' ∧ c ≠ ch '#' := by
  constructor <;>
  · rintro rfl
    revert hc
    decide

private theorem uriText_mono (hPQ : ∀ c, P c = true → Q c = true) (htext : uriText P text = true) :
    uriText Q text = true := by
  induction text using uriText.induct with
  | case1 => rfl
  | case2 a b rest ih =>
      rw [uriText_triple, Bool.and_eq_true] at htext ⊢
      exact ⟨htext.1, ih htext.2⟩
  | case3 rest hrest =>
      obtain ⟨a, b, rest', hrest', -⟩ := uriText_percent htext
      exact (hrest a b rest' hrest').elim
  | case4 c rest hc ih =>
      rw [uriText_cons hc, Bool.and_eq_true] at htext ⊢
      exact ⟨hPQ c htext.1, ih htext.2⟩

theorem uriText_append (htext : uriText P text = true) :
    uriText P (text ++ rest) = uriText P rest := by
  induction text using uriText.induct with
  | case1 => rfl
  | case2 a b text ih =>
      rw [uriText_triple, Bool.and_eq_true, Bool.and_eq_true] at htext
      rw [List.cons_append, List.cons_append, List.cons_append, uriText_triple, htext.1.1,
        htext.1.2, ih htext.2]
      rfl
  | case3 text hshort =>
      obtain ⟨a, b, rest', hrest', -⟩ := uriText_percent htext
      exact (hshort a b rest' hrest').elim
  | case4 c text hc ih =>
      rw [uriText_cons hc, Bool.and_eq_true] at htext
      rw [List.cons_append, uriText_cons hc, htext.1, ih htext.2]
      rfl

theorem uriText_of_all (hc : text.all uricChars = true) : uriText referenceChars text = true := by
  induction text with
  | nil => rfl
  | cons c text ih =>
      rw [List.all_cons, Bool.and_eq_true] at hc
      rw [uriText_cons (uricChars_ne hc.1).1, ih hc.2, referenceChars, hc.1]
      rfl

private theorem hash_not_mem (htext : uriText uricChars text = true) : ch '#' ∉ text := by
  induction text using uriText.induct with
  | case1 => exact List.not_mem_nil
  | case2 a b text ih =>
      rw [uriText_triple, Bool.and_eq_true, Bool.and_eq_true] at htext
      have ha := (uricChars_ne (hexChars_uricChars htext.1.1)).2
      have hb := (uricChars_ne (hexChars_uricChars htext.1.2)).2
      simp only [List.mem_cons, not_or]
      exact ⟨by decide, ha.symm, hb.symm, ih htext.2⟩
  | case3 text hshort =>
      obtain ⟨a, b, rest', hrest', -⟩ := uriText_percent htext
      exact (hshort a b rest' hrest').elim
  | case4 c text hc ih =>
      rw [uriText_cons hc, Bool.and_eq_true] at htext
      exact List.not_mem_cons_of_ne_of_not_mem (uricChars_ne htext.1).2.symm (ih htext.2)

private theorem uriText_of_not_mem (htext : uriText referenceChars text = true)
    (hhash : ch '#' ∉ text) :
    uriText uricChars text = true := by
  induction text using uriText.induct with
  | case1 => rfl
  | case2 a b text ih =>
      simp only [List.mem_cons, not_or] at hhash
      rw [uriText_triple, Bool.and_eq_true] at htext ⊢
      exact ⟨htext.1, ih htext.2 hhash.2.2.2⟩
  | case3 text hshort =>
      obtain ⟨a, b, rest', hrest', -⟩ := uriText_percent htext
      exact (hshort a b rest' hrest').elim
  | case4 c text hc ih =>
      rw [List.mem_cons, not_or] at hhash
      rw [uriText_cons hc, Bool.and_eq_true, referenceChars, Bool.or_eq_true, beq_iff_eq] at htext
      rw [uriText_cons hc, ih htext.2 hhash.2, htext.1.resolve_right (Ne.symm hhash.1)]
      rfl

theorem isUriText_iff :
    IsUriText text ↔ uriText referenceChars text = true ∧ text.count (ch '#') ≤ 1 := by
  have hmono (c : UInt8) (hc : uricChars c = true) : referenceChars c = true := by
    rw [referenceChars, hc]
    rfl
  constructor
  · rintro ⟨front, hfront, rfl | ⟨fragment, hfragment, rfl⟩⟩
    · refine ⟨uriText_mono hmono hfront, ?_⟩
      rw [List.count_eq_zero.mpr (hash_not_mem hfront)]
      exact Nat.zero_le _
    · refine ⟨?_, ?_⟩
      · rw [uriText_append (uriText_mono hmono hfront), uriText_cons (by decide),
          uriText_mono hmono hfragment]
        rfl
      · rw [List.count_append, List.count_cons_self, List.count_eq_zero.mpr (hash_not_mem hfront),
          List.count_eq_zero.mpr (hash_not_mem hfragment)]
  · rintro ⟨htext, hcount⟩
    induction text using uriText.induct with
    | case1 => exact ⟨[], rfl, .inl rfl⟩
    | case2 a b text ih =>
        rw [uriText_triple, Bool.and_eq_true] at htext
        have hsub : text.Sublist (ch '%' :: a :: b :: text) :=
          ((List.sublist_cons_self b text).trans (List.sublist_cons_self a _)).trans
            (List.sublist_cons_self _ _)
        have hle := Nat.le_trans (hsub.count_le (ch '#')) hcount
        obtain ⟨front, hfront, hsplit⟩ := ih htext.2 hle
        refine ⟨ch '%' :: a :: b :: front, by rw [uriText_triple, htext.1, hfront]; rfl, ?_⟩
        rcases hsplit with rfl | ⟨fragment, hfragment, rfl⟩
        · exact .inl rfl
        · exact .inr ⟨fragment, hfragment, rfl⟩
    | case3 text hshort =>
        obtain ⟨a, b, rest', hrest', -⟩ := uriText_percent htext
        exact (hshort a b rest' hrest').elim
    | case4 c text hc ih =>
        rw [uriText_cons hc, Bool.and_eq_true, referenceChars, Bool.or_eq_true, beq_iff_eq] at htext
        by_cases hhash : c = ch '#'
        · subst hhash
          rw [List.count_cons_self] at hcount
          have hnone : ch '#' ∉ text := List.count_eq_zero.mp (by omega)
          exact ⟨[], rfl, .inr ⟨text, uriText_of_not_mem htext.2 hnone, rfl⟩⟩
        · rw [List.count_cons_of_ne hhash] at hcount
          obtain ⟨front, hfront, hsplit⟩ := ih htext.2 hcount
          have hchar := htext.1.resolve_right hhash
          refine ⟨c :: front, by rw [uriText_cons hc, hchar, hfront]; rfl, ?_⟩
          rcases hsplit with rfl | ⟨fragment, hfragment, rfl⟩
          · exact .inl rfl
          · exact .inr ⟨fragment, hfragment, rfl⟩

/-! ### Strays -/

/-- What a reference may contain starts here, or nothing is left. -/
def strayOk (s : List UInt8) : Bool := s.isEmpty || (inClass referenceChars s).1

def startsHash (s : List UInt8) : Bool := s.head? == some (ch '#')

/-- From `s` to `t` a text is read at which nothing but the strays may be wrong, and the characters
of these are read too. -/
def Takes (s t : List UInt8) (strays : List (List UInt8)) : Prop :=
  ∃ text, s = text ++ t ∧ text.count (ch '#') = strays.countP startsHash ∧
    (strays.all strayOk = true → uriText referenceChars text = true) ∧
    (strays.all strayOk = false →
      ∀ more, more <+: t → uriText referenceChars (text ++ more) = false) ∧
    ∀ stray ∈ strays, stray ≠ [] → t.length < stray.length

theorem Takes.refl (s : List UInt8) : Takes s s [] :=
  ⟨[], rfl, rfl, fun _ => rfl, (fun h => by cases h), by simp⟩

theorem Takes.trans {m : List UInt8} {strays strays' : List (List UInt8)}
    (hsm : Takes s m strays) (hmt : Takes m t strays') : Takes s t (strays ++ strays') := by
  obtain ⟨text, rfl, hcount, hgood, hbad, hread⟩ := hsm
  obtain ⟨text', rfl, hcount', hgood', hbad', hread'⟩ := hmt
  refine ⟨text ++ text', (List.append_assoc ..).symm, ?_, ?_, ?_, ?_⟩
  · rw [List.count_append, List.countP_append, hcount, hcount']
  · rw [List.all_append, Bool.and_eq_true]
    rintro ⟨hok, hok'⟩
    rw [uriText_append (hgood hok), hgood' hok']
  · rw [List.all_append, Bool.and_eq_false_iff]
    rintro (hok | hok) more hmore
    · rw [List.append_assoc]
      exact hbad hok _ ((List.prefix_append_right_inj text').mpr hmore)
    · by_cases hfirst : strays.all strayOk = true
      · rw [List.append_assoc, uriText_append (hgood hfirst)]
        exact hbad' hok more hmore
      · rw [List.append_assoc]
        exact hbad (by simpa using hfirst) _ ((List.prefix_append_right_inj text').mpr hmore)
  · intro stray hstray hne
    rcases List.mem_append.mp hstray with h | h
    · have hlt := hread stray h hne
      rw [List.length_append] at hlt
      omega
    · exact hread' stray h hne

private theorem Takes.of_uriText (text t : List UInt8) (htext : uriText uricChars text = true) :
    Takes (text ++ t) t [] := by
  refine ⟨text, rfl, List.count_eq_zero.mpr (hash_not_mem htext), fun _ => ?_,
    (fun h => by cases h), by simp⟩
  refine uriText_mono (fun c hc => ?_) htext
  rw [referenceChars, hc]
  rfl

theorem Takes.cons (hc : uricChars c = true) : Takes (c :: t) t [] := by
  refine Takes.of_uriText [c] t ?_
  rw [uriText_cons (uricChars_ne hc).1, hc]
  rfl

private theorem uriText_of_stray {x : UInt8} (hstray : strayOk (x :: t) = false) (more : List UInt8)
    (hmore : more <+: t) : uriText referenceChars (x :: more) = false := by
  simp only [strayOk, List.isEmpty_cons, Bool.false_or, inClass] at hstray
  split at hstray
  · cases hstray
  · rename_i hclass
    by_cases hx : x = ch '%'
    · subst hx
      rw [← Bool.not_eq_true]
      intro htext
      obtain ⟨a, b, rest, rfl, ha, hb⟩ := uriText_percent htext
      obtain ⟨back, rfl⟩ := hmore
      simp [escaped, ha, hb] at hstray
    · rw [uriText_cons hx, Bool.eq_false_iff.mpr hclass]
      rfl

def charsStrays (P : UInt8 → Bool) (s : List UInt8) : List (List UInt8) :=
  if _h : (inClass P s).1 = true then
    (if P (s.headD 0) then [] else [(inClass P s).2]) ++ charsStrays P (inClass P s).2.tail
  else if s = [ch '%'] then [s] else []
termination_by s.length
decreasing_by
  have hle := (inClass_suffix P s).length_le
  have hpos := List.length_pos_iff.mpr (inClass_ne_nil _h)
  rw [List.length_tail]
  omega

/-- A class of URI characters with the hexadecimal digits. -/
structure UriClass (P : UInt8 → Bool) : Prop where
  uric : ∀ c, P c = true → uricChars c = true
  hex : ∀ c, hexChars c = true → P c = true

theorem chars_class (hc : P c = true) : chars P (c :: rest) = chars P rest ∧
    charsStrays P (c :: rest) = charsStrays P rest := by
  have hclass : inClass P (c :: rest) = (true, c :: rest) := by rw [inClass, if_pos hc]
  rw [chars, charsStrays, hclass]
  simp [hc]

private theorem charsStrays_nil : charsStrays P [] = [] := by
  rw [charsStrays]
  simp [inClass]

theorem escaped_ok (hescape : (escaped (c :: rest)).1 = true) :
    ∃ a b rest', c = ch '%' ∧ rest = a :: b :: rest' ∧ hexChars a = true ∧ hexChars b = true := by
  by_cases hc : c = ch '%'
  · rcases rest with _ | ⟨a, _ | ⟨b, rest⟩⟩
    · simp [escaped, hc] at hescape
    · simp [escaped, hc] at hescape
    · by_cases hhex : (hexChars a && hexChars b) = true
      · rw [Bool.and_eq_true] at hhex
        exact ⟨a, b, rest, hc, rfl, hhex⟩
      · simp [escaped, hc, hhex] at hescape
  · simp [escaped, hc] at hescape

private theorem escaped_fails (hescape : (escaped (c :: rest)).1 = false) :
    (escaped (c :: rest)).2 = if c = ch '%' ∧ rest = [] then [] else c :: rest := by
  by_cases hc : c = ch '%'
  · rcases rest with _ | ⟨a, _ | ⟨b, rest⟩⟩
    · simp [escaped, hc]
    · simp [escaped, hc]
    · by_cases hhex : (hexChars a && hexChars b) = true
      · simp [escaped, hc, hhex] at hescape
      · simp [escaped, hc, hhex]
  · simp [escaped, hc]

theorem Takes.triple (ha : hexChars a = true) (hb : hexChars b = true) :
    Takes (ch '%' :: a :: b :: t) t [] := by
  refine Takes.of_uriText [ch '%', a, b] t ?_
  rw [uriText_triple, ha, hb]
  rfl

theorem Takes.stray {stray : List UInt8} {strays : List (List UInt8)} (hst : Takes s t strays)
    (hok : strayOk stray = true) (hhash : startsHash stray = false)
    (hlong : stray ≠ [] → t.length < stray.length) : Takes s t (stray :: strays) := by
  obtain ⟨text, rfl, hcount, hgood, hbad, hread⟩ := hst
  refine ⟨text, rfl, ?_, fun h => hgood ?_, fun h => hbad ?_,
    List.forall_mem_cons.mpr ⟨hlong, hread⟩⟩
  · rw [hcount, List.countP_cons_of_neg (by simp [hhash])]
  · simpa [hok] using h
  · simpa [hok] using h

theorem Takes.single {x : UInt8} (hx : referenceChars x = true) : Takes (x :: t) t [x :: t] := by
  have hok : strayOk (x :: t) = true := by simp [strayOk, inClass, hx]
  by_cases hhash : x = ch '#'
  · subst hhash
    refine ⟨[ch '#'], rfl, by simp [startsHash], fun _ => by decide, fun h => ?_, by simp⟩
    simp [hok] at h
  · rw [referenceChars, Bool.or_eq_true, beq_iff_eq] at hx
    exact (Takes.cons (hx.resolve_right hhash)).stray hok (by simp [startsHash, hhash]) (by simp)

private theorem Takes.of_stray {x : UInt8} {tail : List UInt8} {strays : List (List UInt8)}
    (htail : Takes tail t strays) (hstray : strayOk (x :: tail) = false) :
    Takes (x :: tail) t ((x :: tail) :: strays) := by
  obtain ⟨text, rfl, hcount, -, -, hread⟩ := htail
  have hhash : x ≠ ch '#' := by
    rintro rfl
    simp [strayOk, inClass, referenceChars] at hstray
  refine ⟨x :: text, rfl, ?_, fun h => ?_, fun _ more hmore => ?_,
    List.forall_mem_cons.mpr ⟨fun _ => ?_, hread⟩⟩
  · rw [List.count_cons_of_ne hhash, hcount, List.countP_cons_of_neg (by simp [startsHash, hhash])]
  · simp [hstray] at h
  · exact uriText_of_stray hstray _ ((List.prefix_append_right_inj text).mpr hmore)
  · rw [List.length_cons, List.length_append]
    omega

private theorem inClass_takes (hP : UriClass P) (hQ : UriClass Q)
    (htail : ∀ t : List UInt8, t.length < s.length → Takes t (chars Q t) (charsStrays Q t))
    (hclass : (inClass P s).1 = true) :
    Takes s (chars Q (inClass P s).2.tail)
      ((if P (s.headD 0) then [] else [(inClass P s).2]) ++
        charsStrays Q (inClass P s).2.tail) := by
  obtain ⟨c, rest, rfl⟩ := List.exists_cons_of_ne_nil (inClass_ne_nil hclass)
  rw [List.headD_cons]
  by_cases hc : P c = true
  · have hsame : inClass P (c :: rest) = (true, c :: rest) := by rw [inClass, if_pos hc]
    rw [hsame, if_pos hc]
    exact (Takes.cons (hP.uric c hc)).trans (htail rest (Nat.lt_succ_self _))
  · rw [inClass, if_neg hc] at hclass ⊢
    obtain ⟨a, b, rest, rfl, rfl, ha, hb⟩ := escaped_ok hclass
    have hescaped : (escaped (ch '%' :: a :: b :: rest)).2 = rest := by simp [escaped, ha, hb]
    have htriple : Takes (ch '%' :: a :: b :: rest) rest [] := Takes.triple ha hb
    rw [hescaped, if_neg hc]
    simp only [List.length_cons] at htail
    rcases rest with _ | ⟨x, tail⟩
    · rw [List.tail_nil, chars_nil, charsStrays_nil]
      exact htriple.stray rfl rfl fun hne => absurd rfl hne
    · rw [List.length_cons] at htail
      refine htriple.trans ?_
      rw [List.tail_cons]
      have hmore := htail tail (by omega)
      cases hok : strayOk (x :: tail) with
      | false => exact hmore.of_stray hok
      | true =>
          by_cases hx : referenceChars x = true
          · exact (Takes.single hx).trans hmore
          · -- Behind the triple another one starts: its digits are taken by the class.
            have hnext : (escaped (x :: tail)).1 = true := by
              simpa [strayOk, inClass, hx] using hok
            obtain ⟨a', b', tail, rfl, rfl, ha', hb'⟩ := escaped_ok hnext
            rw [(chars_class (hQ.hex _ ha')).1, (chars_class (hQ.hex _ ha')).2,
              (chars_class (hQ.hex _ hb')).1, (chars_class (hQ.hex _ hb')).2]
            rw [List.length_cons, List.length_cons] at htail
            exact ((Takes.triple ha' hb').stray hok rfl (by simp; omega)).trans
              (htail tail (by omega))

private theorem chars_takes (hP : UriClass P) (s : List UInt8) :
    Takes s (chars P s) (charsStrays P s) := by
  induction hn : s.length using Nat.strong_induction_on generalizing s with
  | _ n ih =>
      by_cases hclass : (inClass P s).1 = true
      · rw [chars, charsStrays, dif_pos hclass, dif_pos hclass]
        exact inClass_takes hP hP (fun t ht => ih _ (hn ▸ ht) t rfl) hclass
      · rw [chars, charsStrays, dif_neg hclass, dif_neg hclass]
        rcases s with _ | ⟨c, rest⟩
        · exact Takes.refl []
        · have hc : ¬ P c = true := fun hc => hclass (by rw [inClass, if_pos hc])
          rw [inClass, if_neg hc] at hclass ⊢
          rw [escaped_fails (by simpa using hclass)]
          by_cases hlast : c = ch '%' ∧ rest = []
          · obtain ⟨rfl, rfl⟩ := hlast
            exact (Takes.refl []).of_stray (by decide)
          · have hne : c :: rest ≠ [ch '%'] := fun heq => hlast (List.cons.inj heq)
            rw [if_neg hlast, if_neg hne]
            exact Takes.refl _

/-! ### The strays of the productions -/

theorem Takes.run (h : ∀ c, P c = true → uricChars c = true) (s : List UInt8) :
    Takes s (s.dropWhile P) [] := by
  have htaken : uriText uricChars (s.takeWhile P) = true := by
    induction s with
    | nil => rfl
    | cons c s ih =>
        rw [List.takeWhile_cons]
        split
        · rename_i hc
          rw [uriText_cons (uricChars_ne (h c hc)).1, h c hc, ih]
          rfl
        · rfl
  have hall := Takes.of_uriText _ (s.dropWhile P) htaken
  rwa [List.takeWhile_append_dropWhile] at hall

private theorem isChar_takes {x : UInt8} (hx : uricChars x = true) (s : List UInt8) :
    Takes s (isChar x s).2 [] := by
  cases s with
  | nil => exact Takes.refl []
  | cons y rest =>
      by_cases hy : x = y
      · subst hy
        rw [isChar_cons]
        exact Takes.cons hx
      · rw [isChar, if_neg hy]
        exact Takes.refl _

def classThenStrays (P Q : UInt8 → Bool) (s : List UInt8) : List (List UInt8) :=
  if (inClass P s).1 then
    (if P (s.headD 0) then [] else [(inClass P s).2]) ++ charsStrays Q (inClass P s).2.tail
  else []

def paramsStrays (s : List UInt8) : List (List UInt8) :=
  if _h : (isChar (ch ';') s).1 = true then
    charsStrays pcharChars (isChar (ch ';') s).2 ++
      paramsStrays (chars pcharChars (isChar (ch ';') s).2)
  else []
termination_by s.length
decreasing_by
  exact Nat.lt_of_le_of_lt (chars_suffix _ _).length_le (isChar_length _h)

def segmentStrays (s : List UInt8) : List (List UInt8) :=
  charsStrays pcharChars s ++ paramsStrays (chars pcharChars s)

def segmentsStrays (s : List UInt8) : List (List UInt8) :=
  if _h : (isChar (ch '/') s).1 = true then
    segmentStrays (isChar (ch '/') s).2 ++ segmentsStrays (segment (isChar (ch '/') s).2)
  else []
termination_by s.length
decreasing_by
  exact Nat.lt_of_le_of_lt (segment_suffix _).length_le (isChar_length _h)

theorem hexChars_unreservedChars (hc : hexChars c = true) : unreservedChars c = true := by
  have h := hexChars_uricChars hc
  rw [uricChars, Bool.or_eq_true] at h
  rcases h with h | h
  · simp only [reservedChars, Bool.or_eq_true, beq_iff_eq] at h
    rcases h with ((((((((rfl | rfl) | rfl) | rfl) | rfl) | rfl) | rfl) | rfl) | rfl) | rfl <;>
      exact absurd hc (by decide)
  · exact h

theorem pcharChars_uriClass : UriClass pcharChars := by
  refine ⟨fun c hc => ?_, fun c hc => ?_⟩
  · simp only [pcharChars, uricChars, reservedChars, Bool.or_eq_true] at hc ⊢
    tauto
  · simp [pcharChars, hexChars_unreservedChars hc]

theorem userinfoChars_uriClass : UriClass userinfoChars := by
  refine ⟨fun c hc => ?_, fun c hc => ?_⟩
  · simp only [userinfoChars, uricChars, reservedChars, Bool.or_eq_true] at hc ⊢
    tauto
  · simp [userinfoChars, hexChars_unreservedChars hc]

theorem relSegmentChars_uriClass : UriClass relSegmentChars := by
  refine ⟨fun c hc => ?_, fun c hc => ?_⟩
  · simp only [relSegmentChars, uricChars, reservedChars, Bool.or_eq_true] at hc ⊢
    tauto
  · simp [relSegmentChars, hexChars_unreservedChars hc]

theorem uricNoSlashChars_uriClass : UriClass uricNoSlashChars := by
  refine ⟨fun c hc => ?_, fun c hc => ?_⟩
  · simp only [uricNoSlashChars, uricChars, reservedChars, Bool.or_eq_true] at hc ⊢
    tauto
  · simp [uricNoSlashChars, hexChars_unreservedChars hc]

theorem uricChars_uriClass : UriClass uricChars :=
  ⟨fun _ hc => hc, fun _ hc => hexChars_uricChars hc⟩

private theorem params_takes (s : List UInt8) : Takes s (params s) (paramsStrays s) := by
  fun_induction params s with
  | case1 s h ih =>
      rw [paramsStrays, dif_pos h]
      have hfirst := (isChar_takes (x := ch ';') (by decide) s).trans
        (chars_takes pcharChars_uriClass (isChar (ch ';') s).2)
      exact hfirst.trans ih
  | case2 s h =>
      rw [paramsStrays, dif_neg h]
      exact Takes.refl s

private theorem segment_takes (s : List UInt8) : Takes s (segment s) (segmentStrays s) :=
  (chars_takes pcharChars_uriClass s).trans (params_takes _)

private theorem segments_takes (s : List UInt8) : Takes s (segments s) (segmentsStrays s) := by
  fun_induction segments s with
  | case1 s h ih =>
      rw [segmentsStrays, dif_pos h]
      have hfirst := (isChar_takes (x := ch '/') (by decide) s).trans
        (segment_takes (isChar (ch '/') s).2)
      exact hfirst.trans ih
  | case2 s h =>
      rw [segmentsStrays, dif_neg h]
      exact Takes.refl s

theorem classThenChars_takes (hP : UriClass P) (hQ : UriClass Q)
    (hok : (classThenChars P Q s).1 = true) :
    Takes s (classThenChars P Q s).2 (classThenStrays P Q s) := by
  have hclass : (inClass P s).1 = true := by
    by_contra hnot
    rw [classThenChars, if_neg hnot] at hok
    exact hnot hok
  rw [classThenChars, classThenStrays, if_pos hclass, if_pos hclass]
  exact inClass_takes hP hQ (fun t _ => chars_takes hQ t) hclass

def absPathStrays (c : Cursor UInt8) : List (List UInt8) :=
  if (absPath c).ok then
    segmentStrays c.rest.tail ++ segmentsStrays (segment c.rest.tail)
  else []

/-- The strays of `server`, which reads the user information only if a host follows. -/
def serverStrays (c : Cursor UInt8) : List (List UInt8) :=
  if (userinfoAt c).ok && (hostport (userinfoAt c).cursor).ok then
    charsStrays userinfoChars c.rest
  else []

def netPathStrays (c : Cursor UInt8) : List (List UInt8) :=
  serverStrays (andThen (char '/') (char '/') c).cursor ++
    absPathStrays (andThen (andThen (char '/') (char '/')) authority c).cursor

def relPathStrays (c : Cursor UInt8) : List (List UInt8) :=
  classThenStrays relSegmentChars relSegmentChars c.rest ++
    absPathStrays (c.to (classThenChars relSegmentChars relSegmentChars c.rest).2)

def queryStrays (c : Cursor UInt8) : List (List UInt8) :=
  if c.rest.head? = some (ch '?') then charsStrays uricChars c.rest.tail else []

def fragmentStrays (c : Cursor UInt8) : List (List UInt8) :=
  if c.rest.head? = some (ch '#') then c.rest :: charsStrays uricChars c.rest.tail else []

def hierPathStrays (c : Cursor UInt8) : List (List UInt8) :=
  if (netPath c).ok then netPathStrays c else absPathStrays c

def hierPartStrays (c : Cursor UInt8) : List (List UInt8) :=
  hierPathStrays c ++ queryStrays (orElse netPath absPath c).cursor

def relativePathStrays (c : Cursor UInt8) : List (List UInt8) :=
  if (orElse netPath absPath c).ok then hierPathStrays c else relPathStrays c

def relativeStrays (c : Cursor UInt8) : List (List UInt8) :=
  relativePathStrays c ++ queryStrays (orElse (orElse netPath absPath) relPath c).cursor

def absoluteStrays (c : Cursor UInt8) : List (List UInt8) :=
  let part := (andThen scheme (char ':') c).cursor
  if (hierPart part).ok then hierPartStrays part
  else classThenStrays uricNoSlashChars uricChars part.rest

def referenceStrays (c : Cursor UInt8) : List (List UInt8) :=
  (if (absoluteURI c).ok then absoluteStrays c
    else if (relativeURI c).ok then relativeStrays c else []) ++
    fragmentStrays (orElse absoluteURI relativeURI c).cursor

/-! ### What the productions take -/

variable {p q : Production} {σ τ : Cursor UInt8 → List (List UInt8)}

/-- Where the production succeeds it takes a text with these strays. -/
def TakesOk (p : Production) (σ : Cursor UInt8 → List (List UInt8)) : Prop :=
  ∀ c, (p c).ok = true → Takes c.rest (p c).cursor.rest (σ c)

theorem TakesOk.lift {f : List UInt8 → Bool × List UInt8} {strays : List UInt8 → List (List UInt8)}
    (hf : ∀ s, (f s).1 = true → Takes s (f s).2 (strays s)) :
    TakesOk (lift f) fun c => strays c.rest :=
  fun c hok => hf c.rest hok

theorem TakesOk.andThen (hp : TakesOk p σ) (hq : TakesOk q τ) :
    TakesOk (andThen p q) fun c => σ c ++ τ (p c).cursor := by
  intro c hok
  by_cases hfirst : (p c).ok = true
  · rw [andThen_of_ok hfirst] at hok ⊢
    exact (hp c hfirst).trans (hq _ hok)
  · rw [Recogniser.andThen, if_neg hfirst] at hok
    exact absurd hok hfirst

theorem TakesOk.noting (hp : TakesOk p σ) (note : Nat → Nat → UriWrite) :
    TakesOk (noting note p) σ := by
  intro c hok
  by_cases hfirst : (p c).ok = true
  · rw [Recogniser.noting, if_pos hfirst]
    exact hp c hfirst
  · rw [Recogniser.noting, if_neg hfirst] at hok
    exact absurd hok hfirst

theorem TakesOk.attempt (hp : TakesOk p σ) : TakesOk (attempt p) σ := by
  intro c hok
  by_cases hfirst : (p c).ok = true
  · rw [attempt_of_ok hfirst]
    exact hp c hfirst
  · simp [Recogniser.attempt, hfirst] at hok

theorem attempt_rest {c' : Cursor UInt8} (hfail : ¬ (attempt p c').ok = true) :
    (attempt p c').cursor = c' := by
  by_cases hfirst : (p c').ok = true
  · rw [attempt_of_ok hfirst] at hfail
    exact absurd hfirst hfail
  · rw [Recogniser.attempt, if_neg hfirst]

theorem char_takes {x : Char} (hx : uricChars (ch x) = true) : TakesOk (char x) fun _ => [] :=
  .lift fun s _ => isChar_takes hx s

theorem labelChars_uricChars (hc : labelChars c = true) : uricChars c = true := by
  rw [uricChars, unreservedChars, Bool.or_eq_true, Bool.or_eq_true]
  rw [labelChars, Bool.or_eq_true] at hc
  rcases hc with hc | hc
  · exact .inr (.inl hc)
  · exact .inr (.inr (by simp [markChars, hc]))

private theorem labelTail_takes (prev : UInt8) (s : List UInt8) :
    Takes s (labelTail prev s).2 [] := by
  induction s generalizing prev with
  | nil => exact Takes.refl []
  | cons c rest ih =>
      by_cases hc : labelChars c = true
      · rw [labelTail, if_pos hc]
        exact (Takes.cons (labelChars_uricChars hc)).trans (ih c)
      · rw [labelTail, if_neg hc]
        exact Takes.refl _

private theorem label_takes {first : UInt8 → Bool}
    (hfirst : ∀ c, first c = true → labelChars c = true) (s : List UInt8) :
    Takes s (label first s).2 [] := by
  cases s with
  | nil => exact Takes.refl []
  | cons c rest =>
      by_cases hc : (first c && (labelTail c rest).1) = true
      · rw [label, if_pos hc]
        rw [Bool.and_eq_true] at hc
        exact (Takes.cons (labelChars_uricChars (hfirst c hc.1))).trans (labelTail_takes c rest)
      · rw [label, if_neg hc]
        exact Takes.refl _

theorem alphanumChars_labelChars (c : UInt8) (hc : alphanumChars c = true) :
    labelChars c = true := by
  rw [labelChars, hc]
  rfl

theorem alphaChars_labelChars (c : UInt8) (hc : alphaChars c = true) : labelChars c = true :=
  alphanumChars_labelChars c (by rw [alphanumChars, hc]; rfl)

private theorem lastLabel_takes {start : List UInt8} (hs : Takes t s [])
    (hstart : Takes t start []) :
    Takes t (lastLabel s start) [] := by
  fun_induction lastLabel s start with
  | case1 s start hlabel hdot ih =>
      exact ih ((hs.trans (label_takes alphanumChars_labelChars s)).trans
        (isChar_takes (by decide) _)) hs
  | case2 s start hlabel hdot => exact hs
  | case3 s start hlabel => exact hstart

private theorem hostname_takes (s : List UInt8) (hok : (hostname s).1 = true) :
    Takes s (hostname s).2 [] := by
  have hlast : Takes s (lastLabel s s) [] := lastLabel_takes (Takes.refl s) (Takes.refl s)
  by_cases htop : (label alphaChars (lastLabel s s)).1 = true
  · rw [hostname, if_pos htop]
    exact (hlast.trans (label_takes alphaChars_labelChars _)).trans (isChar_takes (by decide) _)
  · simp [hostname, htop] at hok

theorem digitChars_uricChars (c : UInt8) (hc : digitChars c = true) : uricChars c = true :=
  labelChars_uricChars (alphanumChars_labelChars c (by rw [alphanumChars, hc, Bool.or_true]))

private theorem ipv4Loop_takes (turns i : Nat) (s : List UInt8) (isDigit : Nat) :
    Takes s (ipv4Loop turns i s isDigit).2 [] := by
  have hdigit (s : List UInt8) (h : digitChars (s.headD 0) = true) : Takes s s.tail [] := by
    cases s with
    | nil => exact absurd h (by decide)
    | cons c rest => exact Takes.cons (digitChars_uricChars c h)
  fun_induction ipv4Loop turns i s isDigit with
  | case1 => exact Takes.refl _
  | case2 turns i s isDigit h htail => exact htail ▸ hdigit s h
  | case3 turns i s isDigit h htail rest hi hdot ih =>
      exact (((hdigit s h).trans (Takes.run digitChars_uricChars _)).trans
        (isChar_takes (by decide) _)).trans ih
  | case4 turns i s isDigit h htail rest hi hdot =>
      exact (hdigit s h).trans (Takes.run digitChars_uricChars _)
  | case5 turns i s isDigit h htail rest hi ih =>
      exact ((hdigit s h).trans (Takes.run digitChars_uricChars _)).trans ih
  | case6 turns i s isDigit h ih => exact ih

private theorem ipv4address_takes (s : List UInt8) (hok : (ipv4address s).1 = true) :
    Takes s (ipv4address s).2 [] := by
  by_cases h : (ipv4Loop 4 0 s 0).1 = 4
  · rw [ipv4address, if_pos h]
    exact ipv4Loop_takes 4 0 s 0
  · simp [ipv4address, h] at hok

private theorem host_takes : TakesOk host fun _ => [] := by
  refine TakesOk.attempt (TakesOk.noting (fun c hok => ?_) _)
  by_cases hname : (hostname c.rest).1 = true
  · have horElse : orElse (lift hostname) (lift ipv4address) c =
        (lift hostname c : Outcome UInt8 UriWrite) := by
      simp [orElse, lift, hname]
    rw [horElse]
    exact hostname_takes c.rest hname
  · have hsame : (hostname c.rest).2 = c.rest := by
      rw [hostname] at hname ⊢
      split at hname
      · exact absurd rfl hname
      · rename_i htop
        rw [if_neg htop]
    have horElse : orElse (lift hostname) (lift ipv4address) c =
        (lift ipv4address c : Outcome UInt8 UriWrite) := by
      simp [orElse, lift, hname, hsame, Cursor.to_self, Outcome.after]
    rw [horElse] at hok ⊢
    exact ipv4address_takes c.rest hok

private theorem digits_takes :
    TakesOk (lift fun s => (digitChars (s.headD 0), s.dropWhile digitChars)) fun _ => [] :=
  fun c _ => Takes.run digitChars_uricChars c.rest

private theorem TakesOk.attempt_always (hp : TakesOk p σ) (c : Cursor UInt8) :
    Takes c.rest (Recogniser.attempt p c).cursor.rest
      (if (Recogniser.attempt p c).ok then σ c else []) := by
  by_cases hok : (Recogniser.attempt p c).ok = true
  · rw [if_pos hok]
    exact hp.attempt c hok
  · rw [if_neg hok, attempt_rest hok]
    exact Takes.refl _

private theorem char_takes_always {x : Char} (hx : uricChars (ch x) = true) (c : Cursor UInt8) :
    Takes c.rest (char x c).cursor.rest [] :=
  isChar_takes hx c.rest

theorem hostport_takes : TakesOk hostport fun _ => [] := by
  refine TakesOk.attempt fun c hok => ?_
  have hhost : (host c).ok = true := hok
  rw [andTry_of_ok hhost]
  refine (host_takes c hhost).trans ?_
  by_cases hcolon : (char ':' (host c).cursor).ok = true
  · change Takes _ (andThen (char ':') port (host c).cursor).cursor.rest _
    rw [andThen_of_ok hcolon]
    have hport := (digits_takes.noting (UriWrite.slice .port)).attempt_always
      (char ':' (host c).cursor).cursor
    rw [ite_self] at hport
    exact (char_takes_always (by decide) _).trans hport
  · change Takes _ (andThen (char ':') port (host c).cursor).cursor.rest _
    rw [andThen, if_neg hcolon]
    exact char_takes_always (by decide) _

private theorem userinfoAt_takes : TakesOk userinfoAt fun c =>
    charsStrays userinfoChars c.rest := by
  refine TakesOk.attempt (TakesOk.noting (fun c hok => ?_) _)
  have hall := (TakesOk.andThen (TakesOk.lift (f := fun s => (true, chars userinfoChars s))
    fun s _ => chars_takes userinfoChars_uriClass s) (char_takes (x := '@') (by decide))) c hok
  simpa using hall

/-- `server` always succeeds. -/
theorem server_takes (c : Cursor UInt8) :
    Takes c.rest (server c).cursor.rest (serverStrays c) := by
  by_cases hhost : (hostport (userinfoAt c).cursor).ok = true
  · have hserver : (server c).cursor = (hostport (userinfoAt c).cursor).cursor := by
      simp [server, always, attempt, notingFailure, both, Outcome.after, hhost]
    rw [hserver, serverStrays]
    have hrest := hostport_takes _ hhost
    by_cases hinfo : (userinfoAt c).ok = true
    · rw [hinfo, hhost]
      have hall := (userinfoAt_takes c hinfo).trans hrest
      rwa [List.append_nil] at hall
    · have hsame : (userinfoAt c).cursor = c := attempt_rest hinfo
      rw [Bool.eq_false_iff.mpr hinfo]
      rwa [hsame] at hrest ⊢
  · have hserver : (server c).cursor = c := by
      simp [server, always, attempt, notingFailure, both, Outcome.after, hhost]
    rw [hserver, serverStrays, Bool.eq_false_iff.mpr hhost, Bool.and_false]
    exact Takes.refl _

theorem absPath_takes (c : Cursor UInt8) :
    Takes c.rest (absPath c).cursor.rest (absPathStrays c) := by
  rcases hrest : c.rest with _ | ⟨x, rest⟩
  · have hfail : absPath c = ⟨false, c, []⟩ := by
      rcases absPath_cases c with ⟨-, heq⟩ | ⟨hslash, -⟩
      · exact heq
      · simp [hrest] at hslash
    rw [absPathStrays, hfail, ← hrest]
    exact Takes.refl _
  · by_cases hx : x = ch '/'
    · subst hx
      have hcursor : (absPath c).cursor.rest = segments (segment rest) ∧ (absPath c).ok = true := by
        simp [absPath, attempt, noting, andThen, char, lift, hrest, Outcome.after]
      rw [absPathStrays, hcursor.2, if_pos rfl, hcursor.1, hrest, List.tail_cons]
      exact (Takes.cons (by decide)).trans ((segment_takes rest).trans (segments_takes _))
    · have hfail : absPath c = ⟨false, c, []⟩ := by
        rcases absPath_cases c with ⟨-, heq⟩ | ⟨hslash, -⟩
        · exact heq
        · simp [hrest, hx] at hslash
      rw [absPathStrays, hfail, ← hrest]
      exact Takes.refl _

private theorem netPath_takes : TakesOk netPath netPathStrays := by
  refine TakesOk.attempt (TakesOk.noting (fun c hok => ?_) _)
  have hauthority : (andThen (andThen (char '/') (char '/')) authority c).ok = true := hok
  rw [andTry_of_ok hauthority, netPathStrays]
  have hslashes : (andThen (char '/') (char '/') c).ok = true := by
    by_contra hnot
    rw [andThen, if_neg hnot] at hauthority
    exact hnot hauthority
  have hcursor : (andThen (andThen (char '/') (char '/')) authority c).cursor.rest =
      (server (andThen (char '/') (char '/') c).cursor).cursor.rest := by
    have hserver (c : Cursor UInt8) : (server c).ok = true := rfl
    rw [andThen_of_ok hslashes]
    simp [authority, attempt, noting, orElse, hserver, Outcome.after]
  have hfirst := (((char_takes (x := '/') (by decide)).andThen (char_takes (by decide))) c
    hslashes).trans (server_takes _)
  rw [← hcursor] at hfirst
  exact hfirst.trans (absPath_takes _)

theorem optionalPart_rest {x : Char} {c : Cursor UInt8} (part : UriPart) {rest : List UInt8}
    (hrest : c.rest = ch x :: rest) :
    (andThen (char x) (uricPart part) c).cursor.rest = chars uricChars rest := by
  simp [andThen, char, lift, hrest, uricPart, noting, Outcome.after]

theorem optionalPart_none {x : Char} {c : Cursor UInt8} (part : UriPart)
    (hhead : c.rest.head? ≠ some (ch x)) :
    (andThen (char x) (uricPart part) c).cursor = c := by
  rw [andThen, char_fails hhead, if_neg Bool.false_ne_true]

theorem exists_of_head {x : UInt8} (hhead : s.head? = some x) : ∃ rest, s = x :: rest := by
  cases s with
  | nil => cases hhead
  | cons y rest =>
      rw [List.head?_cons, Option.some.injEq] at hhead
      exact ⟨rest, by rw [hhead]⟩

private theorem optionalPart_takes (x : Char) (part : UriPart)
    (first : List UInt8 → List (List UInt8)) (hx : ∀ t, Takes (ch x :: t) t (first (ch x :: t)))
    (c : Cursor UInt8) :
    Takes c.rest (andThen (char x) (uricPart part) c).cursor.rest
      (if c.rest.head? = some (ch x) then first c.rest ++ charsStrays uricChars c.rest.tail
        else []) := by
  by_cases hhead : c.rest.head? = some (ch x)
  · obtain ⟨rest, hrest⟩ := exists_of_head hhead
    rw [optionalPart_rest part hrest, if_pos hhead, hrest, List.tail_cons]
    exact (hx rest).trans (chars_takes uricChars_uriClass rest)
  · rw [optionalPart_none part hhead, if_neg hhead]
    exact Takes.refl _

theorem queryStrays_takes (c : Cursor UInt8) :
    Takes c.rest (questionQuery c).cursor.rest (queryStrays c) :=
  optionalPart_takes '?' .query (fun _ => []) (fun _ => Takes.cons (by decide)) c

theorem fragmentStrays_takes (c : Cursor UInt8) :
    Takes c.rest (hashFragment c).cursor.rest (fragmentStrays c) :=
  optionalPart_takes '#' .fragment (fun s => [s]) (fun _ => Takes.single (by decide)) c

private theorem hierPath_takes : TakesOk (orElse netPath absPath) hierPathStrays := by
  intro c hok
  rcases netPath_cases c with hnone | ⟨-, text, rest, notes, -, -, hsome⟩
  · rw [orElse_of_fail hnone, hierPathStrays, hnone]
    exact absPath_takes c
  · have hnet : (netPath c).ok = true := by rw [hsome]
    rw [hierPathStrays, if_pos hnet, orElse, if_pos hnet]
    exact netPath_takes c hnet

private theorem relPath_takes : TakesOk relPath relPathStrays := by
  refine TakesOk.attempt (TakesOk.noting (fun c hok => ?_) _)
  have hsegment : (classThenChars relSegmentChars relSegmentChars c.rest).1 = true := hok
  have hfirst : (lift (classThenChars relSegmentChars relSegmentChars) c :
      Outcome UInt8 UriWrite).ok = true := hsegment
  rw [andTry_of_ok hfirst]
  exact (classThenChars_takes relSegmentChars_uriClass relSegmentChars_uriClass hsegment).trans
    (absPath_takes (c.to (classThenChars relSegmentChars relSegmentChars c.rest).2))

private theorem pathQuery_takes (hp : TakesOk p σ) :
    TakesOk (attempt (both (fun isPath _ => isPath) p questionQuery))
      fun c => σ c ++ queryStrays (p c).cursor :=
  .attempt fun c hok => (hp c hok).trans (queryStrays_takes _)

private theorem relativePath_takes : TakesOk (orElse (orElse netPath absPath) relPath)
    relativePathStrays := by
  intro c hok
  rw [relativePathStrays]
  by_cases hpath : (orElse netPath absPath c).ok = true
  · rw [orElse, if_pos hpath, if_pos hpath]
    exact hierPath_takes c hpath
  · rcases (hierPath_reads c).1 with hnone | ⟨_, _, _, _, _, _, _, hsome⟩
    · rw [if_neg hpath]
      rw [orElse_of_fail hnone] at hok ⊢
      exact relPath_takes c hok
    · rw [hsome] at hpath
      exact absurd rfl hpath

private theorem hierPart_takes : TakesOk hierPart hierPartStrays := pathQuery_takes hierPath_takes

private theorem relativeURI_takes : TakesOk relativeURI relativeStrays :=
  pathQuery_takes relativePath_takes

private theorem scheme_takes : TakesOk scheme fun _ => [] := by
  have hrun (s : List UInt8) (hok : (schemeRun s).1 = true) : Takes s (schemeRun s).2 [] := by
    rcases s with _ | ⟨x, rest⟩
    · cases hok
    by_cases hx : alphaChars x = true
    · rw [schemeRun, if_pos hx]
      refine (Takes.cons (labelChars_uricChars (alphaChars_labelChars x hx))).trans
        (Takes.run (fun c hc => ?_) rest)
      simp only [schemeChars, uricChars, unreservedChars, alphanumChars, markChars, reservedChars,
        Bool.or_eq_true] at hc ⊢
      tauto
    · simp [schemeRun, hx] at hok
  exact TakesOk.noting (fun c hok => hrun c.rest hok) _

theorem opaquePart_takes : TakesOk opaquePart fun c =>
    classThenStrays uricNoSlashChars uricChars c.rest :=
  .noting (.lift fun _ hok =>
    classThenChars_takes uricNoSlashChars_uriClass uricChars_uriClass hok) _

private theorem absoluteURI_takes : TakesOk absoluteURI absoluteStrays := by
  refine TakesOk.attempt fun c hok => ?_
  have hscheme : (scheme c).ok = true := by
    by_contra hnot
    rw [andThen, if_neg hnot] at hok
    exact hnot hok
  have hcolon : (char ':' (scheme c).cursor).ok = true := by
    by_contra hnot
    rw [andThen_of_ok hscheme] at hok
    simp [Outcome.after, andThen, notingFailure, hnot] at hok
  have hpart : (andThen scheme (char ':') c).cursor = (char ':' (scheme c).cursor).cursor := by
    rw [andThen_of_ok hscheme, Outcome.after]
  have hrest : (andThen scheme (andThen (notingFailure (.unset .scheme) (char ':'))
      (orElse hierPart opaquePart)) c) =
      ((orElse hierPart opaquePart (char ':' (scheme c).cursor).cursor).after
        (char ':' (scheme c).cursor).notes).after (scheme c).notes := by
    rw [andThen_of_ok hscheme]
    simp [andThen, notingFailure, hcolon]
  rw [hrest] at hok ⊢
  have hbehind : Takes (char ':' (scheme c).cursor).cursor.rest
      (orElse hierPart opaquePart (char ':' (scheme c).cursor).cursor).cursor.rest
      (absoluteStrays c) := by
    rw [absoluteStrays, hpart]
    by_cases hhier : (hierPart (char ':' (scheme c).cursor).cursor).ok = true
    · simp only [orElse, hhier, if_true]
      exact hierPart_takes _ hhier
    · have hsame : (hierPart (char ':' (scheme c).cursor).cursor).cursor = _ := attempt_rest hhier
      simp only [Outcome.after, orElse, hhier, if_false, Bool.false_eq_true, hsame] at hok ⊢
      exact opaquePart_takes _ hok
  exact ((scheme_takes c hscheme).trans (char_takes (by decide) _ hcolon)).trans hbehind

/-- What `URI_reference` reads, where it succeeds, is right but for the strays. -/
theorem uriReference_takes : TakesOk uriReference referenceStrays := by
  refine TakesOk.attempt fun c _ => ?_
  rw [referenceStrays]
  have hparts : Takes c.rest (orElse absoluteURI relativeURI c).cursor.rest
      (if (absoluteURI c).ok then absoluteStrays c
        else if (relativeURI c).ok then relativeStrays c else []) := by
    by_cases habs : (absoluteURI c).ok = true
    · rw [orElse, if_pos habs, if_pos habs]
      exact absoluteURI_takes c habs
    · have hsame : (absoluteURI c).cursor = c := attempt_rest habs
      rw [orElse, if_neg habs, if_neg habs, hsame]
      by_cases hrel : (relativeURI c).ok = true
      · rw [if_pos hrel]
        exact relativeURI_takes c hrel
      · have hrest : (relativeURI c).cursor = c := attempt_rest hrel
        rw [if_neg hrel, Outcome.after, hrest]
        exact Takes.refl _
  exact hparts.trans (fragmentStrays_takes _)

end Text

/-- What `URI_reference` reads is made of URI characters, complete escape triples and at most one
`#` exactly when the strays on its way start with one of these. -/
theorem uriReference_isUriText {h : Heap} {u u' : Uriaa} {text : List UInt8}
    (hu : u.Shows h ⟨u.uri.readPos, text⟩) (hrun : uriReference h u = some (true, u')) :
    Text.IsUriText (text.take (u'.uri.readPos - u.uri.readPos)) ↔
      (∀ s ∈ Text.referenceStrays ⟨u.uri.readPos, text⟩, Text.strayOk s = true) ∧
        (Text.referenceStrays ⟨u.uri.readPos, text⟩).countP Text.startsHash ≤ 1 := by
  obtain ⟨hok, hleft⟩ := uriReference_left hu hrun
  obtain ⟨front, hfront, hpos⟩ := Text.uriReference_advances ⟨u.uri.readPos, text⟩
  obtain ⟨text', htext', hcount, hgood, hbad, -⟩ := Text.uriReference_takes _ hok
  have hsame : front = text' := List.append_cancel_right (hfront.symm.trans htext')
  have hread : text.take (u'.uri.readPos - u.uri.readPos) = text' := by
    have htext : text = front ++ _ := hfront
    have hreadPos : u'.uri.readPos = u.uri.readPos + front.length := by
      rw [hleft]
      exact hpos
    rw [hreadPos, Nat.add_sub_cancel_left, htext, List.take_left, hsame]
  rw [hread, Text.isUriText_iff, hcount, ← List.all_eq_true]
  refine and_congr_left' ⟨fun htext => ?_, hgood⟩
  by_contra hnot
  have hfalse := hbad (by simpa using hnot) [] List.nil_prefix
  rw [List.append_nil, htext] at hfalse
  cases hfalse

/-- `%41/b`: the slash is taken unchecked. -/
theorem uriReference_isUriText_slash :
    ∃ u', uriReference (.ofText [ch '%', ch '4', ch '1', ch '/', ch 'b']) { uri := .ofText 0 5 } =
        some (true, u') ∧
      (Text.IsUriText ([ch '%', ch '4', ch '1', ch '/', ch 'b'].take (u'.uri.readPos - 0)) ↔
        (∀ s ∈ Text.referenceStrays ⟨0, [ch '%', ch '4', ch '1', ch '/', ch 'b']⟩,
            Text.strayOk s = true) ∧
          (Text.referenceStrays ⟨0, [ch '%', ch '4', ch '1', ch '/', ch 'b']⟩).countP
            Text.startsHash ≤ 1) := by
  have hok : (uriReference (.ofText [ch '%', ch '4', ch '1', ch '/', ch 'b'])
      { uri := .ofText 0 5 }).map Prod.fst = some true := by decide
  obtain ⟨⟨ok, u'⟩, hrun, hfst⟩ := Option.map_eq_some_iff.mp hok
  obtain rfl : ok = true := hfst
  exact ⟨u', hrun, uriReference_isUriText
    (Uriaa.ofText_shows [ch '%', ch '4', ch '1', ch '/', ch 'b']) hrun⟩

/-- Of `%41` and a space the space is read too. -/
theorem uriReference_takesSpace : ¬ ∀ (h : Heap) (u u' : Uriaa) (text : List UInt8),
    u.Shows h ⟨u.uri.readPos, text⟩ → uriReference h u = some (true, u') →
      Text.IsUriText (text.take (u'.uri.readPos - u.uri.readPos)) := by
  intro hclaim
  have hruns : (uriReference (.ofText [ch '%', ch '4', ch '1', ch ' ']) { uri := .ofText 0 4 }).map
      (fun r => (r.1, r.2.uri.readPos)) = some (true, 4) := by decide
  obtain ⟨⟨ok, u'⟩, hrun, heq⟩ := Option.map_eq_some_iff.mp hruns
  obtain ⟨hok, hpos⟩ := Prod.mk.inj heq
  obtain rfl : ok = true := hok
  have htext := hclaim _ _ _ _ (Uriaa.ofText_shows [ch '%', ch '4', ch '1', ch ' ']) hrun
  have hpos' : u'.uri.readPos = 4 := hpos
  rw [hpos', Text.isUriText_iff] at htext
  exact absurd htext.1 (by decide)

end Httpaa
