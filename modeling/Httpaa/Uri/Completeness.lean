import Httpaa.Uri.Rfc2396

/-!
# Which texts of the grammar are read to their end

A text of the grammar stands in front of the end of the buffer or of a space. From the first part of
its path on, an authority or a relative segment, every loop goes on to the next delimiter, so the
text is read to its end, unless the character behind it is taken unchecked or the first part ends
where no further part starts.
-/

namespace Httpaa.Text

open Recogniser

variable {P Q : UInt8 → Bool} {follow s t rest : List UInt8} {strays strays' : List (List UInt8)}
  {n : Nat} {H : UInt8 → Bool} {c : Cursor UInt8} {p : Production}

/-- The text is at its end, or a space follows. -/
def EndsText (follow : List UInt8) : Prop := follow = [] ∨ follow.head? = some (ch ' ')

/-- What is left to read is an end of the text, with `n` times `#` at most and with a first
character in the class, unless the character behind the text is a stray. -/
def Stays (follow : List UInt8) (H : UInt8 → Bool) (n : Nat) (rest : List UInt8)
    (strays : List (List UInt8)) : Prop :=
  (follow ≠ [] ∧ follow ∈ strays) ∨ ∃ t, rest = t ++ follow ∧ uriText referenceChars t = true ∧
    t.count (ch '#') ≤ n ∧ ∀ c ∈ t.head?, referenceChars c = true ∧ H c = true

theorem EndsText.ends (hfollow : EndsText follow) : Httpaa.Ends [ch ' '] follow := by
  rcases hfollow with rfl | hspace
  · intro c hc
    cases hc
  · intro c hc
    rw [hspace, Option.mem_some_iff] at hc
    simp [hc]

theorem EndsText.halts (hfollow : EndsText follow) (hP : UriClass P) : Halts P follow := by
  refine hfollow.ends.halts ?_
  have hspace : P (ch ' ') = false := by
    rw [← Bool.not_eq_true]
    intro h
    exact absurd (hP.uric _ h) (by decide)
  simp [hspace]
  decide

private theorem chars_escape {a b : UInt8} (hP : P (ch '%') = false) (ha : hexChars a = true)
    (hb : hexChars b = true) : chars P (ch '%' :: a :: b :: rest) = chars P rest.tail ∧
      charsStrays P (ch '%' :: a :: b :: rest) = rest :: charsStrays P rest.tail := by
  have hclass : inClass P (ch '%' :: a :: b :: rest) = (true, rest) := by
    simp [inClass, hP, escaped, ha, hb]
  rw [chars, charsStrays, hclass]
  simp [hP]

theorem Stays.mono {K : UInt8 → Bool} (hstays : Stays follow H n rest strays)
    (hstrays : ∀ stray ∈ strays, stray ∈ strays')
    (hK : ∀ c, referenceChars c = true → H c = true → K c = true) :
    Stays follow K n rest strays' := by
  rcases hstays with ⟨hne, hmem⟩ | ⟨t, hrest, htext, hcount, hhead⟩
  · exact .inl ⟨hne, hstrays _ hmem⟩
  · exact .inr ⟨t, hrest, htext, hcount, fun c hc =>
      ⟨(hhead c hc).1, hK c (hhead c hc).1 (hhead c hc).2⟩⟩

private theorem chars_stays (hP : UriClass P) (hfollow : EndsText follow)
    (htext : uriText referenceChars t = true) (hcount : t.count (ch '#') ≤ n) :
    Stays follow (fun c => !P c) n (chars P (t ++ follow)) (charsStrays P (t ++ follow)) := by
  have hpercent : P (ch '%') = false := by
    rw [← Bool.not_eq_true]
    exact fun h => (uricChars_ne (hP.uric _ h)).1 rfl
  induction hn : t.length using Nat.strong_induction_on generalizing t with
  | _ m ih =>
      rcases t with _ | ⟨c, t⟩
      · refine .inr ⟨[], ?_, rfl, Nat.zero_le _, by simp⟩
        exact chars_halts (hfollow.halts hP)
      · rw [List.length_cons] at hn
        have hcount' : t.count (ch '#') ≤ n :=
          Nat.le_trans (List.Sublist.count_le (ch '#') (List.sublist_cons_self c t)) hcount
        by_cases hc : c = ch '%'
        · subst hc
          obtain ⟨a, b, t, rfl, ha, hb⟩ := uriText_percent htext
          rw [uriText_triple, Bool.and_eq_true] at htext
          simp only [List.cons_append, List.length_cons] at hn ⊢
          rw [(chars_escape hpercent ha hb).1, (chars_escape hpercent ha hb).2]
          have hcount'' : t.count (ch '#') ≤ n := Nat.le_trans (List.Sublist.count_le (ch '#')
            ((List.sublist_cons_self b t).trans (List.sublist_cons_self a _))) hcount'
          rcases t with _ | ⟨x, t⟩
          · rcases hfollow with rfl | hspace
            · exact .inr ⟨[], chars_nil P, rfl, Nat.zero_le _, by simp⟩
            · refine .inl ⟨?_, List.mem_cons_self ..⟩
              rintro rfl
              cases hspace
          · rw [List.length_cons] at hn
            have hmore : Stays follow (fun c => !P c) n (chars P (t ++ follow))
                (charsStrays P (t ++ follow)) := by
              by_cases hx : x = ch '%'
              · -- The `%` of another triple is taken, and then its digits.
                subst hx
                obtain ⟨a', b', t, rfl, ha', hb'⟩ := uriText_percent htext.2
                have htail := htext.2
                rw [uriText_triple, Bool.and_eq_true] at htail
                simp only [List.cons_append, List.length_cons] at hn ⊢
                rw [(chars_class (hP.hex _ ha')).1, (chars_class (hP.hex _ ha')).2,
                  (chars_class (hP.hex _ hb')).1, (chars_class (hP.hex _ hb')).2]
                exact ih _ (by omega) htail.2 (Nat.le_trans (List.Sublist.count_le (ch '#')
                  (((List.sublist_cons_self b' t).trans (List.sublist_cons_self a' _)).trans
                    (List.sublist_cons_self _ _))) hcount'') rfl
              · have htail := htext.2
                rw [uriText_cons hx, Bool.and_eq_true] at htail
                exact ih _ (by omega) htail.2 (Nat.le_trans (List.Sublist.count_le (ch '#')
                  (List.sublist_cons_self x t)) hcount'') rfl
            exact hmore.mono (fun _ h => List.mem_cons_of_mem _ h) fun _ _ h => h
        · rw [uriText_cons hc, Bool.and_eq_true] at htext
          by_cases hclass : P c = true
          · rw [List.cons_append, (chars_class hclass).1, (chars_class hclass).2]
            exact ih _ (by omega) htext.2 hcount' rfl
          · have hhalts : Halts P (c :: t ++ follow) := by
              intro x hx
              cases hx
              exact ⟨Bool.eq_false_iff.mpr hclass, hc⟩
            refine .inr ⟨c :: t, chars_halts hhalts, ?_, hcount, ?_⟩
            · rw [uriText_cons hc, htext.1, htext.2]
              rfl
            · intro x hx
              cases hx
              exact ⟨htext.1, by simp [hclass]⟩

private theorem classThenChars_stays (hP : UriClass P) (hfollow : EndsText follow)
    (htext : uriText referenceChars t = true) (hcount : t.count (ch '#') ≤ n)
    (hfirst : (inClass P (t ++ follow)).1 = true) (hne : t ≠ [])
    (hPQ : ∀ c, P c = true → Q c = true)
    (hQ : UriClass Q) :
    Stays follow (fun c => !Q c) n (classThenChars P Q (t ++ follow)).2
      (classThenStrays P Q (t ++ follow)) := by
  have hpercent (R : UInt8 → Bool) (hR : UriClass R) : R (ch '%') = false := by
    rw [← Bool.not_eq_true]
    exact fun h => (uricChars_ne (hR.uric _ h)).1 rfl
  -- What the first character starts is what the loop does with it.
  have hsame : (classThenChars P Q (t ++ follow)).2 = chars Q (t ++ follow) ∧
      classThenStrays P Q (t ++ follow) = charsStrays Q (t ++ follow) := by
    rw [classThenChars, classThenStrays, if_pos hfirst, if_pos hfirst]
    obtain ⟨c, t, rfl⟩ := List.exists_cons_of_ne_nil hne
    rw [List.cons_append] at hfirst ⊢
    by_cases hc : P c = true
    · rw [(chars_class (hPQ c hc)).1, (chars_class (hPQ c hc)).2]
      simp [inClass, hc]
    · have hescape : (escaped (c :: (t ++ follow))).1 = true := by simpa [inClass, hc] using hfirst
      obtain ⟨a, b, rest, rfl, hrest, ha, hb⟩ := escaped_ok hescape
      rw [hrest, (chars_escape (hpercent Q hQ) ha hb).1, (chars_escape (hpercent Q hQ) ha hb).2]
      simp [inClass, hpercent P hP, escaped, ha, hb]
  rw [hsame.1, hsame.2]
  exact chars_stays hQ hfollow htext hcount

private theorem isChar_ne {x : UInt8} (hhead : rest.head? ≠ some x) :
    isChar x rest = (false, rest) := by
  cases rest with
  | nil => rfl
  | cons y rest =>
      rw [isChar, if_neg]
      rintro rfl
      exact hhead rfl

private theorem head_append_ne {x : Char} (hfollow : EndsText follow) (hx : ch x ≠ ch ' ')
    (hhead : t.head? ≠ some (ch x)) : (t ++ follow).head? ≠ some (ch x) := by
  cases t with
  | nil =>
      rcases hfollow with rfl | hspace
      · simp
      · rw [List.nil_append, hspace]
        exact fun h => hx (Option.some.inj h).symm
  | cons y t => exact hhead

private theorem count_tail_le {x : UInt8} (hcount : (x :: t).count (ch '#') ≤ n) :
    t.count (ch '#') ≤ n :=
  Nat.le_trans (List.Sublist.count_le (ch '#') (List.sublist_cons_self x t)) hcount

private theorem params_stays (hfollow : EndsText follow) (htext : uriText referenceChars t = true)
    (hcount : t.count (ch '#') ≤ n)
    (hhead : ∀ c ∈ t.head?, referenceChars c = true ∧ pcharChars c = false) :
    Stays follow (fun c => !pcharChars c && c != ch ';') n (params (t ++ follow))
      (paramsStrays (t ++ follow)) := by
  induction hn : t.length using Nat.strong_induction_on generalizing t with
  | _ m ih =>
      by_cases hsemicolon : t.head? = some (ch ';')
      · obtain ⟨t, rfl⟩ := exists_of_head hsemicolon
        rw [uriText_cons (by decide), Bool.and_eq_true] at htext
        have hchar : isChar (ch ';') (ch ';' :: t ++ follow) = (true, t ++ follow) :=
          isChar_cons _ _
        rw [params, paramsStrays, dif_pos (by rw [hchar]), dif_pos (by rw [hchar]), hchar]
        have hloop := chars_stays pcharChars_uriClass hfollow htext.2 (count_tail_le hcount)
        rcases hloop with ⟨hne, hmem⟩ | ⟨t', hrest, htext', hcount', hhead'⟩
        · exact .inl ⟨hne, List.mem_append_left _ hmem⟩
        · have hle := (chars_suffix pcharChars (t ++ follow)).length_le
          rw [hrest, List.length_append, List.length_append] at hle
          rw [List.length_cons] at hn
          have hmore := ih t'.length (by omega) htext' hcount' (fun c hc =>
            ⟨(hhead' c hc).1, by simpa using (hhead' c hc).2⟩) rfl
          dsimp only
          rw [hrest]
          exact hmore.mono (fun _ h => List.mem_append_right _ h) fun _ _ h => h
      · have hchar := isChar_ne (head_append_ne hfollow (by decide) hsemicolon)
        rw [params, paramsStrays, dif_neg (by rw [hchar]; exact Bool.false_ne_true),
          dif_neg (by rw [hchar]; exact Bool.false_ne_true)]
        refine .inr ⟨t, rfl, htext, hcount, fun c hc => ⟨(hhead c hc).1, ?_⟩⟩
        have hne : c ≠ ch ';' := by
          rintro rfl
          exact hsemicolon hc
        simp [(hhead c hc).2, hne]

private theorem segment_stays (hfollow : EndsText follow) (htext : uriText referenceChars t = true)
    (hcount : t.count (ch '#') ≤ n) :
    Stays follow (fun c => !pcharChars c && c != ch ';') n (segment (t ++ follow))
      (segmentStrays (t ++ follow)) := by
  rw [segment, segmentStrays]
  rcases chars_stays pcharChars_uriClass hfollow htext hcount with
    ⟨hne, hmem⟩ | ⟨t', hrest, htext', hcount', hhead'⟩
  · exact .inl ⟨hne, List.mem_append_left _ hmem⟩
  · have hmore := params_stays hfollow htext' hcount' fun c hc =>
      ⟨(hhead' c hc).1, by simpa using (hhead' c hc).2⟩
    rw [hrest]
    exact hmore.mono (fun _ h => List.mem_append_right _ h) fun _ _ h => h

private theorem head_of_path {c : UInt8} (href : referenceChars c = true)
    (hpchar : pcharChars c = false) (hsemicolon : c ≠ ch ';') (hslash : c ≠ ch '/') :
    (c == ch '?' || c == ch '#') = true := by
  simp only [referenceChars, uricChars, reservedChars, pcharChars, Bool.or_eq_true, beq_iff_eq,
    Bool.or_eq_false_iff, beq_eq_false_iff_ne, ne_eq] at href hpchar ⊢
  rcases hpchar with ⟨⟨⟨⟨⟨⟨⟨hunreserved, h1⟩, h2⟩, h3⟩, h4⟩, h5⟩, h6⟩, h7⟩
  simp only [hunreserved, h1, h2, h3, h4, h5, h6, h7, hsemicolon, hslash, false_or, or_false,
    Bool.false_eq_true] at href
  exact href

private theorem segments_stays (hfollow : EndsText follow) (htext : uriText referenceChars t = true)
    (hcount : t.count (ch '#') ≤ n) (hhead : ∀ c ∈ t.head?, referenceChars c = true ∧
      (!pcharChars c && c != ch ';') = true) :
    Stays follow (fun c => c == ch '?' || c == ch '#') n (segments (t ++ follow))
      (segmentsStrays (t ++ follow)) := by
  induction hn : t.length using Nat.strong_induction_on generalizing t with
  | _ m ih =>
      by_cases hslash : t.head? = some (ch '/')
      · obtain ⟨t, rfl⟩ := exists_of_head hslash
        rw [uriText_cons (by decide), Bool.and_eq_true] at htext
        have hchar : isChar (ch '/') (ch '/' :: t ++ follow) = (true, t ++ follow) :=
          isChar_cons _ _
        rw [segments, segmentsStrays, dif_pos (by rw [hchar]), dif_pos (by rw [hchar]), hchar]
        rcases segment_stays hfollow htext.2 (count_tail_le hcount) with
          ⟨hne, hmem⟩ | ⟨t', hrest, htext', hcount', hhead'⟩
        · exact .inl ⟨hne, List.mem_append_left _ hmem⟩
        · have hle := (segment_suffix (t ++ follow)).length_le
          rw [hrest, List.length_append, List.length_append] at hle
          rw [List.length_cons] at hn
          have hmore := ih t'.length (by omega) htext' hcount' hhead' rfl
          dsimp only
          rw [hrest]
          exact hmore.mono (fun _ h => List.mem_append_right _ h) fun _ _ h => h
      · have hchar := isChar_ne (head_append_ne hfollow (by decide) hslash)
        rw [segments, segmentsStrays, dif_neg (by rw [hchar]; exact Bool.false_ne_true),
          dif_neg (by rw [hchar]; exact Bool.false_ne_true)]
        refine .inr ⟨t, rfl, htext, hcount, fun c hc => ⟨(hhead c hc).1, ?_⟩⟩
        have hH := (hhead c hc).2
        rw [Bool.and_eq_true, Bool.not_eq_true', bne_iff_ne] at hH
        refine head_of_path (hhead c hc).1 hH.1 hH.2 ?_
        rintro rfl
        exact hslash hc

/-! ### The parts behind the first one -/

/-- Where a path, a query and a fragment end. -/
def tailEnd (c : Cursor UInt8) : Cursor UInt8 :=
  (hashFragment (questionQuery (absPath c).cursor).cursor).cursor

def tailStrays (c : Cursor UInt8) : List (List UInt8) :=
  absPathStrays c ++ queryStrays (absPath c).cursor ++
    fragmentStrays (questionQuery (absPath c).cursor).cursor

/-- The text is at its end, or a further part starts. -/
def Continues (follow s : List UInt8) : Prop :=
  s = follow ∨ s.head? = some (ch '/') ∨ s.head? = some (ch '?') ∨ s.head? = some (ch '#')

private theorem absPath_none (hhead : c.rest.head? ≠ some (ch '/')) :
    absPath c = ⟨false, c, []⟩ := by
  rcases absPath_cases c with ⟨-, heq⟩ | ⟨hslash, -⟩
  · exact heq
  · exact absurd hslash hhead

private theorem absPath_slash (hrest : c.rest = ch '/' :: rest) :
    (absPath c).cursor.rest = segments (segment rest) ∧ (absPath c).ok = true := by
  simp [absPath, attempt, noting, andThen, char, lift, hrest, Outcome.after]

private theorem absPath_stays (hfollow : EndsText follow) (hrest : c.rest = t ++ follow)
    (htext : uriText referenceChars t = true) (hcount : t.count (ch '#') ≤ n)
    (hhead : ∀ x ∈ t.head?, x = ch '/' ∨ x = ch '?' ∨ x = ch '#') :
    Stays follow (fun x => x == ch '?' || x == ch '#') n (absPath c).cursor.rest
      (absPathStrays c) := by
  by_cases hslash : t.head? = some (ch '/')
  · obtain ⟨t, rfl⟩ := exists_of_head hslash
    rw [uriText_cons (by decide), Bool.and_eq_true] at htext
    rw [List.cons_append] at hrest
    rw [(absPath_slash hrest).1, absPathStrays, (absPath_slash hrest).2, if_pos rfl, hrest,
      List.tail_cons]
    rcases segment_stays hfollow htext.2 (count_tail_le hcount) with
      ⟨hne, hmem⟩ | ⟨t', hrest', htext', hcount', hhead'⟩
    · exact .inl ⟨hne, List.mem_append_left _ hmem⟩
    · rw [hrest']
      exact (segments_stays hfollow htext' hcount' hhead').mono
        (fun _ h => List.mem_append_right _ h) fun _ _ h => h
  · have hnone : absPath c = ⟨false, c, []⟩ :=
      absPath_none (hrest ▸ head_append_ne hfollow (by decide) hslash)
    rw [hnone]
    refine .inr ⟨t, hrest, htext, hcount, fun x hx => ?_⟩
    rcases hhead x hx with rfl | rfl | rfl
    · exact absurd hx hslash
    · exact ⟨by decide, by decide⟩
    · exact ⟨by decide, by decide⟩

private theorem query_stays (hfollow : EndsText follow) (hrest : c.rest = t ++ follow)
    (htext : uriText referenceChars t = true) (hcount : t.count (ch '#') ≤ n)
    (hhead : ∀ x ∈ t.head?, x = ch '?' ∨ x = ch '#') :
    Stays follow (fun x => x == ch '#') n (questionQuery c).cursor.rest (queryStrays c) := by
  by_cases hquestion : t.head? = some (ch '?')
  · obtain ⟨t, rfl⟩ := exists_of_head hquestion
    rw [uriText_cons (by decide), Bool.and_eq_true] at htext
    rw [List.cons_append] at hrest
    rw [questionQuery, optionalPart_rest .query hrest, queryStrays, hrest, List.head?_cons,
      if_pos rfl, List.tail_cons]
    refine (chars_stays uricChars_uriClass hfollow htext.2 (count_tail_le hcount)).mono
      (fun _ h => h) fun x href huric => ?_
    simpa [referenceChars, (Bool.not_eq_true' _).mp huric] using href
  · rw [questionQuery, optionalPart_none .query (hrest ▸ head_append_ne hfollow (by decide)
      hquestion)]
    refine .inr ⟨t, hrest, htext, hcount, fun x hx => ?_⟩
    rcases hhead x hx with rfl | rfl
    · exact absurd hx hquestion
    · exact ⟨by decide, by decide⟩

private theorem fragment_stays (hfollow : EndsText follow) (hrest : c.rest = t ++ follow)
    (htext : uriText referenceChars t = true) (hcount : t.count (ch '#') ≤ 1)
    (hhead : ∀ x ∈ t.head?, x = ch '#') :
    (follow ≠ [] ∧ follow ∈ fragmentStrays c) ∨ (hashFragment c).cursor.rest = follow := by
  cases t with
  | nil =>
      have hnone : c.rest.head? ≠ some (ch '#') := by
        rw [hrest]
        exact head_append_ne hfollow (by decide) (by simp)
      rw [hashFragment, optionalPart_none .fragment hnone]
      exact .inr hrest
  | cons x t =>
      obtain rfl := hhead x rfl
      rw [uriText_cons (by decide), Bool.and_eq_true] at htext
      rw [List.count_cons_self] at hcount
      rw [List.cons_append] at hrest
      rw [hashFragment, optionalPart_rest .fragment hrest, fragmentStrays, hrest, List.head?_cons,
        if_pos rfl, List.tail_cons]
      rcases chars_stays (n := 0) uricChars_uriClass hfollow htext.2 (by omega) with
        ⟨hne, hmem⟩ | ⟨t', hrest', -, hcount', hhead'⟩
      · exact .inl ⟨hne, List.mem_cons_of_mem _ hmem⟩
      · right
        cases t' with
        | nil => exact hrest'
        | cons y t' =>
            obtain ⟨href, huric⟩ := hhead' y rfl
            have hy : y = ch '#' := by
              simpa [referenceChars, (Bool.not_eq_true' _).mp huric] using href
            rw [hy, List.count_cons_self] at hcount'
            omega

private theorem tail_stays (hfollow : EndsText follow) (hrest : c.rest = t ++ follow)
    (htext : uriText referenceChars t = true) (hcount : t.count (ch '#') ≤ 1)
    (hcontinues : Continues follow c.rest) :
    (follow ≠ [] ∧ follow ∈ tailStrays c) ∨ (tailEnd c).rest = follow := by
  have hhead : ∀ x ∈ t.head?, x = ch '/' ∨ x = ch '?' ∨ x = ch '#' := by
    intro x hx
    cases t with
    | nil => cases hx
    | cons y t =>
        cases hx
        rcases hcontinues with h | h | h | h
        · rw [hrest] at h
          have hlength := congrArg List.length h
          simp only [List.length_append, List.length_cons] at hlength
          omega
        all_goals
          rw [hrest, List.cons_append, List.head?_cons, Option.some.injEq] at h
          simp [h]
  rcases absPath_stays hfollow hrest htext hcount hhead with
    ⟨hne, hmem⟩ | ⟨t₁, hrest₁, htext₁, hcount₁, hhead₁⟩
  · exact .inl ⟨hne, List.mem_append_left _ (List.mem_append_left _ hmem)⟩
  rcases query_stays hfollow hrest₁ htext₁ hcount₁ (fun x hx => by
    simpa using (hhead₁ x hx).2) with ⟨hne, hmem⟩ | ⟨t₂, hrest₂, htext₂, hcount₂, hhead₂⟩
  · exact .inl ⟨hne, List.mem_append_left _ (List.mem_append_right _ hmem)⟩
  rcases fragment_stays hfollow hrest₂ htext₂ hcount₂ (fun x hx => by
    simpa using (hhead₂ x hx).2) with ⟨hne, hmem⟩ | hend
  · exact .inl ⟨hne, List.mem_append_right _ hmem⟩
  · exact .inr hend

private theorem tail_stops (hstops : ¬ Continues follow c.rest) : (tailEnd c).rest ≠ follow := by
  simp only [Continues, not_or] at hstops
  rw [tailEnd, absPath_none hstops.2.1, questionQuery, optionalPart_none .query hstops.2.2.1,
    hashFragment, optionalPart_none .fragment hstops.2.2.2]
  exact hstops.1

private theorem tail_takes (c : Cursor UInt8) : Takes c.rest (tailEnd c).rest (tailStrays c) :=
  ((absPath_takes c).trans (queryStrays_takes _)).trans (fragmentStrays_takes _)

private theorem Takes.not_stray (htakes : Takes s t strays) (hend : t = follow) :
    follow = [] ∨ follow ∉ strays := by
  obtain ⟨-, -, -, -, -, hread⟩ := htakes
  by_contra hstray
  rw [not_or, not_not] at hstray
  have hlt := hread follow hstray.2 hstray.1
  rw [hend] at hlt
  exact Nat.lt_irrefl _ hlt

private theorem reads_iff {first : Cursor UInt8} (hfollow : EndsText follow)
    (htakes : Takes c.rest first.rest strays)
    (hfirst : (follow ≠ [] ∧ follow ∈ strays) ∨ ∃ t, first.rest = t ++ follow ∧
      uriText referenceChars t = true ∧ t.count (ch '#') ≤ 1) :
    (tailEnd first).rest = follow ↔
      Continues follow first.rest ∧ (follow = [] ∨ follow ∉ strays ++ tailStrays first) := by
  constructor
  · intro hend
    refine ⟨?_, ?_⟩
    · by_contra hstops
      exact tail_stops hstops hend
    · exact (htakes.trans (tail_takes first)).not_stray hend
  · rintro ⟨hcontinues, hstray⟩
    have hnot (hne : follow ≠ []) : follow ∉ strays ++ tailStrays first := hstray.resolve_left hne
    rcases hfirst with ⟨hne, hmem⟩ | ⟨t, hrest, htext, hcount⟩
    · exact absurd (List.mem_append_left _ hmem) (hnot hne)
    · rcases tail_stays hfollow hrest htext hcount hcontinues with ⟨hne, hmem⟩ | hend
      · exact absurd (List.mem_append_right _ hmem) (hnot hne)
      · exact hend

/-! ### The first part -/

theorem Takes.stays (hfollow : EndsText follow) (htext : uriText referenceChars t = true)
    (hcount : t.count (ch '#') ≤ n) (htakes : Takes (t ++ follow) s []) :
    ∃ t', s = t' ++ follow ∧ uriText referenceChars t' = true ∧ t'.count (ch '#') ≤ n := by
  obtain ⟨text, heq, -, hgood, -, -⟩ := htakes
  rcases List.append_eq_append_iff.mp heq with ⟨beyond, htext', hfront⟩ | ⟨back, hsplit, hrest⟩
  · cases beyond with
    | nil => exact ⟨[], hfront.symm, rfl, Nat.zero_le _⟩
    | cons x beyond =>
        have hx : x = ch ' ' := by
          rcases hfollow with hnone | hspace
          · rw [hnone] at hfront
            cases hfront
          · rw [hfront] at hspace
            exact Option.some.inj hspace
        have hover := hgood rfl
        rw [htext', uriText_append htext, hx] at hover
        rw [uriText_cons (by decide), Bool.and_eq_true] at hover
        exact absurd hover.1 (by decide)
  · subst hsplit
    refine ⟨back, hrest, (uriText_append (hgood rfl)).symm.trans htext, Nat.le_trans ?_ hcount⟩
    rw [List.count_append]
    exact Nat.le_add_left _ _

private theorem userinfoAt_eq (c : Cursor UInt8) :
    (userinfoAt c).ok = (isChar (ch '@') (chars userinfoChars c.rest)).1 ∧
      ((userinfoAt c).ok = true →
        (userinfoAt c).cursor.rest = (isChar (ch '@') (chars userinfoChars c.rest)).2) := by
  by_cases hat : (isChar (ch '@') (chars userinfoChars c.rest)).1 = true <;>
    simp [userinfoAt, attempt, noting, andThen, lift, char, Outcome.after, hat]

private theorem server_stays (hfollow : EndsText follow) (hrest : c.rest = t ++ follow)
    (htext : uriText referenceChars t = true) (hcount : t.count (ch '#') ≤ n) :
    (follow ≠ [] ∧ follow ∈ serverStrays c) ∨ ∃ t', (server c).cursor.rest = t' ++ follow ∧
      uriText referenceChars t' = true ∧ t'.count (ch '#') ≤ n := by
  by_cases hhost : (hostport (userinfoAt c).cursor).ok = true
  · have hserver : (server c).cursor = (hostport (userinfoAt c).cursor).cursor := by
      simp [server, always, attempt, notingFailure, both, Outcome.after, hhost]
    rw [hserver]
    by_cases hinfo : (userinfoAt c).ok = true
    · have hat : (isChar (ch '@') (chars userinfoChars c.rest)).1 = true := by
        rw [← (userinfoAt_eq c).1]
        exact hinfo
      have hhostport := hostport_takes _ hhost
      rw [(userinfoAt_eq c).2 hinfo] at hhostport
      rw [serverStrays, hinfo, hhost]
      rw [hrest] at hat hhostport ⊢
      rcases chars_stays userinfoChars_uriClass hfollow htext hcount with
        ⟨hne, hmem⟩ | ⟨t', hrest', htext', hcount', -⟩
      · exact .inl ⟨hne, hmem⟩
      · rw [hrest'] at hat hhostport
        have hhead : t'.head? = some (ch '@') := by
          by_contra hnot
          rw [isChar_ne (head_append_ne hfollow (by decide) hnot)] at hat
          cases hat
        obtain ⟨t'', rfl⟩ := exists_of_head hhead
        rw [List.cons_append, isChar_cons] at hhostport
        rw [uriText_cons (by decide), Bool.and_eq_true] at htext'
        exact .inr (hhostport.stays hfollow htext'.2 (count_tail_le hcount'))
    · have hsame : (userinfoAt c).cursor = c := attempt_rest hinfo
      have hhostport := hostport_takes _ hhost
      rw [hsame] at hhostport ⊢
      rw [hrest] at hhostport
      exact .inr (hhostport.stays hfollow htext hcount)
  · have hserver : (server c).cursor = c := by
      simp [server, always, attempt, notingFailure, both, Outcome.after, hhost]
    rw [hserver]
    exact .inr ⟨t, hrest, htext, hcount⟩

/-- Behind an authority, or where a path starts without one. -/
def firstPart (c : Cursor UInt8) : Cursor UInt8 :=
  if (andThen (char '/') (char '/') c).ok then
    (server (andThen (char '/') (char '/') c).cursor).cursor
  else c

def firstStrays (c : Cursor UInt8) : List (List UInt8) :=
  if (andThen (char '/') (char '/') c).ok then
    serverStrays (andThen (char '/') (char '/') c).cursor
  else []

private theorem hierPath_first (c : Cursor UInt8) :
    (orElse netPath absPath c).cursor = (absPath (firstPart c)).cursor ∧
      hierPathStrays c = firstStrays c ++ absPathStrays (firstPart c) := by
  by_cases hslashes : (andThen (char '/') (char '/') c).ok = true
  · have hserver (c : Cursor UInt8) : (server c).ok = true := rfl
    have hauthority : (andThen (andThen (char '/') (char '/')) authority c).ok = true ∧
        (andThen (andThen (char '/') (char '/')) authority c).cursor =
          (server (andThen (char '/') (char '/') c).cursor).cursor := by
      rw [andThen_of_ok hslashes]
      simp [authority, attempt, noting, orElse, hserver, Outcome.after]
    have hnet : (netPath c).ok = true ∧ (netPath c).cursor =
        (absPath (andThen (andThen (char '/') (char '/')) authority c).cursor).cursor := by
      simp [netPath, attempt, noting, andTry_of_ok hauthority.1, Outcome.after]
    rw [firstPart, firstStrays, if_pos hslashes, if_pos hslashes, hierPathStrays, if_pos hnet.1,
      orElse, if_pos hnet.1, hnet.2, netPathStrays, hauthority.2]
    exact ⟨rfl, rfl⟩
  · have hnone : netPath c = ⟨false, c, []⟩ := by
      refine netPath_silent.noting.attempt_eq ?_
      have hfail : (andTry (andThen (andThen (char '/') (char '/')) authority) absPath c).ok =
          false := by
        change (andThen (andThen (char '/') (char '/')) authority c).ok = false
        rw [andThen, if_neg hslashes]
        simpa using hslashes
      simp [noting, hfail]
    rw [firstPart, firstStrays, if_neg hslashes, if_neg hslashes, orElse_of_fail hnone,
      hierPathStrays, hnone]
    exact ⟨rfl, rfl⟩

private theorem first_takes (c : Cursor UInt8) : Takes c.rest (firstPart c).rest
    (firstStrays c) := by
  rw [firstPart, firstStrays]
  by_cases hslashes : (andThen (char '/') (char '/') c).ok = true
  · rw [if_pos hslashes, if_pos hslashes]
    exact ((char_takes (x := '/') (by decide)).andThen (char_takes (by decide)) c hslashes).trans
      (server_takes _)
  · rw [if_neg hslashes, if_neg hslashes]
    exact Takes.refl _

private theorem first_stays (hfollow : EndsText follow) (hrest : c.rest = t ++ follow)
    (htext : uriText referenceChars t = true) (hcount : t.count (ch '#') ≤ n) :
    (follow ≠ [] ∧ follow ∈ firstStrays c) ∨ ∃ t', (firstPart c).rest = t' ++ follow ∧
      uriText referenceChars t' = true ∧ t'.count (ch '#') ≤ n := by
  rw [firstPart, firstStrays]
  by_cases hslashes : (andThen (char '/') (char '/') c).ok = true
  · rw [if_pos hslashes, if_pos hslashes]
    have htakes : Takes c.rest (andThen (char '/') (char '/') c).cursor.rest [] :=
      (char_takes (x := '/') (by decide)).andThen (char_takes (by decide)) c hslashes
    rw [hrest] at htakes
    obtain ⟨t', hrest', htext', hcount'⟩ := htakes.stays hfollow htext hcount
    exact server_stays hfollow hrest' htext' hcount'
  · rw [if_neg hslashes, if_neg hslashes]
    exact .inr ⟨t, hrest, htext, hcount⟩

/-! ### The alternatives of a reference -/

/-- Behind a scheme and its colon, or where the text starts without them. -/
def bodyStart (c : Cursor UInt8) : Cursor UInt8 :=
  if (andThen scheme (char ':') c).ok then (andThen scheme (char ':') c).cursor else c

/-- The authority, or the relative segment, with which the text starts behind its scheme ends where
another part starts. -/
def FirstPartEnds (follow : List UInt8) (c : Cursor UInt8) : Prop :=
  ((andThen (char '/') (char '/') (bodyStart c)).ok = true →
    Continues follow
      (server (andThen (char '/') (char '/') (bodyStart c)).cursor).cursor.rest) ∧
  ((andThen scheme (char ':') c).ok = false →
    (classThenChars relSegmentChars relSegmentChars c.rest).1 = true →
      Continues follow (classThenChars relSegmentChars relSegmentChars c.rest).2)

/-- The text in front of `follow` is read to its end exactly when its first part ends well and the
character behind the text is no stray. -/
def ReadsToEnd (follow : List UInt8) (c : Cursor UInt8) : Prop :=
  (uriReference c).ok = true ∧ ((uriReference c).cursor.rest = follow ↔
    FirstPartEnds follow c ∧ (follow = [] ∨ follow ∉ referenceStrays c))

private theorem slashes_fail (hhead : c.rest.head? ≠ some (ch '/')) :
    (andThen (char '/') (char '/') c).ok = false := by
  rw [andThen, char_fails hhead, if_neg Bool.false_ne_true]

private theorem scheme_fails (hcolon : (andThen scheme (char ':') c).ok = false) :
    (absoluteURI c).ok = false ∧ bodyStart c = c := by
  refine ⟨?_, by rw [bodyStart, hcolon, if_neg Bool.false_ne_true]⟩
  by_cases hscheme : (scheme c).ok = true
  · have hchar : (char ':' (scheme c).cursor).ok = false := by
      rwa [andThen_of_ok hscheme] at hcolon
    simp [absoluteURI, attempt, andThen, hscheme, notingFailure, hchar, Outcome.after]
  · simp [absoluteURI, attempt, andThen, hscheme]

private theorem reference_absolute (hok : (absoluteURI c).ok = true) : (uriReference c).ok = true ∧
    (uriReference c).cursor.rest = (hashFragment (absoluteURI c).cursor).cursor.rest ∧
    referenceStrays c = absoluteStrays c ++ fragmentStrays (absoluteURI c).cursor := by
  have helse : orElse absoluteURI relativeURI c = absoluteURI c := by rw [orElse, if_pos hok]
  refine ⟨?_, ?_, ?_⟩
  · simp [uriReference, attempt, both, helse, hok, Outcome.after]
  · simp [uriReference, attempt, both, helse, hok, Outcome.after]
  · rw [referenceStrays, if_pos hok, helse]

private theorem reference_relative (habs : (absoluteURI c).ok = false)
    (hok : (relativeURI c).ok = true) :
    (uriReference c).ok = true ∧
    (uriReference c).cursor.rest = (hashFragment (relativeURI c).cursor).cursor.rest ∧
    referenceStrays c = relativeStrays c ++ fragmentStrays (relativeURI c).cursor := by
  have hsame : (absoluteURI c).cursor = c := attempt_rest ((Bool.not_eq_true _).mpr habs)
  have helse : (orElse absoluteURI relativeURI c).ok = true ∧
      (orElse absoluteURI relativeURI c).cursor = (relativeURI c).cursor := by
    simp [orElse, habs, hsame, hok, Outcome.after]
  refine ⟨?_, ?_, ?_⟩
  · simp [uriReference, attempt, both, helse.1, Outcome.after]
  · simp [uriReference, attempt, both, helse.1, helse.2, Outcome.after]
  · rw [referenceStrays, habs, if_neg Bool.false_ne_true, if_pos hok, helse.2]

private theorem pathQuery_reads_cursor (hok : (p c).ok = true) :
    (attempt (both (fun isPath _ => isPath) p questionQuery) c).ok = true ∧
      (attempt (both (fun isPath _ => isPath) p questionQuery) c).cursor =
        (questionQuery (p c).cursor).cursor := by
  simp [attempt, both, hok, Outcome.after]

private theorem hierarchical_reads {start : Cursor UInt8} (hfollow : EndsText follow)
    (hrest : start.rest = t ++ follow) (htext : uriText referenceChars t = true)
    (hcount : t.count (ch '#') ≤ 1) (hhead : start.rest.head? = some (ch '/')) :
    (hashFragment (questionQuery (orElse netPath absPath start).cursor).cursor).cursor.rest =
        follow ↔
      ((andThen (char '/') (char '/') start).ok = true →
        Continues follow (server (andThen (char '/') (char '/') start).cursor).cursor.rest) ∧
      (follow = [] ∨ follow ∉ hierPartStrays start ++
        fragmentStrays (questionQuery (orElse netPath absPath start).cursor).cursor) := by
  have hpath := hierPath_first start
  have hiff := reads_iff hfollow (first_takes start) (first_stays hfollow hrest htext hcount)
  have hstrays : hierPartStrays start ++
      fragmentStrays (questionQuery (orElse netPath absPath start).cursor).cursor =
        firstStrays start ++ tailStrays (firstPart start) := by
    rw [hierPartStrays, hpath.1, hpath.2, tailStrays]
    simp only [List.append_assoc]
  rw [hstrays, hpath.1]
  refine hiff.trans (and_congr_left' ?_)
  rw [firstPart]
  by_cases hslashes : (andThen (char '/') (char '/') start).ok = true
  · rw [if_pos hslashes]
    exact ⟨fun h _ => h, fun h => h hslashes⟩
  · rw [if_neg hslashes]
    exact ⟨fun _ h => absurd h hslashes, fun _ => .inr (.inl hhead)⟩

private theorem scheme_reads {name tail : List UInt8} (hname : isScheme name = true)
    (hrest : c.rest = name ++ ch ':' :: tail) : (andThen scheme (char ':') c).ok = true ∧
      (bodyStart c).rest = tail ∧ (absoluteURI c).ok =
      (orElse hierPart opaquePart (bodyStart c)).ok ∧
      ((absoluteURI c).ok = true →
        (absoluteURI c).cursor = (orElse hierPart opaquePart (bodyStart c)).cursor) := by
  have hrun : schemeRun c.rest = (true, ch ':' :: tail) := by
    cases name with
    | nil => cases hname
    | cons x name =>
        rw [isScheme, Bool.and_eq_true] at hname
        have hends : Httpaa.Ends [ch ':'] (ch ':' :: tail) := Httpaa.Ends.cons (by decide)
        rw [hrest, List.cons_append, schemeRun, if_pos hname.1,
          dropWhile_append hname.2 (hends.halts (by decide))]
  have hscheme : (scheme c).ok = true ∧ (scheme c).cursor.rest = ch ':' :: tail := by
    simp [scheme, noting, lift, hrun]
  have hcolon : (char ':' (scheme c).cursor).ok = true ∧
      (char ':' (scheme c).cursor).cursor.rest = tail := by
    simp [char, lift, hscheme.2]
  have hstart : (andThen scheme (char ':') c).ok = true ∧
      (andThen scheme (char ':') c).cursor = (char ':' (scheme c).cursor).cursor := by
    rw [andThen_of_ok hscheme.1]
    exact ⟨hcolon.1, rfl⟩
  have hbody : bodyStart c = (char ':' (scheme c).cursor).cursor := by
    rw [bodyStart, if_pos hstart.1, hstart.2]
  have hparts : (andThen scheme (andThen (notingFailure (.unset .scheme) (char ':'))
      (orElse hierPart opaquePart)) c) = ((orElse hierPart opaquePart (bodyStart c)).after
        (char ':' (scheme c).cursor).notes).after (scheme c).notes := by
    rw [andThen_of_ok hscheme.1, hbody]
    simp [andThen, notingFailure, hcolon.1]
  have hok : (absoluteURI c).ok = (orElse hierPart opaquePart (bodyStart c)).ok := by
    rw [absoluteURI, attempt, hparts]
    by_cases hpart : (orElse hierPart opaquePart (bodyStart c)).ok = true <;>
      simp [Outcome.after, hpart]
  refine ⟨hstart.1, hbody ▸ hcolon.2, hok, fun habs => ?_⟩
  rw [absoluteURI, attempt, hparts]
  rw [hok] at habs
  simp [Outcome.after, habs]

private theorem absoluteStrays_eq (hcolon : (andThen scheme (char ':') c).ok = true) :
    absoluteStrays c = if (hierPart (bodyStart c)).ok then hierPartStrays (bodyStart c)
      else classThenStrays uricNoSlashChars uricChars (bodyStart c).rest := by
  rw [bodyStart, if_pos hcolon]
  rfl

private theorem absolute_hierarchical {name tail : List UInt8} (hfollow : EndsText follow)
    (hname : isScheme name = true) (hrest : c.rest = name ++ ch ':' :: (tail ++ follow))
    (htext : uriText referenceChars tail = true) (hcount : tail.count (ch '#') ≤ 1)
    (hhead : tail.head? = some (ch '/')) : ReadsToEnd follow c := by
  obtain ⟨hcolon, hbody, hok, hcursor⟩ := scheme_reads hname hrest
  have hslash : (bodyStart c).rest.head? = some (ch '/') := by
    rw [hbody, List.head?_append, hhead]
    rfl
  have hpath := (hierPath_reads (bodyStart c)).2.mpr hslash
  have hhier : (hierPart (bodyStart c)).ok = true ∧ (hierPart (bodyStart c)).cursor =
      (questionQuery (orElse netPath absPath (bodyStart c)).cursor).cursor :=
    pathQuery_reads_cursor hpath
  have helse : orElse hierPart opaquePart (bodyStart c) = hierPart (bodyStart c) := by
    rw [orElse, if_pos hhier.1]
  rw [helse] at hok hcursor
  rw [hhier.1] at hok
  obtain ⟨hreads, hend, hstrays⟩ := reference_absolute hok
  rw [hcursor hok, hhier.2] at hend hstrays
  rw [absoluteStrays_eq hcolon, if_pos hhier.1] at hstrays
  refine ⟨hreads, ?_⟩
  rw [hend, hstrays]
  refine (hierarchical_reads hfollow hbody htext hcount hslash).trans (and_congr_left' ?_)
  exact ⟨fun h => ⟨h, fun hnone => by rw [hcolon] at hnone; cases hnone⟩, fun h => h.1⟩

private theorem absolute_opaque {name tail item more : List UInt8} (hfollow : EndsText follow)
    (hname : isScheme name = true) (hrest : c.rest = name ++ ch ':' :: (tail ++ follow))
    (htext : uriText referenceChars tail = true) (hcount : tail.count (ch '#') ≤ 1)
    (hhead : tail.head? ≠ some (ch '/')) (hitem : item ∈ Rfc2396.oneOf uricNoSlashChars)
    (htail : tail = item ++ more) : ReadsToEnd follow c := by
  obtain ⟨hcolon, hbody, hok, hcursor⟩ := scheme_reads hname hrest
  have hslash : (bodyStart c).rest.head? ≠ some (ch '/') :=
    hbody ▸ head_append_ne hfollow (by decide) hhead
  have hfail : ¬ (hierPart (bodyStart c)).ok = true := by
    have hpath : (orElse netPath absPath (bodyStart c)).ok = false := by
      rw [← Bool.not_eq_true, (hierPath_reads (bodyStart c)).2]
      exact hslash
    simp [hierPart, attempt, both, hpath]
  have hsame : (hierPart (bodyStart c)).cursor = bodyStart c := attempt_rest hfail
  have hfirst : (inClass uricNoSlashChars (tail ++ follow)).1 = true := by
    rw [htail, List.append_assoc]
    exact Rfc2396.inClass_of_oneOf hitem (by decide) _
  have hclass : (classThenChars uricNoSlashChars uricChars (tail ++ follow)).1 = true := by
    rw [classThenChars, if_pos hfirst]
  have hopen : (opaquePart (bodyStart c)).ok = true ∧ (opaquePart (bodyStart c)).cursor.rest =
      (classThenChars uricNoSlashChars uricChars (tail ++ follow)).2 := by
    simp [opaquePart, noting, lift, hbody, hclass]
  have helse : (orElse hierPart opaquePart (bodyStart c)).ok = true ∧
      (orElse hierPart opaquePart (bodyStart c)).cursor = (opaquePart (bodyStart c)).cursor := by
    rw [orElse, if_neg hfail, hsame]
    exact ⟨hopen.1, rfl⟩
  rw [helse.2] at hcursor
  rw [helse.1] at hok
  obtain ⟨hreads, hend, hstrays⟩ := reference_absolute hok
  rw [hcursor hok] at hend hstrays
  rw [absoluteStrays_eq hcolon, if_neg hfail, hbody] at hstrays
  have hne : tail ≠ [] := by
    rintro rfl
    have hnil : item = [] := (List.append_eq_nil_iff.mp htail.symm).1
    subst hnil
    have h := Rfc2396.inClass_of_oneOf hitem (by decide) []
    cases h
  have hends : FirstPartEnds follow c := by
    refine ⟨fun hslashes => ?_, fun hnone => ?_⟩
    · rw [slashes_fail hslash] at hslashes
      cases hslashes
    · rw [hcolon] at hnone
      cases hnone
  refine ⟨hreads, ?_⟩
  rw [hend, hstrays]
  have htakes : Takes (bodyStart c).rest
      (hashFragment (opaquePart (bodyStart c)).cursor).cursor.rest
      (classThenStrays uricNoSlashChars uricChars (tail ++ follow) ++
        fragmentStrays (opaquePart (bodyStart c)).cursor) := by
    rw [← hbody]
    exact (opaquePart_takes (bodyStart c) hopen.1).trans (fragmentStrays_takes _)
  constructor
  · exact fun hfinal => ⟨hends, htakes.not_stray hfinal⟩
  · rintro ⟨-, hstray⟩
    have hnot (hne : follow ≠ []) := hstray.resolve_left hne
    rcases classThenChars_stays uricNoSlashChars_uriClass hfollow htext hcount hfirst hne
      uricNoSlashChars_uriClass.uric uricChars_uriClass with ⟨hne', hmem⟩ |
      ⟨t', hrest', htext', hcount', hhead'⟩
    · exact absurd (List.mem_append_left _ hmem) (hnot hne')
    · rcases fragment_stays hfollow (hopen.2.trans hrest') htext' hcount' (fun x hx => by
        simpa [referenceChars, (Bool.not_eq_true' _).mp (hhead' x hx).2] using (hhead' x hx).1) with
        ⟨hne', hmem⟩ | hfinal
      · exact absurd (List.mem_append_right _ hmem) (hnot hne')
      · exact hfinal

private theorem scheme_none (name more : List UInt8) (hrest : c.rest = name ++ more)
    (hname : ch ':' ∉ name) (hmore : ∀ x ∈ more.head?, schemeChars x = false ∧ x ≠ ch ':') :
    (andThen scheme (char ':') c).ok = false := by
  have halpha (x : UInt8) (hx : alphaChars x = true) : schemeChars x = true := by
    simp [schemeChars, hx]
  -- The run stops in the name or in front of what follows it.
  have hrun (s : List UInt8) (hs : ch ':' ∉ s) :
      ((s ++ more).dropWhile schemeChars).head? ≠ some (ch ':') := by
    induction s with
    | nil =>
        cases more with
        | nil => simp
        | cons x more =>
            obtain ⟨hx, hne⟩ := hmore x rfl
            simpa [List.dropWhile_cons, hx] using hne
    | cons x s ih =>
        rw [List.mem_cons, not_or] at hs
        by_cases hx : schemeChars x = true
        · simpa [List.dropWhile_cons, hx] using ih hs.2
        · simpa [List.dropWhile_cons, hx] using Ne.symm hs.1
  rcases scheme_cases c with ⟨-, hscheme⟩ | ⟨text, rest, hfound, -, hscheme⟩
  · simp [andThen, hscheme]
  · have hhead : rest.head? ≠ some (ch ':') := by
      cases name with
      | nil =>
          rw [hrest, List.nil_append] at hfound
          cases more with
          | nil => cases hfound
          | cons x more =>
              by_cases hx : alphaChars x = true
              · exact absurd (halpha x hx) (by simp [(hmore x rfl).1])
              · simp [schemeRun, hx] at hfound
      | cons x name =>
          rw [hrest, List.cons_append] at hfound
          by_cases hx : alphaChars x = true
          · simp only [schemeRun, hx, if_true, Prod.mk.injEq, true_and] at hfound
            rw [← hfound]
            exact hrun name fun h => hname (List.mem_cons_of_mem _ h)
          · simp [schemeRun, hx] at hfound
    have hchar : (char ':' (⟨c.pos + text.length, rest⟩ : Cursor UInt8)).ok = false := by
      rw [char_fails hhead]
    simpa [andThen, hscheme, Outcome.after] using hchar

private theorem scheme_none_of_head {x : UInt8} (hhead : c.rest.head? = some x)
    (hx : schemeChars x = false ∧ x ≠ ch ':') : (andThen scheme (char ':') c).ok = false :=
  scheme_none [] _ (List.nil_append _).symm (by simp) fun y hy => by
    rw [hhead, Option.mem_some_iff] at hy
    exact hy ▸ hx

private theorem relSegment_fails {x : UInt8} (hhead : c.rest.head? = some x)
    (hx : relSegmentChars x = false ∧ x ≠ ch '%') :
    (classThenChars relSegmentChars relSegmentChars c.rest).1 = false := by
  obtain ⟨rest, hrest⟩ := exists_of_head hhead
  simp [classThenChars, inClass, escaped, hrest, hx.1, hx.2]

private theorem relative_hierarchical (hfollow : EndsText follow) (hrest : c.rest = t ++ follow)
    (htext : uriText referenceChars t = true) (hcount : t.count (ch '#') ≤ 1)
    (hhead : t.head? = some (ch '/')) : ReadsToEnd follow c := by
  have hslash : c.rest.head? = some (ch '/') := by
    rw [hrest, List.head?_append, hhead]
    rfl
  obtain ⟨habs, hbody⟩ := scheme_fails (scheme_none_of_head hslash (by decide))
  have hpath := (hierPath_reads c).2.mpr hslash
  have helse : orElse (orElse netPath absPath) relPath c = orElse netPath absPath c := by
    rw [orElse, if_pos hpath]
  have hrel : (relativeURI c).ok = true ∧
      (relativeURI c).cursor = (questionQuery (orElse netPath absPath c).cursor).cursor := by
    rw [← helse]
    exact pathQuery_reads_cursor (by rw [helse, hpath])
  have hstrays : relativeStrays c = hierPartStrays c := by
    rw [relativeStrays, relativePathStrays, helse, if_pos hpath, hierPartStrays]
  obtain ⟨hreads, hend, hall⟩ := reference_relative habs hrel.1
  refine ⟨hreads, ?_⟩
  rw [hend, hall, hrel.2, hstrays]
  refine (hierarchical_reads hfollow hrest htext hcount hslash).trans (and_congr_left' ?_)
  rw [FirstPartEnds, hbody]
  refine ⟨fun h => ⟨h, fun _ hsegment => ?_⟩, fun h => h.1⟩
  rw [relSegment_fails hslash (by decide)] at hsegment
  cases hsegment

private theorem relative_segment {name more item rest : List UInt8} (hfollow : EndsText follow)
    (hrest : c.rest = t ++ follow) (htext : uriText referenceChars t = true)
    (hcount : t.count (ch '#') ≤ 1) (ht : t = name ++ more) (hname : ch ':' ∉ name)
    (hmore : ∀ x ∈ more.head?, schemeChars x = false ∧ x ≠ ch ':')
    (hitem : item ∈ Rfc2396.oneOf relSegmentChars) (heq : name = item ++ rest) :
    ReadsToEnd follow c := by
  have hfirst : (inClass relSegmentChars c.rest).1 = true := by
    rw [hrest, ht, heq, List.append_assoc, List.append_assoc]
    exact Rfc2396.inClass_of_oneOf hitem (by decide) _
  have hsegment : (classThenChars relSegmentChars relSegmentChars c.rest).1 = true := by
    rw [classThenChars, if_pos hfirst]
  have hslash : c.rest.head? ≠ some (ch '/') := by
    intro hslash
    rw [relSegment_fails hslash (by decide)] at hsegment
    cases hsegment
  have hcolon : (andThen scheme (char ':') c).ok = false := by
    refine scheme_none name (more ++ follow) (by rw [hrest, ht, List.append_assoc]) hname ?_
    intro x hx
    cases more with
    | nil =>
        rw [List.nil_append] at hx
        rcases hfollow with hnone | hspace
        · rw [hnone] at hx
          cases hx
        · rw [hspace, Option.mem_some_iff] at hx
          exact hx ▸ (by decide)
    | cons y more => exact hmore x hx
  obtain ⟨habs, hbody⟩ := scheme_fails hcolon
  have hpath : (orElse netPath absPath c) = ⟨false, c, []⟩ := by
    rcases netPath_cases c with hnone | ⟨hhead, -⟩
    · rw [orElse_of_fail hnone, absPath_none hslash]
    · exact absurd hhead hslash
  have hrelPath : (relPath c).ok = true ∧ (relPath c).cursor =
      (absPath (c.to (classThenChars relSegmentChars relSegmentChars c.rest).2)).cursor := by
    have hlift : (lift (classThenChars relSegmentChars relSegmentChars) c :
        Outcome UInt8 UriWrite).ok = true := hsegment
    rw [relPath, attempt, noting, andTry_of_ok hlift]
    exact ⟨rfl, rfl⟩
  have helse : orElse (orElse netPath absPath) relPath c = relPath c := orElse_of_fail hpath
  have hrel : (relativeURI c).ok = true ∧
      (relativeURI c).cursor = (questionQuery (relPath c).cursor).cursor := by
    rw [← helse]
    exact pathQuery_reads_cursor (by rw [helse, hrelPath.1])
  have hstrays : relativeStrays c ++ fragmentStrays (relativeURI c).cursor =
      classThenStrays relSegmentChars relSegmentChars c.rest ++
        tailStrays (c.to (classThenChars relSegmentChars relSegmentChars c.rest).2) := by
    rw [relativeStrays, relativePathStrays, hpath, if_neg Bool.false_ne_true, helse, hrel.2,
      hrelPath.2, relPathStrays, tailStrays]
    simp only [List.append_assoc]
  obtain ⟨hreads, hend, hall⟩ := reference_relative habs hrel.1
  have hne : t ≠ [] := by
    rintro rfl
    obtain ⟨rfl, -⟩ := List.append_eq_nil_iff.mp ht.symm
    obtain ⟨rfl, -⟩ := List.append_eq_nil_iff.mp heq.symm
    have h := Rfc2396.inClass_of_oneOf hitem (by decide) []
    cases h
  have htakes := classThenChars_takes relSegmentChars_uriClass relSegmentChars_uriClass hsegment
  have hstays := classThenChars_stays relSegmentChars_uriClass hfollow htext hcount
    (hrest ▸ hfirst) hne (fun _ h => h) relSegmentChars_uriClass
  rw [← hrest] at hstays
  refine ⟨hreads, ?_⟩
  rw [hend, hall, hstrays, hrel.2, hrelPath.2]
  refine (reads_iff hfollow htakes ?_).trans (and_congr_left' ?_)
  · rcases hstays with hmem | ⟨t', hrest', htext', hcount', -⟩
    · exact .inl hmem
    · exact .inr ⟨t', hrest', htext', hcount'⟩
  · rw [FirstPartEnds, hbody, slashes_fail hslash]
    exact ⟨fun h => ⟨fun hnone => absurd hnone Bool.false_ne_true, fun _ _ => h⟩,
      fun h => h.2 hcolon hsegment⟩

private theorem fragment_reads (hfollow : EndsText follow) (hrest : c.rest = t ++ follow)
    (htext : uriText referenceChars t = true) (hcount : t.count (ch '#') ≤ 1)
    (hhead : t.head? = some (ch '#')) : ReadsToEnd follow c := by
  have hhash : c.rest.head? = some (ch '#') := by
    rw [hrest, List.head?_append, hhead]
    rfl
  have hslash : c.rest.head? ≠ some (ch '/') := by
    rw [hhash]
    decide
  obtain ⟨habs, hbody⟩ := scheme_fails (scheme_none_of_head hhash (by decide))
  have hsegment := relSegment_fails hhash (by decide)
  have hpath : (orElse netPath absPath c) = ⟨false, c, []⟩ := by
    rcases netPath_cases c with hnone | ⟨hhead, -⟩
    · rw [orElse_of_fail hnone, absPath_none hslash]
    · exact absurd hhead hslash
  have hrelPath : (relPath c).ok = false := by
    simp [relPath, attempt, noting, andTry, andThen, lift, hsegment]
  have hrel : (relativeURI c).ok = false := by
    have helse : (orElse (orElse netPath absPath) relPath c).ok = false := by
      rw [orElse_of_fail hpath, hrelPath]
    simp [relativeURI, attempt, both, helse]
  have hsame : (absoluteURI c).cursor = c := attempt_rest ((Bool.not_eq_true _).mpr habs)
  have hback : (relativeURI c).cursor = c := attempt_rest ((Bool.not_eq_true _).mpr hrel)
  have helse : (orElse absoluteURI relativeURI c).cursor = c := by
    simp [orElse, habs, hsame, hback, Outcome.after]
  obtain ⟨rest, hrest'⟩ := exists_of_head hhash
  have hok : (hashFragment c).ok = true := by
    simp [hashFragment, andThen, char, lift, hrest', uricPart, noting, Outcome.after]
  have hreads : (uriReference c).ok = true ∧
      (uriReference c).cursor = (hashFragment c).cursor := by
    simp [uriReference, attempt, both, helse, hok, Outcome.after]
  have hstrays : referenceStrays c = fragmentStrays c := by
    rw [referenceStrays, habs, hrel, if_neg Bool.false_ne_true, if_neg Bool.false_ne_true, helse]
    rfl
  have hends : FirstPartEnds follow c := by
    rw [FirstPartEnds, hbody, slashes_fail hslash, hsegment]
    exact ⟨fun hnone => absurd hnone Bool.false_ne_true,
      fun _ hnone => absurd hnone Bool.false_ne_true⟩
  have htakes := fragmentStrays_takes c
  refine ⟨hreads.1, ?_⟩
  rw [hreads.2, hstrays]
  constructor
  · exact fun hfinal => ⟨hends, htakes.not_stray hfinal⟩
  · rintro ⟨-, hstray⟩
    refine (fragment_stays hfollow hrest htext hcount fun x hx => ?_).resolve_left ?_
    · rw [hhead, Option.mem_some_iff] at hx
      exact hx.symm
    · rintro ⟨hne, hmem⟩
      exact (hstray.resolve_left hne) hmem

private theorem reference_reads (hs : s ∈ Rfc2396.uriReference) (hne : s ≠ [])
    (hfollow : EndsText follow) (hrest : c.rest = s ++ follow) : ReadsToEnd follow c := by
  obtain ⟨htext, hcount⟩ := isUriText_iff.mp (Rfc2396.isUriText_of_mem hs)
  obtain ⟨body, tail, rfl, htail, habs | hrel | rfl⟩ := Rfc2396.mem_uriReference hs
  · obtain ⟨name, part, hname, rfl, hpart⟩ := Rfc2396.mem_absoluteURI habs
    have hsplit : name ++ ch ':' :: part ++ tail = name ++ ch ':' :: (part ++ tail) :=
      List.append_assoc ..
    rw [hsplit] at hrest htext hcount
    rw [List.append_assoc, List.cons_append] at hrest
    have hnameText : uriText referenceChars (name ++ [ch ':']) = true := by
      refine uriText_of_all ?_
      cases name with
      | nil => cases hname
      | cons x name =>
          rw [isScheme, Bool.and_eq_true] at hname
          rw [List.cons_append, List.all_cons, List.all_append, Bool.and_eq_true,
            Bool.and_eq_true]
          exact ⟨labelChars_uricChars (alphaChars_labelChars x hname.1), List.all_eq_true.mpr
            fun c hc => Rfc2396.schemeChars_uricChars c (List.all_eq_true.mp hname.2 c hc), rfl⟩
    have hpartText : uriText referenceChars (part ++ tail) = true := by
      rw [← uriText_append hnameText, List.append_assoc]
      exact htext
    have hpartCount : (part ++ tail).count (ch '#') ≤ 1 :=
      Nat.le_trans (List.Sublist.count_le (ch '#')
        ((List.sublist_cons_self _ _).trans (List.sublist_append_right name _))) hcount
    by_cases hhead : (part ++ tail).head? = some (ch '/')
    · exact absolute_hierarchical hfollow hname hrest hpartText hpartCount hhead
    · rcases hpart with hslash | ⟨item, more, hitem, rfl⟩
      · rw [List.head?_append, hslash] at hhead
        exact absurd rfl hhead
      · exact absolute_opaque hfollow hname hrest hpartText hpartCount hhead hitem
          (List.append_assoc ..)
  · rcases Rfc2396.mem_relativeURI hrel with hslash | ⟨name, more, item, rest, rfl, hname, hmore,
      hitem, heq⟩
    · refine relative_hierarchical hfollow hrest htext hcount ?_
      rw [List.head?_append, hslash]
      rfl
    · refine relative_segment hfollow hrest htext hcount (List.append_assoc ..) hname ?_ hitem heq
      intro x hx
      rcases hmore with rfl | hmore
      · rcases htail with rfl | hhash
        · cases hx
        · rw [List.nil_append, hhash, Option.mem_some_iff] at hx
          exact hx ▸ (by decide)
      · rw [List.head?_append] at hx
        rcases hmore with hslash | hquestion
        · rw [hslash, Option.some_or, Option.mem_some_iff] at hx
          exact hx ▸ (by decide)
        · rw [hquestion, Option.some_or, Option.mem_some_iff] at hx
          exact hx ▸ (by decide)
  · refine fragment_reads hfollow hrest htext hcount ?_
    exact htail.resolve_left hne

end Text

/-- A text of the grammar in front of the end of the buffer or of a space is read to its end exactly
when its authority or its relative segment, as the parser reads it, ends where another part starts,
and the character behind the text is not taken unchecked behind an escape. -/
theorem uriReference_complete {h : Heap} {u : Uriaa} {s follow : List UInt8}
    (hs : s ∈ Rfc2396.uriReference) (hne : s ≠ []) (hfollow : Text.EndsText follow)
    (hu : u.Shows h ⟨u.uri.readPos, s ++ follow⟩) :
    (∃ u', uriReference h u = some (true, u') ∧ u'.uri.readPos = u.uri.readPos + s.length) ↔
      Text.FirstPartEnds follow ⟨u.uri.readPos, s ++ follow⟩ ∧
        (follow = [] ∨ follow ∉ Text.referenceStrays ⟨u.uri.readPos, s ++ follow⟩) := by
  have himpl := uriReference_implements u _ hu
  rw [show u.rewind (⟨u.uri.readPos, s ++ follow⟩ : Recogniser.Cursor UInt8).pos = u from rfl]
    at himpl
  obtain ⟨hok, hiff⟩ := Text.reference_reads (c := ⟨u.uri.readPos, s ++ follow⟩) hs hne hfollow rfl
  rw [← hiff]
  obtain ⟨front, hfront, hpos⟩ := Text.uriReference_advances ⟨u.uri.readPos, s ++ follow⟩
  have hfront' : s ++ follow = front ++ _ := hfront
  have hpos' : (Text.uriReference ⟨u.uri.readPos, s ++ follow⟩).cursor.pos =
      u.uri.readPos + front.length := hpos
  constructor
  · rintro ⟨u', hrun, hread⟩
    rw [himpl, Option.some.injEq, Prod.mk.injEq] at hrun
    have hlength : front.length = s.length := by
      rw [← hrun.2] at hread
      have hread' : (Text.uriReference ⟨u.uri.readPos, s ++ follow⟩).cursor.pos =
        u.uri.readPos + s.length := hread
      omega
    exact (List.append_inj hfront' hlength.symm).2.symm
  · intro hend
    refine ⟨_, himpl.trans (by rw [hok]), ?_⟩
    have hlength := congrArg List.length hfront'
    rw [hend, List.length_append, List.length_append] at hlength
    change (Text.uriReference ⟨u.uri.readPos, s ++ follow⟩).cursor.pos = _
    omega

/-- The authority `a$b` is a name of the grammar, but the parser reads the host `a` of a server. -/
theorem uriReference_leavesName : ¬ ∀ (h : Heap) (u : Uriaa) (s follow : List UInt8),
    s ∈ Rfc2396.uriReference → s ≠ [] → Text.EndsText follow →
      u.Shows h ⟨u.uri.readPos, s ++ follow⟩ →
        ∃ u', uriReference h u = some (true, u') ∧ u'.uri.readPos = u.uri.readPos + s.length := by
  intro hclaim
  have hmem : [ch '/', ch '/', ch 'a', ch '$', ch 'b'] ∈ Rfc2396.uriReference :=
    Rfc2396.mem_of_path (Or.inl (Or.inl (Rfc2396.mem_of_regName
      (Rfc2396.mem_many (s := [ch 'a', ch '$', ch 'b']) (by decide) (by decide)))))
  have hruns : (uriReference (.ofText [ch '/', ch '/', ch 'a', ch '$', ch 'b'])
      { uri := .ofText 0 5 }).map (fun r => r.2.uri.readPos) = some 3 := by decide
  obtain ⟨u', hrun, hread⟩ := hclaim _ { uri := .ofText 0 5 } _ [] hmem (by simp) (.inl rfl)
    (Uriaa.ofText_shows [ch '/', ch '/', ch 'a', ch '$', ch 'b'])
  rw [hrun, Option.map_some, Option.some.injEq] at hruns
  rw [hruns] at hread
  exact absurd hread (by decide)

/-- `//a/b?c` is read to the end of the buffer. -/
theorem uriReference_complete_network : ∃ u', uriReference
    (.ofText [ch '/', ch '/', ch 'a', ch '/', ch 'b', ch '?', ch 'c']) { uri := .ofText 0 7 } =
      some (true, u') ∧ u'.uri.readPos = 7 := by
  have hmem := Rfc2396.mem_network [ch 'a'] [ch 'b'] [ch 'c']
    (Rfc2396.mem_many (by decide) (by decide)) (by decide) (by decide)
  have hfirst : Text.FirstPartEnds []
      ⟨0, [ch '/', ch '/', ch 'a', ch '/', ch 'b', ch '?', ch 'c']⟩ :=
    ⟨fun _ => .inr (.inl (by decide +kernel)), fun _ h => absurd h (by decide)⟩
  exact (uriReference_complete (u := { uri := .ofText 0 7 }) hmem (by decide) (.inl rfl)
    (Uriaa.ofText_shows _)).mpr ⟨hfirst, .inl rfl⟩

end Httpaa
