import Httpaa.Http.Grammar

/-!
# Nothing behind the first line matters to the request line

No loop of the request line or of its URI passes the line feed of an end of line: the characters it
takes are no line feeds, and the character behind an escape, which is taken whatever it is, is at
most the carriage return. So what the request line does is decided by the first line of the text.
-/

namespace Httpaa.Text

open Recogniser

variable {front : List UInt8} {P Q : UInt8 → Bool}

/-- What may stand in front of the line feed of an end of line. -/
def BeforeLf (front : List UInt8) : Prop := ∀ x ∈ front.getLast?, x = http11Cr

theorem BeforeLf.suffix {front' : List UInt8} (hfront : BeforeLf front) (h : front' <:+ front) :
    BeforeLf front' := by
  rcases front'.eq_nil_or_concat with rfl | ⟨t, x, rfl⟩
  · simp [BeforeLf]
  · obtain ⟨s, rfl⟩ := h
    simpa [BeforeLf, ← List.append_assoc] using hfront

theorem BeforeLf.ne_nil {x : UInt8} (hfront : BeforeLf (x :: front)) (hx : x ≠ http11Cr) :
    front ≠ [] := by
  rintro rfl
  exact hx (hfront x (by simp))

/-- The function stops in front of the line feed, and does not look behind it. -/
def StaysInLine {β : Type} (f : List UInt8 → β × List UInt8) : Prop :=
  ∀ front, BeforeLf front → ∃ value front', front' <:+ front ∧
    ∀ later, f (front ++ http11Lf :: later) = (value, front' ++ http11Lf :: later)

theorem StaysInLine.bind {β γ : Type} {f : List UInt8 → β × List UInt8}
    {g : β → List UInt8 → γ × List UInt8} (hf : StaysInLine f)
    (hg : ∀ value, StaysInLine (g value)) :
    StaysInLine fun s => g (f s).1 (f s).2 := by
  intro front hfront
  obtain ⟨value, front₁, hsuffix₁, heq₁⟩ := hf front hfront
  obtain ⟨value₂, front₂, hsuffix₂, heq₂⟩ := hg value front₁ (hfront.suffix hsuffix₁)
  exact ⟨value₂, front₂, hsuffix₂.trans hsuffix₁, fun later => by simp only [heq₁, heq₂]⟩

theorem StaysInLine.const {β : Type} (value : β) : StaysInLine fun s => (value, s) :=
  fun front _ => ⟨value, front, List.suffix_refl front, fun _ => rfl⟩

/-! ### Loops over characters -/

private theorem isChar_staysInLine {x : UInt8} (hx : x ≠ http11Lf) : StaysInLine (isChar x) := by
  intro front hfront
  cases front with
  | nil => exact ⟨false, [], List.suffix_refl [], fun later => by simp [isChar, hx]⟩
  | cons c front =>
      by_cases hc : x = c
      · exact ⟨true, front, List.suffix_cons c front, fun later => by simp [isChar, hc]⟩
      · exact ⟨false, c :: front, List.suffix_refl _, fun later => by simp [isChar, hc]⟩

private theorem takeWhile_front (hP : P http11Lf = false) (front later : List UInt8) :
    (front ++ http11Lf :: later).takeWhile P = front.takeWhile P := by
  induction front with
  | nil => simp [hP]
  | cons c front ih => simp only [List.cons_append, List.takeWhile_cons, ih]

private theorem dropWhile_front (hP : P http11Lf = false) (front later : List UInt8) :
    (front ++ http11Lf :: later).dropWhile P = front.dropWhile P ++ http11Lf :: later := by
  induction front with
  | nil => simp [hP]
  | cons c front ih =>
      by_cases hc : P c = true
      · simp [hc, ih]
      · simp [hc]

private theorem escaped_front (hfront : BeforeLf front) :
    ∃ ok front', front' <:+ front ∧ (ok = true → front' ≠ []) ∧
      ∀ later, escaped (front ++ http11Lf :: later) = (ok, front' ++ http11Lf :: later) := by
  have hlf : ¬ http11Lf = ch '%' := by decide
  have hpercent : ch '%' ≠ http11Cr := by decide
  have hhex : ∀ x, hexChars x = true → x ≠ http11Cr := by
    rintro x hx rfl
    revert hx
    decide
  have hfail : ∀ front : List UInt8,
      (∀ later, escaped (front ++ http11Lf :: later) = (false, front ++ http11Lf :: later)) →
      ∃ ok front', front' <:+ front ∧ (ok = true → front' ≠ []) ∧
        ∀ later, escaped (front ++ http11Lf :: later) = (ok, front' ++ http11Lf :: later) :=
    fun front h => ⟨false, front, List.suffix_refl front, by simp, h⟩
  rcases front with _ | ⟨c, front⟩
  · exact hfail _ fun later => by simp [escaped, hlf]
  by_cases hc : c = ch '%'
  swap
  · exact hfail _ fun later => by simp [escaped, hc]
  subst hc
  obtain ⟨d, front, rfl⟩ := List.exists_cons_of_ne_nil (hfront.ne_nil hpercent)
  have hd := hfront.suffix (List.suffix_cons _ _)
  rcases front with _ | ⟨e, front⟩
  · have hdhex : hexChars d = false := by
      rw [Bool.eq_false_iff]
      exact fun h => hd.ne_nil (hhex d h) rfl
    refine hfail _ fun later => ?_
    cases later <;> simp [escaped, hdhex]
  have he := hd.suffix (List.suffix_cons _ _)
  by_cases hde : (hexChars d && hexChars e) = true
  · have hehex : hexChars e = true := (Bool.and_eq_true_iff.mp hde).2
    refine ⟨true, front, ?_, fun _ => he.ne_nil (hhex e hehex), fun later => ?_⟩
    · exact ((List.suffix_cons e front).trans (List.suffix_cons d _)).trans (List.suffix_cons _ _)
    · simp only [List.cons_append, escaped, if_true, hde]
  · refine hfail _ fun later => ?_
    simp only [List.cons_append, escaped, if_true, hde, Bool.false_eq_true, if_false]

private theorem inClass_front (hP : P http11Lf = false) (hfront : BeforeLf front) :
    ∃ ok front', front' <:+ front ∧ (ok = true → front' ≠ []) ∧
      ∀ later, inClass P (front ++ http11Lf :: later) = (ok, front' ++ http11Lf :: later) := by
  cases front with
  | nil => simpa only [List.nil_append, inClass, hP, Bool.false_eq_true, if_false] using
      escaped_front hfront
  | cons c front =>
      by_cases hc : P c = true
      · exact ⟨true, c :: front, List.suffix_refl _, by simp, fun later => by simp [inClass, hc]⟩
      · simpa only [List.cons_append, inClass, hc, Bool.false_eq_true, if_false] using
          escaped_front hfront

/-- A loop stays in front of the line feed if each of its turns does, with less in front of it. -/
theorem StaysInLine.loop {f : List UInt8 → List UInt8} (turn : List UInt8 → Bool × List UInt8)
    (hturn : ∀ front, BeforeLf front → ∃ ok front', front' <:+ front ∧
      (ok = true → front'.length < front.length) ∧
      ∀ later, turn (front ++ http11Lf :: later) = (ok, front' ++ http11Lf :: later))
    (hmore : ∀ s, (turn s).1 = true → f s = f (turn s).2)
    (hstop : ∀ s, (turn s).1 = false → f s = (turn s).2) : StaysInLine fun s => (true, f s) := by
  intro front hfront
  induction hn : front.length using Nat.strongRecOn generalizing front with
  | _ n ih =>
      obtain ⟨ok, front₁, hsuffix₁, hlt, heq₁⟩ := hturn front hfront
      cases ok with
      | false =>
          refine ⟨true, front₁, hsuffix₁, fun later => ?_⟩
          simp only [hstop (front ++ http11Lf :: later) (by rw [heq₁]), heq₁]
      | true =>
          obtain ⟨ok, front', hsuffix', heq'⟩ :=
            ih front₁.length (hn ▸ hlt rfl) front₁ (hfront.suffix hsuffix₁) rfl
          refine ⟨ok, front', hsuffix'.trans hsuffix₁, fun later => ?_⟩
          have hrec := heq' later
          simp only [hmore (front ++ http11Lf :: later) (by rw [heq₁]), heq₁]
          exact hrec

private theorem chars_staysInLine (hP : P http11Lf = false) :
    StaysInLine fun s => (true, chars P s) := by
  refine StaysInLine.loop (fun s => ((inClass P s).1,
    if (inClass P s).1 then (inClass P s).2.tail else (inClass P s).2)) ?_ ?_ ?_
  · intro front hfront
    obtain ⟨ok, front₁, hsuffix₁, hne, heq₁⟩ := inClass_front hP hfront
    cases ok with
    | false => exact ⟨false, front₁, hsuffix₁, by simp, fun later => by simp [heq₁]⟩
    | true =>
        obtain ⟨c, front₂, rfl⟩ := List.exists_cons_of_ne_nil (hne rfl)
        exact ⟨true, front₂, (List.suffix_cons c front₂).trans hsuffix₁,
          fun _ => hsuffix₁.length_le, fun later => by simp [heq₁]⟩
  · intro s hs
    rw [chars]
    simp [show (inClass P s).1 = true from hs]
  · intro s hs
    rw [chars]
    simp [show (inClass P s).1 = false from hs]

private theorem classThenChars_staysInLine (hP : P http11Lf = false) (hQ : Q http11Lf = false) :
    StaysInLine (classThenChars P Q) := by
  intro front hfront
  obtain ⟨ok, front₁, hsuffix₁, hne, heq₁⟩ := inClass_front hP hfront
  cases ok with
  | false => exact ⟨false, front₁, hsuffix₁, fun later => by simp [classThenChars, heq₁]⟩
  | true =>
      obtain ⟨c, front₂, rfl⟩ := List.exists_cons_of_ne_nil (hne rfl)
      have hsuffix₂ := (List.suffix_cons c front₂).trans hsuffix₁
      obtain ⟨ok, front', hsuffix', heq'⟩ := chars_staysInLine hQ front₂ (hfront.suffix hsuffix₂)
      refine ⟨ok, front', hsuffix'.trans hsuffix₂, fun later => ?_⟩
      have hrest := heq' later
      simpa [classThenChars, heq₁] using hrest

/-! ### Host names and addresses -/

private theorem labelChars_lf : labelChars http11Lf = false := by decide

private theorem labelTail_staysInLine (prev : UInt8) : StaysInLine (labelTail prev) := by
  intro front hfront
  induction front generalizing prev with
  | nil => exact ⟨decide (prev ≠ ch '-'), [], List.suffix_refl [], fun later => by
      simp [labelTail, labelChars_lf]⟩
  | cons c front ih =>
      have hsuffix := List.suffix_cons c front
      by_cases hc : labelChars c = true
      · obtain ⟨ok, front', hsuffix', heq'⟩ := ih c (hfront.suffix hsuffix)
        exact ⟨ok, front', hsuffix'.trans hsuffix, fun later => by simp [labelTail, hc, heq']⟩
      · exact ⟨decide (prev ≠ ch '-'), c :: front, List.suffix_refl _, fun later => by
          simp [labelTail, hc]⟩

private theorem label_staysInLine (hP : P http11Lf = false) : StaysInLine (label P) := by
  intro front hfront
  cases front with
  | nil => exact ⟨false, [], List.suffix_refl [], fun later => by simp [label, hP]⟩
  | cons c front =>
      have hsuffix := List.suffix_cons c front
      obtain ⟨ok, front', hsuffix', heq'⟩ := labelTail_staysInLine c front (hfront.suffix hsuffix)
      by_cases hc : (P c && ok) = true
      · exact ⟨true, front', hsuffix'.trans hsuffix, fun later => by
          simp only [List.cons_append, label, heq', hc, if_true]⟩
      · exact ⟨false, c :: front, List.suffix_refl _, fun later => by
          simp only [List.cons_append, label, heq', hc, Bool.false_eq_true, if_false]⟩

private theorem alphanumChars_lf : alphanumChars http11Lf = false := by decide

private theorem dot_ne_lf : ch '.' ≠ http11Lf := by decide

private theorem lastLabel_front {s labelStart : List UInt8} (hfront : BeforeLf front)
    (hs : s <:+ front) (hstart : labelStart <:+ front) :
    ∃ front', front' <:+ front ∧ ∀ later, lastLabel (s ++ http11Lf :: later)
      (labelStart ++ http11Lf :: later) = front' ++ http11Lf :: later := by
  induction hn : s.length using Nat.strongRecOn generalizing s labelStart with
  | _ n ih =>
      obtain ⟨ok, s₁, hsuffix₁, heq₁⟩ := label_staysInLine alphanumChars_lf s (hfront.suffix hs)
      obtain ⟨isDot, s₂, hsuffix₂, heq₂⟩ :=
        isChar_staysInLine dot_ne_lf s₁ (hfront.suffix (hsuffix₁.trans hs))
      cases ok with
      | false =>
          exact ⟨labelStart, hstart, fun later => by rw [lastLabel]; simp [heq₁]⟩
      | true =>
          cases isDot with
          | false => exact ⟨s, hs, fun later => by rw [lastLabel]; simp [heq₁, heq₂]⟩
          | true =>
              have hlt : s₂.length < s.length := by
                have hlt := isChar_length (x := ch '.') (s := s₁ ++ http11Lf :: []) (by rw [heq₂])
                have hle := hsuffix₁.length_le
                simp only [heq₂, List.length_append] at hlt
                omega
              obtain ⟨front', hsuffix', heq'⟩ := ih s₂.length (by omega)
                (hsuffix₂.trans (hsuffix₁.trans hs)) hs rfl
              exact ⟨front', hsuffix', fun later => by rw [lastLabel]; simp [heq₁, heq₂, heq']⟩

private theorem hostname_staysInLine : StaysInLine hostname := by
  intro front hfront
  have hself := List.suffix_refl front
  obtain ⟨front₁, hsuffix₁, heq₁⟩ := lastLabel_front hfront hself hself
  obtain ⟨ok, front₂, hsuffix₂, heq₂⟩ :=
    label_staysInLine (P := alphaChars) (by decide) front₁ (hfront.suffix hsuffix₁)
  have hsuffix := hsuffix₂.trans hsuffix₁
  obtain ⟨isDot, front₃, hsuffix₃, heq₃⟩ :=
    isChar_staysInLine dot_ne_lf front₂ (hfront.suffix hsuffix)
  cases ok with
  | false => exact ⟨false, front, hself, fun later => by simp [hostname, heq₁, heq₂]⟩
  | true => exact ⟨true, front₃, hsuffix₃.trans hsuffix, fun later => by
      simp [hostname, heq₁, heq₂, heq₃]⟩

private theorem digitChars_lf : digitChars http11Lf = false := by decide

private theorem ipv4Loop_staysInLine (turns i isDigit : Nat) :
    StaysInLine fun s => ipv4Loop turns i s isDigit := by
  intro front hfront
  induction turns generalizing i isDigit front with
  | zero => exact ⟨isDigit, front, List.suffix_refl front, fun later => rfl⟩
  | succ turns ih =>
      cases front with
      | nil =>
          obtain ⟨n, front', hsuffix', heq'⟩ := ih (i + 1) isDigit [] hfront
          exact ⟨n, front', hsuffix', fun later => by
            simpa [ipv4Loop, digitChars_lf] using heq' later⟩
      | cons c front =>
          have hsuffix := List.suffix_cons c front
          by_cases hc : digitChars c = true
          · have hdrop := (List.dropWhile_suffix digitChars).trans hsuffix
            obtain ⟨isDot, front₁, hsuffix₁, heq₁⟩ :=
              isChar_staysInLine dot_ne_lf (front.dropWhile digitChars) (hfront.suffix hdrop)
            by_cases hi : i < 3
            · cases isDot with
              | false =>
                  exact ⟨isDigit, front.dropWhile digitChars, hdrop, fun later => by
                    simp [ipv4Loop, hc, hi, dropWhile_front digitChars_lf, heq₁]⟩
              | true =>
                  have hsuffix₁ := hsuffix₁.trans hdrop
                  obtain ⟨n, front', hsuffix', heq'⟩ :=
                    ih (i + 1) (isDigit + 1) front₁ (hfront.suffix hsuffix₁)
                  exact ⟨n, front', hsuffix'.trans hsuffix₁, fun later => by
                    simpa [ipv4Loop, hc, hi, dropWhile_front digitChars_lf, heq₁] using heq' later⟩
            · obtain ⟨n, front', hsuffix', heq'⟩ :=
                ih (i + 1) (isDigit + 1) (front.dropWhile digitChars) (hfront.suffix hdrop)
              exact ⟨n, front', hsuffix'.trans hdrop, fun later => by
                simpa [ipv4Loop, hc, hi, dropWhile_front digitChars_lf] using heq' later⟩
          · obtain ⟨n, front', hsuffix', heq'⟩ := ih (i + 1) isDigit (c :: front) hfront
            exact ⟨n, front', hsuffix', fun later => by simpa [ipv4Loop, hc] using heq' later⟩

private theorem ipv4address_staysInLine : StaysInLine ipv4address := by
  intro front hfront
  obtain ⟨n, front', hsuffix', heq'⟩ := ipv4Loop_staysInLine 4 0 0 front hfront
  by_cases hn : n = 4
  · exact ⟨true, front', hsuffix', fun later => by simp [ipv4address, heq', hn]⟩
  · exact ⟨false, front, List.suffix_refl front, fun later => by simp [ipv4address, heq', hn]⟩

/-! ### Path segments -/

private theorem charLoop_staysInLine {x : UInt8} (hx : x ≠ http11Lf) {f g : List UInt8 → List UInt8}
    (hf : StaysInLine fun s => (true, f s))
    (hg : ∀ s, g s = if (isChar x s).1 then g (f (isChar x s).2) else s) :
    StaysInLine fun s => (true, g s) := by
  refine StaysInLine.loop (fun s => ((isChar x s).1,
    if (isChar x s).1 then f (isChar x s).2 else s)) ?_ ?_ ?_
  · intro front hfront
    obtain ⟨ok, front₁, hsuffix₁, heq₁⟩ := isChar_staysInLine hx front hfront
    cases ok with
    | false => exact ⟨false, front, List.suffix_refl front, by simp, fun later => by simp [heq₁]⟩
    | true =>
        obtain ⟨ok, front₂, hsuffix₂, heq₂⟩ := hf front₁ (hfront.suffix hsuffix₁)
        have hlt := isChar_length (x := x) (s := front ++ http11Lf :: []) (by rw [heq₁])
        have hle := hsuffix₂.length_le
        simp only [heq₁, List.length_append] at hlt
        refine ⟨true, front₂, hsuffix₂.trans hsuffix₁, fun _ => by omega, fun later => ?_⟩
        simpa [heq₁] using congrArg Prod.snd (heq₂ later)
  · intro s hs
    have hs : (isChar x s).1 = true := hs
    rw [hg]
    simp [hs]
  · intro s hs
    have hs : (isChar x s).1 = false := hs
    rw [hg]
    simp [hs]

private theorem params_staysInLine : StaysInLine fun s => (true, params s) := by
  refine charLoop_staysInLine (x := ch ';') (by decide)
    (chars_staysInLine (P := pcharChars) (by decide)) ?_
  intro s
  rw [params]
  simp only [dite_eq_ite]

private theorem segment_staysInLine : StaysInLine fun s => (true, segment s) :=
  (chars_staysInLine (P := pcharChars) (by decide)).bind fun _ => params_staysInLine

private theorem segments_staysInLine : StaysInLine fun s => (true, segments s) := by
  refine charLoop_staysInLine (x := ch '/') (by decide) segment_staysInLine ?_
  intro s
  rw [segments]
  simp only [dite_eq_ite]

/-! ### The request URI -/

/-- The recogniser stays in the line, and does not look behind it. -/
abbrev InLine {ω : Type} (p : Recogniser UInt8 ω) : Prop := Confined BeforeLf http11Lf p

theorem StaysInLine.lift {ω : Type} {f : List UInt8 → Bool × List UInt8} (hf : StaysInLine f) :
    InLine (lift f : Recogniser UInt8 ω) := by
  refine Confined.lift fun front hfront => ?_
  obtain ⟨ok, front', hsuffix', heq'⟩ := hf front hfront
  exact ⟨ok, front', hfront.suffix hsuffix', heq'⟩

private theorem char_inLine {c : Char} (hc : ch c ≠ http11Lf) : InLine (char c) :=
  (isChar_staysInLine hc).lift

private theorem schemeRun_staysInLine : StaysInLine schemeRun := by
  have hscheme : schemeChars http11Lf = false := by decide
  have halpha : alphaChars http11Lf = false := by decide
  intro front hfront
  cases front with
  | nil => exact ⟨false, [], List.suffix_refl [], fun later => by simp [schemeRun, halpha]⟩
  | cons c front =>
      by_cases hc : alphaChars c = true
      · exact ⟨true, front.dropWhile schemeChars,
          (List.dropWhile_suffix schemeChars).trans (List.suffix_cons c front), fun later => by
            simp [schemeRun, hc, dropWhile_front hscheme]⟩
      · exact ⟨false, c :: front, List.suffix_refl _, fun later => by simp [schemeRun, hc]⟩

private theorem scheme_inLine : InLine scheme := .noting schemeRun_staysInLine.lift

private theorem opaquePart_inLine : InLine opaquePart :=
  .noting (classThenChars_staysInLine (P := uricNoSlashChars) (Q := uricChars) (by decide)
    (by decide)).lift

private theorem regName_inLine : InLine regName :=
  (classThenChars_staysInLine (P := regNameChars) (Q := regNameChars) (by decide) (by decide)).lift

private theorem host_inLine : InLine host :=
  .attempt (.noting (.orElse hostname_staysInLine.lift ipv4address_staysInLine.lift))

private theorem digits_staysInLine :
    StaysInLine fun s => (digitChars (s.headD 0), s.dropWhile digitChars) := by
  intro front hfront
  refine ⟨digitChars (front.headD http11Lf), front.dropWhile digitChars,
    List.dropWhile_suffix digitChars, fun later => ?_⟩
  simp only [dropWhile_front digitChars_lf]
  cases front <;> rfl

private theorem port_inLine : InLine port := .attempt (.noting digits_staysInLine.lift)

private theorem hostport_inLine : InLine hostport :=
  .attempt (.andTry host_inLine (.andThen (char_inLine (by decide)) port_inLine))

private theorem userinfoAt_inLine : InLine userinfoAt :=
  .attempt (.noting (.andThen (chars_staysInLine (P := userinfoChars) (by decide)).lift
    (char_inLine (by decide))))

private theorem server_inLine : InLine server :=
  .always (.attempt (.notingFailure (.both userinfoAt_inLine hostport_inLine)))

private theorem authority_inLine : InLine authority :=
  .attempt (.noting (.orElse server_inLine regName_inLine))

private theorem absPath_inLine : InLine absPath :=
  .attempt (.noting (.andThen (char_inLine (by decide))
    (segment_staysInLine.bind fun _ => segments_staysInLine).lift))

private theorem netPath_inLine : InLine netPath :=
  .attempt (.noting (.andTry (.andThen (.andThen (char_inLine (by decide))
    (char_inLine (by decide))) authority_inLine) absPath_inLine))

private theorem relPath_inLine : InLine relPath :=
  .attempt (.noting (.andTry (classThenChars_staysInLine (P := relSegmentChars)
    (Q := relSegmentChars) (by decide) (by decide)).lift absPath_inLine))

private theorem uricPart_inLine (p : UriPart) : InLine (uricPart p) :=
  .noting (chars_staysInLine (P := uricChars) (by decide)).lift

private theorem questionQuery_inLine : InLine questionQuery :=
  .andThen (char_inLine (by decide)) (uricPart_inLine _)

private theorem hashFragment_inLine : InLine hashFragment :=
  .andThen (char_inLine (by decide)) (uricPart_inLine _)

private theorem hierPart_inLine : InLine hierPart :=
  .attempt (.both (.orElse netPath_inLine absPath_inLine) questionQuery_inLine)

private theorem relativeURI_inLine : InLine relativeURI :=
  .attempt (.both (.orElse (.orElse netPath_inLine absPath_inLine) relPath_inLine)
    questionQuery_inLine)

private theorem absoluteURI_inLine : InLine absoluteURI :=
  .attempt (.andThen scheme_inLine (.andThen (.notingFailure (char_inLine (by decide)))
    (.orElse hierPart_inLine opaquePart_inLine)))

private theorem uriReference_inLine : InLine uriReference :=
  .attempt (.both (.orElse absoluteURI_inLine relativeURI_inLine) hashFragment_inLine)

private theorem requestUri_inLine : InLine requestUri := by
  intro pos front hfront
  obtain ⟨ok, pos', front', notes, hfront', heq⟩ := uriReference_inLine 0 front hfront
  cases ok with
  | false =>
      exact ⟨false, pos, front,
        .uri pos pos' false :: notes.map fun w => .part (w.shift pos), hfront, fun later => by
          simp [requestUri, heq]⟩
  | true =>
      refine ⟨true, pos + (front.length - front'.length), front',
        .uri pos pos' true :: notes.map fun w => .part (w.shift pos), hfront', fun later => ?_⟩
      simp [requestUri, heq, Cursor.to]
      omega

/-! ### The request line -/

private theorem matchUpper_staysInLine {pc : List UInt8} (hpc : http11Lf ∉ pc) :
    StaysInLine (matchUpper pc) := by
  have hlf : toUpper http11Lf = http11Lf := by decide
  intro front hfront
  induction pc generalizing front with
  | nil => exact ⟨true, front, List.suffix_refl front, fun later => rfl⟩
  | cons x pc ih =>
      rw [List.mem_cons, not_or] at hpc
      cases front with
      | nil => exact ⟨false, [], List.suffix_refl [], fun later => by
          simp [matchUpper, hlf, Ne.symm hpc.1]⟩
      | cons c front =>
          have hsuffix := List.suffix_cons c front
          by_cases hx : x = toUpper c
          · obtain ⟨ok, front', hsuffix', heq'⟩ := ih hpc.2 front (hfront.suffix hsuffix)
            exact ⟨ok, front', hsuffix'.trans hsuffix, fun later => by
              simpa [matchUpper, hx] using heq' later⟩
          · exact ⟨false, c :: front, List.suffix_refl _, fun later => by simp [matchUpper, hx]⟩

private theorem methodLoop_front {names : List String}
    (hnames : ∀ name ∈ names, http11Lf ∉ literal name) (i : Nat) (hfront : BeforeLf front) :
    (∀ later, methodLoop names i (front ++ http11Lf :: later) = none) ∨
      ∃ method front', BeforeLf front' ∧ ∀ later,
        methodLoop names i (front ++ http11Lf :: later) =
          some (method, front' ++ http11Lf :: later) := by
  induction names generalizing i front with
  | nil => exact .inl fun later => rfl
  | cons name names ih =>
      obtain ⟨ok, front₁, hsuffix₁, heq₁⟩ :=
        matchUpper_staysInLine (hnames name (by simp)) front hfront
      have hfront₁ := hfront.suffix hsuffix₁
      cases ok with
      | true => exact .inr ⟨i, front₁, hfront₁, fun later => by simp [methodLoop, heq₁]⟩
      | false =>
          have hrec :=
            ih (fun name' h => hnames name' (List.mem_cons_of_mem name h)) (i + 1) hfront₁
          simpa [methodLoop, heq₁] using hrec

theorem method_names : ∀ name ∈ http11MethodArray, http11Lf ∉ literal name := by decide +kernel

private theorem method_inLine : InLine method :=
  .find fun _ hfront => methodLoop_front method_names 0 hfront

private theorem versionNumbers_front (hfront : BeforeLf front) :
    (∀ later, versionNumbers (front ++ http11Lf :: later) = none) ∨
      ∃ version front', BeforeLf front' ∧ ∀ later,
        versionNumbers (front ++ http11Lf :: later) =
          some (version, front' ++ http11Lf :: later) := by
  have hname : http11Lf ∉ literal "HTTP/" := by decide +kernel
  obtain ⟨isHttp, front₁, hsuffix₁, heq₁⟩ := matchUpper_staysInLine hname front hfront
  have hsuffix₂ := (List.dropWhile_suffix digitChars).trans hsuffix₁
  obtain ⟨isDot, front₃, hsuffix₃, heq₃⟩ := isChar_staysInLine dot_ne_lf _ (hfront.suffix hsuffix₂)
  have hsuffix := ((List.dropWhile_suffix digitChars).trans hsuffix₃).trans hsuffix₂
  by_cases hok : (isHttp && !(front₁.takeWhile digitChars).isEmpty && isDot &&
      !(front₃.takeWhile digitChars).isEmpty) = true
  · refine .inr ⟨⟨number (front₁.takeWhile digitChars), number (front₃.takeWhile digitChars)⟩,
      front₃.dropWhile digitChars, hfront.suffix hsuffix, fun later => ?_⟩
    simp only [versionNumbers, heq₁, takeWhile_front digitChars_lf, dropWhile_front digitChars_lf,
      heq₃, hok, if_true]
  · refine .inl fun later => ?_
    simp only [versionNumbers, heq₁, takeWhile_front digitChars_lf, dropWhile_front digitChars_lf,
      heq₃, hok, Bool.false_eq_true, if_false]

private theorem version_inLine : InLine version := .find fun _ hfront => versionNumbers_front hfront

private theorem space_inLine : InLine space := (isChar_staysInLine (by decide)).lift

private theorem requestLineFront_inLine : InLine requestLineFront :=
  .andThen (.andThen (.andThen (.andThen method_inLine space_inLine) requestUri_inLine)
    space_inLine) version_inLine

private theorem crlf_front (front : List UInt8) :
    ∃ ok left, ∀ later, crlf (front ++ http11Lf :: later) = (ok, left ++ later) := by
  have hlf : ¬ http11Lf = http11Cr := by decide
  rcases front with _ | ⟨x, _ | ⟨y, front⟩⟩
  · refine ⟨false, [http11Lf], fun later => ?_⟩
    cases later <;> simp [crlf, hlf]
  · by_cases hx : x = http11Cr
    · exact ⟨true, [], fun later => by simp [crlf, hx]⟩
    · exact ⟨false, [x, http11Lf], fun later => by simp [crlf, hx]⟩
  · by_cases hxy : x = http11Cr ∧ y = http11Lf
    · exact ⟨true, front ++ [http11Lf], fun later => by simp [crlf, hxy]⟩
    · exact ⟨false, x :: y :: front ++ [http11Lf], fun later => by simp [crlf, hxy]⟩

/-- What the request line does is decided by the text up to an end of line. -/
theorem requestLine_front (line : List UInt8) :
    ∃ ok pos left notes, ∀ later, requestLine ⟨0, line ++ http11Cr :: http11Lf :: later⟩ =
      ⟨ok, ⟨pos, left ++ later⟩, notes⟩ := by
  have hline : BeforeLf (line ++ [http11Cr]) := by simp [BeforeLf]
  obtain ⟨ok, pos, front', notes, -, heq⟩ := requestLineFront_inLine 0 _ hline
  obtain ⟨isEnd, left, hleft⟩ := crlf_front front'
  simp only [List.append_assoc, List.singleton_append] at heq
  cases ok with
  | false =>
      refine ⟨false, 0, line ++ [http11Cr, http11Lf], notes, fun later => ?_⟩
      simp [requestLine, attempt, andThen, heq]
  | true =>
      cases isEnd with
      | false =>
          refine ⟨false, 0, line ++ [http11Cr, http11Lf], notes, fun later => ?_⟩
          simp [requestLine, attempt, andThen, heq, lift, hleft, Outcome.after]
      | true =>
          refine ⟨true, pos + (front'.length + 1 - left.length), left, notes, fun later => ?_⟩
          simp [requestLine, attempt, andThen, heq, lift, hleft, Outcome.after, Cursor.to]
          omega

end Httpaa.Text
