import Mathlib.Data.List.TakeWhile
import Httpaa.Uri.Refinement

/-!
# Hosts at the end of the text

A host may be followed by a delimiter or by nothing. The loops of `domainlabel` and `toplabel` look
back for a `-` only when they meet another character, and the one of `IPv4address` gives up when a
number ends with its first digit and the text with it. On every other host the end of the text is as
good as a delimiter.
-/

namespace Httpaa.Text

open Recogniser

variable {s l lab rest t start last a b : List UInt8} {x y z prev : UInt8} {k i n : Nat}
  {P : UInt8 → Bool}

/-- A character that is in no host. -/
def Foreign (z : UInt8) : Prop := labelChars z = false ∧ z ≠ ch '.'

private theorem Foreign.not_digit (hz : Foreign z) : digitChars z = false := by
  have hlabel := hz.1
  simp only [labelChars, alphanumChars, Bool.or_eq_false_iff] at hlabel
  exact hlabel.1.2

private theorem Foreign.not_alphanum (hz : Foreign z) : alphanumChars z = false := by
  have hlabel := hz.1
  simp only [labelChars, Bool.or_eq_false_iff] at hlabel
  exact hlabel.1

theorem Foreign.isChar (hz : Foreign z) : isChar (ch '.') (z :: t) = (false, z :: t) := by
  simp [Text.isChar, Ne.symm hz.2]

private theorem Foreign.isChar_append (hz : Foreign z) (s : List UInt8) :
    Text.isChar (ch '.') (s ++ z :: t) =
      ((Text.isChar (ch '.') s).1, (Text.isChar (ch '.') s).2 ++ z :: t) := by
  cases s with
  | nil => exact hz.isChar
  | cons x s => by_cases hx : ch '.' = x <;> simp [Text.isChar, hx]

/-! ### Labels -/

private theorem labelTail_foreign (hl : ∀ c ∈ l, labelChars c = true) (hx : labelChars x = false) :
    labelTail prev (l ++ x :: rest) =
      (decide (l.getLast?.getD prev ≠ ch '-'), x :: rest) := by
  induction l generalizing prev with
  | nil =>
      rw [List.nil_append, labelTail, if_neg (by simp [hx])]
      rfl
  | cons c l ih =>
      have hc := hl c (List.mem_cons_self ..)
      rw [List.cons_append, labelTail, if_pos hc, ih fun c' h => hl c' (List.mem_cons_of_mem _ h)]
      simp [List.getLast?_cons]

private theorem labelTail_end (hl : ∀ c ∈ l, labelChars c = true) :
    labelTail prev l = (true, []) := by
  induction l generalizing prev with
  | nil => rfl
  | cons c l ih =>
      rw [labelTail, if_pos (hl c (List.mem_cons_self ..)),
        ih fun c' h => hl c' (List.mem_cons_of_mem _ h)]

private theorem exists_labelChars (s : List UInt8) : ∃ l rest, s = l ++ rest ∧
    (∀ c ∈ l, labelChars c = true) ∧ ∀ c ∈ rest.head?, labelChars c = false := by
  refine ⟨s.takeWhile labelChars, s.dropWhile labelChars, List.takeWhile_append_dropWhile.symm,
    fun c hc => List.mem_takeWhile_imp hc, fun c hc => ?_⟩
  cases hdrop : s.dropWhile labelChars with
  | nil => simp [hdrop] at hc
  | cons x rest =>
      have hhead := List.head?_dropWhile_not labelChars s
      rw [hdrop] at hhead hc
      simp only [List.head?_cons, Option.mem_some_iff] at hhead hc
      subst hc
      simpa using hhead

/-- Letters, digits and dashes that start with a letter or a digit and do not end with a dash. -/
def IsLabel : List UInt8 → Prop
  | [] => False
  | y :: l => alphanumChars y = true ∧ (∀ c ∈ l, labelChars c = true) ∧
      l.getLast?.getD y ≠ ch '-'

/-- The same, but with a dash at the end. -/
def DashEnd : List UInt8 → Prop
  | [] => False
  | y :: l => alphanumChars y = true ∧ (∀ c ∈ l, labelChars c = true) ∧
      l.getLast?.getD y = ch '-'

private theorem alphanum_of_alpha (hy : alphaChars y = true) : alphanumChars y = true := by
  simp [alphanumChars, hy]

theorem IsLabel.label {r : List UInt8} (hlab : IsLabel lab) (hx : labelChars x = false) :
    label P (lab ++ x :: r) =
      if P (lab.headD 0) then (true, x :: r) else (false, lab ++ x :: r) := by
  cases lab with
  | nil => exact absurd hlab id
  | cons y l =>
      obtain ⟨-, hl, hlast⟩ := hlab
      by_cases hy : P y = true <;> simp [Text.label, labelTail_foreign hl hx, hy, hlast]

private theorem label_ok (hok : (label alphanumChars s).1 = true) : (label alphanumChars s).2 = [] ∨
    ∃ lab x rest, IsLabel lab ∧ labelChars x = false ∧ s = lab ++ x :: rest ∧
      (label alphanumChars s).2 = x :: rest := by
  cases s with
  | nil => exact .inl rfl
  | cons y s =>
      obtain ⟨l, rest, rfl, hl, hrest⟩ := exists_labelChars s
      have hy : alphanumChars y = true := by
        by_contra hy
        simp [label, hy] at hok
      cases rest with
      | nil => exact .inl (by simp [label, hy, labelTail_end hl])
      | cons x rest =>
          have hx := hrest x rfl
          rw [label, labelTail_foreign hl hx] at hok ⊢
          have hlast : l.getLast?.getD y ≠ ch '-' := by
            intro hdash
            simp [hdash] at hok
          exact .inr ⟨y :: l, x, rest, ⟨hy, hl, hlast⟩, hx, rfl, by simp [hy, hlast]⟩

/-- Labels with a dash at the end are refused in front of another character, and taken at the
end. -/
theorem DashEnd.label_append {r : List UInt8} (hlast : DashEnd last) (hx : labelChars x = false) :
    label P (last ++ x :: r) = (false, last ++ x :: r) := by
  cases last with
  | nil => exact absurd hlast id
  | cons y l =>
      obtain ⟨-, hl, hdash⟩ := hlast
      simp [Text.label, labelTail_foreign hl hx, hdash]

private theorem DashEnd.label_end (hlast : DashEnd last) :
    label P last = if P (last.headD 0) then (true, []) else (false, last) := by
  cases last with
  | nil => exact absurd hlast id
  | cons y l =>
      obtain ⟨-, hl, -⟩ := hlast
      by_cases hy : P y = true <;> simp [Text.label, labelTail_end hl, hy]

private theorem label_foreign (hfirst : ∀ c, P c = true → alphanumChars c = true) (hs : ¬ DashEnd s)
    (hz : Foreign z) :
    label P (s ++ z :: t) = ((label P s).1, (label P s).2 ++ z :: t) := by
  cases s with
  | nil =>
      have hfalse : P z = false := by
        by_contra h
        have hz' := hz.not_alphanum
        rw [hfirst z (by simpa using h)] at hz'
        cases hz'
      simp [Text.label, hfalse]
  | cons y s =>
      obtain ⟨l, rest, rfl, hl, hrest⟩ := exists_labelChars s
      by_cases hy : P y = true
      · cases rest with
        | nil =>
            have hdash : l.getLast?.getD y ≠ ch '-' := fun h =>
              hs (by rw [List.append_nil]; exact ⟨hfirst y hy, hl, h⟩)
            simp [Text.label, hy, labelTail_foreign hl hz.1, labelTail_end hl, hdash]
        | cons x rest =>
            have hx := hrest x rfl
            rw [List.cons_append, List.append_assoc, List.cons_append, Text.label, Text.label,
              labelTail_foreign hl hx, labelTail_foreign hl hx]
            by_cases hdash : l.getLast?.getD y = ch '-' <;> simp [hy, hdash]
      · simp [Text.label, hy]

/-! ### Host names -/

/-- From `s` on there are labels, each with its dot, and then `last`, which ends with a dash. The
label in front of `last` starts at `start'`; if there is none, that is `start`. -/
inductive Dashed : List UInt8 → List UInt8 → List UInt8 → List UInt8 → Prop
  | here {start s : List UInt8} : DashEnd s → Dashed start s start s
  | label {start lab s start' last : List UInt8} : IsLabel lab →
      Dashed (lab ++ ch '.' :: s) s start' last → Dashed start (lab ++ ch '.' :: s) start' last

private theorem not_dashEnd_of_mem (hx : labelChars x = false) (hmem : x ∈ s) : ¬ DashEnd s := by
  cases s with
  | nil => cases hmem
  | cons y l =>
      rintro ⟨hy, hl, -⟩
      rcases List.mem_cons.mp hmem with rfl | hmem
      · simp [labelChars, hy] at hx
      · rw [hl x hmem] at hx
        cases hx

private theorem lastLabel_label (hlab : IsLabel lab) :
    lastLabel (lab ++ ch '.' :: s) start = lastLabel s (lab ++ ch '.' :: s) := by
  have hhead : alphanumChars (lab.headD 0) = true := by
    cases lab with
    | nil => exact absurd hlab id
    | cons y l => exact hlab.1
  have hlabel := hlab.label (P := alphanumChars) (r := s)
    (show labelChars (ch '.') = false by decide)
  rw [if_pos hhead] at hlabel
  rw [lastLabel, hlabel, if_pos rfl, dif_pos (by simp [isChar])]
  simp [isChar]

/-- Behind labels, a last label with a dash at the end is the last one only at the end. -/
theorem Dashed.lastLabel (hdashed : Dashed start s start' last) (hz : Foreign z) :
    lastLabel s start = last ∧
      lastLabel (s ++ z :: t) (start ++ z :: t) = start' ++ z :: t := by
  induction hdashed with
  | @here start s hlast =>
      have hend := hlast.label_end (P := alphanumChars)
      have happend := hlast.label_append (P := alphanumChars) (r := t) hz.1
      have hhead : alphanumChars (s.headD 0) = true := by
        cases s with
        | nil => exact absurd hlast id
        | cons y l => exact hlast.1
      rw [if_pos hhead] at hend
      refine ⟨?_, ?_⟩
      · rw [Text.lastLabel, hend, if_pos rfl, dif_neg (by simp [isChar])]
      · rw [Text.lastLabel, happend, if_neg (by simp)]
  | @label start lab s start' last hlab _ ih =>
      rw [List.append_assoc, List.cons_append, lastLabel_label hlab, lastLabel_label hlab]
      simpa using ih

private theorem lastLabel_foreign (hs : ∀ start' last, ¬ Dashed start s start' last)
    (hstart : start = s ∨ ¬ DashEnd start) (hz : Foreign z) :
    lastLabel (s ++ z :: t) (start ++ z :: t) = lastLabel s start ++ z :: t ∧
      ¬ DashEnd (lastLabel s start) := by
  fun_induction lastLabel s start with
  | case1 s start hok hdot ih =>
      rcases label_ok hok with hnil | ⟨lab, x, rest, hlab, hx, rfl, hrest⟩
      · simp [hnil, isChar] at hdot
      · rw [hrest] at hdot ih ⊢
        have hxdot : x = ch '.' := by
          by_contra hne
          simp [isChar, Ne.symm hne] at hdot
        subst hxdot
        have htail : isChar (ch '.') (ch '.' :: rest) = (true, rest) := by simp [isChar]
        rw [htail] at ih ⊢
        have hmore := ih (fun start' last h => hs start' last (.label hlab h))
          (.inr (not_dashEnd_of_mem hx (by simp)))
        rw [List.append_assoc, List.cons_append, lastLabel_label hlab]
        simpa using hmore
  | case2 s start hok hdot =>
      have hdash : ¬ DashEnd s := fun h => hs _ _ (.here h)
      have hlabel := label_foreign (P := alphanumChars) (t := t) (fun _ h => h) hdash hz
      refine ⟨?_, hdash⟩
      rw [lastLabel, hlabel, if_pos hok, dif_neg (by simpa [hz.isChar_append] using hdot)]
  | case3 s start hok =>
      have hdash : ¬ DashEnd s := fun h => hs _ _ (.here h)
      have hlabel := label_foreign (P := alphanumChars) (t := t) (fun _ h => h) hdash hz
      refine ⟨by rw [lastLabel, hlabel, if_neg hok], ?_⟩
      rcases hstart with rfl | hstart
      · exact hdash
      · exact hstart

/-! ### Addresses -/

private theorem dropWhile_foreign (hz : Foreign z) (s : List UInt8) :
    (s ++ z :: t).dropWhile digitChars = s.dropWhile digitChars ++ z :: t := by
  induction s with
  | nil => simp [hz.not_digit]
  | cons y s ih =>
      by_cases hy : digitChars y = true
      · simpa [hy] using ih
      · simp [hy]

/-- From the `i`-th number on, the address ends with the text, right behind the first digit of its
last number. -/
inductive AddressCut : Nat → List UInt8 → Prop
  | last {y : UInt8} : digitChars y = true → AddressCut 3 [y]
  | number {i : Nat} {digits s : List UInt8} : i < 3 → digits ≠ [] →
      (∀ c ∈ digits, digitChars c = true) → AddressCut (i + 1) s →
      AddressCut i (digits ++ ch '.' :: s)

private theorem ipv4Loop_number {digits : List UInt8} (hne : digits ≠ [])
    (hdigits : ∀ c ∈ digits, digitChars c = true) (hi : i < 3) :
    ipv4Loop (k + 1) i (digits ++ ch '.' :: s) n = ipv4Loop k (i + 1) s (n + 1) := by
  obtain ⟨y, l, rfl⟩ := List.exists_cons_of_ne_nil hne
  have hdrop : (l ++ ch '.' :: s).dropWhile digitChars = ch '.' :: s := by
    rw [List.dropWhile_append_of_pos fun c hc => hdigits c (List.mem_cons_of_mem _ hc)]
    simp [show digitChars (ch '.') = false by decide]
  simp [ipv4Loop, hdigits y (List.mem_cons_self ..), hdrop, hi, isChar]

/-- Such an address is one number short at the end, and complete in front of a foreign character. -/
theorem AddressCut.ipv4Loop (hcut : AddressCut i s) (hz : Foreign z) (hturns : i + k = 4)
    (n : Nat) :
    ipv4Loop k i s n = (n + (3 - i), []) ∧
      ipv4Loop k i (s ++ z :: t) n = (n + (4 - i), z :: t) := by
  induction hcut generalizing k n with
  | @last y hy =>
      obtain rfl : k = 1 := by omega
      simp [Text.ipv4Loop, hy, hz.not_digit]
  | @number i digits s hi hne hdigits _ ih =>
      obtain ⟨k, rfl⟩ : ∃ k', k = k' + 1 := ⟨k - 1, by omega⟩
      obtain ⟨halone, hmore⟩ := ih (k := k) (by omega) (n + 1)
      rw [List.append_assoc, List.cons_append, ipv4Loop_number hne hdigits hi,
        ipv4Loop_number hne hdigits hi, halone, hmore]
      simp only [Prod.mk.injEq, and_true]
      omega

theorem AddressCut.head (hcut : AddressCut i s) : digitChars (s.headD 0) = true := by
  cases hcut with
  | last hy => exact hy
  | number _ hne hdigits _ =>
      obtain ⟨y, l, rfl⟩ := List.exists_cons_of_ne_nil hne
      exact hdigits y (List.mem_cons_self ..)

private theorem ipv4Loop_foreign (hcut : ¬ AddressCut i s) (hz : Foreign z) (hturns : i + k = 4)
    (n : Nat) : ipv4Loop k i (s ++ z :: t) n =
      ((ipv4Loop k i s n).1, (ipv4Loop k i s n).2 ++ z :: t) := by
  induction k generalizing i s n with
  | zero => rfl
  | succ k ih =>
      cases s with
      | nil =>
          have hrec := ih (i := i + 1) (s := []) (fun h => absurd h.head (by decide)) (by omega) n
          have hzero : digitChars 0 = false := by decide
          simpa [ipv4Loop, hz.not_digit, hzero] using hrec
      | cons y l =>
          by_cases hy : digitChars y = true
          · cases l with
            | nil =>
                have hi : i < 3 := by
                  by_contra hi
                  obtain rfl : i = 3 := by omega
                  exact hcut (.last hy)
                simp [ipv4Loop, hy, hz.not_digit, hi, hz.isChar]
            | cons x l =>
                have hdrop := dropWhile_foreign (t := t) hz (x :: l)
                rw [List.cons_append] at hdrop
                by_cases hi : i < 3
                · by_cases hdot : (isChar (ch '.') ((x :: l).dropWhile digitChars)).1 = true
                  · obtain ⟨rest, hrest⟩ : ∃ rest, (x :: l).dropWhile digitChars =
                      ch '.' :: rest := by
                      cases hl : (x :: l).dropWhile digitChars with
                      | nil => simp [hl, isChar] at hdot
                      | cons w rest =>
                          by_cases hw : ch '.' = w
                          · exact ⟨rest, by rw [hw]⟩
                          · simp [hl, isChar, hw] at hdot
                    have hsplit : y :: x :: l =
                        (y :: (x :: l).takeWhile digitChars) ++ ch '.' :: rest := by
                      rw [List.cons_append, ← hrest, List.takeWhile_append_dropWhile]
                    have hrec := ih (i := i + 1) (s := rest) (fun h => hcut (by
                      rw [hsplit]
                      refine .number hi (by simp) ?_ h
                      intro c hc
                      rcases List.mem_cons.mp hc with rfl | hc
                      · exact hy
                      · exact List.mem_takeWhile_imp hc)) (by omega) (n + 1)
                    have hchar (t : List UInt8) : isChar (ch '.') (ch '.' :: t) = (true, t) := by
                      simp [isChar]
                    rw [List.cons_append, List.cons_append]
                    simp [ipv4Loop, hy, hdrop, hrest, hi, hchar, hrec]
                  · rw [List.cons_append, List.cons_append]
                    simp [ipv4Loop, hy, hdrop, hi, hdot, hz.isChar_append]
                · obtain rfl : k = 0 := by omega
                  rw [List.cons_append, List.cons_append]
                  simp [ipv4Loop, hy, hdrop, hi]
          · have hrec := ih (i := i + 1) (s := y :: l) (fun h => hy h.head) (by omega) n
            rw [List.cons_append] at hrec ⊢
            simpa [ipv4Loop, hy] using hrec

private theorem exists_number (hdigit : digitChars (s.headD 0) = true) :
    ∃ front, s = front ++ s.tail.dropWhile digitChars ∧ ∀ c ∈ front, digitChars c = true := by
  cases s with
  | nil => exact absurd hdigit (by decide)
  | cons y l =>
      refine ⟨y :: l.takeWhile digitChars, ?_, fun c hc => ?_⟩
      · rw [List.cons_append, List.tail_cons, List.takeWhile_append_dropWhile]
      · rcases List.mem_cons.mp hc with rfl | hc
        · exact hdigit
        · exact List.mem_takeWhile_imp hc

private theorem ipv4Loop_chars (k i : Nat) (s : List UInt8) (n : Nat) :
    ∃ front, s = front ++ (ipv4Loop k i s n).2 ∧
      ∀ c ∈ front, digitChars c = true ∨ c = ch '.' := by
  induction k generalizing i s n with
  | zero => exact ⟨[], rfl, by simp⟩
  | succ k ih =>
      rw [ipv4Loop]
      split
      · rename_i hdigit
        obtain ⟨front, hfront, hdigits⟩ := exists_number hdigit
        have hchars : ∀ c ∈ front, digitChars c = true ∨ c = ch '.' := fun c hc =>
          .inl (hdigits c hc)
        split
        · rename_i htail
          refine ⟨front, ?_, hchars⟩
          rw [htail] at hfront
          simpa using hfront
        · generalize s.tail.dropWhile digitChars = rest at hfront
          dsimp only
          split
          · split
            · rename_i hdot
              obtain ⟨front', hfront', hchars'⟩ := ih (i + 1) (isChar (ch '.') rest).2 (n + 1)
              have hrest : rest = ch '.' :: (isChar (ch '.') rest).2 := by
                cases rest with
                | nil => simp [isChar] at hdot
                | cons w rest =>
                    by_cases hw : ch '.' = w
                    · simp [isChar, hw]
                    · simp [isChar, hw] at hdot
              refine ⟨front ++ ch '.' :: front', ?_, ?_⟩
              · rw [List.append_assoc, List.cons_append, ← hfront', ← hrest]
                exact hfront
              · intro c hc
                rcases List.mem_append.mp hc with hc | hc
                · exact hchars c hc
                · rcases List.mem_cons.mp hc with rfl | hc
                  · exact .inr rfl
                  · exact hchars' c hc
            · exact ⟨front, hfront, hchars⟩
          · obtain ⟨front', hfront', hchars'⟩ := ih (i + 1) rest (n + 1)
            refine ⟨front ++ front', ?_, ?_⟩
            · rw [List.append_assoc, ← hfront']
              exact hfront
            · intro c hc
              rcases List.mem_append.mp hc with hc | hc
              · exact hchars c hc
              · exact hchars' c hc
      · exact ih (i + 1) s n

/-! ### Hosts -/

/-- What `host` does with the text. -/
def hostRun (s : List UInt8) : Bool × List UInt8 :=
  if (hostname s).1 then hostname s else ipv4address s

private theorem host_eq (c : Cursor UInt8) :
    (host c).ok = (hostRun c.rest).1 ∧ (host c).cursor = c.to (hostRun c.rest).2 := by
  have hfail : (hostname c.rest).1 = false → (hostname c.rest).2 = c.rest := by
    intro hfail
    by_cases htop : (label alphaChars (lastLabel c.rest c.rest)).1 = true
    · simp [hostname, htop] at hfail
    · simp [hostname, htop]
  have hfail' : (ipv4address c.rest).1 = false → (ipv4address c.rest).2 = c.rest := by
    intro hfail
    by_cases hfour : (ipv4Loop 4 0 c.rest 0).1 = 4
    · simp [ipv4address, hfour] at hfail
    · simp [ipv4address, hfour]
  by_cases hname : (hostname c.rest).1 = true
  · simp [host, attempt, noting, orElse, lift, hostRun, hname]
  · have hname' := hfail (by simpa using hname)
    by_cases haddress : (ipv4address c.rest).1 = true
    · simp [host, attempt, noting, orElse, lift, hostRun, hname, hname', haddress, Outcome.after,
        Cursor.to_self]
    · have haddress' := hfail' (by simpa using haddress)
      simp [host, attempt, noting, orElse, lift, hostRun, hname, haddress, haddress', hname',
        Outcome.after, Cursor.to_self]

/-- The last label ends with a dash and the text, where it or the label in front of it starts with a
letter. -/
def LabelCut (s : List UInt8) : Prop :=
  ∃ start last, Dashed s s start last ∧
    (alphaChars (start.headD 0) = true ∨ alphaChars (last.headD 0) = true)

/-- The hosts for which the end of the text is not a delimiter. -/
def HostCut (s : List UInt8) : Prop := LabelCut s ∨ AddressCut 0 s

private theorem hostname_foreign (hs : ∀ start last, ¬ Dashed s s start last) (hz : Foreign z) :
    hostname (s ++ z :: t) = ((hostname s).1, (hostname s).2 ++ z :: t) := by
  obtain ⟨hlast, hdash⟩ := lastLabel_foreign (t := t) hs (.inl rfl) hz
  have hlabel := label_foreign (P := alphaChars) (t := t) (fun _ => alphanum_of_alpha)
    hdash hz
  by_cases htop : (label alphaChars (lastLabel s s)).1 = true <;>
    simp [hostname, hlast, hlabel, htop, hz.isChar_append]

private theorem ipv4address_foreign (hcut : ¬ AddressCut 0 s) (hz : Foreign z) :
    ipv4address (s ++ z :: t) = ((ipv4address s).1, (ipv4address s).2 ++ z :: t) := by
  have hloop := ipv4Loop_foreign (t := t) hcut hz (k := 4) rfl 0
  by_cases hfour : (ipv4Loop 4 0 s 0).1 = 4 <;> simp [ipv4address, hloop, hfour]

private theorem ipv4address_chars (hok : (ipv4address s).1 = true) :
    ∃ front, s = front ++ (ipv4address s).2 ∧ ∀ c ∈ front, digitChars c = true ∨ c = ch '.' := by
  by_cases hfour : (ipv4Loop 4 0 s 0).1 = 4
  · simpa [ipv4address, hfour] using ipv4Loop_chars 4 0 s 0
  · simp [ipv4address, hfour] at hok

private theorem not_digitOrDot_of_alpha (hx : alphaChars x = true) :
    ¬ (digitChars x = true ∨ x = ch '.') := by
  simp only [alphaChars, lowalphaChars, upalphaChars, digitChars, Bool.or_eq_true, Bool.and_eq_true,
    decide_eq_true_eq, UInt8.le_iff_toNat_le, ← UInt8.toNat_inj] at hx ⊢
  simp only [ch] at hx ⊢
  simp at hx ⊢
  omega

theorem AddressCut.chars (hcut : AddressCut i s) : ∀ c ∈ s, digitChars c = true ∨ c = ch '.' := by
  induction hcut with
  | last hy => simpa using .inl hy
  | number _ _ hdigits _ ih =>
      intro c hc
      rcases List.mem_append.mp hc with hc | hc
      · exact .inl (hdigits c hc)
      · rcases List.mem_cons.mp hc with rfl | hc
        · exact .inr rfl
        · exact ih c hc

private theorem isLabel_digits (hne : l ≠ []) (hl : ∀ c ∈ l, digitChars c = true) : IsLabel l := by
  have hdigit : ∀ c, digitChars c = true → alphanumChars c = true := fun c hc => by
    simp [alphanumChars, hc]
  obtain ⟨y, l, rfl⟩ := List.exists_cons_of_ne_nil hne
  refine ⟨hdigit y (hl y (List.mem_cons_self ..)), fun c hc => ?_, fun hdash => ?_⟩
  · simp [labelChars, hdigit c (hl c (List.mem_cons_of_mem _ hc))]
  · have hmem : l.getLast?.getD y ∈ y :: l := by
      cases hlast : l.getLast? with
      | none => simp
      | some x => exact List.mem_cons_of_mem _ (List.mem_of_getLast? hlast)
    exact absurd (hdash ▸ hl _ hmem) (by decide)

theorem AddressCut.lastLabel (hcut : AddressCut i s) (start : List UInt8) :
    ∃ y, digitChars y = true ∧ lastLabel s start = [y] := by
  induction hcut generalizing start with
  | @last y hy =>
      have hlabel : label alphanumChars [y] = (true, []) := by
        simp [label, alphanumChars, hy, labelTail]
      exact ⟨y, hy, by rw [Text.lastLabel, hlabel, if_pos rfl, dif_neg (by simp [Text.isChar])]⟩
  | number _ hne hdigits _ ih =>
      rw [lastLabel_label (isLabel_digits hne hdigits)]
      exact ih _

theorem AddressCut.hostname (hcut : AddressCut i s) : hostname s = (false, s) := by
  obtain ⟨y, hy, hlast⟩ := hcut.lastLabel s
  have halpha : alphaChars y = false := by
    by_contra h
    exact not_digitOrDot_of_alpha (by simpa using h) (.inl hy)
  simp [Text.hostname, hlast, label, halpha]

/-- The last label is all there is, or there is one in front of it. -/
theorem Dashed.form (hdashed : Dashed start s start' last) : DashEnd last ∧
    (start' = start ∧ last = s ∨
      ∃ front lab, IsLabel lab ∧ start' = lab ++ ch '.' :: last ∧ s = front ++ start') := by
  induction hdashed with
  | here hlast => exact ⟨hlast, .inl ⟨rfl, rfl⟩⟩
  | @label start lab s start' last hlab _ ih =>
      obtain ⟨hlast, ⟨rfl, rfl⟩ | ⟨front, lab', hlab', hstart, rfl⟩⟩ := ih
      · exact ⟨hlast, .inr ⟨[], lab, hlab, rfl, rfl⟩⟩
      · exact ⟨hlast, .inr ⟨lab ++ ch '.' :: front, lab', hlab', hstart, by simp⟩⟩

private theorem DashEnd.dash_mem (hlast : DashEnd last) : ch '-' ∈ last := by
  cases last with
  | nil => exact absurd hlast id
  | cons y l =>
      obtain ⟨-, -, hdash⟩ := hlast
      rw [← hdash]
      cases hl : l.getLast? with
      | none => simp
      | some x => exact List.mem_cons_of_mem _ (List.mem_of_getLast? hl)

private theorem Dashed.hostname_end (hdashed : Dashed s s start last) (hz : Foreign z) :
    hostname s = if alphaChars (last.headD 0) then (true, []) else (false, s) := by
  have hlast := (hdashed.lastLabel (t := []) hz).1
  rw [hostname, hlast, hdashed.form.1.label_end]
  generalize alphaChars (last.headD 0) = alpha
  cases alpha <;> simp [isChar]

private theorem Dashed.hostname_foreign (hdashed : Dashed s s start last) (hz : Foreign z) :
    hostname (s ++ z :: t) =
      if start ≠ last ∧ alphaChars (start.headD 0) = true then (true, last ++ z :: t)
      else (false, s ++ z :: t) := by
  have hstart := (hdashed.lastLabel (t := t) hz).2
  obtain ⟨hlast, ⟨rfl, rfl⟩ | ⟨front, lab, hlab, rfl, -⟩⟩ := hdashed.form
  · simp [hostname, hstart, hlast.label_append hz.1]
  · have hlabel := hlab.label (P := alphaChars) (r := last ++ z :: t)
      (show labelChars (ch '.') = false by decide)
    have hhead : (lab ++ ch '.' :: last).headD 0 = lab.headD 0 := by
      cases lab with
      | nil => exact absurd hlab id
      | cons y l => rfl
    have hne : lab ++ ch '.' :: last ≠ last := fun h => by
      have hlength := congrArg List.length h
      simp only [List.length_append, List.length_cons] at hlength
      omega
    rw [hostname, hstart, List.append_assoc, List.cons_append, hlabel, hhead]
    generalize alphaChars (lab.headD 0) = alpha
    cases alpha <;> simp [hne, isChar]

private theorem Dashed.dash_mem (hdashed : Dashed start s start' last) : ch '-' ∈ s := by
  induction hdashed with
  | here hlast => exact hlast.dash_mem
  | label _ _ ih => simp [ih]

private theorem Dashed.not_addressCut (hdashed : Dashed start s start' last) : ¬ AddressCut i s :=
  fun hcut => absurd (hcut.chars _ hdashed.dash_mem) (by decide)

theorem HostCut.mem (hcut : HostCut s) : ch '-' ∈ s ∨ ch '.' ∈ s := by
  rcases hcut with ⟨start, last, hdashed, -⟩ | haddress
  · exact .inl hdashed.dash_mem
  · cases haddress with
    | number => simp

private theorem LabelCut.iff (hdashed : Dashed s s start last) (hz : Foreign z) :
    LabelCut s ↔ alphaChars (start.headD 0) = true ∨ alphaChars (last.headD 0) = true := by
  refine ⟨?_, fun h => ⟨start, last, hdashed, h⟩⟩
  rintro ⟨start', last', hdashed', h⟩
  obtain ⟨hlast, hstart⟩ := hdashed.lastLabel (t := []) hz
  obtain ⟨hlast', hstart'⟩ := hdashed'.lastLabel (t := []) hz
  rw [hlast] at hlast'
  rw [hstart] at hstart'
  rwa [List.append_cancel_right hstart', hlast']

private theorem hostRun_dashed (hdashed : Dashed s s start last) (hz : Foreign z) :
    hostRun (s ++ z :: t) = ((hostRun s).1, (hostRun s).2 ++ z :: t) ↔
      ¬ (alphaChars (start.headD 0) = true ∨ alphaChars (last.headD 0) = true) := by
  have hend := hdashed.hostname_end hz
  have hmore := hdashed.hostname_foreign (t := t) hz
  obtain ⟨hlast, hform⟩ := hdashed.form
  have hdash := hdashed.dash_mem
  have hnot : ¬ (digitChars (ch '-') = true ∨ ch '-' = ch '.') := by decide
  by_cases halpha : alphaChars (last.headD 0) = true
  · -- Alone, the host reaches the end.
    rw [if_pos halpha] at hend
    refine iff_of_false (fun heq => ?_) (not_not.mpr (.inr halpha))
    have hrun : hostRun s = (true, []) := by simp [hostRun, hend]
    rw [hrun, List.nil_append] at heq
    by_cases hname : start ≠ last ∧ alphaChars (start.headD 0) = true
    · rw [if_pos hname] at hmore
      rw [hostRun, hmore, if_pos rfl, Prod.mk.injEq] at heq
      have hnil : last = [] := by simpa using heq.2
      rw [hnil] at hlast
      exact hlast
    · rw [if_neg hname] at hmore
      rw [hostRun, hmore, if_neg (by simp)] at heq
      obtain ⟨front, hfront, hchars⟩ := ipv4address_chars (s := s ++ z :: t) (by rw [heq])
      rw [heq] at hfront
      rw [List.append_cancel_right hfront] at hdash
      exact hnot (hchars _ hdash)
  · rw [if_neg halpha] at hend
    have hrun : hostRun s = ipv4address s := by simp [hostRun, hend]
    by_cases hname : alphaChars (start.headD 0) = true
    · -- In front of a foreign character, the host ends with the label before.
      have hne : start ≠ last := fun h => halpha (h ▸ hname)
      rw [if_pos ⟨hne, hname⟩] at hmore
      refine iff_of_false (fun heq => ?_) (not_not.mpr (.inl hname))
      rw [hrun, hostRun, hmore, if_pos rfl, Prod.mk.injEq] at heq
      obtain ⟨front, hfront, hchars⟩ := ipv4address_chars heq.1.symm
      rw [← List.append_cancel_right heq.2] at hfront
      rcases hform with ⟨rfl, rfl⟩ | ⟨front', lab, hlab, rfl, rfl⟩
      · exact hne rfl
      · have hfront' : front = front' ++ (lab ++ [ch '.']) :=
          List.append_cancel_right (by rw [← hfront]; simp)
        cases lab with
        | nil => exact hlab
        | cons y l => exact not_digitOrDot_of_alpha hname (hchars y (by simp [hfront']))
    · rw [if_neg fun h => hname h.2] at hmore
      have hcut : ¬ AddressCut 0 s := hdashed.not_addressCut
      refine iff_of_true ?_ (not_or.mpr ⟨hname, halpha⟩)
      rw [hrun, hostRun, hmore, if_neg (by simp)]
      exact ipv4address_foreign hcut hz

private theorem hostRun_foreign (hz : Foreign z) :
    hostRun (s ++ z :: t) = ((hostRun s).1, (hostRun s).2 ++ z :: t) ↔ ¬ HostCut s := by
  by_cases hdashed : ∃ start last, Dashed s s start last
  · obtain ⟨start, last, hdashed⟩ := hdashed
    rw [hostRun_dashed hdashed hz, HostCut, LabelCut.iff hdashed hz,
      or_iff_left hdashed.not_addressCut]
  · have hnone : ∀ start last, ¬ Dashed s s start last := by simpa using hdashed
    have hname := hostname_foreign (t := t) hnone hz
    have hlabel : ¬ LabelCut s := fun ⟨start, last, h, _⟩ => hnone start last h
    rw [HostCut, or_iff_right hlabel]
    by_cases hcut : AddressCut 0 s
    · refine iff_of_false (fun heq => ?_) (not_not.mpr hcut)
      obtain ⟨halone, hbehind⟩ := hcut.ipv4Loop (t := t) hz (k := 4) rfl 0
      rw [hcut.hostname] at hname
      simp [hostRun, hname, hcut.hostname, ipv4address, halone, hbehind] at heq
    · refine iff_of_true ?_ hcut
      have haddress := ipv4address_foreign (t := t) hcut hz
      by_cases hok : (hostname s).1 = true <;> simp [hostRun, hname, hok, haddress]

private theorem hostRun_suffix (s : List UInt8) : (hostRun s).2 <:+ s := by
  rw [hostRun]
  split
  · exact hostname_suffix s
  · exact ipv4address_suffix s

private theorem hostRun_consumed (hmore : (hostRun (s ++ z :: t)).1 = (hostRun s).1) :
    s.length - (hostRun s).2.length =
        (s ++ z :: t).length - (hostRun (s ++ z :: t)).2.length ↔
      hostRun (s ++ z :: t) = ((hostRun s).1, (hostRun s).2 ++ z :: t) := by
  have hle := (hostRun_suffix s).length_le
  have hle' := (hostRun_suffix (s ++ z :: t)).length_le
  have hsuffix : (hostRun s).2 ++ z :: t <:+ s ++ z :: t :=
    List.suffix_append_self_iff.mpr (hostRun_suffix s)
  refine ⟨fun hlength => ?_, fun heq => by simp only [heq, List.length_append]; omega⟩
  have hrest := List.suffix_of_suffix_length_le (hostRun_suffix _) hsuffix
    (by simp only [List.length_append, List.length_cons] at hlength hle' ⊢; omega)
  refine Prod.ext hmore (hrest.eq_of_length ?_)
  simp only [List.length_append, List.length_cons] at hlength hle' ⊢
  omega

end Httpaa.Text

namespace Httpaa

open Recogniser Text

variable {h₁ h₂ : Heap} {u₁ u₂ : Uriaa} {s t : List UInt8} {z : UInt8} {pos₁ pos₂ : Nat}

/-- `host` reports the same from the cursors of the two references, and moves them equally far. -/
def HostsAlike (h₁ : Heap) (u₁ : Uriaa) (h₂ : Heap) (u₂ : Uriaa) : Prop :=
  ∃ ok u₁' u₂', host h₁ u₁ = some (ok, u₁') ∧ host h₂ u₂ = some (ok, u₂') ∧
    u₁'.uri.readPos - u₁.uri.readPos = u₂'.uri.readPos - u₂.uri.readPos

/-- The end of the text is as good as a delimiter exactly where the host is not one of those that
the loops cut. -/
theorem host_atEnd (hz : Foreign z) (hread₁ : u₁.uri.readPos = pos₁)
    (hu₁ : u₁.Shows h₁ ⟨pos₁, s⟩) (hread₂ : u₂.uri.readPos = pos₂)
    (hu₂ : u₂.Shows h₂ ⟨pos₂, s ++ z :: t⟩) :
    HostsAlike h₁ u₁ h₂ u₂ ↔ ¬ HostCut s := by
  have hrun₁ := host_implements u₁ _ hu₁
  have hrun₂ := host_implements u₂ _ hu₂
  obtain ⟨hok₁, hcursor₁⟩ := host_eq (⟨pos₁, s⟩ : Cursor UInt8)
  obtain ⟨hok₂, hcursor₂⟩ := host_eq (⟨pos₂, s ++ z :: t⟩ : Cursor UInt8)
  rw [show u₁.rewind pos₁ = u₁ by rw [← hread₁]; rfl] at hrun₁
  rw [show u₂.rewind pos₂ = u₂ by rw [← hread₂]; rfl] at hrun₂
  dsimp only at hok₁ hok₂ hcursor₁ hcursor₂
  rw [← hostRun_foreign (t := t) hz]
  constructor
  · rintro ⟨ok, u₁', u₂', h₁', h₂', hpos⟩
    rw [hrun₁, Option.some.injEq, Prod.mk.injEq] at h₁'
    rw [hrun₂, Option.some.injEq, Prod.mk.injEq] at h₂'
    obtain ⟨hok₁', rfl⟩ := h₁'
    obtain ⟨hok₂', rfl⟩ := h₂'
    refine (hostRun_consumed (by rw [← hok₁, ← hok₂, hok₁', hok₂'])).mp ?_
    simpa [hcursor₁, hcursor₂, hread₁, hread₂, Cursor.to] using hpos
  · intro heq
    have hsame : (hostRun (s ++ z :: t)).1 = (hostRun s).1 := by rw [heq]
    rw [hok₂, hsame, ← hok₁] at hrun₂
    refine ⟨_, _, _, hrun₁, hrun₂, ?_⟩
    have hlength := (hostRun_consumed hsame).mpr heq
    simpa [hcursor₁, hcursor₂, hread₁, hread₂, Cursor.to] using hlength

theorem host_atEnd_letter :
    HostsAlike (.ofText [ch 'a', ch '1']) { uri := .ofText 0 2 }
      (.ofText [ch 'a', ch '1', ch '/']) { uri := .ofText 0 3 } :=
  (host_atEnd (s := [ch 'a', ch '1']) (t := []) (z := ch '/') ⟨by decide, by decide⟩
    (show _ = 0 from rfl) ⟨by decide, by decide⟩ (show _ = 0 from rfl) ⟨by decide, by decide⟩).mpr
    fun hcut => absurd hcut.mem (by decide)

/-- The host `a-` is taken at the end of the text, and refused in front of a `/`. -/
theorem host_dashAtEnd : ¬ ∀ (h₁ h₂ : Heap) (u₁ u₂ : Uriaa) (s t : List UInt8) (z : UInt8)
    (pos₁ pos₂ : Nat), Foreign z → u₁.uri.readPos = pos₁ → u₁.Shows h₁ ⟨pos₁, s⟩ →
      u₂.uri.readPos = pos₂ → u₂.Shows h₂ ⟨pos₂, s ++ z :: t⟩ → HostsAlike h₁ u₁ h₂ u₂ := by
  intro hclaim
  obtain ⟨ok, u₁', u₂', hrun₁, hrun₂, -⟩ := hclaim (.ofText [ch 'a', ch '-'])
    (.ofText [ch 'a', ch '-', ch '/']) { uri := .ofText 0 2 } { uri := .ofText 0 3 }
    [ch 'a', ch '-'] [] (ch '/') 0 0 ⟨by decide, by decide⟩ rfl ⟨by decide, by decide⟩ rfl
    ⟨by decide, by decide⟩
  have hend : (host (.ofText [ch 'a', ch '-']) { uri := .ofText 0 2 }).map Prod.fst =
      some true := rfl
  have hmore : (host (.ofText [ch 'a', ch '-', ch '/']) { uri := .ofText 0 3 }).map Prod.fst =
      some false := rfl
  rw [hrun₁, Option.map_some, Option.some.injEq] at hend
  rw [hrun₂, Option.map_some, Option.some.injEq] at hmore
  exact Bool.noConfusion (hend.symm.trans hmore)

end Httpaa
