import Httpaa.Uri.Grammar

/-!
# The productions of the source follow those on texts

Each function of the source, run on a string that shows a cursor, leaves the read position where the
recogniser on texts leaves the cursor, and makes the assignments that the recogniser notes. So it
ends, and reads no character outside the text.
-/

namespace Httpaa

open Recogniser Stringaa

variable {h : Heap}

/-! ### Loops over characters -/

theorem escaped_follows : Follows h (escaped h) Text.escaped := by
  rintro s ⟨pos, rest⟩ hs
  rcases rest with _ | ⟨x, _ | ⟨y, _ | ⟨z, rest⟩⟩⟩
  · have hzero : ¬ (0 : UInt8) = ch '%' := by decide
    simp [escaped, hs.getChar, Text.escaped, Cursor.to, hzero]
  · by_cases hx : x = ch '%' <;> simp [escaped, hs.getChar, hs.next, Text.escaped, Cursor.to, hx]
  · have hs₁ : s.Shows h ⟨pos + 1, [y]⟩ := hs.reaches ⟨[x], rfl, rfl⟩
    by_cases hx : x = ch '%'
    · by_cases hy : hexChars y = true <;>
        simp [escaped, hs.getChar, hs.next, hs₁.getChar, hs₁.next, Text.escaped, Cursor.to, hx]
    · simp [escaped, hs.getChar, Text.escaped, Cursor.to, hx]
  · have hs₁ : s.Shows h ⟨pos + 1, y :: z :: rest⟩ := hs.reaches ⟨[x], rfl, rfl⟩
    have hs₂ : s.Shows h ⟨pos + 2, z :: rest⟩ := hs.reaches ⟨[x, y], rfl, rfl⟩
    by_cases hx : x = ch '%'
    · by_cases hy : hexChars y = true <;> by_cases hz : hexChars z = true <;>
        simp [escaped, hs.getChar, hs.next, hs₁.getChar, hs₁.next, hs₂.getChar, hs₂.next,
          Text.escaped, Cursor.to, hx, hy, hz]
      congr 1
      omega
    · simp [escaped, hs.getChar, Text.escaped, Cursor.to, hx]

private theorem inClass_follows {P : UInt8 → Bool} (hP : P 0 = false) :
    Follows h (inClass h P) (Text.inClass P) := by
  rintro s ⟨pos, rest⟩ hs
  have hescaped := escaped_follows s ⟨pos, rest⟩ hs
  cases rest with
  | nil =>
      have hzero : Text.escaped [] = (false, []) := rfl
      simpa [inClass, hs.getChar, hP, hzero, Text.inClass] using hescaped
  | cons x rest =>
      by_cases hx : P x = true
      · simp [inClass, hs.getChar, Text.inClass, hx, Cursor.to]
      · simpa [inClass, hs.getChar, Text.inClass, hx] using hescaped

theorem Text.chars_nil (P : UInt8 → Bool) : Text.chars P [] = [] := by
  rw [Text.chars]
  rfl

private theorem tail_eq_nil {a : List UInt8} (h : ¬ 1 < a.length) : a.tail = [] := by
  rcases a with _ | ⟨x, _ | ⟨y, a⟩⟩
  · rfl
  · rfl
  · simp at h

private theorem charsLoop_eq {P : UInt8 → Bool} (hP : P 0 = false) (fuel : Nat) {s : Stringaa}
    {c : Cursor UInt8} {a : List UInt8} (hs : s.Shows h c) (ha : a <:+ c.rest)
    (hfuel : a.length < fuel) :
    charsLoop h P fuel (s.seek (c.to a).pos) = some (s.seek (c.to (Text.chars P a)).pos) := by
  induction fuel generalizing a with
  | zero => cases hfuel
  | succ fuel ih =>
      have hclass := (inClass_follows hP).to (Text.inClass_suffix P) hs ha
      have hsuffix := (Text.inClass_suffix P a).trans ha
      have hnext := hs.next_to hsuffix
      rw [Text.chars]
      by_cases hin : (Text.inClass P a).1 = true
      · rw [dif_pos hin]
        by_cases hmore : 1 < (Text.inClass P a).2.length
        · have hle := (Text.inClass_suffix P a).length_le
          have hrec := ih ((List.tail_suffix _).trans hsuffix) (by
            rw [List.length_tail]
            omega)
          simp [charsLoop, hclass, hin, hnext, hmore, hrec]
        · simp [charsLoop, hclass, hin, hnext, hmore, tail_eq_nil hmore, Text.chars_nil]
      · rw [dif_neg hin]
        simp [charsLoop, hclass, hin]

private theorem runLoop_eq {P : UInt8 → Bool} (hP : P 0 = false) (fuel : Nat) {s : Stringaa}
    {c : Cursor UInt8} {a : List UInt8} (hs : s.Shows h c) (ha : a <:+ c.rest)
    (hfuel : a.length < fuel) :
    runLoop h P fuel (s.seek (c.to a).pos) = some (s.seek (c.to (a.dropWhile P)).pos) := by
  induction fuel generalizing a with
  | zero => cases hfuel
  | succ fuel ih =>
      have hchar := hs.getChar_to ha
      have hnext := hs.next_to ha
      rcases a with _ | ⟨x, _ | ⟨y, a⟩⟩
      · simp [runLoop, hchar, hP]
      · by_cases hx : P x = true <;> simp [runLoop, hchar, hx, hnext]
      · by_cases hx : P x = true
        · have hrec := ih ((List.suffix_cons x _).trans ha) (by
            simp only [List.length_cons] at hfuel ⊢
            omega)
          simp [runLoop, hchar, hx, hnext, hrec]
        · simp [runLoop, hchar, hx]

/-! ### What a production leaves -/

/-- The text of the reference shows the cursor. -/
def Uriaa.Shows (h : Heap) (u : Uriaa) (c : Cursor UInt8) : Prop := u.uri.Shows h c

/-- The reference after the outcome: its notes carried out, its cursor in the text. -/
def Uriaa.left (u : Uriaa) (r : Outcome UInt8 UriWrite) : Uriaa :=
  (u.writeAll r.notes).rewind r.cursor.pos

/-- A production of the source does what the one on texts does. -/
def Implements (h : Heap) (f : Uriaa → Option (Bool × Uriaa)) (p : Text.Production) : Prop :=
  ∀ (u : Uriaa) (c : Cursor UInt8), u.Shows h c →
    f (u.rewind c.pos) = some ((p c).ok, u.left (p c))

namespace Uriaa

variable {u : Uriaa} {c c' : Cursor UInt8}

@[simp] theorem rewind_rewind (u : Uriaa) (m n : Nat) : (u.rewind m).rewind n = u.rewind n := rfl

@[simp] theorem rewind_readPos (u : Uriaa) (n : Nat) : (u.rewind n).uri.readPos = n := rfl

@[simp] theorem rewind_uri (u : Uriaa) (n : Nat) : (u.rewind n).uri = u.uri.seek n := rfl

@[simp] theorem setPart_rewind (u : Uriaa) (p : UriPart) (n pos size : Nat) :
    (u.rewind n).setPart p pos size = (u.setPart p pos size).rewind n := rfl

@[simp] theorem unsetPart_rewind (u : Uriaa) (p : UriPart) (n : Nat) :
    (u.rewind n).unsetPart p = (u.unsetPart p).rewind n := rfl

@[simp] theorem with_seek (u : Uriaa) (n : Nat) : { u with uri := u.uri.seek n } = u.rewind n := rfl

@[simp] theorem with_rewind_seek (u : Uriaa) (m n : Nat) :
    { u.rewind m with uri := u.uri.seek n } = u.rewind n := rfl

@[simp] theorem write_uri (u : Uriaa) (w : UriWrite) : (u.write w).uri = u.uri := by
  cases w <;> rfl

@[simp] theorem writeAll_uri (u : Uriaa) (writes : List UriWrite) :
    (u.writeAll writes).uri = u.uri := by
  induction writes generalizing u with
  | nil => rfl
  | cons w writes ih => exact (ih (u.write w)).trans (write_uri u w)

theorem writeAll_append (u : Uriaa) (first second : List UriWrite) :
    u.writeAll (first ++ second) = (u.writeAll first).writeAll second := by
  simp [writeAll]

private theorem left_after (u : Uriaa) (r : Outcome UInt8 UriWrite) (notes : List UriWrite) :
    u.left (r.after notes) = (u.writeAll notes).left r := by
  simp [left, Outcome.after, writeAll_append]

@[simp] theorem left_readPos (u : Uriaa) (r : Outcome UInt8 UriWrite) :
    (u.left r).uri.readPos = r.cursor.pos := rfl

theorem Shows.after {h : Heap} {p : Text.Production} (hu : u.Shows h c) (hp : Advances p) :
    (u.writeAll (p c).notes).Shows h (p c).cursor := by
  rw [Shows, writeAll_uri]
  exact Stringaa.Shows.reaches hu (hp c)

end Uriaa

section Combinators

variable {f g : Uriaa → Option (Bool × Uriaa)} {p q : Text.Production} {u : Uriaa}
  {c : Cursor UInt8}

theorem Implements.next (hg : Implements h g q) (hp : Advances p) (hu : u.Shows h c) :
    g (u.left (p c)) =
      some ((q (p c).cursor).ok, u.left ((q (p c).cursor).after (p c).notes)) := by
  rw [Uriaa.left_after]
  exact hg _ _ (hu.after hp)

theorem Implements.whenOk (hg : Implements h g q) (hp : Advances p) (hu : u.Shows h c) :
    (u.left (p c)).whenDo (p c).ok g = some ((andThen p q c).ok, u.left (andThen p q c)) := by
  by_cases hok : (p c).ok = true
  · simp [Uriaa.whenDo, andThen, hok, hg.next hp hu, Outcome.after]
  · simp [Uriaa.whenDo, andThen, hok]

theorem Implements.whenNot (hg : Implements h g q) (hp : Advances p) (hu : u.Shows h c) :
    (u.left (p c)).whenDo (!(p c).ok) g =
      some (!(p c).ok && (orElse p q c).ok, u.left (orElse p q c)) := by
  by_cases hok : (p c).ok = true
  · simp [Uriaa.whenDo, orElse, hok]
  · simp [Uriaa.whenDo, orElse, hok, hg.next hp hu, Outcome.after]

private theorem conclude_set (p : Text.Production) (part : UriPart) (u : Uriaa) (c : Cursor UInt8) :
    (if (p c).ok = true then some (true, (u.left (p c)).setPart part c.pos
        ((u.left (p c)).uri.readPos - c.pos))
      else some (false, (u.left (p c)).rewind c.pos)) =
      some ((attempt (noting (.slice part) p) c).ok,
        u.left (attempt (noting (.slice part) p) c)) := by
  by_cases hok : (p c).ok = true
  · simp [attempt, noting, hok, Uriaa.left, Uriaa.writeAll, Uriaa.write, UriWrite.slice]
  · simp [attempt, noting, hok, Uriaa.left]

private theorem conclude_noting (p : Text.Production) (part : UriPart) (u : Uriaa)
    (c : Cursor UInt8) :
    (if (p c).ok = true then some (true, (u.left (p c)).setPart part c.pos
        ((u.left (p c)).uri.readPos - c.pos))
      else some (false, u.left (p c))) =
      some ((noting (.slice part) p c).ok, u.left (noting (.slice part) p c)) := by
  by_cases hok : (p c).ok = true
  · simp [noting, hok, Uriaa.left, Uriaa.writeAll, Uriaa.write, UriWrite.slice]
  · simp [noting, hok, Uriaa.left]

private theorem conclude_attempt (p : Text.Production) (u : Uriaa) (c : Cursor UInt8) :
    (if (p c).ok = true then some (true, u.left (p c))
      else some (false, (u.left (p c)).rewind c.pos)) =
      some ((attempt p c).ok, u.left (attempt p c)) := by
  by_cases hok : (p c).ok = true <;> simp [attempt, hok, Uriaa.left]

end Combinators

/-! ### Productions over characters -/

section Characters

variable {u : Uriaa} {c : Cursor UInt8} {a : List UInt8}

private theorem chars_eq {P : UInt8 → Bool} (hP : P 0 = false) (hu : u.Shows h c)
    (ha : a <:+ c.rest) :
    (u.rewind (c.to a).pos).chars h P = some (u.rewind (c.to (Text.chars P a)).pos) := by
  simp [Uriaa.chars, charsLoop_eq hP _ hu ha (Stringaa.Shows.budget hu ha _)]

private theorem run_eq {P : UInt8 → Bool} (hP : P 0 = false) (hu : u.Shows h c)
    (ha : a <:+ c.rest) :
    (u.rewind (c.to a).pos).run h P = some (u.rewind (c.to (a.dropWhile P)).pos) := by
  simp [Uriaa.run, runLoop_eq hP _ hu ha (Stringaa.Shows.budget hu ha _)]

private theorem rewind_to_self (u : Uriaa) (c : Cursor UInt8) :
    u.rewind (c.to c.rest).pos = u.rewind c.pos := by
  rw [Cursor.to_self]

/-- A production that makes no assignment, from its equation on texts. -/
theorem Implements.of_lift {f : Uriaa → Option (Bool × Uriaa)}
    {g : List UInt8 → Bool × List UInt8}
    (hf : ∀ (u : Uriaa) (c : Cursor UInt8), u.Shows h c →
      f (u.rewind c.pos) = some ((g c.rest).1, u.rewind (c.to (g c.rest).2).pos)) :
    Implements h f (lift g) :=
  hf

private theorem Implements.lift_to {f : Uriaa → Option (Bool × Uriaa)}
    {g : List UInt8 → Bool × List UInt8} (hf : Implements h f (lift g)) (hg : ∀ s, (g s).2 <:+ s)
    (hu : u.Shows h c) (ha : a <:+ c.rest) :
    f (u.rewind (c.to a).pos) = some ((g a).1, u.rewind (c.to (g a).2).pos) := by
  have himpl := hf u (c.to a) (Stringaa.Shows.to hu ha)
  simpa [lift, Uriaa.left, Uriaa.writeAll, Cursor.to_to ha (hg a)] using himpl

private theorem isChar_implements (x : Char) (hx : ch x ≠ 0) :
    Implements h (fun u => u.isChar h (ch x)) (Text.char x) := by
  refine .of_lift fun u c hu => ?_
  simp [Uriaa.isChar, isChar_follows hx u.uri c hu]

private theorem classThenChars_implements {P Q : UInt8 → Bool} (hP : P 0 = false)
    (hQ : Q 0 = false) :
    Implements h (classThenChars h P Q) (lift (Text.classThenChars P Q)) := by
  refine .of_lift fun u c hu => ?_
  have hclass := inClass_follows hP u.uri c hu
  have hsuffix := Text.inClass_suffix P c.rest
  have hnext := Stringaa.Shows.next_to hu hsuffix
  have hchars := chars_eq hQ hu ((List.tail_suffix _).trans hsuffix)
  by_cases hin : (Text.inClass P c.rest).1 = true
  · by_cases hmore : 1 < (Text.inClass P c.rest).2.length
    · simp [classThenChars, hclass, hin, hnext, hmore, hchars, Text.classThenChars]
    · simp [classThenChars, hclass, hin, hnext, hmore, Text.classThenChars, tail_eq_nil hmore,
        Text.chars_nil]
  · simp [classThenChars, hclass, hin, Text.classThenChars]

theorem relSegment_implements :
    Implements h (relSegment h) (lift (Text.classThenChars relSegmentChars relSegmentChars)) :=
  classThenChars_implements (by decide) (by decide)

theorem regName_implements : Implements h (regName h) Text.regName :=
  classThenChars_implements (by decide) (by decide)

theorem opaquePart_implements : Implements h (opaquePart h) Text.opaquePart := by
  intro u c hu
  have hchars := classThenChars_implements (h := h) (P := uricNoSlashChars) (Q := uricChars)
    (by decide) (by decide) u c hu
  simp only [opaquePart, hchars, Option.bind_eq_bind, Option.bind_some]
  exact conclude_noting _ .opaquePart u c

theorem scheme_implements : Implements h (scheme h) Text.scheme := by
  intro u c hu
  rw [Text.scheme, ← conclude_noting]
  have hchar := Stringaa.Shows.getChar hu
  have hnext := Stringaa.Shows.next hu
  have hrun := run_eq (P := schemeChars) (by decide) hu (List.tail_suffix c.rest)
  obtain ⟨pos, rest⟩ := c
  rcases rest with _ | ⟨x, _ | ⟨y, a⟩⟩
  · have hzero : alphaChars 0 = false := by decide
    simp [scheme, hchar, hzero, lift, Text.schemeRun, Uriaa.left, Uriaa.writeAll, Cursor.to]
  · by_cases hx : alphaChars x = true <;>
      simp [scheme, hchar, hx, hnext, lift, Text.schemeRun, Uriaa.left, Uriaa.writeAll, Cursor.to]
  · by_cases hx : alphaChars x = true
    · simp only [List.tail_cons] at hrun
      simp [scheme, hchar, hx, hnext, hrun, lift, Text.schemeRun, Uriaa.left, Uriaa.writeAll]
    · simp [scheme, hchar, hx, lift, Text.schemeRun, Uriaa.left, Uriaa.writeAll, Cursor.to]

private theorem userinfo_implements :
    Implements h (userinfo h) (lift fun s => (true, Text.chars userinfoChars s)) := by
  refine .of_lift fun u c hu => ?_
  have hchars := chars_eq (P := userinfoChars) (by decide) hu (List.suffix_refl c.rest)
  rw [rewind_to_self] at hchars
  simp [userinfo, hchars]

theorem port_implements : Implements h (port h) Text.port := by
  intro u c hu
  have hchar := Stringaa.Shows.getChar hu
  have hrun := run_eq (P := digitChars) (by decide) hu (List.suffix_refl c.rest)
  rw [rewind_to_self] at hrun
  simp only [port, Uriaa.rewind_uri, hchar, hrun, Option.bind_eq_bind, Option.bind_some]
  exact conclude_set (lift fun s => (digitChars (s.headD 0), s.dropWhile digitChars)) .port u c

private theorem uricPart_implements (p : UriPart) :
    Implements h (uricPart h p) (Text.uricPart p) := by
  intro u c hu
  have hchars := chars_eq (P := uricChars) (by decide) hu (List.suffix_refl c.rest)
  rw [rewind_to_self] at hchars
  simp only [uricPart, hchars, Option.bind_eq_bind, Option.bind_some]
  exact conclude_noting (lift fun s => (true, Text.chars uricChars s)) p u c

end Characters

/-! ### Host names and addresses -/

private theorem labelLoop_eq (fuel : Nat) {s : Stringaa} {c : Cursor UInt8} {x : UInt8}
    {a : List UInt8} (hs : s.Shows h c) (ha : x :: a <:+ c.rest) (hfuel : a.length < fuel) :
    labelLoop h fuel (s.seek (c.to (x :: a)).pos) =
      some ((Text.labelTail x a).1, s.seek (c.to (Text.labelTail x a).2).pos) := by
  induction fuel generalizing x a with
  | zero => cases hfuel
  | succ fuel ih =>
      have hnext := hs.next_to ha
      cases a with
      | nil => simp [labelLoop, hnext, Text.labelTail]
      | cons y a =>
          have htail := (List.suffix_cons x _).trans ha
          have hchar := hs.getChar_to htail
          by_cases hy : labelChars y = true
          · have hrec := ih htail (by simpa using hfuel)
            simp [labelLoop, hnext, hchar, hy, hrec, Text.labelTail]
          · have hprev : s.charAt h ((c.to (y :: a)).pos - 1) = some x := by
              have hfirst := (hs.to ha).char 0 (by simp)
              have hpos : (c.to (y :: a)).pos - 1 = (c.to (x :: y :: a)).pos + 0 := by
                have := ha.length_le
                simp only [Cursor.to, List.length_cons] at this ⊢
                omega
              rw [hpos, hfirst]
              rfl
            simp [labelLoop, hnext, hchar, hy, hprev, Text.labelTail]

theorem label_implements (first : UInt8 → Bool) (hfirst : first 0 = false) :
    Implements h (label h first) (lift (Text.label first)) := by
  refine .of_lift fun u c hu => ?_
  have hchar := Stringaa.Shows.getChar hu
  obtain ⟨pos, rest⟩ := c
  cases rest with
  | nil => simp [label, hchar, hfirst, Text.label, Cursor.to]
  | cons x a =>
      have hloop := labelLoop_eq (u.uri.seek pos).budget hu (List.suffix_refl _)
        (by have := Stringaa.Shows.budget hu (List.suffix_cons x a) pos; simpa using this)
      rw [Cursor.to_self] at hloop
      by_cases hx : first x = true
      · by_cases hok : (Text.labelTail x a).1 = true <;>
          simp [label, hchar, hx, hloop, hok, Text.label, Cursor.to]
      · simp [label, hchar, hx, Text.label, Cursor.to]

private theorem hostnameLoop_eq (fuel : Nat) {u : Uriaa} {c : Cursor UInt8} {a b : List UInt8}
    (hu : u.Shows h c) (ha : a <:+ c.rest) (hfuel : a.length < fuel) :
    ∃ n, hostnameLoop h fuel (u.rewind (c.to a).pos) (c.to b).pos =
      some ((c.to (Text.lastLabel a b)).pos, u.rewind n) := by
  induction fuel generalizing a b with
  | zero => cases hfuel
  | succ fuel ih =>
      have hsuffix := (Text.label_suffix alphanumChars a).trans ha
      have hlabel := (label_implements (h := h) alphanumChars (by decide)).lift_to
        (Text.label_suffix _) hu ha
      have hdot := (isChar_implements (h := h) '.' (by decide)).lift_to (Text.isChar_suffix _) hu
        hsuffix
      rw [Text.lastLabel]
      by_cases hok : (Text.label alphanumChars a).1 = true
      · by_cases hmore : (Text.isChar (ch '.') (Text.label alphanumChars a).2).1 = true
        · have hlt := Text.isChar_length hmore
          have hle := (Text.label_suffix alphanumChars a).length_le
          obtain ⟨n, hrec⟩ := ih (b := a) ((Text.isChar_suffix (ch '.') _).trans hsuffix)
            (by omega)
          exact ⟨n, by simp [hostnameLoop, domainlabel, hlabel, hok, hdot, hmore, hrec]⟩
        · exact ⟨(c.to (Text.isChar (ch '.') (Text.label alphanumChars a).2).2).pos,
            by simp [hostnameLoop, domainlabel, hlabel, hok, hdot, hmore]⟩
      · exact ⟨(c.to (Text.label alphanumChars a).2).pos,
          by simp [hostnameLoop, domainlabel, hlabel, hok]⟩

theorem hostname_implements : Implements h (hostname h) (lift Text.hostname) := by
  refine .of_lift fun u c hu => ?_
  have hsuffix := Text.lastLabel_suffix (List.suffix_refl c.rest) (List.suffix_refl c.rest)
  obtain ⟨n, hloop⟩ := hostnameLoop_eq (u.uri.seek c.pos).budget (b := c.rest) hu
    (List.suffix_refl c.rest) (Stringaa.Shows.budget hu (List.suffix_refl _) _)
  rw [Cursor.to_self] at hloop
  have htop := (label_implements (h := h) alphaChars (by decide)).lift_to
    (Text.label_suffix _) hu hsuffix
  have hdot := (isChar_implements (h := h) '.' (by decide)).lift_to (Text.isChar_suffix _) hu
    ((Text.label_suffix alphaChars _).trans hsuffix)
  by_cases hok : (Text.label alphaChars (Text.lastLabel c.rest c.rest)).1 = true
  · simp [hostname, hloop, toplabel, htop, hok, hdot, Text.hostname]
  · simp [hostname, hloop, toplabel, htop, hok, Text.hostname, Cursor.to_self]

private theorem ipv4Loop_eq (turns i : Nat) {u : Uriaa} {c : Cursor UInt8} {a : List UInt8}
    (isDigit : Nat) (hu : u.Shows h c) (ha : a <:+ c.rest) :
    ipv4Loop h turns i (u.rewind (c.to a).pos) isDigit =
      some ((Text.ipv4Loop turns i a isDigit).1,
        u.rewind (c.to (Text.ipv4Loop turns i a isDigit).2).pos) := by
  induction turns generalizing i a isDigit with
  | zero => rfl
  | succ turns ih =>
      have hchar := Stringaa.Shows.getChar_to hu ha
      have hnext := Stringaa.Shows.next_to hu ha
      have htail := (List.tail_suffix a).trans ha
      have hrun := run_eq (P := digitChars) (by decide) hu htail
      have hrest := (List.dropWhile_suffix digitChars).trans htail
      have hdot := (isChar_implements (h := h) '.' (by decide)).lift_to (Text.isChar_suffix _) hu
        hrest
      rcases a with _ | ⟨x, _ | ⟨y, a⟩⟩
      · have hzero : digitChars 0 = false := by decide
        simpa [ipv4Loop, hchar, hzero, Text.ipv4Loop] using ih (i + 1) isDigit ha
      · by_cases hx : digitChars x = true
        · simp [ipv4Loop, hchar, hx, hnext, Text.ipv4Loop]
        · simpa [ipv4Loop, hchar, hx, Text.ipv4Loop] using ih (i + 1) isDigit ha
      · by_cases hx : digitChars x = true
        · simp only [List.tail_cons] at hrun hrest hdot
          have hagain := ih (i + 1) (isDigit + 1) hrest
          have hnumber := ih (i + 1) (isDigit + 1)
            ((Text.isChar_suffix (ch '.') _).trans hrest)
          by_cases hi : i < 3
          · by_cases hmore : (Text.isChar (ch '.') ((y :: a).dropWhile digitChars)).1 = true
            · simp [ipv4Loop, hchar, hx, hnext, hrun, hi, hdot, hmore, hnumber, Text.ipv4Loop]
            · simp [ipv4Loop, hchar, hx, hnext, hrun, hi, hdot, hmore, Text.ipv4Loop,
                Text.isChar_eq_self hmore]
          · simp [ipv4Loop, hchar, hx, hnext, hrun, hi, hagain, Text.ipv4Loop]
        · simpa [ipv4Loop, hchar, hx, Text.ipv4Loop] using ih (i + 1) isDigit ha

theorem ipv4address_implements : Implements h (ipv4address h) (lift Text.ipv4address) := by
  refine .of_lift fun u c hu => ?_
  have hloop := ipv4Loop_eq 4 0 0 hu (List.suffix_refl c.rest)
  rw [rewind_to_self] at hloop
  by_cases hok : (Text.ipv4Loop 4 0 c.rest 0).1 = 4
  · simp [ipv4address, hloop, hok, Text.ipv4address]
  · simp [ipv4address, hloop, hok, Text.ipv4address, Cursor.to_self]

theorem host_implements : Implements h (host h) Text.host := by
  intro u c hu
  have hname := hostname_implements (h := h) u c hu
  have haddress := ipv4address_implements.whenNot (.lift Text.hostname_suffix) hu
  simp only [host, hname, haddress, Option.bind_eq_bind, Option.bind_some, or_orElse_ok]
  exact conclude_set (orElse _ _) .host u c

theorem hostport_implements : Implements h (hostport h) Text.hostport := by
  intro u c hu
  have hhost := host_implements u c hu
  have hcolon := (isChar_implements (h := h) ':' (by decide)).next Text.host_advances hu
  have hu₁ := hu.after Text.host_advances
  have hport := port_implements.whenOk (Text.char_advances ':') hu₁
  by_cases hok : (Text.host c).ok = true
  · rw [Text.hostport, attempt_of_ok (show (andTry _ _ c).ok = true from hok), andTry_of_ok hok]
    rw [Uriaa.left_after] at hcolon
    simp only [hostport, hhost, hok, if_true, hcolon, hport, Option.bind_eq_bind, Option.bind_some]
    rw [← Uriaa.left_after]
    rfl
  · simp [hostport, hhost, hok, Text.hostport, attempt, andTry, andThen, Uriaa.left]

/-! ### Paths -/

private theorem paramsLoop_eq (fuel : Nat) {u : Uriaa} {c : Cursor UInt8} {a : List UInt8}
    (hu : u.Shows h c) (ha : a <:+ c.rest) (hfuel : a.length < fuel) :
    paramsLoop h fuel (u.rewind (c.to a).pos) = some (u.rewind (c.to (Text.params a)).pos) := by
  induction fuel generalizing a with
  | zero => cases hfuel
  | succ fuel ih =>
      have hsemicolon := (isChar_implements (h := h) ';' (by decide)).lift_to
        (Text.isChar_suffix _) hu ha
      have hrest := (Text.isChar_suffix (ch ';') a).trans ha
      have hchars := chars_eq (P := pcharChars) (by decide) hu hrest
      rw [Text.params]
      by_cases hmore : (Text.isChar (ch ';') a).1 = true
      · have hlt := Text.isChar_length hmore
        have hle := (Text.chars_suffix pcharChars (Text.isChar (ch ';') a).2).length_le
        have hrec := ih ((Text.chars_suffix pcharChars _).trans hrest) (by omega)
        simp [paramsLoop, hsemicolon, hmore, Uriaa.whenDo, param, hchars, hrec]
      · simp [paramsLoop, hsemicolon, hmore, Uriaa.whenDo, Text.isChar_eq_self hmore]

private theorem segment_implements :
    Implements h (segment h) (lift fun s => (true, Text.segment s)) := by
  refine .of_lift fun u c hu => ?_
  have hchars := chars_eq (P := pcharChars) (by decide) hu (List.suffix_refl c.rest)
  have hsuffix := Text.chars_suffix pcharChars c.rest
  have hparams := paramsLoop_eq (u.rewind (c.to (Text.chars pcharChars c.rest)).pos).uri.budget hu
    hsuffix (Stringaa.Shows.budget hu hsuffix _)
  rw [rewind_to_self] at hchars
  simp only [segment, hchars, hparams, Option.bind_eq_bind, Option.bind_some]
  rfl

private theorem segmentsLoop_eq (fuel : Nat) {u : Uriaa} {c : Cursor UInt8} {a : List UInt8}
    (hu : u.Shows h c) (ha : a <:+ c.rest) (hfuel : a.length < fuel) :
    segmentsLoop h fuel (u.rewind (c.to a).pos) =
      some (u.rewind (c.to (Text.segments a)).pos) := by
  induction fuel generalizing a with
  | zero => cases hfuel
  | succ fuel ih =>
      have hslash := (isChar_implements (h := h) '/' (by decide)).lift_to
        (Text.isChar_suffix _) hu ha
      have hrest := (Text.isChar_suffix (ch '/') a).trans ha
      have hsegment := segment_implements.lift_to (fun _ => Text.segment_suffix _) hu hrest
      rw [Text.segments]
      by_cases hmore : (Text.isChar (ch '/') a).1 = true
      · have hlt := Text.isChar_length hmore
        have hle := (Text.segment_suffix (Text.isChar (ch '/') a).2).length_le
        have hrec := ih ((Text.segment_suffix _).trans hrest) (by omega)
        simp [segmentsLoop, hslash, hmore, Uriaa.whenDo, hsegment, hrec]
      · simp [segmentsLoop, hslash, hmore, Uriaa.whenDo, Text.isChar_eq_self hmore]

theorem pathSegments_implements :
    Implements h (pathSegments h) (lift fun s => (true, Text.segments (Text.segment s))) := by
  refine .of_lift fun u c hu => ?_
  have hsegment := segment_implements.lift_to (fun _ => Text.segment_suffix _) hu
    (List.suffix_refl c.rest)
  have hsuffix := Text.segment_suffix c.rest
  have hsegments := segmentsLoop_eq (u.rewind (c.to (Text.segment c.rest)).pos).uri.budget hu
    hsuffix (Stringaa.Shows.budget hu hsuffix _)
  rw [rewind_to_self] at hsegment
  simp only [pathSegments, hsegment, hsegments, if_true, Option.bind_eq_bind, Option.bind_some]
  rfl

theorem absPath_implements : Implements h (absPath h) Text.absPath := by
  intro u c hu
  have hslash := isChar_implements (h := h) '/' (by decide) u c hu
  have hsegments := pathSegments_implements.whenOk (Text.char_advances '/') hu
  simp only [absPath, hslash, hsegments, Option.bind_eq_bind, Option.bind_some]
  exact conclude_set (andThen _ _) .absPath u c

/-! ### Authorities -/

private theorem userinfo_left (p : Text.Production) (u : Uriaa) (c : Cursor UInt8) :
    (if (p c).ok = true then (u.left (p c)).setPart .userinfo c.pos
        ((u.left (p c)).uri.readPos - c.pos - 1)
      else (u.left (p c)).rewind c.pos) =
      u.left (attempt (noting (fun pos pos' => .set .userinfo pos (pos' - pos - 1)) p) c) := by
  by_cases hok : (p c).ok = true
  · simp [attempt, noting, hok, Uriaa.left, Uriaa.writeAll, Uriaa.write]
  · simp [attempt, noting, hok, Uriaa.left]

private theorem server_implements : Implements h (server h) Text.server := by
  intro u c hu
  have huserinfo := userinfo_implements (h := h) u c hu
  have hadv : Advances (lift fun s => (true, Text.chars userinfoChars s) : Text.Production) :=
    .lift fun _ => Text.chars_suffix _ _
  have hat := (isChar_implements (h := h) '@' (by decide)).whenOk hadv hu
  have hleft := userinfo_left (andThen (lift fun s => (true, Text.chars userinfoChars s))
    (Text.char '@')) u c
  have hhostport := hostport_implements.next Text.userinfoAt_advances hu
  rw [Text.userinfoAt] at hhostport
  simp only [server, huserinfo, hat, Uriaa.rewind_readPos, Option.bind_eq_bind, Option.bind_some]
  rw [hleft, hhostport]
  rw [Text.server, Text.userinfoAt]
  generalize attempt (noting (fun pos pos' => UriWrite.set .userinfo pos (pos' - pos - 1))
    (andThen (lift fun s => (true, Text.chars userinfoChars s)) (Text.char '@'))) = p
  by_cases hok : (Text.hostport (p c).cursor).ok = true
  · simp [hok, always, attempt, notingFailure, both, Outcome.after, Uriaa.left]
  · simp [hok, always, attempt, notingFailure, both, Outcome.after, Uriaa.left, Uriaa.writeAll,
      Uriaa.write]

theorem authority_implements : Implements h (authority h) Text.authority := by
  intro u c hu
  have hserver := server_implements u c hu
  have hname := regName_implements.whenNot Text.server_advances hu
  simp only [authority, hserver, hname, Option.bind_eq_bind, Option.bind_some, or_orElse_ok]
  exact conclude_set (orElse _ _) .authority u c

/-! ### References -/

theorem netPath_implements : Implements h (netPath h) Text.netPath := by
  intro u c hu
  have hchar := isChar_implements (h := h) '/' (by decide)
  have hadv := Text.char_advances '/'
  have hslash := hchar u c hu
  have hslashes := hchar.whenOk hadv hu
  have hauthority := authority_implements.whenOk (hadv.andThen hadv) hu
  have hpath := absPath_implements.whenOk
    ((hadv.andThen hadv).andThen Text.authority_advances) hu
  simp only [netPath, hslash, hslashes, hauthority, hpath, Option.bind_eq_bind, Option.bind_some]
  exact conclude_set (andTry _ _) .netPath u c

theorem relPath_implements : Implements h (relPath h) Text.relPath := by
  intro u c hu
  have hsegment := relSegment_implements (h := h) u c hu
  have hpath := absPath_implements.whenOk
    (.lift (Text.classThenChars_suffix relSegmentChars relSegmentChars)) hu
  simp only [relPath, hsegment, hpath, Option.bind_eq_bind, Option.bind_some]
  exact conclude_set (andTry (lift (Text.classThenChars relSegmentChars relSegmentChars))
    Text.absPath) .relPath u c

private theorem Implements.charThen {f : Uriaa → Option (Bool × Uriaa)} {p q : Text.Production}
    {u : Uriaa} {c : Cursor UInt8} (hf : Implements h f q) {x : Char} (hx : ch x ≠ 0)
    (hp : Advances p) (hu : u.Shows h c) (g : Bool → Bool → Bool) :
    (u.left (p c)).isChar h (ch x) =
        some ((Text.char x (p c).cursor).ok,
          (u.writeAll (p c).notes).left (Text.char x (p c).cursor)) ∧
      ((u.writeAll (p c).notes).left (Text.char x (p c).cursor)).whenDo
          (Text.char x (p c).cursor).ok f =
        some ((andThen (Text.char x) q (p c).cursor).ok,
          u.left (both g p (andThen (Text.char x) q) c)) := by
  have hchar := isChar_implements (h := h) x hx _ _ (hu.after hp)
  have hthen := hf.whenOk (Text.char_advances x) (hu.after hp)
  have hleft : u.left (both g p (andThen (Text.char x) q) c) =
      (u.writeAll (p c).notes).left (andThen (Text.char x) q (p c).cursor) := by
    rw [← Uriaa.left_after]
    rfl
  exact ⟨hchar, hleft ▸ hthen⟩

private theorem query_implements : Implements h (query h) (Text.uricPart .query) :=
  uricPart_implements _

private theorem fragment_implements : Implements h (fragment h) (Text.uricPart .fragment) :=
  uricPart_implements _

theorem hierPart_implements : Implements h (hierPart h) Text.hierPart := by
  intro u c hu
  have hnet := netPath_implements (h := h) u c hu
  have habs := absPath_implements.whenNot Text.netPath_advances hu
  obtain ⟨hquestion, hquery⟩ := query_implements.charThen (x := '?') (by decide)
    (.orElse Text.netPath_advances Text.absPath_advances) hu (fun isPath _ => isPath)
  simp only [hierPart, hnet, habs, hquestion, hquery, Option.bind_eq_bind, Option.bind_some,
    or_orElse_ok]
  exact conclude_attempt (both (fun isPath _ => isPath) (orElse _ _) Text.questionQuery) u c

theorem relativeURI_implements : Implements h (relativeURI h) Text.relativeURI := by
  intro u c hu
  have hnet := netPath_implements (h := h) u c hu
  have habs := absPath_implements.whenNot Text.netPath_advances hu
  have hpath := Text.netPath_advances.orElse Text.absPath_advances
  have hrel := relPath_implements.whenNot hpath hu
  obtain ⟨hquestion, hquery⟩ := query_implements.charThen (x := '?') (by decide)
    (hpath.orElse Text.relPath_advances) hu (fun isPath _ => isPath)
  simp only [relativeURI, hnet, habs, not_orElse_ok, hrel, hquestion, hquery, Option.bind_eq_bind,
    Option.bind_some, or_orElse_ok]
  exact conclude_attempt (both (fun isPath _ => isPath) (orElse _ _) Text.questionQuery) u c

theorem absoluteURI_implements : Implements h (absoluteURI h) Text.absoluteURI := by
  intro u c hu
  have hscheme := scheme_implements (h := h) u c hu
  have hu₁ := hu.after Text.scheme_advances
  have hu₂ := hu₁.after (Text.char_advances ':')
  have hcolon : (u.left (Text.scheme c)).isChar h (ch ':') = some (_, _) :=
    isChar_implements (h := h) ':' (by decide) _ _ hu₁
  have hhier : hierPart h (((u.writeAll (Text.scheme c).notes)).left
      (Text.char ':' (Text.scheme c).cursor)) = some (_, _) := hierPart_implements _ _ hu₂
  have hopaque := opaquePart_implements.whenNot Text.hierPart_advances hu₂
  rw [Text.absoluteURI, ← conclude_attempt]
  by_cases hok : (Text.scheme c).ok = true
  · rw [andThen_of_ok hok, Uriaa.left_after]
    by_cases hok' : (Text.char ':' (Text.scheme c).cursor).ok = true
    · have hnoting : notingFailure (.unset .scheme) (Text.char ':') (Text.scheme c).cursor =
          Text.char ':' (Text.scheme c).cursor := by
        simp [notingFailure, hok']
      rw [andThen_of_ok (hnoting ▸ hok'), hnoting, Uriaa.left_after]
      simp only [absoluteURI, hscheme, hok, hcolon, hok', hhier, hopaque, if_true, or_orElse_ok,
        Option.bind_eq_bind, Option.bind_some]
      rfl
    · simp only [absoluteURI, hscheme, hok, hcolon, hok', if_true, Bool.false_eq_true, if_false,
        Option.bind_eq_bind, Option.bind_some]
      simp [andThen, notingFailure, hok', Outcome.after, Uriaa.left, Uriaa.writeAll, Uriaa.write]
  · simp [absoluteURI, hscheme, hok, andThen]

theorem uriReference_implements : Implements h (uriReference h) Text.uriReference := by
  intro u c hu
  have habsolute := absoluteURI_implements (h := h) u c hu
  have hrelative := relativeURI_implements.whenNot Text.absoluteURI_advances hu
  obtain ⟨hhash, hfragment⟩ := fragment_implements.charThen (x := '#') (by decide)
    (Text.absoluteURI_advances.orElse Text.relativeURI_advances) hu or
  simp only [uriReference, habsolute, hrelative, hhash, hfragment, Option.bind_eq_bind,
    Option.bind_some, or_orElse_ok]
  exact conclude_attempt (both or (orElse _ _) Text.hashFragment) u c

/-- What `URI_reference` returns and leaves, from the production on the text. -/
theorem uriReference_left {u u' : Uriaa} {text : List UInt8} {ok : Bool}
    (hu : u.Shows h ⟨u.uri.readPos, text⟩) (hrun : uriReference h u = some (ok, u')) :
    (Text.uriReference ⟨u.uri.readPos, text⟩).ok = ok ∧
      u' = u.left (Text.uriReference ⟨u.uri.readPos, text⟩) := by
  have himpl := uriReference_implements u _ hu
  rw [show u.rewind (⟨u.uri.readPos, text⟩ : Cursor UInt8).pos = u from rfl, hrun,
    Option.some.injEq, Prod.mk.injEq] at himpl
  exact ⟨himpl.1.symm, himpl.2⟩

end Httpaa
