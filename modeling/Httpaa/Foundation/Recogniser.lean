import Mathlib.Data.List.Basic

/-!
# Recognisers with a cursor

A recogniser reads a text from a cursor on: it succeeds or fails, leaves the cursor somewhere in the
text still to be read, and notes what it found on its way, also on ways it gives up later. The
combinators here are the control structures of hand-written descent parsers. What a recogniser built
from them keeps (the cursor stays in the text, the notes stay in range, nothing depends on what
follows a barrier) is proved once for each combinator.
-/

namespace Httpaa.Recogniser

variable {α β ω : Type*}

/-- A position in a text and what stands from there on. -/
structure Cursor (α : Type*) where
  pos : Nat
  rest : List α

/-- The cursor in front of `rest`, which is a suffix of what `c` has still to read. -/
def Cursor.to (c : Cursor α) (rest : List α) : Cursor α :=
  ⟨c.pos + (c.rest.length - rest.length), rest⟩

/-- `c'` is reached from `c` by reading on. -/
def Cursor.Reaches (c c' : Cursor α) : Prop :=
  ∃ front, c.rest = front ++ c'.rest ∧ c'.pos = c.pos + front.length

/-- What a recogniser reports: success, the cursor it leaves, and its notes in order. -/
structure Outcome (α ω : Type*) where
  ok : Bool
  cursor : Cursor α
  notes : List ω

def Outcome.after (r : Outcome α ω) (notes : List ω) : Outcome α ω :=
  { r with notes := notes ++ r.notes }

end Recogniser

/-- A recogniser of texts over `α` with notes in `ω`. -/
abbrev Recogniser (α ω : Type*) := Recogniser.Cursor α → Recogniser.Outcome α ω

namespace Recogniser

variable {p q : Recogniser α ω}

/-! ### Combinators -/

/-- A recogniser that makes no notes, from a function on texts. -/
def lift (f : List α → Bool × List α) : Recogniser α ω := fun c =>
  ⟨(f c.rest).1, c.to (f c.rest).2, []⟩

/-- A recogniser that notes the value found by a function on texts. -/
def find (f : List α → Option (β × List α)) (note : β → ω) : Recogniser α ω := fun c =>
  match f c.rest with
  | some (value, rest) => ⟨true, c.to rest, [note value]⟩
  | none => ⟨false, c, []⟩

/-- `p`, and if it succeeds `q`. -/
def andThen (p q : Recogniser α ω) : Recogniser α ω := fun c =>
  if (p c).ok then (q (p c).cursor).after (p c).notes else p c

/-- `p`, and if it fails `q` from where it left the cursor. -/
def orElse (p q : Recogniser α ω) : Recogniser α ω := fun c =>
  if (p c).ok then p c else (q (p c).cursor).after (p c).notes

/-- Both, one after the other, with the results combined by `f`. -/
def both (f : Bool → Bool → Bool) (p q : Recogniser α ω) : Recogniser α ω := fun c =>
  let r := (q (p c).cursor).after (p c).notes
  { r with ok := f (p c).ok r.ok }

/-- `p`, and if it succeeds also `q`, whose result does not matter. -/
def andTry (p q : Recogniser α ω) : Recogniser α ω := fun c =>
  { p.andThen q c with ok := (p c).ok }

/-- `p`, with the cursor set back if it fails. -/
def attempt (p : Recogniser α ω) : Recogniser α ω := fun c =>
  if (p c).ok then p c else { p c with cursor := c }

/-- `p`, with a note about the text it read, from where to where, if it succeeds. -/
def noting (note : Nat → Nat → ω) (p : Recogniser α ω) : Recogniser α ω := fun c =>
  if (p c).ok then { p c with notes := (p c).notes ++ [note c.pos (p c).cursor.pos] } else p c

/-- `p`, with a note if it fails. -/
def notingFailure (note : ω) (p : Recogniser α ω) : Recogniser α ω := fun c =>
  if (p c).ok then p c else { p c with notes := (p c).notes ++ [note] }

/-- `p`, counted as a success in any case. -/
def always (p : Recogniser α ω) : Recogniser α ω := fun c => { p c with ok := true }

theorem andThen_of_ok {c : Cursor α} (hok : (p c).ok = true) :
    andThen p q c = (q (p c).cursor).after (p c).notes := by
  simp [andThen, hok]

theorem andTry_of_ok {c : Cursor α} (hok : (p c).ok = true) :
    andTry p q c = { (q (p c).cursor).after (p c).notes with ok := true } := by
  simp [andTry, andThen, hok]

theorem attempt_of_ok {c : Cursor α} (hok : (p c).ok = true) : attempt p c = p c := by
  simp [attempt, hok]

theorem attempt_both_of_ok {f : Bool → Bool → Bool} {c c₁ c₂ : Cursor α} {ok₁ ok₂ : Bool}
    {notes₁ notes₂ : List ω} (hp : p c = ⟨ok₁, c₁, notes₁⟩) (hq : q c₁ = ⟨ok₂, c₂, notes₂⟩)
    (hok : f ok₁ ok₂ = true) : attempt (both f p q) c = ⟨true, c₂, notes₁ ++ notes₂⟩ := by
  simp [attempt, both, hp, hq, Outcome.after, hok]

/-- The success of `orElse`, from that of `p` and of `q` called where `p` fails. -/
theorem or_orElse_ok (p q : Recogniser α ω) (c : Cursor α) :
    ((p c).ok || (!(p c).ok && (orElse p q c).ok)) = (orElse p q c).ok := by
  by_cases hok : (p c).ok = true <;> simp [orElse, hok]

theorem not_orElse_ok (p q : Recogniser α ω) (c : Cursor α) :
    (!(p c).ok && !(!(p c).ok && (orElse p q c).ok)) = !(orElse p q c).ok := by
  by_cases hok : (p c).ok = true <;> simp [orElse, hok]

/-! ### The cursor stays in the text -/

theorem Cursor.Reaches.refl (c : Cursor α) : c.Reaches c := ⟨[], rfl, rfl⟩

theorem Cursor.Reaches.trans {a b c : Cursor α} (hab : a.Reaches b) (hbc : b.Reaches c) :
    a.Reaches c := by
  obtain ⟨front, hrest, hpos⟩ := hab
  obtain ⟨front', hrest', hpos'⟩ := hbc
  refine ⟨front ++ front', ?_, ?_⟩
  · rw [hrest, hrest', List.append_assoc]
  · rw [hpos', hpos, List.length_append, Nat.add_assoc]

theorem Cursor.to_pos {c : Cursor α} {front rest : List α} (h : c.rest = front ++ rest) :
    (c.to rest).pos = c.pos + front.length := by
  simp only [Cursor.to, h, List.length_append]
  omega

theorem Cursor.reaches_to {c : Cursor α} {rest : List α} (h : rest <:+ c.rest) :
    c.Reaches (c.to rest) := by
  obtain ⟨front, hfront⟩ := h
  exact ⟨front, hfront.symm, Cursor.to_pos hfront.symm⟩

theorem Cursor.to_to {c : Cursor α} {a b : List α} (ha : a <:+ c.rest) (hb : b <:+ a) :
    (c.to a).to b = c.to b := by
  have := ha.length_le
  have := hb.length_le
  simp only [Cursor.to, Cursor.mk.injEq, and_true]
  omega

@[simp] theorem Cursor.to_rest (c : Cursor α) (rest : List α) : (c.to rest).rest = rest := rfl

theorem Cursor.to_self (c : Cursor α) : c.to c.rest = c := by
  simp [Cursor.to]

theorem Cursor.Reaches.end_eq {c c' : Cursor α} (h : c.Reaches c') :
    c'.pos + c'.rest.length = c.pos + c.rest.length := by
  obtain ⟨front, hrest, hpos⟩ := h
  rw [hrest, hpos, List.length_append, Nat.add_assoc]

theorem Cursor.Reaches.rest_le {c c' : Cursor α} (h : c.Reaches c') :
    c'.rest.length ≤ c.rest.length := by
  obtain ⟨front, hrest, -⟩ := h
  rw [hrest, List.length_append]
  exact Nat.le_add_left _ _

theorem Cursor.Reaches.pos_le {c c' : Cursor α} (h : c.Reaches c') : c.pos ≤ c'.pos := by
  obtain ⟨front, -, hpos⟩ := h
  omega

/-- Wherever the recogniser starts, it leaves the cursor in the text still to be read. -/
def Advances (p : Recogniser α ω) : Prop := ∀ c : Cursor α, c.Reaches (p c).cursor

theorem Advances.lift {f : List α → Bool × List α} (h : ∀ s, (f s).2 <:+ s) :
    Advances (lift f : Recogniser α ω) :=
  fun c => Cursor.reaches_to (h c.rest)

theorem Advances.find {f : List α → Option (β × List α)} {note : β → ω}
    (h : ∀ s value rest, f s = some (value, rest) → rest <:+ s) : Advances (find f note) := by
  intro c
  cases hf : f c.rest with
  | none => simpa [Recogniser.find, hf] using Cursor.Reaches.refl c
  | some found => simpa [Recogniser.find, hf] using Cursor.reaches_to (h _ _ _ hf)

theorem Advances.andThen (hp : Advances p) (hq : Advances q) : Advances (p.andThen q) := by
  intro c
  by_cases hok : (p c).ok = true
  · simpa [Recogniser.andThen, hok, Outcome.after] using (hp c).trans (hq _)
  · simpa [Recogniser.andThen, hok] using hp c

theorem Advances.orElse (hp : Advances p) (hq : Advances q) : Advances (p.orElse q) := by
  intro c
  by_cases hok : (p c).ok = true
  · simpa [Recogniser.orElse, hok] using hp c
  · simpa [Recogniser.orElse, hok, Outcome.after] using (hp c).trans (hq _)

theorem Advances.both {f : Bool → Bool → Bool} (hp : Advances p) (hq : Advances q) :
    Advances (both f p q) :=
  fun c => (hp c).trans (hq _)

theorem Advances.andTry (hp : Advances p) (hq : Advances q) : Advances (p.andTry q) :=
  hp.andThen hq

theorem Advances.attempt (hp : Advances p) : Advances p.attempt := by
  intro c
  by_cases hok : (p c).ok = true
  · simpa [Recogniser.attempt, hok] using hp c
  · simpa [Recogniser.attempt, hok] using Cursor.Reaches.refl c

theorem Advances.noting {note : Nat → Nat → ω} (hp : Advances p) :
    Advances (p.noting note) := by
  intro c
  by_cases hok : (p c).ok = true <;> simpa [Recogniser.noting, hok] using hp c

theorem Advances.notingFailure {note : ω} (hp : Advances p) : Advances (p.notingFailure note) := by
  intro c
  by_cases hok : (p c).ok = true <;> simpa [Recogniser.notingFailure, hok] using hp c

theorem Advances.always (hp : Advances p) : Advances p.always := hp

/-! ### The notes stay in range -/

/-- Every note is in range of the cursor the recogniser started from. -/
def NotesIn (R : Cursor α → ω → Prop) (p : Recogniser α ω) : Prop :=
  ∀ c : Cursor α, ∀ w ∈ (p c).notes, R c w

section NotesIn

variable {R : Cursor α → ω → Prop}

/-- A range of notes that only grows when the cursor is set back. -/
def GrowsBackwards (R : Cursor α → ω → Prop) : Prop :=
  ∀ (c c' : Cursor α) (w : ω), c.Reaches c' → R c' w → R c w

theorem NotesIn.lift (f : List α → Bool × List α) : NotesIn R (lift f) := by
  intro c w hw
  cases hw

theorem NotesIn.find {f : List α → Option (β × List α)} {note : β → ω}
    (h : ∀ c value, R c (note value)) : NotesIn R (find f note) := by
  intro c w hw
  cases hf : f c.rest with
  | none => simp [Recogniser.find, hf] at hw
  | some found =>
      simp only [Recogniser.find, hf, List.mem_singleton] at hw
      exact hw ▸ h c found.1

private theorem notesIn_after (hR : GrowsBackwards R) (hp : NotesIn R p) (hadv : Advances p)
    (hq : NotesIn R q) (c : Cursor α) :
    ∀ w ∈ (p c).notes ++ (q (p c).cursor).notes, R c w := by
  intro w hw
  rcases List.mem_append.mp hw with hw | hw
  · exact hp c w hw
  · exact hR _ _ w (hadv c) (hq _ w hw)

theorem NotesIn.andThen (hR : GrowsBackwards R) (hp : NotesIn R p) (hadv : Advances p)
    (hq : NotesIn R q) : NotesIn R (p.andThen q) := by
  intro c
  by_cases hok : (p c).ok = true
  · simpa only [Recogniser.andThen, hok, if_true, Outcome.after] using
      notesIn_after hR hp hadv hq c
  · simpa only [Recogniser.andThen, hok, Bool.false_eq_true, if_false] using hp c

theorem NotesIn.orElse (hR : GrowsBackwards R) (hp : NotesIn R p) (hadv : Advances p)
    (hq : NotesIn R q) : NotesIn R (p.orElse q) := by
  intro c
  by_cases hok : (p c).ok = true
  · simpa only [Recogniser.orElse, hok, if_true] using hp c
  · simpa only [Recogniser.orElse, hok, Bool.false_eq_true, if_false, Outcome.after] using
      notesIn_after hR hp hadv hq c

theorem NotesIn.both {f : Bool → Bool → Bool} (hR : GrowsBackwards R) (hp : NotesIn R p)
    (hadv : Advances p) (hq : NotesIn R q) : NotesIn R (both f p q) :=
  notesIn_after hR hp hadv hq

theorem NotesIn.andTry (hR : GrowsBackwards R) (hp : NotesIn R p) (hadv : Advances p)
    (hq : NotesIn R q) : NotesIn R (p.andTry q) :=
  NotesIn.andThen hR hp hadv hq

theorem NotesIn.attempt (hp : NotesIn R p) : NotesIn R p.attempt := by
  intro c
  by_cases hok : (p c).ok = true <;>
    simpa only [Recogniser.attempt, hok, if_true, Bool.false_eq_true, if_false] using hp c

/-- A note on what was read may rest on the success. -/
theorem NotesIn.noting_ok {note : Nat → Nat → ω} (hp : NotesIn R p)
    (hnote : ∀ c, (p c).ok = true → R c (note c.pos (p c).cursor.pos)) :
    NotesIn R (p.noting note) := by
  intro c w hw
  by_cases hok : (p c).ok = true
  · simp only [Recogniser.noting, hok, if_true, List.mem_append, List.mem_singleton] at hw
    rcases hw with hw | rfl
    · exact hp c w hw
    · exact hnote c hok
  · simp only [Recogniser.noting, hok, Bool.false_eq_true, if_false] at hw
    exact hp c w hw

theorem NotesIn.noting {note : Nat → Nat → ω} (hp : NotesIn R p) (hadv : Advances p)
    (hnote : ∀ c c' : Cursor α, c.Reaches c' → R c (note c.pos c'.pos)) :
    NotesIn R (p.noting note) :=
  hp.noting_ok fun c _ => hnote c _ (hadv c)

theorem NotesIn.notingFailure {note : ω} (hp : NotesIn R p) (hnote : ∀ c, R c note) :
    NotesIn R (p.notingFailure note) := by
  intro c w hw
  by_cases hok : (p c).ok = true
  · simp only [Recogniser.notingFailure, hok, if_true] at hw
    exact hp c w hw
  · simp only [Recogniser.notingFailure, hok, Bool.false_eq_true, if_false, List.mem_append,
      List.mem_singleton] at hw
    rcases hw with hw | rfl
    · exact hp c w hw
    · exact hnote c

theorem NotesIn.always (hp : NotesIn R p) : NotesIn R p.always := hp

end NotesIn

/-! ### A failure leaves no notes -/

/-- A recogniser that fails has noted nothing. -/
def Silent (p : Recogniser α ω) : Prop := ∀ c : Cursor α, (p c).ok = false → (p c).notes = []

theorem Silent.lift (f : List α → Bool × List α) : Silent (lift f : Recogniser α ω) :=
  fun _ _ => rfl

/-- Behind `p` nothing may fail that is not silent, and `p` itself may have noted nothing. -/
theorem Silent.andThen (hp : Silent p) (hq : ∀ c, (q c).ok = true) : Silent (p.andThen q) := by
  intro c hfail
  by_cases hok : (p c).ok = true
  · rw [andThen_of_ok hok] at hfail
    simp [Outcome.after, hq] at hfail
  · rw [Recogniser.andThen, if_neg hok]
    exact hp c (Bool.not_eq_true _ ▸ hok)

theorem Silent.andTry (hp : Silent p) : Silent (p.andTry q) := by
  intro c hfail
  have hok : (p c).ok = false := hfail
  simpa [Recogniser.andTry, Recogniser.andThen, hok] using hp c hok

theorem Silent.orElse (hp : Silent p) (hq : Silent q) : Silent (p.orElse q) := by
  intro c hfail
  by_cases hok : (p c).ok = true
  · simp [Recogniser.orElse, hok] at hfail
  · simp only [Recogniser.orElse, hok, Bool.false_eq_true, if_false, Outcome.after] at hfail ⊢
    rw [hp c (Bool.not_eq_true _ ▸ hok), hq _ hfail]
    rfl

theorem Silent.noting {note : Nat → Nat → ω} (hp : Silent p) : Silent (p.noting note) := by
  intro c hfail
  by_cases hok : (p c).ok = true
  · simp [Recogniser.noting, hok] at hfail
  · simpa [Recogniser.noting, hok] using hp c (Bool.not_eq_true _ ▸ hok)

theorem Silent.attempt (hp : Silent p) : Silent p.attempt := by
  intro c hfail
  by_cases hok : (p c).ok = true
  · simp [Recogniser.attempt, hok] at hfail
  · simpa [Recogniser.attempt, hok] using hp c (Bool.not_eq_true _ ▸ hok)

/-- A silent attempt that fails changes nothing. -/
theorem Silent.attempt_eq (hp : Silent p) {c : Cursor α} (hfail : (p c).ok = false) :
    p.attempt c = ⟨false, c, []⟩ := by
  simp [Recogniser.attempt, hfail, hp c hfail]

/-! ### Nothing depends on what follows a barrier -/

/-- On a text with the barrier `x` behind a front that meets `G`, the recogniser stays in front of
the barrier, and what it does is the same whatever follows. -/
def Confined (G : List α → Prop) (x : α) (p : Recogniser α ω) : Prop :=
  ∀ (pos : Nat) (front : List α), G front → ∃ ok pos' front' notes, G front' ∧
    ∀ later, p ⟨pos, front ++ x :: later⟩ = ⟨ok, ⟨pos', front' ++ x :: later⟩, notes⟩

section Confined

variable {G : List α → Prop} {x : α}

theorem Confined.lift {f : List α → Bool × List α}
    (h : ∀ front, G front → ∃ ok front', G front' ∧
      ∀ later, f (front ++ x :: later) = (ok, front' ++ x :: later)) :
    Confined G x (lift f : Recogniser α ω) := by
  intro pos front hfront
  obtain ⟨ok, front', hfront', heq⟩ := h front hfront
  refine ⟨ok, pos + (front.length - front'.length), front', [], hfront', fun later => ?_⟩
  have hlength : (front ++ x :: later).length - (front' ++ x :: later).length =
      front.length - front'.length := by
    simp only [List.length_append]
    omega
  simp only [Recogniser.lift, Cursor.to, heq, hlength]

theorem Confined.find {f : List α → Option (β × List α)} {note : β → ω}
    (h : ∀ front, G front → (∀ later, f (front ++ x :: later) = none) ∨
      ∃ value front', G front' ∧ ∀ later, f (front ++ x :: later) =
      some (value, front' ++ x :: later)) :
    Confined G x (find f note) := by
  intro pos front hfront
  rcases h front hfront with hnone | ⟨value, front', hfront', heq⟩
  · exact ⟨false, pos, front, [], hfront, fun later => by simp [Recogniser.find, hnone]⟩
  · refine ⟨true, pos + (front.length - front'.length), front', [note value], hfront',
      fun later => ?_⟩
    have hlength : (front ++ x :: later).length - (front' ++ x :: later).length =
        front.length - front'.length := by
      simp only [List.length_append]
      omega
    simp only [Recogniser.find, Cursor.to, heq, hlength]

theorem Confined.andThen (hp : Confined G x p) (hq : Confined G x q) :
    Confined G x (p.andThen q) := by
  intro pos front hfront
  obtain ⟨ok, pos₁, front₁, notes₁, hfront₁, heq₁⟩ := hp pos front hfront
  obtain ⟨ok₂, pos₂, front₂, notes₂, hfront₂, heq₂⟩ := hq pos₁ front₁ hfront₁
  cases ok with
  | true =>
      refine ⟨ok₂, pos₂, front₂, notes₁ ++ notes₂, hfront₂, fun later => ?_⟩
      simp [Recogniser.andThen, heq₁, heq₂, Outcome.after]
  | false =>
      refine ⟨false, pos₁, front₁, notes₁, hfront₁, fun later => ?_⟩
      simp [Recogniser.andThen, heq₁]

theorem Confined.orElse (hp : Confined G x p) (hq : Confined G x q) :
    Confined G x (p.orElse q) := by
  intro pos front hfront
  obtain ⟨ok, pos₁, front₁, notes₁, hfront₁, heq₁⟩ := hp pos front hfront
  obtain ⟨ok₂, pos₂, front₂, notes₂, hfront₂, heq₂⟩ := hq pos₁ front₁ hfront₁
  cases ok with
  | true =>
      refine ⟨true, pos₁, front₁, notes₁, hfront₁, fun later => ?_⟩
      simp [Recogniser.orElse, heq₁]
  | false =>
      refine ⟨ok₂, pos₂, front₂, notes₁ ++ notes₂, hfront₂, fun later => ?_⟩
      simp [Recogniser.orElse, heq₁, heq₂, Outcome.after]

theorem Confined.both {f : Bool → Bool → Bool} (hp : Confined G x p) (hq : Confined G x q) :
    Confined G x (both f p q) := by
  intro pos front hfront
  obtain ⟨ok, pos₁, front₁, notes₁, hfront₁, heq₁⟩ := hp pos front hfront
  obtain ⟨ok₂, pos₂, front₂, notes₂, hfront₂, heq₂⟩ := hq pos₁ front₁ hfront₁
  refine ⟨f ok ok₂, pos₂, front₂, notes₁ ++ notes₂, hfront₂, fun later => ?_⟩
  simp [Recogniser.both, heq₁, heq₂, Outcome.after]

theorem Confined.andTry (hp : Confined G x p) (hq : Confined G x q) :
    Confined G x (p.andTry q) := by
  intro pos front hfront
  obtain ⟨ok, pos₁, front₁, notes₁, hfront₁, heq₁⟩ := hp pos front hfront
  obtain ⟨ok₂, pos₂, front₂, notes₂, hfront₂, heq₂⟩ := hp.andThen hq pos front hfront
  refine ⟨ok, pos₂, front₂, notes₂, hfront₂, fun later => ?_⟩
  simp [Recogniser.andTry, heq₁, heq₂]

theorem Confined.attempt (hp : Confined G x p) : Confined G x p.attempt := by
  intro pos front hfront
  obtain ⟨ok, pos₁, front₁, notes₁, hfront₁, heq₁⟩ := hp pos front hfront
  cases ok with
  | true => exact ⟨true, pos₁, front₁, notes₁, hfront₁, fun later => by
      simp [Recogniser.attempt, heq₁]⟩
  | false => exact ⟨false, pos, front, notes₁, hfront, fun later => by
      simp [Recogniser.attempt, heq₁]⟩

theorem Confined.noting {note : Nat → Nat → ω} (hp : Confined G x p) :
    Confined G x (p.noting note) := by
  intro pos front hfront
  obtain ⟨ok, pos₁, front₁, notes₁, hfront₁, heq₁⟩ := hp pos front hfront
  cases ok with
  | true => exact ⟨true, pos₁, front₁, notes₁ ++ [note pos pos₁], hfront₁, fun later => by
      simp [Recogniser.noting, heq₁]⟩
  | false => exact ⟨false, pos₁, front₁, notes₁, hfront₁, fun later => by
      simp [Recogniser.noting, heq₁]⟩

theorem Confined.notingFailure {note : ω} (hp : Confined G x p) :
    Confined G x (p.notingFailure note) := by
  intro pos front hfront
  obtain ⟨ok, pos₁, front₁, notes₁, hfront₁, heq₁⟩ := hp pos front hfront
  cases ok with
  | true => exact ⟨true, pos₁, front₁, notes₁, hfront₁, fun later => by
      simp [Recogniser.notingFailure, heq₁]⟩
  | false => exact ⟨false, pos₁, front₁, notes₁ ++ [note], hfront₁, fun later => by
      simp [Recogniser.notingFailure, heq₁]⟩

theorem Confined.always (hp : Confined G x p) : Confined G x p.always := by
  intro pos front hfront
  obtain ⟨ok, pos₁, front₁, notes₁, hfront₁, heq₁⟩ := hp pos front hfront
  exact ⟨true, pos₁, front₁, notes₁, hfront₁, fun later => by simp [Recogniser.always, heq₁]⟩

end Confined

end Recogniser

end Httpaa
