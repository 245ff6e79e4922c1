import Httpaa.Foundation.Recogniser

/-!
# What a recogniser does with a given text

A recogniser yields a text when it reads exactly this text, whatever stands behind it, as long as
what stands behind meets a condition. The rules say how the combinators put texts together.
-/

namespace Httpaa.Recogniser

variable {α ω : Type*}

/-- In front of `text` and then something that meets `stop`, the recogniser reports `ok`, reads the
text and makes the notes, which depend on the position only. -/
def Yields (p : Recogniser α ω) (ok : Bool) (text : List α) (stop : List α → Prop)
    (notes : Nat → List ω) : Prop :=
  ∀ pos rest, stop rest → p ⟨pos, text ++ rest⟩ = ⟨ok, ⟨pos + text.length, rest⟩, notes pos⟩

variable {p q : Recogniser α ω} {ok ok' : Bool} {a b : List α} {stop stop' : List α → Prop}
  {notes notes' : Nat → List ω}

theorem Yields.mono (hp : Yields p ok a stop notes) (h : ∀ rest, stop' rest → stop rest) :
    Yields p ok a stop' notes := fun pos rest hrest => hp pos rest (h rest hrest)

theorem Yields.lift {f : List α → Bool × List α}
    (h : ∀ rest, stop rest → f (a ++ rest) = (ok, rest)) :
    Yields (lift f : Recogniser α ω) ok a stop fun _ => [] := by
  intro pos rest hrest
  simp [Recogniser.lift, h rest hrest, Cursor.to]

/-- The second recogniser starts where the first stops. -/
theorem Yields.andThen (hp : Yields p true a stop notes) (hq : Yields q ok b stop' notes')
    (h : ∀ rest, stop' rest → stop (b ++ rest)) :
    Yields (andThen p q) ok (a ++ b) stop' fun pos => notes pos ++ notes' (pos + a.length) := by
  intro pos rest hrest
  rw [List.append_assoc, Recogniser.andThen, hp pos _ (h rest hrest)]
  simp [Outcome.after, hq (pos + a.length) rest hrest, Nat.add_assoc]

theorem Yields.andThen_fail (hp : Yields p false a stop notes) :
    Yields (Recogniser.andThen p q) false a stop notes := by
  intro pos rest hrest
  simp [Recogniser.andThen, hp pos rest hrest]

theorem Yields.andTry (hp : Yields p true a stop notes) (hq : Yields q ok b stop' notes')
    (h : ∀ rest, stop' rest → stop (b ++ rest)) :
    Yields (andTry p q) true (a ++ b) stop' fun pos => notes pos ++ notes' (pos + a.length) := by
  intro pos rest hrest
  rw [Recogniser.andTry, hp.andThen hq h pos rest hrest, List.append_assoc,
    hp pos _ (h rest hrest)]

theorem Yields.orElse (hp : Yields p true a stop notes) :
    Yields (Recogniser.orElse p q) true a stop notes := by
  intro pos rest hrest
  simp [Recogniser.orElse, hp pos rest hrest]

theorem Yields.both {f : Bool → Bool → Bool} (hp : Yields p ok a stop notes)
    (hq : Yields q ok' b stop' notes') (h : ∀ rest, stop' rest → stop (b ++ rest)) :
    Yields (both f p q) (f ok ok') (a ++ b) stop' fun pos =>
      notes pos ++ notes' (pos + a.length) := by
  intro pos rest hrest
  rw [List.append_assoc, Recogniser.both, hp pos _ (h rest hrest)]
  simp [Outcome.after, hq (pos + a.length) rest hrest, Nat.add_assoc]

theorem Yields.attempt (hp : Yields p true a stop notes) :
    Yields (Recogniser.attempt p) true a stop notes := by
  intro pos rest hrest
  rw [attempt_of_ok (by rw [hp pos rest hrest]), hp pos rest hrest]

/-- A failed attempt reads nothing, but what it noted stays. -/
theorem Yields.attempt_fail (hp : Yields p false a stop notes) :
    Yields (Recogniser.attempt p) false [] (fun rest => ∃ rest', rest = a ++ rest' ∧ stop rest')
      notes := by
  rintro pos _ ⟨rest, rfl, hrest⟩
  simp [Recogniser.attempt, hp pos rest hrest]

theorem Yields.noting (hp : Yields p true a stop notes) (note : Nat → Nat → ω) :
    Yields (Recogniser.noting note p) true a stop fun pos =>
      notes pos ++ [note pos (pos + a.length)] := by
  intro pos rest hrest
  simp [Recogniser.noting, hp pos rest hrest]

theorem Yields.noting_fail (hp : Yields p false a stop notes) (note : Nat → Nat → ω) :
    Yields (Recogniser.noting note p) false a stop notes := by
  intro pos rest hrest
  simp [Recogniser.noting, hp pos rest hrest]

theorem Yields.notingFailure (hp : Yields p true a stop notes) (note : ω) :
    Yields (Recogniser.notingFailure note p) true a stop notes := by
  intro pos rest hrest
  simp [Recogniser.notingFailure, hp pos rest hrest]

theorem Yields.always (hp : Yields p ok a stop notes) :
    Yields (Recogniser.always p) true a stop notes := by
  intro pos rest hrest
  simp [Recogniser.always, hp pos rest hrest]

end Httpaa.Recogniser
