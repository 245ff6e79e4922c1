import Mathlib.Data.Option.Basic

/-!
# What every result of a computation meets

A computation that may have no result ensures a condition when every result it has meets it. The
rules follow the way computations are put together.
-/

namespace Httpaa

universe u

variable {α β : Type u} {x : Option α} {f : α → Option β} {P Q : α → Prop} {R : β → Prop} {a : α}

/-- Every result meets the condition. -/
def Ensures (x : Option α) (P : α → Prop) : Prop := ∀ a, x = some a → P a

theorem Ensures.mono (hx : Ensures x P) (h : ∀ a, P a → Q a) : Ensures x Q :=
  fun a ha => h a (hx a ha)

theorem Ensures.none : Ensures Option.none P := fun _ h => by cases h

theorem Ensures.pure (ha : P a) : Ensures (some a) P := fun _ h => Option.some.inj h ▸ ha

/-- What the rest ensures may depend on what the first computation has ensured. -/
theorem Ensures.bind (hx : Ensures x P) (hf : ∀ a, P a → Ensures (f a) R) :
    Ensures (x >>= f) R := by
  intro b hb
  obtain ⟨a, ha, hfa⟩ := Option.bind_eq_some_iff.mp hb
  exact hf a (hx a ha) b hfa

/-- Nothing needs to be known of the first result. -/
theorem Ensures.andThen (hf : ∀ a, Ensures (f a) R) : Ensures (x >>= f) R := by
  intro b hb
  obtain ⟨a, -, hfa⟩ := Option.bind_eq_some_iff.mp hb
  exact hf a b hfa

theorem Ensures.map {g : α → β} (hx : Ensures x fun a => R (g a)) : Ensures (x.map g) R := by
  intro b hb
  obtain ⟨a, ha, rfl⟩ := Option.map_eq_some_iff.mp hb
  exact hx a ha

theorem Ensures.ite {p : Prop} [Decidable p] {x y : Option α} (hx : p → Ensures x P)
    (hy : ¬ p → Ensures y P) : Ensures (if p then x else y) P := by
  split
  · exact hx ‹_›
  · exact hy ‹_›

end Httpaa
