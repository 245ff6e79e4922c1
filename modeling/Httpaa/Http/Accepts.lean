import Httpaa.Http.Grammar

/-!
# What a reader accepts

A reader on texts seen as a relation between a text and what it leaves of it.
-/

namespace Httpaa

/-- The reader recognises something in front of `r`. -/
def Accepts (g : List UInt8 → Bool × List UInt8) (l r : List UInt8) : Prop := g l = (true, r)

variable {g : List UInt8 → Bool × List UInt8} {l r : List UInt8}

theorem accepts_iff : Accepts g l r ↔ (g l).1 = true ∧ (g l).2 = r := by
  rw [Accepts, Prod.ext_iff]

theorem isChar_accepts {c : UInt8} : Accepts (Text.isChar c) l r ↔ l = c :: r := by
  cases l with
  | nil => simp [Accepts, Text.isChar]
  | cons x l =>
      by_cases hx : c = x
      · simp [Accepts, Text.isChar, hx]
      · simp [Accepts, Text.isChar, hx, Ne.symm hx]

theorem matchUpper_accepts {pc : List UInt8} : Accepts (Text.matchUpper pc) l r ↔
    ∃ piece, piece.map toUpper = pc ∧ l = piece ++ r := by
  induction pc generalizing l with
  | nil => simp [Accepts, Text.matchUpper]
  | cons x pc ih =>
      constructor
      · intro h
        rcases l with _ | ⟨y, l⟩
        · simp [Accepts, Text.matchUpper] at h
        · by_cases hxy : x = toUpper y
          · obtain ⟨piece, hpiece, rfl⟩ := ih.mp (by simpa [Accepts, Text.matchUpper, hxy] using h)
            exact ⟨y :: piece, by simp [hpiece, hxy], rfl⟩
          · simp [Accepts, Text.matchUpper, hxy] at h
      · rintro ⟨piece, hpiece, rfl⟩
        obtain ⟨y, piece, rfl, rfl, hpiece'⟩ := List.map_eq_cons_iff.mp hpiece
        have hrest := ih.mpr ⟨piece, hpiece', rfl⟩
        simpa [Accepts, Text.matchUpper] using hrest

end Httpaa
