import Mathlib.Algebra.Order.Ring.Int
import Mathlib.Data.List.Basic

/-!
# Lines

A text is cut into lines at each first occurrence of the two characters `cr` and `lf` that end a
line. What stands behind the last end of line is no line. The head of a text are its lines in front
of the first empty one.
-/

namespace Httpaa.Lines

/-- How much of the text the lines and their ends take up. -/
def size {α : Type*} (ls : List (List α)) : Nat := (ls.map fun line => line.length + 2).sum

@[simp] theorem size_cons {α : Type*} (line : List α) (ls : List (List α)) :
    size (line :: ls) = line.length + 2 + size ls := by
  simp [size]

variable {α : Type*} [DecidableEq α] (cr lf : α)

/-- The first line of a text, and what stands behind its end. -/
def takeLine : List α → Option (List α × List α)
  | [] => none
  | x :: s =>
      if x = cr ∧ s.head? = some lf then some ([], s.tail)
      else (takeLine s).map fun (line, rest) => (x :: line, rest)

variable {cr lf}

theorem eq_of_takeLine {s line rest : List α} (h : takeLine cr lf s = some (line, rest)) :
    s = line ++ cr :: lf :: rest := by
  induction s generalizing line with
  | nil => cases h
  | cons x s ih =>
      by_cases hend : x = cr ∧ s.head? = some lf
      · simp only [takeLine, hend, if_true, and_self, Option.some.injEq, Prod.mk.injEq] at h
        obtain ⟨t, rfl⟩ : ∃ t, s = lf :: t := by
          rcases s with _ | ⟨y, t⟩
          · simp at hend
          · exact ⟨t, by simpa using hend.2⟩
        rw [← h.1, ← h.2, hend.1]
        rfl
      · simp only [takeLine, hend, if_false, Option.map_eq_some_iff, Prod.mk.injEq] at h
        obtain ⟨⟨line', rest'⟩, hrec, rfl, rfl⟩ := h
        rw [ih hrec]
        rfl

theorem length_lt_of_takeLine {s line rest : List α} (h : takeLine cr lf s = some (line, rest)) :
    rest.length < s.length := by
  rw [eq_of_takeLine h]
  simp only [List.length_append, List.length_cons]
  omega

theorem takeLine_cons {x : α} {s line rest : List α}
    (h : takeLine cr lf (x :: s) = some (line, rest)) (hline : line ≠ []) :
    line.head? = some x ∧ takeLine cr lf s = some (line.tail, rest) := by
  by_cases hend : x = cr ∧ s.head? = some lf
  · simp only [takeLine, hend, if_true, and_self, Option.some.injEq, Prod.mk.injEq] at h
    exact absurd h.1.symm hline
  · simp only [takeLine, hend, if_false, Option.map_eq_some_iff, Prod.mk.injEq] at h
    obtain ⟨⟨line', rest'⟩, hrec, rfl, rfl⟩ := h
    exact ⟨rfl, hrec⟩

theorem takeLine_drop {s line rest : List α} (h : takeLine cr lf s = some (line, rest)) {n : Nat}
    (hn : n ≤ line.length) : takeLine cr lf (s.drop n) = some (line.drop n, rest) := by
  induction n generalizing s line with
  | zero => exact h
  | succ n ih =>
      rcases s with _ | ⟨x, s⟩
      · cases h
      · rcases line with _ | ⟨y, line⟩
        · simp at hn
        · exact ih (takeLine_cons h (by simp)).2 (by simpa using hn)

/-- What follows a text does not change its first line. -/
theorem takeLine_append {s line rest : List α} (h : takeLine cr lf s = some (line, rest))
    (v : List α) : takeLine cr lf (s ++ v) = some (line, rest ++ v) := by
  induction s generalizing line with
  | nil => cases h
  | cons x s ih =>
      have hhead : s ≠ [] → (s ++ v).head? = s.head? := by
        intro hs
        rw [List.head?_append_of_ne_nil _ hs]
      by_cases hend : x = cr ∧ s.head? = some lf
      · have hs : s ≠ [] := by
          rintro rfl
          simp at hend
        simp only [takeLine, hend, if_true, and_self, Option.some.injEq, Prod.mk.injEq] at h
        simp only [List.cons_append, takeLine, hhead hs, hend, and_self, if_true]
        rw [List.tail_append_of_ne_nil hs, ← h.1, ← h.2]
      · simp only [takeLine, hend, if_false, Option.map_eq_some_iff, Prod.mk.injEq] at h
        obtain ⟨⟨line', rest'⟩, hrec, rfl, rfl⟩ := h
        have hs : s ≠ [] := by
          rintro rfl
          cases hrec
        simp [takeLine, hhead hs, hend, ih hrec]

theorem takeLine_suffix {s t : List α} (hts : t <:+ s) (h : takeLine cr lf s = none) :
    takeLine cr lf t = none := by
  obtain ⟨front, rfl⟩ := hts
  induction front with
  | nil => exact h
  | cons x front ih =>
      rw [List.cons_append, takeLine] at h
      split at h
      · cases h
      · exact ih (by simpa using h)

variable (cr lf)

def lines (s : List α) : List (List α) :=
  match _h : takeLine cr lf s with
  | none => []
  | some (line, rest) => line :: lines rest
termination_by s.length
decreasing_by exact length_lt_of_takeLine _h

variable {cr lf}

theorem lines_of_none {s : List α} (h : takeLine cr lf s = none) : lines cr lf s = [] := by
  rw [lines]
  split
  · rfl
  · simp_all

theorem lines_of_takeLine {s line rest : List α} (h : takeLine cr lf s = some (line, rest)) :
    lines cr lf s = line :: lines cr lf rest := by
  rw [lines]
  split
  · simp_all
  · simp_all

/-- A property of texts that holds of those without a line, and of those with a first line if it
holds of what follows. -/
theorem induction_on (cr lf : α) {P : List α → Prop} (s : List α)
    (hnone : ∀ s, takeLine cr lf s = none → P s)
    (hline : ∀ s line rest, takeLine cr lf s = some (line, rest) → P rest → P s) : P s := by
  induction hn : s.length using Nat.strongRecOn generalizing s with
  | _ n ih =>
      cases h : takeLine cr lf s with
      | none => exact hnone s h
      | some found => exact hline s _ _ h (ih _ (hn ▸ length_lt_of_takeLine h) _ rfl)

/-! ### The head of a text -/

variable (cr lf)

/-- The lines in front of the first empty one. -/
def headLines (s : List α) : List (List α) := (lines cr lf s).takeWhile fun line => !line.isEmpty

variable {cr lf}

theorem headLines_of_none {s : List α} (h : takeLine cr lf s = none) : headLines cr lf s = [] := by
  simp [headLines, lines_of_none h]

theorem headLines_of_empty {s rest : List α} (h : takeLine cr lf s = some ([], rest)) :
    headLines cr lf s = [] := by
  simp [headLines, lines_of_takeLine h]

theorem headLines_of_line {s line rest : List α} (h : takeLine cr lf s = some (line, rest))
    (hline : line ≠ []) : headLines cr lf s = line :: headLines cr lf rest := by
  simp [headLines, lines_of_takeLine h, hline]

end Httpaa.Lines
