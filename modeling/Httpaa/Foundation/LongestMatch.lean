import Mathlib.Data.List.TakeWhile

/-!
# Longest matches

The longest piece in front of a text that belongs to a language. For the runs of a class of
characters it is what `takeWhile` takes.
-/

namespace Httpaa

variable {α : Type*} {p : α → Bool} {L : List α → Prop} {s t piece other front : List α}

/-- `piece` is in the language and in front of `s`, and nothing longer is. -/
structure LongestMatch (L : List α → Prop) (s piece : List α) : Prop where
  mem : L piece
  isPrefix : piece <+: s
  longest : ∀ other, L other → other <+: s → other.length ≤ piece.length

theorem LongestMatch.unique (h : LongestMatch L s piece) (h' : LongestMatch L s other) :
    piece = other := by
  have hlength : piece.length = other.length :=
    Nat.le_antisymm (h'.longest piece h.mem h.isPrefix) (h.longest other h'.mem h'.isPrefix)
  exact (List.prefix_of_prefix_length_le h.isPrefix h'.isPrefix (Nat.le_of_eq hlength)).eq_of_length
    hlength

structure IsRun (p : α → Bool) (piece : List α) : Prop where
  ne_nil : piece ≠ []
  all : ∀ x ∈ piece, p x = true

/-- A run in front of a text is no longer than what `takeWhile` takes. -/
theorem IsRun.prefix_takeWhile (h : IsRun p piece) (hpre : piece <+: s) :
    piece <+: s.takeWhile p := by
  obtain ⟨t, rfl⟩ := hpre
  rw [List.takeWhile_append_of_pos h.all]
  exact List.prefix_append piece _

theorem isRun_takeWhile (h : s.takeWhile p ≠ []) : IsRun p (s.takeWhile p) :=
  ⟨h, fun _ hx => List.mem_takeWhile_imp hx⟩

theorem longestMatch_takeWhile (h : s.takeWhile p ≠ []) :
    LongestMatch (IsRun p) s (s.takeWhile p) := by
  constructor
  · exact isRun_takeWhile h
  · exact List.takeWhile_prefix p
  · intro other hrun hpre
    exact (hrun.prefix_takeWhile hpre).length_le

theorem not_isRun_of_takeWhile (h : s.takeWhile p = []) (hpre : piece <+: s) :
    ¬ IsRun p piece := by
  intro hrun
  have htake := hrun.prefix_takeWhile hpre
  rw [h] at htake
  exact hrun.ne_nil (List.prefix_nil.mp htake)

/-- What a run stops in front of is not of its class, and what it takes is the whole run. -/
theorem isRun_append_iff {rest : List α} :
    IsRun p piece ∧ (∀ x ∈ rest.head?, p x = false) ∧ s = piece ++ rest ↔
      s.takeWhile p = piece ∧ piece ≠ [] ∧ s.dropWhile p = rest := by
  constructor
  · rintro ⟨hrun, hstop, rfl⟩
    have htake : rest.takeWhile p = [] := by
      cases rest with
      | nil => rfl
      | cons x rest => simp [hstop x rfl]
    have hdrop : rest.dropWhile p = rest := by
      cases rest with
      | nil => rfl
      | cons x rest => simp [hstop x rfl]
    rw [List.takeWhile_append_of_pos hrun.all, List.dropWhile_append_of_pos hrun.all, htake, hdrop]
    exact ⟨List.append_nil piece, hrun.ne_nil, rfl⟩
  · rintro ⟨rfl, hne, rfl⟩
    refine ⟨isRun_takeWhile hne, ?_, (List.takeWhile_append_dropWhile).symm⟩
    intro x hx
    have hhead := List.head?_dropWhile_not p s
    rw [Option.mem_def.mp hx] at hhead
    simpa using hhead

/-- Two runs with a character between them that is not of their class. -/
theorem isRun_pair_iff {first last rest : List α} {x : α} (hx : p x = false) :
    IsRun p first ∧ IsRun p last ∧ (∀ y ∈ rest.head?, p y = false) ∧
        s = first ++ x :: (last ++ rest) ↔
      first ≠ [] ∧ last ≠ [] ∧ s.takeWhile p = first ∧
        ∃ t, s.dropWhile p = x :: t ∧ t.takeWhile p = last ∧ t.dropWhile p = rest := by
  constructor
  · rintro ⟨hfirst, hlast, hstop, hs⟩
    have hbetween : ∀ y ∈ (x :: (last ++ rest)).head?, p y = false := by
      intro y hy
      obtain rfl : x = y := by simpa using hy
      exact hx
    obtain ⟨htake, -, hdrop⟩ := isRun_append_iff.mp ⟨hfirst, hbetween, hs⟩
    obtain ⟨htake', -, hdrop'⟩ := isRun_append_iff.mp ⟨hlast, hstop, rfl⟩
    exact ⟨hfirst.ne_nil, hlast.ne_nil, htake, last ++ rest, hdrop, htake', hdrop'⟩
  · rintro ⟨hfirst, hlast, htake, t, hdrop, htake', hdrop'⟩
    obtain ⟨hrun, -, hs⟩ := isRun_append_iff.mpr ⟨htake, hfirst, hdrop⟩
    obtain ⟨hrun', hstop, ht⟩ := isRun_append_iff.mpr ⟨htake', hlast, hdrop'⟩
    rw [ht] at hs
    exact ⟨hrun, hrun', hstop, hs⟩

end Httpaa
