import Mathlib.Data.List.Basic

/-!
# Tables that are looked up without going back

The names of a table are tried one after the other. What a name takes off the text before it fails
is not put back, so the next name is tried behind it. Characters of the text are compared after a
fold `f`, such as that of upper case.
-/

namespace Httpaa

variable {α β δ : Type*} [DecidableEq α] {f : β → α} {p : List α} {ps : List (δ × List α)}
  {s t u v : List β} {d e : δ}

/-- What is left of a name and of a text when the name has taken what it can. -/
def skip (f : β → α) : List α → List β → List α × List β
  | x :: p, y :: s => if x = f y then skip f p s else (x :: p, y :: s)
  | p, s => (p, s)

/-- The first name that is taken as a whole, and what is left of the text. -/
def lookup (f : β → α) : List (δ × List α) → List β → Option δ × List β
  | [], s => (none, s)
  | (d, p) :: ps, s =>
      if (skip f p s).1 = [] then (some d, (skip f p s).2) else lookup f ps (skip f p s).2

/-- The text departs from the name, and `t` is what is left of it. -/
def Departs (f : β → α) (p : List α) (s t : List β) : Prop :=
  ∃ v x back, p = v.map f ++ x :: back ∧ s = v ++ t ∧ ∀ y ∈ t.head?, x ≠ f y

/-! ### One name -/

theorem skip_suffix (p : List α) (s : List β) : (skip f p s).2 <:+ s := by
  fun_induction skip f p s with
  | case1 p y s ih => exact ih.trans (List.suffix_cons y s)
  | case2 x p y s hne => exact List.suffix_refl _
  | case3 p s => exact List.suffix_refl s

theorem skip_spelled (u t : List β) : skip f (u.map f) (u ++ t) = ([], t) := by
  induction u with
  | nil => cases t <;> rfl
  | cons y u ih => rw [List.map_cons, List.cons_append, skip, if_pos rfl, ih]

theorem Departs.skip (h : Departs f p s t) : (skip f p s).1 ≠ [] ∧ (skip f p s).2 = t := by
  obtain ⟨v, x, back, rfl, rfl, hstop⟩ := h
  induction v with
  | nil =>
      cases t with
      | nil => exact ⟨List.cons_ne_nil x back, rfl⟩
      | cons y t =>
          rw [List.map_nil, List.nil_append, List.nil_append, Httpaa.skip, if_neg (hstop y rfl)]
          exact ⟨List.cons_ne_nil x back, rfl⟩
  | cons y v ih => rwa [List.map_cons, List.cons_append, List.cons_append, Httpaa.skip, if_pos rfl]

theorem skip_cases (p : List α) (s : List β) :
    (∃ u, u.map f = p ∧ s = u ++ (skip f p s).2 ∧ (skip f p s).1 = []) ∨
      Departs f p s (skip f p s).2 := by
  fun_induction skip f p s with
  | case1 p y s ih =>
      rcases ih with ⟨u, rfl, hs, hnil⟩ | ⟨v, x, back, rfl, hs, hstop⟩
      · exact .inl ⟨y :: u, rfl, by rw [List.cons_append, ← hs], hnil⟩
      · exact .inr ⟨y :: v, x, back, rfl, by rw [List.cons_append, ← hs], hstop⟩
  | case2 x p y s hne =>
      refine .inr ⟨[], x, p, rfl, rfl, fun z hz => ?_⟩
      obtain rfl : y = z := by simpa using hz
      exact hne
  | case3 p s hshort =>
      cases p with
      | nil => exact .inl ⟨[], rfl, rfl, rfl⟩
      | cons x p =>
          cases s with
          | nil => exact .inr ⟨[], x, p, rfl, rfl, fun z hz => by cases hz⟩
          | cons y s => exact absurd rfl (hshort x p y s rfl)

theorem skip_done_iff : (skip f p s).1 = [] ∧ (skip f p s).2 = t ↔ ∃ u, u.map f = p ∧
    s = u ++ t := by
  constructor
  · rintro ⟨hnil, rfl⟩
    rcases skip_cases p s with ⟨u, hu, hs, -⟩ | hdeparts
    · exact ⟨u, hu, hs⟩
    · exact absurd hnil hdeparts.skip.1
  · rintro ⟨u, rfl, rfl⟩
    rw [skip_spelled]
    exact ⟨rfl, rfl⟩

theorem skip_left_iff : (skip f p s).1 ≠ [] ∧ (skip f p s).2 = t ↔ Departs f p s t := by
  constructor
  · rintro ⟨hne, rfl⟩
    rcases skip_cases p s with ⟨u, -, -, hnil⟩ | hdeparts
    · exact absurd hnil hne
    · exact hdeparts
  · exact Departs.skip

theorem skip_append (hstop : (skip f p s).1 = [] ∨ (skip f p s).2 ≠ []) :
    skip f p (s ++ t) = ((skip f p s).1, (skip f p s).2 ++ t) := by
  fun_induction skip f p s with
  | case1 p y s ih => rw [List.cons_append, skip, if_pos rfl, ih hstop]
  | case2 x p y s hne => rw [List.cons_append, skip, if_neg hne]
  | case3 p s hshort =>
      cases p with
      | nil => cases s <;> cases t <;> rfl
      | cons x p =>
          cases s with
          | nil => simp at hstop
          | cons y s => exact absurd rfl (hshort x p y s rfl)

/-- A name takes off a text what it takes off the folded text. -/
theorem skip_map (p : List α) (s : List β) :
    (skip f p s).1 = (skip id p (s.map f)).1 ∧
      (skip f p s).2.map f = (skip id p (s.map f)).2 := by
  fun_induction skip f p s with
  | case1 p y s ih => simpa [skip] using ih
  | case2 x p y s hne => simp [skip, hne]
  | case3 p s hshort =>
      cases p with
      | nil => cases s <;> exact ⟨rfl, rfl⟩
      | cons x p =>
          cases s with
          | nil => exact ⟨rfl, rfl⟩
          | cons y s => exact absurd rfl (hshort x p y s rfl)

/-! ### A table -/

theorem lookup_suffix (ps : List (δ × List α)) (s : List β) : (lookup f ps s).2 <:+ s := by
  fun_induction lookup f ps s with
  | case1 s => exact List.suffix_refl s
  | case2 d p ps s hfound => exact skip_suffix p s
  | case3 d p ps s hleft ih => exact ih.trans (skip_suffix p s)

theorem lookup_mem (h : (lookup f ps s).1 = some d) : d ∈ ps.map Prod.fst := by
  fun_induction lookup f ps s with
  | case1 s => cases h
  | case2 e p ps s hfound =>
      cases h
      exact List.mem_cons_self
  | case3 e p ps s hleft ih => exact List.mem_cons_of_mem e (ih h)

/-- A name is found where it stands, or where the name in front of it has failed. -/
theorem lookup_cons_eq_some :
    lookup f ((d, p) :: ps) s = (some e, t) ↔
      (d = e ∧ ∃ u, u.map f = p ∧ s = u ++ t) ∨
        ∃ s', Departs f p s s' ∧ lookup f ps s' = (some e, t) := by
  simp only [← skip_done_iff, ← skip_left_iff]
  by_cases hfound : (skip f p s).1 = []
  · simp [lookup, hfound]
  · simp [lookup, hfound]

/-- Names that do not begin as the text does take nothing off it. -/
theorem lookup_departs (hps : ∀ q ∈ ps, Departs f q.2 s s) : lookup f ps s = (none, s) := by
  induction ps with
  | nil => rfl
  | cons q ps ih =>
      obtain ⟨hleft, hrest⟩ := (hps q List.mem_cons_self).skip
      rw [lookup, if_neg hleft, hrest]
      exact ih fun q hq => hps q (List.mem_cons_of_mem _ hq)

theorem lookup_nil (hps : ∀ q ∈ ps, q.2 ≠ []) : lookup f ps [] = (none, []) := by
  induction ps with
  | nil => rfl
  | cons q ps ih =>
      have hskip : skip f q.2 [] = (q.2, []) := by
        cases q.2 <;> rfl
      rw [lookup, hskip, if_neg (hps q List.mem_cons_self)]
      exact ih fun q hq => hps q (List.mem_cons_of_mem _ hq)

/-- A lookup that ends inside a text ends there whatever comes behind it. -/
theorem lookup_append (hps : ∀ q ∈ ps, q.2 ≠ [])
    (hstop : (lookup f ps s).1 ≠ none ∨ (lookup f ps s).2 ≠ []) :
    lookup f ps (s ++ t) = ((lookup f ps s).1, (lookup f ps s).2 ++ t) := by
  fun_induction lookup f ps s with
  | case1 s => rfl
  | case2 d p ps s hfound => simp only [lookup, skip_append (.inl hfound), if_pos hfound]
  | case3 d p ps s hleft ih =>
      have hrest : ∀ q ∈ ps, q.2 ≠ [] := fun q hq => hps q (List.mem_cons_of_mem _ hq)
      have hinside : (skip f p s).2 ≠ [] := by
        intro hnil
        simp [hnil, lookup_nil hrest] at hstop
      simp only [lookup, skip_append (.inr hinside), if_neg hleft, ih hrest hstop]

/-- A lookup finds in a text what it finds in the folded text. -/
theorem lookup_map (ps : List (δ × List α)) (s : List β) :
    (lookup f ps s).1 = (lookup id ps (s.map f)).1 ∧
      (lookup f ps s).2.map f = (lookup id ps (s.map f)).2 := by
  induction ps generalizing s with
  | nil => exact ⟨rfl, rfl⟩
  | cons q ps ih =>
      obtain ⟨hname, hrest⟩ := skip_map (f := f) q.2 s
      simp only [lookup, ← hname, ← hrest]
      split
      · exact ⟨rfl, rfl⟩
      · exact ih _

end Httpaa
