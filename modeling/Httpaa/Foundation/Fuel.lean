import Mathlib.Data.Nat.Init

/-!
# Runs with fuel

A computation that may loop for ever is a function of the fuel it is given; without an answer it has
run out. It ends in an answer if it gives that answer from some fuel on and never another one, and
diverges if it gives none whatever the fuel. The rules take one unit of fuel off.
-/

namespace Httpaa.Fuel

variable {α β : Type*} {run run' run'' : Nat → Option α} {first : Nat → Option β}
  {next : β → Nat → Option α} {a a' : α} {b : β}

/-- The answer is `a`, and enough fuel gives it. -/
structure Ends (run : Nat → Option α) (a : α) : Prop where
  only : ∀ fuel, run fuel = none ∨ run fuel = some a
  enough : ∃ bound, ∀ fuel, bound ≤ fuel → run fuel = some a

/-- No fuel is enough. -/
def Diverges (run : Nat → Option α) : Prop := ∀ fuel, run fuel = none

theorem Ends.unique (h : Ends run a) (h' : Ends run a') : a = a' := by
  obtain ⟨bound, hbound⟩ := h.enough
  obtain ⟨bound', hbound'⟩ := h'.enough
  have hboth := (hbound _ (Nat.le_max_left bound bound')).symm.trans
    (hbound' _ (Nat.le_max_right bound bound'))
  exact Option.some.inj hboth

theorem Ends.not_diverges (h : Ends run a) : ¬ Diverges run := by
  intro hdiverges
  obtain ⟨bound, hbound⟩ := h.enough
  cases (hdiverges bound).symm.trans (hbound bound (Nat.le_refl bound))

theorem Ends.map (h : Ends run a) (f : α → β) : Ends (fun fuel => (run fuel).map f) (f a) := by
  constructor
  · intro fuel
    rcases h.only fuel with hnone | hsome
    · exact .inl (by rw [hnone, Option.map_none])
    · exact .inr (by rw [hsome, Option.map_some])
  · obtain ⟨bound, hbound⟩ := h.enough
    exact ⟨bound, fun fuel hfuel => by rw [hbound fuel hfuel, Option.map_some]⟩

theorem Diverges.map (h : Diverges run) (f : α → β) : Diverges fun fuel => (run fuel).map f := by
  intro fuel
  have hfuel := h fuel
  exact congrArg (Option.map f) hfuel

/-! ### One unit of fuel -/

theorem Ends.const (a : α) : Ends (fun _ => some a) a :=
  ⟨fun _ => .inr rfl, 0, fun _ _ => rfl⟩

/-- The first part ends, and the run is what comes behind it. -/
theorem Ends.bind (hzero : run 0 = none)
    (hstep : ∀ fuel, run (fuel + 1) = (first fuel).bind fun b => next b fuel)
    (hfirst : Ends first b) (hnext : Ends (next b) a) : Ends run a := by
  constructor
  · intro fuel
    cases fuel with
    | zero => exact .inl hzero
    | succ fuel =>
        rw [hstep fuel]
        rcases hfirst.only fuel with hnone | hsome
        · exact .inl (by rw [hnone, Option.bind_none])
        · rw [hsome, Option.bind_some]
          exact hnext.only fuel
  · obtain ⟨bound, hbound⟩ := hfirst.enough
    obtain ⟨bound', hbound'⟩ := hnext.enough
    refine ⟨max bound bound' + 1, fun fuel hfuel => ?_⟩
    obtain ⟨fuel, rfl⟩ := Nat.exists_eq_add_of_le' (Nat.le_of_add_left_le hfuel)
    rw [hstep fuel, hbound fuel (by omega), Option.bind_some, hbound' fuel (by omega)]

theorem Diverges.bind_next (hzero : run 0 = none)
    (hstep : ∀ fuel, run (fuel + 1) = (first fuel).bind fun b => next b fuel)
    (hfirst : Ends first b) (hnext : Diverges (next b)) : Diverges run := by
  intro fuel
  cases fuel with
  | zero => exact hzero
  | succ fuel =>
      rw [hstep fuel]
      rcases hfirst.only fuel with hnone | hsome
      · rw [hnone, Option.bind_none]
      · rw [hsome, Option.bind_some, hnext fuel]

theorem Diverges.bind_first (hzero : run 0 = none)
    (hstep : ∀ fuel, run (fuel + 1) = (first fuel).bind fun b => next b fuel)
    (hfirst : Diverges first) : Diverges run := by
  intro fuel
  cases fuel with
  | zero => exact hzero
  | succ fuel => rw [hstep fuel, hfirst fuel, Option.bind_none]

theorem Diverges.same (hzero : run 0 = none) (hstep : ∀ fuel, run (fuel + 1) = run fuel) :
    Diverges run := by
  intro fuel
  induction fuel with
  | zero => exact hzero
  | succ fuel ih => rw [hstep fuel, ih]

/-! ### Runs that go on as another one -/

/-- `run` comes to the same as `run'`. -/
structure GoesOn (run run' : Nat → Option α) : Prop where
  ends : ∀ a, Ends run' a → Ends run a
  diverges : Diverges run' → Diverges run

theorem GoesOn.refl (run : Nat → Option α) : GoesOn run run := ⟨fun _ h => h, id⟩

theorem GoesOn.trans (h : GoesOn run run') (h' : GoesOn run' run'') : GoesOn run run'' :=
  ⟨fun a ha => h.ends a (h'.ends a ha), fun ha => h.diverges (h'.diverges ha)⟩

theorem GoesOn.bind (hzero : run 0 = none)
    (hstep : ∀ fuel, run (fuel + 1) = (first fuel).bind fun b => next b fuel)
    (hfirst : Ends first b) : GoesOn run (next b) :=
  ⟨fun _ hnext => .bind hzero hstep hfirst hnext, fun hnext => .bind_next hzero hstep hfirst hnext⟩

theorem GoesOn.step (hzero : run 0 = none) (hstep : ∀ fuel, run (fuel + 1) = run' fuel) :
    GoesOn run run' := by
  have hbind : ∀ fuel, run (fuel + 1) = ((fun _ => some ()) fuel).bind fun _ => run' fuel := hstep
  exact GoesOn.bind hzero hbind (Ends.const ())

theorem GoesOn.unstep (hstep : ∀ fuel, run (fuel + 1) = run' fuel) : GoesOn run' run := by
  constructor
  · intro a ha
    constructor
    · intro fuel
      rw [← hstep fuel]
      exact ha.only (fuel + 1)
    · obtain ⟨bound, hbound⟩ := ha.enough
      refine ⟨bound, fun fuel hfuel => ?_⟩
      rw [← hstep fuel, hbound (fuel + 1) (Nat.le_succ_of_le hfuel)]
  · intro ha fuel
    rw [← hstep fuel, ha (fuel + 1)]

theorem Ends.now (hzero : run 0 = none) (hstep : ∀ fuel, run (fuel + 1) = some a) : Ends run a :=
  (GoesOn.step hzero hstep).ends a (Ends.const a)

end Httpaa.Fuel
