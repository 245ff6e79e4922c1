import Mathlib.Data.List.Basic

/-!
# Assignments that are made once more

A run of assignments leaves no trace of assignments made in front of it, if it makes each of them
itself. Nothing but one law is needed: an assignment that is made again later may as well be made
only then.
-/

namespace Httpaa.Overwriting

variable {σ ω : Type*} (write : σ → ω → σ)

/-- An assignment made again behind another one may as well be made only then. -/
def Steady : Prop := ∀ s w g, write (write (write s w) g) w = write (write s g) w

/-- Nothing of `w'` is left behind `w`. -/
def Covers (w w' : ω) : Prop := ∀ s, write (write s w') w = write s w

variable {write} {s s' : σ} {w : ω} {ws gs : List ω}

/-- States that do not differ behind `w` do not differ behind it after other assignments. -/
theorem Steady.foldl (hsteady : Steady write) (gs : List ω) (h : write s w = write s' w) :
    write (gs.foldl write s) w = write (gs.foldl write s') w := by
  induction gs generalizing s s' with
  | nil => exact h
  | cons g gs ih =>
      apply ih
      rw [← hsteady s w g, h, hsteady s' w g]

/-- A run that covers an assignment leaves no trace of it. -/
theorem Steady.foldl_covered (hsteady : Steady write) {w' : ω}
    (hcovers : ∃ w ∈ ws, Covers write w w') (s : σ) :
    ws.foldl write (write s w') = ws.foldl write s := by
  obtain ⟨w, hw, hcovers⟩ := hcovers
  obtain ⟨front, rest, rfl⟩ := List.append_of_mem hw
  have hlast := hsteady.foldl front (hcovers s)
  simp only [List.foldl_append, List.foldl_cons, hlast]

/-- A run that covers each assignment of another one leaves no trace of it. -/
theorem Steady.foldl_foldl (hsteady : Steady write)
    (hcovers : ∀ w' ∈ gs, ∃ w ∈ ws, Covers write w w') (s : σ) :
    ws.foldl write (gs.foldl write s) = ws.foldl write s := by
  induction gs generalizing s with
  | nil => rfl
  | cons g gs ih =>
      have hrest := ih (fun w' hw' => hcovers w' (List.mem_cons_of_mem g hw')) (write s g)
      exact hrest.trans (hsteady.foldl_covered (hcovers g (by simp)) s)

end Httpaa.Overwriting
