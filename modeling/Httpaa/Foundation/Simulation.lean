import Httpaa.Foundation.Transition

/-!
# Systems that answer alike

A call on a system may be refused, or is answered and leads to a new state. Two systems between
whose related states every call is refused by both, or gets one answer from both and leads to
related states, have the same runs, answers included.
-/

namespace Httpaa.Transition

variable {σ τ α ο : Type*} {call : σ → α → Option (ο × σ)}
  {call' : τ → α → Option (ο × τ)} {R : σ → τ → Prop} {s s' : σ} {t t' : τ}

/-- A call as a step whose event carries the answer. -/
def observed [DecidableEq ο] (call : σ → α → Option (ο × σ)) (s : σ) (event : α × ο) : Option σ :=
  (call s event.1).bind fun result => if result.1 = event.2 then some result.2 else none

/-- The results of one call on two systems. -/
inductive Alike (R : σ → τ → Prop) : Option (ο × σ) → Option (ο × τ) → Prop
  | refused : Alike R none none
  | answered (answer : ο) {s : σ} {t : τ} (hrelated : R s t) :
      Alike R (some (answer, s)) (some (answer, t))

theorem Alike.symm {r : Option (ο × σ)} {r' : Option (ο × τ)} (h : Alike R r r') :
    Alike (fun t s => R s t) r' r := by
  cases h with
  | refused => exact .refused
  | answered answer hrelated => exact .answered answer hrelated

variable [DecidableEq ο]

theorem Alike.observed {event : α × ο} (h : Alike R (call s event.1) (call' t event.1))
    (hstep : observed call s event = some s') :
    ∃ t', observed call' t event = some t' ∧ R s' t' := by
  rw [Transition.observed] at hstep ⊢
  cases hcall : call s event.1 with
  | none =>
      rw [hcall] at hstep
      cases hstep
  | some result =>
      rw [hcall] at h hstep
      cases hcall' : call' t event.1 with
      | none =>
          rw [hcall'] at h
          cases h
      | some result' =>
          rw [hcall'] at h
          cases h with
          | answered answer hrelated =>
              obtain ⟨hanswer, hlast⟩ := Option.ite_none_right_eq_some.mp hstep
              cases hlast
              exact ⟨_, if_pos hanswer, hrelated⟩

/-- A run of one system is a run of the other. -/
theorem run_alike {events : List (α × ο)}
    (hcalls : ∀ s t a, R s t → Alike R (call s a) (call' t a))
    (hrun : Run (observed call) s events s') (hrelated : R s t) :
    ∃ t', Run (observed call') t events t' ∧ R s' t' := by
  induction hrun generalizing t with
  | nil s => exact ⟨t, .nil t, hrelated⟩
  | cons hok hstep _ ih =>
      obtain ⟨t₁, hstep', hrelated'⟩ := (hcalls _ _ _ hrelated).observed hstep
      obtain ⟨t', hrun', hlast⟩ := ih hrelated'
      exact ⟨t', .cons hok hstep' hrun', hlast⟩

end Httpaa.Transition
