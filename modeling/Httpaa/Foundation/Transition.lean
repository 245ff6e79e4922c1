import Mathlib.Data.List.Basic

/-!
# Guarded runs of a deterministic step function

A system is a partial step function on states and events; an event that is not enabled has no
successor. A guarded run takes only steps that meet a condition on the state they start from, so
one definition serves both "every run" (the trivial guard) and "every run that avoids this step".
-/

namespace Httpaa.Transition

variable {σ α : Type*} {step : σ → α → Option σ} {ok ok' : σ → α → Prop} {s t u : σ}

/-- Runs from the first state to the last whose every step is enabled and meets the guard. -/
inductive GuardedRun (step : σ → α → Option σ) (ok : σ → α → Prop) : σ → List α → σ → Prop
  | nil (s : σ) : GuardedRun step ok s [] s
  | cons {s t u : σ} {a : α} {events : List α} (hok : ok s a) (hstep : step s a = some t)
      (hrun : GuardedRun step ok t events u) : GuardedRun step ok s (a :: events) u

abbrev Run (step : σ → α → Option σ) : σ → List α → σ → Prop :=
  GuardedRun step fun _ _ => True

theorem GuardedRun.mono {events : List α} (h : ∀ s a, ok s a → ok' s a)
    (hrun : GuardedRun step ok s events t) : GuardedRun step ok' s events t := by
  induction hrun with
  | nil s => exact .nil s
  | cons hok hstep _ ih => exact .cons (h _ _ hok) hstep ih

theorem GuardedRun.run {events : List α} (hrun : GuardedRun step ok s events t) :
    Run step s events t :=
  hrun.mono fun _ _ _ => trivial

theorem GuardedRun.of_forall {p : α → Prop} {events : List α} (hrun : Run step s events t)
    (h : ∀ a ∈ events, p a) : GuardedRun step (fun _ a => p a) s events t := by
  induction hrun with
  | nil s => exact .nil s
  | cons _ hstep _ ih =>
      obtain ⟨ha, h⟩ := List.forall_mem_cons.mp h
      exact .cons ha hstep (ih h)

theorem GuardedRun.append {first second : List α} (hfirst : GuardedRun step ok s first t)
    (hsecond : GuardedRun step ok t second u) : GuardedRun step ok s (first ++ second) u := by
  induction hfirst with
  | nil _ => exact hsecond
  | cons hok hstep _ ih => exact .cons hok hstep (ih hsecond)

theorem GuardedRun.snoc {events : List α} {a : α} (hrun : GuardedRun step ok s events t)
    (hok : ok t a) (hstep : step t a = some u) : GuardedRun step ok s (events ++ [a]) u :=
  hrun.append (.cons hok hstep (.nil u))

/-- An invariant of the start state that every guarded step keeps holds at the end of every
guarded run. -/
theorem GuardedRun.invariant (Inv : σ → Prop) {events : List α}
    (hkeep : ∀ s a t, Inv s → ok s a → step s a = some t → Inv t)
    (hrun : GuardedRun step ok s events t) (hs : Inv s) : Inv t := by
  induction hrun with
  | nil _ => exact hs
  | cons hok hstep _ ih => exact ih (hkeep _ _ _ hs hok hstep)

/-- Run a list of events, failing at the first that is not enabled. -/
def runEvents (step : σ → α → Option σ) : σ → List α → Option σ
  | s, [] => some s
  | s, a :: events => (step s a).bind fun t => runEvents step t events

theorem run_iff_runEvents {events : List α} :
    Run step s events t ↔ runEvents step s events = some t := by
  constructor
  · intro hrun
    induction hrun with
    | nil _ => rfl
    | cons _ hstep _ ih => simpa [runEvents, hstep] using ih
  · intro h
    induction events generalizing s with
    | nil =>
        cases h
        exact .nil _
    | cons a events ih =>
        obtain ⟨m, hstep, hrest⟩ := Option.bind_eq_some_iff.mp h
        exact .cons trivial hstep (ih hrest)

end Httpaa.Transition
