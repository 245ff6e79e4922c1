import Mathlib.Data.List.Basic

/-!
# Histories of a first-in first-out queue

The abstract queue is given by its whole history: what it accepted, what it delivered, and what is
still pending, all in order. The relation between the three is the queue discipline, and an
implementation refines the queue when its operations act on them as `enqueue` and `dequeue`.
-/

namespace Httpaa.Fifo

variable {α : Type*} {accepted delivered pending : List α} {x : α}

/-- The pending items are exactly the accepted ones not yet delivered, in the order of
acceptance. -/
def Disciplined (accepted delivered pending : List α) : Prop :=
  delivered ++ pending = accepted

theorem Disciplined.empty : Disciplined ([] : List α) [] [] := rfl

theorem Disciplined.enqueue (h : Disciplined accepted delivered pending) :
    Disciplined (accepted ++ [x]) delivered (pending ++ [x]) := by
  rw [Disciplined, ← List.append_assoc, h]

theorem Disciplined.dequeue (h : Disciplined accepted delivered (x :: pending)) :
    Disciplined accepted (delivered ++ [x]) pending := by
  rw [Disciplined, List.append_assoc, List.singleton_append, h]

/-- What was delivered is an initial part of what was accepted: nothing is lost, repeated,
reordered or invented. -/
theorem Disciplined.isPrefix (h : Disciplined accepted delivered pending) :
    delivered <+: accepted :=
  ⟨pending, h⟩

theorem Disciplined.length (h : Disciplined accepted delivered pending) :
    delivered.length + pending.length = accepted.length := by
  rw [← List.length_append, h]

end Httpaa.Fifo
