import Httpaa.Pool.Index

/-!
# Which slots the pool touches

The write check passes a write index that rests one past the last slot as soon as the read index has
moved, although the slot is then taken at the unchanged index. The runs that stay inside the array
are exactly those that never take a work out of an array filled to its end.
-/

namespace Httpaa

open Transition

/-- Whenever the write check passes, the slot then written is a slot of the array. -/
def WriteSlotInRange (sync : WorkeraaSync) : Prop :=
  workeraaWorkCheckWriteIndex sync = true → sync.workWriteIndex < sync.workSize

/-- Whenever the read check passes, the slot then read is a slot of the array. -/
def ReadSlotInRange (sync : WorkeraaSync) : Prop :=
  workeraaWorkCheckReadIndex sync = true → sync.workReadIndex < sync.workSize

instance (sync : WorkeraaSync) : Decidable (WriteSlotInRange sync) :=
  inferInstanceAs (Decidable (_ → _))

/-- A worker takes the first work out of an array whose write index rests at its end. -/
def TakesFromFullArray (pool : WorkeraaPool) : PoolEvent → Prop
  | .setWork _ _ => False
  | .getWork _ => pool.sync.workReadIndex = 0 ∧ pool.sync.workWriteIndex = pool.sync.workSize ∧
      1 < pool.sync.workSize

private theorem ReadSlotInRange.of_indexInv {sync : WorkeraaSync} (hinv : IndexInv sync) :
    ReadSlotInRange sync := by
  intro hcheck
  obtain ⟨hpos, hread, hwrite, hend, hstart⟩ := hinv
  simp only [workeraaWorkCheckReadIndex] at hcheck
  rw [Nat.min_eq_left hread, Nat.min_eq_left hwrite] at hcheck
  grind

/-- A write index at the end of the array that the write check refuses. -/
structure EndRefused (sync : WorkeraaSync) : Prop where
  index : IndexInv sync
  end_refused : sync.workWriteIndex = sync.workSize →
    sync.workReadIndex = 0 ∨ sync.workReadIndex = sync.workSize

theorem EndRefused.writeSlotInRange {sync : WorkeraaSync} (h : EndRefused sync) :
    WriteSlotInRange sync := by
  intro hcheck
  have hiff := (workeraaWorkCheckWriteIndex_iff sync h.index).mp hcheck
  have hwrite := h.index.write_le
  have hend := h.end_refused
  have hread := h.index.read_le
  omega

theorem EndRefused.step {pool pool' : WorkeraaPool} {event : PoolEvent}
    (hinv : EndRefused pool.sync) (hok : ¬ TakesFromFullArray pool event)
    (hstep : pool.step event = some pool') : EndRefused pool'.sync := by
  refine ⟨hinv.index.step _ hstep, ?_⟩
  cases event with
  | setWork pWork alloc =>
      simp only [WorkeraaPool.step, Option.some.injEq] at hstep
      subst hstep
      rcases workeraaSetWork_cases pool pWork alloc hinv.index with
        ⟨heq, -⟩ | ⟨_, _, -, hcheck, heq⟩
      · rw [heq]
        exact hinv.end_refused
      · rw [heq]
        have hin := hinv.writeSlotInRange hcheck
        obtain ⟨hpos, hread, hwrite, hend, hstart⟩ := hinv.index
        simp only [WriteWraps]
        grind
  | getWork worker =>
      obtain ⟨result, hget, rfl⟩ := Option.map_eq_some_iff.mp hstep
      obtain ⟨hcount, ⟨-, rfl⟩ | ⟨hlt, rfl⟩⟩ := workeraaGetWork_cases pool hinv.index hget
      · exact hinv.end_refused
      · have hend := hinv.end_refused
        have hpos := hinv.index.size_pos
        simp only [TakesFromFullArray] at hok
        grind

/-- The slots written and read are slots of the array in every run in which no work is taken out of
an array filled to its end, and a step that takes one leads to a pool that writes past the end. -/
theorem workSlots_inRange (workSizeMax : Nat) (memory : Nat → WorkeraaWork) (cells : WorkCells) :
    (∀ (events : List PoolEvent) (pool : WorkeraaPool),
      GuardedRun WorkeraaPool.step (fun pool event => ¬ TakesFromFullArray pool event)
          (.initial workSizeMax memory cells) events pool →
        WriteSlotInRange pool.sync ∧ ReadSlotInRange pool.sync) ∧
      ∀ (events : List PoolEvent) (pool pool' : WorkeraaPool) (event : PoolEvent),
      Run WorkeraaPool.step (.initial workSizeMax memory cells) events pool →
        pool.step event = some pool' → TakesFromFullArray pool event →
          ¬ WriteSlotInRange pool'.sync := by
  constructor
  · intro events pool hrun
    have hinv : EndRefused pool.sync :=
      hrun.invariant (fun pool => EndRefused pool.sync)
        (fun _ _ _ hinv hok hstep => hinv.step hok hstep)
        ⟨IndexInv.initial _ _, fun _ => .inl rfl⟩
    exact ⟨hinv.writeSlotInRange, .of_indexInv hinv.index⟩
  · intro events pool pool' event hrun hstep hfull
    have hinv := IndexInv.run hrun
    cases event with
    | setWork _ _ => exact hfull.elim
    | getWork worker =>
        obtain ⟨hread, hwrite, hsize⟩ := hfull
        have hinv' := hinv.step _ hstep
        obtain ⟨result, hget, rfl⟩ := Option.map_eq_some_iff.mp hstep
        obtain ⟨hcount, ⟨hend, -⟩ | ⟨hlt, rfl⟩⟩ := workeraaGetWork_cases pool hinv hget
        · omega
        · intro hin
          have hcheck := hin ((workeraaWorkCheckWriteIndex_iff _ hinv').mpr (by grind))
          simp only at hcheck
          omega

def filledPool : WorkeraaPool :=
  let pool := (workeraaSetWork (.initial 2 zeroMemory zeroCells) (socketaaServerWork 4 8080) true).2
  (workeraaSetWork pool (socketaaServerWork 5 8080) true).2

theorem workSlots_inRange_filledPool :
    (WriteSlotInRange filledPool.sync ∧ ReadSlotInRange filledPool.sync) ∧
      ∃ pool, filledPool.step (.getWork 0) = some pool ∧ ¬ WriteSlotInRange pool.sync := by
  have hsafe := (workSlots_inRange 2 zeroMemory zeroCells).1
    [.setWork (socketaaServerWork 4 8080) true, .setWork (socketaaServerWork 5 8080) true]
    filledPool (.cons id rfl (.cons id rfl (.nil _)))
  have hunsafe := (workSlots_inRange 2 zeroMemory zeroCells).2
    [.setWork (socketaaServerWork 4 8080) true, .setWork (socketaaServerWork 5 8080) true]
    filledPool _ (.getWork 0) (.cons trivial rfl (.cons trivial rfl (.nil _))) rfl
    (by refine ⟨rfl, rfl, by decide⟩)
  exact ⟨hsafe, _, rfl, hunsafe⟩

/-- Three calls at `work_size` 2: the next work would be written to slot 2. -/
theorem workSlots_outOfRange :
    ¬ ∀ (workSizeMax : Nat) (memory : Nat → WorkeraaWork) (cells : WorkCells)
        (events : List PoolEvent) (pool : WorkeraaPool), 1 ≤ workSizeMax →
      Run WorkeraaPool.step (.initial workSizeMax memory cells) events pool →
        WriteSlotInRange pool.sync ∧ ReadSlotInRange pool.sync := by
  intro h
  have hrange := h 2 zeroMemory zeroCells
    [.setWork (socketaaServerWork 4 8080) true, .setWork (socketaaServerWork 5 8080) true,
      .getWork 0] _ (by decide) (run_iff_runEvents.mpr rfl)
  exact absurd (hrange.1 (by decide)) (by decide)

end Httpaa
