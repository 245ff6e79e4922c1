import Httpaa.Pool.Index

/-!
# The pool never holds more than it has room for

The write index may skip slot 0, and both indices may rest behind the last slot. However far they
have moved, there are never more works counted than slots between the read index and the write
index.
-/

namespace Httpaa

open Transition

/-- The slots from the read index on, around the end of the array, up to the write index; all of
them where the indices are equal and a work is counted. -/
def WorkeraaSync.distance (sync : WorkeraaSync) : Nat :=
  if sync.workReadIndex < sync.workWriteIndex then sync.workWriteIndex - sync.workReadIndex
  else if sync.workWriteIndex < sync.workReadIndex then
    sync.workSize - sync.workReadIndex + sync.workWriteIndex
  else if 0 < sync.workCount then sync.workSize
  else 0

/-- The indices are inside the array or right behind it, and no work is counted twice. -/
structure WithinRoom (sync : WorkeraaSync) : Prop where
  read_le : sync.workReadIndex ≤ sync.workSize
  write_le : sync.workWriteIndex ≤ sync.workSize
  count_le : sync.workCount ≤ sync.workSize
  count_le_distance : sync.workCount ≤ sync.distance

/-- The form of the invariant that carries over: a work is counted in front of the write index
only. -/
structure CountedWithin (sync : WorkeraaSync) : Prop where
  index : IndexInv sync
  count_le_distance : sync.workCount ≤ sync.distance

private theorem WorkeraaSync.distance_le {sync : WorkeraaSync} (hinv : IndexInv sync) :
    sync.distance ≤ sync.workSize := by
  obtain ⟨hpos, hread, hwrite, hend, hstart⟩ := hinv
  rw [distance]
  split
  · exact Nat.le_trans (Nat.sub_le _ _) hwrite
  · split
    · omega
    · split
      · exact Nat.le_refl _
      · exact Nat.zero_le _

private theorem CountedWithin.withinRoom {sync : WorkeraaSync} (hinv : CountedWithin sync) :
    WithinRoom sync :=
  ⟨hinv.index.read_le, hinv.index.write_le,
    Nat.le_trans hinv.count_le_distance (WorkeraaSync.distance_le hinv.index),
    hinv.count_le_distance⟩

/-- A work more goes with a slot more, also where the write index skips slot 0 or catches up with
the read index; a work less with a slot less. -/
theorem CountedWithin.step {pool pool' : WorkeraaPool} {event : PoolEvent}
    (hinv : CountedWithin pool.sync) (hstep : pool.step event = some pool') :
    CountedWithin pool'.sync := by
  refine ⟨hinv.index.step _ hstep, ?_⟩
  cases event with
  | setWork pWork alloc =>
      simp only [WorkeraaPool.step, Option.some.injEq] at hstep
      subst hstep
      rcases workeraaSetWork_cases pool pWork alloc hinv.index with
        ⟨heq, -⟩ | ⟨_, _, -, hcheck, heq⟩
      · rw [heq]
        exact hinv.count_le_distance
      · rw [heq]
        have hiff := (workeraaWorkCheckWriteIndex_iff pool.sync hinv.index).mp hcheck
        obtain ⟨⟨hpos, hread, hwrite, hend, hstart⟩, hcount⟩ := hinv
        simp only [WorkeraaSync.distance, WriteWraps] at hcount ⊢
        grind
  | getWork worker =>
      obtain ⟨result, hget, rfl⟩ := Option.map_eq_some_iff.mp hstep
      obtain ⟨hpos, ⟨-, rfl⟩ | ⟨hlt, rfl⟩⟩ := workeraaGetWork_cases pool hinv.index hget
      · exact hinv.count_le_distance
      · obtain ⟨⟨hsize, hread, hwrite, hend, hstart⟩, hcount⟩ := hinv
        simp only [WorkeraaSync.distance] at hcount ⊢
        grind

/-- In every state of every run the indices are within bounds and the works counted have room. -/
theorem workeraaPool_withinRoom (workSizeMax : Nat) (memory : Nat → WorkeraaWork)
    (cells : WorkCells) (events : List PoolEvent) (pool : WorkeraaPool)
    (hrun : Run WorkeraaPool.step (.initial workSizeMax memory cells) events pool) :
    WithinRoom pool.sync := by
  have hinitial : CountedWithin (workeraaSyncInit workSizeMax memory) :=
    ⟨IndexInv.initial workSizeMax memory, Nat.zero_le _⟩
  have hinv := hrun.invariant (fun pool => CountedWithin pool.sync)
    (fun _ _ _ hinv _ hstep => hinv.step hstep) hinitial
  exact hinv.withinRoom

/-- Two slots: two works set, one taken, and a third one set behind the end of the array. -/
theorem workeraaPool_withinRoom_twoSlots : ∃ events pool, events.length = 4 ∧
    Run WorkeraaPool.step (.initial 2 zeroMemory zeroCells) events pool ∧
    WithinRoom pool.sync := by
  have hrun : Run WorkeraaPool.step (.initial 2 zeroMemory zeroCells)
      [.setWork (socketaaServerWork 4 8080) true, .setWork (socketaaServerWork 5 8080) true,
        .getWork 0, .setWork (socketaaServerWork 6 8080) true] _ := run_iff_runEvents.mpr rfl
  exact ⟨_, _, rfl, hrun, workeraaPool_withinRoom 2 zeroMemory zeroCells _ _ hrun⟩

end Httpaa
