import Httpaa.Pool.Bounds

/-!
# When the pool accepts and yields works

As long as the write index has not skipped slot 0 and no work is taken while it rests at the end of
the array, the count of works is the forward distance between the indices, and acceptance and
delivery are decided by the count alone.
-/

namespace Httpaa

open Transition

/-- The pool accepts a work, into a slot of its array, exactly when it has room, and yields one from
a slot of its array exactly when it has some. -/
def AcceptsByCount (pool : WorkeraaPool) : Prop :=
  (∀ pWork, WriteSlotInRange pool.sync ∧ (workeraaSetWork pool pWork true).1 = true ↔
      pool.sync.workCount < pool.sync.workSize) ∧
    (0 < pool.sync.workCount → pool.sync.workReadIndex < pool.sync.workSize ∧
      ∃ pWork pool', workeraaGetWork pool = some (true, pWork, pool'))

/-- The steps after which the count no longer tells the room in the ring: a work written to the last
slot of a ring with room whose read index has moved, and a work taken while the write index rests at
the end, where it then stays and is taken for a slot. -/
def LosesRoom (pool : WorkeraaPool) : PoolEvent → Prop
  | .setWork _ _ => pool.sync.workWriteIndex + 1 = pool.sync.workSize ∧
      0 < pool.sync.workReadIndex ∧ pool.sync.workReadIndex ≤ pool.sync.workWriteIndex ∧
      pool.sync.workCount < pool.sync.workSize
  | .getWork _ => pool.sync.workWriteIndex = pool.sync.workSize

/-- The count is the forward distance from the read index to the write index, which rests at the end
only as long as no work has been taken. -/
structure CountsDistance (sync : WorkeraaSync) : Prop where
  index : IndexInv sync
  read_lt : sync.workReadIndex < sync.workSize
  distance : (sync.workReadIndex ≤ sync.workWriteIndex ∧
      sync.workCount = sync.workWriteIndex - sync.workReadIndex) ∨
    (sync.workWriteIndex ≤ sync.workReadIndex ∧
      sync.workCount + sync.workReadIndex = sync.workSize + sync.workWriteIndex ∧
      0 < sync.workWriteIndex)
  end_unread : sync.workWriteIndex = sync.workSize → sync.workReadIndex = 0

theorem CountsDistance.writeSlotInRange {sync : WorkeraaSync} (h : CountsDistance sync) :
    WriteSlotInRange sync :=
  EndRefused.writeSlotInRange ⟨h.index, fun hend => .inl (h.end_unread hend)⟩

theorem CountsDistance.step {pool pool' : WorkeraaPool} {event : PoolEvent}
    (hinv : CountsDistance pool.sync) (hok : ¬ LosesRoom pool event)
    (hstep : pool.step event = some pool') : CountsDistance pool'.sync := by
  have hinv' := hinv.index.step _ hstep
  cases event with
  | setWork pWork alloc =>
      simp only [WorkeraaPool.step, Option.some.injEq] at hstep
      subst hstep
      rcases workeraaSetWork_cases pool pWork alloc hinv.index with
        ⟨heq, -⟩ | ⟨_, _, -, hcheck, heq⟩
      · rwa [heq]
      · rw [heq] at hinv' ⊢
        have hiff := (workeraaWorkCheckWriteIndex_iff pool.sync hinv.index).mp hcheck
        have hin := hinv.writeSlotInRange hcheck
        obtain ⟨⟨hpos, hread, hwrite, hend, hstart⟩, hlt, hdist, hunread⟩ := hinv
        simp only [LosesRoom] at hok
        refine ⟨hinv', hlt, ?_, ?_⟩ <;> simp only [WriteWraps] <;> grind
  | getWork worker =>
      obtain ⟨result, hget, rfl⟩ := Option.map_eq_some_iff.mp hstep
      obtain ⟨hcount, ⟨-, rfl⟩ | ⟨hlt, rfl⟩⟩ := workeraaGetWork_cases pool hinv.index hget
      · exact hinv
      · obtain ⟨⟨hpos, hread, hwrite, hend, hstart⟩, -, hdist, hunread⟩ := hinv
        simp only [LosesRoom] at hok
        refine ⟨hinv', ?_, ?_, ?_⟩ <;> simp only <;> grind

private theorem CountsDistance.acceptsByCount {pool : WorkeraaPool}
    (hinv : CountsDistance pool.sync) :
    AcceptsByCount pool := by
  constructor
  · intro pWork
    have hin := hinv.writeSlotInRange
    have hiff := workeraaWorkCheckWriteIndex_iff pool.sync hinv.index
    obtain ⟨⟨hpos, hread, hwrite, hend, hstart⟩, hlt, hdist, -⟩ := hinv
    rw [and_iff_right hin]
    rcases workeraaSetWork_cases pool pWork true ⟨hpos, hread, hwrite, hend, hstart⟩ with
      ⟨heq, hrefused | halloc⟩ | ⟨_, _, -, hcheck, heq⟩
    · rw [heq]
      grind
    · cases halloc
    · rw [heq]
      grind
  · intro hcount
    have hcheck := (workeraaWorkCheckReadIndex_iff pool.sync hinv.index hcount).mpr hinv.read_lt
    refine ⟨hinv.read_lt, ?_⟩
    simp [workeraaGetWork, Nat.pos_iff_ne_zero.mp hcount, hcheck]

private theorem not_acceptsByCount_of_refused {pool : WorkeraaPool}
    (hrefused : workeraaWorkCheckWriteIndex pool.sync = true →
      pool.sync.workSize ≤ pool.sync.workWriteIndex)
    (hroom : pool.sync.workCount < pool.sync.workSize) : ¬ AcceptsByCount pool := by
  intro haccepts
  obtain ⟨hin, hset⟩ := (haccepts.1 (socketaaServerWork 0 0)).mpr hroom
  have hcheck : workeraaWorkCheckWriteIndex pool.sync = true := by
    by_contra hno
    simp [workeraaSetWork, hno] at hset
  exact absurd (hin hcheck) (Nat.not_lt.mpr (hrefused hcheck))

private theorem skipped_stops_early (k : Nat) (pool : WorkeraaPool) (hinv : IndexInv pool.sync)
    (hgap : pool.sync.workWriteIndex + k = pool.sync.workReadIndex)
    (hwrite : 0 < pool.sync.workWriteIndex) (hread : pool.sync.workReadIndex < pool.sync.workSize)
    (hcount : pool.sync.workCount + pool.sync.workReadIndex + 1 =
      pool.sync.workSize + pool.sync.workWriteIndex) :
    ∃ events pool', Run WorkeraaPool.step pool events pool' ∧ ¬ AcceptsByCount pool' := by
  induction k generalizing pool with
  | zero =>
      refine ⟨[], pool, .nil _, not_acceptsByCount_of_refused (fun hcheck => ?_) (by omega)⟩
      have hiff := (workeraaWorkCheckWriteIndex_iff pool.sync hinv).mp hcheck
      omega
  | succ k ih =>
      have hcheck := (workeraaWorkCheckWriteIndex_iff pool.sync hinv).mpr (by omega)
      rcases workeraaSetWork_cases pool (socketaaServerWork 0 0) true hinv with
        ⟨-, hrefused | halloc⟩ | ⟨cells, workerWork, -, -, heq⟩
      · simp [hcheck] at hrefused
      · cases halloc
      · have hstep : pool.step (.setWork (socketaaServerWork 0 0) true) =
            some (workeraaSetWork pool (socketaaServerWork 0 0) true).2 := rfl
        have hinv' := hinv.step _ hstep
        have hwraps : ¬ WriteWraps pool.sync := by
          simp only [WriteWraps]
          omega
        rw [heq] at hstep hinv'
        simp only [hwraps, if_false] at hstep hinv'
        obtain ⟨events, pool', hrun, hfails⟩ := ih ⟨_, cells⟩ hinv' (by simp only; omega)
          (by simp only; omega) hread (by simp only; omega)
        exact ⟨_ :: events, pool', .cons trivial hstep hrun, hfails⟩

/-- A step that loses room can be continued to a pool that does not follow the count. -/
theorem LosesRoom.fails {pool pool' : WorkeraaPool} {event : PoolEvent}
    (hinv : CountsDistance pool.sync) (hloses : LosesRoom pool event)
    (hstep : pool.step event = some pool') :
    ∃ events pool'', Run WorkeraaPool.step pool' events pool'' ∧ ¬ AcceptsByCount pool'' := by
  have hskip : ∀ (pWork : SocketaaWork) (alloc : Bool) (cells : WorkCells)
      (workerWork : WorkeraaWork), LosesRoom pool (.setWork pWork alloc) →
      workeraaWorkCheckWriteIndex pool.sync = true →
      workeraaSetWork pool pWork alloc = (true, ⟨{ pool.sync with
        work := fun i => if i = pool.sync.workWriteIndex then workerWork else pool.sync.work i
        workCount := pool.sync.workCount + 1
        workWriteIndex :=
          if WriteWraps pool.sync then 1 else pool.sync.workWriteIndex + 1 }, cells⟩) →
      ∃ events pool'', Run WorkeraaPool.step (workeraaSetWork pool pWork alloc).2 events pool'' ∧
        ¬ AcceptsByCount pool'' := by
    intro pWork alloc cells workerWork hloses hcheck heq
    have hinv' := hinv.index.step (.setWork pWork alloc) rfl
    have hiff := (workeraaWorkCheckWriteIndex_iff pool.sync hinv.index).mp hcheck
    have hdist := hinv.distance
    obtain ⟨hend, hmoved, hle, hroom⟩ := hloses
    have hwraps : WriteWraps pool.sync := ⟨by omega, hmoved, hle⟩
    rw [heq] at hinv' ⊢
    simp only [hwraps, if_true] at hinv' ⊢
    exact skipped_stops_early (pool.sync.workReadIndex - 1) _ hinv' (by simp only; omega)
      (by simp only; omega) (by simp only; omega) (by simp only; omega)
  cases event with
  | setWork pWork alloc =>
      simp only [WorkeraaPool.step, Option.some.injEq] at hstep
      subst hstep
      rcases workeraaSetWork_cases pool pWork alloc hinv.index with
        ⟨heq, -⟩ | ⟨cells, workerWork, -, hcheck, heq⟩
      · -- The allocation failed; the same work is offered again.
        rw [heq]
        rcases workeraaSetWork_cases pool pWork true hinv.index with
          ⟨-, hrefused | halloc⟩ | ⟨cells, workerWork, -, hcheck, heq'⟩
        · refine ⟨[], pool, .nil _, not_acceptsByCount_of_refused (fun hcheck => ?_) hloses.2.2.2⟩
          cases hrefused.symm.trans hcheck
        · cases halloc
        · obtain ⟨events, pool'', hrun, hfails⟩ :=
            hskip pWork true cells workerWork hloses hcheck heq'
          exact ⟨.setWork pWork true :: events, pool'', .cons trivial rfl hrun, hfails⟩
      · exact hskip pWork alloc cells workerWork hloses hcheck heq
  | getWork worker =>
      have hinv' := hinv.index.step _ hstep
      obtain ⟨result, hget, rfl⟩ := Option.map_eq_some_iff.mp hstep
      obtain ⟨hcount, ⟨hend, -⟩ | ⟨hlt, rfl⟩⟩ := workeraaGetWork_cases pool hinv.index hget
      · have := hinv.read_lt
        omega
      · have hdist := hinv.distance
        have hunread := hinv.end_unread hloses
        have hend : pool.sync.workWriteIndex = pool.sync.workSize := hloses
        refine ⟨[], _, .nil _, not_acceptsByCount_of_refused (fun _ => ?_) ?_⟩
        · exact Nat.le_of_eq hend.symm
        · simp only
          omega

/-- Acceptance and delivery follow the count in every state of every run without a step that loses
room in the ring, and such a step can be continued to a pool that does not follow it. -/
theorem workeraaPool_acceptsByCount (workSizeMax : Nat) (memory : Nat → WorkeraaWork)
    (cells : WorkCells) :
    (∀ (events : List PoolEvent) (pool : WorkeraaPool),
      GuardedRun WorkeraaPool.step (fun pool event => ¬ LosesRoom pool event)
          (.initial workSizeMax memory cells) events pool → AcceptsByCount pool) ∧
      ∀ (events : List PoolEvent) (pool pool' : WorkeraaPool) (event : PoolEvent),
      GuardedRun WorkeraaPool.step (fun pool event => ¬ LosesRoom pool event)
          (.initial workSizeMax memory cells) events pool →
        pool.step event = some pool' → LosesRoom pool event →
          ∃ events' pool'', Run WorkeraaPool.step pool' events' pool'' ∧
            ¬ AcceptsByCount pool'' := by
  have hinv : ∀ (events : List PoolEvent) (pool : WorkeraaPool),
      GuardedRun WorkeraaPool.step (fun pool event => ¬ LosesRoom pool event)
        (.initial workSizeMax memory cells) events pool → CountsDistance pool.sync := by
    intro events pool hrun
    exact hrun.invariant (fun pool => CountsDistance pool.sync)
      (fun _ _ _ hinv hok hstep => hinv.step hok hstep)
      ⟨IndexInv.initial _ _, (IndexInv.initial workSizeMax memory).size_pos,
        .inl ⟨Nat.le_refl _, rfl⟩, fun _ => rfl⟩
  constructor
  · intro events pool hrun
    exact (hinv _ _ hrun).acceptsByCount
  · intro events pool pool' event hrun hstep hloses
    exact hloses.fails (hinv _ _ hrun) hstep

def singlePool : WorkeraaPool :=
  (workeraaSetWork (.initial 1 zeroMemory zeroCells) (socketaaServerWork 4 8080) true).2

theorem workeraaPool_acceptsByCount_singlePool :
    AcceptsByCount singlePool ∧ ∃ pool events pool', singlePool.step (.getWork 0) = some pool ∧
      Run WorkeraaPool.step pool events pool' ∧ ¬ AcceptsByCount pool' := by
  have hrun : GuardedRun WorkeraaPool.step (fun pool event => ¬ LosesRoom pool event)
      (.initial 1 zeroMemory zeroCells) [.setWork (socketaaServerWork 4 8080) true] singlePool :=
    .cons (fun h => absurd h.2.1 (by decide)) rfl (.nil _)
  have hfollows := (workeraaPool_acceptsByCount 1 zeroMemory zeroCells).1 _ singlePool hrun
  obtain ⟨events, pool', hlater, hfails⟩ := (workeraaPool_acceptsByCount 1 zeroMemory zeroCells).2 _
    singlePool _ (.getWork 0) hrun rfl rfl
  exact ⟨hfollows, _, events, pool', rfl, hlater, hfails⟩

/-- One work set and taken at `work_size` 1: the empty pool refuses every work. -/
theorem workeraaPool_stuck :
    ¬ ∀ (workSizeMax : Nat) (memory : Nat → WorkeraaWork) (cells : WorkCells)
        (events : List PoolEvent) (pool : WorkeraaPool), 1 ≤ workSizeMax →
      Run WorkeraaPool.step (.initial workSizeMax memory cells) events pool →
        AcceptsByCount pool := by
  intro h
  have hfollows := h 1 zeroMemory zeroCells
    [.setWork (socketaaServerWork 4 8080) true, .getWork 0] _ (by decide)
    (run_iff_runEvents.mpr rfl)
  exact absurd ((hfollows.1 (socketaaServerWork 5 8080)).mpr (by decide)).2 (by decide)

end Httpaa
