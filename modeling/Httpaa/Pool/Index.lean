import Httpaa.Foundation.Transition
import Httpaa.Pool.Sync

/-!
# What one step does to the indices of the works array

Both indices may rest at `work_size`, one past the last slot. The lemmas here say once where each
index goes; everything later about runs of the pool is derived from them.
-/

namespace Httpaa

open Transition

/-- A call of the server or of a worker, entering its critical section. -/
inductive PoolEvent
  | setWork (pWork : SocketaaWork) (alloc : Bool)
  | getWork (worker : Nat)

/-- One call as an atomic step. A worker that finds no work sleeps and takes no step. -/
def WorkeraaPool.step (pool : WorkeraaPool) : PoolEvent → Option WorkeraaPool
  | .setWork pWork alloc => some (workeraaSetWork pool pWork alloc).2
  | .getWork _ => (workeraaGetWork pool).map fun result => result.2.2

/-- The pool right after `workeraa_sync_init`, over any memory. -/
def WorkeraaPool.initial (workSizeMax : Nat) (memory : Nat → WorkeraaWork) (cells : WorkCells) :
    WorkeraaPool :=
  ⟨workeraaSyncInit workSizeMax memory, cells⟩

/-- Zeroed memory and cells, for runs on concrete works. -/
def zeroMemory : Nat → WorkeraaWork := fun _ => ⟨none⟩

def zeroCells : WorkCells := ⟨fun _ => socketaaServerWork 0 0, 0⟩

/-- What every reachable ring satisfies: the read index rests at the end only when the write index
does, and the write index is 0 only before the first work. -/
structure IndexInv (sync : WorkeraaSync) : Prop where
  size_pos : 0 < sync.workSize
  read_le : sync.workReadIndex ≤ sync.workSize
  write_le : sync.workWriteIndex ≤ sync.workSize
  read_end : sync.workReadIndex = sync.workSize → sync.workWriteIndex = sync.workSize
  write_start : sync.workWriteIndex = 0 → sync.workReadIndex = 0 ∧ sync.workCount = 0

/-- The step on which the write index runs into the end of the array behind a moved read index. -/
def WriteWraps (sync : WorkeraaSync) : Prop :=
  sync.workSize ≤ sync.workWriteIndex + 1 ∧ 0 < sync.workReadIndex ∧
    sync.workReadIndex ≤ sync.workWriteIndex

instance (sync : WorkeraaSync) : Decidable (WriteWraps sync) :=
  inferInstanceAs (Decidable (_ ∧ _ ∧ _))

private theorem workeraaWorkSetNextWriteIndex_eq (sync : WorkeraaSync) (hinv : IndexInv sync)
    (hcheck : workeraaWorkCheckWriteIndex sync = true) :
    (workeraaWorkSetNextWriteIndex sync).2 =
      { sync with workWriteIndex := if WriteWraps sync then 1 else sync.workWriteIndex + 1 } := by
  obtain ⟨hpos, hread, hwrite, hend, hstart⟩ := hinv
  obtain ⟨work, count, readIndex, writeIndex, size⟩ := sync
  simp only [workeraaWorkCheckWriteIndex, WriteWraps, workeraaWorkSetNextWriteIndex] at *
  rw [Nat.min_eq_left hread, Nat.min_eq_left hwrite] at *
  grind

private theorem workeraaWorkSetNextReadIndex_eq (sync : WorkeraaSync) (hinv : IndexInv sync)
    (hcount : 0 < sync.workCount) (hcheck : workeraaWorkCheckReadIndex sync = true) :
    (workeraaWorkSetNextReadIndex sync).2 =
      { sync with workReadIndex :=
          if sync.workReadIndex < sync.workWriteIndex ∨ sync.workReadIndex + 1 < sync.workSize
          then sync.workReadIndex + 1 else 0 } := by
  obtain ⟨hpos, hread, hwrite, hend, hstart⟩ := hinv
  obtain ⟨work, count, readIndex, writeIndex, size⟩ := sync
  simp only [workeraaWorkCheckReadIndex, workeraaWorkSetNextReadIndex] at *
  rw [Nat.min_eq_left hread, Nat.min_eq_left hwrite] at *
  grind

theorem workeraaWorkCheckWriteIndex_iff (sync : WorkeraaSync) (hinv : IndexInv sync) :
    workeraaWorkCheckWriteIndex sync = true ↔
      (sync.workWriteIndex = sync.workReadIndex ∧ sync.workCount = 0 ∧
          sync.workWriteIndex < sync.workSize) ∨
        (sync.workReadIndex < sync.workWriteIndex ∧
          (sync.workWriteIndex < sync.workSize ∨ 0 < sync.workReadIndex)) ∨
        sync.workWriteIndex < sync.workReadIndex := by
  obtain ⟨hpos, hread, hwrite, hend, hstart⟩ := hinv
  simp only [workeraaWorkCheckWriteIndex]
  rw [Nat.min_eq_left hread, Nat.min_eq_left hwrite]
  grind

/-- With a work counted, only a ring drained up to its end refuses to be read. -/
theorem workeraaWorkCheckReadIndex_iff (sync : WorkeraaSync) (hinv : IndexInv sync)
    (hcount : 0 < sync.workCount) :
    workeraaWorkCheckReadIndex sync = true ↔ sync.workReadIndex < sync.workSize := by
  obtain ⟨hpos, hread, hwrite, hend, hstart⟩ := hinv
  simp only [workeraaWorkCheckReadIndex]
  rw [Nat.min_eq_left hread, Nat.min_eq_left hwrite]
  grind

private theorem socketaaSetWork_false {cells cells' : WorkCells}
    {workerWork workerWork' : WorkeraaWork} {pWork : SocketaaWork} {alloc : Bool}
    (h : socketaaSetWork cells workerWork pWork alloc = (false, cells', workerWork')) :
    workerWork.pWork = none ∧ alloc = false ∧ cells' = cells ∧ workerWork' = workerWork := by
  cases hp : workerWork.pWork <;> cases alloc <;> simp_all [socketaaSetWork]

theorem socketaaSetWork_true {cells cells' : WorkCells} {workerWork workerWork' : WorkeraaWork}
    {pWork : SocketaaWork} {alloc : Bool}
    (h : socketaaSetWork cells workerWork pWork alloc = (true, cells', workerWork')) :
    (∃ c, workerWork = ⟨some c⟩ ∧ cells' = cells.store c pWork ∧ workerWork' = workerWork) ∨
      (workerWork = ⟨none⟩ ∧
        cells' = { cells with next := cells.next + 1 }.store cells.next pWork ∧
        workerWork' = ⟨some cells.next⟩) := by
  obtain ⟨_ | c⟩ := workerWork
  · cases alloc <;> simp_all [socketaaSetWork]
  · simp only [socketaaSetWork, Prod.mk.injEq, true_and] at h
    exact .inl ⟨c, rfl, h.1.symm, h.2.symm⟩

/-- Everything a call of `workeraa_set_work` can do: refuse and change nothing, or fill the slot at
the write index, count the work and advance. -/
theorem workeraaSetWork_cases (pool : WorkeraaPool) (pWork : SocketaaWork) (alloc : Bool)
    (hinv : IndexInv pool.sync) :
    (workeraaSetWork pool pWork alloc = (false, pool) ∧
        (workeraaWorkCheckWriteIndex pool.sync = false ∨ alloc = false)) ∨
      ∃ cells workerWork,
        socketaaSetWork pool.cells (pool.sync.work pool.sync.workWriteIndex) pWork alloc =
            (true, cells, workerWork) ∧
          workeraaWorkCheckWriteIndex pool.sync = true ∧
          workeraaSetWork pool pWork alloc =
            (true, ⟨{ pool.sync with
              work := fun i =>
                if i = pool.sync.workWriteIndex then workerWork else pool.sync.work i
              workCount := pool.sync.workCount + 1
              workWriteIndex :=
                if WriteWraps pool.sync then 1 else pool.sync.workWriteIndex + 1 }, cells⟩) := by
  by_cases hcheck : workeraaWorkCheckWriteIndex pool.sync = true
  · rcases hset : socketaaSetWork pool.cells (pool.sync.work pool.sync.workWriteIndex) pWork alloc
      with ⟨isSet, cells, workerWork⟩
    have hnext := workeraaWorkSetNextWriteIndex_eq
      { pool.sync with
        work := fun i => if i = pool.sync.workWriteIndex then workerWork else pool.sync.work i }
      ⟨hinv.size_pos, hinv.read_le, hinv.write_le, hinv.read_end, hinv.write_start⟩ hcheck
    cases isSet with
    | true =>
        right
        refine ⟨cells, workerWork, rfl, hcheck, ?_⟩
        simp only [workeraaSetWork, hcheck, hset, if_true, hnext]
        rfl
    | false =>
        left
        obtain ⟨hnull, halloc, rfl, rfl⟩ := socketaaSetWork_false hset
        refine ⟨?_, .inr halloc⟩
        have hsame : (fun i => if i = pool.sync.workWriteIndex
            then pool.sync.work pool.sync.workWriteIndex else pool.sync.work i) =
            pool.sync.work := by
          funext i
          by_cases hi : i = pool.sync.workWriteIndex <;> simp [hi]
        simp [workeraaSetWork, hcheck, hset, hsame]
  · left
    simp [workeraaSetWork, hcheck]

/-- Everything a call of `workeraa_get_work` that does not sleep can do: refuse a ring drained up to
its end, or take the pointer of the slot at the read index and advance. -/
theorem workeraaGetWork_cases (pool : WorkeraaPool) (hinv : IndexInv pool.sync)
    {result : Bool × Option Nat × WorkeraaPool} (hget : workeraaGetWork pool = some result) :
    0 < pool.sync.workCount ∧
      ((pool.sync.workReadIndex = pool.sync.workSize ∧ result = (false, none, pool)) ∨
        (pool.sync.workReadIndex < pool.sync.workSize ∧
          result = (true, (pool.sync.work pool.sync.workReadIndex).pWork,
            { pool with sync := { pool.sync with
              workReadIndex :=
                if pool.sync.workReadIndex < pool.sync.workWriteIndex ∨
                  pool.sync.workReadIndex + 1 < pool.sync.workSize
                then pool.sync.workReadIndex + 1 else 0
              workCount := pool.sync.workCount - 1 } }))) := by
  by_cases hzero : pool.sync.workCount = 0
  · simp [workeraaGetWork, hzero] at hget
  · have hcount : 0 < pool.sync.workCount := Nat.pos_of_ne_zero hzero
    have hiff := workeraaWorkCheckReadIndex_iff pool.sync hinv hcount
    refine ⟨hcount, ?_⟩
    by_cases hcheck : workeraaWorkCheckReadIndex pool.sync = true
    · right
      have hnext := workeraaWorkSetNextReadIndex_eq pool.sync hinv hcount hcheck
      simp only [workeraaGetWork, hzero, hcheck, if_false, if_true, hnext, Option.some.injEq]
        at hget
      exact ⟨hiff.mp hcheck, hget.symm⟩
    · left
      have hend : pool.sync.workReadIndex = pool.sync.workSize := by
        have := hinv.read_le
        have := mt hiff.mpr hcheck
        omega
      simp only [workeraaGetWork, hzero, hcheck, if_false, Bool.false_eq_true,
        Option.some.injEq] at hget
      exact ⟨hend, hget.symm⟩

theorem IndexInv.initial (workSizeMax : Nat) (memory : Nat → WorkeraaWork) :
    IndexInv (workeraaSyncInit workSizeMax memory) := by
  constructor <;> simp only [workeraaSyncInit, workeraaPoolWorkCountDefault] <;> grind

/-- Both operations keep the index invariant. -/
theorem IndexInv.step {pool pool' : WorkeraaPool} (hinv : IndexInv pool.sync) (event : PoolEvent)
    (hstep : pool.step event = some pool') : IndexInv pool'.sync := by
  cases event with
  | setWork pWork alloc =>
      simp only [WorkeraaPool.step, Option.some.injEq] at hstep
      subst hstep
      rcases workeraaSetWork_cases pool pWork alloc hinv with ⟨heq, -⟩ | ⟨_, _, -, hcheck, heq⟩
      · rwa [heq]
      · rw [heq]
        have hiff := (workeraaWorkCheckWriteIndex_iff pool.sync hinv).mp hcheck
        obtain ⟨hpos, hread, hwrite, hend, hstart⟩ := hinv
        constructor <;> simp only [WriteWraps] <;> grind
  | getWork worker =>
      obtain ⟨result, hget, rfl⟩ := Option.map_eq_some_iff.mp hstep
      obtain ⟨hcount, ⟨-, rfl⟩ | ⟨hlt, rfl⟩⟩ := workeraaGetWork_cases pool hinv hget
      · exact hinv
      · obtain ⟨hpos, hread, hwrite, hend, hstart⟩ := hinv
        constructor <;> grind

theorem IndexInv.run {pool : WorkeraaPool} {workSizeMax : Nat} {memory : Nat → WorkeraaWork}
    {cells : WorkCells} {events : List PoolEvent}
    (hrun : Run WorkeraaPool.step (.initial workSizeMax memory cells) events pool) :
    IndexInv pool.sync :=
  hrun.invariant (fun pool => IndexInv pool.sync)
    (fun _ _ _ hinv _ hstep => hinv.step _ hstep) (IndexInv.initial _ _)

end Httpaa
