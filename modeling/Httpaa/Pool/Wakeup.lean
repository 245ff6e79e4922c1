import Mathlib.Algebra.BigOperators.Group.Finset.Basic
import Mathlib.Data.Fintype.Basic
import Httpaa.Pool.Index

/-!
# Workers asleep and the works they are woken for

`workeraa_get_work` sleeps in `pthread_cond_wait` as long as no work is counted, and
`workeraa_set_work` signals once for each work it accepts. The signal wakes one sleeper if there is
one; a sleeper may also wake by itself, and whoever is awake may take the work another was woken
for.
-/

namespace Httpaa

open Transition

/-- Where a worker is in `workeraa_main`: on its way into `workeraa_get_work`, asleep on the
condition, woken but not yet through the mutex again, or processing a work. -/
inductive WorkerPhase
  | arriving
  | asleep
  | signalled
  | processing
deriving DecidableEq, Repr

/-- Awake and not processing a work. -/
def WorkerPhase.isAwake : WorkerPhase → Bool
  | .arriving => true
  | .asleep => false
  | .signalled => true
  | .processing => false

/-- The pool and its workers. -/
structure PoolSleepers (n : Nat) where
  pool : WorkeraaPool
  phase : Fin n → WorkerPhase

/-- A call of `workeraa_set_work`, with the sleeper that its signal wakes, if any; the critical
section of `workeraa_get_work`, entered at its start or again behind the wait; a wake-up without a
signal; a worker that is done with its work. -/
inductive SleeperEvent (n : Nat)
  | setWork (pWork : SocketaaWork) (alloc : Bool) (woken : Option (Fin n))
  | getWork (worker : Fin n)
  | wakeUp (worker : Fin n)
  | comeBack (worker : Fin n)

namespace PoolSleepers

variable {n : Nat}

def setPhase (s : PoolSleepers n) (worker : Fin n) (phase : WorkerPhase) : PoolSleepers n :=
  { s with phase := Function.update s.phase worker phase }

/-- `pthread_cond_signal`: one sleeper wakes, unless there is none. -/
def signal (s : PoolSleepers n) : Option (Fin n) → Option (PoolSleepers n)
  | some worker => if s.phase worker = .asleep then some (s.setPhase worker .signalled) else none
  | none => if ∀ worker, s.phase worker ≠ .asleep then some s else none

def step (s : PoolSleepers n) : SleeperEvent n → Option (PoolSleepers n)
  | .setWork pWork alloc woken =>
      let (isSet, pool) := workeraaSetWork s.pool pWork alloc
      if isSet then { s with pool }.signal woken
      else if woken = none then some { s with pool } else none
  | .getWork worker =>
      if (s.phase worker).isAwake then
        match workeraaGetWork s.pool with
        | none => some (s.setPhase worker .asleep)
        | some (isGet, _, pool) =>
            some ({ s with pool }.setPhase worker (if isGet then .processing else .arriving))
      else none
  | .wakeUp worker =>
      if s.phase worker = .asleep then some (s.setPhase worker .signalled) else none
  | .comeBack worker =>
      if s.phase worker = .processing then some (s.setPhase worker .arriving) else none

def initial (n workSizeMax : Nat) (memory : Nat → WorkeraaWork) (cells : WorkCells) :
    PoolSleepers n :=
  ⟨.initial workSizeMax memory cells, fun _ => .arriving⟩

/-- How many workers are awake and not processing a work. -/
def awake (s : PoolSleepers n) : Nat := ∑ worker, (s.phase worker).isAwake.toNat

/-- While a worker sleeps there is a worker awake for every work. -/
def NoLostWakeup (s : PoolSleepers n) : Prop :=
  (∃ worker, s.phase worker = .asleep) → s.pool.sync.workCount ≤ s.awake

end PoolSleepers

/-! ### The count of works -/

private theorem workeraaWorkSetNextWriteIndex_count (sync : WorkeraaSync) :
    (workeraaWorkSetNextWriteIndex sync).2.workCount = sync.workCount := by
  simp only [workeraaWorkSetNextWriteIndex]
  split_ifs <;> rfl

private theorem workeraaWorkSetNextReadIndex_count (sync : WorkeraaSync) :
    (workeraaWorkSetNextReadIndex sync).2.workCount = sync.workCount := by
  simp only [workeraaWorkSetNextReadIndex]
  split_ifs <;> rfl

private theorem workeraaSetWork_count (pool : WorkeraaPool) (pWork : SocketaaWork) (alloc : Bool) :
    (workeraaSetWork pool pWork alloc).2.sync.workCount =
      pool.sync.workCount + (workeraaSetWork pool pWork alloc).1.toNat := by
  simp only [workeraaSetWork]
  split_ifs <;> simp [workeraaWorkSetNextWriteIndex_count]

private theorem workeraaGetWork_count (pool : WorkeraaPool) :
    match workeraaGetWork pool with
    | none => pool.sync.workCount = 0
    | some (isGet, _, pool') => pool.sync.workCount = pool'.sync.workCount + isGet.toNat := by
  simp only [workeraaGetWork]
  split_ifs with hzero hcheck
  · exact hzero
  · simp only [workeraaWorkSetNextReadIndex_count, Bool.toNat_true]
    omega
  · rfl

namespace PoolSleepers

variable {n : Nat} {s s' : PoolSleepers n} {worker : Fin n} {phase : WorkerPhase}

/-! ### Workers that change their phase -/

@[simp] theorem setPhase_pool : (s.setPhase worker phase).pool = s.pool := rfl

@[simp] theorem setPhase_same : (s.setPhase worker phase).phase worker = phase := by
  simp [setPhase]

private theorem setPhase_other {other : Fin n} (h : other ≠ worker) :
    (s.setPhase worker phase).phase other = s.phase other := by
  simp [setPhase, h]

private theorem setPhase_awake : (s.setPhase worker phase).awake + (s.phase worker).isAwake.toNat =
    s.awake + phase.isAwake.toNat := by
  have hrest : ∑ other ∈ Finset.univ.erase worker,
      ((s.setPhase worker phase).phase other).isAwake.toNat =
      ∑ other ∈ Finset.univ.erase worker, (s.phase other).isAwake.toNat := by
    refine Finset.sum_congr rfl fun other hother => ?_
    rw [setPhase_other (Finset.ne_of_mem_erase hother)]
  have hnew := Finset.add_sum_erase Finset.univ
    (fun other => ((s.setPhase worker phase).phase other).isAwake.toNat) (Finset.mem_univ worker)
  have hold := Finset.add_sum_erase Finset.univ
    (fun other => (s.phase other).isAwake.toNat) (Finset.mem_univ worker)
  simp only [setPhase_same] at hnew
  rw [awake, awake, ← hnew, ← hold, hrest]
  omega

private theorem asleep_of_setPhase (hphase : phase ≠ .asleep)
    (h : ∃ other, (s.setPhase worker phase).phase other = .asleep) :
    ∃ other, s.phase other = .asleep := by
  obtain ⟨other, hother⟩ := h
  by_cases heq : other = worker
  · rw [heq, setPhase_same] at hother
    exact absurd hother hphase
  · exact ⟨other, by rwa [setPhase_other heq] at hother⟩

/-! ### The invariant -/

theorem NoLostWakeup.setWork {pWork : SocketaaWork} {alloc : Bool} {woken : Option (Fin n)}
    (hinv : s.NoLostWakeup) (hstep : s.step (.setWork pWork alloc woken) = some s') :
    s'.NoLostWakeup := by
  have hcount := workeraaSetWork_count s.pool pWork alloc
  simp only [step] at hstep
  by_cases hset : (workeraaSetWork s.pool pWork alloc).1 = true
  · rw [hset, Bool.toNat_true] at hcount
    rw [if_pos hset] at hstep
    cases woken with
    | some worker =>
        -- the sleeper that is woken makes up for the work that is counted
        simp only [signal, Option.ite_none_right_eq_some, Option.some.injEq] at hstep
        obtain ⟨hasleep, rfl⟩ := hstep
        intro _
        have hawake := @setPhase_awake n ⟨(workeraaSetWork s.pool pWork alloc).2, s.phase⟩ worker
          .signalled
        have hle := hinv ⟨worker, hasleep⟩
        simp only [hasleep, WorkerPhase.isAwake, Bool.toNat_true, Bool.toNat_false] at hawake
        have hsame : (⟨(workeraaSetWork s.pool pWork alloc).2, s.phase⟩ : PoolSleepers n).awake =
          s.awake := rfl
        simp only [setPhase_pool]
        omega
    | none =>
        simp only [signal, Option.ite_none_right_eq_some, Option.some.injEq] at hstep
        obtain ⟨hnone, rfl⟩ := hstep
        rintro ⟨worker, hasleep⟩
        exact absurd hasleep (hnone worker)
  · rw [Bool.not_eq_true] at hset
    rw [hset, Bool.toNat_false, Nat.add_zero] at hcount
    simp only [hset, Bool.false_eq_true, if_false, Option.ite_none_right_eq_some,
      Option.some.injEq] at hstep
    obtain ⟨-, rfl⟩ := hstep
    intro hasleep
    simp only [hcount]
    exact hinv hasleep

theorem NoLostWakeup.getWork (hinv : s.NoLostWakeup) (hstep : s.step (.getWork worker) = some s') :
    s'.NoLostWakeup := by
  have hcount := workeraaGetWork_count s.pool
  simp only [step, Option.ite_none_right_eq_some] at hstep
  obtain ⟨hawake, hstep⟩ := hstep
  cases hget : workeraaGetWork s.pool with
  | none =>
      rw [hget] at hcount hstep
      obtain rfl := Option.some.inj hstep
      intro _
      simp only at hcount
      simp [hcount]
  | some result =>
      obtain ⟨isGet, pWork, pool⟩ := result
      rw [hget] at hcount hstep
      obtain rfl := Option.some.inj hstep
      intro hasleep
      have hphase : (if isGet = true then WorkerPhase.processing else .arriving) ≠ .asleep := by
        cases isGet <;> decide
      have hle := hinv (asleep_of_setPhase (s := ⟨pool, s.phase⟩) hphase hasleep)
      have hmoved := @setPhase_awake n ⟨pool, s.phase⟩ worker
        (if isGet then .processing else .arriving)
      have hsame : (⟨pool, s.phase⟩ : PoolSleepers n).awake = s.awake := rfl
      simp only [hawake, Bool.toNat_true] at hmoved
      simp only [setPhase_pool]
      cases isGet <;> simp only [Bool.toNat_true, Bool.toNat_false, if_true, if_false,
        Bool.false_eq_true, WorkerPhase.isAwake] at hcount hmoved ⊢ <;> omega

private theorem NoLostWakeup.setPhase (hinv : s.NoLostWakeup) (hphase : phase.isAwake = true) :
    (s.setPhase worker phase).NoLostWakeup := by
  intro hasleep
  have hne : phase ≠ .asleep := by
    rintro rfl
    cases hphase
  have hle := hinv (asleep_of_setPhase hne hasleep)
  have hmoved := @setPhase_awake n s worker phase
  have hone : (s.phase worker).isAwake.toNat ≤ 1 := Bool.toNat_le _
  rw [hphase, Bool.toNat_true] at hmoved
  rw [setPhase_pool]
  omega

theorem NoLostWakeup.step {event : SleeperEvent n} (hinv : s.NoLostWakeup)
    (hstep : s.step event = some s') : s'.NoLostWakeup := by
  cases event with
  | setWork pWork alloc woken => exact hinv.setWork hstep
  | getWork worker => exact hinv.getWork hstep
  | wakeUp worker =>
      simp only [PoolSleepers.step, Option.ite_none_right_eq_some, Option.some.injEq] at hstep
      rw [← hstep.2]
      exact hinv.setPhase rfl
  | comeBack worker =>
      simp only [PoolSleepers.step, Option.ite_none_right_eq_some, Option.some.injEq] at hstep
      rw [← hstep.2]
      exact hinv.setPhase rfl

end PoolSleepers

/-- No wake-up is lost: in every reachable state in which a worker sleeps, the works counted are no
more than the workers that are awake to take them. -/
theorem workeraaPool_noLostWakeup (n workSizeMax : Nat) (memory : Nat → WorkeraaWork)
    (cells : WorkCells) (events : List (SleeperEvent n)) (s : PoolSleepers n)
    (hrun : Run PoolSleepers.step (.initial n workSizeMax memory cells) events s)
    (worker : Fin n) (hasleep : s.phase worker = .asleep) :
    s.pool.sync.workCount ≤ s.awake := by
  have hinv : s.NoLostWakeup := hrun.invariant PoolSleepers.NoLostWakeup
    (fun _ _ _ hinv _ hstep => hinv.step hstep) (by rintro ⟨worker, h⟩; cases h)
  exact hinv ⟨worker, hasleep⟩

def signalledSleepers : PoolSleepers 2 :=
  (runEvents PoolSleepers.step (.initial 2 4 zeroMemory zeroCells)
    [.getWork 0, .getWork 1, .setWork (socketaaServerWork 4 8080) true (some 0)]).getD
    (.initial 2 4 zeroMemory zeroCells)

theorem workeraaPool_noLostWakeup_signalledSleepers :
    signalledSleepers.phase 1 = .asleep ∧
      signalledSleepers.pool.sync.workCount ≤ signalledSleepers.awake :=
  ⟨by decide, workeraaPool_noLostWakeup 2 4 zeroMemory zeroCells
    [.getWork 0, .getWork 1, .setWork (socketaaServerWork 4 8080) true (some 0)] _
    (run_iff_runEvents.mpr rfl) 1 (by decide)⟩

end Httpaa
