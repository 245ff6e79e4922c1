import Httpaa.Pool.Index

/-!
# The work a worker is processing

`workeraa_get_work` hands out the pointer in the slot, not a copy of the work, and the slot is free
for the next `workeraa_set_work` while the worker still processes the cell behind that pointer. The
cell stays the worker's own as long as neither index comes back to its slot in the meantime.
-/

namespace Httpaa

open Transition

/-- What a worker took: the cell, and the slot it was read from. -/
structure HeldWork where
  slot : Nat
  cell : Nat
deriving DecidableEq, Repr

/-- The pool and the work each worker is processing; `none` for a worker inside
`workeraa_get_work`. -/
structure PoolWorkers where
  pool : WorkeraaPool
  held : Nat → Option HeldWork

/-- The server sets a work; a worker enters `workeraa_get_work`, goes through its critical section,
or sets the flags of the work it holds. -/
inductive WorkersEvent
  | setWork (pWork : SocketaaWork) (alloc : Bool)
  | enterGetWork (worker : Nat)
  | getWork (worker : Nat)
  | setFlags (worker : Nat) (flags : SocketaaWorkFlags)

def PoolWorkers.hold (s : PoolWorkers) (worker : Nat) (work : Option HeldWork) :
    Nat → Option HeldWork :=
  fun i => if i = worker then work else s.held i

/-- A worker handed a null pointer reads port 0 from it and comes back at once, so it holds
nothing. -/
def PoolWorkers.step (s : PoolWorkers) : WorkersEvent → Option PoolWorkers
  | .setWork pWork alloc => some { s with pool := (workeraaSetWork s.pool pWork alloc).2 }
  | .enterGetWork worker => some { s with held := s.hold worker none }
  | .getWork worker =>
      match s.held worker with
      | some _ => none
      | none => (workeraaGetWork s.pool).map fun (isGet, pWork, pool) =>
          ⟨pool, s.hold worker
            (if isGet then pWork.map fun c => ⟨s.pool.sync.workReadIndex, c⟩ else none)⟩
  | .setFlags worker flags =>
      (s.held worker).map fun work =>
        { s with pool := { s.pool with
          cells := (socketaaSetWorkFlags s.pool.cells ⟨some work.cell⟩ flags).2 } }

def PoolWorkers.initial (workSizeMax : Nat) (memory : Nat → WorkeraaWork) (cells : WorkCells) :
    PoolWorkers :=
  ⟨.initial workSizeMax memory cells, fun _ => none⟩

/-- After the step no two workers hold the same cell, and if the step was the server's no cell that
a worker holds has changed. -/
def IsolatedStep (s : PoolWorkers) (event : WorkersEvent) (s' : PoolWorkers) : Prop :=
  (∀ i j work work', i ≠ j → s'.held i = some work → s'.held j = some work' →
      work.cell ≠ work'.cell) ∧
    ∀ pWork alloc, event = .setWork pWork alloc →
      ∀ i work, s.held i = some work →
        s'.pool.cells.cell work.cell = s.pool.cells.cell work.cell

/-- An index comes back to the slot of a work still being processed: the server writes to that slot,
or to the memory behind the array where that slot's pointer happens to stand, or another worker
reads it. -/
def Returns (s : PoolWorkers) : WorkersEvent → Prop
  | .setWork _ _ => workeraaWorkCheckWriteIndex s.pool.sync = true ∧
      ∃ i work, s.held i = some work ∧
        (s.pool.sync.workWriteIndex = work.slot ∨
          (s.pool.sync.workWriteIndex = s.pool.sync.workSize ∧
            s.pool.sync.work s.pool.sync.workSize = s.pool.sync.work work.slot))
  | .getWork _ => workeraaWorkCheckReadIndex s.pool.sync = true ∧
      ∃ i work, s.held i = some work ∧ s.pool.sync.workReadIndex = work.slot
  | .enterGetWork _ => False
  | .setFlags _ _ => False

/-- The slots of the array own distinct allocated cells, and a worker's cell is that of its
slot. -/
structure OwnedCells (s : PoolWorkers) : Prop where
  index : IndexInv s.pool.sync
  allocated : ∀ i < s.pool.sync.workSize, ∀ c, s.pool.sync.work i = ⟨some c⟩ →
    c < s.pool.cells.next
  distinct : ∀ i < s.pool.sync.workSize, ∀ j < s.pool.sync.workSize, ∀ c,
    s.pool.sync.work i = ⟨some c⟩ → s.pool.sync.work j = ⟨some c⟩ → i = j
  held_slot : ∀ i work, s.held i = some work →
    work.slot < s.pool.sync.workSize ∧ s.pool.sync.work work.slot = ⟨some work.cell⟩
  held_distinct : ∀ i j work work', i ≠ j → s.held i = some work → s.held j = some work' →
    work.slot ≠ work'.slot

theorem OwnedCells.initial (workSizeMax : Nat) (memory : Nat → WorkeraaWork) (cells : WorkCells) :
    OwnedCells (.initial workSizeMax memory cells) := by
  have hempty : ∀ i < (workeraaSyncInit workSizeMax memory).workSize,
      (workeraaSyncInit workSizeMax memory).work i = ⟨none⟩ := by
    intro i hi
    simp only [workeraaSyncInit] at hi ⊢
    simp [hi]
  refine ⟨IndexInv.initial _ _, ?_, ?_, ?_, ?_⟩
  · intro i hi c hc
    simp [PoolWorkers.initial, WorkeraaPool.initial, hempty i hi] at hc
  · intro i hi j _ c hc
    simp [PoolWorkers.initial, WorkeraaPool.initial, hempty i hi] at hc
  · intro i work hheld
    cases hheld
  · intro i j work work' _ hheld
    cases hheld

theorem OwnedCells.cells_distinct {s : PoolWorkers} (hinv : OwnedCells s) :
    ∀ i j work work', i ≠ j → s.held i = some work → s.held j = some work' →
      work.cell ≠ work'.cell := by
  intro i j work work' hne hi hj hcell
  obtain ⟨hslot, hwork⟩ := hinv.held_slot i work hi
  obtain ⟨hslot', hwork'⟩ := hinv.held_slot j work' hj
  rw [← hcell] at hwork'
  exact hinv.held_distinct i j work work' hne hi hj
    (hinv.distinct _ hslot _ hslot' work.cell hwork hwork')

/-- The server's step: the slot it writes keeps its cell or gets a fresh one, and no held cell
changes. -/
theorem OwnedCells.setWork {s : PoolWorkers} {pWork : SocketaaWork} {alloc : Bool}
    (hinv : OwnedCells s) (hok : ¬ Returns s (.setWork pWork alloc)) :
    OwnedCells { s with pool := (workeraaSetWork s.pool pWork alloc).2 } ∧
      ∀ i work, s.held i = some work →
        (workeraaSetWork s.pool pWork alloc).2.cells.cell work.cell =
          s.pool.cells.cell work.cell := by
  have hindex := hinv.index.step (.setWork pWork alloc) rfl
  rcases workeraaSetWork_cases s.pool pWork alloc hinv.index with
    ⟨heq, -⟩ | ⟨cells, workerWork, hset, hcheck, heq⟩
  · rw [heq]
    exact ⟨hinv, fun _ _ _ => rfl⟩
  rw [heq] at hindex ⊢
  have hwrite := hinv.index.write_le
  rcases socketaaSetWork_true hset with ⟨c, hcell, rfl, rfl⟩ | ⟨hempty, rfl, rfl⟩
  · -- The slot has a cell, which the work is copied into.
    have hsame : (fun i => if i = s.pool.sync.workWriteIndex
        then s.pool.sync.work s.pool.sync.workWriteIndex else s.pool.sync.work i) =
        s.pool.sync.work := by
      funext i
      by_cases hi : i = s.pool.sync.workWriteIndex <;> simp [hi]
    simp only [hsame] at hindex ⊢
    refine ⟨⟨hindex, hinv.allocated, hinv.distinct, hinv.held_slot, hinv.held_distinct⟩, ?_⟩
    intro i work hheld
    obtain ⟨hslot, hwork⟩ := hinv.held_slot i work hheld
    refine WorkCells.store_other _ _ fun hsamecell => hok ⟨hcheck, i, work, hheld, ?_⟩
    rw [hsamecell] at hwork
    rcases Nat.lt_or_eq_of_le hwrite with hlt | hend
    · exact .inl (hinv.distinct _ hlt _ hslot c hcell hwork)
    · exact .inr ⟨hend, by rw [← hend, hcell, hwork]⟩
  · -- The slot is empty and gets a cell that nobody has.
    have hfresh : ∀ i < s.pool.sync.workSize, ∀ c, s.pool.sync.work i = ⟨some c⟩ →
        c ≠ s.pool.cells.next :=
      fun i hi c hc => Nat.ne_of_lt (hinv.allocated i hi c hc)
    have hother : ∀ i c, s.pool.sync.work i = ⟨some c⟩ → i ≠ s.pool.sync.workWriteIndex := by
      rintro i c hc rfl
      rw [hempty] at hc
      cases hc
    refine ⟨⟨hindex, ?_, ?_, ?_, hinv.held_distinct⟩, ?_⟩
    · intro i hi c hc
      by_cases hlast : i = s.pool.sync.workWriteIndex
      · simp only [hlast, if_true, WorkeraaWork.mk.injEq, Option.some.injEq] at hc
        exact hc ▸ Nat.lt_succ_self _
      · simp only [hlast, if_false] at hc
        exact Nat.lt_succ_of_lt (hinv.allocated i hi c hc)
    · intro i hi j hj c hc hc'
      simp only at hi hj hc hc'
      by_cases hlast : i = s.pool.sync.workWriteIndex <;>
        by_cases hlast' : j = s.pool.sync.workWriteIndex
      · rw [hlast, hlast']
      · simp only [hlast, hlast', if_true, if_false, WorkeraaWork.mk.injEq,
          Option.some.injEq] at hc hc'
        exact absurd hc.symm (hfresh j hj c hc')
      · simp only [hlast, hlast', if_true, if_false, WorkeraaWork.mk.injEq,
          Option.some.injEq] at hc hc'
        exact absurd hc'.symm (hfresh i hi c hc)
      · simp only [hlast, hlast', if_false] at hc hc'
        exact hinv.distinct i hi j hj c hc hc'
    · intro i work hheld
      obtain ⟨hslot, hwork⟩ := hinv.held_slot i work hheld
      exact ⟨hslot, by simpa [hother _ _ hwork] using hwork⟩
    · intro i work hheld
      obtain ⟨hslot, hwork⟩ := hinv.held_slot i work hheld
      exact WorkCells.store_other _ _ (hfresh _ hslot _ hwork)

theorem OwnedCells.release {s : PoolWorkers} (hinv : OwnedCells s) (worker : Nat) :
    OwnedCells { s with held := s.hold worker none } := by
  have hsub : ∀ i work, s.hold worker none i = some work → s.held i = some work := by
    intro i work hheld
    by_cases hi : i = worker
    · simp [PoolWorkers.hold, hi] at hheld
    · simpa [PoolWorkers.hold, hi] using hheld
  exact ⟨hinv.index, hinv.allocated, hinv.distinct,
    fun i work hheld => hinv.held_slot i work (hsub i work hheld),
    fun i j work work' hne hi hj => hinv.held_distinct i j work work' hne (hsub i work hi)
      (hsub j work' hj)⟩

theorem OwnedCells.getWork {s s' : PoolWorkers} {worker : Nat} (hinv : OwnedCells s)
    (hok : ¬ Returns s (.getWork worker)) (hstep : s.step (.getWork worker) = some s') :
    OwnedCells s' := by
  have hfree : s.held worker = none := by
    cases hheld : s.held worker with
    | none => rfl
    | some work => simp [PoolWorkers.step, hheld] at hstep
  simp only [PoolWorkers.step, hfree] at hstep
  obtain ⟨⟨isGet, pWork, pool⟩, hget, rfl⟩ := Option.map_eq_some_iff.mp hstep
  have hindex := hinv.index.step (.getWork worker) (by rw [WorkeraaPool.step, hget]; rfl)
  obtain ⟨hcount, ⟨-, hresult⟩ | ⟨hlt, hresult⟩⟩ := workeraaGetWork_cases s.pool hinv.index hget
  · simp only [Prod.mk.injEq] at hresult
    obtain ⟨rfl, rfl, rfl⟩ := hresult
    exact hinv.release worker
  · have hcheck := (workeraaWorkCheckReadIndex_iff s.pool.sync hinv.index hcount).mpr hlt
    simp only [Prod.mk.injEq] at hresult
    obtain ⟨rfl, rfl, rfl⟩ := hresult
    have hnew : ∀ i work, s.hold worker ((s.pool.sync.work s.pool.sync.workReadIndex).pWork.map
          fun c => (⟨s.pool.sync.workReadIndex, c⟩ : HeldWork)) i = some work →
        (i ≠ worker ∧ s.held i = some work) ∨
          (i = worker ∧ work.slot = s.pool.sync.workReadIndex ∧
            s.pool.sync.work s.pool.sync.workReadIndex = ⟨some work.cell⟩) := by
      intro i work hheld
      by_cases hi : i = worker
      · simp only [PoolWorkers.hold, hi, if_true] at hheld
        obtain ⟨c, hc, rfl⟩ := Option.map_eq_some_iff.mp hheld
        exact .inr ⟨hi, rfl, by rw [← hc]⟩
      · exact .inl ⟨hi, by simpa [PoolWorkers.hold, hi] using hheld⟩
    have hslot : ∀ i work, s.held i = some work → work.slot ≠ s.pool.sync.workReadIndex :=
      fun i work hheld heq => hok ⟨hcheck, i, work, hheld, heq.symm⟩
    refine ⟨hindex, hinv.allocated, hinv.distinct, ?_, ?_⟩
    · intro i work hheld
      rcases hnew i work hheld with ⟨-, hold⟩ | ⟨-, hread, hcell⟩
      · exact hinv.held_slot i work hold
      · rw [hread]
        exact ⟨hlt, hcell⟩
    · intro i j work work' hne hi hj
      rcases hnew i work hi with ⟨hi', hold⟩ | ⟨hi', hread, -⟩ <;>
        rcases hnew j work' hj with ⟨hj', hold'⟩ | ⟨hj', hread', -⟩
      · exact hinv.held_distinct i j work work' hne hold hold'
      · rw [hread']
        exact hslot i work hold
      · rw [hread]
        exact (hslot j work' hold').symm
      · exact absurd (hi'.trans hj'.symm) hne

theorem OwnedCells.step {s s' : PoolWorkers} {event : WorkersEvent} (hinv : OwnedCells s)
    (hok : ¬ Returns s event) (hstep : s.step event = some s') : OwnedCells s' := by
  cases event with
  | setWork pWork alloc =>
      simp only [PoolWorkers.step, Option.some.injEq] at hstep
      subst hstep
      exact (hinv.setWork hok).1
  | enterGetWork worker =>
      simp only [PoolWorkers.step, Option.some.injEq] at hstep
      subst hstep
      exact hinv.release worker
  | getWork worker => exact hinv.getWork hok hstep
  | setFlags worker flags =>
      obtain ⟨work, -, rfl⟩ := Option.map_eq_some_iff.mp hstep
      exact ⟨hinv.index, hinv.allocated, hinv.distinct, hinv.held_slot, hinv.held_distinct⟩

private theorem OwnedCells.isolatedStep {s s' : PoolWorkers} {event : WorkersEvent}
    (hinv : OwnedCells s) (hok : ¬ Returns s event) (hstep : s.step event = some s') :
    IsolatedStep s event s' := by
  refine ⟨(hinv.step hok hstep).cells_distinct, ?_⟩
  rintro pWork alloc rfl i work hheld
  simp only [PoolWorkers.step, Option.some.injEq] at hstep
  subst hstep
  exact (hinv.setWork hok).2 i work hheld

private theorem Returns.breaks {s s' : PoolWorkers} {event : WorkersEvent} (hinv : OwnedCells s)
    (hreturns : Returns s event) (hstep : s.step event = some s') :
    ∃ event' s'', s.step event' = some s'' ∧ ¬ IsolatedStep s event' s'' := by
  cases event with
  | setWork pWork alloc =>
      obtain ⟨hcheck, i, work, hheld, hslots⟩ := hreturns
      obtain ⟨hslot, hwork⟩ := hinv.held_slot i work hheld
      have hcell : s.pool.sync.work s.pool.sync.workWriteIndex = ⟨some work.cell⟩ := by
        rcases hslots with heq | ⟨hend, heq⟩
        · rw [heq, hwork]
        · rw [hend, heq, hwork]
      let before := s.pool.cells.cell work.cell
      let pWork' : SocketaaWork := { before with port := before.port + 1 }
      refine ⟨.setWork pWork' true, _, rfl, fun hisolated => ?_⟩
      have hkept := hisolated.2 pWork' true rfl i work hheld
      rcases workeraaSetWork_cases s.pool pWork' true hinv.index with
        ⟨-, hrefused | halloc⟩ | ⟨cells, workerWork, hset, -, heq⟩
      · simp [hcheck] at hrefused
      · cases halloc
      · rcases socketaaSetWork_true hset with ⟨c, hc, rfl, -⟩ | ⟨hempty, -, -⟩
        · obtain rfl : work.cell = c := by simpa [hcell] using hc
          rw [heq] at hkept
          simp only [WorkCells.store_same] at hkept
          have hport : before.port + 1 = before.port := congrArg SocketaaWork.port hkept
          simp at hport
        · simp [hcell] at hempty
  | enterGetWork worker => exact hreturns.elim
  | getWork worker =>
      obtain ⟨hcheck, i, work, hheld, hread⟩ := hreturns
      obtain ⟨hslot, hwork⟩ := hinv.held_slot i work hheld
      refine ⟨.getWork worker, s', hstep, fun hisolated => ?_⟩
      cases hfree : s.held worker with
      | some other => simp [PoolWorkers.step, hfree] at hstep
      | none =>
          have hne : i ≠ worker := by
            rintro rfl
            rw [hheld] at hfree
            cases hfree
          simp only [PoolWorkers.step, hfree] at hstep
          obtain ⟨⟨isGet, pWork, pool⟩, hget, rfl⟩ := Option.map_eq_some_iff.mp hstep
          obtain ⟨-, ⟨hend, -⟩ | ⟨-, hresult⟩⟩ := workeraaGetWork_cases s.pool hinv.index hget
          · omega
          · simp only [Prod.mk.injEq] at hresult
            obtain ⟨rfl, rfl, rfl⟩ := hresult
            refine hisolated.1 i worker work ⟨s.pool.sync.workReadIndex, work.cell⟩ hne ?_ ?_ rfl
            · simp [PoolWorkers.hold, hne, hheld]
            · simp [PoolWorkers.hold, hread, hwork]
  | setFlags worker flags => exact hreturns.elim

/-- The work a worker holds is its own in every run in which neither index comes back to the slot of
a work still being processed; as soon as one does, a call can break the isolation. -/
theorem heldWork_isolated (workSizeMax : Nat) (memory : Nat → WorkeraaWork) (cells : WorkCells) :
    (∀ (events : List WorkersEvent) (s s' : PoolWorkers) (event : WorkersEvent),
      GuardedRun PoolWorkers.step (fun s event => ¬ Returns s event)
          (.initial workSizeMax memory cells) events s →
        ¬ Returns s event → s.step event = some s' → IsolatedStep s event s') ∧
      ∀ (events : List WorkersEvent) (s s' : PoolWorkers) (event : WorkersEvent),
      GuardedRun PoolWorkers.step (fun s event => ¬ Returns s event)
          (.initial workSizeMax memory cells) events s →
        Returns s event → s.step event = some s' →
          ∃ event' s'', s.step event' = some s'' ∧ ¬ IsolatedStep s event' s'' := by
  have hinv : ∀ (events : List WorkersEvent) (s : PoolWorkers),
      GuardedRun PoolWorkers.step (fun s event => ¬ Returns s event)
        (.initial workSizeMax memory cells) events s → OwnedCells s := by
    intro events s hrun
    exact hrun.invariant OwnedCells (fun _ _ _ hinv hok hstep => hinv.step hok hstep)
      (OwnedCells.initial _ _ _)
  constructor
  · intro events s s' event hrun hok hstep
    exact (hinv _ _ hrun).isolatedStep hok hstep
  · intro events s s' event hrun hreturns hstep
    exact hreturns.breaks (hinv _ _ hrun) hstep

/-- Two works at `work_size` 2, each taken by a worker that goes on processing it. -/
def overtakenEvents : List WorkersEvent :=
  [.setWork (socketaaServerWork 4 8080) true, .getWork 1,
    .setWork (socketaaServerWork 5 8080) true, .getWork 2]

def overtakenWorkers : PoolWorkers :=
  (runEvents PoolWorkers.step (.initial 2 zeroMemory zeroCells) overtakenEvents).getD
    (.initial 2 zeroMemory zeroCells)

theorem heldWork_isolated_overtakenWorkers :
    (∃ s, (PoolWorkers.initial 2 zeroMemory zeroCells).step
          (.setWork (socketaaServerWork 4 8080) true) = some s ∧
        IsolatedStep (.initial 2 zeroMemory zeroCells)
          (.setWork (socketaaServerWork 4 8080) true) s) ∧
      ∃ event s, overtakenWorkers.step event = some s ∧
        ¬ IsolatedStep overtakenWorkers event s := by
  have hsafe := (heldWork_isolated 2 zeroMemory zeroCells).1 [] _ _
    (.setWork (socketaaServerWork 4 8080) true) (.nil _)
    (by rintro ⟨-, i, work, hheld, -⟩; cases hheld) rfl
  have hheld : ∀ i work, (if i = 1 then some (⟨0, 0⟩ : HeldWork) else none) = some work →
      work.slot = 0 := by
    intro i work hheld
    split at hheld <;> cases hheld
    rfl
  have hrun : GuardedRun PoolWorkers.step (fun s event => ¬ Returns s event)
      (.initial 2 zeroMemory zeroCells) overtakenEvents overtakenWorkers := by
    refine .cons ?_ rfl (.cons ?_ rfl (.cons ?_ rfl (.cons ?_ rfl (.nil _))))
    · rintro ⟨-, i, work, hnone, -⟩
      cases hnone
    · rintro ⟨-, i, work, hnone, -⟩
      cases hnone
    · rintro ⟨-, i, work, hsome, hwrite | ⟨hend, -⟩⟩
      · rw [hheld i work hsome] at hwrite
        exact absurd hwrite (by decide)
      · exact absurd hend (by decide)
    · rintro ⟨-, i, work, hsome, hread⟩
      rw [hheld i work hsome] at hread
      exact absurd hread (by decide)
  exact ⟨⟨_, rfl, hsafe⟩, (heldWork_isolated 2 zeroMemory zeroCells).2 _ _ _
    (.setWork (socketaaServerWork 6 8080) true) hrun ⟨by decide, 2, ⟨1, 1⟩, rfl, .inl rfl⟩ rfl⟩

/-- The third work overwrites the one that worker 2 is processing. -/
theorem heldWork_overwritten :
    ¬ ∀ (workSizeMax : Nat) (memory : Nat → WorkeraaWork) (cells : WorkCells)
        (events : List WorkersEvent) (s s' : PoolWorkers) (event : WorkersEvent),
      Run PoolWorkers.step (.initial workSizeMax memory cells) events s →
        s.step event = some s' → IsolatedStep s event s' := by
  intro h
  have hisolated := h 2 zeroMemory zeroCells overtakenEvents overtakenWorkers _
    (.setWork (socketaaServerWork 6 8080) true) (run_iff_runEvents.mpr rfl) rfl
  exact absurd (hisolated.2 _ _ rfl 2 ⟨1, 1⟩ rfl) (by decide)

end Httpaa
