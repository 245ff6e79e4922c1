import Httpaa.Foundation.Fifo
import Httpaa.Pool.Index

/-!
# The works array as a queue

Up to the step on which the write index wraps, the works array is a first-in first-out queue of
slots, each holding its own cell. The wrap skips slot 0, or writes one past the last slot, while the
workers go on to read slot 0; what they are handed then is a work that was already delivered.
-/

namespace Httpaa

open Transition Fifo

def WorkeraaPool.slotContent (pool : WorkeraaPool) (slot : Nat) : Nat × Option SocketaaWork :=
  (slot, (pool.sync.work slot).pWork.map pool.cells.cell)

/-- The works between the read index and the write index. -/
def WorkeraaPool.pending (pool : WorkeraaPool) : List (Nat × Option SocketaaWork) :=
  (List.range' pool.sync.workReadIndex
    (pool.sync.workWriteIndex - pool.sync.workReadIndex)).map pool.slotContent

/-- A pool with its history: the slot and work of every successful `workeraa_set_work`, and the slot
and its content at that moment of every successful `workeraa_get_work`. -/
structure PoolTrace where
  pool : WorkeraaPool
  accepted : List (Nat × Option SocketaaWork)
  delivered : List (Nat × Option SocketaaWork)

def PoolTrace.step (t : PoolTrace) : PoolEvent → Option PoolTrace
  | .setWork pWork alloc =>
      let (isSet, pool) := workeraaSetWork t.pool pWork alloc
      some ⟨pool,
        if isSet then t.accepted ++ [(t.pool.sync.workWriteIndex, some pWork)] else t.accepted,
        t.delivered⟩
  | .getWork _ => (workeraaGetWork t.pool).map fun (isGet, pWork, pool) =>
      ⟨pool, t.accepted,
        if isGet then
          t.delivered ++ [(t.pool.sync.workReadIndex, pWork.map t.pool.cells.cell)]
        else t.delivered⟩

def PoolTrace.initial (workSizeMax : Nat) (memory : Nat → WorkeraaWork) (cells : WorkCells) :
    PoolTrace :=
  ⟨.initial workSizeMax memory cells, [], []⟩

/-- The deliveries so far are those of a queue: each the slot and the work of the acceptance with
the same number, and the works counted are the ones still to come. -/
def PoolTrace.DeliversInOrder (t : PoolTrace) : Prop :=
  t.delivered <+: t.accepted ∧
    t.delivered.length + t.pool.sync.workCount = t.accepted.length

/-- A work is offered while the write index is about to wrap behind a moved read index. -/
def OffersAtWrap (t : PoolTrace) : PoolEvent → Prop
  | .setWork _ _ => WriteWraps t.pool.sync ∧ t.pool.sync.workReadIndex < t.pool.sync.workSize
  | .getWork _ => False

/-- The ring on its first way through the array: every slot up to the write index has a cell of its
own, every later one is still empty. -/
structure FirstLap (pool : WorkeraaPool) : Prop where
  index : IndexInv pool.sync
  read_le : pool.sync.workReadIndex ≤ pool.sync.workWriteIndex
  count : pool.sync.workCount + pool.sync.workReadIndex = pool.sync.workWriteIndex
  owned : ∀ i < pool.sync.workWriteIndex,
    ∃ c < pool.cells.next, pool.sync.work i = ⟨some c⟩
  empty : ∀ i, pool.sync.workWriteIndex ≤ i → i < pool.sync.workSize →
    pool.sync.work i = ⟨none⟩

theorem FirstLap.initial (workSizeMax : Nat) (memory : Nat → WorkeraaWork) (cells : WorkCells) :
    FirstLap (.initial workSizeMax memory cells) := by
  refine ⟨IndexInv.initial _ _, Nat.le_refl _, rfl, ?_, ?_⟩
  · intro i hi
    simp [WorkeraaPool.initial, workeraaSyncInit] at hi
  · intro i _ hi
    simp only [WorkeraaPool.initial, workeraaSyncInit] at hi ⊢
    simp [hi]

private theorem range'_snoc (start count : Nat) :
    List.range' start (count + 1) = List.range' start count ++ [start + count] := by
  rw [List.range'_concat, Nat.one_mul]

/-- An accepted work goes to the end of the queue, into a fresh cell. -/
theorem FirstLap.setWork {pool : WorkeraaPool} (hinv : FirstLap pool) (pWork : SocketaaWork)
    (alloc : Bool)
    (hok : ¬ (WriteWraps pool.sync ∧ pool.sync.workReadIndex < pool.sync.workSize)) :
    workeraaSetWork pool pWork alloc = (false, pool) ∨
      ∃ pool', workeraaSetWork pool pWork alloc = (true, pool') ∧ FirstLap pool' ∧
        pool'.sync.workWriteIndex = pool.sync.workWriteIndex + 1 ∧
        pool'.pending = pool.pending ++ [(pool.sync.workWriteIndex, some pWork)] := by
  have hindex := hinv.index.step (.setWork pWork alloc) rfl
  rcases workeraaSetWork_cases pool pWork alloc hinv.index with
    ⟨heq, -⟩ | ⟨cells, workerWork, hset, hcheck, heq⟩
  · exact .inl heq
  · right
    have hiff := (workeraaWorkCheckWriteIndex_iff pool.sync hinv.index).mp hcheck
    have hread := hinv.read_le
    have hcount := hinv.count
    have hlt : pool.sync.workWriteIndex < pool.sync.workSize := by
      have := hinv.index.write_le
      simp only [WriteWraps] at hok
      omega
    have hwraps : ¬ WriteWraps pool.sync := fun h => hok ⟨h, by omega⟩
    have hempty := hinv.empty _ (Nat.le_refl _) hlt
    obtain ⟨rfl, rfl⟩ : cells = { pool.cells with next := pool.cells.next + 1 }.store
        pool.cells.next pWork ∧ workerWork = ⟨some pool.cells.next⟩ := by
      cases alloc <;> simp_all [socketaaSetWork]
    rw [heq] at hindex
    simp only [hwraps, if_false] at hindex heq
    refine ⟨_, heq, ⟨hindex, ?_, ?_, ?_, ?_⟩, rfl, ?_⟩
    · simp only
      omega
    · simp only
      omega
    · intro i hi
      by_cases hlast : i = pool.sync.workWriteIndex
      · exact ⟨pool.cells.next, Nat.lt_succ_self _, by simp [hlast]⟩
      · obtain ⟨c, hc, hown⟩ := hinv.owned i (by simp only at hi; omega)
        exact ⟨c, Nat.lt_succ_of_lt hc, by simp [hlast, hown]⟩
    · intro i hi hsize
      have hne : i ≠ pool.sync.workWriteIndex := by
        simp only at hi
        omega
      simpa [hne] using hinv.empty i (by simp only at hi; omega) hsize
    · have hdistance : pool.sync.workWriteIndex + 1 - pool.sync.workReadIndex =
          (pool.sync.workWriteIndex - pool.sync.workReadIndex) + 1 := by omega
      simp only [WorkeraaPool.pending, hdistance, range'_snoc, List.map_append]
      congr 1
      · refine List.map_congr_left fun i hi => ?_
        rw [List.mem_range'_1] at hi
        obtain ⟨c, hc, hown⟩ := hinv.owned i (by omega)
        have hne : i ≠ pool.sync.workWriteIndex := by omega
        simp [WorkeraaPool.slotContent, hne, hown, WorkCells.store_other _ _ (Nat.ne_of_lt hc)]
      · have hslot : pool.sync.workReadIndex +
            (pool.sync.workWriteIndex - pool.sync.workReadIndex) = pool.sync.workWriteIndex := by
          omega
        simp [WorkeraaPool.slotContent, hslot]

theorem FirstLap.getWork {pool : WorkeraaPool} {result : Bool × Option Nat × WorkeraaPool}
    (hinv : FirstLap pool) (hget : workeraaGetWork pool = some result) :
    result.1 = true ∧ FirstLap result.2.2 ∧
      result.2.2.sync.workWriteIndex = pool.sync.workWriteIndex ∧
      pool.pending =
        (pool.sync.workReadIndex, result.2.1.map pool.cells.cell) :: result.2.2.pending := by
  obtain ⟨hcount, ⟨hend, -⟩ | ⟨hlt, rfl⟩⟩ := workeraaGetWork_cases pool hinv.index hget
  · have := hinv.read_le
    have := hinv.count
    have := hinv.index.write_le
    omega
  · have hread := hinv.read_le
    have hsum := hinv.count
    have hbehind : pool.sync.workReadIndex < pool.sync.workWriteIndex := by omega
    have hindex := hinv.index.step (.getWork 0) (by rw [WorkeraaPool.step, hget]; rfl)
    simp only [hbehind, true_or, if_true] at hindex ⊢
    refine ⟨trivial, ⟨hindex, ?_, ?_, hinv.owned, hinv.empty⟩, trivial, ?_⟩
    · simp only
      omega
    · simp only
      omega
    · have hdistance : pool.sync.workWriteIndex - pool.sync.workReadIndex =
          (pool.sync.workWriteIndex - (pool.sync.workReadIndex + 1)) + 1 := by omega
      simp only [WorkeraaPool.pending]
      rw [hdistance, List.range'_succ, List.map_cons]
      rfl

/-- The pool with its history refines the abstract queue. -/
structure QueueInv (t : PoolTrace) : Prop where
  firstLap : FirstLap t.pool
  disciplined : Disciplined t.accepted t.delivered t.pool.pending
  acceptances : t.accepted.length = t.pool.sync.workWriteIndex

theorem QueueInv.initial (workSizeMax : Nat) (memory : Nat → WorkeraaWork) (cells : WorkCells) :
    QueueInv (.initial workSizeMax memory cells) :=
  ⟨FirstLap.initial _ _ _, Disciplined.empty, rfl⟩

theorem QueueInv.step {t t' : PoolTrace} {event : PoolEvent} (hinv : QueueInv t)
    (hok : ¬ OffersAtWrap t event) (hstep : t.step event = some t') : QueueInv t' := by
  obtain ⟨hlap, hdisc, hlen⟩ := hinv
  cases event with
  | setWork pWork alloc =>
      simp only [PoolTrace.step, Option.some.injEq] at hstep
      rcases hlap.setWork pWork alloc hok with
        heq | ⟨pool', heq, hlap', hwrite, hpending⟩
      · rw [heq] at hstep
        subst hstep
        exact ⟨hlap, hdisc, hlen⟩
      · rw [heq] at hstep
        subst hstep
        refine ⟨hlap', ?_, ?_⟩
        · simp only [if_true, hpending]
          exact hdisc.enqueue
        · simp [hwrite, hlen]
  | getWork worker =>
      obtain ⟨⟨isGet, pWork, pool'⟩, hget, rfl⟩ := Option.map_eq_some_iff.mp hstep
      obtain ⟨hisGet, hlap', hwrite, hpending⟩ := hlap.getWork hget
      simp only at hisGet hlap' hwrite hpending
      subst hisGet
      refine ⟨hlap', ?_, ?_⟩
      · rw [hpending] at hdisc
        exact hdisc.dequeue
      · simp only [hwrite, hlen]

private theorem QueueInv.deliversInOrder {t : PoolTrace} (hinv : QueueInv t) :
    t.DeliversInOrder := by
  refine ⟨hinv.disciplined.isPrefix, ?_⟩
  have hlen := hinv.disciplined.length
  have hpending : t.pool.pending.length = t.pool.sync.workCount := by
    have := hinv.firstLap.count
    have := hinv.firstLap.read_le
    simp only [WorkeraaPool.pending, List.length_map, List.length_range']
    omega
  omega

private theorem PoolTrace.getWork_delivers (t : PoolTrace) (hinv : IndexInv t.pool.sync)
    (hread : t.pool.sync.workReadIndex < t.pool.sync.workSize)
    (hcount : 0 < t.pool.sync.workCount) :
    ∃ t' content, t.step (.getWork 0) = some t' ∧ IndexInv t'.pool.sync ∧
      t'.pool.sync.workReadIndex =
        (if t.pool.sync.workReadIndex < t.pool.sync.workWriteIndex ∨
            t.pool.sync.workReadIndex + 1 < t.pool.sync.workSize
          then t.pool.sync.workReadIndex + 1 else 0) ∧
      t'.pool.sync.workWriteIndex = t.pool.sync.workWriteIndex ∧
      t'.pool.sync.workSize = t.pool.sync.workSize ∧
      t'.pool.sync.workCount + 1 = t.pool.sync.workCount ∧ t'.accepted = t.accepted ∧
      t'.delivered = t.delivered ++ [(t.pool.sync.workReadIndex, content)] := by
  have hcheck := (workeraaWorkCheckReadIndex_iff t.pool.sync hinv hcount).mpr hread
  rcases hget : workeraaGetWork t.pool with _ | ⟨isGet, pWork, pool'⟩
  · simp [workeraaGetWork, hcheck, Nat.pos_iff_ne_zero.mp hcount] at hget
  have hinv' := hinv.step (.getWork 0) (by rw [WorkeraaPool.step, hget]; rfl)
  have hstep : t.step (.getWork 0) = some ⟨pool', t.accepted,
      if isGet = true then
        t.delivered ++ [(t.pool.sync.workReadIndex, pWork.map t.pool.cells.cell)]
      else t.delivered⟩ := by
    rw [PoolTrace.step, hget]
    rfl
  obtain ⟨-, ⟨hdrained, -⟩ | ⟨-, heq⟩⟩ := workeraaGetWork_cases t.pool hinv hget
  · omega
  simp only [Prod.mk.injEq] at heq
  obtain ⟨rfl, rfl, rfl⟩ := heq
  refine ⟨_, _, hstep, hinv', rfl, rfl, rfl, ?_, rfl, rfl⟩
  exact Nat.sub_add_cancel hcount

private theorem PoolTrace.setWork_accepts (t : PoolTrace) (pWork : SocketaaWork)
    (hinv : IndexInv t.pool.sync) (hcheck : workeraaWorkCheckWriteIndex t.pool.sync = true) :
    ∃ t', t.step (.setWork pWork true) = some t' ∧ IndexInv t'.pool.sync ∧
      t'.pool.sync.workReadIndex = t.pool.sync.workReadIndex ∧
      t'.pool.sync.workWriteIndex =
        (if WriteWraps t.pool.sync then 1 else t.pool.sync.workWriteIndex + 1) ∧
      t'.pool.sync.workSize = t.pool.sync.workSize ∧
      t'.pool.sync.workCount = t.pool.sync.workCount + 1 ∧
      t'.accepted = t.accepted ++ [(t.pool.sync.workWriteIndex, some pWork)] ∧
      t'.delivered = t.delivered := by
  have hinv' := hinv.step (.setWork pWork true) rfl
  rcases workeraaSetWork_cases t.pool pWork true hinv with
    ⟨-, hrefused | halloc⟩ | ⟨cells, workerWork, -, -, heq⟩
  · simp [hcheck] at hrefused
  · cases halloc
  · have hstep : t.step (.setWork pWork true) = some ⟨(workeraaSetWork t.pool pWork true).2,
        if (workeraaSetWork t.pool pWork true).1 = true
        then t.accepted ++ [(t.pool.sync.workWriteIndex, some pWork)] else t.accepted,
        t.delivered⟩ := rfl
    rw [heq] at hinv' hstep
    exact ⟨_, hstep, hinv', rfl, rfl, rfl, rfl, rfl, rfl⟩

private theorem drain_to_start (k : Nat) (t : PoolTrace) (hinv : IndexInv t.pool.sync)
    (hwrite : t.pool.sync.workWriteIndex = 1) (hread : 0 < t.pool.sync.workReadIndex)
    (hend : t.pool.sync.workReadIndex + (k + 1) = t.pool.sync.workSize)
    (hcount : k + 1 ≤ t.pool.sync.workCount) :
    ∃ events t', Run PoolTrace.step t events t' ∧ IndexInv t'.pool.sync ∧
      t'.pool.sync.workReadIndex = 0 ∧ t'.pool.sync.workWriteIndex = 1 ∧
      t'.pool.sync.workSize = t.pool.sync.workSize ∧
      t'.pool.sync.workCount + (k + 1) = t.pool.sync.workCount ∧ t'.accepted = t.accepted ∧
      t'.delivered.length = t.delivered.length + (k + 1) := by
  obtain ⟨t₁, content, hstep, hinv₁, hread₁, hwrite₁, hsize₁, hcount₁, haccepted₁, hdelivered₁⟩ :=
    t.getWork_delivers hinv (by omega) (by omega)
  have hlen₁ : t₁.delivered.length = t.delivered.length + 1 := by simp [hdelivered₁]
  induction k generalizing t t₁ content with
  | zero =>
      rw [if_neg (by omega)] at hread₁
      exact ⟨[.getWork 0], t₁, .cons trivial hstep (.nil _), hinv₁, hread₁, by omega, hsize₁,
        by omega, haccepted₁, by omega⟩
  | succ k ih =>
      rw [if_pos (by omega)] at hread₁
      obtain ⟨t₂, content₂, hstep₂, hinv₂, hread₂, hwrite₂, hsize₂, hcount₂, haccepted₂,
        hdelivered₂⟩ := t₁.getWork_delivers hinv₁ (by omega) (by omega)
      obtain ⟨events, t', hrun, hinv', hzero, hone, hsize, hcount', haccepted, hdelivered⟩ :=
        ih t₁ hinv₁ (by omega) (by omega) (by omega) (by omega) t₂ content₂ hstep₂ hinv₂ hread₂
          hwrite₂ hsize₂ hcount₂ haccepted₂ hdelivered₂ (by simp [hdelivered₂])
      exact ⟨_ :: events, t', .cons trivial hstep hrun, hinv', hzero, hone, by omega, by omega,
        haccepted.trans haccepted₁, by omega⟩

private theorem delivers_slot_zero {t : PoolTrace} {slot : Nat} {work : Option SocketaaWork}
    {before : List (Nat × Option SocketaaWork)} (hinv : IndexInv t.pool.sync)
    (hread : t.pool.sync.workReadIndex = 0) (hcount : 0 < t.pool.sync.workCount)
    (haccepted : t.accepted = before ++ [(slot, work)])
    (hdelivered : t.delivered.length = before.length) (hslot : slot ≠ 0) :
    ∃ t', t.step (.getWork 0) = some t' ∧ ¬ t'.DeliversInOrder := by
  obtain ⟨t', content, hstep, -, -, -, -, -, haccepted', hdelivered'⟩ :=
    t.getWork_delivers hinv (by rw [hread]; exact hinv.size_pos) hcount
  refine ⟨t', hstep, ?_⟩
  rintro ⟨⟨later, hpre⟩, -⟩
  rw [haccepted', hdelivered', haccepted, List.append_assoc, List.singleton_append] at hpre
  obtain ⟨-, htail⟩ := List.append_inj hpre hdelivered
  simp only [List.cons.injEq, Prod.mk.injEq] at htail
  exact hslot (by rw [← htail.1.1, hread])

/-- A work accepted at the wrap can be followed by calls that deliver slot 0 again. -/
theorem OffersAtWrap.fails {t t' : PoolTrace} {pWork : SocketaaWork} (hinv : QueueInv t)
    (hwrap : OffersAtWrap t (.setWork pWork true))
    (hstep : t.step (.setWork pWork true) = some t') :
    ∃ events t'', Run PoolTrace.step t' events t'' ∧ ¬ t''.DeliversInOrder := by
  have horder := hinv.deliversInOrder.2
  obtain ⟨⟨hlap, -, hlen⟩, hwraps, hlt⟩ := And.intro hinv hwrap
  have hread := hlap.read_le
  have hcount := hlap.count
  have hwrite := hlap.index.write_le
  have hlast := hwraps.1
  have hmoved := hwraps.2.1
  obtain ⟨t₀, hstep₀, hinv₀, hread₀, hwrite₀, hsize₀, hcount₀, haccepted₀, hdelivered₀⟩ :=
    t.setWork_accepts pWork hlap.index
      ((workeraaWorkCheckWriteIndex_iff t.pool.sync hlap.index).mpr (by omega))
  rw [if_pos hwraps] at hwrite₀
  obtain rfl : t₀ = t' := Option.some.inj (hstep₀.symm.trans hstep)
  obtain ⟨k, hk⟩ : ∃ k, t.pool.sync.workReadIndex + (k + 1) = t.pool.sync.workSize :=
    ⟨t.pool.sync.workSize - t.pool.sync.workReadIndex - 1, by omega⟩
  obtain ⟨events, t₁, hrun, hinv₁, hread₁, hwrite₁, hsize₁, hcount₁, haccepted₁, hdelivered₁⟩ :=
    drain_to_start k t₀ hinv₀ hwrite₀ (by omega) (by omega) (by omega)
  rw [haccepted₀] at haccepted₁
  rw [hdelivered₀] at hdelivered₁
  by_cases hfull : t.pool.sync.workWriteIndex = t.pool.sync.workSize
  · -- The work went to slot `work_size`; slot 0 is delivered in its place.
    obtain ⟨t₂, hstep₂, hfails⟩ := delivers_slot_zero hinv₁ hread₁ (by omega) haccepted₁
      (by omega) (by omega)
    exact ⟨_, t₂, hrun.snoc trivial hstep₂, hfails⟩
  · -- The work went to the last slot; the next one goes to slot 1, and slot 0 is delivered for it.
    obtain ⟨t₂, hstep₂, hinv₂, hread₂, -, -, hcount₂, haccepted₂, hdelivered₂⟩ :=
      t₁.setWork_accepts pWork hinv₁
        ((workeraaWorkCheckWriteIndex_iff t₁.pool.sync hinv₁).mpr (by omega))
    have hlen₁ : t₁.accepted.length = t.accepted.length + 1 := by simp [haccepted₁]
    obtain ⟨t₃, hstep₃, hfails⟩ := delivers_slot_zero hinv₂ (hread₂.trans hread₁) (by omega)
      haccepted₂ (by rw [hdelivered₂]; omega) (by omega)
    exact ⟨_, t₃, (hrun.snoc trivial hstep₂).snoc trivial hstep₃, hfails⟩

/-- In every run that offers no work at the wrap the pool delivers as a queue, and a work accepted
at the wrap can be followed by calls that deliver a stale slot. -/
theorem workeraaPool_refinesQueue (workSizeMax : Nat) (memory : Nat → WorkeraaWork)
    (cells : WorkCells) :
    (∀ (events : List PoolEvent) (t : PoolTrace),
      GuardedRun PoolTrace.step (fun t event => ¬ OffersAtWrap t event)
          (.initial workSizeMax memory cells) events t → t.DeliversInOrder) ∧
      ∀ (events : List PoolEvent) (t t' : PoolTrace) (pWork : SocketaaWork),
      GuardedRun PoolTrace.step (fun t event => ¬ OffersAtWrap t event)
          (.initial workSizeMax memory cells) events t →
        t.step (.setWork pWork true) = some t' → OffersAtWrap t (.setWork pWork true) →
          ∃ events' t'', Run PoolTrace.step t' events' t'' ∧ ¬ t''.DeliversInOrder := by
  have hinv : ∀ (events : List PoolEvent) (t : PoolTrace),
      GuardedRun PoolTrace.step (fun t event => ¬ OffersAtWrap t event)
        (.initial workSizeMax memory cells) events t → QueueInv t := by
    intro events t hrun
    exact hrun.invariant QueueInv (fun _ _ _ hinv hok hstep => hinv.step hok hstep)
      (QueueInv.initial _ _ _)
  constructor
  · intro events t hrun
    exact (hinv _ _ hrun).deliversInOrder
  · intro events t t' pWork hrun hstep hwrap
    exact hwrap.fails (hinv _ _ hrun) hstep

/-- Two works into two slots, the first already taken: the next one is offered at the wrap. -/
def wrappingTrace : PoolTrace :=
  let pool := (workeraaSetWork (.initial 2 zeroMemory zeroCells) (socketaaServerWork 4 8080) true).2
  let pool := (workeraaSetWork pool (socketaaServerWork 5 8080) true).2
  ⟨⟨{ pool.sync with workReadIndex := 1, workCount := 1 }, pool.cells⟩,
    [(0, some (socketaaServerWork 4 8080)), (1, some (socketaaServerWork 5 8080))],
    [(0, some (socketaaServerWork 4 8080))]⟩

theorem workeraaPool_refinesQueue_wrappingTrace :
    wrappingTrace.DeliversInOrder ∧
      ∃ t events t', wrappingTrace.step (.setWork (socketaaServerWork 6 8080) true) = some t ∧
        Run PoolTrace.step t events t' ∧ ¬ t'.DeliversInOrder := by
  have hrun : GuardedRun PoolTrace.step (fun t event => ¬ OffersAtWrap t event)
      (.initial 2 zeroMemory zeroCells) [.setWork (socketaaServerWork 4 8080) true,
        .setWork (socketaaServerWork 5 8080) true, .getWork 0] wrappingTrace :=
    .cons (fun h => absurd h.1 (by decide)) rfl
      (.cons (fun h => absurd h.1 (by decide)) rfl (.cons id rfl (.nil _)))
  have horder := (workeraaPool_refinesQueue 2 zeroMemory zeroCells).1 _ wrappingTrace hrun
  obtain ⟨events, t', hlater, hfails⟩ := (workeraaPool_refinesQueue 2 zeroMemory zeroCells).2 _
    wrappingTrace _ (socketaaServerWork 6 8080) hrun rfl ⟨by decide, by decide⟩
  exact ⟨horder, _, events, t', rfl, hlater, hfails⟩

/-- At `work_size` 2 the third work goes to slot 2, and slot 0 is delivered a second time. -/
theorem workeraaPool_redelivers :
    ¬ ∀ (workSizeMax : Nat) (memory : Nat → WorkeraaWork) (cells : WorkCells)
        (events : List PoolEvent) (t : PoolTrace), 1 ≤ workSizeMax →
      (∀ event ∈ events, ∀ pWork alloc, event = .setWork pWork alloc → alloc = true) →
      Run PoolTrace.step (.initial workSizeMax memory cells) events t → t.DeliversInOrder := by
  intro h
  have horder := h 2 zeroMemory zeroCells
    [.setWork (socketaaServerWork 4 8080) true, .setWork (socketaaServerWork 5 8080) true,
      .getWork 0, .setWork (socketaaServerWork 6 8080) true, .getWork 0, .getWork 0] _ (by decide)
    (by simp) (run_iff_runEvents.mpr rfl)
  exact absurd horder.1 (by decide)

end Httpaa
