import Mathlib.Data.List.Nodup
import Httpaa.Pool.Queue
import Httpaa.Worker.Server

/-!
# Where accepted connections are

The server loop hands every connection it accepts to `workeraa_set_work` and forgets it, whatever
the result. A worker closes the connection in the rounds of `socketaa_worker`, unless `select` fails
there, or `socketaa_worker` is not called or returns at once. A connection is named by the order of
its accept: the pool never looks at the descriptor.
-/

namespace Httpaa

open Traced Transition

/-- The loop has ended, and the socket was closed once. -/
structure SocketaaWorker.Ended (w : SocketaaWorker) : Prop where
  isSelect : w.flags.isSelect = false
  closed : w.calls.count .closesocket = 1

private theorem SocketaaWorker.Open.step_ended {w w' : SocketaaWorker} {round : Round} (hw : w.Open)
    (hround : round.select ≠ .error) (hstep : w.step round = some w') : w'.Open ∨ w'.Ended := by
  rcases hw.step hstep with ⟨-, hopen | ⟨hselect, calls, hcalls, hnot⟩⟩ | ⟨hfails, -⟩
  · exact .inl hopen
  · refine .inr ⟨hselect, ?_⟩
    rw [hcalls, List.count_append, List.count_eq_zero.mpr hnot]
    rfl
  · obtain ⟨hready, hsend, hsends, hnone⟩ := hfails.resolve_left hround
    obtain ⟨-, ⟨herror, -⟩ | ⟨htimeout, -⟩ | ⟨-, -, rfl⟩ | ⟨-, hsend', -⟩ | ⟨-, hsend', -⟩⟩ :=
      step_cases hstep
    · exact absurd herror hround
    · cases hready.symm.trans htimeout
    · obtain ⟨hopen, hbytes⟩ := hw.selecting.sendData.send round.send
      rw [hbytes.mpr ⟨sends_selecting.trans hsends, hnone⟩]
      refine .inr ⟨rfl, ?_⟩
      have hcalls : (socketaaWorkerCheckSend (w.selecting.sendData.send round.send).2
          socketaaSocketError).calls = (w.selecting.sendData.send round.send).2.calls ++
            [.closesocket] ++ [.shutdown] := rfl
      rw [hcalls, List.count_append, List.count_append, List.count_eq_zero.mpr hopen.calls]
      rfl
    · cases hsend.symm.trans hsend'
    · cases hsend.symm.trans hsend'

namespace Server

def conn (s : Server) (cell : Nat) : Int := (s.pool.pool.cells.cell cell).conn

/-- The connections of the works that are counted, in the slots from the read index on. -/
def waiting (s : Server) : List Int :=
  (List.range s.pool.pool.sync.workCount).filterMap fun k =>
    (s.pool.pool.sync.work ((s.pool.pool.sync.workReadIndex + k) %
      s.pool.pool.sync.workSize)).pWork.map s.conn

/-- The worker processes the work of the connection, and has not closed it. -/
def Holds (s : Server) (worker : Nat) (conn : Int) : Prop :=
  ∃ work, s.pool.held worker = some work ∧ s.conn work.cell = conn ∧
    ∀ visit, s.visit worker = some visit → .closesocket ∉ visit.worker.calls

/-- The connection waits in the works array, once, or one worker holds it, or it was closed, once,
and only one of these. -/
def InOnePlace (s : Server) (conn : Int) : Prop :=
  (s.waiting.count conn = 1 ∧ (∀ worker, ¬ s.Holds worker conn) ∧ conn ∉ s.closed) ∨
    (conn ∉ s.waiting ∧ (∃! worker, s.Holds worker conn) ∧ conn ∉ s.closed) ∨
    (conn ∉ s.waiting ∧ (∀ worker, ¬ s.Holds worker conn) ∧ s.closed.count conn = 1)

/-- No accepted connection is lost, and none is in two places. -/
def NoneAbandoned (s : Server) : Prop :=
  ∀ i < s.accepted, s.InOnePlace i

/-- A connection is accepted while the pool has no room for it or the write index is about to wrap
behind a moved read index, or a worker comes back without having looked at its connection, or
`select` fails under it. -/
def Abandons (port : UInt16) (s : Server) : ServerStep → Prop
  | .accept alloc => workeraaWorkCheckWriteIndex s.pool.pool.sync = false ∨ alloc = false ∨
      (WriteWraps s.pool.pool.sync ∧ s.pool.pool.sync.workReadIndex < s.pool.pool.sync.workSize)
  | .enter worker alloc => port ∉ workeraaPorts ∨ (alloc = false ∧ (s.kept worker).2 = none)
  | .round _ round => round.select = .error
  | _ => False

/-- A work that a worker has: it is still selected if no visit has begun for it, and on its visit
the loop goes on, or has ended and closed the connection. -/
structure InHand (s : Server) (worker : Nat) (work : HeldWork) : Prop where
  slot : work.slot < s.pool.pool.sync.workReadIndex
  idle : s.visit worker = none → (s.pool.pool.cells.cell work.cell).flags.isSelect = true ∧
    (work.slot : Int) ∉ s.closed
  visit : ∀ visit, s.visit worker = some visit → visit.conn = work.slot ∧
    ((s.current visit work).Open ∧ (work.slot : Int) ∉ s.closed ∨
      (s.current visit work).Ended ∧ (work.slot : Int) ∈ s.closed)

/-- On the first lap the connection in slot `i` is the `i`-th accepted one. Those in front of the
read index are held or closed. -/
structure Placed (port : UInt16) (s : Server) : Prop where
  owned : OwnedCells s.pool
  firstLap : FirstLap s.pool.pool
  accepted : s.accepted = s.pool.pool.sync.workWriteIndex
  cell : ∀ i < s.accepted, ∀ c, s.pool.pool.sync.work i = ⟨some c⟩ →
    s.conn c = i ∧ (s.pool.pool.cells.cell c).port = port ∧
      (s.pool.pool.sync.workReadIndex ≤ i →
        (s.pool.pool.cells.cell c).flags.isSelect = true)
  held : ∀ worker work, s.pool.held worker = some work → s.InHand worker work
  taken : ∀ i < s.pool.pool.sync.workReadIndex,
    (i : Int) ∈ s.closed ∨ ∃ worker work, s.pool.held worker = some work ∧ work.slot = i
  closed : ∀ conn ∈ s.closed, ∃ i < s.pool.pool.sync.workReadIndex, conn = i
  closed_nodup : s.closed.Nodup

variable {s s' s'' : Server} {port : UInt16} {event : ServerStep} {worker : Nat} {work : HeldWork}

private theorem InHand.frame (hhand : s.InHand worker work)
    (hread : s.pool.pool.sync.workReadIndex ≤ s'.pool.pool.sync.workReadIndex)
    (hcell : s'.pool.pool.cells.cell work.cell = s.pool.pool.cells.cell work.cell)
    (hvisit : s'.visit worker = s.visit worker)
    (hclosed : (work.slot : Int) ∈ s'.closed ↔ (work.slot : Int) ∈ s.closed) :
    s'.InHand worker work := by
  have hcurrent : ∀ visit, s'.current visit work = s.current visit work := fun visit => by
    rw [current, current, hcell]
  refine ⟨hhand.slot.trans_le hread, fun hnone => ?_, fun visit hsome => ?_⟩
  · rw [hcell, hclosed]
    exact hhand.idle (hvisit ▸ hnone)
  · rw [hcurrent, hclosed]
    exact hhand.visit visit (hvisit ▸ hsome)

private theorem InHand.closed_iff (hhand : s.InHand worker work) : (work.slot : Int) ∉ s.closed ↔
    ∀ visit, s.visit worker = some visit → .closesocket ∉ visit.worker.calls := by
  cases hvisit : s.visit worker with
  | none =>
      refine iff_of_true (hhand.idle hvisit).2 fun visit h => ?_
      cases h
  | some visit =>
      obtain ⟨-, ⟨hopen, hnot⟩ | ⟨hended, hmem⟩⟩ := hhand.visit visit hvisit
      · refine iff_of_true hnot fun visit' h => ?_
        cases h
        exact hopen.calls
      · refine iff_of_false (not_not.mpr hmem) fun hall => ?_
        have hzero : visit.worker.calls.count .closesocket = 0 :=
          List.count_eq_zero.mpr (hall visit rfl)
        exact absurd (hzero.symm.trans hended.closed) (by decide)

namespace Placed

theorem initial (port : UInt16) (workSizeMax workerCount : Nat) (isRun : Nat → Bool)
    (slots : Nat → WorkeraaWork) (cells : WorkCells) (memory : Nat → Memory) :
    Placed port (.initial workSizeMax workerCount isRun slots cells memory) := by
  refine ⟨OwnedCells.initial _ _ _, FirstLap.initial workSizeMax slots cells, rfl, ?_, ?_, ?_, ?_,
    List.nodup_nil⟩
  · intro i hi
    cases hi
  · intro worker work hheld
    cases hheld
  · intro i hi
    simp [Server.initial, PoolWorkers.initial, WorkeraaPool.initial, workeraaSyncInit] at hi
  · intro conn hmem
    cases hmem

private theorem held_cell (hinv : s.Placed port) (hheld : s.pool.held worker = some work) :
    s.conn work.cell = work.slot ∧ (s.pool.pool.cells.cell work.cell).port = port := by
  have hslot := (hinv.held worker work hheld).slot
  have hread := hinv.firstLap.read_le
  have haccepted := hinv.accepted
  obtain ⟨hconn, hport, -⟩ := hinv.cell _ (by omega) _ (hinv.owned.held_slot worker work hheld).2
  exact ⟨hconn, hport⟩

private theorem holds_iff (hinv : s.Placed port) {i : Nat} :
    s.Holds worker i ↔
      ∃ work, s.pool.held worker = some work ∧ work.slot = i ∧ (i : Int) ∉ s.closed := by
  constructor
  · rintro ⟨work, hheld, hconn, hopen⟩
    rw [(hinv.held_cell hheld).1] at hconn
    obtain rfl : work.slot = i := by exact_mod_cast hconn
    exact ⟨work, hheld, rfl, (hinv.held worker work hheld).closed_iff.mpr hopen⟩
  · rintro ⟨work, hheld, rfl, hopen⟩
    exact ⟨work, hheld, (hinv.held_cell hheld).1,
      (hinv.held worker work hheld).closed_iff.mp hopen⟩

private theorem waiting_eq (hinv : s.Placed port) :
    s.waiting = (List.range s.pool.pool.sync.workCount).map fun k =>
      ((s.pool.pool.sync.workReadIndex + k : Nat) : Int) := by
  rw [waiting, ← List.filterMap_eq_map]
  refine List.filterMap_congr fun k hk => ?_
  rw [List.mem_range] at hk
  have hcount := hinv.firstLap.count
  have hwrite := hinv.firstLap.index.write_le
  have haccepted := hinv.accepted
  obtain ⟨c, -, hc⟩ := hinv.firstLap.owned (s.pool.pool.sync.workReadIndex + k) (by omega)
  rw [Nat.mod_eq_of_lt (by omega), hc]
  simp only [Option.map_some, Function.comp_apply, Option.some.injEq]
  exact (hinv.cell _ (by omega) c hc).1

private theorem mem_waiting (hinv : s.Placed port) {i : Nat} (hi : i < s.accepted) :
    (i : Int) ∈ s.waiting ↔ s.pool.pool.sync.workReadIndex ≤ i := by
  have hcount := hinv.firstLap.count
  have haccepted := hinv.accepted
  rw [hinv.waiting_eq, List.mem_map]
  constructor
  · rintro ⟨k, -, heq⟩
    omega
  · intro hle
    exact ⟨i - s.pool.pool.sync.workReadIndex, List.mem_range.mpr (by omega), by omega⟩

private theorem waiting_nodup (hinv : s.Placed port) : s.waiting.Nodup := by
  rw [hinv.waiting_eq]
  exact List.nodup_range.map fun k k' h => Nat.add_left_cancel (Int.ofNat.inj h)

private theorem noneAbandoned (hinv : s.Placed port) : s.NoneAbandoned := by
  intro i hi
  rw [InOnePlace, hinv.mem_waiting hi]
  by_cases hread : s.pool.pool.sync.workReadIndex ≤ i
  · refine .inl ⟨List.count_eq_one_of_mem hinv.waiting_nodup ((hinv.mem_waiting hi).mpr hread),
      fun worker hholds => ?_, fun hclosed => ?_⟩
    · obtain ⟨work, hheld, rfl, -⟩ := hinv.holds_iff.mp hholds
      exact absurd (hinv.held worker work hheld).slot (Nat.not_lt.mpr hread)
    · obtain ⟨j, hj, heq⟩ := hinv.closed _ hclosed
      omega
  · by_cases hclosed : (i : Int) ∈ s.closed
    · refine .inr (.inr ⟨hread, fun worker hholds => ?_,
        List.count_eq_one_of_mem hinv.closed_nodup hclosed⟩)
      obtain ⟨work, -, -, hopen⟩ := hinv.holds_iff.mp hholds
      exact hopen hclosed
    · obtain ⟨worker, work, hheld, hslot⟩ := (hinv.taken i (by omega)).resolve_left hclosed
      refine .inr (.inl ⟨hread, ⟨worker, hinv.holds_iff.mpr ⟨work, hheld, hslot, hclosed⟩, ?_⟩,
        hclosed⟩)
      intro worker' hholds
      obtain ⟨work', hheld', hslot', -⟩ := hinv.holds_iff.mp hholds
      by_contra hne
      exact hinv.owned.held_distinct _ _ _ _ hne hheld' hheld (hslot'.trans hslot.symm)

/-! ### Steps -/

private theorem accept_slot (hinv : s.Placed port) {alloc : Bool}
    (hok : ¬ s.Abandons port (.accept alloc)) :
    s.pool.pool.sync.workWriteIndex < s.pool.pool.sync.workSize ∧
      ¬ WriteWraps s.pool.pool.sync := by
  obtain ⟨hcheck, -, hwrap⟩ : ¬ workeraaWorkCheckWriteIndex s.pool.pool.sync = false ∧
      ¬ alloc = false ∧ ¬ (WriteWraps s.pool.pool.sync ∧
        s.pool.pool.sync.workReadIndex < s.pool.pool.sync.workSize) := by
    simpa only [Abandons, not_or] using hok
  rw [Bool.not_eq_false, workeraaWorkCheckWriteIndex_iff _ hinv.firstLap.index] at hcheck
  have hread := hinv.firstLap.read_le
  have hwrite := hinv.firstLap.index.write_le
  have hlt : s.pool.pool.sync.workWriteIndex < s.pool.pool.sync.workSize := by
    simp only [WriteWraps] at hwrap
    omega
  exact ⟨hlt, fun h => hwrap ⟨h, by omega⟩⟩

theorem accept (hinv : s.Placed port) {alloc : Bool} (hok : ¬ s.Abandons port (.accept alloc))
    (hstep : s.step port (.accept alloc) = some s') : s'.Placed port := by
  obtain ⟨hlt, hwraps⟩ := hinv.accept_slot hok
  have hrefused : ¬ (workeraaWorkCheckWriteIndex s.pool.pool.sync = false ∨ alloc = false) := by
    rintro (h | h)
    · exact hok (.inl h)
    · exact hok (.inr (.inl h))
  have hreturns :
      ¬ Httpaa.Returns s.pool (.setWork (socketaaServerWork s.accepted port) alloc) := by
    rintro ⟨-, worker, work, hheld, hslot | ⟨hend, -⟩⟩
    · have hread := (hinv.held worker work hheld).slot
      have hle := hinv.firstLap.read_le
      omega
    · omega
  obtain ⟨howned, hcells⟩ := hinv.owned.setWork hreturns
  have hlap := hinv.firstLap.setWork (socketaaServerWork s.accepted port) alloc
    fun h => hok (.inr (.inr h))
  simp only [Server.step, PoolWorkers.step, Option.map_some, Option.some.injEq] at hstep
  subst hstep
  rcases workeraaSetWork_cases s.pool.pool (socketaaServerWork s.accepted port) alloc
      hinv.firstLap.index with ⟨-, hrefuse⟩ | ⟨cells, workerWork, hset, -, heq⟩
  · exact absurd hrefuse hrefused
  have hempty := hinv.firstLap.empty _ (Nat.le_refl _) hlt
  rcases socketaaSetWork_true hset with ⟨c, hcell, -⟩ | ⟨-, rfl, rfl⟩
  · rw [hempty] at hcell
    cases hcell
  rcases hlap with hfalse | ⟨pool', heq', hlap', -⟩
  · rw [heq] at hfalse
    cases hfalse
  rw [heq] at heq' howned hcells ⊢
  obtain ⟨-, rfl⟩ := Prod.mk.inj heq'
  simp only [hwraps, if_false] at hlap' howned hcells ⊢
  have haccepted := hinv.accepted
  refine ⟨howned, hlap', by rw [haccepted], fun i hi c hc => ?_, fun worker work hheld => ?_,
    hinv.taken, hinv.closed, hinv.closed_nodup⟩
  · by_cases hlast : i = s.pool.pool.sync.workWriteIndex
    · simp only [hlast, if_true, WorkeraaWork.mk.injEq, Option.some.injEq] at hc
      subst hc
      simp [Server.conn, socketaaServerWork, hlast, haccepted]
    · simp only [hlast, if_false] at hc
      simp only at hi
      have hallocated := hinv.owned.allocated i (by omega) c hc
      have hcell := hinv.cell i (by omega) c hc
      simpa [Server.conn, WorkCells.store_other _ _ (Nat.ne_of_lt hallocated)] using hcell
  · exact (hinv.held worker work hheld).frame (Nat.le_refl _) (hcells worker work hheld) rfl Iff.rfl

theorem getWork (hinv : s.Placed port) (hstep : s.step port (.getWork worker) = some s') :
    s'.Placed port := by
  have hreturns : ¬ Httpaa.Returns s.pool (.getWork worker) := by
    rintro ⟨-, worker', work, hheld, hslot⟩
    have hread := (hinv.held worker' work hheld).slot
    omega
  rw [Server.step] at hstep
  split at hstep
  · cases hstep
  rename_i hnone
  split at hstep
  swap
  · cases hstep
  obtain ⟨pool, hpool, rfl⟩ := Option.map_eq_some_iff.mp hstep
  have howned := hinv.owned.getWork hreturns hpool
  have hfree : s.pool.held worker = none := by
    cases hheld : s.pool.held worker with
    | none => rfl
    | some work => simp [PoolWorkers.step, hheld] at hpool
  simp only [PoolWorkers.step, hfree] at hpool
  obtain ⟨⟨isGet, pWork, pool'⟩, hget, rfl⟩ := Option.map_eq_some_iff.mp hpool
  obtain ⟨-, hlap, -⟩ := hinv.firstLap.getWork hget
  have hread := hinv.firstLap.read_le
  have hcount := hinv.firstLap.count
  have haccepted := hinv.accepted
  obtain ⟨hpos, ⟨hend, -⟩ | ⟨hlt, hresult⟩⟩ :=
    workeraaGetWork_cases s.pool.pool hinv.firstLap.index hget
  · have hwrite := hinv.firstLap.index.write_le
    omega
  obtain ⟨rfl, hrest⟩ := Prod.mk.inj hresult
  obtain ⟨rfl, rfl⟩ := Prod.mk.inj hrest
  obtain ⟨c, -, hc⟩ := hinv.firstLap.owned s.pool.pool.sync.workReadIndex (by omega)
  have hnext : s.pool.pool.sync.workReadIndex < s.pool.pool.sync.workWriteIndex := by omega
  simp only [hc, hnext, true_or, if_true, Option.map_some] at hlap howned ⊢
  refine ⟨howned, hlap, haccepted, fun i hi c' hc' => ?_, fun worker' work hheld => ?_,
    fun i hi => ?_, fun conn hmem => ?_, hinv.closed_nodup⟩
  · obtain ⟨hconn, hport, hselect⟩ := hinv.cell i hi c' hc'
    exact ⟨hconn, hport, fun hle => hselect ((Nat.le_succ _).trans hle)⟩
  · by_cases hw : worker' = worker
    · subst hw
      simp only [PoolWorkers.hold, if_true, Option.some.injEq] at hheld
      subst hheld
      refine ⟨Nat.lt_succ_self _, fun _ => ⟨?_, fun hclosed => ?_⟩, fun visit h => ?_⟩
      · exact (hinv.cell _ (by omega) c hc).2.2 (Nat.le_refl _)
      · obtain ⟨i, hi, heq⟩ := hinv.closed _ hclosed
        simp only at heq
        omega
      · cases hnone.symm.trans h
    · have hold : s.pool.held worker' = some work := by simpa [PoolWorkers.hold, hw] using hheld
      exact (hinv.held worker' work hold).frame (Nat.le_succ _) rfl rfl Iff.rfl
  · by_cases hlast : i = s.pool.pool.sync.workReadIndex
    · exact .inr ⟨worker, ⟨s.pool.pool.sync.workReadIndex, c⟩, by simp [PoolWorkers.hold],
        hlast.symm⟩
    · simp only at hi
      rcases hinv.taken i (by omega) with hclosed | ⟨worker', work, hheld, hslot⟩
      · exact .inl hclosed
      · have hw : worker' ≠ worker := by
          rintro rfl
          cases hfree.symm.trans hheld
        exact .inr ⟨worker', work, by simpa [PoolWorkers.hold, hw] using hheld, hslot⟩
  · obtain ⟨i, hi, heq⟩ := hinv.closed conn hmem
    exact ⟨i, Nat.lt_succ_of_lt hi, heq⟩

private theorem enter_cases {alloc : Bool} (hstep : s.step port (.enter worker alloc) = some s') :
    ∃ work, s.visit worker = none ∧ s.pool.held worker = some work ∧
      s.enter worker work alloc = some s' := by
  rw [Server.step] at hstep
  split at hstep
  · rename_i work hnone hheld
    split at hstep
    · exact ⟨work, hnone, hheld, hstep⟩
    · cases hstep
  · cases hstep

theorem enter (hinv : s.Placed port) {alloc : Bool} (hok : ¬ s.Abandons port (.enter worker alloc))
    (hstep : s.step port (.enter worker alloc) = some s') : s'.Placed port := by
  obtain ⟨work, hnone, hheld, hstep⟩ := enter_cases hstep
  obtain ⟨hconn, hport⟩ := hinv.held_cell hheld
  have hserved : port ∈ workeraaPorts ∧ (alloc = true ∨ (s.kept worker).2.isSome = true) := by
    simp only [Abandons, not_or, not_not, not_and] at hok
    refine ⟨hok.1, ?_⟩
    cases alloc with
    | true => exact .inl rfl
    | false => exact .inr (Option.isSome_iff_ne_none.mpr (hok.2 rfl))
  rw [Server.enter, hport, if_pos hserved] at hstep
  cases hstep
  have hhand := hinv.held worker work hheld
  refine ⟨hinv.owned, hinv.firstLap, hinv.accepted, hinv.cell, fun worker' work' hheld' => ?_,
    hinv.taken, hinv.closed, hinv.closed_nodup⟩
  by_cases hw : worker' = worker
  · subst hw
    cases hheld.symm.trans hheld'
    obtain ⟨hselect, hnot⟩ := hhand.idle hnone
    refine ⟨hhand.slot, fun h => ?_, fun visit h => ?_⟩
    · cases (update_same ..).symm.trans h
    · cases (update_same ..).symm.trans h
      exact ⟨hconn, .inl ⟨⟨hselect, List.not_mem_nil⟩, hnot⟩⟩
  · exact (hinv.held worker' work' hheld').frame (Nat.le_refl _) rfl (update_other _ _ hw) Iff.rfl

private theorem round_cases {round : Round} (hstep : s.step port (.round worker round) = some s') :
    ∃ visit work w pool, s.visit worker = some visit ∧ s.pool.held worker = some work ∧
      (s.current visit work).step round = some w ∧
      s.pool.step (.setFlags worker w.flags) = some pool ∧
      s' = { s with
        pool
        visit := update s.visit worker (some { visit with
          worker := w, sent := visit.sent ++ (s.current visit work).accepted round })
        closed := s.closed ++ List.replicate (closings visit.worker w) visit.conn } := by
  rw [Server.step] at hstep
  split at hstep
  · rename_i visit work hvisit hheld
    obtain ⟨w, hw, hstep⟩ := Option.bind_eq_some_iff.mp hstep
    obtain ⟨pool, hpool, hstep⟩ := Option.bind_eq_some_iff.mp hstep
    cases hstep
    exact ⟨visit, work, w, pool, hvisit, hheld, hw, hpool, rfl⟩
  · cases hstep

private theorem replicate_closings {visit : Visit} {w : SocketaaWorker}
    (hopen : (s.current visit work).Open) (hnext : w.Open ∨ w.Ended) :
    w.Open ∧ List.replicate (closings visit.worker w) visit.conn = [] ∨
      w.Ended ∧ List.replicate (closings visit.worker w) visit.conn = [visit.conn] := by
  have hzero : visit.worker.calls.count .closesocket = 0 := List.count_eq_zero.mpr hopen.calls
  rcases hnext with hnext | hnext
  · refine .inl ⟨hnext, ?_⟩
    rw [closings, List.count_eq_zero.mpr hnext.calls, Nat.zero_sub]
    rfl
  · refine .inr ⟨hnext, ?_⟩
    rw [closings, hnext.closed, hzero]
    rfl

theorem round (hinv : s.Placed port) {round : Round}
    (hok : ¬ s.Abandons port (.round worker round))
    (hstep : s.step port (.round worker round) = some s') : s'.Placed port := by
  obtain ⟨visit, work, w, pool, hvisit, hheld, hw, hpool, rfl⟩ := round_cases hstep
  have hhand := hinv.held worker work hheld
  obtain ⟨hconn, ⟨hopen, hnot⟩ | ⟨hended, -⟩⟩ := hhand.visit visit hvisit
  swap
  · cases (SocketaaWorker.step_of_ended hended.isSelect).symm.trans hw
  have hcase := replicate_closings hopen (hopen.step_ended hok hw)
  rw [hconn] at hcase
  have howned : OwnedCells pool := hinv.owned.step id hpool
  obtain rfl := setFlags_eq hheld hpool
  have hother (c : Nat) (hc : c ≠ work.cell) :
      (s.pool.pool.cells.store work.cell
        { s.pool.pool.cells.cell work.cell with flags := w.flags }).cell c =
        s.pool.pool.cells.cell c := WorkCells.store_other _ _ hc
  obtain ⟨hslot, hcell⟩ := hinv.owned.held_slot worker work hheld
  rw [hconn]
  generalize List.replicate (closings visit.worker w) (work.slot : Int) = new at hcase
  have hmem (slot : Nat) (hne : slot ≠ work.slot) :
      (slot : Int) ∈ s.closed ++ new ↔ (slot : Int) ∈ s.closed := by
    rcases hcase with ⟨-, rfl⟩ | ⟨-, rfl⟩
    · rw [List.append_nil]
    · rw [List.mem_append, List.mem_singleton, or_iff_left (by exact_mod_cast hne)]
  refine ⟨howned, ?_, hinv.accepted, fun i hi c hc => ?_, fun worker' work' hheld' => ?_,
    fun i hi => ?_, fun conn hmem => ?_, ?_⟩
  · have hlap := hinv.firstLap
    exact ⟨hlap.index, hlap.read_le, hlap.count, hlap.owned, hlap.empty⟩
  · obtain ⟨hconn', hport, hselect⟩ := hinv.cell i hi c hc
    by_cases hc' : c = work.cell
    · -- The cell is that of the work, whose slot is in front of the read index.
      subst hc'
      have hread := hinv.firstLap.read_le
      have hwrite := hinv.firstLap.index.write_le
      have haccepted := hinv.accepted
      have hlt := hhand.slot
      simp only at hi
      have hsame := hinv.owned.distinct i (by omega) _ hslot _ hc hcell
      simp only [Server.conn, WorkCells.store_same]
      exact ⟨hconn', hport, fun hle => by omega⟩
    · simp only [Server.conn, hother c hc']
      exact ⟨hconn', hport, hselect⟩
  · by_cases hworker : worker' = worker
    · subst hworker
      cases hheld.symm.trans hheld'
      refine ⟨hhand.slot, fun h => ?_, fun visit' h => ?_⟩
      · cases (update_same ..).symm.trans h
      · cases (update_same ..).symm.trans h
        refine ⟨rfl, ?_⟩
        simp only [current, WorkCells.store_same]
        rcases hcase with ⟨hw, rfl⟩ | ⟨hw, rfl⟩
        · rw [List.append_nil]
          exact .inl ⟨hw, hnot⟩
        · exact .inr ⟨hw, by simp⟩
    · have hdistinct := hinv.owned.cells_distinct _ _ _ _ hworker hheld' hheld
      have hslots := hinv.owned.held_distinct _ _ _ _ hworker hheld' hheld
      exact (hinv.held worker' work' hheld').frame (Nat.le_refl _) (hother _ hdistinct)
        (update_other _ _ hworker) (hmem _ hslots)
  · exact (hinv.taken i hi).imp_left (List.mem_append_left _)
  · rcases List.mem_append.mp hmem with hmem | hmem
    · exact hinv.closed conn hmem
    · rcases hcase with ⟨-, rfl⟩ | ⟨-, rfl⟩
      · cases hmem
      · exact ⟨work.slot, hhand.slot, List.mem_singleton.mp hmem⟩
  · rcases hcase with ⟨-, rfl⟩ | ⟨-, rfl⟩
    · rw [List.append_nil]
      exact hinv.closed_nodup
    · exact hinv.closed_nodup.append (List.nodup_singleton _) (List.disjoint_singleton.mpr hnot)

private theorem leave_cases (hstep : s.step port (.leave worker) = some s') :
    ∃ visit work, s.visit worker = some visit ∧ s.pool.held worker = some work ∧
      (s.current visit work).flags.isSelect = false ∧
      s' = { s with
        pool := { s.pool with held := s.pool.hold worker none }
        kept := update s.kept worker (visit.worker.memory, some visit.worker.http)
        visit := update s.visit worker none
        visited := s.visited ++ [⟨worker, visit.conn, visit.sent⟩] } := by
  rw [Server.step] at hstep
  split at hstep
  · rename_i visit work hvisit hheld
    rw [Server.leave] at hstep
    split at hstep
    · cases hstep
    · rename_i hselect
      cases hstep
      exact ⟨visit, work, hvisit, hheld, Bool.eq_false_iff.mpr hselect, rfl⟩
  · cases hstep

theorem leave (hinv : s.Placed port) (hstep : s.step port (.leave worker) = some s') :
    s'.Placed port := by
  obtain ⟨visit, work, hvisit, hheld, hselect, rfl⟩ := leave_cases hstep
  obtain ⟨-, ⟨hopen, -⟩ | ⟨-, hclosed⟩⟩ := (hinv.held worker work hheld).visit visit hvisit
  · cases hopen.isSelect.symm.trans hselect
  refine ⟨hinv.owned.release worker, hinv.firstLap, hinv.accepted, hinv.cell,
    fun worker' work' hheld' => ?_, fun i hi => ?_, hinv.closed, hinv.closed_nodup⟩
  · by_cases hw : worker' = worker
    · simp [PoolWorkers.hold, hw] at hheld'
    · have hold : s.pool.held worker' = some work' := by
        simpa [PoolWorkers.hold, hw] using hheld'
      exact (hinv.held worker' work' hold).frame (Nat.le_refl _) rfl (update_other _ _ hw) Iff.rfl
  · rcases hinv.taken i hi with hmem | ⟨worker', work', hheld', rfl⟩
    · exact .inl hmem
    · by_cases hw : worker' = worker
      · subst hw
        cases hheld.symm.trans hheld'
        exact .inl hclosed
      · exact .inr ⟨worker', work', by simpa [PoolWorkers.hold, hw] using hheld', rfl⟩

theorem step (hinv : s.Placed port) (hok : ¬ s.Abandons port event)
    (hstep : s.step port event = some s') : s'.Placed port := by
  cases event with
  | accept alloc => exact hinv.accept hok hstep
  | getWork worker => exact hinv.getWork hstep
  | enter worker alloc => exact hinv.enter hok hstep
  | round worker round => exact hinv.round hok hstep
  | leave worker => exact hinv.leave hstep

/-! ### Connections that are nowhere -/

theorem refused (hinv : s.Placed port) {alloc : Bool}
    (hrefused : workeraaWorkCheckWriteIndex s.pool.pool.sync = false ∨ alloc = false ∧
      s.pool.pool.sync.workWriteIndex < s.pool.pool.sync.workSize)
    (hstep : s.step port (.accept alloc) = some s') : ¬ s'.NoneAbandoned := by
  have hsame : workeraaSetWork s.pool.pool (socketaaServerWork s.accepted port) alloc =
      (false, s.pool.pool) := by
    rcases workeraaSetWork_cases s.pool.pool (socketaaServerWork s.accepted port) alloc
      hinv.firstLap.index with ⟨heq, -⟩ | ⟨cells, workerWork, hset, hcheck, -⟩
    · exact heq
    · rcases hrefused with hfalse | ⟨rfl, hlt⟩
      · cases hcheck.symm.trans hfalse
      · have hempty := hinv.firstLap.empty _ (Nat.le_refl _) hlt
        rw [hempty] at hset
        simp [socketaaSetWork] at hset
  simp only [Server.step, PoolWorkers.step, Option.map_some, Option.some.injEq, hsame] at hstep
  subst hstep
  intro hall
  have hread := hinv.firstLap.read_le
  have hcount := hinv.firstLap.count
  have haccepted := hinv.accepted
  have hwaiting : (s.accepted : Int) ∉ s.waiting := by
    rw [hinv.waiting_eq, List.mem_map]
    rintro ⟨k, hk, heq⟩
    rw [List.mem_range] at hk
    omega
  have hclosed : (s.accepted : Int) ∉ s.closed := by
    intro hmem
    obtain ⟨i, hi, heq⟩ := hinv.closed _ hmem
    omega
  rcases hall s.accepted (Nat.lt_succ_self _) with
    ⟨hone, -⟩ | ⟨-, ⟨worker, hholds, -⟩, -⟩ | ⟨-, -, hone⟩
  · have hcount : s.waiting.count (s.accepted : Int) = 1 := hone
    exact hwaiting (List.count_pos_iff.mp (hcount ▸ Nat.one_pos))
  · obtain ⟨work, hheld, hslot, -⟩ := hinv.holds_iff.mp hholds
    have hlt := (hinv.held worker work hheld).slot
    omega
  · have hcount : s.closed.count (s.accepted : Int) = 1 := hone
    exact hclosed (List.count_pos_iff.mp (hcount ▸ Nat.one_pos))

private theorem dropped (hinv : s.Placed port) (hheld : s.pool.held worker = some work)
    (hclosed : (work.slot : Int) ∉ s.closed) (haccepted' : s'.accepted = s.accepted)
    (hsync' : s'.pool.pool.sync = s.pool.pool.sync) (hconn' : s'.conn = s.conn)
    (hheld' : s'.pool.held = s.pool.hold worker none) (hclosed' : s'.closed = s.closed) :
    ¬ s'.NoneAbandoned := by
  intro hall
  have hslot := (hinv.held worker work hheld).slot
  have hread := hinv.firstLap.read_le
  have haccepted := hinv.accepted
  have hsame : s'.waiting = s.waiting := by rw [waiting, waiting, hsync', hconn']
  have hwaiting := (hinv.mem_waiting (i := work.slot) (by omega)).not.mpr (Nat.not_le.mpr hslot)
  have hplace := hall work.slot (by omega)
  rw [InOnePlace, hsame, hclosed'] at hplace
  rcases hplace with ⟨hone, -⟩ | ⟨-, ⟨worker', ⟨work', hwork', hsamecell, -⟩, -⟩, -⟩ | ⟨-, -, hone⟩
  · exact hwaiting (List.count_pos_iff.mp (hone ▸ Nat.one_pos))
  · rw [hheld'] at hwork'
    rw [hconn'] at hsamecell
    by_cases hw : worker' = worker
    · simp [PoolWorkers.hold, hw] at hwork'
    · have hold : s.pool.held worker' = some work' := by
        simpa [PoolWorkers.hold, hw] using hwork'
      rw [(hinv.held_cell hold).1] at hsamecell
      exact hinv.owned.held_distinct _ _ _ _ hw hold hheld (by exact_mod_cast hsamecell)
  · exact hclosed (List.count_pos_iff.mp (hone ▸ Nat.one_pos))

private theorem unvisited (hinv : s.Placed port) {alloc : Bool}
    (hback : s.Abandons port (.enter worker alloc))
    (hstep : s.step port (.enter worker alloc) = some s') : ¬ s'.NoneAbandoned := by
  obtain ⟨work, hnone, hheld, hstep⟩ := enter_cases hstep
  have hnot : ¬ (port ∈ workeraaPorts ∧ (alloc = true ∨ (s.kept worker).2.isSome = true)) := by
    rintro ⟨hport, halloc⟩
    rcases hback with hback | ⟨rfl, hkept⟩
    · exact hback hport
    · simp [hkept] at halloc
  rw [Server.enter, (hinv.held_cell hheld).2, if_neg hnot] at hstep
  cases hstep
  exact hinv.dropped hheld ((hinv.held worker work hheld).idle hnone).2 rfl rfl rfl rfl rfl

private theorem unclosed (hinv : s.Placed port) {round : Round} (hround : round.select = .error)
    (hstep : s.step port (.round worker round) = some s')
    (hleave : s'.step port (.leave worker) = some s'') : ¬ s''.NoneAbandoned := by
  obtain ⟨visit, work, w, pool, hvisit, hheld, hw, hpool, rfl⟩ := round_cases hstep
  obtain ⟨visit', work', -, -, -, rfl⟩ := leave_cases hleave
  obtain ⟨-, ⟨hopen, hnot⟩ | ⟨hended, -⟩⟩ := (hinv.held worker work hheld).visit visit hvisit
  swap
  · cases (SocketaaWorker.step_of_ended hended.isSelect).symm.trans hw
  obtain ⟨-, ⟨-, rfl⟩ | ⟨htimeout, -⟩ | ⟨hready, -⟩ | ⟨hready, -⟩ | ⟨hready, -⟩⟩ :=
    SocketaaWorker.step_cases hw
  · obtain rfl := setFlags_eq hheld hpool
    refine hinv.dropped hheld hnot rfl rfl ?_ rfl ?_
    · funext c
      by_cases hc : c = work.cell <;> simp [Server.conn, WorkCells.store, hc]
    · simp [closings, SocketaaWorker.selecting, current]
  · cases hround.symm.trans htimeout
  · cases hround.symm.trans hready
  · cases hround.symm.trans hready
  · cases hround.symm.trans hready

end Placed

end Server

open Server

/-- In every run that accepts a connection only while the pool takes it, not at the wrap of the
write index, and in which no `select` fails and no worker comes back from its connection at once,
each accepted connection is in one place after every step. A connection that the pool refuses is
lost at once, and so is one that a worker comes back from at once, or after a `select` that
fails. -/
theorem server_noneAbandoned (port : UInt16) (workSizeMax workerCount : Nat) (isRun : Nat → Bool)
    (slots : Nat → WorkeraaWork) (cells : WorkCells) (memory : Nat → Memory) :
    (∀ (events : List ServerStep) (s : Server),
      GuardedRun (Server.step port) (fun s event => ¬ s.Abandons port event)
          (.initial workSizeMax workerCount isRun slots cells memory) events s →
        s.NoneAbandoned) ∧
      ∀ (events : List ServerStep) (s : Server),
      GuardedRun (Server.step port) (fun s event => ¬ s.Abandons port event)
          (.initial workSizeMax workerCount isRun slots cells memory) events s →
        (∀ alloc s', s.step port (.accept alloc) = some s' →
          (workeraaWorkCheckWriteIndex s.pool.pool.sync = false ∨ alloc = false ∧
            s.pool.pool.sync.workWriteIndex < s.pool.pool.sync.workSize) → ¬ s'.NoneAbandoned) ∧
        (∀ worker alloc s', s.step port (.enter worker alloc) = some s' →
          s.Abandons port (.enter worker alloc) → ¬ s'.NoneAbandoned) ∧
        ∀ worker round s' s'', s.step port (.round worker round) = some s' →
          s.Abandons port (.round worker round) → s'.step port (.leave worker) = some s'' →
            ¬ s''.NoneAbandoned := by
  have hinv : ∀ (events : List ServerStep) (s : Server),
      GuardedRun (Server.step port) (fun s event => ¬ s.Abandons port event)
        (.initial workSizeMax workerCount isRun slots cells memory) events s → s.Placed port := by
    intro events s hrun
    exact hrun.invariant (Placed port) (fun _ _ _ hinv hok hstep => hinv.step hok hstep)
      (Placed.initial _ _ _ _ _ _ _)
  refine ⟨fun events s hrun => (hinv _ _ hrun).noneAbandoned, fun events s hrun => ⟨?_, ?_, ?_⟩⟩
  · exact fun alloc s' hstep hrefused => (hinv _ _ hrun).refused hrefused hstep
  · exact fun worker alloc s' hstep hback => (hinv _ _ hrun).unvisited hback hstep
  · exact fun worker round s' s'' hstep herror hleave =>
      (hinv _ _ hrun).unclosed herror hstep hleave

/-- The one worker waits in vain for its client and closes the connection. The next one is refused,
since both indices rest at the end of the array. -/
theorem server_noneAbandoned_secondAccept : ∃ s : Server, s.closed = [0] ∧ s.NoneAbandoned ∧
    ∃ s', s.step 8080 (.accept true) = some s' ∧ ¬ s'.NoneAbandoned := by
  have haccept : ¬ (Server.initial 1 1 (fun _ => true) zeroMemory zeroCells
      fun _ => ⟨.ofText [], []⟩).Abandons 8080 (.accept true) := by
    rintro (h | h | ⟨h, -⟩)
    · exact absurd h (by decide)
    · cases h
    · exact absurd h (by decide)
  have henter : ∀ s : Server, ¬ s.Abandons 8080 (.enter 0 true) := by
    rintro s (h | ⟨h, -⟩)
    · exact absurd h (by decide)
    · cases h
  have hrun : GuardedRun (Server.step 8080) (fun s event => ¬ s.Abandons 8080 event)
      (.initial 1 1 (fun _ => true) zeroMemory zeroCells fun _ => ⟨.ofText [], []⟩)
      [.accept true, .getWork 0, .enter 0 true, .round 0 ⟨.timeout, none, none⟩, .leave 0] _ :=
    .cons haccept rfl (.cons id rfl (.cons (henter _) rfl (.cons nofun rfl (.cons id rfl
      (.nil _)))))
  have hclaim := server_noneAbandoned 8080 1 1 (fun _ => true) zeroMemory zeroCells
    fun _ => ⟨.ofText [], []⟩
  exact ⟨_, rfl, hclaim.1 _ _ hrun, _, rfl, (hclaim.2 _ _ hrun).1 true _ rfl (.inl (by decide))⟩

/-- With room for one work the second of two connections is lost. -/
theorem server_abandons :
    ¬ ∀ (port : UInt16) (workSizeMax workerCount : Nat) (isRun : Nat → Bool)
        (slots : Nat → WorkeraaWork) (cells : WorkCells) (memory : Nat → Memory)
        (events : List ServerStep) (s : Server),
      Run (Server.step port) (.initial workSizeMax workerCount isRun slots cells memory) events s →
        s.NoneAbandoned := by
  intro h
  have hnone := h 8080 1 1 (fun _ => true) zeroMemory zeroCells (fun _ => ⟨.ofText [], []⟩)
    [.accept true, .accept true] _ (run_iff_runEvents.mpr rfl)
  rcases hnone 1 (by decide) with ⟨hone, -⟩ | ⟨-, ⟨worker, ⟨work, hheld, -⟩, -⟩, -⟩ | ⟨-, -, hone⟩
  · exact absurd hone (by decide)
  · cases hheld
  · exact absurd hone (by decide)

end Httpaa
