import Mathlib.Data.List.Nodup
import Mathlib.Data.List.Perm.Subperm
import Httpaa.Pool.Isolation
import Httpaa.Worker.Life

/-!
# The server with its workers

The server loop and any number of workers in `workeraa_main`, which share the works array and the
works themselves. A worker reads the flags of its work in each round of `socketaa_worker` and writes
them back, and keeps its structure from one connection to the next.

A work that is set at an index behind the end of the works array goes into one more slot, where the
source writes behind the array: what follows holds of such a run only as far as that write harms
nothing else.
-/

namespace Httpaa

open Traced Transition

/-- The ports of `workeraa_func`. -/
def workeraaPorts : List UInt16 := [80, 8080, 443, 8443]

def workeraaPoolWorkerCountDefault : Nat := 1

def workeraaPoolWorkerCountMax : Nat := 255

/-- The number of workers that `socketaa_server` asks for. -/
def socketaaServerWorkerCount (workerCount : Nat) : Nat :=
  if workerCount = 0 then workeraaPoolWorkerCountDefault
  else if workeraaPoolWorkerCountMax < workerCount then workeraaPoolWorkerCountMax
  else workerCount

/-- The number of workers that `workeraa_pool_init` runs: it stops at the first thread that is not
created. The allocations succeed. -/
def workeraaPoolInit (workerCount : Nat) (isRun : Nat → Bool) : Nat :=
  ((List.range workerCount).takeWhile isRun).length

private theorem socketaaServerWorkerCount_le (workerCount : Nat) :
    socketaaServerWorkerCount workerCount ≤ workeraaPoolWorkerCountMax := by
  rw [socketaaServerWorkerCount]
  split
  · decide
  · split
    · exact Nat.le_refl _
    · omega

private theorem workeraaPoolInit_le (workerCount : Nat) (isRun : Nat → Bool) :
    workeraaPoolInit workerCount isRun ≤ workerCount := by
  rw [workeraaPoolInit]
  simpa using (List.takeWhile_prefix isRun (l := List.range workerCount)).length_le

/-- A call of `socketaa_worker`, with the connection it is for and the bytes sent so far. -/
structure Visit where
  conn : Int
  worker : SocketaaWorker
  sent : List UInt8

structure Visited where
  worker : Nat
  conn : Int
  sent : List UInt8
deriving DecidableEq, Repr

/-- The pool, the number of its workers, the connections accepted so far, what each worker keeps
between connections, the calls of `socketaa_worker`, going on and returned, and the connections that
`closesocket` was called on, once for each call. -/
structure Server where
  pool : PoolWorkers
  workerCount : Nat
  accepted : Nat
  kept : Nat → Memory × Option WorkeraaHttp
  visit : Nat → Option Visit
  visited : List Visited
  closed : List Int

/-- The server accepts a connection; a worker goes through its critical section in
`workeraa_get_work`, calls `socketaa_worker` for the work it got, goes through a round of its loop,
or returns from it. `alloc` tells whether `malloc` succeeds, if it is called: the structure of a
worker and its two buffers are allocated together, or none of them is. -/
inductive ServerStep
  | accept (alloc : Bool)
  | getWork (worker : Nat)
  | enter (worker : Nat) (alloc : Bool)
  | round (worker : Nat) (round : Round)
  | leave (worker : Nat)

/-- The round that a step is for a worker. -/
def ServerStep.rounds (worker : Nat) : ServerStep → List Round
  | .round i r => if i = worker then [r] else []
  | _ => []

namespace Server

def update {β : Type} (f : Nat → β) (worker : Nat) (value : β) : Nat → β :=
  fun i => if i = worker then value else f i

theorem update_same {β : Type} (f : Nat → β) (worker : Nat) (value : β) :
    update f worker value worker = value := if_pos rfl

theorem update_other {β : Type} (f : Nat → β) {i worker : Nat} (value : β) (h : i ≠ worker) :
    update f worker value i = f i := if_neg h

theorem update_eq_some {β : Type} {f : Nat → Option β} {worker i : Nat} {value : Option β} {b : β}
    (h : update f worker value i = some b) : (i = worker ∧ value = some b) ∨ f i = some b := by
  by_cases hi : i = worker
  · subst hi
    exact .inl ⟨rfl, (update_same ..).symm.trans h⟩
  · exact .inr ((update_other _ _ hi).symm.trans h)

/-- The worker, with the flags that its work has now. -/
def current (s : Server) (visit : Visit) (work : HeldWork) : SocketaaWorker :=
  { visit.worker with flags := (s.pool.pool.cells.cell work.cell).flags }

/-- `workeraa_main` behind `workeraa_get_work`. A port that `workeraa_func` does not know is 0 or
makes it return 0, and the worker comes back at once. So it does without a structure, which is not
allocated again once it has one: `workeraa_http_init` returns 1, but there is no receive buffer. -/
def enter (s : Server) (worker : Nat) (work : HeldWork) (alloc : Bool) : Option Server :=
  let cell := s.pool.pool.cells.cell work.cell
  if cell.port ∈ workeraaPorts ∧ (alloc ∨ (s.kept worker).2.isSome) then
    some { s with visit := update s.visit worker (some
      { conn := cell.conn, worker := connect (s.kept worker).1 (s.kept worker).2, sent := [] }) }
  else (s.pool.step (.enterGetWork worker)).map fun pool => { s with pool }

/-- How often the worker closes its socket on the way from `w` to `w'`. -/
def closings (w w' : SocketaaWorker) : Nat :=
  w'.calls.count .closesocket - w.calls.count .closesocket

/-- A round of `socketaa_worker`. The flags are written back to the work. -/
def round (s : Server) (worker : Nat) (visit : Visit) (work : HeldWork) (round : Round) :
    Option Server := do
  let w ← (s.current visit work).step round
  let pool ← s.pool.step (.setFlags worker w.flags)
  return { s with
    pool
    visit := update s.visit worker (some { visit with
      worker := w, sent := visit.sent ++ (s.current visit work).accepted round })
    closed := s.closed ++ List.replicate (closings visit.worker w) visit.conn }

/-- The loop has ended, and the worker enters `workeraa_get_work`. -/
def leave (s : Server) (worker : Nat) (visit : Visit) (work : HeldWork) : Option Server :=
  if (s.pool.pool.cells.cell work.cell).flags.isSelect then none
  else (s.pool.step (.enterGetWork worker)).map fun pool => { s with
    pool
    kept := update s.kept worker (visit.worker.memory, some visit.worker.http)
    visit := update s.visit worker none
    visited := s.visited ++ [⟨worker, visit.conn, visit.sent⟩] }

def step (port : UInt16) (s : Server) : ServerStep → Option Server
  | .accept alloc =>
      (s.pool.step (.setWork (socketaaServerWork s.accepted port) alloc)).map fun pool =>
        { s with pool, accepted := s.accepted + 1 }
  | .getWork worker =>
      match s.visit worker with
      | some _ => none
      | none =>
          if worker < s.workerCount then
            (s.pool.step (.getWork worker)).map fun pool => { s with pool }
          else none
  | .enter worker alloc =>
      match s.visit worker, s.pool.held worker with
      | none, some work => if worker < s.workerCount then s.enter worker work alloc else none
      | _, _ => none
  | .round worker round =>
      match s.visit worker, s.pool.held worker with
      | some visit, some work => s.round worker visit work round
      | _, _ => none
  | .leave worker =>
      match s.visit worker, s.pool.held worker with
      | some visit, some work => s.leave worker visit work
      | _, _ => none

/-- The server when its pool is initialised. Each worker has memory of its own. -/
def initial (workSizeMax workerCount : Nat) (isRun : Nat → Bool) (slots : Nat → WorkeraaWork)
    (cells : WorkCells) (memory : Nat → Memory) : Server where
  pool := .initial workSizeMax slots cells
  workerCount := workeraaPoolInit (socketaaServerWorkerCount workerCount) isRun
  accepted := 0
  kept := fun worker => (memory worker, none)
  visit := fun _ => none
  visited := []
  closed := []

variable {s s' : Server} {port : UInt16} {event : ServerStep} {events : List ServerStep}

/-- An index comes back to the slot of a work that a worker still holds. -/
def Returns (port : UInt16) (s : Server) : ServerStep → Prop
  | .accept alloc => Httpaa.Returns s.pool (.setWork (socketaaServerWork s.accepted port) alloc)
  | .getWork worker => Httpaa.Returns s.pool (.getWork worker)
  | _ => False

/-! ### What a step does -/

/-- A step is one of the pool between visits, or a visit begins, goes on or ends. -/
theorem step_cases (hstep : s.step port event = some s') :
    (∃ e pool accepted, s.pool.step e = some pool ∧
      (¬ s.Returns port event → ¬ Httpaa.Returns s.pool e) ∧
        (∀ i flags, e ≠ .setFlags i flags) ∧ (∀ i, e = .enterGetWork i → s.visit i = none) ∧
        (∀ i, event.rounds i = []) ∧ s' = { s with pool, accepted }) ∨
      (∃ i work conn, i < s.workerCount ∧ s.visit i = none ∧ s.pool.held i = some work ∧
        (∀ i, event.rounds i = []) ∧ s' = { s with
          visit := update s.visit i (some ⟨conn, connect (s.kept i).1 (s.kept i).2, []⟩) }) ∨
      (∃ i visit work round w pool closed, s.visit i = some visit ∧ s.pool.held i = some work ∧
        (s.current visit work).step round = some w ∧
        s.pool.step (.setFlags i w.flags) = some pool ∧ event = .round i round ∧
        s' = { s with
          pool
          visit := update s.visit i (some { visit with
            worker := w, sent := visit.sent ++ (s.current visit work).accepted round })
          closed }) ∨
      (∃ i visit work pool, s.visit i = some visit ∧ s.pool.held i = some work ∧
        s.pool.step (.enterGetWork i) = some pool ∧ (∀ i, event.rounds i = []) ∧
        (s.current visit work).flags.isSelect = false ∧
        s' = { s with
          pool
          kept := update s.kept i (visit.worker.memory, some visit.worker.http)
          visit := update s.visit i none
          visited := s.visited ++ [⟨i, visit.conn, visit.sent⟩] }) := by
  cases event with
  | accept alloc =>
      rw [step] at hstep
      obtain ⟨pool, hpool, rfl⟩ := Option.map_eq_some_iff.mp hstep
      exact .inl ⟨_, pool, s.accepted + 1, hpool, id, nofun, nofun, fun _ => rfl, rfl⟩
  | getWork worker =>
      rw [step] at hstep
      split at hstep
      · cases hstep
      · split at hstep
        · obtain ⟨pool, hpool, rfl⟩ := Option.map_eq_some_iff.mp hstep
          exact .inl ⟨_, pool, s.accepted, hpool, id, nofun, nofun, fun _ => rfl, rfl⟩
        · cases hstep
  | enter worker alloc =>
      rw [step] at hstep
      split at hstep
      · rename_i work hvisit hheld
        split at hstep
        · rename_i hworker
          rw [enter] at hstep
          split at hstep
          · cases hstep
            exact .inr (.inl ⟨worker, work, _, hworker, hvisit, hheld, fun _ => rfl, rfl⟩)
          · obtain ⟨pool, hpool, rfl⟩ := Option.map_eq_some_iff.mp hstep
            refine .inl ⟨_, pool, s.accepted, hpool, fun _ => id, nofun, fun i h => ?_,
              fun _ => rfl, rfl⟩
            cases h
            exact hvisit
        · cases hstep
      · cases hstep
  | round worker round =>
      rw [step] at hstep
      split at hstep
      · rename_i visit work hvisit hheld
        obtain ⟨w, hw, hstep⟩ := Option.bind_eq_some_iff.mp hstep
        obtain ⟨pool, hpool, hstep⟩ := Option.bind_eq_some_iff.mp hstep
        cases hstep
        exact .inr (.inr (.inl
          ⟨worker, visit, work, round, w, pool, _, hvisit, hheld, hw, hpool, rfl, rfl⟩))
      · cases hstep
  | leave worker =>
      rw [step] at hstep
      split at hstep
      · rename_i visit work hvisit hheld
        rw [leave] at hstep
        split at hstep
        · cases hstep
        · rename_i hselect
          obtain ⟨pool, hpool, rfl⟩ := Option.map_eq_some_iff.mp hstep
          exact .inr (.inr (.inr ⟨worker, visit, work, pool, hvisit, hheld, hpool, fun _ => rfl,
            Bool.eq_false_iff.mpr hselect, rfl⟩))
      · cases hstep

/-- The server goes through the steps of its pool. -/
theorem run_pool (hrun : Run (step port) s events s') :
    ∃ poolEvents, Run PoolWorkers.step s.pool poolEvents s'.pool := by
  induction hrun with
  | nil s => exact ⟨[], .nil _⟩
  | cons _ hstep _ ih =>
      obtain ⟨poolEvents, hpool⟩ := ih
      rcases step_cases hstep with ⟨e, pool, accepted, he, -, -, -, -, rfl⟩ |
        ⟨i, work, conn, -, -, -, -, rfl⟩ |
        ⟨i, visit, work, round, w, pool, closed, -, -, -, he, -, rfl⟩ |
        ⟨i, visit, work, pool, -, -, he, -, -, rfl⟩
      · exact ⟨e :: poolEvents, .cons trivial he hpool⟩
      · exact ⟨poolEvents, hpool⟩
      · exact ⟨_ :: poolEvents, .cons trivial he hpool⟩
      · exact ⟨_ :: poolEvents, .cons trivial he hpool⟩

/-! ### The rounds of one worker -/

theorem setFlags_eq {pool pool' : PoolWorkers} {i : Nat} {work : HeldWork}
    {flags : SocketaaWorkFlags} (hheld : pool.held i = some work)
    (hstep : pool.step (.setFlags i flags) = some pool') :
    pool' = { pool with pool := { pool.pool with
      cells := pool.pool.cells.store work.cell { pool.pool.cells.cell work.cell with flags } } } := by
  rw [PoolWorkers.step, hheld, Option.map_some, Option.some.injEq] at hstep
  exact hstep.symm

theorem setFlags_same {pool pool' : PoolWorkers} {i : Nat} {work : HeldWork}
    {flags : SocketaaWorkFlags} (hheld : pool.held i = some work)
    (hstep : pool.step (.setFlags i flags) = some pool') :
    pool'.held i = some work ∧ (pool'.pool.cells.cell work.cell).flags = flags := by
  rw [setFlags_eq hheld hstep]
  exact ⟨hheld, by rw [WorkCells.store_same]⟩

private theorem run_rounds (port : UInt16) {i : Nat} {visit : Visit} {work : HeldWork}
    {rounds : List Round} {w : SocketaaWorker} (hvisit : s.visit i = some visit)
    (hheld : s.pool.held i = some work)
    (hrun : Run SocketaaWorker.step (s.current visit work) rounds w) :
    ∃ s' visit', GuardedRun (step port) (fun s event => ¬ s.Returns port event) s
        (rounds.map (.round i)) s' ∧ s'.visit i = some visit' ∧ s'.pool.held i = some work ∧
      s'.current visit' work = w ∧ s'.visited = s.visited ∧ visit'.conn = visit.conn ∧
      visit'.sent = visit.sent ++ (s.current visit work).transmitted rounds := by
  generalize hw : s.current visit work = start at hrun
  induction hrun generalizing s visit with
  | nil start =>
      exact ⟨s, visit, .nil _, hvisit, hheld, hw, rfl, rfl, (List.append_nil _).symm⟩
  | @cons start next w round rounds _ hstep _ ih =>
      have hflags : ∃ pool, s.pool.step (.setFlags i next.flags) = some pool := by
        rw [PoolWorkers.step, hheld]
        exact ⟨_, rfl⟩
      obtain ⟨pool, hpool⟩ := hflags
      obtain ⟨hheld', hcell⟩ := setFlags_same hheld hpool
      subst hw
      have hserver : ∃ s₁ visit₁, s.step port (.round i round) = some s₁ ∧
          s₁.visit i = some visit₁ ∧ s₁.pool.held i = some work ∧ s₁.current visit₁ work = next ∧
          s₁.visited = s.visited ∧ visit₁.conn = visit.conn ∧
          visit₁.sent = visit.sent ++ (s.current visit work).accepted round := by
        rw [step, hvisit, hheld]
        simp only [Server.round, hstep, hpool, Option.bind_eq_bind, Option.bind_some,
          Option.pure_def]
        refine ⟨_, _, rfl, update_same .., hheld', ?_, rfl, rfl, rfl⟩
        rw [current]
        dsimp only
        rw [hcell]
      obtain ⟨s₁, visit₁, hserver, hvisit₁, hheld₁, hcurrent, hvisited₁, hconn₁, hsent₁⟩ := hserver
      obtain ⟨s', visit', hrest, hvisit', hheld'', hend, hvisited, hconn, hsent⟩ :=
        ih hvisit₁ hheld₁ hcurrent
      refine ⟨s', visit', .cons id hserver hrest, hvisit', hheld'', hend,
        hvisited.trans hvisited₁, hconn.trans hconn₁, ?_⟩
      rw [hsent, hsent₁, SocketaaWorker.transmitted, hstep, Option.elim_some, List.append_assoc]

private theorem run_after (w : SocketaaWorker) (rounds : List Round) : ∃ done,
    Run SocketaaWorker.step w done (w.after rounds) ∧
    w.transmitted done = w.transmitted rounds := by
  induction rounds generalizing w with
  | nil => exact ⟨[], .nil _, rfl⟩
  | cons round rounds ih =>
      rw [SocketaaWorker.after, SocketaaWorker.transmitted]
      cases hstep : w.step round with
      | none =>
          refine ⟨[], .nil _, ?_⟩
          have hnothing : w.accepted round = [] := by
            rw [SocketaaWorker.accepted, if_neg]
            rintro ⟨hselect, hready, hsend⟩
            simp [SocketaaWorker.step, hselect, hready, hsend] at hstep
          rw [hnothing]
          rfl
      | some next =>
          obtain ⟨done, hrun, hsent⟩ := ih next
          refine ⟨round :: done, .cons trivial hstep hrun, ?_⟩
          rw [SocketaaWorker.transmitted, hstep, Option.elim_some, Option.elim_some, hsent]

private theorem run_bytes : ∃ events s, GuardedRun (step 8080)
    (fun s event => ¬ s.Returns 8080 event)
    (.initial 1 1 (fun _ => true) zeroMemory zeroCells fun _ => ⟨.ofText [], []⟩) events s ∧
      s.visited = [⟨0, 0, responseText⟩] := by
  have hfirst : ∃ s visit work, GuardedRun (step 8080) (fun s event => ¬ s.Returns 8080 event)
      (.initial 1 1 (fun _ => true) zeroMemory zeroCells fun _ => ⟨.ofText [], []⟩)
      [.accept true, .getWork 0, .enter 0 true] s ∧ s.visit 0 = some visit ∧
      s.pool.held 0 = some work ∧ s.current visit work = connect ⟨.ofText [], []⟩ none ∧
      s.visited = [] ∧ visit.conn = 0 ∧ visit.sent = [] :=
    ⟨_, _, _, .cons (fun ⟨_, _, _, hheld, _⟩ => by cases hheld) rfl
      (.cons (fun ⟨_, _, _, hheld, _⟩ => by cases hheld) rfl (.cons id rfl (.nil _))),
      rfl, rfl, rfl, rfl, rfl, rfl⟩
  obtain ⟨s, visit, work, hrun, hvisit, hheld, hcurrent, hvisited, hconn, hnothing⟩ := hfirst
  obtain ⟨hcooperate, hasked⟩ := bytes_cooperate responseText.length
  obtain ⟨hresponse, hselect, -⟩ := connect_sends ⟨.ofText [], []⟩ 1 hcooperate hasked
    (by rw [List.length_replicate]; omega)
  obtain ⟨done, hdone, hsame⟩ := run_after (connect ⟨.ofText [], []⟩ none) _
  rw [← hcurrent] at hdone hsame
  obtain ⟨s', visit', hrounds, hvisit', hheld', hend, hvisited', hconn', hsent⟩ :=
    run_rounds 8080 hvisit hheld hdone
  have hended : (s'.pool.pool.cells.cell work.cell).flags.isSelect = false := by
    have hflags : (s'.current visit' work).flags.isSelect = false := by
      rw [hend, hcurrent]
      exact hselect
    exact hflags
  have hleave : ∃ s'', s'.step 8080 (.leave 0) = some s'' ∧
      s''.visited = s'.visited ++ [⟨0, visit'.conn, visit'.sent⟩] := by
    rw [step, hvisit', hheld']
    dsimp only
    rw [leave, if_neg (Bool.eq_false_iff.mp hended)]
    exact ⟨_, rfl, rfl⟩
  obtain ⟨s'', hleave, hlast⟩ := hleave
  refine ⟨_, s'', (hrun.append hrounds).snoc id hleave, ?_⟩
  rw [hlast, hvisited', hvisited, hconn', hconn, hsent, hnothing, hsame, hcurrent, hresponse]
  rfl

/-! ### How much is sent -/

private theorem connect_left_le {m : Memory × Option WorkeraaHttp} (hm : Kept m) :
    (connect m.1 m.2).responseLeft ≤ responseText.length := by
  obtain ⟨m, worker⟩ := m
  cases hmade : (connect m worker).http.isHeaderSend with
  | false => exact Nat.le_of_eq (if_neg (by simp [hmade]))
  | true =>
      cases worker with
      | none => cases hmade
      | some worker =>
          rw [connect_left (hm worker rfl) hmade]
          exact Nat.zero_le _

/-- The response has been made, and nothing of it is left to send. -/
structure Spent (w : SocketaaWorker) : Prop where
  isHeaderSend : w.http.isHeaderSend = true
  responseLeft : w.responseLeft = 0

/-- What a worker has sent and what is left for it to send is no more than one response, and all of
it goes to one connection. -/
structure Thrifty (s : Server) : Prop where
  kept : ∀ i, Kept (s.kept i)
  bound : ∀ i visit, s.visit i = some visit → i < s.workerCount
  visit : ∀ i visit, s.visit i = some visit → visit.worker.http.Sound ∧
    visit.sent.length + visit.worker.responseLeft ≤ responseText.length ∧
    (visit.sent ≠ [] → visit.worker.http.isHeaderSend = true)
  visited : ∀ v ∈ s.visited, v.worker < s.workerCount ∧ v.sent.length ≤ responseText.length
  once : s.visited.Pairwise fun v v' => v.worker = v'.worker → v.sent = [] ∨ v'.sent = []
  spent : ∀ v ∈ s.visited, v.sent ≠ [] → (s.visit v.worker = none → Made (s.kept v.worker)) ∧
    ∀ visit, s.visit v.worker = some visit → Spent visit.worker ∧ visit.sent = []

theorem Thrifty.initial (workSizeMax workerCount : Nat) (isRun : Nat → Bool)
    (slots : Nat → WorkeraaWork) (cells : WorkCells) (memory : Nat → Memory) :
    Thrifty (.initial workSizeMax workerCount isRun slots cells memory) := by
  have hkept : ∀ i,
      ((Server.initial workSizeMax workerCount isRun slots cells memory).kept i).2 = none :=
    fun _ => rfl
  have hvisit : ∀ i,
      (Server.initial workSizeMax workerCount isRun slots cells memory).visit i = none :=
    fun _ => rfl
  refine ⟨fun i worker h => ?_, fun i visit h => ?_, fun i visit h => ?_,
    fun v h => absurd h List.not_mem_nil, .nil, fun v h => absurd h List.not_mem_nil⟩
  · cases (hkept i).symm.trans h
  · cases (hvisit i).symm.trans h
  · cases (hvisit i).symm.trans h

theorem Thrifty.enter (hs : Thrifty s) {i : Nat} (conn : Int) (hi : i < s.workerCount)
    (hnone : s.visit i = none) : Thrifty { s with
      visit := update s.visit i (some ⟨conn, connect (s.kept i).1 (s.kept i).2, []⟩) } := by
  refine ⟨hs.kept, fun j visit hvisit => ?_, fun j visit hvisit => ?_, hs.visited, hs.once,
    fun v hv hne => ?_⟩
  · rcases update_eq_some hvisit with ⟨rfl, -⟩ | hother
    · exact hi
    · exact hs.bound j visit hother
  · rcases update_eq_some hvisit with ⟨-, hnew⟩ | hother
    · cases hnew
      exact ⟨connect_sound (hs.kept i), (Nat.zero_add _).trans_le (connect_left_le (hs.kept i)),
        fun h => absurd rfl h⟩
    · exact hs.visit j visit hother
  · obtain ⟨hidle, hbusy⟩ := hs.spent v hv hne
    by_cases hj : v.worker = i
    · obtain ⟨worker, hworker, hmade⟩ := hidle (hj ▸ hnone)
      simp only [hj, update_same] at hworker ⊢
      refine ⟨nofun, fun visit hvisit => ?_⟩
      cases hvisit
      have hsound := hs.kept i worker hworker
      dsimp only
      rw [hworker]
      exact ⟨⟨hmade, connect_left hsound hmade⟩, rfl⟩
    · simp only [update_other _ _ hj]
      exact ⟨hidle, hbusy⟩

/-- A round of a visit. -/
theorem Thrifty.round (hs : Thrifty s) {i : Nat} {visit : Visit} {work : HeldWork} {round : Round}
    {w : SocketaaWorker} (pool : PoolWorkers) (closed : List Int) (hvisit : s.visit i = some visit)
    (hstep : (s.current visit work).step round = some w) : Thrifty { s with
      pool
      visit := update s.visit i (some { visit with
        worker := w, sent := visit.sent ++ (s.current visit work).accepted round })
      closed } := by
  obtain ⟨hsound, hleft, hmade⟩ := hs.visit i visit hvisit
  have hcurrent : (s.current visit work).responseLeft = visit.worker.responseLeft := rfl
  obtain ⟨hless, hsome, hstays, hsound'⟩ := SocketaaWorker.step_left
    (w := s.current visit work) hsound hstep
  refine ⟨hs.kept, fun j visit' hvisit' => ?_, fun j visit' hvisit' => ?_, hs.visited, hs.once,
    fun v hv hne => ?_⟩
  · rcases update_eq_some hvisit' with ⟨rfl, -⟩ | hother
    · exact hs.bound j visit hvisit
    · exact hs.bound j visit' hother
  · rcases update_eq_some hvisit' with ⟨-, hnew⟩ | hother
    · cases hnew
      refine ⟨hsound', ?_, fun hne => ?_⟩
      · rw [List.length_append]
        dsimp only
        omega
      · by_cases hsent : visit.sent = []
        · exact hsome (by simpa [hsent] using hne)
        · exact hstays (hmade hsent)
    · exact hs.visit j visit' hother
  · obtain ⟨hidle, hbusy⟩ := hs.spent v hv hne
    by_cases hj : v.worker = i
    · obtain ⟨hspent, hnothing⟩ := hbusy visit (hj ▸ hvisit)
      simp only [hj, update_same]
      refine ⟨nofun, fun visit' hvisit' => ?_⟩
      cases hvisit'
      have hspent' : Spent (s.current visit work) := ⟨hspent.isHeaderSend, hspent.responseLeft⟩
      rw [hspent.responseLeft] at hcurrent
      rw [hcurrent] at hless
      have haccepted : (s.current visit work).accepted round = [] :=
        List.length_eq_zero_iff.mp (by omega)
      refine ⟨⟨hstays hspent.isHeaderSend, by dsimp only; omega⟩, ?_⟩
      rw [hnothing, haccepted, List.nil_append]
    · simp only [update_other _ _ hj]
      exact ⟨hidle, hbusy⟩

theorem Thrifty.leave (hs : Thrifty s) {i : Nat} {visit : Visit} (pool : PoolWorkers)
    (hvisit : s.visit i = some visit) : Thrifty { s with
      pool
      kept := update s.kept i (visit.worker.memory, some visit.worker.http)
      visit := update s.visit i none
      visited := s.visited ++ [⟨i, visit.conn, visit.sent⟩] } := by
  obtain ⟨hsound, hleft, hmade⟩ := hs.visit i visit hvisit
  have hnow : ∀ v ∈ s.visited, v.sent ≠ [] → v.worker = i → Spent visit.worker ∧
    visit.sent = [] := by
    intro v hv hne hi
    exact (hs.spent v hv hne).2 visit (hi ▸ hvisit)
  refine ⟨fun j => ?_, fun j visit' hvisit' => ?_, fun j visit' hvisit' => ?_, fun v hv => ?_, ?_,
    fun v hv hne => ?_⟩
  · by_cases hj : j = i
    · subst hj
      intro worker hworker
      simp only [update_same] at hworker
      cases hworker
      exact hsound
    · simp only [update_other _ _ hj]
      exact hs.kept j
  · rcases update_eq_some hvisit' with ⟨-, hnone⟩ | hother
    · cases hnone
    · exact hs.bound j visit' hother
  · rcases update_eq_some hvisit' with ⟨-, hnone⟩ | hother
    · cases hnone
    · exact hs.visit j visit' hother
  · rcases List.mem_append.mp hv with hv | hv
    · exact hs.visited v hv
    · rw [List.mem_singleton.mp hv]
      exact ⟨hs.bound i visit hvisit, by dsimp only; omega⟩
  · refine List.pairwise_append.mpr ⟨hs.once, List.pairwise_singleton _ _,
      fun v hv v' hv' hsame => ?_⟩
    rw [List.mem_singleton.mp hv'] at hsame ⊢
    by_cases hne : v.sent = []
    · exact .inl hne
    · exact .inr (hnow v hv hne hsame).2
  · by_cases hj : v.worker = i
    · simp only [hj, update_same]
      refine ⟨fun _ => ⟨visit.worker.http, rfl, ?_⟩, fun visit' h => (by cases h)⟩
      rcases List.mem_append.mp hv with hv | hv
      · exact (hnow v hv hne hj).1.isHeaderSend
      · rw [List.mem_singleton.mp hv] at hne
        exact hmade hne
    · simp only [update_other _ _ hj]
      rcases List.mem_append.mp hv with hv | hv
      · exact hs.spent v hv hne
      · rw [List.mem_singleton.mp hv] at hj
        exact absurd rfl hj

theorem Thrifty.step (hs : Thrifty s) (hstep : s.step port event = some s') : Thrifty s' := by
  rcases step_cases hstep with ⟨e, pool, accepted, -, -, -, -, -, rfl⟩ |
    ⟨i, work, conn, hi, hnone, -, -, rfl⟩ |
    ⟨i, visit, work, round, w, pool, closed, hvisit, -, hw, -, -, rfl⟩ |
    ⟨i, visit, work, pool, hvisit, -, -, -, -, rfl⟩
  · exact ⟨hs.kept, hs.bound, hs.visit, hs.visited, hs.once, hs.spent⟩
  · exact hs.enter conn hi hnone
  · exact hs.round pool closed hvisit hw
  · exact hs.leave pool hvisit

private theorem step_workerCount (hstep : s.step port event = some s') :
    s'.workerCount = s.workerCount := by
  rcases step_cases hstep with ⟨e, pool, accepted, -, -, -, -, -, rfl⟩ |
    ⟨i, work, conn, -, -, -, -, rfl⟩ |
    ⟨i, visit, work, round, w, pool, closed, -, -, -, -, -, rfl⟩ |
    ⟨i, visit, work, pool, -, -, -, -, -, rfl⟩
  all_goals rfl

/-- The workers that have sent something, each once for each connection it has sent it on. -/
def answering (s : Server) : List Nat :=
  (s.visited.filter fun v => v.sent ≠ []).map Visited.worker ++
    (List.range s.workerCount).filter fun i => (s.visit i).any fun visit => visit.sent ≠ []

private theorem Thrifty.answering_nodup (hs : Thrifty s) : s.answering.Nodup := by
  refine List.Nodup.append ?_ (List.nodup_range.filter _) ?_
  · refine List.pairwise_map.mpr (List.pairwise_filter.mpr (hs.once.imp ?_))
    intro v v' hor hv hv' hsame
    rcases hor hsame with h | h
    · exact absurd h (of_decide_eq_true hv)
    · exact absurd h (of_decide_eq_true hv')
  · intro i hvisited hvisit
    obtain ⟨v, hv, rfl⟩ := List.mem_map.mp hvisited
    obtain ⟨hmem, hne⟩ := List.mem_filter.mp hv
    obtain ⟨-, hany⟩ := List.mem_filter.mp hvisit
    obtain ⟨visit, hsome, hsent⟩ := (Option.any_eq_true ..).mp hany
    exact of_decide_eq_true hsent ((hs.spent v hmem (of_decide_eq_true hne)).2 visit hsome).2

private theorem Thrifty.answering_le (hs : Thrifty s) : s.answering.length ≤ s.workerCount := by
  have hsubset : s.answering ⊆ List.range s.workerCount := by
    intro i hi
    rcases List.mem_append.mp hi with hi | hi
    · obtain ⟨v, hv, rfl⟩ := List.mem_map.mp hi
      exact List.mem_range.mpr (hs.visited v (List.mem_filter.mp hv).1).1
    · exact (List.mem_filter.mp hi).1
  simpa using (List.subperm_of_subset hs.answering_nodup hsubset).length_le

/-- In every run of the server, whatever its clients send and in whatever order its threads go on,
no more connections are sent anything than there are workers, and none is sent more than one
response. -/
theorem run_answering (port : UInt16) (workSizeMax workerCount : Nat) (isRun : Nat → Bool)
    (slots : Nat → WorkeraaWork) (cells : WorkCells) (memory : Nat → Memory)
    (events : List ServerStep) (s : Server)
    (hrun : Run (step port) (.initial workSizeMax workerCount isRun slots cells memory) events s) :
    s.answering.length ≤ s.workerCount ∧ s.workerCount ≤ workeraaPoolWorkerCountMax ∧
      (∀ v ∈ s.visited, v.sent.length ≤ responseText.length) ∧
      ∀ i visit, s.visit i = some visit → visit.sent.length ≤ responseText.length := by
  have hs : Thrifty s := hrun.invariant Thrifty (fun _ _ _ hs _ hstep => hs.step hstep)
    (Thrifty.initial _ _ _ _ _ _)
  have hcount : s.workerCount ≤ workeraaPoolWorkerCountMax :=
    hrun.invariant (fun s => s.workerCount ≤ workeraaPoolWorkerCountMax)
      (fun _ _ _ hs _ hstep => (step_workerCount hstep).trans_le hs)
      ((workeraaPoolInit_le _ _).trans (socketaaServerWorkerCount_le _))
  refine ⟨hs.answering_le, hcount, fun v hv => (hs.visited v hv).2, fun i visit hvisit => ?_⟩
  have hleft := (hs.visit i visit hvisit).2.1
  omega

/-- The one worker has answered once. -/
theorem run_answering_bytes : ∃ s : Server, s.visited = [⟨0, 0, responseText⟩] ∧
    s.answering.length ≤ s.workerCount := by
  obtain ⟨events, s, hrun, hvisited⟩ := run_bytes
  exact ⟨s, hvisited, (run_answering _ _ _ _ _ _ _ _ _ hrun.run).1⟩

/-! ### What is sent -/

/-- A step of the pool leaves a work that is held with the worker that holds it, and its cell as it
is. -/
theorem pool_keeps {pool pool' : PoolWorkers} {e : WorkersEvent} {i : Nat} {work : HeldWork}
    (hinv : OwnedCells pool) (hok : ¬ Httpaa.Returns pool e) (hstep : pool.step e = some pool')
    (hheld : pool.held i = some work) (hflags : ∀ j flags, e = .setFlags j flags → j ≠ i)
    (hne : e ≠ .enterGetWork i) :
    pool'.held i = some work ∧ pool'.pool.cells.cell work.cell =
    pool.pool.cells.cell work.cell := by
  cases e with
  | setWork pWork alloc =>
      cases hstep
      exact ⟨hheld, (hinv.setWork hok).2 i work hheld⟩
  | enterGetWork j =>
      cases hstep
      have hj : i ≠ j := by
        rintro rfl
        exact hne rfl
      exact ⟨by simpa [PoolWorkers.hold, hj] using hheld, rfl⟩
  | getWork j =>
      have hj : i ≠ j := by
        rintro rfl
        simp [PoolWorkers.step, hheld] at hstep
      rw [PoolWorkers.step] at hstep
      split at hstep
      · cases hstep
      · obtain ⟨⟨isGet, pWork, pool₁⟩, hget, rfl⟩ := Option.map_eq_some_iff.mp hstep
        refine ⟨by simpa [PoolWorkers.hold, hj] using hheld, ?_⟩
        have hcells : pool₁.cells = pool.pool.cells := by
          rw [workeraaGetWork] at hget
          split at hget
          · cases hget
          · split at hget <;> (cases hget; rfl)
        simp only [hcells]
  | setFlags j flags =>
      obtain ⟨work', hheld', rfl⟩ := Option.map_eq_some_iff.mp hstep
      have hcell : work.cell ≠ work'.cell :=
        hinv.cells_distinct i j work work' (hflags j flags rfl).symm hheld hheld'
      exact ⟨hheld, WorkCells.store_other _ _ hcell⟩

/-- Every visit sends what the worker would send if it were alone: the response from the begin on,
or nothing if the response was made on an earlier visit. -/
structure Isolated (s : Server) : Prop where
  owned : OwnedCells s.pool
  held : ∀ i visit, s.visit i = some visit → ∃ work, s.pool.held i = some work ∧
    ((s.current visit work).Transmits visit.sent ∨ (Spent visit.worker ∧ visit.sent = []))
  kept : ∀ i, (connect (s.kept i).1 (s.kept i).2).Waiting [] ∨ Made (s.kept i)
  visited : ∀ v ∈ s.visited, v.sent <+: responseText

theorem Isolated.initial (workSizeMax workerCount : Nat) (isRun : Nat → Bool)
    (slots : Nat → WorkeraaWork) (cells : WorkCells) (memory : Nat → Memory) :
    Isolated (.initial workSizeMax workerCount isRun slots cells memory) := by
  have hvisit : ∀ i,
      (Server.initial workSizeMax workerCount isRun slots cells memory).visit i = none :=
    fun _ => rfl
  refine ⟨OwnedCells.initial _ _ _, fun i visit h => ?_, fun i => .inl ?_,
    fun v h => absurd h List.not_mem_nil⟩
  · cases (hvisit i).symm.trans h
  · obtain ⟨-, -, -, hlistens⟩ := connect_none (memory i)
    exact ⟨hlistens.isHeaderSend, hlistens.response, rfl⟩

private theorem Isolated.held_other (hs : Isolated s) {pool : PoolWorkers} {e : WorkersEvent}
    {i : Nat} {visit : Visit} (hok : ¬ Httpaa.Returns s.pool e) (hstep : s.pool.step e = some pool)
    (hvisit : s.visit i = some visit) (hflags : ∀ j flags, e = .setFlags j flags → j ≠ i)
    (hne : e ≠ .enterGetWork i) :
    ∃ work, pool.held i = some work ∧
      (({ visit.worker with flags := (pool.pool.cells.cell work.cell).flags } :
        SocketaaWorker).Transmits visit.sent ∨ (Spent visit.worker ∧ visit.sent = [])) := by
  obtain ⟨work, hheld, hsent⟩ := hs.held i visit hvisit
  obtain ⟨hheld', hcell⟩ := pool_keeps hs.owned hok hstep hheld hflags hne
  refine ⟨work, hheld', ?_⟩
  rw [hcell]
  exact hsent

theorem Isolated.step (hs : Isolated s) (hthrifty : Thrifty s) (hok : ¬ s.Returns port event)
    (hstep : s.step port event = some s') : Isolated s' := by
  rcases step_cases hstep with ⟨e, pool, accepted, he, hreturns, hflags, henter, -, rfl⟩ |
    ⟨i, work, conn, -, hnone, hheld, -, rfl⟩ |
    ⟨i, visit, work, round, w, pool, closed, hvisit, hheld, hw, he, -, rfl⟩ |
    ⟨i, visit, work, pool, hvisit, hheld, he, -, -, rfl⟩
  · refine ⟨hs.owned.step (hreturns hok) he, fun j visit hvisit => ?_, hs.kept, hs.visited⟩
    exact hs.held_other (hreturns hok) he hvisit (fun k flags h => absurd h (hflags k flags))
      fun h => by cases (henter j h).symm.trans hvisit
  · refine ⟨hs.owned, fun j visit hvisit => ?_, hs.kept, hs.visited⟩
    by_cases hj : j = i
    · subst hj
      cases (update_same ..).symm.trans hvisit
      refine ⟨work, hheld, ?_⟩
      rcases hs.kept j with hwait | ⟨worker, hworker, hmade⟩
      · exact .inl (.inl ⟨hwait.isHeaderSend, hwait.response, rfl⟩)
      · have hsound := hthrifty.kept j worker hworker
        refine .inr ⟨?_, rfl⟩
        dsimp only
        rw [hworker]
        exact ⟨hmade, connect_left hsound hmade⟩
    · exact hs.held j visit ((update_other _ _ hj).symm.trans hvisit)
  · have hother : ∀ flags : SocketaaWorkFlags, ¬ Httpaa.Returns s.pool (.setFlags i flags) :=
      fun _ => id
    refine ⟨hs.owned.step (hother _) he, fun j visit' hvisit' => ?_, hs.kept, hs.visited⟩
    by_cases hj : j = i
    · subst hj
      cases (update_same ..).symm.trans hvisit'
      obtain ⟨hheld', hcell⟩ := setFlags_same hheld he
      obtain ⟨work', hheld'', hsent⟩ := hs.held j visit hvisit
      cases hheld.symm.trans hheld''
      refine ⟨work, hheld', ?_⟩
      rw [current]
      dsimp only
      rw [hcell]
      rcases hsent with hsent | ⟨hspent, hnothing⟩
      · exact .inl (hsent.step hw)
      · obtain ⟨hless, -, hstays, -⟩ := SocketaaWorker.step_left (w := s.current visit work)
          (hthrifty.visit j visit hvisit).1 hw
        have hleft : (s.current visit work).responseLeft = 0 := hspent.responseLeft
        rw [hleft] at hless
        have haccepted : (s.current visit work).accepted round = [] :=
          List.length_eq_zero_iff.mp (by omega)
        exact .inr ⟨⟨hstays hspent.isHeaderSend, by omega⟩, by rw [hnothing, haccepted]; rfl⟩
    · refine hs.held_other (hother _) he ((update_other _ _ hj).symm.trans hvisit') ?_ nofun
      intro k flags h
      cases h
      exact Ne.symm hj
  · have hother : ¬ Httpaa.Returns s.pool (.enterGetWork i) := id
    obtain ⟨work', hheld', hsent⟩ := hs.held i visit hvisit
    refine ⟨hs.owned.step hother he, fun j visit' hvisit' => ?_, fun j => ?_, fun v hv => ?_⟩
    · by_cases hj : j = i
      · subst hj
        cases (update_same ..).symm.trans hvisit'
      · refine hs.held_other hother he ((update_other _ _ hj).symm.trans hvisit') nofun ?_
        intro h
        cases h
        exact hj rfl
    · by_cases hj : j = i
      · subst hj
        simp only [update_same]
        rcases hsent with (hwait | ⟨hsending, -⟩) | ⟨hspent, -⟩
        · exact .inl hwait.connect
        · exact .inr ⟨_, rfl, hsending.isHeaderSend⟩
        · exact .inr ⟨_, rfl, hspent.isHeaderSend⟩
      · simp only [update_other _ _ hj]
        exact hs.kept j
    · rcases List.mem_append.mp hv with hv | hv
      · exact hs.visited v hv
      · rw [List.mem_singleton.mp hv]
        rcases hsent with hsent | ⟨-, hnothing⟩
        · exact hsent.isPrefix
        · exact hnothing ▸ List.nil_prefix

/-- As long as no index comes back to the slot of a work that is still held, every connection is
sent the response from the begin on, or nothing, in whatever order the threads go on. -/
theorem run_begins (port : UInt16) (workSizeMax workerCount : Nat) (isRun : Nat → Bool)
    (slots : Nat → WorkeraaWork) (cells : WorkCells) (memory : Nat → Memory)
    (events : List ServerStep) (s : Server)
    (hrun : GuardedRun (step port) (fun s event => ¬ s.Returns port event)
      (.initial workSizeMax workerCount isRun slots cells memory) events s) :
    (∀ v ∈ s.visited, v.sent <+: responseText) ∧
      ∀ i visit, s.visit i = some visit → visit.sent <+: responseText := by
  have hs : Thrifty s ∧ Isolated s := by
    refine hrun.invariant (fun s => Thrifty s ∧ Isolated s) (fun _ _ _ hs hok hstep => ?_)
      ⟨Thrifty.initial _ _ _ _ _ _, Isolated.initial _ _ _ _ _ _⟩
    exact ⟨hs.1.step hstep, hs.2.step hs.1 hok hstep⟩
  refine ⟨hs.2.visited, fun i visit hvisit => ?_⟩
  obtain ⟨work, -, hsent | ⟨-, hnothing⟩⟩ := hs.2.held i visit hvisit
  · exact hsent.isPrefix
  · exact hnothing ▸ List.nil_prefix

/-- The one worker has sent a response. -/
theorem run_begins_bytes : ∃ s : Server, s.visited = [⟨0, 0, responseText⟩] ∧
    ∀ v ∈ s.visited, v.sent <+: responseText := by
  obtain ⟨events, s, hrun, hvisited⟩ := run_bytes
  exact ⟨s, hvisited, (run_begins _ _ _ _ _ _ _ _ _ hrun).1⟩

end Server

end Httpaa
