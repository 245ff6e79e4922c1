import Httpaa.Worker.Server

/-!
# The workers of the server on their own

As long as no index of the works array comes back to a work that is still held, each worker of the
server goes through its connections as if it were the only one: nothing that the server loop or
another worker does shows in what it keeps or sends. A work behind the end of the works array counts
as one in a further slot.
-/

namespace Httpaa

open Traced Transition

/-- A connection as its worker sees it: the flags of the work when the worker takes it, and the
rounds of the loop. -/
structure Stay where
  flags : SocketaaWorkFlags
  rounds : List Round

def connectWith (kept : Memory × Option WorkeraaHttp) (flags : SocketaaWorkFlags) :
    SocketaaWorker :=
  { connect kept.1 kept.2 with flags }

/-- A worker alone: what it keeps between connections, and what it has sent on each. -/
structure Alone where
  kept : Memory × Option WorkeraaHttp
  sent : List (List UInt8)

/-- A connection from its first round to the one in which the loop ends. -/
def Alone.step (s : Alone) (stay : Stay) : Option Alone := do
  let w ← runEvents SocketaaWorker.step (connectWith s.kept stay.flags) stay.rounds
  if w.flags.isSelect then none
  else return {
    kept := (w.memory, some w.http)
    sent := s.sent ++ [(connectWith s.kept stay.flags).transmitted stay.rounds] }

namespace Server

/-- What the server shows of a worker between its connections. -/
def alone (s : Server) (i : Nat) : Alone where
  kept := s.kept i
  sent := (s.visited.filter fun v => v.worker = i).map Visited.sent

/-- The visit of a worker has come as far as these rounds alone. -/
structure Visiting (s : Server) (i : Nat) (visit : Visit) (stay : Stay) : Prop where
  goesOn : ∃ work, s.pool.held i = some work ∧
    Run SocketaaWorker.step (connectWith (s.kept i) stay.flags) stay.rounds (s.current visit work)
  sent : visit.sent = (connectWith (s.kept i) stay.flags).transmitted stay.rounds

/-- The worker has gone through these rounds as it would alone. -/
def ActsAlone (s : Server) (i : Nat) (start : Alone) (rounds : List Round) : Prop :=
  ∃ history, Run Alone.step start history (s.alone i) ∧
    (s.visit i = none → history.flatMap Stay.rounds = rounds) ∧
    ∀ visit, s.visit i = some visit →
      ∃ stay, s.Visiting i visit stay ∧ history.flatMap Stay.rounds ++ stay.rounds = rounds

variable {s s' : Server} {port : UInt16} {event : ServerStep} {events : List ServerStep} {i : Nat}
  {start : Alone} {rounds : List Round} {visit : Visit} {stay : Stay}

/-- A step of the pool that is not about the worker does not show in its visit. -/
theorem Visiting.frame (hvisiting : s.Visiting i visit stay) (howned : OwnedCells s.pool)
    {e : WorkersEvent} (hok : ¬ Httpaa.Returns s.pool e) (hstep : s.pool.step e = some s'.pool)
    (hflags : ∀ j flags, e = .setFlags j flags → j ≠ i) (hne : e ≠ .enterGetWork i)
    (hkept : s'.kept i = s.kept i) : s'.Visiting i visit stay := by
  obtain ⟨work, hheld, hrun⟩ := hvisiting.goesOn
  obtain ⟨hheld', hcell⟩ := pool_keeps howned hok hstep hheld hflags hne
  have hcurrent : s'.current visit work = s.current visit work := by
    rw [current, current, hcell]
  refine ⟨⟨work, hheld', ?_⟩, ?_⟩
  · rw [hkept, hcurrent]
    exact hrun
  · rw [hkept]
    exact hvisiting.sent

theorem ActsAlone.frame (hs : s.ActsAlone i start rounds) (hvisit : s'.visit i = s.visit i)
    (halone : s'.alone i = s.alone i)
    (hvisiting : ∀ visit stay, s.visit i = some visit → s.Visiting i visit stay →
      s'.Visiting i visit stay) : s'.ActsAlone i start rounds := by
  obtain ⟨history, hrun, hidle, hbusy⟩ := hs
  refine ⟨history, halone ▸ hrun, fun hnone => hidle (hvisit ▸ hnone), fun visit hsome => ?_⟩
  obtain ⟨stay, hstay, hrounds⟩ := hbusy visit (hvisit ▸ hsome)
  exact ⟨stay, hvisiting visit stay (hvisit ▸ hsome) hstay, hrounds⟩

theorem Visiting.round (hvisiting : s.Visiting i visit stay) {work : HeldWork} {round : Round}
    {w : SocketaaWorker} (hheld : s.pool.held i = some work)
    (hstep : (s.current visit work).step round = some w)
    (hpool : s.pool.step (.setFlags i w.flags) = some s'.pool) (hkept : s'.kept i = s.kept i) :
    s'.Visiting i { visit with
      worker := w, sent := visit.sent ++ (s.current visit work).accepted round }
      { stay with rounds := stay.rounds ++ [round] } := by
  obtain ⟨work', hheld', hrun⟩ := hvisiting.goesOn
  cases hheld.symm.trans hheld'
  obtain ⟨hheld'', hflags⟩ := setFlags_same hheld hpool
  refine ⟨⟨work, hheld'', ?_⟩, ?_⟩
  · rw [current, hkept, hflags]
    exact hrun.snoc trivial hstep
  · rw [hkept, SocketaaWorker.transmitted_snoc hrun, ← hvisiting.sent]

theorem Visiting.leave (hvisiting : s.Visiting i visit stay) {work : HeldWork}
    (hheld : s.pool.held i = some work) (hselect : (s.current visit work).flags.isSelect = false) :
    (s.alone i).step stay = some
      ⟨(visit.worker.memory, some visit.worker.http), (s.alone i).sent ++ [visit.sent]⟩ := by
  obtain ⟨work', hheld', hrun⟩ := hvisiting.goesOn
  cases hheld.symm.trans hheld'
  rw [Alone.step, alone, run_iff_runEvents.mp hrun, hvisiting.sent]
  exact if_neg (Bool.eq_false_iff.mp hselect)

theorem ActsAlone.step (hs : s.ActsAlone i start rounds) (howned : OwnedCells s.pool)
    (hok : ¬ s.Returns port event) (hstep : s.step port event = some s') :
    s'.ActsAlone i start (rounds ++ event.rounds i) := by
  rcases step_cases hstep with ⟨e, pool, accepted, he, hreturns, hflags, henter, hrounds, rfl⟩ |
    ⟨j, work, conn, -, hnone, hheld, hrounds, rfl⟩ |
    ⟨j, visit, work, round, w, pool, closed, hvisit, hheld, hw, he, rfl, rfl⟩ |
    ⟨j, visit, work, pool, hvisit, hheld, he, hrounds, hselect, rfl⟩
  · rw [hrounds i, List.append_nil]
    refine hs.frame rfl rfl fun visit stay hvisit hstay => ?_
    refine hstay.frame howned (hreturns hok) he (fun k flags h => absurd h (hflags k flags)) ?_ rfl
    intro h
    cases (henter i h).symm.trans hvisit
  · rw [hrounds i, List.append_nil]
    by_cases hi : i = j
    · subst hi
      obtain ⟨history, hrun, hidle, -⟩ := hs
      refine ⟨history, hrun, fun h => ?_, fun visit h => ?_⟩
      · cases (update_same ..).symm.trans h
      · cases (update_same ..).symm.trans h
        refine ⟨⟨(s.pool.pool.cells.cell work.cell).flags, []⟩, ⟨⟨work, hheld, .nil _⟩, rfl⟩, ?_⟩
        exact (List.append_nil _).trans (hidle hnone)
    · exact hs.frame (update_other _ _ hi) rfl fun visit stay _ hstay => ⟨hstay.goesOn, hstay.sent⟩
  · have hother : ¬ Httpaa.Returns s.pool (.setFlags j w.flags) := id
    by_cases hi : j = i
    · subst hi
      obtain ⟨history, hrun, -, hbusy⟩ := hs
      refine ⟨history, hrun, fun h => ?_, fun visit' h => ?_⟩
      · cases (update_same ..).symm.trans h
      · cases (update_same ..).symm.trans h
        obtain ⟨stay, hstay, hall⟩ := hbusy visit hvisit
        refine ⟨_, hstay.round hheld hw he rfl, ?_⟩
        rw [ServerStep.rounds, if_pos rfl, ← hall, List.append_assoc]
    · rw [ServerStep.rounds, if_neg hi, List.append_nil]
      refine hs.frame (update_other _ _ (Ne.symm hi)) rfl fun visit stay _ hstay => ?_
      refine hstay.frame howned hother he (fun k flags h => ?_) nofun rfl
      cases h
      exact hi
  · have hother : ¬ Httpaa.Returns s.pool (.enterGetWork j) := id
    rw [hrounds i, List.append_nil]
    by_cases hi : j = i
    · subst hi
      obtain ⟨history, hrun, -, hbusy⟩ := hs
      obtain ⟨stay, hstay, hall⟩ := hbusy visit hvisit
      refine ⟨history ++ [stay], hrun.snoc trivial ?_, fun _ => ?_, fun visit' h => ?_⟩
      · rw [hstay.leave hheld hselect]
        simp [alone, update_same]
      · rw [List.flatMap_append, ← hall]
        simp
      · cases (update_same ..).symm.trans h
    · have hi' : i ≠ j := Ne.symm hi
      refine hs.frame (update_other _ _ hi') ?_ fun visit stay _ hstay => ?_
      · simp [alone, update_other _ _ hi', hi]
      · refine hstay.frame howned hother he nofun (fun h => ?_) (update_other _ _ hi')
        cases h
        exact hi rfl

theorem ActsAlone.run
    (hrun : GuardedRun (Server.step port) (fun s event => ¬ s.Returns port event) s events s')
    (hs : s.ActsAlone i start rounds) (hthrifty : Thrifty s) (hisolated : Isolated s) :
    s'.ActsAlone i start (rounds ++ events.flatMap (ServerStep.rounds i)) := by
  induction hrun generalizing rounds with
  | nil s => rwa [List.flatMap_nil, List.append_nil]
  | cons hok hstep _ ih =>
      have hnext := hs.step hisolated.owned hok hstep
      have hlast := ih hnext (hthrifty.step hstep) (hisolated.step hthrifty hok hstep)
      rwa [List.append_assoc, ← List.flatMap_cons] at hlast

/-- As long as no index comes back to the slot of a work that is still held, each worker has kept
and sent, after any run of the server, what it would have if it went alone through its own rounds of
the run, one connection after another. -/
theorem run_alone (port : UInt16) (workSizeMax workerCount : Nat) (isRun : Nat → Bool)
    (slots : Nat → WorkeraaWork) (cells : WorkCells) (memory : Nat → Memory)
    (events : List ServerStep) (s : Server)
    (hrun : GuardedRun (step port) (fun s event => ¬ s.Returns port event)
      (.initial workSizeMax workerCount isRun slots cells memory) events s) (i : Nat) :
    s.ActsAlone i ⟨(memory i, none), []⟩ (events.flatMap (ServerStep.rounds i)) := by
  have hstart : (Server.initial workSizeMax workerCount isRun slots cells memory).ActsAlone i
      ⟨(memory i, none), []⟩ [] := by
    refine ⟨[], .nil _, fun _ => rfl, fun visit h => ?_⟩
    cases h
  exact hstart.run hrun (Thrifty.initial _ _ _ _ _ _) (Isolated.initial _ _ _ _ _ _)

/-- A worker gets the one work, waits in vain for its client, and comes back. -/
theorem run_alone_timeout : ∃ s : Server, s.kept 0 ≠ (⟨.ofText [], []⟩, none) ∧
    s.ActsAlone 0 ⟨(⟨.ofText [], []⟩, none), []⟩ [⟨.timeout, none, none⟩] := by
  have hrun : GuardedRun (step 8080) (fun s event => ¬ s.Returns 8080 event)
      (.initial 1 1 (fun _ => true) zeroMemory zeroCells fun _ => ⟨.ofText [], []⟩)
      [.accept true, .getWork 0, .enter 0 true, .round 0 ⟨.timeout, none, none⟩, .leave 0] _ :=
    .cons (fun ⟨_, _, _, hheld, _⟩ => by cases hheld) rfl
      (.cons (fun ⟨_, _, _, hheld, _⟩ => by cases hheld) rfl
        (.cons id rfl (.cons id rfl (.cons id rfl (.nil _)))))
  have hkept := run_alone _ _ _ _ _ _ _ _ _ hrun 0
  exact ⟨_, fun h => Option.some_ne_none _ (congrArg Prod.snd h), hkept⟩

end Server

end Httpaa
