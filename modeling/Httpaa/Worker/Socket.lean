import Httpaa.Foundation.Transition
import Httpaa.Worker.Http

/-!
# A connection from the first byte to the last

`socketaa_worker` waits for its socket, receives and sends, and closes it. Every call on the socket
is noted, whatever the results of the system calls are. The socket is closed exactly once, as the
last thing done with it, unless `select` fails, or `send`.
-/

namespace Httpaa

open Traced Transition

/-- A system call on the connection. -/
inductive SocketCall
  | recv
  | send
  | shutdown
  | closesocket
deriving DecidableEq, Repr

/-- `select` returns -1, 0, or a positive number. -/
inductive SelectResult
  | error
  | timeout
  | ready
deriving DecidableEq, Repr

/-- The results of the system calls in one round of the loop, whichever are made: `recv` and `send`
return -1 (`none`) or take as much as they are given room for. -/
structure Round where
  select : SelectResult
  recv : Option (List UInt8)
  send : Option Nat

/-- The variables of `socketaa_worker`, with the calls on its socket so far. -/
structure SocketaaWorker where
  memory : Memory
  http : WorkeraaHttp
  flags : SocketaaWorkFlags
  calls : List SocketCall

def SocketaaWorker.call (w : SocketaaWorker) (c : SocketCall) : SocketaaWorker :=
  { w with calls := w.calls ++ [c] }

/-- `closesocket(s_conn); work->is_select = 0;`. -/
def SocketaaWorker.close (w : SocketaaWorker) : SocketaaWorker :=
  { w.call .closesocket with flags := { w.flags with isSelect := false } }

def socketaaError : Int := -1

def socketaaErrorSendShutdown : Int := -3

/-- `bytes_recv = socketaa_worker_recv(s_conn, p_recv)`. -/
def SocketaaWorker.recv (w : SocketaaWorker) (received : Option (List UInt8)) :
    Int × SocketaaWorker :=
  let isCalled := decide (w.http.request.writePos < w.http.request.bufSize)
  let (bytesRecv, memory, request) := socketaaWorkerRecv w.memory w.http.request received
  let w := { w with memory, http := { w.http with request } }
  (bytesRecv, if isCalled then w.call .recv else w)

/-- There is something to send, and the response is not full. -/
def SocketaaWorker.sends (w : SocketaaWorker) : Bool :=
  decide (w.http.response.writePos < w.http.response.bufSize ∧
    w.http.response.readPos < w.http.response.writePos)

/-- `bytes_send = socketaa_worker_send(s_conn, p_send)`. -/
def SocketaaWorker.send (w : SocketaaWorker) (sent : Option Nat) : Int × SocketaaWorker :=
  if w.sends then
    let w := w.call .send
    match sent with
    | none => (socketaaSocketError, w)
    | some n =>
        let n := min n (w.http.response.writePos - w.http.response.readPos)
        if n = 0 then (socketaaErrorSendShutdown, w)
        else (n, { w with http := { w.http with
          response := w.http.response.seek (w.http.response.readPos + n) } })
  else (0, w)

def socketaaWorkerCheckRecv (w : SocketaaWorker) (bytesRecv : Int) : Option SocketaaWorker := do
  if 0 < bytesRecv then
    let flags := { w.flags with isRecv := true }
    let (isFunc, heap, http, flags) ← workeraaHttpRecv w.memory.heap w.http flags
    let w := { w with memory := { w.memory with heap }, http, flags }
    return if isFunc = socketaaError then (w.call .shutdown).close else w
  else if bytesRecv = 0 then return (w.call .shutdown).close
  else if bytesRecv = socketaaSocketError then return w.close
  else if bytesRecv = socketaaErrorRecvShutdown then
    return { w with flags := { w.flags with isRecvShutdown := true } }
  else return w

def socketaaWorkerCheckSend (w : SocketaaWorker) (bytesSend : Int) : SocketaaWorker :=
  let w :=
    if 0 < bytesSend then { w with flags := { w.flags with isSend := true } }
    else if bytesSend = 0 then (w.call .shutdown).close
    else if bytesSend = socketaaSocketError then w.close
    else if bytesSend = socketaaErrorRecvShutdown then
      { w with flags := { w.flags with isSendShutdown := true } }
    else w
  if bytesSend ≠ socketaaSocketError then { w with flags := { w.flags with isSend := true } }
  else { w.call .shutdown with flags := { w.flags with isRecv := true } }

/-- `workeraa_func(worker, WORKERAA_FUNC_SEND_DATA)` and what is done when it fails. -/
def SocketaaWorker.sendData (w : SocketaaWorker) : SocketaaWorker :=
  let (isFunc, memory, http) := workeraaHttpSend w.memory w.http
  let w := { w with memory, http }
  if isFunc = socketaaError then (w.call .shutdown).close else w

/-- One round of the loop of `socketaa_worker`. The socket is waited for to be written, else to be
read, and it is the only one waited for. -/
def SocketaaWorker.step (w : SocketaaWorker) (round : Round) : Option SocketaaWorker :=
  if w.flags.isSelect then
    let isSetSend := w.flags.isSend
    let isSetRecv := !w.flags.isSend && w.flags.isRecv
    let flags := { w.flags with
      isSend := false, isRecv := w.flags.isRecv && w.flags.isSend }
    let w := { w with flags }
    match round.select with
    | .ready => do
        let w ←
          if isSetRecv then
            let (bytesRecv, w) := w.recv round.recv
            socketaaWorkerCheckRecv w bytesRecv
          else some w
        if isSetSend then
          let (bytesSend, w) := w.sendData.send round.send
          return socketaaWorkerCheckSend w bytesSend
        else return w
    | .timeout => some w.close
    | .error => some { w with flags := { w.flags with isSelect := false } }
  else none

/-- The flags are cleared before `select` is called. -/
def SocketaaWorker.selecting (w : SocketaaWorker) : SocketaaWorker :=
  { w with flags := { w.flags with
      isSend := false, isRecv := w.flags.isRecv && w.flags.isSend } }

/-- The socket has been closed once, and nothing was done with it afterwards. -/
def SocketaaWorker.Disciplined (w : SocketaaWorker) : Prop :=
  ∃ calls, w.calls = calls ++ [.closesocket] ∧ .closesocket ∉ calls

/-- `select` fails, or a call of `send` does. -/
def Fails (w : SocketaaWorker) (round : Round) : Prop :=
  round.select = .error ∨
    (round.select = .ready ∧ w.flags.isSend = true ∧ w.sendData.sends = true ∧ round.send = none)

instance (w : SocketaaWorker) (round : Round) : Decidable (Fails w round) :=
  inferInstanceAs (Decidable (_ ∨ _))

/-! ### What a round does -/

/-- The loop goes on and the socket has not been closed. -/
structure SocketaaWorker.Open (w : SocketaaWorker) : Prop where
  isSelect : w.flags.isSelect = true
  calls : .closesocket ∉ w.calls

/-- The loop ends with the socket closed as it should be. -/
structure SocketaaWorker.Closed (w : SocketaaWorker) : Prop where
  isSelect : w.flags.isSelect = false
  disciplined : w.Disciplined

/-- The loop ends with the socket not closed, or not left alone afterwards. -/
structure SocketaaWorker.Leaked (w : SocketaaWorker) : Prop where
  isSelect : w.flags.isSelect = false
  not_disciplined : ¬ w.Disciplined

section

variable {w w' : SocketaaWorker} {round : Round} {rounds : List Round} {bytes : Int}

theorem SocketaaWorker.Open.call {c : SocketCall} (hw : w.Open) (hc : c ≠ .closesocket) :
    (w.call c).Open := by
  refine ⟨hw.isSelect, ?_⟩
  simp [SocketaaWorker.call, hw.calls, Ne.symm hc]

theorem SocketaaWorker.Open.close (hw : w.Open) : w.close.Closed :=
  ⟨rfl, w.calls, rfl, hw.calls⟩

private theorem workeraaHttpRecv_spec {h h' : Heap} {worker worker' : WorkeraaHttp}
    {flags flags' : SocketaaWorkFlags} {isFunc : Int}
    (hrecv : workeraaHttpRecv h worker flags = some (isFunc, h', worker', flags'))
    (hflags : flags.isSelect = true) : isFunc ≠ socketaaError ∧ flags'.isSelect = true := by
  obtain ⟨⟨isHeader, worker₁⟩, -, hrecv⟩ := Option.bind_eq_some_iff.mp hrecv
  cases isHeader with
  | false =>
      cases hrecv
      exact ⟨by decide, hflags⟩
  | true =>
      obtain ⟨⟨isSet, h₁, worker₂⟩, -, hrecv⟩ := Option.bind_eq_some_iff.mp hrecv
      simp only [Option.pure_def, Option.some.injEq, Prod.mk.injEq] at hrecv
      obtain ⟨rfl, -, -, rfl⟩ := hrecv
      refine ⟨by decide, ?_⟩
      split
      · rfl
      · exact hflags

theorem SocketaaWorker.Open.recv (hw : w.Open) (received : Option (List UInt8)) :
    (w.recv received).2.Open := by
  rw [SocketaaWorker.recv]
  dsimp only
  split
  · exact SocketaaWorker.Open.call ⟨hw.isSelect, hw.calls⟩ (by decide)
  · exact ⟨hw.isSelect, hw.calls⟩

private theorem socketaaWorkerCheckRecv_spec (hw : w.Open)
    (hcheck : socketaaWorkerCheckRecv w bytes = some w') : w'.Open ∨ w'.Closed := by
  rw [socketaaWorkerCheckRecv] at hcheck
  split at hcheck
  · obtain ⟨⟨isFunc, heap, http, flags⟩, hrecv, hcheck⟩ := Option.bind_eq_some_iff.mp hcheck
    obtain ⟨hne, hflags⟩ := workeraaHttpRecv_spec hrecv hw.isSelect
    simp only [if_neg hne] at hcheck
    cases hcheck
    exact .inl ⟨hflags, hw.calls⟩
  · split at hcheck
    · cases hcheck
      exact .inr (hw.call (by decide)).close
    · split at hcheck
      · cases hcheck
        exact .inr hw.close
      · split at hcheck
        · cases hcheck
          exact .inl ⟨hw.isSelect, hw.calls⟩
        · cases hcheck
          exact .inl hw

theorem SocketaaWorker.sendData_eq :
    w.sendData.calls = w.calls ∧ w.sendData.flags = w.flags ∧
      w.sendData.http = (workeraaHttpSend w.memory w.http).2.2 := by
  have hsend : (workeraaHttpSend w.memory w.http).1 ≠ socketaaError := by
    rw [workeraaHttpSend]
    split <;> exact (by decide : (0 : Int) ≠ -1)
  rw [SocketaaWorker.sendData]
  dsimp only
  rw [if_neg hsend]
  exact ⟨rfl, rfl, rfl⟩

theorem SocketaaWorker.Open.sendData (hw : w.Open) : w.sendData.Open := by
  obtain ⟨hcalls, hflags, -⟩ := sendData_eq (w := w)
  exact ⟨hflags ▸ hw.isSelect, hcalls ▸ hw.calls⟩

theorem SocketaaWorker.Open.send (hw : w.Open) (sent : Option Nat) :
    (w.send sent).2.Open ∧
      ((w.send sent).1 = socketaaSocketError ↔ w.sends = true ∧ sent = none) := by
  rw [SocketaaWorker.send]
  split
  · rename_i hsends
    have hcall := hw.call (c := .send) (by decide)
    cases sent with
    | none => exact ⟨hcall, by simp [hsends]⟩
    | some n =>
        dsimp only
        split
        · exact ⟨hcall, by simp [socketaaErrorSendShutdown, socketaaSocketError]⟩
        · refine ⟨⟨hcall.isSelect, hcall.calls⟩, ?_⟩
          simp only [socketaaSocketError, reduceCtorEq, and_false]
  · rename_i hsends
    exact ⟨hw, by simp [hsends, socketaaSocketError]⟩

private theorem socketaaWorkerCheckSend_spec (hw : w.Open) (hbytes : bytes ≠ socketaaSocketError) :
    (socketaaWorkerCheckSend w bytes).Open ∨ (socketaaWorkerCheckSend w bytes).Closed := by
  rw [socketaaWorkerCheckSend]
  dsimp only
  rw [if_pos hbytes]
  split
  · exact .inl ⟨hw.isSelect, hw.calls⟩
  · split
    · have hclosed := (hw.call (c := .shutdown) (by decide)).close
      exact .inr ⟨hclosed.isSelect, hclosed.disciplined⟩
    · split
      · exact .inl ⟨hw.isSelect, hw.calls⟩
      · exact .inl ⟨hw.isSelect, hw.calls⟩

private theorem socketaaWorkerCheckSend_leaks :
    (socketaaWorkerCheckSend w socketaaSocketError).Leaked := by
  refine ⟨rfl, ?_⟩
  rintro ⟨calls, hcalls, -⟩
  have hlast : (socketaaWorkerCheckSend w socketaaSocketError).calls =
      w.calls ++ [.closesocket] ++ [.shutdown] := rfl
  have heq := List.append_inj_right' (hlast.symm.trans hcalls) rfl
  cases heq

/-- What a round does: the loop ends, or the worker sends, or it receives, or it has waited for
nothing. -/
theorem SocketaaWorker.step_cases (hstep : w.step round = some w') : w.flags.isSelect = true ∧
    ((round.select = .error ∧
        w' = { w.selecting with flags := { w.selecting.flags with isSelect := false } }) ∨
      (round.select = .timeout ∧ w' = w.selecting.close) ∨
      (round.select = .ready ∧ w.flags.isSend = true ∧
        w' = socketaaWorkerCheckSend (w.selecting.sendData.send round.send).2
          (w.selecting.sendData.send round.send).1) ∨
      (round.select = .ready ∧ w.flags.isSend = false ∧ w.flags.isRecv = true ∧
        socketaaWorkerCheckRecv (w.selecting.recv round.recv).2 (w.selecting.recv round.recv).1 =
          some w') ∨
      (round.select = .ready ∧ w.flags.isSend = false ∧ w.flags.isRecv = false ∧
        w' = w.selecting)) := by
  rw [SocketaaWorker.step] at hstep
  split at hstep
  · rename_i hselect
    refine ⟨hselect, ?_⟩
    cases hround : round.select with
    | error =>
        simp only [hround] at hstep
        cases hstep
        exact .inl ⟨rfl, rfl⟩
    | timeout =>
        simp only [hround] at hstep
        cases hstep
        exact .inr (.inl ⟨rfl, rfl⟩)
    | ready =>
        simp only [hround] at hstep
        cases hsend : w.flags.isSend with
        | true =>
            simp only [hsend, Bool.not_true, Bool.false_and, Bool.false_eq_true, if_false, if_true,
              Option.bind_eq_bind, Option.bind_some, Option.pure_def, Option.some.injEq] at hstep
            refine .inr (.inr (.inl ⟨rfl, rfl, hstep.symm.trans ?_⟩))
            rw [SocketaaWorker.selecting, hsend]
        | false =>
            cases hrecv : w.flags.isRecv with
            | true =>
                simp only [hsend, hrecv, Bool.not_false, Bool.true_and, Bool.false_eq_true,
                  if_false, if_true, Option.pure_def, Option.bind_eq_bind] at hstep
                refine .inr (.inr (.inr (.inl ⟨rfl, rfl, rfl, ?_⟩)))
                obtain ⟨w₂, hcheck, heq⟩ := Option.bind_eq_some_iff.mp hstep
                cases heq
                rw [SocketaaWorker.selecting, hsend, hrecv]
                exact hcheck
            | false =>
                simp only [hsend, hrecv, Bool.not_false, Bool.true_and, Bool.false_eq_true,
                  if_false, Option.pure_def, Option.bind_eq_bind, Option.bind_some,
                  Option.some.injEq] at hstep
                refine .inr (.inr (.inr (.inr ⟨rfl, rfl, rfl, ?_⟩)))
                rw [← hstep, SocketaaWorker.selecting, hsend, hrecv]
  · cases hstep

theorem SocketaaWorker.Open.selecting (hw : w.Open) : w.selecting.Open := ⟨hw.isSelect, hw.calls⟩

theorem SocketaaWorker.sends_selecting : w.selecting.sendData.sends = w.sendData.sends := by
  rw [SocketaaWorker.sends, sendData_eq.2.2, SocketaaWorker.sends, sendData_eq.2.2]
  rfl

theorem SocketaaWorker.Open.step (hw : w.Open) (hstep : w.step round = some w') :
    (¬ Fails w round ∧ (w'.Open ∨ w'.Closed)) ∨ (Fails w round ∧ w'.Leaked) := by
  obtain ⟨-, ⟨hround, rfl⟩ | ⟨hround, rfl⟩ | ⟨hround, hsend, rfl⟩ | ⟨hround, hsend, -, hcheck⟩ |
    ⟨hround, hsend, -, rfl⟩⟩ := step_cases hstep
  · refine .inr ⟨.inl hround, rfl, ?_⟩
    rintro ⟨calls, hcalls, -⟩
    exact hw.calls (hcalls ▸ List.mem_append_right _ (List.mem_singleton_self _))
  · exact .inl ⟨by simp [Fails, hround], .inr hw.selecting.close⟩
  · obtain ⟨hopen, hbytes⟩ := hw.selecting.sendData.send round.send
    have hfails : Fails w round ↔
        (w.selecting.sendData.send round.send).1 = socketaaSocketError := by
      rw [hbytes, sends_selecting]
      simp [Fails, hround, hsend]
    by_cases hfail : Fails w round
    · refine .inr ⟨hfail, ?_⟩
      rw [hfails.mp hfail]
      exact socketaaWorkerCheckSend_leaks
    · exact .inl ⟨hfail, socketaaWorkerCheckSend_spec hopen (hfails.not.mp hfail)⟩
  · have hfail : ¬ Fails w round := by simp [Fails, hround, hsend]
    exact .inl ⟨hfail, socketaaWorkerCheckRecv_spec (hw.selecting.recv round.recv) hcheck⟩
  · have hfail : ¬ Fails w round := by simp [Fails, hround, hsend]
    exact .inl ⟨hfail, .inl hw.selecting⟩

theorem SocketaaWorker.step_of_ended (hend : w.flags.isSelect = false) : w.step round = none := by
  rw [SocketaaWorker.step, hend]
  rfl

/-- The loop, entered with the socket open, ends with the socket closed once and for all exactly
when no `select` and no `send` has failed. -/
theorem socketaaWorker_disciplined (hselect : w.flags.isSelect = true) (hcalls : w.calls = [])
    (hrun : Run SocketaaWorker.step w rounds w') (hend : w'.flags.isSelect = false) :
    w'.Disciplined ↔
      GuardedRun SocketaaWorker.step (fun w round => ¬ Fails w round) w rounds w' := by
  have hopen : w.Open := ⟨hselect, by simp [hcalls]⟩
  clear hselect hcalls
  induction hrun with
  | nil w => exact absurd (hopen.isSelect.symm.trans hend) (by decide)
  | @cons w m w' round rounds _ hstep hrest ih =>
      have hlast (hm : m.flags.isSelect = false) : rounds = [] ∧ m = w' := by
        cases hrest with
        | nil _ => exact ⟨rfl, rfl⟩
        | cons _ hnext _ =>
            rw [SocketaaWorker.step_of_ended hm] at hnext
            cases hnext
      have hguarded : GuardedRun SocketaaWorker.step (fun w round => ¬ Fails w round) w
          (round :: rounds) w' ↔ ¬ Fails w round ∧
            GuardedRun SocketaaWorker.step (fun w round => ¬ Fails w round) m rounds w' := by
        constructor
        · intro hall
          cases hall with
          | cons hok hstep' hrest' =>
              rw [hstep] at hstep'
              cases hstep'
              exact ⟨hok, hrest'⟩
        · rintro ⟨hok, hrest'⟩
          exact .cons hok hstep hrest'
      rw [hguarded]
      rcases hopen.step hstep with ⟨hok, hm | hm⟩ | ⟨hfails, hm⟩
      · exact (ih hend hm).trans (and_iff_right hok).symm
      · obtain ⟨rfl, rfl⟩ := hlast hm.isSelect
        exact iff_of_true hm.disciplined ⟨hok, .nil _⟩
      · obtain ⟨rfl, rfl⟩ := hlast hm.isSelect
        exact iff_of_false hm.not_disciplined fun h => h.1 hfails

/-- A worker that has found the header of a GET request, and made a response. -/
def answeringWorker : SocketaaWorker where
  memory := ⟨Heap.ofText (literal "GET hello"), []⟩
  http := {
    request := { buf := some ⟨0, 0⟩, bufSize := 3, isInit := true }
    response := { buf := some ⟨0, 4⟩, bufSize := 6, writePos := 5, isInit := true }
    isHeaderRecv := true
    isHeaderSend := true
    http := { request := { requestLine := { method := http11MethodGet } } } }
  flags := { isSelect := true, isRecv := true }
  calls := []

/-- One more byte arrives, and the response goes out in two pieces. -/
def answeringRounds : List Round :=
  [⟨.ready, some [1], none⟩, ⟨.ready, none, some 2⟩, ⟨.ready, none, some 3⟩, ⟨.ready, none, none⟩]

theorem socketaaWorker_disciplined_answering : ∃ w, Run SocketaaWorker.step answeringWorker
    answeringRounds w ∧ w.calls = [.recv, .send, .send, .shutdown, .closesocket] ∧
      w.Disciplined := by
  have hrun : Run SocketaaWorker.step answeringWorker answeringRounds _ :=
    run_iff_runEvents.mpr rfl
  refine ⟨_, hrun, rfl, (socketaaWorker_disciplined rfl rfl hrun rfl).mpr ?_⟩
  exact .cons (by decide) rfl (.cons (by decide) rfl (.cons (by decide) rfl (.cons (by decide) rfl
    (.nil _))))

/-- `select` fails, and the socket is never closed. -/
theorem socketaaWorker_selectFails : ¬ ∀ (w w' : SocketaaWorker) (rounds : List Round),
    w.flags.isSelect = true → w.calls = [] → Run SocketaaWorker.step w rounds w' →
      w'.flags.isSelect = false → w'.Disciplined := by
  intro hclaim
  obtain ⟨calls, hcalls, -⟩ := hclaim answeringWorker _ [⟨.error, none, none⟩] rfl rfl
    (.cons trivial rfl (.nil _)) rfl
  exact List.cons_ne_nil _ _ (List.append_eq_nil_iff.mp hcalls.symm).2

end

end Httpaa
