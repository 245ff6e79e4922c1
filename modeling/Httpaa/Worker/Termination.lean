import Httpaa.Worker.Transmission

/-!
# How long a connection lasts

Each round of `socketaa_worker` fills the request buffer, advances the response, waits for nothing
from then on, or ends the loop. Only a `send` that returns 0 does none of this: the code for that is
compared with the one for `recv`, and the worker is told to send again.
-/

namespace Httpaa

open Traced Transition

variable {w w' : SocketaaWorker} {round : Round} {rounds : List Round} {bytes : Int}

/-- A peer cannot make `select` return a socket that it does not wait for. -/
def Provoked (w : SocketaaWorker) (round : Round) : Prop :=
  round.select = .ready → w.flags.isSend = true ∨ w.flags.isRecv = true

instance (w : SocketaaWorker) (round : Round) : Decidable (Provoked w round) :=
  inferInstanceAs (Decidable (_ → _))

/-- `send` is called with something to send, and returns 0. -/
def SendsZero (w : SocketaaWorker) (round : Round) : Prop :=
  round.select = .ready ∧ w.flags.isSend = true ∧ w.selecting.sendData.sends = true ∧
    round.send = some 0

instance (w : SocketaaWorker) (round : Round) : Decidable (SendsZero w round) :=
  inferInstanceAs (Decidable (_ ∧ _))

def SocketaaWorker.requestFree (w : SocketaaWorker) : Nat :=
  w.http.request.bufSize - w.http.request.writePos

/-- What is left to send of the response, which may still have to be made. -/
def SocketaaWorker.responseLeft (w : SocketaaWorker) : Nat :=
  if w.http.isHeaderSend then w.http.response.writePos - w.http.response.readPos
  else responseText.length

/-- What the rounds use up: the space, the response, the wish to wait for the socket, and the
loop. -/
def SocketaaWorker.potential (w : SocketaaWorker) : Nat :=
  if w.flags.isSelect then
    w.requestFree + w.responseLeft + (w.flags.isSend || w.flags.isRecv).toNat + 1
  else 0

private theorem SocketaaWorker.potential_ended (hend : w.flags.isSelect = false) :
    w.potential = 0 := by
  rw [SocketaaWorker.potential, hend]
  rfl

private theorem SocketaaWorker.potential_le (w : SocketaaWorker) :
    w.potential ≤ w.requestFree + w.responseLeft + 2 := by
  have hwish := Bool.toNat_le (w.flags.isSend || w.flags.isRecv)
  rw [SocketaaWorker.potential]
  split <;> omega

private theorem SocketaaWorker.potential_lt (hselect : w.flags.isSelect = true)
    (hwish : w.flags.isSend = true ∨ w.flags.isRecv = true)
    (hless : w'.requestFree + w'.responseLeft +
      (w'.flags.isSend || w'.flags.isRecv).toNat < w.requestFree + w.responseLeft + 1) :
    w'.potential < w.potential := by
  have hone : (w.flags.isSend || w.flags.isRecv) = true := by simpa using hwish
  rw [SocketaaWorker.potential, SocketaaWorker.potential, if_pos hselect, hone, Bool.toNat_true]
  split <;> omega

/-! ### What a round uses up -/

theorem SocketaaWorker.sendData_left (w : SocketaaWorker) :
    w.sendData.http.isHeaderSend = true ∧ w.sendData.http.request = w.http.request ∧
      w.sendData.http.response.writePos - w.sendData.http.response.readPos = w.responseLeft := by
  have hhttp := (sendData_eq (w := w)).2.2
  rw [hhttp, SocketaaWorker.responseLeft]
  cases hheader : w.http.isHeaderSend with
  | true =>
      have hmade : ¬ w.http.isHeaderSend = false := by simp [hheader]
      simp only [workeraaHttpSend, if_neg hmade]
      exact ⟨hheader, trivial, rfl⟩
  | false =>
      obtain ⟨hread, hpos, -⟩ := workeraaHttpCreateResponse_cursors w.memory w.http.response
      simp only [workeraaHttpSend, if_pos hheader]
      refine ⟨trivial, trivial, ?_⟩
      rw [hread, hpos]
      simp

private theorem SocketaaWorker.requestFree_of_seeks (h : w.http.request.Seeks w'.http.request) :
    w'.requestFree = w.requestFree := by
  rw [SocketaaWorker.requestFree, SocketaaWorker.requestFree, h]
  rfl

private theorem SocketaaWorker.recv_cases (w : SocketaaWorker) (received : Option (List UInt8)) :
    (w.recv received).2.flags = w.flags ∧
      ((((w.recv received).1 = 0 ∨ (w.recv received).1 = socketaaSocketError ∨
        (w.recv received).1 = socketaaErrorRecvShutdown) ∧
          (w.recv received).2.requestFree = w.requestFree) ∨
      0 < (w.recv received).1 ∧ (w.recv received).2.requestFree < w.requestFree) := by
  refine ⟨?_, ?_⟩
  · rw [SocketaaWorker.recv]
    dsimp only
    split <;> rfl
  · have hfree : (w.recv received).2.requestFree =
        (socketaaWorkerRecv w.memory w.http.request received).2.2.bufSize -
          (socketaaWorkerRecv w.memory w.http.request received).2.2.writePos := by
      rw [SocketaaWorker.recv, SocketaaWorker.requestFree]
      dsimp only
      split <;> rfl
    have hbytes : (w.recv received).1 =
        (socketaaWorkerRecv w.memory w.http.request received).1 := rfl
    rw [hfree, hbytes, socketaaWorkerRecv, SocketaaWorker.requestFree]
    split
    · rename_i hroom
      cases received with
      | none => exact .inl ⟨.inr (.inl rfl), rfl⟩
      | some text =>
          dsimp only
          split
          · exact .inl ⟨.inr (.inr rfl), rfl⟩
          · rename_i hne
            have hpos := List.length_pos_iff.mpr hne
            refine .inr ⟨by omega, ?_⟩
            dsimp only
            omega
    · exact .inl ⟨.inl rfl, rfl⟩

/-- What is received may have to be answered, but takes neither space nor anything off the
response. -/
theorem socketaaWorkerCheckRecv_left (hcheck : socketaaWorkerCheckRecv w bytes = some w') :
    w'.requestFree = w.requestFree ∧ w'.responseLeft = w.responseLeft ∧
      (bytes = 0 ∨ bytes = socketaaSocketError → w'.flags.isSelect = false) ∧
      (bytes = socketaaErrorRecvShutdown →
        (w'.flags.isSend || w'.flags.isRecv) = (w.flags.isSend || w.flags.isRecv)) := by
  have hkeeps := socketaaWorkerCheckRecv_keeps w' hcheck
  have hflags : (bytes = 0 ∨ bytes = socketaaSocketError → w'.flags.isSelect = false) ∧
      (bytes = socketaaErrorRecvShutdown →
        (w'.flags.isSend || w'.flags.isRecv) = (w.flags.isSend || w.flags.isRecv)) := by
    rw [socketaaWorkerCheckRecv] at hcheck
    split at hcheck
    · rename_i hpos
      refine ⟨fun h => ?_, fun h => ?_⟩
      · rw [socketaaSocketError] at h
        omega
      · rw [socketaaErrorRecvShutdown] at h
        omega
    · split at hcheck
      · rename_i hzero
        cases hcheck
        exact ⟨fun _ => rfl, fun _ => rfl⟩
      · split at hcheck
        · cases hcheck
          exact ⟨fun _ => rfl, fun _ => rfl⟩
        · rename_i hzero herror
          have hne : ¬ (bytes = 0 ∨ bytes = socketaaSocketError) := not_or.mpr ⟨hzero, herror⟩
          split at hcheck <;> (cases hcheck; exact ⟨fun h => absurd h hne, fun _ => rfl⟩)
  refine ⟨SocketaaWorker.requestFree_of_seeks hkeeps.request, ?_, hflags⟩
  rw [SocketaaWorker.responseLeft, SocketaaWorker.responseLeft, hkeeps.response,
    hkeeps.isHeaderSend]

private theorem SocketaaWorker.sendRound_potential (hselect : w.flags.isSelect = true)
    (hsend : w.flags.isSend = true)
    (hsends : ¬ (w.selecting.sendData.sends = true ∧ round.send = some 0)) :
    (socketaaWorkerCheckSend (w.selecting.sendData.send round.send).2
      (w.selecting.sendData.send round.send).1).potential < w.potential := by
  obtain ⟨hheader, hrequest, hleft⟩ := w.selecting.sendData_left
  have hpos : 0 < w.potential := by
    rw [SocketaaWorker.potential, if_pos hselect]
    omega
  rcases w.selecting.sendData.send_cases round.send with ⟨-, heq⟩ | ⟨-, -, heq⟩ | ⟨hnow, hzero, -⟩ |
    ⟨n, k, -, hn, -, hle, heq⟩
  · rw [heq, potential_ended rfl]
    exact hpos
  · rw [heq, potential_ended rfl]
    exact hpos
  · exact absurd ⟨hnow, hzero⟩ hsends
  · obtain ⟨-, hhttp, -⟩ := socketaaWorkerCheckSend_http
      (w.selecting.sendData.send round.send).2 (w.selecting.sendData.send round.send).1
    have hresponseLeft : w.selecting.responseLeft = w.responseLeft := rfl
    refine potential_lt hselect (.inl hsend) ?_
    have hwish := Bool.toNat_le ((socketaaWorkerCheckSend (w.selecting.sendData.send round.send).2
      (w.selecting.sendData.send round.send).1).flags.isSend ||
      (socketaaWorkerCheckSend (w.selecting.sendData.send round.send).2
        (w.selecting.sendData.send round.send).1).flags.isRecv)
    have hless : (socketaaWorkerCheckSend (w.selecting.sendData.send round.send).2
        (w.selecting.sendData.send round.send).1).responseLeft < w.responseLeft := by
      rw [SocketaaWorker.responseLeft, hhttp, heq]
      simp only [hheader, if_true, Stringaa.seek]
      omega
    have hfree : (socketaaWorkerCheckSend (w.selecting.sendData.send round.send).2
        (w.selecting.sendData.send round.send).1).requestFree = w.requestFree := by
      rw [SocketaaWorker.requestFree, hhttp, heq]
      simp only [hrequest]
      rfl
    omega

private theorem SocketaaWorker.step_potential (hselectable : Provoked w round)
    (hsends : ¬ SendsZero w round) (hstep : w.step round = some w') :
    w'.potential < w.potential := by
  obtain ⟨hselect, hcases⟩ := step_cases hstep
  have hpos : 0 < w.potential := by
    rw [SocketaaWorker.potential, if_pos hselect]
    omega
  rcases hcases with ⟨-, rfl⟩ | ⟨-, rfl⟩ | ⟨hround, hsend, rfl⟩ | ⟨hround, hsend, hrecv, hcheck⟩ |
    ⟨hround, hsend, hrecv, rfl⟩
  · rwa [potential_ended rfl]
  · rwa [potential_ended rfl]
  · exact sendRound_potential hselect hsend fun h => hsends ⟨hround, hsend, h⟩
  · obtain ⟨hfree, hleft, hends, hshut⟩ := socketaaWorkerCheckRecv_left hcheck
    obtain ⟨hflags, hcases⟩ := w.selecting.recv_cases round.recv
    obtain ⟨hresponse, hheader⟩ := w.selecting.recv_response round.recv
    have hleft' : (w.selecting.recv round.recv).2.responseLeft = w.responseLeft := by
      rw [SocketaaWorker.responseLeft, SocketaaWorker.responseLeft, hresponse, hheader]
      rfl
    have hfree' : w.selecting.requestFree = w.requestFree := rfl
    have hwish := Bool.toNat_le (w'.flags.isSend || w'.flags.isRecv)
    rcases hcases with ⟨hzero | herror | hshutdown, hsame⟩ | ⟨-, hless⟩
    · rwa [potential_ended (hends (.inl hzero))]
    · rwa [potential_ended (hends (.inr herror))]
    · refine potential_lt hselect (.inr hrecv) ?_
      have hnone : (w'.flags.isSend || w'.flags.isRecv) = false := by
        rw [hshut hshutdown, hflags]
        simp [SocketaaWorker.selecting, hsend]
      rw [hnone, hfree, hleft, hleft', hsame, hfree', Bool.toNat_false]
      omega
    · refine potential_lt hselect (.inr hrecv) ?_
      omega
  · rcases hselectable hround with h | h
    · exact absurd (hsend.symm.trans h) Bool.false_ne_true
    · exact absurd (hrecv.symm.trans h) Bool.false_ne_true

/-! ### Whole runs -/

/-- From every connection the rounds are no more than the free space of the request buffer and what
is left of the response, and two, as long as no `send` returns 0. -/
theorem socketaaWorker_ends (w w' : SocketaaWorker) (rounds : List Round)
    (hrun : GuardedRun SocketaaWorker.step
      (fun w round => Provoked w round ∧ ¬ SendsZero w round) w rounds w') :
    rounds.length ≤ w.requestFree + w.responseLeft + 2 := by
  have hused : rounds.length + w'.potential ≤ w.potential := by
    induction hrun with
    | nil w => exact Nat.le_of_eq (Nat.zero_add _)
    | @cons w m w' round rounds hok hstep _ ih =>
        have hless := SocketaaWorker.step_potential hok.1 hok.2 hstep
        rw [List.length_cons]
        omega
  have hle := w.potential_le
  omega

/-- Four rounds in which a byte is received and a response of five bytes is sent. -/
theorem socketaaWorker_ends_answering : answeringRounds.length ≤
    answeringWorker.requestFree + answeringWorker.responseLeft + 2 := by
  have hrun : GuardedRun SocketaaWorker.step (fun w round => Provoked w round ∧ ¬ SendsZero w round)
      answeringWorker answeringRounds _ :=
    .cons (by decide) rfl (.cons (by decide) rfl (.cons (by decide) rfl (.cons (by decide) rfl
      (.nil _))))
  exact socketaaWorker_ends answeringWorker _ _ hrun

private theorem socketaaWorkerCheckSend_shutdown (w : SocketaaWorker) :
    socketaaWorkerCheckSend w socketaaErrorSendShutdown =
      { w with flags := { w.flags with isSend := true } } := by
  simp [socketaaWorkerCheckSend, socketaaErrorSendShutdown, socketaaSocketError,
    socketaaErrorRecvShutdown]

private theorem SocketaaWorker.step_spins (hselect : w.flags.isSelect = true)
    (hsend : w.flags.isSend = true) (hsends : w.selecting.sendData.sends = true) :
    ∃ w', w.step ⟨.ready, none, some 0⟩ = some w' ∧ w'.flags.isSelect = true ∧
      w'.flags.isSend = true ∧ w'.selecting.sendData.sends = true := by
  have hstep : w.step ⟨.ready, none, some 0⟩ = some (socketaaWorkerCheckSend
      (w.selecting.sendData.send (some 0)).2 (w.selecting.sendData.send (some 0)).1) := by
    rw [SocketaaWorker.step, if_pos hselect]
    simp [hsend, SocketaaWorker.selecting]
  rcases w.selecting.sendData.send_cases (some 0) with ⟨hnone, -⟩ | ⟨-, hnone, -⟩ | ⟨-, -, heq⟩ |
    ⟨n, k, hk, hn, hle, -⟩
  · exact absurd (hnone.symm.trans hsends) Bool.false_ne_true
  · cases hnone
  · rw [heq, socketaaWorkerCheckSend_shutdown] at hstep
    have hflags : w.selecting.sendData.flags = w.selecting.flags := sendData_eq.2.1
    have hmade := w.selecting.sendData_left.1
    generalize hw₁ : w.selecting.sendData = w₁ at hstep hflags hmade hsends
    refine ⟨_, hstep, ?_, rfl, ?_⟩
    · show w₁.flags.isSelect = true
      rw [hflags]
      exact hselect
    · have hnot : ¬ w₁.http.isHeaderSend = false := by simp [hmade]
      have hhttp : (workeraaHttpSend w₁.memory w₁.http).2.2 = w₁.http := by
        rw [workeraaHttpSend, if_neg hnot]
      rw [SocketaaWorker.sends, sendData_eq.2.2]
      show decide ((workeraaHttpSend w₁.memory w₁.http).2.2.response.writePos <
        (workeraaHttpSend w₁.memory w₁.http).2.2.response.bufSize ∧
        (workeraaHttpSend w₁.memory w₁.http).2.2.response.readPos <
          (workeraaHttpSend w₁.memory w₁.http).2.2.response.writePos) = true
      rw [hhttp]
      exact hsends
  · cases hk
    omega

/-- `send` returns 0 in every round, and the loop never ends. -/
theorem socketaaWorker_spins : ¬ ∃ bound : Nat → Nat → Nat, ∀ (w w' : SocketaaWorker)
    (rounds : List Round), GuardedRun SocketaaWorker.step Provoked w rounds w' →
      rounds.length ≤ bound w.requestFree w.responseLeft := by
  rintro ⟨bound, hbound⟩
  have hspins : ∀ (n : Nat) (w : SocketaaWorker), w.flags.isSelect = true →
      w.flags.isSend = true → w.selecting.sendData.sends = true →
        ∃ w', GuardedRun SocketaaWorker.step Provoked w
          (List.replicate n ⟨.ready, none, some 0⟩) w' := by
    intro n
    induction n with
    | zero => exact fun w _ _ _ => ⟨w, .nil w⟩
    | succ n ih =>
        intro w hselect hsend hsends
        obtain ⟨m, hstep, hselect', hsend', hsends'⟩ := w.step_spins hselect hsend hsends
        obtain ⟨w', hrun⟩ := ih m hselect' hsend' hsends'
        exact ⟨w', .cons (fun _ => .inl hsend) hstep hrun⟩
  have hsends : sendingWorker.selecting.sendData.sends = true := by
    obtain ⟨hread, hpos, hroom⟩ := workeraaHttpCreateResponse_cursors
      sendingWorker.memory sendingWorker.http.response
    have hlength := List.length_pos_iff.mpr responseText_ne_nil
    rw [SocketaaWorker.sends, SocketaaWorker.sendData_eq.2.2, decide_eq_true_eq]
    refine ⟨hroom, ?_⟩
    show (workeraaHttpCreateResponse sendingWorker.memory sendingWorker.http.response).2.readPos <
      (workeraaHttpCreateResponse sendingWorker.memory sendingWorker.http.response).2.writePos
    rw [hread, hpos]
    exact hlength
  obtain ⟨w', hrun⟩ := hspins (bound sendingWorker.requestFree sendingWorker.responseLeft + 1)
    sendingWorker rfl rfl hsends
  have hle := hbound _ _ _ hrun
  rw [List.length_replicate] at hle
  omega

end Httpaa
