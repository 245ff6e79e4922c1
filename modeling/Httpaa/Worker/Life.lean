import Httpaa.Worker.Answer
import Httpaa.Worker.Termination

/-!
# The life of a worker

A worker makes its response once. When some of it has been sent on one connection, no other
connection of that worker is sent anything, since neither `workeraa_http_init` nor anything else
clears the flag that says so.
-/

namespace Httpaa

open Traced Transition Recogniser

variable {w w' : SocketaaWorker} {round : Round} {rounds : List Round}
  {history : List (List Round)} {s s' : Memory × Option WorkeraaHttp} {sent : List UInt8}

/-- The bytes sent on each connection of a worker, as long as its loops end. -/
def transmissions : Memory × Option WorkeraaHttp → List (List Round) → List (List UInt8)
  | _, [] => []
  | s, rounds :: history =>
      (connect s.1 s.2).transmitted rounds ::
        (serve s rounds).elim [] fun s' => transmissions s' history

/-! ### What is left to send -/

private theorem SocketaaWorker.send_left (w : SocketaaWorker) (result : Option Nat) :
    (w.send result).2.http.isHeaderSend = w.http.isHeaderSend ∧
      (w.send result).1.toNat +
          ((w.send result).2.http.response.writePos - (w.send result).2.http.response.readPos) ≤
        w.http.response.writePos - w.http.response.readPos := by
  rcases w.send_cases result with ⟨-, heq⟩ | ⟨-, -, heq⟩ | ⟨-, -, heq⟩ | ⟨n, k, -, -, -, hle, heq⟩
  · rw [heq]
    exact ⟨rfl, Nat.le_of_eq (Nat.zero_add _)⟩
  · rw [heq]
    exact ⟨rfl, Nat.le_of_eq (Nat.zero_add _)⟩
  · rw [heq]
    exact ⟨rfl, Nat.le_of_eq (Nat.zero_add _)⟩
  · rw [heq, Int.toNat_natCast]
    refine ⟨rfl, ?_⟩
    simp only [Stringaa.seek]
    omega

/-- A response that has been made is in a buffer that the next connection cleans. -/
def WorkeraaHttp.Sound (worker : WorkeraaHttp) : Prop :=
  worker.isHeaderSend = true → worker.response.isInit = true

private theorem addLiterals_isInit {m : Memory} {s : Stringaa} {texts : List (List UInt8)}
    (hinit : s.isInit = true) (htexts : ∀ text ∈ texts, text ≠ []) :
    (addLiterals m s texts).2.isInit = true := by
  induction texts generalizing m s with
  | nil => exact hinit
  | cons text texts ih =>
      obtain ⟨htext, htexts⟩ := List.forall_mem_cons.mp htexts
      have hadd : (stringaaAddLiteral m s text).2.isInit = true := by
        rw [stringaaAddLiteral_eq htext]
      exact ih (m := (stringaaAddLiteral m s text).1) hadd htexts

theorem workeraaHttpCreateResponse_isInit (m : Memory) (response : Stringaa) :
    (workeraaHttpCreateResponse m response).2.isInit = true := by
  obtain ⟨text, texts, htexts⟩ : ∃ text texts, responseTexts = text :: texts := ⟨_, _, rfl⟩
  have hne := responseTexts_ne_nil
  rw [htexts] at hne
  obtain ⟨htext, hrest⟩ := List.forall_mem_cons.mp hne
  have hfirst : (stringaaAddLiteral m (stringaaClean response) text).2.isInit = true := by
    rw [stringaaAddLiteral_eq htext]
  rw [workeraaHttpCreateResponse_eq, htexts]
  exact addLiterals_isInit (m := (stringaaAddLiteral m (stringaaClean response) text).1)
    hfirst hrest

private theorem SocketaaWorker.sendData_sound (hw : w.http.Sound) : w.sendData.http.Sound := by
  rw [(sendData_eq (w := w)).2.2, workeraaHttpSend]
  split
  · exact fun _ => workeraaHttpCreateResponse_isInit _ _
  · exact hw

private theorem SocketaaWorker.send_isInit (w : SocketaaWorker) (result : Option Nat) :
    (w.send result).2.http.response.isInit = w.http.response.isInit := by
  rcases w.send_cases result with ⟨-, heq⟩ | ⟨-, -, heq⟩ | ⟨-, -, heq⟩ | ⟨n, k, -, -, -, -, heq⟩
  · rw [heq]
  · rw [heq]
    rfl
  · rw [heq]
    rfl
  · rw [heq]
    rfl

/-- A round sends some of what was left to send, and there is no more to send than before. The
response has been made when some of it has been sent, and stays made. -/
theorem SocketaaWorker.step_left (hw : w.http.Sound) (hstep : w.step round = some w') :
    (w.accepted round).length + w'.responseLeft ≤ w.responseLeft ∧
      (w.accepted round ≠ [] → w'.http.isHeaderSend = true) ∧
      (w.http.isHeaderSend = true → w'.http.isHeaderSend = true) ∧ w'.http.Sound := by
  obtain ⟨hselect, hcases⟩ := step_cases hstep
  rcases hcases with ⟨hround, rfl⟩ | ⟨hround, rfl⟩ | ⟨hround, hsend, rfl⟩ |
    ⟨hround, hsend, -, hcheck⟩ | ⟨hround, hsend, -, rfl⟩
  · rw [accepted_eq_nil (.inl (by simp [hround]))]
    exact ⟨Nat.le_of_eq (Nat.zero_add _), fun h => absurd rfl h, id, hw⟩
  · rw [accepted_eq_nil (.inl (by simp [hround]))]
    exact ⟨Nat.le_of_eq (Nat.zero_add _), fun h => absurd rfl h, id, hw⟩
  · obtain ⟨hmade, -, hleft⟩ := w.selecting.sendData_left
    obtain ⟨hkeeps, htaken⟩ := w.selecting.sendData.send_left round.send
    obtain ⟨-, hhttp, -⟩ := socketaaWorkerCheckSend_http
      (w.selecting.sendData.send round.send).2 (w.selecting.sendData.send round.send).1
    have hsame : w.selecting.responseLeft = w.responseLeft := rfl
    have haccepted : (w.accepted round).length ≤
        (w.selecting.sendData.send round.send).1.toNat := by
      rw [SocketaaWorker.accepted, if_pos ⟨hselect, hround, hsend⟩]
      exact List.length_take_le ..
    have hheader : (socketaaWorkerCheckSend (w.selecting.sendData.send round.send).2
        (w.selecting.sendData.send round.send).1).http.isHeaderSend = true := by
      rw [hhttp, hkeeps, hmade]
    refine ⟨?_, fun _ => hheader, fun _ => hheader, fun _ => ?_⟩
    · rw [SocketaaWorker.responseLeft, if_pos hheader, hhttp]
      omega
    · rw [hhttp, send_isInit]
      exact sendData_sound (w := w.selecting) hw hmade
  · rw [accepted_eq_nil (.inr hsend)]
    obtain ⟨hresponse, hheader⟩ := w.selecting.recv_response round.recv
    obtain ⟨-, hleft, -⟩ := socketaaWorkerCheckRecv_left hcheck
    have hkeeps := socketaaWorkerCheckRecv_keeps _ hcheck
    have hsame : (w.selecting.recv round.recv).2.responseLeft = w.responseLeft := by
      rw [SocketaaWorker.responseLeft, SocketaaWorker.responseLeft, hresponse, hheader]
      rfl
    rw [hleft, hsame, hkeeps.isHeaderSend, hheader]
    refine ⟨Nat.le_of_eq (Nat.zero_add _), fun h => absurd rfl h, id, ?_⟩
    rw [WorkeraaHttp.Sound, hkeeps.isHeaderSend, hheader, hkeeps.response, hresponse]
    exact hw
  · rw [accepted_eq_nil (.inr hsend)]
    exact ⟨Nat.le_of_eq (Nat.zero_add _), fun h => absurd rfl h, id, hw⟩

/-- What a worker takes to its next connection. -/
def Kept (s : Memory × Option WorkeraaHttp) : Prop := ∀ worker, s.2 = some worker → worker.Sound

theorem connect_sound (hs : Kept s) : (connect s.1 s.2).http.Sound := by
  obtain ⟨m, worker⟩ := s
  cases worker with
  | none =>
      intro hmade
      cases hmade
  | some worker =>
      intro hmade
      have hinit := hs worker rfl hmade
      simp only [connect, workeraaHttpInit, workeraaHttpInitBuffer, Option.getD_some, hinit,
        Bool.true_eq_false, if_false]
      exact hinit

/-- A worker that takes a connection with its response made has nothing to send. -/
theorem connect_left {m : Memory} {worker : WorkeraaHttp} (hworker : worker.Sound)
    (hmade : worker.isHeaderSend = true) : (connect m (some worker)).responseLeft = 0 := by
  have hinit := hworker hmade
  have hheader : (connect m (some worker)).http.isHeaderSend = true := hmade
  rw [SocketaaWorker.responseLeft, if_pos hheader]
  simp only [connect, workeraaHttpInit, workeraaHttpInitBuffer, Option.getD_some, hinit,
    Bool.true_eq_false, if_false]
  exact Nat.sub_eq_zero_of_le (Nat.zero_le _)

/-! ### Whole connections -/

private theorem SocketaaWorker.after_left (hw : w.http.Sound) (rounds : List Round) :
    (w.transmitted rounds).length + (w.after rounds).responseLeft ≤ w.responseLeft ∧
      (w.transmitted rounds ≠ [] → (w.after rounds).http.isHeaderSend = true) ∧
      (w.http.isHeaderSend = true → (w.after rounds).http.isHeaderSend = true) ∧
      (w.after rounds).http.Sound := by
  induction rounds generalizing w with
  | nil => exact ⟨Nat.le_of_eq (Nat.zero_add _), fun h => absurd rfl h, id, hw⟩
  | cons round rounds ih =>
      rw [SocketaaWorker.after, SocketaaWorker.transmitted]
      cases hstep : w.step round with
      | none =>
          have hnil : w.accepted round = [] := by
            rw [SocketaaWorker.accepted, if_neg]
            rintro ⟨hselect, hready, hsend⟩
            rw [SocketaaWorker.step_send hselect hready hsend] at hstep
            cases hstep
          rw [hnil]
          exact ⟨Nat.le_of_eq (Nat.zero_add _), fun h => absurd rfl h, id, hw⟩
      | some w' =>
          obtain ⟨hleft, hsome, hstays, hw'⟩ := step_left hw hstep
          obtain ⟨hrest, hsome', hstays', hsound⟩ := ih hw'
          simp only [Option.elim_some]
          refine ⟨?_, fun hne => ?_, fun hmade => hstays' (hstays hmade), hsound⟩
          · rw [List.length_append]
            omega
          · by_cases haccepted : w.accepted round = []
            · exact hsome' (by simpa [haccepted] using hne)
            · exact hstays' (hsome haccepted)

private theorem SocketaaWorker.after_of_runEvents
    (hrun : runEvents SocketaaWorker.step w rounds = some w') : w.after rounds = w' := by
  induction rounds generalizing w with
  | nil => exact Option.some.inj hrun
  | cons round rounds ih =>
      obtain ⟨w₁, hstep, hrest⟩ := Option.bind_eq_some_iff.mp hrun
      rw [SocketaaWorker.after, hstep]
      exact ih hrest

private theorem serve_after (hserve : serve s rounds = some s') :
    s' = (((connect s.1 s.2).after rounds).memory, some ((connect s.1 s.2).after rounds).http) := by
  obtain ⟨w, hrun, hend⟩ := Option.bind_eq_some_iff.mp hserve
  rw [SocketaaWorker.after_of_runEvents hrun]
  split at hend
  · cases hend
  · exact (Option.some.inj hend).symm

theorem Kept.serve (hs : Kept s) (hserve : Httpaa.serve s rounds = some s') : Kept s' := by
  intro worker hworker
  rw [serve_after hserve] at hworker
  cases hworker
  exact (SocketaaWorker.after_left (connect_sound hs) rounds).2.2.2

def Made (s : Memory × Option WorkeraaHttp) : Prop :=
  ∃ worker, s.2 = some worker ∧ worker.isHeaderSend = true

private theorem transmissions_made (history : List (List Round)) (hs : Kept s) (hmade : Made s) :
    ∀ sent ∈ transmissions s history, sent = [] := by
  induction history generalizing s with
  | nil => exact fun sent h => absurd h List.not_mem_nil
  | cons rounds history ih =>
      obtain ⟨worker, hworker, hheader⟩ := hmade
      have hleft : (connect s.1 s.2).responseLeft = 0 := by
        rw [hworker]
        exact connect_left (hs worker hworker) hheader
      have hstart : (connect s.1 s.2).http.isHeaderSend = true := by
        rw [hworker]
        exact hheader
      obtain ⟨hle, -, hstays, -⟩ := SocketaaWorker.after_left (connect_sound hs) rounds
      refine List.forall_mem_cons.mpr ⟨List.length_eq_zero_iff.mp (by omega), ?_⟩
      cases hserve : serve s rounds with
      | none => exact fun sent h => absurd h List.not_mem_nil
      | some s' =>
          refine ih (hs.serve hserve) ⟨_, congrArg Prod.snd (serve_after hserve), hstays hstart⟩

/-- A connection that leaves the response unmade has sent nothing, and the next one begins as it
did. -/
theorem SocketaaWorker.Waiting.connect (hw : w.Waiting sent) :
    (connect w.memory (some w.http)).Waiting [] := by
  have hinit := hw.response.isInit
  refine ⟨hw.isHeaderSend, ?_, rfl⟩
  simp only [Httpaa.connect, workeraaHttpInit, workeraaHttpInitBuffer, Option.getD_some, hinit,
    Bool.true_eq_false, if_false]
  exact ⟨hinit, hw.response.empty, hw.response.room⟩

private theorem transmissions_waiting (history : List (List Round)) (hs : Kept s)
    (hwait : (connect s.1 s.2).Waiting []) :
    (∀ sent ∈ transmissions s history, sent <+: responseText) ∧
      (transmissions s history).Pairwise fun sent sent' => sent = [] ∨ sent' = [] := by
  induction history generalizing s with
  | nil => exact ⟨fun sent h => absurd h List.not_mem_nil, .nil⟩
  | cons rounds history ih =>
      have htransmits : ((connect s.1 s.2).after rounds).Transmits
          ((connect s.1 s.2).transmitted rounds) :=
        SocketaaWorker.Transmits.after (.inl hwait) rounds
      rw [transmissions, List.forall_mem_cons, List.pairwise_cons]
      cases hserve : serve s rounds with
      | none =>
          exact ⟨⟨htransmits.isPrefix, fun sent h => absurd h List.not_mem_nil⟩,
            fun sent h => absurd h List.not_mem_nil, .nil⟩
      | some s' =>
          have hs' := serve_after hserve
          rw [Option.elim_some]
          rcases htransmits with hstill | ⟨hsending, -⟩
          · have hnext := ih (hs.serve hserve) (by rw [hs']; exact hstill.connect)
            exact ⟨⟨hstill.sent ▸ List.nil_prefix, hnext.1⟩, fun _ _ => .inl hstill.sent, hnext.2⟩
          · have hmade : Made s' := ⟨_, congrArg Prod.snd hs', hsending.isHeaderSend⟩
            have hnothing := transmissions_made history (hs.serve hserve) hmade
            have htransmits : ((connect s.1 s.2).after rounds).Transmits
                ((connect s.1 s.2).transmitted rounds) :=
              SocketaaWorker.Transmits.after (.inl hwait) rounds
            refine ⟨⟨htransmits.isPrefix, fun sent hsent => ?_⟩,
              fun sent hsent => .inr (hnothing sent hsent), ?_⟩
            · rw [hnothing sent hsent]
              exact List.nil_prefix
            · exact List.pairwise_of_forall_mem_list fun _ _ sent hsent =>
                .inr (hnothing sent hsent)

/-! ### Nobody has asked -/

/-- The worker takes its next connection with nothing to send, and sends nothing on it unless it is
asked to. -/
def Idle (s : Memory × Option WorkeraaHttp) : Prop :=
  ∃ e, Follows (connect s.1 s.2) e ∧ ∀ rounds, ¬ Asked rounds → e.Quiet rounds

theorem SocketaaWorker.Ignores.connect {count : Nat} (hw : w.Ignores count) :
    ∃ count', Follows (Httpaa.connect w.memory (some w.http))
      ⟨{ isSelect := true, isRecv := true }, .ignoring count',
        w.http.http.toHttp11Http.places⟩ := by
  have hbuf : (Httpaa.connect w.memory (some w.http)).http.request.bufSize =
      workeraaWorkRecvBufferSizeDefault := by
    simp only [Httpaa.connect, workeraaHttpInit, workeraaHttpInitBuffer, Option.getD_some]
    split
    · simp only [Traced.stringaaMalloc, Httpaa.stringaaMalloc]
      by_cases hroom : 0 < workeraaWorkRecvBufferSizeDefault ∧ (w.http.request.isAlloc = true ∧
          w.http.request.bufSize < workeraaWorkRecvBufferSizeDefault ∨
        ¬ w.http.request.isAlloc = true)
      · simp only [if_pos hroom, if_true]
      · simp only [if_neg hroom, Bool.false_eq_true, if_false]
        exact hw.bufSize
    · exact hw.bufSize
  exact ⟨_, rfl, rfl, rfl, ⟨hw.isHeaderRecv, hw.method, hbuf, rfl⟩⟩

theorem Idle.serve (hs : Idle s) (hasked : ¬ Asked rounds)
    (hserve : Httpaa.serve s rounds = some s') :
    (connect s.1 s.2).transmitted rounds = [] ∧ Idle s' := by
  obtain ⟨e, hw, hquiet⟩ := hs
  obtain ⟨⟨rounds', hquiet'⟩, hnothing⟩ := (hquiet rounds hasked).run
  obtain ⟨hafter, hsent⟩ := hw.run rounds
  refine ⟨hsent.trans hnothing, ?_⟩
  rw [serve_after hserve]
  generalize (connect s.1 s.2).after rounds = w at hafter
  generalize (e.run rounds).1 = e' at hafter hquiet'
  obtain ⟨flags, progress, http⟩ := e'
  obtain ⟨-, ⟨text, hprogress, -⟩ | ⟨count, hprogress⟩⟩ := hquiet'
  · dsimp only at hprogress
    subst hprogress
    exact ⟨_, hafter.2.2.2.connect, fun rounds hasked => Exchange.start_quiet _ hasked⟩
  · dsimp only at hprogress
    subst hprogress
    obtain ⟨count', hfollows⟩ := hafter.2.2.2.connect
    exact ⟨_, hfollows, fun rounds _ => ⟨rfl, .inr ⟨count', rfl⟩⟩⟩

private theorem Idle.asked (hs : Idle s) {i : Nat}
    (hsent : (transmissions s history)[i]? = some sent) (hne : sent ≠ []) :
    ∃ j ≤ i, ∃ rounds : List Round, history[j]? = some rounds ∧
    Asked rounds := by
  induction history generalizing s i with
  | nil => cases hsent
  | cons rounds history ih =>
      by_cases hasked : Asked rounds
      · exact ⟨0, Nat.zero_le _, rounds, rfl, hasked⟩
      · cases i with
        | zero =>
            obtain ⟨e, hw, hquiet⟩ := hs
            rw [transmissions, List.getElem?_cons_zero, (hw.run rounds).2,
              (hquiet rounds hasked).run.2] at hsent
            exact absurd (Option.some.inj hsent).symm hne
        | succ i =>
            rw [transmissions, List.getElem?_cons_succ] at hsent
            cases hserve : Httpaa.serve s rounds with
            | none =>
                rw [hserve] at hsent
                cases hsent
            | some s' =>
                rw [hserve, Option.elim_some] at hsent
                obtain ⟨j, hle, rounds', hget, hasked'⟩ := ih (hs.serve hasked hserve).2 hsent
                exact ⟨j + 1, Nat.succ_le_succ hle, rounds', hget, hasked'⟩

/-- In its whole life, whatever the connections bring, a worker sends something on one connection at
most. It is some of the response from the begin on, and a GET request has been received before, on
that connection or an earlier one. -/
theorem workeraaHttp_transmissions (m : Memory) (history : List (List Round)) :
    (∀ sent ∈ transmissions (m, none) history, sent <+: responseText) ∧
      ((transmissions (m, none) history).Pairwise fun sent sent' => sent = [] ∨ sent' = []) ∧
      ∀ (i : Nat) (sent : List UInt8), (transmissions (m, none) history)[i]? =
      some sent → sent ≠ [] →
        ∃ j ≤ i, ∃ rounds : List Round, history[j]? = some rounds ∧ Asked rounds := by
  have hkept : Kept (m, none) := fun worker hworker => by cases hworker
  obtain ⟨-, -, -, hlistens⟩ := connect_none m
  obtain ⟨hbegins, honce⟩ := transmissions_waiting history hkept
    ⟨hlistens.isHeaderSend, hlistens.response, rfl⟩
  refine ⟨hbegins, honce, fun i sent hsent hne => Idle.asked ?_ hsent hne⟩
  exact ⟨_, connect_none m, fun rounds hasked => Exchange.start_quiet _ hasked⟩

end Httpaa
