import Httpaa.Worker.Reuse

/-!
# What is answered

A new worker sends its response if a GET request has been received on the connection, and nothing
otherwise. A peer that cooperates is sent all of it, and the connection is closed.
-/

namespace Httpaa

open Traced Transition Recogniser

variable {w w' : SocketaaWorker} {round : Round} {rounds : List Round} {e e' : Exchange}
  {text bytes sent : List UInt8} {flags : SocketaaWorkFlags} {http : Http11Http}

def methodOf (text : List UInt8) : Nat :=
  (({} : Http11Http).writeAll (bufferOf text.length)
    (Text.parseRequestHeaders text).notes).request.requestLine.method

def Asks (text : List UInt8) : Prop :=
  (Text.parseRequestHeaders text).ok = true ∧ methodOf text = http11MethodGet

/-- At some time the bytes received on the connection have been such a text. -/
def Asked (rounds : List Round) : Prop :=
  ∃ k, Asks ((delivered (rounds.take k)).take workeraaWorkRecvBufferSizeDefault)

/-- The peer sends as long as it is waited for, and takes what it is sent. -/
def Round.Cooperates (round : Round) : Prop :=
  round.select = .ready ∧ (∃ b bytes, round.recv = some (b :: bytes)) ∧
    ∃ n, round.send = some (n + 1)

/-! ### Texts that ask -/

private theorem methodOf_append (more : List UInt8)
    (hok : (Text.parseRequestHeaders text).ok = true) :
    methodOf (text ++ more) = methodOf text := by
  rw [methodOf, methodOf, (Text.parseRequestHeaders_append more hok).2]
  exact writeAll_method (Text.parseRequestHeaders_method hok) _ _ _ _

/-- A header that has been found decides whether the text asks, whatever follows. -/
theorem asks_append (more : List UInt8) (hok : (Text.parseRequestHeaders text).ok = true) :
    Asks (text ++ more) ↔ Asks text := by
  have hmore := (Text.parseRequestHeaders_append more hok).1
  simp only [Asks, hmore, hok, methodOf_append more hok]

private theorem heard_asks (flags : SocketaaWorkFlags) (http : Http11Http) (hasks : Asks text) :
    ∃ http', heard flags http text = ⟨{ isSelect := true, isSend := true }, .sending 0, http'⟩ := by
  obtain ⟨hok, hmethod⟩ := hasks
  have hfound := writeAll_method (Text.parseRequestHeaders_method hok) http {}
    (bufferOf text.length) (bufferOf text.length)
  have hget := hfound.trans hmethod
  refine ⟨http.writeAll (bufferOf text.length) (Text.parseRequestHeaders text).notes, ?_⟩
  simp only [heard, hok, if_true, hget]

private theorem heard_unasked (flags : SocketaaWorkFlags) (http : Http11Http)
    (hasks : ¬ Asks text) :
    ∃ http', ((Text.parseRequestHeaders text).ok = true ∧
        heard flags http text = ⟨flags, .ignoring text.length, http'⟩) ∨
      heard flags http text = ⟨flags, .listening text, http'⟩ := by
  refine ⟨http.writeAll (bufferOf text.length) (Text.parseRequestHeaders text).notes, ?_⟩
  by_cases hok : (Text.parseRequestHeaders text).ok = true
  · have hfound := writeAll_method (Text.parseRequestHeaders_method hok) http {}
      (bufferOf text.length) (bufferOf text.length)
    have hmethod : ¬ (http.writeAll (bufferOf text.length)
        (Text.parseRequestHeaders text).notes).request.requestLine.method = http11MethodGet := by
      rw [hfound]
      exact fun h => hasks ⟨hok, h⟩
    exact .inl ⟨hok, by simp only [heard, hok, if_true, if_neg hmethod]⟩
  · exact .inr (by simp only [heard, if_neg hok])

/-! ### Rounds in which nothing is sent -/

private theorem Exchange.step_listening (hsend : flags.isSend = false)
    (hstep : (⟨flags, .listening text, http⟩ : Exchange).step round = some (e', sent)) :
    sent = [] ∧
      ((∃ flags', e' = ⟨flags', .listening text, http⟩ ∧ flags'.isSend = false ∧
          (flags'.isSelect = true → flags'.isRecv = false)) ∨
        ∃ bytes all, round.select = .ready ∧ flags.isSelect = true ∧ flags.isRecv = true ∧
          round.recv = some all ∧
          bytes = all.take (workeraaWorkRecvBufferSizeDefault - text.length) ∧ bytes ≠ [] ∧
          e' = heard { flags with isSelect := true, isSend := false, isRecv := true } http
            (text ++ bytes)) := by
  by_cases hselect : flags.isSelect = true
  · cases hround : round.select with
    | error =>
        simp only [Exchange.step, hselect, if_true, hround] at hstep
        cases hstep
        exact ⟨rfl, .inl ⟨_, rfl, rfl, fun h => absurd h Bool.false_ne_true⟩⟩
    | timeout =>
        simp only [Exchange.step, hselect, if_true, hround] at hstep
        cases hstep
        exact ⟨rfl, .inl ⟨_, rfl, rfl, fun h => absurd h Bool.false_ne_true⟩⟩
    | ready =>
        cases hrecv : flags.isRecv with
        | false =>
            simp only [Exchange.step, hselect, if_true, hround, hrecv, Bool.false_eq_true,
              if_false] at hstep
            cases hstep
            exact ⟨rfl, .inl ⟨_, rfl, rfl, fun _ => rfl⟩⟩
        | true =>
            simp only [Exchange.step, hselect, if_true, hround, hrecv] at hstep
            rcases receives_cases text.length round.recv with
              ⟨bytes, hne, heq, all, hall, hbytes⟩ | ⟨-, hnothing⟩
            · have hpos : (0 : Int) < bytes.length :=
                Int.natCast_pos.mpr (List.length_pos_iff.mpr hne)
              simp only [heq, hpos, if_true] at hstep
              cases hstep
              exact ⟨rfl, .inr ⟨bytes, all, rfl, hselect, rfl, hall, hbytes, hne, rfl⟩⟩
            · simp only [receives_nothing hnothing, if_false] at hstep
              cases hstep
              refine ⟨rfl, .inl ⟨_, rfl, recvFlags_isSend .., fun _ => ?_⟩⟩
              simp only [recvFlags_isRecv, hsend, Bool.and_false]
  · rw [Exchange.step, if_neg hselect] at hstep
    cases hstep

private theorem Exchange.step_ignoring {count : Nat}
    (hstep : (⟨flags, .ignoring count, http⟩ : Exchange).step round = some (e', sent)) :
    sent = [] ∧ ∃ flags' count', e' = ⟨flags', .ignoring count', http⟩ ∧ flags'.isSend = false := by
  by_cases hselect : flags.isSelect = true
  · cases hround : round.select with
    | error | timeout =>
        simp only [Exchange.step, hselect, if_true, hround] at hstep
        cases hstep
        exact ⟨rfl, _, _, rfl, rfl⟩
    | ready =>
        simp only [Exchange.step, hselect, if_true, hround] at hstep
        split at hstep
        · split at hstep
          · cases hstep
            exact ⟨rfl, _, _, rfl, rfl⟩
          · cases hstep
            exact ⟨rfl, _, _, rfl, recvFlags_isSend ..⟩
        · cases hstep
          exact ⟨rfl, _, _, rfl, rfl⟩
  · rw [Exchange.step, if_neg hselect] at hstep
    cases hstep

/-- The bytes that the rounds can still bring do not ask. -/
def Unasked (text : List UInt8) (rounds : List Round) : Prop :=
  ∀ k, ¬ Asks (text ++ (delivered (rounds.take k)).take
    (workeraaWorkRecvBufferSizeDefault - text.length))

/-- The worker has nothing to send, whatever the rounds bring. -/
def Exchange.Quiet (e : Exchange) (rounds : List Round) : Prop :=
  e.flags.isSend = false ∧
    ((∃ text, e.progress = .listening text ∧ text.length ≤ workeraaWorkRecvBufferSizeDefault ∧
        (e.flags.isSelect = true → e.flags.isRecv = true → Unasked text rounds)) ∨
      ∃ count, e.progress = .ignoring count)

theorem Unasked.received {all : List UInt8} (hunasked : Unasked text (round :: rounds))
    (hle : text.length ≤ workeraaWorkRecvBufferSizeDefault) (hready : round.select = .ready)
    (hrecv : round.recv = some all)
    (hbytes : bytes = all.take (workeraaWorkRecvBufferSizeDefault - text.length))
    (hne : bytes ≠ []) : Unasked (text ++ bytes) rounds := by
  intro k
  have hnext := hunasked (k + 1)
  rw [List.take_succ_cons, delivered_ready hready hrecv hbytes hne] at hnext
  rw [hbytes, take_room hle]
  exact hnext

theorem Exchange.Quiet.step (he : e.Quiet (round :: rounds))
    (hstep : e.step round = some (e', sent)) : e'.Quiet rounds ∧ sent = [] := by
  obtain ⟨flags, progress, http⟩ := e
  obtain ⟨hsend, ⟨text, hprogress, hle, hunasked⟩ | ⟨count, hprogress⟩⟩ := he
  · dsimp only at hsend hprogress hunasked
    subst hprogress
    obtain ⟨hsent, ⟨flags', rfl, hsend', hrecv'⟩ |
      ⟨bytes, all, hready, hselect, hrecv, hall, hbytes, hne, rfl⟩⟩ := step_listening hsend hstep
    · refine ⟨⟨hsend', .inl ⟨text, rfl, hle, fun hselect hrecv => ?_⟩⟩, hsent⟩
      exact absurd (hrecv.symm.trans (hrecv' hselect)) (by decide)
    · have hmore := (hunasked hselect hrecv).received hle hready hall hbytes hne
      have hnow : ¬ Asks (text ++ bytes) := by simpa [delivered] using hmore 0
      have hroom : (text ++ bytes).length ≤ workeraaWorkRecvBufferSizeDefault := by
        rw [hbytes, List.length_append, List.length_take]
        omega
      obtain ⟨http', ⟨-, hheard⟩ | hheard⟩ :=
        heard_unasked { flags with isSelect := true, isSend := false, isRecv := true } http hnow
      · rw [hheard]
        exact ⟨⟨rfl, .inr ⟨_, rfl⟩⟩, hsent⟩
      · rw [hheard]
        exact ⟨⟨rfl, .inl ⟨_, rfl, hroom, fun _ _ => hmore⟩⟩, hsent⟩
  · dsimp only at hprogress
    subst hprogress
    obtain ⟨hsent, flags', count', rfl, hsend'⟩ := step_ignoring hstep
    exact ⟨⟨hsend', .inr ⟨count', rfl⟩⟩, hsent⟩

theorem Exchange.Quiet.run (he : e.Quiet rounds) :
    (∃ rounds', (e.run rounds).1.Quiet rounds') ∧ (e.run rounds).2 = [] := by
  induction rounds generalizing e with
  | nil => exact ⟨⟨[], he⟩, rfl⟩
  | cons round rounds ih =>
      rw [Exchange.run]
      cases hstep : e.step round with
      | none => exact ⟨⟨_, he⟩, rfl⟩
      | some s =>
          obtain ⟨he', hsent⟩ := he.step hstep
          obtain ⟨hquiet, hnothing⟩ := ih he'
          exact ⟨hquiet, by simp [hsent, hnothing]⟩

theorem Exchange.start_quiet (http : Http11Http) (hasked : ¬ Asked rounds) :
    (Exchange.start http).Quiet rounds := by
  refine ⟨rfl, .inl ⟨[], rfl, Nat.zero_le _, fun _ _ k hasks => hasked ⟨k, ?_⟩⟩⟩
  simpa using hasks

/-! ### What is sent is a prefix of the response -/

theorem SocketaaWorker.Transmits.after (hw : w.Transmits sent) (rounds : List Round) :
    (w.after rounds).Transmits (sent ++ w.transmitted rounds) := by
  induction rounds generalizing w sent with
  | nil => simpa [SocketaaWorker.after, SocketaaWorker.transmitted] using hw
  | cons round rounds ih =>
      rw [SocketaaWorker.after, SocketaaWorker.transmitted]
      cases hstep : w.step round with
      | none =>
          have hend : w.accepted round = [] := by
            rw [SocketaaWorker.accepted, if_neg]
            rintro ⟨hselect, hready, hsend⟩
            rw [SocketaaWorker.step_send hselect hready hsend] at hstep
            cases hstep
          simpa [hend] using hw
      | some w' =>
          have hrest := ih (hw.step hstep)
          rwa [List.append_assoc] at hrest

private theorem connect_none_transmits (m : Memory) : (connect m none).Transmits [] := by
  obtain ⟨-, -, -, hlistens⟩ := connect_none m
  exact .inl ⟨hlistens.isHeaderSend, hlistens.response, rfl⟩

theorem connect_unasked (m : Memory) (hasked : ¬ Asked rounds) :
    (connect m none).transmitted rounds = [] := by
  rw [((connect_none m).run rounds).2]
  exact (Exchange.start_quiet {} hasked).run.2

/-- On its first connection a worker sends some of the response, from the begin on, and only if it
has been asked to. -/
theorem connect_transmitted (m : Memory) (rounds : List Round) :
    (connect m none).transmitted rounds <+: responseText ∧
      ((connect m none).transmitted rounds ≠ [] → Asked rounds) := by
  refine ⟨((connect_none_transmits m).after rounds).isPrefix, fun hsent => ?_⟩
  by_contra hasked
  exact hsent (connect_unasked m hasked)

/-! ### What has been asked for is sent -/

private theorem Exchange.run_asked (flags : SocketaaWorkFlags) (http : Http11Http)
    (text : List UInt8)
    (hcooperate : ∀ round ∈ rounds, round.Cooperates)
    (hle : text.length ≤ workeraaWorkRecvBufferSizeDefault) (hnow : ¬ Asks text) {k : Nat}
    (hasked : Asks (text ++ (delivered (rounds.take k)).take
      (workeraaWorkRecvBufferSizeDefault - text.length)))
    (hselect : flags.isSelect = true) (hrecv : flags.isRecv = true) (hsend : flags.isSend = false) :
    ∃ back http', back <:+ rounds ∧ rounds.length ≤ k + back.length ∧
      (⟨flags, .listening text, http⟩ : Exchange).run rounds =
        (⟨{ isSelect := true, isSend := true }, .sending 0, http'⟩ : Exchange).run back := by
  induction rounds generalizing flags text http k with
  | nil =>
      rw [List.take_nil, delivered, List.take_nil, List.append_nil] at hasked
      exact absurd hasked hnow
  | cons round rounds ih =>
      cases k with
      | zero =>
          rw [List.take_zero, delivered, List.take_nil, List.append_nil] at hasked
          exact absurd hasked hnow
      | succ k =>
          obtain ⟨⟨hready, ⟨b, all, hall⟩, -⟩, hcooperate⟩ := List.forall_mem_cons.mp hcooperate
          obtain ⟨room, hroom⟩ : ∃ room,
              workeraaWorkRecvBufferSizeDefault - text.length = room + 1 := by
            refine Nat.exists_eq_succ_of_ne_zero fun hfull => hnow ?_
            rwa [hfull, List.take_zero, List.append_nil] at hasked
          obtain ⟨bytes, hbytes⟩ : ∃ bytes, bytes =
            (b :: all).take (workeraaWorkRecvBufferSizeDefault - text.length) := ⟨_, rfl⟩
          have hne : bytes ≠ [] := by
            rw [hbytes, hroom]
            exact List.cons_ne_nil _ _
          have hpos : (0 : Int) < bytes.length :=
            Int.natCast_pos.mpr (List.length_pos_iff.mpr hne)
          have hreceives : receives text.length round.recv = ((bytes.length : Int), bytes) := by
            have hless : text.length < workeraaWorkRecvBufferSizeDefault := by omega
            simp only [receives, hless, if_true, hall, ← hbytes, if_neg hne]
          have hstep : (⟨flags, .listening text, http⟩ : Exchange).step round =
              some (heard { flags with isSelect := true, isSend := false, isRecv := true } http
                (text ++ bytes), []) := by
            simp only [Exchange.step, hselect, if_true, hready, hrecv, hreceives, hpos]
          rw [List.take_succ_cons, delivered_ready hready hall hbytes hne, ← take_room hle,
            ← hbytes] at hasked
          have hless : (text ++ bytes).length ≤ workeraaWorkRecvBufferSizeDefault := by
            rw [hbytes, List.length_append, List.length_take]
            omega
          rw [Exchange.run, hstep]
          by_cases hnow' : Asks (text ++ bytes)
          · obtain ⟨http', hheard⟩ :=
              heard_asks { flags with isSelect := true, isSend := false, isRecv := true } http hnow'
            refine ⟨rounds, http', List.suffix_cons _ _, ?_, by simp [hheard]⟩
            rw [List.length_cons]
            omega
          · obtain ⟨http', ⟨hok, -⟩ | hheard⟩ := heard_unasked
              { flags with isSelect := true, isSend := false, isRecv := true } http hnow'
            · exact absurd ((asks_append _ hok).mp hasked) hnow'
            · obtain ⟨back, http'', hback, hlength, hrun⟩ :=
                ih { flags with isSelect := true, isSend := false, isRecv := true } http'
                (text ++ bytes)
                  hcooperate hless hnow' hasked rfl rfl rfl
              refine ⟨back, http'', hback.trans (List.suffix_cons _ _), ?_, ?_⟩
              · rw [List.length_cons]
                omega
              · simp only [Option.elim_some, hheard, List.nil_append]
                exact hrun

private theorem Exchange.run_sending (flags : SocketaaWorkFlags) (http : Http11Http) (sent : Nat)
    (hcooperate : ∀ round ∈ rounds, round.Cooperates)
    (hle : sent ≤ responseText.length) (hselect : flags.isSelect = true)
    (hlength : responseText.length - sent < rounds.length) :
    ((⟨flags, .sending sent, http⟩ : Exchange).run rounds).2 = responseText.drop sent ∧
      ((⟨flags, .sending sent, http⟩ : Exchange).run rounds).1.flags.isSelect = false := by
  induction rounds generalizing flags sent with
  | nil => exact absurd hlength (Nat.not_lt_zero _)
  | cons round rounds ih =>
      obtain ⟨⟨hready, -, n, hn⟩, hcooperate⟩ := List.forall_mem_cons.mp hcooperate
      rw [Exchange.run, step_sending http sent hselect hready, Option.elim_some, hn]
      by_cases hless : sent < responseText.length
      · have hne : ¬ min (n + 1) (responseText.length - sent) = 0 := by omega
        have hsends : sends sent (some (n + 1)) =
            ((min (n + 1) (responseText.length - sent) : Nat) : Int) := by
          simp only [sends, hless, if_true, if_neg hne]
        rw [hsends, Int.toNat_natCast]
        generalize hcount : min (n + 1) (responseText.length - sent) = count at hne ⊢
        have hflags : (sendFlags
            { flags with isSend := false, isRecv := flags.isRecv && flags.isSend }
            (count : Int)).isSelect = true := by
          have herror : ¬ (count : Int) = socketaaSocketError := by
            rw [socketaaSocketError]
            omega
          have hshutdown : ¬ (count : Int) = socketaaErrorRecvShutdown := by
            rw [socketaaErrorRecvShutdown]
            omega
          have hzero : ¬ (count : Int) = 0 := by omega
          simp only [sendFlags, if_neg herror, if_neg hzero, if_neg hshutdown, hselect]
        rw [List.length_cons] at hlength
        obtain ⟨hsent, hend⟩ := ih _ (sent + count) hcooperate (by omega) hflags (by omega)
        refine ⟨?_, hend⟩
        rw [hsent, ← List.drop_drop, List.take_append_drop]
      · have hsends : sends sent (some (n + 1)) = 0 := by simp only [sends, if_neg hless]
        have hall : responseText.drop sent = [] := List.drop_eq_nil_of_le (Nat.le_of_not_lt hless)
        have hended : (sendFlags
            { flags with isSend := false, isRecv := flags.isRecv && flags.isSend }
            0).isSelect = false := rfl
        have hrun : ∀ e : Exchange, e.flags.isSelect = false → e.run rounds = (e, []) := by
          intro e hend
          cases rounds with
          | nil => rfl
          | cons round rounds =>
              have hnone : e.step round = none := by simp [Exchange.step, hend]
              rw [Exchange.run, hnone, Option.elim_none]
        rw [hsends, hrun _ hended, hall]
        exact ⟨rfl, hended⟩

/-- As long as the peer cooperates no call fails, and the socket is left open or closed once and for
all. -/
theorem SocketaaWorker.Open.after (hw : w.Open) (hcooperate : ∀ round ∈ rounds, round.Cooperates) :
    (w.after rounds).Open ∨ (w.after rounds).Closed := by
  induction rounds generalizing w with
  | nil => exact .inl hw
  | cons round rounds ih =>
      obtain ⟨⟨hready, -, n, hn⟩, hcooperate⟩ := List.forall_mem_cons.mp hcooperate
      rw [SocketaaWorker.after]
      cases hstep : w.step round with
      | none => exact .inl hw
      | some w' =>
          rcases hw.step hstep with ⟨-, hopen | hclosed⟩ | ⟨herror | ⟨-, -, -, herror⟩, -⟩
          · exact ih hopen hcooperate
          · refine .inr ?_
            have hstay : w'.after rounds = w' := by
              cases rounds with
              | nil => rfl
              | cons round rounds =>
                  rw [SocketaaWorker.after, SocketaaWorker.step_of_ended hclosed.isSelect,
                    Option.elim_none]
            rw [Option.elim_some, hstay]
            exact hclosed
          · exact absurd (hready.symm.trans herror) (by decide)
          · cases hn.symm.trans herror

/-- A peer that cooperates long enough after a GET request has been received is sent the whole
response. -/
theorem connect_sends (m : Memory) (k : Nat) (hcooperate : ∀ round ∈ rounds, round.Cooperates)
    (hasked : Asks ((delivered (rounds.take k)).take workeraaWorkRecvBufferSizeDefault))
    (hlength : k + responseText.length < rounds.length) :
    (connect m none).transmitted rounds = responseText ∧
      ((connect m none).after rounds).flags.isSelect = false ∧
      ((connect m none).after rounds).Disciplined := by
  obtain ⟨hfollows, hsent⟩ := (connect_none m).run rounds
  have hnil : ¬ Asks [] := fun hasks => Bool.false_ne_true hasks.1
  obtain ⟨back, http', hback, hrounds, hrun⟩ := Exchange.run_asked
    { isSelect := true, isRecv := true } {} [] hcooperate (Nat.zero_le _) hnil (k := k)
    (by simpa using hasked) rfl rfl rfl
  obtain ⟨hall, hend⟩ := Exchange.run_sending { isSelect := true, isSend := true } http' 0
    (fun round hround => hcooperate round (hback.subset hround)) (Nat.zero_le _) rfl
    (by rw [Nat.sub_zero]; omega)
  have hstart : (Exchange.start {}).run rounds =
      (⟨{ isSelect := true, isSend := true }, .sending 0, http'⟩ : Exchange).run back := hrun
  rw [hstart] at hfollows hsent
  have hselect : ((connect m none).after rounds).flags.isSelect = false := hfollows.1 ▸ hend
  refine ⟨hsent.trans hall, hselect, ?_⟩
  have hopen : (connect m none).Open := ⟨rfl, List.not_mem_nil⟩
  rcases hopen.after hcooperate with hstill | hclosed
  · exact absurd (hstill.isSelect.symm.trans hselect) (by decide)
  · exact hclosed.disciplined

/-- A peer that cooperates long enough after a GET request has been received is sent the whole
response, and the connection is closed once and for all. -/
theorem connect_answered (m : Memory) (rounds : List Round) (k : Nat)
    (hcooperate : ∀ round ∈ rounds, round.Cooperates)
    (hasked : Asks ((delivered (rounds.take k)).take workeraaWorkRecvBufferSizeDefault))
    (hlength : k + responseText.length < rounds.length) :
    (connect m none).transmitted rounds = responseText ∧
      ((connect m none).after rounds).flags.isSelect = false ∧
      ((connect m none).after rounds).Disciplined :=
  connect_sends m k hcooperate hasked hlength

/-- A request is received again and again, and one byte is taken each time. -/
theorem bytes_cooperate (n : Nat) : (∀ round ∈ List.replicate (n + 2)
      (⟨.ready, some (literal "GET / HTTP/1.1\r\n\r\n"), some 1⟩ : Round), round.Cooperates) ∧
    Asks ((delivered ((List.replicate (n + 2)
      ⟨.ready, some (literal "GET / HTTP/1.1\r\n\r\n"), some 1⟩).take 1)).take
        workeraaWorkRecvBufferSizeDefault) := by
  have hdelivered : ∀ (b : UInt8) (bytes : List UInt8),
      delivered [⟨.ready, some (b :: bytes), some 1⟩] = b :: bytes := by simp [delivered]
  have hbytes : literal "GET / HTTP/1.1\r\n\r\n" =
      ch 'G' :: literal "ET / HTTP/1.1\r\n\r\n" := by decide +kernel
  have hshort : (literal "GET / HTTP/1.1\r\n\r\n").length ≤ workeraaWorkRecvBufferSizeDefault := by
    decide +kernel
  refine ⟨fun round hround => ?_, ?_⟩
  · rw [List.eq_of_mem_replicate hround]
    exact ⟨rfl, ⟨_, _, congrArg some hbytes⟩, 0, rfl⟩
  · rw [List.replicate_succ, List.take_succ_cons, List.take_zero, hbytes, hdelivered, ← hbytes,
      List.take_of_length_le hshort]
    exact ⟨by decide +kernel, by decide +kernel⟩

/-- The whole response goes out in pieces of one byte. -/
theorem connect_answered_bytes : (connect ⟨.ofText [], []⟩ none).transmitted
    (List.replicate (responseText.length + 2)
      ⟨.ready, some (literal "GET / HTTP/1.1\r\n\r\n"), some 1⟩) = responseText := by
  obtain ⟨hcooperate, hasked⟩ := bytes_cooperate responseText.length
  refine (connect_answered _ _ 1 hcooperate hasked ?_).1
  rw [List.length_replicate]
  omega

end Httpaa
