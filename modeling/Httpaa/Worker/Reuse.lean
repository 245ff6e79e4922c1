import Httpaa.Worker.Exchange

/-!
# One connection after another

A worker keeps its structure from one connection to the next: `workeraa_http_init` cleans the two
buffers and nothing else. A header that has been found stays found, and with it the worker does not
parse the next one. A worker whose request is as it was in the beginning is as good as a new one.
-/

namespace Httpaa

open Traced Transition Recogniser

variable {m m₀ : Memory} {w : SocketaaWorker} {round : Round} {rounds : List Round}
  {history : List (List Round)} {s s' : Memory × Option WorkeraaHttp} {e e' : Exchange}
  {text bytes sent : List UInt8}

/-- A worker takes a connection, with the flags that the server gives it. -/
def connect (m : Memory) (pStruct : Option WorkeraaHttp) : SocketaaWorker where
  memory := (workeraaHttpInit m pStruct).1
  http := (workeraaHttpInit m pStruct).2
  flags := { isSelect := true, isRecv := true }
  calls := []

/-- A connection from its first round to the one in which the loop ends. -/
def serve (s : Memory × Option WorkeraaHttp) (rounds : List Round) :
    Option (Memory × Option WorkeraaHttp) := do
  let w ← runEvents SocketaaWorker.step (connect s.1 s.2) rounds
  if w.flags.isSelect then none else return (w.memory, some w.http)

/-- What comes of a connection: whether the parser has succeeded, what it has assigned and where in
the buffer that stands, the flags of the work, and the bytes sent. -/
structure Observation where
  isHeaderRecv : Bool
  http : Http11Http
  flags : SocketaaWorkFlags
  sent : List UInt8

def SocketaaWorker.observed (w : SocketaaWorker) (rounds : List Round) : Observation where
  isHeaderRecv := (w.after rounds).http.isHeaderRecv
  http := (w.after rounds).http.http.toHttp11Http.places
  flags := (w.after rounds).flags
  sent := w.transmitted rounds

/-- The same comes of both connections, but for the fields of the request. -/
def Observation.Agrees (o o' : Observation) : Prop :=
  o.isHeaderRecv = o'.isHeaderRecv ∧ o.flags = o'.flags ∧ o.sent = o'.sent

/-- The bytes of the rounds up to the first in which nothing is received. -/
def delivered : List Round → List UInt8
  | [] => []
  | round :: rounds =>
      match round.select, round.recv with
      | .ready, some (b :: bytes) => b :: bytes ++ delivered rounds
      | _, _ => []

def Rejected (text : List UInt8) : Prop := (Text.parseRequestHeaders text).ok = false

/-- The parser does not accept the text, and leaves a request that is all zero as it is. -/
def Untouched (text : List UInt8) : Prop :=
  (Text.parseRequestHeaders text).ok = false ∧
    ({} : Http11Http).writeAll (bufferOf text.length) (Text.parseRequestHeaders text).notes = {}

/-- On the connection the parser is given such texts alone, whatever number of rounds there has
been. -/
def Hears (P : List UInt8 → Prop) (rounds : List Round) : Prop :=
  ∀ k, P ((delivered (rounds.take k)).take workeraaWorkRecvBufferSizeDefault)

/-! ### Workers that do the same -/

theorem Follows.isHeaderRecv (hw : Follows w e) :
    w.http.isHeaderRecv = e.progress.isHeaderRecv := by
  obtain ⟨-, -, hprogress⟩ := hw
  obtain ⟨flags, progress, http⟩ := e
  cases progress with
  | listening text => exact hprogress.2.isHeaderRecv
  | ignoring count => exact hprogress.2.isHeaderRecv
  | sending sent => exact hprogress.2.isHeaderRecv

/-- What comes of a connection is determined by the exchange that it begins with. -/
theorem Follows.observed (hw : Follows w e) (rounds : List Round) :
    w.observed rounds = ⟨(e.run rounds).1.progress.isHeaderRecv, (e.run rounds).1.http,
      (e.run rounds).1.flags, (e.run rounds).2⟩ := by
  obtain ⟨hafter, hsent⟩ := hw.run rounds
  rw [SocketaaWorker.observed, hafter.isHeaderRecv, hafter.1, hafter.2.1, hsent]

def Exchange.start (http : Http11Http) : Exchange :=
  ⟨{ isSelect := true, isRecv := true }, .listening [], http⟩

theorem connect_none (m : Memory) : Follows (connect m none) (.start {}) := by
  obtain ⟨h₀, hblock, hlistening⟩ := workeraaHttpInit_listening m
  refine ⟨rfl, rfl, rfl, rfl, rfl, ⟨rfl, ?_, ?_⟩, rfl, rfl, rfl, rfl,
    ⟨h₀, _, rfl, hblock, hlistening.received⟩, Nat.zero_le _⟩
  · intro hnone
    cases hnone
  · exact (by decide : 1 ≤ workeraaWorkSendBufferSizeDefault)

theorem SocketaaWorker.Listens.connect (hw : w.Listens text) :
    Follows (connect w.memory (some w.http)) (.start w.http.http.toHttp11Http.places) := by
  obtain ⟨h₀, p, hoff, hblock, hreceived⟩ := hw.received
  have hinit : workeraaHttpInit w.memory (some w.http) = (w.memory, { w.http with
      request := stringaaClean w.http.request, response := stringaaClean w.http.response }) := by
    simp [workeraaHttpInit, workeraaHttpInitBuffer, hw.isInit, hw.response.isInit]
  have hsize : w.memory.heap.size p.block = workeraaWorkRecvBufferSizeDefault := by
    rw [hreceived.heap]
    exact hblock
  rw [Httpaa.connect, hinit]
  refine ⟨rfl, rfl, rfl, hw.isHeaderRecv, hw.isHeaderSend,
    ⟨hw.response.isInit, hw.response.empty, hw.response.room⟩, hw.isInit, rfl,
    hw.requestFileName, hw.path, ⟨w.memory.heap, p, hoff, hsize, storeAll_nil.symm,
      hreceived.buf, hreceived.bufSize, rfl⟩, Nat.zero_le _⟩

/-! ### Connections without a header -/

section Rejecting

variable {P : List UInt8 → Prop} {I : Http11Http → Prop}

/-- The parser does not accept such a text, and what it assigns keeps `I`. -/
def Rejecting (P : List UInt8 → Prop) (I : Http11Http → Prop) : Prop :=
  ∀ http text, I http → P text → (Text.parseRequestHeaders text).ok = false ∧
    I (http.writeAll (bufferOf text.length) (Text.parseRequestHeaders text).notes)

/-- The worker goes on listening, whatever the rounds bring. -/
structure Exchange.Unmoved (P : List UInt8 → Prop) (I : Http11Http → Prop) (e : Exchange)
    (rounds : List Round) : Prop where
  http : I e.http
  isSend : e.flags.isSend = false
  listening : ∃ text, e.progress = .listening text ∧
    text.length ≤ workeraaWorkRecvBufferSizeDefault ∧
    (e.flags.isSelect = true → e.flags.isRecv = true → ∀ k, P (text ++
      (delivered (rounds.take k)).take (workeraaWorkRecvBufferSizeDefault - text.length)))

theorem delivered_ready {all : List UInt8} {n : Nat} (hready : round.select = .ready)
    (hrecv : round.recv = some all) (hbytes : bytes = all.take n) (hne : bytes ≠ []) :
    delivered (round :: rounds) = all ++ delivered rounds := by
  cases all with
  | nil => exact absurd (hbytes.trans List.take_nil) hne
  | cons b all => simp [delivered, hready, hrecv]

/-- What the buffer has room for, of the bytes of a round and of those behind them. -/
theorem take_room {size : Nat} {text all more : List UInt8} (hle : text.length ≤ size) :
    text ++ all.take (size - text.length) ++
        more.take (size - (text ++ all.take (size - text.length)).length) =
      text ++ (all ++ more).take (size - text.length) := by
  rw [List.append_assoc, List.take_append]
  congr 3
  rw [List.length_append, List.length_take]
  omega

theorem Exchange.Unmoved.step (hreject : Rejecting P I) (he : e.Unmoved P I (round :: rounds))
    (hstep : e.step round = some (e', sent)) : e'.Unmoved P I rounds := by
  obtain ⟨flags, progress, http⟩ := e
  obtain ⟨hhttp, hsend, text, hprogress, hle, hquiet⟩ := he
  dsimp only at hhttp hsend hprogress hquiet
  subst hprogress
  by_cases hselect : flags.isSelect = true
  · cases hround : round.select with
    | error =>
        simp only [Exchange.step, hselect, if_true, hround] at hstep
        cases hstep
        exact ⟨hhttp, rfl, text, rfl, hle, fun h => absurd h Bool.false_ne_true⟩
    | timeout =>
        simp only [Exchange.step, hselect, if_true, hround] at hstep
        cases hstep
        exact ⟨hhttp, rfl, text, rfl, hle, fun h => absurd h Bool.false_ne_true⟩
    | ready =>
        cases hrecv : flags.isRecv with
        | false =>
            simp only [Exchange.step, hselect, if_true, hround, hrecv, Bool.false_eq_true,
              if_false] at hstep
            cases hstep
            exact ⟨hhttp, rfl, text, rfl, hle, fun _ h => absurd h Bool.false_ne_true⟩
        | true =>
            have hquiet := hquiet hselect hrecv
            simp only [Exchange.step, hselect, if_true, hround, hrecv] at hstep
            rcases receives_cases text.length round.recv with
              ⟨bytes, hne, heq, all, hall, hbytes⟩ | ⟨-, hnothing⟩
            · have hpos : (0 : Int) < bytes.length :=
                Int.natCast_pos.mpr (List.length_pos_iff.mpr hne)
              have hmore : ∀ k, P (text ++ bytes ++ (delivered (rounds.take k)).take
                  (workeraaWorkRecvBufferSizeDefault - (text ++ bytes).length)) := by
                intro k
                have hnext := hquiet (k + 1)
                rw [List.take_succ_cons, delivered_ready hround hall hbytes hne] at hnext
                rw [hbytes, take_room hle]
                exact hnext
              have hnow : P (text ++ bytes) := by simpa [delivered] using hmore 0
              obtain ⟨hfail, hkeep⟩ := hreject http (text ++ bytes) hhttp hnow
              simp only [heq, hpos, if_true, heard, hfail, Bool.false_eq_true, if_false] at hstep
              cases hstep
              refine ⟨hkeep, rfl, text ++ bytes, rfl, ?_, fun _ _ => hmore⟩
              rw [hbytes, List.length_append, List.length_take]
              omega
            · simp only [receives_nothing hnothing, if_false] at hstep
              cases hstep
              refine ⟨hhttp, recvFlags_isSend .., text, rfl, hle, fun _ h => ?_⟩
              rw [recvFlags_isRecv, hsend] at h
              cases h
  · rw [Exchange.step, if_neg hselect] at hstep
    cases hstep

private theorem Follows.unmoved {w' : SocketaaWorker} (hreject : Rejecting P I) (hw : Follows w e)
    (he : e.Unmoved P I rounds) (hrun : runEvents SocketaaWorker.step w rounds = some w') :
    ∃ e', Follows w' e' ∧ e'.Unmoved P I [] := by
  induction rounds generalizing w e with
  | nil =>
      cases hrun
      exact ⟨e, hw, he⟩
  | cons round rounds ih =>
      rw [runEvents] at hrun
      rcases hw.step round with ⟨-, hend⟩ | ⟨e₁, w₁, hstep, hstep', hw₁⟩
      · rw [SocketaaWorker.step_of_ended hend] at hrun
        cases hrun
      · rw [hstep', Option.bind_some] at hrun
        exact ih hw₁ (he.step hreject hstep) hrun

/-- The worker takes its next connection with nothing received, and a request that keeps `I`. -/
def Reusable (I : Http11Http → Prop) (s : Memory × Option WorkeraaHttp) : Prop :=
  ∃ http, I http ∧ Follows (connect s.1 s.2) (.start http)

/-- The next connection begins as the first one did. -/
theorem Reusable.serve (hreject : Rejecting P I) (hs : Reusable I s) (hhears : Hears P rounds)
    (hserve : serve s rounds = some s') : Reusable I s' := by
  obtain ⟨http, hhttp, hs⟩ := hs
  obtain ⟨w, hrun, hend⟩ := Option.bind_eq_some_iff.mp hserve
  obtain ⟨e, hw, he⟩ := hs.unmoved hreject
    ⟨hhttp, rfl, [], rfl, Nat.zero_le _, fun _ _ => hhears⟩ hrun
  obtain ⟨hkeep, -, text, hprogress, -, -⟩ := he
  obtain ⟨flags, progress, http'⟩ := e
  dsimp only at hkeep hprogress
  subst hprogress
  split at hend
  · cases hend
  · cases hend
    exact ⟨_, hw.2.1.symm ▸ hkeep, hw.2.2.2.connect⟩

theorem Reusable.run (hreject : Rejecting P I) (hs : Reusable I s)
    (hrun : GuardedRun Httpaa.serve (fun _ rounds => Hears P rounds) s history s') :
    Reusable I s' :=
  hrun.invariant (Reusable I) (fun _ _ _ hs hhears hserve => hs.serve hreject hhears hserve) hs

end Rejecting

/-! ### What an old request does not decide -/

/-- All but the request is the same. -/
def Exchange.Same (e e' : Exchange) : Prop := e.flags = e'.flags ∧ e.progress = e'.progress

private theorem heard_same (flags : SocketaaWorkFlags) (http http' : Http11Http)
    (text : List UInt8) :
    (heard flags http text).Same (heard flags http' text) := by
  rw [heard, heard]
  by_cases hok : (Text.parseRequestHeaders text).ok = true
  · have hmethod := writeAll_method (Text.parseRequestHeaders_method hok) http http'
      (bufferOf text.length) (bufferOf text.length)
    simp only [hok, if_true, hmethod]
    split <;> exact ⟨rfl, rfl⟩
  · simp only [hok, Bool.false_eq_true, if_false]
    exact ⟨rfl, rfl⟩

theorem Exchange.Same.step (he : e.Same e') (round : Round) :
    (e.step round = none ∧ e'.step round = none) ∨ ∃ e₁ e₁' sent,
      e.step round = some (e₁, sent) ∧ e'.step round = some (e₁', sent) ∧ e₁.Same e₁' := by
  obtain ⟨flags, progress, http⟩ := e
  obtain ⟨flags', progress', http'⟩ := e'
  obtain ⟨hflags, hprogress⟩ := he
  dsimp only at hflags hprogress
  subst hflags hprogress
  by_cases hselect : flags.isSelect = true
  · right
    simp only [Exchange.step, hselect, if_true]
    cases round.select with
    | error => exact ⟨_, _, _, rfl, rfl, rfl, rfl⟩
    | timeout => exact ⟨_, _, _, rfl, rfl, rfl, rfl⟩
    | ready =>
        cases progress with
        | listening text =>
            dsimp only
            split
            · split
              · exact ⟨_, _, _, rfl, rfl, heard_same _ _ _ _⟩
              · exact ⟨_, _, _, rfl, rfl, rfl, rfl⟩
            · exact ⟨_, _, _, rfl, rfl, rfl, rfl⟩
        | ignoring count =>
            dsimp only
            split
            · split
              · exact ⟨_, _, _, rfl, rfl, rfl, rfl⟩
              · exact ⟨_, _, _, rfl, rfl, rfl, rfl⟩
            · exact ⟨_, _, _, rfl, rfl, rfl, rfl⟩
        | sending sent => exact ⟨_, _, _, rfl, rfl, rfl, rfl⟩
  · left
    exact ⟨by rw [Exchange.step, if_neg hselect], by rw [Exchange.step, if_neg hselect]⟩

theorem Exchange.Same.run (he : e.Same e') (rounds : List Round) :
    (e.run rounds).1.Same (e'.run rounds).1 ∧ (e.run rounds).2 = (e'.run rounds).2 := by
  induction rounds generalizing e e' with
  | nil => exact ⟨he, rfl⟩
  | cons round rounds ih =>
      rw [Exchange.run, Exchange.run]
      rcases he.step round with ⟨hstep, hstep'⟩ | ⟨e₁, e₁', sent, hstep, hstep', he₁⟩
      · simp only [hstep, hstep', Option.elim_none, and_true]
        exact he
      · simp only [hstep, hstep', Option.elim_some]
        exact ⟨(ih he₁).1, congrArg _ (ih he₁).2⟩

/-! ### Connections that leave a header -/

private theorem workeraaHttpRecv_isHeaderRecv {h h' : Heap} {worker worker' : WorkeraaHttp}
    {flags flags' : SocketaaWorkFlags} {isFunc : Int} (hworker : worker.isHeaderRecv = true)
    (hrecv : workeraaHttpRecv h worker flags = some (isFunc, h', worker', flags')) :
    worker'.isHeaderRecv = true := by
  simp only [workeraaHttpRecv, workeraaHttpHeader, hworker, Bool.true_eq_false, if_false,
    Option.bind_eq_bind, Option.pure_def, Option.bind_some, if_true] at hrecv
  obtain ⟨⟨isSet, h₁, worker₁⟩, hmethod, hrecv⟩ := Option.bind_eq_some_iff.mp hrecv
  cases hrecv
  rw [workeraaHttpMethod] at hmethod
  split at hmethod
  · obtain ⟨⟨isSet', h₂, http⟩, -, hmethod⟩ := Option.bind_eq_some_iff.mp hmethod
    cases hmethod
    exact hworker
  · cases hmethod
    exact hworker

private theorem SocketaaWorker.step_isHeaderRecv {w' : SocketaaWorker}
    (hw : w.http.isHeaderRecv = true) (hstep : w.step round = some w') :
    w'.http.isHeaderRecv = true := by
  have hselect : w.flags.isSelect = true := by
    by_contra hselect
    rw [step_of_ended (Bool.eq_false_iff.mpr hselect)] at hstep
    cases hstep
  by_cases hready : round.select = .ready
  · cases hsend : w.flags.isSend with
    | true =>
        rw [step_send hselect hready hsend] at hstep
        cases hstep
        rw [(socketaaWorkerCheckSend_http _ _).2.1, (send_keeps _ _).2.2,
          (sendData_keeps _).2]
        exact hw
    | false =>
        cases hrecv : w.flags.isRecv with
        | false =>
            rw [step_idle hselect hready hsend hrecv] at hstep
            cases hstep
            exact hw
        | true =>
            rw [step_recv hselect hready hsend hrecv] at hstep
            have hhttp : (w.selecting.recv round.recv).2.http.isHeaderRecv = true := by
              rw [(recv_eq _ _).2.2.1]
              exact hw
            rw [socketaaWorkerCheckRecv] at hstep
            split at hstep
            · obtain ⟨⟨isFunc, h', worker', flags'⟩, hfunc, hstep⟩ :=
                Option.bind_eq_some_iff.mp hstep
              have hworker' := workeraaHttpRecv_isHeaderRecv hhttp hfunc
              dsimp only at hstep
              split at hstep <;> cases hstep <;> exact hworker'
            · split at hstep
              · cases hstep
                exact hhttp
              · split at hstep
                · cases hstep
                  exact hhttp
                · split at hstep <;> cases hstep <;> exact hhttp
  · obtain ⟨w₁, hstep₁, -, hhttp, -⟩ := step_unready hselect hready
    cases hstep₁.symm.trans hstep
    rw [hhttp]
    exact hw

private theorem SocketaaWorker.after_isHeaderRecv (hw : w.http.isHeaderRecv = true)
    (rounds : List Round) :
    (w.after rounds).http.isHeaderRecv = true := by
  induction rounds generalizing w with
  | nil => exact hw
  | cons round rounds ih =>
      rw [SocketaaWorker.after]
      cases hstep : w.step round with
      | none => exact hw
      | some w' => exact ih (step_isHeaderRecv hw hstep)

private theorem SocketaaWorker.run_isHeaderRecv {w' : SocketaaWorker}
    (hw : w.http.isHeaderRecv = true) (hrun : runEvents SocketaaWorker.step w rounds = some w') :
    w'.http.isHeaderRecv = true :=
  (run_iff_runEvents.mpr hrun).invariant (fun w => w.http.isHeaderRecv = true)
    (fun _ _ _ hw _ hstep => step_isHeaderRecv hw hstep) hw

private theorem connect_stale (m : Memory) {worker : WorkeraaHttp}
    (hworker : worker.isHeaderRecv = true) (rounds : List Round) :
    ((connect m (some worker)).observed rounds).isHeaderRecv = true :=
  SocketaaWorker.after_isHeaderRecv (w := connect m (some worker)) hworker rounds

/-- A header has been found on an earlier connection. -/
def Stale (s : Memory × Option WorkeraaHttp) : Prop :=
  ∃ worker, s.2 = some worker ∧ worker.isHeaderRecv = true

theorem Stale.serve (hs : Stale s) (hserve : serve s rounds = some s') : Stale s' := by
  obtain ⟨worker, hworker, hheader⟩ := hs
  obtain ⟨w, hrun, hend⟩ := Option.bind_eq_some_iff.mp hserve
  rw [hworker] at hrun
  split at hend
  · cases hend
  · cases hend
    exact ⟨w.http, rfl, SocketaaWorker.run_isHeaderRecv hheader hrun⟩

private theorem delivered_nothing (hready : round.select = .ready)
    (hnothing : ¬ 0 < (receives text.length round.recv).1) :
    (delivered (round :: rounds)).take (workeraaWorkRecvBufferSizeDefault - text.length) = [] := by
  by_cases hroom : text.length < workeraaWorkRecvBufferSizeDefault
  · cases hrecv : round.recv with
    | none => simp [delivered, hready, hrecv]
    | some all =>
        cases all with
        | nil => simp [delivered, hready, hrecv]
        | cons b bytes =>
            obtain ⟨n, hn⟩ := Nat.exists_eq_add_of_lt hroom
            have hmore : workeraaWorkRecvBufferSizeDefault - text.length = n + 1 := by omega
            refine absurd ?_ hnothing
            simp only [receives, hrecv, hroom, if_true, hmore, List.take_succ_cons,
              List.cons_ne_nil, if_false, List.length_cons]
            omega
  · rw [Nat.sub_eq_zero_of_le (Nat.le_of_not_lt hroom), List.take_zero]

private theorem heard_accepted (flags : SocketaaWorkFlags) (http : Http11Http)
    (haccept : ¬ Rejected text) :
    (heard flags http text).progress.isHeaderRecv = true := by
  have hok : (Text.parseRequestHeaders text).ok = true := Bool.not_eq_false _ ▸ haccept
  simp only [heard, hok, if_true]
  split <;> rfl

private theorem Follows.rejected {w' : SocketaaWorker} {flags : SocketaaWorkFlags}
    {http : Http11Http} (hw : Follows w ⟨flags, .listening text, http⟩)
    (hle : text.length ≤ workeraaWorkRecvBufferSizeDefault) (hrecv : flags.isRecv = true)
    (hrun : runEvents SocketaaWorker.step w rounds = some w') (hend : w'.http.isHeaderRecv = false)
    (hnow : Rejected text) (k : Nat) :
    Rejected (text ++ (delivered (rounds.take k)).take
      (workeraaWorkRecvBufferSizeDefault - text.length)) := by
  induction rounds generalizing w flags text http k with
  | nil => simpa [delivered] using hnow
  | cons round rounds ih =>
      cases k with
      | zero => simpa [delivered] using hnow
      | succ k =>
          rw [List.take_succ_cons]
          rw [runEvents] at hrun
          rcases hw.step round with ⟨-, hended⟩ | ⟨e₁, w₁, hstep, hstep', hw₁⟩
          · rw [SocketaaWorker.step_of_ended hended] at hrun
            cases hrun
          rw [hstep', Option.bind_some] at hrun
          have hselect : flags.isSelect = true := by
            by_contra hselect
            rw [Exchange.step, if_neg hselect] at hstep
            cases hstep
          cases hround : round.select with
          | error => simpa [delivered, hround] using hnow
          | timeout => simpa [delivered, hround] using hnow
          | ready =>
              rcases receives_cases text.length round.recv with
                ⟨bytes, hne, heq, all, hall, hbytes⟩ | ⟨-, hnothing⟩
              · have hpos : (0 : Int) < bytes.length :=
                  Int.natCast_pos.mpr (List.length_pos_iff.mpr hne)
                rw [delivered_ready hround hall hbytes hne, ← take_room hle, ← hbytes]
                simp only [Exchange.step, hselect, if_true, hround, hrecv, heq, hpos] at hstep
                obtain ⟨rfl, -⟩ := Prod.mk.inj (Option.some.inj hstep)
                have hheader : Rejected (text ++ bytes) := by
                  by_contra haccept
                  have hfound := hw₁.isHeaderRecv.trans (heard_accepted _ _ haccept)
                  have hkept := SocketaaWorker.run_isHeaderRecv hfound hrun
                  exact Bool.false_ne_true (hend.symm.trans hkept)
                have hfail : (Text.parseRequestHeaders (text ++ bytes)).ok = false := hheader
                simp only [heard, hfail, Bool.false_eq_true, if_false] at hw₁
                refine ih hw₁ ?_ rfl hrun hheader k
                rw [hbytes, List.length_append, List.length_take]
                omega
              · rw [delivered_nothing hround (receives_nothing hnothing), List.append_nil]
                exact hnow

private theorem rejecting_rejected : Rejecting Rejected fun _ => True :=
  fun _ _ _ hfail => ⟨hfail, trivial⟩

private theorem Reusable.rejected {I : Http11Http → Prop} (hs : Reusable I s)
    (hserve : Httpaa.serve s rounds = some s') : Hears Rejected rounds ∨ Stale s' := by
  obtain ⟨http, -, hs⟩ := hs
  obtain ⟨w, hrun, hend⟩ := Option.bind_eq_some_iff.mp hserve
  split at hend
  · cases hend
  · cases hend
    cases hheader : w.http.isHeaderRecv with
    | true => exact .inr ⟨w.http, rfl, hheader⟩
    | false =>
        have hnil : Rejected [] := rfl
        exact .inl (hs.rejected (Nat.zero_le _) rfl hrun hheader hnil)

private theorem Reusable.run_rejected (hs : Reusable (fun _ => True) s)
    (hrun : Run Httpaa.serve s history s') :
    (∀ rounds ∈ history, Hears Rejected rounds) ∨ Stale s' := by
  induction hrun with
  | nil s => exact .inl fun _ h => absurd h List.not_mem_nil
  | cons _ hserve hrest ih =>
      rcases hs.rejected hserve with hrejected | hstale
      · have hrest := ih (hs.serve rejecting_rejected hrejected hserve)
        exact hrest.imp_left fun h => List.forall_mem_cons.mpr ⟨hrejected, h⟩
      · exact .inr (hrest.invariant Stale (fun _ _ _ hs _ hserve => hs.serve hserve) hstale)

/-! ### The next connection -/

private theorem observed_agrees
    (hrun : GuardedRun serve (fun _ rounds => Hears Rejected rounds) (m, none) history s)
    (rounds : List Round) :
    ((connect s.1 s.2).observed rounds).Agrees ((connect m₀ none).observed rounds) := by
  have hfirst : Reusable (fun _ => True) (m, none) := ⟨{}, trivial, connect_none m⟩
  obtain ⟨http, -, hstart⟩ := hfirst.run rejecting_rejected hrun
  have hsame : (Exchange.start http).Same (.start {}) := ⟨rfl, rfl⟩
  obtain ⟨⟨hflags, hprogress⟩, hsent⟩ := hsame.run rounds
  rw [hstart.observed, (connect_none m₀).observed]
  exact ⟨congrArg Progress.isHeaderRecv hprogress, hflags, hsent⟩

private theorem observed_eq
    (hrun : GuardedRun serve (fun _ rounds => Hears Untouched rounds) (m, none) history s)
    (rounds : List Round) :
    (connect s.1 s.2).observed rounds = (connect m₀ none).observed rounds := by
  have hreject : Rejecting Untouched fun http => http = {} := by
    rintro http text rfl huntouched
    exact huntouched
  have hfirst : Reusable (fun http => http = {}) (m, none) := ⟨{}, rfl, connect_none m⟩
  obtain ⟨http, rfl, hstart⟩ := hfirst.run hreject hrun
  rw [hstart.observed, (connect_none m₀).observed]

/-- What a worker does on the next connection is what a new worker does if and only if no request
has been accepted on the connections before. The fields of the request are those that a new worker
has, too, if they have been left as they were. -/
theorem workeraaHttpInit_observed (hrun : Run serve (m, none) history s) :
    ((∀ rounds,
        ((connect s.1 s.2).observed rounds).Agrees ((connect m₀ none).observed rounds)) ↔
      ∀ rounds ∈ history, Hears Rejected rounds) ∧
    ((∀ rounds ∈ history, Hears Untouched rounds) →
      ∀ rounds, (connect s.1 s.2).observed rounds = (connect m₀ none).observed rounds) := by
  refine ⟨⟨fun hagrees => ?_, fun hrejected => ?_⟩, fun huntouched => ?_⟩
  · have hfirst : Reusable (fun _ => True) (m, none) := ⟨{}, trivial, connect_none m⟩
    refine (hfirst.run_rejected hrun).resolve_right ?_
    rintro ⟨worker, hworker, hheader⟩
    -- not a byte is needed to see it
    have hstale := connect_stale s.1 hheader []
    rw [← hworker, (hagrees []).1] at hstale
    cases hstale
  · exact observed_agrees (.of_forall hrun hrejected)
  · exact observed_eq (.of_forall hrun huntouched)

def strayRounds : List Round := [⟨.ready, some [0x78], none⟩, ⟨.timeout, none, none⟩]

def requestRounds : List Round :=
  [⟨.ready, some (literal "GET / HTTP/1.1\r\n\r\n"), none⟩, ⟨.timeout, none, none⟩]

private theorem strayRounds_untouched : Hears Untouched strayRounds := by
  have hbyte : Untouched [0x78] := by
    have hnotes : (Text.parseRequestHeaders [0x78]).notes = [] := by decide +kernel
    exact ⟨by decide +kernel, by rw [hnotes]; rfl⟩
  intro k
  rcases k with _ | _ | k
  · exact ⟨rfl, rfl⟩
  · exact hbyte
  · exact hbyte

/-- A stray byte on the first connection, and a request on the second. -/
theorem workeraaHttpInit_observed_stray :
    ∃ s, Run serve (⟨.ofText [], []⟩, none) [strayRounds] s ∧
      (connect s.1 s.2).observed requestRounds =
        (connect ⟨.ofText [], []⟩ none).observed requestRounds := by
  have hends : (serve (⟨.ofText [], []⟩, none) strayRounds).isSome = true := by decide +kernel
  obtain ⟨s, hserve⟩ := Option.isSome_iff_exists.mp hends
  have hrun : Run serve (⟨.ofText [], []⟩, none) [strayRounds] s := .cons trivial hserve (.nil _)
  refine ⟨s, hrun, (workeraaHttpInit_observed hrun).2 ?_ requestRounds⟩
  exact List.forall_mem_singleton.mpr strayRounds_untouched

/-- A request on the first connection, and a stray byte on the second, which is answered. -/
theorem workeraaHttpInit_reused : ¬ ∀ (m m₀ : Memory) (history : List (List Round))
    (s : Memory × Option WorkeraaHttp) (rounds : List Round),
    Run serve (m, none) history s →
      ((connect s.1 s.2).observed rounds).Agrees ((connect m₀ none).observed rounds) := by
  intro hclaim
  -- the first connection as an exchange, up to the header
  have hexchange : ((Exchange.start {}).step ⟨.ready, some (literal "GET / HTTP/1.1\r\n\r\n"),
      none⟩).map (fun s => (s.1.flags, s.1.progress)) =
        some ({ isSelect := true, isSend := true }, .sending 0) := by decide +kernel
  obtain ⟨⟨e₁, sent⟩, he₁, hparts⟩ := Option.map_eq_some_iff.mp hexchange
  obtain ⟨hflags₁, hprogress₁⟩ := Prod.mk.inj hparts
  rcases (connect_none ⟨.ofText [], []⟩).step ⟨.ready,
    some (literal "GET / HTTP/1.1\r\n\r\n"), none⟩ with ⟨hnone, -⟩ | ⟨e, w₁, he, hw₁, hfollows⟩
  · cases he₁.symm.trans hnone
  cases he₁.symm.trans he
  have hselect₁ : w₁.flags.isSelect = true := by rw [hfollows.1, hflags₁]
  have hheader₁ : w₁.http.isHeaderRecv = true := by
    rw [hfollows.isHeaderRecv, hprogress₁]
    rfl
  have hunready : (⟨.timeout, none, none⟩ : Round).select ≠ .ready := by decide
  obtain ⟨w₂, hw₂, -, hhttp₂, hflags₂⟩ := SocketaaWorker.step_unready hselect₁ hunready
  have hserve : serve (⟨.ofText [], []⟩, none) requestRounds = some (w₂.memory, some w₂.http) := by
    simp [serve, requestRounds, runEvents, hw₁, hw₂, hflags₂]
  have hsame := hclaim _ ⟨.ofText [], []⟩ _ _ strayRounds (.cons trivial hserve (.nil _))
  have hstale := connect_stale w₂.memory (hhttp₂ ▸ hheader₁) strayRounds
  rw [hsame.1] at hstale
  exact absurd hstale (by decide +kernel)

end Httpaa
