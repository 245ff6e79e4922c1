import Httpaa.Http.Seeking
import Httpaa.Strings.Append
import Httpaa.Worker.Socket

/-!
# The response on its way

What `send` takes in one round after the other. The response is made in front of the first call of
`send`, and from then on the read position says how much of it has been taken.
-/

namespace Httpaa

open Traced Transition

def responseText : List UInt8 := responseTexts.flatten

/-- The bytes that `send` takes in a round, from the read position on. -/
def SocketaaWorker.accepted (w : SocketaaWorker) (round : Round) : List UInt8 :=
  if w.flags.isSelect ∧ round.select = .ready ∧ w.flags.isSend then
    let w := w.selecting.sendData
    ((content w.memory w.http.response).drop w.http.response.readPos).take
      (w.send round.send).1.toNat
  else []

/-- The bytes that `send` takes in all rounds. -/
def SocketaaWorker.transmitted : SocketaaWorker → List Round → List UInt8
  | _, [] => []
  | w, round :: rounds =>
      w.accepted round ++ (w.step round).elim [] fun w' => w'.transmitted rounds

/-- The loop ends in this round since no bytes are left to send. -/
def SocketaaWorker.SendsNothing (w : SocketaaWorker) (round : Round) : Prop :=
  w.flags.isSelect = true ∧ round.select = .ready ∧ w.flags.isSend = true ∧
    (w.selecting.sendData.send round.send).1 = 0

/-- A string that can be written: it is initialised, and has room for its terminator. -/
structure Writable (s : Stringaa) : Prop where
  isInit : s.isInit = true
  empty : s.buf = none → s.bufSize = 0
  room : s.isNullTerminated.toNat ≤ s.bufSize

variable {m : Memory} {s : Stringaa} {w w' : SocketaaWorker} {round : Round} {rounds : List Round}
  {sent : List UInt8} {text : List UInt8} {texts : List (List UInt8)}

/-! ### The response is made -/

def addLiterals (m : Memory) (s : Stringaa) (texts : List (List UInt8)) : Memory × Stringaa :=
  texts.foldl (fun (m, s) text => stringaaAddLiteral m s text) (m, s)

private theorem addLiterals_cursors (hinit : s.isInit = true ∨ s.writePos = 0)
    (hread : s.readPos = 0) (hfull : s.writePos < s.bufSize ∨ s.writePos = 0)
    (htexts : ∀ text ∈ texts, text ≠ []) :
    let t := (addLiterals m s texts).2
    t.readPos = 0 ∧ t.writePos = s.writePos + texts.flatten.length ∧
      (t.writePos < t.bufSize ∨ t.writePos = 0) := by
  induction texts generalizing m s with
  | nil => exact ⟨hread, rfl, hfull⟩
  | cons text texts ih =>
      obtain ⟨hinit', hread', hpos, hfull'⟩ := stringaaAddLiteral_cursors (m := m)
        (htexts text (List.mem_cons_self ..)) hinit hfull
      obtain ⟨hread'', hpos', hfull''⟩ := ih (.inl hinit') hread' (.inl hfull')
        fun text htext => htexts text (List.mem_cons_of_mem _ htext)
      refine ⟨hread'', hpos'.trans ?_, hfull''⟩
      rw [hpos, List.flatten_cons, List.length_append, Nat.add_assoc]

private theorem addLiterals_content (hinit : s.isInit = true)
    (hempty : s.buf = none → s.bufSize = 0)
    (hroom : s.writePos + s.isNullTerminated.toNat ≤ s.bufSize)
    (hfull : s.writePos < s.bufSize ∨ s.bufSize = 0) (htexts : ∀ text ∈ texts, text ≠ []) :
    content (addLiterals m s texts).1 (addLiterals m s texts).2 = content m s ++ texts.flatten := by
  induction texts generalizing m s with
  | nil => exact (List.append_nil _).symm
  | cons text texts ih =>
      have htext := htexts text (List.mem_cons_self ..)
      obtain ⟨hinit', -, -, hfull'⟩ := stringaaAddLiteral_cursors (m := m) (s := s) htext
        (.inl hinit) (by omega)
      obtain ⟨hcontent, p, hbuf⟩ := stringaaAddLiteral_content
        (m := m) hinit hempty hroom hfull htext
      have hnull := Bool.toNat_le (stringaaAddLiteral m s text).2.isNullTerminated
      have hrest := ih (m := (stringaaAddLiteral m s text).1) hinit'
        (fun hnone => by cases hbuf.symm.trans hnone) (by omega) (.inl hfull')
        fun text htext => htexts text (List.mem_cons_of_mem _ htext)
      refine hrest.trans ?_
      rw [hcontent, List.flatten_cons, List.append_assoc]

private theorem addLiterals_clean_cursors (m : Memory) (s : Stringaa)
    (htexts : ∀ text ∈ texts, text ≠ []) (hne : texts.flatten ≠ []) :
    let t := (addLiterals m (stringaaClean s) texts).2
    t.readPos = 0 ∧ t.writePos = texts.flatten.length ∧ t.writePos < t.bufSize := by
  obtain ⟨hread, hpos, hfull⟩ :=
    addLiterals_cursors (m := m) (s := stringaaClean s) (.inr rfl) rfl (.inr rfl) htexts
  have hstart : (stringaaClean s).writePos = 0 := rfl
  have hlength := List.length_pos_iff.mpr hne
  rw [hstart, Nat.zero_add] at hpos
  exact ⟨hread, hpos, hfull.resolve_right (by omega)⟩

private theorem addLiterals_clean_content (hs : Writable s) (htexts : ∀ text ∈ texts, text ≠ []) :
    content (addLiterals m (stringaaClean s) texts).1 (addLiterals m (stringaaClean s) texts).2 =
      texts.flatten := by
  have hstart : content m (stringaaClean s) = [] := by
    simp [content, stringaaClean, stringaaBeginWritePos, stringaaBeginReadPos]
  have hadd := addLiterals_content (m := m) (s := stringaaClean s) hs.isInit hs.empty
    ((Nat.zero_add _).trans_le hs.room) (Nat.eq_zero_or_pos s.bufSize).symm htexts
  rwa [hstart, List.nil_append] at hadd

theorem workeraaHttpCreateResponse_eq (m : Memory) (s : Stringaa) :
    workeraaHttpCreateResponse m s = addLiterals m (stringaaClean s) responseTexts := rfl

private theorem literal_ne_nil {s : String} (hs : s ≠ "") : literal s ≠ [] := by
  simpa [literal] using hs

theorem responseTexts_ne_nil : ∀ text ∈ responseTexts, text ≠ [] := by
  simp [responseTexts, entityBody, literal_ne_nil]

theorem responseText_ne_nil : responseText ≠ [] := by
  intro hnil
  have hmem : entityBody ∈ responseTexts := by simp [responseTexts]
  exact responseTexts_ne_nil _ hmem (List.flatten_eq_nil_iff.mp hnil _ hmem)

theorem workeraaHttpCreateResponse_cursors (m : Memory) (s : Stringaa) :
    (workeraaHttpCreateResponse m s).2.readPos = 0 ∧
      (workeraaHttpCreateResponse m s).2.writePos = responseText.length ∧
      (workeraaHttpCreateResponse m s).2.writePos < (workeraaHttpCreateResponse m s).2.bufSize := by
  rw [workeraaHttpCreateResponse_eq, responseText]
  exact addLiterals_clean_cursors m s responseTexts_ne_nil responseText_ne_nil

private theorem workeraaHttpCreateResponse_content (hs : Writable s) :
    content (workeraaHttpCreateResponse m s).1 (workeraaHttpCreateResponse m s).2 =
      responseText := by
  rw [workeraaHttpCreateResponse_eq, responseText]
  exact addLiterals_clean_content hs responseTexts_ne_nil

/-! ### What a round keeps -/

/-- The response is made and stands in memory, and what has been sent is what is in front of the
read position. -/
structure SocketaaWorker.Sending (w : SocketaaWorker) (sent : List UInt8) : Prop where
  isHeaderSend : w.http.isHeaderSend = true
  content : Traced.content w.memory w.http.response = responseText
  room : w.http.response.writePos < w.http.response.bufSize
  sent : sent = responseText.take w.http.response.readPos
  readPos : w.http.response.readPos ≤ responseText.length

/-- Nothing has been sent yet, and the response can be made. -/
structure SocketaaWorker.Waiting (w : SocketaaWorker) (sent : List UInt8) : Prop where
  isHeaderSend : w.http.isHeaderSend = false
  response : Writable w.http.response
  sent : sent = []

/-- Once the response is made, a loop that goes on waits to send. -/
def SocketaaWorker.Transmits (w : SocketaaWorker) (sent : List UInt8) : Prop :=
  w.Waiting sent ∨ (w.Sending sent ∧ (w.flags.isSelect = true → w.flags.isSend = true))

theorem SocketaaWorker.Sending.writePos (hw : w.Sending sent) :
    w.http.response.writePos = responseText.length := by
  rw [← hw.content, content_length]

theorem SocketaaWorker.sendData_memory :
    w.sendData.memory = (workeraaHttpSend w.memory w.http).2.1 := by
  rw [SocketaaWorker.sendData]
  dsimp only
  split <;> rfl

private theorem SocketaaWorker.sendData_sending (hw : w.Waiting sent ∨ w.Sending sent) :
    w.sendData.Sending sent := by
  have hmemory := sendData_memory (w := w)
  have hhttp := (sendData_eq (w := w)).2.2
  rcases hw with hw | hw
  · simp only [workeraaHttpSend, if_pos hw.isHeaderSend] at hmemory hhttp
    obtain ⟨hread, hpos, hroom⟩ := workeraaHttpCreateResponse_cursors w.memory w.http.response
    refine ⟨by rw [hhttp], ?_, ?_, ?_, ?_⟩
    · rw [hhttp, hmemory]
      exact workeraaHttpCreateResponse_content hw.response
    · rw [hhttp]
      simp only [hroom]
    · rw [hhttp, hw.sent]
      simp only [hread, List.take_zero]
    · rw [hhttp]
      simp only [hread, Nat.zero_le]
  · have hmade : ¬ w.http.isHeaderSend = false := by simp [hw.isHeaderSend]
    simp only [workeraaHttpSend, if_neg hmade] at hmemory hhttp
    exact ⟨hhttp ▸ hw.isHeaderSend, by rw [hhttp, hmemory, hw.content], hhttp ▸ hw.room,
      hhttp ▸ hw.sent, hhttp ▸ hw.readPos⟩

/-- Nothing is left to send, or `send` takes nothing and returns so, or it takes some of what is
offered. -/
theorem SocketaaWorker.send_cases (w : SocketaaWorker) (result : Option Nat) :
    (w.sends = false ∧ w.send result = (0, w)) ∨
    (w.sends = true ∧ result = none ∧ w.send result = (socketaaSocketError, w.call .send)) ∨
    (w.sends = true ∧ result = some 0 ∧
      w.send result = (socketaaErrorSendShutdown, w.call .send)) ∨
    ∃ n k : Nat, result = some k ∧ 0 < n ∧ n ≤ k ∧
      w.http.response.readPos + n ≤ w.http.response.writePos ∧
      w.send result = ((n : Int), { w.call .send with
        http := { w.http with
          response := w.http.response.seek (w.http.response.readPos + n) } }) := by
  cases hsends : w.sends with
  | false => exact .inl ⟨rfl, by rw [SocketaaWorker.send, hsends]; rfl⟩
  | true =>
      have hmore : w.http.response.readPos < w.http.response.writePos :=
        (of_decide_eq_true hsends).2
      cases result with
      | none => exact .inr (.inl ⟨rfl, rfl, by rw [SocketaaWorker.send, hsends]; rfl⟩)
      | some n =>
          by_cases hn : n = 0
          · exact .inr (.inr (.inl ⟨rfl, congrArg some hn, by
              simp [SocketaaWorker.send, hsends, hn]⟩))
          · refine .inr (.inr (.inr ⟨min n (w.http.response.writePos - w.http.response.readPos), n,
              rfl, by omega, Nat.min_le_left _ _, by omega, ?_⟩))
            have hne : ¬ min n (w.http.response.writePos - w.http.response.readPos) = 0 := by
              omega
            rw [SocketaaWorker.send, if_pos hsends]
            exact if_neg hne

theorem SocketaaWorker.Transmits.sendData (hw : w.Transmits sent) :
    w.selecting.sendData.Sending sent := by
  refine sendData_sending (hw.imp (fun h => ⟨h.isHeaderSend, h.response, h.sent⟩) fun h => ?_)
  exact ⟨h.1.isHeaderSend, h.1.content, h.1.room, h.1.sent, h.1.readPos⟩

/-- `send` takes what is behind the read position, and the read position moves on by as much. -/
theorem SocketaaWorker.Sending.send (hw : w.Sending sent) (result : Option Nat) :
    (w.send result).2.Sending (sent ++ ((Traced.content w.memory w.http.response).drop
      w.http.response.readPos).take (w.send result).1.toNat) ∧
    ((w.send result).1 = 0 → w.http.response.readPos = responseText.length) := by
  have hpos := hw.writePos
  have hread := hw.readPos
  rcases w.send_cases result with ⟨hnone, hsend⟩ | ⟨-, -, hsend⟩ | ⟨-, -, hsend⟩ |
    ⟨n, k, -, hn, -, hle, hsend⟩
  · have hends : ¬ (w.http.response.writePos < w.http.response.bufSize ∧
        w.http.response.readPos < w.http.response.writePos) := of_decide_eq_false hnone
    have hroom := hw.room
    rw [hsend]
    exact ⟨by simpa using hw, fun _ => by omega⟩
  · rw [hsend]
    refine ⟨⟨hw.isHeaderSend, hw.content, hw.room, ?_, hread⟩, fun h =>
      absurd h (by simp [socketaaSocketError])⟩
    simp [socketaaSocketError, hw.sent, SocketaaWorker.call]
  · rw [hsend]
    refine ⟨⟨hw.isHeaderSend, hw.content, hw.room, ?_, hread⟩, fun h =>
      absurd h (by simp [socketaaErrorSendShutdown])⟩
    simp [socketaaErrorSendShutdown, hw.sent, SocketaaWorker.call]
  · rw [hsend]
    refine ⟨⟨hw.isHeaderSend, hw.content, hw.room, ?_, ?_⟩, fun h => ?_⟩
    · rw [hw.content, hw.sent, Int.toNat_natCast]
      exact List.take_add.symm
    · exact hle.trans_eq hpos
    · omega

theorem socketaaWorkerCheckSend_http (w : SocketaaWorker) (bytes : Int) :
    (socketaaWorkerCheckSend w bytes).memory = w.memory ∧
      (socketaaWorkerCheckSend w bytes).http = w.http ∧
      ((socketaaWorkerCheckSend w bytes).flags.isSelect = true →
        (socketaaWorkerCheckSend w bytes).flags.isSend = true) := by
  rw [socketaaWorkerCheckSend]
  dsimp only
  by_cases herror : bytes = socketaaSocketError
  · rw [herror]
    exact ⟨rfl, rfl, fun h => absurd h Bool.false_ne_true⟩
  · rw [if_pos herror]
    refine ⟨?_, ?_, fun _ => rfl⟩
    · split <;> (try split) <;> (try split) <;> rfl
    · split <;> (try split) <;> (try split) <;> rfl

/-- What is received moves the read position of the request, and leaves the response alone. -/
structure WorkeraaHttp.Keeps (worker worker' : WorkeraaHttp) : Prop where
  request : worker.request.Seeks worker'.request
  response : worker'.response = worker.response
  isHeaderSend : worker'.isHeaderSend = worker.isHeaderSend

theorem WorkeraaHttp.Keeps.refl (worker : WorkeraaHttp) : worker.Keeps worker := ⟨.refl _, rfl, rfl⟩

section Recv

variable {h : Heap} {worker worker' : WorkeraaHttp} {flags : SocketaaWorkFlags} {bytes : Int}

private theorem workeraaHttpHeader_keeps :
    Ensures (workeraaHttpHeader h worker) fun r => worker.Keeps r.2 := by
  refine .ite (fun _ => ?_) fun _ => .pure (.refl worker)
  exact .bind (httpaaParseRequestHeaders_seeks _ _ _ (.refl _)) fun r hr => .pure ⟨hr, rfl, rfl⟩

private theorem workeraaHttpMethod_keeps (method : Nat) (hkeeps : worker.Keeps worker') :
    Ensures (workeraaHttpMethod h worker' method) fun r => worker.Keeps r.2.2 := by
  refine .ite (fun _ => ?_) fun _ => .pure hkeeps
  exact .andThen fun r => .pure ⟨hkeeps.request, hkeeps.response, hkeeps.isHeaderSend⟩

private theorem workeraaHttpRecv_keeps :
    Ensures (workeraaHttpRecv h worker flags) fun r => worker.Keeps r.2.2.1 := by
  refine .bind workeraaHttpHeader_keeps fun r hr => .ite (fun _ => ?_) fun _ => .pure hr
  exact .bind (workeraaHttpMethod_keeps _ hr) fun r' hr' => .pure hr'

theorem socketaaWorkerCheckRecv_keeps :
    Ensures (socketaaWorkerCheckRecv w bytes) fun w' => w.http.Keeps w'.http := by
  have hsame : w.http.Keeps w.http := .refl w.http
  refine .ite (fun _ => ?_) fun _ => .ite (fun _ => .pure hsame) fun _ =>
    .ite (fun _ => .pure hsame) fun _ => .ite (fun _ => .pure hsame) fun _ => .pure hsame
  refine .bind workeraaHttpRecv_keeps fun r hr => .pure ?_
  dsimp only
  split
  · exact hr
  · exact hr

end Recv

theorem SocketaaWorker.recv_response (w : SocketaaWorker) (received : Option (List UInt8)) :
    (w.recv received).2.http.response = w.http.response ∧
      (w.recv received).2.http.isHeaderSend = w.http.isHeaderSend := by
  rw [SocketaaWorker.recv]
  dsimp only
  split <;> exact ⟨rfl, rfl⟩

theorem SocketaaWorker.accepted_eq_nil
    (h : round.select ≠ .ready ∨ w.flags.isSend = false) : w.accepted round = [] := by
  rw [SocketaaWorker.accepted, if_neg]
  rintro ⟨-, hready, hsend⟩
  rcases h with h | h
  · exact h hready
  · exact absurd (h.symm.trans hsend) Bool.false_ne_true

theorem SocketaaWorker.Transmits.step (hw : w.Transmits sent) (hstep : w.step round = some w') :
    w'.Transmits (sent ++ w.accepted round) := by
  obtain ⟨hselect, hcases⟩ := step_cases hstep
  -- nothing is sent, and the response is left alone
  have hidle : ∀ w₁ : SocketaaWorker, w₁.memory = w.memory → w₁.http = w.http →
      (w₁.flags.isSelect = true → w₁.flags.isSend = true) → w₁.Transmits sent := by
    intro w₁ hmemory hhttp hflags
    rcases hw with hw | ⟨hw, -⟩
    · exact .inl ⟨hhttp ▸ hw.isHeaderSend, hhttp ▸ hw.response, hw.sent⟩
    · exact .inr ⟨⟨hhttp ▸ hw.isHeaderSend, by rw [hhttp, content_congr (congrArg _ hmemory),
        hw.content], hhttp ▸ hw.room, hhttp ▸ hw.sent, hhttp ▸ hw.readPos⟩, hflags⟩
  rcases hcases with ⟨hround, rfl⟩ | ⟨hround, rfl⟩ | ⟨hround, hsend, rfl⟩ |
    ⟨hround, hsend, -, hcheck⟩ | ⟨hround, hsend, -, rfl⟩
  · rw [accepted_eq_nil (.inl (by simp [hround])), List.append_nil]
    exact hidle _ rfl rfl fun h => absurd h Bool.false_ne_true
  · rw [accepted_eq_nil (.inl (by simp [hround])), List.append_nil]
    exact hidle _ rfl rfl fun h => absurd h Bool.false_ne_true
  · obtain ⟨hmemory, hhttp, hflags⟩ := socketaaWorkerCheckSend_http
      (w.selecting.sendData.send round.send).2 (w.selecting.sendData.send round.send).1
    have hsent := (hw.sendData.send round.send).1
    rw [SocketaaWorker.accepted, if_pos ⟨hselect, hround, hsend⟩]
    refine .inr ⟨⟨hhttp ▸ hsent.isHeaderSend, ?_, hhttp ▸ hsent.room, hhttp ▸ hsent.sent,
      hhttp ▸ hsent.readPos⟩, hflags⟩
    rw [hhttp, content_congr (congrArg _ hmemory), hsent.content]
  · rw [accepted_eq_nil (.inr hsend), List.append_nil]
    have hwait : w.Waiting sent := hw.resolve_right fun h =>
      absurd (hsend.symm.trans (h.2 hselect)) Bool.false_ne_true
    obtain ⟨-, hresponse, hheader⟩ := socketaaWorkerCheckRecv_keeps w' hcheck
    obtain ⟨hresponse', hheader'⟩ := w.selecting.recv_response round.recv
    refine .inl ⟨(hheader.trans hheader').trans hwait.isHeaderSend, ?_, hwait.sent⟩
    rw [hresponse, hresponse']
    exact hwait.response
  · rw [accepted_eq_nil (.inr hsend), List.append_nil]
    have hwait : w.Waiting sent := hw.resolve_right fun h =>
      absurd (hsend.symm.trans (h.2 hselect)) Bool.false_ne_true
    exact .inl ⟨hwait.isHeaderSend, hwait.response, hwait.sent⟩

/-! ### Whole runs -/

theorem SocketaaWorker.Transmits.run (hw : w.Transmits sent)
    (hrun : Run SocketaaWorker.step w rounds w') :
    w'.Transmits (sent ++ w.transmitted rounds) := by
  induction hrun generalizing sent with
  | nil w => simpa [SocketaaWorker.transmitted] using hw
  | @cons w m w' round rounds _ hstep _ ih =>
      have hrest := ih (hw.step hstep)
      rw [List.append_assoc] at hrest
      rw [SocketaaWorker.transmitted, hstep]
      exact hrest

theorem SocketaaWorker.transmitted_snoc (hrun : Run SocketaaWorker.step w rounds w')
    (round : Round) : w.transmitted (rounds ++ [round]) =
      w.transmitted rounds ++ w'.accepted round := by
  induction hrun with
  | nil w =>
      simp only [List.nil_append, SocketaaWorker.transmitted]
      cases w.step round <;> exact List.append_nil _
  | @cons w m w' first rounds _ hstep _ ih =>
      simp only [List.cons_append, SocketaaWorker.transmitted, hstep, Option.elim_some]
      rw [ih, List.append_assoc]

theorem SocketaaWorker.Transmits.isPrefix (hw : w.Transmits sent) : sent <+: responseText := by
  rcases hw with hw | ⟨hw, -⟩
  · rw [hw.sent]
    exact List.nil_prefix
  · rw [hw.sent]
    exact List.take_prefix _ _

private theorem SocketaaWorker.Transmits.of_sendsNothing (hw : w.Transmits sent)
    (hround : w.SendsNothing round) : sent ++ w.accepted round = responseText := by
  obtain ⟨hselect, hready, hsend, hzero⟩ := hround
  have hmade := hw.sendData
  have hread := (hmade.send round.send).2 hzero
  rw [SocketaaWorker.accepted, if_pos ⟨hselect, hready, hsend⟩]
  simp only [hzero, Int.toNat_zero, List.take_zero, List.append_nil]
  rw [hmade.sent, hread, List.take_length]

/-- From a connection that has not made its response yet, and whose response can be written, what
`send` takes in any rounds is a prefix of the response, and all of it when the loop ends since no
bytes are left to send. -/
theorem socketaaWorker_transmits (w w' : SocketaaWorker) (rounds : List Round)
    (hheader : w.http.isHeaderSend = false) (hresponse : Writable w.http.response)
    (hrun : Run SocketaaWorker.step w rounds w') :
    w.transmitted rounds <+: responseText ∧
      ∀ round, w'.SendsNothing round → w.transmitted (rounds ++ [round]) = responseText := by
  have hstart : w.Transmits [] := .inl ⟨hheader, hresponse, rfl⟩
  have hend : w'.Transmits (w.transmitted rounds) := hstart.run hrun
  refine ⟨hend.isPrefix, fun round hround => ?_⟩
  rw [SocketaaWorker.transmitted_snoc hrun]
  exact hend.of_sendsNothing hround

/-- A worker that is to send, with a response that has room for 300 bytes. -/
def sendingWorker : SocketaaWorker where
  memory := ⟨{ (Heap.ofText []) with size := fun _ => 300 }, []⟩
  http := { response := { buf := some ⟨0, 0⟩, bufSize := 300, isInit := true, isAlloc := true } }
  flags := { isSelect := true, isSend := true }
  calls := []

/-- The socket takes ten bytes, then the connection is idle. -/
theorem socketaaWorker_transmits_begin :
    sendingWorker.transmitted [⟨.ready, none, some 10⟩, ⟨.timeout, none, none⟩] <+:
      responseText := by
  have hresponse : Writable sendingWorker.http.response :=
    ⟨rfl, fun h => absurd h (by simp [sendingWorker]), Nat.zero_le _⟩
  exact (socketaaWorker_transmits sendingWorker _ _ rfl hresponse
    (.cons trivial rfl (.cons trivial rfl (.nil _)))).1

end Httpaa
