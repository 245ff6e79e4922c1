import Httpaa.Worker.Chunks
import Httpaa.Worker.Transmission

/-!
# A connection without its memory

What a worker does on a connection depends on the bytes it has received there, on how much it has
sent, and on the fields of the request that are set when the connection begins. An exchange is that
much of a connection. The worker does what the exchange does, round by round, from any memory in
which its buffers are set up.
-/

namespace Httpaa

open Traced Transition Recogniser

/-- How far the worker has got with a request: no complete header has been received, or a header
that is not answered and a number of bytes, or so much of the response has been sent. -/
inductive Progress
  | listening (text : List UInt8)
  | ignoring (count : Nat)
  | sending (sent : Nat)
deriving DecidableEq, Repr

def Progress.isHeaderRecv : Progress → Bool
  | .listening _ => false
  | .ignoring _ => true
  | .sending _ => true

/-- The string in a buffer whose address does not matter. -/
def Stringaa.place (s : Stringaa) : Stringaa :=
  { s with buf := s.buf.map fun p => ⟨0, p.off⟩ }

/-- Where the parts of a request stand in its buffer, and everything else about it. -/
def Http11Http.places (http : Http11Http) : Http11Http where
  request :=
    { requestLine :=
        { http.request.requestLine with
          requestUri :=
            { uri := http.request.requestLine.requestUri.uri.place
              part := fun q => (http.request.requestLine.requestUri.part q).place } }
      header := fun i => (http.request.header i).place }

/-- The flags of the work, how far it has got, and the places of the request. -/
structure Exchange where
  flags : SocketaaWorkFlags
  progress : Progress
  http : Http11Http

/-- What `recv` returns and takes where so many bytes have been received. -/
def receives (count : Nat) (received : Option (List UInt8)) : Int × List UInt8 :=
  if count < workeraaWorkRecvBufferSizeDefault then
    match received with
    | none => (socketaaSocketError, [])
    | some bytes =>
        let bytes := bytes.take (workeraaWorkRecvBufferSizeDefault - count)
        if bytes = [] then (socketaaErrorRecvShutdown, []) else (bytes.length, bytes)
  else (0, [])

/-- What `send` returns where so much of the response has been sent. -/
def sends (sent : Nat) (result : Option Nat) : Int :=
  if sent < responseText.length then
    match result with
    | none => socketaaSocketError
    | some n =>
        let n := min n (responseText.length - sent)
        if n = 0 then socketaaErrorSendShutdown else n
  else 0

def recvFlags (flags : SocketaaWorkFlags) (bytesRecv : Int) : SocketaaWorkFlags :=
  if bytesRecv = socketaaErrorRecvShutdown then { flags with isRecvShutdown := true }
  else { flags with isSelect := false }

def sendFlags (flags : SocketaaWorkFlags) (bytesSend : Int) : SocketaaWorkFlags :=
  if bytesSend = socketaaSocketError then { flags with isSelect := false, isRecv := true }
  else if bytesSend = 0 then { flags with isSelect := false, isSend := true }
  else if bytesSend = socketaaErrorRecvShutdown then
    { flags with isSendShutdown := true, isSend := true }
  else { flags with isSend := true }

def bufferOf (count : Nat) : Stringaa := { buf := some ⟨0, 0⟩, writePos := count }

def heard (flags : SocketaaWorkFlags) (http : Http11Http) (text : List UInt8) : Exchange :=
  let http := http.writeAll (bufferOf text.length) (Text.parseRequestHeaders text).notes
  if (Text.parseRequestHeaders text).ok then
    if http.request.requestLine.method = http11MethodGet then
      ⟨{ isSelect := true, isSend := true }, .sending 0, http⟩
    else ⟨flags, .ignoring text.length, http⟩
  else ⟨flags, .listening text, http⟩

/-- One round, with what is sent in it. -/
def Exchange.step (e : Exchange) (round : Round) : Option (Exchange × List UInt8) :=
  if e.flags.isSelect then
    let flags := { e.flags with isSend := false, isRecv := e.flags.isRecv && e.flags.isSend }
    match round.select with
    | .ready =>
        match e.progress with
        | .listening text =>
            if e.flags.isRecv then
              let (n, bytes) := receives text.length round.recv
              if 0 < n then
                some (heard { flags with isRecv := true } e.http (text ++ bytes), [])
              else some (⟨recvFlags flags n, .listening text, e.http⟩, [])
            else some (⟨flags, .listening text, e.http⟩, [])
        | .ignoring count =>
            if e.flags.isRecv then
              let (n, bytes) := receives count round.recv
              if 0 < n then
                some (⟨{ flags with isRecv := true }, .ignoring (count + bytes.length), e.http⟩, [])
              else some (⟨recvFlags flags n, .ignoring count, e.http⟩, [])
            else some (⟨flags, .ignoring count, e.http⟩, [])
        | .sending sent =>
            let n := sends sent round.send
            some (⟨sendFlags flags n, .sending (sent + n.toNat), e.http⟩,
              (responseText.drop sent).take n.toNat)
    | _ => some (⟨{ flags with isSelect := false }, e.progress, e.http⟩, [])
  else none

theorem Exchange.step_sending {flags : SocketaaWorkFlags} {round : Round} (http : Http11Http)
    (sent : Nat) (hselect : flags.isSelect = true) (hready : round.select = .ready) :
    (⟨flags, .sending sent, http⟩ : Exchange).step round =
      some (⟨sendFlags { flags with isSend := false, isRecv := flags.isRecv && flags.isSend }
          (sends sent round.send), .sending (sent + (sends sent round.send).toNat), http⟩,
        (responseText.drop sent).take (sends sent round.send).toNat) := by
  simp only [Exchange.step, hselect, hready]
  exact if_pos trivial

/-! ### The places of a request -/

@[simp] theorem Http11Http.places_method (http : Http11Http) :
    http.places.request.requestLine.method = http.request.requestLine.method := rfl

private theorem UriWrite.component_place (buf : Option Ptr) (w : UriWrite) (q : UriPart)
    (s : Stringaa) :
    (w.component buf q s).place = w.component (buf.map fun p => ⟨0, p.off⟩) q s.place := by
  cases w with
  | set p pos size =>
      by_cases hq : q = p
      · simp [component, hq, Stringaa.place, Function.comp_def, Ptr.add]
      · simp [component, hq]
  | unset p =>
      by_cases hq : q = p
      · simp [component, hq, Stringaa.place]
      · simp [component, hq]

private theorem Http11Http.write_places (http : Http11Http) {request : Stringaa} {count : Nat}
    (hbuf : (request.buf.map fun p => (⟨0, p.off⟩ : Ptr)) = some ⟨0, 0⟩)
    (hpos : request.writePos = count) (w : HttpWrite) :
    (http.write request w).places = http.places.write (bufferOf count) w := by
  obtain ⟨p, hp, hzero⟩ := Option.map_eq_some_iff.mp hbuf
  have hoff : p.off = 0 := congrArg Ptr.off hzero
  cases w with
  | method | version => rfl
  | uri pos size isUri =>
      simp [write, setRequestUri, places, Stringaa.uriFrom, Stringaa.place, bufferOf, hp, hoff,
        hpos, Ptr.add]
  | part w =>
      simp only [write, setRequestUri, places, Uriaa.write_eq, UriWrite.component_place, hbuf,
        bufferOf]
  | header index pos size =>
      simp only [write, setHeader, places, bufferOf, Http11Http.mk.injEq, Http11Request.mk.injEq,
        true_and]
      funext i
      by_cases hi : i = index
      · simp [hi, Stringaa.headerFrom, Stringaa.place, hp, hoff, Ptr.add]
      · simp [hi]

private theorem Http11Http.writeAll_places (http : Http11Http) {request : Stringaa} {count : Nat}
    (hbuf : (request.buf.map fun p => (⟨0, p.off⟩ : Ptr)) = some ⟨0, 0⟩)
    (hpos : request.writePos = count) (notes : List HttpWrite) :
    (http.writeAll request notes).places = http.places.writeAll (bufferOf count) notes := by
  induction notes generalizing http with
  | nil => rfl
  | cons w notes ih =>
      have hrest := ih (http.write request w)
      rwa [write_places http hbuf hpos] at hrest

/-! ### A worker with an exchange -/

/-- The worker has received the text, and no complete header in it. -/
structure SocketaaWorker.Listens (w : SocketaaWorker) (text : List UInt8) : Prop where
  isHeaderRecv : w.http.isHeaderRecv = false
  isHeaderSend : w.http.isHeaderSend = false
  response : Writable w.http.response
  isInit : w.http.request.isInit = true
  readPos : w.http.request.readPos = 0
  requestFileName : w.http.http.requestFileName.isAlloc = false
  path : w.http.path.buf = none
  received : ∃ h₀ p, p.off = 0 ∧ h₀.size p.block = workeraaWorkRecvBufferSizeDefault ∧
    Received h₀ p workeraaWorkRecvBufferSizeDefault text w.memory.heap w.http.request
  fits : text.length ≤ workeraaWorkRecvBufferSizeDefault

/-- The worker has found a header that it does not answer. -/
structure SocketaaWorker.Ignores (w : SocketaaWorker) (count : Nat) : Prop where
  isHeaderRecv : w.http.isHeaderRecv = true
  method : w.http.http.request.requestLine.method ≠ http11MethodGet
  bufSize : w.http.request.bufSize = workeraaWorkRecvBufferSizeDefault
  writePos : w.http.request.writePos = count

/-- The worker has found a header, and has sent so much of the response. -/
structure SocketaaWorker.Answers (w : SocketaaWorker) (sent : Nat) : Prop where
  isHeaderRecv : w.http.isHeaderRecv = true
  le : sent ≤ responseText.length
  transmits : w.Transmits (responseText.take sent)

/-- The worker has got as far as the exchange has. -/
def Follows (w : SocketaaWorker) (e : Exchange) : Prop :=
  w.flags = e.flags ∧ w.http.http.toHttp11Http.places = e.http ∧
  match e.progress with
  | .listening text => e.flags.isSend = false ∧ w.Listens text
  | .ignoring count => e.flags.isSend = false ∧ w.Ignores count
  | .sending sent => (e.flags.isSelect = true → e.flags.isSend = true) ∧ w.Answers sent

variable {w w' : SocketaaWorker} {round : Round} {text bytes : List UInt8} {count sent : Nat}
  {received : Option (List UInt8)} {n : Int} {e : Exchange} {flags : SocketaaWorkFlags}
  {http : Http11Http}

/-! ### What a round calls -/

theorem SocketaaWorker.step_recv (hselect : w.flags.isSelect = true)
    (hready : round.select = .ready) (hsend : w.flags.isSend = false)
    (hrecv : w.flags.isRecv = true) :
    w.step round = socketaaWorkerCheckRecv (w.selecting.recv round.recv).2
      (w.selecting.recv round.recv).1 := by
  simp only [SocketaaWorker.step, hselect, if_true, hready, hsend, hrecv, Bool.not_false,
    Bool.true_and, Bool.false_eq_true, if_false, Option.bind_eq_bind, Option.pure_def,
    SocketaaWorker.selecting]
  exact Option.bind_fun_some _

theorem SocketaaWorker.step_send (hselect : w.flags.isSelect = true)
    (hready : round.select = .ready) (hsend : w.flags.isSend = true) :
    w.step round = some (socketaaWorkerCheckSend (w.selecting.sendData.send round.send).2
      (w.selecting.sendData.send round.send).1) := by
  simp only [SocketaaWorker.step, hselect, if_true, hready, hsend, Bool.not_true, Bool.false_and,
    Bool.false_eq_true, if_false, Option.bind_eq_bind, Option.bind_some, Option.pure_def,
    SocketaaWorker.selecting]

theorem SocketaaWorker.step_idle (hselect : w.flags.isSelect = true)
    (hready : round.select = .ready) (hsend : w.flags.isSend = false)
    (hrecv : w.flags.isRecv = false) : w.step round = some w.selecting := by
  simp only [SocketaaWorker.step, hselect, if_true, hready, hsend, hrecv, Bool.not_false,
    Bool.and_false, Bool.false_eq_true, if_false, Option.bind_eq_bind, Option.bind_some,
    Option.pure_def, SocketaaWorker.selecting]

theorem SocketaaWorker.step_unready (hselect : w.flags.isSelect = true)
    (hready : round.select ≠ .ready) : ∃ w', w.step round = some w' ∧ w'.memory = w.memory ∧
      w'.http = w.http ∧ w'.flags = { w.selecting.flags with isSelect := false } := by
  cases hround : round.select with
  | ready => exact absurd hround hready
  | error =>
      refine ⟨{ w.selecting with flags := { w.selecting.flags with isSelect := false } }, ?_, rfl,
        rfl, rfl⟩
      simp only [SocketaaWorker.step, hselect, if_true, hround, SocketaaWorker.selecting]
  | timeout =>
      refine ⟨w.selecting.close, ?_, rfl, rfl, rfl⟩
      simp only [SocketaaWorker.step, hselect, if_true, hround, SocketaaWorker.selecting]

theorem SocketaaWorker.recv_eq (w : SocketaaWorker) (received : Option (List UInt8)) :
    (w.recv received).1 = (socketaaWorkerRecv w.memory w.http.request received).1 ∧
      (w.recv received).2.memory = (socketaaWorkerRecv w.memory w.http.request received).2.1 ∧
      (w.recv received).2.http = { w.http with
        request := (socketaaWorkerRecv w.memory w.http.request received).2.2 } ∧
      (w.recv received).2.flags = w.flags := by
  rw [SocketaaWorker.recv]
  dsimp only
  split <;> exact ⟨rfl, rfl, rfl, rfl⟩

/-! ### Receiving -/

theorem receives_cases (count : Nat) (received : Option (List UInt8)) :
    (∃ bytes : List UInt8, bytes ≠ [] ∧ receives count received = ((bytes.length : Int), bytes) ∧
      ∃ all, received = some all ∧
        bytes = all.take (workeraaWorkRecvBufferSizeDefault - count)) ∨
      ((receives count received).2 = [] ∧ ((receives count received).1 = 0 ∨
        (receives count received).1 = socketaaSocketError ∨
        (receives count received).1 = socketaaErrorRecvShutdown)) := by
  by_cases hroom : count < workeraaWorkRecvBufferSizeDefault
  · cases received with
    | none =>
        simp only [receives, hroom, if_true]
        exact .inr ⟨trivial, .inr (.inl trivial)⟩
    | some bytes =>
        by_cases hnil : bytes.take (workeraaWorkRecvBufferSizeDefault - count) = []
        · simp only [receives, hroom, if_true, hnil]
          exact .inr ⟨trivial, .inr (.inr trivial)⟩
        · simp only [receives, hroom, if_true, hnil, if_false]
          exact .inl ⟨_, hnil, rfl, bytes, rfl, rfl⟩
  · simp only [receives, hroom, if_false]
    exact .inr ⟨trivial, .inl trivial⟩

theorem receives_nothing {count : Nat} {received : Option (List UInt8)}
    (hnothing : (receives count received).1 = 0 ∨
      (receives count received).1 = socketaaSocketError ∨
      (receives count received).1 = socketaaErrorRecvShutdown) :
    ¬ 0 < (receives count received).1 := by
  rcases hnothing with h | h | h <;> rw [h] <;> decide

@[simp] theorem recvFlags_isRecv (flags : SocketaaWorkFlags) (n : Int) :
    (recvFlags flags n).isRecv = flags.isRecv := by
  rw [recvFlags]
  split <;> rfl

@[simp] theorem recvFlags_isSend (flags : SocketaaWorkFlags) (n : Int) :
    (recvFlags flags n).isSend = flags.isSend := by
  rw [recvFlags]
  split <;> rfl

private theorem checkRecv_nothing
    (hn : n = 0 ∨ n = socketaaSocketError ∨ n = socketaaErrorRecvShutdown) :
    ∃ w', socketaaWorkerCheckRecv w n = some w' ∧ w'.memory = w.memory ∧ w'.http = w.http ∧
      w'.flags = recvFlags w.flags n := by
  rcases hn with rfl | rfl | rfl
  · exact ⟨_, rfl, rfl, rfl, rfl⟩
  · exact ⟨_, rfl, rfl, rfl, rfl⟩
  · exact ⟨_, rfl, rfl, rfl, rfl⟩

theorem SocketaaWorker.Listens.recv (hw : w.Listens text) (received : Option (List UInt8)) :
    (w.recv received).1 = (receives text.length received).1 ∧
      (w.recv received).2.Listens (text ++ (receives text.length received).2) := by
  obtain ⟨hn, hmemory, hhttp, -⟩ := w.recv_eq received
  obtain ⟨h₀, p, hoff, hblock, hreceived⟩ := hw.received
  -- however much is delivered, what fits is taken
  have htaken : text.length + (receives text.length received).2.length ≤
      workeraaWorkRecvBufferSizeDefault ∧
      (socketaaWorkerRecv w.memory w.http.request received).1 =
        (receives text.length received).1 ∧
      (socketaaWorkerRecv w.memory w.http.request received).2.1.heap =
        (socketaaWorkerRecv w.memory w.http.request
          (some (receives text.length received).2)).2.1.heap ∧
      (socketaaWorkerRecv w.memory w.http.request received).2.2 =
        (socketaaWorkerRecv w.memory w.http.request
          (some (receives text.length received).2)).2.2 := by
    have hfits := hw.fits
    simp only [socketaaWorkerRecv, receives, hreceived.writePos, hreceived.bufSize]
    by_cases hroom : text.length < workeraaWorkRecvBufferSizeDefault
    · cases received with
      | none => simp [hroom, hfits, Memory.touch]
      | some bytes =>
          by_cases hnil : bytes.take (workeraaWorkRecvBufferSizeDefault - text.length) = []
          · simp only [hroom, if_true, hnil, List.take_nil, List.length_nil, and_self, and_true]
            omega
          · simp only [hroom, if_true, hnil, if_false, List.take_take, Nat.min_self, and_self,
              and_true, List.length_take]
            omega
    · simp [hroom, hfits]
  obtain ⟨hle, hfirst, hheap, hrequest⟩ := htaken
  obtain ⟨hrecv, hreadPos, hinit⟩ := hreceived.recv (m := w.memory) hle
  rw [← hheap, ← hmemory, ← hrequest] at hrecv
  rw [← hrequest] at hreadPos hinit
  refine ⟨hn.trans hfirst, ?_, ?_, ?_, ?_, ?_, ?_, ?_, ⟨h₀, p, hoff, hblock, ?_⟩, ?_⟩
  · rw [hhttp]
    exact hw.isHeaderRecv
  · rw [hhttp]
    exact hw.isHeaderSend
  · rw [hhttp]
    exact hw.response
  · rw [hhttp]
    exact hinit.trans hw.isInit
  · rw [hhttp]
    exact hreadPos.trans hw.readPos
  · rw [hhttp]
    exact hw.requestFileName
  · rw [hhttp]
    exact hw.path
  · rw [hhttp]
    exact hrecv
  · rw [List.length_append]
    exact hle

/-! ### The parser is called -/

theorem checkRecv_func {isFunc : Int} {h' : Heap} {http' : WorkeraaHttp}
    {flags' : SocketaaWorkFlags} (hn : 0 < n) (hfunc : isFunc ≠ socketaaError)
    (hrecv : workeraaHttpRecv w.memory.heap w.http { w.flags with isRecv := true } =
      some (isFunc, h', http', flags')) :
    socketaaWorkerCheckRecv w n = some { w with
      memory := { w.memory with heap := h' }, http := http', flags := flags' } := by
  simp only [socketaaWorkerCheckRecv, if_pos hn, hrecv, Option.bind_eq_bind, Option.bind_some,
    if_neg hfunc]
  rfl

private theorem http11WorkMethodGet_total (h : Heap) (http : HttpaaWork) {path : Stringaa}
    (hname : http.requestFileName.isAlloc = false) (hpath : path.buf = none) :
    ∃ r, http11WorkMethodGet h http path = some r ∧ r.2.2.toHttp11Http = http.toHttp11Http := by
  have hset : ∀ (h : Heap) (http : HttpaaWork), ∃ r,
      httpaaWorkSetResponseFileName h http path = some r ∧
        r.2.2.toHttp11Http = http.toHttp11Http := by
    intro h http
    exact ⟨_, by simp [httpaaWorkSetResponseFileName, Httpaa.stringaaCopy, hpath]; rfl, rfl⟩
  rw [http11WorkMethodGet, httpaaWorkGetRequestFileName, Httpaa.stringaaCopy]
  generalize http.request.requestLine.requestUri.part .absPath = part
  cases hbuf : part.buf with
  | none => exact ⟨(false, h, http), by simp, rfl⟩
  | some p =>
      by_cases hinit : part.isInit = false
      · exact ⟨(false, h, http), by simp [hinit], rfl⟩
      · simp [hinit, Httpaa.stringaaCopyCharsSize, hname, Httpaa.stringaaMalloc,
          uriaaRemoveSegmentPoint, uriaaRemoveSegmentPoints, hset]

theorem SocketaaWorker.Listens.header (hw : w.Listens text) :
    workeraaHttpHeader w.memory.heap w.http =
      some ((Text.parseRequestHeaders text).ok, { w.http with
        http := { w.http.http with toHttp11Http :=
          w.http.http.toHttp11Http.writeAll w.http.request (Text.parseRequestHeaders text).notes }
        request := w.http.request.seek (Text.parseRequestHeaders text).cursor.pos
        isHeaderRecv := (Text.parseRequestHeaders text).ok }) := by
  obtain ⟨h₀, p, hoff, hblock, hreceived⟩ := hw.received
  have hs := hreceived.shows hoff hblock hw.fits
  have hsize : w.http.request.writePos < 2 ^ 31 := by
    have hfits := hw.fits
    rw [hreceived.writePos]
    simp only [workeraaWorkRecvBufferSizeDefault] at hfits
    omega
  have hparse := parseRequestHeaders_eq w.http.http.toHttp11Http hs hsize
  have hbegin : w.http.request.seek 0 = w.http.request := by
    rw [← hw.readPos]
    rfl
  rw [hbegin] at hparse
  rw [workeraaHttpHeader, if_pos hw.isHeaderRecv]
  simp only [hparse]
  rfl

private theorem SocketaaWorker.Listens.writeAll_places (hw : w.Listens text)
    (notes : List HttpWrite) :
    (w.http.http.toHttp11Http.writeAll w.http.request notes).places =
      w.http.http.toHttp11Http.places.writeAll (bufferOf text.length) notes := by
  obtain ⟨h₀, p, hoff, -, hreceived⟩ := hw.received
  exact Http11Http.writeAll_places _ (by rw [hreceived.buf, Option.map_some, hoff])
    hreceived.writePos notes

theorem SocketaaWorker.Listens.heard (hw : w.Listens text) (hn : 0 < n)
    (hsend : w.flags.isSend = false) :
    ∃ w', socketaaWorkerCheckRecv w n = some w' ∧
      Follows w' (heard { w.flags with isRecv := true } w.http.http.toHttp11Http.places text) := by
  have hheader := hw.header
  rw [Httpaa.heard, ← hw.writeAll_places]
  dsimp only
  generalize w.http.http.toHttp11Http.writeAll w.http.request
    (Text.parseRequestHeaders text).notes = http at hheader ⊢
  obtain ⟨h₀, p, hoff, hblock, hreceived⟩ := hw.received
  by_cases hok : (Text.parseRequestHeaders text).ok = true
  · rw [if_pos hok, Http11Http.places_method]
    rw [hok] at hheader
    by_cases hget : http.request.requestLine.method = http11MethodGet
    · obtain ⟨⟨isSet, h', http'⟩, htotal, hkeep⟩ := http11WorkMethodGet_total w.memory.heap
        { w.http.http with toHttp11Http := http } hw.requestFileName hw.path
      refine ⟨_, checkRecv_func hn (by decide : (1 : Int) ≠ socketaaError) (by
        simp only [workeraaHttpRecv, hheader, Option.bind_eq_bind, Option.bind_some, if_true,
          workeraaHttpMethod, hget, htotal, Option.pure_def]; rfl), ?_⟩
      rw [if_pos hget]
      exact ⟨rfl, congrArg Http11Http.places hkeep, fun _ => rfl, rfl, Nat.zero_le _,
        .inl ⟨hw.isHeaderSend, hw.response, List.take_zero⟩⟩
    · refine ⟨_, checkRecv_func hn (by decide : (1 : Int) ≠ socketaaError) (by
        simp only [workeraaHttpRecv, hheader, Option.bind_eq_bind, Option.bind_some, if_true,
          workeraaHttpMethod, hget, if_false, Option.pure_def]; rfl), ?_⟩
      rw [if_neg hget]
      exact ⟨rfl, rfl, hsend, rfl, hget, hreceived.bufSize, hreceived.writePos⟩
  · have hfail : (Text.parseRequestHeaders text).ok = false := Bool.eq_false_iff.mpr hok
    rw [if_neg hok]
    rw [hfail] at hheader
    refine ⟨_, checkRecv_func hn (by decide : (0 : Int) ≠ socketaaError) (by
      simp only [workeraaHttpRecv, hheader, Option.bind_eq_bind, Option.bind_some,
        Bool.false_eq_true, if_false, Option.pure_def]; rfl), rfl, rfl, hsend, ?_⟩
    exact ⟨rfl, hw.isHeaderSend, hw.response, hw.isInit, Text.parseRequestHeaders_cursor hfail,
      hw.requestFileName, hw.path, ⟨h₀, p, hoff, hblock, hreceived.seek _⟩, hw.fits⟩

theorem SocketaaWorker.Ignores.recv (hw : w.Ignores count) (received : Option (List UInt8)) :
    (w.recv received).1 = (receives count received).1 ∧
      (w.recv received).2.Ignores (count + (receives count received).2.length) := by
  obtain ⟨hn, -, hhttp, -⟩ := w.recv_eq received
  have hrecv : (socketaaWorkerRecv w.memory w.http.request received).1 =
      (receives count received).1 ∧
      (socketaaWorkerRecv w.memory w.http.request received).2.2 = { w.http.request with
        writePos := count + (receives count received).2.length } := by
    simp only [socketaaWorkerRecv, receives, hw.writePos, hw.bufSize]
    by_cases hroom : count < workeraaWorkRecvBufferSizeDefault
    · cases received with
      | none =>
          simp only [hroom, if_true, List.length_nil, Nat.add_zero, true_and]
          rw [← hw.bufSize, ← hw.writePos]
      | some bytes =>
          by_cases hnil : bytes.take (workeraaWorkRecvBufferSizeDefault - count) = []
          · simp only [hroom, if_true, hnil, List.length_nil, Nat.add_zero, true_and]
            rw [← hw.bufSize, ← hw.writePos]
          · simp only [hroom, if_true, hnil, if_false, and_self]
    · simp only [hroom, if_false, List.length_nil, Nat.add_zero, true_and]
      rw [← hw.bufSize, ← hw.writePos]
  refine ⟨hn.trans hrecv.1, ?_, ?_, ?_, ?_⟩
  · rw [hhttp]
    exact hw.isHeaderRecv
  · rw [hhttp]
    exact hw.method
  · rw [hhttp, hrecv.2]
    exact hw.bufSize
  · rw [hhttp, hrecv.2]

theorem SocketaaWorker.Ignores.heard (hw : w.Ignores count) (hn : 0 < n) :
    socketaaWorkerCheckRecv w n = some { w with flags := { w.flags with isRecv := true } } := by
  have hrecv : workeraaHttpRecv w.memory.heap w.http { w.flags with isRecv := true } =
      some (1, w.memory.heap, w.http, { w.flags with isRecv := true }) := by
    simp [workeraaHttpRecv, workeraaHttpHeader, hw.isHeaderRecv, workeraaHttpMethod, hw.method]
  exact checkRecv_func hn (by decide : (1 : Int) ≠ socketaaError) hrecv

/-! ### Sending -/

private theorem SocketaaWorker.Sending.readPos_eq (hw : w.Sending (responseText.take sent))
    (hle : sent ≤ responseText.length) : w.http.response.readPos = sent := by
  have hlength := congrArg List.length hw.sent
  have hread := hw.readPos
  rw [List.length_take, List.length_take] at hlength
  omega

private theorem SocketaaWorker.Sending.send_eq (hw : w.Sending (responseText.take sent))
    (hle : sent ≤ responseText.length) (result : Option Nat) :
    (w.send result).1 = Httpaa.sends sent result := by
  have hreadPos := hw.readPos_eq hle
  have hwritePos := hw.writePos
  have hsends : w.sends = decide (sent < responseText.length) := by
    rw [SocketaaWorker.sends, hreadPos, hwritePos]
    have hroom := hw.room
    rw [hwritePos] at hroom
    simp [hroom]
  rw [SocketaaWorker.send, hsends]
  by_cases hless : sent < responseText.length
  · cases result with
    | none => simp [Httpaa.sends, hless]
    | some n =>
        by_cases hzero : min n (responseText.length - sent) = 0
        · simp only [Httpaa.sends, hless, decide_true, if_true, SocketaaWorker.call, hwritePos,
            hreadPos, hzero]
        · simp only [Httpaa.sends, hless, decide_true, if_true, SocketaaWorker.call, hwritePos,
            hreadPos, hzero, if_false]
  · simp [Httpaa.sends, hless]

private theorem sends_le (hle : sent ≤ responseText.length) (result : Option Nat) :
    sent + (sends sent result).toNat ≤ responseText.length := by
  by_cases hless : sent < responseText.length
  · cases result with
    | none => simpa [sends, hless, socketaaSocketError] using hle
    | some n =>
        by_cases hzero : min n (responseText.length - sent) = 0
        · simpa [sends, hless, hzero, socketaaErrorSendShutdown] using hle
        · simp only [sends, hless, if_true, hzero, if_false, Int.toNat_natCast]
          omega
  · simpa [sends, hless] using hle

private theorem checkSend_flags (w : SocketaaWorker) (n : Int) :
    (socketaaWorkerCheckSend w n).flags = sendFlags w.flags n := by
  simp only [socketaaWorkerCheckSend, sendFlags, socketaaSocketError, socketaaErrorRecvShutdown]
  by_cases hpos : 0 < n
  · have hone : n ≠ -1 := by omega
    have htwo : n ≠ -2 := by omega
    have hzero : n ≠ 0 := by omega
    simp [hpos, hone, htwo, hzero]
  · by_cases hzero : n = 0
    · subst hzero
      rfl
    · by_cases hone : n = -1
      · subst hone
        rfl
      · by_cases htwo : n = -2
        · subst htwo
          rfl
        · simp [hpos, hone, htwo, hzero]

theorem SocketaaWorker.send_keeps (w : SocketaaWorker) (result : Option Nat) :
    (w.send result).2.flags = w.flags ∧ (w.send result).2.http.http = w.http.http ∧
      (w.send result).2.http.isHeaderRecv = w.http.isHeaderRecv := by
  rcases w.send_cases result with ⟨-, hsend⟩ | ⟨-, -, hsend⟩ | ⟨-, -, hsend⟩ |
    ⟨n, k, -, -, -, -, hsend⟩
  · rw [hsend]
    exact ⟨rfl, rfl, rfl⟩
  · rw [hsend]
    exact ⟨rfl, rfl, rfl⟩
  · rw [hsend]
    exact ⟨rfl, rfl, rfl⟩
  · rw [hsend]
    exact ⟨rfl, rfl, rfl⟩

theorem SocketaaWorker.sendData_keeps (w : SocketaaWorker) :
    w.sendData.http.http = w.http.http ∧ w.sendData.http.isHeaderRecv = w.http.isHeaderRecv := by
  rw [sendData_eq.2.2, workeraaHttpSend]
  split <;> exact ⟨rfl, rfl⟩

theorem SocketaaWorker.Answers.send (hw : w.Answers sent) (hselect : w.flags.isSelect = true)
    (hready : round.select = .ready) (hsend : w.flags.isSend = true) :
    ∃ w', w.step round = some w' ∧
      w'.flags = sendFlags w.selecting.flags (Httpaa.sends sent round.send) ∧
      w'.http.http = w.http.http ∧
      w'.Answers (sent + (Httpaa.sends sent round.send).toNat) ∧
      w.accepted round =
        (responseText.drop sent).take (Httpaa.sends sent round.send).toNat := by
  have hmade := hw.transmits.sendData
  have hn := hmade.send_eq hw.le round.send
  have hstep := step_send hselect hready hsend
  have haccepted : w.accepted round =
      (responseText.drop sent).take (Httpaa.sends sent round.send).toNat := by
    rw [SocketaaWorker.accepted, if_pos ⟨hselect, hready, hsend⟩]
    simp only [hn, hmade.content, hmade.readPos_eq hw.le]
  have htransmits := hw.transmits.step hstep
  rw [haccepted, ← List.take_add] at htransmits
  obtain ⟨hflags, hhttp, hrecv⟩ := (w.selecting.sendData).send_keeps round.send
  obtain ⟨hhttp', hrecv'⟩ := w.selecting.sendData_keeps
  refine ⟨_, hstep, ?_, ?_, ⟨?_, sends_le hw.le round.send, htransmits⟩, haccepted⟩
  · rw [checkSend_flags, hflags, sendData_eq.2.1, hn]
  · rw [(socketaaWorkerCheckSend_http _ _).2.1, hhttp, hhttp']
    rfl
  · rw [(socketaaWorkerCheckSend_http _ _).2.1, hrecv, hrecv']
    exact hw.isHeaderRecv

/-! ### Rounds -/

private theorem SocketaaWorker.Listens.of_eq (hw : w.Listens text) (hmemory : w'.memory = w.memory)
    (hhttp : w'.http = w.http) : w'.Listens text := by
  refine ⟨?_, ?_, ?_, ?_, ?_, ?_, ?_, ?_, hw.fits⟩
  · exact hhttp ▸ hw.isHeaderRecv
  · exact hhttp ▸ hw.isHeaderSend
  · exact hhttp ▸ hw.response
  · exact hhttp ▸ hw.isInit
  · exact hhttp ▸ hw.readPos
  · exact hhttp ▸ hw.requestFileName
  · exact hhttp ▸ hw.path
  · rw [hmemory, hhttp]
    exact hw.received

private theorem SocketaaWorker.Ignores.of_eq (hw : w.Ignores count) (hhttp : w'.http = w.http) :
    w'.Ignores count :=
  ⟨hhttp ▸ hw.isHeaderRecv, hhttp ▸ hw.method, hhttp ▸ hw.bufSize, hhttp ▸ hw.writePos⟩

/-- The worker does what the exchange does, and the loops end together. -/
def StepsWith (w : SocketaaWorker) (e : Exchange) (round : Round) : Prop :=
  ∃ e' w', e.step round = some (e', w.accepted round) ∧ w.step round = some w' ∧ Follows w' e'

private theorem Follows.unready (hw : Follows w e) (hselect : e.flags.isSelect = true)
    (hready : round.select ≠ .ready) : StepsWith w e round := by
  have haccepted : w.accepted round = [] := SocketaaWorker.accepted_eq_nil (.inl hready)
  obtain ⟨hflags, hplaces, hprogress⟩ := hw
  obtain ⟨w', hstep, hmemory, hhttp, hflags'⟩ :=
    SocketaaWorker.step_unready (hflags ▸ hselect) hready
  rw [SocketaaWorker.selecting, hflags] at hflags'
  refine ⟨⟨_, e.progress, e.http⟩, w', ?_, hstep, hflags', by rw [hhttp, hplaces], ?_⟩
  · rw [haccepted]
    cases hround : round.select with
    | ready => exact absurd hround hready
    | error => simp only [Exchange.step, hselect, if_true, hround]
    | timeout => simp only [Exchange.step, hselect, if_true, hround]
  · obtain ⟨flags, progress, http⟩ := e
    cases progress with
    | listening text => exact ⟨rfl, hprogress.2.of_eq hmemory hhttp⟩
    | ignoring count => exact ⟨rfl, hprogress.2.of_eq hhttp⟩
    | sending sent =>
        have htransmits := hprogress.2.transmits.step hstep
        rw [haccepted, List.append_nil] at htransmits
        exact ⟨fun h => absurd h Bool.false_ne_true,
          ⟨hhttp ▸ hprogress.2.isHeaderRecv, hprogress.2.le, htransmits⟩⟩

theorem Follows.listening (hw : Follows w ⟨flags, .listening text, http⟩)
    (hselect : flags.isSelect = true) (hready : round.select = .ready) :
    StepsWith w ⟨flags, .listening text, http⟩ round := by
  obtain ⟨hflags, hplaces, hsend, hlistens⟩ := hw
  subst hflags
  have haccepted : w.accepted round = [] := SocketaaWorker.accepted_eq_nil (.inr hsend)
  have hselecting : w.selecting.Listens text := hlistens.of_eq rfl rfl
  rw [StepsWith, haccepted]
  cases hrecv : w.flags.isRecv with
  | false =>
      refine ⟨⟨w.selecting.flags, .listening text, http⟩, w.selecting, ?_,
        SocketaaWorker.step_idle hselect hready hsend hrecv, rfl, hplaces, rfl, hselecting⟩
      simp only [Exchange.step, hselect, if_true, hready, hrecv, Bool.false_eq_true, if_false,
        SocketaaWorker.selecting]
  | true =>
      have hstep := SocketaaWorker.step_recv hselect hready hsend hrecv
      obtain ⟨hn, hheard⟩ := hselecting.recv round.recv
      obtain ⟨-, -, hrest, hkeep⟩ := w.selecting.recv_eq round.recv
      have hsame : (w.selecting.recv round.recv).2.http.http = w.http.http := by
        rw [hrest]
        rfl
      rw [hstep, hn]
      rcases receives_cases text.length round.recv with ⟨bytes, hne, heq, -⟩ | ⟨hnil, hnothing⟩
      · have hpos : (0 : Int) < bytes.length :=
          Int.natCast_pos.mpr (List.length_pos_iff.mpr hne)
        rw [heq] at hheard ⊢
        obtain ⟨w', hcheck, hfollows⟩ := hheard.heard hpos (by rw [hkeep]; rfl)
        rw [hkeep, hsame, hplaces] at hfollows
        refine ⟨_, w', ?_, hcheck, hfollows⟩
        simp only [Exchange.step, hselect, if_true, hready, hrecv, heq, hpos,
          SocketaaWorker.selecting]
      · have hpos := receives_nothing hnothing
        rw [hnil, List.append_nil] at hheard
        obtain ⟨w', hcheck, hmemory, hhttp, hflags⟩ := checkRecv_nothing hnothing
        rw [hkeep] at hflags
        refine ⟨⟨recvFlags w.selecting.flags (receives text.length round.recv).1,
          .listening text, http⟩, w', ?_, hcheck, hflags, by rw [hhttp, hsame, hplaces], ?_,
          hheard.of_eq hmemory hhttp⟩
        · simp only [Exchange.step, hselect, if_true, hready, hrecv, hpos, if_false,
            SocketaaWorker.selecting]
        · exact recvFlags_isSend ..

theorem Follows.ignoring (hw : Follows w ⟨flags, .ignoring count, http⟩)
    (hselect : flags.isSelect = true) (hready : round.select = .ready) :
    StepsWith w ⟨flags, .ignoring count, http⟩ round := by
  obtain ⟨hflags, hplaces, hsend, hignores⟩ := hw
  subst hflags
  have haccepted : w.accepted round = [] := SocketaaWorker.accepted_eq_nil (.inr hsend)
  have hselecting : w.selecting.Ignores count := hignores.of_eq rfl
  rw [StepsWith, haccepted]
  cases hrecv : w.flags.isRecv with
  | false =>
      refine ⟨⟨w.selecting.flags, .ignoring count, http⟩, w.selecting, ?_,
        SocketaaWorker.step_idle hselect hready hsend hrecv, rfl, hplaces, rfl, hselecting⟩
      simp only [Exchange.step, hselect, if_true, hready, hrecv, Bool.false_eq_true, if_false,
        SocketaaWorker.selecting]
  | true =>
      have hstep := SocketaaWorker.step_recv hselect hready hsend hrecv
      obtain ⟨hn, hheard⟩ := hselecting.recv round.recv
      obtain ⟨-, -, hrest, hkeep⟩ := w.selecting.recv_eq round.recv
      have hsame : (w.selecting.recv round.recv).2.http.http = w.http.http := by
        rw [hrest]
        rfl
      rw [hstep, hn]
      rcases receives_cases count round.recv with ⟨bytes, hne, heq, -⟩ | ⟨hnil, hnothing⟩
      · have hpos : (0 : Int) < bytes.length :=
          Int.natCast_pos.mpr (List.length_pos_iff.mpr hne)
        rw [heq] at hheard ⊢
        refine ⟨⟨{ w.selecting.flags with isRecv := true }, .ignoring (count + bytes.length), http⟩,
          { (w.selecting.recv round.recv).2 with
            flags := { (w.selecting.recv round.recv).2.flags with isRecv := true } }, ?_,
          hheard.heard hpos, ?_,
          (congrArg (fun http => http.toHttp11Http.places) hsame).trans hplaces, rfl,
          hheard.of_eq rfl⟩
        · simp only [Exchange.step, hselect, if_true, hready, hrecv, heq, hpos,
            SocketaaWorker.selecting]
        · rw [hkeep]
      · have hpos := receives_nothing hnothing
        rw [hnil, List.length_nil, Nat.add_zero] at hheard
        obtain ⟨w', hcheck, -, hhttp, hflags⟩ := checkRecv_nothing hnothing
        rw [hkeep] at hflags
        refine ⟨⟨recvFlags w.selecting.flags (receives count round.recv).1, .ignoring count, http⟩,
          w', ?_, hcheck, hflags, by rw [hhttp, hsame, hplaces], ?_, hheard.of_eq hhttp⟩
        · simp only [Exchange.step, hselect, if_true, hready, hrecv, hpos, if_false,
            SocketaaWorker.selecting]
        · exact recvFlags_isSend ..

theorem Follows.sending (hw : Follows w ⟨flags, .sending sent, http⟩)
    (hselect : flags.isSelect = true) (hready : round.select = .ready) :
    StepsWith w ⟨flags, .sending sent, http⟩ round := by
  obtain ⟨hflags, hplaces, hsend, hanswers⟩ := hw
  subst hflags
  obtain ⟨w', hstep, hflags, hhttp, hanswers', haccepted⟩ :=
    hanswers.send hselect hready (hsend hselect)
  have hexchange := Exchange.step_sending http sent hselect hready
  rw [← haccepted] at hexchange
  generalize sends sent round.send = n at hflags hanswers' hexchange
  refine ⟨_, w', hexchange, hstep, hflags, by rw [hhttp, hplaces], ?_, hanswers'⟩
  intro hselect'
  rw [sendFlags] at hselect' ⊢
  split at hselect'
  · cases hselect'
  · rename_i herror
    rw [if_neg herror]
    split <;> (try split) <;> rfl

/-- A round, whatever comes. -/
theorem Follows.step (hw : Follows w e) (round : Round) :
    (e.step round = none ∧ w.flags.isSelect = false) ∨ StepsWith w e round := by
  by_cases hselect : e.flags.isSelect = true
  · right
    by_cases hready : round.select = .ready
    · obtain ⟨flags, progress, http⟩ := e
      cases progress with
      | listening text => exact hw.listening hselect hready
      | ignoring count => exact hw.ignoring hselect hready
      | sending sent => exact hw.sending hselect hready
    · exact hw.unready hselect hready
  · left
    have hend : w.flags.isSelect = false := by
      rw [hw.1]
      exact Bool.eq_false_iff.mpr hselect
    exact ⟨by rw [Exchange.step, if_neg hselect], hend⟩

/-! ### Runs -/

/-- The worker as the rounds leave it, or as the loop does if it ends before. -/
def SocketaaWorker.after : SocketaaWorker → List Round → SocketaaWorker
  | w, [] => w
  | w, round :: rounds => (w.step round).elim w fun w' => w'.after rounds

/-- The exchange as the rounds leave it, with what is sent in them. -/
def Exchange.run : Exchange → List Round → Exchange × List UInt8
  | e, [] => (e, [])
  | e, round :: rounds =>
      (e.step round).elim (e, []) fun s => ((s.1.run rounds).1, s.2 ++ (s.1.run rounds).2)

theorem Follows.run (hw : Follows w e) (rounds : List Round) :
    Follows (w.after rounds) (e.run rounds).1 ∧ w.transmitted rounds = (e.run rounds).2 := by
  induction rounds generalizing w e with
  | nil => exact ⟨hw, rfl⟩
  | cons round rounds ih =>
      rw [SocketaaWorker.after, SocketaaWorker.transmitted, Exchange.run]
      rcases hw.step round with ⟨hstep, hend⟩ | ⟨e', w', hstep, hstep', hw'⟩
      · have hnil : w.accepted round = [] :=
          if_neg fun h => Bool.false_ne_true (hend.symm.trans h.1)
        simp only [hstep, SocketaaWorker.step_of_ended hend, hnil, Option.elim_none,
          List.append_nil, and_true]
        exact hw
      · simp only [hstep, hstep', Option.elim_some]
        exact ⟨(ih hw').1, congrArg _ (ih hw').2⟩

end Httpaa
