import Httpaa.Strings.Texts
import Httpaa.Worker.Server

/-!
# No round of a worker goes wrong

On every connection of its life a worker either listens for a header or has found one. While it
listens the parser reads nothing outside the block of the receive buffer; with a header file names
are made, again for every piece that comes behind it, in a string that has a buffer. Neither depends
on the flags of the work, so that no other thread can change it.

Two things are left out: a work behind the end of the works array counts as one in a further slot,
and the byte behind its block that a removal of dot segments takes along has some value.
-/

namespace Httpaa

open Traced Transition

/-- The worker listens for a header, in a receive buffer that has its whole block. -/
structure WorkeraaHttp.Hears (h : Heap) (worker : WorkeraaHttp) : Prop where
  isHeaderRecv : worker.isHeaderRecv = false
  path : worker.path.buf = none
  requestFileName : worker.http.requestFileName.isAlloc = false
  request : worker.request.isInit = true
  response : worker.response.isInit = true
  readPos : worker.request.readPos = 0
  writePos : worker.request.writePos ≤ worker.request.bufSize
  bufSize : worker.request.bufSize = workeraaWorkRecvBufferSizeDefault
  block : ∃ block < h.next, worker.request.buf = some ⟨block, 0⟩ ∧
    h.size block = workeraaWorkRecvBufferSizeDefault

/-- The worker has found a header, and can make file names of it. -/
structure WorkeraaHttp.Names (worker : WorkeraaHttp) : Prop where
  isHeaderRecv : worker.isHeaderRecv = true
  path : worker.path.buf = none
  requestFileName : worker.http.requestFileName.isAlloc = true →
    worker.http.requestFileName.buf ≠ none

/-- The worker listens for a header, or has found one. -/
def SocketaaWorker.Steady (w : SocketaaWorker) : Prop :=
  w.http.Hears w.memory.heap ∨ w.http.Names

variable {m m' : Memory} {w w' : SocketaaWorker} {worker worker' : WorkeraaHttp} {round : Round}
  {n : Int} {h h' : Heap} {flags flags' : SocketaaWorkFlags} {isFunc : Int}

/-! ### File names -/

private theorem stringaaCopyCharsSize_buf {name : Stringaa} (h : Heap) (p : Ptr) (size : Nat)
    (hname : name.isAlloc = true → name.buf ≠ none) : ∃ r,
      Httpaa.stringaaCopyCharsSize h name (some p) size = some r ∧ r.1 = true ∧
        r.2.2.buf ≠ none := by
  have hprepared : (if ¬ name.isAlloc ∨ name.bufSize ≤ size + 1 then
      Httpaa.stringaaMalloc h name (size + 1) else (false, h, name)).2.2.buf ≠ none := by
    by_cases halloc : name.isAlloc = true
    · rw [Httpaa.stringaaMalloc]
      split
      · split
        · exact Option.some_ne_none _
        · exact hname halloc
      · exact hname halloc
    · rw [if_pos (.inl halloc), Httpaa.stringaaMalloc, if_pos ⟨Nat.succ_pos _, .inr halloc⟩]
      exact Option.some_ne_none _
  obtain ⟨dst, hdst⟩ := Option.ne_none_iff_exists'.mp hprepared
  simp only [Httpaa.stringaaCopyCharsSize, hdst, Option.bind_eq_bind, Option.bind_some]
  exact ⟨_, rfl, rfl, Option.some_ne_none _⟩

private theorem http11WorkMethodGet_names (h : Heap) (hnames : worker.Names) : ∃ r,
    http11WorkMethodGet h worker.http worker.path = some r ∧
      (r.2.2.requestFileName.isAlloc = true → r.2.2.requestFileName.buf ≠ none) := by
  have hset (h : Heap) (http : HttpaaWork) :
      httpaaWorkSetResponseFileName h http worker.path = some (false, h, http) := by
    simp [httpaaWorkSetResponseFileName, Httpaa.stringaaCopy, hnames.path]
  rw [http11WorkMethodGet, httpaaWorkGetRequestFileName, Httpaa.stringaaCopy]
  generalize worker.http.request.requestLine.requestUri.part .absPath = part
  by_cases hpart : part.buf = none ∨ part.isInit = false
  · rw [if_pos hpart]
    exact ⟨(false, h, worker.http), rfl, hnames.requestFileName⟩
  · rw [if_neg hpart]
    obtain ⟨p, hp⟩ := Option.ne_none_iff_exists'.mp fun hnone => hpart (.inl hnone)
    obtain ⟨⟨isCopy, h', name⟩, hcopy, rfl, hname⟩ := stringaaCopyCharsSize_buf h p
      (part.bufSize - part.isNullTerminated.toNat) hnames.requestFileName
    obtain ⟨q, hq : name.buf = some q⟩ := Option.ne_none_iff_exists'.mp hname
    rw [hp, hcopy]
    simp [uriaaRemoveSegmentPoint, uriaaRemoveSegmentPoints, hq, hset]

/-! ### A worker with a header -/

private theorem WorkeraaHttp.Names.func (hnames : worker'.Names) (flags : SocketaaWorkFlags)
    (hheader : workeraaHttpHeader h worker = some (true, worker')) :
    ∃ h' worker'' flags', workeraaHttpRecv h worker flags = some (1, h', worker'', flags') ∧
      worker''.Names := by
  simp only [workeraaHttpRecv, hheader, Option.bind_eq_bind, Option.bind_some, if_true,
    workeraaHttpMethod]
  by_cases hget : worker'.http.request.requestLine.method = http11MethodGet
  · obtain ⟨⟨isSet, h', http⟩, htotal, hname⟩ := http11WorkMethodGet_names h hnames
    rw [if_pos hget, htotal]
    exact ⟨_, _, _, rfl, hnames.isHeaderRecv, hnames.path, hname⟩
  · rw [if_neg hget]
    exact ⟨_, _, _, rfl, hnames⟩

private theorem checkRecv_http (hn : 0 < n)
    (hrecv : workeraaHttpRecv w.memory.heap w.http { w.flags with isRecv := true } =
      some (isFunc, h', worker', flags')) :
    ∃ w', socketaaWorkerCheckRecv w n = some w' ∧ w'.http = worker' := by
  simp only [socketaaWorkerCheckRecv, if_pos hn, hrecv, Option.bind_eq_bind, Option.bind_some,
    Option.pure_def]
  split <;> exact ⟨_, rfl, rfl⟩

private theorem checkRecv_names (hnames : w.http.Names) (n : Int) :
    ∃ w', socketaaWorkerCheckRecv w n = some w' ∧ w'.http.Names := by
  by_cases hn : 0 < n
  · have hheader : workeraaHttpHeader w.memory.heap w.http = some (true, w.http) := by
      simp [workeraaHttpHeader, hnames.isHeaderRecv]
    obtain ⟨h', worker', flags', hrecv, hnames'⟩ :=
      hnames.func { w.flags with isRecv := true } hheader
    obtain ⟨w', hcheck, rfl⟩ := checkRecv_http hn hrecv
    exact ⟨w', hcheck, hnames'⟩
  · rw [socketaaWorkerCheckRecv, if_neg hn]
    split
    · exact ⟨_, rfl, hnames⟩
    · split
      · exact ⟨_, rfl, hnames⟩
      · split <;> exact ⟨_, rfl, hnames⟩

private theorem sendRound_names (hnames : w.http.Names) (result : Option Nat) :
    (socketaaWorkerCheckSend (w.sendData.send result).2 (w.sendData.send result).1).http.Names := by
  have hdata : w.sendData.http.Names := by
    obtain ⟨hhttp, hrecv⟩ := w.sendData_keeps
    have hpath : w.sendData.http.path = w.http.path := by
      rw [SocketaaWorker.sendData_eq.2.2, workeraaHttpSend]
      split <;> rfl
    exact ⟨hrecv.trans hnames.isHeaderRecv, by rw [hpath]; exact hnames.path,
      by rw [hhttp]; exact hnames.requestFileName⟩
  rw [(socketaaWorkerCheckSend_http _ _).2.1]
  rcases w.sendData.send_cases result with ⟨-, hsend⟩ | ⟨-, -, hsend⟩ | ⟨-, -, hsend⟩ |
    ⟨k, k', -, -, -, -, hsend⟩
  · rw [hsend]
    exact hdata
  · rw [hsend]
    exact hdata
  · rw [hsend]
    exact hdata
  · rw [hsend]
    exact ⟨hdata.isHeaderRecv, hdata.path, hdata.requestFileName⟩

/-! ### A worker that listens -/

private theorem WorkeraaHttp.Hears.of_size (hears : worker.Hears h) (hnext : h.next ≤ h'.next)
    (hsize : ∀ b < h.next, h'.size b = h.size b) : worker.Hears h' := by
  obtain ⟨block, hknown, hbuf, hblock⟩ := hears.block
  exact { hears with
    block := ⟨block, hknown.trans_le hnext, hbuf, (hsize block hknown).trans hblock⟩ }

/-- The parser always returns, and goes back if it finds no header. -/
theorem WorkeraaHttp.Hears.header (hears : worker.Hears h) :
    ∃ (ok : Bool) (http : Http11Http) (pos : Nat), workeraaHttpHeader h worker =
    some (ok, { worker with
      http := { worker.http with toHttp11Http := http }
      request := worker.request.seek pos
      isHeaderRecv := ok }) ∧ (ok = false → pos = 0) := by
  obtain ⟨block, -, hbuf, hblock⟩ := hears.block
  have hroom : worker.request.writePos ≤ workeraaWorkRecvBufferSizeDefault :=
    hears.writePos.trans_eq hears.bufSize
  obtain ⟨text, hshows⟩ : ∃ text, worker.request.Shows h ⟨0, text⟩ := by
    refine ⟨(List.range worker.request.writePos).map fun i => h.bytes block i, by simp,
      fun i hi => ?_⟩
    rw [List.length_map, List.length_range] at hi
    rw [Stringaa.charAt, hbuf, Option.bind_some, Heap.load, if_pos]
    · simp [Ptr.add, hi]
    · simp only [Ptr.add, hblock]
      omega
  have hsize : worker.request.writePos < 2 ^ 31 := by
    simp only [workeraaWorkRecvBufferSizeDefault] at hroom
    omega
  have hparse := parseRequestHeaders_eq worker.http.toHttp11Http hshows hsize
  have hbegin : worker.request.seek 0 = worker.request := by
    rw [← hears.readPos]
    rfl
  rw [hbegin] at hparse
  refine ⟨(Text.parseRequestHeaders text).ok,
    worker.http.toHttp11Http.writeAll worker.request (Text.parseRequestHeaders text).notes,
    (Text.parseRequestHeaders text).cursor.pos, ?_, Text.parseRequestHeaders_cursor⟩
  rw [workeraaHttpHeader, if_pos hears.isHeaderRecv]
  simp only [hparse]
  rfl

private theorem checkRecv_hears (hears : w.http.Hears w.memory.heap) (n : Int) :
    ∃ w', socketaaWorkerCheckRecv w n = some w' ∧ w'.Steady := by
  by_cases hn : 0 < n
  · obtain ⟨ok, http, pos, hheader, hpos⟩ := hears.header
    cases ok with
    | true =>
        have hnames : WorkeraaHttp.Names { w.http with
            http := { w.http.http with toHttp11Http := http }
            request := w.http.request.seek pos
            isHeaderRecv := true } := by
          refine ⟨rfl, hears.path, fun halloc => ?_⟩
          cases hears.requestFileName.symm.trans halloc
        obtain ⟨h', worker', flags', hrecv, hnames'⟩ :=
          hnames.func { w.flags with isRecv := true } hheader
        obtain ⟨w', hcheck, rfl⟩ := checkRecv_http hn hrecv
        exact ⟨w', hcheck, .inr hnames'⟩
    | false =>
        have hrecv : workeraaHttpRecv w.memory.heap w.http { w.flags with isRecv := true } =
            some (0, w.memory.heap, { w.http with
              http := { w.http.http with toHttp11Http := http }
              request := w.http.request.seek pos
              isHeaderRecv := false }, { w.flags with isRecv := true }) := by
          simp only [workeraaHttpRecv, hheader, Option.bind_eq_bind, Option.bind_some,
            Bool.false_eq_true, if_false]
          rfl
        refine ⟨_, checkRecv_func hn (by decide : (0 : Int) ≠ socketaaError) hrecv, .inl ?_⟩
        exact ⟨rfl, hears.path, hears.requestFileName, hears.request, hears.response, hpos rfl,
          hears.writePos, hears.bufSize, hears.block⟩
  · rw [socketaaWorkerCheckRecv, if_neg hn]
    split
    · exact ⟨_, rfl, .inl hears⟩
    · split
      · exact ⟨_, rfl, .inl hears⟩
      · split <;> exact ⟨_, rfl, .inl hears⟩

private theorem recv_hears (hears : w.http.Hears w.memory.heap) (received : Option (List UInt8)) :
    (w.recv received).2.http.Hears (w.recv received).2.memory.heap := by
  obtain ⟨-, hmemory, hhttp, -⟩ := w.recv_eq received
  rw [hmemory, hhttp]
  obtain ⟨block, hknown, hbuf, hblock⟩ := hears.block
  rw [socketaaWorkerRecv]
  split
  · rename_i hroom
    cases received with
    | none => exact hears
    | some bytes =>
        dsimp only
        split
        · exact hears
        · rw [hbuf]
          refine ⟨hears.isHeaderRecv, hears.path, hears.requestFileName, hears.request,
            hears.response, hears.readPos, ?_, hears.bufSize, block, hknown, rfl, hblock⟩
          dsimp only
          rw [List.length_take]
          omega
  · exact hears

/-! ### Sending -/

theorem stringaaAddLiteral_gives (m : Memory) (s : Stringaa) (text : List UInt8) :
    ∃ forgotten, Gives m s none forgotten (stringaaAddLiteral m s text).1
      (stringaaAddLiteral m s text).2 := by
  by_cases htext : text = []
  · rw [stringaaAddLiteral, if_neg (not_not_intro htext)]
    exact ⟨none, .refl m s⟩
  · obtain ⟨forgotten, hgives⟩ := makeRoom_gives m s text.length
    rw [stringaaAddLiteral_eq htext]
    refine ⟨forgotten, hgives.write ?_ ⟨rfl, rfl, rfl⟩⟩
    have hstored (t : Stringaa) (m : Memory) : SameBlocks m ({ m with
        heap := t.buf.elim m.heap fun p => m.heap.storeAll (p.add t.writePos) text }.touch
          t.writePos text.length t.bufSize) := by
      cases t.buf <;> exact ⟨rfl, rfl⟩
    exact .ite ((hstored _ _).trans (.store _ _ _)) (hstored _ _)

theorem Traced.Gives.blocks {s s' : Stringaa} {forgotten : Option Ptr}
    (hgives : Gives m s none forgotten m' s') : m.heap.next ≤ m'.heap.next ∧
      ∀ b < m.heap.next, m'.heap.size b = m.heap.size b := by
  have hnone : ∀ b, ∀ p ∈ (none : Option Ptr), p.block ≠ b := by
    intro b p hp
    cases hp
  cases hgives with
  | keeps hblocks hbuffer hfreed hforgotten =>
      exact ⟨Nat.le_of_eq hblocks.next.symm, fun b _ => by rw [hblocks.size]⟩
  | takes hbuf halloc hnext hsize hparts =>
      refine ⟨by omega, fun b hb => ?_⟩
      rw [hsize b (hnone b), if_neg (Nat.ne_of_lt hb)]
  | links hnext hsize halloc hparts =>
      exact ⟨Nat.le_of_eq hnext.symm, fun b _ => hsize b (hnone b)⟩

private theorem addLiterals_blocks (m : Memory) (s : Stringaa) (texts : List (List UInt8)) :
    m.heap.next ≤ (addLiterals m s texts).1.heap.next ∧
      ∀ b < m.heap.next, (addLiterals m s texts).1.heap.size b = m.heap.size b := by
  induction texts generalizing m s with
  | nil => exact ⟨Nat.le_refl _, fun _ _ => rfl⟩
  | cons text texts ih =>
      obtain ⟨forgotten, hgives⟩ := stringaaAddLiteral_gives m s text
      obtain ⟨hnext, hsize⟩ := hgives.blocks
      obtain ⟨hnext', hsize'⟩ := ih (stringaaAddLiteral m s text).1 (stringaaAddLiteral m s text).2
      exact ⟨hnext.trans hnext', fun b hb => (hsize' b (hb.trans_le hnext)).trans (hsize b hb)⟩

private theorem sendData_hears (hears : w.http.Hears w.memory.heap) :
    w.sendData.http.Hears w.sendData.memory.heap := by
  rw [SocketaaWorker.sendData_eq.2.2, SocketaaWorker.sendData_memory, workeraaHttpSend]
  split
  · obtain ⟨hnext, hsize⟩ :=
      addLiterals_blocks w.memory (stringaaClean w.http.response) responseTexts
    rw [← workeraaHttpCreateResponse_eq] at hnext hsize
    exact { hears.of_size hnext hsize with
      response := workeraaHttpCreateResponse_isInit w.memory w.http.response }
  · exact hears

private theorem sendRound_hears (hears : w.http.Hears w.memory.heap) (result : Option Nat) :
    let w' := socketaaWorkerCheckSend (w.sendData.send result).2 (w.sendData.send result).1
    w'.http.Hears w'.memory.heap := by
  have hdata := sendData_hears hears
  obtain ⟨hmemory, hhttp, -⟩ :=
    socketaaWorkerCheckSend_http (w.sendData.send result).2 (w.sendData.send result).1
  dsimp only
  rw [hmemory, hhttp]
  rcases w.sendData.send_cases result with ⟨-, hsend⟩ | ⟨-, -, hsend⟩ | ⟨-, -, hsend⟩ |
    ⟨k, k', -, -, -, -, hsend⟩
  · rw [hsend]
    exact hdata
  · rw [hsend]
    exact hdata
  · rw [hsend]
    exact hdata
  · rw [hsend]
    exact { hdata with response := hdata.response }

/-! ### Rounds -/

theorem SocketaaWorker.Steady.step (hw : w.Steady) (hselect : w.flags.isSelect = true)
    (round : Round) : ∃ w', w.step round = some w' ∧ w'.Steady := by
  by_cases hready : round.select = .ready
  · cases hsend : w.flags.isSend with
    | true =>
        refine ⟨_, step_send hselect hready hsend, ?_⟩
        rcases hw with hears | hnames
        · exact .inl (sendRound_hears (w := w.selecting) hears round.send)
        · exact .inr (sendRound_names (w := w.selecting) hnames round.send)
    | false =>
        cases hrecv : w.flags.isRecv with
        | false => exact ⟨_, step_idle hselect hready hsend hrecv, hw⟩
        | true =>
            rw [step_recv hselect hready hsend hrecv]
            rcases hw with hears | hnames
            · exact checkRecv_hears (recv_hears (w := w.selecting) hears round.recv) _
            · obtain ⟨-, -, hhttp, -⟩ := w.selecting.recv_eq round.recv
              have hnames' : (w.selecting.recv round.recv).2.http.Names := by
                rw [hhttp]
                exact ⟨hnames.isHeaderRecv, hnames.path, hnames.requestFileName⟩
              obtain ⟨w', hcheck, hnames''⟩ :=
                checkRecv_names hnames' (w.selecting.recv round.recv).1
              exact ⟨w', hcheck, .inr hnames''⟩
  · obtain ⟨w', hstep, hmemory, hhttp, -⟩ := step_unready hselect hready
    refine ⟨w', hstep, ?_⟩
    rw [SocketaaWorker.Steady, hmemory, hhttp]
    exact hw

private theorem SocketaaWorker.Steady.of_step (hw : w.Steady) (hstep : w.step round = some w') :
    w'.Steady := by
  cases hselect : w.flags.isSelect with
  | false => cases (step_of_ended hselect).symm.trans hstep
  | true =>
      obtain ⟨w'', hstep', hw'⟩ := hw.step hselect round
      cases hstep.symm.trans hstep'
      exact hw'

/-! ### Connections -/

private theorem connect_none_steady (m : Memory) : (connect m none).Steady := by
  obtain ⟨h₀, hblock, hlistening⟩ := workeraaHttpInit_listening m
  refine .inl ⟨rfl, rfl, rfl, rfl, rfl, rfl, Nat.zero_le _, rfl, m.heap.next, ?_, rfl, ?_⟩
  · exact Nat.lt_succ_of_lt (Nat.lt_succ_self _)
  · have hheap := hlistening.received.heap
    rw [storeAll_nil] at hheap
    exact (congrArg (fun h => h.size m.heap.next) hheap).trans hblock

theorem SocketaaWorker.Steady.connect (hw : w.Steady) :
    (Httpaa.connect w.memory (some w.http)).Steady := by
  rcases hw with hears | hnames
  · have hinit : workeraaHttpInit w.memory (some w.http) = (w.memory, { w.http with
        request := stringaaClean w.http.request, response := stringaaClean w.http.response }) := by
      simp [workeraaHttpInit, workeraaHttpInitBuffer, hears.request, hears.response]
    rw [Httpaa.connect, hinit]
    exact .inl ⟨hears.isHeaderRecv, hears.path, hears.requestFileName, hears.request,
      hears.response, rfl, Nat.zero_le _, hears.bufSize, hears.block⟩
  · exact .inr ⟨hnames.isHeaderRecv, hnames.path, hnames.requestFileName⟩

/-! ### The server -/

namespace Server

variable {s s' : Server} {port : UInt16} {event : ServerStep} {events : List ServerStep}

/-- Every worker listens or has found a header, in the midst of a connection and between two. -/
structure Steadies (s : Server) : Prop where
  kept : ∀ i, (connect (s.kept i).1 (s.kept i).2).Steady
  visit : ∀ i visit, s.visit i = some visit → visit.worker.Steady

theorem Steadies.step (hs : Steadies s) (hstep : s.step port event = some s') : Steadies s' := by
  rcases step_cases hstep with ⟨e, pool, accepted, -, -, -, -, -, rfl⟩ |
    ⟨i, work, conn, -, -, -, -, rfl⟩ | ⟨i, visit, work, round, w, pool, closed, hvisit, -, hw, -, -,
      rfl⟩ |
    ⟨i, visit, work, pool, hvisit, -, -, -, -, rfl⟩
  · exact ⟨hs.kept, hs.visit⟩
  · refine ⟨hs.kept, fun j visit h => ?_⟩
    rcases update_eq_some h with ⟨-, hvisit⟩ | hvisit
    · cases hvisit
      exact hs.kept i
    · exact hs.visit j visit hvisit
  · refine ⟨hs.kept, fun j visit' h => ?_⟩
    rcases update_eq_some h with ⟨-, hvisit'⟩ | hvisit'
    · cases hvisit'
      have hcurrent : (s.current visit work).Steady := hs.visit i visit hvisit
      exact hcurrent.of_step hw
    · exact hs.visit j visit' hvisit'
  · refine ⟨fun j => ?_, fun j visit' h => ?_⟩
    · by_cases hj : j = i
      · subst hj
        simp only [update_same]
        exact (hs.visit j visit hvisit).connect
      · simp only [update_other _ _ hj]
        exact hs.kept j
    · rcases update_eq_some h with ⟨-, hnone⟩ | hvisit'
      · cases hnone
      · exact hs.visit j visit' hvisit'

/-- In every run of the server, whatever its clients send and in whatever order its threads go on, a
worker whose work is still selected can go through its next round, whatever that brings: the parser
reads nothing outside the block of the receive buffer, and no file name is made in a string without
a buffer. -/
theorem run_defined (port : UInt16) (workSizeMax workerCount : Nat) (isRun : Nat → Bool)
    (slots : Nat → WorkeraaWork) (cells : WorkCells) (memory : Nat → Memory)
    (events : List ServerStep) (s : Server)
    (hrun : Run (step port) (.initial workSizeMax workerCount isRun slots cells memory) events s)
    (i : Nat) (visit : Visit) (work : HeldWork) (hvisit : s.visit i = some visit)
    (hheld : s.pool.held i = some work)
    (hselect : (s.pool.pool.cells.cell work.cell).flags.isSelect = true) (round : Round) :
    ∃ s', s.step port (.round i round) = some s' := by
  have hstart : Steadies (.initial workSizeMax workerCount isRun slots cells memory) := by
    refine ⟨fun i => connect_none_steady (memory i), fun i visit h => ?_⟩
    cases h
  have hs : Steadies s := hrun.invariant Steadies (fun _ _ _ hs _ hstep => hs.step hstep) hstart
  have hcurrent : (s.current visit work).Steady := hs.visit i visit hvisit
  obtain ⟨w, hstep, -⟩ := hcurrent.step hselect round
  rw [step, hvisit, hheld]
  simp only [Server.round, hstep, PoolWorkers.step, hheld, Option.bind_eq_bind, Option.bind_some,
    Option.map_some]
  exact ⟨_, rfl⟩

/-- One worker has got the one work. -/
theorem run_defined_enter : ∃ s s', Run (step 8080)
    (.initial 1 1 (fun _ => true) zeroMemory zeroCells fun _ => ⟨.ofText [], []⟩)
      [.accept true, .getWork 0, .enter 0 true] s ∧
    s.step 8080 (.round 0 ⟨.ready, some [0], none⟩) = some s' := by
  have hrun : Run (step 8080)
      (.initial 1 1 (fun _ => true) zeroMemory zeroCells fun _ => ⟨.ofText [], []⟩)
      [.accept true, .getWork 0, .enter 0 true] _ :=
    .cons trivial rfl (.cons trivial rfl (.cons trivial rfl (.nil _)))
  obtain ⟨s', hstep⟩ := run_defined _ _ _ _ _ _ _ _ _ hrun 0 _ _ rfl rfl rfl
    ⟨.ready, some [0], none⟩
  exact ⟨_, s', hrun, hstep⟩

end Server

end Httpaa
