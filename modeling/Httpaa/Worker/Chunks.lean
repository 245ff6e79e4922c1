import Httpaa.Foundation.Transition
import Httpaa.Http.Growth
import Httpaa.Strings.Content
import Httpaa.Worker.Http

/-!
# A request in chunks

A worker reads its request as it arrives, and calls the parser behind every chunk, as long as it has
not succeeded. What it finds does not depend on the chunks.
-/

namespace Httpaa

open Recogniser Traced Transition

variable {m : Memory} {worker : WorkeraaHttp} {s s' : Memory × WorkeraaHttp}
  {http http' : Http11Http} {request request' : Stringaa} {h h₀ : Heap} {p : Ptr}
  {text chunk : List UInt8} {chunks : List (List UInt8)} {size : Nat}

/-- A chunk is put behind what has been received, and `workeraa_http_header` is called. -/
def workeraaHttpChunk (s : Memory × WorkeraaHttp) (chunk : List UInt8) :
    Option (Memory × WorkeraaHttp) := do
  let (_, m, request) := socketaaWorkerRecv s.1 s.2.request (some chunk)
  let (_, worker) ← workeraaHttpHeader m.heap { s.2 with request }
  return (m, worker)

/-! ### What two workers found -/

/-- Both strings are initialised or none of them is, and they hold the same text. -/
def SameSlice (h h' : Heap) (a b : Stringaa) : Prop :=
  a.isInit = b.isInit ∧ a.text h = b.text h'

/-- The two requests do not differ in what can be read of them. -/
structure SameRequest (h h' : Heap) (http http' : Http11Http) : Prop where
  method : http.request.requestLine.method = http'.request.requestLine.method
  httpVersion : http.request.requestLine.httpVersion = http'.request.requestLine.httpVersion
  uri : SameSlice h h' http.request.requestLine.requestUri.uri
    http'.request.requestLine.requestUri.uri
  part : ∀ q, SameSlice h h' (http.request.requestLine.requestUri.part q)
    (http'.request.requestLine.requestUri.part q)
  header : ∀ i, SameSlice h h' (http.request.header i) (http'.request.header i)

/-- All assigned fields are the same, but for the size that is left behind the request URI. -/
def AgreesUpToSize (http http' : Http11Http) : Prop :=
  ∃ n, http' = http.setRequestUri { http.request.requestLine.requestUri with
    uri := { http.request.requestLine.requestUri.uri with bufSize := n } }

theorem AgreesUpToSize.write (hbuf : request.buf = request'.buf) (h : AgreesUpToSize http http')
    {w : HttpWrite} (hw : w.FindsUri) :
    AgreesUpToSize (http.write request w) (http'.write request' w) := by
  obtain ⟨n, rfl⟩ := h
  cases w with
  | method | version => exact ⟨n, rfl⟩
  | uri pos size isUri =>
      obtain rfl := hw pos size isUri rfl
      refine ⟨request'.writePos - pos, ?_⟩
      simp [Http11Http.write, Http11Http.setRequestUri, Stringaa.uriFrom, hbuf]
  | part w =>
      refine ⟨n, ?_⟩
      simp only [Http11Http.write, Http11Http.setRequestUri, Uriaa.write_eq, hbuf]
  | header index pos size =>
      refine ⟨n, ?_⟩
      simp only [Http11Http.write, Http11Http.setRequestUri, Http11Http.setHeader,
        Stringaa.headerFrom, hbuf]

theorem AgreesUpToSize.writeAll (hbuf : request.buf = request'.buf) (h : AgreesUpToSize http http')
    {writes : List HttpWrite} (hwrites : ∀ w ∈ writes, w.FindsUri) :
    AgreesUpToSize (http.writeAll request writes) (http'.writeAll request' writes) := by
  induction writes generalizing http http' with
  | nil => exact h
  | cons w writes ih =>
      exact ih (h.write hbuf (hwrites w (by simp)))
        fun w' hw' => hwrites w' (List.mem_cons_of_mem w hw')

private theorem loadChars_sized (h : Heap) (a : Stringaa) (n pos count : Nat) :
    loadChars h { a with bufSize := n } pos count = loadChars h a pos count := by
  induction count generalizing pos with
  | zero => rfl
  | succ count ih => simp [loadChars, ih, Stringaa.charAt]

theorem AgreesUpToSize.same (h : Heap) (hagrees : AgreesUpToSize http http') :
    SameRequest h h http http' := by
  obtain ⟨n, rfl⟩ := hagrees
  exact ⟨rfl, rfl, ⟨rfl, (loadChars_sized h _ n 0 _).symm⟩, fun _ => ⟨rfl, rfl⟩,
    fun _ => ⟨rfl, rfl⟩⟩

/-! ### What a worker holds after a text -/

/-- The text has been received in the buffer at `p`, where `h₀` was the memory. -/
structure Received (h₀ : Heap) (p : Ptr) (size : Nat) (text : List UInt8) (h : Heap)
    (request : Stringaa) : Prop where
  heap : h = h₀.storeAll p text
  buf : request.buf = some p
  bufSize : request.bufSize = size
  writePos : request.writePos = text.length

/-- What the calls of the parser on the text received so far have left. The traces of calls that
failed are gone as soon as a call succeeds. -/
structure Heard (text : List UInt8) (worker : WorkeraaHttp) : Prop where
  isHeaderRecv : worker.isHeaderRecv = (Text.parseRequestHeaders text).ok
  waiting : worker.isHeaderRecv = false → worker.request.readPos = 0 ∧
    ∀ (request : Stringaa) (more : List UInt8),
      (Text.parseRequestHeaders (text ++ more)).ok = true →
      worker.http.toHttp11Http.writeAll request (Text.parseRequestHeaders (text ++ more)).notes =
        ({} : Http11Http).writeAll request (Text.parseRequestHeaders (text ++ more)).notes
  found : worker.isHeaderRecv = true → ∃ request : Stringaa,
    request.buf = worker.request.buf ∧ worker.http.toHttp11Http =
      ({} : Http11Http).writeAll request (Text.parseRequestHeaders text).notes

theorem Received.shows (hreceived : Received h₀ p size text h request) (hoff : p.off = 0)
    (hsize : h₀.size p.block = size) (hle : text.length ≤ size) :
    request.Shows h ⟨0, text⟩ := by
  have hholds : h.Holds p text := by
    rw [hreceived.heap]
    simpa using (Heap.holds_nil (h := h₀) (p := p)).storeAll_behind (b := text)
  refine ⟨by simp [hreceived.writePos], fun i hi => ?_⟩
  have hblock : h.size p.block = size := by rw [hreceived.heap]; exact hsize
  have hbyte : i < text.length := hi
  have hget := hholds i hbyte
  rw [Stringaa.charAt, hreceived.buf, Option.bind_some, Heap.load, if_pos]
  · rw [hget]
    simp [Heap.byte]
  · simp only [Ptr.add, hoff, hblock]
    omega

theorem Received.recv (hreceived : Received h₀ p size text m.heap request)
    (hle : text.length + chunk.length ≤ size) :
    let out := (socketaaWorkerRecv m request (some chunk)).2
    Received h₀ p size (text ++ chunk) out.1.heap out.2 ∧ out.2.readPos = request.readPos ∧
      out.2.isInit = request.isInit := by
  have hroom : request.writePos < request.bufSize ∨ chunk = [] := by
    rw [hreceived.writePos, hreceived.bufSize, ← List.length_eq_zero_iff]
    omega
  have htake : chunk.take (request.bufSize - request.writePos) = chunk := by
    apply List.take_of_length_le
    rw [hreceived.writePos, hreceived.bufSize]
    omega
  by_cases hchunk : chunk = []
  · subst hchunk
    rw [List.append_nil]
    by_cases hroom : request.writePos < request.bufSize
    · simpa [socketaaWorkerRecv, hroom, Memory.touch] using hreceived
    · simpa [socketaaWorkerRecv, hroom] using hreceived
  · simp only [socketaaWorkerRecv, hroom.resolve_right hchunk, if_true, htake, hchunk, if_false]
    refine ⟨⟨?_, hreceived.buf, hreceived.bufSize, by simp [hreceived.writePos]⟩, trivial, trivial⟩
    simp only [hreceived.buf, Option.elim_some, Memory.touch, hreceived.heap, hreceived.writePos,
      storeAll_append]

theorem Heard.header (hheard : Heard text worker)
    (hrequest : request.readPos = worker.request.readPos) (hbuf : request.buf = worker.request.buf)
    (hs : request.Shows h ⟨0, text ++ chunk⟩) (hsize : request.writePos < 2 ^ 31) :
    ∃ isHeader worker', workeraaHttpHeader h { worker with request } = some (isHeader, worker') ∧
      Heard (text ++ chunk) worker' ∧ ∃ pos, worker'.request = request.seek pos := by
  by_cases hrecv : worker.isHeaderRecv = true
  · -- the header has been found before this chunk
    have hok : (Text.parseRequestHeaders text).ok = true := hheard.isHeaderRecv ▸ hrecv
    obtain ⟨hok', hnotes⟩ := Text.parseRequestHeaders_append chunk hok
    obtain ⟨request₁, hbuf₁, hhttp⟩ := hheard.found hrecv
    refine ⟨true, { worker with request }, by simp [workeraaHttpHeader, hrecv], ⟨?_, ?_, ?_⟩,
      request.readPos, rfl⟩
    · rw [hok']
      exact hrecv
    · intro hwait
      exact absurd (hrecv.symm.trans hwait) (by decide)
    · intro _
      exact ⟨request₁, hbuf₁.trans hbuf.symm, by rw [hnotes]; exact hhttp⟩
  · have hwait : worker.isHeaderRecv = false := Bool.eq_false_iff.mpr hrecv
    obtain ⟨hreadPos, htrace⟩ := hheard.waiting hwait
    have hbegin : request.seek 0 = request := by
      rw [← hreadPos, ← hrequest]
      rfl
    have hparse := parseRequestHeaders_eq worker.http.toHttp11Http hs hsize
    rw [hbegin] at hparse
    refine ⟨_, _, by rw [workeraaHttpHeader, if_pos hwait]; simp only [hparse]; rfl,
      ⟨rfl, ?_, ?_⟩, _, rfl⟩
    · intro hfail
      have hfail : (Text.parseRequestHeaders (text ++ chunk)).ok = false := hfail
      refine ⟨Text.parseRequestHeaders_cursor hfail, fun request' more hok => ?_⟩
      have hlater := htrace request' (chunk ++ more)
      rw [← List.append_assoc] at hlater
      exact (writeAll_redo hok _ _ _).trans (hlater hok)
    · intro hok
      exact ⟨request, rfl, htrace request chunk hok⟩

theorem Received.seek (hreceived : Received h₀ p size text h request) (pos : Nat) :
    Received h₀ p size text h (request.seek pos) :=
  ⟨hreceived.heap, hreceived.buf, hreceived.bufSize, hreceived.writePos⟩

/-- The buffer of a worker, with the text it has received so far and what came of it. -/
structure Listening (h₀ : Heap) (p : Ptr) (size : Nat) (text : List UInt8)
    (s : Memory × WorkeraaHttp) : Prop where
  received : Received h₀ p size text s.1.heap s.2.request
  heard : Heard text s.2

theorem Listening.step (hs : Listening h₀ p size text s) (hoff : p.off = 0)
    (hblock : h₀.size p.block = size) (hsize : size < 2 ^ 31)
    (hle : text.length + chunk.length ≤ size) :
    ∃ s', workeraaHttpChunk s chunk = some s' ∧ Listening h₀ p size (text ++ chunk) s' := by
  obtain ⟨m, worker⟩ := s
  have hrecv := hs.received.recv hle
  generalize hout : socketaaWorkerRecv m worker.request (some chunk) = out at hrecv
  obtain ⟨n, m', request⟩ := out
  obtain ⟨hreceived, hreadPos, -⟩ := hrecv
  rw [← List.length_append] at hle
  have hwritePos := hreceived.writePos
  obtain ⟨isHeader, worker', hheader, hheard, pos, hrequest⟩ := hs.heard.header hreadPos
    (hreceived.buf.trans hs.received.buf.symm) (hreceived.shows hoff hblock hle) (by omega)
  refine ⟨(m', worker'), ?_, ?_, hheard⟩
  · simp only [workeraaHttpChunk, hout, Option.bind_eq_bind, hheader, Option.bind_some]
    rfl
  · rw [hrequest]
    exact hreceived.seek pos

theorem Listening.run (hs : Listening h₀ p size text s) (hoff : p.off = 0)
    (hblock : h₀.size p.block = size) (hsize : size < 2 ^ 31)
    (hle : text.length + chunks.flatten.length ≤ size) :
    ∃ s', Run workeraaHttpChunk s chunks s' ∧
      Listening h₀ p size (text ++ chunks.flatten) s' := by
  induction chunks generalizing text s with
  | nil => exact ⟨s, .nil s, by simpa using hs⟩
  | cons chunk chunks ih =>
      rw [List.flatten_cons, List.length_append] at hle
      have hchunk : text.length + chunk.length ≤ size := by omega
      obtain ⟨s₁, hstep, hs₁⟩ := hs.step hoff hblock hsize hchunk
      obtain ⟨s', hrun, hs'⟩ := ih hs₁ (by rw [List.length_append]; omega)
      refine ⟨s', .cons trivial hstep hrun, ?_⟩
      rwa [List.flatten_cons, ← List.append_assoc]

/-- Two workers that have received one text in one place hold the same request. -/
theorem Listening.same (hs : Listening h₀ p size text s) (hs' : Listening h₀ p size text s') :
    s.2.isHeaderRecv = s'.2.isHeaderRecv ∧
      (s.2.isHeaderRecv = true →
        SameRequest s.1.heap s'.1.heap s.2.http.toHttp11Http s'.2.http.toHttp11Http) := by
  have hsame : s.2.isHeaderRecv = s'.2.isHeaderRecv :=
    hs.heard.isHeaderRecv.trans hs'.heard.isHeaderRecv.symm
  refine ⟨hsame, fun hrecv => ?_⟩
  obtain ⟨request, hbuf, hhttp⟩ := hs.heard.found hrecv
  obtain ⟨request', hbuf', hhttp'⟩ := hs'.heard.found (hsame ▸ hrecv)
  have hnotes := Text.parseRequestHeaders_findsUri (hs.heard.isHeaderRecv ▸ hrecv)
  have hbufs : request.buf = request'.buf := by
    rw [hbuf, hbuf', hs.received.buf, hs'.received.buf]
  have hagrees : AgreesUpToSize ({} : Http11Http) {} := ⟨0, rfl⟩
  rw [hs.received.heap, hs'.received.heap, hhttp, hhttp']
  exact (hagrees.writeAll hbufs hnotes).same _

/-! ### A new worker -/

theorem workeraaHttpInit_listening (m : Memory) :
    ∃ h₀, h₀.size m.heap.next = workeraaWorkRecvBufferSizeDefault ∧
      Listening h₀ ⟨m.heap.next, 0⟩ workeraaWorkRecvBufferSizeDefault []
        (workeraaHttpInit m none) := by
  refine ⟨(workeraaHttpInit m none).1.heap, ?_, ⟨storeAll_nil.symm, rfl, rfl, rfl⟩,
    ⟨rfl, fun _ => ⟨rfl, fun request more hok => rfl⟩, fun hrecv => ?_⟩⟩
  · simp [workeraaHttpInit, workeraaHttpInitBuffer, Traced.stringaaMalloc, Httpaa.stringaaMalloc,
      Heap.malloc, Memory.touch, workeraaWorkRecvBufferSizeDefault,
      workeraaWorkSendBufferSizeDefault]
  · cases hrecv

/-- In a new worker, a text that fits the buffer of the request is found to be a request, and the
same one, in whatever chunks it arrives. -/
theorem workeraaHttpHeader_chunks (m : Memory) (chunks : List (List UInt8))
    (hfits : chunks.flatten.length ≤ workeraaWorkRecvBufferSizeDefault) :
    ∃ m₁ worker₁ m₂ worker₂,
      Run workeraaHttpChunk (workeraaHttpInit m none) chunks (m₁, worker₁) ∧
      Run workeraaHttpChunk (workeraaHttpInit m none) [chunks.flatten] (m₂, worker₂) ∧
      worker₁.isHeaderRecv = worker₂.isHeaderRecv ∧
      (worker₁.isHeaderRecv = true →
        SameRequest m₁.heap m₂.heap worker₁.http.toHttp11Http worker₂.http.toHttp11Http) := by
  obtain ⟨h₀, hblock, hinit⟩ := workeraaHttpInit_listening m
  have hsize : workeraaWorkRecvBufferSizeDefault < 2 ^ 31 := by decide
  have hfits₁ : ([] : List UInt8).length + chunks.flatten.length ≤
      workeraaWorkRecvBufferSizeDefault := by simpa using hfits
  have hfits₂ : ([] : List UInt8).length + [chunks.flatten].flatten.length ≤
      workeraaWorkRecvBufferSizeDefault := by simpa using hfits
  obtain ⟨⟨m₁, worker₁⟩, hrun₁, hs₁⟩ := hinit.run rfl hblock hsize hfits₁
  obtain ⟨⟨m₂, worker₂⟩, hrun₂, hs₂⟩ := hinit.run rfl hblock hsize hfits₂
  rw [List.flatten_singleton] at hs₂
  exact ⟨m₁, worker₁, m₂, worker₂, hrun₁, hrun₂, hs₁.same hs₂⟩

/-- The request line arrives in two pieces. -/
theorem workeraaHttpHeader_chunks_pieces :
    ∃ m₁ worker₁ m₂ worker₂,
      Run workeraaHttpChunk (workeraaHttpInit ⟨.ofText [], []⟩ none)
        [literal "GET / HT", literal "TP/1.1\r\n\r\n"] (m₁, worker₁) ∧
      Run workeraaHttpChunk (workeraaHttpInit ⟨.ofText [], []⟩ none)
        [[literal "GET / HT", literal "TP/1.1\r\n\r\n"].flatten] (m₂, worker₂) ∧
      worker₁.isHeaderRecv = worker₂.isHeaderRecv := by
  obtain ⟨m₁, worker₁, m₂, worker₂, hrun₁, hrun₂, hsame, -⟩ :=
    workeraaHttpHeader_chunks ⟨.ofText [], []⟩ [literal "GET / HT", literal "TP/1.1\r\n\r\n"]
      (by decide)
  exact ⟨m₁, worker₁, m₂, worker₂, hrun₁, hrun₂, hsame⟩

end Httpaa
