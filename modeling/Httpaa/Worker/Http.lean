import Httpaa.Http.Work
import Httpaa.Pool.Sync
import Httpaa.Strings.Traced

/-!
# The HTTP side of a worker

`workeraa_http.h`: the callbacks of a worker for received and for sent data. The request is parsed
until its header has been found; the response is made once, and is the same for every request.
-/

namespace Httpaa

open Traced

/-- `workeraa_http`. The flags for messages are left out, since nothing sets them. -/
structure WorkeraaHttp where
  http : HttpaaWork := {}
  request : Stringaa := {}
  response : Stringaa := {}
  path : Stringaa := {}
  isHeaderRecv : Bool := false
  isHeaderSend : Bool := false

def workeraaWorkRecvBufferSizeDefault : Nat := 1024 * 1024

def workeraaWorkSendBufferSizeDefault : Nat := 1024 * 1024

/-- A buffer is made for the first connection, and cleaned for the others. -/
def workeraaHttpInitBuffer (m : Memory) (s : Stringaa) (bufSize : Nat) : Memory × Stringaa :=
  if s.isInit = false then
    let (isMalloc, m, s) := Traced.stringaaMalloc m s bufSize
    (m, if isMalloc then { s with isInit := true } else s)
  else (m, stringaaClean s)

/-- `workeraa_http_init`, for a worker without a structure (`none`) or with the one it had
before. -/
def workeraaHttpInit (m : Memory) (pStruct : Option WorkeraaHttp) : Memory × WorkeraaHttp :=
  let worker := pStruct.getD {}
  let (m, request) := workeraaHttpInitBuffer m worker.request workeraaWorkRecvBufferSizeDefault
  let (m, response) := workeraaHttpInitBuffer m worker.response workeraaWorkSendBufferSizeDefault
  (m, { worker with request, response })

def http11MethodGet : Nat := 1

def workeraaHttpHeader (h : Heap) (worker : WorkeraaHttp) : Option (Bool × WorkeraaHttp) := do
  if worker.isHeaderRecv = false then
    let (isParse, http, request) ←
      httpaaParseRequestHeaders h worker.http.toHttp11Http worker.request
    return (isParse, { worker with
      http := { worker.http with toHttp11Http := http }, request, isHeaderRecv := isParse })
  else return (true, worker)

/-- `workeraa_http_method`. Of all methods only GET does anything. -/
def workeraaHttpMethod (h : Heap) (worker : WorkeraaHttp) (method : Nat) :
    Option (Bool × Heap × WorkeraaHttp) := do
  if method = http11MethodGet then
    let (isSet, h, http) ← http11WorkMethodGet h worker.http worker.path
    return (isSet, h, { worker with http })
  else return (false, h, worker)

/-- `workeraa_http_recv`, with the flags of the work. `workeraa_http_message` does nothing and
returns 0. -/
def workeraaHttpRecv (h : Heap) (worker : WorkeraaHttp) (flags : SocketaaWorkFlags) :
    Option (Int × Heap × WorkeraaHttp × SocketaaWorkFlags) := do
  let (isHeader, worker) ← workeraaHttpHeader h worker
  if isHeader then
    let method := worker.http.request.requestLine.method
    let (_, h, worker) ← workeraaHttpMethod h worker method
    return (1, h, worker,
      if method = http11MethodGet then { isSelect := true, isSend := true } else flags)
  else return (0, h, worker, flags)

/-- The body of every response. -/
def entityBody : List UInt8 :=
  literal "<html><head><title>Hello</title></head><body><h1>Hello, World!</h1></body></html>"

/-- What `workeraa_http_create_response` adds to the response, one after the other. -/
def responseTexts : List (List UInt8) :=
  [literal "HTTP/1.1 ", literal "200 OK", literal "\r\n", literal "Content-Length",
    literal ": " ++ (Nat.toDigits 10 entityBody.length).map ch ++ literal "\r\n", literal "\r\n",
    entityBody]

/-- `workeraa_http_create_response`, as far as it writes the response. -/
def workeraaHttpCreateResponse (m : Memory) (response : Stringaa) : Memory × Stringaa :=
  responseTexts.foldl (fun (m, response) text => stringaaAddLiteral m response text)
    (m, stringaaClean response)

/-- `workeraa_http_send`. It returns 0 whatever it does. -/
def workeraaHttpSend (m : Memory) (worker : WorkeraaHttp) : Int × Memory × WorkeraaHttp :=
  if worker.isHeaderSend = false then
    let (m, response) := workeraaHttpCreateResponse m worker.response
    (0, m, { worker with response, isHeaderSend := true })
  else (0, m, worker)

end Httpaa
