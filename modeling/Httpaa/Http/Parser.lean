import Httpaa.Uri.Parser

/-!
# The request parser of RFC 2616

`http11_request` and the functions under it: the request line, and the header lines up to the empty
line. The three functions that look a header name up in a table differ only in the table and in
where its slots start.
-/

namespace Httpaa

/-! ### Tables -/

/-- The characters of a string constant. -/
def literal (s : String) : List UInt8 := s.toList.map ch

/-- A table of constants is checked for an unwanted character by running through it. -/
theorem literal_ne {names : List String} {y : UInt8}
    (h : (names.all fun name => (literal name).all (· != y)) = true) :
    ∀ name ∈ names, ∀ x ∈ literal name, x ≠ y := by
  simpa [List.all_eq_true] using h

def http11MethodArray : List String :=
  ["OPTIONS", "GET", "HEAD", "POST", "PUT", "DELETE", "TRACE", "CONNECT"]

def http11GeneralHeaderArray : List String :=
  ["cache-control", "connection", "date", "pragma", "trailer", "transfer-encoding", "upgrade",
    "via", "warning"]

def http11EntityHeaderArray : List String :=
  ["allow", "content-encoding", "content-language", "content-length", "content-location",
    "content-md5", "content-range", "content-type", "expires", "last-modified"]

def http11RequestHeaderArray : List String :=
  ["accept", "accept-charset", "accept-encoding", "accept-language", "authorization", "expect",
    "from", "host", "if-match", "if-modified-since", "if-none-match", "if-range",
    "if-unmodified-since", "max-forwards", "proxy-authorization", "range", "referer", "te",
    "user-agent"]

def http11GeneralHeaderArrayStart : Nat := 0

def http11EntityHeaderArrayStart : Nat := http11GeneralHeaderArray.length

def http11RequestHeaderArrayStart : Nat :=
  http11GeneralHeaderArray.length + http11EntityHeaderArray.length

/-! ### The parsed request -/

structure Http11HttpVersion where
  majorVersion : Int := 0
  minorVersion : Int := 0
deriving DecidableEq, Repr

/-- `http11_request_line_struct`. The method is its index in `http11_method_array`. -/
structure Http11RequestLine where
  method : Nat := 0
  requestUri : Uriaa := {}
  httpVersion : Http11HttpVersion := {}

/-- `http11_request_struct`. The slots are those of the general, entity and request headers. -/
structure Http11Request where
  requestLine : Http11RequestLine := {}
  header : Nat → Stringaa := fun _ => {}

/-- `http11_http_struct`, as far as the request parser writes it. -/
structure Http11Http where
  request : Http11Request := {}

def Http11Http.setMethod (http : Http11Http) (method : Nat) : Http11Http :=
  { http with request := { http.request with
      requestLine := { http.request.requestLine with method } } }

def Http11Http.setRequestUri (http : Http11Http) (requestUri : Uriaa) : Http11Http :=
  { http with request := { http.request with
      requestLine := { http.request.requestLine with requestUri } } }

def Http11Http.setHttpVersion (http : Http11Http) (httpVersion : Http11HttpVersion) : Http11Http :=
  { http with request := { http.request with
      requestLine := { http.request.requestLine with httpVersion } } }

def Http11Http.setHeader (http : Http11Http) (index : Nat) (header : Stringaa) : Http11Http :=
  { http with request := { http.request with
      header := fun i => if i = index then header else http.request.header i } }

/-! ### Characters and lines -/

def http11Cr : UInt8 := 13

def http11Lf : UInt8 := 10

def http11Sp : UInt8 := 32

/-- `_toupper` in the C locale. -/
def toUpper (c : UInt8) : UInt8 := if lowalphaChars c then c - 32 else c

/-- `_tolower` in the C locale. -/
def toLower (c : UInt8) : UInt8 := if upalphaChars c then c + 32 else c

theorem toLower_colon (x : UInt8) : toLower x = ch ':' ↔ x = ch ':' := by
  have hA : ch 'A' = 65 := by decide
  have hZ : ch 'Z' = 90 := by decide
  have hcolon : ch ':' = 58 := by decide
  simp only [toLower, upalphaChars, hA, hZ, hcolon, Bool.and_eq_true, decide_eq_true_eq,
    UInt8.le_iff_toNat_le, ← UInt8.toNat_inj]
  split
  · rename_i hupper
    simp only [UInt8.reduceToNat, UInt8.toNat_add] at hupper ⊢
    omega
  · rfl

def http11Crlf (h : Heap) (request : Stringaa) : Option (Bool × Stringaa) := do
  let c ← stringaaGetChar h request
  if c = http11Cr then
    let request := (stringaaNextReadPos request).2
    let c ← stringaaGetChar h request
    if c = http11Lf then return (true, (stringaaNextReadPos request).2)
    else return (false, (stringaaPrevReadPos request).2)
  else return (false, request)

/-- The loop of `http11_find_crlf`; `c` is the character before the one it reads next. -/
def findCrlfLoop (h : Heap) : Nat → Stringaa → UInt8 → Option (Bool × Stringaa)
  | 0, _, _ => none
  | fuel + 1, request, c => do
    if request.readPos < request.writePos then
      let request := (stringaaNextReadPos request).2
      let next ← stringaaGetChar h request
      if c = http11Cr ∧ next = http11Lf then return (true, (stringaaPrevReadPos request).2)
      else findCrlfLoop h fuel request next
    else return (false, request)

def http11FindCrlf (h : Heap) (request : Stringaa) : Option (Bool × Stringaa) := do
  let pos := request.readPos
  let c ← stringaaGetChar h request
  let (isFind, request) ← findCrlfLoop h request.budget request c
  return (isFind, if isFind then request else request.seek pos)

/-! ### The request line -/

/-- `for (; *pc != 0; pc++) { if (*pc == _toupper(c)) { next; c = get; } else break; }`: what is
left of the constant, and the cursor. -/
def matchUpper (h : Heap) : List UInt8 → Stringaa → Option (List UInt8 × Stringaa)
  | [], request => some ([], request)
  | x :: pc, request => do
    let c ← stringaaGetChar h request
    if x = toUpper c then matchUpper h pc (stringaaNextReadPos request).2
    else return (x :: pc, request)

/-- The loop of `http11_method`. The cursor is not set back between two entries of the array. -/
def methodLoop (h : Heap) : List String → Nat → Stringaa → Option (Option Nat × Stringaa)
  | [], _, request => some (none, request)
  | name :: names, i, request => do
    let (pc, request) ← matchUpper h (literal name) request
    if pc = [] then return (some i, request) else methodLoop h names (i + 1) request

def http11Method (h : Heap) (http : Http11Http) (request : Stringaa) :
    Option (Bool × Http11Http × Stringaa) := do
  let pos := request.readPos
  let (method, request) ← methodLoop h http11MethodArray 0 request
  match method with
  | some i => return (true, http.setMethod i, request)
  | none => return (false, http, request.seek pos)

def http11RequestUri (h : Heap) (http : Http11Http) (request : Stringaa) :
    Option (Bool × Http11Http × Stringaa) := do
  let uri := stringaaSetSubstring http.request.requestLine.requestUri.uri request
  let (isCheck, u) ← uriaaCheckUrl h { http.request.requestLine.requestUri with uri }
  if isCheck then
    return (true, http.setRequestUri { u with uri := { u.uri with writePos := u.uri.readPos } },
      request.seek (request.readPos + u.uri.readPos))
  else return (false, http.setRequestUri u, request)

/-- A run of digits: how many, and the cursor behind them. -/
def digitsLoop (h : Heap) : Nat → Stringaa → Nat → Option (Nat × Stringaa)
  | 0, _, _ => none
  | fuel + 1, request, size => do
    let c ← stringaaGetChar h request
    if digitChars c then digitsLoop h fuel (stringaaNextReadPos request).2 (size + 1)
    else return (size, request)

/-- `memcpy` of `size` characters from the string. -/
def loadChars (h : Heap) (s : Stringaa) (pos : Nat) : Nat → Option (List UInt8)
  | 0 => some []
  | size + 1 => do
    let c ← s.charAt h pos
    return c :: (← loadChars h s (pos + 1) size)

/-- The decimal value of a run of digits. -/
def decimal (digits : List UInt8) : Nat :=
  digits.foldl (fun value c => value * 10 + (c.toNat - (ch '0').toNat)) 0

/-- `atoi` on a run of digits: `strtol`, which stops at `LONG_MAX`, and the conversion to `int`. -/
def atoi (digits : List UInt8) : Int := toInt (min (decimal digits) (2 ^ 63 - 1))

def bufIntSize : Nat := 50

/-- The number of the `size` digits from `pos` on, through `buf_int`. -/
def loadInt (h : Heap) (request : Stringaa) (pos size : Nat) : Option Int := do
  let digits ← loadChars h request pos (if bufIntSize ≤ size then bufIntSize - 1 else size)
  return atoi digits

def http11HttpVersion (h : Heap) (http : Http11Http) (request : Stringaa) :
    Option (Bool × Http11Http × Stringaa) := do
  let pos := request.readPos
  let (pc, request) ← matchUpper h (literal "HTTP/") request
  if pc = [] then
    let pos1 := request.readPos
    let (size1, request) ← digitsLoop h request.budget request 0
    let c ← stringaaGetChar h request
    if 0 < size1 ∧ c = ch '.' then
      let request := (stringaaNextReadPos request).2
      let pos2 := request.readPos
      let (size2, request) ← digitsLoop h request.budget request 0
      if 0 < size2 then
        let majorVersion ← loadInt h request pos1 size1
        let minorVersion ← loadInt h request pos2 size2
        return (true, http.setHttpVersion ⟨majorVersion, minorVersion⟩, request)
      else return (false, http, request.seek pos)
    else return (false, http, request.seek pos)
  else return (false, http, request.seek pos)

/-- A space, taken if it stands at the cursor. -/
def http11Space (h : Heap) (request : Stringaa) : Option (Bool × Stringaa) :=
  stringaaIsChar h request http11Sp

/-- `if (is) f` for a function `f` of the request parser. -/
def Http11Http.whenDo (is : Bool) (http : Http11Http) (request : Stringaa)
    (f : Http11Http → Stringaa → Option (Bool × Http11Http × Stringaa)) :
    Option (Bool × Http11Http × Stringaa) :=
  if is then f http request else some (false, http, request)

/-- A function that only reads the request. -/
def reading (f : Stringaa → Option (Bool × Stringaa)) (http : Http11Http) (request : Stringaa) :
    Option (Bool × Http11Http × Stringaa) :=
  (f request).map fun (is, request) => (is, http, request)

def http11RequestLine (h : Heap) (http : Http11Http) (request : Stringaa) :
    Option (Bool × Http11Http × Stringaa) := do
  let pos := request.readPos
  let (is, http, request) ← http11Method h http request
  let (is, http, request) ← http.whenDo is request (reading (http11Space h))
  let (is, http, request) ← http.whenDo is request (http11RequestUri h)
  let (is, http, request) ← http.whenDo is request (reading (http11Space h))
  let (is, http, request) ← http.whenDo is request (http11HttpVersion h)
  let (is, http, request) ← http.whenDo is request (reading (http11Crlf h))
  return (is, http, if is then request else request.seek pos)

/-! ### Header lines -/

/-- The inner loop over a name of the table; `c` is the character at the cursor in lower case. -/
def matchName (h : Heap) : List UInt8 → Stringaa → UInt8 →
    Option (List UInt8 × Stringaa × UInt8)
  | [], request, c => some ([], request, c)
  | x :: pc, request, c => do
    if x = c then
      let (more, request) := stringaaNextReadPos request
      if more then
        let c ← stringaaGetChar h request
        matchName h pc request (toLower c)
      else return (x :: pc, request, c)
    else return (x :: pc, request, c)

/-- The loop over the table: the index of the name that stands at the cursor with a `:` behind. -/
def headerLoop (h : Heap) (pos : Nat) : List String → Nat → Stringaa → UInt8 →
    Option (Option Nat × Stringaa)
  | [], _, request, _ => some (none, request)
  | name :: names, i, request, c => do
    let (pc, request, c) ← matchName h (literal name) request c
    if pc = [] ∧ c = ch ':' then return (some i, request)
    else if request.readPos ≠ pos then
      let c ← stringaaGetChar h (request.seek pos)
      headerLoop h pos names (i + 1) (request.seek pos) (toLower c)
    else headerLoop h pos names (i + 1) request c

/-- The functions below, with the table and the start of its slots. -/
def http11Header (h : Heap) (names : List String) (start : Nat) (http : Http11Http)
    (request : Stringaa) : Option (Bool × Http11Http × Stringaa) := do
  let pos := request.readPos
  let c ← stringaaGetChar h request
  let (index, request) ← headerLoop h pos names 0 request (toLower c)
  match index with
  | some i =>
    let pos := request.readPos
    let (isFind, request) ← http11FindCrlf h request
    let bufSize := if isFind then request.readPos - pos else request.writePos - pos
    let header := (stringaaSetCharsSize (http.request.header (start + i))
      (request.buf.map fun buf => buf.add pos) bufSize).2
    return (true, http.setHeader (start + i) header, request)
  | none => return (false, http, request.seek pos)

def http11GeneralHeader (h : Heap) (http : Http11Http) (request : Stringaa) :
    Option (Bool × Http11Http × Stringaa) :=
  http11Header h http11GeneralHeaderArray http11GeneralHeaderArrayStart http request

def http11RequestHeader (h : Heap) (http : Http11Http) (request : Stringaa) :
    Option (Bool × Http11Http × Stringaa) :=
  http11Header h http11RequestHeaderArray http11RequestHeaderArrayStart http request

def http11EntityHeader (h : Heap) (http : Http11Http) (request : Stringaa) :
    Option (Bool × Http11Http × Stringaa) :=
  http11Header h http11EntityHeaderArray http11EntityHeaderArrayStart http request

/-- The loop of `http11_request` over the lines behind the request line. The message body is not
read: `http11_message_body` returns 0. -/
def headersLoop (h : Heap) : Nat → Http11Http → Stringaa → Option (Bool × Http11Http × Stringaa)
  | 0, _, _ => none
  | fuel + 1, http, request => do
    let (isGeneral, http, request) ← http11GeneralHeader h http request
    let (isRequest, http, request) ← http.whenDo (!isGeneral) request (http11RequestHeader h)
    let (isEntity, http, request) ← http.whenDo (!isGeneral && !isRequest) request
      (http11EntityHeader h)
    let (isCrlf, request) ← http11Crlf h request
    if isGeneral || isRequest || isEntity then
      if isCrlf then headersLoop h fuel http request else return (false, http, request)
    else if isCrlf then return (true, http, request)
    else
      let (isFind, request) ← http11FindCrlf h request
      if isFind then
        let (_, request) ← http11Crlf h request
        headersLoop h fuel http request
      else return (false, http, request)

def http11Request (h : Heap) (http : Http11Http) (request : Stringaa) :
    Option (Bool × Http11Http × Stringaa) := do
  let (isRequestLine, http, request) ← http11RequestLine h http request
  http.whenDo isRequestLine request (headersLoop h request.budget)

def httpaaParseRequestHeaders (h : Heap) (http : Http11Http) (request : Stringaa) :
    Option (Bool × Http11Http × Stringaa) := do
  let pos := request.readPos
  let (isFind, request) ← http11FindCrlf h request
  if isFind then
    let (_, request) ← http11Crlf h request
    let (isFind, request) ← http11FindCrlf h request
    if isFind then
      let (isParse, http, request) ← http11Request h http (request.seek 0)
      return (isParse, http, if isParse then request else request.seek pos)
    else return (false, http, request.seek pos)
  else return (false, http, request.seek pos)

end Httpaa
