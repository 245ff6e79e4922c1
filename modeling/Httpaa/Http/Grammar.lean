import Httpaa.Http.Parser
import Httpaa.Uri.Grammar

/-!
# Requests on texts

What the request parser does with the text in front of its cursor. The notes of a recogniser are the
assignments to the parsed request, with positions counted in the text of the request.
-/

namespace Httpaa

/-- An assignment to the parsed request. The one to the request URI says how many characters the
reference takes up, and whether it is one. -/
inductive HttpWrite
  | method (method : Nat)
  | uri (pos size : Nat) (isUri : Bool)
  | part (w : UriWrite)
  | version (version : Http11HttpVersion)
  | header (index pos size : Nat)
deriving DecidableEq, Repr

/-- The request URI after a reference from `pos` on was looked for in what the request holds. -/
def Stringaa.uriFrom (request : Stringaa) (pos size : Nat) (isUri : Bool) : Stringaa where
  buf := request.buf.map fun buf => buf.add pos
  bufSize := request.writePos - pos
  readPos := size
  writePos := if isUri then size else request.writePos - pos
  isInit := true

/-- A header from `pos` on. -/
def Stringaa.headerFrom (request : Stringaa) (pos size : Nat) : Stringaa where
  buf := request.buf.map fun buf => buf.add pos
  bufSize := size
  writePos := size
  isInit := true

def Http11Http.write (request : Stringaa) (http : Http11Http) : HttpWrite → Http11Http
  | .method method => http.setMethod method
  | .uri pos size isUri =>
      http.setRequestUri
        { http.request.requestLine.requestUri with uri := request.uriFrom pos size isUri }
  | .part w =>
      http.setRequestUri
        { ({ http.request.requestLine.requestUri with uri := request } : Uriaa).write w with
          uri := http.request.requestLine.requestUri.uri }
  | .version version => http.setHttpVersion version
  | .header index pos size => http.setHeader index (request.headerFrom pos size)

def Http11Http.writeAll (request : Stringaa) (http : Http11Http) (writes : List HttpWrite) :
    Http11Http :=
  writes.foldl (write request) http

/-- The same assignment in a text that starts `n` characters earlier. -/
def UriWrite.shift (n : Nat) : UriWrite → UriWrite
  | .set p pos size => .set p (n + pos) size
  | .unset p => .unset p

end Httpaa

namespace Httpaa.Text

open Recogniser

abbrev Reader := Recogniser UInt8 HttpWrite

/-! ### Lines -/

def crlf : List UInt8 → Bool × List UInt8
  | x :: y :: rest =>
      if x = http11Cr ∧ y = http11Lf then (true, rest) else (false, x :: y :: rest)
  | s => (false, s)

/-- What stands from the first end of line on. -/
def fromCrlf : List UInt8 → Option (List UInt8)
  | [] => none
  | x :: rest => if (crlf (x :: rest)).1 then some (x :: rest) else fromCrlf rest

def findCrlf (s : List UInt8) : Bool × List UInt8 :=
  match fromCrlf s with
  | some rest => (true, rest)
  | none => (false, s)

theorem crlf_suffix (s : List UInt8) : (crlf s).2 <:+ s := by
  rcases s with _ | ⟨x, _ | ⟨y, rest⟩⟩
  · exact List.suffix_refl []
  · exact List.suffix_refl [x]
  · by_cases hxy : x = http11Cr ∧ y = http11Lf
    · simpa [crlf, hxy] using (List.suffix_cons _ rest).trans (List.suffix_cons _ _)
    · simp [crlf, hxy]

theorem crlf_eq {s : List UInt8} (h : (crlf s).1 = true) :
    s = http11Cr :: http11Lf :: (crlf s).2 := by
  rcases s with _ | ⟨x, _ | ⟨y, rest⟩⟩
  · cases h
  · cases h
  · by_cases hxy : x = http11Cr ∧ y = http11Lf
    · simp [crlf, hxy]
    · simp [crlf, hxy] at h

theorem crlf_eq_self {s : List UInt8} (h : ¬ (crlf s).1 = true) : (crlf s).2 = s := by
  rcases s with _ | ⟨x, _ | ⟨y, rest⟩⟩
  · rfl
  · rfl
  · by_cases hxy : x = http11Cr ∧ y = http11Lf
    · simp [crlf, hxy] at h
    · simp [crlf, hxy]

theorem crlf_length {s : List UInt8} (h : (crlf s).1 = true) :
    (crlf s).2.length < s.length := by
  conv_rhs => rw [crlf_eq h]
  simp only [List.length_cons]
  omega

private theorem fromCrlf_suffix {s rest : List UInt8} (h : fromCrlf s = some rest) :
    rest <:+ s := by
  induction s with
  | nil => cases h
  | cons x s ih =>
      rw [fromCrlf] at h
      split at h
      · simp_all
      · exact (ih h).trans (List.suffix_cons x s)

private theorem crlf_of_fromCrlf {s rest : List UInt8} (h : fromCrlf s = some rest) :
    (crlf rest).1 = true := by
  induction s with
  | nil => cases h
  | cons x s ih =>
      rw [fromCrlf] at h
      split at h
      · simp_all
      · exact ih h

theorem findCrlf_suffix (s : List UInt8) : (findCrlf s).2 <:+ s := by
  cases h : fromCrlf s with
  | none => simp [findCrlf, h]
  | some rest => simpa [findCrlf, h] using fromCrlf_suffix h

theorem crlf_of_findCrlf {s : List UInt8} (h : (findCrlf s).1 = true) :
    (crlf (findCrlf s).2).1 = true := by
  cases hs : fromCrlf s with
  | none => simp [findCrlf, hs] at h
  | some rest => simpa [findCrlf, hs] using crlf_of_fromCrlf hs

theorem findCrlf_eq_self {s : List UInt8} (h : ¬ (findCrlf s).1 = true) : (findCrlf s).2 = s := by
  cases hs : fromCrlf s with
  | none => simp [findCrlf, hs]
  | some rest => simp [findCrlf, hs] at h

theorem findCrlf_length {x : UInt8} {s : List UInt8} (hx : x ≠ http11Cr)
    (hhead : s.head? = some x) (h : (findCrlf s).1 = true) :
    (findCrlf s).2.length < s.length := by
  refine Nat.lt_of_le_of_ne (findCrlf_suffix s).length_le fun hlength => hx ?_
  rw [← (findCrlf_suffix s).eq_of_length hlength, crlf_eq (crlf_of_findCrlf h)] at hhead
  simpa using hhead.symm

/-! ### The request line -/

/-- The comparison with a constant: whether the constant was used up. -/
def matchUpper : List UInt8 → List UInt8 → Bool × List UInt8
  | [], s => (true, s)
  | _ :: _, [] => (false, [])
  | x :: pc, y :: s => if x = toUpper y then matchUpper pc s else (false, y :: s)

theorem matchUpper_suffix (pc s : List UInt8) : (matchUpper pc s).2 <:+ s := by
  fun_induction matchUpper pc s with
  | case1 s => exact List.suffix_refl s
  | case2 => exact List.suffix_refl []
  | case3 pc y s ih => exact ih.trans (List.suffix_cons y s)
  | case4 x pc y s hne => exact List.suffix_refl _

def methodLoop : List String → Nat → List UInt8 → Option (Nat × List UInt8)
  | [], _, _ => none
  | name :: names, i, s =>
      if (matchUpper (literal name) s).1 then
        some (i, (matchUpper (literal name) s).2)
      else methodLoop names (i + 1) (matchUpper (literal name) s).2

private theorem methodLoop_suffix {names : List String} {i method : Nat} {s rest : List UInt8}
    (h : methodLoop names i s = some (method, rest)) : rest <:+ s := by
  induction names generalizing i s with
  | nil => cases h
  | cons name names ih =>
      have hsuffix := matchUpper_suffix (literal name) s
      rw [methodLoop] at h
      split at h
      · simp only [Option.some.injEq, Prod.mk.injEq] at h
        exact h.2 ▸ hsuffix
      · exact (ih h).trans hsuffix

def method : Reader := find (methodLoop http11MethodArray 0) .method

def space : Reader := lift (isChar http11Sp)

def requestUri : Reader := fun c =>
  let r := uriReference ⟨0, c.rest⟩
  if c.rest = [] then ⟨false, c, []⟩
  else
    { ok := r.ok
      cursor := if r.ok then c.to r.cursor.rest else c
      notes := .uri c.pos r.cursor.pos r.ok :: r.notes.map fun w => .part (w.shift c.pos) }

/-- The number of a run of digits, as far as `buf_int` holds it. -/
def number (digits : List UInt8) : Int :=
  atoi (digits.take (if bufIntSize ≤ digits.length then bufIntSize - 1 else digits.length))

/-- `http11_http_version`: the version and what stands behind it. -/
def versionNumbers (s : List UInt8) : Option (Http11HttpVersion × List UInt8) :=
  let (isHttp, s) := matchUpper (literal "HTTP/") s
  let (isDot, t) := isChar (ch '.') (s.dropWhile digitChars)
  if isHttp && !(s.takeWhile digitChars).isEmpty && isDot && !(t.takeWhile digitChars).isEmpty then
    some (⟨number (s.takeWhile digitChars), number (t.takeWhile digitChars)⟩,
      t.dropWhile digitChars)
  else none

private theorem versionNumbers_suffix {s rest : List UInt8} {version : Http11HttpVersion}
    (h : versionNumbers s = some (version, rest)) : rest <:+ s := by
  simp only [versionNumbers] at h
  split at h
  · simp only [Option.some.injEq, Prod.mk.injEq] at h
    rw [← h.2]
    exact (((List.dropWhile_suffix _).trans (isChar_suffix _ _)).trans
      (List.dropWhile_suffix _)).trans (matchUpper_suffix _ s)
  · cases h

def version : Reader := find versionNumbers .version

/-- What `http11_request_line` reads in front of the end of the line. -/
def requestLineFront : Reader :=
  andThen (andThen (andThen (andThen method space) requestUri) space) version

def requestLine : Reader := attempt (andThen requestLineFront (lift crlf))

theorem method_advances : Advances method := .find fun _ _ _ => methodLoop_suffix

theorem space_advances : Advances space := .lift (isChar_suffix _)

theorem requestUri_advances : Advances requestUri := by
  intro c
  have hreach := uriReference_advances ⟨0, c.rest⟩
  by_cases hrest : c.rest = []
  · simpa [requestUri, hrest] using Cursor.Reaches.refl c
  · by_cases hok : (uriReference ⟨0, c.rest⟩).ok = true
    · obtain ⟨front, hfront, -⟩ := hreach
      have hsuffix : (uriReference ⟨0, c.rest⟩).cursor.rest <:+ c.rest := ⟨front, hfront.symm⟩
      simpa [requestUri, hrest, hok] using Cursor.reaches_to hsuffix
    · simpa [requestUri, hrest, hok] using Cursor.Reaches.refl c

theorem version_advances : Advances version := .find fun _ _ _ => versionNumbers_suffix

theorem requestLineFront_advances : Advances requestLineFront :=
  .andThen (.andThen (.andThen (.andThen method_advances space_advances) requestUri_advances)
    space_advances) version_advances

theorem requestLine_advances : Advances requestLine :=
  .attempt (.andThen requestLineFront_advances (.lift crlf_suffix))

/-! ### Header lines -/

/-- What stands from the colon behind the name on, if the text begins with the name and a colon. -/
def nameColon : List UInt8 → List UInt8 → Option (List UInt8)
  | [], s => if s.head? = some (ch ':') then some s else none
  | _ :: _, [] => none
  | x :: name, y :: s => if x = toLower y then nameColon name s else none

def findName : List String → Nat → List UInt8 → Option (Nat × List UInt8)
  | [], _, _ => none
  | name :: names, i, s =>
      match nameColon (literal name) s with
      | some t => some (i, t)
      | none => findName names (i + 1) s

def header (names : List String) (start : Nat) : Reader := fun c =>
  match findName names start c.rest with
  | some (i, t) =>
      let (isFind, t') := findCrlf t
      ⟨true, c.to t', [.header i (c.to t).pos (if isFind then t.length - t'.length else t.length)]⟩
  | none => ⟨false, c, []⟩

def headerLine : Reader :=
  orElse (orElse (header http11GeneralHeaderArray http11GeneralHeaderArrayStart)
    (header http11RequestHeaderArray http11RequestHeaderArrayStart))
    (header http11EntityHeaderArray http11EntityHeaderArrayStart)

private theorem nameColon_suffix {name s t : List UInt8} (h : nameColon name s = some t) :
    t <:+ s := by
  fun_induction nameColon name s with
  | case1 s hcolon => simp_all
  | case2 s hcolon => cases h
  | case3 x name => cases h
  | case4 name y s ih => exact (ih h).trans (List.suffix_cons y s)
  | case5 x name y s hne => cases h

theorem nameColon_head {name s t : List UInt8} (h : nameColon name s = some t) :
    t.head? = some (ch ':') := by
  fun_induction nameColon name s with
  | case1 s hcolon => simp_all
  | case2 s hcolon => cases h
  | case3 x name => cases h
  | case4 name y s ih => exact ih h
  | case5 x name y s hne => cases h

theorem findName_mem {names : List String} {i index : Nat} {s t : List UInt8}
    (h : findName names i s = some (index, t)) :
    ∃ name, i ≤ index ∧ names[index - i]? = some name ∧ nameColon (literal name) s = some t := by
  induction names generalizing i with
  | nil => cases h
  | cons name names ih =>
      rw [findName] at h
      cases hname : nameColon (literal name) s with
      | none =>
          obtain ⟨name', hle, hget, ht⟩ := ih (by simpa [hname] using h)
          refine ⟨name', by omega, ?_, ht⟩
          rwa [show index - i = (index - (i + 1)) + 1 by omega, List.getElem?_cons_succ]
      | some t' =>
          simp only [hname, Option.some.injEq, Prod.mk.injEq] at h
          exact ⟨name, by omega, by simp [← h.1], by rw [hname, h.2]⟩

theorem findName_suffix {names : List String} {i index : Nat} {s t : List UInt8}
    (h : findName names i s = some (index, t)) : t <:+ s := by
  obtain ⟨name, -, -, ht⟩ := findName_mem h
  exact nameColon_suffix ht

private theorem header_fail {names : List String} {start : Nat} {c : Cursor UInt8}
    (h : ¬ (header names start c).ok = true) : header names start c = ⟨false, c, []⟩ := by
  cases hname : findName names start c.rest with
  | none => simp [header, hname]
  | some found => simp [header, hname] at h

theorem headerLine_fail {c : Cursor UInt8} (h : ¬ (headerLine c).ok = true) :
    headerLine c = ⟨false, c, []⟩ := by
  by_cases hgeneral : (header http11GeneralHeaderArray http11GeneralHeaderArrayStart c).ok = true
  · simp [headerLine, orElse, hgeneral] at h
  have heq := header_fail hgeneral
  by_cases hrequest : (header http11RequestHeaderArray http11RequestHeaderArrayStart c).ok = true
  · simp [headerLine, orElse, heq, Outcome.after, hrequest] at h
  have heq' := header_fail hrequest
  simp only [headerLine, orElse, heq, Outcome.after, heq'] at h ⊢
  exact header_fail h

theorem header_advances (names : List String) (start : Nat) : Advances (header names start) := by
  intro c
  cases hname : findName names start c.rest with
  | none => simpa [header, hname] using Cursor.Reaches.refl c
  | some found =>
      simpa [header, hname] using
        Cursor.reaches_to ((findCrlf_suffix _).trans (findName_suffix hname))

theorem headerLine_advances : Advances headerLine :=
  .orElse (.orElse (header_advances _ _) (header_advances _ _)) (header_advances _ _)

def headers (c : Cursor UInt8) : Outcome UInt8 HttpWrite :=
  let r := headerLine c
  if r.ok then
    if _h : (crlf r.cursor.rest).1 = true then
      (headers (r.cursor.to (crlf r.cursor.rest).2)).after r.notes
    else ⟨false, r.cursor, r.notes⟩
  else if (crlf c.rest).1 then ⟨true, c.to (crlf c.rest).2, []⟩
  else if _h : (findCrlf c.rest).1 = true then headers (c.to (crlf (findCrlf c.rest).2).2)
  else ⟨false, c, []⟩
termination_by c.rest.length
decreasing_by
  · obtain ⟨front, hrest, -⟩ := headerLine_advances c
    have hlt := crlf_length _h
    simp only [Cursor.to_rest]
    rw [hrest, List.length_append]
    exact Nat.lt_of_lt_of_le hlt (Nat.le_add_left _ _)
  · have hlt := crlf_length (crlf_of_findCrlf _h)
    have hle := (findCrlf_suffix c.rest).length_le
    simp only [Cursor.to_rest]
    omega

def request : Reader := andThen requestLine headers

/-- `httpaa_parse_request_headers` on a text from its begin on. -/
def parseRequestHeaders (s : List UInt8) : Outcome UInt8 HttpWrite :=
  if (findCrlf s).1 && (findCrlf (crlf (findCrlf s).2).2).1 then attempt request ⟨0, s⟩
  else ⟨false, ⟨0, s⟩, []⟩

private theorem headers_advances : Advances headers := by
  intro c
  fun_induction headers c with
  | case1 c r hok hcrlf ih =>
      exact ((headerLine_advances c).trans (Cursor.reaches_to (crlf_suffix _))).trans ih
  | case2 c r hok hcrlf => exact headerLine_advances c
  | case3 c r hok hcrlf => exact Cursor.reaches_to (crlf_suffix _)
  | case4 c r hok hcrlf hfind ih =>
      exact (Cursor.reaches_to ((crlf_suffix _).trans (findCrlf_suffix _))).trans ih
  | case5 c r hok hcrlf hfind => exact Cursor.Reaches.refl c

theorem request_advances : Advances request := .andThen requestLine_advances headers_advances

end Httpaa.Text
