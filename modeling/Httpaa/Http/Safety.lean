import Httpaa.Http.Refinement
import Httpaa.Uri.Slices

/-!
# Parsing a request stays inside the request

The parser reads no character outside the text of the request, and every component it sets is a
slice of that text. The assignments of the recognisers are in range by the closure rules of the
combinators, and the parsed request keeps the range under assignments that do.
-/

namespace Httpaa

open Recogniser Stringaa

/-! ### Assignments in range -/

def HttpWrite.InText (c : Cursor UInt8) : HttpWrite → Prop
  | .method _ => True
  | .uri pos size _ => c.pos ≤ pos ∧ pos + size ≤ c.pos + c.rest.length
  | .part w => w.InText c
  | .version _ => True
  | .header _ pos size => c.pos ≤ pos ∧ pos + size ≤ c.pos + c.rest.length

theorem HttpWrite.inText_grows : GrowsBackwards HttpWrite.InText := by
  intro c c' w hreach hw
  have hpos := hreach.pos_le
  have hend := hreach.end_eq
  cases w with
  | method i => trivial
  | uri pos size isUri =>
      simp only [InText] at hw ⊢
      omega
  | part w => exact UriWrite.inText_grows c c' w hreach hw
  | version v => trivial
  | header i pos size =>
      simp only [InText] at hw ⊢
      omega

end Httpaa

namespace Httpaa.Text

open Recogniser UriWrite

private theorem shift_inText {c : Cursor UInt8} {w : UriWrite} (hw : w.InText ⟨0, c.rest⟩) :
    (w.shift c.pos).InText c := by
  cases w with
  | set p pos size =>
      simp only [InText, UriWrite.shift] at hw ⊢
      omega
  | unset p => trivial

private theorem requestUri_inText : NotesIn HttpWrite.InText requestUri := by
  intro c w hw
  have hend : _ + _ = 0 + c.rest.length := (uriReference_advances ⟨0, c.rest⟩).end_eq
  by_cases hrest : c.rest = []
  · simp [requestUri, hrest] at hw
  · simp only [requestUri, hrest, if_false, List.mem_cons, List.mem_map] at hw
    rcases hw with rfl | ⟨part, hpart, rfl⟩
    · simp only [HttpWrite.InText]
      omega
    · exact shift_inText (uriReference_inText ⟨0, c.rest⟩ part hpart)

private theorem requestLine_inText : NotesIn HttpWrite.InText requestLine := by
  have hgrows := HttpWrite.inText_grows
  have hmethod : NotesIn HttpWrite.InText method := .find fun _ _ => trivial
  have hversion : NotesIn HttpWrite.InText version := .find fun _ _ => trivial
  have hspace := method_advances.andThen space_advances
  have huri := hspace.andThen requestUri_advances
  exact .attempt (.andThen hgrows (.andThen hgrows (.andThen hgrows (.andThen hgrows
    (.andThen hgrows hmethod method_advances (.lift _)) hspace requestUri_inText) huri (.lift _))
    (huri.andThen space_advances) hversion) requestLineFront_advances (.lift _))

private theorem header_inText (names : List String) (start : Nat) :
    NotesIn HttpWrite.InText (header names start) := by
  intro c w hw
  cases hname : findName names start c.rest with
  | none => simp [header, hname] at hw
  | some found =>
      have hreach := Cursor.reaches_to (findName_suffix hname)
      have hpos := hreach.pos_le
      have hend := hreach.end_eq
      simp only [header, hname, List.mem_singleton] at hw
      subst hw
      simp only [HttpWrite.InText]
      simp only [Cursor.to_rest] at hend
      split <;> omega

private theorem headerLine_inText : NotesIn HttpWrite.InText headerLine :=
  .orElse HttpWrite.inText_grows (.orElse HttpWrite.inText_grows (header_inText _ _)
    (header_advances _ _) (header_inText _ _))
    (.orElse (header_advances _ _) (header_advances _ _)) (header_inText _ _)

private theorem headers_inText : NotesIn HttpWrite.InText headers := by
  intro c
  fun_induction headers c with
  | case1 c r hok hcrlf ih =>
      intro w hw
      rcases List.mem_append.mp hw with hw | hw
      · exact headerLine_inText c w hw
      · exact HttpWrite.inText_grows _ _ w
          ((headerLine_advances c).trans (Cursor.reaches_to (crlf_suffix _))) (ih w hw)
  | case2 c r hok hcrlf => exact headerLine_inText c
  | case3 c r hok hcrlf => simp
  | case4 c r hok hcrlf hfind ih =>
      intro w hw
      exact HttpWrite.inText_grows _ _ w
        (Cursor.reaches_to ((crlf_suffix _).trans (findCrlf_suffix _))) (ih w hw)
  | case5 c r hok hcrlf hfind => simp

private theorem request_inText : NotesIn HttpWrite.InText request :=
  .andThen HttpWrite.inText_grows requestLine_inText requestLine_advances headers_inText

end Httpaa.Text

namespace Httpaa

open Recogniser Stringaa

variable {request : Stringaa} {c : Cursor UInt8}

/-! ### Components in range -/

/-- The string is a slice of the request between two of its positions. -/
structure Stringaa.SliceOf (request : Stringaa) (first last : Nat) (s : Stringaa) : Prop where
  slice : ∃ pos, s.buf = request.buf.map (fun buf => buf.add pos) ∧ first ≤ pos ∧
    pos + s.bufSize ≤ last
  text : s.writePos ≤ s.bufSize

def http11HeaderCount : Nat :=
  http11GeneralHeaderArray.length + http11EntityHeaderArray.length + http11RequestHeaderArray.length

/-- A property of all components of the parsed request: of the request URI and its components, and
of the header slots. -/
structure Http11Http.Components (P : Stringaa → Prop) (http : Http11Http) : Prop where
  uri : P http.request.requestLine.requestUri.uri
  part : ∀ p, P (http.request.requestLine.requestUri.part p)
  header : ∀ i < http11HeaderCount, P (http.request.header i)

/-- If it is initialised, it is a slice of the request. -/
def Stringaa.InitSliceOf (request : Stringaa) (first last : Nat) (s : Stringaa) : Prop :=
  s.isInit = true → request.SliceOf first last s

section Components

variable {first last : Nat} {http : Http11Http}

private theorem uriFrom_slice {pos size : Nat} {isUri : Bool} (hpos : first ≤ pos)
    (hsize : pos + size ≤ request.writePos) :
    request.SliceOf first request.writePos (request.uriFrom pos size isUri) := by
  refine ⟨⟨pos, rfl, hpos, ?_⟩, ?_⟩ <;> simp only [Stringaa.uriFrom]
  · omega
  · split <;> omega

private theorem headerFrom_slice {pos size : Nat} (hpos : first ≤ pos) (hsize : pos + size ≤ last) :
    request.SliceOf first last (request.headerFrom pos size) :=
  ⟨⟨pos, rfl, hpos, hsize⟩, Nat.le_refl size⟩

private theorem write_part_slice {u : Uriaa} {w : UriWrite}
    (hu : ∀ p, request.InitSliceOf c.pos request.writePos (u.part p)) (hw : w.InText c)
    (hlength : c.pos + c.rest.length = request.writePos) (p : UriPart) :
    request.InitSliceOf c.pos request.writePos
      ((({ u with uri := request } : Uriaa).write w).part p) := by
  cases w with
  | set q pos size =>
      by_cases hp : p = q
      · intro _
        simp only [UriWrite.InText] at hw
        refine ⟨⟨pos, by simp [Uriaa.write, Uriaa.setPart, hp], hw.1, ?_⟩, ?_⟩ <;>
          simp only [Uriaa.write, Uriaa.setPart, hp, if_true]
        · omega
        · split <;> omega
      · simpa [Uriaa.write, Uriaa.setPart, hp] using hu p
  | unset q =>
      by_cases hp : p = q
      · intro hinit
        simp [Uriaa.write, Uriaa.unsetPart, hp] at hinit
      · simpa [Uriaa.write, Uriaa.unsetPart, hp] using hu p

private theorem write_components {w : HttpWrite}
    (hlength : c.pos + c.rest.length = request.writePos)
    (hhttp : http.Components (request.InitSliceOf c.pos request.writePos)) (hw : w.InText c) :
    (http.write request w).Components (request.InitSliceOf c.pos request.writePos) := by
  cases w with
  | method i => exact ⟨hhttp.uri, hhttp.part, hhttp.header⟩
  | uri pos size isUri =>
      simp only [HttpWrite.InText] at hw
      exact ⟨fun _ => uriFrom_slice hw.1 (by omega), hhttp.part, hhttp.header⟩
  | part w => exact ⟨hhttp.uri, write_part_slice hhttp.part hw hlength, hhttp.header⟩
  | version v => exact ⟨hhttp.uri, hhttp.part, hhttp.header⟩
  | header i pos size =>
      simp only [HttpWrite.InText] at hw
      refine ⟨hhttp.uri, hhttp.part, fun j hj => ?_⟩
      by_cases hij : j = i
      · simp only [Http11Http.write, Http11Http.setHeader, hij, if_true]
        exact fun _ => headerFrom_slice hw.1 (by omega)
      · simpa [Http11Http.write, Http11Http.setHeader, hij] using hhttp.header j hj

private theorem writeAll_components {writes : List HttpWrite}
    (hlength : c.pos + c.rest.length = request.writePos)
    (hhttp : http.Components (request.InitSliceOf c.pos request.writePos))
    (hwrites : ∀ w ∈ writes, w.InText c) :
    (http.writeAll request writes).Components (request.InitSliceOf c.pos request.writePos) := by
  induction writes generalizing http with
  | nil => exact hhttp
  | cons w writes ih =>
      exact ih (write_components hlength hhttp (hwrites w (by simp)))
        fun w' hw' => hwrites w' (List.mem_cons_of_mem w hw')

end Components

/-! ### The parser -/

/-- In a buffer whose bytes are memory, `http11_request` ends. What it does depends only on the
bytes below the write position, in whatever memory the buffer lies, so it reads no others. The read
position stays between where it was and the write position, and every component that it marks
initialised is a slice of the request's bytes. -/
theorem http11Request_safe (h : Heap) (http : Http11Http) (request : Stringaa)
    (hmem : ∀ i < request.bufSize, (request.charAt h i).isSome)
    (hread : request.readPos ≤ request.writePos) (hwrite : request.writePos ≤ request.bufSize)
    (hint : request.bufSize < 2 ^ 31) (hunset : http.Components fun s => s.isInit = false) :
    ∃ isRequest http' readPos,
      (∀ h' : Heap, (∀ i < request.writePos, request.charAt h' i = request.charAt h i) →
        http11Request h' http request = some (isRequest, http', request.seek readPos)) ∧
      request.readPos ≤ readPos ∧ readPos ≤ request.writePos ∧
      http'.Components (request.InitSliceOf request.readPos request.writePos) := by
  have hs := shows_unread (h := h) hread fun i hi => hmem i (by omega)
  have hlength : request.readPos + (request.unread h).length = request.writePos := hs.length
  have hreach := Text.request_advances ⟨request.readPos, request.unread h⟩
  have hend : _ + _ = request.readPos + (request.unread h).length := hreach.end_eq
  refine ⟨(Text.request ⟨request.readPos, request.unread h⟩).ok,
    http.writeAll request (Text.request ⟨request.readPos, request.unread h⟩).notes,
    (Text.request ⟨request.readPos, request.unread h⟩).cursor.pos, fun h' hsame => ?_,
    hreach.pos_le, by omega, ?_⟩
  · have hs' : request.Shows h' ⟨request.readPos, request.unread h⟩ :=
      ⟨hlength, fun i hi => (hsame _ (by simp only at hi ⊢; omega)).trans (hs.char i hi)⟩
    exact request_readsAt hs' (by omega) (.inr hunset.uri)
  · refine writeAll_components (c := ⟨request.readPos, request.unread h⟩) hlength ⟨?_, ?_, ?_⟩
      (Text.request_inText _)
    · exact fun hinit => absurd hinit (by simp [hunset.uri])
    · exact fun p hinit => absurd hinit (by simp [hunset.part p])
    · exact fun i hi hinit => absurd hinit (by simp [hunset.header i hi])

theorem http11Request_safe_get :
    ∃ isRequest http' readPos,
      (∀ h' : Heap, (∀ i < 18, (Stringaa.ofText 0 18).charAt h' i =
          (Stringaa.ofText 0 18).charAt (.ofText (literal "GET / HTTP/1.1\r\n\r\n")) i) →
        http11Request h' {} (.ofText 0 18) =
          some (isRequest, http', (Stringaa.ofText 0 18).seek readPos)) ∧
      0 ≤ readPos ∧ readPos ≤ 18 ∧
      http'.Components ((Stringaa.ofText 0 18).InitSliceOf 0 18) :=
  http11Request_safe (.ofText (literal "GET / HTTP/1.1\r\n\r\n")) {} (.ofText 0 18) (by decide)
    (by decide) (by decide) (by decide) ⟨rfl, fun _ => rfl, fun _ _ => rfl⟩

end Httpaa
