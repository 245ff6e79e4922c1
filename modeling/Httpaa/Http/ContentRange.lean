import Httpaa.Http.DateFormat
import Httpaa.Http.Scanners

/-!
# Content ranges

`http11_header_content_range` reads a character, then the unit, and then tests the character that it
has read in front of the unit for the space behind it. So it refuses every text.
-/

namespace Httpaa

open Recogniser Stringaa

/-! ### The functions of the source -/

/-- The loop of `http11_bytes_unit`: what is left of the constant, and the cursor. -/
def bytesLoop (h : Heap) : List UInt8 → Stringaa → Option (List UInt8 × Stringaa)
  | [], request => some ([], request)
  | x :: pc, request => do
    let c ← stringaaGetChar h request
    if x = toLower c then bytesLoop h pc (stringaaNextReadPos request).2
    else return (x :: pc, request)

/-- `http11_bytes_unit`. The cursor is not set back. -/
def http11BytesUnit (h : Heap) (request : Stringaa) : Option (Bool × Stringaa) := do
  let (pc, request) ← bytesLoop h (literal "bytes") request
  return (pc.isEmpty, request)

/-- Digits, `-` and digits. -/
def byteRangeRespSpec (h : Heap) (request : Stringaa) : Option (Bool × Stringaa) := do
  let digitPos := request.readPos
  let request ← http11CharsLoop h digitChars request.budget request
  if request.readPos ≠ digitPos then
    let (isMinus, request) ← stringaaIsChar h request (ch '-')
    if isMinus then
      let digitPos := request.readPos
      let request ← http11CharsLoop h digitChars request.budget request
      return (decide (request.readPos ≠ digitPos), request)
    else return (false, request)
  else return (false, request)

/-- `/` and `*` or digits, as far as they are there. -/
def instanceLength (h : Heap) (request : Stringaa) : Option Stringaa := do
  let (isSlash, request) ← stringaaIsChar h request (ch '/')
  if isSlash then
    let (isStar, request) ← stringaaIsChar h request (ch '*')
    if isStar then return request else http11CharsLoop h digitChars request.budget request
  else return request

/-- `http11_header_content_range` behind the unit; `c` is the character that has been read last. -/
def byteContentRange (h : Heap) (c : UInt8) (request : Stringaa) : Option (Bool × Stringaa) := do
  if c = http11Sp then
    let request := (stringaaNextReadPos request).2
    let (isStar, request) ← stringaaIsChar h request (ch '*')
    let (isByteRangeRespSpec, request) ←
      if isStar then some (true, request) else byteRangeRespSpec h request
    if isByteRangeRespSpec then return (true, ← instanceLength h request)
    else return (false, request)
  else return (false, request)

/-- `http11_header_content_range`. It leaves `http` alone, and does not read `c` again behind the
unit. -/
def http11HeaderContentRange (h : Heap) (request : Stringaa) : Option (Bool × Stringaa) := do
  let pos := request.readPos
  let c ← stringaaGetChar h request
  let (isBytesUnit, request) ← http11BytesUnit h request
  let (isContentRange, request) ←
    if isBytesUnit then byteContentRange h c request else some (false, request)
  if isContentRange then return (true, request) else return (false, request.seek pos)

theorem digits_to {h : Heap} {s : Stringaa} {c : Cursor UInt8} {a : List UInt8} (hs : s.Shows h c)
    (ha : a <:+ c.rest) :
    http11CharsLoop h digitChars (s.seek (c.to a).pos).budget (s.seek (c.to a).pos) =
      some (s.seek (c.to (a.dropWhile digitChars)).pos) :=
  http11CharsLoop_eq _ (by decide) hs ha (hs.budget ha _)

/-! ### Content ranges -/

/-- `*`, or a run of digits, `-` and a run of digits. -/
def IsRespSpec (spec : List UInt8) : Prop :=
  spec = [ch '*'] ∨ ∃ first last, IsRun digitChars first ∧ IsRun digitChars last ∧
    spec = first ++ ch '-' :: last

/-- Nothing if no `/` follows, or `/` and `*`, or `/` and all digits that follow. -/
def IsInstanceLength (length rest : List UInt8) : Prop :=
  (length = [] ∧ rest.head? ≠ some (ch '/')) ∨ length = [ch '/', ch '*'] ∨
    ∃ digits, length = ch '/' :: digits ∧ (∀ x ∈ digits, digitChars x = true) ∧
      (digits ++ rest).head? ≠ some (ch '*') ∧ ∀ x ∈ rest.head?, digitChars x = false

/-- A space, a specification whose last run goes on as far as it can, and the length, if there is
one. -/
structure IsByteRange (s spec length rest : List UInt8) : Prop where
  text : s = http11Sp :: (spec ++ (length ++ rest))
  isRespSpec : IsRespSpec spec
  maximal : spec ≠ [ch '*'] → ∀ x ∈ (length ++ rest).head?, digitChars x = false
  isLength : IsInstanceLength length rest

/-- The text begins with `bytes` in any case, a space and a specification. -/
def BeginsContentRange (s : List UInt8) : Prop :=
  ∃ unit spec rest, s = unit ++ http11Sp :: (spec ++ rest) ∧ unit.map toLower = literal "bytes" ∧
    IsRespSpec spec

/-- `http11_header_content_range` recognises the texts that begin with a content range, and steps
over it with its length; otherwise it leaves the cursor where it was. -/
def ReadsContentRange (h : Heap) (request : Stringaa) : Prop :=
  ∃ is request', http11HeaderContentRange h request = some (is, request') ∧
    (is = true ↔ BeginsContentRange (request.unread h)) ∧
    (is = true → ∃ unit spec length rest s, request.unread h = unit ++ s ∧
      unit.map toLower = literal "bytes" ∧ IsByteRange s spec length rest ∧
      request' = request.seek
        (request.readPos + (unit ++ http11Sp :: (spec ++ length)).length)) ∧
    (is = false → request' = request)

/-! ### The unit -/

section Unit

variable {h : Heap} {request : Stringaa}

private theorem bytesLoop_eq {pc : List UInt8} (hpc : ∀ x ∈ pc, toLower x = x)
    (request : Stringaa) :
    bytesLoop h pc request = matchLower h pc request := by
  induction pc generalizing request with
  | nil => rfl
  | cons x pc ih =>
      have hrest := ih fun z hz => hpc z (List.mem_cons_of_mem x hz)
      rw [bytesLoop, matchLower, hpc x List.mem_cons_self]
      simp only [hrest]

private theorem Tracks.bytesUnit :
    Tracks h (http11BytesUnit h) (Text.matchLower (literal "bytes")) := by
  have hlower : ∀ x ∈ literal "bytes", toLower x = x := by decide +kernel
  have hzero : ∀ x ∈ literal "bytes", toLower x ≠ toLower 0 := by decide +kernel
  constructor
  · intro s c hs
    obtain ⟨left, heq, hleft⟩ := matchLower_eq (literal "bytes") hzero hs (List.suffix_refl c.rest)
    rw [Cursor.to_self] at heq
    rw [http11BytesUnit, bytesLoop_eq hlower, heq]
    by_cases hok : (Text.matchLower (literal "bytes") c.rest).1 = true
    · simp [hleft.mpr hok, hok]
    · have hne := hleft.not.mpr hok
      simp [hne, hok]
  · exact Text.matchLower_suffix _

private theorem bytesUnit_head {s : List UInt8}
    (hok : (Text.matchLower (literal "bytes") s).1 = true) :
    s.headD 0 ≠ http11Sp := by
  have hb : toLower http11Sp ≠ toLower (ch 'b') := by decide
  intro hhead
  rcases s with _ | ⟨x, s⟩
  · cases hhead
  · obtain rfl : x = http11Sp := hhead
    rw [show literal "bytes" = ch 'b' :: literal "ytes" by decide, Text.matchLower, if_neg hb.symm]
      at hok
    cases hok

private theorem http11HeaderContentRange_eq (hread : Readable h request) :
    http11HeaderContentRange h request = some (false, request) := by
  have hchar : stringaaGetChar h request = some ((request.unread h).headD 0) := hread.shows.getChar
  obtain ⟨piece, -, hunit⟩ := Tracks.bytesUnit.run hread
  rw [http11HeaderContentRange, hchar, Option.bind_eq_bind, Option.bind_some, hunit]
  by_cases hok : (Text.matchLower (literal "bytes") (request.unread h)).1 = true
  · have hsp := bytesUnit_head hok
    simp only [hok, byteContentRange, if_neg hsp, Option.bind_eq_bind, Option.bind_some, if_true]
    rfl
  · simp only [hok, Option.bind_eq_bind, Option.bind_some]
    rfl

end Unit

/-- Content ranges are read faithfully only where there are none. -/
theorem http11HeaderContentRange_reads (h : Heap) (request : Stringaa)
    (hread : Readable h request) :
    ReadsContentRange h request ↔ ¬ BeginsContentRange (request.unread h) := by
  constructor
  · rintro ⟨is, request', hrun, hbegins, -⟩
    rw [http11HeaderContentRange_eq hread] at hrun
    obtain ⟨rfl, -⟩ := Prod.mk.inj (Option.some.inj hrun)
    intro hrange
    cases hbegins.mpr hrange
  · intro hnone
    refine ⟨false, request, http11HeaderContentRange_eq hread, ?_, ?_, fun _ => rfl⟩
    · simpa using hnone
    · intro hfalse
      cases hfalse

/-- `bytes=0-1` is no content range. -/
theorem http11HeaderContentRange_reads_equals :
    ReadsContentRange (.ofText (literal "bytes=0-1")) (.ofText 0 9) := by
  apply (http11HeaderContentRange_reads _ (.ofText 0 9) ⟨by decide, by decide⟩).mpr
  rintro ⟨unit, spec, rest, htext, hunit, -⟩
  have hlength : unit.length = 5 := by
    have hbytes := congrArg List.length hunit
    rwa [List.length_map] at hbytes
  have hbehind := congrArg (List.head? ∘ List.drop 5) htext
  rw [Function.comp_apply, Function.comp_apply, List.drop_left' hlength, List.head?_cons] at hbehind
  exact absurd hbehind (by decide)

/-- `bytes 0-1/2` is refused. -/
theorem not_http11HeaderContentRange_reads :
    ¬ ReadsContentRange (.ofText (literal "bytes 0-1/2")) (.ofText 0 11) := by
  rintro ⟨is, request', hrun, hbegins, -⟩
  rw [http11HeaderContentRange_eq ⟨by decide, by decide⟩] at hrun
  obtain ⟨rfl, -⟩ := Prod.mk.inj (Option.some.inj hrun)
  have hrange : BeginsContentRange
      ((Stringaa.ofText 0 11).unread (.ofText (literal "bytes 0-1/2"))) :=
    ⟨literal "bytes", literal "0-1", literal "/2", by decide, by decide,
      .inr ⟨literal "0", literal "1", ⟨by decide, by decide +kernel⟩,
        ⟨by decide, by decide +kernel⟩, by decide⟩⟩
  cases hbegins.mpr hrange

end Httpaa
