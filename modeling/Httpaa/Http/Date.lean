import Httpaa.Http.Headers

/-!
# The date recognisers

`http11_date` and the functions below it. The functions that look a name up in a table do not set
the cursor back between two entries, and `http11_date3` fails behind two digits.
-/

namespace Httpaa

open Recogniser Stringaa

/-! ### The functions of the source -/

def http11DateWkdayArray : List String := ["Mon", "Tue", "Wed", "Thu", "Fri", "Sat", "Sun"]

def http11DateWeekdayArray : List String :=
  ["Monday", "Tuesday", "Wednesday", "Thursday", "Friday", "Saturday", "Sunday"]

def http11DateMonthArray : List String :=
  ["Jan", "Feb", "Mar", "Apr", "May", "Jun", "Jul", "Aug", "Sep", "Oct", "Nov", "Dec"]

/-- Whether something is recognised, and the cursor. -/
abbrev DateReader := Stringaa → Option (Bool × Stringaa)

/-- Nested `if`s, each function behind the one before it. -/
def inTurn : List DateReader → DateReader
  | [], request => some (true, request)
  | f :: fs, request => do
    let (is, request) ← f request
    if is then inTurn fs request else return (false, request)

/-- `pos = request->read_pos; ... if (!is) request->read_pos = pos;`. -/
def rewinding (f : DateReader) : DateReader := fun request => do
  let pos := request.readPos
  let (is, request) ← f request
  return (is, if is then request else request.seek pos)

/-- `c = stringaa_get_char(request); if (c == x) stringaa_next_read_pos(request);`. -/
def dateChar (h : Heap) (x : UInt8) : DateReader := fun request => stringaaIsChar h request x

/-- `for (i = 0; i < n; i++) { if (HTTP11_DIGIT) { next; c = get; } else break; }` and `i == n`. -/
def dateDigits (h : Heap) : Nat → DateReader
  | 0, request => some (true, request)
  | n + 1, request => do
    let c ← stringaaGetChar h request
    if digitChars c then dateDigits h n (stringaaNextReadPos request).2 else return (false, request)

/-- `for (; *pc != 0; pc++) { if (_tolower(*pc) == _tolower(c)) { next; c = get; } else break; }`:
what is left of the constant, and the cursor. -/
def matchLower (h : Heap) : List UInt8 → Stringaa → Option (List UInt8 × Stringaa)
  | [], request => some ([], request)
  | x :: pc, request => do
    let c ← stringaaGetChar h request
    if toLower x = toLower c then matchLower h pc (stringaaNextReadPos request).2
    else return (x :: pc, request)

/-- The loop over a table of names. The cursor is not set back between two entries. -/
def nameLoop (h : Heap) : List String → DateReader
  | [], request => some (false, request)
  | name :: names, request => do
    let (pc, request) ← matchLower h (literal name) request
    if pc = [] then return (true, request) else nameLoop h names request

def http11Wkday (h : Heap) : DateReader := nameLoop h http11DateWkdayArray

def http11Weekday (h : Heap) : DateReader := nameLoop h http11DateWeekdayArray

def http11Month (h : Heap) : DateReader := nameLoop h http11DateMonthArray

/-- The loop over `s_gmt`. -/
def dateGmt (h : Heap) : DateReader := fun request => do
  let (pc, request) ← matchUpper h (literal "GMT") request
  return (decide (pc = []), request)

/-- The day in `http11_date3`: two digits set nothing, and otherwise a space and a digit are looked
for where the digits were. -/
def dateDay (h : Heap) : DateReader := fun request => do
  let digitPos := request.readPos
  let (isTwo, request) ← dateDigits h 2 request
  if isTwo then return (false, request)
  else inTurn [http11Space h, dateDigits h 1] (request.seek digitPos)

def http11Time (h : Heap) : DateReader :=
  rewinding (inTurn [dateDigits h 2, dateChar h (ch ':'), dateDigits h 2, dateChar h (ch ':'),
    dateDigits h 2])

def http11Date1 (h : Heap) : DateReader :=
  rewinding (inTurn [dateDigits h 2, http11Space h, http11Month h, http11Space h, dateDigits h 4])

def http11Date2 (h : Heap) : DateReader :=
  rewinding (inTurn [dateDigits h 2, dateChar h (ch '-'), http11Month h, dateChar h (ch '-'),
    dateDigits h 2])

def http11Date3 (h : Heap) : DateReader :=
  rewinding (inTurn [http11Month h, http11Space h, dateDay h])

def http11Rfc1123Date (h : Heap) : DateReader :=
  rewinding (inTurn [http11Wkday h, dateChar h (ch ','), http11Space h, http11Date1 h,
    http11Space h, http11Time h, http11Space h, dateGmt h])

def http11Rfc850Date (h : Heap) : DateReader :=
  rewinding (inTurn [http11Weekday h, dateChar h (ch ','), http11Space h, http11Date2 h,
    http11Space h, http11Time h, http11Space h, dateGmt h])

def http11AsctimeDate (h : Heap) : DateReader :=
  rewinding (inTurn [http11Wkday h, http11Space h, http11Date3 h, http11Space h, http11Time h,
    http11Space h, dateDigits h 4])

def http11Date (h : Heap) : DateReader := fun request => do
  let (is, request) ← http11Rfc1123Date h request
  if is then return (true, request)
  let (is, request) ← http11Rfc850Date h request
  if is then return (true, request)
  http11AsctimeDate h request

/-! ### The same on texts -/

namespace Text

abbrev DateReader := List UInt8 → Bool × List UInt8

def inTurn : List DateReader → DateReader
  | [], s => (true, s)
  | g :: gs, s => if (g s).1 then inTurn gs (g s).2 else (false, (g s).2)

def rewinding (g : DateReader) : DateReader := fun s => if (g s).1 then g s else (false, s)

def digits : Nat → DateReader
  | 0, s => (true, s)
  | _ + 1, [] => (false, [])
  | n + 1, x :: s => if digitChars x then digits n s else (false, x :: s)

def matchLower : List UInt8 → List UInt8 → Bool × List UInt8
  | [], s => (true, s)
  | _ :: _, [] => (false, [])
  | x :: pc, y :: s => if toLower x = toLower y then matchLower pc s else (false, y :: s)

def nameLoop : List String → DateReader
  | [], s => (false, s)
  | name :: names, s =>
      if (matchLower (literal name) s).1 then (true, (matchLower (literal name) s).2)
      else nameLoop names (matchLower (literal name) s).2

def day : DateReader := fun s =>
  if (digits 2 s).1 then (false, (digits 2 s).2) else inTurn [isChar http11Sp, digits 1] s

def time : DateReader :=
  rewinding (inTurn [digits 2, isChar (ch ':'), digits 2, isChar (ch ':'), digits 2])

def date1 : DateReader :=
  rewinding (inTurn [digits 2, isChar http11Sp, nameLoop http11DateMonthArray, isChar http11Sp,
    digits 4])

def date2 : DateReader :=
  rewinding (inTurn [digits 2, isChar (ch '-'), nameLoop http11DateMonthArray, isChar (ch '-'),
    digits 2])

def date3 : DateReader :=
  rewinding (inTurn [nameLoop http11DateMonthArray, isChar http11Sp, day])

def rfc1123Date : DateReader :=
  rewinding (inTurn [nameLoop http11DateWkdayArray, isChar (ch ','), isChar http11Sp, date1,
    isChar http11Sp, time, isChar http11Sp, matchUpper (literal "GMT")])

def rfc850Date : DateReader :=
  rewinding (inTurn [nameLoop http11DateWeekdayArray, isChar (ch ','), isChar http11Sp, date2,
    isChar http11Sp, time, isChar http11Sp, matchUpper (literal "GMT")])

def asctimeDate : DateReader :=
  rewinding (inTurn [nameLoop http11DateWkdayArray, isChar http11Sp, date3, isChar http11Sp, time,
    isChar http11Sp, digits 4])

/-- The second reader, behind a first one that fails. -/
def elseTry (g g' : DateReader) : DateReader := fun s => if (g s).1 then g s else g' (g s).2

def date : DateReader := elseTry rfc1123Date (elseTry rfc850Date asctimeDate)

end Text

/-! ### Each function of the source does what the one on texts does -/

section Tracks

variable {h : Heap} {f f' : DateReader} {g g' : Text.DateReader} {fs : List DateReader}
  {gs : List Text.DateReader}

theorem Tracks.inTurn (hall : List.Forall₂ (Tracks h) fs gs) :
    Tracks h (inTurn fs) (Text.inTurn gs) := by
  induction hall with
  | nil =>
      exact ⟨fun s c _ => by simp [Httpaa.inTurn, Text.inTurn, Cursor.to_self], List.suffix_refl⟩
  | @cons f g fs gs hf _ ih =>
      refine ⟨fun s c hs => ?_, fun s => ?_⟩
      · have hrest := ih.follows.to ih.suffix hs (hf.suffix c.rest)
        rw [Httpaa.inTurn, hf.follows s c hs, Text.inTurn]
        by_cases hok : (g c.rest).1 = true
        · simpa [hok] using hrest
        · simp [hok]
      · rw [Text.inTurn]
        split
        · exact (ih.suffix _).trans (hf.suffix s)
        · exact hf.suffix s

theorem Tracks.rewinding (hf : Tracks h f g) : Tracks h (rewinding f) (Text.rewinding g) := by
  refine ⟨fun s c hs => ?_, fun s => ?_⟩
  · simp only [Httpaa.rewinding, hf.follows s c hs, Text.rewinding, Option.bind_eq_bind,
      Option.bind_some]
    by_cases hok : (g c.rest).1 = true
    · simp [hok]
    · simp [hok, Cursor.to_self]
  · rw [Text.rewinding]
    split
    · exact hf.suffix s
    · exact List.suffix_refl s

theorem Tracks.char {x : UInt8} (hx : x ≠ 0) : Tracks h (dateChar h x) (Text.isChar x) :=
  ⟨isChar_follows hx, Text.isChar_suffix x⟩

theorem Tracks.space : Tracks h (http11Space h) (Text.isChar http11Sp) :=
  Tracks.char (by decide)

private theorem Text.digits_suffix (n : Nat) (s : List UInt8) : (Text.digits n s).2 <:+ s := by
  fun_induction Text.digits n s with
  | case1 s => exact List.suffix_refl s
  | case2 => exact List.suffix_refl []
  | case3 n x s hx ih => exact ih.trans (List.suffix_cons x s)
  | case4 n x s hx => exact List.suffix_refl _

theorem Tracks.digits (n : Nat) : Tracks h (dateDigits h n) (Text.digits n) := by
  refine ⟨?_, Text.digits_suffix n⟩
  induction n with
  | zero => exact fun s c _ => by simp [dateDigits, Text.digits, Cursor.to_self]
  | succ n ih =>
      rintro s ⟨pos, rest⟩ hs
      have hchar := hs.getChar
      have hnext := hs.next
      cases rest with
      | nil =>
          have hzero : digitChars 0 = false := by decide
          simp [dateDigits, hchar, hzero, Text.digits, Cursor.to]
      | cons x rest =>
          by_cases hx : digitChars x = true
          · have hrest := Follows.to ih (Text.digits_suffix n) hs (List.suffix_cons x rest)
            simpa [dateDigits, hchar, hnext, hx, Text.digits] using hrest
          · simp [dateDigits, hchar, hx, Text.digits, Cursor.to]

theorem Text.matchLower_suffix (pc s : List UInt8) : (Text.matchLower pc s).2 <:+ s := by
  fun_induction Text.matchLower pc s with
  | case1 s => exact List.suffix_refl s
  | case2 => exact List.suffix_refl []
  | case3 x pc y s hxy ih => exact ih.trans (List.suffix_cons y s)
  | case4 x pc y s hne => exact List.suffix_refl _

private theorem Text.nameLoop_suffix (names : List String) (s : List UInt8) :
    (Text.nameLoop names s).2 <:+ s := by
  fun_induction Text.nameLoop names s with
  | case1 s => exact List.suffix_refl s
  | case2 name names s hfound => exact Text.matchLower_suffix _ s
  | case3 name names s hleft ih => exact ih.trans (Text.matchLower_suffix _ s)

theorem matchLower_eq {s : Stringaa} {c : Cursor UInt8} {a : List UInt8} (pc : List UInt8)
    (hpc : ∀ x ∈ pc, toLower x ≠ toLower 0) (hs : s.Shows h c) (ha : a <:+ c.rest) :
    ∃ left, matchLower h pc (s.seek (c.to a).pos) =
        some (left, s.seek (c.to (Text.matchLower pc a).2).pos) ∧
      (left = [] ↔ (Text.matchLower pc a).1 = true) := by
  induction pc generalizing a with
  | nil => exact ⟨[], rfl, by simp [Text.matchLower]⟩
  | cons x pc ih =>
      have hchar := hs.getChar_to ha
      have hnext := hs.next_to ha
      rcases a with _ | ⟨y, a⟩
      · have hx := hpc x (by simp)
        exact ⟨x :: pc, by simp [matchLower, hchar, hx, Text.matchLower], by
          simp [Text.matchLower]⟩
      · by_cases hxy : toLower x = toLower y
        · obtain ⟨left, heq, hleft⟩ := ih (fun z hz => hpc z (List.mem_cons_of_mem x hz))
            ((List.suffix_cons y a).trans ha)
          refine ⟨left, ?_, by simpa [Text.matchLower, hxy] using hleft⟩
          simpa [matchLower, hchar, hnext, hxy, Text.matchLower] using heq
        · exact ⟨x :: pc, by simp [matchLower, hchar, hxy, Text.matchLower], by
            simp [Text.matchLower, hxy]⟩

theorem Tracks.nameLoop (names : List String)
    (hnames : ∀ name ∈ names, ∀ x ∈ literal name, toLower x ≠ toLower 0) :
    Tracks h (nameLoop h names) (Text.nameLoop names) := by
  refine ⟨?_, Text.nameLoop_suffix names⟩
  induction names with
  | nil => exact fun s c _ => by simp [Httpaa.nameLoop, Text.nameLoop, Cursor.to_self]
  | cons name names ih =>
      intro s c hs
      obtain ⟨left, heq, hleft⟩ :=
        matchLower_eq (literal name) (hnames name (by simp)) hs (List.suffix_refl c.rest)
      have hrest := Follows.to (ih fun n hn => hnames n (List.mem_cons_of_mem name hn))
        (Text.nameLoop_suffix names) hs (Text.matchLower_suffix (literal name) c.rest)
      rw [Cursor.to_self] at heq
      rw [Httpaa.nameLoop, heq, Text.nameLoop]
      by_cases hok : (Text.matchLower (literal name) c.rest).1 = true
      · simp [hleft, hok]
      · simpa [hleft, hok] using hrest

theorem Tracks.gmt : Tracks h (dateGmt h) (Text.matchUpper (literal "GMT")) := by
  refine ⟨fun s c hs => ?_, Text.matchUpper_suffix (literal "GMT")⟩
  obtain ⟨left, heq, hleft⟩ :=
    matchUpper_eq (literal "GMT") (by decide +kernel) hs (List.suffix_refl c.rest)
  rw [Cursor.to_self] at heq
  have hdecide : decide (left = []) = (Text.matchUpper (literal "GMT") c.rest).1 := by
    rw [Bool.eq_iff_iff, decide_eq_true_iff, hleft]
  simp [dateGmt, heq, hdecide]

theorem Tracks.day : Tracks h (dateDay h) Text.day := by
  have htwo : Tracks h (dateDigits h 2) (Text.digits 2) := .digits 2
  have hone : Tracks h (Httpaa.inTurn [http11Space h, dateDigits h 1])
      (Text.inTurn [Text.isChar http11Sp, Text.digits 1]) :=
    .inTurn (.cons .space (.cons (.digits 1) .nil))
  refine ⟨fun s c hs => ?_, fun s => ?_⟩
  · simp only [dateDay, htwo.follows s c hs, Text.day, Option.bind_eq_bind, Option.bind_some]
    by_cases hok : (Text.digits 2 c.rest).1 = true
    · simp [hok]
    · simpa [hok] using hone.follows s c hs
  · rw [Text.day]
    split
    · exact htwo.suffix s
    · exact hone.suffix s

theorem Tracks.elseTry (hf : Tracks h f g) (hf' : Tracks h f' g') :
    Tracks h (fun request => do
        let (is, request) ← f request
        if is then return (true, request)
        f' request)
      (Text.elseTry g g') := by
  refine ⟨fun s c hs => ?_, fun s => ?_⟩
  · have hrest := hf'.follows.to hf'.suffix hs (hf.suffix c.rest)
    simp only [hf.follows s c hs, Text.elseTry, Option.bind_eq_bind, Option.bind_some]
    by_cases hok : (g c.rest).1 = true
    · simp [hok]
    · simpa [hok] using hrest
  · rw [Text.elseTry]
    split
    · exact hf.suffix s
    · exact (hf'.suffix _).trans (hf.suffix s)

private theorem date_names (names : List String)
    (hnames : names ∈ [http11DateWkdayArray, http11DateWeekdayArray, http11DateMonthArray]) :
    ∀ name ∈ names, ∀ x ∈ literal name, toLower x ≠ toLower 0 := by
  revert names
  decide +kernel

private theorem Tracks.wkday : Tracks h (http11Wkday h) (Text.nameLoop http11DateWkdayArray) :=
  .nameLoop _ (date_names _ (by simp))

private theorem Tracks.weekday : Tracks h (http11Weekday h)
    (Text.nameLoop http11DateWeekdayArray) :=
  .nameLoop _ (date_names _ (by simp))

private theorem Tracks.month : Tracks h (http11Month h) (Text.nameLoop http11DateMonthArray) :=
  .nameLoop _ (date_names _ (by simp))

theorem Tracks.time : Tracks h (http11Time h) Text.time :=
  have htwo : Tracks h (dateDigits h 2) (Text.digits 2) := .digits 2
  have hcolon : Tracks h (dateChar h (ch ':')) (Text.isChar (ch ':')) := .char (by decide)
  .rewinding (.inTurn (.cons htwo (.cons hcolon (.cons htwo (.cons hcolon (.cons htwo .nil))))))

theorem Tracks.date1 : Tracks h (http11Date1 h) Text.date1 :=
  .rewinding (.inTurn (.cons (.digits 2) (.cons .space (.cons .month (.cons .space
    (.cons (.digits 4) .nil))))))

theorem Tracks.date2 : Tracks h (http11Date2 h) Text.date2 :=
  have hdash : Tracks h (dateChar h (ch '-')) (Text.isChar (ch '-')) := .char (by decide)
  .rewinding (.inTurn (.cons (.digits 2) (.cons hdash (.cons .month (.cons hdash
    (.cons (.digits 2) .nil))))))

theorem Tracks.date3 : Tracks h (http11Date3 h) Text.date3 :=
  .rewinding (.inTurn (.cons .month (.cons .space (.cons .day .nil))))

theorem Tracks.rfc1123Date : Tracks h (http11Rfc1123Date h) Text.rfc1123Date :=
  have hcomma : Tracks h (dateChar h (ch ',')) (Text.isChar (ch ',')) := .char (by decide)
  .rewinding (.inTurn (.cons .wkday (.cons hcomma (.cons .space (.cons .date1 (.cons .space
    (.cons .time (.cons .space (.cons .gmt .nil)))))))))

theorem Tracks.rfc850Date : Tracks h (http11Rfc850Date h) Text.rfc850Date :=
  have hcomma : Tracks h (dateChar h (ch ',')) (Text.isChar (ch ',')) := .char (by decide)
  .rewinding (.inTurn (.cons .weekday (.cons hcomma (.cons .space (.cons .date2 (.cons .space
    (.cons .time (.cons .space (.cons .gmt .nil)))))))))

theorem Tracks.asctimeDate : Tracks h (http11AsctimeDate h) Text.asctimeDate :=
  .rewinding (.inTurn (.cons .wkday (.cons .space (.cons .date3 (.cons .space (.cons .time
    (.cons .space (.cons (.digits 4) .nil))))))))

/-- `http11_date` does what `Text.date` does. -/
theorem Tracks.date : Tracks h (http11Date h) Text.date :=
  .elseTry .rfc1123Date (.elseTry .rfc850Date .asctimeDate)

end Tracks

end Httpaa
