import Httpaa.Http.Grammar
import Httpaa.Uri.Refinement

/-!
# The request parser of the source follows the one on texts

Each function of the source, run on a request that shows a cursor, leaves the read position where
the recogniser on texts leaves the cursor, and makes the assignments that the recogniser notes.
-/

namespace Httpaa

open Recogniser Stringaa

variable {h : Heap} {s : Stringaa} {c : Cursor UInt8} {a : List UInt8}

/-! ### Lines -/

theorem crlf_follows : Follows h (http11Crlf h) Text.crlf := by
  rintro s ⟨pos, rest⟩ hs
  have hzero : ¬ (0 : UInt8) = http11Cr := by decide
  rcases rest with _ | ⟨x, _ | ⟨y, rest⟩⟩
  · simp [http11Crlf, hs.getChar, Text.crlf, Cursor.to, hzero]
  · have hs₁ : s.Shows h ⟨pos + 1, []⟩ := hs.reaches ⟨[x], rfl, rfl⟩
    have hlength := hs.length
    simp only [List.length_singleton] at hlength
    have hlf : ¬ (0 : UInt8) = http11Lf := by decide
    have hprev := prev_seek (s := s) (n := pos) (by omega)
    by_cases hx : x = http11Cr
    · simp [http11Crlf, hs.getChar, hs.next, hs₁.getChar, Text.crlf, Cursor.to, hx, hlf, hprev]
    · simp [http11Crlf, hs.getChar, Text.crlf, Cursor.to, hx]
  · have hs₁ : s.Shows h ⟨pos + 1, y :: rest⟩ := hs.reaches ⟨[x], rfl, rfl⟩
    have hlength := hs.length
    simp only [List.length_cons] at hlength
    have hprev := prev_seek (s := s) (n := pos) (by omega)
    by_cases hx : x = http11Cr
    · by_cases hy : y = http11Lf
      · simp [http11Crlf, hs.getChar, hs.next, hs₁.getChar, hs₁.next, Text.crlf, Cursor.to, hx, hy]
        congr 1
        omega
      · simp [http11Crlf, hs.getChar, hs.next, hs₁.getChar, Text.crlf, Cursor.to, hx, hy, hprev]
    · simp [http11Crlf, hs.getChar, Text.crlf, Cursor.to, hx]

private theorem crlf_cons_ok (x : UInt8) (a : List UInt8) :
    (Text.crlf (x :: a)).1 = true ↔ x = http11Cr ∧ a.headD 0 = http11Lf := by
  have hlf : ¬ (0 : UInt8) = http11Lf := by decide
  rcases a with _ | ⟨y, a⟩
  · simp [Text.crlf, hlf]
  · by_cases hxy : x = http11Cr ∧ y = http11Lf
    · simp [Text.crlf, hxy]
    · simp [Text.crlf, hxy]

private theorem findCrlfLoop_eq (fuel : Nat) (hs : s.Shows h c) {x : UInt8} (ha : x :: a <:+ c.rest)
    (hfuel : a.length + 1 < fuel) :
    findCrlfLoop h fuel (s.seek (c.to (x :: a)).pos) x =
      match Text.fromCrlf (x :: a) with
      | some rest => some (true, s.seek (c.to rest).pos)
      | none => some (false, s.seek (c.to []).pos) := by
  induction fuel generalizing x a with
  | zero => cases hfuel
  | succ fuel ih =>
      have hnext := hs.next_to ha
      have ha' := (List.suffix_cons x a).trans ha
      have hchar := hs.getChar_to ha'
      have hlength := (hs.to ha).length
      have hlength' := (hs.to ha').length
      simp only [Cursor.to_rest, List.length_cons] at hlength hlength'
      have hpos : (c.to a).pos = (c.to (x :: a)).pos + 1 := by omega
      have hprev := prev_seek (s := s) (n := (c.to (x :: a)).pos) (by omega)
      rw [List.tail_cons] at hnext
      rw [findCrlfLoop, if_pos (by simp only [seek_readPos, seek_writePos]; omega), hnext,
        Text.fromCrlf]
      simp only [hchar, Option.bind_eq_bind, Option.bind_some]
      by_cases hcrlf : (Text.crlf (x :: a)).1 = true
      · have hxa := (crlf_cons_ok x a).mp hcrlf
        rw [if_pos hxa, if_pos hcrlf, hpos, hprev]
        rfl
      · have hxa := (crlf_cons_ok x a).not.mp hcrlf
        rw [if_neg hxa, if_neg hcrlf]
        rcases a with _ | ⟨y, a⟩
        · rcases fuel with _ | fuel
          · simp at hfuel
          · have hend : ¬ (c.to []).pos < s.writePos := by
              simp only [List.length_nil] at hlength'
              omega
            simp [findCrlfLoop, Text.fromCrlf, hend]
        · have hrec := ih ha' (by simpa using hfuel)
          simpa using hrec

theorem findCrlf_follows : Follows h (http11FindCrlf h) Text.findCrlf := by
  rintro s ⟨pos, rest⟩ hs
  have hchar := hs.getChar
  have hlength := hs.length
  simp only [http11FindCrlf, hchar, Option.bind_eq_bind, Option.bind_some]
  rcases rest with _ | ⟨x, a⟩
  · simp only [List.length_nil] at hlength
    simp [findCrlfLoop, Stringaa.budget, ← hlength, Text.findCrlf, Text.fromCrlf, Cursor.to]
  · have hloop := findCrlfLoop_eq (s.seek pos).budget hs (List.suffix_refl _) (by
      simp only [List.length_cons] at hlength
      simp only [Stringaa.budget, seek_writePos]
      omega)
    rw [Cursor.to_self] at hloop
    simp only [List.headD_cons, hloop]
    cases hfrom : Text.fromCrlf (x :: a) with
    | none => simp [Text.findCrlf, hfrom, Cursor.to]
    | some rest => simp [Text.findCrlf, hfrom]

/-! ### The request line -/

theorem matchUpper_eq (pc : List UInt8) (hpc : ∀ x ∈ pc, x ≠ 0) (hs : s.Shows h c)
    (ha : a <:+ c.rest) :
    ∃ left, matchUpper h pc (s.seek (c.to a).pos) =
        some (left, s.seek (c.to (Text.matchUpper pc a).2).pos) ∧
      (left = [] ↔ (Text.matchUpper pc a).1 = true) := by
  induction pc generalizing a with
  | nil => exact ⟨[], rfl, by simp [Text.matchUpper]⟩
  | cons x pc ih =>
      have hchar := hs.getChar_to ha
      have hnext := hs.next_to ha
      rcases a with _ | ⟨y, a⟩
      · have hx : ¬ x = toUpper 0 := hpc x (by simp)
        exact ⟨x :: pc, by simp [matchUpper, hchar, hx, Text.matchUpper], by
          simp [Text.matchUpper]⟩
      · by_cases hxy : x = toUpper y
        · obtain ⟨left, heq, hleft⟩ := ih (fun z hz => hpc z (List.mem_cons_of_mem x hz))
            ((List.suffix_cons y a).trans ha)
          refine ⟨left, ?_, by simpa [Text.matchUpper, hxy] using hleft⟩
          simpa [matchUpper, hchar, hnext, hxy, Text.matchUpper] using heq
        · exact ⟨x :: pc, by simp [matchUpper, hchar, hxy, Text.matchUpper], by
            simp [Text.matchUpper, hxy]⟩

private theorem methodLoop_eq (names : List String)
    (hnames : ∀ name ∈ names, ∀ x ∈ literal name, x ≠ 0) (i : Nat) (hs : s.Shows h c)
    (ha : a <:+ c.rest) :
    ∃ pos, methodLoop h names i (s.seek (c.to a).pos) =
        some ((Text.methodLoop names i a).map Prod.fst, s.seek pos) ∧
      ∀ found ∈ Text.methodLoop names i a, pos = (c.to found.2).pos := by
  induction names generalizing i a with
  | nil => exact ⟨_, rfl, by simp [Text.methodLoop]⟩
  | cons name names ih =>
      obtain ⟨left, heq, hleft⟩ := matchUpper_eq (literal name) (hnames name (by simp)) hs ha
      by_cases hmatch : (Text.matchUpper (literal name) a).1 = true
      · refine ⟨(c.to (Text.matchUpper (literal name) a).2).pos, ?_, ?_⟩
        · simp [methodLoop, heq, hleft.mpr hmatch, Text.methodLoop, hmatch]
        · simp [Text.methodLoop, hmatch]
      · obtain ⟨pos, hrec, hpos⟩ := ih (fun n hn => hnames n (List.mem_cons_of_mem name hn)) (i + 1)
          ((Text.matchUpper_suffix _ a).trans ha)
        refine ⟨pos, ?_, ?_⟩
        · simpa [methodLoop, heq, hleft, hmatch, Text.methodLoop] using hrec
        · simpa [Text.methodLoop, hmatch] using hpos

private theorem digitsLoop_eq (fuel : Nat) (size : Nat) (hs : s.Shows h c) (ha : a <:+ c.rest)
    (hfuel : a.length < fuel) :
    digitsLoop h fuel (s.seek (c.to a).pos) size =
      some (size + (a.takeWhile digitChars).length,
        s.seek (c.to (a.dropWhile digitChars)).pos) := by
  induction fuel generalizing a size with
  | zero => cases hfuel
  | succ fuel ih =>
      have hchar := hs.getChar_to ha
      have hnext := hs.next_to ha
      rcases a with _ | ⟨x, a⟩
      · have hzero : digitChars 0 = false := by decide
        simp [digitsLoop, hchar, hzero]
      · by_cases hx : digitChars x = true
        · have hrec := ih (size + 1) ((List.suffix_cons x a).trans ha) (by simpa using hfuel)
          simp [digitsLoop, hchar, hnext, hx, hrec, Nat.add_assoc, Nat.add_comm 1]
        · simp [digitsLoop, hchar, hx]

theorem loadChars_eq {size : Nat} (hs : s.Shows h c) (ha : a <:+ c.rest) (hsize : size ≤ a.length)
    (n : Nat) : loadChars h (s.seek n) (c.to a).pos size = some (a.take size) := by
  induction size generalizing a with
  | zero => simp [loadChars]
  | succ size ih =>
      rcases a with _ | ⟨x, a⟩
      · simp at hsize
      · have hchar := (hs.to ha).char 0 (by simp)
        have hrec := ih ((List.suffix_cons x a).trans ha) (by simpa using hsize)
        have hlength := (hs.to ha).length
        have hlength' := (hs.to ((List.suffix_cons x a).trans ha)).length
        simp only [Cursor.to_rest, List.length_cons] at hlength hlength'
        have hpos : (c.to (x :: a)).pos + 1 = (c.to a).pos := by omega
        simp only [Cursor.to_rest, Nat.add_zero] at hchar
        simp [loadChars, hchar, hpos, hrec]

private theorem loadInt_eq (hs : s.Shows h c) (ha : a <:+ c.rest) (n : Nat) :
    loadInt h (s.seek n) (c.to a).pos (a.takeWhile digitChars).length =
      some (Text.number (a.takeWhile digitChars)) := by
  have hle := (List.takeWhile_sublist digitChars (l := a)).length_le
  have hsize : (if bufIntSize ≤ (a.takeWhile digitChars).length then bufIntSize - 1
      else (a.takeWhile digitChars).length) ≤ (a.takeWhile digitChars).length := by
    split <;> omega
  have hload := loadChars_eq hs ha (Nat.le_trans hsize hle) n
  have hdigits := @List.take_append_of_le_length _ _ (a.dropWhile digitChars) _ hsize
  rw [List.takeWhile_append_dropWhile] at hdigits
  simp only [loadInt, hload, Option.bind_eq_bind, Option.bind_some]
  rw [Text.number, ← hdigits]
  rfl

/-- On this request and cursor, the function of the source does what the reader on texts does. -/
def ReadsAt (http : Http11Http) (request : Stringaa) (c : Cursor UInt8)
    (f : Http11Http → Stringaa → Option (Bool × Http11Http × Stringaa)) (p : Text.Reader) : Prop :=
  f http (request.seek c.pos) =
    some ((p c).ok, http.writeAll request (p c).notes, request.seek (p c).cursor.pos)

def Reads (h : Heap) (f : Http11Http → Stringaa → Option (Bool × Http11Http × Stringaa))
    (p : Text.Reader) : Prop :=
  ∀ (http : Http11Http) (request : Stringaa) (c : Cursor UInt8), request.Shows h c →
    ReadsAt http request c f p

section Readers

variable {http : Http11Http} {request : Stringaa} {p q : Text.Reader}
  {f g : Http11Http → Stringaa → Option (Bool × Http11Http × Stringaa)}

theorem writeAll_append (http : Http11Http) (request : Stringaa) (notes notes' : List HttpWrite) :
    http.writeAll request (notes ++ notes') =
      (http.writeAll request notes).writeAll request notes' := by
  simp [Http11Http.writeAll]

theorem ReadsAt.whenOk (http : Http11Http)
    (hg : (p c).ok = true → ReadsAt (http.writeAll request (p c).notes) request (p c).cursor g q) :
    (http.writeAll request (p c).notes).whenDo (p c).ok (request.seek (p c).cursor.pos) g =
      some ((andThen p q c).ok, http.writeAll request (andThen p q c).notes,
        request.seek (andThen p q c).cursor.pos) := by
  by_cases hok : (p c).ok = true
  · have hread := hg hok
    rw [ReadsAt] at hread
    simp [Http11Http.whenDo, andThen, hok, hread, Outcome.after, writeAll_append]
  · simp [Http11Http.whenDo, andThen, hok]

theorem Reads.whenOk (hg : Reads h g q) (hp : Advances p) (hs : request.Shows h c)
    (http : Http11Http) :
    (http.writeAll request (p c).notes).whenDo (p c).ok (request.seek (p c).cursor.pos) g =
      some ((andThen p q c).ok, http.writeAll request (andThen p q c).notes,
        request.seek (andThen p q c).cursor.pos) :=
  ReadsAt.whenOk http fun _ => hg _ _ _ (hs.reaches (hp c))

theorem Reads.whenNot (hg : Reads h g q) (hp : Advances p) (hs : request.Shows h c)
    (http : Http11Http) :
    (http.writeAll request (p c).notes).whenDo (!(p c).ok) (request.seek (p c).cursor.pos) g =
      some (!(p c).ok && (orElse p q c).ok, http.writeAll request (orElse p q c).notes,
        request.seek (orElse p q c).cursor.pos) := by
  by_cases hok : (p c).ok = true
  · simp [Http11Http.whenDo, orElse, hok]
  · have hread := hg (http.writeAll request (p c).notes) request _ (hs.reaches (hp c))
    rw [ReadsAt] at hread
    simp [Http11Http.whenDo, orElse, hok, hread, Outcome.after, writeAll_append]

private theorem Stringaa.Follows.reads {f : Stringaa → Option (Bool × Stringaa)}
    {g : List UInt8 → Bool × List UInt8} (hf : Follows h f g) : Reads h (reading f) (lift g) := by
  intro http request c hs
  rw [ReadsAt, reading, hf request c hs]
  rfl

private theorem space_reads : Reads h (reading (http11Space h)) Text.space :=
  (isChar_follows (x := http11Sp) (by decide)).reads

theorem method_reads : Reads h (http11Method h) Text.method := by
  intro http request c hs
  obtain ⟨pos, heq, hpos⟩ := methodLoop_eq http11MethodArray (literal_ne rfl) 0 hs
    (List.suffix_refl c.rest)
  rw [Cursor.to_self] at heq
  rw [ReadsAt, http11Method, heq]
  cases hloop : Text.methodLoop http11MethodArray 0 c.rest with
  | none => simp [Text.method, find, hloop, Http11Http.writeAll]
  | some found =>
      rw [hpos found hloop]
      simp [Text.method, find, hloop, Http11Http.writeAll, Http11Http.write]

theorem version_reads : Reads h (http11HttpVersion h) Text.version := by
  intro http request c hs
  have hnames : ∀ name ∈ ["HTTP/"], ∀ x ∈ literal name, x ≠ 0 := literal_ne rfl
  have hname := hnames "HTTP/" (List.mem_singleton_self _)
  obtain ⟨left, hmatch, hleft⟩ := matchUpper_eq _ hname hs (List.suffix_refl c.rest)
  rw [Cursor.to_self] at hmatch
  have hsuffix := Text.matchUpper_suffix (literal "HTTP/") c.rest
  rw [ReadsAt, http11HttpVersion, Text.version, find, Text.versionNumbers]
  simp only [hmatch, Option.bind_eq_bind, Option.bind_some]
  generalize Text.matchUpper (literal "HTTP/") c.rest = m at hleft hsuffix
  obtain ⟨isHttp, a⟩ := m
  have hdigits := digitsLoop_eq (request.seek (c.to a).pos).budget 0 hs hsuffix
    (hs.budget hsuffix _)
  have hrest := (List.dropWhile_suffix digitChars).trans hsuffix
  have hdot := hs.getChar_to hrest
  have hnext := hs.next_to hrest
  have hmajor := loadInt_eq hs hsuffix
  rw [Nat.zero_add] at hdigits
  simp only [hdigits, hdot, hnext, Option.bind_some, hleft]
  generalize hb : a.dropWhile digitChars = b at hrest
  have htail := (List.tail_suffix b).trans hrest
  have hdigits' := digitsLoop_eq (request.seek (c.to b.tail).pos).budget 0 hs htail
    (hs.budget htail _)
  have hminor := loadInt_eq hs htail
  rw [Nat.zero_add] at hdigits'
  simp only [seek_readPos, hdigits', hmajor, hminor, Option.bind_some, List.length_pos_iff]
  have hzero : ¬ (0 : UInt8) = ch '.' := by decide
  rcases b with _ | ⟨x, b⟩
  · simp [hzero, Text.isChar, Http11Http.writeAll]
  · by_cases hx : x = ch '.'
    · by_cases hhttp : isHttp = true <;> by_cases hne : a.takeWhile digitChars = [] <;>
        by_cases hne' : b.takeWhile digitChars = [] <;>
        simp [hx, Text.isChar, hhttp, hne, hne', Http11Http.writeAll, Http11Http.write]
    · by_cases hhttp : isHttp = true <;>
        simp [hx, Ne.symm hx, Text.isChar, hhttp, Http11Http.writeAll]

/-! ### The request URI -/

private theorem setSubstring_eq (hs : request.Shows h c) (hsize : request.writePos < 2 ^ 31)
    (hrest : c.rest ≠ []) (uri : Stringaa) :
    stringaaSetSubstring uri (request.seek c.pos) = request.uriFrom c.pos 0 false := by
  have hlength := hs.length
  have hpos := List.length_pos_iff.mpr hrest
  have hread : toInt c.pos = c.pos := toInt_eq (by omega)
  have hwrite := toInt_eq hsize
  simp only [stringaaSetSubstring, seek_readPos, seek_writePos, hread, hwrite]
  rw [if_pos (by omega)]
  simp [Stringaa.uriFrom]

private theorem uriFrom_shows (hs : request.Shows h c) (size : Nat) :
    (request.uriFrom c.pos size false).Shows h ⟨0, c.rest⟩ := by
  have hlength := hs.length
  refine ⟨by simp only [Stringaa.uriFrom, Bool.false_eq_true, if_false]; omega, fun i hi => ?_⟩
  rw [← hs.char i hi]
  cases hbuf : request.buf <;> simp [Stringaa.uriFrom, Stringaa.charAt, hbuf]

private theorem write_shift (u : Uriaa) (pos : Nat)
    (hu : u.uri.buf = request.buf.map fun buf => buf.add pos) (w : UriWrite) :
    { ({ u with uri := request } : Uriaa).write (w.shift pos) with uri := u.uri } = u.write w := by
  cases w with
  | set p n size => cases hbuf : request.buf <;>
      simp [Uriaa.write, UriWrite.shift, Uriaa.setPart, hu, hbuf]
  | unset p => rfl

private theorem write_part (http : Http11Http) (u : Uriaa) (pos : Nat)
    (hu : u.uri.buf = request.buf.map fun buf => buf.add pos) (w : UriWrite) :
    (http.setRequestUri u).write request (.part (w.shift pos)) =
      http.setRequestUri (u.write w) := by
  rw [← write_shift u pos hu w]
  rfl

theorem writeAll_parts (http : Http11Http) (u : Uriaa) (pos : Nat)
    (hu : u.uri.buf = request.buf.map fun buf => buf.add pos) (writes : List UriWrite) :
    (http.setRequestUri u).writeAll request (writes.map fun w => .part (w.shift pos)) =
      http.setRequestUri (u.writeAll writes) := by
  induction writes generalizing u with
  | nil => rfl
  | cons w writes ih =>
      have hrec := ih (u.write w) (by rw [Uriaa.write_uri, hu])
      rw [← write_part http u pos hu w] at hrec
      exact hrec

private theorem writeAll_with_uri (u : Uriaa) (uri uri' : Stringaa) (hbuf : uri.buf = uri'.buf)
    (writes : List UriWrite) :
    ({ u with uri := uri } : Uriaa).writeAll writes =
      { ({ u with uri := uri' } : Uriaa).writeAll writes with uri := uri } := by
  induction writes generalizing u with
  | nil => rfl
  | cons w writes ih =>
      have hwrite : ({ u with uri := uri } : Uriaa).write w =
          { ({ u with uri := uri' } : Uriaa).write w with uri := uri } := by
        cases w <;> simp [Uriaa.write, Uriaa.setPart, Uriaa.unsetPart, hbuf]
      have hrec := ih (({ u with uri := uri' } : Uriaa).write w)
      rw [← hwrite] at hrec
      refine hrec.trans ?_
      cases w <;> rfl

private theorem requestUri_readsAt (hs : request.Shows h c) (hsize : request.writePos < 2 ^ 31)
    (hready : c.rest ≠ [] ∨ http.request.requestLine.requestUri.uri.isInit = false) :
    ReadsAt http request c (http11RequestUri h) Text.requestUri := by
  have hlength := hs.length
  by_cases hrest : c.rest = []
  · have hinit := hready.resolve_left (not_not_intro hrest)
    have hend : c.pos = request.writePos := by rw [hrest, List.length_nil] at hlength; omega
    have hset : stringaaSetSubstring http.request.requestLine.requestUri.uri (request.seek c.pos) =
        http.request.requestLine.requestUri.uri := by
      simp [stringaaSetSubstring, hend]
    simp [ReadsAt, http11RequestUri, hset, uriaaCheckUrl, hinit, Text.requestUri, hrest,
      Http11Http.setRequestUri, Http11Http.writeAll]
  · have hset := setSubstring_eq hs hsize hrest http.request.requestLine.requestUri.uri
    have hshows := uriFrom_shows hs 0
    have hcheck := uriReference_implements (h := h)
      { http.request.requestLine.requestUri with uri := request.uriFrom c.pos 0 false } ⟨0, c.rest⟩
      hshows
    have hreach := (Text.uriReference_advances ⟨0, c.rest⟩).end_eq
    have hbuf := hs.buf_isSome hrest
    have hguard : uriaaCheckUrl h
        { http.request.requestLine.requestUri with uri := request.uriFrom c.pos 0 false } =
        uriReference h
          { http.request.requestLine.requestUri with uri := request.uriFrom c.pos 0 false } := by
      have hpos := List.length_pos_iff.mpr hrest
      rw [uriaaCheckUrl, if_pos]
      simp only [Stringaa.uriFrom, Option.isSome_map, hbuf, Bool.false_eq_true, if_false, true_and,
        and_true]
      omega
    have hrewind : (({ http.request.requestLine.requestUri with
        uri := request.uriFrom c.pos 0 false } : Uriaa).rewind (⟨0, c.rest⟩ : Cursor UInt8).pos) =
        { http.request.requestLine.requestUri with uri := request.uriFrom c.pos 0 false } := rfl
    rw [hrewind] at hcheck
    simp only [ReadsAt, http11RequestUri, hset, hguard, hcheck, Option.bind_eq_bind,
      Option.bind_some, Text.requestUri, hrest, if_false]
    generalize Text.uriReference ⟨0, c.rest⟩ = r at hreach hcheck ⊢
    have hparts := @writeAll_parts request http
      { http.request.requestLine.requestUri with uri := request.uriFrom c.pos r.cursor.pos r.ok }
      c.pos rfl r.notes
    have hwith := writeAll_with_uri http.request.requestLine.requestUri
      (request.uriFrom c.pos r.cursor.pos r.ok) (request.uriFrom c.pos 0 false) rfl r.notes
    have hnotes : http.writeAll request (.uri c.pos r.cursor.pos r.ok ::
        r.notes.map fun w => .part (w.shift c.pos)) =
        http.setRequestUri { (({ http.request.requestLine.requestUri with
          uri := request.uriFrom c.pos 0 false } : Uriaa).writeAll r.notes) with
          uri := request.uriFrom c.pos r.cursor.pos r.ok } :=
      hparts.trans (congrArg http.setRequestUri hwith)
    rw [hnotes]
    by_cases hok : r.ok = true
    · have hpos : c.pos + r.cursor.pos = (c.to r.cursor.rest).pos := by
        simp only [Cursor.to, Nat.zero_add] at hreach ⊢
        omega
      simp [hok, Uriaa.left, Uriaa.rewind, Stringaa.seek, Stringaa.uriFrom, hpos]
    · simp [hok, Uriaa.left, Uriaa.rewind, Stringaa.seek, Stringaa.uriFrom]

/-! ### The end of the line stays in front of the cursor -/

private theorem cr_mem_matchUpper {pc a : List UInt8} (hpc : ∀ x ∈ pc, x ≠ http11Cr)
    (ha : http11Cr ∈ a) : http11Cr ∈ (Text.matchUpper pc a).2 := by
  fun_induction Text.matchUpper pc a with
  | case1 a => exact ha
  | case2 => exact ha
  | case3 pc y a ih =>
      have hy : http11Cr ≠ y := by
        rintro rfl
        exact hpc (toUpper http11Cr) (by simp) (by decide)
      exact ih (fun x hx => hpc x (List.mem_cons_of_mem _ hx))
        ((List.mem_cons.mp ha).resolve_left hy)
  | case4 x pc y a hne => exact ha

private theorem cr_mem_methodLoop {names : List String}
    (hnames : ∀ name ∈ names, ∀ x ∈ literal name, x ≠ http11Cr) {i method : Nat} {rest : List UInt8}
    (ha : http11Cr ∈ a) (hfound : Text.methodLoop names i a = some (method, rest)) :
    http11Cr ∈ rest := by
  induction names generalizing i a with
  | nil => cases hfound
  | cons name names ih =>
      have hmem := cr_mem_matchUpper (hnames name (by simp)) ha
      rw [Text.methodLoop] at hfound
      split at hfound
      · simp only [Option.some.injEq, Prod.mk.injEq] at hfound
        exact hfound.2 ▸ hmem
      · exact ih (fun n hn => hnames n (List.mem_cons_of_mem name hn)) hmem hfound

private theorem cr_mem_isChar {x : UInt8} (hx : x ≠ http11Cr) (ha : http11Cr ∈ a) :
    http11Cr ∈ (Text.isChar x a).2 := by
  rcases a with _ | ⟨y, a⟩
  · exact ha
  · by_cases hxy : x = y
    · simpa [Text.isChar, hxy] using (List.mem_cons.mp ha).resolve_left (hxy ▸ Ne.symm hx)
    · simpa [Text.isChar, hxy] using ha

private theorem cr_mem_method (hc : http11Cr ∈ c.rest) :
    http11Cr ∈ (Text.method c).cursor.rest := by
  cases hloop : Text.methodLoop http11MethodArray 0 c.rest with
  | none => simpa [Text.method, find, hloop] using hc
  | some found => simpa [Text.method, find, hloop] using cr_mem_methodLoop (literal_ne rfl) hc hloop

private theorem cr_mem_methodSpace (hc : http11Cr ∈ c.rest) :
    http11Cr ∈ (andThen Text.method Text.space c).cursor.rest := by
  have hmethod := cr_mem_method hc
  by_cases hok : (Text.method c).ok = true
  · rw [andThen_of_ok hok]
    exact cr_mem_isChar (by decide) hmethod
  · simpa [andThen, hok] using hmethod

private theorem requestUri_methodSpace :
    (http.writeAll request
      (andThen Text.method Text.space c).notes).request.requestLine.requestUri =
        http.request.requestLine.requestUri := by
  cases hloop : Text.methodLoop http11MethodArray 0 c.rest <;>
    simp [andThen, Text.method, find, hloop, Outcome.after, Text.space, lift, Http11Http.writeAll,
      Http11Http.write, Http11Http.setMethod]

private theorem requestLine_readsAt (hs : request.Shows h c) (hsize : request.writePos < 2 ^ 31)
    (hready : http11Cr ∈ c.rest ∨ http.request.requestLine.requestUri.uri.isInit = false) :
    ReadsAt http request c (http11RequestLine h) Text.requestLine := by
  have hmethod := method_reads (h := h) http request c hs
  have hadv := Text.method_advances
  have hspace := (space_reads (h := h)).whenOk hadv hs http
  have hadv₁ := hadv.andThen Text.space_advances
  have huri := ReadsAt.whenOk (c := c) (p := andThen Text.method Text.space) http
    (fun _ => requestUri_readsAt (hs.reaches (hadv₁ c)) hsize (by
      rw [requestUri_methodSpace]
      exact hready.imp_left fun hc => List.ne_nil_of_mem (cr_mem_methodSpace hc)))
  have hadv₂ := hadv₁.andThen Text.requestUri_advances
  have hspace' := (space_reads (h := h)).whenOk hadv₂ hs http
  have hadv₃ := hadv₂.andThen Text.space_advances
  have hversion := (version_reads (h := h)).whenOk hadv₃ hs http
  have hadv₄ := hadv₃.andThen Text.version_advances
  have hcrlf := (crlf_follows (h := h)).reads.whenOk hadv₄ hs http
  rw [ReadsAt] at hmethod
  simp only [ReadsAt, http11RequestLine, hmethod, hspace, huri, hspace', hversion, hcrlf,
    Option.bind_eq_bind, Option.bind_some]
  rw [Text.requestLine, Text.requestLineFront]
  generalize andThen _ (lift Text.crlf) = p
  by_cases hok : (p c).ok = true <;> simp [attempt, hok]

/-! ### Header lines -/

private theorem matchName_eq (pc : List UInt8) (hpc : ∀ x ∈ pc, x ≠ 0) (hs : s.Shows h c)
    (ha : a <:+ c.rest) :
    match Text.nameColon pc a with
    | some t => matchName h pc (s.seek (c.to a).pos) (toLower (a.headD 0)) =
        some ([], s.seek (c.to t).pos, ch ':')
    | none => ∃ left pos x, matchName h pc (s.seek (c.to a).pos) (toLower (a.headD 0)) =
        some (left, s.seek pos, x) ∧ ¬ (left = [] ∧ x = ch ':') ∧ (c.to a).pos ≤ pos ∧
          (pos = (c.to a).pos → x = toLower (a.headD 0)) := by
  induction pc generalizing a with
  | nil =>
      rcases a with _ | ⟨y, a⟩
      · refine ⟨[], _, _, rfl, ?_, Nat.le_refl _, fun _ => rfl⟩
        simp only [true_and]
        decide
      · by_cases hy : y = ch ':'
        · have hlower : toLower (ch ':') = ch ':' := by decide
          simp [Text.nameColon, hy, matchName, hlower]
        · have hlower := (toLower_colon y).not.mpr hy
          simp only [Text.nameColon, List.head?_cons, Option.some.injEq, hy, if_false]
          exact ⟨[], _, _, rfl, by simpa using hlower, Nat.le_refl _, fun _ => rfl⟩
  | cons x pc ih =>
      have hnext := hs.next_to ha
      rcases a with _ | ⟨y, a⟩
      · have hx : ¬ x = toLower 0 := hpc x (by simp)
        exact ⟨x :: pc, _, _, by simp [matchName, hx], by simp, Nat.le_refl _, fun _ => rfl⟩
      · have ha' := (List.suffix_cons y a).trans ha
        have hlength := (hs.to ha).length
        have hlength' := (hs.to ha').length
        simp only [Cursor.to_rest, List.length_cons] at hlength hlength'
        by_cases hxy : x = toLower y
        · subst hxy
          rcases a with _ | ⟨z, a⟩
          · have hnone : Text.nameColon pc [] = none := by cases pc <;> simp [Text.nameColon]
            simp only [Text.nameColon, if_true, hnone]
            refine ⟨toLower y :: pc, (c.to []).pos, toLower y, ?_, by simp, by omega,
              fun _ => rfl⟩
            simp [matchName, hnext]
          · have hchar := hs.getChar_to ha'
            have hrec := ih (fun w hw => hpc w (List.mem_cons_of_mem _ hw)) ha'
            have hmore : matchName h (toLower y :: pc) (s.seek (c.to (y :: z :: a)).pos)
                (toLower y) = matchName h pc (s.seek (c.to (z :: a)).pos) (toLower z) := by
              simp [matchName, hnext, hchar]
            simp only [Text.nameColon, if_true, List.headD_cons, hmore] at hrec ⊢
            cases hname : Text.nameColon pc (z :: a) with
            | some t => simpa only [hname] using hrec
            | none =>
                simp only [hname] at hrec
                obtain ⟨left, pos, w, heq, hleft, hle, -⟩ := hrec
                exact ⟨left, pos, w, heq, hleft, by omega, fun hpos => by omega⟩
        · simp only [Text.nameColon, hxy, if_false]
          exact ⟨x :: pc, _, _, by simp [matchName, hxy], by simp, Nat.le_refl _, fun _ => rfl⟩

private theorem headerLoop_eq (names : List String)
    (hnames : ∀ name ∈ names, ∀ x ∈ literal name, x ≠ 0) (i start : Nat) (hs : s.Shows h c) :
    ∃ index pos, headerLoop h c.pos names i (s.seek c.pos) (toLower (c.rest.headD 0)) =
        some (index, s.seek pos) ∧
      index.map (start + ·) = (Text.findName names (start + i) c.rest).map Prod.fst ∧
      ∀ found ∈ Text.findName names (start + i) c.rest, pos = (c.to found.2).pos := by
  induction names generalizing i with
  | nil => exact ⟨none, _, rfl, rfl, by simp [Text.findName]⟩
  | cons name names ih =>
      have hmatch := matchName_eq (literal name) (hnames name (by simp)) hs
        (List.suffix_refl c.rest)
      have hchar := hs.getChar
      rw [Cursor.to_self] at hmatch
      cases hname : Text.nameColon (literal name) c.rest with
      | some t =>
          simp only [hname] at hmatch
          exact ⟨some i, (c.to t).pos, by rw [headerLoop, hmatch]; rfl, by
            simp [Text.findName, hname], by simp [Text.findName, hname]⟩
      | none =>
          simp only [hname] at hmatch
          obtain ⟨left, pos, x, heq, hleft, -, hstay⟩ := hmatch
          obtain ⟨index, pos', hrec, hindex, hpos'⟩ :=
            ih (fun n hn => hnames n (List.mem_cons_of_mem name hn)) (i + 1)
          refine ⟨index, pos', ?_, by simpa [Text.findName, hname, Nat.add_assoc] using hindex, by
            simpa [Text.findName, hname, Nat.add_assoc] using hpos'⟩
          by_cases hpos : pos = c.pos
          · have hx := hstay hpos
            subst hx hpos
            simp only [headerLoop, heq, Option.bind_eq_bind, Option.bind_some]
            rw [if_neg hleft, if_neg (by simp)]
            exact hrec
          · simp only [headerLoop, heq, Option.bind_eq_bind, Option.bind_some]
            rw [if_neg hleft, if_pos (by simpa using hpos), seek_seek, hchar]
            exact hrec

private theorem header_reads (names : List String)
    (hnames : ∀ name ∈ names, ∀ x ∈ literal name, x ≠ 0) (start : Nat) :
    Reads h (http11Header h names start) (Text.header names start) := by
  intro http request c hs
  obtain ⟨index, pos, hloop, hindex, hpos⟩ := headerLoop_eq names hnames 0 start hs
  rw [Nat.add_zero] at hindex hpos
  simp only [ReadsAt, http11Header, hs.getChar, seek_readPos, hloop, Option.bind_eq_bind,
    Option.bind_some]
  cases hname : Text.findName names start c.rest with
  | none =>
      rw [hname] at hindex
      cases index with
      | none => simp [Text.header, hname, Http11Http.writeAll]
      | some i => cases hindex
  | some found =>
      obtain ⟨j, t⟩ := found
      rw [hname] at hindex
      rw [hpos _ hname]
      have ht := Text.findName_suffix hname
      obtain ⟨name, -, -, hcolon⟩ := Text.findName_mem hname
      have hhead := Text.nameColon_head hcolon
      have hfind := findCrlf_follows.to Text.findCrlf_suffix hs ht
      have hlength := (hs.to ht).length
      have hlength' := (hs.to ((Text.findCrlf_suffix t).trans ht)).length
      simp only [Cursor.to_rest] at hlength hlength'
      have hne : t ≠ [] := by
        rintro rfl
        cases hhead
      have hpositive := List.length_pos_iff.mpr hne
      have hbuf := (hs.to ht).buf_isSome hne
      have hshort := Text.findCrlf_length (by decide) hhead
      cases index with
      | none => cases hindex
      | some i =>
          simp only [Option.map_some, Option.some.injEq] at hindex
          have hsize : (if (Text.findCrlf t).1 = true then
              (c.to (Text.findCrlf t).2).pos - (c.to t).pos
              else request.writePos - (c.to t).pos) =
              if (Text.findCrlf t).1 = true then t.length - (Text.findCrlf t).2.length
              else t.length := by
            split <;> omega
          have hsize' : 0 < if (Text.findCrlf t).1 = true then
              t.length - (Text.findCrlf t).2.length else t.length := by
            by_cases hfound : (Text.findCrlf t).1 = true
            · have hlt := hshort hfound
              simp only [hfound, if_true]
              omega
            · simpa [hfound] using hpositive
          have hset : ∀ s : Stringaa, (stringaaSetCharsSize s
              (request.buf.map fun buf => buf.add (c.to t).pos)
              (if (Text.findCrlf t).1 = true then t.length - (Text.findCrlf t).2.length
                else t.length)).2 = request.headerFrom (c.to t).pos
              (if (Text.findCrlf t).1 = true then t.length - (Text.findCrlf t).2.length
                else t.length) := by
            intro s
            rw [stringaaSetCharsSize, if_pos ⟨by simpa using hbuf, hsize'⟩]
            rfl
          simp only [hfind, Option.bind_some, seek_buf, seek_readPos, seek_writePos, hsize, hset,
            hindex, Text.header, hname]
          rfl

private theorem generalHeader_reads : Reads h (http11GeneralHeader h)
    (Text.header http11GeneralHeaderArray http11GeneralHeaderArrayStart) :=
  header_reads _ (literal_ne rfl) _

private theorem requestHeader_reads : Reads h (http11RequestHeader h)
    (Text.header http11RequestHeaderArray http11RequestHeaderArrayStart) :=
  header_reads _ (literal_ne rfl) _

private theorem entityHeader_reads : Reads h (http11EntityHeader h)
    (Text.header http11EntityHeaderArray http11EntityHeaderArrayStart) :=
  header_reads _ (literal_ne rfl) _

theorem headersLoop_readsAt (fuel : Nat) (hs : request.Shows h c) (hfuel : c.rest.length < fuel) :
    ReadsAt http request c (headersLoop h fuel) Text.headers := by
  induction fuel generalizing http c with
  | zero => cases hfuel
  | succ fuel ih =>
      have hgeneral := generalHeader_reads (h := h) http request c hs
      have hadv := Text.header_advances http11GeneralHeaderArray http11GeneralHeaderArrayStart
      have hrequest := (requestHeader_reads (h := h)).whenNot hadv hs http
      have hadv' := hadv.orElse
        (Text.header_advances http11RequestHeaderArray http11RequestHeaderArrayStart)
      have hentity := (entityHeader_reads (h := h)).whenNot hadv' hs http
      rw [ReadsAt] at hgeneral
      simp only [ReadsAt, headersLoop, hgeneral, hrequest, not_orElse_ok, hentity, or_orElse_ok,
        Option.bind_eq_bind, Option.bind_some]
      rw [← Text.headerLine]
      have hreach := Text.headerLine_advances c
      have hs' := hs.reaches hreach
      have hcrlf := crlf_follows (h := h) request _ hs'
      have hle := hreach.rest_le
      simp only [hcrlf, Option.bind_some]
      rw [Text.headers]
      by_cases hline : (Text.headerLine c).ok = true
      · by_cases hend : (Text.crlf (Text.headerLine c).cursor.rest).1 = true
        · have hlt := Text.crlf_length hend
          have hrec := @ih _ (http.writeAll request (Text.headerLine c).notes)
            (hs'.to (Text.crlf_suffix _)) (by rw [Cursor.to_rest]; omega)
          rw [ReadsAt] at hrec
          simp [hline, hend, hrec, Outcome.after, writeAll_append]
        · simp [hline, hend, Text.crlf_eq_self hend, Cursor.to_self]
      · have hfail := Text.headerLine_fail hline
        rw [hfail] at hs' ⊢
        by_cases hend : (Text.crlf c.rest).1 = true
        · simp [hend, Http11Http.writeAll]
        · have hfind := findCrlf_follows (h := h) request c hs
          by_cases hfound : (Text.findCrlf c.rest).1 = true
          · have hcrlf' := crlf_follows.to Text.crlf_suffix hs (Text.findCrlf_suffix c.rest)
            have hlt := Text.crlf_length (Text.crlf_of_findCrlf hfound)
            have hle' := (Text.findCrlf_suffix c.rest).length_le
            have hrec := @ih _ http
              (hs.to ((Text.crlf_suffix _).trans (Text.findCrlf_suffix c.rest))) (by
                rw [Cursor.to_rest]
                omega)
            rw [ReadsAt] at hrec
            simp [hend, Text.crlf_eq_self hend, Cursor.to_self, hfind, hfound, hcrlf', hrec,
              Http11Http.writeAll]
          · simp [hend, Text.crlf_eq_self hend, Cursor.to_self, hfind, hfound,
              Text.findCrlf_eq_self hfound, Http11Http.writeAll]

/-! ### Requests -/

theorem request_readsAt (hs : request.Shows h c) (hsize : request.writePos < 2 ^ 31)
    (hready : http11Cr ∈ c.rest ∨ http.request.requestLine.requestUri.uri.isInit = false) :
    ReadsAt http request c (http11Request h) Text.request := by
  have hline := requestLine_readsAt hs hsize hready
  have hreach := Text.requestLine_advances c
  have hheaders := ReadsAt.whenOk (c := c) (p := Text.requestLine) http fun _ =>
    headersLoop_readsAt (h := h) (request.seek (Text.requestLine c).cursor.pos).budget
      (hs.reaches hreach) ((hs.reaches hreach).budget (List.suffix_refl _) _)
  rw [ReadsAt] at hline
  simp only [ReadsAt, http11Request, hline, hheaders, Option.bind_eq_bind, Option.bind_some]
  rfl

private theorem cr_mem_of_findCrlf (ha : (Text.findCrlf a).1 = true) : http11Cr ∈ a := by
  refine (Text.findCrlf_suffix a).subset ?_
  rw [Text.crlf_eq (Text.crlf_of_findCrlf ha)]
  exact List.mem_cons_self

/-- The headers of the text in the buffer, read from its begin on. -/
theorem parseRequestHeaders_eq (http : Http11Http) (hs : request.Shows h ⟨0, a⟩)
    (hsize : request.writePos < 2 ^ 31) :
    httpaaParseRequestHeaders h http (request.seek 0) =
      some ((Text.parseRequestHeaders a).ok,
        http.writeAll request (Text.parseRequestHeaders a).notes,
        request.seek (Text.parseRequestHeaders a).cursor.pos) := by
  have hfind := findCrlf_follows request ⟨0, a⟩ hs
  have hcrlf := crlf_follows.to Text.crlf_suffix hs (Text.findCrlf_suffix a)
  have hsuffix := (Text.crlf_suffix _).trans (Text.findCrlf_suffix a)
  have hfind' := findCrlf_follows.to Text.findCrlf_suffix hs hsuffix
  simp only [httpaaParseRequestHeaders, hfind, Text.parseRequestHeaders, Option.bind_eq_bind,
    Option.bind_some]
  by_cases hfound : (Text.findCrlf a).1 = true
  · by_cases hfound' : (Text.findCrlf (Text.crlf (Text.findCrlf a).2).2).1 = true
    · have hrequest := @request_readsAt h ⟨0, a⟩ http request hs hsize
        (.inl (cr_mem_of_findCrlf hfound))
      rw [ReadsAt] at hrequest
      by_cases hok : (Text.request ⟨0, a⟩).ok = true
      · simp [hfound, hcrlf, hfind', hfound', hrequest, attempt, hok]
      · simp [hfound, hcrlf, hfind', hfound', hrequest, attempt, hok]
    · simp [hfound, hcrlf, hfind', hfound', Http11Http.writeAll]
  · simp [hfound, Http11Http.writeAll]

end Readers

end Httpaa
