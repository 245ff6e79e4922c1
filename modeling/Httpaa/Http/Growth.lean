import Httpaa.Foundation.Overwriting
import Httpaa.Http.Confinement
import Httpaa.Http.Headers
import Mathlib.Data.List.Induction

/-!
# A request that grows

The parser is called again and again while the text of the request grows. Once it succeeds it goes
on to do so, with the same assignments. The assignments of a call that fails are all made again by a
call that succeeds.
-/

namespace Httpaa

/-- The assignments have one target, and both set it, or they are the same. -/
def HttpWrite.Redoes (w w' : HttpWrite) : Prop :=
  w = w' ∨ ∃ i pos size pos' size', w = .header i pos size ∧ w' = .header i pos' size'

/-- If this is an assignment to the request URI, it was found to be one. -/
def HttpWrite.FindsUri (w : HttpWrite) : Prop :=
  ∀ pos size isUri, w = .uri pos size isUri → isUri = true

end Httpaa

namespace Httpaa.Text

open Recogniser Lines

/-! ### Header lines -/

private theorem headers_notes_of_none {c : Cursor UInt8}
    (h : takeLine http11Cr http11Lf c.rest = none) :
    (headers c).notes = (headerLine c).notes := by
  have hnone : ∀ t, t <:+ c.rest → ¬ (crlf t).1 = true := by
    intro t ht
    rw [crlf_iff, takeLine_suffix ht h]
    simp
  have hcrlf := hnone _ (List.suffix_refl c.rest)
  rw [headers]
  by_cases hline : (headerLine c).ok = true
  · obtain ⟨front, hrest, -⟩ := headerLine_advances c
    simp [hline, hnone _ ⟨front, hrest.symm⟩]
  · simp [headerLine_fail hline, hcrlf, findCrlf, fromCrlf_of_none h]

private theorem headers_redo {pos : Nat} {t v : List UInt8}
    (hempty : [] ∈ lines http11Cr http11Lf (t ++ v)) :
    ∀ w' ∈ (headers ⟨pos, t⟩).notes, ∃ w ∈ (headers ⟨pos, t ++ v⟩).notes, w.Redoes w' := by
  induction t using induction_on http11Cr http11Lf generalizing pos with
  | hnone t h =>
      rw [headers_notes_of_none (c := ⟨pos, t⟩) h]
      rcases headerLine_cases ⟨pos, t⟩ with ⟨i, name, hi, hnamed, heq⟩ | ⟨hfail, -⟩
      swap
      · simp [hfail]
      have hnamed' : NamedBy (literal name) (t ++ v) := by
        rw [NamedBy, List.map_append]
        exact hnamed.trans (List.prefix_append _ _)
      cases hfirst : takeLine http11Cr http11Lf (t ++ v) with
      | none => simp [lines_of_none hfirst] at hempty
      | some found =>
          obtain ⟨line, rest⟩ := found
          have hline := (namedBy_of_takeLine (List.mem_of_getElem? hi) hfirst).mp hnamed'
          have hlt := length_le_of_namedBy hline
          have hne : line ≠ [] := List.ne_nil_of_length_pos (by omega)
          intro w' hw'
          rw [headers_of_line (c := ⟨pos, t ++ v⟩) hfirst hne, lineNotes_named hi hline]
          rw [heq] at hw'
          simp only [header, findName, nameColon_eq_some.mpr ⟨hnamed, rfl⟩,
            List.mem_singleton] at hw'
          exact ⟨.header i (pos + (literal name).length) (line.length - (literal name).length),
            by simp [Outcome.after], .inr ⟨i, _, _, _, _, rfl, hw'⟩⟩
  | hline t line rest h ih =>
      have happend := takeLine_append h v
      by_cases hline : line = []
      · subst hline
        simp [headers_of_empty (c := ⟨pos, t⟩) h]
      · rw [lines_of_takeLine happend, List.mem_cons] at hempty
        have hrec := @ih (pos + line.length + 2) (hempty.resolve_left (Ne.symm hline))
        rw [headers_of_line (c := ⟨pos, t⟩) h hline,
          headers_of_line (c := ⟨pos, t ++ v⟩) happend hline, to_of_takeLine h,
          to_of_takeLine happend]
        intro w' hw'
        simp only [Outcome.after, List.mem_append] at hw' ⊢
        rcases hw' with hw' | hw'
        · exact ⟨w', .inl hw', .inl rfl⟩
        · obtain ⟨w, hw, hredoes⟩ := hrec w' hw'
          exact ⟨w, .inr hw, hredoes⟩

private theorem headers_append {pos : Nat} {t : List UInt8} (v : List UInt8)
    (hok : (headers ⟨pos, t⟩).ok = true) :
    (headers ⟨pos, t ++ v⟩).ok = true ∧
      (headers ⟨pos, t ++ v⟩).notes = (headers ⟨pos, t⟩).notes := by
  induction t using induction_on http11Cr http11Lf generalizing pos with
  | hnone t h => simp [headers_of_none (c := ⟨pos, t⟩) h] at hok
  | hline t line rest h ih =>
      have happend := takeLine_append h v
      by_cases hline : line = []
      · subst hline
        simp [headers_of_empty (c := ⟨pos, t⟩) h, headers_of_empty (c := ⟨pos, t ++ v⟩) happend]
      · rw [headers_of_line (c := ⟨pos, t⟩) h hline, to_of_takeLine h] at hok ⊢
        rw [headers_of_line (c := ⟨pos, t ++ v⟩) happend hline, to_of_takeLine happend]
        obtain ⟨hok', hnotes⟩ := @ih (pos + line.length + 2) hok
        exact ⟨hok', by simp only [Outcome.after, hnotes]⟩

private theorem lines_of_headers {pos : Nat} {t : List UInt8} (hok : (headers ⟨pos, t⟩).ok = true) :
    [] ∈ lines http11Cr http11Lf t := by
  by_contra hempty
  have heq := headers_eq pos t
  rw [if_neg hempty] at heq
  simp [heq] at hok

/-! ### Requests -/

private theorem request_front (line : List UInt8) :
    ∃ isLine pos left notes, ∀ later,
      (attempt request ⟨0, line ++ http11Cr :: http11Lf :: later⟩).ok =
        (isLine && (headers ⟨pos, left ++ later⟩).ok) ∧
      (attempt request ⟨0, line ++ http11Cr :: http11Lf :: later⟩).notes =
        notes ++ if isLine then (headers ⟨pos, left ++ later⟩).notes else [] := by
  obtain ⟨isLine, pos, left, notes, heq⟩ := requestLine_front line
  refine ⟨isLine, pos, left, notes, fun later => ?_⟩
  have hnotes : ∀ c : Cursor UInt8, (attempt request c).ok = (request c).ok ∧
      (attempt request c).notes = (request c).notes := by
    intro c
    by_cases hok : (request c).ok = true <;> simp [attempt, hok]
  rw [(hnotes _).1, (hnotes _).2]
  cases isLine with
  | false => simp [request, andThen, heq]
  | true => simp [request, andThen, heq, Outcome.after]

theorem parseRequestHeaders_of_lines {s line rest : List UInt8} {found : List UInt8 × List UInt8}
    (h : takeLine http11Cr http11Lf s = some (line, rest))
    (h' : takeLine http11Cr http11Lf rest = some found) :
    parseRequestHeaders s = attempt request ⟨0, s⟩ := by
  have hcrlf : crlf (http11Cr :: http11Lf :: rest) = (true, rest) := rfl
  simp [parseRequestHeaders, findCrlf, fromCrlf_of_takeLine h, hcrlf, fromCrlf_of_takeLine h']

private theorem parseRequestHeaders_of_none {s : List UInt8}
    (h : ∀ line rest, takeLine http11Cr http11Lf s = some (line, rest) →
      takeLine http11Cr http11Lf rest = none) :
    parseRequestHeaders s = ⟨false, ⟨0, s⟩, []⟩ := by
  cases hfirst : takeLine http11Cr http11Lf s with
  | none => simp [parseRequestHeaders, findCrlf, fromCrlf_of_none hfirst]
  | some found =>
      obtain ⟨line, rest⟩ := found
      have hcrlf : crlf (http11Cr :: http11Lf :: rest) = (true, rest) := rfl
      simp [parseRequestHeaders, findCrlf, fromCrlf_of_takeLine hfirst, hcrlf,
        fromCrlf_of_none (h line rest hfirst)]

private theorem parseRequestHeaders_cases (s : List UInt8) :
    parseRequestHeaders s = ⟨false, ⟨0, s⟩, []⟩ ∨
    ∃ isLine pos t notes, ∀ v,
      (parseRequestHeaders (s ++ v)).ok = (isLine && (headers ⟨pos, t ++ v⟩).ok) ∧
      (parseRequestHeaders (s ++ v)).notes =
        notes ++ if isLine then (headers ⟨pos, t ++ v⟩).notes else [] := by
  by_cases h : ∀ line rest, takeLine http11Cr http11Lf s = some (line, rest) →
      takeLine http11Cr http11Lf rest = none
  · exact .inl (parseRequestHeaders_of_none h)
  · push Not at h
    obtain ⟨line, rest, hfirst, hsecond⟩ := h
    obtain ⟨found, hsecond⟩ := Option.ne_none_iff_exists'.mp hsecond
    obtain ⟨isLine, pos, left, notes, hfront⟩ := request_front line
    refine .inr ⟨isLine, pos, left ++ rest, notes, fun v => ?_⟩
    rw [parseRequestHeaders_of_lines (takeLine_append hfirst v) (takeLine_append hsecond v),
      eq_of_takeLine hfirst]
    simpa using hfront (rest ++ v)

theorem parseRequestHeaders_append {s : List UInt8} (v : List UInt8)
    (hok : (parseRequestHeaders s).ok = true) :
    (parseRequestHeaders (s ++ v)).ok = true ∧
      (parseRequestHeaders (s ++ v)).notes = (parseRequestHeaders s).notes := by
  rcases parseRequestHeaders_cases s with hnone | ⟨isLine, pos, t, notes, hfront⟩
  · simp [hnone] at hok
  · have hself := hfront []
    have hmore := hfront v
    simp only [List.append_nil] at hself
    rw [hself.1, Bool.and_eq_true] at hok
    obtain ⟨hline, hheaders⟩ := hok
    obtain ⟨hok', hnotes⟩ := headers_append v hheaders
    rw [hmore.1, hmore.2, hself.2, hok', hnotes, hline]
    exact ⟨rfl, rfl⟩

private theorem parseRequestHeaders_redo {s v : List UInt8}
    (hok : (parseRequestHeaders (s ++ v)).ok = true) :
    ∀ w' ∈ (parseRequestHeaders s).notes,
      ∃ w ∈ (parseRequestHeaders (s ++ v)).notes, w.Redoes w' := by
  rcases parseRequestHeaders_cases s with hnone | ⟨isLine, pos, t, notes, hfront⟩
  · simp [hnone]
  · have hself := hfront []
    have hmore := hfront v
    simp only [List.append_nil] at hself
    rw [hmore.1, Bool.and_eq_true] at hok
    obtain ⟨hline, hheaders⟩ := hok
    intro w' hw'
    simp only [hself.2, hline, if_true, List.mem_append] at hw'
    simp only [hmore.2, hline, if_true]
    rcases hw' with hw' | hw'
    · exact ⟨w', List.mem_append_left _ hw', .inl rfl⟩
    · obtain ⟨w, hw, hredoes⟩ := headers_redo (lines_of_headers hheaders) w' hw'
      exact ⟨w, List.mem_append_right _ hw, hredoes⟩

theorem parseRequestHeaders_cursor {s : List UInt8} (hfail : (parseRequestHeaders s).ok = false) :
    (parseRequestHeaders s).cursor.pos = 0 := by
  rw [parseRequestHeaders] at hfail ⊢
  split
  · rename_i hlines
    rw [if_pos hlines] at hfail
    by_cases hrequest : (request ⟨0, s⟩).ok = true
    · simp [attempt_of_ok hrequest, hrequest] at hfail
    · simp [attempt, hrequest]
  · rfl

/-! ### The method -/

private theorem andThen_left {p q : Reader} {c : Cursor UInt8} (hok : (andThen p q c).ok = true) :
    (p c).ok = true ∧ ∀ w ∈ (p c).notes, w ∈ (andThen p q c).notes := by
  by_cases hfirst : (p c).ok = true
  · rw [andThen_of_ok hfirst]
    exact ⟨hfirst, fun w hw => List.mem_append_left _ hw⟩
  · rw [andThen, if_neg hfirst] at hok
    exact absurd hok hfirst

theorem parseRequestHeaders_method {s : List UInt8} (hok : (parseRequestHeaders s).ok = true) :
    ∃ i, .method i ∈ (parseRequestHeaders s).notes := by
  have hfound : ∀ c, (attempt request c).ok = true → ∃ i,
    .method i ∈ (attempt request c).notes := by
    intro c hrequest
    by_cases hself : (request c).ok = true
    swap
    · simp [attempt, hself] at hrequest
    rw [attempt_of_ok hself]
    obtain ⟨hline, hnotes⟩ := andThen_left hself
    by_cases hfront : (andThen requestLineFront (lift crlf) c).ok = true
    swap
    · simp [requestLine, attempt, hfront] at hline
    rw [requestLine, attempt_of_ok hfront] at hnotes
    obtain ⟨hversion, hnotes₁⟩ := andThen_left hfront
    obtain ⟨hspace, hnotes₂⟩ := andThen_left hversion
    obtain ⟨huri, hnotes₃⟩ := andThen_left hspace
    obtain ⟨hspace', hnotes₄⟩ := andThen_left huri
    obtain ⟨hmethod, hnotes₅⟩ := andThen_left hspace'
    cases hloop : methodLoop http11MethodArray 0 c.rest with
    | none => simp [method, find, hloop] at hmethod
    | some found =>
        refine ⟨found.1, hnotes _ (hnotes₁ _ (hnotes₂ _ (hnotes₃ _ (hnotes₄ _ (hnotes₅ _ ?_)))))⟩
        simp [method, find, hloop]
  rw [parseRequestHeaders] at hok ⊢
  split at hok
  · rename_i hlines
    rw [if_pos hlines]
    exact hfound _ hok
  · cases hok

/-! ### The request URI -/

private theorem andThen_findsUri {p q : Reader}
    (hp : ∀ c, (p c).ok = true → ∀ w ∈ (p c).notes, w.FindsUri)
    (hq : ∀ c, (q c).ok = true → ∀ w ∈ (q c).notes, w.FindsUri) (c : Cursor UInt8)
    (hok : (andThen p q c).ok = true) : ∀ w ∈ (andThen p q c).notes, w.FindsUri := by
  by_cases hfirst : (p c).ok = true
  · rw [andThen_of_ok hfirst] at hok ⊢
    intro w hw
    rcases List.mem_append.mp hw with hw | hw
    · exact hp c hfirst w hw
    · exact hq _ hok w hw
  · rw [andThen, if_neg hfirst] at hok
    exact absurd hok hfirst

private theorem find_findsUri {β : Type} (f : List UInt8 → Option (β × List UInt8))
    (note : β → HttpWrite) (hnote : ∀ value, (note value).FindsUri) (c : Cursor UInt8) :
    ∀ w ∈ (find f note c).notes, w.FindsUri :=
  NotesIn.find (R := fun _ (w : HttpWrite) => w.FindsUri) (fun _ => hnote) c

private theorem requestUri_findsUri (c : Cursor UInt8) (hok : (requestUri c).ok = true) :
    ∀ w ∈ (requestUri c).notes, w.FindsUri := by
  by_cases hrest : c.rest = []
  · simp [requestUri, hrest] at hok
  · have huri : (uriReference ⟨0, c.rest⟩).ok = true := by simpa [requestUri, hrest] using hok
    intro w hw
    simp only [requestUri, hrest, if_false, huri, List.mem_cons, List.mem_map] at hw
    rcases hw with rfl | ⟨part, -, rfl⟩
    · rintro pos size isUri heq
      cases heq
      rfl
    · rintro pos size isUri heq
      cases heq

private theorem lift_findsUri (f : List UInt8 → Bool × List UInt8) (c : Cursor UInt8) :
    ∀ w ∈ (lift f c : Outcome UInt8 HttpWrite).notes, w.FindsUri := by
  simp [lift]

private theorem requestLine_findsUri (c : Cursor UInt8) (hok : (requestLine c).ok = true) :
    ∀ w ∈ (requestLine c).notes, w.FindsUri := by
  have hspace : ∀ c, (space c).ok = true → ∀ w ∈ (space c).notes, w.FindsUri :=
    fun c _ => lift_findsUri (isChar http11Sp) c
  have hnames : ∀ c, (method c).ok = true → ∀ w ∈ (method c).notes, w.FindsUri := by
    intro c _
    refine find_findsUri (methodLoop http11MethodArray 0) .method ?_ c
    rintro value pos size isUri heq
    cases heq
  have hnumbers : ∀ c, (version c).ok = true → ∀ w ∈ (version c).notes, w.FindsUri := by
    intro c _
    refine find_findsUri versionNumbers .version ?_ c
    rintro value pos size isUri heq
    cases heq
  have hmethod := andThen_findsUri hnames hspace
  have hversion := andThen_findsUri
    (andThen_findsUri (andThen_findsUri hmethod requestUri_findsUri) hspace) hnumbers
  have hline := andThen_findsUri hversion fun c _ => lift_findsUri crlf c
  by_cases hfront : (andThen requestLineFront (lift crlf) c).ok = true
  · rw [requestLine, attempt_of_ok hfront]
    exact hline c hfront
  · simp [requestLine, attempt, hfront] at hok

private theorem headers_findsUri (c : Cursor UInt8) : ∀ w ∈ (headers c).notes, w.FindsUri := by
  have hheader : ∀ names start c, ∀ w ∈ (header names start c).notes, w.FindsUri := by
    rintro names start c w hw
    cases hname : findName names start c.rest with
    | none => simp [header, hname] at hw
    | some found =>
        simp only [header, hname, List.mem_singleton] at hw
        rw [hw]
        rintro pos size isUri heq
        cases heq
  have hline : ∀ c, ∀ w ∈ (headerLine c).notes, w.FindsUri := by
    intro c
    rcases headerLine_cases c with ⟨i, name, -, -, heq⟩ | ⟨hfail, -⟩
    · rw [heq]
      exact hheader _ _ c
    · simp [hfail]
  fun_induction headers c with
  | case1 c r hok hcrlf ih =>
      intro w hw
      rcases List.mem_append.mp hw with hw | hw
      · exact hline c w hw
      · exact ih w hw
  | case2 c r hok hcrlf => exact hline c
  | case3 c r hok hcrlf => simp
  | case4 c r hok hcrlf hfind ih => exact ih
  | case5 c r hok hcrlf hfind => simp

theorem parseRequestHeaders_findsUri {s : List UInt8} (hok : (parseRequestHeaders s).ok = true) :
    ∀ w ∈ (parseRequestHeaders s).notes, w.FindsUri := by
  rw [parseRequestHeaders] at hok ⊢
  split at hok
  · rename_i hlines
    rw [if_pos hlines]
    by_cases hrequest : (request ⟨0, s⟩).ok = true
    · rw [attempt_of_ok hrequest]
      exact andThen_findsUri requestLine_findsUri (fun c _ => headers_findsUri c) _ hrequest
    · simp [attempt, hrequest] at hok
  · cases hok

end Httpaa.Text

namespace Httpaa

open Overwriting

/-! ### Assignments made once more -/

/-- What an assignment does to one component, where `buf` is the text of the reference. -/
def UriWrite.component (buf : Option Ptr) (w : UriWrite) (q : UriPart) (s : Stringaa) : Stringaa :=
  match w with
  | .set p pos size =>
      if q = p then { s with
        buf := buf.map fun buf => buf.add pos
        bufSize := size
        writePos := if size ≠ 0 then size - s.isNullTerminated.toNat else 0
        isInit := true }
      else s
  | .unset p => if q = p then { s with bufSize := 0, writePos := 0, isInit := false } else s

theorem Uriaa.write_eq (u : Uriaa) (w : UriWrite) :
    u.write w = { u with part := fun q => w.component u.uri.buf q (u.part q) } := by
  cases w with
  | set p pos size =>
      simp only [Uriaa.write, Uriaa.setPart, UriWrite.component, Uriaa.mk.injEq, true_and]
      funext q
      by_cases hq : q = p <;> simp [hq]
  | unset p =>
      simp only [Uriaa.write, Uriaa.unsetPart, UriWrite.component, Uriaa.mk.injEq, true_and]
      funext q
      by_cases hq : q = p <;> simp [hq]

private theorem UriWrite.component_again (buf buf' : Option Ptr) (w g : UriWrite) (q : UriPart)
    (s : Stringaa) : w.component buf q (g.component buf' q (w.component buf q s)) =
      w.component buf q (g.component buf' q s) := by
  cases w <;> cases g <;> simp only [UriWrite.component] <;> split_ifs <;> rfl

private theorem UriWrite.component_covers (buf buf' : Option Ptr) (w : UriWrite) (q : UriPart)
    (s : Stringaa) : w.component buf q (w.component buf' q s) = w.component buf q s := by
  cases w <;> simp only [UriWrite.component] <;> split_ifs <;> rfl

private theorem setHeader_setHeader (http : Http11Http) (index : Nat) (s s' : Stringaa) :
    (http.setHeader index s').setHeader index s = http.setHeader index s := by
  simp only [Http11Http.setHeader, Http11Http.mk.injEq, Http11Request.mk.injEq, true_and]
  funext i
  by_cases hi : i = index <;> simp [hi]

private theorem setHeader_again (http : Http11Http) (index index' : Nat) (s s' : Stringaa) :
    ((http.setHeader index s).setHeader index' s').setHeader index s =
      (http.setHeader index' s').setHeader index s := by
  simp only [Http11Http.setHeader, Http11Http.mk.injEq, Http11Request.mk.injEq, true_and]
  funext i
  by_cases hi : i = index <;> simp [hi]

/-- An assignment, together with the request that its slices are taken from. -/
def Http11Http.assign (http : Http11Http) (w : Stringaa × HttpWrite) : Http11Http :=
  http.write w.1 w.2

private theorem writeAll_eq_foldl (http : Http11Http) (request : Stringaa)
    (writes : List HttpWrite) :
    http.writeAll request writes =
      (writes.map fun w => (request, w)).foldl Http11Http.assign http := by
  simp [Http11Http.writeAll, List.foldl_map, Http11Http.assign]

private theorem assign_steady : Steady Http11Http.assign := by
  rintro http ⟨request, w⟩ ⟨request', g⟩
  cases w with
  | method | uri | version => cases g <;> rfl
  | header index pos size =>
      cases g with
      | header index' pos' size' => exact setHeader_again http index index' _ _
      | method method => exact setHeader_setHeader (http.write request' (.method method)) index _ _
      | uri pos' size' isUri =>
          exact setHeader_setHeader (http.write request' (.uri pos' size' isUri)) index _ _
      | part w => exact setHeader_setHeader (http.write request' (.part w)) index _ _
      | version version =>
          exact setHeader_setHeader (http.write request' (.version version)) index _ _
  | part w =>
      cases g with
      | part g =>
          simp only [Http11Http.assign, Http11Http.write, Http11Http.setRequestUri, Uriaa.write_eq,
            UriWrite.component_again]
      | method | uri | version | header =>
          simp only [Http11Http.assign, Http11Http.write, Http11Http.setMethod,
            Http11Http.setHttpVersion, Http11Http.setHeader, Http11Http.setRequestUri,
            Uriaa.write_eq, UriWrite.component_covers]

private theorem HttpWrite.Redoes.covers {w w' : HttpWrite} (h : w.Redoes w')
    (request request' : Stringaa) :
    Covers Http11Http.assign (request, w) (request', w') := by
  intro http
  rcases h with rfl | ⟨i, pos, size, pos', size', rfl, rfl⟩
  · cases w with
    | method | uri | version => rfl
    | header index pos size => exact setHeader_setHeader http index _ _
    | part w =>
        simp only [Http11Http.assign, Http11Http.write, Http11Http.setRequestUri, Uriaa.write_eq,
          UriWrite.component_covers]
  · exact setHeader_setHeader http i _ _

/-- Assignments among which there is a method set it to the last one. -/
theorem writeAll_method {writes : List HttpWrite} (hmethod : ∃ i, .method i ∈ writes)
    (http http' : Http11Http) (request request' : Stringaa) :
    (http.writeAll request writes).request.requestLine.method =
      (http'.writeAll request' writes).request.requestLine.method := by
  induction writes using List.reverseRecOn with
  | nil =>
      obtain ⟨i, hi⟩ := hmethod
      cases hi
  | append_singleton writes w ih =>
      rw [writeAll_append, writeAll_append]
      cases w with
      | method i => rfl
      | uri | part | version | header => exact ih (by simpa using hmethod)

/-- The assignments of a call that failed leave no trace behind those of a call that succeeds on a
longer text. -/
theorem writeAll_redo {s v : List UInt8} (hok : (Text.parseRequestHeaders (s ++ v)).ok = true)
    (http : Http11Http) (request request' : Stringaa) :
    (http.writeAll request' (Text.parseRequestHeaders s).notes).writeAll request
        (Text.parseRequestHeaders (s ++ v)).notes =
      http.writeAll request (Text.parseRequestHeaders (s ++ v)).notes := by
  simp only [writeAll_eq_foldl]
  refine assign_steady.foldl_foldl (fun made hmade => ?_) http
  obtain ⟨w', hw', rfl⟩ := List.mem_map.mp hmade
  obtain ⟨w, hw, hredoes⟩ := Text.parseRequestHeaders_redo hok w' hw'
  exact ⟨(request, w), List.mem_map.mpr ⟨w, hw, rfl⟩, hredoes.covers request request'⟩

end Httpaa
