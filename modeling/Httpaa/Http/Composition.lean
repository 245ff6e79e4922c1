import Httpaa.Http.Growth
import Httpaa.Http.Method
import Httpaa.Http.Version
import Httpaa.Uri.Composition

/-!
# Composed requests

A request is put together from a method, a path from the root with its query and fragment, a version
and headers. `httpaa_parse_request_headers` gives these parts back, whatever stands behind the
request.
-/

namespace Httpaa

open Recogniser Stringaa Lines

/-- A path from the root, a query and a fragment. A path that begins with an empty segment and goes
on would begin with two slashes, and be read as an authority. -/
structure RequestTarget where
  first : PathSegment
  more : List PathSegment
  query : Option (List UInt8)
  fragment : Option (List UInt8)
  first_text : first.text = [] → more = []
  query_chars : ∀ text ∈ query, text.all uricChars = true
  fragment_chars : ∀ text ∈ fragment, text.all uricChars = true

/-- A header: a name, and what stands behind the colon. -/
structure RequestHeader where
  name : List UInt8
  value : List UInt8
  name_chars : ch ':' ∉ name ∧ http11Lf ∉ name
  value_chars : http11Lf ∉ value

/-- The parts of a request. Names are in letters of either case, and the numbers of the version are
such that the parser reads them. -/
structure RequestMessage where
  index : Nat
  name : String
  method : List UInt8
  target : RequestTarget
  http : List UInt8
  major : List UInt8
  minor : List UInt8
  headers : List RequestHeader
  method_known : http11MethodArray[index]? = some name
  method_read : name ≠ "PUT"
  method_text : method.map toUpper = literal name
  http_text : http.map toUpper = literal "HTTP/"
  major_run : IsRun digitChars major
  minor_run : IsRun digitChars minor
  major_fits : Fits major
  minor_fits : Fits minor

namespace RequestTarget

open HierarchicalUri

variable (t : RequestTarget)

def path : List UInt8 := (t.first :: t.more).flatMap fun s => ch '/' :: s.text

def text : List UInt8 :=
  t.path ++ (whenPresent t.query (fun text => ch '?' :: text) ++
    whenPresent t.fragment fun text => ch '#' :: text)

def component : UriPart → Option (List UInt8)
  | .absPath => some t.path
  | .query => t.query
  | .fragment => t.fragment
  | _ => none

end RequestTarget

def RequestHeader.line (f : RequestHeader) : List UInt8 := f.name ++ ch ':' :: f.value

namespace RequestMessage

variable (r : RequestMessage)

def line : List UInt8 :=
  r.method ++ [http11Sp] ++ r.target.text ++ [http11Sp] ++
    (r.http ++ (r.major ++ ch '.' :: r.minor))

def headerLines : List (List UInt8) := r.headers.map RequestHeader.line

def headerText : List UInt8 := r.headerLines.flatMap fun line => line ++ [http11Cr, http11Lf]

/-- The request line, the lines of the headers, and an empty line. -/
def text : List UInt8 :=
  r.line ++ http11Cr :: http11Lf :: (r.headerText ++ [http11Cr, http11Lf])

/-- What stands behind the colon in the last header of a name. -/
def value (name : List UInt8) : Option (List UInt8) :=
  ((r.headers.filter fun f => f.name.map toLower = name).getLast?).map RequestHeader.value

end RequestMessage

/-! ### Lines that are put together -/

namespace Lines

private theorem takeLine_of_notMem {α : Type*} [DecidableEq α] {cr lf : α} {line : List α}
    (hne : cr ≠ lf) (hline : lf ∉ line) (rest : List α) :
    takeLine cr lf (line ++ cr :: lf :: rest) = some (line, rest) := by
  induction line with
  | nil => simp [takeLine]
  | cons x line ih =>
      rw [List.mem_cons, not_or] at hline
      have hhead : (line ++ cr :: lf :: rest).head? ≠ some lf := by
        cases line with
        | nil => simpa using hne
        | cons y line => simpa using fun h : y = lf => hline.2 (h ▸ List.mem_cons_self)
      rw [List.cons_append, takeLine, if_neg (fun h => hhead h.2), ih hline.2]
      rfl

private theorem lines_flatMap {α : Type*} [DecidableEq α] {cr lf : α} {ls : List (List α)}
    (hne : cr ≠ lf) (hls : ∀ line ∈ ls, line ≠ [] ∧ lf ∉ line) (rest : List α) :
    headLines cr lf ((ls.flatMap fun line => line ++ [cr, lf]) ++ cr :: lf :: rest) = ls ∧
      [] ∈ lines cr lf ((ls.flatMap fun line => line ++ [cr, lf]) ++ cr :: lf :: rest) := by
  induction ls with
  | nil =>
      have hnil : lf ∉ ([] : List α) := List.not_mem_nil
      have htake := takeLine_of_notMem hne hnil rest
      refine ⟨headLines_of_empty htake, ?_⟩
      rw [List.flatMap_nil, lines_of_takeLine htake]
      exact List.mem_cons_self
  | cons line ls ih =>
      obtain ⟨⟨hline, hlf⟩, hls⟩ := List.forall_mem_cons.mp hls
      obtain ⟨hhead, hmem⟩ := ih hls
      have htake := takeLine_of_notMem hne hlf
        ((ls.flatMap fun line => line ++ [cr, lf]) ++ cr :: lf :: rest)
      have htext : ((line :: ls).flatMap fun line => line ++ [cr, lf]) ++ cr :: lf :: rest =
          line ++ cr :: lf :: ((ls.flatMap fun line => line ++ [cr, lf]) ++ cr :: lf :: rest) := by
        simp
      rw [htext]
      refine ⟨?_, ?_⟩
      · rw [headLines_of_line htake hline, hhead]
      · rw [lines_of_takeLine htake]
        exact List.mem_cons_of_mem _ hmem

private theorem size_flatMap {α : Type*} (ls : List (List α)) (cr lf : α) :
    size ls = (ls.flatMap fun line => line ++ [cr, lf]).length := by
  induction ls with
  | nil => rfl
  | cons line ls ih => rw [size_cons, ih, List.flatMap_cons, List.length_append,
      List.length_append]; rfl

end Lines

end Httpaa

namespace Httpaa.Text

open Recogniser HierarchicalUri Lines

variable (t : RequestTarget) (r : RequestMessage)

/-! ### The target -/

/-- An absolute reference with the same path. -/
def underAuthority : HierarchicalUri where
  scheme := [ch 'a']
  userinfo := none
  domainlabels := []
  toplabel := [ch 'a']
  port := none
  path := t.first :: t.more
  query := none
  fragment := none
  scheme_isScheme := by decide
  userinfo_chars := by simp
  domainlabels_isLabel := by decide
  toplabel_isLabel := by decide
  port_digits := by simp
  query_chars := by simp
  fragment_chars := by simp

private theorem target_absPath_yields : Yields absPath true t.path (Ends [ch '?', ch '#', ch ' '])
    fun pos => [.set .absPath pos t.path.length] := by
  intro pos rest hrest
  have hne : (underAuthority t).path ≠ [] := List.cons_ne_nil _ _
  have hpath := absPath_yields (underAuthority t) pos rest hrest
  simp only [decide_eq_true hne, notePath, if_neg hne] at hpath
  exact hpath

private theorem netPath_slash {pos : Nat} {s : List UInt8} (hs : s.head? ≠ some (ch '/')) :
    netPath ⟨pos, ch '/' :: s⟩ = ⟨false, ⟨pos, ch '/' :: s⟩, []⟩ := by
  have hsecond : isChar (ch '/') s = (false, s) := by
    cases s with
    | nil => rfl
    | cons x s =>
        have hx : ch '/' ≠ x := fun h => hs (by rw [h]; rfl)
        simp [isChar, hx]
  have hfirst : char '/' ⟨pos, ch '/' :: s⟩ = ⟨true, ⟨pos + 1, s⟩, []⟩ := by
    simp [char, lift, Cursor.to]
  have hslashes : char '/' ⟨pos + 1, s⟩ = ⟨false, ⟨pos + 1, s⟩, []⟩ := by
    simp [char, lift, hsecond, Cursor.to]
  simp [netPath, attempt, noting, andTry, andThen, hfirst, hslashes, Outcome.after]

private theorem absoluteURI_slash (pos : Nat) (s : List UInt8) :
    absoluteURI ⟨pos, ch '/' :: s⟩ = ⟨false, ⟨pos, ch '/' :: s⟩, []⟩ := by
  have hscheme : schemeRun (ch '/' :: s) = (false, ch '/' :: s) := by
    rfl
  simp [absoluteURI, attempt, andThen, scheme, noting, lift, hscheme, Cursor.to]

def noteTarget (pos : Nat) : List UriWrite :=
  .set .absPath pos t.path.length :: noteOptional .query t.query (pos + t.path.length + 1) ++
    noteOptional .fragment t.fragment
      (pos + (t.path ++ whenPresent t.query fun text => ch '?' :: text).length + 1)

private theorem target_head {rest : List UInt8} (hrest : Ends [ch '?', ch '#', ch ' '] rest) :
    ∃ s, t.path ++ rest = ch '/' :: s ∧ s.head? ≠ some (ch '/') := by
  refine ⟨t.first.text ++ ((t.more.flatMap fun s => ch '/' :: s.text) ++ rest), ?_, ?_⟩
  · simp [RequestTarget.path]
  · have hpchar : ∀ c : UInt8, pcharChars c = true → c ≠ ch '/' := by
      rintro c hc rfl
      exact absurd hc (by decide)
    intro hhead
    cases hname : t.first.name with
    | cons c name =>
        have hchars := t.first.name_chars
        rw [hname, List.all_cons, Bool.and_eq_true] at hchars
        rw [PathSegment.text, hname] at hhead
        exact hpchar c hchars.1 (Option.some.inj hhead)
    | nil =>
        cases hparams : t.first.params with
        | cons param params =>
            rw [PathSegment.text, hname, hparams] at hhead
            exact absurd (Option.some.inj hhead) (by decide)
        | nil =>
            have htext : t.first.text = [] := by rw [PathSegment.text, hname, hparams]; rfl
            rw [htext, t.first_text htext] at hhead
            have hmem := hrest _ hhead
            exact absurd hmem (by decide)

private theorem Yields.orElse_second {p q : Production} {ok : Bool} {a : List UInt8}
    {stop : List UInt8 → Prop} {notes : Nat → List UriWrite}
    (hp : ∀ pos rest, stop rest → p ⟨pos, a ++ rest⟩ = ⟨false, ⟨pos, a ++ rest⟩, []⟩)
    (hq : Yields q ok a stop notes) : Yields (orElse p q) ok a stop notes := by
  intro pos rest hrest
  rw [orElse, hp pos rest hrest, hq pos rest hrest]
  rfl

private theorem target_uriReference_yields : Yields uriReference true t.text (Ends [ch ' '])
    fun pos => noteTarget t pos := by
  have hpath : Yields (orElse netPath absPath) true t.path (Ends [ch '?', ch '#', ch ' '])
      fun pos => [.set .absPath pos t.path.length] := by
    refine Yields.orElse_second (fun pos rest hrest => ?_) (target_absPath_yields t)
    obtain ⟨s, hs, hhead⟩ := target_head t hrest
    rw [hs]
    exact netPath_slash hhead
  have hquery := optionalPart_yields .query '?' [ch '#', ch ' '] t.query_chars
    (by decide) (by decide)
  have hfragment := optionalPart_yields .fragment '#' [ch ' '] t.fragment_chars
    (by decide) (by decide)
  have hends (rest : List UInt8) (hrest : Ends [ch '#', ch ' '] rest) :
      Ends [ch '?', ch '#', ch ' '] ((whenPresent t.query fun text => ch '?' :: text) ++ rest) := by
    cases t.query with
    | none => exact hrest.mono (by decide)
    | some text => exact Ends.cons (by decide)
  have hends' (rest : List UInt8) (hrest : Ends [ch ' '] rest) : Ends [ch '#', ch ' ']
      ((whenPresent t.fragment fun text => ch '#' :: text) ++ rest) := by
    cases t.fragment with
    | none => exact hrest.mono (by decide)
    | some text => exact Ends.cons (by decide)
  have hrelative := ((hpath.orElse (q := relPath)).both (f := fun isPath _ => isPath)
    hquery hends).attempt
  have hall := ((Yields.orElse_second (p := absoluteURI) (fun pos rest hrest => ?_)
    hrelative).both (f := or) hfragment hends').attempt
  · simpa [uriReference, relativeURI, questionQuery, hashFragment, RequestTarget.text, noteTarget]
      using hall
  · obtain ⟨s, hs, -⟩ := target_head t (hends rest hrest)
    rw [List.append_assoc, hs]
    exact absoluteURI_slash pos s

/-! ### The request line -/

def noteLine (pos : Nat) : List HttpWrite :=
  .method r.index ::
    .uri (pos + (r.method.length + 1)) r.target.text.length true ::
      (noteTarget r.target 0).map (fun w => .part (w.shift (pos + (r.method.length + 1)))) ++
    [.version ⟨decimal r.major, decimal r.minor⟩]

private theorem method_yields : Yields method true r.method (fun _ => True) fun _ =>
    [.method r.index] := by
  intro pos rest _
  have hlength : (literal r.name).length = r.method.length := by
    rw [← r.method_text, List.length_map]
  have hbegins : BeginsWith (literal r.name) (r.method ++ rest) := by
    rw [BeginsWith, List.map_append, r.method_text]
    exact List.prefix_append _ _
  have hloop := methodLoop_exact r.method_known r.method_read hbegins
  rw [hlength, List.drop_left] at hloop
  simp [method, find, hloop, Cursor.to]

private theorem space_yields : Yields space true [http11Sp] (fun _ => True) fun _ => [] :=
  Yields.lift fun rest _ => isChar_cons http11Sp rest

private theorem requestUri_yields : Yields requestUri true t.text (Ends [ch ' ']) fun pos =>
    .uri pos t.text.length true :: (noteTarget t 0).map fun w => .part (w.shift pos) := by
  intro pos rest hrest
  have hreference := target_uriReference_yields t 0 rest hrest
  have hne : t.text ++ rest ≠ [] := by simp [RequestTarget.text, RequestTarget.path]
  simp [requestUri, hreference, hne, Cursor.to]

private theorem version_yields : Yields version true (r.http ++ (r.major ++ ch '.' :: r.minor))
    (fun rest => ∀ x ∈ rest.head?, digitChars x = false) fun _ =>
      [.version ⟨decimal r.major, decimal r.minor⟩] := by
  intro pos rest hrest
  have hversion : IsVersion (r.http ++ (r.major ++ ch '.' :: r.minor) ++ rest) r.http r.major
      r.minor rest := ⟨by simp, r.http_text, r.major_run, r.minor_run, hrest⟩
  have hnumbers := versionNumbers_eq_some.mpr ⟨r.http, r.major, r.minor, hversion, rfl⟩
  have hmajor := ((number_right_iff r.major_run.all).mpr r.major_fits).1
  have hminor := ((number_right_iff r.minor_run.all).mpr r.minor_fits).1
  rw [hmajor, hminor] at hnumbers
  rw [version, find, hnumbers]
  simp only [Cursor.to, List.length_append, Nat.add_sub_cancel]

private theorem requestLine_yields : Yields requestLine true (r.line ++ [http11Cr, http11Lf])
    (fun _ => True) fun pos => noteLine r pos := by
  have hcrlf : Yields (lift crlf : Reader) true [http11Cr, http11Lf] (fun _ => True) fun _ => [] :=
    Yields.lift fun rest _ => rfl
  have hmethod := (method_yields r).andThen space_yields fun _ _ => trivial
  have htarget := hmethod.andThen (requestUri_yields r.target) fun _ _ => trivial
  have hspace := htarget.andThen space_yields fun _ _ => Ends.cons (by decide)
  have hversion := hspace.andThen (version_yields r) fun _ _ => trivial
  have hall := (hversion.andThen hcrlf fun rest _ x hx => ?_).attempt
  · simpa [requestLine, requestLineFront, RequestMessage.line, noteLine] using hall
  · cases hx
    decide

/-! ### The whole request -/

private theorem notMem_of_all {P : UInt8 → Bool} {text : List UInt8} {x : UInt8}
    (htext : text.all P = true) (hx : P x = false) : x ∉ text := by
  intro hmem
  have hP := List.all_eq_true.mp htext x hmem
  exact Bool.false_ne_true (hx.symm.trans hP)

private theorem notMem_of_toUpper {text name : List UInt8} (htext : text.map toUpper = name)
    (hname : http11Lf ∉ name) : http11Lf ∉ text := by
  intro hmem
  have hupper := List.mem_map_of_mem (f := toUpper) hmem
  rw [htext] at hupper
  exact hname hupper

private theorem lf_notMem_line : http11Lf ∉ r.line := by
  have hmethod : http11Lf ∉ r.method := by
    refine notMem_of_toUpper r.method_text (method_names r.name ?_)
    exact List.mem_of_getElem? r.method_known
  have hhttp : http11Lf ∉ r.http := notMem_of_toUpper r.http_text (by decide)
  have hsegment : ∀ s : PathSegment, http11Lf ∉ s.text := by
    intro s hmem
    rcases List.mem_append.mp hmem with hmem | hmem
    · exact notMem_of_all s.name_chars (by decide) hmem
    · obtain ⟨param, hparam, hmem⟩ := List.mem_flatMap.mp hmem
      rcases List.mem_cons.mp hmem with heq | hmem
      · exact absurd heq (by decide)
      · exact notMem_of_all (List.all_eq_true.mp s.params_chars param hparam) (by decide) hmem
  have hpath : http11Lf ∉ r.target.path := by
    intro hmem
    obtain ⟨s, -, hmem⟩ := List.mem_flatMap.mp hmem
    rcases List.mem_cons.mp hmem with heq | hmem
    · exact absurd heq (by decide)
    · exact hsegment s hmem
  have hpart : ∀ (part : Option (List UInt8)) (c : UInt8), c ≠ http11Lf →
      (∀ text ∈ part, text.all uricChars = true) →
      http11Lf ∉ whenPresent part fun text => c :: text := by
    intro part c hc hchars hmem
    cases part with
    | none => cases hmem
    | some text =>
        rcases List.mem_cons.mp hmem with heq | hmem
        · exact hc heq.symm
        · exact notMem_of_all (hchars text rfl) (by decide) hmem
  have hquery := hpart r.target.query (ch '?') (by decide) r.target.query_chars
  have hfragment := hpart r.target.fragment (ch '#') (by decide) r.target.fragment_chars
  have hmajor : http11Lf ∉ r.major :=
    notMem_of_all (List.all_eq_true.mpr r.major_run.all) (by decide)
  have hminor : http11Lf ∉ r.minor :=
    notMem_of_all (List.all_eq_true.mpr r.minor_run.all) (by decide)
  have hsp : http11Lf ≠ http11Sp := by decide
  have hdot : http11Lf ≠ ch '.' := by decide
  simp only [RequestMessage.line, RequestTarget.text, List.mem_append, List.mem_cons,
    List.not_mem_nil, or_false, not_or]
  exact ⟨⟨⟨⟨hmethod, hsp⟩, hpath, hquery, hfragment⟩, hsp⟩, hhttp, hmajor, hdot, hminor⟩

private theorem headerLines_lines : ∀ line ∈ r.headerLines, line ≠ [] ∧ http11Lf ∉ line := by
  intro line hline
  obtain ⟨f, -, rfl⟩ := List.mem_map.mp hline
  refine ⟨by simp [RequestHeader.line], fun hmem => ?_⟩
  rcases List.mem_append.mp hmem with hmem | hmem
  · exact f.name_chars.2 hmem
  · rcases List.mem_cons.mp hmem with heq | hmem
    · exact absurd heq (by decide)
    · exact f.value_chars hmem

private theorem message_text (body : List UInt8) :
    r.text ++ body = r.line ++ http11Cr :: http11Lf ::
    (r.headerText ++ http11Cr :: http11Lf :: body) := by
  simp [RequestMessage.text]

theorem parseRequestHeaders_compose (body : List UInt8) :
    parseRequestHeaders (r.text ++ body) = ⟨true, ⟨r.text.length, body⟩,
      noteLine r 0 ++ linesNotes (r.line.length + 2) r.headerLines⟩ := by
  have hne : http11Cr ≠ http11Lf := by decide
  obtain ⟨hhead, hmem⟩ :
      headLines http11Cr http11Lf (r.headerText ++ http11Cr :: http11Lf :: body) =
        r.headerLines ∧
      [] ∈ lines http11Cr http11Lf (r.headerText ++ http11Cr :: http11Lf :: body) :=
    lines_flatMap hne (headerLines_lines r) body
  have hlengths : size r.headerLines = r.headerText.length :=
    size_flatMap r.headerLines http11Cr http11Lf
  have hfirst := takeLine_of_notMem hne (lf_notMem_line r)
    (r.headerText ++ http11Cr :: http11Lf :: body)
  rw [← message_text] at hfirst
  obtain ⟨found, hsecond⟩ : ∃ found, takeLine http11Cr http11Lf
      (r.headerText ++ http11Cr :: http11Lf :: body) = some found := by
    refine Option.ne_none_iff_exists'.mp fun hnone => ?_
    rw [lines_of_none hnone] at hmem
    cases hmem
  have hheaders := headers_eq (r.line.length + 2)
    (r.headerText ++ http11Cr :: http11Lf :: body)
  rw [if_pos hmem, hhead, hlengths] at hheaders
  have hline := requestLine_yields r 0 (r.headerText ++ http11Cr :: http11Lf :: body) trivial
  have hrequest : request ⟨0, r.text ++ body⟩ = ⟨true, ⟨r.text.length, body⟩,
      noteLine r 0 ++ linesNotes (r.line.length + 2) r.headerLines⟩ := by
    have htext : r.text ++ body = r.line ++ [http11Cr, http11Lf] ++
        (r.headerText ++ http11Cr :: http11Lf :: body) := by
      rw [message_text]
      simp
    rw [request, htext, andThen_of_ok (by rw [hline]), hline]
    simp only [List.length_append, List.length_cons, List.length_nil, Nat.zero_add] at hheaders ⊢
    have hlength : r.text.length = r.line.length + 2 + r.headerText.length + 2 := by
      rw [RequestMessage.text, List.length_append, List.length_cons, List.length_cons,
        List.length_append]
      simp only [List.length_cons, List.length_nil]
      omega
    have hrest :
        (r.headerText ++ http11Cr :: http11Lf :: body).drop (r.headerText.length + 2) = body := by
      rw [List.drop_length_add_append]
      rfl
    rw [hheaders, hrest, hlength, Outcome.after]
  rw [parseRequestHeaders_of_lines hfirst hsecond, attempt_of_ok (by rw [hrequest]), hrequest]

end Httpaa.Text

namespace Httpaa

open Recogniser Stringaa Lines

/-! ### What the parser keeps of the request -/

section Kept

variable {h : Heap} {http : Http11Http} {request : Stringaa} (r : RequestMessage)

/-- The request line sets the method, the reference and the version. -/
theorem writeAll_noteLine (u : Uriaa)
    (hu : u = { http.request.requestLine.requestUri with
      uri := request.uriFrom (r.method.length + 1) r.target.text.length true }) :
    http.writeAll request (Text.noteLine r 0) =
      ((http.setMethod r.index).setRequestUri
        (u.writeAll (Text.noteTarget r.target 0))).setHttpVersion
          ⟨decimal r.major, decimal r.minor⟩ := by
  have hparts := @writeAll_parts request (http.setMethod r.index) u (r.method.length + 1)
    (by rw [hu]; rfl) (Text.noteTarget r.target 0)
  rw [← hparts, hu, Text.noteLine, Nat.zero_add, writeAll_append]
  rfl

private theorem writeAll_lineNotes (pos : Nat) (line : List UInt8) :
    (http.writeAll request (Text.lineNotes pos line)).request.requestLine =
      http.request.requestLine := by
  rw [Text.lineNotes]
  cases Text.findName http11HeaderArray 0 line with
  | none => rfl
  | some found => rfl

theorem writeAll_linesNotes (pos : Nat) (ls : List (List UInt8)) :
    (http.writeAll request (Text.linesNotes pos ls)).request.requestLine =
      http.request.requestLine := by
  induction ls generalizing http pos with
  | nil => rfl
  | cons line ls ih =>
      rw [Text.linesNotes, writeAll_append]
      exact (ih (pos + line.length + 2)).trans (writeAll_lineNotes pos line)

private theorem namedBy_line {name : List UInt8} (hname : ch ':' ∉ name) (f : RequestHeader) :
    NamedBy name f.line ↔ f.name.map toLower = name := by
  have hline : f.line.map toLower = f.name.map toLower ++ ch ':' :: f.value.map toLower := by
    have hcolon : toLower (ch ':') = ch ':' := by decide
    simp [RequestHeader.line, hcolon]
  have hcolon : ch ':' ∉ f.name.map toLower := by
    intro hmem
    obtain ⟨x, hx, hlower⟩ := List.mem_map.mp hmem
    exact f.name_chars.1 ((toLower_colon x).mp hlower ▸ hx)
  -- the name in front of the first colon
  have hfront {text : List UInt8} (htext : ch ':' ∉ text) (rest : List UInt8) :
      (text ++ ch ':' :: rest).takeWhile (fun x => x ≠ ch ':') = text := by
    rw [List.takeWhile_append_of_pos fun x hx => ?_, List.takeWhile_cons_of_neg (by simp),
      List.append_nil]
    simpa using fun h : x = ch ':' => htext (h ▸ hx)
  rw [NamedBy, hline]
  constructor
  · rintro ⟨rest, hrest⟩
    rw [List.append_assoc] at hrest
    have hnames := congrArg (List.takeWhile fun x => x ≠ ch ':') hrest
    rw [hfront hcolon] at hnames
    exact hnames.symm.trans (hfront hname rest)
  · intro heq
    rw [heq]
    exact ⟨f.value.map toLower, by simp⟩

private theorem lastNamed_headerLines {name : List UInt8} (hname : ch ':' ∉ name) :
    (lastNamed name r.headerLines).map (List.drop name.length) =
      (r.value name).map (List.cons (ch ':')) := by
  have hlines : r.headerLines.filter (fun line => NamedBy name line) =
      (r.headers.filter fun f => f.name.map toLower = name).map RequestHeader.line := by
    rw [RequestMessage.headerLines, List.filter_map]
    congr 2
    funext f
    simp [namedBy_line hname f]
  rw [lastNamed, hlines, RequestMessage.value, List.getLast?_map, Option.map_map, Option.map_map]
  cases hlast : (r.headers.filter fun f => f.name.map toLower = name).getLast? with
  | none => rfl
  | some f =>
      have hf := List.mem_filter.mp (List.mem_of_getLast? hlast)
      have hlength : name.length = f.name.length := by
        rw [← of_decide_eq_true hf.2, List.length_map]
      simp [RequestHeader.line, hlength]

private theorem uriFrom_shows_text {pos : Nat} {text back : List UInt8}
    (hs : request.Shows h ⟨pos, text ++ back⟩) :
    (request.uriFrom pos text.length true).Shows h ⟨0, text⟩ := by
  refine ⟨by simp [Stringaa.uriFrom], fun i hi => ?_⟩
  have hchar := hs.char i (by simpa using Nat.lt_add_right _ hi)
  rw [List.getElem?_append_left hi] at hchar
  rw [← hchar]
  cases hbuf : request.buf <;> simp [Stringaa.uriFrom, Stringaa.charAt, hbuf]

private theorem text_of_shows {s : Stringaa} {text : List UInt8} (hs : s.Shows h ⟨0, text⟩) :
    s.text h = some text := by
  have hload := loadChars_eq hs (List.suffix_refl text) (Nat.le_refl _) s.readPos
  have hlength := hs.length
  simp only [Nat.zero_add] at hlength
  have hseek : s.seek s.readPos = s := rfl
  rw [List.take_length, hlength, hseek] at hload
  simpa [Stringaa.text, Cursor.to] using hload

private theorem component_target (t : RequestTarget) (u : Uriaa) (hu : u.Shows h ⟨0, t.text⟩)
    (hzero : ∀ p, u.part p = {}) (p : UriPart) :
    (u.writeAll (Text.noteTarget t 0)).component h p = t.component p := by
  have hfilter : (Text.noteTarget t 0).filter (fun w => decide (w.part = p)) =
      match p with
      | .absPath => [.set .absPath 0 t.path.length]
      | .query => Text.noteOptional .query t.query (t.path.length + 1)
      | .fragment => Text.noteOptional .fragment t.fragment
          ((t.path ++ HierarchicalUri.whenPresent t.query fun text => ch '?' :: text).length + 1)
      | _ => [] := by
    cases p <;>
      simp only [Text.noteTarget, List.filter_append, List.filter_cons, filter_noteOptional,
        UriWrite.part_set, reduceCtorEq, decide_false, decide_true, Bool.false_eq_true, if_true,
        if_false, List.nil_append, List.append_nil, List.cons_append, Nat.zero_add]
  -- a component that is left out, and one behind `front`
  have hunset (hnone : (Text.noteTarget t 0).filter (fun w => decide (w.part = p)) = []) :
      (u.writeAll (Text.noteTarget t 0)).component h p = none :=
    Uriaa.component_unset (n := 0) (hzero p) hnone
  have hset (front : List UInt8) {text : List UInt8} (htext : front ++ text <+: t.text)
      (hsome : (Text.noteTarget t 0).filter (fun w => decide (w.part = p)) =
        [.set p (0 + front.length) text.length]) :
      (u.writeAll (Text.noteTarget t 0)).component h p = some text :=
    Uriaa.component_set front hu (hzero p) (n := 0) htext hsome
  cases p with
  | absPath => exact hset [] (by simp [RequestTarget.text]) hfilter
  | query =>
      rw [RequestTarget.component]
      cases hquery : t.query with
      | none =>
          rw [hquery] at hfilter
          exact hunset hfilter
      | some text =>
          rw [hquery] at hfilter
          refine hset (t.path ++ [ch '?']) ?_ ?_
          · simp [RequestTarget.text, hquery, HierarchicalUri.whenPresent]
          · simpa [Text.noteOptional] using hfilter
  | fragment =>
      rw [RequestTarget.component]
      cases hfragment : t.fragment with
      | none =>
          rw [hfragment] at hfilter
          exact hunset hfilter
      | some text =>
          rw [hfragment] at hfilter
          refine hset (t.path ++ (HierarchicalUri.whenPresent t.query fun text => ch '?' :: text) ++
            [ch '#']) ?_ ?_
          · simp [RequestTarget.text, hfragment, HierarchicalUri.whenPresent]
          · simpa [Text.noteOptional, Nat.add_assoc] using hfilter
  | _ => exact hunset hfilter

end Kept

/-- A composed request is read up to its end, whatever stands behind it, and into the parts it was
put together from: the method, the target with its components, the numbers of the version, and in
each slot what stands from the colon on in the last header of its name. -/
theorem httpaaParseRequestHeaders_compose (r : RequestMessage) (h : Heap) (request : Stringaa)
    (body : List UInt8) (hs : request.Shows h ⟨0, r.text ++ body⟩)
    (hsize : request.writePos < 2 ^ 31) :
    ∃ http, httpaaParseRequestHeaders h {} (request.seek 0) =
        some (true, http, request.seek r.text.length) ∧
      http.request.requestLine.method = r.index ∧
      http.request.requestLine.httpVersion = ⟨decimal r.major, decimal r.minor⟩ ∧
      http.request.requestLine.requestUri.uri.text h = some r.target.text ∧
      (∀ p, http.request.requestLine.requestUri.component h p = r.target.component p) ∧
      ∀ i name, http11HeaderArray[i]? = some name →
        (http.request.header i).isInit = (r.value (literal name)).isSome ∧
        ∀ value ∈ r.value (literal name),
          (http.request.header i).text h = some (ch ':' :: value) := by
  have hparse := parseRequestHeaders_eq {} hs hsize
  rw [Text.parseRequestHeaders_compose] at hparse
  refine ⟨_, hparse, ?_⟩
  have hfront : r.text ++ body = r.method ++ [http11Sp] ++ (r.target.text ++ ([http11Sp] ++
      (r.http ++ (r.major ++ ch '.' :: r.minor)) ++ http11Cr :: http11Lf ::
        (r.headerText ++ http11Cr :: http11Lf :: body))) := by
    simp [Text.message_text, RequestMessage.line]
  have htarget : (request.uriFrom (r.method.length + 1) r.target.text.length true).Shows h
      ⟨0, r.target.text⟩ := by
    rw [hfront] at hs
    exact uriFrom_shows_text (hs.reaches ⟨r.method ++ [http11Sp], rfl, by simp⟩)
  have hlines : request.Shows h ⟨r.line.length + 2,
      r.headerText ++ http11Cr :: http11Lf :: body⟩ := by
    rw [Text.message_text r body] at hs
    exact hs.reaches ⟨r.line ++ [http11Cr, http11Lf], by simp, by simp⟩
  have hne : http11Cr ≠ http11Lf := by decide
  have hhead : headLines http11Cr http11Lf (r.headerText ++ http11Cr :: http11Lf :: body) =
      r.headerLines := (lines_flatMap hne (Text.headerLines_lines r) body).1
  -- the reference, and what the request line leaves
  obtain ⟨u, hu⟩ : ∃ u : Uriaa,
      u = { uri := request.uriFrom (r.method.length + 1) r.target.text.length true } := ⟨_, rfl⟩
  have hnoted := @writeAll_noteLine {} request r u hu
  rw [writeAll_append, writeAll_linesNotes, hnoted]
  refine ⟨rfl, rfl, ?_, ?_, ?_⟩
  · have huri : (u.writeAll (Text.noteTarget r.target 0)).uri = u.uri := Uriaa.writeAll_uri u _
    exact (congrArg (Stringaa.text h) (huri.trans (congrArg Uriaa.uri hu))).trans
      (text_of_shows htarget)
  · intro p
    refine component_target r.target u ?_ (fun _ => by rw [hu]) p
    rw [hu]
    exact htarget
  · intro i name hi
    have hlast := lastNamed_headerLines r (Text.header_names name (List.mem_of_getElem? hi)).1
    have hslot := header_linesNotes hi (((({} : Http11Http).setMethod r.index).setRequestUri
      (u.writeAll (Text.noteTarget r.target 0))).setHttpVersion ⟨decimal r.major, decimal r.minor⟩)
      (r.line.length + 2) _ hlines
    rw [hhead] at hslot
    cases hnamed : lastNamed (literal name) r.headerLines with
    | none =>
        rw [hnamed] at hslot hlast
        rw [Option.map_none, eq_comm, Option.map_eq_none_iff] at hlast
        rw [hlast]
        refine ⟨congrArg Stringaa.isInit hslot, ?_⟩
        intro value hvalue
        cases hvalue
    | some line =>
        rw [hnamed] at hslot hlast
        cases hvalue : r.value (literal name) with
        | none =>
            rw [hvalue] at hlast
            cases hlast
        | some value =>
            rw [hvalue, Option.map_some, Option.map_some, Option.some_inj] at hlast
            refine ⟨hslot.1, ?_⟩
            rintro value' ⟨⟩
            rw [← hlast]
            exact hslot.2

private theorem sampleSegment_name : [ch 'p'].all pcharChars = true := by decide

private theorem sampleSegment_params :
    ([[ch 'a']].all fun param => param.all pcharChars) = true := by
  decide

private theorem sampleTarget_first :
    (PathSegment.mk [ch 'p'] [[ch 'a']] sampleSegment_name sampleSegment_params).text = [] →
      ([] : List PathSegment) = [] :=
  fun _ => rfl

private theorem sampleQuery_chars : ∀ text ∈ some [ch 'x'], text.all uricChars = true := by
  intro text htext
  cases htext
  decide

private theorem sampleFragment_chars : ∀ text ∈ some [ch 'y'], text.all uricChars = true := by
  intro text htext
  cases htext
  decide

private theorem sampleNumber_run : IsRun digitChars [ch '1'] :=
  ⟨List.cons_ne_nil _ _, List.forall_mem_singleton.mpr (by decide)⟩

private theorem sampleNumber_fits : Fits [ch '1'] := .inl (by decide)

private theorem sampleMethod_known : http11MethodArray[1]? = some "GET" := rfl

private theorem sampleMethod_read : "GET" ≠ "PUT" := by decide

private theorem sampleMethod_text : (literal "get").map toUpper = literal "GET" := by decide

private theorem sampleHttp_text : (literal "HTTP/").map toUpper = literal "HTTP/" := by decide

private theorem sampleHost_name : ch ':' ∉ literal "Host" ∧ http11Lf ∉ literal "Host" := by decide

private theorem sampleHost_value : http11Lf ∉ literal " a" := by decide

private theorem sampleHost_name' : ch ':' ∉ literal "host" ∧ http11Lf ∉ literal "host" := by decide

private theorem sampleHost_value' : http11Lf ∉ literal " b" := by decide

/-- `get /p;a?x#y HTTP/1.1`, with two headers of one name. -/
def sampleRequest : RequestMessage where
  index := 1
  name := "GET"
  method := literal "get"
  target :=
    { first := ⟨[ch 'p'], [[ch 'a']], sampleSegment_name, sampleSegment_params⟩
      more := []
      query := some [ch 'x']
      fragment := some [ch 'y']
      first_text := sampleTarget_first
      query_chars := sampleQuery_chars
      fragment_chars := sampleFragment_chars }
  http := literal "HTTP/"
  major := [ch '1']
  minor := [ch '1']
  headers := [⟨literal "Host", literal " a", sampleHost_name, sampleHost_value⟩,
    ⟨literal "host", literal " b", sampleHost_name', sampleHost_value'⟩]
  method_known := sampleMethod_known
  method_read := sampleMethod_read
  method_text := sampleMethod_text
  http_text := sampleHttp_text
  major_run := sampleNumber_run
  minor_run := sampleNumber_run
  major_fits := sampleNumber_fits
  minor_fits := sampleNumber_fits

theorem httpaaParseRequestHeaders_compose_sampleRequest :
    ∃ http, httpaaParseRequestHeaders (.ofText (sampleRequest.text ++ literal "body")) {}
        ((Stringaa.ofText 0 (sampleRequest.text ++ literal "body").length).seek 0) =
        some (true, http, (Stringaa.ofText 0 (sampleRequest.text ++ literal "body").length).seek
          sampleRequest.text.length) ∧
      http.request.requestLine.method = 1 := by
  obtain ⟨http, hparse, hmethod, -⟩ := httpaaParseRequestHeaders_compose sampleRequest _ _
    (literal "body") (Uriaa.ofText_shows (sampleRequest.text ++ literal "body"))
    (by decide +kernel)
  exact ⟨http, hparse, hmethod⟩

end Httpaa
