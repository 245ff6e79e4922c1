import Httpaa.Foundation.Yields
import Httpaa.Uri.Refinement

/-!
# Parsing a composed reference

The hierarchical references without escapes: what they are made of, the text they are composed to,
and the components the parser finds in this text. The parser has no look-ahead, so at every piece
the point is that its loop stops in front of the delimiter that comes next.
-/

namespace Httpaa

/-- Nothing follows, or one of these characters. -/
def Ends (delimiters rest : List UInt8) : Prop := ∀ c ∈ rest.head?, c ∈ delimiters

/-- Nothing follows that a loop over the class would go on with. -/
def Halts (P : UInt8 → Bool) (rest : List UInt8) : Prop :=
  ∀ c ∈ rest.head?, P c = false ∧ c ≠ ch '%'

theorem Ends.halts {P : UInt8 → Bool} {delimiters rest : List UInt8} (hrest : Ends delimiters rest)
    (h : (delimiters.all fun c => !P c && c != ch '%') = true) : Halts P rest := by
  intro c hc
  simpa using List.all_eq_true.mp h c (hrest c hc)

theorem Ends.mono {delimiters delimiters' rest : List UInt8} (hrest : Ends delimiters rest)
    (h : (delimiters.all fun c => delimiters'.contains c) = true) : Ends delimiters' rest := by
  intro c hc
  simpa using List.all_eq_true.mp h c (hrest c hc)

theorem Ends.cons {delimiters rest : List UInt8} {c : UInt8} (h : delimiters.contains c = true) :
    Ends delimiters (c :: rest) := by
  intro x hx
  cases hx
  simpa using h

/-! ### Parts of a reference -/

def isScheme : List UInt8 → Bool
  | [] => false
  | x :: rest => alphaChars x && rest.all schemeChars

/-- A character of the first class, then letters, digits and `-`, not `-` at the end. -/
def isLabel (first : UInt8 → Bool) : List UInt8 → Bool
  | [] => false
  | x :: rest => first x && rest.all labelChars && (x :: rest).getLast? != some (ch '-')

/-- A segment of a path: a name with parameters. -/
structure PathSegment where
  name : List UInt8
  params : List (List UInt8)
  name_chars : name.all pcharChars = true
  params_chars : (params.all fun param => param.all pcharChars) = true

def PathSegment.text (s : PathSegment) : List UInt8 :=
  s.name ++ s.params.flatMap fun param => ch ';' :: param

/-- The parts of a hierarchical reference without escapes. -/
structure HierarchicalUri where
  scheme : List UInt8
  userinfo : Option (List UInt8)
  domainlabels : List (List UInt8)
  toplabel : List UInt8
  port : Option (List UInt8)
  path : List PathSegment
  query : Option (List UInt8)
  fragment : Option (List UInt8)
  scheme_isScheme : isScheme scheme = true
  userinfo_chars : ∀ info ∈ userinfo, info ≠ [] ∧ info.all userinfoChars = true
  domainlabels_isLabel : (domainlabels.all (isLabel alphanumChars)) = true
  toplabel_isLabel : isLabel alphaChars toplabel = true
  port_digits : ∀ digits ∈ port, digits ≠ [] ∧ digits.all digitChars = true
  query_chars : ∀ text ∈ query, text.all uricChars = true
  fragment_chars : ∀ text ∈ fragment, text.all uricChars = true

namespace HierarchicalUri

/-- What an optional part adds to the text. -/
def whenPresent (part : Option (List UInt8)) (compose : List UInt8 → List UInt8) : List UInt8 :=
  part.elim [] compose

variable (r : HierarchicalUri)

def host : List UInt8 := (r.domainlabels.flatMap fun label => label ++ [ch '.']) ++ r.toplabel

def hostport : List UInt8 := r.host ++ whenPresent r.port fun digits => ch ':' :: digits

def authority : List UInt8 := whenPresent r.userinfo (fun info => info ++ [ch '@']) ++ r.hostport

def pathText : List UInt8 := r.path.flatMap fun s => ch '/' :: s.text

def netPath : List UInt8 := ch '/' :: ch '/' :: r.authority ++ r.pathText

/-- `scheme '://' [userinfo '@'] host [':' port] path ['?' query] ['#' fragment]`. -/
def text : List UInt8 :=
  r.scheme ++ ch ':' :: (r.netPath ++ whenPresent r.query (fun text => ch '?' :: text)) ++
    whenPresent r.fragment fun text => ch '#' :: text

def component : UriPart → Option (List UInt8)
  | .scheme => some r.scheme
  | .authority => some r.authority
  | .userinfo => r.userinfo
  | .host => some r.host
  | .port => r.port
  | .netPath => some r.netPath
  | .absPath => if r.path = [] then none else some r.pathText
  | .query => r.query
  | .fragment => r.fragment
  | .path | .relPath | .opaquePart => none

end HierarchicalUri

/-! ### Loops stop in front of what ends them -/

namespace Text

theorem chars_halts {P : UInt8 → Bool} {rest : List UInt8} (hrest : Halts P rest) :
    chars P rest = rest := by
  have hclass : inClass P rest = (false, rest) := by
    cases rest with
    | nil => rfl
    | cons c rest =>
        obtain ⟨hc, hpercent⟩ := hrest c rfl
        simp [inClass, hc, escaped, hpercent]
  rw [chars, hclass]
  rfl

private theorem chars_append {P : UInt8 → Bool} {text rest : List UInt8} (htext : text.all P = true)
    (hrest : Halts P rest) : chars P (text ++ rest) = rest := by
  induction text with
  | nil => exact chars_halts hrest
  | cons c text ih =>
      rw [List.all_cons, Bool.and_eq_true] at htext
      have hclass : inClass P (c :: text ++ rest) = (true, c :: text ++ rest) := by
        rw [List.cons_append, inClass, if_pos htext.1]
      rw [chars, hclass]
      exact ih htext.2

theorem dropWhile_append {P : UInt8 → Bool} {text rest : List UInt8} (htext : text.all P = true)
    (hrest : Halts P rest) : (text ++ rest).dropWhile P = rest := by
  induction text with
  | nil =>
      cases rest with
      | nil => rfl
      | cons c rest => rw [List.nil_append, List.dropWhile_cons, (hrest c rfl).1,
          if_neg (by decide)]
  | cons c text ih =>
      rw [List.all_cons, Bool.and_eq_true] at htext
      rw [List.cons_append, List.dropWhile_cons, if_pos htext.1, ih htext.2]

@[simp] theorem isChar_cons (c : UInt8) (rest : List UInt8) : isChar c (c :: rest) = (true, rest) :=
  if_pos rfl

private theorem isChar_ends {c : UInt8} {delimiters rest : List UInt8}
    (hrest : Ends delimiters rest) (h : delimiters.contains c = false) :
    isChar c rest = (false, rest) := by
  cases rest with
  | nil => rfl
  | cons x rest =>
      have hne : c ≠ x := by
        rintro rfl
        have hmem := hrest c rfl
        simp [hmem] at h
      rw [isChar, if_neg hne]

private theorem labelTail_append {prev : UInt8} {tail rest : List UInt8}
    (htail : tail.all labelChars = true) (hlast : (prev :: tail).getLast? ≠ some (ch '-'))
    (hrest : Halts labelChars rest) :
    labelTail prev (tail ++ rest) = (true, rest) := by
  induction tail generalizing prev with
  | nil =>
      cases rest with
      | nil => rfl
      | cons c rest =>
          rw [List.nil_append, labelTail, (hrest c rfl).1, if_neg (by decide)]
          simpa using hlast
  | cons c tail ih =>
      rw [List.all_cons, Bool.and_eq_true] at htail
      rw [List.cons_append, labelTail, if_pos htail.1]
      exact ih htail.2 (by simpa using hlast)

theorem label_append {first : UInt8 → Bool} {text rest : List UInt8}
    (htext : isLabel first text = true) (hrest : Halts labelChars rest) :
    label first (text ++ rest) = (true, rest) := by
  cases text with
  | nil => cases htext
  | cons x text =>
      simp only [isLabel, Bool.and_eq_true, bne_iff_ne] at htext
      have htail := labelTail_append htext.1.2 htext.2 hrest
      rw [List.cons_append, label, htail, htext.1.1]
      rfl

private theorem lastLabel_top {top rest start : List UInt8} (htop : isLabel alphaChars top = true)
    (hrest : Ends [ch ':', ch '/', ch '?', ch '#', ch ' '] rest) :
    lastLabel (top ++ rest) start = top ++ rest := by
  have hlabel : isLabel alphanumChars top = true := by
    cases top with
    | nil => cases htop
    | cons x top =>
        simp only [isLabel, Bool.and_eq_true] at htop ⊢
        exact ⟨⟨by simp [alphanumChars, htop.1.1], htop.1.2⟩, htop.2⟩
  have hparse := label_append hlabel (hrest.halts (by decide))
  rw [lastLabel, hparse, if_pos rfl]
  simp [isChar_ends hrest (c := ch '.') (by decide)]

private theorem lastLabel_append {labels : List (List UInt8)} {top rest start : List UInt8}
    (hlabels : (labels.all (isLabel alphanumChars)) = true) (htop : isLabel alphaChars top = true)
    (hrest : Ends [ch ':', ch '/', ch '?', ch '#', ch ' '] rest) :
    lastLabel ((labels.flatMap fun label => label ++ [ch '.']) ++ top ++ rest) start =
      top ++ rest := by
  induction labels generalizing start with
  | nil => exact lastLabel_top htop hrest
  | cons l labels ih =>
      rw [List.all_cons, Bool.and_eq_true] at hlabels
      have htext : ((l :: labels).flatMap fun label => label ++ [ch '.']) ++ top ++ rest =
          l ++ ch '.' :: ((labels.flatMap fun label => label ++ [ch '.']) ++ top ++ rest) := by
        simp
      have hdot : Halts labelChars
          (ch '.' :: ((labels.flatMap fun label => label ++ [ch '.']) ++ top ++ rest)) := by
        intro c hc
        cases hc
        decide
      rw [htext, lastLabel, label_append hlabels.1 hdot, if_pos rfl]
      simp only [isChar_cons, dif_pos]
      exact ih hlabels.2

private theorem hostname_append (r : HierarchicalUri) {rest : List UInt8}
    (hrest : Ends [ch ':', ch '/', ch '?', ch '#', ch ' '] rest) :
    hostname (r.host ++ rest) = (true, rest) := by
  have hlast : lastLabel (r.host ++ rest) (r.host ++ rest) = r.toplabel ++ rest :=
    lastLabel_append r.domainlabels_isLabel r.toplabel_isLabel hrest
  have hparse := label_append r.toplabel_isLabel (hrest.halts (by decide))
  rw [hostname, hlast, hparse]
  simp [isChar_ends hrest (c := ch '.') (by decide)]

private theorem params_append {ps : List (List UInt8)} {rest : List UInt8}
    (hps : (ps.all fun param => param.all pcharChars) = true)
    (hrest : Ends [ch '/', ch '?', ch '#', ch ' '] rest) :
    params ((ps.flatMap fun param => ch ';' :: param) ++ rest) = rest := by
  induction ps with
  | nil =>
      rw [params]
      simp [isChar_ends hrest (c := ch ';') (by decide)]
  | cons param ps ih =>
      rw [List.all_cons, Bool.and_eq_true] at hps
      have htext : ((param :: ps).flatMap fun param => ch ';' :: param) ++ rest =
          ch ';' :: (param ++ ((ps.flatMap fun param => ch ';' :: param) ++ rest)) := by simp
      have hhalts : Halts pcharChars ((ps.flatMap fun param => ch ';' :: param) ++ rest) := by
        cases ps with
        | nil => exact hrest.halts (by decide)
        | cons param' ps =>
            intro c hc
            cases hc
            decide
      rw [htext, params]
      simp only [isChar_cons, dif_pos, chars_append hps.1 hhalts]
      exact ih hps.2

private theorem segment_append (s : PathSegment) {rest : List UInt8}
    (hrest : Ends [ch '/', ch '?', ch '#', ch ' '] rest) : segment (s.text ++ rest) = rest := by
  have hhalts : Halts pcharChars ((s.params.flatMap fun param => ch ';' :: param) ++ rest) := by
    cases s.params with
    | nil => exact hrest.halts (by decide)
    | cons param params =>
        intro c hc
        cases hc
        decide
  rw [segment, PathSegment.text, List.append_assoc, chars_append s.name_chars hhalts,
    params_append s.params_chars hrest]

private theorem segments_append {path : List PathSegment} {rest : List UInt8}
    (hrest : Ends [ch '?', ch '#', ch ' '] rest) :
    segments ((path.flatMap fun s => ch '/' :: s.text) ++ rest) = rest := by
  induction path with
  | nil =>
      rw [segments]
      simp [isChar_ends hrest (c := ch '/') (by decide)]
  | cons s path ih =>
      have htext : ((s :: path).flatMap fun s => ch '/' :: s.text) ++ rest =
          ch '/' :: (s.text ++ ((path.flatMap fun s => ch '/' :: s.text) ++ rest)) := by simp
      have hends : Ends [ch '/', ch '?', ch '#', ch ' ']
          ((path.flatMap fun s => ch '/' :: s.text) ++ rest) := by
        cases path with
        | nil => exact hrest.mono (by decide)
        | cons s' path => exact Ends.cons (by decide)
      rw [htext, segments]
      simp only [isChar_cons, dif_pos, segment_append s hends]
      exact ih

private theorem labelChars_userinfoChars {c : UInt8} (hc : labelChars c = true) :
    userinfoChars c = true := by
  simp only [labelChars, Bool.or_eq_true] at hc
  rcases hc with hc | hc
  · simp [userinfoChars, unreservedChars, hc]
  · simp [userinfoChars, unreservedChars, markChars, hc]

private theorem isLabel_userinfoChars {first : UInt8 → Bool} {text : List UInt8}
    (hfirst : ∀ c, first c = true → labelChars c = true) (htext : isLabel first text = true) :
    text.all userinfoChars = true := by
  cases text with
  | nil => rfl
  | cons x text =>
      simp only [isLabel, Bool.and_eq_true] at htext
      rw [List.all_cons, Bool.and_eq_true]
      refine ⟨labelChars_userinfoChars (hfirst x htext.1.1), ?_⟩
      exact List.all_eq_true.mpr fun c hc =>
        labelChars_userinfoChars (List.all_eq_true.mp htext.1.2 c hc)

private theorem hostport_userinfoChars (r : HierarchicalUri) :
    r.hostport.all userinfoChars = true := by
  have hfirst : ∀ c, alphanumChars c = true → labelChars c = true := fun c hc => by
    simp [labelChars, hc]
  have halpha : ∀ c, alphaChars c = true → labelChars c = true := fun c hc => by
    simp [labelChars, alphanumChars, hc]
  have hlabels : ((r.domainlabels.flatMap fun label => label ++ [ch '.']).all userinfoChars) =
      true := by
    rw [List.all_flatMap]
    refine List.all_eq_true.mpr fun label hlabel => ?_
    rw [List.all_append, isLabel_userinfoChars hfirst
      (List.all_eq_true.mp r.domainlabels_isLabel label hlabel)]
    decide
  have hport : (HierarchicalUri.whenPresent r.port fun digits => ch ':' :: digits).all
      userinfoChars = true := by
    cases hport : r.port with
    | none => rfl
    | some digits =>
        obtain ⟨-, hdigits⟩ := r.port_digits digits hport
        rw [HierarchicalUri.whenPresent, Option.elim_some, List.all_cons, Bool.and_eq_true]
        refine ⟨by decide, List.all_eq_true.mpr fun c hc => labelChars_userinfoChars ?_⟩
        simp [labelChars, alphanumChars, List.all_eq_true.mp hdigits c hc]
  rw [HierarchicalUri.hostport, HierarchicalUri.host, List.all_append, List.all_append, hlabels,
    isLabel_userinfoChars halpha r.toplabel_isLabel, hport]
  rfl

/-! ### The productions on the composed text -/

open Recogniser HierarchicalUri

section Productions

variable (r : HierarchicalUri)

/-- The note for an optional part behind a delimiter. -/
def noteOptional (p : UriPart) (part : Option (List UInt8)) (pos : Nat) : List UriWrite :=
  part.elim [] fun text => [.set p pos text.length]

private theorem char_yields (c : Char) :
    Yields (char c) true [ch c] (fun _ => True) fun _ => [] :=
  Yields.lift fun rest _ => isChar_cons (ch c) rest

private theorem char_refuses (c : Char) (delimiters : List UInt8)
    (h : delimiters.contains (ch c) = false) :
    Yields (char c) false [] (Ends delimiters) fun _ => [] :=
  Yields.lift fun _ hrest => isChar_ends hrest h

private theorem scheme_yields : Yields scheme true r.scheme (Ends [ch ':'])
    fun pos => [.set .scheme pos r.scheme.length] := by
  have hrun : Yields (lift schemeRun : Production) true r.scheme (Ends [ch ':']) fun _ => [] := by
    refine Yields.lift fun rest hrest => ?_
    have hscheme := r.scheme_isScheme
    cases htext : r.scheme with
    | nil => simp [htext, isScheme] at hscheme
    | cons x text =>
        simp only [htext, isScheme, Bool.and_eq_true] at hscheme
        rw [List.cons_append, schemeRun, if_pos hscheme.1,
          dropWhile_append hscheme.2 (hrest.halts (by decide))]
  have hnoting := hrun.noting (UriWrite.slice .scheme)
  simpa [UriWrite.slice, scheme] using hnoting

private theorem host_yields : Yields host true r.host
    (Ends [ch ':', ch '/', ch '?', ch '#', ch ' '])
    fun pos => [.set .host pos r.host.length] := by
  have hhost : Yields (lift hostname : Production) true r.host
      (Ends [ch ':', ch '/', ch '?', ch '#', ch ' ']) fun _ => [] :=
    Yields.lift fun rest hrest => hostname_append r hrest
  have hnoting := (hhost.orElse (q := lift ipv4address)).noting (UriWrite.slice .host)
  simpa [UriWrite.slice, host] using hnoting.attempt

private theorem port_yields {digits : List UInt8} (hne : digits ≠ [])
    (hdigits : digits.all digitChars = true) :
    Yields port true digits (Ends [ch '/', ch '?', ch '#', ch ' '])
      fun pos => [.set .port pos digits.length] := by
  have hrun : Yields (lift fun s => (digitChars (s.headD 0), s.dropWhile digitChars) : Production)
      true digits (Ends [ch '/', ch '?', ch '#', ch ' ']) fun _ => [] := by
    refine Yields.lift fun rest hrest => ?_
    obtain ⟨x, text, rfl⟩ := List.exists_cons_of_ne_nil hne
    have hx := hdigits
    rw [List.all_cons, Bool.and_eq_true] at hx
    rw [dropWhile_append hdigits (hrest.halts (by decide)), List.cons_append, List.headD_cons, hx.1]
  have hnoting := hrun.noting (UriWrite.slice .port)
  simpa [UriWrite.slice, port] using hnoting.attempt

private theorem hostport_yields : Yields hostport true r.hostport
    (Ends [ch '/', ch '?', ch '#', ch ' '])
    fun pos => .set .host pos r.host.length ::
      noteOptional .port r.port (pos + r.host.length + 1) := by
  have hhost := host_yields r
  rw [HierarchicalUri.hostport]
  cases hport : r.port with
  | none =>
      have hcolon := (char_refuses ':' [ch '/', ch '?', ch '#', ch ' ']
        (by decide)).andThen_fail (q := port)
      have hall := (hhost.andTry hcolon fun rest hrest => hrest.mono (by decide)).attempt
      simpa [whenPresent, noteOptional, hostport] using hall
  | some digits =>
      obtain ⟨hne, hdigits⟩ := r.port_digits digits hport
      have hcolon := (char_yields ':').andThen (port_yields hne hdigits) fun _ _ => trivial
      have hall := (hhost.andTry hcolon fun rest _ => Ends.cons (by decide)).attempt
      simpa [whenPresent, noteOptional, hostport] using hall

private theorem userinfoAt_yields {info : List UInt8} (hinfo : info.all userinfoChars = true) :
    Yields userinfoAt true (info ++ [ch '@']) (fun _ => True)
      fun pos => [.set .userinfo pos info.length] := by
  have hrun : Yields (lift fun s => (true, chars userinfoChars s) : Production) true info
      (Ends [ch '@']) fun _ => [] :=
    Yields.lift fun rest hrest => by rw [chars_append hinfo (hrest.halts (by decide))]
  have hboth := hrun.andThen (char_yields '@') fun rest _ => Ends.cons (by decide)
  have hnoting := hboth.noting (fun pos pos' => UriWrite.set .userinfo pos (pos' - pos - 1))
  simpa [userinfoAt] using hnoting.attempt

private theorem userinfoAt_refuses : Yields userinfoAt false []
    (fun rest => ∃ rest', rest = r.hostport ++ rest' ∧ Ends [ch '/', ch '?', ch '#', ch ' '] rest')
    fun _ => [] := by
  have hrun : Yields (lift fun s => (true, chars userinfoChars s) : Production) true r.hostport
      (Ends [ch '/', ch '?', ch '#', ch ' ']) fun _ => [] :=
    Yields.lift fun rest hrest => by
      rw [chars_append (hostport_userinfoChars r) (hrest.halts (by decide))]
  have hboth := hrun.andThen (char_refuses '@' [ch '/', ch '?', ch '#', ch ' ']
    (by decide)) fun rest hrest => hrest
  have hall := (hboth.noting_fail
    (fun pos pos' => UriWrite.set .userinfo pos (pos' - pos - 1))).attempt_fail
  simpa [userinfoAt] using hall

private theorem server_yields : Yields server true r.authority
    (Ends [ch '/', ch '?', ch '#', ch ' '])
    fun pos => noteOptional .userinfo r.userinfo pos ++
      (fun pos => .set .host pos r.host.length ::
        noteOptional .port r.port (pos + r.host.length + 1))
        (pos + (whenPresent r.userinfo fun info => info ++ [ch '@']).length) := by
  have hhostport := hostport_yields r
  rw [HierarchicalUri.authority]
  cases hinfo : r.userinfo with
  | none =>
      have hboth := (userinfoAt_refuses r).both (f := fun _ isHostport => isHostport) hhostport
        fun rest hrest => ⟨rest, rfl, hrest⟩
      have hall := (hboth.notingFailure (UriWrite.unset .userinfo)).attempt.always
      simpa [whenPresent, noteOptional, server] using hall
  | some info =>
      obtain ⟨-, hchars⟩ := r.userinfo_chars info hinfo
      have hboth := (userinfoAt_yields hchars).both (f := fun _ isHostport => isHostport) hhostport
        fun _ _ => trivial
      have hall := (hboth.notingFailure (UriWrite.unset .userinfo)).attempt.always
      simpa [whenPresent, noteOptional, server] using hall

def noteAuthority (pos : Nat) : List UriWrite :=
  noteOptional .userinfo r.userinfo pos ++
    (.set .host (pos + (whenPresent r.userinfo fun info => info ++ [ch '@']).length)
        r.host.length ::
      noteOptional .port r.port
        (pos + (whenPresent r.userinfo fun info => info ++ [ch '@']).length + r.host.length + 1)) ++
    [.set .authority pos r.authority.length]

private theorem authority_yields :
    Yields authority true r.authority (Ends [ch '/', ch '?', ch '#', ch ' '])
      fun pos => noteAuthority r pos := by
  have hall := (((server_yields r).orElse (q := regName)).noting
    (UriWrite.slice .authority)).attempt
  simpa [UriWrite.slice, authority, noteAuthority] using hall

def notePath (pos : Nat) : List UriWrite :=
  if r.path = [] then [] else [.set .absPath pos r.pathText.length]

theorem absPath_yields : Yields absPath (decide (r.path ≠ [])) r.pathText
    (Ends [ch '?', ch '#', ch ' ']) fun pos => notePath r pos := by
  cases hpath : r.path with
  | nil =>
      have hslash := char_refuses '/' [ch '?', ch '#', ch ' '] (by decide)
      have hall := ((hslash.andThen_fail
        (q := lift fun s => (true, segments (segment s)))).noting_fail
          (UriWrite.slice .absPath)).attempt_fail
      simpa [absPath, HierarchicalUri.pathText, notePath, hpath] using hall
  | cons s path =>
      have hsegments : Yields (lift fun s => (true, segments (segment s)) : Production) true
          (s.text ++ path.flatMap fun s => ch '/' :: s.text) (Ends [ch '?', ch '#', ch ' '])
          fun _ => [] := by
        refine Yields.lift fun rest hrest => ?_
        have hends : Ends [ch '/', ch '?', ch '#', ch ' ']
            ((path.flatMap fun s => ch '/' :: s.text) ++ rest) := by
          cases path with
          | nil => exact hrest.mono (by decide)
          | cons s' path => exact Ends.cons (by decide)
        rw [List.append_assoc, segment_append s hends, segments_append hrest]
      have hall := (((char_yields '/').andThen hsegments fun _ _ => trivial).noting
        (UriWrite.slice .absPath)).attempt
      simpa [absPath, HierarchicalUri.pathText, notePath, hpath, UriWrite.slice] using hall

private theorem netPath_yields : Yields netPath true r.netPath (Ends [ch '?', ch '#', ch ' '])
    fun pos => noteAuthority r (pos + 2) ++ notePath r (pos + 2 + r.authority.length) ++
      [.set .netPath pos r.netPath.length] := by
  have hslashes := (char_yields '/').andThen (char_yields '/') fun _ _ => trivial
  have hauthority := hslashes.andThen (authority_yields r) fun _ _ => trivial
  have hends (rest : List UInt8) (hrest : Ends [ch '?', ch '#', ch ' '] rest) :
      Ends [ch '/', ch '?', ch '#', ch ' '] (r.pathText ++ rest) := by
    rw [HierarchicalUri.pathText]
    cases r.path with
    | nil => exact hrest.mono (by decide)
    | cons s path => exact Ends.cons (by decide)
  have hall := ((hauthority.andTry (absPath_yields r) hends).noting
    (UriWrite.slice .netPath)).attempt
  simpa [netPath, HierarchicalUri.netPath, UriWrite.slice, Nat.add_assoc, Nat.add_comm 2] using hall

private theorem uricPart_yields (p : UriPart) {text : List UInt8} {delimiters : List UInt8}
    (htext : text.all uricChars = true)
    (h : (delimiters.all fun c => !uricChars c && c != ch '%') = true) :
    Yields (uricPart p) true text (Ends delimiters) fun pos => [.set p pos text.length] := by
  have hrun : Yields (lift fun s => (true, chars uricChars s) : Production) true text
      (Ends delimiters) fun _ => [] :=
    Yields.lift fun rest hrest => by rw [chars_append htext (hrest.halts h)]
  have hnoting := hrun.noting (UriWrite.slice p)
  simpa [UriWrite.slice, uricPart] using hnoting

theorem optionalPart_yields (p : UriPart) (c : Char) {part : Option (List UInt8)}
    (delimiters : List UInt8) (hpart : ∀ text ∈ part, text.all uricChars = true)
    (hc : delimiters.contains (ch c) = false)
    (h : (delimiters.all fun c => !uricChars c && c != ch '%') = true) :
    Yields (andThen (char c) (uricPart p)) part.isSome (whenPresent part fun text => ch c :: text)
      (Ends delimiters) fun pos => noteOptional p part (pos + 1) := by
  cases part with
  | none =>
      have hall := (char_refuses c delimiters hc).andThen_fail (q := uricPart p)
      simpa [whenPresent, noteOptional] using hall
  | some text =>
      have hall := (char_yields c).andThen (uricPart_yields p (hpart text rfl) h) fun _ _ => trivial
      simpa [whenPresent, noteOptional] using hall

private theorem hierPart_yields :
    Yields hierPart true (r.netPath ++ whenPresent r.query fun text => ch '?' :: text)
      (Ends [ch '#', ch ' ']) fun pos =>
        noteAuthority r (pos + 2) ++ notePath r (pos + 2 + r.authority.length) ++
          [.set .netPath pos r.netPath.length] ++
          noteOptional .query r.query (pos + r.netPath.length + 1) := by
  have hquery := optionalPart_yields .query '?' [ch '#', ch ' '] r.query_chars
    (by decide) (by decide)
  have hends (rest : List UInt8) (hrest : Ends [ch '#', ch ' '] rest) :
      Ends [ch '?', ch '#', ch ' '] ((whenPresent r.query fun text => ch '?' :: text) ++ rest) := by
    cases r.query with
    | none => exact hrest.mono (by decide)
    | some text => exact Ends.cons (by decide)
  have hall := (((netPath_yields r).orElse (q := absPath)).both (f := fun isPath _ => isPath)
    hquery hends).attempt
  simpa [hierPart, questionQuery] using hall

private theorem absoluteURI_yields :
    Yields absoluteURI true
      (r.scheme ++ ch ':' :: (r.netPath ++ whenPresent r.query fun text => ch '?' :: text))
      (Ends [ch '#', ch ' ']) fun pos => .set .scheme pos r.scheme.length ::
        (noteAuthority r (pos + r.scheme.length + 3) ++
          notePath r (pos + r.scheme.length + 3 + r.authority.length) ++
          [.set .netPath (pos + r.scheme.length + 1) r.netPath.length] ++
          noteOptional .query r.query (pos + r.scheme.length + 1 + r.netPath.length + 1)) := by
  have hhier := (hierPart_yields r).orElse (q := opaquePart)
  have hcolon := ((char_yields ':').notingFailure (UriWrite.unset .scheme)).andThen hhier
    fun _ _ => trivial
  have hall := ((scheme_yields r).andThen hcolon fun _ _ => Ends.cons (by decide)).attempt
  simpa [absoluteURI, Nat.add_assoc] using hall

def noteReference (pos : Nat) : List UriWrite :=
  .set .scheme pos r.scheme.length ::
    (noteAuthority r (pos + r.scheme.length + 3) ++
      notePath r (pos + r.scheme.length + 3 + r.authority.length) ++
      [.set .netPath (pos + r.scheme.length + 1) r.netPath.length] ++
      noteOptional .query r.query (pos + r.scheme.length + 1 + r.netPath.length + 1)) ++
    noteOptional .fragment r.fragment (pos + (r.scheme ++ ch ':' ::
      (r.netPath ++ whenPresent r.query fun text => ch '?' :: text)).length + 1)

private theorem uriReference_yields :
    Yields uriReference true r.text (Ends [ch ' ']) fun pos => noteReference r pos := by
  have hfragment := optionalPart_yields .fragment '#' [ch ' '] r.fragment_chars
    (by decide) (by decide)
  have hends (rest : List UInt8) (hrest : Ends [ch ' '] rest) : Ends [ch '#', ch ' ']
      ((whenPresent r.fragment fun text => ch '#' :: text) ++ rest) := by
    cases r.fragment with
    | none => exact hrest.mono (by decide)
    | some text => exact Ends.cons (by decide)
  have hall := (((absoluteURI_yields r).orElse (q := relativeURI)).both (f := or) hfragment
    hends).attempt
  exact hall

end Productions

end Text

/-! ### The components -/

def UriWrite.part : UriWrite → UriPart
  | .set p _ _ => p
  | .unset p => p

def Uriaa.component (h : Heap) (u : Uriaa) (p : UriPart) : Option (List UInt8) :=
  if (u.part p).isInit then
    some ((List.range (u.part p).writePos).filterMap fun i => (u.part p).charAt h i)
  else none

section Components

open Recogniser

variable {h : Heap} {u : Uriaa} {c : Cursor UInt8} {p : UriPart} {writes : List UriWrite}

theorem filterMap_range {text : List UInt8} {f : Nat → Option UInt8}
    (hf : ∀ i < text.length, f i = text[i]?) : (List.range text.length).filterMap f = text := by
  induction text generalizing f with
  | nil => rfl
  | cons x text ih =>
      have hfirst : f 0 = some x := hf 0 (Nat.succ_pos _)
      have htail := ih (f := fun i => f (i + 1)) fun i hi => by
        simpa using hf (i + 1) (Nat.succ_lt_succ hi)
      rw [List.length_cons, List.range_succ_eq_map, List.filterMap_cons_some hfirst,
        List.filterMap_map]
      exact congrArg (x :: ·) htail

theorem Uriaa.ofText_shows (text : List UInt8) :
    Uriaa.Shows (.ofText text) { uri := .ofText 0 text.length } ⟨0, text⟩ := by
  refine ⟨by simp [Stringaa.ofText], fun i hi => ?_⟩
  have hi' : i < text.length := hi
  simp [Stringaa.charAt, Stringaa.ofText, Heap.load, Heap.ofText, Ptr.add, hi', List.getD]

theorem Uriaa.write_part_of_ne {w : UriWrite} (hne : w.part ≠ p) :
    (u.write w).part p = u.part p := by
  cases w with
  | set q pos size => exact if_neg (Ne.symm hne)
  | unset q => exact if_neg (Ne.symm hne)

private theorem Uriaa.writeAll_part (u v : Uriaa) (writes : List UriWrite) (p : UriPart)
    (hpart : u.part p = v.part p) (huri : u.uri = v.uri) :
    (u.writeAll writes).part p =
      (v.writeAll (writes.filter fun w => decide (w.part = p))).part p := by
  induction writes generalizing u v with
  | nil => exact hpart
  | cons w writes ih =>
      by_cases hw : w.part = p
      · rw [List.filter_cons_of_pos (by simpa using hw)]
        refine ih (u.write w) (v.write w) ?_ ?_
        · cases w with
          | set q pos size =>
              have hq : u.part q = v.part q := by rwa [show q = p from hw]
              simp [Uriaa.write, Uriaa.setPart, huri, hq, hpart]
          | unset q =>
              have hq : u.part q = v.part q := by rwa [show q = p from hw]
              simp [Uriaa.write, Uriaa.unsetPart, hq, hpart]
        · rw [Uriaa.write_uri, Uriaa.write_uri, huri]
      · rw [List.filter_cons_of_neg (by simpa using hw)]
        exact ih (u.write w) v ((write_part_of_ne hw).trans hpart)
          ((Uriaa.write_uri u w).trans huri)

theorem Uriaa.slice_char (front : List UInt8) {text : List UInt8} (hu : u.Shows h c)
    (hrest : front ++ text <+: c.rest) (i : Nat) (hi : i < text.length) :
    Stringaa.charAt h { buf := u.uri.buf.map fun buf => buf.add (c.pos + front.length)
                        bufSize := text.length, writePos := text.length, isInit := true } i =
      text[i]? := by
  obtain ⟨back, hrest⟩ := hrest
  have hread := hu.char (front.length + i) (by
    rw [← hrest, List.length_append, List.length_append]
    omega)
  rw [← hrest, List.append_assoc, List.getElem?_append_right (Nat.le_add_right _ _),
    Nat.add_sub_cancel_left, List.getElem?_append_left hi] at hread
  rw [← hread, Stringaa.charAt, Stringaa.charAt, Option.bind_map]
  congr 1
  funext buf
  simp [Nat.add_assoc]

/-- A component that is set once, in a reference that was all zero. -/
theorem Uriaa.component_set (front : List UInt8) {text : List UInt8} (hu : u.Shows h c)
    (hzero : u.part p = {}) (hrest : front ++ text <+: c.rest)
    (hwrites : writes.filter (fun w => decide (w.part = p)) =
      [.set p (c.pos + front.length) text.length]) {n : Nat} :
    ((u.writeAll writes).rewind n).component h p = some text := by
  have hpart : ((u.writeAll writes).rewind n).part p =
      { buf := u.uri.buf.map fun buf => buf.add (c.pos + front.length), bufSize := text.length
        writePos := text.length, isInit := true } := by
    rw [show ((u.writeAll writes).rewind n).part p = (u.writeAll writes).part p from rfl,
      Uriaa.writeAll_part u u writes p rfl rfl, hwrites]
    simp only [Uriaa.writeAll, List.foldl_cons, List.foldl_nil, Uriaa.write, Uriaa.setPart, if_true,
      hzero, Bool.toNat_false, Nat.sub_zero]
    split
    · rfl
    · rename_i hsize
      rw [not_not.mp hsize]
  rw [Uriaa.component, hpart, if_pos rfl, filterMap_range (Uriaa.slice_char front hu hrest)]

theorem Uriaa.component_unset (hzero : u.part p = {})
    (hwrites : writes.filter (fun w => decide (w.part = p)) = []) {n : Nat} :
    ((u.writeAll writes).rewind n).component h p = none := by
  rw [Uriaa.component, show ((u.writeAll writes).rewind n).part p = (u.writeAll writes).part p
    from rfl, Uriaa.writeAll_part u u writes p rfl rfl, hwrites]
  simp [Uriaa.writeAll, hzero]

theorem filter_noteOptional (q : UriPart) (part : Option (List UInt8)) (pos : Nat) :
    (Text.noteOptional q part pos).filter (fun w => decide (w.part = p)) =
      if q = p then Text.noteOptional q part pos else [] := by
  cases part with
  | none => simp [Text.noteOptional]
  | some text =>
      by_cases hq : q = p <;> simp [Text.noteOptional, UriWrite.part, hq]

private theorem filter_notePath (r : HierarchicalUri) (pos : Nat) :
    (Text.notePath r pos).filter (fun w => decide (w.part = p)) =
      if p = .absPath then Text.notePath r pos else [] := by
  rw [Text.notePath]
  by_cases hpath : r.path = []
  · simp [hpath]
  · by_cases hp : p = .absPath
    · simp [hpath, UriWrite.part, hp]
    · simp [hpath, UriWrite.part, hp, Ne.symm hp]

@[simp] theorem UriWrite.part_set (q : UriPart) (pos size : Nat) :
    (UriWrite.set q pos size).part = q := rfl

private theorem filter_noteReference (r : HierarchicalUri) (pos : Nat) (p : UriPart) :
    (Text.noteReference r pos).filter (fun w => decide (w.part = p)) =
      match p with
      | .scheme => [.set .scheme pos r.scheme.length]
      | .authority => [.set .authority (pos + r.scheme.length + 3) r.authority.length]
      | .userinfo => Text.noteOptional .userinfo r.userinfo (pos + r.scheme.length + 3)
      | .host => [.set .host (pos + r.scheme.length + 3 +
          (HierarchicalUri.whenPresent r.userinfo fun info => info ++ [ch '@']).length)
          r.host.length]
      | .port => Text.noteOptional .port r.port (pos + r.scheme.length + 3 +
          (HierarchicalUri.whenPresent r.userinfo fun info => info ++ [ch '@']).length +
          r.host.length + 1)
      | .netPath => [.set .netPath (pos + r.scheme.length + 1) r.netPath.length]
      | .absPath => Text.notePath r (pos + r.scheme.length + 3 + r.authority.length)
      | .query => Text.noteOptional .query r.query
          (pos + r.scheme.length + 1 + r.netPath.length + 1)
      | .fragment => Text.noteOptional .fragment r.fragment (pos + (r.scheme ++ ch ':' ::
          (r.netPath ++ HierarchicalUri.whenPresent r.query fun text => ch '?' :: text)).length + 1)
      | .path | .relPath | .opaquePart => [] := by
  cases p <;>
    simp only [Text.noteReference, Text.noteAuthority, List.filter_append, List.filter_cons,
      List.filter_nil, filter_noteOptional, filter_notePath, UriWrite.part_set, reduceCtorEq,
      decide_false, decide_true, Bool.false_eq_true, if_true, if_false, List.nil_append,
      List.append_nil, List.cons_append]

/-- The parser finds in the composed text the parts it is composed of, and reads all of it. -/
theorem uriReference_compose (r : HierarchicalUri) {rest : List UInt8}
    (hu : u.Shows h ⟨u.uri.readPos, r.text ++ rest⟩) (hzero : ∀ p, u.part p = {})
    (hrest : Ends [ch ' '] rest) :
    ∃ u', uriReference h u = some (true, u') ∧
      u'.uri.readPos = u.uri.readPos + r.text.length ∧
      ∀ p, u'.component h p = r.component p := by
  have himpl := uriReference_implements u _ hu
  rw [show u.rewind (⟨u.uri.readPos, r.text ++ rest⟩ : Cursor UInt8).pos = u from rfl,
    Text.uriReference_yields r _ _ hrest] at himpl
  refine ⟨_, himpl, rfl, fun p => ?_⟩
  rw [Uriaa.left]
  have hfilter := filter_noteReference r u.uri.readPos p
  cases p with
  | scheme =>
      refine Uriaa.component_set ([]) hu (hzero _) ?_ hfilter
      simp [HierarchicalUri.text]
  | authority =>
      refine Uriaa.component_set (r.scheme ++ [ch ':', ch '/', ch '/']) hu (hzero _) ?_ ?_
      · simp [HierarchicalUri.text, HierarchicalUri.netPath]
      · simpa [Nat.add_assoc] using hfilter
  | userinfo =>
      cases hinfo : r.userinfo with
      | none =>
          rw [hinfo] at hfilter
          simpa [HierarchicalUri.component, hinfo] using Uriaa.component_unset (hzero _) hfilter
      | some info =>
          rw [hinfo] at hfilter
          rw [HierarchicalUri.component, hinfo]
          refine Uriaa.component_set (r.scheme ++ [ch ':', ch '/', ch '/']) hu (hzero _) ?_ ?_
          · simp [HierarchicalUri.text, HierarchicalUri.netPath, HierarchicalUri.authority,
              HierarchicalUri.whenPresent, hinfo]
          · simpa [Nat.add_assoc, Text.noteOptional] using hfilter
  | host =>
      refine Uriaa.component_set (r.scheme ++ ch ':' :: ch '/' :: ch '/' ::
        HierarchicalUri.whenPresent r.userinfo fun info => info ++ [ch '@']) hu (hzero _) ?_ ?_
      · simp [HierarchicalUri.text, HierarchicalUri.netPath, HierarchicalUri.authority,
          HierarchicalUri.hostport]
      · rw [hfilter]
        simp only [List.length_append, List.length_cons]
        congr 2
        omega
  | port =>
      cases hport : r.port with
      | none =>
          rw [hport] at hfilter
          simpa [HierarchicalUri.component, hport] using Uriaa.component_unset (hzero _) hfilter
      | some digits =>
          rw [hport] at hfilter
          rw [HierarchicalUri.component, hport]
          refine Uriaa.component_set (r.scheme ++ ch ':' :: ch '/' :: ch '/' ::
            ((HierarchicalUri.whenPresent r.userinfo fun info => info ++ [ch '@']) ++ r.host ++
              [ch ':'])) hu (hzero _) ?_ ?_
          · simp [HierarchicalUri.text, HierarchicalUri.netPath, HierarchicalUri.authority,
              HierarchicalUri.hostport, hport, HierarchicalUri.whenPresent]
          · rw [hfilter]
            simp only [Text.noteOptional, Option.elim_some, List.length_append, List.length_cons,
              List.length_nil]
            congr 2
            omega
  | netPath =>
      refine Uriaa.component_set (r.scheme ++ [ch ':']) hu (hzero _) ?_ ?_
      · simp [HierarchicalUri.text]
      · simpa [Nat.add_assoc] using hfilter
  | absPath =>
      by_cases hpath : r.path = []
      · rw [HierarchicalUri.component, if_pos hpath]
        refine Uriaa.component_unset (hzero _) ?_
        rw [hfilter]
        exact if_pos hpath
      · rw [HierarchicalUri.component, if_neg hpath]
        refine Uriaa.component_set (r.scheme ++ ch ':' :: ch '/' :: ch '/' ::
          r.authority) hu (hzero _) ?_ ?_
        · simp [HierarchicalUri.text, HierarchicalUri.netPath]
        · rw [hfilter, Text.notePath, if_neg hpath]
          simp only [List.length_append, List.length_cons]
          congr 2
          omega
  | query =>
      cases hquery : r.query with
      | none =>
          rw [hquery] at hfilter
          simpa [HierarchicalUri.component, hquery] using Uriaa.component_unset (hzero _) hfilter
      | some text =>
          rw [hquery] at hfilter
          rw [HierarchicalUri.component, hquery]
          refine Uriaa.component_set (r.scheme ++ ch ':' :: (r.netPath ++ [ch '?'])) hu
            (hzero _) ?_ ?_
          · simp [HierarchicalUri.text, hquery, HierarchicalUri.whenPresent]
          · rw [hfilter]
            simp only [Text.noteOptional, Option.elim_some, List.length_append, List.length_cons,
              List.length_nil]
            congr 2
            omega
  | fragment =>
      cases hfragment : r.fragment with
      | none =>
          rw [hfragment] at hfilter
          simpa [HierarchicalUri.component, hfragment] using
            Uriaa.component_unset (hzero _) hfilter
      | some text =>
          rw [hfragment] at hfilter
          rw [HierarchicalUri.component, hfragment]
          refine Uriaa.component_set (r.scheme ++ ch ':' :: (r.netPath ++
            HierarchicalUri.whenPresent r.query fun text => ch '?' :: text) ++ [ch '#']) hu
            (hzero _) ?_ ?_
          · simp [HierarchicalUri.text, hfragment, HierarchicalUri.whenPresent]
          · rw [hfilter]
            simp only [Text.noteOptional, Option.elim_some, List.length_append, List.length_cons,
              List.length_nil]
            congr 2
  | path => exact Uriaa.component_unset (hzero _) hfilter
  | relPath => exact Uriaa.component_unset (hzero _) hfilter
  | opaquePart => exact Uriaa.component_unset (hzero _) hfilter

/-- `s://u@h.d:8/p;a/q?x#y`. -/
def sampleUri : HierarchicalUri where
  scheme := [ch 's']
  userinfo := some [ch 'u']
  domainlabels := [[ch 'h']]
  toplabel := [ch 'd']
  port := some [ch '8']
  path := [⟨[ch 'p'], [[ch 'a']], by decide, by decide⟩, ⟨[ch 'q'], [], by decide, by decide⟩]
  query := some [ch 'x']
  fragment := some [ch 'y']
  scheme_isScheme := by decide
  userinfo_chars := by simp; decide
  domainlabels_isLabel := by decide
  toplabel_isLabel := by decide
  port_digits := by simp; decide
  query_chars := by simp; decide
  fragment_chars := by simp; decide

theorem uriReference_compose_sampleUri :
    ∃ u', uriReference (.ofText sampleUri.text) { uri := .ofText 0 sampleUri.text.length } =
        some (true, u') ∧ u'.uri.readPos = 0 + sampleUri.text.length ∧
      ∀ p, u'.component (.ofText sampleUri.text) p = sampleUri.component p := by
  have hshows := Uriaa.ofText_shows sampleUri.text
  rw [← List.append_nil sampleUri.text] at hshows
  exact uriReference_compose sampleUri hshows (fun _ => rfl) (by simp [Ends])

end Components

end Httpaa
