import Mathlib.Computability.Language
import Mathlib.Order.CompletePartialOrder
import Httpaa.Uri.Characters

/-!
# The grammar of RFC 2396

The productions of the specification that the functions of `uriaa_rfc2396.h` are named after, as
languages over bytes, and the little the parser's completeness needs to know about them: their texts
are made of URI characters, and how they begin.
-/

namespace Httpaa.Rfc2396

open Text
open scoped Computability

/-! ### Productions -/

def char (P : UInt8 → Bool) : Language UInt8 := {s | ∃ c, P c = true ∧ s = [c]}

def delimiter (c : Char) : Language UInt8 := {[ch c]}

def optional (L : Language UInt8) : Language UInt8 := 1 + L

/-- `1*L`. -/
def many (L : Language UInt8) : Language UInt8 := L * L∗

def escaped : Language UInt8 := delimiter '%' * (char hexChars * char hexChars)

/-- A character of the class or an escape. -/
def oneOf (P : UInt8 → Bool) : Language UInt8 := char P + escaped

def uric : Language UInt8 := oneOf uricChars

def pchar : Language UInt8 := oneOf pcharChars

def fragment : Language UInt8 := uric∗

def query : Language UInt8 := uric∗

def param : Language UInt8 := pchar∗

def segment : Language UInt8 := pchar∗ * (delimiter ';' * param)∗

def pathSegments : Language UInt8 := segment * (delimiter '/' * segment)∗

def port : Language UInt8 := (char digitChars)∗

def ipv4address : Language UInt8 :=
  many (char digitChars) * (delimiter '.' * (many (char digitChars) * (delimiter '.' *
    (many (char digitChars) * (delimiter '.' * many (char digitChars))))))

def toplabel : Language UInt8 :=
  char alphaChars + char alphaChars * ((char labelChars)∗ * char alphanumChars)

def domainlabel : Language UInt8 :=
  char alphanumChars + char alphanumChars * ((char labelChars)∗ * char alphanumChars)

def hostname : Language UInt8 :=
  (domainlabel * delimiter '.')∗ * (toplabel * optional (delimiter '.'))

def host : Language UInt8 := hostname + ipv4address

def hostport : Language UInt8 := host * optional (delimiter ':' * port)

def userinfo : Language UInt8 := (oneOf userinfoChars)∗

def server : Language UInt8 := optional (optional (userinfo * delimiter '@') * hostport)

def regName : Language UInt8 := many (oneOf regNameChars)

def authority : Language UInt8 := server + regName

def scheme : Language UInt8 := char alphaChars * (char schemeChars)∗

def relSegment : Language UInt8 := many (oneOf relSegmentChars)

def absPath : Language UInt8 := delimiter '/' * pathSegments

def relPath : Language UInt8 := relSegment * optional absPath

def netPath : Language UInt8 := delimiter '/' * (delimiter '/' * (authority * optional absPath))

def opaquePart : Language UInt8 := oneOf uricNoSlashChars * uric∗

def hierPart : Language UInt8 := (netPath + absPath) * optional (delimiter '?' * query)

def relativeURI : Language UInt8 :=
  (netPath + absPath + relPath) * optional (delimiter '?' * query)

def absoluteURI : Language UInt8 := scheme * (delimiter ':' * (hierPart + opaquePart))

def uriReference : Language UInt8 :=
  optional (absoluteURI + relativeURI) * optional (delimiter '#' * fragment)

/-! ### Texts of URI characters -/

/-- The texts of URI characters and complete escape triples. -/
def plain : Language UInt8 := {s | uriText uricChars s = true}

variable {L M : Language UInt8} {P : UInt8 → Bool} {s : List UInt8}

private theorem one_le_plain : 1 ≤ plain := by
  intro s hs
  rw [(Language.mem_one s).mp hs]
  rfl

private theorem mul_le_plain (hL : L ≤ plain) (hM : M ≤ plain) : L * M ≤ plain := by
  intro s hs
  obtain ⟨a, ha, b, hb, rfl⟩ := Language.mem_mul.mp hs
  exact (uriText_append (hL ha)).trans (hM hb)

private theorem add_le_plain (hL : L ≤ plain) (hM : M ≤ plain) : L + M ≤ plain := by
  intro s hs
  exact ((Language.mem_add L M s).mp hs).elim (fun h => hL h) fun h => hM h

private theorem kstar_le_plain (hL : L ≤ plain) : L∗ ≤ plain := by
  intro s hs
  obtain ⟨parts, rfl, hparts⟩ := Language.mem_kstar.mp hs
  clear hs
  induction parts with
  | nil => rfl
  | cons part parts ih =>
      have htail : ∀ y ∈ parts, y ∈ L := fun y hy => hparts y (List.mem_cons_of_mem _ hy)
      have hrest := ih htail
      rw [List.flatten_cons]
      exact (uriText_append (hL (hparts part (List.mem_cons_self ..)))).trans hrest

private theorem optional_le_plain (hL : L ≤ plain) :
    optional L ≤ plain := add_le_plain one_le_plain hL

private theorem many_le_plain (hL : L ≤ plain) : many L ≤ plain :=
  mul_le_plain hL (kstar_le_plain hL)

private theorem char_le_plain (hP : ∀ c, P c = true → uricChars c = true) : char P ≤ plain := by
  intro s hs
  obtain ⟨c, hc, rfl⟩ := hs
  change uriText uricChars [c] = true
  rw [uriText_cons (uricChars_ne (hP c hc)).1, hP c hc]
  rfl

private theorem delimiter_le_plain {c : Char} (hc : uricChars (ch c) = true) :
    delimiter c ≤ plain := by
  intro s hs
  obtain rfl : s = [ch c] := hs
  exact char_le_plain (fun _ h => h) ⟨ch c, hc, rfl⟩

private theorem mem_escaped (hs : s ∈ escaped) :
    ∃ a b, hexChars a = true ∧ hexChars b = true ∧ s = [ch '%', a, b] := by
  obtain ⟨x, hx, y, hy, rfl⟩ := Language.mem_mul.mp hs
  obtain ⟨z, ⟨a, ha, rfl⟩, w, ⟨b, hb, rfl⟩, rfl⟩ := Language.mem_mul.mp hy
  obtain rfl : x = [ch '%'] := hx
  exact ⟨a, b, ha, hb, rfl⟩

private theorem oneOf_le_plain (hP : UriClass P) : oneOf P ≤ plain := by
  refine add_le_plain (char_le_plain hP.uric) fun s hs => ?_
  obtain ⟨a, b, ha, hb, rfl⟩ := mem_escaped hs
  change uriText uricChars [ch '%', a, b] = true
  rw [uriText_triple, ha, hb]
  rfl

private theorem regNameChars_uriClass : UriClass regNameChars := by
  refine ⟨fun c hc => ?_, fun c hc => ?_⟩
  · simp only [regNameChars, uricChars, reservedChars, Bool.or_eq_true] at hc ⊢
    tauto
  · simp [regNameChars, hexChars_unreservedChars hc]

private theorem absPath_le_plain : absPath ≤ plain := by
  have hpchar : pchar ≤ plain := oneOf_le_plain pcharChars_uriClass
  have hsegment : segment ≤ plain := mul_le_plain (kstar_le_plain hpchar)
    (kstar_le_plain (mul_le_plain (delimiter_le_plain (by decide)) (kstar_le_plain hpchar)))
  exact mul_le_plain (delimiter_le_plain (by decide)) (mul_le_plain hsegment
    (kstar_le_plain (mul_le_plain (delimiter_le_plain (by decide)) hsegment)))

private theorem hostport_le_plain : hostport ≤ plain := by
  have hdigits : char digitChars ≤ plain := char_le_plain digitChars_uricChars
  have hlabel (first : UInt8 → Bool) (hfirst : ∀ c, first c = true → labelChars c = true) :
      char first + char first * ((char labelChars)∗ * char alphanumChars) ≤ plain := by
    have hchar : char first ≤ plain := char_le_plain fun c hc => labelChars_uricChars (hfirst c hc)
    exact add_le_plain hchar (mul_le_plain hchar (mul_le_plain
      (kstar_le_plain (char_le_plain fun _ hc => labelChars_uricChars hc))
      (char_le_plain fun c hc => labelChars_uricChars (alphanumChars_labelChars c hc))))
  have hdot : delimiter '.' ≤ plain := delimiter_le_plain (by decide)
  have hname : hostname ≤ plain := mul_le_plain
    (kstar_le_plain (mul_le_plain (hlabel _ alphanumChars_labelChars) hdot))
    (mul_le_plain (hlabel _ alphaChars_labelChars) (optional_le_plain hdot))
  have haddress : ipv4address ≤ plain := mul_le_plain (many_le_plain hdigits) (mul_le_plain hdot
    (mul_le_plain (many_le_plain hdigits) (mul_le_plain hdot (mul_le_plain (many_le_plain hdigits)
      (mul_le_plain hdot (many_le_plain hdigits))))))
  exact mul_le_plain (add_le_plain hname haddress)
    (optional_le_plain (mul_le_plain (delimiter_le_plain (by decide)) (kstar_le_plain hdigits)))

private theorem netPath_le_plain : netPath ≤ plain := by
  have hserver : server ≤ plain := optional_le_plain (mul_le_plain (optional_le_plain
    (mul_le_plain (kstar_le_plain (oneOf_le_plain userinfoChars_uriClass))
      (delimiter_le_plain (by decide)))) hostport_le_plain)
  have hregName : regName ≤ plain := many_le_plain (oneOf_le_plain regNameChars_uriClass)
  exact mul_le_plain (delimiter_le_plain (by decide)) (mul_le_plain (delimiter_le_plain (by decide))
    (mul_le_plain (add_le_plain hserver hregName) (optional_le_plain absPath_le_plain)))

private theorem query_le_plain : optional (delimiter '?' * query) ≤ plain :=
  optional_le_plain (mul_le_plain (delimiter_le_plain (by decide))
    (kstar_le_plain (oneOf_le_plain uricChars_uriClass)))

private theorem relativeURI_le_plain : relativeURI ≤ plain :=
  mul_le_plain (add_le_plain (add_le_plain netPath_le_plain absPath_le_plain)
    (mul_le_plain (many_le_plain (oneOf_le_plain relSegmentChars_uriClass))
      (optional_le_plain absPath_le_plain))) query_le_plain

theorem schemeChars_uricChars (c : UInt8) (hc : schemeChars c = true) : uricChars c = true := by
  simp only [schemeChars, uricChars, unreservedChars, alphanumChars, markChars, reservedChars,
    Bool.or_eq_true] at hc ⊢
  tauto

private theorem absoluteURI_le_plain : absoluteURI ≤ plain := by
  have hscheme : scheme ≤ plain := mul_le_plain
    (char_le_plain fun c hc => labelChars_uricChars (alphaChars_labelChars c hc))
    (kstar_le_plain (char_le_plain schemeChars_uricChars))
  have hopen : opaquePart ≤ plain := mul_le_plain (oneOf_le_plain uricNoSlashChars_uriClass)
    (kstar_le_plain (oneOf_le_plain uricChars_uriClass))
  exact mul_le_plain hscheme (mul_le_plain (delimiter_le_plain (by decide))
    (add_le_plain (mul_le_plain (add_le_plain netPath_le_plain absPath_le_plain) query_le_plain)
      hopen))

/-- The texts of the grammar are made of URI characters, complete triples and at most one `#`. -/
theorem isUriText_of_mem (hs : s ∈ uriReference) : IsUriText s := by
  obtain ⟨body, hbody, tail, htail, rfl⟩ := Language.mem_mul.mp hs
  have hplain : optional (absoluteURI + relativeURI) ≤ plain :=
    optional_le_plain (add_le_plain absoluteURI_le_plain relativeURI_le_plain)
  refine ⟨body, hplain hbody, ?_⟩
  rcases (Language.mem_add _ _ _).mp htail with hnone | hsome
  · rw [(Language.mem_one tail).mp hnone, List.append_nil]
    exact .inl rfl
  · obtain ⟨hash, hhash, text, htext, rfl⟩ := Language.mem_mul.mp hsome
    obtain rfl : hash = [ch '#'] := hhash
    exact .inr ⟨text, kstar_le_plain (oneOf_le_plain uricChars_uriClass) htext, rfl⟩

/-! ### How the texts begin -/

theorem inClass_of_oneOf {item : List UInt8} (hitem : item ∈ oneOf P) (hP : P (ch '%') = false)
    (more : List UInt8) : (Text.inClass P (item ++ more)).1 = true := by
  rcases (Language.mem_add _ _ _).mp hitem with ⟨c, hc, rfl⟩ | hescaped
  · simp [Text.inClass, hc]
  · obtain ⟨a, b, ha, hb, rfl⟩ := mem_escaped hescaped
    simp [Text.inClass, hP, Text.escaped, ha, hb]

private theorem mem_scheme (hs : s ∈ scheme) : isScheme s = true := by
  obtain ⟨first, ⟨x, hx, rfl⟩, rest, hrest, rfl⟩ := Language.mem_mul.mp hs
  obtain ⟨parts, rfl, hparts⟩ := Language.mem_kstar.mp hrest
  have hall : parts.flatten.all schemeChars = true := by
    rw [List.all_flatten, List.all_eq_true]
    intro part hpart
    obtain ⟨c, hc, rfl⟩ := hparts part hpart
    simpa using hc
  rw [List.singleton_append, isScheme, hx, hall]
  rfl

private theorem head_hierarchical (hs : s ∈ netPath + absPath) : s.head? = some (ch '/') := by
  rcases (Language.mem_add _ _ _).mp hs with h | h <;>
  · obtain ⟨slash, hslash, rest, -, rfl⟩ := Language.mem_mul.mp h
    obtain rfl : slash = [ch '/'] := hslash
    rfl

private theorem head_optional {c : Char} (hs : s ∈ optional (delimiter c * M)) :
    s = [] ∨ s.head? = some (ch c) := by
  rcases (Language.mem_add _ _ _).mp hs with h | h
  · exact .inl ((Language.mem_one s).mp h)
  · obtain ⟨first, hfirst, rest, -, rfl⟩ := Language.mem_mul.mp h
    obtain rfl : first = [ch c] := hfirst
    exact .inr rfl

/-- Behind the scheme a text starts with `/` or with a character of an opaque part. -/
theorem mem_absoluteURI (hs : s ∈ absoluteURI) : ∃ name tail, isScheme name = true ∧
    s = name ++ ch ':' :: tail ∧
    (tail.head? = some (ch '/') ∨ ∃ item rest, item ∈ oneOf uricNoSlashChars ∧
      tail = item ++ rest) := by
  obtain ⟨name, hname, rest, hrest, rfl⟩ := Language.mem_mul.mp hs
  obtain ⟨colon, hcolon, tail, htail, rfl⟩ := Language.mem_mul.mp hrest
  obtain rfl : colon = [ch ':'] := hcolon
  refine ⟨name, tail, mem_scheme hname, rfl, ?_⟩
  rcases (Language.mem_add _ _ _).mp htail with hhier | hopen
  · obtain ⟨path, hpath, query, -, rfl⟩ := Language.mem_mul.mp hhier
    have hhead := head_hierarchical hpath
    rw [List.head?_append, hhead]
    exact .inl rfl
  · obtain ⟨item, hitem, more, -, rfl⟩ := Language.mem_mul.mp hopen
    exact .inr ⟨item, more, hitem, rfl⟩

private theorem colon_not_mem (hs : s ∈ relSegment) : ch ':' ∉ s := by
  have hitem (item : List UInt8) (h : item ∈ oneOf relSegmentChars) : ch ':' ∉ item := by
    rcases (Language.mem_add _ _ _).mp h with ⟨c, hc, rfl⟩ | hescaped
    · rintro hmem
      rw [List.mem_singleton] at hmem
      rw [← hmem] at hc
      exact absurd hc (by decide)
    · obtain ⟨a, b, ha, hb, rfl⟩ := mem_escaped hescaped
      simp only [List.mem_cons, List.not_mem_nil, or_false, not_or]
      refine ⟨by decide, ?_, ?_⟩
      · rintro rfl
        exact absurd ha (by decide)
      · rintro rfl
        exact absurd hb (by decide)
  obtain ⟨item, hfirst, rest, hrest, rfl⟩ := Language.mem_mul.mp hs
  obtain ⟨parts, rfl, hparts⟩ := Language.mem_kstar.mp hrest
  rw [List.mem_append, List.mem_flatten, not_or]
  refine ⟨hitem item hfirst, ?_⟩
  rintro ⟨part, hpart, hmem⟩
  exact hitem part (hparts part hpart) hmem

/-- A relative reference starts with `/`, or with a segment without colon that a delimiter ends. -/
theorem mem_relativeURI (hs : s ∈ relativeURI) : s.head? = some (ch '/') ∨
    ∃ name tail item rest, s = name ++ tail ∧ ch ':' ∉ name ∧
      (tail = [] ∨ tail.head? = some (ch '/') ∨ tail.head? = some (ch '?')) ∧
      item ∈ oneOf relSegmentChars ∧ name = item ++ rest := by
  obtain ⟨path, hpath, query, hquery, rfl⟩ := Language.mem_mul.mp hs
  rcases (Language.mem_add _ _ _).mp hpath with hslash | hrel
  · rw [List.head?_append, head_hierarchical hslash]
    exact .inl rfl
  · obtain ⟨name, hname, further, hfurther, rfl⟩ := Language.mem_mul.mp hrel
    obtain ⟨item, hitem, rest, -, heq⟩ := Language.mem_mul.mp hname
    refine .inr ⟨name, further ++ query, item, rest, List.append_assoc .., colon_not_mem hname, ?_,
      hitem, heq.symm⟩
    rcases head_optional hfurther with rfl | hslash
    · rcases head_optional hquery with rfl | hquestion
      · exact .inl rfl
      · exact .inr (.inr hquestion)
    · rw [List.head?_append, hslash]
      exact .inr (.inl rfl)

/-- A reference is an absolute or a relative one, or empty, in front of its fragment. -/
theorem mem_uriReference (hs : s ∈ uriReference) : ∃ body tail, s = body ++ tail ∧
    (tail = [] ∨ tail.head? = some (ch '#')) ∧
    (body ∈ absoluteURI ∨ body ∈ relativeURI ∨ body = []) := by
  obtain ⟨body, hbody, tail, htail, rfl⟩ := Language.mem_mul.mp hs
  refine ⟨body, tail, rfl, head_optional htail, ?_⟩
  rcases (Language.mem_add _ _ _).mp hbody with hnone | hsome
  · exact .inr (.inr ((Language.mem_one body).mp hnone))
  · exact ((Language.mem_add _ _ _).mp hsome).elim .inl fun h => .inr (.inl h)

/-! ### Texts without the optional parts -/

private theorem nil_mem_optional : [] ∈ optional L :=
  (Language.mem_add _ _ _).mpr (.inl ((Language.mem_one []).mpr rfl))

private theorem mem_oneOf {c : UInt8} (hc : P c = true) : [c] ∈ oneOf P :=
  (Language.mem_add _ _ _).mpr (.inl ⟨c, hc, rfl⟩)

private theorem mem_star (hs : s.all P = true) : s ∈ (oneOf P)∗ := by
  rw [List.all_eq_true] at hs
  refine Language.mem_kstar.mpr ⟨s.map fun x => [x], ?_, fun y hy => ?_⟩
  · exact (List.flatMap_singleton' s).symm
  · obtain ⟨x, hx, rfl⟩ := List.mem_map.mp hy
    exact mem_oneOf (hs x hx)

theorem mem_many (hne : s ≠ []) (hs : s.all P = true) : s ∈ many (oneOf P) := by
  obtain ⟨c, rest, rfl⟩ := List.exists_cons_of_ne_nil hne
  rw [List.all_cons, Bool.and_eq_true] at hs
  exact Language.mem_mul.mpr ⟨[c], mem_oneOf hs.1, rest, mem_star hs.2, rfl⟩

theorem mem_of_path (hs : s ∈ netPath + absPath + relPath) : s ∈ uriReference := by
  have hrel : s ∈ relativeURI := Language.mem_mul.mpr
    ⟨s, hs, [], nil_mem_optional, List.append_nil s⟩
  have hbody : s ∈ optional (absoluteURI + relativeURI) :=
    (Language.mem_add _ _ _).mpr (.inr ((Language.mem_add _ _ _).mpr (.inr hrel)))
  exact Language.mem_mul.mpr ⟨s, hbody, [], nil_mem_optional, List.append_nil s⟩

theorem mem_of_regName (hs : s ∈ regName) : ch '/' :: ch '/' :: s ∈ netPath := by
  have hauthority : s ∈ authority := (Language.mem_add _ _ _).mpr (.inr hs)
  have hslash : [ch '/'] ∈ delimiter '/' := rfl
  exact Language.mem_mul.mpr ⟨_, hslash, ch '/' :: s, Language.mem_mul.mpr ⟨_, hslash, s,
    Language.mem_mul.mpr ⟨s, hauthority, [], nil_mem_optional, List.append_nil s⟩, rfl⟩, rfl⟩

private theorem mem_absPath (hs : s.all pcharChars = true) : ch '/' :: s ∈ absPath := by
  have hsegment : s ∈ segment :=
    Language.mem_mul.mpr ⟨s, mem_star hs, [], Language.nil_mem_kstar _, List.append_nil s⟩
  have hpath : s ∈ pathSegments :=
    Language.mem_mul.mpr ⟨s, hsegment, [], Language.nil_mem_kstar _, List.append_nil s⟩
  exact Language.mem_mul.mpr ⟨[ch '/'], rfl, s, hpath, rfl⟩

/-- A reference with a name for its authority, a path of one segment and a query. -/
theorem mem_network (name path query : List UInt8) (hname : name ∈ regName)
    (hpath : path.all pcharChars = true) (hquery : query.all uricChars = true) :
    [ch '/', ch '/'] ++ name ++ ch '/' :: path ++ ch '?' :: query ∈ uriReference := by
  have hauthority : name ∈ authority := (Language.mem_add _ _ _).mpr (.inr hname)
  have hsome : ch '/' :: path ∈ optional absPath :=
    (Language.mem_add _ _ _).mpr (.inr (mem_absPath hpath))
  have hnet : [ch '/', ch '/'] ++ name ++ ch '/' :: path ∈ netPath + absPath + relPath := by
    refine (Language.mem_add _ _ _).mpr (.inl ((Language.mem_add _ _ _).mpr (.inl ?_)))
    refine Language.mem_mul.mpr ⟨[ch '/'], rfl, ch '/' :: (name ++ ch '/' :: path), ?_, by simp⟩
    refine Language.mem_mul.mpr ⟨[ch '/'], rfl, name ++ ch '/' :: path, ?_, rfl⟩
    exact Language.mem_mul.mpr ⟨name, hauthority, _, hsome, rfl⟩
  have htail : ch '?' :: query ∈ optional (delimiter '?' * Rfc2396.query) :=
    (Language.mem_add _ _ _).mpr (.inr (Language.mem_mul.mpr
      ⟨[ch '?'], rfl, query, mem_star hquery, rfl⟩))
  have hrel := Language.mem_mul.mpr ⟨_, hnet, _, htail, rfl⟩
  have hbody := (Language.mem_add 1 (absoluteURI + relativeURI) _).mpr
    (.inr ((Language.mem_add _ _ _).mpr (.inr hrel)))
  exact Language.mem_mul.mpr ⟨_, hbody, [], nil_mem_optional, List.append_nil _⟩

end Httpaa.Rfc2396
