import Httpaa.Foundation.Recogniser
import Httpaa.Strings.Reading
import Httpaa.Uri.Parser

/-!
# The productions on texts

What each production of the source does with the text in front of its cursor, as functions on lists
of characters and recognisers built from them. The notes of a recogniser are the assignments to the
components of the reference. Every production leaves the cursor in the text.
-/

namespace Httpaa

/-- An assignment to a component: a slice of the text, or none. -/
inductive UriWrite
  | set (p : UriPart) (pos size : Nat)
  | unset (p : UriPart)
deriving DecidableEq, Repr

def Uriaa.write (u : Uriaa) : UriWrite → Uriaa
  | .set p pos size => u.setPart p pos size
  | .unset p => u.unsetPart p

def Uriaa.writeAll (u : Uriaa) (writes : List UriWrite) : Uriaa := writes.foldl Uriaa.write u

/-- The component is the text between two positions. -/
def UriWrite.slice (p : UriPart) (pos pos' : Nat) : UriWrite := .set p pos (pos' - pos)

end Httpaa

namespace Httpaa.Text

open Recogniser

/-! ### Loops over characters -/

def escaped : List UInt8 → Bool × List UInt8
  | [] => (false, [])
  | c :: rest =>
      if c = ch '%' then
        match rest with
        | [] => (false, [])
        | [_] => (false, c :: rest)
        | d :: e :: rest' =>
            if hexChars d && hexChars e then (true, rest') else (false, c :: rest)
      else (false, c :: rest)

/-- The condition of the loops whose class has escapes. -/
def inClass (P : UInt8 → Bool) : List UInt8 → Bool × List UInt8
  | [] => (false, [])
  | c :: rest => if P c then (true, c :: rest) else escaped (c :: rest)

theorem escaped_suffix (s : List UInt8) : (escaped s).2 <:+ s := by
  rcases s with _ | ⟨c, _ | ⟨d, _ | ⟨e, rest⟩⟩⟩
  · simp [escaped]
  · by_cases hc : c = ch '%' <;> simp [escaped, hc]
  · by_cases hc : c = ch '%' <;> simp [escaped, hc]
  · by_cases hc : c = ch '%'
    · by_cases hhex : (hexChars d && hexChars e) = true
      · simpa [escaped, hc, hhex] using
          ((List.suffix_cons e rest).trans (List.suffix_cons d _)).trans (List.suffix_cons _ _)
      · simp [escaped, hc, hhex]
    · simp [escaped, hc]

theorem inClass_suffix (P : UInt8 → Bool) (s : List UInt8) : (inClass P s).2 <:+ s := by
  cases s with
  | nil => exact List.suffix_refl []
  | cons c rest =>
      by_cases hc : P c = true
      · simp [inClass, hc]
      · simpa [inClass, hc] using escaped_suffix (c :: rest)

theorem inClass_ne_nil {P : UInt8 → Bool} {s : List UInt8} (h : (inClass P s).1 = true) :
    s ≠ [] := by
  rintro rfl
  cases h

/-- The loops whose class has escapes. The character behind an escape is passed by unchecked. -/
def chars (P : UInt8 → Bool) (s : List UInt8) : List UInt8 :=
  if _h : (inClass P s).1 = true then chars P (inClass P s).2.tail else (inClass P s).2
termination_by s.length
decreasing_by
  have hle := (inClass_suffix P s).length_le
  have hpos := List.length_pos_iff.mpr (inClass_ne_nil _h)
  rw [List.length_tail]
  omega

theorem chars_suffix (P : UInt8 → Bool) (s : List UInt8) : chars P s <:+ s := by
  fun_induction chars P s with
  | case1 s h ih => exact (ih.trans (List.tail_suffix _)).trans (inClass_suffix P s)
  | case2 s h => exact inClass_suffix P s

/-- A character of one class and then the loop of another. -/
def classThenChars (P Q : UInt8 → Bool) (s : List UInt8) : Bool × List UInt8 :=
  if (inClass P s).1 then (true, chars Q (inClass P s).2.tail) else inClass P s

theorem classThenChars_suffix (P Q : UInt8 → Bool) (s : List UInt8) :
    (classThenChars P Q s).2 <:+ s := by
  by_cases h : (inClass P s).1 = true
  · simpa [classThenChars, h] using
      ((chars_suffix Q _).trans (List.tail_suffix _)).trans (inClass_suffix P s)
  · simpa [classThenChars, h] using inClass_suffix P s

/-! ### Host names and addresses -/

/-- A label behind the character `prev`: it may not end in `-`, except at the end of the text. -/
def labelTail (prev : UInt8) : List UInt8 → Bool × List UInt8
  | [] => (true, [])
  | c :: rest => if labelChars c then labelTail c rest else (prev ≠ ch '-', c :: rest)

/-- `domainlabel` and `toplabel`. -/
def label (first : UInt8 → Bool) : List UInt8 → Bool × List UInt8
  | [] => (false, [])
  | c :: rest =>
      if first c && (labelTail c rest).1 then (true, (labelTail c rest).2) else (false, c :: rest)

private theorem labelTail_suffix (prev : UInt8) (s : List UInt8) : (labelTail prev s).2 <:+ s := by
  induction s generalizing prev with
  | nil => exact List.suffix_refl []
  | cons c rest ih =>
      by_cases hc : labelChars c = true
      · simpa [labelTail, hc] using (ih c).trans (List.suffix_cons c rest)
      · simp [labelTail, hc]

theorem label_suffix (first : UInt8 → Bool) (s : List UInt8) : (label first s).2 <:+ s := by
  cases s with
  | nil => exact List.suffix_refl []
  | cons c rest =>
      by_cases hc : (first c && (labelTail c rest).1) = true
      · simpa [label, hc] using (labelTail_suffix c rest).trans (List.suffix_cons c rest)
      · simp [label, hc]

/-- The loop of `hostname`: the start of the last domain label. -/
def lastLabel (s labelStart : List UInt8) : List UInt8 :=
  if (label alphanumChars s).1 then
    if _h : (isChar (ch '.') (label alphanumChars s).2).1 = true then
      lastLabel (isChar (ch '.') (label alphanumChars s).2).2 s
    else s
  else labelStart
termination_by s.length
decreasing_by
  have hle := (label_suffix alphanumChars s).length_le
  cases hrest : (label alphanumChars s).2 with
  | nil => simp [hrest, isChar] at _h
  | cons c rest =>
      rw [hrest, List.length_cons] at hle
      by_cases hc : ch '.' = c
      · simp only [isChar, hc, if_true]
        omega
      · simp [hrest, isChar, hc] at _h

theorem lastLabel_suffix {s labelStart t : List UInt8} (hs : s <:+ t) (hstart : labelStart <:+ t) :
    lastLabel s labelStart <:+ t := by
  fun_induction lastLabel s labelStart with
  | case1 s labelStart hlabel hdot ih =>
      exact ih (((isChar_suffix _ _).trans (label_suffix _ _)).trans hs) hs
  | case2 s labelStart hlabel hdot => exact hs
  | case3 s labelStart hlabel => exact hstart

def hostname (s : List UInt8) : Bool × List UInt8 :=
  let top := label alphaChars (lastLabel s s)
  if top.1 then (true, (isChar (ch '.') top.2).2) else (false, s)

theorem hostname_suffix (s : List UInt8) : (hostname s).2 <:+ s := by
  by_cases htop : (label alphaChars (lastLabel s s)).1 = true
  · simpa [hostname, htop] using ((isChar_suffix _ _).trans (label_suffix _ _)).trans
      (lastLabel_suffix (List.suffix_refl s) (List.suffix_refl s))
  · simp [hostname, htop]

def ipv4Loop : Nat → Nat → List UInt8 → Nat → Nat × List UInt8
  | 0, _, s, isDigit => (isDigit, s)
  | turns + 1, i, s, isDigit =>
      if digitChars (s.headD 0) then
        if s.tail = [] then (isDigit, [])
        else
          let rest := s.tail.dropWhile digitChars
          if i < 3 then
            if (isChar (ch '.') rest).1 then
              ipv4Loop turns (i + 1) (isChar (ch '.') rest).2 (isDigit + 1)
            else (isDigit, rest)
          else ipv4Loop turns (i + 1) rest (isDigit + 1)
      else ipv4Loop turns (i + 1) s isDigit

private theorem ipv4Loop_suffix (turns i : Nat) (s : List UInt8) (isDigit : Nat) :
    (ipv4Loop turns i s isDigit).2 <:+ s := by
  fun_induction ipv4Loop turns i s isDigit with
  | case1 => exact List.suffix_refl _
  | case2 => exact List.nil_suffix
  | case3 i s isDigit turns hdigit htail rest hi hdot ih =>
      exact ((ih.trans (isChar_suffix _ _)).trans (List.dropWhile_suffix _)).trans
        (List.tail_suffix _)
  | case4 i s isDigit turns hdigit htail rest hi hdot =>
      exact (List.dropWhile_suffix _).trans (List.tail_suffix _)
  | case5 i s isDigit turns hdigit htail rest hi ih =>
      exact (ih.trans (List.dropWhile_suffix _)).trans (List.tail_suffix _)
  | case6 i s isDigit turns hdigit ih => exact ih

def ipv4address (s : List UInt8) : Bool × List UInt8 :=
  if (ipv4Loop 4 0 s 0).1 = 4 then (true, (ipv4Loop 4 0 s 0).2) else (false, s)

theorem ipv4address_suffix (s : List UInt8) : (ipv4address s).2 <:+ s := by
  by_cases h : (ipv4Loop 4 0 s 0).1 = 4
  · simpa [ipv4address, h] using ipv4Loop_suffix 4 0 s 0
  · simp [ipv4address, h]

/-! ### Path segments -/

theorem isChar_length {x : UInt8} {s : List UInt8} (h : (isChar x s).1 = true) :
    (isChar x s).2.length < s.length := by
  cases s with
  | nil => cases h
  | cons y rest =>
      by_cases hx : x = y
      · simp [isChar, hx]
      · simp [isChar, hx] at h

def params (s : List UInt8) : List UInt8 :=
  if _h : (isChar (ch ';') s).1 = true then params (chars pcharChars (isChar (ch ';') s).2)
  else s
termination_by s.length
decreasing_by
  exact Nat.lt_of_le_of_lt (chars_suffix _ _).length_le (isChar_length _h)

private theorem params_suffix (s : List UInt8) : params s <:+ s := by
  fun_induction params s with
  | case1 s h ih => exact (ih.trans (chars_suffix _ _)).trans (isChar_suffix _ _)
  | case2 s h => exact List.suffix_refl s

def segment (s : List UInt8) : List UInt8 := params (chars pcharChars s)

theorem segment_suffix (s : List UInt8) : segment s <:+ s :=
  (params_suffix _).trans (chars_suffix _ _)

def segments (s : List UInt8) : List UInt8 :=
  if _h : (isChar (ch '/') s).1 = true then segments (segment (isChar (ch '/') s).2) else s
termination_by s.length
decreasing_by
  exact Nat.lt_of_le_of_lt (segment_suffix _).length_le (isChar_length _h)

theorem segments_suffix (s : List UInt8) : segments s <:+ s := by
  fun_induction segments s with
  | case1 s h ih => exact (ih.trans (segment_suffix _)).trans (isChar_suffix _ _)
  | case2 s h => exact List.suffix_refl s

/-! ### Productions -/

def schemeRun : List UInt8 → Bool × List UInt8
  | [] => (false, [])
  | x :: rest =>
      if alphaChars x then (true, rest.dropWhile schemeChars) else (false, x :: rest)

theorem schemeRun_suffix (s : List UInt8) : (schemeRun s).2 <:+ s := by
  cases s with
  | nil => exact List.suffix_refl []
  | cons x rest =>
      by_cases hx : alphaChars x = true
      · simpa [schemeRun, hx] using (List.dropWhile_suffix _).trans (List.suffix_cons x rest)
      · simp [schemeRun, hx]

abbrev Production := Recogniser UInt8 UriWrite

def char (c : Char) : Production := lift (isChar (ch c))

def scheme : Production := noting (.slice .scheme) (lift schemeRun)

def opaquePart : Production :=
  noting (.slice .opaquePart) (lift (classThenChars uricNoSlashChars uricChars))

def regName : Production := lift (classThenChars regNameChars regNameChars)

def host : Production :=
  attempt (noting (.slice .host) (orElse (lift hostname) (lift ipv4address)))

def port : Production := attempt <| noting (.slice .port) <| lift fun s =>
  (digitChars (s.headD 0), s.dropWhile digitChars)

def hostport : Production := attempt (andTry host (andThen (char ':') port))

/-- What `server` does up to the `@`. -/
def userinfoAt : Production :=
  attempt (noting (fun pos pos' => .set .userinfo pos (pos' - pos - 1))
    (andThen (lift fun s => (true, chars userinfoChars s)) (char '@')))

def server : Production :=
  always (attempt (notingFailure (.unset .userinfo) (both (fun _ isHostport => isHostport)
    userinfoAt hostport)))

def authority : Production := attempt (noting (.slice .authority) (orElse server regName))

def absPath : Production :=
  attempt (noting (.slice .absPath) (andThen (char '/')
    (lift fun s => (true, segments (segment s)))))

def netPath : Production :=
  attempt (noting (.slice .netPath)
    (andTry (andThen (andThen (char '/') (char '/')) authority) absPath))

def relPath : Production :=
  attempt (noting (.slice .relPath)
    (andTry (lift (classThenChars relSegmentChars relSegmentChars)) absPath))

/-- `query` and `fragment`. -/
def uricPart (p : UriPart) : Production :=
  noting (.slice p) (lift fun s => (true, chars uricChars s))

def questionQuery : Production := andThen (char '?') (uricPart .query)

def hashFragment : Production := andThen (char '#') (uricPart .fragment)

def hierPart : Production :=
  attempt (both (fun isPath _ => isPath) (orElse netPath absPath) questionQuery)

def relativeURI : Production :=
  attempt (both (fun isPath _ => isPath) (orElse (orElse netPath absPath) relPath) questionQuery)

def absoluteURI : Production :=
  attempt (andThen scheme
    (andThen (notingFailure (.unset .scheme) (char ':')) (orElse hierPart opaquePart)))

def uriReference : Production :=
  attempt (both or (orElse absoluteURI relativeURI) hashFragment)

/-! ### Every production leaves the cursor in the text -/

theorem char_advances (c : Char) : Advances (char c) := .lift (isChar_suffix _)

theorem scheme_advances : Advances scheme := .noting (.lift schemeRun_suffix)

private theorem opaquePart_advances : Advances opaquePart :=
  .noting (.lift (classThenChars_suffix _ _))

theorem regName_advances : Advances regName := .lift (classThenChars_suffix _ _)

theorem host_advances : Advances host :=
  .attempt (.noting (.orElse (.lift hostname_suffix) (.lift ipv4address_suffix)))

private theorem port_advances : Advances port :=
  .attempt (.noting (.lift fun _ => List.dropWhile_suffix _))

private theorem hostport_advances : Advances hostport :=
  .attempt (.andTry host_advances (.andThen (char_advances _) port_advances))

theorem userinfoAt_advances : Advances userinfoAt :=
  .attempt (.noting (.andThen (.lift fun _ => chars_suffix _ _) (char_advances _)))

theorem server_advances : Advances server :=
  .always (.attempt (.notingFailure (.both userinfoAt_advances hostport_advances)))

theorem authority_advances : Advances authority :=
  .attempt (.noting (.orElse server_advances regName_advances))

theorem absPath_advances : Advances absPath :=
  .attempt (.noting (.andThen (char_advances _)
    (.lift fun _ => (segments_suffix _).trans (segment_suffix _))))

theorem netPath_advances : Advances netPath :=
  .attempt (.noting (.andTry (.andThen (.andThen (char_advances _) (char_advances _))
    authority_advances) absPath_advances))

theorem relPath_advances : Advances relPath :=
  .attempt (.noting (.andTry (.lift (classThenChars_suffix _ _)) absPath_advances))

private theorem uricPart_advances (p : UriPart) : Advances (uricPart p) :=
  .noting (.lift fun _ => chars_suffix _ _)

private theorem questionQuery_advances : Advances questionQuery :=
  .andThen (char_advances _) (uricPart_advances _)

private theorem hashFragment_advances : Advances hashFragment :=
  .andThen (char_advances _) (uricPart_advances _)

theorem hierPart_advances : Advances hierPart :=
  .attempt (.both (.orElse netPath_advances absPath_advances) questionQuery_advances)

theorem relativeURI_advances : Advances relativeURI :=
  .attempt (.both (.orElse (.orElse netPath_advances absPath_advances) relPath_advances)
    questionQuery_advances)

theorem absoluteURI_advances : Advances absoluteURI :=
  .attempt (.andThen scheme_advances (.andThen (.notingFailure (char_advances _))
    (.orElse hierPart_advances opaquePart_advances)))

theorem uriReference_advances : Advances uriReference :=
  .attempt (.both (.orElse absoluteURI_advances relativeURI_advances) hashFragment_advances)

end Httpaa.Text
