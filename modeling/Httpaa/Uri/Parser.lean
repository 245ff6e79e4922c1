import Httpaa.Strings.Stringaa

/-!
# The productions of RFC 2396

The recognisers of `uriaa_rfc2396.h`, one definition for each function, over the cursor of
`uri_reference->uri`. A loop that ran out of its budget would have no value; the budget is the
number of characters in the text, which is enough because every iteration moves the cursor.
-/

namespace Httpaa

/-! ### Character classes -/

def digitChars (c : UInt8) : Bool := ch '0' ≤ c && c ≤ ch '9'

def lowalphaChars (c : UInt8) : Bool := ch 'a' ≤ c && c ≤ ch 'z'

def upalphaChars (c : UInt8) : Bool := ch 'A' ≤ c && c ≤ ch 'Z'

def alphaChars (c : UInt8) : Bool := lowalphaChars c || upalphaChars c

def alphanumChars (c : UInt8) : Bool := alphaChars c || digitChars c

def hexChars (c : UInt8) : Bool :=
  digitChars c || (ch 'A' ≤ c && c ≤ ch 'F') || (ch 'a' ≤ c && c ≤ ch 'f')

def markChars (c : UInt8) : Bool :=
  c == ch '-' || c == ch '_' || c == ch '.' || c == ch '!' || c == ch '~' || c == ch '*' ||
    c == ch '\'' || c == ch '(' || c == ch ')'

def unreservedChars (c : UInt8) : Bool := alphanumChars c || markChars c

def reservedChars (c : UInt8) : Bool :=
  c == ch ';' || c == ch '/' || c == ch '?' || c == ch ':' || c == ch '@' || c == ch '&' ||
    c == ch '=' || c == ch '+' || c == ch '$' || c == ch ','

/- The classes below are the macros without their `ESCAPED_CHARS` alternative, which moves the
cursor and is tried by `inClass`. -/

def uricChars (c : UInt8) : Bool := reservedChars c || unreservedChars c

def pcharChars (c : UInt8) : Bool :=
  unreservedChars c || c == ch ':' || c == ch '@' || c == ch '&' || c == ch '=' || c == ch '+' ||
    c == ch '$' || c == ch ','

def userinfoChars (c : UInt8) : Bool :=
  unreservedChars c || c == ch ';' || c == ch ':' || c == ch '&' || c == ch '=' || c == ch '+' ||
    c == ch '$' || c == ch ','

def regNameChars (c : UInt8) : Bool :=
  unreservedChars c || c == ch '$' || c == ch ',' || c == ch ';' || c == ch ':' || c == ch '@' ||
    c == ch '&' || c == ch '=' || c == ch '+'

def schemeChars (c : UInt8) : Bool :=
  alphaChars c || digitChars c || c == ch '+' || c == ch '-' || c == ch '.'

def relSegmentChars (c : UInt8) : Bool :=
  unreservedChars c || c == ch ';' || c == ch '@' || c == ch '&' || c == ch '=' || c == ch '+' ||
    c == ch '$' || c == ch ','

def uricNoSlashChars (c : UInt8) : Bool :=
  unreservedChars c || c == ch ';' || c == ch '?' || c == ch ':' || c == ch '@' || c == ch '&' ||
    c == ch '=' || c == ch '+' || c == ch '$' || c == ch ','

/-- Inside a label of a host name. -/
def labelChars (c : UInt8) : Bool := alphanumChars c || c == ch '-'

/-! ### The components of a reference -/

/-- The components of `uriaa` next to its text `uri`. -/
inductive UriPart
  | scheme | authority | userinfo | host | port | path | netPath | absPath | relPath | opaquePart
  | query | fragment
deriving DecidableEq, Repr

structure Uriaa where
  uri : Stringaa := {}
  part : UriPart → Stringaa := fun _ => {}

/-- The assignments with which a production sets its component to `size` characters from `pos`
on. -/
def Uriaa.setPart (u : Uriaa) (p : UriPart) (pos size : Nat) : Uriaa :=
  let component := { u.part p with
    buf := u.uri.buf.map fun buf => buf.add pos
    bufSize := size
    writePos := if size ≠ 0 then size - (u.part p).isNullTerminated.toNat else 0
    isInit := true }
  { u with part := fun q => if q = p then component else u.part q }

/-- The assignments with which a component is taken back. -/
def Uriaa.unsetPart (u : Uriaa) (p : UriPart) : Uriaa :=
  let component := { u.part p with bufSize := 0, writePos := 0, isInit := false }
  { u with part := fun q => if q = p then component else u.part q }

/-- `uri->read_pos = pos`. -/
def Uriaa.rewind (u : Uriaa) (pos : Nat) : Uriaa := { u with uri := u.uri.seek pos }

/-- `stringaa_is_char(uri, c)`. -/
def Uriaa.isChar (h : Heap) (u : Uriaa) (c : UInt8) : Option (Bool × Uriaa) := do
  let (isChar, uri) ← stringaaIsChar h u.uri c
  return (isChar, { u with uri })

/-! ### Loops over characters -/

/-- `escaped`. A `%` at the end of the text is passed by, and not rewound to. -/
def escaped (h : Heap) (uri : Stringaa) : Option (Bool × Stringaa) := do
  let pos := uri.readPos
  let c ← stringaaGetChar h uri
  if c = ch '%' then
    let (more, uri) := stringaaNextReadPos uri
    if more then
      let c ← stringaaGetChar h uri
      if hexChars c then
        let (more, uri) := stringaaNextReadPos uri
        if more then
          let c ← stringaaGetChar h uri
          if hexChars c then return (true, (stringaaNextReadPos uri).2)
          else return (false, uri.seek pos)
        else return (false, uri.seek pos)
      else return (false, uri.seek pos)
    else return (false, uri)
  else return (false, uri)

/-- The condition of the loops whose class has escapes: the character is in the class, or `escaped`
succeeds, which leaves the cursor behind the escape. -/
def inClass (h : Heap) (P : UInt8 → Bool) (uri : Stringaa) : Option (Bool × Stringaa) := do
  let c ← stringaaGetChar h uri
  if P c then return (true, uri) else escaped h uri

/-- `while (CLASS) { if (next) c = get; else break; }` for a class with escapes. -/
def charsLoop (h : Heap) (P : UInt8 → Bool) : Nat → Stringaa → Option Stringaa
  | 0, _ => none
  | fuel + 1, uri => do
    let (isClass, uri) ← inClass h P uri
    if isClass then
      let (more, uri) := stringaaNextReadPos uri
      if more then charsLoop h P fuel uri else return uri
    else return uri

/-- The same loop for a class without escapes. -/
def runLoop (h : Heap) (P : UInt8 → Bool) : Nat → Stringaa → Option Stringaa
  | 0, _ => none
  | fuel + 1, uri => do
    let c ← stringaaGetChar h uri
    if P c then
      let (more, uri) := stringaaNextReadPos uri
      if more then runLoop h P fuel uri else return uri
    else return uri

/-- A loop of the first kind on the text of a reference. -/
def Uriaa.chars (h : Heap) (P : UInt8 → Bool) (u : Uriaa) : Option Uriaa := do
  return { u with uri := ← charsLoop h P u.uri.budget u.uri }

/-- A loop of the second kind on the text of a reference. -/
def Uriaa.run (h : Heap) (P : UInt8 → Bool) (u : Uriaa) : Option Uriaa := do
  return { u with uri := ← runLoop h P u.uri.budget u.uri }

/-- `if (is) f` for a production `f`: its result, and 0 when it is not called. -/
def Uriaa.whenDo (is : Bool) (u : Uriaa) (f : Uriaa → Option (Bool × Uriaa)) :
    Option (Bool × Uriaa) :=
  if is then f u else some (false, u)

/-! ### Productions, each after those it calls -/

/-- A character of the class `P` and then the loop over the class `Q`, as in `opaque_part`,
`rel_segment` and `reg_name`. -/
def classThenChars (h : Heap) (P Q : UInt8 → Bool) (u : Uriaa) : Option (Bool × Uriaa) := do
  let (isClass, uri) ← inClass h P u.uri
  let u := { u with uri }
  if isClass then
    let (more, uri) := stringaaNextReadPos u.uri
    let u := { u with uri }
    if more then return (true, ← u.chars h Q) else return (true, u)
  else return (false, u)

def opaquePart (h : Heap) (u : Uriaa) : Option (Bool × Uriaa) := do
  let pos := u.uri.readPos
  let (isOpaquePart, u) ← classThenChars h uricNoSlashChars uricChars u
  if isOpaquePart then return (true, u.setPart .opaquePart pos (u.uri.readPos - pos))
  else return (false, u)

def relSegment (h : Heap) (u : Uriaa) : Option (Bool × Uriaa) :=
  classThenChars h relSegmentChars relSegmentChars u

def regName (h : Heap) (u : Uriaa) : Option (Bool × Uriaa) :=
  classThenChars h regNameChars regNameChars u

def scheme (h : Heap) (u : Uriaa) : Option (Bool × Uriaa) := do
  let pos := u.uri.readPos
  let c ← stringaaGetChar h u.uri
  if alphaChars c then
    let (more, uri) := stringaaNextReadPos u.uri
    let u := { u with uri }
    let u ← if more then u.run h schemeChars else some u
    return (true, u.setPart .scheme pos (u.uri.readPos - pos))
  else return (false, u)

def userinfo (h : Heap) (u : Uriaa) : Option (Bool × Uriaa) := do
  return (true, ← u.chars h userinfoChars)

/-- The loop of `domainlabel` and `toplabel` behind their first character. -/
def labelLoop (h : Heap) : Nat → Stringaa → Option (Bool × Stringaa)
  | 0, _ => none
  | fuel + 1, uri => do
    let (more, uri) := stringaaNextReadPos uri
    if more then
      let c ← stringaaGetChar h uri
      if labelChars c then labelLoop h fuel uri
      else return ((← uri.charAt h (uri.readPos - 1)) ≠ ch '-', uri)
    else return (true, uri)

/-- `domainlabel` and `toplabel`, which differ in the class of the first character. -/
def label (h : Heap) (first : UInt8 → Bool) (u : Uriaa) : Option (Bool × Uriaa) := do
  let pos := u.uri.readPos
  let c ← stringaaGetChar h u.uri
  if first c then
    let (isLabel, uri) ← labelLoop h u.uri.budget u.uri
    let u := { u with uri }
    return (isLabel, if isLabel then u else u.rewind pos)
  else return (false, u.rewind pos)

def domainlabel (h : Heap) (u : Uriaa) : Option (Bool × Uriaa) :=
  label h alphanumChars u

def toplabel (h : Heap) (u : Uriaa) : Option (Bool × Uriaa) :=
  label h alphaChars u

/-- The loop of `hostname`: where the last domain label starts. -/
def hostnameLoop (h : Heap) : Nat → Uriaa → Nat → Option (Nat × Uriaa)
  | 0, _, _ => none
  | fuel + 1, u, labelPos => do
    let pos1 := u.uri.readPos
    let (isLabel, u) ← domainlabel h u
    if isLabel then
      let (isDot, u) ← u.isChar h (ch '.')
      if isDot then hostnameLoop h fuel u pos1 else return (pos1, u)
    else return (labelPos, u)

def hostname (h : Heap) (u : Uriaa) : Option (Bool × Uriaa) := do
  let pos := u.uri.readPos
  let (labelPos, u) ← hostnameLoop h u.uri.budget u pos
  let (isToplabel, u) ← toplabel h (u.rewind labelPos)
  if isToplabel then
    let (_, u) ← u.isChar h (ch '.')
    return (true, u)
  else return (false, u.rewind pos)

/-- The loop of `IPv4address` from its `i`-th number on: the count `is_digit`. A character that is
no digit uses up a turn, and a text that ends right behind the first digit of a number ends the
loop. -/
def ipv4Loop (h : Heap) : Nat → Nat → Uriaa → Nat → Option (Nat × Uriaa)
  | 0, _, u, isDigit => return (isDigit, u)
  | turns + 1, i, u, isDigit => do
    let c ← stringaaGetChar h u.uri
    if digitChars c then
      let (more, uri) := stringaaNextReadPos u.uri
      let u := { u with uri }
      if more then
        let u ← u.run h digitChars
        if i < 3 then
          let (isDot, u) ← u.isChar h (ch '.')
          if isDot then ipv4Loop h turns (i + 1) u (isDigit + 1) else return (isDigit, u)
        else ipv4Loop h turns (i + 1) u (isDigit + 1)
      else return (isDigit, u)
    else ipv4Loop h turns (i + 1) u isDigit

def ipv4address (h : Heap) (u : Uriaa) : Option (Bool × Uriaa) := do
  let pos := u.uri.readPos
  let (isDigit, u) ← ipv4Loop h 4 0 u 0
  if isDigit = 4 then return (true, u) else return (false, u.rewind pos)

def host (h : Heap) (u : Uriaa) : Option (Bool × Uriaa) := do
  let pos := u.uri.readPos
  let (isHostname, u) ← hostname h u
  let (isIPv4address, u) ← u.whenDo (!isHostname) (ipv4address h)
  if isHostname || isIPv4address then
    return (true, u.setPart .host pos (u.uri.readPos - pos))
  else return (false, u.rewind pos)

def port (h : Heap) (u : Uriaa) : Option (Bool × Uriaa) := do
  let pos := u.uri.readPos
  let c ← stringaaGetChar h u.uri
  let u ← u.run h digitChars
  if digitChars c then return (true, u.setPart .port pos (u.uri.readPos - pos))
  else return (false, u.rewind pos)

def hostport (h : Heap) (u : Uriaa) : Option (Bool × Uriaa) := do
  let pos := u.uri.readPos
  let (isHost, u) ← host h u
  if isHost then
    let (isColon, u) ← u.isChar h (ch ':')
    let (_, u) ← u.whenDo isColon (port h)
    return (true, u)
  else return (false, u.rewind pos)

/-- `server`, which succeeds also without a host. -/
def server (h : Heap) (u : Uriaa) : Option (Bool × Uriaa) := do
  let pos := u.uri.readPos
  let (isUserinfo, u) ← userinfo h u
  let (isUserinfo, u) ← u.whenDo isUserinfo fun u => u.isChar h (ch '@')
  let u :=
    if isUserinfo then u.setPart .userinfo pos (u.uri.readPos - pos - 1) else u.rewind pos
  let (isHostport, u) ← hostport h u
  if isHostport then return (true, u) else return (true, (u.rewind pos).unsetPart .userinfo)

def authority (h : Heap) (u : Uriaa) : Option (Bool × Uriaa) := do
  let pos := u.uri.readPos
  let (isServer, u) ← server h u
  let (isRegName, u) ← u.whenDo (!isServer) (regName h)
  if isServer || isRegName then
    return (true, u.setPart .authority pos (u.uri.readPos - pos))
  else return (false, u.rewind pos)

def param (h : Heap) (u : Uriaa) : Option (Bool × Uriaa) := do
  return (true, ← u.chars h pcharChars)

def paramsLoop (h : Heap) : Nat → Uriaa → Option Uriaa
  | 0, _ => none
  | fuel + 1, u => do
    let (isSemicolon, u) ← u.isChar h (ch ';')
    let (isParam, u) ← u.whenDo isSemicolon (param h)
    if isParam then paramsLoop h fuel u else return u

def segment (h : Heap) (u : Uriaa) : Option (Bool × Uriaa) := do
  let u ← u.chars h pcharChars
  return (true, ← paramsLoop h u.uri.budget u)

def segmentsLoop (h : Heap) : Nat → Uriaa → Option Uriaa
  | 0, _ => none
  | fuel + 1, u => do
    let (isSlash, u) ← u.isChar h (ch '/')
    let (isSegment, u) ← u.whenDo isSlash (segment h)
    if isSegment then segmentsLoop h fuel u else return u

def pathSegments (h : Heap) (u : Uriaa) : Option (Bool × Uriaa) := do
  let pos := u.uri.readPos
  let (isSegment, u) ← segment h u
  if isSegment then return (true, ← segmentsLoop h u.uri.budget u)
  else return (false, u.rewind pos)

def absPath (h : Heap) (u : Uriaa) : Option (Bool × Uriaa) := do
  let pos := u.uri.readPos
  let (isSlash, u) ← u.isChar h (ch '/')
  let (isPathSegments, u) ← u.whenDo isSlash (pathSegments h)
  if isPathSegments then return (true, u.setPart .absPath pos (u.uri.readPos - pos))
  else return (false, u.rewind pos)

def netPath (h : Heap) (u : Uriaa) : Option (Bool × Uriaa) := do
  let pos := u.uri.readPos
  let (isSlash, u) ← u.isChar h (ch '/')
  let (isSlash, u) ← u.whenDo isSlash fun u => u.isChar h (ch '/')
  let (isAuthority, u) ← u.whenDo isSlash (authority h)
  let (_, u) ← u.whenDo isAuthority (absPath h)
  if isAuthority then return (true, u.setPart .netPath pos (u.uri.readPos - pos))
  else return (false, u.rewind pos)

def relPath (h : Heap) (u : Uriaa) : Option (Bool × Uriaa) := do
  let pos := u.uri.readPos
  let (isRelSegment, u) ← relSegment h u
  let (_, u) ← u.whenDo isRelSegment (absPath h)
  if isRelSegment then return (true, u.setPart .relPath pos (u.uri.readPos - pos))
  else return (false, u.rewind pos)

/-- `query` and `fragment`, which differ in the component they set. -/
def uricPart (h : Heap) (p : UriPart) (u : Uriaa) : Option (Bool × Uriaa) := do
  let pos := u.uri.readPos
  let u ← u.chars h uricChars
  return (true, u.setPart p pos (u.uri.readPos - pos))

def query (h : Heap) (u : Uriaa) : Option (Bool × Uriaa) :=
  uricPart h .query u

def fragment (h : Heap) (u : Uriaa) : Option (Bool × Uriaa) :=
  uricPart h .fragment u

def hierPart (h : Heap) (u : Uriaa) : Option (Bool × Uriaa) := do
  let pos := u.uri.readPos
  let (isNetPath, u) ← netPath h u
  let (isAbsPath, u) ← u.whenDo (!isNetPath) (absPath h)
  let (isQuestion, u) ← u.isChar h (ch '?')
  let (_, u) ← u.whenDo isQuestion (query h)
  if isNetPath || isAbsPath then return (true, u) else return (false, u.rewind pos)

def relativeURI (h : Heap) (u : Uriaa) : Option (Bool × Uriaa) := do
  let pos := u.uri.readPos
  let (isNetPath, u) ← netPath h u
  let (isAbsPath, u) ← u.whenDo (!isNetPath) (absPath h)
  let (isRelPath, u) ← u.whenDo (!isNetPath && !isAbsPath) (relPath h)
  let (isQuestion, u) ← u.isChar h (ch '?')
  let (_, u) ← u.whenDo isQuestion (query h)
  if isNetPath || isAbsPath || isRelPath then return (true, u) else return (false, u.rewind pos)

def absoluteURI (h : Heap) (u : Uriaa) : Option (Bool × Uriaa) := do
  let pos := u.uri.readPos
  let (isScheme, u) ← scheme h u
  if isScheme then
    let (isColon, u) ← u.isChar h (ch ':')
    if isColon then
      let (isHierPart, u) ← hierPart h u
      let (isOpaquePart, u) ← u.whenDo (!isHierPart) (opaquePart h)
      if isHierPart || isOpaquePart then return (true, u) else return (false, u.rewind pos)
    else return (false, (u.unsetPart .scheme).rewind pos)
  else return (false, u.rewind pos)

def uriReference (h : Heap) (u : Uriaa) : Option (Bool × Uriaa) := do
  let pos := u.uri.readPos
  let (isAbsoluteURI, u) ← absoluteURI h u
  let (isRelativeURI, u) ← u.whenDo (!isAbsoluteURI) (relativeURI h)
  let (isHash, u) ← u.isChar h (ch '#')
  let (isFragment, u) ← u.whenDo isHash (fragment h)
  if isAbsoluteURI || isRelativeURI || isFragment then return (true, u)
  else return (false, u.rewind pos)

def uriaaCheckUrl (h : Heap) (u : Uriaa) : Option (Bool × Uriaa) :=
  if u.uri.buf.isSome ∧ 0 < u.uri.writePos ∧ u.uri.isInit then uriReference h u
  else some (false, u)

end Httpaa
