import Httpaa.Foundation.Fuel
import Httpaa.Http.Scanners

/-!
# Quoted strings and comments

`http11_text` reports the character at the cursor and leaves it there, unless it is white space. So
the loops of `http11_quoted_string` and `http11_comment` never get past another character: they run
for ever, or they take white space, and brackets around white space, only.
-/

namespace Httpaa

open Recogniser Stringaa Fuel

/-! ### The functions of the source -/

def http11Text (h : Heap) (request : Stringaa) : Option (Bool × Stringaa) := do
  let c ← stringaaGetChar h request
  let (isLws, request) ← http11Lws h request
  return (!http11Ctl c || isLws, request)

/-- The two functions below; `p` is the class of the characters that end the text. -/
def textExcept (h : Heap) (p : UInt8 → Bool) (request : Stringaa) : Option (Bool × Stringaa) := do
  let c ← stringaaGetChar h request
  if p c then return (false, request) else http11Text h request

def isQuote (c : UInt8) : Bool := c == ch '"'

def isBracket (c : UInt8) : Bool := c == ch '(' || c == ch ')'

def http11Qdtext (h : Heap) : Stringaa → Option (Bool × Stringaa) := textExcept h isQuote

def http11Ctext (h : Heap) : Stringaa → Option (Bool × Stringaa) := textExcept h isBracket

def http11QuotedPair (h : Heap) (request : Stringaa) : Option (Bool × Stringaa) := do
  let c ← stringaaGetChar h request
  if c = ch '\\' then
    let request := (stringaaNextReadPos request).2
    let c ← stringaaGetChar h request
    if http11Char c then return (true, (stringaaNextReadPos request).2)
    else return (false, (stringaaPrevReadPos request).2)
  else return (false, request)

def quotedStringLoop (h : Heap) : Nat → Stringaa → Option Stringaa
  | 0, _ => none
  | fuel + 1, request => do
    let (isQdtext, request) ← http11Qdtext h request
    if isQdtext then quotedStringLoop h fuel request
    else
      let (isQuotedPair, request) ← http11QuotedPair h request
      if isQuotedPair then quotedStringLoop h fuel request else return request

def http11QuotedString (h : Heap) (fuel : Nat) (request : Stringaa) : Option (Bool × Stringaa) := do
  let pos := request.readPos
  let c ← stringaaGetChar h request
  if c = ch '"' then
    let request ← quotedStringLoop h fuel (stringaaNextReadPos request).2
    let c ← stringaaGetChar h request
    if c = ch '"' then return (true, (stringaaNextReadPos request).2)
    else return (false, request.seek pos)
  else return (false, request.seek pos)

mutual

def commentLoop (h : Heap) : Nat → Stringaa → Option Stringaa
  | 0, _ => none
  | fuel + 1, request => do
    let (isCtext, request) ← http11Ctext h request
    if isCtext then commentLoop h fuel request
    else
      let (isQuotedPair, request) ← http11QuotedPair h request
      if isQuotedPair then commentLoop h fuel request
      else
        let (isComment, request) ← http11Comment h fuel request
        if isComment then commentLoop h fuel request else return request

def http11Comment (h : Heap) : Nat → Stringaa → Option (Bool × Stringaa)
  | 0, _ => none
  | fuel + 1, request => do
    let pos := request.readPos
    let c ← stringaaGetChar h request
    if c = ch '(' then
      let request ← commentLoop h fuel (stringaaNextReadPos request).2
      let c ← stringaaGetChar h request
      if c = ch ')' then return (true, (stringaaNextReadPos request).2)
      else return (false, request.seek pos)
    else return (false, request.seek pos)

end

/-! ### The same on texts -/

namespace Text

def text (s : List UInt8) : Bool × List UInt8 :=
  (!http11Ctl (s.headD 0) || (lws s).1, (lws s).2)

/-- `http11_qdtext` and `http11_ctext`. -/
def textExcept (p : UInt8 → Bool) (s : List UInt8) : Bool × List UInt8 :=
  if p (s.headD 0) then (false, s) else text s

def quotedPair (s : List UInt8) : Bool × List UInt8 :=
  if s.headD 0 = ch '\\' then
    if http11Char (s.tail.headD 0) then (true, s.tail.tail) else (false, s)
  else (false, s)

def quotedStringLoop : Nat → List UInt8 → Option (List UInt8)
  | 0, _ => none
  | fuel + 1, s =>
      if (textExcept isQuote s).1 then quotedStringLoop fuel (textExcept isQuote s).2
      else if (quotedPair s).1 then quotedStringLoop fuel (quotedPair s).2
      else some s

/-- The end of both functions behind their loop, which has left `t` of `s`. -/
def closed (x : UInt8) (s t : List UInt8) : Bool × List UInt8 :=
  if t.headD 0 = x then (true, t.tail) else (false, s)

def quotedString (fuel : Nat) (s : List UInt8) : Option (Bool × List UInt8) :=
  if s.headD 0 = ch '"' then (quotedStringLoop fuel s.tail).map (closed (ch '"') s)
  else some (false, s)

mutual

def commentLoop : Nat → List UInt8 → Option (List UInt8)
  | 0, _ => none
  | fuel + 1, s =>
      if (textExcept isBracket s).1 then commentLoop fuel (textExcept isBracket s).2
      else if (quotedPair s).1 then commentLoop fuel (quotedPair s).2
      else (comment fuel s).bind fun r => if r.1 then commentLoop fuel r.2 else some r.2

def comment : Nat → List UInt8 → Option (Bool × List UInt8)
  | 0, _ => none
  | fuel + 1, s =>
      if s.headD 0 = ch '(' then (commentLoop fuel s.tail).map (closed (ch ')') s)
      else some (false, s)

end

end Text

section Tracks

variable {h : Heap} {s : Stringaa} {c : Cursor UInt8} {a : List UInt8} {p : UInt8 → Bool}

private theorem Text.textExcept_suffix (p : UInt8 → Bool) (s : List UInt8) :
    (textExcept p s).2 <:+ s := by
  rw [textExcept]
  split
  · exact List.suffix_refl s
  · exact lws_suffix s

theorem Tracks.text : Tracks h (http11Text h) Text.text := by
  constructor
  · intro s c hs
    have hlws := Tracks.lws.follows s c hs
    simp only [http11Text, hs.getChar, hlws, Option.bind_eq_bind, Option.bind_some]
    rfl
  · exact Text.lws_suffix

private theorem Tracks.textExcept : Tracks h (textExcept h p) (Text.textExcept p) := by
  constructor
  · intro s c hs
    simp only [Httpaa.textExcept, hs.getChar, Text.textExcept, Option.bind_eq_bind,
      Option.bind_some]
    by_cases hp : p (c.rest.headD 0) = true
    · rw [if_pos hp, if_pos hp, Cursor.to_self]
      rfl
    · rw [if_neg hp, if_neg hp]
      exact Tracks.text.follows s c hs
  · exact Text.textExcept_suffix p

private theorem Text.quotedPair_suffix (s : List UInt8) : (quotedPair s).2 <:+ s := by
  rw [quotedPair]
  split
  · split
    · exact (List.tail_suffix _).trans (List.tail_suffix s)
    · exact List.suffix_refl s
  · exact List.suffix_refl s

private theorem Tracks.quotedPair : Tracks h (http11QuotedPair h) Text.quotedPair := by
  constructor
  · intro s c hs
    have hself := List.suffix_refl c.rest
    have hnext := hs.next_to hself
    rw [Cursor.to_self] at hnext
    have htail := List.tail_suffix c.rest
    simp only [http11QuotedPair, hs.getChar, hnext, hs.getChar_to htail, hs.next_to htail,
      Text.quotedPair, Option.bind_eq_bind, Option.bind_some]
    by_cases hslash : c.rest.headD 0 = ch '\\'
    · rw [if_pos hslash, if_pos hslash]
      by_cases hchar : http11Char (c.rest.tail.headD 0) = true
      · rw [if_pos hchar, if_pos hchar]
        rfl
      · -- a byte above 127 stands behind the backslash
        rw [if_neg hchar, if_neg hchar, Cursor.to_self]
        have hone : 1 < c.rest.length := by
          rcases hrest : c.rest with _ | ⟨x, _ | ⟨y, t⟩⟩
          · simp [hrest, http11Char] at hchar
          · simp [hrest, http11Char] at hchar
          · simp
        have hlength := hs.length
        have hpos : (c.to c.rest.tail).pos = c.pos + 1 := by
          simp only [Cursor.to, List.length_tail]
          omega
        rw [hpos, prev_seek (by omega)]
        rfl
    · rw [if_neg hslash, if_neg hslash, Cursor.to_self]
      rfl
  · exact Text.quotedPair_suffix

private theorem Text.textExcept_eq_self {s : List UInt8} (hfail : ¬ (textExcept p s).1 = true) :
    (textExcept p s).2 = s := by
  rw [textExcept] at hfail ⊢
  split
  · rfl
  · next hp =>
    rw [if_neg hp, text, Bool.or_eq_true, not_or, Bool.not_eq_true] at hfail
    exact lws_takesLongest.unchanged s (Bool.eq_false_of_not_eq_true hfail.2)

private theorem Text.quotedPair_eq_self {s : List UInt8} (hfail : ¬ (quotedPair s).1 = true) :
    (quotedPair s).2 = s := by
  rw [quotedPair] at hfail ⊢
  split
  · next hslash =>
    split
    · next hchar =>
      rw [if_pos hslash, if_pos hchar] at hfail
      exact absurd rfl hfail
    · rfl
  · rfl

private theorem Text.quotedStringLoop_suffix {fuel : Nat} {s t : List UInt8}
    (h : quotedStringLoop fuel s = some t) : t <:+ s := by
  induction fuel generalizing s with
  | zero => cases h
  | succ fuel ih =>
      rw [quotedStringLoop] at h
      split at h
      · exact (ih h).trans (textExcept_suffix _ s)
      · split at h
        · exact (ih h).trans (quotedPair_suffix s)
        · cases h
          exact List.suffix_refl _

private theorem Text.comment_suffix (fuel : Nat) :
    (∀ s t, commentLoop fuel s = some t → t <:+ s) ∧
      ∀ s r, comment fuel s = some r → r.2 <:+ s := by
  induction fuel with
  | zero =>
      constructor
      · intro s t h
        cases h
      · intro s r h
        cases h
  | succ fuel ih =>
      obtain ⟨ihloop, ihcomment⟩ := ih
      constructor
      · intro s t h
        rw [commentLoop] at h
        split at h
        · exact (ihloop _ _ h).trans (textExcept_suffix _ s)
        · split at h
          · exact (ihloop _ _ h).trans (quotedPair_suffix s)
          · obtain ⟨r, hcomment, h⟩ := Option.bind_eq_some_iff.mp h
            have hr := ihcomment _ _ hcomment
            split at h
            · exact (ihloop _ _ h).trans hr
            · cases h
              exact hr
      · intro s r h
        rw [comment] at h
        split at h
        · obtain ⟨t, hloop, rfl⟩ := Option.map_eq_some_iff.mp h
          rw [closed]
          split
          · exact (List.tail_suffix t).trans ((ihloop _ _ hloop).trans (List.tail_suffix s))
          · exact List.suffix_refl s
        · cases h
          exact List.suffix_refl s

private theorem quotedStringLoop_eq (fuel : Nat) (hs : s.Shows h c) (ha : a <:+ c.rest) :
    quotedStringLoop h fuel (s.seek (c.to a).pos) =
      (Text.quotedStringLoop fuel a).map fun t => s.seek (c.to t).pos := by
  induction fuel generalizing a with
  | zero => rfl
  | succ fuel ih =>
      have hsuffix := Text.textExcept_suffix isQuote a
      have htext := Tracks.textExcept.follows.to (Text.textExcept_suffix isQuote) hs ha
      have hpair := Tracks.quotedPair.follows.to Text.quotedPair_suffix hs ha
      simp only [quotedStringLoop, http11Qdtext, htext, Text.quotedStringLoop, Option.bind_eq_bind,
        Option.bind_some]
      by_cases hok : (Text.textExcept isQuote a).1 = true
      · rw [if_pos hok, if_pos hok, ih (hsuffix.trans ha)]
      · rw [if_neg hok, if_neg hok, Text.textExcept_eq_self hok, hpair, Option.bind_some]
        by_cases hok' : (Text.quotedPair a).1 = true
        · rw [if_pos hok', if_pos hok', ih ((Text.quotedPair_suffix a).trans ha)]
        · rw [if_neg hok', if_neg hok', Text.quotedPair_eq_self hok']
          rfl

private theorem http11QuotedString_eq (fuel : Nat) (hs : s.Shows h c) :
    http11QuotedString h fuel (s.seek c.pos) =
      (Text.quotedString fuel c.rest).map fun r => (r.1, s.seek (c.to r.2).pos) := by
  have hnext := hs.next_to (List.suffix_refl c.rest)
  rw [Cursor.to_self] at hnext
  have htail := List.tail_suffix c.rest
  simp only [http11QuotedString, hs.getChar, hnext, quotedStringLoop_eq fuel hs htail,
    Text.quotedString, Option.bind_eq_bind, Option.bind_some]
  by_cases hquote : c.rest.headD 0 = ch '"'
  · rw [if_pos hquote, if_pos hquote]
    cases hloop : Text.quotedStringLoop fuel c.rest.tail with
    | none => rfl
    | some t =>
        have ht := (Text.quotedStringLoop_suffix hloop).trans htail
        simp only [Option.map_some, Option.bind_some, hs.getChar_to ht, hs.next_to ht, Text.closed]
        by_cases hend : t.headD 0 = ch '"'
        · rw [if_pos hend, if_pos hend]
          rfl
        · rw [if_neg hend, if_neg hend, Cursor.to_self]
          rfl
  · rw [if_neg hquote, if_neg hquote, Option.map_some, Cursor.to_self]
    rfl

private theorem http11Comment_to (fuel : Nat) (hs : s.Shows h c) :
    (∀ a, a <:+ c.rest → commentLoop h fuel (s.seek (c.to a).pos) =
        (Text.commentLoop fuel a).map fun t => s.seek (c.to t).pos) ∧
      ∀ a, a <:+ c.rest → http11Comment h fuel (s.seek (c.to a).pos) =
        (Text.comment fuel a).map fun r => (r.1, s.seek (c.to r.2).pos) := by
  induction fuel with
  | zero => exact ⟨fun _ _ => rfl, fun _ _ => rfl⟩
  | succ fuel ih =>
      obtain ⟨ihloop, ihcomment⟩ := ih
      constructor
      · intro a ha
        have htext := Tracks.textExcept.follows.to (Text.textExcept_suffix isBracket) hs ha
        have hpair := Tracks.quotedPair.follows.to Text.quotedPair_suffix hs ha
        simp only [commentLoop, http11Ctext, htext, Text.commentLoop, Option.bind_eq_bind,
          Option.bind_some]
        by_cases hok : (Text.textExcept isBracket a).1 = true
        · rw [if_pos hok, if_pos hok, ihloop _ ((Text.textExcept_suffix isBracket a).trans ha)]
        · rw [if_neg hok, if_neg hok, Text.textExcept_eq_self hok, hpair, Option.bind_some]
          by_cases hok' : (Text.quotedPair a).1 = true
          · rw [if_pos hok', if_pos hok', ihloop _ ((Text.quotedPair_suffix a).trans ha)]
          · rw [if_neg hok', if_neg hok', Text.quotedPair_eq_self hok', ihcomment a ha]
            cases hcomment : Text.comment fuel a with
            | none => rfl
            | some r =>
                have hr := (Text.comment_suffix fuel).2 a r hcomment
                simp only [Option.map_some, Option.bind_some]
                by_cases hok : r.1 = true
                · rw [if_pos hok, if_pos hok, ihloop _ (hr.trans ha)]
                · rw [if_neg hok, if_neg hok]
                  rfl
      · intro a ha
        have htail := (List.tail_suffix a).trans ha
        simp only [http11Comment, hs.getChar_to ha, hs.next_to ha, ihloop _ htail, Text.comment,
          Option.bind_eq_bind, Option.bind_some]
        by_cases hopen : a.headD 0 = ch '('
        · rw [if_pos hopen, if_pos hopen]
          cases hloop : Text.commentLoop fuel a.tail with
          | none => rfl
          | some t =>
              have ht := ((Text.comment_suffix fuel).1 _ t hloop).trans htail
              simp only [Option.map_some, Option.bind_some, hs.getChar_to ht, hs.next_to ht,
                Text.closed]
              by_cases hclose : t.headD 0 = ch ')'
              · rw [if_pos hclose, if_pos hclose]
                rfl
              · rw [if_neg hclose, if_neg hclose]
                rfl
        · rw [if_neg hopen, if_neg hopen]
          rfl

end Tracks

/-! ### What may stand between the delimiters -/

/-- Text characters other than those of `p`, white space, pairs, and comments where they nest. -/
inductive Body (p : UInt8 → Bool) (nested : Bool) : List UInt8 → Prop
  | nil : Body p nested []
  | text {x : UInt8} {s : List UInt8} (hctl : http11Ctl x = false) (hp : p x = false)
      (hslash : x ≠ ch '\\') (hs : Body p nested s) : Body p nested (x :: s)
  | lws {piece s : List UInt8} (hpiece : IsLws piece) (hs : Body p nested s) :
      Body p nested (piece ++ s)
  | pair {x : UInt8} {s : List UInt8} (hx : http11Char x = true) (hs : Body p nested s) :
      Body p nested (ch '\\' :: x :: s)
  | comment {inner s : List UInt8} (hnested : nested = true) (hinner : Body p nested inner)
      (hs : Body p nested s) : Body p nested (ch '(' :: (inner ++ ch ')' :: s))

def IsQuotedString (piece : List UInt8) : Prop :=
  ∃ body, Body isQuote false body ∧ piece = ch '"' :: (body ++ [ch '"'])

def IsComment (piece : List UInt8) : Prop :=
  ∃ body, Body isBracket true body ∧ piece = ch '(' :: (body ++ [ch ')'])

/-- White space, and comments with nothing else in them where they nest. -/
inductive Blank (nested : Bool) : List UInt8 → Prop
  | nil : Blank nested []
  | lws {piece s : List UInt8} (hpiece : IsLws piece) (hs : Blank nested s) :
      Blank nested (piece ++ s)
  | comment {inner s : List UInt8} (hnested : nested = true) (hinner : Blank nested inner)
      (hs : Blank nested s) : Blank nested (ch '(' :: (inner ++ ch ')' :: s))

/-- A text character that is no white space. -/
structure IsPlain (p : UInt8 → Bool) (x : UInt8) : Prop where
  notCtl : http11Ctl x = false
  notBlank : blankChars x = false
  notStop : p x = false

/-- Behind nothing but white space and blank comments comes a plain character, or a comment, not
closed before, in which one comes. -/
inductive Stalls (p : UInt8 → Bool) (nested : Bool) : List UInt8 → Prop
  | char {body rest : List UInt8} {x : UInt8} (hbody : Blank nested body) (hx : IsPlain p x) :
      Stalls p nested (body ++ x :: rest)
  | comment {body s : List UInt8} (hnested : nested = true) (hbody : Blank nested body)
      (hs : Stalls p nested s) : Stalls p nested (body ++ ch '(' :: s)

theorem Blank.body {p : UInt8 → Bool} {nested : Bool} {s : List UInt8} (h : Blank nested s) :
    Body p nested s := by
  induction h with
  | nil => exact .nil
  | lws hpiece _ ih => exact .lws hpiece ih
  | comment hnested _ _ ihinner ih => exact .comment hnested ihinner ih

theorem Blank.append {nested : Bool} {a b : List UInt8} (ha : Blank nested a)
    (hb : Blank nested b) :
    Blank nested (a ++ b) := by
  induction ha with
  | nil => exact hb
  | lws hpiece _ ih =>
      rw [List.append_assoc]
      exact .lws hpiece ih
  | comment hnested hinner _ _ ih =>
      rw [List.cons_append, List.append_assoc, List.cons_append]
      exact .comment hnested hinner ih

private theorem Blank.nesting {s : List UInt8} (h : Blank false s) : Blank true s := by
  induction h with
  | nil => exact .nil
  | lws hpiece _ ih => exact .lws hpiece ih
  | comment hnested => cases hnested

theorem Stalls.behind {p : UInt8 → Bool} {nested : Bool} {a s : List UInt8} (ha : Blank nested a)
    (h : Stalls p nested s) : Stalls p nested (a ++ s) := by
  cases h with
  | char hbody hx =>
      rw [← List.append_assoc]
      exact .char (ha.append hbody) hx
  | comment hnested hbody hs =>
      rw [← List.append_assoc]
      exact .comment hnested (ha.append hbody) hs

/-! ### White space and the loops -/

section Loops

variable {p : UInt8 → Bool} {s t : List UInt8}

private theorem lws_append {piece : List UInt8} (hpiece : IsLws piece) (s : List UInt8) :
    Text.lws (piece ++ s) = (true, s.dropWhile blankChars) := by
  obtain ⟨front, blanks, hfront, hrun, rfl⟩ := hpiece
  have hdrop : (blanks ++ s).dropWhile blankChars = s.dropWhile blankChars :=
    List.dropWhile_append_of_pos hrun.all
  have hcrlf : (Text.crlf (front ++ blanks ++ s)).2 = blanks ++ s := by
    rcases hfront with rfl | rfl
    · apply Text.crlf_eq_self
      intro hok
      have hs := Text.crlf_eq hok
      obtain ⟨x, blanks, rfl⟩ := List.exists_cons_of_ne_nil hrun.ne_nil
      obtain rfl : x = http11Cr := (List.cons.inj hs).1
      exact absurd (hrun.all _ List.mem_cons_self) (by decide)
    · simp [Text.crlf]
  have hhead : blankChars ((blanks ++ s).headD 0) = true := by
    obtain ⟨x, blanks, rfl⟩ := List.exists_cons_of_ne_nil hrun.ne_nil
    exact hrun.all x List.mem_cons_self
  rw [Text.lws, hcrlf, if_pos hhead, hdrop]

private theorem lws_of_blank (h : blankChars (s.headD 0) = true) :
    Text.lws s = (true, s.dropWhile blankChars) := by
  rcases s with _ | ⟨x, s⟩
  · cases h
  · have hx : blankChars x = true := h
    have hrun : IsRun blankChars [x] := ⟨List.cons_ne_nil x [], by simpa using hx⟩
    rw [List.dropWhile_cons_of_pos hx]
    exact lws_append ⟨[], [x], .inl rfl, hrun, rfl⟩ s

private theorem lws_head (h : (Text.lws s).1 = true) :
    blankChars (s.headD 0) = true ∨ s.headD 0 = http11Cr := by
  by_cases hcrlf : (Text.crlf s).1 = true
  · right
    rw [Text.crlf_eq hcrlf]
    rfl
  · left
    by_contra hblank
    rw [Text.lws, Text.crlf_eq_self hcrlf, if_neg hblank] at h
    cases h

private theorem blank_append_lws (s : List UInt8) :
    ∃ gap t, Blank false gap ∧ s = gap ++ t ∧ (Text.lws t).1 = false := by
  by_cases hlws : (Text.lws s).1 = true
  · obtain ⟨piece, hpiece, hs⟩ := lws_takesLongest.found s hlws
    have hshort : (Text.lws s).2.length < s.length := by
      obtain ⟨front, blanks, -, hrun, rfl⟩ := hpiece.mem
      have hlength := congrArg List.length hs
      have hpos := List.length_pos_iff.mpr hrun.ne_nil
      simp only [List.length_append] at hlength
      omega
    obtain ⟨gap, t, hgap, ht, hend⟩ := blank_append_lws (Text.lws s).2
    refine ⟨piece ++ gap, t, .lws hpiece.mem hgap, ?_, hend⟩
    rw [List.append_assoc, ← ht]
    exact hs
  · exact ⟨[], s, .nil, rfl, Bool.eq_false_of_not_eq_true hlws⟩
termination_by s.length

/-- A loop over text characters outside `p`. -/
structure TextLoop (p : UInt8 → Bool) (loop : Nat → List UInt8 → Option (List UInt8)) : Prop where
  zero : ∀ s, loop 0 s = none
  text : ∀ fuel s, (Text.textExcept p s).1 = true →
    loop (fuel + 1) s = loop fuel (Text.textExcept p s).2
  stop : ∀ x, blankChars x = true ∨ x = http11Cr → p x = false

variable {loop : Nat → List UInt8 → Option (List UInt8)}

private theorem TextLoop.lws_step (hloop : TextLoop p loop) (h : (Text.lws s).1 = true)
    (fuel : Nat) :
    loop (fuel + 1) s = loop fuel (Text.lws s).2 := by
  have htext : Text.textExcept p s = (true, (Text.lws s).2) := by
    rw [Text.textExcept, hloop.stop _ (lws_head h), Text.text, h, Bool.or_true]
    rfl
  have hstep := hloop.text fuel s
  rw [htext] at hstep
  exact hstep rfl

private theorem TextLoop.lws_goesOn (hloop : TextLoop p loop) {piece : List UInt8}
    (hpiece : IsLws piece) (s : List UInt8) : GoesOn (loop · (piece ++ s)) (loop · s) := by
  have hlws := lws_append hpiece s
  have hstep := hloop.lws_step (s := piece ++ s) (by rw [hlws])
  rw [hlws] at hstep
  apply (GoesOn.step (hloop.zero _) hstep).trans
  by_cases hblank : blankChars (s.headD 0) = true
  · have hlws' := lws_of_blank hblank
    have hstep' := hloop.lws_step (s := s) (by rw [hlws'])
    rw [hlws'] at hstep'
    exact .unstep hstep'
  · have hdrop : s.dropWhile blankChars = s := by
      cases s with
      | nil => rfl
      | cons x s => exact List.dropWhile_cons_of_neg hblank
    rw [hdrop]
    exact .refl _

private theorem TextLoop.gap_goesOn (hloop : TextLoop p loop) {gap : List UInt8}
    (hgap : Blank false gap) (s : List UInt8) : GoesOn (loop · (gap ++ s)) (loop · s) := by
  induction hgap with
  | nil => exact .refl _
  | lws hpiece _ ih =>
      rw [List.append_assoc]
      exact (hloop.lws_goesOn hpiece _).trans ih
  | comment hnested => cases hnested

theorem TextLoop.diverges (hloop : TextLoop p loop) {x : UInt8} (hx : IsPlain p x)
    (s : List UInt8) : Diverges (loop · (x :: s)) := by
  apply Diverges.same (hloop.zero _)
  intro fuel
  have hnot : ¬ (Text.lws (x :: s)).1 = true := by
    intro hlws
    rcases lws_head hlws with hblank | hcr
    · exact absurd (hblank.symm.trans hx.notBlank) (by decide)
    · obtain rfl : x = http11Cr := hcr
      exact absurd hx.notCtl (by decide)
  have hsame := lws_takesLongest.unchanged _ (Bool.eq_false_of_not_eq_true hnot)
  have htext : Text.textExcept p (x :: s) = (true, x :: s) := by
    rw [Text.textExcept, List.headD_cons, hx.notStop, Text.text, List.headD_cons, hx.notCtl, hsame]
    rfl
  have hstep := hloop.text fuel (x :: s)
  rw [htext] at hstep
  exact hstep rfl

private theorem plain_or_stop (p : UInt8 → Bool) (h : (Text.lws s).1 = false) :
    (∃ x u, s = x :: u ∧ IsPlain p x) ∨ ¬ (Text.textExcept p s).1 = true := by
  by_cases htext : (Text.textExcept p s).1 = true
  · left
    rw [Text.textExcept] at htext
    split at htext
    · cases htext
    · next hp =>
      rw [Text.text, h, Bool.or_false, Bool.not_eq_true'] at htext
      rcases s with _ | ⟨x, u⟩
      · exact absurd htext (by decide)
      · refine ⟨x, u, rfl, htext, ?_, Bool.eq_false_of_not_eq_true hp⟩
        by_contra hblank
        have hhead : blankChars ((x :: u).headD 0) = true := Bool.eq_true_of_not_eq_false hblank
        rw [lws_of_blank hhead] at h
        cases h
  · exact .inr htext

private theorem quotedPair_of_stop (hslash : p (ch '\\') = false)
    (h : ¬ (Text.textExcept p s).1 = true) : ¬ (Text.quotedPair s).1 = true := by
  have hctl : http11Ctl (ch '\\') = false := by decide
  intro hpair
  rw [Text.quotedPair] at hpair
  split at hpair
  · next hhead =>
    rw [Text.textExcept, hhead, hslash, Text.text, hhead, hctl] at h
    exact h rfl
  · cases hpair

end Loops

/-! ### Behind the loops -/

section Closed

variable {s t : List UInt8}

/-- What is taken, if anything is, is in `L`; otherwise all of the text is left. -/
structure TakesOrLeaves (L : List UInt8 → Prop) (s : List UInt8) (r : Bool × List UInt8) :
    Prop where
  taken : r.1 = true → ∃ piece, L piece ∧ s = piece ++ r.2
  left : r.1 = false → r.2 = s

theorem TakesOrLeaves.nothing {L : List UInt8 → Prop} (s : List UInt8) :
    TakesOrLeaves L s (false, s) := by
  constructor
  · intro htrue
    cases htrue
  · intro
    rfl

private theorem headD_eq {x : UInt8} (hx : x ≠ 0) (h : s.headD 0 = x) : s = x :: s.tail := by
  rcases s with _ | ⟨y, s⟩
  · exact absurd h.symm hx
  · exact congrArg (· :: s) h

private theorem closed_takes {L : List UInt8 → Prop} {x y : UInt8} {body : List UInt8} (hx : x ≠ 0)
    (hs : s = y :: (body ++ t)) (hbody : L (y :: (body ++ [x]))) :
    TakesOrLeaves L s (Text.closed x s t) := by
  rw [Text.closed]
  split
  · next hend =>
    constructor
    · intro
      refine ⟨_, hbody, ?_⟩
      rw [List.cons_append, List.append_assoc, List.singleton_append, ← headD_eq hx hend]
      exact hs
    · intro hfalse
      cases hfalse
  · exact .nothing s

end Closed

/-! ### Quoted strings -/

section QuotedString

variable {s t : List UInt8}

private theorem quotedStringLoop_textLoop : TextLoop isQuote Text.quotedStringLoop := by
  constructor
  · intro s
    rfl
  · intro fuel s h
    rw [Text.quotedStringLoop, if_pos h]
  · rintro x (hblank | rfl)
    · rw [blankChars, Bool.or_eq_true, beq_iff_eq, beq_iff_eq] at hblank
      rcases hblank with rfl | rfl
      · decide
      · decide
    · decide

private theorem quotedStringLoop_stop (h : ¬ (Text.textExcept isQuote t).1 = true) :
    Ends (Text.quotedStringLoop · t) t := by
  apply Ends.now rfl
  intro fuel
  rw [Text.quotedStringLoop, if_neg h, if_neg (quotedPair_of_stop (by decide) h)]

private theorem quotedStringLoop_total (s : List UInt8) : Stalls isQuote false s ∨
    ∃ gap t, Blank false gap ∧ s = gap ++ t ∧ Ends (Text.quotedStringLoop · s) t := by
  obtain ⟨gap, t, hgap, rfl, hlws⟩ := blank_append_lws s
  rcases plain_or_stop isQuote hlws with ⟨x, u, rfl, hx⟩ | hstop
  · exact .inl (.char hgap hx)
  · right
    refine ⟨gap, t, hgap, rfl, ?_⟩
    apply (quotedStringLoop_textLoop.gap_goesOn hgap t).ends
    exact quotedStringLoop_stop hstop

private theorem quotedStringLoop_diverges (h : Stalls isQuote false s) :
    Diverges (Text.quotedStringLoop · s) := by
  cases h with
  | char hbody hx =>
      apply (quotedStringLoop_textLoop.gap_goesOn hbody _).diverges
      exact quotedStringLoop_textLoop.diverges hx _
  | comment hnested => cases hnested

/-- The text begins with `x`, and behind it the loop stalls. -/
def StallsBehind (x : UInt8) (p : UInt8 → Bool) (nested : Bool) (s : List UInt8) : Prop :=
  ∃ u, s = x :: u ∧ Stalls p nested u

private theorem quotedString_ends (h : ¬ StallsBehind (ch '"') isQuote false s) :
    ∃ r, Ends (Text.quotedString · s) r ∧ TakesOrLeaves IsQuotedString s r := by
  by_cases hquote : s.headD 0 = ch '"'
  · have hs := headD_eq (by decide) hquote
    rcases quotedStringLoop_total s.tail with hstalls | ⟨gap, t, hgap, htail, hends⟩
    · exact absurd ⟨_, hs, hstalls⟩ h
    · rw [htail] at hs
      refine ⟨Text.closed (ch '"') s t, ?_, closed_takes (by decide) hs ⟨gap, hgap.body, rfl⟩⟩
      simp only [Text.quotedString, if_pos hquote]
      exact hends.map _
  · refine ⟨(false, s), ?_, .nothing s⟩
    simp only [Text.quotedString, if_neg hquote]
    exact .const _

private theorem quotedString_diverges (h : StallsBehind (ch '"') isQuote false s) :
    Diverges (Text.quotedString · s) := by
  obtain ⟨u, rfl, hstalls⟩ := h
  have hloop := quotedStringLoop_diverges hstalls
  simp only [Text.quotedString, List.headD_cons, if_true, List.tail_cons]
  exact hloop.map _

end QuotedString

/-! ### Comments -/

section Comment

variable {s t inner : List UInt8}

private theorem commentLoop_textLoop : TextLoop isBracket Text.commentLoop := by
  constructor
  · intro s
    rfl
  · intro fuel s h
    rw [Text.commentLoop, if_pos h]
  · rintro x (hblank | rfl)
    · rw [blankChars, Bool.or_eq_true, beq_iff_eq, beq_iff_eq] at hblank
      rcases hblank with rfl | rfl
      · decide
      · decide
    · decide

/-- What the loop does behind the comment that it has tried to read. -/
def Text.behindComment (r : Bool × List UInt8) (fuel : Nat) : Option (List UInt8) :=
  if r.1 then commentLoop fuel r.2 else some r.2

private theorem commentLoop_succ (h : ¬ (Text.textExcept isBracket t).1 = true) (fuel : Nat) :
    Text.commentLoop (fuel + 1) t =
      (Text.comment fuel t).bind fun r => Text.behindComment r fuel := by
  rw [Text.commentLoop, if_neg h, if_neg (quotedPair_of_stop (by decide) h)]
  rfl

private theorem commentLoop_behind {r : Bool × List UInt8}
    (h : ¬ (Text.textExcept isBracket t).1 = true) (hcomment : Ends (Text.comment · t) r) :
    GoesOn (Text.commentLoop · t) (Text.behindComment r) :=
  GoesOn.bind (commentLoop_textLoop.zero t) (commentLoop_succ h) hcomment

private theorem commentLoop_stop (h : ¬ (Text.textExcept isBracket t).1 = true)
    (hcomment : Ends (Text.comment · t) (false, t)) : Ends (Text.commentLoop · t) t :=
  (commentLoop_behind h hcomment).ends t (.const t)

private theorem bracket_stop {x : UInt8} (hx : isBracket x = true) (s : List UInt8) :
    ¬ (Text.textExcept isBracket (x :: s)).1 = true := by
  rw [Text.textExcept, List.headD_cons, if_pos hx]
  exact Bool.false_ne_true

private theorem comment_none (h : t.headD 0 ≠ ch '(') : Ends (Text.comment · t) (false, t) := by
  apply Ends.now rfl
  intro fuel
  rw [Text.comment, if_neg h]

private theorem comment_step (s : List UInt8) (fuel : Nat) :
    Text.comment (fuel + 1) (ch '(' :: s) =
      (Text.commentLoop fuel s).map (Text.closed (ch ')') (ch '(' :: s)) := by
  rw [Text.comment, List.headD_cons, if_pos rfl, List.tail_cons]

private theorem comment_ends (hloop : Ends (Text.commentLoop · s) t) :
    Ends (Text.comment · (ch '(' :: s)) (Text.closed (ch ')') (ch '(' :: s) t) :=
  (GoesOn.step rfl (comment_step s)).ends _ (hloop.map _)

private theorem comment_diverges (hloop : Diverges (Text.commentLoop · s)) :
    Diverges (Text.comment · (ch '(' :: s)) :=
  (GoesOn.step rfl (comment_step s)).diverges (hloop.map _)

private theorem commentLoop_comment (hloop : Ends (Text.commentLoop · (inner ++ ch ')' :: s))
    (ch ')' :: s)) :
    GoesOn (Text.commentLoop · (ch '(' :: (inner ++ ch ')' :: s))) (Text.commentLoop · s) := by
  have hstop := bracket_stop (x := ch '(') (by decide) (inner ++ ch ')' :: s)
  have hcomment := comment_ends hloop
  have hclosed : Text.closed (ch ')') (ch '(' :: (inner ++ ch ')' :: s)) (ch ')' :: s) =
    (true, s) := by
    rw [Text.closed, List.headD_cons, if_pos rfl, List.tail_cons]
  rw [hclosed] at hcomment
  exact commentLoop_behind hstop hcomment

private theorem commentLoop_goesOn {body : List UInt8} (hbody : Blank true body) (s : List UInt8) :
    GoesOn (Text.commentLoop · (body ++ s)) (Text.commentLoop · s) := by
  induction hbody generalizing s with
  | nil => exact .refl _
  | lws hpiece _ ih =>
      rw [List.append_assoc]
      exact (commentLoop_textLoop.lws_goesOn hpiece _).trans (ih s)
  | @comment inner rest _ _ _ ihinner ih =>
      have hclose : Ends (Text.commentLoop · (ch ')' :: (rest ++ s))) (ch ')' :: (rest ++ s)) := by
        apply commentLoop_stop (bracket_stop (by decide) _)
        apply comment_none
        rw [List.headD_cons]
        decide
      have hinner := (ihinner (ch ')' :: (rest ++ s))).ends _ hclose
      rw [List.cons_append, List.append_assoc, List.cons_append]
      exact (commentLoop_comment hinner).trans (ih s)

private theorem commentLoop_diverges (h : Stalls isBracket true s) :
    Diverges (Text.commentLoop · s) := by
  induction h with
  | char hbody hx =>
      apply (commentLoop_goesOn hbody _).diverges
      exact commentLoop_textLoop.diverges hx _
  | comment _ hbody _ ih =>
      apply (commentLoop_goesOn hbody _).diverges
      exact Diverges.bind_first rfl (commentLoop_succ (bracket_stop (by decide) _))
        (comment_diverges ih)

private theorem commentLoop_total (s : List UInt8) : Stalls isBracket true s ∨
    ∃ body t, Blank true body ∧ s = body ++ t ∧ Ends (Text.commentLoop · s) t := by
  obtain ⟨gap, t, hgap, hs, hlws⟩ := blank_append_lws s
  have hon := commentLoop_goesOn hgap.nesting t
  have hlength := congrArg List.length hs
  rw [List.length_append] at hlength
  rw [hs]
  rcases plain_or_stop isBracket hlws with ⟨x, u, rfl, hx⟩ | hstop
  · exact .inl (.char hgap.nesting hx)
  · by_cases hopen : t.headD 0 = ch '('
    · obtain ⟨u, rfl⟩ : ∃ u, t = ch '(' :: u := ⟨_, headD_eq (by decide) hopen⟩
      have hshort : u.length < s.length := by
        rw [List.length_cons] at hlength
        omega
      rcases commentLoop_total u with hstalls | ⟨inner, v, hinner, hu, hends⟩
      · exact .inl (.comment rfl hgap.nesting hstalls)
      · by_cases hclose : v.headD 0 = ch ')'
        · obtain ⟨w, rfl⟩ : ∃ w, v = ch ')' :: w := ⟨_, headD_eq (by decide) hclose⟩
          subst hu
          have hshort' : w.length < s.length := by
            rw [List.length_append, List.length_cons] at hshort
            omega
          have hcomment := hgap.nesting.append (.comment rfl hinner .nil)
          have hsplit : gap ++ ch '(' :: (inner ++ ch ')' :: w) =
              gap ++ ch '(' :: (inner ++ ch ')' :: []) ++ w := by simp
          rw [hsplit]
          rcases commentLoop_total w with hstalls | ⟨body, z, hbody, rfl, hends'⟩
          · exact .inl (hstalls.behind hcomment)
          · right
            refine ⟨_, z, hcomment.append hbody, (List.append_assoc _ _ _).symm, ?_⟩
            exact (commentLoop_goesOn hcomment _).ends z hends'
        · -- the comment in it does not end
          right
          refine ⟨gap, _, hgap.nesting, rfl, hon.ends _ (commentLoop_stop hstop ?_)⟩
          have hcomment := comment_ends hends
          rwa [Text.closed, if_neg hclose] at hcomment
    · right
      exact ⟨gap, t, hgap.nesting, rfl, hon.ends t (commentLoop_stop hstop (comment_none hopen))⟩
termination_by s.length

private theorem comment_ends_or (h : ¬ StallsBehind (ch '(') isBracket true s) :
    ∃ r, Ends (Text.comment · s) r ∧ TakesOrLeaves IsComment s r := by
  by_cases hopen : s.headD 0 = ch '('
  · have hs := headD_eq (by decide) hopen
    rcases commentLoop_total s.tail with hstalls | ⟨body, t, hbody, htail, hends⟩
    · exact absurd ⟨_, hs, hstalls⟩ h
    · have hends' := comment_ends hends
      rw [← hs] at hends'
      rw [htail] at hs
      exact ⟨_, hends', closed_takes (by decide) hs ⟨body, hbody.body, rfl⟩⟩
  · exact ⟨(false, s), comment_none hopen, .nothing s⟩

end Comment

/-! ### On the request -/

/-- With enough fuel `f` returns; if it returns 1 it has stepped over a piece of the text that is in
`L`, and otherwise the cursor is where it was. -/
def ReadsDelimited (h : Heap) (request : Stringaa)
    (f : Nat → Stringaa → Option (Bool × Stringaa)) (L : List UInt8 → Prop) : Prop :=
  ∃ is request', Ends (f · request) (is, request') ∧
    (is = true → ∃ piece, L piece ∧ piece <+: request.unread h ∧
      request' = request.seek (request.readPos + piece.length)) ∧
    (is = false → request' = request)

section Request

variable {h : Heap} {request : Stringaa} {L : List UInt8 → Prop}
  {f : Nat → Stringaa → Option (Bool × Stringaa)}
  {g : Nat → List UInt8 → Option (Bool × List UInt8)}

/-- The request with the cursor in front of what is left. -/
def leaving (h : Heap) (request : Stringaa) (r : Bool × List UInt8) : Bool × Stringaa :=
  (r.1, request.seek ((⟨request.readPos, request.unread h⟩ : Cursor UInt8).to r.2).pos)

private theorem readsDelimited_of_ends {r : Bool × List UInt8}
    (hf : ∀ fuel, f fuel request = (g fuel (request.unread h)).map (leaving h request))
    (hends : Ends (g · (request.unread h)) r) (htakes : TakesOrLeaves L (request.unread h) r) :
    ReadsDelimited h request f L := by
  have hrun := hends.map (leaving h request)
  simp only [← hf] at hrun
  refine ⟨_, _, hrun, ?_, ?_⟩
  · intro hok
    obtain ⟨piece, hpiece, hs⟩ := htakes.taken hok
    exact ⟨piece, hpiece, ⟨r.2, hs.symm⟩, by rw [Cursor.to_pos hs]⟩
  · intro hfail
    rw [htakes.left hfail, Cursor.to_self]
    rfl

private theorem not_readsDelimited_of_diverges
    (hf : ∀ fuel, f fuel request = (g fuel (request.unread h)).map (leaving h request))
    (hdiverges : Diverges (g · (request.unread h))) : ¬ ReadsDelimited h request f L := by
  rintro ⟨is, request', hends, -⟩
  apply hends.not_diverges
  have hrun := hdiverges.map (leaving h request)
  simp only [← hf] at hrun
  exact hrun

private theorem quotedString_leaving (hread : Readable h request) (fuel : Nat) :
    http11QuotedString h fuel request =
      (Text.quotedString fuel (request.unread h)).map (leaving h request) :=
  http11QuotedString_eq fuel hread.shows

private theorem comment_leaving (hread : Readable h request) (fuel : Nat) :
    http11Comment h fuel request =
      (Text.comment fuel (request.unread h)).map (leaving h request) := by
  have hrun := (http11Comment_to fuel hread.shows).2 _ (List.suffix_refl _)
  rw [Cursor.to_self] at hrun
  exact hrun

end Request

/-- Quoted strings and comments are read to their end unless a plain character comes in them. -/
theorem http11Quoted_reads (h : Heap) (request : Stringaa) (hread : Readable h request) :
    (ReadsDelimited h request (http11QuotedString h) IsQuotedString ↔
      ¬ StallsBehind (ch '"') isQuote false (request.unread h)) ∧
    (ReadsDelimited h request (http11Comment h) IsComment ↔
      ¬ StallsBehind (ch '(') isBracket true (request.unread h)) := by
  have hstring := quotedString_leaving hread
  have hcomment := comment_leaving hread
  constructor
  · constructor
    · intro hreads hstalls
      exact not_readsDelimited_of_diverges hstring (quotedString_diverges hstalls) hreads
    · intro hnot
      obtain ⟨r, hends, htakes⟩ := quotedString_ends hnot
      exact readsDelimited_of_ends hstring hends htakes
  · constructor
    · rintro hreads ⟨u, hs, hstalls⟩
      apply not_readsDelimited_of_diverges hcomment _ hreads
      rw [hs]
      exact comment_diverges (commentLoop_diverges hstalls)
    · intro hnot
      obtain ⟨r, hends, htakes⟩ := comment_ends_or hnot
      exact readsDelimited_of_ends hcomment hends htakes

/-- A blank string, and a blank comment in a comment. -/
theorem http11Quoted_reads_blank :
    ReadsDelimited (.ofText (literal "\" \"")) (.ofText 0 3)
        (http11QuotedString (.ofText (literal "\" \""))) IsQuotedString ∧
      ReadsDelimited (.ofText (literal "( ())")) (.ofText 0 5)
        (http11Comment (.ofText (literal "( ())"))) IsComment := by
  constructor
  · apply (http11Quoted_reads _ (.ofText 0 3) ⟨by decide, by decide⟩).1.mpr
    intro hstalls
    have hnone := quotedString_diverges hstalls 3
    exact absurd hnone (by decide)
  · apply (http11Quoted_reads _ (.ofText 0 5) ⟨by decide, by decide⟩).2.mpr
    rintro ⟨u, hs, hstalls⟩
    have hnone := comment_diverges (commentLoop_diverges hstalls) 9
    rw [← hs] at hnone
    exact absurd hnone (by decide)

/-- `"a"` and `(a)` are never left. -/
theorem not_http11Quoted_reads :
    ¬ ReadsDelimited (.ofText (literal "\"a\"")) (.ofText 0 3)
        (http11QuotedString (.ofText (literal "\"a\""))) IsQuotedString ∧
      ¬ ReadsDelimited (.ofText (literal "(a)")) (.ofText 0 3)
        (http11Comment (.ofText (literal "(a)"))) IsComment := by
  constructor
  · have hread : Readable (.ofText (literal "\"a\"")) (.ofText 0 3) := ⟨by decide, by decide⟩
    apply not_readsDelimited_of_diverges (quotedString_leaving hread)
    exact quotedString_diverges ⟨literal "a\"", by decide,
      .char .nil ⟨by decide, by decide, by decide⟩⟩
  · have hread : Readable (.ofText (literal "(a)")) (.ofText 0 3) := ⟨by decide, by decide⟩
    apply not_readsDelimited_of_diverges (comment_leaving hread)
    have hstalls : Stalls isBracket true (literal "a)") :=
      .char .nil ⟨by decide, by decide, by decide⟩
    exact comment_diverges (commentLoop_diverges hstalls)

end Httpaa
