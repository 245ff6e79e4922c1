import Httpaa.Foundation.LongestMatch
import Httpaa.Http.Headers

/-!
# The basic scanners

`http11_crlf`, `http11_find_crlf`, `http11_lws` and `http11_token` look one character ahead and move
the cursor to and fro. Each of them takes the longest piece of the text that it is there for, or
nothing.
-/

namespace Httpaa

open Recogniser Stringaa

/-! ### The functions of the source -/

def http11Ht : UInt8 := 9

/-- `HTTP11_CHAR`: a `char` from 128 on is negative. -/
def http11Char (c : UInt8) : Bool := c ≤ 127

def http11Ctl (c : UInt8) : Bool := c ≤ 31 || c == 127

def http11Separators (c : UInt8) : Bool :=
  c == ch '(' || c == ch ')' || c == ch '<' || c == ch '>' || c == ch '@' || c == ch ',' ||
    c == ch ';' || c == ch ':' || c == ch '\\' || c == ch '"' || c == ch '/' || c == ch '[' ||
    c == ch ']' || c == ch '?' || c == ch '=' || c == 0x7b || c == 0x7d || c == http11Sp ||
    c == http11Ht

/-- `HTTP11_SP || HTTP11_HT`. -/
def blankChars (c : UInt8) : Bool := c == http11Sp || c == http11Ht

def tokenChars (c : UInt8) : Bool := http11Char c && !(http11Ctl c || http11Separators c)

/-- `while (p) { stringaa_next_read_pos(request); c = stringaa_get_char(request); }`. -/
def http11CharsLoop (h : Heap) (p : UInt8 → Bool) : Nat → Stringaa → Option Stringaa
  | 0, _ => none
  | fuel + 1, request => do
    let c ← stringaaGetChar h request
    if p c then http11CharsLoop h p fuel (stringaaNextReadPos request).2 else return request

def http11Lws (h : Heap) (request : Stringaa) : Option (Bool × Stringaa) := do
  let pos := request.readPos
  let (_, request) ← http11Crlf h request
  let c ← stringaaGetChar h request
  if blankChars c then
    return (true, ← http11CharsLoop h blankChars request.budget (stringaaNextReadPos request).2)
  else return (false, request.seek pos)

def http11Token (h : Heap) (request : Stringaa) : Option (Bool × Stringaa) := do
  let c ← stringaaGetChar h request
  if http11Char c then
    if http11Ctl c || http11Separators c then return (false, request)
    else return (true, ← http11CharsLoop h tokenChars request.budget
      (stringaaNextReadPos request).2)
  else return (false, request)

/-! ### The same on texts -/

def Text.lws (s : List UInt8) : Bool × List UInt8 :=
  if blankChars ((crlf s).2.headD 0) then (true, (crlf s).2.dropWhile blankChars) else (false, s)

def Text.takeRun (p : UInt8 → Bool) (s : List UInt8) : Bool × List UInt8 :=
  if p (s.headD 0) then (true, s.dropWhile p) else (false, s)

def Text.token : List UInt8 → Bool × List UInt8 := Text.takeRun tokenChars

theorem Text.lws_suffix (s : List UInt8) : (lws s).2 <:+ s := by
  rw [lws]
  split
  · exact (List.dropWhile_suffix blankChars).trans (crlf_suffix s)
  · exact List.suffix_refl s

private theorem takeRun_suffix (p : UInt8 → Bool) (s : List UInt8) :
    (Text.takeRun p s).2 <:+ s := by
  rw [Text.takeRun]
  split
  · exact List.dropWhile_suffix p
  · exact List.suffix_refl s

section Tracks

variable {h : Heap} {s : Stringaa} {c : Cursor UInt8} {a : List UInt8} {p : UInt8 → Bool}

theorem http11CharsLoop_eq (fuel : Nat) (hp : p 0 = false) (hs : s.Shows h c) (ha : a <:+ c.rest)
    (hfuel : a.length < fuel) :
    http11CharsLoop h p fuel (s.seek (c.to a).pos) = some (s.seek (c.to (a.dropWhile p)).pos) := by
  induction fuel generalizing a with
  | zero => cases hfuel
  | succ fuel ih =>
      have hchar := hs.getChar_to ha
      have hnext := hs.next_to ha
      rcases a with _ | ⟨x, a⟩
      · simp [http11CharsLoop, hchar, hp]
      · by_cases hx : p x = true
        · have hrec := ih ((List.suffix_cons x a).trans ha) (by simpa using hfuel)
          simp [http11CharsLoop, hchar, hnext, hx, hrec]
        · simp [http11CharsLoop, hchar, hx]

private theorem http11CharsLoop_next (hp : p 0 = false) (hs : s.Shows h c) (ha : a <:+ c.rest)
    (hhead : p (a.headD 0) = true) (n : Nat) :
    http11CharsLoop h p (s.seek n).budget (stringaaNextReadPos (s.seek (c.to a).pos)).2 =
      some (s.seek (c.to (a.dropWhile p)).pos) := by
  rcases a with _ | ⟨x, a⟩
  · exact absurd hhead (by simp [hp])
  · have hrest := (List.suffix_cons x a).trans ha
    have hloop := http11CharsLoop_eq (s.seek n).budget hp hs hrest (hs.budget hrest n)
    have hx : p x = true := hhead
    rw [hs.next_to ha, List.dropWhile_cons_of_pos hx]
    exact hloop

theorem Tracks.crlf : Tracks h (http11Crlf h) Text.crlf := ⟨crlf_follows, Text.crlf_suffix⟩

theorem Tracks.findCrlf : Tracks h (http11FindCrlf h) Text.findCrlf :=
  ⟨findCrlf_follows, Text.findCrlf_suffix⟩

private theorem blankChars_zero : blankChars 0 = false := by decide

private theorem tokenChars_zero : tokenChars 0 = false := by decide

theorem Tracks.lws : Tracks h (http11Lws h) Text.lws := by
  constructor
  · intro s c hs
    have hsuffix := Text.crlf_suffix c.rest
    simp only [http11Lws, crlf_follows s c hs, hs.getChar_to hsuffix, Text.lws, Option.bind_eq_bind,
      Option.bind_some]
    by_cases hblank : blankChars ((Text.crlf c.rest).2.headD 0) = true
    · rw [if_pos hblank, if_pos hblank, http11CharsLoop_next blankChars_zero hs hsuffix hblank]
      rfl
    · rw [if_neg hblank, if_neg hblank, Cursor.to_self]
      rfl
  · exact Text.lws_suffix

theorem Tracks.token : Tracks h (http11Token h) Text.token := by
  constructor
  · intro s c hs
    have hself := List.suffix_refl c.rest
    have hloop := http11CharsLoop_next (n := c.pos) tokenChars_zero hs hself
    rw [Cursor.to_self] at hloop
    simp only [http11Token, hs.getChar, Text.token, Text.takeRun, Option.bind_eq_bind,
      Option.bind_some]
    generalize c.rest.headD 0 = x at hloop ⊢
    by_cases hchar : http11Char x = true
    · by_cases hsep : (http11Ctl x || http11Separators x) = true
      · simp [hchar, hsep, tokenChars, Cursor.to_self]
      · have htoken : tokenChars x = true := by simpa [tokenChars, hchar] using hsep
        rw [if_pos hchar, if_neg hsep, if_pos htoken, hloop htoken]
        rfl
    · simp [hchar, tokenChars, Cursor.to_self]
  · exact takeRun_suffix tokenChars

end Tracks

/-! ### What the scanners take -/

/-- `[CR LF] 1*(SP | HT)`. -/
def IsLws (piece : List UInt8) : Prop :=
  ∃ front blanks, (front = [] ∨ front = [http11Cr, http11Lf]) ∧ IsRun blankChars blanks ∧
    piece = front ++ blanks

/-- The reader takes the longest match of `L`, or finds none. -/
structure TakesLongest (L : List UInt8 → Prop) (g : List UInt8 → Bool × List UInt8) : Prop where
  found : ∀ s, (g s).1 = true → ∃ piece, LongestMatch L s piece ∧ s = piece ++ (g s).2
  unchanged : ∀ s, (g s).1 = false → (g s).2 = s
  none : ∀ s, (g s).1 = false → ∀ piece, piece <+: s → ¬ L piece

private theorem takeWhile_ne_nil_iff {p : UInt8 → Bool} (hp : p 0 = false) {s : List UInt8} :
    s.takeWhile p ≠ [] ↔ p (s.headD 0) = true := by
  cases s with
  | nil => simp [hp]
  | cons x s => simp [List.takeWhile_cons]

private theorem takeRun_takesLongest {p : UInt8 → Bool} (hp : p 0 = false) :
    TakesLongest (IsRun p) (Text.takeRun p) := by
  have hnone : ∀ s, (Text.takeRun p s).1 = false → ¬ p (s.headD 0) = true := by
    intro s hfail hhead
    rw [Text.takeRun, if_pos hhead] at hfail
    cases hfail
  constructor
  · intro s hok
    have hhead : p (s.headD 0) = true := by
      by_contra hhead
      rw [Text.takeRun, if_neg hhead] at hok
      cases hok
    rw [Text.takeRun, if_pos hhead]
    exact ⟨s.takeWhile p, longestMatch_takeWhile ((takeWhile_ne_nil_iff hp).mpr hhead),
      List.takeWhile_append_dropWhile.symm⟩
  · intro s hfail
    rw [Text.takeRun, if_neg (hnone s hfail)]
  · intro s hfail piece hpre
    have htake := not_not.mp ((takeWhile_ne_nil_iff hp).not.mpr (hnone s hfail))
    exact not_isRun_of_takeWhile htake hpre

private theorem token_takesLongest : TakesLongest (IsRun tokenChars) Text.token :=
  takeRun_takesLongest tokenChars_zero

private theorem crlf_takesLongest : TakesLongest (· = [http11Cr, http11Lf]) Text.crlf := by
  constructor
  · intro s hok
    have hs := Text.crlf_eq hok
    refine ⟨[http11Cr, http11Lf], ⟨rfl, ⟨(Text.crlf s).2, hs.symm⟩, ?_⟩, hs⟩
    rintro other rfl -
    exact Nat.le_refl _
  · intro s hfail
    exact Text.crlf_eq_self (by simp [hfail])
  · rintro s hfail piece ⟨t, rfl⟩ rfl
    simp [Text.crlf] at hfail

private theorem isLws_prefix_iff {s piece : List UInt8} (hpre : piece <+: s) :
    IsLws piece ↔ ∃ blanks, IsRun blankChars blanks ∧ blanks <+: (Text.crlf s).2 ∧
      piece = (if (Text.crlf s).1 then [http11Cr, http11Lf] else []) ++ blanks := by
  have hcr : blankChars http11Cr = false := by decide
  constructor
  · rintro ⟨front, blanks, hfront, hblanks, rfl⟩
    rcases hfront with rfl | rfl
    · have hfail : ¬ (Text.crlf s).1 = true := by
        intro hok
        have hrun := hblanks.prefix_takeWhile hpre
        rw [Text.crlf_eq hok, List.takeWhile_cons, hcr] at hrun
        exact hblanks.ne_nil (List.prefix_nil.mp hrun)
      rw [if_neg hfail, Text.crlf_eq_self hfail]
      exact ⟨blanks, hblanks, hpre, rfl⟩
    · obtain ⟨t, rfl⟩ := hpre
      exact ⟨blanks, hblanks, by simp [Text.crlf], by simp [Text.crlf]⟩
  · rintro ⟨blanks, hblanks, -, rfl⟩
    refine ⟨_, blanks, ?_, hblanks, rfl⟩
    split
    · exact .inr rfl
    · exact .inl rfl

private theorem crlf_append (s : List UInt8) :
    s = (if (Text.crlf s).1 then [http11Cr, http11Lf] else []) ++ (Text.crlf s).2 := by
  by_cases hok : (Text.crlf s).1 = true
  · rw [if_pos hok]
    exact Text.crlf_eq hok
  · rw [if_neg hok, Text.crlf_eq_self hok]
    rfl

theorem lws_takesLongest : TakesLongest IsLws Text.lws := by
  have hnone : ∀ s, (Text.lws s).1 = false → ¬ blankChars ((Text.crlf s).2.headD 0) = true := by
    intro s hfail hblank
    rw [Text.lws, if_pos hblank] at hfail
    cases hfail
  constructor
  · intro s hok
    have hblank : blankChars ((Text.crlf s).2.headD 0) = true := by
      by_contra hblank
      rw [Text.lws, if_neg hblank] at hok
      cases hok
    have hrun := longestMatch_takeWhile ((takeWhile_ne_nil_iff blankChars_zero).mpr hblank)
    have hs := crlf_append s
    generalize hfront : (if (Text.crlf s).1 then [http11Cr, http11Lf] else []) = front at hs
    have hwhole : s = front ++ (Text.crlf s).2.takeWhile blankChars ++ (Text.lws s).2 := by
      rw [Text.lws, if_pos hblank, List.append_assoc, List.takeWhile_append_dropWhile]
      exact hs
    have hpre : front ++ (Text.crlf s).2.takeWhile blankChars <+: s := ⟨_, hwhole.symm⟩
    refine ⟨_, ⟨?_, hpre, ?_⟩, hwhole⟩
    · apply (isLws_prefix_iff hpre).mpr
      exact ⟨_, hrun.mem, hrun.isPrefix, by rw [hfront]⟩
    · intro other hother hpre'
      obtain ⟨blanks, hblanks, hbehind, rfl⟩ := (isLws_prefix_iff hpre').mp hother
      rw [hfront, List.length_append, List.length_append]
      exact Nat.add_le_add_left (hrun.longest blanks hblanks hbehind) _
  · intro s hfail
    rw [Text.lws, if_neg (hnone s hfail)]
  · intro s hfail piece hpre hlws
    obtain ⟨blanks, hblanks, hbehind, -⟩ := (isLws_prefix_iff hpre).mp hlws
    have htake := not_not.mp ((takeWhile_ne_nil_iff blankChars_zero).not.mpr (hnone s hfail))
    exact not_isRun_of_takeWhile htake hbehind hblanks

/-! ### The first end of line -/

def Text.CrlfIn (s : List UInt8) (i : Nat) : Prop :=
  s[i]? = some http11Cr ∧ s[i + 1]? = some http11Lf

private theorem crlfIn_zero {s : List UInt8} : Text.CrlfIn s 0 ↔ (Text.crlf s).1 = true := by
  rcases s with _ | ⟨x, _ | ⟨y, s⟩⟩
  · simp [Text.CrlfIn, Text.crlf]
  · simp [Text.CrlfIn, Text.crlf]
  · by_cases hxy : x = http11Cr ∧ y = http11Lf
    · simp [Text.CrlfIn, Text.crlf, hxy]
    · simp [Text.CrlfIn, Text.crlf, hxy]

private theorem crlfIn_succ {x : UInt8} {s : List UInt8} {i : Nat} :
    Text.CrlfIn (x :: s) (i + 1) ↔ Text.CrlfIn s i := by
  simp [Text.CrlfIn]

private theorem fromCrlf_some {s rest : List UInt8} (h : Text.fromCrlf s = some rest) :
    ∃ front, s = front ++ rest ∧ Text.CrlfIn s front.length ∧
      ∀ i, Text.CrlfIn s i → front.length ≤ i := by
  induction s with
  | nil => cases h
  | cons x s ih =>
      rw [Text.fromCrlf] at h
      split at h
      · next hcrlf =>
        obtain rfl := Option.some.inj h
        exact ⟨[], rfl, crlfIn_zero.mpr hcrlf, fun i _ => Nat.zero_le i⟩
      · next hcrlf =>
        obtain ⟨front, hs, hat, hleast⟩ := ih h
        refine ⟨x :: front, by rw [hs, List.cons_append], crlfIn_succ.mpr hat, fun i hi => ?_⟩
        cases i with
        | zero => exact absurd (crlfIn_zero.mp hi) hcrlf
        | succ i => exact Nat.succ_le_succ (hleast i (crlfIn_succ.mp hi))

private theorem fromCrlf_none {s : List UInt8} (h : Text.fromCrlf s = none) (i : Nat) :
    ¬ Text.CrlfIn s i := by
  induction s generalizing i with
  | nil => simp [Text.CrlfIn]
  | cons x s ih =>
      rw [Text.fromCrlf] at h
      split at h
      · cases h
      · next hcrlf =>
        cases i with
        | zero => exact fun hi => hcrlf (crlfIn_zero.mp hi)
        | succ i => exact fun hi => ih h i (crlfIn_succ.mp hi)

/-! ### On the request -/

section Request

variable {h : Heap} {request : Stringaa} {L : List UInt8 → Prop}
  {f : Stringaa → Option (Bool × Stringaa)} {g : List UInt8 → Bool × List UInt8}

/-- CR stands at `p` and LF behind it, between the read position and the write position. -/
def CrlfAt (h : Heap) (request : Stringaa) (p : Nat) : Prop :=
  request.readPos ≤ p ∧ p + 1 < request.writePos ∧ request.charAt h p = some http11Cr ∧
    request.charAt h (p + 1) = some http11Lf

/-- `f` stops at the first end of line, or returns 0 where it was. -/
def StopsAtCrlf (h : Heap) (request : Stringaa) (f : Stringaa → Option (Bool × Stringaa)) : Prop :=
  ∃ isFind request', f request = some (isFind, request') ∧
    (isFind = true → ∃ p, CrlfAt h request p ∧ (∀ q, CrlfAt h request q → p ≤ q) ∧
      request' = request.seek p) ∧
    (isFind = false → request' = request ∧ ∀ p, ¬ CrlfAt h request p)

/-- `f` steps over the longest match of `L` at the cursor, or returns 0 where it was. -/
def Scans (h : Heap) (request : Stringaa) (L : List UInt8 → Prop)
    (f : Stringaa → Option (Bool × Stringaa)) : Prop :=
  ∃ is request', f request = some (is, request') ∧
    (is = true → ∃ piece, LongestMatch L (request.unread h) piece ∧
      request' = request.seek (request.readPos + piece.length)) ∧
    (is = false → request' = request ∧ ∀ piece, piece <+: request.unread h → ¬ L piece)

private theorem Tracks.scans (hf : Tracks h f g) (hg : TakesLongest L g)
    (hread : Readable h request) :
    Scans h request L f := by
  obtain ⟨piece, hpiece, hrun⟩ := hf.run hread
  refine ⟨_, _, hrun, ?_, ?_⟩
  · intro hok
    obtain ⟨longest, hlongest, hs⟩ := hg.found _ hok
    rw [List.append_cancel_right (hpiece.symm.trans hs)]
    exact ⟨longest, hlongest, rfl⟩
  · intro hfail
    rw [hg.unchanged _ hfail, List.self_eq_append_left] at hpiece
    rw [hpiece]
    exact ⟨rfl, hg.none _ hfail⟩

private theorem crlfAt_iff (hread : Readable h request) (i : Nat) :
    CrlfAt h request (request.readPos + i) ↔ Text.CrlfIn (request.unread h) i := by
  have hshows := hread.shows
  have hlength := hshows.length
  simp only at hlength
  constructor
  · rintro ⟨-, hlast, hcr, hlf⟩
    have hi := hshows.char i (by simp only; omega)
    have hi' := hshows.char (i + 1) (by simp only; omega)
    exact ⟨hi.symm.trans hcr, hi'.symm.trans hlf⟩
  · rintro ⟨hcr, hlf⟩
    obtain ⟨hlast, -⟩ := List.getElem?_eq_some_iff.mp hlf
    have hi := hshows.char i (by simp only; omega)
    have hi' := hshows.char (i + 1) hlast
    exact ⟨Nat.le_add_right _ _, by omega, hi.trans hcr, hi'.trans hlf⟩

private theorem http11FindCrlf_stops (hread : Readable h request) :
    StopsAtCrlf h request (http11FindCrlf h) := by
  have hat : ∀ {p}, CrlfAt h request p →
      ∃ i, p = request.readPos + i ∧ Text.CrlfIn (request.unread h) i := by
    intro p hp
    obtain ⟨i, rfl⟩ := Nat.exists_eq_add_of_le hp.1
    exact ⟨i, rfl, (crlfAt_iff hread i).mp hp⟩
  obtain ⟨piece, hpiece, hrun⟩ := Tracks.findCrlf.run hread
  refine ⟨_, _, hrun, ?_, ?_⟩
  · intro hok
    cases hfrom : Text.fromCrlf (request.unread h) with
    | none => simp [Text.findCrlf, hfrom] at hok
    | some rest =>
        obtain ⟨front, hs, hfound, hleast⟩ := fromCrlf_some hfrom
        rw [Text.findCrlf, hfrom] at hpiece
        rw [List.append_cancel_right (hpiece.symm.trans hs)]
        refine ⟨_, (crlfAt_iff hread _).mpr hfound, ?_, rfl⟩
        intro q hq
        obtain ⟨i, rfl, hi⟩ := hat hq
        exact Nat.add_le_add_left (hleast i hi) _
  · intro hfail
    cases hfrom : Text.fromCrlf (request.unread h) with
    | none =>
        rw [Text.findCrlf, hfrom, List.self_eq_append_left] at hpiece
        rw [hpiece]
        refine ⟨rfl, ?_⟩
        intro p hp
        obtain ⟨i, -, hi⟩ := hat hp
        exact fromCrlf_none hfrom i hi
    | some rest => simp [Text.findCrlf, hfrom] at hfail

end Request

/-- The scanners are exact on every request that can be read. -/
theorem http11Scanners_exact (h : Heap) (request : Stringaa) (hread : Readable h request) :
    StopsAtCrlf h request (http11FindCrlf h) ∧
      Scans h request (· = [http11Cr, http11Lf]) (http11Crlf h) ∧
      Scans h request IsLws (http11Lws h) ∧
      Scans h request (IsRun tokenChars) (http11Token h) := by
  refine ⟨http11FindCrlf_stops hread, ?_, ?_, ?_⟩
  · apply Tracks.crlf.scans crlf_takesLongest hread
  · apply Tracks.lws.scans lws_takesLongest hread
  · apply Tracks.token.scans token_takesLongest hread

/-- A folded line. -/
theorem http11Scanners_exact_folded :
    StopsAtCrlf (.ofText (literal "\r\n a")) (.ofText 0 4)
        (http11FindCrlf (.ofText (literal "\r\n a"))) ∧
      Scans (.ofText (literal "\r\n a")) (.ofText 0 4) IsLws
        (http11Lws (.ofText (literal "\r\n a"))) := by
  obtain ⟨hfind, -, hlws, -⟩ := http11Scanners_exact (.ofText (literal "\r\n a")) (.ofText 0 4)
    ⟨by decide, by decide⟩
  exact ⟨hfind, hlws⟩

end Httpaa
