import Httpaa.Foundation.LongestMatch
import Httpaa.Http.Accepts
import Httpaa.Http.Headers

/-!
# HTTP version numbers

`http11_http_version` reads two runs of digits of any length, copies 49 digits of each at most into
`buf_int`, and hands them to `atoi`. The numbers come out right for short runs that fit into an
`int`, and for zeros.
-/

namespace Httpaa

open Recogniser Stringaa

/-! ### Decimal numbers -/

private theorem foldl_decimal (digits : List UInt8) (value : Nat) :
    digits.foldl (fun value c => value * 10 + (c.toNat - (ch '0').toNat)) value =
      value * 10 ^ digits.length + decimal digits := by
  induction digits generalizing value with
  | nil => simp [decimal]
  | cons c digits ih =>
      have hcons : decimal (c :: digits) =
          (c.toNat - (ch '0').toNat) * 10 ^ digits.length + decimal digits := by
        rw [decimal, List.foldl_cons, ih, Nat.zero_mul, Nat.zero_add]
      rw [List.foldl_cons, ih, hcons, List.length_cons, Nat.pow_succ, Nat.add_mul, Nat.add_assoc,
        Nat.mul_assoc, Nat.mul_comm 10]

private theorem decimal_append (front digits : List UInt8) :
    decimal (front ++ digits) = decimal front * 10 ^ digits.length + decimal digits := by
  rw [decimal, List.foldl_append, foldl_decimal]
  rfl

private theorem decimal_cons (c : UInt8) (digits : List UInt8) :
    decimal (c :: digits) = (c.toNat - (ch '0').toNat) * 10 ^ digits.length + decimal digits := by
  have happend := decimal_append [c] digits
  have hone : decimal [c] = c.toNat - (ch '0').toNat := by simp [decimal]
  rwa [List.singleton_append, hone] at happend

private theorem decimal_eq_zero_iff {digits : List UInt8}
    (hdigits : ∀ c ∈ digits, digitChars c = true) :
    decimal digits = 0 ↔ ∀ c ∈ digits, c = ch '0' := by
  induction digits with
  | nil => simp [decimal]
  | cons c digits ih =>
      have hc : c.toNat - (ch '0').toNat = 0 ↔ c = ch '0' := by
        have hdigit := hdigits c List.mem_cons_self
        simp only [digitChars, Bool.and_eq_true, decide_eq_true_eq, UInt8.le_iff_toNat_le] at hdigit
        rw [← UInt8.toNat_inj]
        omega
      have hrest := ih fun x hx => hdigits x (List.mem_cons_of_mem c hx)
      have hpow : 10 ^ digits.length ≠ 0 := (Nat.pow_pos (by decide)).ne'
      rw [decimal_cons, Nat.add_eq_zero_iff, Nat.mul_eq_zero, or_iff_left hpow, hc, hrest,
        List.forall_mem_cons]

/-- The runs of digits that are read right: short ones that fit into an `int`, and zeros. -/
def Fits (digits : List UInt8) : Prop :=
  (digits.length < bufIntSize ∧ decimal digits < 2 ^ 31) ∨ ∀ c ∈ digits, c = ch '0'

private theorem atoi_eq {digits : List UInt8} (h : decimal digits < 2 ^ 31) :
    atoi digits = decimal digits := by
  rw [atoi, Nat.min_eq_left (by omega), toInt_eq h]

/-- The number that is stored is the value of the run, which fits, exactly for these runs. -/
theorem number_right_iff {digits : List UInt8} (hdigits : ∀ c ∈ digits, digitChars c = true) :
    (Text.number digits = decimal digits ∧ decimal digits < 2 ^ 31) ↔ Fits digits := by
  by_cases hlength : digits.length < bufIntSize
  · have htake : Text.number digits = atoi digits := by
      rw [Text.number, if_neg (Nat.not_le.mpr hlength), List.take_length]
    rw [htake]
    constructor
    · rintro ⟨-, hfits⟩
      exact .inl ⟨hlength, hfits⟩
    · rintro (⟨-, hfits⟩ | hzero)
      · exact ⟨atoi_eq hfits, hfits⟩
      · have hvalue := (decimal_eq_zero_iff hdigits).mpr hzero
        exact ⟨atoi_eq (by omega), by omega⟩
  · -- the digits behind the first 49 are dropped
    obtain ⟨front, back, rfl, hfront⟩ : ∃ front back, digits = front ++ back ∧
        front.length = bufIntSize - 1 :=
      ⟨_, _, (List.take_append_drop (bufIntSize - 1) digits).symm, by
        rw [List.length_take, Nat.min_eq_left]
        omega⟩
    have hback : 0 < back.length := by
      rw [List.length_append, hfront, bufIntSize] at hlength
      omega
    have hnumber : Text.number (front ++ back) = atoi front := by
      rw [Text.number, if_pos (Nat.not_lt.mp hlength), ← hfront, List.take_left]
    have hvalue := decimal_append front back
    rw [hnumber]
    constructor
    · rintro ⟨hright, hfits⟩
      right
      have hpow : 10 ≤ 10 ^ back.length := Nat.le_self_pow (by omega) 10
      have hle : decimal front * 10 ≤ decimal front * 10 ^ back.length := Nat.mul_le_mul_left _ hpow
      rw [atoi_eq (by omega)] at hright
      have hsame : decimal front = decimal (front ++ back) := by exact_mod_cast hright
      apply (decimal_eq_zero_iff hdigits).mp
      omega
    · rintro (⟨hshort, -⟩ | hzero)
      · exact absurd hshort hlength
      · have hall := (decimal_eq_zero_iff hdigits).mpr hzero
        have hzero' : decimal front = 0 := by
          apply (decimal_eq_zero_iff fun c hc => hdigits c (List.mem_append_left back hc)).mpr
          intro c hc
          exact hzero c (List.mem_append_left back hc)
        rw [atoi_eq (by omega), hzero', hall]
        exact ⟨rfl, by decide⟩

/-- The last of fifty digits is dropped. -/
example : Text.number (List.replicate 49 (ch '0') ++ literal "1") = 0 := by decide

/-! ### The text of a version -/

/-- `HTTP/` in any case, a run of digits, a dot, and a run of digits that goes on as far as it
can. -/
structure IsVersion (s name major minor rest : List UInt8) : Prop where
  text : s = name ++ (major ++ ch '.' :: (minor ++ rest))
  name : name.map toUpper = literal "HTTP/"
  major : IsRun digitChars major
  minor : IsRun digitChars minor
  maximal : ∀ x ∈ rest.head?, digitChars x = false

section IsVersion

variable {s name name' major major' minor minor' rest rest' : List UInt8}

private theorem dot_not_digit : digitChars (ch '.') = false := by decide

private theorem IsVersion.runs (h : IsVersion s name major minor rest) :
    IsRun digitChars major ∧ IsRun digitChars minor ∧ (∀ x ∈ rest.head?, digitChars x = false) ∧
      major ++ ch '.' :: (minor ++ rest) = major ++ ch '.' :: (minor ++ rest) :=
  ⟨h.major, h.minor, h.maximal, rfl⟩

theorem IsVersion.unique (h : IsVersion s name major minor rest)
    (h' : IsVersion s name' major' minor' rest') : major = major' ∧ minor = minor' := by
  have hlength : name.length = name'.length := by
    have hnames := congrArg List.length (h.name.trans h'.name.symm)
    rwa [List.length_map, List.length_map] at hnames
  obtain ⟨-, hbehind⟩ := List.append_inj (h.text.symm.trans h'.text) hlength
  obtain ⟨-, -, hmajor, t, hdrop, hminor, -⟩ := (isRun_pair_iff dot_not_digit).mp h.runs
  obtain ⟨-, -, hmajor', t', hdrop', hminor', -⟩ := (isRun_pair_iff dot_not_digit).mp h'.runs
  rw [hbehind] at hmajor hdrop
  obtain ⟨-, rfl⟩ := List.cons.inj (hdrop.symm.trans hdrop')
  exact ⟨hmajor.symm.trans hmajor', hminor.symm.trans hminor'⟩

/-- What the reader on texts reads, and the numbers it makes of it. -/
theorem versionNumbers_eq_some {version : Http11HttpVersion} :
    Text.versionNumbers s = some (version, rest) ↔
      ∃ name major minor, IsVersion s name major minor rest ∧
        version = ⟨Text.number major, Text.number minor⟩ := by
  constructor
  · intro h
    simp only [Text.versionNumbers] at h
    split at h
    · next hall =>
      simp only [Bool.and_eq_true, Bool.not_eq_true', List.isEmpty_eq_false_iff] at hall
      obtain ⟨⟨⟨hhttp, hmajor⟩, hdot⟩, hminor⟩ := hall
      obtain ⟨rfl, rfl⟩ := Prod.mk.inj (Option.some.inj h)
      obtain ⟨name, hname, hs⟩ := matchUpper_accepts.mp (accepts_iff.mpr ⟨hhttp, rfl⟩)
      have hdrop := isChar_accepts.mp (accepts_iff.mpr ⟨hdot, rfl⟩)
      obtain ⟨hmajor', hminor', hmaximal, hnumbers⟩ :=
        (isRun_pair_iff dot_not_digit).mpr ⟨hmajor, hminor, rfl, _, hdrop, rfl, rfl⟩
      rw [hnumbers] at hs
      exact ⟨name, _, _, ⟨hs, hname, hmajor', hminor', hmaximal⟩, rfl⟩
    · cases h
  · rintro ⟨name, major, minor, hversion, rfl⟩
    obtain ⟨hne, hne', hmajor, t, hdrop, hminor, hrest⟩ :=
      (isRun_pair_iff dot_not_digit).mp hversion.runs
    have hname := accepts_iff.mp (matchUpper_accepts.mpr ⟨name, hversion.name, hversion.text⟩)
    have hdot := accepts_iff.mp (isChar_accepts.mpr hdrop)
    rw [Text.versionNumbers]
    simp only [hname.1, hname.2, hmajor, hdot.1, hdot.2, hminor, hrest]
    rw [if_pos]
    simp [hne, hne']

end IsVersion

/-! ### What `http11_http_version` stores -/

/-- `http11_http_version` reads versions faithfully: where it returns 1 it has read a version,
stored the values of its numbers and stepped over it, and it refuses the versions whose numbers do
not fit into an `int`. -/
def ReadsVersion (h : Heap) (http : Http11Http) (request : Stringaa) : Prop :=
  ∃ isVersion http' request',
    http11HttpVersion h http request = some (isVersion, http', request') ∧
    (isVersion = true → ∃ name major minor rest,
      IsVersion (request.unread h) name major minor rest ∧
      request' = request.seek
        (request.readPos + (name ++ (major ++ ch '.' :: minor)).length) ∧
      http'.request.requestLine.httpVersion = ⟨decimal major, decimal minor⟩) ∧
    (∀ name major minor rest, IsVersion (request.unread h) name major minor rest →
      ¬ (decimal major < 2 ^ 31 ∧ decimal minor < 2 ^ 31) → isVersion = false)

/-- The text begins with a version one number of which has more than 49 digits, or does not fit into
an `int`, and is not made of zeros. -/
def MisreadsVersion (s : List UInt8) : Prop :=
  ∃ name major minor rest, IsVersion s name major minor rest ∧ ¬ (Fits major ∧ Fits minor)

section Reads

variable {h : Heap} {http : Http11Http} {request : Stringaa} {name major minor rest : List UInt8}

private theorem http11HttpVersion_found (hread : Readable h request)
    (hversion : IsVersion (request.unread h) name major minor rest) :
    http11HttpVersion h http request = some (true,
      http.setHttpVersion ⟨Text.number major, Text.number minor⟩,
      request.seek (request.readPos + (name ++ (major ++ ch '.' :: minor)).length)) := by
  have hrun := version_reads http request _ hread.shows
  have hfound := versionNumbers_eq_some.mpr ⟨name, major, minor, hversion, rfl⟩
  have htext : request.unread h = name ++ (major ++ ch '.' :: minor) ++ rest := by
    rw [List.append_assoc, List.append_assoc, List.cons_append]
    exact hversion.text
  have hpos := Cursor.to_pos (c := ⟨request.readPos, request.unread h⟩) htext
  simp only [ReadsAt, Text.version, find, hfound, hpos] at hrun
  exact hrun

private theorem http11HttpVersion_none (hread : Readable h request)
    (hnone : ∀ name major minor rest, ¬ IsVersion (request.unread h) name major minor rest) :
    http11HttpVersion h http request = some (false, http, request) := by
  have hrun := version_reads http request _ hread.shows
  have hnot : Text.versionNumbers (request.unread h) = none := by
    rw [Option.eq_none_iff_forall_ne_some]
    rintro ⟨version, rest⟩ hfound
    obtain ⟨name, major, minor, hversion, -⟩ := versionNumbers_eq_some.mp hfound
    exact hnone name major minor rest hversion
  simp only [ReadsAt, Text.version, find, hnot] at hrun
  exact hrun

end Reads

/-- The versions that are read faithfully are those with two numbers that `int` and `buf_int` hold,
and zeros. -/
theorem http11HttpVersion_reads (h : Heap) (http : Http11Http) (request : Stringaa)
    (hread : Readable h request) :
    ReadsVersion h http request ↔ ¬ MisreadsVersion (request.unread h) := by
  constructor
  · rintro ⟨isVersion, http', request', hrun, hright, hrefuse⟩
    rintro ⟨name, major, minor, rest, hversion, hwrong⟩
    rw [http11HttpVersion_found hread hversion] at hrun
    obtain ⟨rfl, hstored⟩ := Prod.mk.inj (Option.some.inj hrun)
    obtain ⟨rfl, rfl⟩ := Prod.mk.inj hstored
    obtain ⟨name', major', minor', rest', hversion', -, hnumbers⟩ := hright rfl
    obtain ⟨rfl, rfl⟩ := hversion.unique hversion'
    have hfits := not_not.mp fun hbig => Bool.noConfusion (hrefuse _ _ _ _ hversion hbig)
    obtain ⟨hmajor, hminor⟩ := Http11HttpVersion.mk.inj hnumbers
    apply hwrong
    constructor
    · exact (number_right_iff hversion.major.all).mp ⟨hmajor, hfits.1⟩
    · exact (number_right_iff hversion.minor.all).mp ⟨hminor, hfits.2⟩
  · intro hright
    by_cases hsome : ∃ name major minor rest, IsVersion (request.unread h) name major minor rest
    · obtain ⟨name, major, minor, rest, hversion⟩ := hsome
      have hfits := not_not.mp fun hwrong => hright ⟨name, major, minor, rest, hversion, hwrong⟩
      obtain ⟨hmajor, hmajor'⟩ := (number_right_iff hversion.major.all).mpr hfits.1
      obtain ⟨hminor, hminor'⟩ := (number_right_iff hversion.minor.all).mpr hfits.2
      refine ⟨_, _, _, http11HttpVersion_found hread hversion, fun _ => ?_, ?_⟩
      · rw [hmajor, hminor]
        exact ⟨name, major, minor, rest, hversion, rfl, rfl⟩
      · intro name' major' minor' rest' hversion' hbig
        obtain ⟨rfl, rfl⟩ := hversion.unique hversion'
        exact absurd ⟨hmajor', hminor'⟩ hbig
    · simp only [not_exists] at hsome
      refine ⟨_, _, _, http11HttpVersion_none hread hsome, by simp, ?_⟩
      intro name major minor rest hversion
      exact absurd hversion (hsome name major minor rest)

/-- `HTTP/1.1`. -/
theorem http11HttpVersion_reads_current :
    ReadsVersion (.ofText (literal "HTTP/1.1")) {} (.ofText 0 8) := by
  apply (http11HttpVersion_reads _ {} (.ofText 0 8) ⟨by decide, by decide⟩).mpr
  have hversion : IsVersion ((Stringaa.ofText 0 8).unread (.ofText (literal "HTTP/1.1")))
      (literal "HTTP/") (literal "1") (literal "1") [] :=
    ⟨by decide, by decide, ⟨by decide, by decide +kernel⟩, ⟨by decide, by decide +kernel⟩,
      by decide +kernel⟩
  rintro ⟨name, major, minor, rest, hversion', hwrong⟩
  obtain ⟨rfl, rfl⟩ := hversion.unique hversion'
  exact hwrong ⟨.inl (by decide), .inl (by decide)⟩

/-- `HTTP/4294967297.1` is taken for `HTTP/1.1`. -/
theorem not_http11HttpVersion_reads :
    ¬ ReadsVersion (.ofText (literal "HTTP/4294967297.1")) {} (.ofText 0 17) := by
  have hversion : IsVersion ((Stringaa.ofText 0 17).unread (.ofText (literal "HTTP/4294967297.1")))
      (literal "HTTP/") (literal "4294967297") (literal "1") [] :=
    ⟨by decide, by decide, ⟨by decide, by decide +kernel⟩, ⟨by decide, by decide +kernel⟩,
      by decide +kernel⟩
  rintro ⟨isVersion, http, request, hrun, -, hrefuse⟩
  obtain rfl := hrefuse _ _ _ _ hversion (by decide)
  rw [http11HttpVersion_found ⟨by decide, by decide⟩ hversion] at hrun
  cases hrun

end Httpaa
