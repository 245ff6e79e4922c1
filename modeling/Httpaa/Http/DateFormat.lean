import Httpaa.Http.Accepts
import Httpaa.Http.Date

/-!
# The three date formats

A format is a sequence of parts. What counts as a name and as a day of a date is left open: the same
sequences then tell the dates of the three formats, the dates that the recognisers find, and
whatever else the recognisers take for a date.
-/

namespace Httpaa

open Recogniser Stringaa

/-- A part of a date format. -/
inductive DatePart
  | char (c : UInt8)
  | digits (n : Nat)
  | name (names : List String)
  | gmt
  | day

/-- What counts as a name of a table, and as a day. -/
structure DateForm where
  name : List String → List UInt8 → Prop
  day : List UInt8 → Prop

namespace DatePart

def time : List DatePart := [digits 2, char (ch ':'), digits 2, char (ch ':'), digits 2]

def sp : DatePart := char http11Sp

/-- `wkday, 2DIGIT month 4DIGIT time GMT`. -/
def rfc1123 : List DatePart :=
  [name http11DateWkdayArray, char (ch ','), sp] ++
    ([digits 2, sp, name http11DateMonthArray, sp, digits 4] ++ (sp :: (time ++ [sp, gmt])))

/-- `weekday, 2DIGIT-month-2DIGIT time GMT`. -/
def rfc850 : List DatePart :=
  [name http11DateWeekdayArray, char (ch ','), sp] ++
    ([digits 2, char (ch '-'), name http11DateMonthArray, char (ch '-'), digits 2] ++
      (sp :: (time ++ [sp, gmt])))

/-- `wkday month day time 4DIGIT`. -/
def asctime : List DatePart :=
  [name http11DateWkdayArray, sp] ++
    ([name http11DateMonthArray, sp, day] ++ (sp :: (time ++ [sp, digits 4])))

def Piece (form : DateForm) : DatePart → List UInt8 → Prop
  | char c, piece => piece = [c]
  | digits n, piece => piece.length = n ∧ piece.all digitChars = true
  | name names, piece => form.name names piece
  | gmt, piece => piece.map toUpper = literal "GMT"
  | day, piece => form.day piece

def reader : DatePart → Text.DateReader
  | char c => Text.isChar c
  | digits n => Text.digits n
  | name names => Text.nameLoop names
  | gmt => Text.matchUpper (literal "GMT")
  | day => Text.day

end DatePart

/-- `s` begins with the parts, and `rest` is what comes behind them. -/
def Begins (form : DateForm) : List DatePart → List UInt8 → List UInt8 → Prop
  | [], s, rest => s = rest
  | part :: parts, s, rest =>
      ∃ piece s', part.Piece form piece ∧ s = piece ++ s' ∧ Begins form parts s' rest

/-- The three formats, in the order of the source. -/
def dateFormats : List (List DatePart) := [DatePart.rfc1123, DatePart.rfc850, DatePart.asctime]

/-- `s` begins with a date in one of the three formats. -/
def BeginsDate (form : DateForm) (s rest : List UInt8) : Prop :=
  ∃ parts ∈ dateFormats, Begins form parts s rest

def Named (names : List String) (piece : List UInt8) : Prop :=
  ∃ name ∈ names, piece.map toLower = (literal name).map toLower

def OneDigitDay (piece : List UInt8) : Prop := ∃ x, digitChars x = true ∧ piece = [http11Sp, x]

def TwoDigitDay (piece : List UInt8) : Prop := piece.length = 2 ∧ piece.all digitChars = true

def httpDate : DateForm where
  name := Named
  day piece := TwoDigitDay piece ∨ OneDigitDay piece

/-- The names that an entry further up in their table begins with the letter of. -/
def shadowedNames : List String :=
  ["Thu", "Sun", "Thursday", "Sunday", "May", "Jun", "Jul", "Aug"]

/-- The dates that name none of `shadowedNames` and have a day of one digit where the two ways to
write it are looked for. -/
def plainDate : DateForm where
  name names := Named (names.filter fun name => !shadowedNames.contains name)
  day := OneDigitDay

/-- A name of the table behind beginnings of entries above it. A beginning ends where the text
departs from its entry. -/
inductive Scanned : List String → List UInt8 → Prop
  | found {name : String} {names : List String} {piece : List UInt8} :
      piece.map toLower = (literal name).map toLower → Scanned (name :: names) piece
  | after {name : String} {names : List String} {front back skipped piece : List UInt8}
      {x y : UInt8} : literal name = front ++ y :: back →
      skipped.map toLower = front.map toLower → toLower y ≠ toLower x →
      Scanned names (x :: piece) → Scanned (name :: names) (skipped ++ x :: piece)

/-- Dates with beginnings of other names in front of their names. -/
def scannedDate : DateForm where
  name := Scanned
  day := OneDigitDay

/-! ### The recognisers find the parts -/

section Accepts

variable {g : Text.DateReader} {gs gs' : List Text.DateReader} {l r : List UInt8}

private theorem accepts_nil : Accepts (Text.inTurn []) l r ↔ l = r := by
  simp [Accepts, Text.inTurn]

private theorem accepts_cons :
    Accepts (Text.inTurn (g :: gs)) l r ↔ ∃ m, Accepts g l m ∧ Accepts (Text.inTurn gs) m r := by
  constructor
  · intro h
    by_cases hok : (g l).1 = true
    · exact ⟨(g l).2, accepts_iff.mpr ⟨hok, rfl⟩, by simpa [Accepts, Text.inTurn, hok] using h⟩
    · simp [Accepts, Text.inTurn, hok] at h
  · rintro ⟨m, hg, hgs⟩
    rw [Accepts] at hg
    rw [Accepts, Text.inTurn, hg, if_pos rfl]
    exact hgs

private theorem accepts_append :
    Accepts (Text.inTurn (gs ++ gs')) l r ↔
      ∃ m, Accepts (Text.inTurn gs) l m ∧ Accepts (Text.inTurn gs') m r := by
  induction gs generalizing l with
  | nil => simp [accepts_nil]
  | cons g gs ih =>
      simp only [List.cons_append, accepts_cons, ih]
      constructor
      · rintro ⟨m, hg, k, hgs, hgs'⟩
        exact ⟨k, ⟨m, hg, hgs⟩, hgs'⟩
      · rintro ⟨k, ⟨m, hg, hgs⟩, hgs'⟩
        exact ⟨m, hg, k, hgs, hgs'⟩

private theorem accepts_rewinding : Accepts (Text.rewinding g) l r ↔ Accepts g l r := by
  by_cases hok : (g l).1 = true
  · simp [Accepts, Text.rewinding, hok]
  · simp [accepts_iff, Text.rewinding, hok]

private theorem accepts_group :
    Accepts (Text.inTurn (Text.rewinding (Text.inTurn gs) :: gs')) l r ↔
      Accepts (Text.inTurn (gs ++ gs')) l r := by
  rw [accepts_cons, accepts_append]
  exact exists_congr fun m => and_congr_left fun _ => accepts_rewinding

end Accepts

section Reader

variable {s l r : List UInt8}

private theorem digits_accepts {n : Nat} : Accepts (Text.digits n) l r ↔
    ∃ piece, (piece.length = n ∧ piece.all digitChars = true) ∧ l = piece ++ r := by
  induction n generalizing l with
  | zero => simp [Accepts, Text.digits]
  | succ n ih =>
      constructor
      · intro h
        rcases l with _ | ⟨x, l⟩
        · simp [Accepts, Text.digits] at h
        · by_cases hx : digitChars x = true
          · obtain ⟨piece, ⟨hlength, hall⟩, rfl⟩ :=
              ih.mp (by simpa [Accepts, Text.digits, hx] using h)
            exact ⟨x :: piece, ⟨by simp [hlength], by simp [hx, hall]⟩, rfl⟩
          · simp [Accepts, Text.digits, hx] at h
      · rintro ⟨piece, ⟨hlength, hall⟩, rfl⟩
        obtain ⟨x, piece, rfl⟩ := List.exists_cons_of_length_eq_add_one hlength
        rw [List.all_cons, Bool.and_eq_true] at hall
        have hrest := ih.mpr ⟨piece, ⟨by simpa using hlength, hall.2⟩, rfl⟩
        simpa [Accepts, Text.digits, hall.1] using hrest

private theorem day_accepts : Accepts Text.day l r ↔ ∃ piece, OneDigitDay piece ∧
    l = piece ++ r := by
  have hsp : digitChars http11Sp = false := by decide
  have hone : Accepts (Text.inTurn [Text.isChar http11Sp, Text.digits 1]) l r ↔
      ∃ piece, OneDigitDay piece ∧ l = piece ++ r := by
    simp only [accepts_cons, accepts_nil, isChar_accepts, digits_accepts]
    constructor
    · rintro ⟨_, rfl, _, ⟨piece, ⟨hlength, hall⟩, rfl⟩, rfl⟩
      obtain ⟨x, rfl⟩ := List.length_eq_one_iff.mp hlength
      exact ⟨[http11Sp, x], ⟨x, by simpa using hall, rfl⟩, rfl⟩
    · rintro ⟨_, ⟨x, hx, rfl⟩, rfl⟩
      exact ⟨_, rfl, _, ⟨[x], ⟨rfl, by simpa using hx⟩, rfl⟩, rfl⟩
  rw [← hone]
  by_cases htwo : (Text.digits 2 l).1 = true
  · -- two digits leave the function without a date, and do not begin with a space either
    refine ⟨fun h => by simp [Accepts, Text.day, htwo] at h, fun h => ?_⟩
    obtain ⟨piece, ⟨x, -, rfl⟩, rfl⟩ := hone.mp h
    simp [Text.digits, hsp] at htwo
  · simp [Accepts, Text.day, htwo]

private theorem matchLower_found {pc piece : List UInt8} (h : piece.map toLower = pc.map toLower) :
    Text.matchLower pc (piece ++ s) = (true, s) := by
  induction pc generalizing piece with
  | nil =>
      obtain rfl : piece = [] := by simpa using h
      rfl
  | cons x pc ih =>
      obtain ⟨y, piece, rfl, hxy, hpiece⟩ := List.map_eq_cons_iff.mp h
      simpa [Text.matchLower, hxy] using ih hpiece

private theorem matchLower_stopped {front back skipped : List UInt8} {x y : UInt8}
    (h : skipped.map toLower = front.map toLower) (hxy : toLower y ≠ toLower x) :
    Text.matchLower (front ++ y :: back) (skipped ++ x :: s) = (false, x :: s) := by
  induction front generalizing skipped with
  | nil =>
      obtain rfl : skipped = [] := by simpa using h
      simp [Text.matchLower, hxy]
  | cons z front ih =>
      obtain ⟨w, skipped, rfl, hzw, hskipped⟩ := List.map_eq_cons_iff.mp h
      simpa [Text.matchLower, hzw] using ih hskipped

private theorem matchLower_cases (pc l : List UInt8) :
    (∃ piece, piece.map toLower = pc.map toLower ∧ l = piece ++ (Text.matchLower pc l).2 ∧
      (Text.matchLower pc l).1 = true) ∨
    (∃ front back skipped y, pc = front ++ y :: back ∧ skipped.map toLower = front.map toLower ∧
      l = skipped ++ (Text.matchLower pc l).2 ∧ (Text.matchLower pc l).1 = false ∧
      ∀ x t, (Text.matchLower pc l).2 = x :: t → toLower y ≠ toLower x) := by
  fun_induction Text.matchLower pc l with
  | case1 s => exact .inl ⟨[], rfl, rfl, rfl⟩
  | case2 y back => exact .inr ⟨[], back, [], y, rfl, rfl, rfl, rfl, fun x t ht => by cases ht⟩
  | case3 x pc y s hxy ih =>
      rcases ih with ⟨piece, hpiece, hs, hok⟩ |
        ⟨front, back, skipped, z, rfl, hskipped, hs, hok, hz⟩
      · exact .inl ⟨y :: piece, by simp [hxy, hpiece], by rw [List.cons_append, ← hs], hok⟩
      · exact .inr ⟨x :: front, back, y :: skipped, z, rfl, by simp [hxy, hskipped],
          by rw [List.cons_append, ← hs], hok, hz⟩
  | case4 y back x s hne =>
      refine .inr ⟨[], back, [], y, rfl, rfl, rfl, rfl, fun x' t ht => ?_⟩
      obtain ⟨rfl, -⟩ := List.cons.inj ht
      exact hne

theorem Scanned.ne_nil {names : List String} {piece : List UInt8} (h : Scanned names piece)
    (hnames : ∀ name ∈ names, literal name ≠ []) : piece ≠ [] := by
  cases h with
  | found hpiece =>
      rintro rfl
      exact hnames _ List.mem_cons_self (by simpa using hpiece.symm)
  | after => simp

private theorem nameLoop_accepts {names : List String}
    (hnames : ∀ name ∈ names, literal name ≠ []) :
    Accepts (Text.nameLoop names) l r ↔ ∃ piece, Scanned names piece ∧ l = piece ++ r := by
  induction names generalizing l with
  | nil =>
      refine ⟨fun h => by simp [Accepts, Text.nameLoop] at h, ?_⟩
      rintro ⟨piece, hpiece, -⟩
      cases hpiece
  | cons name names ih =>
      have hrest : ∀ n ∈ names, literal n ≠ [] := fun n hn =>
        hnames n (List.mem_cons_of_mem name hn)
      constructor
      · intro h
        rcases matchLower_cases (literal name) l with
          ⟨piece, hpiece, hl, hok⟩ | ⟨front, back, skipped, y, hname, hskipped, hl, hok, hy⟩
        · have hr : (Text.matchLower (literal name) l).2 = r := by
            simpa [Accepts, Text.nameLoop, hok] using h
          exact ⟨piece, .found hpiece, by rw [← hr, ← hl]⟩
        · obtain ⟨piece, hpiece, hleft⟩ :=
            (ih hrest).mp (by simpa [Accepts, Text.nameLoop, hok] using h)
          obtain ⟨x, piece, rfl⟩ := List.exists_cons_of_ne_nil (hpiece.ne_nil hrest)
          exact ⟨skipped ++ x :: piece, .after hname hskipped (hy x _ hleft) hpiece, by
            rw [List.append_assoc, ← hleft, ← hl]⟩
      · rintro ⟨piece, hpiece, rfl⟩
        cases hpiece with
        | found hpiece => simp [Accepts, Text.nameLoop, matchLower_found hpiece]
        | @after _ _ front back skipped piece x y hname hskipped hxy hpiece =>
            have hfound := (ih hrest).mpr ⟨x :: piece, hpiece, rfl⟩
            have hstopped : Text.matchLower (literal name) (skipped ++ x :: (piece ++ r)) =
                (false, x :: (piece ++ r)) := by
              rw [hname]
              exact matchLower_stopped hskipped hxy
            simpa [Accepts, Text.nameLoop, hstopped] using hfound

end Reader

/-! ### The parts of a format in turn -/

def dateTables : List (List String) :=
  [http11DateWkdayArray, http11DateWeekdayArray, http11DateMonthArray]

/-- The names of a part are one of the tables. -/
def DatePart.Tabled : DatePart → Prop
  | name names => names ∈ dateTables
  | _ => True

private theorem dateTables_ne_nil : ∀ names ∈ dateTables, ∀ name ∈ names, literal name ≠ [] := by
  decide +kernel

private theorem dateFormats_tabled : ∀ parts ∈ dateFormats, ∀ part ∈ parts, part.Tabled := by
  simp [dateFormats, DatePart.rfc1123, DatePart.rfc850, DatePart.asctime, DatePart.time,
    DatePart.sp, DatePart.Tabled, dateTables]

section Parts

variable {part : DatePart} {parts : List DatePart} {s l r : List UInt8} {form form' : DateForm}

private theorem reader_accepts (hpart : part.Tabled) :
    Accepts part.reader l r ↔ ∃ piece, part.Piece scannedDate piece ∧ l = piece ++ r := by
  cases part with
  | char c => simp [DatePart.reader, DatePart.Piece, isChar_accepts]
  | digits n => exact digits_accepts
  | name names => exact nameLoop_accepts (dateTables_ne_nil names hpart)
  | gmt => exact matchUpper_accepts
  | day => exact day_accepts

private theorem parts_accepts (hparts : ∀ part ∈ parts, part.Tabled) :
    Accepts (Text.inTurn (parts.map DatePart.reader)) l r ↔ Begins scannedDate parts l r := by
  induction parts generalizing l with
  | nil => simp [accepts_nil, Begins]
  | cons part parts ih =>
      have hrest := fun m => ih (l := m) fun p hp => hparts p (List.mem_cons_of_mem part hp)
      simp only [List.map_cons, accepts_cons, hrest,
        reader_accepts (hparts part List.mem_cons_self), Begins]
      constructor
      · rintro ⟨m, ⟨piece, hpiece, rfl⟩, hm⟩
        exact ⟨piece, m, hpiece, rfl, hm⟩
      · rintro ⟨piece, m, hpiece, rfl, hm⟩
        exact ⟨m, ⟨piece, hpiece, rfl⟩, hm⟩

theorem Begins.mono
    (hpart : ∀ part ∈ parts, ∀ piece, part.Piece form piece → part.Piece form' piece)
    (h : Begins form parts s r) : Begins form' parts s r := by
  induction parts generalizing s with
  | nil => exact h
  | cons part parts ih =>
      obtain ⟨piece, s', hpiece, rfl, hrest⟩ := h
      exact ⟨piece, s', hpart part List.mem_cons_self piece hpiece, rfl,
        ih (fun p hp => hpart p (List.mem_cons_of_mem part hp)) hrest⟩

private theorem rfc1123Date_accepts :
    Accepts Text.rfc1123Date l r ↔ Begins scannedDate DatePart.rfc1123 l r := by
  rw [← parts_accepts (dateFormats_tabled _ (by simp [dateFormats]))]
  simp only [Text.rfc1123Date, accepts_rewinding, Text.date1, Text.time]
  simp only [↓accepts_group, accepts_cons, DatePart.rfc1123, DatePart.time, DatePart.sp,
    DatePart.reader, List.map_cons, List.map_nil, List.cons_append, List.nil_append]

private theorem rfc850Date_accepts :
    Accepts Text.rfc850Date l r ↔ Begins scannedDate DatePart.rfc850 l r := by
  rw [← parts_accepts (dateFormats_tabled _ (by simp [dateFormats]))]
  simp only [Text.rfc850Date, accepts_rewinding, Text.date2, Text.time]
  simp only [↓accepts_group, accepts_cons, DatePart.rfc850, DatePart.time, DatePart.sp,
    DatePart.reader, List.map_cons, List.map_nil, List.cons_append, List.nil_append]

private theorem asctimeDate_accepts :
    Accepts Text.asctimeDate l r ↔ Begins scannedDate DatePart.asctime l r := by
  rw [← parts_accepts (dateFormats_tabled _ (by simp [dateFormats]))]
  simp only [Text.asctimeDate, accepts_rewinding, Text.date3, Text.time]
  simp only [↓accepts_group, accepts_cons, DatePart.asctime, DatePart.time, DatePart.sp,
    DatePart.reader, List.map_cons, List.map_nil, List.cons_append, List.nil_append]

end Parts

/-! ### What the scan of a table does to a name -/

section Scan

variable {names : List String} {pc a b s : List UInt8}

private theorem matchLower_append
    (hstop : (Text.matchLower pc a).1 = true ∨ (Text.matchLower pc a).2 ≠ []) :
    Text.matchLower pc (a ++ s) = ((Text.matchLower pc a).1, (Text.matchLower pc a).2 ++ s) := by
  fun_induction Text.matchLower pc a with
  | case1 a => rfl
  | case2 => simp at hstop
  | case3 x pc y a hxy ih => simpa [Text.matchLower, hxy] using ih hstop
  | case4 x pc y a hxy => simp [Text.matchLower, hxy]

private theorem nameLoop_nil (hnames : ∀ name ∈ names, literal name ≠ []) :
    Text.nameLoop names [] = (false, []) := by
  induction names with
  | nil => rfl
  | cons name names ih =>
      obtain ⟨x, pc, hname⟩ := List.exists_cons_of_ne_nil (hnames name List.mem_cons_self)
      simpa [Text.nameLoop, hname, Text.matchLower] using
        ih fun n hn => hnames n (List.mem_cons_of_mem name hn)

private theorem nameLoop_append (hnames : ∀ name ∈ names, literal name ≠ [])
    (hstop : (Text.nameLoop names a).1 = true ∨ (Text.nameLoop names a).2 ≠ []) :
    Text.nameLoop names (a ++ s) = ((Text.nameLoop names a).1, (Text.nameLoop names a).2 ++ s) := by
  induction names generalizing a with
  | nil => rfl
  | cons name names ih =>
      have hrest : ∀ n ∈ names, literal n ≠ [] := fun n hn =>
        hnames n (List.mem_cons_of_mem name hn)
      by_cases hok : (Text.matchLower (literal name) a).1 = true
      · simp [Text.nameLoop, hok, matchLower_append (.inl hok)]
      · have hstop' : (Text.nameLoop names (Text.matchLower (literal name) a).2).1 = true ∨
            (Text.nameLoop names (Text.matchLower (literal name) a).2).2 ≠ [] := by
          simpa [Text.nameLoop, hok] using hstop
        have hleft : (Text.matchLower (literal name) a).2 ≠ [] := by
          intro hnil
          simp [hnil, nameLoop_nil hrest] at hstop'
        simpa [Text.nameLoop, hok, matchLower_append (.inr hleft)] using ih hrest hstop'

private theorem matchLower_lower (pc : List UInt8) (h : a.map toLower = b.map toLower) :
    (Text.matchLower pc a).1 = (Text.matchLower pc b).1 ∧
      (Text.matchLower pc a).2.map toLower = (Text.matchLower pc b).2.map toLower := by
  induction pc generalizing a b with
  | nil => exact ⟨rfl, h⟩
  | cons x pc ih =>
      rcases a with _ | ⟨y, a⟩
      · obtain rfl : b = [] := by simpa using h.symm
        exact ⟨rfl, rfl⟩
      · obtain ⟨z, b, rfl, hyz, hab⟩ := List.map_eq_cons_iff.mp h.symm
        by_cases hxy : toLower x = toLower y
        · simpa [Text.matchLower, hxy, hyz] using ih hab.symm
        · simp [Text.matchLower, hxy, hyz, hab]

private theorem nameLoop_lower (names : List String) (h : a.map toLower = b.map toLower) :
    (Text.nameLoop names a).1 = (Text.nameLoop names b).1 ∧
      (Text.nameLoop names a).2.map toLower = (Text.nameLoop names b).2.map toLower := by
  induction names generalizing a b with
  | nil => exact ⟨rfl, h⟩
  | cons name names ih =>
      obtain ⟨hok, hleft⟩ := matchLower_lower (literal name) h
      rw [Text.nameLoop, Text.nameLoop, hok]
      split
      · exact ⟨rfl, hleft⟩
      · exact ih hleft

end Scan

private theorem dateTables_scan : ∀ names ∈ dateTables, ∀ name ∈ names,
    if shadowedNames.contains name then
      (Text.nameLoop names (literal name)).1 = false ∧ (Text.nameLoop names (literal name)).2 ≠ []
    else Text.nameLoop names (literal name) = (true, []) := by
  decide +kernel

private theorem named_scan {names : List String} (hnames : names ∈ dateTables) {piece : List UInt8}
    (h : Named names piece) :
    (Named (names.filter fun name => !shadowedNames.contains name) piece ∧
      Text.nameLoop names piece = (true, [])) ∨
    ((Text.nameLoop names piece).1 = false ∧ (Text.nameLoop names piece).2 ≠ []) := by
  obtain ⟨name, hname, hpiece⟩ := h
  obtain ⟨hok, hleft⟩ := nameLoop_lower names hpiece
  have hscan := dateTables_scan names hnames name hname
  by_cases hshadowed : shadowedNames.contains name = true
  · rw [if_pos hshadowed] at hscan
    refine .inr ⟨hok.trans hscan.1, fun hnil => hscan.2 ?_⟩
    simpa [hnil] using hleft.symm
  · rw [if_neg hshadowed] at hscan
    refine .inl ⟨⟨name, List.mem_filter.mpr ⟨hname, by simpa using hshadowed⟩, hpiece⟩, ?_⟩
    rw [hscan] at hok hleft
    exact Prod.ext hok (by simpa using hleft)

/-! ### A text begins with one date at most -/

section Unique

variable {part : DatePart} {parts parts' : List DatePart} {s s₁ s₂ p q rest r : List UInt8}

private theorem plain_date (h : part.Piece plainDate p) : part.Piece httpDate p := by
  cases part with
  | char c => exact h
  | digits n => exact h
  | name names =>
      obtain ⟨name, hname, hp⟩ := h
      exact ⟨name, List.mem_of_mem_filter hname, hp⟩
  | gmt => exact h
  | day => exact .inr h

private theorem plain_scanned (hpart : part.Tabled) (h : part.Piece plainDate p) :
    part.Piece scannedDate p := by
  cases part with
  | char c => exact h
  | digits n => exact h
  | name names =>
      obtain ⟨name, hname, hp⟩ := h
      rw [List.mem_filter] at hname
      have hscan := dateTables_scan names hpart name hname.1
      rw [if_neg (by simpa using hname.2)] at hscan
      obtain ⟨hok, hleft⟩ := nameLoop_lower names hp
      rw [hscan] at hok hleft
      obtain ⟨piece, hpiece, heq⟩ := (nameLoop_accepts (dateTables_ne_nil names hpart)).mp
        (accepts_iff.mpr ⟨hok, List.map_eq_nil_iff.mp hleft⟩)
      rwa [heq, List.append_nil]
  | gmt => exact h
  | day => exact h

private theorem piece_unique (hpart : part.Tabled) (hp : part.Piece httpDate p)
    (hq : part.Piece scannedDate q) (heq : p ++ s₁ = q ++ s₂) : part.Piece plainDate p ∧ p = q := by
  cases part with
  | char c =>
      obtain rfl : p = [c] := hp
      obtain rfl : q = [c] := hq
      exact ⟨rfl, rfl⟩
  | digits n => exact ⟨hp, List.append_inj_left heq (hp.1.trans hq.1.symm)⟩
  | name names =>
      have hne := dateTables_ne_nil names hpart
      have hfound : Accepts (Text.nameLoop names) (q ++ s₂) s₂ :=
        (nameLoop_accepts hne).mpr ⟨q, hq, rfl⟩
      rw [Accepts, ← heq] at hfound
      rcases named_scan hpart hp with ⟨hplain, hscan⟩ | ⟨hlost, hleft⟩
      · rw [nameLoop_append hne (.inl (by rw [hscan])), hscan] at hfound
        obtain rfl : s₁ = s₂ := congrArg Prod.snd hfound
        exact ⟨hplain, List.append_cancel_right heq⟩
      · rw [nameLoop_append hne (.inr hleft), hlost] at hfound
        simp at hfound
  | gmt =>
      have hlength := congrArg List.length (Eq.trans hp hq.symm)
      rw [List.length_map, List.length_map] at hlength
      exact ⟨hp, List.append_inj_left heq hlength⟩
  | day =>
      obtain ⟨x, hx, rfl⟩ := hq
      have hlength : p.length = 2 := by
        rcases hp with htwo | ⟨y, -, rfl⟩
        · exact htwo.1
        · rfl
      obtain rfl := List.append_inj_left heq hlength
      exact ⟨⟨x, hx, rfl⟩, rfl⟩

private theorem begins_unique (hparts : ∀ part ∈ parts, part.Tabled)
    (hdate : Begins httpDate parts s rest) (hscan : Begins scannedDate parts s r) :
    Begins plainDate parts s rest ∧ r = rest := by
  induction parts generalizing s with
  | nil => exact ⟨hdate, hscan.symm.trans hdate⟩
  | cons part parts ih =>
      obtain ⟨p, s₁, hp, rfl, hdate⟩ := hdate
      obtain ⟨q, s₂, hq, heq, hscan⟩ := hscan
      obtain ⟨hplain, rfl⟩ := piece_unique (hparts part List.mem_cons_self) hp hq heq
      obtain rfl := List.append_cancel_left heq
      obtain ⟨hrest, rfl⟩ := ih (fun p hp => hparts p (List.mem_cons_of_mem part hp)) hdate hscan
      exact ⟨⟨p, s₁, hplain, rfl, hrest⟩, rfl⟩

/-- The scan of `names'` over a name of `names` with `c` behind it stops in front of `c`, and not in
front of `c'`. -/
def NamesApart (names names' : List String) (c c' : UInt8) : Prop :=
  ∀ name ∈ names, (Text.nameLoop names' (literal name ++ [c])).2 ≠ [] ∧
    ((Text.nameLoop names' (literal name ++ [c])).1 = true →
      ((Text.nameLoop names' (literal name ++ [c])).2.map toLower).head? ≠ some (toLower c'))

instance (names names' : List String) (c c' : UInt8) : Decidable (NamesApart names names' c c') :=
  inferInstanceAs (Decidable (∀ name ∈ names, _))

private theorem begins_apart {names names' : List String} {c c' : UInt8}
    (hnames' : names' ∈ dateTables) (hapart : NamesApart names names' c c')
    (hdate : Begins httpDate (.name names :: .char c :: parts) s rest) :
    ¬ Begins scannedDate (.name names' :: .char c' :: parts') s r := by
  rintro ⟨q, s₂, hq, heq, _, s₃, rfl, rfl, -⟩
  obtain ⟨p, s₁, ⟨name, hname, hp⟩, rfl, _, s₁, rfl, rfl, -⟩ := hdate
  obtain ⟨hstop, hnext⟩ := hapart name hname
  have hcase : (p ++ [c]).map toLower = (literal name ++ [c]).map toLower := by
    rw [List.map_append, List.map_append, hp]
  obtain ⟨hok, hleft⟩ := nameLoop_lower names' hcase
  have hne := dateTables_ne_nil names' hnames'
  have hfound : Accepts (Text.nameLoop names') (q ++ ([c'] ++ s₃)) ([c'] ++ s₃) :=
    (nameLoop_accepts hne).mpr ⟨q, hq, rfl⟩
  have hstop' : (Text.nameLoop names' (p ++ [c])).2 ≠ [] := by
    intro hnil
    exact hstop (by simpa [hnil] using hleft.symm)
  rw [Accepts, ← heq, ← List.append_assoc, nameLoop_append hne (.inr hstop')] at hfound
  obtain ⟨x, t, ht⟩ := List.exists_cons_of_ne_nil hstop'
  rw [ht] at hfound hleft
  obtain ⟨hfound, hx⟩ := Prod.mk.inj hfound
  refine hnext (hok.symm.trans hfound) ?_
  rw [← hleft, ← (List.cons.inj hx).1]
  rfl

private theorem format_unique (hparts : parts ∈ dateFormats) (hparts' : parts' ∈ dateFormats)
    (hdate : Begins httpDate parts s rest) (hscan : Begins scannedDate parts' s r) :
    parts = parts' := by
  have hwkday : http11DateWkdayArray ∈ dateTables := by simp [dateTables]
  have hweekday : http11DateWeekdayArray ∈ dateTables := by simp [dateTables]
  simp only [dateFormats, List.mem_cons, List.not_mem_nil, or_false] at hparts hparts'
  rcases hparts with rfl | rfl | rfl
  · rcases hparts' with rfl | rfl | rfl
    · rfl
    · exact absurd hscan (begins_apart hweekday (by decide +kernel) hdate)
    · exact absurd hscan (begins_apart hwkday (by decide +kernel) hdate)
  · rcases hparts' with rfl | rfl | rfl
    · exact absurd hscan (begins_apart hwkday (by decide +kernel) hdate)
    · rfl
    · exact absurd hscan (begins_apart hwkday (by decide +kernel) hdate)
  · rcases hparts' with rfl | rfl | rfl
    · exact absurd hscan (begins_apart hwkday (by decide +kernel) hdate)
    · exact absurd hscan (begins_apart hweekday (by decide +kernel) hdate)
    · rfl

private theorem date_unique (hdate : BeginsDate httpDate s rest)
    (hscan : BeginsDate scannedDate s r) :
    BeginsDate plainDate s rest ∧ r = rest := by
  obtain ⟨parts, hparts, hdate⟩ := hdate
  obtain ⟨parts', hparts', hscan⟩ := hscan
  obtain rfl := format_unique hparts hparts' hdate hscan
  obtain ⟨hplain, hr⟩ := begins_unique (dateFormats_tabled parts hparts) hdate hscan
  exact ⟨⟨parts, hparts, hplain⟩, hr⟩

end Unique

/-! ### What `http11_date` recognises -/

/-- The reader finds one of the formats, or leaves the text as it is where it begins with none. -/
structure FindsDate (g : Text.DateReader) (formats : List (List DatePart)) : Prop where
  found : ∀ s, (g s).1 = true → ∃ parts ∈ formats, Begins scannedDate parts s (g s).2
  unchanged : ∀ s, (g s).1 = false → (g s).2 = s
  none : ∀ s, (g s).1 = false → ∀ parts ∈ formats, ∀ r, ¬ Begins scannedDate parts s r

section FindsDate

variable {g g' : Text.DateReader} {parts : List DatePart} {formats formats' : List (List DatePart)}

theorem FindsDate.single
    (haccepts : ∀ {l r}, Accepts (Text.rewinding g) l r ↔ Begins scannedDate parts l r) :
    FindsDate (Text.rewinding g) [parts] := by
  constructor
  · intro s hok
    exact ⟨parts, List.mem_singleton_self parts, haccepts.mp (accepts_iff.mpr ⟨hok, rfl⟩)⟩
  · intro s hfail
    by_cases hok : (g s).1 = true
    · simp [Text.rewinding, hok] at hfail
    · simp [Text.rewinding, hok]
  · intro s hfail parts' hparts' r hbegins
    obtain rfl := List.mem_singleton.mp hparts'
    simp [(accepts_iff.mp (haccepts.mpr hbegins)).1] at hfail

private theorem elseTry_of_ok {s : List UInt8} (hok : (g s).1 = true) :
    Text.elseTry g g' s = g s := by
  rw [Text.elseTry, if_pos hok]

private theorem FindsDate.elseTry_of_fail (hg : FindsDate g formats) {s : List UInt8}
    (hfail : (g s).1 = false) : Text.elseTry g g' s = g' s := by
  rw [Text.elseTry, if_neg (by simp [hfail]), hg.unchanged s hfail]

private theorem FindsDate.both_fail (hg : FindsDate g formats) {s : List UInt8}
    (hfail : (Text.elseTry g g' s).1 = false) : (g s).1 = false ∧ (g' s).1 = false := by
  by_cases hok : (g s).1 = true
  · rw [elseTry_of_ok hok, hok] at hfail
    cases hfail
  · have hfirst : (g s).1 = false := by simpa using hok
    rw [hg.elseTry_of_fail hfirst] at hfail
    exact ⟨hfirst, hfail⟩

theorem FindsDate.elseTry (hg : FindsDate g formats) (hg' : FindsDate g' formats') :
    FindsDate (Text.elseTry g g') (formats ++ formats') := by
  constructor
  · intro s hok
    by_cases hfirst : (g s).1 = true
    · obtain ⟨parts, hparts, hbegins⟩ := hg.found s hfirst
      rw [elseTry_of_ok hfirst]
      exact ⟨parts, List.mem_append_left formats' hparts, hbegins⟩
    · rw [hg.elseTry_of_fail (by simpa using hfirst)] at hok ⊢
      obtain ⟨parts, hparts, hbegins⟩ := hg'.found s hok
      exact ⟨parts, List.mem_append_right formats hparts, hbegins⟩
  · intro s hfail
    obtain ⟨hfirst, hsecond⟩ := hg.both_fail hfail
    rw [hg.elseTry_of_fail hfirst]
    exact hg'.unchanged s hsecond
  · intro s hfail parts hparts r
    obtain ⟨hfirst, hsecond⟩ := hg.both_fail hfail
    rcases List.mem_append.mp hparts with hparts | hparts
    · apply hg.none s hfirst parts hparts
    · apply hg'.none s hsecond parts hparts

private theorem date_finds : FindsDate Text.date dateFormats :=
  .elseTry (.single rfc1123Date_accepts)
    (.elseTry (.single rfc850Date_accepts) (.single asctimeDate_accepts))

private theorem date_ok_iff {s : List UInt8} :
    (Text.date s).1 = true ↔ ∃ r, BeginsDate scannedDate s r := by
  constructor
  · intro hok
    exact ⟨_, date_finds.found s hok⟩
  · rintro ⟨r, parts, hparts, hbegins⟩
    by_contra hfail
    apply date_finds.none s (by simpa using hfail) parts hparts r hbegins

private theorem scanned_of_plain {s rest : List UInt8} (h : BeginsDate plainDate s rest) :
    BeginsDate scannedDate s rest := by
  obtain ⟨parts, hparts, hbegins⟩ := h
  exact ⟨parts, hparts, hbegins.mono fun part hpart piece =>
    plain_scanned (dateFormats_tabled parts hparts part hpart)⟩

end FindsDate

/-- The text begins with a date that names one of `shadowedNames` or, in the format of `asctime`,
has a day of two digits; or with none, but beginnings of other names make one of what it begins
with. -/
def MissesDate (s : List UInt8) : Prop :=
  (∃ rest, BeginsDate httpDate s rest ∧ ¬ BeginsDate plainDate s rest) ∨
    ((∃ rest, BeginsDate scannedDate s rest) ∧ ¬ ∃ rest, BeginsDate httpDate s rest)

private theorem date_misses_iff (s : List UInt8) :
    (((Text.date s).1 = true ↔ ∃ rest, BeginsDate httpDate s rest) ∧
      ((Text.date s).1 = true → BeginsDate httpDate s (Text.date s).2)) ↔ ¬ MissesDate s := by
  constructor
  · rintro ⟨hiff, -⟩ (⟨rest, hdate, hplain⟩ | ⟨hscan, hnone⟩)
    · obtain ⟨r, hscan⟩ := date_ok_iff.mp (hiff.mpr ⟨rest, hdate⟩)
      exact hplain (date_unique hdate hscan).1
    · exact hnone (hiff.mp (date_ok_iff.mpr hscan))
  · intro hmisses
    have hdate : (Text.date s).1 = true → ∃ rest, BeginsDate httpDate s rest := fun hok => by
      by_contra hnone
      exact hmisses (.inr ⟨date_ok_iff.mp hok, hnone⟩)
    refine ⟨⟨hdate, fun ⟨rest, hrest⟩ => ?_⟩, fun hok => ?_⟩
    · have hplain : BeginsDate plainDate s rest := by
        by_contra hplain
        exact hmisses (.inl ⟨rest, hrest, hplain⟩)
      exact date_ok_iff.mpr ⟨rest, scanned_of_plain hplain⟩
    · obtain ⟨rest, hrest⟩ := hdate hok
      rwa [(date_unique hrest (date_finds.found s hok)).2]

private theorem not_misses_of_plain {s rest : List UInt8} (h : BeginsDate plainDate s rest) :
    ¬ MissesDate s := by
  rintro (⟨rest', hdate, hplain⟩ | ⟨-, hnone⟩)
  · exact hplain (date_unique hdate (scanned_of_plain h)).1
  · obtain ⟨parts, hparts, hbegins⟩ := h
    exact hnone ⟨rest, parts, hparts, hbegins.mono fun part _ piece => plain_date⟩

/-- `http11_date` tells whether the text at the cursor begins with a date, steps over that date, and
does not move where there is none. -/
def RecognisesDate (h : Heap) (request : Stringaa) : Prop :=
  ∃ isDate request', http11Date h request = some (isDate, request') ∧
    (isDate = true ↔ ∃ rest, BeginsDate httpDate (request.unread h) rest) ∧
    (isDate = true → ∃ date rest, request.unread h = date ++ rest ∧
      BeginsDate httpDate (request.unread h) rest ∧
      request' = request.seek (request.readPos + date.length)) ∧
    (isDate = false → request' = request)

/-- `http11_date` recognises the dates of the three formats, but where a scan of a table has lost a
name or found one that is not there, or `http11_date3` has dropped a day. -/
theorem http11Date_recognises (h : Heap) (request : Stringaa) (hread : Readable h request) :
    RecognisesDate h request ↔ ¬ MissesDate (request.unread h) := by
  obtain ⟨date, hsuffix, hrun⟩ := Tracks.date.run hread
  rw [← date_misses_iff]
  generalize hs : request.unread h = s at hrun hsuffix ⊢
  constructor
  · rintro ⟨isDate, request', heq, hiff, hdate, -⟩
    obtain ⟨rfl, rfl⟩ := Prod.mk.inj (Option.some.inj (hrun.symm.trans heq))
    rw [hs] at hiff hdate
    refine ⟨hiff, fun hok => ?_⟩
    obtain ⟨date', rest, hs', hbegins, hseek⟩ := hdate hok
    have hlength : date.length = date'.length :=
      Nat.add_left_cancel (congrArg Stringaa.readPos hseek)
    rw [(List.append_inj (hsuffix.symm.trans hs') hlength).2]
    exact hbegins
  · rintro ⟨hiff, hdate⟩
    refine ⟨_, _, hrun, by rwa [hs], fun hok => ?_, fun hfail => ?_⟩
    · rw [hs]
      exact ⟨date, _, hsuffix, hdate hok, rfl⟩
    · have hsame := date_finds.unchanged s hfail
      have hnil : date = [] := by simpa [hsame] using hsuffix.symm
      rw [hnil, List.length_nil, Nat.add_zero]
      rfl

private theorem begins_sixth {form : DateForm} (name : List UInt8)
    (hname : form.name http11DateWkdayArray name)
    (hmonth : form.name http11DateMonthArray (literal "Nov")) :
    BeginsDate form (name ++ literal ", 06 Nov 1994 08:49:37 GMT") [] := by
  have hclock : Begins form (DatePart.sp :: (DatePart.time ++ [DatePart.sp, DatePart.gmt]))
      (literal " 08:49:37 GMT") [] :=
    ⟨[32], _, rfl, rfl, literal "08", _, ⟨rfl, rfl⟩, rfl, [58], _, rfl, rfl, literal "49", _,
      ⟨rfl, rfl⟩, rfl, [58], _, rfl, rfl, literal "37", _, ⟨rfl, rfl⟩, rfl, [32], _, rfl, rfl,
      literal "GMT", [], rfl, rfl, rfl⟩
  exact ⟨DatePart.rfc1123, by simp [dateFormats], name, _, hname, rfl, [44], _, rfl, rfl, [32], _,
    rfl, rfl, literal "06", _, ⟨rfl, rfl⟩, rfl, [32], _, rfl, rfl, literal "Nov", _, hmonth, rfl,
    [32], _, rfl, rfl, literal "1994", _, ⟨rfl, rfl⟩, rfl, hclock⟩

theorem http11Date_recognises_monday :
    RecognisesDate (.ofText (literal "Mon, 06 Nov 1994 08:49:37 GMT")) (.ofText 0 29) := by
  apply (http11Date_recognises _ _ ⟨by decide, by decide⟩).mpr
  apply not_misses_of_plain
  exact begins_sixth (literal "Mon") ⟨"Mon", by decide, rfl⟩ ⟨"Nov", by decide, rfl⟩

/-- The scan for `Sat` takes the first letter of `Sun`. -/
theorem http11Date_losesSunday :
    ¬ RecognisesDate (.ofText (literal "Sun, 06 Nov 1994 08:49:37 GMT")) (.ofText 0 29) := by
  rintro ⟨isDate, request', heq, hiff, -⟩
  have hrun : http11Date (.ofText (literal "Sun, 06 Nov 1994 08:49:37 GMT")) (.ofText 0 29) =
      some (false, .ofText 0 29) := by decide +kernel
  have hfalse : isDate = false := by
    rw [hrun] at heq
    exact (congrArg Prod.fst (Option.some.inj heq)).symm
  rw [hfalse] at hiff
  refine Bool.false_ne_true (hiff.mpr ⟨[], ?_⟩)
  exact begins_sixth (literal "Sun") ⟨"Sun", by decide, rfl⟩ ⟨"Nov", by decide, rfl⟩

end Httpaa
