import Httpaa.Foundation.Lines
import Httpaa.Http.Refinement

/-!
# Header lines

The loop over the header lines, in terms of the lines of the text behind the request line: it
succeeds if and only if there is an empty line, and then each slot holds the value of the last line
in front of it that begins with the name of the slot and a colon.
-/

namespace Httpaa

/-- The names of the header slots, in the order of the slots. -/
def http11HeaderArray : List String :=
  http11GeneralHeaderArray ++ http11EntityHeaderArray ++ http11RequestHeaderArray

/-- The line begins with the name, in letters of either case, and a colon. -/
def NamedBy (name : List UInt8) (line : List UInt8) : Prop :=
  name ++ [ch ':'] <+: line.map toLower

instance (name line : List UInt8) : Decidable (NamedBy name line) :=
  inferInstanceAs (Decidable (_ <+: _))

end Httpaa

namespace Httpaa.Text

open Recogniser Lines

/-! ### Names -/

theorem nameColon_eq_some {name s t : List UInt8} :
    nameColon name s = some t ↔ NamedBy name s ∧ t = s.drop name.length := by
  induction name generalizing s with
  | nil =>
      rcases s with _ | ⟨y, s⟩
      · simp [nameColon, NamedBy]
      · simp [nameColon, NamedBy, List.prefix_cons_iff, eq_comm (a := t), eq_comm (a := ch ':'),
          toLower_colon]
  | cons x name ih =>
      rcases s with _ | ⟨y, s⟩
      · simp [nameColon, NamedBy]
      · have hrec := ih (s := s)
        simp only [NamedBy] at hrec
        by_cases hxy : x = toLower y
        · simp [nameColon, NamedBy, hxy, hrec]
        · simp [nameColon, NamedBy, hxy]

private theorem prefix_append_cons {p l r : List UInt8} {x : UInt8} (hx : x ∉ p) :
    p <+: l ++ x :: r ↔ p <+: l := by
  induction p generalizing l with
  | nil => simp
  | cons y p ih =>
      have hy : y ≠ x := fun hyx => hx (by simp [hyx])
      rcases l with _ | ⟨z, l⟩
      · simp [hy]
      · simp [ih fun hp => hx (List.mem_cons_of_mem y hp)]

private theorem prefix_unique {x : UInt8} {p q l : List UInt8} (hp : x ∉ p) (hq : x ∉ q)
    (hpl : p ++ [x] <+: l) (hql : q ++ [x] <+: l) : p = q := by
  induction p generalizing q l with
  | nil =>
      rcases q with _ | ⟨y, q⟩
      · rfl
      · rcases l with _ | ⟨z, l⟩
        · simp at hpl
        · simp only [List.nil_append, List.cons_append, List.cons_prefix_cons] at hpl hql
          exact absurd (by simp [hql.1, hpl.1]) hq
  | cons y p ih =>
      rcases l with _ | ⟨z, l⟩
      · simp at hpl
      · rcases q with _ | ⟨w, q⟩
        · simp only [List.nil_append, List.cons_append, List.cons_prefix_cons] at hpl hql
          exact absurd (by simp [hql.1, hpl.1]) hp
        · simp only [List.cons_append, List.cons_prefix_cons] at hpl hql
          rw [hpl.1, hql.1, ih (fun h => hp (List.mem_cons_of_mem y h))
            (fun h => hq (List.mem_cons_of_mem w h)) hpl.2 hql.2]

theorem header_names : ∀ name ∈ http11HeaderArray, ch ':' ∉ literal name ∧
    http11Cr ∉ literal name := by
  decide +kernel

private theorem header_names_nodup : (http11HeaderArray.map literal).Nodup := by decide +kernel

private theorem slot_unique {i j : Nat} {name name' : String} {s : List UInt8}
    (hi : http11HeaderArray[i]? = some name) (hj : http11HeaderArray[j]? = some name')
    (hname : NamedBy (literal name) s) (hname' : NamedBy (literal name') s) : i = j := by
  have hcolon := (header_names name (List.mem_of_getElem? hi)).1
  have hcolon' := (header_names name' (List.mem_of_getElem? hj)).1
  have heq := prefix_unique hcolon hcolon' hname hname'
  have hmap : (http11HeaderArray.map literal)[i]? = (http11HeaderArray.map literal)[j]? := by
    simp [hi, hj, heq]
  obtain ⟨hlt, -⟩ := List.getElem?_eq_some_iff.mp hi
  exact (List.getElem?_inj (by simpa using hlt) header_names_nodup).mp hmap

theorem namedBy_of_takeLine {name : String} (hname : name ∈ http11HeaderArray)
    {s line rest : List UInt8} (h : takeLine http11Cr http11Lf s = some (line, rest)) :
    NamedBy (literal name) s ↔ NamedBy (literal name) line := by
  have hcr : http11Cr ∉ literal name ++ [ch ':'] := by
    have hcr := (header_names name hname).2
    have hcolon : http11Cr ≠ ch ':' := by decide
    simp [hcr, hcolon]
  have hlower : toLower http11Cr = http11Cr := by decide
  rw [NamedBy, eq_of_takeLine h, List.map_append, List.map_cons, hlower]
  exact prefix_append_cons hcr

/-! ### One line -/

/-- The assignments for a line that starts at `pos`. -/
def lineNotes (pos : Nat) (line : List UInt8) : List HttpWrite :=
  match findName http11HeaderArray 0 line with
  | some (i, t) => [.header i (pos + (line.length - t.length)) t.length]
  | none => []

theorem crlf_iff {s : List UInt8} :
    (crlf s).1 = true ↔ takeLine http11Cr http11Lf s = some ([], (crlf s).2) := by
  rcases s with _ | ⟨x, _ | ⟨y, s⟩⟩
  · simp [crlf, takeLine]
  · by_cases hx : x = http11Cr <;> simp [crlf, takeLine]
  · by_cases hxy : x = http11Cr ∧ y = http11Lf
    · simp [crlf, takeLine, hxy]
    · simp [crlf, takeLine, hxy]

theorem fromCrlf_of_takeLine {s line rest : List UInt8}
    (h : takeLine http11Cr http11Lf s = some (line, rest)) :
    fromCrlf s = some (http11Cr :: http11Lf :: rest) := by
  induction s generalizing line with
  | nil => cases h
  | cons x s ih =>
      rw [fromCrlf]
      by_cases hline : line = []
      · subst hline
        have heq := eq_of_takeLine h
        have hcrlf : (crlf (x :: s)).1 = true := by rw [heq]; rfl
        rw [if_pos hcrlf, heq]
        rfl
      · have hcrlf : ¬ (crlf (x :: s)).1 = true := by
          rw [crlf_iff, h]
          simp [hline]
        rw [if_neg hcrlf]
        exact ih (takeLine_cons h hline).2

theorem fromCrlf_of_none {s : List UInt8} (h : takeLine http11Cr http11Lf s = none) :
    fromCrlf s = none := by
  induction s with
  | nil => rfl
  | cons x s ih =>
      have hcrlf : ¬ (crlf (x :: s)).1 = true := by
        rw [crlf_iff, h]
        simp
      rw [fromCrlf, if_neg hcrlf]
      exact ih (takeLine_suffix (List.suffix_cons x s) h)

private theorem findName_none {names : List String} {i : Nat} {s : List UInt8}
    (h : findName names i s = none) : ∀ name ∈ names, nameColon (literal name) s = none := by
  induction names generalizing i with
  | nil => simp
  | cons name names ih =>
      rw [findName] at h
      cases hname : nameColon (literal name) s with
      | some t => simp [hname] at h
      | none =>
          rintro name' hmem
          rcases List.mem_cons.mp hmem with rfl | hmem
          · exact hname
          · exact ih (by simpa [hname] using h) name' hmem

private theorem header_cases (names : List String) (start : Nat)
    (hnames : names <+: http11HeaderArray.drop start)
    (c : Cursor UInt8) :
    (∃ i name, http11HeaderArray[i]? = some name ∧ NamedBy (literal name) c.rest ∧
      header names start c = header [name] i c) ∨
    (header names start c = ⟨false, c, []⟩ ∧ ∀ name ∈ names, ¬ NamedBy (literal name) c.rest) := by
  cases hfind : findName names start c.rest with
  | none =>
      refine .inr ⟨by simp [header, hfind], fun name hmem hnamed => ?_⟩
      have hnone := findName_none hfind name hmem
      rw [nameColon_eq_some.mpr ⟨hnamed, rfl⟩] at hnone
      cases hnone
  | some found =>
      obtain ⟨i, t⟩ := found
      obtain ⟨name, hle, hget, hname⟩ := findName_mem hfind
      obtain ⟨hlt, hval⟩ := List.getElem?_eq_some_iff.mp hget
      have hslot := List.prefix_iff_getElem?.mp hnames _ hlt
      rw [List.getElem?_drop, Nat.add_sub_cancel' hle, hval] at hslot
      refine .inl ⟨i, name, hslot, (nameColon_eq_some.mp hname).1, ?_⟩
      have hsingle : findName [name] i c.rest = some (i, t) := by simp [findName, hname]
      simp only [header, hfind, hsingle]

theorem headerLine_cases (c : Cursor UInt8) :
    (∃ i name, http11HeaderArray[i]? = some name ∧ NamedBy (literal name) c.rest ∧
      headerLine c = header [name] i c) ∨
    (headerLine c = ⟨false, c, []⟩ ∧
      ∀ name ∈ http11HeaderArray, ¬ NamedBy (literal name) c.rest) := by
  have hok : ∀ i name, NamedBy (literal name) c.rest → (header [name] i c).ok = true := by
    intro i name hnamed
    simp [header, findName, nameColon_eq_some.mpr ⟨hnamed, rfl⟩]
  rcases header_cases http11GeneralHeaderArray http11GeneralHeaderArrayStart (by decide) c with
    ⟨i, name, hi, hnamed, heq⟩ | ⟨heq, hgeneral⟩
  · exact .inl ⟨i, name, hi, hnamed, by simp [headerLine, orElse, heq, hok i name hnamed]⟩
  rcases header_cases http11RequestHeaderArray http11RequestHeaderArrayStart (by decide) c with
    ⟨i, name, hi, hnamed, heq'⟩ | ⟨heq', hrequest⟩
  · refine .inl ⟨i, name, hi, hnamed, ?_⟩
    rw [headerLine, orElse, orElse, heq, heq']
    simp only [Bool.false_eq_true, if_false, Outcome.after, hok i name hnamed, if_true,
      List.nil_append]
    rw [← hok i name hnamed]
  rcases header_cases http11EntityHeaderArray http11EntityHeaderArrayStart (by decide) c with
    ⟨i, name, hi, hnamed, heq''⟩ | ⟨heq'', hentity⟩
  · refine .inl ⟨i, name, hi, hnamed, ?_⟩
    simp [headerLine, orElse, heq, Outcome.after, heq', heq'']
  · refine .inr ⟨by simp [headerLine, orElse, heq, Outcome.after, heq', heq''], ?_⟩
    simp only [http11HeaderArray, List.mem_append]
    rintro name ((hmem | hmem) | hmem)
    · exact hgeneral name hmem
    · exact hentity name hmem
    · exact hrequest name hmem

theorem length_le_of_namedBy {name line : List UInt8} (h : NamedBy name line) :
    name.length < line.length := by
  have hle := h.length_le
  simp only [List.length_append, List.length_singleton, List.length_map] at hle
  omega

theorem lineNotes_named {i : Nat} {name : String} {line : List UInt8}
    (hi : http11HeaderArray[i]? = some name) (hnamed : NamedBy (literal name) line) (pos : Nat) :
    lineNotes pos line =
      [.header i (pos + (literal name).length) (line.length - (literal name).length)] := by
  cases hfind : findName http11HeaderArray 0 line with
  | none =>
      have hnone := findName_none hfind name (List.mem_of_getElem? hi)
      rw [nameColon_eq_some.mpr ⟨hnamed, rfl⟩] at hnone
      cases hnone
  | some found =>
      obtain ⟨j, t⟩ := found
      obtain ⟨name', -, hj, hname'⟩ := findName_mem hfind
      obtain ⟨hnamed', ht⟩ := nameColon_eq_some.mp hname'
      obtain rfl := slot_unique hi hj hnamed hnamed'
      obtain rfl : name = name' := Option.some.inj (hi.symm.trans hj)
      have hlt := length_le_of_namedBy hnamed
      have hsub : line.length - (line.length - (literal name).length) = (literal name).length := by
        omega
      simp [lineNotes, hfind, ht, List.length_drop, hsub]

private theorem lineNotes_unnamed {line : List UInt8}
    (h : ∀ name ∈ http11HeaderArray, ¬ NamedBy (literal name) line) (pos : Nat) :
    lineNotes pos line = [] := by
  cases hfind : findName http11HeaderArray 0 line with
  | none => simp [lineNotes, hfind]
  | some found =>
      obtain ⟨name, -, hget, hname⟩ := findName_mem hfind
      exact absurd (nameColon_eq_some.mp hname).1 (h name (List.mem_of_getElem? hget))

private theorem header_of_line {i : Nat} {name : String} {c : Cursor UInt8} {line rest : List UInt8}
    (hi : http11HeaderArray[i]? = some name)
    (h : takeLine http11Cr http11Lf c.rest = some (line, rest))
    (hnamed : NamedBy (literal name) c.rest) :
    header [name] i c = ⟨true, c.to (http11Cr :: http11Lf :: rest), lineNotes c.pos line⟩ := by
  have hnamed' := (namedBy_of_takeLine (List.mem_of_getElem? hi) h).mp hnamed
  have hlt := length_le_of_namedBy hnamed'
  have hdrop := takeLine_drop h (Nat.le_of_lt hlt)
  have hlength := congrArg List.length (eq_of_takeLine h)
  simp only [List.length_append, List.length_cons] at hlength
  have hpos : c.rest.length - (c.rest.length - (literal name).length) = (literal name).length := by
    omega
  have hsize : c.rest.length - (literal name).length - (rest.length + 1 + 1) =
      line.length - (literal name).length := by
    omega
  simp [header, findName, nameColon_eq_some.mpr ⟨hnamed, rfl⟩, findCrlf,
    fromCrlf_of_takeLine hdrop, lineNotes_named hi hnamed', Cursor.to, hpos, hsize]

/-! ### All lines -/

theorem headers_of_none {c : Cursor UInt8} (h : takeLine http11Cr http11Lf c.rest = none) :
    (headers c).ok = false := by
  have hnone : ∀ t, t <:+ c.rest → ¬ (crlf t).1 = true := by
    intro t ht
    rw [crlf_iff, takeLine_suffix ht h]
    simp
  have hcrlf := hnone _ (List.suffix_refl c.rest)
  rw [headers]
  by_cases hline : (headerLine c).ok = true
  · obtain ⟨front, hrest, -⟩ := headerLine_advances c
    simp [hline, hnone _ ⟨front, hrest.symm⟩]
  · simp [hline, hcrlf, findCrlf, fromCrlf_of_none h]

theorem headers_of_empty {c : Cursor UInt8} {rest : List UInt8}
    (h : takeLine http11Cr http11Lf c.rest = some ([], rest)) :
    headers c = ⟨true, c.to rest, []⟩ := by
  have heq := eq_of_takeLine h
  have hcrlf : crlf c.rest = (true, rest) := by rw [heq]; rfl
  have hline : ¬ (headerLine c).ok = true := by
    rcases headerLine_cases c with ⟨i, name, hi, hnamed, -⟩ | ⟨hfail, -⟩
    · have hlt := length_le_of_namedBy
        ((namedBy_of_takeLine (List.mem_of_getElem? hi) h).mp hnamed)
      simp at hlt
    · simp [hfail]
  rw [headers]
  simp [hline, hcrlf]

theorem headers_of_line {c : Cursor UInt8} {line rest : List UInt8}
    (h : takeLine http11Cr http11Lf c.rest = some (line, rest)) (hline : line ≠ []) :
    headers c = (headers (c.to rest)).after (lineNotes c.pos line) := by
  have hcrlf : crlf (http11Cr :: http11Lf :: rest) = (true, rest) := rfl
  have hsuffix : http11Cr :: http11Lf :: rest <:+ c.rest := ⟨line, (eq_of_takeLine h).symm⟩
  have hto := Cursor.to_to hsuffix ((List.suffix_cons _ rest).trans (List.suffix_cons _ _))
  rw [headers]
  rcases headerLine_cases c with ⟨i, name, hi, hnamed, heq⟩ | ⟨hfail, hunnamed⟩
  · simp [heq, header_of_line hi h hnamed, hcrlf, hto]
  · have hcrlf' : ¬ (crlf c.rest).1 = true := by
      rw [crlf_iff, h]
      simp [hline]
    have hnotes : lineNotes c.pos line = [] := lineNotes_unnamed (fun name hmem =>
      (namedBy_of_takeLine hmem h).not.mp (hunnamed name hmem)) c.pos
    simp [hfail, hcrlf', findCrlf, fromCrlf_of_takeLine h, hcrlf, hnotes, Outcome.after]

/-- The assignments for lines of which the first starts at `pos`. -/
def linesNotes (pos : Nat) : List (List UInt8) → List HttpWrite
  | [] => []
  | line :: ls => lineNotes pos line ++ linesNotes (pos + line.length + 2) ls

theorem to_of_takeLine {pos : Nat} {s line rest : List UInt8}
    (h : takeLine http11Cr http11Lf s = some (line, rest)) :
    (⟨pos, s⟩ : Cursor UInt8).to rest = ⟨pos + line.length + 2, rest⟩ := by
  have hlength := congrArg List.length (eq_of_takeLine h)
  simp only [List.length_append, List.length_cons] at hlength
  simp only [Cursor.to, Cursor.mk.injEq, and_true]
  omega

/-- The loop over the header lines, in terms of the lines. -/
theorem headers_eq (pos : Nat) (s : List UInt8) :
    if [] ∈ lines http11Cr http11Lf s then
      headers ⟨pos, s⟩ = ⟨true, ⟨pos + size (headLines http11Cr http11Lf s) + 2,
        s.drop (size (headLines http11Cr http11Lf s) + 2)⟩,
        linesNotes pos (headLines http11Cr http11Lf s)⟩
    else (headers ⟨pos, s⟩).ok = false := by
  induction s using induction_on http11Cr http11Lf generalizing pos with
  | hnone s h => simpa [lines_of_none h] using headers_of_none (c := ⟨pos, s⟩) h
  | hline s line rest h ih =>
      by_cases hline : line = []
      · subst hline
        have heq := headers_of_empty (c := ⟨pos, s⟩) h
        rw [to_of_takeLine h] at heq
        have hdrop : s.drop 2 = rest := by rw [eq_of_takeLine h]; rfl
        simp [lines_of_takeLine h, headLines_of_empty h, heq, linesNotes, size, hdrop]
      · have heq := headers_of_line (c := ⟨pos, s⟩) h hline
        have hrec := ih (pos + line.length + 2)
        rw [to_of_takeLine h] at heq
        have hmem : [] ∈ lines http11Cr http11Lf s ↔ [] ∈ lines http11Cr http11Lf rest := by
          simp [lines_of_takeLine h, Ne.symm hline]
        by_cases hempty : [] ∈ lines http11Cr http11Lf rest
        · have hdrop : s.drop (line.length + 2 + size (headLines http11Cr http11Lf rest) + 2) =
              rest.drop (size (headLines http11Cr http11Lf rest) + 2) := by
            rw [Nat.add_assoc (line.length + 2), ← List.drop_drop, eq_of_takeLine h,
              ← List.drop_drop]
            simp
          rw [if_pos hempty] at hrec
          rw [if_pos (hmem.mpr hempty), heq, hrec, headLines_of_line h hline, size_cons, hdrop]
          simp [Outcome.after, linesNotes, Nat.add_assoc]
        · rw [if_neg hempty] at hrec
          rw [if_neg (hmem.not.mpr hempty), heq]
          exact hrec

end Httpaa.Text

namespace Httpaa

open Recogniser Stringaa Lines

variable {h : Heap} {request : Stringaa}

/-! ### Slots -/

def Stringaa.text (h : Heap) (s : Stringaa) : Option (List UInt8) := loadChars h s 0 s.writePos

private theorem loadChars_headerFrom (pos size first n : Nat) :
    loadChars h (request.headerFrom pos size) first n = loadChars h request (pos + first) n := by
  induction n generalizing first with
  | zero => rfl
  | succ n ih =>
      have hchar : (request.headerFrom pos size).charAt h first = request.charAt h
        (pos + first) := by
        cases hbuf : request.buf <;> simp [Stringaa.headerFrom, charAt, hbuf]
      simp [loadChars, hchar, ih, Nat.add_assoc]

private theorem headerFrom_text {pos : Nat} {front s : List UInt8}
    (hs : request.Shows h ⟨pos, front ++ s⟩) {size : Nat} (hsize : size ≤ s.length) :
    (request.headerFrom (pos + front.length) size).text h = some (s.take size) := by
  have hload := loadChars_eq hs (List.suffix_append front s) hsize request.readPos
  have hpos : (Cursor.to ⟨pos, front ++ s⟩ s).pos = pos + front.length := by
    simp [Cursor.to]
  rw [Stringaa.text, loadChars_headerFrom, Nat.add_zero, ← hpos]
  exact hload

/-- The last of the lines that begins with the name. -/
def lastNamed (name : List UInt8) (ls : List (List UInt8)) : Option (List UInt8) :=
  (ls.filter fun line => NamedBy name line).getLast?

private theorem lastNamed_cons (name line : List UInt8) (ls : List (List UInt8)) :
    lastNamed name (line :: ls) =
      (lastNamed name ls).or (if NamedBy name line then some line else none) := by
  by_cases hnamed : NamedBy name line
  · cases hlast : (ls.filter fun line => NamedBy name line).getLast? <;>
      simp [lastNamed, hnamed, List.getLast?_cons, hlast]
  · simp [lastNamed, hnamed]

private theorem lastNamed_isSome {name : List UInt8} {ls : List (List UInt8)} :
    (lastNamed name ls).isSome ↔ ∃ line ∈ ls, NamedBy name line := by
  simp [lastNamed]

private theorem header_lineNotes {i : Nat} {name : String} (hi : http11HeaderArray[i]? = some name)
    (http : Http11Http) (pos : Nat) (line : List UInt8) :
    (http.writeAll request (Text.lineNotes pos line)).request.header i =
      if NamedBy (literal name) line then
        request.headerFrom (pos + (literal name).length) (line.length - (literal name).length)
      else http.request.header i := by
  by_cases hnamed : NamedBy (literal name) line
  · simp [Text.lineNotes_named hi hnamed, hnamed, Http11Http.writeAll, Http11Http.write,
      Http11Http.setHeader]
  · rw [if_neg hnamed]
    by_cases hother : ∀ name ∈ http11HeaderArray, ¬ NamedBy (literal name) line
    · rw [Text.lineNotes_unnamed hother]
      rfl
    · push Not at hother
      obtain ⟨name', hmem, hnamed'⟩ := hother
      obtain ⟨j, hj⟩ := List.getElem?_of_mem hmem
      have hij : i ≠ j := by
        rintro rfl
        exact hnamed (Option.some.inj (hi.symm.trans hj) ▸ hnamed')
      simp [Text.lineNotes_named hj hnamed', Http11Http.writeAll, Http11Http.write,
        Http11Http.setHeader, hij]

/-- After the head of a text, a slot holds the value of the last line that names it. -/
theorem header_linesNotes {i : Nat} {name : String} (hi : http11HeaderArray[i]? = some name)
    (http : Http11Http) (pos : Nat) (s : List UInt8) (hs : request.Shows h ⟨pos, s⟩) :
    match lastNamed (literal name) (headLines http11Cr http11Lf s) with
    | some line =>
        ((http.writeAll request
          (Text.linesNotes pos (headLines http11Cr http11Lf s))).request.header i).isInit = true ∧
        ((http.writeAll request
          (Text.linesNotes pos (headLines http11Cr http11Lf s))).request.header i).text h =
            some (line.drop (literal name).length)
    | none =>
        (http.writeAll request
          (Text.linesNotes pos (headLines http11Cr http11Lf s))).request.header i =
            http.request.header i := by
  induction s using induction_on http11Cr http11Lf generalizing pos http with
  | hnone s hline => simp [headLines_of_none hline, lastNamed, Text.linesNotes, Http11Http.writeAll]
  | hline s line rest hline ih =>
      by_cases hempty : line = []
      · subst hempty
        simp [headLines_of_empty hline, lastNamed, Text.linesNotes, Http11Http.writeAll]
      · have heq := eq_of_takeLine hline
        have hshows : request.Shows h ⟨pos + line.length + 2, rest⟩ :=
          hs.reaches ⟨line ++ [http11Cr, http11Lf], by simp [heq], by simp; omega⟩
        have hrec := ih (http.writeAll request (Text.lineNotes pos line)) _ hshows
        rw [headLines_of_line hline hempty, lastNamed_cons, Text.linesNotes, writeAll_append]
        cases hlast : lastNamed (literal name) (headLines http11Cr http11Lf rest) with
        | some line' => simpa [hlast] using hrec
        | none =>
            rw [hlast] at hrec
            simp only at hrec
            rw [header_lineNotes hi] at hrec
            by_cases hnamed : NamedBy (literal name) line
            · have hlt := Text.length_le_of_namedBy hnamed
              have hfront : (line.take (literal name).length).length = (literal name).length := by
                rw [List.length_take]
                omega
              have hsplit : s = line.take (literal name).length ++
                  (line.drop (literal name).length ++ http11Cr :: http11Lf :: rest) := by
                rw [← List.append_assoc, List.take_append_drop, ← heq]
              have htext := headerFrom_text (hsplit ▸ hs)
                (show line.length - (literal name).length ≤ _ by simp)
              rw [hfront, List.take_append_of_le_length (by simp), List.take_of_length_le (by simp)]
                at htext
              rw [if_pos hnamed] at hrec
              simp only [Option.none_or, hnamed, if_true]
              rw [hrec]
              exact ⟨rfl, htext⟩
            · simpa [hnamed] using hrec

/-! ### The request line leaves the slots alone -/

variable {http http' : Http11Http} {request' : Stringaa} {is ok : Bool}

private theorem whenDo_true {f : Http11Http → Stringaa → Option (Bool × Http11Http × Stringaa)}
    (heq : http.whenDo is request f = some (true, http', request')) :
    is = true ∧ f http request = some (true, http', request') := by
  cases is with
  | true => exact ⟨rfl, heq⟩
  | false => simp [Http11Http.whenDo] at heq

private theorem reading_true {f : Stringaa → Option (Bool × Stringaa)}
    (heq : reading f http request = some (true, http', request')) :
    http' = http ∧ f request = some (true, request') := by
  obtain ⟨⟨is, s⟩, hf, hs⟩ := Option.map_eq_some_iff.mp heq
  simp only [Prod.mk.injEq] at hs
  exact ⟨hs.2.1.symm, by rw [hf, hs.1, hs.2.2]⟩

private theorem requestLine_true
    (heq : http11RequestLine h http request = some (true, http', request')) :
    ∃ http₁ request₁ request₂ http₂ request₃ request₄ request₅,
      http11Method h http request = some (true, http₁, request₁) ∧
      http11Space h request₁ = some (true, request₂) ∧
      http11RequestUri h http₁ request₂ = some (true, http₂, request₃) ∧
      http11Space h request₃ = some (true, request₄) ∧
      http11HttpVersion h http₂ request₄ = some (true, http', request₅) ∧
      http11Crlf h request₅ = some (true, request') := by
  simp only [http11RequestLine, Option.bind_eq_bind, Option.bind_eq_some_iff, Option.some.injEq,
    Prod.mk.injEq, Option.pure_def] at heq
  obtain ⟨⟨is₁, http₁, request₁⟩, hmethod, ⟨is₂, http₂, request₂⟩, hspace,
    ⟨is₃, http₃, request₃⟩, huri, ⟨is₄, http₄, request₄⟩, hspace', ⟨is₅, http₅, request₅⟩, hversion,
    ⟨is₆, http₆, request₆⟩, hcrlf, rfl, rfl, hrequest⟩ := heq
  obtain ⟨rfl, hcrlf⟩ := whenDo_true hcrlf
  obtain ⟨rfl, hcrlf⟩ := reading_true hcrlf
  obtain ⟨rfl, hversion⟩ := whenDo_true hversion
  obtain ⟨rfl, hspace'⟩ := whenDo_true hspace'
  obtain ⟨rfl, hspace'⟩ := reading_true hspace'
  obtain ⟨rfl, huri⟩ := whenDo_true huri
  obtain ⟨rfl, hspace⟩ := whenDo_true hspace
  obtain ⟨rfl, hspace⟩ := reading_true hspace
  obtain rfl : request₆ = request' := by simpa using hrequest
  exact ⟨_, _, _, _, _, _, _, hmethod, hspace, huri, hspace', hversion, hcrlf⟩

/-- The request of a function that only moves its read position, and not out of its text. -/
def Moved (request request' : Stringaa) : Prop :=
  ∃ n ≤ request.writePos, request' = request.seek n

theorem Moved.trans {request'' : Stringaa} (hmove : Moved request request')
    (hmove' : Moved request' request'') : Moved request request'' := by
  obtain ⟨n, hn, rfl⟩ := hmove
  obtain ⟨n', hn', rfl⟩ := hmove'
  exact ⟨n', hn', rfl⟩

/-- Every byte below the write position is memory, and the read position is not above it. -/
structure Readable (h : Heap) (request : Stringaa) : Prop where
  char : ∀ i < request.writePos, (request.charAt h i).isSome
  readPos : request.readPos ≤ request.writePos

theorem Readable.shows (hread : Readable h request) :
    request.Shows h ⟨request.readPos, request.unread h⟩ :=
  shows_unread hread.readPos hread.char

theorem Tracks.run {f : Stringaa → Option (Bool × Stringaa)} {g : List UInt8 → Bool × List UInt8}
    (hf : Tracks h f g) (hread : Readable h request) :
    ∃ piece, request.unread h = piece ++ (g (request.unread h)).2 ∧
      f request = some ((g (request.unread h)).1,
        request.seek (request.readPos + piece.length)) := by
  have hrun := hf.follows request _ hread.shows
  obtain ⟨piece, hpiece⟩ := hf.suffix (request.unread h)
  rw [Cursor.to_pos hpiece.symm] at hrun
  exact ⟨piece, hpiece.symm, hrun⟩

private theorem Readable.moved (hread : Readable h request) (hmove : Moved request request') :
    Readable h request' := by
  obtain ⟨n, hn, rfl⟩ := hmove
  exact ⟨hread.char, hn⟩

private theorem moved_of_reaches (hread : Readable h request) {c : Cursor UInt8}
    (hreach : (⟨request.readPos, request.unread h⟩ : Cursor UInt8).Reaches c) :
    Moved request (request.seek c.pos) := by
  have hend := hreach.end_eq
  have hlength := hread.shows.length
  exact ⟨c.pos, by omega, rfl⟩

private theorem Stringaa.Follows.moved {f : Stringaa → Option (Bool × Stringaa)}
    {g : List UInt8 → Bool × List UInt8} (hf : Follows h f g) (hg : ∀ s, (g s).2 <:+ s)
    (hread : Readable h request) (heq : f request = some (is, request')) :
    Moved request request' := by
  have hfollows := hf request _ hread.shows
  rw [show request.seek (⟨request.readPos, request.unread h⟩ : Cursor UInt8).pos = request from rfl,
    heq] at hfollows
  simp only [Option.some.injEq, Prod.mk.injEq] at hfollows
  rw [hfollows.2]
  exact moved_of_reaches hread (Cursor.reaches_to (hg _))

private theorem Reads.moved {f : Http11Http → Stringaa → Option (Bool × Http11Http × Stringaa)}
    {p : Text.Reader} (hf : Reads h f p) (hp : Advances p) (hread : Readable h request)
    (heq : f http request = some (ok, http', request')) :
    Moved request request' ∧
      http' = http.writeAll request (p ⟨request.readPos, request.unread h⟩).notes := by
  have hreads := hf http request _ hread.shows
  rw [ReadsAt, show request.seek (⟨request.readPos, request.unread h⟩ : Cursor UInt8).pos = request
    from rfl, heq] at hreads
  simp only [Option.some.injEq, Prod.mk.injEq] at hreads
  rw [hreads.2.1, hreads.2.2]
  exact ⟨moved_of_reaches hread (hp _), rfl⟩

def Stringaa.between (request : Stringaa) (first last : Int) : Stringaa where
  buf := request.buf.map fun p => p.add first.toNat
  bufSize := (last - first).toNat
  writePos := (last - first).toNat
  isInit := true

private theorem between_readable (hread : Readable h request) {first last : Int}
    (hfirst : 0 ≤ first) (hlt : first < last) (hlast : last ≤ request.writePos)
    (hsub : last - first ≤ request.writePos - request.readPos) :
    Readable h (request.between first last) ∧
      request.readPos + (request.between first last).writePos ≤ request.writePos := by
  have hle := hread.readPos
  refine ⟨⟨fun i hi => ?_, Nat.zero_le _⟩, by simp only [Stringaa.between]; omega⟩
  simp only [Stringaa.between] at hi
  have hchar := hread.char (first.toNat + i) (by omega)
  cases hbuf : request.buf with
  | none => simp [charAt, hbuf] at hchar
  | some p => simpa [charAt, hbuf, Stringaa.between] using hchar

private theorem setSubstring_readable (hread : Readable h request) (s : Stringaa)
    (hunset : s.isInit = false) (hset : (stringaaSetSubstring s request).isInit = true) :
    Readable h (stringaaSetSubstring s request) ∧ (stringaaSetSubstring s request).readPos = 0 ∧
      request.readPos + (stringaaSetSubstring s request).writePos ≤ request.writePos := by
  by_cases hcond : 0 ≤ toInt request.readPos ∧ toInt request.readPos < toInt request.writePos ∧
      toInt request.writePos ≤ request.writePos
  · have heq : stringaaSetSubstring s request =
        request.between (toInt request.readPos) (toInt request.writePos) := by
      rw [stringaaSetSubstring, if_pos hcond]
      rfl
    have hdistance := toInt_sub_le hread.readPos hcond.1
    obtain ⟨hr, hw⟩ := between_readable hread hcond.1 hcond.2.1 hcond.2.2 hdistance
    rw [heq]
    exact ⟨hr, rfl, hw⟩
  · rw [stringaaSetSubstring, if_neg hcond, hunset] at hset
    cases hset
private theorem checkUrl_true {u u' : Uriaa} (hread : Readable h u.uri)
    (heq : uriaaCheckUrl h u = some (ok, u')) : u'.uri.readPos ≤ u.uri.writePos := by
  rw [uriaaCheckUrl] at heq
  split at heq
  · obtain ⟨-, hleft⟩ := uriReference_left hread.shows heq
    have hend := (Text.uriReference_advances ⟨u.uri.readPos, u.uri.unread h⟩).end_eq
    have hlength := hread.shows.length
    rw [hleft, Uriaa.left_readPos]
    omega
  · simp only [Option.some.injEq, Prod.mk.injEq] at heq
    rw [← heq.2]
    exact hread.readPos

private theorem requestUri_moved (hread : Readable h request)
    (hunset : http.request.requestLine.requestUri.uri.isInit = false)
    (heq : http11RequestUri h http request = some (true, http', request')) :
    Moved request request' ∧ http'.request.header = http.request.header := by
  have hsub := setSubstring_readable hread _ hunset
  rw [http11RequestUri] at heq
  generalize stringaaSetSubstring http.request.requestLine.requestUri.uri request = sub at hsub heq
  simp only [Option.bind_eq_bind, Option.bind_eq_some_iff] at heq
  obtain ⟨⟨isCheck, u⟩, hcheck, heq⟩ := heq
  cases isCheck with
  | false => simp at heq
  | true =>
      have hinit : sub.isInit = true := by
        by_contra hinit
        simp [uriaaCheckUrl, hinit] at hcheck
      obtain ⟨hsub, -, hsize⟩ := hsub hinit
      have hle : u.uri.readPos ≤ sub.writePos := checkUrl_true hsub hcheck
      simp only [if_true, Option.some.injEq, Prod.mk.injEq, true_and, Option.pure_def] at heq
      obtain ⟨rfl, rfl⟩ := heq
      exact ⟨⟨_, by omega, rfl⟩, rfl⟩

/-- Assignments that set no header. -/
def HttpWrite.KeepsHeaders : HttpWrite → Prop
  | .header _ _ _ => False
  | _ => True

private theorem writeAll_header {writes : List HttpWrite} (hwrites : ∀ w ∈ writes, w.KeepsHeaders) :
    (http.writeAll request writes).request.header = http.request.header := by
  induction writes generalizing http with
  | nil => rfl
  | cons w writes ih =>
      refine (ih fun w' hw' => hwrites w' (List.mem_cons_of_mem w hw')).trans ?_
      have hw := hwrites w (by simp)
      cases w with
      | header i pos size => exact absurd hw id
      | _ => rfl

private theorem requestLine_moved (hread : Readable h request)
    (hunset : http.request.requestLine.requestUri.uri.isInit = false)
    (heq : http11RequestLine h http request = some (true, http', request')) :
    Moved request request' ∧ http'.request.header = http.request.header := by
  obtain ⟨http₁, request₁, request₂, http₂, request₃, request₄, request₅, hmethod, hspace, huri,
    hspace', hversion, hcrlf⟩ := requestLine_true heq
  have hsp := isChar_follows (h := h) (x := http11Sp) (by decide)
  obtain ⟨hmove₁, rfl⟩ := method_reads.moved Text.method_advances hread hmethod
  have hread₁ := hread.moved hmove₁
  have hmove₂ := hsp.moved (Text.isChar_suffix _) hread₁ hspace
  have hread₂ := hread₁.moved hmove₂
  have hunset' : (http.writeAll request (Text.method
      ⟨request.readPos, request.unread h⟩).notes).request.requestLine.requestUri.uri.isInit =
      false := by
    cases hloop : Text.methodLoop http11MethodArray 0 (request.unread h) <;>
      simpa [Text.method, find, hloop, Http11Http.writeAll, Http11Http.write,
        Http11Http.setMethod] using hunset
  obtain ⟨hmove₃, hheader₃⟩ := requestUri_moved hread₂ hunset' huri
  have hread₃ := hread₂.moved hmove₃
  have hmove₄ := hsp.moved (Text.isChar_suffix _) hread₃ hspace'
  have hread₄ := hread₃.moved hmove₄
  obtain ⟨hmove₅, rfl⟩ := version_reads.moved Text.version_advances hread₄ hversion
  have hmove₆ := crlf_follows.moved Text.crlf_suffix (hread₄.moved hmove₅) hcrlf
  have hkeeps : ∀ {β : Type} (f : List UInt8 → Option (β × List UInt8)) (note : β → HttpWrite),
      (∀ b, (note b).KeepsHeaders) → ∀ c, ∀ w ∈ (find f note c).notes, w.KeepsHeaders :=
    fun f note hnote => NotesIn.find (R := fun _ w => HttpWrite.KeepsHeaders w) fun _ => hnote
  refine ⟨((((hmove₁.trans hmove₂).trans hmove₃).trans hmove₄).trans hmove₅).trans hmove₆, ?_⟩
  exact (writeAll_header (hkeeps Text.versionNumbers .version (fun _ => trivial) _)).trans
    (hheader₃.trans (writeAll_header
      (hkeeps (Text.methodLoop http11MethodArray 0) .method (fun _ => trivial) _)))

/-- Behind a request line, in a fresh `httpaa`, `http11_request` succeeds if and only if there is an
empty line. Then it stops right behind the first one, and each of the slots is initialised if and
only if a line in front of it begins with the name of the slot and a colon; its text is that of the
last such line from the colon on. -/
theorem http11Request_headers (h : Heap) (request request₁ : Stringaa) (http₁ : Http11Http)
    (hread : Readable h request)
    (hline : http11RequestLine h {} request = some (true, http₁, request₁)) :
    ∃ isRequest http₂ request₂, http11Request h {} request = some (isRequest, http₂, request₂) ∧
      (isRequest = true ↔ [] ∈ lines http11Cr http11Lf (request₁.unread h)) ∧
      (isRequest = true →
        request₂.readPos =
          request₁.readPos + size (headLines http11Cr http11Lf (request₁.unread h)) + 2 ∧
        ∀ i name, http11HeaderArray[i]? = some name →
          ((http₂.request.header i).isInit = true ↔
            ∃ line ∈ headLines http11Cr http11Lf (request₁.unread h),
              NamedBy (literal name) line) ∧
          ∀ line, lastNamed (literal name) (headLines http11Cr http11Lf (request₁.unread h)) =
              some line →
            (http₂.request.header i).text h = some (line.drop (literal name).length)) := by
  obtain ⟨hmove, hheader⟩ := requestLine_moved hread rfl hline
  have hread₁ := hread.moved hmove
  have hloop : ReadsAt http₁ request₁ _ (headersLoop h request₁.budget) Text.headers :=
    headersLoop_readsAt request₁.budget hread₁.shows
      (hread₁.shows.budget (List.suffix_refl _) _)
  have hheaders := Text.headers_eq request₁.readPos (request₁.unread h)
  have hrequest : http11Request h {} request =
      some ((Text.headers ⟨request₁.readPos, request₁.unread h⟩).ok,
        http₁.writeAll request₁ (Text.headers ⟨request₁.readPos, request₁.unread h⟩).notes,
        request₁.seek (Text.headers ⟨request₁.readPos, request₁.unread h⟩).cursor.pos) := by
    rw [http11Request, hline]
    exact hloop
  refine ⟨_, _, _, hrequest, ?_⟩
  by_cases hempty : [] ∈ lines http11Cr http11Lf (request₁.unread h)
  · rw [if_pos hempty] at hheaders
    rw [hheaders]
    refine ⟨by simp [hempty], fun _ => ⟨rfl, fun i name hi => ?_⟩⟩
    have hslot := header_linesNotes hi http₁ _ _ hread₁.shows
    rw [← lastNamed_isSome]
    cases hlast : lastNamed (literal name) (headLines http11Cr http11Lf (request₁.unread h)) with
    | some line =>
        rw [hlast] at hslot
        refine ⟨by simpa using hslot.1, fun line' hline' => ?_⟩
        rw [← Option.some.inj hline']
        exact hslot.2
    | none =>
        rw [hlast] at hslot
        simp only at hslot
        rw [hslot, hheader]
        exact ⟨by simp, by simp⟩
  · rw [if_neg hempty] at hheaders
    rw [hheaders]
    exact ⟨by simp [hempty], by simp⟩

theorem http11Request_headers_host :
    ∃ http₁ request₁,
      http11RequestLine (.ofText (literal "GET / HTTP/1.1\r\nHost: a\r\n\r\n")) {} (.ofText 0 27) =
        some (true, http₁, request₁) ∧
      ∃ isRequest http₂ request₂,
        http11Request (.ofText (literal "GET / HTTP/1.1\r\nHost: a\r\n\r\n")) {} (.ofText 0 27) =
          some (isRequest, http₂, request₂) ∧
        (isRequest = true ↔ [] ∈ lines http11Cr http11Lf (request₁.unread
          (.ofText (literal "GET / HTTP/1.1\r\nHost: a\r\n\r\n")))) :=
  ⟨_, _, rfl, by
    obtain ⟨isRequest, http₂, request₂, hrequest, hempty, -⟩ := http11Request_headers
      (.ofText (literal "GET / HTTP/1.1\r\nHost: a\r\n\r\n")) (.ofText 0 27) _ _
      ⟨by decide, by decide⟩ rfl
    exact ⟨isRequest, http₂, request₂, hrequest, hempty⟩⟩

end Httpaa
