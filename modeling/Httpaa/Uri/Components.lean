import Httpaa.Uri.Contents

/-!
# The components of a text without escapes

A reference that was all zero, after `URI_reference` has read a text without escapes to its end:
what is set is a slice of the text, and no slice has a NUL.
-/

namespace Httpaa.Text

open Recogniser

variable {P Q : UInt8 → Bool} {s t : List UInt8} {c : Cursor UInt8}

/-! ### Without escapes nothing strays -/

private theorem inClass_plain (hplain : ch '%' ∉ s) :
    (inClass P s).2 = s ∧ ((inClass P s).1 = true → P (s.headD 0) = true) := by
  cases s with
  | nil => exact ⟨rfl, fun h => by cases h⟩
  | cons x rest =>
      have hx : x ≠ ch '%' := fun heq => hplain (heq ▸ List.mem_cons_self ..)
      by_cases hP : P x = true <;> simp [inClass, escaped, hP, hx]

private theorem charsStrays_plain (hplain : ch '%' ∉ s) : charsStrays P s = [] := by
  fun_induction charsStrays P s with
  | case1 s h ih =>
      obtain ⟨hrest, hhead⟩ := inClass_plain (P := P) hplain
      rw [hrest] at ih ⊢
      rw [if_pos (hhead h), ih fun hmem => hplain (List.mem_of_mem_tail hmem), List.append_nil]
  | case2 h => exact absurd (List.mem_singleton_self _) hplain
  | case3 => rfl

private theorem classThenStrays_plain (hplain : ch '%' ∉ s) : classThenStrays P Q s = [] := by
  obtain ⟨hrest, hhead⟩ := inClass_plain (P := P) hplain
  rw [classThenStrays]
  split
  · rename_i h
    rw [hrest, if_pos (hhead h), charsStrays_plain fun hmem => hplain (List.mem_of_mem_tail hmem)]
    rfl
  · rfl

private theorem plain_suffix (hplain : ch '%' ∉ s) (hsuffix : t <:+ s) : ch '%' ∉ t :=
  fun hmem => hplain (hsuffix.subset hmem)

private theorem paramsStrays_plain (hplain : ch '%' ∉ s) : paramsStrays s = [] := by
  fun_induction paramsStrays s with
  | case1 s h ih =>
      have hrest := plain_suffix hplain (isChar_suffix (ch ';') s)
      rw [charsStrays_plain hrest, ih (plain_suffix hrest (chars_suffix _ _))]
      rfl
  | case2 => rfl

private theorem segmentStrays_plain (hplain : ch '%' ∉ s) : segmentStrays s = [] := by
  rw [segmentStrays, charsStrays_plain hplain,
    paramsStrays_plain (plain_suffix hplain (chars_suffix _ _))]
  rfl

private theorem segmentsStrays_plain (hplain : ch '%' ∉ s) : segmentsStrays s = [] := by
  fun_induction segmentsStrays s with
  | case1 s h ih =>
      have hrest := plain_suffix hplain (isChar_suffix (ch '/') s)
      rw [segmentStrays_plain hrest, ih (plain_suffix hrest (segment_suffix _))]
      rfl
  | case2 => rfl

private theorem plain_reaches {c' : Cursor UInt8} (hplain : ch '%' ∉ c.rest)
    (hreach : c.Reaches c') :
    ch '%' ∉ c'.rest := by
  obtain ⟨front, hrest, -⟩ := hreach
  exact plain_suffix hplain ⟨front, hrest.symm⟩

private theorem absPathStrays_plain (hplain : ch '%' ∉ c.rest) : absPathStrays c = [] := by
  have htail := plain_suffix hplain (List.tail_suffix c.rest)
  rw [absPathStrays]
  split
  · rw [segmentStrays_plain htail, segmentsStrays_plain (plain_suffix htail (segment_suffix _))]
    rfl
  · rfl

private theorem serverStrays_plain (hplain : ch '%' ∉ c.rest) : serverStrays c = [] := by
  rw [serverStrays, charsStrays_plain hplain, ite_self]

private theorem hierPathStrays_plain (hplain : ch '%' ∉ c.rest) : hierPathStrays c = [] := by
  have hslashes := (char_advances '/').andThen (char_advances '/')
  rw [hierPathStrays, netPathStrays, absPathStrays_plain hplain,
    serverStrays_plain (plain_reaches hplain (hslashes c)),
    absPathStrays_plain (plain_reaches hplain (hslashes.andThen authority_advances c))]
  exact ite_self _

private theorem queryStrays_plain (hplain : ch '%' ∉ c.rest) : queryStrays c = [] := by
  rw [queryStrays, charsStrays_plain (plain_suffix hplain (List.tail_suffix _)), ite_self]

private theorem hierPartStrays_plain (hplain : ch '%' ∉ c.rest) : hierPartStrays c = [] := by
  rw [hierPartStrays, hierPathStrays_plain hplain,
    queryStrays_plain (plain_reaches hplain (netPath_advances.orElse absPath_advances c))]
  rfl

private theorem relativeStrays_plain (hplain : ch '%' ∉ c.rest) : relativeStrays c = [] := by
  have hpath := (netPath_advances.orElse absPath_advances).orElse relPath_advances
  have hsegment : ch '%' ∉ (c.to (classThenChars relSegmentChars relSegmentChars c.rest).2).rest :=
    plain_suffix hplain (classThenChars_suffix _ _ _)
  rw [relativeStrays, relativePathStrays, hierPathStrays_plain hplain, relPathStrays,
    classThenStrays_plain hplain, absPathStrays_plain hsegment,
    queryStrays_plain (plain_reaches hplain (hpath c)), List.append_nil, List.append_nil, ite_self]

private theorem absoluteStrays_plain (hplain : ch '%' ∉ c.rest) : absoluteStrays c = [] := by
  have hpart := plain_reaches hplain (scheme_advances.andThen (char_advances ':') c)
  rw [absoluteStrays, hierPartStrays_plain hpart, classThenStrays_plain hpart, ite_self]

private theorem referenceStrays_plain (hplain : ch '%' ∉ c.rest) :
    (referenceStrays c).all strayOk = true := by
  have hbehind := plain_reaches hplain (absoluteURI_advances.orElse relativeURI_advances c)
  rw [referenceStrays, absoluteStrays_plain hplain, relativeStrays_plain hplain, ite_self, ite_self,
    List.nil_append, fragmentStrays]
  split
  · rename_i hhash
    obtain ⟨rest, hrest⟩ := exists_of_head hhash
    rw [charsStrays_plain (plain_suffix hbehind (List.tail_suffix _)), hrest]
    have hok : (inClass referenceChars (ch '#' :: rest)).1 = true := by
      rw [inClass, if_pos (by decide)]
    simp [strayOk, hok]
  · rfl

private theorem nul_not_mem (htext : uriText referenceChars s = true) : 0 ∉ s := by
  have hzero (c : UInt8) (hc : referenceChars c = true) : (0 : UInt8) ≠ c := by
    rintro rfl
    exact absurd hc (by decide)
  induction s using uriText.induct with
  | case1 => exact List.not_mem_nil
  | case2 a b text ih =>
      rw [uriText_triple, Bool.and_eq_true, Bool.and_eq_true] at htext
      have ha := hzero a (by rw [referenceChars, hexChars_uricChars htext.1.1]; rfl)
      have hb := hzero b (by rw [referenceChars, hexChars_uricChars htext.1.2]; rfl)
      have hpercent : (0 : UInt8) ≠ ch '%' := by decide
      simp [ha, hb, hpercent, ih htext.2]
  | case3 text hshort =>
      obtain ⟨a, b, rest', hrest', -⟩ := uriText_percent htext
      exact (hshort a b rest' hrest').elim
  | case4 c text hc ih =>
      rw [uriText_cons hc, Bool.and_eq_true] at htext
      simp [hzero c htext.1, ih htext.2]

end Httpaa.Text

namespace Httpaa

open Recogniser

variable {h : Heap} {u : Uriaa} {text : List UInt8} {p : UriPart}

/-- What `URI_reference` makes of a reference that was all zero but for its text, which has no
escapes and is read to its end. -/
structure Parsed (h : Heap) (text : List UInt8) (u : Uriaa) : Prop where
  plain : ch '%' ∉ text
  run : ∃ uri : Stringaa, Uriaa.Shows h { uri } ⟨0, text⟩ ∧ uri.readPos = 0 ∧
    uriReference h { uri } = some (true, u)
  readAll : u.uri.readPos = text.length

/-- The string is the text, in a block that has been handed out. -/
structure Stringaa.Carries (h : Heap) (s : Stringaa) (text : List UInt8) : Prop where
  isInit : s.isInit = true
  isNullTerminated : s.isNullTerminated = false
  writePos : s.writePos = text.length
  noNul : 0 ∉ text
  holds : ∃ src, s.buf = some src ∧ h.Holds src text ∧ src.block < h.next

/-- The component is set to the text, or not set. -/
def Stringaa.CarriesPart (h : Heap) (s : Stringaa) : Option (List UInt8) → Prop
  | some text => s.Carries h text
  | none => s.isInit = false ∧ s.isNullTerminated = false ∧ s.writePos = 0

namespace Parsed

theorem readFrom (hu : Parsed h text u) : u.ReadFrom h text true := hu.run

theorem noNul (hu : Parsed h text u) : 0 ∉ text := by
  obtain ⟨uri, -, hok, hleft⟩ := hu.readFrom.outcome
  obtain ⟨front, hfront, hend⟩ := Text.uriReference_advances ⟨0, text⟩
  obtain ⟨text', htext', -, hgood, -, -⟩ := Text.uriReference_takes ⟨0, text⟩ hok
  have hread := hu.readAll
  rw [hleft] at hread
  have hlength : (Text.uriReference ⟨0, text⟩).cursor.pos = text.length := hread
  have hsplit : text = front ++ (Text.uriReference ⟨0, text⟩).cursor.rest := hfront
  have hsplit' : text = text' ++ (Text.uriReference ⟨0, text⟩).cursor.rest := htext'
  have hcount := congrArg List.length hsplit
  rw [List.length_append] at hcount
  have hnil : (Text.uriReference ⟨0, text⟩).cursor.rest = [] := by
    refine List.length_eq_zero_iff.mp ?_
    simp only at hend
    omega
  rw [hnil, List.append_nil] at hsplit'
  rw [hsplit']
  exact Text.nul_not_mem (hgood (Text.referenceStrays_plain hu.plain))

theorem carries (hheap : h.WellFormed) (hu : Parsed h text u) (p : UriPart) :
    (u.part p).CarriesPart h (u.component h p) := by
  obtain ⟨hspans, hpiece⟩ := hu.readFrom.spansPart hheap p
  cases hset : u.component h p with
  | none =>
      rw [hset] at hspans
      exact ⟨hspans.1, hspans.2.1, hspans.2.2.2⟩
  | some piece =>
      rw [hset] at hspans
      obtain ⟨src, hbuf, hholds, hblock, -⟩ := hspans.holds
      have hin := (hpiece piece hset).1
      exact ⟨hspans.isInit, hspans.isNullTerminated, hspans.writePos,
        fun hmem => hu.noNul (hin.subset hmem), src, hbuf, hholds, hblock⟩

end Parsed

theorem Uriaa.isInit_iff : (u.part p).isInit = (u.component h p).isSome := by
  rw [component]
  split <;> simp_all

end Httpaa
