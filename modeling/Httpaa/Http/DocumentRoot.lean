import Httpaa.Http.FileName
import Httpaa.Uri.Straight

/-!
# The document root

`httpaa_work_set_response_file_name` copies the root into the file name of the response, and then
the file name of the request over it: the root is gone, or what the shorter name leaves of it takes
part in the passes. The passes bring only a straight path into its normal form. They count in an
`int`: paths and roots are shorter than 2^31.
-/

namespace Httpaa.Text

variable {text root tail full normal : List UInt8}

/-- The passes change nothing in the text with one more NUL behind it. -/
def Unmoved (text : List UInt8) : Prop :=
  removeSegmentPoint [] [] (text ++ [0]) = text ++ [0] ∧
    removeSegmentPoints [] [] (text ++ [0]) = text ++ [0]

private theorem cString_length_count (text : List UInt8) :
    (cString text).length + text.count 0 ≤ text.length := by
  induction text with
  | nil => exact Nat.le_refl _
  | cons x text ih =>
      by_cases hx : x = 0
      · have hle := List.count_le_length (a := (0 : UInt8)) (l := x :: text)
        simpa [cString, hx] using hle
      · have hcount : (x :: text).count 0 = text.count 0 := List.count_cons_of_ne hx
        rw [hcount]
        simp only [cString, ne_eq, hx, not_false_eq_true, decide_true, List.takeWhile_cons_of_pos,
          List.length_cons] at ih ⊢
        omega

/-- What the shorter of two texts leaves of the longer one, with the NUL of each. -/
def overlaid (root text : List UInt8) : List UInt8 :=
  text ++ 0 :: (root ++ [0]).drop (text.length + 1)

private theorem overlaid_of_le (hle : root.length ≤ text.length) :
    overlaid root text = text ++ [0] := by
  rw [overlaid, List.drop_eq_nil_of_le (by simpa using hle)]

private theorem overlaid_length (root text : List UInt8) :
    (overlaid root text).length = max root.length text.length + 1 := by
  simp only [overlaid, List.length_append, List.length_cons, List.length_drop, List.length_nil]
  omega

private theorem overlaid_getLast (root text : List UInt8) :
    (overlaid root text).getLast? = some 0 := by
  by_cases hle : root.length ≤ text.length
  · rw [overlaid_of_le hle, List.getLast?_concat]
  · have hne : ¬ (root ++ [0]).length ≤ text.length + 1 := by simpa using hle
    rw [overlaid, List.getLast?_append, List.getLast?_cons, List.getLast?_drop, if_neg hne,
      List.getLast?_concat]
    rfl

private theorem passes_getLast (hlast : full.getLast? = some 0) (hsparse : Sparse tail) :
    (removeSegmentPoints [] [] (removeSegmentPoint [] [] full ++ tail)).getLast? = some 0 := by
  obtain ⟨front, rfl⟩ := List.getLast?_eq_some_iff.mp hlast
  obtain ⟨first, hfirst⟩ := removeSegmentPoint_endsNul front
  have hends : (removeSegmentPoint [] [] (front ++ [0])).getLast? = some 0 := by simp [hfirst]
  have hall := endsNul_append_sparse hends hsparse
  exact removeSegmentPoints_getLast (by rwa [List.nil_append, List.nil_append])

private theorem passes_overlaid (hnul : 0 ∈ text) (hunmoved : Unmoved text) (hsparse : Sparse tail)
    (hlength : (removeSegmentPoint [] [] (overlaid root text) ++ tail).length =
      (overlaid root text).length) (hnormal : normal ≠ []) :
    cString (removeSegmentPoints [] [] (removeSegmentPoint [] [] (overlaid root text) ++ tail)) =
      root ++ normal ↔ cString text = root ++ normal := by
  have hpos := List.length_pos_iff.mpr hnormal
  have hone := List.count_pos_iff.mpr hnul
  rcases Nat.lt_or_ge text.length root.length with hlt | hle
  · refine iff_of_false (fun heq => ?_) (fun heq => ?_)
    · have hshort := removeSegmentPoints_length_le [] []
        (removeSegmentPoint [] [] (overlaid root text) ++ tail)
      have hmem := List.mem_of_getLast? (passes_getLast (overlaid_getLast root text) hsparse)
      have hcount := cString_length_count
        (removeSegmentPoints [] [] (removeSegmentPoint [] [] (overlaid root text) ++ tail))
      have hone' := List.count_pos_iff.mpr hmem
      rw [heq, List.length_append] at hcount
      rw [overlaid_length, Nat.max_eq_left (Nat.le_of_lt hlt)] at hlength
      rw [hlength, List.length_nil, Nat.zero_add] at hshort
      omega
    · have hcount := cString_length_count text
      rw [heq, List.length_append] at hcount
      omega
  · rw [overlaid_of_le hle] at hlength ⊢
    have htail : tail = [] := by
      rw [hunmoved.1, List.length_append] at hlength
      exact List.length_eq_zero_iff.mp (by omega)
    rw [htail, List.append_nil, hunmoved.1, hunmoved.2, cString_append hnul]

end Httpaa.Text

namespace Httpaa

open Stringaa Heap

variable {h h₁ : Heap} {s dst name root : Stringaa} {p : Ptr} {path text full rootText : List UInt8}
  {block n : Nat} {http : HttpaaWork}

/-! ### The file name of the request -/

/-- The string has no buffer, or one for itself that is too small for `n` characters and a NUL. -/
def Stringaa.TakesNew (h : Heap) (s : Stringaa) (n : Nat) : Prop :=
  s.isAlloc = true → s.bufSize < n + 1 ∧ ∃ block, s.Owns h block

def Stringaa.cString (h : Heap) (s : Stringaa) : Option (List UInt8) := do h.cString (← s.buf)

private theorem removeSegments_cString (hname : name.Owns h block)
    (hholds : h.Holds ⟨block, 0⟩ full) (hsize : name.bufSize = full.length)
    (hlast : full.getLast? = some 0) (hblock : full.length ≤ h.size block) :
    ∃ h₁ h' name' tail text, Text.removeSegmentPoints [] []
        (Text.removeSegmentPoint [] [] full ++ tail) = text ∧ Sparse tail ∧
      (Text.removeSegmentPoint [] [] full ++ tail).length = full.length ∧
      uriaaRemoveSegmentPoint h name = some (true, h₁) ∧
      uriaaRemoveSegmentPoints h₁ name = some (true, h', name') ∧ name'.Owns h' block ∧
      name'.bufSize = text.length + 1 ∧ h'.Holds ⟨block, 0⟩ text ∧
      name'.cString h' = some (Text.cString text) ∧ h.SameBeside h' block := by
  obtain ⟨h₁, h', tail, hsparse, hlength, hfirst, hsecond, hheld, hkept, hsame⟩ :=
    removeSegments_holds hname hholds hsize hlast
  have hle := Text.removeSegmentPoints_length_le [] [] (Text.removeSegmentPoint [] [] full ++ tail)
  have hmem := List.mem_of_getLast? (Text.passes_getLast hlast hsparse)
  rw [List.length_nil, Nat.zero_add, hlength] at hle
  refine ⟨h₁, h', _, tail, _, rfl, hsparse, hlength, hfirst, hsecond, ?_, rfl, hheld, ?_, hsame⟩
  · exact ⟨hname.buf, hname.isInit, hname.isAlloc, hname.isNullTerminated,
      hname.known.trans_le hsame.next⟩
  · have hstring := hheld.cString (by
      rw [hkept, Nat.zero_add]
      exact hle.trans hblock) hmem
    simp [Stringaa.cString, hname.buf, hstring]

private theorem requestFileName_new (hpath : http.HasPath h path)
    (hnew : http.requestFileName.TakesNew h path.length) :
    ∃ h' name tail text, httpaaWorkGetRequestFileName h http =
        some (true, h', { http with requestFileName := name }) ∧ name.Gives h' ⟨h.next, 0⟩ text ∧
      Sparse tail ∧ Text.removeSegmentPoints [] []
        (Text.removeSegmentPoint [] [] (path ++ [0]) ++ tail) = text ∧ h.SameBeside h' h.next := by
  obtain ⟨p, hgives⟩ := hpath.gives
  obtain ⟨h₁, copy, hcopy, howns, hcopySize, -, hcopied, hblock, hsame⟩ :=
    stringaaCopy_renewed hgives hnew
  obtain ⟨h₂, h₃, name, tail, text, htext, hsparse, -, hfirst, hsecond, hname, hsize, hheld, -,
    hsame'⟩ := removeSegments_cString howns hcopied (by simp [hcopySize]) (by simp)
      (by simp [hblock])
  refine ⟨h₃, name, tail, text, ?_, ⟨hname.buf, hname.isInit, ?_, hheld, hname.known⟩, hsparse,
    htext, hsame.trans hsame'⟩
  · simp [httpaaWorkGetRequestFileName, hcopy, hfirst, hsecond]
  · rw [hsize, hname.isNullTerminated]
    rfl

/-! ### The file name of the response -/

private theorem behind_of_holds (hbuf : s.buf = some p) (hholds : h.Holds p full)
    (hsize : s.bufSize = full.length) (n : Nat) : s.behind h n = full.drop (n + 1) := by
  refine List.ext_getElem (by simp [Stringaa.behind, hsize]) fun i hi _ => ?_
  have hi' : n + 1 + i < full.length := by
    simp only [Stringaa.behind, List.length_map, List.length_range, hsize] at hi
    omega
  have hheld := hholds (n + 1 + i) hi'
  rw [List.getElem?_eq_getElem hi', Option.some.injEq] at hheld
  simp [Stringaa.behind, hbuf, hheld]

private theorem responseFileName_copied (hroot : root.Gives h p rootText)
    (hnew : dst.TakesNew h rootText.length) {q : Ptr} (hname : name.Gives h q text) :
    ∃ h₁ h₂ first second block, stringaaCopy h dst root = some (true, h₁, first) ∧
      stringaaCopy h₁ first name = some (true, h₂, second) ∧ second.Owns h₂ block ∧
      second.bufSize = (Text.overlaid rootText text).length ∧
      h₂.Holds ⟨block, 0⟩ (Text.overlaid rootText text) ∧
      (Text.overlaid rootText text).length ≤ h₂.size block := by
  obtain ⟨h₁, first, hcopy, howns, hsize, -, hholds, hblock, hsame⟩ :=
    stringaaCopy_renewed hroot hnew
  have hname' : name.Gives h₁ q text :=
    ⟨hname.buf, hname.isInit, hname.size, hsame.holds hname.holds (Nat.ne_of_lt hname.known),
      hname.known.trans_le hsame.next⟩
  obtain ⟨h₂, second, block, hcopy', howns', -, hholds', hsize', hcase, -⟩ :=
    stringaaCopy_cases hname' (.inr ⟨_, howns⟩)
  rw [behind_of_holds howns.buf hholds (by simp [hsize])] at hholds' hsize'
  refine ⟨h₁, h₂, first, second, block, hcopy, hcopy', howns', hsize', hholds', ?_⟩
  rw [Text.overlaid_length]
  rcases hcase with ⟨-, hsmall, hnewBlock⟩ | ⟨hbuf, hroom, hkept⟩
  · rw [hnewBlock]
    omega
  · rw [howns.buf, Option.some.injEq, Ptr.mk.injEq] at hbuf
    rw [hkept, ← hbuf.1, hblock]
    omega

/-- The file name of the response is the root with the normal form of the path behind it. -/
def NamedUnder (h : Heap) (http : HttpaaWork) (root : Stringaa) (rootText path : List UInt8) :
    Prop :=
  ∃ h' http' normal, http11WorkMethodGet h http root = some (true, h', http') ∧
    Text.normalForm path = some normal ∧
    http'.responseFileName.cString h' = some (rootText ++ normal)

private theorem namedUnder_iff (hpath : http.HasPath h path) (hroot : root.Gives h p rootText)
    (hrequest : http.requestFileName.TakesNew h path.length)
    (hresponse : http.responseFileName.TakesNew h rootText.length) :
    (∃ h' http', http11WorkMethodGet h http root = some (true, h', http')) ∧
      ∃ tail, Sparse tail ∧ (NamedUnder h http root rootText path ↔ ∃ normal,
        Text.normalForm path = some normal ∧ Text.cString (Text.removeSegmentPoints [] []
          (Text.removeSegmentPoint [] [] (path ++ [0]) ++ tail)) = rootText ++ normal) := by
  obtain ⟨h₁, name, tail, text, hget, hname, hsparse, htext, hsame⟩ :=
    requestFileName_new hpath hrequest
  have hnul : 0 ∈ text := by
    rw [← htext]
    exact List.mem_of_getLast? (Text.passes_getLast (by simp) hsparse)
  have hroot₁ : root.Gives h₁ p rootText :=
    ⟨hroot.buf, hroot.isInit, hroot.size, hsame.holds hroot.holds (Nat.ne_of_lt hroot.known),
      hroot.known.trans_le hsame.next⟩
  have hresponse₁ : http.responseFileName.TakesNew h₁ rootText.length := fun halloc => by
    obtain ⟨hsmall, block, howns⟩ := hresponse halloc
    exact ⟨hsmall, block, howns.buf, howns.isInit, howns.isAlloc, howns.isNullTerminated,
      howns.known.trans_le hsame.next⟩
  obtain ⟨h₂, h₃, first, second, block, hcopy, hcopy', howns, hsize, hholds, hblock⟩ :=
    responseFileName_copied hroot₁ hresponse₁ hname
  obtain ⟨h₄, h₅, response, tail', left, hleft, hsparse', hlength, hfirst, hsecond, -, -, -,
    hstring, -⟩ := removeSegments_cString howns hholds hsize (Text.overlaid_getLast _ _) hblock
  have hrun : http11WorkMethodGet h http root = some (true, h₅, { http with
      requestFileName := name, responseFileName := response }) := by
    simp [http11WorkMethodGet, hget, httpaaWorkSetResponseFileName, hcopy, hcopy', hfirst, hsecond]
  have hiff (normal : List UInt8) (hnormal : Text.normalForm path = some normal) :
      Text.cString left = rootText ++ normal ↔ Text.cString text = rootText ++ normal := by
    rw [← hleft]
    exact Text.passes_overlaid hnul (Text.passes_again hsparse htext) hsparse' hlength
      (Text.normalForm_ne_nil hnormal)
  refine ⟨⟨_, _, hrun⟩, tail, hsparse, ?_⟩
  rw [htext]
  constructor
  · rintro ⟨h', http', normal, hrun', hnormal, hname'⟩
    rw [hrun, Option.some.injEq, Prod.mk.injEq, Prod.mk.injEq] at hrun'
    rw [← hrun'.2.1, ← hrun'.2.2, hstring, Option.some.injEq] at hname'
    exact ⟨normal, hnormal, (hiff normal hnormal).mp hname'⟩
  · rintro ⟨normal, hnormal, heq⟩
    refine ⟨_, _, normal, hrun, hnormal, ?_⟩
    rw [← (hiff normal hnormal).mpr heq]
    exact hstring

/-- For every path and every root the file name of the response is the root with the normal form of
the path behind it if the root is empty, the path is straight and neither file name goes into an old
buffer; and where none of them does, only then, for a path without NUL and a root that does not
begin with `..`. -/
theorem http11WorkMethodGet_namedUnder (h : Heap) (http : HttpaaWork) (root : Stringaa) (p : Ptr)
    (path rootText : List UInt8) (hpath : http.HasPath h path) (hroot : root.Gives h p rootText)
    (hslash : path.head? = some slash) (hrequest : http.requestFileName.TakesNew h path.length)
    (hresponse : http.responseFileName.TakesNew h rootText.length) :
    (∃ h' http', http11WorkMethodGet h http root = some (true, h', http')) ∧
      (rootText = [] ∧ Text.Straight path → NamedUnder h http root rootText path) ∧
      (NamedUnder h http root rootText path → 0 ∉ path → ¬ parent <+: rootText →
        rootText = [] ∧ Text.Straight path) := by
  obtain ⟨hrun, tail, hsparse, hiff⟩ := namedUnder_iff hpath hroot hrequest hresponse
  rw [hiff]
  refine ⟨hrun, ?_, ?_⟩
  · rintro ⟨rfl, hstraight⟩
    exact hstraight.passes hslash hsparse
  · rintro ⟨normal, hnormal, hname⟩ hnul hrooted
    exact Text.straight_of_passes hslash hnul hrooted hsparse hnormal hname

private theorem rootSample (path rootText : List UInt8) : ∃ (http : HttpaaWork) (root : Stringaa),
    HttpaaWork.HasPath (.ofText (path ++ rootText)) http path ∧
    root.Gives (.ofText (path ++ rootText)) ⟨0, path.length⟩ rootText ∧
    http.requestFileName.isAlloc = false ∧ http.responseFileName.isAlloc = false := by
  have htext := holds_append.mp (Heap.ofText_holds (path ++ rootText))
  refine ⟨({} : HttpaaWork).withUri { part := fun _ => .ofText 0 path.length },
    { buf := some ⟨0, path.length⟩, bufSize := rootText.length, writePos := rootText.length,
      isInit := true }, ?_, ?_, rfl, rfl⟩
  · exact ⟨⟨⟨0, 0⟩, rfl, rfl, rfl, htext.1, Nat.one_pos⟩, rfl⟩
  · exact ⟨rfl, rfl, rfl, by simpa [Ptr.add] using htext.2, Nat.one_pos⟩

/-- `/a/../c` without a root. -/
theorem http11WorkMethodGet_namedUnder_fresh : ∃ (h : Heap) (http : HttpaaWork) (root : Stringaa),
    NamedUnder h http root [] (literal "/a/../c") := by
  obtain ⟨http, root, hpath, hroot, hrequest, hresponse⟩ := rootSample (literal "/a/../c") []
  obtain ⟨-, hnamed, -⟩ := http11WorkMethodGet_namedUnder _ _ _ _ _ _ hpath hroot rfl
    (fun halloc => absurd (hrequest.symm.trans halloc) (by decide))
    (fun halloc => absurd (hresponse.symm.trans halloc) (by decide))
  exact ⟨_, http, root, hnamed ⟨rfl, by decide⟩⟩

/-- The request for `/x` under `/r` names `/x`. -/
theorem http11WorkMethodGet_leavesRoot : ¬ ∀ (h : Heap) (http : HttpaaWork) (root : Stringaa)
    (p : Ptr) (path rootText : List UInt8), http.HasPath h path → root.Gives h p rootText →
      path.head? = some slash →
      ∀ h' http', http11WorkMethodGet h http root = some (true, h', http') →
        NamedUnder h http root rootText path := by
  intro hclaim
  obtain ⟨http, root, hpath, hroot, hrequest, hresponse⟩ :=
    rootSample (literal "/x") (literal "/r")
  obtain ⟨⟨h', http', hrun⟩, tail, hsparse, hiff⟩ := namedUnder_iff hpath hroot
    (fun halloc => absurd (hrequest.symm.trans halloc) (by decide))
    (fun halloc => absurd (hresponse.symm.trans halloc) (by decide))
  obtain ⟨normal, hnormal, hname⟩ :=
    hiff.mp (hclaim _ _ _ _ _ _ hpath hroot rfl h' http' hrun)
  have hroots := Text.straight_of_passes rfl (by decide) (by decide) hsparse hnormal hname
  exact absurd hroots.1 (by decide)

end Httpaa
