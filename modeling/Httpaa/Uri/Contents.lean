import Mathlib.Data.List.TakeWhile
import Httpaa.Strings.Buffer
import Httpaa.Uri.Characters
import Httpaa.Uri.Slices

/-!
# What stands in a component

After `URI_reference`, whether it succeeds or not, every component is unset or a slice of the text
in the buffer of that. A scheme has characters of a scheme only, and an absolute path starts with a
slash. Nothing of the kind holds of the others: the character behind an escape is not looked at.
-/

namespace Httpaa

open Recogniser

/-- What the parser looks at in the text of a component. -/
structure PartForm (p : UriPart) (text : List UInt8) : Prop where
  scheme : p = .scheme → ∀ x ∈ text, schemeChars x = true
  absPath : p = .absPath → text.head? = some (ch '/')
  opaquePart : p = .opaquePart → text ≠ []

/-- The slice that an assignment sets has the form of the component. -/
def UriWrite.Formed (c : Cursor UInt8) : UriWrite → Prop
  | .set p pos size => c.pos ≤ pos ∧ PartForm p ((c.rest.drop (pos - c.pos)).take size)
  | .unset _ => True

private theorem UriWrite.formed_grows : GrowsBackwards UriWrite.Formed := by
  rintro c c' (⟨p, pos, size⟩ | p) ⟨front, hrest, hpos⟩ hw
  · obtain ⟨hle, hform⟩ := hw
    refine ⟨by omega, ?_⟩
    rw [hrest, show pos - c.pos = front.length + (pos - c'.pos) by omega, List.drop_append,
      List.drop_eq_nil_of_le (by omega), List.nil_append, Nat.add_sub_cancel_left]
    exact hform
  · trivial

end Httpaa

namespace Httpaa.Text

open Recogniser UriWrite

variable {p : Production} {c c' : Cursor UInt8} {part : UriPart} {parts : List UriPart}

private theorem formed_of_notesOn (hin : NotesIn InText p) (hon : NotesOn parts p)
    (hparts : UriPart.scheme ∉ parts ∧ UriPart.absPath ∉ parts ∧ UriPart.opaquePart ∉ parts) :
    NotesIn Formed p := by
  intro c w hw
  have hpart := hon c w hw
  cases w with
  | set q pos size =>
      have htext := hin c _ hw
      exact ⟨htext.1, fun heq => absurd (heq ▸ hpart) hparts.1,
        fun heq => absurd (heq ▸ hpart) hparts.2.1, fun heq => absurd (heq ▸ hpart) hparts.2.2⟩
  | unset q => trivial

private theorem slice_formed (hreach : c.Reaches c')
    (hform : ∀ front, c.rest = front ++ c'.rest → PartForm part front) :
    (UriWrite.slice part c.pos c'.pos).Formed c := by
  obtain ⟨front, hrest, hpos⟩ := hreach
  refine ⟨Nat.le_refl _, ?_⟩
  rw [Nat.sub_self, List.drop_zero, hpos, Nat.add_sub_cancel_left, hrest, List.take_left]
  exact hform front hrest

private theorem slice_formed_of_ne (hne : part ≠ .scheme ∧ part ≠ .absPath ∧ part ≠ .opaquePart)
    (c c' : Cursor UInt8) (hreach : c.Reaches c') : (UriWrite.slice part c.pos c'.pos).Formed c :=
  slice_formed hreach fun _ _ => ⟨fun heq => absurd heq hne.1, fun heq => absurd heq hne.2.1,
    fun heq => absurd heq hne.2.2⟩

private theorem schemeRun_chars {s front rest : List UInt8} (hrun : schemeRun s = (true, rest))
    (hfront : s = front ++ rest) : ∀ x ∈ front, schemeChars x = true := by
  cases s with
  | nil => simp [schemeRun] at hrun
  | cons x s =>
      by_cases hx : alphaChars x = true
      · simp only [schemeRun, hx, if_true, Prod.mk.injEq, true_and] at hrun
        have hsplit : x :: s.takeWhile schemeChars ++ rest = front ++ rest := by
          rw [← hfront, ← hrun, List.cons_append, List.takeWhile_append_dropWhile]
        rw [← List.append_cancel_right hsplit]
        intro y hy
        rcases List.mem_cons.mp hy with rfl | hy
        · simp [schemeChars, hx]
        · exact List.mem_takeWhile_imp hy
      · simp [schemeRun, hx] at hrun

private theorem scheme_formed : NotesIn Formed scheme := by
  have hadv : Advances (lift schemeRun : Production) := .lift schemeRun_suffix
  refine .noting_ok (.lift _) fun c hok => slice_formed (hadv c) fun front hfront => ?_
  refine ⟨fun _ => schemeRun_chars (s := c.rest) (Prod.ext hok rfl) hfront, nofun, nofun⟩

private theorem absPath_formed : NotesIn Formed absPath := by
  have hadv : Advances (andThen (char '/') (lift fun s => (true, segments (segment s))) :
      Production) :=
    .andThen (char_advances _) (.lift fun _ => (segments_suffix _).trans (segment_suffix _))
  refine .attempt (.noting_ok (.andThen formed_grows (.lift _) (char_advances _) (.lift _))
    fun c hok => slice_formed (hadv c) fun front hfront => ⟨nofun, fun _ => ?_, nofun⟩)
  have hchar : (char '/' c).ok = true := by
    by_contra hfail
    rw [andThen, if_neg hfail] at hok
    exact hfail hok
  obtain ⟨rest, hrest⟩ := exists_of_head ((char_ok '/' c).mp hchar)
  obtain ⟨more, hmore⟩ := (segments_suffix _).trans (segment_suffix rest)
  have hcursor : (andThen (char '/') (lift fun s => (true, segments (segment s))) c :
      Outcome UInt8 UriWrite).cursor.rest = segments (segment rest) := by
    simp [andThen, char, lift, isChar, hrest, Outcome.after]
  rw [hcursor, hrest] at hfront
  have hsplit : ch '/' :: more ++ segments (segment rest) = front ++ segments (segment rest) := by
    rw [List.cons_append, hmore, hfront]
  rw [← List.append_cancel_right hsplit]
  rfl

private theorem authority_formed : NotesIn Formed authority :=
  formed_of_notesOn authority_inText authority_notesOn (by decide)

private theorem netPath_formed : NotesIn Formed netPath := by
  have hslashes := (char_advances '/').andThen (char_advances '/')
  have hauthority := hslashes.andThen authority_advances
  exact .attempt (.noting (.andTry formed_grows (.andThen formed_grows
    (.andThen formed_grows (.lift _) (char_advances _) (.lift _)) hslashes authority_formed)
    hauthority absPath_formed) (hauthority.andTry absPath_advances)
    (slice_formed_of_ne (by decide)))

private theorem relPath_formed : NotesIn Formed relPath := by
  have hsegment : Advances (lift (classThenChars relSegmentChars relSegmentChars) : Production) :=
    .lift (classThenChars_suffix _ _)
  exact .attempt (.noting (.andTry formed_grows (.lift _) hsegment absPath_formed)
    (hsegment.andTry absPath_advances) (slice_formed_of_ne (by decide)))

private theorem uricPart_formed (hne : part ≠ .scheme ∧ part ≠ .absPath ∧ part ≠ .opaquePart)
    (x : Char) :
    NotesIn Formed (andThen (char x) (uricPart part)) :=
  .andThen formed_grows (.lift _) (char_advances _)
    (.noting (.lift _) (.lift fun _ => chars_suffix _ _) (slice_formed_of_ne hne))

private theorem classThenChars_length {P Q : UInt8 → Bool} {s : List UInt8}
    (hok : (classThenChars P Q s).1 = true) : (classThenChars P Q s).2.length < s.length := by
  by_cases hclass : (inClass P s).1 = true
  · have hpos := List.length_pos_iff.mpr (inClass_ne_nil hclass)
    have hclassLe := (inClass_suffix P s).length_le
    have hle := (chars_suffix Q (inClass P s).2.tail).length_le
    rw [List.length_tail] at hle
    rw [classThenChars, if_pos hclass]
    simp only
    omega
  · rw [classThenChars, if_neg hclass] at hok
    exact absurd hok hclass

private theorem opaquePart_formed : NotesIn Formed opaquePart := by
  have hadv : Advances (lift (classThenChars uricNoSlashChars uricChars) : Production) :=
    .lift (classThenChars_suffix _ _)
  refine .noting_ok (.lift _) fun c hok => slice_formed (hadv c) fun front hfront => ?_
  refine ⟨nofun, nofun, fun _ hempty => ?_⟩
  have hlt : (classThenChars uricNoSlashChars uricChars c.rest).2.length < c.rest.length :=
    classThenChars_length hok
  rw [hempty, List.nil_append] at hfront
  have hsame : c.rest = (classThenChars uricNoSlashChars uricChars c.rest).2 := hfront
  exact absurd (congrArg List.length hsame) (Nat.ne_of_gt hlt)

private theorem hierPart_formed : NotesIn Formed hierPart :=
  .attempt (.both formed_grows (.orElse formed_grows netPath_formed netPath_advances
    absPath_formed) (.orElse netPath_advances absPath_advances) (uricPart_formed (by decide) _))

private theorem relativeURI_formed : NotesIn Formed relativeURI := by
  have hpath := netPath_advances.orElse absPath_advances
  exact .attempt (.both formed_grows (.orElse formed_grows (.orElse formed_grows netPath_formed
    netPath_advances absPath_formed) hpath relPath_formed) (hpath.orElse relPath_advances)
    (uricPart_formed (by decide) _))

private theorem absoluteURI_formed : NotesIn Formed absoluteURI :=
  .attempt (.andThen formed_grows scheme_formed scheme_advances (.andThen formed_grows
    (.notingFailure (.lift _) fun _ => trivial) (.notingFailure (char_advances _))
      (.orElse formed_grows hierPart_formed hierPart_advances opaquePart_formed)))

private theorem uriReference_formed : NotesIn Formed uriReference :=
  .attempt (.both formed_grows (.orElse formed_grows absoluteURI_formed absoluteURI_advances
    relativeURI_formed) (absoluteURI_advances.orElse relativeURI_advances)
    (uricPart_formed (by decide) _))

end Httpaa.Text

namespace Httpaa

open Recogniser

variable {h : Heap} {s : Stringaa} {u base : Uriaa} {text piece : List UInt8} {p : UriPart}
  {slice : Option (Nat × Nat)} {writes : List UriWrite} {pos size : Nat} {ok : Bool}
  {found : Option (List UInt8)}

private theorem noted_mem (hnoted : noted p slice writes = some (pos, size)) :
    slice = some (pos, size) ∨ .set p pos size ∈ writes := by
  induction writes generalizing slice with
  | nil => exact .inl hnoted
  | cons w writes ih =>
      rcases ih hnoted with hw | hmem
      · cases w with
        | set q pos' size' =>
            by_cases hq : q = p
            · rw [UriWrite.noted, if_pos hq, Option.some.injEq, Prod.mk.injEq] at hw
              obtain ⟨rfl, rfl⟩ := hw
              exact .inr (hq ▸ List.mem_cons_self ..)
            · rw [UriWrite.noted, if_neg hq] at hw
              exact .inl hw
        | unset q =>
            by_cases hq : q = p
            · rw [UriWrite.noted, if_pos hq] at hw
              cases hw
            · rw [UriWrite.noted, if_neg hq] at hw
              exact .inl hw
      · exact .inr (List.mem_cons_of_mem _ hmem)

/-- The string is the text, a slice of a block that has been handed out. -/
structure Stringaa.Spans (h : Heap) (s : Stringaa) (text : List UInt8) : Prop where
  isInit : s.isInit = true
  isNullTerminated : s.isNullTerminated = false
  isAlloc : s.isAlloc = false
  bufSize : s.bufSize = text.length
  writePos : s.writePos = text.length
  holds : ∃ src, s.buf = some src ∧ h.Holds src text ∧ src.block < h.next ∧
    src.off + text.length ≤ h.size src.block

def Stringaa.SpansPart (h : Heap) (s : Stringaa) : Option (List UInt8) → Prop
  | some text => s.Spans h text
  | none => s.isInit = false ∧ s.isNullTerminated = false ∧ s.isAlloc = false ∧ s.writePos = 0

/-- What `URI_reference` makes of a reference that was all zero but for its text. -/
def Uriaa.ReadFrom (h : Heap) (text : List UInt8) (ok : Bool) (u : Uriaa) : Prop :=
  ∃ uri : Stringaa, Uriaa.Shows h { uri } ⟨0, text⟩ ∧ uri.readPos = 0 ∧
    uriReference h { uri } = some (ok, u)

theorem Stringaa.Shows.holds {s : Stringaa} {buf : Ptr} (hs : s.Shows h ⟨0, text⟩)
    (hbuf : s.buf = some buf) : h.Holds buf text := by
  intro i hi
  have hchar := hs.char i hi
  rw [Nat.zero_add, charAt, hbuf, Option.bind_some, Heap.load] at hchar
  split at hchar
  · exact hchar.symm
  · rw [List.getElem?_eq_getElem hi] at hchar
    cases hchar

private theorem Stringaa.Shows.block_lt {s : Stringaa} {buf : Ptr} (hheap : h.WellFormed)
    (hs : s.Shows h ⟨0, text⟩) (hbuf : s.buf = some buf) (hne : text ≠ []) :
    buf.block < h.next := by
  by_contra hnot
  have hsize := hheap buf.block (Nat.le_of_not_lt hnot)
  have hpos := List.length_pos_iff.mpr hne
  have hchar := hs.char 0 hpos
  rw [charAt, hbuf, Option.bind_some, Heap.load, if_neg (by simp [Ptr.add, hsize])] at hchar
  rw [List.getElem?_eq_getElem hpos] at hchar
  cases hchar

theorem Stringaa.Shows.fits {s : Stringaa} {buf : Ptr} (hs : s.Shows h ⟨0, text⟩)
    (hbuf : s.buf = some buf) (hne : text ≠ []) : buf.off + text.length ≤ h.size buf.block := by
  have hpos := List.length_pos_iff.mpr hne
  have hchar := hs.char (text.length - 1) (Nat.sub_lt hpos Nat.one_pos)
  rw [Nat.zero_add, charAt, hbuf, Option.bind_some, Heap.load] at hchar
  split at hchar
  · rename_i hin
    simp only [Ptr.add] at hin
    omega
  · rw [List.getElem?_eq_getElem (Nat.sub_lt hpos Nat.one_pos)] at hchar
    cases hchar

theorem Stringaa.Spans.char (hs : s.Spans h text) {i : Nat} (hi : i < text.length) :
    s.charAt h i = text[i]? := by
  obtain ⟨src, hbuf, hholds, -, hsize⟩ := hs.holds
  rw [Stringaa.charAt, hbuf, Option.bind_some, Heap.load, if_pos]
  · exact (hholds i hi).symm
  · simp only [Ptr.add]
    omega

theorem Stringaa.Spans.component (hs : (u.part p).Spans h text) :
    u.component h p = some text := by
  rw [Uriaa.component, if_pos hs.isInit, hs.writePos]
  exact congrArg some (filterMap_range fun i hi => hs.char hi)

theorem Uriaa.ReadFrom.outcome (hu : u.ReadFrom h text ok) : ∃ uri : Stringaa,
    Uriaa.Shows h { uri } ⟨0, text⟩ ∧ (Text.uriReference ⟨0, text⟩).ok = ok ∧
      u = ({ uri } : Uriaa).left (Text.uriReference ⟨0, text⟩) := by
  obtain ⟨uri, hshows, hpos, hrun⟩ := hu
  have hstart : Uriaa.Shows h { uri } ⟨({ uri } : Uriaa).uri.readPos, text⟩ := by
    change Uriaa.Shows h { uri } ⟨uri.readPos, text⟩
    rwa [hpos]
  obtain ⟨hok, hleft⟩ := uriReference_left hstart hrun
  change (Text.uriReference ⟨uri.readPos, text⟩).ok = ok at hok
  change u = ({ uri } : Uriaa).left (Text.uriReference ⟨uri.readPos, text⟩) at hleft
  rw [hpos] at hok hleft
  exact ⟨uri, hshows, hok, hleft⟩

/-- Every component is a slice of the text, of its form, or not set. -/
theorem Uriaa.ReadFrom.spansPart (hheap : h.WellFormed) (hu : u.ReadFrom h text ok) (p : UriPart) :
    (u.part p).SpansPart h (u.component h p) ∧
      ∀ piece, u.component h p = some piece → piece <:+: text ∧ PartForm p piece := by
  obtain ⟨uri, hshows, -, hleft⟩ := hu.outcome
  rw [Uriaa.left] at hleft
  generalize (Text.uriReference ⟨0, text⟩).cursor.pos = n at hleft
  subst hleft
  have hslice := (Uriaa.inSlice_zero (u := { uri }) (p := p) rfl).writeAll
    (Text.uriReference ⟨0, text⟩).notes
  rcases hnoted : noted p none (Text.uriReference ⟨0, text⟩).notes with _ | ⟨pos, size⟩
  · rw [hnoted] at hslice
    obtain ⟨buf, hbuf⟩ := hslice
    have hnone : ((({ uri } : Uriaa).writeAll
        (Text.uriReference ⟨0, text⟩).notes).rewind n).component h p = none := by
      simp [Uriaa.component, Uriaa.rewind, hbuf]
    rw [hnone]
    refine ⟨?_, fun piece hpiece => absurd hpiece.symm (Option.some_ne_none piece)⟩
    change (((({ uri } : Uriaa).writeAll _).part p).isInit = false ∧ _)
    simp [hbuf, Uriaa.rewind]
  · have hmem := (noted_mem hnoted).resolve_left (Option.some_ne_none _).symm
    obtain ⟨-, hle⟩ := Text.uriReference_inText ⟨0, text⟩ _ hmem
    obtain ⟨-, hform⟩ := Text.uriReference_formed ⟨0, text⟩ _ hmem
    simp only [Nat.zero_add, Nat.sub_zero] at hle hform
    have hne : text ≠ [] := by
      rintro rfl
      have hnotes : (Text.uriReference ⟨0, []⟩).notes = [] := by decide
      rw [hnotes] at hmem
      cases hmem
    have hlength : ((text.drop pos).take size).length = size := by
      rw [List.length_take, List.length_drop]
      omega
    have huri : (({ uri } : Uriaa).writeAll (Text.uriReference ⟨0, text⟩).notes).uri = uri :=
      Uriaa.writeAll_uri _ _
    obtain ⟨buf, hbuf⟩ := Option.isSome_iff_exists.mp (hshows.buf_isSome hne)
    have hbuf' : uri.buf = some buf := hbuf
    have hstands : h.Holds buf text := Stringaa.Shows.holds (s := uri) hshows hbuf'
    have hblock : buf.block < h.next := Stringaa.Shows.block_lt (s := uri) hheap hshows hbuf' hne
    have hfits : buf.off + text.length ≤ h.size buf.block :=
      Stringaa.Shows.fits (s := uri) hshows hbuf' hne
    rw [hnoted] at hslice
    simp only [Uriaa.InSlice, huri, hbuf', Option.map_some] at hslice
    have hfront : (text.take pos).length = pos := by
      rw [List.length_take]
      omega
    rw [← List.take_append_drop pos text, ← List.take_append_drop size (text.drop pos),
      Heap.holds_append, Heap.holds_append, hfront] at hstands
    have hspans : (((({ uri } : Uriaa).writeAll
        (Text.uriReference ⟨0, text⟩).notes).rewind n).part p).Spans h
          ((text.drop pos).take size) := by
      change Stringaa.Spans h ((({ uri } : Uriaa).writeAll _).part p) _
      rw [hslice]
      refine ⟨rfl, rfl, rfl, hlength.symm, hlength.symm, buf.add pos, rfl, hstands.2.1, hblock, ?_⟩
      rw [hlength]
      simp only [Ptr.add]
      omega
    rw [hspans.component]
    refine ⟨hspans, fun piece hpiece => ?_⟩
    rw [← Option.some.inj hpiece]
    exact ⟨(List.take_prefix _ _).isInfix.trans (List.drop_suffix _ _).isInfix, hform⟩

theorem Uriaa.ReadFrom.opaquePart_none (hu : u.ReadFrom h text true)
    (hscheme : u.component h .scheme = none) : u.component h .opaquePart = none := by
  obtain ⟨uri, hshows, hok, hleft⟩ := hu.outcome
  obtain ⟨r, rest, notes, htext, hnotes, -, hread⟩ :=
    Text.uriReference_reads ⟨0, text⟩ hok
  obtain ⟨hset, -, -, hother, -⟩ := hnotes.components (c := ⟨0, text⟩)
    (n := 0 + r.text.length) hshows (fun _ => rfl) htext
  have hu : u = (({ uri } : Uriaa).writeAll notes).rewind (0 + r.text.length) := by
    rw [hleft, hread]
    rfl
  rw [← hu] at hset hother
  refine hother .opaquePart (by decide) fun part path hpath => ?_
  have hform := r.form part path hpath
  simp only [List.mem_cons, List.not_mem_nil, or_false] at hform
  rcases hform with rfl | rfl | rfl | rfl
  · decide
  · decide
  · decide
  · obtain ⟨name, hname⟩ := Option.isSome_iff_exists.mp (r.opaquePart path hpath).1
    rw [hset name hname] at hscheme
    cases hscheme

end Httpaa
