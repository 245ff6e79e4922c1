import Httpaa.Uri.Grammar

/-!
# Every component is a slice of the text

What a production assigns to a component lies in the text it had still to read, by the closure rules
of the combinators.
-/

namespace Httpaa

open Recogniser

/-- The slice that an assignment sets lies in what `c` has still to read. -/
def UriWrite.InText (c : Cursor UInt8) : UriWrite → Prop
  | .set _ pos size => c.pos ≤ pos ∧ pos + size ≤ c.pos + c.rest.length
  | .unset _ => True

theorem UriWrite.inText_grows : GrowsBackwards UriWrite.InText := by
  intro c c' w hreach hw
  have hpos := hreach.pos_le
  have hend := hreach.end_eq
  cases w with
  | set p pos size =>
      simp only [InText] at hw ⊢
      omega
  | unset p => trivial

end Httpaa

namespace Httpaa.Text

open Recogniser UriWrite

private theorem slice_inText (p : UriPart) (c c' : Cursor UInt8) (hreach : c.Reaches c') :
    (UriWrite.slice p c.pos c'.pos).InText c := by
  have hpos := hreach.pos_le
  have hend := hreach.end_eq
  simp only [UriWrite.slice, InText]
  omega

private theorem char_inText (c : Char) : NotesIn InText (char c) := .lift _

private theorem host_inText : NotesIn InText host :=
  .attempt (.noting (.orElse inText_grows (.lift _) (.lift hostname_suffix) (.lift _))
    (.orElse (.lift hostname_suffix) (.lift ipv4address_suffix)) (slice_inText _))

private theorem port_inText : NotesIn InText port :=
  .attempt (.noting (.lift _) (.lift fun _ => List.dropWhile_suffix _) (slice_inText _))

private theorem hostport_inText : NotesIn InText hostport :=
  .attempt (.andTry inText_grows host_inText host_advances
    (.andThen inText_grows (char_inText _) (char_advances _) port_inText))

private theorem userinfoAt_inText : NotesIn InText userinfoAt := by
  refine .attempt (.noting (.andThen inText_grows (.lift _) (.lift fun _ => chars_suffix _ _)
    (char_inText _)) (.andThen (.lift fun _ => chars_suffix _ _) (char_advances _)) ?_)
  intro c c' hreach
  have hpos := hreach.pos_le
  have hend := hreach.end_eq
  simp only [InText]
  omega

private theorem server_inText : NotesIn InText server :=
  .always (.attempt (.notingFailure
    (.both inText_grows userinfoAt_inText userinfoAt_advances hostport_inText) fun _ => trivial))

theorem authority_inText : NotesIn InText authority :=
  .attempt (.noting (.orElse inText_grows server_inText server_advances (.lift _))
    (.orElse server_advances regName_advances) (slice_inText _))

private theorem absPath_inText : NotesIn InText absPath :=
  .attempt (.noting (.andThen inText_grows (char_inText _) (char_advances _) (.lift _))
    (.andThen (char_advances _) (.lift fun _ => (segments_suffix _).trans (segment_suffix _)))
    (slice_inText _))

private theorem netPath_inText : NotesIn InText netPath := by
  have hslashes := (char_advances '/').andThen (char_advances '/')
  exact .attempt (.noting (.andTry inText_grows (.andThen inText_grows
    (.andThen inText_grows (char_inText _) (char_advances _) (char_inText _)) hslashes
      authority_inText) (hslashes.andThen authority_advances) absPath_inText)
    ((hslashes.andThen authority_advances).andTry absPath_advances) (slice_inText _))

private theorem relPath_inText : NotesIn InText relPath := by
  have hsegment : Advances (lift (classThenChars relSegmentChars relSegmentChars) : Production) :=
    .lift (classThenChars_suffix _ _)
  exact .attempt (.noting (.andTry inText_grows (.lift _) hsegment absPath_inText)
    (hsegment.andTry absPath_advances) (slice_inText _))

private theorem uricPart_inText (p : UriPart) : NotesIn InText (uricPart p) :=
  .noting (.lift _) (.lift fun _ => chars_suffix _ _) (slice_inText _)

private theorem questionQuery_inText : NotesIn InText questionQuery :=
  .andThen inText_grows (char_inText _) (char_advances _) (uricPart_inText _)

private theorem hashFragment_inText : NotesIn InText hashFragment :=
  .andThen inText_grows (char_inText _) (char_advances _) (uricPart_inText _)

private theorem hierPart_inText : NotesIn InText hierPart :=
  .attempt (.both inText_grows (.orElse inText_grows netPath_inText netPath_advances
    absPath_inText) (.orElse netPath_advances absPath_advances) questionQuery_inText)

private theorem relativeURI_inText : NotesIn InText relativeURI := by
  have hpath := netPath_advances.orElse absPath_advances
  exact .attempt (.both inText_grows (.orElse inText_grows (.orElse inText_grows netPath_inText
    netPath_advances absPath_inText) hpath relPath_inText) (hpath.orElse relPath_advances)
    questionQuery_inText)

private theorem absoluteURI_inText : NotesIn InText absoluteURI :=
  .attempt (.andThen inText_grows (.noting (.lift _) (.lift schemeRun_suffix) (slice_inText _))
    scheme_advances (.andThen inText_grows (.notingFailure (char_inText _) fun _ => trivial)
      (.notingFailure (char_advances _)) (.orElse inText_grows hierPart_inText hierPart_advances
        (.noting (.lift _) (.lift (classThenChars_suffix _ _)) (slice_inText _)))))

theorem uriReference_inText : NotesIn InText uriReference :=
  .attempt (.both inText_grows (.orElse inText_grows absoluteURI_inText absoluteURI_advances
    relativeURI_inText) (absoluteURI_advances.orElse relativeURI_advances) hashFragment_inText)

end Httpaa.Text
