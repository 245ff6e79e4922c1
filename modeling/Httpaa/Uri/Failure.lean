import Httpaa.Uri.Recomposition

/-!
# Productions that fail

A caller tries the next alternative behind a production that failed, as if that had done nothing.
Most productions set the cursor back and note nothing before they are sure. A `%` at the very end of
the text is passed by, a query is noted without a path in front of it, and a scheme with its `:`
stays noted in front of what is no part of a reference.
-/

namespace Httpaa

open Recogniser

/-- The productions that may report a failure, under their names in the source. -/
inductive UriProduction
  | escaped | uriReference | absoluteURI | relativeURI | hierPart | opaquePart | netPath | absPath
  | relPath | relSegment | scheme | authority | regName | hostport | host | hostname | domainlabel
  | toplabel | ipv4address | port | pathSegments
deriving DecidableEq, Repr

namespace UriProduction

/-- The function of the source. -/
def run (h : Heap) : UriProduction → Uriaa → Option (Bool × Uriaa)
  | escaped => fun u => do
      let (isEscaped, uri) ← Httpaa.escaped h u.uri
      return (isEscaped, { u with uri })
  | uriReference => Httpaa.uriReference h
  | absoluteURI => Httpaa.absoluteURI h
  | relativeURI => Httpaa.relativeURI h
  | hierPart => Httpaa.hierPart h
  | opaquePart => Httpaa.opaquePart h
  | netPath => Httpaa.netPath h
  | absPath => Httpaa.absPath h
  | relPath => Httpaa.relPath h
  | relSegment => Httpaa.relSegment h
  | scheme => Httpaa.scheme h
  | authority => Httpaa.authority h
  | regName => Httpaa.regName h
  | hostport => Httpaa.hostport h
  | host => Httpaa.host h
  | hostname => Httpaa.hostname h
  | domainlabel => Httpaa.domainlabel h
  | toplabel => Httpaa.toplabel h
  | ipv4address => Httpaa.ipv4address h
  | port => Httpaa.port h
  | pathSegments => Httpaa.pathSegments h

/-- The production on texts that it implements. -/
def onText : UriProduction → Text.Production
  | escaped => lift Text.escaped
  | uriReference => Text.uriReference
  | absoluteURI => Text.absoluteURI
  | relativeURI => Text.relativeURI
  | hierPart => Text.hierPart
  | opaquePart => Text.opaquePart
  | netPath => Text.netPath
  | absPath => Text.absPath
  | relPath => Text.relPath
  | relSegment => lift (Text.classThenChars relSegmentChars relSegmentChars)
  | scheme => Text.scheme
  | authority => Text.authority
  | regName => Text.regName
  | hostport => Text.hostport
  | host => Text.host
  | hostname => lift Text.hostname
  | domainlabel => lift (Text.label alphanumChars)
  | toplabel => lift (Text.label alphaChars)
  | ipv4address => lift Text.ipv4address
  | port => Text.port
  | pathSegments => lift fun s => (true, Text.segments (Text.segment s))

private theorem implements (h : Heap) (P : UriProduction) : Implements h (P.run h) P.onText := by
  cases P with
  | escaped =>
      refine .of_lift fun u c hu => ?_
      have hfollows := escaped_follows (h := h) u.uri c hu
      simp [run, hfollows]
  | uriReference => exact uriReference_implements
  | absoluteURI => exact absoluteURI_implements
  | relativeURI => exact relativeURI_implements
  | hierPart => exact hierPart_implements
  | opaquePart => exact opaquePart_implements
  | netPath => exact netPath_implements
  | absPath => exact absPath_implements
  | relPath => exact relPath_implements
  | relSegment => exact relSegment_implements
  | scheme => exact scheme_implements
  | authority => exact authority_implements
  | regName => exact regName_implements
  | hostport => exact hostport_implements
  | host => exact host_implements
  | hostname => exact hostname_implements
  | domainlabel => exact label_implements alphanumChars (by decide)
  | toplabel => exact label_implements alphaChars (by decide)
  | ipv4address => exact ipv4address_implements
  | port => exact port_implements
  | pathSegments => exact pathSegments_implements

end UriProduction

namespace Text

variable {c : Cursor UInt8} {s : List UInt8} {u : Uriaa} {p : Production}

/-! ### What a failure leaves -/

/-- If the outcome is a failure, the cursor is where it was and no component has become set. -/
def LeavesNoTrace (u : Uriaa) (c : Cursor UInt8) (r : Outcome UInt8 UriWrite) : Prop :=
  r.ok = false → r.cursor.pos = c.pos ∧
    ∀ part, (u.part part).isInit = false → ((u.writeAll r.notes).part part).isInit = false

def Clean (p : Production) : Prop := ∀ c : Cursor UInt8, (p c).ok = false → p c = ⟨false, c, []⟩

private theorem Clean.leavesNoTrace (hp : Clean p) (u : Uriaa) (c : Cursor UInt8) :
    LeavesNoTrace u c (p c) := by
  intro hfail
  rw [hp c hfail]
  exact ⟨rfl, fun _ hnone => hnone⟩

private theorem Clean.of_silent (hp : Silent p) : Clean (attempt p) := by
  intro c hfail
  refine hp.attempt_eq ?_
  by_contra hok
  rw [attempt_of_ok (by simpa using hok)] at hfail
  simp [hfail] at hok

private theorem Clean.of_ok (hp : ∀ c : Cursor UInt8, (p c).ok = true) : Clean p := by
  intro c hfail
  rw [hp c] at hfail
  cases hfail

theorem Clean.lift {f : List UInt8 → Bool × List UInt8} (hf : ∀ s, (f s).1 = false → (f s).2 = s) :
    Clean (lift f) := by
  intro c hfail
  have hfalse : (f c.rest).1 = false := hfail
  simp [Recogniser.lift, hfalse, hf _ hfalse, Cursor.to_self]

private theorem hostname_clean : Clean (lift hostname) := by
  refine .lift fun s hfail => ?_
  by_cases htop : (label alphaChars (lastLabel s s)).1 = true
  · simp [hostname, htop] at hfail
  · simp [hostname, htop]

private theorem ipv4address_clean : Clean (lift ipv4address) := by
  refine .lift fun s hfail => ?_
  by_cases hfour : (ipv4Loop 4 0 s 0).1 = 4
  · simp [ipv4address, hfour] at hfail
  · simp [ipv4address, hfour]

private theorem label_clean (first : UInt8 → Bool) : Clean (lift (label first)) := by
  refine .lift fun s hfail => ?_
  cases s with
  | nil => rfl
  | cons x s =>
      by_cases hok : (first x && (labelTail x s).1) = true
      · simp [label, hok] at hfail
      · simp [label, hok]

private theorem scheme_clean : Clean scheme := by
  intro c hfail
  rcases scheme_cases c with ⟨-, heq⟩ | ⟨text, rest, -, -, heq⟩
  · exact heq
  · rw [heq] at hfail
    cases hfail

private theorem hostport_clean : Clean hostport :=
  .of_silent (.andTry (.attempt (.noting ((Silent.lift _).orElse (.lift _)))))

private theorem leavesNoTrace_noting {note : Nat → Nat → UriWrite} :
    LeavesNoTrace u c (noting note p c) ↔ LeavesNoTrace u c (p c) := by
  by_cases hok : (p c).ok = true
  · exact iff_of_true (fun hfail => by simp [noting, hok] at hfail)
      (fun hfail => by simp [hok] at hfail)
  · rw [noting, if_neg hok]

/-! ### A `%` at the end -/

private theorem escaped_passesPercent (hfail : (escaped s).1 = false) :
    (escaped s).2 = s ↔ s ≠ [ch '%'] := by
  rcases s with _ | ⟨x, _ | ⟨y, _ | ⟨z, s⟩⟩⟩
  · simp [escaped]
  · by_cases hx : x = ch '%' <;> simp [escaped, hx]
  · by_cases hx : x = ch '%' <;> simp [escaped, hx]
  · by_cases hx : x = ch '%'
    · by_cases hhex : (hexChars y && hexChars z) = true
      · simp [escaped, hx, hhex] at hfail
      · simp [escaped, hx, hhex]
    · simp [escaped, hx]

private theorem classThenChars_fails {P Q : UInt8 → Bool}
    (hfail : (classThenChars P Q s).1 = false) :
    (classThenChars P Q s).2 = s ↔ s ≠ [ch '%'] := by
  have hclass : (inClass P s).1 = false := by
    by_cases hclass : (inClass P s).1 = true
    · simp [classThenChars, hclass] at hfail
    · simpa using hclass
  rw [classThenChars, if_neg (by simp [hclass])]
  cases s with
  | nil => simp [inClass]
  | cons x s =>
      by_cases hx : P x = true
      · simp [inClass, hx] at hclass
      · rw [inClass, if_neg hx] at hclass ⊢
        exact escaped_passesPercent hclass

private theorem leavesNoTrace_percent {f : List UInt8 → Bool × List UInt8}
    (hsuffix : ∀ s, (f s).2 <:+ s) (hf : ∀ s, (f s).1 = false → ((f s).2 = s ↔ s ≠ [ch '%']))
    (hpercent : (f [ch '%']).1 = false) :
    LeavesNoTrace u c (lift f c) ↔ c.rest ≠ [ch '%'] := by
  have hpos : (c.to (f c.rest).2).pos = c.pos ↔ (f c.rest).2 = c.rest := by
    have hle := (hsuffix c.rest).length_le
    constructor
    · intro heq
      refine (hsuffix c.rest).eq_of_length ?_
      simp only [Cursor.to] at heq
      omega
    · intro heq
      rw [heq, Cursor.to_self]
  constructor
  · intro htrace hrest
    have hfail : (f c.rest).1 = false := hrest ▸ hpercent
    exact (hf _ hfail).mp (hpos.mp (htrace hfail).1) hrest
  · exact fun hne hfail => ⟨hpos.mpr ((hf _ hfail).mpr hne), fun _ hnone => hnone⟩

/-! ### A query without a path -/

private theorem isInit_set (u : Uriaa) (p q : UriPart) (pos size : Nat) :
    ((u.writeAll [.set q pos size]).part p).isInit = (p = q || (u.part p).isInit) := by
  by_cases hp : p = q <;> simp [Uriaa.writeAll, Uriaa.write, Uriaa.setPart, hp]

private theorem leavesNoTrace_set {q : UriPart} {pos size : Nat} :
    LeavesNoTrace u c ⟨false, c, [.set q pos size]⟩ ↔ (u.part q).isInit = true := by
  constructor
  · intro htrace
    by_contra hnone
    have hset := (htrace rfl).2 q (by simpa using hnone)
    simp [isInit_set] at hset
  · refine fun hinit _ => ⟨rfl, fun p hnone => ?_⟩
    have hp : p ≠ q := by
      rintro rfl
      rw [hinit] at hnone
      cases hnone
    simpa [isInit_set, hp] using hnone

private theorem pathQuery_trace {forms : List UriPart} (hpath : ReadsPath forms c (p c))
    (hquestion : c.rest.head? = some (ch '?') → (p c).ok = false) :
    LeavesNoTrace u c (attempt (both (fun isPath _ => isPath) p questionQuery) c) ↔
      ¬ (c.rest.head? = some (ch '?') ∧ (u.part .query).isInit = false) := by
  rcases pathQuery_reads hpath with ⟨-, left, hleft, heq⟩ | ⟨hok, _, _, _, _, _, _, _, _, heq⟩
  · rw [heq, ← hleft]
    cases left with
    | none =>
        refine iff_of_true (fun _ => ⟨rfl, fun p hnone => ?_⟩) (by simp)
        simpa [noteOptional, Uriaa.writeAll] using hnone
    | some text =>
        rw [noteOptional, Option.elim_some, leavesNoTrace_set]
        simp
  · have hnot : ¬ c.rest.head? = some (ch '?') := fun h => by
      rw [hquestion h] at hok
      cases hok
    exact iff_of_true (fun hfail => by rw [heq] at hfail; cases hfail) fun h => hnot h.1

private theorem hierPath_question (hquestion : c.rest.head? = some (ch '?')) :
    orElse netPath absPath c = ⟨false, c, []⟩ := by
  obtain ⟨hpath, hslash⟩ := hierPath_reads c
  rcases hpath with heq | ⟨part, hpart, text, rest, notes, -, -, heq⟩
  · exact heq
  · rw [heq, hquestion] at hslash
    exact absurd (hslash.mp rfl) (by decide)

private theorem relativePath_question (hquestion : c.rest.head? = some (ch '?')) :
    (orElse (orElse netPath absPath) relPath c).ok = false := by
  rw [orElse_of_fail (hierPath_question hquestion)]
  obtain ⟨rest, hrest⟩ : ∃ rest, c.rest = ch '?' :: rest := by
    cases hc : c.rest with
    | nil => simp [hc] at hquestion
    | cons x rest =>
        rw [hc, List.head?_cons, Option.some.injEq] at hquestion
        exact ⟨rest, by rw [hquestion]⟩
  have hnot : relSegmentChars (ch '?') = false := by decide
  have hne : ch '?' ≠ ch '%' := by decide
  have hclass : (inClass relSegmentChars (ch '?' :: rest)).1 = false := by
    simp [inClass, escaped, hnot, hne]
  simp [relPath, attempt, noting, andTry, andThen, lift, hrest, classThenChars, hclass]

private theorem relativeURI_trace : LeavesNoTrace u c (relativeURI c) ↔
    ¬ (c.rest.head? = some (ch '?') ∧ (u.part .query).isInit = false) :=
  pathQuery_trace (relativePath_reads c) relativePath_question

private theorem hierPart_trace : LeavesNoTrace u c (hierPart c) ↔
    ¬ (c.rest.head? = some (ch '?') ∧ (u.part .query).isInit = false) :=
  pathQuery_trace (hierPath_reads c).1 fun h => by rw [hierPath_question h]

/-! ### A scheme without a part behind it -/

/-- A scheme and `:` in front of what is neither a hierarchical nor an opaque part. -/
def SchemeOnly (s : List UInt8) : Prop :=
  ∃ rest, schemeRun s = (true, ch ':' :: rest) ∧ rest.head? ≠ some (ch '/') ∧
    (inClass uricNoSlashChars rest).1 = false

private theorem isInit_writeAll {u : Uriaa} {part : UriPart} {o : Option (Nat × Nat)}
    (hu : (u.part part).isInit = o.isSome) (writes : List UriWrite) :
    ((u.writeAll writes).part part).isInit = (noted part o writes).isSome := by
  induction writes generalizing u o with
  | nil => exact hu
  | cons w writes ih =>
      refine ih (u := u.write w) (o := w.noted part o) ?_
      cases w with
      | set q pos size =>
          by_cases hq : part = q
          · simp [Uriaa.write, Uriaa.setPart, UriWrite.noted, hq]
          · simpa [Uriaa.write, Uriaa.setPart, UriWrite.noted, hq, Ne.symm hq] using hu
      | unset q =>
          by_cases hq : part = q
          · simp [Uriaa.write, Uriaa.unsetPart, UriWrite.noted, hq]
          · simpa [Uriaa.write, Uriaa.unsetPart, UriWrite.noted, hq, Ne.symm hq] using hu

private theorem absoluteURI_ok {rest : List UInt8}
    (hrun : schemeRun c.rest = (true, ch ':' :: rest)) :
    (absoluteURI c).ok = true ↔
      rest.head? = some (ch '/') ∨ (inClass uricNoSlashChars rest).1 = true := by
  rcases scheme_cases c with ⟨hfail, -⟩ | ⟨text, rest', hrun', -, hscheme⟩
  · rw [hrun] at hfail
    cases hfail
  · rw [hrun, Prod.mk.injEq] at hrun'
    obtain ⟨-, rfl⟩ := hrun'
    have hchar : char ':' ⟨c.pos + text.length, ch ':' :: rest⟩ =
        ⟨true, ⟨c.pos + text.length + 1, rest⟩, []⟩ := by
      simp [char, lift, Cursor.to]
    have hparts : (absoluteURI c).ok =
        (orElse hierPart opaquePart ⟨c.pos + text.length + 1, rest⟩).ok := by
      cases hok : (orElse hierPart opaquePart ⟨c.pos + text.length + 1, rest⟩).ok <;>
        simp [absoluteURI, attempt, andThen, hscheme, notingFailure, hchar, Outcome.after, hok]
    obtain ⟨hpath, hslash⟩ := hierPath_reads ⟨c.pos + text.length + 1, rest⟩
    obtain ⟨hopaquePart, -, -⟩ := opaquePart_reads ⟨c.pos + text.length + 1, rest⟩
    rw [hparts, ← hslash]
    rcases pathQuery_reads hpath with ⟨hfail, left, hleft, hhier⟩ |
      ⟨hok, part, hpart, path, query, tail, notes, htail, hnotes, hhier⟩
    · have htry : (orElse hierPart opaquePart ⟨c.pos + text.length + 1, rest⟩).ok =
          (opaquePart ⟨c.pos + text.length + 1, rest⟩).ok := by
        rw [orElse, show hierPart ⟨c.pos + text.length + 1, rest⟩ = _ from hhier]
        rfl
      rw [htry, hfail, hopaquePart]
      simp
    · have htry : (orElse hierPart opaquePart ⟨c.pos + text.length + 1, rest⟩).ok = true := by
        rw [orElse, show hierPart ⟨c.pos + text.length + 1, rest⟩ = _ from hhier]
        rfl
      rw [htry, hok]
      simp

private theorem absoluteURI_trace : LeavesNoTrace u c (absoluteURI c) ↔
    ¬ (SchemeOnly c.rest ∧ (u.part .scheme).isInit = false) := by
  rcases absoluteURI_reads c with ⟨left, notes, hparts, hnoted, hcontinues, heq⟩ |
    ⟨_, _, _, _, _, _, _, _, _, _, _, _, _, heq⟩
  · have honly : SchemeOnly c.rest ↔ left.isSome = true := by
      rw [Option.isSome_iff_ne_none, Ne, ← hcontinues, Bool.not_eq_true]
      constructor
      · rintro ⟨rest, hrun, hslash, hclass⟩
        simp [schemeContinues, hrun, hslash, hclass]
      · intro hfalse
        rw [schemeContinues] at hfalse
        split at hfalse
        · rename_i x rest hrun
          simp only [Bool.or_eq_false_iff, bne_eq_false_iff_eq, beq_eq_false_iff_ne] at hfalse
          obtain ⟨⟨rfl, hslash⟩, -⟩ := hfalse
          refine ⟨rest, hrun, hslash, ?_⟩
          by_contra hclass
          have hok := (absoluteURI_ok hrun).mpr (.inr (by simpa using hclass))
          rw [heq] at hok
          cases hok
        · cases hfalse
    rw [heq, honly]
    constructor
    · rintro htrace ⟨hsome, hnone⟩
      have hset := (htrace rfl).2 .scheme hnone
      rw [isInit_writeAll (o := none) hnone, hnoted, Option.isSome_map, hsome] at hset
      cases hset
    · refine fun hnot _ => ⟨rfl, fun part hnone => ?_⟩
      rw [isInit_writeAll (o := none) hnone]
      by_cases hpart : part = .scheme
      · subst hpart
        rw [hnoted, Option.isSome_map]
        by_contra hsome
        exact hnot ⟨by simpa [Option.isSome_iff_ne_none] using hsome, hnone⟩
      · rw [noted_of_not_mem hparts (by simpa using hpart)]
        rfl
  · refine iff_of_true (fun hfail => by rw [heq] at hfail; cases hfail) ?_
    rintro ⟨⟨rest, hrun, hslash, hclass⟩, -⟩
    rcases (absoluteURI_ok hrun).mp (by rw [heq]) with h | h
    · exact hslash h
    · rw [hclass] at h
      cases h

private theorem absoluteURI_of_noPath
    (hpath : (orElse (orElse netPath absPath) relPath c).ok = false) :
    absoluteURI c = ⟨false, c, []⟩ := by
  rcases scheme_cases c with ⟨-, hscheme⟩ | ⟨text, rest, hrun, -, -⟩
  · simp [absoluteURI, attempt, andThen, hscheme]
  · have hclass : (inClass relSegmentChars c.rest).1 = true := by
      cases hrest : c.rest with
      | nil => simp [hrest, schemeRun] at hrun
      | cons x rest =>
          rw [hrest] at hrun
          have hx : alphaChars x = true := by
            by_contra hx
            simp [schemeRun, hx] at hrun
          have hrel : relSegmentChars x = true := by
            simp [relSegmentChars, unreservedChars, alphanumChars, hx]
          simp [inClass, hrel]
    have hrel : ∀ c' : Cursor UInt8, c'.rest = c.rest → (relPath c').ok = true := by
      intro c' hc'
      simp [relPath, attempt, noting, andTry, andThen, lift, hc', classThenChars, hclass]
    by_cases hhier : (orElse netPath absPath c).ok = true
    · rw [orElse, if_pos hhier, hhier] at hpath
      cases hpath
    · rcases (hierPath_reads c).1 with heq | ⟨_, _, _, _, _, _, _, heq⟩
      · rw [orElse_of_fail heq, hrel c rfl] at hpath
        cases hpath
      · rw [heq] at hhier
        exact absurd rfl hhier

private theorem uriReference_trace : LeavesNoTrace u c (uriReference c) ↔
    ¬ (c.rest.head? = some (ch '?') ∧ (u.part .query).isInit = false) := by
  rcases pathQuery_reads (relativePath_reads c) with ⟨hfail, left, hleft, hrel⟩ |
    ⟨hok, part, hpart, path, query, rest, notes, hrest, hnotes, hrel⟩
  · have hrel' : relativeURI c = _ := hrel
    have habs := absoluteURI_of_noPath hfail
    obtain ⟨fragment, rest, hfragment, -, hhash⟩ := optionalPart_cases '#' .fragment c
    have hhash' : hashFragment c = _ := hhash
    cases fragment with
    | some text =>
        have hhead := hfragment.mp rfl
        have hread : (uriReference c).ok = true := by
          simp [uriReference, attempt, both, orElse, habs, hrel', hhash', Outcome.after]
        refine iff_of_true (fun hfail => by rw [hread] at hfail; cases hfail) ?_
        rintro ⟨hquestion, -⟩
        rw [hhead] at hquestion
        exact absurd hquestion (by decide)
    | none =>
        have hread : uriReference c = ⟨false, c, noteOptional .query left (c.pos + 1)⟩ := by
          simp [uriReference, attempt, both, orElse, habs, hrel', hhash', Outcome.after,
            noteOptional]
        rw [hread, ← hleft]
        cases left with
        | none =>
            refine iff_of_true (fun _ => ⟨rfl, fun p hnone => ?_⟩) (by simp)
            simpa [noteOptional, Uriaa.writeAll] using hnone
        | some text =>
            rw [noteOptional, Option.elim_some, leavesNoTrace_set]
            simp
  · have hrel' : relativeURI c = _ := hrel
    have horElse : (orElse absoluteURI relativeURI c).ok = true := by
      by_cases habs : (absoluteURI c).ok = true
      · simp [orElse, habs]
      · have hcursor : (absoluteURI c).cursor = c := by
          rcases absoluteURI_reads c with ⟨_, _, _, _, _, heq⟩ |
            ⟨_, _, _, _, _, _, _, _, _, _, _, _, _, heq⟩
          · rw [heq]
          · rw [heq] at habs
            exact absurd rfl habs
        simp [orElse, habs, hcursor, hrel', Outcome.after]
    have hread : (uriReference c).ok = true := by
      simp [uriReference, attempt, both, Outcome.after, horElse]
    refine iff_of_true (fun hfail => by rw [hread] at hfail; cases hfail) ?_
    rintro ⟨hquestion, -⟩
    rw [relativePath_question hquestion] at hok
    cases hok

end Text

/-! ### The productions of the source -/

/-- Where a production that fails leaves a trace. -/
def UriProduction.Strays (P : UriProduction) (u : Uriaa) (s : List UInt8) : Prop :=
  match P with
  | escaped | opaquePart | relSegment | regName => s = [ch '%']
  | hierPart | relativeURI | uriReference =>
      s.head? = some (ch '?') ∧ (u.part .query).isInit = false
  | absoluteURI => Text.SchemeOnly s ∧ (u.part .scheme).isInit = false
  | _ => False

private theorem UriProduction.onText_trace (P : UriProduction) (u : Uriaa) (c : Cursor UInt8) :
    Text.LeavesNoTrace u c (P.onText c) ↔ ¬ P.Strays u c.rest := by
  have hclean (hp : Text.Clean P.onText) (hstrays : P.Strays u c.rest = False) :
      Text.LeavesNoTrace u c (P.onText c) ↔ ¬ P.Strays u c.rest :=
    iff_of_true (hp.leavesNoTrace u c) (by rw [hstrays]; exact id)
  cases P with
  | escaped =>
      exact Text.leavesNoTrace_percent Text.escaped_suffix
        (fun _ => Text.escaped_passesPercent) (by decide)
  | opaquePart =>
      rw [onText, Text.opaquePart, Text.leavesNoTrace_noting]
      exact Text.leavesNoTrace_percent (Text.classThenChars_suffix _ _)
        (fun _ => Text.classThenChars_fails) (by decide)
  | relSegment =>
      exact Text.leavesNoTrace_percent (Text.classThenChars_suffix _ _)
        (fun _ => Text.classThenChars_fails) (by decide)
  | regName =>
      exact Text.leavesNoTrace_percent (Text.classThenChars_suffix _ _)
        (fun _ => Text.classThenChars_fails) (by decide)
  | hierPart => exact Text.hierPart_trace
  | relativeURI => exact Text.relativeURI_trace
  | uriReference => exact Text.uriReference_trace
  | absoluteURI => exact Text.absoluteURI_trace
  | netPath => exact hclean (.of_silent Text.netPath_silent.noting) rfl
  | absPath => exact hclean (.of_silent Text.absPath_silent.noting) rfl
  | relPath => exact hclean (.of_silent (.noting (.andTry (.lift _)))) rfl
  | scheme => exact hclean Text.scheme_clean rfl
  | authority => exact hclean (.of_ok Text.authority_ok) rfl
  | hostport => exact hclean Text.hostport_clean rfl
  | host => exact hclean (.of_silent (.noting ((Silent.lift _).orElse (.lift _)))) rfl
  | hostname => exact hclean Text.hostname_clean rfl
  | domainlabel => exact hclean (Text.label_clean _) rfl
  | toplabel => exact hclean (Text.label_clean _) rfl
  | ipv4address => exact hclean Text.ipv4address_clean rfl
  | port => exact hclean (.of_silent (.noting (.lift _))) rfl
  | pathSegments => exact hclean (.of_ok fun _ => rfl) rfl

section

variable {h : Heap} {u : Uriaa} {c : Cursor UInt8}

/-- The production ends; if it reports a failure, the read position is the one at entry and no
component has become set. -/
def UriProduction.LeavesNoTrace (h : Heap) (P : UriProduction) (u : Uriaa) : Prop :=
  ∃ ok u', P.run h u = some (ok, u') ∧ (ok = false → u'.uri.readPos = u.uri.readPos ∧
    ∀ part, (u.part part).isInit = false → (u'.part part).isInit = false)

/-- Wherever the text of the reference stands, a production that fails leaves a trace exactly on the
texts on which it strays. -/
theorem UriProduction.failure_leavesNoTrace (P : UriProduction) (hread : u.uri.readPos = c.pos)
    (hu : u.Shows h c) : P.LeavesNoTrace h u ↔ ¬ P.Strays u c.rest := by
  have hself : u.rewind c.pos = u := by
    rw [← hread]
    rfl
  have hrun := P.implements h u c hu
  rw [hself] at hrun
  rw [← P.onText_trace u c, LeavesNoTrace, hrun]
  simp only [Option.some.injEq, Prod.mk.injEq, and_assoc, exists_and_left, exists_eq_left', hread,
    Uriaa.left_readPos]
  rfl

theorem UriProduction.failure_leavesNoTrace_escaped :
    UriProduction.escaped.LeavesNoTrace (.ofText [ch '%', ch '4', ch 'g']) { uri := .ofText 0 3 } :=
  (UriProduction.failure_leavesNoTrace (c := ⟨0, [ch '%', ch '4', ch 'g']⟩) .escaped rfl
    ⟨by decide, by decide⟩).mpr (by decide : [ch '%', ch '4', ch 'g'] ≠ [ch '%'])

/-- A `%` at the end of the text is passed by, though `escaped` fails. -/
theorem UriProduction.failure_passesPercent : ¬ ∀ (P : UriProduction) (h : Heap) (u : Uriaa)
    (c : Cursor UInt8), u.uri.readPos = c.pos → u.Shows h c → P.LeavesNoTrace h u := by
  intro hclaim
  obtain ⟨ok, u', hrun, htrace⟩ := hclaim .escaped (.ofText [ch '%']) { uri := .ofText 0 1 }
    ⟨0, [ch '%']⟩ rfl ⟨by decide, by decide⟩
  have hleft : (UriProduction.escaped.run (.ofText [ch '%']) { uri := .ofText 0 1 }).map
      (fun r => (r.1, r.2.uri.readPos)) = some (false, 1) := rfl
  rw [hrun, Option.map_some, Option.some.injEq, Prod.mk.injEq] at hleft
  have hpos := (htrace hleft.1).1
  rw [hleft.2] at hpos
  exact absurd hpos (by decide)

end

end Httpaa
