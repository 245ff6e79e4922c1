import Httpaa.Uri.Composition

/-!
# Recomposing a parsed reference

What `URI_reference` reads on any text, as a list of parts with what it notes about them. Two ways
it gives up leave a component behind: a scheme and its `:` in front of what is neither a
hierarchical nor an opaque part, and a query in front of which there is no path. On every other text
the components put together are the text that was read.
-/

namespace Httpaa

open Recogniser

/-! ### The last note on a component -/

/-- The slice of the component `p` after an assignment. -/
def UriWrite.noted (p : UriPart) (slice : Option (Nat × Nat)) : UriWrite → Option (Nat × Nat)
  | .set q pos size => if q = p then some (pos, size) else slice
  | .unset q => if q = p then none else slice

/-- The slice of the component `p` after some assignments. -/
def noted (p : UriPart) (slice : Option (Nat × Nat)) (writes : List UriWrite) :
    Option (Nat × Nat) :=
  writes.foldl (UriWrite.noted p) slice

section Noted

variable {h : Heap} {u : Uriaa} {c : Cursor UInt8} {p q : UriPart} {writes : List UriWrite}
  {slice : Option (Nat × Nat)} {pos size : Nat}

@[simp] theorem noted_nil : noted p slice [] = slice := rfl

@[simp] theorem noted_append (writes writes' : List UriWrite) :
    noted p slice (writes ++ writes') = noted p (noted p slice writes) writes' :=
  List.foldl_append

@[simp] theorem noted_set :
    noted p slice (.set q pos size :: writes) =
      noted p (if q = p then some (pos, size) else slice) writes := rfl

@[simp] theorem noted_unset :
    noted p slice (.unset q :: writes) = noted p (if q = p then none else slice) writes := rfl

theorem noted_of_not_mem {parts : List UriPart} (hwrites : ∀ w ∈ writes, w.part ∈ parts)
    (hp : p ∉ parts) : noted p slice writes = slice := by
  induction writes with
  | nil => rfl
  | cons w writes ih =>
      have hw : w.part ≠ p := fun heq => hp (heq ▸ hwrites w (List.mem_cons_self ..))
      have hstep : UriWrite.noted p slice w = slice := by
        cases w with
        | set q pos size => exact if_neg hw
        | unset q => exact if_neg hw
      rw [noted, List.foldl_cons, hstep]
      exact ih fun w' hw' => hwrites w' (List.mem_cons_of_mem w hw')

private theorem noted_noteOptional (part : Option (List UInt8)) :
    noted p slice (Text.noteOptional q part pos) =
      if q = p then (part.map fun text => (pos, text.length)).or slice else slice := by
  cases part with
  | none => simp [Text.noteOptional]
  | some text => simp [Text.noteOptional]

/-- The component of a reference that was all zero, after assignments that leave the slice. -/
def Uriaa.InSlice (u : Uriaa) (p : UriPart) : Option (Nat × Nat) → Prop
  | none => ∃ buf, u.part p = { buf }
  | some (pos, size) =>
      u.part p = { buf := u.uri.buf.map fun buf => buf.add pos, bufSize := size, writePos := size
                   isInit := true }

theorem Uriaa.InSlice.write (hu : u.InSlice p slice) (w : UriWrite) :
    (u.write w).InSlice p (w.noted p slice) := by
  have hother (hw : w.part ≠ p) : (u.write w).InSlice p slice := by
    cases slice <;> simpa only [InSlice, Uriaa.write_part_of_ne hw, Uriaa.write_uri] using hu
  have hterm : (u.part p).isNullTerminated = false ∧ (u.part p).readPos = 0 ∧
      (u.part p).isAlloc = false := by
    rcases slice with _ | ⟨pos, size⟩
    · obtain ⟨buf, hbuf⟩ := hu
      simp [hbuf]
    · simp only [InSlice] at hu
      simp [hu]
  cases w with
  | set q pos size =>
      by_cases hq : q = p
      · subst hq
        rw [UriWrite.noted, if_pos rfl]
        by_cases hsize : size = 0 <;>
          simp [InSlice, Uriaa.write, Uriaa.setPart, hterm, hsize]
      · rw [UriWrite.noted, if_neg hq]
        exact hother hq
  | unset q =>
      by_cases hq : q = p
      · subst hq
        rw [UriWrite.noted, if_pos rfl]
        exact ⟨(u.part q).buf, by simp [Uriaa.write, Uriaa.unsetPart, hterm]⟩
      · rw [UriWrite.noted, if_neg hq]
        exact hother hq

theorem Uriaa.InSlice.writeAll (hu : u.InSlice p slice) (writes : List UriWrite) :
    (u.writeAll writes).InSlice p (noted p slice writes) := by
  induction writes generalizing u slice with
  | nil => exact hu
  | cons w writes ih => exact ih (hu.write w)

theorem Uriaa.inSlice_zero (hzero : u.part p = {}) : u.InSlice p none := ⟨none, hzero⟩

private theorem Uriaa.component_isSome (hzero : u.part p = {}) {n : Nat} :
    (((u.writeAll writes).rewind n).component h p).isSome = (noted p none writes).isSome := by
  have hslice := (inSlice_zero hzero).writeAll writes
  rw [Uriaa.component, show ((u.writeAll writes).rewind n).part p = (u.writeAll writes).part p
    from rfl]
  rcases hnoted : noted p none writes with _ | ⟨pos, size⟩
  · rw [hnoted] at hslice
    obtain ⟨buf, hbuf⟩ := hslice
    simp [hbuf]
  · rw [hnoted] at hslice
    simp only [InSlice] at hslice
    simp [hslice]

private theorem Uriaa.component_noted (front : List UInt8) {text : List UInt8} (hu : u.Shows h c)
    (hzero : u.part p = {}) (hrest : front ++ text <+: c.rest)
    (hnoted : noted p none writes = some (c.pos + front.length, text.length)) {n : Nat} :
    ((u.writeAll writes).rewind n).component h p = some text := by
  have hslice := (inSlice_zero hzero).writeAll writes
  rw [hnoted] at hslice
  simp only [InSlice] at hslice
  have huri : (u.writeAll writes).uri = u.uri := Uriaa.writeAll_uri u writes
  rw [Uriaa.component, show ((u.writeAll writes).rewind n).part p = (u.writeAll writes).part p
    from rfl, hslice, huri, if_pos rfl]
  rw [filterMap_range fun i hi => Uriaa.slice_char front hu hrest i hi]

end Noted

/-! ### What the productions read and note -/

namespace Text

open HierarchicalUri (whenPresent)

variable {c : Cursor UInt8} {p : Production} {part : UriPart} {parts : List UriPart}

/-- The production makes notes on these components only. -/
abbrev NotesOn (parts : List UriPart) (p : Production) : Prop :=
  NotesIn (fun _ w => w.part ∈ parts) p

private theorem notesOn_grows (parts : List UriPart) :
    GrowsBackwards fun (_ : Cursor UInt8) (w : UriWrite) => w.part ∈ parts :=
  fun _ _ _ _ hw => hw

/-- The outcome of a production that read `text` as the component `part`: the note on it comes last,
behind notes on the components inside. -/
def ReadsPart (part : UriPart) (inside : List UriPart) (c : Cursor UInt8) (text : List UInt8)
    (r : Outcome UInt8 UriWrite) : Prop :=
  ∃ rest notes, c.rest = text ++ rest ∧ (∀ w ∈ notes, w.part ∈ inside) ∧
    r = ⟨true, ⟨c.pos + text.length, rest⟩, notes ++ [.set part c.pos text.length]⟩

private theorem noting_reads (hadv : Advances p) (hnotes : NotesOn parts p)
    (hok : (p c).ok = true) :
    ∃ text, ReadsPart part parts c text (noting (.slice part) p c) := by
  obtain ⟨text, hrest, hpos⟩ := hadv c
  refine ⟨text, (p c).cursor.rest, (p c).notes, hrest, hnotes c, ?_⟩
  have hcursor : (p c).cursor = ⟨c.pos + text.length, (p c).cursor.rest⟩ := by rw [← hpos]
  simp only [noting, hok, if_true, UriWrite.slice, hpos, Nat.add_sub_cancel_left]
  rw [← hcursor]

private theorem attempt_noting_cases (part : UriPart) (hadv : Advances p) (hsilent : Silent p)
    (hnotes : NotesOn parts p) (c : Cursor UInt8) :
    (p c).ok = false ∧ attempt (noting (.slice part) p) c = ⟨false, c, []⟩ ∨
      (p c).ok = true ∧ ∃ text, ReadsPart part parts c text
      (attempt (noting (.slice part) p) c) := by
  have hsame : (noting (.slice part) p c).ok = (p c).ok := by
    by_cases hok : (p c).ok = true <;> simp [noting, hok]
  cases hok : (p c).ok with
  | false => exact .inl ⟨rfl, hsilent.noting.attempt_eq (hsame.trans hok)⟩
  | true =>
      rw [attempt_of_ok (hsame.trans hok)]
      exact .inr ⟨rfl, noting_reads hadv hnotes hok⟩

theorem char_ok (x : Char) (c : Cursor UInt8) :
    (char x c).ok = true ↔ c.rest.head? = some (ch x) := by
  rw [char, lift]
  cases hrest : c.rest with
  | nil => simp [isChar]
  | cons y rest =>
      by_cases hx : ch x = y
      · simp [isChar, hx]
      · simp [isChar, hx, Ne.symm hx]

theorem char_fails {x : Char} (hx : c.rest.head? ≠ some (ch x)) : char x c = ⟨false, c, []⟩ := by
  have hfail : (isChar (ch x) c.rest).1 = false := by
    rw [← Bool.not_eq_true]
    exact fun hok => hx ((char_ok x c).mp hok)
  have hsame : (isChar (ch x) c.rest).2 = c.rest := isChar_eq_self (by simp [hfail])
  rw [char, lift, hsame, hfail, Cursor.to_self]

theorem absPath_silent : Silent (andThen (char '/')
    (lift fun s => (true, segments (segment s))) : Production) :=
  (Silent.lift _).andThen fun _ => rfl

private theorem absPath_notesOn : NotesOn [.absPath] absPath :=
  .attempt (.noting (.andThen (notesOn_grows _) (.lift _) (char_advances _) (.lift _))
    (.andThen (char_advances _) (.lift fun _ => (segments_suffix _).trans (segment_suffix _)))
    fun _ _ _ => List.mem_cons_self ..)

/-- `abs_path` reads a path if there is a slash. -/
theorem absPath_cases (c : Cursor UInt8) :
    c.rest.head? ≠ some (ch '/') ∧ absPath c = ⟨false, c, []⟩ ∨
      c.rest.head? = some (ch '/') ∧ ∃ text, ReadsPart .absPath [] c text (absPath c) := by
  have hok : (andThen (char '/') (lift fun s => (true, segments (segment s)) : Production) c).ok =
      (char '/' c).ok := by
    by_cases hslash : (char '/' c).ok = true <;> simp [andThen, hslash, Outcome.after, lift]
  have hadv : Advances (andThen (char '/') (lift fun s => (true, segments (segment s)) :
      Production)) :=
    .andThen (char_advances _) (.lift fun _ => (segments_suffix _).trans (segment_suffix _))
  rcases attempt_noting_cases .absPath hadv absPath_silent
    (.andThen (notesOn_grows []) (.lift _) (char_advances _) (.lift _)) c with
    ⟨hfail, heq⟩ | ⟨hsome, hreads⟩
  · refine .inl ⟨fun hslash => ?_, heq⟩
    rw [hok, (char_ok _ _).mpr hslash] at hfail
    cases hfail
  · exact .inr ⟨(char_ok _ _).mp (hok ▸ hsome), hreads⟩

private theorem host_notesOn : NotesOn [.host] host :=
  .attempt (.noting (.orElse (notesOn_grows _) (.lift _) (.lift hostname_suffix) (.lift _))
    (.orElse (.lift hostname_suffix) (.lift ipv4address_suffix)) fun _ _ _ => List.mem_cons_self ..)

private theorem port_notesOn : NotesOn [.port] port :=
  .attempt (.noting (.lift _) (.lift fun _ => List.dropWhile_suffix _)
    fun _ _ _ => List.mem_cons_self ..)

theorem NotesOn.mono {parts parts' : List UriPart} (hp : NotesOn parts p) (h : parts ⊆ parts') :
    NotesOn parts' p := fun c w hw => h (hp c w hw)

private theorem hostport_notesOn : NotesOn [.host, .port] hostport :=
  .attempt (.andTry (notesOn_grows _) (host_notesOn.mono (by simp)) host_advances
    (.andThen (notesOn_grows _) (.lift _) (char_advances _) (port_notesOn.mono (by simp))))

private theorem userinfoAt_notesOn : NotesOn [.userinfo] userinfoAt :=
  .attempt (.noting
    (.andThen (notesOn_grows _) (.lift _) (.lift fun _ => chars_suffix _ _) (.lift _))
    (.andThen (.lift fun _ => chars_suffix _ _) (char_advances _)) fun _ _ _ =>
    List.mem_cons_self ..)

private theorem server_notesOn : NotesOn [.userinfo, .host, .port] server :=
  .always (.attempt (.notingFailure
    (.both (notesOn_grows _) (userinfoAt_notesOn.mono (by simp)) userinfoAt_advances
      (hostport_notesOn.mono (by simp)))
    fun _ => List.mem_cons_self ..))

theorem authority_notesOn : NotesOn [.authority, .userinfo, .host, .port] authority :=
  .attempt (.noting (.orElse (notesOn_grows _) (server_notesOn.mono (by simp)) server_advances
    (.lift _)) (.orElse server_advances regName_advances) fun _ _ _ => List.mem_cons_self ..)

theorem authority_ok (c : Cursor UInt8) : (authority c).ok = true := by
  have hserver : (orElse server regName c).ok = true := by
    have hok : (server c).ok = true := rfl
    simp [orElse, hok]
  have hnoting : (noting (.slice .authority) (orElse server regName) c).ok = true := by
    simp [noting, hserver]
  rw [authority, attempt_of_ok hnoting, hnoting]

private theorem hostport_noted {slice : Option (Nat × Nat)} (hok : (hostport c).ok = true) :
    (noted .host slice (hostport c).notes).isSome := by
  rcases attempt_noting_cases .host
    (.orElse (.lift hostname_suffix) (.lift ipv4address_suffix))
    ((Silent.lift _).orElse (.lift _))
    (.orElse (notesOn_grows []) (.lift _) (.lift hostname_suffix) (.lift _)) c with
    ⟨-, heq⟩ | ⟨-, text, rest, notes, -, -, heq⟩
  · have hhost : host c = ⟨false, c, []⟩ := heq
    simp [hostport, attempt, andTry, hhost] at hok
  · have hhost : host c = _ := heq
    have htail : NotesOn [.port] (andThen (char ':') port) :=
      .andThen (notesOn_grows _) (.lift _) (char_advances _) port_notesOn
    have hnotes : (hostport c).notes =
        (host c).notes ++ (andThen (char ':') port (host c).cursor).notes := by
      simp [hostport, attempt, andTry, andThen, hhost, Outcome.after]
    rw [hnotes, noted_append, noted_of_not_mem (htail _) (by decide), hhost]
    simp

private theorem server_noted {slice : Option (Nat × Nat)}
    (hinfo : (noted .userinfo none (server c).notes).isSome) :
    (noted .host slice (server c).notes).isSome := by
  have hnotes : (server c).notes =
      (userinfoAt c).notes ++ (hostport (userinfoAt c).cursor).notes ++
        if (hostport (userinfoAt c).cursor).ok then [] else [.unset .userinfo] := by
    by_cases hok : (hostport (userinfoAt c).cursor).ok = true <;>
      simp [server, always, attempt, notingFailure, both, Outcome.after, hok]
  rw [hnotes] at hinfo ⊢
  by_cases hok : (hostport (userinfoAt c).cursor).ok = true
  · rw [if_pos hok, List.append_nil, noted_append]
    exact hostport_noted hok
  · rw [if_neg hok, noted_append] at hinfo
    simp at hinfo

private theorem slashSlash_notes (c : Cursor UInt8) :
    (andThen (char '/') (char '/') c).notes = [] := by
  rw [andThen]
  split <;> rfl

theorem netPath_silent :
    Silent (andTry (andThen (andThen (char '/') (char '/')) authority) absPath) :=
  .andTry (.andThen (fun _ _ => slashSlash_notes _) authority_ok)

theorem netPath_cases (c : Cursor UInt8) :
    netPath c = ⟨false, c, []⟩ ∨ c.rest.head? = some (ch '/') ∧
      ∃ text, ReadsPart .netPath [.authority, .userinfo, .host, .port, .absPath] c text
        (netPath c) := by
  have hadv : Advances (andTry (andThen (andThen (char '/') (char '/')) authority) absPath) :=
    .andTry (.andThen (.andThen (char_advances _) (char_advances _)) authority_advances)
      absPath_advances
  have hnotes : NotesOn [.authority, .userinfo, .host, .port, .absPath]
      (andTry (andThen (andThen (char '/') (char '/')) authority) absPath) :=
    .andTry (notesOn_grows _)
      (.andThen (notesOn_grows _) (.andThen (notesOn_grows _) (.lift _) (char_advances _) (.lift _))
        (.andThen (char_advances _) (char_advances _)) (authority_notesOn.mono (by simp)))
      (.andThen (.andThen (char_advances _) (char_advances _)) authority_advances)
      (absPath_notesOn.mono (by simp))
  rcases attempt_noting_cases .netPath hadv netPath_silent hnotes c with ⟨-, heq⟩ | ⟨hok, hreads⟩
  · exact .inl heq
  · refine .inr ⟨(char_ok _ _).mp ?_, hreads⟩
    by_contra hslash
    simp [andTry, andThen, hslash] at hok

private theorem netPath_noted (hinfo : (noted .userinfo none (netPath c).notes).isSome) :
    (noted .host none (netPath c).notes).isSome := by
  have hserver (c : Cursor UInt8) :
      (authority c).notes =
        (server c).notes ++ [.slice .authority c.pos (server c).cursor.pos] := by
    have hok : (server c).ok = true := rfl
    simp [authority, attempt, noting, orElse, hok]
  by_cases hslash : (andThen (char '/') (char '/') c).ok = true
  · have hnotes : (netPath c).notes =
        (authority (andThen (char '/') (char '/') c).cursor).notes ++
          (absPath (andThen (andThen (char '/') (char '/')) authority c).cursor).notes ++
          [.slice .netPath c.pos (absPath (andThen (andThen (char '/') (char '/'))
            authority c).cursor).cursor.pos] := by
      have hok : (andThen (andThen (char '/') (char '/')) authority c).ok = true := by
        rw [andThen_of_ok hslash]
        exact authority_ok (andThen (char '/') (char '/') c).cursor
      simp [netPath, attempt, noting, andTry_of_ok hok, Outcome.after, andThen_of_ok hslash,
        slashSlash_notes]
    rw [hnotes, hserver] at hinfo ⊢
    simp only [noted_append, UriWrite.slice, noted_set, noted_nil, reduceCtorEq, if_false,
      noted_of_not_mem (absPath_notesOn _) (show UriPart.userinfo ∉ [UriPart.absPath] by decide),
      noted_of_not_mem (absPath_notesOn _) (show UriPart.host ∉ [UriPart.absPath] by decide)]
      at hinfo ⊢
    exact server_noted hinfo
  · have hfail : (andTry (andThen (andThen (char '/') (char '/')) authority) absPath c).ok =
        false := by
      change (andThen (andThen (char '/') (char '/')) authority c).ok = false
      rw [andThen, if_neg hslash]
      simpa using hslash
    have hnone : netPath c = ⟨false, c, []⟩ :=
      netPath_silent.noting.attempt_eq (by simp [noting, hfail])
    rw [hnone] at hinfo
    cases hinfo

private theorem relPath_cases (c : Cursor UInt8) :
    relPath c = ⟨false, c, []⟩ ∨ ∃ text, ReadsPart .relPath [.absPath] c text (relPath c) := by
  rcases attempt_noting_cases .relPath
    (.andTry (.lift (classThenChars_suffix _ _)) absPath_advances)
    (.andTry (.lift (classThenChars relSegmentChars relSegmentChars)))
    (.andTry (notesOn_grows _) (.lift _) (.lift (classThenChars_suffix _ _)) absPath_notesOn) c with
    ⟨-, heq⟩ | ⟨-, hreads⟩
  · exact .inl heq
  · exact .inr hreads

theorem optionalPart_cases (x : Char) (q : UriPart) (c : Cursor UInt8) :
    ∃ (text : Option (List UInt8)) (rest : List UInt8),
      (text.isSome ↔ c.rest.head? = some (ch x)) ∧
      c.rest = (whenPresent text fun text => ch x :: text) ++ rest ∧
      andThen (char x) (uricPart q) c =
        ⟨text.isSome, ⟨c.pos + (whenPresent text fun text => ch x :: text).length, rest⟩,
          noteOptional q text (c.pos + 1)⟩ := by
  by_cases hx : c.rest.head? = some (ch x)
  · obtain ⟨tail, hrest⟩ : ∃ tail, c.rest = ch x :: tail := by
      cases hrest : c.rest with
      | nil => simp [hrest] at hx
      | cons y tail =>
          rw [hrest, List.head?_cons, Option.some.injEq] at hx
          exact ⟨tail, by rw [hx]⟩
    obtain ⟨text, htext⟩ := chars_suffix uricChars tail
    have hchar : char x c = ⟨true, ⟨c.pos + 1, tail⟩, []⟩ := by
      simp [char, lift, hrest, Cursor.to]
    refine ⟨some text, chars uricChars tail, by simp [hx], ?_, ?_⟩
    · rw [hrest, whenPresent, Option.elim_some, List.cons_append, htext]
    · have hlength : tail.length - (chars uricChars tail).length = text.length := by
        rw [← htext, List.length_append, htext]
        omega
      simp [andThen, hchar, uricPart, noting, lift, Outcome.after, Cursor.to, UriWrite.slice,
        hlength, noteOptional, whenPresent]
      omega
  · refine ⟨none, c.rest, by simpa using hx, by simp [whenPresent], ?_⟩
    simp [andThen, char_fails hx, whenPresent, noteOptional]

/-- The components that are set inside a path. -/
def inside : UriPart → List UriPart
  | .netPath => [.authority, .userinfo, .host, .port, .absPath]
  | .relPath => [.absPath]
  | _ => []

/-- The notes on a path that is the component `part`: the one on the component comes last, and there
is no user information without a host. -/
structure NotesPath (part : UriPart) (pos size : Nat) (notes : List UriWrite) : Prop where
  last : ∃ front, (∀ w ∈ front, w.part ∈ inside part) ∧ notes = front ++ [.set part pos size]
  host : (noted .userinfo none notes).isSome → (noted .host none notes).isSome

/-- A path in one of these forms is read, or nothing. -/
def ReadsPath (forms : List UriPart) (c : Cursor UInt8) (r : Outcome UInt8 UriWrite) : Prop :=
  r = ⟨false, c, []⟩ ∨ ∃ part ∈ forms, ∃ text rest notes, c.rest = text ++ rest ∧
    NotesPath part c.pos text.length notes ∧ r = ⟨true, ⟨c.pos + text.length, rest⟩, notes⟩

theorem ReadsPart.path {forms : List UriPart} {text : List UInt8} {r : Outcome UInt8 UriWrite}
    (hreads : ReadsPart part (inside part) c text r) (hpart : part ∈ forms)
    (hhost : (noted .userinfo none r.notes).isSome → (noted .host none r.notes).isSome) :
    ReadsPath forms c r := by
  obtain ⟨rest, front, hrest, hfront, rfl⟩ := hreads
  exact .inr ⟨part, hpart, text, rest, _, hrest, ⟨⟨front, hfront, rfl⟩, hhost⟩, rfl⟩

theorem orElse_of_fail {p q : Production} (hp : p c = ⟨false, c, []⟩) : orElse p q c = q c := by
  simp [orElse, hp, Outcome.after]

theorem hierPath_reads (c : Cursor UInt8) :
    ReadsPath [.netPath, .absPath] c (orElse netPath absPath c) ∧
      ((orElse netPath absPath c).ok = true ↔ c.rest.head? = some (ch '/')) := by
  rcases netPath_cases c with hnone | ⟨hslash, text, hreads⟩
  · rw [orElse_of_fail hnone]
    rcases absPath_cases c with ⟨hslash, heq⟩ | ⟨hslash, text, hreads⟩
    · exact ⟨.inl heq, by simp [heq, hslash]⟩
    · have hpart : ReadsPart .absPath (inside .absPath) c text (absPath c) := hreads
      obtain ⟨rest, notes, hrest, hnotes, heq⟩ := hreads
      refine ⟨hpart.path (by simp) ?_, by simp [heq, hslash]⟩
      intro hinfo
      rw [heq, noted_append, noted_of_not_mem hnotes (List.not_mem_nil)] at hinfo
      simp at hinfo
  · have hok : (netPath c).ok = true := by
      obtain ⟨rest, notes, -, -, heq⟩ := hreads
      rw [heq]
    have heq : orElse netPath absPath c = netPath c := by simp [orElse, hok]
    rw [heq]
    exact ⟨hreads.path (by simp) netPath_noted, by simp [hok, hslash]⟩

theorem relativePath_reads (c : Cursor UInt8) :
    ReadsPath [.netPath, .absPath, .relPath] c (orElse (orElse netPath absPath) relPath c) := by
  rcases (hierPath_reads c).1 with hnone | ⟨part, hpart, text, rest, notes, hrest, hnotes, heq⟩
  · rw [orElse_of_fail hnone]
    rcases relPath_cases c with heq | ⟨text, hreads⟩
    · exact .inl heq
    · have hpart : ReadsPart .relPath (inside .relPath) c text (relPath c) := hreads
      obtain ⟨rest, notes, hrest, hnotes, heq⟩ := hreads
      refine hpart.path (by simp) ?_
      intro hinfo
      rw [heq, noted_append, noted_of_not_mem hnotes (by decide)] at hinfo
      simp at hinfo
  · have hok : (orElse netPath absPath c).ok = true := by rw [heq]
    have hsame : orElse (orElse netPath absPath) relPath c = orElse netPath absPath c := by
      rw [orElse, if_pos hok]
    rw [hsame]
    have hpart' : part ∈ [.netPath, .absPath] ++ [UriPart.relPath] := List.mem_append_left _ hpart
    exact .inr ⟨part, hpart', text, rest, notes, hrest, hnotes, heq⟩

/-- A path with a query. Without the path nothing is read, but the query stays noted. -/
theorem pathQuery_reads {forms : List UriPart} (hpath : ReadsPath forms c (p c)) :
    ((p c).ok = false ∧ ∃ left : Option (List UInt8),
      (left.isSome ↔ c.rest.head? = some (ch '?')) ∧
      attempt (both (fun isPath _ => isPath) p questionQuery) c =
        ⟨false, c, noteOptional .query left (c.pos + 1)⟩) ∨
    (p c).ok = true ∧ ∃ part ∈ forms, ∃ path query rest notes,
      c.rest = path ++ ((whenPresent query fun text => ch '?' :: text) ++ rest) ∧
      NotesPath part c.pos path.length notes ∧
      attempt (both (fun isPath _ => isPath) p questionQuery) c =
        ⟨true, ⟨c.pos + path.length + (whenPresent query fun text => ch '?' :: text).length, rest⟩,
          notes ++ noteOptional .query query (c.pos + path.length + 1)⟩ := by
  rcases hpath with heq | ⟨part, hpart, path, rest, notes, hrest, hnotes, heq⟩
  · obtain ⟨left, rest, hleft, -, hquery⟩ := optionalPart_cases '?' .query c
    have hquery' : questionQuery c = _ := hquery
    exact .inl ⟨by rw [heq], left, hleft, by
      simp [attempt, both, heq, hquery', Outcome.after]⟩
  · obtain ⟨query, rest', -, hrest', hquery⟩ :=
      optionalPart_cases '?' .query ⟨c.pos + path.length, rest⟩
    have hquery' : questionQuery ⟨c.pos + path.length, rest⟩ = _ := hquery
    refine .inr ⟨by rw [heq], part, hpart, path, query, rest', notes, ?_, hnotes, ?_⟩
    · rw [hrest, ← hrest']
    · simp [attempt, both, heq, hquery', Outcome.after]

theorem scheme_cases (c : Cursor UInt8) :
    (schemeRun c.rest).1 = false ∧ scheme c = ⟨false, c, []⟩ ∨
      ∃ text rest, schemeRun c.rest = (true, rest) ∧ c.rest = text ++ rest ∧
        scheme c = ⟨true, ⟨c.pos + text.length, rest⟩, [.set .scheme c.pos text.length]⟩ := by
  cases hrun : (schemeRun c.rest).1 with
  | false =>
      have hsame : (schemeRun c.rest).2 = c.rest := by
        cases hrest : c.rest with
        | nil => rfl
        | cons x rest =>
            rw [hrest] at hrun
            by_cases hx : alphaChars x = true
            · simp [schemeRun, hx] at hrun
            · simp [schemeRun, hx]
      exact .inl ⟨rfl, by simp [scheme, noting, lift, hrun, hsame, Cursor.to_self]⟩
  | true =>
      obtain ⟨text, htext⟩ := schemeRun_suffix c.rest
      have hlength : c.rest.length - (schemeRun c.rest).2.length = text.length := by
        conv_lhs => rw [← htext]
        rw [List.length_append, htext]
        omega
      exact .inr ⟨text, (schemeRun c.rest).2, Prod.ext hrun rfl, htext.symm, by
        simp [scheme, noting, lift, hrun, Cursor.to, UriWrite.slice, hlength]⟩

/-- If the text starts with a scheme and `:`, what follows is a hierarchical part with a path or an
opaque part that does not start with `?`. -/
def schemeContinues (s : List UInt8) : Bool :=
  match schemeRun s with
  | (true, x :: rest) =>
      x != ch ':' || rest.head? == some (ch '/') ||
        (rest.head? != some (ch '?') && (inClass uricNoSlashChars rest).1)
  | _ => true

theorem opaquePart_reads (c : Cursor UInt8) :
    ((opaquePart c).ok = true ↔ (inClass uricNoSlashChars c.rest).1 = true) ∧
      ((opaquePart c).ok = true → ∃ text, ReadsPart .opaquePart [] c text (opaquePart c)) ∧
      ((opaquePart c).ok = false → (opaquePart c).notes = []) := by
  have hok : (opaquePart c).ok = (inClass uricNoSlashChars c.rest).1 := by
    by_cases hin : (inClass uricNoSlashChars c.rest).1 = true <;>
      simp [opaquePart, noting, lift, classThenChars, hin]
  refine ⟨by rw [hok], fun hsome => ?_, fun hnone => Silent.noting (.lift _) c hnone⟩
  refine noting_reads (.lift (classThenChars_suffix _ _)) (.lift _) ?_
  by_cases hin : (inClass uricNoSlashChars c.rest).1 = true
  · simp [lift, classThenChars, hin]
  · rw [hok] at hsome
    exact absurd hsome hin

/-- What `absoluteURI` leaves noted when it fails, and what it reads when it succeeds. -/
theorem absoluteURI_reads (c : Cursor UInt8) :
    (∃ (left : Option (List UInt8)) (notes : List UriWrite),
      (∀ w ∈ notes, w.part ∈ [UriPart.scheme]) ∧
      noted .scheme none notes = left.map (fun text => (c.pos, text.length)) ∧
      (schemeContinues c.rest = true ↔ left = none) ∧
      absoluteURI c = ⟨false, c, notes⟩) ∨
    ∃ scheme part path left query rest notes,
      c.rest = scheme ++ ch ':' ::
        (path ++ ((whenPresent query fun text => ch '?' :: text) ++ rest)) ∧
      part ∈ [UriPart.netPath, .absPath, .opaquePart] ∧ (part = .opaquePart → query = none) ∧
      (query.isSome → left = none) ∧ NotesPath part (c.pos + scheme.length + 1) path.length notes ∧
      (schemeContinues c.rest = true ↔ left = none) ∧
      absoluteURI c = ⟨true, ⟨c.pos + scheme.length + 1 + path.length +
          (whenPresent query fun text => ch '?' :: text).length, rest⟩,
        .set .scheme c.pos scheme.length ::
          (noteOptional .query left (c.pos + scheme.length + 1 + 1) ++ notes ++
            noteOptional .query query (c.pos + scheme.length + 1 + path.length + 1))⟩ := by
  rcases scheme_cases c with ⟨hrun, hscheme⟩ | ⟨text, rest, hrun, hrest, hscheme⟩
  · refine .inl ⟨none, [], by simp, rfl, ?_, by simp [absoluteURI, attempt, andThen, hscheme]⟩
    have hcontinues : schemeContinues c.rest = true := by
      rw [schemeContinues]
      split
      · rename_i heq
        rw [heq] at hrun
        cases hrun
      · rfl
    simp [hcontinues]
  · by_cases hcolon : rest.head? = some (ch ':')
    · obtain ⟨tail, rfl⟩ : ∃ tail, rest = ch ':' :: tail := by
        cases rest with
        | nil => simp at hcolon
        | cons x tail =>
            rw [List.head?_cons, Option.some.injEq] at hcolon
            exact ⟨tail, by rw [hcolon]⟩
      have hchar : char ':' ⟨c.pos + text.length, ch ':' :: tail⟩ =
          ⟨true, ⟨c.pos + text.length + 1, tail⟩, []⟩ := by
        simp [char, lift, Cursor.to]
      have hcontinues : schemeContinues c.rest = (tail.head? == some (ch '/') ||
          (tail.head? != some (ch '?') && (inClass uricNoSlashChars tail).1)) := by
        rw [schemeContinues, hrun]
        simp
      have hpath := hierPath_reads ⟨c.pos + text.length + 1, tail⟩
      rcases pathQuery_reads hpath.1 with ⟨hfail, left, hleft, hhier⟩ |
        ⟨hok, part, hpart, path, query, rest, notes, htail, hnotes, hhier⟩
      · have hslash : tail.head? ≠ some (ch '/') := fun heq => by
          rw [hpath.2.mpr heq] at hfail
          cases hfail
        have hhier' : hierPart ⟨c.pos + text.length + 1, tail⟩ = _ := hhier
        obtain ⟨hopaquePart, hreads, hsilent⟩ := opaquePart_reads ⟨c.pos + text.length + 1, tail⟩
        cases hopen : (opaquePart ⟨c.pos + text.length + 1, tail⟩).ok with
        | false =>
            -- Neither part: the scheme stays.
            have hclass : (inClass uricNoSlashChars tail).1 = false := by
              rw [← Bool.not_eq_true, ← hopaquePart, hopen]
              decide
            have hnone : left = none := by
              rw [← Option.not_isSome_iff_eq_none, hleft]
              intro hquestion
              cases tail with
              | nil => simp at hquestion
              | cons x tail =>
                  rw [List.head?_cons, Option.some.injEq] at hquestion
                  rw [hquestion, inClass, if_pos (by decide)] at hclass
                  cases hclass
            refine .inl ⟨some text, [.set .scheme c.pos text.length], by simp [UriWrite.part],
              by simp, by simp [hcontinues, hslash, hclass], ?_⟩
            simp [absoluteURI, attempt, andThen, hscheme, hchar, notingFailure, orElse, hhier',
              Outcome.after, hopen, hsilent hopen, hnone, noteOptional]
        | true =>
            obtain ⟨path, rest, notes, htail, hnotes, heq⟩ := hreads hopen
            have hpathNotes : NotesPath .opaquePart (c.pos + text.length + 1) path.length
                (notes ++ [.set .opaquePart (c.pos + text.length + 1) path.length]) :=
              ⟨⟨notes, hnotes, rfl⟩, fun hinfo => by
                rw [noted_append, noted_of_not_mem hnotes List.not_mem_nil] at hinfo
                simp at hinfo⟩
            have htail' : tail = path ++ rest := htail
            have hclass := hopaquePart.mp hopen
            refine .inr ⟨text, .opaquePart, path, left, none, rest, _, ?_, by simp, fun _ => rfl,
              by simp, hpathNotes, ?_, ?_⟩
            · rw [hrest, htail']
              simp [whenPresent]
            · have hclass' : (inClass uricNoSlashChars tail).1 = true := hclass
              rw [hcontinues, hclass', ← Option.not_isSome_iff_eq_none, hleft]
              simp [hslash]
            · simp [absoluteURI, attempt, andThen, hscheme, hchar, notingFailure, orElse, hhier',
                Outcome.after, heq, noteOptional, whenPresent]
      · have hslash := hpath.2.mp hok
        have hhier' : hierPart ⟨c.pos + text.length + 1, tail⟩ = _ := hhier
        have hpart' : part ∈ [UriPart.netPath, .absPath] ++ [.opaquePart] :=
          List.mem_append_left _ hpart
        have hslash' : tail.head? = some (ch '/') := hslash
        refine .inr ⟨text, part, path, none, query, rest, notes, ?_, hpart', ?_, fun _ => rfl,
          hnotes, ?_, ?_⟩
        · rw [hrest]
          exact congrArg (text ++ ch ':' :: ·) htail
        · rintro rfl
          simp at hpart
        · simp [hcontinues, hslash']
        · simp [absoluteURI, attempt, andThen, hscheme, hchar, notingFailure, orElse, hhier',
            Outcome.after, noteOptional]
    · have hchar : char ':' ⟨c.pos + text.length, rest⟩ = _ := char_fails hcolon
      refine .inl ⟨none, [.set .scheme c.pos text.length, .unset .scheme], by simp [UriWrite.part],
        by simp, ?_, by simp [absoluteURI, attempt, andThen, hscheme, notingFailure, hchar,
          Outcome.after]⟩
      have hcontinues : schemeContinues c.rest = true := by
        rw [schemeContinues, hrun]
        cases rest with
        | nil => rfl
        | cons x rest =>
            have hne : x ≠ ch ':' := by simpa using hcolon
            simp [hne]
      simp [hcontinues]

end Text

/-! ### The parts of what was read -/

open HierarchicalUri (whenPresent)

/-- The parts of a reference as the parser takes them, and the scheme and the query it gave up but
left noted. -/
structure Reading where
  scheme : Option (List UInt8)
  path : Option (UriPart × List UInt8)
  query : Option (List UInt8)
  fragment : Option (List UInt8)
  leftScheme : Option (List UInt8)
  leftQuery : Option (List UInt8)
  form : ∀ part text, path = some (part, text) →
    part ∈ [UriPart.netPath, .absPath, .relPath, .opaquePart]
  relPath : ∀ text, path = some (.relPath, text) → scheme = none
  opaquePart : ∀ text, path = some (.opaquePart, text) → scheme.isSome ∧ query = none
  schemeTaken : scheme.isSome → leftScheme = none
  queryTaken : query.isSome → leftQuery = none

namespace Reading

variable (r : Reading)

def schemeText : List UInt8 := whenPresent r.scheme fun text => text ++ [ch ':']

def pathText : List UInt8 := r.path.elim [] Prod.snd

def queryText : List UInt8 := whenPresent r.query fun text => ch '?' :: text

def fragmentText : List UInt8 := whenPresent r.fragment fun text => ch '#' :: text

def text : List UInt8 := r.schemeText ++ (r.pathText ++ (r.queryText ++ r.fragmentText))

/-- The components that belong to a path. -/
def pathParts : List UriPart :=
  [.netPath, .absPath, .relPath, .opaquePart, .authority, .userinfo, .host, .port]

/-- What the notes on a reading from `pos` on say about the components. -/
structure Noted (pos : Nat) (notes : List UriWrite) : Prop where
  scheme : noted .scheme none notes =
    (r.scheme.or r.leftScheme).map fun text => (pos, text.length)
  path : ∀ part text, r.path = some (part, text) →
    noted part none notes = some (pos + r.schemeText.length, text.length)
  other : ∀ p ∈ pathParts, (∀ part text, r.path = some (part, text) → p ≠ part ∧
    p ∉ Text.inside part) → noted p none notes = none
  host : (noted .userinfo none notes).isSome → (noted .host none notes).isSome
  query : ∀ text, r.query = some text →
    noted .query none notes = some (pos + (r.schemeText ++ r.pathText).length + 1, text.length)
  leftQuery : r.query = none → (noted .query none notes).isSome = r.leftQuery.isSome
  fragment : noted .fragment none notes = r.fragment.map fun text =>
    (pos + (r.schemeText ++ (r.pathText ++ r.queryText)).length + 1, text.length)

variable {r} {pos n : Nat} {pathNotes : List UriWrite}

private theorem noted_of_parts (schemeNotes : List UriWrite)
    (hschemeNotes : ∀ w ∈ schemeNotes, w.part ∈ [UriPart.scheme])
    (hscheme : noted .scheme none schemeNotes =
      (r.scheme.or r.leftScheme).map fun text => (pos, text.length))
    (hpath : r.path = none ∧ pathNotes = [] ∨ ∃ part text, r.path = some (part, text) ∧
      Text.NotesPath part (pos + r.schemeText.length) text.length pathNotes) :
    r.Noted pos (schemeNotes ++ (Text.noteOptional .query r.leftQuery n ++ pathNotes ++
      Text.noteOptional .query r.query (pos + (r.schemeText ++ r.pathText).length + 1)) ++
      Text.noteOptional .fragment r.fragment
        (pos + (r.schemeText ++ (r.pathText ++ r.queryText)).length + 1)) := by
  have hinside : ∀ part text, r.path = some (part, text) → .scheme ∉ Text.inside part ∧
      .query ∉ Text.inside part ∧ .fragment ∉ Text.inside part ∧ part ∉ Text.inside part ∧
      part ≠ .scheme ∧ part ≠ .query ∧ part ≠ .fragment := by
    intro part text hpart
    have hform := r.form part text hpart
    simp only [List.mem_cons, List.not_mem_nil, or_false] at hform
    rcases hform with rfl | rfl | rfl | rfl <;> decide
  have hother (p : UriPart) (slice : Option (Nat × Nat)) (hp : ∀ part text,
      r.path = some (part, text) → p ≠ part ∧ p ∉ Text.inside part) :
      noted p slice pathNotes = slice := by
    rcases hpath with ⟨-, rfl⟩ | ⟨part, text, hpart, ⟨front, hfront, rfl⟩, -⟩
    · rfl
    · obtain ⟨hne, hnot⟩ := hp part text hpart
      rw [noted_append, noted_of_not_mem hfront hnot]
      simp [Ne.symm hne]
  have hnone (p : UriPart) (hp : p ≠ .scheme) : noted p none schemeNotes = none :=
    noted_of_not_mem hschemeNotes (by simpa using hp)
  refine ⟨?_, ?_, ?_, ?_, ?_, ?_, ?_⟩
  · rw [← hscheme]
    simp only [noted_append, noted_noteOptional, reduceCtorEq, if_false]
    rw [hother _ _ fun part text hpart => ⟨(hinside part text hpart).2.2.2.2.1.symm,
      (hinside part text hpart).1⟩]
  · intro part text hpart
    obtain ⟨hs, hq, hf, hself, hsne, hqne, hfne⟩ := hinside part text hpart
    rcases hpath with ⟨hnone, -⟩ | ⟨part', text', hpart', ⟨front, hfront, rfl⟩, -⟩
    · rw [hnone] at hpart
      cases hpart
    · rw [hpart, Option.some.injEq, Prod.mk.injEq] at hpart'
      obtain ⟨rfl, rfl⟩ := hpart'
      simp [noted_noteOptional, hqne.symm, hfne.symm]
  · intro p hp hnot
    have hne : p ≠ .scheme ∧ p ≠ .query ∧ p ≠ .fragment := by
      simp only [pathParts, List.mem_cons, List.not_mem_nil, or_false] at hp
      rcases hp with rfl | rfl | rfl | rfl | rfl | rfl | rfl | rfl <;> decide
    simp only [noted_append, noted_noteOptional, hne.2.1.symm, hne.2.2.symm, if_false,
      hnone p hne.1, hother p none hnot]
  · simp only [noted_append, noted_noteOptional, reduceCtorEq, if_false, hnone _ (by decide :
      UriPart.userinfo ≠ .scheme), hnone _ (by decide : UriPart.host ≠ .scheme)]
    rcases hpath with ⟨-, rfl⟩ | ⟨part, text, -, hnotes⟩
    · simp
    · exact hnotes.host
  · intro text htext
    simp [noted_noteOptional, htext]
  · intro hquery
    simp only [noted_append, noted_noteOptional, reduceCtorEq, if_false, if_true, hquery,
      Option.map_none, Option.none_or, hnone _ (by decide : UriPart.query ≠ .scheme)]
    rw [hother _ _ fun part text hpart => ⟨(hinside part text hpart).2.2.2.2.2.1.symm,
      (hinside part text hpart).2.1⟩]
    simp
  · simp only [noted_append, noted_noteOptional, reduceCtorEq, if_false, if_true,
      hnone _ (by decide : UriPart.fragment ≠ .scheme)]
    rw [hother _ _ fun part text hpart => ⟨(hinside part text hpart).2.2.2.2.2.2.symm,
      (hinside part text hpart).2.2.1⟩]
    simp

end Reading

namespace Text

/-- What `URI_reference` reads where it succeeds, and what it notes about it. -/
theorem uriReference_reads (c : Cursor UInt8) (hok : (uriReference c).ok = true) :
    ∃ (r : Reading) (rest : List UInt8) (notes : List UriWrite), c.rest = r.text ++ rest ∧
      r.Noted c.pos notes ∧
      (schemeContinues c.rest = true ↔ r.leftScheme = none ∧ r.leftQuery = none) ∧
      uriReference c = ⟨true, ⟨c.pos + r.text.length, rest⟩, notes⟩ := by
  rcases absoluteURI_reads c with ⟨left, schemeNotes, hschemeNotes, hscheme, hcontinues, habs⟩ |
    ⟨scheme, part, path, left, query, rest, notes, hrest, hpart, hopaquePart, hleft, hnotes,
      hcontinues, habs⟩
  · have horElse : orElse absoluteURI relativeURI c = (relativeURI c).after schemeNotes := by
      simp [orElse, habs]
    rcases pathQuery_reads (relativePath_reads c) with ⟨-, leftQuery, hleftQuery, hrel⟩ |
      ⟨-, part, hpart, path, query, rest, notes, hrest, hnotes, hrel⟩
    · have hrel' : relativeURI c = _ := hrel
      obtain ⟨fragment, rest, hfragment, hrest, hhash⟩ := optionalPart_cases '#' .fragment c
      have hhash' : hashFragment c = _ := hhash
      rw [hrel', Outcome.after] at horElse
      have hsome : fragment.isSome = true := by
        cases fragment with
        | none => simp [uriReference, attempt, both, horElse, hhash', Outcome.after] at hok
        | some text => rfl
      have hnone : leftQuery = none := by
        rw [← Option.not_isSome_iff_eq_none, hleftQuery, hfragment.mp hsome]
        decide
      let r : Reading := ⟨none, none, none, fragment, left, none, by simp, by simp, by simp,
        by simp, by simp⟩
      refine ⟨r, rest, _, hrest, Reading.noted_of_parts (r := r) (n := 0) schemeNotes hschemeNotes
        (by simpa [r] using hscheme) (.inl ⟨rfl, rfl⟩), by simp [r, hcontinues], ?_⟩
      have hread : uriReference c = _ := attempt_both_of_ok horElse hhash' hsome
      simp [hread, hnone, r, noteOptional, Reading.text, Reading.schemeText, Reading.pathText,
        Reading.queryText, Reading.fragmentText, whenPresent]
    · have hrel' : relativeURI c = _ := hrel
      obtain ⟨fragment, rest', -, hrest', hhash⟩ := optionalPart_cases '#' .fragment
        ⟨c.pos + path.length + (whenPresent query fun text => ch '?' :: text).length, rest⟩
      have hhash' : hashFragment _ = _ := hhash
      let r : Reading := ⟨none, some (part, path), query, fragment, left, none, by
        rintro part' text heq
        cases heq
        simp only [List.mem_cons, List.not_mem_nil, or_false] at hpart
        rcases hpart with rfl | rfl | rfl <;> decide, by simp, by
        rintro text heq
        cases heq
        simp at hpart, by simp, by simp⟩
      refine ⟨r, rest', _, ?_, Reading.noted_of_parts (r := r) (n := 0) schemeNotes hschemeNotes
        (by simpa [r] using hscheme) (.inr ⟨part, path, rfl, hnotes⟩), by simp [r, hcontinues], ?_⟩
      · have htail : rest = _ := hrest'
        rw [hrest, htail]
        simp [r, Reading.text, Reading.schemeText, Reading.pathText, Reading.queryText,
          Reading.fragmentText, whenPresent]
      · rw [hrel', Outcome.after] at horElse
        have hread : uriReference c = _ := attempt_both_of_ok horElse hhash' rfl
        simp [hread, r, noteOptional, Reading.text, Reading.schemeText, Reading.pathText,
          Reading.queryText, Reading.fragmentText, whenPresent, Nat.add_assoc]
  · obtain ⟨fragment, rest', -, hrest', hhash⟩ := optionalPart_cases '#' .fragment
      ⟨c.pos + scheme.length + 1 + path.length +
        (whenPresent query fun text => ch '?' :: text).length, rest⟩
    have hhash' : hashFragment _ = _ := hhash
    let r : Reading := ⟨some scheme, some (part, path), query, fragment, none, left, by
      rintro part' text heq
      cases heq
      simp only [List.mem_cons, List.not_mem_nil, or_false] at hpart
      rcases hpart with rfl | rfl | rfl <;> decide, by
      rintro text heq
      cases heq
      simp at hpart, by
      rintro text heq
      cases heq
      exact ⟨rfl, hopaquePart rfl⟩, fun _ => rfl, hleft⟩
    refine ⟨r, rest', _, ?_, Reading.noted_of_parts (r := r) (n := c.pos + scheme.length + 1 + 1)
      [.set .scheme c.pos scheme.length] (by simp [UriWrite.part]) (by simp [r])
      (.inr ⟨part, path, rfl, by simpa [r, Reading.schemeText, whenPresent, Nat.add_assoc] using
        hnotes⟩), by simp [r, hcontinues], ?_⟩
    · have htail : rest = _ := hrest'
      rw [hrest, htail]
      simp [r, Reading.text, Reading.schemeText, Reading.pathText, Reading.queryText,
        Reading.fragmentText, whenPresent]
    · have horElse : orElse absoluteURI relativeURI c = absoluteURI c := by
        rw [orElse, habs, if_pos rfl]
      have hread : uriReference c = _ := attempt_both_of_ok (horElse.trans habs) hhash' rfl
      simp [hread, r, Reading.text, Reading.schemeText, Reading.pathText, Reading.queryText,
        Reading.fragmentText, whenPresent, Nat.add_assoc, Nat.add_comm, Nat.add_left_comm]

end Text

/-! ### The components put together -/

section Recomposition

variable {h : Heap} {u u' : Uriaa} {text : List UInt8}

/-- The components put together: one path form, the widest that is set. -/
def Uriaa.recompose (h : Heap) (u : Uriaa) : List UInt8 :=
  (whenPresent (u.component h .scheme) fun text => text ++ [ch ':']) ++
    ((((u.component h .netPath).or (u.component h .relPath)).or (u.component h .absPath)).or
      (u.component h .opaquePart)).getD [] ++
    (whenPresent (u.component h .query) fun text => ch '?' :: text) ++
    whenPresent (u.component h .fragment) fun text => ch '#' :: text

/-- The components put together are the text that was read, and no component is left over: the forms
of a path exclude each other, a component is set only with the one it is a part of, a relative path
has no scheme, and an opaque part has one and nothing of a hierarchical part. -/
structure Uriaa.Recomposes (h : Heap) (u : Uriaa) (read : List UInt8) : Prop where
  text : u.recompose h = read
  onePath : ∀ p ∈ [UriPart.netPath, .relPath, .opaquePart],
    ∀ q ∈ [UriPart.netPath, .relPath, .opaquePart],
      (u.component h p).isSome → (u.component h q).isSome → p = q
  authority : ∀ p ∈ [UriPart.authority, .userinfo, .host, .port],
    (u.component h p).isSome → (u.component h .netPath).isSome
  userinfo : (u.component h .userinfo).isSome → (u.component h .host).isSome
  relPath : (u.component h .relPath).isSome → u.component h .scheme = none
  opaquePart : (u.component h .opaquePart).isSome → (u.component h .scheme).isSome ∧
    u.component h .absPath = none ∧ u.component h .query = none

/-- The components of a reading are its parts, and what it left noted. -/
theorem Reading.Noted.components {r : Reading} {c : Cursor UInt8} {notes : List UriWrite}
    {rest : List UInt8} {n : Nat} (hnotes : r.Noted c.pos notes) (hu : u.Shows h c)
    (hzero : ∀ p, u.part p = {}) (hrest : c.rest = r.text ++ rest) :
    let v := (u.writeAll notes).rewind n
    (∀ text, r.scheme = some text → v.component h .scheme = some text) ∧
      (r.scheme = none → (v.component h .scheme).isSome = r.leftScheme.isSome) ∧
      (∀ part text, r.path = some (part, text) → v.component h part = some text) ∧
      (∀ p ∈ Reading.pathParts, (∀ part text, r.path = some (part, text) → p ≠ part ∧
        p ∉ Text.inside part) → v.component h p = none) ∧
      ((v.component h .userinfo).isSome → (v.component h .host).isSome) ∧
      (∀ text, r.query = some text → v.component h .query = some text) ∧
      (r.query = none → (v.component h .query).isSome = r.leftQuery.isSome) ∧
      v.component h .fragment = r.fragment := by
  refine ⟨fun text htext => ?_, fun hnone => ?_, fun part text hpath => ?_, fun p hp hnot => ?_, ?_,
    fun text htext => ?_, fun hnone => ?_, ?_⟩
  · refine Uriaa.component_noted [] hu (hzero _) ?_ ?_
    · rw [hrest, Reading.text, Reading.schemeText, htext]
      simp [whenPresent]
    · rw [hnotes.scheme, htext]
      rfl
  · rw [Uriaa.component_isSome (hzero _), hnotes.scheme, hnone]
    simp
  · refine Uriaa.component_noted r.schemeText hu (hzero _) ?_ (hnotes.path part text hpath)
    rw [hrest, Reading.text, Reading.pathText, hpath]
    simp [List.prefix_append_right_inj]
  · rw [← Option.not_isSome_iff_eq_none, Uriaa.component_isSome (hzero _), hnotes.other p hp hnot]
    decide
  · rw [Uriaa.component_isSome (hzero _), Uriaa.component_isSome (hzero _)]
    exact hnotes.host
  · refine Uriaa.component_noted (r.schemeText ++ r.pathText ++ [ch '?']) hu (hzero _) ?_ ?_
    · rw [hrest, Reading.text, Reading.queryText, htext]
      simp [whenPresent, List.prefix_append_right_inj]
    · rw [hnotes.query text htext]
      simp [Nat.add_assoc]
  · rw [Uriaa.component_isSome (hzero _)]
    exact hnotes.leftQuery hnone
  · have hfragment := hnotes.fragment
    cases htext : r.fragment with
    | none =>
        rw [htext] at hfragment
        rw [← Option.not_isSome_iff_eq_none, Uriaa.component_isSome (hzero _), hfragment]
        simp
    | some text =>
        rw [htext] at hfragment
        refine Uriaa.component_noted (r.schemeText ++ (r.pathText ++ r.queryText) ++ [ch '#']) hu
          (hzero _) ?_ ?_
        · rw [hrest, Reading.text, Reading.fragmentText, htext]
          simp [whenPresent, List.prefix_append_right_inj]
        · rw [hfragment]
          simp [Nat.add_assoc]

private theorem Reading.path_recompose {r : Reading} {v : Uriaa}
    (hpath : ∀ part text, r.path = some (part, text) → v.component h part = some text)
    (hother : ∀ p ∈ Reading.pathParts, (∀ part text, r.path = some (part, text) → p ≠ part ∧
      p ∉ Text.inside part) → v.component h p = none) :
    ((((v.component h .netPath).or (v.component h .relPath)).or (v.component h .absPath)).or
      (v.component h .opaquePart)).getD [] = r.pathText := by
  rw [Reading.pathText]
  rcases hread : r.path with _ | ⟨part, text⟩
  · have hnone (p : UriPart) (hp : p ∈ Reading.pathParts) : v.component h p = none :=
      hother p hp (by simp [hread])
    simp [hnone _ (by decide : UriPart.netPath ∈ Reading.pathParts),
      hnone _ (by decide : UriPart.relPath ∈ Reading.pathParts),
      hnone _ (by decide : UriPart.absPath ∈ Reading.pathParts),
      hnone _ (by decide : UriPart.opaquePart ∈ Reading.pathParts)]
  · have hpart := hpath part text hread
    have hnone (p : UriPart) (hp : p ∈ Reading.pathParts) (hnot : p ≠ part ∧ p ∉ Text.inside part) :
        v.component h p = none :=
      hother p hp (by simpa [hread] using hnot)
    have hform := r.form part text hread
    simp only [List.mem_cons, List.not_mem_nil, or_false] at hform
    rcases hform with rfl | rfl | rfl | rfl
    · simp [hpart]
    · simp [hpart, hnone .netPath (by decide) (by decide), hnone .relPath (by decide) (by decide)]
    · simp [hpart, hnone .netPath (by decide) (by decide)]
    · simp [hpart, hnone .netPath (by decide) (by decide), hnone .relPath (by decide) (by decide),
        hnone .absPath (by decide) (by decide)]

/-- The components put together are the text that was read exactly where no scheme and no query is
given up behind its delimiter. -/
theorem uriReference_recomposes (hu : u.Shows h ⟨u.uri.readPos, text⟩)
    (hzero : ∀ p, u.part p = {}) (hrun : uriReference h u = some (true, u')) :
    u'.Recomposes h (text.take (u'.uri.readPos - u.uri.readPos)) ↔
      Text.schemeContinues text = true := by
  obtain ⟨hok, hleft⟩ := uriReference_left hu hrun
  obtain ⟨r, rest, notes, hrest, hnotes, hcontinues, hread⟩ :=
    Text.uriReference_reads ⟨u.uri.readPos, text⟩ hok
  obtain ⟨hscheme, hleftScheme, hpath, hother, hhost, hquery, hleftQuery, hfragment⟩ :=
    hnotes.components (n := u.uri.readPos + r.text.length) hu hzero hrest
  have hu' : u' = (u.writeAll notes).rewind (u.uri.readPos + r.text.length) := by
    rw [hleft, hread, Uriaa.left]
  rw [← hu'] at hscheme hleftScheme hpath hother hhost hquery hleftQuery hfragment
  have htaken : text.take (u'.uri.readPos - u.uri.readPos) = r.text := by
    have htext : text = r.text ++ rest := hrest
    have hpos : u'.uri.readPos = u.uri.readPos + r.text.length := by
      rw [hu']
      rfl
    rw [htext, hpos, Nat.add_sub_cancel_left, List.take_left]
  rw [htaken, hcontinues]
  constructor
  · intro hall
    have hlength := congrArg List.length hall.text
    have hschemeLength : r.schemeText.length ≤
        (whenPresent (u'.component h .scheme) fun text => text ++ [ch ':']).length ∧
        (r.leftScheme.isSome → r.schemeText.length <
          (whenPresent (u'.component h .scheme) fun text => text ++ [ch ':']).length) := by
      cases hs : r.scheme with
      | none =>
          have hsome := hleftScheme hs
          rw [Reading.schemeText, hs]
          refine ⟨Nat.zero_le _, fun hleft => ?_⟩
          rw [hleft] at hsome
          obtain ⟨text, htext⟩ := Option.isSome_iff_exists.mp hsome
          simp [whenPresent, htext]
      | some text =>
          rw [Reading.schemeText, hs, hscheme text hs, r.schemeTaken (by rw [hs]; rfl)]
          exact ⟨Nat.le_refl _, fun h => by cases h⟩
    have hqueryLength : r.queryText.length ≤
        (whenPresent (u'.component h .query) fun text => ch '?' :: text).length ∧
        (r.leftQuery.isSome → r.queryText.length <
          (whenPresent (u'.component h .query) fun text => ch '?' :: text).length) := by
      cases hq : r.query with
      | none =>
          have hsome := hleftQuery hq
          rw [Reading.queryText, hq]
          refine ⟨Nat.zero_le _, fun hleft => ?_⟩
          rw [hleft] at hsome
          obtain ⟨text, htext⟩ := Option.isSome_iff_exists.mp hsome
          simp [whenPresent, htext]
      | some text =>
          rw [Reading.queryText, hq, hquery text hq, r.queryTaken (by rw [hq]; rfl)]
          exact ⟨Nat.le_refl _, fun h => by cases h⟩
    rw [Uriaa.recompose, Reading.path_recompose hpath hother, hfragment, Reading.text,
      Reading.fragmentText] at hlength
    simp only [List.length_append] at hlength
    rw [← Option.not_isSome_iff_eq_none, ← Option.not_isSome_iff_eq_none]
    constructor
    · intro hleft
      have := hschemeLength.2 hleft
      omega
    · intro hleft
      have := hqueryLength.2 hleft
      omega
  · rintro ⟨hnoScheme, hnoQuery⟩
    have hschemeEq : u'.component h .scheme = r.scheme := by
      cases hs : r.scheme with
      | none =>
          rw [← Option.not_isSome_iff_eq_none, hleftScheme hs, hnoScheme]
          decide
      | some text => exact hscheme text hs
    have hqueryEq : u'.component h .query = r.query := by
      cases hq : r.query with
      | none =>
          rw [← Option.not_isSome_iff_eq_none, hleftQuery hq, hnoQuery]
          decide
      | some text => exact hquery text hq
    have hset (p : UriPart) (hp : p ∈ Reading.pathParts) (hsome : (u'.component h p).isSome) :
        ∃ part text, r.path = some (part, text) ∧ (p = part ∨ p ∈ Text.inside part) ∧
          part ∈ [UriPart.netPath, .absPath, .relPath, .opaquePart] := by
      by_contra hnot
      have hnone := hother p hp fun part text hpart => by
        refine not_or.mp fun hin => hnot ⟨part, text, hpart, hin, r.form part text hpart⟩
      rw [hnone] at hsome
      cases hsome
    have hform (p : UriPart) (hp : p ∈ [UriPart.netPath, .relPath, .opaquePart])
        (hsome : (u'.component h p).isSome) : ∃ text, r.path = some (p, text) := by
      have hp' : p ∈ Reading.pathParts := by
        simp only [List.mem_cons, List.not_mem_nil, or_false] at hp
        rcases hp with rfl | rfl | rfl <;> decide
      obtain ⟨part, text, hread, hin, hpart⟩ := hset p hp' hsome
      refine ⟨text, ?_⟩
      simp only [List.mem_cons, List.not_mem_nil, or_false] at hp hpart
      rcases hp with rfl | rfl | rfl <;> rcases hpart with rfl | rfl | rfl | rfl <;>
        first | exact hread | simp [Text.inside] at hin
    refine ⟨?_, ?_, ?_, hhost, ?_, ?_⟩
    · rw [Uriaa.recompose, hschemeEq, Reading.path_recompose hpath hother, hqueryEq, hfragment]
      simp [Reading.text, Reading.schemeText, Reading.queryText, Reading.fragmentText]
    · intro p hp q hq hpSome hqSome
      obtain ⟨text, htext⟩ := hform p hp hpSome
      obtain ⟨text', htext'⟩ := hform q hq hqSome
      rw [htext, Option.some.injEq, Prod.mk.injEq] at htext'
      exact htext'.1
    · intro p hp hsome
      have hp' : p ∈ Reading.pathParts := by
        simp only [List.mem_cons, List.not_mem_nil, or_false] at hp
        rcases hp with rfl | rfl | rfl | rfl <;> decide
      obtain ⟨part, text, hread, hin, hpart⟩ := hset p hp' hsome
      have hnet : part = .netPath := by
        simp only [List.mem_cons, List.not_mem_nil, or_false] at hp hpart
        rcases hpart with rfl | rfl | rfl | rfl
        · rfl
        all_goals rcases hp with rfl | rfl | rfl | rfl <;> simp [Text.inside] at hin
      rw [hpath .netPath text (hnet ▸ hread)]
      rfl
    · intro hsome
      obtain ⟨text, htext⟩ := hform .relPath (by simp) hsome
      rw [hschemeEq]
      exact r.relPath text htext
    · intro hsome
      obtain ⟨text, htext⟩ := hform .opaquePart (by simp) hsome
      obtain ⟨hisSome, hnone⟩ := r.opaquePart text htext
      refine ⟨hschemeEq ▸ hisSome, hother .absPath (by decide) ?_, hqueryEq.trans hnone⟩
      intro part text' hpart
      rw [htext, Option.some.injEq, Prod.mk.injEq] at hpart
      rw [← hpart.1]
      decide

/-- `a:b`. -/
theorem uriReference_recomposes_opaque :
    ∃ u', uriReference (.ofText [ch 'a', ch ':', ch 'b']) { uri := .ofText 0 3 } = some (true, u') ∧
      (u'.Recomposes (.ofText [ch 'a', ch ':', ch 'b'])
          ([ch 'a', ch ':', ch 'b'].take (u'.uri.readPos - 0)) ↔
        Text.schemeContinues [ch 'a', ch ':', ch 'b'] = true) := by
  have hok : (uriReference (.ofText [ch 'a', ch ':', ch 'b']) { uri := .ofText 0 3 }).map Prod.fst =
      some true := by decide
  obtain ⟨⟨ok, u'⟩, hrun, hfst⟩ := Option.map_eq_some_iff.mp hok
  obtain rfl : ok = true := hfst
  exact ⟨u', hrun, uriReference_recomposes (Uriaa.ofText_shows [ch 'a', ch ':', ch 'b'])
    (fun _ => rfl) hrun⟩

/-- Of `a:` only `a` is read, as a relative path, but `a` is the scheme too. -/
theorem uriReference_leavesScheme : ¬ ∀ (h : Heap) (u u' : Uriaa) (text : List UInt8),
    u.Shows h ⟨u.uri.readPos, text⟩ → (∀ p, u.part p = {}) → uriReference h u = some (true, u') →
      u'.Recomposes h (text.take (u'.uri.readPos - u.uri.readPos)) := by
  intro hclaim
  have hruns : (uriReference (.ofText [ch 'a', ch ':']) { uri := .ofText 0 2 }).map
      (fun r => (r.1, r.2.recompose (.ofText [ch 'a', ch ':']))) =
        some (true, [ch 'a', ch ':', ch 'a']) := by decide
  obtain ⟨⟨ok, u'⟩, hrun, heq⟩ := Option.map_eq_some_iff.mp hruns
  obtain ⟨hok, hrecompose⟩ := Prod.mk.inj heq
  obtain rfl : ok = true := hok
  have htext := (hclaim _ _ _ _ (Uriaa.ofText_shows [ch 'a', ch ':']) (fun _ => rfl) hrun).text
  have hrecompose' : u'.recompose (.ofText [ch 'a', ch ':']) = [ch 'a', ch ':', ch 'a'] :=
    hrecompose
  have hlength := congrArg List.length htext
  rw [hrecompose', List.length_take] at hlength
  simp only [List.length_cons, List.length_nil] at hlength
  omega

end Recomposition

end Httpaa
