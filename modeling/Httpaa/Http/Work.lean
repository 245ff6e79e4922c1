import Httpaa.Http.Headers
import Httpaa.Http.Safety
import Httpaa.Uri.Passes

/-!
# File names of requests

`httpaa_work.h` copies the absolute path of the request URI and removes its dot segments in place.
-/

namespace Httpaa

open Recogniser Stringaa Heap

/-- `http11_http_struct` with the file names, next to what the request parser writes. -/
structure HttpaaWork extends Http11Http where
  requestFileName : Stringaa := {}
  responseFileName : Stringaa := {}

def httpaaWorkGetRequestFileName (h : Heap) (http : HttpaaWork) :
    Option (Bool × Heap × HttpaaWork) := do
  let (isCopy, h, name) ← stringaaCopy h http.requestFileName
    (http.request.requestLine.requestUri.part .absPath)
  if isCopy then
    let (isRemove, h) ← uriaaRemoveSegmentPoint h name
    if isRemove then
      let (isRemove, h, name) ← uriaaRemoveSegmentPoints h name
      return (isRemove, h, { http with requestFileName := name })
    else return (false, h, { http with requestFileName := name })
  else return (false, h, { http with requestFileName := name })

def httpaaWorkSetResponseFileName (h : Heap) (http : HttpaaWork) (path : Stringaa) :
    Option (Bool × Heap × HttpaaWork) := do
  let (isCopy, h, name) ← stringaaCopy h http.responseFileName path
  if isCopy then
    let (isCopy, h, name) ← stringaaCopy h name http.requestFileName
    if isCopy then
      let (isRemove, h) ← uriaaRemoveSegmentPoint h name
      if isRemove then
        let (isRemove, h, name) ← uriaaRemoveSegmentPoints h name
        return (isRemove, h, { http with responseFileName := name })
      else return (false, h, { http with responseFileName := name })
    else return (false, h, { http with responseFileName := name })
  else return (false, h, { http with responseFileName := name })

def http11WorkMethodGet (h : Heap) (http : HttpaaWork) (path : Stringaa) :
    Option (Bool × Heap × HttpaaWork) := do
  let (isGet, h, http) ← httpaaWorkGetRequestFileName h http
  if isGet then httpaaWorkSetResponseFileName h http path
  else return (false, h, http)

section

variable {h : Heap} {s uri : Stringaa} {p : Ptr} {ok : Bool} {u : Uriaa}

/-! ### The components of a fresh reference -/

/-- A component of a reference that was all zero: if it is initialised, it is a slice of the
text. -/
structure FreshPart (uri s : Stringaa) : Prop where
  readPos : s.readPos = 0
  isAlloc : s.isAlloc = false
  isNullTerminated : s.isNullTerminated = false
  slice : s.isInit = true → ∃ pos size, s = uri.headerFrom pos size ∧ pos + size ≤ uri.writePos

private theorem writeAll_freshPart {writes : List UriWrite} {c : Cursor UInt8}
    (hlength : c.pos + c.rest.length = u.uri.writePos)
    (hwrites : ∀ w ∈ writes, w.InText c) (hu : ∀ p, FreshPart u.uri (u.part p)) (p : UriPart) :
    FreshPart u.uri ((u.writeAll writes).part p) := by
  induction writes generalizing u with
  | nil => exact hu p
  | cons w writes ih =>
      have huri : (u.write w).uri = u.uri := by cases w <;> rfl
      have hrest := ih (u := u.write w) (by rw [huri, hlength])
        (fun w' h => hwrites w' (List.mem_cons_of_mem w h))
      rw [huri] at hrest
      refine hrest fun q => ?_
      have hq := hu q
      cases w with
      | set q' pos size =>
          have hin := hwrites _ (List.mem_cons_self ..)
          simp only [UriWrite.InText] at hin
          by_cases heq : q = q'
          · subst heq
            refine ⟨?_, ?_, ?_, fun _ => ⟨pos, size, ?_, ?_⟩⟩
            · simpa [Uriaa.write, Uriaa.setPart] using hq.readPos
            · simpa [Uriaa.write, Uriaa.setPart] using hq.isAlloc
            · simpa [Uriaa.write, Uriaa.setPart] using hq.isNullTerminated
            · by_cases hsize : size = 0 <;>
                simp [Uriaa.write, Uriaa.setPart, Stringaa.headerFrom, hq.readPos, hq.isAlloc,
                  hq.isNullTerminated, hsize]
            · omega
          · simpa [Uriaa.write, Uriaa.setPart, heq] using hq
      | unset q' =>
          by_cases heq : q = q'
          · subst heq
            refine ⟨?_, ?_, ?_, fun h => ?_⟩
            · simpa [Uriaa.write, Uriaa.unsetPart] using hq.readPos
            · simpa [Uriaa.write, Uriaa.unsetPart] using hq.isAlloc
            · simpa [Uriaa.write, Uriaa.unsetPart] using hq.isNullTerminated
            · simp [Uriaa.write, Uriaa.unsetPart] at h
          · simpa [Uriaa.write, Uriaa.unsetPart, heq] using hq

private theorem checkUrl_slice (hread : Readable h uri)
    (hcheck : uriaaCheckUrl h { uri } = some (ok, u)) {p : UriPart}
    (hinit : (u.part p).isInit = true) :
    ∃ pos size, u.part p = uri.headerFrom pos size ∧ pos + size ≤ uri.writePos := by
  rw [uriaaCheckUrl] at hcheck
  split at hcheck
  · have hshows : Uriaa.Shows h { uri } ⟨uri.readPos, uri.unread h⟩ := hread.shows
    obtain ⟨-, hleft⟩ := uriReference_left hshows hcheck
    rw [hleft] at hinit ⊢
    exact (writeAll_freshPart (u := { uri }) hread.shows.length (Text.uriReference_inText _)
      (fun _ => ⟨rfl, rfl, rfl, fun h => by cases h⟩) p).slice hinit
  · simp only [Option.some.injEq, Prod.mk.injEq] at hcheck
    rw [← hcheck.2] at hinit
    cases hinit

/-! ### The text of a slice -/

private theorem loadChars_holds (pos n : Nat) (hbuf : s.buf = some p)
    (hchar : ∀ i < n, (s.charAt h (pos + i)).isSome) :
    ∃ text, loadChars h s pos n = some text ∧ text.length = n ∧ h.Holds (p.add pos) text := by
  induction n generalizing pos with
  | zero => exact ⟨[], rfl, rfl, holds_nil⟩
  | succ n ih =>
      obtain ⟨text, hload, hlength, hholds⟩ := ih (pos + 1) fun i hi => by
        have h' := hchar (i + 1) (by omega)
        rwa [Nat.add_comm i 1, ← Nat.add_assoc] at h'
      have hfirst := hchar 0 (by omega)
      rw [Nat.add_zero, charAt, hbuf, Option.bind_some, Heap.load] at hfirst
      have hload' : s.charAt h pos = some (h.byte (p.add pos)) := by
        rw [charAt, hbuf, Option.bind_some, Heap.load]
        split at hfirst
        · rw [if_pos (by assumption)]
          rfl
        · cases hfirst
      refine ⟨h.byte (p.add pos) :: text, by simp [loadChars, hload', hload], by simp [hlength],
        holds_cons.mpr ⟨rfl, by simpa using hholds⟩⟩

/-! ### The request's file name -/

structure HttpaaWork.HasPath (h : Heap) (http : HttpaaWork) (path : List UInt8) : Prop where
  gives : ∃ p, (http.request.requestLine.requestUri.part .absPath).Gives h p path
  writePos : (http.request.requestLine.requestUri.part .absPath).writePos = path.length

private theorem checkUrl_hasPath (hheap : h.WellFormed) (hread : Readable h uri)
    (hcheck : uriaaCheckUrl h { uri } = some (ok, u)) (hset : (u.part .absPath).isInit = true)
    {http : HttpaaWork} (huri : http.request.requestLine.requestUri = u) :
    ∃ path, (u.part .absPath).text h = some path ∧ http.HasPath h path := by
  obtain ⟨pos, size, hslice, hle⟩ := checkUrl_slice hread hcheck hset
  have hcond : uri.buf.isSome ∧ 0 < uri.writePos ∧ uri.isInit := by
    by_contra hcond
    rw [uriaaCheckUrl, if_neg hcond] at hcheck
    simp only [Option.some.injEq, Prod.mk.injEq] at hcheck
    rw [← hcheck.2] at hset
    cases hset
  obtain ⟨p, hp⟩ := Option.isSome_iff_exists.mp hcond.1
  have hbuf : (u.part .absPath).buf = some (p.add pos) := by
    simp [hslice, Stringaa.headerFrom, hp]
  have hchar : ∀ i < size, ((u.part .absPath).charAt h (0 + i)).isSome := by
    intro i hi
    have hchar := hread.char (pos + i) (by omega)
    simpa [charAt, hp, hbuf] using hchar
  obtain ⟨path, hload, hlength, hholds⟩ := loadChars_holds 0 size hbuf hchar
  have hknown : (p.add pos).block < h.next := by
    by_contra hnew
    have hsize : h.size p.block = 0 := hheap _ (Nat.not_lt.mp hnew)
    have hfirst := hread.char 0 hcond.2.1
    simp [charAt, hp, Heap.load, Ptr.add, hsize] at hfirst
  refine ⟨path, ?_, ⟨p.add pos, ?_⟩, ?_⟩
  · rw [Stringaa.text, hslice]
    rw [hslice] at hload
    exact hload
  · rw [huri]
    exact ⟨hbuf, hset, by simp [hslice, Stringaa.headerFrom, hlength],
      by simpa using hholds, hknown⟩
  · simp [huri, hslice, Stringaa.headerFrom, hlength]

theorem renews_of_fresh {dst : Stringaa} (hfresh : dst = {}) (n : Nat) :
    dst.isAlloc = true → dst.bufSize < n ∧ ∃ block, dst.Owns h block := by
  simp [hfresh]

private theorem getRequestFileName_namesParent {http : HttpaaWork} {path : List UInt8}
    (hpath : http.HasPath h path) (hfresh : http.requestFileName = {}) :
    ∃ h' http' name, httpaaWorkGetRequestFileName h http = some (true, h', http') ∧
      (http'.requestFileName.buf.bind h'.cString) = some name ∧
      (parent ∉ name.splitOn slash ↔ Text.StaysInside path) := by
  obtain ⟨p, hgives⟩ := hpath.gives
  obtain ⟨h₁, copy, hcopy, howns, hcopySize, -, hcopied, hblockSize, -⟩ :=
    stringaaCopy_renewed hgives (renews_of_fresh hfresh _)
  obtain ⟨h₂, h₃, tail, hsparse, hlength, hfirst, hsecond, hheld, hkept, -⟩ :=
    removeSegments_holds howns hcopied (by simp [hcopySize]) (by simp)
  obtain ⟨hmem, hnames⟩ := Text.namesParent_iff path hsparse.quiet
  have hle := Text.removeSegmentPoints_length_le [] []
    (Text.removeSegmentPoint [] [] (path ++ [0]) ++ tail)
  rw [hlength] at hle
  generalize Text.removeSegmentPoints [] [] (Text.removeSegmentPoint [] [] (path ++ [0]) ++ tail) =
    text at hsecond hheld hmem hnames hle
  have hstring : h₃.cString ⟨h.next, 0⟩ = some (Text.cString text) := by
    refine hheld.cString ?_ hmem
    rw [hkept, hblockSize, Nat.zero_add]
    simpa using hle
  refine ⟨h₃, { http with requestFileName := { copy with bufSize := text.length + 1 } },
    Text.cString text, ?_, by simpa [howns.buf] using hstring, ?_⟩
  · simp [httpaaWorkGetRequestFileName, hcopy, hfirst, hsecond]
  · rw [not_iff_comm]
    exact hnames.symm

end

/-- For every absolute path that the URI parser sets, the file name made of it in a fresh `httpaa`
has no segment `..` if and only if the path stays inside. -/
theorem httpaaWorkGetRequestFileName_noParent (h : Heap) (hheap : h.WellFormed) (uri : Stringaa)
    (hread : Readable h uri) (ok : Bool) (u : Uriaa)
    (hcheck : uriaaCheckUrl h { uri } = some (ok, u)) (hset : (u.part .absPath).isInit = true)
    (http : HttpaaWork) (huri : http.request.requestLine.requestUri = u)
    (hfresh : http.requestFileName = {}) :
    ∃ path h' http' name, (u.part .absPath).text h = some path ∧
      httpaaWorkGetRequestFileName h http = some (true, h', http') ∧
      http'.requestFileName.buf.bind h'.cString = some name ∧
      (parent ∉ name.splitOn slash ↔ Text.StaysInside path) := by
  obtain ⟨path, htext, hpath⟩ := checkUrl_hasPath hheap hread hcheck hset huri
  obtain ⟨h', http', name, hget, hname, hparent⟩ := getRequestFileName_namesParent hpath hfresh
  exact ⟨path, h', http', name, htext, hget, hname, hparent⟩

theorem httpaaWorkGetRequestFileName_noParent_index :
    ∃ u path h' http' name,
      uriaaCheckUrl (.ofText (literal "/a/../index")) { uri := .ofText 0 11 } = some (true, u) ∧
      (u.part .absPath).text (.ofText (literal "/a/../index")) = some path ∧
      httpaaWorkGetRequestFileName (.ofText (literal "/a/../index"))
        { toHttp11Http := ({} : Http11Http).setRequestUri u } = some (true, h', http') ∧
      http'.requestFileName.buf.bind h'.cString = some name ∧
      (parent ∉ name.splitOn slash ↔ Text.StaysInside path) := by
  obtain ⟨path, h', http', name, hproperty⟩ := httpaaWorkGetRequestFileName_noParent
    (.ofText (literal "/a/../index")) (Heap.ofText_wellFormed _) (.ofText 0 11)
    ⟨by decide, by decide⟩ true _ rfl rfl
    { toHttp11Http := ({} : Http11Http).setRequestUri _ } rfl rfl
  exact ⟨_, path, h', http', name, rfl, hproperty⟩

/-- The file name made of `/..` has the segment `..`. -/
theorem httpaaWorkGetRequestFileName_parent :
    ∃ u h' http' name,
      uriaaCheckUrl (.ofText (literal "/..")) { uri := .ofText 0 3 } = some (true, u) ∧
      (u.part .absPath).isInit = true ∧
      httpaaWorkGetRequestFileName (.ofText (literal "/.."))
        { toHttp11Http := ({} : Http11Http).setRequestUri u } = some (true, h', http') ∧
      http'.requestFileName.buf.bind h'.cString = some name ∧ parent ∈ name.splitOn slash := by
  obtain ⟨u, hcheck, hpart⟩ : ∃ u,
      uriaaCheckUrl (.ofText (literal "/..")) { uri := .ofText 0 3 } = some (true, u) ∧
      u.part .absPath = (Stringaa.ofText 0 3).headerFrom 0 3 := ⟨_, rfl, rfl⟩
  have hstays : ¬ Text.StaysInside (literal "/..") := by decide
  have hpath : HttpaaWork.HasPath (.ofText (literal "/.."))
      { toHttp11Http := ({} : Http11Http).setRequestUri u } (literal "/..") := by
    have hslice : (({ toHttp11Http := ({} : Http11Http).setRequestUri u } : HttpaaWork).request
        |>.requestLine.requestUri.part .absPath) = (Stringaa.ofText 0 3).headerFrom 0 3 := hpart
    exact ⟨⟨⟨0, 0⟩, by rw [hslice]; exact ⟨rfl, rfl, rfl, Heap.ofText_holds _, Nat.one_pos⟩⟩,
      by rw [hslice]; rfl⟩
  obtain ⟨h', http', name, hget, hname, hparent⟩ := getRequestFileName_namesParent hpath rfl
  exact ⟨u, h', http', name, hcheck, by rw [hpart]; rfl, hget, hname,
    not_not.mp (hparent.not.mpr hstays)⟩

end Httpaa
