import Httpaa.Foundation.Transition
import Httpaa.Http.Work
import Httpaa.Uri.NormalForm

/-!
# What a file name holds

`httpaa_work_get_request_file_name` removes the dot segments of its copy in place, but leaves the
write position where the copy ended: the text up to there is the normal form of the path only where
there was nothing to remove. A copy into an old buffer leaves what stands behind the NUL, and the
scans go on into that. The scans count in an `int`: paths are shorter than 2^31.
-/

namespace Httpaa

open Recogniser Stringaa Heap

variable {h h₁ : Heap} {s name : Stringaa} {p : Ptr} {path text kept normal : List UInt8}
  {block bufSize : Nat} {http : HttpaaWork} {buf : Ptr} {scan : SegmentScan}

/-! ### The text of a string -/

private theorem loadChars_length {n pos : Nat} (hload : loadChars h s pos n = some text) :
    text.length = n := by
  induction n generalizing pos text with
  | zero =>
      cases hload
      rfl
  | succ n ih =>
      obtain ⟨c, -, hmore⟩ := Option.bind_eq_some_iff.mp hload
      obtain ⟨rest, hrest, htext⟩ := Option.bind_eq_some_iff.mp hmore
      cases htext
      rw [List.length_cons, ih hrest]

private theorem loadChars_of_holds {n pos : Nat} (hbuf : s.buf = some p)
    (hholds : h.Holds (p.add pos) text) (hn : n ≤ text.length)
    (hsize : p.off + pos + n ≤ h.size p.block) :
    loadChars h s pos n = some (text.take n) := by
  induction n generalizing pos text with
  | zero => simp [loadChars]
  | succ n ih =>
      cases text with
      | nil => simp at hn
      | cons x text =>
          obtain ⟨hx, hrest⟩ := holds_cons.mp hholds
          have hchar : s.charAt h pos = some x := by
            rw [Stringaa.charAt, hbuf, Option.bind_some, Heap.load,
              if_pos (by simp only [Ptr.add]; omega), ← hx]
            rfl
          have hload : loadChars h s (pos + 1) n = some (text.take n) :=
            ih (by simpa using hrest) (by simpa using hn) (by omega)
          simp [loadChars, hchar, hload]

/-! ### Both passes over the copy -/

private theorem requestFileName_run (http : HttpaaWork)
    (hcopy : stringaaCopy h http.requestFileName
      (http.request.requestLine.requestUri.part .absPath) = some (true, h₁, name))
    (hname : name.Owns h₁ block) (hholds : h₁.Holds ⟨block, 0⟩ text)
    (hsize : name.bufSize = text.length) (hpoint : Text.NoPoint text) :
    ∃ h', httpaaWorkGetRequestFileName h http = some (true, h', { http with
          requestFileName := { name with
            bufSize := (Text.removeSegmentPoints [] [] text).length + 1 } }) ∧
      h'.Holds ⟨block, 0⟩ (Text.removeSegmentPoints [] [] text) ∧ h'.size = h₁.size ∧
      h₁.SameBeside h' block := by
  have hat := SegmentScan.At.start name.bufSize hholds hsize
  have hfirst := removeSegmentPointLoop_eq_self hat List.not_mem_nil (by simpa using hpoint)
  obtain ⟨h', hsecond, hheld, hkept⟩ := removeSegmentPointsLoop_holds hat
  have hsame := removeSegmentPointsLoop_sameBeside ⟨block, 0⟩ h₁ name.bufSize .start
  rw [hsecond] at hsame
  refine ⟨h', ?_, hheld, hkept, hsame⟩
  simp [httpaaWorkGetRequestFileName, hcopy, uriaaRemoveSegmentPoint, hname.buf, hfirst,
    uriaaRemoveSegmentPoints, hsecond]

private theorem requestFileName_noDots (http : HttpaaWork)
    (hcopy : stringaaCopy h http.requestFileName
      (http.request.requestLine.requestUri.part .absPath) = some (true, h₁, name))
    (hname : name.Owns h₁ block) (hwrite : name.writePos = path.length)
    (hholds : h₁.Holds ⟨block, 0⟩ (path ++ 0 :: kept))
    (hsize : name.bufSize = (path ++ 0 :: kept).length) (hblock : path.length ≤ h₁.size block)
    (hdots : Text.NoDots (path ++ 0 :: kept)) :
    ∃ h' http', httpaaWorkGetRequestFileName h http = some (true, h', http') ∧
      http'.requestFileName.text h' = some path := by
  obtain ⟨h', hrun, hheld, hkept, -⟩ := requestFileName_run http hcopy hname hholds hsize hdots.1
  rw [Text.removeSegmentPoints_eq_self hdots.noParentSegment, List.nil_append] at hheld
  refine ⟨h', _, hrun, ?_⟩
  have hload : loadChars h' { name with bufSize :=
      (Text.removeSegmentPoints [] [] (path ++ 0 :: kept)).length + 1 } 0 path.length =
      some ((path ++ 0 :: kept).take path.length) :=
    loadChars_of_holds hname.buf (by simpa using hheld) (by simp) (by simpa [hkept] using hblock)
  rw [List.take_left' rfl] at hload
  rw [Stringaa.text, ← hload, ← hwrite]

/-! ### A fresh file name -/

private theorem requestFileName_fresh (hpath : http.HasPath h path)
    (hfresh : http.requestFileName = {}) :
    ∃ h' http', httpaaWorkGetRequestFileName h http = some (true, h', http') ∧
      http'.requestFileName.writePos = path.length := by
  obtain ⟨p, hgives⟩ := hpath.gives
  obtain ⟨h₁, name, hcopy, hname, -, hwrite, -⟩ :=
    stringaaCopy_renewed hgives (renews_of_fresh hfresh _)
  rcases hloop : removeSegmentPointsLoop ⟨h.next, 0⟩
    (removeSegmentPointLoop ⟨h.next, 0⟩ h₁ name.bufSize .start) name.bufSize .start with ⟨h₂, n⟩
  refine ⟨h₂, { http with requestFileName := { name with bufSize := n + 1 } }, ?_,
    hwrite.trans hpath.writePos⟩
  simp [httpaaWorkGetRequestFileName, hcopy, uriaaRemoveSegmentPoint, hname.buf,
    uriaaRemoveSegmentPoints, hloop]

private theorem requestFileName_fresh_noPoint (hpath : http.HasPath h path)
    (hfresh : http.requestFileName = {}) (hpoint : Text.NoPoint (path ++ [0])) :
    ∃ h' name, httpaaWorkGetRequestFileName h http =
        some (true, h', { http with requestFileName := name }) ∧ name.Owns h' h.next ∧
      name.bufSize = (Text.removeSegmentPoints [] [] (path ++ [0])).length + 1 ∧
      h'.Holds ⟨h.next, 0⟩ (Text.removeSegmentPoints [] [] (path ++ [0])) ∧
      h'.size h.next = path.length + 1 ∧ h.SameBeside h' h.next := by
  obtain ⟨p, hgives⟩ := hpath.gives
  obtain ⟨h₁, name, hcopy, hname, hsize, -, hholds, hblock, hsame⟩ :=
    stringaaCopy_renewed hgives (renews_of_fresh hfresh _)
  obtain ⟨h', hrun, hheld, hkept, hsame'⟩ :=
    requestFileName_run http hcopy hname hholds (by simp [hsize]) hpoint
  exact ⟨h', _, hrun, ⟨hname.buf, hname.isInit, hname.isAlloc, hname.isNullTerminated,
    Nat.lt_of_lt_of_le hname.known hsame'.next⟩, rfl, hheld, by rw [hkept, hblock],
    hsame.trans hsame'⟩

private theorem requestFileName_fresh_noDots (hpath : http.HasPath h path)
    (hfresh : http.requestFileName = {}) (hdots : Text.NoDots (path ++ [0])) :
    ∃ h' http', httpaaWorkGetRequestFileName h http = some (true, h', http') ∧
      http'.requestFileName.text h' = some path := by
  obtain ⟨p, hgives⟩ := hpath.gives
  obtain ⟨h₁, name, hcopy, hname, hsize, hwrite, hholds, hblock, -⟩ :=
    stringaaCopy_renewed hgives (renews_of_fresh hfresh _)
  refine requestFileName_noDots http hcopy hname (hwrite.trans hpath.writePos) hholds
    (by simp [hsize]) ?_ hdots
  rw [hblock]
  exact Nat.le_succ _

/-- For every absolute path that does not climb above the root, the file name in a fresh `httpaa` is
the normal form exactly where the path has no dot segments. -/
theorem requestFileName_normalForm (hpath : http.HasPath h path)
    (hroot : path.head? = some slash) (hinside : Text.normalForm path = some normal)
    (hfresh : http.requestFileName = {}) :
    ∃ h' http', httpaaWorkGetRequestFileName h http = some (true, h', http') ∧
      (http'.requestFileName.text h' = some normal ↔ Text.NoDots path) := by
  by_cases hdots : Text.NoDots path
  · have hsame := Text.normalForm_noDots hroot hdots
    rw [hinside, Option.some.injEq] at hsame
    have hnul : Text.NoDots (path ++ [0]) :=
      Text.NoDots.withNul (b := []) (by rwa [List.append_nil])
    obtain ⟨h', http', hrun, htext⟩ := requestFileName_fresh_noDots hpath hfresh hnul
    exact ⟨h', http', hrun, iff_of_true (hsame ▸ htext) hdots⟩
  · obtain ⟨h', http', hrun, hwrite⟩ := requestFileName_fresh hpath hfresh
    refine ⟨h', http', hrun, iff_of_false (fun htext => ?_) hdots⟩
    have hlength := loadChars_length htext
    have hshort := Text.normalForm_dots hroot hdots hinside
    omega

/-- The URI of the next request. -/
def HttpaaWork.withUri (http : HttpaaWork) (u : Uriaa) : HttpaaWork :=
  { http with toHttp11Http := http.toHttp11Http.setRequestUri u }

private theorem ofText_hasPath (path : List UInt8) : HttpaaWork.HasPath (.ofText path)
    (({} : HttpaaWork).withUri { part := fun _ => .ofText 0 path.length }) path :=
  ⟨⟨⟨0, 0⟩, rfl, rfl, rfl, Heap.ofText_holds path, Nat.one_pos⟩, rfl⟩

theorem requestFileName_normalForm_index : ∃ h' http',
    httpaaWorkGetRequestFileName (.ofText (literal "/..a"))
        (({} : HttpaaWork).withUri { part := fun _ => .ofText 0 4 }) = some (true, h', http') ∧
      (http'.requestFileName.text h' = some (literal "/..a") ↔ Text.NoDots (literal "/..a")) :=
  requestFileName_normalForm (ofText_hasPath (literal "/..a")) rfl (by decide) rfl

/-- Of `/a/../c` the write position leaves seven characters. -/
theorem requestFileName_keepsLength : ¬ ∀ (h : Heap) (http : HttpaaWork) (path normal : List UInt8),
    http.HasPath h path → path.head? = some slash → Text.normalForm path = some normal →
      http.requestFileName = {} →
      ∃ h' http', httpaaWorkGetRequestFileName h http = some (true, h', http') ∧
        http'.requestFileName.text h' = some normal := by
  intro hclaim
  have hpath := ofText_hasPath (literal "/a/../c")
  obtain ⟨h', http', hrun, htext⟩ := hclaim _ _ _ (literal "/c") hpath rfl (by decide) rfl
  obtain ⟨h₁, http₁, hrun₁, hwrite⟩ := requestFileName_fresh hpath rfl
  rw [hrun₁, Option.some.injEq, Prod.mk.injEq, Prod.mk.injEq] at hrun
  have hlength := loadChars_length htext
  rw [← hrun.2.2, hwrite] at hlength
  exact absurd hlength (by decide)

/-! ### One file name after the other -/

/-- What happens to a file name: the URI of the next request, or anything elsewhere in memory. -/
inductive FileNameEvent
  | request (u : Uriaa)
  | memory (h : Heap)

/-- One request after the other with the same `httpaa`. -/
def fileNameStep : Heap × HttpaaWork → FileNameEvent → Option (Heap × HttpaaWork)
  | (h, http), .request u => (httpaaWorkGetRequestFileName h (http.withUri u)).map Prod.snd
  | (_, http), .memory h => some (h, http)

/-- What stands behind `n` characters and a NUL, up to the size of the buffer. -/
def Stringaa.behind (h : Heap) (s : Stringaa) (n : Nat) : List UInt8 :=
  (List.range (s.bufSize - (n + 1))).map fun i => s.buf.elim 0 fun p => h.byte (p.add (n + 1 + i))

/-- Where the old buffer is kept the path fits into its block. -/
def FitsBlock (h : Heap) (s : Stringaa) (path : List UInt8) : Prop :=
  ∀ p, s.buf = some p → path.length < s.bufSize → p.off + path.length < h.size p.block

/-- The scans find no dot segment, neither in the path nor in what it leaves of the old buffer, and
the path fits into the block of that. -/
def Undisturbed (h : Heap) (s : Stringaa) (path : List UInt8) : Prop :=
  Text.NoDots (path ++ 0 :: s.behind h path.length) ∧ FitsBlock h s path

/-- The request writes nothing behind the block of a buffer that it keeps: the path fits, and the
scans move nothing where the buffer is taken to be longer than the block. -/
def StaysInBlock (h : Heap) (s : Stringaa) (path : List UInt8) : Prop :=
  Undisturbed h s path ∨ (FitsBlock h s path ∧
    ∀ p, s.buf = some p → path.length < s.bufSize → p.off + s.bufSize ≤ h.size p.block)

/-- The URI has an absolute path, and the request stays in the file name's block; the rest of the
program leaves that alone. -/
def Provided : Heap × HttpaaWork → FileNameEvent → Prop
  | (h, http), .request u =>
      ∃ path, (http.withUri u).HasPath h path ∧ StaysInBlock h http.requestFileName path
  | (h, http), .memory h' => h.next ≤ h'.next ∧ ∀ block, http.requestFileName.Owns h block →
      h'.bytes block = h.bytes block ∧ h'.size block = h.size block

/-- The file name is fresh, or has a block for itself. -/
def FileNameOwned (state : Heap × HttpaaWork) : Prop :=
  state.2.requestFileName = {} ∨ ∃ block, state.2.requestFileName.Owns state.1 block

private theorem behind_of_small (h : Heap) (hsmall : s.bufSize ≤ path.length + 1) :
    s.behind h path.length = [] := by
  simp [Stringaa.behind, Nat.sub_eq_zero_of_le hsmall]

private theorem behind_holds (h : Heap) (hbuf : s.buf = some ⟨block, 0⟩) (n : Nat) :
    h.Holds ⟨block, n + 1⟩ (s.behind h n) := by
  intro i hi
  simp only [Stringaa.behind, List.length_map, List.length_range] at hi
  simp [Stringaa.behind, hbuf, hi, Ptr.add, Heap.byte]

theorem stringaaCopy_cases {dst : Stringaa} (hs : s.Gives h p text)
    (howned : dst = {} ∨ ∃ block, dst.Owns h block) :
    ∃ h₁ name block, stringaaCopy h dst s = some (true, h₁, name) ∧
      name.Owns h₁ block ∧ name.writePos = s.writePos ∧
      h₁.Holds ⟨block, 0⟩ (text ++ 0 :: dst.behind h text.length) ∧
      name.bufSize = (text ++ 0 :: dst.behind h text.length).length ∧
      (block = h.next ∧ dst.bufSize ≤ text.length ∧ h₁.size block = text.length + 1 ∨
        dst.buf = some ⟨block, 0⟩ ∧ text.length < dst.bufSize ∧ h₁.size = h.size) ∧
      h.SameBeside h₁ block := by
  by_cases hroom : text.length + 1 ≤ dst.bufSize
  · have howns : ∃ block, dst.Owns h block := by
      refine howned.resolve_left fun hfresh => ?_
      rw [hfresh] at hroom
      simp at hroom
    obtain ⟨block, howns⟩ := howns
    obtain ⟨h₁, name, hcopy, hname, hsize, hwrite, hholds, hblock, hsame⟩ :=
      stringaaCopy_kept hs howns hroom
    refine ⟨h₁, name, block, hcopy, hname, hwrite, hholds _ (behind_holds h howns.buf _), ?_,
      .inr ⟨howns.buf, hroom, hblock⟩, hsame⟩
    simp only [hsize, List.length_append, List.length_cons, Stringaa.behind, List.length_map,
      List.length_range]
    omega
  · have hnew : dst.isAlloc = true → dst.bufSize < text.length + 1 ∧ ∃ block, dst.Owns h block := by
      intro halloc
      refine ⟨Nat.not_le.mp hroom, howned.resolve_left fun hfresh => ?_⟩
      rw [hfresh] at halloc
      cases halloc
    obtain ⟨h₁, name, hcopy, hname, hsize, hwrite, hholds, hblock, hsame⟩ :=
      stringaaCopy_renewed hs hnew
    refine ⟨h₁, name, h.next, hcopy, hname, hwrite, ?_, ?_, .inl ⟨rfl, by omega, hblock⟩, hsame⟩
    · rwa [behind_of_small h (by omega)]
    · rw [behind_of_small h (by omega), hsize]
      simp

private theorem copy_cases (howned : FileNameOwned (h, http)) (hpath : http.HasPath h path) :
    ∃ h₁ name block, stringaaCopy h http.requestFileName
        (http.request.requestLine.requestUri.part .absPath) = some (true, h₁, name) ∧
      name.Owns h₁ block ∧ name.writePos = path.length ∧
      h₁.Holds ⟨block, 0⟩ (path ++ 0 :: http.requestFileName.behind h path.length) ∧
      name.bufSize = (path ++ 0 :: http.requestFileName.behind h path.length).length ∧
      (block = h.next ∧ h₁.size block = path.length + 1 ∨
        http.requestFileName.buf = some ⟨block, 0⟩ ∧ path.length < http.requestFileName.bufSize ∧
          h₁.size = h.size) := by
  obtain ⟨p, hgives⟩ := hpath.gives
  obtain ⟨h₁, name, block, hcopy, hname, hwrite, hholds, hsize, hcase, -⟩ :=
    stringaaCopy_cases hgives howned
  exact ⟨h₁, name, block, hcopy, hname, hwrite.trans hpath.writePos, hholds, hsize,
    hcase.imp_left fun hnew => ⟨hnew.1, hnew.2.2⟩⟩

private theorem requestFileName_undisturbed (howned : FileNameOwned (h, http))
    (hpath : http.HasPath h path) (hclean : Undisturbed h http.requestFileName path) :
    ∃ h' http', httpaaWorkGetRequestFileName h http = some (true, h', http') ∧
      http'.requestFileName.text h' = some path := by
  obtain ⟨h₁, name, block, hcopy, hname, hwrite, hholds, hsize, hcase⟩ := copy_cases howned hpath
  refine requestFileName_noDots http hcopy hname hwrite hholds hsize ?_ hclean.1
  rcases hcase with ⟨-, hblock⟩ | ⟨hbuf, hroom, hblock⟩
  · rw [hblock]
    exact Nat.le_succ _
  · have hfits := hclean.2 _ hbuf hroom
    rw [hblock]
    simp only at hfits
    omega

private theorem fileNameOwned_request {http' : HttpaaWork} {h' : Heap} {ok : Bool}
    (howned : FileNameOwned (h, http)) (hpath : http.HasPath h path)
    (hrun : httpaaWorkGetRequestFileName h http = some (ok, h', http')) :
    FileNameOwned (h', http') := by
  obtain ⟨h₁, name, block, hcopy, hname, -⟩ := copy_cases howned hpath
  have hfirst := removeSegmentPointLoop_sameBeside ⟨block, 0⟩ h₁ name.bufSize .start
  generalize hloop : removeSegmentPointLoop ⟨block, 0⟩ h₁ name.bufSize .start = h₂ at hfirst
  have hsecond := removeSegmentPointsLoop_sameBeside ⟨block, 0⟩ h₂ name.bufSize .start
  rcases hloop' : removeSegmentPointsLoop ⟨block, 0⟩ h₂ name.bufSize .start with ⟨h₃, n⟩
  rw [hloop'] at hsecond
  simp only [httpaaWorkGetRequestFileName, hcopy, uriaaRemoveSegmentPoint, hname.buf, hloop,
    uriaaRemoveSegmentPoints, hloop', Option.bind_eq_bind, Option.bind_some, if_true,
    Option.pure_def, Option.some.injEq, Prod.mk.injEq] at hrun
  obtain ⟨-, rfl, rfl⟩ := hrun
  exact .inr ⟨block, rfl, hname.isInit, hname.isAlloc, hname.isNullTerminated,
    Nat.lt_of_lt_of_le hname.known (hfirst.trans hsecond).next⟩

private theorem fileNameOwned_run {state state' : Heap × HttpaaWork} {events : List FileNameEvent}
    (hrun : Transition.GuardedRun fileNameStep Provided state events state')
    (howned : FileNameOwned state) : FileNameOwned state' := by
  refine hrun.invariant FileNameOwned (fun state event state' howned hok hstep => ?_) howned
  obtain ⟨h, http⟩ := state
  cases event with
  | request u =>
      obtain ⟨path, hpath, -⟩ := hok
      obtain ⟨⟨ok, h', http'⟩, hget, rfl⟩ := Option.map_eq_some_iff.mp hstep
      have howned' : FileNameOwned (h, http.withUri u) := howned
      exact fileNameOwned_request howned' hpath hget
  | memory h' =>
      cases hstep
      refine howned.imp_right fun ⟨block, howns⟩ => ⟨block, howns.buf, howns.isInit, howns.isAlloc,
        howns.isNullTerminated, Nat.lt_of_lt_of_le howns.known hok.1⟩

/-- After any requests that stay in the block of the file name, a request whose scans find no dot
segments has the file name that it has in a fresh `httpaa`. -/
theorem requestFileName_independent {state : Heap × HttpaaWork} {events : List FileNameEvent}
    (hrun : Transition.GuardedRun fileNameStep Provided state events (h, http))
    (hfresh : state.2.requestFileName = {}) {u : Uriaa} (hpath : (http.withUri u).HasPath h path)
    (hclean : Undisturbed h http.requestFileName path) :
    ∃ h' http' h₀ http₀,
      httpaaWorkGetRequestFileName h (http.withUri u) = some (true, h', http') ∧
      httpaaWorkGetRequestFileName h { http.withUri u with requestFileName := {} } =
        some (true, h₀, http₀) ∧
      (http'.requestFileName.text h').isSome ∧
      http'.requestFileName.text h' = http₀.requestFileName.text h₀ := by
  have howned : FileNameOwned (h, http) := fileNameOwned_run hrun (.inl hfresh)
  have howned' : FileNameOwned (h, http.withUri u) := howned
  obtain ⟨h', http', hget, htext⟩ := requestFileName_undisturbed howned' hpath hclean
  have hpath₀ : HttpaaWork.HasPath h { http.withUri u with requestFileName := {} } path :=
    ⟨hpath.gives, hpath.writePos⟩
  obtain ⟨h₀, http₀, hget₀, htext₀⟩ := requestFileName_fresh_noDots hpath₀ rfl hclean.1.withNul
  exact ⟨h', http', h₀, http₀, hget, hget₀, by rw [htext]; rfl, htext.trans htext₀.symm⟩

def climbing : List UInt8 := literal "/../../../../x"

def behindClimbing (size : Nat) : Stringaa :=
  { buf := some ⟨0, 14⟩, bufSize := size, writePos := size, isInit := true }

private theorem climbing_run (path : List UInt8) : ∃ h http,
    Transition.GuardedRun fileNameStep Provided (.ofText (climbing ++ path), {})
      [.request { part := fun _ => .ofText 0 14 }] (h, http) ∧
    (http.withUri { part := fun _ => behindClimbing path.length }).HasPath h path ∧
    http.requestFileName.Owns h 1 ∧ http.requestFileName.bufSize = 12 ∧
    h.Holds ⟨1, 0⟩ (literal "../../../x" ++ [0]) ∧ h.size 1 = 15 := by
  have htext := Heap.holds_append.mp (Heap.ofText_holds (climbing ++ path))
  have hpath : HttpaaWork.HasPath (.ofText (climbing ++ path))
      (({} : HttpaaWork).withUri { part := fun _ => .ofText 0 14 }) climbing :=
    ⟨⟨⟨0, 0⟩, rfl, rfl, rfl, htext.1, Nat.one_pos⟩, rfl⟩
  obtain ⟨h, name, hget, hname, hsize, hholds, hblock, hsame⟩ :=
    requestFileName_fresh_noPoint hpath rfl (by decide)
  have hpasses : Text.removeSegmentPoints [] [] (climbing ++ [0]) =
    literal "../../../x" ++ [0] := by
    rw [show climbing ++ [0] = [slash, dot, dot, slash, dot, dot, slash, dot, dot, slash, dot, dot,
      slash, ch 'x', 0] by decide, show literal "../../../x" ++ [0] = [dot, dot, slash, dot, dot,
      slash, dot, dot, slash, ch 'x', 0] by decide]
    simp [Text.removeSegmentPoints, parent, slash, dot, ch]
  rw [hpasses] at hsize hholds
  have hstep : fileNameStep (.ofText (climbing ++ path), {})
      (.request { part := fun _ => .ofText 0 14 }) = some (h, { ({} : HttpaaWork).withUri
        { part := fun _ => .ofText 0 14 } with requestFileName := name }) := by
    rw [fileNameStep, hget]
    rfl
  have hlength : (literal "../../../x" ++ [0]).length + 1 = 12 := by decide
  have hstays : StaysInBlock (.ofText (climbing ++ path)) ({} : HttpaaWork).requestFileName
      climbing := by
    refine .inr ⟨fun p hbuf => ?_, fun p hbuf => ?_⟩
    · cases hbuf
    · cases hbuf
  refine ⟨h, _, .cons ⟨climbing, hpath, hstays⟩ hstep (.nil _),
    ⟨⟨⟨0, 14⟩, rfl, rfl, rfl, ?_, ?_⟩, rfl⟩, hname, hsize.trans hlength, hholds, hblock⟩
  · exact hsame.holds htext.2 Nat.zero_ne_one
  · exact Nat.lt_of_lt_of_le Nat.one_pos hsame.next

theorem requestFileName_independent_index : ∃ (h : Heap) (http : HttpaaWork),
    ∃ h' http' h₀ http₀,
      httpaaWorkGetRequestFileName h
          (http.withUri { part := fun _ => behindClimbing 15 }) = some (true, h', http') ∧
      httpaaWorkGetRequestFileName h
          { http.withUri { part := fun _ => behindClimbing 15 } with requestFileName := {} } =
        some (true, h₀, http₀) ∧
      (http'.requestFileName.text h').isSome ∧
      http'.requestFileName.text h' = http₀.requestFileName.text h₀ := by
  obtain ⟨h, http, hrun, hpath, howns, hsize, hholds, hblock⟩ :=
    climbing_run (literal "/index.html/abc")
  have hbehind : http.requestFileName.behind h (literal "/index.html/abc").length = [] :=
    behind_of_small h (by rw [hsize]; decide)
  have hclean : Undisturbed h http.requestFileName (literal "/index.html/abc") :=
    ⟨by rw [hbehind]; decide, fun p hp hlt => absurd (hsize ▸ hlt) (by decide)⟩
  exact ⟨h, http, requestFileName_independent hrun rfl hpath hclean⟩

private theorem stale_text (howns : http.requestFileName.Owns h 1)
    (hsize : http.requestFileName.bufSize = 12)
    (hholds : h.Holds ⟨1, 0⟩ (literal "../../../x" ++ [0])) (hblock : h.size 1 = 15)
    (hpath : http.HasPath h (literal "/abc")) :
    ∃ h' http' x, httpaaWorkGetRequestFileName h http = some (true, h', http') ∧
      http'.requestFileName.text h' = some [slash, ch 'x', 0, x] := by
  -- the old buffer goes on behind the NUL
  have hold : h.Holds ⟨1, 5⟩ (literal "/../x" ++ [0]) := by
    rw [show literal "../../../x" ++ [0] = literal "../.." ++ (literal "/../x" ++ [0]) by decide]
      at hholds
    exact (Heap.holds_append.mp hholds).2
  have hbehind := behind_holds h howns.buf 4
  have hlength : (http.requestFileName.behind h 4).length = 7 := by
    simp [Stringaa.behind, hsize]
  obtain ⟨rest, hrest⟩ := hbehind.prefix_iff.mpr ⟨by rw [hlength]; decide, hold⟩
  obtain ⟨x, rfl⟩ : ∃ x, rest = [x] := by
    rw [← hrest, List.length_append] at hlength
    exact List.length_eq_one_iff.mp (by
      have hsix : (literal "/../x" ++ [0]).length = 6 := by decide
      omega)
  obtain ⟨h₁, name, block, hcopy, hname, hwrite, hheld, hbuf, hcase⟩ :=
    copy_cases (.inr ⟨1, howns⟩) hpath
  rw [show (literal "/abc").length = 4 by decide] at hheld hbuf hwrite
  rw [← hrest, show literal "/abc" ++ 0 :: (literal "/../x" ++ [0] ++ [x]) =
    literal "/abc" ++ 0 :: literal "/../x" ++ [0] ++ [x] by simp] at hheld hbuf
  have hpoint : Text.NoPoint (literal "/abc" ++ 0 :: literal "/../x" ++ [0] ++ [x]) := by
    by_cases hx : x = slash
    · rw [hx]
      exact Text.noPoint_slash.mpr ⟨by decide, by decide⟩
    · rw [List.append_assoc]
      have hplain : Text.NoPoint (literal "/abc" ++ 0 :: literal "/../x") := by decide
      exact hplain.append (by simp [Ne.symm hx, show slash ≠ 0 by decide]) (by simp)
  have hquiet : Quiet [x] := fun hinfix => absurd hinfix.length_le (by simp [parent])
  have hpasses : Text.removeSegmentPoints [] []
      (literal "/abc" ++ 0 :: literal "/../x" ++ [0] ++ [x]) = [slash, ch 'x', 0, x] := by
    rw [Text.removeSegmentPoints_tail hquiet (.inr ⟨_, rfl⟩),
      show literal "/abc" ++ 0 :: literal "/../x" ++ [0] = [slash, ch 'a', ch 'b', ch 'c', 0, slash,
        dot, dot, slash, ch 'x', 0] by decide]
    simp [Text.removeSegmentPoints, parent, slash, dot, ch]
  obtain ⟨h', hrun, hend, hsize', -⟩ := requestFileName_run http hcopy hname hheld hbuf hpoint
  rw [hpasses] at hrun hend
  have hfour : 4 ≤ h'.size block := by
    rw [hsize']
    rcases hcase with ⟨-, h⟩ | ⟨h, -, h'⟩
    · rw [h]
      decide
    · rw [howns.buf, Option.some.injEq, Ptr.mk.injEq] at h
      rw [h', ← h.1, hblock]
      decide
  refine ⟨h', _, x, hrun, ?_⟩
  have hload : loadChars h' { name with bufSize := [slash, ch 'x', 0, x].length + 1 } 0 4 =
      some ([slash, ch 'x', 0, x].take 4) :=
    loadChars_of_holds hname.buf (by simpa using hend) (Nat.le_refl 4) (by simpa using hfour)
  rw [Stringaa.text]
  simpa [hwrite] using hload

/-- The visible text is then no longer `/abc`. -/
theorem requestFileName_stale : ¬ ∀ (state : Heap × HttpaaWork) (events : List FileNameEvent)
    (h : Heap) (http : HttpaaWork) (u : Uriaa) (path : List UInt8),
    Transition.GuardedRun fileNameStep Provided state events (h, http) →
      state.2.requestFileName = {} → (http.withUri u).HasPath h path →
      ∃ h' http' h₀ http₀,
        httpaaWorkGetRequestFileName h (http.withUri u) = some (true, h', http') ∧
        httpaaWorkGetRequestFileName h { http.withUri u with requestFileName := {} } =
          some (true, h₀, http₀) ∧
        (http'.requestFileName.text h').isSome ∧
        http'.requestFileName.text h' = http₀.requestFileName.text h₀ := by
  intro hclaim
  obtain ⟨h, http, hrun, hpath, howns, hsize, hholds, hblock⟩ := climbing_run (literal "/abc")
  obtain ⟨h', http', h₀, http₀, hget, hget₀, -, htext⟩ := hclaim _ _ _ _ _ _ hrun rfl hpath
  have hpath₀ : HttpaaWork.HasPath h
      { http.withUri { part := fun _ => behindClimbing (literal "/abc").length } with
        requestFileName := {} } (literal "/abc") :=
    ⟨hpath.gives, hpath.writePos⟩
  obtain ⟨h₁, http₁, hget₁, htext₁⟩ := requestFileName_fresh_noDots hpath₀ rfl (by decide)
  have howns' : (http.withUri
      { part := fun _ => behindClimbing (literal "/abc").length }).requestFileName.Owns h 1 := howns
  obtain ⟨h₂, http₂, x, hget₂, htext₂⟩ := stale_text howns' hsize hholds hblock hpath
  rw [hget₀, Option.some.injEq, Prod.mk.injEq, Prod.mk.injEq] at hget₁
  rw [hget, Option.some.injEq, Prod.mk.injEq, Prod.mk.injEq] at hget₂
  rw [hget₁.2.1, hget₁.2.2, hget₂.2.1, hget₂.2.2, htext₁, htext₂, Option.some.injEq] at htext
  exact absurd (congrArg (·[1]?) htext) (by simp [literal, ch])

end Httpaa
