import Httpaa.Strings.Copy
import Httpaa.Uri.Components
import Httpaa.Uri.Resolve

/-!
# Resolving relative references

`uriaa_resolve_uri`, and section 5.2 of RFC 2396 on the components. The source counts the NUL behind
a merged path as one of its characters when it copies the path, so the last character of the path is
lost; a path that is not merged is copied right.
-/

namespace Httpaa

open Recogniser Heap

/-! ### The function of the source -/

/-- `malloc(n)`, which succeeds. -/
def Heap.alloc (h : Heap) (n : Nat) : Ptr × Heap :=
  (⟨h.next, 0⟩,
    { h with size := fun block => if block = h.next then n else h.size block, next := h.next + 1 })

/-- `memcpy(dst, src, n)`, where `src` may be `NULL` if there is nothing to copy. -/
def Heap.memcpy (h : Heap) (dst : Ptr) (src : Option Ptr) (n : Nat) : Option Heap :=
  match src with
  | some src => some (h.memmove dst src n)
  | none => if n = 0 then some h else none

/-- What `uriaa_resolve_uri` returns: 0, 1, 2 or 3. -/
inductive ResolveResult
  | failed | resolved | isCurrentDocument | isAbsoluteUri
deriving DecidableEq, Repr

def Uriaa.withPart (u : Uriaa) (p : UriPart) (s : Stringaa) : Uriaa :=
  { u with part := fun q => if q = p then s else u.part q }

/-- The component of the base becomes that of the reference, which does not own it. -/
def Uriaa.inherit (u base : Uriaa) (p : UriPart) : Uriaa :=
  u.withPart p { base.part p with isAlloc := false }

/-- There is nothing but a fragment. -/
def Uriaa.isCurrentDocument (u : Uriaa) : Bool :=
  !(u.part .netPath).isInit && !(u.part .absPath).isInit && !(u.part .relPath).isInit &&
    !(u.part .opaquePart).isInit && !(u.part .scheme).isInit && !(u.part .authority).isInit &&
    !(u.part .query).isInit

/-- `is_absolute_path`, for a reference without authority. -/
def Uriaa.isAbsolutePath (h : Heap) (u : Uriaa) : Option Bool :=
  if (u.part .absPath).isInit ∧ (u.part .relPath).isInit = false then some true
  else if (u.part .opaquePart).isInit ∧ (u.part .opaquePart).buf.isSome then do
    let c ← (u.part .opaquePart).charAt h 0
    return c = slash
  else some false

/-- The size of a component without its NUL, taken off where the component has one and is not
empty. -/
def Stringaa.copySize (s : Stringaa) : Nat :=
  if 0 < s.writePos ∧ s.isNullTerminated then s.writePos - 1 else s.writePos

/-- The loop that looks for the last slash from `i` down. Below 0 the index of the source wraps
around. -/
def lastSlash (h : Heap) (s : Stringaa) : Nat → Option Nat
  | 0 => do if (← s.charAt h 0) = slash then return 0 else none
  | i + 1 => do if (← s.charAt h (i + 1)) = slash then return i + 1 else lastSlash h s i

/-- `base_uri_path_copy_size`. The loop only ends where it finds a slash. -/
def basePathCopySize (h : Heap) (s : Stringaa) : Option Nat :=
  if s.isInit ∧ s.buf.isSome ∧ 0 < s.writePos then do
    let i := s.writePos - 1
    let i ← lastSlash h s (if 0 < i ∧ s.isNullTerminated then i - 1 else i)
    return i + 1
  else some 0

def relativePathCopySize (s : Stringaa) : Nat :=
  if s.isInit ∧ s.buf.isSome then s.copySize else 0

/-- The first loop over the merged path and the test behind it, with the size of what is left. -/
def resolvePointLoop (buf : Ptr) (h : Heap) (bufSize : Nat) (scan : SegmentScan) : Heap × Nat :=
  if scan.i < bufSize then
    if h.byte (buf.add scan.i) = slash then
      if scan.i - scan.segment = 1 ∧ h.byte (buf.add (scan.i - 1)) = dot then
        resolvePointLoop buf
          (h.memmove (buf.add scan.segment) (buf.add (scan.i + 1)) (bufSize - scan.i))
          (bufSize - (scan.i + 1 - scan.segment)) scan.back
      else resolvePointLoop buf h bufSize scan.nextSegment
    else resolvePointLoop buf h bufSize scan.nextChar
  else if scan.segment + 1 = bufSize ∧ h.byte (buf.add scan.segment) = dot then
    (h.store (buf.add scan.segment) 0, bufSize)
  else (h, bufSize)
termination_by (bufSize, bufSize - scan.i)
decreasing_by
  · have hle := scan.le
    exact Prod.Lex.left _ _ (by omega)
  · exact Prod.Lex.right _ (by simp only [SegmentScan.nextSegment]; omega)
  · exact Prod.Lex.right _ (by simp only [SegmentScan.nextChar]; omega)

/-- The loop behind the second one: whether the merged path starts with `..`. -/
def startsWithParent (buf : Ptr) (h : Heap) (bufSize i segment : Nat) : Bool :=
  let isParent := segment + 2 = bufSize ∧ h.byte (buf.add segment) = dot ∧
    h.byte (buf.add (segment + 1)) = dot
  if i < bufSize then
    if h.byte (buf.add i) = slash then
      if i - segment = 2 ∧ h.byte (buf.add (i - 1)) = dot ∧ h.byte (buf.add (i - 2)) = dot then true
      else if 0 < i - segment then isParent
      else startsWithParent buf h bufSize (i + 1) (i + 1)
    else startsWithParent buf h bufSize (i + 1) segment
  else isParent
termination_by bufSize - i

/-- The branch that merges the paths; whether it goes on. -/
def uriaaMergePath (h : Heap) (u base : Uriaa) : Option (Bool × Heap × Uriaa) := do
  let baseSize ← basePathCopySize h (base.part .absPath)
  let relativeSize := relativePathCopySize (u.part .relPath)
  let bufSize := baseSize + relativeSize + 1
  let (buf, h) := h.alloc bufSize
  let h ← h.memcpy buf (base.part .absPath).buf baseSize
  let h ← h.memcpy (buf.add baseSize) (u.part .relPath).buf relativeSize
  let h := h.store (buf.add (bufSize - 1)) 0
  let h := if (u.part .path).isAlloc then h.free (u.part .path).buf else h
  let (h, size) := resolvePointLoop buf h (bufSize - 1) .start
  let (h, size) := removeSegmentPointsLoop buf h size .start
  let path : Stringaa :=
    { buf := some buf, bufSize := size + 1, writePos := size + 1 - 1, isInit := true
      isAlloc := true, isNullTerminated := true }
  return (!startsWithParent buf h size 0 0, h, u.withPart .path path)

/-- `memcpy` of a component behind what is written so far. -/
def copyString (buf : Ptr) (s : Stringaa) (out : Heap × Nat) : Option (Heap × Nat) := do
  let h ← out.1.memcpy (buf.add out.2) s.buf s.copySize
  return (h, out.2 + s.copySize)

/-- `memcpy` of characters behind what is written so far. -/
def copyChars (buf : Ptr) (text : List UInt8) (out : Heap × Nat) : Heap × Nat :=
  (out.1.storeAll (buf.add out.2) text, out.2 + text.length)

/-- A component, if it is set, with its delimiters. -/
def copyPart (buf : Ptr) (front back : List UInt8) (s : Stringaa) (out : Heap × Nat) :
    Option (Heap × Nat) :=
  if s.isInit then do
    let out ← copyString buf s (copyChars buf front out)
    return copyChars buf back out
  else some out

/-- The size of the resolved reference with its NUL. -/
def resolvedSize (u : Uriaa) (isPathTaken : Bool) : Nat :=
  let size p n := if (u.part p).isInit then (u.part p).writePos + n else 0
  size .scheme 1 + size .authority 2 +
    (if isPathTaken then (u.part .absPath).writePos else size .path 0) +
    size .query 1 + size .fragment 1 + 1

/-- The second half: the components one after the other. The path is that of the reference or the
merged one. -/
def uriaaAssemble (h : Heap) (u : Uriaa) (isPathTaken : Bool) :
    Option (ResolveResult × Heap × Uriaa) := do
  let bufSize := resolvedSize u isPathTaken
  let (buf, h) := h.alloc bufSize
  let out ← copyPart buf [] [ch ':'] (u.part .scheme) (h, 0)
  let out ← copyPart buf [ch '/', ch '/'] [] (u.part .authority) out
  let out ← if isPathTaken then copyString buf (u.part .absPath) out
    else copyPart buf [] [] (u.part .path) out
  let out ← copyPart buf [ch '?'] [] (u.part .query) out
  let out ← copyPart buf [ch '#'] [] (u.part .fragment) out
  let uri : Stringaa :=
    { buf := some buf, bufSize, readPos := out.2, writePos := bufSize - 1, isInit := true
      isAlloc := true, isNullTerminated := true }
  return (.resolved, out.1.store (buf.add out.2) 0, { u with uri })

def uriaaResolveUri (h : Heap) (u base : Uriaa) : Option (ResolveResult × Heap × Uriaa) :=
  if u.isCurrentDocument then some (.isCurrentDocument, h, u)
  else if (u.part .scheme).isInit then some (.isAbsoluteUri, h, u)
  else
    let u := u.inherit base .scheme
    if (u.part .authority).isInit then uriaaAssemble h u true
    else do
      let u := u.inherit base .authority
      if ← u.isAbsolutePath h then uriaaAssemble h u true
      else
        let (isMerged, h, u) ← uriaaMergePath h u base
        if isMerged then uriaaAssemble h u false else return (.failed, h, u)

/-! ### Section 5.2 of RFC 2396 -/

namespace Rfc2396

/-- The base path up to its last slash. -/
def upToLastSlash (path : List UInt8) : List UInt8 :=
  (path.reverse.dropWhile (· ≠ slash)).reverse

/-- The segments without `.` and without `<segment>/..`; a last segment that is removed leaves an
empty one. What is kept stands in reverse order. -/
def withoutDots (kept : List (List UInt8)) : List (List UInt8) → List (List UInt8)
  | [] => kept.reverse
  | s :: rest =>
    if s = [dot] then
      if rest = [] then ([] :: kept).reverse else withoutDots kept rest
    else if s = parent then
      match kept with
      | t :: kept' =>
        if t = parent then withoutDots (s :: kept) rest
        else if rest = [] then ([] :: kept').reverse
        else withoutDots kept' rest
      | [] => withoutDots [s] rest
    else withoutDots (s :: kept) rest

/-- The path of the reference behind the base path, step 6. -/
def mergedPath (base relative : List UInt8) : List UInt8 :=
  let merged := upToLastSlash base ++ relative
  slash :: [slash].intercalate (withoutDots [] (merged.tail.splitOn slash))

/-- `../g` against `/b/c/d`. -/
example : mergedPath [ch '/', ch 'b', ch '/', ch 'c', ch '/', ch 'd']
    [ch '.', ch '.', ch '/', ch 'g'] =
    [ch '/', ch 'b', ch '/', ch 'g'] := by decide

/-- The path of a resolved reference, steps 4 to 6. A path that starts with a slash is the
`abs_path` form. -/
def resolvedPath (h : Heap) (u base : Uriaa) : List UInt8 :=
  if (u.component h .authority).isSome then (u.component h .absPath).getD []
  else if (u.component h .relPath).isNone ∧ (u.component h .absPath).isSome then
    (u.component h .absPath).getD []
  else mergedPath ((base.component h .absPath).getD []) ((u.component h .relPath).getD [])

open HierarchicalUri (whenPresent)

/-- The resolved reference, steps 3 to 7, for a base with scheme and authority. -/
def resolved (h : Heap) (u base : Uriaa) : List UInt8 :=
  (base.component h .scheme).getD [] ++ [ch ':'] ++
    ([ch '/', ch '/'] ++ ((u.component h .authority).or (base.component h .authority)).getD []) ++
    resolvedPath h u base ++
    (whenPresent (u.component h .query) fun text => ch '?' :: text) ++
    whenPresent (u.component h .fragment) fun text => ch '#' :: text

end Rfc2396

section Assembly

variable {h h₀ h' : Heap} {buf src : Ptr} {s : Stringaa} {out out' : Heap × Nat}
  {text piece front back : List UInt8} {found query fragment : Option (List UInt8)}
  {u base r : Uriaa}
  {sizes : Nat → Nat} {scheme authority : List UInt8}

/-! ### Putting the components together -/

theorem Stringaa.copySize_le (s : Stringaa) : s.copySize ≤ s.writePos := by
  rw [Stringaa.copySize]
  split <;> omega

/-- What a copy takes of the string is the text, in a block that has been handed out. -/
structure Stringaa.Offers (h : Heap) (s : Stringaa) (text : List UInt8) : Prop where
  copySize : s.copySize = text.length
  holds : text ≠ [] → ∃ src, s.buf = some src ∧ h.Holds src text ∧ src.block < h.next

/-- The component is set and offers the text, or it is not set. -/
def Stringaa.OffersPart (h : Heap) (s : Stringaa) : Option (List UInt8) → Prop
  | some text => s.isInit = true ∧ s.Offers h text
  | none => s.isInit = false

theorem Stringaa.Carries.offers (hs : s.Carries h text) : s.Offers h text :=
  ⟨by rw [Stringaa.copySize, hs.isNullTerminated, if_neg (by simp), hs.writePos],
    fun _ => hs.holds⟩

theorem Stringaa.CarriesPart.offersPart (hs : s.CarriesPart h found) : s.OffersPart h found := by
  cases found with
  | none => exact hs.1
  | some text => exact ⟨Stringaa.Carries.isInit hs, Stringaa.Carries.offers hs⟩

theorem Stringaa.CarriesPart.offers (hs : s.CarriesPart h found) :
    s.Offers h (found.getD []) := by
  cases found with
  | none => exact ⟨by simp [Stringaa.copySize, hs.2.2], fun hne => absurd rfl hne⟩
  | some text => exact Stringaa.Carries.offers hs

/-- What has been written so far, next to memory that is as it was in all other blocks. -/
structure Written (h₀ : Heap) (sizes : Nat → Nat) (buf : Ptr) (text : List UInt8)
    (out : Heap × Nat) : Prop where
  holds : out.1.Holds buf text
  pos : out.2 = text.length
  size : out.1.size = sizes
  others : ∀ p : Ptr, p.block ≠ buf.block → out.1.byte p = h₀.byte p

theorem Heap.memcpy_behind {h : Heap} {src : Option Ptr} (hfront : h.Holds buf front)
    (hpiece : piece ≠ [] → ∃ p, src = some p ∧ h.Holds p piece ∧ p.block ≠ buf.block) :
    ∃ h', h.memcpy (buf.add front.length) src piece.length = some h' ∧
      h'.Holds buf (front ++ piece) ∧ h.SameBeside h' buf.block ∧ h'.size = h.size ∧
      h'.next = h.next := by
  by_cases hempty : piece = []
  · subst hempty
    cases src with
    | none => exact ⟨h, rfl, by simpa using hfront, .refl .., rfl, rfl⟩
    | some p =>
        refine ⟨_, rfl, ?_, h.memmove_sameBeside _ _ _, rfl, rfl⟩
        rw [List.append_nil]
        exact hfront.memmove_apart (.inr (.inl (Nat.le_refl _)))
  · obtain ⟨p, rfl, hholds, -⟩ := hpiece hempty
    refine ⟨_, rfl, ?_, h.memmove_sameBeside _ _ _, rfl, rfl⟩
    exact holds_append.mpr ⟨hfront.memmove_apart (.inr (.inl (Nat.le_refl _))),
      hholds.memmove (Nat.le_refl _)⟩

theorem Written.chars (hout : Written h₀ sizes buf text out) (piece : List UInt8) :
    Written h₀ sizes buf (text ++ piece) (copyChars buf piece out) := by
  refine ⟨?_, ?_, hout.size, fun p hp => ?_⟩
  · rw [copyChars, hout.pos]
    exact hout.holds.storeAll_behind
  · rw [copyChars, List.length_append, hout.pos]
  · have hne : p.block ≠ (buf.add out.2).block := hp
    exact (Heap.storeAll_byte_of_ne hne).trans (hout.others p hp)

theorem Written.string (hout : Written h₀ sizes buf text out) (hs : s.Offers h₀ piece)
    (hbuf : buf.block = h₀.next) :
    ∃ out', copyString buf s out = some out' ∧ Written h₀ sizes buf (text ++ piece) out' := by
  have hpiece (hne : piece ≠ []) :
      ∃ src, s.buf = some src ∧ out.1.Holds src piece ∧ src.block ≠ buf.block := by
    obtain ⟨src, hsrc, hholds, hblock⟩ := hs.holds hne
    have hapart : src.block ≠ buf.block := by omega
    refine ⟨src, hsrc, fun i hi => ?_, hapart⟩
    rw [hout.others (src.add i) hapart]
    exact hholds i hi
  obtain ⟨h', hcopy, hheld, hsame, hsize, -⟩ := Heap.memcpy_behind hout.holds hpiece
  refine ⟨(h', out.2 + s.copySize), ?_, hheld, ?_, hsize.trans hout.size, fun p hp => ?_⟩
  · rw [copyString, hs.copySize, hout.pos, hcopy]
    rfl
  · rw [hs.copySize, List.length_append, hout.pos]
  · exact (congrFun (hsame.bytes p.block hp) p.off).trans (hout.others p hp)

open HierarchicalUri (whenPresent)

theorem Written.part (hout : Written h₀ sizes buf text out) (hs : s.OffersPart h₀ found)
    (hbuf : buf.block = h₀.next) (front back : List UInt8) :
    ∃ out', copyPart buf front back s out = some out' ∧
      Written h₀ sizes buf
        (text ++ whenPresent found fun piece => front ++ piece ++ back) out' := by
  cases found with
  | none =>
      refine ⟨out, ?_, by simpa [whenPresent] using hout⟩
      have hunset : s.isInit = false := hs
      rw [copyPart, if_neg (by simp [hunset])]
  | some piece =>
      obtain ⟨out', hcopy, hwritten⟩ := (hout.chars front).string hs.2 hbuf
      refine ⟨copyChars buf back out', ?_, ?_⟩
      · rw [copyPart, if_pos hs.1, hcopy]
        rfl
      · simpa [whenPresent] using hwritten.chars back

theorem Stringaa.CarriesPart.size (hs : s.CarriesPart h found) (n : Nat) :
    (if s.isInit then s.writePos + n else 0) = found.elim 0 fun piece => piece.length + n := by
  cases found with
  | none => rw [if_neg (by simp [hs.1])]; rfl
  | some piece =>
      have hs' : s.Carries h piece := hs
      rw [if_pos hs'.isInit, hs'.writePos]
      rfl

def assembled (scheme authority : Option (List UInt8)) (path : List UInt8)
    (query fragment : Option (List UInt8)) : List UInt8 :=
  (whenPresent scheme fun text => text ++ [ch ':']) ++
    (whenPresent authority fun text => [ch '/', ch '/'] ++ text) ++ path ++
    (whenPresent query fun text => ch '?' :: text) ++
    whenPresent fragment fun text => ch '#' :: text

theorem Stringaa.OffersPart.size (hs : s.OffersPart h found) (n : Nat) :
    (found.elim 0 fun piece => piece.length + n) ≤ if s.isInit then s.writePos + n else 0 := by
  cases found with
  | none => exact Nat.zero_le _
  | some piece =>
      have hle := s.copySize_le
      rw [hs.2.copySize] at hle
      rw [if_pos hs.1, Option.elim_some]
      omega

/-- The components one after the other with a NUL behind them, in a new block that has room for
them. -/
theorem uriaaAssemble_holds {scheme authority : Option (List UInt8)} {path : List UInt8}
    {isPathTaken : Bool} (hscheme : (u.part .scheme).OffersPart h scheme)
    (hauthority : (u.part .authority).OffersPart h authority)
    (hpath : if isPathTaken then (u.part .absPath).Offers h path
      else (u.part .path).OffersPart h (some path))
    (hquery : (u.part .query).OffersPart h query)
    (hfragment : (u.part .fragment).OffersPart h fragment) :
    ∃ h', uriaaAssemble h u isPathTaken = some (.resolved, h', { u with uri :=
        { buf := some ⟨h.next, 0⟩, bufSize := resolvedSize u isPathTaken
          readPos := (assembled scheme authority path query fragment).length
          writePos := resolvedSize u isPathTaken - 1, isInit := true, isAlloc := true
          isNullTerminated := true } }) ∧
      h'.Holds ⟨h.next, 0⟩ (assembled scheme authority path query fragment ++ [0]) ∧
      h'.size h.next = resolvedSize u isPathTaken ∧
      (assembled scheme authority path query fragment).length < resolvedSize u isPathTaken := by
  have hstart : Written h (h.alloc (resolvedSize u isPathTaken)).2.size ⟨h.next, 0⟩ []
      ((h.alloc (resolvedSize u isPathTaken)).2, 0) :=
    ⟨Heap.holds_nil, rfl, rfl, fun _ _ => rfl⟩
  obtain ⟨out₁, hcopy₁, hout₁⟩ := hstart.part hscheme rfl [] [ch ':']
  obtain ⟨out₂, hcopy₂, hout₂⟩ := hout₁.part hauthority rfl [ch '/', ch '/'] []
  have hpathWritten : ∃ out₃, (if isPathTaken then copyString ⟨h.next, 0⟩ (u.part .absPath) out₂
      else copyPart ⟨h.next, 0⟩ [] [] (u.part .path) out₂) = some out₃ ∧
        Written h (h.alloc (resolvedSize u isPathTaken)).2.size ⟨h.next, 0⟩
          (([] ++ (whenPresent scheme fun text => [] ++ text ++ [ch ':']) ++
            (whenPresent authority fun text => [ch '/', ch '/'] ++ text ++ [])) ++ path) out₃ := by
    cases isPathTaken with
    | true => exact hout₂.string hpath rfl
    | false =>
        have hmerged : (u.part .path).OffersPart h (some path) := hpath
        simpa [whenPresent] using hout₂.part hmerged rfl [] []
  obtain ⟨out₃, hcopy₃, hout₃⟩ := hpathWritten
  obtain ⟨out₄, hcopy₄, hout₄⟩ := hout₃.part hquery rfl [ch '?'] []
  obtain ⟨out₅, hcopy₅, hout₅⟩ := hout₄.part hfragment rfl [ch '#'] []
  have hwritten : Written h (h.alloc (resolvedSize u isPathTaken)).2.size ⟨h.next, 0⟩
      (assembled scheme authority path query fragment) out₅ := by
    simpa [assembled] using hout₅
  refine ⟨out₅.1.store (Ptr.add ⟨h.next, 0⟩ out₅.2) 0, ?_, ?_, ?_, ?_⟩
  · simp only [uriaaAssemble]
    rw [show (h.alloc (resolvedSize u isPathTaken)).1 = ⟨h.next, 0⟩ from rfl]
    cases isPathTaken <;> simp only [if_true, Bool.false_eq_true, if_false] at hcopy₃ ⊢ <;>
      simp only [Option.bind_eq_bind, hcopy₁, hcopy₂, hcopy₃, hcopy₄, hcopy₅, Option.bind_some,
        ← hwritten.pos] <;> rfl
  · rw [hwritten.pos]
    refine Heap.holds_append.mpr ⟨hwritten.holds.store_apart (.inr (.inl (by simp [Ptr.add]))),
      Heap.holds_cons.mpr ⟨Heap.store_byte, Heap.holds_nil⟩⟩
  · rw [Heap.store_size, hwritten.size]
    simp [Heap.alloc]
  · have hpathSize : path.length ≤ if isPathTaken then (u.part .absPath).writePos
        else if (u.part .path).isInit then (u.part .path).writePos + 0 else 0 := by
      cases isPathTaken with
      | true =>
          have hoffers : (u.part .absPath).Offers h path := hpath
          rw [if_pos rfl, ← hoffers.copySize]
          exact Stringaa.copySize_le _
      | false =>
          have hmerged : (u.part .path).OffersPart h (some path) := hpath
          exact hmerged.size 0
    have hsizes := Nat.add_le_add (Nat.add_le_add (hscheme.size 1) (hauthority.size 2)) hpathSize
    have hsizes' := Nat.add_le_add (hquery.size 1) (hfragment.size 1)
    have hlength : (assembled scheme authority path query fragment).length =
        (scheme.elim 0 fun piece => piece.length + 1) +
          (authority.elim 0 fun piece => piece.length + 2) + path.length +
          ((query.elim 0 fun piece => piece.length + 1) +
            fragment.elim 0 fun piece => piece.length + 1) := by
      cases scheme <;> cases authority <;> cases query <;> cases fragment <;>
        simp [assembled, whenPresent] <;> omega
    rw [hlength]
    simp only [resolvedSize]
    omega

theorem uriaaAssemble_taken (hscheme : (u.part .scheme).Carries h scheme)
    (hauthority : (u.part .authority).Carries h authority)
    (hpath : (u.part .absPath).CarriesPart h found)
    (hquery : (u.part .query).CarriesPart h query)
    (hfragment : (u.part .fragment).CarriesPart h fragment) :
    ∃ h' r, uriaaAssemble h u true = some (.resolved, h', r) ∧ r.uri.Shows h' ⟨0,
      scheme ++ [ch ':'] ++ ([ch '/', ch '/'] ++ authority) ++ found.getD [] ++
        (whenPresent query fun text => ch '?' :: text) ++
        whenPresent fragment fun text => ch '#' :: text⟩ := by
  have hschemePart : (u.part .scheme).CarriesPart h (some scheme) := hscheme
  have hauthorityPart : (u.part .authority).CarriesPart h (some authority) := hauthority
  have hpathOffers : if true = true then (u.part .absPath).Offers h (found.getD [])
      else (u.part .path).OffersPart h (some (found.getD [])) := hpath.offers
  obtain ⟨h', hrun, hholds, hblock, -⟩ := uriaaAssemble_holds hschemePart.offersPart
    hauthorityPart.offersPart hpathOffers hquery.offersPart hfragment.offersPart
  have hpathSize : (u.part .absPath).writePos = (found.getD []).length := by
    cases found with
    | none => exact hpath.2.2
    | some piece => exact Stringaa.Carries.writePos hpath
  generalize htext : assembled (some scheme) (some authority) (found.getD []) query fragment = text
    at hrun hholds
  have hsize : resolvedSize u true = text.length + 1 := by
    simp only [resolvedSize, hschemePart.size, hauthorityPart.size, hquery.size, hfragment.size,
      if_true, hpathSize, ← htext]
    cases query <;> cases fragment <;> simp [assembled, whenPresent] <;> omega
  refine ⟨h', _, hrun, ?_, ?_⟩
  · rw [← htext] at hsize
    simp only [assembled, whenPresent, Option.elim_some] at hsize
    simp [hsize, whenPresent]
  · intro i hi
    have hi' : i < text.length := by
      rw [← htext]
      simpa [assembled, whenPresent] using hi
    have hchar := hholds i (by simp; omega)
    rw [List.getElem?_append_left hi'] at hchar
    rw [Nat.zero_add, Stringaa.charAt, Option.bind_some, Heap.load, if_pos]
    · refine hchar.symm.trans ?_
      rw [← htext]
      simp [assembled, whenPresent]
    · simp only [Ptr.add, hblock, hsize]
      omega

private theorem copyString_pos (hcopy : copyString buf s out = some out') :
    out'.2 = out.2 + s.copySize := by
  rw [copyString, Option.bind_eq_bind, Option.bind_eq_some_iff] at hcopy
  obtain ⟨h, -, heq⟩ := hcopy
  rw [← Option.some.inj heq]

private theorem copyPart_pos (hcopy : copyPart buf front back s out = some out') :
    out'.2 = out.2 + if s.isInit then front.length + s.copySize + back.length else 0 := by
  rw [copyPart] at hcopy
  split at hcopy
  · rw [Option.bind_eq_bind, Option.bind_eq_some_iff] at hcopy
    obtain ⟨out₁, hstring, heq⟩ := hcopy
    have hpos := copyString_pos hstring
    rw [← Option.some.inj heq]
    simp only [copyChars] at hpos ⊢
    rename_i hinit
    rw [if_pos hinit, hpos]
    omega
  · rename_i hinit
    rw [Option.some.inj hcopy, if_neg hinit]
    rfl

private theorem copySize_of_not (hnul : s.isNullTerminated = false) : s.copySize = s.writePos := by
  rw [Stringaa.copySize, hnul, if_neg (by simp)]

theorem Stringaa.CarriesPart.isNullTerminated (hs : s.CarriesPart h found) :
    s.isNullTerminated = false := by
  cases found with
  | none => exact hs.2.1
  | some piece => exact Stringaa.Carries.isNullTerminated hs

private theorem copyPart_pos_of (hs : s.CarriesPart h found)
    (hcopy : copyPart buf front back s out = some out') :
    out'.2 = out.2 + found.elim 0 fun piece => piece.length + (front.length + back.length) := by
  rw [copyPart_pos hcopy, copySize_of_not hs.isNullTerminated, ← hs.size]
  split <;> omega

private theorem uriaaMergePath_path {ok : Bool}
    (hmerge : uriaaMergePath h u base = some (ok, h', r)) :
    (r.part .path).isInit = true ∧ (r.part .path).isNullTerminated = true ∧
      ∀ p, p ≠ .path → r.part p = u.part p := by
  simp only [uriaaMergePath, Option.bind_eq_bind, Option.bind_eq_some_iff] at hmerge
  obtain ⟨baseSize, -, h₁, -, h₂, -, -, -, rfl⟩ := hmerge
  exact ⟨by simp [Uriaa.withPart], by simp [Uriaa.withPart], fun p hp => by
    simp [Uriaa.withPart, hp]⟩

private theorem uriaaAssemble_merged (hscheme : (u.part .scheme).CarriesPart h₀ (some scheme))
    (hauthority : (u.part .authority).CarriesPart h₀ (some authority))
    (hpath : (u.part .path).isInit = true) (hnul : (u.part .path).isNullTerminated = true)
    (hquery : (u.part .query).CarriesPart h₀ query)
    (hfragment : (u.part .fragment).CarriesPart h₀ fragment)
    (hassemble : uriaaAssemble h u false = some (.resolved, h', r))
    (hshows : r.uri.Shows h' ⟨0, text⟩) : 0 ∈ text ∨
      text.length = scheme.length + 1 + (authority.length + 2) +
        (query.elim 0 fun piece => piece.length + 1) +
        fragment.elim 0 fun piece => piece.length + 1 := by
  simp only [uriaaAssemble, Option.bind_eq_bind, Option.bind_eq_some_iff, Bool.false_eq_true,
    if_false] at hassemble
  obtain ⟨out₁, hcopy₁, out₂, hcopy₂, out₃, hcopy₃, out₄, hcopy₄, out₅, hcopy₅, rfl, rfl⟩ :=
    hassemble
  have hlength : 0 + text.length = resolvedSize u false - 1 := hshows.length
  simp only [resolvedSize, hscheme.size, hauthority.size, hquery.size, hfragment.size, hpath,
    if_true, Bool.false_eq_true, if_false, Option.elim_some] at hlength
  by_cases hzero : 0 < (u.part .path).writePos
  · left
    have hcopySize : (u.part .path).copySize = (u.part .path).writePos - 1 := by
      rw [Stringaa.copySize, hnul, if_pos ⟨hzero, rfl⟩]
    have hpos : out₅.2 + 1 = text.length := by
      rw [copyPart_pos_of hfragment hcopy₅, copyPart_pos_of hquery hcopy₄, copyPart_pos hcopy₃,
        copyPart_pos_of hauthority hcopy₂, copyPart_pos_of hscheme hcopy₁, hcopySize, if_pos hpath]
      simp only [List.length_cons, List.length_nil, Option.elim_some, Nat.zero_add, Nat.add_zero]
      omega
    have hchar := hshows.char out₅.2 (by simp only; omega)
    simp only [Nat.zero_add, Stringaa.charAt, Option.bind_some, Heap.load] at hchar
    split at hchar
    · have hlast : some (0 : UInt8) = text[out₅.2]? :=
        (congrArg some Heap.store_byte).symm.trans hchar
      exact List.mem_of_getElem? hlast.symm
    · rw [List.getElem?_eq_getElem (by omega)] at hchar
      cases hchar
  · right
    omega

end Assembly

/-! ### No NUL in a path -/

namespace Rfc2396

variable {base relative : List UInt8} {kept segs : List (List UInt8)} {x : UInt8} {s : List UInt8}

private theorem mem_withoutDots (hs : s ∈ withoutDots kept segs) :
    s = [] ∨ s ∈ kept ∨ s ∈ segs := by
  fun_induction withoutDots kept segs <;> grind

private theorem mem_of_join (hx : x ∈ [slash].intercalate segs) :
    x = slash ∨ ∃ s ∈ segs, x ∈ s := by
  induction segs with
  | nil => simp at hx
  | cons s segs ih =>
      cases segs with
      | nil => exact .inr ⟨s, List.mem_singleton_self s, by simpa using hx⟩
      | cons s' segs =>
          rw [List.intercalate_cons_of_ne_nil (by simp), List.mem_append, List.mem_append,
            List.mem_singleton] at hx
          rcases hx with (hx | hx) | hx
          · exact .inr ⟨s, List.mem_cons_self .., hx⟩
          · exact .inl hx
          · exact (ih hx).imp_right fun ⟨s'', hs'', hmem⟩ =>
              ⟨s'', List.mem_cons_of_mem _ hs'', hmem⟩

theorem join_mem (hs : s ∈ segs) (hx : x ∈ s) : x ∈ [slash].intercalate segs := by
  induction segs with
  | nil => cases hs
  | cons s' segs ih =>
      cases segs with
      | nil =>
          rw [List.mem_singleton.mp hs] at hx
          simpa using hx
      | cons s'' segs =>
          rw [List.intercalate_cons_of_ne_nil (by simp), List.mem_append, List.mem_append]
          rcases List.mem_cons.mp hs with rfl | hs
          · exact .inl (.inl hx)
          · exact .inr (ih hs)

private theorem mergedPath_noNul (hbase : 0 ∉ base) (hrelative : 0 ∉ relative) :
    0 ∉ mergedPath base relative := by
  have hslash : (0 : UInt8) ≠ slash := by decide
  rw [mergedPath, List.mem_cons, not_or]
  refine ⟨hslash, fun hmem => ?_⟩
  rcases mem_of_join hmem with heq | ⟨s, hs, hzero⟩
  · exact hslash heq
  · rcases mem_withoutDots hs with rfl | hkept | hseg
    · cases hzero
    · cases hkept
    · have hjoin := join_mem hseg hzero
      rw [List.intercalate_splitOn] at hjoin
      rcases List.mem_append.mp (List.mem_of_mem_tail hjoin) with hfront | hback
      · refine hbase ?_
        rw [upToLastSlash, List.mem_reverse] at hfront
        exact List.mem_reverse.mp ((List.dropWhile_suffix _).subset hfront)
      · exact hrelative hback

end Rfc2396

/-! ### Which references are resolved -/

/-- The reference is resolved to the text of section 5.2. -/
def Uriaa.Resolves (h : Heap) (u base : Uriaa) : Prop :=
  ∃ h' r, uriaaResolveUri h u base = some (.resolved, h', r) ∧
    r.uri.Shows h' ⟨0, Rfc2396.resolved h u base⟩

/-- The reference has an authority, or a path that starts with a slash. -/
def Uriaa.KeepsPath (h : Heap) (u : Uriaa) : Prop :=
  (u.component h .authority).isSome ∨
    (u.component h .relPath).isNone ∧ (u.component h .absPath).isSome

section Resolves

open HierarchicalUri (whenPresent)

variable {h : Heap} {u base : Uriaa} {baseText relativeText : List UInt8}
  {scheme authority : List UInt8}

private theorem inherit_carries {found : Option (List UInt8)} {p : UriPart}
    (hs : (base.part p).CarriesPart h found) : ((u.inherit base p).part p).CarriesPart h found := by
  cases found with
  | none => simpa [Uriaa.inherit, Uriaa.withPart, Stringaa.CarriesPart] using hs
  | some text =>
      have hs' : (base.part p).Carries h text := hs
      change Stringaa.Carries h _ text
      simpa [Uriaa.inherit, Uriaa.withPart] using (⟨hs'.isInit, hs'.isNullTerminated, hs'.writePos,
        hs'.noNul, hs'.holds⟩ : Stringaa.Carries h { base.part p with isAlloc := false } text)

@[simp] theorem inherit_part_of_ne {p q : UriPart} (hne : q ≠ p) :
    (u.inherit base p).part q = u.part q := by
  simp [Uriaa.inherit, Uriaa.withPart, hne]

private theorem resolves_of_keepsPath (hheap : h.WellFormed) (hbase : Parsed h baseText base)
    (hu : Parsed h relativeText u) (hscheme : base.component h .scheme = some scheme)
    (hauthority : base.component h .authority = some authority)
    (hnone : u.component h .scheme = none) (hkeeps : u.KeepsPath h) : u.Resolves h base := by
  have hnotScheme : (u.part .scheme).isInit = false := by
    rw [Uriaa.isInit_iff (h := h), hnone]
    rfl
  have hdocument : u.isCurrentDocument = false := by
    simp only [Uriaa.isCurrentDocument, Uriaa.isInit_iff (h := h)]
    rcases hkeeps with h | ⟨-, h⟩ <;> simp [h]
  have hbaseScheme : (base.part .scheme).CarriesPart h (some scheme) :=
    hscheme ▸ hbase.carries hheap .scheme
  have hbaseAuthority : (base.part .authority).CarriesPart h (some authority) :=
    hauthority ▸ hbase.carries hheap .authority
  have hkept (p : UriPart) (hp : p ≠ .scheme) :
      ((u.inherit base .scheme).part p).CarriesPart h (u.component h p) := by
    rw [inherit_part_of_ne hp]
    exact hu.carries hheap p
  cases hset : u.component h .authority with
  | some own =>
      have hown : ((u.inherit base .scheme).part .authority).CarriesPart h (some own) :=
        hset ▸ hkept .authority (by decide)
      obtain ⟨h', r, hrun, hshows⟩ := uriaaAssemble_taken (u := u.inherit base .scheme)
        (inherit_carries hbaseScheme) hown (hkept .absPath (by decide))
        (hkept .query (by decide)) (hkept .fragment (by decide))
      have hinit : ((u.inherit base .scheme).part .authority).isInit = true := by
        rw [inherit_part_of_ne (by decide), Uriaa.isInit_iff (h := h), hset]
        rfl
      refine ⟨h', r, ?_, ?_⟩
      · rw [uriaaResolveUri, hdocument, hnotScheme]
        simp only [Bool.false_eq_true, if_false, hinit, if_true]
        exact hrun
      · simpa [Rfc2396.resolved, Rfc2396.resolvedPath, hset, hscheme] using hshows
  | none =>
      obtain ⟨hrel, habs⟩ := hkeeps.resolve_left (by simp [hset])
      have hinit : ((u.inherit base .scheme).part .authority).isInit = false := by
        rw [inherit_part_of_ne (by decide), Uriaa.isInit_iff (h := h), hset]
        rfl
      generalize hv : (u.inherit base .scheme).inherit base .authority = v
      have hsame (p : UriPart) (hp : p ≠ .scheme ∧ p ≠ .authority) : v.part p = u.part p := by
        rw [← hv, inherit_part_of_ne hp.2, inherit_part_of_ne hp.1]
      have hkept' (p : UriPart) (hp : p ≠ .scheme ∧ p ≠ .authority) :
          (v.part p).CarriesPart h (u.component h p) := by
        rw [hsame p hp]
        exact hu.carries hheap p
      have habsolute : v.isAbsolutePath h = some true := by
        rw [Uriaa.isAbsolutePath, hsame _ (by decide), hsame _ (by decide),
          Uriaa.isInit_iff (h := h), Uriaa.isInit_iff (h := h),
          Option.isNone_iff_eq_none.mp hrel, habs]
        rfl
      have hvScheme : (v.part .scheme).CarriesPart h (some scheme) := by
        rw [← hv, inherit_part_of_ne (by decide)]
        exact inherit_carries hbaseScheme
      have hvAuthority : (v.part .authority).CarriesPart h (some authority) := by
        rw [← hv]
        exact inherit_carries hbaseAuthority
      obtain ⟨h', r, hrun, hshows⟩ := uriaaAssemble_taken (u := v) hvScheme hvAuthority
        (hkept' .absPath (by decide)) (hkept' .query (by decide)) (hkept' .fragment (by decide))
      refine ⟨h', r, ?_, ?_⟩
      · rw [uriaaResolveUri, hdocument, hnotScheme]
        simp only [Bool.false_eq_true, if_false, hinit, hv, habsolute, Option.bind_eq_bind,
          Option.bind_some, if_true]
        exact hrun
      · simpa [Rfc2396.resolved, Rfc2396.resolvedPath, hset, hscheme, hauthority, hrel, habs]
          using hshows

private theorem resolved_merged (hheap : h.WellFormed) (hbase : Parsed h baseText base)
    (hu : Parsed h relativeText u) (hscheme : base.component h .scheme = some scheme)
    (hauthority : base.component h .authority = some authority) (hmerged : ¬ u.KeepsPath h) :
    0 ∉ Rfc2396.resolved h u base ∧
      scheme.length + 1 + (authority.length + 2) +
        ((u.component h .query).elim 0 fun piece => piece.length + 1) +
        ((u.component h .fragment).elim 0 fun piece => piece.length + 1) <
          (Rfc2396.resolved h u base).length := by
  have hnoNul {v : Uriaa} {text : List UInt8} (hv : Parsed h text v) (p : UriPart) :
      0 ∉ (v.component h p).getD [] := by
    have hpart := hv.carries hheap p
    cases hset : v.component h p with
    | none => exact List.not_mem_nil
    | some piece =>
        rw [hset] at hpart
        exact Stringaa.Carries.noNul hpart
  rw [Uriaa.KeepsPath, not_or] at hmerged
  have hset : u.component h .authority = none :=
    Option.not_isSome_iff_eq_none.mp hmerged.1
  have hzero : (0 : UInt8) ≠ ch ':' ∧ (0 : UInt8) ≠ ch '/' ∧ (0 : UInt8) ≠ ch '?' ∧
      (0 : UInt8) ≠ ch '#' := by decide
  have hschemeNul := hnoNul hbase .scheme
  have hauthorityNul := hnoNul hbase .authority
  have hqueryNul := hnoNul hu .query
  have hfragmentNul := hnoNul hu .fragment
  rw [hscheme] at hschemeNul
  rw [hauthority] at hauthorityNul
  rw [Rfc2396.resolved, Rfc2396.resolvedPath, hset, hscheme, hauthority, if_neg (by simp),
    if_neg hmerged.2]
  have hpathNul := Rfc2396.mergedPath_noNul (hnoNul hbase .absPath) (hnoNul hu .relPath)
  constructor
  · cases hquery : u.component h .query <;> cases hfragment : u.component h .fragment <;>
      simp_all [whenPresent]
  · cases u.component h .query <;> cases u.component h .fragment <;>
      simp [whenPresent, Rfc2396.mergedPath] <;> omega

private theorem keepsPath_of_resolves (hheap : h.WellFormed) (hbase : Parsed h baseText base)
    (hu : Parsed h relativeText u) (hscheme : base.component h .scheme = some scheme)
    (hauthority : base.component h .authority = some authority)
    (hnone : u.component h .scheme = none) (hresolves : u.Resolves h base) : u.KeepsPath h := by
  by_contra hmerged
  obtain ⟨hnul, hlength⟩ := resolved_merged hheap hbase hu hscheme hauthority hmerged
  rw [Uriaa.KeepsPath, not_or, not_and] at hmerged
  have hset : u.component h .authority = none := Option.not_isSome_iff_eq_none.mp hmerged.1
  have hnotScheme : (u.part .scheme).isInit = false := by
    rw [Uriaa.isInit_iff (h := h), hnone]
    rfl
  have hinit : ((u.inherit base .scheme).part .authority).isInit = false := by
    rw [inherit_part_of_ne (by decide), Uriaa.isInit_iff (h := h), hset]
    rfl
  obtain ⟨h', r, hrun, hshows⟩ := hresolves
  rw [uriaaResolveUri] at hrun
  cases hdocument : u.isCurrentDocument with
  | true =>
      rw [hdocument, if_pos rfl] at hrun
      cases hrun
  | false =>
      generalize hv : (u.inherit base .scheme).inherit base .authority = v at hrun
      have hsame (p : UriPart) (hp : p ≠ .scheme ∧ p ≠ .authority) : v.part p = u.part p := by
        rw [← hv, inherit_part_of_ne hp.2, inherit_part_of_ne hp.1]
      have habsolute : v.isAbsolutePath h = some false := by
        rw [Uriaa.isAbsolutePath, hsame _ (by decide), hsame _ (by decide), hsame _ (by decide),
          Uriaa.isInit_iff (h := h) (p := .absPath), Uriaa.isInit_iff (h := h) (p := .relPath),
          Uriaa.isInit_iff (h := h) (p := .opaquePart), hu.readFrom.opaquePart_none hnone]
        rw [if_neg, if_neg (by simp)]
        rintro ⟨habs, hrel⟩
        exact hmerged.2 (by simpa using hrel) habs
      rw [hdocument, hnotScheme] at hrun
      simp only [Bool.false_eq_true, if_false, hinit, hv, habsolute, Option.bind_eq_bind,
        Option.bind_some, Option.bind_eq_some_iff] at hrun
      obtain ⟨⟨isMerged, h₁, v₁⟩, hmerge, hrun⟩ := hrun
      cases isMerged with
      | false => cases hrun
      | true =>
          obtain ⟨hpath, hterminated, hothers⟩ := uriaaMergePath_path hmerge
          have hkept (p : UriPart) (hp : p ≠ .path ∧ p ≠ .scheme ∧ p ≠ .authority) :
              (v₁.part p).CarriesPart h (u.component h p) := by
            rw [hothers p hp.1, hsame p hp.2]
            exact hu.carries hheap p
          have hvScheme : (v₁.part .scheme).CarriesPart h (some scheme) := by
            rw [hothers _ (by decide), ← hv, inherit_part_of_ne (by decide)]
            exact inherit_carries (hscheme ▸ hbase.carries hheap .scheme)
          have hvAuthority : (v₁.part .authority).CarriesPart h (some authority) := by
            rw [hothers _ (by decide), ← hv]
            exact inherit_carries (hauthority ▸ hbase.carries hheap .authority)
          rcases uriaaAssemble_merged hvScheme hvAuthority hpath hterminated
            (hkept .query (by decide)) (hkept .fragment (by decide)) hrun hshows with hmem | heq
          · exact hnul hmem
          · omega

end Resolves

/-- A relative reference without scheme, against a base with scheme and authority, is resolved to
the text of section 5.2 exactly when it has an authority or a path that starts with a slash. -/
theorem uriaaResolveUri_resolves {h : Heap} {u base : Uriaa} {baseText relativeText : List UInt8}
    (hheap : h.WellFormed) (hbase : Parsed h baseText base) (hu : Parsed h relativeText u)
    (hscheme : (base.component h .scheme).isSome)
    (hauthority : (base.component h .authority).isSome) (hnone : u.component h .scheme = none) :
    u.Resolves h base ↔ u.KeepsPath h := by
  obtain ⟨scheme, hscheme⟩ := Option.isSome_iff_exists.mp hscheme
  obtain ⟨authority, hauthority⟩ := Option.isSome_iff_exists.mp hauthority
  exact ⟨keepsPath_of_resolves hheap hbase hu hscheme hauthority hnone,
    resolves_of_keepsPath hheap hbase hu hscheme hauthority hnone⟩

section Samples

def sampleText : List UInt8 :=
  [ch 'h', ch ':', ch '/', ch '/', ch 'a', ch '/', ch 'b', ch '/', ch 'c']

/-- The characters of the block from one position up to another. -/
def sampleSlice (pos size : Nat) : Uriaa :=
  { uri := { buf := some ⟨0, pos⟩, bufSize := size, writePos := size, isInit := true } }

private theorem sampleSlice_shows (pos size : Nat) (hle : pos + size ≤ sampleText.length) :
    (sampleSlice pos size).Shows (.ofText sampleText) ⟨0, (sampleText.drop pos).take size⟩ := by
  have hlength : ((sampleText.drop pos).take size).length = size := by
    rw [List.length_take, List.length_drop]
    omega
  refine ⟨by simp only [hlength]; exact Nat.zero_add _, fun i hi => ?_⟩
  simp only [hlength] at hi
  have hin : pos + i < sampleText.length := by omega
  simp [sampleSlice, Stringaa.charAt, Heap.load, Heap.ofText, Ptr.add, hin, hi,
    List.getElem?_drop, List.getD]

theorem sampleSlice_parsed (pos size : Nat) (hle : pos + size ≤ sampleText.length)
    (scheme authority relPath absPath : Option (List UInt8))
    (hrun : (uriReference (.ofText sampleText) (sampleSlice pos size)).map (fun r =>
      (r.1, r.2.uri.readPos, [UriPart.scheme, .authority, .relPath, .absPath].map
        (r.2.component (.ofText sampleText)))) =
      some (true, size, [scheme, authority, relPath, absPath]))
    (hplain : ch '%' ∉ sampleText) :
    ∃ u, Parsed (.ofText sampleText) ((sampleText.drop pos).take size) u ∧
      u.component (.ofText sampleText) .scheme = scheme ∧
      u.component (.ofText sampleText) .authority = authority ∧
      u.component (.ofText sampleText) .relPath = relPath ∧
      u.component (.ofText sampleText) .absPath = absPath := by
  obtain ⟨⟨ok, u⟩, hresult, heq⟩ := Option.map_eq_some_iff.mp hrun
  simp only [Prod.mk.injEq, List.map_cons, List.map_nil, List.cons.injEq, and_true] at heq
  obtain ⟨rfl, hread, hcomponents⟩ := heq
  refine ⟨u, ⟨fun hmem => hplain (List.mem_of_mem_drop (List.mem_of_mem_take hmem)),
    ⟨_, sampleSlice_shows pos size hle, rfl, hresult⟩, ?_⟩, hcomponents⟩
  rw [hread, List.length_take, List.length_drop]
  omega

/-- `/c` against `h://a/b`. -/
theorem uriaaResolveUri_resolves_absolute : ∃ u base : Uriaa,
    Parsed (.ofText sampleText) ((sampleText.drop 0).take 7) base ∧
    Parsed (.ofText sampleText) ((sampleText.drop 7).take 2) u ∧
    (u.Resolves (.ofText sampleText) base ↔ u.KeepsPath (.ofText sampleText)) := by
  obtain ⟨base, hbase, hscheme, hauthority, -⟩ := sampleSlice_parsed 0 7 (by decide)
    (some [ch 'h']) (some [ch 'a']) none (some [ch '/', ch 'b']) (by decide) (by decide)
  obtain ⟨u, hu, hnone, -⟩ := sampleSlice_parsed 7 2 (by decide)
    none none none (some [ch '/', ch 'c']) (by decide) (by decide)
  exact ⟨u, base, hbase, hu, uriaaResolveUri_resolves (Heap.ofText_wellFormed _) hbase hu
    (by rw [hscheme]; rfl) (by rw [hauthority]; rfl) hnone⟩

/-- `c` against `h://a/b` loses its last character. -/
theorem uriaaResolveUri_losesCharacter : ¬ ∀ (h : Heap) (u base : Uriaa)
    (baseText relativeText : List UInt8), h.WellFormed → Parsed h baseText base →
      Parsed h relativeText u → (base.component h .scheme).isSome →
      (base.component h .authority).isSome →
      (∃ x path, base.component h .absPath = some (x :: path)) →
      u.component h .scheme = none → u.Resolves h base := by
  intro hclaim
  obtain ⟨base, hbase, hscheme, hauthority, -, hpath⟩ := sampleSlice_parsed 0 7 (by decide)
    (some [ch 'h']) (some [ch 'a']) none (some [ch '/', ch 'b']) (by decide) (by decide)
  obtain ⟨u, hu, hnone, hset, hrel, -⟩ := sampleSlice_parsed 8 1 (by decide)
    none none (some [ch 'c']) none (by decide) (by decide)
  have hheap := Heap.ofText_wellFormed sampleText
  have hresolves := hclaim _ _ _ _ _ hheap hbase hu (by rw [hscheme]; rfl)
    (by rw [hauthority]; rfl) ⟨_, _, hpath⟩ hnone
  have hkeeps := keepsPath_of_resolves hheap hbase hu hscheme hauthority hnone hresolves
  rw [Uriaa.KeepsPath, hset, hrel] at hkeeps
  simp at hkeeps

end Samples

end Httpaa
