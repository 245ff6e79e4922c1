import Httpaa.Uri.TwoCopies

/-!
# The merged path

What `uriaa_resolve_uri` leaves of the base path up to its last slash with the path of the reference
behind it, and whether it goes on with that: not if the first segment with characters is `..`.
-/

namespace Httpaa

open Heap Rfc2396

variable {h h₁ h' : Heap} {s : Stringaa} {u base : Uriaa} {buf : Ptr} {scan : SegmentScan}
  {bufSize : Nat} {done cur todo text front piece : List UInt8} {src : Option Ptr}
  {found relative : Option (List UInt8)} {x : UInt8}

/-! ### The base path up to its last slash -/

private theorem upToLastSlash_concat (text : List UInt8) (x : UInt8) :
    upToLastSlash (text ++ [x]) = if x = slash then text ++ [x] else upToLastSlash text := by
  by_cases hx : x = slash <;> simp [upToLastSlash, hx]

theorem upToLastSlash_isPrefix (text : List UInt8) : upToLastSlash text <+: text := by
  rw [upToLastSlash, ← List.reverse_suffix, List.reverse_reverse]
  exact List.dropWhile_suffix _

private theorem lastSlash_eq (hs : s.Spans h text) {i : Nat} (hi : i < text.length)
    (hmem : slash ∈ text.take (i + 1)) :
    ∃ j, lastSlash h s i = some j ∧ (upToLastSlash (text.take (i + 1))).length = j + 1 := by
  induction i with
  | zero =>
      have hchar := hs.char hi
      obtain ⟨x, rest, rfl⟩ := List.exists_cons_of_length_pos hi
      have hx : x = slash := by simpa [eq_comm] using hmem
      subst hx
      exact ⟨0, by simp [lastSlash, hchar], by simp [upToLastSlash]⟩
  | succ i ih =>
      have hchar := hs.char hi
      rw [List.getElem?_eq_getElem hi] at hchar
      rw [List.take_succ_eq_append_getElem hi] at hmem ⊢
      by_cases hx : text[i + 1] = slash
      · refine ⟨i + 1, by simp [lastSlash, hchar, hx], ?_⟩
        rw [upToLastSlash_concat, if_pos hx, List.length_append, List.length_take]
        simp only [List.length_cons, List.length_nil]
        omega
      · rw [List.mem_append, List.mem_singleton] at hmem
        have hfront := hmem.resolve_right (Ne.symm hx)
        obtain ⟨j, hj, hlength⟩ := ih (by omega) hfront
        refine ⟨j, by simp [lastSlash, hchar, hx, hj], ?_⟩
        rw [upToLastSlash_concat, if_neg hx, hlength]

theorem basePathCopySize_eq (hs : s.SpansPart h found)
    (hslash : ∀ text, found = some text → slash ∈ text) :
    basePathCopySize h s = some (upToLastSlash (found.getD [])).length := by
  cases found with
  | none =>
      have hunset : s.isInit = false := hs.1
      simp [basePathCopySize, hunset, upToLastSlash]
  | some text =>
      have hspans : s.Spans h text := hs
      have hmem := hslash text rfl
      have hpos := List.length_pos_of_mem hmem
      obtain ⟨src, hbuf, -⟩ := hspans.holds
      obtain ⟨j, hj, hlength⟩ := lastSlash_eq hspans (i := text.length - 1) (by omega)
        (by rwa [Nat.sub_add_cancel hpos, List.take_length])
      rw [Nat.sub_add_cancel hpos, List.take_length] at hlength
      have hread : 0 < s.writePos := by
        rw [hspans.writePos]
        exact hpos
      rw [basePathCopySize, if_pos ⟨hspans.isInit, by simp [hbuf], hread⟩,
        hspans.isNullTerminated, hspans.writePos, Option.getD_some, hlength]
      simp [hj]

theorem relativePathCopySize_eq (hs : s.SpansPart h relative) :
    relativePathCopySize s = (relative.getD []).length := by
  cases relative with
  | none =>
      have hunset : s.isInit = false := hs.1
      simp [relativePathCopySize, hunset]
  | some text =>
      have hspans : s.Spans h text := hs
      obtain ⟨src, hbuf, -⟩ := hspans.holds
      rw [relativePathCopySize, if_pos ⟨hspans.isInit, by simp [hbuf]⟩, Stringaa.copySize,
        hspans.isNullTerminated, if_neg (by simp), hspans.writePos]
      rfl

/-! ### How the path starts -/

/-- The loop behind the second one. -/
def Text.startsWithParent (cur : List UInt8) : List UInt8 → Bool
  | [] => cur = parent
  | x :: todo =>
    if x = slash then
      if cur = parent then true
      else if cur = [] then startsWithParent [] todo
      else false
    else startsWithParent (cur ++ [x]) todo

private theorem startsWithParent_holds (hat : scan.At h buf bufSize done cur todo) :
    startsWithParent buf h bufSize scan.i scan.segment = Text.startsWithParent cur todo := by
  have hi := hat.i
  have hsegment := hat.segment
  have hsize := hat.bufSize
  fun_induction Text.startsWithParent cur todo generalizing scan done with
  | case1 cur =>
      have hparent : (scan.segment + 2 = bufSize ∧ h.byte (buf.add scan.segment) = dot ∧
          h.byte (buf.add (scan.segment + 1)) = dot) ↔ cur = parent := by
        rw [hat.cur_holds.eq_iff, hsize, hi, hsegment]
        simp [parent, holds_cons, eq_comm]
      rw [startsWithParent, if_neg hat.ended, decide_eq_decide]
      exact hparent
  | case2 todo =>
      rw [startsWithParent, if_pos hat.more, if_pos hat.byte, if_pos (hat.parent_iff.mpr rfl)]
  | case3 todo hne ih =>
      have hnext := hat.nextSegment
      have hzero : ¬ 0 < scan.i - scan.segment := by simp [hi, hsegment]
      rw [startsWithParent, if_pos hat.more, if_pos hat.byte, if_neg (hat.parent_iff.not.mpr hne),
        if_neg hzero]
      exact ih hnext hnext.i hnext.segment hnext.bufSize
  | case4 cur todo hne hempty =>
      have hpos := List.length_pos_iff.mpr hempty
      rw [startsWithParent, if_pos hat.more, if_pos hat.byte, if_neg (hat.parent_iff.not.mpr hne),
        if_pos (by omega), decide_eq_false_iff_not]
      -- the buffer could only end behind the slash, and that is no dot
      rintro ⟨hend, -, hdot⟩
      have hbyte := hat.byte
      simp only [List.length_cons] at hsize
      rw [show scan.segment + 1 = scan.i by omega, hbyte] at hdot
      exact Text.slash_ne_dot hdot
  | case5 cur x todo hx ih =>
      have hbyte := hat.byte
      have hnext := hat.nextChar
      rw [startsWithParent, if_pos hat.more, if_neg fun heq => hx (hbyte.symm.trans heq)]
      exact ih hnext hnext.i hnext.segment hnext.bufSize

/-! ### The merged path in memory -/

private theorem resolvePointLoop_sameBeside (buf : Ptr) (h : Heap) (bufSize : Nat)
    (scan : SegmentScan) :
    h.SameBeside (resolvePointLoop buf h bufSize scan).1 buf.block := by
  fun_induction resolvePointLoop buf h bufSize scan with
  | case1 _ _ _ _ _ _ ih =>
      refine Heap.SameBeside.trans ?_ ih
      exact Heap.memmove_sameBeside ..
  | case4 => exact Heap.store_sameBeside ..
  | case5 => exact .refl ..
  | _ =>
      rename_i ih
      exact ih

theorem Stringaa.SpansPart.stands (hs : s.SpansPart h found) (hne : found.getD [] ≠ []) :
    ∃ p, s.buf = some p ∧ h.Holds p (found.getD []) ∧ p.block ≠ h.next := by
  cases found with
  | none => exact absurd rfl hne
  | some text =>
      obtain ⟨src, hbuf, hholds, hblock, -⟩ := Stringaa.Spans.holds hs
      exact ⟨src, hbuf, hholds, Nat.ne_of_lt hblock⟩

private theorem uriaaMergePath_holds (hbase : (base.part .absPath).SpansPart h found)
    (hslash : ∀ text, found = some text → slash ∈ text)
    (hrelative : (u.part .relPath).SpansPart h relative) (halloc : (u.part .path).isAlloc = false)
    (hleft : Text.inLine (upToLastSlash (found.getD []) ++ relative.getD []) = text) :
    ∃ h', uriaaMergePath h u base = some (!Text.startsWithParent [] text, h', u.withPart .path
        { buf := some ⟨h.next, 0⟩, bufSize := text.length + 1, writePos := text.length
          isInit := true, isAlloc := true, isNullTerminated := true }) ∧
      h'.Holds ⟨h.next, 0⟩ text ∧ h.SameBeside h' h.next ∧ h.next < h'.next := by
  generalize hfront : upToLastSlash (found.getD []) = front at hleft
  generalize hn : front.length + (relative.getD []).length + 1 = n
  have halloced : h.SameBeside (h.alloc n).2 h.next := ⟨Nat.le_succ _, fun _ _ => rfl⟩
  -- the front of the base path
  have hfrontStands (hne : front ≠ []) : ∃ p, (base.part .absPath).buf = some p ∧
      (h.alloc n).2.Holds p front ∧ p.block ≠ h.next := by
    have hpre : front <+: found.getD [] := hfront ▸ upToLastSlash_isPrefix _
    obtain ⟨p, hbuf, hholds, hblock⟩ := hbase.stands fun hnil =>
      hne (List.prefix_nil.mp (hnil ▸ hpre))
    exact ⟨p, hbuf, halloced.holds (hholds.prefix_iff.mp hpre).2 hblock, hblock⟩
  have hnothing : (h.alloc n).2.Holds ⟨h.next, 0⟩ [] := holds_nil
  obtain ⟨h₁, hcopy₁, hheld₁, hsame₁, hsize₁, hnext₁⟩ :=
    Heap.memcpy_behind hnothing hfrontStands
  -- the path of the reference
  have hrelativeStands (hne : relative.getD [] ≠ []) : ∃ p, (u.part .relPath).buf = some p ∧
      h₁.Holds p (relative.getD []) ∧ p.block ≠ h.next := by
    obtain ⟨p, hbuf, hholds, hblock⟩ := hrelative.stands hne
    exact ⟨p, hbuf, hsame₁.holds (halloced.holds hholds hblock) hblock, hblock⟩
  obtain ⟨h₂, hcopy₂, hheld₂, hsame₂, hsize₂, hnext₂⟩ := Heap.memcpy_behind hheld₁ hrelativeStands
  rw [List.nil_append] at hheld₂ hcopy₂
  -- the NUL behind them, and the loops
  generalize hmerged : front ++ relative.getD [] = merged at hleft hheld₂
  have hlength : merged.length = n - 1 := by
    rw [← hmerged, ← hn, List.length_append, Nat.add_sub_cancel]
  have hheld₃ : (h₂.store (Ptr.add ⟨h.next, 0⟩ (n - 1)) 0).Holds ⟨h.next, 0⟩ merged :=
    hheld₂.store_apart (.inr (.inl (by simp [Ptr.add, hlength])))
  have hat := SegmentScan.At.start (n - 1) hheld₃ hlength.symm
  obtain ⟨h₄, hfirst, hheld₄, -⟩ := resolvePointLoop_holds hat Heap.store_byte
  have hat' := SegmentScan.At.start _ (holds_append.mp hheld₄).1 rfl
  obtain ⟨h₅, hsecond, hheld₅, -⟩ := removeSegmentPointsLoop_holds hat'
  have hleft' : Text.removeSegmentPoints [] [] (Text.resolvePoint [] [] merged) = text := hleft
  rw [hleft'] at hsecond hheld₅
  have hstarts := startsWithParent_holds (SegmentScan.At.start _ hheld₅ rfl)
  have hloop₁ := resolvePointLoop_sameBeside ⟨h.next, 0⟩
    (h₂.store (Ptr.add ⟨h.next, 0⟩ (n - 1)) 0) (n - 1) .start
  have hloop₂ := removeSegmentPointsLoop_sameBeside ⟨h.next, 0⟩ h₄
    (Text.resolvePoint [] [] merged).length .start
  rw [hfirst] at hloop₁
  rw [hsecond] at hloop₂
  have hsame : h₁.SameBeside h₅ h.next :=
    hsame₂.trans ((Heap.store_sameBeside h₂ (Ptr.add ⟨h.next, 0⟩ (n - 1)) 0).trans
      (hloop₁.trans hloop₂))
  refine ⟨h₅, ?_, hheld₅, halloced.trans (hsame₁.trans hsame), ?_⟩
  · have hbaseSize := basePathCopySize_eq hbase hslash
    rw [hfront] at hbaseSize
    simp only [uriaaMergePath, hbaseSize, relativePathCopySize_eq hrelative, hn,
      Option.bind_eq_bind, Option.bind_some]
    rw [show (h.alloc n).1 = ⟨h.next, 0⟩ from rfl]
    rw [List.length_nil, Ptr.add_zero] at hcopy₁
    simp only [hcopy₁, hcopy₂, Option.bind_some, halloc, Bool.false_eq_true, if_false, hfirst,
      hsecond]
    rw [show startsWithParent ⟨h.next, 0⟩ h₅ text.length 0 0 = _ from hstarts]
    rfl
  · have hnext := hsame.next
    rw [hnext₁] at hnext
    exact hnext

/-! ### Components as they are copied -/

theorem Stringaa.Spans.offers (hs : s.Spans h text) (hsame : h.SameBeside h₁ h.next) :
    s.Offers h₁ text := by
  obtain ⟨src, hbuf, hholds, hblock, -⟩ := hs.holds
  refine ⟨?_, fun _ => ⟨src, hbuf, hsame.holds hholds (Nat.ne_of_lt hblock),
    hblock.trans_le hsame.next⟩⟩
  rw [Stringaa.copySize, hs.isNullTerminated, if_neg (by simp), hs.writePos]

theorem Stringaa.SpansPart.offersPart (hs : s.SpansPart h found) (hsame : h.SameBeside h₁ h.next) :
    s.OffersPart h₁ found := by
  cases found with
  | none => exact hs.1
  | some text => exact ⟨Stringaa.Spans.isInit hs, Stringaa.Spans.offers hs hsame⟩

private theorem merged_offersPart {path : Stringaa} (hpath : path =
      { buf := some ⟨h.next, 0⟩, bufSize := text.length + 1, writePos := text.length, isInit := true
        isAlloc := true, isNullTerminated := true })
    (hheld : h₁.Holds ⟨h.next, 0⟩ text) (hnext : h.next < h₁.next) :
    path.OffersPart h₁ (some text.dropLast) := by
  rw [hpath]
  refine ⟨rfl, ?_, fun _ => ⟨_, rfl, ?_, hnext⟩⟩
  · rw [Stringaa.copySize, List.length_dropLast]
    by_cases hpos : 0 < text.length
    · simp [hpos]
    · simp [Nat.eq_zero_of_not_pos hpos]
  · exact (hheld.prefix_iff.mp (List.dropLast_prefix text)).2

/-- What the merging branch hands on: the path without its last character, and all other components
as they were. -/
theorem uriaaMergePath_offers (hbase : (base.part .absPath).SpansPart h found)
    (hslash : ∀ text, found = some text → slash ∈ text)
    (hrelative : (u.part .relPath).SpansPart h relative) (halloc : (u.part .path).isAlloc = false)
    (hleft : Text.inLine (upToLastSlash (found.getD []) ++ relative.getD []) = text) :
    ∃ h₁ w, uriaaMergePath h u base = some (!Text.startsWithParent [] text, h₁, w) ∧
      (w.part .path).OffersPart h₁ (some text.dropLast) ∧
      (w.part .path).copySize ≤ (w.part .path).bufSize ∧
      (∀ p ≠ .path, w.part p = u.part p) ∧ h.SameBeside h₁ h.next := by
  obtain ⟨h₁, hmerge, hheld, hsame, hnext⟩ :=
    uriaaMergePath_holds hbase hslash hrelative halloc hleft
  refine ⟨h₁, _, hmerge, ?_, ?_, fun p hp => by simp [Uriaa.withPart, hp], hsame⟩
  · exact merged_offersPart (by simp [Uriaa.withPart]) hheld hnext
  · refine (Stringaa.copySize_le _).trans ?_
    simp [Uriaa.withPart]

end Httpaa
