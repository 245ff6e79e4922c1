import Httpaa.Strings.Content
import Httpaa.Strings.Cursors

/-!
# What a search finds

`stringaa_find` goes back to the character behind the one where a match failed. So a place is passed
only when the characters sought do not stand there, and the first one where they do is returned.
-/

namespace Httpaa.Text

variable {α : Type*} {pattern text : List α} {j n : Nat}

private theorem not_isPrefix_of_ne (hj : j < pattern.length) (hne : text[j]? ≠ some pattern[j]) :
    ¬ pattern <+: text :=
  fun hbegins => hne (List.prefix_iff_getElem?.mp hbegins j hj)

private theorem take_succ_isPrefix (hj : j < pattern.length) (hmatch : pattern.take j <+: text)
    (heq : text[j]? = some pattern[j]) : pattern.take (j + 1) <+: text := by
  rw [List.prefix_iff_getElem?] at hmatch ⊢
  intro i hi
  rw [List.length_take] at hi
  rw [List.getElem_take]
  rcases Nat.lt_or_eq_of_le (Nat.le_of_lt_succ (Nat.lt_of_lt_of_le hi (Nat.min_le_left _ _))) with
    hlt | rfl
  · have hfront := hmatch i (by rw [List.length_take]; omega)
    rwa [List.getElem_take] at hfront
  · exact heq

private theorem not_isPrefix_drop (hlong : text.length < n + pattern.length)
    (hpattern : pattern ≠ []) :
    ¬ pattern <+: text.drop n := by
  intro hbegins
  have hle := hbegins.length_le
  have hpos := List.length_pos_iff.mpr hpattern
  rw [List.length_drop] at hle
  omega

/-- The first place where the text goes on with the pattern. -/
structure FirstAt (pattern text : List α) (p : Nat) : Prop where
  isPrefix : pattern <+: text.drop p
  not_before : ∀ q < p, ¬ pattern <+: text.drop q

end Httpaa.Text

namespace Httpaa.Traced

variable {m : Memory} {s search : Stringaa} {scan scan' : FindScan} {start j i : Nat}

/-- The position of the content of `search` in that of `s`, or -1. -/
def Finds (m : Memory) (s search : Stringaa) (found : Int) : Prop :=
  (found = -1 ∧ ∀ p, ¬ content m search <+: (content m s).drop p) ∨
    ∃ p, found = toInt p ∧ p < s.writePos ∧ Text.FirstAt (content m search) (content m s) p

/-- The scan has passed all places in front of `start`, and compared `j` characters from there
on. -/
structure FindScan.At (scan : FindScan) (m : Memory) (s search : Stringaa) (start j : Nat) :
    Prop where
  heap : scan.memory.heap = m.heap
  string : scan.s = s.seek (start + j)
  pattern : scan.search = search.seek j
  lt : j < search.writePos
  c : scan.c = (content m s).getD (start + j) 0
  cSearch : scan.cSearch = (content m search).getD j 0
  isFollow : scan.isFollow = decide (0 < j)
  pos : 0 < j → scan.pos = start
  matched : (content m search).take j <+: (content m s).drop start
  not_before : ∀ q < start, ¬ content m search <+: (content m s).drop q

private theorem FindScan.next_content (scan : FindScan) (hheap : scan.memory.heap = m.heap)
    (hs : scan.s = s.seek i) :
    scan.next.1 = decide (i + 1 < s.writePos) ∧ (i + 1 < s.writePos →
      scan.next.2.memory.heap = m.heap ∧ scan.next.2.s = s.seek (i + 1) ∧
      scan.next.2.c = (content m s).getD (i + 1) 0 ∧ scan.next.2.search = scan.search ∧
      scan.next.2.cSearch = scan.cSearch ∧ scan.next.2.isFollow = scan.isFollow ∧
      scan.next.2.pos = scan.pos) := by
  by_cases hlt : i + 1 < s.writePos
  · have hnext : stringaaNextReadPos scan.s = (true, s.seek (i + 1)) := by
      simp [stringaaNextReadPos, hs, Stringaa.seek, hlt]
    obtain ⟨hchar, hsame⟩ := stringaaGetChar_content scan.memory (s.seek (i + 1))
    have hcontent : content scan.memory (s.seek (i + 1)) = content m s := content_congr hheap
    rw [hcontent] at hchar
    simp only [FindScan.next, hnext, if_true, hlt, decide_true, true_and, forall_const]
    exact ⟨hsame.trans hheap, hchar, trivial⟩
  · have hnext : (stringaaNextReadPos scan.s).1 = false := by
      simp [stringaaNextReadPos, hs, Stringaa.seek, hlt]
    simp [FindScan.next, hnext, hlt]

private theorem stringaaFindLoop_finds {fuel : Nat} {found : Int} (hat : scan.At m s search start j)
    (hnul : 0 ∉ content m search) (hloop : stringaaFindLoop fuel scan = some (found, scan')) :
    Finds m s search found := by
  induction fuel generalizing scan start j with
  | zero => cases hloop
  | succ fuel ih =>
      have hj : j < (content m search).length := by simpa using hat.lt
      have hpattern : content m search ≠ [] := List.ne_nil_of_length_pos (Nat.zero_lt_of_lt hj)
      have hc : scan.cSearch = (content m search)[j] := by
        rw [hat.cSearch, List.getD_eq_getElem?_getD, List.getElem?_eq_getElem hj, Option.getD_some]
      have hne : scan.cSearch ≠ 0 := fun hzero => hnul (by
        rw [← hzero, hc]
        exact List.getElem_mem hj)
      have hchar : scan.c = scan.cSearch →
          ((content m s).drop start)[j]? = some (content m search)[j] := by
        intro heq
        rw [List.getElem?_drop, ← hc, ← heq]
        rw [hat.c, List.getD_eq_getElem?_getD] at heq ⊢
        cases hget : (content m s)[start + j]? with
        | none => exact absurd (by simpa [hget] using heq.symm) hne
        | some x => rfl
      simp only [stringaaFindLoop, if_neg hne] at hloop
      split at hloop
      · -- one character more is found
        rename_i heq
        have hmatched := Text.take_succ_isPrefix hj hat.matched (hchar heq)
        have hpos : (if scan.isFollow then scan.pos else scan.s.readPos) = start := by
          rw [hat.isFollow]
          by_cases hzero : 0 < j
          · simpa [hzero] using hat.pos hzero
          · simp [hat.string, Stringaa.seek, Nat.eq_zero_of_not_pos hzero]
        by_cases hmore : j + 1 < search.writePos
        · have hnext : stringaaNextReadPos scan.search = (true, search.seek (j + 1)) := by
            simp [stringaaNextReadPos, hat.pattern, Stringaa.seek, hmore]
          obtain ⟨hsearch, hsame⟩ := stringaaGetChar_content scan.memory (search.seek (j + 1))
          have hcontent : content scan.memory (search.seek (j + 1)) = content m search :=
            content_congr hat.heap
          rw [hcontent] at hsearch
          simp only [hnext, if_true, hpos] at hloop
          obtain ⟨hfst, hsnd⟩ := FindScan.next_content (s := s) (i := start + j)
            { scan with
              pos := start, isFollow := true, search := search.seek (j + 1)
              cSearch := (Traced.stringaaGetChar scan.memory (search.seek (j + 1))).1
              memory := (Traced.stringaaGetChar scan.memory (search.seek (j + 1))).2 }
            (hsame.trans hat.heap) hat.string
          split at hloop
          · rename_i htrue
            rw [hfst, decide_eq_true_eq] at htrue
            obtain ⟨hheap, hstring, hc', hsearch', hcSearch, hfollow, hpos'⟩ := hsnd htrue
            have hat' : FindScan.At _ m s search start (j + 1) :=
              ⟨hheap, hstring, hsearch', hmore, hc', hcSearch.trans hsearch,
                hfollow.trans (decide_eq_true (Nat.succ_pos j)).symm, fun _ => hpos', hmatched,
                hat.not_before⟩
            exact ih hat' hloop
          · rename_i hfalse
            rw [hfst, decide_eq_true_eq] at hfalse
            cases hloop
            refine .inl ⟨rfl, fun q => ?_⟩
            rcases Nat.lt_or_ge q start with hlt | hge
            · exact hat.not_before q hlt
            · exact Text.not_isPrefix_drop (by simp only [content_length]; omega) hpattern
        · have hnext : (stringaaNextReadPos scan.search).1 = false := by
            simp [stringaaNextReadPos, hat.pattern, Stringaa.seek, hmore]
          simp only [hnext, Bool.false_eq_true, if_false, hpos, Option.some.injEq,
            Prod.mk.injEq] at hloop
          rw [List.take_of_length_le (by simp only [content_length]; omega)] at hmatched
          refine .inr ⟨start, hloop.1.symm, ?_, hmatched, hat.not_before⟩
          have hle := hmatched.length_le
          simp only [List.length_drop, content_length] at hle hj
          omega
      · -- the characters do not stand at `start`
        rename_i hdiff
        have hstart : ¬ content m search <+: (content m s).drop start := by
          refine Text.not_isPrefix_of_ne hj fun heq => hdiff ?_
          rw [List.getElem?_drop, ← hc] at heq
          rw [hat.c, List.getD_eq_getElem?_getD, heq, Option.getD_some]
        have hnot : ∀ q < start + 1, ¬ content m search <+: (content m s).drop q := by
          intro q hq
          rcases Nat.lt_or_eq_of_le (Nat.le_of_lt_succ hq) with hlt | rfl
          · exact hat.not_before q hlt
          · exact hstart
        have hgo {scan₁ : FindScan} (hheap : scan₁.memory.heap = m.heap)
            (hstring : scan₁.s = s.seek start) (hsearch : scan₁.search = search.seek 0)
            (hcSearch : scan₁.cSearch = (content m search).getD 0 0)
            (hfollow : scan₁.isFollow = false)
            (hloop : (if scan₁.next.1 then stringaaFindLoop fuel scan₁.next.2
              else some (-1, scan₁.next.2)) = some (found, scan')) : Finds m s search found := by
          obtain ⟨hfst, hsnd⟩ := FindScan.next_content _ hheap hstring
          split at hloop
          · rename_i htrue
            rw [hfst, decide_eq_true_eq] at htrue
            obtain ⟨hheap', hstring', hc', hsearch', hcSearch', hfollow', -⟩ := hsnd htrue
            have hat' : FindScan.At _ m s search (start + 1) 0 :=
              ⟨hheap', hstring', hsearch'.trans hsearch, Nat.zero_lt_of_lt hat.lt, hc',
                hcSearch'.trans hcSearch, by simp [hfollow', hfollow],
                fun h => absurd h (Nat.lt_irrefl 0), List.nil_prefix, hnot⟩
            exact ih hat' hloop
          · rename_i hfalse
            rw [hfst, decide_eq_true_eq] at hfalse
            cases hloop
            refine .inl ⟨rfl, fun q => ?_⟩
            rcases Nat.lt_or_ge q (start + 1) with hlt | hge
            · exact hnot q hlt
            · refine Text.not_isPrefix_drop ?_ hpattern
              simp only [content_length] at hj ⊢
              omega
        split at hloop
        · rename_i hfollow
          rw [hat.isFollow, decide_eq_true_eq] at hfollow
          obtain ⟨hsearch, hsame⟩ := stringaaGetChar_content scan.memory
            (stringaaBeginReadPos scan.search)
          have hcontent : content scan.memory (stringaaBeginReadPos scan.search) =
              content m search := by
            rw [hat.pattern]
            exact content_congr hat.heap
          rw [hcontent] at hsearch
          refine hgo ?_ ?_ ?_ ?_ rfl hloop
          · exact hsame.trans hat.heap
          · rw [hat.string, hat.pos hfollow]
            rfl
          · rw [hat.pattern]
            rfl
          · exact hsearch
        · rename_i hfollow
          rw [hat.isFollow, decide_eq_true_eq] at hfollow
          obtain rfl := Nat.eq_zero_of_not_pos hfollow
          exact hgo hat.heap hat.string hat.pattern hat.cSearch hat.isFollow hloop

/-- The search ends, with the smallest position at which the characters sought stand, or with -1
where they stand nowhere. -/
theorem stringaaFind_first (m : Memory) (s search : Stringaa) (hs : s.isInit = true)
    (hsearch : search.isInit = true) (hwrite : s.writePos ≤ s.bufSize) (hsize : s.bufSize < 2 ^ 31)
    (hne : content m search ≠ []) (hnul : 0 ∉ content m search) :
    ∃ found m' s' search', stringaaFind m s search = some (found, m', s', search') ∧
      ((found = -1 ∧ ∀ p, ¬ content m search <+: (content m s).drop p) ∨
        ∃ p : Nat, found = p ∧ Text.FirstAt (content m search) (content m s) p) := by
  have hsome : (stringaaFind m s search).isSome := stringaaFind_isSome
  obtain ⟨⟨found, m', s', search'⟩, hfind⟩ := Option.isSome_iff_exists.mp hsome
  refine ⟨found, m', s', search', hfind, ?_⟩
  have hfinds : Finds m s search found := by
    rw [stringaaFind] at hfind
    split at hfind
    · obtain ⟨⟨found', scan⟩, hloop, heq⟩ := Option.map_eq_some_iff.mp hfind
      have hfound : found' = found := congrArg Prod.fst heq
      obtain ⟨hc, hheap⟩ := stringaaGetChar_content m (stringaaBeginReadPos s)
      obtain ⟨hcSearch, hheap'⟩ := stringaaGetChar_content
        (stringaaGetChar m (stringaaBeginReadPos s)).2 (stringaaBeginReadPos search)
      have hcontent : content (stringaaGetChar m (stringaaBeginReadPos s)).2
          (stringaaBeginReadPos search) = content m search := content_congr hheap
      rw [hcontent] at hcSearch
      have hlt : 0 < search.writePos := by
        simpa using List.length_pos_iff.mpr hne
      have hat : FindScan.At
          { memory := (stringaaGetChar (stringaaGetChar m (stringaaBeginReadPos s)).2
              (stringaaBeginReadPos search)).2
            s := stringaaBeginReadPos s
            search := stringaaBeginReadPos search
            c := (stringaaGetChar m (stringaaBeginReadPos s)).1
            cSearch := (stringaaGetChar (stringaaGetChar m (stringaaBeginReadPos s)).2
              (stringaaBeginReadPos search)).1
            pos := 0
            isFollow := false } m s search 0 0 :=
        ⟨hheap'.trans hheap, rfl, rfl, hlt, hc, hcSearch, rfl, fun h => absurd h (Nat.lt_irrefl 0),
          List.nil_prefix, fun q hq => absurd hq (Nat.not_lt_zero q)⟩
      exact hfound ▸ stringaaFindLoop_finds hat hnul hloop
    · rename_i hbuf
      cases hfind
      refine .inl ⟨rfl, fun p hbegins => ?_⟩
      obtain ⟨c, hc⟩ := List.exists_mem_of_ne_nil _ hne
      have hzero : c = 0 := by
        have hnone : s.buf = none ∨ search.buf = none := by
          simpa [hs, hsearch, or_iff_not_imp_left] using hbuf
        rcases hnone with hnone | hnone
        · have hmem := List.mem_of_mem_drop (hbegins.subset hc)
          rw [content_none m hnone] at hmem
          exact List.eq_of_mem_replicate hmem
        · rw [content_none m hnone] at hc
          exact List.eq_of_mem_replicate hc
      exact hnul (hzero ▸ hc)
  rcases hfinds with hnone | ⟨p, hfound, hlt, hfirst⟩
  · exact .inl hnone
  · exact .inr ⟨p, hfound.trans (toInt_eq (hlt.trans (hwrite.trans_lt hsize))), hfirst⟩

/-- `ab` in `aab`, where the first match fails at its second character. -/
theorem stringaaFind_first_overlapping :
    let m : Memory := ⟨Heap.ofText [97, 97, 98, 97, 98], []⟩
    let search : Stringaa := { buf := some ⟨0, 3⟩, bufSize := 2, writePos := 2, isInit := true }
    ∃ found m' s' search',
      stringaaFind m (Stringaa.ofText 0 3) search = some (found, m', s', search') ∧
      ((found = -1 ∧ ∀ p, ¬ content m search <+: (content m (Stringaa.ofText 0 3)).drop p) ∨
        ∃ p : Nat, found = p ∧
          Text.FirstAt (content m search) (content m (Stringaa.ofText 0 3)) p) :=
  stringaaFind_first _ _ _ rfl rfl (by decide) (by decide) (by decide) (by decide)

end Httpaa.Traced
