import Httpaa.Strings.Content

/-!
# Characters added to a string

`stringaa_add_chars_size` asks `stringaa_realloc` for room, and goes on whatever that returns. A
string that links more than it would need is not moved, and one that is full to the last byte loses
that byte when it is.
-/

namespace Httpaa.Traced

variable {m m' : Memory} {s s2 t : Stringaa} {chars : Chars} {p q : Ptr} {b text : List UInt8}
  {n block : Nat}

/-! ### Room for more -/

/-- The string before `n` characters are written behind it: moved to a buffer that has room for
them, if `stringaa_realloc` does so. -/
def makeRoom (m : Memory) (s : Stringaa) (n : Nat) : Memory × Stringaa :=
  if s.isAlloc = false ∨ s.bufSize ≤ s.writePos + n + 1 then
    (stringaaRealloc m s (s.writePos + n + 1)).2
  else (m, s)

theorem stringaaAddCharsSize_eq (hbuf : chars.buf ≠ none) (hn : 0 < n) :
    stringaaAddCharsSize m s chars n = (true,
      if (makeRoom m s n).2.isNullTerminated then
        ((makeRoom m s n).1.memcpy (stringChars (makeRoom m s n).2 (makeRoom m s n).2.writePos)
          chars n).store (stringChars (makeRoom m s n).2 ((makeRoom m s n).2.writePos + n)) 0
      else (makeRoom m s n).1.memcpy
        (stringChars (makeRoom m s n).2 (makeRoom m s n).2.writePos) chars n,
      { (makeRoom m s n).2 with
        writePos := (makeRoom m s n).2.writePos + n, readPos := 0, isInit := true }) := by
  rw [stringaaAddCharsSize, if_pos ⟨hbuf, hn⟩]
  rfl

/-- The constant, and the terminator behind it if the string has one. -/
def literalWritten (m : Memory) (t : Stringaa) (text : List UInt8) : Memory :=
  let heap := t.buf.elim m.heap fun p => m.heap.storeAll (p.add t.writePos) text
  let m := { m with heap }.touch t.writePos text.length t.bufSize
  if t.isNullTerminated then m.store (stringChars t (t.writePos + text.length)) 0 else m

theorem stringaaAddLiteral_eq (htext : text ≠ []) :
    stringaaAddLiteral m s text =
      (literalWritten (makeRoom m s text.length).1 (makeRoom m s text.length).2 text,
        { (makeRoom m s text.length).2 with
          writePos := (makeRoom m s text.length).2.writePos + text.length
          readPos := 0, isInit := true }) := by
  rw [stringaaAddLiteral, if_pos htext]
  rfl

theorem literalWritten_heap (hbuf : t.buf = some p) :
    (literalWritten m t text).heap = m.heap.storeAll (p.add t.writePos) (text ++ terminator t) := by
  rw [← storeAll_terminator, literalWritten]
  cases t.isNullTerminated with
  | false => simp [hbuf, Memory.touch]
  | true => simp [Memory.store, stringChars, hbuf, Memory.touch, Ptr.add_add]

/-- The write position that is kept when a string is moved: not the last one of the buffer. -/
def keptPos (s : Stringaa) : Nat := if s.bufSize ≤ s.writePos then s.bufSize - 1 else s.writePos

/-- In a new buffer there is room, and what stood in front of the position kept. -/
structure Moved (m : Memory) (s : Stringaa) (n : Nat) (m' : Memory) (t : Stringaa) : Prop where
  buf : t.buf = some ⟨m.heap.next, 0⟩
  isAlloc : t.isAlloc = true
  isInit : t.isInit = true
  isNullTerminated : t.isNullTerminated = s.isNullTerminated
  writePos : t.writePos = keptPos s
  room : t.writePos + n + 1 ≤ t.bufSize
  size : m'.heap.size m.heap.next = t.bufSize
  next : m.heap.next < m'.heap.next
  beside : m.heap.SameBeside m'.heap m.heap.next
  behind : ∀ i, t.bufSize ≤ i → m'.heap.bytes m.heap.next i = m.heap.bytes m.heap.next i
  holds : m'.heap.Holds ⟨m.heap.next, 0⟩ ((content m s).take t.writePos)
  accesses : m.Accesses m'

theorem keptPos_le (s : Stringaa) : keptPos s ≤ s.writePos := by
  rw [keptPos]
  split <;> omega

private theorem stringaaRealloc_moved (hempty : s.buf = none → s.bufSize = 0)
    (hroom : s.writePos + s.isNullTerminated.toNat ≤ s.bufSize) (hinit : s.isInit = true)
    (hsize : s.bufSize ≤ s.writePos + n + 1) :
    ∃ m' t, stringaaRealloc m s (s.writePos + n + 1) = (true, m', t) ∧ Moved m s n m' t := by
  have hkept := keptPos_le s
  have hterm : (terminator s).length ≤ 1 := (terminator_length s).trans_le (Bool.toNat_le _)
  generalize hnew : (if s.isNullTerminated then s.writePos + n + 1 else s.writePos + n + 1 + 1) = k
  have hk : s.writePos + n + 1 ≤ k := by
    rw [← hnew]
    split <;> omega
  let t : Stringaa := { s with buf := some ⟨m.heap.next, 0⟩, bufSize := k, readPos := 0,
                               writePos := keptPos s, isInit := true, isAlloc := true }
  let kept := (content m s).take (keptPos s)
  have hrealloc : stringaaRealloc m s (s.writePos + n + 1) =
      (true, written (m.malloc k).2 t (stringChars s 0) 0 (keptPos s), t) := by
    rw [stringaaRealloc, if_neg (by omega)]
    simp only [hnew, hinit, if_true, true_and, written, Nat.zero_add]
    rfl
  have hlength : kept.length = keptPos s := by simp [kept, hkept]
  have hends : keptPos s + s.isNullTerminated.toNat ≤ k := by
    have hnull := Bool.toNat_le s.isNullTerminated
    omega
  have hheap : (written (m.malloc k).2 t (stringChars s 0) 0 (keptPos s)).heap =
      (m.malloc k).2.heap.storeAll ⟨m.heap.next, 0⟩ (kept ++ terminator t) := by
    rw [← hlength]
    refine written_heap rfl fun hne => ?_
    cases hbuf : s.buf with
    | none =>
        have hsize := hempty hbuf
        have hzero : kept.length = 0 := by omega
        exact absurd (List.length_eq_zero_iff.mp hzero) hne
    | some p =>
        refine ⟨p, hbuf, fun i hi => ?_⟩
        have hheld := (content_holds m hbuf).prefix_iff.mp (List.take_prefix (keptPos s) _)
        exact hheld.2 i hi
  have hsame : m.heap.SameBeside (m.malloc k).2.heap m.heap.next := ⟨Nat.le_succ _, fun _ _ => rfl⟩
  refine ⟨_, t, hrealloc, rfl, rfl, rfl, rfl, rfl, ?_, ?_, ?_, ?_, ?_, ?_, ?_⟩
  · show keptPos s + n + 1 ≤ k
    omega
  · rw [hheap]
    simp [Heap.storeAll, Memory.malloc, t]
  · rw [hheap]
    exact Nat.lt_succ_self _
  · rw [hheap]
    exact hsame.trans (storeAll_sameBeside _ _ _)
  · intro i hi
    rw [hheap, storeAll_behind]
    · rfl
    · rw [List.length_append, hlength, terminator_length, Nat.zero_add]
      exact hends.trans hi
  · rw [hheap]
    have hall := (Heap.holds_nil (h := (m.malloc k).2.heap) (p := ⟨m.heap.next, 0⟩)).storeAll_behind
      (b := kept ++ terminator t)
    rw [List.nil_append, List.length_nil, Ptr.add_zero] at hall
    exact (Heap.holds_append.mp hall).1
  · refine written_accesses ⟨[], rfl, by simp⟩ ?_ ?_
    · rwa [Nat.zero_add]
    · simp only [stringChars, Nat.zero_add]
      omega

theorem makeRoom_stays (hsize : s.writePos + n + 1 < s.bufSize) : makeRoom m s n = (m, s) := by
  rw [makeRoom]
  split
  · rw [stringaaRealloc, if_pos (.inr hsize)]
  · rfl

theorem makeRoom_moved (hempty : s.buf = none → s.bufSize = 0)
    (hroom : s.writePos + s.isNullTerminated.toNat ≤ s.bufSize) (hinit : s.isInit = true)
    (hsize : s.bufSize ≤ s.writePos + n + 1) :
    ∃ m' t, makeRoom m s n = (m', t) ∧ Moved m s n m' t := by
  obtain ⟨m', t, hrealloc, hmoved⟩ := stringaaRealloc_moved hempty hroom hinit hsize
  exact ⟨m', t, by rw [makeRoom, if_pos (.inr hsize), hrealloc], hmoved⟩

/-! ### The characters behind the content -/

private theorem written_appends (haccesses : m.Accesses m') (halloc : t.isAlloc = true)
    (hbuf : t.buf = some ⟨block, 0⟩) (hsize : t.bufSize ≤ m'.heap.size block)
    (hbeside : m.heap.SameBeside m'.heap block)
    (hbehind : ∀ i, t.bufSize ≤ i → m'.heap.bytes block i = m.heap.bytes block i)
    (hroom : t.writePos + b.length + t.isNullTerminated.toNat ≤ t.bufSize)
    (hholds : m'.heap.Holds ⟨block, 0⟩ text) (hlength : text.length = t.writePos)
    (hsrc : ∃ q, chars.buf = some q ∧ m'.heap.Holds (q.add chars.start) b)
    (hchars : chars.start + b.length ≤ chars.size) :
    content (written m' t chars t.writePos b.length)
        { t with writePos := t.writePos + b.length, readPos := 0, isInit := true } = text ++ b ∧
      WritesOwn m (written m' t chars t.writePos b.length)
        { t with writePos := t.writePos + b.length, readPos := 0, isInit := true } := by
  have hheap : (written m' t chars t.writePos b.length).heap =
      m'.heap.storeAll ⟨block, t.writePos⟩ (b ++ terminator t) := written_heap hbuf fun _ => hsrc
  have hall : (m'.heap.storeAll ⟨block, t.writePos⟩ (b ++ terminator t)).Holds ⟨block, 0⟩
      (text ++ (b ++ terminator t)) := by
    have hstored := hholds.storeAll_behind (b := b ++ terminator t)
    rwa [hlength, show Ptr.add ⟨block, 0⟩ t.writePos = ⟨block, t.writePos⟩ by simp [Ptr.add]]
      at hstored
  rw [← hheap, ← List.append_assoc] at hall
  refine ⟨?_, halloc, hroom, ?_, block, hbuf, ?_, ?_, fun i hi => ?_⟩
  · refine content_eq hbuf ?_ (Heap.holds_append.mp hall).1
    rw [List.length_append, hlength]
  · exact written_accesses haccesses hroom hchars
  · rw [hheap]
    exact hsize
  · rw [hheap]
    exact hbeside.trans (storeAll_sameBeside _ _ _)
  · rw [hheap, storeAll_behind]
    · exact hbehind i hi
    · rw [List.length_append, terminator_length, ← Nat.add_assoc]
      exact hroom.trans hi

/-- 1 is returned, the characters follow the content, and all writes are inside the buffer that the
string then owns. -/
def Appends (m : Memory) (s : Stringaa) (b : List UInt8) (result : Bool × Memory × Stringaa) :
    Prop :=
  result.1 = true ∧ content result.2.1 result.2.2 = content m s ++ b ∧
    WritesOwn m result.2.1 result.2.2

/-- A string that is linked is not shorter than what it would need, and the write position is not at
the end of the buffer. -/
def GrowsOrOwns (s : Stringaa) (n : Nat) : Prop :=
  (s.isAlloc = true ∨ s.bufSize ≤ s.writePos + n + 1) ∧ (s.writePos < s.bufSize ∨ s.bufSize = 0)

instance (s : Stringaa) (n : Nat) : Decidable (GrowsOrOwns s n) :=
  inferInstanceAs (Decidable (_ ∧ _))

/-- The characters stand in a buffer in memory. -/
structure Stands (h : Heap) (chars : Chars) (b : List UInt8) : Prop where
  holds : ∃ q, chars.buf = some q ∧ q.block < h.next ∧ h.Holds (q.add chars.start) b
  le : chars.start + b.length ≤ chars.size

private theorem addCharsSize_appends_iff (hs : InMemory m.heap s) (hinit : s.isInit = true)
    (hb : b ≠ []) (hchars : Stands m.heap chars b) :
    Appends m s b (stringaaAddCharsSize m s chars b.length) ↔ GrowsOrOwns s b.length := by
  obtain ⟨⟨q, hq, hknown, hholds⟩, hle⟩ := hchars
  have hn : 0 < b.length := List.length_pos_iff.mpr hb
  have hroom := hs.room
  rw [stringaaAddCharsSize_eq (by simp [hq]) hn]
  change Appends m s b (true, written (makeRoom m s b.length).1 (makeRoom m s b.length).2 chars
    (makeRoom m s b.length).2.writePos b.length, _) ↔ _
  by_cases hsize : s.writePos + b.length + 1 < s.bufSize
  · rw [makeRoom_stays hsize]
    cases halloc : s.isAlloc with
    | false =>
        refine iff_of_false (fun happends => ?_) fun hgrows => ?_
        · have howns := happends.2.2.isAlloc
          exact absurd (halloc.symm.trans howns) (by decide)
        · rcases hgrows.1 with h | h
          · exact absurd (halloc.symm.trans h) (by decide)
          · omega
    | true =>
        obtain ⟨block, hbuf, hblock⟩ := hs.owns halloc
        have hnull := Bool.toNat_le s.isNullTerminated
        have happended := written_appends (m := m) (.refl m) halloc hbuf hblock (.refl _ _)
          (fun _ _ => rfl) (by omega) (content_holds m hbuf) (content_length m s)
          ⟨q, hq, hholds⟩ hle
        exact iff_of_true ⟨rfl, happended⟩ ⟨.inl halloc, .inl (by omega)⟩
  · obtain ⟨m', t, hmake, hmoved⟩ := makeRoom_moved hs.empty hs.room hinit (Nat.le_of_not_lt hsize)
    rw [hmake]
    have hkept := keptPos_le s
    have hnull := Bool.toNat_le s.isNullTerminated
    have hfits : t.writePos + b.length + t.isNullTerminated.toNat ≤ t.bufSize := by
      rw [hmoved.isNullTerminated]
      have := hmoved.room
      omega
    have hlength : ((content m s).take t.writePos).length = t.writePos := by
      rw [List.length_take, content_length, hmoved.writePos]
      exact Nat.min_eq_left hkept
    have happended := written_appends hmoved.accesses hmoved.isAlloc hmoved.buf
      (Nat.le_of_eq hmoved.size.symm) hmoved.beside hmoved.behind hfits hmoved.holds hlength
      ⟨q, hq, hmoved.beside.holds hholds (Nat.ne_of_lt hknown)⟩ hle
    by_cases hfull : s.writePos < s.bufSize ∨ s.bufSize = 0
    · have hpos : t.writePos = s.writePos := by
        rw [hmoved.writePos, keptPos]
        split <;> omega
      rw [List.take_of_length_le (by rw [content_length, hpos])] at happended
      exact iff_of_true ⟨rfl, happended⟩ ⟨.inr (Nat.le_of_not_lt hsize), hfull⟩
    · refine iff_of_false (fun happends => ?_) fun hgrows => hfull hgrows.2
      have hpos : t.writePos + 1 = s.writePos := by
        rw [hmoved.writePos, keptPos, if_pos (by omega)]
        omega
      have hlong := congrArg List.length happends.2.1
      simp only [content_length, List.length_append] at hlong
      omega

/-! ### Constants -/

/-- Wherever a constant is written, the write position is behind it, and not at the end of the
buffer. -/
theorem stringaaAddLiteral_cursors (htext : text ≠ []) (hinit : s.isInit = true ∨ s.writePos = 0)
    (hfull : s.writePos < s.bufSize ∨ s.writePos = 0) :
    (stringaaAddLiteral m s text).2.isInit = true ∧ (stringaaAddLiteral m s text).2.readPos = 0 ∧
      (stringaaAddLiteral m s text).2.writePos = s.writePos + text.length ∧
      (stringaaAddLiteral m s text).2.writePos < (stringaaAddLiteral m s text).2.bufSize := by
  have hn : 0 < text.length := List.length_pos_iff.mpr htext
  suffices hmake : (makeRoom m s text.length).2.writePos = s.writePos ∧
      s.writePos + text.length < (makeRoom m s text.length).2.bufSize by
    rw [stringaaAddLiteral_eq htext]
    refine ⟨rfl, rfl, ?_, ?_⟩
    · simp only [hmake.1]
    · simp only [hmake.1]
      exact hmake.2
  by_cases hsize : s.writePos + text.length + 1 < s.bufSize
  · rw [makeRoom_stays hsize]
    refine ⟨rfl, ?_⟩
    show s.writePos + text.length < s.bufSize
    omega
  · rw [makeRoom, if_pos (.inr (Nat.le_of_not_lt hsize)), stringaaRealloc, if_neg (by omega)]
    dsimp only
    constructor
    · split
      · split <;> omega
      · exact (hinit.resolve_left ‹_›).symm
    · split <;> omega

/-- A constant follows the content of every string that does not end with its buffer. -/
theorem stringaaAddLiteral_content (hinit : s.isInit = true) (hempty : s.buf = none → s.bufSize = 0)
    (hroom : s.writePos + s.isNullTerminated.toNat ≤ s.bufSize)
    (hfull : s.writePos < s.bufSize ∨ s.bufSize = 0) (htext : text ≠ []) :
    content (stringaaAddLiteral m s text).1 (stringaaAddLiteral m s text).2 =
      content m s ++ text ∧ ∃ p, (stringaaAddLiteral m s text).2.buf = some p := by
  suffices hmake : ∃ p, (makeRoom m s text.length).2.buf = some p ∧
      (makeRoom m s text.length).2.writePos = s.writePos ∧
      (makeRoom m s text.length).1.heap.Holds p (content m s) by
    obtain ⟨p, hbuf, hpos, hholds⟩ := hmake
    have hall := hholds.storeAll_behind (b := text ++ terminator (makeRoom m s text.length).2)
    rw [content_length, ← hpos, ← literalWritten_heap hbuf, ← List.append_assoc] at hall
    rw [stringaaAddLiteral_eq htext]
    refine ⟨content_eq hbuf ?_ (Heap.holds_append.mp hall).1, p, hbuf⟩
    rw [List.length_append, content_length, hpos]
  by_cases hsize : s.writePos + text.length + 1 < s.bufSize
  · rw [makeRoom_stays hsize]
    have hne : s.buf ≠ none := fun hnone => by
      have hzero := hempty hnone
      omega
    obtain ⟨p, hbuf⟩ := Option.ne_none_iff_exists'.mp hne
    exact ⟨p, hbuf, rfl, content_holds m hbuf⟩
  · obtain ⟨m', t, hmake, hmoved⟩ :=
      makeRoom_moved (m := m) hempty hroom hinit (Nat.le_of_not_lt hsize)
    have hpos : t.writePos = s.writePos := by
      rw [hmoved.writePos, keptPos]
      split <;> omega
    have hholds := hmoved.holds
    rw [List.take_of_length_le (by rw [content_length, hpos])] at hholds
    rw [hmake]
    exact ⟨_, hmoved.buf, hpos, hholds⟩

private theorem stringaaAdd_eq (hinit : s2.isInit = true) (hbuf : s2.buf = some q)
    (hread : s2.readPos < s2.writePos)
    (hroom : s2.writePos + s2.isNullTerminated.toNat ≤ s2.bufSize) :
    stringaaAdd m s s2 = stringaaAddCharsSize m s (stringChars s2 s2.readPos)
      ((content m s2).drop s2.readPos).length := by
  rw [stringaaAdd, if_pos ⟨by simp [hbuf], hinit, hread, hroom⟩, List.length_drop, content_length]

private theorem stringChars_stands (hbuf : s2.buf = some q) (hknown : q.block < m.heap.next)
    (hread : s2.readPos ≤ s2.writePos)
    (hroom : s2.writePos + s2.isNullTerminated.toNat ≤ s2.bufSize) :
    Stands m.heap (stringChars s2 s2.readPos) ((content m s2).drop s2.readPos) := by
  refine ⟨⟨q, hbuf, hknown, ?_⟩, ?_⟩
  · have hheld := content_holds m hbuf
    rw [← List.take_append_drop s2.readPos (content m s2)] at hheld
    have hdrop := (Heap.holds_append.mp hheld).2
    rwa [List.length_take, content_length, Nat.min_eq_left hread] at hdrop
  · rw [List.length_drop, content_length]
    simp only [stringChars]
    omega

/-- Characters are appended exactly when the string grows to hold them or owns room for them, and
does not end with its buffer; the same for the characters of another string. -/
theorem stringaaAddCharsSize_appends (m : Memory) (s : Stringaa) (hs : InMemory m.heap s)
    (hinit : s.isInit = true) :
    (∀ (chars : Chars) (b : List UInt8), b ≠ [] → Stands m.heap chars b →
      (Appends m s b (stringaaAddCharsSize m s chars b.length) ↔ GrowsOrOwns s b.length)) ∧
    ∀ (s2 : Stringaa) (q : Ptr), s2.isInit = true → s2.buf = some q → q.block < m.heap.next →
      s2.readPos < s2.writePos → s2.writePos + s2.isNullTerminated.toNat ≤ s2.bufSize →
      (Appends m s ((content m s2).drop s2.readPos) (stringaaAdd m s s2) ↔
        GrowsOrOwns s (s2.writePos - s2.readPos)) := by
  refine ⟨fun chars b hb hchars => addCharsSize_appends_iff hs hinit hb hchars, ?_⟩
  intro s2 q hinit2 hbuf hknown hread hroom
  have hlength : ((content m s2).drop s2.readPos).length = s2.writePos - s2.readPos := by
    rw [List.length_drop, content_length]
  have hne : (content m s2).drop s2.readPos ≠ [] := by
    rw [← List.length_pos_iff, hlength]
    omega
  rw [stringaaAdd_eq hinit2 hbuf hread hroom, ← hlength]
  exact addCharsSize_appends_iff hs hinit hne
    (stringChars_stands hbuf hknown (Nat.le_of_lt hread) hroom)

private theorem linkedSample : InMemory (Heap.ofText [97, 98, 99, 120]) (Stringaa.ofText 0 3) ∧
    Stands (Heap.ofText [97, 98, 99, 120]) ⟨some ⟨0, 0⟩, 3, 4⟩ [120] := by
  refine ⟨⟨by decide, fun p hp => ?_, fun h => absurd h (by simp [Stringaa.ofText]),
    fun h => absurd h (by decide)⟩, ⟨⟨0, 0⟩, rfl, Nat.one_pos, ?_⟩, by decide⟩
  · cases hp
    exact Nat.one_pos
  · exact (Heap.holds_append.mp (Heap.ofText_holds ([97, 98, 99] ++ [120]))).2

/-- `x`, and the string `cx`, behind the `ab` of a string that is linked to `abc`. -/
theorem stringaaAddCharsSize_appends_linked :
    Appends ⟨Heap.ofText [97, 98, 99, 120], []⟩ { Stringaa.ofText 0 3 with writePos := 2 } [120]
        (stringaaAddCharsSize ⟨Heap.ofText [97, 98, 99, 120], []⟩
          { Stringaa.ofText 0 3 with writePos := 2 } ⟨some ⟨0, 0⟩, 3, 4⟩ 1) ∧
      Appends ⟨Heap.ofText [97, 98, 99, 120], []⟩ { Stringaa.ofText 0 3 with writePos := 2 }
        [99, 120] (stringaaAdd ⟨Heap.ofText [97, 98, 99, 120], []⟩
          { Stringaa.ofText 0 3 with writePos := 2 }
          { Stringaa.ofText 0 4 with readPos := 2 }) := by
  have hs : InMemory (Heap.ofText [97, 98, 99, 120]) { Stringaa.ofText 0 3 with writePos := 2 } :=
    ⟨by decide, linkedSample.1.known, linkedSample.1.empty, linkedSample.1.owns⟩
  obtain ⟨hchars, hstring⟩ :=
    stringaaAddCharsSize_appends ⟨Heap.ofText [97, 98, 99, 120], []⟩ _ hs rfl
  refine ⟨(hchars _ _ (List.cons_ne_nil _ _) linkedSample.2).mpr (by decide), ?_⟩
  exact (hstring { Stringaa.ofText 0 4 with readPos := 2 } ⟨0, 0⟩ rfl rfl Nat.one_pos (by decide)
    (by decide)).mpr (by decide)

/-- `abc` and `x` become `abx`. -/
theorem stringaaAddCharsSize_losesLast : ¬ ∀ (m : Memory) (s : Stringaa) (chars : Chars)
    (b : List UInt8), InMemory m.heap s → s.isInit = true → b ≠ [] → Stands m.heap chars b →
      Appends m s b (stringaaAddCharsSize m s chars b.length) := by
  intro hclaim
  have happends := hclaim ⟨Heap.ofText [97, 98, 99, 120], []⟩ _ _ _ linkedSample.1 rfl
    (List.cons_ne_nil _ _) linkedSample.2
  have hgrows := (addCharsSize_appends_iff linkedSample.1 rfl (List.cons_ne_nil _ _)
    linkedSample.2).mp happends
  exact absurd hgrows.2 (by decide)

end Httpaa.Traced
