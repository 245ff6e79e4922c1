import Httpaa.Foundation.Transition
import Httpaa.Strings.Traced

/-!
# The cursors of strings that work together

Any number of strings, any functions of `stringaa.h` called on them in any order, and data received
into them. The read position stays in front of the write position, the write position leaves room
for the terminator, and every access stays inside its buffer, as long as no call takes the write
position back behind the read position, compares a character behind the text without regard to case,
or fills a terminated buffer up to its last byte.
-/

namespace Httpaa.Traced

open Transition

def CursorsInside (s : Stringaa) : Prop :=
  s.readPos ≤ s.writePos ∧
    (s.writePos + s.isNullTerminated.toNat ≤ s.bufSize ∨ (s.writePos = 0 ∧ s.bufSize = 0))

instance (s : Stringaa) : Decidable (CursorsInside s) := inferInstanceAs (Decidable (_ ∧ _))

structure Strings where
  memory : Memory
  string : Nat → Stringaa

/-- The strings are inside their buffers, and so was every access. -/
def Strings.StayInside (strings : Strings) : Prop :=
  (∀ i, CursorsInside (strings.string i)) ∧ ∀ access ∈ strings.memory.log, access.InBounds

/-- A call on the string of a number, or on two strings of different numbers. -/
inductive StringaaCall
  | init (i bufSize : Nat)
  | setChars (i : Nat) (buf : Option Ptr) (length : Nat)
  | setCharsSize (i : Nat) (buf : Option Ptr) (bufSize : Nat)
  | malloc (i bufSize : Nat)
  | realloc (i bufSize : Nat)
  | nextReadPos (i : Nat)
  | prevReadPos (i : Nat)
  | beginReadPos (i : Nat)
  | endReadPos (i : Nat)
  | nextWritePos (i : Nat)
  | prevWritePos (i : Nat)
  | beginWritePos (i : Nat)
  | endWritePos (i : Nat)
  | getChar (i : Nat)
  | setChar (i : Nat) (c : UInt8)
  | isChar (i : Nat) (c : UInt8)
  | isChari (i : Nat) (c : UInt8)
  | setSubstring (i j : Nat) (pos1 pos2 : Int)
  | copy (i j : Nat)
  | add (i j : Nat)
  | find (i j : Nat)
  | clean (i : Nat)
  | recv (i : Nat) (received : Option (List UInt8))

def Strings.update (strings : Strings) (i : Nat) (memory : Memory) (s : Stringaa) : Strings :=
  { memory, string := Function.update strings.string i s }

/-- The call is made. Two strings in one call are two different ones. -/
def Strings.step (strings : Strings) : StringaaCall → Option Strings
  | .init i bufSize =>
      let (_, m, s) := stringaaInit strings.memory bufSize
      some (strings.update i m s)
  | .setChars i buf length =>
      some (strings.update i strings.memory (stringaaSetChars (strings.string i) buf length).2)
  | .setCharsSize i buf bufSize =>
      some (strings.update i strings.memory (stringaaSetCharsSize (strings.string i) buf bufSize).2)
  | .malloc i bufSize =>
      let (_, m, s) := stringaaMalloc strings.memory (strings.string i) bufSize
      some (strings.update i m s)
  | .realloc i bufSize =>
      let (_, m, s) := stringaaRealloc strings.memory (strings.string i) bufSize
      some (strings.update i m s)
  | .nextReadPos i =>
      some (strings.update i strings.memory (stringaaNextReadPos (strings.string i)).2)
  | .prevReadPos i =>
      some (strings.update i strings.memory (stringaaPrevReadPos (strings.string i)).2)
  | .beginReadPos i =>
      some (strings.update i strings.memory (stringaaBeginReadPos (strings.string i)))
  | .endReadPos i =>
      some (strings.update i strings.memory (stringaaEndReadPos (strings.string i)))
  | .nextWritePos i =>
      some (strings.update i strings.memory (stringaaNextWritePos (strings.string i)).2)
  | .prevWritePos i =>
      some (strings.update i strings.memory (stringaaPrevWritePos (strings.string i)).2)
  | .beginWritePos i =>
      some (strings.update i strings.memory (stringaaBeginWritePos (strings.string i)))
  | .endWritePos i =>
      some (strings.update i strings.memory (stringaaEndWritePos (strings.string i)))
  | .getChar i =>
      let (_, m) := stringaaGetChar strings.memory (strings.string i)
      some (strings.update i m (strings.string i))
  | .setChar i c =>
      let (_, m, s) := stringaaSetChar strings.memory (strings.string i) c
      some (strings.update i m s)
  | .isChar i c =>
      let (_, m, s) := stringaaIsChar strings.memory (strings.string i) c
      some (strings.update i m s)
  | .isChari i c =>
      let (_, m, s) := stringaaIsChari strings.memory (strings.string i) c
      some (strings.update i m s)
  | .setSubstring i j pos1 pos2 =>
      if i = j then none
      else some (strings.update i strings.memory
        (stringaaSetSubstring (strings.string i) (strings.string j) pos1 pos2))
  | .copy i j =>
      if i = j then none
      else
        let (_, m, s) := stringaaCopy strings.memory (strings.string i) (strings.string j)
        some (strings.update i m s)
  | .add i j =>
      if i = j then none
      else
        let (_, m, s) := stringaaAdd strings.memory (strings.string i) (strings.string j)
        some (strings.update i m s)
  | .find i j =>
      if i = j then none
      else do
        let (_, m, s, search) ←
          stringaaFind strings.memory (strings.string i) (strings.string j)
        return (strings.update i m s).update j m search
  | .clean i => some (strings.update i strings.memory (stringaaClean (strings.string i)))
  | .recv i received =>
      let (_, m, s) := socketaaWorkerRecv strings.memory (strings.string i) received
      some (strings.update i m s)

def Strings.zeroed (heap : Heap) : Strings := ⟨⟨heap, []⟩, fun _ => {}⟩

/-- The character at the read position, whatever the write position. -/
def Strings.charAtRead (strings : Strings) (i : Nat) : UInt8 :=
  (strings.memory.load (stringChars (strings.string i) (strings.string i).readPos)).1

/-- The calls that keep the cursors and their accesses inside the buffers. -/
def KeepsInside (strings : Strings) : StringaaCall → Prop
  | .prevWritePos i => (strings.string i).readPos < (strings.string i).writePos ∨
      (strings.string i).writePos = 0
  | .beginWritePos i => (strings.string i).readPos = 0
  | .endWritePos i => (strings.string i).readPos ≤ writeEnd (strings.string i) - 1
  | .isChari i c => (strings.string i).readPos < (strings.string i).bufSize ∧
      ((strings.string i).readPos = (strings.string i).writePos →
        charUpper c ≠ charUpper (strings.charAtRead i))
  | .recv i received => (strings.string i).isNullTerminated → ∀ bytes, received = some bytes →
      bytes.length < (strings.string i).bufSize - (strings.string i).writePos
  | _ => True

/-! ### What each function keeps -/

/-- The form of the invariant that carries over: a terminated buffer is never empty. -/
def Inside (s : Stringaa) : Prop :=
  s.readPos ≤ s.writePos ∧ s.writePos + s.isNullTerminated.toNat ≤ s.bufSize

def Memory.InBounds (m : Memory) : Prop := ∀ access ∈ m.log, access.InBounds

section Functions

variable {m : Memory} {s search : Stringaa} {chars dst src : Chars} {n : Nat} {c : UInt8}

private theorem Inside.cursorsInside (hs : Inside s) : CursorsInside s := ⟨hs.1, .inl hs.2⟩

theorem Access.inBounds_of_le {start count size : Nat} (hle : start + count ≤ size) :
    (Access.mk start count size).InBounds := by
  intro i hi
  exact Nat.lt_of_lt_of_le (Nat.add_lt_add_left hi start) hle

@[simp] theorem Memory.inBounds_touch {start count size : Nat} :
    (m.touch start count size).InBounds ↔ (Access.mk start count size).InBounds ∧ m.InBounds := by
  simp [InBounds, touch]

theorem Memory.InBounds.load (hm : m.InBounds) (hlt : chars.start < chars.size) :
    (m.load chars).2.InBounds :=
  inBounds_touch.mpr ⟨Access.inBounds_of_le hlt, hm⟩

theorem Memory.InBounds.store (hm : m.InBounds) (hlt : chars.start < chars.size) :
    (m.store chars c).InBounds :=
  inBounds_touch.mpr ⟨Access.inBounds_of_le hlt, hm⟩

theorem Memory.InBounds.memcpy (hm : m.InBounds) (hdst : dst.start + n ≤ dst.size)
    (hsrc : src.start + n ≤ src.size) : (m.memcpy dst src n).InBounds := by
  have htouched : ((m.touch src.start n src.size).touch dst.start n dst.size).InBounds :=
    inBounds_touch.mpr ⟨Access.inBounds_of_le hdst,
      inBounds_touch.mpr ⟨Access.inBounds_of_le hsrc, hm⟩⟩
  rw [Memory.memcpy]
  split
  · exact htouched
  · exact htouched

theorem Memory.InBounds.ite {p : Prop} [Decidable p] {m' : Memory} (hm : m.InBounds)
    (hm' : p → m'.InBounds) : (if p then m' else m).InBounds := by
  split
  · rename_i hp
    exact hm' hp
  · exact hm

theorem stringaaMalloc_inside (hs : Inside s) (hm : m.InBounds) :
    Inside (stringaaMalloc m s n).2.2 ∧ (stringaaMalloc m s n).2.1.InBounds ∧
      n ≤ (stringaaMalloc m s n).2.2.bufSize := by
  by_cases hset : 0 < n ∧ ((s.isAlloc ∧ s.bufSize < n) ∨ ¬ s.isAlloc)
  · simp only [stringaaMalloc, Httpaa.stringaaMalloc, if_pos hset]
    refine ⟨⟨Nat.le_refl _, ?_⟩, Memory.inBounds_touch.mpr ⟨?_, hm⟩, Nat.le_refl _⟩
    · simpa [Nat.one_le_iff_ne_zero, Nat.pos_iff_ne_zero] using hset.1
    · exact Access.inBounds_of_le (Nat.le_of_eq (Nat.zero_add n))
  · simp only [stringaaMalloc, Httpaa.stringaaMalloc, if_neg hset]
    refine ⟨hs, hm, ?_⟩
    grind

/-- Afterwards there is room for what was asked for, and the write position has not moved on. -/
theorem stringaaRealloc_inside (hs : Inside s) (hm : m.InBounds) :
    Inside (stringaaRealloc m s n).2.2 ∧ (stringaaRealloc m s n).2.1.InBounds ∧
      n ≤ (stringaaRealloc m s n).2.2.bufSize ∧
      (stringaaRealloc m s n).2.2.writePos ≤ s.writePos := by
  obtain ⟨hread, hwrite⟩ := hs
  by_cases hsize : n = 0 ∨ n < s.bufSize
  · simp only [stringaaRealloc, if_pos hsize]
    refine ⟨⟨hread, hwrite⟩, hm, ?_, Nat.le_refl _⟩
    omega
  · simp only [stringaaRealloc, if_neg hsize, Memory.malloc]
    obtain ⟨hn, hle⟩ := not_or.mp hsize
    generalize hpos : (if s.isInit then if s.bufSize ≤ s.writePos then s.bufSize - 1
      else s.writePos else 0) = w
    generalize hroom : (if s.isNullTerminated then n else n + 1) = k
    have hw : w ≤ s.writePos := by
      rw [← hpos]
      split
      · split <;> omega
      · exact Nat.zero_le _
    have hk : n ≤ k ∧ w < k := by
      cases hnull : s.isNullTerminated <;>
        simp only [hnull, Bool.toNat_true, Bool.toNat_false] at * <;> grind
    have hnull : s.isNullTerminated.toNat ≤ 1 := Bool.toNat_le _
    refine ⟨⟨Nat.zero_le _, Nat.le_trans (Nat.add_le_add_left hnull w) hk.2⟩, ?_, hk.1, hw⟩
    have hcopied (m : Memory) (t : Stringaa) (hm : m.InBounds) (ht : t.bufSize = k) :
        (if s.isInit then m.memcpy (stringChars t 0) (stringChars s 0) w else m).InBounds := by
      refine hm.ite fun _ => hm.memcpy ?_ ?_
      · simp only [stringChars, ht, Nat.zero_add]
        exact Nat.le_of_lt hk.2
      · simp only [stringChars, Nat.zero_add]
        omega
    refine Memory.InBounds.ite (hcopied _ _ ?_ ?_) fun _ => (hcopied _ _ ?_ ?_).store hk.2
    all_goals first | exact hm | rfl

theorem stringaaInit_inside (hm : m.InBounds) :
    Inside (stringaaInit m n).2.2 ∧ (stringaaInit m n).2.1.InBounds := by
  rw [stringaaInit]
  split
  · obtain ⟨⟨hread, hwrite⟩, hm', -⟩ :=
      stringaaMalloc_inside (s := {}) (n := n) ⟨Nat.le_refl _, Nat.le_refl _⟩ hm
    refine ⟨?_, hm'⟩
    dsimp only
    split
    · exact ⟨hread, hwrite⟩
    · exact ⟨hread, hwrite⟩
  · exact ⟨⟨Nat.le_refl _, Nat.le_refl _⟩, hm⟩

theorem stringaaSetCharsSize_inside (hs : Inside s) {buf : Option Ptr} :
    Inside (stringaaSetCharsSize s buf n).2 := by
  rw [stringaaSetCharsSize]
  split
  · exact ⟨Nat.zero_le _, Nat.le_refl _⟩
  · exact hs

theorem stringaaSetChars_inside (hs : Inside s) {buf : Option Ptr} :
    Inside (stringaaSetChars s buf n).2 := by
  rw [stringaaSetChars]
  split
  · rename_i hbuf
    rw [stringaaSetCharsSize, if_pos hbuf]
    exact ⟨Nat.zero_le _, Nat.le_refl _⟩
  · exact hs

theorem stringaaNextReadPos_inside (hs : Inside s) : Inside (stringaaNextReadPos s).2 := by
  obtain ⟨hread, hwrite⟩ := hs
  rw [stringaaNextReadPos]
  split
  · rename_i hlt
    exact ⟨Nat.le_of_lt hlt, hwrite⟩
  · exact ⟨Nat.le_refl _, hwrite⟩

theorem stringaaPrevReadPos_inside (hs : Inside s) : Inside (stringaaPrevReadPos s).2 := by
  obtain ⟨hread, hwrite⟩ := hs
  rw [stringaaPrevReadPos]
  split
  · exact ⟨Nat.le_trans (Nat.sub_le _ _) hread, hwrite⟩
  · exact ⟨Nat.le_refl _, hwrite⟩

theorem Inside.writeEnd (hs : Inside s) :
    s.writePos ≤ writeEnd s ∧ Traced.writeEnd s + s.isNullTerminated.toNat ≤ s.bufSize := by
  obtain ⟨hread, hwrite⟩ := hs
  rw [Traced.writeEnd]
  split <;> omega

theorem stringaaNextWritePos_inside (hs : Inside s) : Inside (stringaaNextWritePos s).2 := by
  obtain ⟨hle, hend⟩ := hs.writeEnd
  obtain ⟨hread, hwrite⟩ := hs
  rw [stringaaNextWritePos]
  split
  · rename_i hlt
    refine ⟨Nat.le_succ_of_le hread, ?_⟩
    dsimp only
    omega
  · exact ⟨Nat.le_trans hread hle, hend⟩

theorem stringaaPrevWritePos_inside (hs : Inside s)
    (hok : s.readPos < s.writePos ∨ s.writePos = 0) : Inside (stringaaPrevWritePos s).2 := by
  obtain ⟨hle, hend⟩ := hs.writeEnd
  obtain ⟨hread, hwrite⟩ := hs
  rw [stringaaPrevWritePos]
  split
  · refine ⟨?_, ?_⟩ <;> dsimp only <;> omega
  · exact ⟨Nat.le_trans hread hle, hend⟩

theorem stringaaEndWritePos_inside (hs : Inside s) (hok : s.readPos ≤ writeEnd s - 1) :
    Inside (stringaaEndWritePos s) := by
  obtain ⟨-, hend⟩ := hs.writeEnd
  refine ⟨hok, Nat.le_trans (Nat.add_le_add_right (Nat.sub_le _ _) _) hend⟩

theorem Inside.seek (hs : Inside s) {pos : Nat} (hpos : pos ≤ s.writePos) :
    Inside { s with readPos := pos } := ⟨hpos, hs.2⟩

theorem stringaaGetChar_inBounds (hs : Inside s) (hm : m.InBounds) :
    (stringaaGetChar m s).2.InBounds := by
  obtain ⟨hread, hwrite⟩ := hs
  rw [stringaaGetChar]
  split
  · rename_i hlt
    exact hm.load (by simp only [stringChars]; omega)
  · exact hm

theorem stringaaSetChar_inside (hs : Inside s) (hm : m.InBounds) :
    Inside (stringaaSetChar m s c).2.2 ∧ (stringaaSetChar m s c).2.1.InBounds := by
  rw [stringaaSetChar]
  split
  · rename_i hlt
    have hsame : (if s.isAlloc then (m, s) else (stringaaRealloc m s 0).2) = (m, s) := by
      split
      · rfl
      · simp [stringaaRealloc]
    rw [hsame]
    exact ⟨hs, hm.store (by simp only [stringChars]; omega)⟩
  · exact ⟨hs, hm⟩

theorem stringaaIsChar_inside (hs : Inside s) (hm : m.InBounds) :
    Inside (stringaaIsChar m s c).2.2 ∧ (stringaaIsChar m s c).2.1.InBounds := by
  have hm' := stringaaGetChar_inBounds hs hm
  simp only [stringaaIsChar]
  split
  · exact ⟨stringaaNextReadPos_inside hs, hm'⟩
  · exact ⟨hs, hm'⟩

theorem stringaaIsChari_inside (hs : Inside s) (hm : m.InBounds) (hlt : s.readPos < s.bufSize)
    (hok : s.readPos = s.writePos →
      charUpper c ≠ charUpper (m.load (stringChars s s.readPos)).1) :
    Inside (stringaaIsChari m s c).2.2 ∧ (stringaaIsChari m s c).2.1.InBounds := by
  have hm' : (m.load (stringChars s s.readPos)).2.InBounds := hm.load hlt
  simp only [stringaaIsChari]
  split
  · rename_i hmatch
    have hne : s.readPos ≠ s.writePos := fun heq => hok heq hmatch
    exact ⟨⟨Nat.lt_of_le_of_ne hs.1 hne, hs.2⟩, hm'⟩
  · exact ⟨hs, hm'⟩

theorem stringaaSetSubstring_inside {s1 s2 : Stringaa} (hs : Inside s1) (pos1 pos2 : Int) :
    Inside (stringaaSetSubstring s1 s2 pos1 pos2) := by
  unfold stringaaSetSubstring
  extract_lets first last
  split
  · exact ⟨Nat.zero_le _, Nat.le_of_eq (Nat.add_zero _)⟩
  · exact hs

theorem stringaaCopyCharsSize_inside (hs : Inside s) (hm : m.InBounds) (hbuf : chars.buf ≠ none)
    (hsrc : chars.start + n ≤ chars.size) :
    ∃ m' t, stringaaCopyCharsSize m s chars n = (true, m', t) ∧ m'.InBounds ∧ t.readPos = 0 ∧
      n + t.isNullTerminated.toNat ≤ t.bufSize := by
  obtain ⟨m', t, ht, hm', hsize, heq⟩ : ∃ m' t, Inside t ∧ m'.InBounds ∧ n + 1 ≤ t.bufSize ∧
      (if ¬ s.isAlloc ∨ s.bufSize ≤ n + 1 then (stringaaMalloc m s (n + 1)).2
        else (m, s)) = (m', t) := by
    obtain ⟨ht, hm', hsize⟩ := stringaaMalloc_inside (n := n + 1) hs hm
    split
    · exact ⟨_, _, ht, hm', hsize, rfl⟩
    · exact ⟨m, s, hs, hm, by omega, rfl⟩
  have hnull : t.isNullTerminated.toNat ≤ 1 := Bool.toNat_le _
  have hcopied : (m'.memcpy (stringChars t 0) chars n).InBounds := by
    refine hm'.memcpy ?_ hsrc
    simp only [stringChars]
    omega
  simp only [stringaaCopyCharsSize, if_neg hbuf, heq]
  exact ⟨_, _, rfl, hcopied.ite fun _ => hcopied.store hsize, rfl, by dsimp only; omega⟩

theorem stringaaCopy_inside {s1 s2 : Stringaa} (hs1 : Inside s1) (hs2 : Inside s2)
    (hm : m.InBounds) :
    Inside (stringaaCopy m s1 s2).2.2 ∧ (stringaaCopy m s1 s2).2.1.InBounds := by
  obtain ⟨hread, hwrite⟩ := hs2
  rw [stringaaCopy]
  split
  · exact ⟨hs1, hm⟩
  · rename_i hbuf
    have hsrc : (stringChars s2 0).start + (s2.bufSize - s2.isNullTerminated.toNat) ≤
        (stringChars s2 0).size := by
      simp only [stringChars]
      omega
    obtain ⟨m', t, heq, hm', hzero, hsize⟩ :=
      stringaaCopyCharsSize_inside hs1 hm (not_or.mp hbuf).1 hsrc
    rw [heq]
    refine ⟨⟨?_, ?_⟩, hm'⟩ <;> simp only [if_true] <;> omega

theorem stringaaAddCharsSize_inside (hs : Inside s) (hm : m.InBounds) (hbuf : chars.buf ≠ none)
    (hn : 0 < n) (hsrc : chars.start + n ≤ chars.size) :
    Inside (stringaaAddCharsSize m s chars n).2.2 ∧
      (stringaaAddCharsSize m s chars n).2.1.InBounds := by
  obtain ⟨m', t, ht, hm', hsize, heq⟩ : ∃ m' t, Inside t ∧ m'.InBounds ∧
      t.writePos + n + 1 ≤ t.bufSize ∧
      (if s.isAlloc = false ∨ s.bufSize ≤ s.writePos + n + 1 then
        (stringaaRealloc m s (s.writePos + n + 1)).2 else (m, s)) = (m', t) := by
    obtain ⟨ht, hm', hsize, hle⟩ := stringaaRealloc_inside (n := s.writePos + n + 1) hs hm
    split
    · exact ⟨_, _, ht, hm', by omega, rfl⟩
    · exact ⟨m, s, hs, hm, by omega, rfl⟩
  have hnull : t.isNullTerminated.toNat ≤ 1 := Bool.toNat_le _
  have hcopied : (m'.memcpy (stringChars t t.writePos) chars n).InBounds := by
    refine hm'.memcpy ?_ hsrc
    simp only [stringChars]
    omega
  simp only [stringaaAddCharsSize, if_pos (And.intro hbuf hn), heq]
  refine ⟨⟨Nat.zero_le _, ?_⟩, hcopied.ite fun _ => hcopied.store hsize⟩
  dsimp only
  omega

theorem stringaaAdd_inside {s1 : Stringaa} (s2 : Stringaa) (hs1 : Inside s1) (hm : m.InBounds) :
    Inside (stringaaAdd m s1 s2).2.2 ∧ (stringaaAdd m s1 s2).2.1.InBounds := by
  rw [stringaaAdd]
  split
  · rename_i hbuf
    obtain ⟨hsome, -, hread, hwrite⟩ := hbuf
    refine stringaaAddCharsSize_inside hs1 hm hsome (by omega) ?_
    simp only [stringChars]
    omega
  · exact ⟨hs1, hm⟩

private theorem socketaaWorkerRecv_fills {bytes : List UInt8} (hroom : s.writePos < s.bufSize)
    (hlength : s.bufSize - s.writePos ≤ bytes.length) :
    (socketaaWorkerRecv m s (some bytes)).2.2 = { s with writePos := s.bufSize } := by
  have htake : (bytes.take (s.bufSize - s.writePos)).length = s.bufSize - s.writePos :=
    List.length_take_of_le hlength
  have hne : bytes.take (s.bufSize - s.writePos) ≠ [] := by
    rw [← List.length_pos_iff, htake]
    omega
  simp only [socketaaWorkerRecv, if_pos hroom, if_neg hne, htake,
    Nat.add_sub_of_le (Nat.le_of_lt hroom)]

/-! ### The search -/

/-- Both strings are inside their buffers, and the match that is followed began inside the text. -/
structure FindScan.Fits (scan : FindScan) : Prop where
  memory : scan.memory.InBounds
  string : Inside scan.s
  search : Inside scan.search
  pos_le : scan.pos ≤ scan.s.writePos

theorem FindScan.Fits.next {scan : FindScan} (hscan : scan.Fits) : scan.next.2.Fits := by
  have hs := stringaaNextReadPos_inside hscan.string
  have hwrite : (stringaaNextReadPos scan.s).2.writePos = scan.s.writePos := by
    rw [stringaaNextReadPos]
    split <;> rfl
  rw [FindScan.next]
  dsimp only
  split
  · exact ⟨stringaaGetChar_inBounds hs hscan.memory, hs, hscan.search, hwrite ▸ hscan.pos_le⟩
  · exact ⟨hscan.memory, hs, hscan.search, hwrite ▸ hscan.pos_le⟩

private theorem stringaaFindLoop_fits {fuel : Nat} {scan scan' : FindScan} {found : Int}
    (hscan : scan.Fits) (hfind : stringaaFindLoop fuel scan = some (found, scan')) :
    scan'.Fits := by
  induction fuel generalizing scan with
  | zero => cases hfind
  | succ fuel ih =>
      have hgo {next : FindScan} (hfind : (if next.next.1 then
          stringaaFindLoop fuel next.next.2 else some (-1, next.next.2)) = some (found, scan'))
          (hnext : next.Fits) : scan'.Fits := by
        split at hfind
        · exact ih hnext.next hfind
        · cases hfind
          exact hnext.next
      simp only [stringaaFindLoop] at hfind
      split at hfind
      · cases hfind
        exact hscan
      · split at hfind
        · have hpos : (if scan.isFollow then scan.pos else scan.s.readPos) ≤ scan.s.writePos := by
            split
            · exact hscan.pos_le
            · exact hscan.string.1
          have hsearch := stringaaNextReadPos_inside hscan.search
          split at hfind
          · exact hgo hfind
              ⟨stringaaGetChar_inBounds hsearch hscan.memory, hscan.string, hsearch, hpos⟩
          · rw [Option.some.injEq, Prod.mk.injEq] at hfind
            rw [← hfind.2]
            exact ⟨hscan.memory, hscan.string, hsearch, hpos⟩
        · split at hfind
          · have hsearch : Inside (stringaaBeginReadPos scan.search) :=
              hscan.search.seek (Nat.zero_le _)
            exact hgo hfind ⟨stringaaGetChar_inBounds hsearch hscan.memory,
              hscan.string.seek hscan.pos_le, hsearch, hscan.pos_le⟩
          · exact hgo hfind hscan

theorem stringaaFind_inside {found : Int} {m' : Memory} {s' search' : Stringaa} (hs : Inside s)
    (hsearch : Inside search) (hm : m.InBounds)
    (hfind : stringaaFind m s search = some (found, m', s', search')) :
    Inside s' ∧ Inside search' ∧ m'.InBounds := by
  rw [stringaaFind] at hfind
  split at hfind
  · have hs' : Inside (stringaaBeginReadPos s) := hs.seek (Nat.zero_le _)
    have hsearch' : Inside (stringaaBeginReadPos search) := hsearch.seek (Nat.zero_le _)
    obtain ⟨⟨found', scan⟩, hloop, heq⟩ := Option.map_eq_some_iff.mp hfind
    have hscan := stringaaFindLoop_fits ⟨stringaaGetChar_inBounds hsearch'
      (stringaaGetChar_inBounds hs' hm), hs', hsearch', Nat.zero_le _⟩ hloop
    cases heq
    exact ⟨hscan.string, hscan.search, hscan.memory⟩
  · cases hfind
    exact ⟨hs, hsearch, hm⟩

/-- Where the match that is followed began, or else where the scan is. -/
def FindScan.start (scan : FindScan) : Nat := if scan.isFollow then scan.pos else scan.s.readPos

/-- How many more characters the scan can look at: from each later start, the whole text. -/
def FindScan.left (scan : FindScan) : Nat :=
  (scan.s.writePos - scan.start) * (scan.s.writePos + 1) + (scan.s.writePos - scan.s.readPos)

private theorem left_lt {start start' read read' write : Nat} (hread' : read' ≤ write)
    (hlater : start < start' ∧ start' ≤ read' ∨ start = start' ∧ read < read') :
    (write - start') * (write + 1) + (write - read') <
      (write - start) * (write + 1) + (write - read) := by
  rcases hlater with ⟨hlt, hle⟩ | ⟨rfl, hlt⟩
  · have hmul : (write - start' + 1) * (write + 1) ≤ (write - start) * (write + 1) :=
      Nat.mul_le_mul_right _ (by omega)
    rw [Nat.succ_mul] at hmul
    omega
  · omega

private theorem FindScan.next_left {scan : FindScan} (hnext : scan.next.1 = true) :
    scan.next.2.left = (scan.s.writePos - if scan.isFollow then scan.pos else scan.s.readPos + 1) *
        (scan.s.writePos + 1) + (scan.s.writePos - (scan.s.readPos + 1)) ∧
      scan.s.readPos + 1 < scan.s.writePos ∧ scan.next.2.isFollow = scan.isFollow ∧
      scan.next.2.pos = scan.pos ∧ scan.next.2.s.readPos = scan.s.readPos + 1 := by
  by_cases hlt : scan.s.readPos + 1 < scan.s.writePos
  · simp [FindScan.next, stringaaNextReadPos, hlt, left, start]
  · simp [FindScan.next, stringaaNextReadPos, hlt] at hnext

private theorem stringaaFindLoop_isSome {fuel : Nat} {scan : FindScan}
    (hpos : scan.isFollow → scan.pos ≤ scan.s.readPos) (hfuel : scan.left < fuel) :
    (stringaaFindLoop fuel scan).isSome := by
  induction fuel generalizing scan with
  | zero => cases hfuel
  | succ fuel ih =>
      have hgo {next : FindScan} (hpos' : next.isFollow → next.pos ≤ next.s.readPos)
          (hleft : next.next.1 = true → next.next.2.left < scan.left) : (if next.next.1 then
          stringaaFindLoop fuel next.next.2 else some (-1, next.next.2)).isSome := by
        split
        · rename_i hnext
          obtain ⟨-, -, hfollow, hsame, hread⟩ := FindScan.next_left hnext
          refine ih ?_ (Nat.lt_of_lt_of_le (hleft hnext) (Nat.le_of_lt_succ hfuel))
          rw [hfollow, hsame, hread]
          exact fun h => Nat.le_succ_of_le (hpos' h)
        · rfl
      simp only [stringaaFindLoop]
      split
      · rfl
      · split
        · split
          · refine hgo ?_ fun hnext => ?_
            · dsimp only
              split
              · rename_i hfollow
                exact fun _ => hpos hfollow
              · exact fun _ => Nat.le_refl _
            · obtain ⟨hleft, hlt, -⟩ := FindScan.next_left hnext
              rw [hleft]
              exact left_lt (Nat.le_of_lt hlt) (.inr ⟨rfl, Nat.lt_succ_self _⟩)
          · rfl
        · split
          · rename_i hfollow
            refine hgo (by simp) fun hnext => ?_
            obtain ⟨hleft, hlt, -⟩ := FindScan.next_left hnext
            rw [hleft, FindScan.left, FindScan.start, if_pos hfollow]
            exact left_lt (Nat.le_of_lt hlt) (.inl ⟨Nat.lt_succ_self _, Nat.le_refl _⟩)
          · rename_i hfollow
            refine hgo hpos fun hnext => ?_
            obtain ⟨hleft, hlt, -⟩ := FindScan.next_left hnext
            rw [hleft, FindScan.left, FindScan.start, if_neg hfollow, if_neg hfollow]
            exact left_lt (Nat.le_of_lt hlt) (.inl ⟨Nat.lt_succ_self _, Nat.le_refl _⟩)

theorem stringaaFind_isSome : (stringaaFind m s search).isSome := by
  rw [stringaaFind]
  split
  · rw [Option.isSome_map]
    refine stringaaFindLoop_isSome (by simp) ?_
    simp only [FindScan.left, FindScan.start, stringaaBeginReadPos, Nat.sub_zero]
    grind
  · rfl

theorem socketaaWorkerRecv_inside (hs : Inside s) (hm : m.InBounds) {received : Option (List UInt8)}
    (hok : s.isNullTerminated → ∀ bytes, received = some bytes →
      bytes.length < s.bufSize - s.writePos) :
    Inside (socketaaWorkerRecv m s received).2.2 ∧
      (socketaaWorkerRecv m s received).2.1.InBounds := by
  by_cases hroom : s.writePos < s.bufSize
  · have hm' : (m.touch s.writePos (s.bufSize - s.writePos) s.bufSize).InBounds :=
      Memory.inBounds_touch.mpr ⟨Access.inBounds_of_le (by omega), hm⟩
    rw [socketaaWorkerRecv, if_pos hroom]
    cases received with
    | none => exact ⟨hs, hm'⟩
    | some bytes =>
        dsimp only
        split
        · exact ⟨hs, hm'⟩
        · refine ⟨⟨Nat.le_trans hs.1 (Nat.le_add_right _ _), ?_⟩, hm'⟩
          have hlength : (bytes.take (s.bufSize - s.writePos)).length ≤ bytes.length :=
            List.length_take_le' _ _
          have htake := List.length_take_le (s.bufSize - s.writePos) bytes
          dsimp only
          cases hnull : s.isNullTerminated with
          | false =>
              rw [Bool.toNat_false]
              omega
          | true =>
              have hlt := hok hnull bytes rfl
              rw [Bool.toNat_true]
              omega
  · rw [socketaaWorkerRecv, if_neg hroom]
    exact ⟨hs, hm⟩

end Functions

/-! ### Runs -/

section Runs

variable {strings strings' : Strings} {heap : Heap} {calls : List StringaaCall}

structure Strings.Inv (strings : Strings) : Prop where
  inside : ∀ i, Inside (strings.string i)
  inBounds : strings.memory.InBounds

@[simp] theorem Strings.update_string_self {i : Nat} {m : Memory} {s : Stringaa} :
    (strings.update i m s).string i = s := Function.update_self ..

theorem Strings.update_string_of_ne {i k : Nat} {m : Memory} {s : Stringaa} (hk : k ≠ i) :
    (strings.update i m s).string k = strings.string k := Function.update_of_ne hk ..

private theorem Strings.Inv.stayInside (hinv : strings.Inv) : strings.StayInside :=
  ⟨fun i => (hinv.inside i).cursorsInside, hinv.inBounds⟩

theorem Strings.Inv.update (hinv : strings.Inv) (i : Nat) {m : Memory} {s : Stringaa}
    (hs : Inside s) (hm : m.InBounds) : (strings.update i m s).Inv := by
  refine ⟨fun k => ?_, hm⟩
  by_cases hk : k = i
  · rw [hk, Strings.update_string_self]
    exact hs
  · rw [Strings.update_string_of_ne hk]
    exact hinv.inside k

theorem Strings.Inv.step {call : StringaaCall} (hinv : strings.Inv)
    (hok : KeepsInside strings call) (hstep : strings.step call = some strings') :
    strings'.Inv := by
  have hs := hinv.inside
  have hm := hinv.inBounds
  cases call with
  | init i bufSize =>
      cases hstep
      exact hinv.update i (stringaaInit_inside hm).1 (stringaaInit_inside hm).2
  | setChars i buf length =>
      cases hstep
      exact hinv.update i (stringaaSetChars_inside (hs i)) hm
  | setCharsSize i buf bufSize =>
      cases hstep
      exact hinv.update i (stringaaSetCharsSize_inside (hs i)) hm
  | malloc i bufSize =>
      cases hstep
      obtain ⟨hs', hm', -⟩ := stringaaMalloc_inside (n := bufSize) (hs i) hm
      exact hinv.update i hs' hm'
  | realloc i bufSize =>
      cases hstep
      obtain ⟨hs', hm', -⟩ := stringaaRealloc_inside (n := bufSize) (hs i) hm
      exact hinv.update i hs' hm'
  | nextReadPos i =>
      cases hstep
      exact hinv.update i (stringaaNextReadPos_inside (hs i)) hm
  | prevReadPos i =>
      cases hstep
      exact hinv.update i (stringaaPrevReadPos_inside (hs i)) hm
  | beginReadPos i =>
      cases hstep
      exact hinv.update i ((hs i).seek (Nat.zero_le _)) hm
  | endReadPos i =>
      cases hstep
      exact hinv.update i ((hs i).seek (Nat.sub_le _ _)) hm
  | nextWritePos i =>
      cases hstep
      exact hinv.update i (stringaaNextWritePos_inside (hs i)) hm
  | prevWritePos i =>
      cases hstep
      exact hinv.update i (stringaaPrevWritePos_inside (hs i) hok) hm
  | beginWritePos i =>
      cases hstep
      refine hinv.update i ⟨Nat.le_of_eq hok, ?_⟩ hm
      exact Nat.le_trans (Nat.add_le_add_right (Nat.zero_le _) _) (hs i).2
  | endWritePos i =>
      cases hstep
      exact hinv.update i (stringaaEndWritePos_inside (hs i) hok) hm
  | getChar i =>
      cases hstep
      exact hinv.update i (hs i) (stringaaGetChar_inBounds (hs i) hm)
  | setChar i c =>
      cases hstep
      obtain ⟨hs', hm'⟩ := stringaaSetChar_inside (c := c) (hs i) hm
      exact hinv.update i hs' hm'
  | isChar i c =>
      cases hstep
      obtain ⟨hs', hm'⟩ := stringaaIsChar_inside (c := c) (hs i) hm
      exact hinv.update i hs' hm'
  | isChari i c =>
      cases hstep
      obtain ⟨hs', hm'⟩ := stringaaIsChari_inside (hs i) hm hok.1 hok.2
      exact hinv.update i hs' hm'
  | setSubstring i j pos1 pos2 =>
      obtain ⟨-, heq⟩ := Option.ite_none_left_eq_some.mp hstep
      cases heq
      exact hinv.update i (stringaaSetSubstring_inside (hs i) pos1 pos2) hm
  | copy i j =>
      obtain ⟨-, heq⟩ := Option.ite_none_left_eq_some.mp hstep
      cases heq
      obtain ⟨hs', hm'⟩ := stringaaCopy_inside (hs i) (hs j) hm
      exact hinv.update i hs' hm'
  | add i j =>
      obtain ⟨-, heq⟩ := Option.ite_none_left_eq_some.mp hstep
      cases heq
      obtain ⟨hs', hm'⟩ := stringaaAdd_inside (strings.string j) (hs i) hm
      exact hinv.update i hs' hm'
  | find i j =>
      obtain ⟨-, heq⟩ := Option.ite_none_left_eq_some.mp hstep
      obtain ⟨⟨found, m, s, search⟩, hfind, heq⟩ := Option.bind_eq_some_iff.mp heq
      cases heq
      obtain ⟨hs', hsearch', hm'⟩ := stringaaFind_inside (hs i) (hs j) hm hfind
      exact (hinv.update i hs' hm').update j hsearch' hm'
  | clean i =>
      cases hstep
      refine hinv.update i ⟨Nat.le_refl _, ?_⟩ hm
      exact Nat.le_trans (Nat.add_le_add_right (Nat.zero_le _) _) (hs i).2
  | recv i received =>
      cases hstep
      obtain ⟨hs', hm'⟩ := socketaaWorkerRecv_inside (hs i) hm hok
      exact hinv.update i hs' hm'

private theorem Strings.zeroed_inv : (Strings.zeroed heap).Inv :=
  ⟨fun _ => ⟨Nat.le_refl _, Nat.le_refl _⟩, by simp [Memory.InBounds, zeroed]⟩

private theorem Strings.StayInside.of_update {i : Nat} {m : Memory} {s : Stringaa}
    (h : (strings.update i m s).StayInside) : CursorsInside s := by
  have hs := h.1 i
  rwa [Strings.update_string_self] at hs

theorem Strings.Inv.leaves {call : StringaaCall} (hinv : strings.Inv)
    (hok : ¬ KeepsInside strings call) (hstep : strings.step call = some strings') :
    ¬ strings'.StayInside := by
  intro hstay
  cases call with
  | prevWritePos i =>
      obtain ⟨hread, hwrite⟩ := hinv.inside i
      cases hstep
      obtain ⟨hle, hpos⟩ := not_or.mp hok
      have hinside := hstay.of_update
      rw [stringaaPrevWritePos, if_pos ⟨Nat.pos_of_ne_zero hpos, hwrite⟩] at hinside
      have hle' := hinside.1
      dsimp only at hle'
      omega
  | beginWritePos i =>
      cases hstep
      exact hok (Nat.le_zero.mp hstay.of_update.1)
  | endWritePos i =>
      cases hstep
      exact hok hstay.of_update.1
  | isChari i c =>
      obtain ⟨b, m, s, heq⟩ : ∃ b m s,
          stringaaIsChari strings.memory (strings.string i) c = (b, m, s) := ⟨_, _, _, rfl⟩
      simp only [Strings.step, heq, Option.some.injEq] at hstep
      subst hstep
      have hlog : (stringaaIsChari strings.memory (strings.string i) c).2.1.log =
          ⟨(strings.string i).readPos, 1, (strings.string i).bufSize⟩ :: strings.memory.log := by
        simp only [stringaaIsChari]
        split <;> rfl
      rw [heq] at hlog
      have hlt : (strings.string i).readPos < (strings.string i).bufSize :=
        hstay.2 _ (hlog ▸ List.mem_cons_self : _ ∈ m.log) 0 Nat.one_pos
      refine hok ⟨hlt, fun hend hmatch => ?_⟩
      have hinside := hstay.of_update
      simp only [stringaaIsChari] at heq
      rw [Strings.charAtRead] at hmatch
      rw [if_pos hmatch, Prod.mk.injEq, Prod.mk.injEq] at heq
      rw [← heq.2.2] at hinside
      exact absurd hinside.1 (by simp [hend])
  | recv i received =>
      simp only [KeepsInside, not_forall, not_lt] at hok
      obtain ⟨hnull, bytes, rfl, hlength⟩ := hok
      have heq : strings.update i _ (socketaaWorkerRecv _ (strings.string i) (some bytes)).2.2 =
        strings' := Option.some.inj hstep
      have hwrite := (hinv.inside i).2
      rw [hnull, Bool.toNat_true] at hwrite
      rw [← heq] at hstay
      have hroom := hstay.of_update.2
      rw [socketaaWorkerRecv_fills hwrite hlength] at hroom
      simp only [hnull, Bool.toNat_true] at hroom
      omega
  | _ => exact hok trivial

/-- Every string a run reaches, by calls that meet the condition, is inside its buffer, and so was
every access; a call that does not meet it takes a string out of its buffer or looks behind it. -/
theorem strings_stayInside
    (hrun : GuardedRun Strings.step KeepsInside (Strings.zeroed heap) calls strings) :
    strings.StayInside ∧ ∀ call strings', ¬ KeepsInside strings call →
      strings.step call = some strings' → ¬ strings'.StayInside := by
  have hinv := hrun.invariant Strings.Inv (fun _ _ _ hinv hok hstep => hinv.step hok hstep)
    Strings.zeroed_inv
  exact ⟨hinv.stayInside, fun call strings' hok hstep => hinv.leaves hok hstep⟩

/-- A string of four bytes that receives two. -/
theorem strings_stayInside_receivesTwo :
    ∃ strings, GuardedRun Strings.step KeepsInside (Strings.zeroed (Heap.ofText []))
      [.init 0 4, .recv 0 (some [97, 98])] strings ∧ strings.StayInside := by
  have hrun : GuardedRun Strings.step KeepsInside (Strings.zeroed (Heap.ofText []))
      [.init 0 4, .recv 0 (some [97, 98])] _ :=
    .cons trivial rfl (.cons (by simp [KeepsInside, Strings.zeroed]) rfl (.nil _))
  exact ⟨_, hrun, (strings_stayInside hrun).1⟩

/-- The same string, filled to its last byte. -/
theorem strings_receivesAll :
    ¬ ∀ (heap : Heap) (calls : List StringaaCall) (strings : Strings),
      Run Strings.step (Strings.zeroed heap) calls strings → strings.StayInside := by
  intro hclaim
  have hinside := (hclaim (Heap.ofText []) [.init 0 4, .recv 0 (some [97, 98, 99, 100])] _
    (.cons trivial rfl (.cons trivial rfl (.nil _)))).1 0
  exact absurd hinside (by decide)

end Runs

end Httpaa.Traced
