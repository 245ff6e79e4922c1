import Httpaa.Foundation.Simulation
import Httpaa.Strings.CopyOnWrite
import Httpaa.Strings.Duplicate
import Httpaa.Strings.Ownership

/-!
# Strings as texts

Strings that `stringaa_init` has made and that are then only built up, copied, cleaned and read
stand each for a text with a place in it, in whatever order the calls come and wherever the buffers
are moved.
-/

namespace Httpaa.Traced

open Transition

/-- What a string stands for: its characters, the read position, and whether it has a buffer. -/
structure TextState where
  text : List UInt8 := []
  cursor : Nat := 0
  isMade : Bool := false

/-- The calls that neither link a string nor move its write position alone. Characters are those in
front of the terminator. -/
inductive TextCall
  | init (i bufSize : Nat)
  | addChars (i : Nat) (text : List UInt8)
  | add (i j : Nat)
  | copy (i j : Nat)
  | clean (i : Nat)
  | nextReadPos (i : Nat)
  | prevReadPos (i : Nat)
  | beginReadPos (i : Nat)
  | endReadPos (i : Nat)
  | getChar (i : Nat)
  | isChar (i : Nat) (c : UInt8)

/-- The call on the strings, with what it returns. Two strings in one call are two different
ones. -/
def Strings.call (strings : Strings) : TextCall → Option (UInt8 × Strings)
  | .init i bufSize =>
      let (isInit, m, s) := stringaaInit strings.memory bufSize
      some (isInit.toUInt8, strings.update i m s)
  | .addChars i text =>
      let (m, s) := stringaaAddLiteral strings.memory (strings.string i) text
      some (1, strings.update i m s)
  | .add i j =>
      if i = j then none
      else
        let (isAdd, m, s) := stringaaAdd strings.memory (strings.string i) (strings.string j)
        some (isAdd.toUInt8, strings.update i m s)
  | .copy i j =>
      if i = j then none
      else
        let (isCopy, m, s) := stringaaCopy strings.memory (strings.string i) (strings.string j)
        some (isCopy.toUInt8, strings.update i m s)
  | .clean i => some (1, strings.update i strings.memory (stringaaClean (strings.string i)))
  | .nextReadPos i =>
      let (isNext, s) := stringaaNextReadPos (strings.string i)
      some (isNext.toUInt8, strings.update i strings.memory s)
  | .prevReadPos i =>
      let (isPrev, s) := stringaaPrevReadPos (strings.string i)
      some (isPrev.toUInt8, strings.update i strings.memory s)
  | .beginReadPos i =>
      some (1, strings.update i strings.memory (stringaaBeginReadPos (strings.string i)))
  | .endReadPos i =>
      some (1, strings.update i strings.memory (stringaaEndReadPos (strings.string i)))
  | .getChar i =>
      let (c, m) := stringaaGetChar strings.memory (strings.string i)
      some (c, strings.update i m (strings.string i))
  | .isChar i c =>
      let (isChar, m, s) := stringaaIsChar strings.memory (strings.string i) c
      some (isChar.toUInt8, strings.update i m s)

namespace TextState

variable (t : TextState)

def char : UInt8 := t.text.getD t.cursor 0

def next : Bool × TextState :=
  (decide (t.cursor + 1 < t.text.length), { t with cursor := min (t.cursor + 1) t.text.length })

def prev : Bool × TextState :=
  if 0 < t.cursor ∧ t.cursor ≤ t.text.length then (true, { t with cursor := t.cursor - 1 })
  else (false, { t with cursor := t.text.length })

def add (text : List UInt8) : TextState := ⟨t.text ++ text, 0, true⟩

end TextState

/-- The same call on texts, which know nothing of buffers. -/
def textsCall (texts : Nat → TextState) : TextCall → Option (UInt8 × (Nat → TextState))
  | .init i bufSize => some (1, Function.update texts i { isMade := decide (0 < bufSize) })
  | .addChars i text =>
      some (1, if text = [] then texts else Function.update texts i ((texts i).add text))
  | .add i j =>
      if i = j then none
      else if (texts j).cursor < (texts j).text.length then
        some (1, Function.update texts i ((texts i).add ((texts j).text.drop (texts j).cursor)))
      else some (0, texts)
  | .copy i j =>
      if i = j then none
      else if (texts j).isMade then some (1, Function.update texts i ⟨(texts j).text, 0, true⟩)
      else some (0, texts)
  | .clean i => some (1, Function.update texts i { texts i with text := [], cursor := 0 })
  | .nextReadPos i => some ((texts i).next.1.toUInt8, Function.update texts i (texts i).next.2)
  | .prevReadPos i => some ((texts i).prev.1.toUInt8, Function.update texts i (texts i).prev.2)
  | .beginReadPos i => some (1, Function.update texts i { texts i with cursor := 0 })
  | .endReadPos i =>
      some (1, Function.update texts i { texts i with cursor := (texts i).text.length - 1 })
  | .getChar i => some ((texts i).char, texts)
  | .isChar i c =>
      if c = (texts i).char then some (1, Function.update texts i (texts i).next.2)
      else some (0, texts)

/-- Every string has been made by `stringaa_init` with no size. -/
def Strings.made (heap : Heap) : Strings := ⟨⟨heap, []⟩, fun _ => { isInit := true }⟩

/-! ### What a string stands for -/

/-- An initialised string that owns its buffer, if it has one, and is not full. -/
structure Standing (h : Heap) (s : Stringaa) : Prop where
  inMemory : InMemory h s
  isInit : s.isInit = true
  owns : s.buf ≠ none → s.isAlloc = true
  notFull : s.writePos < s.bufSize ∨ s.bufSize = 0

/-- The string stands for the text. -/
structure StandsFor (m : Memory) (s : Stringaa) (t : TextState) : Prop where
  standing : Standing m.heap s
  text : content m s = t.text
  cursor : s.readPos = t.cursor
  isMade : s.buf.isSome = t.isMade

/-- Every string stands for its text, and no two share a buffer. -/
structure Represents (strings : Strings) (texts : Nat → TextState) : Prop where
  standsFor : ∀ i, StandsFor strings.memory (strings.string i) (texts i)
  apart : ∀ i j, i ≠ j → ∀ p ∈ (strings.string i).buf, ∀ q ∈ (strings.string j).buf,
    p.block ≠ q.block

/-- The blocks of all others stay as they are, and the string has its old buffer or a new one. -/
structure Rebuilds (m : Memory) (s : Stringaa) (m' : Memory) (s' : Stringaa) : Prop where
  next : m.heap.next ≤ m'.heap.next
  bytes : ∀ b < m.heap.next, (∀ p ∈ s.buf, p.block ≠ b) → m'.heap.bytes b = m.heap.bytes b
  size : ∀ b < m.heap.next, (∀ p ∈ s.buf, p.block ≠ b) → m'.heap.size b = m.heap.size b
  buf : ∀ p ∈ s'.buf, m.heap.next ≤ p.block ∨ s.buf = some p

section Represents

variable {m m' : Memory} {s s' : Stringaa} {t : TextState} {strings : Strings}
  {texts : Nat → TextState} {i : Nat}

private theorem content_of_bytes
    (hbytes : ∀ p ∈ s.buf, m'.heap.bytes p.block = m.heap.bytes p.block) :
    content m' s = content m s := by
  rw [content, content]
  refine List.map_congr_left fun i _ => ?_
  cases hbuf : s.buf with
  | none => rfl
  | some p => simp only [Option.elim_some, Heap.byte, Ptr.add, hbytes p hbuf]

/-- A string is not concerned by what becomes of the blocks of others. -/
theorem StandsFor.frame (hs : StandsFor m s t) (hnext : m.heap.next ≤ m'.heap.next)
    (hbytes : ∀ p ∈ s.buf, m'.heap.bytes p.block = m.heap.bytes p.block)
    (hsize : ∀ p ∈ s.buf, m'.heap.size p.block = m.heap.size p.block) : StandsFor m' s t := by
  obtain ⟨⟨⟨hroom, hknown, hempty, howns⟩, hinit, halloc, hfull⟩, htext, hcursor, hmade⟩ := hs
  refine ⟨⟨⟨hroom, fun p hp => (hknown p hp).trans_le hnext, hempty, fun h => ?_⟩, hinit, halloc,
    hfull⟩, (content_of_bytes hbytes).trans htext, hcursor, hmade⟩
  obtain ⟨block, hbuf, hblock⟩ := howns h
  exact ⟨block, hbuf, hblock.trans_eq (hsize _ hbuf).symm⟩

private theorem Represents.rebuild (hrep : Represents strings texts)
    (hrebuilds : Rebuilds strings.memory (strings.string i) m s) (hs : StandsFor m s t) :
    Represents (strings.update i m s) (Function.update texts i t) := by
  have hother {k : Nat} (hk : k ≠ i) (p : Ptr) (hp : p ∈ (strings.string k).buf) :
      p.block < strings.memory.heap.next ∧ ∀ q ∈ (strings.string i).buf, q.block ≠ p.block :=
    ⟨(hrep.standsFor k).standing.inMemory.known p hp, fun q hq => hrep.apart i k hk.symm q hq p hp⟩
  have hapart {k : Nat} (hk : k ≠ i) (p : Ptr) (hp : p ∈ (strings.string k).buf) (q : Ptr)
      (hq : q ∈ s.buf) : q.block ≠ p.block := by
    obtain ⟨hknown, hne⟩ := hother hk p hp
    rcases hrebuilds.buf q hq with hnew | hold
    · exact Nat.ne_of_gt (hknown.trans_le hnew)
    · exact hne q hold
  constructor
  · intro k
    by_cases hk : k = i
    · rw [hk, Strings.update_string_self, Function.update_self]
      exact hs
    · rw [Strings.update_string_of_ne hk, Function.update_of_ne hk]
      refine (hrep.standsFor k).frame hrebuilds.next (fun p hp => ?_) fun p hp => ?_
      · exact hrebuilds.bytes _ (hother hk p hp).1 (hother hk p hp).2
      · exact hrebuilds.size _ (hother hk p hp).1 (hother hk p hp).2
  · intro k l hkl p hp q hq
    by_cases hk : k = i
    · have hl : l ≠ i := fun h => hkl (hk.trans h.symm)
      rw [hk, Strings.update_string_self] at hp
      rw [Strings.update_string_of_ne hl] at hq
      exact hapart hl q hq p hp
    · rw [Strings.update_string_of_ne hk] at hp
      by_cases hl : l = i
      · rw [hl, Strings.update_string_self] at hq
        exact (hapart hk p hp q hq).symm
      · rw [Strings.update_string_of_ne hl] at hq
        exact hrep.apart k l hkl p hp q hq

theorem Rebuilds.same (hheap : m'.heap = m.heap) (hbuf : s'.buf = s.buf) : Rebuilds m s m' s' :=
  ⟨Nat.le_of_eq (congrArg Heap.next hheap).symm, fun b _ _ => by rw [hheap],
    fun b _ _ => by rw [hheap], fun p hp => .inr (hbuf ▸ hp)⟩

theorem StandsFor.seek (hs : StandsFor m s t) (n : Nat) :
    StandsFor m (s.seek n) { t with cursor := n } :=
  ⟨⟨⟨hs.standing.inMemory.room, hs.standing.inMemory.known, hs.standing.inMemory.empty,
    hs.standing.inMemory.owns⟩, hs.standing.isInit, hs.standing.owns, hs.standing.notFull⟩, hs.text,
    rfl, hs.isMade⟩

theorem StandsFor.writePos (hs : StandsFor m s t) : s.writePos = t.text.length := by
  rw [← hs.text, content_length]

/-- The read position is moved. -/
theorem Represents.seek (hrep : Represents strings texts) (n : Nat) :
    Represents (strings.update i strings.memory ((strings.string i).seek n))
      (Function.update texts i { texts i with cursor := n }) :=
  hrep.rebuild (.same rfl rfl) ((hrep.standsFor i).seek n)

theorem StandsFor.clean (hs : StandsFor m s t) :
    StandsFor m (stringaaClean s) { t with text := [], cursor := 0 } := by
  obtain ⟨⟨⟨hroom, hknown, hempty, howns⟩, hinit, halloc, hfull⟩, -, -, hmade⟩ := hs
  have hroom' : 0 + s.isNullTerminated.toNat ≤ s.bufSize :=
    (Nat.add_le_add_right (Nat.zero_le _) _).trans hroom
  exact ⟨⟨⟨hroom', hknown, hempty, howns⟩, hinit, halloc, (Nat.eq_zero_or_pos _).symm⟩, rfl, rfl,
    hmade⟩

/-! ### What is written -/

/-- The string owns a block that is as large as its buffer, and only that has been written. -/
structure WritesBlock (m m' : Memory) (s' : Stringaa) : Prop where
  isAlloc : s'.isAlloc = true
  isInit : s'.isInit = true
  readPos : s'.readPos = 0
  room : s'.writePos + s'.isNullTerminated.toNat ≤ s'.bufSize
  notFull : s'.writePos < s'.bufSize
  block : ∃ block, s'.buf = some ⟨block, 0⟩ ∧ s'.bufSize ≤ m'.heap.size block ∧
    m.heap.SameBeside m'.heap block

variable {freed forgotten : Option Ptr}

theorem Parts.buf (hparts : Parts s freed forgotten) : ∀ p ∈ freed, s.buf = some p := by
  intro p hp
  rcases hparts with ⟨rfl, -⟩ | ⟨rfl, -⟩
  · rw [owned] at hp
    exact (Option.ite_none_right_eq_some.mp hp).2
  · cases hp

private theorem WritesBlock.rebuilds (hwrites : WritesBlock m m' s')
    (hgives : Gives m s freed forgotten m' s') (hknown : ∀ p ∈ s.buf, p.block < m.heap.next) :
    Rebuilds m s m' s' ∧ ∀ p ∈ s'.buf, p.block < m'.heap.next := by
  obtain ⟨block, hbuf, -, hbeside⟩ := hwrites.block
  cases hgives with
  | keeps hblocks hbuffer =>
      have hown : s.buf = some ⟨block, 0⟩ := hbuffer.buf.symm.trans hbuf
      refine ⟨⟨hbeside.next, fun b _ hb => ?_, fun b _ _ => by rw [hblocks.size], ?_⟩, ?_⟩
      · exact hbeside.bytes b (hb _ hown).symm
      · exact fun p hp => .inr (hbuffer.buf.symm.trans hp)
      · intro p hp
        rw [hblocks.next]
        exact hknown p (hbuffer.buf.symm.trans hp)
  | takes hnew halloc hnext hsize hparts =>
      have hblock : block = m.heap.next := by
        cases hbuf.symm.trans hnew
        rfl
      refine ⟨⟨hbeside.next, fun b hb _ => ?_, fun b hb hne => ?_, fun p hp => ?_⟩, fun p hp => ?_⟩
      · exact hbeside.bytes b (by rw [hblock]; exact Nat.ne_of_lt hb)
      · rw [hsize b fun p hp => hne p (hparts.buf p hp), if_neg (Nat.ne_of_lt hb)]
      · cases hnew.symm.trans hp
        exact .inl (Nat.le_refl _)
      · cases hnew.symm.trans hp
        rw [hnext]
        exact Nat.lt_succ_self _
  | links hnext hsize halloc hparts => cases hwrites.isAlloc.symm.trans halloc

private theorem WritesBlock.standsFor (hwrites : WritesBlock m m' s') {text : List UInt8}
    (hknown : ∀ p ∈ s'.buf, p.block < m'.heap.next) (htext : content m' s' = text) :
    StandsFor m' s' ⟨text, 0, true⟩ := by
  obtain ⟨block, hbuf, hsize, -⟩ := hwrites.block
  refine ⟨⟨⟨hwrites.room, hknown, fun hnone => ?_, fun _ => ⟨block, hbuf, hsize⟩⟩, hwrites.isInit,
    fun _ => hwrites.isAlloc, .inl hwrites.notFull⟩, htext, hwrites.readPos, by rw [hbuf]; rfl⟩
  cases hbuf.symm.trans hnone

theorem Represents.write (hrep : Represents strings texts) {text : List UInt8}
    (hwrites : WritesBlock strings.memory m s)
    (hgives : Gives strings.memory (strings.string i) freed forgotten m s)
    (htext : content m s = text) :
    Represents (strings.update i m s) (Function.update texts i ⟨text, 0, true⟩) := by
  obtain ⟨hrebuilds, hknown⟩ := hwrites.rebuilds hgives
    (hrep.standsFor i).standing.inMemory.known
  exact hrep.rebuild hrebuilds (hwrites.standsFor hknown htext)

/-! ### The calls that write -/

theorem makeRoom_gives (m : Memory) (s : Stringaa) (n : Nat) :
    ∃ forgotten, Gives m s none forgotten (makeRoom m s n).1 (makeRoom m s n).2 := by
  rw [makeRoom]
  split
  · exact ⟨_, stringaaRealloc_gives m s _⟩
  · exact ⟨none, .refl m s⟩

private theorem Standing.adds (hs : Standing m.heap s) {n : Nat} (hadds : AddsTo m s n m' s') :
    WritesBlock m m' s' ∧ ∃ forgotten, Gives m s none forgotten m' s' := by
  obtain ⟨rfl, b, -, hheap⟩ := hadds
  have hroom := Bool.toNat_le (makeRoom m s n).2.isNullTerminated
  obtain ⟨forgotten, hgives⟩ := makeRoom_gives m s n
  have hmade : ∃ block, (makeRoom m s n).2.buf = some ⟨block, 0⟩ ∧
      (makeRoom m s n).2.isAlloc = true ∧
      (makeRoom m s n).2.bufSize ≤ (makeRoom m s n).1.heap.size block ∧
      m.heap.SameBeside (makeRoom m s n).1.heap block ∧
      (makeRoom m s n).2.writePos + n + 1 ≤ (makeRoom m s n).2.bufSize := by
    by_cases hsize : s.writePos + n + 1 < s.bufSize
    · rw [makeRoom_stays hsize]
      have halloc : s.isAlloc = true := hs.owns fun hnone => by
        rw [hs.inMemory.empty hnone] at hsize
        exact Nat.not_lt_zero _ hsize
      obtain ⟨block, hbuf, hblock⟩ := hs.inMemory.owns halloc
      exact ⟨block, hbuf, halloc, hblock, .refl _ _, Nat.le_of_lt hsize⟩
    · obtain ⟨m₁, t, hmake, hmoved⟩ := makeRoom_moved (m := m) hs.inMemory.empty hs.inMemory.room
        hs.isInit (Nat.le_of_not_lt hsize)
      rw [hmake]
      exact ⟨_, hmoved.buf, hmoved.isAlloc, Nat.le_of_eq hmoved.size.symm, hmoved.beside,
        hmoved.room⟩
  obtain ⟨block, hbuf, halloc, hsize, hbeside, hend⟩ := hmade
  have hheap' := hheap block hbuf
  refine ⟨⟨halloc, rfl, rfl, ?_, Nat.lt_of_succ_le hend, block, hbuf, ?_, ?_⟩, forgotten,
    hgives.write ⟨by rw [hheap']; rfl, by rw [hheap']; rfl⟩ ⟨rfl, rfl, rfl⟩⟩
  · exact (Nat.add_le_add_left hroom _).trans hend
  · rw [hheap']
    exact hsize
  · rw [hheap']
    exact hbeside.trans (storeAll_sameBeside _ _ _)

private theorem StandsFor.buf_ne_none (hs : StandsFor m s t) (hpos : 0 < s.writePos) :
    s.buf ≠ none := by
  intro hnone
  have hroom := hs.standing.inMemory.room
  rw [hs.standing.inMemory.empty hnone] at hroom
  omega

private theorem Standing.growsOrOwns (hs : Standing m.heap s) (n : Nat) : GrowsOrOwns s n := by
  refine ⟨?_, hs.notFull⟩
  by_cases hbuf : s.buf = none
  · exact .inr ((hs.inMemory.empty hbuf).trans_le (Nat.zero_le _))
  · exact .inl (hs.owns hbuf)

theorem StandsFor.add {s2 : Stringaa} {t2 : TextState} (hs : StandsFor m s t)
    (hs2 : StandsFor m s2 t2) (hlt : t2.cursor < t2.text.length) :
    (stringaaAdd m s s2).1 = true ∧
      WritesBlock m (stringaaAdd m s s2).2.1 (stringaaAdd m s s2).2.2 ∧
      (∃ forgotten, Gives m s none forgotten (stringaaAdd m s s2).2.1 (stringaaAdd m s s2).2.2) ∧
      content (stringaaAdd m s s2).2.1 (stringaaAdd m s s2).2.2 =
        t.text ++ t2.text.drop t2.cursor := by
  rw [← hs2.cursor, ← hs2.writePos] at hlt
  have hbuf := hs2.buf_ne_none (Nat.zero_lt_of_lt hlt)
  obtain ⟨q, hq⟩ := Option.ne_none_iff_exists'.mp hbuf
  have hroom := hs2.standing.inMemory.room
  have hadds : AddsTo m s (s2.writePos - s2.readPos) (stringaaAdd m s s2).2.1
      (stringaaAdd m s s2).2.2 := by
    rw [stringaaAdd, if_pos ⟨hbuf, hs2.standing.isInit, hlt, hroom⟩]
    have hchars : (stringChars s2 s2.readPos).buf ≠ none := hbuf
    exact stringaaAddCharsSize_addsTo hchars (Nat.sub_pos_of_lt hlt)
  obtain ⟨hreturns, hcontent, -⟩ := ((stringaaAddCharsSize_appends m s hs.standing.inMemory
    hs.standing.isInit).2 s2 q hs2.standing.isInit hq (hs2.standing.inMemory.known q hq) hlt
      hroom).mpr (hs.standing.growsOrOwns _)
  obtain ⟨hwrites, hgives⟩ := hs.standing.adds hadds
  exact ⟨hreturns, hwrites, hgives, by rw [hcontent, hs.text, hs2.text, hs2.cursor]⟩

theorem StandsFor.copy {s2 : Stringaa} {t2 : TextState} (hs : StandsFor m s t)
    (hs2 : StandsFor m s2 t2) (hbuf : s2.buf ≠ none)
    (hapart : ∀ p ∈ s.buf, ∀ q ∈ s2.buf, p.block ≠ q.block) :
    (stringaaCopy m s s2).1 = true ∧
      WritesBlock m (stringaaCopy m s s2).2.1 (stringaaCopy m s s2).2.2 ∧
      content (stringaaCopy m s s2).2.1 (stringaaCopy m s s2).2.2 = t2.text := by
  obtain ⟨q, hq⟩ := Option.ne_none_iff_exists'.mp hbuf
  have hroom := hs2.standing.inMemory.room
  have hknown := hs2.standing.inMemory.known q hq
  have hs1 : OwnsApart m.heap s q := by
    intro halloc
    obtain ⟨block, hblock, hsize⟩ := hs.standing.inMemory.owns halloc
    exact ⟨block, hblock, hs.standing.inMemory.known _ hblock, hsize, hapart _ hblock q hq⟩
  obtain ⟨hreturns, hcontent, hwrites, -⟩ :=
    stringaaCopy_copies m s s2 q hs2.standing.isInit hq hknown hroom hs1
  obtain ⟨m₁, t₁, block, hset, hprepared⟩ :=
    prepared_of_copy hs1 hknown (s2.bufSize - s2.isNullTerminated.toNat)
  have hshape : (stringaaCopy m s s2).2.2 =
      { t₁ with writePos := s2.writePos, readPos := 0, isInit := true } := by
    rw [stringaaCopy, if_neg (by simp [hq, hs2.standing.isInit]), stringaaCopyCharsSize,
      if_neg (by simp [stringChars, hq]), hset]
    rfl
  obtain ⟨own, hown, hsize, hbeside, -⟩ := hwrites.block
  refine ⟨hreturns, ⟨hwrites.isAlloc, by rw [hshape], by rw [hshape], hwrites.room, ?_, own, hown,
    hsize, hbeside⟩, by rw [hcontent, hs2.text]⟩
  rw [hshape]
  have hlast := hprepared.room
  show s2.writePos < t₁.bufSize
  omega

private theorem stringaaInit_writes (m : Memory) {n : Nat} (hn : 0 < n) :
    (stringaaInit m n).1 = true ∧ WritesBlock m (stringaaInit m n).2.1 (stringaaInit m n).2.2 ∧
      content (stringaaInit m n).2.1 (stringaaInit m n).2.2 = [] := by
  have hset : 0 < n ∧ (((({} : Stringaa).isAlloc : Prop) ∧ ({} : Stringaa).bufSize < n) ∨
      ¬ ({} : Stringaa).isAlloc) := ⟨hn, .inr (by decide)⟩
  have heq : stringaaInit m n = (true, { m with heap := (m.heap.malloc n).2 }.touch 0 n n,
      { buf := some ⟨m.heap.next, 0⟩, bufSize := n, isInit := true, isAlloc := true
        isNullTerminated := true }) := by
    simp only [stringaaInit, if_pos hn, stringaaMalloc, Httpaa.stringaaMalloc, if_pos hset, if_true]
    rfl
  rw [heq]
  refine ⟨rfl, ⟨rfl, rfl, rfl, ?_, hn, m.heap.next, rfl, ?_, ?_⟩, rfl⟩
  · exact (Nat.zero_add 1).trans_le hn
  · simp [Memory.touch, Heap.malloc]
  · exact m.heap.malloc_sameBeside n

private theorem StandsFor.unmade (m : Memory) : StandsFor m { isInit := true } {} := by
  have hin : InMemory m.heap { isInit := true } := by
    refine ⟨Nat.le_refl _, fun p hp => ?_, fun _ => rfl, fun h => ?_⟩
    · cases hp
    · cases h
  exact ⟨⟨hin, rfl, fun h => absurd rfl h, .inr rfl⟩, rfl, rfl, rfl⟩

/-! ### One call -/

theorem Strings.update_self (strings : Strings) (i : Nat) :
    strings.update i strings.memory (strings.string i) = strings := by
  rw [Strings.update, Function.update_eq_self]

theorem StandsFor.char (hs : StandsFor m s t) : (stringaaGetChar m s).1 = t.char := by
  rw [(stringaaGetChar_content m s).1, hs.text, hs.cursor]
  rfl

theorem StandsFor.nextReadPos (hs : StandsFor m s t) :
    stringaaNextReadPos s = (t.next.1, s.seek t.next.2.cursor) := by
  simp only [stringaaNextReadPos, TextState.next, ← hs.writePos, ← hs.cursor]
  split
  · rename_i hlt
    rw [decide_eq_true hlt, Nat.min_eq_left (Nat.le_of_lt hlt)]
    rfl
  · rename_i hge
    rw [decide_eq_false hge, Nat.min_eq_right (Nat.le_of_not_lt hge)]
    rfl

theorem StandsFor.prevReadPos (hs : StandsFor m s t) :
    stringaaPrevReadPos s = (t.prev.1, s.seek t.prev.2.cursor) := by
  simp only [stringaaPrevReadPos, TextState.prev, ← hs.writePos, ← hs.cursor]
  split <;> rfl

theorem Represents.read (hrep : Represents strings texts) (hheap : m.heap = strings.memory.heap) :
    Represents (strings.update i m (strings.string i)) texts := by
  have hframe : StandsFor m (strings.string i) (texts i) :=
    (hrep.standsFor i).frame (Nat.le_of_eq (congrArg Heap.next hheap).symm)
      (fun _ _ => by rw [hheap]) fun _ _ => by rw [hheap]
  have hread := hrep.rebuild (.same hheap rfl) hframe
  rwa [Function.update_eq_self] at hread

/-- Strings and their texts answer alike, and go on to strings and their texts. -/
theorem Represents.call (hrep : Represents strings texts) (call : TextCall) :
    Alike Represents (strings.call call) (textsCall texts call) := by
  cases call with
  | init i n =>
      rcases Nat.eq_zero_or_pos n with rfl | hn
      · refine .answered 1 (hrep.rebuild ⟨Nat.le_refl _, fun _ _ _ => rfl, fun _ _ _ => rfl, ?_⟩ ?_)
        · intro p hp
          cases hp
        · exact .unmade strings.memory
      · obtain ⟨hreturns, hwrites, hcontent⟩ := stringaaInit_writes strings.memory hn
        have hrep' := hrep.write (i := i) hwrites (stringaaInit_gives _ _ n) hcontent
        simp only [Strings.call, textsCall, hreturns, decide_eq_true hn]
        exact .answered 1 hrep'
  | addChars i text =>
      have hs := hrep.standsFor i
      by_cases htext : text = []
      · have hnothing : stringaaAddLiteral strings.memory (strings.string i) text =
            (strings.memory, strings.string i) := if_neg (not_not_intro htext)
        simp only [Strings.call, textsCall, hnothing, if_pos htext, Strings.update_self]
        exact .answered 1 hrep
      · obtain ⟨hwrites, forgotten, hgives⟩ :=
          hs.standing.adds (stringaaAddLiteral_addsTo (m := strings.memory) htext)
        have hcontent := (stringaaAddLiteral_content (m := strings.memory) hs.standing.isInit
          hs.standing.inMemory.empty hs.standing.inMemory.room hs.standing.notFull htext).1
        rw [hs.text] at hcontent
        simp only [Strings.call, textsCall, if_neg htext]
        exact .answered 1 (hrep.write hwrites hgives hcontent)
  | add i j =>
      by_cases hij : i = j
      · simp only [Strings.call, textsCall, if_pos hij]
        exact .refused
      · have hs2 := hrep.standsFor j
        simp only [Strings.call, textsCall, if_neg hij]
        by_cases hlt : (texts j).cursor < (texts j).text.length
        · obtain ⟨hreturns, hwrites, ⟨forgotten, hgives⟩, hcontent⟩ :=
            (hrep.standsFor i).add hs2 hlt
          rw [if_pos hlt, hreturns]
          exact .answered 1 (hrep.write hwrites hgives hcontent)
        · have hnothing : stringaaAdd strings.memory (strings.string i) (strings.string j) =
              (false, strings.memory, strings.string i) := by
            refine if_neg fun hall => hlt ?_
            rw [← hs2.cursor, ← hs2.writePos]
            exact hall.2.2.1
          simp only [hnothing, if_neg hlt, Strings.update_self]
          exact .answered 0 hrep
  | copy i j =>
      by_cases hij : i = j
      · simp only [Strings.call, textsCall, if_pos hij]
        exact .refused
      · have hs2 := hrep.standsFor j
        simp only [Strings.call, textsCall, if_neg hij]
        by_cases hbuf : (strings.string j).buf = none
        · have hmade : (texts j).isMade = false := by rw [← hs2.isMade, hbuf]; rfl
          have hnothing : stringaaCopy strings.memory (strings.string i) (strings.string j) =
              (false, strings.memory, strings.string i) := if_pos (.inl hbuf)
          simp only [hnothing, hmade, Strings.update_self]
          exact .answered 0 hrep
        · have hmade : (texts j).isMade = true := by
            rw [← hs2.isMade, Option.isSome_iff_ne_none]
            exact hbuf
          obtain ⟨hreturns, hwrites, hcontent⟩ :=
            (hrep.standsFor i).copy hs2 hbuf (hrep.apart i j hij)
          rw [if_pos hmade, hreturns]
          exact .answered 1 (hrep.write hwrites (stringaaCopy_gives _ _ _) hcontent)
  | clean i => exact .answered 1 (hrep.rebuild (.same rfl rfl) (hrep.standsFor i).clean)
  | nextReadPos i =>
      simp only [Strings.call, textsCall, (hrep.standsFor i).nextReadPos]
      exact .answered _ (hrep.seek _)
  | prevReadPos i =>
      have hprev : (texts i).prev.2 = { texts i with cursor := (texts i).prev.2.cursor } := by
        rw [TextState.prev]
        split <;> rfl
      simp only [Strings.call, textsCall, (hrep.standsFor i).prevReadPos]
      rw [hprev]
      exact .answered _ (hrep.seek _)
  | beginReadPos i => exact .answered 1 (hrep.seek 0)
  | endReadPos i =>
      simp only [Strings.call, textsCall, ← (hrep.standsFor i).writePos]
      exact .answered 1 (hrep.seek _)
  | getChar i =>
      simp only [Strings.call, textsCall, ← (hrep.standsFor i).char]
      exact .answered _ (hrep.read (stringaaGetChar_content _ _).2)
  | isChar i c =>
      have hs := hrep.standsFor i
      have hheap := (stringaaGetChar_content strings.memory (strings.string i)).2
      simp only [Strings.call, textsCall, stringaaIsChar, hs.char, hs.nextReadPos]
      by_cases hc : c = (texts i).char
      · simp only [if_pos hc]
        refine .answered 1 (hrep.rebuild (.same hheap rfl) ?_)
        exact (hs.frame (Nat.le_of_eq (congrArg Heap.next hheap).symm)
          (fun _ _ => by rw [hheap]) fun _ _ => by rw [hheap]).seek _
      · simp only [if_neg hc]
        exact .answered 0 (hrep.read hheap)

end Represents

/-! ### Runs -/

private theorem Strings.made_represents (heap : Heap) :
    Represents (Strings.made heap) fun _ => {} := by
  refine ⟨fun i => .unmade _, fun i j _ p hp => ?_⟩
  cases hp

/-- The runs of strings are those of texts: the same calls are possible and return the same values,
and afterwards each string holds its text and stands at its place. -/
theorem Strings.run_texts (heap : Heap) (events : List (TextCall × UInt8)) :
    (∀ strings, Run (observed Strings.call) (Strings.made heap) events strings →
      ∃ texts, Run (observed textsCall) (fun _ => {}) events texts ∧
        ∀ i, content strings.memory (strings.string i) = (texts i).text ∧
          (strings.string i).readPos = (texts i).cursor) ∧
    ∀ texts, Run (observed textsCall) (fun _ => {}) events texts →
      ∃ strings, Run (observed Strings.call) (Strings.made heap) events strings ∧
        ∀ i, content strings.memory (strings.string i) = (texts i).text ∧
          (strings.string i).readPos = (texts i).cursor := by
  constructor
  · intro strings hrun
    obtain ⟨texts, hrun', hrep⟩ :=
      run_alike (fun _ _ call hrep => hrep.call call) hrun (Strings.made_represents heap)
    exact ⟨texts, hrun', fun i => ⟨(hrep.standsFor i).text, (hrep.standsFor i).cursor⟩⟩
  · intro texts hrun
    obtain ⟨strings, hrun', hrep⟩ :=
      run_alike (fun _ _ call hrep => (Represents.call hrep call).symm) hrun
        (Strings.made_represents heap)
    exact ⟨strings, hrun', fun i => ⟨(hrep.standsFor i).text, (hrep.standsFor i).cursor⟩⟩

/-- A text is copied, and one copy added to the other behind its first character. -/
theorem Strings.run_texts_copied : ∃ strings,
    Run (observed Strings.call) (Strings.made (Heap.ofText []))
      [(.addChars 0 [97, 98], 1), (.copy 1 0, 1), (.isChar 1 97, 1), (.add 0 1, 1)] strings ∧
      content strings.memory (strings.string 0) = [97, 98, 98] := by
  have htexts : Run (observed textsCall) (fun _ => {})
      [(.addChars 0 [97, 98], 1), (.copy 1 0, 1), (.isChar 1 97, 1), (.add 0 1, 1)] _ :=
    .cons trivial rfl (.cons trivial rfl (.cons trivial rfl (.cons trivial rfl (.nil _))))
  obtain ⟨strings, hrun, hall⟩ := (Strings.run_texts (Heap.ofText []) _).2 _ htexts
  exact ⟨strings, hrun, (hall 0).1.trans rfl⟩

end Httpaa.Traced
