import Httpaa.Foundation.Transition
import Httpaa.Strings.Append

/-!
# Strings that link what is not theirs

A linked string is to be moved to a buffer of its own by the first write. `stringaa_set_char` asks
for a buffer of size 0 and is refused, and an addition is refused that asks for less than is linked;
both then write into the buffer that is linked.
-/

namespace Httpaa.Traced

open Transition

variable {m m' m₁ : Memory} {s s' t : Stringaa} {chars : Chars} {p q : Ptr} {b : List UInt8}
  {n block src : Nat} {h₀ : Heap}

/-- The functions that only move a cursor. -/
inductive CursorMove
  | nextReadPos
  | prevReadPos
  | beginReadPos
  | endReadPos
  | nextWritePos
  | prevWritePos
  | beginWritePos
  | endWritePos
  | clean

def CursorMove.apply (s : Stringaa) : CursorMove → Stringaa
  | .nextReadPos => (stringaaNextReadPos s).2
  | .prevReadPos => (stringaaPrevReadPos s).2
  | .beginReadPos => stringaaBeginReadPos s
  | .endReadPos => stringaaEndReadPos s
  | .nextWritePos => (stringaaNextWritePos s).2
  | .prevWritePos => (stringaaPrevWritePos s).2
  | .beginWritePos => stringaaBeginWritePos s
  | .endWritePos => stringaaEndWritePos s
  | .clean => stringaaClean s

/-- A call on the string. -/
inductive LinkCall
  | move (cursor : CursorMove)
  | setChar (c : UInt8)
  | addCharsSize (chars : Chars) (n : Nat)
  | addLiteral (text : List UInt8)
  | add (s2 : Stringaa)

def linkStep : Memory × Stringaa → LinkCall → Option (Memory × Stringaa)
  | (m, s), .move cursor => some (m, cursor.apply s)
  | (m, s), .setChar c => some (stringaaSetChar m s c).2
  | (m, s), .addCharsSize chars n => some (stringaaAddCharsSize m s chars n).2
  | (m, s), .addLiteral text => some (stringaaAddLiteral m s text)
  | (m, s), .add s2 => some (stringaaAdd m s s2).2

/-- How many characters a call adds to the content, if it writes. -/
def writes (s : Stringaa) : LinkCall → Option Nat
  | .move _ => none
  | .setChar _ => if s.writePos + s.isNullTerminated.toNat < s.bufSize then some 0 else none
  | .addCharsSize chars n => if chars.buf ≠ none ∧ 0 < n then some n else none
  | .addLiteral text => if text ≠ [] then some text.length else none
  | .add s2 =>
      if s2.buf ≠ none ∧ s2.isInit ∧ s2.readPos < s2.writePos ∧
          s2.writePos + s2.isNullTerminated.toNat ≤ s2.bufSize then
        some (s2.writePos - s2.readPos)
      else none

/-- A call that writes leaves the string in a buffer of its own, with what was added behind the
content. -/
def MovesOut (m : Memory) (s : Stringaa) (src : Nat) (call : LinkCall) (m' : Memory)
    (s' : Stringaa) : Prop :=
  ∀ n, writes s call = some n → s'.isAlloc = true ∧
    (∃ block ≠ src, s'.buf = some ⟨block, 0⟩) ∧
    ∃ added : List UInt8, added.length = n ∧ content m' s' = content m s ++ added

/-- The call does not set a character where there is room, and if it adds some, the string is not
longer than what it would need and does not end with its buffer. -/
def CopiesOut (s : Stringaa) (call : LinkCall) : Prop :=
  ∀ n, writes s call = some n → (∀ c, call ≠ .setChar c) ∧ GrowsOrOwns s n

/-- A string over a buffer that it does not own. -/
structure Linked (s : Stringaa) (p : Ptr) : Prop where
  isInit : s.isInit = true
  isAlloc : s.isAlloc = false
  buf : s.buf = some p
  room : s.writePos + s.isNullTerminated.toNat ≤ s.bufSize

theorem linked_of_set (s s2 : Stringaa) (p : Ptr) (hn : 0 < n) :
    Linked (stringaaSetCharsSize s (some p) n).2 p ∧ Linked (stringaaSetChars s (some p) n).2 p ∧
      ∀ pos1 pos2 : Int, s2.buf = some p → stringaaSetSubstring s s2 pos1 pos2 = s ∨
        ∃ off, Linked (stringaaSetSubstring s s2 pos1 pos2) (p.add off) := by
  refine ⟨?_, ?_, fun pos1 pos2 hbuf => ?_⟩
  · rw [stringaaSetCharsSize, if_pos ⟨rfl, hn⟩]
    exact ⟨rfl, rfl, rfl, Nat.le_refl _⟩
  · simp only [stringaaSetChars, stringaaSetCharsSize, if_pos (And.intro Option.isSome_some hn)]
    exact ⟨rfl, rfl, rfl, Nat.le_refl _⟩
  · unfold stringaaSetSubstring
    extract_lets first last
    split
    · exact .inr ⟨first.toNat, rfl, rfl, by rw [hbuf, Option.map_some], Nat.le_refl _⟩
    · exact .inl rfl

/-- The buffer that was linked is as it was; the string still links it, or owns another one. -/
structure SourceKept (h₀ : Heap) (src : Nat) (m : Memory) (s : Stringaa) : Prop where
  bytes : m.heap.bytes src = h₀.bytes src
  known : src < m.heap.next
  isInit : s.isInit = true
  inMemory : InMemory m.heap s
  linked : s.isAlloc = false → ∃ p, s.buf = some p ∧ p.block = src
  owned : s.isAlloc = true → ∃ block ≠ src, s.buf = some ⟨block, 0⟩

private theorem CursorMove.apply_spec (cursor : CursorMove)
    (hroom : s.writePos + s.isNullTerminated.toNat ≤ s.bufSize) :
    ∃ readPos writePos, cursor.apply s = { s with readPos, writePos } ∧
      writePos + s.isNullTerminated.toNat ≤ s.bufSize := by
  have hend : writeEnd s + s.isNullTerminated.toNat ≤ s.bufSize := by
    rw [writeEnd]
    split <;> omega
  cases cursor with
  | nextReadPos =>
      simp only [apply, stringaaNextReadPos]
      split <;> exact ⟨_, _, rfl, hroom⟩
  | prevReadPos =>
      simp only [apply, stringaaPrevReadPos]
      split <;> exact ⟨_, _, rfl, hroom⟩
  | beginReadPos => exact ⟨_, _, rfl, hroom⟩
  | endReadPos => exact ⟨_, _, rfl, hroom⟩
  | nextWritePos =>
      simp only [apply, stringaaNextWritePos]
      split
      · exact ⟨_, _, rfl, by omega⟩
      · exact ⟨_, _, rfl, hend⟩
  | prevWritePos =>
      simp only [apply, stringaaPrevWritePos]
      split
      · exact ⟨_, _, rfl, by omega⟩
      · exact ⟨_, _, rfl, hend⟩
  | beginWritePos => exact ⟨_, _, rfl, by omega⟩
  | endWritePos => exact ⟨_, _, rfl, by omega⟩
  | clean => exact ⟨_, _, rfl, by omega⟩

/-! ### What an addition does -/

/-- `n` characters are written behind the content, wherever room was made for them. -/
def AddsTo (m : Memory) (s : Stringaa) (n : Nat) (m' : Memory) (s' : Stringaa) : Prop :=
  s' = { (makeRoom m s n).2 with
    writePos := (makeRoom m s n).2.writePos + n, readPos := 0, isInit := true } ∧
  ∃ b : List UInt8, b.length = n ∧ ∀ block, (makeRoom m s n).2.buf = some ⟨block, 0⟩ →
    m'.heap = (makeRoom m s n).1.heap.storeAll ⟨block, (makeRoom m s n).2.writePos⟩
      (b ++ terminator (makeRoom m s n).2)

private theorem exists_holds (h : Heap) (p : Ptr) (n : Nat) :
    ∃ b : List UInt8, b.length = n ∧ h.Holds p b := by
  refine ⟨(List.range n).map fun i => h.byte (p.add i), by simp, fun i hi => ?_⟩
  have hlt : i < n := by simpa using hi
  simp [hlt]

theorem stringaaAddCharsSize_addsTo (hbuf : chars.buf ≠ none) (hn : 0 < n) :
    AddsTo m s n (stringaaAddCharsSize m s chars n).2.1 (stringaaAddCharsSize m s chars n).2.2 := by
  obtain ⟨q, hq⟩ := Option.ne_none_iff_exists'.mp hbuf
  obtain ⟨b, rfl, hholds⟩ := exists_holds (makeRoom m s n).1.heap (q.add chars.start) n
  rw [stringaaAddCharsSize_eq hbuf hn]
  exact ⟨rfl, b, rfl, fun block hblock => written_heap hblock fun _ => ⟨q, hq, hholds⟩⟩

theorem stringaaAddLiteral_addsTo (hb : b ≠ []) :
    AddsTo m s b.length (stringaaAddLiteral m s b).1 (stringaaAddLiteral m s b).2 := by
  rw [stringaaAddLiteral_eq hb]
  refine ⟨rfl, b, rfl, fun block hblock => ?_⟩
  rw [literalWritten_heap hblock, Ptr.add, Nat.zero_add]

private theorem linkStep_adds {call : LinkCall} (hstep : linkStep (m, s) call = some (m', s'))
    (hadd : (∀ c, call ≠ .setChar c) ∧ ∀ cursor, call ≠ .move cursor) :
    (writes s call = none ∧ m' = m ∧ s' = s) ∨ ∃ n, writes s call = some n ∧ 0 < n ∧
      AddsTo m s n m' s' := by
  cases call with
  | move cursor => exact absurd rfl (hadd.2 cursor)
  | setChar c => exact absurd rfl (hadd.1 c)
  | addCharsSize chars n =>
      simp only [linkStep, Option.some.injEq, Prod.ext_iff] at hstep
      by_cases hwrites : chars.buf ≠ none ∧ 0 < n
      · refine .inr ⟨n, if_pos hwrites, hwrites.2, ?_⟩
        rw [← hstep.1, ← hstep.2]
        exact stringaaAddCharsSize_addsTo hwrites.1 hwrites.2
      · refine .inl ⟨if_neg hwrites, ?_⟩
        rw [stringaaAddCharsSize, if_neg hwrites] at hstep
        exact ⟨hstep.1.symm, hstep.2.symm⟩
  | addLiteral text =>
      simp only [linkStep, Option.some.injEq, Prod.ext_iff] at hstep
      by_cases hwrites : text ≠ []
      · refine .inr ⟨text.length, if_pos hwrites, List.length_pos_iff.mpr hwrites, ?_⟩
        rw [← hstep.1, ← hstep.2]
        exact stringaaAddLiteral_addsTo hwrites
      · refine .inl ⟨if_neg hwrites, ?_⟩
        rw [stringaaAddLiteral, if_neg hwrites] at hstep
        exact ⟨hstep.1.symm, hstep.2.symm⟩
  | add s2 =>
      simp only [linkStep, Option.some.injEq, Prod.ext_iff] at hstep
      by_cases hwrites : s2.buf ≠ none ∧ s2.isInit ∧ s2.readPos < s2.writePos ∧
          s2.writePos + s2.isNullTerminated.toNat ≤ s2.bufSize
      · have hpos : 0 < s2.writePos - s2.readPos := Nat.sub_pos_of_lt hwrites.2.2.1
        refine .inr ⟨_, if_pos hwrites, hpos, ?_⟩
        rw [stringaaAdd, if_pos hwrites] at hstep
        rw [← hstep.1, ← hstep.2]
        exact stringaaAddCharsSize_addsTo hwrites.1 hpos
      · refine .inl ⟨if_neg hwrites, ?_⟩
        rw [stringaaAdd, if_neg hwrites] at hstep
        exact ⟨hstep.1.symm, hstep.2.symm⟩

private theorem addsTo_owned (hadds : AddsTo m s n m' s') {m₁ : Memory} {t : Stringaa}
    (hmake : makeRoom m s n = (m₁, t)) (hbuf : t.buf = some ⟨block, 0⟩) (halloc : t.isAlloc = true)
    (hapart : block ≠ src) (hbytes : m₁.heap.bytes src = h₀.bytes src) (hknown : src < m₁.heap.next)
    (hblock : block < m₁.heap.next) (hsize : t.bufSize ≤ m₁.heap.size block)
    (hroom : t.writePos + n + t.isNullTerminated.toNat ≤ t.bufSize) :
    SourceKept h₀ src m' s' ∧ ∀ text : List UInt8, m₁.heap.Holds ⟨block, 0⟩ text →
      text.length = t.writePos →
        ∃ added : List UInt8, added.length = n ∧ content m' s' = text ++ added := by
  obtain ⟨hs', b, hlength, hheap⟩ := hadds
  rw [hmake] at hs' hheap
  have hheap' := hheap block hbuf
  dsimp only at hs' hheap'
  subst hs'
  refine ⟨⟨?_, ?_, rfl, ⟨hroom, ?_, ?_, fun _ => ⟨block, hbuf, ?_⟩⟩, ?_,
      fun _ => ⟨block, hapart, hbuf⟩⟩,
    fun text hholds htext => ⟨b, hlength, content_eq hbuf ?_ ?_⟩⟩
  · rw [hheap', (storeAll_sameBeside _ _ _).bytes src (Ne.symm hapart), hbytes]
  · rw [hheap']
    exact hknown
  · intro p hp
    cases hbuf.symm.trans hp
    rw [hheap']
    exact hblock
  · intro hnone
    cases hbuf.symm.trans hnone
  · rw [hheap']
    exact hsize
  · intro hfalse
    cases halloc.symm.trans hfalse
  · rw [List.length_append, htext, hlength]
  · have hall := hholds.storeAll_behind (b := b ++ terminator t)
    rw [htext, show Ptr.add ⟨block, 0⟩ t.writePos = ⟨block, t.writePos⟩ by simp [Ptr.add],
      ← hheap', ← List.append_assoc] at hall
    exact (Heap.holds_append.mp hall).1

private theorem addsTo_moved (hkept : SourceKept h₀ src m s) (hadds : AddsTo m s n m' s')
    (hsize : s.bufSize ≤ s.writePos + n + 1) :
    SourceKept h₀ src m' s' ∧ s'.isAlloc = true ∧
      ∃ added : List UInt8, added.length = n ∧
        content m' s' = (content m s).take (keptPos s) ++ added := by
  obtain ⟨m₁, t, hmake, hmoved⟩ := makeRoom_moved (m := m) (n := n) hkept.inMemory.empty
    hkept.inMemory.room hkept.isInit hsize
  have hapart : m.heap.next ≠ src := Nat.ne_of_gt hkept.known
  have hnull := Bool.toNat_le t.isNullTerminated
  have hroom := hmoved.room
  obtain ⟨hkept', hcontent⟩ := addsTo_owned hadds hmake hmoved.buf hmoved.isAlloc hapart
    ((hmoved.beside.bytes src (Ne.symm hapart)).trans hkept.bytes)
    (hkept.known.trans_le hmoved.beside.next) hmoved.next (Nat.le_of_eq hmoved.size.symm) (by omega)
  refine ⟨hkept', ?_, ?_⟩
  · rw [hadds.1, hmake]
    exact hmoved.isAlloc
  · rw [← hmoved.writePos]
    refine hcontent _ hmoved.holds ?_
    rw [List.length_take, content_length, hmoved.writePos]
    exact Nat.min_eq_left (keptPos_le s)

/-- What was linked stays as it is, by cursor moves and by whatever is written once the string owns
its buffer, and by an addition that moves it there. -/
theorem SourceKept.step {call : LinkCall} (hkept : SourceKept h₀ src m s)
    (hok : s.isAlloc = false → CopiesOut s call)
    (hstep : linkStep (m, s) call = some (m', s')) : SourceKept h₀ src m' s' := by
  by_cases hadd : (∀ c, call ≠ .setChar c) ∧ ∀ cursor, call ≠ .move cursor
  · obtain ⟨-, rfl, rfl⟩ | ⟨n, hwrites, hn, hadds⟩ := linkStep_adds hstep hadd
    · exact hkept
    · by_cases hsize : s.bufSize ≤ s.writePos + n + 1
      · exact (addsTo_moved hkept hadds hsize).1
      · cases halloc : s.isAlloc with
        | false =>
            rcases (hok halloc n hwrites).2.1 with h | h
            · cases halloc.symm.trans h
            · exact absurd h hsize
        | true =>
            obtain ⟨block, hbuf, hblock⟩ := hkept.inMemory.owns halloc
            obtain ⟨block', hapart, hbuf'⟩ := hkept.owned halloc
            cases hbuf.symm.trans hbuf'
            have hnull := Bool.toNat_le s.isNullTerminated
            exact (addsTo_owned hadds (makeRoom_stays (Nat.lt_of_not_le hsize)) hbuf halloc hapart
              hkept.bytes hkept.known (hkept.inMemory.known _ hbuf) hblock (by omega)).1
  · cases call with
    | move cursor =>
        obtain ⟨readPos, writePos, heq, hroom⟩ := cursor.apply_spec hkept.inMemory.room
        simp only [linkStep, heq, Option.some.injEq, Prod.mk.injEq] at hstep
        obtain ⟨rfl, rfl⟩ := hstep
        exact ⟨hkept.bytes, hkept.known, hkept.isInit,
          ⟨hroom, hkept.inMemory.known, hkept.inMemory.empty, hkept.inMemory.owns⟩, hkept.linked,
          hkept.owned⟩
    | setChar c =>
        simp only [linkStep, Option.some.injEq] at hstep
        by_cases hroom : s.writePos + s.isNullTerminated.toNat < s.bufSize
        · cases halloc : s.isAlloc with
          | false => exact absurd rfl ((hok halloc 0 (if_pos hroom)).1 c)
          | true =>
              obtain ⟨block, hapart, hbuf⟩ := hkept.owned halloc
              simp only [stringaaSetChar, if_pos hroom, halloc, if_true, Prod.mk.injEq] at hstep
              obtain ⟨rfl, rfl⟩ := hstep
              have hheap : (m.store (stringChars s s.writePos) c).heap =
                  m.heap.store (Ptr.add ⟨block, 0⟩ s.writePos) c := by
                simp [Memory.store, stringChars, hbuf, Memory.touch]
              refine ⟨?_, ?_, hkept.isInit, ⟨hkept.inMemory.room, fun p hp => ?_,
                hkept.inMemory.empty, fun h => ?_⟩, hkept.linked, hkept.owned⟩
              · rw [hheap, (Heap.store_sameBeside _ _ _).bytes src (Ne.symm hapart), hkept.bytes]
              · rw [hheap]
                exact hkept.known
              · rw [hheap]
                exact hkept.inMemory.known p hp
              · rw [hheap]
                exact hkept.inMemory.owns h
        · simp only [stringaaSetChar, if_neg hroom, Prod.mk.injEq] at hstep
          obtain ⟨rfl, rfl⟩ := hstep
          exact hkept
    | addCharsSize chars n => simp at hadd
    | addLiteral text => simp at hadd
    | add s2 => simp at hadd

private theorem SourceKept.movesOut_iff {call : LinkCall} (hkept : SourceKept h₀ src m s)
    (halloc : s.isAlloc = false) (hstep : linkStep (m, s) call = some (m', s')) :
    MovesOut m s src call m' s' ↔ CopiesOut s call := by
  by_cases hadd : (∀ c, call ≠ .setChar c) ∧ ∀ cursor, call ≠ .move cursor
  · obtain ⟨hnone, -⟩ | ⟨n, hwrites, hn, hadds⟩ := linkStep_adds hstep hadd
    · exact iff_of_true (fun n hn => by cases hnone.symm.trans hn)
        fun n hn => by cases hnone.symm.trans hn
    · by_cases hsize : s.bufSize ≤ s.writePos + n + 1
      · obtain ⟨hkept', halloc', added, hlength, hcontent⟩ := addsTo_moved hkept hadds hsize
        have hroom := hkept.inMemory.room
        constructor
        · intro hmoves k hk
          cases hwrites.symm.trans hk
          obtain ⟨-, -, added', hlength', hcontent'⟩ := hmoves n hwrites
          have hsame := congrArg List.length (hcontent.symm.trans hcontent')
          have hkeptPos := keptPos_le s
          simp only [List.length_append, List.length_take, content_length, hlength, hlength']
            at hsame
          refine ⟨hadd.1, .inr hsize, ?_⟩
          by_contra hfull
          rw [keptPos, if_pos (by omega)] at hsame
          omega
        · intro hcopies k hk
          cases hwrites.symm.trans hk
          have hfull := (hcopies n hwrites).2.2
          have hpos : keptPos s = s.writePos := by
            rw [keptPos]
            split <;> omega
          rw [hpos, List.take_of_length_le (Nat.le_of_eq (content_length m s))] at hcontent
          exact ⟨halloc', hkept'.owned halloc', added, hlength, hcontent⟩
      · refine iff_of_false (fun hmoves => ?_) fun hcopies => ?_
        · have halloc' := (hmoves n hwrites).1
          rw [hadds.1, makeRoom_stays (Nat.lt_of_not_le hsize)] at halloc'
          cases halloc.symm.trans halloc'
        · rcases (hcopies n hwrites).2.1 with h | h
          · cases halloc.symm.trans h
          · exact hsize h
  · cases call with
    | move cursor => exact iff_of_true (fun _ h => by cases h) fun _ h => by cases h
    | setChar c =>
        by_cases hroom : s.writePos + s.isNullTerminated.toNat < s.bufSize
        · refine iff_of_false (fun hmoves => ?_) fun hcopies => ?_
          · have halloc' := (hmoves 0 (if_pos hroom)).1
            simp only [linkStep, stringaaSetChar, if_pos hroom, halloc, stringaaRealloc,
              Option.some.injEq, Prod.mk.injEq] at hstep
            rw [← hstep.2] at halloc'
            cases halloc.symm.trans halloc'
          · exact (hcopies 0 (if_pos hroom)).1 c rfl
        · have hnone : writes s (.setChar c) = none := if_neg hroom
          exact iff_of_true (fun n hn => by cases hnone.symm.trans hn)
            fun n hn => by cases hnone.symm.trans hn
    | addCharsSize chars n => simp at hadd
    | addLiteral text => simp at hadd
    | add s2 => simp at hadd

/-- In every run in which no call on the string while it links sets a character where there is
room, or adds less than is linked, or adds behind the end of the buffer, the buffer linked is never
changed; and while the string links it, exactly the other calls that write move it to a buffer of
its own with the same content in front. -/
theorem linked_copyOnWrite (m m' : Memory) (s s' : Stringaa) (p : Ptr) (calls : List LinkCall)
    (hlinked : Linked s p) (hknown : p.block < m.heap.next)
    (hrun : GuardedRun linkStep
      (fun (state : Memory × Stringaa) call => state.2.isAlloc = false → CopiesOut state.2 call)
      (m, s) calls (m', s')) :
    m'.heap.bytes p.block = m.heap.bytes p.block ∧
      (s'.isAlloc = false → ∀ call m₁ s₁, linkStep (m', s') call = some (m₁, s₁) →
        (MovesOut m' s' p.block call m₁ s₁ ↔ CopiesOut s' call)) := by
  have hinitial : SourceKept m.heap p.block m s := by
    refine ⟨rfl, hknown, hlinked.isInit, ⟨hlinked.room, fun q hq => ?_, fun hnone => ?_,
      fun halloc => ?_⟩, fun _ => ⟨p, hlinked.buf, rfl⟩, fun halloc => ?_⟩
    · cases hlinked.buf.symm.trans hq
      exact hknown
    · cases hlinked.buf.symm.trans hnone
    · cases hlinked.isAlloc.symm.trans halloc
    · cases hlinked.isAlloc.symm.trans halloc
  have hkept : SourceKept m.heap p.block m' s' :=
    hrun.invariant (fun (state : Memory × Stringaa) => SourceKept m.heap p.block state.1 state.2)
      (fun _ _ _ hkept hok hstep => hkept.step hok hstep) hinitial
  exact ⟨hkept.bytes, fun halloc call m₁ s₁ hstep => hkept.movesOut_iff halloc hstep⟩

private theorem linked_ofText (n : Nat) : Linked (Stringaa.ofText 0 n) ⟨0, 0⟩ :=
  ⟨rfl, rfl, rfl, Nat.le_refl n⟩

/-- `xy` is added to `abc`, of which the last character is dropped first. -/
theorem linked_copyOnWrite_adds :
    (stringaaAddLiteral ⟨Heap.ofText [97, 98, 99], []⟩
      { Stringaa.ofText 0 3 with writePos := 2 } [120, 121]).1.heap.bytes 0 =
        (Heap.ofText [97, 98, 99]).bytes 0 := by
  refine (linked_copyOnWrite ⟨Heap.ofText [97, 98, 99], []⟩ _ (Stringaa.ofText 0 3) _ ⟨0, 0⟩
    [.move .prevWritePos, .addLiteral [120, 121]] (linked_ofText 3) Nat.one_pos
    (.cons (fun _ n hn => by cases hn) rfl (.cons (fun _ n hn => ?_) rfl (.nil _)))).1
  cases hn
  exact ⟨by simp, .inr (by decide), .inl (by decide)⟩

/-- A character that is set behind `ab` changes the `abc` that is linked. -/
theorem linked_changesSource : ¬ ∀ (m m' : Memory) (s s' : Stringaa) (p : Ptr)
    (calls : List LinkCall), Linked s p → p.block < m.heap.next →
      Run linkStep (m, s) calls (m', s') → m'.heap.bytes p.block = m.heap.bytes p.block := by
  intro hclaim
  have hbytes := hclaim ⟨Heap.ofText [97, 98, 99], []⟩ _ (Stringaa.ofText 0 3) _ ⟨0, 0⟩
    [.move .prevWritePos, .setChar 120] (linked_ofText 3) Nat.one_pos
    (.cons trivial rfl (.cons trivial rfl (.nil _)))
  exact absurd (congrFun hbytes 2) (by decide)

end Httpaa.Traced
