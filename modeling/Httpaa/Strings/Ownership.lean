import Mathlib.Order.Interval.Finset.Nat
import Httpaa.Foundation.Ledger
import Httpaa.Strings.Cursors

/-!
# Who owns which block

`malloc` hands out blocks, and `free` is defined only on the start of a block that has been handed
out and not been given back. Along a run of calls on any strings it is called on nothing else: each
string that is marked as allocated owns a block of its own. What is handed out and not given back is
owned by a string, or was forgotten by one, when the string was initialised again or moved to a
bigger buffer.
-/

namespace Httpaa.Traced

open Transition

/-- What the string would give back. -/
def owned (s : Stringaa) : Option Ptr := if s.isAlloc then s.buf else none

def freedByMalloc (s : Stringaa) (bufSize : Nat) : Option Ptr :=
  if 0 < bufSize ∧ s.isAlloc ∧ s.bufSize < bufSize then s.buf else none

def freedBySetSubstring (s1 s2 : Stringaa) (pos1 pos2 : Int) : Option Ptr :=
  let pos1 := if pos1 = stringaaReadPos then toInt s2.readPos else pos1
  let pos2 := if pos2 = stringaaReadPos then toInt s2.readPos
    else if pos2 = stringaaWritePos then toInt s2.writePos else pos2
  if 0 ≤ pos1 ∧ pos1 < pos2 ∧ pos2 ≤ s2.writePos then owned s1 else none

def freedByCopy (s1 s2 : Stringaa) : Option Ptr :=
  let bufSize := s2.bufSize - s2.isNullTerminated.toNat
  if s2.buf = none ∨ s2.isInit = false then none
  else if ¬ s1.isAlloc ∨ s1.bufSize ≤ bufSize + 1 then freedByMalloc s1 (bufSize + 1) else none

/-- What the call passes to `free`. -/
def freed (strings : Strings) : StringaaCall → Option Ptr
  | .malloc i bufSize => freedByMalloc (strings.string i) bufSize
  | .setChars i buf length =>
      if buf.isSome ∧ 0 < length then owned (strings.string i) else none
  | .setCharsSize i buf bufSize =>
      if buf.isSome ∧ 0 < bufSize then owned (strings.string i) else none
  | .setSubstring i j pos1 pos2 =>
      freedBySetSubstring (strings.string i) (strings.string j) pos1 pos2
  | .copy i j => freedByCopy (strings.string i) (strings.string j)
  | _ => none

def forgottenByRealloc (s : Stringaa) (bufSize : Nat) : Option Ptr :=
  if bufSize = 0 ∨ bufSize < s.bufSize then none else owned s

def forgottenByAdd (s1 s2 : Stringaa) : Option Ptr :=
  let bufSize := s2.writePos - s2.readPos
  if s2.buf ≠ none ∧ s2.isInit ∧ s2.readPos < s2.writePos ∧
      s2.writePos + s2.isNullTerminated.toNat ≤ s2.bufSize ∧
      (s1.isAlloc = false ∨ s1.bufSize ≤ s1.writePos + bufSize + 1) then
    forgottenByRealloc s1 (s1.writePos + bufSize + 1)
  else none

/-- What nobody points to any more, though it was not given back. -/
def forgotten (strings : Strings) : StringaaCall → Option Ptr
  | .init i _ => owned (strings.string i)
  | .realloc i bufSize => forgottenByRealloc (strings.string i) bufSize
  | .add i j => forgottenByAdd (strings.string i) (strings.string j)
  | _ => none

/-- `stringaa_free`. No string is linked to a next one, or keeps an original buffer. -/
def stringaaFree (m : Memory) (s : Stringaa) : Memory × Stringaa :=
  (if s.isAlloc then { m with heap := m.heap.free s.buf } else m, {})

/-! ### Runs -/

/-- Strings, the blocks they have been handed out and not given back, and those of them that were
forgotten. -/
structure Owners where
  strings : Strings
  live : Finset Nat
  lost : List Nat

inductive OwnersCall
  | call (call : StringaaCall)
  | free (i : Nat)

def release (live : Finset Nat) : Option Ptr → Option (Finset Nat)
  | none => some live
  | some p => if p.off = 0 ∧ p.block ∈ live then some (live.erase p.block) else none

/-- The call is made; there is no next state if it calls `free` on what is not to be freed. -/
def Owners.step (owners : Owners) : OwnersCall → Option Owners
  | .call call => do
    let strings ← owners.strings.step call
    let live ← release (owners.live ∪
      Finset.Ico owners.strings.memory.heap.next strings.memory.heap.next)
      (freed owners.strings call)
    return ⟨strings, live,
      ((forgotten owners.strings call).map Ptr.block).toList ++ owners.lost⟩
  | .free i => do
    let (m, s) := stringaaFree owners.strings.memory (owners.strings.string i)
    let live ← release owners.live (owned (owners.strings.string i))
    return ⟨owners.strings.update i m s, live, owners.lost⟩

def Owners.initial (heap : Heap) : Owners := ⟨.zeroed heap, ∅, []⟩

/-! ### What a function does to a block -/

structure SameBuffer (s s' : Stringaa) : Prop where
  buf : s'.buf = s.buf
  bufSize : s'.bufSize = s.bufSize
  isAlloc : s'.isAlloc = s.isAlloc

/-- No block is handed out or changes its size. -/
structure SameBlocks (m m' : Memory) : Prop where
  size : m'.heap.size = m.heap.size
  next : m'.heap.next = m.heap.next

/-- What the string owned is given back or forgotten. -/
def Parts (s : Stringaa) (freed forgotten : Option Ptr) : Prop :=
  (freed = owned s ∧ forgotten = none) ∨ (freed = none ∧ forgotten = owned s)

/-- A function keeps the buffer of the string, takes a new one, or leaves it with one of others. -/
inductive Gives (m : Memory) (s : Stringaa) (freed forgotten : Option Ptr) (m' : Memory)
    (s' : Stringaa) : Prop
  | keeps (hblocks : SameBlocks m m') (hbuffer : SameBuffer s s') (hfreed : freed = none)
      (hforgotten : forgotten = none)
  | takes (hbuf : s'.buf = some ⟨m.heap.next, 0⟩) (halloc : s'.isAlloc = true)
      (hnext : m'.heap.next = m.heap.next + 1)
      (hsize : ∀ b, (∀ p ∈ freed, p.block ≠ b) →
        m'.heap.size b = if b = m.heap.next then s'.bufSize else m.heap.size b)
      (hparts : Parts s freed forgotten)
  | links (hnext : m'.heap.next = m.heap.next)
      (hsize : ∀ b, (∀ p ∈ freed, p.block ≠ b) → m'.heap.size b = m.heap.size b)
      (halloc : s'.isAlloc = false) (hparts : Parts s freed forgotten)

section Functions

variable {m m' m'' : Memory} {s s' s'' s1 s2 : Stringaa} {freed forgotten : Option Ptr}
  {chars dst src : Chars} {n : Nat} {c : UInt8}

theorem SameBlocks.refl (m : Memory) : SameBlocks m m := ⟨rfl, rfl⟩

theorem SameBlocks.trans (h : SameBlocks m m') (h' : SameBlocks m' m'') : SameBlocks m m'' :=
  ⟨h'.size.trans h.size, h'.next.trans h.next⟩

theorem SameBuffer.refl (s : Stringaa) : SameBuffer s s := ⟨rfl, rfl, rfl⟩

theorem SameBuffer.trans (h : SameBuffer s s') (h' : SameBuffer s' s'') : SameBuffer s s'' :=
  ⟨h'.buf.trans h.buf, h'.bufSize.trans h.bufSize, h'.isAlloc.trans h.isAlloc⟩

theorem SameBlocks.ite {p : Prop} [Decidable p] (h : SameBlocks m m') (h' : SameBlocks m m'') :
    SameBlocks m (if p then m' else m'') := by
  split
  · exact h
  · exact h'

theorem SameBlocks.touch (m : Memory) (start count size : Nat) :
    SameBlocks m (m.touch start count size) := ⟨rfl, rfl⟩

theorem SameBlocks.store (m : Memory) (chars : Chars) (c : UInt8) :
    SameBlocks m (m.store chars c) := by
  cases hbuf : chars.buf <;> exact ⟨by simp [Memory.store, Memory.touch, hbuf, Heap.store],
    by simp [Memory.store, Memory.touch, hbuf, Heap.store]⟩

theorem SameBlocks.memcpy (m : Memory) (dst src : Chars) (n : Nat) :
    SameBlocks m (m.memcpy dst src n) := by
  rw [Memory.memcpy]
  split
  · exact ⟨rfl, rfl⟩
  · exact ⟨rfl, rfl⟩

theorem SameBlocks.getChar (m : Memory) (s : Stringaa) :
    SameBlocks m (stringaaGetChar m s).2 := by
  rw [stringaaGetChar]
  split
  · exact ⟨rfl, rfl⟩
  · exact .refl m

theorem Gives.write (h : Gives m s freed forgotten m' s') (hblocks : SameBlocks m' m'')
    (hbuffer : SameBuffer s' s'') : Gives m s freed forgotten m'' s'' := by
  cases h with
  | keeps hblocks' hbuffer' hfreed hforgotten =>
      exact .keeps (hblocks'.trans hblocks) (hbuffer'.trans hbuffer) hfreed hforgotten
  | takes hbuf halloc hnext hsize hparts =>
      refine .takes (hbuffer.buf.trans hbuf) (hbuffer.isAlloc.trans halloc)
        (hblocks.next.trans hnext) ?_ hparts
      intro b hb
      rw [hblocks.size, hbuffer.bufSize]
      exact hsize b hb
  | links hnext hsize halloc hparts =>
      refine .links (hblocks.next.trans hnext) ?_ (hbuffer.isAlloc.trans halloc) hparts
      intro b hb
      rw [hblocks.size]
      exact hsize b hb

theorem Gives.refl (m : Memory) (s : Stringaa) : Gives m s none none m s :=
  .keeps (.refl m) (.refl s) rfl rfl

theorem stringaaMalloc_gives (m : Memory) (s : Stringaa) (n : Nat) :
    Gives m s (freedByMalloc s n) none (stringaaMalloc m s n).2.1 (stringaaMalloc m s n).2.2 := by
  by_cases hset : 0 < n ∧ ((s.isAlloc ∧ s.bufSize < n) ∨ ¬ s.isAlloc)
  · have hfreed : freedByMalloc s n = owned s := by
      rw [freedByMalloc, owned]
      grind
    simp only [stringaaMalloc, Httpaa.stringaaMalloc, if_pos hset, if_true, hfreed]
    refine .takes rfl rfl ?_ ?_ (.inl ⟨rfl, rfl⟩)
    · cases halloc : s.isAlloc <;> cases hbuf : s.buf <;>
        simp [Heap.malloc, Heap.free, Memory.touch]
    · intro b hb
      cases halloc : s.isAlloc with
      | false => simp [Heap.malloc, Memory.touch]
      | true =>
          cases hbuf : s.buf with
          | none => simp [Heap.malloc, Heap.free, Memory.touch]
          | some p =>
              have hne : b ≠ p.block := fun heq => hb p (by simp [owned, halloc, hbuf]) heq.symm
              simp [Heap.malloc, Heap.free, Memory.touch, hne]
  · have hfreed : freedByMalloc s n = none := by
      rw [freedByMalloc]
      grind
    simp only [stringaaMalloc, Httpaa.stringaaMalloc, if_neg hset, hfreed]
    exact .refl m s

theorem stringaaRealloc_gives (m : Memory) (s : Stringaa) (n : Nat) :
    Gives m s none (forgottenByRealloc s n) (stringaaRealloc m s n).2.1
      (stringaaRealloc m s n).2.2 := by
  by_cases hsize : n = 0 ∨ n < s.bufSize
  · simp only [stringaaRealloc, forgottenByRealloc, if_pos hsize]
    exact .refl m s
  · simp only [stringaaRealloc, forgottenByRealloc, if_neg hsize, Memory.malloc]
    generalize hpos : (if s.isInit then if s.bufSize ≤ s.writePos then s.bufSize - 1
      else s.writePos else 0) = w
    generalize hroom : (if s.isNullTerminated then n else n + 1) = k
    have htakes : Gives m s none (owned s)
        { m with heap := { m.heap with
            size := fun block => if block = m.heap.next then k else m.heap.size block
            next := m.heap.next + 1 } }
        { s with buf := some ⟨m.heap.next, 0⟩, bufSize := k, readPos := 0, writePos := w,
                 isAlloc := true } :=
      .takes rfl rfl rfl (fun _ _ => rfl) (.inr ⟨rfl, rfl⟩)
    refine htakes.write ?_ (.refl _)
    split
    · refine SameBlocks.trans ?_ (.store _ _ _)
      exact SameBlocks.ite (.memcpy _ _ _ _) (.refl _)
    · exact SameBlocks.ite (.memcpy _ _ _ _) (.refl _)

theorem stringaaInit_gives (m : Memory) (s : Stringaa) (n : Nat) :
    Gives m s none (owned s) (stringaaInit m n).2.1 (stringaaInit m n).2.2 := by
  rw [stringaaInit]
  split
  · rename_i hn
    have hset : 0 < n ∧ (((({} : Stringaa).isAlloc : Prop) ∧ ({} : Stringaa).bufSize < n) ∨
        ¬ ({} : Stringaa).isAlloc) := ⟨hn, .inr (by decide)⟩
    simp only [stringaaMalloc, Httpaa.stringaaMalloc, if_pos hset, if_true]
    exact .takes rfl rfl rfl (fun _ _ => by simp [Heap.malloc, Memory.touch]) (.inr ⟨rfl, rfl⟩)
  · exact .links rfl (fun _ _ => rfl) rfl (.inr ⟨rfl, rfl⟩)

theorem stringaaSetCharsSize_gives (m : Memory) (s : Stringaa) (buf : Option Ptr) (n : Nat) :
    Gives m s (if buf.isSome ∧ 0 < n then owned s else none) none m
      (stringaaSetCharsSize s buf n).2 := by
  rw [stringaaSetCharsSize]
  split
  · exact .links rfl (fun _ _ => rfl) rfl (.inl ⟨rfl, rfl⟩)
  · exact .refl m s

theorem stringaaSetChars_gives (m : Memory) (s : Stringaa) (buf : Option Ptr) (n : Nat) :
    Gives m s (if buf.isSome ∧ 0 < n then owned s else none) none m
      (stringaaSetChars s buf n).2 := by
  rw [stringaaSetChars]
  split
  · rename_i hset
    rw [stringaaSetCharsSize, if_pos hset]
    exact .links rfl (fun _ _ => rfl) rfl (.inl ⟨rfl, rfl⟩)
  · exact .refl m s

theorem stringaaSetSubstring_gives (m : Memory) (s1 s2 : Stringaa) (pos1 pos2 : Int) :
    Gives m s1 (freedBySetSubstring s1 s2 pos1 pos2) none m
      (stringaaSetSubstring s1 s2 pos1 pos2) := by
  simp only [stringaaSetSubstring, freedBySetSubstring]
  generalize (if pos1 = stringaaReadPos then toInt s2.readPos else pos1) = first
  generalize (if pos2 = stringaaReadPos then toInt s2.readPos
    else if pos2 = stringaaWritePos then toInt s2.writePos else pos2) = last
  by_cases hpart : 0 ≤ first ∧ first < last ∧ last ≤ s2.writePos
  · rw [if_pos hpart, if_pos hpart]
    exact .links rfl (fun _ _ => rfl) rfl (.inl ⟨rfl, rfl⟩)
  · rw [if_neg hpart, if_neg hpart]
    exact .refl m s1

theorem SameBlocks.terminated (m : Memory) (dst src behind : Chars) (n : Nat) (p : Prop)
    [Decidable p] :
    SameBlocks m (if p then (m.memcpy dst src n).store behind 0 else m.memcpy dst src n) :=
  .ite ((SameBlocks.memcpy m dst src n).trans (.store _ _ _)) (.memcpy m dst src n)

theorem stringaaCopyCharsSize_gives (m : Memory) (s : Stringaa) (hbuf : chars.buf ≠ none)
    (n : Nat) :
    Gives m s (if ¬ s.isAlloc ∨ s.bufSize ≤ n + 1 then freedByMalloc s (n + 1) else none) none
      (stringaaCopyCharsSize m s chars n).2.1 (stringaaCopyCharsSize m s chars n).2.2 := by
  by_cases hroom : ¬ s.isAlloc ∨ s.bufSize ≤ n + 1
  · simp only [stringaaCopyCharsSize, if_neg hbuf, if_pos hroom]
    exact (stringaaMalloc_gives m s (n + 1)).write (.terminated _ _ _ _ _ _) ⟨rfl, rfl, rfl⟩
  · simp only [stringaaCopyCharsSize, if_neg hbuf, if_neg hroom]
    exact (Gives.refl m s).write (.terminated _ _ _ _ _ _) ⟨rfl, rfl, rfl⟩

theorem stringaaCopy_gives (m : Memory) (s1 s2 : Stringaa) :
    Gives m s1 (freedByCopy s1 s2) none (stringaaCopy m s1 s2).2.1
      (stringaaCopy m s1 s2).2.2 := by
  by_cases hrefuse : s2.buf = none ∨ s2.isInit = false
  · rw [stringaaCopy, freedByCopy, if_pos hrefuse, if_pos hrefuse]
    exact .refl m s1
  · have hbuf : (stringChars s2 0).buf ≠ none := (not_or.mp hrefuse).1
    have hgives := stringaaCopyCharsSize_gives m s1 hbuf (s2.bufSize - s2.isNullTerminated.toNat)
    simp only [stringaaCopy, freedByCopy, if_neg hrefuse]
    refine hgives.write (.refl _) ?_
    split
    · exact ⟨rfl, rfl, rfl⟩
    · exact .refl _

theorem stringaaAdd_gives (m : Memory) (s1 s2 : Stringaa) :
    Gives m s1 none (forgottenByAdd s1 s2) (stringaaAdd m s1 s2).2.1 (stringaaAdd m s1 s2).2.2 := by
  by_cases hadd : s2.buf ≠ none ∧ s2.isInit ∧ s2.readPos < s2.writePos ∧
      s2.writePos + s2.isNullTerminated.toNat ≤ s2.bufSize
  · have hchars : (stringChars s2 s2.readPos).buf ≠ none ∧ 0 < s2.writePos - s2.readPos :=
      ⟨hadd.1, Nat.sub_pos_of_lt hadd.2.2.1⟩
    rw [stringaaAdd, if_pos hadd]
    by_cases hroom : s1.isAlloc = false ∨
        s1.bufSize ≤ s1.writePos + (s2.writePos - s2.readPos) + 1
    · have hforgotten : forgottenByAdd s1 s2 =
          forgottenByRealloc s1 (s1.writePos + (s2.writePos - s2.readPos) + 1) :=
        if_pos ⟨hadd.1, hadd.2.1, hadd.2.2.1, hadd.2.2.2, hroom⟩
      simp only [stringaaAddCharsSize, if_pos hchars, if_pos hroom, hforgotten]
      exact (stringaaRealloc_gives m s1 _).write (.terminated _ _ _ _ _ _) ⟨rfl, rfl, rfl⟩
    · have hforgotten : forgottenByAdd s1 s2 = none :=
        if_neg fun hall => hroom hall.2.2.2.2
      simp only [stringaaAddCharsSize, if_pos hchars, if_neg hroom, hforgotten]
      exact (Gives.refl m s1).write (.terminated _ _ _ _ _ _) ⟨rfl, rfl, rfl⟩
  · have hforgotten : forgottenByAdd s1 s2 = none :=
      if_neg fun hall => hadd ⟨hall.1, hall.2.1, hall.2.2.1, hall.2.2.2.1⟩
    rw [hforgotten, stringaaAdd, if_neg hadd]
    exact .refl m s1

/-! The functions that only move cursors, read and write. -/

theorem stringaaSetChar_gives (m : Memory) (s : Stringaa) (c : UInt8) :
    Gives m s none none (stringaaSetChar m s c).2.1 (stringaaSetChar m s c).2.2 := by
  rw [stringaaSetChar]
  split
  · have hsame : (if s.isAlloc then (m, s) else (stringaaRealloc m s 0).2) = (m, s) := by
      split
      · rfl
      · rw [stringaaRealloc, if_pos (.inl rfl)]
    rw [hsame]
    exact (Gives.refl m s).write (.store _ _ _) (.refl s)
  · exact .refl m s

theorem SameBuffer.seek (s : Stringaa) (n : Nat) : SameBuffer s (s.seek n) := ⟨rfl, rfl, rfl⟩

theorem SameBuffer.nextReadPos (s : Stringaa) : SameBuffer s (stringaaNextReadPos s).2 := by
  rw [stringaaNextReadPos]
  split <;> exact ⟨rfl, rfl, rfl⟩

theorem SameBuffer.prevReadPos (s : Stringaa) : SameBuffer s (stringaaPrevReadPos s).2 := by
  rw [stringaaPrevReadPos]
  split <;> exact ⟨rfl, rfl, rfl⟩

theorem SameBuffer.nextWritePos (s : Stringaa) : SameBuffer s (stringaaNextWritePos s).2 := by
  rw [stringaaNextWritePos]
  split <;> exact ⟨rfl, rfl, rfl⟩

theorem SameBuffer.prevWritePos (s : Stringaa) : SameBuffer s (stringaaPrevWritePos s).2 := by
  rw [stringaaPrevWritePos]
  split <;> exact ⟨rfl, rfl, rfl⟩

theorem stringaaIsChar_gives (m : Memory) (s : Stringaa) (c : UInt8) :
    Gives m s none none (stringaaIsChar m s c).2.1 (stringaaIsChar m s c).2.2 := by
  have hread := (Gives.refl m s).write (SameBlocks.getChar m s) (SameBuffer.refl s)
  simp only [stringaaIsChar]
  split
  · exact hread.write (.refl _) (SameBuffer.nextReadPos s)
  · exact hread

theorem stringaaIsChari_gives (m : Memory) (s : Stringaa) (c : UInt8) :
    Gives m s none none (stringaaIsChari m s c).2.1 (stringaaIsChari m s c).2.2 := by
  have hblocks : SameBlocks m (m.load (stringChars s s.readPos)).2 := ⟨rfl, rfl⟩
  have hread := (Gives.refl m s).write hblocks (SameBuffer.refl s)
  simp only [stringaaIsChari]
  split
  · exact hread.write (.refl _) ⟨rfl, rfl, rfl⟩
  · exact hread

theorem socketaaWorkerRecv_gives (m : Memory) (s : Stringaa) (received : Option (List UInt8)) :
    Gives m s none none (socketaaWorkerRecv m s received).2.1
      (socketaaWorkerRecv m s received).2.2 := by
  rw [socketaaWorkerRecv]
  split
  · cases received with
    | none => exact (Gives.refl m s).write ⟨rfl, rfl⟩ (.refl s)
    | some bytes =>
        dsimp only
        split
        · exact (Gives.refl m s).write ⟨rfl, rfl⟩ (.refl s)
        · refine (Gives.refl m s).write ?_ ⟨rfl, rfl, rfl⟩
          cases hbuf : s.buf <;> exact ⟨rfl, rfl⟩
  · exact .refl m s

theorem stringaaFree_gives (m : Memory) (s : Stringaa) :
    Gives m s (owned s) none (stringaaFree m s).1 (stringaaFree m s).2 := by
  rw [stringaaFree, owned]
  split
  · refine .links ?_ ?_ rfl ?_
    · cases hbuf : s.buf <;> rfl
    · intro b hb
      cases hbuf : s.buf with
      | none => rfl
      | some p =>
          have hne : b ≠ p.block := fun heq => hb p hbuf heq.symm
          simp [Heap.free, hne]
    · rename_i halloc
      exact .inl ⟨by rw [owned, if_pos halloc], rfl⟩
  · rename_i halloc
    exact .links rfl (fun _ _ => rfl) rfl (.inl ⟨by rw [owned, if_neg halloc], rfl⟩)

/-- A search moves only cursors. -/
structure SameScan (scan scan' : FindScan) : Prop where
  blocks : SameBlocks scan.memory scan'.memory
  buffer : SameBuffer scan.s scan'.s
  search : SameBuffer scan.search scan'.search

theorem SameScan.trans {scan scan' scan'' : FindScan} (h : SameScan scan scan')
    (h' : SameScan scan' scan'') : SameScan scan scan'' :=
  ⟨h.blocks.trans h'.blocks, h.buffer.trans h'.buffer, h.search.trans h'.search⟩

private theorem FindScan.next_same (scan : FindScan) : SameScan scan scan.next.2 := by
  simp only [FindScan.next]
  split
  · exact ⟨.getChar _ _, .nextReadPos _, .refl _⟩
  · exact ⟨.refl _, .nextReadPos _, .refl _⟩

private theorem stringaaFindLoop_same (fuel : Nat) {scan scan' : FindScan} {found : Int}
    (hloop : stringaaFindLoop fuel scan = some (found, scan')) : SameScan scan scan' := by
  induction fuel generalizing scan with
  | zero => cases hloop
  | succ fuel ih =>
      -- one more character, and the rest of the loop
      have hnext {scan₁ : FindScan} (hrest : (if scan₁.next.1 then
          stringaaFindLoop fuel scan₁.next.2 else some (-1, scan₁.next.2)) = some (found, scan'))
          (hfirst : SameScan scan scan₁) : SameScan scan scan' := by
        have hmoved := hfirst.trans scan₁.next_same
        split at hrest
        · exact hmoved.trans (ih hrest)
        · cases hrest
          exact hmoved
      simp only [stringaaFindLoop] at hloop
      split at hloop
      · cases hloop
        exact ⟨.refl _, .refl _, .refl _⟩
      · split at hloop
        · split at hloop
          · exact hnext hloop ⟨.getChar _ _, .refl _, .nextReadPos _⟩
          · simp only [Option.some.injEq, Prod.mk.injEq] at hloop
            obtain ⟨-, rfl⟩ := hloop
            exact ⟨.refl _, .refl _, .nextReadPos _⟩
        · split at hloop
          · exact hnext hloop ⟨.getChar _ _, ⟨rfl, rfl, rfl⟩, ⟨rfl, rfl, rfl⟩⟩
          · exact hnext hloop ⟨.refl _, .refl _, .refl _⟩

private theorem stringaaFind_same {m : Memory} {s search : Stringaa} {found : Int} {m' : Memory}
    {s' search' : Stringaa} (hfind : stringaaFind m s search = some (found, m', s', search')) :
    SameBlocks m m' ∧ SameBuffer s s' ∧ SameBuffer search search' := by
  rw [stringaaFind] at hfind
  split at hfind
  · obtain ⟨⟨found', scan⟩, hloop, heq⟩ := Option.map_eq_some_iff.mp hfind
    obtain ⟨hblocks, hbuffer, hsearch⟩ := stringaaFindLoop_same _ hloop
    cases heq
    refine ⟨?_, ⟨hbuffer.buf, hbuffer.bufSize, hbuffer.isAlloc⟩,
      ⟨hsearch.buf, hsearch.bufSize, hsearch.isAlloc⟩⟩
    exact ((SameBlocks.getChar m _).trans (.getChar _ _)).trans hblocks
  · cases hfind
    exact ⟨.refl _, .refl _, .refl _⟩

end Functions

private theorem Strings.step_gives {strings strings' : Strings} {call : StringaaCall}
    (hstep : strings.step call = some strings') :
    ∃ i, (∀ k ≠ i, SameBuffer (strings.string k) (strings'.string k)) ∧
      Gives strings.memory (strings.string i) (freed strings call) (forgotten strings call)
        strings'.memory (strings'.string i) := by
  have hupdate (i : Nat) {m : Memory} {s : Stringaa} {gone left : Option Ptr}
      (hgives : Gives strings.memory (strings.string i) gone left m s) :
      ∃ l, (∀ k ≠ l, SameBuffer (strings.string k) ((strings.update i m s).string k)) ∧
        Gives strings.memory (strings.string l) gone left (strings.update i m s).memory
          ((strings.update i m s).string l) := by
    refine ⟨i, fun k hk => ?_, ?_⟩
    · rw [Strings.update_string_of_ne hk]
      exact .refl _
    · rw [Strings.update_string_self]
      exact hgives
  have hcursor {s s' : Stringaa} (hbuffer : SameBuffer s s') :
      Gives strings.memory s none none strings.memory s' := .keeps (.refl _) hbuffer rfl rfl
  cases call with
  | init i bufSize =>
      cases hstep
      exact hupdate i (stringaaInit_gives _ _ bufSize)
  | setChars i buf length =>
      cases hstep
      exact hupdate i (stringaaSetChars_gives _ _ buf length)
  | setCharsSize i buf bufSize =>
      cases hstep
      exact hupdate i (stringaaSetCharsSize_gives _ _ buf bufSize)
  | malloc i bufSize =>
      cases hstep
      exact hupdate i (stringaaMalloc_gives _ _ bufSize)
  | realloc i bufSize =>
      cases hstep
      exact hupdate i (stringaaRealloc_gives _ _ bufSize)
  | nextReadPos i =>
      cases hstep
      exact hupdate i (hcursor (.nextReadPos _))
  | prevReadPos i =>
      cases hstep
      exact hupdate i (hcursor (.prevReadPos _))
  | nextWritePos i =>
      cases hstep
      exact hupdate i (hcursor (.nextWritePos _))
  | prevWritePos i =>
      cases hstep
      exact hupdate i (hcursor (.prevWritePos _))
  | beginReadPos i | endReadPos i | beginWritePos i | endWritePos i | clean i =>
      cases hstep
      exact hupdate i (hcursor ⟨rfl, rfl, rfl⟩)
  | getChar i =>
      cases hstep
      exact hupdate i (.keeps (.getChar _ _) (.refl _) rfl rfl)
  | setChar i c =>
      cases hstep
      exact hupdate i (stringaaSetChar_gives _ _ c)
  | isChar i c =>
      cases hstep
      exact hupdate i (stringaaIsChar_gives _ _ c)
  | isChari i c =>
      cases hstep
      exact hupdate i (stringaaIsChari_gives _ _ c)
  | setSubstring i j pos1 pos2 =>
      obtain ⟨-, heq⟩ := Option.ite_none_left_eq_some.mp hstep
      cases heq
      exact hupdate i (stringaaSetSubstring_gives _ _ _ pos1 pos2)
  | copy i j =>
      obtain ⟨-, heq⟩ := Option.ite_none_left_eq_some.mp hstep
      cases heq
      exact hupdate i (stringaaCopy_gives _ _ _)
  | add i j =>
      obtain ⟨-, heq⟩ := Option.ite_none_left_eq_some.mp hstep
      cases heq
      exact hupdate i (stringaaAdd_gives _ _ _)
  | find i j =>
      obtain ⟨hij, heq⟩ := Option.ite_none_left_eq_some.mp hstep
      obtain ⟨⟨found, m, s, search⟩, hfind, heq⟩ := Option.bind_eq_some_iff.mp heq
      cases heq
      obtain ⟨hblocks, hbuffer, hsearch⟩ := stringaaFind_same hfind
      refine ⟨i, fun k hk => ?_, ?_⟩
      · by_cases hkj : k = j
        · rw [hkj, Strings.update_string_self]
          exact hsearch
        · rw [Strings.update_string_of_ne hkj, Strings.update_string_of_ne hk]
          exact .refl _
      · rw [Strings.update_string_of_ne hij, Strings.update_string_self]
        exact .keeps hblocks hbuffer rfl rfl
  | recv i received =>
      cases hstep
      exact hupdate i (socketaaWorkerRecv_gives _ _ received)

/-! ### The books -/

/-- The strings as owners of blocks. -/
def Owners.ledger (owners : Owners) : Ledger Nat Nat where
  owned i := (owned (owners.strings.string i)).map Ptr.block
  live := {b | b ∈ owners.live}
  lost := {b | b ∈ owners.lost}

/-- The books are balanced, an allocated string points to the start of a block of its size, and no
block has been handed out that `malloc` would still hand out. -/
structure Owners.Inv (owners : Owners) : Prop where
  balanced : owners.ledger.Balanced
  alloc : ∀ i, (owners.strings.string i).isAlloc → ∃ b,
    (owners.strings.string i).buf = some ⟨b, 0⟩ ∧
      owners.strings.memory.heap.size b = (owners.strings.string i).bufSize
  handed : ∀ b ∈ owners.live, b < owners.strings.memory.heap.next

section Books

variable {owners owners' : Owners} {strings' : Strings} {live live' : Finset Nat} {i : Nat}
  {p : Option Ptr} {q : Ptr} {freed forgotten : Option Ptr} {heap : Heap}

private theorem mem_release (h : release live p = some live') (b : Nat) :
    b ∈ live' ↔ b ∈ live ∧ p.map Ptr.block ≠ some b := by
  cases p with
  | none =>
      cases h
      simp
  | some p =>
      rw [release] at h
      split at h
      · cases h
        simp [and_comm, eq_comm (a := b)]
      · cases h

private theorem owned_congr {s s' : Stringaa} (h : SameBuffer s s') : owned s' = owned s := by
  rw [owned, owned, h.isAlloc, h.buf]

theorem Owners.Inv.owned (hinv : owners.Inv) (howned : owned (owners.strings.string i) = some q) :
    q.off = 0 ∧ q.block ∈ owners.live := by
  have hlive : q.block ∈ owners.ledger.live :=
    hinv.balanced.live (i := i) (congrArg (Option.map Ptr.block) howned)
  rw [Traced.owned] at howned
  split at howned
  · rename_i halloc
    obtain ⟨b, hbuf, -⟩ := hinv.alloc i halloc
    rw [hbuf] at howned
    cases howned
    exact ⟨rfl, hlive⟩
  · cases howned

theorem Parts.blocks {s : Stringaa} (hparts : Parts s freed forgotten) : ∃ back : Bool,
    (∀ b, freed.map Ptr.block = some b ↔ back = true ∧ (owned s).map Ptr.block = some b) ∧
      ∀ b, b ∈ (forgotten.map Ptr.block).toList ↔
        back = false ∧ (owned s).map Ptr.block = some b := by
  rcases hparts with ⟨rfl, rfl⟩ | ⟨rfl, rfl⟩
  · exact ⟨true, by simp, by simp⟩
  · exact ⟨false, by simp, by simp⟩

private theorem Owners.Inv.release_isSome (hinv : owners.Inv) {call : StringaaCall}
    (hstep : owners.strings.step call = some strings') (fresh : Finset Nat) :
    (release (owners.live ∪ fresh) (Traced.freed owners.strings call)).isSome := by
  have hrelease (i : Nat) (hfreed : Traced.freed owners.strings call = none ∨
      Traced.freed owners.strings call = Traced.owned (owners.strings.string i)) :
      (release (owners.live ∪ fresh) (Traced.freed owners.strings call)).isSome := by
    cases hp : Traced.freed owners.strings call with
    | none => rfl
    | some p =>
        rw [hp] at hfreed
        have howned := (hfreed.resolve_left (Option.some_ne_none p)).symm
        obtain ⟨hoff, hlive⟩ := hinv.owned howned
        rw [release, if_pos ⟨hoff, Finset.mem_union_left _ hlive⟩]
        rfl
  obtain ⟨i, -, hgives⟩ := Strings.step_gives hstep
  cases hgives with
  | keeps _ _ hfreed _ => exact hrelease i (.inl hfreed)
  | takes _ _ _ _ hparts | links _ _ _ hparts =>
      exact hrelease i (hparts.elim (fun h => .inr h.1) fun h => .inl h.1)

private theorem Owners.ledger_settle (hinv : owners.Inv)
    (hothers : ∀ k ≠ i, SameBuffer (owners.strings.string k) (strings'.string k))
    (hparts : Parts (owners.strings.string i) freed forgotten) (taken : Option Nat)
    (htook : (Traced.owned (strings'.string i)).map Ptr.block = taken)
    (hfresh : ∀ b, b ∈ Finset.Ico owners.strings.memory.heap.next strings'.memory.heap.next ↔
      taken = some b)
    (hrelease : release (owners.live ∪
      Finset.Ico owners.strings.memory.heap.next strings'.memory.heap.next) freed = some live')
    (htaken : ∀ b ∈ taken, b ∉ owners.live) :
    ∃ back, (⟨strings', live', (forgotten.map Ptr.block).toList ++ owners.lost⟩ : Owners).ledger =
      owners.ledger.settle i taken back := by
  obtain ⟨back, hfreed, hforgotten⟩ := hparts.blocks
  refine ⟨back, ?_⟩
  rw [Owners.ledger, Ledger.settle, Ledger.mk.injEq]
  refine ⟨?_, ?_, ?_⟩
  · funext k
    by_cases hk : k = i
    · rw [hk, Function.update_self, htook]
    · rw [Function.update_of_ne hk, owned_congr (hothers k hk)]
      rfl
  · ext b
    have hunowned : taken = some b →
        (Traced.owned (owners.strings.string i)).map Ptr.block ≠ some b :=
      fun htook howned => htaken b htook (hinv.balanced.live (i := i) howned)
    simp only [Set.mem_ofPred_eq, mem_release hrelease, Finset.mem_union, hfresh, ne_eq, hfreed,
      Owners.ledger]
    tauto
  · ext b
    simp only [Set.mem_ofPred_eq, List.mem_append, hforgotten, Owners.ledger]
    tauto

private theorem Owners.Inv.handed_out (hinv : owners.Inv) {next : Nat}
    (hle : owners.strings.memory.heap.next ≤ next)
    (hrelease : release (owners.live ∪ Finset.Ico owners.strings.memory.heap.next next) p =
      some live') : ∀ b ∈ live', b < next := by
  intro b hb
  have hin := ((mem_release hrelease b).mp hb).1
  rw [Finset.mem_union, Finset.mem_Ico] at hin
  rcases hin with hin | ⟨-, hlt⟩
  · exact Nat.lt_of_lt_of_le (hinv.handed b hin) hle
  · exact hlt

private theorem Owners.Inv.alloc_other (hinv : owners.Inv) {k : Nat} (hk : k ≠ i) {s : Stringaa}
    (hsame : SameBuffer (owners.strings.string k) s) (halloc : s.isAlloc = true)
    (hparts : Parts (owners.strings.string i) freed forgotten) {size : Nat → Nat}
    (hsize : ∀ b ∈ owners.live, (∀ p ∈ freed, p.block ≠ b) →
      size b = owners.strings.memory.heap.size b) :
    ∃ b, s.buf = some ⟨b, 0⟩ ∧ size b = s.bufSize := by
  have halloc' : (owners.strings.string k).isAlloc = true := hsame.isAlloc.symm.trans halloc
  obtain ⟨b, hbuf, hheap⟩ := hinv.alloc k halloc'
  have howned : Traced.owned (owners.strings.string k) = some ⟨b, 0⟩ := by
    rw [Traced.owned, if_pos halloc', hbuf]
  refine ⟨b, hsame.buf.trans hbuf, ?_⟩
  rw [hsize b (hinv.owned howned).2, hheap, hsame.bufSize]
  intro p hp heq
  have hparted : freed = Traced.owned (owners.strings.string i) := by
    rcases hparts with ⟨hfreed, -⟩ | ⟨hfreed, -⟩
    · exact hfreed
    · rw [hfreed] at hp
      cases hp
  rw [hparted] at hp
  exact hk (hinv.balanced.one_owner (b := b) (congrArg (Option.map Ptr.block) howned)
    (heq ▸ congrArg (Option.map Ptr.block) hp))

theorem Owners.Inv.gives (hinv : owners.Inv)
    (hothers : ∀ k ≠ i, SameBuffer (owners.strings.string k) (strings'.string k))
    (hgives : Gives owners.strings.memory (owners.strings.string i) freed forgotten
      strings'.memory (strings'.string i))
    (hrelease : release (owners.live ∪
      Finset.Ico owners.strings.memory.heap.next strings'.memory.heap.next) freed = some live') :
    (⟨strings', live', (forgotten.map Ptr.block).toList ++ owners.lost⟩ : Owners).Inv := by
  cases hgives with
  | keeps hblocks hbuffer hfreed hforgotten =>
      have hall (k : Nat) : SameBuffer (owners.strings.string k) (strings'.string k) := by
        by_cases hk : k = i
        · rw [hk]
          exact hbuffer
        · exact hothers k hk
      have hlive : live' = owners.live := by
        ext b
        simp [mem_release hrelease, hfreed, hblocks.next]
      have hledger : (⟨strings', live', (forgotten.map Ptr.block).toList ++ owners.lost⟩ :
          Owners).ledger = owners.ledger := by
        simp [Owners.ledger, owned_congr (hall _), hlive, hforgotten]
      refine ⟨hledger ▸ hinv.balanced, fun k halloc => ?_, ?_⟩
      · obtain ⟨b, hbuf, hsize⟩ := hinv.alloc k ((hall k).isAlloc.symm.trans halloc)
        exact ⟨b, (hall k).buf.trans hbuf, by rw [hblocks.size, hsize, (hall k).bufSize]⟩
      · exact hinv.handed_out (Nat.le_of_eq hblocks.next.symm) hrelease
  | takes hbuf halloc hnext hsize hparts =>
      have hfresh : ∀ b ∈ owners.live, b ≠ owners.strings.memory.heap.next :=
        fun b hb => Nat.ne_of_lt (hinv.handed b hb)
      obtain ⟨back, hledger⟩ := ledger_settle hinv hothers hparts
        (some owners.strings.memory.heap.next)
        (by rw [Traced.owned, if_pos halloc, hbuf]; rfl)
        (by intro b; rw [hnext, Finset.mem_Ico, Option.some_inj]; omega) hrelease
        (by rintro b ⟨⟩ hb; exact hfresh _ hb rfl)
      refine ⟨?_, fun k hk => ?_, ?_⟩
      · rw [hledger]
        refine hinv.balanced.settle ?_ back
        rintro b ⟨⟩ hb
        exact hfresh _ hb rfl
      · by_cases hki : k = i
        · rw [hki]
          refine ⟨_, hbuf, ?_⟩
          rw [hsize, if_pos rfl]
          intro p hp heq
          rcases hparts with ⟨hfreed, -⟩ | ⟨hfreed, -⟩
          · rw [hfreed] at hp
            exact hfresh _ (hinv.owned hp).2 heq
          · rw [hfreed] at hp
            cases hp
        · refine hinv.alloc_other hki (hothers k hki) hk hparts ?_
          intro b hb hfreed
          rw [hsize b hfreed, if_neg (hfresh b hb)]
      · exact hinv.handed_out (by rw [hnext]; exact Nat.le_succ _) hrelease
  | links hnext hsize halloc hparts =>
      obtain ⟨back, hledger⟩ := ledger_settle hinv hothers hparts none
        (by rw [Traced.owned, halloc]; rfl)
        (by intro b; rw [hnext, Finset.Ico_self]; simp) hrelease (by rintro b ⟨⟩)
      refine ⟨?_, fun k hk => ?_, ?_⟩
      · rw [hledger]
        exact hinv.balanced.settle (by rintro b ⟨⟩) back
      · by_cases hki : k = i
        · rw [hki, halloc] at hk
          cases hk
        · exact hinv.alloc_other hki (hothers k hki) hk hparts fun b _ hfreed => hsize b hfreed
      · exact hinv.handed_out (Nat.le_of_eq hnext.symm) hrelease

theorem Owners.Inv.step {call : OwnersCall} (hinv : owners.Inv)
    (hstep : owners.step call = some owners') : owners'.Inv := by
  cases call with
  | call call =>
      simp only [Owners.step, Option.bind_eq_bind, Option.bind_eq_some_iff, Option.pure_def,
        Option.some.injEq] at hstep
      obtain ⟨strings', hcall, live', hrelease, rfl⟩ := hstep
      obtain ⟨i, hothers, hgives⟩ := Strings.step_gives hcall
      exact hinv.gives hothers hgives hrelease
  | free i =>
      simp only [Owners.step, Option.bind_eq_bind, Option.bind_eq_some_iff, Option.pure_def,
        Option.some.injEq] at hstep
      obtain ⟨live', hrelease, rfl⟩ := hstep
      have hgives : Gives owners.strings.memory (owners.strings.string i)
          (Traced.owned (owners.strings.string i)) none
          (owners.strings.update i
            (stringaaFree owners.strings.memory (owners.strings.string i)).1 {}).memory
          ((owners.strings.update i
            (stringaaFree owners.strings.memory (owners.strings.string i)).1 {}).string i) := by
        rw [Strings.update_string_self]
        exact stringaaFree_gives _ _
      refine hinv.gives ?_ hgives ?_
      · intro k hk
        rw [Strings.update_string_of_ne hk]
        exact .refl _
      · have hnext : (stringaaFree owners.strings.memory (owners.strings.string i)).1.heap.next =
            owners.strings.memory.heap.next := by
          rw [stringaaFree]
          split
          · cases hbuf : (owners.strings.string i).buf <;> rfl
          · rfl
        simpa [Strings.update, hnext] using hrelease

private theorem Owners.initial_inv : (Owners.initial heap).Inv where
  balanced := by
    have hempty : (Owners.initial heap).ledger = .empty := by
      simp [ledger, Owners.initial, Strings.zeroed, Traced.owned, Ledger.empty]
    rw [hempty]
    exact Ledger.empty_balanced
  alloc i halloc := by cases halloc
  handed b hb := by cases hb

/-- The two strings of a call are two. -/
def StringaaCall.Distinct : StringaaCall → Prop
  | .setSubstring i j _ _ => i ≠ j
  | .copy i j => i ≠ j
  | .add i j => i ≠ j
  | .find i j => i ≠ j
  | _ => True

private theorem Strings.step_isSome (strings : Strings) {call : StringaaCall}
    (hcall : call.Distinct) :
    (strings.step call).isSome := by
  cases call with
  | find i j =>
      have hsome : (stringaaFind strings.memory (strings.string i) (strings.string j)).isSome :=
        stringaaFind_isSome
      obtain ⟨result, hfind⟩ := Option.isSome_iff_exists.mp hsome
      have hij : i ≠ j := hcall
      simp [Strings.step, hij, hfind]
  | setSubstring i j | copy i j | add i j =>
      have hij : i ≠ j := hcall
      simp [Strings.step, hij]
  | _ => rfl

/-- The calls on one string, or on two different ones. -/
def OwnersCall.Distinct : OwnersCall → Prop
  | .call c => c.Distinct
  | .free _ => True

private theorem Owners.Inv.step_isSome (hinv : owners.Inv) {call : OwnersCall}
    (hcall : call.Distinct) :
    (owners.step call).isSome := by
  cases call with
  | call call =>
      obtain ⟨strings', hstep⟩ :=
        Option.isSome_iff_exists.mp (Strings.step_isSome owners.strings hcall)
      have hrelease := hinv.release_isSome hstep
        (Finset.Ico owners.strings.memory.heap.next strings'.memory.heap.next)
      obtain ⟨live', hlive⟩ := Option.isSome_iff_exists.mp hrelease
      simp [Owners.step, hstep, hlive]
  | free i =>
      cases howned : Traced.owned (owners.strings.string i) with
      | none => simp [Owners.step, howned, release]
      | some p => simp [Owners.step, howned, release, hinv.owned howned]

/-- In every state that calls lead to, each string that is marked as allocated owns the whole of a
block of its size, which was handed out and has not been given back, and no two strings own one
block. So whatever is called next on any strings, `free` is called on nothing but such a block. -/
theorem Owners.run_owned {calls : List OwnersCall}
    (hrun : Run Owners.step (Owners.initial heap) calls owners) :
    (∀ i, (owners.strings.string i).isAlloc → ∃ b, b ∈ owners.live ∧
      (owners.strings.string i).buf = some ⟨b, 0⟩ ∧
      owners.strings.memory.heap.size b = (owners.strings.string i).bufSize) ∧
    (∀ i j, (owners.strings.string i).isAlloc → (owners.strings.string j).isAlloc →
      (owners.strings.string i).buf = (owners.strings.string j).buf → i = j) ∧
    ∀ call : OwnersCall, call.Distinct → (owners.step call).isSome := by
  have hinv := hrun.invariant Owners.Inv (fun _ _ _ hinv _ hstep => hinv.step hstep)
    Owners.initial_inv
  have howned (i : Nat) (halloc : (owners.strings.string i).isAlloc) :
      Traced.owned (owners.strings.string i) = (owners.strings.string i).buf := if_pos halloc
  refine ⟨?_, ?_, fun call hcall => hinv.step_isSome hcall⟩
  · intro i halloc
    obtain ⟨b, hbuf, hsize⟩ := hinv.alloc i halloc
    exact ⟨b, (hinv.owned ((howned i halloc).trans hbuf)).2, hbuf, hsize⟩
  · intro i j hi hj hbuf
    obtain ⟨b, hb, -⟩ := hinv.alloc i hi
    refine hinv.balanced.one_owner (b := b) ?_ ?_
    · exact congrArg (Option.map Ptr.block) ((howned i hi).trans hb)
    · exact congrArg (Option.map Ptr.block) ((howned j hj).trans (hbuf.symm.trans hb))

/-- A string that is initialised and freed. -/
theorem Owners.run_owned_free : ∃ owners, Run Owners.step (Owners.initial (Heap.ofText []))
    [.call (.init 0 4), .free 0] owners ∧ (owners.step (.free 0)).isSome := by
  have hrun : Run Owners.step (Owners.initial (Heap.ofText [])) [.call (.init 0 4), .free 0] _ :=
    .cons trivial rfl (.cons trivial rfl (.nil _))
  exact ⟨_, hrun, (Owners.run_owned hrun).2.2 (.free 0) trivial⟩

/-- The call makes a string forget what it owns. -/
def Owners.Forgets (owners : Owners) : OwnersCall → Prop
  | .call c => Traced.forgotten owners.strings c ≠ none
  | .free _ => False

private theorem Owners.step_lost {call : OwnersCall} (hstep : owners.step call = some owners') :
    owners.lost <:+ owners'.lost ∧ (owners'.lost = owners.lost ↔ ¬ owners.Forgets call) := by
  cases call with
  | call c =>
      simp only [Owners.step, Option.bind_eq_bind, Option.bind_eq_some_iff, Option.pure_def,
        Option.some.injEq] at hstep
      obtain ⟨strings', hcall, live', hrelease, rfl⟩ := hstep
      refine ⟨List.suffix_append _ _, ?_⟩
      cases hforgotten : Traced.forgotten owners.strings c <;> simp [Owners.Forgets, hforgotten]
  | free i =>
      simp only [Owners.step, Option.bind_eq_bind, Option.bind_eq_some_iff, Option.pure_def,
        Option.some.injEq] at hstep
      obtain ⟨live', hrelease, rfl⟩ := hstep
      exact ⟨List.suffix_refl _, by simp [Owners.Forgets]⟩

private theorem Owners.run_lost {calls : List OwnersCall}
    (hrun : Run Owners.step owners calls owners') :
    owners.lost <:+ owners'.lost := by
  induction hrun with
  | nil _ => exact List.suffix_refl _
  | cons _ hstep _ ih => exact (step_lost hstep).1.trans ih

private theorem Owners.run_lost_iff {calls : List OwnersCall}
    (hrun : Run Owners.step owners calls owners') :
    owners'.lost = owners.lost ↔
      GuardedRun Owners.step (fun owners call => ¬ owners.Forgets call) owners calls owners' := by
  induction hrun with
  | nil owners => exact iff_of_true rfl (.nil owners)
  | @cons owners₁ owners₂ owners₃ call calls _ hstep hrun ih =>
      obtain ⟨hsuffix, hkept⟩ := step_lost hstep
      constructor
      · intro heq
        have hsame : owners₂.lost = owners₁.lost := by
          refine (hsuffix.eq_of_length_le ?_).symm
          rw [← heq]
          exact (run_lost hrun).length_le
        exact .cons (hkept.mp hsame) hstep (ih.mp (heq.trans hsame.symm))
      · rintro (_ | ⟨hok, hstep', hrest⟩)
        rw [hstep] at hstep'
        cases hstep'
        exact (ih.mpr hrest).trans (hkept.mpr hok)

/-- Every block that has been handed out and not been given back is owned by a string or lost, and
no block is both. Every such block is owned by a string if and only if no call of the run
initialised an allocated string again, or moved one to a bigger buffer. -/
theorem Owners.run_leaks {calls : List OwnersCall}
    (hrun : Run Owners.step (Owners.initial heap) calls owners) :
    (∀ b, b ∈ owners.live ↔
      (∃ i, Traced.owned (owners.strings.string i) = some ⟨b, 0⟩) ∨ b ∈ owners.lost) ∧
    (∀ b ∈ owners.lost, ∀ i, Traced.owned (owners.strings.string i) ≠ some ⟨b, 0⟩) ∧
    ((∀ b ∈ owners.live, ∃ i, Traced.owned (owners.strings.string i) = some ⟨b, 0⟩) ↔
      GuardedRun Owners.step (fun owners call => ¬ owners.Forgets call) (Owners.initial heap)
        calls owners) := by
  have hinv := hrun.invariant Owners.Inv (fun _ _ _ hinv _ hstep => hinv.step hstep)
    Owners.initial_inv
  have howned (i b : Nat) : owners.ledger.owned i = some b ↔
      Traced.owned (owners.strings.string i) = some ⟨b, 0⟩ := by
    constructor
    · intro hblock
      obtain ⟨p, hp, rfl⟩ := Option.map_eq_some_iff.mp hblock
      rw [hp, ← (hinv.owned hp).1]
    · intro hp
      exact congrArg (Option.map Ptr.block) hp
  have hlive (b : Nat) : b ∈ owners.live ↔
      (∃ i, Traced.owned (owners.strings.string i) = some ⟨b, 0⟩) ∨ b ∈ owners.lost := by
    have hiff := hinv.balanced.live_iff b
    simp only [howned] at hiff
    exact hiff
  have hlost (b : Nat) (hb : b ∈ owners.lost) (i : Nat) :
      Traced.owned (owners.strings.string i) ≠ some ⟨b, 0⟩ :=
    fun hp => hinv.balanced.not_lost ((howned i b).mpr hp) hb
  have hnothing : owners.lost = [] ↔ GuardedRun Owners.step
      (fun owners call => ¬ owners.Forgets call) (Owners.initial heap) calls owners :=
    run_lost_iff hrun
  refine ⟨hlive, hlost, ?_⟩
  rw [← hnothing, List.eq_nil_iff_forall_not_mem]
  constructor
  · intro hall b hb
    obtain ⟨i, hi⟩ := hall b ((hlive b).mpr (.inr hb))
    exact hlost b hb i hi
  · intro hnone b hb
    exact ((hlive b).mp hb).resolve_right (hnone b)

/-- The buffer of an allocated string that is moved. -/
theorem Owners.run_leaks_realloc : ∃ owners, Run Owners.step (Owners.initial (Heap.ofText []))
    [.call (.init 0 4), .call (.realloc 0 8)] owners ∧ owners.lost = [1] ∧
      ∀ i, Traced.owned (owners.strings.string i) ≠ some ⟨1, 0⟩ := by
  have hrun : Run Owners.step (Owners.initial (Heap.ofText []))
      [.call (.init 0 4), .call (.realloc 0 8)] _ := .cons trivial rfl (.cons trivial rfl (.nil _))
  exact ⟨_, hrun, rfl, (Owners.run_leaks hrun).2.1 1 (by decide)⟩

end Books

end Httpaa.Traced
