import Httpaa.Strings.Buffer

/-!
# Strings and what they touch

The functions of `stringaa.h` over a memory that notes which indices of which buffer each access
goes to. An access never fails here: what is out of the bounds of its buffer is found in the notes.
-/

namespace Httpaa.Traced

/-- Access to `count` bytes from index `start` of a buffer of `size` bytes. -/
structure Access where
  start : Nat
  count : Nat
  size : Nat
deriving DecidableEq, Repr

/-- Only indices below the size of the buffer. -/
def Access.InBounds (access : Access) : Prop :=
  ∀ i < access.count, access.start + i < access.size

/-- Memory with its accesses so far, the last one first. -/
structure Memory where
  heap : Heap
  log : List Access

def Memory.touch (m : Memory) (start count size : Nat) : Memory :=
  { m with log := ⟨start, count, size⟩ :: m.log }

/-- `buf + start`, into a buffer of `size` bytes. -/
structure Chars where
  buf : Option Ptr
  start : Nat
  size : Nat
deriving DecidableEq, Repr

/-- `s->buf + start`. -/
def stringChars (s : Stringaa) (start : Nat) : Chars := ⟨s.buf, start, s.bufSize⟩

/-- `*chars`. -/
def Memory.load (m : Memory) (chars : Chars) : UInt8 × Memory :=
  (chars.buf.elim 0 fun p => m.heap.byte (p.add chars.start), m.touch chars.start 1 chars.size)

/-- `*chars = c`. -/
def Memory.store (m : Memory) (chars : Chars) (c : UInt8) : Memory :=
  { m with heap := chars.buf.elim m.heap fun p => m.heap.store (p.add chars.start) c }.touch
    chars.start 1 chars.size

/-- `memcpy(dst, src, n)`. -/
def Memory.memcpy (m : Memory) (dst src : Chars) (n : Nat) : Memory :=
  match dst.buf, src.buf with
  | some p, some q =>
      ({ m with heap := m.heap.memmove (p.add dst.start) (q.add src.start) n }.touch
        src.start n src.size).touch dst.start n dst.size
  | _, _ => (m.touch src.start n src.size).touch dst.start n dst.size

/-! ### Allocation -/

/-- `malloc(n)`, which succeeds; the new block holds whatever the memory holds. -/
def Memory.malloc (m : Memory) (n : Nat) : Ptr × Memory :=
  (⟨m.heap.next, 0⟩,
    { m with heap := { m.heap with
        size := fun block => if block = m.heap.next then n else m.heap.size block
        next := m.heap.next + 1 } })

def stringaaMalloc (m : Memory) (s : Stringaa) (bufSize : Nat) : Bool × Memory × Stringaa :=
  let (isSet, heap, t) := Httpaa.stringaaMalloc m.heap s bufSize
  (isSet, if isSet then { m with heap }.touch 0 bufSize bufSize else m, t)

/-- `stringaa_realloc`. The old buffer is not freed. -/
def stringaaRealloc (m : Memory) (s : Stringaa) (bufSize : Nat) : Bool × Memory × Stringaa :=
  if bufSize = 0 ∨ bufSize < s.bufSize then (false, m, s)
  else
    let bufSize := if s.isNullTerminated then bufSize else bufSize + 1
    let (buf, m) := m.malloc bufSize
    let writePos := if s.isInit then if s.bufSize ≤ s.writePos then s.bufSize - 1 else s.writePos
      else 0
    let t := { s with buf := some buf, bufSize, readPos := 0, writePos, isAlloc := true }
    let m := if s.isInit then m.memcpy (stringChars t 0) (stringChars s 0) writePos else m
    let m := if s.isInit ∧ s.isNullTerminated then m.store (stringChars t writePos) 0 else m
    (true, m, t)

/-- `stringaa_init`. What the structure held before does not matter. -/
def stringaaInit (m : Memory) (bufSize : Nat) : Bool × Memory × Stringaa :=
  if 0 < bufSize then
    let (isInit, m, s) := stringaaMalloc m {} bufSize
    (isInit, m, if isInit then { s with isInit := true } else s)
  else (true, m, { isInit := true })

/-- `stringaa_set_chars`, where `strlen(buf)` is `length`. -/
def stringaaSetChars (s : Stringaa) (buf : Option Ptr) (length : Nat) : Bool × Stringaa :=
  if buf.isSome ∧ 0 < length then
    let (isSet, s) := stringaaSetCharsSize s buf length
    (isSet, if isSet then { s with isNullTerminated := true, bufSize := s.bufSize + 1 } else s)
  else (false, s)

/-! ### Cursors -/

def stringaaBeginReadPos (s : Stringaa) : Stringaa := { s with readPos := 0 }

def stringaaEndReadPos (s : Stringaa) : Stringaa := { s with readPos := s.writePos - 1 }

/-- `buf_size ? buf_size - is_null_terminated : 0`. -/
def writeEnd (s : Stringaa) : Nat := if 0 < s.bufSize
    then s.bufSize - s.isNullTerminated.toNat else 0

def stringaaNextWritePos (s : Stringaa) : Bool × Stringaa :=
  if s.writePos + s.isNullTerminated.toNat + 1 < s.bufSize then
    (true, { s with writePos := s.writePos + 1 })
  else (false, { s with writePos := writeEnd s })

def stringaaPrevWritePos (s : Stringaa) : Bool × Stringaa :=
  if 0 < s.writePos ∧ s.writePos + s.isNullTerminated.toNat ≤ s.bufSize then
    (true, { s with writePos := s.writePos - 1 })
  else (false, { s with writePos := writeEnd s })

def stringaaBeginWritePos (s : Stringaa) : Stringaa := { s with writePos := 0 }

def stringaaEndWritePos (s : Stringaa) : Stringaa := { s with writePos := writeEnd s - 1 }

def stringaaClean (s : Stringaa) : Stringaa := stringaaBeginWritePos (stringaaBeginReadPos s)

/-! ### Characters -/

def stringaaGetChar (m : Memory) (s : Stringaa) : UInt8 × Memory :=
  if s.readPos < s.writePos then m.load (stringChars s s.readPos) else (0, m)

/-- `stringaa_set_char`. A string that does not own its characters would be reallocated, but not to
size 0. -/
def stringaaSetChar (m : Memory) (s : Stringaa) (c : UInt8) : Bool × Memory × Stringaa :=
  if s.writePos + s.isNullTerminated.toNat < s.bufSize then
    let (m, s) := if s.isAlloc then (m, s) else (stringaaRealloc m s 0).2
    (true, m.store (stringChars s s.writePos) c, s)
  else (false, m, s)

def stringaaIsChar (m : Memory) (s : Stringaa) (c : UInt8) : Bool × Memory × Stringaa :=
  let (x, m) := stringaaGetChar m s
  if c = x then (true, m, (stringaaNextReadPos s).2) else (false, m, s)

/-- `_toupper` in the C locale. -/
def charUpper (c : UInt8) : UInt8 := if ch 'a' ≤ c ∧ c ≤ ch 'z' then c - 32 else c

/-- `stringaa_is_chari`. Unlike `stringaa_is_char` it does not look at the write position. -/
def stringaaIsChari (m : Memory) (s : Stringaa) (c : UInt8) : Bool × Memory × Stringaa :=
  let (x, m) := m.load (stringChars s s.readPos)
  if charUpper c = charUpper x then (true, m, { s with readPos := s.readPos + 1 })
  else (false, m, s)

/-! ### Parts, copies and searches -/

def stringaaReadPos : Int := -1

def stringaaWritePos : Int := -2

def stringaaSetSubstring (s1 s2 : Stringaa) (pos1 pos2 : Int) : Stringaa :=
  let pos1 := if pos1 = stringaaReadPos then toInt s2.readPos else pos1
  let pos2 := if pos2 = stringaaReadPos then toInt s2.readPos
    else if pos2 = stringaaWritePos then toInt s2.writePos else pos2
  if 0 ≤ pos1 ∧ pos1 < pos2 ∧ pos2 ≤ s2.writePos then
    { buf := s2.buf.map fun p => p.add pos1.toNat
      bufSize := (pos2 - pos1).toNat
      readPos := 0
      writePos := (pos2 - pos1).toNat
      isInit := true }
  else s1

def stringaaCopyCharsSize (m : Memory) (s : Stringaa) (chars : Chars) (bufSize : Nat) :
    Bool × Memory × Stringaa :=
  if chars.buf = none then (false, m, s)
  else
    let (m, s) :=
      if ¬ s.isAlloc ∨ s.bufSize ≤ bufSize + 1 then (stringaaMalloc m s (bufSize + 1)).2
      else (m, s)
    let m := m.memcpy (stringChars s 0) chars bufSize
    let m := if s.isNullTerminated then m.store (stringChars s bufSize) 0 else m
    (true, m, { s with writePos := bufSize, readPos := 0, isInit := true })

def stringaaCopy (m : Memory) (s1 s2 : Stringaa) : Bool × Memory × Stringaa :=
  if s2.buf = none ∨ s2.isInit = false then (false, m, s1)
  else
    let (isCopy, m, s1) :=
      stringaaCopyCharsSize m s1 (stringChars s2 0) (s2.bufSize - s2.isNullTerminated.toNat)
    (isCopy, m, if isCopy then { s1 with writePos := s2.writePos } else s1)

def stringaaAddCharsSize (m : Memory) (s : Stringaa) (chars : Chars) (bufSize : Nat) :
    Bool × Memory × Stringaa :=
  if chars.buf ≠ none ∧ 0 < bufSize then
    let (m, s) :=
      if s.isAlloc = false ∨ s.bufSize ≤ s.writePos + bufSize + 1 then
        (stringaaRealloc m s (s.writePos + bufSize + 1)).2
      else (m, s)
    let m := m.memcpy (stringChars s s.writePos) chars bufSize
    let writePos := s.writePos + bufSize
    let m := if s.isNullTerminated then m.store (stringChars s writePos) 0 else m
    (true, m, { s with writePos, readPos := 0, isInit := true })
  else (true, m, s)

/-- `stringaa_add_chars` of characters that are in no buffer of the model. -/
def stringaaAddLiteral (m : Memory) (s : Stringaa) (text : List UInt8) : Memory × Stringaa :=
  if text ≠ [] then
    let (m, s) :=
      if s.isAlloc = false ∨ s.bufSize ≤ s.writePos + text.length + 1 then
        (stringaaRealloc m s (s.writePos + text.length + 1)).2
      else (m, s)
    let heap := s.buf.elim m.heap fun p => m.heap.storeAll (p.add s.writePos) text
    let m := { m with heap }.touch s.writePos text.length s.bufSize
    let writePos := s.writePos + text.length
    let m := if s.isNullTerminated then m.store (stringChars s writePos) 0 else m
    (m, { s with writePos, readPos := 0, isInit := true })
  else (m, s)

def stringaaAdd (m : Memory) (s1 s2 : Stringaa) : Bool × Memory × Stringaa :=
  if s2.buf ≠ none ∧ s2.isInit ∧ s2.readPos < s2.writePos ∧
      s2.writePos + s2.isNullTerminated.toNat ≤ s2.bufSize then
    stringaaAddCharsSize m s1 (stringChars s2 s2.readPos) (s2.writePos - s2.readPos)
  else (false, m, s1)

/-! ### The functions without their notes -/

section Untraced

variable {m : Memory} {s s1 s2 t : Stringaa} {chars : Chars} {h : Heap} {b : Bool} {c x : UInt8}
  {n : Nat}

/-- Where a character can be loaded the notes are all that is added. -/
theorem stringaaGetChar_untraced (hget : Httpaa.stringaaGetChar m.heap s = some x) :
    (stringaaGetChar m s).1 = x ∧ (stringaaGetChar m s).2.heap = m.heap := by
  rw [Httpaa.stringaaGetChar] at hget
  rw [stringaaGetChar]
  by_cases hlt : s.readPos < s.writePos
  · rw [if_pos hlt] at hget ⊢
    obtain ⟨p, hbuf, hload⟩ := Option.bind_eq_some_iff.mp hget
    rw [Heap.load] at hload
    split at hload
    · cases hload
      exact ⟨by simp [Memory.load, stringChars, hbuf, Heap.byte], rfl⟩
    · cases hload
  · rw [if_neg hlt] at hget ⊢
    cases hget
    exact ⟨rfl, rfl⟩

theorem stringaaIsChar_untraced (his : Httpaa.stringaaIsChar m.heap s c = some (b, t)) :
    (stringaaIsChar m s c).1 = b ∧ (stringaaIsChar m s c).2.1.heap = m.heap ∧
      (stringaaIsChar m s c).2.2 = t := by
  obtain ⟨x, hget, his⟩ := Option.bind_eq_some_iff.mp his
  obtain ⟨hx, hheap⟩ := stringaaGetChar_untraced hget
  simp only [stringaaIsChar, hx]
  by_cases hc : c = x
  · rw [if_pos hc] at his
    cases his
    simp only [if_pos hc, hheap, and_self]
  · rw [if_neg hc] at his
    cases his
    simp only [if_neg hc, hheap, and_self]

theorem stringaaSetSubstring_cursors : stringaaSetSubstring s1 s2 stringaaReadPos stringaaWritePos =
    Httpaa.stringaaSetSubstring s1 s2 := by
  have hne : ¬ stringaaWritePos = stringaaReadPos := by decide
  simp only [stringaaSetSubstring, if_true, if_neg hne, Httpaa.stringaaSetSubstring]

private theorem stringaaMalloc_untraced : (stringaaMalloc m s n).2.1.heap =
    (Httpaa.stringaaMalloc m.heap s n).2.1 ∧
      (stringaaMalloc m s n).2.2 = (Httpaa.stringaaMalloc m.heap s n).2.2 := by
  by_cases hset : 0 < n ∧ ((s.isAlloc = true ∧ s.bufSize < n) ∨ ¬ s.isAlloc = true)
  · simp only [stringaaMalloc, Httpaa.stringaaMalloc, if_pos hset, if_true]
    trivial
  · simp only [stringaaMalloc, Httpaa.stringaaMalloc, if_neg hset, Bool.false_eq_true, if_false]
    trivial

theorem stringaaCopyCharsSize_untraced
    (hcopy : Httpaa.stringaaCopyCharsSize m.heap s (chars.buf.map fun p => p.add chars.start) n =
      some (b, h, t)) :
    (stringaaCopyCharsSize m s chars n).1 = b ∧ (stringaaCopyCharsSize m s chars n).2.1.heap = h ∧
      (stringaaCopyCharsSize m s chars n).2.2 = t := by
  cases hbuf : chars.buf with
  | none =>
      rw [hbuf] at hcopy
      cases hcopy
      rw [stringaaCopyCharsSize, if_pos hbuf]
      exact ⟨rfl, rfl, rfl⟩
  | some p =>
      have hne : chars.buf ≠ none := by simp [hbuf]
      rw [hbuf, Option.map_some, Httpaa.stringaaCopyCharsSize] at hcopy
      rw [stringaaCopyCharsSize, if_neg hne]
      have hroom : (if ¬ s.isAlloc = true ∨ s.bufSize ≤ n + 1 then
            (stringaaMalloc m s (n + 1)).2 else (m, s)).1.heap =
          (if ¬ s.isAlloc = true ∨ s.bufSize ≤ n + 1 then
            Httpaa.stringaaMalloc m.heap s (n + 1) else (false, m.heap, s)).2.1 ∧
          (if ¬ s.isAlloc = true ∨ s.bufSize ≤ n + 1 then
            (stringaaMalloc m s (n + 1)).2 else (m, s)).2 =
          (if ¬ s.isAlloc = true ∨ s.bufSize ≤ n + 1 then
            Httpaa.stringaaMalloc m.heap s (n + 1) else (false, m.heap, s)).2.2 := by
        split
        · exact stringaaMalloc_untraced
        · exact ⟨rfl, rfl⟩
      generalize (if ¬ s.isAlloc = true ∨ s.bufSize ≤ n + 1 then
        (stringaaMalloc m s (n + 1)).2 else (m, s)) = made at hroom ⊢
      generalize (if ¬ s.isAlloc = true ∨ s.bufSize ≤ n + 1 then
        Httpaa.stringaaMalloc m.heap s (n + 1) else (false, m.heap, s)) = made' at hroom hcopy
      obtain ⟨hheap, hstring⟩ := hroom
      obtain ⟨dst, hdst, hcopy⟩ := Option.bind_eq_some_iff.mp hcopy
      cases hcopy
      rw [← hheap, ← hstring] at *
      refine ⟨rfl, ?_, rfl⟩
      cases hnul : made.2.isNullTerminated <;>
        simp [Memory.memcpy, Memory.store, Memory.touch, stringChars, hdst, hbuf, hnul]

theorem stringaaCopy_untraced (hcopy : Httpaa.stringaaCopy m.heap s1 s2 = some (b, h, t)) :
    (stringaaCopy m s1 s2).1 = b ∧ (stringaaCopy m s1 s2).2.1.heap = h ∧
      (stringaaCopy m s1 s2).2.2 = t := by
  rw [Httpaa.stringaaCopy] at hcopy
  rw [stringaaCopy]
  split at hcopy
  · rename_i hnone
    cases hcopy
    rw [if_pos hnone]
    exact ⟨rfl, rfl, rfl⟩
  · rename_i hsome
    obtain ⟨⟨isCopy, heap, copy⟩, hchars, hcopy⟩ := Option.bind_eq_some_iff.mp hcopy
    cases hcopy
    have hmap : (stringChars s2 0).buf.map (fun p => p.add (stringChars s2 0).start) = s2.buf := by
      simp [stringChars]
    rw [← hmap] at hchars
    obtain ⟨hresult, hheap, hstring⟩ := stringaaCopyCharsSize_untraced hchars
    rw [if_neg hsome]
    simp only [hresult, hheap, hstring, and_self]

end Untraced

/-- The variables of `stringaa_find`. -/
structure FindScan where
  memory : Memory
  s : Stringaa
  search : Stringaa
  c : UInt8
  cSearch : UInt8
  pos : Nat
  isFollow : Bool

/-- `if (!stringaa_next_read_pos(s)) break; c = stringaa_get_char(s);`. -/
def FindScan.next (scan : FindScan) : Bool × FindScan :=
  let (isNext, s) := stringaaNextReadPos scan.s
  if isNext then
    let (c, memory) := stringaaGetChar scan.memory s
    (true, { scan with memory, s, c })
  else (false, { scan with s })

/-- The loop of `stringaa_find`: the position found, or -1. -/
def stringaaFindLoop : Nat → FindScan → Option (Int × FindScan)
  | 0, _ => none
  | fuel + 1, scan =>
      if scan.cSearch = 0 then some (-1, scan)
      else if scan.c = scan.cSearch then
        let pos := if scan.isFollow then scan.pos else scan.s.readPos
        let (isNext, search) := stringaaNextReadPos scan.search
        let scan := { scan with pos, isFollow := true, search }
        if isNext then
          let (cSearch, memory) := stringaaGetChar scan.memory search
          let (isNext, scan) := { scan with cSearch, memory }.next
          if isNext then stringaaFindLoop fuel scan else some (-1, scan)
        else some (toInt pos, scan)
      else if scan.isFollow then
        let search := stringaaBeginReadPos scan.search
        let (cSearch, memory) := stringaaGetChar scan.memory search
        let s := { scan.s with readPos := scan.pos }
        let (isNext, scan) := { scan with memory, s, search, cSearch, isFollow := false }.next
        if isNext then stringaaFindLoop fuel scan else some (-1, scan)
      else
        let (isNext, scan) := scan.next
        if isNext then stringaaFindLoop fuel scan else some (-1, scan)

/-- `stringaa_find`. A mismatch sends the scan back to the character after the one where the match
began, so it may pass the string once for every character. -/
def stringaaFind (m : Memory) (s search : Stringaa) :
    Option (Int × Memory × Stringaa × Stringaa) :=
  if s.buf ≠ none ∧ s.isInit ∧ search.buf ≠ none ∧ search.isInit then
    let s := stringaaBeginReadPos s
    let search := stringaaBeginReadPos search
    let (c, m) := stringaaGetChar m s
    let (cSearch, m) := stringaaGetChar m search
    let scan := { memory := m, s, search, c, cSearch, pos := 0, isFollow := false }
    (stringaaFindLoop ((s.writePos + 2) * (s.writePos + 2)) scan).map fun (found, scan) =>
      (found, scan.memory, scan.s, scan.search)
  else some (-1, m, s, search)

/-! ### Receiving -/

def socketaaSocketError : Int := -1

def socketaaErrorRecvShutdown : Int := -2

/-- `socketaa_worker_recv`, where `recv` returns -1 (`none`) or as much of `received` as it is given
room for. -/
def socketaaWorkerRecv (m : Memory) (s : Stringaa) (received : Option (List UInt8)) :
    Int × Memory × Stringaa :=
  if s.writePos < s.bufSize then
    let m := m.touch s.writePos (s.bufSize - s.writePos) s.bufSize
    match received with
    | none => (socketaaSocketError, m, s)
    | some bytes =>
        let bytes := bytes.take (s.bufSize - s.writePos)
        if bytes = [] then (socketaaErrorRecvShutdown, m, s)
        else
          let heap := s.buf.elim m.heap fun p => m.heap.storeAll (p.add s.writePos) bytes
          (bytes.length, { m with heap }, { s with writePos := s.writePos + bytes.length })
  else (0, m, s)

end Httpaa.Traced
