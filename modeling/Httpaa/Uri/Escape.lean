import Httpaa.Strings.Content
import Httpaa.Uri.Parser

/-!
# Escaping and unescaping

`uriaa_escape` and `uriaa_unescape` write through a cursor that drops what does not fit. On texts,
escaping is a map of characters to one or three, and unescaping keeps of an escape the character of
its low digit; a round trip gives the text back only if it has nothing to escape.
-/

namespace Httpaa

open Traced

/-! ### Characters -/

def controlChars (c : UInt8) : Bool := c ≤ 0x1f || c == 0x7f

def spaceChars (c : UInt8) : Bool := c == 0x20

def delimsChars (c : UInt8) : Bool :=
  c == ch '<' || c == ch '>' || c == ch '#' || c == ch '%' || c == ch '"'

def unwiseChars (c : UInt8) : Bool :=
  c == 0x7b || c == 0x7d || c == ch '|' || c == ch '\\' || c == ch '^' || c == ch '[' ||
    c == ch ']' || c == 0x60

def uriaaEscapeReserved : UInt32 := 1

def uriaaEscapeUnreserved : UInt32 := 2

/-- The characters that `uriaa_escape` escapes. -/
def escapedUnder (flags : UInt32) (c : UInt8) : Bool :=
  controlChars c || spaceChars c || delimsChars c || unwiseChars c ||
    (flags &&& uriaaEscapeReserved != 0 && reservedChars c)

/-- The hexadecimal digit of the low four bits. -/
def hexDigit (c : UInt8) : UInt8 :=
  let digit := (c &&& 0xf) ||| 0x30
  if 0x39 < digit then digit + 0x7 else digit

/-- `uriaa_escape_char`: `ca[0]` and `ca[1]`. -/
def uriaaEscapeChar (c : UInt8) : UInt8 × UInt8 := (hexDigit c, hexDigit (c >>> 4))

/-- One round of the loop of `uriaa_unescape_char`: the value of a digit. -/
def hexValue (c : UInt8) : Option UInt8 :=
  let c := if ch 'a' ≤ c ∧ c ≤ ch 'f' then c - 0x20 else c
  let c := if ch 'A' ≤ c ∧ c ≤ ch 'F' then c - 0x7 else c
  if 0x30 ≤ c ∧ c ≤ 0x3f then some (c &&& 0xf) else none

/-- `uriaa_unescape_char`: `ca[2]`. -/
def uriaaUnescapeChar (ca0 ca1 : UInt8) : Option UInt8 := do
  let low ← hexValue ca0
  let high ← hexValue ca1
  return low ||| (high <<< 4)

/-! ### Strings -/

/-- The strings a conversion works on. -/
structure Conversion where
  memory : Memory
  dst : Stringaa
  src : Stringaa

/-- `stringaa_set_char(dst, c); stringaa_next_write_pos(dst);`. -/
def Conversion.put (v : Conversion) (c : UInt8) : Conversion :=
  let (_, memory, dst) := stringaaSetChar v.memory v.dst c
  { v with memory, dst := (stringaaNextWritePos dst).2 }

/-- `stringaa_get_char(src)`. -/
def Conversion.get (v : Conversion) : UInt8 × Conversion :=
  let (c, memory) := Traced.stringaaGetChar v.memory v.src
  (c, { v with memory })

/-- `stringaa_next_read_pos(src)`. -/
def Conversion.next (v : Conversion) : Bool × Conversion :=
  let (more, src) := stringaaNextReadPos v.src
  (more, { v with src })

/-- What `uriaa_escape` writes for a character. -/
def Conversion.putEscaped (flags : UInt32) (v : Conversion) (c : UInt8) : Conversion :=
  if escapedUnder flags c then
    let (ca0, ca1) := uriaaEscapeChar c
    ((v.put (ch '%')).put ca1).put ca0
  else v.put c

def uriaaEscapeLoop (flags : UInt32) : Nat → Conversion → Option (Bool × Conversion)
  | 0, _ => none
  | fuel + 1, v =>
      let (c, v) := v.get
      let (more, v) := (v.putEscaped flags c).next
      if more then uriaaEscapeLoop flags fuel v else some (true, v)

/-- The destination made ready: `stringaa_malloc`, `stringaa_begin_write_pos`, `is_init = 1`, and
`stringaa_begin_read_pos` of the source. -/
def Conversion.start (m : Memory) (dst src : Stringaa) (size : Nat) : Conversion :=
  let (_, memory, dst) := Traced.stringaaMalloc m dst size
  { memory, dst := { stringaaBeginWritePos dst with isInit := true },
    src := stringaaBeginReadPos src }

def uriaaEscape (m : Memory) (uriEscaped uri : Stringaa) (flags : UInt32) :
    Option (Bool × Conversion) :=
  uriaaEscapeLoop flags uri.budget (Conversion.start m uriEscaped uri (uri.writePos * 3))

/-- One round of the loop of `uriaa_unescape`: the value returned if it is the last one, and
`is_unescape`. -/
def uriaaUnescapeRound (flags : UInt32) (isUnescape : Bool) (v : Conversion) :
    Option Bool × Bool × Conversion :=
  let (c, v) := v.get
  if c = ch '%' then
    let (more, v) := v.next
    if more then
      let (ca1, v) := v.get
      let (more, v) := v.next
      if more then
        let (ca0, v) := v.get
        match uriaaUnescapeChar ca0 ca1 with
        | some c =>
            let v :=
              if flags &&& uriaaEscapeUnreserved != 0 then
                if unreservedChars c then v.put c
                else ((v.put (ch '%')).put ca1).put ca0
              else v.put ca0
            let (more, v) := v.next
            (if more then none else some true, true, v)
        | none => (some false, false, v)
      else (some isUnescape, isUnescape, v)
    else (some isUnescape, isUnescape, v)
  else
    let (more, v) := (v.put c).next
    (if more then none else some true, isUnescape, v)

def uriaaUnescapeLoop (flags : UInt32) : Nat → Bool → Conversion → Option (Bool × Conversion)
  | 0, _, _ => none
  | fuel + 1, isUnescape, v =>
      let round := uriaaUnescapeRound flags isUnescape v
      match round.1 with
      | some result => some (result, round.2.2)
      | none => uriaaUnescapeLoop flags fuel round.2.1 round.2.2

def uriaaUnescape (m : Memory) (uri uriEscaped : Stringaa) (flags : UInt32) :
    Option (Bool × Conversion) :=
  uriaaUnescapeLoop flags uriEscaped.budget false
    (Conversion.start m uri uriEscaped uriEscaped.writePos)

/-! ### Texts -/

/-- What a character is escaped to. -/
def Text.escapeChar (flags : UInt32) (c : UInt8) : List UInt8 :=
  if escapedUnder flags c then [ch '%', (uriaaEscapeChar c).2, (uriaaEscapeChar c).1] else [c]

/-- What is written for a text that is not empty, and whether 1 is returned. -/
def Text.unescape : Bool → List UInt8 → Bool × List UInt8
  | isUnescape, [] => (isUnescape, [])
  | isUnescape, c :: rest =>
      if c = ch '%' then
        match rest with
        | ca1 :: ca0 :: rest =>
            if (uriaaUnescapeChar ca0 ca1).isSome then
              if rest = [] then (true, [ca0])
              else ((unescape true rest).1, ca0 :: (unescape true rest).2)
            else (false, [])
        | _ => (isUnescape, [])
      else if rest = [] then (true, [c])
      else ((unescape isUnescape rest).1, c :: (unescape isUnescape rest).2)

/-- What is written for an escape of the character `c`. -/
def Text.unescapeTriple (flags : UInt32) (c ca1 ca0 : UInt8) : List UInt8 :=
  if flags &&& uriaaEscapeUnreserved != 0 then
    if unreservedChars c then [c] else [ch '%', ca1, ca0]
  else [ca0]

/-- What is written for a text under flags, and whether 1 is returned. -/
def Text.unescapeUnder (flags : UInt32) : Bool → List UInt8 → Bool × List UInt8
  | isUnescape, [] => (isUnescape, [])
  | isUnescape, c :: rest =>
      if c = ch '%' then
        match rest with
        | ca1 :: ca0 :: rest =>
            match uriaaUnescapeChar ca0 ca1 with
            | some x =>
                if rest = [] then (true, unescapeTriple flags x ca1 ca0)
                else ((unescapeUnder flags true rest).1,
                  unescapeTriple flags x ca1 ca0 ++ (unescapeUnder flags true rest).2)
            | none => (false, [])
        | _ => (isUnescape, [])
      else if rest = [] then (true, [c])
      else ((unescapeUnder flags isUnescape rest).1, c :: (unescapeUnder flags isUnescape rest).2)

theorem Text.unescapeUnder_cons {flags : UInt32} {isUnescape : Bool} {c : UInt8}
    {rest : List UInt8} (hc : c ≠ ch '%') (hrest : rest ≠ []) :
    unescapeUnder flags isUnescape (c :: rest) =
      ((unescapeUnder flags isUnescape rest).1, c :: (unescapeUnder flags isUnescape rest).2) := by
  rw [unescapeUnder.eq_def]
  dsimp only
  rw [if_neg hc, if_neg hrest]

theorem Text.unescapeUnder_triple {flags : UInt32} {isUnescape : Bool} {ca1 ca0 x : UInt8}
    {rest : List UInt8} (hchar : uriaaUnescapeChar ca0 ca1 = some x) (hrest : rest ≠ []) :
    unescapeUnder flags isUnescape (ch '%' :: ca1 :: ca0 :: rest) =
      ((unescapeUnder flags true rest).1,
        unescapeTriple flags x ca1 ca0 ++ (unescapeUnder flags true rest).2) := by
  rw [unescapeUnder.eq_def]
  simp only [if_true, hchar, if_neg hrest]

private theorem Text.unescape_eq (isUnescape : Bool) (text : List UInt8) :
    unescape isUnescape text = unescapeUnder 0 isUnescape text := by
  fun_induction unescape isUnescape text with
  | case1 isUnescape => rfl
  | case2 isUnescape ca1 ca0 hchar =>
      obtain ⟨x, hx⟩ := Option.isSome_iff_exists.mp hchar
      simp [unescapeUnder, unescapeTriple, hx]
  | case3 isUnescape ca1 ca0 rest hchar hrest ih =>
      obtain ⟨x, hx⟩ := Option.isSome_iff_exists.mp hchar
      rw [unescapeUnder_triple hx hrest, ih]
      rfl
  | case4 isUnescape ca1 ca0 rest hchar =>
      rw [Option.not_isSome_iff_eq_none] at hchar
      simp [unescapeUnder, hchar]
  | case5 isUnescape rest hshort =>
      cases rest with
      | nil => rfl
      | cons ca1 rest =>
          cases rest with
          | nil => rfl
          | cons ca0 rest => exact absurd rfl (hshort ca1 ca0 rest)
  | case6 isUnescape c hc => simp [unescapeUnder, hc]
  | case7 isUnescape c rest hc hrest ih => rw [unescapeUnder_cons hc hrest, ih]

private theorem Text.unescape_cons {isUnescape : Bool} {c : UInt8} {rest : List UInt8}
    (hc : c ≠ ch '%') (hrest : rest ≠ []) : unescape isUnescape (c :: rest) =
      ((unescape isUnescape rest).1, c :: (unescape isUnescape rest).2) := by
  rw [unescape.eq_def]
  dsimp only
  rw [if_neg hc, if_neg hrest]

private theorem Text.unescape_singleton {isUnescape : Bool} {c : UInt8} (hc : c ≠ ch '%') :
    unescape isUnescape [c] = (true, [c]) := by
  simp [unescape, hc]

/-! ### Hexadecimal digits -/

theorem hexDigit_of_lt {P : UInt8 → Prop} (hall : ∀ n < 16, P (hexDigit (UInt8.ofNat n)))
    (c : UInt8) : P (hexDigit c) := by
  have hlt : (c &&& 0xf).toNat < 16 := by
    rw [UInt8.toNat_and]
    exact Nat.lt_of_le_of_lt Nat.and_le_right (by decide)
  have hdigit : hexDigit c = hexDigit (UInt8.ofNat (c &&& 0xf).toNat) := by
    rw [UInt8.ofNat_toNat, hexDigit, hexDigit, UInt8.and_assoc]
    rfl
  exact hdigit ▸ hall _ hlt

private theorem hexDigit_range (c : UInt8) :
    (48 ≤ (hexDigit c).toNat ∧ (hexDigit c).toNat ≤ 57) ∨
      (65 ≤ (hexDigit c).toNat ∧ (hexDigit c).toNat ≤ 70) :=
  hexDigit_of_lt (P := fun d => (48 ≤ d.toNat ∧ d.toNat ≤ 57) ∨ (65 ≤ d.toNat ∧ d.toNat ≤ 70))
    (by decide) c

private theorem hexValue_hexDigit (c : UInt8) : (hexValue (hexDigit c)).isSome :=
  hexDigit_of_lt (P := fun d => (hexValue d).isSome) (by decide) c

private theorem uriaaUnescapeChar_escapeChar (c : UInt8) :
    (uriaaUnescapeChar (uriaaEscapeChar c).1 (uriaaEscapeChar c).2).isSome := by
  obtain ⟨low, hlow⟩ := Option.isSome_iff_exists.mp (hexValue_hexDigit c)
  obtain ⟨high, hhigh⟩ := Option.isSome_iff_exists.mp (hexValue_hexDigit (c >>> 4))
  simp [uriaaUnescapeChar, uriaaEscapeChar, hlow, hhigh]

private theorem hexDigit_not_escaped (flags : UInt32) (c : UInt8) :
    escapedUnder flags (hexDigit c) = false := by
  have hrange := hexDigit_range c
  generalize hexDigit c = d at hrange
  have hne : ∀ n : UInt8, (n.toNat < 48 ∨ (57 < n.toNat ∧ n.toNat < 65) ∨ 70 < n.toNat) →
      (d == n) = false := by
    intro n hn
    rw [beq_eq_false_iff_ne]
    rintro rfl
    omega
  have hle : decide (d ≤ 0x1f) = false := by
    rw [decide_eq_false_iff_not, UInt8.le_iff_toNat_le]
    simp only [UInt8.reduceToNat]
    omega
  simp only [escapedUnder, controlChars, spaceChars, delimsChars, unwiseChars, reservedChars, ch,
    hle]
  repeat rw [hne _ (by decide)]
  simp

/-! ### Conversions refine the texts -/

section Cursor

variable {m : Memory} {s : Stringaa} {c : UInt8}

private theorem stringaaSetChar_room (hlt : s.writePos + s.isNullTerminated.toNat < s.bufSize) :
    stringaaSetChar m s c = (true, m.store (stringChars s s.writePos) c, s) := by
  rw [stringaaSetChar, if_pos hlt]
  cases s.isAlloc <;> rfl

private theorem stringaaSetChar_full (hle : s.bufSize ≤ s.writePos + s.isNullTerminated.toNat) :
    stringaaSetChar m s c = (false, m, s) := by
  rw [stringaaSetChar, if_neg (Nat.not_lt.mpr hle)]

private theorem stringaaNextWritePos_room
    (hlt : s.writePos + s.isNullTerminated.toNat < s.bufSize) :
    (stringaaNextWritePos s).2 = { s with writePos := s.writePos + 1 } := by
  rw [stringaaNextWritePos]
  split
  · rfl
  · have hend : s.bufSize - s.isNullTerminated.toNat = s.writePos + 1 := by omega
    rw [writeEnd, if_pos (Nat.zero_lt_of_lt hlt), hend]

private theorem stringaaNextWritePos_full
    (hfull : s.writePos + s.isNullTerminated.toNat = s.bufSize) (hpos : 0 < s.bufSize) :
    (stringaaNextWritePos s).2 = s := by
  have hend : s.bufSize - s.isNullTerminated.toNat = s.writePos := by omega
  rw [stringaaNextWritePos, if_neg (by omega), writeEnd, if_pos hpos, hend]

end Cursor

/-- The destination has taken `done`, as far as it fits in `cap` characters, and the source has
`rest` to be read; `b` blocks have been handed out at least. -/
structure Conversion.At (v : Conversion) (p q : Ptr) (b cap : Nat) (done rest : List UInt8) :
    Prop where
  owner : v.dst.isAlloc = true
  terminated : v.dst.isNullTerminated = true
  size : v.dst.bufSize = cap + 1
  writePos : v.dst.writePos = (done.take cap).length
  dst : v.dst.buf = some p
  written : v.memory.heap.Holds p (done.take cap)
  src : v.src.buf = some q
  unread : v.src.readPos + rest.length = v.src.writePos
  read : v.memory.heap.Holds (q.add v.src.readPos) rest
  apart : q.block ≠ p.block
  known : b ≤ v.memory.heap.next

structure Conversion.Taken (v : Conversion) (p : Ptr) (b cap : Nat) (done : List UInt8) : Prop where
  owner : v.dst.isAlloc = true
  terminated : v.dst.isNullTerminated = true
  size : v.dst.bufSize = cap + 1
  writePos : v.dst.writePos = (done.take cap).length
  dst : v.dst.buf = some p
  written : v.memory.heap.Holds p (done.take cap)
  known : b ≤ v.memory.heap.next

/-- What the source has to be read, which nothing that is written changes. -/
structure Conversion.Reads (v : Conversion) (q : Ptr) (rest : List UInt8) : Prop where
  src : v.src.buf = some q
  unread : v.src.readPos + rest.length = v.src.writePos
  read : v.memory.heap.Holds (q.add v.src.readPos) rest
  apart : ∀ p, v.dst.buf = some p → q.block ≠ p.block

section At

variable {v : Conversion} {p q : Ptr} {b cap : Nat} {done rest : List UInt8} {c x : UInt8}

theorem Conversion.at_iff :
    v.At p q b cap done rest ↔ v.Taken p b cap done ∧ v.Reads q rest := by
  constructor
  · intro h
    refine ⟨⟨h.owner, h.terminated, h.size, h.writePos, h.dst, h.written, h.known⟩,
      h.src, h.unread, h.read, fun p' hp => ?_⟩
    cases h.dst.symm.trans hp
    exact h.apart
  · rintro ⟨h, h'⟩
    exact ⟨h.owner, h.terminated, h.size, h.writePos, h.dst, h.written, h'.src, h'.unread, h'.read,
      h'.apart p h.dst, h.known⟩

private theorem Conversion.Taken.put (hv : v.Taken p b cap done) (c : UInt8) :
    (v.put c).Taken p b cap (done ++ [c]) := by
  obtain ⟨howner, hterm, hsize, hwrite, hdst, hwritten, hknown⟩ := hv
  have hlength := List.length_take (i := cap) (l := done)
  by_cases hroom : done.length < cap
  · have htake : (done ++ [c]).take cap = done ++ [c] := List.take_of_length_le (by simp; omega)
    rw [List.take_of_length_le (Nat.le_of_lt hroom)] at hwrite hwritten
    have hlt : v.dst.writePos + v.dst.isNullTerminated.toNat < v.dst.bufSize := by
      rw [hterm, hsize, hwrite, Bool.toNat_true]
      omega
    have hput : v.put c = { v with
        memory := v.memory.store (stringChars v.dst v.dst.writePos) c
        dst := { v.dst with writePos := done.length + 1 } } := by
      rw [Conversion.put, stringaaSetChar_room hlt]
      dsimp only
      rw [stringaaNextWritePos_room hlt, hwrite]
    have hheap : (v.put c).memory.heap = v.memory.heap.store (p.add done.length) c := by
      rw [hput, Memory.store]
      simp [Memory.touch, stringChars, hdst, hwrite]
    refine ⟨?_, ?_, ?_, ?_, ?_, ?_, ?_⟩
    · rw [hput]; exact howner
    · rw [hput]; exact hterm
    · rw [hput]; exact hsize
    · rw [hput, htake]; simp
    · rw [hput]; exact hdst
    · rw [hheap, htake, Heap.holds_append, Heap.holds_cons]
      refine ⟨hwritten.store_apart (.inr (.inl (Nat.le_refl _))), Heap.store_byte, Heap.holds_nil⟩
    · rw [hheap]
      exact hknown
  · have htake : (done ++ [c]).take cap = done.take cap :=
      List.take_append_of_le_length (Nat.le_of_not_lt hroom)
    have hend : v.dst.writePos = cap := by omega
    have hput : v.put c = v := by
      have hfull : v.dst.writePos + v.dst.isNullTerminated.toNat = v.dst.bufSize := by
        rw [hterm, hsize, hend, Bool.toNat_true]
      rw [Conversion.put, stringaaSetChar_full (Nat.le_of_eq hfull.symm)]
      dsimp only
      rw [stringaaNextWritePos_full hfull (by omega)]
    rw [hput]
    exact ⟨howner, hterm, hsize, htake ▸ hwrite, hdst, htake ▸ hwritten, hknown⟩

private theorem Conversion.Reads.put (hv : v.Reads q rest) (c : UInt8) :
    (v.put c).Reads q rest := by
  have hbuf : (stringaaNextWritePos v.dst).2.buf = v.dst.buf := by
    rw [stringaaNextWritePos]
    split <;> rfl
  by_cases hroom : v.dst.writePos + v.dst.isNullTerminated.toNat < v.dst.bufSize
  · rw [Conversion.put, stringaaSetChar_room hroom]
    refine ⟨hv.src, hv.unread, ?_, fun p hp => hv.apart p (hbuf ▸ hp)⟩
    cases hdst : v.dst.buf with
    | none => simpa [Memory.store, stringChars, hdst, Memory.touch] using hv.read
    | some p =>
        simp only [Memory.store, stringChars, hdst, Memory.touch, Option.elim_some]
        exact hv.read.store_apart (.inl (hv.apart p hdst))
  · rw [Conversion.put, stringaaSetChar_full (Nat.le_of_not_lt hroom)]
    exact ⟨hv.src, hv.unread, hv.read, fun p hp => hv.apart p (hbuf ▸ hp)⟩

private theorem Conversion.At.put (hv : v.At p q b cap done rest) (c : UInt8) :
    (v.put c).At p q b cap (done ++ [c]) rest := by
  obtain ⟨htaken, hreads⟩ := at_iff.mp hv
  exact at_iff.mpr ⟨htaken.put c, hreads.put c⟩

private theorem Conversion.At.putEscaped (hv : v.At p q b cap done rest) (flags : UInt32)
    (c : UInt8) :
    (v.putEscaped flags c).At p q b cap (done ++ Text.escapeChar flags c) rest := by
  by_cases hescaped : escapedUnder flags c = true
  · have hw := ((hv.put (ch '%')).put (uriaaEscapeChar c).2).put (uriaaEscapeChar c).1
    rw [Conversion.putEscaped, if_pos hescaped, Text.escapeChar, if_pos hescaped]
    simpa only [List.append_assoc, List.cons_append, List.nil_append] using hw
  · rw [Conversion.putEscaped, if_neg hescaped, Text.escapeChar, if_neg hescaped]
    exact hv.put c

theorem Conversion.Taken.get (hv : v.Taken p b cap done) : v.get.2.Taken p b cap done := by
  have hheap : v.get.2.memory.heap = v.memory.heap := by
    by_cases hlt : v.src.readPos < v.src.writePos
    · rw [Conversion.get, Traced.stringaaGetChar, if_pos hlt]
      rfl
    · rw [Conversion.get, Traced.stringaaGetChar, if_neg hlt]
  exact ⟨hv.owner, hv.terminated, hv.size, hv.writePos, hv.dst, hheap ▸ hv.written,
    hheap ▸ hv.known⟩

theorem Conversion.Taken.next (hv : v.Taken p b cap done) : v.next.2.Taken p b cap done :=
  ⟨hv.owner, hv.terminated, hv.size, hv.writePos, hv.dst, hv.written, hv.known⟩

theorem Conversion.Reads.get (hv : v.Reads q (c :: rest)) :
    v.get.1 = c ∧ v.get.2.Reads q (c :: rest) := by
  obtain ⟨hsrc, hunread, hread, hapart⟩ := hv
  have hlt : v.src.readPos < v.src.writePos := by
    rw [List.length_cons] at hunread
    omega
  have hbyte : v.memory.heap.byte (q.add v.src.readPos) = c := (Heap.holds_cons.mp hread).1
  rw [Conversion.get, Traced.stringaaGetChar, if_pos hlt]
  refine ⟨?_, hsrc, hunread, hread, hapart⟩
  simp [Memory.load, stringChars, hsrc, hbyte]

theorem Conversion.Reads.next (hv : v.Reads q (c :: rest)) :
    (v.next.1 = true ↔ rest ≠ []) ∧ v.next.2.Reads q rest := by
  obtain ⟨hsrc, hunread, hread, hapart⟩ := hv
  have htail := (Heap.holds_cons.mp hread).2
  rw [List.length_cons] at hunread
  cases rest with
  | nil =>
      have hend : ¬ v.src.readPos + 1 < v.src.writePos := by
        rw [List.length_nil] at hunread
        omega
      rw [Conversion.next, stringaaNextReadPos, if_neg hend]
      exact ⟨by simp, hsrc, rfl, Heap.holds_nil, hapart⟩
  | cons x rest =>
      rw [List.length_cons] at hunread
      have hlt : v.src.readPos + 1 < v.src.writePos := by omega
      rw [Conversion.next, stringaaNextReadPos, if_pos hlt]
      refine ⟨by simp, hsrc, ?_, ?_, hapart⟩
      · rw [List.length_cons, ← hunread]
        dsimp only
        omega
      · rw [Ptr.add_add] at htail
        exact htail

theorem Conversion.At.get (hv : v.At p q b cap done (c :: rest)) :
    v.get.1 = c ∧ v.get.2.At p q b cap done (c :: rest) := by
  obtain ⟨htaken, hreads⟩ := at_iff.mp hv
  exact ⟨hreads.get.1, at_iff.mpr ⟨htaken.get, hreads.get.2⟩⟩

theorem Conversion.At.next (hv : v.At p q b cap done (c :: rest)) :
    (v.next.1 = true ↔ rest ≠ []) ∧ v.next.2.At p q b cap done rest := by
  obtain ⟨htaken, hreads⟩ := at_iff.mp hv
  exact ⟨hreads.next.1, at_iff.mpr ⟨htaken.next, hreads.next.2⟩⟩

/-- The loop of `uriaa_escape` writes the escapes of all characters. -/
theorem uriaaEscapeLoop_at (flags : UInt32) (fuel : Nat) (hv : v.At p q b cap done rest)
    (hne : rest ≠ []) (hfuel : rest.length ≤ fuel) :
    ∃ v', uriaaEscapeLoop flags fuel v = some (true, v') ∧
      v'.At p q b cap (done ++ rest.flatMap (Text.escapeChar flags)) [] := by
  induction fuel generalizing v done rest with
  | zero => exact absurd (List.length_eq_zero_iff.mp (Nat.le_zero.mp hfuel)) hne
  | succ fuel ih =>
      cases rest with
      | nil => exact absurd rfl hne
      | cons c rest =>
          obtain ⟨hget, hv⟩ := hv.get
          obtain ⟨hmore, hw'⟩ := (hv.putEscaped flags c).next
          simp only [uriaaEscapeLoop, hget]
          by_cases hrest : rest = []
          · subst hrest
            rw [if_neg (hmore.not.mpr (not_not.mpr rfl))]
            refine ⟨_, rfl, ?_⟩
            simpa using hw'
          · obtain ⟨v', hloop, hv'⟩ := ih hw' hrest (Nat.le_of_succ_le_succ hfuel)
            rw [if_pos (hmore.mpr hrest)]
            refine ⟨v', hloop, ?_⟩
            simpa using hv'

def Conversion.putTriple (flags : UInt32) (v : Conversion) (c ca1 ca0 : UInt8) : Conversion :=
  if flags &&& uriaaEscapeUnreserved != 0 then
    if unreservedChars c then v.put c else ((v.put (ch '%')).put ca1).put ca0
  else v.put ca0

private theorem Conversion.Reads.putTriple (hv : v.Reads q rest) (flags : UInt32)
    (c ca1 ca0 : UInt8) :
    (v.putTriple flags c ca1 ca0).Reads q rest := by
  rw [Conversion.putTriple]
  split
  · split
    · exact hv.put _
    · exact ((hv.put _).put _).put _
  · exact hv.put _

private theorem Conversion.Taken.putTriple (hv : v.Taken p b cap done) (flags : UInt32)
    (c ca1 ca0 : UInt8) : (v.putTriple flags c ca1 ca0).Taken p b cap
      (done ++ Text.unescapeTriple flags c ca1 ca0) := by
  rw [Conversion.putTriple, Text.unescapeTriple]
  split
  · split
    · exact hv.put _
    · simpa only [List.append_assoc, List.cons_append, List.nil_append] using
        ((hv.put _).put _).put _
  · exact hv.put _

private theorem uriaaUnescapeRound_reads (flags : UInt32) (hv : v.Reads q (c :: rest))
    (isUnescape : Bool) :
    ∃ result isUnescape' v' out rest',
      uriaaUnescapeRound flags isUnescape v = (result, isUnescape', v') ∧ v'.Reads q rest' ∧
      (∀ p b cap done, v.Taken p b cap done → v'.Taken p b cap (done ++ out)) ∧
      ((∃ r, result = some r ∧ Text.unescapeUnder flags isUnescape (c :: rest) = (r, out)) ∨
        (result = none ∧ rest' ≠ [] ∧ rest'.length ≤ rest.length ∧
          Text.unescapeUnder flags isUnescape (c :: rest) =
            ((Text.unescapeUnder flags isUnescape' rest').1,
              out ++ (Text.unescapeUnder flags isUnescape' rest').2))) := by
  obtain ⟨hget, hv⟩ := hv.get
  have htaken {p b cap done} (h : v.Taken p b cap done) : v.get.2.Taken p b cap done := h.get
  by_cases hc : c = ch '%'
  · subst hc
    obtain ⟨hmore, hv⟩ := hv.next
    simp only [uriaaUnescapeRound, hget, if_true]
    cases rest with
    | nil =>
        rw [if_neg (hmore.not.mpr (not_not.mpr rfl))]
        refine ⟨_, _, _, [], _, rfl, hv, fun p b cap done h => ?_, .inl ⟨_, rfl, rfl⟩⟩
        rw [List.append_nil]
        exact (htaken h).next
    | cons ca1 rest =>
        rw [if_pos (hmore.mpr (List.cons_ne_nil _ _))]
        obtain ⟨hget1, hv⟩ := hv.get
        obtain ⟨hmore, hv⟩ := hv.next
        cases rest with
        | nil =>
            rw [if_neg (hmore.not.mpr (not_not.mpr rfl))]
            refine ⟨_, _, _, [], _, rfl, hv, fun p b cap done h => ?_, .inl ⟨_, rfl, rfl⟩⟩
            rw [List.append_nil]
            exact (htaken h).next.get.next
        | cons ca0 rest =>
            rw [if_pos (hmore.mpr (List.cons_ne_nil _ _))]
            obtain ⟨hget0, hv⟩ := hv.get
            simp only [hget0, hget1]
            cases hchar : uriaaUnescapeChar ca0 ca1 with
            | none =>
                refine ⟨_, _, _, [], _, rfl, hv, fun p b cap done h => ?_, .inl ⟨_, rfl, ?_⟩⟩
                · rw [List.append_nil]
                  exact (htaken h).next.get.next.get
                · simp [Text.unescapeUnder, hchar]
            | some x =>
                obtain ⟨hmore, hv⟩ := (hv.putTriple flags x ca1 ca0).next
                refine ⟨_, _, _, Text.unescapeTriple flags x ca1 ca0, rest, rfl, hv,
                  fun p b cap done h => ?_, ?_⟩
                · exact ((htaken h).next.get.next.get.putTriple flags x ca1 ca0).next
                · by_cases hrest : rest = []
                  · refine .inl ⟨true, if_neg (hmore.not.mpr (not_not.mpr hrest)), ?_⟩
                    simp [Text.unescapeUnder, hchar, hrest]
                  · exact .inr ⟨if_pos (hmore.mpr hrest), hrest, by simp; omega,
                      Text.unescapeUnder_triple hchar hrest⟩
  · obtain ⟨hmore, hv⟩ := (hv.put c).next
    simp only [uriaaUnescapeRound, hget, if_neg hc]
    refine ⟨_, _, _, [c], rest, rfl, hv, fun p b cap done h => ((htaken h).put c).next, ?_⟩
    by_cases hrest : rest = []
    · refine .inl ⟨true, if_neg (hmore.not.mpr (not_not.mpr hrest)), ?_⟩
      simp [Text.unescapeUnder, hc, hrest]
    · exact .inr ⟨if_pos (hmore.mpr hrest), hrest, Nat.le_refl _,
        Text.unescapeUnder_cons hc hrest⟩

/-- The loop of `uriaa_unescape` returns what the text function does, and leaves what that
writes. -/
theorem uriaaUnescapeLoop_reads (flags : UInt32) (isUnescape : Bool) (fuel : Nat)
    (hv : v.Reads q rest) (hne : rest ≠ []) (hfuel : rest.length ≤ fuel) :
    ∃ v', uriaaUnescapeLoop flags fuel isUnescape v =
        some ((Text.unescapeUnder flags isUnescape rest).1, v') ∧
      ∀ p b cap done, v.Taken p b cap done →
        v'.Taken p b cap (done ++ (Text.unescapeUnder flags isUnescape rest).2) := by
  induction fuel generalizing v rest isUnescape with
  | zero => exact absurd (List.length_eq_zero_iff.mp (Nat.le_zero.mp hfuel)) hne
  | succ fuel ih =>
      obtain ⟨c, rest, rfl⟩ := List.exists_cons_of_ne_nil hne
      obtain ⟨result, isUnescape', v', out, rest', hround, hv', htaken, ⟨r, rfl, htext⟩ |
        ⟨rfl, hrest, hle, htext⟩⟩ := uriaaUnescapeRound_reads flags hv isUnescape
      · refine ⟨v', ?_, by rwa [htext]⟩
        rw [htext, uriaaUnescapeLoop, hround]
      · obtain ⟨v'', hloop, htaken'⟩ := ih isUnescape' hv' hrest
          (Nat.le_trans hle (Nat.le_of_succ_le_succ hfuel))
        refine ⟨v'', ?_, fun p b cap done h => ?_⟩
        · rw [htext, uriaaUnescapeLoop, hround]
          exact hloop
        · rw [htext]
          simpa only [List.append_assoc] using htaken' _ _ _ _ (htaken _ _ _ _ h)

end At

/-! ### Round trips -/

private theorem Text.unescape_append {front rest : List UInt8} (isUnescape : Bool)
    (hfront : ch '%' ∉ front) (hrest : rest ≠ []) :
    unescape isUnescape (front ++ rest) =
      ((unescape isUnescape rest).1, front ++ (unescape isUnescape rest).2) := by
  induction front with
  | nil => rfl
  | cons c front ih =>
      rw [List.mem_cons, not_or] at hfront
      rw [List.cons_append, unescape_cons (Ne.symm hfront.1) (by simp [hrest]), ih hfront.2]
      rfl

private theorem Text.unescape_self {text : List UInt8} (isUnescape : Bool) (htext : ch '%' ∉ text)
    (hne : text ≠ []) : unescape isUnescape text = (true, text) := by
  obtain ⟨front, c, rfl⟩ := (List.eq_nil_or_concat text).resolve_left hne
  rw [List.concat_eq_append, List.mem_append, not_or, List.mem_singleton] at htext
  rw [List.concat_eq_append, unescape_append isUnescape htext.1 (by simp),
    unescape_singleton (Ne.symm htext.2)]

private theorem Text.not_percent {flags : UInt32} {text : List UInt8}
    (htext : ∀ c ∈ text, escapedUnder flags c = false) : ch '%' ∉ text := by
  intro hmem
  have hesc := htext _ hmem
  simp [escapedUnder, delimsChars] at hesc

private theorem Text.escape_self {flags : UInt32} {text : List UInt8}
    (htext : ∀ c ∈ text, escapedUnder flags c = false) :
    text.flatMap (escapeChar flags) = text := by
  induction text with
  | nil => rfl
  | cons c text ih =>
      have hc : escapeChar flags c = [c] := by
        simp [escapeChar, htext c List.mem_cons_self]
      rw [List.flatMap_cons, hc, ih fun x hx => htext x (List.mem_cons_of_mem _ hx)]
      rfl

private theorem Text.length_le_escape (flags : UInt32) (text : List UInt8) :
    text.length ≤ (text.flatMap (escapeChar flags)).length := by
  induction text with
  | nil => exact Nat.le_refl _
  | cons c text ih =>
      have hc : 1 ≤ (escapeChar flags c).length := by
        rw [escapeChar]
        split <;> simp
      rw [List.flatMap_cons, List.length_append, List.length_cons]
      omega

private theorem Text.unescape_escape_ne {flags : UInt32} {text : List UInt8} {cap : Nat}
    (isUnescape : Bool) (hescaped : ∃ c ∈ text, escapedUnder flags c = true) (hcap : 0 < cap) :
    ¬ text <+: (unescape isUnescape ((text.flatMap (escapeChar flags)).take cap)).2 := by
  intro hpre
  obtain ⟨front, c, rest, rfl, hfront, hc⟩ : ∃ front c rest, text = front ++ c :: rest ∧
      (∀ x ∈ front, escapedUnder flags x = false) ∧ escapedUnder flags c = true := by
    obtain ⟨c, hfind⟩ := Option.isSome_iff_exists.mp (List.find?_isSome.mpr hescaped)
    obtain ⟨hc, front, rest, htext, hfront⟩ := List.find?_eq_some_iff_append.mp hfind
    exact ⟨front, c, rest, htext, by simpa using hfront, hc⟩
  have hpercent := not_percent hfront
  obtain ⟨tail, htail⟩ : ∃ tail, (front ++ c :: rest).flatMap (escapeChar flags) =
      front ++ ch '%' :: (uriaaEscapeChar c).2 :: (uriaaEscapeChar c).1 :: tail := by
    refine ⟨rest.flatMap (escapeChar flags), ?_⟩
    rw [List.flatMap_append, escape_self hfront, List.flatMap_cons, escapeChar, if_pos hc]
    rfl
  rw [htail, List.take_append] at hpre
  by_cases hle : cap ≤ front.length
  · have hne : front.take cap ≠ [] := by
      rw [← List.length_pos_iff, List.length_take]
      omega
    rw [Nat.sub_eq_zero_of_le hle, List.take_zero, List.append_nil,
      unescape_self isUnescape (fun h => hpercent (List.mem_of_mem_take h)) hne] at hpre
    have hlength := hpre.length_le
    rw [List.length_append, List.length_cons, List.length_take] at hlength
    omega
  · obtain ⟨k, hk⟩ : ∃ k, cap - front.length = k + 1 := ⟨cap - front.length - 1, by omega⟩
    rw [List.take_of_length_le (Nat.le_of_not_le hle), hk, List.take_succ_cons,
      unescape_append isUnescape hpercent (List.cons_ne_nil _ _),
      List.prefix_append_right_inj] at hpre
    rcases k with _ | _ | k
    · simp [unescape] at hpre
    · simp [unescape] at hpre
    · have hdigit : escapedUnder flags (uriaaEscapeChar c).1 = false := hexDigit_not_escaped flags c
      have hhead : c = (uriaaEscapeChar c).1 := by
        rw [List.take_succ_cons, List.take_succ_cons, unescape, if_pos rfl] at hpre
        simp only [uriaaUnescapeChar_escapeChar, if_true] at hpre
        split at hpre
        · exact (List.cons_prefix_cons.mp hpre).1
        · exact (List.cons_prefix_cons.mp hpre).1
      rw [← hhead, hc] at hdigit
      cases hdigit

section RoundTrip

variable {m : Memory} {dst src s : Stringaa} {p q : Ptr} {size size' : Nat} {flags : UInt32}
  {text : List UInt8}

/-- The capacity of a destination that was initialised with `size` bytes and is asked for more. -/
def capacity (size wanted : Nat) : Nat := max size wanted - 1

/-- The source can be read from the start of the conversion on, in whatever state the destination
is. -/
theorem Conversion.start_reads {wanted : Nat} (hwanted : 0 < wanted) (hsrc : src.buf = some q)
    (hlength : src.writePos = text.length) (hread : m.heap.Holds q text)
    (hknown : q.block < m.heap.next)
    (hdst : dst.isAlloc = true → ∀ p, dst.buf = some p → p.block ≠ q.block) :
    (Conversion.start m dst src wanted).Reads q text := by
  have hfresh : (m.heap.malloc wanted).2.Holds q text := hread.malloc (Nat.ne_of_lt hknown) _
  have hfree (h : Heap) (o : Option Ptr) : (h.free o).Holds q text ↔ h.Holds q text := by
    cases o <;> rfl
  by_cases hset : 0 < wanted ∧ ((dst.isAlloc ∧ dst.bufSize < wanted) ∨ ¬ dst.isAlloc)
  · simp only [Conversion.start, Traced.stringaaMalloc, Httpaa.stringaaMalloc, if_pos hset]
    refine ⟨hsrc, ?_, ?_, fun p hp => ?_⟩
    · simp [stringaaBeginReadPos, hlength]
    · simp only [if_true, Memory.touch]
      split
      · exact (hfree _ _).mpr hfresh
      · exact hfresh
    · cases hp
      exact Nat.ne_of_lt hknown
  · have howns : dst.isAlloc = true := by
      by_contra halloc
      exact hset ⟨hwanted, .inr halloc⟩
    simp only [Conversion.start, Traced.stringaaMalloc, Httpaa.stringaaMalloc, if_neg hset]
    refine ⟨hsrc, ?_, hread, fun p hp => Ne.symm (hdst howns p hp)⟩
    simp [stringaaBeginReadPos, hlength]

/-- The conversion starts in a buffer of its own, the one of the destination or a new one. -/
theorem Conversion.start_at (dst : Stringaa) (size : Nat) {wanted : Nat} (hwanted : 0 < wanted)
    (hsrc : src.buf = some q) (hlength : src.writePos = text.length) (hread : m.heap.Holds q text)
    (hknown : q.block < m.heap.next)
    (hdst : (dst.isAlloc = false ∧ size = 0) ∨ (dst.isAlloc = true ∧ dst.isNullTerminated = true ∧
      dst.bufSize = size ∧ ∃ p, dst.buf = some p ∧ p.block ≠ q.block ∧ p.block < m.heap.next)) :
    ∃ p b, (Conversion.start m dst src wanted).At p q b (capacity size wanted) [] text ∧
      p.block < b ∧ m.heap.next ≤ b ∧ (p.block = m.heap.next ∨ dst.buf = some p) := by
  have hreads : (Conversion.start m dst src wanted).Reads q text := by
    refine Conversion.start_reads hwanted hsrc hlength hread hknown fun halloc p hp => ?_
    rcases hdst with ⟨hnone, -⟩ | ⟨-, -, -, p', hbuf, hne, -⟩
    · exact absurd (hnone.symm.trans halloc) Bool.false_ne_true
    · cases hbuf.symm.trans hp
      exact hne
  by_cases hset : 0 < wanted ∧ ((dst.isAlloc ∧ dst.bufSize < wanted) ∨ ¬ dst.isAlloc)
  · have hcap : wanted = capacity size wanted + 1 := by
      rw [capacity]
      rcases hdst with ⟨-, rfl⟩ | ⟨halloc, -, rfl, -⟩
      · omega
      · have hlt : dst.bufSize < wanted := by simpa [halloc] using hset.2
        omega
    refine ⟨⟨m.heap.next, 0⟩, m.heap.next + 1, Conversion.at_iff.mpr ⟨?_, hreads⟩,
      Nat.lt_succ_self _,
      Nat.le_succ _, .inl rfl⟩
    simp only [Conversion.start, Traced.stringaaMalloc, Httpaa.stringaaMalloc, if_pos hset]
    refine ⟨rfl, rfl, hcap, by simp [stringaaBeginWritePos], rfl, by simp, ?_⟩
    have hfree (h : Heap) (o : Option Ptr) : (h.free o).next = h.next := by cases o <;> rfl
    simp only [if_true, Memory.touch]
    split
    · exact Nat.le_of_eq (hfree (m.heap.malloc wanted).2 dst.buf).symm
    · exact Nat.le_refl _
  · rcases hdst with ⟨halloc, -⟩ | ⟨halloc, hterm, rfl, p, hbuf, hne, hlt⟩
    · exact absurd ⟨hwanted, .inr (by simp [halloc])⟩ hset
    · have hcap : dst.bufSize = capacity dst.bufSize wanted + 1 := by
        have hle : ¬ dst.bufSize < wanted := fun h => hset ⟨hwanted, .inl ⟨halloc, h⟩⟩
        rw [capacity]
        omega
      refine ⟨p, m.heap.next, Conversion.at_iff.mpr ⟨?_, hreads⟩, hlt, Nat.le_refl _, .inr hbuf⟩
      simp only [Conversion.start, Traced.stringaaMalloc, Httpaa.stringaaMalloc, if_neg hset]
      exact ⟨halloc, hterm, hcap, by simp [stringaaBeginWritePos], hbuf, by simp, Nat.le_refl _⟩

/-- `uriaa_escape` and `uriaa_unescape` return 1 and the text, with destinations initialised by
`stringaa_init` with `size` and `size'` bytes. -/
def EscapeRoundTrip (m : Memory) (s : Stringaa) (flags : UInt32) (size size' : Nat)
    (text : List UInt8) : Prop :=
  let (_, m, uriEscaped) := stringaaInit m size
  let (_, m, uri) := stringaaInit m size'
  ∃ v w, uriaaEscape m uriEscaped s flags = some (true, v) ∧
    uriaaUnescape v.memory uri v.dst 0 = some (true, w) ∧ content w.memory w.dst = text

theorem stringaaInit_spec (m : Memory) (size : Nat) : ∃ m' t, stringaaInit m size = (true, m', t) ∧
    m.heap.next ≤ m'.heap.next ∧
    (∀ p text, p.block < m.heap.next → m.heap.Holds p text → m'.heap.Holds p text) ∧
    ((t.isAlloc = false ∧ size = 0 ∧ t.buf = none) ∨
      (t.isAlloc = true ∧ t.isNullTerminated = true ∧ t.bufSize = size ∧
        t.buf = some ⟨m.heap.next, 0⟩ ∧ m.heap.next < m'.heap.next)) := by
  rcases Nat.eq_zero_or_pos size with rfl | hpos
  · exact ⟨m, { isInit := true }, rfl, Nat.le_refl _, fun _ _ _ h => h, .inl ⟨rfl, rfl, rfl⟩⟩
  · refine ⟨({ m with heap := (m.heap.malloc size).2 } : Memory).touch 0 size size,
      { buf := some ⟨m.heap.next, 0⟩, bufSize := size, isInit := true, isAlloc := true,
        isNullTerminated := true }, ?_, Nat.le_succ _, ?_,
      .inr ⟨rfl, rfl, rfl, rfl, Nat.lt_succ_self _⟩⟩
    · simp [stringaaInit, hpos, Traced.stringaaMalloc, Httpaa.stringaaMalloc, Heap.malloc]
    · intro p text hp hholds
      exact hholds.malloc (Nat.ne_of_lt hp) _

/-- The text comes back exactly when none of its characters is escaped and the second destination
was given room for it and a terminator beforehand. -/
theorem escapeRoundTrip_iff (hne : text ≠ []) (hbuf : s.buf = some q)
    (hlength : s.writePos = text.length) (hread : m.heap.Holds q text)
    (hknown : q.block < m.heap.next) :
    EscapeRoundTrip m s flags size size' text ↔
      (∀ c ∈ text, escapedUnder flags c = false) ∧ text.length < size' := by
  have hpos : 0 < text.length := List.length_pos_iff.mpr hne
  obtain ⟨m₁, e, hinit₁, hnext₁, hkeep₁, he⟩ := stringaaInit_spec m size
  obtain ⟨m₂, u, hinit₂, hnext₂, hkeep₂, hu⟩ := stringaaInit_spec m₁ size'
  have hread₂ : m₂.heap.Holds q text := hkeep₂ _ _ (by omega) (hkeep₁ _ _ hknown hread)
  -- The escaped text stands in a buffer of its own, as far as it fits.
  obtain ⟨p, b, hstart, hpb, hb, hp⟩ := Conversion.start_at e size
    (Nat.mul_pos (hlength ▸ hpos) (Nat.zero_lt_succ 2)) hbuf hlength hread₂ (by omega) (by
      rcases he with ⟨halloc, hsize, -⟩ | ⟨halloc, hterm, hsize, hbuf', hlt⟩
      · exact .inl ⟨halloc, hsize⟩
      · exact .inr ⟨halloc, hterm, hsize, _, hbuf', Nat.ne_of_gt hknown,
          Nat.lt_of_lt_of_le hlt hnext₂⟩)
  obtain ⟨v, hescape, hv⟩ := uriaaEscapeLoop_at flags s.budget hstart hne
    (by rw [Stringaa.budget]; omega)
  rw [List.nil_append] at hv
  generalize hcap : capacity size (s.writePos * 3) = cap at hv
  have hcap' : text.length ≤ cap := by
    rw [← hcap, capacity]
    omega
  generalize hescaped : (text.flatMap (Text.escapeChar flags)).take cap = escaped at hv
  have hescaped_ne : escaped ≠ [] := by
    have hlong := Text.length_le_escape flags text
    rw [← hescaped, ← List.length_pos_iff, List.length_take]
    omega
  have hescaped_pos : 0 < v.dst.writePos := by
    rw [hv.writePos, hescaped]
    exact List.length_pos_iff.mpr hescaped_ne
  -- What is unescaped stands in another one.
  obtain ⟨p', b', hstart', -, -, -⟩ := Conversion.start_at u size' hescaped_pos
    hv.dst (by rw [hv.writePos, hescaped]) (hescaped ▸ hv.written)
    (Nat.lt_of_lt_of_le hpb hv.known) (by
      rcases hu with ⟨halloc, hsize, -⟩ | ⟨halloc, hterm, hsize, hbuf', hlt⟩
      · exact .inl ⟨halloc, hsize⟩
      · refine .inr ⟨halloc, hterm, hsize, _, hbuf', ?_, ?_⟩
        · rcases hp with hp | hp
          · rw [hp]
            exact Nat.ne_of_lt hlt
          · rcases he with ⟨-, -, hnone⟩ | ⟨-, -, -, hsome, hlt'⟩
            · rw [hnone] at hp
              cases hp
            · rw [hsome] at hp
              cases hp
              exact Nat.ne_of_gt hlt'
        · exact Nat.lt_of_lt_of_le hlt (Nat.le_trans hb hv.known))
  obtain ⟨htaken, hreads⟩ := Conversion.at_iff.mp hstart'
  obtain ⟨w, hunescape, hw⟩ := uriaaUnescapeLoop_reads 0 false v.dst.budget hreads hescaped_ne
    (by rw [Stringaa.budget, hv.writePos, hescaped]; exact Nat.le_succ _)
  replace hw := hw _ _ _ _ htaken
  rw [List.nil_append, ← Text.unescape_eq] at hw
  rw [← Text.unescape_eq] at hunescape
  have hcontent := content_eq hw.dst hw.writePos hw.written
  have hiff : EscapeRoundTrip m s flags size size' text ↔
      (Text.unescape false escaped).1 = true ∧
        (Text.unescape false escaped).2.take (capacity size' v.dst.writePos) = text := by
    simp only [EscapeRoundTrip, hinit₁, hinit₂, uriaaEscape, hescape, Option.some.injEq,
      Prod.mk.injEq, true_and, uriaaUnescape]
    constructor
    · rintro ⟨_, _, rfl, hrun, htext⟩
      rw [hunescape, Option.some.injEq, Prod.mk.injEq] at hrun
      obtain ⟨hone, rfl⟩ := hrun
      exact ⟨hone, hcontent ▸ htext⟩
    · rintro ⟨hone, htext⟩
      exact ⟨v, w, rfl, hone ▸ hunescape, hcontent ▸ htext⟩
  have hself (hnone : ∀ c ∈ text, escapedUnder flags c = false) : escaped = text := by
    rw [← hescaped, Text.escape_self hnone, List.take_of_length_le hcap']
  rw [hiff]
  constructor
  · rintro ⟨-, htext⟩
    have hnone : ∀ c ∈ text, escapedUnder flags c = false := by
      by_contra hnot
      have hexists : ∃ c ∈ text, escapedUnder flags c = true := by simpa using hnot
      refine Text.unescape_escape_ne false hexists (Nat.lt_of_lt_of_le hpos hcap') ?_
      rw [hescaped, ← htext]
      exact List.take_prefix _ _
    refine ⟨hnone, ?_⟩
    have hfit : text.length ≤ capacity size' v.dst.writePos := by
      have hle := List.length_take_le (capacity size' v.dst.writePos)
        (Text.unescape false escaped).2
      rwa [htext] at hle
    rw [hv.writePos, hescaped, hself hnone, capacity] at hfit
    omega
  · rintro ⟨hnone, hroom⟩
    rw [hself hnone, Text.unescape_self false (Text.not_percent hnone) hne]
    refine ⟨rfl, List.take_of_length_le ?_⟩
    have hwide : size' ≤ max size' v.dst.writePos := Nat.le_max_left _ _
    rw [capacity]
    dsimp only
    omega

/-- `/a-b`, with room for it and a terminator. -/
theorem escapeRoundTrip_path : EscapeRoundTrip ⟨Heap.ofText [ch '/', ch 'a', ch '-', ch 'b'], []⟩
    (Stringaa.ofText 0 4) 0 0 5 [ch '/', ch 'a', ch '-', ch 'b'] := by
  have hplain : ([ch '/', ch 'a', ch '-', ch 'b'].all fun c => !escapedUnder 0 c) = true := by
    decide
  simp only [List.all_eq_true, Bool.not_eq_true'] at hplain
  exact (escapeRoundTrip_iff (List.cons_ne_nil _ _) rfl rfl (Heap.ofText_holds _)
    Nat.one_pos).mpr ⟨hplain, by decide⟩

/-- A space comes back as the low digit of its escape. -/
theorem escapeRoundTrip_space : ¬ ∀ (m : Memory) (s : Stringaa) (text : List UInt8) (q : Ptr),
    text ≠ [] → s.buf = some q → s.writePos = text.length → m.heap.Holds q text →
      q.block < m.heap.next → EscapeRoundTrip m s 0 0 0 text := by
  intro hclaim
  obtain ⟨v, w, hescape, hunescape, hcontent⟩ :=
    hclaim ⟨Heap.ofText [ch 'a', 0x20], []⟩ (Stringaa.ofText 0 2) [ch 'a', 0x20] ⟨0, 0⟩
      (List.cons_ne_nil _ _) rfl rfl (Heap.ofText_holds _) Nat.one_pos
  have hrun : ((uriaaEscape ⟨Heap.ofText [ch 'a', 0x20], []⟩ { isInit := true }
      (Stringaa.ofText 0 2) 0).bind fun v =>
        (uriaaUnescape v.2.memory { isInit := true } v.2.dst 0).map fun w =>
          content w.2.memory w.2.dst) = some [ch 'a', ch '0'] := by decide
  have hescape' : uriaaEscape ⟨Heap.ofText [ch 'a', 0x20], []⟩ { isInit := true }
      (Stringaa.ofText 0 2) 0 = some (true, v) := hescape
  have hunescape' : uriaaUnescape v.memory { isInit := true } v.dst 0 = some (true, w) := hunescape
  rw [hescape', Option.bind_some, hunescape', Option.map_some, hcontent] at hrun
  exact absurd hrun (by decide)

end RoundTrip

end Httpaa
