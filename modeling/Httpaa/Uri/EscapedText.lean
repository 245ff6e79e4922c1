import Httpaa.Uri.Escape

/-!
# What `uriaa_escape` writes

A legal escaped text is a sequence of units, one for each byte: an unreserved character, a reserved
one where the flags leave those alone, or `%` and two digits. The characters of the excluded classes
and the legal ones together are the ASCII characters; a byte above them is written as it is. The
buffer is one byte short where every byte becomes three.
-/

namespace Httpaa

open Traced

variable {flags : UInt32} {content text : List UInt8} {u : List UInt8}
  {c : UInt8} {n : Nat}

/-- What may stand for one byte. -/
inductive EscapedUnit (flags : UInt32) : List UInt8 → Prop
  | unreserved {c : UInt8} : unreservedChars c = true → EscapedUnit flags [c]
  | reserved {c : UInt8} : flags = 0 → reservedChars c = true → EscapedUnit flags [c]
  | triple {d e : UInt8} : hexChars d = true → hexChars e = true → EscapedUnit flags [ch '%', d, e]

/-- The text is a sequence of `n` units. -/
def EscapedText (flags : UInt32) (n : Nat) (content : List UInt8) : Prop :=
  ∃ units : List (List UInt8), content = units.flatten ∧ units.length = n ∧
    ∀ u ∈ units, EscapedUnit flags u

/-! ### Characters -/

private theorem hexChars_hexDigit (c : UInt8) : hexChars (hexDigit c) = true :=
  hexDigit_of_lt (P := fun d => hexChars d = true) (by decide) c

private theorem toNat_lt_of_class {c : UInt8}
    (hclass : (unreservedChars c || reservedChars c || hexChars c) = true) : c.toNat < 128 := by
  simp only [unreservedChars, alphanumChars, alphaChars, lowalphaChars, upalphaChars, digitChars,
    markChars, reservedChars, hexChars, Bool.or_eq_true, Bool.and_eq_true, decide_eq_true_eq,
    beq_iff_eq, UInt8.le_iff_toNat_le, ← UInt8.toNat_inj] at hclass
  simp only [ch] at hclass
  simp at hclass
  omega

private theorem toNat_lt_of_escaped (hescaped : escapedUnder flags c = true) : c.toNat < 128 := by
  simp only [escapedUnder, controlChars, spaceChars, delimsChars, unwiseChars, reservedChars,
    Bool.or_eq_true, Bool.and_eq_true, decide_eq_true_eq, beq_iff_eq, UInt8.le_iff_toNat_le,
    ← UInt8.toNat_inj] at hescaped
  simp only [ch] at hescaped
  simp at hescaped
  omega

private theorem escapedUnit_of_not_escaped (hflags : flags = 0 ∨ flags = uriaaEscapeReserved)
    (hc : c.toNat < 128) (hescaped : escapedUnder flags c = false) : EscapedUnit flags [c] := by
  have hall : ∀ n < 128, escapedUnder 0 (UInt8.ofNat n) = false →
      (unreservedChars (UInt8.ofNat n) || reservedChars (UInt8.ofNat n)) = true := by decide +kernel
  have hall' : ∀ n < 128, escapedUnder uriaaEscapeReserved (UInt8.ofNat n) = false →
      unreservedChars (UInt8.ofNat n) = true := by decide +kernel
  rw [← UInt8.ofNat_toNat (x := c)] at hescaped ⊢
  rcases hflags with rfl | rfl
  · rcases Bool.or_eq_true_iff.mp (hall _ hc hescaped) with h | h
    · exact .unreserved h
    · exact .reserved rfl h
  · exact .unreserved (hall' _ hc hescaped)

/-! ### Units -/

private theorem EscapedUnit.ascii (hu : EscapedUnit flags u) : ∀ c ∈ u, c.toNat < 128 := by
  intro c hc
  cases hu with
  | unreserved h =>
      rw [List.mem_singleton.mp hc]
      exact toNat_lt_of_class (by simp [h])
  | reserved _ h =>
      rw [List.mem_singleton.mp hc]
      exact toNat_lt_of_class (by simp [h])
  | triple hd he =>
      simp only [List.mem_cons, List.not_mem_nil, or_false] at hc
      rcases hc with rfl | rfl | rfl
      · decide
      · exact toNat_lt_of_class (by simp [hd])
      · exact toNat_lt_of_class (by simp [he])

/-- A unit has an odd number of characters, so `n` units have as many more than `n` as is even. -/
theorem EscapedText.length (hcontent : EscapedText flags n content) :
    ∃ k, content.length = n + 2 * k := by
  obtain ⟨units, rfl, rfl, hunits⟩ := hcontent
  induction units with
  | nil => exact ⟨0, rfl⟩
  | cons u units ih =>
      obtain ⟨k, hk⟩ := ih fun u' h => hunits u' (List.mem_cons_of_mem _ h)
      rw [List.flatten_cons, List.length_append, hk, List.length_cons]
      cases hunits u (by simp) with
      | unreserved _ => exact ⟨k, by simp only [List.length_cons, List.length_nil]; omega⟩
      | reserved _ _ => exact ⟨k, by simp only [List.length_cons, List.length_nil]; omega⟩
      | triple _ _ => exact ⟨k + 1, by simp only [List.length_cons, List.length_nil]; omega⟩

private theorem EscapedText.ascii (hcontent : EscapedText flags n content) :
    ∀ c ∈ content, c.toNat < 128 := by
  obtain ⟨units, rfl, -, hunits⟩ := hcontent
  intro c hc
  obtain ⟨u, hu, hcu⟩ := List.mem_flatten.mp hc
  exact (hunits u hu).ascii c hcu

private theorem escapedText_flatMap (hflags : flags = 0 ∨ flags = uriaaEscapeReserved)
    (htext : ∀ c ∈ text, c.toNat < 128) :
    EscapedText flags text.length (text.flatMap (Text.escapeChar flags)) := by
  refine ⟨text.map (Text.escapeChar flags), by rw [List.flatMap_def], by simp, ?_⟩
  intro u hu
  obtain ⟨c, hc, rfl⟩ := List.mem_map.mp hu
  by_cases hescaped : escapedUnder flags c = true
  · rw [Text.escapeChar, if_pos hescaped]
    exact .triple (hexChars_hexDigit _) (hexChars_hexDigit _)
  · rw [Text.escapeChar, if_neg hescaped]
    exact escapedUnit_of_not_escaped hflags (htext c hc) (Bool.not_eq_true _ ▸ hescaped)

/-! ### How much is written -/

private theorem Text.escape_length (flags : UInt32) (text : List UInt8) :
    (text.flatMap (escapeChar flags)).length ≤ 3 * text.length ∧
      ((text.flatMap (escapeChar flags)).length = 3 * text.length ↔
        ∀ c ∈ text, escapedUnder flags c = true) := by
  induction text with
  | nil => simp
  | cons c text ih =>
      rw [List.flatMap_cons, List.length_append, List.length_cons, List.forall_mem_cons, ← ih.2]
      by_cases hescaped : escapedUnder flags c = true
      · simp only [escapeChar, hescaped, if_true, List.length_cons, List.length_nil, true_and]
        omega
      · simp only [escapeChar, hescaped, if_false, Bool.false_eq_true, List.length_cons,
          List.length_nil, false_and, iff_false]
        omega

section Escape

variable {m : Memory} {s : Stringaa} {q : Ptr} {size : Nat}

private theorem uriaaEscape_content (hne : text ≠ []) (hbuf : s.buf = some q)
    (hlength : s.writePos = text.length) (hread : m.heap.Holds q text)
    (hknown : q.block < m.heap.next) (flags : UInt32) (size : Nat) :
    ∃ m' t v, stringaaInit m size = (true, m', t) ∧ uriaaEscape m' t s flags = some (true, v) ∧
      Traced.content v.memory v.dst =
        (text.flatMap (Text.escapeChar flags)).take (capacity size (3 * text.length)) := by
  have hpos : 0 < text.length := List.length_pos_iff.mpr hne
  obtain ⟨m', t, hinit, hnext, hkeep, ht⟩ := stringaaInit_spec m size
  obtain ⟨p, b, hstart, -, -, -⟩ := Conversion.start_at t size
    (show 0 < s.writePos * 3 by omega) hbuf hlength (hkeep _ _ hknown hread) (by omega) (by
      rcases ht with ⟨halloc, hsize, -⟩ | ⟨halloc, hterm, hsize, hbuf', hlt⟩
      · exact .inl ⟨halloc, hsize⟩
      · exact .inr ⟨halloc, hterm, hsize, _, hbuf', Nat.ne_of_gt hknown, hlt⟩)
  obtain ⟨v, hescape, hv⟩ := uriaaEscapeLoop_at flags s.budget hstart hne
    (by rw [Stringaa.budget]; omega)
  refine ⟨m', t, v, hinit, hescape, ?_⟩
  rw [List.nil_append, hlength, Nat.mul_comm] at hv
  exact content_eq hv.dst hv.writePos hv.written

/-- `uriaa_escape` returns 1 and writes one unit for each byte into a destination that
`stringaa_init` made with `size` bytes. -/
def EscapesToUnits (m : Memory) (s : Stringaa) (flags : UInt32) (size : Nat) (text : List UInt8) :
    Prop :=
  let (_, m, uriEscaped) := stringaaInit m size
  ∃ v, uriaaEscape m uriEscaped s flags = some (true, v) ∧
    EscapedText flags text.length (Traced.content v.memory v.dst)

/-- The content is legal, one unit for each byte, exactly when there is no byte above 127 and the
units fit: one of them is a single character, or the destination had room beforehand. -/
theorem uriaaEscape_writesUnits (hflags : flags = 0 ∨ flags = uriaaEscapeReserved)
    (hne : text ≠ []) (hbuf : s.buf = some q) (hlength : s.writePos = text.length)
    (hread : m.heap.Holds q text) (hknown : q.block < m.heap.next) :
    EscapesToUnits m s flags size text ↔
      (∀ c ∈ text, c.toNat < 128) ∧
        ((∃ c ∈ text, escapedUnder flags c = false) ∨ 3 * text.length < size) := by
  have hpos : 0 < text.length := List.length_pos_iff.mpr hne
  obtain ⟨m', t, v, hinit, hescape, hcontent⟩ :=
    uriaaEscape_content hne hbuf hlength hread hknown flags size
  have hiff : EscapesToUnits m s flags size text ↔ EscapedText flags text.length
      ((text.flatMap (Text.escapeChar flags)).take (capacity size (3 * text.length))) := by
    simp only [EscapesToUnits, hinit, hescape, Option.some.injEq, Prod.mk.injEq, true_and,
      exists_eq_left', hcontent]
  obtain ⟨hle, hall⟩ := Text.escape_length flags text
  have hexists : (∃ c ∈ text, escapedUnder flags c = false) ↔
      ¬ (text.flatMap (Text.escapeChar flags)).length = 3 * text.length := by
    rw [hall]
    simp
  rw [hiff, hexists]
  by_cases hfit : (text.flatMap (Text.escapeChar flags)).length ≤ capacity size (3 * text.length)
  · rw [List.take_of_length_le hfit]
    constructor
    · refine fun hunits => ⟨fun c hc => ?_, ?_⟩
      · by_cases hescaped : escapedUnder flags c = true
        · exact toNat_lt_of_escaped hescaped
        · refine hunits.ascii c (List.mem_flatMap.mpr ⟨c, hc, ?_⟩)
          simp [Text.escapeChar, hescaped]
      · rw [capacity] at hfit
        omega
    · exact fun h => escapedText_flatMap hflags h.1
  · -- One character of the last escape is missing.
    rw [capacity] at hfit
    constructor
    · intro hunits
      obtain ⟨k, hk⟩ := hunits.length
      rw [List.length_take, capacity] at hk
      omega
    · rintro ⟨-, hshort | hroom⟩ <;> omega

theorem uriaaEscape_writesUnits_space :
    EscapesToUnits ⟨Heap.ofText [ch 'a', 0x20], []⟩ (Stringaa.ofText 0 2) 0 0 [ch 'a', 0x20] :=
  (uriaaEscape_writesUnits (.inl rfl) (List.cons_ne_nil _ _) rfl rfl (Heap.ofText_holds _)
    Nat.one_pos).mpr
    ⟨List.forall_mem_cons.mpr ⟨by decide, List.forall_mem_singleton.mpr (by decide)⟩,
      .inl ⟨ch 'a', by decide, by decide⟩⟩

/-- The escape of a space alone loses its last digit. -/
theorem uriaaEscape_losesDigit : ¬ ∀ (m : Memory) (s : Stringaa) (text : List UInt8) (q : Ptr),
    text ≠ [] → s.buf = some q → s.writePos = text.length → m.heap.Holds q text →
      q.block < m.heap.next → EscapesToUnits m s 0 0 text := by
  intro hclaim
  have hunits := hclaim ⟨Heap.ofText [0x20], []⟩ (Stringaa.ofText 0 1) [0x20] ⟨0, 0⟩
    (List.cons_ne_nil _ _) rfl rfl (Heap.ofText_holds _) Nat.one_pos
  obtain ⟨v, hescape, hcontent⟩ := hunits
  have hrun : (uriaaEscape ⟨Heap.ofText [0x20], []⟩ { isInit := true } (Stringaa.ofText 0 1) 0).map
      (fun v => Traced.content v.2.memory v.2.dst) = some [ch '%', ch '2'] := by decide
  have hescape' : uriaaEscape ⟨Heap.ofText [0x20], []⟩ { isInit := true } (Stringaa.ofText 0 1) 0 =
      some (true, v) := hescape
  rw [hescape', Option.map_some, Option.some.injEq] at hrun
  obtain ⟨k, hk⟩ := hcontent.length
  rw [hrun] at hk
  simp only [List.length_cons, List.length_nil] at hk
  omega

end Escape

end Httpaa
