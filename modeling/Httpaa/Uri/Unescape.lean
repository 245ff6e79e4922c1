import Httpaa.Uri.Escape

/-!
# What `uriaa_unescape` accepts and writes

The value returned is shared by the escapes and the end of the text: a `%` that is cut off by the
end is refused only where no escape was read before. The digits may be any of the 22 characters that
the shifts bring between `0` and `?`. Of unreserved characters the decoding is right, but the buffer
has no room for the last character of a text that does not get shorter.
-/

namespace Httpaa

open Traced

variable {flags : UInt32} {isUnescape : Bool} {isDigit : UInt8 → Bool} {c d e x : UInt8}
  {text front rest t u : List UInt8}

/-! ### Escapes -/

/-- Every `%`, from left to right, is followed by two digits. -/
def Text.escapesOk (isDigit : UInt8 → Bool) : List UInt8 → Bool
  | [] => true
  | c :: rest =>
      if c = ch '%' then
        match rest with
        | d :: e :: rest => isDigit d && isDigit e && escapesOk isDigit rest
        | _ => false
      else escapesOk isDigit rest

/-- The characters that `uriaa_unescape_char` takes for digits. -/
def shiftedChars (c : UInt8) : Bool := (hexValue c).isSome

private theorem uriaaUnescapeChar_isSome :
    (uriaaUnescapeChar e d).isSome = (shiftedChars d && shiftedChars e) := by
  rw [uriaaUnescapeChar, shiftedChars, shiftedChars]
  cases hexValue e <;> cases hexValue d <;> rfl

private theorem shiftedChars_of_hexChars (hd : hexChars d = true) : shiftedChars d = true := by
  have hall : ∀ n < 256, hexChars (UInt8.ofNat n) = true →
      shiftedChars (UInt8.ofNat n) = true := by decide +kernel
  rw [← UInt8.ofNat_toNat (x := d)] at hd ⊢
  exact hall _ (UInt8.toNat_lt d) hd

private theorem Text.escapesOk_cons (hc : c ≠ ch '%') :
    escapesOk isDigit (c :: rest) = escapesOk isDigit rest := by
  rw [escapesOk.eq_def]
  exact if_neg hc

private theorem Text.escapesOk_triple : escapesOk isDigit (ch '%' :: d :: e :: rest) =
    (isDigit d && isDigit e && escapesOk isDigit rest) := by
  rw [escapesOk.eq_def]
  exact if_pos rfl

private theorem Text.escapesOk_mono {isDigit' : UInt8 → Bool}
    (hle : ∀ c, isDigit c = true → isDigit' c = true) (hok : escapesOk isDigit text = true) :
    escapesOk isDigit' text = true := by
  fun_induction escapesOk isDigit text with
  | case1 => rfl
  | case2 d e rest ih =>
      simp only [Bool.and_eq_true] at hok
      rw [escapesOk_triple, hle d hok.1.1, hle e hok.1.2, ih hok.2]
      rfl
  | case3 rest hshort => cases hok
  | case4 c rest hc ih => rw [escapesOk_cons hc, ih hok]

private theorem Text.not_escapesOk (hbad : escapesOk isDigit text = false) :
    ∃ front rest, text = front ++ ch '%' :: rest ∧ escapesOk isDigit front = true ∧
      ∀ d e rest', rest = d :: e :: rest' → (isDigit d && isDigit e) = false := by
  fun_induction escapesOk isDigit text with
  | case1 => cases hbad
  | case2 d e rest ih =>
      by_cases hde : (isDigit d && isDigit e) = true
      · rw [hde, Bool.true_and] at hbad
        obtain ⟨front, rest', rfl, hfront, hstop⟩ := ih hbad
        refine ⟨ch '%' :: d :: e :: front, rest', rfl, ?_, hstop⟩
        rw [escapesOk_triple, hde, hfront]
        rfl
      · refine ⟨[], d :: e :: rest, rfl, rfl, fun d' e' rest' h => ?_⟩
        cases h
        exact Bool.not_eq_true _ ▸ hde
  | case3 rest hshort =>
      exact ⟨[], rest, rfl, rfl, fun d e rest' h => absurd h (hshort d e rest')⟩
  | case4 c rest hc ih =>
      obtain ⟨front, rest', rfl, hfront, hstop⟩ := ih hbad
      exact ⟨c :: front, rest', rfl, by rw [escapesOk_cons hc, hfront], hstop⟩

/-! ### What is accepted -/

private theorem Text.uriaaUnescapeChar_of_shifted
    (hde : (shiftedChars d && shiftedChars e) = true) :
    ∃ x, uriaaUnescapeChar e d = some x := by
  rw [← uriaaUnescapeChar_isSome] at hde
  exact Option.isSome_iff_exists.mp hde

private theorem Text.unescapeUnder_append (hfront : escapesOk shiftedChars front = true)
    (hrest : rest ≠ []) : (unescapeUnder flags isUnescape (front ++ rest)).1 =
      (unescapeUnder flags (isUnescape || decide (ch '%' ∈ front)) rest).1 := by
  fun_induction escapesOk shiftedChars front generalizing isUnescape with
  | case1 => simp
  | case2 d e front ih =>
      rw [Bool.and_eq_true] at hfront
      obtain ⟨x, hx⟩ := uriaaUnescapeChar_of_shifted hfront.1
      rw [List.cons_append, List.cons_append, List.cons_append,
        unescapeUnder_triple hx (by simp [hrest]), ih hfront.2]
      simp
  | case3 rest hshort => cases hfront
  | case4 c front hc ih =>
      rw [List.cons_append, unescapeUnder_cons hc (by simp [hrest]), ih hfront]
      simp [Ne.symm hc]

private theorem Text.unescapeUnder_accepts (flags : UInt32) (isUnescape : Bool)
    (hok : escapesOk shiftedChars text = true) (hne : text ≠ []) :
    (unescapeUnder flags isUnescape text).1 = true := by
  fun_induction escapesOk shiftedChars text generalizing isUnescape with
  | case1 => exact absurd rfl hne
  | case2 d e rest ih =>
      rw [Bool.and_eq_true] at hok
      obtain ⟨x, hx⟩ := uriaaUnescapeChar_of_shifted hok.1
      by_cases hrest : rest = []
      · simp [unescapeUnder, hx, hrest]
      · rw [unescapeUnder_triple hx hrest]
        exact ih _ hok.2 hrest
  | case3 rest hshort => cases hok
  | case4 c rest hc ih =>
      by_cases hrest : rest = []
      · simp [unescapeUnder, hc, hrest]
      · rw [unescapeUnder_cons hc hrest]
        exact ih _ hok hrest

/-- The first `%` that is not followed by two digits, of those the shifts bring about, has two
characters behind it, or no `%` in front. -/
def Text.Refused (text : List UInt8) : Prop :=
  ∃ front rest, text = front ++ ch '%' :: rest ∧ escapesOk shiftedChars front = true ∧
    ((∃ d e rest', rest = d :: e :: rest' ∧ (shiftedChars d && shiftedChars e) = false) ∨
      (rest.length < 2 ∧ ch '%' ∉ front))

private theorem Text.unescapeUnder_refuses (flags : UInt32) (hne : text ≠ []) :
    (unescapeUnder flags false text).1 = false ↔ Refused text := by
  constructor
  · intro hrefused
    have hbad : escapesOk shiftedChars text = false := by
      by_contra hok
      rw [unescapeUnder_accepts _ _ (Bool.not_eq_false _ ▸ hok) hne] at hrefused
      cases hrefused
    obtain ⟨front, rest, rfl, hfront, hstop⟩ := not_escapesOk hbad
    refine ⟨front, rest, rfl, hfront, ?_⟩
    rw [unescapeUnder_append hfront (List.cons_ne_nil _ _), Bool.false_or] at hrefused
    rcases rest with _ | ⟨d, _ | ⟨e, rest⟩⟩
    · exact .inr ⟨by simp, by simpa [unescapeUnder] using hrefused⟩
    · exact .inr ⟨by simp, by simpa [unescapeUnder] using hrefused⟩
    · exact .inl ⟨d, e, rest, rfl, hstop d e rest rfl⟩
  · rintro ⟨front, rest, rfl, hfront, ⟨d, e, rest', rfl, hde⟩ | ⟨hshort, hnone⟩⟩
    · have hnone : uriaaUnescapeChar e d = none := by
        rw [← Option.not_isSome_iff_eq_none, uriaaUnescapeChar_isSome, hde]
        exact Bool.false_ne_true
      rw [unescapeUnder_append hfront (List.cons_ne_nil _ _)]
      simp [unescapeUnder, hnone]
    · rw [unescapeUnder_append hfront (List.cons_ne_nil _ _), Bool.false_or]
      rcases rest with _ | ⟨d, _ | ⟨e, rest⟩⟩
      · simpa [unescapeUnder] using hnone
      · simpa [unescapeUnder] using hnone
      · simp only [List.length_cons] at hshort
        omega

section Source

variable {m : Memory} {dst s : Stringaa} {q : Ptr}

private theorem uriaaUnescape_value (flags : UInt32) (hne : text ≠ []) (hbuf : s.buf = some q)
    (hlength : s.writePos = text.length) (hread : m.heap.Holds q text)
    (hknown : q.block < m.heap.next)
    (hdst : dst.isAlloc = true → ∀ p, dst.buf = some p → p.block ≠ q.block) :
    ∃ v, uriaaUnescape m dst s flags = some ((Text.unescapeUnder flags false text).1, v) := by
  have hpos : 0 < text.length := List.length_pos_iff.mpr hne
  have hstart : (Conversion.start m dst s s.writePos).Reads q text :=
    Conversion.start_reads (hlength ▸ hpos) hbuf hlength hread hknown hdst
  obtain ⟨v, hloop, -⟩ := uriaaUnescapeLoop_reads flags false s.budget hstart hne
    (by rw [Stringaa.budget]; omega)
  exact ⟨v, hloop⟩

/-- 0 is returned exactly for the malformed texts if the text is well formed, or refused for its
first bad `%`. -/
theorem uriaaUnescape_rejects (flags : UInt32) (hne : text ≠ []) (hbuf : s.buf = some q)
    (hlength : s.writePos = text.length) (hread : m.heap.Holds q text)
    (hknown : q.block < m.heap.next)
    (hdst : dst.isAlloc = true → ∀ p, dst.buf = some p → p.block ≠ q.block) :
    ((∃ v, uriaaUnescape m dst s flags = some (false, v)) ↔
        Text.escapesOk hexChars text = false) ↔
      Text.escapesOk hexChars text = true ∨ Text.Refused text := by
  obtain ⟨v, hvalue⟩ := uriaaUnescape_value flags hne hbuf hlength hread hknown hdst
  have hreturns : (∃ v, uriaaUnescape m dst s flags = some (false, v)) ↔ Text.Refused text := by
    rw [← Text.unescapeUnder_refuses flags hne, hvalue]
    simp
  have haccepts : Text.escapesOk hexChars text = true → ¬ Text.Refused text := by
    intro hok hrefused
    have hone := Text.unescapeUnder_accepts flags false
      (Text.escapesOk_mono (fun _ => shiftedChars_of_hexChars) hok) hne
    rw [(Text.unescapeUnder_refuses flags hne).mpr hrefused] at hone
    cases hone
  rw [hreturns]
  cases hok : Text.escapesOk hexChars text with
  | true => simpa using haccepts hok
  | false => simp

/-- `%41` is accepted. -/
theorem uriaaUnescape_rejects_letter :
    (∃ v, uriaaUnescape ⟨Heap.ofText [ch '%', ch '4', ch '1'], []⟩ {} (Stringaa.ofText 0 3) 0 =
      some (false, v)) ↔ Text.escapesOk hexChars [ch '%', ch '4', ch '1'] = false :=
  (uriaaUnescape_rejects 0 (by decide) rfl rfl (Heap.ofText_holds _) Nat.one_pos
    fun h => absurd h Bool.false_ne_true).mpr (.inl (by decide))

/-- `%::` is accepted. -/
theorem uriaaUnescape_acceptsMalformed : ¬ ∀ (m : Memory) (s : Stringaa) (text : List UInt8)
    (q : Ptr), text ≠ [] → s.buf = some q → s.writePos = text.length → m.heap.Holds q text →
      q.block < m.heap.next → ((∃ v, uriaaUnescape m {} s 0 = some (false, v)) ↔
        Text.escapesOk hexChars text = false) := by
  intro hclaim
  obtain ⟨v, hrun⟩ := (hclaim ⟨Heap.ofText [ch '%', ch ':', ch ':'], []⟩ (Stringaa.ofText 0 3)
    [ch '%', ch ':', ch ':'] ⟨0, 0⟩ (by decide) rfl rfl (Heap.ofText_holds _) Nat.one_pos).mpr
    (by decide)
  have hone : (uriaaUnescape ⟨Heap.ofText [ch '%', ch ':', ch ':'], []⟩ {}
      (Stringaa.ofText 0 3) 0).map (·.1) = some true := by decide
  rw [hrun] at hone
  exact absurd hone (by simp)

end Source

/-! ### Decoding -/

def hexNumber (c : UInt8) : Nat :=
  if digitChars c then c.toNat - (ch '0').toNat
  else if c ≤ ch 'F' then c.toNat - (ch 'A').toNat + 10
  else c.toNat - (ch 'a').toNat + 10

def tripleChar (d e : UInt8) : UInt8 := UInt8.ofNat (16 * hexNumber d + hexNumber e)

def Text.decode : List UInt8 → List UInt8
  | c :: d :: e :: rest =>
      if c = ch '%' ∧ hexChars d = true ∧ hexChars e = true then tripleChar d e :: decode rest
      else c :: decode (d :: e :: rest)
  | text => text

/-- Some escapes of the first text are decoded in the second, unreserved characters all of them;
everything else is copied. -/
inductive Text.Unescaped : List UInt8 → List UInt8 → Prop
  | nil : Unescaped [] []
  | triple {d e : UInt8} {t u : List UInt8} : hexChars d = true → hexChars e = true →
      unreservedChars (tripleChar d e) = true → Unescaped t u →
      Unescaped (ch '%' :: d :: e :: t) (tripleChar d e :: u)
  | copy {c : UInt8} {t u : List UInt8} : Unescaped t u → Unescaped (c :: t) (c :: u)

/-- No escape of an unreserved character stands in the text. -/
def Text.NoUnreserved (text : List UInt8) : Prop :=
  ∀ d e, hexChars d = true → hexChars e = true → [ch '%', d, e] <:+: text →
    unreservedChars (tripleChar d e) = false

private theorem uriaaUnescapeChar_hex (hd : hexChars d = true) (he : hexChars e = true) :
    uriaaUnescapeChar e d = some (tripleChar d e) := by
  have hvalue : ∀ n < 256, hexChars (UInt8.ofNat n) = true →
      hexNumber (UInt8.ofNat n) < 16 ∧
        hexValue (UInt8.ofNat n) = some (UInt8.ofNat (hexNumber (UInt8.ofNat n))) := by
    decide +kernel
  have hjoin : ∀ i < 16, ∀ j < 16,
      UInt8.ofNat j ||| (UInt8.ofNat i <<< 4) = UInt8.ofNat (16 * i + j) := by decide +kernel
  obtain ⟨hi, hhigh⟩ := hvalue d.toNat (UInt8.toNat_lt d) (by rwa [UInt8.ofNat_toNat])
  obtain ⟨hj, hlow⟩ := hvalue e.toNat (UInt8.toNat_lt e) (by rwa [UInt8.ofNat_toNat])
  rw [UInt8.ofNat_toNat] at hi hhigh hj hlow
  simp [uriaaUnescapeChar, hhigh, hlow, tripleChar, hjoin _ hi _ hj]

private theorem percent_not_hex : hexChars (ch '%') = false := by decide

private theorem percent_not_unreserved : unreservedChars (ch '%') = false := by decide

private theorem Text.decode_cons (hc : c ≠ ch '%') : decode (c :: rest) = c :: decode rest := by
  rcases rest with _ | ⟨d, _ | ⟨e, rest⟩⟩
  · rfl
  · rfl
  · rw [decode]
    exact if_neg fun h => hc h.1

private theorem Text.decode_triple (hd : hexChars d = true) (he : hexChars e = true) :
    decode (ch '%' :: d :: e :: rest) = tripleChar d e :: decode rest := by
  rw [decode]
  exact if_pos ⟨rfl, hd, he⟩

private theorem Text.triple_infix_cons (hc : c ≠ ch '%') :
    [ch '%', d, e] <:+: c :: text ↔ [ch '%', d, e] <:+: text := by
  rw [List.infix_cons_iff, List.cons_prefix_cons]
  simp [Ne.symm hc]

private theorem Text.noUnreserved_cons (hc : c ≠ ch '%') :
    NoUnreserved (c :: text) ↔ NoUnreserved text := by
  simp only [NoUnreserved, triple_infix_cons hc]

private theorem Text.noUnreserved_triple (hd : hexChars d = true) (he : hexChars e = true) :
    NoUnreserved (ch '%' :: d :: e :: text) ↔
      unreservedChars (tripleChar d e) = false ∧ NoUnreserved text := by
  have hd' : d ≠ ch '%' := fun h => absurd (h ▸ hd) (by simp [percent_not_hex])
  have he' : e ≠ ch '%' := fun h => absurd (h ▸ he) (by simp [percent_not_hex])
  constructor
  · intro h
    refine ⟨h d e hd he ⟨[], text, rfl⟩, fun d' e' hd'' he'' hin => h d' e' hd'' he'' ?_⟩
    exact (((List.suffix_cons e text).trans (List.suffix_cons d _)).trans
      (List.suffix_cons (ch '%') _)).isInfix |> hin.trans
  · rintro ⟨hchar, h⟩ d' e' hd'' he'' hin
    rw [List.infix_cons_iff, triple_infix_cons hd', triple_infix_cons he'] at hin
    rcases hin with hhere | hlater
    · simp only [List.cons_prefix_cons, true_and, List.nil_prefix, and_true] at hhere
      rw [hhere.1, hhere.2]
      exact hchar
    · exact h d' e' hd'' he'' hlater

theorem Text.Unescaped.length (h : Unescaped t u) : ∃ k, t.length = u.length + 2 * k := by
  induction h with
  | nil => exact ⟨0, rfl⟩
  | triple _ _ _ _ ih =>
      obtain ⟨k, hk⟩ := ih
      exact ⟨k + 1, by simp only [List.length_cons]; omega⟩
  | copy _ ih =>
      obtain ⟨k, hk⟩ := ih
      exact ⟨k, by simp only [List.length_cons]; omega⟩

private theorem Text.Unescaped.eq_or (h : Unescaped t u) : u = t ∨ (u.length < t.length ∧
    ∃ d e, hexChars d = true ∧ hexChars e = true ∧ unreservedChars (tripleChar d e) = true ∧
      [ch '%', d, e] <:+: t) := by
  induction h with
  | nil => exact .inl rfl
  | @triple d e t u hd he hchar h _ =>
      obtain ⟨k, hk⟩ := h.length
      refine .inr ⟨?_, d, e, hd, he, hchar, [], t, rfl⟩
      simp only [List.length_cons]
      omega
  | @copy c t u _ ih =>
      rcases ih with rfl | ⟨hlt, d, e, hd, he, hchar, hin⟩
      · exact .inl rfl
      · refine .inr ⟨by simpa using hlt, d, e, hd, he, hchar, ?_⟩
        exact hin.trans (List.suffix_cons c t).isInfix

private theorem Text.unescapeTriple_unreserved (c d e : UInt8) :
    unescapeTriple uriaaEscapeUnreserved c d e =
      if unreservedChars c then [c] else [ch '%', d, e] :=
  if_pos (by decide)

private theorem Text.unescaped_triple (hd : hexChars d = true) (he : hexChars e = true)
    (hu : Unescaped t u ∧ decode u = decode t ∧ NoUnreserved u) :
    Unescaped (ch '%' :: d :: e :: t)
        (unescapeTriple uriaaEscapeUnreserved (tripleChar d e) d e ++ u) ∧
      decode (unescapeTriple uriaaEscapeUnreserved (tripleChar d e) d e ++ u) =
        decode (ch '%' :: d :: e :: t) ∧
      NoUnreserved (unescapeTriple uriaaEscapeUnreserved (tripleChar d e) d e ++ u) := by
  obtain ⟨hcopied, hdecode, hclean⟩ := hu
  rw [unescapeTriple_unreserved, decode_triple hd he]
  by_cases hchar : unreservedChars (tripleChar d e) = true
  · have hne : tripleChar d e ≠ ch '%' := fun h => by
      rw [h, percent_not_unreserved] at hchar
      cases hchar
    rw [if_pos hchar, List.singleton_append]
    refine ⟨.triple hd he hchar hcopied, ?_, (noUnreserved_cons hne).mpr hclean⟩
    rw [decode_cons hne, hdecode]
  · rw [if_neg hchar]
    refine ⟨.copy (.copy (.copy hcopied)), ?_, ?_⟩
    · exact (decode_triple hd he).trans (congrArg _ hdecode)
    · exact (noUnreserved_triple hd he).mpr ⟨Bool.not_eq_true _ ▸ hchar, hclean⟩

private theorem Text.unescapeUnder_unreserved (isUnescape : Bool)
    (hok : escapesOk hexChars text = true) :
    Unescaped text (unescapeUnder uriaaEscapeUnreserved isUnescape text).2 ∧
      decode (unescapeUnder uriaaEscapeUnreserved isUnescape text).2 = decode text ∧
      NoUnreserved (unescapeUnder uriaaEscapeUnreserved isUnescape text).2 := by
  have hnil : NoUnreserved [] := fun d e _ _ hin => by
    cases List.eq_nil_of_infix_nil hin
  fun_induction escapesOk hexChars text generalizing isUnescape with
  | case1 => exact ⟨.nil, rfl, hnil⟩
  | case2 d e rest ih =>
      simp only [Bool.and_eq_true] at hok
      obtain ⟨⟨hd, he⟩, hrest⟩ := hok
      by_cases hend : rest = []
      · have hout : (unescapeUnder uriaaEscapeUnreserved isUnescape (ch '%' :: d :: e :: rest)).2 =
            unescapeTriple uriaaEscapeUnreserved (tripleChar d e) d e ++ [] := by
          simp [unescapeUnder, uriaaUnescapeChar_hex hd he, hend]
        rw [hout, hend]
        exact unescaped_triple hd he ⟨.nil, rfl, hnil⟩
      · rw [unescapeUnder_triple (uriaaUnescapeChar_hex hd he) hend]
        exact unescaped_triple hd he (ih _ hrest)
  | case3 rest hshort => cases hok
  | case4 c rest hc ih =>
      by_cases hend : rest = []
      · have hout : (unescapeUnder uriaaEscapeUnreserved isUnescape (c :: rest)).2 = [c] := by
          simp [unescapeUnder, hc, hend]
        rw [hout, hend]
        exact ⟨.copy .nil, rfl, (noUnreserved_cons hc).mpr hnil⟩
      · rw [unescapeUnder_cons hc hend]
        obtain ⟨hcopied, hdecode, hclean⟩ := ih isUnescape hok
        refine ⟨.copy hcopied, ?_, (noUnreserved_cons hc).mpr hclean⟩
        rw [decode_cons hc, decode_cons hc, hdecode]

section Source

variable {m : Memory} {dst s : Stringaa} {q : Ptr} {size : Nat}

/-- 1 is returned; what is written has the same decoding, without escapes of unreserved characters,
and everything that is not decoded is copied. -/
def UnescapesUnreserved (m : Memory) (dst s : Stringaa) (text : List UInt8) : Prop :=
  ∃ v, uriaaUnescape m dst s uriaaEscapeUnreserved = some (true, v) ∧
    Text.decode (content v.memory v.dst) = Text.decode text ∧
    Text.NoUnreserved (content v.memory v.dst) ∧ Text.Unescaped text (content v.memory v.dst)

/-- Into a destination that owns no buffer, or one of `size` bytes, a well-formed text is unescaped
exactly when it has an escape of an unreserved character or that buffer has room for all of it;
otherwise its last character is lost. -/
theorem uriaaUnescape_unreserved (hne : text ≠ []) (hbuf : s.buf = some q)
    (hlength : s.writePos = text.length) (hread : m.heap.Holds q text)
    (hknown : q.block < m.heap.next)
    (hdst : (dst.isAlloc = false ∧ size = 0) ∨ (dst.isAlloc = true ∧ dst.isNullTerminated = true ∧
      dst.bufSize = size ∧ ∃ p, dst.buf = some p ∧ p.block ≠ q.block ∧ p.block < m.heap.next))
    (hok : Text.escapesOk hexChars text = true) :
    UnescapesUnreserved m dst s text ↔
      (∃ d e, hexChars d = true ∧ hexChars e = true ∧ unreservedChars (tripleChar d e) = true ∧
        [ch '%', d, e] <:+: text) ∨ text.length < size := by
  have hpos : 0 < text.length := List.length_pos_iff.mpr hne
  obtain ⟨p, b, hstart, -, -, -⟩ := Conversion.start_at dst size (hlength ▸ hpos) hbuf hlength
    hread hknown hdst
  obtain ⟨htaken, hreads⟩ := Conversion.at_iff.mp hstart
  obtain ⟨v, hloop, hwritten⟩ := uriaaUnescapeLoop_reads uriaaEscapeUnreserved false s.budget
    hreads hne (by rw [Stringaa.budget]; omega)
  have htaken' := hwritten _ _ _ _ htaken
  have hone : (Text.unescapeUnder uriaaEscapeUnreserved false text).1 = true :=
    Text.unescapeUnder_accepts _ _ (Text.escapesOk_mono (fun _ => shiftedChars_of_hexChars) hok) hne
  obtain ⟨hcopied, hdecode, hclean⟩ := Text.unescapeUnder_unreserved false hok
  generalize (Text.unescapeUnder uriaaEscapeUnreserved false text) = out at *
  generalize hcap : capacity size s.writePos = cap at htaken'
  rw [capacity, hlength] at hcap
  rw [List.nil_append] at htaken'
  have hcontent := content_eq htaken'.dst htaken'.writePos htaken'.written
  have hrun : uriaaUnescape m dst s uriaaEscapeUnreserved = some (true, v) := hone ▸ hloop
  constructor
  · rintro ⟨v', hrun', -, -, hcopied'⟩
    rw [hrun, Option.some.injEq, Prod.mk.injEq] at hrun'
    rw [← hrun'.2, hcontent] at hcopied'
    rcases hcopied'.eq_or with hall | ⟨-, hexists⟩
    · have hlong := congrArg List.length hall
      rw [List.length_take] at hlong
      exact .inr (by omega)
    · exact .inl hexists
  · intro hroom
    have hfit : out.2.length ≤ cap := by
      obtain ⟨k, hk⟩ := hcopied.length
      rcases hroom with ⟨d, e, hd, he, hchar, hin⟩ | hsize
      · rcases hcopied.eq_or with hall | ⟨hlt, -⟩
        · rw [hall] at hclean
          exact absurd (hchar.symm.trans (hclean d e hd he hin)) Bool.noConfusion
        · omega
      · omega
    rw [List.take_of_length_le hfit] at hcontent
    exact ⟨v, hrun, by rw [hcontent, hdecode], hcontent ▸ hclean, hcontent ▸ hcopied⟩

/-- `%41` is an escaped letter. -/
theorem uriaaUnescape_unreserved_letter : UnescapesUnreserved
    ⟨Heap.ofText [ch '%', ch '4', ch '1'], []⟩ {} (Stringaa.ofText 0 3)
      [ch '%', ch '4', ch '1'] :=
  (uriaaUnescape_unreserved (by decide) rfl rfl (Heap.ofText_holds _) Nat.one_pos
    (.inl ⟨rfl, rfl⟩) (by decide)).mpr
      (.inl ⟨ch '4', ch '1', by decide, by decide, by decide, List.infix_rfl⟩)

/-- Of `a` nothing is written. -/
theorem uriaaUnescape_losesLast : ¬ ∀ (m : Memory) (s : Stringaa) (text : List UInt8) (q : Ptr),
    text ≠ [] → s.buf = some q → s.writePos = text.length → m.heap.Holds q text →
      q.block < m.heap.next → Text.escapesOk hexChars text = true →
        UnescapesUnreserved m {} s text := by
  intro hclaim
  obtain ⟨v, hrun, hdecode, -, -⟩ := hclaim ⟨Heap.ofText [ch 'a'], []⟩ (Stringaa.ofText 0 1)
    [ch 'a'] ⟨0, 0⟩ (by decide) rfl rfl (Heap.ofText_holds _) Nat.one_pos (by decide)
  have hnone : (uriaaUnescape ⟨Heap.ofText [ch 'a'], []⟩ {} (Stringaa.ofText 0 1)
      uriaaEscapeUnreserved).map (fun r => content r.2.memory r.2.dst) = some [] := by decide
  rw [hrun, Option.map_some, Option.some.injEq] at hnone
  rw [hnone] at hdecode
  exact absurd hdecode (by decide)

end Source

end Httpaa
