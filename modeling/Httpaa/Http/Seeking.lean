import Httpaa.Foundation.Ensures
import Httpaa.Http.Parser

/-!
# What parsing does to the request string

Whatever the string and the memory are, the request parser only moves the read position.
-/

namespace Httpaa

def Stringaa.Seeks (s s' : Stringaa) : Prop := s' = s.seek s'.readPos

variable {h : Heap} {s s' s'' : Stringaa} {names : List String}

theorem Stringaa.Seeks.refl (s : Stringaa) : s.Seeks s := rfl

theorem Stringaa.Seeks.trans (hs : s.Seeks s') (hs' : s'.Seeks s'') : s.Seeks s'' := by
  rw [Seeks] at hs hs' ⊢
  rw [hs', hs]
  rfl

theorem Stringaa.Seeks.seek (hs : s.Seeks s') (pos : Nat) : s.Seeks (s'.seek pos) := by
  rw [Seeks] at hs ⊢
  rw [hs]
  rfl

theorem Stringaa.Seeks.next (hs : s.Seeks s') : s.Seeks (stringaaNextReadPos s').2 := by
  rw [stringaaNextReadPos]
  split <;> exact hs.seek _

theorem Stringaa.Seeks.prev (hs : s.Seeks s') : s.Seeks (stringaaPrevReadPos s').2 := by
  rw [stringaaPrevReadPos]
  split <;> exact hs.seek _

/-! ### Characters and lines -/

theorem stringaaIsChar_seeks (c : UInt8) (hs : s.Seeks s') :
    Ensures (stringaaIsChar h s' c) fun r => s.Seeks r.2 := by
  refine .andThen fun x => ?_
  by_cases hc : c = x
  · simp only [hc, if_true]
    exact .pure hs.next
  · simp only [hc, if_false]
    exact .pure hs

theorem http11Crlf_seeks (hs : s.Seeks s') : Ensures (http11Crlf h s') fun r => s.Seeks r.2 := by
  refine .andThen fun c => .ite (fun _ => .andThen fun c' => .ite (fun _ => ?_) fun _ => ?_)
    fun _ => ?_
  · exact .pure hs.next.next
  · exact .pure hs.next.prev
  · exact .pure hs

private theorem findCrlfLoop_seeks (fuel : Nat) (c : UInt8) (hs : s.Seeks s') :
    Ensures (findCrlfLoop h fuel s' c) fun r => s.Seeks r.2 := by
  induction fuel generalizing s' c with
  | zero => exact .none
  | succ fuel ih =>
      refine .ite (fun _ => .andThen fun next => .ite (fun _ => ?_) fun _ => ?_) fun _ => ?_
      · exact .pure hs.next.prev
      · exact ih next hs.next
      · exact .pure hs

theorem http11FindCrlf_seeks (hs : s.Seeks s') :
    Ensures (http11FindCrlf h s') fun r => s.Seeks r.2 := by
  refine .andThen fun c => .bind (findCrlfLoop_seeks _ c hs) fun r hr => .pure ?_
  dsimp only
  split
  · exact hr
  · exact hr.seek _

/-! ### The request line -/

private theorem matchUpper_seeks (pc : List UInt8) (hs : s.Seeks s') :
    Ensures (matchUpper h pc s') fun r => s.Seeks r.2 := by
  induction pc generalizing s' with
  | nil => exact .pure hs
  | cons x pc ih => exact .andThen fun c => .ite (fun _ => ih hs.next) fun _ => .pure hs

private theorem methodLoop_seeks (i : Nat) (hs : s.Seeks s') :
    Ensures (methodLoop h names i s') fun r => s.Seeks r.2 := by
  induction names generalizing s' i with
  | nil => exact .pure hs
  | cons name names ih =>
      exact .bind (matchUpper_seeks _ hs) fun r hr => .ite (fun _ => .pure hr) fun _ => ih _ hr

private theorem digitsLoop_seeks (fuel size : Nat) (hs : s.Seeks s') :
    Ensures (digitsLoop h fuel s' size) fun r => s.Seeks r.2 := by
  induction fuel generalizing s' size with
  | zero => exact .none
  | succ fuel ih => exact .andThen fun c => .ite (fun _ => ih _ hs.next) fun _ => .pure hs

/-- A function of the parser that only moves the read position of the request. -/
def OnlySeeks (f : Http11Http → Stringaa → Option (Bool × Http11Http × Stringaa)) : Prop :=
  ∀ (http : Http11Http) (s s' : Stringaa), s.Seeks s' → Ensures (f http s') fun r => s.Seeks r.2.2

theorem http11Method_seeks : OnlySeeks (http11Method h) := by
  refine fun http s s' hs => .bind (methodLoop_seeks _ hs) fun r hr => ?_
  obtain ⟨method, request⟩ := r
  cases method with
  | none => exact .pure (hr.seek _)
  | some i => exact .pure hr

theorem http11RequestUri_seeks : OnlySeeks (http11RequestUri h) := fun _ _ _ hs =>
  .andThen fun _ => .ite (fun _ => .pure (hs.seek _)) fun _ => .pure hs

theorem http11HttpVersion_seeks : OnlySeeks (http11HttpVersion h) := by
  refine fun http s s' hs => .bind (matchUpper_seeks _ hs) fun r hr => .ite (fun _ => ?_) fun _ =>
    .pure (hr.seek _)
  refine .bind (digitsLoop_seeks _ _ hr) fun r₁ hr₁ => .andThen fun c => .ite (fun _ => ?_)
    fun _ => .pure (hr₁.seek _)
  refine .bind (digitsLoop_seeks _ _ hr₁.next) fun r₂ hr₂ => .ite (fun _ => ?_)
    fun _ => .pure (hr₂.seek _)
  exact .andThen fun _ => .andThen fun _ => .pure hr₂

theorem OnlySeeks.whenDo {f : Http11Http → Stringaa → Option (Bool × Http11Http × Stringaa)}
    (hf : OnlySeeks f) (is : Bool) (http : Http11Http) (hs : s.Seeks s') :
    Ensures (http.whenDo is s' f) fun r => s.Seeks r.2.2 :=
  .ite (fun _ => hf _ _ _ hs) fun _ => .pure hs

private theorem reading_seeks {f : Stringaa → Option (Bool × Stringaa)}
    (hf : ∀ s s' : Stringaa, s.Seeks s' → Ensures (f s') fun r => s.Seeks r.2) :
    OnlySeeks (reading f) :=
  fun _ _ _ hs => .map (hf _ _ hs)

theorem http11RequestLine_seeks : OnlySeeks (http11RequestLine h) := by
  have hspace : OnlySeeks (reading (http11Space h)) :=
    reading_seeks fun _ _ => stringaaIsChar_seeks http11Sp
  have hcrlf : OnlySeeks (reading (http11Crlf h)) := reading_seeks fun _ _ => http11Crlf_seeks
  refine fun http s s' hs => .bind (http11Method_seeks _ _ _ hs) fun r₁ hr₁ => ?_
  refine .bind (hspace.whenDo _ _ hr₁) fun r₂ hr₂ => ?_
  refine .bind (http11RequestUri_seeks.whenDo _ _ hr₂) fun r₃ hr₃ => ?_
  refine .bind (hspace.whenDo _ _ hr₃) fun r₄ hr₄ => ?_
  refine .bind (http11HttpVersion_seeks.whenDo _ _ hr₄) fun r₅ hr₅ => ?_
  refine .bind (hcrlf.whenDo _ _ hr₅) fun r₆ hr₆ => .pure ?_
  dsimp only
  split
  · exact hr₆
  · exact hr₆.seek _

/-! ### Header lines -/

private theorem matchName_seeks (pc : List UInt8) (c : UInt8) (hs : s.Seeks s') :
    Ensures (matchName h pc s' c) fun r => s.Seeks r.2.1 := by
  induction pc generalizing s' c with
  | nil => exact .pure hs
  | cons x pc ih =>
      refine .ite (fun _ => .ite (fun _ => ?_) fun _ => .pure hs.next) fun _ => .pure hs
      exact .andThen fun c' => ih _ hs.next

private theorem headerLoop_seeks (pos i : Nat) (c : UInt8) (hs : s.Seeks s') :
    Ensures (headerLoop h pos names i s' c) fun r => s.Seeks r.2 := by
  induction names generalizing s' i c with
  | nil => exact .pure hs
  | cons name names ih =>
      refine .bind (matchName_seeks _ _ hs) fun r hr => .ite (fun _ => .pure hr) fun _ => ?_
      exact .ite (fun _ => .andThen fun _ => ih _ _ (hr.seek _)) fun _ => ih _ _ hr

theorem http11Header_seeks (start : Nat) : OnlySeeks (http11Header h names start) := by
  refine fun http s s' hs => .andThen fun c => .bind (headerLoop_seeks _ _ _ hs) fun r hr => ?_
  obtain ⟨index, request⟩ := r
  cases index with
  | none => exact .pure (hr.seek _)
  | some i => exact .bind (http11FindCrlf_seeks hr) fun r' hr' => .pure hr'

private theorem headersLoop_seeks (fuel : Nat) : OnlySeeks (headersLoop h fuel) := by
  induction fuel with
  | zero => exact fun _ _ _ _ => .none
  | succ fuel ih =>
      refine fun http s s' hs => .bind (http11Header_seeks _ _ _ _ hs) fun r₁ hr₁ => ?_
      refine .bind ((http11Header_seeks _).whenDo _ _ hr₁) fun r₂ hr₂ => ?_
      refine .bind ((http11Header_seeks _).whenDo _ _ hr₂) fun r₃ hr₃ => ?_
      refine .bind (http11Crlf_seeks hr₃) fun r₄ hr₄ => .ite (fun _ => ?_) fun _ => ?_
      · exact .ite (fun _ => ih _ _ _ hr₄) fun _ => .pure hr₄
      · refine .ite (fun _ => .pure hr₄) fun _ => .bind (http11FindCrlf_seeks hr₄) fun r₅ hr₅ => ?_
        refine .ite (fun _ => ?_) fun _ => .pure hr₅
        exact .bind (http11Crlf_seeks hr₅) fun r₆ hr₆ => ih _ _ _ hr₆

/-! ### Requests -/

theorem http11Request_seeks : OnlySeeks (http11Request h) := fun _ _ _ hs =>
  .bind (http11RequestLine_seeks _ _ _ hs) fun _ hr => (headersLoop_seeks _).whenDo _ _ hr

theorem httpaaParseRequestHeaders_seeks : OnlySeeks (httpaaParseRequestHeaders h) := by
  refine fun http s s' hs => .bind (http11FindCrlf_seeks hs) fun r₁ hr₁ => .ite (fun _ => ?_)
    fun _ => .pure (hr₁.seek _)
  refine .bind (http11Crlf_seeks hr₁) fun r₂ hr₂ => .bind (http11FindCrlf_seeks hr₂)
    fun r₃ hr₃ => .ite (fun _ => ?_) fun _ => .pure (hr₃.seek _)
  refine .bind (http11Request_seeks _ _ _ (hr₃.seek 0)) fun r₄ hr₄ => .pure ?_
  dsimp only
  split
  · exact hr₄
  · exact hr₄.seek _

end Httpaa
