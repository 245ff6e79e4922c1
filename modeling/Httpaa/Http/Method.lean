import Httpaa.Http.Headers

/-!
# Methods

`http11_method` compares the text with one entry of its table after the other, and a comparison that
fails does not set the cursor back. So an entry is recognised where those in front of it have
nothing in common with the text; `PUT`, behind `POST`, is not, and a method behind pieces of other
ones is.
-/

namespace Httpaa

open Recogniser Stringaa

namespace Text

variable {names : List String} {name : String} {s rest : List UInt8} {x : UInt8} {pc : List UInt8}
  {i k : Nat}

/-- The text begins with the constant, whatever the case of its letters. -/
def BeginsWith (pc s : List UInt8) : Prop := pc <+: s.map toUpper

instance (pc s : List UInt8) : Decidable (BeginsWith pc s) :=
  inferInstanceAs (Decidable (pc <+: s.map toUpper))

/-- What is left when the entries, one after the other, have taken off what they have in common with
the text. -/
def takenOff (names : List String) (s : List UInt8) : List UInt8 :=
  names.foldl (fun s name => (matchUpper (literal name) s).2) s

private theorem matchUpper_ok : (matchUpper pc s).1 = true ↔ BeginsWith pc s := by
  fun_induction matchUpper pc s with
  | case1 s => simp [BeginsWith]
  | case2 x pc => simp [BeginsWith]
  | case3 pc y s ih => simpa [BeginsWith, List.cons_prefix_cons] using ih
  | case4 x pc y s hne => simp [BeginsWith, List.cons_prefix_cons, hne]

private theorem matchUpper_rest (hbegins : BeginsWith pc s) :
    (matchUpper pc s).2 = s.drop pc.length := by
  fun_induction matchUpper pc s with
  | case1 s => rfl
  | case2 x pc => simp [BeginsWith] at hbegins
  | case3 pc y s ih =>
      simp only [BeginsWith, List.map_cons, List.cons_prefix_cons, true_and] at hbegins
      simpa using ih hbegins
  | case4 x pc y s hne => simp [BeginsWith, List.cons_prefix_cons, hne] at hbegins

private theorem matchUpper_other (hpc : pc ≠ []) (hhead : (s.map toUpper).head? ≠ pc.head?) :
    matchUpper pc s = (false, s) := by
  rcases pc with _ | ⟨x, pc⟩
  · exact absurd rfl hpc
  · rcases s with _ | ⟨y, s⟩
    · rfl
    · have hne : ¬ x = toUpper y := fun heq => hhead (by simp [heq])
      simp [matchUpper, hne]

private theorem methodLoop_isSome : (methodLoop names k s).isSome ↔
    ∃ i name, names[i]? = some name ∧ BeginsWith (literal name) (takenOff (names.take i) s) := by
  induction names generalizing k s with
  | nil => simp [methodLoop]
  | cons name names ih =>
      rw [methodLoop]
      by_cases hbegins : BeginsWith (literal name) s
      · rw [if_pos (matchUpper_ok.mpr hbegins)]
        simpa using ⟨0, name, rfl, hbegins⟩
      · rw [if_neg (matchUpper_ok.not.mpr hbegins), ih]
        constructor
        · rintro ⟨i, name', hname, hbegins'⟩
          exact ⟨i + 1, name', hname, hbegins'⟩
        · rintro ⟨i, name', hname, hbegins'⟩
          cases i with
          | zero =>
              cases hname
              exact absurd hbegins' hbegins
          | succ i => exact ⟨i, name', hname, hbegins'⟩

private theorem methodLoop_first (hname : names[i]? = some name) (hne : ∀ n ∈ names, literal n ≠ [])
    (hfirst : ∀ n ∈ names.take i, (literal n).head? ≠ (literal name).head?)
    (hbegins : BeginsWith (literal name) s) :
    methodLoop names k s = some (k + i, s.drop (literal name).length) := by
  induction names generalizing k i with
  | nil => simp at hname
  | cons n names ih =>
      cases i with
      | zero =>
          cases hname
          rw [methodLoop, if_pos (matchUpper_ok.mpr hbegins), matchUpper_rest hbegins]
          rfl
      | succ i =>
          have hmem : name ∈ names := List.mem_of_getElem? hname
          have hhead : (s.map toUpper).head? = (literal name).head? := by
            obtain ⟨rest, hrest⟩ := hbegins
            rw [← hrest]
            exact List.head?_append_of_ne_nil _ (hne name (List.mem_cons_of_mem _ hmem))
          have hother := matchUpper_other (hne n (List.mem_cons_self ..))
            (hhead ▸ (hfirst n (by simp)).symm)
          have hrest := ih (k := k + 1) hname (fun n' h => hne n' (List.mem_cons_of_mem _ h))
            (fun n' h => hfirst n' (by simp [h]))
          rw [methodLoop, hother, if_neg (by simp), hrest, Nat.add_assoc, Nat.add_comm 1]

/-- The texts on which the loop goes astray: `PUT`, and an entry behind what the ones before it take
off, where the text begins with none. -/
def MissesMethod (s : List UInt8) : Prop :=
  BeginsWith (literal "PUT") s ∨
    (∀ name ∈ http11MethodArray, ¬ BeginsWith (literal name) s) ∧
      ∃ i name, http11MethodArray[i]? = some name ∧
        BeginsWith (literal name) (takenOff (http11MethodArray.take i) s)

private theorem http11MethodArray_prefixFree : ∀ i < 8, ∀ j < 8,
    literal (http11MethodArray.getD i "") <+: literal (http11MethodArray.getD j "") → i = j := by
  decide

theorem BeginsWith.unique {i j : Nat} {name name' : String} (hi : http11MethodArray[i]? = some name)
    (hj : http11MethodArray[j]? = some name') (hname : BeginsWith (literal name) s)
    (hname' : BeginsWith (literal name') s) : i = j := by
  have hget : ∀ {i : Nat} {name : String}, http11MethodArray[i]? = some name →
      i < 8 ∧ http11MethodArray.getD i "" = name := by
    intro i name h
    have hlt : i < http11MethodArray.length := (List.getElem?_eq_some_iff.mp h).1
    exact ⟨hlt, by rw [List.getD, h]; rfl⟩
  obtain ⟨hi', rfl⟩ := hget hi
  obtain ⟨hj', rfl⟩ := hget hj
  rcases List.prefix_or_prefix_of_prefix hname hname' with h | h
  · exact http11MethodArray_prefixFree i hi' j hj' h
  · exact (http11MethodArray_prefixFree j hj' i hi' h).symm

private theorem methodLoop_put (hput : BeginsWith (literal "PUT") s) :
    methodLoop http11MethodArray 0 s = none := by
  obtain ⟨x, y, z, s, rfl, hx, hy, hz⟩ : ∃ x y z rest, s = x :: y :: z :: rest ∧
      toUpper x = ch 'P' ∧ toUpper y = ch 'U' ∧ toUpper z = ch 'T' := by
    rcases s with _ | ⟨x, _ | ⟨y, _ | ⟨z, s⟩⟩⟩ <;>
      simp [BeginsWith, literal, List.cons_prefix_cons] at hput
    exact ⟨x, y, z, s, rfl, hput.1.symm, hput.2.1.symm, hput.2.2.symm⟩
  simp [methodLoop, http11MethodArray, literal, matchUpper, hx, hy, ch]

theorem methodLoop_exact {i : Nat} {name : String} (hname : http11MethodArray[i]? = some name)
    (hput : name ≠ "PUT") (hbegins : BeginsWith (literal name) s) :
    methodLoop http11MethodArray 0 s = some (i, s.drop (literal name).length) := by
  have hfirst : ∀ i < 8, http11MethodArray.getD i "" ≠ "PUT" →
      ∀ n ∈ http11MethodArray.take i,
        (literal n).head? ≠ (literal (http11MethodArray.getD i "")).head? := by decide
  have hlt : i < 8 := (List.getElem?_eq_some_iff.mp hname).1
  have hget : http11MethodArray.getD i "" = name := by rw [List.getD, hname]; rfl
  have hloop := methodLoop_first (k := 0) hname (by decide) (by
    have hheads := hfirst i hlt
    rw [hget] at hheads
    exact hheads hput) hbegins
  rwa [Nat.zero_add] at hloop

end Text

variable {h : Heap} {request : Stringaa}

/-- `http11_method` returns 1 with method `i` exactly where the text begins with entry `i`, whose
characters it consumes, and otherwise 0 with the read position unchanged. -/
def RecognisesMethods (h : Heap) (http : Http11Http) (request : Stringaa) : Prop :=
  ∃ is http' request', http11Method h http request = some (is, http', request') ∧
    (∀ i name, http11MethodArray[i]? = some name →
      ((is = true ∧ http'.request.requestLine.method = i) ↔
        Text.BeginsWith (literal name) (request.unread h))) ∧
    (is = true → ∃ name, http11MethodArray[http'.request.requestLine.method]? = some name ∧
      request'.readPos = request.readPos + (literal name).length) ∧
    (is = false → request'.readPos = request.readPos)

private theorem http11Method_eq (hread : Readable h request) (http : Http11Http) :
    http11Method h http request =
      match Text.methodLoop http11MethodArray 0 (request.unread h) with
      | some (i, rest) => some (true, http.setMethod i,
          request.seek (request.readPos + ((request.unread h).length - rest.length)))
      | none => some (false, http, request) := by
  have hself : request.seek request.readPos = request := rfl
  have hreads := method_reads http request ⟨request.readPos, request.unread h⟩ hread.shows
  rw [ReadsAt, Text.method, find, hself] at hreads
  cases hloop : Text.methodLoop http11MethodArray 0 (request.unread h) with
  | none => simpa [hloop, Http11Http.writeAll, hself] using hreads
  | some found => simpa [hloop, Http11Http.writeAll, Http11Http.write, Cursor.to] using hreads

/-- Methods are recognised exactly, but for `PUT` and for methods behind pieces of other ones. -/
theorem http11Method_recognises (hread : Readable h request) (http : Http11Http) :
    RecognisesMethods h http request ↔ ¬ Text.MissesMethod (request.unread h) := by
  have heq := http11Method_eq hread http
  by_cases hany : ∃ (i : Nat) (name : String), http11MethodArray[i]? = some name ∧
      Text.BeginsWith (literal name) (request.unread h)
  · obtain ⟨i, name, hname, hbegins⟩ := hany
    by_cases hput : name = "PUT"
    · -- The text is refused.
      subst hput
      rw [Text.methodLoop_put hbegins] at heq
      refine iff_of_false ?_ (not_not.mpr (.inl hbegins))
      rintro ⟨is, http', request', hrun, hiff, -⟩
      rw [heq, Option.some.injEq, Prod.mk.injEq] at hrun
      have htrue := ((hiff i _ hname).mpr hbegins).1
      rw [← hrun.1] at htrue
      cases htrue
    · rw [Text.methodLoop_exact hname hput hbegins] at heq
      refine iff_of_true ⟨_, _, _, heq, fun j name' hname' => ?_, fun _ => ⟨name, hname, ?_⟩, ?_⟩ ?_
      · constructor
        · rintro ⟨-, rfl⟩
          rwa [← Option.some.inj (hname.symm.trans hname')]
        · exact fun hbegins' => ⟨rfl, Text.BeginsWith.unique hname hname' hbegins hbegins'⟩
      · have hle := hbegins.length_le
        rw [List.length_map] at hle
        simp only [seek_readPos, List.length_drop]
        omega
      · intro hfalse
        cases hfalse
      · rintro (hput' | ⟨hnone, -⟩)
        · have hsame := Text.BeginsWith.unique (j := 4) hname rfl hbegins hput'
          rw [hsame] at hname
          exact hput (Option.some.inj hname).symm
        · exact hnone name (List.mem_of_getElem? hname) hbegins
  · have hnone : ∀ name ∈ http11MethodArray, ¬ Text.BeginsWith (literal name)
      (request.unread h) := by
      intro name hmem hbegins
      obtain ⟨i, hname⟩ := List.mem_iff_getElem?.mp hmem
      exact hany ⟨i, name, hname, hbegins⟩
    have hput : ¬ Text.BeginsWith (literal "PUT") (request.unread h) := hnone "PUT" (by decide)
    have hmisses : Text.MissesMethod (request.unread h) ↔
        (Text.methodLoop http11MethodArray 0 (request.unread h)).isSome := by
      rw [Text.MissesMethod, Text.methodLoop_isSome]
      exact ⟨fun h => (h.resolve_left hput).2, fun h => .inr ⟨hnone, h⟩⟩
    rw [hmisses]
    cases hloop : Text.methodLoop http11MethodArray 0 (request.unread h) with
    | none =>
        rw [hloop] at heq
        refine iff_of_true ⟨_, _, _, heq, fun i name hname => ?_, ?_, fun _ => rfl⟩ (by simp)
        · exact iff_of_false (fun h => by cases h.1)
            (hnone name (List.mem_of_getElem? hname))
        · intro hfalse
          cases hfalse
    | some found =>
        rw [hloop] at heq
        refine iff_of_false ?_ (by simp)
        rintro ⟨is, http', request', hrun, hiff, hrest, -⟩
        rw [heq, Option.some.injEq, Prod.mk.injEq] at hrun
        obtain ⟨name, hname, -⟩ := hrest hrun.1.symm
        exact hany ⟨_, name, hname, (hiff _ name hname).mp ⟨hrun.1.symm, rfl⟩⟩

theorem http11Method_recognises_get :
    RecognisesMethods (.ofText (literal "GET /")) {} (.ofText 0 5) :=
  (http11Method_recognises ⟨by decide, by decide⟩ {}).mpr (by
    rintro (hput | ⟨hnone, -⟩)
    · exact absurd hput (by decide)
    · exact hnone "GET" (by decide) (by decide))

/-- `PUT` is refused. -/
theorem http11Method_put : ¬ ∀ (h : Heap) (http : Http11Http) (request : Stringaa),
    Readable h request → RecognisesMethods h http request := by
  intro hclaim
  obtain ⟨is, http', request', hrun, hiff, -⟩ :=
    hclaim (.ofText (literal "PUT /")) {} (.ofText 0 5) ⟨by decide, by decide⟩
  have hfound := (hiff 4 "PUT" rfl).mpr (by decide)
  have hfalse : (http11Method (.ofText (literal "PUT /")) {} (.ofText 0 5)).map Prod.fst =
      some false := by decide
  rw [hrun, Option.map_some, Option.some.injEq] at hfalse
  exact absurd (hfound.1.symm.trans hfalse) (by decide)

end Httpaa
