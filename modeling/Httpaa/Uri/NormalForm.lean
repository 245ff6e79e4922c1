import Httpaa.Uri.Passes

/-!
# The normal form of a path

Section 5.2 of RFC 2396 on the segments of an absolute path: a stack from which `..` takes what is
on top. The normal form is the path itself where it has no dot segments, and shorter elsewhere.
-/

namespace Httpaa.Text

variable {path normal s : List UInt8} {segs stack stack' : List (List UInt8)}

/-- What a segment does to those in front of it, the last one first: `.` is dropped, and `..` takes
the segment in front of it along, if there is one. -/
def cancel (stack : List (List UInt8)) (s : List UInt8) : Option (List (List UInt8)) :=
  if s = [dot] then some stack
  else if s = parent then stack.tail?
  else some (s :: stack)

/-- The path without `.` and without `<segment>/..`. A dot segment at the end leaves the slash in
front of it. There is no normal form where a `..` climbs above the root. -/
def normalForm (path : List UInt8) : Option (List UInt8) := do
  let segs := path.tail.splitOn slash
  let stack ← segs.foldlM cancel []
  let stack := if segs.getLast? = some [dot] ∨ segs.getLast? = some parent then
    [] :: stack else stack
  return slash :: [slash].intercalate stack.reverse

/-- `/a/..b/../c/.` -/
example : normalForm [slash, ch 'a', slash, dot, dot, ch 'b', slash, dot, dot, slash, ch 'c', slash,
    dot] = some [slash, ch 'a', slash, ch 'c', slash] := by decide

theorem normalForm_ne_nil (hnormal : normalForm path = some normal) : normal ≠ [] := by
  obtain ⟨stack, -, hnormal⟩ := Option.bind_eq_some_iff.mp hnormal
  cases hnormal
  exact List.cons_ne_nil _ _

def weight (segs : List (List UInt8)) : Nat := (segs.map fun s => s.length + 1).sum

private theorem weight_cons (s : List UInt8) (segs : List (List UInt8)) :
    weight (s :: segs) = s.length + 1 + weight segs := rfl

private theorem weight_reverse (segs : List (List UInt8)) : weight segs.reverse = weight segs := by
  simp [weight, List.sum_reverse]

private theorem length_intercalate (hne : segs ≠ []) :
    ([slash].intercalate segs).length + 1 = weight segs := by
  induction segs with
  | nil => exact absurd rfl hne
  | cons s segs ih =>
      cases segs with
      | nil => simp [weight]
      | cons s' segs =>
          have hrest := ih (by simp)
          rw [List.intercalate_cons_of_ne_nil (by simp), weight_cons, ← hrest]
          simp only [List.length_append, List.length_cons, List.length_nil]
          omega

private theorem weight_cancel (hcancel : segs.foldlM cancel stack = some stack') :
    weight stack' + 2 * (segs.filter fun s => s = [dot] ∨ s = parent).length ≤
      weight stack + weight segs := by
  induction segs generalizing stack with
  | nil =>
      rw [List.foldlM_nil] at hcancel
      cases hcancel
      simp [weight]
  | cons s segs ih =>
      obtain ⟨next, hstep, hrest⟩ := Option.bind_eq_some_iff.mp hcancel
      have hle := ih hrest
      rw [cancel] at hstep
      rw [weight_cons]
      split at hstep
      · rename_i hdot
        cases hstep
        rw [List.filter_cons_of_pos (by simp [hdot])]
        simp only [hdot, List.length_cons, List.length_nil]
        omega
      · rename_i hdot
        split at hstep
        · rename_i hparent
          rw [List.filter_cons_of_pos (by simp [hparent])]
          cases stack with
          | nil => cases hstep
          | cons t stack =>
              cases hstep
              have hlength : s.length = 2 := by rw [hparent]; rfl
              rw [weight_cons]
              simp only [List.length_cons]
              omega
        · rename_i hparent
          cases hstep
          rw [List.filter_cons_of_neg (by simp [hdot, hparent])]
          rw [weight_cons] at hle
          omega

private theorem cancel_noDots (hdot : [dot] ∉ segs) (hparent : parent ∉ segs) :
    segs.foldlM cancel stack = some (segs.reverse ++ stack) := by
  induction segs generalizing stack with
  | nil => rfl
  | cons s segs ih =>
      simp only [List.mem_cons, not_or] at hdot hparent
      rw [List.foldlM_cons, cancel, if_neg (Ne.symm hdot.1), if_neg (Ne.symm hparent.1)]
      simp [ih hdot.2 hparent.2]

private theorem noDots_root (rest : List UInt8) :
    NoDots (slash :: rest) ↔ [dot] ∉ rest.splitOn slash ∧ parent ∉ rest.splitOn slash := by
  simp [NoDots, List.splitOn_cons_eq_if_modifyHead, parent]

theorem normalForm_noDots (hroot : path.head? = some slash) (hdots : NoDots path) :
    normalForm path = some path := by
  obtain ⟨rest, rfl⟩ := List.head?_eq_some_iff.mp hroot
  obtain ⟨hdot, hparent⟩ := (noDots_root rest).mp hdots
  have hlast : ¬ ((rest.splitOn slash).getLast? = some [dot] ∨
      (rest.splitOn slash).getLast? = some parent) := by
    rintro (h | h)
    · exact hdot (List.mem_of_getLast? h)
    · exact hparent (List.mem_of_getLast? h)
  simp [normalForm, cancel_noDots hdot hparent, hlast, List.intercalate_splitOn]

theorem normalForm_dots (hroot : path.head? = some slash) (hdots : ¬ NoDots path)
    (hnormal : normalForm path = some normal) : normal.length < path.length := by
  obtain ⟨rest, rfl⟩ := List.head?_eq_some_iff.mp hroot
  have hweight : rest.length + 1 = weight (rest.splitOn slash) := by
    rw [← length_intercalate (List.splitOn_ne_nil _ _), List.intercalate_splitOn]
  have hcount : 0 < ((rest.splitOn slash).filter fun s => s = [dot] ∨ s = parent).length := by
    rw [List.length_pos_iff_exists_mem]
    rw [noDots_root, not_and_or, not_not, not_not] at hdots
    rcases hdots with h | h
    · exact ⟨_, List.mem_filter.mpr ⟨h, by simp⟩⟩
    · exact ⟨_, List.mem_filter.mpr ⟨h, by simp⟩⟩
  obtain ⟨stack, hstack, hnormal'⟩ := Option.bind_eq_some_iff.mp hnormal
  have hle := weight_cancel hstack
  rw [show weight [] = 0 from rfl, List.tail_cons] at hle
  simp only [Option.pure_def, Option.some.injEq] at hnormal'
  have hshort : ∀ left : List (List UInt8), weight left ≤ weight stack + 1 →
      ([slash].intercalate left.reverse).length ≤ weight stack := by
    intro left hleft
    rw [← weight_reverse] at hleft
    cases hempty : left.reverse with
    | nil => simp
    | cons s left' =>
        rw [hempty] at hleft
        have hlength := @length_intercalate (s :: left') (by simp)
        omega
  have hlength := hshort _ (show weight (if (rest.splitOn slash).getLast? = some [dot] ∨
      (rest.splitOn slash).getLast? = some parent then [] :: stack else stack) ≤ _ by
    split
    · rw [weight_cons, List.length_nil]
      omega
    · omega)
  rw [← hnormal', List.length_cons, List.length_cons, List.tail_cons]
  omega

end Httpaa.Text
