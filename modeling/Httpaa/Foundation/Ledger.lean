import Mathlib.Data.Set.Insert
import Mathlib.Logic.Function.Basic

/-!
# Ledgers of blocks

Owners take blocks. What an owner held before it goes back, or is forgotten by it. In a balanced
ledger every live block has one owner or is forgotten, and there is no other.
-/

namespace Httpaa

/-- Who holds which block, the blocks that have been handed out and have not gone back, and those
of them that their owner has forgotten. -/
structure Ledger (ι β : Type*) where
  owned : ι → Option β
  live : Set β
  lost : Set β

namespace Ledger

variable {ι β : Type*} {L : Ledger ι β} {i j : ι} {b : β} {taken : Option β}

structure Balanced (L : Ledger ι β) : Prop where
  one_owner : ∀ {i j : ι} {b : β}, L.owned i = some b → L.owned j = some b → i = j
  not_lost : ∀ {i : ι} {b : β}, L.owned i = some b → b ∉ L.lost
  live_iff : ∀ b, b ∈ L.live ↔ (∃ i, L.owned i = some b) ∨ b ∈ L.lost

def empty : Ledger ι β := ⟨fun _ => none, ∅, ∅⟩

theorem empty_balanced : (empty : Ledger ι β).Balanced where
  one_owner hi := by cases hi
  not_lost hi := by cases hi
  live_iff b := by simp [empty]

theorem Balanced.live (h : L.Balanced) (howned : L.owned i = some b) : b ∈ L.live :=
  (h.live_iff b).mpr (.inl ⟨i, howned⟩)

variable [DecidableEq ι]

/-- An owner now holds `taken`; what it held before goes back if `back` is set, and is forgotten
otherwise. -/
def settle (L : Ledger ι β) (i : ι) (taken : Option β) (back : Bool) : Ledger ι β where
  owned := Function.update L.owned i taken
  live := {b | taken = some b ∨ b ∈ L.live ∧ ¬ (back = true ∧ L.owned i = some b)}
  lost := {b | b ∈ L.lost ∨ back = false ∧ L.owned i = some b}

theorem Balanced.settle_one_owner (h : L.Balanced) (htaken : ∀ b ∈ taken, b ∉ L.live) (back : Bool)
    {k l : ι} (hk : (L.settle i taken back).owned k = some b)
    (hl : (L.settle i taken back).owned l = some b) : k = l := by
  simp only [settle, Function.update_apply] at hk hl
  split at hk
  · rename_i hki
    split at hl
    · rename_i hli
      exact hki.trans hli.symm
    · exact absurd (h.live hl) (htaken b hk)
  · split at hl
    · exact absurd (h.live hk) (htaken b hl)
    · exact h.one_owner hk hl

theorem Balanced.settle_not_lost (h : L.Balanced) (htaken : ∀ b ∈ taken, b ∉ L.live) (back : Bool)
    {k : ι} (hk : (L.settle i taken back).owned k = some b) :
    b ∉ (L.settle i taken back).lost := by
  simp only [settle, Function.update_apply] at hk
  split at hk
  · have hfresh := htaken b hk
    rintro (hlost | ⟨-, howned⟩)
    · exact hfresh ((h.live_iff b).mpr (.inr hlost))
    · exact hfresh (h.live howned)
  · rename_i hki
    rintro (hlost | ⟨-, howned⟩)
    · exact h.not_lost hk hlost
    · exact hki (h.one_owner hk howned)

/-- The books stay balanced as long as only blocks are taken that are not in use. -/
theorem Balanced.settle (h : L.Balanced) (htaken : ∀ b ∈ taken, b ∉ L.live) (back : Bool) :
    (L.settle i taken back).Balanced := by
  refine ⟨fun hk hl => h.settle_one_owner htaken back hk hl,
    fun hk => h.settle_not_lost htaken back hk, fun b => ?_⟩
  have hlive := h.live_iff b
  simp only [Ledger.settle, Function.update_apply, Set.mem_ofPred_eq]
  constructor
  · rintro (htook | ⟨hin, hkept⟩)
    · exact .inl ⟨i, by rw [if_pos rfl, htook]⟩
    · rcases hlive.mp hin with ⟨k, hk⟩ | hlost
      · by_cases hki : k = i
        · subst hki
          refine .inr (.inr ⟨?_, hk⟩)
          exact Bool.eq_false_iff.mpr fun hback => hkept ⟨hback, hk⟩
        · exact .inl ⟨k, by rw [if_neg hki, hk]⟩
      · exact .inr (.inl hlost)
  · rintro (⟨k, hk⟩ | hlost | ⟨hback, howned⟩)
    · split at hk
      · exact .inl hk
      · rename_i hki
        exact .inr ⟨h.live hk, fun hgone => hki (h.one_owner hk hgone.2)⟩
    · refine .inr ⟨hlive.mpr (.inr hlost), fun hgone => ?_⟩
      exact h.not_lost hgone.2 hlost
    · refine .inr ⟨h.live howned, fun hgone => ?_⟩
      rw [hback] at hgone
      exact Bool.false_ne_true hgone.1

end Ledger

end Httpaa
