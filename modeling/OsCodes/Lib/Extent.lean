/-
  Sets of offsets, and where they end.

  A set is a test on offsets, and `mark` adds a range to it, as a write does.  `Ends W z` says that
  `z` is one past the last offset in `W`, and 0 where there is none.  Adding `n` to the end is right
  for a range of `n` offsets exactly when it starts there or is empty (`Ends.mark_iff`).
-/
import Mathlib.Tactic.Common

namespace OsCodes.Extent

variable {W : Nat → Bool} {o n z : Nat}

/-- The set with the range of `n` offsets from `o` on. -/
def mark (W : Nat → Bool) (o n : Nat) : Nat → Bool := fun p => W p || decide (o ≤ p ∧ p < o + n)

theorem mark_eq_true {p : Nat} : mark W o n p = true ↔ W p = true ∨ o ≤ p ∧ p < o + n := by
  simp only [mark, Bool.or_eq_true, decide_eq_true_eq]

theorem mark_zero : mark W o 0 = W := by
  funext p
  rw [Bool.eq_iff_iff, mark_eq_true]
  constructor
  · rintro (hp | hp)
    · exact hp
    · omega
  · exact .inl

/-- `z` is one past the last offset of the set. -/
structure Ends (W : Nat → Bool) (z : Nat) : Prop where
  below : ∀ p, W p = true → p < z
  last : 0 < z → W (z - 1) = true

namespace Ends

theorem empty : Ends (fun _ => false) 0 where
  below p hp := by cases hp
  last h := absurd h (by omega)

/-- **The end moves by the length** of a range that starts at the end, and of no other. -/
theorem mark_iff (h : Ends W z) : Ends (mark W o n) (z + n) ↔ n = 0 ∨ o = z := by
  constructor
  · intro hm
    rw [or_iff_not_imp_left]
    intro hn
    have hle := hm.below (o + n - 1) (mark_eq_true.mpr (.inr (by omega)))
    rcases mark_eq_true.mp (hm.last (by omega)) with hold | hnew
    · have := h.below _ hold
      omega
    · omega
  · rintro (rfl | rfl)
    · rw [mark_zero]
      exact h
    · constructor
      · intro p hp
        rcases mark_eq_true.mp hp with hold | hnew
        · have := h.below p hold
          omega
        · omega
      · intro hpos
        rw [mark_eq_true]
        by_cases hn : n = 0
        · subst hn
          exact .inl (h.last (by omega))
        · right
          omega

end Ends

end OsCodes.Extent
