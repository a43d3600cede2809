/-
  Totals over the threads of a system.

  Every thread is in some state `p t` and contributes `F (p t)`: 1 if it is in an operation, or
  what it may still use of a shared budget.  A step that moves one thread changes the total by the
  difference of that thread's two contributions (`total_update`).

  Such a total bounds what all threads together may still take, where each has been promised its
  share; `total_le_mul` gives the bound when every share is at most `m`.
-/
import Mathlib.Algebra.BigOperators.Group.Finset.Basic
import Mathlib.Algebra.BigOperators.Ring.Finset
import Mathlib.Algebra.Order.BigOperators.Group.Finset
import Mathlib.Data.Fintype.Basic

namespace OsCodes

variable {τ β : Type}

/-- A thread in state `y` is the one that was moved there, or was there before. -/
theorem update_eq_cases [DecidableEq τ] {p : τ → β} {t u : τ} {x y : β}
    (h : Function.update p t x u = y) :
    u = t ∧ x = y ∨ u ≠ t ∧ p u = y := by
  by_cases hu : u = t
  · rw [hu, Function.update_self] at h
    exact .inl ⟨hu, h⟩
  · rw [Function.update_of_ne hu] at h
    exact .inr ⟨hu, h⟩

variable [Fintype τ]

/-- The contributions of all threads. -/
def total (F : β → Nat) (p : τ → β) : Nat := ∑ t, F (p t)

variable {F : β → Nat} {p q : τ → β}

theorem total_congr (h : ∀ t, F (q t) = F (p t)) : total F q = total F p :=
  Finset.sum_congr rfl fun t _ => h t

/-- Moving one thread exchanges its contribution. -/
theorem total_update [DecidableEq τ] (F : β → Nat) (p : τ → β) (t : τ) (x : β) :
    total F (Function.update p t x) + F (p t) = total F p + F x := by
  have hrest : ∑ u ∈ Finset.univ.erase t, F (Function.update p t x u) =
      ∑ u ∈ Finset.univ.erase t, F (p u) :=
    Finset.sum_congr rfl fun u hu => by rw [Function.update_of_ne (Finset.ne_of_mem_erase hu)]
  have hnew := Finset.sum_erase_add Finset.univ (fun u => F (Function.update p t x u))
    (Finset.mem_univ t)
  have hold := Finset.sum_erase_add Finset.univ (fun u => F (p u)) (Finset.mem_univ t)
  simp only [Function.update_self] at hnew
  unfold total
  omega

theorem le_total (t : τ) : F (p t) ≤ total F p :=
  Finset.single_le_sum (f := fun u => F (p u)) (fun _ _ => Nat.zero_le _) (Finset.mem_univ t)

theorem total_eq_zero : total F p = 0 ↔ ∀ t, F (p t) = 0 := by
  simp only [total, Finset.sum_eq_zero_iff, Finset.mem_univ, true_implies]

/-- Who may use `m` each, in all. -/
theorem total_le_mul {G : β → Nat} {m : Nat} (h : ∀ x, F x ≤ G x * m) :
    total F p ≤ total G p * m := by
  rw [total, total, Finset.sum_mul]
  exact Finset.sum_le_sum fun t _ => h (p t)

end OsCodes
