/-
  Computations in `Except` that return a result with a given property, or stop with an error of
  which something is known.

  `Allows E x Q` is the general notion: a result of `x` has `Q`, and an error is one that `E` allows.
  Its rules follow the shape of a `do` block: `ok` and `stop` for the two ends, `bind` for a step and
  the rest, `mono` where more is known than is asked.  The other two are the extremes of it.

  1. `Returns e₀` is total correctness up to the error `e₀`: every other error is ruled out.
  2. `Avoids e₀` is its complement: only that error is ruled out.

  The two together say that there is a result (`Avoids.exists_ok`).
-/
import Mathlib.Tactic.Common

namespace OsCodes

variable {ε α β : Type}

/-- A sequence that returns is two computations that return. -/
theorem bind_eq_ok {x : Except ε α} {f : α → Except ε β} {b : β} :
    (x >>= f) = .ok b ↔ ∃ a, x = .ok a ∧ f a = .ok b := by
  cases x with
  | ok a => exact ⟨fun h => ⟨a, rfl, h⟩, fun ⟨_, heq, h⟩ => Except.ok.inj heq ▸ h⟩
  | error e => exact ⟨nofun, fun ⟨_, heq, _⟩ => nomatch heq⟩

/-- To return is to have a result that is not thrown away. -/
theorem toOption_eq_some {x : Except ε α} {a : α} : x.toOption = some a ↔ x = .ok a := by
  cases x with
  | ok b => simp [Except.toOption]
  | error e => simp [Except.toOption]

/-- `x` returns a result with `Q`, or stops with an error that `E` allows. -/
def Allows (E : ε → Prop) (x : Except ε α) (Q : α → Prop) : Prop :=
  match x with
  | .ok a => Q a
  | .error e => E e

namespace Allows

variable {E : ε → Prop} {x : Except ε α} {Q : α → Prop}

theorem ok {a : α} (h : Q a) : Allows E (.ok a) Q := h

theorem stop {e : ε} (h : E e) : Allows E (.error e : Except ε α) Q := h

theorem mono {Q' : α → Prop} (h : Allows E x Q) (hq : ∀ a, Q a → Q' a) : Allows E x Q' := by
  cases x with
  | ok a => exact hq a h
  | error e => exact h

/-- **Sequencing**: what the first half gives is what the second may assume. -/
theorem bind {f : α → Except ε β} {Q' : β → Prop} (h : Allows E x Q)
    (hf : ∀ a, Q a → Allows E (f a) Q') : Allows E (x >>= f) Q' := by
  cases x with
  | ok a => exact hf a h
  | error e => exact h

theorem of_ok {a : α} (h : Allows E x Q) (hx : x = .ok a) : Q a := by
  rw [hx] at h
  exact h

/-- **Sequencing**, where nothing is said about the first result. -/
theorem skip {f : α → Except ε β} {Q' : β → Prop} (hf : ∀ a, Allows (fun _ => True) (f a) Q') :
    Allows (fun _ => True) (x >>= f) Q' := by
  cases x with
  | ok a => exact hf a
  | error e => trivial

/-- **Nothing is asked.** -/
theorem any : Allows (fun _ => True) x fun _ => True := by
  cases x with
  | ok a => trivial
  | error e => trivial

/-- What holds of any result holds as well. -/
theorem and {Q' : α → Prop} (h : Allows E x Q) (h' : Allows (fun _ => True) x Q') :
    Allows E x fun a => Q a ∧ Q' a := by
  cases x with
  | ok a => exact ⟨h, h'⟩
  | error e => exact h

/-- **No error is allowed**: there is a result. -/
theorem exists_ok (h : Allows (fun _ => False) x Q) : ∃ a, x = .ok a ∧ Q a := by
  cases x with
  | ok a => exact ⟨a, rfl, h⟩
  | error e => exact h.elim

end Allows

/-- `x` returns a result with `Q`, or stops with `e₀`. -/
abbrev Returns (e₀ : ε) (x : Except ε α) (Q : α → Prop) : Prop := Allows (· = e₀) x Q

theorem Returns.stop {e₀ : ε} {Q : α → Prop} : Returns e₀ (.error e₀ : Except ε α) Q :=
  Allows.stop rfl

/-- `x` does not stop with `e₀`, and a result has `Q`. -/
abbrev Avoids (e₀ : ε) (x : Except ε α) (Q : α → Prop) : Prop := Allows (· ≠ e₀) x Q

/-- **No error is left**: there is a result. -/
theorem Avoids.exists_ok {e₀ : ε} {x : Except ε α} {Q Q' : α → Prop} (h : Avoids e₀ x Q)
    (h' : Returns e₀ x Q') : ∃ a, x = .ok a ∧ Q a ∧ Q' a := by
  cases x with
  | ok a => exact ⟨a, rfl, h, h'⟩
  | error e => exact absurd h' h

end OsCodes
