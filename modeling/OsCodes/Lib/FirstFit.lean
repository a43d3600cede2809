/-
  First fit over a bitmap.

  The search looks at one candidate position after the other and at the cells behind it until it
  has enough free ones or meets one that is taken.  What a cell holds comes from a `probe`, which
  may also refuse to answer (`none`): a search over an array that must not leave it is the search
  with a probe that refuses outside.  `firstFit_cases` describes every outcome.

  Everything about the search follows from `freeRun_cases`, an induction over the turns of the
  inner loop, and `firstFit_cases`, one over the candidates.  There are three outcomes: the first
  candidate with room, none although the probe has answered every time, or a probe that refused.
  The loops that mark the cells afterwards are given with the bounds in which they leave other
  cells alone.
-/
import Mathlib.Tactic.Common
import Mathlib.Logic.Function.Basic

namespace OsCodes

/-! ## The search -/

/-- The inner loop at candidate `i`, `n` turns before it has enough: the number `x` of free cells
    it has counted when it stops. -/
def freeRun (probe : Nat → Option Bool) (i : Nat) : Nat → Nat → Option Nat
  | 0, x => some x
  | n + 1, x => do
    let free ← probe (i + x)
    if free then freeRun probe i n (x + 1) else some x

/-- The outer loop over `n` candidates from `i` on: the first with `req` free cells. -/
def firstFit (probe : Nat → Option Bool) (req : Int) : Nat → Nat → Option (Option Nat)
  | 0, _ => some none
  | n + 1, i => do
    let x ← freeRun probe i req.toNat 0
    if (x : Int) = req then some (some i) else firstFit probe req n (i + 1)

section Search

variable {probe : Nat → Option Bool}

/-- `r` free cells from `i` on. -/
def Fits (probe : Nat → Option Bool) (i r : Nat) : Prop := ∀ x, x < r → probe (i + x) = some true

/-- The run of free cells from `i` on ends at a taken one too early. -/
def Blocked (probe : Nat → Option Bool) (i r : Nat) : Prop :=
  ∃ x, x < r ∧ Fits probe i x ∧ probe (i + x) = some false

/-- The run of free cells from `i` on ends where the probe refuses. -/
def Refused (probe : Nat → Option Bool) (i r : Nat) : Prop :=
  ∃ x, x < r ∧ Fits probe i x ∧ probe (i + x) = none

/-- What stops the run stops it once. -/
theorem Blocked.not_fits {i r : Nat} (h : Blocked probe i r) : ¬ Fits probe i r := by
  obtain ⟨x, hx, -, hfalse⟩ := h
  intro hf
  rw [hf x hx] at hfalse
  cases hfalse

/-- A run that is stopped is not refused. -/
theorem Blocked.not_refused {i r : Nat} (h : Blocked probe i r) : ¬ Refused probe i r := by
  obtain ⟨x, -, hf, hfalse⟩ := h
  rintro ⟨y, -, hf', hnone⟩
  rcases Nat.lt_trichotomy x y with hlt | rfl | hlt
  · rw [hf' x hlt] at hfalse
    cases hfalse
  · rw [hfalse] at hnone
    cases hnone
  · rw [hf y hlt] at hnone
    cases hnone

theorem fits_succ {i x : Nat} (hf : Fits probe i x) (hx : probe (i + x) = some true) :
    Fits probe i (x + 1) := by
  intro y hy
  by_cases hyx : y = x
  · rw [hyx]
    exact hx
  · exact hf y (by omega)

/-- **The inner loop** counts to the end, or stops at a taken cell, or is refused. -/
theorem freeRun_cases (probe : Nat → Option Bool) (i : Nat) : ∀ n x, Fits probe i x →
    freeRun probe i n x = some (x + n) ∧ Fits probe i (x + n) ∨
    (∃ y, y < x + n ∧ freeRun probe i n x = some y ∧ Fits probe i y ∧
      probe (i + y) = some false) ∨
    ∃ y, y < x + n ∧ freeRun probe i n x = none ∧ Fits probe i y ∧ probe (i + y) = none := by
  intro n
  induction n with
  | zero => exact fun x hf => .inl ⟨rfl, hf⟩
  | succ n ih =>
    intro x hf
    cases hp : probe (i + x) with
    | none =>
      refine .inr (.inr ⟨x, by omega, ?_, hf, hp⟩)
      rw [freeRun, hp]
      rfl
    | some free =>
      cases free with
      | false =>
        refine .inr (.inl ⟨x, by omega, ?_, hf, hp⟩)
        rw [freeRun, hp]
        rfl
      | true =>
        have hstep : freeRun probe i (n + 1) x = freeRun probe i n (x + 1) := by
          rw [freeRun, hp]
          rfl
        rw [hstep, show x + (n + 1) = x + 1 + n by omega]
        exact ih (x + 1) (fits_succ hf hp)

/-- **The search** over `n` candidates from `i₀` on, for `r` cells. -/
theorem firstFit_cases (probe : Nat → Option Bool) (r : Nat) : ∀ n i₀,
    (∃ i, i₀ ≤ i ∧ i < i₀ + n ∧ firstFit probe r n i₀ = some (some i) ∧ Fits probe i r ∧
      ∀ j, i₀ ≤ j → j < i → Blocked probe j r) ∨
    (firstFit probe r n i₀ = some none ∧ ∀ j, i₀ ≤ j → j < i₀ + n → Blocked probe j r) ∨
    ∃ i, i₀ ≤ i ∧ i < i₀ + n ∧ firstFit probe r n i₀ = none ∧ Refused probe i r ∧
      ∀ j, i₀ ≤ j → j < i → Blocked probe j r := by
  intro n
  induction n with
  | zero => exact fun i₀ => .inr (.inl ⟨rfl, fun j _ _ => by omega⟩)
  | succ n ih =>
    intro i₀
    rcases freeRun_cases probe i₀ r 0 (fun x hx => by omega) with
      ⟨hrun, hf⟩ | ⟨y, hy, hrun, hf, hfalse⟩ | ⟨y, hy, hrun, hf, hnone⟩
    · refine .inl ⟨i₀, by omega, by omega, ?_, by rwa [Nat.zero_add] at hf, fun j _ _ => by omega⟩
      rw [firstFit, Int.toNat_natCast, hrun]
      simp
    · -- the candidate is blocked, the search goes on behind it
      have hblocked : Blocked probe i₀ r := ⟨y, by omega, hf, hfalse⟩
      have hstep : firstFit probe r (n + 1) i₀ = firstFit probe r n (i₀ + 1) := by
        rw [firstFit, Int.toNat_natCast, hrun]
        exact if_neg (by omega)
      have hcons : ∀ i, (∀ j, i₀ + 1 ≤ j → j < i → Blocked probe j r) →
          ∀ j, i₀ ≤ j → j < i → Blocked probe j r := by
        intro i hall j hj hji
        by_cases hjeq : j = i₀
        · rw [hjeq]
          exact hblocked
        · exact hall j (by omega) hji
      rw [hstep]
      rcases ih (i₀ + 1) with ⟨i, hi, hin, hfit, hf, hall⟩ | ⟨hfit, hall⟩ |
        ⟨i, hi, hin, hfit, hf, hall⟩
      · exact .inl ⟨i, by omega, by omega, hfit, hf, hcons i hall⟩
      · exact .inr (.inl ⟨hfit, hcons _ fun j hj hji => hall j hj (by omega)⟩)
      · exact .inr (.inr ⟨i, by omega, by omega, hfit, hf, hcons i hall⟩)
    · refine .inr (.inr ⟨i₀, by omega, by omega, ?_, ⟨y, by omega, hf, hnone⟩,
        fun j _ _ => by omega⟩)
      rw [firstFit, Int.toNat_natCast, hrun]
      rfl

/-- A negative request is never met: the loop over its chunks counts none. -/
theorem firstFit_neg (probe : Nat → Option Bool) {req : Int} (hreq : req < 0) :
    ∀ n i, firstFit probe req n i = some none := by
  intro n
  induction n with
  | zero => exact fun i => rfl
  | succ n ih =>
    intro i
    rw [firstFit, Int.toNat_of_nonpos (by omega), freeRun, Option.bind_eq_bind, Option.bind_some,
      if_neg (by omega)]
    exact ih (i + 1)

end Search

/-! ## Searching in strides -/

/-- The first of `n` candidates, `step` apart from `i` on, that has an answer. -/
theorem findSome?_range'_cases {α : Type} (f : Nat → Option α) (step : Nat) : ∀ n i,
    (∃ k a, k < n ∧ (List.range' i n step).findSome? f = some a ∧ f (i + step * k) = some a ∧
      ∀ j, j < k → f (i + step * j) = none) ∨
    ((List.range' i n step).findSome? f = none ∧ ∀ k, k < n → f (i + step * k) = none) := by
  intro n
  induction n with
  | zero => exact fun i => .inr ⟨rfl, fun k hk => by omega⟩
  | succ n ih =>
    intro i
    have hnext : ∀ k, i + step * (k + 1) = i + step + step * k := by
      intro k
      rw [Nat.mul_succ]
      omega
    rw [List.range'_succ, List.findSome?_cons]
    cases hf : f i with
    | some a => exact .inl ⟨0, a, by omega, rfl, hf, fun j hj => by omega⟩
    | none =>
      have hcons : ∀ {k}, (∀ j, j < k → f (i + step + step * j) = none) →
          ∀ j, j < k + 1 → f (i + step * j) = none := by
        intro k hall j hj
        cases j with
        | zero => exact hf
        | succ j => rw [hnext]; exact hall j (by omega)
      rcases ih (i + step) with ⟨k, a, hk, hfind, hka, hall⟩ | ⟨hfind, hall⟩
      · exact .inl ⟨k + 1, a, by omega, hfind, by rw [hnext]; exact hka, hcons hall⟩
      · exact .inr ⟨hfind, hcons hall⟩

/-! ## Marking -/

/-- `while (x >= 0) { bitmap[i+x] = 0; x--; }`, entered with `x` one less than the argument. -/
def markDown (bitmap : Nat → Bool) (i : Nat) : Nat → Nat → Bool
  | 0 => bitmap
  | x + 1 => markDown (Function.update bitmap (i + x) false) i x

/-- `for (i = 0; i < x; i++) bitmap[c+i] = 1;` -/
def freeUp (bitmap : Nat → Bool) (c : Nat) : Nat → Nat → Bool
  | 0 => bitmap
  | x + 1 => Function.update (freeUp bitmap c x) (c + x) true

theorem markDown_apply (i k : Nat) : ∀ (x : Nat) (bitmap : Nat → Bool),
    markDown bitmap i x k = if i ≤ k ∧ k < i + x then false else bitmap k := by
  intro x
  induction x with
  | zero => intro bitmap; rw [markDown, if_neg (by omega)]
  | succ x ih =>
    intro bitmap
    rw [markDown, ih]
    by_cases hk : k = i + x
    · rw [hk, Function.update_self, if_neg (by omega), if_pos (by omega)]
    · rw [Function.update_of_ne hk]
      by_cases hin : i ≤ k ∧ k < i + x
      · rw [if_pos hin, if_pos (by omega)]
      · rw [if_neg hin, if_neg (by omega)]

theorem freeUp_apply (bitmap : Nat → Bool) (c k : Nat) : ∀ x,
    freeUp bitmap c x k = if c ≤ k ∧ k < c + x then true else bitmap k := by
  intro x
  induction x with
  | zero => rw [freeUp, if_neg (by omega)]
  | succ x ih =>
    rw [freeUp]
    by_cases hk : k = c + x
    · rw [hk, Function.update_self, if_pos (by omega)]
    · rw [Function.update_of_ne hk, ih]
      by_cases hin : c ≤ k ∧ k < c + x
      · rw [if_pos hin, if_pos (by omega)]
      · rw [if_neg hin, if_neg (by omega)]

end OsCodes
