/-
  What a request to `ealloc.c` can come to.

  A row ends the search when a column has room (`Takes`), lets it go on when every column is
  blocked (`Full`), or has no answer when it is read outside its columns (`Leaves`).  `Outcome`
  lists the ways through the two loops of `alloc`, and `alloc_outcome` says there are no others.

  The outcome is an inductive proposition rather than a function, because two things are not known
  from the tables alone: what a column outside its row holds, and what `mmap` returns.  Every law
  of `ealloc.c` begins with a case split over `Outcome` and never unfolds the loops again.
-/
import OsCodes.Malloc.Ealloc

namespace OsCodes.Malloc.Ealloc

/-! ## One row -/

/-- `r` free chunks in row `j` from column `i` on. -/
def Room (bitmap : Nat → Bool) (r j i : Nat) : Prop :=
  i + r ≤ 16 ∧ ∀ x, x < r → bitmap (16 * j + (i + x)) = true

/-- The search of row `j` stops at column `i`. -/
structure Takes (past : Nat → Nat → Option Bool) (bitmap : Nat → Bool) (r j i : Nat) : Prop where
  col : i < 16
  fits : Fits (probe past bitmap j) i r
  first : ∀ i', i' < i → Blocked (probe past bitmap j) i' r

/-- The search of row `j` finds nothing. -/
def Full (past : Nat → Nat → Option Bool) (bitmap : Nat → Bool) (r j : Nat) : Prop :=
  ∀ i, i < 16 → Blocked (probe past bitmap j) i r

/-- The search of row `j` reads a column it must not read. -/
def Leaves (past : Nat → Nat → Option Bool) (bitmap : Nat → Bool) (r j : Nat) : Prop :=
  ∃ i, i < 16 ∧ Refused (probe past bitmap j) i r ∧
    ∀ i', i' < i → Blocked (probe past bitmap j) i' r

section Row

variable {past : Nat → Nat → Option Bool} {bitmap : Nat → Bool} {r j i : Nat}

theorem Room.fits (h : Room bitmap r j i) : Fits (probe past bitmap j) i r := by
  intro x hx
  have hin := h.1
  rw [probe, if_pos (by omega), h.2 x hx]

/-- A row that is full has no room. -/
theorem Full.no_room (h : Full past bitmap r j) (hr : 0 < r) (i : Nat) : ¬ Room bitmap r j i := by
  intro hroom
  have hin := hroom.1
  exact (h i (by omega)).not_fits hroom.fits

/-- The cells of a run that stays in its row. -/
theorem Takes.room (h : Takes past bitmap r j i) (hin : i + r ≤ 16) : Room bitmap r j i := by
  refine ⟨hin, fun x hx => ?_⟩
  have hp := h.fits x hx
  rw [probe, if_pos (by omega)] at hp
  exact Option.some.inj hp

end Row

/-! ## One request -/

/-- The state once the `r` chunks from `c` on are taken. -/
def take (s : PagedHeap) (c r : Nat) : PagedHeap :=
  { s with
    howMany := Function.update s.howMany c (s.howMany c + r)
    bitmap := markDown s.bitmap c r }

/-- What a search that stops at column `i` of row `j` returns. -/
def place (s : PagedHeap) (r j i : Nat) : Option (Pointer × PagedHeap) :=
  if 64 < 16 * j + i + r then none
  else some (.at (s.ptr j + i * 256), take s (16 * j + i) r)

/-- The state once a page is mapped and cleared. -/
def grown (w : World) (s : PagedHeap) : PagedHeap :=
  { mapPage w s with mem := memset s.mem w.mmap 4096 }

/-- The ways of a request for `r` chunks through the two loops. -/
inductive Outcome (w : World) (s : PagedHeap) (r : Nat) : Option (Pointer × PagedHeap) → Prop
  | mapped {j i : Nat} : j < s.currPagesUsed → (∀ j', j' < j → Full w.past s.bitmap r j') →
      Takes w.past s.bitmap r j i → Outcome w s r (place s r j i)
  | leaves {j : Nat} : j < s.currPagesUsed → (∀ j', j' < j → Full w.past s.bitmap r j') →
      Leaves w.past s.bitmap r j → Outcome w s r none
  | outOfPages : (∀ j, j < s.currPagesUsed → Full w.past s.bitmap r j) → 4 ≤ s.currPagesUsed →
      Outcome w s r (some (.undefined, s))
  | mapFailed : (∀ j, j < s.currPagesUsed → Full w.past s.bitmap r j) → s.currPagesUsed < 4 →
      w.mmap = -1 → Outcome w s r (some (.null, mapPage w s))
  | newTakes {i : Nat} : (∀ j, j < s.currPagesUsed → Full w.past s.bitmap r j) →
      s.currPagesUsed < 4 → w.mmap ≠ -1 → Takes w.past s.bitmap r s.currPagesUsed i →
      Outcome w s r (place (grown w s) r s.currPagesUsed i)
  | newFull : (∀ j, j < s.currPagesUsed → Full w.past s.bitmap r j) → s.currPagesUsed < 4 →
      w.mmap ≠ -1 → Full w.past s.bitmap r s.currPagesUsed →
      Outcome w s r (some (.null, grown w s))
  | newLeaves : (∀ j, j < s.currPagesUsed → Full w.past s.bitmap r j) → s.currPagesUsed < 4 →
      w.mmap ≠ -1 → Leaves w.past s.bitmap r s.currPagesUsed → Outcome w s r none

section Request

variable (w : World) (s : PagedHeap) (r : Nat)

/-- One row stops the search, lets it go on, or has no answer. -/
theorem scanRow_cases (j : Nat) :
    (∃ i, Takes w.past s.bitmap r j i ∧ scanRow w r s j = (place s r j i).map some) ∨
    (Full w.past s.bitmap r j ∧ scanRow w r s j = some none) ∨
    (Leaves w.past s.bitmap r j ∧ scanRow w r s j = none) := by
  rcases firstFit_cases (probe w.past s.bitmap j) r 16 0 with
    ⟨i, -, hi, hfit, hf, hall⟩ | ⟨hfit, hall⟩ | ⟨i, -, hi, hfit, hf, hall⟩
  · refine .inl ⟨i, ⟨by omega, hf, fun i' hi' => hall i' (by omega) hi'⟩, ?_⟩
    rw [scanRow, hfit]
    simp only [Option.bind_eq_bind, Option.bind_some, Int.toNat_natCast, place]
    split
    · rfl
    · rfl
  · refine .inr (.inl ⟨fun i hi => hall i (by omega) (by omega), ?_⟩)
    rw [scanRow, hfit]
    rfl
  · refine .inr (.inr ⟨⟨i, by omega, hf, fun i' hi' => hall i' (by omega) hi'⟩, ?_⟩)
    rw [scanRow, hfit]
    rfl

/-- The mapped rows, one after the other: the first that does not let the search go on. -/
theorem scanMapped_cases : ∀ n j₀,
    (∃ j i, j₀ ≤ j ∧ j < j₀ + n ∧ (∀ j', j₀ ≤ j' → j' < j → Full w.past s.bitmap r j') ∧
      Takes w.past s.bitmap r j i ∧ scanMapped w r s n j₀ = (place s r j i).map some) ∨
    ((∀ j, j₀ ≤ j → j < j₀ + n → Full w.past s.bitmap r j) ∧
      scanMapped w r s n j₀ = some none) ∨
    ∃ j, j₀ ≤ j ∧ j < j₀ + n ∧ (∀ j', j₀ ≤ j' → j' < j → Full w.past s.bitmap r j') ∧
      Leaves w.past s.bitmap r j ∧ scanMapped w r s n j₀ = none := by
  intro n
  induction n with
  | zero => exact fun j₀ => .inr (.inl ⟨fun j _ _ => by omega, rfl⟩)
  | succ n ih =>
    intro j₀
    rcases scanRow_cases w s r j₀ with ⟨i, htakes, hrow⟩ | ⟨hfull, hrow⟩ | ⟨hleaves, hrow⟩
    · refine .inl ⟨j₀, i, by omega, by omega, fun j' _ _ => by omega, htakes, ?_⟩
      rw [scanMapped, hrow]
      cases place s r j₀ i with
      | none => rfl
      | some x => rfl
    · have hstep : scanMapped w r s (n + 1) j₀ = scanMapped w r s n (j₀ + 1) := by
        rw [scanMapped, hrow]
        rfl
      have hcons : ∀ m, (∀ j, j₀ + 1 ≤ j → j < m → Full w.past s.bitmap r j) →
          ∀ j, j₀ ≤ j → j < m → Full w.past s.bitmap r j := by
        intro m hall j hj hjm
        by_cases hjeq : j = j₀
        · rw [hjeq]
          exact hfull
        · exact hall j (by omega) hjm
      rw [hstep]
      rcases ih (j₀ + 1) with ⟨j, i, hj, hjn, hall, htakes, hrun⟩ | ⟨hall, hrun⟩ |
        ⟨j, hj, hjn, hall, hleaves, hrun⟩
      · exact .inl ⟨j, i, by omega, by omega, hcons j hall, htakes, hrun⟩
      · exact .inr (.inl ⟨hcons _ fun j hj hjn => hall j hj (by omega), hrun⟩)
      · exact .inr (.inr ⟨j, by omega, by omega, hcons j hall, hleaves, hrun⟩)
    · refine .inr (.inr ⟨j₀, by omega, by omega, fun j' _ _ => by omega, hleaves, ?_⟩)
      rw [scanMapped, hrow]
      rfl

theorem tmod_chunk : ((256 * r : Nat) : Int).tmod 256 = 0 := by
  rw [Int.tmod_eq_emod_of_nonneg (by omega)]
  omega

theorem tdiv_chunk : ((256 * r : Nat) : Int).tdiv 256 = r := by
  rw [Int.tdiv_eq_ediv_of_nonneg (by omega)]
  omega

theorem chunks_eq {size : Int} (hpos : 0 < size) (hmod : size % 256 = 0) :
    ∃ r : Nat, 0 < r ∧ size = (256 * r : Nat) ∧ (size / 256).toNat = r :=
  ⟨(size / 256).toNat, by omega, by omega, rfl⟩

/-- **A request** goes one of the ways. -/
theorem alloc_outcome : Outcome w s r (alloc w (256 * r : Nat) s) := by
  simp only [alloc, tmod_chunk, ne_eq, not_true, if_false, tdiv_chunk]
  rcases scanMapped_cases w s r s.currPagesUsed 0 with ⟨j, i, -, hj, hall, htakes, hrun⟩ |
    ⟨hall, hrun⟩ | ⟨j, -, hj, hall, hleaves, hrun⟩
  · rw [hrun]
    have hplace : Outcome w s r (place s r j i) :=
      .mapped (by omega) (fun j' hj' => hall j' (by omega) hj') htakes
    cases hp : place s r j i with
    | none => rwa [hp] at hplace
    | some x => rwa [hp] at hplace
  · rw [hrun]
    replace hall : ∀ j, j < s.currPagesUsed → Full w.past s.bitmap r j :=
      fun j hj => hall j (by omega) (by omega)
    simp only [Option.bind_eq_bind, Option.bind_some]
    split
    · rename_i hcurr
      split
      · rename_i hmmap
        exact .mapFailed hall hcurr hmmap
      · rename_i hmmap
        have ht : { mapPage w s with mem := memset (mapPage w s).mem w.mmap 4096 } =
            grown w s := rfl
        rw [ht]
        have hplace := fun i => Outcome.newTakes (i := i) hall hcurr hmmap
        rcases scanRow_cases w (grown w s) r s.currPagesUsed with ⟨i, htakes, hrow⟩ |
          ⟨hfull, hrow⟩ | ⟨hleaves, hrow⟩
        · rw [hrow]
          specialize hplace i htakes
          cases hp : place (grown w s) r s.currPagesUsed i with
          | none => rwa [hp] at hplace
          | some x => rwa [hp] at hplace
        · rw [hrow]
          exact .newFull hall hcurr hmmap hfull
        · rw [hrow]
          exact .newLeaves hall hcurr hmmap hleaves
    · exact .outOfPages hall (by omega)
  · rw [hrun]
    exact .leaves (by omega) (fun j' hj' => hall j' (by omega) hj') hleaves

end Request

end OsCodes.Malloc.Ealloc
