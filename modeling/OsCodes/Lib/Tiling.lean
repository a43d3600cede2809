/-
  Blocks of cells, and the two arrays that record them.

  `Tiles N bitmap howMany blocks` says that the bitmap (`true` for a free cell) and the table of
  block lengths describe the list `blocks` of pairs of start and length: every taken cell is in
  exactly one block, every free one in none, and the table holds the length at each start.  A
  block that takes free cells is added by `Tiles.add`, and any block is removed by `Tiles.remove`.

  The table knows a block by its start only, so two blocks must not start at one cell
  (`Tiles.start_inj`); of blocks of no cells there may be any number, and the table says nothing
  about them.  An allocator's invariant is `Tiles` for the list of the blocks that are out.
-/
import Mathlib.Tactic.Common
import Mathlib.Logic.Function.Basic
import Mathlib.Data.List.Count

namespace OsCodes

/-- Cell `k` is in the block. -/
def covers (k : Nat) (b : Nat × Nat) : Bool := decide (b.1 ≤ k ∧ k < b.1 + b.2)

/-- The bitmap and the table describe the blocks. -/
structure Tiles (N : Nat) (bitmap : Nat → Bool) (howMany : Nat → Int) (blocks : List (Nat × Nat)) :
    Prop where
  pos : ∀ b ∈ blocks, 0 < b.2
  inside : ∀ b ∈ blocks, b.1 + b.2 ≤ N
  cover : ∀ k, k < N → blocks.countP (covers k) = if bitmap k then 0 else 1
  count : ∀ b ∈ blocks, howMany b.1 = b.2
  rest : ∀ i, i < N → (∀ b ∈ blocks, b.1 ≠ i) → howMany i = 0

namespace Tiles

variable {N : Nat} {bitmap bitmap' : Nat → Bool} {howMany howMany' : Nat → Int}
  {blocks l₁ l₂ : List (Nat × Nat)} {b : Nat × Nat}

theorem covers_iff {k : Nat} : covers k b = true ↔ b.1 ≤ k ∧ k < b.1 + b.2 := by
  rw [covers, decide_eq_true_eq]

/-- All cells free, no block. -/
theorem empty (hfree : ∀ k, k < N → bitmap k = true) (hzero : ∀ i, i < N → howMany i = 0) :
    Tiles N bitmap howMany [] where
  pos _ hb := absurd hb List.not_mem_nil
  inside _ hb := absurd hb List.not_mem_nil
  cover k hk := by rw [hfree k hk]; rfl
  count _ hb := absurd hb List.not_mem_nil
  rest i hi _ := hzero i hi

/-- A cell of a block is taken. -/
theorem taken (h : Tiles N bitmap howMany blocks) (hb : b ∈ blocks) {k : Nat} (hk : b.1 ≤ k)
    (hk' : k < b.1 + b.2) : bitmap k = false := by
  have hin := h.inside b hb
  have hpos : 0 < blocks.countP (covers k) :=
    List.countP_pos_iff.mpr ⟨b, hb, covers_iff.mpr ⟨hk, hk'⟩⟩
  rw [h.cover k (by omega)] at hpos
  cases hf : bitmap k with
  | false => rfl
  | true => rw [hf, if_pos rfl] at hpos; omega

/-- A taken cell is in a block. -/
theorem exists_of_taken (h : Tiles N bitmap howMany blocks) {k : Nat} (hk : k < N)
    (hf : bitmap k = false) : ∃ b ∈ blocks, b.1 ≤ k ∧ k < b.1 + b.2 := by
  have hpos : 0 < blocks.countP (covers k) := by
    rw [h.cover k hk, hf]
    decide
  obtain ⟨b, hb, hc⟩ := List.countP_pos_iff.mp hpos
  exact ⟨b, hb, covers_iff.mp hc⟩

/-- Blocks that start at one cell are one block. -/
theorem start_inj (h : Tiles N bitmap howMany blocks) {b b' : Nat × Nat} (hb : b ∈ blocks)
    (hb' : b' ∈ blocks) (heq : b.1 = b'.1) : b = b' := by
  have hlen : (b.2 : Int) = b'.2 := by rw [← h.count b hb, ← h.count b' hb', heq]
  exact Prod.ext heq (by omega)

/-- Blocks that no cell is in twice are apart. -/
theorem pairwise_of_cover {blocks : List (Nat × Nat)} (hpos : ∀ b ∈ blocks, 0 < b.2)
    (hcover : ∀ k, blocks.countP (covers k) ≤ 1) :
    blocks.Pairwise fun b b' => b.1 + b.2 ≤ b'.1 ∨ b'.1 + b'.2 ≤ b.1 := by
  induction blocks with
  | nil => exact List.Pairwise.nil
  | cons b blocks ih =>
    have hb := hpos b List.mem_cons_self
    refine List.pairwise_cons.mpr ⟨fun b' hb' => ?_, ih ?_ fun k => ?_⟩
    · -- two blocks that meet do so where the later one starts
      by_contra hmeet
      have hb'pos := hpos b' (List.mem_cons_of_mem _ hb')
      have hone := hcover (max b.1 b'.1)
      have htail : 0 < blocks.countP (covers (max b.1 b'.1)) :=
        List.countP_pos_iff.mpr ⟨b', hb', covers_iff.mpr ⟨by omega, by omega⟩⟩
      rw [List.countP_cons, covers_iff.mpr ⟨by omega, by omega⟩, if_pos rfl] at hone
      omega
    · exact fun b' hb' => hpos b' (List.mem_cons_of_mem _ hb')
    · have hk := hcover k
      rw [List.countP_cons] at hk
      omega

theorem pairwise (h : Tiles N bitmap howMany blocks) :
    blocks.Pairwise fun b b' => b.1 + b.2 ≤ b'.1 ∨ b'.1 + b'.2 ≤ b.1 := by
  refine pairwise_of_cover h.pos fun k => ?_
  by_cases hk : k < N
  · rw [h.cover k hk]
    split
    · omega
    · omega
  · have hzero : blocks.countP (covers k) = 0 := by
      refine List.countP_eq_zero.mpr fun b hb hc => ?_
      have hin := h.inside b hb
      have hc := covers_iff.mp hc
      omega
    omega

/-- **Adding** a block of free cells. -/
theorem add (h : Tiles N bitmap howMany blocks) (hpos : 0 < b.2) (hin : b.1 + b.2 ≤ N)
    (hfree : ∀ k, b.1 ≤ k → k < b.1 + b.2 → bitmap k = true)
    (hbit : ∀ k, bitmap' k = if b.1 ≤ k ∧ k < b.1 + b.2 then false else bitmap k)
    (hmany : howMany' = Function.update howMany b.1 (howMany b.1 + b.2)) :
    Tiles N bitmap' howMany' (b :: blocks) := by
  -- no block starts where the new one does
  have hstart : ∀ b' ∈ blocks, b'.1 ≠ b.1 := by
    intro b' hb' heq
    have hpos' := h.pos b' hb'
    have htaken := h.taken hb' (Nat.le_refl _) (by omega)
    rw [heq, hfree b.1 (Nat.le_refl _) (by omega)] at htaken
    cases htaken
  constructor
  · intro b' hb'
    rcases List.mem_cons.mp hb' with rfl | hb'
    · exact hpos
    · exact h.pos b' hb'
  · intro b' hb'
    rcases List.mem_cons.mp hb' with rfl | hb'
    · exact hin
    · exact h.inside b' hb'
  · intro k hk
    rw [List.countP_cons, h.cover k hk, hbit]
    by_cases hc : b.1 ≤ k ∧ k < b.1 + b.2
    · rw [hfree k hc.1 hc.2, covers_iff.mpr hc, if_pos hc]
      rfl
    · have hnot : covers k b = false := by
        rw [Bool.eq_false_iff]
        exact fun ht => hc (covers_iff.mp ht)
      rw [hnot, if_neg hc]
      rfl
  · intro b' hb'
    rw [hmany]
    rcases List.mem_cons.mp hb' with rfl | hb'
    · rw [Function.update_self, h.rest b'.1 (by omega) hstart, Int.zero_add]
    · rw [Function.update_of_ne (hstart b' hb')]
      exact h.count b' hb'
  · intro i hi hno
    have hne : i ≠ b.1 := fun heq => hno b List.mem_cons_self heq.symm
    rw [hmany, Function.update_of_ne hne]
    exact h.rest i hi fun b' hb' => hno b' (List.mem_cons_of_mem _ hb')

/-- **Removing** a block makes its cells free, and they belong to no other. -/
theorem remove (h : Tiles N bitmap howMany (l₁ ++ b :: l₂))
    (hbit : ∀ k, bitmap' k = if b.1 ≤ k ∧ k < b.1 + b.2 then true else bitmap k)
    (hmany : howMany' = Function.update howMany b.1 0) :
    Tiles N bitmap' howMany' (l₁ ++ l₂) := by
  have hmem : ∀ {b'}, b' ∈ l₁ ++ l₂ → b' ∈ l₁ ++ b :: l₂ := by
    intro b' hb'
    rw [List.mem_append] at hb' ⊢
    exact hb'.imp_right (List.mem_cons_of_mem _)
  have hb : b ∈ l₁ ++ b :: l₂ := by simp
  -- the counts split into the block's own cells and the rest
  have hsplit : ∀ k, (l₁ ++ b :: l₂).countP (covers k) =
      (l₁ ++ l₂).countP (covers k) + if covers k b then 1 else 0 := by
    intro k
    rw [List.countP_append, List.countP_append, List.countP_cons]
    omega
  have hstart : ∀ b' ∈ l₁ ++ l₂, b'.1 ≠ b.1 := by
    intro b' hb' heq
    have hpos := h.pos b hb
    have hin := h.inside b hb
    have hpos' := h.pos b' (hmem hb')
    have htwo := hsplit b.1
    rw [h.cover b.1 (by omega), covers_iff.mpr ⟨Nat.le_refl _, by omega⟩, if_pos rfl] at htwo
    have hone : 0 < (l₁ ++ l₂).countP (covers b.1) :=
      List.countP_pos_iff.mpr ⟨b', hb', covers_iff.mpr ⟨by omega, by omega⟩⟩
    split at htwo
    · omega
    · omega
  constructor
  · exact fun b' hb' => h.pos b' (hmem hb')
  · exact fun b' hb' => h.inside b' (hmem hb')
  · intro k hk
    have hk' := hsplit k
    rw [h.cover k hk] at hk'
    rw [hbit]
    by_cases hc : b.1 ≤ k ∧ k < b.1 + b.2
    · rw [covers_iff.mpr hc, h.taken hb hc.1 hc.2] at hk'
      simp only [Bool.false_eq_true, if_false, if_true] at hk'
      rw [if_pos hc, if_pos rfl]
      omega
    · have hnot : covers k b = false := by
        rw [Bool.eq_false_iff]
        exact fun ht => hc (covers_iff.mp ht)
      rw [hnot] at hk'
      rw [if_neg hc, hk']
      simp
  · intro b' hb'
    rw [hmany, Function.update_of_ne (hstart b' hb')]
    exact h.count b' (hmem hb')
  · intro i hi hno
    rw [hmany]
    by_cases hib : i = b.1
    · rw [hib, Function.update_self]
    · rw [Function.update_of_ne hib]
      refine h.rest i hi fun b' hb' => ?_
      rw [List.mem_append, List.mem_cons] at hb'
      rcases hb' with hb' | rfl | hb'
      · exact hno b' (List.mem_append_left _ hb')
      · exact fun heq => hib heq.symm
      · exact hno b' (List.mem_append_right _ hb')

end Tiles

end OsCodes
