/-
  The bytes of a file.

  `Disk.fileByte` reads a file at a position, through its entries.  A read whose bytes are all in
  blocks of the file stages them, and a write changes the bytes of its own file only, each to a
  byte of the buffer or to the zero that fills a block up.

  `Disk.fileByte` is the meaning of a file for all that follows: the refinement, the isolation of
  handles, the round trip and the law of overwriting all speak of it.  `Wrote.fileByte_cases` says
  what a write makes of it, byte by byte, and `OthersKept` that other files keep theirs.
-/
import OsCodes.SimpleFS.Effect

namespace OsCodes.SimpleFS

open Bytes

/-! ## The bytes of a file -/

/-- The byte at position `p` of the file in inode `i`, if the file has a block there. -/
def Disk.fileByte (d : Disk) (i : Fin 8) (p : Int) : Option UInt8 :=
  if h : 0 ≤ p ∧ p < 256 then
    (d.owner (i, ⟨(p / 64).toNat, by omega⟩)).map fun b => d.block b (p % 64).toNat
  else none

/-- A byte of the file is in the block of its slot. -/
theorem Disk.fileByte_eq_some {d : Disk} {i : Fin 8} {p : Int} {v : UInt8} :
    d.fileByte i p = some v ↔ ∃ (c : Fin 4) (b : Fin 30) (k : Nat), k < 64 ∧
      p = 64 * c.val + k ∧ d.owner (i, c) = some b ∧ d.block b k = v := by
  unfold fileByte
  constructor
  · intro h
    split at h
    · rename_i hp
      obtain ⟨b, hb, hv⟩ := Option.map_eq_some_iff.mp h
      exact ⟨_, b, _, by omega, by simp only; omega, hb, hv⟩
    · cases h
  · rintro ⟨c, b, k, hk, rfl, hb, rfl⟩
    have hc : (⟨((64 * (c.val : Int) + k) / 64).toNat, by omega⟩ : Fin 4) = c := by
      apply Fin.ext
      simp only
      omega
    rw [dif_pos (by omega), hc, hb, Option.map_some,
      show ((64 * (c.val : Int) + k) % 64).toNat = k by omega]

/-- Once all blocks are loaded the staging buffer has the bytes of the file. -/
theorem Staged.fileByte {d : Disk} {i : Fin 8} {temp temp' : Int → UInt8}
    (h : Staged d (d.inode i) (List.finRange 4) temp temp') {p : Int} {v : UInt8}
    (hv : d.fileByte i p = some v) : temp' p = v := by
  obtain ⟨c, b, k, hk, rfl, hb, rfl⟩ := Disk.fileByte_eq_some.mp hv
  exact h.loaded c b k (List.mem_finRange c) (Disk.owner_eq_some.mp hb) hk

/-! ## Files under a write -/

/-- From `d` to `d'` the files in other inodes than `i` stay: their records and their blocks. -/
structure OthersKept (d d' : Disk) (i : Fin 8) : Prop where
  inode_ne : ∀ j, j ≠ i → d'.inode j = d.inode j
  block_ne : ∀ j c b, j ≠ i → d.owner (j, c) = some b → ∀ k, k < 64 → d'.block b k = d.block b k

section FileByte

variable {d d' : Disk} {i : Fin 8}

/-- Equal entries and equal blocks make equal bytes. -/
theorem Disk.fileByte_congr {p : Int}
    (howner : ∀ c : Fin 4, 64 * (c.val : Int) ≤ p → p < 64 * c.val + 64 →
      d'.owner (i, c) = d.owner (i, c))
    (hblock : ∀ (c : Fin 4) (b : Fin 30) (k : Nat), p = 64 * c.val + k → k < 64 →
      d.owner (i, c) = some b → d'.block b k = d.block b k) :
    d'.fileByte i p = d.fileByte i p := by
  unfold fileByte
  by_cases hp : 0 ≤ p ∧ p < 256
  · rw [dif_pos hp, dif_pos hp, howner _ (by simp only; omega) (by simp only; omega)]
    cases hb : d.owner (i, ⟨(p / 64).toNat, by omega⟩) with
    | none => rfl
    | some b =>
      rw [Option.map_some, Option.map_some,
        hblock _ b (p % 64).toNat (by simp only; omega) (by omega) hb]
  · rw [dif_neg hp, dif_neg hp]

theorem OthersKept.fileByte (h : OthersKept d d' i) {j : Fin 8} (hj : j ≠ i) (p : Int) :
    d'.fileByte j p = d.fileByte j p := by
  refine Disk.fileByte_congr (fun c _ _ => ?_) fun c b k _ hk hb => h.block_ne j c b hj hb k hk
  rw [Disk.owner, Disk.owner, h.inode_ne j hj]

theorem Leaked.othersKept (h : Leaked d d') : OthersKept d d' i :=
  ⟨fun j _ => h.sbOnly.inode j, fun _ _ b _ _ k _ => h.sbOnly.block b k⟩

theorem Leaked.fileByte (h : Leaked d d') (j : Fin 8) (p : Int) :
    d'.fileByte j p = d.fileByte j p :=
  Disk.fileByte_congr (fun _ _ _ => by rw [h.sbOnly.owner]) fun _ b k _ _ _ => h.sbOnly.block b k

theorem Wrote.othersKept {o n : Nat} {buf : Mem} (h : Owned d) (huse : d.InUse i)
    (hw : Wrote d d' i o n buf) : OthersKept d d' i :=
  ⟨hw.inode_ne, fun _ _ _ hj hb _ hk => hw.block_ne h huse hj hb hk⟩

/-- A slot behind which nothing is written keeps its bytes. -/
theorem Stored.fileByte_untouched {o n : Nat} {buf : Mem} (hst : Stored d d' i o n buf)
    {c : Fin 4} (hT : ¬ Touched o n c) {k : Nat} (hk : k < 64) :
    d'.fileByte i (64 * c.val + k) = d.fileByte i (64 * c.val + k) := by
  have howner : d'.owner (i, c) = d.owner (i, c) := by
    rw [Disk.owner, Disk.owner, hst.off c fun hS => hT (.inl ⟨by omega, hS.2⟩)]
  refine Disk.fileByte_congr ?_ ?_
  · intro c' hc hc'
    obtain rfl : c' = c := Fin.ext (by omega)
    exact howner
  · intro c' b k' hp hk' hb
    obtain rfl : c' = c := Fin.ext (by omega)
    rw [← howner] at hb
    exact hst.untouched c' b hT hb k' hk'

/-- A slot that is written holds the new bytes. -/
theorem Stored.fileByte_touched {o n : Nat} {buf : Mem} (hst : Stored d d' i o n buf) {c : Fin 4}
    (hT : Touched o n c) {b : Fin 30} (hb : d'.owner (i, c) = some b) {k : Nat} (hk : k < 64) :
    d'.fileByte i (64 * c.val + k) = some (newByte (d.block b) o n buf c k) :=
  Disk.fileByte_eq_some.mpr ⟨c, b, k, hk, rfl, hb, hst.touched c b hT hb k hk⟩

/-- **Every byte of the file after a write** is the old one there, a byte of the buffer, or the
    zero that fills a block up. -/
theorem Wrote.fileByte_cases {o n : Nat} {buf : Mem} (h : Owned d) (huse : d.InUse i)
    (hw : Wrote d d' i o n buf) (p : Int) : d'.fileByte i p = d.fileByte i p ∨
      ∃ v, d'.fileByte i p = some v ∧ (v = 0 ∨ ∃ k < n, v = buf k) := by
  by_cases hp : 0 ≤ p ∧ p < 256
  · obtain ⟨c, k, hk, rfl⟩ : ∃ (c : Fin 4) (k : Nat), k < 64 ∧ p = 64 * c.val + k :=
      ⟨⟨(p / 64).toNat, by omega⟩, (p % 64).toNat, by omega, by simp only; omega⟩
    by_cases hT : Touched o n c
    · cases hb : d'.owner (i, c) with
      | none =>
        -- the slot of a hole: empty before and after
        left
        have hc' : (d'.inode i).directBlocks c = -1 := by
          refine ((h.wrote huse hw).range i c).resolve_right ?_
          rintro ⟨b, hb'⟩
          rw [Disk.owner_eq_some.mpr hb'] at hb
          cases hb
        have hnone : d.owner (i, c) = none := by
          rw [Disk.owner]
          by_cases hc : (d.inode i).directBlocks c = -1
          · rw [hc, blockOf_neg_one]
          · rw [hw.filled.keep c hc] at hc'
            exact absurd hc' hc
        refine Disk.fileByte_congr ?_ ?_
        · intro c' h1 h2
          obtain rfl : c' = c := Fin.ext (by omega)
          rw [hb, hnone]
        · intro c' b k' hpk hk' hb'
          obtain rfl : c' = c := Fin.ext (by omega)
          rw [hnone] at hb'
          cases hb'
      | some b =>
        rw [(hw.stored h).fileByte_touched hT hb hk]
        unfold newByte
        by_cases hlow : 64 * c.val + k < o
        · -- in front of the offset the block is an old one
          left
          rw [if_pos hlow]
          have hb' : d.owner (i, c) = some b := by
            rw [Disk.owner_eq_some, ← hw.filled.off c (by omega)]
            exact Disk.owner_eq_some.mp hb
          exact (Disk.fileByte_eq_some.mpr ⟨c, b, k, hk, rfl, hb', rfl⟩).symm
        · right
          rw [if_neg hlow]
          refine ⟨_, rfl, ?_⟩
          split
          · rename_i hin
            unfold strncpy
            split
            · exact .inr ⟨_, by omega, rfl⟩
            · exact .inl rfl
          · exact .inl rfl
    · exact .inl ((hw.stored h).fileByte_untouched hT hk)
  · left
    unfold Disk.fileByte
    rw [dif_neg hp, dif_neg hp]

end FileByte

end OsCodes.SimpleFS
