/-
  What the blocks of the disk say: which blocks are in use, and the inodes.

  `used` and `dinode` read the bitmap and the inode blocks.  Every function that changes a block
  changes one of the three: a bit of the bitmap, a dinode, or the data blocks (`nmeta` and above).

  The three readings are independent: a change of a bit leaves the inodes and the data, and so on
  (`used_update`, `dinode_update_data`, `used_update_iblock`).  A bit is set and cleared through
  the mask of its byte, and a dinode is 64 bytes of its block, so each needs its own bytes only.
-/
import Mathlib.Tactic.IntervalCases
import OsCodes.Lib.FirstFit
import OsCodes.Xv6.Inode

namespace OsCodes.Inodes

open Bytes Log

variable {sb : Superblock} {d d' : Disk} {b c i j : Nat}

/-! ## Where things are -/

/-- The bit of block `b`. -/
def used (sb : Superblock) (d : Disk) (b : Nat) : Bool := bit (d (sb.bblock b)).mem (b % BPB)

/-- Setting the bit of block `b`. -/
def mark (sb : Superblock) (d : Disk) (b : Nat) : Disk :=
  Function.update d (sb.bblock b) (Block.ofMem (setBit (d (sb.bblock b)).mem (b % BPB)))

/-- Clearing the bit of block `b`. -/
def unmark (sb : Superblock) (d : Disk) (b : Nat) : Disk :=
  Function.update d (sb.bblock b) (Block.ofMem (clearBit (d (sb.bblock b)).mem (b % BPB)))

namespace Superblock

theorem iblock_lt (sb : Superblock) (hi : i < sb.ninodes) : sb.iblock i < sb.bmapstart := by
  have hfit := sb.inodes_fit
  have hdiv : i / IPB ≤ sb.ninodes / IPB := Nat.div_le_div_right (Nat.le_of_lt hi)
  rw [iblock]
  omega

theorem le_bblock (sb : Superblock) (b : Nat) : sb.bmapstart ≤ sb.bblock b := by
  exact Nat.le_add_left _ _

theorem bblock_lt (sb : Superblock) (hb : b < sb.size) : sb.bblock b < sb.nmeta := by
  have hdiv : b / BPB ≤ sb.size / BPB := Nat.div_le_div_right (Nat.le_of_lt hb)
  rw [bblock, nmeta]
  omega

theorem bmapstart_lt (sb : Superblock) : sb.bmapstart < sb.nmeta := by
  exact Nat.lt_succ_of_le (Nat.le_add_right _ _)

theorem nmeta_pos (sb : Superblock) : 0 < sb.nmeta := Nat.succ_pos _

theorem nmeta_le (sb : Superblock) : sb.nmeta ≤ sb.size := by
  have := sb.bitmap_fit
  rw [nmeta]
  omega

theorem bblock_ne_iblock (sb : Superblock) (hi : i < sb.ninodes) : sb.iblock i ≠ sb.bblock b := by
  have := sb.iblock_lt hi
  have := sb.le_bblock b
  omega

theorem iblock_lt_nmeta (sb : Superblock) (hi : i < sb.ninodes) : sb.iblock i < sb.nmeta := by
  have := sb.iblock_lt hi
  have := sb.bmapstart_lt
  omega

end Superblock

/-! ## Changing one bit -/

theorem used_congr (h : d (sb.bblock b) = d' (sb.bblock b)) : used sb d b = used sb d' b := by
  rw [used, used, h]

theorem dinode_congr (h : d (sb.iblock i) = d' (sb.iblock i)) :
    dinode sb d i = dinode sb d' i := by
  rw [dinode, dinode, h]

/-- The byte of a bit is in the block. -/
theorem bit_ofMem (m : Mem) (b : Nat) :
    bit (Block.ofMem m : Data).mem (b % BPB) = bit m (b % BPB) := by
  apply bit_congr
  refine Block.mem_ofMem ?_
  simp only [BPB, BSIZE]
  omega

theorem used_mark (sb : Superblock) (d : Disk) (b c : Nat) :
    used sb (mark sb d b) c = (decide (c = b) || used sb d c) := by
  rw [used, used, mark]
  by_cases hblock : sb.bblock c = sb.bblock b
  · rw [hblock, Function.update_self, bit_ofMem, bit_setBit]
    congr 1
    rw [Superblock.bblock, Superblock.bblock] at hblock
    rw [Bool.eq_iff_iff, decide_eq_true_eq, decide_eq_true_eq]
    simp only [BPB, BSIZE] at hblock ⊢
    omega
  · rw [Function.update_of_ne hblock, decide_eq_false fun heq => hblock (by rw [heq]),
      Bool.false_or]

theorem used_unmark (sb : Superblock) (d : Disk) (b c : Nat) :
    used sb (unmark sb d b) c = (!decide (c = b) && used sb d c) := by
  rw [used, used, unmark]
  by_cases hblock : sb.bblock c = sb.bblock b
  · rw [hblock, Function.update_self, bit_ofMem, bit_clearBit]
    congr 2
    rw [Superblock.bblock, Superblock.bblock] at hblock
    rw [Bool.eq_iff_iff, decide_eq_true_eq, decide_eq_true_eq]
    simp only [BPB, BSIZE] at hblock ⊢
    omega
  · rw [Function.update_of_ne hblock, decide_eq_false fun heq => hblock (by rw [heq]),
      Bool.not_false, Bool.true_and]

/-! ## Changing one dinode -/

/-- **A dinode is read back as it was written.** -/
theorem getDinode_putDinode (m : Mem) (p : Nat) (x : Dinode) :
    getDinode (putDinode m p x) p = x := by
  simp (disch := omega) only [getDinode, putDinode, getU32_blit_image, get16_blit_of_disjoint,
    getU32_blit_of_disjoint, get16_putU32_of_disjoint, get16_put16_of_disjoint, get16_put16,
    getU32_putU32]

/-- Only the bytes of the dinode matter. -/
theorem getDinode_congr {m m' : Mem} {p p' : Nat} (h : ∀ k, k < DINODE → m (p + k) = m' (p' + k)) :
    getDinode m p = getDinode m' p' := by
  have hsize : DINODE = 64 := rfl
  have hshift : ∀ q k, q + k < DINODE → m (p + q + k) = m' (p' + q + k) := by
    intro q k hk
    rw [Nat.add_assoc, h (q + k) hk, Nat.add_assoc]
  have hshort : ∀ q, q + 2 ≤ DINODE → get16 m (p + q) = get16 m' (p' + q) :=
    fun q hq => get16_congr fun k hk => hshift q k (by omega)
  have huint : ∀ q, q + 4 ≤ DINODE → getU32 m (p + q) = getU32 m' (p' + q) :=
    fun q hq => getU32_congr fun k hk => hshift q k (by omega)
  have htype := hshort 0 (by omega)
  rw [Nat.add_zero, Nat.add_zero] at htype
  rw [getDinode, getDinode, htype, hshort 2 (by omega), hshort 4 (by omega), hshort 6 (by omega),
    huint 8 (by omega)]
  congr 1
  funext k
  have hk := k.isLt
  simp only [NDIRECT] at hk
  rw [Nat.add_assoc, Nat.add_assoc, huint (12 + 4 * k) (by omega)]

/-- Writing a dinode changes its own bytes only. -/
theorem putDinode_apply_of_out {m : Mem} {p a : Nat} {x : Dinode} (h : a < p ∨ p + DINODE ≤ a) :
    putDinode m p x a = m a := by
  have hsize : DINODE = 64 := rfl
  simp only [putDinode, put16, putU32, put32, NDIRECT]
  rw [blit_out (by omega), blit_out (by omega), blit_out (by omega), blit_out (by omega),
    blit_out (by omega), blit_out (by omega)]

/-- Writing in the place of inode `i` what is there already but for the dinode `x`. -/
theorem dinode_update {m : Mem} {x : Dinode} (hget : getDinode m (DINODE * (i % IPB)) = x)
    (hout : ∀ a, a < DINODE * (i % IPB) ∨ DINODE * (i % IPB) + DINODE ≤ a →
      m a = (d (sb.iblock i)).mem a) (j : Nat) :
    dinode sb (Function.update d (sb.iblock i) (Block.ofMem m)) j =
      if j = i then x else dinode sb d j := by
  have hsize : DINODE = 64 := rfl
  have hper : IPB = 8 := rfl
  have hblocksize : BSIZE = 512 := rfl
  -- the bytes of the block, seen from the dinode of `j`
  have hbytes : ∀ {y : Dinode}, getDinode m (DINODE * (j % IPB)) = y →
      getDinode (Block.ofMem m : Data).mem (DINODE * (j % IPB)) = y := by
    rintro y rfl
    refine getDinode_congr fun k hk => Block.mem_ofMem ?_
    simp only [hsize, hper, hblocksize] at hk ⊢
    omega
  rw [dinode]
  by_cases hji : j = i
  · subst hji
    rw [if_pos rfl, Function.update_self, hbytes hget]
  · rw [if_neg hji, dinode]
    by_cases hblock : sb.iblock j = sb.iblock i
    · rw [hblock, Function.update_self]
      refine hbytes (getDinode_congr fun k hk => hout _ ?_)
      rw [Superblock.iblock, Superblock.iblock] at hblock
      simp only [hsize, hper] at hblock hk ⊢
      omega
    · rw [Function.update_of_ne hblock]

theorem dinode_iupdate (sb : Superblock) (d : Disk) (ip : Inode) (j : Nat) :
    dinode sb (iupdate sb d ip) j = if j = ip.inum then ip.toDinode else dinode sb d j :=
  dinode_update (getDinode_putDinode _ _ _) (fun _ ha => putDinode_apply_of_out ha) j

/-- The dinode that `ialloc` writes. -/
def newDinode (type : Int16) : Dinode := ⟨type, 0, 0, 0, 0, fun _ => 0⟩

theorem dinode_takeInode (sb : Superblock) (d : Disk) (i : Nat) (type : Int16) (j : Nat) :
    dinode sb (takeInode sb d i type) j = if j = i then newDinode type else dinode sb d j := by
  have hsize : DINODE = 64 := rfl
  refine dinode_update ?_ (fun a ha => ?_) j
  · have hzero : ∀ q, q < DINODE → blit (d (sb.iblock i)).mem (DINODE * (i % IPB)) DINODE
        (fun _ => 0) (DINODE * (i % IPB) + q) = 0 := fun q hq => blit_in (by omega)
    generalize blit (d (sb.iblock i)).mem (DINODE * (i % IPB)) DINODE (fun _ => 0) = m at hzero
    generalize DINODE * (i % IPB) = p at hzero
    have hbehind : ∀ q, 2 ≤ q → q < DINODE → put16 m p type (p + q) = 0 := by
      intro q hq hq'
      rw [put16, blit_out (by omega), hzero q hq']
    have hshort : ∀ q, 2 ≤ q → q + 2 ≤ DINODE → get16 (put16 m p type) (p + q) = 0 := by
      intro q hq hq'
      have hbytes : get16 (put16 m p type) (p + q) = get16 (fun _ => 0) 0 := by
        refine get16_congr fun k hk => ?_
        rw [Nat.add_assoc, hbehind (q + k) (by omega) (by omega)]
      rw [hbytes]
      rfl
    have huint : ∀ q, 2 ≤ q → q + 4 ≤ DINODE → getU32 (put16 m p type) (p + q) = 0 := by
      intro q hq hq'
      refine getU32_eq_zero fun k hk => ?_
      rw [Nat.add_assoc, hbehind (q + k) (by omega) (by omega)]
    rw [getDinode, get16_put16, hshort 2 (by omega) (by omega), hshort 4 (by omega) (by omega),
      hshort 6 (by omega) (by omega), huint 8 (by omega) (by omega), newDinode]
    congr 1
    funext k
    have hk := k.isLt
    simp only [NDIRECT] at hk
    rw [Nat.add_assoc, huint (12 + 4 * k) (by omega) (by omega)]
  · rw [put16, blit_out (by omega), blit_out (by omega)]

/-! ## Allocating and freeing a block -/

theorem used_add (sb : Superblock) (d : Disk) (c : Nat) {bi : Nat} (h : bi < BPB) :
    used sb d (BPB * c + bi) = bit (d (sb.bblock (BPB * c))).mem bi := by
  have hpos : 0 < BPB := by decide
  rw [used, Superblock.bblock, Superblock.bblock, Nat.mul_add_div hpos, Nat.mul_div_cancel_left c hpos,
    Nat.div_eq_of_lt h, Nat.add_zero, Nat.mul_add_mod, Nat.mod_eq_of_lt h]

theorem freeBit_eq_some {s : Nat × Nat} (h : freeBit sb d (BPB * c) = some s) :
    ∃ bi, s = (BPB * c, bi) ∧ bi < BPB ∧ BPB * c + bi < sb.size ∧
      used sb d (BPB * c + bi) = false ∧ ∀ j, j < bi → used sb d (BPB * c + j) = true := by
  rw [freeBit, Option.map_eq_some_iff] at h
  obtain ⟨bi, hfind, rfl⟩ := h
  rw [List.find?_range_eq_some, Bool.and_eq_true, decide_eq_true_eq, Bool.not_eq_true',
    List.mem_range] at hfind
  obtain ⟨⟨hlt, hfree⟩, hbi, hall⟩ := hfind
  refine ⟨bi, rfl, hbi, hlt, by rw [used_add sb d c hbi]; exact hfree, fun j hj => ?_⟩
  have hj' := hall j hj
  rw [decide_eq_true (by omega), Bool.true_and, Bool.not_not] at hj'
  rw [used_add sb d c (by omega)]
  exact hj'

theorem freeBit_eq_none (h : freeBit sb d (BPB * c) = none) {bi : Nat} (hbi : bi < BPB)
    (hlt : BPB * c + bi < sb.size) : used sb d (BPB * c + bi) = true := by
  rw [freeBit, Option.map_eq_none_iff, List.find?_range_eq_none] at h
  have hbit := h bi hbi
  rw [decide_eq_true hlt, Bool.true_and, Bool.not_not] at hbit
  rw [used_add sb d c hbi]
  exact hbit

/-- **`balloc`** takes the first block that is not in use and zeroes it; it panics when there is
    none. -/
theorem balloc_cases (sb : Superblock) (d : Disk) :
    (∃ b, balloc sb d = .ok (b, bzero (mark sb d b) b) ∧ b < sb.size ∧ used sb d b = false ∧
      ∀ c, c < b → used sb d c = true) ∨
    (balloc sb d = .error "balloc: out of blocks" ∧ ∀ c, c < sb.size → used sb d c = true) := by
  have hpos : 0 < BPB := by decide
  have hall : ∀ {n : Nat}, (∀ j, j < n → freeBit sb d (0 + BPB * j) = none) → ∀ c, c < BPB * n →
      c < sb.size → used sb d c = true := by
    intro n hnone c hc hlt
    have hsplit := Nat.div_add_mod c BPB
    have hdiv : c / BPB < n := Nat.div_lt_of_lt_mul hc
    have hj := hnone (c / BPB) hdiv
    rw [Nat.zero_add] at hj
    have hused := freeBit_eq_none hj (Nat.mod_lt c hpos) (by rw [hsplit]; exact hlt)
    rwa [hsplit] at hused
  rcases findSome?_range'_cases (freeBit sb d) BPB ((sb.size + BPB - 1) / BPB) 0 with
    ⟨k, s, hk, hfind, hs, hbefore⟩ | ⟨hfind, hnone⟩
  · left
    rw [Nat.zero_add] at hs
    obtain ⟨bi, rfl, hbi, hlt, hfree, hbits⟩ := freeBit_eq_some hs
    have hblock : sb.bblock (BPB * k + bi) = sb.bblock (BPB * k) := by
      rw [Superblock.bblock, Superblock.bblock, Nat.mul_add_div hpos, Nat.div_eq_of_lt hbi,
        Nat.mul_div_cancel_left k hpos, Nat.add_zero]
    refine ⟨BPB * k + bi, ?_, hlt, hfree, fun c hc => ?_⟩
    · rw [balloc, hfind, mark, hblock, Nat.mul_add_mod, Nat.mod_eq_of_lt hbi]
    · by_cases hck : c < BPB * k
      · exact hall hbefore c hck (by omega)
      · have hbit := hbits (c - BPB * k) (by omega)
        rwa [Nat.add_sub_cancel' (by omega)] at hbit
  · right
    refine ⟨by rw [balloc, hfind], fun c hc => hall hnone c ?_ hc⟩
    have hceil := Nat.lt_div_mul_add hpos (a := sb.size + BPB - 1)
    rw [Nat.mul_comm]
    omega

/-! ## What else changes -/

theorem mark_apply (hb : b < sb.size) (hc : sb.nmeta ≤ c) : mark sb d b c = d c := by
  have := sb.bblock_lt hb
  exact Function.update_of_ne (by omega) _ _

theorem dinode_mark (hi : i < sb.ninodes) : dinode sb (mark sb d b) i = dinode sb d i :=
  dinode_congr (Function.update_of_ne (sb.bblock_ne_iblock hi) _ _)

theorem unmark_apply (hb : b < sb.size) (hc : sb.nmeta ≤ c) : unmark sb d b c = d c := by
  have := sb.bblock_lt hb
  exact Function.update_of_ne (by omega) _ _

theorem dinode_unmark (hi : i < sb.ninodes) : dinode sb (unmark sb d b) i = dinode sb d i :=
  dinode_congr (Function.update_of_ne (sb.bblock_ne_iblock hi) _ _)

/-- A data block is not part of the bitmap. -/
theorem used_update (hb : sb.nmeta ≤ b) (hc : c < sb.size) (v : Data) :
    used sb (Function.update d b v) c = used sb d c := by
  have := sb.bblock_lt hc
  exact used_congr (Function.update_of_ne (by omega) _ _)

/-- A data block holds no dinode. -/
theorem dinode_update_data (hb : sb.nmeta ≤ b) (hi : i < sb.ninodes) (v : Data) :
    dinode sb (Function.update d b v) i = dinode sb d i := by
  have := sb.iblock_lt_nmeta hi
  exact dinode_congr (Function.update_of_ne (by omega) _ _)

/-- An inode block is not part of the bitmap. -/
theorem used_update_iblock (hi : i < sb.ninodes) (v : Data) :
    used sb (Function.update d (sb.iblock i) v) c = used sb d c :=
  used_congr (Function.update_of_ne (sb.bblock_ne_iblock hi).symm _ _)

theorem update_iblock_apply (hi : i < sb.ninodes) (hc : sb.nmeta ≤ c) (v : Data) :
    Function.update d (sb.iblock i) v c = d c := by
  have := sb.iblock_lt_nmeta hi
  exact Function.update_of_ne (by omega) _ _

/-- **`bfree`** clears the bit, and panics when it is clear. -/
theorem bfree_of_used (h : used sb d b = true) : bfree sb d b = .ok (unmark sb d b) := if_pos h

end OsCodes.Inodes
