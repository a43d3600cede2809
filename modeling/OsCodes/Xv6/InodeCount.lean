/-
  How many blocks there are.

  A block is in front of the data blocks, free, or one of a file; `Good.capacity` counts them.  So
  `writei` panics exactly when the files would be too large for the disk.

  The count goes by listing: all owners that there may be, each with at most one block, and no
  block with two (`Owned.card_used`); a file of `n` bytes has as many owners as `need n` says.
-/
import OsCodes.Xv6.InodeFile

namespace OsCodes.Inodes

open Bytes Log

variable {sb : Superblock} {d : Disk} {ino : Nat → Dinode} {len : Nat → Nat} {i z : Nat}

/-- Everyone a block may belong to. -/
def allOwners (sb : Superblock) : List Owner :=
  (List.range sb.nmeta).map .disk ++ (List.range sb.ninodes).flatMap owners

theorem allOwners_nodup (sb : Superblock) : (allOwners sb).Nodup := by
  rw [allOwners, List.nodup_append]
  refine ⟨List.nodup_range.map fun a b h => Owner.disk.inj h, ?_, ?_⟩
  · rw [List.nodup_flatMap]
    refine ⟨fun i _ => owners_nodup i, List.nodup_range.imp ?_⟩
    intro i j hij o ho ho'
    -- the inode is part of the owner's name
    rcases mem_owners ho with rfl | ⟨bn, rfl⟩
    · rcases mem_owners ho' with heq | ⟨bn', heq⟩
      · exact hij (Owner.pointer.inj heq)
      · cases heq
    · rcases mem_owners ho' with heq | ⟨bn', heq⟩
      · cases heq
      · exact hij (Owner.block.inj heq).1
  · intro o ho o' ho' heq
    obtain ⟨b, -, rfl⟩ := List.mem_map.mp ho
    obtain ⟨i, -, hi⟩ := List.mem_flatMap.mp ho'
    rcases mem_owners hi with rfl | ⟨bn, rfl⟩
    · cases heq
    · cases heq

theorem mem_allOwners {o : Owner} {b : Nat} (h : refs sb d ino o = some b) : o ∈ allOwners sb := by
  rw [allOwners, List.mem_append, List.mem_map, List.mem_flatMap]
  cases o with
  | disk c =>
    rw [refs, Option.ite_none_right_eq_some] at h
    exact .inl ⟨c, List.mem_range.mpr h.1, rfl⟩
  | block j bn =>
    have hj : j < sb.ninodes := by
      rw [refs, Option.ite_none_right_eq_some] at h
      exact h.1
    exact .inr ⟨j, List.mem_range.mpr hj, mem_owners_of_refs (.inr ⟨bn, rfl⟩) h⟩
  | pointer j =>
    have hj : j < sb.ninodes := by
      rw [refs, Option.ite_none_right_eq_some] at h
      exact h.1
    exact .inr ⟨j, List.mem_range.mpr hj, mem_owners_of_refs (.inl rfl) h⟩

/-- The blocks in use, listed by their owners. -/
theorem Owned.card_used (h : Owned sb d ino) :
    ((allOwners sb).filterMap (refs sb d ino)).length + free sb d = sb.size := by
  have hnodup : ((allOwners sb).filterMap (refs sb d ino)).Nodup :=
    (allOwners_nodup sb).filterMap fun _ _ _ hb hb' => h.owns.apart hb hb'
  -- what the owners have is what the bitmap marks: `marked` one way, `noLeak` the other
  have hset : ((allOwners sb).filterMap (refs sb d ino)).toFinset =
      (Finset.range sb.size).filter fun c => ¬ used sb d c = false := by
    ext c
    rw [List.mem_toFinset, List.mem_filterMap, Finset.mem_filter, Finset.mem_range,
      Bool.not_eq_false]
    constructor
    · rintro ⟨o, -, href⟩
      exact h.owns.marked href
    · intro ht
      obtain ⟨o, href⟩ := h.noLeak c ht
      exact ⟨o, mem_allOwners href, href⟩
  have hcard := Finset.card_filter_add_card_filter_not (s := Finset.range sb.size)
    fun c => used sb d c = false
  rw [Finset.card_range] at hcard
  rw [← List.toFinset_card_of_nodup hnodup, hset, free]
  omega

/-- The number of blocks in front of the end of a file. -/
theorem countP_blocks (z : Nat) : ∀ n,
    (List.range n).countP (fun bn => decide (bn * BSIZE < z)) =
      min n ((z + BSIZE - 1) / BSIZE) := by
  intro n
  induction n with
  | zero => rw [List.range_zero, List.countP_nil, Nat.zero_min]
  | succ n ih =>
    rw [List.range_succ, List.countP_append, ih, List.countP_singleton]
    simp only [BSIZE, decide_eq_true_eq]
    split
    · omega
    · omega

/-- An inode has as many blocks as its file needs. -/
theorem Good.length_blocksOf (hg : Good sb d ino len) (hi : i < sb.ninodes) :
    (blocksOf sb d ino i).length = need (len i) := by
  -- the blocks below the end of the file, and the indirect block if that is behind the direct ones
  have hblocks : (List.range MAXFILE).countP (fun bn => (refs sb d ino (.block i bn)).isSome) =
      (len i + BSIZE - 1) / BSIZE := by
    have hcongr : (List.range MAXFILE).countP (fun bn => (refs sb d ino (.block i bn)).isSome) =
        (List.range MAXFILE).countP (fun bn => decide (bn * BSIZE < len i)) := by
      refine List.countP_congr fun bn hbn => ?_
      rw [refs_block hi, hg.mapped hi (List.mem_range.mp hbn), decide_eq_true_eq]
    have hlen := hg.len_le hi
    rw [hcongr, countP_blocks]
    simp only [BSIZE] at hlen ⊢
    omega
  rw [blocksOf, List.length_filterMap_eq_countP, owners, List.countP_append, List.countP_map,
    List.countP_singleton, refs_pointer hi, need]
  refine congrArg₂ (· + ·) hblocks ?_
  have hpointer := hg.pointer hi
  by_cases h : NDIRECT * BSIZE < len i
  · rw [if_pos h, if_pos (hpointer.mpr h)]
  · rw [if_neg h, if_neg fun h' => h (hpointer.mp h')]

theorem sum_map_range (g : Nat → Nat) : ∀ n,
    ((List.range n).map g).sum = ∑ i ∈ Finset.range n, g i := by
  intro n
  induction n with
  | zero => rfl
  | succ n ih =>
    rw [List.range_succ, List.map_append, List.sum_append, ih, Finset.sum_range_succ]
    rfl

/-- **The blocks of the disk**: those in front, those of the files, and the free ones. -/
theorem Good.capacity (hg : Good sb d ino len) :
    sb.nmeta + ∑ i ∈ Finset.range sb.ninodes, need (len i) + free sb d = sb.size := by
  have hcard := hg.toOwned.card_used
  have hdisk : ((List.range sb.nmeta).map Owner.disk).filterMap (refs sb d ino) =
      List.range sb.nmeta := by
    rw [List.filterMap_map]
    have hsome : ∀ b ∈ List.range sb.nmeta, (refs sb d ino ∘ Owner.disk) b = some b :=
      fun b hb => if_pos (List.mem_range.mp hb)
    rw [List.filterMap_congr hsome, List.filterMap_some]
  have hfiles : ((List.range sb.ninodes).flatMap owners).filterMap (refs sb d ino) =
      (List.range sb.ninodes).flatMap (blocksOf sb d ino) := by
    rw [List.filterMap_flatMap]
    rfl
  have hneed : ((List.range sb.ninodes).map fun i => (blocksOf sb d ino i).length) =
      (List.range sb.ninodes).map fun i => need (len i) :=
    List.map_congr_left fun i hi => hg.length_blocksOf (List.mem_range.mp hi)
  rw [allOwners, List.filterMap_append, hdisk, hfiles, List.length_append, List.length_range,
    List.length_flatMap, hneed, sum_map_range] at hcard
  exact hcard

end OsCodes.Inodes
