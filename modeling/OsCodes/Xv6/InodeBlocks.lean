/-
  Whose the blocks are.

  A block in front of the data blocks is the disk's own; every other block in use is a block of
  one file, or the indirect block of one inode.  `Good` says this, and that a file has blocks up
  to its length and no further; the length of a file that is being written may be ahead of the
  `size` of its inode.  `bmap` at the end of a file, and `itrunc`, keep it.

  1. `refs` gives for each owner the block that it has, and `Owned` says that the bitmap and this
     map agree, in the sense of `Lib.Ownership`;
  2. `Owned.balloc` gives a fresh data block or panics, exactly when no block is free;
  3. `bmap` for a block that the file does not have needs one block, or two where the indirect
     block is missing as well (`cost`); `bmap_of_none` says what it does with them, or that it
     panics;
  4. `Good.grow` lets the file grow into the block, and `Good.write` lets a block of a file be
     written.
-/
import Mathlib.Data.Finset.Card
import Mathlib.Data.Finset.Range
import OsCodes.Lib.Ownership
import OsCodes.Xv6.InodeDisk

namespace OsCodes.Inodes

open Bytes Log

/-! ## The blocks of a file -/

/-- A block number in an inode or in an indirect block; 0 is none. -/
def blockOf (v : UInt32) : Option Nat := if v = 0 then none else some v.toNat

/-- The indirect block. -/
def Dinode.pointer (x : Dinode) : Option Nat := blockOf (x.addrs (Fin.last NDIRECT))

/-- Block `bn` of the file. -/
def addrOf (d : Disk) (x : Dinode) (bn : Nat) : Option Nat :=
  if h : bn < NDIRECT then blockOf (x.addrs ⟨bn, Nat.lt_succ_of_lt h⟩)
  else if bn < MAXFILE then
    x.pointer.bind fun p => blockOf (getU32 (d p).mem (4 * (bn - NDIRECT)))
  else none

/-- Who a block belongs to: the front of the disk, a file, or the pointers of an inode. -/
inductive Owner
  | disk (b : Nat)
  | block (i bn : Nat)
  | pointer (i : Nat)
  deriving DecidableEq

/-- The block that belongs to an owner; `ino` gives the inodes. -/
def refs (sb : Superblock) (d : Disk) (ino : Nat → Dinode) : Owner → Option Nat
  | .disk b => if b < sb.nmeta then some b else none
  | .block i bn => if i < sb.ninodes then addrOf d (ino i) bn else none
  | .pointer i => if i < sb.ninodes then (ino i).pointer else none

/-- The block is on the disk and in use. -/
def taken (sb : Superblock) (d : Disk) (b : Nat) : Prop := b < sb.size ∧ used sb d b = true

/-- The bitmap has the blocks that belong to an owner, and no block has two owners. -/
structure Owned (sb : Superblock) (d : Disk) (ino : Nat → Dinode) : Prop where
  owns : Owns (refs sb d ino) (taken sb d)
  noLeak : NoLeak (refs sb d ino) (taken sb d)

/-- **The invariant**: in addition, the blocks of file `i` are those of its first `len i` bytes. -/
structure Good (sb : Superblock) (d : Disk) (ino : Nat → Dinode) (len : Nat → Nat) : Prop
    extends Owned sb d ino where
  mapped : ∀ {i bn}, i < sb.ninodes → bn < MAXFILE →
    ((addrOf d (ino i) bn).isSome ↔ bn * BSIZE < len i)
  pointer : ∀ {i}, i < sb.ninodes → ((ino i).pointer.isSome ↔ NDIRECT * BSIZE < len i)
  len_le : ∀ {i}, i < sb.ninodes → len i ≤ MAXFILE * BSIZE

section Frame

variable {sb : Superblock} {d d' : Disk} {ino ino' : Nat → Dinode} {len len' : Nat → Nat}
  {x x' : Dinode} {b c i bn : Nat}

theorem blockOf_ofNat (hpos : 0 < b) (hb : b < 4294967296) : blockOf (UInt32.ofNat b) = some b := by
  have hnat : (UInt32.ofNat b).toNat = b := by
    rw [UInt32.toNat_ofNat']
    exact Nat.mod_eq_of_lt hb
  rw [blockOf, if_neg, hnat]
  intro h0
  rw [h0] at hnat
  exact absurd hnat (by change ¬ (0 : Nat) = b; omega)

theorem blockOf_of_ne_zero {v : UInt32} (h : v ≠ 0) : blockOf v = some v.toNat := if_neg h

/-- The blocks of a file are found in the inode and in its indirect block. -/
theorem addrOf_congr (haddrs : x.addrs = x'.addrs) (h : ∀ p, x.pointer = some p → d p = d' p)
    (bn : Nat) : addrOf d x bn = addrOf d' x' bn := by
  have hpointer : x.pointer = x'.pointer := by rw [Dinode.pointer, Dinode.pointer, haddrs]
  rw [addrOf, addrOf, haddrs, ← hpointer]
  split
  · rfl
  · split
    · refine Option.bind_congr fun p hp => ?_
      rw [h p hp]
    · rfl

theorem Owned.used_meta (h : Owned sb d ino) (hc : c < sb.nmeta) : used sb d c = true := by
  have href : refs sb d ino (.disk c) = some c := if_pos hc
  exact (h.owns.marked href).2

/-- What belongs to an inode is a data block. -/
theorem Owned.nmeta_le (h : Owned sb d ino) {o : Owner} (ho : ∀ b, o ≠ .disk b)
    (hc : refs sb d ino o = some c) : sb.nmeta ≤ c := by
  by_contra hlt
  have href : refs sb d ino (.disk c) = some c := if_pos (by omega)
  exact ho c (h.owns.apart hc href)

theorem refs_block (hi : i < sb.ninodes) : refs sb d ino (.block i bn) = addrOf d (ino i) bn :=
  if_pos hi

theorem refs_pointer (hi : i < sb.ninodes) : refs sb d ino (.pointer i) = (ino i).pointer :=
  if_pos hi

/-- **The owners after a step on inode `i`** that gives it the block `b` at `bn`. -/
theorem refs_assign_block (hi : i < sb.ninodes)
    (hother : ∀ j p, j < sb.ninodes → j ≠ i → (ino j).pointer = some p → d p = d' p)
    (hpointer : x'.pointer = (ino i).pointer)
    (haddr : ∀ k, addrOf d' x' k = if k = bn then some b else addrOf d (ino i) k) :
    refs sb d' (Function.update ino i x') =
      Function.update (refs sb d ino) (.block i bn) (some b) := by
  funext o
  cases o with
  | disk c => rw [Function.update_of_ne (by simp)]; rfl
  | block j k =>
    by_cases hj : j < sb.ninodes
    · rw [refs_block hj]
      by_cases hji : j = i
      · rw [hji, Function.update_self, haddr]
        by_cases hk : k = bn
        · rw [if_pos hk, hk, Function.update_self]
        · rw [if_neg hk, Function.update_of_ne (by simp [hk]), refs_block hi]
      · rw [Function.update_of_ne hji, Function.update_of_ne (by simp [hji]), refs_block hj]
        exact (addrOf_congr rfl (fun p hp => hother j p hj hji hp) k).symm
    · rw [Function.update_of_ne (by rintro ⟨⟩; exact hj hi), refs, refs, if_neg hj, if_neg hj]
  | pointer j =>
    rw [Function.update_of_ne (by simp), refs, refs]
    by_cases hji : j = i
    · rw [hji, Function.update_self, hpointer]
    · rw [Function.update_of_ne hji]

/-- **The owners after a step on inode `i`** that gives it the indirect block `b`. -/
theorem refs_assign_pointer (hi : i < sb.ninodes)
    (hother : ∀ j p, j < sb.ninodes → j ≠ i → (ino j).pointer = some p → d p = d' p)
    (hpointer : x'.pointer = some b) (haddr : ∀ k, addrOf d' x' k = addrOf d (ino i) k) :
    refs sb d' (Function.update ino i x') =
      Function.update (refs sb d ino) (.pointer i) (some b) := by
  funext o
  cases o with
  | disk c => rw [Function.update_of_ne (by simp)]; rfl
  | block j k =>
    rw [Function.update_of_ne (by simp), refs, refs]
    by_cases hji : j = i
    · rw [hji, Function.update_self, haddr]
    · rw [Function.update_of_ne hji]
      split
      · rename_i hj
        exact (addrOf_congr rfl (fun p hp => hother j p hj hji hp) k).symm
      · rfl
  | pointer j =>
    by_cases hji : j = i
    · rw [hji, Function.update_self, refs_pointer hi, Function.update_self, hpointer]
    · rw [Function.update_of_ne (by simp [hji]), refs, refs, Function.update_of_ne hji]

/-- The two maps of `Owned` follow the owners. -/
theorem Owned.assign (h : Owned sb d ino) {o : Owner} (hempty : refs sb d ino o = none)
    (hb : b < sb.size) (hfree : used sb d b = false)
    (hused : ∀ c, c < sb.size → used sb d' c = (decide (c = b) || used sb d c))
    (hrefs : refs sb d' ino' = Function.update (refs sb d ino) o (some b)) : Owned sb d' ino' := by
  have hfree' : ¬ taken sb d b := fun ht => by
    rw [ht.2] at hfree
    cases hfree
  have htaken : ∀ c, taken sb d' c ↔ c = b ∨ taken sb d c := by
    intro c
    constructor
    · rintro ⟨hc, hu⟩
      rw [hused c hc, Bool.or_eq_true, decide_eq_true_eq] at hu
      exact hu.imp_right fun hu => ⟨hc, hu⟩
    · rintro (rfl | ⟨hc, hu⟩)
      · exact ⟨hb, by rw [hused c hb, decide_eq_true rfl, Bool.true_or]⟩
      · exact ⟨hc, by rw [hused c hc, hu, Bool.or_true]⟩
  constructor
  · rw [hrefs]
    exact h.owns.assign hfree' htaken
  · rw [hrefs]
    exact h.noLeak.assign hempty htaken

end Frame

/-! ## A new block -/

/-- The number of blocks that are not in use. -/
def free (sb : Superblock) (d : Disk) : Nat :=
  ((Finset.range sb.size).filter fun c => used sb d c = false).card

/-- Block `b` was free; it is in use and zeroed now, and nothing else has changed. -/
structure Fresh (sb : Superblock) (d : Disk) (b : Nat) (d' : Disk) : Prop where
  lt : b < sb.size
  nmeta_le : sb.nmeta ≤ b
  free : used sb d b = false
  used : ∀ c, c < sb.size → used sb d' c = (decide (c = b) || used sb d c)
  zero : d' b = fun _ => 0
  same : ∀ c, sb.nmeta ≤ c → c ≠ b → d' c = d c
  dinode : ∀ i, i < sb.ninodes → dinode sb d' i = dinode sb d i

section New

variable {sb : Superblock} {d d' : Disk} {ino : Nat → Dinode} {len : Nat → Nat} {x : Dinode}
  {ip : Inode} {b c i bn : Nat}

/-- A block that comes into use is one free block less. -/
theorem free_of_used (hb : b < sb.size) (hfree : used sb d b = false)
    (hused : ∀ c, c < sb.size → used sb d' c = (decide (c = b) || used sb d c)) :
    free sb d = free sb d' + 1 := by
  have hmem : b ∈ (Finset.range sb.size).filter fun c => used sb d c = false :=
    Finset.mem_filter.mpr ⟨Finset.mem_range.mpr hb, hfree⟩
  have herase : ((Finset.range sb.size).filter fun c => used sb d' c = false) =
      ((Finset.range sb.size).filter fun c => used sb d c = false).erase b := by
    ext c
    simp only [Finset.mem_filter, Finset.mem_range, Finset.mem_erase]
    constructor
    · rintro ⟨hc, hu⟩
      rw [hused c hc, Bool.or_eq_false_iff, decide_eq_false_iff_not] at hu
      exact ⟨hu.1, hc, hu.2⟩
    · rintro ⟨hcb, hc, hu⟩
      exact ⟨hc, by rw [hused c hc, hu, decide_eq_false hcb]; rfl⟩
  rw [free, free, herase, Finset.card_erase_add_one hmem]

theorem free_eq_zero (h : ∀ c, c < sb.size → used sb d c = true) : free sb d = 0 := by
  rw [free, Finset.card_eq_zero, Finset.filter_eq_empty_iff]
  intro c hc
  rw [h c (Finset.mem_range.mp hc)]
  decide

/-- **`balloc`** gives a fresh data block, and panics only when no block is free. -/
theorem Owned.balloc (h : Owned sb d ino) :
    (∃ b d', balloc sb d = .ok (b, d') ∧ Fresh sb d b d') ∨
    (balloc sb d = .error "balloc: out of blocks" ∧ free sb d = 0) := by
  rcases balloc_cases sb d with ⟨b, hok, hb, hfree, -⟩ | ⟨herr, hall⟩
  · have hmeta : sb.nmeta ≤ b := by
      by_contra hlt
      rw [h.used_meta (by omega)] at hfree
      cases hfree
    refine .inl ⟨b, _, hok, hb, hmeta, hfree, fun c hc => ?_, Function.update_self ..,
      fun c hc hne => ?_, fun i hi => ?_⟩
    · rw [bzero, used_update hmeta hc, used_mark]
    · rw [bzero, Function.update_of_ne hne, mark_apply hb hc]
    · rw [bzero, dinode_update_data hmeta hi, dinode_mark hi]
  · exact .inr ⟨herr, free_eq_zero hall⟩

theorem Fresh.blockOf (h : Fresh sb d b d') : blockOf (UInt32.ofNat b) = some b := by
  have := h.nmeta_le
  have := h.lt
  have := sb.nmeta_pos
  have := sb.size_fits
  exact blockOf_ofNat (by omega) (by omega)

/-- A block that belongs to someone is not the fresh one. -/
theorem Fresh.ne (h : Fresh sb d b d') (hown : Owned sb d ino) {o : Owner}
    (hc : refs sb d ino o = some c) : c ≠ b := by
  rintro rfl
  have hused := (hown.owns.marked hc).2
  rw [h.free] at hused
  cases hused

/-- The data blocks that belong to an inode are as they were. -/
theorem Fresh.keeps (h : Fresh sb d b d') (hown : Owned sb d ino) {o : Owner}
    (ho : ∀ b, o ≠ .disk b) (hc : refs sb d ino o = some c) : d' c = d c :=
  h.same c (hown.nmeta_le ho hc) (h.ne hown hc)

theorem Fresh.keeps_pointer (h : Fresh sb d b d') (hown : Owned sb d ino) (hi : i < sb.ninodes)
    (hc : (ino i).pointer = some c) : d' c = d c :=
  h.keeps hown (o := .pointer i) (by simp) (by rw [refs_pointer hi, hc])

end New

/-! ## `bmap` -/

section Bmap

variable {sb : Superblock} {d d' : Disk} {ino : Nat → Dinode} {len : Nat → Nat} {x : Dinode}
  {ip : Inode} {v : UInt32} {b c i bn : Nat}

theorem addrOf_direct (h : bn < NDIRECT) :
    addrOf d x bn = blockOf (x.addrs ⟨bn, Nat.lt_succ_of_lt h⟩) :=
  dif_pos h

theorem addrOf_indirect (h : NDIRECT ≤ bn) (h' : bn < MAXFILE) : addrOf d x bn =
    x.pointer.bind fun p => blockOf (getU32 (d p).mem (4 * (bn - NDIRECT))) := by
  rw [addrOf, dif_neg (by omega), if_pos h']

theorem addrOf_of_le (h : MAXFILE ≤ bn) : addrOf d x bn = none := by
  have : NDIRECT ≤ MAXFILE := by decide
  rw [addrOf, dif_neg (by omega), if_neg (by omega)]

theorem setAddr_inum (k : Fin (NDIRECT + 1)) (v : UInt32) : (ip.setAddr k v).inum = ip.inum := rfl

theorem setAddr_addrs (k : Fin (NDIRECT + 1)) (v : UInt32) :
    (ip.setAddr k v).addrs = Function.update ip.addrs k v := rfl

theorem pointer_setAddr_direct (hbn : bn < NDIRECT) (v : UInt32) :
    (ip.setAddr ⟨bn, Nat.lt_succ_of_lt hbn⟩ v).pointer = ip.pointer := by
  rw [Dinode.pointer, Dinode.pointer, setAddr_addrs]
  congr 1
  refine Function.update_of_ne ?_ _ _
  rw [Ne, Fin.ext_iff, Fin.val_last]
  exact Nat.ne_of_gt hbn

theorem addrOf_setAddr_direct (hbn : bn < NDIRECT) (v : UInt32) (k : Nat) :
    addrOf d (ip.setAddr ⟨bn, Nat.lt_succ_of_lt hbn⟩ v).toDinode k =
      if k = bn then blockOf v else addrOf d ip.toDinode k := by
  by_cases hk : k < NDIRECT
  · rw [addrOf_direct hk, addrOf_direct hk, setAddr_addrs]
    by_cases hkb : k = bn
    · subst hkb
      rw [if_pos rfl, Function.update_self]
    · rw [if_neg hkb, Function.update_of_ne (by rw [Ne, Fin.ext_iff]; exact hkb)]
  · rw [if_neg (by omega), addrOf, addrOf, dif_neg hk, dif_neg hk, pointer_setAddr_direct hbn]

theorem pointer_setAddr_last (v : UInt32) :
    (ip.setAddr (Fin.last NDIRECT) v).pointer = blockOf v := by
  rw [Dinode.pointer, setAddr_addrs, Function.update_self]

/-- A new indirect block is empty. -/
theorem addrOf_setAddr_last (hnone : ip.pointer = none) (hv : blockOf v = some b)
    (hzero : d' b = fun _ => 0) (k : Nat) :
    addrOf d' (ip.setAddr (Fin.last NDIRECT) v).toDinode k = addrOf d ip.toDinode k := by
  by_cases hk : k < NDIRECT
  · rw [addrOf_direct hk, addrOf_direct hk, setAddr_addrs, Function.update_of_ne]
    rw [Ne, Fin.ext_iff, Fin.val_last]
    exact Nat.ne_of_lt hk
  · by_cases hk' : k < MAXFILE
    · have hentry : getU32 (d' b).mem (4 * (k - NDIRECT)) = 0 := by
        refine getU32_eq_zero fun j hj => ?_
        rw [hzero, Block.mem]
        split
        · rfl
        · rfl
      rw [addrOf_indirect (by omega) hk', addrOf_indirect (by omega) hk', pointer_setAddr_last,
        hnone, hv, Option.bind_some, hentry]
      rfl
    · rw [addrOf_of_le (by omega), addrOf_of_le (by omega)]

/-- A new entry of the indirect block. -/
theorem addrOf_putU32 (hp : x.pointer = some c) (hbn : NDIRECT ≤ bn) (hbn' : bn < MAXFILE)
    (v : UInt32) (k : Nat) :
    addrOf (Function.update d c (Block.ofMem (putU32 (d c).mem (4 * (bn - NDIRECT)) v))) x k =
      if k = bn then blockOf v else addrOf d x k := by
  have hmax : MAXFILE = 140 := rfl
  have hdirect : NDIRECT = 12 := rfl
  have hsize : BSIZE = 512 := rfl
  by_cases hk : k < NDIRECT
  · rw [if_neg (by omega), addrOf_direct hk, addrOf_direct hk]
  · by_cases hk' : k < MAXFILE
    · have hmem : ∀ {y}, getU32 (putU32 (d c).mem (4 * (bn - NDIRECT)) v) (4 * (k - NDIRECT)) = y →
          getU32 (Block.ofMem (putU32 (d c).mem (4 * (bn - NDIRECT)) v) : Data).mem
            (4 * (k - NDIRECT)) = y := by
        rintro y rfl
        exact getU32_congr fun j hj => Block.mem_ofMem (by omega)
      rw [addrOf_indirect (by omega) hk', addrOf_indirect (by omega) hk', hp, Option.bind_some,
        Option.bind_some, Function.update_self]
      by_cases hkb : k = bn
      · rw [if_pos hkb, hmem (by rw [hkb, getU32_putU32])]
      · rw [if_neg hkb, hmem (getU32_putU32_of_disjoint (by omega))]
    · rw [if_neg (by omega), addrOf_of_le (by omega), addrOf_of_le (by omega)]

/-- What `bmap` does for a block that the file does not have: the file gets a fresh block, and
    an indirect block when it needs one and has none. -/
structure Grown (sb : Superblock) (d : Disk) (ino : Nat → Dinode) (ip : Inode) (bn b : Nat)
    (ip' : Inode) (d' : Disk) : Prop where
  inode : ip' = { ip with addrs := ip'.addrs }
  owned : Owned sb d' (Function.update ino ip.inum ip'.toDinode)
  addr : ∀ k, addrOf d' ip'.toDinode k = if k = bn then some b else addrOf d ip.toDinode k
  pointer : ip'.pointer.isSome ↔ NDIRECT ≤ bn ∨ ip.pointer.isSome
  keeps : ∀ c, sb.nmeta ≤ c → taken sb d c → ip.pointer ≠ some c → d' c = d c
  dinode : ∀ i, i < sb.ninodes → dinode sb d' i = dinode sb d i

theorem blockOf_eq_some : blockOf v = some b ↔ v ≠ 0 ∧ v.toNat = b := by
  rw [blockOf]
  split
  · rename_i h
    exact ⟨fun h' => (by cases h'), fun h' => absurd h h'.1⟩
  · rename_i h
    rw [Option.some.injEq]
    exact ⟨fun h' => ⟨h, h'⟩, fun h' => h'.2⟩

theorem blockOf_eq_none : blockOf v = none ↔ v = 0 := by
  rw [blockOf]
  split
  · rename_i h
    exact ⟨fun _ => h, fun _ => rfl⟩
  · rename_i h
    exact ⟨fun h' => (by cases h'), fun h' => absurd h' h⟩

theorem addrAt_of_some {k : Fin (NDIRECT + 1)} (h : blockOf (ip.addrs k) = some b) :
    addrAt sb d ip k = .ok (b, ip, d) := by
  obtain ⟨hne, rfl⟩ := blockOf_eq_some.mp h
  exact if_neg hne

theorem addrAt_of_ok {k : Fin (NDIRECT + 1)} (h : blockOf (ip.addrs k) = none)
    (hok : balloc sb d = .ok (b, d')) :
    addrAt sb d ip k = .ok (b, ip.setAddr k (UInt32.ofNat b), d') := by
  rw [addrAt, if_pos (blockOf_eq_none.mp h), hok]
  rfl

theorem addrAt_of_error {k : Fin (NDIRECT + 1)} {e : String} (h : blockOf (ip.addrs k) = none)
    (herr : balloc sb d = .error e) : addrAt sb d ip k = .error e := by
  rw [addrAt, if_pos (blockOf_eq_none.mp h), herr]
  rfl

theorem bmap_direct (h : bn < NDIRECT) : bmap sb d ip bn = addrAt sb d ip ⟨bn, Nat.lt_succ_of_lt h⟩ :=
  dif_pos h

/-- The second half of `bmap`, once there is an indirect block. -/
def bmapEntry (sb : Superblock) (bn bp : Nat) (ip : Inode) (d : Disk) :
    Except String (Nat × Inode × Disk) :=
  let addr := getU32 (d bp).mem (4 * bn)
  if addr = 0 then do
    let (addr, d) ← balloc sb d
    return (addr, ip,
      Function.update d bp (Block.ofMem (putU32 (d bp).mem (4 * bn) (UInt32.ofNat addr))))
  else return (addr.toNat, ip, d)

theorem bmap_indirect (h : NDIRECT ≤ bn) (h' : bn < MAXFILE) : bmap sb d ip bn = (do
    let (bp, ip, d) ← addrAt sb d ip (Fin.last NDIRECT)
    bmapEntry sb (bn - NDIRECT) bp ip d) := by
  have hmax : MAXFILE = NDIRECT + NINDIRECT := rfl
  rw [bmap, dif_neg (by omega)]
  exact if_pos (by omega)

/-- **`bmap`** finds a block that the file has. -/
theorem bmap_of_some (h : addrOf d ip.toDinode bn = some b) : bmap sb d ip bn = .ok (b, ip, d) := by
  by_cases hdirect : bn < NDIRECT
  · rw [addrOf_direct hdirect] at h
    rw [bmap_direct hdirect, addrAt_of_some h]
  · by_cases hmax : bn < MAXFILE
    · rw [addrOf_indirect (by omega) hmax, Option.bind_eq_some_iff] at h
      obtain ⟨p, hp, hentry⟩ := h
      obtain ⟨hne, hb⟩ := blockOf_eq_some.mp hentry
      rw [bmap_indirect (by omega) hmax, addrAt_of_some hp]
      exact (if_neg hne).trans (by rw [hb]; rfl)
    · rw [addrOf_of_le (by omega)] at h
      cases h

/-- A direct block is added. -/
theorem Grown.of_direct (hown : Owned sb d ino) (hi : ip.inum < sb.ninodes)
    (hx : ino ip.inum = ip.toDinode) (hbn : bn < NDIRECT) (hnone : addrOf d ip.toDinode bn = none)
    (hfresh : Fresh sb d b d') :
    Grown sb d ino ip bn b (ip.setAddr ⟨bn, Nat.lt_succ_of_lt hbn⟩ (UInt32.ofNat b)) d' := by
  have haddr : ∀ k, addrOf d' (ip.setAddr ⟨bn, Nat.lt_succ_of_lt hbn⟩ (UInt32.ofNat b)).toDinode k =
      if k = bn then some b else addrOf d ip.toDinode k := by
    intro k
    have hsame : addrOf d' ip.toDinode k = addrOf d ip.toDinode k :=
      addrOf_congr rfl (fun p hp => hfresh.keeps_pointer hown hi (by rw [hx]; exact hp)) k
    rw [addrOf_setAddr_direct hbn, hfresh.blockOf, hsame]
  refine ⟨rfl, ?_, haddr, ?_, fun c hc ht _ => ?_, hfresh.dinode⟩
  · refine hown.assign (o := .block ip.inum bn) ?_ hfresh.lt hfresh.free hfresh.used
      (refs_assign_block hi (fun j p hj _ hp => (hfresh.keeps_pointer hown hj hp).symm) ?_ ?_)
    · rw [refs_block hi, hx, hnone]
    · rw [pointer_setAddr_direct hbn, hx]
    · rw [hx]
      exact haddr
  · rw [pointer_setAddr_direct hbn]
    exact ⟨.inr, fun h => h.resolve_left (by omega)⟩
  · refine hfresh.same c hc ?_
    rintro rfl
    exact absurd hfresh.free (by rw [ht.2]; decide)

/-- An entry is added to the indirect block `c`. -/
theorem Grown.of_entry (hown : Owned sb d ino) (hi : ip.inum < sb.ninodes)
    (hx : ino ip.inum = ip.toDinode) (hp : ip.pointer = some c) (hbn : NDIRECT ≤ bn)
    (hbn' : bn < MAXFILE) (hnone : addrOf d ip.toDinode bn = none) (hfresh : Fresh sb d b d') :
    Grown sb d ino ip bn b ip (Function.update d' c
      (Block.ofMem (putU32 (d' c).mem (4 * (bn - NDIRECT)) (UInt32.ofNat b)))) := by
  have hpointer : refs sb d ino (.pointer ip.inum) = some c := by rw [refs_pointer hi, hx, hp]
  have hmeta : sb.nmeta ≤ c := hown.nmeta_le (by simp) hpointer
  have hkeep : d' c = d c := hfresh.keeps hown (by simp) hpointer
  have haddr : ∀ k, addrOf (Function.update d' c
      (Block.ofMem (putU32 (d' c).mem (4 * (bn - NDIRECT)) (UInt32.ofNat b)))) ip.toDinode k =
      if k = bn then some b else addrOf d ip.toDinode k := by
    intro k
    have hsame : addrOf d' ip.toDinode k = addrOf d ip.toDinode k := by
      refine addrOf_congr rfl (fun p hp' => ?_) k
      rw [hp, Option.some.injEq] at hp'
      rw [← hp', hkeep]
    rw [addrOf_putU32 hp hbn hbn', hfresh.blockOf, hsame]
  refine ⟨rfl, ?_, haddr, ?_, fun k hk ht hne => ?_, fun i hi => ?_⟩
  · refine hown.assign (o := .block ip.inum bn) ?_ hfresh.lt hfresh.free (fun k hk => ?_)
      (refs_assign_block hi (fun j p hj hji hp' => ?_) (by rw [hx]) (by rw [hx]; exact haddr))
    · rw [refs_block hi, hx, hnone]
    · rw [used_update hmeta hk, hfresh.used k hk]
    · -- the indirect block of another inode is another one
      have hpc : p ≠ c := by
        rintro rfl
        have howner := hown.owns.apart (s := .pointer j) (by rw [refs_pointer hj, hp']) hpointer
        exact hji (Owner.pointer.inj howner)
      rw [Function.update_of_ne hpc, hfresh.keeps_pointer hown hj hp']
  · rw [hp]
    exact ⟨.inr, fun _ => rfl⟩
  · have hkc : k ≠ c := by
      rintro rfl
      exact hne hp
    have hkb : k ≠ b := by
      rintro rfl
      exact absurd hfresh.free (by rw [ht.2]; decide)
    rw [Function.update_of_ne hkc, hfresh.same k hk hkb]
  · rw [dinode_update_data hmeta hi, hfresh.dinode i hi]

theorem Fresh.taken (h : Fresh sb d b d') (hc : taken sb d c) : c ≠ b ∧ taken sb d' c := by
  refine ⟨?_, hc.1, by rw [h.used c hc.1, hc.2, Bool.or_true]⟩
  rintro rfl
  exact absurd h.free (by rw [hc.2]; decide)

/-- An indirect block is added. -/
theorem Owned.of_pointer (hown : Owned sb d ino) (hi : ip.inum < sb.ninodes)
    (hx : ino ip.inum = ip.toDinode) (hp : ip.pointer = none) (hfresh : Fresh sb d b d') :
    Owned sb d' (Function.update ino ip.inum
      (ip.setAddr (Fin.last NDIRECT) (UInt32.ofNat b)).toDinode) := by
  refine hown.assign (o := .pointer ip.inum) ?_ hfresh.lt hfresh.free hfresh.used
    (refs_assign_pointer hi (fun j q hj _ hq => (hfresh.keeps_pointer hown hj hq).symm) ?_ ?_)
  · rw [refs_pointer hi, hx, hp]
  · rw [pointer_setAddr_last, hfresh.blockOf]
  · rw [hx]
    exact addrOf_setAddr_last hp hfresh.blockOf hfresh.zero

/-- An indirect block is added, and an entry to it. -/
theorem Grown.of_pointer (hown : Owned sb d ino) (hi : ip.inum < sb.ninodes)
    (hx : ino ip.inum = ip.toDinode) (hp : ip.pointer = none) (hbn : NDIRECT ≤ bn)
    (hbn' : bn < MAXFILE) {p : Nat} {d₁ : Disk} (hfresh : Fresh sb d p d₁)
    (hfresh' : Fresh sb d₁ b d') :
    Grown sb d ino ip bn b (ip.setAddr (Fin.last NDIRECT) (UInt32.ofNat p))
      (Function.update d' p
        (Block.ofMem (putU32 (d' p).mem (4 * (bn - NDIRECT)) (UInt32.ofNat b)))) := by
  have hpointer : (ip.setAddr (Fin.last NDIRECT) (UInt32.ofNat p)).pointer = some p := by
    rw [pointer_setAddr_last, hfresh.blockOf]
  have haddr : ∀ k, addrOf d₁ (ip.setAddr (Fin.last NDIRECT) (UInt32.ofNat p)).toDinode k =
      addrOf d ip.toDinode k :=
    addrOf_setAddr_last hp hfresh.blockOf hfresh.zero
  have hnone : addrOf d ip.toDinode bn = none := by rw [addrOf_indirect hbn hbn', hp]; rfl
  have hown' := hown.of_pointer hi hx hp hfresh
  have hgrown : Grown sb d₁ _ (ip.setAddr (Fin.last NDIRECT) (UInt32.ofNat p)) bn b _ _ :=
    Grown.of_entry hown' hi (Function.update_self ..) hpointer hbn hbn' (by rw [haddr, hnone])
      hfresh'
  refine ⟨rfl, ?_, fun k => ?_, ?_, fun k hk ht _ => ?_, fun i hi => ?_⟩
  · have howned := hgrown.owned
    rwa [setAddr_inum, Function.update_idem] at howned
  · rw [hgrown.addr, haddr]
  · rw [hpointer]
    exact ⟨fun _ => .inl hbn, fun _ => rfl⟩
  · obtain ⟨hne, ht'⟩ := hfresh.taken ht
    have hother : (ip.setAddr (Fin.last NDIRECT) (UInt32.ofNat p)).pointer ≠ some k := by
      rw [hpointer]
      exact fun heq => hne (Option.some.inj heq).symm
    rw [hgrown.keeps k hk ht' hother, hfresh.same k hk hne]
  · rw [hgrown.dinode i hi, hfresh.dinode i hi]

/-- The blocks that `bmap` needs for a block that the file does not have. -/
def cost (ip : Inode) (bn : Nat) : Nat := if NDIRECT ≤ bn ∧ ip.pointer = none then 2 else 1

/-- The bits after `bmap`, counted. -/
theorem Fresh.free_eq (h : Fresh sb d b d') : Inodes.free sb d = Inodes.free sb d' + 1 :=
  free_of_used h.lt h.free h.used

theorem free_update (hc : sb.nmeta ≤ c) (v : Data) : free sb (Function.update d c v) = free sb d := by
  rw [free, free]
  congr 1
  refine Finset.filter_congr fun k hk => ?_
  rw [used_update hc (Finset.mem_range.mp hk)]

/-- The second half of `bmap` for an entry that is 0. -/
theorem bmapEntry_of_none (hp : ip.pointer = some c) (hbn : NDIRECT ≤ bn) (hbn' : bn < MAXFILE)
    (hnone : addrOf d ip.toDinode bn = none) : bmapEntry sb (bn - NDIRECT) c ip d = (do
      let (addr, d) ← balloc sb d
      return (addr, ip, Function.update d c
        (Block.ofMem (putU32 (d c).mem (4 * (bn - NDIRECT)) (UInt32.ofNat addr))))) := by
  rw [addrOf_indirect hbn hbn', hp, Option.bind_some] at hnone
  exact if_pos (blockOf_eq_none.mp hnone)

/-- **`bmap`** gives the file a block that it does not have, and panics when there are not enough
    free blocks for it. -/
theorem bmap_of_none (hown : Owned sb d ino) (hi : ip.inum < sb.ninodes)
    (hx : ino ip.inum = ip.toDinode) (hbn : bn < MAXFILE) (hnone : addrOf d ip.toDinode bn = none) :
    (∃ b ip' d', bmap sb d ip bn = .ok (b, ip', d') ∧ Grown sb d ino ip bn b ip' d' ∧
      free sb d = free sb d' + cost ip bn) ∨
    (bmap sb d ip bn = .error "balloc: out of blocks" ∧ free sb d < cost ip bn) := by
  by_cases hdirect : bn < NDIRECT
  · have hcost : cost ip bn = 1 := if_neg (by omega)
    have haddr : blockOf (ip.addrs ⟨bn, Nat.lt_succ_of_lt hdirect⟩) = none := by
      rwa [addrOf_direct hdirect] at hnone
    rw [bmap_direct hdirect, hcost]
    rcases hown.balloc with ⟨b, d', hok, hfresh⟩ | ⟨herr, hzero⟩
    · exact .inl ⟨b, _, d', addrAt_of_ok haddr hok, .of_direct hown hi hx hdirect hnone hfresh,
        hfresh.free_eq⟩
    · exact .inr ⟨addrAt_of_error haddr herr, by omega⟩
  · rw [bmap_indirect (by omega) hbn]
    cases hp : ip.pointer with
    | some p =>
      have hcost : cost ip bn = 1 := if_neg (by rw [hp]; simp)
      have hpointer : refs sb d ino (.pointer ip.inum) = some p := by rw [refs_pointer hi, hx, hp]
      have hmeta : sb.nmeta ≤ p := hown.nmeta_le (by simp) hpointer
      rw [addrAt_of_some hp, hcost]
      change (∃ b ip' d', bmapEntry sb (bn - NDIRECT) p ip d = .ok (b, ip', d') ∧ _) ∨
        (bmapEntry sb (bn - NDIRECT) p ip d = _ ∧ _)
      rw [bmapEntry_of_none hp (by omega) hbn hnone]
      rcases hown.balloc with ⟨b, d', hok, hfresh⟩ | ⟨herr, hzero⟩
      · rw [hok]
        exact .inl ⟨b, _, _, rfl, .of_entry hown hi hx hp (by omega) hbn hnone hfresh,
          by rw [free_update hmeta]; exact hfresh.free_eq⟩
      · rw [herr]
        exact .inr ⟨rfl, by omega⟩
    | none =>
      have hcost : cost ip bn = 2 := if_pos ⟨by omega, hp⟩
      rw [hcost]
      rcases hown.balloc with ⟨p, d₁, hok, hfresh⟩ | ⟨herr, hzero⟩
      · have hown' := hown.of_pointer hi hx hp hfresh
        have hpointer : (ip.setAddr (Fin.last NDIRECT) (UInt32.ofNat p)).pointer = some p := by
          rw [pointer_setAddr_last, hfresh.blockOf]
        have hnone' : addrOf d₁ (ip.setAddr (Fin.last NDIRECT) (UInt32.ofNat p)).toDinode bn =
            none := by
          rw [addrOf_setAddr_last hp hfresh.blockOf hfresh.zero, hnone]
        have hfree := hfresh.free_eq
        rw [addrAt_of_ok hp hok]
        change (∃ b ip' d', bmapEntry sb (bn - NDIRECT) p
            (ip.setAddr (Fin.last NDIRECT) (UInt32.ofNat p)) d₁ = .ok (b, ip', d') ∧ _) ∨
          (bmapEntry sb (bn - NDIRECT) p (ip.setAddr (Fin.last NDIRECT) (UInt32.ofNat p)) d₁ = _ ∧ _)
        rw [bmapEntry_of_none hpointer (by omega) hbn hnone']
        rcases hown'.balloc with ⟨b, d', hok', hfresh'⟩ | ⟨herr, hzero⟩
        · have hfree' := hfresh'.free_eq
          rw [hok']
          refine .inl ⟨b, _, _, rfl,
            .of_pointer hown hi hx hp (by omega) hbn hfresh hfresh', ?_⟩
          rw [free_update hfresh.nmeta_le]
          omega
        · rw [herr]
          exact .inr ⟨rfl, by omega⟩
      · rw [addrAt_of_error hp herr]
        exact .inr ⟨rfl, by omega⟩

end Bmap

/-! ## The invariant -/

section Good

variable {sb : Superblock} {d d' : Disk} {ino : Nat → Dinode} {len : Nat → Nat} {ip ip' : Inode}
  {b c i bn z : Nat}

/-- The file grows into the block that `bmap` has given it. -/
theorem Good.grow (hg : Good sb d ino len) (hi : ip.inum < sb.ninodes)
    (hx : ino ip.inum = ip.toDinode) (hgrown : Grown sb d ino ip bn b ip' d') (hbn : bn < MAXFILE)
    (hlen : len ip.inum = bn * BSIZE) (hz : bn * BSIZE < z) (hz' : z ≤ (bn + 1) * BSIZE) :
    Good sb d' (Function.update ino ip.inum ip'.toDinode) (Function.update len ip.inum z) := by
  have hpointer := hg.pointer hi
  rw [hx, hlen] at hpointer
  have hother : ∀ {j}, j < sb.ninodes → j ≠ ip.inum → ∀ k,
      addrOf d' (ino j) k = addrOf d (ino j) k := by
    intro j hj hji k
    refine (addrOf_congr rfl (fun p hp => ?_) k).symm
    have href : refs sb d ino (.pointer j) = some p := by rw [refs_pointer hj, hp]
    refine (hgrown.keeps p (hg.toOwned.nmeta_le (by simp) href) (hg.owns.marked href) ?_).symm
    intro heq
    have howner := hg.owns.apart href (t := .pointer ip.inum) (by rw [refs_pointer hi, hx, heq])
    exact hji (Owner.pointer.inj howner)
  refine ⟨hgrown.owned, fun {j k} hj hk => ?_, fun {j} hj => ?_, fun {j} hj => ?_⟩
  · by_cases hji : j = ip.inum
    · rw [hji, Function.update_self, Function.update_self, hgrown.addr]
      by_cases hkb : k = bn
      · rw [if_pos hkb, hkb]
        exact ⟨fun _ => hz, fun _ => rfl⟩
      · have hmapped := hg.mapped hi hk
        rw [hx, hlen] at hmapped
        rw [if_neg hkb, hmapped]
        simp only [BSIZE] at hz hz' ⊢
        omega
    · rw [Function.update_of_ne hji, Function.update_of_ne hji, hother hj hji]
      exact hg.mapped hj hk
  · by_cases hji : j = ip.inum
    · rw [hji, Function.update_self, Function.update_self, hgrown.pointer, hpointer]
      simp only [BSIZE, NDIRECT] at hz hz' ⊢
      omega
    · rw [Function.update_of_ne hji, Function.update_of_ne hji]
      exact hg.pointer hj
  · by_cases hji : j = ip.inum
    · rw [hji, Function.update_self]
      exact hz'.trans (Nat.mul_le_mul_right _ hbn)
    · rw [Function.update_of_ne hji]
      exact hg.len_le hj

/-- Only the blocks of the inodes and the bitmap matter. -/
theorem Good.congr (hg : Good sb d ino len) (hused : ∀ c, c < sb.size → used sb d' c = used sb d c)
    (hsame : ∀ i p, i < sb.ninodes → (ino i).pointer = some p → d' p = d p) :
    Good sb d' ino len := by
  have haddr : ∀ {i}, i < sb.ninodes → ∀ bn, addrOf d' (ino i) bn = addrOf d (ino i) bn :=
    fun hi bn => (addrOf_congr rfl (fun p hp => (hsame _ p hi hp).symm) bn).symm
  have hrefs : refs sb d' ino = refs sb d ino := by
    funext o
    cases o with
    | disk b => rfl
    | block i bn =>
      rw [refs, refs]
      split
      · rename_i hi
        exact haddr hi bn
      · rfl
    | pointer i => rfl
  have htaken : taken sb d' = taken sb d := by
    funext c
    rw [taken, taken, eq_iff_iff]
    exact and_congr_right fun hc => by rw [hused c hc]
  refine ⟨⟨?_, ?_⟩, fun {i bn} hi hbn => ?_, hg.pointer, hg.len_le⟩
  · rw [hrefs, htaken]
    exact hg.owns
  · rw [hrefs, htaken]
    exact hg.noLeak
  · rw [haddr hi]
    exact hg.mapped hi hbn

/-- Writing to a block of a file. -/
theorem Good.write (hg : Good sb d ino len) (hi : i < sb.ninodes)
    (hb : addrOf d (ino i) bn = some b) (v : Data) : Good sb (Function.update d b v) ino len := by
  have href : refs sb d ino (.block i bn) = some b := by rw [refs_block hi, hb]
  have hmeta := hg.toOwned.nmeta_le (by simp) href
  refine hg.congr (fun c hc => used_update hmeta hc v) fun j p hj hp => ?_
  refine Function.update_of_ne ?_ _ _
  rintro rfl
  have howner := hg.owns.apart href (t := .pointer j) (by rw [refs_pointer hj, hp])
  cases howner

end Good

end OsCodes.Inodes
