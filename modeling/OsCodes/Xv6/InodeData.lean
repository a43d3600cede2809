/-
  What is in the files.

  `byteAt` is a byte of a file; it is found through the block map of the inode.  `Wrote` says what
  the loop of `writei` has done when it has written `m` bytes: these bytes are in the file, the
  rest of the file and every other file is as it was, and the invariant holds for the new length.

  1. `Good.byteAt_write` is the frame: a write to a block of a file changes bytes of that block
     only, and the block belongs to no other file;
  2. `turn` is the arithmetic that both loops share, since a turn stays inside one block;
  3. `readLoop_eq` and `Good.writeLoop` are the two loops, by induction on what is left; for the
     second, `Wrote.trans` puts the turns together, and `need` counts the blocks that are still to
     come.
-/
import OsCodes.Xv6.InodeBlocks

namespace OsCodes.Inodes

open Bytes Log

/-- Byte `p` of the file. -/
def byteAt (d : Disk) (x : Dinode) (p : Nat) : UInt8 :=
  (addrOf d x (p / BSIZE)).elim 0 fun b => (d b).mem (p % BSIZE)

/-- The first `n` bytes of the file. -/
def content (d : Disk) (x : Dinode) (n : Nat) : List UInt8 := (List.range n).map (byteAt d x)

section Byte

variable {sb : Superblock} {d d' : Disk} {ino : Nat → Dinode} {len : Nat → Nat} {x : Dinode}
  {ip ip' : Inode} {b c i j bn p z : Nat}

theorem byteAt_of_some (h : addrOf d x (p / BSIZE) = some b) :
    byteAt d x p = (d b).mem (p % BSIZE) := by
  rw [byteAt, h, Option.elim_some]

/-- A byte is the same where the block is the same. -/
theorem byteAt_congr {x' : Dinode} (haddr : addrOf d' x' (p / BSIZE) = addrOf d x (p / BSIZE))
    (h : ∀ b, addrOf d x (p / BSIZE) = some b → d' b = d b) : byteAt d' x' p = byteAt d x p := by
  rw [byteAt, byteAt, haddr]
  cases hb : addrOf d x (p / BSIZE) with
  | none => rfl
  | some b => rw [Option.elim_some, Option.elim_some, h b hb]

/-- A write to a block of a file does not change where the files are. -/
theorem Good.addrOf_write (hg : Good sb d ino len) (hi : i < sb.ninodes)
    (hb : addrOf d (ino i) bn = some b) (v : Data) (hj : j < sb.ninodes) (k : Nat) :
    addrOf (Function.update d b v) (ino j) k = addrOf d (ino j) k := by
  refine addrOf_congr rfl (fun q hq => ?_) k
  refine Function.update_of_ne ?_ _ _
  rintro rfl
  have howner := hg.owns.apart (s := .block i bn) (t := .pointer j) (by rw [refs_block hi, hb])
    (by rw [refs_pointer hj, hq])
  cases howner

/-- **A write to a block of a file** changes the bytes of that block of that file. -/
theorem Good.byteAt_write (hg : Good sb d ino len) (hi : i < sb.ninodes)
    (hb : addrOf d (ino i) bn = some b) (v : Data) (hj : j < sb.ninodes) (p : Nat) :
    byteAt (Function.update d b v) (ino j) p =
      if j = i ∧ p / BSIZE = bn then v.mem (p % BSIZE) else byteAt d (ino j) p := by
  have haddr := hg.addrOf_write hi hb v hj (p / BSIZE)
  split
  · rename_i h
    rw [h.1, h.2] at haddr
    rw [h.1, byteAt_of_some (b := b) (by rw [h.2, haddr, hb]), Function.update_self]
  · rename_i h
    refine byteAt_congr haddr fun c hc => Function.update_of_ne ?_ _ _
    rintro rfl
    have howner := hg.owns.apart (s := .block i bn) (t := .block j (p / BSIZE))
      (by rw [refs_block hi, hb]) (by rw [refs_block hj, hc])
    obtain ⟨hij, hbn⟩ := Owner.block.inj howner
    exact h ⟨hij.symm, hbn.symm⟩

/-- A block that `bmap` adds changes no other byte. -/
theorem Good.byteAt_grown (hg : Good sb d ino len) (hi : ip.inum < sb.ninodes)
    (hx : ino ip.inum = ip.toDinode) (hgrown : Grown sb d ino ip bn b ip' d') :
    (∀ p, p / BSIZE ≠ bn → byteAt d' ip'.toDinode p = byteAt d ip.toDinode p) ∧
    ∀ j p, j < sb.ninodes → j ≠ ip.inum → byteAt d' (ino j) p = byteAt d (ino j) p := by
  -- a block that has another owner than the inode's pointer is kept
  have hkeep : ∀ {o : Owner} {c : Nat}, (∀ b, o ≠ .disk b) → o ≠ .pointer ip.inum →
      refs sb d ino o = some c → d' c = d c := by
    intro o c hdisk hpointer href
    refine hgrown.keeps c (hg.toOwned.nmeta_le hdisk href) (hg.owns.marked href) fun heq => ?_
    exact hpointer (hg.owns.apart href (by rw [refs_pointer hi, hx, heq]))
  constructor
  · intro p hp
    refine byteAt_congr (by rw [hgrown.addr, if_neg hp]) fun c hc => ?_
    exact hkeep (o := .block ip.inum (p / BSIZE)) (by simp) (by simp) (by rw [refs_block hi, hx, hc])
  · intro j p hj hji
    refine byteAt_congr (addrOf_congr rfl (fun q hq => ?_) _).symm fun c hc => ?_
    · exact (hkeep (o := .pointer j) (by simp) (by simpa using hji)
        (by rw [refs_pointer hj, hq])).symm
    · exact hkeep (o := .block j (p / BSIZE)) (by simp) (by simp) (by rw [refs_block hj, hc])

/-- The length may move inside the last block. -/
theorem Good.stretch (hg : Good sb d ino len) (hi : i < sb.ninodes) (hbn : bn < MAXFILE)
    (hlen : bn * BSIZE < len i) (hz : len i ≤ z) (hz' : z ≤ max (len i) ((bn + 1) * BSIZE)) :
    Good sb d ino (Function.update len i z) := by
  have hmax := hg.len_le hi
  refine ⟨hg.toOwned, fun {j k} hj hk => ?_, fun {j} hj => ?_, fun {j} hj => ?_⟩
  · rw [hg.mapped hj hk]
    by_cases hji : j = i
    · rw [hji, Function.update_self]
      simp only [BSIZE] at hlen hz' ⊢
      omega
    · rw [Function.update_of_ne hji]
  · rw [hg.pointer hj]
    by_cases hji : j = i
    · rw [hji, Function.update_self]
      simp only [BSIZE, NDIRECT] at hlen hz' ⊢
      omega
    · rw [Function.update_of_ne hji]
  · by_cases hji : j = i
    · rw [hji, Function.update_self]
      have hle : (bn + 1) * BSIZE ≤ MAXFILE * BSIZE := Nat.mul_le_mul_right _ hbn
      omega
    · rw [Function.update_of_ne hji]
      exact hg.len_le hj

end Byte

/-- The number of blocks of a file of `z` bytes, with its indirect block. -/
def need (z : Nat) : Nat := (z + BSIZE - 1) / BSIZE + if NDIRECT * BSIZE < z then 1 else 0

/-! ## Reading -/

section Read

variable {sb : Superblock} {d : Disk} {ip : Inode} {n tot off z b : Nat} {dst : List UInt8}

/-- The end of a turn of the loops: the turn stays in one block. -/
theorem turn (hm : n ≤ BSIZE - off % BSIZE) {k : Nat} (hk : k < n) :
    (off + k) / BSIZE = off / BSIZE ∧ (off + k) % BSIZE = off % BSIZE + k := by
  simp only [BSIZE] at hm ⊢
  omega

theorem readLoop_step (h : tot < n) (hb : addrOf d ip.toDinode (off / BSIZE) = some b) :
    readLoop sb n tot off dst ip d =
      readLoop sb n (tot + min (n - tot) (BSIZE - off % BSIZE))
        (off + min (n - tot) (BSIZE - off % BSIZE))
        (dst ++ (List.range (min (n - tot) (BSIZE - off % BSIZE))).map fun k =>
          byteAt d ip.toDinode (off + k)) ip d := by
  rw [readLoop, dif_pos h, bmap_of_some hb]
  change readLoop sb n _ _ _ ip d = _
  congr 2
  refine List.map_congr_left fun k hk => ?_
  obtain ⟨hdiv, hmod⟩ := turn (Nat.min_le_right (n - tot) _) (List.mem_range.mp hk)
  rw [byteAt_of_some (b := b) (by rw [hdiv, hb]), hmod, view_apply]

/-- **The loop of `readi`** copies the bytes of the file and changes nothing. -/
theorem readLoop_eq (hmapped : ∀ bn, bn * BSIZE < z → (addrOf d ip.toDinode bn).isSome)
    (htot : tot ≤ n) (hoff : off + (n - tot) ≤ z) : readLoop sb n tot off dst ip d =
      .ok (dst ++ (List.range (n - tot)).map fun k => byteAt d ip.toDinode (off + k), ip, d) := by
  induction hleft : n - tot using Nat.strong_induction_on generalizing tot off dst with
  | _ left ih =>
    by_cases h : tot < n
    · obtain ⟨b, hb⟩ := Option.isSome_iff_exists.mp
        (hmapped (off / BSIZE) (by have := Nat.div_mul_le_self off BSIZE; omega))
      have hpos : 0 < BSIZE - off % BSIZE := Nat.sub_pos_of_lt (Nat.mod_lt _ (by decide))
      rw [readLoop_step h hb]
      generalize hm : min (n - tot) (BSIZE - off % BSIZE) = m
      rw [ih (n - (tot + m)) (by omega) (by omega) (by omega) rfl, List.append_assoc]
      have hsplit : left = m + (n - (tot + m)) := by omega
      rw [hsplit, List.range_add, List.map_append, List.map_map]
      congr 4
      refine List.map_congr_left fun k _ => ?_
      rw [Function.comp_apply, Nat.add_assoc]
    · have h0 : left = 0 := by omega
      rw [readLoop, dif_neg h, h0, List.range_zero, List.map_nil, List.append_nil]
      rfl

end Read

/-! ## Writing -/

/-- `m` bytes of `src` have been written at `off` to the inode `ip`. -/
structure Wrote (sb : Superblock) (d : Disk) (ino : Nat → Dinode) (len : Nat → Nat) (ip : Inode)
    (src : Mem) (off m : Nat) (ip' : Inode) (d' : Disk) : Prop where
  inode : ip' = { ip with addrs := ip'.addrs }
  good : Good sb d' (Function.update ino ip.inum ip'.toDinode)
    (Function.update len ip.inum (max (len ip.inum) (off + m)))
  bytes : ∀ p, p < max (len ip.inum) (off + m) → byteAt d' ip'.toDinode p =
    if off ≤ p ∧ p < off + m then src (p - off) else byteAt d ip.toDinode p
  other : ∀ j p, j < sb.ninodes → j ≠ ip.inum → byteAt d' (ino j) p = byteAt d (ino j) p
  dinode : ∀ j, j < sb.ninodes → dinode sb d' j = dinode sb d j
  inside : off + m ≤ len ip.inum → ip' = ip

section Write

variable {sb : Superblock} {d d' d₁ : Disk} {ino : Nat → Dinode} {len : Nat → Nat}
  {ip ip' ip₁ : Inode} {src : Mem} {off m m' n tot b bn : Nat}

theorem Wrote.refl (hg : Good sb d ino len) (hx : ino ip.inum = ip.toDinode)
    (hoff : off ≤ len ip.inum) : Wrote sb d ino len ip src off 0 ip d where
  inode := rfl
  good := by
    rw [Nat.add_zero, max_eq_left hoff, Function.update_eq_self, ← hx, Function.update_eq_self]
    exact hg
  bytes p _ := by rw [if_neg (by omega)]
  other _ _ _ _ := rfl
  dinode _ _ := rfl
  inside _ := rfl

/-- One write after the other, where the second begins at the end of the first. -/
theorem Wrote.trans (h : Wrote sb d ino len ip src off m ip₁ d₁)
    (h' : Wrote sb d₁ (Function.update ino ip.inum ip₁.toDinode)
      (Function.update len ip.inum (max (len ip.inum) (off + m))) ip₁ (view src m) (off + m) m'
      ip' d') : Wrote sb d ino len ip src off (m + m') ip' d' := by
  have hinum : ip₁.inum = ip.inum := by rw [h.inode]
  have hmax : max (max (len ip.inum) (off + m)) (off + m + m') =
      max (len ip.inum) (off + (m + m')) := by omega
  constructor
  · rw [h'.inode, h.inode]
  · have hgood := h'.good
    rw [hinum, Function.update_idem, Function.update_idem, Function.update_self, hmax] at hgood
    exact hgood
  · intro p hp
    have hbytes := h'.bytes p
    rw [hinum, Function.update_self, hmax] at hbytes
    rw [hbytes hp]
    by_cases hlate : off + m ≤ p ∧ p < off + m + m'
    · rw [if_pos hlate, if_pos (by omega), view_apply]
      congr 1
      omega
    · rw [if_neg hlate, h.bytes p (by omega)]
      by_cases hearly : off ≤ p ∧ p < off + m
      · rw [if_pos hearly, if_pos (by omega)]
      · rw [if_neg hearly, if_neg (by omega)]
  · intro j p hj hji
    have hother := h'.other j p hj (by rw [hinum]; exact hji)
    rw [Function.update_of_ne hji] at hother
    rw [hother, h.other j p hj hji]
  · exact fun j hj => (h'.dinode j hj).trans (h.dinode j hj)
  · intro hle
    have hfirst := h.inside (by omega)
    have hsecond := h'.inside (by rw [hinum, Function.update_self]; omega)
    rw [hsecond, hfirst]

/-- **A turn** in a block that the file has. -/
theorem Wrote.of_mapped (hg : Good sb d ino len) (hi : ip.inum < sb.ninodes)
    (hx : ino ip.inum = ip.toDinode) (hbn : off / BSIZE < MAXFILE)
    (hb : addrOf d ip.toDinode (off / BSIZE) = some b) (hm : m ≤ BSIZE - off % BSIZE) :
    Wrote sb d ino len ip src off m ip
      (Function.update d b (Block.ofMem (blit (d b).mem (off % BSIZE) m src))) := by
  have hb' : addrOf d (ino ip.inum) (off / BSIZE) = some b := by rw [hx, hb]
  have hlen : off / BSIZE * BSIZE < len ip.inum :=
    (hg.mapped hi hbn).mp (by rw [hb']; rfl)
  have hmeta : sb.nmeta ≤ b := hg.toOwned.nmeta_le (o := .block ip.inum (off / BSIZE)) (by simp)
    (by rw [refs_block hi, hb'])
  constructor
  · rfl
  · rw [← hx, Function.update_eq_self]
    refine (hg.write hi hb' _).stretch hi hbn hlen (le_max_left _ _) ?_
    simp only [BSIZE] at hm ⊢
    omega
  · intro p hp
    rw [← hx, hg.byteAt_write hi hb' _ hi]
    by_cases hblock : p / BSIZE = off / BSIZE
    · have hmod : p % BSIZE < BSIZE := Nat.mod_lt _ (by decide)
      rw [if_pos ⟨rfl, hblock⟩, Block.mem_ofMem hmod]
      by_cases hin : off ≤ p ∧ p < off + m
      · rw [if_pos hin, blit_in (by simp only [BSIZE] at hblock ⊢; omega)]
        congr 1
        simp only [BSIZE] at hblock ⊢
        omega
      · rw [if_neg hin, blit_out (by simp only [BSIZE] at hblock ⊢; omega),
          byteAt_of_some (b := b) (by rw [hblock, hb'])]
    · rw [if_neg fun h => hblock h.2, if_neg]
      simp only [BSIZE] at hm hblock ⊢
      omega
  · intro j p hj hji
    rw [hg.byteAt_write hi hb' _ hj, if_neg fun h => hji h.1]
  · exact fun j hj => dinode_update_data hmeta hj _
  · exact fun _ => rfl

/-- **A turn** in a block that `bmap` adds. -/
theorem Wrote.of_grown (hg : Good sb d ino len) (hi : ip.inum < sb.ninodes)
    (hx : ino ip.inum = ip.toDinode) (hbn : bn < MAXFILE) (hlen : len ip.inum = bn * BSIZE)
    (hgrown : Grown sb d ino ip bn b ip' d') (hpos : 0 < m) (hm : m ≤ BSIZE) :
    Wrote sb d ino len ip src (bn * BSIZE) m ip'
      (Function.update d' b (Block.ofMem (blit (d' b).mem 0 m src))) := by
  have hinum : ip'.inum = ip.inum := by rw [hgrown.inode]
  have hgood := hg.grow (z := bn * BSIZE + m) hi hx hgrown hbn hlen (by omega)
    (by rw [Nat.add_mul]; omega)
  obtain ⟨hself, hrest⟩ := hg.byteAt_grown hi hx hgrown
  have hzero : bn * BSIZE / BSIZE = bn := Nat.mul_div_cancel _ (by decide)
  have hmod : bn * BSIZE % BSIZE = 0 := Nat.mul_mod_left _ _
  have hb : addrOf d' ip'.toDinode (bn * BSIZE / BSIZE) = some b := by
    rw [hzero, hgrown.addr, if_pos rfl]
  have hwrote : Wrote sb d' _ _ ip' src _ m _ _ :=
    Wrote.of_mapped hgood (by rw [hinum]; exact hi) (by rw [hinum, Function.update_self])
      (by rw [hzero]; exact hbn) hb (by rw [hmod]; exact hm)
  rw [hmod] at hwrote
  constructor
  · exact hgrown.inode
  · have hgood' := hwrote.good
    rw [hinum, Function.update_idem, Function.update_idem, Function.update_self, max_self] at hgood'
    rw [hlen, max_eq_right (by omega)]
    exact hgood'
  · intro p hp
    have hbytes := hwrote.bytes p
    rw [hinum, Function.update_self, max_self] at hbytes
    rw [hbytes (by omega)]
    split
    · rfl
    · rename_i hout
      refine hself p ?_
      simp only [BSIZE] at hp hlen hm hout ⊢
      omega
  · intro j p hj hji
    have hother := hwrote.other j p hj (by rw [hinum]; exact hji)
    rw [Function.update_of_ne hji] at hother
    rw [hother, hrest j p hj hji]
  · exact fun j hj => (hwrote.dinode j hj).trans (hgrown.dinode j hj)
  · exact fun hle => absurd hle (by omega)

theorem need_mono {z z' : Nat} (h : z ≤ z') : need z ≤ need z' := by
  rw [need, need]
  refine Nat.add_le_add (Nat.div_le_div_right (by omega)) ?_
  split
  · rw [if_pos (by omega)]
  · omega

/-- A length in the same block needs no more blocks. -/
theorem need_eq {z z' : Nat} (hbn : bn * BSIZE < z) (hz : z ≤ z')
    (hz' : z' ≤ max z ((bn + 1) * BSIZE)) : need z' = need z := by
  rw [need, need]
  simp only [BSIZE, NDIRECT] at hbn hz' ⊢
  congr 1
  · omega
  · congr 1
    rw [eq_iff_iff]
    omega

/-- A length in the next block needs what `bmap` takes for it. -/
theorem need_add (hpointer : ip.pointer.isSome ↔ NDIRECT * BSIZE < bn * BSIZE) (hpos : 0 < m)
    (hm : m ≤ BSIZE) : need (bn * BSIZE + m) = need (bn * BSIZE) + cost ip bn := by
  have hnone : ip.pointer = none ↔ bn ≤ NDIRECT := by
    rw [← Option.not_isSome_iff_eq_none, hpointer]
    simp only [BSIZE, NDIRECT]
    omega
  have hdiv : (bn * BSIZE + m + BSIZE - 1) / BSIZE = (bn * BSIZE + BSIZE - 1) / BSIZE + 1 := by
    simp only [BSIZE] at hm ⊢
    omega
  rw [need, need, hdiv]
  by_cases heq : bn = NDIRECT
  · have hcost : cost ip bn = 2 := if_pos ⟨by omega, hnone.mpr (by omega)⟩
    rw [hcost, heq, if_pos (by omega), if_neg (by omega)]
  · have hcost : cost ip bn = 1 := if_neg fun h => heq (by have := hnone.mp h.2; omega)
    have hiff : NDIRECT * BSIZE < bn * BSIZE + m ↔ NDIRECT * BSIZE < bn * BSIZE := by
      simp only [BSIZE, NDIRECT] at hm heq ⊢
      omega
    rw [hcost]
    simp only [hiff]
    omega

/-- **A turn of the loop of `writei`**: `m` bytes are written, or no block is left for them. -/
theorem Good.turn (hg : Good sb d ino len) (src : Mem) (hi : ip.inum < sb.ninodes)
    (hx : ino ip.inum = ip.toDinode) (hoff : off ≤ len ip.inum) (hmax : off < MAXFILE * BSIZE)
    (hpos : 0 < m) (hm : m ≤ BSIZE - off % BSIZE) :
    (∃ b ip₁ d₁, bmap sb d ip (off / BSIZE) = .ok (b, ip₁, d₁) ∧
      Wrote sb d ino len ip src off m ip₁
        (Function.update d₁ b (Block.ofMem (blit (d₁ b).mem (off % BSIZE) m src))) ∧
      free sb d + need (len ip.inum) =
        free sb (Function.update d₁ b (Block.ofMem (blit (d₁ b).mem (off % BSIZE) m src))) +
          need (max (len ip.inum) (off + m))) ∨
    (bmap sb d ip (off / BSIZE) = .error "balloc: out of blocks" ∧
      free sb d + need (len ip.inum) < need (max (len ip.inum) (off + m))) := by
  have hbn : off / BSIZE < MAXFILE := Nat.div_lt_of_lt_mul (by rw [Nat.mul_comm]; exact hmax)
  have hmapped := hg.mapped hi hbn
  rw [hx] at hmapped
  cases hb : addrOf d ip.toDinode (off / BSIZE) with
  | some b =>
    have hlen : off / BSIZE * BSIZE < len ip.inum := hmapped.mp (by rw [hb]; rfl)
    have hmeta : sb.nmeta ≤ b := hg.toOwned.nmeta_le (o := .block ip.inum (off / BSIZE)) (by simp)
      (by rw [refs_block hi, hx, hb])
    refine .inl ⟨b, ip, d, bmap_of_some hb, .of_mapped hg hi hx hbn hb hm, ?_⟩
    rw [free_update hmeta, need_eq hlen (le_max_left _ _)]
    simp only [BSIZE] at hm ⊢
    omega
  | none =>
    -- the file ends in front of this block, and there the write starts
    have hlen : len ip.inum = off / BSIZE * BSIZE := by
      rw [hb] at hmapped
      have hend : ¬ off / BSIZE * BSIZE < len ip.inum := fun h => by cases hmapped.mpr h
      simp only [BSIZE] at hend ⊢
      omega
    have hstart : off = off / BSIZE * BSIZE := by
      have := Nat.div_mul_le_self off BSIZE
      omega
    have hmod : off % BSIZE = 0 := by
      rw [hstart]
      exact Nat.mul_mod_left _ _
    have hpointer := hg.pointer hi
    rw [hx, hlen] at hpointer
    rw [hmod] at hm
    have hneed : need (max (len ip.inum) (off + m)) = need (len ip.inum) + cost ip (off / BSIZE) := by
      rw [max_eq_right (by omega), hlen, ← need_add hpointer hpos hm, ← hstart]
    rw [hneed, hmod]
    rcases bmap_of_none hg.toOwned hi hx hbn hb with ⟨b, ip₁, d₁, hok, hgrown, hfree⟩ | ⟨herr, hfree⟩
    · have hwrote : Wrote sb d ino len ip src _ m _ _ :=
        Wrote.of_grown hg hi hx hbn hlen hgrown hpos hm
      rw [← hstart] at hwrote
      have hmeta : sb.nmeta ≤ b := hgrown.owned.nmeta_le (o := .block ip.inum (off / BSIZE)) (by simp)
        (by rw [refs_block hi, Function.update_self, hgrown.addr, if_pos rfl])
      refine .inl ⟨b, ip₁, d₁, hok, hwrote, ?_⟩
      rw [free_update hmeta]
      omega
    · exact .inr ⟨herr, by omega⟩

theorem writeLoop_step (h : tot < n) (hok : bmap sb d ip (off / BSIZE) = .ok (b, ip₁, d₁)) :
    writeLoop sb src n tot off ip d = writeLoop sb src n
      (tot + min (n - tot) (BSIZE - off % BSIZE)) (off + min (n - tot) (BSIZE - off % BSIZE)) ip₁
      (Function.update d₁ b (Block.ofMem
        (blit (d₁ b).mem (off % BSIZE) (min (n - tot) (BSIZE - off % BSIZE)) (view src tot)))) := by
  rw [writeLoop, dif_pos h, hok]
  rfl

/-- **The loop of `writei`** writes what is left of the source, or panics when there are not
    enough free blocks for it. -/
theorem Good.writeLoop (hg : Good sb d ino len) (src : Mem) (hi : ip.inum < sb.ninodes)
    (hx : ino ip.inum = ip.toDinode) (htot : tot ≤ n) (hoff : off ≤ len ip.inum)
    (hmax : off + (n - tot) ≤ MAXFILE * BSIZE) :
    (∃ ip' d', writeLoop sb src n tot off ip d = .ok (off + (n - tot), ip', d') ∧
      Wrote sb d ino len ip (view src tot) off (n - tot) ip' d' ∧
      free sb d + need (len ip.inum) =
        free sb d' + need (max (len ip.inum) (off + (n - tot)))) ∨
    (writeLoop sb src n tot off ip d = .error "balloc: out of blocks" ∧
      free sb d + need (len ip.inum) < need (max (len ip.inum) (off + (n - tot)))) := by
  induction hleft : n - tot using Nat.strong_induction_on generalizing tot off ip d ino len with
  | _ left ih =>
    by_cases h : tot < n
    · have hpos : 0 < BSIZE - off % BSIZE := Nat.sub_pos_of_lt (Nat.mod_lt _ (by decide))
      rcases hg.turn (view src tot) (m := min (n - tot) (BSIZE - off % BSIZE)) hi hx hoff
          (by omega) (by omega) (Nat.min_le_right _ _) with
        ⟨b, ip₁, d₁, hok, hwrote, hfree⟩ | ⟨herr, hfree⟩
      · rw [writeLoop_step h hok]
        have hle : min (n - tot) (BSIZE - off % BSIZE) ≤ n - tot := Nat.min_le_left _ _
        have hlt : 0 < min (n - tot) (BSIZE - off % BSIZE) := by omega
        generalize min (n - tot) (BSIZE - off % BSIZE) = m at hwrote hfree hle hlt ⊢
        generalize Function.update d₁ b _ = d₂ at hwrote hfree ⊢
        have hinum : ip₁.inum = ip.inum := by rw [hwrote.inode]
        have hadd : off + m + (n - (tot + m)) = off + left := by omega
        have hlen : max (max (len ip.inum) (off + m)) (off + left) =
            max (len ip.inum) (off + left) := by omega
        have hsum : m + (n - (tot + m)) = left := by omega
        have hsmaller : n - (tot + m) < left := by omega
        have htot' : tot + m ≤ n := by omega
        have hmax' : off + m + (n - (tot + m)) ≤ MAXFILE * BSIZE := by omega
        have hnext := ih _ hsmaller hwrote.good (by rw [hinum]; exact hi)
          (by rw [hinum, Function.update_self]) htot'
          (by rw [hinum, Function.update_self]; exact le_max_right _ _) hmax' rfl
        rw [hinum, Function.update_self] at hnext
        rw [hadd, hlen] at hnext
        rcases hnext with ⟨ip', d', hok', hwrote', hfree'⟩ | ⟨herr, hfree'⟩
        · refine .inl ⟨ip', d', hok', ?_, by omega⟩
          have hview : view src (tot + m) = view (view src tot) m := by
            funext k
            rw [view_apply, view_apply, view_apply, Nat.add_assoc]
          rw [hview] at hwrote'
          have htrans := hwrote.trans hwrote'
          rwa [hsum] at htrans
        · exact .inr ⟨herr, by omega⟩
      · -- the block is one that the rest of the write needs as well
        have hmono : need (max (len ip.inum)
            (off + min (n - tot) (BSIZE - off % BSIZE))) ≤ need (max (len ip.inum) (off + left)) :=
          need_mono (by omega)
        refine .inr ⟨?_, by omega⟩
        rw [writeLoop, dif_pos h, herr]
        rfl
    · have h0 : left = 0 := by omega
      subst h0
      refine .inl ⟨ip, d, ?_, ?_, by rw [Nat.add_zero, max_eq_left hoff]⟩
      · rw [writeLoop, dif_neg h, Nat.add_zero]
        rfl
      · exact .refl hg hx hoff

end Write

end OsCodes.Inodes
