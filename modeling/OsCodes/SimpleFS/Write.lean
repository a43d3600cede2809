/-
  What `simplefs_write` does on a disk in order.

  Behind the checks a write has three phases: the allocation loop, the data phase (the partial
  block, then whole blocks) and the commit of the inode.  `DataOnly` bounds the bytes of the data
  phase and `newByte` says what a block holds afterwards.  `Wrote` puts the phases together for a
  successful call, `Leaked` for one that ran out of blocks, and `write_cases` is the way the later
  modules look at `simplefs_write`.

  Structure:

  1. the data phase, for any entries: the partial block (`writePartial_ok`) and the loop over
     whole blocks (`writeLoop_ok`, by induction on what is left to copy), put together in
     `writeData_ok`;
  2. the entries that the allocation loop leaves keep ownership (`Filled.owns`);
  3. the commit (`wrote_of_data`): the record of the inode is written last, and with it the size;
  4. `write_cases`: a write at the start of a block or inside a block of the file is rejected by
     its checks, runs out of blocks (`Leaked`), or does what `Wrote` says.

  A write that starts inside a block which the file does not own is in `Frame`; `Stored` is what
  the two have in common.
-/
import OsCodes.SimpleFS.Allocation

namespace OsCodes.SimpleFS

open Bytes

/-! ## The data phase -/

/-- The block in slot `c`, for any number `c`. -/
def Inode.slotBlock (inode : Inode) (c : Nat) : Option (Fin 30) :=
  if h : c < 4 then blockOf (inode.directBlocks ⟨c, h⟩) else none

/-- A block in slot `c` is subscripted and read back. -/
theorem Inode.slotBlock_eq_some {inode : Inode} {c : Nat} {b : Fin 30}
    (h : inode.slotBlock c = some b) :
    ∃ i : Fin 4, i.val = c ∧ inode.directBlocks i = Int32.ofInt b.val := by
  unfold slotBlock at h
  split at h
  · rename_i hc
    exact ⟨⟨c, hc⟩, rfl, blockOf_eq_some.mp h⟩
  · cases h

theorem Inode.slotBlock_fin (inode : Inode) (c : Fin 4) :
    inode.slotBlock c.val = blockOf (inode.directBlocks c) := dif_pos c.isLt

/-- From `d` to `d'` only bytes of data blocks in `T` changed. -/
structure DataOnly (T : Fin 30 → Prop) (d d' : Disk) : Prop where
  size : d.size ≤ d'.size
  byte : ∀ k, (∀ b : Fin 30, T b → k < 64 * (5 + (b : Nat)) ∨ 64 * (6 + (b : Nat)) ≤ k) →
    d'.byte k = d.byte k

namespace DataOnly

variable {T T' : Fin 30 → Prop} {d d' d'' : Disk}

theorem refl (d : Disk) : DataOnly T d d := ⟨Nat.le_refl _, fun _ _ => rfl⟩

theorem trans (h : DataOnly T d d') (h' : DataOnly T' d' d'') :
    DataOnly (fun b => T b ∨ T' b) d d'' where
  size := Nat.le_trans h.size h'.size
  byte k hk :=
    (h'.byte k fun b hb => hk b (.inr hb)).trans (h.byte k fun b hb => hk b (.inl hb))

theorem mono (h : DataOnly T d d') (hT : ∀ b, T b → T' b) : DataOnly T' d d' where
  size := h.size
  byte k hk := h.byte k fun b hb => hk b (hT b hb)

theorem low (h : DataOnly T d d') {k : Nat} (hk : k < 320) : d'.byte k = d.byte k :=
  h.byte k fun _ _ => by omega

theorem inode (h : DataOnly T d d') (i : Fin 8) : d'.inode i = d.inode i :=
  Disk.inode_congr fun _ _ _ => h.low (by omega)

theorem block (h : DataOnly T d d') {b : Fin 30} (hb : ¬ T b) {k : Nat} (hk : k < 64) :
    d'.block b k = d.block b k := by
  refine h.byte _ fun b' hb' => ?_
  have hne : b'.val ≠ b.val := fun heq => hb (Fin.ext heq ▸ hb')
  omega

theorem present (h : DataOnly T d d') {b : Fin 30} (hb : d.Present b) : d'.Present b :=
  Nat.le_trans hb h.size

end DataOnly

theorem dataOnly_setBlock (d : Disk) (b : Fin 30) (buf : Mem) :
    DataOnly (fun b' => b' = b) d (d.setBlock b buf) where
  size := by rw [Disk.size_setBlock]; omega
  byte k hk := Disk.byte_setBlock d b buf (hk b rfl)

theorem present_setBlock (d : Disk) (b : Fin 30) (buf : Mem) : (d.setBlock b buf).Present b := by
  rw [Disk.Present, Disk.size_setBlock]
  omega

/-- Byte `k` of the block that the loop writes at `mem_copied = m`. -/
def chunk (buf : Mem) (n m k : Nat) : UInt8 := if k < n - m then strncpy (view buf m) k else 0

/-- **The `while` loop**, started at `mem_copied = m` in slot `ci` with distinct blocks in the
    slots it needs: it copies all `n` bytes, block after block. -/
theorem writeLoop_ok (inode : Inode) (buf : Mem) (n : Nat)
    (hone : ∀ c c' b, inode.slotBlock c = some b → inode.slotBlock c' = some b → c = c') :
    ∀ (fuel : Nat) (d : Disk) (m ci : Nat), n - m ≤ fuel → m ≤ n →
      (∀ c, ci ≤ c → m + 64 * (c - ci) < n → ∃ b, inode.slotBlock c = some b) →
      ∃ d', writeLoop inode buf n fuel d m ci = .ok (d', n) ∧
        DataOnly (fun b => ∃ c, ci ≤ c ∧ m + 64 * (c - ci) < n ∧ inode.slotBlock c = some b)
          d d' ∧
        ∀ c b, ci ≤ c → m + 64 * (c - ci) < n → inode.slotBlock c = some b →
          d'.Present b ∧ ∀ k, k < 64 → d'.block b k = chunk buf n (m + 64 * (c - ci)) k := by
  intro fuel
  induction fuel with
  | zero =>
    intro d m ci hfuel hm _
    obtain rfl : m = n := by omega
    exact ⟨d, rfl, .refl d, fun c b _ hlt => by omega⟩
  | succ fuel ih =>
    intro d m ci hfuel hm hslots
    by_cases hlt : m < n
    · obtain ⟨b₀, hb₀⟩ := hslots ci (Nat.le_refl _) (by omega)
      obtain ⟨i, hi, hblk⟩ := Inode.slotBlock_eq_some hb₀
      obtain ⟨d', hrun, hdata, hcont⟩ :=
        ih (d.setBlock b₀ (blit (fun _ => 0) 0 (min 64 (n - m)) (strncpy (view buf m))))
          (m + min 64 (n - m)) (ci + 1) (by omega) (by omega)
          (fun c hc hc' => hslots c (by omega) (by omega))
      refine ⟨d', ?_, ?_, ?_⟩
      · have hnum : (inode.directBlocks i).toInt = b₀.val := by
          rw [hblk, toInt_ofInt_fin (by omega)]
        simp only [writeLoop, if_pos hlt, ← hi, index_ok, ok_bind, hnum, writeDataBlock_ok]
        rw [← hi] at hrun
        exact hrun
      · refine ((dataOnly_setBlock d b₀ _).trans hdata).mono ?_
        rintro b (rfl | ⟨c, hc, hc', hb⟩)
        · exact ⟨ci, Nat.le_refl _, by omega, hb₀⟩
        · exact ⟨c, by omega, by omega, hb⟩
      · intro c b hc hc' hb
        by_cases hcc : c = ci
        · subst hcc
          obtain rfl : b = b₀ := Option.some.inj (hb.symm.trans hb₀)
          have hout : ¬ ∃ c', c + 1 ≤ c' ∧ m + min 64 (n - m) + 64 * (c' - (c + 1)) < n ∧
              inode.slotBlock c' = some b := by
            rintro ⟨c', hle, -, hb'⟩
            have := hone c c' b hb hb'
            omega
          refine ⟨hdata.present (present_setBlock d b _), fun k hk => ?_⟩
          rw [hdata.block hout hk, Disk.block_setBlock_self _ _ _ hk, chunk]
          by_cases hkn : k < n - m
          · rw [blit_in (by omega), if_pos (by omega), Nat.sub_zero, Nat.sub_self, Nat.mul_zero,
              Nat.add_zero]
          · rw [blit_out (by omega), if_neg (by omega)]
        · obtain ⟨hpres, hbytes⟩ := hcont c b (by omega) (by omega) hb
          refine ⟨hpres, fun k hk => ?_⟩
          have hm' : m + min 64 (n - m) + 64 * (c - (ci + 1)) = m + 64 * (c - ci) := by omega
          rw [hbytes k hk, hm']
    · obtain rfl : m = n := by omega
      refine ⟨d, ?_, .refl d, fun c b _ hlt' => by omega⟩
      simp only [writeLoop, if_neg hlt, pure_eq_ok]

/-- A write of `n` bytes at `o` writes slot `c`. -/
def Touched (o n c : Nat) : Prop :=
  o < 64 * c + 64 ∧ 64 * c < o + n ∨ o % 64 ≠ 0 ∧ c = o / 64

/-- Byte `k` of slot `c` after a write of `buf[0..n)` at `o`: old before the offset, new up to
    its end, and zero behind that. -/
def newByte (old : Mem) (o n : Nat) (buf : Mem) (c k : Nat) : UInt8 :=
  if 64 * c + k < o then old k
  else if 64 * c + k < o + n then strncpy (view buf (64 * c - o)) (64 * c + k - max o (64 * c))
  else 0

/-- A block behind the offset is the loop's chunk. -/
theorem newByte_eq_chunk (old : Mem) {o n c k : Nat} (buf : Mem) (hc : o ≤ 64 * c) :
    newByte old o n buf c k = chunk buf n (64 * c - o) k := by
  have hk : 64 * c + k - max o (64 * c) = k := by omega
  unfold newByte chunk
  rw [if_neg (show ¬ 64 * c + k < o by omega), hk]
  by_cases hkn : k < n - (64 * c - o)
  · rw [if_pos hkn, if_pos (by omega)]
  · rw [if_neg hkn, if_neg (by omega)]

/-- A block with `buf[0..n)` put in at `off`, up to its end, and zeros behind. -/
def patch (old : Mem) (off n : Nat) (buf : Mem) : Mem :=
  blit (blit old off (min (64 - off) n) (strncpy buf)) (off + min (64 - off) n)
    (64 - (off + min (64 - off) n)) fun _ => 0

/-- What the patched block holds. -/
theorem patch_apply (old : Mem) {off n : Nat} (buf : Mem) {k : Nat} (hoff : off < 64)
    (hk : k < 64) :
    patch old off n buf k =
      if k < off then old k else if k < off + n then strncpy buf (k - off) else 0 := by
  unfold patch
  by_cases hlow : k < off
  · rw [if_pos hlow, blit_out (by omega), blit_out (by omega)]
  · rw [if_neg hlow]
    by_cases hin : k < off + n
    · rw [if_pos hin, blit_out (by omega), blit_in (by omega)]
    · rw [if_neg hin, blit_in (by omega)]

/-- The partial block, whatever the entry of its slot says. -/
theorem writePartial_ok (inode : Inode) (buf : Mem) {d d' : Disk} {o n : Nat} (hoff : o % 64 ≠ 0)
    {i : Fin 4} (hi : i.val = o / 64) {b : Mem}
    (hread : readDataBlock d (inode.directBlocks i).toInt = .ok b)
    (hwrite : writeDataBlock d (inode.directBlocks i).toInt (patch b (o % 64) n buf) = .ok d') :
    writePartial inode buf n (o % 64 : Nat) ((o + 63) / 64 : Nat) d =
      .ok (d', min (64 - o % 64) n, ((o + 63) / 64 : Nat)) := by
  have hidx : (((o + 63) / 64 : Nat) : Int) - 1 = i.val := by omega
  have hadd : (min (64 - ((o % 64 : Nat) : Int)) (n : Int)).toNat = min (64 - o % 64) n := by omega
  have hne : ((o % 64 : Nat) : Int) ≠ 0 := by omega
  have hneg : ¬ ((o % 64 : Nat) : Int) < 0 := by omega
  rw [patch] at hwrite
  simp only [writePartial, ne_eq, hne, not_false_eq_true, if_true, hidx, index_ok, ok_bind,
    hread, if_neg hneg, hadd, Int.toNat_natCast, hwrite, pure_eq_ok]
  congr 3
  omega

theorem writePartial_aligned (inode : Inode) (buf : Mem) (nbytes numCurrBlock : Int) (d : Disk) :
    writePartial inode buf nbytes 0 numCurrBlock d = .ok (d, 0, numCurrBlock) := by
  simp only [writePartial, ne_eq, not_true, if_false, pure_eq_ok]

/-- **The data phase.**  With distinct blocks in the slots it touches, and the partial block
    already on disk, it writes exactly those blocks. -/
theorem writeData_ok (inode : Inode) (buf : Mem) {d : Disk} {o n : Nat}
    (hone : ∀ c c' b, inode.slotBlock c = some b → inode.slotBlock c' = some b → c = c')
    (hslots : ∀ c, Touched o n c → ∃ b, inode.slotBlock c = some b)
    (hpres : ∀ b, o % 64 ≠ 0 → inode.slotBlock (o / 64) = some b → d.Present b) :
    ∃ d₁ m d₂ ci, writePartial inode buf n (o % 64 : Nat) ((o + 63) / 64 : Nat) d =
        .ok (d₁, m, ci) ∧
      writeLoop inode buf n n d₁ m ci = .ok (d₂, n) ∧
      DataOnly (fun b => ∃ c, Touched o n c ∧ inode.slotBlock c = some b) d d₂ ∧
      ∀ c b, Touched o n c → inode.slotBlock c = some b →
        d₂.Present b ∧ ∀ k, k < 64 → d₂.block b k = newByte (d.block b) o n buf c k := by
  by_cases hoff : o % 64 = 0
  · -- whole blocks only: `mem_copied` is 0 in slot `o / 64`
    obtain ⟨d₂, hrun, hdata, hcont⟩ := writeLoop_ok inode buf n hone n d 0 ((o + 63) / 64)
      (by omega) (by omega) fun c hc hc' => hslots c (.inl (by omega))
    refine ⟨d, 0, d₂, _, ?_, hrun, ?_, ?_⟩
    · rw [hoff]
      exact writePartial_aligned inode buf n _ d
    · apply hdata.mono
      rintro b ⟨c, hc, hc', hb⟩
      exact ⟨c, .inl (by omega), hb⟩
    · intro c b hT hb
      have hT' : o < 64 * c + 64 ∧ 64 * c < o + n := hT.resolve_right fun h => h.1 hoff
      obtain ⟨hp, hbytes⟩ := hcont c b (by omega) (by omega) hb
      refine ⟨hp, fun k hk => ?_⟩
      have hm : 0 + 64 * (c - (o + 63) / 64) = 64 * c - o := by omega
      rw [hbytes k hk, hm, newByte_eq_chunk _ _ (by omega)]
  · -- the partial block is slot `o / 64`, the loop starts in the slot behind it
    obtain ⟨b₀, hb₀⟩ := hslots (o / 64) (.inr ⟨hoff, rfl⟩)
    obtain ⟨i, hi, hblk⟩ := Inode.slotBlock_eq_some hb₀
    have hnum : (inode.directBlocks i).toInt = b₀.val := by rw [hblk, toInt_ofInt_fin (by omega)]
    have hpart : writePartial inode buf n (o % 64 : Nat) ((o + 63) / 64 : Nat) d =
        .ok (d.setBlock b₀ (patch (d.block b₀) (o % 64) n buf), min (64 - o % 64) n,
          ((o + 63) / 64 : Nat)) := by
      refine writePartial_ok inode buf hoff hi (b := d.block b₀) ?_ ?_
      · rw [hnum]
        exact readDataBlock_ok (hpres b₀ hoff hb₀)
      · rw [hnum, writeDataBlock_ok]
    obtain ⟨d₂, hrun, hdata, hcont⟩ := writeLoop_ok inode buf n hone n _
      (min (64 - o % 64) n) ((o + 63) / 64) (by omega) (by omega)
      fun c hc hc' => hslots c (.inl (by omega))
    refine ⟨_, _, d₂, _, hpart, hrun, ?_, ?_⟩
    · refine ((dataOnly_setBlock d b₀ _).trans hdata).mono ?_
      rintro b (rfl | ⟨c, hc, hc', hb⟩)
      · exact ⟨o / 64, .inr ⟨hoff, rfl⟩, hb₀⟩
      · exact ⟨c, .inl (by omega), hb⟩
    · intro c b hT hb
      by_cases hc : c = o / 64
      · subst hc
        obtain rfl : b = b₀ := Option.some.inj (hb.symm.trans hb₀)
        have hout : ¬ ∃ c', (o + 63) / 64 ≤ c' ∧
            min (64 - o % 64) n + 64 * (c' - (o + 63) / 64) < n ∧
            inode.slotBlock c' = some b := by
          rintro ⟨c', hle, -, hb'⟩
          have := hone (o / 64) c' b hb hb'
          omega
        refine ⟨hdata.present (present_setBlock d b _), fun k hk => ?_⟩
        rw [hdata.block hout hk, Disk.block_setBlock_self _ _ _ hk,
          patch_apply _ _ (by omega) hk, newByte]
        by_cases hlow : 64 * (o / 64) + k < o
        · rw [if_pos hlow, if_pos (by omega)]
        · rw [if_neg hlow, if_neg (by omega)]
          by_cases hin : 64 * (o / 64) + k < o + n
          · have hbase : 64 * (o / 64) - o = 0 := by omega
            have hk' : k - o % 64 = 64 * (o / 64) + k - max o (64 * (o / 64)) := by omega
            rw [if_pos hin, if_pos (by omega), hk', hbase]
            exact strncpy_congr fun j _ => by rw [view_apply, Nat.zero_add]
          · rw [if_neg hin, if_neg (by omega)]
      · have hT' : o < 64 * c + 64 ∧ 64 * c < o + n := hT.resolve_right fun h => hc h.2
        obtain ⟨hp, hbytes⟩ := hcont c b (by omega) (by omega) hb
        refine ⟨hp, fun k hk => ?_⟩
        have hm : min (64 - o % 64) n + 64 * (c - (o + 63) / 64) = 64 * c - o := by omega
        rw [hbytes k hk, hm, newByte_eq_chunk _ _ (by omega)]

/-! ## The whole call -/

/-- The owner map while inode `i` is being filled in memory. -/
def Disk.ownerWith (d : Disk) (i : Fin 8) (blocks : Fin 4 → Int32) (s : Fin 8 × Fin 4) :
    Option (Fin 30) := if s.1 = i then blockOf (blocks s.2) else d.owner s

namespace Filled

variable {d d' : Disk} {S : Fin 4 → Prop} {i : Fin 8} {blocks' : Fin 4 → Int32}

/-- Entries stay in range: each is -1 or the number of a data block. -/
theorem range (h : Filled d d' S (d.inode i).directBlocks blocks') (hd : Owned d) (c : Fin 4) :
    blocks' c = -1 ∨ ∃ b : Fin 30, blocks' c = Int32.ofInt b.val := by
  by_cases hc : (d.inode i).directBlocks c = -1
  · by_cases hc' : blocks' c = -1
    · exact .inl hc'
    · obtain ⟨b, hb, -⟩ := h.fresh c hc hc'
      exact .inr ⟨b, hb⟩
  · rw [h.keep c hc]
    exact hd.range i c

/-- A block in the filled entries is an old one of the same slot, or was free. -/
theorem old_or_fresh (h : Filled d d' S (d.inode i).directBlocks blocks') {c : Fin 4} {b : Fin 30}
    (hb : blockOf (blocks' c) = some b) : d.owner (i, c) = some b ∨
      (d.inode i).directBlocks c = -1 ∧ d.sb.datablockFreelist b = flagFree ∧ d'.Used b := by
  have hb' := blockOf_eq_some.mp hb
  by_cases hc : (d.inode i).directBlocks c = -1
  · obtain ⟨b₁, hb₁, hfree, hu⟩ := h.fresh c hc (by rw [hb']; exact ofInt_fin_ne_neg_one b)
    obtain rfl : b = b₁ := ofInt_fin_inj (hb'.symm.trans hb₁)
    exact .inr ⟨hc, hfree, hu⟩
  · left
    rw [Disk.owner_eq_some, ← h.keep c hc]
    exact hb'

/-- **Filling keeps ownership**: the new blocks were free, and are marked and owned afterwards. -/
theorem owns (h : Filled d d' S (d.inode i).directBlocks blocks') (hd : Owned d)
    (hmark : OnlyMarked d d') : Owns (d.ownerWith i blocks') d'.Used := by
  have hfree_ne : ∀ b, d.sb.datablockFreelist b = flagFree → ¬ d.Used b := by
    intro b hfree hu
    rw [Disk.Used, hfree] at hu
    exact absurd hu (by decide)
  refine hd.owns.grow (fun b hb => hmark.mono hb) ?_ ?_
  · rintro ⟨j, c⟩ b hs
    unfold Disk.ownerWith at hs
    split at hs
    · rename_i hj
      simp only at hj hs
      subst hj
      exact (h.old_or_fresh hs).imp_right fun hf => ⟨hfree_ne b hf.2.1, hf.2.2⟩
    · exact .inl hs
  · rintro ⟨j, c⟩ ⟨j', c'⟩ b hb hs ht
    unfold Disk.ownerWith at hs ht
    -- a block that was free is in the filled inode, in an entry that was empty
    split at hs
    · rename_i hj
      split at ht
      · rename_i hj'
        simp only at hj hj' hs ht
        have hc := (h.old_or_fresh hs).resolve_left fun ho => hb (hd.owns.marked ho)
        have hc' := (h.old_or_fresh ht).resolve_left fun ho => hb (hd.owns.marked ho)
        have hbs := blockOf_eq_some.mp hs
        rw [hj, hj', h.one c c' hc.1 hc'.1 (by rw [hbs]; exact ofInt_fin_ne_neg_one b)
          (hbs.trans (blockOf_eq_some.mp ht).symm)]
      · exact absurd (hd.owns.marked ht) hb
    · exact absurd (hd.owns.marked hs) hb

end Filled

/-- What a successful write of `buf[0..n)` at offset `o` of inode `i` makes of the disk. -/
structure Wrote (d d' : Disk) (i : Fin 8) (o n : Nat) (buf : Mem) : Prop where
  size : d.size ≤ d'.size
  inode_ne : ∀ j, j ≠ i → d'.inode j = d.inode j
  status : (d'.inode i).status = (d.inode i).status
  name : (d'.inode i).name = (d.inode i).name
  fileSize : (d'.inode i).fileSize = (d.inode i).fileSize + Int32.ofInt n
  inodeFlag : d'.sb.inodeFreelist = d.sb.inodeFreelist
  marked : OnlyMarked d d'
  filled : Filled d d' (fun c => o ≤ 64 * (c : Nat) ∧ 64 * (c : Nat) < o + n)
    (d.inode i).directBlocks (d'.inode i).directBlocks
  byte : ∀ k, 320 ≤ k → (∀ (c : Fin 4) (b : Fin 30), Touched o n c → d'.owner (i, c) = some b →
    k < 64 * (5 + (b : Nat)) ∨ 64 * (6 + (b : Nat)) ≤ k) → d'.byte k = d.byte k
  data : ∀ (c : Fin 4) (b : Fin 30), Touched o n c → d'.owner (i, c) = some b →
    d'.Present b ∧ ∀ k, k < 64 → d'.block b k = newByte (d.block b) o n buf c k

/-- What a write that ran out of blocks makes of the disk. -/
structure Leaked (d d' : Disk) : Prop where
  sbOnly : d.SbOnly d'
  inodeFlag : d'.sb.inodeFreelist = d.sb.inodeFreelist
  marked : OnlyMarked d d'

/-- What a write of `buf[0..n)` at offset `o` that returns 0 makes of the file in inode `i`,
    wherever its partial block goes. -/
structure Stored (d d' : Disk) (i : Fin 8) (o n : Nat) (buf : Mem) : Prop where
  size : d.size ≤ d'.size
  fileSize : (d'.inode i).fileSize = (d.inode i).fileSize + Int32.ofInt n
  keep : ∀ c, (d.inode i).directBlocks c ≠ -1 →
    (d'.inode i).directBlocks c = (d.inode i).directBlocks c
  off : ∀ c : Fin 4, ¬ (o ≤ 64 * c.val ∧ 64 * c.val < o + n) →
    (d'.inode i).directBlocks c = (d.inode i).directBlocks c
  filled : ∀ c : Fin 4, o ≤ 64 * c.val ∧ 64 * c.val < o + n → (d'.inode i).directBlocks c ≠ -1
  present : ∀ c, (d'.inode i).directBlocks c ≠ -1 →
    ∃ b : Fin 30, (d'.inode i).directBlocks c = Int32.ofInt b.val ∧ d'.Present b
  touched : ∀ (c : Fin 4) (b : Fin 30), Touched o n c → d'.owner (i, c) = some b → ∀ k, k < 64 →
    d'.block b k = newByte (d.block b) o n buf c k
  untouched : ∀ (c : Fin 4) (b : Fin 30), ¬ Touched o n c → d'.owner (i, c) = some b → ∀ k,
    k < 64 → d'.block b k = d.block b k

/-- The slots are filled, and of the blocks only those behind touched slots are written. -/
theorem Stored.of_filled {d d₁ d' : Disk} {i : Fin 8} {o n : Nat} {buf : Mem} (hd : Owned d)
    (hmark : OnlyMarked d d₁)
    (hfilled : Filled d d₁ (fun c => o ≤ 64 * (c : Nat) ∧ 64 * (c : Nat) < o + n)
      (d.inode i).directBlocks (d'.inode i).directBlocks)
    (hsize : d.size ≤ d'.size)
    (hfileSize : (d'.inode i).fileSize = (d.inode i).fileSize + Int32.ofInt n)
    (hbyte : ∀ k, 320 ≤ k → (∀ (c : Fin 4) (b : Fin 30), Touched o n c →
      d'.owner (i, c) = some b → k < 64 * (5 + (b : Nat)) ∨ 64 * (6 + (b : Nat)) ≤ k) →
      d'.byte k = d.byte k)
    (hdata : ∀ (c : Fin 4) (b : Fin 30), Touched o n c → d'.owner (i, c) = some b →
      d'.Present b ∧ ∀ k, k < 64 → d'.block b k = newByte (d.block b) o n buf c k) :
    Stored d d' i o n buf := by
  have hwith : ∀ (c : Fin 4) (b : Fin 30), d'.owner (i, c) = some b →
      d.ownerWith i (d'.inode i).directBlocks (i, c) = some b := by
    intro c b hb
    rw [Disk.ownerWith, if_pos rfl]
    exact hb
  refine ⟨hsize, hfileSize, hfilled.keep, hfilled.off, hfilled.filled, ?_, ?_, ?_⟩
  · intro c hc
    obtain ⟨b, hb⟩ := (hfilled.range hd c).resolve_left hc
    refine ⟨b, hb, ?_⟩
    by_cases hT : Touched o n c
    · exact (hdata c b hT (Disk.owner_eq_some.mpr hb)).1
    · -- the slot is as it was
      have hS : ¬ (o ≤ 64 * (c : Nat) ∧ 64 * (c : Nat) < o + n) :=
        fun hS => hT (.inl ⟨by omega, hS.2⟩)
      have hb' : d.owner (i, c) = some b := by
        rw [Disk.owner_eq_some, ← hfilled.off c hS]
        exact hb
      exact Nat.le_trans (hd.present _ b hb') hsize
  · intro c b hT hb k hk
    exact (hdata c b hT hb).2 k hk
  · intro c b hT hb k hk
    refine hbyte _ (by omega) fun e b' he hb' => ?_
    have hne : b'.val ≠ b.val := by
      intro heq
      rw [Fin.ext heq] at hb'
      have hapart := (hfilled.owns hd hmark).apart (hwith e b hb') (hwith c b hb)
      have hec : e = c := congrArg Prod.snd hapart
      exact hT (hec ▸ he)
    omega

theorem Wrote.stored {d d' : Disk} {i : Fin 8} {o n : Nat} {buf : Mem} (hd : Owned d)
    (hw : Wrote d d' i o n buf) : Stored d d' i o n buf :=
  .of_filled hd hw.marked hw.filled hw.size hw.fileSize hw.byte hw.data

/-- The checks in front of a write. -/
theorem write_rejected (tempBuf : Nat → Mem) {fs : FS} {h : Fin 20} {i : Fin 8} (buf : Mem)
    {nbytes : Int32} (hd : fs.disk.Formatted)
    (hi : (fs.fileHandleArray h).inodeNumber = Int32.ofInt i.val)
    (hrej : (fs.disk.inode i).status = inodeFree ∨ nbytes.toInt < 0 ∨
      256 < ((fs.fileHandleArray h).offset + nbytes).toInt) :
    Ops.write tempBuf h buf nbytes fs = .ok (-1, fs) := by
  have hnum : (fs.fileHandleArray h).inodeNumber.toInt = i.val := by
    rw [hi, toInt_ofInt_fin (by omega)]
  simp only [Ops.write, hnum, readInode_ok hd, ok_bind, pure_eq_ok]
  by_cases hst : (fs.disk.inode i).status = inodeFree
  · rw [if_pos hst]
  · rw [if_neg hst, if_pos (hrej.resolve_left hst)]

/-- What is left of `simplefs_write` behind the allocation loop: the data phase and the commit. -/
def Ops.commit (fs : FS) (inodeNum : Int) (inodeptr : Inode) (buf : Mem) (o n : Nat) (d : Disk) :
    Except Fault (Int × FS) := do
  let (d, memCopied, currBlockIndex) ←
    writePartial inodeptr buf n (o % 64 : Nat) ((o + 63) / 64 : Nat) d
  let (d, memCopied) ← writeLoop inodeptr buf n n d memCopied currBlockIndex
  let d ← writeInode d inodeNum
    { inodeptr with fileSize := inodeptr.fileSize + Int32.ofInt memCopied }
  return (0, { fs with disk := d })

/-- **The first half of `simplefs_write`**, inside the file's size limit: without enough free
    blocks it returns `-1`, otherwise the slots are filled and the commit follows. -/
theorem write_start (tempBuf : Nat → Mem) {fs : FS} {h : Fin 20} {i : Fin 8} (buf : Mem)
    {nbytes : Int32} {o n : Nat} (hd : fs.disk.Formatted)
    (hi : (fs.fileHandleArray h).inodeNumber = Int32.ofInt i.val) (huse : fs.disk.InUse i)
    (ho : (fs.fileHandleArray h).offset.toInt = o) (hn : nbytes.toInt = n)
    (hend : o + n ≤ 256) :
    ∃ d₁, Leaked fs.disk d₁ ∧
      Taken tempBuf ((emptySlots (fs.disk.inode i).directBlocks o n).take fs.disk.freeCount)
        fs.disk d₁ ∧
      (fs.disk.freeCount < (emptySlots (fs.disk.inode i).directBlocks o n).length ∧
          Ops.write tempBuf h buf nbytes fs = .ok (-1, { fs with disk := d₁ }) ∨
        (emptySlots (fs.disk.inode i).directBlocks o n).length ≤ fs.disk.freeCount ∧
          ∃ blocks, Filled fs.disk d₁ (fun c => o ≤ 64 * (c : Nat) ∧ 64 * (c : Nat) < o + n)
              (fs.disk.inode i).directBlocks blocks ∧
            Ops.write tempBuf h buf nbytes fs =
              Ops.commit fs i.val { fs.disk.inode i with directBlocks := blocks } buf o n d₁) := by
  have hnum : (fs.fileHandleArray h).inodeNumber.toInt = i.val := by
    rw [hi, toInt_ofInt_fin (by omega)]
  have hsum : ((fs.fileHandleArray h).offset + nbytes).toInt = (o + n : Nat) := by
    rw [toInt_add_of_fits (by omega) (by omega), ho, hn]
    rfl
  have hrej : ¬ ((n : Int) < 0 ∨ (256 : Int) < (o + n : Nat)) := by omega
  have hmod : ((o : Nat) : Int).tmod 64 = (o % 64 : Nat) := by
    rw [Int.tmod_eq_emod_of_nonneg (by omega)]
    omega
  obtain ⟨r, d₁, hrun, hsb, hif, hmark, hr⟩ := allocLoop_ok tempBuf
    (slotRange ((o + 63) / 64 : Nat) ((o + n + 63) / 64 : Nat))
    (slotRange ((o + 63) / 64 : Nat) ((o + n + 63) / 64 : Nat)) (fs.disk.inode i) fs.disk
    hd (by intro j hj; rw [mem_slotRange] at hj; omega)
  have hcount : (r.isSome ↔ (emptySlots (fs.disk.inode i).directBlocks o n).length ≤
        fs.disk.freeCount) ∧
      Taken tempBuf ((emptySlots (fs.disk.inode i).directBlocks o n).take fs.disk.freeCount)
        fs.disk d₁ := by
    have hslots := slotRange_eq hend
    have hrun' := hrun
    rw [hslots] at hrun'
    have := allocLoop_count tempBuf _ _ _ _ r d₁ hd
      (List.Nodup.filter _ (List.nodup_finRange 4)) hrun'
    rw [List.filter_filter] at this
    have hE : (List.finRange 4).filter (fun c =>
        decide ((fs.disk.inode i).directBlocks c = -1) &&
          decide (o ≤ 64 * c.val ∧ 64 * c.val < o + n)) =
        emptySlots (fs.disk.inode i).directBlocks o n := by
      refine List.filter_congr fun c _ => ?_
      rw [Bool.and_comm]
      exact (Bool.decide_and ..).symm
    rwa [hE] at this
  obtain ⟨hiff, htaken⟩ := hcount
  refine ⟨d₁, ⟨hsb, hif, hmark⟩, htaken, ?_⟩
  simp only [Ops.write, hnum, readInode_ok hd, ok_bind, if_neg huse.ne_free, hsum, hn,
    if_neg hrej, ho, roundUp_natCast, hrun, hmod, pure_eq_ok, Int.toNat_natCast]
  cases r with
  | none => exact .inl ⟨by simpa using hiff, rfl⟩
  | some inode' =>
    obtain ⟨hsame, hfilled⟩ := hr inode' rfl
    have hS : ∀ c : Fin 4, (c.val : Int) ∈
        slotRange ((o + 63) / 64 : Nat) ((o + n + 63) / 64 : Nat) ↔
        o ≤ 64 * (c : Nat) ∧ 64 * (c : Nat) < o + n := by
      intro c
      rw [mem_slotRange]
      omega
    simp only [hS] at hfilled
    refine .inr ⟨by simpa using hiff, inode'.directBlocks, hfilled, ?_⟩
    rw [← hsame]
    rfl

/-- A write that returns 0 had blocks for its empty slots. -/
theorem write_enough {tempBuf : Nat → Mem} {fs fs' : FS} {h : Fin 20} {i : Fin 8} {buf : Mem}
    {nbytes : Int32} {o n : Nat} (hd : fs.disk.Formatted)
    (hi : (fs.fileHandleArray h).inodeNumber = Int32.ofInt i.val) (huse : fs.disk.InUse i)
    (ho : (fs.fileHandleArray h).offset.toInt = o) (hn : nbytes.toInt = n) (hend : o + n ≤ 256)
    (hw : Ops.write tempBuf h buf nbytes fs = .ok (0, fs')) :
    (emptySlots (fs.disk.inode i).directBlocks o n).length ≤ fs.disk.freeCount := by
  obtain ⟨d₁, -, -, ⟨-, hfail⟩ | ⟨hle, -⟩⟩ := write_start tempBuf buf hd hi huse ho hn hend
  · rw [hw, Except.ok.injEq, Prod.mk.injEq] at hfail
    exact absurd hfail.1 (by decide)
  · exact hle

/-- A filled slot has its block, -/
theorem Filled.slot {d d' : Disk} {S : Fin 4 → Prop} {i : Fin 8} {blocks : Fin 4 → Int32}
    (h : Filled d d' S (d.inode i).directBlocks blocks) (hd : Owned d) {c : Fin 4}
    (hc : blocks c ≠ -1) :
    ∃ b, Inode.slotBlock { d.inode i with directBlocks := blocks } c = some b := by
  obtain ⟨b, hb⟩ := (h.range hd c).resolve_left hc
  exact ⟨b, by rw [Inode.slotBlock_fin, blockOf_eq_some.mpr hb]⟩

/-- and no two slots have the same. -/
theorem Filled.slot_one {d d' : Disk} {S : Fin 4 → Prop} {i : Fin 8} {blocks : Fin 4 → Int32}
    (h : Filled d d' S (d.inode i).directBlocks blocks) (hd : Owned d) (hmark : OnlyMarked d d')
    (c c' : Nat) (b : Fin 30)
    (hb : Inode.slotBlock { d.inode i with directBlocks := blocks } c = some b)
    (hb' : Inode.slotBlock { d.inode i with directBlocks := blocks } c' = some b) : c = c' := by
  obtain ⟨e, rfl, he⟩ := Inode.slotBlock_eq_some hb
  obtain ⟨e', rfl, he'⟩ := Inode.slotBlock_eq_some hb'
  have hw : ∀ e, blocks e = Int32.ofInt b.val → d.ownerWith i blocks (i, e) = some b := by
    intro e he
    rw [Disk.ownerWith, if_pos rfl]
    exact blockOf_eq_some.mpr he
  exact congrArg (fun s => s.2.val) ((h.owns hd hmark).apart (hw e he) (hw e' he'))

/-- The data blocks once the inode record is on disk: as the data phase, from `d₁` to `d₂`, left
    them. -/
theorem commit_data (i : Fin 8) (record : Inode) {d d₁ d₂ : Disk} {o n : Nat} {buf : Mem}
    (hsb : d.SbOnly d₁)
    (hbyte : ∀ k, 320 ≤ k → (∀ (c : Fin 4) (b : Fin 30), Touched o n c →
      record.directBlocks c = Int32.ofInt b.val →
      k < 64 * (5 + (b : Nat)) ∨ 64 * (6 + (b : Nat)) ≤ k) → d₂.byte k = d₁.byte k)
    (hdata : ∀ (c : Fin 4) (b : Fin 30), Touched o n c → record.directBlocks c = Int32.ofInt b.val →
      d₂.Present b ∧ ∀ k, k < 64 → d₂.block b k = newByte (d₁.block b) o n buf c k) :
    (∀ k, 320 ≤ k → (∀ (c : Fin 4) (b : Fin 30), Touched o n c →
      (d₂.setInode i record).owner (i, c) = some b →
      k < 64 * (5 + (b : Nat)) ∨ 64 * (6 + (b : Nat)) ≤ k) →
      (d₂.setInode i record).byte k = d.byte k) ∧
    ∀ (c : Fin 4) (b : Fin 30), Touched o n c → (d₂.setInode i record).owner (i, c) = some b →
      (d₂.setInode i record).Present b ∧
      ∀ k, k < 64 → (d₂.setInode i record).block b k = newByte (d.block b) o n buf c k := by
  have howner : ∀ (c : Fin 4) (b : Fin 30), (d₂.setInode i record).owner (i, c) = some b ↔
      record.directBlocks c = Int32.ofInt b.val := by
    intro c b
    rw [Disk.owner_eq_some, Disk.inode_setInode_self]
  constructor
  · intro k hk hout
    rw [Disk.byte_setInode _ _ _ (by omega), hbyte k hk, hsb.byte k (by omega)]
    intro c b hT hb
    exact hout c b hT ((howner c b).mpr hb)
  · intro c b hT hb
    obtain ⟨hp, hbytes⟩ := hdata c b hT ((howner c b).mp hb)
    refine ⟨?_, fun k hk => ?_⟩
    · rw [Disk.Present, Disk.size_setInode]
      have : 64 * (6 + (b : Nat)) ≤ d₂.size := hp
      omega
    · have hkeep : (d₂.setInode i record).block b k = d₂.block b k :=
        Disk.byte_setInode _ _ _ (by omega)
      have hold : d₁.block b k = d.block b k := hsb.block b k
      rw [hkeep, hbytes k hk, newByte, newByte, hold]

/-- **The commit** of a write: the data phase from `d₁` to `d₂`, then the inode. -/
theorem wrote_of_data {d d₁ d₂ : Disk} {i : Fin 8} {o n : Nat} {buf : Mem}
    {blocks : Fin 4 → Int32} (hleak : Leaked d d₁)
    (hfilled : Filled d d₁ (fun c => o ≤ 64 * (c : Nat) ∧ 64 * (c : Nat) < o + n)
      (d.inode i).directBlocks blocks)
    (hsize : d₁.size ≤ d₂.size) (hlow : ∀ k, k < 64 → d₂.byte k = d₁.byte k)
    (hinode : ∀ j, j ≠ i → d₂.inode j = d₁.inode j)
    (hbyte : ∀ k, 320 ≤ k → (∀ (c : Fin 4) (b : Fin 30), Touched o n c →
      blocks c = Int32.ofInt b.val →
      k < 64 * (5 + (b : Nat)) ∨ 64 * (6 + (b : Nat)) ≤ k) → d₂.byte k = d₁.byte k)
    (hdata : ∀ (c : Fin 4) (b : Fin 30), Touched o n c → blocks c = Int32.ofInt b.val →
      d₂.Present b ∧ ∀ k, k < 64 → d₂.block b k = newByte (d₁.block b) o n buf c k) :
    Wrote d (d₂.setInode i { d.inode i with
      directBlocks := blocks
      fileSize := (d.inode i).fileSize + Int32.ofInt n }) i o n buf := by
  have hsb : d₂.sb = d₁.sb := Disk.sb_congr fun k hk => hlow k (by omega)
  obtain ⟨hbyte', hdata'⟩ := commit_data i { d.inode i with
    directBlocks := blocks
    fileSize := (d.inode i).fileSize + Int32.ofInt n } hleak.sbOnly hbyte hdata
  refine ⟨?_, ?_, ?_, ?_, ?_, ?_, ?_, ?_, hbyte', hdata'⟩
  · rw [Disk.size_setInode, ← hleak.sbOnly.size]
    omega
  · intro j hj
    rw [Disk.inode_setInode_ne _ _ _ hj, hinode j hj, hleak.sbOnly.inode]
  · rw [Disk.inode_setInode_self]
  · rw [Disk.inode_setInode_self]
  · rw [Disk.inode_setInode_self]
  · rw [Disk.sb_setInode, hsb, hleak.inodeFlag]
  · intro b
    rw [Disk.Used, Disk.sb_setInode, hsb]
    exact hleak.marked b
  · rw [Disk.inode_setInode_self]
    refine ⟨hfilled.keep, hfilled.off, hfilled.filled, ?_, hfilled.one, ?_⟩
    · intro c hc hc'
      obtain ⟨b, hb, hfree, hu⟩ := hfilled.fresh c hc hc'
      exact ⟨b, hb, hfree, by rw [Disk.Used, Disk.sb_setInode, hsb]; exact hu⟩
    · rw [Disk.sb_setInode, hsb]
      exact hfilled.flags

/-- The file after the commit, whatever else the data phase has written. -/
theorem stored_of_data {d d₁ d₂ : Disk} {i : Fin 8} {o n : Nat} {buf : Mem}
    {blocks : Fin 4 → Int32} (hd : Owned d) (hleak : Leaked d d₁)
    (hfilled : Filled d d₁ (fun c => o ≤ 64 * (c : Nat) ∧ 64 * (c : Nat) < o + n)
      (d.inode i).directBlocks blocks)
    (hsize : d₁.size ≤ d₂.size)
    (hbyte : ∀ k, 320 ≤ k → (∀ (c : Fin 4) (b : Fin 30), Touched o n c →
      blocks c = Int32.ofInt b.val →
      k < 64 * (5 + (b : Nat)) ∨ 64 * (6 + (b : Nat)) ≤ k) → d₂.byte k = d₁.byte k)
    (hdata : ∀ (c : Fin 4) (b : Fin 30), Touched o n c → blocks c = Int32.ofInt b.val →
      d₂.Present b ∧ ∀ k, k < 64 → d₂.block b k = newByte (d₁.block b) o n buf c k) :
    Stored d (d₂.setInode i { d.inode i with
      directBlocks := blocks
      fileSize := (d.inode i).fileSize + Int32.ofInt n }) i o n buf := by
  obtain ⟨hbyte', hdata'⟩ := commit_data i { d.inode i with
    directBlocks := blocks
    fileSize := (d.inode i).fileSize + Int32.ofInt n } hleak.sbOnly hbyte hdata
  refine .of_filled hd hleak.marked ?_ ?_ ?_ hbyte' hdata'
  · rw [Disk.inode_setInode_self]
    exact hfilled
  · rw [Disk.size_setInode, ← hleak.sbOnly.size]
    omega
  · rw [Disk.inode_setInode_self]

/-- **`simplefs_write`** through an open handle, inside the file's size limit, at the start of a
    block or inside one that the file owns. -/
theorem write_cases (tempBuf : Nat → Mem) {fs : FS} {h : Fin 20} {i : Fin 8} (buf : Mem)
    {nbytes : Int32} {o n : Nat} (hd : Owned fs.disk)
    (hi : (fs.fileHandleArray h).inodeNumber = Int32.ofInt i.val) (huse : fs.disk.InUse i)
    (ho : (fs.fileHandleArray h).offset.toInt = o) (hn : nbytes.toInt = n) (hend : o + n ≤ 256)
    (hown : ∀ hlt : o % 64 ≠ 0,
      (fs.disk.inode i).directBlocks ⟨o / 64, by omega⟩ ≠ -1) :
    ∃ r d', Ops.write tempBuf h buf nbytes fs = .ok (r, { fs with disk := d' }) ∧
      Taken tempBuf ((emptySlots (fs.disk.inode i).directBlocks o n).take fs.disk.freeCount)
        fs.disk d' ∧
      (r = -1 ∧ fs.disk.freeCount < (emptySlots (fs.disk.inode i).directBlocks o n).length ∧
          Leaked fs.disk d' ∨
        r = 0 ∧ (emptySlots (fs.disk.inode i).directBlocks o n).length ≤ fs.disk.freeCount ∧
          Wrote fs.disk d' i o n buf) := by
  obtain ⟨d₁, hleak, htaken, hcase⟩ :=
    write_start tempBuf buf hd.formatted hi huse ho hn hend
  rcases hcase with ⟨hlt, hrun⟩ | ⟨hle, blocks, hfilled, hrun⟩
  · exact ⟨-1, d₁, hrun, htaken, .inl ⟨rfl, hlt, hleak⟩⟩
  · have hpart : ∀ hlt : o % 64 ≠ 0, blocks ⟨o / 64, by omega⟩ =
        (fs.disk.inode i).directBlocks ⟨o / 64, by omega⟩ :=
      fun hlt => hfilled.keep _ (hown hlt)
    have hslots : ∀ c, Touched o n c →
        ∃ b, Inode.slotBlock { fs.disk.inode i with directBlocks := blocks } c = some b := by
      intro c hT
      by_cases hin : o ≤ 64 * c
      · -- a whole block: the loop filled its slot
        have hc : 64 * c < o + n := by
          rcases hT with hT | ⟨hlt, rfl⟩
          · exact hT.2
          · omega
        exact hfilled.slot hd (hfilled.filled ⟨c, by omega⟩ ⟨hin, hc⟩)
      · -- the partial block: the file owned it before
        obtain rfl : c = o / 64 := by
          rcases hT with hT | hT
          · omega
          · exact hT.2
        have hlt : o % 64 ≠ 0 := by omega
        exact hfilled.slot hd (c := ⟨o / 64, by omega⟩) (by rw [hpart hlt]; exact hown hlt)
    have hpres : ∀ b, o % 64 ≠ 0 →
        Inode.slotBlock { fs.disk.inode i with directBlocks := blocks } (o / 64) = some b →
        d₁.Present b := by
      intro b hlt hb
      obtain ⟨e, he, heb⟩ := Inode.slotBlock_eq_some hb
      have he' : e = ⟨o / 64, by omega⟩ := Fin.ext he
      rw [he'] at heb
      rw [Disk.Present, hleak.sbOnly.size]
      exact hd.present (i, ⟨o / 64, by omega⟩) b
        (Disk.owner_eq_some.mpr ((hpart hlt).symm.trans heb))
    obtain ⟨d₂, m, d₃, ci, hrun₂, hrun₃, hdata, hcont⟩ := writeData_ok
      { fs.disk.inode i with directBlocks := blocks } buf (hfilled.slot_one hd hleak.marked)
      hslots hpres
    have hslot : ∀ (c : Fin 4) (b : Fin 30), blocks c = Int32.ofInt b.val ↔
        Inode.slotBlock { fs.disk.inode i with directBlocks := blocks } c = some b := by
      intro c b
      rw [Inode.slotBlock_fin, blockOf_eq_some]
    refine ⟨0, d₃.setInode i { fs.disk.inode i with
      directBlocks := blocks
      fileSize := (fs.disk.inode i).fileSize + Int32.ofInt n }, ?_, ?_, .inr ⟨rfl, hle, ?_⟩⟩
    · rw [hrun]
      simp only [Ops.commit, hrun₂, ok_bind, hrun₃, writeInode_ok, pure_eq_ok]
    · constructor
      · intro k hk
        rw [Disk.byte_setInode _ _ _ (by omega), hdata.low (by omega), htaken.head k hk]
      · intro k hk hk'
        rw [Disk.byte_setInode _ _ _ (by omega), hdata.low (by omega), htaken.tail k hk hk']
    · refine wrote_of_data hleak hfilled hdata.size (fun k hk => hdata.low (by omega))
        (fun j _ => hdata.inode j) ?_ fun c b hT hb => hcont c b hT ((hslot c b).mp hb)
      intro k _ hout
      apply hdata.byte k
      rintro b ⟨c, hT, hb⟩
      obtain ⟨e, rfl, he⟩ := Inode.slotBlock_eq_some hb
      exact hout e b hT he

end OsCodes.SimpleFS
