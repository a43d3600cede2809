/-
  The frame of `simplefs_write`, holes included.

  An offset inside a block that the file does not own makes the partial block `-1`, whose position
  on disk is that of inodes 6 and 7: the write patches their records.  `write_hole` is the lemma
  for that path, `Harmless` says when the patch changes nothing, and `write_frame_iff` that this,
  and the uninitialised bytes behind the superblock, are all that can break the frame.

  1. `write_hole` follows a write into a hole: the slot of the partial block stays empty, the loop
     starts in the slot behind it, and 64 bytes at the position of block -1 are patched;
  2. `Framed` is the frame: nothing but the record and the blocks of the file, and flags of blocks
     that become used;
  3. `write_framed_iff` is one write, at any offset in 0..256, on a disk in order: the frame holds
     exactly where the patch is harmless (`HoleKept`) and the bytes behind the struct of the
     superblock come back as they were (`PaddingKept`);
  4. `Contained` are the runs in which earlier writes have kept block -1, and `write_frame_iff`
     the law of their states.

  `write_frame_broken` is the shortest run to a write that wipes another file's record.
-/
import OsCodes.SimpleFS.Ownership
import OsCodes.SimpleFS.Content

namespace OsCodes.SimpleFS

open Bytes

/-! ## Block `-1` -/

theorem readDataBlock_neg_one {d : Disk} (hd : d.Formatted) :
    readDataBlock d (-1) = .ok (view d.byte 256) := by
  have hsize : 256 + 64 ≤ d.size := hd
  simp only [readDataBlock, Disk.readAt, if_pos (show (-1 : Int) < 30 by omega),
    if_neg (show ¬ 64 * (5 + (-1 : Int)) < 0 by omega),
    show (64 * (5 + (-1 : Int))).toNat = 256 by decide, if_pos hsize]

theorem writeDataBlock_neg_one (d : Disk) (buf : Mem) :
    writeDataBlock d (-1) buf = .ok (d.pwrite 256 64 buf) := by
  simp only [writeDataBlock, Disk.writeAt, if_pos (show (-1 : Int) < 30 by omega),
    if_neg (show ¬ 64 * (5 + (-1 : Int)) < 0 by omega),
    show (64 * (5 + (-1 : Int))).toNat = 256 by decide]

/-- Patching block `-1` at `o` with `buf[0..n)` leaves the records of the other inodes. -/
def Harmless (d : Disk) (i : Fin 8) (o n : Nat) (buf : Mem) : Prop :=
  ∀ k, 256 + o % 64 ≤ k → k < 320 → (k < 64 + 32 * (i : Nat) ∨ 96 + 32 * (i : Nat) ≤ k) →
    d.byte k = if k - (256 + o % 64) < n then strncpy buf (k - (256 + o % 64)) else 0

/-- What the patched block holds at disk position `k`. -/
theorem patch_hole (d : Disk) {o n : Nat} (buf : Mem) {k : Nat} (hk : 256 ≤ k) (hk' : k < 320) :
    patch (view d.byte 256) (o % 64) n buf (k - 256) =
      if k < 256 + o % 64 then d.byte k
      else if k - (256 + o % 64) < n then strncpy buf (k - (256 + o % 64)) else 0 := by
  rw [patch_apply _ _ (by omega) (by omega)]
  by_cases hlow : k < 256 + o % 64
  · rw [if_pos (by omega), if_pos hlow, view_apply, show 256 + (k - 256) = k by omega]
  · rw [if_neg (by omega), if_neg hlow, show k - 256 - o % 64 = k - (256 + o % 64) by omega]
    by_cases hin : k - (256 + o % 64) < n
    · rw [if_pos (by omega), if_pos hin]
    · rw [if_neg (by omega), if_neg hin]

/-- **The data phase of a write into a hole**: the partial block is block `-1`, the loop starts in
    the slot behind it. -/
theorem writeData_hole (inode : Inode) (buf : Mem) {d : Disk} {o n : Nat} (hd : d.Formatted)
    (hend : o + n ≤ 256) (hoff : o % 64 ≠ 0)
    (hempty : ∀ c : Fin 4, c.val = o / 64 → inode.directBlocks c = -1)
    (hone : ∀ c c' b, inode.slotBlock c = some b → inode.slotBlock c' = some b → c = c')
    (hslots : ∀ c : Fin 4, o ≤ 64 * c.val ∧ 64 * c.val < o + n → ∃ b, inode.slotBlock c = some b) :
    ∃ d₁ m ci d₂, writePartial inode buf n (o % 64 : Nat) ((o + 63) / 64 : Nat) d =
        .ok (d₁, m, ci) ∧
      writeLoop inode buf n n d₁ m ci = .ok (d₂, n) ∧
      d.size ≤ d₂.size ∧ (∀ k, k < 256 → d₂.byte k = d.byte k) ∧
      (∀ k, 256 ≤ k → k < 320 →
        d₂.byte k = patch (view d.byte 256) (o % 64) n buf (k - 256)) ∧
      (∀ k, 320 ≤ k → (∀ (c : Fin 4) (b : Fin 30), Touched o n c →
        inode.directBlocks c = Int32.ofInt b.val →
        k < 64 * (5 + (b : Nat)) ∨ 64 * (6 + (b : Nat)) ≤ k) → d₂.byte k = d.byte k) ∧
      ∀ (c : Fin 4) (b : Fin 30), Touched o n c → inode.directBlocks c = Int32.ofInt b.val →
        d₂.Present b ∧ ∀ k, k < 64 → d₂.block b k = newByte (d.block b) o n buf c k := by
  have hpart : writePartial inode buf n (o % 64 : Nat) ((o + 63) / 64 : Nat) d =
      .ok (d.pwrite 256 64 (patch (view d.byte 256) (o % 64) n buf), min (64 - o % 64) n,
        ((o + 63) / 64 : Nat)) := by
    have hnum : (inode.directBlocks ⟨o / 64, by omega⟩).toInt = -1 := by
      rw [hempty _ rfl]
      decide
    refine writePartial_ok inode buf hoff (i := ⟨o / 64, by omega⟩) rfl
      (b := view d.byte 256) ?_ ?_
    · rw [hnum, readDataBlock_neg_one hd]
    · rw [hnum, writeDataBlock_neg_one]
  obtain ⟨d₂, hloop, hdata, hcont⟩ := writeLoop_ok inode buf n hone n
    (d.pwrite 256 64 (patch (view d.byte 256) (o % 64) n buf)) (min (64 - o % 64) n)
    ((o + 63) / 64) (by omega) (by omega)
    fun c hc hc' => hslots ⟨c, by omega⟩ ⟨by simp only; omega, by simp only; omega⟩
  refine ⟨_, _, _, d₂, hpart, hloop, ?_, ?_, ?_, ?_, ?_⟩
  · have hsize : max d.size (256 + 64) ≤ d₂.size := hdata.size
    omega
  · intro k hk
    rw [hdata.low (by omega)]
    exact blit_out (by omega)
  · intro k hk hk'
    rw [hdata.low (by omega)]
    exact blit_in (by omega)
  · intro k hk hout
    rw [hdata.byte k]
    · exact blit_out (by omega)
    · rintro b ⟨c, hc, hc', hb⟩
      obtain ⟨e, rfl, he⟩ := Inode.slotBlock_eq_some hb
      exact hout e b (.inl (by omega)) he
  · intro c b hT hb
    have hne : c.val ≠ o / 64 := by
      intro hc
      rw [hempty c hc] at hb
      exact ofInt_fin_ne_neg_one b hb.symm
    have hT' : o < 64 * c.val + 64 ∧ 64 * c.val < o + n := hT.resolve_right fun h => hne h.2
    obtain ⟨hp, hbytes⟩ := hcont c b (by omega) (by omega) (by
      rw [Inode.slotBlock_fin, blockOf_eq_some]
      exact hb)
    refine ⟨hp, fun k hk => ?_⟩
    have hm : min (64 - o % 64) n + 64 * (c.val - (o + 63) / 64) = 64 * c.val - o := by omega
    rw [hbytes k hk, hm, newByte_eq_chunk _ _ (by omega)]

/-- The partial block of a write is one of the file, or a hole. -/
theorem hole_cases (blocks : Fin 4 → Int32) {o : Nat} (ho : o ≤ 256) :
    (∀ hlt : o % 64 ≠ 0, blocks ⟨o / 64, by omega⟩ ≠ -1) ∨
      o % 64 ≠ 0 ∧ ∀ c : Fin 4, c.val = o / 64 → blocks c = -1 := by
  rw [or_iff_not_imp_left, not_forall]
  rintro ⟨hoff, hblk⟩
  refine ⟨hoff, fun c hc => ?_⟩
  rw [show c = ⟨o / 64, by omega⟩ from Fin.ext hc]
  exact not_not.mp hblk

/-- **A write into a hole**: the slot of the partial block is empty and stays so. -/
theorem write_hole (tempBuf : Nat → Mem) {fs : FS} {h : Fin 20} {i : Fin 8} (buf : Mem)
    {nbytes : Int32} {o n : Nat} (hd : Owned fs.disk)
    (hi : (fs.fileHandleArray h).inodeNumber = Int32.ofInt i.val) (huse : fs.disk.InUse i)
    (ho : (fs.fileHandleArray h).offset.toInt = o) (hn : nbytes.toInt = n) (hend : o + n ≤ 256)
    (hoff : o % 64 ≠ 0) (hhole : ∀ c : Fin 4, c.val = o / 64 →
      (fs.disk.inode i).directBlocks c = -1) :
    ∃ r d', Ops.write tempBuf h buf nbytes fs = .ok (r, { fs with disk := d' }) ∧
      Taken tempBuf ((emptySlots (fs.disk.inode i).directBlocks o n).take fs.disk.freeCount)
        fs.disk d' ∧
      (r = -1 ∧ fs.disk.freeCount < (emptySlots (fs.disk.inode i).directBlocks o n).length ∧
          Leaked fs.disk d' ∨
        r = 0 ∧ (emptySlots (fs.disk.inode i).directBlocks o n).length ≤ fs.disk.freeCount ∧
          (∀ k, 256 ≤ k → k < 320 → (k < 64 + 32 * (i : Nat) ∨ 96 + 32 * (i : Nat) ≤ k) →
            d'.byte k = patch (view fs.disk.byte 256) (o % 64) n buf (k - 256)) ∧
          Stored fs.disk d' i o n buf ∧
          (Harmless fs.disk i o n buf → Wrote fs.disk d' i o n buf)) := by
  obtain ⟨d₁, hleak, htaken, hcase⟩ :=
    write_start tempBuf buf hd.formatted hi huse ho hn hend
  rcases hcase with ⟨hlt, hrun⟩ | ⟨hle, blocks, hfilled, hrun⟩
  · exact ⟨-1, d₁, hrun, htaken, .inl ⟨rfl, hlt, hleak⟩⟩
  · have hview : view d₁.byte 256 = view fs.disk.byte 256 := by
      funext k
      exact hleak.sbOnly.byte _ (by omega)
    have hempty : ∀ c : Fin 4, c.val = o / 64 → blocks c = -1 := by
      intro c hc
      rw [hfilled.off c (by omega), hhole c hc]
    obtain ⟨d₂, m, ci, d₃, hpart, hloop, hsize, hlow, hmid, hbyte, hnew⟩ :=
      writeData_hole { fs.disk.inode i with directBlocks := blocks } buf
        (hleak.sbOnly.formatted hd.formatted) hend hoff hempty
        (hfilled.slot_one hd hleak.marked) fun c hc => hfilled.slot hd (hfilled.filled c hc)
    rw [hview] at hmid
    refine ⟨0, d₃.setInode i { fs.disk.inode i with
      directBlocks := blocks
      fileSize := (fs.disk.inode i).fileSize + Int32.ofInt n }, ?_, ?_,
      .inr ⟨rfl, hle, ?_, stored_of_data hd hleak hfilled hsize hbyte hnew, ?_⟩⟩
    · rw [hrun]
      simp only [Ops.commit, hpart, ok_bind, hloop, writeInode_ok, pure_eq_ok]
    · constructor
      · intro k hk
        rw [Disk.byte_setInode _ _ _ (by omega), hlow k (by omega), htaken.head k hk]
      · intro k hk hk'
        rw [Disk.byte_setInode _ _ _ (by omega), hlow k (by omega), htaken.tail k hk hk']
    · intro k hk hk' hout
      rw [Disk.byte_setInode _ _ _ hout, hmid k hk hk']
    · intro hharm
      refine wrote_of_data hleak hfilled hsize (fun k hk => hlow k (by omega)) ?_ hbyte hnew
      intro j hj
      refine Disk.inode_congr fun k hk hk' => ?_
      by_cases hk256 : k < 256
      · exact hlow k hk256
      · rw [hmid k (by omega) (by omega), patch_hole _ _ (by omega) (by omega),
          hleak.sbOnly.byte k (by omega)]
        by_cases hkoff : k < 256 + o % 64
        · rw [if_pos hkoff]
        · rw [if_neg hkoff, hharm k (by omega) (by omega) (by omega)]

/-! ## The frame -/

/-- From `d` to `d'` nothing changed but the file in inode `i`: its record, its data blocks, and
    the flags of blocks that went from free to used. -/
structure Framed (d d' : Disk) (i : Fin 8) : Prop extends OthersKept d d' i where
  byte : ∀ k, d'.byte k ≠ d.byte k →
    (64 + 32 * (i : Nat) ≤ k ∧ k < 96 + 32 * (i : Nat)) ∨
    (∃ (c : Fin 4) (b : Fin 30), d'.owner (i, c) = some b ∧
      64 * (5 + (b : Nat)) ≤ k ∧ k < 64 * (6 + (b : Nat))) ∨
    ∃ b : Fin 30, k = 16 + b ∧ d.sb.datablockFreelist b = flagFree ∧
      d'.sb.datablockFreelist b = flagUsed

/-- The bytes decide the rest, on a disk that stays in order. -/
theorem Framed.of_byte {d d' : Disk} {i : Fin 8} (hd' : Owned d')
    (hbyte : ∀ k, d'.byte k ≠ d.byte k →
      (64 + 32 * (i : Nat) ≤ k ∧ k < 96 + 32 * (i : Nat)) ∨
      (∃ (c : Fin 4) (b : Fin 30), d'.owner (i, c) = some b ∧
        64 * (5 + (b : Nat)) ≤ k ∧ k < 64 * (6 + (b : Nat))) ∨
      ∃ b : Fin 30, k = 16 + b ∧ d.sb.datablockFreelist b = flagFree ∧
        d'.sb.datablockFreelist b = flagUsed) : Framed d d' i := by
  have hinode : ∀ j, j ≠ i → d'.inode j = d.inode j := by
    intro j hj
    refine Disk.inode_congr fun k hk hk' => ?_
    by_contra hne
    rcases hbyte k hne with hown | ⟨c, b, -, hk1, hk2⟩ | ⟨b, hb, -⟩
    · exact hj (Fin.ext (by omega))
    · omega
    · omega
  refine ⟨⟨hinode, ?_⟩, hbyte⟩
  intro j c b hj hb k hk
  by_contra hne
  rcases hbyte _ hne with hown | ⟨c', b', hb', hk1, hk2⟩ | ⟨b', hk', -⟩
  · omega
  · -- a block of the file is no other file's
    obtain rfl : b' = b := Fin.ext (by omega)
    have hb'' : d'.owner (j, c) = some b' := by
      rw [Disk.owner, hinode j hj]
      exact hb
    exact hj (congrArg Prod.fst (hd'.owns.apart hb'' hb'))
  · omega

/-- Of the superblock's padding and the inode table a frame leaves all but the file's record. -/
theorem Framed.byte_table {d d' : Disk} {i : Fin 8} (h : Framed d d' i) {k : Nat} (hk : 46 ≤ k)
    (hk' : k < 320) (hout : k < 64 + 32 * (i : Nat) ∨ 96 + 32 * (i : Nat) ≤ k) :
    d'.byte k = d.byte k := by
  by_contra hne
  rcases h.byte k hne with hown | ⟨c, b, -, hk1, -⟩ | ⟨b, hb, -⟩
  · omega
  · omega
  · omega

/-- The superblock's block after a call: what is not padding changes by marking only. -/
theorem framed_low {tempBuf : Nat → Mem} {taken : List (Fin 4)} {d d' : Disk}
    (htaken : Taken tempBuf taken d d') (hmark : OnlyMarked d d')
    (hpad : ∀ c, taken.getLast? = some c → ∀ k, 46 ≤ k → k < 64 → tempBuf c k = d.byte k)
    {k : Nat} (hk : k < 64) (hne : d'.byte k ≠ d.byte k) :
    ∃ b : Fin 30, k = 16 + b ∧ d.sb.datablockFreelist b = flagFree ∧
      d'.sb.datablockFreelist b = flagUsed := by
  have h16 : 16 ≤ k := by
    by_contra h
    exact hne (htaken.head k (by omega))
  have h46 : k < 46 := by
    by_contra h
    refine hne ((htaken.tail k (by omega) hk).trans ?_)
    cases hl : taken.getLast? with
    | none => rfl
    | some c => exact hpad c hl k (by omega) hk
  have hflag : ∀ d : Disk, d.sb.datablockFreelist ⟨k - 16, by omega⟩ = d.byte k := by
    intro d
    simp only [Disk.sb, Superblock.decode]
    rw [show 16 + (k - 16) = k by omega]
  refine ⟨⟨k - 16, by omega⟩, by simp only; omega, ?_⟩
  refine (hmark ⟨k - 16, by omega⟩).resolve_left fun hsame => hne ?_
  rw [← hflag d, ← hflag d', hsame]

theorem framed_leaked {tempBuf : Nat → Mem} {taken : List (Fin 4)} {d d' : Disk} {i : Fin 8}
    (hd : Owned d) (htaken : Taken tempBuf taken d d') (hl : Leaked d d')
    (hpad : ∀ c, taken.getLast? = some c → ∀ k, 46 ≤ k → k < 64 → tempBuf c k = d.byte k) :
    Framed d d' i := by
  refine Framed.of_byte (hd.leaked hl) fun k hne => ?_
  by_cases hk : k < 64
  · exact .inr (.inr (framed_low htaken hl.marked hpad hk hne))
  · exact absurd (hl.sbOnly.byte k (by omega)) hne

theorem framed_wrote {tempBuf : Nat → Mem} {taken : List (Fin 4)} {d d' : Disk} {i : Fin 8}
    {o n : Nat} {buf : Mem} (hd : Owned d) (huse : d.InUse i) (htaken : Taken tempBuf taken d d')
    (hw : Wrote d d' i o n buf)
    (hpad : ∀ c, taken.getLast? = some c → ∀ k, 46 ≤ k → k < 64 → tempBuf c k = d.byte k) :
    Framed d d' i := by
  refine Framed.of_byte (hd.wrote huse hw) fun k hne => ?_
  by_cases hk : k < 64
  · exact .inr (.inr (framed_low htaken hw.marked hpad hk hne))
  · by_cases hk' : k < 320
    · -- the record of an inode: equal records have equal bytes
      by_cases hown : 64 + 32 * (i : Nat) ≤ k ∧ k < 96 + 32 * (i : Nat)
      · exact .inl hown
      · exfalso
        have hj : (⟨(k - 64) / 32, by omega⟩ : Fin 8) ≠ i := by
          intro heq
          have := congrArg Fin.val heq
          simp only at this
          omega
        have hbyte := Inode.decode_inj (hw.inode_ne _ hj) (k := (k - 64) % 32) (by omega)
        simp only [view_apply] at hbyte
        rw [show 64 + 32 * ((k - 64) / 32) + (k - 64) % 32 = k by omega] at hbyte
        exact hne hbyte
    · right
      left
      by_contra hout
      refine hne (hw.byte k (by omega) fun c b _ hb => ?_)
      by_contra hin
      exact hout ⟨c, b, hb, by omega, by omega⟩

/-! ## When a write keeps the frame -/

/-- The 18 bytes behind the superblock: if the write finds a free block for some slot, the last
    superblock it writes ends with the bytes that are on disk already. -/
def PaddingKept (tempBuf : Nat → Mem) (d : Disk) (i : Fin 8) (o n : Nat) : Prop :=
  ∀ c, ((emptySlots (d.inode i).directBlocks o n).take d.freeCount).getLast? = some c →
    ∀ k, 46 ≤ k → k < 64 → tempBuf c k = d.byte k

/-- The write starts at the start of a block, or in a block of the file, or runs out of free
    blocks, or patches block `-1` harmlessly. -/
def HoleKept (d : Disk) (i : Fin 8) (o n : Nat) (buf : Mem) : Prop :=
  o % 64 = 0 ∨ (∃ c : Fin 4, c.val = o / 64 ∧ (d.inode i).directBlocks c ≠ -1) ∨
    d.freeCount < (emptySlots (d.inode i).directBlocks o n).length ∨ Harmless d i o n buf

/-- A write that keeps block `-1` has a `WriteEffect`. -/
theorem write_effect_of_holeKept (tempBuf : Nat → Mem) {fs : FS} {h : Fin 20} {i : Fin 8}
    (buf : Mem) {nbytes : Int32} {o n : Nat} (hd : Owned fs.disk) (hi : fs.Bound h i)
    (huse : fs.disk.InUse i) (ho : (fs.fileHandleArray h).offset.toInt = o)
    (hn : nbytes.toInt = n) (hend : o + n ≤ 256) (hkept : HoleKept fs.disk i o n buf) :
    ∃ r d', Ops.write tempBuf h buf nbytes fs = .ok (r, { fs with disk := d' }) ∧
      Taken tempBuf ((emptySlots (fs.disk.inode i).directBlocks o n).take fs.disk.freeCount)
        fs.disk d' ∧
      (r = -1 ∧ Leaked fs.disk d' ∨ r = 0 ∧ Wrote fs.disk d' i o n buf) := by
  rcases hole_cases (fs.disk.inode i).directBlocks (o := o) (by omega) with hown | ⟨hoff, hhole⟩
  · obtain ⟨r, d', hrun, htaken, hcase⟩ := write_cases tempBuf buf hd hi huse ho hn hend hown
    refine ⟨r, d', hrun, htaken, ?_⟩
    rcases hcase with ⟨hr, -, hl⟩ | ⟨hr, -, hw⟩
    · exact .inl ⟨hr, hl⟩
    · exact .inr ⟨hr, hw⟩
  · obtain ⟨r, d', hrun, htaken, hcase⟩ :=
      write_hole tempBuf buf hd hi huse ho hn hend hoff hhole
    refine ⟨r, d', hrun, htaken, ?_⟩
    rcases hcase with ⟨hr, -, hl⟩ | ⟨hr, hle, -, -, hw⟩
    · exact .inl ⟨hr, hl⟩
    · rcases hkept with hal | ⟨c, hc, hne⟩ | hlt | hharm
      · exact absurd hal hoff
      · exact absurd (hhole c hc) hne
      · exact absurd hlt (by omega)
      · exact .inr ⟨hr, hw hharm⟩

/-- **The frame of an accepted write**, at any offset in 0..256. -/
theorem write_framed_iff (tempBuf : Nat → Mem) {fs : FS} {h : Fin 20} {i : Fin 8}
    (buf : Mem) {nbytes : Int32} {o n : Nat} (hd : Owned fs.disk) (hi : fs.Bound h i)
    (huse : fs.disk.InUse i) (ho : (fs.fileHandleArray h).offset.toInt = o)
    (hn : nbytes.toInt = n) (hend : o + n ≤ 256) :
    ∃ r d', Ops.write tempBuf h buf nbytes fs = .ok (r, { fs with disk := d' }) ∧
      (Framed fs.disk d' i ↔
        PaddingKept tempBuf fs.disk i o n ∧ HoleKept fs.disk i o n buf) := by
  -- the padding is outside every part of the file
  have hpad : ∀ d', Taken tempBuf
      ((emptySlots (fs.disk.inode i).directBlocks o n).take fs.disk.freeCount) fs.disk d' →
      Framed fs.disk d' i → PaddingKept tempBuf fs.disk i o n := by
    intro d' htaken hf c hc k hk hk'
    have hbyte := htaken.tail k hk hk'
    rw [hc] at hbyte
    exact hbyte.symm.trans (hf.byte_table hk (by omega) (by omega))
  by_cases hkept : HoleKept fs.disk i o n buf
  · obtain ⟨r, d', hrun, htaken, hcase⟩ :=
      write_effect_of_holeKept tempBuf buf hd hi huse ho hn hend hkept
    refine ⟨r, d', hrun, fun hf => ⟨hpad d' htaken hf, hkept⟩, fun hc => ?_⟩
    rcases hcase with ⟨-, hl⟩ | ⟨-, hw⟩
    · exact framed_leaked hd htaken hl hc.1
    · exact framed_wrote hd huse htaken hw hc.1
  · have hnot := hkept
    rw [HoleKept, not_or, not_or, not_or] at hnot
    obtain ⟨hoff, hblk, hlt, hharm⟩ := hnot
    obtain ⟨r, d', hrun, htaken, hcase⟩ := write_hole tempBuf buf hd hi huse ho hn hend hoff
      fun c hc => by
        by_contra hne
        exact hblk ⟨c, hc, hne⟩
    refine ⟨r, d', hrun, fun hf => absurd ?_ hkept, fun hc => absurd hc.2 hkept⟩
    rcases hcase with ⟨-, hlt', -⟩ | ⟨-, -, hmid, -⟩
    · exact absurd hlt' hlt
    · -- the frame spares the records behind block `-1`, so the patch is what was there
      refine .inr (.inr (.inr fun k hk hk' hout => ?_))
      have hsame := hf.byte_table (by omega) hk' hout
      rw [← hsame, hmid k (by omega) hk' hout, patch_hole _ _ (by omega) hk', if_neg (by omega)]

/-! ## Over whole runs -/

/-- A write through handle `h`, bound to inode `i`, that is rejected by the checks, or starts in
    0..256 and keeps block `-1`. -/
def WriteKept (fs : FS) (h : Fin 20) (i : Fin 8) (buf : Mem) (nbytes : Int32) : Prop :=
  ((fs.disk.inode i).status = inodeFree ∨ nbytes.toInt < 0 ∨
    256 < ((fs.fileHandleArray h).offset + nbytes).toInt) ∨
  ∃ o n : Nat, (fs.fileHandleArray h).offset.toInt = o ∧ nbytes.toInt = n ∧ o + n ≤ 256 ∧
    HoleKept fs.disk i o n buf

theorem WriteKept.effect {tempBuf : Nat → Mem} {fs fs' : FS} {h : Fin 20} {i : Fin 8} {buf : Mem}
    {nbytes : Int32} {r : Int} (hk : WriteKept fs h i buf nbytes) (hd : Owned fs.disk)
    (hi : fs.Bound h i) (hw : Ops.write tempBuf h buf nbytes fs = .ok (r, fs')) :
    WriteEffect fs h buf nbytes r fs' := by
  by_cases hrej : (fs.disk.inode i).status = inodeFree ∨ nbytes.toInt < 0 ∨
      256 < ((fs.fileHandleArray h).offset + nbytes).toInt
  · rw [write_rejected tempBuf buf hd.formatted hi hrej, Except.ok.injEq, Prod.mk.injEq] at hw
    obtain ⟨rfl, rfl⟩ := hw
    exact ⟨rfl, .inl ⟨rfl, .refl _, rfl, fun _ => .inl rfl⟩⟩
  · obtain ⟨o, n, ho, hn, hend, hkept⟩ := hk.resolve_left hrej
    have huse := hd.inUse_of_ne (not_or.mp hrej).1
    obtain ⟨r₁, d', hrun, -, hcase⟩ :=
      write_effect_of_holeKept tempBuf buf hd hi huse ho hn hend hkept
    rw [hrun, Except.ok.injEq, Prod.mk.injEq] at hw
    obtain ⟨rfl, rfl⟩ := hw
    refine ⟨rfl, ?_⟩
    rcases hcase with ⟨hr, hl⟩ | ⟨hr, hw⟩
    · exact .inl ⟨hr, hl⟩
    · exact .inr ⟨hr, i, o, n, hi, huse, ho, hn, hend, hw⟩

/-- Clients that write through open handles only, and keep block `-1`. -/
def Contained (s : FS × History) (e : Event) : Prop :=
  ∀ h buf nbytes, e.op = .write h buf nbytes →
    ∃ i, s.1.Bound h i ∧ WriteKept s.1 h i buf nbytes

/-- The write ends in 0..256 and starts at the start of a block, or in a block of inode `i`. -/
def FS.Starts (fs : FS) (h : Fin 20) (i : Fin 8) (nbytes : Int32) : Prop :=
  0 ≤ (fs.fileHandleArray h).offset.toInt ∧ 0 ≤ nbytes.toInt ∧
    (fs.fileHandleArray h).offset.toInt + nbytes.toInt ≤ 256 ∧
    ((fs.fileHandleArray h).offset.toInt % 64 = 0 ∨ ∃ c : Fin 4,
      (c.val : Int) = (fs.fileHandleArray h).offset.toInt / 64 ∧
        (fs.disk.inode i).directBlocks c ≠ -1)

instance (fs : FS) (h : Fin 20) (i : Fin 8) (nbytes : Int32) : Decidable (fs.Starts h i nbytes) :=
  inferInstanceAs (Decidable (_ ∧ _ ∧ _ ∧ _))

/-- The offset and the length of such a write, and where it starts. -/
theorem FS.Starts.place {fs : FS} {h : Fin 20} {i : Fin 8} {nbytes : Int32}
    (hs : fs.Starts h i nbytes) : ∃ o n : Nat, (fs.fileHandleArray h).offset.toInt = o ∧
      nbytes.toInt = n ∧ o + n ≤ 256 ∧
      (o % 64 = 0 ∨ ∃ c : Fin 4, c.val = o / 64 ∧ (fs.disk.inode i).directBlocks c ≠ -1) := by
  obtain ⟨ho, hn, hend, hplace⟩ := hs
  refine ⟨_, _, (Int.toNat_of_nonneg ho).symm, (Int.toNat_of_nonneg hn).symm, by omega, ?_⟩
  rcases hplace with hoff | ⟨c, hc, hblk⟩
  · exact .inl (by omega)
  · exact .inr ⟨c, by omega, hblk⟩

theorem FS.Starts.writeKept {fs : FS} {h : Fin 20} {i : Fin 8} {nbytes : Int32}
    (hs : fs.Starts h i nbytes) (buf : Mem) : WriteKept fs h i buf nbytes := by
  obtain ⟨o, n, ho, hn, hend, hplace⟩ := hs.place
  exact .inr ⟨o, n, ho, hn, hend, hplace.elim .inl fun hown => .inr (.inl hown)⟩

/-- Whether the call is no write, or one through an open handle that starts so. -/
def startsWrite (s : FS × History) (e : Event) : Bool :=
  match e.op with
  | .write h _ nbytes => decide (∃ i, s.1.Bound h i ∧ s.1.Starts h i nbytes)
  | _ => true

theorem contained_of_startsWrite {s : FS × History} {e : Event} (h : startsWrite s e = true) :
    Contained s e := by
  intro k buf nbytes hop
  rw [startsWrite, hop] at h
  obtain ⟨i, hi, hs⟩ := of_decide_eq_true h
  exact ⟨i, hi, hs.writeKept buf⟩

/-- A contained call has one of the outcomes of `Effect`. -/
theorem contained_effect {s : FS × History} {e : Event} {fs' : FS} (hd : Owned s.1.disk)
    (hc : Contained s e) (hrun : Ops.exec e.uninit s.1 e.op = .ok (e.ret, fs')) :
    Effect s.1 e.op e.ret fs' := by
  refine exec_effect hd ?_ hrun
  intro h buf nbytes r fs' hop hw
  obtain ⟨i, hi, hk⟩ := hc h buf nbytes hop
  exact hk.effect hd hi hw

/-- Contained runs keep the disk in order and the record in step. -/
theorem contained_reach {s : FS × History} (h : (simplefsHistory.guard Contained).Reach s) :
    Owned s.1.disk ∧ Tracks s.1 s.2 := by
  refine Lts.Reach.invariant (I := fun s => Owned s.1.disk ∧ Tracks s.1 s.2) ?_ ?_ h
  · intro s hs
    have hi := Inv.start hs
    exact ⟨hi.owned, hi.tracks⟩
  · rintro s e s' ⟨hd, ht⟩ ⟨hc, hrun, hg⟩
    have heff := contained_effect hd hc hrun
    rw [hg]
    exact ⟨hd.effect heff, ht.effect heff⟩

/-- **The frame of `simplefs_write`.**  In every state of a contained run, a write through a
    live handle with offset and size in 0..256 returns, and it keeps the frame exactly when it
    is rejected or keeps the padding and block `-1`. -/
theorem write_frame_iff {s : FS × History} (hs : (simplefsHistory.guard Contained).Reach s)
    (tempBuf : Nat → Mem) {h : Fin 20} (hl : s.2.Live h) (buf : Mem) {nbytes : Int32} {o n : Nat}
    (ho : (s.1.fileHandleArray h).offset.toInt = o) (ho' : o ≤ 256) (hn : nbytes.toInt = n)
    (hn' : n ≤ 256) :
    ∃ i, s.2.LiveAt h i ∧ ∃ r fs', Ops.write tempBuf h buf nbytes s.1 = .ok (r, fs') ∧
      (Framed s.1.disk fs'.disk i ↔ 256 < o + n ∨
        PaddingKept tempBuf s.1.disk i o n ∧ HoleKept s.1.disk i o n buf) := by
  obtain ⟨hd, ht⟩ := contained_reach hs
  obtain ⟨i, hl⟩ := hl
  have hi := ht.live hl
  refine ⟨i, hl, ?_⟩
  by_cases hend : o + n ≤ 256
  · obtain ⟨r, d', hrun, hiff⟩ :=
      write_framed_iff tempBuf buf hd hi (ht.inUse_of_live hl) ho hn hend
    refine ⟨r, { s.1 with disk := d' }, hrun, ?_⟩
    rw [hiff]
    exact ⟨.inr, fun hc => hc.resolve_left (by omega)⟩
  · have hsum : ((s.1.fileHandleArray h).offset + nbytes).toInt = (o + n : Nat) := by
      rw [toInt_add_of_fits (by omega) (by omega), ho, hn]
      rfl
    refine ⟨-1, s.1, write_rejected tempBuf buf hd.formatted hi (.inr (.inr (by omega))), ?_⟩
    refine ⟨fun _ => .inl (by omega), fun _ => ?_⟩
    exact Framed.of_byte hd fun k hne => absurd rfl hne

/-- A sparse file: its only block is behind a hole.  Three bytes go to offset 70, inside it. -/
theorem write_frame_iff_sparse :
    ∃ s i r fs', (simplefsHistory.guard Contained).Reach s ∧ s.2.LiveAt 0 i ∧
      s.1.disk.owner (0, 0) = none ∧ s.1.disk.owner (0, 1) = some 0 ∧
      Ops.write (fun _ _ => 0) 0 (fun _ => 121) 3 s.1 = .ok (r, fs') ∧
      (Framed s.1.disk fs'.disk i ↔ 256 < 70 + 3 ∨
        PaddingKept (fun _ _ => 0) s.1.disk i 70 3 ∧ HoleKept s.1.disk i 70 3 fun _ => 121) := by
  have hrun : (runGuarded startsWrite [.create nameA, .openFile nameA, .seek 0 64,
      .write 0 (fun _ => 120) 10, .seek 0 6]).map
      (fun s => (s.2.slot 0, s.2.inst 0, s.1.disk.owner (0, 0), s.1.disk.owner (0, 1),
        (s.1.fileHandleArray 0).offset)) =
      some (some 0, some 0, none, some 0, 70) := by decide +kernel
  obtain ⟨s, hs, hfacts⟩ := Option.map_eq_some_iff.mp hrun
  simp only [Prod.mk.injEq] at hfacts
  obtain ⟨hslot, hinst, hhole, hblock, hoff⟩ := hfacts
  have hreach : (simplefsHistory.guard Contained).Reach s :=
    runGuarded_reach hs fun s e _ hc => contained_of_startsWrite hc
  obtain ⟨i, hl, r, fs', hw, hiff⟩ := write_frame_iff hreach (fun _ _ => 0) (h := 0)
    ⟨0, 0, hslot, hinst⟩ (fun _ => 121) (o := 70) (by rw [hoff]; decide) (by decide)
    (show (3 : Int32).toInt = (3 : Nat) by decide) (by decide)
  exact ⟨s, i, r, fs', hreach, hl, hhole, hblock, hw, hiff⟩

/-- One byte written at offset 10 of an empty file: the record of inode 7 is wiped. -/
theorem write_frame_broken :
    ¬ ∀ s, simplefsHistory.Reach s → ∀ (tempBuf : Nat → Mem) (h : Fin 20) (i : Fin 8) (buf : Mem)
      (nbytes : Int32) (r : Int) (fs' : FS), s.2.LiveAt h i →
      0 ≤ (s.1.fileHandleArray h).offset.toInt → (s.1.fileHandleArray h).offset.toInt ≤ 256 →
      0 ≤ nbytes.toInt → nbytes.toInt ≤ 256 →
      Ops.write tempBuf h buf nbytes s.1 = .ok (r, fs') → Framed s.1.disk fs'.disk i := by
  intro hframed
  have hrun : (runFormatted [.create nameA, .openFile nameA, .seek 0 10]).bind
      (fun s => (Ops.write (fun _ _ => 0) 0 (fun _ => 120) 1 s.1).toOption.map fun x =>
        (s.2.slot 0, s.2.inst 0, (s.1.fileHandleArray 0).offset, (s.1.disk.inode 7).status,
          (x.2.disk.inode 7).status)) = some (some 0, some 0, 10, inodeFree, 0) := by
    decide +kernel
  obtain ⟨s, hs, hx⟩ := Option.bind_eq_some_iff.mp hrun
  obtain ⟨⟨r, fs'⟩, hw, hfacts⟩ := Option.map_eq_some_iff.mp hx
  simp only [Prod.mk.injEq] at hfacts
  obtain ⟨hslot, hinst, hoff, hold, hnew⟩ := hfacts
  have hguard : (simplefsHistory.guard fun _ _ => True).Reach s :=
    runFormatted_reach hs fun _ _ _ => trivial
  have hf := hframed s hguard.of_guard (fun _ _ => 0) 0 0 (fun _ => 120) 1 r fs' ⟨0, hslot, hinst⟩
    (by rw [hoff]; decide) (by rw [hoff]; decide) (by decide) (by decide)
    (toOption_eq_some.mp hw)
  rw [hf.inode_ne 7 (by decide), hold] at hnew
  exact absurd hnew (by decide)

end OsCodes.SimpleFS
