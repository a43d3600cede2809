/-
  The allocation loop of `simplefs_write`.

  The loop puts a free block into every empty slot from the offset on; `Filled` says what it makes
  of the entries, `Taken` what it leaves in the block of the superblock, and the two `allocLoop`
  lemmas are its only unfoldings: it gets through exactly when there are blocks enough.

  1. `allocLoop_ok`: the loop touches the superblock only, and if it gets through every slot is
     filled with a block that was free, no two of them the same;
  2. `allocLoop_count`: it gets through exactly when there is a free block for every empty slot,
     and otherwise it takes all there are and returns -1 with their flags set.
-/
import OsCodes.SimpleFS.Metadata
import Mathlib.Data.Fintype.Card

namespace OsCodes.SimpleFS

open Bytes

/-! ## Block arithmetic -/

theorem roundUp_natCast (o : Nat) : roundUp o = ((o + 63) / 64 : Nat) := by
  unfold roundUp
  rw [Int.tmod_eq_emod_of_nonneg (by omega), Int.tdiv_eq_ediv_of_nonneg (by omega)]
  split <;> omega

theorem mem_slotRange {lo hi j : Int} : j ∈ slotRange lo hi ↔ lo ≤ j ∧ j < hi := by
  simp only [slotRange, List.mem_map, List.mem_range]
  constructor
  · rintro ⟨k, hk, rfl⟩
    omega
  · rintro ⟨hlo, hhi⟩
    exact ⟨(j - lo).toNat, by omega, by omega⟩

/-! ## The allocation loop -/

/-- What the allocation loop over the slots `S` makes of the entries `blocks`: from `d` to `d'`
    it marks the blocks it puts into empty slots, and nothing else. -/
structure Filled (d d' : Disk) (S : Fin 4 → Prop) (blocks blocks' : Fin 4 → Int32) : Prop where
  keep : ∀ c, blocks c ≠ -1 → blocks' c = blocks c
  off : ∀ c, ¬ S c → blocks' c = blocks c
  filled : ∀ c, S c → blocks' c ≠ -1
  fresh : ∀ c, blocks c = -1 → blocks' c ≠ -1 → ∃ b : Fin 30, blocks' c = Int32.ofInt b.val ∧
    d.sb.datablockFreelist b = flagFree ∧ d'.Used b
  one : ∀ c c', blocks c = -1 → blocks c' = -1 → blocks' c ≠ -1 → blocks' c = blocks' c' → c = c'
  flags : ∀ b : Fin 30, d'.sb.datablockFreelist b = d.sb.datablockFreelist b ∨
    ∃ c, blocks c = -1 ∧ blocks' c = Int32.ofInt b.val

/-- Flags that changed went from free to used. -/
def OnlyMarked (d d' : Disk) : Prop :=
  ∀ b, d'.sb.datablockFreelist b = d.sb.datablockFreelist b ∨
    d.sb.datablockFreelist b = flagFree ∧ d'.Used b

theorem OnlyMarked.mono {d d' : Disk} (h : OnlyMarked d d') {b : Fin 30} (hb : d.Used b) :
    d'.Used b := (h b).elim (fun heq => heq.trans hb) fun hu => hu.2

/-- The clean-up loop looks at an empty slot and stops at once. -/
theorem undoLoop_empty (tempBuf : Mem) {inode : Inode} {i : Fin 4}
    (hi : inode.directBlocks i = -1) (js : List Int) (d : Disk) :
    undoLoop tempBuf inode i js d = .ok d := by
  cases js with
  | nil => rfl
  | cons j js => simp only [undoLoop, hi, ne_eq, not_true, if_false, pure_eq_ok]

theorem ofInt_fin_inj {b b' : Fin 30} (h : Int32.ofInt b.val = Int32.ofInt b'.val) : b = b' := by
  have hb := blockOf_ofInt b
  rw [h, blockOf_ofInt] at hb
  exact (Option.some.inj hb).symm

/-- The first free data block, as `simplefs_allocDataBlock` finds it. -/
theorem find_free_block {d : Disk} {b : Fin 30}
    (h : ((List.finRange 30).find? fun b => decide (d.sb.datablockFreelist b = flagFree)) =
      some b) : d.sb.datablockFreelist b = flagFree := by
  simpa using List.find?_some h

/-- One successful turn, then the rest of the loop. -/
theorem Filled.cons_new {d d' : Disk} {S : Fin 4 → Prop} {blocks blocks' : Fin 4 → Int32}
    {c₀ : Fin 4} {b₀ : Fin 30} {tempBuf : Mem} (hc₀ : blocks c₀ = -1)
    (hb₀ : d.sb.datablockFreelist b₀ = flagFree)
    (hmark : OnlyMarked (writeSuperBlock tempBuf (d.sb.setBlockFlag b₀ flagUsed) d) d')
    (h : Filled (writeSuperBlock tempBuf (d.sb.setBlockFlag b₀ flagUsed) d) d' S
      (Function.update blocks c₀ (Int32.ofInt b₀.val)) blocks') :
    Filled d d' (fun c => c = c₀ ∨ S c) blocks blocks' := by
  have hused : d'.Used b₀ := by
    apply hmark.mono
    rw [Disk.Used, Disk.sb_writeSuperBlock, Superblock.setBlockFlag_self]
  have hc₀' : blocks' c₀ = Int32.ofInt b₀.val := by
    have hne : Function.update blocks c₀ (Int32.ofInt b₀.val) c₀ ≠ -1 := by
      rw [Function.update_self]
      exact ofInt_fin_ne_neg_one b₀
    rw [h.keep c₀ hne, Function.update_self]
  -- what the rest of the loop finds free was free before, and is not `b₀`
  have hother : ∀ c, c ≠ c₀ → blocks c = -1 → blocks' c ≠ -1 → ∃ b : Fin 30, b ≠ b₀ ∧
      blocks' c = Int32.ofInt b.val ∧ d.sb.datablockFreelist b = flagFree ∧ d'.Used b := by
    intro c hc hempty hne
    obtain ⟨b, hb, hfree, hu⟩ := h.fresh c (by rw [Function.update_of_ne hc, hempty]) hne
    have hbb : b ≠ b₀ := by
      rintro rfl
      rw [Disk.sb_writeSuperBlock, Superblock.setBlockFlag_self] at hfree
      exact absurd hfree (by decide)
    rw [Disk.sb_writeSuperBlock, Superblock.setBlockFlag_ne _ _ _ hbb] at hfree
    exact ⟨b, hbb, hb, hfree, hu⟩
  constructor
  · intro c hne
    have hc : c ≠ c₀ := by rintro rfl; exact hne hc₀
    rw [h.keep c (by rwa [Function.update_of_ne hc]), Function.update_of_ne hc]
  · intro c hS
    rw [not_or] at hS
    rw [h.off c hS.2, Function.update_of_ne hS.1]
  · rintro c (rfl | hS)
    · rw [hc₀']
      exact ofInt_fin_ne_neg_one b₀
    · exact h.filled c hS
  · intro c hempty hne
    by_cases hc : c = c₀
    · subst hc
      exact ⟨b₀, hc₀', hb₀, hused⟩
    · obtain ⟨b, -, hb⟩ := hother c hc hempty hne
      exact ⟨b, hb⟩
  · intro c c' hempty hempty' hne heq
    by_cases hc : c = c₀ <;> by_cases hc' : c' = c₀
    · rw [hc, hc']
    · obtain ⟨b, hbb, hb, -⟩ := hother c' hc' hempty' (heq ▸ hne)
      rw [hc, hc₀', hb] at heq
      exact absurd (ofInt_fin_inj heq).symm hbb
    · obtain ⟨b, hbb, hb, -⟩ := hother c hc hempty hne
      rw [hc', hc₀', hb] at heq
      exact absurd (ofInt_fin_inj heq) hbb
    · exact h.one c c' (by rw [Function.update_of_ne hc, hempty])
        (by rw [Function.update_of_ne hc', hempty']) hne heq
  · intro b
    by_cases hb : b = b₀
    · subst hb
      exact .inr ⟨c₀, hc₀, hc₀'⟩
    · rcases h.flags b with hf | ⟨c, hc, hc'⟩
      · left
        rw [hf, Disk.sb_writeSuperBlock, Superblock.setBlockFlag_ne _ _ _ hb]
      · right
        by_cases hcc : c = c₀
        · subst hcc
          rw [hc₀'] at hc'
          exact absurd (ofInt_fin_inj hc').symm hb
        · rw [Function.update_of_ne hcc] at hc
          exact ⟨c, hc, hc'⟩

/-- **The allocation loop.**  It touches the superblock only; when it gets through, the slots are
    filled. -/
theorem allocLoop_ok (tempBuf : Nat → Mem) (slots : List Int) :
    ∀ (is : List Int) (inode : Inode) (d : Disk), d.Formatted → (∀ j ∈ is, 0 ≤ j ∧ j < 4) →
      ∃ r d', allocLoop tempBuf slots is inode d = .ok (r, d') ∧ d.SbOnly d' ∧
        d'.sb.inodeFreelist = d.sb.inodeFreelist ∧ OnlyMarked d d' ∧
        ∀ inode', r = some inode' →
          inode' = { inode with directBlocks := inode'.directBlocks } ∧
          Filled d d' (fun c => (c.val : Int) ∈ is) inode.directBlocks inode'.directBlocks := by
  intro is
  induction is with
  | nil =>
    intro inode d _ _
    refine ⟨some inode, d, rfl, .refl d, rfl, fun _ => .inl rfl, ?_⟩
    rintro _ ⟨⟩
    exact ⟨rfl, fun _ _ => rfl, fun _ _ => rfl, fun _ h => absurd h List.not_mem_nil,
      fun _ h h' => absurd h h', fun _ _ h _ h' => absurd h h', fun _ => .inl rfl⟩
  | cons j is ih =>
    intro inode d hd hrange
    obtain ⟨hj0, hj4⟩ := hrange j List.mem_cons_self
    have hrange' : ∀ j ∈ is, 0 ≤ j ∧ j < 4 := fun j hj => hrange j (List.mem_cons_of_mem _ hj)
    obtain ⟨c₀, rfl⟩ : ∃ c₀ : Fin 4, j = c₀.val := ⟨⟨j.toNat, by omega⟩, by simp only; omega⟩
    have hmem : ∀ c : Fin 4, (c.val : Int) ∈ ((c₀.val : Int) :: is) ↔
        c = c₀ ∨ (c.val : Int) ∈ is := by
      intro c
      rw [List.mem_cons, Fin.ext_iff, Int.ofNat_inj]
    simp only [allocLoop, index_ok, ok_bind, hmem]
    by_cases hc : inode.directBlocks c₀ = -1
    · simp only [hc, if_true, allocDataBlock_ok (tempBuf c₀) hd, ok_bind]
      cases hfind : (List.finRange 30).find? fun b =>
          decide (d.sb.datablockFreelist b = flagFree) with
      | none =>
        refine ⟨none, d, ?_, .refl d, rfl, fun _ => .inl rfl, fun _ h => by cases h⟩
        simp only [undoLoop_empty (tempBuf c₀) hc, ok_bind, pure_eq_ok]
      | some b₀ =>
        have hfree := find_free_block hfind
        have hsb₁ := sbOnly_writeSuperBlock (tempBuf c₀) (d.sb.setBlockFlag b₀ flagUsed) hd
        obtain ⟨r, d', hrun, hsb, hif, hmark, hr⟩ :=
          ih { inode with directBlocks :=
            Function.update inode.directBlocks c₀ (Int32.ofInt b₀.val) }
            (writeSuperBlock (tempBuf c₀) (d.sb.setBlockFlag b₀ flagUsed) d) (hsb₁.formatted hd)
            hrange'
        refine ⟨r, d', hrun, hsb₁.trans hsb, ?_, ?_, ?_⟩
        · rw [hif, Disk.sb_writeSuperBlock]
          rfl
        · intro b
          by_cases hbb : b = b₀
          · subst hbb
            refine .inr ⟨hfree, hmark.mono ?_⟩
            rw [Disk.Used, Disk.sb_writeSuperBlock, Superblock.setBlockFlag_self]
          · have hb := hmark b
            rwa [Disk.sb_writeSuperBlock, Superblock.setBlockFlag_ne _ _ _ hbb] at hb
        · intro inode' hinode'
          obtain ⟨hsame, hfilled⟩ := hr inode' hinode'
          exact ⟨hsame, hfilled.cons_new hc hfree hmark⟩
    · simp only [hc, if_false]
      obtain ⟨r, d', hrun, hsb, hif, hmark, hr⟩ := ih inode d hd hrange'
      refine ⟨r, d', hrun, hsb, hif, hmark, fun inode' hinode' => ?_⟩
      obtain ⟨hsame, hfilled⟩ := hr inode' hinode'
      refine ⟨hsame, hfilled.keep, fun c hS => hfilled.off c fun h => hS (.inr h), ?_,
        hfilled.fresh, hfilled.one, hfilled.flags⟩
      rintro c (rfl | hS)
      · rw [hfilled.keep c hc]
        exact hc
      · exact hfilled.filled c hS

/-! ## How many blocks the loop takes -/

/-- The slots that a write of `n` bytes at `o` has to fill. -/
def emptySlots (blocks : Fin 4 → Int32) (o n : Nat) : List (Fin 4) :=
  (List.finRange 4).filter fun c => (o ≤ 64 * c.val ∧ 64 * c.val < o + n) ∧ blocks c = -1

/-- The number of data blocks marked free. -/
def Disk.freeCount (d : Disk) : Nat :=
  (Finset.univ.filter fun b => d.sb.datablockFreelist b = flagFree).card

/-- What the superblock's block holds after blocks were found for the slots `taken`: the name and
    the inode flags as before, and behind the struct the `tempBuf` of the last one. -/
structure Taken (tempBuf : Nat → Mem) (taken : List (Fin 4)) (d d' : Disk) : Prop where
  head : ∀ k, k < 16 → d'.byte k = d.byte k
  tail : ∀ k, 46 ≤ k → k < 64 → d'.byte k = taken.getLast?.elim (d.byte k) fun c => tempBuf c k

theorem Taken.refl (tempBuf : Nat → Mem) (d : Disk) : Taken tempBuf [] d d :=
  ⟨fun _ _ => rfl, fun _ _ _ => rfl⟩

/-- Marking a block leaves name and inode flags. -/
theorem byte_setBlockFlag_head (tempBuf : Mem) (d : Disk) (b : Fin 30) (c : UInt8) {k : Nat}
    (hk : k < 16) : (writeSuperBlock tempBuf (d.sb.setBlockFlag b c) d).byte k = d.byte k := by
  simp only [writeSuperBlock, Disk.pwrite]
  rw [blit_in (by omega), blit_in (by omega), Superblock.encode]
  simp only [Nat.sub_zero]
  by_cases hk8 : k < 8
  · rw [dif_pos hk8]
    rfl
  · have hk' : 8 + (k - 8) = k := by omega
    rw [dif_neg hk8, dif_pos hk]
    simp only [Superblock.inodeFreelist_setBlockFlag, Disk.sb, Superblock.decode, hk']

theorem freeCount_pos {d : Disk} {b : Fin 30} (hb : d.sb.datablockFreelist b = flagFree) :
    0 < d.freeCount :=
  Finset.card_pos.mpr ⟨b, Finset.mem_filter.mpr ⟨Finset.mem_univ b, hb⟩⟩

/-- Marking a free block takes one from the count. -/
theorem freeCount_setBlockFlag (tempBuf : Mem) {d : Disk} {b : Fin 30}
    (hb : d.sb.datablockFreelist b = flagFree) :
    (writeSuperBlock tempBuf (d.sb.setBlockFlag b flagUsed) d).freeCount = d.freeCount - 1 := by
  have herase : (Finset.univ.filter fun b' =>
      (d.sb.setBlockFlag b flagUsed).datablockFreelist b' = flagFree) =
      (Finset.univ.filter fun b' => d.sb.datablockFreelist b' = flagFree).erase b := by
    ext b'
    simp only [Finset.mem_filter, Finset.mem_univ, true_and, Finset.mem_erase]
    by_cases hbb : b' = b
    · subst hbb
      rw [Superblock.setBlockFlag_self]
      simp [show flagUsed ≠ flagFree by decide]
    · rw [Superblock.setBlockFlag_ne _ _ _ hbb]
      simp [hbb]
  rw [Disk.freeCount, Disk.sb_writeSuperBlock, herase, Finset.card_erase_of_mem, Disk.freeCount]
  exact Finset.mem_filter.mpr ⟨Finset.mem_univ b, hb⟩

theorem freeCount_eq_zero {d : Disk}
    (h : ((List.finRange 30).find? fun b => decide (d.sb.datablockFreelist b = flagFree)) =
      none) : d.freeCount = 0 := by
  rw [Disk.freeCount, Finset.card_eq_zero, Finset.filter_eq_empty_iff]
  intro b _ hb
  have := List.find?_eq_none.mp h b (List.mem_finRange b)
  simp [hb] at this

/-- **Counting.**  The loop gets through when there is a free block for every empty slot, and
    otherwise takes all there are. -/
theorem allocLoop_count (tempBuf : Nat → Mem) (slots : List Int) :
    ∀ (cs : List (Fin 4)) (inode : Inode) (d : Disk) (r : Option Inode) (d' : Disk),
      d.Formatted → cs.Nodup →
      allocLoop tempBuf slots (cs.map fun c => (c.val : Int)) inode d = .ok (r, d') →
      (r.isSome ↔ (cs.filter fun c => inode.directBlocks c = -1).length ≤ d.freeCount) ∧
      Taken tempBuf ((cs.filter fun c => inode.directBlocks c = -1).take d.freeCount) d d' := by
  intro cs
  induction cs with
  | nil =>
    intro inode d r d' _ _ hrun
    simp only [List.map_nil, allocLoop, Except.ok.injEq, Prod.mk.injEq] at hrun
    obtain ⟨rfl, rfl⟩ := hrun
    simpa using Taken.refl tempBuf d
  | cons c cs ih =>
    intro inode d r d' hd hnd hrun
    obtain ⟨hc, hnd⟩ := List.nodup_cons.mp hnd
    simp only [List.map_cons, allocLoop, index_ok, ok_bind] at hrun
    by_cases hempty : inode.directBlocks c = -1
    · rw [List.filter_cons_of_pos (by simpa using hempty)]
      simp only [hempty, if_true, allocDataBlock_ok (tempBuf c) hd, ok_bind] at hrun
      cases hfind : (List.finRange 30).find? fun b =>
          decide (d.sb.datablockFreelist b = flagFree) with
      | none =>
        simp only [hfind, undoLoop_empty (tempBuf c) hempty, ok_bind, pure_eq_ok, Except.ok.injEq,
          Prod.mk.injEq] at hrun
        obtain ⟨rfl, rfl⟩ := hrun
        rw [freeCount_eq_zero hfind]
        exact ⟨by simp, .refl tempBuf d⟩
      | some b =>
        have hb := find_free_block hfind
        have hsb := sbOnly_writeSuperBlock (tempBuf c) (d.sb.setBlockFlag b flagUsed) hd
        simp only [hfind] at hrun
        obtain ⟨hiff, htaken⟩ := ih _ _ r d' (hsb.formatted hd) hnd hrun
        -- the later slots are as empty as before
        have hsame : (cs.filter fun c' => decide
            (Function.update inode.directBlocks c (Int32.ofInt b.val) c' = -1)) =
            cs.filter fun c' => decide (inode.directBlocks c' = -1) := by
          refine List.filter_congr fun c' hc' => ?_
          rw [Function.update_of_ne]
          rintro rfl
          exact hc hc'
        simp only [hsame, freeCount_setBlockFlag (tempBuf c) hb] at hiff htaken
        obtain ⟨m, hm⟩ : ∃ m, d.freeCount = m + 1 := ⟨d.freeCount - 1, by
          have := freeCount_pos hb; omega⟩
        rw [hm] at hiff htaken ⊢
        refine ⟨?_, ?_, ?_⟩
        · rw [hiff, List.length_cons, Nat.add_sub_cancel]
          omega
        · intro k hk
          rw [htaken.head k hk, byte_setBlockFlag_head _ _ _ _ hk]
        · intro k hk hk'
          rw [htaken.tail k hk hk', List.take_succ_cons, Nat.add_sub_cancel,
            Disk.byte_writeSuperBlock_tail _ _ _ hk hk', List.getLast?_cons]
          cases (List.take m (cs.filter fun c' => decide (inode.directBlocks c' = -1))).getLast?
          · rfl
          · rfl
    · rw [List.filter_cons_of_neg (by simpa using hempty)]
      simp only [hempty, if_false] at hrun
      exact ih inode d r d' hd hnd hrun

/-- The slots of a write as numbers of the loop. -/
theorem slotRange_eq {o n : Nat} (hend : o + n ≤ 256) :
    slotRange ((o + 63) / 64 : Nat) ((o + n + 63) / 64 : Nat) =
      ((List.finRange 4).filter fun c => o ≤ 64 * c.val ∧ 64 * c.val < o + n).map
        fun c => (c.val : Int) := by
  have hall : ∀ a b : Fin 5, slotRange (a.val : Int) (b.val : Int) =
      ((List.finRange 4).filter fun c => a.val ≤ c.val ∧ c.val < b.val).map
        fun c => (c.val : Int) := by decide
  have h := hall ⟨(o + 63) / 64, by omega⟩ ⟨(o + n + 63) / 64, by omega⟩
  simp only at h
  rw [h]
  congr 1
  refine List.filter_congr fun c _ => ?_
  rw [decide_eq_decide]
  omega

end OsCodes.SimpleFS
