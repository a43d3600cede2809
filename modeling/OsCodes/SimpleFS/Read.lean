/-
  What `simplefs_read` does on a disk in order.

  The staging buffer holds the blocks of the file at their places and, where the file has no
  block, whatever was on the stack.  A read never faults and never changes anything; whether the
  bytes it delivers are the file's own depends only on whether the blocks are there.

  `Staged` is the invariant of the loop that loads the blocks.  Behind it the checks of the call
  are read off: the end of the read has to be within the file's size and within the 256 bytes of
  the buffer, and the sum in them is one of `int`s.
-/
import OsCodes.SimpleFS.Metadata

namespace OsCodes.SimpleFS

open Bytes

/-- What the staging buffer holds at `p` once the slots `cs` are loaded. -/
structure Staged (d : Disk) (inode : Inode) (cs : List (Fin 4)) (temp temp' : Int → UInt8) :
    Prop where
  loaded : ∀ (c : Fin 4) (b : Fin 30) (k : Nat), c ∈ cs →
    inode.directBlocks c = Int32.ofInt b.val → k < 64 → temp' (64 * c.val + k) = d.block b k
  kept : ∀ p, (∀ c ∈ cs, inode.directBlocks c ≠ -1 → p < 64 * c.val ∨ 64 * c.val + 64 ≤ p) →
    temp' p = temp p

/-- Loading the blocks of an inode: each slot has its own 64 bytes of the buffer. -/
theorem loadBlocks_ok {d : Disk} {inode : Inode} : ∀ (cs : List (Fin 4)) (temp : Int → UInt8),
    cs.Nodup → (∀ c ∈ cs, inode.directBlocks c ≠ -1 →
      ∃ b : Fin 30, inode.directBlocks c = Int32.ofInt b.val ∧ d.Present b) →
    ∃ temp', loadBlocks d inode cs temp = .ok temp' ∧ Staged d inode cs temp temp' := by
  intro cs
  induction cs with
  | nil =>
    intro temp _ _
    exact ⟨temp, rfl, fun _ _ _ h => absurd h List.not_mem_nil, fun _ _ => rfl⟩
  | cons c cs ih =>
    intro temp hnd hblk
    obtain ⟨hc, hnd⟩ := List.nodup_cons.mp hnd
    have hblk' : ∀ c ∈ cs, inode.directBlocks c ≠ -1 →
        ∃ b : Fin 30, inode.directBlocks c = Int32.ofInt b.val ∧ d.Present b :=
      fun c' hc' => hblk c' (List.mem_cons_of_mem _ hc')
    by_cases hempty : inode.directBlocks c = -1
    · obtain ⟨temp', hrun, hst⟩ := ih temp hnd hblk'
      refine ⟨temp', by simp only [loadBlocks, hempty, ne_eq, not_true, if_false, hrun], ?_, ?_⟩
      · intro c' b k hc' hb hk
        rcases List.mem_cons.mp hc' with rfl | hc'
        · rw [hempty] at hb
          exact absurd hb.symm (ofInt_fin_ne_neg_one b)
        · exact hst.loaded c' b k hc' hb hk
      · intro p hp
        exact hst.kept p fun c' hc' => hp c' (List.mem_cons_of_mem _ hc')
    · obtain ⟨b₀, hb₀, hpres⟩ := hblk c List.mem_cons_self hempty
      have hread : readDataBlock d (inode.directBlocks c).toInt = .ok (d.block b₀) := by
        rw [hb₀, toInt_ofInt_fin (by omega)]
        exact readDataBlock_ok hpres
      obtain ⟨temp', hrun, hst⟩ := ih (fun p =>
        if 64 * c.val ≤ p ∧ p < 64 * c.val + 64 then d.block b₀ (p - 64 * c.val).toNat
        else temp p) hnd hblk'
      refine ⟨temp', ?_, ?_, ?_⟩
      · simp only [loadBlocks, ne_eq, hempty, not_false_eq_true, if_true, hread, ok_bind, hrun]
      · intro c' b k hc' hb hk
        rcases List.mem_cons.mp hc' with rfl | hc'
        · -- later slots leave these 64 bytes alone
          obtain rfl : b = b₀ := by
            have h := blockOf_ofInt b
            rw [← hb, hb₀, blockOf_ofInt] at h
            exact (Option.some.inj h).symm
          have hout : temp' (64 * c'.val + k) = _ := hst.kept (64 * c'.val + k) fun e he _ => by
            have hne : e.val ≠ c'.val := fun heq => hc (Fin.ext heq ▸ he)
            omega
          rw [hout, if_pos (by omega)]
          congr 1
          omega
        · exact hst.loaded c' b k hc' hb hk
      · intro p hp
        rw [hst.kept p fun c' hc' => hp c' (List.mem_cons_of_mem _ hc'), if_neg]
        have := hp c List.mem_cons_self hempty
        omega

/-- **`simplefs_read`** through a handle bound to inode `i`, whose blocks are on disk: it refuses
    what the file size does not cover, and otherwise delivers `nbytes` bytes of the staging
    buffer. -/
theorem read_present (temp : Int → UInt8) {fs : FS} {h : Fin 20} {i : Fin 8} (nbytes : Int32)
    (hd : fs.disk.Formatted) (hi : (fs.fileHandleArray h).inodeNumber = Int32.ofInt i.val)
    (hblk : ∀ c, (fs.disk.inode i).directBlocks c ≠ -1 →
      ∃ b : Fin 30, (fs.disk.inode i).directBlocks c = Int32.ofInt b.val ∧ fs.disk.Present b) :
    ((nbytes.toInt < 0 ∨ (fs.disk.inode i).fileSize.toInt <
        ((fs.fileHandleArray h).offset + nbytes).toInt) ∧
      Ops.read temp h nbytes fs = .ok (-1, [])) ∨
    (¬ (nbytes.toInt < 0 ∨ (fs.disk.inode i).fileSize.toInt <
        ((fs.fileHandleArray h).offset + nbytes).toInt) ∧
      ∃ temp', Staged fs.disk (fs.disk.inode i) (List.finRange 4) temp temp' ∧
        Ops.read temp h nbytes fs = .ok (0, (List.range nbytes.toInt.toNat).map
          (strncpy fun k => temp' ((fs.fileHandleArray h).offset.toInt + k)))) := by
  have hnum : (fs.fileHandleArray h).inodeNumber.toInt = i.val := by
    rw [hi, toInt_ofInt_fin (by omega)]
  obtain ⟨temp', hload, hst⟩ := @loadBlocks_ok fs.disk (fs.disk.inode i)
    (List.finRange 4) temp (List.nodup_finRange 4) fun c _ hc => hblk c hc
  simp only [Ops.read, hnum, readInode_ok hd, ok_bind, pure_eq_ok]
  by_cases hrej : nbytes.toInt < 0 ∨ (fs.disk.inode i).fileSize.toInt <
      ((fs.fileHandleArray h).offset + nbytes).toInt
  · exact .inl ⟨hrej, by rw [if_pos hrej]⟩
  · exact .inr ⟨hrej, temp', hst, by rw [if_neg hrej, hload, ok_bind]⟩

/-- On a disk in order the blocks are there. -/
theorem Owned.blocks {d : Disk} (h : Owned d) {i : Fin 8} (c : Fin 4)
    (hc : (d.inode i).directBlocks c ≠ -1) :
    ∃ b : Fin 30, (d.inode i).directBlocks c = Int32.ofInt b.val ∧ d.Present b := by
  obtain ⟨b, hb⟩ := h.owner_of_ne hc
  exact ⟨b, Disk.owner_eq_some.mp hb, h.present _ b hb⟩

theorem read_cases (temp : Int → UInt8) {fs : FS} {h : Fin 20} {i : Fin 8} (nbytes : Int32)
    (hd : Owned fs.disk) (hi : (fs.fileHandleArray h).inodeNumber = Int32.ofInt i.val) :
    ((nbytes.toInt < 0 ∨ (fs.disk.inode i).fileSize.toInt <
        ((fs.fileHandleArray h).offset + nbytes).toInt) ∧
      Ops.read temp h nbytes fs = .ok (-1, [])) ∨
    (¬ (nbytes.toInt < 0 ∨ (fs.disk.inode i).fileSize.toInt <
        ((fs.fileHandleArray h).offset + nbytes).toInt) ∧
      ∃ temp', Staged fs.disk (fs.disk.inode i) (List.finRange 4) temp temp' ∧
        Ops.read temp h nbytes fs = .ok (0, (List.range nbytes.toInt.toNat).map
          (strncpy fun k => temp' ((fs.fileHandleArray h).offset.toInt + k)))) :=
  read_present temp nbytes hd.formatted hi hd.blocks

end OsCodes.SimpleFS
