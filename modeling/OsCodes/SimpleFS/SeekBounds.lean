/-
  Offsets and subscripts.

  `simplefs_seek`, `simplefs_read` and `simplefs_write` share the offset of a handle, and each
  checks another sum.  The check of seek asks for a sum that is negative and above 256 at once, so
  it lets every offset through; where seeks land in 0..256 all the same, a write whose sum does
  not overflow stays inside `direct_blocks` and a read inside the staging buffer if its end does.

  The part about subscripts is proved without any condition on the disk: `write_avoids` goes
  through the loops and shows that they come to slots below 4 only, if the offset is in 0..256 and
  the sum of offset and length does not overflow.  `write_leaves` is the other direction: a sum
  that overflows is negative, so the check lets the write through, and the loop runs to the slot
  behind the last.  `Int32` arithmetic is the program's own.  `offset_safety` puts the checks of
  the three calls together, each with its exact condition, and `offset_negative` is a seek that is
  accepted.
-/
import OsCodes.SimpleFS.WriteFail
import OsCodes.SimpleFS.Equivalence
import OsCodes.Lib.Returns

namespace OsCodes.SimpleFS

open Bytes

/-! ## The disk routines subscript nothing -/

section Routines

variable (d : Disk)

theorem readAt_avoids (pos : Int) (n : Nat) : Avoids .bounds (d.readAt pos n) fun _ => True := by
  unfold Disk.readAt
  split
  · exact .stop (by decide)
  · split
    · exact .ok trivial
    · exact .stop (by decide)

theorem writeAt_avoids (pos : Int) (n : Nat) (src : Mem) :
    Avoids .bounds (d.writeAt pos n src) fun _ => True := by
  unfold Disk.writeAt
  split
  · exact .stop (by decide)
  · exact .ok trivial

theorem readInode_avoids (inodenum : Int) :
    Avoids .bounds (readInode d inodenum) fun _ => True := by
  unfold readInode
  split
  · exact (readAt_avoids d _ _).bind fun _ _ => .ok trivial
  · exact .stop (by decide)

theorem writeInode_avoids (inodenum : Int) (inode : Inode) :
    Avoids .bounds (writeInode d inodenum inode) fun _ => True := by
  unfold writeInode
  split
  · exact writeAt_avoids d _ _ _
  · exact .stop (by decide)

theorem readDataBlock_avoids (blocknum : Int) :
    Avoids .bounds (readDataBlock d blocknum) fun _ => True := by
  unfold readDataBlock
  split
  · exact readAt_avoids d _ _
  · exact .stop (by decide)

theorem writeDataBlock_avoids (blocknum : Int) (buf : Mem) :
    Avoids .bounds (writeDataBlock d blocknum buf) fun _ => True := by
  unfold writeDataBlock
  split
  · exact writeAt_avoids d _ _ _
  · exact .stop (by decide)

theorem allocDataBlock_avoids (tempBuf : Mem) :
    Avoids .bounds (allocDataBlock tempBuf d) fun _ => True := by
  have hread : Avoids .bounds (readSuperBlock d) fun _ => True :=
    (readAt_avoids d 0 64).bind fun _ _ => .ok trivial
  refine hread.bind fun superblock _ => ?_
  split
  · exact .ok trivial
  · exact .ok trivial

end Routines

/-! ## The subscripts of a write -/

/-- The allocation loop over slots in 0..3.  The clean-up loop comes to no block. -/
theorem allocLoop_avoids (tempBuf : Nat → Mem) (slots : List Int) :
    ∀ (is : List Int) (inode : Inode) (d : Disk), (∀ j ∈ is, 0 ≤ j ∧ j < 4) →
      Avoids .bounds (allocLoop tempBuf slots is inode d) fun _ => True := by
  intro is
  induction is with
  | nil => exact fun _ _ _ => .ok trivial
  | cons j is ih =>
    intro inode d hrange
    obtain ⟨hj0, hj4⟩ := hrange j List.mem_cons_self
    have hrest : ∀ j ∈ is, 0 ≤ j ∧ j < 4 := fun j hj => hrange j (List.mem_cons_of_mem _ hj)
    obtain ⟨c, rfl⟩ : ∃ c : Fin 4, j = c.val := ⟨⟨j.toNat, by omega⟩, by simp only; omega⟩
    simp only [allocLoop, index_ok, ok_bind]
    split
    · rename_i hc
      refine (allocDataBlock_avoids d (tempBuf c)).bind fun r _ => ?_
      obtain ⟨r, d₁⟩ := r
      cases r with
      | none =>
        simp only [undoLoop_empty (tempBuf c) hc, ok_bind]
        exact .ok trivial
      | some b => exact ih _ d₁ hrest
    · exact ih inode d hrest

/-- The partial block of a write at `o`, and where the loop goes on. -/
theorem writePartial_avoids (inode : Inode) (buf : Mem) (d : Disk) {o n : Nat} (ho : o ≤ 256) :
    Avoids .bounds (writePartial inode buf n (o % 64 : Nat) ((o + 63) / 64 : Nat) d)
      fun r => r.2.1 = (if o % 64 = 0 then 0 else min (64 - o % 64) n) ∧
        r.2.2 = ((o + 63) / 64 : Nat) := by
  by_cases hoff : o % 64 = 0
  · rw [hoff]
    exact (writePartial_aligned inode buf n _ d).symm ▸ .ok ⟨rfl, rfl⟩
  · have hne : ((o % 64 : Nat) : Int) ≠ 0 := by omega
    have hneg : ¬ ((o % 64 : Nat) : Int) < 0 := by omega
    obtain ⟨i, hi⟩ : ∃ i : Fin 4, i.val = o / 64 := ⟨⟨o / 64, by omega⟩, rfl⟩
    have hidx : (((o + 63) / 64 : Nat) : Int) - 1 = i.val := by omega
    have hadd : (min (64 - ((o % 64 : Nat) : Int)) (n : Int)).toNat = min (64 - o % 64) n := by
      omega
    simp only [writePartial, ne_eq, hne, not_false_eq_true, if_true, hidx, index_ok, ok_bind,
      if_neg hneg, if_neg hoff]
    refine (readDataBlock_avoids d _).bind fun temp _ => ?_
    refine (writeDataBlock_avoids d _ _).bind fun d₁ _ => .ok ⟨hadd, ?_⟩
    simp only
    omega

/-- The `while` loop, where the slots that are left are below 4. -/
theorem writeLoop_avoids (inode : Inode) (buf : Mem) (n : Nat) :
    ∀ (fuel : Nat) (d : Disk) (m ci : Nat), (∀ c, ci ≤ c → m + 64 * (c - ci) < n → c < 4) →
      Avoids .bounds (writeLoop inode buf n fuel d m ci) fun _ => True := by
  intro fuel
  induction fuel with
  | zero => exact fun _ _ _ _ => .ok trivial
  | succ fuel ih =>
    intro d m ci hrange
    unfold writeLoop
    split
    · rename_i hlt
      have hci : ci < 4 := hrange ci (Nat.le_refl _) (by omega)
      have hidx : index 4 ci = .ok ⟨ci, hci⟩ := index_ok (⟨ci, hci⟩ : Fin 4)
      rw [hidx, ok_bind]
      refine (writeDataBlock_avoids d _ _).bind fun d₁ _ => ?_
      exact ih d₁ _ (ci + 1) fun c hc hlt' => hrange c (by omega) (by omega)
    · exact .ok trivial

/-- **The subscripts of `simplefs_write`** stay in range for an offset in 0..256 and a sum that
    does not overflow, whatever is on disk. -/
theorem write_avoids (tempBuf : Nat → Mem) (h : Fin 20) (buf : Mem) {nbytes : Int32} {fs : FS}
    (h0 : 0 ≤ (fs.fileHandleArray h).offset.toInt)
    (h256 : (fs.fileHandleArray h).offset.toInt ≤ 256)
    (hover : NoOverflow (fs.fileHandleArray h).offset nbytes) :
    Avoids .bounds (Ops.write tempBuf h buf nbytes fs) fun _ => True := by
  have hsum := toInt_add_of_fits hover.1 hover.2
  obtain ⟨o, ho⟩ : ∃ o : Nat, (fs.fileHandleArray h).offset.toInt = o :=
    ⟨_, (Int.toNat_of_nonneg h0).symm⟩
  refine (readInode_avoids fs.disk _).bind fun inodeptr _ => ?_
  by_cases hst : inodeptr.status = inodeFree
  · rw [if_pos hst]
    exact .ok trivial
  · rw [if_neg hst]
    by_cases hrej : nbytes.toInt < 0 ∨ 256 < ((fs.fileHandleArray h).offset + nbytes).toInt
    · rw [if_pos hrej]
      exact .ok trivial
    · rw [if_neg hrej]
      obtain ⟨n, hn⟩ : ∃ n : Nat, nbytes.toInt = n :=
        ⟨_, (Int.toNat_of_nonneg (by omega)).symm⟩
      have hend : ((fs.fileHandleArray h).offset + nbytes).toInt = (o + n : Nat) := by
        rw [hsum, ho, hn]
        rfl
      have hmod : ((o : Nat) : Int).tmod 64 = (o % 64 : Nat) := by
        rw [Int.tmod_eq_emod_of_nonneg (by omega)]
        omega
      simp only [hend, ho, hn, roundUp_natCast, hmod, Int.toNat_natCast]
      refine (allocLoop_avoids tempBuf _ _ inodeptr fs.disk fun j hj => ?_).bind fun r _ => ?_
      · rw [mem_slotRange] at hj
        omega
      · obtain ⟨r, d⟩ := r
        cases r with
        | none => exact .ok trivial
        | some inodeptr' =>
          refine (writePartial_avoids inodeptr' buf d (by omega)).bind fun p hp => ?_
          obtain ⟨d₁, m, ci⟩ := p
          simp only at hp
          obtain ⟨hm, rfl⟩ := hp
          refine (writeLoop_avoids inodeptr' buf n n d₁ m ((o + 63) / 64) ?_).bind fun q _ => ?_
          · intro c hc hlt
            split at hm
            · omega
            · omega
          · exact (writeInode_avoids _ _ _).bind fun _ _ => .ok trivial

/-- The loop on a file whose entries all reach the disk, with more to copy than four slots hold. -/
theorem writeLoop_leaves (inode : Inode) (buf : Mem) (n : Nat)
    (hblk : ∀ c, inode.directBlocks c = -1 ∨
      ∃ b : Fin 30, inode.directBlocks c = Int32.ofInt b.val) :
    ∀ (fuel : Nat) (d : Disk) (m ci : Nat), ci ≤ 4 → 4 - ci < fuel → m + 64 * (4 - ci) < n →
      writeLoop inode buf n fuel d m ci = .error .bounds := by
  intro fuel
  induction fuel with
  | zero => exact fun _ _ _ _ hfuel _ => absurd hfuel (by omega)
  | succ fuel ih =>
    intro d m ci hci hfuel hlt
    rw [writeLoop, if_pos (by omega)]
    by_cases h4 : ci = 4
    · rw [h4]
      rfl
    · obtain ⟨c, rfl⟩ : ∃ c : Fin 4, ci = c.val := ⟨⟨ci, by omega⟩, rfl⟩
      have hnext : ∀ d₁, writeLoop inode buf n fuel d₁ (m + min 64 (n - m)) ((c.val : Int) + 1) =
          .error .bounds := fun d₁ => ih d₁ _ (c.val + 1) (by omega) (by omega) (by omega)
      rcases hblk c with hc | ⟨b, hb⟩
      · have hnum : (inode.directBlocks c).toInt = -1 := by
          rw [hc]
          decide
        simp only [index_ok, ok_bind, hnum, writeDataBlock_neg_one]
        exact hnext _
      · have hnum : (inode.directBlocks c).toInt = b.val := by rw [hb, toInt_ofInt_fin (by omega)]
        simp only [index_ok, ok_bind, hnum, writeDataBlock_ok]
        exact hnext _

/-- The partial block of such a file. -/
theorem writePartial_ends (inode : Inode) (buf : Mem) {d : Disk} {o n : Nat} (ho : o ≤ 256)
    (hd : d.Formatted) (hblk : ∀ c, inode.directBlocks c ≠ -1 →
      ∃ b : Fin 30, inode.directBlocks c = Int32.ofInt b.val ∧ d.Present b) :
    ∃ d₁ m, m ≤ 64 ∧ writePartial inode buf n (o % 64 : Nat) ((o + 63) / 64 : Nat) d =
      .ok (d₁, m, ((o + 63) / 64 : Nat)) := by
  by_cases hoff : o % 64 = 0
  · refine ⟨d, 0, by omega, ?_⟩
    rw [hoff]
    exact writePartial_aligned inode buf n _ d
  · obtain ⟨i, hi⟩ : ∃ i : Fin 4, i.val = o / 64 := ⟨⟨o / 64, by omega⟩, rfl⟩
    by_cases hc : inode.directBlocks i = -1
    · have hnum : (inode.directBlocks i).toInt = -1 := by
        rw [hc]
        decide
      refine ⟨d.pwrite 256 64 (patch (view d.byte 256) (o % 64) n buf), _, by omega,
        writePartial_ok inode buf hoff hi (b := view d.byte 256) ?_ ?_⟩
      · rw [hnum, readDataBlock_neg_one hd]
      · rw [hnum, writeDataBlock_neg_one]
    · obtain ⟨b, hb, hpres⟩ := hblk i hc
      have hnum : (inode.directBlocks i).toInt = b.val := by
        rw [hb, toInt_ofInt_fin (by omega)]
      refine ⟨d.setBlock b (patch (d.block b) (o % 64) n buf), _, by omega,
        writePartial_ok inode buf hoff hi (b := d.block b) ?_ ?_⟩
      · rw [hnum, readDataBlock_ok hpres]
      · rw [hnum, writeDataBlock_ok]

theorem roundUp_nonpos {z : Int} (hz : z ≤ -64) : roundUp z ≤ 0 := by
  obtain ⟨w, rfl⟩ : ∃ w : Nat, z = -(w : Int) := ⟨(-z).toNat, by omega⟩
  have hdiv : (-(w : Int)).tdiv 64 = -((w : Int) / 64) := by
    rw [Int.neg_tdiv, Int.tdiv_eq_ediv_of_nonneg (by omega)]
  unfold roundUp
  rw [hdiv]
  split <;> omega

/-- **A sum that overflows** passes the check of a write, and the subscript runs over the end of
    `direct_blocks`. -/
theorem write_leaves (tempBuf : Nat → Mem) (buf : Mem) {fs : FS} {h : Fin 20} {i : Fin 8}
    {nbytes : Int32} (hd : Owned fs.disk) (hi : fs.Bound h i) (huse : fs.disk.InUse i)
    (h0 : 0 ≤ (fs.fileHandleArray h).offset.toInt)
    (h256 : (fs.fileHandleArray h).offset.toInt ≤ 256) (hn : 0 ≤ nbytes.toInt)
    (hover : 2147483648 ≤ (fs.fileHandleArray h).offset.toInt + nbytes.toInt) :
    Ops.write tempBuf h buf nbytes fs = .error .bounds := by
  have hnum : (fs.fileHandleArray h).inodeNumber.toInt = i.val := by
    rw [hi, toInt_ofInt_fin (by omega)]
  obtain ⟨o, ho⟩ : ∃ o : Nat, (fs.fileHandleArray h).offset.toInt = o :=
    ⟨_, (Int.toNat_of_nonneg h0).symm⟩
  obtain ⟨n, hn⟩ : ∃ n : Nat, nbytes.toInt = n := ⟨_, (Int.toNat_of_nonneg hn).symm⟩
  have hlt := nbytes.toInt_lt
  have hend : ((fs.fileHandleArray h).offset + nbytes).toInt = (o : Int) + n - 4294967296 := by
    rw [Int32.toInt_add, ho, hn, Int.bmod]
    simp
    omega
  have hrej : ¬ ((n : Int) < 0 ∨ 256 < (o : Int) + n - 4294967296) := by omega
  -- the loop over the slots has no turn
  have hslots : slotRange ((o + 63) / 64 : Nat) (roundUp ((o : Int) + n - 4294967296)) = [] := by
    have hround : roundUp ((o : Int) + n - 4294967296) ≤ 0 := roundUp_nonpos (by omega)
    rw [slotRange, show (roundUp ((o : Int) + n - 4294967296) - ((o + 63) / 64 : Nat)).toNat = 0
      by omega]
    rfl
  have hmod : ((o : Nat) : Int).tmod 64 = (o % 64 : Nat) := by
    rw [Int.tmod_eq_emod_of_nonneg (by omega)]
    omega
  obtain ⟨d₁, m, hm, hpart⟩ := writePartial_ends (fs.disk.inode i) buf (n := n)
    (show o ≤ 256 by omega) hd.formatted hd.blocks
  have hloop := writeLoop_leaves (fs.disk.inode i) buf n (hd.range i) n d₁ m
    ((o + 63) / 64) (by omega) (by omega) (by omega)
  simp only [Ops.write, hnum, readInode_ok hd.formatted, ok_bind, if_neg huse.ne_free, hend, hn,
    if_neg hrej, ho, roundUp_natCast, hslots, hmod, Int.toNat_natCast, allocLoop, hpart, hloop,
    error_bind]

/-! ## The offsets of a run -/

section Handles

variable {fs fs' : FS}

theorem create_handles {tempBuf : Mem} {f : CStr} {r : Option (Fin 8)}
    (hrun : Ops.create tempBuf f fs = .ok (r, fs')) :
    fs'.fileHandleArray = fs.fileHandleArray := by
  rw [Ops.create, bind_eq_ok] at hrun
  obtain ⟨⟨found, last⟩, -, hrun⟩ := hrun
  cases found with
  | some j =>
    cases hrun
    rfl
  | none =>
    simp only [Option.isSome_none, Bool.false_eq_true, if_false, bind_eq_ok] at hrun
    obtain ⟨⟨r', d⟩, -, hrun⟩ := hrun
    cases r' with
    | none =>
      cases hrun
      rfl
    | some j =>
      simp only [bind_eq_ok] at hrun
      obtain ⟨t, -, d', -, hrun⟩ := hrun
      cases hrun
      rfl

theorem delete_handles {tempBuf : Nat → Mem} {f : CStr}
    (hrun : Ops.delete tempBuf f fs = .ok fs') : fs'.fileHandleArray = fs.fileHandleArray := by
  rw [Ops.delete, bind_eq_ok] at hrun
  obtain ⟨⟨found, last⟩, -, hrun⟩ := hrun
  cases found with
  | none =>
    cases hrun
    rfl
  | some j =>
    simp only [bind_eq_ok] at hrun
    obtain ⟨d₁, -, t, -, d₂, -, d₃, -, hrun⟩ := hrun
    cases hrun
    rfl

theorem write_handles {tempBuf : Nat → Mem} {h : Fin 20} {buf : Mem} {nbytes : Int32} {r : Int}
    (hrun : Ops.write tempBuf h buf nbytes fs = .ok (r, fs')) :
    fs'.fileHandleArray = fs.fileHandleArray := by
  rw [Ops.write, bind_eq_ok] at hrun
  obtain ⟨record, -, hrun⟩ := hrun
  by_cases hst : record.status = inodeFree
  · rw [if_pos hst] at hrun
    cases hrun
    rfl
  · rw [if_neg hst] at hrun
    by_cases hrej : nbytes.toInt < 0 ∨ 256 < ((fs.fileHandleArray h).offset + nbytes).toInt
    · rw [if_pos hrej] at hrun
      cases hrun
      rfl
    · rw [if_neg hrej, bind_eq_ok] at hrun
      obtain ⟨⟨filled, d⟩, -, hrun⟩ := hrun
      cases filled with
      | none =>
        cases hrun
        rfl
      | some inode' =>
        simp only [bind_eq_ok] at hrun
        obtain ⟨x, -, y, -, d₁, -, hrun⟩ := hrun
        cases hrun
        rfl

/-- **What a call does to an offset**, on any disk: it leaves it, or the handle is opened or
    closed, or it is the one that a seek moves. -/
theorem exec_offset {u : Uninit} {op : Op} {r : Ret} (hrun : Ops.exec u fs op = .ok (r, fs'))
    (k : Fin 20) :
    (fs'.fileHandleArray k).offset = (fs.fileHandleArray k).offset ∨
    (fs'.fileHandleArray k).offset = 0 ∨
    ∃ nseek, op = .seek k nseek ∧
      (fs'.fileHandleArray k).offset = (fs.fileHandleArray k).offset + nseek := by
  cases op with
  | create f =>
    simp only [Ops.exec, bind_eq_ok] at hrun
    obtain ⟨⟨r', fs''⟩, hcall, hrun⟩ := hrun
    cases hrun
    rw [create_handles hcall]
    exact .inl rfl
  | delete f =>
    simp only [Ops.exec, bind_eq_ok] at hrun
    obtain ⟨fs'', hcall, hrun⟩ := hrun
    cases hrun
    rw [delete_handles hcall]
    exact .inl rfl
  | openFile f =>
    simp only [Ops.exec, Ops.openFile, bind_eq_ok] at hrun
    obtain ⟨⟨r', fs''⟩, ⟨⟨found, last⟩, -, hopen⟩, hrun⟩ := hrun
    cases hrun
    cases found with
    | none =>
      cases hopen
      exact .inl rfl
    | some i =>
      simp only [pure_eq_ok, Except.ok.injEq, Ops.bindHandle] at hopen
      split at hopen
      · rename_i k' _
        obtain ⟨-, rfl⟩ := Prod.mk.inj hopen
        by_cases hk : k = k'
        · rw [hk, FS.setHandle_self]
          exact .inr (.inl rfl)
        · rw [FS.setHandle_ne _ _ _ hk]
          exact .inl rfl
      · obtain ⟨-, rfl⟩ := Prod.mk.inj hopen
        exact .inl rfl
  | close k' =>
    cases hrun
    by_cases hk : k = k'
    · rw [hk, Ops.close, FS.setHandle_self]
      exact .inr (.inl rfl)
    · rw [Ops.close, FS.setHandle_ne _ _ _ hk]
      exact .inl rfl
  | seek k' nseek =>
    simp only [Ops.exec, seek_eq, pure_eq_ok, Except.ok.injEq, Prod.mk.injEq] at hrun
    obtain ⟨-, rfl⟩ := hrun
    by_cases hk : k = k'
    · subst hk
      refine .inr (.inr ⟨nseek, rfl, ?_⟩)
      rw [FS.setHandle_self]
    · rw [FS.setHandle_ne _ _ _ hk]
      exact .inl rfl
  | read k' nbytes =>
    simp only [Ops.exec, bind_eq_ok] at hrun
    obtain ⟨x, -, hrun⟩ := hrun
    cases hrun
    exact .inl rfl
  | write k' buf nbytes =>
    rw [write_handles (exec_write hrun).1]
    exact .inl rfl

end Handles

/-- The sum that a seek computes is in 0..256. -/
def Landing (handle : FileHandle) (nseek : Int32) : Prop :=
  0 ≤ (handle.offset + nseek).toInt ∧ (handle.offset + nseek).toInt ≤ 256

instance (handle : FileHandle) (nseek : Int32) : Decidable (Landing handle nseek) :=
  inferInstanceAs (Decidable (_ ∧ _))

/-- A client whose seeks land in the file. -/
def Aimed (s : FS × History) (e : Event) : Prop :=
  ∀ h nseek, e.op = .seek h nseek → Landing (s.1.fileHandleArray h) nseek

theorem aimed_reach {s : FS × History} (h : (simplefsHistory.guard Aimed).Reach s) :
    Offsets s.1 := by
  refine Lts.Reach.invariant (I := fun s : FS × History => Offsets s.1) ?_ ?_ h
  · exact fun s hs => offsets_start hs
  · rintro s e s' ho ⟨haim, hrun, -⟩ k
    rcases exec_offset hrun k with hk | hk | ⟨nseek, hop, hk⟩
    · rw [hk]
      exact ho k
    · rw [hk]
      exact ⟨by decide, by decide⟩
    · rw [hk]
      exact haim k nseek hop

/-! ## The three checks -/

/-- An out-of-range seek returns -1 and changes nothing. -/
def SeekSafe (fs : FS) (h : Fin 20) (nseek : Int32) : Prop :=
  ¬ Landing (fs.fileHandleArray h) nseek → Ops.seek h nseek fs = (-1, fs)

/-- No subscript of a write is out of range. -/
def WriteSafe (fs : FS) (h : Fin 20) (nbytes : Int32) : Prop :=
  ∀ tempBuf buf, Ops.write tempBuf h buf nbytes fs ≠ .error .bounds

/-- The positions of the staging buffer that a read hands to `strncpy`. -/
def Staging (o n : Int) : Prop := ∀ k : Nat, (k : Int) < n → 0 ≤ o + k ∧ o + k < 256

theorem seekSafe_iff (fs : FS) (h : Fin 20) (nseek : Int32) :
    SeekSafe fs h nseek ↔ Landing (fs.fileHandleArray h) nseek := by
  constructor
  · intro hsafe
    by_contra hout
    have hseek := hsafe hout
    rw [seek_eq, Prod.mk.injEq] at hseek
    exact absurd hseek.1 (by decide)
  · exact fun hland hout => absurd hland hout

theorem staging_iff {o n : Int} (h0 : 0 ≤ o) (h256 : o ≤ 256) : Staging o n ↔ o + n ≤ 256 := by
  constructor
  · intro h
    by_contra hlt
    have := h (256 - o).toNat (by omega)
    omega
  · intro h k hk
    omega

theorem FS.Refuses.writeSafe {fs : FS} {h : Fin 20} {nbytes : Int32} (href : fs.Refuses h nbytes) :
    WriteSafe fs h nbytes := by
  obtain ⟨record, hrec, hrej⟩ := href
  intro tempBuf buf hfault
  rw [write_refused tempBuf buf hrec hrej] at hfault
  cases hfault

theorem NoOverflow.writeSafe {fs : FS} {h : Fin 20} {nbytes : Int32} (ho : Offsets fs)
    (hover : NoOverflow (fs.fileHandleArray h).offset nbytes) : WriteSafe fs h nbytes := by
  intro tempBuf buf hfault
  have havoid := write_avoids tempBuf h buf (ho h).1 (ho h).2 hover
  rw [hfault] at havoid
  exact havoid rfl

/-- On a disk in order, behind a handle of a file in use, no other write is safe. -/
theorem WriteSafe.cases {fs : FS} {h : Fin 20} {i : Fin 8} {nbytes : Int32} (ho : Offsets fs)
    (hd : Owned fs.disk) (hi : fs.Bound h i) (huse : fs.disk.InUse i)
    (hsafe : WriteSafe fs h nbytes) :
    NoOverflow (fs.fileHandleArray h).offset nbytes ∨ fs.Refuses h nbytes := by
  have hrec : readInode fs.disk (fs.fileHandleArray h).inodeNumber.toInt =
      .ok (fs.disk.inode i) := by
    rw [hi, toInt_ofInt_fin (by omega)]
    exact readInode_ok hd.formatted i
  obtain ⟨h0, h256⟩ := ho h
  by_cases hneg : nbytes.toInt < 0
  · exact .inr ⟨_, hrec, .inr (.inl hneg)⟩
  · left
    constructor
    · omega
    · by_contra hover
      exact hsafe (fun _ _ => 0) (fun _ => 0) (write_leaves _ _ hd hi huse h0 h256 (by omega)
        (by omega))

/-- A read that returns delivers unless its check refuses it. -/
theorem read_returns {temp : Int → UInt8} {fs : FS} {h : Fin 20} {nbytes : Int32} {record : Inode}
    {r : Int} {data : List UInt8}
    (hrec : readInode fs.disk (fs.fileHandleArray h).inodeNumber.toInt = .ok record)
    (hrun : Ops.read temp h nbytes fs = .ok (r, data)) :
    r = 0 ↔ ¬ ReadRefused fs h nbytes record := by
  by_cases href : ReadRefused fs h nbytes record
  · rw [read_refused temp hrec href, Except.ok.injEq, Prod.mk.injEq] at hrun
    obtain ⟨rfl, -⟩ := hrun
    exact ⟨fun h0 => absurd h0 (by decide), fun hno => absurd href hno⟩
  · have href' := href
    rw [ReadRefused] at href'
    simp only [Ops.read, hrec, ok_bind, if_neg href', bind_eq_ok] at hrun
    obtain ⟨temp', -, hrun⟩ := hrun
    simp only [pure_eq_ok, Except.ok.injEq, Prod.mk.injEq] at hrun
    exact ⟨fun _ => href, fun _ => hrun.1.symm⟩

/-- **Offset safety.**  In every state of a run whose seeks land in 0..256 every offset is there.
    A seek obeys exactly where it lands; the subscripts of a write are in range where it is refused
    or its sum does not overflow, and on a disk in order only there; the bytes that a read copies
    are in the staging buffer exactly where it is refused or its end is. -/
theorem offset_safety {s : FS × History} (hs : (simplefsHistory.guard Aimed).Reach s) :
    Offsets s.1 ∧ ∀ h : Fin 20,
      (∀ nseek, SeekSafe s.1 h nseek ↔ Landing (s.1.fileHandleArray h) nseek) ∧
      (∀ nbytes, NoOverflow (s.1.fileHandleArray h).offset nbytes ∨ s.1.Refuses h nbytes →
        WriteSafe s.1 h nbytes) ∧
      (∀ nbytes i, Owned s.1.disk → s.1.Bound h i → s.1.disk.InUse i → WriteSafe s.1 h nbytes →
        NoOverflow (s.1.fileHandleArray h).offset nbytes ∨ s.1.Refuses h nbytes) ∧
      ∀ nbytes record temp r data,
        readInode s.1.disk (s.1.fileHandleArray h).inodeNumber.toInt = .ok record →
        Ops.read temp h nbytes s.1 = .ok (r, data) →
        ((r = 0 → Staging (s.1.fileHandleArray h).offset.toInt nbytes.toInt) ↔
          ReadRefused s.1 h nbytes record ∨
            (s.1.fileHandleArray h).offset.toInt + nbytes.toInt ≤ 256) := by
  have ho := aimed_reach hs
  refine ⟨ho, fun h => ⟨seekSafe_iff s.1 h, ?_, ?_, ?_⟩⟩
  · rintro nbytes (hover | href)
    · exact hover.writeSafe ho
    · exact href.writeSafe
  · intro nbytes i hd hi huse hsafe
    exact hsafe.cases ho hd hi huse
  · intro nbytes record temp r data hrec hrun
    rw [read_returns hrec hrun, staging_iff (ho h).1 (ho h).2]
    constructor
    · intro himp
      by_cases href : ReadRefused s.1 h nbytes record
      · exact .inl href
      · exact .inr (himp href)
    · exact fun hc hno => hc.resolve_left hno

/-- The calls of `Disciplined` whose seeks land in the file. -/
def aims (s : FS × History) (e : Event) : Bool :=
  decide (Disciplined s e.op) && match e.op with
    | .seek h nseek => decide (Landing (s.1.fileHandleArray h) nseek)
    | _ => true

theorem aimed_of_aims {s : FS × History} {e : Event} (h : aims s e = true) :
    Disciplined s e.op ∧ Aimed s e := by
  rw [aims, Bool.and_eq_true] at h
  refine ⟨of_decide_eq_true h.1, fun k nseek hop => ?_⟩
  have haim := h.2
  rw [hop] at haim
  exact of_decide_eq_true haim

/-- A file of 70 bytes with a handle at 60: a seek before the file is not refused, a write whose sum
    overflows leaves `direct_blocks`, and a read of the last bytes stays in the buffer. -/
theorem offset_safety_end : ∃ s data,
    (simplefsHistory.guard Aimed).Reach s ∧ s.2.Live 0 ∧ Offsets s.1 ∧
      SeekSafe s.1 0 10 ∧ ¬ SeekSafe s.1 0 (-61) ∧
      WriteSafe s.1 0 20 ∧ ¬ WriteSafe s.1 0 2147483647 ∧
      Ops.read (fun _ => 0) 0 10 s.1 = .ok (0, data) ∧
      Staging (s.1.fileHandleArray 0).offset.toInt (10 : Int32).toInt := by
  have hrun : (runGuarded aims [.create nameA, .openFile nameA, .write 0 (fun _ => 120) 70,
      .seek 0 64, .seek 0 (-4)]).bind
      (fun s => (Ops.read (fun _ => 0) 0 10 s.1).toOption.map fun x =>
        ([decide (s.2.Live 0), decide (s.1.Bound 0 0), decide (s.1.disk.InUse 0)],
          (s.1.fileHandleArray 0).offset, x.1)) =
      some ([true, true, true], 60, 0) := by decide +kernel
  obtain ⟨s, hs, hx⟩ := Option.bind_eq_some_iff.mp hrun
  obtain ⟨⟨r, data⟩, hread, hfacts⟩ := Option.map_eq_some_iff.mp hx
  simp only [Prod.mk.injEq, List.cons.injEq, and_true, decide_eq_true_eq] at hfacts
  obtain ⟨⟨hl, hbound, huse⟩, hoff, rfl⟩ := hfacts
  have hreach : (simplefsHistory.guard Aimed).Reach s :=
    runGuarded_reach hs fun s e _ hc => (aimed_of_aims hc).2
  have hinv : Inv s := Inv.of_reach (runGuarded_reach hs fun s e _ hc => (aimed_of_aims hc).1)
  have hread := toOption_eq_some.mp hread
  have hrec : readInode s.1.disk (s.1.fileHandleArray 0).inodeNumber.toInt =
      .ok (s.1.disk.inode 0) := by
    rw [hbound, toInt_ofInt_fin (by omega)]
    exact readInode_ok hinv.owned.formatted 0
  obtain ⟨ho, hcalls⟩ := offset_safety hreach
  obtain ⟨hseek, hwrite, hwrite', hreads⟩ := hcalls 0
  refine ⟨s, data, hreach, hl, ho, (hseek 10).mpr ?_, fun hsafe => ?_, hwrite 20 (.inl ?_),
    fun hsafe => ?_, hread, (hreads 10 _ _ _ _ hrec hread).mpr (.inr ?_) rfl⟩
  · rw [Landing, hoff]
    decide
  · have hland := (hseek (-61)).mp hsafe
    rw [Landing, hoff] at hland
    exact absurd hland (by decide)
  · rw [hoff]
    decide
  · rcases hwrite' _ 0 hinv.owned hbound huse hsafe with hover | ⟨record, hrec', href⟩
    · rw [hoff] at hover
      exact absurd hover (by decide)
    · -- the record is in use, and the sum is negative
      obtain rfl := Except.ok.inj (hrec.symm.trans hrec')
      rcases href with hfree | hneg | hhigh
      · exact huse.ne_free hfree
      · exact absurd hneg (by decide)
      · rw [hoff] at hhigh
        exact absurd hhigh (by decide)
  · rw [hoff]
    decide

/-- **A seek by -5** from the start of a file is accepted. -/
theorem offset_negative :
    ¬ ∀ s, simplefsHistory.Reach s → ∀ h, s.2.Live h →
      0 ≤ (s.1.fileHandleArray h).offset.toInt ∧ (s.1.fileHandleArray h).offset.toInt ≤ 256 := by
  intro hall
  have hrun : (runFormatted [.create nameA, .openFile nameA, .seek 0 (-5)]).map
      (fun s => (s.2.slot 0, s.2.inst 0, (s.1.fileHandleArray 0).offset)) =
      some (some 0, some 0, -5) := by decide +kernel
  obtain ⟨s, hs, hfacts⟩ := Option.map_eq_some_iff.mp hrun
  simp only [Prod.mk.injEq] at hfacts
  obtain ⟨hslot, hinst, hoff⟩ := hfacts
  have hguard : (simplefsHistory.guard fun _ _ => True).Reach s :=
    runFormatted_reach hs fun _ _ _ => trivial
  have hneg := (hall s hguard.of_guard 0 ⟨0, 0, hslot, hinst⟩).1
  rw [hoff] at hneg
  exact absurd hneg (by decide)

end OsCodes.SimpleFS
